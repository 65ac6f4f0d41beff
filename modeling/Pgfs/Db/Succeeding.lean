import Pgfs.Db.Reading
import Pgfs.Db.Tree

namespace Pgfs

/-! Exactly when a method succeeds: it executes a number of statements, each of
which must not fail, and what they make of the tables must be possible. -/

def Kind.cascadeCount : Kind → Nat
  | .file => 0
  | .dir => 2

namespace Tables

def withoutTarget (tables : Tables) (new : Key) : Option Tables :=
  match tables.entries.lookup new with
  | none => some tables
  | some row =>
      if row.kind = .dir ∧ tables.hasChildren new.path = true then none
      else some ((tables.deleteEntry new).2.deleteBlocks new)

def withoutTargetCount (tables : Tables) (new : Key) : Nat :=
  match tables.entries.lookup new with
  | none => 1
  | some row => if row.kind = .dir then 4 else 3

def cascaded (tables : Tables) (kind : Kind) (old new : Key) : Option Tables :=
  match kind with
  | .file => some tables
  | .dir => (tables.cascadeEntries old.path new.path).bind
      (Tables.cascadeBlocks · old.path new.path)

def movedTo (tables : Tables) (old new : Key) (now : Nat) : Option Tables :=
  (tables.moveEntry old new now).bind fun (count, tables) =>
    (tables.moveBlocks old new).bind fun tables =>
      if count = 0 then none else some tables

def renamedTo (tables : Tables) (kind : Kind) (old new : Key) (now : Nat) : Option Tables :=
  ((tables.withoutTarget new).bind (Tables.cascaded · kind old new)).bind
    (Tables.movedTo · old new now)

def renameCount (tables : Tables) (kind : Kind) (new : Key) : Nat :=
  1 + (1 + (tables.withoutTargetCount new + (kind.cascadeCount + 2) + 1))

end Tables

namespace Db

open Effect

def Answers (db : Db) (count : Nat) : Prop :=
  ∀ index < count, (db.world (db.cursor + index)).fails = false

instance (db : Db) (count : Nat) : Decidable (db.Answers count) :=
  inferInstanceAs (Decidable (∀ index < count, _))

def SucceedsIn (before : Db) (body : DbM Value) (count : Nat)
    (result : Option (Value × Tables)) : Prop :=
  ∀ value after, body before = some (.ok value, after) ↔
    before.Answers count ∧
      ∃ tables, result = some (value, tables) ∧ after = (before.advanceBy count).setTables tables

variable {before : Db}

theorem answers_add (first second : Nat) (tables : Tables) :
    before.Answers (first + second) ↔
      before.Answers first ∧ ((before.advanceBy first).setTables tables).Answers second := by
  constructor
  · intro answers
    constructor
    · intro index inside
      exact answers index (by omega)
    · intro index inside
      have answered := answers (first + index) (by omega)
      rw [← Nat.add_assoc] at answered
      exact answered
  · intro answers index inside
    rcases answers with ⟨early, late⟩
    by_cases position : index < first
    · exact early index position
    · have answered : (before.world (before.cursor + first + (index - first))).fails = false :=
        late (index - first) (by omega)
      rw [Nat.add_assoc, Nat.add_sub_cancel' (by omega)] at answered
      exact answered

theorem succeedsIn_pure (value : Value) :
    SucceedsIn before (pure value) 0 (some (value, before.tables)) := by
  intro other after
  constructor
  · intro run
    cases run
    refine ⟨?_, before.tables, rfl, rfl⟩
    intro index inside
    cases inside
  · intro succeeded
    rcases succeeded with ⟨_, tables, equal, rfl⟩
    cases equal
    rfl

theorem succeedsIn_raise (failure : DbError) (count : Nat) :
    SucceedsIn before (raise failure : DbM Value) count none := by
  intro value after
  constructor
  · intro run
    cases run
  · intro succeeded
    rcases succeeded with ⟨_, tables, equal, _⟩
    cases equal

theorem succeedsIn_execute (what : Message)
    (statement : Moment → Tables → Option (Value × Tables)) :
    SucceedsIn before (execute what statement) 1
      (statement before.moment before.tables) := by
  intro value after
  have single : before.Answers 1 ↔ before.moment.fails = false := by
    constructor
    · intro answers
      exact answers 0 (by omega)
    · intro answered index inside
      have first : index = 0 := by omega
      rw [first]
      exact answered
  rw [single]
  unfold execute
  cases fails : before.moment.fails with
  | true => simp
  | false =>
      simp only [Bool.false_eq_true, if_false, true_and]
      cases executed : statement before.moment before.tables with
      | none => simp
      | some result =>
          simp only [Option.some.injEq, Prod.mk.injEq, Except.ok.injEq]
          constructor
          · intro equal
            exact ⟨result.2, Prod.ext equal.1 rfl, equal.2.symm⟩
          · intro succeeded
            rcases succeeded with ⟨tables, equal, rfl⟩
            rw [equal]
            exact ⟨rfl, rfl⟩

theorem succeedsIn_query (what : Message) (read : Tables → Value) :
    SucceedsIn before (query what read) 1 (some (read before.tables, before.tables)) :=
  succeedsIn_execute _ _

theorem succeedsIn_update (what : Message) (change : Moment → Tables → Tables) :
    SucceedsIn before (update what change) 1
      (some ((), change before.moment before.tables)) :=
  succeedsIn_execute _ _

theorem SucceedsIn.bind {first : DbM Value} {next : Value → DbM Result} {count later : Nat}
    {value : Value} {tables : Tables} {result : Option (Result × Tables)}
    (firstSucceeds : SucceedsIn before first count (some (value, tables)))
    (nextSucceeds : SucceedsIn ((before.advanceBy count).setTables tables) (next value) later result) :
    SucceedsIn before (first >>= next) (count + later) result := by
  intro final after
  rw [bind_eq_ok, answers_add count later tables]
  constructor
  · intro run
    rcases run with ⟨middleValue, middle, firstRun, nextRun⟩
    rcases (firstSucceeds _ _).mp firstRun with ⟨early, middleTables, equal, rfl⟩
    cases equal
    rcases (nextSucceeds _ _).mp nextRun with ⟨late, finalTables, same, rfl⟩
    refine ⟨⟨early, late⟩, finalTables, same, ?_⟩
    simp [advanceBy, setTables, Nat.add_assoc]
  · intro succeeded
    rcases succeeded with ⟨⟨early, late⟩, finalTables, same, rfl⟩
    refine ⟨value, _, (firstSucceeds _ _).mpr ⟨early, tables, rfl, rfl⟩, ?_⟩
    refine (nextSucceeds _ _).mpr ⟨late, finalTables, same, ?_⟩
    simp [advanceBy, setTables, Nat.add_assoc]

theorem SucceedsIn.bind_pure {first : DbM Value} {next : Value → DbM Result} {count : Nat}
    {value : Value} {tables : Tables} {final : Result}
    (firstSucceeds : SucceedsIn before first count (some (value, tables)))
    (ends : next value = pure final) :
    SucceedsIn before (first >>= next) count (some (final, tables)) := by
  have rest : SucceedsIn before (first >>= next) (count + 0) (some (final, tables)) := by
    apply firstSucceeds.bind
    rw [ends]
    exact succeedsIn_pure final
  exact rest

theorem SucceedsIn.bind_none {first : DbM Value} {next : Value → DbM Result}
    {count : Nat} (later : Nat)
    (firstSucceeds : SucceedsIn before first count none) :
    SucceedsIn before (first >>= next) later none := by
  intro final after
  rw [bind_eq_ok]
  constructor
  · intro run
    rcases run with ⟨value, middle, firstRun, _⟩
    rcases (firstSucceeds _ _).mp firstRun with ⟨_, tables, equal, _⟩
    cases equal
  · intro succeeded
    rcases succeeded with ⟨_, tables, equal, _⟩
    cases equal

theorem SucceedsIn.andThen {first : DbM Value} {next : Value → DbM Result} {count later : Nat}
    {result : Option (Value × Tables)} {rest : Value × Tables → Option (Result × Tables)}
    (firstSucceeds : SucceedsIn before first count result)
    (nextSucceeds : ∀ value tables, SucceedsIn ((before.advanceBy count).setTables tables)
      (next value) later (rest (value, tables))) :
    SucceedsIn before (first >>= next) (count + later) (result.bind rest) := by
  cases result with
  | none => exact firstSucceeds.bind_none _
  | some reached => exact firstSucceeds.bind (nextSucceeds reached.1 reached.2)

theorem SucceedsIn.transaction {start finish : Message} {body : DbM Value} {count : Nat}
    {result : Option (Value × Tables)}
    (bodySucceeds : SucceedsIn ((before.advanceBy 1).setTables before.tables) body count result) :
    SucceedsIn before (transaction start finish body) (1 + (count + 1)) result := by
  apply (succeedsIn_query start fun _ => ()).bind
  intro value after
  rw [restoringOnFailure_eq_ok]
  revert value after
  cases result with
  | none => exact bodySucceeds.bind_none _
  | some reached =>
      apply bodySucceeds.bind
      exact (succeedsIn_query finish fun _ => ()).bind_pure rfl

theorem succeedsIn_getattrPrimary {parent name : Str} {found : Option FileMeta}
    (attributes : before.tables.attributes ⟨parent, name⟩ = .ok found) :
    SucceedsIn before (getattrPrimary parent name) 1 (some (found, before.tables)) := by
  unfold getattrPrimary
  apply (succeedsIn_query _ fun tables => tables.entries.lookup ⟨parent, name⟩).bind_pure
  unfold Tables.attributes at attributes
  cases stored : before.tables.entries.lookup ⟨parent, name⟩ with
  | none =>
      rw [stored] at attributes
      cases attributes
      rfl
  | some row =>
      rw [stored] at attributes
      cases converted : rowToMeta name row with
      | error failure =>
          simp only [converted] at attributes
          cases attributes
      | ok fileMeta =>
          simp only [converted] at attributes
          cases attributes
          simp only [converted]
          rfl

/-! ## Renaming -/

private theorem succeedsIn_remove (newParent newName newPath : Str) (before : Db) :
    SucceedsIn before (do
      update ⟨"remove target _ before overwrite", [newPath]⟩ fun _ tables =>
        (tables.deleteEntry ⟨newParent, newName⟩).2
      update ⟨"remove target blocks for _ before overwrite", [newPath]⟩
        fun _ tables => tables.deleteBlocks ⟨newParent, newName⟩) (1 + 1)
      (some ((), (before.tables.deleteEntry ⟨newParent, newName⟩).2.deleteBlocks
        ⟨newParent, newName⟩)) :=
  (succeedsIn_update _ _).bind (succeedsIn_update _ _)

private theorem succeedsIn_replaceTarget (newParent newName : Str) (before : Db) :
    SucceedsIn before (replaceTarget newParent newName (join newParent newName))
      (before.tables.withoutTargetCount ⟨newParent, newName⟩)
      ((before.tables.withoutTarget ⟨newParent, newName⟩).map fun tables => ((), tables)) := by
  unfold replaceTarget Tables.withoutTarget Tables.withoutTargetCount
  have found : SucceedsIn before _ 1 _ := succeedsIn_query
    ⟨"check target existence for rename to _", [join newParent newName]⟩
    fun tables => tables.entries.lookup ⟨newParent, newName⟩
  cases stored : before.tables.entries.lookup ⟨newParent, newName⟩ with
  | none =>
      rw [stored] at found
      exact found.bind_pure rfl
  | some row =>
      rw [stored] at found
      by_cases directory : row.kind = .dir
      · simp only [directory, true_and]
        show SucceedsIn before _ (1 + (1 + (1 + 1))) _
        apply found.bind
        simp only [if_pos directory]
        apply (succeedsIn_query _ _).bind
        cases occupied : before.tables.hasChildren (join newParent newName) with
        | true =>
            simp only [setTables_tables, occupied, Key.path, if_true]
            exact succeedsIn_raise _ _
        | false =>
            simp only [setTables_tables, occupied, Key.path, Bool.false_eq_true, if_false]
            exact succeedsIn_remove newParent newName _ _
      · simp only [directory, false_and, if_false]
        show SucceedsIn before _ (1 + (1 + 1)) _
        apply found.bind
        simp only [if_neg directory]
        exact succeedsIn_remove newParent newName _ _

private theorem succeedsIn_cascade (old new : Key) (before : Db) :
    SucceedsIn before (cascade old.path new.path) (1 + 1)
      ((before.tables.cascaded .dir old new).map fun tables => ((), tables)) := by
  have parts : (before.tables.cascaded .dir old new).map (fun tables => ((), tables)) =
      ((before.tables.cascadeEntries old.path new.path).map fun tables => ((), tables)).bind
        fun reached => (reached.2.cascadeBlocks old.path new.path).map
          fun tables => ((), tables) := by
    unfold Tables.cascaded
    cases before.tables.cascadeEntries old.path new.path with
    | none => rfl
    | some tables => rfl
  rw [parts]
  exact (succeedsIn_execute _ _).andThen fun _ _ => succeedsIn_execute _ _

private theorem succeedsIn_move (old new : Key) (entryWhat blocksWhat : Message)
    (failure : DbError) (before : Db) :
    SucceedsIn before (do
      let moved ← execute entryWhat fun moment tables =>
        tables.moveEntry old new moment.now
      execute blocksWhat fun _ tables =>
        (tables.moveBlocks old new).map fun tables => ((), tables)
      if moved = 0 then
        Effect.raise failure) (1 + 1)
      ((before.tables.movedTo old new before.moment.now).map fun tables => ((), tables)) := by
  have parts : (before.tables.movedTo old new before.moment.now).map (fun tables => ((), tables)) =
      (before.tables.moveEntry old new before.moment.now).bind fun reached =>
        ((reached.2.moveBlocks old new).map fun tables => ((), tables)).bind
          fun last => if reached.1 = 0 then none else some last := by
    unfold Tables.movedTo
    cases before.tables.moveEntry old new before.moment.now with
    | none => rfl
    | some reached =>
        simp only [Option.bind_some]
        cases reached.2.moveBlocks old new with
        | none => rfl
        | some tables =>
            simp only [Option.bind_some, Option.map_some]
            split <;> rfl
  rw [parts]
  apply (succeedsIn_execute _ _).andThen
  intro moved tables
  show SucceedsIn _ _ (1 + 0) _
  apply (succeedsIn_execute _ _).andThen
  intro _ last
  by_cases none : moved = 0
  · simp only [if_pos none]
    exact succeedsIn_raise _ _
  · simp only [if_neg none]
    exact succeedsIn_pure _

private theorem renamedTo_parts (tables : Tables) (kind : Kind) (old new : Key) (now : Nat) :
    (tables.renamedTo kind old new now).map (fun tables => ((), tables)) =
      ((tables.withoutTarget new).map fun tables => ((), tables)).bind fun replaced =>
        ((replaced.2.cascaded kind old new).map fun tables => ((), tables)).bind
          fun cascaded => (cascaded.2.movedTo old new now).map fun tables => ((), tables) := by
  unfold Tables.renamedTo
  cases tables.withoutTarget new with
  | none => rfl
  | some replaced =>
      simp only [Option.bind_some, Option.map_some]
      cases replaced.cascaded kind old new with
      | none => rfl
      | some cascaded => rfl

private theorem renamedTo_isSome (tables : Tables) (kind : Kind) (old new : Key)
    (now other : Nat) :
    (tables.renamedTo kind old new now).isSome = (tables.renamedTo kind old new other).isSome := by
  unfold Tables.renamedTo
  cases (tables.withoutTarget new).bind (Tables.cascaded · kind old new) with
  | none => rfl
  | some cascaded =>
      simp only [Option.bind_some, Tables.movedTo, Tables.moveEntry]
      cases cascaded.entries.rekey fun key => if key = old then new else key with
      | none => rfl
      | some entries =>
          simp only [Option.map_some, Option.bind_some, Tables.moveBlocks]
          cases cascaded.blocks.rekey fun row =>
              if row.key = old then { row with key := new } else row with
          | none => rfl
          | some blocks =>
              simp only [Option.map_some, Option.bind_some]
              split <;> rfl

private theorem succeedsIn_body (kind : Kind) (old new : Key) (entryWhat blocksWhat : Message)
    (failure : DbError) (before : Db) :
    ∃ now, SucceedsIn before (do
      replaceTarget new.parent new.name new.path
      if kind = .dir then
        cascade old.path new.path
      let moved ← execute entryWhat fun moment tables =>
        tables.moveEntry old new moment.now
      execute blocksWhat fun _ tables =>
        (tables.moveBlocks old new).map fun tables => ((), tables)
      if moved = 0 then
        Effect.raise failure)
      (before.tables.withoutTargetCount new + (kind.cascadeCount + 2))
      ((before.tables.renamedTo kind old new now).map fun tables => ((), tables)) := by
  have replaced := succeedsIn_replaceTarget new.parent new.name before
  cases kind with
  | file =>
      simp only [reduceCtorEq, if_false, renamedTo_parts]
      refine ⟨(before.advanceBy (before.tables.withoutTargetCount new)).moment.now, ?_⟩
      apply replaced.andThen
      intro _ tables
      exact succeedsIn_move old new entryWhat blocksWhat failure _
  | dir =>
      simp only [if_true, renamedTo_parts]
      refine ⟨(before.advanceBy (before.tables.withoutTargetCount new + 2)).moment.now, ?_⟩
      apply replaced.andThen
      intro _ tables
      show SucceedsIn _ _ ((1 + 1) + (1 + 1)) _
      apply (succeedsIn_cascade old new _).andThen
      intro _ cascaded
      exact succeedsIn_move old new entryWhat blocksWhat failure _

/-- A rename between different keys succeeds exactly when its statements are answered,
the target can be replaced and no key is violated. -/
theorem rename_succeeds_iff {old new : Key} {fileMeta : FileMeta}
    (different : ¬(old.parent = new.parent ∧ old.name = new.name))
    (attributes : before.tables.attributes old = .ok (some fileMeta)) :
    (∃ after, rename old.parent old.name new.parent new.name before = some (.ok (), after)) ↔
      before.Answers (before.tables.renameCount fileMeta.kind new) ∧
        (before.tables.renamedTo fileMeta.kind old new 0).isSome = true := by
  have succeeds : ∃ now, SucceedsIn before (rename old.parent old.name new.parent new.name)
      (before.tables.renameCount fileMeta.kind new)
      ((before.tables.renamedTo fileMeta.kind old new now).map fun tables => ((), tables)) := by
    rcases succeedsIn_body fileMeta.kind old new
      ⟨"move entry _ -> _", [old.path, new.path]⟩ ⟨"move blocks _ -> _", [old.path, new.path]⟩
      (.failure ⟨"rename of _ updated zero rows", [old.path]⟩)
      ((((before.advanceBy 1).setTables before.tables).advanceBy 1).setTables before.tables) with
      ⟨now, inside⟩
    refine ⟨now, ?_⟩
    unfold rename
    simp only [if_neg different]
    apply (succeedsIn_getattrPrimary attributes).bind
    exact inside.transaction
  rcases succeeds with ⟨now, succeeds⟩
  rw [renamedTo_isSome _ _ _ _ 0 now]
  constructor
  · intro run
    rcases run with ⟨after, run⟩
    rcases (succeeds _ _).mp run with ⟨answers, tables, possible, _⟩
    rcases Option.map_eq_some_iff.mp possible with ⟨reached, found, _⟩
    exact ⟨answers, Option.isSome_iff_exists.mpr ⟨reached, found⟩⟩
  · intro possible
    rcases Option.isSome_iff_exists.mp possible.2 with ⟨tables, found⟩
    exact ⟨_, (succeeds () _).mpr ⟨possible.1, tables, by rw [found]; rfl, rfl⟩⟩

end Db

end Pgfs
