import Pgfs.Db.Contents
import Pgfs.Db.Namespace

namespace Pgfs

/-! What the namespace methods do to the rows of both tables. -/

namespace Tables

variable {tables : Tables} {key other : Key}

theorem hasChildren_iff {path : Str} :
    tables.hasChildren path = true ↔ ∃ key ∈ tables.entries, key.parent = path := by
  simp [hasChildren, Finmap.mem_keys]

end Tables

/-! ## The cascade -/

def Plain (character : Char) : Prop :=
  character ≠ '%' ∧ character ≠ '_' ∧ character ≠ '\\' ∧ character.utf8Size = 1

instance (character : Char) : Decidable (Plain character) :=
  inferInstanceAs (Decidable (_ ∧ _))

private theorem like_cons {literal : Char} (plain : Plain literal) (pattern text : Str) :
    like (literal :: pattern) text =
      match text with
      | [] => false
      | head :: rest => head == literal && like pattern rest := by
  rcases plain with ⟨percent, underscore, escape, _⟩
  have notLast := fun same (_ : pattern = []) => escape same
  have notEscape := fun other rest same (_ : pattern = other :: rest) => escape same
  cases text with
  | nil => rw [like] <;> assumption
  | cons head rest => rw [like] <;> assumption

/-- On plain text the pattern of the cascade matches exactly what lies below. -/
theorem like_plain {oldPath : Str} (plain : ∀ character ∈ oldPath, Plain character)
    (text : Str) : like (oldPath ++ ['/', '%']) text = true ↔ below oldPath <+: text := by
  induction oldPath generalizing text with
  | nil =>
      rw [List.nil_append, like_cons (by unfold Plain; decide)]
      cases text with
      | nil => simp [below]
      | cons head rest =>
          have anything : like ['%'] rest = true := by simp [like]
          simp only [anything, Bool.and_true, beq_iff_eq, below, List.nil_append]
          rw [List.cons_prefix_cons, eq_comm]
          simp
  | cons first others induction =>
      rw [List.cons_append, like_cons (plain first (by simp))]
      cases text with
      | nil => simp [below]
      | cons head rest =>
          simp only [Bool.and_eq_true, beq_iff_eq, below, List.cons_append,
            List.cons_prefix_cons]
          rw [induction fun other member => plain other (by simp [member]), below, eq_comm]

theorem utf8Len_plain {text : Str} (plain : ∀ character ∈ text, Plain character) :
    text.utf8Len = text.length := by
  unfold Str.utf8Len
  induction text with
  | nil => rfl
  | cons head rest induction =>
      have single : head.utf8Size = 1 := (plain head List.mem_cons_self).2.2.2
      have others := induction fun character member =>
        plain character (List.mem_cons_of_mem head member)
      rw [List.map_cons, List.sum_cons, single, others, List.length_cons, Nat.add_comm]

theorem rewriteParent_plain {oldPath : Str} (plain : ∀ character ∈ oldPath, Plain character)
    (newPath parent : Str) :
    rewriteParent oldPath newPath parent = movePath oldPath newPath parent := by
  have matching : matchesDescendants oldPath parent = true ↔ AtOrBelow oldPath parent := by
    simp [matchesDescendants, AtOrBelow, like_plain plain]
  unfold rewriteParent movePath
  simp only [matching, substringFrom, utf8Len_plain plain, Nat.add_sub_cancel]
/-- Where a rename is meant to take an entry: to the new key, or along with the
path of a directory above it. -/
def Key.moved (old new key : Key) : Key :=
  if key = old then new
  else { key with parent := movePath old.path new.path key.parent }

def cascadeKey (kind : Kind) (old new key : Key) : Key :=
  match kind with
  | .file => key
  | .dir => { key with parent := rewriteParent old.path new.path key.parent }

/-- Where the row of an entry goes in a rename: the cascade first moves what
lies below a directory, and then the entry itself is moved. -/
def relocate (kind : Kind) (old new key : Key) : Key :=
  if cascadeKey kind old new key = old then new else cascadeKey kind old new key

/-- Every row of both tables goes where `move` sends its entry. -/
structure Moved (move : Key → Key) (before after : Tables) : Prop where
  entries : ∀ key row, after.entries.lookup key = some row ↔
    ∃ source, before.entries.lookup source = some row ∧ move source = key
  blocks : ∀ key blockNo data, after.block key blockNo = some data ↔
    ∃ source, before.block source blockNo = some data ∧ move source = key

/-- Every row but those of the replaced target goes where `relocate` sends it.
Only times change. -/
structure Renamed (kind : Kind) (old new : Key) (before after : Tables) : Prop where
  source : (before.entries.lookup old).map (·.kind) = some kind.text
  target : ∀ row, before.entries.lookup new = some row → row.kind = .dir →
    ∀ key ∈ before.entries, key.parent ≠ new.path
  entries_kept : ∀ key row, key ≠ new → before.entries.lookup key = some row →
    ∃ time, after.entries.lookup (relocate kind old new key) =
      some { row with mtime := time }
  entries_reached : ∀ key row, after.entries.lookup key = some row →
    ∃ source time, source ≠ new ∧
      before.entries.lookup source = some { row with mtime := time } ∧
      relocate kind old new source = key
  blocks_kept : ∀ key blockNo data,
    (key = new → before.entries.lookup new = none) →
    before.block key blockNo = some data →
    after.block (relocate kind old new key) blockNo = some data
  blocks_reached : ∀ key blockNo data, after.block key blockNo = some data →
    ∃ source, (source = new → before.entries.lookup new = none) ∧
      before.block source blockNo = some data ∧ relocate kind old new source = key

/-- Every row goes where `move` sends its entry, and no two to one place. -/
structure Rekeyed (move : Key → Key) (before after : Tables) : Prop
    extends Moved move before after where
  entries_apart : ∀ first ∈ before.entries, ∀ second ∈ before.entries,
    move first = move second → first = second
  blocks_apart : ∀ first second blockNo, before.block first blockNo ≠ none →
    before.block second blockNo ≠ none → move first = move second → first = second

/-- The statements of a rename: the replaced target goes, every other row goes where
`relocate` sends it, and the renamed entry gets a new time. -/
structure Carried (kind : Kind) (old new : Key) (before replaced shifted after : Tables)
    (now : Nat) : Prop where
  source : (before.entries.lookup old).map (·.kind) = some kind.text
  target : ∀ row, before.entries.lookup new = some row → row.kind = .dir →
    ∀ key ∈ before.entries, key.parent ≠ new.path
  replaced_entries : ∀ key, replaced.entries.lookup key =
    if key = new then none else before.entries.lookup key
  replaced_blocks : ∀ key blockNo, replaced.block key blockNo =
    if key = new ∧ before.entries.lookup new ≠ none then none
    else before.block key blockNo
  rekeyed : Rekeyed (relocate kind old new) replaced shifted
  touched : after.entries =
    shifted.entries.adjust new fun row => { row with mtime := now }
  blocks : after.blocks = shifted.blocks

theorem Rekeyed.trans {move next : Key → Key} {before middle after : Tables}
    (first : Rekeyed move before middle) (second : Rekeyed next middle after) :
    Rekeyed (next ∘ move) before after where
  entries key row := by
    rw [second.entries]
    constructor
    · rintro ⟨between, found, rfl⟩
      rcases (first.entries between row).mp found with ⟨source, original, rfl⟩
      exact ⟨source, original, rfl⟩
    · rintro ⟨source, original, rfl⟩
      exact ⟨move source, (first.entries _ row).mpr ⟨source, original, rfl⟩, rfl⟩
  blocks key blockNo data := by
    rw [second.blocks]
    constructor
    · rintro ⟨between, found, rfl⟩
      rcases (first.blocks between blockNo data).mp found with ⟨source, original, rfl⟩
      exact ⟨source, original, rfl⟩
    · rintro ⟨source, original, rfl⟩
      exact ⟨move source, (first.blocks _ blockNo data).mpr ⟨source, original, rfl⟩, rfl⟩
  entries_apart source stored other otherStored met := by
    have arrives : ∀ key ∈ before.entries, move key ∈ middle.entries := by
      intro key present
      rcases Table.mem_iff_exists_lookup.mp present with ⟨row, found⟩
      exact Table.mem_iff_exists_lookup.mpr
        ⟨row, (first.entries _ row).mpr ⟨key, found, rfl⟩⟩
    apply first.entries_apart source stored other otherStored
    exact second.entries_apart _ (arrives _ stored) _ (arrives _ otherStored) met
  blocks_apart source other blockNo stored otherStored met := by
    have arrives : ∀ key, before.block key blockNo ≠ none →
        middle.block (move key) blockNo ≠ none := by
      intro key present
      rcases Option.ne_none_iff_exists'.mp present with ⟨data, found⟩
      rw [(first.blocks _ blockNo data).mpr ⟨key, found, rfl⟩]
      exact Option.some_ne_none data
    apply first.blocks_apart source other blockNo stored otherStored
    exact second.blocks_apart _ _ blockNo (arrives _ stored) (arrives _ otherStored) met

theorem Carried.renamed {kind : Kind} {old new : Key}
    {before replaced shifted after : Tables} {now : Nat}
    (carried : Carried kind old new before replaced shifted after now) :
    Renamed kind old new before after where
  source := carried.source
  target := carried.target
  entries_kept key row different stored := by
    have found : shifted.entries.lookup (relocate kind old new key) = some row :=
      (carried.rekeyed.entries _ _).mpr
        ⟨key, by rw [carried.replaced_entries, if_neg different, stored], rfl⟩
    rw [carried.touched, Table.lookup_adjust, found]
    split
    · exact ⟨now, rfl⟩
    · exact ⟨row.mtime, rfl⟩
  entries_reached key row stored := by
    have found : ∃ time, shifted.entries.lookup key = some { row with mtime := time } := by
      rw [carried.touched, Table.lookup_adjust] at stored
      split at stored
      · rcases Option.map_eq_some_iff.mp stored with ⟨original, found, rfl⟩
        exact ⟨original.mtime, found⟩
      · exact ⟨row.mtime, stored⟩
    rcases found with ⟨time, found⟩
    rcases (carried.rekeyed.entries _ _).mp found with ⟨source, original, rfl⟩
    rw [carried.replaced_entries] at original
    split at original
    · cases original
    · rename_i different
      exact ⟨source, time, different, original, rfl⟩
  blocks_kept key blockNo data survives stored := by
    unfold Tables.block
    rw [carried.blocks]
    apply (carried.rekeyed.blocks _ _ _).mpr
    refine ⟨key, ?_, rfl⟩
    rw [carried.replaced_blocks, if_neg fun removed => removed.2 (survives removed.1), stored]
  blocks_reached key blockNo data stored := by
    unfold Tables.block at stored
    rw [carried.blocks] at stored
    rcases (carried.rekeyed.blocks _ _ _).mp stored with ⟨source, original, rfl⟩
    rw [carried.replaced_blocks] at original
    split at original
    · cases original
    · rename_i survives
      exact ⟨source, fun same => by_contra fun occupied => survives ⟨same, occupied⟩,
        original, rfl⟩

namespace Db

variable {before : Db} {parent name : Str}

/-! ## Creating and removing -/

theorem create_atomic :
    Atomic before (create parent name)
      (fun _ tables => ∃ now,
        tables = before.tables.insertEntry ⟨parent, name⟩ .file now)
      False :=
  update_atomic ⟨_, rfl⟩

theorem mkdir_atomic :
    Atomic before (mkdir parent name)
      (fun _ tables => ∃ now,
        tables = before.tables.insertEntry ⟨parent, name⟩ .dir now)
      False :=
  update_atomic ⟨_, rfl⟩

/-- `unlink` may stop between its two statements. -/
theorem unlink_cases {outcome : Except DbError Unit} {after : Db}
    (run : unlink parent name before = some (outcome, after)) :
    SameWorld before after ∧
      (outcome = .ok () ∧ after.tables =
          (before.tables.deleteEntry ⟨parent, name⟩).2.deleteBlocks ⟨parent, name⟩ ∨
        (∃ failure, outcome = .error failure) ∧ ¬Quiet before ∧
          (after.tables = before.tables ∨
            after.tables = (before.tables.deleteEntry ⟨parent, name⟩).2)) := by
  unfold unlink at run
  rcases Effect.bind_eq_some.mp run with
    ⟨_, middle, firstRun, secondRun⟩ | ⟨failure, firstRun, rfl⟩
  · rcases update_cases firstRun with ⟨same, ⟨_, removed⟩ | ⟨⟨_, equal⟩, _⟩⟩
    · rcases update_cases secondRun with
        ⟨nextSame, ⟨ended, pruned⟩ | ⟨failed, loud, kept⟩⟩
      · exact ⟨same.trans nextSame, .inl ⟨ended, by rw [pruned, removed]⟩⟩
      · exact ⟨same.trans nextSame, .inr ⟨failed, fun quiet => loud (same.quiet quiet),
          .inr (kept.trans removed)⟩⟩
    · cases equal
  · rcases update_cases firstRun with ⟨same, ⟨equal, _⟩ | ⟨_, loud, kept⟩⟩
    · cases equal
    · exact ⟨same, .inr ⟨⟨failure, rfl⟩, loud, .inl kept⟩⟩

theorem rmdir_atomic :
    Atomic before (rmdir parent name)
      (fun removed tables =>
        if removed then
          (∀ key ∈ before.tables.entries, key.parent ≠ join parent name) ∧
            tables = (before.tables.deleteEntry ⟨parent, name⟩).2
        else
          tables = before.tables)
      False := by
  unfold rmdir
  refine Atomic.bind_read (fun occupied =>
    occupied = before.tables.hasChildren (join parent name)) (query_atomic ⟨rfl, rfl⟩) ?_
  rintro _ middle _ same rfl
  by_cases occupied : before.tables.hasChildren (join parent name) = true
  · simp only [if_pos occupied]
    exact atomic_pure same
  · simp only [if_neg occupied]
    refine Atomic.bind_pure _ (execute_atomic ?_ (fun violated => by cases violated))
    rintro deleted tables executed
    rw [same] at executed
    have free : ∀ key ∈ before.tables.entries, key.parent ≠ join parent name :=
      fun key member equal => occupied (Tables.hasChildren_iff.mpr ⟨key, member, equal⟩)
    by_cases stored : (⟨parent, name⟩ : Key) ∈ before.tables.entries
    · simp only [Tables.deleteEntry, if_pos stored, Option.some.injEq, Prod.mk.injEq] at executed
      rcases executed with ⟨rfl, rfl⟩
      exact ⟨free, rfl⟩
    · simp only [Tables.deleteEntry, if_neg stored, Option.some.injEq, Prod.mk.injEq,
        Table.erase_of_not_mem stored] at executed
      rcases executed with ⟨rfl, rfl⟩
      rfl

/-! ## Renaming -/

private theorem replaceTarget_inside {newParent newName newPath : Str} :
    Inside before (replaceTarget newParent newName newPath)
      (fun _ tables =>
        (∀ row, before.tables.entries.lookup ⟨newParent, newName⟩ = some row →
          row.kind = .dir → ∀ key ∈ before.tables.entries, key.parent ≠ newPath) ∧
        (∀ key, tables.entries.lookup key =
          if key = ⟨newParent, newName⟩ then none
          else before.tables.entries.lookup key) ∧
        ∀ key blockNo, tables.block key blockNo =
          if key = ⟨newParent, newName⟩ ∧
              before.tables.entries.lookup ⟨newParent, newName⟩ ≠ none then none
          else before.tables.block key blockNo)
      True := by
  unfold replaceTarget
  refine Inside.bind (fun target tables => tables = before.tables ∧
    target = before.tables.entries.lookup ⟨newParent, newName⟩)
    (query_atomic ⟨rfl, rfl⟩).inside ?_
  rintro _ found _ ⟨foundSame, rfl⟩
  cases target : before.tables.entries.lookup ⟨newParent, newName⟩ with
  | none =>
      refine inside_pure ⟨fun _ stored => (nomatch stored), fun key => ?_, fun key _ => ?_⟩
      · rw [foundSame]
        split
        · rename_i same
          rw [same, target]
        · rfl
      · rw [foundSame, if_neg fun replaced => replaced.2 rfl]
  | some row =>
      have removed : ∀ middle : Db, middle.tables = before.tables →
          (row.kind = .dir → ∀ key ∈ before.tables.entries, key.parent ≠ newPath) →
          Inside middle (do
            update ⟨"remove target _ before overwrite", [newPath]⟩ fun _ tables =>
              (tables.deleteEntry ⟨newParent, newName⟩).2
            update ⟨"remove target blocks for _ before overwrite", [newPath]⟩
              fun _ tables => tables.deleteBlocks ⟨newParent, newName⟩)
            (fun _ tables =>
              (∀ other, some row = some other → other.kind = .dir →
                ∀ key ∈ before.tables.entries, key.parent ≠ newPath) ∧
              (∀ key, tables.entries.lookup key =
                if key = ⟨newParent, newName⟩ then none
                else before.tables.entries.lookup key) ∧
              ∀ key blockNo, tables.block key blockNo =
                if key = ⟨newParent, newName⟩ ∧ some row ≠ none then none
                else before.tables.block key blockNo)
            True := by
        intro middle same free
        refine Inside.bind (fun _ tables =>
          tables = (before.tables.deleteEntry ⟨newParent, newName⟩).2)
          (update_atomic (by rw [same])).inside ?_
        intro _ deleted _ deletedTables
        apply (update_atomic _).inside
        rw [deletedTables]
        refine ⟨fun other equal => Option.some.inj equal ▸ free,
          Tables.lookup_deleteEntry _ _, fun key blockNo => ?_⟩
        rw [Tables.block_deleteBlocks]
        simp only [ne_eq, reduceCtorEq, not_false_eq_true, and_true]
        rfl
      by_cases directory : row.kind = .dir
      · simp only [if_pos directory]
        refine Inside.bind (fun occupied tables => tables = before.tables ∧
          occupied = before.tables.hasChildren newPath)
          (query_atomic ⟨foundSame, by rw [foundSame]⟩).inside ?_
        rintro _ checked _ ⟨checkedSame, rfl⟩
        by_cases occupied : before.tables.hasChildren newPath = true
        · simp only [if_pos occupied]
          exact (atomic_raise trivial).inside
        · simp only [if_neg occupied]
          exact removed checked checkedSame fun _ key member equal =>
            occupied (Tables.hasChildren_iff.mpr ⟨key, member, equal⟩)
      · simp only [if_neg directory]
        exact removed found foundSame fun equal => absurd equal directory

private theorem rekeyed_of_rekey {tables moved : Tables} {move : Key → Key}
    (entries : tables.entries.rekey move = some moved.entries)
    (blocks : tables.blocks.rekey (fun row => { row with key := move row.key }) =
      some moved.blocks) : Rekeyed move tables moved where
  entries := Table.rekey_lookup_iff entries
  blocks key blockNo data := by
    unfold Tables.block
    rw [Table.rekey_lookup_iff blocks]
    constructor
    · rintro ⟨⟨source, sourceNo⟩, stored, equal⟩
      cases equal
      exact ⟨source, stored, rfl⟩
    · rintro ⟨source, stored, rfl⟩
      exact ⟨⟨source, blockNo⟩, stored, rfl⟩
  entries_apart first stored second otherStored :=
    Table.rekey_injective entries stored otherStored
  blocks_apart first second blockNo stored otherStored met := by
    have present : ∀ key, tables.block key blockNo ≠ none →
        (⟨key, blockNo⟩ : BlockKey) ∈ tables.blocks := fun key some =>
      Table.mem_iff_exists_lookup.mpr (Option.ne_none_iff_exists'.mp some)
    have same : (⟨first, blockNo⟩ : BlockKey) = ⟨second, blockNo⟩ :=
      Table.rekey_injective blocks (present first stored) (present second otherStored)
        (congrArg (fun key => (⟨key, blockNo⟩ : BlockKey)) met)
    exact congrArg BlockKey.key same

private theorem cascade_inside {oldPath newPath : Str} :
    Inside before (cascade oldPath newPath)
      (fun _ tables => Rekeyed
        (fun key => { key with parent := rewriteParent oldPath newPath key.parent })
        before.tables tables)
      True := by
  unfold cascade
  refine Inside.bind (fun _ tables => tables.blocks = before.tables.blocks ∧
    before.tables.entries.rekey
      (fun key => { key with parent := rewriteParent oldPath newPath key.parent }) =
        some tables.entries)
    (execute_atomic ?_ fun _ => trivial).inside ?_
  · rintro _ tables executed
    simp only [Tables.cascadeEntries, Option.map_map, Option.map_eq_some_iff,
      Function.comp_apply, Prod.mk.injEq, true_and] at executed
    rcases executed with ⟨entries, rekeyed, rfl⟩
    exact ⟨rfl, rekeyed⟩
  · rintro _ middle _ ⟨blocks, rekeyed⟩
    refine (execute_atomic ?_ fun _ => trivial).inside
    rintro _ tables executed
    simp only [Tables.cascadeBlocks, Option.map_map, Option.map_eq_some_iff,
      Function.comp_apply, Prod.mk.injEq, true_and, blocks] at executed
    rcases executed with ⟨moved, blocksRekeyed, rfl⟩
    exact rekeyed_of_rekey rekeyed blocksRekeyed

private theorem move_inside {old new : Key} {entryWhat blocksWhat : Message}
    {failure : DbError} :
    Inside before (do
      let moved ← execute entryWhat fun moment tables =>
        tables.moveEntry old new moment.now
      execute blocksWhat fun _ tables =>
        (tables.moveBlocks old new).map fun tables => ((), tables)
      if moved = 0 then
        Effect.raise failure)
      (fun _ tables => ∃ shifted now,
        Rekeyed (fun key => if key = old then new else key) before.tables shifted ∧
        tables.entries =
          shifted.entries.adjust new (fun row => { row with mtime := now }) ∧
        tables.blocks = shifted.blocks)
      True := by
  refine Inside.bind (fun moved tables => tables.blocks = before.tables.blocks ∧
    ∃ entries, before.tables.entries.rekey (fun key => if key = old then new else key) =
        some entries ∧
      ∃ now, moved ≠ 0 → tables.entries =
        entries.adjust new fun row => { row with mtime := now })
    (execute_atomic ?_ fun _ => trivial).inside ?_
  · rintro _ tables executed
    simp only [Tables.moveEntry, Option.map_eq_some_iff, Prod.mk.injEq] at executed
    rcases executed with ⟨entries, rekeyed, counted, rfl⟩
    refine ⟨rfl, entries, rekeyed, before.moment.now, fun some => ?_⟩
    rw [if_pos]
    by_contra missing
    exact some (by rw [← counted, if_neg missing])
  rintro moved middle _ ⟨blocks, entries, rekeyed, now, stored⟩
  refine Inside.bind (fun _ tables => tables.entries = middle.tables.entries ∧
    Rekeyed (fun key => if key = old then new else key) before.tables
      { entries := entries, blocks := tables.blocks })
    (execute_atomic ?_ fun _ => trivial).inside ?_
  · rintro _ tables executed
    simp only [Tables.moveBlocks, Option.map_map, Option.map_eq_some_iff,
      Function.comp_apply, Prod.mk.injEq, true_and, blocks] at executed
    rcases executed with ⟨moved, blocksRekeyed, rfl⟩
    refine ⟨rfl, rekeyed_of_rekey rekeyed ?_⟩
    rw [← blocksRekeyed]
    congr 1
    funext row
    split <;> rfl
  · rintro _ last _ ⟨lastEntries, shifted⟩
    by_cases none : moved = 0
    · simp only [if_pos none]
      exact (atomic_raise trivial).inside
    · simp only [if_neg none]
      exact inside_pure ⟨_, now, shifted, lastEntries.trans (stored none), rfl⟩

theorem rename_carried {oldParent oldName newParent newName : Str}
    (different : ¬(oldParent = newParent ∧ oldName = newName)) :
    Atomic before (rename oldParent oldName newParent newName)
      (fun _ tables => ∃ kind replaced shifted now,
        Carried kind ⟨oldParent, oldName⟩ ⟨newParent, newName⟩ before.tables replaced
          shifted tables now)
      True := by
  unfold rename
  simp only [if_neg different]
  refine Atomic.bind_read (fun found =>
    before.tables.attributes ⟨oldParent, oldName⟩ = .ok found)
    (getattrPrimary_atomic.imp (fun _ _ => id) fun _ => trivial) ?_
  rintro (_ | fileMeta) found _ foundSame attributes
  · exact atomic_raise trivial
  have source : (before.tables.entries.lookup ⟨oldParent, oldName⟩).map (·.kind) =
      some fileMeta.kind.text := by rw [Tables.lookup_of_attributes attributes]; rfl
  apply transaction_atomic
  intro running _ runningSame
  refine Inside.bind _ replaceTarget_inside ?_
  rintro _ replaced _ ⟨target, replacedEntries, replacedBlocks⟩
  rw [runningSame, foundSame] at target replacedEntries replacedBlocks
  cases kind : fileMeta.kind with
  | file =>
      simp only [reduceCtorEq, if_false]
      refine move_inside.imp ?_ id
      rintro _ tables ⟨shifted, now, moved, touched, blocks⟩
      rw [kind] at source
      exact ⟨.file, replaced.tables, shifted, now, source, target, replacedEntries,
        replacedBlocks, moved, touched, blocks⟩
  | dir =>
      simp only [if_true]
      refine Inside.bind _ cascade_inside ?_
      rintro _ cascaded _ cascades
      refine move_inside.imp ?_ id
      rintro _ tables ⟨shifted, now, moved, touched, blocks⟩
      rw [kind] at source
      exact ⟨.dir, replaced.tables, shifted, now, source, target, replacedEntries,
        replacedBlocks, cascades.trans moved, touched, blocks⟩

theorem rename_atomic {oldParent oldName newParent newName : Str}
    (different : ¬(oldParent = newParent ∧ oldName = newName)) :
    Atomic before (rename oldParent oldName newParent newName)
      (fun _ tables => ∃ kind,
        Renamed kind ⟨oldParent, oldName⟩ ⟨newParent, newName⟩ before.tables tables)
      True := by
  apply (rename_carried different).imp ?_ id
  rintro _ tables ⟨kind, replaced, shifted, now, carried⟩
  exact ⟨kind, carried.renamed⟩

end Db

end Pgfs
