import Pgfs.Namespace.Representing
import Pgfs.Db.Succeeding
import Pgfs.Tree.Owners

namespace Pgfs

/-! A rename that the tree of names allows is one that the statements of `Db::rename`
carry out: no key is violated on the way. -/

namespace Tables

/-- An entry to rename and a new key for it, in a tree whose blocks are owned by files.
What may be replaced is of the same kind, and the cascade rewrites parents as their
paths move. -/
structure RenameAllowed (kind : Kind) (old new : Key) (tables : Tables) : Prop where
  coherent : tables.Coherent
  owned : tables.Owned
  source : tables.kindOf old = some kind.text
  newValid : ValidName new.name
  different : new.path ≠ old.path
  outside : ¬below old.path <+: new.path
  target : ∀ found, tables.kindOf new = some found →
    found = kind.text ∧ (found = .dir → ∀ key ∈ tables.entries, key.parent ≠ new.path)
  cascades : kind = .dir → ∀ key found, tables.kindOf key = some found →
    rewriteParent old.path new.path key.parent = movePath old.path new.path key.parent

namespace RenameAllowed

variable {kind : Kind} {old new key other : Key} {tables replaced cascaded : Tables}
  {found otherFound : KindText}

theorem oldValid (allowed : RenameAllowed kind old new tables) : ValidName old.name :=
  allowed.coherent.names old _ allowed.source

theorem new_ne_old (allowed : RenameAllowed kind old new tables) : new ≠ old :=
  fun same => allowed.different (congrArg Key.path same)

theorem not_below_new (allowed : RenameAllowed kind old new tables)
    (known : tables.kindOf key = some found) : ¬AtOrBelow new.path key.parent :=
  allowed.coherent.not_below_of_childless allowed.newValid
    (fun directory => (allowed.target _ directory).2 rfl) known

theorem cascadeKey_eq (allowed : RenameAllowed kind old new tables)
    (known : tables.kindOf key = some found) :
    cascadeKey kind old new key =
      { key with parent := movePath old.path new.path key.parent } := by
  cases kind with
  | dir =>
      unfold cascadeKey
      rw [allowed.cascades rfl key found known]
  | file =>
      have notRoot := Key.path_ne_nil allowed.oldValid
      have elsewhere : ¬AtOrBelow old.path key.parent := by
        intro inside
        have directory := allowed.coherent.kindOf_of_hasDirectory allowed.oldValid
          (allowed.coherent.hasDirectory_of_below notRoot known inside)
        rw [allowed.source] at directory
        cases directory
      rw [movePath_of_not elsewhere]
      rfl

theorem cascadeKey_old (allowed : RenameAllowed kind old new tables) :
    cascadeKey kind old new old = old := by
  rw [allowed.cascadeKey_eq allowed.source,
    movePath_of_not (Key.not_atOrBelow_parent allowed.oldValid)]

theorem cascadeKey_ne_new (allowed : RenameAllowed kind old new tables)
    (known : tables.kindOf key = some found) (kept : key ≠ new) :
    cascadeKey kind old new key ≠ new := by
  intro arrives
  rw [allowed.cascadeKey_eq known] at arrives
  by_cases inside : AtOrBelow old.path key.parent
  · have below : AtOrBelow new.path new.parent := by
      rw [← congrArg Key.parent arrives]
      exact atOrBelow_movePath inside
    exact Key.not_atOrBelow_parent allowed.newValid below
  · rw [movePath_of_not inside] at arrives
    exact kept arrives

theorem cascadeKey_apart (allowed : RenameAllowed kind old new tables)
    (known : tables.kindOf key = some found) (otherKnown : tables.kindOf other = some otherFound)
    (met : cascadeKey kind old new key = cascadeKey kind old new other) : key = other := by
  rw [allowed.cascadeKey_eq known, allowed.cascadeKey_eq otherKnown] at met
  rcases Key.mk.inj met with ⟨parents, names⟩
  have same : key.parent = other.parent := by
    by_cases inside : AtOrBelow old.path key.parent
    · by_cases otherInside : AtOrBelow old.path other.parent
      · exact movePath_injective inside otherInside parents
      · rw [movePath_of_not otherInside] at parents
        have below := @atOrBelow_movePath _ new.path _ inside
        rw [parents] at below
        exact absurd below (allowed.not_below_new otherKnown)
    · rw [movePath_of_not inside] at parents
      by_cases otherInside : AtOrBelow old.path other.parent
      · have below := @atOrBelow_movePath _ new.path _ otherInside
        rw [← parents] at below
        exact absurd below (allowed.not_below_new known)
      · rwa [movePath_of_not otherInside] at parents
  cases key
  cases other
  cases names
  cases same
  rfl

/-! ## The statements -/

structure Replaced (new : Key) (before after : Tables) : Prop where
  entries : ∀ key, after.entries.lookup key = if key = new then none
    else before.entries.lookup key
  blocks : ∀ key blockNo, after.block key blockNo = if key = new then none
    else before.block key blockNo

theorem exists_withoutTarget (allowed : RenameAllowed kind old new tables) :
    ∃ replaced, tables.withoutTarget new = some replaced ∧ Replaced new tables replaced := by
  unfold withoutTarget
  cases stored : tables.entries.lookup new with
  | none =>
      refine ⟨tables, rfl, fun key => ?_, fun key blockNo => ?_⟩
      · split
        · rename_i same
          rw [same, stored]
        · rfl
      · split
        · rename_i same
          rw [same, allowed.owned.block_eq_none stored]
        · rfl
  | some row =>
      have free : ¬(row.kind = .dir ∧ tables.hasChildren new.path = true) := by
        intro occupied
        rcases hasChildren_iff.mp occupied.2 with ⟨child, member, same⟩
        exact (allowed.target _ (kindOf_of_lookup stored)).2 occupied.1 child member same
      refine ⟨_, if_neg free, fun key => lookup_deleteEntry tables new key, fun key blockNo => ?_⟩
      rw [block_deleteBlocks]
      rfl

theorem exists_kindOf (allowed : RenameAllowed kind old new tables)
    (gone : Replaced new tables replaced) :
    (∀ key ∈ replaced.entries, key ≠ new ∧ ∃ found, tables.kindOf key = some found) ∧
      ∀ row ∈ replaced.blocks, row.key ≠ new ∧ ∃ found, tables.kindOf row.key = some found := by
  constructor
  · intro key member
    rcases Table.mem_iff_exists_lookup.mp member with ⟨row, stored⟩
    rw [gone.entries] at stored
    split at stored
    · cases stored
    · rename_i kept
      exact ⟨kept, _, kindOf_of_lookup stored⟩
  · intro row member
    rcases Table.mem_iff_exists_lookup.mp member with ⟨data, stored⟩
    have block : replaced.block row.key row.blockNo = some data := stored
    rw [gone.blocks] at block
    split at block
    · cases block
    · rename_i kept
      exact ⟨kept, _, allowed.owned _ _ _ block⟩

structure Cascaded (kind : Kind) (old new : Key) (before after : Tables) : Prop where
  entries : ∀ key row, after.entries.lookup key = some row ↔
    ∃ source, before.entries.lookup source = some row ∧ cascadeKey kind old new source = key
  blocks : ∀ row ∈ after.blocks, ∃ source ∈ before.blocks,
    cascadeKey kind old new source.key = row.key

theorem exists_cascaded (allowed : RenameAllowed kind old new tables)
    (gone : Replaced new tables replaced) :
    ∃ cascaded, replaced.cascaded kind old new = some cascaded ∧
      Cascaded kind old new replaced cascaded := by
  rcases allowed.exists_kindOf gone with ⟨entriesKnown, blocksKnown⟩
  cases kind with
  | file =>
      refine ⟨replaced, rfl, fun key row => ?_, fun row member => ⟨row, member, rfl⟩⟩
      simp [cascadeKey]
  | dir =>
      have entriesApart : ∀ first ∈ replaced.entries, ∀ second ∈ replaced.entries,
          cascadeKey .dir old new first = cascadeKey .dir old new second → first = second := by
        intro first firstMem second secondMem met
        rcases (entriesKnown first firstMem).2 with ⟨found, known⟩
        rcases (entriesKnown second secondMem).2 with ⟨otherFound, otherKnown⟩
        exact allowed.cascadeKey_apart known otherKnown met
      have blocksApart : ∀ first ∈ replaced.blocks, ∀ second ∈ replaced.blocks,
          (⟨cascadeKey .dir old new first.key, first.blockNo⟩ : BlockKey) =
            ⟨cascadeKey .dir old new second.key, second.blockNo⟩ → first = second := by
        intro first firstMem second secondMem met
        rcases (blocksKnown first firstMem).2 with ⟨found, known⟩
        rcases (blocksKnown second secondMem).2 with ⟨otherFound, otherKnown⟩
        rcases BlockKey.mk.inj met with ⟨keys, numbers⟩
        have same := allowed.cascadeKey_apart known otherKnown keys
        cases first
        cases second
        cases same
        cases numbers
        rfl
      rcases Table.exists_rekey entriesApart with ⟨entries, entriesMoved⟩
      rcases Table.exists_rekey blocksApart with ⟨blocks, blocksMoved⟩
      refine ⟨{ replaced with entries := entries, blocks := blocks }, ?_,
        fun key row => Table.rekey_lookup_iff entriesMoved key row, fun row member => ?_⟩
      · have entriesCascaded : replaced.cascadeEntries old.path new.path =
            some { replaced with entries := entries } :=
          Option.map_eq_some_iff.mpr ⟨entries, entriesMoved, rfl⟩
        have blocksCascaded :
            ({ replaced with entries := entries } : Tables).cascadeBlocks old.path new.path =
              some { replaced with entries := entries, blocks := blocks } :=
          Option.map_eq_some_iff.mpr ⟨blocks, blocksMoved, rfl⟩
        unfold Tables.cascaded
        rw [entriesCascaded]
        exact blocksCascaded
      · rcases Table.mem_iff_exists_lookup.mp member with ⟨data, stored⟩
        rcases (Table.rekey_lookup_iff blocksMoved row data).mp stored with
          ⟨source, original, target⟩
        exact ⟨source, Table.mem_iff_exists_lookup.mpr ⟨data, original⟩,
          congrArg BlockKey.key target⟩

theorem movedTo_isSome (allowed : RenameAllowed kind old new tables)
    (gone : Replaced new tables replaced) (sent : Cascaded kind old new replaced cascaded)
    (now : Nat) : (cascaded.movedTo old new now).isSome = true := by
  rcases allowed.exists_kindOf gone with ⟨entriesKnown, blocksKnown⟩
  have present : old ∈ cascaded.entries := by
    rcases Option.map_eq_some_iff.mp allowed.source with ⟨row, stored, _⟩
    apply Table.mem_iff_exists_lookup.mpr
    refine ⟨row, (sent.entries old row).mpr ⟨old, ?_, allowed.cascadeKey_old⟩⟩
    rw [gone.entries, if_neg allowed.new_ne_old.symm, stored]
  have entriesFree : ∀ key ∈ cascaded.entries, key ≠ new := by
    intro key member
    rcases Table.mem_iff_exists_lookup.mp member with ⟨row, stored⟩
    rcases (sent.entries key row).mp stored with ⟨source, original, rfl⟩
    rcases entriesKnown source (Table.mem_iff_exists_lookup.mpr ⟨row, original⟩) with
      ⟨kept, found, known⟩
    exact allowed.cascadeKey_ne_new known kept
  have blocksFree : ∀ row ∈ cascaded.blocks, row.key ≠ new := by
    intro row member
    rcases sent.blocks row member with ⟨source, original, same⟩
    rcases blocksKnown source original with ⟨kept, found, known⟩
    rw [← same]
    exact allowed.cascadeKey_ne_new known kept
  have entriesApart : ∀ first ∈ cascaded.entries, ∀ second ∈ cascaded.entries,
      (if first = old then new else first) = (if second = old then new else second) →
        first = second := by
    intro first firstMem second secondMem met
    have firstFree := entriesFree first firstMem
    have secondFree := entriesFree second secondMem
    grind
  have blocksApart : ∀ first ∈ cascaded.blocks, ∀ second ∈ cascaded.blocks,
      (if first.key = old then ({ first with key := new } : BlockKey) else first) =
        (if second.key = old then { second with key := new } else second) →
        first = second := by
    intro first firstMem second secondMem met
    have firstFree := blocksFree first firstMem
    have secondFree := blocksFree second secondMem
    cases first
    cases second
    grind
  rcases Table.exists_rekey entriesApart with ⟨entries, entriesMoved⟩
  rcases Table.exists_rekey blocksApart with ⟨blocks, blocksMoved⟩
  unfold movedTo moveEntry
  rw [entriesMoved]
  simp only [Option.map_some, Option.bind_some, if_pos present, moveBlocks, blocksMoved]
  rfl

theorem renamedTo_isSome (allowed : RenameAllowed kind old new tables) (now : Nat) :
    (tables.renamedTo kind old new now).isSome = true := by
  rcases allowed.exists_withoutTarget with ⟨replaced, withoutTarget, gone⟩
  rcases allowed.exists_cascaded gone with ⟨cascaded, possible, sent⟩
  unfold renamedTo
  rw [withoutTarget, Option.bind_some, possible, Option.bind_some]
  exact allowed.movedTo_isSome gone sent now

end RenameAllowed

end Tables

end Pgfs
