import Pgfs.Tree.Owners
import Pgfs.Tree.Coherence

namespace Pgfs

/-! Renaming a directory. The cascade selects descendants by a pattern and cuts
their parents at a byte position; it moves the subtree where that comes to the same
as moving paths. -/

/-! ## The pattern -/

private theorem count_slash_le_of_like (pattern text : Str) (matching : like pattern text = true) :
    pattern.count '/' ≤ text.count '/' := by
  unfold like at matching
  split at matching
  · simp
  · rename_i rest
    rcases List.any_eq_true.mp matching with ⟨suffix, member, matched⟩
    have fewer := count_slash_le_of_like rest suffix matched
    have more : suffix.count '/' ≤ text.count '/' :=
      ((List.mem_tails _ _).mp member).sublist.count_le '/'
    simp only [List.count_cons, beq_iff_eq, Char.reduceEq, if_false]
    omega
  · rename_i rest
    cases text with
    | nil => cases matching
    | cons head tail =>
        have fewer := count_slash_le_of_like rest tail matching
        simp only [List.count_cons, beq_iff_eq, Char.reduceEq, if_false]
        omega
  · cases matching
  · rename_i literal rest
    cases text with
    | nil => cases matching
    | cons head tail =>
        simp only [Bool.and_eq_true, beq_iff_eq] at matching
        rcases matching with ⟨rfl, matched⟩
        have fewer := count_slash_le_of_like rest tail matched
        simp only [List.count_cons, beq_iff_eq, Char.reduceEq, if_false]
        omega
  · rename_i literal rest _ _ _ _
    cases text with
    | nil => cases matching
    | cons head tail =>
        simp only [Bool.and_eq_true, beq_iff_eq] at matching
        rcases matching with ⟨rfl, matched⟩
        have fewer := count_slash_le_of_like rest tail matched
        simp only [List.count_cons]
        omega
termination_by pattern.length

private theorem rewriteParent_own {key : Key} (valid : ValidName key.name) (newPath : Str) :
    rewriteParent key.path newPath key.parent = key.parent := by
  unfold rewriteParent
  rw [if_neg]
  intro matching
  simp only [matchesDescendants, Bool.or_eq_true, beq_iff_eq] at matching
  rcases matching with same | matched
  · have shorter : key.parent.length < key.path.length := length_lt_join valid
    rw [← same] at shorter
    omega
  · have fewer := count_slash_le_of_like _ _ matched
    have parents : key.parent.count '/' ≤ key.path.count '/' := by
      unfold Key.path join
      split
      · rename_i root
        rw [List.isEmpty_iff.mp root]
        simp
      · simp
    simp only [List.count_append, List.count_cons, List.count_nil, beq_iff_eq, if_true,
      Char.reduceEq, if_false] at fewer
    omega

/-! ## Moving a subtree -/

/-- A directory to rename and a new key for it, in a tree whose blocks are owned by
files. -/
structure DirectoryMove (old new : Key) (tables : Tables) : Prop where
  coherent : tables.Coherent
  owned : tables.Owned
  directory : tables.kindOf old = some .dir
  newValid : ValidName new.name
  different : new.path ≠ old.path
  outside : ¬below old.path <+: new.path
  parent : new.parent = rootPath ∨ tables.HasDirectory new.parent
  target : ∀ found, tables.kindOf new = some found →
    found = .dir ∧ ∀ key ∈ tables.entries, key.parent ≠ new.path

/-- The subtree of the old path is moved, and nothing else is changed. -/
structure MovesSubtree (old new : Key) (before after : Tables) : Prop where
  own : ∃ row time, before.entries.lookup old = some row ∧
    after.entries.lookup new = some { row with mtime := time }
  entries_below : ∀ key row, AtOrBelow old.path key.parent →
    before.entries.lookup key = some row →
    after.entries.lookup { key with parent := movePath old.path new.path key.parent } =
      some row
  blocks_below : ∀ key blockNo data, AtOrBelow old.path key.parent →
    before.block key blockNo = some data →
    after.block { key with parent := movePath old.path new.path key.parent } blockNo =
      some data
  entries_elsewhere : ∀ key row, ¬AtOrBelow old.path key.parent → key ≠ old → key ≠ new →
    before.entries.lookup key = some row → after.entries.lookup key = some row
  blocks_elsewhere : ∀ key blockNo data, ¬AtOrBelow old.path key.parent →
    before.block key blockNo = some data → after.block key blockNo = some data
  entries_only : ∀ key row, key ≠ new → after.entries.lookup key = some row →
    ∃ source, source ≠ old ∧ source ≠ new ∧
      { source with parent := movePath old.path new.path source.parent } = key ∧
      before.entries.lookup source = some row
  blocks_only : ∀ key blockNo data, after.block key blockNo = some data →
    ∃ source, { source with parent := movePath old.path new.path source.parent } = key ∧
      before.block source blockNo = some data

/-- The cascade writes, for every stored row, the parent that moving its path would
give: for the row itself, or for a twin, a row of the same name with the same
contents. -/
structure CascadeMovesPaths (old new : Key) (tables : Tables) : Prop where
  entries : ∀ key row, key ≠ old → key ≠ new → tables.entries.lookup key = some row →
    ∃ twin, twin ≠ old ∧ twin ≠ new ∧ twin.name = key.name ∧
      tables.entries.lookup twin = some row ∧
      rewriteParent old.path new.path twin.parent = movePath old.path new.path key.parent
  blocks : ∀ key blockNo data, tables.block key blockNo = some data →
    ∃ twin, twin.name = key.name ∧ tables.block twin blockNo = some data ∧
      rewriteParent old.path new.path twin.parent = movePath old.path new.path key.parent

namespace DirectoryMove

variable {old new key other : Key} {before after replaced shifted : Tables} {kind : Kind}
  {now : Nat} {found : KindText}

theorem oldValid (move : DirectoryMove old new before) : ValidName old.name :=
  move.coherent.names old _ move.directory

theorem new_ne_old (move : DirectoryMove old new before) : new ≠ old :=
  fun same => move.different (congrArg Key.path same)

theorem not_below_new (move : DirectoryMove old new before)
    (known : before.kindOf key = some found) : ¬AtOrBelow new.path key.parent :=
  move.coherent.not_below_of_childless move.newValid
    (fun directory => (move.target _ directory).2) known

theorem moved_of_ne (different : key ≠ old) :
    old.moved new key = { key with parent := movePath old.path new.path key.parent } :=
  if_neg different

theorem moved_ne_new (move : DirectoryMove old new before) (notOld : key ≠ old)
    (notNew : key ≠ new) :
    old.moved new key ≠ new := by
  intro arrives
  rw [moved_of_ne notOld] at arrives
  by_cases inside : AtOrBelow old.path key.parent
  · have below : AtOrBelow new.path new.parent := by
      rw [← congrArg Key.parent arrives]
      exact atOrBelow_movePath inside
    exact Key.not_atOrBelow_parent move.newValid below
  · rw [movePath_of_not inside] at arrives
    exact notNew arrives

theorem moved_apart (move : DirectoryMove old new before) {otherFound : KindText}
    (known : before.kindOf key = some found) (otherKnown : before.kindOf other = some otherFound)
    (kept : key ≠ new) (otherKept : other ≠ new)
    (met : old.moved new key = old.moved new other) : key = other := by
  by_cases isOld : key = old
  · by_cases otherOld : other = old
    · rw [isOld, otherOld]
    · rw [isOld, Key.moved, if_pos rfl] at met
      exact absurd met.symm (move.moved_ne_new otherOld otherKept)
  by_cases otherOld : other = old
  · rw [otherOld, Key.moved, Key.moved, if_pos rfl, if_neg isOld] at met
    have arrives := move.moved_ne_new isOld kept
    rw [moved_of_ne isOld] at arrives
    exact absurd met arrives
  rw [moved_of_ne isOld, moved_of_ne otherOld] at met
  rcases Key.mk.inj met with ⟨parents, names⟩
  have same : key.parent = other.parent := by
    by_cases inside : AtOrBelow old.path key.parent
    · by_cases otherInside : AtOrBelow old.path other.parent
      · exact movePath_injective inside otherInside parents
      · rw [movePath_of_not otherInside] at parents
        have below := @atOrBelow_movePath _ new.path _ inside
        rw [parents] at below
        exact absurd below (move.not_below_new otherKnown)
    · rw [movePath_of_not inside] at parents
      by_cases otherInside : AtOrBelow old.path other.parent
      · have below := @atOrBelow_movePath _ new.path _ otherInside
        rw [← parents] at below
        exact absurd below (move.not_below_new known)
      · rwa [movePath_of_not otherInside] at parents
  cases key
  cases other
  cases names
  cases same
  rfl

theorem kind_eq_dir (move : DirectoryMove old new before)
    (carried : Carried kind old new before replaced shifted after now) : kind = .dir := by
  have source : before.kindOf old = some kind.text := carried.source
  rw [move.directory] at source
  cases kind with
  | file => cases source
  | dir => rfl

theorem relocate_old (move : DirectoryMove old new before) : relocate .dir old new old = new := by
  have stays : cascadeKey .dir old new old = old := by
    unfold cascadeKey
    rw [rewriteParent_own move.oldValid]
  rw [relocate, if_pos stays]

theorem replaced_lookup (carried : Carried kind old new before replaced shifted after now)
    (row : EntryRow) : replaced.entries.lookup key = some row ↔
      key ≠ new ∧ before.entries.lookup key = some row := by
  rw [carried.replaced_entries]
  by_cases same : key = new <;> simp [same]

theorem block_ne (move : DirectoryMove old new before) {blockNo : Int} {data : List UInt8}
    (stored : before.block key blockNo = some data) : key ≠ old ∧ key ≠ new := by
  have file : before.kindOf key = some .file := move.owned key blockNo data stored
  constructor
  · intro same
    rw [same, move.directory] at file
    cases file
  · intro same
    rw [same] at file
    cases (move.target _ file).1

theorem replaced_block (move : DirectoryMove old new before)
    (carried : Carried kind old new before replaced shifted after now) (key : Key)
    (blockNo : Int) : replaced.block key blockNo = before.block key blockNo := by
  rw [carried.replaced_blocks]
  split
  · rename_i removed
    cases stored : before.block key blockNo with
    | none => rfl
    | some data => exact absurd removed.1 (move.block_ne stored).2
  · rfl

theorem relocate_entry (move : DirectoryMove old new before)
    (carried : Carried .dir old new before replaced shifted after now) {row : EntryRow}
    (stored : before.entries.lookup key = some row) (notOld : key ≠ old) (notNew : key ≠ new) :
    relocate .dir old new key =
      { key with parent := rewriteParent old.path new.path key.parent } := by
  unfold relocate
  rw [if_neg]
  · rfl
  · intro met
    apply notOld
    have oldStored : ∃ oldRow, replaced.entries.lookup old = some oldRow := by
      rcases Option.map_eq_some_iff.mp move.directory with ⟨oldRow, found, _⟩
      exact ⟨oldRow, (replaced_lookup carried oldRow).mpr ⟨move.new_ne_old.symm, found⟩⟩
    apply carried.rekeyed.entries_apart
    · exact Table.mem_iff_exists_lookup.mpr
        ⟨row, (replaced_lookup carried row).mpr ⟨notNew, stored⟩⟩
    · exact Table.mem_iff_exists_lookup.mpr oldStored
    · rw [move.relocate_old, relocate, if_pos met]

theorem relocate_block (move : DirectoryMove old new before)
    (carried : Carried .dir old new before replaced shifted after now) {blockNo : Int}
    {data : List UInt8} (stored : before.block key blockNo = some data) :
    relocate .dir old new key =
      { key with parent := rewriteParent old.path new.path key.parent } := by
  rcases move.block_ne stored with ⟨notOld, notNew⟩
  rcases Option.map_eq_some_iff.mp (move.owned key blockNo data stored) with ⟨row, found, _⟩
  exact move.relocate_entry carried found notOld notNew

theorem after_entry (move : DirectoryMove old new before)
    (carried : Carried .dir old new before replaced shifted after now) (notNew : key ≠ new)
    (row : EntryRow) : after.entries.lookup key = some row ↔
      ∃ source, source ≠ old ∧ source ≠ new ∧
        { source with parent := rewriteParent old.path new.path source.parent } = key ∧
        before.entries.lookup source = some row := by
  rw [carried.touched, Table.lookup_adjust, if_neg notNew, carried.rekeyed.entries]
  constructor
  · intro arrived
    rcases arrived with ⟨source, stored, target⟩
    rcases (replaced_lookup carried row).mp stored with ⟨kept, original⟩
    have notOld : source ≠ old := by
      intro same
      rw [same, move.relocate_old] at target
      exact notNew target.symm
    rw [move.relocate_entry carried original notOld kept] at target
    exact ⟨source, notOld, kept, target, original⟩
  · intro sent
    rcases sent with ⟨source, notOld, kept, target, original⟩
    exact ⟨source, (replaced_lookup carried row).mpr ⟨kept, original⟩,
      (move.relocate_entry carried original notOld kept).trans target⟩

theorem after_own (move : DirectoryMove old new before)
    (carried : Carried .dir old new before replaced shifted after now) :
    ∃ row time, before.entries.lookup old = some row ∧
      after.entries.lookup new = some { row with mtime := time } := by
  rcases Option.map_eq_some_iff.mp move.directory with ⟨row, stored, _⟩
  refine ⟨row, now, stored, ?_⟩
  have arrived : shifted.entries.lookup new = some row :=
    (carried.rekeyed.entries new row).mpr ⟨old,
      (replaced_lookup carried row).mpr ⟨move.new_ne_old.symm, stored⟩, move.relocate_old⟩
  rw [carried.touched, Table.lookup_adjust, if_pos rfl, arrived]
  rfl

theorem after_block (move : DirectoryMove old new before)
    (carried : Carried .dir old new before replaced shifted after now) (blockNo : Int)
    (data : List UInt8) : after.block key blockNo = some data ↔
      ∃ source, { source with parent := rewriteParent old.path new.path source.parent } = key ∧
        before.block source blockNo = some data := by
  unfold Tables.block
  rw [carried.blocks]
  apply (carried.rekeyed.blocks key blockNo data).trans
  constructor
  · intro arrived
    rcases arrived with ⟨source, stored, target⟩
    rw [move.replaced_block carried] at stored
    rw [move.relocate_block carried stored] at target
    exact ⟨source, target, stored⟩
  · intro sent
    rcases sent with ⟨source, target, stored⟩
    exact ⟨source, (move.replaced_block carried _ _).trans stored,
      (move.relocate_block carried stored).trans target⟩

/-- A moved subtree was selected as its paths say, twins aside. -/
theorem cascadeMovesPaths (move : DirectoryMove old new before)
    (carried : Carried .dir old new before replaced shifted after now)
    (moves : MovesSubtree old new before after) : CascadeMovesPaths old new before where
  entries key row notOld notNew stored := by
    have arrives : after.entries.lookup
        { key with parent := movePath old.path new.path key.parent } = some row := by
      by_cases inside : AtOrBelow old.path key.parent
      · exact moves.entries_below key row inside stored
      · rw [movePath_of_not inside]
        exact moves.entries_elsewhere key row inside notOld notNew stored
    have elsewhere := move.moved_ne_new notOld notNew
    rw [moved_of_ne notOld] at elsewhere
    rcases (move.after_entry carried elsewhere row).mp arrives with
      ⟨twin, twinOld, twinNew, target, original⟩
    rcases Key.mk.inj target with ⟨parents, names⟩
    exact ⟨twin, twinOld, twinNew, names, original, parents⟩
  blocks key blockNo data stored := by
    have arrives : after.block
        { key with parent := movePath old.path new.path key.parent } blockNo = some data := by
      by_cases inside : AtOrBelow old.path key.parent
      · exact moves.blocks_below key blockNo data inside stored
      · rw [movePath_of_not inside]
        exact moves.blocks_elsewhere key blockNo data inside stored
    rcases (move.after_block carried blockNo data).mp arrives with ⟨twin, target, original⟩
    rcases Key.mk.inj target with ⟨parents, names⟩
    exact ⟨twin, names, original, parents⟩

theorem entry_arrives (move : DirectoryMove old new before)
    (carried : Carried .dir old new before replaced shifted after now)
    (cascades : CascadeMovesPaths old new before) {row : EntryRow} (notOld : key ≠ old)
    (notNew : key ≠ new) (stored : before.entries.lookup key = some row) :
    after.entries.lookup { key with parent := movePath old.path new.path key.parent } =
      some row := by
  have elsewhere := move.moved_ne_new notOld notNew
  rw [moved_of_ne notOld] at elsewhere
  rcases cascades.entries key row notOld notNew stored with
    ⟨twin, twinOld, twinNew, names, original, parents⟩
  apply (move.after_entry carried elsewhere row).mpr
  exact ⟨twin, twinOld, twinNew, by rw [parents, names], original⟩

theorem block_arrives (move : DirectoryMove old new before)
    (carried : Carried .dir old new before replaced shifted after now)
    (cascades : CascadeMovesPaths old new before) {blockNo : Int} {data : List UInt8}
    (stored : before.block key blockNo = some data) :
    after.block { key with parent := movePath old.path new.path key.parent } blockNo =
      some data := by
  rcases cascades.blocks key blockNo data stored with ⟨twin, names, original, parents⟩
  exact (move.after_block carried blockNo data).mpr
    ⟨twin, by rw [parents, names], original⟩

/-- Nothing else arrives among the entries: there are as many places as rows. -/
theorem entry_source (move : DirectoryMove old new before)
    (carried : Carried .dir old new before replaced shifted after now)
    (cascades : CascadeMovesPaths old new before) {row : EntryRow} (notNew : key ≠ new)
    (stored : after.entries.lookup key = some row) :
    ∃ source, source ≠ old ∧ source ≠ new ∧
      { source with parent := movePath old.path new.path source.parent } = key ∧
      before.entries.lookup source = some row := by
  rw [carried.touched, Table.lookup_adjust, if_neg notNew] at stored
  rcases (carried.rekeyed.entries key row).mp stored with ⟨source, found, target⟩
  have covered : ∀ inner held, replaced.entries.lookup inner = some held →
      ∃ twin, replaced.entries.lookup twin = some held ∧
        relocate .dir old new twin = old.moved new inner := by
    intro inner held present
    rcases (replaced_lookup carried held).mp present with ⟨kept, original⟩
    by_cases isOld : inner = old
    · exact ⟨inner, present, by rw [isOld, move.relocate_old, Key.moved, if_pos rfl]⟩
    · rcases cascades.entries inner held isOld kept original with
        ⟨twin, twinOld, twinNew, names, twinStored, parents⟩
      refine ⟨twin, (replaced_lookup carried held).mpr ⟨twinNew, twinStored⟩, ?_⟩
      rw [move.relocate_entry carried twinStored twinOld twinNew, moved_of_ne isOld, names,
        parents]
  have apart : ∀ first ∈ replaced.entries, ∀ second ∈ replaced.entries,
      old.moved new first = old.moved new second → first = second := by
    intro first firstMem second secondMem met
    rcases Table.mem_iff_exists_lookup.mp firstMem with ⟨firstRow, firstFound⟩
    rcases Table.mem_iff_exists_lookup.mp secondMem with ⟨secondRow, secondFound⟩
    rcases (replaced_lookup carried firstRow).mp firstFound with ⟨firstKept, firstStored⟩
    rcases (replaced_lookup carried secondRow).mp secondFound with ⟨secondKept, secondStored⟩
    exact move.moved_apart (Tables.kindOf_of_lookup firstStored)
      (Tables.kindOf_of_lookup secondStored) firstKept secondKept met
  rcases Table.exists_same_target apart covered found with ⟨twin, twinFound, reached⟩
  rcases (replaced_lookup carried row).mp twinFound with ⟨twinKept, twinStored⟩
  rw [target] at reached
  have twinOld : twin ≠ old := by
    intro same
    rw [same, Key.moved, if_pos rfl] at reached
    exact notNew reached.symm
  rw [moved_of_ne twinOld] at reached
  exact ⟨twin, twinOld, twinKept, reached, twinStored⟩

theorem block_source (move : DirectoryMove old new before)
    (carried : Carried .dir old new before replaced shifted after now)
    (cascades : CascadeMovesPaths old new before) {blockNo : Int} {data : List UInt8}
    (stored : after.block key blockNo = some data) :
    ∃ source, { source with parent := movePath old.path new.path source.parent } = key ∧
      before.block source blockNo = some data := by
  rcases (move.after_block carried blockNo data).mp stored with ⟨source, target, found⟩
  let movedRow : BlockKey → BlockKey := fun row =>
    { row with key :=
      { row.key with parent := movePath old.path new.path row.key.parent } }
  let sentRow : BlockKey → BlockKey := fun row =>
    { row with key :=
      { row.key with parent := rewriteParent old.path new.path row.key.parent } }
  have covered : ∀ row bytes, before.blocks.lookup row = some bytes →
      ∃ twin, before.blocks.lookup twin = some bytes ∧ sentRow twin = movedRow row := by
    intro row bytes present
    rcases cascades.blocks row.key row.blockNo bytes present with
      ⟨twin, names, twinStored, parents⟩
    exact ⟨⟨twin, row.blockNo⟩, twinStored, by simp only [sentRow, movedRow, parents, names]⟩
  have apart : ∀ first ∈ before.blocks, ∀ second ∈ before.blocks,
      movedRow first = movedRow second → first = second := by
    intro first firstMem second secondMem met
    rcases Table.mem_iff_exists_lookup.mp firstMem with ⟨firstBytes, firstFound⟩
    rcases Table.mem_iff_exists_lookup.mp secondMem with ⟨secondBytes, secondFound⟩
    rcases BlockKey.mk.inj met with ⟨keys, numbers⟩
    rcases move.block_ne firstFound with ⟨firstOld, firstNew⟩
    rcases move.block_ne secondFound with ⟨secondOld, secondNew⟩
    have same : first.key = second.key := by
      apply move.moved_apart (move.owned _ _ _ firstFound) (move.owned _ _ _ secondFound)
        firstNew secondNew
      rw [moved_of_ne firstOld, moved_of_ne secondOld, keys]
    cases first
    cases second
    cases same
    cases numbers
    rfl
  rcases Table.exists_same_target apart covered found with ⟨twin, twinFound, reached⟩
  rcases BlockKey.mk.inj reached with ⟨keys, numbers⟩
  refine ⟨twin.key, keys.trans target, ?_⟩
  rw [← twinFound, Tables.block, ← show twin.blockNo = blockNo from numbers]

theorem movesSubtree (move : DirectoryMove old new before)
    (carried : Carried .dir old new before replaced shifted after now)
    (cascades : CascadeMovesPaths old new before) : MovesSubtree old new before after where
  own := move.after_own carried
  entries_below key row inside stored := by
    have notOld : key ≠ old := by
      intro same
      rw [same] at inside
      exact Key.not_atOrBelow_parent move.oldValid inside
    have notNew : key ≠ new := by
      intro same
      rw [same] at inside
      exact move.outside
        ((below_prefix_join move.newValid (Key.path_ne_nil move.oldValid)).mpr inside)
    exact move.entry_arrives carried cascades notOld notNew stored
  blocks_below key blockNo data _ stored := move.block_arrives carried cascades stored
  entries_elsewhere key row outside notOld notNew stored := by
    have arrives := move.entry_arrives carried cascades notOld notNew stored
    rwa [movePath_of_not outside] at arrives
  blocks_elsewhere key blockNo data outside stored := by
    have arrives := move.block_arrives carried cascades stored
    rwa [movePath_of_not outside] at arrives
  entries_only key row notNew stored := move.entry_source carried cascades notNew stored
  blocks_only key blockNo data stored := move.block_source carried cascades stored

end DirectoryMove

namespace CascadeMovesPaths

variable {old new : Key} {tables : Tables}

/-- Every row is its own twin where each stored parent is rewritten as its path
moves. -/
theorem of_parents (owned : tables.Owned)
    (parents : ∀ key found, tables.kindOf key = some found →
      rewriteParent old.path new.path key.parent = movePath old.path new.path key.parent) :
    CascadeMovesPaths old new tables where
  entries key row notOld notNew stored := by
    exact ⟨key, notOld, notNew, rfl, stored, parents key _ (Tables.kindOf_of_lookup stored)⟩
  blocks key blockNo data stored := by
    exact ⟨key, rfl, stored, parents key _ (owned key blockNo data stored)⟩

end CascadeMovesPaths

namespace Db

/-- A rename of a directory moves exactly its subtree when the cascade rewrites
parents as paths move, and only then. -/
theorem rename_moves_subtree {before after : Db} {old new : Key}
    (move : DirectoryMove old new before.tables)
    (run : rename old.parent old.name new.parent new.name before = some (.ok (), after)) :
    MovesSubtree old new before.tables after.tables ↔
      CascadeMovesPaths old new before.tables := by
  have different : ¬(old.parent = new.parent ∧ old.name = new.name) := by
    intro same
    apply move.different
    rw [Key.path, Key.path, same.1, same.2]
  rcases (rename_carried different _ _ run).2 with ⟨kind, replaced, shifted, now, carried⟩
  cases move.kind_eq_dir carried
  exact ⟨move.cascadeMovesPaths carried, move.movesSubtree carried⟩

/-- A directory `a` with a file in it. -/
private def smallTree : Tables :=
  (Tables.empty.insertEntry ⟨[], ['a']⟩ .dir 0).insertEntry ⟨['a'], ['f']⟩ .file 0

private theorem smallTree_coherent : smallTree.Coherent := by
  have first : (Tables.empty.insertEntry ⟨[], ['a']⟩ .dir 0).Coherent :=
    Tables.coherent_empty.insertEntry (by decide) (.inl rfl) rfl
  exact first.insertEntry (by decide) (.inr (by decide)) (by decide)

private theorem smallTree_owned : smallTree.Owned :=
  (Tables.owned_empty.insertEntry _ _ rfl).insertEntry _ _ (by decide)

theorem rename_moves_subtree_small : ∃ after,
    rename [] ['a'] [] ['c'] (.connect smallTree false fun _ => {}) =
      some (.ok (), after) ∧
    MovesSubtree ⟨[], ['a']⟩ ⟨[], ['c']⟩ smallTree after.tables := by
  have move : DirectoryMove ⟨[], ['a']⟩ ⟨[], ['c']⟩ smallTree := {
    coherent := smallTree_coherent
    owned := smallTree_owned
    directory := by decide
    newValid := by decide
    different := by decide
    outside := by decide
    parent := .inl rfl
    target := by
      intro found known
      have absent : smallTree.kindOf ⟨[], ['c']⟩ = none := by decide
      rw [absent] at known
      cases known }
  have plain : ∀ character ∈ ['a'], Plain character := by
    intro character member
    rw [List.mem_singleton.mp member]
    decide
  have cascades : CascadeMovesPaths ⟨[], ['a']⟩ ⟨[], ['c']⟩ smallTree :=
    .of_parents smallTree_owned fun _ _ _ => rewriteParent_plain plain _ _
  have observed : ((rename [] ['a'] [] ['c'] (.connect smallTree false fun _ => {})).any
      fun outcome => outcome.1.isOk) = true := by decide
  rcases (Option.any_eq_true _ _).mp observed with ⟨⟨outcome, after⟩, run, succeeded⟩
  cases outcome with
  | error failure => cases succeeded
  | ok done =>
      let before : Db := .connect smallTree false fun _ => {}
      exact ⟨after, run, (@rename_moves_subtree before after _ _ move run).mpr cascades⟩

/-- A directory `_` beside a file `a/b/f`, whose parent matches the pattern `_/%`. -/
private def wildcardTree : Tables :=
  (((Tables.empty.insertEntry ⟨[], ['_']⟩ .dir 0).insertEntry ⟨[], ['a']⟩ .dir 0).insertEntry
    ⟨['a'], ['b']⟩ .dir 0).insertEntry ⟨['a', '/', 'b'], ['f']⟩ .file 0

private theorem wildcardTree_coherent : wildcardTree.Coherent := by
  apply Tables.Coherent.insertEntry _ (by decide) (.inr (by decide)) (by decide)
  apply Tables.Coherent.insertEntry _ (by decide) (.inr (by decide)) (by decide)
  apply Tables.Coherent.insertEntry _ (by decide) (.inl rfl) (by decide)
  exact Tables.coherent_empty.insertEntry (by decide) (.inl rfl) rfl

private theorem wildcardTree_owned : wildcardTree.Owned := by
  apply Tables.Owned.insertEntry _ _ _ (by decide)
  apply Tables.Owned.insertEntry _ _ _ (by decide)
  apply Tables.Owned.insertEntry _ _ _ (by decide)
  exact Tables.owned_empty.insertEntry _ _ rfl

/-- Renaming the directory `_` to `c` takes the file `a/b/f` to `c/b`. -/
theorem rename_takes_bystander : ¬∀ before after old new, DirectoryMove old new before.tables →
    rename old.parent old.name new.parent new.name before = some (.ok (), after) →
    MovesSubtree old new before.tables after.tables := by
  intro claimed
  have move : DirectoryMove ⟨[], ['_']⟩ ⟨[], ['c']⟩ wildcardTree := {
    coherent := wildcardTree_coherent
    owned := wildcardTree_owned
    directory := by decide
    newValid := by decide
    different := by decide
    outside := by decide
    parent := .inl rfl
    target := by
      intro found known
      have absent : wildcardTree.kindOf ⟨[], ['c']⟩ = none := by decide
      rw [absent] at known
      cases known }
  have observed : ((rename [] ['_'] [] ['c'] (.connect wildcardTree false fun _ => {})).any
      fun outcome => outcome.1.isOk &&
        (outcome.2.tables.entries.lookup ⟨['a', '/', 'b'], ['f']⟩).isNone) = true := by decide
  rcases (Option.any_eq_true _ _).mp observed with ⟨⟨outcome, after⟩, run, seen⟩
  rcases Bool.and_eq_true_iff.mp seen with ⟨succeeded, gone⟩
  cases outcome with
  | error failure => cases succeeded
  | ok done =>
      have moves := claimed (.connect wildcardTree false fun _ => {}) after _ _ move run
      have kept := moves.entries_elsewhere ⟨['a', '/', 'b'], ['f']⟩ ⟨.file, 0, 0⟩
        (by decide) (by decide) (by decide) (by decide)
      rw [kept] at gone
      cases gone

end Db

end Pgfs
