import Mathlib.Data.Set.Basic
import Pgfs.Db.Schema

namespace Pgfs

/-! Tables that agree on a set of keys, apart from modification times, and the
statements that keep them so. -/

def EntryRow.timeless (row : EntryRow) : EntryRow := { row with mtime := 0 }

def FileMeta.timeless (fileMeta : FileMeta) : FileMeta := { fileMeta with mtime := 0 }

theorem FileMeta.eq_of_timeless {left right : FileMeta}
    (same : left.timeless = right.timeless) :
    ∃ mtime, right = { left with mtime := mtime } := by
  rcases left with ⟨name, kind, size, mtime⟩
  rcases right with ⟨otherName, otherKind, otherSize, otherTime⟩
  cases same
  exact ⟨otherTime, rfl⟩

theorem rel_map {related : First → Second → Prop} {other : Third → Fourth → Prop}
    {first : Option First} {second : Option Second} {change : First → Third}
    {otherChange : Second → Fourth} (rel : Option.Rel related first second)
    (carries : ∀ value otherValue, related value otherValue →
      other (change value) (otherChange otherValue)) :
    Option.Rel other (first.map change) (second.map otherChange) := by
  cases rel with
  | none => exact .none
  | some holds => exact .some (carries _ _ holds)

namespace Tables

def AgreeAt (key : Key) (left right : Tables) : Prop :=
  (left.entries.lookup key).map EntryRow.timeless =
      (right.entries.lookup key).map EntryRow.timeless ∧
    ∀ blockNo, left.block key blockNo = right.block key blockNo

def Agree (keys : Set Key) (left right : Tables) : Prop :=
  ∀ key ∈ keys, AgreeAt key left right

theorem Agree.refl (keys : Set Key) (tables : Tables) : Agree keys tables tables :=
  fun _ _ => ⟨rfl, fun _ => rfl⟩

/-! ## Statements about one key -/

section

variable {keys : Set Key} {left right : Tables} (agree : Agree keys left right)

include agree

theorem Agree.readBlocks {key : Key} (member : key ∈ keys) (first last : Int) :
    left.readBlocks key first last = right.readBlocks key first last := by
  funext blockNo
  unfold Tables.readBlocks
  rw [(agree key member).2 blockNo]

theorem Agree.upsertBlock (key : Key) (blockNo : Int) (data : List UInt8) :
    Agree keys (left.upsertBlock key blockNo data) (right.upsertBlock key blockNo data) := by
  intro other member
  constructor
  · exact (agree other member).1
  · intro otherNo
    rw [block_upsertBlock, block_upsertBlock, (agree other member).2 otherNo]

theorem Agree.pruneBlocks (key : Key) (last : Int) :
    Agree keys (left.pruneBlocks key last) (right.pruneBlocks key last) := by
  intro other member
  constructor
  · exact (agree other member).1
  · intro otherNo
    rw [block_pruneBlocks, block_pruneBlocks, (agree other member).2 otherNo]

omit agree in
private theorem timeless_resized (stored : Option EntryRow) (size : Int) (now : Nat) :
    (stored.map fun row => { row with size := size, mtime := now }).map
        EntryRow.timeless =
      (stored.map EntryRow.timeless).map fun row => { row with size := size } := by
  cases stored with
  | none => rfl
  | some row => rfl

theorem Agree.updateSize (key : Key) (size : Int) (now later : Nat) :
    Agree keys (left.updateSize key size now) (right.updateSize key size later) := by
  intro other member
  have same := agree other member
  constructor
  · rw [lookup_updateSize, lookup_updateSize]
    split
    · rw [timeless_resized, timeless_resized, same.1]
    · exact same.1
  · exact same.2

theorem Agree.mem_iff {key : Key} (member : key ∈ keys) :
    key ∈ left.entries ↔ key ∈ right.entries := by
  have same := (agree key member).1
  rw [Table.mem_iff_exists_lookup, Table.mem_iff_exists_lookup]
  cases stored : left.entries.lookup key with
  | none =>
      rw [stored] at same
      simp [Option.map_eq_none_iff.mp same.symm]
  | some row =>
      rw [stored] at same
      rcases Option.map_eq_some_iff.mp same.symm with ⟨otherRow, otherStored, _⟩
      simp [otherStored]

omit agree in
private theorem timeless_inserted (stored : Option EntryRow) (kind : KindText) (now : Nat) :
    (some (stored.getD ⟨kind, 0, now⟩)).map EntryRow.timeless =
      some ((stored.map EntryRow.timeless).getD ⟨kind, 0, 0⟩) := by
  cases stored with
  | none => rfl
  | some row => rfl

theorem Agree.insertEntry (key : Key) (kind : KindText) (now later : Nat) :
    Agree keys (left.insertEntry key kind now) (right.insertEntry key kind later) := by
  intro other member
  have same := agree other member
  constructor
  · rw [lookup_insertEntry, lookup_insertEntry]
    split
    · rename_i inserted
      rw [← inserted, timeless_inserted, timeless_inserted, same.1]
    · exact same.1
  · intro blockNo
    rw [block_insertEntry, block_insertEntry, same.2 blockNo]

theorem Agree.deleteEntry (key : Key) :
    Agree keys (left.deleteEntry key).2 (right.deleteEntry key).2 := by
  intro other member
  have same := agree other member
  constructor
  · rw [lookup_deleteEntry, lookup_deleteEntry]
    split
    · rfl
    · exact same.1
  · exact same.2

theorem Agree.deleteBlocks (key : Key) :
    Agree keys (left.deleteBlocks key) (right.deleteBlocks key) := by
  intro other member
  have same := agree other member
  constructor
  · exact same.1
  · intro blockNo
    rw [block_deleteBlocks, block_deleteBlocks, same.2 blockNo]

end

/-! ## Statements about whole tables -/

section

variable {left right : Tables} (agree : Agree Set.univ left right)

include agree

theorem Agree.alike : Table.Alike EntryRow.timeless left.entries right.entries :=
  fun key => (agree key trivial).1

theorem Agree.blocks_eq : left.blocks = right.blocks :=
  Finmap.ext_lookup fun row => (agree row.key trivial).2 row.blockNo

omit agree in
theorem agree_of_alike (alike : Table.Alike EntryRow.timeless left.entries right.entries)
    (blocks : left.blocks = right.blocks) : Agree Set.univ left right := by
  intro key _
  constructor
  · exact alike key
  · intro blockNo
    rw [block, block, blocks]

theorem Agree.hasChildren (path : Str) : left.hasChildren path = right.hasChildren path := by
  unfold Tables.hasChildren
  rw [agree.alike.keys_eq]

private def childNamesAmong (keys : Finset Key) (parent : Str) : List Str :=
  Table.sortedKeys {
    entries := (keys.filter (·.parent = parent)).val.map
      fun key => (⟨key.name, ()⟩ : Sigma fun _ : Str => Unit)
    nodupKeys := by
      rw [← Multiset.nodup_keys]
      simp only [Multiset.keys, Multiset.map_map, Function.comp_apply]
      apply Multiset.Nodup.map_on _ (Finset.nodup _)
      intro key member other otherMember equal
      have first := (Finset.mem_filter.mp member).2
      have second := (Finset.mem_filter.mp otherMember).2
      rcases key with ⟨keyParent, name⟩
      rcases other with ⟨otherParent, otherName⟩
      simp_all }

omit agree in
private theorem children_eq (tables : Tables) (parent : Str) :
    tables.children parent = (childNamesAmong tables.entries.keys parent).filterMap
      fun name => (tables.entries.lookup ⟨parent, name⟩).map fun row => (name, row) := rfl

theorem Agree.children (parent : Str) :
    (left.children parent).map (fun row => (row.1, row.2.timeless)) =
      (right.children parent).map fun row => (row.1, row.2.timeless) := by
  rw [children_eq, children_eq, agree.alike.keys_eq, List.map_filterMap,
    List.map_filterMap]
  apply List.filterMap_congr
  intro name _
  have same := agree.alike ⟨parent, name⟩
  have named (stored : Option EntryRow) :
      (stored.map fun row => (name, row)).map (fun row => (row.1, row.2.timeless)) =
        (stored.map EntryRow.timeless).map fun row => (name, row) := by
    cases stored with
    | none => rfl
    | some row => rfl
  rw [named, named, same]

private theorem rekeyBlocks (move : BlockKey → BlockKey) :
    Option.Rel Eq (left.blocks.rekey move) (right.blocks.rekey move) := by
  rw [agree.blocks_eq]
  cases right.blocks.rekey move with
  | none => exact .none
  | some moved => exact .some rfl

theorem Agree.cascadeEntries (oldPath newPath : Str) :
    Option.Rel (Agree Set.univ) (left.cascadeEntries oldPath newPath)
      (right.cascadeEntries oldPath newPath) :=
  rel_map (agree.alike.rekey _) fun _ _ alike => agree_of_alike alike agree.blocks_eq

theorem Agree.cascadeBlocks (oldPath newPath : Str) :
    Option.Rel (Agree Set.univ) (left.cascadeBlocks oldPath newPath)
      (right.cascadeBlocks oldPath newPath) :=
  rel_map (rekeyBlocks agree _) fun _ _ moved => agree_of_alike agree.alike moved

theorem Agree.moveBlocks (old new : Key) :
    Option.Rel (Agree Set.univ) (left.moveBlocks old new) (right.moveBlocks old new) :=
  rel_map (rekeyBlocks agree _) fun _ _ moved => agree_of_alike agree.alike moved

omit agree in
private theorem alike_touched {entries others : Table Key EntryRow}
    (alike : Table.Alike EntryRow.timeless entries others) (key : Key) (now later : Nat) :
    Table.Alike EntryRow.timeless (entries.adjust key fun row => { row with mtime := now })
      (others.adjust key fun row => { row with mtime := later }) := by
  intro other
  have timeless (stored : Option EntryRow) (time : Nat) :
      (stored.map fun row => { row with mtime := time }).map EntryRow.timeless =
        stored.map EntryRow.timeless := by
    cases stored with
    | none => rfl
    | some row => rfl
  rw [Table.lookup_adjust, Table.lookup_adjust]
  split
  · rw [timeless, timeless, alike other]
  · exact alike other

theorem Agree.moveEntry (old new : Key) (now later : Nat) :
    Option.Rel (fun moved other => moved.1 = other.1 ∧ Agree Set.univ moved.2 other.2)
      (left.moveEntry old new now) (right.moveEntry old new later) := by
  apply rel_map (agree.alike.rekey _)
  intro entries others alike
  have present := agree.mem_iff (Set.mem_univ old)
  by_cases stored : old ∈ right.entries
  · simp only [present.mpr stored, stored, if_true]
    exact ⟨trivial, agree_of_alike (alike_touched alike new now later) agree.blocks_eq⟩
  · simp only [mt present.mp stored, stored, if_false]
    exact ⟨trivial, agree_of_alike alike agree.blocks_eq⟩

end

end Tables

end Pgfs
