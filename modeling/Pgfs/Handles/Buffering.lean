import Pgfs.Fs.HandleBuffer

namespace Pgfs

open MachineInt

/-! What a buffered write leaves in the buffer of a handle. -/

def touchedBlocks (offset : Nat) (data : List UInt8) : List Int :=
  if data.isEmpty then [] else visitedBlocks offset data

namespace HandleBuffer

/-- A write patches the touched blocks, starting from an empty one where none was
dirty, and raises the size to write to its end. -/
structure Buffered (offset : Nat) (data : List UInt8) (before after : HandleBuffer) :
    Prop where
  key : after.key = before.key
  maxSize : after.maxSize =
    if data = [] then before.maxSize else max before.maxSize (offset + data.length)
  touched : ∀ blockNo ∈ touchedBlocks offset data, ∃ blockOffset chunk,
    chunkAt offset data blockNo = some (blockOffset, chunk) ∧
    after.dirtyBlocks.lookup blockNo =
      some (Vec.patch ((before.dirtyBlocks.lookup blockNo).getD []) blockOffset chunk 0)
  untouched : ∀ blockNo, blockNo ∉ touchedBlocks offset data →
    after.dirtyBlocks.lookup blockNo = before.dirtyBlocks.lookup blockNo

theorem writeChunk_eq_some {offset : Nat} {data : List UInt8} {before after : HandleBuffer}
    {blockNo : Int} (written : before.writeChunk offset data blockNo = some after) :
    ∃ blockOffset chunk, chunkAt offset data blockNo = some (blockOffset, chunk) ∧
      after = { before with
        dirtyBlocks := before.dirtyBlocks.insert blockNo
          (Vec.patch ((before.dirtyBlocks.lookup blockNo).getD []) blockOffset chunk 0) } := by
  unfold writeChunk at written
  rcases Option.bind_eq_some_iff.mp written with ⟨⟨blockOffset, chunk⟩, chunked, stored⟩
  exact ⟨blockOffset, chunk, chunked, (Option.some.inj stored).symm⟩

private theorem writeChunks_eq_some {offset : Nat} {data : List UInt8} {blocks : List Int}
    {before after : HandleBuffer} (distinct : blocks.Nodup)
    (written : blocks.foldlM (writeChunk offset data) before = some after) :
    after.key = before.key ∧ after.maxSize = before.maxSize ∧
    (∀ blockNo ∈ blocks, ∃ blockOffset chunk,
      chunkAt offset data blockNo = some (blockOffset, chunk) ∧
      after.dirtyBlocks.lookup blockNo =
        some (Vec.patch ((before.dirtyBlocks.lookup blockNo).getD []) blockOffset chunk 0)) ∧
    ∀ blockNo, blockNo ∉ blocks →
      after.dirtyBlocks.lookup blockNo = before.dirtyBlocks.lookup blockNo := by
  induction blocks generalizing before with
  | nil =>
      cases written
      exact ⟨rfl, rfl, by simp, fun _ _ => rfl⟩
  | cons head tail induction =>
      rw [List.nodup_cons] at distinct
      rcases Option.bind_eq_some_iff.mp written with ⟨middle, first, rest⟩
      rcases writeChunk_eq_some first with ⟨blockOffset, chunk, chunked, rfl⟩
      rcases induction distinct.2 rest with ⟨key, maxSize, touched, untouched⟩
      refine ⟨key, maxSize, ?_, ?_⟩
      · intro blockNo member
        rcases List.mem_cons.mp member with rfl | later
        · refine ⟨blockOffset, chunk, chunked, ?_⟩
          rw [untouched _ distinct.1, Finmap.lookup_insert]
        · rcases touched blockNo later with ⟨_, _, laterChunk, stored⟩
          have different : blockNo ≠ head := fun same => distinct.1 (same ▸ later)
          refine ⟨_, _, laterChunk, ?_⟩
          rw [stored, Finmap.lookup_insert_of_ne _ different]
      · intro blockNo absent
        rw [List.mem_cons, not_or] at absent
        rw [untouched _ absent.2, Finmap.lookup_insert_of_ne _ absent.1]

theorem buffered_of_write {offset : Nat} {data : List UInt8} {before after : HandleBuffer}
    (written : before.write offset data = some after) : Buffered offset data before after := by
  unfold write at written
  by_cases empty : data = []
  · subst empty
    cases written
    exact ⟨rfl, rfl, by simp [touchedBlocks], fun _ _ => rfl⟩
  rw [if_neg (by simpa using empty)] at written
  rcases Option.bind_eq_some_iff.mp written with ⟨stop, added, looped⟩
  have stopEq := eq_of_checkedAdd added
  subst stopEq
  have blocks : touchedBlocks offset data = visitedBlocks offset data :=
    if_neg (by simpa using empty)
  rcases writeChunks_eq_some (rangeInclusive_nodup _ _) looped with
    ⟨key, maxSize, touched, untouched⟩
  refine ⟨key, ?_, ?_, ?_⟩
  · rw [maxSize, if_neg empty]
  · rw [blocks]
    exact touched
  · rw [blocks]
    exact untouched

theorem Buffered.keys {offset : Nat} {data : List UInt8} {before after : HandleBuffer}
    (buffered : Buffered offset data before after) :
    after.dirtyBlocks.keys =
      before.dirtyBlocks.keys ∪ (touchedBlocks offset data).toFinset := by
  ext blockNo
  rw [Finset.mem_union, Finmap.mem_keys, Finmap.mem_keys, List.mem_toFinset,
    Table.mem_iff_exists_lookup, Table.mem_iff_exists_lookup]
  by_cases inside : blockNo ∈ touchedBlocks offset data
  · rcases buffered.touched blockNo inside with ⟨_, _, _, stored⟩
    simp [stored, inside]
  · simp [buffered.untouched blockNo inside, inside]

theorem eq_clean_of_pending {buffer : HandleBuffer} (nothing : buffer.pending = false) :
    buffer = .clean buffer.parent buffer.name := by
  rcases buffer with ⟨parent, name, dirtyBlocks, maxSize⟩
  simp only [pending, Bool.or_eq_false_iff, Bool.not_eq_false', Table.isEmpty_iff,
    decide_eq_false_iff_not, Nat.not_lt, Nat.le_zero_eq] at nothing
  rw [nothing.1, nothing.2]
  rfl

end HandleBuffer

end Pgfs
