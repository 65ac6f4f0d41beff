import Mathlib.Order.Bounds.Basic
import Pgfs.Db.Ranges
import Pgfs.Handles.Buffering

namespace Pgfs

open MachineInt Blocked

/-! The buffer of a handle after any sequence of writes: at every position what was
written there last. -/

theorem mem_touchedBlocks {write : RangeWrite} (fits : write.Fits) {blockNo : Int} :
    blockNo ∈ touchedBlocks write.offset write.data ↔ write.touches blockNo := by
  unfold touchedBlocks visitedBlocks RangeWrite.touches RangeWrite.covers
  by_cases empty : write.data = []
  · simp only [empty, List.isEmpty_nil, if_true, List.not_mem_nil, false_iff, List.length_nil]
    intro found
    rcases found with ⟨index, covered, _⟩
    omega
  · rw [if_neg (by simpa using empty), mem_blockRange (List.length_pos_iff.mpr empty) fits]
    constructor
    · intro found
      rcases found with ⟨index, low, high, inBlock⟩
      exact ⟨index, ⟨low, high⟩, inBlock⟩
    · intro found
      rcases found with ⟨index, covered, inBlock⟩
      exact ⟨index, covered.1, covered.2, inBlock⟩

namespace HandleBuffer

def writeAll (writes : List RangeWrite) (buffer : HandleBuffer) : Option HandleBuffer :=
  writes.foldlM (fun buffer write => buffer.write write.offset write.data) buffer

theorem writeAll_append (writes : List RangeWrite) (last : RangeWrite)
    (buffer : HandleBuffer) :
    buffer.writeAll (writes ++ [last]) =
      (buffer.writeAll writes).bind fun middle => middle.write last.offset last.data := by
  unfold writeAll
  rw [List.foldlM_append]
  congr 1
  funext middle
  rw [List.foldlM_cons]
  cases middle.write last.offset last.data with
  | none => rfl
  | some next => rfl

private theorem writeChunks_isSome {offset : Nat} {data : List UInt8} {blocks : List Int}
    (chunked : ∀ blockNo ∈ blocks, (chunkAt offset data blockNo).isSome)
    (buffer : HandleBuffer) :
    ∃ next, blocks.foldlM (writeChunk offset data) buffer = some next := by
  induction blocks generalizing buffer with
  | nil => exact ⟨buffer, rfl⟩
  | cons head rest induction =>
      rcases Option.isSome_iff_exists.mp (chunked head List.mem_cons_self) with
        ⟨⟨blockOffset, chunk⟩, found⟩
      have written : buffer.writeChunk offset data head = some { buffer with
          dirtyBlocks := buffer.dirtyBlocks.insert head
            (Vec.patch ((buffer.dirtyBlocks.lookup head).getD []) blockOffset chunk 0) } := by
        unfold writeChunk
        rw [found]
        rfl
      rcases induction (fun blockNo member => chunked blockNo (List.mem_cons_of_mem _ member)) _
        with ⟨next, rest⟩
      refine ⟨next, ?_⟩
      rw [List.foldlM_cons, written]
      exact rest

theorem exists_write {write : RangeWrite} (fits : write.Fits) (buffer : HandleBuffer) :
    ∃ next, buffer.write write.offset write.data = some next := by
  unfold HandleBuffer.write
  by_cases empty : write.data = []
  · exact ⟨buffer, by rw [empty]; rfl⟩
  · have bounded : addressable < 2 ^ 64 := by decide
    have within : write.offset + write.data.length ≤ addressable := fits
    have chunked : ∀ blockNo ∈ rangeInclusive (asI32 (write.offset / blockSize))
        (asI32 ((write.offset + write.data.length - 1) / blockSize)),
        (chunkAt write.offset write.data blockNo).isSome :=
      fun blockNo member => isSome_chunkAt (List.length_pos_iff.mpr empty) fits member
    rw [if_neg (by simpa using empty), checkedAdd_of_lt (by omega), Option.bind_eq_bind,
      Option.bind_some]
    dsimp only
    generalize rangeInclusive (asI32 (write.offset / blockSize))
      (asI32 ((write.offset + write.data.length - 1) / blockSize)) = blocks at chunked ⊢
    exact writeChunks_isSome chunked _

/-- What a buffer holds of the bytes written last: the blocks with a written
position, each up to the last one, with zeros in between. -/
structure Holds (written : Nat → Option UInt8) (buffer : HandleBuffer) : Prop where
  dirty : ∀ blockNo, blockNo ∈ buffer.dirtyBlocks ↔
    ∃ index, (written index).isSome ∧ blockOf blockSize index = blockNo
  length : ∀ blockNo data, buffer.dirtyBlocks.lookup blockNo = some data →
    IsGreatest {length | ∃ index, (written index).isSome ∧
      blockOf blockSize index = blockNo ∧ length = index % blockSize + 1} data.length
  bytes : ∀ index, flat 0 blockSize buffer.dirtyBlocks.lookup index = (written index).getD 0

theorem holds_clean (parent name : Str) : Holds (fun _ => none) (clean parent name) where
  dirty blockNo := by simp [clean, Finmap.notMem_empty]
  length blockNo data stored := by simp [clean] at stored
  bytes index := by simp [flat, clean]

variable {written : Nat → Option UInt8} {before after : HandleBuffer}

private abbrev overwritten (write : RangeWrite) (written : Nat → Option UInt8) :
    Nat → Option UInt8 :=
  fun index => if write.covers index then some (write.byte index) else written index

private theorem isSome_next {write : RangeWrite} {index : Nat} :
    (overwritten write written index).isSome ↔
      write.covers index ∨ (written index).isSome := by
  by_cases covered : write.covers index
  · simp [overwritten, covered]
  · simp [overwritten, covered]

private theorem Holds.dirty_write {write : RangeWrite} (holds : Holds written before)
    (fits : write.Fits) (buffered : Buffered write.offset write.data before after)
    (blockNo : Int) :
    blockNo ∈ after.dirtyBlocks ↔
      ∃ index, (overwritten write written index).isSome ∧ blockOf blockSize index = blockNo := by
  rw [← Finmap.mem_keys, buffered.keys, Finset.mem_union, Finmap.mem_keys, List.mem_toFinset,
    holds.dirty, mem_touchedBlocks fits]
  constructor
  · intro found
    rcases found with ⟨index, earlier, inBlock⟩ | ⟨index, covered, inBlock⟩
    · exact ⟨index, isSome_next.mpr (.inr earlier), inBlock⟩
    · exact ⟨index, isSome_next.mpr (.inl covered), inBlock⟩
  · intro found
    rcases found with ⟨index, some, inBlock⟩
    rcases isSome_next.mp some with covered | earlier
    · exact .inr ⟨index, covered, inBlock⟩
    · exact .inl ⟨index, earlier, inBlock⟩

private theorem Holds.length_write_touched {write : RangeWrite} (holds : Holds written before)
    (fits : write.Fits) (buffered : Buffered write.offset write.data before after)
    {blockNo : Int} {data : List UInt8} (inside : write.touches blockNo)
    (stored : after.dirtyBlocks.lookup blockNo = some data) :
    IsGreatest {length | ∃ index, (overwritten write written index).isSome ∧
      blockOf blockSize index = blockNo ∧ length = index % blockSize + 1} data.length := by
  rcases buffered.touched blockNo ((mem_touchedBlocks fits).mpr inside) with
    ⟨blockOffset, chunk, chunked, patched⟩
  rw [patched] at stored
  cases stored
  rcases inside with ⟨index, covered, inBlock⟩
  rcases chunkAt_ends fits covered.1 covered.2 inBlock chunked with
    ⟨last, low, high, lastBlock, reach, greatest⟩
  rw [Vec.length_patch, reach]
  constructor
  · cases earlier : before.dirtyBlocks.lookup blockNo with
    | none =>
        rw [Option.getD_none, List.length_nil, Nat.max_eq_right (Nat.zero_le _)]
        exact ⟨last, isSome_next.mpr (.inl ⟨low, high⟩), lastBlock, rfl⟩
    | some old =>
        rw [Option.getD_some]
        rcases Nat.le_total (last % blockSize + 1) old.length with longer | shorter
        · rw [Nat.max_eq_left longer]
          rcases (holds.length blockNo old earlier).1 with ⟨source, some, sourceBlock, equal⟩
          exact ⟨source, isSome_next.mpr (.inr some), sourceBlock, equal⟩
        · rw [Nat.max_eq_right shorter]
          exact ⟨last, isSome_next.mpr (.inl ⟨low, high⟩), lastBlock, rfl⟩
  · intro length found
    rcases found with ⟨source, some, sourceBlock, rfl⟩
    rcases isSome_next.mp some with sourceCovered | sourceWritten
    · have within := greatest source sourceCovered.2 sourceBlock
      exact le_max_of_le_right (Nat.succ_le_succ within)
    · rcases Finmap.mem_iff.mp ((holds.dirty blockNo).mpr
        ⟨source, sourceWritten, sourceBlock⟩) with ⟨old, earlier⟩
      rw [earlier, Option.getD_some]
      exact le_max_of_le_left ((holds.length blockNo old earlier).2
        ⟨source, sourceWritten, sourceBlock, rfl⟩)

private theorem Holds.length_write_untouched {write : RangeWrite} (holds : Holds written before)
    (fits : write.Fits) (buffered : Buffered write.offset write.data before after)
    {blockNo : Int} {data : List UInt8} (outside : ¬write.touches blockNo)
    (stored : after.dirtyBlocks.lookup blockNo = some data) :
    IsGreatest {length | ∃ index, (overwritten write written index).isSome ∧
      blockOf blockSize index = blockNo ∧ length = index % blockSize + 1} data.length := by
  rw [buffered.untouched blockNo (mt (mem_touchedBlocks fits).mp outside)] at stored
  have same : ∀ index, blockOf blockSize index = blockNo →
      ((overwritten write written index).isSome ↔ (written index).isSome) := by
    intro index inBlock
    rw [overwritten, if_neg fun covered => outside ⟨index, covered, inBlock⟩]
  have greatest := holds.length blockNo data stored
  constructor
  · rcases greatest.1 with ⟨index, some, inBlock, equal⟩
    exact ⟨index, (same index inBlock).mpr some, inBlock, equal⟩
  · intro length found
    rcases found with ⟨index, some, inBlock, equal⟩
    exact greatest.2 ⟨index, (same index inBlock).mp some, inBlock, equal⟩

private theorem Holds.bytes_write {write : RangeWrite} (holds : Holds written before)
    (fits : write.Fits) (buffered : Buffered write.offset write.data before after)
    (index : Nat) :
    flat 0 blockSize after.dirtyBlocks.lookup index =
      (overwritten write written index).getD 0 := by
  by_cases inside : write.touches (blockOf blockSize index)
  · rcases buffered.touched _ ((mem_touchedBlocks fits).mpr inside) with
      ⟨blockOffset, chunk, chunked, patched⟩
    rcases inside with ⟨source, covered, inBlock⟩
    rcases chunkAt_of_touched fits covered.1 covered.2 inBlock with
      ⟨_, _, sameChunk, overlaid, _⟩
    rw [chunked] at sameChunk
    cases sameChunk
    rw [flat_of_some 0 patched, overlaid before.dirtyBlocks.lookup index rfl, Vec.overlay,
      holds.bytes]
    by_cases here : write.offset ≤ index ∧ index < write.offset + write.data.length
    · rw [if_pos here, overwritten, if_pos (show write.covers index from here)]
      rfl
    · rw [if_neg here, overwritten, if_neg (show ¬write.covers index from here)]
  · have same : flat 0 blockSize after.dirtyBlocks.lookup index =
        flat 0 blockSize before.dirtyBlocks.lookup index :=
      flat_congr 0 blockSize
        (buffered.untouched _ (mt (mem_touchedBlocks fits).mp inside))
    rw [same, holds.bytes, overwritten, if_neg fun covered => inside ⟨index, covered, rfl⟩]

theorem Holds.write {write : RangeWrite} (holds : Holds written before) (fits : write.Fits)
    (run : before.write write.offset write.data = some after) :
    Holds (fun index => if write.covers index then some (write.byte index) else written index)
      after where
  dirty := holds.dirty_write fits (buffered_of_write run)
  length blockNo data stored := by
    by_cases inside : write.touches blockNo
    · exact holds.length_write_touched fits (buffered_of_write run) inside stored
    · exact holds.length_write_untouched fits (buffered_of_write run) inside stored
  bytes := holds.bytes_write fits (buffered_of_write run)

theorem Holds.unique {other : HandleBuffer} (holds : Holds written before)
    (same : Holds written other) : before.dirtyBlocks = other.dirtyBlocks := by
  apply Finmap.ext_lookup
  intro blockNo
  by_cases dirty : blockNo ∈ before.dirtyBlocks
  · have otherDirty := (same.dirty blockNo).mpr ((holds.dirty blockNo).mp dirty)
    rcases Finmap.mem_iff.mp dirty with ⟨data, stored⟩
    rcases Finmap.mem_iff.mp otherDirty with ⟨otherData, otherStored⟩
    rw [stored, otherStored, Option.some.injEq]
    have lengths := (holds.length blockNo data stored).unique
      (same.length blockNo otherData otherStored)
    rcases (holds.dirty blockNo).mp dirty with ⟨source, _, sourceBlock⟩
    have bounded := (holds.length blockNo data stored).1
    rcases bounded with ⟨last, _, _, reach⟩
    have lastInside := Nat.mod_lt last (show 0 < blockSize by decide)
    rw [Vec.eq_window_cell 0 data, Vec.eq_window_cell 0 otherData, lengths]
    apply Vec.window_congr
    intro position _ inside
    -- the position of the file that lies there in the block
    have quotient : (source / blockSize * blockSize + position) / blockSize =
        source / blockSize := by
      rw [Nat.div_eq_iff (by decide)]
      omega
    have remainder : (source / blockSize * blockSize + position) % blockSize = position := by
      have division := Nat.div_add_mod' (source / blockSize * blockSize + position) blockSize
      rw [quotient] at division
      omega
    have here : blockOf blockSize (source / blockSize * blockSize + position) = blockNo := by
      unfold blockOf
      rw [quotient]
      exact sourceBlock
    have bytes := holds.bytes (source / blockSize * blockSize + position)
    have otherBytes := same.bytes (source / blockSize * blockSize + position)
    rw [flat_of_some 0 (here.symm ▸ stored), remainder] at bytes
    rw [flat_of_some 0 (here.symm ▸ otherStored), remainder] at otherBytes
    rw [bytes, otherBytes]
  · have otherClean : blockNo ∉ other.dirtyBlocks :=
      fun otherDirty => dirty ((holds.dirty blockNo).mpr ((same.dirty blockNo).mp otherDirty))
    rw [Finmap.lookup_eq_none.mpr dirty, Finmap.lookup_eq_none.mpr otherClean]

structure Carries (key : Key) (writes : List RangeWrite) (buffer : HandleBuffer) : Prop where
  key : buffer.key = key
  maxSize : buffer.maxSize = greatestStop writes
  holds : Holds (lastWritten writes) buffer

theorem carries_clean (parent name : Str) :
    Carries ⟨parent, name⟩ [] (clean parent name) where
  key := rfl
  maxSize := rfl
  holds := holds_clean parent name

theorem Carries.write {key : Key} {writes : List RangeWrite} {last : RangeWrite}
    (carries : Carries key writes before) (fits : last.Fits)
    (run : before.write last.offset last.data = some after) :
    Carries key (writes ++ [last]) after := by
  have buffered := buffered_of_write run
  have next := carries.holds.write fits run
  have same : lastWritten (writes ++ [last]) = fun index =>
        if last.covers index then some (last.byte index) else lastWritten writes index :=
      funext fun index => lastWritten_append writes last index
  rw [← same] at next
  refine ⟨buffered.key.trans carries.key, ?_, next⟩
  rw [buffered.maxSize, greatestStop_append, carries.maxSize]
  by_cases empty : last.data = []
  · rw [if_pos empty, RangeWrite.stop_of_empty empty, Nat.max_eq_left (Nat.zero_le _)]
  · rw [if_neg empty, RangeWrite.stop_of_nonempty empty]

theorem exists_writeAll {writes : List RangeWrite} (fits : ∀ write ∈ writes, write.Fits)
    (parent name : Str) :
    ∃ buffer, (clean parent name).writeAll writes = some buffer ∧
      Carries ⟨parent, name⟩ writes buffer := by
  induction writes using List.reverseRecOn with
  | nil => exact ⟨clean parent name, rfl, carries_clean parent name⟩
  | append_singleton writes last induction =>
      rcases induction fun write member => fits write (List.mem_append_left _ member) with
        ⟨middle, ran, carries⟩
      have lastFits := fits last (by simp)
      rcases exists_write lastFits middle with ⟨buffer, written⟩
      refine ⟨buffer, ?_, carries.write lastFits written⟩
      rw [writeAll_append, ran]
      exact written

/-- The buffer of any sequence of writes: its size is the greatest end, a block is
dirty when a write covers a byte of it, reaches to the last such byte, and holds at
each position what was written there last, or a zero. Writes that put the same bytes
without overlapping leave the same buffer, in whatever order and however split. -/
theorem buffer_overlays_writes {writes : List RangeWrite} (fits : ∀ write ∈ writes, write.Fits)
    (parent name : Str) :
    ∃ buffer, (clean parent name).writeAll writes = some buffer ∧
      buffer.maxSize = greatestStop writes ∧
      (∀ blockNo, blockNo ∈ buffer.dirtyBlocks ↔ ∃ write ∈ writes, write.touches blockNo) ∧
      (∀ blockNo data, buffer.dirtyBlocks.lookup blockNo = some data →
        IsGreatest {length | ∃ write ∈ writes, ∃ index, write.covers index ∧
          blockOf blockSize index = blockNo ∧ length = index % blockSize + 1} data.length ∧
        ∀ index, blockOf blockSize index = blockNo →
          Vec.cell 0 data (index % blockSize) = (lastWritten writes index).getD 0) ∧
      ∀ others : List RangeWrite, (∀ write ∈ others, write.Fits) →
        writes.Pairwise RangeWrite.Apart → others.Pairwise RangeWrite.Apart →
        (∀ index byte, (∃ write ∈ writes, write.Puts index byte) ↔
          ∃ write ∈ others, write.Puts index byte) →
        (clean parent name).writeAll others = some buffer := by
  rcases exists_writeAll fits parent name with ⟨buffer, ran, key, maxSize, holds⟩
  have written : ∀ blockNo, (∃ index, (lastWritten writes index).isSome ∧
      blockOf blockSize index = blockNo) ↔ ∃ write ∈ writes, write.touches blockNo := by
    intro blockNo
    constructor
    · intro found
      rcases found with ⟨index, some, inBlock⟩
      rcases isSome_lastWritten.mp some with ⟨write, member, covered⟩
      exact ⟨write, member, index, covered, inBlock⟩
    · intro found
      rcases found with ⟨write, member, index, covered, inBlock⟩
      exact ⟨index, isSome_lastWritten.mpr ⟨write, member, covered⟩, inBlock⟩
  have lengths : ∀ blockNo, {length | ∃ index, (lastWritten writes index).isSome ∧
      blockOf blockSize index = blockNo ∧ length = index % blockSize + 1} =
      {length | ∃ write ∈ writes, ∃ index, write.covers index ∧
        blockOf blockSize index = blockNo ∧ length = index % blockSize + 1} := by
    intro blockNo
    ext length
    constructor
    · intro found
      rcases found with ⟨index, some, rest⟩
      rcases isSome_lastWritten.mp some with ⟨write, member, covered⟩
      exact ⟨write, member, index, covered, rest⟩
    · intro found
      rcases found with ⟨write, member, index, covered, rest⟩
      exact ⟨index, isSome_lastWritten.mpr ⟨write, member, covered⟩, rest⟩
  refine ⟨buffer, ran, maxSize, fun blockNo => (holds.dirty blockNo).trans (written blockNo),
    fun blockNo data stored => ⟨lengths blockNo ▸ holds.length blockNo data stored, ?_⟩, ?_⟩
  · intro index inBlock
    have bytes := holds.bytes index
    rw [flat_of_some 0 (inBlock.symm ▸ stored)] at bytes
    exact bytes
  · intro others othersFit apart othersApart same
    have lastSame := lastWritten_congr apart othersApart same
    rcases exists_writeAll othersFit parent name with
      ⟨other, otherRan, otherKey, otherSize, otherHolds⟩
    rw [← lastSame] at otherHolds
    have blocks := holds.unique otherHolds
    have sizes := greatestStop_congr lastSame
    rw [otherRan]
    rw [← maxSize, ← otherSize] at sizes
    have keys := key.trans otherKey.symm
    rcases buffer with ⟨_, _, _, _⟩
    rcases other with ⟨_, _, _, _⟩
    simp only [HandleBuffer.key, Key.mk.injEq] at keys blocks sizes
    rw [keys.1, keys.2, blocks, sizes]

/-- Two adjacent bytes, the second one first. -/
theorem buffer_overlays_writes_backwards :
    ∃ buffer, (clean [] ['a']).writeAll [⟨1, [8]⟩, ⟨0, [7]⟩] = some buffer ∧
      buffer.maxSize = 2 ∧ (clean [] ['a']).writeAll [⟨0, [7, 8]⟩] = some buffer := by
  have fits : ∀ write ∈ ([⟨1, [8]⟩, ⟨0, [7]⟩] : List RangeWrite), write.Fits := by decide
  have holds := buffer_overlays_writes fits [] ['a']
  rcases holds with ⟨buffer, ran, maxSize, _, _, split⟩
  refine ⟨buffer, ran, maxSize, split [⟨0, [7, 8]⟩] (by decide) ?_ (List.pairwise_singleton _ _)
    ?_⟩
  · rw [List.pairwise_pair]
    intro index overlap
    simp only [RangeWrite.covers, List.length_cons, List.length_nil] at overlap
    omega
  · intro index byte
    have positions : index = 0 ∨ index = 1 ∨ 2 ≤ index := by omega
    rcases positions with rfl | rfl | past
    · simp [RangeWrite.Puts, RangeWrite.covers, RangeWrite.byte, Vec.cell]
    · simp [RangeWrite.Puts, RangeWrite.covers, RangeWrite.byte, Vec.cell]
    · have apart : ¬(1 ≤ index ∧ index < 1 + 1) ∧ ¬index < 0 + 1 ∧ ¬index < 0 + 2 := by omega
      simp [RangeWrite.Puts, RangeWrite.covers]
      omega

end HandleBuffer

end Pgfs
