import Pgfs.Foundation.Blocked
import Pgfs.Db.BlockStorage

namespace Pgfs

open MachineInt Blocked

/-! Ranges of bytes split into blocks: what the loop of a read collects, and what
each block receives from a write. -/

/-- Block numbers are `i32`, so this is where the addressable bytes end. -/
def addressable : Nat := 2 ^ 47

theorem addressable_eq : addressable = 2 ^ 47 := rfl

theorem blockSize_eq : blockSize = 65536 := rfl

/-! ## Splitting into blocks -/

theorem blockNo_of_lt {offset : Nat} (inside : offset < addressable) :
    asI32 (offset / blockSize) = blockOf blockSize offset := by
  apply asI32_of_lt
  rw [addressable_eq] at inside
  rw [blockSize_eq]
  omega

theorem asU64_blockOf {offset : Nat} (inside : offset < addressable) :
    asU64 (blockOf blockSize offset) = offset / blockSize := by
  apply asU64_natCast
  rw [addressable_eq] at inside
  rw [blockSize_eq]
  omega

private theorem readLoop_of_le {rows : Int → Option (List UInt8)}
    {endOffset fuel currentOffset : Nat} {result : List UInt8}
    (past : addressable ≤ currentOffset) (more : currentOffset < endOffset) :
    readLoop rows endOffset fuel currentOffset result = none := by
  cases fuel with
  | zero => simp [readLoop, more]
  | succ fuel =>
      have blockPast : 2 ^ 31 ≤ currentOffset / blockSize := by
        rw [addressable_eq] at past
        rw [blockSize_eq]
        omega
      unfold readLoop
      rw [if_pos more]
      simp only [Option.bind_eq_bind]
      rcases asU64_asI32_of_le blockPast with huge | ⟨small, behind⟩
      · rw [checkedMul_eq_none, Option.bind_none]
        rw [blockSize_eq] at *
        omega
      · generalize asU64 (asI32 (currentOffset / blockSize)) = block at *
        have stop : block * blockSize + blockSize < 2 ^ 64 := by
          rw [blockSize_eq]
          omega
        have behind : block * blockSize + blockSize < currentOffset := by
          rw [blockSize_eq] at *
          omega
        rw [checkedMul_of_lt (by omega), Option.bind_some, checkedSub_of_le (by omega),
          Option.bind_some, checkedAdd_of_lt stop, Option.bind_some,
          checkedSub_eq_none (by omega), Option.bind_none]

private theorem readPiece_eq (stored : Option (List UInt8)) (blockOffset bytesInBlock : Nat) :
    readPiece stored blockOffset bytesInBlock =
      Vec.window (Vec.cell 0 (stored.getD [])) blockOffset bytesInBlock := by
  have length : (readPiece stored blockOffset bytesInBlock).length = bytesInBlock := by
    unfold readPiece
    split
    · split <;> simp
      omega
    · simp
  rw [Vec.eq_window_cell 0 (readPiece _ _ _), length]
  have zeros : ∀ index, Vec.cell 0 (List.replicate bytesInBlock (0 : UInt8)) index = 0 :=
    Vec.cell_replicate 0 bytesInBlock
  apply List.map_congr_left
  intro index member
  have inside := List.mem_range.mp member
  rw [Nat.zero_add]
  cases stored with
  | none => simp [readPiece, zeros]
  | some data =>
      simp only [readPiece, Option.getD_some]
      split
      · rename_i starts
        rw [Vec.cell_append, Vec.cell_replicate, Vec.cell_drop, Vec.cell_take]
        simp only [List.length_drop, List.length_take]
        split
        · rw [if_pos (by omega)]
        · rw [Vec.cell_of_le 0 data (by omega)]
      · rw [zeros, Vec.cell_of_le 0 data (by omega)]

/-- The loop of `read_range_primary` reads the bytes that the rows stand for. -/
theorem readLoop_eq {rows : Int → Option (List UInt8)} {endOffset fuel currentOffset : Nat}
    {result : List UInt8} (enough : endOffset ≤ currentOffset + fuel)
    (more : currentOffset < endOffset) :
    readLoop rows endOffset fuel currentOffset result =
      if endOffset ≤ addressable then
        some (result ++
          Vec.window (flat 0 blockSize rows) currentOffset (endOffset - currentOffset))
      else
        none := by
  induction fuel generalizing currentOffset result with
  | zero => omega
  | succ fuel induction =>
      by_cases past : addressable ≤ currentOffset
      · rw [readLoop_of_le past more, if_neg (by omega)]
      · rw [Nat.not_le] at past
        have division := Nat.div_add_mod' currentOffset blockSize
        have remainder := Nat.mod_lt currentOffset (show 0 < blockSize by decide)
        have within : currentOffset / blockSize * blockSize + blockSize ≤ addressable := by
          rw [addressable_eq, blockSize_eq] at *
          omega
        have bounded : addressable + blockSize < 2 ^ 64 := by decide
        have start : checkedMul (currentOffset / blockSize) blockSize =
            some (currentOffset / blockSize * blockSize) := checkedMul_of_lt (by omega)
        unfold readLoop
        rw [if_pos more, blockNo_of_lt past]
        simp only [Option.bind_eq_bind, asU64_blockOf past]
        generalize currentOffset / blockSize * blockSize = blockStart at *
        have blockOffset : currentOffset - blockStart = currentOffset % blockSize := by
          omega
        rw [start, Option.bind_some, checkedSub_of_le (by omega), Option.bind_some,
          checkedAdd_of_lt (by omega), Option.bind_some, checkedSub_of_le (by omega),
          Option.bind_some, readPiece_eq, blockOffset, window_block 0 rows (by omega)]
        by_cases last : endOffset ≤ blockStart + blockSize
        · rw [Nat.min_eq_right last, if_pos (by omega), Nat.add_sub_cancel' more.le]
          cases fuel <;> simp [readLoop]
        · rw [Nat.min_eq_left (by omega), induction (by omega) (by omega)]
          split
          · rw [List.append_assoc, ← Vec.window_add]
            congr 3
            omega
          · rfl

/-! ## Splitting a write -/

section Splitting

variable {offset : Nat} {data : List UInt8}

/-- The part of `data` that falls into a block. -/
private def chunkIn (offset : Nat) (data : List UInt8) (blockStart : Nat) : List UInt8 :=
  (data.take (min (offset + data.length) (blockStart + blockSize) - offset)).drop
    (max offset blockStart - offset)

private theorem chunkAt_eq {blockNo : Nat} (fits : offset + data.length ≤ addressable)
    (low : offset < blockNo * blockSize + blockSize)
    (high : blockNo * blockSize < offset + data.length) :
    chunkAt offset data blockNo =
      some (max offset (blockNo * blockSize) - blockNo * blockSize,
        chunkIn offset data (blockNo * blockSize)) := by
  have bounded : addressable + blockSize < 2 ^ 64 := by decide
  have number : asU64 (blockNo : Int) = blockNo := by
    apply asU64_natCast
    rw [addressable_eq] at fits
    rw [blockSize_eq] at high
    omega
  have start : checkedMul blockNo blockSize = some (blockNo * blockSize) :=
    checkedMul_of_lt (by omega)
  unfold chunkAt chunkIn
  simp only [Option.bind_eq_bind, number]
  generalize blockNo * blockSize = blockStart at *
  rw [checkedAdd_of_lt (by omega), Option.bind_some, start, Option.bind_some,
    checkedAdd_of_lt (by omega), Option.bind_some, checkedSub_of_le (by omega),
    Option.bind_some, Vec.slice, if_pos (by omega), Option.bind_some]
  rfl

private theorem length_chunkIn {blockStart : Nat} (low : offset < blockStart + blockSize)
    (high : blockStart < offset + data.length) :
    max offset blockStart - blockStart + (chunkIn offset data blockStart).length =
      min (offset + data.length) (blockStart + blockSize) - blockStart := by
  simp only [chunkIn, List.length_drop, List.length_take]
  omega

private theorem cell_patch_chunkIn {blockData : List UInt8} {blockStart position : Nat}
    (low : offset < blockStart + blockSize) (high : blockStart < offset + data.length)
    (inside : position < blockSize) :
    Vec.cell 0 (Vec.patch blockData (max offset blockStart - blockStart)
        (chunkIn offset data blockStart) 0) position =
      Vec.overlay 0 (fun _ => Vec.cell 0 blockData position) offset data
        (blockStart + position) := by
  have length := length_chunkIn low high
  rw [Vec.cell_patch, Vec.overlay, Vec.overlay, length]
  by_cases covered : offset ≤ blockStart + position ∧
      blockStart + position < offset + data.length
  · rw [if_pos covered, if_pos (by omega), chunkIn, Vec.cell_drop, Vec.cell_take,
      if_pos (by omega)]
    congr 1
    omega
  · rw [if_neg covered, if_neg (by omega)]

theorem mem_blockRange {length : Nat} {blockNo : Int} (some : 0 < length)
    (fits : offset + length ≤ addressable) :
    blockNo ∈ rangeInclusive (asI32 (offset / blockSize))
        (asI32 ((offset + length - 1) / blockSize)) ↔
      ∃ index, offset ≤ index ∧ index < offset + length ∧
        blockOf blockSize index = blockNo := by
  rw [mem_rangeInclusive, blockNo_of_lt (by omega), blockNo_of_lt (by omega)]
  unfold blockOf
  rw [blockSize_eq]
  constructor
  · rintro ⟨first, last⟩
    refine ⟨max offset (blockNo.toNat * 65536), by omega, by omega, by omega⟩
  · rintro ⟨index, first, last, rfl⟩
    omega

theorem chunkAt_of_touched {index : Nat} {blockNo : Int}
    (fits : offset + data.length ≤ addressable) (low : offset ≤ index)
    (high : index < offset + data.length) (touched : blockOf blockSize index = blockNo) :
    ∃ blockOffset chunk, chunkAt offset data blockNo = some (blockOffset, chunk) ∧
      (∀ (rows : Int → Option (List UInt8)) other, blockOf blockSize other = blockNo →
        Vec.cell 0 (Vec.patch ((rows blockNo).getD []) blockOffset chunk 0)
            (other % blockSize) =
          Vec.overlay 0 (flat 0 blockSize rows) offset data other) ∧
      (¬(0 < blockOffset ∨ chunk.length < blockSize) →
        ∀ other, blockOf blockSize other = blockNo →
          offset ≤ other ∧ other < offset + data.length) := by
  subst touched
  have bounds := (blockOf_eq_iff (by decide)).mp (show blockOf blockSize index =
    (index / blockSize : Nat) from rfl)
  have low : offset < index / blockSize * blockSize + blockSize := by omega
  have high : index / blockSize * blockSize < offset + data.length := by omega
  refine ⟨_, _, chunkAt_eq fits low high, ?_, ?_⟩
  · intro rows other same
    have remainder := Nat.mod_lt other (show 0 < blockSize by decide)
    have division := Nat.div_add_mod' other blockSize
    have quotient : other / blockSize = index / blockSize := Int.ofNat_inj.mp same
    rw [cell_patch_chunkIn low high remainder, ← quotient, division]
    simp only [Vec.overlay, flat, same]
  · intro whole other same
    have inside := (blockOf_eq_iff (by decide)).mp same
    have length := length_chunkIn low high
    omega

theorem chunkAt_ends {index : Nat} {blockNo : Int} (fits : offset + data.length ≤ addressable)
    (low : offset ≤ index) (high : index < offset + data.length)
    (touched : blockOf blockSize index = blockNo) {blockOffset : Nat} {chunk : List UInt8}
    (chunked : chunkAt offset data blockNo = some (blockOffset, chunk)) :
    ∃ last, offset ≤ last ∧ last < offset + data.length ∧ blockOf blockSize last = blockNo ∧
      blockOffset + chunk.length = last % blockSize + 1 ∧
      ∀ other, other < offset + data.length → blockOf blockSize other = blockNo →
        other % blockSize ≤ last % blockSize := by
  subst touched
  have division := Nat.div_add_mod' index blockSize
  have remainder := Nat.mod_lt index (show 0 < blockSize by decide)
  have blockLow : offset < index / blockSize * blockSize + blockSize := by omega
  have blockHigh : index / blockSize * blockSize < offset + data.length := by omega
  have known : chunkAt offset data (blockOf blockSize index) = _ :=
    chunkAt_eq fits blockLow blockHigh
  rw [known] at chunked
  cases chunked
  rw [length_chunkIn blockLow blockHigh]
  generalize blockEq : index / blockSize = block at *
  generalize lastEq : min (offset + data.length) (block * blockSize + blockSize) - 1 = last
  have inside : block * blockSize ≤ last ∧ last < block * blockSize + blockSize := by omega
  have lastBlock : last / blockSize = block := by
    rw [Nat.div_eq_iff (by decide)]
    omega
  have lastDivision := Nat.div_add_mod' last blockSize
  rw [lastBlock] at lastDivision
  refine ⟨last, by omega, by omega, ?_, by omega, ?_⟩
  · unfold blockOf
    rw [lastBlock, blockEq]
  · intro other before same
    have otherBlock : other / blockSize = block := (Int.ofNat_inj.mp same).trans blockEq
    have otherDivision := Nat.div_add_mod' other blockSize
    have otherRemainder := Nat.mod_lt other (show 0 < blockSize by decide)
    rw [otherBlock] at otherDivision
    omega

theorem isSome_chunkAt (nonempty : 0 < data.length)
    (fits : offset + data.length ≤ addressable) {blockNo : Int}
    (member : blockNo ∈ rangeInclusive (asI32 (offset / blockSize))
      (asI32 ((offset + data.length - 1) / blockSize))) :
    (chunkAt offset data blockNo).isSome := by
  rcases (mem_blockRange nonempty fits).mp member with ⟨index, low, high, touched⟩
  rcases chunkAt_of_touched fits low high touched with ⟨_, _, chunked, _⟩
  rw [chunked]
  rfl

end Splitting

end Pgfs
