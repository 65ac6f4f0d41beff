import Pgfs.Db.Reading
import Pgfs.Fs.HandleBuffer

namespace Pgfs

open MachineInt Blocked

/-! How far the block arithmetic goes. Block numbers are computed as `u64`, stored as
`i32` and cast back with their sign, so they go wrong from block 2^31 on, long before
the size of a file does. -/

def ChunkCovers (offset : Nat) (data : List UInt8) (blockNo : Int) (index : Nat) : Prop :=
  ∃ blockOffset chunk, chunkAt offset data blockNo = some (blockOffset, chunk) ∧
    asU64 blockNo * blockSize + blockOffset ≤ index ∧
      index < asU64 blockNo * blockSize + blockOffset + chunk.length

/-- The loops of the two writes: nothing overflows, underflows or is out of bounds, and
the pieces cover each position of the range once and no other one. -/
structure ChunksExact (offset : Nat) (data : List UInt8) : Prop where
  stop : checkedAdd offset data.length = some (offset + data.length)
  chunks : ∀ blockNo ∈ visitedBlocks offset data, (chunkAt offset data blockNo).isSome
  distinct : (visitedBlocks offset data).Nodup
  covered : ∀ index, offset ≤ index → index < offset + data.length →
    ∃ blockNo ∈ visitedBlocks offset data, ChunkCovers offset data blockNo index ∧
      ∀ other ∈ visitedBlocks offset data, ChunkCovers offset data other index → other = blockNo
  inside : ∀ blockNo ∈ visitedBlocks offset data, ∀ index,
    ChunkCovers offset data blockNo index → offset ≤ index ∧ index < offset + data.length

/-- The loop of `Db::read_range_primary`: whatever is stored, it ends and replies each
position of the range within the file once and in order. -/
def ReadsExact (size offset length : Nat) : Prop :=
  size ≤ offset ∨ ∀ (tables : Tables) (key : Key),
    readLoop (tables.readBlocks key (asI32 (offset / blockSize))
        (asI32 ((offset + min length (size - offset) - 1) / blockSize)))
      (offset + min length (size - offset)) (min length (size - offset)) offset [] =
      some (Vec.window (tables.bytes key) offset (min length (size - offset)))

def BlocksDistinct (size : Nat) : Prop :=
  ∀ block other, block * blockSize < size → other * blockSize < size →
    asI32 block = asI32 other → block = other

/-- The statement of `Db::truncate` that prunes blocks deletes none that starts below the
new size, whatever is stored. -/
def PrunesAbove (size newSize : Nat) : Prop :=
  newSize < size → ∀ block, block * blockSize < newSize → ∀ (tables : Tables) (key : Key),
    (tables.pruneBlocks key (asI32 (newSize / blockSize))).block key (asI32 block) =
      tables.block key (asI32 block)

structure ArithmeticExact (size newSize offset : Nat) (data : List UInt8) : Prop where
  chunks : ChunksExact offset data
  reads : ReadsExact size offset data.length
  distinct : BlocksDistinct size
  prunes : PrunesAbove size newSize
  written : asI64 (max size (offset + data.length)) = max size (offset + data.length)
  truncated : asI64 newSize = newSize

/-! ## Writes -/

section Writes

variable {offset : Nat} {data : List UInt8} {blockNo : Int} {blockOffset : Nat}
  {chunk : List UInt8}

theorem chunkAt_extent (chunked : chunkAt offset data blockNo = some (blockOffset, chunk)) :
    asU64 blockNo * blockSize + blockOffset = max offset (asU64 blockNo * blockSize) ∧
      asU64 blockNo * blockSize + blockOffset + chunk.length =
        min (offset + data.length) (asU64 blockNo * blockSize + blockSize) := by
  unfold chunkAt at chunked
  simp only [Option.bind_eq_bind, Option.bind_eq_some_iff] at chunked
  rcases chunked with ⟨stop, stopIs, blockStart, startIs, blockEnd, endIs, inDataEnd, cut,
    piece, sliced, result⟩
  cases eq_of_checkedAdd stopIs
  cases eq_of_checkedMul startIs
  cases eq_of_checkedAdd endIs
  rcases eq_of_checkedSub cut with ⟨above, same⟩
  cases same
  have length := Vec.length_of_slice sliced
  have ordered := Vec.le_of_slice sliced
  cases result
  generalize asU64 blockNo * blockSize = blockStart at *
  omega

theorem chunkCovers_iff (chunked : (chunkAt offset data blockNo).isSome) {index : Nat} :
    ChunkCovers offset data blockNo index ↔
      (offset ≤ index ∧ index < offset + data.length) ∧ index / blockSize = asU64 blockNo := by
  rcases Option.isSome_iff_exists.mp chunked with ⟨⟨blockOffset, chunk⟩, found⟩
  have extent := chunkAt_extent found
  have position : index / blockSize = asU64 blockNo ↔ asU64 blockNo * blockSize ≤ index ∧
      index < asU64 blockNo * blockSize + blockSize := by
    rw [Nat.div_eq_iff (by decide), blockSize_eq]
    omega
  rw [position]
  constructor
  · intro covers
    rcases covers with ⟨otherOffset, otherChunk, otherFound, low, high⟩
    rw [found] at otherFound
    cases otherFound
    omega
  · intro inside
    exact ⟨blockOffset, chunk, found, by omega, by omega⟩

theorem chunksExact_iff (nonempty : data ≠ []) (small : offset + data.length < 2 ^ 63) :
    ChunksExact offset data ↔ offset + data.length ≤ addressable := by
  have some : 0 < data.length := List.length_pos_iff.mpr nonempty
  constructor
  · intro exact
    rcases exact.covered (offset + data.length - 1) (by omega) (by omega) with
      ⟨blockNo, visited, covers, _⟩
    have last := ((chunkCovers_iff (exact.chunks blockNo visited)).mp covers).2
    have bounds := mem_rangeInclusive.mp visited
    have numbers := asI32_bounds (offset / blockSize)
    have lastNumbers := asI32_bounds ((offset + data.length - 1) / blockSize)
    rw [blockSize_eq] at last
    rw [addressable_eq]
    unfold asU64 at last
    omega
  · intro fits
    have touched : ∀ {blockNo : Int}, blockNo ∈ visitedBlocks offset data →
        (chunkAt offset data blockNo).isSome := fun visited => isSome_chunkAt some fits visited
    have number : ∀ {index : Nat}, index < offset + data.length →
        asU64 (blockOf blockSize index) = index / blockSize :=
      fun inside => asU64_blockOf (by omega)
    refine ⟨checkedAdd_of_lt (by omega), fun _ => touched, rangeInclusive_nodup _ _, ?_, ?_⟩
    · intro index low high
      have visited : blockOf blockSize index ∈ visitedBlocks offset data :=
        (mem_blockRange some fits).mpr ⟨index, low, high, rfl⟩
      refine ⟨blockOf blockSize index, visited,
        (chunkCovers_iff (touched visited)).mpr ⟨⟨low, high⟩, (number high).symm⟩, ?_⟩
      intro other otherVisited covers
      have quotient := ((chunkCovers_iff (touched otherVisited)).mp covers).2
      rcases (mem_blockRange some fits).mp otherVisited with ⟨witness, _, before, same⟩
      rw [← same, number before] at quotient
      rw [← same]
      unfold blockOf
      rw [quotient]
    · intro blockNo visited index covers
      exact ((chunkCovers_iff (touched visited)).mp covers).1

end Writes

/-! ## Reads, numbers and prunes -/

theorem readsExact_iff {size offset length : Nat} (some : 0 < length) :
    ReadsExact size offset length ↔
      size ≤ offset ∨ min (offset + length) size ≤ addressable := by
  apply or_congr_right'
  intro within
  have more : 0 < min length (size - offset) := by omega
  have stop : offset + min length (size - offset) = min (offset + length) size := by omega
  constructor
  · intro exact
    by_contra past
    have absurd := exact .empty ⟨[], []⟩
    rw [Db.readLoop_readBlocks _ _ _ more, stop, if_neg past] at absurd
    cases absurd
  · intro fits tables key
    rw [Db.readLoop_readBlocks _ _ _ more, stop, if_pos fits]

theorem asI32_inj {block other : Nat} (small : block < 2 ^ 32) (otherSmall : other < 2 ^ 32)
    (same : asI32 block = asI32 other) : block = other := by
  unfold asI32 at same
  rw [Int.bmod_def, Int.bmod_def] at same
  split_ifs at same <;> omega

theorem blocksDistinct_iff {size : Nat} : BlocksDistinct size ↔ size ≤ 2 ^ 48 := by
  constructor
  · intro distinct
    by_contra past
    have zero := distinct 0 (2 ^ 32) (by omega) (by rw [blockSize_eq]; omega) (by decide)
    omega
  · intro fits block other inside otherInside same
    rw [blockSize_eq] at inside otherInside
    exact asI32_inj (by omega) (by omega) same

private theorem pruneBlocks_keeps_iff {last blockNo : Int} :
    (∀ (tables : Tables) (key : Key),
      (tables.pruneBlocks key last).block key blockNo = tables.block key blockNo) ↔
      blockNo ≤ last := by
  constructor
  · intro kept
    have stored := kept (Tables.empty.upsertBlock ⟨[], []⟩ blockNo []) ⟨[], []⟩
    rw [Tables.block_pruneBlocks] at stored
    split at stored
    · rw [Tables.block_upsertBlock, if_pos ⟨rfl, rfl⟩] at stored
      cases stored
    · rename_i reached
      exact not_lt.mp fun past => reached ⟨rfl, past⟩
  · intro reached tables key
    rw [Tables.block_pruneBlocks, if_neg fun pruned => absurd pruned.2 (not_lt.mpr reached)]

/-- Pruning is safe when the last block has a number that no block exceeds, which
beyond the addressable bytes it has only by chance. -/
theorem prunesAbove_iff {size newSize : Nat} :
    PrunesAbove size newSize ↔
      size ≤ newSize ∨ newSize < addressable ∨ newSize / blockSize % 2 ^ 32 = 2 ^ 31 - 1 := by
  simp only [PrunesAbove, pruneBlocks_keeps_iff]
  rw [← Nat.not_lt, ← imp_iff_not_or]
  apply imp_congr_right
  intro shrinks
  constructor
  · intro kept
    by_cases within : newSize < addressable
    · exact Or.inl within
    · right
      have largest := kept (2 ^ 31 - 1) (by rw [addressable_eq] at within; rw [blockSize_eq]; omega)
      unfold asI32 at largest
      rw [Int.bmod_def, Int.bmod_def] at largest
      split_ifs at largest <;> omega
  · intro condition block below
    have order : block ≤ newSize / blockSize := by
      rw [blockSize_eq] at *
      omega
    rcases condition with within | chance
    · rw [addressable_eq] at within
      rw [blockSize_eq] at *
      rw [asI32_of_lt (by omega), asI32_of_lt (by omega)]
      omega
    · have largest : asI32 (newSize / blockSize) = 2 ^ 31 - 1 := by
        unfold asI32
        rw [Int.bmod_def]
        split_ifs <;> omega
      have bounds := asI32_bounds block
      omega

/-- The arithmetic is exact for the ranges that end within the addressable bytes, the
files with at most 2^32 blocks and the new sizes that are addressable, besides those
that nothing is pruned for. -/
theorem arithmetic_exact_iff {size newSize offset : Nat} {data : List UInt8}
    (nonempty : data ≠ []) (sized : size < 2 ^ 63) (newSized : newSize < 2 ^ 63)
    (small : offset + data.length < 2 ^ 63) :
    ArithmeticExact size newSize offset data ↔
      offset + data.length ≤ addressable ∧ size ≤ 2 ^ 48 ∧
        (size ≤ newSize ∨ newSize < addressable ∨
          newSize / blockSize % 2 ^ 32 = 2 ^ 31 - 1) := by
  constructor
  · intro exact
    exact ⟨(chunksExact_iff nonempty small).mp exact.chunks, blocksDistinct_iff.mp exact.distinct,
      prunesAbove_iff.mp exact.prunes⟩
  · intro condition
    rcases condition with ⟨fits, few, prunes⟩
    refine ⟨(chunksExact_iff nonempty small).mpr fits, ?_, blocksDistinct_iff.mpr few,
      prunesAbove_iff.mpr prunes, asI64_of_lt (by omega), asI64_of_lt newSized⟩
    apply (readsExact_iff (List.length_pos_iff.mpr nonempty)).mpr
    exact Or.inr (by omega)

/-- A write of one byte to a file of ten bytes, and a cut to five. -/
theorem arithmetic_exact_iff_small : ArithmeticExact 10 5 65535 [1, 2] := by
  apply (arithmetic_exact_iff (by decide) (by decide) (by decide) (by decide)).mpr
  decide

/-- A byte past 2^47 goes to a negative block number, and the process ends. -/
theorem write_past_addressable_overflows :
    (HandleBuffer.clean [] ['a']).write (2 ^ 47) [7] = none ∧
      ¬∀ (size newSize offset : Nat) (data : List UInt8), data ≠ [] → size < 2 ^ 63 →
        newSize < 2 ^ 63 → offset + data.length < 2 ^ 63 →
          ArithmeticExact size newSize offset data := by
  constructor
  · decide
  · intro claimed
    have exact := claimed (2 ^ 47 + 1) (2 ^ 47 + 1) (2 ^ 47) [7] (by decide) (by decide)
      (by decide) (by decide)
    have fits := (chunksExact_iff (by decide) (by decide)).mp exact.chunks
    exact absurd fits (by decide)

end Pgfs
