import Pgfs.Foundation.Vec
import Pgfs.Db.Connection

namespace Pgfs

open MachineInt

/-! File contents as rows of fixed-size blocks: reading, writing and truncating
ranges of bytes. A slice out of range or an arithmetic overflow ends the
process. -/

/-- The part of a write that falls into one block: where it starts inside the
block, and its bytes. `Db::write_range` and `HandleBuffer::write` both compute
it. -/
def chunkAt (offset : Nat) (data : List UInt8) (blockNo : Int) :
    Option (Nat × List UInt8) := do
  let stop ← checkedAdd offset data.length
  let blockStart ← checkedMul (asU64 blockNo) blockSize
  let blockEnd ← checkedAdd blockStart blockSize
  let writeStart := max offset blockStart
  let writeEnd := min stop blockEnd
  let inDataEnd ← checkedSub writeEnd offset
  let chunk ← Vec.slice data (writeStart - offset) inDataEnd
  return (writeStart - blockStart, chunk)

/-- The blocks that the loops of `HandleBuffer::write` and `Db::write_range` visit. -/
def visitedBlocks (offset : Nat) (data : List UInt8) : List Int :=
  rangeInclusive (asI32 (offset / blockSize)) (asI32 ((offset + data.length - 1) / blockSize))

/-- What one block contributes to a read: stored bytes, and zeros where the
block is missing or too short. -/
def readPiece (stored : Option (List UInt8)) (blockOffset bytesInBlock : Nat) :
    List UInt8 :=
  match stored with
  | some data =>
      let sliceEnd := min (blockOffset + bytesInBlock) data.length
      if blockOffset < data.length then
        (data.take sliceEnd).drop blockOffset ++
          List.replicate (blockOffset + bytesInBlock - sliceEnd) 0
      else
        List.replicate bytesInBlock 0
  | none => List.replicate bytesInBlock 0

/-- The loop of `read_range_primary`. Every round consumes at least one byte, so
`fuel` rounds reach the end of a range of that length. -/
def readLoop (rows : Int → Option (List UInt8)) (endOffset : Nat) :
    (fuel currentOffset : Nat) → (result : List UInt8) → Option (List UInt8)
  | 0, currentOffset, result => if currentOffset < endOffset then none else some result
  | fuel + 1, currentOffset, result =>
      if currentOffset < endOffset then do
        let blockNo := asI32 (currentOffset / blockSize)
        let blockStart ← checkedMul (asU64 blockNo) blockSize
        let blockOffset ← checkedSub currentOffset blockStart
        let blockEnd ← checkedAdd blockStart blockSize
        let bytesInBlock ← checkedSub (min blockEnd endOffset) currentOffset
        readLoop rows endOffset fuel (currentOffset + bytesInBlock)
          (result ++ readPiece (rows blockNo) blockOffset bytesInBlock)
      else
        some result

namespace Db

/-- `read_range_primary`. -/
def readRangePrimary (parent name : Str) (offset length : Nat) :
    DbM (Option (List UInt8)) := do
  match ← getattrPrimary parent name with
  | none => return none
  | some fileMeta =>
      if fileMeta.kind = .dir then
        return none
      else if fileMeta.size ≤ offset then
        return some []
      else
        let actualLength := min length (fileMeta.size - offset)
        if actualLength = 0 then
          return some []
        else
          let endOffset ← Effect.orAbort (checkedAdd offset actualLength)
          let startBlock := asI32 (offset / blockSize)
          let endBlock := asI32 ((endOffset - 1) / blockSize)
          let rows ← query ⟨"read blocks for _ in _", [name, parent]⟩
            fun tables => tables.readBlocks ⟨parent, name⟩ startBlock endBlock
          let result ← Effect.orAbort (readLoop rows endOffset actualLength offset [])
          return some result

/-- `read_range`: the metrics aside, always the primary. -/
def readRange (parent name : Str) (offset length : Nat) :
    DbM (Option (List UInt8)) :=
  readRangePrimary parent name offset length

/-- One round of the loop of `write_range`: read the block unless it is
replaced whole, patch it and store it. -/
def writeBlock (parent name : Str) (offset : Nat) (data : List UInt8)
    (blockNo : Int) : DbM Unit := do
  let (blockOffset, chunk) ← Effect.orAbort (chunkAt offset data blockNo)
  let blockData ←
    if 0 < blockOffset ∨ chunk.length < blockSize then do
      let row ← query
        ⟨"read block _ inside write_range transaction", [.ofInt blockNo]⟩
        fun tables => tables.readBlocks ⟨parent, name⟩ blockNo blockNo blockNo
      pure (row.getD [])
    else
      pure []
  update ⟨"upsert block _ for _ in _", [.ofInt blockNo, name, parent]⟩
    fun _ tables => tables.upsertBlock ⟨parent, name⟩ blockNo
      (Vec.patch blockData blockOffset chunk 0)

/-- `write_range`. -/
def writeRange (parent name : Str) (offset : Nat) (data : List UInt8) : DbM Unit := do
  if data.isEmpty then
    return ()
  else
    let stop ← Effect.orAbort (checkedAdd offset data.length)
    let startBlock := asI32 (offset / blockSize)
    let endBlock := asI32 ((stop - 1) / blockSize)
    let fileMeta ← getattrPrimary parent name
    let oldSize := (fileMeta.map (·.size)).getD 0
    let newSize := max oldSize stop
    transaction ⟨"begin write_range transaction for _ in _", [name, parent]⟩
      ⟨"commit write_range transaction for _ in _", [name, parent]⟩ do
        (rangeInclusive startBlock endBlock).forM (writeBlock parent name offset data)
        update ⟨"update size of _ in _", [name, parent]⟩ fun moment tables =>
          tables.updateSize ⟨parent, name⟩ (asI64 newSize) moment.now

/-- Shrinking inside `truncate`: prune the blocks past the one the new end falls
into, and cut that one unless the new end is its first byte. -/
def shrinkBlocks (parent name : Str) (newSize : Nat) : DbM Unit := do
  let lastValidBlock := asI32 (newSize / blockSize)
  update ⟨"prune blocks past _ for _ in _", [.ofInt newSize, name, parent]⟩
    fun _ tables => tables.pruneBlocks ⟨parent, name⟩ lastValidBlock
  let blockRem := newSize % blockSize
  if 0 < blockRem then
    let row ← query ⟨"read boundary block _ inside truncate transaction",
        [.ofInt lastValidBlock]⟩
      fun tables =>
        tables.readBlocks ⟨parent, name⟩ lastValidBlock lastValidBlock lastValidBlock
    match row with
    | none => return ()
    | some blockData =>
        update ⟨"patch boundary block for _ in _", [name, parent]⟩ fun _ tables =>
          tables.upsertBlock ⟨parent, name⟩ lastValidBlock (blockData.take blockRem)
  else
    return ()

/-- `truncate`. -/
def truncate (parent name : Str) (newSize : Nat) : DbM Unit := do
  let notFile : DbError := .failure ⟨"truncate target _ in _ not a file", [name, parent]⟩
  match ← getattrPrimary parent name with
  | none => Effect.raise notFile
  | some fileMeta =>
      if fileMeta.kind = .dir then
        Effect.raise notFile
      else
        transaction ⟨"begin truncate transaction for _ in _", [name, parent]⟩
          ⟨"commit truncate transaction for _ in _", [name, parent]⟩ do
            if newSize < fileMeta.size then
              shrinkBlocks parent name newSize
            update ⟨"update size of _ in _", [name, parent]⟩ fun moment tables =>
              tables.updateSize ⟨parent, name⟩ (asI64 newSize) moment.now

/-- `write_blocks_batch`: store the given blocks as they are, whatever was
stored before, and grow the size. -/
def writeBlocksBatch (parent name : Str) (blocks : Table Int (List UInt8))
    (newSize : Nat) : DbM Unit := do
  if blocks.isEmpty ∧ newSize = 0 then
    return ()
  else
    let fileMeta ← if 0 < newSize then getattrPrimary parent name else pure none
    let order := (← Effect.get).moment.blockOrder
    transaction ⟨"begin write_blocks_batch for _ in _", [name, parent]⟩
      ⟨"commit write_blocks_batch for _ in _", [name, parent]⟩ do
        (order.keys blocks).forM fun blockNo =>
          update ⟨"upsert block _ for _ in _", [.ofInt blockNo, name, parent]⟩
            fun _ tables => tables.upsertBlock ⟨parent, name⟩ blockNo
              ((blocks.lookup blockNo).getD [])
        if 0 < newSize then
          let oldSize := (fileMeta.map (·.size)).getD 0
          let updatedSize := max oldSize newSize
          update ⟨"update size of _ in _", [name, parent]⟩ fun moment tables =>
            tables.updateSize ⟨parent, name⟩ (asI64 updatedSize) moment.now

end Db

end Pgfs
