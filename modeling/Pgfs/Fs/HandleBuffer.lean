import Pgfs.Db.BlockStorage

namespace Pgfs

open MachineInt

/-! The write-back buffer of an open handle. -/

/-- `HandleBuffer`. -/
structure HandleBuffer where
  parent : Str
  name : Str
  dirtyBlocks : Table Int (List UInt8)
  maxSize : Nat

namespace HandleBuffer

def clean (parent name : Str) : HandleBuffer := ⟨parent, name, ∅, 0⟩

def key (buffer : HandleBuffer) : Key := ⟨buffer.parent, buffer.name⟩

def pending (buffer : HandleBuffer) : Bool :=
  !buffer.dirtyBlocks.isEmpty || decide (0 < buffer.maxSize)

/-- One round of the loop of `write`. A block that is not dirty yet starts
empty. -/
def writeChunk (offset : Nat) (data : List UInt8) (buffer : HandleBuffer)
    (blockNo : Int) : Option HandleBuffer := do
  let (blockOffset, chunk) ← chunkAt offset data blockNo
  let blockData := (buffer.dirtyBlocks.lookup blockNo).getD []
  return { buffer with
    dirtyBlocks := buffer.dirtyBlocks.insert blockNo
      (Vec.patch blockData blockOffset chunk 0) }

/-- `write`. -/
def write (buffer : HandleBuffer) (offset : Nat) (data : List UInt8) :
    Option HandleBuffer :=
  if data.isEmpty then
    some buffer
  else do
    let stop ← checkedAdd offset data.length
    let startBlock := asI32 (offset / blockSize)
    let endBlock := asI32 ((stop - 1) / blockSize)
    (rangeInclusive startBlock endBlock).foldlM (writeChunk offset data)
      { buffer with maxSize := max buffer.maxSize stop }

end HandleBuffer

end Pgfs
