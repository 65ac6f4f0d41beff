import Pgfs.Foundation.Trace
import Pgfs.Db.BlockStorage
import Pgfs.Db.Namespace

namespace Pgfs

/-! The method calls that one database handle serves, one after another. -/

/-- A call of a method of `Db` with its arguments. -/
inductive Call
  | create (parent name : Str)
  | mkdir (parent name : Str)
  | unlink (parent name : Str)
  | rmdir (parent name : Str)
  | rename (oldParent oldName newParent newName : Str)
  | truncate (parent name : Str) (newSize : Nat)
  | writeRange (parent name : Str) (offset : Nat) (data : List UInt8)
  | writeBlocksBatch (parent name : Str) (blocks : Table Int (List UInt8))
      (newSize : Nat)
  | getattrPrimary (parent name : Str)
  | listPrimary (parent : Str)
  | readRange (parent name : Str) (offset length : Nat)
  | getattr (parent name : Str)
  | list (parent : Str)
  | replicaState

inductive Answer
  | done
  | removed (deleted : Bool)
  | attributes (found : Option FileMeta)
  | children (listed : List FileMeta)
  | contents (bytes : Option (List UInt8))
  deriving DecidableEq

structure Served where
  call : Call
  outcome : Except DbError Answer

namespace Call

def serve : Call → DbM Answer
  | .create parent name => do
      Db.create parent name
      return .done
  | .mkdir parent name => do
      Db.mkdir parent name
      return .done
  | .unlink parent name => do
      Db.unlink parent name
      return .done
  | .rmdir parent name => do
      let deleted ← Db.rmdir parent name
      return .removed deleted
  | .rename oldParent oldName newParent newName => do
      Db.rename oldParent oldName newParent newName
      return .done
  | .truncate parent name newSize => do
      Db.truncate parent name newSize
      return .done
  | .writeRange parent name offset data => do
      Db.writeRange parent name offset data
      return .done
  | .writeBlocksBatch parent name blocks newSize => do
      Db.writeBlocksBatch parent name blocks newSize
      return .done
  | .getattrPrimary parent name => do
      let found ← Db.getattrPrimary parent name
      return .attributes found
  | .listPrimary parent => do
      let listed ← Db.listPrimary parent
      return .children listed
  | .readRange parent name offset length => do
      let bytes ← Db.readRange parent name offset length
      return .contents bytes
  | .getattr parent name => do
      let found ← Db.getattr parent name
      return .attributes found
  | .list parent => do
      let listed ← Db.list parent
      return .children listed
  | .replicaState => do
      Db.replicaState
      return .done

def mutates : Call → Bool
  | .create .. | .mkdir .. | .unlink .. | .rmdir .. | .rename .. | .truncate ..
  | .writeRange .. | .writeBlocksBatch .. => true
  | _ => false

def mayUseReplica : Call → Bool
  | .getattr .. | .list .. | .replicaState => true
  | _ => false

end Call

def Db.Step (before : Db) (served : Served) (after : Db) : Prop :=
  served.call.serve before = some (served.outcome, after)

end Pgfs
