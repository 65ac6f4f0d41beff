import Pgfs.Db.Connection

namespace Pgfs.Db

/-! Creating, removing and renaming entries. -/

/-- `create`. -/
def create (parent name : Str) : DbM Unit :=
  update ⟨"create file _ in _", [name, parent]⟩ fun moment tables =>
    tables.insertEntry ⟨parent, name⟩ .file moment.now

/-- `mkdir`. -/
def mkdir (parent name : Str) : DbM Unit :=
  update ⟨"create directory _ in _", [name, parent]⟩ fun moment tables =>
    tables.insertEntry ⟨parent, name⟩ .dir moment.now

/-- `unlink`: two statements, each committed on its own. -/
def unlink (parent name : Str) : DbM Unit := do
  update ⟨"remove file _ from _", [name, parent]⟩ fun _ tables =>
    (tables.deleteEntry ⟨parent, name⟩).2
  update ⟨"remove blocks of file _ from _", [name, parent]⟩ fun _ tables =>
    tables.deleteBlocks ⟨parent, name⟩

/-- Remove an existing target inside `rename`. -/
def replaceTarget (newParent newName newPath : Str) : DbM Unit := do
  let target ← query ⟨"check target existence for rename to _", [newPath]⟩
    fun tables => tables.entries.lookup ⟨newParent, newName⟩
  match target with
  | none => return ()
  | some row =>
      if row.kind = .dir then
        let occupied ← query
          ⟨"check whether target directory _ is empty", [newPath]⟩
          fun tables => tables.hasChildren newPath
        if occupied then
          Effect.raise (.failure ⟨"rename target directory _ is not empty", [newPath]⟩)
      update ⟨"remove target _ before overwrite", [newPath]⟩ fun _ tables =>
        (tables.deleteEntry ⟨newParent, newName⟩).2
      update ⟨"remove target blocks for _ before overwrite", [newPath]⟩ fun _ tables =>
        tables.deleteBlocks ⟨newParent, newName⟩

/-- Rewrite the parents of all descendants inside `rename`. -/
def cascade (oldPath newPath : Str) : DbM Unit := do
  execute ⟨"rewrite descendant parent paths for directory _", [oldPath]⟩
    fun _ tables => (tables.cascadeEntries oldPath newPath).map fun tables => ((), tables)
  execute ⟨"rewrite descendant block parent paths for directory _", [oldPath]⟩
    fun _ tables => (tables.cascadeBlocks oldPath newPath).map fun tables => ((), tables)

/-- `rename`. -/
def rename (oldParent oldName newParent newName : Str) : DbM Unit := do
  let oldPath := join oldParent oldName
  let newPath := join newParent newName
  if oldParent = newParent ∧ oldName = newName then
    return ()
  else
    match ← getattrPrimary oldParent oldName with
    | none => Effect.raise (.failure ⟨"rename source _ does not exist", [oldPath]⟩)
    | some fileMeta =>
        transaction ⟨"begin rename of _ -> _", [oldPath, newPath]⟩
          ⟨"commit rename of _ -> _", [oldPath, newPath]⟩ do
            replaceTarget newParent newName newPath
            if fileMeta.kind = .dir then
              cascade oldPath newPath
            let moved ← execute ⟨"move entry _ -> _", [oldPath, newPath]⟩
              fun moment tables =>
                tables.moveEntry ⟨oldParent, oldName⟩ ⟨newParent, newName⟩ moment.now
            execute ⟨"move blocks _ -> _", [oldPath, newPath]⟩ fun _ tables =>
              (tables.moveBlocks ⟨oldParent, oldName⟩ ⟨newParent, newName⟩).map
                fun tables => ((), tables)
            if moved = 0 then
              Effect.raise (.failure ⟨"rename of _ updated zero rows", [oldPath]⟩)

/-- `rmdir`: whether an empty directory was removed. -/
def rmdir (parent name : Str) : DbM Bool := do
  let path := join parent name
  let occupied ← query ⟨"check whether _ in _ is empty", [name, parent]⟩
    fun tables => tables.hasChildren path
  if occupied then
    return false
  else
    let deleted ← execute ⟨"remove directory _ from _", [name, parent]⟩
      fun _ tables => some (tables.deleteEntry ⟨parent, name⟩)
    return decide (0 < deleted)

end Pgfs.Db
