import Pgfs.Foundation.ReadCommitted
import Pgfs.Db.Reading

namespace Pgfs

open MachineInt ReadCommitted

/-! Connections of one pool share the tables of the primary. Here `write_range` is
the sequence of statements that it sends; alone on its connection, it is the
method of `Db`. -/

inductive TableRow
  | entry (key : Key)
  | block (row : BlockKey)
  deriving DecidableEq, Repr

@[reducible] def TableRow.Cell : TableRow → Type
  | .entry _ => Option EntryRow
  | .block _ => Option (List UInt8)

namespace Tables

def cell (tables : Tables) : (row : TableRow) → row.Cell
  | .entry key => tables.entries.lookup key
  | .block row => tables.blocks.lookup row

def setCell (tables : Tables) : (row : TableRow) → row.Cell → Tables
  | .entry key, none => { tables with entries := tables.entries.erase key }
  | .entry key, some row => { tables with entries := tables.entries.insert key row }
  | .block row, none => { tables with blocks := tables.blocks.erase row }
  | .block row, some data => { tables with blocks := tables.blocks.insert row data }

theorem cell_setCell (tables : Tables) (row : TableRow) (cell : row.Cell) :
    (tables.setCell row cell).cell = Function.update tables.cell row cell := by
  funext other
  by_cases same : other = row
  · subst same
    rw [Function.update_self]
    cases other with
    | entry key =>
        cases cell with
        | none => exact Finmap.lookup_erase _ _
        | some row => exact Finmap.lookup_insert _
    | block row =>
        cases cell with
        | none => exact Finmap.lookup_erase _ _
        | some data => exact Finmap.lookup_insert _
  · rw [Function.update_of_ne same]
    cases row with
    | entry key =>
        cases other with
        | entry otherKey =>
            have different : otherKey ≠ key := fun equal => same (congrArg _ equal)
            cases cell with
            | none => exact Finmap.lookup_erase_ne different
            | some row => exact Finmap.lookup_insert_of_ne _ different
        | block _ => cases cell <;> rfl
    | block row =>
        cases other with
        | entry _ => cases cell <;> rfl
        | block otherRow =>
            have different : otherRow ≠ row := fun equal => same (congrArg _ equal)
            cases cell with
            | none => exact Finmap.lookup_erase_ne different
            | some data => exact Finmap.lookup_insert_of_ne _ different

instance : Rows Tables TableRow TableRow.Cell where
  get := cell
  set := setCell
  get_set := cell_setCell

end Tables

abbrev PooledCall (Value : Type) := Statements TableRow TableRow.Cell DbError Value

namespace PooledCall

/-- The loop of `write_range` over the blocks that are left. -/
def storeBlocks (key : Key) (offset : Nat) (data : List UInt8) (last : PooledCall Unit) :
    List Int → PooledCall Unit
  | [] => last
  | blockNo :: rest =>
      match chunkAt offset data blockNo with
      | none => .crash
      | some (blockOffset, chunk) =>
          let store (blockData : List UInt8) : PooledCall Unit :=
            .store (.ctx ⟨"upsert block _ for _ in _", [.ofInt blockNo, key.name, key.parent]⟩)
              (.block ⟨key, blockNo⟩)
              (fun _ _ => some (Vec.patch blockData blockOffset chunk 0))
              (storeBlocks key offset data last rest)
          if 0 < blockOffset ∨ chunk.length < blockSize then
            .read (.ctx ⟨"read block _ inside write_range transaction", [.ofInt blockNo]⟩)
              (.block ⟨key, blockNo⟩) fun (row : Option (List UInt8)) =>
                store (row.getD [])
          else
            store []

/-- The end of the transaction of `write_range`: the size, computed before it
began, and the commit. -/
def storeSize (key : Key) (newSize : Nat) : PooledCall Unit :=
  .store (.ctx ⟨"update size of _ in _", [key.name, key.parent]⟩) (.entry key)
    (fun now (row : Option EntryRow) =>
      row.map fun row => { row with size := asI64 newSize, mtime := now })
    (.commit (.ctx ⟨"commit write_range transaction for _ in _", [key.name, key.parent]⟩) ())

/-- The transaction of `write_range`, once the old size is known. -/
def storeRange (key : Key) (offset : Nat) (data : List UInt8) (stop oldSize : Nat) :
    PooledCall Unit :=
  .start (.ctx ⟨"begin write_range transaction for _ in _", [key.name, key.parent]⟩)
    (storeBlocks key offset data (storeSize key (max oldSize stop))
      (rangeInclusive (asI32 (offset / blockSize)) (asI32 ((stop - 1) / blockSize))))

/-- `write_range`. -/
def writeRange (key : Key) (offset : Nat) (data : List UInt8) : PooledCall Unit :=
  if data.isEmpty then
    .returns (.ok ())
  else
    match checkedAdd offset data.length with
    | none => .crash
    | some stop =>
        .read (.ctx ⟨"get attributes of entry _ in _", [key.name, key.parent]⟩) (.entry key)
          fun (row : Option EntryRow) =>
            match row with
            | none => storeRange key offset data stop 0
            | some row =>
                match rowToMeta key.name row with
                | .error failure => .returns (.error failure)
                | .ok fileMeta => storeRange key offset data stop fileMeta.size

end PooledCall

/-! ## A call that has the tables to itself -/

namespace Db

def alone (saved : Tables) : PooledCall Value → DbM Value
  | .returns outcome => ofExcept outcome
  | .crash => fun _ => none
  | .read failure row next => fun db =>
      if db.moment.fails then
        some (.error failure, db.advance.setTables saved)
      else
        alone saved (next (db.tables.cell row)) db.advance
  | .start failure rest => fun db =>
      if db.moment.fails then
        some (.error failure, db.advance.setTables saved)
      else
        alone saved rest db.advance
  | .store failure row change rest => fun db =>
      if db.moment.fails then
        some (.error failure, db.advance.setTables saved)
      else
        alone saved rest (db.advance.setTables
          (db.tables.setCell row (change db.moment.now (db.tables.cell row))))
  | .commit failure value => fun db =>
      if db.moment.fails then
        some (.error failure, db.advance.setTables saved)
      else
        some (.ok value, db.advance)

private def orRestore (saved : Tables) (outcome : Option (Except DbError Value × Db))
    (next : Value → Db → Option (Except DbError Result × Db)) :
    Option (Except DbError Result × Db) :=
  match outcome with
  | none => none
  | some (.error failure, after) => some (.error failure, after.setTables saved)
  | some (.ok value, after) => next value after

private theorem orRestore_bind (saved : Tables) (body : DbM Value) (rest : Value → DbM Result)
    (db : Db) (next : Result → Db → Option (Except DbError Last × Db)) :
    orRestore saved ((body >>= rest) db) next =
      orRestore saved (body db) fun value after => orRestore saved (rest value after) next := by
  rw [Effect.bind_apply]
  rcases body db with _ | ⟨_ | _, _⟩ <;> rfl

private theorem restoringOnFailure_apply (body : DbM Value) (db : Db) :
    Effect.restoringOnFailure (fun before after => after.setTables before.tables) body db =
      orRestore db.tables (body db) fun value after => some (.ok value, after) := by
  unfold Effect.restoringOnFailure orRestore
  rcases body db with _ | ⟨_ | _, _⟩ <;> rfl

private theorem orRestore_orAbort (saved : Tables) (value : Value) (db : Db)
    (next : Value → Db → Option (Except DbError Result × Db)) :
    orRestore saved (Effect.orAbort (some value) db) next = next value db := rfl

private theorem readBlocks_one (tables : Tables) (key : Key) (blockNo : Int) :
    tables.readBlocks key blockNo blockNo blockNo = tables.cell (.block ⟨key, blockNo⟩) := by
  unfold Tables.readBlocks
  rw [if_pos ⟨Int.le_refl _, Int.le_refl _⟩]
  rfl

private theorem alone_read (saved : Tables) (what : Message) (row : TableRow)
    (next : row.Cell → PooledCall Value) (db : Db) :
    alone saved (.read (.ctx what) row next) db =
      orRestore saved (query what (fun tables => tables.cell row) db) fun cell after =>
        alone saved (next cell) after := by
  conv_lhs => unfold alone
  unfold query execute
  cases db.moment.fails <;> rfl

private theorem alone_start (saved : Tables) (what : Message) (rest : PooledCall Value)
    (db : Db) :
    alone saved (.start (.ctx what) rest) db =
      orRestore saved (query what (fun _ => ()) db) fun _ after => alone saved rest after := by
  conv_lhs => unfold alone
  unfold query execute
  cases db.moment.fails <;> rfl

private theorem alone_store (saved : Tables) (what : Message) (row : TableRow)
    (change : Nat → row.Cell → row.Cell) (rest : PooledCall Value) (db : Db) :
    alone saved (.store (.ctx what) row change rest) db =
      orRestore saved
        (update what (fun moment tables =>
          tables.setCell row (change moment.now (tables.cell row))) db)
        fun _ after => alone saved rest after := by
  conv_lhs => unfold alone
  unfold update execute
  cases db.moment.fails <;> rfl

private theorem alone_commit (saved : Tables) (what : Message) (value : Value) (db : Db) :
    alone saved (.commit (.ctx what) value) db =
      orRestore saved (query what (fun _ => ()) db) fun _ after => some (.ok value, after) := by
  conv_lhs => unfold alone
  unfold query execute
  cases db.moment.fails <;> rfl

private theorem setCell_updateSize (tables : Tables) (key : Key) (size : Int) (now : Nat) :
    tables.setCell (.entry key)
        ((tables.cell (.entry key)).map fun row => { row with size := size, mtime := now }) =
      tables.updateSize key size now := by
  have cell : tables.cell (.entry key) = tables.entries.lookup key := rfl
  unfold Tables.updateSize Table.adjust
  rw [cell]
  cases stored : tables.entries.lookup key with
  | none =>
      have missing : key ∉ tables.entries := Finmap.lookup_eq_none.mp stored
      exact congrArg (Tables.mk · tables.blocks) (Table.erase_of_not_mem missing)
  | some row => rfl

private theorem alone_storeBlocks (saved : Tables) (key : Key) (offset : Nat)
    (data : List UInt8) (last : PooledCall Unit) (blocks : List Int) (db : Db) :
    alone saved (PooledCall.storeBlocks key offset data last blocks) db =
      orRestore saved (blocks.forM (writeBlock key.parent key.name offset data) db)
        fun _ after => alone saved last after := by
  induction blocks generalizing db with
  | nil => rfl
  | cons blockNo rest induction =>
      change _ = orRestore saved
        ((writeBlock key.parent key.name offset data blockNo >>= fun _ =>
          rest.forM (writeBlock key.parent key.name offset data)) db) _
      rw [orRestore_bind, writeBlock, PooledCall.storeBlocks]
      simp only [← induction]
      cases chunkAt offset data blockNo with
      | none => rfl
      | some piece =>
          rw [orRestore_bind, orRestore_orAbort]
          rcases piece with ⟨blockOffset, chunk⟩
          by_cases part : 0 < blockOffset ∨ chunk.length < blockSize
          · simp only [if_pos part, alone_read, alone_store, orRestore_bind,
              Effect.pure_bind, readBlocks_one]
            rfl
          · simp only [if_neg part, alone_store, Effect.pure_bind]
            rfl

private theorem alone_transaction (start finish : Message) (body : PooledCall Unit)
    (work : DbM Unit) (db : Db)
    (same : ∀ after, alone db.tables body after =
      orRestore db.tables (work after) fun _ after =>
        orRestore db.tables (query finish (fun _ => ()) after) fun _ after =>
          some (.ok (), after)) :
    alone db.tables (.start (.ctx start) body) db = transaction start finish work db := by
  rw [alone_start, transaction, Effect.bind_apply, query_apply]
  cases db.moment.fails with
  | true => rfl
  | false =>
      change alone db.tables body db.advance = Effect.restoringOnFailure _ _ db.advance
      rw [same, restoringOnFailure_apply, orRestore_bind]
      simp only [orRestore_bind]
      rfl

private theorem alone_storeRange (parent name : Str) (offset : Nat) (data : List UInt8)
    (stop oldSize : Nat) (db : Db) :
    alone db.tables (PooledCall.storeRange ⟨parent, name⟩ offset data stop oldSize) db =
      transaction ⟨"begin write_range transaction for _ in _", [name, parent]⟩
        ⟨"commit write_range transaction for _ in _", [name, parent]⟩
        (do
          (rangeInclusive (asI32 (offset / blockSize)) (asI32 ((stop - 1) / blockSize))).forM
            (writeBlock parent name offset data)
          update ⟨"update size of _ in _", [name, parent]⟩ fun moment tables =>
            tables.updateSize ⟨parent, name⟩ (asI64 (max oldSize stop)) moment.now) db := by
  apply alone_transaction
  intro after
  rw [alone_storeBlocks, orRestore_bind]
  unfold PooledCall.storeSize
  simp only [alone_store, alone_commit, setCell_updateSize]

private theorem alone_getattr (parent name : Str) (write : Nat → PooledCall Unit)
    (rest : Nat → DbM Unit) (db : Db)
    (same : ∀ oldSize, alone db.tables (write oldSize) db.advance = rest oldSize db.advance) :
    alone db.tables (.read (.ctx ⟨"get attributes of entry _ in _", [name, parent]⟩)
        (.entry ⟨parent, name⟩) fun (row : Option EntryRow) =>
          match row with
          | none => write 0
          | some row =>
              match rowToMeta name row with
              | .error failure => .returns (.error failure)
              | .ok fileMeta => write fileMeta.size) db =
      (getattrPrimary parent name >>= fun fileMeta =>
        rest ((fileMeta.map (·.size)).getD 0)) db := by
  rw [alone_read, Effect.bind_apply, getattrPrimary_apply, query_apply]
  cases db.moment.fails with
  | true => rfl
  | false =>
      have found : db.tables.cell (.entry ⟨parent, name⟩) =
          db.tables.entries.lookup ⟨parent, name⟩ := rfl
      simp only [Bool.false_eq_true, if_false, Tables.attributes, orRestore, found]
      cases db.tables.entries.lookup ⟨parent, name⟩ with
      | none => exact same 0
      | some row =>
          cases converted : rowToMeta name row with
          | error failure =>
              simp only [converted, Except.map]
              rfl
          | ok fileMeta =>
              simp only [converted, Except.map]
              exact same fileMeta.size

/-- A call of `write_range` that has the tables to itself is the method of `Db`, in
every world. -/
theorem alone_writeRange (key : Key) (offset : Nat) (data : List UInt8) (db : Db) :
    alone db.tables (PooledCall.writeRange key offset data) db =
      writeRange key.parent key.name offset data db := by
  rcases key with ⟨parent, name⟩
  change _ = writeRange parent name offset data db
  unfold PooledCall.writeRange writeRange
  by_cases empty : data.isEmpty
  · rw [if_pos empty, if_pos empty]
    rfl
  rw [if_neg empty, if_neg empty]
  cases checkedAdd offset data.length with
  | none => rfl
  | some stop =>
      rw [Effect.bind_of_ok (Effect.orAbort_some _ _)]
      exact alone_getattr parent name (PooledCall.storeRange ⟨parent, name⟩ offset data stop)
        (fun oldSize => transaction
          ⟨"begin write_range transaction for _ in _", [name, parent]⟩
          ⟨"commit write_range transaction for _ in _", [name, parent]⟩ do
            (rangeInclusive (asI32 (offset / blockSize))
              (asI32 ((stop - 1) / blockSize))).forM (writeBlock parent name offset data)
            update ⟨"update size of _ in _", [name, parent]⟩ fun moment tables =>
              tables.updateSize ⟨parent, name⟩ (asI64 (max oldSize stop)) moment.now)
        db fun oldSize => alone_storeRange parent name offset data stop oldSize db.advance

end Db

end Pgfs
