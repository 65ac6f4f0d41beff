import Pgfs.Foundation.Effect
import Pgfs.Db.Schema

namespace Pgfs

open MachineInt

/-! A database handle: the primary's tables, the optional standby, and the
outside world that every statement meets. -/

/-- What the outside world decides at one statement or clock reading: whether
the primary fails the statement, the clocks, the write-ahead-log positions, what
the standby answers, and the iteration order of hash maps. -/
structure Moment where
  fails : Bool := false
  now : Nat := 0
  monoMillis : Nat := 0
  walLsn : Int := 0
  replicaFails : Bool := false
  inRecovery : Bool := true
  replayLsn : Option Int := none
  standby : Tables := .empty
  blockOrder : Table.Order Int (List UInt8) := .ascending Int (List UInt8)
  pathOrder : Table.Order Str Nat := .ascending Str Nat

/-- `Db`: the primary connection with the tables behind it, whether a replica
is configured, and the cached freshness verdict. Statement number `cursor` is
executed at the moment `world cursor`. -/
structure Db where
  tables : Tables
  replica : Bool
  freshnessCached : Bool
  freshnessCheckedAt : Option Nat
  world : Nat → Moment
  cursor : Nat

/-- `DbPool::get`: a connection to existing tables. -/
def Db.connect (tables : Tables) (replica : Bool) (world : Nat → Moment) : Db :=
  ⟨tables, replica, false, none, world, 0⟩

abbrev DbM := Effect Db DbError

namespace Db

def moment (db : Db) : Moment := db.world db.cursor

def advance (db : Db) : Db := { db with cursor := db.cursor + 1 }

def advanceBy (db : Db) (count : Nat) : Db := { db with cursor := db.cursor + count }

def setTables (db : Db) (tables : Tables) : Db := { db with tables := tables }

@[simp] theorem advance_tables (db : Db) : db.advance.tables = db.tables := rfl

@[simp] theorem advance_world (db : Db) : db.advance.world = db.world := rfl

@[simp] theorem advance_replica (db : Db) : db.advance.replica = db.replica := rfl

@[simp] theorem setTables_tables (db : Db) (tables : Tables) :
    (db.setTables tables).tables = tables := rfl

@[simp] theorem setTables_world (db : Db) (tables : Tables) :
    (db.setTables tables).world = db.world := rfl

@[simp] theorem setTables_replica (db : Db) (tables : Tables) :
    (db.setTables tables).replica = db.replica := rfl

/-! ## Statements on the primary -/

/-- Execute a statement on the primary. It fails when the world says so or when
it violates a primary key, and then changes nothing. -/
def execute (what : Message) (statement : Moment → Tables → Option (Value × Tables)) :
    DbM Value := fun db =>
  if db.moment.fails then
    some (.error (.ctx what), db.advance)
  else
    match statement db.moment db.tables with
    | none => some (.error (.ctx what), db.advance)
    | some (value, tables) => some (.ok value, db.advance.setTables tables)

def query (what : Message) (read : Tables → Value) : DbM Value :=
  execute what fun _ tables => some (read tables, tables)

def update (what : Message) (change : Moment → Tables → Tables) : DbM Unit :=
  execute what fun moment tables => some ((), change moment tables)

/-- A transaction: a failure inside it or of its commit drops it, and the
tables are as they were. -/
def transaction (start finish : Message) (body : DbM Value) : DbM Value := do
  query start fun _ => ()
  Effect.restoringOnFailure (fun before after => after.setTables before.tables) do
    let value ← body
    query finish fun _ => ()
    return value

def ofExcept : Except DbError Value → DbM Value
  | .ok value => pure value
  | .error failure => Effect.raise failure

/-! ## Attributes and listings -/

/-- `getattr_primary`. -/
def getattrPrimary (parent name : Str) : DbM (Option FileMeta) := do
  let row ← query ⟨"get attributes of entry _ in _", [name, parent]⟩
    fun tables => tables.entries.lookup ⟨parent, name⟩
  match row with
  | none => return none
  | some row => return some (← ofExcept (rowToMeta name row))

def rowsToMeta : List (Str × EntryRow) → Except DbError (List FileMeta)
  | [] => .ok []
  | (name, row) :: rest => do
      let fileMeta ← rowToMeta name row
      return fileMeta :: (← rowsToMeta rest)

/-- `list_primary`. -/
def listPrimary (parent : Str) : DbM (List FileMeta) := do
  let rows ← query ⟨"list children of directory _", [parent]⟩
    fun tables => tables.children parent
  ofExcept (rowsToMeta rows)

/-! ## The standby -/

/-- Ask the standby; `none` when the query fails. -/
def askReplica (answer : Moment → Value) : DbM (Option Value) := fun db =>
  some (.ok (if db.moment.replicaFails then none else some (answer db.moment)),
    db.advance)

/-- `now_mono_millis`. -/
def nowMonoMillis : DbM Nat := fun db => some (.ok db.moment.monoMillis, db.advance)

/-- `pg_current_wal_lsn` of the primary; `none` when the query fails. -/
def primaryLsn : DbM (Option Int) := fun db =>
  some (.ok (if db.moment.fails then none else some db.moment.walLsn), db.advance)

/-- `replica_fresh`. -/
def replicaFresh : DbM Bool := do
  if !(← Effect.get).replica then
    return false
  else
    match ← askReplica (·.inRecovery) with
    | some false => return true
    | none => return false
    | some true =>
        let primaryLsn ← primaryLsn
        let replayLsn ← askReplica (·.replayLsn)
        match primaryLsn, replayLsn with
        | some primary, some (some replayed) => return decide (primary ≤ replayed)
        | _, _ => return false

def freshnessTtlMs : Nat := 500

/-- `replica_fresh_cached`. -/
def replicaFreshCached : DbM Bool := do
  let now ← nowMonoMillis
  let db ← Effect.get
  let reuse := match db.freshnessCheckedAt with
    | some lastCheck => decide (now - lastCheck < freshnessTtlMs)
    | none => false
  if reuse then
    return db.freshnessCached
  else
    let fresh ← replicaFresh
    Effect.modify fun db =>
      { db with freshnessCached := fresh, freshnessCheckedAt := some now }
    return fresh

/-- `replica_state`, whose text is only logged. -/
def replicaState : DbM Unit := do
  if !(← Effect.get).replica then
    return ()
  else
    let _ ← replicaFreshCached
    return ()

def replicaServes : DbM Bool := do
  if (← Effect.get).replica then
    replicaFreshCached
  else
    return false

def queryReplica (what : Message) (read : Tables → Value) : DbM Value := do
  match ← askReplica (·.standby) with
  | none => Effect.raise (.ctx what)
  | some standby => return read standby

/-- `list`. -/
def list (parent : Str) : DbM (List FileMeta) := do
  if ← replicaServes then
    let rows ← queryReplica ⟨"list children of directory _", [parent]⟩
      fun tables => tables.children parent
    ofExcept (rowsToMeta rows)
  else
    listPrimary parent

/-- `getattr`. -/
def getattr (parent name : Str) : DbM (Option FileMeta) := do
  if ← replicaServes then
    let row ← queryReplica ⟨"get attributes of entry _ in _", [name, parent]⟩
      fun tables => tables.entries.lookup ⟨parent, name⟩
    match row with
    | none => return none
    | some row => return some (← ofExcept (rowToMeta name row))
  else
    getattrPrimary parent name

end Db

end Pgfs
