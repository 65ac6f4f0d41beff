import Pgfs.Db.Failures
import Pgfs.Replica.Routing

namespace Pgfs

open Effect

/-! The counters of reads that the standby served and of reads that fell back to the
primary. The first fallback of every export period is logged at WARN, the others at
DEBUG. -/

inductive FallbackLine
  | warn
  | debug
  deriving DecidableEq

/-- A database handle with `REPLICA_READ_COUNT`, `REPLICA_FALLBACK_COUNT`,
`REPLICA_FALLBACK_WARNED` and the lines logged so far. -/
structure Counted where
  db : Db
  replicaReadCount : Nat
  replicaFallbackCount : Nat
  replicaFallbackWarned : Bool
  lines : List FallbackLine

abbrev CountedM := Effect Counted DbError

namespace Counted

def start (db : Db) : Counted := ⟨db, 0, 0, false, []⟩

def setDb (counted : Counted) (db : Db) : Counted := { counted with db := db }

def onDb (body : DbM Value) : CountedM Value := Effect.within Counted.db Counted.setDb body

def countRead (counted : Counted) : Counted :=
  { counted with replicaReadCount := (counted.replicaReadCount + 1) % 2 ^ 64 }

/-- `record_replica_fallback_if_configured`. -/
def recordReplicaFallbackIfConfigured (counted : Counted) : Counted :=
  if counted.db.replica then
    { counted with
      replicaFallbackCount := (counted.replicaFallbackCount + 1) % 2 ^ 64
      replicaFallbackWarned := true
      lines := counted.lines ++ [if counted.replicaFallbackWarned then .debug else .warn] }
  else
    counted

/-- `list`. -/
def list (parent : Str) : CountedM (List FileMeta) := do
  if ← onDb Db.replicaServes then
    Effect.modify countRead
    onDb do
      let rows ← Db.queryReplica ⟨"list children of directory _", [parent]⟩
        fun tables => tables.children parent
      Db.ofExcept (Db.rowsToMeta rows)
  else
    Effect.modify recordReplicaFallbackIfConfigured
    onDb (Db.listPrimary parent)

/-- `getattr`. -/
def getattr (parent name : Str) : CountedM (Option FileMeta) := do
  if ← onDb Db.replicaServes then
    Effect.modify countRead
    onDb do
      let row ← Db.queryReplica ⟨"get attributes of entry _ in _", [name, parent]⟩
        fun tables => tables.entries.lookup ⟨parent, name⟩
      match row with
      | none => return none
      | some row => return some (← Db.ofExcept (rowToMeta name row))
  else
    Effect.modify recordReplicaFallbackIfConfigured
    onDb (Db.getattrPrimary parent name)

/-- `read_range`. -/
def readRange (parent name : Str) (offset length : Nat) :
    CountedM (Option (List UInt8)) := do
  Effect.modify recordReplicaFallbackIfConfigured
  onDb (Db.readRangePrimary parent name offset length)

def serve : Call → CountedM Answer
  | .getattr parent name => do
      let found ← getattr parent name
      return .attributes found
  | .list parent => do
      let listed ← list parent
      return .children listed
  | .readRange parent name offset length => do
      let bytes ← readRange parent name offset length
      return .contents bytes
  | call => onDb call.serve

end Counted

/-- A call with its outcome and the line it logged, or an export of the metrics, which
arms the warning again. -/
inductive Counting
  | call (served : Served) (line : Option FallbackLine)
  | exported

namespace Counting

def served : Counting → Option Served
  | .call served _ => some served
  | .exported => none

def fellBack : Counting → Bool
  | .call _ line => line.isSome
  | .exported => false

def isExport : Counting → Bool
  | .exported => true
  | .call _ _ => false

def FallbackSinceExport (history : List Counting) : Prop :=
  OpenSince (fun counting => counting.fellBack = true)
    (fun counting => counting.isExport = true) history

def fromStandby : Counting → Bool
  | .call ⟨.getattr .., _⟩ line | .call ⟨.list .., _⟩ line => line.isNone
  | _ => false

end Counting

namespace Counted

def Step (before : Counted) (counting : Counting) (after : Counted) : Prop :=
  match counting with
  | .call served line => serve served.call before = some (served.outcome, after) ∧
      after.lines = before.lines ++ line.toList
  | .exported => after = { before with replicaFallbackWarned := false }

end Counted

/-! ## Counting a call -/

namespace Db

def standbyServes (db : Db) : Call → Bool
  | .getattr .. | .list .. => db.route.1
  | _ => false

def fallsBack (db : Db) : Call → Bool
  | .getattr .. | .list .. => !db.route.1
  | .readRange .. => true
  | _ => false

theorem fallsBack_of_standbyServes {db : Db} {call : Call} (serves : db.standbyServes call = true) :
    db.fallsBack call = false := by
  cases call with
  | getattr parent name => exact congrArg (! ·) serves
  | list parent => exact congrArg (! ·) serves
  | _ => cases serves

end Db

namespace Counted

def tally (call : Call) (counted : Counted) : Counted :=
  if counted.db.standbyServes call then
    counted.countRead
  else if counted.db.fallsBack call then
    counted.recordReplicaFallbackIfConfigured
  else
    counted

variable (counted : Counted)

private theorem onDb_apply (body : DbM Value) :
    onDb body counted = (body counted.db).map fun outcome =>
      (outcome.1, counted.setDb outcome.2) := rfl

private theorem recordReplicaFallback_setDb (db : Db) (same : db.replica = counted.db.replica) :
    (counted.setDb db).recordReplicaFallbackIfConfigured =
      counted.recordReplicaFallbackIfConfigured.setDb db := by
  unfold recordReplicaFallbackIfConfigured
  rw [show (counted.setDb db).db.replica = counted.db.replica from same]
  split <;> rfl

private theorem routed_apply (fromStandby fromPrimary : DbM Value) :
    (do
      if ← onDb Db.replicaServes then
        Effect.modify countRead
        onDb fromStandby
      else
        Effect.modify recordReplicaFallbackIfConfigured
        onDb fromPrimary : CountedM Value) counted =
      ((do
        if ← Db.replicaServes then
          fromStandby
        else
          fromPrimary : DbM Value) counted.db).map fun outcome =>
        (outcome.1, (if counted.db.route.1 then counted.countRead
          else counted.recordReplicaFallbackIfConfigured).setDb outcome.2) := by
  have routed : onDb Db.replicaServes counted =
      some (.ok counted.db.route.1, counted.setDb counted.db.route.2) := by
    rw [onDb_apply, Db.replicaServes_apply]
    rfl
  rw [bind_of_ok routed, bind_of_ok (Db.replicaServes_apply counted.db)]
  cases counted.db.route.1 with
  | true => rfl
  | false =>
      have recorded := counted.recordReplicaFallback_setDb counted.db.route.2
        (Db.route_sameWorld counted.db).2
      show onDb fromPrimary (counted.setDb counted.db.route.2).recordReplicaFallbackIfConfigured =
        _
      rw [recorded]
      rfl

private theorem convert_apply {body : CountedM Value} {plain : DbM Value} {after : Counted}
    (convert : Value → Answer)
    (counts : body counted = (plain counted.db).map fun outcome =>
      (outcome.1, after.setDb outcome.2)) :
    (body >>= fun value => pure (convert value)) counted =
      ((plain >>= fun value => pure (convert value)) counted.db).map fun outcome =>
        (outcome.1, after.setDb outcome.2) := by
  rw [bind_apply, bind_apply, counts]
  rcases plain counted.db with _ | ⟨_ | _, _⟩ <;> rfl

theorem serve_apply (call : Call) :
    serve call counted = (call.serve counted.db).map fun outcome =>
      (outcome.1, (counted.tally call).setDb outcome.2) := by
  have routes : ∀ call : Call, counted.db.standbyServes call = counted.db.route.1 →
      counted.db.fallsBack call = !counted.db.route.1 →
      counted.tally call = if counted.db.route.1 then counted.countRead
        else counted.recordReplicaFallbackIfConfigured := by
    intro call serves falls
    unfold tally
    rw [serves, falls]
    cases counted.db.route.1 <;> rfl
  cases call with
  | getattr parent name =>
      rw [routes _ rfl rfl]
      exact convert_apply counted .attributes (routed_apply counted _ _)
  | list parent =>
      rw [routes _ rfl rfl]
      exact convert_apply counted .children (routed_apply counted _ _)
  | readRange parent name offset length =>
      apply convert_apply counted .contents
      show onDb _ counted.recordReplicaFallbackIfConfigured = _
      rw [onDb_apply]
      have same : counted.recordReplicaFallbackIfConfigured.db = counted.db := by
        unfold recordReplicaFallbackIfConfigured
        split <;> rfl
      rw [same]
      rfl
  | _ => rfl

def lineOf (call : Call) (counted : Counted) : Option FallbackLine :=
  if counted.db.fallsBack call && counted.db.replica then
    some (if counted.replicaFallbackWarned then .debug else .warn)
  else
    none

variable {counted} {before after : Counted}

theorem tally_eq (call : Call) (configured : counted.db.replica = true) :
    counted.tally call =
      { counted with
        replicaReadCount := if counted.db.standbyServes call then
          (counted.replicaReadCount + 1) % 2 ^ 64 else counted.replicaReadCount
        replicaFallbackCount := if counted.db.fallsBack call then
          (counted.replicaFallbackCount + 1) % 2 ^ 64 else counted.replicaFallbackCount
        replicaFallbackWarned := counted.db.fallsBack call || counted.replicaFallbackWarned
        lines := counted.lines ++ (counted.lineOf call).toList } := by
  unfold tally lineOf
  cases serves : counted.db.standbyServes call with
  | true => simp [countRead, Db.fallsBack_of_standbyServes serves]
  | false =>
      cases counted.db.fallsBack call with
      | true => simp [recordReplicaFallbackIfConfigured, configured]
      | false => simp

theorem Step.counts {served : Served} {line : Option FallbackLine}
    (step : Step before (.call served line) after) (configured : before.db.replica = true) :
    line = before.lineOf served.call ∧ ∃ db, Db.Step before.db served db ∧
      after = (before.tally served.call).setDb db := by
  rcases step with ⟨run, logged⟩
  rw [serve_apply] at run
  rcases Option.map_eq_some_iff.mp run with ⟨⟨outcome, db⟩, plain, ended⟩
  rw [Prod.mk.injEq] at ended
  rcases ended with ⟨rfl, rfl⟩
  refine ⟨?_, db, plain, rfl⟩
  have lines : (before.tally served.call).lines =
      before.lines ++ (before.lineOf served.call).toList := by
    rw [tally_eq _ configured]
  have same := List.append_cancel_left (logged.symm.trans lines)
  have heads := congrArg List.head? same
  rwa [Option.head?_toList, Option.head?_toList] at heads

theorem fellBack_lineOf (served : Served) (configured : before.db.replica = true) :
    (Counting.call served (before.lineOf served.call)).fellBack =
      before.db.fallsBack served.call := by
  unfold Counting.fellBack lineOf
  rw [configured, Bool.and_true]
  cases before.db.fallsBack served.call <;> rfl

theorem fromStandby_lineOf (served : Served) (configured : before.db.replica = true) :
    (Counting.call served (before.lineOf served.call)).fromStandby =
      before.db.standbyServes served.call := by
  rcases served with ⟨call, outcome⟩
  cases call with
  | getattr parent name =>
      unfold lineOf Counting.fromStandby Db.fallsBack Db.standbyServes
      rw [configured]
      cases before.db.route.1 <;> rfl
  | list parent =>
      unfold lineOf Counting.fromStandby Db.fallsBack Db.standbyServes
      rw [configured]
      cases before.db.route.1 <;> rfl
  | _ => rfl

/-! ## Runs -/

structure Tallies (history : List Counting) (counted : Counted) : Prop where
  configured : counted.db.replica = true
  reads : counted.replicaReadCount = history.countP Counting.fromStandby % 2 ^ 64
  fallbacks : counted.replicaFallbackCount = history.countP Counting.fellBack % 2 ^ 64
  warned : counted.replicaFallbackWarned = true ↔ Counting.FallbackSinceExport history

private theorem countP_snoc (counts : Counting → Bool) (history : List Counting)
    (counting : Counting) (modulus : Nat) :
    (history ++ [counting]).countP counts % modulus =
      if counts counting then (history.countP counts % modulus + 1) % modulus
      else history.countP counts % modulus := by
  rw [List.countP_append, List.countP_singleton]
  split
  · rw [Nat.mod_add_mod]
  · rfl

private theorem Tallies.call {history : List Counting} (tallies : Tallies history before)
    (served : Served) {db : Db} (same : db.replica = before.db.replica) :
    Tallies (history ++ [.call served (before.lineOf served.call)])
      ((before.tally served.call).setDb db) := by
  have standby := fromStandby_lineOf served tallies.configured
  have falls := fellBack_lineOf served tallies.configured
  have stays : (Counting.call served (before.lineOf served.call)).isExport = false := rfl
  rw [tally_eq _ tallies.configured]
  refine ⟨same.trans tallies.configured, ?_, ?_, ?_⟩
  · rw [countP_snoc, standby, ← tallies.reads]
    rfl
  · rw [countP_snoc, falls, ← tallies.fallbacks]
    rfl
  · rw [Counting.FallbackSinceExport, openSince_snoc, falls, stays]
    have warned := tallies.warned
    unfold Counting.FallbackSinceExport at warned
    simp [setDb, warned]

private theorem Tallies.exported {history : List Counting} (tallies : Tallies history before) :
    Tallies (history ++ [.exported]) { before with replicaFallbackWarned := false } := by
  refine ⟨tallies.configured, ?_, ?_, ?_⟩
  · rw [countP_snoc, ← tallies.reads]
    rfl
  · rw [countP_snoc, ← tallies.fallbacks]
    rfl
  · rw [Counting.FallbackSinceExport, openSince_snoc]
    simp [Counting.fellBack, Counting.isExport]

theorem tallies_of_run {db : Db} {history : List Counting} {counted : Counted}
    (configured : db.replica = true) (run : Trace Step (start db) history counted) :
    Tallies history counted ∧
      Trace Db.Step db (history.filterMap Counting.served) counted.db := by
  induction run with
  | nil =>
      have closed : ¬Counting.FallbackSinceExport [] := not_openSince_nil _ _
      exact ⟨⟨configured, rfl, rfl, iff_of_false Bool.false_ne_true closed⟩, .nil⟩
  | snoc earlier step induction =>
      rename_i moves middle counting finish
      rcases induction with ⟨tallies, calls⟩
      rw [List.filterMap_append]
      cases counting with
      | call served line =>
          rcases Step.counts step tallies.configured with ⟨rfl, after, plain, rfl⟩
          exact ⟨tallies.call served (Call.serve_sameWorld plain).2, .snoc calls plain⟩
      | exported =>
          rw [show finish = { middle with replicaFallbackWarned := false } from step]
          refine ⟨tallies.exported, ?_⟩
          rw [show [Counting.exported].filterMap Counting.served = [] from rfl, List.append_nil]
          exact calls

/-- With a replica, over every run of calls and metric exports: the calls do what they
do without counting; a call falls back and logs exactly when it is a read of contents,
or one of attributes or of a directory that is not routed to the standby; the two
counters are the numbers, modulo their width, of reads that the standby served and of
fallbacks; and a fallback is logged at WARN exactly when it is the first one since the
last export. -/
theorem fallbacks_are_counted_and_warned {db : Db} {history : List Counting} {counted : Counted}
    (configured : db.replica = true) (run : Trace Step (start db) history counted) :
    Trace Db.Step db (history.filterMap Counting.served) counted.db ∧
    counted.replicaReadCount = history.countP Counting.fromStandby % 2 ^ 64 ∧
    counted.replicaFallbackCount = history.countP Counting.fellBack % 2 ^ 64 ∧
    ∀ earlier served line later, history = earlier ++ .call served line :: later →
      (∃ before, Trace Db.Step db (earlier.filterMap Counting.served) before ∧
        line.isSome = before.fallsBack served.call) ∧
      ∀ level, line = some level → (level = .warn ↔
        ¬Counting.FallbackSinceExport earlier) := by
  have finished := tallies_of_run configured run
  refine ⟨finished.2, finished.1.reads, finished.1.fallbacks, ?_⟩
  intro earlier served line later whole
  rw [whole] at run
  rcases run.split with ⟨before, after, start, step⟩
  rcases tallies_of_run configured start with ⟨tallies, calls⟩
  rcases Step.counts step tallies.configured with ⟨rfl, _⟩
  refine ⟨⟨before.db, calls, fellBack_lineOf served tallies.configured⟩, ?_⟩
  intro level logged
  rw [← tallies.warned]
  unfold lineOf at logged
  split at logged
  · rw [Option.some.injEq] at logged
    rw [← logged]
    cases before.replicaFallbackWarned <;> simp
  · cases logged

/-- Three reads of contents, with an export before the third: two of them warn. The
standby serves the attributes in between, which is counted and not logged. -/
theorem fallbacks_are_counted_and_warned_export :
    ∃ (contents attributes : Served) (counted : Counted),
      Trace Step (start (.connect .empty true fun _ => { replayLsn := some 0 }))
        ([.call contents (some .warn), .call attributes none,
          .call contents (some .debug), .exported] ++
          .call contents (some .warn) :: []) counted ∧
      counted.replicaReadCount = 1 ∧ counted.replicaFallbackCount = 3 ∧
      ¬Counting.FallbackSinceExport
        [.call contents (some .warn), .call attributes none,
          .call contents (some .debug), .exported] := by
  let contents : Served := ⟨.readRange [] ['a'] 0 1, .ok (.contents none)⟩
  let attributes : Served := ⟨.getattr [] ['a'], .ok (.attributes none)⟩
  have run : Trace Step (start (.connect .empty true fun _ => { replayLsn := some 0 }))
      ([] ++ [.call contents (some .warn)] ++ [.call attributes none] ++
        [.call contents (some .debug)] ++ [.exported] ++ [.call contents (some .warn)]) _ :=
    .snoc (.snoc (.snoc (.snoc (.snoc .nil ⟨rfl, rfl⟩) ⟨rfl, rfl⟩) ⟨rfl, rfl⟩) rfl) ⟨rfl, rfl⟩
  have counts := fallbacks_are_counted_and_warned rfl run
  exact ⟨contents, attributes, _, run, counts.2.1, counts.2.2.1,
    ((counts.2.2.2 _ contents _ [] rfl).2 .warn rfl).mp rfl⟩

end Counted

end Pgfs
