import Mathlib.Logic.Function.Basic
import Mathlib.Logic.Relation
import Mathlib.Tactic.Common

namespace Pgfs.ReadCommitted

/-! Two calls that share a database, each with at most one transaction, at the
isolation level READ COMMITTED. A statement sees what is committed when it runs,
with the changes of its own transaction on top. A row that a transaction has
changed stays locked until the transaction ends; a statement that changes a
locked row waits, and then meets the row as it was committed. -/

/-- A database state seen as rows, each with its own type of cell. -/
class Rows (State : Type) (Row : outParam Type) (Cell : outParam (Row → Type))
    [DecidableEq Row] where
  get : State → (row : Row) → Cell row
  set : State → (row : Row) → Cell row → State
  get_set : ∀ state row cell,
    get (set state row cell) = Function.update (get state) row cell

/-- A call, as the statements that it sends. A statement that fails ends the call
and rolls its transaction back. -/
inductive Statements (Row : Type) (Cell : Row → Type) (Failure Value : Type)
  | returns (outcome : Except Failure Value)
  | crash
  | read (failure : Failure) (row : Row)
      (next : Cell row → Statements Row Cell Failure Value)
  | start (failure : Failure) (rest : Statements Row Cell Failure Value)
  | store (failure : Failure) (row : Row) (change : Nat → Cell row → Cell row)
      (rest : Statements Row Cell Failure Value)
  | commit (failure : Failure) (value : Value)

inductive Party
  | first
  | second
  deriving DecidableEq, Repr

def Party.other : Party → Party
  | .first => .second
  | .second => .first

@[simp] theorem Party.other_other (party : Party) : party.other.other = party := by
  cases party <;> rfl

@[simp] theorem Party.other_ne (party : Party) : party.other ≠ party := by
  cases party <;> decide

@[simp] theorem Party.ne_other (party : Party) : party ≠ party.other := by
  cases party <;> decide

theorem Party.eq_or_eq_other (party chosen : Party) :
    chosen = party ∨ chosen = party.other := by
  cases party <;> cases chosen <;> decide

section

variable {State Row Failure Value : Type} {Cell : Row → Type}

structure Session (Row : Type) (Cell : Row → Type) (Failure Value : Type) where
  statements : Statements Row Cell Failure Value
  writes : List ((row : Row) × Cell row)
  reads : List Row

def Session.locked (session : Session Row Cell Failure Value) : List Row :=
  session.writes.map (·.1)

def Session.opened (call : Statements Row Cell Failure Value) :
    Session Row Cell Failure Value := ⟨call, [], []⟩

def Session.ended (outcome : Except Failure Value) : Session Row Cell Failure Value :=
  ⟨.returns outcome, [], []⟩

/-- The failure that a call ends with when its next statement fails. -/
def Statements.failure : Statements Row Cell Failure Value → Option Failure
  | .returns _ => none
  | .crash => none
  | .read failure _ _ => some failure
  | .start failure _ => some failure
  | .store failure _ _ _ => some failure
  | .commit failure _ => some failure

/-- The committed state and the two sessions. `stale` lists the rows that a party
had read before the other one committed a change to them; nothing depends on
it. -/
structure System (State Row : Type) (Cell : Row → Type) (Failure Value : Type) where
  committed : State
  session : Party → Session Row Cell Failure Value
  stale : Party → List Row

/-- One statement: whose it is, the time, and whether it fails. -/
structure Turn where
  party : Party
  now : Nat
  fails : Bool
  deriving DecidableEq, Repr

def System.put (system : System State Row Cell Failure Value) (party : Party)
    (session : Session Row Cell Failure Value) : System State Row Cell Failure Value :=
  { system with session := Function.update system.session party session }

section

variable (system : System State Row Cell Failure Value)

@[simp] theorem System.put_committed (party : Party)
    (session : Session Row Cell Failure Value) :
    (system.put party session).committed = system.committed := rfl

@[simp] theorem System.put_stale (party : Party)
    (session : Session Row Cell Failure Value) :
    (system.put party session).stale = system.stale := rfl

@[simp] theorem System.put_session (party : Party)
    (session : Session Row Cell Failure Value) :
    (system.put party session).session party = session :=
  Function.update_self _ _ _

@[simp] theorem System.put_session_other (party : Party)
    (session : Session Row Cell Failure Value) :
    (system.put party session).session party.other = system.session party.other :=
  Function.update_of_ne (Party.other_ne party) _ _

end

def Statements.outcome : Statements Row Cell Failure Value → Option (Except Failure Value)
  | .returns outcome => some outcome
  | _ => none

theorem Statements.eq_of_outcome {statements : Statements Row Cell Failure Value}
    {outcome : Except Failure Value} (closed : statements.outcome = some outcome) :
    statements = .returns outcome := by
  cases statements <;> cases closed
  rfl

variable [DecidableEq Row]

def overlaid (base : (row : Row) → Cell row) :
    List ((row : Row) × Cell row) → (row : Row) → Cell row
  | [] => base
  | ⟨row, cell⟩ :: rest => overlaid (Function.update base row cell) rest

variable [Rows State Row Cell]

def applied (state : State) : List ((row : Row) × Cell row) → State
  | [] => state
  | ⟨row, cell⟩ :: rest => applied (Rows.set state row cell) rest

namespace System

variable (system : System State Row Cell Failure Value)

def opened (state : State) (calls : Party → Statements Row Cell Failure Value) :
    System State Row Cell Failure Value :=
  ⟨state, fun party => .opened (calls party), fun _ => []⟩

def seen (party : Party) (row : Row) : Cell row :=
  Rows.get (applied system.committed (system.session party).writes) row

def commit (party : Party) (value : Value) : System State Row Cell Failure Value where
  committed := applied system.committed (system.session party).writes
  session := Function.update system.session party (.ended (.ok value))
  stale := Function.update system.stale party.other
    (system.stale party.other ++ (system.session party.other).reads.filter
      (· ∈ (system.session party).locked))

@[simp] theorem commit_session (party : Party) (value : Value) :
    (system.commit party value).session party = .ended (.ok value) :=
  Function.update_self _ _ _

@[simp] theorem commit_session_other (party : Party) (value : Value) :
    (system.commit party value).session party.other = system.session party.other :=
  Function.update_of_ne (Party.other_ne party) _ _

@[simp] theorem commit_stale (party : Party) (value : Value) :
    (system.commit party value).stale party = system.stale party :=
  Function.update_of_ne (Party.ne_other party) _ _

@[simp] theorem commit_stale_other (party : Party) (value : Value) :
    (system.commit party value).stale party.other = system.stale party.other ++
      (system.session party.other).reads.filter (· ∈ (system.session party).locked) :=
  Function.update_self _ _ _

/-- Execute the next statement of a party. There is none when its call is over,
and it has to wait while the other party has the row locked. -/
def step (turn : Turn) : Option (System State Row Cell Failure Value) :=
  let session := system.session turn.party
  if turn.fails then
    session.statements.failure.map fun failure =>
      system.put turn.party (.ended (.error failure))
  else
    match session.statements with
    | .returns _ => none
    | .crash => none
    | .read _ row next =>
        some (system.put turn.party
          { session with
            statements := next (system.seen turn.party row)
            reads := row :: session.reads })
    | .start _ rest => some (system.put turn.party { session with statements := rest })
    | .store _ row change rest =>
        if row ∈ (system.session turn.party.other).locked then
          none
        else
          some (system.put turn.party
            { session with
              statements := rest
              writes := session.writes ++
                [⟨row, change turn.now (system.seen turn.party row)⟩] })
    | .commit _ value => some (system.commit turn.party value)

end System

def System.run : System State Row Cell Failure Value → List Turn →
    Option (System State Row Cell Failure Value)
  | system, [] => some system
  | system, turn :: rest => (system.step turn).bind fun next => next.run rest

/-! ## Overlaid rows -/

omit [Rows State Row Cell] in
theorem overlaid_append (base : (row : Row) → Cell row)
    (earlier later : List ((row : Row) × Cell row)) :
    overlaid base (earlier ++ later) = overlaid (overlaid base earlier) later := by
  induction earlier generalizing base with
  | nil => rfl
  | cons write rest induction => exact induction _

omit [Rows State Row Cell] in
theorem overlaid_congr {base other : (row : Row) → Cell row} {row : Row}
    (same : base row = other row) (writes : List ((row : Row) × Cell row)) :
    overlaid base writes row = overlaid other writes row := by
  induction writes generalizing base other with
  | nil => exact same
  | cons write rest induction =>
      apply induction
      by_cases here : row = write.1
      · subst here
        rw [Function.update_self, Function.update_self]
      · rw [Function.update_of_ne here, Function.update_of_ne here, same]

omit [Rows State Row Cell] in
theorem overlaid_of_not_mem (base : (row : Row) → Cell row) {row : Row}
    {writes : List ((row : Row) × Cell row)} (untouched : row ∉ writes.map (·.1)) :
    overlaid base writes row = base row := by
  induction writes generalizing base with
  | nil => rfl
  | cons write rest induction =>
      rw [List.map_cons, List.mem_cons, not_or] at untouched
      rw [overlaid, induction _ untouched.2, Function.update_of_ne untouched.1]

theorem get_applied (state : State) (writes : List ((row : Row) × Cell row)) :
    Rows.get (applied state writes) = overlaid (Rows.get state) writes := by
  induction writes generalizing state with
  | nil => rfl
  | cons write rest induction => rw [applied, overlaid, induction, Rows.get_set]

/-! ## A call with given answers

What a call does is settled by the cells that its reads meet (`known`) and those
that its changes are made to (`under`), its own changes aside. -/

inductive SessionStep (known under : (row : Row) → Cell row) :
    Session Row Cell Failure Value → Session Row Cell Failure Value → Prop
  | read {failure : Failure} {row : Row} {next : Cell row → Statements Row Cell Failure Value}
      {writes : List ((row : Row) × Cell row)} {reads : List Row} :
      SessionStep known under ⟨.read failure row next, writes, reads⟩
        ⟨next (overlaid known writes row), writes, row :: reads⟩
  | start {failure : Failure} {rest : Statements Row Cell Failure Value}
      {writes : List ((row : Row) × Cell row)} {reads : List Row} :
      SessionStep known under ⟨.start failure rest, writes, reads⟩ ⟨rest, writes, reads⟩
  | store {failure : Failure} {row : Row} {change : Nat → Cell row → Cell row}
      {rest : Statements Row Cell Failure Value} (now : Nat)
      {writes : List ((row : Row) × Cell row)} {reads : List Row} :
      SessionStep known under ⟨.store failure row change rest, writes, reads⟩
        ⟨rest, writes ++ [⟨row, change now (overlaid under writes row)⟩], reads⟩

abbrev Follows (known under : (row : Row) → Cell row)
    (call : Statements Row Cell Failure Value) :
    Session Row Cell Failure Value → Prop :=
  Relation.ReflTransGen (SessionStep known under) (.opened call)

inductive Ends (known under : (row : Row) → Cell row) :
    Session Row Cell Failure Value → List ((row : Row) × Cell row) → List Row → Prop
  | returns {value : Value} {writes : List ((row : Row) × Cell row)} {reads : List Row} :
      Ends known under ⟨.returns (.ok value), writes, reads⟩ [] reads
  | commit {failure : Failure} {value : Value} {writes : List ((row : Row) × Cell row)}
      {reads : List Row} :
      Ends known under ⟨.commit failure value, writes, reads⟩ writes reads
  | step {before after : Session Row Cell Failure Value}
      {writes : List ((row : Row) × Cell row)} {reads : List Row}
      (next : SessionStep known under before after)
      (rest : Ends known under after writes reads) : Ends known under before writes reads

omit [Rows State Row Cell]

variable {known under : (row : Row) → Cell row}
  {call : Statements Row Cell Failure Value} {session later : Session Row Cell Failure Value}

theorem Ends.of_steps
    (steps : Relation.ReflTransGen (SessionStep known under) session later)
    {writes : List ((row : Row) × Cell row)} {reads : List Row}
    (ends : Ends known under later writes reads) :
    Ends known under session writes reads := by
  induction steps using Relation.ReflTransGen.head_induction_on with
  | refl => exact ends
  | head next _ induction => exact .step next induction

/-! ### Following a call to its end -/

section

variable {failure : Failure} {row : Row} {rest : Statements Row Cell Failure Value}
  {writes finalWrites : List ((row : Row) × Cell row)} {reads finalReads : List Row}

theorem Ends.afterRead {next : Cell row → Statements Row Cell Failure Value}
    (ends : Ends known under ⟨.read failure row next, writes, reads⟩ finalWrites finalReads) :
    Ends known under ⟨next (overlaid known writes row), writes, row :: reads⟩
      finalWrites finalReads := by
  cases ends with
  | step next rest =>
      cases next
      exact rest

theorem Ends.afterStart
    (ends : Ends known under ⟨.start failure rest, writes, reads⟩ finalWrites finalReads) :
    Ends known under ⟨rest, writes, reads⟩ finalWrites finalReads := by
  cases ends with
  | step next rest =>
      cases next
      exact rest

theorem Ends.afterStore {change : Nat → Cell row → Cell row}
    (ends : Ends known under ⟨.store failure row change rest, writes, reads⟩
      finalWrites finalReads) :
    ∃ now, Ends known under
      ⟨rest, writes ++ [⟨row, change now (overlaid under writes row)⟩], reads⟩
      finalWrites finalReads := by
  cases ends with
  | step next rest =>
      cases next with
      | store now => exact ⟨now, rest⟩

theorem Ends.eq_of_commit {value : Value}
    (ends : Ends known under ⟨.commit failure value, writes, reads⟩
      finalWrites finalReads) : finalWrites = writes ∧ finalReads = reads := by
  cases ends with
  | commit => exact ⟨rfl, rfl⟩
  | step next _ => cases next

theorem Ends.eq_of_returns {value : Value}
    (ends : Ends known under
      (⟨.returns (.ok value), writes, reads⟩ : Session Row Cell Failure Value)
      finalWrites finalReads) : finalWrites = [] ∧ finalReads = reads := by
  cases ends with
  | returns => exact ⟨rfl, rfl⟩
  | step next _ => cases next

theorem Ends.not_crash
    (ends : Ends known under
      (⟨.crash, writes, reads⟩ : Session Row Cell Failure Value) finalWrites finalReads) : False := by
  cases ends with
  | step next _ => cases next

end

theorem SessionStep.mono (next : SessionStep known under session later) :
    (∀ row ∈ session.reads, row ∈ later.reads) ∧
      ∀ row ∈ session.locked, row ∈ later.locked := by
  cases next with
  | read => exact ⟨fun row member => List.mem_cons_of_mem _ member, fun _ => id⟩
  | start => exact ⟨fun _ => id, fun _ => id⟩
  | store now =>
      constructor
      · exact fun _ => id
      · intro row member
        simp only [Session.locked, List.map_append, List.mem_append] at member ⊢
        exact .inl member

theorem Follows.congr {otherKnown otherUnder : (row : Row) → Cell row}
    (follows : Follows known under call session)
    (sameKnown : ∀ row ∈ session.reads, known row = otherKnown row)
    (sameUnder : ∀ row ∈ session.locked, under row = otherUnder row) :
    Follows otherKnown otherUnder call session := by
  induction follows with
  | refl => exact .refl
  | tail _ next induction =>
      have grows := next.mono
      have earlier := induction (fun row member => sameKnown row (grows.1 row member))
        (fun row member => sameUnder row (grows.2 row member))
      apply earlier.tail
      cases next with
      | read =>
          rw [overlaid_congr (sameKnown _ List.mem_cons_self)]
          exact .read
      | start => exact .start
      | store now =>
          rw [overlaid_congr (sameUnder _ (by simp [Session.locked]))]
          exact .store now

/-- The call reads no row twice, nor one of these. -/
inductive Statements.ReadsOnce :
    List Row → Statements Row Cell Failure Value → Prop
  | returns {reads : List Row} {outcome : Except Failure Value} :
      ReadsOnce reads (.returns outcome)
  | crash {reads : List Row} : ReadsOnce reads .crash
  | read {reads : List Row} {failure : Failure} {row : Row}
      {next : Cell row → Statements Row Cell Failure Value} (unread : row ∉ reads)
      (rest : ∀ cell, (next cell).ReadsOnce (row :: reads)) :
      ReadsOnce reads (.read failure row next)
  | start {reads : List Row} {failure : Failure}
      {rest : Statements Row Cell Failure Value} (once : rest.ReadsOnce reads) :
      ReadsOnce reads (.start failure rest)
  | store {reads : List Row} {failure : Failure} {row : Row}
      {change : Nat → Cell row → Cell row} {rest : Statements Row Cell Failure Value}
      (once : rest.ReadsOnce reads) : ReadsOnce reads (.store failure row change rest)
  | commit {reads : List Row} {failure : Failure} {value : Value} :
      ReadsOnce reads (.commit failure value)

def Session.ReadsOnce (session : Session Row Cell Failure Value) : Prop :=
  session.statements.ReadsOnce session.reads

theorem SessionStep.congr {otherKnown : (row : Row) → Cell row}
    (next : SessionStep known under session later) (once : session.ReadsOnce)
    (same : ∀ row, row ∉ session.reads → known row = otherKnown row) :
    SessionStep otherKnown under session later := by
  cases next with
  | read =>
      cases once with
      | read unread rest =>
          rw [overlaid_congr (same _ unread)]
          exact .read
  | start => exact .start
  | store now => exact .store now

theorem SessionStep.readsOnce (next : SessionStep known under session later)
    (once : session.ReadsOnce) : later.ReadsOnce := by
  cases next with
  | read =>
      cases once with
      | read unread rest => exact rest _
  | start =>
      cases once with
      | start once => exact once
  | store now =>
      cases once with
      | store once => exact once

end

/-! ## Runs -/

section

variable {State Row Failure Value : Type} {Cell : Row → Type} [DecidableEq Row]
  [Rows State Row Cell] {initial : State}
  {calls : Party → Statements Row Cell Failure Value}
  {system before after final : System State Row Cell Failure Value} {turn : Turn}

open Rows

/-- What a step can do: fail, go on inside the transaction with rows that the
other party has not locked, or commit. -/
theorem System.step_cases (stepped : before.step turn = some after) :
    (∃ failure, (before.session turn.party).statements.failure = some failure ∧
      after = before.put turn.party (.ended (.error failure))) ∨
    (∃ session, SessionStep (get before.committed) (get before.committed)
        (before.session turn.party) session ∧
      (∀ row ∈ session.locked, row ∈ (before.session turn.party).locked ∨
        row ∉ (before.session turn.party.other).locked) ∧
      after = before.put turn.party session) ∨
    ∃ failure value, (before.session turn.party).statements = .commit failure value ∧
      after = before.commit turn.party value := by
  unfold System.step at stepped
  cases failing : turn.fails with
  | true =>
      simp only [failing, if_true, Option.map_eq_some_iff] at stepped
      rcases stepped with ⟨failure, known, rfl⟩
      exact .inl ⟨failure, known, rfl⟩
  | false =>
      simp only [failing, Bool.false_eq_true, if_false, System.seen] at stepped
      rw [get_applied] at stepped
      rcases current : before.session turn.party with ⟨statements, writes, reads⟩
      simp only [current] at stepped ⊢
      cases statements with
      | returns => cases stepped
      | crash => cases stepped
      | read failure row next =>
          cases stepped
          exact .inr (.inl ⟨_, .read, fun _ => .inl, rfl⟩)
      | start failure rest =>
          cases stepped
          exact .inr (.inl ⟨_, .start, fun _ => .inl, rfl⟩)
      | store failure row change rest =>
          cases locked : decide (row ∈ (before.session turn.party.other).locked) with
          | true =>
              rw [decide_eq_true_eq] at locked
              simp [locked] at stepped
          | false =>
              rw [decide_eq_false_iff_not] at locked
              simp only [locked, if_false, Option.some.injEq] at stepped
              refine .inr (.inl ⟨_, .store turn.now, ?_, stepped.symm⟩)
              intro other member
              simp only [Session.locked, List.map_append, List.map_cons, List.map_nil,
                List.mem_append, List.mem_singleton] at member
              rcases member with earlier | rfl
              · exact .inl earlier
              · exact .inr locked
      | commit failure value =>
          cases stepped
          exact .inr (.inr ⟨failure, value, rfl, rfl⟩)

theorem System.step_not_returned (stepped : before.step turn = some after)
    (outcome : Except Failure Value) :
    (before.session turn.party).statements ≠ .returns outcome := by
  intro returned
  rcases System.step_cases stepped with ⟨failure, known, _⟩ | ⟨session, next, _⟩ |
    ⟨failure, value, committing, _⟩
  · rw [returned] at known
    cases known
  · rcases current : before.session turn.party with ⟨statements, writes, reads⟩
    rw [current] at next returned
    cases returned
    cases next
  · rw [returned] at committing
    cases committing

theorem System.step_other (stepped : before.step turn = some after) {party : Party}
    (different : party ≠ turn.party) : after.session party = before.session party := by
  rcases System.step_cases stepped with ⟨_, _, rfl⟩ | ⟨_, _, _, rfl⟩ | ⟨_, _, _, rfl⟩
  · exact Function.update_of_ne different _ _
  · exact Function.update_of_ne different _ _
  · exact Function.update_of_ne different _ _

def System.Failed (system : System State Row Cell Failure Value) : Prop :=
  ∃ party failure, (system.session party).statements = .returns (.error failure)

theorem System.Failed.step (failed : before.Failed) (stepped : before.step turn = some after) :
    after.Failed := by
  rcases failed with ⟨party, failure, returned⟩
  refine ⟨party, failure, ?_⟩
  rw [System.step_other stepped]
  · exact returned
  · intro same
    subst same
    exact System.step_not_returned stepped _ returned

def mixed (stale : List Row) (old new : (row : Row) → Cell row) : (row : Row) → Cell row :=
  fun row => if row ∈ stale then old row else new row

structure Undisturbed (initial : State) (calls : Party → Statements Row Cell Failure Value)
    (system : System State Row Cell Failure Value) : Prop where
  committed : system.committed = initial
  follows : ∀ party, Follows (get initial) (get initial) (calls party)
    (system.session party)
  apart : ∀ party, ∀ row ∈ (system.session party).locked,
    row ∉ (system.session party.other).locked
  fresh : ∀ party, system.stale party = []
  once : ∀ party, (system.session party).ReadsOnce

/-- One party has committed. The other one is where its call gets when the rows
it has read too early are still as they were. -/
structure Overtaken (initial : State) (calls : Party → Statements Row Cell Failure Value)
    (leader : Party) (system : System State Row Cell Failure Value) : Prop where
  ended : ∃ value, system.session leader = .ended (.ok value)
  fresh : system.stale leader = []
  committed : ∃ writes reads,
    Ends (get initial) (get initial) (.opened (calls leader)) writes reads ∧
      system.committed = applied initial writes
  follows : Follows
    (mixed (system.stale leader.other) (get initial) (get system.committed))
    (get system.committed) (calls leader.other) (system.session leader.other)
  read : ∀ row ∈ system.stale leader.other, row ∈ (system.session leader.other).reads
  once : (system.session leader.other).ReadsOnce

/-- Both calls have taken effect, one on top of the other. The second one has met
the rows as the first one left them, except those that it read too early. -/
structure Ordered (initial : State) (calls : Party → Statements Row Cell Failure Value)
    (leader : Party) (leaderWrites followerWrites : List ((row : Row) × Cell row))
    (system : System State Row Cell Failure Value) : Prop where
  fresh : system.stale leader = []
  ends : ∃ reads, Ends (get initial) (get initial) (.opened (calls leader)) leaderWrites reads
  follows : ∃ reads,
    Ends (mixed (system.stale leader.other) (get initial)
        (get (applied initial leaderWrites)))
      (get (applied initial leaderWrites)) (.opened (calls leader.other)) followerWrites reads ∧
    ∀ row ∈ system.stale leader.other, row ∈ reads
  committed : system.committed = applied (applied initial leaderWrites) followerWrites

/-! ### Rules for one step -/

omit [DecidableEq Row] [Rows State Row Cell] in
theorem System.failed_put (party : Party) (failure : Failure) :
    (before.put party (.ended (.error failure))).Failed :=
  ⟨party, failure, by rw [System.put_session]; rfl⟩

theorem undisturbed_opened (once : ∀ party, (calls party).ReadsOnce []) :
    Undisturbed initial calls (.opened initial calls) where
  committed := rfl
  follows _ := .refl
  apart _ _ member := by cases member
  fresh _ := rfl
  once := once

private theorem Undisturbed.next (undisturbed : Undisturbed initial calls before)
    {party : Party} {session : Session Row Cell Failure Value}
    (next : SessionStep (get before.committed) (get before.committed)
      (before.session party) session)
    (free : ∀ row ∈ session.locked, row ∈ (before.session party).locked ∨
      row ∉ (before.session party.other).locked) :
    Undisturbed initial calls (before.put party session) := by
  have free : ∀ row ∈ session.locked, row ∉ (before.session party.other).locked := by
    intro row member
    rcases free row member with held | released
    · exact undisturbed.apart party row held
    · exact released
  constructor
  · exact undisturbed.committed
  · intro chosen
    rcases Party.eq_or_eq_other party chosen with rfl | rfl
    · rw [System.put_session]
      rw [undisturbed.committed] at next
      exact (undisturbed.follows chosen).tail next
    · rw [System.put_session_other]
      exact undisturbed.follows _
  · intro chosen
    rcases Party.eq_or_eq_other party chosen with rfl | rfl
    · rw [System.put_session, System.put_session_other]
      exact free
    · rw [System.put_session_other, Party.other_other, System.put_session]
      intro row held taken
      exact free row taken held
  · exact undisturbed.fresh
  · intro chosen
    rcases Party.eq_or_eq_other party chosen with rfl | rfl
    · rw [System.put_session]
      exact next.readsOnce (undisturbed.once chosen)
    · rw [System.put_session_other]
      exact undisturbed.once _

private theorem Undisturbed.commit (undisturbed : Undisturbed initial calls before)
    {party : Party} {failure : Failure} {value : Value}
    (committing : (before.session party).statements = .commit failure value) :
    Overtaken initial calls party (before.commit party value) := by
  have stale : (before.commit party value).stale party.other =
      (before.session party.other).reads.filter
        (· ∈ (before.session party).locked) := by
    rw [System.commit_stale_other, undisturbed.fresh, List.nil_append]
  have cells : ∀ row, row ∉ (before.session party).locked →
      get initial row = get (before.commit party value).committed row := by
    intro row free
    rw [System.commit, get_applied, overlaid_of_not_mem _ free, undisturbed.committed]
  constructor
  · exact ⟨value, System.commit_session _ _ _⟩
  · rw [System.commit_stale, undisturbed.fresh]
  · refine ⟨(before.session party).writes, (before.session party).reads,
      Ends.of_steps (undisturbed.follows party) ?_, ?_⟩
    · rcases current : before.session party with ⟨statements, writes, reads⟩
      rw [current] at committing
      cases committing
      exact .commit
    · rw [System.commit, undisturbed.committed]
  · rw [System.commit_session_other, stale]
    apply (undisturbed.follows party.other).congr
    · intro row read
      unfold mixed
      split
      · rfl
      · rename_i current
        apply cells
        intro locked
        exact current (List.mem_filter.mpr ⟨read, by simpa using locked⟩)
    · intro row locked
      apply cells
      intro held
      exact undisturbed.apart party row held locked
  · rw [System.commit_session_other, stale]
    intro row member
    exact (List.mem_filter.mp member).1
  · rw [System.commit_session_other]
    exact undisturbed.once _

private theorem Overtaken.next {leader : Party}
    (overtaken : Overtaken initial calls leader before)
    {session : Session Row Cell Failure Value}
    (next : SessionStep (get before.committed) (get before.committed)
      (before.session leader.other) session) :
    Overtaken initial calls leader (before.put leader.other session) := by
  have leading : (before.put leader.other session).session leader = before.session leader :=
    Function.update_of_ne (Party.ne_other leader) _ _
  constructor
  · rw [leading]
    exact overtaken.ended
  · exact overtaken.fresh
  · exact overtaken.committed
  · rw [System.put_session]
    apply overtaken.follows.tail
    apply next.congr overtaken.once
    intro row unread
    exact (if_neg fun stale => unread (overtaken.read row stale)).symm
  · rw [System.put_session]
    intro row stale
    exact next.mono.1 row (overtaken.read row stale)
  · rw [System.put_session]
    exact next.readsOnce overtaken.once

private theorem Overtaken.commit {leader : Party}
    (overtaken : Overtaken initial calls leader before) {failure : Failure} (value : Value)
    (committing : (before.session leader.other).statements = .commit failure value) :
    ∃ leaderWrites followerWrites, Ordered initial calls leader leaderWrites followerWrites
      (before.commit leader.other value) := by
  rcases overtaken.committed with ⟨leaderWrites, leaderReads, leaderEnds, committed⟩
  have idle : (before.session leader).reads = [] := by
    rcases overtaken.ended with ⟨_, ended⟩
    rw [ended]
    rfl
  have follows := overtaken.follows
  rw [committed] at follows
  refine ⟨leaderWrites, (before.session leader.other).writes, ?_, ⟨leaderReads, leaderEnds⟩,
    ⟨(before.session leader.other).reads, ?_, ?_⟩, ?_⟩
  · have outdated := System.commit_stale_other before leader.other value
    rw [Party.other_other, overtaken.fresh, idle] at outdated
    exact outdated
  · rw [System.commit_stale]
    apply Ends.of_steps follows
    rcases current : before.session leader.other with ⟨statements, writes, reads⟩
    rw [current] at committing
    cases committing
    exact .commit
  · rw [System.commit_stale]
    exact overtaken.read
  · rw [System.commit, committed]

/-! ### From one step to a run -/

theorem System.run_invariant (holds : System State Row Cell Failure Value → Prop)
    (preserved : ∀ before turn after, holds before → before.step turn = some after →
      holds after) {turns : List Turn} (initially : holds before)
    (ran : before.run turns = some final) : holds final := by
  induction turns generalizing before with
  | nil =>
      cases ran
      exact initially
  | cons turn rest induction =>
      rcases Option.bind_eq_some_iff.mp ran with ⟨next, stepped, ran⟩
      exact induction (preserved _ _ _ initially stepped) ran

def System.Over (system : System State Row Cell Failure Value) : Prop :=
  ∀ party, ∃ value, (system.session party).statements = .returns (.ok value)

inductive Phase (initial : State) (calls : Party → Statements Row Cell Failure Value)
    (system : System State Row Cell Failure Value) : Prop
  | failed (failed : system.Failed)
  | undisturbed (undisturbed : Undisturbed initial calls system)
  | overtaken (leader : Party) (overtaken : Overtaken initial calls leader system)
  | ordered (leader : Party) (leaderWrites followerWrites : List ((row : Row) × Cell row))
      (closed : system.Over)
      (ordered : Ordered initial calls leader leaderWrites followerWrites system)

theorem Phase.step (phase : Phase initial calls before)
    (stepped : before.step turn = some after) : Phase initial calls after := by
  cases phase with
  | failed failed => exact .failed (failed.step stepped)
  | undisturbed undisturbed =>
      rcases System.step_cases stepped with ⟨failure, _, rfl⟩ | ⟨_, next, free, rfl⟩ |
        ⟨_, _, committing, rfl⟩
      · exact .failed (System.failed_put _ _)
      · exact .undisturbed (undisturbed.next next free)
      · exact .overtaken _ (undisturbed.commit committing)
  | overtaken leader overtaken =>
      rcases overtaken.ended with ⟨value, ended⟩
      have moves : turn.party = leader.other := by
        rcases Party.eq_or_eq_other leader turn.party with same | moves
        · have closed := System.step_not_returned stepped (.ok value)
          rw [same, ended] at closed
          exact absurd rfl closed
        · exact moves
      rcases System.step_cases stepped with ⟨failure, _, rfl⟩ | ⟨_, next, _, rfl⟩ |
        ⟨_, value, committing, rfl⟩
      · exact .failed (System.failed_put _ _)
      · rw [moves] at next ⊢
        exact .overtaken _ (overtaken.next next)
      · rw [moves] at committing ⊢
        rcases overtaken.commit value committing with ⟨_, _, ordered⟩
        refine .ordered leader _ _ ?_ ordered
        intro party
        rcases Party.eq_or_eq_other leader party with rfl | rfl
        · have kept := System.commit_session_other before party.other value
          rw [Party.other_other, ended] at kept
          rw [kept]
          exact ⟨_, rfl⟩
        · refine ⟨value, ?_⟩
          rw [System.commit_session]
          rfl
  | ordered leader leaderWrites followerWrites closed ordered =>
      rcases closed turn.party with ⟨value, returned⟩
      exact absurd returned (System.step_not_returned stepped _)

private theorem ends_of_returned {known under : (row : Row) → Cell row}
    {session : Session Row Cell Failure Value} {value : Value}
    (returned : session.statements = .returns (.ok value)) :
    Ends known under session [] session.reads := by
  rcases session with ⟨statements, writes, reads⟩
  cases returned
  exact .returns

private theorem Undisturbed.ordered (undisturbed : Undisturbed initial calls final)
    (closed : final.Over) : Ordered initial calls .first [] [] final := by
  have ends : ∀ party, Ends (get initial) (get initial) (.opened (calls party)) []
      (final.session party).reads := by
    intro party
    rcases closed party with ⟨_, returned⟩
    exact Ends.of_steps (undisturbed.follows party) (ends_of_returned returned)
  constructor
  · exact undisturbed.fresh _
  · exact ⟨_, ends .first⟩
  · rw [undisturbed.fresh]
    exact ⟨_, ends .second, fun _ stale => nomatch stale⟩
  · exact undisturbed.committed

private theorem Overtaken.ordered {leader : Party}
    (overtaken : Overtaken initial calls leader final) (closed : final.Over) :
    ∃ leaderWrites, Ordered initial calls leader leaderWrites [] final := by
  rcases overtaken.committed with ⟨leaderWrites, leaderReads, leaderEnds, committed⟩
  rcases closed leader.other with ⟨_, returned⟩
  have follows := overtaken.follows
  rw [committed] at follows
  exact ⟨leaderWrites, overtaken.fresh, ⟨leaderReads, leaderEnds⟩,
    ⟨(final.session leader.other).reads, Ends.of_steps follows (ends_of_returned returned),
      overtaken.read⟩, committed⟩

/-- When both calls return, one took effect on top of the other, and the later one
differs from a call of its own only in the rows that it read too early. -/
theorem System.ordered_of_run {turns : List Turn}
    (once : ∀ party, (calls party).ReadsOnce [])
    (ran : (System.opened initial calls).run turns = some final) (closed : final.Over) :
    ∃ leader leaderWrites followerWrites,
      Ordered initial calls leader leaderWrites followerWrites final := by
  have phase : Phase initial calls final :=
    System.run_invariant (Phase initial calls) (fun _ _ _ phase => phase.step)
      (.undisturbed (undisturbed_opened once)) ran
  cases phase with
  | failed failed =>
      rcases failed with ⟨party, failure, failing⟩
      rcases closed party with ⟨value, returned⟩
      rw [returned] at failing
      cases failing
  | undisturbed undisturbed => exact ⟨_, _, _, undisturbed.ordered closed⟩
  | overtaken leader overtaken =>
      rcases overtaken.ordered closed with ⟨leaderWrites, ordered⟩
      exact ⟨_, _, _, ordered⟩
  | ordered leader leaderWrites followerWrites closed ordered => exact ⟨_, _, _, ordered⟩

end

end Pgfs.ReadCommitted
