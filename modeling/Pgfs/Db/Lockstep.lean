import Pgfs.Db.Agreement
import Pgfs.Db.Calls
import Pgfs.Db.Rules

namespace Pgfs.Db

open Effect

/-! Two handles that execute the same statements with the same success. Their
tables agree on the keys in question, their replicas, clocks and cached verdicts
may be anything. -/

structure Advanced (before after : Db) : Prop where
  world : after.world = before.world
  replica : after.replica = before.replica
  freshnessCached : after.freshnessCached = before.freshnessCached
  freshnessCheckedAt : after.freshnessCheckedAt = before.freshnessCheckedAt
  cursor : before.cursor ≤ after.cursor

theorem Advanced.refl (db : Db) : Advanced db db := ⟨rfl, rfl, rfl, rfl, Nat.le_refl _⟩

theorem Advanced.trans (first second third : Db) (left : Advanced first second)
    (right : Advanced second third) : Advanced first third where
  world := right.world.trans left.world
  replica := right.replica.trans left.replica
  freshnessCached := right.freshnessCached.trans left.freshnessCached
  freshnessCheckedAt := right.freshnessCheckedAt.trans left.freshnessCheckedAt
  cursor := left.cursor.trans right.cursor

/-- The next statements of both handles succeed or fail alike, and if `ordered`,
both iterate over hash maps in the same order. -/
def SameFate (ordered : Prop) (left right : Db) (count : Nat) : Prop :=
  ∀ offset < count,
    (left.world (left.cursor + offset)).fails =
        (right.world (right.cursor + offset)).fails ∧
      (ordered → (left.world (left.cursor + offset)).blockOrder =
        (right.world (right.cursor + offset)).blockOrder)

def SameOutcome (view : Value → Shown) (left right : Except DbError Value) : Prop :=
  left.map view = right.map view

/-- Two computations in step: from agreeing tables, what the one does the other
does too, with the same number of statements. -/
structure Paired (ordered : Prop) (keys : Set Key) (view : Value → Shown)
    (body other : DbM Value) : Prop where
  advances : Keeps Advanced body
  otherAdvances : Keeps Advanced other
  inStep : ∀ left right outcome after, left.tables.Agree keys right.tables →
    body left = some (outcome, after) →
    SameFate ordered left right (after.cursor - left.cursor) →
    ∃ otherOutcome otherAfter, other right = some (otherOutcome, otherAfter) ∧
      SameOutcome view outcome otherOutcome ∧
      after.tables.Agree keys otherAfter.tables ∧
      otherAfter.cursor - right.cursor = after.cursor - left.cursor

abbrev InStep (ordered : Prop) (keys : Set Key) (view : Value → Shown)
    (body : DbM Value) : Prop :=
  Paired ordered keys view body body

variable {ordered : Prop} {keys : Set Key} {view : Value → Shown}

theorem paired_pure {value other : Value} (same : view value = view other) :
    Paired ordered keys view (pure value) (pure other) where
  advances := keeps_pure Advanced.refl value
  otherAdvances := keeps_pure Advanced.refl other
  inStep := by
    intro left right outcome after agree run fate
    cases run
    exact ⟨_, _, rfl, congrArg Except.ok same, agree, by omega⟩

theorem paired_raise (failure : DbError) :
    Paired ordered keys view (raise failure) (raise failure) where
  advances := keeps_raise Advanced.refl failure
  otherAdvances := keeps_raise Advanced.refl failure
  inStep := by
    intro left right outcome after agree run fate
    cases run
    exact ⟨_, _, rfl, rfl, agree, by omega⟩

private theorem SameFate.mono {left right : Db} {count fewer : Nat}
    (fate : SameFate ordered left right count) (less : fewer ≤ count) :
    SameFate ordered left right fewer :=
  fun offset inside => fate offset (inside.trans_le less)

private theorem SameFate.later {left right middle otherMiddle : Db} {count : Nat}
    (fate : SameFate ordered left right count) (advanced : Advanced left middle)
    (otherAdvanced : Advanced right otherMiddle)
    (inStep : otherMiddle.cursor - right.cursor = middle.cursor - left.cursor) :
    SameFate ordered middle otherMiddle (count - (middle.cursor - left.cursor)) := by
  intro offset inside
  have moved := advanced.cursor
  have otherMoved := otherAdvanced.cursor
  have here : left.cursor + (middle.cursor - left.cursor + offset) =
      middle.cursor + offset := by omega
  have there : right.cursor + (middle.cursor - left.cursor + offset) =
      otherMiddle.cursor + offset := by omega
  have same := fate (middle.cursor - left.cursor + offset) (by omega)
  rw [here, there] at same
  rw [advanced.world, otherAdvanced.world]
  exact same

private theorem SameOutcome.of_ok {value : Value} {otherOutcome : Except DbError Value}
    (same : SameOutcome view (.ok value) otherOutcome) :
    ∃ other, otherOutcome = .ok other ∧ view value = view other := by
  cases otherOutcome with
  | error failure => cases same
  | ok other => exact ⟨other, rfl, Except.ok.inj same⟩

private theorem SameOutcome.of_error {failure : DbError}
    {otherOutcome : Except DbError Value}
    (same : SameOutcome view (.error failure) otherOutcome) :
    otherOutcome = .error failure := by
  cases otherOutcome with
  | error otherFailure => exact congrArg Except.error (Except.error.inj same).symm
  | ok other => cases same

theorem Paired.bind {first second : DbM Value} {next otherNext : Value → DbM Result}
    {resultView : Result → Seen} (paired : Paired ordered keys view first second)
    (nextPaired : ∀ value other, view value = view other →
      Paired ordered keys resultView (next value) (otherNext other)) :
    Paired ordered keys resultView (first >>= next) (second >>= otherNext) where
  advances := paired.advances.bind Advanced.trans fun value =>
    (nextPaired value value rfl).advances
  otherAdvances := paired.otherAdvances.bind Advanced.trans fun value =>
    (nextPaired value value rfl).otherAdvances
  inStep := by
    intro left right outcome after agree run fate
    rcases bind_eq_some.mp run with
      ⟨value, middle, firstRun, nextRun⟩ | ⟨failure, firstRun, failed⟩
    · have advanced := paired.advances _ _ _ firstRun
      have later := (nextPaired value value rfl).advances _ _ _ nextRun
      have moved := advanced.cursor
      have movedOn := later.cursor
      rcases paired.inStep left right _ _ agree firstRun (fate.mono (by omega)) with
        ⟨otherOutcome, otherMiddle, otherRun, same, middleAgree, count⟩
      rcases same.of_ok with ⟨other, rfl, viewed⟩
      have otherAdvanced := paired.otherAdvances _ _ _ otherRun
      have rest := fate.later advanced otherAdvanced count
      rcases (nextPaired value other viewed).inStep middle otherMiddle _ _ middleAgree
          nextRun (rest.mono (by omega)) with
        ⟨lastOutcome, last, lastRun, lastSame, lastAgree, lastCount⟩
      have otherLater := (nextPaired other other rfl).otherAdvances _ _ _ lastRun
      have otherMoved := otherAdvanced.cursor
      have otherMovedOn := otherLater.cursor
      exact ⟨lastOutcome, last, (bind_of_ok otherRun).trans lastRun, lastSame, lastAgree,
        by omega⟩
    · subst failed
      rcases paired.inStep left right _ _ agree firstRun fate with
        ⟨otherOutcome, otherAfter, otherRun, same, afterAgree, count⟩
      rw [same.of_error] at otherRun
      exact ⟨.error failure, otherAfter, bind_of_error otherRun, rfl, afterAgree, count⟩

theorem Paired.andThen {first : DbM Value} {next : Value → DbM Result}
    {resultView : Result → Seen} (paired : Paired ordered keys id first first)
    (nextPaired : ∀ value, Paired ordered keys resultView (next value) (next value)) :
    Paired ordered keys resultView (first >>= next) (first >>= next) := by
  apply paired.bind
  intro value other same
  cases same
  exact nextPaired value

theorem paired_orAbort {value : Option Value} :
    Paired ordered keys (id : Value → Value) (orAbort value) (orAbort value) := by
  cases value with
  | none =>
      constructor
      · intro before outcome after run
        cases run
      · intro before outcome after run
        cases run
      · intro left right outcome after agree run fate
        cases run
  | some inner => exact paired_pure rfl

theorem paired_ofExcept {value other : Except DbError Value}
    (same : SameOutcome view value other) :
    Paired ordered keys view (ofExcept value) (ofExcept other) := by
  cases value with
  | error failure =>
      rw [same.of_error]
      exact paired_raise failure
  | ok found =>
      rcases same.of_ok with ⟨otherFound, rfl, viewed⟩
      exact paired_pure viewed

/-! ## Statements -/

private theorem execute_advances (what : Message)
    (statement : Moment → Tables → Option (Value × Tables)) :
    Keeps Advanced (execute what statement) := by
  intro before outcome after run
  unfold execute at run
  split at run
  · cases run
    exact ⟨rfl, rfl, rfl, rfl, Nat.le_succ _⟩
  · split at run
    · cases run
      exact ⟨rfl, rfl, rfl, rfl, Nat.le_succ _⟩
    · cases run
      exact ⟨rfl, rfl, rfl, rfl, Nat.le_succ _⟩

private theorem execute_cursor {what : Message}
    {statement : Moment → Tables → Option (Value × Tables)} {before after : Db}
    {outcome : Except DbError Value}
    (run : execute what statement before = some (outcome, after)) :
    after.cursor = before.cursor + 1 := by
  unfold execute at run
  split at run
  · cases run
    rfl
  · split at run
    · cases run
      rfl
    · cases run
      rfl

theorem paired_execute (what : Message)
    {statement otherStatement : Moment → Tables → Option (Value × Tables)}
    (uniform : ∀ moment otherMoment left right, left.Agree keys right →
      Option.Rel (fun done other => view done.1 = view other.1 ∧
          done.2.Agree keys other.2)
        (statement moment left) (otherStatement otherMoment right)) :
    Paired ordered keys view (execute what statement) (execute what otherStatement) where
  advances := execute_advances what statement
  otherAdvances := execute_advances what otherStatement
  inStep := by
    intro left right outcome after agree run fate
    have moved := execute_cursor run
    have fails : left.moment.fails = right.moment.fails :=
      (fate 0 (by omega)).1
    have executed := uniform left.moment right.moment left.tables right.tables agree
    unfold execute at run ⊢
    rw [← fails]
    split at run
    · rename_i failing
      cases run
      rw [if_pos failing]
      exact ⟨_, _, rfl, rfl, agree, by simp [advance]⟩
    · rename_i working
      rw [if_neg working]
      generalize statement left.moment left.tables = done at run executed
      generalize otherStatement right.moment right.tables = otherDone at executed ⊢
      cases executed with
      | none =>
          cases run
          exact ⟨_, _, rfl, rfl, agree, by simp [advance]⟩
      | some related =>
          cases run
          exact ⟨_, _, rfl, congrArg Except.ok related.1, related.2,
            by simp [advance, setTables]⟩

theorem paired_query (what : Message) {read otherRead : Tables → Value}
    (same : ∀ left right, Tables.Agree keys left right →
      view (read left) = view (otherRead right)) :
    Paired ordered keys view (query what read) (query what otherRead) :=
  paired_execute what fun _ _ left right agree => .some ⟨same left right agree, agree⟩

theorem paired_lookup (what : Message) {read : Tables → Value}
    (same : ∀ left right, Tables.Agree keys left right → read left = read right) :
    Paired ordered keys id (query what read) (query what read) :=
  paired_query what fun left right agree => congrArg id (same left right agree)

theorem paired_update (what : Message) {change otherChange : Moment → Tables → Tables}
    (agrees : ∀ moment otherMoment left right, Tables.Agree keys left right →
      (change moment left).Agree keys (otherChange otherMoment right)) :
    Paired ordered keys id (update what change) (update what otherChange) :=
  paired_execute what fun moment otherMoment left right agree =>
    .some ⟨rfl, agrees moment otherMoment left right agree⟩

/-! ## Transactions and loops -/

private theorem Advanced.restore {before after : Db} (advanced : Advanced before after)
    (tables : Tables) : Advanced before (after.setTables tables) :=
  ⟨advanced.world, advanced.replica, advanced.freshnessCached,
    advanced.freshnessCheckedAt, advanced.cursor⟩

private theorem restoring_advances {body : DbM Value} (advances : Keeps Advanced body) :
    Keeps Advanced (restoringOnFailure
      (fun before after => after.setTables before.tables) body) := by
  intro before outcome after run
  cases outcome with
  | error failure =>
      rcases restoringOnFailure_eq_error.mp run with ⟨inner, bodyRun, restored⟩
      rw [restored]
      exact (advances _ _ _ bodyRun).restore before.tables
  | ok value => exact advances _ _ _ (restoringOnFailure_eq_ok.mp run)

private theorem Paired.restoring {body other : DbM Value}
    (paired : Paired ordered keys view body other) :
    Paired ordered keys view
      (restoringOnFailure (fun before after => after.setTables before.tables) body)
      (restoringOnFailure (fun before after => after.setTables before.tables) other) where
  advances := restoring_advances paired.advances
  otherAdvances := restoring_advances paired.otherAdvances
  inStep := by
    intro left right outcome after agree run fate
    cases outcome with
    | error failure =>
        rcases restoringOnFailure_eq_error.mp run with ⟨inner, bodyRun, restored⟩
        subst restored
        rcases paired.inStep left right _ _ agree bodyRun fate with
          ⟨otherOutcome, otherInner, otherRun, same, _, count⟩
        rw [same.of_error] at otherRun
        exact ⟨_, _, restoringOnFailure_eq_error.mpr ⟨otherInner, otherRun, rfl⟩, rfl,
          agree, count⟩
    | ok value =>
        rcases paired.inStep left right _ _ agree (restoringOnFailure_eq_ok.mp run) fate with
          ⟨otherOutcome, otherInner, otherRun, same, innerAgree, count⟩
        rcases same.of_ok with ⟨otherValue, rfl, viewed⟩
        exact ⟨_, _, restoringOnFailure_eq_ok.mpr otherRun, same, innerAgree, count⟩

theorem Paired.transaction {start finish : Message} {body other : DbM Value}
    (paired : Paired ordered keys view body other) :
    Paired ordered keys view (transaction start finish body)
      (transaction start finish other) := by
  have begun (what : Message) : Paired ordered keys (id : Unit → Unit)
      (query what fun _ => ()) (query what fun _ => ()) :=
    paired_query what fun _ _ _ => rfl
  apply (begun start).bind
  intro _ _ _
  apply Paired.restoring
  apply paired.bind
  intro value otherValue same
  exact (begun finish).bind fun _ _ _ => paired_pure same

theorem paired_forM {Item : Type} {items : List Item} {body other : Item → DbM PUnit}
    (paired : ∀ item, Paired ordered keys id (body item) (other item)) :
    Paired ordered keys id (items.forM body) (items.forM other) := by
  induction items with
  | nil => exact paired_pure rfl
  | cons head rest induction => exact (paired head).bind fun _ _ _ => induction

theorem transaction_cursor {start finish : Message} {body : DbM Value}
    (advances : Keeps Advanced body) {before after : Db} {outcome : Except DbError Value}
    (run : transaction start finish body before = some (outcome, after)) :
    before.cursor < after.cursor := by
  rcases bind_eq_some.mp run with ⟨_, started, began, rest⟩ | ⟨_, began, _⟩
  · have finishes : Keeps Advanced (do
        let value ← body
        query finish fun _ => ()
        return value) :=
      advances.bind Advanced.trans fun value =>
        (execute_advances finish _).bind Advanced.trans fun _ =>
          keeps_pure Advanced.refl value
    have moved := execute_cursor began
    have later := (restoring_advances finishes _ _ _ rest).cursor
    omega
  · have moved := execute_cursor began
    omega

theorem paired_blockOrder (body : Table.Order Int (List UInt8) → DbM Value)
    (paired : ∀ order, Paired True keys view (body order) (body order))
    (moves : ∀ order before outcome after, body order before = some (outcome, after) →
      before.cursor < after.cursor) :
    Paired True keys view (do
        let db ← get
        body db.moment.blockOrder) (do
        let db ← get
        body db.moment.blockOrder) where
  advances := fun before outcome after run => (paired _).advances before outcome after run
  otherAdvances := fun before outcome after run =>
    (paired _).advances before outcome after run
  inStep := by
    intro left right outcome after agree run fate
    have moved := moves left.moment.blockOrder left outcome after run
    have sameOrder : left.moment.blockOrder = right.moment.blockOrder :=
      (fate 0 (by omega)).2 trivial
    rcases (paired left.moment.blockOrder).inStep left right outcome after agree run fate with
      ⟨otherOutcome, otherAfter, otherRun, rest⟩
    rw [sameOrder] at otherRun
    exact ⟨otherOutcome, otherAfter, otherRun, rest⟩

end Pgfs.Db
