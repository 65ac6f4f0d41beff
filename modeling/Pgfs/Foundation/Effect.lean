import Mathlib.Data.Finmap

namespace Pgfs

/-! Stateful computations that can fail or take the whole process down. -/

/-- A computation over a state. It either aborts the process (`none`), or ends
with a value or a failure and the state it leaves behind. A failure keeps the
state, so rolling back is something a computation does explicitly. -/
def Effect (State Failure Value : Type) : Type :=
  State → Option (Except Failure Value × State)

namespace Effect

variable {State Failure Other Value Result : Type}

instance : Monad (Effect State Failure) where
  pure value := fun state => some (.ok value, state)
  bind first next := fun state =>
    match first state with
    | none => none
    | some (.error failure, state) => some (.error failure, state)
    | some (.ok value, state) => next value state

def raise (failure : Failure) : Effect State Failure Value :=
  fun state => some (.error failure, state)

def get : Effect State Failure State :=
  fun state => some (.ok state, state)

def modify (change : State → State) : Effect State Failure Unit :=
  fun state => some (.ok (), change state)

/-- A missing value aborts the process. -/
def orAbort (value : Option Value) : Effect State Failure Value :=
  fun state => value.map fun value => (.ok value, state)

def attempt (body : Effect State Failure Value) :
    Effect State Other (Except Failure Value) :=
  fun state => (body state).map fun outcome => (.ok outcome.1, outcome.2)

/-- Restore what `restore` takes from the starting state when the body fails. -/
def restoringOnFailure (restore : State → State → State)
    (body : Effect State Failure Value) : Effect State Failure Value :=
  fun before =>
    match body before with
    | some (.error failure, after) => some (.error failure, restore before after)
    | outcome => outcome

def within {Part : Type} (part : State → Part) (replace : State → Part → State)
    (body : Effect Part Failure Value) : Effect State Failure Value :=
  fun state => (body (part state)).map fun outcome =>
    (outcome.1, replace state outcome.2)

/-! ## Evaluation -/

@[simp] theorem pure_apply (value : Value) (state : State) :
    (pure value : Effect State Failure Value) state = some (.ok value, state) := rfl

@[simp] theorem raise_apply (failure : Failure) (state : State) :
    (raise failure : Effect State Failure Value) state =
      some (.error failure, state) := rfl

@[simp] theorem get_apply (state : State) :
    (get : Effect State Failure State) state = some (.ok state, state) := rfl

@[simp] theorem modify_apply (change : State → State) (state : State) :
    (modify change : Effect State Failure Unit) state =
      some (.ok (), change state) := rfl

@[simp] theorem orAbort_some (value : Value) (state : State) :
    (orAbort (some value) : Effect State Failure Value) state =
      some (.ok value, state) := rfl

@[simp] theorem orAbort_none (state : State) :
    (orAbort none : Effect State Failure Value) state = none := rfl

theorem bind_apply (first : Effect State Failure Value)
    (next : Value → Effect State Failure Result) (state : State) :
    (first >>= next) state =
      match first state with
      | none => none
      | some (.error failure, state) => some (.error failure, state)
      | some (.ok value, state) => next value state := rfl

@[simp] theorem pure_bind (value : Value) (next : Value → Effect State Failure Result) :
    pure value >>= next = next value := rfl

@[simp] theorem raise_bind (failure : Failure)
    (next : Value → Effect State Failure Result) :
    (raise failure >>= next) = raise failure := rfl

theorem bind_bind {Last : Type} (first : Effect State Failure Value)
    (next : Value → Effect State Failure Result) (last : Result → Effect State Failure Last) :
    first >>= next >>= last = first >>= fun value => next value >>= last := by
  funext state
  simp only [bind_apply]
  rcases first state with _ | ⟨_ | value, middle⟩ <;> rfl

theorem bind_of_ok {first : Effect State Failure Value}
    {next : Value → Effect State Failure Result} {before middle : State}
    {value : Value} (firstOk : first before = some (.ok value, middle)) :
    (first >>= next) before = next value middle := by
  rw [bind_apply, firstOk]

theorem bind_of_error {first : Effect State Failure Value}
    {next : Value → Effect State Failure Result} {before middle : State}
    {failure : Failure} (firstFails : first before = some (.error failure, middle)) :
    (first >>= next) before = some (.error failure, middle) := by
  rw [bind_apply, firstFails]

/-! ## Inversion -/

theorem bind_eq_some {first : Effect State Failure Value}
    {next : Value → Effect State Failure Result} {before after : State}
    {outcome : Except Failure Result} :
    (first >>= next) before = some (outcome, after) ↔
      (∃ value middle, first before = some (.ok value, middle) ∧
        next value middle = some (outcome, after)) ∨
      (∃ failure, first before = some (.error failure, after) ∧
        outcome = .error failure) := by
  rw [bind_apply]
  rcases first before with _ | ⟨failure | value, middle⟩
  · simp
  · simp only [Option.some.injEq, Prod.mk.injEq, Except.error.injEq]
    constructor
    · rintro ⟨rfl, rfl⟩
      exact .inr ⟨failure, ⟨rfl, rfl⟩, rfl⟩
    · rintro (⟨_, _, ⟨equal, _⟩, _⟩ | ⟨_, ⟨rfl, rfl⟩, rfl⟩)
      · cases equal
      · exact ⟨rfl, rfl⟩
  · constructor
    · intro rest
      exact .inl ⟨value, middle, rfl, rest⟩
    · rintro (⟨_, _, equal, rest⟩ | ⟨_, equal, _⟩)
      · cases equal
        exact rest
      · cases equal

theorem bind_eq_ok {first : Effect State Failure Value}
    {next : Value → Effect State Failure Result} {before after : State}
    {result : Result} :
    (first >>= next) before = some (.ok result, after) ↔
      ∃ value middle, first before = some (.ok value, middle) ∧
        next value middle = some (.ok result, after) := by
  rw [bind_eq_some]
  simp

theorem attempt_eq_some {body : Effect State Failure Value}
    {before after : State} {outcome : Except Other (Except Failure Value)} :
    (attempt body : Effect State Other _) before = some (outcome, after) ↔
      ∃ inner, outcome = .ok inner ∧ body before = some (inner, after) := by
  unfold attempt
  rcases body before with _ | ⟨inner, state⟩
  · simp
  · simp only [Option.map_some, Option.some.injEq, Prod.mk.injEq]
    constructor
    · rintro ⟨rfl, rfl⟩
      exact ⟨inner, rfl, rfl, rfl⟩
    · rintro ⟨_, rfl, rfl, rfl⟩
      exact ⟨rfl, rfl⟩

theorem within_eq_some {Part : Type} {part : State → Part}
    {replace : State → Part → State} {body : Effect Part Failure Value}
    {before after : State} {outcome : Except Failure Value} :
    within part replace body before = some (outcome, after) ↔
      ∃ inner, body (part before) = some (outcome, inner) ∧
        after = replace before inner := by
  unfold within
  rcases body (part before) with _ | ⟨first, inner⟩
  · simp
  · simp only [Option.map_some, Option.some.injEq, Prod.mk.injEq]
    constructor
    · rintro ⟨rfl, rfl⟩
      exact ⟨inner, ⟨rfl, rfl⟩, rfl⟩
    · rintro ⟨_, ⟨rfl, rfl⟩, rfl⟩
      exact ⟨rfl, rfl⟩

theorem restoringOnFailure_eq_ok {restore : State → State → State}
    {body : Effect State Failure Value} {before after : State} {value : Value} :
    restoringOnFailure restore body before = some (.ok value, after) ↔
      body before = some (.ok value, after) := by
  unfold restoringOnFailure
  rcases body before with _ | ⟨failure | inner, state⟩ <;> simp

theorem restoringOnFailure_eq_error {restore : State → State → State}
    {body : Effect State Failure Value} {before after : State}
    {failure : Failure} :
    restoringOnFailure restore body before = some (.error failure, after) ↔
      ∃ inner, body before = some (.error failure, inner) ∧
        after = restore before inner := by
  unfold restoringOnFailure
  rcases body before with _ | ⟨inner | value, state⟩
  · simp
  · simp only [Option.some.injEq, Prod.mk.injEq, Except.error.injEq]
    constructor
    · rintro ⟨rfl, rfl⟩
      exact ⟨state, ⟨rfl, rfl⟩, rfl⟩
    · rintro ⟨_, ⟨rfl, rfl⟩, rfl⟩
      exact ⟨rfl, rfl⟩
  · simp

/-! ## Relations kept by a computation -/

def Keeps (relation : State → State → Prop)
    (body : Effect State Failure Value) : Prop :=
  ∀ before outcome after, body before = some (outcome, after) →
    relation before after

section Keeps

variable {relation : State → State → Prop}

theorem keeps_pure (reflexive : ∀ state, relation state state) (value : Value) :
    Keeps relation (pure value : Effect State Failure Value) := by
  intro before outcome after run
  simp only [pure_apply, Option.some.injEq, Prod.mk.injEq] at run
  exact run.2 ▸ reflexive before

theorem keeps_raise (reflexive : ∀ state, relation state state)
    (failure : Failure) :
    Keeps relation (raise failure : Effect State Failure Value) := by
  intro before outcome after run
  simp only [raise_apply, Option.some.injEq, Prod.mk.injEq] at run
  exact run.2 ▸ reflexive before

theorem Keeps.bind
    (transitive : ∀ first second third,
      relation first second → relation second third → relation first third)
    {first : Effect State Failure Value}
    {next : Value → Effect State Failure Result}
    (firstKeeps : Keeps relation first)
    (nextKeeps : ∀ value, Keeps relation (next value)) :
    Keeps relation (first >>= next) := by
  intro before outcome after run
  rcases bind_eq_some.mp run with ⟨value, middle, firstRun, nextRun⟩ | ⟨_, firstRun, _⟩
  · exact transitive _ _ _ (firstKeeps _ _ _ firstRun) (nextKeeps _ _ _ _ nextRun)
  · exact firstKeeps _ _ _ firstRun

end Keeps

/-! ## Computations that never abort -/

def Total (body : Effect State Failure Value) : Prop :=
  ∀ before, ∃ outcome after, body before = some (outcome, after)

theorem total_pure (value : Value) :
    Total (pure value : Effect State Failure Value) :=
  fun before => ⟨.ok value, before, rfl⟩

theorem total_raise (failure : Failure) :
    Total (raise failure : Effect State Failure Value) :=
  fun before => ⟨.error failure, before, rfl⟩

theorem total_get : Total (get : Effect State Failure State) :=
  fun before => ⟨.ok before, before, rfl⟩

theorem total_modify (change : State → State) :
    Total (modify change : Effect State Failure Unit) :=
  fun before => ⟨.ok (), change before, rfl⟩

theorem total_orAbort {value : Option Value} (present : value.isSome) :
    Total (orAbort value : Effect State Failure Value) := by
  rcases Option.isSome_iff_exists.mp present with ⟨inner, rfl⟩
  exact fun before => ⟨.ok inner, before, rfl⟩

theorem Total.bind {first : Effect State Failure Value}
    {next : Value → Effect State Failure Result} (firstTotal : Total first)
    (nextTotal : ∀ value, Total (next value)) : Total (first >>= next) := by
  intro before
  rcases firstTotal before with ⟨failure | value, middle, firstRun⟩
  · exact ⟨.error failure, middle, bind_of_error firstRun⟩
  · rcases nextTotal value middle with ⟨outcome, after, nextRun⟩
    exact ⟨outcome, after, (bind_of_ok firstRun).trans nextRun⟩

theorem Total.attempt {body : Effect State Failure Value} (total : Total body) :
    Total (attempt body : Effect State Other _) := by
  intro before
  rcases total before with ⟨outcome, after, run⟩
  exact ⟨_, after, attempt_eq_some.mpr ⟨outcome, rfl, run⟩⟩

theorem Total.within {Part : Type} {part : State → Part} {replace : State → Part → State}
    {body : Effect Part Failure Value} (total : Total body) :
    Total (within part replace body) := by
  intro before
  rcases total (part before) with ⟨outcome, after, run⟩
  exact ⟨outcome, replace before after, within_eq_some.mpr ⟨after, run, rfl⟩⟩

theorem Total.restoringOnFailure {restore : State → State → State}
    {body : Effect State Failure Value} (total : Total body) :
    Total (restoringOnFailure restore body) := by
  intro before
  unfold Effect.restoringOnFailure
  rcases total before with ⟨failure | value, after, run⟩
  · exact ⟨.error failure, restore before after, by rw [run]⟩
  · exact ⟨.ok value, after, by rw [run]⟩

theorem total_forM {Item : Type} {items : List Item}
    {body : Item → Effect State Failure PUnit}
    (total : ∀ item ∈ items, Total (body item)) : Total (items.forM body) := by
  induction items with
  | nil => exact total_pure _
  | cons head tail induction =>
      exact (total head (by simp)).bind fun _ =>
        induction fun item member => total item (by simp [member])

end Effect

end Pgfs
