import Pgfs.Foundation.Effect

namespace Pgfs.Effect

/-! A computation, and the same with something about its state changed. Where it does
not depend on what was changed it does the same, and the state that it leads to is
changed in the same way. -/

variable {State Part Failure Other Value Result Shown Seen Item : Type}

inductive SameShape (failures : Failure → Failure → Prop) (view : Value → Shown) :
    Except Failure Value → Except Failure Value → Prop
  | ok {value other : Value} (same : view value = view other) :
      SameShape failures view (.ok value) (.ok other)
  | error {failure other : Failure} (similar : failures failure other) :
      SameShape failures view (.error failure) (.error other)

theorem SameShape.eq {outcome other : Except Failure Value}
    (alike : SameShape Eq id outcome other) : other = outcome := by
  cases alike with
  | ok same => exact congrArg Except.ok same.symm
  | error same => exact congrArg Except.error same.symm

def Mirrors (change : State → State) (failures : Failure → Failure → Prop)
    (view : Value → Shown) (state : State) (body other : Effect State Failure Value) : Prop :=
  ∀ outcome next, body state = some (outcome, next) → ∃ otherOutcome,
    other (change state) = some (otherOutcome, change next) ∧
      SameShape failures view outcome otherOutcome

variable {change : State → State} {failures : Failure → Failure → Prop}
  {view : Value → Shown} {state : State}

theorem mirrors_pure {value other : Value} (same : view value = view other) :
    Mirrors change failures view state (pure value) (pure other) := by
  intro outcome next run
  cases run
  exact ⟨_, rfl, .ok same⟩

theorem mirrors_raise {failure other : Failure} (similar : failures failure other) :
    Mirrors change failures view state (raise failure) (raise other) := by
  intro outcome next run
  cases run
  exact ⟨_, rfl, .error similar⟩

theorem mirrors_orAbort (value : Option Value) :
    Mirrors change failures (id : Value → Value) state
      (orAbort value : Effect State Failure Value) (orAbort value) := by
  intro outcome next run
  cases value with
  | none => cases run
  | some value =>
      cases run
      exact ⟨_, rfl, .ok rfl⟩

theorem mirrors_modify {update otherUpdate : State → State}
    (same : otherUpdate (change state) = change (update state)) :
    Mirrors change failures (id : Unit → Unit) state
      (modify update : Effect State Failure Unit) (modify otherUpdate) := by
  intro outcome next run
  cases run
  refine ⟨.ok (), ?_, .ok rfl⟩
  rw [modify_apply, same]

theorem mirrors_get_bind {next otherNext : State → Effect State Failure Value}
    (nextMirrors : Mirrors change failures view state (next state) (otherNext (change state))) :
    Mirrors change failures view state (get >>= next) (get >>= otherNext) := nextMirrors

theorem Mirrors.bind {seen : Result → Seen} {first second : Effect State Failure Value}
    {next otherNext : Value → Effect State Failure Result}
    (firstMirrors : Mirrors change failures view state first second)
    (nextMirrors : ∀ value other middle, view value = view other →
      first state = some (.ok value, middle) →
      Mirrors change failures seen middle (next value) (otherNext other)) :
    Mirrors change failures seen state (first >>= next) (second >>= otherNext) := by
  intro outcome last run
  rcases bind_eq_some.mp run with
    ⟨value, middle, firstRun, nextRun⟩ | ⟨failure, firstRun, failed⟩
  · rcases firstMirrors _ _ firstRun with ⟨_, otherRun, ⟨same⟩⟩
    rcases nextMirrors _ _ middle same firstRun _ _ nextRun with ⟨otherOutcome, later, alike⟩
    exact ⟨otherOutcome, (bind_of_ok otherRun).trans later, alike⟩
  · rcases firstMirrors _ _ firstRun with ⟨otherOutcome, otherRun, alike⟩
    cases alike with
    | error similar => exact ⟨_, bind_of_error otherRun, failed ▸ .error similar⟩

theorem Mirrors.andThen {seen : Result → Seen} {first second : Effect State Failure Value}
    {next otherNext : Value → Effect State Failure Result}
    (firstMirrors : Mirrors change failures id state first second)
    (nextMirrors : ∀ value middle, first state = some (.ok value, middle) →
      Mirrors change failures seen middle (next value) (otherNext value)) :
    Mirrors change failures seen state (first >>= next) (second >>= otherNext) := by
  apply firstMirrors.bind
  intro value other middle same
  cases same
  exact nextMirrors value middle

theorem mirrors_modify_bind {seen : Value → Seen} {update otherUpdate : State → State}
    {next otherNext : Unit → Effect State Failure Value}
    (same : otherUpdate (change state) = change (update state))
    (nextMirrors : Mirrors change failures seen (update state) (next ()) (otherNext ())) :
    Mirrors change failures seen state (modify update >>= next)
      (modify otherUpdate >>= otherNext) := by
  apply (mirrors_modify same).andThen
  intro _ _ run
  cases run
  exact nextMirrors

theorem mirrors_forM {items : List Item} {act otherAct : Item → Effect State Failure Unit}
    (actMirrors : ∀ item ∈ items, ∀ middle,
      Mirrors change failures id middle (act item) (otherAct item)) :
    Mirrors change failures id state (items.forM act) (items.forM otherAct) := by
  induction items generalizing state with
  | nil => exact mirrors_pure rfl
  | cons item rest induction =>
      apply (actMirrors item List.mem_cons_self state).andThen
      intro _ middle _
      exact induction fun other member => actMirrors other (List.mem_cons_of_mem _ member)

theorem Mirrors.attempt_same {body other : Effect State Failure Value}
    {others : Other → Other → Prop} (mirrors : Mirrors change Eq id state body other) :
    Mirrors change others (id : Except Failure Value → Except Failure Value) state
      (attempt body : Effect State Other _) (attempt other) := by
  intro outcome next run
  rcases attempt_eq_some.mp run with ⟨inner, rfl, innerRun⟩
  rcases mirrors _ _ innerRun with ⟨otherOutcome, otherRun, alike⟩
  exact ⟨.ok otherOutcome, attempt_eq_some.mpr ⟨otherOutcome, rfl, otherRun⟩, .ok alike.eq.symm⟩

theorem Mirrors.attempt {body other : Effect State Failure Value}
    {others : Other → Other → Prop} (mirrors : Mirrors change failures id state body other) :
    Mirrors change others (Except.toOption : Except Failure Value → Option Value) state
      (attempt body : Effect State Other _) (attempt other) := by
  intro outcome next run
  rcases attempt_eq_some.mp run with ⟨inner, rfl, innerRun⟩
  rcases mirrors _ _ innerRun with ⟨otherOutcome, otherRun, alike⟩
  refine ⟨.ok otherOutcome, attempt_eq_some.mpr ⟨otherOutcome, rfl, otherRun⟩, .ok ?_⟩
  cases alike with
  | ok same => exact congrArg some same
  | error => rfl

theorem Mirrors.bindOutcome {seen : Result → Seen}
    {first second : Effect State Failure (Except Other Value)}
    {next otherNext : Except Other Value → Effect State Failure Result}
    (firstMirrors : Mirrors change failures Except.toOption state first second)
    (onOk : ∀ value middle,
      Mirrors change failures seen middle (next (.ok value)) (otherNext (.ok value)))
    (onError : ∀ failure other middle,
      Mirrors change failures seen middle (next (.error failure)) (otherNext (.error other))) :
    Mirrors change failures seen state (first >>= next) (second >>= otherNext) := by
  apply firstMirrors.bind
  intro outcome other middle same _
  cases outcome with
  | ok value =>
      cases other with
      | ok otherValue =>
          cases same
          exact onOk value middle
      | error failure => cases same
  | error failure =>
      cases other with
      | ok otherValue => cases same
      | error otherFailure => exact onError failure otherFailure middle

theorem Mirrors.within {part : State → Part} {replace : State → Part → State}
    {partChange : Part → Part} {body other : Effect Part Failure Value}
    (mirrors : Mirrors partChange failures view (part state) body other)
    (here : part (change state) = partChange (part state))
    (there : ∀ after, replace (change state) (partChange after) = change (replace state after)) :
    Mirrors change failures view state (within part replace body) (within part replace other) := by
  intro outcome next run
  rcases within_eq_some.mp run with ⟨after, bodyRun, rfl⟩
  rcases mirrors _ _ bodyRun with ⟨otherOutcome, otherRun, alike⟩
  refine ⟨otherOutcome, within_eq_some.mpr ⟨partChange after, ?_, ?_⟩, alike⟩
  · rw [here]
    exact otherRun
  · exact (there after).symm

theorem mirrors_restoringOnFailure {restore : State → State → State}
    {body other : Effect State Failure Value}
    (bodyMirrors : ∀ outcome next, body state = some (outcome, next) →
      ∃ otherOutcome otherNext, other (change state) = some (otherOutcome, otherNext) ∧
        SameShape failures view outcome otherOutcome ∧
        (outcome.isOk = true → otherNext = change next) ∧
        restore (change state) otherNext = change (restore state next)) :
    Mirrors change failures view state (restoringOnFailure restore body)
      (restoringOnFailure restore other) := by
  intro outcome last run
  cases outcome with
  | ok value =>
      have bodyRun := restoringOnFailure_eq_ok.mp run
      rcases bodyMirrors _ _ bodyRun with ⟨otherOutcome, otherNext, otherRun, alike, same, _⟩
      rw [same rfl] at otherRun
      cases alike with
      | ok shown => exact ⟨_, restoringOnFailure_eq_ok.mpr otherRun, .ok shown⟩
  | error failure =>
      rcases restoringOnFailure_eq_error.mp run with ⟨inner, bodyRun, rfl⟩
      rcases bodyMirrors _ _ bodyRun with ⟨otherOutcome, otherNext, otherRun, alike, _, same⟩
      cases alike with
      | error similar =>
          exact ⟨_, restoringOnFailure_eq_error.mpr ⟨otherNext, otherRun, same.symm⟩,
            .error similar⟩

end Pgfs.Effect
