import Pgfs.Foundation.Effect

namespace Pgfs.Effect

/-! Two computations side by side. From two related states both end, an observer
cannot tell their outcomes apart, and the states they lead to are related again. -/

variable {State Part Failure Other Value Result Shown Seen : Type}
  {related : State → State → Prop} {left right : State}

def Alike (related : State → State → Prop) (view : Value → Shown) (left right : State)
    (body other : Effect State Failure Value) : Prop :=
  ∃ outcome after otherOutcome otherAfter, body left = some (outcome, after) ∧
    other right = some (otherOutcome, otherAfter) ∧
    outcome.map view = otherOutcome.map view ∧ related after otherAfter

theorem alike_pure {view : Value → Shown} {value other : Value}
    (same : view value = view other) (holds : related left right) :
    Alike related view left right (pure value : Effect State Failure Value) (pure other) :=
  ⟨_, _, _, _, rfl, rfl, congrArg Except.ok same, holds⟩

theorem alike_raise {view : Value → Shown} (failure : Failure) (holds : related left right) :
    Alike related view left right (raise failure : Effect State Failure Value)
      (raise failure) :=
  ⟨_, _, _, _, rfl, rfl, rfl, holds⟩

theorem alike_modify {change otherChange : State → State}
    (holds : related (change left) (otherChange right)) :
    Alike related (id : Unit → Unit) left right
      (modify change : Effect State Failure Unit) (modify otherChange) :=
  ⟨_, _, _, _, rfl, rfl, rfl, holds⟩

theorem alike_get_bind {view : Value → Shown}
    {next otherNext : State → Effect State Failure Value}
    (nextAlike : Alike related view left right (next left) (otherNext right)) :
    Alike related view left right (get >>= next) (get >>= otherNext) := nextAlike

theorem Alike.bind {view : Value → Shown} {seen : Result → Seen}
    {first second : Effect State Failure Value}
    {next otherNext : Value → Effect State Failure Result}
    (firstAlike : Alike related view left right first second)
    (nextAlike : ∀ value other middle otherMiddle, view value = view other →
      related middle otherMiddle →
      Alike related seen middle otherMiddle (next value) (otherNext other)) :
    Alike related seen left right (first >>= next) (second >>= otherNext) := by
  rcases firstAlike with ⟨outcome, middle, otherOutcome, otherMiddle, run, otherRun, same, holds⟩
  cases outcome with
  | error failure =>
      cases otherOutcome with
      | error otherFailure =>
          cases same
          exact ⟨_, _, _, _, bind_of_error run, bind_of_error otherRun, rfl, holds⟩
      | ok other => cases same
  | ok value =>
      cases otherOutcome with
      | error otherFailure => cases same
      | ok other =>
          rcases nextAlike value other middle otherMiddle (Except.ok.inj same) holds with
            ⟨result, after, otherResult, otherAfter, later, otherLater, shown, reached⟩
          exact ⟨result, after, otherResult, otherAfter, (bind_of_ok run).trans later,
            (bind_of_ok otherRun).trans otherLater, shown, reached⟩

theorem Alike.andThen {seen : Result → Seen} {first second : Effect State Failure Value}
    {next otherNext : Value → Effect State Failure Result}
    (firstAlike : Alike related id left right first second)
    (nextAlike : ∀ value middle otherMiddle, related middle otherMiddle →
      Alike related seen middle otherMiddle (next value) (otherNext value)) :
    Alike related seen left right (first >>= next) (second >>= otherNext) := by
  apply firstAlike.bind
  intro value other middle otherMiddle same holds
  cases same
  exact nextAlike value middle otherMiddle holds

theorem Alike.attempt {view : Value → Shown} {body other : Effect State Failure Value}
    (alike : Alike related view left right body other) :
    Alike related (Except.map view) left right
      (attempt body : Effect State Other _) (attempt other) := by
  rcases alike with ⟨outcome, after, otherOutcome, otherAfter, run, otherRun, same, holds⟩
  refine ⟨.ok outcome, after, .ok otherOutcome, otherAfter, ?_, ?_, congrArg Except.ok same,
    holds⟩
  · exact attempt_eq_some.mpr ⟨outcome, rfl, run⟩
  · exact attempt_eq_some.mpr ⟨otherOutcome, rfl, otherRun⟩

theorem Alike.within {part : State → Part} {replace : State → Part → State}
    {partRelated : Part → Part → Prop} {view : Value → Shown}
    {body other : Effect Part Failure Value}
    (alike : Alike partRelated view (part left) (part right) body other)
    (holds : ∀ after otherAfter, partRelated after otherAfter →
      related (replace left after) (replace right otherAfter)) :
    Alike related view left right (within part replace body) (within part replace other) := by
  rcases alike with ⟨outcome, after, otherOutcome, otherAfter, run, otherRun, same, reached⟩
  refine ⟨outcome, _, otherOutcome, _, ?_, ?_, same, holds _ _ reached⟩
  · exact within_eq_some.mpr ⟨after, run, rfl⟩
  · exact within_eq_some.mpr ⟨otherAfter, otherRun, rfl⟩

end Pgfs.Effect
