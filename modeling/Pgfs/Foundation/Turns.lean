import Mathlib.Logic.Function.Basic
import Pgfs.Foundation.Trace

namespace Pgfs

/-! Parties that take turns on one shared state, each with a state of its own. What a
party does in its turn is a step from the shared state and its own to both. -/

structure Turns (Party Shared Own : Type) where
  shared : Shared
  own : Party → Own

namespace Turns

variable {Party Shared Own Label : Type} [DecidableEq Party]

def Step (step : Shared × Own → Label → Shared × Own → Prop)
    (before : Turns Party Shared Own) (turn : Party × Label)
    (after : Turns Party Shared Own) : Prop :=
  step (before.shared, before.own turn.1) turn.2 (after.shared, after.own turn.1) ∧
    ∀ other, other ≠ turn.1 → after.own other = before.own other

variable {step : Shared × Own → Label → Shared × Own → Prop}
  {start finish : Turns Party Shared Own} {turns : List (Party × Label)}

theorem invariant (run : Trace (Step step) start turns finish) (common : Shared → Prop)
    (own : Own → Prop) (initially : common start.shared)
    (ownInitially : ∀ party, own (start.own party))
    (kept : ∀ shared mine label sharedAfter mineAfter, common shared → own mine →
      step (shared, mine) label (sharedAfter, mineAfter) →
      common sharedAfter ∧ own mineAfter) :
    common finish.shared ∧ ∀ party, own (finish.own party) := by
  apply run.invariant (fun state => common state.shared ∧ ∀ party, own (state.own party))
    ⟨initially, ownInitially⟩
  intro before turn after holds taken
  rcases holds with ⟨commonBefore, ownBefore⟩
  have turnKept := kept _ _ _ _ _ commonBefore (ownBefore turn.1) taken.1
  refine ⟨turnKept.1, fun party => ?_⟩
  by_cases same : party = turn.1
  · exact same ▸ turnKept.2
  · rw [taken.2 party same]
    exact ownBefore party

/-! ## Replays -/

section

variable {Ghost : Type}

/-- Let the parties take turns as a function says, as long as the turns are permitted.
Keep a ghost. -/
def replay (take : Shared × Own → Label → Option (Shared × Own))
    (permitted : Turns Party Shared Own → Party × Label → Bool)
    (observe : Turns Party Shared Own → Party × Label → Turns Party Shared Own → Ghost → Ghost) :
    List (Party × Label) → Turns Party Shared Own × Ghost → Option (Turns Party Shared Own × Ghost)
  | [], state => some state
  | turn :: rest, (before, ghost) =>
      match take (before.shared, before.own turn.1) turn.2 with
      | none => none
      | some (shared, mine) =>
          if permitted before turn then
            let after : Turns Party Shared Own := ⟨shared, Function.update before.own turn.1 mine⟩
            replay take permitted observe rest (after, observe before turn after ghost)
          else
            none

theorem exists_watched_of_replay {take : Shared × Own → Label → Option (Shared × Own)}
    {permitted : Turns Party Shared Own → Party × Label → Bool}
    {observe : Turns Party Shared Own → Party × Label → Turns Party Shared Own → Ghost → Ghost}
    {steps : Turns Party Shared Own → Party × Label → Turns Party Shared Own → Prop}
    (sound : ∀ before turn shared mine,
      take (before.shared, before.own turn.1) turn.2 = some (shared, mine) →
      permitted before turn = true →
      steps before turn ⟨shared, Function.update before.own turn.1 mine⟩)
    {turns : List (Party × Label)} {start : Turns Party Shared Own × Ghost}
    {test : Turns Party Shared Own × Ghost → Bool}
    (tested : (replay take permitted observe turns start).any test = true) :
    ∃ final, Trace (Watched steps observe) start turns final ∧ test final = true := by
  induction turns generalizing start with
  | nil => exact ⟨start, .nil, tested⟩
  | cons turn rest induction =>
      rcases start with ⟨before, ghost⟩
      simp only [replay] at tested
      split at tested
      · cases tested
      · rename_i shared mine taken
        split at tested
        · rename_i allowed
          rcases induction tested with ⟨final, run, seen⟩
          exact ⟨final, Trace.append (.snoc .nil ⟨sound _ _ _ _ taken allowed, rfl⟩) run, seen⟩
        · cases tested

end

end Turns

end Pgfs
