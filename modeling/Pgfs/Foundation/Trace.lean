import Mathlib.Tactic.Common

namespace Pgfs

/-! Runs of a labelled step relation, and the rules that carry what one step
does over to whole runs. -/

variable {State Label Ghost : Type}

/-- A run from `start` whose steps carry the labels in order. -/
inductive Trace (step : State → Label → State → Prop) (start : State) :
    List Label → State → Prop
  | nil : Trace step start [] start
  | snoc {labels : List Label} {middle : State} {label : Label} {finish : State}
      (earlier : Trace step start labels middle) (last : step middle label finish) :
      Trace step start (labels ++ [label]) finish

namespace Trace

variable {step other : State → Label → State → Prop} {start middle finish : State}
  {labels : List Label}

/-- What holds at the start and is kept by every step holds at the end. -/
theorem invariant (trace : Trace step start labels finish) (holds : State → Prop)
    (initially : holds start)
    (preserved : ∀ before label after, holds before → step before label after →
      holds after) :
    holds finish := by
  induction trace with
  | nil => exact initially
  | snoc _ last induction => exact preserved _ _ _ induction last

theorem mono (trace : Trace step start labels finish)
    (weaken : ∀ before label after, step before label after → other before label after) :
    Trace other start labels finish := by
  induction trace with
  | nil => exact .nil
  | snoc _ last induction => exact .snoc induction (weaken _ _ _ last)

theorem append {later : List Label} (first : Trace step start labels middle)
    (second : Trace step middle later finish) :
    Trace step start (labels ++ later) finish := by
  induction second with
  | nil => simpa using first
  | snoc _ last induction =>
      rw [← List.append_assoc]
      exact .snoc induction last

theorem functional {final : State} (trace : Trace step start labels finish)
    (again : Trace step start labels final)
    (unique : ∀ before label after second, step before label after →
      step before label second → second = after) : final = finish := by
  induction trace generalizing final with
  | nil =>
      generalize whole : [] = labels at again
      cases again with
      | nil => rfl
      | snoc => simp at whole
  | snoc _ last induction =>
      rename_i labels middle label finish earlier
      generalize whole : labels ++ [label] = all at again
      cases again with
      | nil => simp at whole
      | snoc otherEarlier otherLast =>
          rcases List.append_inj' whole rfl with ⟨rfl, same⟩
          cases same
          rw [induction otherEarlier] at otherLast
          exact unique _ _ _ _ last otherLast

/-- A part of the state runs by itself, on what it sees of the labels. -/
theorem project {Part Seen : Type} {partStep : Part → Seen → Part → Prop}
    (trace : Trace step start labels finish) (part : State → Part) (view : Label → Option Seen)
    (moves : ∀ before label after seen, step before label after → view label = some seen →
      partStep (part before) seen (part after))
    (stays : ∀ before label after, step before label after → view label = none →
      part after = part before) :
    Trace partStep (part start) (labels.filterMap view) (part finish) := by
  induction trace with
  | nil => exact .nil
  | snoc _ last induction =>
      rename_i labels middle label finish _
      rw [List.filterMap_append]
      cases shown : view label with
      | none =>
          rw [List.filterMap_cons_none shown, List.filterMap_nil, List.append_nil,
            stays _ _ _ last shown]
          exact induction
      | some seen =>
          rw [List.filterMap_cons_some shown, List.filterMap_nil]
          exact .snoc induction (moves _ _ _ _ last shown)

theorem split {earlier later : List Label} {label : Label}
    (trace : Trace step start (earlier ++ label :: later) finish) :
    ∃ before after, Trace step start earlier before ∧ step before label after := by
  generalize whole : earlier ++ label :: later = labels at trace
  induction trace generalizing later with
  | nil => simp at whole
  | snoc run last induction =>
      rcases List.eq_nil_or_concat later with ended | ⟨rest, final, rfl⟩
      · subst ended
        rcases List.append_inj_right' whole rfl with ⟨⟩
        rw [List.append_cancel_right whole]
        exact ⟨_, _, run, last⟩
      · rw [List.concat_eq_append, ← List.cons_append, ← List.append_assoc] at whole
        exact induction (List.append_inj_left' whole rfl)

theorem cut {earlier later : List Label} (trace : Trace step start (earlier ++ later) finish) :
    ∃ middle, Trace step start earlier middle ∧ Trace step middle later finish := by
  generalize whole : earlier ++ later = labels at trace
  induction trace generalizing later with
  | nil =>
      rcases List.append_eq_nil_iff.mp whole with ⟨rfl, rfl⟩
      exact ⟨_, .nil, .nil⟩
  | snoc run last induction =>
      rcases List.eq_nil_or_concat later with ended | ⟨rest, final, rfl⟩
      · subst ended
        rw [List.append_nil] at whole
        rw [whole]
        exact ⟨_, .snoc run last, .nil⟩
      · rw [List.concat_eq_append, ← List.append_assoc] at whole
        rcases List.append_inj' whole rfl with ⟨same, here⟩
        cases here
        rcases induction same with ⟨middle, first, second⟩
        rw [List.concat_eq_append]
        exact ⟨middle, first, .snoc second last⟩

end Trace

/-- A step relation watched by a ghost: `observe` updates the ghost from the two
states and the label, and restricts nothing. -/
def Watched (step : State → Label → State → Prop)
    (observe : State → Label → State → Ghost → Ghost) :
    State × Ghost → Label → State × Ghost → Prop :=
  fun before label after =>
    step before.1 label after.1 ∧ after.2 = observe before.1 label after.1 before.2

theorem Trace.unwatched {step : State → Label → State → Prop}
    {observe : State → Label → State → Ghost → Ghost} {start finish : State × Ghost}
    {labels : List Label} (trace : Trace (Watched step observe) start labels finish) :
    Trace step start.1 labels finish.1 := by
  induction trace with
  | nil => exact .nil
  | snoc _ last induction => exact .snoc induction last.1

def OpenSince (opens closes : Label → Prop) (history : List Label) : Prop :=
  ∃ earlier label later, history = earlier ++ label :: later ∧ opens label ∧
    ∀ other ∈ later, ¬closes other

theorem not_openSince_nil (opens closes : Label → Prop) : ¬OpenSince opens closes [] := by
  intro isOpen
  rcases isOpen with ⟨earlier, label, later, whole, _⟩
  simp at whole

theorem openSince_snoc {opens closes : Label → Prop} {history : List Label} {label : Label} :
    OpenSince opens closes (history ++ [label]) ↔
      opens label ∨ ¬closes label ∧ OpenSince opens closes history := by
  constructor
  · intro isOpen
    rcases isOpen with ⟨earlier, opener, later, whole, opened, stays⟩
    rcases List.eq_nil_or_concat later with ended | ⟨rest, final, rfl⟩
    · subst ended
      rcases List.append_inj_right' whole rfl with ⟨⟩
      exact .inl opened
    · rw [List.concat_eq_append, ← List.cons_append, ← List.append_assoc] at whole
      rcases List.append_inj' whole rfl with ⟨same, last⟩
      cases last
      refine .inr ⟨stays label (by simp), earlier, opener, rest, same, opened, ?_⟩
      exact fun other member => stays other (by simp [member])
  · intro last
    rcases last with opened | ⟨stays, earlier, opener, later, rfl, opened, remains⟩
    · exact ⟨history, label, [], rfl, opened, by simp⟩
    · refine ⟨earlier, opener, later ++ [label], by simp, opened, ?_⟩
      intro other member
      rcases List.mem_append.mp member with before | here
      · exact remains other before
      · rw [List.mem_singleton.mp here]
        exact stays

end Pgfs
