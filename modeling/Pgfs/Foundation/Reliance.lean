import Pgfs.Foundation.Machine
import Pgfs.Foundation.Turns

namespace Pgfs.Turns

/-! Parties whose calls to a machine take several turns each. What a party has found out
about the shared state in its earlier turns stays true as long as no other party
changes what it relies on. -/

variable {Party Shared Own Label Abstract Call Answer : Type} [DecidableEq Party]

/-- A turn that changes nothing on which another party relies. -/
def RelyingStep (rely : Own → Shared → Shared → Prop)
    (step : Shared × Own → Label → Shared × Own → Prop) (before : Turns Party Shared Own)
    (turn : Party × Label) (after : Turns Party Shared Own) : Prop :=
  Step step before turn after ∧
    ∀ other, other ≠ turn.1 → rely (before.own other) before.shared after.shared

def tagged (machine : Machine Abstract Call Answer) : Machine Abstract (Party × Call) Answer :=
  fun state call => machine state call.2

def decidedBy (decided : Shared × Own → Label → Option (Call × Answer))
    (before : Turns Party Shared Own) (turn : Party × Label) :
    Option ((Party × Call) × Answer) :=
  (decided (before.shared, before.own turn.1) turn.2).map fun entry =>
    ((turn.1, entry.1), entry.2)

section

variable {machine : Machine Abstract Call Answer}
  {step : Shared × Own → Label → Shared × Own → Prop} {rely : Own → Shared → Shared → Prop}
  {decided : Shared × Own → Label → Option (Call × Answer)}
  {common : Shared → Abstract → Prop} {own : Shared → Own → Prop}

private theorem own_after {before after : Turns Party Shared Own} {turn : Party × Label}
    (stable : ∀ mine shared next, own shared mine → rely mine shared next → own next mine)
    (taken : RelyingStep rely step before turn after)
    (owns : ∀ party, own before.shared (before.own party))
    (mine : own after.shared (after.own turn.1)) (party : Party) :
    own after.shared (after.own party) := by
  by_cases same : party = turn.1
  · exact same ▸ mine
  · rw [taken.1.2 party same]
    exact stable _ _ _ (owns party) (taken.2 party same)

/-- If each party on its own refines the machine, and what it knows depends only on what
it relies on, then all of them together refine it. -/
theorem refines_of_reliance
    (stable : ∀ mine shared next, own shared mine → rely mine shared next → own next mine)
    (refines : machine.Refines step decided fun state abstract =>
      common state.1 abstract ∧ own state.1 state.2) :
    (tagged machine).Refines (RelyingStep rely step)
      (fun (before : Turns Party Shared Own) => decidedBy decided before)
      fun state abstract => common state.shared abstract ∧
        ∀ party, own state.shared (state.own party) where
  served before turn after abstract call answer holds taken logged := by
    rcases Option.map_eq_some_iff.mp logged with ⟨⟨made, given⟩, found, equal⟩
    cases equal
    have done := refines.served _ _ _ _ _ _ ⟨holds.1, holds.2 turn.1⟩ taken.1.1 found
    exact ⟨done.1, done.2.1, own_after stable taken holds.2 done.2.2⟩
  silent before turn after abstract holds taken logged := by
    have none := Option.map_eq_none_iff.mp logged
    have done := refines.silent _ _ _ _ ⟨holds.1, holds.2 turn.1⟩ taken.1.1 none
    exact ⟨done.1, own_after stable taken holds.2 done.2⟩

end

/-! ## Replies -/

def answersOf (party : Party) (log : List ((Party × Call) × Answer)) : List Answer :=
  log.filterMap fun entry => if entry.1.1 = party then some entry.2 else none

def repliesOf (replied : Label → Option Answer) (party : Party)
    (turns : List (Party × Label)) : List Answer :=
  turns.filterMap fun turn => if turn.1 = party then replied turn.2 else none

theorem answersOf_append (party : Party) (earlier later : List ((Party × Call) × Answer)) :
    answersOf party (earlier ++ later) = answersOf party earlier ++ answersOf party later :=
  List.filterMap_append

theorem repliesOf_concat (replied : Label → Option Answer) (party : Party)
    (earlier : List (Party × Label)) (turn : Party × Label) :
    repliesOf replied party (earlier ++ [turn]) = repliesOf replied party earlier ++
      if turn.1 = party then (replied turn.2).toList else [] := by
  unfold repliesOf
  rw [List.filterMap_append]
  by_cases mine : turn.1 = party
  · cases given : replied turn.2 <;> simp [mine, given]
  · simp [mine]

theorem answersOf_decidedBy (decided : Shared × Own → Label → Option (Call × Answer))
    (party : Party) (before : Turns Party Shared Own) (turn : Party × Label) :
    answersOf party (decidedBy decided before turn).toList = if turn.1 = party then
      ((decided (before.shared, before.own turn.1) turn.2).map (·.2)).toList else [] := by
  unfold answersOf decidedBy
  cases decided (before.shared, before.own turn.1) turn.2 with
  | none => simp
  | some entry =>
      by_cases mine : turn.1 = party
      · simp [mine]
      · simp [mine]

/-- Parties that decide when nothing is left to reply, and reply what they have decided,
have given all replies that were decided but those that are pending. -/
theorem replies_as_decided {step : Turns Party Shared Own → Party × Label →
      Turns Party Shared Own → Prop}
    {decided : Shared × Own → Label → Option (Call × Answer)} {pending : Own → Option Answer}
    {replied : Label → Option Answer} {start finish : Turns Party Shared Own}
    {turns : List (Party × Label)} {log : List ((Party × Call) × Answer)}
    (run : Trace (Watched step (Machine.keepLog (decidedBy decided))) (start, []) turns
      (finish, log))
    (idle : ∀ party, pending (start.own party) = none)
    (others : ∀ before turn after, step before turn after →
      ∀ other, other ≠ turn.1 → after.own other = before.own other)
    (flow : ∀ before turn after, step before turn after →
      (pending (before.own turn.1)).toList ++
          ((decided (before.shared, before.own turn.1) turn.2).map (·.2)).toList =
        (replied turn.2).toList ++ (pending (after.own turn.1)).toList)
    (party : Party) :
    answersOf party log = repliesOf replied party turns ++ (pending (finish.own party)).toList := by
  generalize final : (finish, log) = last at run
  induction run generalizing finish log with
  | nil =>
      cases final
      simp [answersOf, repliesOf, idle party]
  | @snoc earlier middle turn after before taken induction =>
      rcases middle with ⟨state, kept⟩
      subst final
      rcases taken with ⟨stepped, observed⟩
      have logged : log = kept ++ (decidedBy decided state turn).toList := observed
      rw [logged, answersOf_append, answersOf_decidedBy, repliesOf_concat, induction rfl]
      by_cases mine : turn.1 = party
      · subst mine
        rw [if_pos rfl, if_pos rfl, List.append_assoc, List.append_assoc,
          flow _ _ _ stepped]
      · rw [if_neg mine, if_neg mine, List.append_nil, List.append_nil,
          others _ _ _ stepped party (Ne.symm mine)]

end Pgfs.Turns
