import Pgfs.Foundation.Trace

namespace Pgfs

/-! Machines that answer calls one after another, and systems whose steps are the calls
of such a machine or none of its business. -/

/-- A machine: what it answers to a call, and its state afterwards. -/
abbrev Machine (Abstract Call Answer : Type) := Abstract → Call → Answer × Abstract

namespace Machine

variable {Abstract Call Answer State Label : Type}

def after (machine : Machine Abstract Call Answer) (start : Abstract) (calls : List Call) :
    Abstract :=
  calls.foldl (fun state call => (machine state call).2) start

def answers (machine : Machine Abstract Call Answer) : Abstract → List Call → List Answer
  | _, [] => []
  | start, call :: rest =>
      (machine start call).1 :: answers machine (machine start call).2 rest

variable {machine : Machine Abstract Call Answer}

theorem after_concat (start : Abstract) (calls : List Call) (call : Call) :
    machine.after start (calls ++ [call]) = (machine (machine.after start calls) call).2 := by
  simp [after]

theorem answers_concat (start : Abstract) (calls : List Call) (call : Call) :
    machine.answers start (calls ++ [call]) =
      machine.answers start calls ++ [(machine (machine.after start calls) call).1] := by
  induction calls generalizing start with
  | nil => rfl
  | cons first rest induction =>
      simp only [List.cons_append, answers, induction]
      rfl

def keepLog (logged : State → Label → Option (Call × Answer)) (before : State) (label : Label)
    (_ : State) (log : List (Call × Answer)) : List (Call × Answer) :=
  log ++ (logged before label).toList

/-- Steps that are logged do what the machine does, and the others keep its state. -/
structure Refines (machine : Machine Abstract Call Answer) (step : State → Label → State → Prop)
    (logged : State → Label → Option (Call × Answer)) (related : State → Abstract → Prop) :
    Prop where
  served : ∀ before label next abstract call answer, related before abstract →
    step before label next → logged before label = some (call, answer) →
    (machine abstract call).1 = answer ∧ related next (machine abstract call).2
  silent : ∀ before label next abstract, related before abstract → step before label next →
    logged before label = none → related next abstract

/-- The log of a run is a run of the machine. -/
theorem Refines.run {step : State → Label → State → Prop}
    {logged : State → Label → Option (Call × Answer)} {related : State → Abstract → Prop}
    (refines : machine.Refines step logged related) {start finish : State} {initial : Abstract}
    {history : List Label} {log : List (Call × Answer)}
    (run : Trace (Watched step (keepLog logged)) (start, []) history (finish, log))
    (initially : related start initial) :
    log.map (·.2) = machine.answers initial (log.map (·.1)) ∧
      related finish (machine.after initial (log.map (·.1))) := by
  apply run.invariant (fun state =>
    state.2.map (·.2) = machine.answers initial (state.2.map (·.1)) ∧
      related state.1 (machine.after initial (state.2.map (·.1)))) ⟨rfl, initially⟩
  intro before label next holds taken
  rcases before with ⟨state, earlier⟩
  rcases next with ⟨nextState, later⟩
  rcases holds with ⟨answered, stateRelated⟩
  rcases taken with ⟨step, observed⟩
  simp only [keepLog] at observed
  subst observed
  cases known : logged state label with
  | none =>
      simp only [Option.toList_none, List.append_nil]
      exact ⟨answered, refines.silent _ _ _ _ stateRelated step known⟩
  | some entry =>
      rcases entry with ⟨call, answer⟩
      have served := refines.served _ _ _ _ _ _ stateRelated step known
      simp only [Option.toList_some, List.map_append, List.map_cons, List.map_nil,
        answers_concat, after_concat, served.1, answered]
      exact ⟨trivial, served.2⟩

end Machine

end Pgfs
