import Mathlib.Data.List.Basic

namespace Pgfs

/-! Components that share one machine without interfering. Every request is
addressed to one component. What one step has to satisfy, as in an unwinding
proof, and what it says about every interleaving of requests. -/

variable {State Event Reply Shown Component : Type}

def serveAll (step : Event → State → Option (Reply × State)) :
    List Event → State → Option (List Reply × State)
  | [], state => some ([], state)
  | event :: rest, state =>
      (step event state).bind fun (reply, next) =>
        (serveAll step rest next).map fun (replies, final) => (reply :: replies, final)

/-- Serve the requests of several components in the order they arrive; every reply
goes to the component that asked. -/
def serveShared (step : Event → State → Option (Reply × State)) :
    List (Component × Event) → State → Option (List (Component × Reply) × State) :=
  serveAll fun request state =>
    (step request.2 state).map fun (reply, next) => ((request.1, reply), next)

def own [DecidableEq Component] (component : Component) {Item : Type} :
    List (Component × Item) → List Item
  | [] => []
  | (owner, item) :: rest =>
      if owner = component then item :: own component rest else own component rest

@[simp] theorem own_cons_self [DecidableEq Component] (component : Component) {Item : Type}
    (item : Item) (rest : List (Component × Item)) :
    own component ((component, item) :: rest) = item :: own component rest := if_pos rfl

theorem own_cons_of_ne [DecidableEq Component] {component owner : Component}
    (different : owner ≠ component) {Item : Type} (item : Item)
    (rest : List (Component × Item)) :
    own component ((owner, item) :: rest) = own component rest := if_neg different

theorem serveAll_cons {step : Event → State → Option (Reply × State)} {event : Event}
    {rest : List Event} {state next final : State} {reply : Reply} {replies : List Reply}
    (served : step event state = some (reply, next))
    (later : serveAll step rest next = some (replies, final)) :
    serveAll step (event :: rest) state = some (reply :: replies, final) := by
  rw [serveAll, served, Option.bind_some]
  dsimp only
  rw [later]
  rfl

theorem serveShared_cons {step : Event → State → Option (Reply × State)} {event : Event}
    {rest : List (Component × Event)} {state next final : State} {reply : Reply}
    {replies : List (Component × Reply)} (owner : Component)
    (served : step event state = some (reply, next))
    (later : serveShared step rest next = some (replies, final)) :
    serveShared step ((owner, event) :: rest) state =
      some ((owner, reply) :: replies, final) := by
  apply serveAll_cons _ later
  rw [served]
  rfl

/-- The unwinding conditions, for what looks `same` to a component. -/
structure Unwinding (step : Event → State → Option (Reply × State))
    (addressed : Component → Event → Prop) (view : Reply → Shown)
    (same : Component → State → State → Prop) : Prop where
  symm : ∀ {component left right}, same component left right → same component right left
  trans : ∀ {component first second third}, same component first second →
    same component second third → same component first third
  /-- A request of the component itself is served alike in states that look the
  same to it. -/
  consistent : ∀ {component event left right}, same component left right →
    addressed component event →
    ∃ reply next other otherNext, step event left = some (reply, next) ∧
      step event right = some (other, otherNext) ∧ view reply = view other ∧
      same component next otherNext
  /-- A request of another component does not show. -/
  respects : ∀ {component owner event left right reply next}, same component left right →
    same owner left left → owner ≠ component → addressed owner event →
    step event left = some (reply, next) → same component next right

section

variable [DecidableEq Component] {step : Event → State → Option (Reply × State)}
  {addressed : Component → Event → Prop} {view : Reply → Shown}
  {same : Component → State → State → Prop}

private theorem Unwinding.next (unwinding : Unwinding step addressed view same)
    {state next : State} {owner : Component} {event : Event} {reply : Reply}
    (seen : ∀ component, same component state state) (owned : addressed owner event)
    (served : step event state = some (reply, next)) (component : Component) :
    same component next next := by
  by_cases mine : owner = component
  · subst mine
    rcases unwinding.consistent (seen owner) owned with
      ⟨_, first, _, second, run, otherRun, _, reached⟩
    rw [served] at run otherRun
    cases run
    cases otherRun
    exact reached
  · have kept := unwinding.respects (seen component) (seen owner) mine owned served
    exact unwinding.trans kept (unwinding.symm kept)

/-- Whatever the interleaving, a component gets the replies, and ends in a state
that looks to it, as if only its own requests had been served. -/
theorem Unwinding.isolated (unwinding : Unwinding step addressed view same)
    {requests : List (Component × Event)} {shared alone : State} {component : Component}
    (owned : ∀ request ∈ requests, addressed request.1 request.2)
    (seen : ∀ other, same other shared shared) (start : same component shared alone) :
    ∃ replies final ownReplies ownFinal,
      serveShared step requests shared = some (replies, final) ∧
      serveAll step (own component requests) alone = some (ownReplies, ownFinal) ∧
      (own component replies).map view = ownReplies.map view ∧
      same component final ownFinal := by
  induction requests generalizing shared alone with
  | nil => exact ⟨[], shared, [], alone, rfl, rfl, rfl, start⟩
  | cons request rest induction =>
      rcases request with ⟨owner, event⟩
      have ownedHere : addressed owner event := owned (owner, event) List.mem_cons_self
      have ownedLater : ∀ request ∈ rest, addressed request.1 request.2 :=
        fun request member => owned request (List.mem_cons_of_mem _ member)
      rcases unwinding.consistent (seen owner) ownedHere with
        ⟨reply, next, _, _, served, _, _, _⟩
      have seenNext := unwinding.next seen ownedHere served
      by_cases mine : owner = component
      · subst mine
        rcases unwinding.consistent start ownedHere with
          ⟨_, _, other, otherNext, run, otherRun, shown, reached⟩
        rw [served] at run
        cases run
        rcases induction ownedLater seenNext reached with
          ⟨replies, final, ownReplies, ownFinal, later, ownLater, agree, ended⟩
        have ownRun := serveAll_cons otherRun ownLater
        rw [← own_cons_self] at ownRun
        have shownAll : (own owner ((owner, reply) :: replies)).map view =
            (other :: ownReplies).map view := by
          rw [own_cons_self, List.map_cons, List.map_cons, shown, agree]
        exact ⟨_, final, _, ownFinal, serveShared_cons owner served later, ownRun, shownAll,
          ended⟩
      · have kept := unwinding.respects start (seen owner) mine ownedHere served
        rcases induction ownedLater seenNext kept with
          ⟨replies, final, ownReplies, ownFinal, later, ownLater, agree, ended⟩
        rw [← own_cons_of_ne mine event] at ownLater
        rw [← own_cons_of_ne mine reply] at agree
        exact ⟨_, final, ownReplies, ownFinal, serveShared_cons owner served later, ownLater,
          agree, ended⟩

end

end Pgfs
