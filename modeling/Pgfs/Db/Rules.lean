import Pgfs.Db.Connection

namespace Pgfs.Db

open Effect

/-! Rules for reasoning about database methods. A method is described by what it
leaves in the tables when it succeeds, and by what can make it fail when the
primary fails no statement. -/

def Quiet (db : Db) : Prop := ∀ index, (db.world index).fails = false

theorem Quiet.advance {db : Db} (quiet : Quiet db) : Quiet db.advance := quiet

def SameWorld (before after : Db) : Prop :=
  after.world = before.world ∧ after.replica = before.replica

theorem SameWorld.refl (db : Db) : SameWorld db db := ⟨rfl, rfl⟩

theorem SameWorld.trans {first second third : Db} (left : SameWorld first second)
    (right : SameWorld second third) : SameWorld first third :=
  ⟨right.1.trans left.1, right.2.trans left.2⟩

theorem SameWorld.quiet {before after : Db} (same : SameWorld before after)
    (quiet : Quiet before) : Quiet after := by
  intro index
  rw [same.1]
  exact quiet index

/-- Part of a transaction: `post` holds of the result and the tables on
success, and without a failing statement only `excuse` explains a failure. -/
def Inside (before : Db) (body : DbM Value) (post : Value → Tables → Prop)
    (excuse : Prop) : Prop :=
  ∀ outcome after, body before = some (outcome, after) →
    SameWorld before after ∧
      match outcome with
      | .ok value => post value after.tables
      | .error _ => Quiet before → excuse

/-- A method that moreover leaves the tables as they were when it fails. -/
def Atomic (before : Db) (body : DbM Value) (post : Value → Tables → Prop)
    (excuse : Prop) : Prop :=
  ∀ outcome after, body before = some (outcome, after) →
    SameWorld before after ∧
      match outcome with
      | .ok value => post value after.tables
      | .error _ => after.tables = before.tables ∧ (Quiet before → excuse)

variable {before : Db} {post other : Value → Tables → Prop} {excuse : Prop}

theorem Atomic.inside {body : DbM Value} (atomic : Atomic before body post excuse) :
    Inside before body post excuse := by
  rintro (failure | value) after run
  · exact ⟨(atomic _ _ run).1, (atomic _ _ run).2.2⟩
  · exact atomic _ _ run

theorem Atomic.imp {body : DbM Value} {weaker : Prop}
    (atomic : Atomic before body post excuse)
    (weaken : ∀ value tables, post value tables → other value tables)
    (excused : excuse → weaker) : Atomic before body other weaker := by
  rintro (failure | value) after run
  · have outcome := atomic _ _ run
    exact ⟨outcome.1, outcome.2.1, fun quiet => excused (outcome.2.2 quiet)⟩
  · exact ⟨(atomic _ _ run).1, weaken _ _ (atomic _ _ run).2⟩

theorem Inside.imp {body : DbM Value} {weaker : Prop}
    (inside : Inside before body post excuse)
    (weaken : ∀ value tables, post value tables → other value tables)
    (excused : excuse → weaker) : Inside before body other weaker := by
  rintro (failure | value) after run
  · have outcome := inside _ _ run
    exact ⟨outcome.1, fun quiet => excused (outcome.2 quiet)⟩
  · exact ⟨(inside _ _ run).1, weaken _ _ (inside _ _ run).2⟩

theorem atomic_pure {value : Value} (holds : post value before.tables) :
    Atomic before (pure value) post excuse := by
  intro outcome after run
  cases run
  exact ⟨.refl _, holds⟩

theorem inside_pure {value : Value} (holds : post value before.tables) :
    Inside before (pure value) post excuse :=
  (atomic_pure holds).inside

theorem atomic_raise {failure : DbError} (excused : excuse) :
    Atomic before (raise failure) post excuse := by
  intro outcome after run
  cases run
  exact ⟨.refl _, rfl, fun _ => excused⟩

theorem atomic_get {post : Db → Tables → Prop} (holds : post before before.tables) :
    Atomic before get post excuse := by
  intro outcome after run
  cases run
  exact ⟨.refl _, holds⟩

theorem atomic_orAbort {value : Option Value}
    (holds : ∀ inner, value = some inner → post inner before.tables) :
    Atomic before (orAbort value) post excuse := by
  cases value with
  | none =>
      intro outcome after run
      cases run
  | some inner =>
      intro outcome after run
      cases run
      exact ⟨.refl _, holds inner rfl⟩

theorem execute_atomic {what : Message}
    {statement : Moment → Tables → Option (Value × Tables)}
    (holds : ∀ value tables, statement before.moment before.tables =
      some (value, tables) → post value tables)
    (excused : statement before.moment before.tables = none → excuse) :
    Atomic before (execute what statement) post excuse := by
  intro outcome after run
  unfold execute at run
  split at run
  · rename_i fails
    cases run
    exact ⟨⟨rfl, rfl⟩, rfl, fun quiet => by simp [moment, quiet before.cursor] at fails⟩
  · split at run
    · rename_i violated
      cases run
      exact ⟨⟨rfl, rfl⟩, rfl, fun _ => excused violated⟩
    · rename_i value tables executed
      cases run
      exact ⟨⟨rfl, rfl⟩, holds value tables executed⟩

theorem update_apply (what : Message) (change : Moment → Tables → Tables) (before : Db) :
    update what change before =
      if before.moment.fails then
        some (.error (.ctx what), before.advance)
      else
        some (.ok (), before.advance.setTables (change before.moment before.tables)) := rfl

theorem query_apply (what : Message) (read : Tables → Value) (before : Db) :
    query what read before =
      if before.moment.fails then
        some (.error (.ctx what), before.advance)
      else
        some (.ok (read before.tables), before.advance) := rfl

theorem query_atomic {what : Message} {read : Tables → Value}
    (holds : post (read before.tables) before.tables) :
    Atomic before (query what read) post excuse := by
  apply execute_atomic
  · rintro value tables equal
    cases equal
    exact holds
  · intro equal
    cases equal

theorem update_atomic {what : Message} {change : Moment → Tables → Tables}
    {post : Unit → Tables → Prop}
    (holds : post () (change before.moment before.tables)) :
    Atomic before (update what change) post excuse := by
  apply execute_atomic
  · rintro value tables equal
    cases equal
    exact holds
  · intro equal
    cases equal

theorem update_cases {what : Message} {change : Moment → Tables → Tables}
    {outcome : Except DbError Unit} {after : Db}
    (run : update what change before = some (outcome, after)) :
    SameWorld before after ∧
      (outcome = .ok () ∧ after.tables = change before.moment before.tables ∨
        (∃ failure, outcome = .error failure) ∧ ¬Quiet before ∧
          after.tables = before.tables) := by
  have atomic : Atomic before (update what change)
      (fun _ tables => tables = change before.moment before.tables) False :=
    update_atomic rfl
  cases outcome with
  | ok _ => exact ⟨(atomic _ _ run).1, .inl ⟨rfl, (atomic _ _ run).2⟩⟩
  | error failure =>
      have failed := atomic _ _ run
      exact ⟨failed.1, .inr ⟨⟨failure, rfl⟩, failed.2.2, failed.2.1⟩⟩

theorem Inside.bind {first : DbM Value} {next : Value → DbM Result}
    (middlePost : Value → Tables → Prop) {post : Result → Tables → Prop}
    (firstInside : Inside before first middlePost excuse)
    (nextInside : ∀ value middle, SameWorld before middle →
      middlePost value middle.tables → Inside middle (next value) post excuse) :
    Inside before (first >>= next) post excuse := by
  intro outcome after run
  rcases bind_eq_some.mp run with
    ⟨value, middle, firstRun, nextRun⟩ | ⟨failure, firstRun, rfl⟩
  · have firstDone := firstInside _ _ firstRun
    have nextDone := nextInside value middle firstDone.1 firstDone.2 _ _ nextRun
    refine ⟨firstDone.1.trans nextDone.1, ?_⟩
    cases outcome with
    | ok result => exact nextDone.2
    | error failure => exact fun quiet => nextDone.2 (firstDone.1.quiet quiet)
  · exact firstInside _ _ firstRun

theorem Atomic.bind_read {first : DbM Value} {next : Value → DbM Result}
    (fact : Value → Prop) {post : Result → Tables → Prop}
    (firstAtomic : Atomic before first
      (fun value tables => tables = before.tables ∧ fact value) excuse)
    (nextAtomic : ∀ value middle, SameWorld before middle →
      middle.tables = before.tables → fact value →
      Atomic middle (next value) post excuse) :
    Atomic before (first >>= next) post excuse := by
  intro outcome after run
  rcases bind_eq_some.mp run with
    ⟨value, middle, firstRun, nextRun⟩ | ⟨failure, firstRun, rfl⟩
  · have firstDone := firstAtomic _ _ firstRun
    have nextDone := nextAtomic value middle firstDone.1 firstDone.2.1
      firstDone.2.2 _ _ nextRun
    refine ⟨firstDone.1.trans nextDone.1, ?_⟩
    cases outcome with
    | ok result => exact nextDone.2
    | error failure =>
        exact ⟨nextDone.2.1.trans firstDone.2.1,
          fun quiet => nextDone.2.2 (firstDone.1.quiet quiet)⟩
  · exact firstAtomic _ _ firstRun

theorem Atomic.bind_pure {first : DbM Value} (convert : Value → Result)
    {post : Result → Tables → Prop}
    (firstAtomic : Atomic before first (fun value => post (convert value)) excuse) :
    Atomic before (first >>= fun value => pure (convert value)) post excuse := by
  intro outcome after run
  rcases bind_eq_some.mp run with ⟨value, middle, firstRun, nextRun⟩ | ⟨_, firstRun, rfl⟩
  · cases nextRun
    exact firstAtomic _ _ firstRun
  · exact firstAtomic _ _ firstRun

theorem transaction_atomic {start finish : Message} {body : DbM Value}
    (inside : ∀ started, SameWorld before started → started.tables = before.tables →
      Inside started body post excuse) :
    Atomic before (transaction start finish body) post excuse := by
  unfold transaction
  refine Atomic.bind_read (fun _ => True) (query_atomic ⟨rfl, trivial⟩) ?_
  intro _ started same tablesSame _
  have committed : Inside started (do
      let value ← body
      query finish fun _ => ()
      return value) post excuse :=
    Inside.bind post (inside started same tablesSame) fun value middle _ holds =>
      Inside.bind (fun _ => post value) (query_atomic holds).inside
        fun _ final _ holds => inside_pure holds
  rintro (failure | value) after run
  · rcases restoringOnFailure_eq_error.mp run with ⟨inner, bodyRun, rfl⟩
    have failed := committed _ _ bodyRun
    exact ⟨failed.1, rfl, failed.2⟩
  · exact committed _ _ (restoringOnFailure_eq_ok.mp run)

/-- A loop inside a transaction: `invariant` relates the items still to come
to the tables. -/
theorem inside_forM {Item : Type} {items : List Item} {body : Item → DbM PUnit}
    (invariant : List Item → Tables → Prop)
    (step : ∀ item rest middle, SameWorld before middle →
      invariant (item :: rest) middle.tables → (item :: rest) <:+ items →
      Inside middle (body item) (fun _ tables => invariant rest tables) excuse)
    (holds : invariant items before.tables) :
    Inside before (items.forM body) (fun _ tables => invariant [] tables) excuse := by
  suffices general : ∀ rest middle, rest <:+ items → SameWorld before middle →
      invariant rest middle.tables →
      Inside middle (rest.forM body) (fun _ tables => invariant [] tables) excuse from
    general items before (List.suffix_refl _) (.refl _) holds
  intro rest
  induction rest with
  | nil => exact fun middle _ _ holds => inside_pure holds
  | cons head tail induction =>
      intro middle tailOf same holds
      exact Inside.bind (fun _ => invariant tail) (step head tail middle same holds tailOf)
        fun _ next nextSame holds => induction next ((List.suffix_cons _ _).trans tailOf) (same.trans nextSame) holds

/-! ## Methods that never abort -/

theorem total_execute (what : Message)
    (statement : Moment → Tables → Option (Value × Tables)) :
    Total (execute what statement) := by
  intro before
  unfold execute
  split
  · exact ⟨_, _, rfl⟩
  · split
    · exact ⟨_, _, rfl⟩
    · exact ⟨_, _, rfl⟩

theorem total_query (what : Message) (read : Tables → Value) :
    Total (query what read) := total_execute _ _

theorem total_update (what : Message) (change : Moment → Tables → Tables) :
    Total (update what change) := total_execute _ _

theorem total_transaction (start finish : Message) {body : DbM Value}
    (total : Total body) : Total (transaction start finish body) :=
  (total_query _ _).bind fun _ => Total.restoringOnFailure
    (total.bind fun _ => (total_query _ _).bind fun _ => total_pure _)

theorem total_ofExcept (value : Except DbError Value) : Total (ofExcept value) := by
  cases value with
  | error failure => exact total_raise _
  | ok value => exact total_pure _

end Pgfs.Db
