import Pgfs.Pool.Serving

namespace Pgfs

/-! Clients that race to make the same entry. The check and the insertion are separate
statements, and an insertion that meets an entry does nothing and succeeds. -/

structure Made (Party : Type) where
  party : Party
  added : Node
  checkedAt : Nat
  madeAt : Nat

/-- The statements sent so far are counted. Since the entry was last deleted: which
requests were answered as having made it, in order, and when others were refused. For
each client, when it last found the entry missing. -/
structure Race (Party : Type) where
  time : Nat
  checkedAt : Party → Nat
  made : List (Made Party)
  refused : List (Party × Nat)

namespace Race

variable {Party : Type} [DecidableEq Party]

def start : Race Party := ⟨0, fun _ => 0, [], []⟩

def note (race : Race Party) (party : Party) (request : KeyRequest) (progress taken : Progress) :
    Race Party :=
  match request, progress, taken with
  | .make _ _, .begun, .checked =>
      { race with checkedAt := Function.update race.checkedAt party race.time }
  | .make _ _, .begun, .answered (.error .eexist) =>
      { race with refused := race.refused ++ [(party, race.time)] }
  | .make added _, .checked, .answered (.ok _) =>
      { race with made := race.made ++ [⟨party, added, race.checkedAt party, race.time⟩] }
  | .unlink _, .begun, .removed => { race with made := [], refused := [] }
  | .rmdir _, .emptied, .answered (.ok _) | .rmdir _, .emptied, .answered (.error .enotempty) =>
      { race with made := [], refused := [] }
  | _, _, _ => race

def observe (key : Key) (before : Turns Party Tables Client) (turn : Party × ClientMove)
    (_ : Turns Party Tables Client) (race : Race Party) : Race Party :=
  match turn.2, before.own turn.1 with
  | .sends moment, some (request, progress) =>
      let noted := if request.key = key then
          race.note turn.1 request progress (request.send moment progress before.shared).1
        else
          race
      { noted with time := race.time + 1 }
  | _, _ => race

structure Decided (race : Race Party) (found : Option KindText) : Prop where
  untouched : race.made = [] → found = none ∧ race.refused = []
  won : ∀ first rest, race.made = first :: rest →
    found = some first.added.text ∧
    (∀ other ∈ rest, other.checkedAt < first.madeAt ∧ first.madeAt < other.madeAt) ∧
    ∀ other ∈ race.refused, first.madeAt < other.2

structure Running (key : Key) (state : Turns Party Tables Client) (race : Race Party) :
    Prop where
  decided : race.Decided (state.shared.kindOf key)
  past : ∀ made ∈ race.made, made.madeAt < race.time
  checked : ∀ party added, state.own party = some (.make added key, .checked) →
    race.checkedAt party < race.time ∧
      ∀ first ∈ race.made.head?, race.checkedAt party < first.madeAt

/-! ## One statement -/

inductive Noted (key : Key) (race : Race Party) (party : Party) (request : KeyRequest)
    (progress : Progress) (before : Option KindText) (taken : Progress)
    (after : Option KindText) : Race Party → Prop
  | found (missing : before = none) (same : after = none) :
      Noted key race party request progress before taken after
        { race with checkedAt := Function.update race.checkedAt party race.time }
  | refused (present : before ≠ none) (same : after = before) (answered : taken ≠ .checked) :
      Noted key race party request progress before taken after
        { race with refused := race.refused ++ [(party, race.time)] }
  | made {added : Node} (asked : request = .make added key) (ready : progress = .checked)
      (stored : after = some (before.getD added.text)) (answered : taken ≠ .checked) :
      Noted key race party request progress before taken after
        { race with made := race.made ++ [⟨party, added, race.checkedAt party, race.time⟩] }
  | deleted (gone : after = none) (other : ∀ added, request ≠ .make added key) :
      Noted key race party request progress before taken after { race with made := [], refused := [] }
  | other (same : after = before)
      (elsewhere : ∀ added, request = .make added key → taken ≠ .checked) :
      Noted key race party request progress before taken after race

private theorem attributed_cases (tables : Tables) (key : Key) (absent : Progress)
    (present : FileMeta → Progress) :
    (tables.kindOf key = none ∧ KeyRequest.attributed tables key absent present = absent) ∨
    (tables.kindOf key ≠ none ∧
      (KeyRequest.attributed tables key absent present = .answered (.error .eio) ∨
        ∃ fileMeta, KeyRequest.attributed tables key absent present = present fileMeta)) := by
  unfold KeyRequest.attributed Tables.attributes Tables.kindOf
  cases tables.entries.lookup key with
  | none => exact .inl ⟨rfl, rfl⟩
  | some row =>
      right
      refine ⟨by simp, ?_⟩
      cases converted : rowToMeta key.name row with
      | error failure => exact .inl (by simp [converted, Except.map])
      | ok fileMeta => exact .inr ⟨fileMeta, by simp [converted, Except.map]⟩

private theorem noted_attributed {key : Key} {race : Race Party} {party : Party}
    {request : KeyRequest} {tables : Tables} {absent : Progress} {present : FileMeta → Progress}
    (note : Progress → Race Party)
    (missing : tables.kindOf key = none →
      Noted key race party request .begun (tables.kindOf key) absent (tables.kindOf key) (note absent))
    (unreadable : note (.answered (.error .eio)) = race)
    (found : ∀ fileMeta, tables.kindOf key ≠ none →
      Noted key race party request .begun (tables.kindOf key) (present fileMeta) (tables.kindOf key)
        (note (present fileMeta))) :
    Noted key race party request .begun (tables.kindOf key)
      (KeyRequest.attributed tables key absent present) (tables.kindOf key)
      (note (KeyRequest.attributed tables key absent present)) := by
  rcases attributed_cases tables key absent present with
    ⟨none, taken⟩ | ⟨some, taken | ⟨fileMeta, taken⟩⟩
  · rw [taken]
    exact missing none
  · rw [taken, unreadable]
    exact .other rfl (by simp)
  · rw [taken]
    exact found fileMeta some

theorem noted (key : Key) (race : Race Party) (party : Party) (moment : Moment)
    {request : KeyRequest} (same : request.key = key) (progress : Progress)
    (unanswered : ∀ answer, progress ≠ .answered answer) (tables : Tables) :
    Noted key race party request progress (tables.kindOf key)
      (request.send moment progress tables).1
      ((request.send moment progress tables).2.kindOf key)
      (race.note party request progress (request.send moment progress tables).1) := by
  subst same
  cases fails : moment.fails with
  | true =>
      rw [show request.send moment progress tables = (.answered (.error .eio), tables) from
        if_pos fails]
      have unnoted : race.note party request progress (.answered (.error .eio)) = race := by
        cases request <;> cases progress <;> rfl
      rw [unnoted]
      exact .other rfl (by simp)
  | false =>
      rw [KeyRequest.send_of fails]
      cases progress with
      | begun =>
          cases request with
          | look key =>
              exact noted_attributed (race.note party (.look key) .begun)
                (fun _ => .other rfl (by simp)) rfl fun _ _ => .other rfl (by simp)
          | make added key =>
              exact noted_attributed (race.note party (.make added key) .begun)
                (fun none => .found none none) rfl fun _ some => .refused some rfl (by simp)
          | unlink key =>
              exact .deleted ((Tables.kindOf_deleteEntry ..).trans (if_pos rfl)) (by simp)
          | rmdir key =>
              exact noted_attributed (race.note party (.rmdir key) .begun)
                (fun _ => .other rfl (by simp)) rfl fun _ _ => .other rfl (by simp)
      | checked =>
          cases request with
          | make added key =>
              refine .made rfl rfl ?_ (by simp [KeyRequest.send])
              show (tables.insertEntry key added.text moment.now).kindOf key =
                some ((tables.kindOf key).getD added.text)
              unfold Tables.kindOf
              rw [Tables.lookup_insertEntry, if_pos rfl]
              cases tables.entries.lookup key <;> rfl
          | rmdir key => exact .other rfl (by simp)
          | _ => exact .other rfl (by simp)
      | emptied =>
          cases request with
          | rmdir key =>
              have gone : (tables.deleteEntry key).2.kindOf key = none :=
                (Tables.kindOf_deleteEntry ..).trans (if_pos rfl)
              simp only [KeyRequest.send, Bool.false_eq_true, if_false]
              split
              · exact .deleted gone (by simp)
              · exact .deleted gone (by simp)
          | _ => exact .other rfl (by simp [KeyRequest.send])
      | removed => 
          cases request <;> exact .other rfl (by simp [KeyRequest.send])
      | answered answer => exact absurd rfl (unanswered answer)

/-! ## Runs -/

variable {key : Key} {before after : Turns Party Tables Client} {race next : Race Party}

private theorem Running.others (running : Running key before race) {turn : Party × ClientMove}
    {now : Option (KeyRequest × Progress)} (own : after.own turn.1 = now)
    (others : ∀ other, other ≠ turn.1 → after.own other = before.own other)
    (mine : ∀ added, now = some (.make added key, .checked) →
      next.checkedAt turn.1 < race.time + 1 ∧
        ∀ first ∈ next.made.head?, next.checkedAt turn.1 < first.madeAt)
    (kept : ∀ party, party ≠ turn.1 → next.checkedAt party = race.checkedAt party)
    (firsts : ∀ first ∈ next.made.head?, first ∈ race.made.head? ∨ race.time ≤ first.madeAt)
    (party : Party) (added : Node) (ready : after.own party = some (.make added key, .checked)) :
    next.checkedAt party < race.time + 1 ∧
      ∀ first ∈ next.made.head?, next.checkedAt party < first.madeAt := by
  by_cases same : party = turn.1
  · subst same
    exact mine added (own.symm.trans ready)
  · rw [others party same] at ready
    have known := running.checked party added ready
    rw [kept party same]
    refine ⟨by omega, fun first leads => ?_⟩
    rcases firsts first leads with old | new
    · exact known.2 first old
    · omega

private theorem Running.noted (running : Running key before race) {turn : Party × ClientMove}
    {request : KeyRequest} {progress taken : Progress}
    (was : before.own turn.1 = some (request, progress))
    (own : after.own turn.1 = some (request, taken))
    (others : ∀ other, other ≠ turn.1 → after.own other = before.own other)
    (note : Noted key race turn.1 request progress (before.shared.kindOf key) taken
      (after.shared.kindOf key) next) :
    Running key after { next with time := race.time + 1 } := by
  have later {made : Made Party} (member : made ∈ race.made) : made.madeAt < race.time + 1 :=
    Nat.lt_succ_of_lt (running.past made member)
  cases note with
  | found missing same =>
      have none : race.made = [] := by
        cases made : race.made with
        | nil => rfl
        | cons first rest =>
            rw [(running.decided.won first rest made).1] at missing
            cases missing
      refine ⟨⟨fun _ => ⟨same, (running.decided.untouched none).2⟩, ?_⟩, fun _ => later, ?_⟩
      · intro first rest made
        cases none.symm.trans made
      · apply running.others own others
        · intro added _
          simp [none]
        · exact fun party different => Function.update_of_ne different _ _
        · exact fun first leads => .inl leads
  | refused present same answered =>
      refine ⟨⟨fun none => absurd (running.decided.untouched none).1 present, ?_⟩,
        fun _ => later, ?_⟩
      · intro first rest made
        rcases running.decided.won first rest made with ⟨stored, overtaken, late⟩
        refine ⟨same.trans stored, overtaken, ?_⟩
        intro other member
        rcases List.mem_append.mp member with earlier | now
        · exact late other earlier
        · rw [List.mem_singleton.mp now]
          exact running.past first (made ▸ List.mem_cons_self)
      · apply running.others own others
        · rintro added ⟨⟩
          exact absurd rfl answered
        · exact fun _ _ => rfl
        · exact fun first leads => .inl leads
  | @made added asked ready stored answered =>
      have nobody (made : Node)
          (contrary : some (request, taken) = some (.make made key, .checked)) : False := by
        cases contrary
        exact answered rfl
      cases before_ : race.made with
      | nil =>
          have missing := running.decided.untouched before_
          rw [missing.1] at stored
          simp only [List.nil_append]
          refine ⟨⟨fun none => (by cases none), ?_⟩, ?_, ?_⟩
          · rintro _ _ ⟨⟩
            exact ⟨stored, by simp, by simp [missing.2]⟩
          · intro made member
            rw [List.mem_singleton.mp member]
            exact Nat.lt_succ_self _
          · apply running.others own others
            · exact fun made contrary => (nobody made contrary).elim
            · exact fun _ _ => rfl
            · rintro _ ⟨⟩
              exact .inr (Nat.le_refl _)
      | cons first rest =>
          have won := running.decided.won first rest before_
          rw [won.1] at stored
          have mine := running.checked turn.1 added (by rw [was, asked, ready])
          have led := mine.2 first (by simp [before_])
          have past := running.past first (by simp [before_])
          refine ⟨⟨fun none => (by cases none), ?_⟩, ?_, ?_⟩
          · rintro _ _ ⟨⟩
            refine ⟨stored, ?_, won.2.2⟩
            intro other member
            rcases List.mem_append.mp member with earlier | now
            · exact won.2.1 other earlier
            · rw [List.mem_singleton.mp now]
              exact ⟨led, past⟩
          · intro made member
            rcases List.mem_append.mp member with earlier | now
            · exact later (before_ ▸ earlier)
            · rw [List.mem_singleton.mp now]
              exact Nat.lt_succ_self _
          · apply running.others own others
            · exact fun made contrary => (nobody made contrary).elim
            · exact fun _ _ => rfl
            · rintro _ ⟨⟩
              exact .inl (by simp [before_])
  | deleted gone other =>
      refine ⟨⟨fun _ => ⟨gone, rfl⟩, ?_⟩, ?_, ?_⟩
      · rintro _ _ ⟨⟩
      · rintro _ ⟨⟩
      apply running.others own others
      · rintro added ⟨⟩
        exact absurd rfl (other added)
      · exact fun _ _ => rfl
      · exact fun _ leads => by cases leads
  | other same elsewhere =>
      refine ⟨⟨fun none => ?_, fun first rest made => ?_⟩, fun _ => later, ?_⟩
      · exact same ▸ running.decided.untouched none
      · exact same ▸ running.decided.won first rest made
      · apply running.others own others
        · rintro added ⟨⟩
          exact absurd rfl (elsewhere added rfl)
        · exact fun _ _ => rfl
        · exact fun first leads => .inl leads

private theorem Running.turn {allowed : Tables → ClientMove → Prop} {turn : Party × ClientMove}
    (running : Running key before race) (taken : Turns.Step (ClientStep allowed) before turn after) :
    Running key after (observe key before turn after race) := by
  rcases taken with ⟨step, others⟩
  -- A turn without a statement only changes what its client serves.
  have quiet {now : Client} (own : after.own turn.1 = now) (shared : after.shared = before.shared)
      (idle : ∀ added, now ≠ some (.make added key, .checked)) : Running key after race := by
    refine ⟨shared ▸ running.decided, running.past, fun party added ready => ?_⟩
    by_cases same : party = turn.1
    · subst same
      exact absurd (own.symm.trans ready) (idle added)
    · exact running.checked party added (others party same ▸ ready)
  rcases turn with ⟨party, move⟩
  generalize was : (before.shared, before.own party) = first at step
  generalize now : (after.shared, after.own party) = last at step
  have shared := congrArg Prod.fst now
  have own := congrArg Prod.snd now
  have sharedWas := congrArg Prod.fst was
  have ownWas := congrArg Prod.snd was
  simp only at shared own sharedWas ownWas
  cases step with
  | begins => exact quiet own (shared.trans sharedWas.symm) (by simp)
  | replies => exact quiet own (shared.trans sharedWas.symm) (by simp)
  | @sends tables moment request progress permitted unanswered =>
      have observed : observe key before (party, .sends moment) after race =
          { if request.key = key then
              race.note party request progress (request.send moment progress tables).1
            else race with time := race.time + 1 } := by
        unfold observe
        simp only [ownWas, sharedWas]
      rw [observed]
      by_cases asked : request.key = key
      · rw [if_pos asked]
        apply running.noted ownWas own others
        rw [shared, sharedWas]
        exact Race.noted key race party moment asked progress unanswered tables
      · rw [if_neg asked]
        have kind : after.shared.kindOf key = before.shared.kindOf key := by
          rw [shared, sharedWas]
          exact KeyRequest.kindOf_send moment request progress tables (Ne.symm asked)
        have decided := running.decided
        rw [← kind] at decided
        refine ⟨⟨decided.untouched, decided.won⟩, fun made member => ?_, ?_⟩
        · exact Nat.lt_succ_of_lt (running.past made member)
        · apply running.others own others
          · intro added ready
            have same : request = .make added key := congrArg Prod.fst (Option.some.inj ready)
            exact absurd (same ▸ rfl) asked
          · exact fun _ _ => rfl
          · exact fun first leads => .inl leads

end Race

/-- However the statements of clients interleave and fail, and whatever else they make and
remove: since an entry was last deleted, the request whose insertion came first has made
it, and the entry is of its kind. The others that were answered as having made it, too,
had looked for it before that insertion, and those that were refused looked after it. -/
theorem race_won_by_first_insertion {Party : Type} [DecidableEq Party] {key : Key}
    {allowed : Tables → ClientMove → Prop} {start finish : Turns Party Tables Client}
    {turns : List (Party × ClientMove)} {race : Race Party}
    (idle : ∀ party, start.own party = none) (missing : start.shared.kindOf key = none)
    (run : Trace (Watched (Turns.Step (ClientStep allowed)) (Race.observe key)) (start, .start)
      turns (finish, race)) :
    (race.made = [] → finish.shared.kindOf key = none ∧ race.refused = []) ∧
    ∀ first rest, race.made = first :: rest →
      finish.shared.kindOf key = some first.added.text ∧
      (∀ other ∈ rest, other.checkedAt < first.madeAt ∧ first.madeAt < other.madeAt) ∧
      ∀ other ∈ race.refused, first.madeAt < other.2 := by
  have running : Race.Running key finish race := by
    apply run.invariant fun state => Race.Running key state.1 state.2
    · refine ⟨⟨fun _ => ⟨missing, rfl⟩, ?_⟩, ?_, ?_⟩
      · rintro _ _ ⟨⟩
      · rintro _ ⟨⟩
      · intro party added ready
        rw [idle party] at ready
        cases ready
    · intro before turn after holds taken
      have observed : after.2 = Race.observe key before.1 turn after.1 before.2 := taken.2
      rw [observed]
      exact holds.turn taken.1
  exact ⟨running.decided.untouched, running.decided.won⟩

/-- Both clients find the name free. The directory of the one is there when the other is
told that it has created a file. -/
theorem race_won_by_first_insertion_directory : ∃ (turns : List (Bool × ClientMove))
    (finish : Turns Bool Tables Client) (race : Race Bool),
    Trace (Watched (Turns.Step (ClientStep fun _ _ => True)) (Race.observe ⟨[], ['a']⟩))
      (⟨.empty, fun _ => none⟩, .start) turns (finish, race) ∧
    race.made.map (fun made => (made.party, made.added)) = [(false, .branch), (true, .leaf)] ∧
    race.refused.map (·.1) = [true] ∧
    (race.made = [] → finish.shared.kindOf ⟨[], ['a']⟩ = none ∧ race.refused = []) ∧
    ∀ first rest, race.made = first :: rest →
      finish.shared.kindOf ⟨[], ['a']⟩ = some first.added.text ∧
      (∀ other ∈ rest, other.checkedAt < first.madeAt ∧ first.madeAt < other.madeAt) ∧
      ∀ other ∈ race.refused, first.madeAt < other.2 := by
  let turns : List (Bool × ClientMove) :=
    [(true, .begins (.make .leaf ⟨[], ['a']⟩)), (false, .begins (.make .branch ⟨[], ['a']⟩)),
      (true, .sends {}), (false, .sends {}), (false, .sends {}), (true, .sends {}),
      (true, .replies (.ok (some .leaf))), (true, .begins (.make .leaf ⟨[], ['a']⟩)),
      (true, .sends {})]
  have played : (Turns.replay Client.take (fun _ _ => true) (Race.observe ⟨[], ['a']⟩) turns
      (⟨.empty, fun _ => none⟩, .start)).any (fun final => decide
        (final.2.made.map (fun made => (made.party, made.added)) =
          [(false, .branch), (true, .leaf)] ∧ final.2.refused.map (·.1) = [true])) = true := by
    decide +kernel
  have sound : ∀ (before : Turns Bool Tables Client) (turn : Bool × ClientMove)
      (shared : Tables) (mine : Client),
      Client.take (before.shared, before.own turn.1) turn.2 = some (shared, mine) →
      true = true → Turns.Step (ClientStep fun _ _ => True) before turn
        ⟨shared, Function.update before.own turn.1 mine⟩ := by
    intro before turn shared mine taken _
    refine ⟨?_, fun other different => Function.update_of_ne different _ _⟩
    simpa using Client.step_of_take taken trivial
  rcases Turns.exists_watched_of_replay sound played with ⟨⟨finish, race⟩, run, seen⟩
  rcases of_decide_eq_true seen with ⟨made, refused⟩
  exact ⟨turns, finish, race, run, made, refused,
    race_won_by_first_insertion (fun _ => rfl) rfl run⟩

end Pgfs
