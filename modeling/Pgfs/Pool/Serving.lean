import Pgfs.Foundation.Reliance
import Pgfs.Pool.Requests

namespace Pgfs

/-! Any number of clients whose requests overlap statement by statement. As long as no
statement changes what another request has looked at and not yet acted on, they are
answered as one tree of names answers them one after another. -/

abbrev Client := Option (KeyRequest × Progress)

inductive ClientMove
  | begins (request : KeyRequest)
  | sends (moment : Moment)
  | replies (answer : NameAnswer)

/-- The answer that nothing changes anymore unless a statement fails. A deleted file is
answered once its blocks are deleted, too. -/
def Progress.decided : Progress → Option NameAnswer
  | .removed => some (.ok none)
  | .answered answer => some answer
  | _ => none

inductive ClientStep (allowed : Tables → ClientMove → Prop) :
    Tables × Client → ClientMove → Tables × Client → Prop
  | begins {tables : Tables} {request : KeyRequest} (permitted : allowed tables (.begins request)) :
      ClientStep allowed (tables, none) (.begins request) (tables, some (request, .begun))
  | sends {tables : Tables} {moment : Moment} {request : KeyRequest} {progress : Progress}
      (permitted : allowed tables (.sends moment))
      (unanswered : ∀ answer, progress ≠ .answered answer) :
      ClientStep allowed (tables, some (request, progress)) (.sends moment)
        ((request.send moment progress tables).2,
          some (request, (request.send moment progress tables).1))
  | replies {tables : Tables} {request : KeyRequest} {answer : NameAnswer} :
      ClientStep allowed (tables, some (request, .answered answer)) (.replies answer)
        (tables, none)

/-! ## What requests rely on -/

namespace KeyRequest

def Promised (tables : Tables) : KeyRequest → Prop
  | .look key => key.Proper
  | .make _ key =>
      key.Proper ∧ (key.parent = rootPath ∨ tables.HasDirectory key.parent)
  | .unlink key => key.Proper ∧ ∀ found ∈ tables.kindOf key, found = .file
  | .rmdir key => key.Proper ∧ ∀ found ∈ tables.kindOf key, found = .dir

/-- The keys that a request has looked at, or been promised something about, and not yet
acted on. -/
def Watches : KeyRequest → Progress → Key → Prop
  | .make _ key, .begun, other => other.path = key.parent
  | .make _ key, .checked, other => other.path = key.parent ∨ other = key
  | .unlink key, .begun, other => other = key
  | .rmdir key, .begun, other | .rmdir key, .checked, other => other = key
  | .rmdir key, .emptied, other => other = key ∨ other.parent = key.path
  | _, _, _ => False

def Knows (tables : Tables) : KeyRequest → Progress → Prop
  | .make _ key, .begun => key.parent = rootPath ∨ tables.HasDirectory key.parent
  | .make _ key, .checked =>
      (key.parent = rootPath ∨ tables.HasDirectory key.parent) ∧ tables.kindOf key = none
  | .unlink key, .begun => ∀ found, tables.kindOf key = some found → found = .file
  | .rmdir key, .begun => ∀ found, tables.kindOf key = some found → found = .dir
  | .rmdir key, .checked => tables.kindOf key = some .dir
  | .rmdir key, .emptied => tables.kindOf key = some .dir ∧
      ∀ child : Key, child.parent = key.path → tables.kindOf child = none
  | _, _ => True

variable {before after tables : Tables} {request : KeyRequest} {progress : Progress}

theorem Promised.proper (promised : request.Promised tables) : request.key.Proper := by
  cases request with
  | look => exact promised
  | _ => exact promised.1

theorem Promised.knows (promised : request.Promised tables) : request.Knows tables .begun := by
  cases request with
  | look => trivial
  | _ => exact promised.2

/-- What a request knows stays true as long as nothing changes at the keys it watches. -/
theorem Knows.of_watches (knows : request.Knows before progress)
    (same : ∀ other, request.Watches progress other → after.kindOf other = before.kindOf other) :
    request.Knows after progress := by
  have directory {key : Key}
      (parents : ∀ other : Key, other.path = key.parent →
        after.kindOf other = before.kindOf other)
      (known : key.parent = rootPath ∨ before.HasDirectory key.parent) :
      key.parent = rootPath ∨ after.HasDirectory key.parent := by
    refine known.imp_right fun there => ?_
    rcases Tables.hasDirectory_iff.mp there with ⟨parent, kind, path⟩
    exact Tables.hasDirectory_iff.mpr ⟨parent, (parents parent path).trans kind, path⟩
  cases request with
  | look => cases progress <;> trivial
  | make added key =>
      cases progress with
      | begun => exact directory same knows
      | checked =>
          exact ⟨directory (fun other path => same other (.inl path)) knows.1,
            (same key (.inr rfl)).trans knows.2⟩
      | _ => trivial
  | unlink key =>
      cases progress with
      | begun => exact fun found known => knows found ((same key rfl).symm.trans known)
      | _ => trivial
  | rmdir key =>
      cases progress with
      | begun => exact fun found known => knows found ((same key rfl).symm.trans known)
      | checked => exact (same key rfl).trans knows
      | emptied =>
          exact ⟨(same key (.inl rfl)).trans knows.1, fun child parent =>
            (same child (.inr parent)).trans (knows.2 child parent)⟩
      | _ => trivial

end KeyRequest

namespace Client

def Relies (client : Client) (before after : Tables) : Prop :=
  ∀ served ∈ client, ∀ other, served.1.Watches served.2 other →
    after.kindOf other = before.kindOf other

def Knows (tables : Tables) (client : Client) : Prop :=
  ∀ served ∈ client, served.1.key.Proper ∧ served.1.Knows tables served.2

def decides (before : Tables × Client) (move : ClientMove) : Option (NameCall × NameAnswer) :=
  match move, before.2 with
  | .sends moment, some (request, progress) =>
      if progress.decided.isSome then
        none
      else
        (request.send moment progress before.1).1.decided.map fun answer =>
          (request.call, answer)
  | _, _ => none

theorem Knows.of_relies {client : Client} {before after : Tables} (knows : client.Knows before)
    (relies : client.Relies before after) : client.Knows after := fun served member =>
  ⟨(knows served member).1, (knows served member).2.of_watches (relies served member)⟩

end Client

/-! ## One statement -/

namespace KeyRequest

variable {tree : NameTree Str} {tables : Tables} {request : KeyRequest} {key : Key}
  {moment : Moment} {progress : Progress}

/-- What a statement brings about: either nothing is decided and nothing changed, or what
the tree answers. -/
structure Takes (tree : NameTree Str) (request : KeyRequest) (progress : Progress)
    (tables : Tables) : Prop where
  wellFormed : tables.WellFormed
  knows : request.Knows tables progress
  silent : progress.decided = none → tree.Represents tables
  decided : ∀ answer, progress.decided = some answer → Agrees tree request.call answer tables

theorem knows_of_decided {answer : NameAnswer} (decided : progress.decided = some answer) :
    request.Knows tables progress := by
  cases progress with
  | begun => cases decided
  | checked => cases decided
  | emptied => cases decided
  | _ => cases request <;> trivial

theorem Takes.of_answer {answer : NameAnswer} (wellFormed : tables.WellFormed)
    (agrees : Agrees tree request.call answer tables) :
    Takes tree request (.answered answer) tables where
  wellFormed := wellFormed
  knows := knows_of_decided rfl
  silent contrary := by cases contrary
  decided other same := by
    cases same
    exact agrees

theorem Takes.of_silent (wellFormed : tables.WellFormed) (represents : tree.Represents tables)
    (knows : request.Knows tables progress) (undecided : progress.decided = none) :
    Takes tree request progress tables where
  wellFormed := wellFormed
  knows := knows
  silent _ := represents
  decided answer contrary := by
    rw [undecided] at contrary
    cases contrary

variable (represents : tree.Represents tables) (wellFormed : tables.WellFormed)

include represents wellFormed

private theorem takes_attributed (proper : key.Proper) {absent : Progress}
    {present : FileMeta → Progress}
    (missing : tree.node key.names = none → Takes tree request absent tables)
    (found : ∀ fileMeta, tree.node key.names = some fileMeta.kind.node →
      Takes tree request (present fileMeta) tables) :
    Takes tree request (attributed tables key absent present) tables := by
  rcases wellFormed.attributes key with ⟨result, known, _⟩
  have node := represents.node_of_attributes proper known
  unfold attributed
  rw [known]
  cases result with
  | none => exact missing node
  | some fileMeta => exact found fileMeta node

private theorem takes_look (proper : key.Proper) (quiet : moment.fails = false) :
    Takes tree (.look key) (send moment (.look key) .begun tables).1
      (send moment (.look key) .begun tables).2 := by
  rw [send_of quiet]
  apply takes_attributed represents wellFormed proper
  · intro absent
    exact .of_answer wellFormed (represents.agrees (NameTree.serve_look_none absent))
  · intro fileMeta node
    exact .of_answer wellFormed (represents.agrees (NameTree.serve_look_some node))

private theorem takes_make {added : Node} (proper : key.Proper) (quiet : moment.fails = false)
    (knows : Knows tables (.make added key) progress) (undecided : progress.decided = none) :
    Takes tree (.make added key) (send moment (.make added key) progress tables).1
      (send moment (.make added key) progress tables).2 := by
  rw [send_of quiet]
  cases progress with
  | begun =>
      apply takes_attributed represents wellFormed proper
      · intro absent
        exact .of_silent wellFormed represents
          ⟨knows, (represents.kindOf_eq_none_iff proper).mpr absent⟩ rfl
      · intro fileMeta node
        exact .of_answer wellFormed (represents.agrees (NameTree.serve_make_present node))
  | checked =>
      have absent := (represents.kindOf_eq_none_iff proper).mp knows.2
      refine .of_answer (wellFormed.insertEntry _ ?_)
        (represents.made proper absent knows.1 added _)
      cases added with
      | leaf => exact .inl rfl
      | branch => exact .inr rfl
  | emptied => exact .of_silent wellFormed represents trivial rfl
  | removed => cases undecided
  | answered => cases undecided

private theorem takes_unlink (proper : key.Proper) (quiet : moment.fails = false)
    (knows : Knows tables (.unlink key) progress) (undecided : progress.decided = none) :
    Takes tree (.unlink key) (send moment (.unlink key) progress tables).1
      (send moment (.unlink key) progress tables).2 := by
  rw [send_of quiet]
  cases progress with
  | begun =>
      refine ⟨wellFormed.deleteEntry key, trivial, (fun contrary => by cases contrary), ?_⟩
      rintro _ ⟨⟩
      apply represents.unlinked proper fun _ => rfl
      intro node there
      have file := knows _ ((represents.kindOf_iff proper).mpr there)
      cases node with
      | leaf => rfl
      | branch => cases file
  | checked => exact .of_silent wellFormed represents trivial rfl
  | emptied => exact .of_silent wellFormed represents trivial rfl
  | removed => cases undecided
  | answered => cases undecided

private theorem takes_rmdir (proper : key.Proper) (quiet : moment.fails = false)
    (knows : Knows tables (.rmdir key) progress) (undecided : progress.decided = none) :
    Takes tree (.rmdir key) (send moment (.rmdir key) progress tables).1
      (send moment (.rmdir key) progress tables).2 := by
  have branch (known : tables.kindOf key = some .dir) :
      tree.node key.names = some .branch :=
    (represents.kindOf_iff proper).mp known
  rw [send_of quiet]
  cases progress with
  | begun =>
      apply takes_attributed represents wellFormed proper
      · intro absent
        exact .of_answer wellFormed (represents.agrees (NameTree.serve_rmdir_missing absent))
      · intro fileMeta node
        have known := (represents.kindOf_iff proper).mpr node
        exact .of_silent wellFormed represents (known.trans (congrArg some (knows _ known))) rfl
  | checked =>
      by_cases occupied : tables.hasChildren key.path = true
      · simp only [send, Bool.false_eq_true, if_false, if_pos occupied]
        apply Takes.of_answer wellFormed
        apply represents.agrees (NameTree.serve_rmdir_occupied (branch knows) fun childless => ?_)
        rcases Tables.hasChildren_iff.mp occupied with ⟨child, member, parent⟩
        exact (represents.childless_iff proper).mp childless child member parent
      · simp only [send, Bool.false_eq_true, if_false, if_neg occupied]
        refine .of_silent wellFormed represents ⟨knows, fun child parent => ?_⟩ rfl
        by_contra present
        rcases Option.ne_none_iff_exists'.mp present with ⟨found, known⟩
        exact occupied (Tables.hasChildren_iff.mpr
          ⟨child, Finmap.mem_keys.mp (Tables.mem_keys_iff.mpr ⟨found, known⟩), parent⟩)
  | emptied =>
      have stored : key ∈ tables.entries :=
        Finmap.mem_keys.mp (Tables.mem_keys_iff.mpr ⟨_, knows.1⟩)
      have deleted : 0 < (tables.deleteEntry key).1 := by
        simp [Tables.deleteEntry, stored]
      simp only [send, Bool.false_eq_true, if_false, if_pos deleted]
      apply Takes.of_answer (wellFormed.deleteEntry key)
      apply represents.removedDirectory proper (branch knows.1)
      intro child member parent
      rcases Tables.mem_keys_iff.mp (Finmap.mem_keys.mpr member) with ⟨found, known⟩
      rw [knows.2 child parent] at known
      cases known
  | removed => cases undecided
  | answered => cases undecided

theorem takes (proper : request.key.Proper) (quiet : moment.fails = false)
    (knows : request.Knows tables progress) (undecided : progress.decided = none) :
    Takes tree request (request.send moment progress tables).1
      (request.send moment progress tables).2 := by
  cases request with
  | look key =>
      cases progress with
      | begun => exact takes_look represents wellFormed proper quiet
      | checked => exact send_of quiet ▸ .of_silent wellFormed represents trivial rfl
      | emptied => exact send_of quiet ▸ .of_silent wellFormed represents trivial rfl
      | removed => cases undecided
      | answered => cases undecided
  | make added key => exact takes_make represents wellFormed proper quiet knows undecided
  | unlink key => exact takes_unlink represents wellFormed proper quiet knows undecided
  | rmdir key => exact takes_rmdir represents wellFormed proper quiet knows undecided

omit represents wellFormed in
theorem send_of_decided (quiet : moment.fails = false) {answer : NameAnswer}
    (decided : progress.decided = some answer) :
    (request.send moment progress tables).1.decided = some answer ∧
      (request.send moment progress tables).2.entries = tables.entries ∧
      (tables.WellFormed → (request.send moment progress tables).2.WellFormed) := by
  rw [send_of quiet]
  cases progress with
  | begun => cases decided
  | checked => cases decided
  | emptied => cases decided
  | removed =>
      cases request with
      | unlink key => exact ⟨decided, rfl, fun wellFormed => wellFormed.deleteBlocks key⟩
      | _ => exact ⟨decided, rfl, id⟩
  | answered => cases request <;> exact ⟨decided, rfl, id⟩

end KeyRequest

/-! ## Runs -/

namespace ClientMove

def Promised (tables : Tables) : ClientMove → Prop
  | .begins request => request.Promised tables
  | .sends moment => moment.fails = false
  | .replies _ => True

def replied : ClientMove → Option NameAnswer
  | .replies answer => some answer
  | _ => none

end ClientMove

namespace Client

def pending (client : Client) : Option NameAnswer := client.bind (·.2.decided)

theorem knows_none (tables : Tables) : Knows tables none := by
  rintro _ ⟨⟩

theorem knows_some {tables : Tables} {request : KeyRequest} {progress : Progress}
    (proper : request.key.Proper) (knows : request.Knows tables progress) :
    Knows tables (some (request, progress)) := by
  rintro _ ⟨⟩
  exact ⟨proper, knows⟩

theorem decides_of_decided {tables : Tables} {moment : Moment} {request : KeyRequest}
    {progress : Progress} (decided : progress.decided.isSome) :
    decides (tables, some (request, progress)) (.sends moment) = none := if_pos decided

theorem decides_of_undecided {tables : Tables} {moment : Moment} {request : KeyRequest}
    {progress : Progress} (undecided : progress.decided = none) :
    decides (tables, some (request, progress)) (.sends moment) =
      (request.send moment progress tables).1.decided.map fun answer =>
        (request.call, answer) :=
  if_neg (by simp [undecided])

private theorem refines_names : Machine.Refines NameTree.serve (ClientStep ClientMove.Promised)
    decides fun state tree =>
      (tree.Represents state.1 ∧ state.1.WellFormed) ∧ Knows state.1 state.2 := by
  constructor
  · rintro before move after tree call answer ⟨⟨represents, wellFormed⟩, knows⟩ step logged
    cases step with
    | begins => cases logged
    | replies => cases logged
    | @sends tables moment request progress quiet =>
        rcases knows _ rfl with ⟨proper, known⟩
        cases undecided : progress.decided with
        | some early =>
            rw [decides_of_decided (by simp [undecided])] at logged
            cases logged
        | none =>
            rw [decides_of_undecided undecided] at logged
            rcases Option.map_eq_some_iff.mp logged with ⟨given, decided, equal⟩
            cases equal
            have takes := KeyRequest.takes represents wellFormed proper quiet known undecided
            have agrees := takes.decided _ decided
            exact ⟨agrees.answer, ⟨agrees.represents, takes.wellFormed⟩,
              knows_some proper takes.knows⟩
  · rintro before move after tree ⟨⟨represents, wellFormed⟩, knows⟩ step logged
    cases step with
    | begins promised =>
        exact ⟨⟨represents, wellFormed⟩, knows_some promised.proper promised.knows⟩
    | replies => exact ⟨⟨represents, wellFormed⟩, knows_none _⟩
    | @sends tables moment request progress quiet =>
        rcases knows _ rfl with ⟨proper, known⟩
        cases undecided : progress.decided with
        | some early =>
            rcases KeyRequest.send_of_decided quiet undecided with ⟨still, entries, kept⟩
            refine ⟨⟨represents.of_kindOf fun key => ?_, kept wellFormed⟩,
              knows_some proper (KeyRequest.knows_of_decided still)⟩
            unfold Tables.kindOf
            rw [entries]
        | none =>
            rw [decides_of_undecided undecided] at logged
            have takes := KeyRequest.takes represents wellFormed proper quiet known undecided
            exact ⟨⟨takes.silent (Option.map_eq_none_iff.mp logged), takes.wellFormed⟩,
              knows_some proper takes.knows⟩

private theorem flow {before after : Tables × Client} {move : ClientMove}
    (step : ClientStep ClientMove.Promised before move after) :
    (pending before.2).toList ++ ((decides before move).map (·.2)).toList =
      (ClientMove.replied move).toList ++ (pending after.2).toList := by
  cases step with
  | begins => rfl
  | replies => rfl
  | @sends tables moment request progress quiet =>
      cases undecided : progress.decided with
      | some early =>
          have still := (@KeyRequest.send_of_decided tables request _ _ quiet _ undecided).1
          rw [decides_of_decided (by simp [undecided])]
          simp [pending, ClientMove.replied, undecided, still]
      | none =>
          rw [decides_of_undecided undecided]
          simp [pending, ClientMove.replied, undecided, Function.comp_def]

end Client

/-- Clients whose requests overlap statement by statement are answered as one tree of
names answers their requests in the order in which these take effect, as long as no
statement fails and none changes what another request has looked at and not yet acted
on. Each client is replied what was decided for it. -/
theorem overlapping_answers_of_one_tree {Party : Type} [DecidableEq Party]
    {start finish : Turns Party Tables Client} {tree : NameTree Str}
    {turns : List (Party × ClientMove)} {log : List ((Party × NameCall) × NameAnswer)}
    (idle : ∀ party, start.own party = none) (represents : tree.Represents start.shared)
    (wellFormed : start.shared.WellFormed)
    (run : Trace (Watched (Turns.RelyingStep Client.Relies (ClientStep ClientMove.Promised))
      (Machine.keepLog (Turns.decidedBy Client.decides))) (start, []) turns (finish, log)) :
    log.map (·.2) = (Turns.tagged NameTree.serve).answers tree (log.map (·.1)) ∧
    ((Turns.tagged NameTree.serve).after tree (log.map (·.1))).Represents finish.shared ∧
    ∀ party, Turns.answersOf party log =
      Turns.repliesOf ClientMove.replied party turns ++ (finish.own party).pending.toList := by
  have stable : ∀ (client : Client) (before after : Tables), client.Knows before →
      client.Relies before after → client.Knows after :=
    fun _ _ _ knows relies => Client.Knows.of_relies knows relies
  have refines := @Turns.refines_of_reliance Party _ _ _ _ _ _ _ _ _ _ _
    (fun (tables : Tables) (tree : NameTree Str) => tree.Represents tables ∧ tables.WellFormed)
    (fun (tables : Tables) (client : Client) => client.Knows tables) stable Client.refines_names
  have known : ∀ party, Client.Knows start.shared (start.own party) := by
    intro party
    rw [idle party]
    exact Client.knows_none _
  have served := refines.run run ⟨⟨represents, wellFormed⟩, known⟩
  refine ⟨served.1, served.2.1.1, Turns.replies_as_decided run ?_ ?_ ?_⟩
  · intro party
    rw [idle party]
    rfl
  · exact fun _ _ _ step => step.1.2
  · exact fun _ _ _ step => Client.flow step.1.1

/-! ## Two clients -/

instance (key : Key) : Decidable key.Proper :=
  decidable_of_iff (Named (namesOf key.parent) ∧ ValidName key.name)
    ⟨fun ⟨parent, name⟩ => ⟨parent, name⟩, fun proper => ⟨proper.parent, proper.name⟩⟩

instance : (request : KeyRequest) → (progress : Progress) → (other : Key) →
    Decidable (request.Watches progress other)
  | .make _ _, .begun, _ => inferInstanceAs (Decidable (_ = _))
  | .make _ _, .checked, _ | .rmdir _, .emptied, _ => inferInstanceAs (Decidable (_ ∨ _))
  | .unlink _, .begun, _ | .rmdir _, .begun, _ | .rmdir _, .checked, _ =>
      inferInstanceAs (Decidable (_ = _))
  | .look _, _, _ | .make _ _, .emptied, _ | .make _ _, .removed, _
  | .make _ _, .answered _, _ | .unlink _, .checked, _ | .unlink _, .emptied, _
  | .unlink _, .removed, _ | .unlink _, .answered _, _ | .rmdir _, .removed, _
  | .rmdir _, .answered _, _ => inferInstanceAs (Decidable False)

instance (tables : Tables) : (request : KeyRequest) → Decidable (request.Promised tables)
  | .look key => inferInstanceAs (Decidable key.Proper)
  | .make _ key => inferInstanceAs (Decidable (key.Proper ∧ (_ ∨ _)))
  | .unlink key | .rmdir key =>
      inferInstanceAs (Decidable (key.Proper ∧ ∀ found ∈ tables.kindOf key, _))

instance (tables : Tables) : (move : ClientMove) → Decidable (move.Promised tables)
  | .begins request => inferInstanceAs (Decidable (request.Promised tables))
  | .sends moment => inferInstanceAs (Decidable (moment.fails = false))
  | .replies _ => inferInstanceAs (Decidable True)

theorem KeyRequest.kindOf_send (moment : Moment) (request : KeyRequest) (progress : Progress)
    (tables : Tables) {other : Key} (different : other ≠ request.key) :
    (request.send moment progress tables).2.kindOf other = tables.kindOf other := by
  unfold send
  split
  · rfl
  split
  · rfl
  · rfl
  · unfold Tables.kindOf
    rw [Tables.lookup_insertEntry]
    exact congrArg _ (if_neg different)
  · rw [Tables.kindOf_deleteEntry]
    exact if_neg different
  · rfl
  · rfl
  · rfl
  · rw [Tables.kindOf_deleteEntry]
    exact if_neg different
  · rfl

namespace Client

def take : Tables × Client → ClientMove → Option (Tables × Client)
  | (tables, none), .begins request => some (tables, some (request, .begun))
  | (tables, some (_, .answered answer)), .replies given =>
      if given = answer then some (tables, none) else none
  | (_, some (_, .answered _)), .sends _ => none
  | (tables, some (request, progress)), .sends moment =>
      let sent := request.send moment progress tables
      some (sent.2, some (request, sent.1))
  | _, _ => none

theorem step_of_take {allowed : Tables → ClientMove → Prop} {before after : Tables × Client}
    {move : ClientMove} (taken : take before move = some after) (permitted : allowed before.1 move) :
    ClientStep allowed before move after := by
  unfold take at taken
  split at taken
  · cases taken
    exact .begins permitted
  · split at taken
    · rename_i same
      cases taken
      exact same ▸ .replies
    · cases taken
  · cases taken
  · rename_i unanswered
    cases taken
    exact .sends permitted fun answer same => unanswered _ same
  · cases taken

def apart (before : Turns Bool Tables Client) (party : Bool) : Bool :=
  match before.own party, before.own (!party) with
  | some (mine, _), some (theirs, progress) => decide ¬theirs.Watches progress mine.key
  | _, _ => true

theorem relies_of_apart {allowed : Tables → ClientMove → Prop}
    {before : Turns Bool Tables Client} {party : Bool} {move : ClientMove}
    {after : Tables × Client} (apartness : apart before party = true)
    (step : ClientStep allowed (before.shared, before.own party) move after) :
    (before.own (!party)).Relies before.shared after.1 := by
  intro theirs member other watches
  have same : before.own (!party) = some theirs := member
  generalize whole : (before.shared, before.own party) = state at step
  have shared := congrArg Prod.fst whole
  have own := congrArg Prod.snd whole
  simp only at shared own
  rw [shared]
  cases step with
  | begins => rfl
  | replies => rfl
  | sends =>
      unfold apart at apartness
      rw [own, same] at apartness
      apply KeyRequest.kindOf_send
      intro equal
      exact of_decide_eq_true apartness (equal ▸ watches)

theorem relyingStep_of_take (before : Turns Bool Tables Client) (turn : Bool × ClientMove)
    (shared : Tables) (mine : Client)
    (taken : take (before.shared, before.own turn.1) turn.2 = some (shared, mine))
    (permitted : (decide (turn.2.Promised before.shared) && apart before turn.1) = true) :
    Turns.RelyingStep Relies (ClientStep ClientMove.Promised) before turn
      ⟨shared, Function.update before.own turn.1 mine⟩ := by
  rcases Bool.and_eq_true_iff.mp permitted with ⟨promised, apartness⟩
  have step := step_of_take taken (of_decide_eq_true promised)
  refine ⟨⟨?_, fun other different => Function.update_of_ne different _ _⟩,
    fun other different => ?_⟩
  · simpa using step
  · rw [Bool.eq_not_of_ne different]
    exact relies_of_apart apartness step

end Client

/-- While one client makes a directory the other one creates a file, and while one removes
the directory the other one removes the file. -/
theorem overlapping_answers_of_one_tree_twoClients : ∃ (turns : List (Bool × ClientMove))
    (finish : Turns Bool Tables Client) (log : List ((Bool × NameCall) × NameAnswer)),
    Trace (Watched (Turns.RelyingStep Client.Relies (ClientStep ClientMove.Promised))
      (Machine.keepLog (Turns.decidedBy Client.decides)))
      (⟨.empty, fun _ => none⟩, []) turns (finish, log) ∧
    log.map (fun entry => (entry.1.1, entry.2)) = [(false, .ok (some .leaf)),
      (true, .ok (some .branch)), (true, .ok none), (false, .ok none)] ∧
    log.map (·.2) = (Turns.tagged NameTree.serve).answers .empty (log.map (·.1)) ∧
    ((Turns.tagged NameTree.serve).after .empty (log.map (·.1))).Represents finish.shared ∧
    ∀ party, Turns.answersOf party log =
      Turns.repliesOf ClientMove.replied party turns ++ (finish.own party).pending.toList := by
  let turns : List (Bool × ClientMove) :=
    [(true, .begins (.make .branch ⟨[], ['a']⟩)), (false, .begins (.make .leaf ⟨[], ['b']⟩)),
      (true, .sends {}), (false, .sends {}), (false, .sends {}), (true, .sends {}),
      (true, .replies (.ok (some .branch))), (false, .replies (.ok (some .leaf))),
      (false, .begins (.rmdir ⟨[], ['a']⟩)), (true, .begins (.unlink ⟨[], ['b']⟩)),
      (false, .sends {}), (true, .sends {}), (false, .sends {}), (false, .sends {}),
      (true, .sends {}), (true, .replies (.ok none))]
  have played : (Turns.replay Client.take
      (fun before turn => decide (turn.2.Promised before.shared) && Client.apart before turn.1)
      (Machine.keepLog (Turns.decidedBy Client.decides)) turns
      (⟨.empty, fun _ => none⟩, [])).any (fun final => decide
        (final.2.map (fun entry => (entry.1.1, entry.2)) = [(false, .ok (some .leaf)),
          (true, .ok (some .branch)), (true, .ok none), (false, .ok none)])) = true := by
    decide +kernel
  rcases Turns.exists_watched_of_replay Client.relyingStep_of_take played with
    ⟨⟨finish, log⟩, run, seen⟩
  exact ⟨turns, finish, log, run, of_decide_eq_true seen,
    overlapping_answers_of_one_tree (fun _ => rfl) .of_empty .of_empty run⟩

end Pgfs
