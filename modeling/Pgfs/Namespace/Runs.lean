import Pgfs.Foundation.Machine
import Pgfs.Handles.Quietly
import Pgfs.Namespace.Answering
import Pgfs.Stored.Runs

namespace Pgfs

/-! As far as names go, daemons that take turns serve one tree of files and directories. -/

/-- The promises of the kernel, and what keeps the rows in step with the paths: the
heartbeat advances, blocks are stored under keys of files, and the cascade of a rename
moves paths. -/
structure Exchange.Orderly (before : Mount) (exchange : Exchange) : Prop where
  alive : exchange.event.alive = true
  names : exchange.event.callback.NamesValid
  sized : exchange.event.callback.Sized
  parents : exchange.event.callback.ParentsAreDirectories before
  removals : exchange.event.callback.RemovesRightKind before
  stores : before.StoresToFile exchange.event.callback
  cascades : before.CascadesMovePaths exchange.event.callback

instance (before : Mount) (exchange : Exchange) : Decidable (exchange.Orderly before) :=
  decidable_of_iff
    (exchange.event.alive = true ∧ exchange.event.callback.NamesValid ∧
      exchange.event.callback.Sized ∧ exchange.event.callback.ParentsAreDirectories before ∧
      exchange.event.callback.RemovesRightKind before ∧
      before.StoresToFile exchange.event.callback ∧
      before.CascadesMovePaths exchange.event.callback)
    ⟨fun ⟨alive, names, sized, parents, removals, stores, cascades⟩ =>
      ⟨alive, names, sized, parents, removals, stores, cascades⟩,
      fun orderly => ⟨orderly.alive, orderly.names, orderly.sized, orderly.parents,
        orderly.removals, orderly.stores, orderly.cascades⟩⟩

theorem Serves.kindOf_of_silent {quiet alone : Prop} {before after : Mount}
    {callback : Callback} {reply : Except Errno Reply}
    (serves : Serves quiet alone before callback reply after)
    (silent : before.nameCall callback = none) (key : Key) :
    after.tables.kindOf key = before.tables.kindOf key := by
  cases serves with
  | flushRead _ _ _ _ _ _ _ _ _ flushed => exact flushed.kindOf key
  | flush _ _ _ _ _ _ _ _ flushed => exact flushed.kindOf key
  | release _ _ _ _ flushed => exact flushed.kindOf key
  | writeThrough _ _ _ _ _ _ _ _ written => exact written.contents.kindOf key
  | truncate => cases silent
  | rename => cases silent
  | create => cases silent
  | mkdir => cases silent
  | unlink => cases silent
  | unlinkHalf => cases silent
  | rmdir => cases silent
  | _ => rfl

namespace PgFs

open Effect

variable {fs next : PgFs} {tree : NameTree Str}

def OrderlyStep : PgFs → Exchange → PgFs → Prop :=
  StepWhere fun before exchange _ => exchange.Orderly before.mount

def nameExchange (before : PgFs) (exchange : Exchange) : Option (NameCall × NameAnswer) :=
  (before.mount.nameCall exchange.event.callback).map fun call =>
    (call, exchange.reply.map Reply.node)

private theorem valid_of_names {callback : Callback} {name : OsStr}
    (valid : callback.NamesValid) (carried : ∀ child ∈ name, child ∈ callback.names) :
    ∀ child ∈ name, ValidName child :=
  fun child member => valid child (carried child member)

private theorem Keeps.serve_follows (keeps : Keeps fs tree) {exchange : Exchange}
    {call : NameCall} (orderly : exchange.Orderly fs.mount)
    (called : fs.mount.nameCall exchange.event.callback = some call) :
    Follows fs tree call (serve exchange.event.callback) := by
  rcases exchange with ⟨⟨callback, dumpRequested, alive⟩, reply⟩
  rcases orderly with ⟨_, names, sized, parents, removals, _, cascades⟩
  cases callback with
  | lookup parent name =>
      cases called
      exact keeps.lookup_follows parent
        (valid_of_names names (by simp [Callback.names]))
  | getattr ino =>
      cases called
      exact keeps.getattr_follows ino
  | setattr ino size =>
      cases called
      apply keeps.setattr_follows ino
      rintro newSize ⟨⟩
      exact sized
  | create parent name =>
      cases called
      exact keeps.create_follows (valid_of_names names (by simp [Callback.names])) parents
  | mkdir parent name =>
      cases called
      exact keeps.mkdir_follows (valid_of_names names (by simp [Callback.names])) parents
  | unlink parent name =>
      cases called
      exact keeps.unlink_follows (valid_of_names names (by simp [Callback.names])) removals
  | rmdir parent name =>
      cases called
      exact keeps.rmdir_follows (valid_of_names names (by simp [Callback.names])) removals
  | rename parent name newparent newname flags =>
      cases called
      exact keeps.rename_follows
        (valid_of_names names fun _ member =>
          List.mem_append_left _ (Option.mem_toList.mpr member))
        (valid_of_names names fun _ member =>
          List.mem_append_right _ (Option.mem_toList.mpr member))
        parents.2 cascades
  | _ => cases called

private theorem Keeps.step_agrees (keeps : Keeps fs tree) {exchange : Exchange}
    {call : NameCall} (step : Step fs exchange next) (orderly : exchange.Orderly fs.mount)
    (called : fs.mount.nameCall exchange.event.callback = some call) :
    Agrees tree call (exchange.reply.map Reply.node) next.mount.tables := by
  rcases step_of_alive orderly.alive fs with ⟨ready, world, same, served⟩
  have readyKeeps := keeps.of_mount world same
  have follows : Follows ready tree call (serve exchange.event.callback) := by
    apply readyKeeps.serve_follows
    · rw [same]
      exact orderly
    · rw [same]
      exact called
  have run : serve exchange.event.callback ready = some (exchange.reply, next) :=
    served.symm.trans step
  have done := (follows _ _ run).2
  cases reply : exchange.reply with
  | error errno =>
      rw [reply] at done
      exact done
  | ok value =>
      rw [reply] at done
      exact done

private theorem Keeps.serve_step (holds : Keeps fs tree ∧ fs.mount.WellFormed)
    {exchange : Exchange} (taken : OrderlyStep fs exchange next) :
    (∀ call answer, nameExchange fs exchange = some (call, answer) →
      (tree.serve call).1 = answer ∧ Keeps next (tree.serve call).2 ∧ next.mount.WellFormed) ∧
    (nameExchange fs exchange = none → Keeps next tree ∧ next.mount.WellFormed) := by
  rcases holds with ⟨keeps, wellFormed⟩
  rcases taken with ⟨step, orderly⟩
  have kept {after : NameTree Str} (represents : after.Represents next.db.tables) :
      Keeps next after ∧ next.mount.WellFormed := by
    have nextWellFormed := step.wellFormed orderly.sized wellFormed
    refine ⟨⟨step.sameWorld.quiet keeps.quiet, step.sameWorld.2.trans keeps.alone, represents,
      nextWellFormed.tables, ?_, ?_⟩, nextWellFormed⟩
    · exact step.serves.owned keeps.quiet orderly.removals orderly.stores keeps.owned
    · exact step.serves.ofPaths keeps.alone orderly.names keeps.represents.proper keeps.ofPaths
  constructor
  · intro call answer logged
    unfold nameExchange at logged
    rcases Option.map_eq_some_iff.mp logged with ⟨served, called, equal⟩
    cases equal
    have agrees := keeps.step_agrees step orderly called
    exact ⟨agrees.answer, kept agrees.represents⟩
  · intro logged
    have silent := Option.map_eq_none_iff.mp logged
    exact kept (keeps.represents.of_kindOf (step.serves.kindOf_of_silent silent))

end PgFs

/-! ## Fleets -/

/-- An exchange of a kernel that keeps its promises, or a start on a quiet primary. -/
def FleetEvent.Orderly (fs : PgFs) : FleetEvent → Prop
  | .served exchange => exchange.Orderly fs.mount
  | .restarted replica world _ => replica = false ∧ ∀ index, (world index).fails = false

instance (fs : PgFs) (exchange : Exchange) :
    Decidable ((FleetEvent.served exchange).Orderly fs) :=
  inferInstanceAs (Decidable (exchange.Orderly fs.mount))

namespace Fleet

open PgFs

variable {Daemon : Type} [DecidableEq Daemon]

def nameTurn (before : Fleet Daemon) (turn : Daemon × FleetEvent) :
    Option (NameCall × NameAnswer) :=
  match turn.2 with
  | .served exchange => nameExchange ((before.own turn.1).on before.shared) exchange
  | .restarted .. => none

/-- What a daemon has of its own that the tree does not say. -/
structure Member (fs : PgFs) : Prop where
  quiet : Db.Quiet fs.db
  alone : fs.db.replica = false
  ofPaths : fs.toInodeMaps.OfPaths
  handles : ∀ fh buffer, fs.openHandles.lookup fh = some buffer → buffer.WellFormed

/-- A fleet whose tables stand for a tree. -/
structure Keeps (fleet : Fleet Daemon) (tree : NameTree Str) : Prop where
  represents : tree.Represents fleet.shared
  wellFormed : fleet.shared.WellFormed
  owned : fleet.shared.Owned
  members : ∀ daemon, Member (fleet.own daemon)

theorem Member.of_start {world : Nat → Moment} {attrTtl : Nat} {tables : Tables}
    (quiet : ∀ index, (world index).fails = false) :
    Member (withAttrTtl (.connect tables false world) attrTtl) where
  quiet := quiet
  alone := rfl
  ofPaths := InodeMaps.ofPaths_initial
  handles _ _ found := by cases found

omit [DecidableEq Daemon] in
theorem Keeps.on {fleet : Fleet Daemon} {tree : NameTree Str} (keeps : Keeps fleet tree)
    (daemon : Daemon) : PgFs.Keeps ((fleet.own daemon).on fleet.shared) tree ∧
      ((fleet.own daemon).on fleet.shared).mount.WellFormed := by
  have member := keeps.members daemon
  exact ⟨⟨member.quiet, member.alone, keeps.represents, keeps.wellFormed, keeps.owned,
    member.ofPaths⟩, keeps.wellFormed, member.handles⟩

theorem Keeps.of_turn {before after : Fleet Daemon} {tree next : NameTree Str}
    {daemon : Daemon} (keeps : Keeps before tree)
    (others : ∀ other, other ≠ daemon → after.own other = before.own other)
    (same : after.shared = (after.own daemon).db.tables)
    (kept : PgFs.Keeps (after.own daemon) next ∧ (after.own daemon).mount.WellFormed) :
    Keeps after next := by
  refine ⟨same ▸ kept.1.represents, same ▸ kept.1.wellFormed, same ▸ kept.1.owned,
    fun other => ?_⟩
  by_cases mine : other = daemon
  · subst mine
    exact ⟨kept.1.quiet, kept.1.alone, kept.1.ofPaths, kept.2.handles⟩
  · rw [others other mine]
    exact keeps.members other

private theorem refines_names : Machine.Refines NameTree.serve
    (Turns.Step (FleetStep FleetEvent.Orderly)) nameTurn (@Keeps Daemon) where
  served before turn after tree call answer keeps taken logged := by
    rcases turn with ⟨daemon, exchange | _⟩
    · rcases taken with ⟨⟨orderly, step, same⟩, others⟩
      have done := (PgFs.Keeps.serve_step (keeps.on daemon) ⟨step, orderly⟩).1 call answer logged
      exact ⟨done.1, keeps.of_turn others same done.2⟩
    · cases logged
  silent before turn after tree keeps taken logged := by
    rcases turn with ⟨daemon, exchange | ⟨replica, world, attrTtl⟩⟩
    · rcases taken with ⟨⟨orderly, step, same⟩, others⟩
      exact keeps.of_turn others same
        ((PgFs.Keeps.serve_step (keeps.on daemon) ⟨step, orderly⟩).2 logged)
    · rcases taken with ⟨⟨⟨alone, quiet⟩, same, anew⟩, others⟩
      subst alone
      have shared : after.shared = before.shared := same
      refine ⟨shared ▸ keeps.represents, shared ▸ keeps.wellFormed, shared ▸ keeps.owned,
        fun other => ?_⟩
      by_cases mine : other = daemon
      · subst mine
        have started : after.own other =
          withAttrTtl (.connect before.shared false world) attrTtl := anew
        exact started ▸ .of_start quiet
      · rw [others other mine]
        exact keeps.members other

/-- A run from an empty database is one of the tree, which is kept. -/
theorem keeps_of_run {start fleet : Fleet Daemon} {log : List (NameCall × NameAnswer)}
    {turns : List (Daemon × FleetEvent)} (empty : start.shared = .empty)
    (started : ∀ daemon, ∃ world attrTtl, (∀ index, (world index : Moment).fails = false) ∧
      start.own daemon = withAttrTtl (.connect .empty false world) attrTtl)
    (run : Trace (Watched (Turns.Step (FleetStep FleetEvent.Orderly))
      (Machine.keepLog nameTurn)) (start, []) turns (fleet, log)) :
    log.map (·.2) = Machine.answers NameTree.serve .empty (log.map (·.1)) ∧
      Keeps fleet (Machine.after NameTree.serve .empty (log.map (·.1))) := by
  have initially : Keeps start .empty := by
    refine ⟨empty ▸ .of_empty, empty ▸ .of_empty, empty ▸ Tables.owned_empty, fun daemon => ?_⟩
    rcases started daemon with ⟨world, attrTtl, quiet, fresh⟩
    exact fresh ▸ .of_start quiet
  exact refines_names.run run initially

end Fleet

end Pgfs
