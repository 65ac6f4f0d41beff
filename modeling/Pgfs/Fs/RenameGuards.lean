import Pgfs.Db.Succeeding
import Pgfs.Fs.Run

namespace Pgfs

/-! The checks of the rename callback, and the one that a failing query skips. -/

private theorem Serves.refused_rename {quiet alone : Prop} {before after : Mount}
    {callback : Callback} {reply : Except Errno Reply}
    (serves : Serves quiet alone before callback reply after)
    (renames : ∃ parent name newparent newname flags,
      callback = .rename parent name newparent newname flags)
    (failed : reply ≠ .ok .ok) : after = before := by
  rcases renames with ⟨parent, name, newparent, newname, flags, rfl⟩
  cases serves with
  | refused => rfl
  | flush _ _ _ _ _ _ flushes => rcases flushes with same | same <;> cases same
  | flushNothing => rfl
  | renameNothing => exact absurd rfl failed
  | rename => exact absurd rfl failed

private theorem Serves.renamed {quiet alone : Prop} {before after : Mount}
    {parent newparent flags : Nat} {old new : Key}
    (serves : Serves quiet alone before
      (.rename parent (some old.name) newparent (some new.name) flags) (.ok .ok) after)
    (resolved : before.pathOfIno parent = some old.parent)
    (newResolved : before.pathOfIno newparent = some new.parent)
    (different : new.path ≠ old.path) :
    ¬below old.path <+: new.path ∧ ∃ kind, Renamed kind old new before.tables after.tables := by
  generalize called : Callback.rename parent (some old.name) newparent (some new.name) flags =
    callback at serves
  generalize replied : (Except.ok Reply.ok : Except Errno Reply) = reply at serves
  cases serves with
  | refused => cases replied
  | flush _ _ _ _ _ _ flushes =>
      subst called
      rcases flushes with same | same <;> cases same
  | flushNothing _ _ _ flushes =>
      subst called
      rcases flushes with same | same <;> cases same
  | renameNothing _ _ _ _ _ path newPath found newFound same =>
      simp only [Callback.rename.injEq, Option.some.injEq] at called
      rcases called with ⟨rfl, rfl, rfl, rfl, _⟩
      rw [resolved, Option.some.injEq] at found
      rw [newResolved, Option.some.injEq] at newFound
      rw [← found, ← newFound] at same
      exact absurd same different
  | rename _ _ _ source target kind tables order found newFound _ outside renamed =>
      simp only [Callback.rename.injEq, Option.some.injEq] at called
      rcases called with ⟨rfl, sourceName, rfl, targetName, _⟩
      rw [resolved, Option.some.injEq] at found
      rw [newResolved, Option.some.injEq] at newFound
      have sameOld : old = source := by
        cases old
        cases source
        cases found
        cases sourceName
        rfl
      have sameNew : new = target := by
        cases new
        cases target
        cases newFound
        cases targetName
        rfl
      rw [sameOld, sameNew]
      exact ⟨outside, kind, renamed⟩
  | _ => cases called

namespace PgFs

open Effect

variable {fs next : PgFs} {old new : Key}

theorem tryDb_eq_ok {body : DbM Value} {outcome : Except DbError Value} :
    tryDb body fs = some (.ok outcome, next) ↔
      ∃ db, body fs.db = some (outcome, db) ∧ next = fs.setDb db := by
  unfold tryDb
  rw [within_eq_some]
  constructor
  · intro run
    rcases run with ⟨db, attempted, rfl⟩
    rcases attempt_eq_some.mp attempted with ⟨inner, equal, bodyRun⟩
    cases equal
    exact ⟨db, bodyRun, rfl⟩
  · intro run
    rcases run with ⟨db, bodyRun, rfl⟩
    exact ⟨db, attempt_eq_some.mpr ⟨outcome, rfl, bodyRun⟩, rfl⟩

theorem callDb_eq_ok {body : DbM Value} {value : Value} :
    callDb body fs = some (.ok value, next) ↔
      ∃ db, body fs.db = some (.ok value, db) ∧ next = fs.setDb db := by
  unfold callDb
  rw [bind_eq_ok]
  constructor
  · intro run
    rcases run with ⟨outcome, middle, tried, rest⟩
    rcases tryDb_eq_ok.mp tried with ⟨db, bodyRun, rfl⟩
    cases outcome with
    | error failure => cases rest
    | ok found =>
        cases rest
        exact ⟨db, bodyRun, rfl⟩
  · intro run
    rcases run with ⟨db, bodyRun, rfl⟩
    exact ⟨.ok value, fs.setDb db, tryDb_eq_ok.mpr ⟨db, bodyRun, rfl⟩, rfl⟩

theorem resolve_apply {parent : Nat} {name parentPath : Str}
    (resolved : fs.pathOfIno parent = some parentPath) :
    resolve parent (some name) fs = some (.ok (parentPath, name), fs) := by
  unfold resolve pathOrEnoent
  simp [bind_apply, resolved]

theorem tryDb_getattrPrimary (fs : PgFs) (parent name : Str) :
    tryDb (Db.getattrPrimary parent name) fs =
      some (.ok (if fs.db.moment.fails then
          .error (.ctx ⟨"get attributes of entry _ in _", [name, parent]⟩)
        else
          fs.db.tables.attributes ⟨parent, name⟩), fs.setDb fs.db.advance) := by
  apply tryDb_eq_ok.mpr
  exact ⟨_, Db.getattrPrimary_apply _ _ _, rfl⟩

/-- The attributes of the entry cannot be had: the query fails, or its row is not
readable. -/
def Unseen (fs : PgFs) (key : Key) : Prop :=
  fs.db.moment.fails = true ∨ ∃ failure, fs.db.tables.attributes key = .error failure

theorem checkTarget_unseen (source : Kind) (unseen : fs.Unseen new) :
    checkTarget source new.parent new.name fs = some (.ok (), fs.setDb fs.db.advance) := by
  unfold checkTarget
  rw [bind_of_ok (tryDb_getattrPrimary fs new.parent new.name)]
  rcases unseen with fails | unreadable
  · rw [fails]
    rfl
  · rcases unreadable with ⟨failure, unreadable⟩
    rw [unreadable]
    split <;> rfl

theorem unseen_of_checkTarget {source : Kind} {row : EntryRow}
    (stored : fs.db.tables.entries.lookup new = some row) (mismatch : row.kind ≠ source.text)
    (passed : checkTarget source new.parent new.name fs = some (.ok (), next)) :
    fs.Unseen new := by
  unfold Unseen
  by_contra seen
  rw [not_or] at seen
  rcases seen with ⟨answered, readable⟩
  unfold checkTarget at passed
  rw [bind_of_ok (tryDb_getattrPrimary fs new.parent new.name), if_neg answered] at passed
  cases attributes : fs.db.tables.attributes new with
  | error failure => exact readable ⟨failure, attributes⟩
  | ok found =>
      rw [show fs.db.tables.attributes ⟨new.parent, new.name⟩ = .ok found from attributes] at passed
      cases found with
      | none =>
          unfold Tables.attributes at attributes
          rw [stored] at attributes
          cases converted : rowToMeta new.name row with
          | error failure =>
              simp only [converted] at attributes
              cases attributes
          | ok target =>
              simp only [converted] at attributes
              cases attributes
      | some target =>
          rw [Tables.lookup_of_attributes attributes] at stored
          cases stored
          rcases target with ⟨name, kind, size, mtime⟩
          cases source with
          | file =>
              cases kind with
              | file => exact mismatch rfl
              | dir => cases passed
          | dir =>
              cases kind with
              | file => cases passed
              | dir => exact mismatch rfl

private def renameResolved (old new : Key) : FsM Reply := do
  match ← callDb (Db.getattrPrimary old.parent old.name) with
  | none => Effect.raise .enoent
  | some source =>
      checkTarget source.kind new.parent new.name
      callDb (Db.rename old.parent old.name new.parent new.name)
      rekeyPathMaps old.path new.path
      return .ok

private theorem rename_resolved {parent newparent flags : Nat}
    (resolved : fs.pathOfIno parent = some old.parent)
    (newResolved : fs.pathOfIno newparent = some new.parent)
    (different : new.path ≠ old.path) :
    rename parent (some old.name) newparent (some new.name) flags fs =
      if flags ≠ 0 ∨ below old.path <+: new.path then
        some (.error .einval, fs)
      else
        renameResolved old new fs := by
  unfold rename
  by_cases flagged : flags ≠ 0
  · rw [if_pos flagged, if_pos (.inl flagged)]
    rfl
  · rw [if_neg flagged, bind_of_ok (resolve_apply resolved)]
    dsimp only
    rw [bind_of_ok (resolve_apply newResolved)]
    dsimp only
    have apart : ¬join new.parent new.name = join old.parent old.name := different
    rw [if_neg apart]
    by_cases inside : below old.path <+: new.path
    · have matching : (below (join old.parent old.name)).isPrefixOf (join new.parent new.name) =
          true := List.isPrefixOf_iff_prefix.mpr inside
      rw [if_pos matching, if_pos (.inr inside)]
      rfl
    · have elsewhere : ¬(below (join old.parent old.name)).isPrefixOf
          (join new.parent new.name) = true :=
        fun matching => inside (List.isPrefixOf_iff_prefix.mp matching)
      rw [if_neg elsewhere, if_neg fun refused => refused.elim flagged inside]
      rfl

private theorem renameResolved_eq_ok_iff :
    (∃ next, renameResolved old new fs = some (.ok .ok, next)) ↔
      fs.db.moment.fails = false ∧
        ∃ source checked after, fs.db.tables.attributes old = .ok (some source) ∧
          checkTarget source.kind new.parent new.name (fs.setDb fs.db.advance) =
            some (.ok (), checked) ∧
          Db.rename old.parent old.name new.parent new.name checked.db =
            some (.ok (), after) := by
  unfold renameResolved
  constructor
  · intro run
    rcases run with ⟨next, run⟩
    rcases bind_eq_ok.mp run with ⟨found, middle, asked, rest⟩
    rcases callDb_eq_ok.mp asked with ⟨db, queried, rfl⟩
    rw [Db.getattrPrimary_apply] at queried
    cases fails : fs.db.moment.fails with
    | true =>
        rw [fails] at queried
        cases queried
    | false =>
        simp only [fails, Bool.false_eq_true, if_false, Option.some.injEq, Prod.mk.injEq]
          at queried
        rcases queried with ⟨attributes, rfl⟩
        cases found with
        | none => cases rest
        | some source =>
            rcases bind_eq_ok.mp rest with ⟨_, checked, passed, rest⟩
            rcases bind_eq_ok.mp rest with ⟨_, renamed, called, _⟩
            rcases callDb_eq_ok.mp called with ⟨after, renames, _⟩
            exact ⟨rfl, source, checked, after, attributes, passed, renames⟩
  · intro passes
    rcases passes with ⟨answered, source, checked, after, attributes, passed, renames⟩
    have asked : callDb (Db.getattrPrimary old.parent old.name) fs =
        some (.ok (some source), fs.setDb fs.db.advance) := by
      apply callDb_eq_ok.mpr
      refine ⟨_, ?_, rfl⟩
      rw [Db.getattrPrimary_apply, answered]
      exact congrArg (fun outcome => some (outcome, fs.db.advance)) attributes
    rw [bind_of_ok asked]
    dsimp only
    rw [bind_of_ok passed, bind_of_ok (callDb_eq_ok.mpr ⟨after, renames, rfl⟩)]
    exact ⟨_, rfl⟩

/-! ## What a rename promises -/

def Renames (fs : PgFs) (callback : Callback) (old new : Key) (flags : Nat) : Prop :=
  ∃ parent newparent,
    callback = .rename parent (some old.name) newparent (some new.name) flags ∧
      fs.pathOfIno parent = some old.parent ∧ fs.pathOfIno newparent = some new.parent

/-- A rename that does not reply ok changes nothing, and one that does between
different paths has met all its conditions. -/
structure RenameGuarded (before : PgFs) (callback : Callback)
    (reply : Except Errno Reply) (after : PgFs) : Prop where
  refused : reply ≠ .ok .ok → after.db.tables = before.db.tables ∧
    after.toInodeMaps = before.toInodeMaps ∧ after.openHandles = before.openHandles ∧
    after.openHandlesByIno = before.openHandlesByIno
  served : reply = .ok .ok → ∀ old new flags, before.Renames callback old new flags →
    new.path ≠ old.path → flags = 0 ∧ ¬below old.path <+: new.path ∧
    ∃ source, before.db.tables.entries.lookup old = some source ∧
      ∀ target, before.db.tables.entries.lookup new = some target →
        target.kind = source.kind ∧
          (target.kind = .dir → ∀ key ∈ before.db.tables.entries, key.parent ≠ new.path)

/-- A target of another kind is not seen by the callback, and the rest of the rename goes
well: its statements are answered, the target can be replaced and no key is violated. -/
structure SlipsPastCheck (fs : PgFs) (old new : Key) (flags : Nat) : Prop where
  unflagged : flags = 0
  different : new.path ≠ old.path
  outside : ¬below old.path <+: new.path
  answered : fs.db.moment.fails = false
  unseen : (fs.setDb fs.db.advance).Unseen new
  mismatch : ∃ source target, fs.db.tables.attributes old = .ok (some source) ∧
    fs.db.tables.entries.lookup new = some target ∧ target.kind ≠ source.kind.text ∧
    fs.db.advance.advance.Answers (fs.db.tables.renameCount source.kind new) ∧
    (fs.db.tables.renamedTo source.kind old new 0).isSome = true

private theorem key_different (different : new.path ≠ old.path) :
    ¬(old.parent = new.parent ∧ old.name = new.name) := by
  intro same
  apply different
  rw [Key.path, Key.path, same.1, same.2]

private theorem SlipsPastCheck.run {parent newparent flags : Nat}
    (slips : SlipsPastCheck fs old new flags) (resolved : fs.pathOfIno parent = some old.parent)
    (newResolved : fs.pathOfIno newparent = some new.parent) :
    ∃ next, rename parent (some old.name) newparent (some new.name) flags fs =
      some (.ok .ok, next) := by
  have passes : ¬(flags ≠ 0 ∨ below old.path <+: new.path) := fun refused =>
    refused.elim (fun flagged => flagged slips.unflagged) slips.outside
  rw [rename_resolved resolved newResolved slips.different, if_neg passes]
  rcases slips.mismatch with ⟨source, target, attributes, _, _, answers, possible⟩
  rcases (@Db.rename_succeeds_iff fs.db.advance.advance _ _ _
    (key_different slips.different) attributes).mpr ⟨answers, possible⟩ with ⟨after, renames⟩
  exact renameResolved_eq_ok_iff.mpr ⟨slips.answered, source, _, after, attributes,
    checkTarget_unseen source.kind slips.unseen, renames⟩

private theorem slipsPastCheck_of_run {parent newparent flags : Nat} {source target : EntryRow}
    (resolved : fs.pathOfIno parent = some old.parent)
    (newResolved : fs.pathOfIno newparent = some new.parent)
    (different : new.path ≠ old.path)
    (stored : fs.db.tables.entries.lookup old = some source)
    (targetStored : fs.db.tables.entries.lookup new = some target)
    (mismatch : target.kind ≠ source.kind)
    (run : rename parent (some old.name) newparent (some new.name) flags fs =
      some (.ok .ok, next)) : SlipsPastCheck fs old new flags := by
  rw [rename_resolved resolved newResolved different] at run
  split at run
  · cases run
  rename_i passes
  rw [not_or, ne_eq, not_not] at passes
  rcases renameResolved_eq_ok_iff.mp ⟨next, run⟩ with
    ⟨answered, found, checked, after, attributes, passed, renames⟩
  have kinds : target.kind ≠ found.kind.text := by
    rw [Tables.lookup_of_attributes attributes] at stored
    cases stored
    exact mismatch
  have unseen : (fs.setDb fs.db.advance).Unseen new :=
    unseen_of_checkTarget targetStored kinds passed
  rw [checkTarget_unseen found.kind unseen] at passed
  cases passed
  rcases (@Db.rename_succeeds_iff fs.db.advance.advance _ _ _
    (key_different different) attributes).mp ⟨after, renames⟩ with ⟨answers, possible⟩
  exact ⟨passes.1, different, passes.2, answered, unseen, found, target, attributes,
    targetStored, kinds, answers, possible⟩

private theorem served_of_begun {event : Event} {reply : Except Errno Reply} {ready : PgFs}
    (renames : ∃ parent name newparent newname flags,
      event.callback = .rename parent name newparent newname flags)
    (run : Step fs ⟨event, reply⟩ next) (begun : preamble event fs = some (.ok (), ready)) :
    serve event.callback ready = some (reply, next) := by
  have started : step event fs = some (reply, next) := run
  rcases renames with ⟨parent, name, newparent, newname, flags, called⟩
  unfold step at started
  rw [called] at started ⊢
  exact (bind_of_ok begun).symm.trans started

private theorem begun_of_ok {event : Event} {parent newparent flags : Nat} {name newname : OsStr}
    (called : event.callback = .rename parent name newparent newname flags)
    (run : Step fs ⟨event, .ok .ok⟩ next) :
    ∃ ready, preamble event fs = some (.ok (), ready) := by
  have started : step event fs = some (.ok .ok, next) := run
  unfold step at started
  rw [called] at started
  rcases bind_eq_ok.mp started with ⟨_, ready, begun, _⟩
  exact ⟨ready, begun⟩

private theorem RenameGuarded.not_slipsPastCheck {event : Event} {reply : Except Errno Reply}
    {ready : PgFs} {flags : Nat} (guarded : RenameGuarded fs event.callback reply next)
    (begun : preamble event fs = some (.ok (), ready))
    (served : serve event.callback ready = some (reply, next))
    (asked : fs.Renames event.callback old new flags) : ¬ready.SlipsPastCheck old new flags := by
  intro slips
  have same := (sameMount_of_preamble begun).2
  have tables : ready.db.tables = fs.db.tables := congrArg Mount.tables same
  rcases asked with ⟨parent, newparent, called, resolved, newResolved⟩
  rcases slips.run ((pathOfIno_of_mount same parent).trans resolved)
    ((pathOfIno_of_mount same newparent).trans newResolved) with ⟨after, ran⟩
  rw [called] at served
  cases ran.symm.trans served
  rcases guarded.served rfl old new flags ⟨parent, newparent, called, resolved, newResolved⟩
    slips.different with ⟨_, _, row, stored, compatible⟩
  rcases slips.mismatch with ⟨source, target, attributes, targetStored, mismatch, _⟩
  rw [tables] at targetStored attributes
  rw [Tables.lookup_of_attributes attributes] at stored
  cases stored
  exact mismatch (compatible target targetStored).1

/-- The promises of a rename are kept, except where a target of another kind slips past
the check. -/
theorem rename_guarded_iff {event : Event} {reply : Except Errno Reply}
    (renames : ∃ parent name newparent newname flags,
      event.callback = .rename parent name newparent newname flags)
    (run : Step fs ⟨event, reply⟩ next) :
    RenameGuarded fs event.callback reply next ↔
      ∀ ready old new flags, preamble event fs = some (.ok (), ready) →
        fs.Renames event.callback old new flags → ¬ready.SlipsPastCheck old new flags := by
  constructor
  · intro guarded ready old new flags begun asked
    exact guarded.not_slipsPastCheck begun (served_of_begun renames run begun) asked
  · intro seen
    constructor
    · intro failed
      have same := run.serves.refused_rename renames failed
      exact ⟨congrArg Mount.tables same, congrArg Mount.toInodeMaps same,
        congrArg Mount.openHandles same, congrArg Mount.openHandlesByIno same⟩
    · intro replied old new flags asked different
      rcases asked with ⟨parent, newparent, called, resolved, newResolved⟩
      have serves := run.serves
      simp only [called, replied] at serves
      rcases serves.renamed resolved newResolved different with ⟨outside, kind, renamed⟩
      rcases Option.map_eq_some_iff.mp renamed.source with ⟨source, stored, _⟩
      rcases begun_of_ok called (replied ▸ run) with ⟨ready, begun⟩
      have same := (sameMount_of_preamble begun).2
      have tables : ready.db.tables = fs.db.tables := congrArg Mount.tables same
      have ran := served_of_begun renames run begun
      rw [called, replied] at ran
      have readyResolved := (pathOfIno_of_mount same parent).trans resolved
      have readyNewResolved := (pathOfIno_of_mount same newparent).trans newResolved
      have unflagged : flags = 0 := by
        have passed : rename parent (some old.name) newparent (some new.name) flags ready =
            some (.ok .ok, next) := ran
        rw [rename_resolved readyResolved readyNewResolved different] at passed
        split at passed
        · cases passed
        · rename_i passes
          exact not_not.mp (not_or.mp passes).1
      refine ⟨unflagged, outside, source, stored, fun target targetStored => ⟨?_, ?_⟩⟩
      · by_contra mismatch
        have slips := slipsPastCheck_of_run readyResolved readyNewResolved different
          (by rw [tables]; exact stored) (by rw [tables]; exact targetStored) mismatch ran
        exact seen ready old new flags begun ⟨parent, newparent, called, resolved, newResolved⟩
          slips
      · exact renamed.target target targetStored

/-- A file `a` beside another entry `d`. The query for the kind of a target fails. -/
private def fileBeside (kind : KindText) : PgFs :=
  withAttrTtl (.connect ((Tables.empty.insertEntry ⟨[], ['a']⟩ .file 0).insertEntry
    ⟨[], ['d']⟩ kind 0) false fun index => { fails := index == 1 }) 1

private theorem target_kind_unseen {source : FileMeta} {row : EntryRow}
    (attributes : (fileBeside .file).db.tables.attributes ⟨[], ['a']⟩ = .ok (some source))
    (target : (fileBeside .file).db.tables.entries.lookup ⟨[], ['d']⟩ = some row) :
    row.kind = source.kind.text := by
  have stored : (fileBeside .file).db.tables.entries.lookup ⟨[], ['d']⟩ =
      some ⟨.file, 0, 0⟩ := by decide
  have found : (fileBeside .file).db.tables.attributes ⟨[], ['a']⟩ =
      .ok (some ⟨['a'], .file, 0, 0⟩) := by decide
  cases stored.symm.trans target
  cases found.symm.trans attributes
  rfl

/-- Unseen, the target is a file as well. -/
theorem rename_guarded_iff_unseen : ∃ next,
    Step (fileBeside .file)
      ⟨{ callback := .rename 1 (some ['a']) 1 (some ['d']) 0 }, .ok .ok⟩ next ∧
    (fileBeside .file).db.advance.moment.fails = true ∧
    RenameGuarded (fileBeside .file) (.rename 1 (some ['a']) 1 (some ['d']) 0)
      (.ok .ok) next := by
  have served : ∃ next, Step (fileBeside .file)
      ⟨{ callback := .rename 1 (some ['a']) 1 (some ['d']) 0 }, .ok .ok⟩ next := ⟨_, rfl⟩
  rcases served with ⟨next, run⟩
  refine ⟨next, run, rfl, (rename_guarded_iff ⟨1, some ['a'], 1, some ['d'], 0, rfl⟩ run).mpr ?_⟩
  intro ready old new flags begun asked slips
  rcases asked with ⟨parent, newparent, called, resolved, newResolved⟩
  rcases slips.mismatch with ⟨source, target, attributes, targetStored, mismatch, _⟩
  simp only [Callback.rename.injEq, Option.some.injEq] at called
  rcases called with ⟨rfl, name, rfl, newName, _⟩
  have root : (fileBeside .file).pathOfIno 1 = some [] := by decide
  have oldKey : old = ⟨[], ['a']⟩ := by
    cases old
    cases name
    cases root.symm.trans resolved
    rfl
  have newKey : new = ⟨[], ['d']⟩ := by
    cases new
    cases newName
    cases root.symm.trans newResolved
    rfl
  cases begun
  rw [oldKey] at attributes
  rw [newKey] at targetStored
  exact mismatch (target_kind_unseen attributes targetStored)

/-- The file replaces the directory when the query for the directory's kind fails. -/
theorem rename_replaces_directory : ¬∀ fs event reply next,
    (∃ parent name newparent newname flags,
      event.callback = .rename parent name newparent newname flags) →
    Step fs ⟨event, reply⟩ next → RenameGuarded fs event.callback reply next := by
  intro claimed
  have served : ∃ next, Step (fileBeside .dir)
      ⟨{ callback := .rename 1 (some ['a']) 1 (some ['d']) 0 }, .ok .ok⟩ next := ⟨_, rfl⟩
  rcases served with ⟨next, run⟩
  have guarded := claimed _ _ _ _ ⟨1, some ['a'], 1, some ['d'], 0, rfl⟩ run
  rcases guarded.served rfl ⟨[], ['a']⟩ ⟨[], ['d']⟩ 0 ⟨1, 1, rfl, by decide, by decide⟩
    (by decide) with ⟨_, _, source, stored, compatible⟩
  have kinds := (compatible ⟨.dir, 0, 0⟩ (by decide)).1
  have file : (fileBeside .dir).db.tables.entries.lookup
      ⟨[], ['a']⟩ = some ⟨.file, 0, 0⟩ := by decide
  rw [file] at stored
  cases stored
  cases kinds

end PgFs

end Pgfs
