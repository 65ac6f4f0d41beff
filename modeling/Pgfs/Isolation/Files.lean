import Pgfs.Foundation.Unwinding
import Pgfs.Isolation.OneFile

namespace Pgfs

open MachineInt

/-! Files that are used at the same time do not see each other. -/

/-- Only the file changed: its rows, and the buffers of handles that carry its key. -/
structure Mount.OnlyFile (file : OpenFile) (before after : Mount) : Prop where
  contents : Tables.ContentsOnly file.key before.tables after.tables
  maps : after.toInodeMaps = before.toInodeMaps
  handles : ∀ fh, (∀ buffer, before.openHandles.lookup fh = some buffer →
    buffer.key ≠ file.key) → after.openHandles.lookup fh = before.openHandles.lookup fh

namespace Mount.OnlyFile

variable {file : OpenFile} {before after : Mount}

theorem of_tables {tables : Tables}
    (contents : Tables.ContentsOnly file.key before.tables tables) :
    OnlyFile file before (before.setTables tables) := ⟨contents, rfl, fun _ _ => rfl⟩

theorem refl (file : OpenFile) (mount : Mount) : OnlyFile file mount mount :=
  ⟨.refl _ _, rfl, fun _ _ => rfl⟩

theorem of_flushed {quiet : Prop} {fh : Nat} {succeeded : Bool}
    (flushed : Flushed quiet before fh succeeded after)
    (carried : ∀ buffer, before.openHandles.lookup fh = some buffer → buffer.key = file.key) :
    OnlyFile file before after := by
  cases flushed with
  | absent => exact refl file before
  | clean => exact refl file before
  | stored handle tables found pending batch =>
      refine ⟨carried handle found ▸ batch.contents, rfl, ?_⟩
      intro other foreign
      simp only [Mount.setHandles, Mount.setTables, Table.lookup_insert_eq]
      split
      · rename_i same
        rw [same] at foreign
        exact absurd (carried handle found) (foreign handle found)
      · rfl
  | lost handle found =>
      refine ⟨.refl _ _, rfl, ?_⟩
      intro other foreign
      simp only [Mount.setHandles, Table.lookup_erase_eq]
      split
      · rename_i same
        rw [same] at foreign
        exact absurd (carried handle found) (foreign handle found)
      · rfl

end Mount.OnlyFile

theorem Serves.onlyFile {quiet alone : Prop} {before after : Mount} {callback : Callback}
    {reply : Except Errno Reply} {file : OpenFile}
    (serves : Serves quiet alone before callback reply after)
    (addressed : file.Addressed callback)
    (resolved : before.pathOfIno file.ino = some file.path)
    (carried : ∀ fh ∈ file.handles, ∀ buffer, before.openHandles.lookup fh = some buffer →
      buffer.key = file.key) : before.OnlyFile file after := by
  have meant : ∀ {ino fh id : Nat}, fh ≠ 0 → before.handleId ino fh = some id → id = fh := by
    intro ino fh id given handled
    rw [Mount.handleId, if_pos given] at handled
    exact (Option.some.inj handled).symm
  cases serves with
  | refused => exact .refl file before
  | setattr => exact .refl file before
  | truncate ino newSize path reply tables located truncated =>
      cases addressed
      rw [resolved, Option.some.injEq] at located
      subst located
      exact .of_tables truncated.contents
  | read => exact .refl file before
  | flushRead ino fh id offset size succeeded reply next handled flushed =>
      rcases addressed with ⟨_, given, member, _⟩
      cases meant given handled
      exact .of_flushed flushed (carried _ member)
  | buffer ino fh id offset data handle next handled found written =>
      rcases addressed with ⟨_, given, member, _⟩
      cases meant given handled
      refine ⟨.refl _ _, rfl, ?_⟩
      intro other foreign
      simp only [Mount.setHandles, Table.lookup_insert_eq]
      split
      · rename_i same
        rw [same] at foreign
        exact absurd (carried _ member handle found) (foreign handle found)
      · rfl
  | writeThrough ino fh offset data path tables unhandled located written =>
      rcases addressed with ⟨same, _⟩
      rw [same, resolved, Option.some.injEq] at located
      subst located
      exact .of_tables written.contents
  | flushNothing => exact .refl file before
  | flush ino fh id callback succeeded next flushes handled flushed =>
      have named : fh ≠ 0 ∧ fh ∈ file.handles := by
        rcases flushes with same | same <;>
          · rw [same] at addressed
            exact addressed.2
      cases meant named.1 handled
      exact .of_flushed flushed (carried _ named.2)
  | release ino fh succeeded next flushed =>
      rcases addressed with ⟨_, given, member⟩
      have id : (before.handleId ino fh).getD 0 = fh := by
        rw [Mount.handleId, if_pos given]
        rfl
      rw [id] at flushed ⊢
      have only := Mount.OnlyFile.of_flushed flushed (carried _ member)
      refine ⟨only.contents, only.maps, ?_⟩
      intro other foreign
      rw [Mount.dropHandle, Table.lookup_erase_eq]
      split
      · rename_i same
        subst same
        cases found : before.openHandles.lookup other with
        | none => rfl
        | some buffer => exact absurd (carried _ member buffer found) (foreign buffer found)
      · exact only.handles other foreign
  | _ => cases addressed

namespace OpenFile

variable {ttl : Nat} {file owner : OpenFile} {left right next : PgFs} {event : Event}
  {reply : Except Errno Reply}

/-- What the users of another file ask for does not show. -/
theorem Looks.respects (same : file.Looks ttl left right) (owned : owner.Looks ttl left left)
    (different : owner.key ≠ file.key) (addressed : owner.Addressed event.callback)
    (run : PgFs.step event left = some (reply, next)) : file.Looks ttl next right := by
  have served := PgFs.step_serves run
  have only := served.2.onlyFile addressed owned.resolved owned.carried
  have unseen : ∀ fh ∈ file.handles,
      next.openHandles.lookup fh = left.openHandles.lookup fh := by
    intro fh member
    apply only.handles
    intro buffer found foreign
    exact different (foreign.symm.trans (same.carried fh member buffer found))
  have consistent := owned.alike_step addressed
  rcases consistent with ⟨_, after, _, otherAfter, ran, otherRan, _, reached⟩
  rw [run] at ran otherRan
  cases ran
  cases otherRan
  refine ⟨⟨reached.db.quiet, same.db.otherQuiet, ?_, ?_⟩, ?_, ?_, ?_, same.otherResolved,
    reached.attrTtl, same.otherTtl⟩
  · rw [show next.db.tables.entries.lookup file.key = left.db.tables.entries.lookup file.key from
      only.contents.entries file.key different.symm]
    exact same.db.agree.1
  · intro blockNo
    exact (only.contents.blocks file.key different.symm blockNo).trans (same.db.agree.2 blockNo)
  · intro fh member
    exact (unseen fh member).trans (same.handles fh member)
  · intro fh member buffer found
    exact same.carried fh member buffer ((unseen fh member).symm.trans found)
  · rw [show next.toInodeMaps = left.toInodeMaps from only.maps]
    exact same.resolved

end OpenFile

namespace PgFs

variable {File : Type}

/-- Files of a mount that are in use: each inode resolves to its path, different files
have different keys, and an open handle that the users of a file name carries its key. -/
structure InUse (fs : PgFs) (files : File → OpenFile) : Prop where
  resolved : ∀ file, fs.pathOfIno (files file).ino = some (files file).path
  different : ∀ {file other}, file ≠ other → (files file).key ≠ (files other).key
  carried : ∀ file, ∀ fh ∈ (files file).handles, ∀ buffer,
    fs.openHandles.lookup fh = some buffer → buffer.key = (files file).key

theorem InUse.looks {fs : PgFs} {files : File → OpenFile} (inUse : InUse fs files)
    (quiet : Db.Quiet fs.db) (file : File) : (files file).Looks fs.attrTtl fs fs where
  db := ⟨quiet, quiet, rfl, fun _ => rfl⟩
  handles _ _ := rfl
  carried := inUse.carried file
  resolved := inUse.resolved file
  otherResolved := inUse.resolved file
  attrTtl := rfl
  otherTtl := rfl

theorem InUse.unwinding {fs : PgFs} {files : File → OpenFile} (inUse : InUse fs files)
    (ttl : Nat) :
    Unwinding step (fun file event => (files file).Addressed event.callback)
      (Except.map Reply.timeless) (fun file => (files file).Looks ttl) where
  symm same := same.symm
  trans same next := same.trans next
  consistent same addressed := same.alike_step addressed
  respects same owned different addressed run :=
    same.respects owned (inUse.different different) addressed run

/-- Whatever the interleaving of the requests, each file gets the replies, apart from
times, and ends with the rows and handle buffers that it gets and ends with when only
its own requests are served. -/
theorem files_isolated [DecidableEq File] {fs : PgFs} {files : File → OpenFile}
    (inUse : InUse fs files) (quiet : Db.Quiet fs.db) {requests : List (File × Event)}
    (addressed : ∀ request ∈ requests, (files request.1).Addressed request.2.callback)
    (file : File) :
    ∃ replies final ownReplies ownFinal,
      serveShared step requests fs = some (replies, final) ∧
      serveAll step (own file requests) fs = some (ownReplies, ownFinal) ∧
      (own file replies).map (Except.map Reply.timeless) =
        ownReplies.map (Except.map Reply.timeless) ∧
      final.db.tables.AgreeAt (files file).key ownFinal.db.tables ∧
      ∀ fh ∈ (files file).handles, final.openHandles.lookup fh = ownFinal.openHandles.lookup fh := by
  have looks := inUse.looks quiet
  rcases (inUse.unwinding fs.attrTtl).isolated addressed looks (looks file) with
    ⟨replies, final, ownReplies, ownFinal, shared, alone, shown, reached⟩
  exact ⟨replies, final, ownReplies, ownFinal, shared, alone, shown, reached.db.agree,
    reached.handles⟩

private def twoFiles : PgFs :=
  { withAttrTtl (.connect ((Tables.empty.insertEntry ⟨[], ['a']⟩ .file 0).insertEntry
      ⟨[], ['b']⟩ .file 0) false fun _ => {}) 1 with
    toInodeMaps := InodeMaps.initial.allocate [['a'], ['b']]
    nextFh := 3
    openHandles := (Finmap.insert 1 (.clean [] ['a']) ∅).insert 2 (.clean [] ['b']) }

private def eitherFile : Bool → OpenFile
  | true => ⟨2, ['a'], {1}⟩
  | false => ⟨3, ['b'], {2}⟩

private def interleaved : List (Bool × Event) :=
  [(true, { callback := .write 2 1 0 [7] }), (false, { callback := .write 3 2 0 [8] }),
    (true, { callback := .flush 2 1 }), (false, { callback := .release 3 2 })]

theorem files_isolated_two : ∃ replies final ownReplies ownFinal,
    serveShared step interleaved twoFiles = some (replies, final) ∧
      serveAll step [{ callback := .write 2 1 0 [7] }, { callback := .flush 2 1 }] twoFiles =
        some (ownReplies, ownFinal) ∧
      final.db.tables.AgreeAt ⟨[], ['a']⟩ ownFinal.db.tables := by
  have firstOpen : twoFiles.openHandles.lookup 1 = some (.clean [] ['a']) := by
    simp [twoFiles]
  have secondOpen : twoFiles.openHandles.lookup 2 = some (.clean [] ['b']) := by
    simp [twoFiles]
  have inUse : InUse twoFiles eitherFile := by
    refine ⟨?_, ?_, ?_⟩
    · intro file
      cases file <;> decide
    · intro file other different
      revert file other
      decide
    · intro file fh member buffer found
      cases file with
      | true =>
          cases member
          cases firstOpen.symm.trans found
          rfl
      | false =>
          cases member
          cases secondOpen.symm.trans found
          rfl
  have addressed : ∀ request ∈ interleaved,
      (eitherFile request.1).Addressed request.2.callback := by
    intro request member
    simp only [interleaved, List.mem_cons, List.not_mem_nil, or_false] at member
    rcases member with same | same | same | same <;> subst same
    · exact ⟨rfl, by decide, rfl, by decide⟩
    · exact ⟨rfl, by decide, rfl, by decide⟩
    · exact ⟨rfl, by decide, rfl⟩
    · exact ⟨rfl, by decide, rfl⟩
  rcases files_isolated inUse (fun _ => rfl) addressed true with
    ⟨replies, final, ownReplies, ownFinal, shared, alone, _, agree, _⟩
  exact ⟨replies, final, ownReplies, ownFinal, shared, alone, agree⟩

end PgFs

end Pgfs
