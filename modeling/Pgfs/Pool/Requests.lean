import Pgfs.Fs.Fleet
import Pgfs.Fs.RenameGuards
import Pgfs.Namespace.Answering

namespace Pgfs

/-! Requests about the name of one entry as the statements that they send, each of which
the primary commits on its own. A request that has the tables to itself is the callback
of the daemon. -/

/-- A request of which the daemon has resolved the key: `lookup`, `create` for a leaf and
`mkdir` for a branch, `unlink`, and `rmdir`. -/
inductive KeyRequest
  | look (key : Key)
  | make (added : Node) (key : Key)
  | unlink (key : Key)
  | rmdir (key : Key)

/-- How far a request has come: it has found that it may insert its entry, or that there
is one to remove; it has found a directory empty; it has deleted the entry of a file. -/
inductive Progress
  | begun
  | checked
  | emptied
  | removed
  | answered (answer : NameAnswer)
  deriving DecidableEq

namespace KeyRequest

def key : KeyRequest → Key
  | .look key | .make _ key | .unlink key | .rmdir key => key

def call : KeyRequest → NameCall
  | .look key => .look (some key.names)
  | .make added key => .make added (some key.place)
  | .unlink key => .unlink (some key.place)
  | .rmdir key => .rmdir (some key.place)

def callback (parent : Nat) : KeyRequest → Callback
  | .look key => .lookup parent (some key.name)
  | .make .leaf key => .create parent (some key.name)
  | .make .branch key => .mkdir parent (some key.name)
  | .unlink key => .unlink parent (some key.name)
  | .rmdir key => .rmdir parent (some key.name)

def statements : KeyRequest → Nat
  | .look _ => 1
  | .make .. | .unlink _ => 2
  | .rmdir _ => 3

/-- How `getattr_primary` takes a request on. -/
def attributed (tables : Tables) (key : Key) (absent : Progress)
    (present : FileMeta → Progress) : Progress :=
  match tables.attributes key with
  | .error _ => .answered (.error .eio)
  | .ok none => absent
  | .ok (some fileMeta) => present fileMeta

def send (moment : Moment) (request : KeyRequest) (progress : Progress) (tables : Tables) :
    Progress × Tables :=
  if moment.fails then
    (.answered (.error .eio), tables)
  else
    match request, progress with
    | .look key, .begun =>
        (attributed tables key (.answered (.error .enoent)) fun fileMeta =>
          .answered (.ok (some fileMeta.kind.node)), tables)
    | .make _ key, .begun =>
        (attributed tables key .checked fun _ => .answered (.error .eexist), tables)
    | .make added key, .checked =>
        (.answered (.ok (some added)), tables.insertEntry key added.text moment.now)
    | .unlink key, .begun => (.removed, (tables.deleteEntry key).2)
    | .unlink key, .removed => (.answered (.ok none), tables.deleteBlocks key)
    | .rmdir key, .begun =>
        (attributed tables key (.answered (.error .enoent)) fun _ => .checked, tables)
    | .rmdir key, .checked =>
        (if tables.hasChildren key.path then .answered (.error .enotempty) else .emptied,
          tables)
    | .rmdir key, .emptied =>
        -- Another daemon may have deleted the row; that is replied as ENOTEMPTY.
        (if 0 < (tables.deleteEntry key).1 then .answered (.ok none)
          else .answered (.error .enotempty), (tables.deleteEntry key).2)
    | _, _ => (progress, tables)

/-! ## A request that has the tables to itself -/

def alone (request : KeyRequest) : Nat → Progress → Db → Progress × Db
  | 0, progress, db => (progress, db)
  | _ + 1, .answered answer, db => (.answered answer, db)
  | more + 1, progress, db =>
      let sent := request.send db.moment progress db.tables
      request.alone more sent.1 (db.advance.setTables sent.2)

@[simp] theorem alone_answered (request : KeyRequest) (more : Nat) (answer : NameAnswer)
    (db : Db) : request.alone more (.answered answer) db = (.answered answer, db) := by
  cases more <;> rfl

section

variable {request : KeyRequest} {progress taken : Progress} {more : Nat} {db : Db}

theorem send_of {moment : Moment} {tables : Tables} (answers : moment.fails = false) :
    request.send moment progress tables = request.send { moment with fails := false } progress
      tables := by
  rcases moment with ⟨⟩
  cases answers
  rfl

theorem alone_send {tables : Tables} (undecided : ∀ answer, progress ≠ .answered answer)
    (sent : request.send db.moment progress db.tables = (taken, tables)) :
    request.alone (more + 1) progress db =
      request.alone more taken (db.advance.setTables tables) := by
  cases progress with
  | answered answer => exact absurd rfl (undecided answer)
  | _ => simp only [alone, sent]

theorem alone_fails (undecided : ∀ answer, progress ≠ .answered answer)
    (fails : db.moment.fails = true) :
    request.alone (more + 1) progress db =
      request.alone more (.answered (.error .eio)) db.advance :=
  alone_send undecided (if_pos fails)

end

end KeyRequest

namespace PgFs

open Effect

variable {fs next : PgFs} {request : KeyRequest} {key : Key}

theorem callDb_of_ok {body : DbM Value} {value : Value} {after : Db}
    (run : body fs.db = some (.ok value, after)) :
    callDb body fs = some (.ok value, fs.setDb after) :=
  callDb_eq_ok.mpr ⟨after, run, rfl⟩

theorem callDb_of_error {body : DbM Value} {failure : DbError} {after : Db}
    (run : body fs.db = some (.error failure, after)) :
    callDb body fs = some (.error .eio, (fs.setDb after).countError .eio) := by
  unfold callDb tryDb
  rw [bind_apply]
  simp only [within, attempt, run]
  rfl

def Sending (fs : PgFs) (request : KeyRequest) (more : Nat) (progress : Progress)
    (body : FsM Reply) : Prop :=
  ∀ reply next, body fs = some (reply, next) →
    request.alone more progress fs.db = (.answered (reply.map Reply.node), next.db)

theorem sending_of_bind {first : FsM Value} {rest : Value → FsM Reply} {value : Value}
    {more : Nat} {progress : Progress} (run : first fs = some (.ok value, fs))
    (sending : Sending fs request more progress (rest value)) :
    Sending fs request more progress (first >>= rest) := by
  intro reply next done
  rw [bind_of_ok run] at done
  exact sending reply next done

theorem sending_callDb {body : DbM Value} {rest : Value → FsM Reply} {more fewer : Nat}
    {progress taken : Progress} {outcome : Except DbError Value} {after : Db}
    (run : body fs.db = some (outcome, after))
    (sent : request.alone more progress fs.db = request.alone fewer taken after)
    (failed : ∀ failure, outcome = .error failure → taken = .answered (.error .eio))
    (goesOn : ∀ value, outcome = .ok value →
      Sending (fs.setDb after) request fewer taken (rest value)) :
    Sending fs request more progress (callDb body >>= rest) := by
  intro reply next done
  rw [sent]
  cases outcome with
  | error failure =>
      rw [bind_of_error (callDb_of_error run)] at done
      cases done
      rw [failed failure rfl, KeyRequest.alone_answered]
      rfl
  | ok value =>
      rw [bind_of_ok (callDb_of_ok run)] at done
      exact goesOn value rfl reply next done

theorem sending_getattr {ask : DbM (Option FileMeta)} {rest : Option FileMeta → FsM Reply}
    {more : Nat} {absent : Progress} {present : FileMeta → Progress}
    (asks : ask fs.db = Db.getattrPrimary key.parent key.name fs.db)
    (sent : fs.db.moment.fails = false → request.send fs.db.moment .begun fs.db.tables =
      (KeyRequest.attributed fs.db.tables key absent present, fs.db.tables))
    (missing : Sending (fs.setDb fs.db.advance) request more absent (rest none))
    (found : ∀ fileMeta,
      Sending (fs.setDb fs.db.advance) request more (present fileMeta) (rest (some fileMeta))) :
    Sending fs request (more + 1) .begun (callDb ask >>= rest) := by
  have run := asks.trans (Db.getattrPrimary_apply fs.db key.parent key.name)
  cases fails : fs.db.moment.fails with
  | true =>
      rw [fails] at run
      exact sending_callDb run (KeyRequest.alone_fails (by simp) fails) (fun _ _ => rfl)
        fun _ contrary => by cases contrary
  | false =>
      rw [fails] at run
      have taken := sent fails
      unfold KeyRequest.attributed at taken
      cases known : fs.db.tables.attributes ⟨key.parent, key.name⟩ with
      | error failure =>
          rw [known] at taken run
          exact sending_callDb run (KeyRequest.alone_send (by simp) taken) (fun _ _ => rfl)
            fun _ contrary => by cases contrary
      | ok result =>
          rw [known] at taken run
          cases result with
          | none =>
              apply sending_callDb run (KeyRequest.alone_send (by simp) taken)
                fun _ contrary => by cases contrary
              rintro _ ⟨⟩
              exact missing
          | some fileMeta =>
              apply sending_callDb run (KeyRequest.alone_send (by simp) taken)
                fun _ contrary => by cases contrary
              rintro _ ⟨⟩
              exact found fileMeta

theorem sending_answered {more : Nat} {answer : NameAnswer} {body : FsM Reply}
    (ends : ∀ reply next, body fs = some (reply, next) →
      reply.map Reply.node = answer ∧ next.db = fs.db) :
    Sending fs request more (.answered answer) body := by
  intro reply next done
  rcases ends reply next done with ⟨same, db⟩
  rw [KeyRequest.alone_answered, same, db]

theorem sending_raise {more : Nat} {errno : Errno} :
    Sending fs request more (.answered (.error errno)) (Effect.raise errno) :=
  sending_answered fun reply next done => by
    cases done
    exact ⟨rfl, rfl⟩

variable {parent : Nat}

private theorem lookup_sends (alone : fs.db.replica = false)
    (resolved : fs.pathOfIno parent = some key.parent) :
    Sending fs (.look key) 1 .begun (lookup parent (some key.name)) := by
  have run : ((resolve parent (some key.name)).attempt : FsM _) fs =
      some (.ok (.ok (key.parent, key.name)), fs) :=
    attempt_eq_some.mpr ⟨.ok (key.parent, key.name), rfl, resolve_apply resolved⟩
  unfold lookup
  apply sending_of_bind run
  apply sending_getattr (Db.getattr_of_alone alone _ _) fun answers => KeyRequest.send_of answers
  · exact sending_raise
  · intro fileMeta
    apply sending_answered
    intro reply next done
    cases done
    exact ⟨congrArg Except.ok (node_entry _ _ _), rfl⟩

theorem sending_update {what : Message} {change : Moment → Tables → Tables}
    {rest : Unit → FsM Reply} {more : Nat} {progress taken : Progress}
    (undecided : ∀ answer, progress ≠ .answered answer)
    (sent : fs.db.moment.fails = false → request.send fs.db.moment progress fs.db.tables =
      (taken, change fs.db.moment fs.db.tables))
    (goesOn : Sending
      (fs.setDb (fs.db.advance.setTables (change fs.db.moment fs.db.tables)))
      request more taken (rest ())) :
    Sending fs request (more + 1) progress (callDb (Db.update what change) >>= rest) := by
  have run := Db.update_apply what change fs.db
  cases fails : fs.db.moment.fails with
  | true =>
      rw [fails] at run
      exact sending_callDb run (KeyRequest.alone_fails undecided fails) (fun _ _ => rfl)
        fun _ contrary => by cases contrary
  | false =>
      rw [fails] at run
      exact sending_callDb run (KeyRequest.alone_send undecided (sent fails))
        (fun _ contrary => by cases contrary) fun _ _ => goesOn

private theorem sending_make {added : Node} {what : Message} {rest : Unit → FsM Reply}
    (ends : ∀ before reply next, rest () before = some (reply, next) →
      reply.map Reply.node = .ok (some added) ∧ next.db = before.db) :
    Sending fs (.make added key) 2 .begun (checkAbsent key.parent key.name >>= fun _ =>
      callDb (Db.update what fun moment tables =>
        tables.insertEntry key added.text moment.now) >>= rest) := by
  unfold checkAbsent
  rw [bind_bind]
  apply sending_getattr rfl fun answers => KeyRequest.send_of answers
  · apply sending_update (by simp) fun answers => KeyRequest.send_of answers
    exact sending_answered fun reply next done => ends _ reply next done
  · intro fileMeta
    exact sending_raise

private theorem create_sends (resolved : fs.pathOfIno parent = some key.parent) :
    Sending fs (.make .leaf key) 2 .begun (create parent (some key.name)) := by
  unfold create
  apply sending_of_bind (resolve_apply resolved)
  apply sending_make
  intro before reply next done
  cases done
  exact ⟨rfl, rfl⟩

private theorem mkdir_sends (resolved : fs.pathOfIno parent = some key.parent) :
    Sending fs (.make .branch key) 2 .begun (mkdir parent (some key.name)) := by
  unfold mkdir
  apply sending_of_bind (resolve_apply resolved)
  apply sending_make
  intro before reply next done
  cases done
  exact ⟨rfl, rfl⟩

private theorem unlink_sends (resolved : fs.pathOfIno parent = some key.parent) :
    Sending fs (.unlink key) 2 .begun (unlink parent (some key.name)) := by
  unfold unlink
  apply sending_of_bind (resolve_apply resolved)
  have first := Db.update_apply ⟨"remove file _ from _", [key.name, key.parent]⟩
    (fun _ tables => (tables.deleteEntry key).2) fs.db
  cases fails : fs.db.moment.fails with
  | true =>
      rw [fails] at first
      exact sending_callDb (bind_of_error first) (KeyRequest.alone_fails (by simp) fails)
        (fun _ _ => rfl) fun _ contrary => by cases contrary
  | false =>
      rw [fails] at first
      let middle := fs.db.advance.setTables (fs.db.tables.deleteEntry key).2
      have sent : KeyRequest.alone (.unlink key) 2 .begun fs.db =
          KeyRequest.alone (.unlink key) 1 .removed middle :=
        KeyRequest.alone_send (by simp) (KeyRequest.send_of fails)
      have second := Db.update_apply
        ⟨"remove blocks of file _ from _", [key.name, key.parent]⟩
        (fun _ tables => tables.deleteBlocks key) middle
      cases failsLater : middle.moment.fails with
      | true =>
          rw [failsLater] at second
          exact sending_callDb ((bind_of_ok first).trans second)
            (sent.trans (KeyRequest.alone_fails (by simp) failsLater)) (fun _ _ => rfl)
            fun _ contrary => by cases contrary
      | false =>
          rw [failsLater] at second
          apply sending_callDb ((bind_of_ok first).trans second)
            (sent.trans (KeyRequest.alone_send (by simp) (KeyRequest.send_of failsLater)))
            fun _ contrary => by cases contrary
          rintro _ _
          apply sending_answered
          intro reply next done
          cases done
          exact ⟨rfl, rfl⟩

private theorem sending_rmdir {rest : Bool → FsM Reply}
    (removes : ∀ before, Sending before (.rmdir key) 0 (.answered (.ok none)) (rest true))
    (refuses : ∀ before more,
      Sending before (.rmdir key) more (.answered (.error .enotempty)) (rest false)) :
    Sending fs (.rmdir key) 2 .checked (callDb (Db.rmdir key.parent key.name) >>= rest) := by
  have asked := Db.query_apply ⟨"check whether _ in _ is empty", [key.name, key.parent]⟩
    (fun tables => tables.hasChildren key.path) fs.db
  cases fails : fs.db.moment.fails with
  | true =>
      rw [fails] at asked
      exact sending_callDb (bind_of_error asked) (KeyRequest.alone_fails (by simp) fails)
        (fun _ _ => rfl) fun _ contrary => by cases contrary
  | false =>
      rw [fails] at asked
      have run : Db.rmdir key.parent key.name fs.db = _ := bind_of_ok asked
      cases occupied : fs.db.tables.hasChildren key.path with
      | true =>
          rw [occupied] at run
          have sent : KeyRequest.send fs.db.moment (.rmdir key) .checked fs.db.tables =
              (.answered (.error .enotempty), fs.db.tables) := by
            rw [KeyRequest.send_of fails]
            simp [KeyRequest.send, occupied]
          apply sending_callDb run (KeyRequest.alone_send (by simp) sent)
            fun _ contrary => by cases contrary
          rintro _ ⟨⟩
          exact refuses _ _
      | false =>
          rw [occupied] at run
          have sent : KeyRequest.send fs.db.moment (.rmdir key) .checked fs.db.tables =
              (.emptied, fs.db.tables) := by
            rw [KeyRequest.send_of fails]
            simp [KeyRequest.send, occupied]
          have first : KeyRequest.alone (.rmdir key) 2 .checked fs.db =
              KeyRequest.alone (.rmdir key) 1 .emptied fs.db.advance :=
            KeyRequest.alone_send (by simp) sent
          let deleted := fs.db.advance.tables.deleteEntry key
          have second : Db.execute ⟨"remove directory _ from _", [key.name, key.parent]⟩
              (fun _ tables => some (tables.deleteEntry key)) fs.db.advance =
              if fs.db.advance.moment.fails then
                some (.error (.ctx ⟨"remove directory _ from _", [key.name, key.parent]⟩),
                  fs.db.advance.advance)
              else
                some (.ok deleted.1, fs.db.advance.advance.setTables deleted.2) := rfl
          cases failsLater : fs.db.advance.moment.fails with
          | true =>
              rw [failsLater] at second
              exact sending_callDb (run.trans (bind_of_error second))
                (first.trans (KeyRequest.alone_fails (by simp) failsLater)) (fun _ _ => rfl)
                fun _ contrary => by cases contrary
          | false =>
              rw [failsLater] at second
              have last : Db.rmdir key.parent key.name fs.db = some (.ok (decide (0 < deleted.1)),
                  fs.db.advance.advance.setTables deleted.2) :=
                run.trans (bind_of_ok second)
              have sentLast : KeyRequest.send fs.db.advance.moment (.rmdir key) .emptied
                  fs.db.advance.tables = (if 0 < deleted.1 then .answered (.ok none)
                    else .answered (.error .enotempty), deleted.2) :=
                KeyRequest.send_of failsLater
              apply sending_callDb last
                (first.trans (KeyRequest.alone_send (by simp) sentLast))
                fun _ contrary => by cases contrary
              rintro _ ⟨⟩
              by_cases some : 0 < deleted.1
              · rw [if_pos some, decide_eq_true some]
                exact removes _
              · rw [if_neg some, decide_eq_false some]
                exact refuses _ _

private theorem rmdir_sends (resolved : fs.pathOfIno parent = some key.parent) :
    Sending fs (.rmdir key) 3 .begun (rmdir parent (some key.name)) := by
  unfold rmdir
  apply sending_of_bind (resolve_apply resolved)
  apply sending_getattr rfl fun answers => KeyRequest.send_of answers
  · exact sending_raise
  · intro fileMeta
    apply sending_rmdir
    · intro before
      apply sending_answered
      intro reply next done
      cases done
      exact ⟨rfl, rfl⟩
    · intro before more
      exact sending_raise

/-- A request that has the tables to itself is its callback, in every world. -/
theorem serve_sends (alone : fs.db.replica = false)
    (resolved : fs.pathOfIno parent = some request.key.parent) :
    Sending fs request request.statements .begun (serve (request.callback parent)) := by
  cases request with
  | look key => exact lookup_sends alone resolved
  | make added key =>
      cases added with
      | leaf => exact create_sends resolved
      | branch => exact mkdir_sends resolved
  | unlink key => exact unlink_sends resolved
  | rmdir key => exact rmdir_sends resolved

end PgFs

end Pgfs
