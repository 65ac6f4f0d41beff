import Pgfs.Db.Reordering
import Pgfs.Fs.RenameGuards
import Pgfs.Inodes.Moving

namespace Pgfs

open Effect

/-! Hash maps are iterated in an order that nobody promises, and that may differ from
one start of the daemon to the next. It shows neither in a reply nor in what is stored:
the blocks of a batch can be stored in any sequence, and the cached paths below a
renamed directory can be rekeyed in any sequence. -/

namespace InodeMaps

variable {maps : InodeMaps}

theorem WellNumbered.rekeyOne_comm (numbered : WellNumbered maps)
    {oldPath newPath other otherNew : Str} (sources : other ≠ oldPath)
    (targets : otherNew ≠ newPath) (away : newPath ≠ other) (otherAway : otherNew ≠ oldPath) :
    (maps.rekeyOne oldPath newPath).rekeyOne other otherNew =
      (maps.rekeyOne other otherNew).rekeyOne oldPath newPath := by
  have untouched : ∀ ino, ((maps.inoByPath.erase oldPath).insert newPath ino).lookup other =
      maps.inoByPath.lookup other := by
    intro ino
    rw [Table.lookup_insert_eq, if_neg away.symm, Table.lookup_erase_eq, if_neg sources]
  have otherUntouched : ∀ ino, ((maps.inoByPath.erase other).insert otherNew ino).lookup
      oldPath = maps.inoByPath.lookup oldPath := by
    intro ino
    rw [Table.lookup_insert_eq, if_neg otherAway.symm, Table.lookup_erase_eq,
      if_neg sources.symm]
  cases cached : maps.inoByPath.lookup oldPath with
  | none =>
      have uncached : ∀ ino, ((maps.inoByPath.erase other).insert otherNew ino).lookup
          oldPath = none := fun ino => (otherUntouched ino).trans cached
      cases otherCached : maps.inoByPath.lookup other with
      | none => simp [InodeMaps.rekeyOne, cached, otherCached]
      | some otherIno => simp [InodeMaps.rekeyOne, cached, otherCached, uncached]
  | some ino =>
      cases otherCached : maps.inoByPath.lookup other with
      | none =>
          have uncached : ∀ ino, ((maps.inoByPath.erase oldPath).insert newPath ino).lookup
              other = none := fun ino => (untouched ino).trans otherCached
          simp [InodeMaps.rekeyOne, cached, otherCached, uncached]
      | some otherIno =>
          have apart : ino ≠ otherIno := by
            intro same
            subst same
            exact sources (numbered.injective other oldPath ino otherCached cached)
          simp only [InodeMaps.rekeyOne, cached, otherCached, untouched, otherUntouched,
            InodeMaps.mk.injEq, and_true]
          constructor
          · apply Finmap.ext_lookup
            intro path
            simp only [Table.lookup_insert_eq, Table.lookup_erase_eq]
            grind
          · apply Finmap.ext_lookup
            intro number
            simp only [Table.lookup_insert_eq]
            grind

private theorem exists_moved_of_mem {order : Table.Order Str Nat} {oldPath newPath : Str}
    {update : Str × Str} (member : update ∈ descendantUpdates order maps oldPath newPath) :
    ∃ path, AtOrBelow oldPath path ∧ update = (path, movePath oldPath newPath path) := by
  rcases List.mem_map.mp member with ⟨path, listed, rfl⟩
  have inside := List.isPrefixOf_iff_prefix.mp (List.mem_filter.mp listed).2
  exact ⟨path, .inr inside, by rw [movePath_below inside]⟩

theorem WellNumbered.rekeyMaps_eq (numbered : WellNumbered maps) {oldPath newPath : Str}
    (outside : ¬AtOrBelow oldPath newPath) (apart : ¬AtOrBelow newPath oldPath)
    (order other : Table.Order Str Nat) :
    maps.rekeyMaps order oldPath newPath = maps.rekeyMaps other oldPath newPath := by
  have permuted : (descendantUpdates order (maps.rekeyOne oldPath newPath) oldPath newPath).Perm
      (descendantUpdates other (maps.rekeyOne oldPath newPath) oldPath newPath) :=
    ((order.perm other _).filter _).map _
  apply Table.foldl_eq_of_perm permuted (fun _ _ _ numbered => numbered.rekeyOne _ _) _
    (numbered.rekeyOne oldPath newPath)
  intro current first firstMem second secondMem currentNumbered
  rcases exists_moved_of_mem firstMem with ⟨path, inside, rfl⟩
  rcases exists_moved_of_mem secondMem with ⟨otherPath, otherInside, rfl⟩
  by_cases same : otherPath = path
  · rw [same]
  · have away : ∀ source target, AtOrBelow oldPath source → AtOrBelow oldPath target →
        movePath oldPath newPath source ≠ target := by
      intro source target sourceInside targetInside meets
      have arrives := @atOrBelow_movePath oldPath newPath source sourceInside
      rcases atOrBelow_comparable targetInside (meets ▸ arrives) with nested | nested
      · exact outside nested
      · exact apart nested
    apply currentNumbered.rekeyOne_comm same
    · exact fun meets => same (movePath_injective otherInside inside meets)
    · exact away path otherPath inside otherInside
    · exact away otherPath path otherInside inside

end InodeMaps

def Callback.MovesSideways (callback : Callback) (maps : InodeMaps) : Prop :=
  ∀ paths ∈ callback.renamePaths maps, ¬below paths.2 <+: paths.1

instance (callback : Callback) (maps : InodeMaps) : Decidable (callback.MovesSideways maps) :=
  inferInstanceAs (Decidable (∀ paths ∈ callback.renamePaths maps, ¬below paths.2 <+: paths.1))

namespace PgFs

def reordered (orders : HashOrders) (fs : PgFs) : PgFs := fs.setDb (fs.db.reordered orders)

variable {orders : HashOrders}

private theorem handleId_reordered (fs : PgFs) (ino fh : Nat) :
    (fs.reordered orders).handleId ino fh = fs.handleId ino fh := rfl

def OrderBlind (orders : HashOrders) (body : FsM Value) : Prop :=
  ∀ fs, Mirrors (reordered orders) Eq id fs body body

theorem OrderBlind.bind {first : FsM Value} {next : Value → FsM Result}
    (firstBlind : OrderBlind orders first) (nextBlind : ∀ value, OrderBlind orders (next value)) :
    OrderBlind orders (first >>= next) := fun fs =>
  (firstBlind fs).andThen fun value middle _ => nextBlind value middle

private theorem orderBlind_pure (value : Value) : OrderBlind orders (pure value) :=
  fun _ => mirrors_pure rfl

private theorem orderBlind_raise (errno : Errno) : OrderBlind orders (raise errno : FsM Value) :=
  fun _ => mirrors_raise rfl

private theorem orderBlind_orAbort (value : Option Value) :
    OrderBlind orders (orAbort value : FsM Value) := fun _ => mirrors_orAbort value

private theorem orderBlind_modify_bind {update : PgFs → PgFs} {next : Unit → FsM Value}
    (same : ∀ fs, update (reordered orders fs) = reordered orders (update fs))
    (nextBlind : OrderBlind orders (next ())) : OrderBlind orders (modify update >>= next) :=
  fun fs => mirrors_modify_bind (same fs) (nextBlind (update fs))

private theorem orderBlind_get_bind {next : PgFs → FsM Value}
    (same : ∀ fs, next (reordered orders fs) = next fs)
    (nextBlind : ∀ fs, OrderBlind orders (next fs)) : OrderBlind orders (get >>= next) := by
  intro fs
  apply mirrors_get_bind
  rw [same]
  exact nextBlind fs fs

private theorem mirrors_tryDb {body : DbM Value} (blind : Db.OrderBlind orders body) (fs : PgFs) :
    Mirrors (reordered orders) Eq Except.toOption fs (tryDb body) (tryDb body) :=
  (blind fs.db).attempt.within rfl fun _ => rfl

private theorem orderBlind_logAndReply : OrderBlind orders (logAndReply : FsM Value) :=
  orderBlind_modify_bind (fun _ => rfl) (orderBlind_raise _)

private theorem OrderBlind.after_tryDb {body : DbM Value} {next : Except DbError Value → FsM Result}
    (blind : Db.OrderBlind orders body) (onOk : ∀ value, OrderBlind orders (next (.ok value)))
    (onError : ∀ fs failure other,
      Mirrors (reordered orders) Eq id fs (next (.error failure)) (next (.error other))) :
    OrderBlind orders (tryDb body >>= next) := fun fs =>
  (mirrors_tryDb blind fs).bindOutcome onOk fun failure other middle =>
    onError middle failure other

theorem orderBlind_callDb {body : DbM Value} (blind : Db.OrderBlind orders body) :
    OrderBlind orders (callDb body) :=
  .after_tryDb blind orderBlind_pure fun fs _ _ => orderBlind_logAndReply fs

private theorem orderBlind_pathOrEnoent (ino : Nat) : OrderBlind orders (pathOrEnoent ino) := by
  apply orderBlind_get_bind (fun _ => rfl)
  intro fs
  cases fs.pathOfIno ino with
  | none => exact orderBlind_raise _
  | some path => exact orderBlind_pure path

private theorem orderBlind_resolve (parent : Nat) (name : OsStr) :
    OrderBlind orders (resolve parent name) := by
  apply (orderBlind_pathOrEnoent parent).bind
  intro path
  cases name with
  | none => exact orderBlind_raise _
  | some name => exact orderBlind_pure _

private theorem orderBlind_inoFor (path : Str) : OrderBlind orders (inoFor path) := by
  apply orderBlind_get_bind (fun _ => rfl)
  intro fs
  exact orderBlind_modify_bind (fun _ => rfl) (orderBlind_pure _)

private theorem orderBlind_attrTtl (reply : Nat → Reply) :
    OrderBlind orders (do return reply (← Effect.get).attrTtl) :=
  orderBlind_get_bind (fun _ => rfl) fun _ => orderBlind_pure _

private theorem mirrors_flushHandle (fh : Nat) (fs : PgFs) :
    Mirrors (reordered orders) Eq Except.toOption fs (flushHandle fh) (flushHandle fh) := by
  have sameHandles : (fs.reordered orders).openHandles = fs.openHandles := rfl
  apply mirrors_get_bind
  rw [sameHandles]
  cases fs.openHandles.lookup fh with
  | none => exact mirrors_pure rfl
  | some handle =>
      refine mirrors_modify_bind rfl ?_
      split
      · apply (mirrors_tryDb (Db.orderBlind_writeBlocksBatch _ _ _ _) _).bindOutcome
        · intro _ later
          exact mirrors_modify_bind rfl (mirrors_pure rfl)
        · intro _ _ later
          exact mirrors_pure rfl
      · exact mirrors_modify_bind rfl (mirrors_pure rfl)

/-! ## Callbacks -/

private theorem orderBlind_lookup (parent : Nat) (name : OsStr) :
    OrderBlind orders (lookup parent name) := by
  have resolves : OrderBlind orders (resolve parent name).attempt := fun fs =>
    (orderBlind_resolve parent name fs).attempt_same
  apply resolves.bind
  intro resolved
  cases resolved with
  | error errno => exact orderBlind_modify_bind (fun _ => rfl) (orderBlind_raise errno)
  | ok place =>
      apply (orderBlind_callDb (Db.orderBlind_getattr _ _)).bind
      intro found
      cases found with
      | none => exact orderBlind_raise _
      | some fileMeta =>
          apply (orderBlind_inoFor _).bind
          intro ino
          exact orderBlind_attrTtl (Reply.entry · (attrOf ino fileMeta))

private theorem orderBlind_getattr (ino : Nat) : OrderBlind orders (getattr ino) := by
  unfold getattr
  split
  · exact orderBlind_attrTtl (Reply.attr · rootAttr)
  apply (orderBlind_pathOrEnoent ino).bind
  intro path
  apply (orderBlind_callDb (Db.orderBlind_getattr _ _)).bind
  intro found
  cases found with
  | none => exact orderBlind_raise _
  | some fileMeta => exact orderBlind_attrTtl (Reply.attr · (attrOf ino fileMeta))

private theorem orderBlind_replyAttr (ino : Nat) (parent name : Str) :
    OrderBlind orders (do
      match ← callDb (Db.getattrPrimary parent name) with
      | some fileMeta => return Reply.attr (← Effect.get).attrTtl (attrOf ino fileMeta)
      | none => Effect.raise .enoent) := by
  apply (orderBlind_callDb (Db.orderBlind_getattrPrimary parent name)).bind
  intro found
  cases found with
  | none => exact orderBlind_raise _
  | some fileMeta => exact orderBlind_attrTtl (Reply.attr · (attrOf ino fileMeta))

private theorem orderBlind_setattr (ino : Nat) (size : Option Nat) :
    OrderBlind orders (setattr ino size) := by
  unfold setattr
  split
  · exact orderBlind_attrTtl (Reply.attr · rootAttr)
  apply (orderBlind_pathOrEnoent ino).bind
  intro path
  dsimp only
  apply (orderBlind_callDb (Db.orderBlind_getattrPrimary _ _)).bind
  intro found
  cases found with
  | none => exact orderBlind_raise _
  | some fileMeta =>
      cases size with
      | none => exact (orderBlind_pure ()).bind fun _ => orderBlind_replyAttr _ _ _
      | some newSize =>
          dsimp only
          split
          · exact (orderBlind_raise _).bind fun _ => orderBlind_replyAttr _ _ _
          · exact (orderBlind_callDb (Db.orderBlind_truncate _ _ _)).bind fun _ =>
              orderBlind_replyAttr _ _ _

private theorem orderBlind_readStored (ino start size : Nat)
    {reply : Option (List UInt8) → FsM Reply} (replies : ∀ found, OrderBlind orders (reply found)) :
    OrderBlind orders (pathOrEnoent ino >>= fun path =>
      callDb (Db.readRange (splitPath path).1 (splitPath path).2 start size) >>=
        reply) :=
  (orderBlind_pathOrEnoent ino).bind fun _ =>
    (orderBlind_callDb (Db.orderBlind_readRange _ _ _ _)).bind replies

private theorem orderBlind_read (ino fh : Nat) (offset : Int) (size : Nat) :
    OrderBlind orders (read ino fh offset size) := by
  intro fs
  apply mirrors_get_bind
  rw [handleId_reordered]
  cases fs.handleId ino fh with
  | none =>
      refine orderBlind_readStored ino _ size ?_ fs
      intro found
      cases found with
      | none => exact orderBlind_raise _
      | some data => exact orderBlind_pure _
  | some id =>
      apply (mirrors_flushHandle id fs).bind
      intro _ _ flushed _ _
      refine orderBlind_readStored ino _ size ?_ flushed
      intro found
      cases found with
      | none => exact orderBlind_raise _
      | some data => exact orderBlind_pure _

private theorem orderBlind_write (ino fh : Nat) (offset : Int) (data : List UInt8) :
    OrderBlind orders (write ino fh offset data) := by
  apply orderBlind_get_bind (fun _ => rfl)
  intro fs
  split
  · apply (orderBlind_orAbort _).bind
    intro buffer
    exact orderBlind_modify_bind (fun _ => rfl) (orderBlind_pure _)
  · apply (orderBlind_pathOrEnoent ino).bind
    intro path
    exact (orderBlind_callDb (Db.orderBlind_writeRange _ _ _ _)).bind fun _ => orderBlind_pure _

private theorem orderBlind_openHandle (parent name : Str) :
    OrderBlind orders (openHandle parent name) := by
  apply orderBlind_get_bind (fun _ => rfl)
  intro fs
  exact orderBlind_modify_bind (fun _ => rfl) (orderBlind_pure _)

private theorem orderBlind_open (ino : Nat) : OrderBlind orders («open» ino) := by
  apply (orderBlind_pathOrEnoent ino).bind
  intro path
  apply (orderBlind_openHandle _ _).bind
  intro fh
  exact orderBlind_modify_bind (fun _ => rfl) (orderBlind_pure _)

private theorem orderBlind_flush (ino fh : Nat) : OrderBlind orders (flush ino fh) := by
  intro fs
  apply mirrors_get_bind
  rw [handleId_reordered]
  cases fs.handleId ino fh with
  | none => exact mirrors_pure rfl
  | some id =>
      apply (mirrors_flushHandle id fs).bindOutcome
      · intro _ middle
        exact mirrors_pure rfl
      · intro _ _ middle
        exact orderBlind_logAndReply middle

private theorem orderBlind_release (ino fh : Nat) : OrderBlind orders (release ino fh) := by
  intro fs
  apply mirrors_get_bind
  apply (mirrors_flushHandle _ fs).bind
  intro _ _ middle _ _
  exact mirrors_modify_bind rfl (mirrors_pure rfl)

private theorem orderBlind_checkAbsent (parent name : Str) :
    OrderBlind orders (checkAbsent parent name) := by
  apply (orderBlind_callDb (Db.orderBlind_getattrPrimary parent name)).bind
  intro found
  split
  · exact orderBlind_raise _
  · exact orderBlind_pure ()

private theorem orderBlind_create (parent : Nat) (name : OsStr) :
    OrderBlind orders (create parent name) := by
  apply (orderBlind_resolve parent name).bind
  intro place
  apply (orderBlind_checkAbsent _ _).bind
  intro _
  apply (orderBlind_callDb (Db.orderBlind_create _ _)).bind
  intro _
  apply (orderBlind_openHandle _ _).bind
  intro fh
  apply (orderBlind_inoFor _).bind
  intro ino
  exact orderBlind_get_bind (fun _ => rfl) fun _ => orderBlind_pure _

private theorem orderBlind_mkdir (parent : Nat) (name : OsStr) :
    OrderBlind orders (mkdir parent name) := by
  apply (orderBlind_resolve parent name).bind
  intro place
  apply (orderBlind_checkAbsent _ _).bind
  intro _
  apply (orderBlind_callDb (Db.orderBlind_mkdir _ _)).bind
  intro _
  apply (orderBlind_inoFor _).bind
  intro ino
  exact orderBlind_attrTtl (Reply.entry · (dirAttr ino))

private theorem orderBlind_forgetPath (path : Str) (reply : Reply) :
    OrderBlind orders (do
      forgetPath path
      return reply) :=
  orderBlind_modify_bind (fun _ => rfl) (orderBlind_pure reply)

private theorem orderBlind_unlink (parent : Nat) (name : OsStr) :
    OrderBlind orders (unlink parent name) := by
  apply (orderBlind_resolve parent name).bind
  intro place
  apply (orderBlind_callDb (Db.orderBlind_unlink _ _)).bind
  intro _
  exact orderBlind_forgetPath _ _

private theorem orderBlind_rmdir (parent : Nat) (name : OsStr) :
    OrderBlind orders (rmdir parent name) := by
  apply (orderBlind_resolve parent name).bind
  intro place
  apply (orderBlind_callDb (Db.orderBlind_getattrPrimary _ _)).bind
  intro found
  cases found with
  | none => exact orderBlind_raise _
  | some fileMeta =>
      apply (orderBlind_callDb (Db.orderBlind_rmdir _ _)).bind
      intro removed
      split
      · exact orderBlind_forgetPath _ _
      · exact orderBlind_raise _

private theorem orderBlind_childEntries (path : Str) (children : List FileMeta) :
    OrderBlind orders (childEntries path children) := by
  induction children with
  | nil => exact orderBlind_pure []
  | cons child rest induction =>
      apply (orderBlind_inoFor _).bind
      intro ino
      exact induction.bind fun _ => orderBlind_pure _

private theorem orderBlind_readdir (ino : Nat) (offset : Int) (room : Nat) :
    OrderBlind orders (readdir ino offset room) := by
  apply (orderBlind_pathOrEnoent ino).bind
  intro path
  apply (orderBlind_inoFor _).bind
  intro parent
  apply (orderBlind_callDb (Db.orderBlind_list path)).bind
  intro children
  exact (orderBlind_childEntries path children).bind fun _ => orderBlind_pure _

private theorem orderBlind_checkTarget (source : Kind) (newParent newName : Str) :
    OrderBlind orders (checkTarget source newParent newName) := by
  refine .after_tryDb (Db.orderBlind_getattrPrimary newParent newName) ?_
    fun _ _ _ => mirrors_pure rfl
  intro found
  cases found with
  | none => exact orderBlind_pure ()
  | some target =>
      dsimp only
      split
      · exact orderBlind_raise _
      · exact orderBlind_raise _
      · apply (orderBlind_callDb (Db.orderBlind_listPrimary _)).bind
        intro children
        split
        · exact orderBlind_raise _
        · exact orderBlind_pure ()
      · exact orderBlind_pure ()

private theorem sameMaps_of_checkTarget {source : Kind} {newParent newName : Str} {fs next : PgFs}
    (run : checkTarget source newParent newName fs = some (.ok (), next)) :
    next.toInodeMaps = fs.toInodeMaps := by
  rcases bind_eq_ok.mp run with ⟨outcome, middle, tried, rest⟩
  rcases tryDb_eq_ok.mp tried with ⟨db, _, rfl⟩
  cases outcome with
  | error failure =>
      cases rest
      rfl
  | ok found =>
      cases found with
      | none =>
          cases rest
          rfl
      | some target =>
          rcases target with ⟨_, kind, _, _⟩
          cases source with
          | file =>
              cases kind <;> cases rest
              rfl
          | dir =>
              cases kind with
              | file => cases rest
              | dir =>
                  rcases bind_eq_ok.mp rest with ⟨children, last, listed, done⟩
                  rcases callDb_eq_ok.mp listed with ⟨listedDb, _, rfl⟩
                  split at done
                  · cases done
                  · cases done
                    rfl

private theorem not_atOrBelow_of_sideways {fs : PgFs} {parent newparent flags : Nat}
    {old new : Key}
    (sideways : (Callback.rename parent (some old.name) newparent (some new.name)
      flags).MovesSideways fs.toInodeMaps)
    (resolved : fs.pathOfIno parent = some old.parent)
    (newResolved : fs.pathOfIno newparent = some new.parent) (different : new.path ≠ old.path) :
    ¬AtOrBelow new.path old.path := by
  intro nested
  rcases nested with same | prefixed
  · exact different same.symm
  · exact sideways _ (@renamePaths_eq _ _ _ old new flags resolved newResolved) prefixed

/-- Only a directory that is moved to where one of its ancestors is could show the
order, as then a path that is to be moved may be where another one goes. -/
private theorem mirrors_rename {fs : PgFs} (numbered : fs.WellNumbered) {parent newparent flags : Nat}
    {name newname : OsStr}
    (sideways : (Callback.rename parent name newparent newname flags).MovesSideways
      fs.toInodeMaps) :
    Mirrors (reordered orders) Eq id fs (rename parent name newparent newname flags)
      (rename parent name newparent newname flags) := by
  unfold rename
  split
  · exact mirrors_raise rfl
  apply (orderBlind_resolve parent name fs).andThen
  intro old found resolving
  apply (orderBlind_resolve newparent newname found).andThen
  intro new ready newResolving
  rcases old with ⟨oldParent, oldName⟩
  rcases new with ⟨newParent, newName⟩
  have resolved := (@yields_resolve fs (fun _ _ => True) parent name trivial _ _ resolving).2
  have newResolved :=
    (@yields_resolve found (fun _ _ => True) newparent newname trivial _ _ newResolving).2
  have sameMount : found.mount = fs.mount := resolved.1
  dsimp only
  split
  · exact mirrors_pure rfl
  split
  · exact mirrors_raise rfl
  rename_i different inside
  have outside : ¬AtOrBelow (join oldParent oldName) (join newParent newName) := by
    intro nested
    rcases nested with same | prefixed
    · exact different same
    · exact inside (List.isPrefixOf_iff_prefix.mpr prefixed)
  have apart : ¬AtOrBelow (join newParent newName) (join oldParent oldName) := by
    rcases resolved with ⟨_, known, rfl⟩
    rcases newResolved with ⟨_, newKnown, rfl⟩
    have newPath : fs.pathOfIno newparent = some newParent :=
      (congrArg (fun mount : Mount => mount.pathOfIno newparent) sameMount).symm.trans newKnown
    exact @not_atOrBelow_of_sideways _ _ _ _ ⟨oldParent, oldName⟩ ⟨newParent, newName⟩ sideways
      known newPath different
  apply (orderBlind_callDb (Db.orderBlind_getattrPrimary _ _) ready).andThen
  intro source asked asking
  cases source with
  | none => exact mirrors_raise rfl
  | some source =>
      apply (orderBlind_checkTarget _ _ _ asked).andThen
      intro _ checked checking
      apply (orderBlind_callDb (Db.orderBlind_rename _ _ _ _) checked).andThen
      intro _ moved moving
      rcases callDb_eq_ok.mp asking with ⟨askedDb, _, rfl⟩
      rcases callDb_eq_ok.mp moving with ⟨movedDb, _, rfl⟩
      have unchanged : checked.toInodeMaps = fs.toInodeMaps :=
        (sameMaps_of_checkTarget checking).trans ((congrArg Mount.toInodeMaps newResolved.1).trans
          (congrArg Mount.toInodeMaps sameMount))
      rw [← unchanged] at numbered
      refine mirrors_modify_bind ?_ (mirrors_pure rfl)
      show reordered orders ((checked.setDb movedDb).setMaps (checked.toInodeMaps.rekeyMaps _ _ _)) =
        reordered orders ((checked.setDb movedDb).setMaps (checked.toInodeMaps.rekeyMaps _ _ _))
      rw [numbered.rekeyMaps_eq outside apart]

/-! ## Runs -/

private theorem mirrors_serve {fs : PgFs} (numbered : fs.WellNumbered) {callback : Callback}
    (sideways : callback.MovesSideways fs.toInodeMaps) :
    Mirrors (reordered orders) Eq id fs (serve callback) (serve callback) := by
  cases callback with
  | lookup parent name => exact orderBlind_lookup parent name fs
  | getattr ino => exact orderBlind_getattr ino fs
  | setattr ino size => exact orderBlind_setattr ino size fs
  | read ino fh offset size => exact orderBlind_read ino fh offset size fs
  | write ino fh offset data => exact orderBlind_write ino fh offset data fs
  | «open» ino => exact orderBlind_open ino fs
  | flush ino fh => exact orderBlind_flush ino fh fs
  | fsync ino fh => exact orderBlind_flush ino fh fs
  | release ino fh => exact orderBlind_release ino fh fs
  | rename parent name newparent newname flags => exact mirrors_rename numbered sideways
  | create parent name => exact orderBlind_create parent name fs
  | mkdir parent name => exact orderBlind_mkdir parent name fs
  | unlink parent name => exact orderBlind_unlink parent name fs
  | rmdir parent name => exact orderBlind_rmdir parent name fs
  | readdir ino offset room => exact orderBlind_readdir ino offset room fs

private theorem orderBlind_preamble (event : Event) : OrderBlind orders (preamble event) := by
  have answers : OrderBlind orders (if !event.alive then raise .eio else pure ()) := by
    split
    · exact orderBlind_raise _
    · exact orderBlind_pure ()
  unfold preamble
  dsimp only
  split
  · exact (orderBlind_callDb Db.orderBlind_replicaState).bind fun _ => answers
  · exact answers

private theorem mirrors_step {fs : PgFs} (numbered : fs.WellNumbered) {event : Event}
    (sideways : event.callback.MovesSideways fs.toInodeMaps) :
    Mirrors (reordered orders) Eq id fs (step event) (step event) := by
  unfold step
  dsimp only
  split
  · apply (orderBlind_preamble event fs).andThen
    intro _ ready begun
    have same : ready.toInodeMaps = fs.toInodeMaps :=
      congrArg Mount.toInodeMaps (sameMount_of_preamble begun).2
    rw [← same] at numbered sideways
    exact mirrors_serve numbered sideways
  · exact mirrors_serve numbered sideways

def SidewaysStep : PgFs → Exchange → PgFs → Prop :=
  StepWhere fun before exchange _ => exchange.event.callback.MovesSideways before.toInodeMaps

/-- Whatever order hash maps are iterated in, at any moment of a run: the daemon gives
the same replies, and ends with the same tables, maps and handles. -/
theorem hash_orders_do_not_show {db : Db} {attrTtl : Nat} {history : List Exchange} {fs : PgFs}
    (run : Trace SidewaysStep (withAttrTtl db attrTtl) history fs) (orders : HashOrders) :
    Trace SidewaysStep (withAttrTtl (db.reordered orders) attrTtl) history
      (fs.reordered orders) := by
  generalize started : withAttrTtl db attrTtl = start at run
  induction run with
  | nil =>
      rw [← started]
      exact .nil
  | snoc earlier step induction =>
      subst started
      have numbered := wellNumbered_of_run (earlier.mono fun _ _ _ sideways => sideways.1)
      rcases mirrors_step numbered step.2 _ _ step.1 with ⟨reply, otherStep, alike⟩
      rw [alike.eq] at otherStep
      exact .snoc induction ⟨otherStep, step.2⟩

/-- Two blocks of a file are stored from the last to the first, and then its directory
is renamed. -/
theorem hash_orders_do_not_show_descending :
    ∃ history fs, Trace SidewaysStep
        (withAttrTtl (freshMount.db.reordered
          ⟨fun _ => .descending Int (List UInt8), fun _ => .descending Str Nat⟩) 1) history
        (reordered ⟨fun _ => .descending Int (List UInt8), fun _ => .descending Str Nat⟩ fs) ∧
      (fs.inoByPath.lookup ['e', '/', 'a'] = some 3 ∧
        fs.db.tables.block ⟨['e'], ['a']⟩ 1 = some [8]) := by
  rcases @exists_trace_of_replay (fun before exchange _ =>
      exchange.event.callback.MovesSideways before.toInodeMaps) _
      [{ callback := .mkdir 1 (some ['d']) }, { callback := .create 2 (some ['a']) },
        { callback := .write 3 1 (blockSize - 1) [7, 8] }, { callback := .flush 3 1 },
        { callback := .rename 1 (some ['d']) 1 (some ['e']) 0 }] freshMount
      (fun fs => decide (fs.inoByPath.lookup ['e', '/', 'a'] = some 3 ∧
        fs.db.tables.block ⟨['e'], ['a']⟩ 1 = some [8])) (by decide +kernel) with
    ⟨history, fs, run, stored⟩
  exact ⟨history, fs, hash_orders_do_not_show run _, of_decide_eq_true stored⟩

end PgFs

end Pgfs
