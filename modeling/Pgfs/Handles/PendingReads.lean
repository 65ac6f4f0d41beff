import Pgfs.Handles.Fallback
import Pgfs.Handles.Quietly

namespace Pgfs

open MachineInt Blocked

/-! Reads beside the writes that other handles of the file still buffer. A read flushes
one handle and sees nothing of the others. -/

/-! ## What a read depends on -/

/-- What reads and flushes ask about an entry: nothing when its row cannot be read, and
otherwise the kind and the size, if there is a row. -/
abbrev Shape := Option (Option (Kind × Nat))

namespace Shape

def grow (shape : Shape) (size : Nat) : Shape :=
  shape.map (Option.map fun entry => (entry.1, max entry.2 size))

theorem grow_zero (shape : Shape) : shape.grow 0 = shape := by
  rcases shape with _ | _ | entry <;> simp [grow]

def reply (shape : Shape) (bytes : Nat → UInt8) (offset length : Nat) :
    Option (Except Errno Reply) :=
  match shape with
  | none => some (.error .eio)
  | some none => some (.error .enoent)
  | some (some (.dir, _)) => some (.error .enoent)
  | some (some (.file, size)) =>
      if min length (size - offset) = 0 then some (.ok (.data []))
      else if offset + min length (size - offset) ≤ addressable then
        some (.ok (.data (Vec.window bytes offset (min length (size - offset)))))
      else none

end Shape

def Tables.shape (tables : Tables) (key : Key) : Shape :=
  (tables.attributes key).toOption.map (Option.map fun fileMeta =>
    (fileMeta.kind, fileMeta.size))

theorem reply_shape (tables : Tables) (key : Key) (bytes : Nat → UInt8) (offset length : Nat) :
    (readReply (tables.attributes key) bytes offset length).map PgFs.readOutcome =
      (tables.shape key).reply bytes offset length := by
  unfold Tables.shape readReply
  rcases tables.attributes key with failure | found
  · rfl
  · rcases found with _ | fileMeta
    · rfl
    · rcases kind : fileMeta.kind with _ | _
      · simp only [Except.toOption, Option.map_some, Shape.reply, kind, reduceCtorEq, if_false]
        split
        · rfl
        split
        · rfl
        · rfl
      · simp only [Except.toOption, Option.map_some, Shape.reply, kind, if_true]
        rfl

theorem shape_of_missing {tables : Tables} {key : Key}
    (missing : tables.entries.lookup key = none) : tables.shape key = some none := by
  simp [Tables.shape, Tables.attributes, missing, Except.toOption]

theorem shape_of_row {tables : Tables} {key : Key} {kind : Kind} {size mtime : Nat}
    (stored : tables.entries.lookup key = some ⟨kind.text, size, mtime⟩) :
    tables.shape key = some (some (kind, size)) := by
  have converted : rowToMeta key.name ⟨kind.text, size, mtime⟩ =
      .ok ⟨key.name, kind, size, mtime⟩ := rowToMeta_eq_ok_iff.mpr ⟨rfl, rfl⟩
  simp [Tables.shape, Tables.attributes, stored, converted, Except.map, Except.toOption]

theorem shape_congr {before after : Tables} {key : Key}
    (same : after.entries.lookup key = before.entries.lookup key) :
    after.shape key = before.shape key := by
  unfold Tables.shape Tables.attributes
  rw [same]

def Shape.InColumn (shape : Shape) : Prop :=
  ∀ kind size, shape = some (some (kind, size)) → size < 2 ^ 63

theorem Shape.InColumn.grow {shape : Shape} (column : shape.InColumn) {size : Nat}
    (small : size < 2 ^ 63) : (shape.grow size).InColumn := by
  intro kind grown same
  rcases shape with _ | _ | ⟨found, stored⟩
  · cases same
  · cases same
  · cases same
    exact max_lt (column found stored rfl) small

/-! ## What a flush does to an entry -/

theorem shape_of_batch {before after : Tables} {key : Key} {blocks : Table Int (List UInt8)}
    {newSize : Nat} (rows : Db.BatchRows key blocks newSize before after)
    (column : (before.shape key).InColumn) (small : newSize < 2 ^ 63) :
    after.shape key = (before.shape key).grow newSize := by
  rcases Nat.eq_zero_or_pos newSize with sizeless | sized
  · rw [sizeless, Shape.grow_zero]
    exact shape_congr (by rw [rows.sizeless sizeless])
  · rcases rows.sized sized with ⟨found, now, attributes, entries⟩
    have row := congrArg (Finmap.lookup key) entries
    rw [Tables.lookup_updateSize, if_pos rfl] at row
    cases found with
    | none =>
        have missing := Tables.lookup_eq_none_of_attributes attributes
        rw [missing] at row
        rw [shape_of_missing row, shape_of_missing missing]
        rfl
    | some fileMeta =>
        have stored := Tables.lookup_of_attributes attributes
        have shape := shape_of_row stored
        have bound := column _ _ shape
        rw [stored] at row
        simp only [Option.map_some, Option.getD_some] at row
        rw [asI64_of_lt (max_lt bound small)] at row
        rw [shape_of_row row, shape]
        rfl

structure Part where
  blocks : Table Int (List UInt8)
  maxSize : Nat

namespace Part

def nothing : Part := ⟨∅, 0⟩

def ofBuffer (key : Key) : Option HandleBuffer → Part
  | some buffer => if buffer.key = key then ⟨buffer.dirtyBlocks, buffer.maxSize⟩ else nothing
  | none => nothing

def laidOver (part : Part) (blocks : Int → Option (List UInt8)) : Int → Option (List UInt8) :=
  fun blockNo => (part.blocks.lookup blockNo).or (blocks blockNo)

theorem ofBuffer_clean (key : Key) (parent name : Str) :
    ofBuffer key (some (.clean parent name)) = nothing := by
  rw [ofBuffer]
  split
  · rfl
  · rfl

theorem laidOver_nothing (blocks : Int → Option (List UInt8)) :
    nothing.laidOver blocks = blocks := by
  funext blockNo
  simp [laidOver, nothing]

end Part

/-- What flushing a handle does, seen from a key. -/
structure FlushedFor (key : Key) (id : Nat) (before after : Mount) : Prop where
  maps : after.toInodeMaps = before.toInodeMaps
  remembered : after.openHandlesByIno = before.openHandlesByIno
  others : ∀ other, other ≠ id → after.openHandles.lookup other = before.openHandles.lookup other
  cleaned : ∀ buffer, after.openHandles.lookup id = some buffer → buffer.maxSize = 0
  emptied : Part.ofBuffer key (after.openHandles.lookup id) = .nothing
  shape : after.tables.shape key = (before.tables.shape key).grow
    (Part.ofBuffer key (before.openHandles.lookup id)).maxSize
  blocks : (before.tables.shape key).isSome → after.tables.block key =
    (Part.ofBuffer key (before.openHandles.lookup id)).laidOver (before.tables.block key)

def Mount.BuffersBelow (mount : Mount) : Prop :=
  ∀ fh buffer, mount.openHandles.lookup fh = some buffer → buffer.maxSize < 2 ^ 63

namespace FlushedFor

variable {key : Key} {id : Nat} {before : Mount} {buffer : HandleBuffer}

theorem absent (missing : before.openHandles.lookup id = none) :
    FlushedFor key id before before where
  maps := rfl
  remembered := rfl
  others _ _ := rfl
  cleaned buffer found := by
    rw [missing] at found
    cases found
  emptied := by
    rw [missing]
    rfl
  shape := by
    rw [missing]
    exact (Shape.grow_zero _).symm
  blocks _ := by
    rw [missing]
    exact (Part.laidOver_nothing _).symm

theorem stored {tables : Tables} (found : before.openHandles.lookup id = some buffer)
    (rows : Db.BatchRows buffer.key buffer.dirtyBlocks buffer.maxSize before.tables tables)
    (column : (before.tables.shape key).InColumn) (small : buffer.maxSize < 2 ^ 63) :
    FlushedFor key id before ((before.setTables tables).setHandles
      (before.openHandles.insert id (.clean buffer.parent buffer.name))) where
  maps := rfl
  remembered := rfl
  others other different := Finmap.lookup_insert_of_ne _ different
  cleaned other there := by
    simp only [Mount.setHandles, Finmap.lookup_insert, Option.some.injEq] at there
    rw [← there]
    rfl
  emptied := by
    simp only [Mount.setHandles, Finmap.lookup_insert]
    exact Part.ofBuffer_clean key buffer.parent buffer.name
  shape := by
    rw [found, Part.ofBuffer]
    show tables.shape key = _
    by_cases own : buffer.key = key
    · rw [if_pos own]
      rw [own] at rows
      exact shape_of_batch rows column small
    · rw [if_neg own, shape_congr (rows.contents.entries key (Ne.symm own))]
      exact (Shape.grow_zero _).symm
  blocks _ := by
    rw [found, Part.ofBuffer]
    show tables.block key = _
    by_cases own : buffer.key = key
    · rw [if_pos own]
      rw [own] at rows
      exact funext rows.blocks
    · rw [if_neg own, Part.laidOver_nothing]
      exact funext (rows.contents.blocks key (Ne.symm own))

theorem lost (found : before.openHandles.lookup id = some buffer)
    (unreadable : ∃ failure, before.tables.attributes buffer.key = .error failure) :
    FlushedFor key id before (before.setHandles (before.openHandles.erase id)) := by
  have shapeless : buffer.key = key → before.tables.shape key = none := by
    intro own
    rcases unreadable with ⟨failure, unreadable⟩
    rw [← own, Tables.shape, unreadable]
    rfl
  refine ⟨rfl, rfl, fun other different => Finmap.lookup_erase_ne different, ?_, ?_, ?_,
    fun readable => ?_⟩
  · intro other there
    simp only [Mount.setHandles, Finmap.lookup_erase] at there
    cases there
  · simp only [Mount.setHandles, Finmap.lookup_erase]
    rfl
  · rw [found, Part.ofBuffer]
    show before.tables.shape key = _
    by_cases own : buffer.key = key
    · rw [shapeless own]
      rfl
    · rw [if_neg own]
      exact (Shape.grow_zero _).symm
  · rw [found, Part.ofBuffer]
    by_cases own : buffer.key = key
    · rw [shapeless own] at readable
      cases readable
    · rw [if_neg own, Part.laidOver_nothing]
      rfl

end FlushedFor

namespace PgFs

open Effect

variable {fs : PgFs}

/-- A flush stores the batch and leaves the handle clean, or loses the handle because
the row of its file cannot be read. -/
theorem flushHandle_rows (quiet : Db.Quiet fs.db) {fh : Nat} {buffer : HandleBuffer}
    (found : fs.openHandles.lookup fh = some buffer) :
    ∃ result next, flushHandle fh fs = some (.ok result, next) ∧
      Db.SameWorld fs.db next.db ∧
      ((∃ tables, Db.BatchRows buffer.key buffer.dirtyBlocks buffer.maxSize fs.db.tables tables ∧
          next.mount = (fs.mount.setTables tables).setHandles
            (fs.openHandles.insert fh (.clean buffer.parent buffer.name))) ∨
        (∃ failure, fs.db.tables.attributes buffer.key = .error failure) ∧
          next.mount = fs.mount.setHandles (fs.openHandles.erase fh)) := by
  by_cases pending : buffer.pending = true
  · rcases Db.total_writeBlocksBatch buffer.parent buffer.name buffer.dirtyBlocks buffer.maxSize
      fs.db with ⟨outcome, after, run⟩
    have rows := Db.writeBlocksBatch_rows _ _ run
    have tried : tryDb (Db.writeBlocksBatch buffer.parent buffer.name buffer.dirtyBlocks
        buffer.maxSize) (fs.setHandles (fs.openHandles.erase fh)) =
        some (.ok outcome, (fs.setHandles (fs.openHandles.erase fh)).setDb after) :=
      tryDb_eq_ok.mpr ⟨after, run, rfl⟩
    cases outcome with
    | error failure =>
        refine ⟨.error failure, (fs.setHandles (fs.openHandles.erase fh)).setDb after, ?_,
          rows.1, Or.inr ⟨(rows.2.2 quiet).2, ?_⟩⟩
        · simp only [flushHandle, bind_apply, get_apply, found, modify_apply, pending, if_true,
            tried, pure_apply]
        · rw [mount_setDb, mount_setHandles, rows.2.1]
          rfl
    | ok _ =>
        refine ⟨.ok (), (fs.setDb after).setHandles ((fs.openHandles.erase fh).insert fh
          (.clean buffer.parent buffer.name)), ?_, rows.1, Or.inl ⟨after.tables, rows.2, ?_⟩⟩
        · simp only [flushHandle, bind_apply, get_apply, found, modify_apply, pending, if_true,
            tried, pure_apply]
          rfl
        · rw [Table.insert_erase]
          rfl
  · have clean := HandleBuffer.eq_clean_of_pending (Bool.not_eq_true _ ▸ pending)
    have same : fs.openHandles.insert fh buffer = fs.openHandles :=
      Table.insert_of_lookup found
    refine ⟨.ok (), fs.setHandles ((fs.openHandles.erase fh).insert fh buffer), ?_, .refl _,
      Or.inl ⟨fs.db.tables, ?_, ?_⟩⟩
    · simp only [flushHandle, bind_apply, get_apply, found, modify_apply, if_neg pending,
        pure_apply]
      rfl
    · rw [clean]
      exact ⟨.refl _ _, fun blockNo => by simp [HandleBuffer.clean], fun _ => rfl,
        fun sized => absurd sized (Nat.lt_irrefl 0)⟩
    · rw [← clean, Table.insert_erase, same]
      rfl

theorem exists_flushedFor (quiet : Db.Quiet fs.db)
    (column : ∀ key, (fs.db.tables.shape key).InColumn) (below : fs.mount.BuffersBelow)
    (id : Nat) :
    ∃ result next, flushHandle id fs = some (.ok result, next) ∧
      Db.SameWorld fs.db next.db ∧ ∀ key, FlushedFor key id fs.mount next.mount := by
  cases found : fs.openHandles.lookup id with
  | none =>
      refine ⟨.ok (), fs, ?_, .refl _, fun key => .absent found⟩
      simp only [flushHandle, bind_apply, get_apply, found, pure_apply]
  | some buffer =>
      have small : buffer.maxSize < 2 ^ 63 := below id buffer found
      rcases flushHandle_rows quiet found with ⟨result, next, run, world, outcome⟩
      refine ⟨result, next, run, world, ?_⟩
      rcases outcome with ⟨tables, rows, reached⟩ | ⟨unreadable, reached⟩
      · rw [reached]
        exact fun key => .stored found rows (column key) small
      · rw [reached]
        exact fun key => .lost found unreadable

end PgFs

/-! ## What a read replies -/

def Mount.ownPart (mount : Mount) (ino fh : Nat) (key : Key) : Part :=
  Part.ofBuffer key ((mount.handleId ino fh).bind mount.openHandles.lookup)

def Mount.replies (mount : Mount) (ino fh : Nat) (key : Key) (offset length : Nat) :
    Option (Except Errno Reply) :=
  ((mount.tables.shape key).grow (mount.ownPart ino fh key).maxSize).reply
    (flat 0 blockSize ((mount.ownPart ino fh key).laidOver (mount.tables.block key)))
    offset length

namespace PgFs

open Effect

variable {fs : PgFs} {ino fh size : Nat} {offset : Int} {path : Str}

private theorem readFile_replies (quiet : Db.Quiet fs.db)
    (resolved : fs.pathOfIno ino = some path) :
    (readFile ino offset size fs).map Prod.fst =
      (fs.db.tables.shape (keyOf path)).reply (fs.db.tables.bytes (keyOf path)) (asU64 offset)
        size := by
  rw [readFile_of_resolved resolved, Db.readRange_replies quiet]
  exact reply_shape _ _ _ _ _

private theorem readFile_unresolved (unresolved : fs.pathOfIno ino = none) :
    (readFile ino offset size fs).map Prod.fst = some (.error .enoent) := by
  simp only [readFile, pathOrEnoent, bind_apply, get_apply, unresolved, raise_apply]
  rfl

private theorem read_replies_unhandled (quiet : Db.Quiet fs.db)
    (resolved : fs.pathOfIno ino = some path) (handled : fs.handleId ino fh = none) :
    (read ino fh offset size fs).map Prod.fst =
      fs.mount.replies ino fh (keyOf path) (asU64 offset) size := by
  have own : fs.mount.ownPart ino fh (keyOf path) = .nothing := by
    have handle : fs.mount.handleId ino fh = none := handled
    rw [Mount.ownPart, handle]
    rfl
  have grown (shape : Shape) : shape.grow Part.nothing.maxSize = shape := shape.grow_zero
  rw [read_of_unhandled handled, readFile_replies quiet resolved, Mount.replies, own, grown,
    Part.laidOver_nothing]
  rfl

private theorem read_replies_flushed (quiet : Db.Quiet fs.db) {id : Nat} {next : PgFs}
    {result : Except DbError Unit} (resolved : fs.pathOfIno ino = some path)
    (handled : fs.handleId ino fh = some id)
    (run : flushHandle id fs = some (.ok result, next)) (world : Db.SameWorld fs.db next.db)
    (flushed : FlushedFor (keyOf path) id fs.mount next.mount) :
    (read ino fh offset size fs).map Prod.fst =
      fs.mount.replies ino fh (keyOf path) (asU64 offset) size := by
  have own : fs.mount.ownPart ino fh (keyOf path) =
      Part.ofBuffer (keyOf path) (fs.mount.openHandles.lookup id) := by
    have handle : fs.mount.handleId ino fh = some id := handled
    rw [Mount.ownPart, handle]
    rfl
  have maps : next.toInodeMaps = fs.toInodeMaps := flushed.maps
  have shape := flushed.shape
  have blocks := flushed.blocks
  rw [read_of_flushed handled run,
    readFile_replies (world.quiet quiet) (by rw [maps, resolved]), Mount.replies, own, ← shape]
  cases readable : fs.mount.tables.shape (keyOf path) with
  | none =>
      have shapeless : next.db.tables.shape (keyOf path) = none := by
        rw [readable] at shape
        exact shape
      rw [mount_tables, shapeless]
      rfl
  | some found =>
      rw [readable] at blocks
      rw [mount_tables, Tables.bytes, ← mount_tables next, blocks rfl]

theorem step_read_replies {event : Event} (alive : event.alive = true)
    (reads : event.callback = .read ino fh offset size) (quiet : Db.Quiet fs.db)
    (column : ∀ key, (fs.db.tables.shape key).InColumn) (below : fs.mount.BuffersBelow) :
    (fs.pathOfIno ino = none → (step event fs).map Prod.fst = some (.error .enoent)) ∧
      ∀ path, fs.pathOfIno ino = some path →
        (step event fs).map Prod.fst =
          fs.mount.replies ino fh (keyOf path) (asU64 offset) size := by
  rcases step_of_alive alive fs with ⟨ready, world, same, served⟩
  have readyQuiet := world.quiet quiet
  have readyRead : serve event.callback ready = read ino fh offset size ready := by
    rw [reads]
    rfl
  have tables : ready.db.tables = fs.db.tables := congrArg Mount.tables same
  rw [served, readyRead, ← same]
  rw [← pathOfIno_of_mount same ino]
  cases handled : ready.handleId ino fh with
  | none =>
      constructor
      · intro unresolved
        rw [read_of_unhandled handled]
        exact readFile_unresolved unresolved
      · intro path resolved
        exact read_replies_unhandled readyQuiet resolved handled
  | some id =>
      rcases @exists_flushedFor ready readyQuiet (tables ▸ column) (same ▸ below) id
        with ⟨result, next, run, nextWorld, flushed⟩
      constructor
      · intro unresolved
        have maps : next.toInodeMaps = ready.toInodeMaps := (flushed ⟨[], []⟩).maps
        rw [read_of_flushed handled run]
        exact readFile_unresolved (by rw [maps, unresolved])
      · intro path resolved
        exact read_replies_flushed readyQuiet resolved handled run nextWorld
          (flushed (keyOf path))

end PgFs

/-! ## Handles that a read does not miss -/

/-- Nothing of the part shows in a range of a file of this size: it does not lengthen
what the file has of the range, and its blocks do not meet that. -/
structure Part.Unseen (part : Part) (offset length size : Nat) : Prop where
  within : min length (max size part.maxSize - offset) = min length (size - offset)
  clean : ∀ index, offset ≤ index → index < offset + min length (size - offset) →
    part.blocks.lookup (blockOf blockSize index) = none

theorem Part.unseen_nothing (offset length size : Nat) :
    nothing.Unseen offset length size where
  within := by rw [nothing, Nat.max_eq_left (Nat.zero_le _)]
  clean _ _ _ := rfl

theorem Part.Unseen.after {part other : Part} {offset length size : Nat}
    (unseen : part.Unseen offset length size) (otherUnseen : other.Unseen offset length size) :
    part.Unseen offset length (max size other.maxSize) where
  within := by
    have first := unseen.within
    have second := otherUnseen.within
    omega
  clean index low high := by
    have second := otherUnseen.within
    rw [second] at high
    exact unseen.clean index low high

/-- A part that does not show may be stored before the one of the read. -/
theorem reply_over {shape : Shape} {own other : Part} {offset length : Nat}
    {blocks : Int → Option (List UInt8)}
    (unseen : ∀ size, shape = some (some (.file, size)) →
      other.Unseen offset length (max size own.maxSize)) :
    ((shape.grow other.maxSize).grow own.maxSize).reply
        (flat 0 blockSize (own.laidOver (other.laidOver blocks))) offset length =
      (shape.grow own.maxSize).reply (flat 0 blockSize (own.laidOver blocks)) offset length := by
  rcases shape with _ | _ | ⟨kind, size⟩
  · rfl
  · rfl
  · cases kind with
    | dir => rfl
    | file =>
        have hidden := unseen size rfl
        have lengths : min length (max (max size other.maxSize) own.maxSize - offset) =
            min length (max size own.maxSize - offset) := by
          have within := hidden.within
          omega
        have windows : Vec.window (flat 0 blockSize (own.laidOver (other.laidOver blocks))) offset
            (min length (max size own.maxSize - offset)) =
            Vec.window (flat 0 blockSize (own.laidOver blocks)) offset
              (min length (max size own.maxSize - offset)) := by
          apply Vec.window_congr
          intro index low high
          apply flat_congr
          rw [Part.laidOver, Part.laidOver, Part.laidOver, hidden.clean index low high,
            Option.none_or]
        simp only [Shape.grow, Option.map_some, Shape.reply]
        rw [lengths, windows]

/-- The other open handles of the inode show nothing in the range of the file, once the
read has flushed its own. -/
def Mount.OthersUnseen (mount : Mount) (holders : Holders) (ino fh : Nat) (key : Key)
    (offset length : Nat) : Prop :=
  ∀ size, mount.tables.FileAt key size → ∀ other, holders other = some ino →
    mount.handleId ino fh ≠ some other →
      (Part.ofBuffer key (mount.openHandles.lookup other)).Unseen offset length
        (max size (mount.ownPart ino fh key).maxSize)

theorem fileAt_iff_shape {tables : Tables} {key : Key} {size : Nat} :
    tables.FileAt key size ↔ tables.shape key = some (some (.file, size)) := by
  constructor
  · intro file
    rcases file with ⟨mtime, stored⟩
    exact shape_of_row stored
  · intro shape
    unfold Tables.shape at shape
    cases attributes : tables.attributes key with
    | error failure =>
        rw [attributes] at shape
        cases shape
    | ok found =>
        rw [attributes] at shape
        cases found with
        | none => cases shape
        | some fileMeta =>
            simp only [Except.toOption, Option.map_some, Option.some.injEq, Prod.mk.injEq]
              at shape
            rw [← shape.2]
            exact Tables.fileAt_of_attributes attributes (by simp [shape.1])

namespace FlushedFor

variable {key : Key} {id ino fh offset length : Nat} {before after : Mount} {holders : Holders}

theorem handleId (flushed : FlushedFor key id before after) :
    after.handleId ino fh = before.handleId ino fh := by
  unfold Mount.handleId
  rw [flushed.remembered]

theorem ownPart_of_own (flushed : FlushedFor key id before after)
    (handled : before.handleId ino fh = some id) : after.ownPart ino fh key = .nothing := by
  rw [Mount.ownPart, flushed.handleId, handled]
  exact flushed.emptied

theorem ownPart_of_other (flushed : FlushedFor key id before after)
    (different : before.handleId ino fh ≠ some id) :
    after.ownPart ino fh key = before.ownPart ino fh key := by
  rw [Mount.ownPart, Mount.ownPart, flushed.handleId]
  cases handled : before.handleId ino fh with
  | none => rfl
  | some own =>
      have other : own ≠ id := fun same => different (same ▸ handled)
      rw [Option.bind_some, Option.bind_some, flushed.others own other]

private theorem fileAt_before (flushed : FlushedFor key id before after) {size : Nat}
    (file : after.tables.FileAt key size) : ∃ old, before.tables.FileAt key old ∧
      size = max old (Part.ofBuffer key (before.openHandles.lookup id)).maxSize := by
  rw [fileAt_iff_shape, flushed.shape] at file
  rcases shape : before.tables.shape key with _ | _ | ⟨kind, old⟩
  · rw [shape] at file
    cases file
  · rw [shape] at file
    cases file
  · rw [shape] at file
    simp only [Shape.grow, Option.map_some, Option.some.injEq, Prod.mk.injEq] at file
    refine ⟨old, ?_, file.2.symm⟩
    rw [fileAt_iff_shape, shape, file.1]

theorem replies_of_own (flushed : FlushedFor key id before after)
    (handled : before.handleId ino fh = some id) :
    after.replies ino fh key offset length = before.replies ino fh key offset length := by
  have own : before.ownPart ino fh key =
      Part.ofBuffer key (before.openHandles.lookup id) := by
    rw [Mount.ownPart, handled]
    rfl
  have grown (shape : Shape) : shape.grow Part.nothing.maxSize = shape := shape.grow_zero
  rw [Mount.replies, Mount.replies, flushed.ownPart_of_own handled, own, flushed.shape, grown]
  rcases readable : before.tables.shape key with _ | found
  · rfl
  · rw [flushed.blocks (by rw [readable]; rfl), Part.laidOver_nothing]

theorem replies_of_other (flushed : FlushedFor key id before after)
    (different : before.handleId ino fh ≠ some id)
    (unseen : ∀ size, before.tables.FileAt key size →
      (Part.ofBuffer key (before.openHandles.lookup id)).Unseen offset length
        (max size (before.ownPart ino fh key).maxSize)) :
    after.replies ino fh key offset length = before.replies ino fh key offset length := by
  rw [Mount.replies, Mount.replies, flushed.ownPart_of_other different, flushed.shape]
  by_cases readable : (before.tables.shape key).isSome
  · rw [flushed.blocks readable]
    apply reply_over
    intro size shape
    exact unseen size (fileAt_iff_shape.mpr shape)
  · rw [Option.not_isSome_iff_eq_none] at readable
    rw [readable]
    rfl

theorem keeps_unseen (flushed : FlushedFor key id before after)
    (unseen : before.OthersUnseen holders ino fh key offset length)
    (held : holders id = some ino) :
    after.OthersUnseen holders ino fh key offset length := by
  intro size file other otherHeld elsewhere
  rcases flushed.fileAt_before file with ⟨old, oldFile, rfl⟩
  rw [flushed.handleId] at elsewhere
  by_cases same : other = id
  · subst same
    rw [flushed.emptied]
    exact Part.unseen_nothing _ _ _
  · rw [flushed.others other same]
    have hidden := unseen old oldFile other otherHeld elsewhere
    by_cases handled : before.handleId ino fh = some id
    · have own : before.ownPart ino fh key =
          Part.ofBuffer key (before.openHandles.lookup id) := by
        rw [Mount.ownPart, handled]
        rfl
      rw [flushed.ownPart_of_own handled, ← own]
      exact (Nat.max_eq_left (Nat.zero_le _)).symm ▸ hidden
    · have after := hidden.after (unseen old oldFile id held handled)
      rw [flushed.ownPart_of_other handled]
      rw [max_right_comm] at after
      exact after

theorem keeps_bounds (flushed : ∀ key, FlushedFor key id before after)
    (column : ∀ key, (before.tables.shape key).InColumn) (below : before.BuffersBelow) :
    (∀ key, (after.tables.shape key).InColumn) ∧ after.BuffersBelow := by
  constructor
  · intro key
    rw [(flushed key).shape]
    apply (column key).grow
    cases found : before.openHandles.lookup id with
    | none => exact Nat.two_pow_pos 63
    | some buffer =>
        rw [Part.ofBuffer]
        split
        · exact below id buffer found
        · exact Nat.two_pow_pos 63
  · intro other buffer found
    by_cases same : other = id
    · rw [same] at found
      rw [(flushed ⟨[], []⟩).cleaned buffer found]
      exact Nat.two_pow_pos 63
    · rw [(flushed ⟨[], []⟩).others other same] at found
      exact below other buffer found

end FlushedFor

/-! ## Every handle of the inode -/

namespace PgFs

open Effect

variable {fs : PgFs} {holders : Holders} {ino fh offset length : Nat}

def flushHandles (fhs : List Nat) : FsM Unit :=
  fhs.forM fun fh => do
    let _ ← flushHandle fh
    return ()

/-- Flushing handles of the inode ends. It makes no difference to a read that none of the
others shows in. -/
theorem exists_flushHandles {fhs : List Nat} (quiet : Db.Quiet fs.db)
    (column : ∀ key, (fs.db.tables.shape key).InColumn) (below : fs.mount.BuffersBelow)
    (held : ∀ other ∈ fhs, holders other = some ino) :
    ∃ flushed, flushHandles fhs fs = some (.ok (), flushed) ∧ Db.Quiet flushed.db ∧
      (∀ key, (flushed.db.tables.shape key).InColumn) ∧ flushed.mount.BuffersBelow ∧
      flushed.toInodeMaps = fs.toInodeMaps ∧
      ∀ key, fs.mount.OthersUnseen holders ino fh key offset length →
        flushed.mount.replies ino fh key offset length =
          fs.mount.replies ino fh key offset length := by
  induction fhs generalizing fs with
  | nil => exact ⟨fs, rfl, quiet, column, below, rfl, fun _ _ => rfl⟩
  | cons id rest induction =>
      rcases exists_flushedFor quiet column below id with ⟨result, next, run, world, flushed⟩
      have bounds := FlushedFor.keeps_bounds flushed column below
      have here := held id List.mem_cons_self
      have first : (do
          let _ ← flushHandle id
          return ()) fs = some (.ok (), next) := bind_of_ok run
      rcases induction (world.quiet quiet) bounds.1 bounds.2
        (fun other member => held other (List.mem_cons_of_mem _ member)) with
        ⟨last, ran, lastQuiet, lastColumn, lastBelow, maps, replies⟩
      refine ⟨last, (bind_of_ok first).trans ran, lastQuiet, lastColumn, lastBelow,
        maps.trans (flushed ⟨[], []⟩).maps, fun key unseen => ?_⟩
      rw [replies key ((flushed key).keeps_unseen unseen here)]
      by_cases handled : fs.mount.handleId ino fh = some id
      · exact (flushed key).replies_of_own handled
      · exact (flushed key).replies_of_other handled fun size file =>
          unseen size file id here handled

end PgFs

/-! ## Runs -/

def Callback.EndsBelow : Callback → Prop
  | .write _ _ offset data => asU64 offset + data.length < 2 ^ 63
  | _ => True

theorem Mount.BuffersBelow.insert {mount : Mount} (below : mount.BuffersBelow) (fh : Nat)
    {buffer : HandleBuffer} (small : buffer.maxSize < 2 ^ 63) :
    (mount.setHandles (mount.openHandles.insert fh buffer)).BuffersBelow := by
  intro other found there
  simp only [Mount.setHandles, Table.lookup_insert_eq] at there
  split at there
  · cases there
    exact small
  · exact below other found there

theorem Mount.BuffersBelow.erase {mount : Mount} (below : mount.BuffersBelow) (fh : Nat) :
    (mount.setHandles (mount.openHandles.erase fh)).BuffersBelow := by
  intro other found there
  simp only [Mount.setHandles, Table.lookup_erase_eq] at there
  split at there
  · cases there
  · exact below other found there

theorem Flushed.buffersBelow {quiet : Prop} {before after : Mount} {fh : Nat}
    {succeeded : Bool} (flushed : Flushed quiet before fh succeeded after)
    (below : before.BuffersBelow) : after.BuffersBelow := by
  cases flushed with
  | absent => exact below
  | clean => exact below
  | stored handle tables => exact below.insert fh (Nat.two_pow_pos 63)
  | lost => exact below.erase fh

theorem Serves.buffersBelow {quiet alone : Prop} {before after : Mount} {callback : Callback}
    {reply : Except Errno Reply} (serves : Serves quiet alone before callback reply after)
    (ends : callback.EndsBelow) (below : before.BuffersBelow) : after.BuffersBelow := by
  cases serves with
  | buffer ino fh id offset data handle next handled found written =>
      apply below.insert id
      have buffered := (HandleBuffer.buffered_of_write written).maxSize
      have earlier := below id handle found
      have bound : asU64 offset + data.length < 2 ^ 63 := ends
      rw [buffered]
      split
      · exact earlier
      · exact max_lt earlier bound
  | «open» ino path resolved => exact below.insert before.nextFh (Nat.two_pow_pos 63)
  | create parent key now ttl attr resolved absent =>
      exact below.insert before.nextFh (Nat.two_pow_pos 63)
  | flushRead ino fh id offset size succeeded reply next handled flushed =>
      exact flushed.buffersBelow below
  | flush ino fh id callback succeeded next flushes handled flushed =>
      exact flushed.buffersBelow below
  | release ino fh succeeded next flushed =>
      exact (flushed.buffersBelow below).erase _
  | _ => exact below

namespace PgFs

open Effect

variable {db : Db} {attrTtl : Nat} {history : List Exchange} {fs : PgFs} {holders : Holders}
  {event : Event} {ino fh size : Nat} {offset : Int}

theorem step_of_dead (checked : hasPreamble event.callback = true) (dead : event.alive = false)
    (fs : PgFs) : (step event fs).map Prod.fst = some (.error .eio) := by
  unfold step preamble
  rw [if_pos checked, dead]
  by_cases dumping : event.dumpRequested = true
  · have dumped : callDb Db.replicaState fs = some (.ok (), fs.setDb _) :=
      callDb_eq_ok.mpr ⟨_, Db.replicaState_apply _, rfl⟩
    simp only [if_pos dumping, bind_apply, dumped]
    rfl
  · simp only [if_neg dumping]
    rfl

theorem inColumn_of_rows {tables : Tables}
    (column : ∀ key row, tables.entries.lookup key = some row → row.size < 2 ^ 63) (key : Key) :
    (tables.shape key).InColumn := by
  intro kind size shape
  unfold Tables.shape at shape
  cases attributes : tables.attributes key with
  | error failure =>
      rw [attributes] at shape
      cases shape
  | ok found =>
      rw [attributes] at shape
      cases found with
      | none => cases shape
      | some fileMeta =>
          have bound := column key _ (Tables.lookup_of_attributes attributes)
          simp only at bound
          simp only [Except.toOption, Option.map_some, Option.some.injEq, Prod.mk.injEq] at shape
          omega

/-- When no statement fails, a read replies as if every open handle of its inode had been
flushed before, in whatever order, unless another one than its own shows. -/
theorem reads_see_handles (answered : Db.Quiet db)
    (run : HeldRun (fun _ _ event => event.callback.EndsBelow) db attrTtl history (fs, holders))
    (column : ∀ key row, fs.db.tables.entries.lookup key = some row → row.size < 2 ^ 63)
    (reads : event.callback = .read ino fh offset size) {fhs : List Nat}
    (all : ∀ other, other ∈ fhs ↔ holders other = some ino)
    (unseen : ∀ path, fs.pathOfIno ino = some path →
      fs.mount.OthersUnseen holders ino fh (keyOf path) (asU64 offset) size) :
    ∃ flushed, flushHandles fhs fs = some (.ok (), flushed) ∧
      (step event fs).map Prod.fst = (step event flushed).map Prod.fst := by
  have kept := run.invariant
    (fun state => Db.Quiet state.1.db ∧ state.1.mount.BuffersBelow) ?_ ?_
  · rcases kept with ⟨quiet, below⟩
    have columns := inColumn_of_rows column
    rcases @exists_flushHandles fs holders ino fh (asU64 offset) size fhs quiet columns below
      fun other member => (all other).mp member with
      ⟨flushed, ran, flushedQuiet, flushedColumn, flushedBelow, maps, replies⟩
    refine ⟨flushed, ran, ?_⟩
    by_cases alive : event.alive = true
    · have first := step_read_replies alive reads quiet columns below
      have second := step_read_replies alive reads flushedQuiet flushedColumn flushedBelow
      rw [maps] at second
      cases resolved : fs.pathOfIno ino with
      | none => rw [first.1 resolved, second.1 resolved]
      | some path =>
          rw [first.2 path resolved, second.2 path resolved,
            replies (keyOf path) (unseen path resolved)]
    · have checked : hasPreamble event.callback = true := by
        rw [reads]
        rfl
      rw [step_of_dead checked (Bool.not_eq_true _ ▸ alive),
        step_of_dead checked (Bool.not_eq_true _ ▸ alive)]
  · refine ⟨answered, fun fh buffer found => ?_⟩
    cases found
  · intro before exchange after known step
    rcases step with ⟨⟨step, _⟩, allowed⟩
    exact ⟨step.sameWorld.quiet known.1, step.serves.buffersBelow allowed known.2⟩

private theorem created_column {fs : PgFs}
    (entries : fs.db.tables.entries = Finmap.insert ⟨[], ['a']⟩ ⟨.file, 0, 0⟩ ∅) (key : Key)
    (row : EntryRow) (stored : fs.db.tables.entries.lookup key = some row) :
    row.size < 2 ^ 63 := by
  rw [entries, Table.lookup_insert_eq] at stored
  split at stored
  · cases stored
    decide
  · cases stored

private def twoHolders : Holders :=
  Function.update (Function.update Holders.empty 1 (some 2)) 2 (some 2)

private theorem exists_two_buffering : ∃ history fs,
    HeldRun (fun _ _ event => event.callback.EndsBelow) (.connect .empty false fun _ => {}) 1
      history (fs, twoHolders) ∧
    fs.db.tables.entries = Finmap.insert ⟨[], ['a']⟩ ⟨.file, 0, 0⟩ ∅ ∧
    fs.pathOfIno 2 = some ['a'] ∧
    fs.openHandles.lookup 1 = some ⟨[], ['a'], Finmap.insert 0 [7] ∅, 1⟩ ∧
    fs.openHandles.lookup 2 = some ⟨[], ['a'], Finmap.insert 1 [9] ∅, 65537⟩ ∧
    (step { callback := .read 2 1 0 1 } fs).map Prod.fst = some (.ok (.data [7])) := by
  have served : ∃ created opened first second,
      Step freshMount ⟨{ callback := .create 1 (some ['a']) },
        .ok (.created 1 (fileAttr 2 0 0) 1)⟩ created ∧
      ((freshMount.mount.pathOfIno 1).bind fun path =>
        created.mount.inoByPath.lookup (join path ['a'])) = some 2 ∧
      Step created ⟨{ callback := .open 2 }, .ok (.opened 2)⟩ opened ∧
      Step opened ⟨{ callback := .write 2 1 0 [7] }, .ok (.written 1)⟩ first ∧
      Step first ⟨{ callback := .write 2 2 65536 [9] }, .ok (.written 1)⟩ second ∧
      second.db.tables.entries = Finmap.insert ⟨[], ['a']⟩ ⟨.file, 0, 0⟩ ∅ ∧
      second.pathOfIno 2 = some ['a'] ∧
      second.openHandles.lookup 1 = some ⟨[], ['a'], Finmap.insert 0 [7] ∅, 1⟩ ∧
      second.openHandles.lookup 2 = some ⟨[], ['a'], Finmap.insert 1 [9] ∅, 65537⟩ ∧
      (step { callback := .read 2 1 0 1 } second).map Prod.fst = some (.ok (.data [7])) :=
    ⟨_, _, _, _, rfl, rfl, rfl, rfl, rfl, rfl, rfl, rfl, rfl, by decide +kernel⟩
  rcases served with ⟨created, opened, first, second, creates, known, opens, writes,
    writesOther, seen⟩
  have small : (Callback.write 2 1 0 [7]).EndsBelow :=
    show asU64 0 + [7].length < 2 ^ 63 by decide
  have smallOther : (Callback.write 2 2 65536 [9]).EndsBelow :=
    show asU64 65536 + [9].length < 2 ^ 63 by decide
  have start : HeldRun (fun _ _ event => event.callback.EndsBelow)
      (.connect .empty false fun _ => {}) 1 [] (freshMount, .empty) := Trace.nil
  have once := start.serving creates (congrArg (Function.update _ 1) known) trivial
  have twice : HeldRun (fun _ _ event => event.callback.EndsBelow)
      (.connect .empty false fun _ => {}) 1 _ (opened, twoHolders) :=
    once.serving opens rfl trivial
  exact ⟨_, second, (twice.serving writes rfl small).serving writesOther rfl smallOther, seen⟩

private theorem two_holders (other : Nat) : other ∈ [1, 2] ↔ twoHolders other = some 2 := by
  unfold twoHolders
  simp only [Function.update_apply, List.mem_cons, List.not_mem_nil, or_false]
  by_cases first : other = 1
  · simp [first]
  · by_cases second : other = 2
    · simp [second]
    · simp [first, second, Holders.empty]

private theorem second_unseen (size : Nat) :
    (Part.ofBuffer ⟨[], ['a']⟩
      (some ⟨[], ['a'], Finmap.insert 1 [9] ∅, 65537⟩)).Unseen 0 1 (max size 1) := by
  refine ⟨?_, ?_⟩
  · show min 1 (max (max size 1) 65537 - 0) = min 1 (max size 1 - 0)
    omega
  · intro index _ high
    have first : index = 0 := by omega
    subst first
    decide

/-- Two handles of a file buffer a byte each, and one of them reads its own. -/
theorem reads_see_handles_two : ∃ history fs flushed,
    HeldRun (fun _ _ event => event.callback.EndsBelow) (.connect .empty false fun _ => {}) 1
      history (fs, twoHolders) ∧
    (∀ fh ∈ [1, 2], (fs.openHandles.lookup fh).any HandleBuffer.pending = true) ∧
    flushHandles [1, 2] fs = some (.ok (), flushed) ∧
    (step { callback := .read 2 1 0 1 } fs).map Prod.fst = some (.ok (.data [7])) ∧
    (step { callback := .read 2 1 0 1 } flushed).map Prod.fst = some (.ok (.data [7])) := by
  rcases exists_two_buffering with ⟨history, fs, run, entries, resolved, own, second, named⟩
  have unseen : ∀ path, fs.pathOfIno 2 = some path →
      fs.mount.OthersUnseen twoHolders 2 1 (keyOf path) (asU64 0) 1 := by
    intro path found size _ other held elsewhere
    cases resolved.symm.trans found
    have number : other = 2 := by
      rcases List.mem_cons.mp ((two_holders other).mpr held) with same | same
      · exact absurd (congrArg some same.symm) elsewhere
      · exact List.mem_singleton.mp same
    have ownSize : (fs.mount.ownPart 2 1 ⟨[], ['a']⟩).maxSize = 1 := by
      show (Part.ofBuffer ⟨[], ['a']⟩ (fs.openHandles.lookup 1)).maxSize = 1
      rw [own]
      rfl
    rw [number, show keyOf ['a'] = ⟨[], ['a']⟩ from rfl, ownSize]
    show (Part.ofBuffer ⟨[], ['a']⟩ (fs.openHandles.lookup 2)).Unseen 0 1 (max size 1)
    rw [second]
    exact second_unseen size
  have pending : ∀ fh ∈ [1, 2], (fs.openHandles.lookup fh).any HandleBuffer.pending = true := by
    intro fh member
    rcases List.mem_cons.mp member with same | same
    · rw [same, own]
      rfl
    · rw [List.mem_singleton.mp same, second]
      rfl
  rcases @reads_see_handles (.connect .empty false fun _ => {}) 1 history fs _
    { callback := .read 2 1 0 1 } 2 1 1 0 (fun _ => rfl) run (created_column entries) rfl [1, 2]
    two_holders unseen with ⟨flushed, ran, same⟩
  exact ⟨history, fs, flushed, run, pending, ran, named, same.symm.trans named⟩

private theorem exists_created_buffering : ∃ history fs,
    HeldRun (fun _ _ event => event.callback.EndsBelow) (.connect .empty false fun _ => {}) 1
      history (fs, Function.update Holders.empty 1 (some 2)) ∧
    fs.db.tables.entries = Finmap.insert ⟨[], ['a']⟩ ⟨.file, 0, 0⟩ ∅ ∧
    (step { callback := .read 2 1 0 1 } fs).map Prod.fst = some (.ok (.data [7])) ∧
    (step { callback := .read 2 0 0 1 } fs).map Prod.fst = some (.ok (.data [])) ∧
    (flushHandles [1] fs).bind (fun flushed =>
      (step { callback := .read 2 0 0 1 } flushed.2).map Prod.fst) =
        some (.ok (.data [7])) := by
  have served : ∃ created written,
      Step freshMount ⟨{ callback := .create 1 (some ['a']) },
        .ok (.created 1 (fileAttr 2 0 0) 1)⟩ created ∧
      ((freshMount.mount.pathOfIno 1).bind fun path =>
        created.mount.inoByPath.lookup (join path ['a'])) = some 2 ∧
      Step created ⟨{ callback := .write 2 1 0 [7] }, .ok (.written 1)⟩ written ∧
      written.db.tables.entries = Finmap.insert ⟨[], ['a']⟩ ⟨.file, 0, 0⟩ ∅ ∧
      (step { callback := .read 2 1 0 1 } written).map Prod.fst = some (.ok (.data [7])) ∧
      (step { callback := .read 2 0 0 1 } written).map Prod.fst = some (.ok (.data [])) ∧
      (flushHandles [1] written).bind (fun flushed =>
        (step { callback := .read 2 0 0 1 } flushed.2).map Prod.fst) =
          some (.ok (.data [7])) :=
    ⟨_, _, rfl, rfl, rfl, rfl, by decide +kernel, by decide +kernel, by decide +kernel⟩
  rcases served with ⟨created, written, first, known, second, seen⟩
  have small : (Callback.write 2 1 0 [7]).EndsBelow :=
    show asU64 0 + [7].length < 2 ^ 63 by decide
  have start : HeldRun (fun _ _ event => event.callback.EndsBelow)
      (.connect .empty false fun _ => {}) 1 [] (freshMount, .empty) := Trace.nil
  have once := start.serving first (congrArg (Function.update _ 1) known) trivial
  exact ⟨_, written, once.serving second rfl small, seen⟩

private theorem created_holders (other : Nat) :
    other ∈ [1] ↔ Function.update Holders.empty 1 (some 2) other = some 2 := by
  rw [List.mem_singleton, Function.update_apply]
  by_cases same : other = 1
  · simp [same]
  · simp [same, Holders.empty]

/-- A read without a handle misses what the handle of the creation buffers. -/
theorem read_misses_created_handle : ¬∀ (db : Db) (attrTtl : Nat) (history : List Exchange)
    (fs : PgFs) (holders : Holders) (event : Event) (ino fh size : Nat) (offset : Int)
    (fhs : List Nat), Db.Quiet db →
    HeldRun (fun _ _ event => event.callback.EndsBelow) db attrTtl history (fs, holders) →
    (∀ key row, fs.db.tables.entries.lookup key = some row → row.size < 2 ^ 63) →
    event.callback = .read ino fh offset size →
    (∀ other, other ∈ fhs ↔ holders other = some ino) →
    ∃ flushed, flushHandles fhs fs = some (.ok (), flushed) ∧
      (step event fs).map Prod.fst = (step event flushed).map Prod.fst := by
  intro claimed
  rcases exists_created_buffering with ⟨history, fs, run, entries, _, before, after⟩
  rcases claimed _ 1 history fs _ { callback := .read 2 0 0 1 } 2 0 1 0 [1] (fun _ => rfl) run
    (created_column entries) rfl created_holders with ⟨flushed, ran, same⟩
  rw [ran, Option.bind_some, ← same, before] at after
  cases after

end PgFs

end Pgfs
