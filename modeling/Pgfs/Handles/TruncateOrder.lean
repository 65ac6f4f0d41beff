import Pgfs.Db.FlatFile
import Pgfs.Foundation.Unwinding
import Pgfs.Handles.Quietly

namespace Pgfs

open MachineInt Blocked

/-! Truncating a file past the writes that its handle still buffers. `setattr` goes
straight to the database, so the flush comes after it, and grows the file again. -/

/-- Two handles on the database find the same size of a file, and read the same of it. -/
structure SameContents (key : Key) (left right : Db) : Prop where
  size : ∃ size, left.tables.FileAt key size ∧ right.tables.FileAt key size
  reads : ∀ offset length,
    (Db.readRange key.parent key.name offset length left).map Prod.fst =
      (Db.readRange key.parent key.name offset length right).map Prod.fst

theorem sameContents_iff {key : Key} {left right : Db} (quiet : Db.Quiet left)
    (otherQuiet : Db.Quiet right) {size otherSize : Nat} (file : left.tables.FileAt key size)
    (other : right.tables.FileAt key otherSize) :
    SameContents key left right ↔ size = otherSize ∧
      ∀ index, index < size → index < addressable →
        left.tables.bytes key index = right.tables.bytes key index := by
  constructor
  · intro same
    rcases same.size with ⟨common, leftFile, rightFile⟩
    have sizes : size = otherSize := (file.unique leftFile).trans (rightFile.unique other)
    subst sizes
    exact ⟨rfl, (Db.reads_agree_iff quiet otherQuiet file other).mp same.reads⟩
  · intro agree
    rcases agree with ⟨rfl, bytes⟩
    exact ⟨⟨size, file, other⟩, (Db.reads_agree_iff quiet otherQuiet file other).mpr bytes⟩

/-! ## Both orders on the tables -/

theorem flat_shrunkBlocks_addressable (blocks : Int → Option (List UInt8)) (index : Nat) :
    flat 0 blockSize (Db.shrunkBlocks addressable blocks) index = 0 := by
  apply flat_of_none
  unfold Db.shrunkBlocks
  have last : asI32 (addressable / blockSize) = -2 ^ 31 := by decide
  have nonneg := blockOf_nonneg blockSize index
  rw [last, if_pos (by omega)]

section Orders

variable {key : Key} {blocks : Table Int (List UInt8)} {newSize maxSize size : Nat}
  {before truncated flushed final otherFinal : Tables}

theorem sizes_of_orders (file : before.FileAt key size) (sized : size < 2 ^ 63)
    (buffered : maxSize < 2 ^ 63) (fits : newSize < 2 ^ 63)
    (truncates : Db.Truncated key newSize before truncated)
    (flushes : Db.BatchStored key blocks maxSize truncated final)
    (flushesFirst : Db.BatchStored key blocks maxSize before flushed)
    (truncatesLast : Db.Truncated key newSize flushed otherFinal) :
    final.FileAt key (max newSize maxSize) ∧ flushed.FileAt key (max size maxSize) ∧
      otherFinal.FileAt key newSize :=
  ⟨flushes.size newSize (truncates.size fits) (by omega),
    flushesFirst.size size file (by omega), truncatesLast.size fits⟩

/-- When the buffered writes end within the new size, only pruning every block makes a
difference. -/
theorem bytes_of_orders_iff (file : before.FileAt key size) (sized : size < 2 ^ 63)
    (within : maxSize ≤ newSize) (fits : newSize ≤ addressable)
    (truncates : Db.Truncated key newSize before truncated)
    (flushes : Db.BatchStored key blocks maxSize truncated final)
    (flushesFirst : Db.BatchStored key blocks maxSize before flushed)
    (truncatesLast : Db.Truncated key newSize flushed otherFinal) :
    (∀ index < newSize, final.bytes key index = otherFinal.bytes key index) ↔
      newSize < addressable ∨ size ≤ newSize ∨
        ∀ index < newSize, flat 0 blockSize blocks.lookup index = 0 := by
  have bounded : addressable < 2 ^ 63 := by decide
  rcases truncates.blocks with ⟨_, stored, cut⟩
  rw [← file.unique stored] at cut
  rcases truncatesLast.blocks with ⟨_, grown, otherCut⟩
  rw [← (flushesFirst.size size file (by omega)).unique grown] at otherCut
  have finalBlocks : final.block key =
      fun blockNo => (blocks.lookup blockNo).or (truncated.block key blockNo) :=
    funext flushes.blocks
  have flushedBlocks : flushed.block key =
      fun blockNo => (blocks.lookup blockNo).or (before.block key blockNo) :=
    funext flushesFirst.blocks
  unfold Tables.bytes
  by_cases shrinks : newSize < size
  · rw [if_pos shrinks] at cut
    rw [if_pos (by omega)] at otherCut
    rw [finalBlocks, otherCut, cut, flushedBlocks]
    by_cases small : newSize < addressable
    · refine iff_of_true (fun index inside => ?_) (Or.inl small)
      rw [flat_or, flat_shrunkBlocks small, flat_shrunkBlocks small, if_pos (Or.inl inside),
        if_pos (Or.inl inside), flat_or]
    · have whole : newSize = addressable := by omega
      subst whole
      have dirty (index : Nat) : flat 0 blockSize (fun blockNo =>
          (blocks.lookup blockNo).or
            (Db.shrunkBlocks addressable (before.block key) blockNo)) index =
          flat 0 blockSize blocks.lookup index := by
        rw [flat_or, flat_shrunkBlocks_addressable]
        split
        · rfl
        · rename_i clean
          rw [Option.not_isSome_iff_eq_none] at clean
          rw [flat_of_none 0 clean]
      simp only [dirty, flat_shrunkBlocks_addressable]
      constructor
      · intro zeros
        exact Or.inr (Or.inr zeros)
      · intro condition
        rcases condition with less | longer | zeros
        · exact absurd less small
        · omega
        · exact zeros
  · rw [if_neg shrinks] at cut
    rw [if_neg (by omega)] at otherCut
    rw [finalBlocks, otherCut, cut, flushedBlocks]
    exact iff_of_true (fun _ _ => rfl) (Or.inr (Or.inl (Nat.not_lt.mp shrinks)))

end Orders

/-! ## Both orders of the requests -/

/-- What flushing a handle does to the rows of a file: it stores the buffer, unless the
handle carries another key. -/
structure FlushSeen (key : Key) (buffer : HandleBuffer) (before after : Tables) : Prop where
  own : buffer.key = key →
    Db.BatchStored key buffer.dirtyBlocks buffer.maxSize before after
  other : buffer.key ≠ key → after.entries.lookup key = before.entries.lookup key ∧
    after.block key = before.block key

namespace FlushSeen

variable {key : Key} {buffer : HandleBuffer} {before after : Tables} {size : Nat}

theorem fileAt_of_other (seen : FlushSeen key buffer before after)
    (different : buffer.key ≠ key) (file : before.FileAt key size) : after.FileAt key size := by
  rcases file with ⟨mtime, stored⟩
  exact ⟨mtime, (seen.other different).1.trans stored⟩

theorem exists_fileAt (seen : FlushSeen key buffer before after)
    (file : before.FileAt key size) (sized : size < 2 ^ 63)
    (buffered : buffer.maxSize < 2 ^ 63) : ∃ grown, after.FileAt key grown := by
  by_cases carried : buffer.key = key
  · exact ⟨_, (seen.own carried).size size file (by omega)⟩
  · exact ⟨size, seen.fileAt_of_other carried file⟩

end FlushSeen

theorem Flushed.seen {quiet : Prop} {mount next : Mount} {fh size : Nat} {succeeded : Bool}
    {buffer : HandleBuffer} {key : Key} (flushed : Flushed quiet mount fh succeeded next)
    (answered : quiet) (found : mount.openHandles.lookup fh = some buffer)
    (file : mount.tables.FileAt key size) :
    FlushSeen key buffer mount.tables next.tables where
  own carried := by
    have readable : ¬∃ failure, mount.tables.attributes buffer.key = .error failure := by
      intro unreadable
      rcases unreadable with ⟨failure, unreadable⟩
      rcases file.attributes with ⟨mtime, known⟩
      rw [carried] at unreadable
      cases known.symm.trans unreadable
    rw [← carried]
    exact (flushed.stores_of_mem found (flushed.mem_of_readable answered found readable)).1
  other different := by
    have elsewhere := flushed.contents found
    exact ⟨elsewhere.entries key (Ne.symm different),
      funext (elsewhere.blocks key (Ne.symm different))⟩

/-- A truncation to this size and a flush of the buffer come to the same in both orders:
the buffered writes end within the new size, and truncating does not prune every block,
or there is nothing else to keep. -/
def HandleBuffer.EndsWithin (buffer : HandleBuffer) (size newSize : Nat) : Prop :=
  buffer.maxSize ≤ newSize ∧ (newSize < addressable ∨ size ≤ newSize ∨
    ∀ index < newSize, flat 0 blockSize buffer.dirtyBlocks.lookup index = 0)

namespace PgFs

variable {fs : PgFs} {truncates flushes : Event} {ino fh id newSize size : Nat} {path : Str}
  {buffer : HandleBuffer}

theorem exists_truncateFirst (quiet : Db.Quiet fs.db) (alive : truncates.alive = true)
    (flushAlive : flushes.alive = true)
    (sets : truncates.callback = .setattr ino (some newSize))
    (flushCall : flushes.callback = .flush ino fh ∨ flushes.callback = .fsync ino fh)
    (notRoot : ino ≠ rootIno) (resolved : fs.pathOfIno ino = some path)
    (handled : fs.handleId ino fh = some id) (found : fs.openHandles.lookup id = some buffer)
    (file : fs.db.tables.FileAt (keyOf path) size) (fits : newSize < 2 ^ 63) :
    ∃ replies final truncatedTables,
      serveAll step [truncates, flushes] fs = some (replies, final) ∧ Db.Quiet final.db ∧
      Db.Truncated (keyOf path) newSize fs.db.tables truncatedTables ∧
      FlushSeen (keyOf path) buffer truncatedTables final.db.tables := by
  rcases exists_step_setattr alive sets quiet notRoot resolved file fits with
    ⟨reply, middle, truncatedTables, ran, world, truncated, reached⟩
  have middleHandled : middle.mount.handleId ino fh = some id := by
    rw [reached]
    exact handled
  have middleFound : middle.mount.openHandles.lookup id = some buffer := by
    rw [reached]
    exact found
  have tables : middle.mount.tables = truncatedTables := by
    rw [reached]
    rfl
  rcases exists_step_flush flushAlive flushCall middleHandled with
    ⟨flushReply, final, succeeded, flushRan, flushWorld, flushed⟩
  have sized : middle.mount.tables.FileAt (keyOf path) newSize := by
    rw [tables]
    exact truncated.size fits
  have seen := flushed.seen (world.quiet quiet) middleFound sized
  rw [tables] at seen
  have run : serveAll step [truncates, flushes] fs = some ([.ok reply, flushReply], final) :=
    serveAll_cons ran (serveAll_cons flushRan rfl)
  exact ⟨_, final, truncatedTables, run, flushWorld.quiet (world.quiet quiet), truncated, seen⟩

theorem exists_flushFirst (quiet : Db.Quiet fs.db) (alive : truncates.alive = true)
    (flushAlive : flushes.alive = true)
    (sets : truncates.callback = .setattr ino (some newSize))
    (flushCall : flushes.callback = .flush ino fh ∨ flushes.callback = .fsync ino fh)
    (notRoot : ino ≠ rootIno) (resolved : fs.pathOfIno ino = some path)
    (handled : fs.handleId ino fh = some id) (found : fs.openHandles.lookup id = some buffer)
    (file : fs.db.tables.FileAt (keyOf path) size) (sized : size < 2 ^ 63)
    (buffered : buffer.maxSize < 2 ^ 63) (fits : newSize < 2 ^ 63) :
    ∃ replies final flushedTables,
      serveAll step [flushes, truncates] fs = some (replies, final) ∧ Db.Quiet final.db ∧
      FlushSeen (keyOf path) buffer fs.db.tables flushedTables ∧
      Db.Truncated (keyOf path) newSize flushedTables final.db.tables := by
  rcases exists_step_flush flushAlive flushCall handled with
    ⟨flushReply, middle, succeeded, flushRan, world, flushed⟩
  have seen := flushed.seen quiet found file
  rcases seen.exists_fileAt file sized buffered with ⟨grown, stillFile⟩
  have middleResolved : middle.mount.pathOfIno ino = some path := by
    rw [flushed.frame.1]
    exact resolved
  rcases exists_step_setattr alive sets (world.quiet quiet) notRoot middleResolved stillFile
    fits with ⟨reply, final, truncatedTables, ran, truncateWorld, truncated, reached⟩
  have tables : final.db.tables = truncatedTables := congrArg Mount.tables reached
  rw [← tables] at truncated
  have run : serveAll step [flushes, truncates] fs = some ([flushReply, .ok reply], final) :=
    serveAll_cons flushRan (serveAll_cons ran rfl)
  exact ⟨_, final, _, run, truncateWorld.quiet (world.quiet quiet), seen, truncated⟩

/-- Setting the size of a file and flushing a handle leave the same size and contents in
both orders exactly when the writes buffered for the file end within the new size. -/
theorem truncation_order_iff (quiet : Db.Quiet fs.db) (alive : truncates.alive = true)
    (flushAlive : flushes.alive = true)
    (sets : truncates.callback = .setattr ino (some newSize))
    (flushCall : flushes.callback = .flush ino fh ∨ flushes.callback = .fsync ino fh)
    (notRoot : ino ≠ rootIno) (resolved : fs.pathOfIno ino = some path)
    (handled : fs.handleId ino fh = some id) (found : fs.openHandles.lookup id = some buffer)
    (file : fs.db.tables.FileAt (keyOf path) size) (sized : size < 2 ^ 63)
    (buffered : buffer.maxSize < 2 ^ 63) (fits : newSize ≤ addressable) :
    ∃ replies final otherReplies otherFinal,
      serveAll step [truncates, flushes] fs = some (replies, final) ∧
      serveAll step [flushes, truncates] fs = some (otherReplies, otherFinal) ∧
      (SameContents (keyOf path) final.db otherFinal.db ↔
        (buffer.key = keyOf path → buffer.EndsWithin size newSize)) := by
  have bounded : addressable < 2 ^ 63 := by decide
  have small : newSize < 2 ^ 63 := by omega
  rcases exists_truncateFirst quiet alive flushAlive sets flushCall notRoot resolved handled
    found file small with ⟨replies, final, truncatedTables, run, quietFinal, truncated, seen⟩
  rcases exists_flushFirst quiet alive flushAlive sets flushCall notRoot resolved handled
    found file sized buffered small with
    ⟨otherReplies, otherFinal, flushedTables, otherRun, quietOther, otherSeen, truncatedLast⟩
  refine ⟨replies, final, otherReplies, otherFinal, run, otherRun, ?_⟩
  by_cases carried : buffer.key = keyOf path
  · have sizes := sizes_of_orders file sized buffered small truncated (seen.own carried)
      (otherSeen.own carried) truncatedLast
    have same := sameContents_iff quietFinal quietOther sizes.1 sizes.2.2
    have orders (within : buffer.maxSize ≤ newSize) := bytes_of_orders_iff file sized within
      fits truncated (seen.own carried) (otherSeen.own carried) truncatedLast
    rw [HandleBuffer.EndsWithin, same]
    constructor
    · intro agree _
      have within : buffer.maxSize ≤ newSize := by omega
      refine ⟨within, (orders within).mp fun index inside => ?_⟩
      exact agree.2 index (by omega) (by omega)
    · intro condition
      rcases condition carried with ⟨within, kept⟩
      exact ⟨by omega, fun index inside _ => (orders within).mpr kept index (by omega)⟩
  · refine iff_of_true ?_ fun same => absurd same carried
    have untouched := otherSeen.fileAt_of_other carried file
    have finalFile := seen.fileAt_of_other carried (truncated.size small)
    apply (sameContents_iff quietFinal quietOther finalFile (truncatedLast.size small)).mpr
    refine ⟨rfl, fun index _ _ => flat_congr 0 blockSize ?_⟩
    rcases truncated.blocks with ⟨_, stored, cut⟩
    rcases truncatedLast.blocks with ⟨_, otherStored, otherCut⟩
    rw [(seen.other carried).2, cut, otherCut, (otherSeen.other carried).2,
      ← file.unique stored, ← untouched.unique otherStored]

private def oneByteBuffered : PgFs :=
  ((replay (fun _ _ _ => True) (fun _ _ _ ghost => ghost) writeOneByte (freshMount, ())).map
    Prod.fst).getD freshMount

private theorem oneByteBuffered_state : oneByteBuffered.pathOfIno 2 = some ['a'] ∧
    oneByteBuffered.db.tables.entries.lookup ⟨[], ['a']⟩ = some ⟨.file, 0, 0⟩ ∧
    ∃ buffer, oneByteBuffered.openHandles.lookup 1 = some buffer ∧
      buffer.key = ⟨[], ['a']⟩ ∧ buffer.maxSize = 1 :=
  ⟨by decide, by decide, _, rfl, rfl, rfl⟩

/-- The file is cut to the size that the buffered byte needs. -/
theorem truncation_order_iff_one_byte : ∃ replies final otherReplies otherFinal,
    serveAll step [{ callback := .setattr 2 (some 1) }, { callback := .flush 2 1 }]
      oneByteBuffered = some (replies, final) ∧
    serveAll step [{ callback := .flush 2 1 }, { callback := .setattr 2 (some 1) }]
      oneByteBuffered = some (otherReplies, otherFinal) ∧
    SameContents ⟨[], ['a']⟩ final.db otherFinal.db := by
  rcases oneByteBuffered_state with ⟨resolved, stored, buffer, found, carried, maxSize⟩
  have quiet : Db.Quiet oneByteBuffered.db := fun _ => rfl
  have file : oneByteBuffered.db.tables.FileAt (keyOf ['a']) 0 := ⟨0, stored⟩
  rcases @truncation_order_iff _ { callback := .setattr 2 (some 1) }
    { callback := .flush 2 1 } 2 1 1 1 0 _ buffer quiet rfl rfl rfl (Or.inl rfl) (by decide)
    resolved rfl found file (by decide) (by omega) (by decide) with
    ⟨replies, final, otherReplies, otherFinal, run, otherRun, same⟩
  refine ⟨replies, final, otherReplies, otherFinal, run, otherRun, same.mpr fun _ => ?_⟩
  exact ⟨by omega, Or.inl (by decide)⟩

/-- The file is cut to nothing, and the byte that was acknowledged before is back after
the flush. -/
theorem flush_undoes_truncation : ¬∀ (fs : PgFs) (ino fh id newSize size : Nat) (path : Str)
    (buffer : HandleBuffer), Db.Quiet fs.db → ino ≠ rootIno → fs.pathOfIno ino = some path →
    fs.handleId ino fh = some id → fs.openHandles.lookup id = some buffer →
    buffer.key = keyOf path → fs.db.tables.FileAt (keyOf path) size → size < 2 ^ 63 →
    buffer.maxSize < 2 ^ 63 → (∀ index, size ≤ index → fs.db.tables.bytes (keyOf path) index = 0) →
    newSize ≤ addressable → ∀ replies final otherReplies otherFinal,
      serveAll step [{ callback := .setattr ino (some newSize) }, { callback := .flush ino fh }]
        fs = some (replies, final) →
      serveAll step [{ callback := .flush ino fh }, { callback := .setattr ino (some newSize) }]
        fs = some (otherReplies, otherFinal) →
      SameContents (keyOf path) final.db otherFinal.db := by
  intro claimed
  rcases oneByteBuffered_state with ⟨resolved, stored, buffer, found, carried, maxSize⟩
  have file : oneByteBuffered.db.tables.FileAt (keyOf ['a']) 0 := ⟨0, stored⟩
  have grown : (serveAll step [{ callback := .setattr 2 (some 0) }, { callback := .flush 2 1 }]
      oneByteBuffered).any (fun outcome => decide
        (outcome.2.db.tables.entries.lookup ⟨[], ['a']⟩ = some ⟨.file, 1, 0⟩)) = true := by
    decide +kernel
  have cut : (serveAll step [{ callback := .flush 2 1 }, { callback := .setattr 2 (some 0) }]
      oneByteBuffered).any (fun outcome => decide
        (outcome.2.db.tables.entries.lookup ⟨[], ['a']⟩ = some ⟨.file, 0, 0⟩)) = true := by
    decide +kernel
  rcases (Option.any_eq_true _ _).mp grown with ⟨⟨replies, final⟩, run, one⟩
  rcases (Option.any_eq_true _ _).mp cut with ⟨⟨otherReplies, otherFinal⟩, otherRun, zero⟩
  have same := claimed oneByteBuffered 2 1 1 0 0 ['a'] buffer (fun _ => rfl) (by decide)
    resolved rfl found carried file (by decide) (by omega) (fun _ _ => rfl) (by decide)
    replies final otherReplies otherFinal run otherRun
  rcases same.size with ⟨size, left, right⟩
  have longer : final.db.tables.FileAt ⟨[], ['a']⟩ 1 := ⟨0, of_decide_eq_true one⟩
  have shorter : otherFinal.db.tables.FileAt ⟨[], ['a']⟩ 0 := ⟨0, of_decide_eq_true zero⟩
  have absurd := (longer.unique left).trans (right.unique shorter)
  cases absurd

end PgFs

end Pgfs
