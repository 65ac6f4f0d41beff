import Pgfs.Db.Contents

namespace Pgfs

open MachineInt Blocked

/-! What a range read replies: a function of the attributes and the bytes of the
file. -/

/-- The reply of `read_range_primary` when no statement fails. Past the
addressable bytes its arithmetic overflows. -/
def readReply (attributes : Except DbError (Option FileMeta)) (bytes : Nat → UInt8)
    (offset length : Nat) : Option (Except DbError (Option (List UInt8))) :=
  match attributes with
  | .error failure => some (.error failure)
  | .ok none => some (.ok none)
  | .ok (some fileMeta) =>
      if fileMeta.kind = .dir then
        some (.ok none)
      else if min length (fileMeta.size - offset) = 0 then
        some (.ok (some []))
      else if offset + min length (fileMeta.size - offset) ≤ addressable then
        some (.ok (some
          (Vec.window bytes offset (min length (fileMeta.size - offset)))))
      else
        none

theorem exists_readReply_iff {attributes : Except DbError (Option FileMeta)}
    {bytes : Nat → UInt8} {offset length : Nat} :
    (∃ reply, readReply attributes bytes offset length = some (.ok reply)) ↔
      ∃ found, attributes = .ok found ∧
        ∀ fileMeta, found = some fileMeta → fileMeta.kind = .file →
          min length (fileMeta.size - offset) = 0 ∨
            offset + min length (fileMeta.size - offset) ≤ addressable := by
  unfold readReply
  cases attributes with
  | error failure => simp
  | ok found =>
      cases found with
      | none => simp
      | some fileMeta =>
          simp only [Except.ok.injEq, exists_eq_left', Option.some.injEq, forall_eq']
          generalize min length (fileMeta.size - offset) = actualLength
          cases kind : fileMeta.kind with
          | dir => simp
          | file =>
              by_cases nothing : actualLength = 0
              · simp [nothing]
              · by_cases fits : offset + actualLength ≤ addressable
                · simp [nothing, fits]
                · simp [nothing, fits]

theorem readReply_file (name : Str) (size mtime : Nat) (bytes : Nat → UInt8)
    (offset length : Nat) (fits : size ≤ addressable) :
    readReply (.ok (some ⟨name, .file, size, mtime⟩)) bytes offset length =
      some (.ok (some (Vec.window bytes offset (min length (size - offset))))) := by
  unfold readReply
  simp only [reduceCtorEq, if_false]
  split
  · rename_i nothing
    rw [nothing, Vec.window_zero]
  · rw [if_pos (by omega)]

namespace Db

variable {before : Db}

/-! ## Methods in a quiet world -/

theorem query_quiet (quiet : Quiet before) (what : Message) (read : Tables → Value) :
    query what read before = some (.ok (read before.tables), before.advance) := by
  simp only [query, execute, moment, quiet before.cursor]
  rfl

theorem getattrPrimary_apply (before : Db) (parent name : Str) :
    getattrPrimary parent name before =
      some (if before.moment.fails then
          .error (.ctx ⟨"get attributes of entry _ in _", [name, parent]⟩)
        else
          before.tables.attributes ⟨parent, name⟩, before.advance) := by
  unfold getattrPrimary Tables.attributes
  rw [Effect.bind_apply, query_apply]
  cases before.moment.fails with
  | true => rfl
  | false =>
      simp only [Bool.false_eq_true, if_false]
      cases before.tables.entries.lookup ⟨parent, name⟩ with
      | none => rfl
      | some row => cases converted : rowToMeta name row <;> simp [converted, ofExcept] <;> rfl

theorem getattrPrimary_quiet (quiet : Quiet before) (parent name : Str) :
    getattrPrimary parent name before =
      some (before.tables.attributes ⟨parent, name⟩, before.advance) := by
  rw [getattrPrimary_apply, moment, quiet before.cursor]
  rfl

theorem readLoop_readBlocks (tables : Tables) (key : Key) (offset : Nat)
    {length : Nat} (more : 0 < length) :
    readLoop (tables.readBlocks key (asI32 (offset / blockSize))
        (asI32 ((offset + length - 1) / blockSize))) (offset + length) length offset [] =
      if offset + length ≤ addressable then
        some (Vec.window (tables.bytes key) offset length)
      else
        none := by
  rw [readLoop_eq (Nat.le_refl _) (by omega), Nat.add_sub_cancel_left, List.nil_append]
  by_cases fits : offset + length ≤ addressable
  · rw [if_pos fits, if_pos fits]
    refine congrArg some (Vec.window_congr fun index low high => flat_congr _ _ ?_)
    unfold Tables.readBlocks
    rw [blockNo_of_lt (by omega), blockNo_of_lt (by omega), if_pos]
    unfold blockOf
    exact ⟨Int.ofNat_le.mpr (Nat.div_le_div_right low),
      Int.ofNat_le.mpr (Nat.div_le_div_right (by omega))⟩
  · rw [if_neg fits, if_neg fits]

theorem readRange_quiet (quiet : Quiet before) (parent name : Str) (offset length : Nat) :
    ∃ after, SameWorld before after ∧ after.tables = before.tables ∧
      readRange parent name offset length before =
        (readReply (before.tables.attributes ⟨parent, name⟩)
          (before.tables.bytes ⟨parent, name⟩) offset length).map (·, after) := by
  unfold readRange readRangePrimary
  have found := getattrPrimary_quiet quiet parent name
  cases attributes : before.tables.attributes ⟨parent, name⟩ with
  | error failure =>
      rw [attributes] at found
      exact ⟨before.advance, ⟨rfl, rfl⟩, rfl, Effect.bind_of_error found⟩
  | ok known =>
      rw [attributes] at found
      rw [Effect.bind_of_ok found]
      cases known with
      | none => exact ⟨before.advance, ⟨rfl, rfl⟩, rfl, rfl⟩
      | some fileMeta =>
          simp only [readReply]
          by_cases directory : fileMeta.kind = .dir
          · simp only [if_pos directory]
            exact ⟨before.advance, ⟨rfl, rfl⟩, rfl, rfl⟩
          simp only [if_neg directory]
          by_cases nothing : min length (fileMeta.size - offset) = 0
          · refine ⟨before.advance, ⟨rfl, rfl⟩, rfl, ?_⟩
            by_cases past : fileMeta.size ≤ offset
            · simp [past]
            · simp [past, nothing]
          have inside : ¬fileMeta.size ≤ offset := by omega
          simp only [if_neg nothing, if_neg inside]
          generalize min length (fileMeta.size - offset) = actualLength at *
          refine ⟨before.advance.advance, ⟨rfl, rfl⟩, rfl, ?_⟩
          have loop := readLoop_readBlocks before.tables ⟨parent, name⟩ offset
            (show 0 < actualLength by omega)
          cases added : checkedAdd offset actualLength with
          | none =>
              have huge : ¬offset + actualLength ≤ addressable := by
                intro fits
                have bounded : addressable < 2 ^ 64 := by decide
                rw [checkedAdd_of_lt (by omega)] at added
                cases added
              rw [if_neg huge]
              rfl
          | some endOffset =>
              rw [eq_of_checkedAdd added, Effect.bind_of_ok (Effect.orAbort_some _ _),
                Effect.bind_of_ok (query_quiet quiet.advance _ _)]
              simp only [advance_tables, loop]
              split <;> rfl

theorem readRange_replies (quiet : Quiet before) (parent name : Str) (offset length : Nat) :
    (readRange parent name offset length before).map Prod.fst =
      readReply (before.tables.attributes ⟨parent, name⟩)
        (before.tables.bytes ⟨parent, name⟩) offset length := by
  rcases readRange_quiet quiet parent name offset length with ⟨after, _, _, replied⟩
  rw [replied, Option.map_map]
  exact Option.map_id'

/-- Files of one size read the same exactly when their addressable bytes are the same. -/
theorem reads_agree_iff {left right : Db} (quiet : Quiet left) (otherQuiet : Quiet right)
    {parent name : Str} {size : Nat} (file : left.tables.FileAt ⟨parent, name⟩ size)
    (other : right.tables.FileAt ⟨parent, name⟩ size) :
    (∀ offset length, (readRange parent name offset length left).map Prod.fst =
        (readRange parent name offset length right).map Prod.fst) ↔
      ∀ index, index < size → index < addressable →
        left.tables.bytes ⟨parent, name⟩ index = right.tables.bytes ⟨parent, name⟩ index := by
  rcases file.attributes with ⟨mtime, known⟩
  rcases other.attributes with ⟨otherMtime, otherKnown⟩
  have replies (offset length : Nat) := readRange_replies quiet parent name offset length
  have otherReplies (offset length : Nat) :=
    readRange_replies otherQuiet parent name offset length
  simp only [replies, otherReplies, known, otherKnown, readReply, reduceCtorEq, if_false]
  constructor
  · intro agree index inside within
    have one := agree index 1
    have length : min 1 (size - index) = 1 := by omega
    rw [length, if_neg Nat.one_ne_zero, if_pos (by omega), if_neg Nat.one_ne_zero,
      if_pos (by omega)] at one
    simp only [Option.some.injEq, Except.ok.injEq] at one
    exact Vec.window_eq_iff.mp one index (Nat.le_refl _) (Nat.lt_succ_self _)
  · intro agree offset length
    split
    · rfl
    split
    · rename_i within
      have windows : Vec.window (left.tables.bytes ⟨parent, name⟩) offset
          (min length (size - offset)) =
          Vec.window (right.tables.bytes ⟨parent, name⟩) offset (min length (size - offset)) :=
        Vec.window_congr fun index low high => agree index (by omega) (by omega)
      rw [windows]
    · rfl

theorem readRange_atomic {parent name : Str} {offset length : Nat} :
    Atomic before (readRange parent name offset length)
      (fun _ tables => tables = before.tables ∧ True) True := by
  unfold readRange readRangePrimary
  refine Atomic.bind_read (fun _ => True)
    (getattrPrimary_atomic.imp (fun _ _ known => ⟨known.1, trivial⟩) fun _ => trivial) ?_
  rintro (_ | fileMeta) found _ foundSame _
  · exact atomic_pure ⟨foundSame, trivial⟩
  dsimp only
  split
  · exact atomic_pure ⟨foundSame, trivial⟩
  split
  · exact atomic_pure ⟨foundSame, trivial⟩
  split
  · exact atomic_pure ⟨foundSame, trivial⟩
  refine Atomic.bind_read (fun _ => True) (atomic_orAbort fun _ _ => ⟨rfl, trivial⟩) ?_
  intro endOffset _ _ addedSame _
  refine Atomic.bind_read (fun _ => True) (query_atomic ⟨rfl, trivial⟩) ?_
  intro rows _ _ readSame _
  have same := readSame.trans (addedSame.trans foundSame)
  exact Atomic.bind_pure _ (atomic_orAbort fun _ _ => ⟨same, trivial⟩)

/-! ## Every table -/

private theorem exists_readRange {parent name : Str} {offset length : Nat}
    (fits : ∀ size, before.tables.FileAt ⟨parent, name⟩ size →
      min (offset + length) size ≤ addressable) :
    ∃ outcome after, readRange parent name offset length before = some (outcome, after) := by
  unfold readRange readRangePrimary
  rcases total_getattrPrimary parent name before with ⟨failure | found, opened, asked⟩
  · exact ⟨_, _, Effect.bind_of_error asked⟩
  rw [Effect.bind_of_ok asked]
  have attributes := (getattrPrimary_atomic _ _ asked).2.2
  cases found with
  | none => exact ⟨_, _, rfl⟩
  | some fileMeta =>
      dsimp only
      split
      · exact ⟨_, _, rfl⟩
      rename_i notDirectory
      have small := fits _ (Tables.fileAt_of_attributes attributes notDirectory)
      split
      · exact ⟨_, _, rfl⟩
      split
      · exact ⟨_, _, rfl⟩
      rename_i inside some
      generalize shortest : min length (fileMeta.size - offset) = actualLength at some ⊢
      have bounded : addressable < 2 ^ 64 := by decide
      rw [checkedAdd_of_lt (by omega), Effect.bind_of_ok (Effect.orAbort_some _ _)]
      apply (total_query _ _).bind
      intro rows
      rw [readLoop_eq (Nat.le_refl _) (by omega), if_pos (by omega)]
      exact (Effect.total_orAbort rfl).bind fun _ => Effect.total_pure _

theorem total_readRange (parent name : Str) {offset length : Nat}
    (fits : offset + length ≤ addressable) :
    Effect.Total (readRange parent name offset length) :=
  fun _ => exists_readRange fun _ _ => (Nat.min_le_left _ _).trans fits

private theorem readReply_cases {tables : Tables} {key : Key} {offset length : Nat}
    {outcome : Except DbError (Option (List UInt8))}
    (fits : ∀ size, tables.FileAt key size → size ≤ addressable)
    (replied : readReply (tables.attributes key) (tables.bytes key) offset length =
      some outcome) :
    (tables.entries.lookup key = none ∧ outcome = .ok none) ∨
    (∃ row failure, tables.entries.lookup key = some row ∧
      ((∃ text, row.kind = .other text) ∨ row.size < 0) ∧ outcome = .error failure) ∨
    (∃ size mtime : Nat, tables.entries.lookup key = some ⟨.dir, size, mtime⟩ ∧
      outcome = .ok none) ∨
    ∃ size mtime : Nat, tables.entries.lookup key = some ⟨.file, size, mtime⟩ ∧
      outcome = .ok (some (Vec.window (tables.bytes key) offset (min length (size - offset)))) := by
  cases attributes : tables.attributes key with
  | error failure =>
      rw [attributes] at replied
      cases replied
      cases stored : tables.entries.lookup key with
      | none => simp [Tables.attributes, stored] at attributes
      | some row =>
          rw [Tables.attributes, stored] at attributes
          have unreadable : ∃ failure, rowToMeta key.name row = .error failure := by
            cases converted : rowToMeta key.name row with
            | error cause => exact ⟨cause, rfl⟩
            | ok fileMeta => simp [converted, Except.map] at attributes
          exact .inr (.inl ⟨row, failure, rfl, rowToMeta_eq_error_iff.mp unreadable, rfl⟩)
  | ok found =>
      rw [attributes] at replied
      cases found with
      | none =>
          cases replied
          exact .inl ⟨Tables.lookup_eq_none_of_attributes attributes, rfl⟩
      | some fileMeta =>
          have stored := Tables.lookup_of_attributes attributes
          cases kind : fileMeta.kind with
          | dir =>
              simp only [readReply, kind, if_true, Option.some.injEq] at replied
              rw [kind] at stored
              exact .inr (.inr (.inl ⟨_, _, stored, replied.symm⟩))
          | file =>
              have file := Tables.fileAt_of_attributes attributes (by simp [kind])
              have reply := readReply_file fileMeta.name fileMeta.size fileMeta.mtime
                (tables.bytes key) offset length (fits _ file)
              rw [← kind] at reply
              rw [reply, Option.some.injEq] at replied
              rw [kind] at stored
              exact .inr (.inr (.inr ⟨_, _, stored, replied.symm⟩))

/-- A read of any tables ends. When no statement fails, it reports exactly the rows
whose attributes cannot be read as errors, finds nothing exactly for missing keys and
directories, and otherwise replies the bytes of the file from the offset on, as many
as are asked for and there are. -/
theorem readRange_exact {parent name : Str} {offset length : Nat}
    (fits : ∀ size, before.tables.FileAt ⟨parent, name⟩ size → size ≤ addressable) :
    ∃ outcome after, readRange parent name offset length before = some (outcome, after) ∧
      (Quiet before →
        ((∃ failure, outcome = .error failure) ↔
          ∃ row, before.tables.entries.lookup ⟨parent, name⟩ = some row ∧
            ((∃ text, row.kind = .other text) ∨ row.size < 0)) ∧
        (outcome = .ok none ↔ before.tables.entries.lookup ⟨parent, name⟩ = none ∨
          ∃ row, before.tables.entries.lookup ⟨parent, name⟩ = some row ∧ row.kind = .dir ∧
            0 ≤ row.size) ∧
        ∀ size, before.tables.FileAt ⟨parent, name⟩ size →
          ∃ data, outcome = .ok (some data) ∧ data.length = min length (size - offset) ∧
            ∀ index < data.length, data[index]? = some (Vec.cell 0
              ((before.tables.block ⟨parent, name⟩
                (blockOf blockSize (offset + index))).getD [])
              ((offset + index) % blockSize))) := by
  have within : ∀ size, before.tables.FileAt ⟨parent, name⟩ size →
      min (offset + length) size ≤ addressable :=
    fun size file => (Nat.min_le_right _ _).trans (fits size file)
  rcases exists_readRange within with ⟨outcome, after, run⟩
  refine ⟨outcome, after, run, fun quiet => ?_⟩
  rcases readRange_quiet quiet parent name offset length with ⟨_, _, _, known⟩
  rw [run] at known
  have replied : readReply (before.tables.attributes ⟨parent, name⟩)
      (before.tables.bytes ⟨parent, name⟩) offset length = some outcome := by
    rcases Option.map_eq_some_iff.mp known.symm with ⟨reply, found, equal⟩
    cases equal
    exact found
  rcases readReply_cases fits replied with
    ⟨missing, rfl⟩ | ⟨row, failure, stored, unreadable, rfl⟩ | ⟨known, mtime, stored, rfl⟩ |
    ⟨known, mtime, stored, rfl⟩
  · refine ⟨by simp [missing], by simp [missing], fun size file => ?_⟩
    rcases file with ⟨mtime, contrary⟩
    rw [missing] at contrary
    cases contrary
  · refine ⟨by simp [stored, unreadable], ?_, fun size file => ?_⟩
    · simp only [stored, reduceCtorEq, Option.some.injEq, exists_eq_left', false_or, false_iff]
      intro directory
      rcases unreadable with ⟨text, other⟩ | negative
      · rw [directory.1] at other
        cases other
      · omega
    · rcases file with ⟨mtime, found⟩
      rw [stored] at found
      cases found
      rcases unreadable with ⟨text, other⟩ | negative
      · cases other
      · simp only at negative
        omega
  · refine ⟨by simp [stored], by simp [stored], fun size file => ?_⟩
    rcases file with ⟨otherMtime, found⟩
    rw [stored] at found
    cases found
  · refine ⟨by simp [stored], by simp [stored], fun size file => ?_⟩
    rw [file.unique ⟨mtime, stored⟩]
    refine ⟨_, rfl, Vec.length_window _ _ _, fun index inside => ?_⟩
    rw [Vec.length_window] at inside
    simp only [Vec.window, List.getElem?_map, List.getElem?_range inside, Option.map_some]
    rfl

def oneEntry (kind : KindText) (size : Int) : Db :=
  .connect ⟨Finmap.singleton ⟨[], ['a']⟩ ⟨kind, size, 0⟩,
    Finmap.singleton ⟨⟨[], ['a']⟩, 0⟩ [7]⟩ false fun _ => {}

theorem readRange_exact_short_block : ∃ data after,
    readRange [] ['a'] 0 5 (oneEntry .file 3) = some (.ok (some data), after) ∧
      data.length = 3 ∧ data[0]? = some 7 ∧ data[2]? = some 0 := by
  have stored : (oneEntry .file 3).tables.FileAt ⟨[], ['a']⟩ 3 := ⟨0, by decide⟩
  have fits : ∀ size, (oneEntry .file 3).tables.FileAt ⟨[], ['a']⟩ size →
      size ≤ addressable := by
    intro size file
    rw [file.unique stored]
    decide
  rcases @readRange_exact _ _ _ 0 5 fits with ⟨outcome, after, run, exact⟩
  rcases (exact fun _ => rfl).2.2 3 stored with ⟨data, rfl, length, bytes⟩
  have three : data.length = 3 := length
  refine ⟨data, after, run, three, ?_, ?_⟩
  · exact (bytes 0 (by omega)).trans (by decide)
  · exact (bytes 2 (by omega)).trans (by decide)

/-- A row whose kind is neither that of a file nor that of a directory is an error,
although its key is no file. -/
theorem unknown_kind_is_an_error : ¬∀ (before : Db) (parent name : Str) (offset length : Nat),
    Quiet before → (∀ size, before.tables.FileAt ⟨parent, name⟩ size → size ≤ addressable) →
    ∃ reply after, readRange parent name offset length before = some (.ok reply, after) ∧
      (reply = none ↔ ∀ row, before.tables.entries.lookup ⟨parent, name⟩ = some row →
        row.kind ≠ .file) := by
  intro claimed
  have noFile : ∀ size, (oneEntry (.other ['l']) 0).tables.FileAt ⟨[], ['a']⟩ size →
      size ≤ addressable := by
    intro size file
    rcases file with ⟨mtime, found⟩
    have stored : (oneEntry (.other ['l']) 0).tables.entries.lookup ⟨[], ['a']⟩ =
        some ⟨.other ['l'], 0, 0⟩ := by decide
    rw [stored] at found
    cases found
  rcases claimed (oneEntry (.other ['l']) 0) [] ['a'] 0 1 (fun _ => rfl) noFile with
    ⟨reply, after, run, _⟩
  have failed : (readRange [] ['a'] 0 1 (oneEntry (.other ['l']) 0)).any
      (fun outcome => !outcome.1.isOk) = true := by decide
  rw [run] at failed
  cases failed

end Db

end Pgfs
