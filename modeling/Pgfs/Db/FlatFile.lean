import Pgfs.Db.Overwriting
import Pgfs.Db.Tree

namespace Pgfs

open MachineInt Blocked

/-! A file as a flat array of bytes, and the calls that change its contents. The
stored blocks follow the array as long as no truncation leaves bytes behind. -/

inductive ContentCall
  | write (range : RangeWrite)
  | truncate (newSize : Nat)

namespace ContentCall

def Fits : ContentCall → Prop
  | .write range => range.Fits
  | .truncate newSize => newSize ≤ addressable

instance : (call : ContentCall) → Decidable call.Fits
  | .write range => inferInstanceAs (Decidable range.Fits)
  | .truncate newSize => inferInstanceAs (Decidable (newSize ≤ addressable))

def run (parent name : Str) : ContentCall → DbM Unit
  | .write range => Db.writeRange parent name range.offset range.data
  | .truncate newSize => Db.truncate parent name newSize

/-- What the call should do to the bytes: a write overlays them, with zeros in a gap,
and a truncation cuts them or extends them with zeros. -/
def apply (array : List UInt8) : ContentCall → List UInt8
  | .write range =>
      if range.data = [] then array else Vec.patch array range.offset range.data 0
  | .truncate newSize => Vec.resize array newSize 0

/-- Truncating to a multiple of the block size keeps the first block past the new end,
so it may cut off only zeros from that block. -/
def Spares (array : List UInt8) : ContentCall → Prop
  | .write _ => True
  | .truncate newSize => newSize % blockSize = 0 →
      ∀ index, newSize ≤ index → index < newSize + blockSize → Vec.cell 0 array index = 0

def reference (calls : List ContentCall) : List UInt8 := calls.foldl apply []

def AllSpare : List UInt8 → List ContentCall → Prop
  | _, [] => True
  | array, call :: rest => call.Spares array ∧ AllSpare (call.apply array) rest

def runAll (parent name : Str) (calls : List ContentCall) : DbM Unit :=
  calls.forM (run parent name)

end ContentCall

/-! ## Blocks and bytes -/

/-- Shrinking keeps the bytes below the new size. Of those past it, only the bytes of
the first block survive, and only when the new end falls between two blocks. -/
theorem flat_shrunkBlocks {newSize : Nat} (inside : newSize < addressable)
    (blocks : Int → Option (List UInt8)) (index : Nat) :
    flat 0 blockSize (Db.shrunkBlocks newSize blocks) index =
      if index < newSize ∨ newSize % blockSize = 0 ∧ index < newSize + blockSize then
        flat 0 blockSize blocks index
      else
        0 := by
  have positive : 0 < blockSize := by decide
  have division := Nat.div_add_mod' newSize blockSize
  have remainder := Nat.mod_lt newSize positive
  have indexDivision := Nat.div_add_mod' index blockSize
  have indexRemainder := Nat.mod_lt index positive
  have ordered : index / blockSize < newSize / blockSize →
      index / blockSize * blockSize + blockSize ≤ newSize / blockSize * blockSize := by
    intro less
    rw [← Nat.succ_mul]
    exact Nat.mul_le_mul_right blockSize less
  have reversed : newSize / blockSize < index / blockSize →
      newSize / blockSize * blockSize + blockSize ≤ index / blockSize * blockSize := by
    intro less
    rw [← Nat.succ_mul]
    exact Nat.mul_le_mul_right blockSize less
  have number : Db.shrunkBlocks newSize blocks (blockOf blockSize index) =
      if newSize / blockSize < index / blockSize then none
      else if index / blockSize = newSize / blockSize ∧ 0 < newSize % blockSize then
        (blocks (blockOf blockSize index)).map (·.take (newSize % blockSize))
      else blocks (blockOf blockSize index) := by
    unfold Db.shrunkBlocks
    rw [blockNo_of_lt inside]
    unfold blockOf
    simp only [Int.ofNat_lt, Int.ofNat_inj]
  unfold flat
  rw [number]
  rcases Nat.lt_trichotomy (index / blockSize) (newSize / blockSize) with below | same | above
  · rw [if_neg (by omega), if_neg (by omega), if_pos (by omega)]
  · rw [if_neg (by omega)]
    rw [same] at indexDivision
    by_cases cut : 0 < newSize % blockSize
    · rw [if_pos ⟨same, cut⟩]
      have taken : ((blocks (blockOf blockSize index)).map
          (·.take (newSize % blockSize))).getD [] =
          ((blocks (blockOf blockSize index)).getD []).take (newSize % blockSize) := by
        cases blocks (blockOf blockSize index) <;> simp
      rw [taken, Vec.cell_take]
      by_cases kept : index % blockSize < newSize % blockSize
      · rw [if_pos kept, if_pos (by omega)]
      · rw [if_neg kept, if_neg (by omega)]
    · rw [if_neg (by omega), if_pos (by omega)]
  · rw [if_pos above, if_neg (by omega)]
    simp

/-- The entry is a file with exactly these bytes. Past its size no nonzero byte is
stored. -/
structure Represents (key : Key) (array : List UInt8) (tables : Tables) : Prop where
  size : tables.FileAt key array.length
  bytes : ∀ index, tables.bytes key index = Vec.cell 0 array index
  within : array.length ≤ addressable

namespace Represents

variable {key : Key} {array : List UInt8} {before after : Tables}

theorem write {range : RangeWrite} (represents : Represents key array before)
    (fits : range.Fits) (written : Db.Written key range.offset range.data before after) :
    Represents key ((ContentCall.write range).apply array) after := by
  rw [ContentCall.apply]
  by_cases empty : range.data = []
  · rw [if_pos empty, written.nothing empty]
    exact represents
  · rw [if_neg empty]
    have stops : range.offset + range.data.length ≤ addressable := fits
    have within := represents.within
    have bounded : addressable < 2 ^ 63 := by decide
    constructor
    · rw [Vec.length_patch]
      exact written.size _ represents.size empty (by omega)
    · intro index
      rw [written.bytes fits, Vec.cell_patch, Vec.overlay, Vec.overlay, represents.bytes]
    · rw [Vec.length_patch]
      omega

theorem truncate {newSize : Nat} (represents : Represents key array before)
    (fits : newSize ≤ addressable) (spares : (ContentCall.truncate newSize).Spares array)
    (truncated : Db.Truncated key newSize before after) :
    Represents key ((ContentCall.truncate newSize).apply array) after := by
  have bounded : addressable < 2 ^ 63 := by decide
  have within := represents.within
  have length : (Vec.resize array newSize (0 : UInt8)).length = newSize :=
    Vec.length_resize array newSize 0
  constructor
  · rw [ContentCall.apply, length]
    exact truncated.size (by omega)
  · intro index
    rcases truncated.blocks with ⟨size, file, blocks⟩
    rw [file.unique represents.size] at blocks
    have stored := represents.bytes index
    unfold Tables.bytes at stored ⊢
    rw [ContentCall.apply, Vec.cell_resize, blocks]
    by_cases shrinks : newSize < array.length
    · rw [if_pos shrinks, flat_shrunkBlocks (by omega), stored]
      by_cases inside : index < newSize
      · rw [if_pos (Or.inl inside), if_pos inside]
      · rw [if_neg inside]
        split
        · rename_i left
          exact spares (by omega) index (by omega) (by omega)
        · rfl
    · rw [if_neg shrinks, stored]
      split
      · rfl
      · exact Vec.cell_of_le 0 array (by omega)
  · rw [ContentCall.apply, length]
    exact fits

theorem reads {parent name : Str} {reader : Db} (quiet : Db.Quiet reader)
    (represents : Represents ⟨parent, name⟩ array reader.tables) (offset length : Nat) :
    ∃ after, Db.readRange parent name offset length reader =
      some (.ok (some ((array.drop offset).take length)), after) := by
  rcases Db.readRange_quiet quiet parent name offset length with ⟨after, _, _, replied⟩
  rcases represents.size.attributes with ⟨mtime, known⟩
  have bytes : reader.tables.bytes ⟨parent, name⟩ = Vec.cell 0 array :=
    funext represents.bytes
  rw [known, bytes, readReply_file _ _ _ _ _ _ represents.within, Vec.window_cell] at replied
  exact ⟨after, replied⟩

end Represents

/-! ## Runs -/

namespace ContentCall

variable {parent name : Str} {array : List UInt8} {before : Db}

theorem run_spared {call : ContentCall} (fits : call.Fits) (spares : call.Spares array)
    (represents : Represents ⟨parent, name⟩ array before.tables) :
    ∃ outcome after, call.run parent name before = some (outcome, after) ∧
      (Db.Quiet before → outcome = .ok () ∧ Db.Quiet after) ∧
      (outcome = .ok () → Represents ⟨parent, name⟩ (call.apply array) after.tables) := by
  cases call with
  | write range =>
      rcases Db.total_writeRange parent name fits before with ⟨outcome, after, ran⟩
      have written := Db.writeRange_atomic _ _ ran
      refine ⟨outcome, after, ran, fun quiet => ⟨?_, written.1.quiet quiet⟩, fun succeeded => ?_⟩
      · cases outcome with
        | ok _ => rfl
        | error failure =>
            rcases written.2.2 quiet with ⟨_, unreadable⟩
            rcases represents.size.attributes with ⟨mtime, known⟩
            cases known.symm.trans unreadable
      · subst succeeded
        exact represents.write fits written.2
  | truncate newSize =>
      rcases Db.total_truncate parent name newSize before with ⟨outcome, after, ran⟩
      have truncated := Db.truncate_atomic _ _ ran
      refine ⟨outcome, after, ran, fun quiet => ⟨?_, truncated.1.quiet quiet⟩,
        fun succeeded => ?_⟩
      · cases outcome with
        | ok _ => rfl
        | error failure => exact absurd represents.size (truncated.2.2 quiet _)
      · subst succeeded
        exact represents.truncate fits spares truncated.2

theorem runAll_spared {calls : List ContentCall} (fits : ∀ call ∈ calls, call.Fits)
    (spared : AllSpare array calls)
    (represents : Represents ⟨parent, name⟩ array before.tables) :
    ∃ outcome after, runAll parent name calls before = some (outcome, after) ∧
      (Db.Quiet before → outcome = .ok () ∧ Db.Quiet after) ∧
      (outcome = .ok () →
        Represents ⟨parent, name⟩ (calls.foldl apply array) after.tables) := by
  induction calls generalizing array before with
  | nil => exact ⟨.ok (), before, rfl, fun quiet => ⟨rfl, quiet⟩, fun _ => represents⟩
  | cons call rest induction =>
      rcases run_spared (fits call List.mem_cons_self) spared.1 represents with
        ⟨outcome, middle, ran, succeeds, kept⟩
      cases outcome with
      | error failure =>
          refine ⟨.error failure, middle, Effect.bind_of_error ran, fun quiet => ?_, ?_⟩
          · cases (succeeds quiet).1
          · intro succeeded
            cases succeeded
      | ok _ =>
          rcases induction (fun other member => fits other (List.mem_cons_of_mem _ member))
            spared.2 (kept rfl) with ⟨outcome, after, later, laterSucceeds, reached⟩
          exact ⟨outcome, after, (Effect.bind_of_ok ran).trans later,
            fun quiet => laterSucceeds (succeeds quiet).2, reached⟩

end ContentCall

namespace Db

variable {before : Db} {parent name : Str} {calls : List ContentCall}

def createAndRun (parent name : Str) (calls : List ContentCall) : DbM Unit := do
  create parent name
  ContentCall.runAll parent name calls

theorem represents_insertEntry {tables : Tables} {key : Key} (now : Nat)
    (absent : tables.entries.lookup key = none)
    (bare : ∀ blockNo, tables.block key blockNo = none) :
    Represents key [] (tables.insertEntry key .file now) where
  size := ⟨now, by simp [Tables.lookup_insertEntry, absent]⟩
  bytes index := by
    unfold Tables.bytes
    rw [flat_of_none 0 (by simp [bare]), Vec.cell_nil]
  within := Nat.zero_le _

/-- A file that is created and changed reads as the array that the calls describe, if no
truncation to a multiple of the block size cuts off a nonzero byte of the next block. -/
theorem reads_reference (absent : before.tables.entries.lookup ⟨parent, name⟩ = none)
    (bare : ∀ blockNo, before.tables.block ⟨parent, name⟩ blockNo = none)
    (fits : ∀ call ∈ calls, call.Fits) (spared : ContentCall.AllSpare [] calls) :
    ∃ outcome after, createAndRun parent name calls before = some (outcome, after) ∧
      (Quiet before → outcome = .ok () ∧ Quiet after) ∧
      (outcome = .ok () → ∀ reader, Quiet reader → reader.tables = after.tables →
        ∀ offset length, ∃ final, readRange parent name offset length reader =
          some (.ok (some (((ContentCall.reference calls).drop offset).take length)),
            final)) := by
  have creates : Effect.Total (create parent name) := total_update _ _
  rcases creates before with ⟨created, middle, ran⟩
  have inserted := create_atomic created middle ran
  cases created with
  | error failure =>
      refine ⟨.error failure, middle, Effect.bind_of_error ran, fun quiet => ?_, ?_⟩
      · exact absurd (inserted.2.2 quiet) id
      · intro succeeded
        cases succeeded
  | ok _ =>
      rcases inserted.2 with ⟨now, tables⟩
      have empty : Represents ⟨parent, name⟩ [] middle.tables := by
        rw [tables]
        exact represents_insertEntry now absent bare
      rcases ContentCall.runAll_spared fits spared empty with
        ⟨outcome, after, later, succeeds, reached⟩
      refine ⟨outcome, after, (Effect.bind_of_ok ran).trans later,
        fun quiet => succeeds (inserted.1.quiet quiet), ?_⟩
      intro succeeded reader quiet same offset length
      apply Represents.reads quiet _ offset length
      rw [same]
      exact reached succeeded

/-- The file is cut inside its only block and extended again. -/
theorem reads_reference_cut : ∃ after final,
    createAndRun [] ['a'] [.write ⟨0, [7, 8]⟩, .truncate 1, .truncate 3]
        (.connect .empty false fun _ => {}) = some (.ok (), after) ∧
      readRange [] ['a'] 0 5 after = some (.ok (some [7, 0, 0]), final) := by
  have fits : ∀ call ∈ [.write ⟨0, [7, 8]⟩, .truncate 1, .truncate 3],
      ContentCall.Fits call := by decide
  have spared : ContentCall.AllSpare [] [.write ⟨0, [7, 8]⟩, .truncate 1, .truncate 3] := by
    refine ⟨trivial, fun aligned => ?_, fun aligned => ?_, trivial⟩
    · exact absurd aligned (by decide)
    · exact absurd aligned (by decide)
  rcases @reads_reference (.connect .empty false fun _ => {}) [] ['a'] _ (by decide)
    (fun _ => rfl) fits spared with ⟨outcome, after, ran, succeeds, reads⟩
  rcases succeeds fun _ => rfl with ⟨succeeded, quiet⟩
  subst succeeded
  rcases reads rfl after quiet rfl 0 5 with ⟨final, replied⟩
  exact ⟨after, final, ran, replied⟩

/-- A truncation to zero leaves the first block, and its byte is back when the file is
extended. -/
theorem cut_bytes_reappear : ¬∀ (before : Db) (parent name : Str) (calls : List ContentCall),
    before.tables.entries.lookup ⟨parent, name⟩ = none →
    (∀ blockNo, before.tables.block ⟨parent, name⟩ blockNo = none) →
    (∀ call ∈ calls, call.Fits) → ∀ after,
      createAndRun parent name calls before = some (.ok (), after) →
      ∀ reader, Quiet reader → reader.tables = after.tables →
        ∀ offset length, ∃ final, readRange parent name offset length reader =
          some (.ok (some (((ContentCall.reference calls).drop offset).take length)),
            final) := by
  intro claimed
  have fits : ∀ call ∈ [.write ⟨0, [7]⟩, .truncate 0, .truncate 1],
      ContentCall.Fits call := by decide
  have ran : (createAndRun [] ['a'] [.write ⟨0, [7]⟩, .truncate 0, .truncate 1]
      (.connect .empty false fun _ => {})).any (fun outcome => outcome.1.isOk &&
        (readRange [] ['a'] 0 1 (.connect outcome.2.tables false fun _ => {})).any
          fun reply => decide (reply.1.toOption = some (some [7]))) = true := by
    decide +kernel
  rcases (Option.any_eq_true _ _).mp ran with ⟨⟨outcome, after⟩, run, seen⟩
  rcases outcome with failure | _
  · cases seen
  · have replied := claimed _ _ _ _ (by decide) (fun _ => rfl) fits after run
      (.connect after.tables false fun _ => {}) (fun _ => rfl) rfl 0 1
    rcases replied with ⟨final, reply⟩
    have zero : ContentCall.reference [.write ⟨0, [7]⟩, .truncate 0, .truncate 1] = [0] := by
      decide
    rw [reply, zero] at seen
    cases seen

end Db

end Pgfs
