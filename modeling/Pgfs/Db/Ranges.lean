import Pgfs.Db.Splitting

namespace Pgfs

open MachineInt Blocked

/-! Writes of ranges of bytes: the positions that they cover, the blocks that they
touch, and what a sequence of them writes last at a position. -/

/-- The arguments of a `write_range` other than the file. -/
structure RangeWrite where
  offset : Nat
  data : List UInt8

namespace RangeWrite

variable (write : RangeWrite)

def covers (index : Nat) : Prop :=
  write.offset ≤ index ∧ index < write.offset + write.data.length

instance (index : Nat) : Decidable (write.covers index) :=
  inferInstanceAs (Decidable (_ ∧ _))

def byte (index : Nat) : UInt8 := Vec.cell 0 write.data (index - write.offset)

def stop : Nat := if write.data = [] then 0 else write.offset + write.data.length

def touches (blockNo : Int) : Prop :=
  ∃ index, write.covers index ∧ blockOf blockSize index = blockNo

def Fits : Prop := write.offset + write.data.length ≤ addressable

instance : Decidable write.Fits := inferInstanceAs (Decidable (_ ≤ _))

variable {write}

theorem stop_of_nonempty (nonempty : write.data ≠ []) :
    write.stop = write.offset + write.data.length := if_neg nonempty

theorem stop_of_empty (empty : write.data = []) : write.stop = 0 := if_pos empty

theorem not_covers_of_empty (empty : write.data = []) (index : Nat) : ¬write.covers index := by
  unfold covers
  rw [empty, List.length_nil]
  omega

def Apart (first second : RangeWrite) : Prop :=
  ∀ index, ¬(first.covers index ∧ second.covers index)

def Puts (write : RangeWrite) (index : Nat) (byte : UInt8) : Prop :=
  write.covers index ∧ write.byte index = byte

end RangeWrite

def lastWritten (writes : List RangeWrite) (index : Nat) : Option UInt8 :=
  (writes.reverse.find? fun write => write.covers index).map (·.byte index)

@[simp] theorem lastWritten_nil (index : Nat) : lastWritten [] index = none := rfl

theorem lastWritten_append (writes : List RangeWrite) (write : RangeWrite) (index : Nat) :
    lastWritten (writes ++ [write]) index =
      if write.covers index then some (write.byte index) else lastWritten writes index := by
  unfold lastWritten
  rw [List.reverse_append, List.reverse_singleton, List.singleton_append, List.find?_cons]
  by_cases covered : write.covers index
  · simp [covered]
  · simp [covered]

theorem lastWritten_append_all (writes later : List RangeWrite) (index : Nat) :
    lastWritten (writes ++ later) index =
      (lastWritten later index).or (lastWritten writes index) := by
  unfold lastWritten
  rw [List.reverse_append, List.find?_append]
  cases later.reverse.find? fun write => write.covers index with
  | none => rfl
  | some write => rfl

theorem isSome_lastWritten {writes : List RangeWrite} {index : Nat} :
    (lastWritten writes index).isSome ↔ ∃ write ∈ writes, write.covers index := by
  induction writes using List.reverseRecOn with
  | nil => simp
  | append_singleton writes last induction =>
      rw [lastWritten_append]
      by_cases covered : last.covers index
      · simp [covered]
      · simp only [covered, if_false, induction, List.mem_append, List.mem_singleton]
        constructor
        · intro found
          rcases found with ⟨write, member, covers⟩
          exact ⟨write, .inl member, covers⟩
        · intro found
          rcases found with ⟨write, member | same, covers⟩
          · exact ⟨write, member, covers⟩
          · exact absurd (same ▸ covers) covered

theorem lastWritten_eq_none {writes : List RangeWrite} {index : Nat} :
    lastWritten writes index = none ↔ ∀ write ∈ writes, ¬write.covers index := by
  rw [← Option.not_isSome_iff_eq_none, isSome_lastWritten]
  simp only [not_exists, not_and]

theorem lastWritten_of_apart {writes : List RangeWrite}
    (apart : writes.Pairwise RangeWrite.Apart) {index : Nat} {byte : UInt8} :
    lastWritten writes index = some byte ↔ ∃ write ∈ writes, write.Puts index byte := by
  induction writes using List.reverseRecOn with
  | nil => simp
  | append_singleton writes last induction =>
      rw [List.pairwise_append] at apart
      rw [lastWritten_append]
      by_cases covered : last.covers index
      · rw [if_pos covered, Option.some.injEq]
        constructor
        · intro put
          exact ⟨last, by simp, covered, put⟩
        · intro found
          rcases found with ⟨write, member, puts⟩
          rcases List.mem_append.mp member with earlier | here
          · exact absurd ⟨puts.1, covered⟩ (apart.2.2 write earlier last (by simp) index)
          · rw [List.mem_singleton] at here
            exact here ▸ puts.2
      · rw [if_neg covered, induction apart.1]
        constructor
        · intro found
          rcases found with ⟨write, member, puts⟩
          exact ⟨write, List.mem_append_left _ member, puts⟩
        · intro found
          rcases found with ⟨write, member, puts⟩
          rcases List.mem_append.mp member with earlier | here
          · exact ⟨write, earlier, puts⟩
          · rw [List.mem_singleton] at here
            exact absurd (here ▸ puts.1) covered

/-- Writes that put the same bytes without overlapping write the same, in whatever
order and however split. -/
theorem lastWritten_congr {writes others : List RangeWrite}
    (apart : writes.Pairwise RangeWrite.Apart) (othersApart : others.Pairwise RangeWrite.Apart)
    (same : ∀ index byte, (∃ write ∈ writes, write.Puts index byte) ↔
      ∃ write ∈ others, write.Puts index byte) :
    lastWritten writes = lastWritten others := by
  funext index
  apply Option.ext
  intro byte
  rw [lastWritten_of_apart apart, lastWritten_of_apart othersApart]
  exact same index byte

def greatestStop (writes : List RangeWrite) : Nat := (writes.map RangeWrite.stop).foldr max 0

theorem greatestStop_append (writes : List RangeWrite) (write : RangeWrite) :
    greatestStop (writes ++ [write]) = max (greatestStop writes) write.stop := by
  unfold greatestStop
  rw [List.map_append, List.foldr_append]
  generalize writes.map RangeWrite.stop = stops
  induction stops with
  | nil => simp
  | cons head rest induction => simp only [List.foldr_cons, induction, max_assoc]

theorem greatestStop_append_all (writes later : List RangeWrite) :
    greatestStop (writes ++ later) = max (greatestStop writes) (greatestStop later) := by
  induction later using List.reverseRecOn with
  | nil => simp [greatestStop]
  | append_singleton later last induction =>
      rw [← List.append_assoc, greatestStop_append, greatestStop_append, induction, max_assoc]

theorem greatestStop_le {writes : List RangeWrite} (fits : ∀ write ∈ writes, write.Fits) :
    greatestStop writes ≤ addressable := by
  induction writes with
  | nil => exact Nat.zero_le _
  | cons head rest induction =>
      have within : head.stop ≤ addressable := by
        unfold RangeWrite.stop
        split
        · exact Nat.zero_le _
        · exact fits head List.mem_cons_self
      exact max_le within (induction fun write member => fits write (List.mem_cons_of_mem _ member))

/-- Nothing is written from the greatest end on, and what is before it is written. -/
theorem greatestStop_spec (writes : List RangeWrite) :
    (∀ index, (lastWritten writes index).isSome → index < greatestStop writes) ∧
      (0 < greatestStop writes → (lastWritten writes (greatestStop writes - 1)).isSome) := by
  induction writes using List.reverseRecOn with
  | nil => simp [greatestStop]
  | append_singleton writes last induction =>
      rcases induction with ⟨before, ends⟩
      have covers (index : Nat) : last.covers index → index < last.stop := by
        intro covered
        have nonempty : last.data ≠ [] :=
          fun empty => RangeWrite.not_covers_of_empty empty index covered
        rw [RangeWrite.stop_of_nonempty nonempty]
        exact covered.2
      have reaches : 0 < last.stop → last.covers (last.stop - 1) := by
        intro some
        have nonempty : last.data ≠ [] := by
          intro empty
          rw [RangeWrite.stop_of_empty empty] at some
          cases some
        have length := List.length_pos_iff.mpr nonempty
        rw [RangeWrite.stop_of_nonempty nonempty]
        unfold RangeWrite.covers
        omega
      rw [greatestStop_append]
      constructor
      · intro index written
        rw [lastWritten_append] at written
        split at written
        · rename_i covered
          exact lt_max_of_lt_right (covers index covered)
        · exact lt_max_of_lt_left (before index written)
      · intro some
        rw [lastWritten_append]
        split
        · rfl
        · rename_i uncovered
          rcases le_total (greatestStop writes) last.stop with later | earlier
          · rw [max_eq_right later] at some uncovered
            exact absurd (reaches some) uncovered
          · rw [max_eq_left earlier] at some ⊢
            exact ends some

theorem greatestStop_congr {writes others : List RangeWrite}
    (same : lastWritten writes = lastWritten others) :
    greatestStop writes = greatestStop others := by
  have below : ∀ {writes others : List RangeWrite}, lastWritten writes = lastWritten others →
      greatestStop writes ≤ greatestStop others := by
    intro writes others same
    rcases Nat.eq_zero_or_pos (greatestStop writes) with none | some
    · rw [none]
      exact Nat.zero_le _
    · have last := (greatestStop_spec writes).2 some
      rw [same] at last
      have before := (greatestStop_spec others).1 _ last
      omega
  exact Nat.le_antisymm (below same) (below same.symm)

end Pgfs
