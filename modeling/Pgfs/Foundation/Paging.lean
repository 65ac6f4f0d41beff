import Mathlib.Data.List.Basic
import Mathlib.Data.List.Nodup
import Mathlib.Algebra.Ring.Nat

namespace Pgfs

/-! Reading a list page by page while it changes between the pages. A page starts
at a position of the list as it then is, so whatever changes before that position
moves the items behind it. -/

/-- How far a reader has come: the position of the next page, the list as the last
page found it, and the items received so far. The last two lists are accounts:
items that came to lie before the position without being received, and items that
came to lie behind it again. -/
structure Paging (Item : Type) where
  position : Nat := 0
  listing : List Item := []
  received : List Item := []
  overtaken : List Item := []
  returned : List Item := []
  deriving DecidableEq

namespace Paging

variable {Item : Type} [BEq Item]

/-- Read a page of the list up to the position `next`. -/
def page (paging : Paging Item) (current : List Item) (next : Nat) : Paging Item where
  position := next
  listing := current
  received := paging.received ++ (current.take next).drop paging.position
  overtaken := paging.overtaken ++
    (current.take paging.position).filter
      (!(paging.listing.take paging.position).contains ·)
  returned := paging.returned ++
    (paging.listing.take paging.position).filter
      (!(current.take paging.position).contains ·)

/-- The accounts of an item are in balance: it lies before the position when it was
received or has overtaken the reader, and has not returned. -/
structure Balanced (paging : Paging Item) : Prop where
  distinct : paging.listing.Nodup
  counts : ∀ item, paging.received.count item + paging.overtaken.count item =
    paging.returned.count item + (paging.listing.take paging.position).count item

theorem balanced_start : ({} : Paging Item).Balanced where
  distinct := List.nodup_nil
  counts _ := rfl

variable [LawfulBEq Item]

private theorem count_difference {first : List Item} (distinct : first.Nodup)
    (second : List Item) (item : Item) : (first.filter (!second.contains ·)).count item +
      min (first.count item) (second.count item) = first.count item := by
  by_cases member : item ∈ second
  · have positive := List.count_pos_iff.mpr member
    have single := List.nodup_iff_count_le_one.mp distinct item
    have none : (first.filter (!second.contains ·)).count item = 0 := by
      apply List.count_eq_zero_of_not_mem
      simp [member]
    rw [none, Nat.zero_add, Nat.min_eq_left (by omega)]
  · have kept : (first.filter (!second.contains ·)).count item = first.count item :=
      List.count_filter (by simpa using member)
    rw [kept, List.count_eq_zero_of_not_mem member, Nat.min_zero, Nat.add_zero]

theorem Balanced.page {paging : Paging Item} {current : List Item} {next : Nat}
    (balanced : paging.Balanced) (distinct : current.Nodup) (forward : paging.position ≤ next) :
    (paging.page current next).Balanced where
  distinct := distinct
  counts item := by
    have before := balanced.counts item
    have split : (current.take next).count item = (current.take paging.position).count item +
        ((current.take next).drop paging.position).count item := by
      rw [← List.count_append]
      congr 1
      have prefixed : current.take paging.position = (current.take next).take paging.position := by
        rw [List.take_take, Nat.min_eq_left forward]
      rw [prefixed, List.take_append_drop]
    have overtaken := count_difference
      (distinct.sublist (List.take_sublist paging.position current))
      (paging.listing.take paging.position) item
    have returned := count_difference
      (balanced.distinct.sublist (List.take_sublist paging.position paging.listing))
      (current.take paging.position) item
    simp only [Paging.page, List.count_append]
    omega

/-- At the end of the list, an item was received once exactly when it has overtaken
the reader as often as it has returned. -/
theorem Balanced.received_once_iff {paging : Paging Item} (balanced : paging.Balanced)
    (ended : paging.listing.length ≤ paging.position) {item : Item}
    (listed : item ∈ paging.listing) :
    paging.received.count item = 1 ↔
      paging.overtaken.count item = paging.returned.count item := by
  have counts := balanced.counts item
  rw [List.take_of_length_le ended, List.count_eq_one_of_mem balanced.distinct listed] at counts
  omega

end Paging

end Pgfs
