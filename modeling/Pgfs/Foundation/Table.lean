import Mathlib.Data.Finmap
import Mathlib.Data.List.Sort
import Mathlib.Data.Fintype.EquivFin

namespace Pgfs

/-! Finite tables with a primary key. Tables are Mathlib's finite maps, so two
tables are equal when they hold the same rows, and lookup, insertion and
deletion by key are the library's own. What is added here is what acts on many
rows at once. -/

abbrev Table (Key Value : Type) := Finmap fun _ : Key => Value

namespace Table

variable {Key Value : Type}

section

variable [DecidableEq Key]

theorem mem_entries_iff {table : Table Key Value} {key : Key} {value : Value} :
    (⟨key, value⟩ : Sigma fun _ : Key => Value) ∈ table.entries ↔
      table.lookup key = some value :=
  Finmap.lookup_eq_some_iff.symm

theorem mem_iff_exists_lookup {table : Table Key Value} {key : Key} :
    key ∈ table ↔ ∃ value, table.lookup key = some value :=
  Finmap.mem_iff

theorem lookup_insert_eq (table : Table Key Value) (key other : Key) (value : Value) :
    (table.insert key value).lookup other =
      if other = key then some value else table.lookup other := by
  by_cases equal : other = key
  · subst equal
    simp
  · simp [equal]

theorem lookup_erase_eq (table : Table Key Value) (key other : Key) :
    (table.erase key).lookup other =
      if other = key then none else table.lookup other := by
  by_cases equal : other = key
  · subst equal
    simp
  · simp [equal]

theorem erase_of_not_mem {table : Table Key Value} {key : Key} (missing : key ∉ table) :
    table.erase key = table := by
  apply Finmap.ext_lookup
  intro other
  rw [lookup_erase_eq]
  split
  · rename_i same
    rw [same, Finmap.lookup_eq_none.mpr missing]
  · rfl

theorem insert_erase (table : Table Key Value) (key : Key) (value : Value) :
    (table.erase key).insert key value = table.insert key value := by
  apply Finmap.ext_lookup
  intro other
  rw [lookup_insert_eq, lookup_insert_eq, lookup_erase_eq]
  split <;> rfl

theorem insert_of_lookup {table : Table Key Value} {key : Key} {value : Value}
    (stored : table.lookup key = some value) : table.insert key value = table := by
  apply Finmap.ext_lookup
  intro other
  rw [lookup_insert_eq]
  split
  · rename_i same
    rw [same, stored]
  · rfl

/-! ## Selecting rows -/

def select (keep : Key → Value → Bool) (table : Table Key Value) : Table Key Value where
  entries := table.entries.filter fun row => keep row.1 row.2
  nodupKeys := by
    rw [← Multiset.nodup_keys]
    exact Multiset.nodup_of_le (Multiset.map_le_map (Multiset.filter_le _ _))
      (Multiset.nodup_keys.mpr table.nodupKeys)

theorem lookup_select (keep : Key → Value → Bool) (table : Table Key Value) (key : Key) :
    (table.select keep).lookup key = (table.lookup key).filter (keep key) := by
  apply Option.ext
  intro value
  rw [← mem_entries_iff]
  simp only [select, Multiset.mem_filter, mem_entries_iff, Option.filter_eq_some_iff]

@[simp] theorem lookup_select_of_key (keep : Key → Bool) (table : Table Key Value)
    (key : Key) :
    (table.select fun key _ => keep key).lookup key =
      if keep key then table.lookup key else none := by
  rw [lookup_select]
  cases table.lookup key <;> cases keep key <;> rfl

/-! ## Changing one row -/

/-- Change the value stored at a key; a missing key changes nothing. -/
def adjust (key : Key) (change : Value → Value) (table : Table Key Value) :
    Table Key Value :=
  match table.lookup key with
  | none => table
  | some value => table.insert key (change value)

theorem lookup_adjust (table : Table Key Value) (key other : Key)
    (change : Value → Value) :
    (table.adjust key change).lookup other =
      if other = key then (table.lookup other).map change else table.lookup other := by
  unfold adjust
  by_cases equal : other = key
  · subst equal
    cases found : table.lookup other with
    | none => simp [found]
    | some value => simp
  · cases found : table.lookup key with
    | none => simp [equal]
    | some value => simp [equal]

/-! ## Rewriting keys -/

/-- Rewrite every key. Two rows that would meet on one key violate the primary
key, and the table is not changed at all. -/
def rekey (move : Key → Key) (table : Table Key Value) : Option (Table Key Value) :=
  if distinct : (table.entries.keys.map move).Nodup then
    some {
      entries := table.entries.map fun row => ⟨move row.1, row.2⟩
      nodupKeys := by
        rw [← Multiset.nodup_keys]
        simpa [Multiset.keys, Multiset.map_map, Function.comp_def] using distinct }
  else
    none

theorem rekey_lookup_iff {move : Key → Key} {table moved : Table Key Value}
    (rekeyed : table.rekey move = some moved) (key : Key) (value : Value) :
    moved.lookup key = some value ↔
      ∃ source, table.lookup source = some value ∧ move source = key := by
  unfold rekey at rekeyed
  split at rekeyed
  · cases rekeyed
    rw [← mem_entries_iff]
    simp only [Multiset.mem_map, Sigma.mk.injEq, heq_eq_eq]
    constructor
    · rintro ⟨⟨source, stored⟩, member, rfl, rfl⟩
      exact ⟨source, mem_entries_iff.mp member, rfl⟩
    · rintro ⟨source, stored, rfl⟩
      exact ⟨⟨source, value⟩, mem_entries_iff.mpr stored, rfl, rfl⟩
  · cases rekeyed

theorem exists_rekey {move : Key → Key} {table : Table Key Value}
    (apart : ∀ first ∈ table, ∀ second ∈ table, move first = move second → first = second) :
    ∃ moved, table.rekey move = some moved := by
  have distinct : (table.entries.keys.map move).Nodup :=
    Multiset.Nodup.map_on (fun first firstMem second secondMem =>
      apart first firstMem second secondMem) (Multiset.nodup_keys.mpr table.nodupKeys)
  exact ⟨_, dif_pos distinct⟩

theorem rekey_injective {move : Key → Key} {table moved : Table Key Value}
    (rekeyed : table.rekey move = some moved) {first second : Key}
    (firstMem : first ∈ table) (secondMem : second ∈ table)
    (equal : move first = move second) : first = second := by
  unfold rekey at rekeyed
  split at rekeyed
  · rename_i distinct
    exact Multiset.inj_on_of_nodup_map distinct first firstMem second secondMem equal
  · cases rekeyed

/-- Two ways of rewriting keys: where one of them takes no row to a place the other
leaves free, the other takes no row to a place that one leaves free. -/
theorem exists_same_target {table : Table Key Value} {move other : Key → Key}
    (apart : ∀ first ∈ table, ∀ second ∈ table, move first = move second → first = second)
    (covered : ∀ key value, table.lookup key = some value →
      ∃ twin, table.lookup twin = some value ∧ other twin = move key)
    {key : Key} {value : Value} (stored : table.lookup key = some value) :
    ∃ twin, table.lookup twin = some value ∧ move twin = other key := by
  have twins : ∀ source : table.keys, ∃ twin : table.keys,
      table.lookup twin.1 = table.lookup source.1 ∧ other twin.1 = move source.1 := by
    intro source
    rcases mem_iff_exists_lookup.mp (Finmap.mem_keys.mp source.2) with ⟨held, found⟩
    rcases covered source held found with ⟨twin, twinFound, target⟩
    have member : twin ∈ table.keys :=
      Finmap.mem_keys.mpr (mem_iff_exists_lookup.mpr ⟨held, twinFound⟩)
    exact ⟨⟨twin, member⟩, twinFound.trans found.symm, target⟩
  choose twin same target using twins
  have injective : Function.Injective twin := by
    intro first second equal
    apply Subtype.ext
    apply apart first (Finmap.mem_keys.mp first.2) second (Finmap.mem_keys.mp second.2)
    rw [← target first, ← target second, equal]
  have member : key ∈ table.keys :=
    Finmap.mem_keys.mpr (mem_iff_exists_lookup.mpr ⟨value, stored⟩)
  rcases Finite.surjective_of_injective injective ⟨key, member⟩ with ⟨source, reached⟩
  refine ⟨source, ?_, ?_⟩
  · rw [← same source, reached, stored]
  · rw [← target source, reached]

/-! ### Tables that look alike

Two tables that store the same at every key, as far as a view of the values
shows. -/

def Alike {Shown : Type} (view : Value → Shown) (left right : Table Key Value) : Prop :=
  ∀ key, (left.lookup key).map view = (right.lookup key).map view

section Alike

variable {Shown : Type} {view : Value → Shown} {left right : Table Key Value}

theorem Alike.symm (alike : Alike view left right) : Alike view right left :=
  fun key => (alike key).symm

theorem Alike.exists_lookup (alike : Alike view left right) {key : Key} {value : Value}
    (stored : left.lookup key = some value) :
    ∃ other, right.lookup key = some other ∧ view other = view value := by
  have same := alike key
  rw [stored] at same
  exact Option.map_eq_some_iff.mp same.symm

theorem Alike.keys_eq (alike : Alike view left right) : left.keys = right.keys := by
  ext key
  rw [Finmap.mem_keys, Finmap.mem_keys, mem_iff_exists_lookup, mem_iff_exists_lookup]
  constructor
  · intro present
    rcases present with ⟨value, stored⟩
    rcases alike.exists_lookup stored with ⟨other, found, _⟩
    exact ⟨other, found⟩
  · intro present
    rcases present with ⟨value, stored⟩
    rcases alike.symm.exists_lookup stored with ⟨other, found, _⟩
    exact ⟨other, found⟩

private theorem rekey_isSome_iff {move : Key → Key} {table : Table Key Value} :
    (table.rekey move).isSome = true ↔ (table.keys.val.map move).Nodup := by
  unfold rekey
  split
  · rename_i distinct
    exact iff_of_true rfl distinct
  · rename_i clash
    exact iff_of_false Bool.false_ne_true clash

private theorem Alike.rekey_lookup {move : Key → Key} (alike : Alike view left right)
    {moved other : Table Key Value} (rekeyed : left.rekey move = some moved)
    (otherRekeyed : right.rekey move = some other) {key : Key} {shown : Shown}
    (found : (moved.lookup key).map view = some shown) :
    (other.lookup key).map view = some shown := by
  rcases Option.map_eq_some_iff.mp found with ⟨value, stored, viewed⟩
  rcases (rekey_lookup_iff rekeyed key value).mp stored with ⟨source, sourced, target⟩
  rcases alike.exists_lookup sourced with ⟨otherValue, otherSourced, same⟩
  have moves := (rekey_lookup_iff otherRekeyed key otherValue).mpr
    ⟨source, otherSourced, target⟩
  exact Option.map_eq_some_iff.mpr ⟨otherValue, moves, same.trans viewed⟩

theorem Alike.rekey (alike : Alike view left right) (move : Key → Key) :
    Option.Rel (Alike view) (left.rekey move) (right.rekey move) := by
  have together : (left.rekey move).isSome = true ↔ (right.rekey move).isSome = true := by
    rw [rekey_isSome_iff, rekey_isSome_iff, alike.keys_eq]
  cases rekeyed : left.rekey move with
  | none =>
      cases otherRekeyed : right.rekey move with
      | none => exact .none
      | some other => simp [rekeyed, otherRekeyed] at together
  | some moved =>
      cases otherRekeyed : right.rekey move with
      | none => simp [rekeyed, otherRekeyed] at together
      | some other =>
          apply Option.Rel.some
          intro key
          apply Option.ext
          intro shown
          exact ⟨alike.rekey_lookup rekeyed otherRekeyed,
            alike.symm.rekey_lookup otherRekeyed rekeyed⟩

end Alike

end

def isEmpty (table : Table Key Value) : Bool := table.entries.card == 0

theorem isEmpty_iff {table : Table Key Value} : table.isEmpty = true ↔ table = ∅ := by
  simp only [isEmpty, beq_iff_eq, Multiset.card_eq_zero]
  exact ⟨fun empty => Finmap.ext empty, fun empty => by rw [empty]; rfl⟩

/-! ## Enumerating keys -/

def sortedKeys [LinearOrder Key] (table : Table Key Value) : List Key :=
  Quot.liftOn table.entries.keys (List.insertionSort (· ≤ ·)) fun _ _ permuted =>
    ((List.perm_insertionSort _ _).trans
      (permuted.trans (List.perm_insertionSort _ _).symm)).eq_of_pairwise
      (fun _ _ _ _ => le_antisymm) (List.pairwise_insertionSort _ _)
      (List.pairwise_insertionSort _ _)

theorem coe_sortedKeys [LinearOrder Key] (table : Table Key Value) :
    (table.sortedKeys : Multiset Key) = table.entries.keys := by
  unfold sortedKeys
  induction table.entries.keys using Quot.inductionOn with
  | _ keys => exact Multiset.coe_eq_coe.mpr (List.perm_insertionSort _ _)

theorem sortedKeys_nodup [LinearOrder Key] (table : Table Key Value) :
    table.sortedKeys.Nodup := by
  rw [← Multiset.coe_nodup, coe_sortedKeys]
  exact Multiset.nodup_keys.mpr table.nodupKeys

theorem mem_sortedKeys [LinearOrder Key] {table : Table Key Value} {key : Key} :
    key ∈ table.sortedKeys ↔ key ∈ table := by
  rw [← Multiset.mem_coe, coe_sortedKeys]
  rfl

/-- An order in which the keys of any table can be listed. The iteration order
of a hash map is one of these, and nothing more is known about it. -/
structure Order (Key Value : Type) where
  keys : Table Key Value → List Key
  nodup : ∀ table, (keys table).Nodup
  mem_keys : ∀ table key, key ∈ keys table ↔ key ∈ table

def Order.ascending (Key Value : Type) [LinearOrder Key] : Order Key Value where
  keys := sortedKeys
  nodup := sortedKeys_nodup
  mem_keys _ _ := mem_sortedKeys

def Order.descending (Key Value : Type) [LinearOrder Key] : Order Key Value where
  keys table := table.sortedKeys.reverse
  nodup table := List.nodup_reverse.mpr (sortedKeys_nodup table)
  mem_keys _ _ := List.mem_reverse.trans mem_sortedKeys

theorem Order.perm (order other : Order Key Value) (table : Table Key Value) :
    (order.keys table).Perm (other.keys table) := by
  rw [List.perm_ext_iff_of_nodup (order.nodup table) (other.nodup table)]
  intro key
  rw [order.mem_keys, other.mem_keys]

/-- Steps that commute where an invariant holds can be taken in any order. -/
theorem foldl_eq_of_perm {State Item : Type} {step : State → Item → State}
    {holds : State → Prop} {items others : List Item} (permuted : items.Perm others)
    (kept : ∀ state, ∀ item ∈ items, holds state → holds (step state item))
    (commutes : ∀ state, ∀ first ∈ items, ∀ second ∈ items, holds state →
      step (step state first) second = step (step state second) first)
    {state : State} (start : holds state) :
    items.foldl step state = others.foldl step state := by
  induction permuted generalizing state with
  | nil => rfl
  | cons item _ induction =>
      exact induction (fun state other member => kept state other (List.mem_cons_of_mem _ member))
        (fun state first firstMem second secondMem => commutes state first
          (List.mem_cons_of_mem _ firstMem) second (List.mem_cons_of_mem _ secondMem))
        (kept state item List.mem_cons_self start)
  | swap first second rest =>
      rw [List.foldl_cons, List.foldl_cons, List.foldl_cons, List.foldl_cons,
        commutes state second List.mem_cons_self first (by simp) start]
  | trans left _ leftInduction rightInduction =>
      rw [leftInduction kept commutes start]
      exact rightInduction (fun state item member => kept state item (left.mem_iff.mpr member))
        (fun state first firstMem second secondMem => commutes state first
          (left.mem_iff.mpr firstMem) second (left.mem_iff.mpr secondMem)) start

end Table

end Pgfs
