import Pgfs.Foundation.Paging
import Pgfs.Replica.Routing
import Pgfs.Fs.RenameGuards

namespace Pgfs

/-! Enumerating a directory. Every `readdir` lists the directory anew and starts at
the offset it is given, which is a position in the sorted listing. -/

namespace Tables

def childNames (tables : Tables) (path : Str) : List Str := (tables.children path).map (·.1)

private theorem map_fst_filterMap {Row : Type} (names : List Str) (row : Str → Option Row) :
    (names.filterMap fun name => (row name).map fun found => (name, found)).map (·.1) =
      names.filter fun name => (row name).isSome := by
  induction names with
  | nil => rfl
  | cons head rest induction => cases found : row head <;> simp [found, induction]

variable {tables : Tables} {path name : Str}

theorem childNames_nodup (tables : Tables) (path : Str) : (tables.childNames path).Nodup := by
  unfold childNames children
  rw [map_fst_filterMap]
  exact (Table.sortedKeys_nodup _).filter _

theorem mem_childNames_iff :
    name ∈ tables.childNames path ↔ ∃ row, tables.entries.lookup ⟨path, name⟩ = some row := by
  unfold childNames children
  rw [map_fst_filterMap, List.mem_filter, Option.isSome_iff_exists, Table.mem_sortedKeys]
  constructor
  · intro listed
    exact listed.2
  · intro stored
    have member : (⟨path, name⟩ : Key) ∈ tables.entries.keys.filter (·.parent = path) :=
      Finset.mem_filter.mpr
        ⟨Finmap.mem_keys.mpr (Table.mem_iff_exists_lookup.mpr stored), rfl⟩
    refine ⟨?_, stored⟩
    apply Multiset.mem_map.mpr
    exact ⟨⟨name, ()⟩, Multiset.mem_map.mpr ⟨⟨path, name⟩, member, rfl⟩, rfl⟩

end Tables

namespace PgFs

open Effect MachineInt

variable {fs next : PgFs}

/-! ## One call -/

private theorem names_childEntries {path : Str} {children : List FileMeta}
    {entries : List (Nat × Kind × Str)}
    (run : childEntries path children fs = some (.ok entries, next)) :
    entries.map (·.2.2) = children.map (·.name) := by
  induction children generalizing fs entries with
  | nil =>
      cases run
      rfl
  | cons child rest induction =>
      rcases bind_eq_ok.mp run with ⟨ino, allocated, _, later⟩
      rcases bind_eq_ok.mp later with ⟨others, listed, restRun, ended⟩
      cases ended
      rw [List.map_cons, List.map_cons, induction restRun]

def numberedFrom (start : Nat) (entries : List (Nat × Kind × Str)) : List DirEntry :=
  (entries.zipIdx start).map fun (entry, index) =>
    ⟨entry.1, index + 1, entry.2.1, entry.2.2⟩

theorem inoFor_db {path : Str} {ino : Nat} (run : inoFor path fs = some (.ok ino, next)) :
    next.db = fs.db := by
  cases run
  rfl

theorem entries_of_readdir {ino room : Nat} {offset : Int} {path : Str} {reply : Reply}
    (alone : fs.db.replica = false) (resolved : fs.pathOfIno ino = some path)
    (run : readdir ino offset room fs = some (.ok reply, next)) :
    ∃ entries : List (Nat × Kind × Str),
      entries.map (·.2.2) = ['.'] :: ['.', '.'] :: fs.db.tables.childNames path ∧
        reply = .directory (((numberedFrom 0 entries).drop (asU64 offset)).take room) := by
  unfold readdir at run
  rw [bind_of_ok (pathOrEnoent_apply resolved)] at run
  rcases bind_eq_ok.mp run with ⟨parent, allocated, parentRun, listing⟩
  rcases bind_eq_ok.mp listing with ⟨children, asked, listRun, naming⟩
  rcases bind_eq_ok.mp naming with ⟨rest, ended, childrenRun, replying⟩
  cases replying
  refine ⟨_, ?_, rfl⟩
  rcases callDb_eq_ok.mp listRun with ⟨db, listed, _⟩
  rw [inoFor_db parentRun, Db.list_apply] at listed
  have primary : fs.db.route = (false, fs.db) := by
    unfold Db.route
    rw [if_pos alone]
  rw [primary, if_neg Bool.false_ne_true] at listed
  have stored := Db.listing_of_listPrimary listed
  rw [List.map_cons, List.map_cons, names_childEntries childrenRun,
    Db.names_rowsToMeta stored]
  rfl

/-! ## What a call contributes -/

private theorem numberedFrom_cons (start : Nat) (entry : Nat × Kind × Str)
    (rest : List (Nat × Kind × Str)) :
    numberedFrom start (entry :: rest) =
      ⟨entry.1, start + 1, entry.2.1, entry.2.2⟩ :: numberedFrom (start + 1) rest := rfl

private theorem length_numberedFrom (start : Nat) (entries : List (Nat × Kind × Str)) :
    (numberedFrom start entries).length = entries.length := by
  rw [numberedFrom, List.length_map, List.length_zipIdx]

private theorem drop_numberedFrom (start count : Nat) (entries : List (Nat × Kind × Str)) :
    (numberedFrom start entries).drop count =
      numberedFrom (start + count) (entries.drop count) := by
  induction entries generalizing start count with
  | nil => simp [numberedFrom]
  | cons entry rest induction =>
      cases count with
      | zero => rfl
      | succ count =>
          rw [numberedFrom_cons, List.drop_succ_cons, List.drop_succ_cons, induction,
            Nat.add_assoc, Nat.add_comm 1 count]

private theorem take_numberedFrom (start count : Nat) (entries : List (Nat × Kind × Str)) :
    (numberedFrom start entries).take count = numberedFrom start (entries.take count) := by
  induction entries generalizing start count with
  | nil => simp [numberedFrom]
  | cons entry rest induction =>
      cases count with
      | zero => rfl
      | succ count =>
          rw [numberedFrom_cons, List.take_succ_cons, List.take_succ_cons, induction,
            numberedFrom_cons]

/-- The names of the children in a reply: the first two entries are the directory
and its parent. -/
def receivedNames (entries : List DirEntry) : List Str :=
  (entries.filter (2 < ·.offset)).map (·.name)

private theorem receivedNames_numberedFrom (start : Nat) (entries : List (Nat × Kind × Str)) :
    receivedNames (numberedFrom start entries) = (entries.map (·.2.2)).drop (2 - start) := by
  induction entries generalizing start with
  | nil => simp [numberedFrom, receivedNames]
  | cons entry rest induction =>
      have later := induction (start + 1)
      unfold receivedNames at later ⊢
      rw [numberedFrom_cons]
      by_cases dots : start < 2
      · have skipped : ¬2 < start + 1 := by omega
        have fewer : 2 - start = 2 - (start + 1) + 1 := by omega
        rw [List.filter_cons_of_neg (by simpa using skipped), later, fewer, List.map_cons,
          List.drop_succ_cons]
      · have kept : 2 < start + 1 := by omega
        have none : 2 - start = 0 := by omega
        have noneLater : 2 - (start + 1) = 0 := by omega
        rw [List.filter_cons_of_pos (by simpa using kept), List.map_cons, later, none, noneLater]
        rfl

def nextOffset (cursor : Nat) (entries : List DirEntry) : Nat :=
  (entries.getLast?.map (·.offset)).getD cursor

private theorem nextOffset_numberedFrom (cursor : Nat) (entries : List (Nat × Kind × Str)) :
    nextOffset cursor (numberedFrom cursor entries) = cursor + entries.length := by
  unfold nextOffset numberedFrom
  rw [List.getLast?_map, List.getLast?_zipIdx]
  cases last : entries.getLast? with
  | none =>
      rw [List.getLast?_eq_none_iff.mp last]
      rfl
  | some entry =>
      have positive : 0 < entries.length := by
        apply List.length_pos_of_ne_nil
        intro empty
        rw [empty] at last
        cases last
      simp only [Option.map_some, Option.getD_some]
      omega

private theorem page_of_part (dot dots : Str) (names : List Str) (cursor room : Nat) :
    (((dot :: dots :: names).drop cursor).take room).drop (2 - cursor) =
      (names.take (cursor + (((dot :: dots :: names).drop cursor).take room).length - 2)).drop
        (cursor - 2) := by
  have behind : (dot :: dots :: names).drop (cursor + (2 - cursor)) = names.drop (cursor - 2) := by
    have shift : cursor + (2 - cursor) = cursor - 2 + 2 := by omega
    rw [shift]
    rfl
  rw [List.drop_take, List.drop_take, List.drop_drop, behind, List.take_eq_take_iff]
  simp only [List.length_take, List.length_drop, List.length_cons]
  omega

/-- What a call contributes: the children of a page of the listing, and the offset
behind it. -/
theorem contribution_of_readdir {ino room cursor : Nat} {path : Str} {entries : List DirEntry}
    (alone : fs.db.replica = false) (resolved : fs.pathOfIno ino = some path)
    (inRange : cursor < 2 ^ 63)
    (run : readdir ino cursor room fs = some (.ok (.directory entries), next)) :
    cursor ≤ nextOffset cursor entries ∧
      receivedNames entries = ((fs.db.tables.childNames path).take
        (nextOffset cursor entries - 2)).drop (cursor - 2) ∧
      (entries = [] → 0 < room → (fs.db.tables.childNames path).length ≤ cursor - 2) := by
  rcases entries_of_readdir alone resolved run with ⟨all, named, equal⟩
  cases equal
  rw [asU64_natCast (by omega)]
  have part : ((numberedFrom 0 all).drop cursor).take room =
      numberedFrom cursor ((all.drop cursor).take room) := by
    rw [drop_numberedFrom, take_numberedFrom, Nat.zero_add]
  have length : ((all.drop cursor).take room).length =
      (((all.map (·.2.2)).drop cursor).take room).length := by
    simp only [List.length_take, List.length_drop, List.length_map]
  rw [part, nextOffset_numberedFrom, receivedNames_numberedFrom, List.map_take, List.map_drop,
    length, named]
  refine ⟨by omega, page_of_part _ _ _ _ _, ?_⟩
  intro empty more
  have none := congrArg List.length empty
  rw [length_numberedFrom, length, named] at none
  simp only [List.length_take, List.length_drop, List.length_cons, List.length_nil] at none
  omega

/-! ## Enumerations -/

end PgFs

/-- How far an enumeration has come: the offset of its next call, whether it has received
an empty reply, the names received with the accounts of the names that changes carried
across the position, and the children that existed all the time. -/
structure Enumeration where
  cursor : Nat := 0
  finished : Bool := false
  paging : Paging Str := {}
  throughout : List Str

namespace PgFs

def observeEnumeration (ino : Nat) (path : Str) (before : PgFs) (exchange : Exchange)
    (after : PgFs) (enumeration : Enumeration) : Enumeration :=
  let throughout := enumeration.throughout.filter fun name =>
    (after.db.tables.entries.lookup ⟨path, name⟩).isSome
  match exchange.event.callback, exchange.reply with
  | .readdir other _ _, .ok (.directory entries) =>
      if other = ino then
        { cursor := nextOffset enumeration.cursor entries
          finished := entries.isEmpty
          paging := {
            enumeration.paging.page (before.db.tables.childNames path)
              (nextOffset enumeration.cursor entries - 2) with
            received := enumeration.paging.received ++ receivedNames entries }
          throughout := throughout }
      else
        { enumeration with throughout := throughout }
  | _, _ => { enumeration with throughout := throughout }

/-- The calls on the directory are those of the enumeration: each passes the offset of
the last entry received, an `i64`, and offers room for an entry, and is replied a list. -/
def isRegular (ino cursor : Nat) (exchange : Exchange) : Bool :=
  match exchange.event.callback, exchange.reply with
  | .readdir other offset room, .ok (.directory _) =>
      decide (other ≠ ino ∨ (offset = cursor ∧ cursor < 2 ^ 63 ∧ 0 < room))
  | .readdir other _ _, _ => decide (other ≠ ino)
  | _, _ => true

/-- A step during an enumeration: one of its calls, or anything else that leaves the
directory where it is. -/
def EnumerationStep (ino : Nat) (path : Str) (before : PgFs × Enumeration)
    (exchange : Exchange) (after : PgFs × Enumeration) : Prop :=
  Step before.1 exchange after.1 ∧
    (before.1.pathOfIno ino = some path ∧ before.2.finished = false ∧
      isRegular ino before.2.cursor exchange = true) ∧
    after.2 = observeEnumeration ino path before.1 exchange after.1 before.2

private structure Enumerating (path : Str) (state : PgFs × Enumeration) : Prop where
  alone : state.1.db.replica = false
  position : state.2.paging.position = state.2.cursor - 2
  balanced : state.2.paging.Balanced
  present : ∀ name ∈ state.2.throughout, ∃ row,
    state.1.db.tables.entries.lookup ⟨path, name⟩ = some row
  ended : state.2.finished = true →
    state.2.paging.listing.length ≤ state.2.paging.position ∧
      ∀ name ∈ state.2.throughout, name ∈ state.2.paging.listing

private theorem present_of_filter {path : Str} {tables : Tables} {names : List Str} {name : Str}
    (member : name ∈ names.filter fun name => (tables.entries.lookup ⟨path, name⟩).isSome) :
    name ∈ names ∧ ∃ row, tables.entries.lookup ⟨path, name⟩ = some row := by
  rw [List.mem_filter, Option.isSome_iff_exists] at member
  exact member

private theorem Enumerating.call {ino room : Nat} {offset : Int} {path : Str}
    {before : PgFs} {enumeration : Enumeration} {event : Event} {entries : List DirEntry}
    {after : PgFs} (enumerating : Enumerating path (before, enumeration))
    (served : Step before ⟨event, .ok (.directory entries)⟩ after)
    (called : event.callback = .readdir ino offset room)
    (resolved : before.pathOfIno ino = some path) (passes : offset = enumeration.cursor)
    (inRange : enumeration.cursor < 2 ^ 63) (more : 0 < room) :
    Enumerating path (after, observeEnumeration ino path before
      ⟨event, .ok (.directory entries)⟩ after enumeration) := by
  rcases served.served with ⟨ready, world, same, ran⟩
  rw [called, passes] at ran
  have tables : ready.db.tables = before.db.tables := congrArg Mount.tables same
  have maps : ready.toInodeMaps = before.toInodeMaps := congrArg Mount.toInodeMaps same
  rcases contribution_of_readdir (world.2.trans enumerating.alone) (by rw [maps, resolved])
    inRange ran with ⟨forward, received, ended⟩
  rw [tables] at received ended
  have position : enumeration.paging.position = enumeration.cursor - 2 := enumerating.position
  have paged : enumeration.paging.page (before.db.tables.childNames path)
      (nextOffset enumeration.cursor entries - 2) = {
        enumeration.paging.page (before.db.tables.childNames path)
          (nextOffset enumeration.cursor entries - 2) with
        received := enumeration.paging.received ++ receivedNames entries } := by
    rw [received, ← position]
    rfl
  simp only [observeEnumeration, called, if_true]
  rw [← paged]
  constructor
  · exact served.sameWorld.2.trans enumerating.alone
  · rfl
  · apply enumerating.balanced.page (Tables.childNames_nodup _ _)
    rw [position]
    omega
  · intro name member
    exact (present_of_filter member).2
  · intro finished
    have empty : entries = [] := List.isEmpty_iff.mp finished
    refine ⟨?_, fun name member => ?_⟩
    · have whole := ended empty more
      rw [empty]
      exact whole
    · exact Tables.mem_childNames_iff.mpr
        (enumerating.present name (present_of_filter member).1)

private theorem Enumerating.other {path : Str} {before after : PgFs} {enumeration : Enumeration}
    (enumerating : Enumerating path (before, enumeration))
    (world : Db.SameWorld before.db after.db) (unfinished : enumeration.finished = false) :
    Enumerating path (after, { enumeration with
      throughout := enumeration.throughout.filter fun name =>
        (after.db.tables.entries.lookup ⟨path, name⟩).isSome }) where
  alone := world.2.trans enumerating.alone
  position := enumerating.position
  balanced := enumerating.balanced
  present name member := (present_of_filter member).2
  ended finished := by cases unfinished.symm.trans finished

private theorem Enumerating.step {ino : Nat} {path : Str} {before after : PgFs × Enumeration}
    {exchange : Exchange} (enumerating : Enumerating path before)
    (step : EnumerationStep ino path before exchange after) : Enumerating path after := by
  rcases before with ⟨before, enumeration⟩
  rcases after with ⟨after, next⟩
  rcases exchange with ⟨event, reply⟩
  rcases step with ⟨served, ⟨resolved, unfinished, regular⟩, observed⟩
  have equal : next = observeEnumeration ino path before ⟨event, reply⟩ after enumeration :=
    observed
  rw [equal]
  have world : Db.SameWorld before.db after.db := served.sameWorld
  cases called : event.callback with
  | readdir asked offset room =>
      cases reply with
      | error errno =>
          simp only [observeEnumeration, called]
          exact enumerating.other world unfinished
      | ok reply =>
          cases reply with
          | directory entries =>
              by_cases mine : asked = ino
              · rw [mine] at called
                simp only [isRegular, called, ne_eq, not_true_eq_false, false_or,
                  decide_eq_true_eq] at regular
                exact enumerating.call served called resolved regular.1 regular.2.1 regular.2.2
              · simp only [observeEnumeration, called, if_neg mine]
                exact enumerating.other world unfinished
          | _ =>
              simp only [observeEnumeration, called]
              exact enumerating.other world unfinished
  | _ =>
      simp only [observeEnumeration, called]
      exact enumerating.other world unfinished

/-- In a finished enumeration, every child that existed all the time was received once
exactly when changes carried every such child as often across the position of the next
call in the one direction as in the other. -/
theorem enumeration_complete_iff {ino : Nat} {path : Str} {start fs : PgFs}
    {history : List Exchange} {enumeration : Enumeration} (alone : start.db.replica = false)
    (run : Trace (EnumerationStep ino path)
      (start, { throughout := start.db.tables.childNames path }) history (fs, enumeration))
    (finished : enumeration.finished = true) :
    (∀ name ∈ enumeration.throughout, enumeration.paging.received.count name = 1) ↔
      ∀ name ∈ enumeration.throughout, enumeration.paging.overtaken.count name =
        enumeration.paging.returned.count name := by
  have enumerating : Enumerating path (fs, enumeration) := by
    apply run.invariant (Enumerating path)
    · exact {
        alone := alone
        position := rfl
        balanced := Paging.balanced_start
        present := fun name listed => Tables.mem_childNames_iff.mp listed
        ended := fun contrary => by cases contrary }
    · exact fun _ _ _ holds step => holds.step step
  rcases enumerating.ended finished with ⟨ended, listed⟩
  constructor
  · intro once name member
    exact (enumerating.balanced.received_once_iff ended (listed name member)).mp
      (once name member)
  · intro balanced name member
    exact (enumerating.balanced.received_once_iff ended (listed name member)).mpr
      (balanced name member)

private def enumerate (ino : Nat) (path : Str) :
    List Event → PgFs × Enumeration → Option (PgFs × Enumeration)
  | [], state => some state
  | event :: rest, (fs, enumeration) =>
      match step event fs with
      | none => none
      | some (reply, next) =>
          if fs.pathOfIno ino = some path ∧ enumeration.finished = false ∧
              isRegular ino enumeration.cursor ⟨event, reply⟩ = true then
            enumerate ino path rest
              (next, observeEnumeration ino path fs ⟨event, reply⟩ next enumeration)
          else
            none

private theorem exists_run_of_enumerate {ino : Nat} {path : Str} {events : List Event}
    {start : PgFs × Enumeration} (test : Enumeration → Bool)
    (tested : (enumerate ino path events start).any (fun final => test final.2) = true) :
    ∃ history final, Trace (EnumerationStep ino path) start history final ∧
      test final.2 = true := by
  induction events generalizing start with
  | nil => exact ⟨[], start, .nil, tested⟩
  | cons event rest induction =>
      rcases start with ⟨fs, enumeration⟩
      unfold enumerate at tested
      split at tested
      · cases tested
      · rename_i reply next served
        split at tested
        · rename_i permitted
          rcases induction tested with ⟨history, final, later, seen⟩
          have first : Trace (EnumerationStep ino path) (fs, enumeration)
              ([] ++ [⟨event, reply⟩])
              (next, observeEnumeration ino path fs ⟨event, reply⟩ next enumeration) :=
            .snoc .nil ⟨served, permitted, rfl⟩
          exact ⟨_, final, first.append later, seen⟩
        · cases tested

/-- A root directory with the files `a`, `b` and `c`. -/
private def threeFiles : PgFs :=
  withAttrTtl (.connect (((Tables.empty.insertEntry ⟨[], ['a']⟩ .file 0).insertEntry
    ⟨[], ['b']⟩ .file 0).insertEntry ⟨[], ['c']⟩ .file 0) false fun _ => {}) 1

/-- A file created behind the position does no harm. -/
theorem enumeration_complete_iff_create : ∃ history fs enumeration,
    Trace (EnumerationStep 1 [])
      (threeFiles, { throughout := threeFiles.db.tables.childNames [] })
      history (fs, enumeration) ∧
    ['b'] ∈ enumeration.throughout ∧
    ∀ name ∈ enumeration.throughout, enumeration.paging.received.count name = 1 := by
  let test : Enumeration → Bool := fun enumeration => enumeration.finished &&
    decide (['b'] ∈ enumeration.throughout) &&
    decide (∀ name ∈ enumeration.throughout, enumeration.paging.overtaken.count name =
      enumeration.paging.returned.count name)
  have observed : (enumerate 1 []
      [{ callback := .readdir 1 0 3 }, { callback := .create 1 (some ['d']) },
        { callback := .readdir 1 3 5 }, { callback := .readdir 1 6 1 }]
      (threeFiles, { throughout := threeFiles.db.tables.childNames [] })).any
      (fun final => test final.2) = true := by decide +kernel
  rcases exists_run_of_enumerate test observed with ⟨history, ⟨fs, enumeration⟩, run, seen⟩
  simp only [test, Bool.and_eq_true, decide_eq_true_eq] at seen
  rcases seen with ⟨⟨finished, member⟩, balanced⟩
  exact ⟨history, fs, enumeration, run, member,
    (enumeration_complete_iff rfl run finished).mpr balanced⟩

/-- Removing what was received makes the next call skip a file. -/
theorem enumeration_skips_after_unlink : ¬∀ history fs enumeration,
    Trace (EnumerationStep 1 [])
      (threeFiles, { throughout := threeFiles.db.tables.childNames [] })
      history (fs, enumeration) → enumeration.finished = true →
    ∀ name ∈ enumeration.throughout, enumeration.paging.received.count name = 1 := by
  intro claimed
  let test : Enumeration → Bool := fun enumeration => enumeration.finished &&
    decide (['b'] ∈ enumeration.throughout) &&
    decide (enumeration.paging.received.count ['b'] = 0)
  have observed : (enumerate 1 []
      [{ callback := .readdir 1 0 3 }, { callback := .unlink 1 (some ['a']) },
        { callback := .readdir 1 3 5 }, { callback := .readdir 1 4 1 }]
      (threeFiles, { throughout := threeFiles.db.tables.childNames [] })).any
      (fun final => test final.2) = true := by decide +kernel
  rcases exists_run_of_enumerate test observed with ⟨history, ⟨fs, enumeration⟩, run, seen⟩
  simp only [test, Bool.and_eq_true, decide_eq_true_eq] at seen
  rcases seen with ⟨⟨finished, member⟩, missed⟩
  have once := claimed history fs enumeration run finished ['b'] member
  omega

end PgFs

end Pgfs
