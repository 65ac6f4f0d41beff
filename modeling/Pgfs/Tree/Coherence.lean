import Pgfs.Inodes.Numbering
import Pgfs.Fs.Kernel

namespace Pgfs

/-! The tree of entries, which exists as path strings only. A rename rewrites
them in the database by pattern and by byte position; the tree survives where
that is the same as moving paths. -/

theorem Key.path_injective {key other : Key} (valid : ValidName key.name)
    (otherValid : ValidName other.name) (same : key.path = other.path) : key = other := by
  rcases join_injective valid otherValid same with ⟨parents, names⟩
  cases key
  cases other
  cases parents
  cases names
  rfl

theorem Key.path_ne_nil {key : Key} (valid : ValidName key.name) : key.path ≠ [] :=
  join_ne_nil valid

namespace Tables

/-- Every entry has a valid name, and a directory or the root as its parent. -/
structure Coherent (tables : Tables) : Prop where
  names : ∀ key found, tables.kindOf key = some found → ValidName key.name
  parents : ∀ key found, tables.kindOf key = some found →
    key.parent = rootPath ∨ tables.HasDirectory key.parent

variable {before after tables : Tables} {key : Key}

theorem coherent_empty : Coherent .empty where
  names key found known := by cases known
  parents key found known := by cases known

theorem Coherent.kindOf_of_hasDirectory (coherent : tables.Coherent)
    (valid : ValidName key.name) (directory : tables.HasDirectory key.path) :
    tables.kindOf key = some .dir := by
  rcases hasDirectory_iff.mp directory with ⟨other, known, same⟩
  rw [← Key.path_injective (coherent.names other _ known) valid same]
  exact known

theorem Coherent.exists_child (coherent : tables.Coherent) {path : Str} (notRoot : path ≠ [])
    {key : Key} {found : KindText} (known : tables.kindOf key = some found)
    (inside : AtOrBelow path key.parent) :
    ∃ child kind, tables.kindOf child = some kind ∧ child.parent = path := by
  rcases inside with same | below
  · exact ⟨key, found, known, same⟩
  rcases coherent.parents key found known with root | directory
  · rw [root] at below
    simp [Pgfs.below, rootPath] at below
  rcases hasDirectory_iff.mp directory with ⟨parent, parentKnown, parentPath⟩
  have valid := coherent.names parent _ parentKnown
  have shorter : parent.parent.length < key.parent.length := by
    rw [← parentPath]
    exact length_lt_join valid
  rw [← parentPath] at below
  exact coherent.exists_child notRoot parentKnown ((below_prefix_join valid notRoot).mp below)
termination_by key.parent.length

theorem Coherent.hasDirectory_of_below (coherent : tables.Coherent) {path : Str}
    (notRoot : path ≠ []) {found : KindText} (known : tables.kindOf key = some found)
    (inside : AtOrBelow path key.parent) : tables.HasDirectory path := by
  rcases coherent.exists_child notRoot known inside with ⟨child, kind, childKnown, same⟩
  rcases coherent.parents child kind childKnown with root | directory
  · exact absurd (same.symm.trans root) notRoot
  · exact same ▸ directory

theorem HasDirectory.imp {path : Str} (directory : before.HasDirectory path)
    (kept : ∀ key, key.path = path → before.kindOf key = some .dir →
      after.kindOf key = some .dir) : after.HasDirectory path := by
  rcases hasDirectory_iff.mp directory with ⟨key, known, same⟩
  exact hasDirectory_iff.mpr ⟨key, kept key same known, same⟩

theorem HasEntry.imp {path : Str} (stored : before.HasEntry path)
    (kept : ∀ key found, key.path = path → before.kindOf key = some found →
      after.kindOf key = some found) : after.HasEntry path := by
  rcases hasEntry_iff.mp stored with ⟨key, found, known, same⟩
  exact hasEntry_iff.mpr ⟨key, found, kept key found same known, same⟩

/-- The kinds of all entries decide whether the tree is coherent. -/
theorem Coherent.of_kindOf (coherent : before.Coherent)
    (same : ∀ key, after.kindOf key = before.kindOf key) : after.Coherent where
  names key found known := coherent.names key found (same key ▸ known)
  parents key found known := (coherent.parents key found (same key ▸ known)).imp_right
    fun directory => directory.imp fun parent _ known => (same parent).trans known

theorem Coherent.insertEntry {kind : KindText} {now : Nat} (coherent : before.Coherent)
    (valid : ValidName key.name)
    (inDirectory : key.parent = rootPath ∨ before.HasDirectory key.parent)
    (absent : before.entries.lookup key = none) :
    (before.insertEntry key kind now).Coherent := by
  have kept : ∀ other found, before.kindOf other = some found →
      (before.insertEntry key kind now).kindOf other = some found := by
    intro other found known
    rw [kindOf_insertEntry absent, if_neg, known]
    rintro rfl
    rw [Tables.kindOf, absent] at known
    cases known
  have inherited : ∀ path, before.HasDirectory path →
      (before.insertEntry key kind now).HasDirectory path :=
    fun path directory => directory.imp fun other _ known => kept other _ known
  constructor
  · intro other found known
    rw [kindOf_insertEntry absent] at known
    split at known
    · rename_i same
      exact same ▸ valid
    · exact coherent.names other found known
  · intro other found known
    rw [kindOf_insertEntry absent] at known
    split at known
    · rename_i same
      rw [same]
      exact inDirectory.imp_right (inherited _)
    · exact (coherent.parents other found known).imp_right (inherited _)

theorem Coherent.not_below_of_childless (coherent : before.Coherent) {root : Key}
    (valid : ValidName root.name)
    (childless : before.kindOf root = some .dir →
      ∀ child ∈ before.entries, child.parent ≠ root.path)
    (known : before.kindOf key = some found) : ¬AtOrBelow root.path key.parent := by
  intro inside
  have notRoot := Key.path_ne_nil valid
  have directory := coherent.kindOf_of_hasDirectory valid
    (coherent.hasDirectory_of_below notRoot known inside)
  rcases coherent.exists_child notRoot known inside with ⟨child, childKind, childKnown, same⟩
  rcases Option.map_eq_some_iff.mp childKnown with ⟨row, stored, _⟩
  exact childless directory child (Table.mem_iff_exists_lookup.mpr ⟨row, stored⟩) same

theorem Coherent.deleteEntry (coherent : before.Coherent)
    (empty : ∀ child found, before.kindOf child = some found → child.parent ≠ key.path) :
    (before.deleteEntry key).2.Coherent := by
  constructor
  · intro other found known
    rw [kindOf_deleteEntry] at known
    split at known
    · cases known
    · exact coherent.names other found known
  · intro other found known
    rw [kindOf_deleteEntry] at known
    split at known
    · cases known
    · refine (coherent.parents other found known).imp_right fun directory =>
        directory.imp fun parent same parentKnown => ?_
      rw [kindOf_deleteEntry, if_neg, parentKnown]
      rintro rfl
      exact empty other found known same.symm

theorem HasEntry.deleteEntry {path : Str} (stored : before.HasEntry path)
    (other : path ≠ key.path) : (before.deleteEntry key).2.HasEntry path :=
  stored.imp fun parent found same known => by
    rw [kindOf_deleteEntry, if_neg, known]
    rintro rfl
    exact other same.symm

end Tables

/-! ## Renaming -/

theorem Key.path_moved {old new key : Key} (valid : ValidName key.name)
    (oldValid : ValidName old.name) (newValid : ValidName new.name) :
    (old.moved new key).path = movePath old.path new.path key.path := by
  unfold Key.moved
  split
  · rename_i same
    rw [same, movePath_self]
  · rename_i different
    exact join_movePath valid (Key.path_ne_nil oldValid) (Key.path_ne_nil newValid)
      fun same => different (Key.path_injective valid oldValid same)

theorem Key.not_atOrBelow_parent {key : Key} (valid : ValidName key.name) :
    ¬AtOrBelow key.path key.parent := by
  have shorter : key.parent.length < (join key.parent key.name).length := length_lt_join valid
  rintro (same | inside)
  · rw [← Key.path, ← same] at shorter
    omega
  · have longer := inside.length_le
    rw [below, List.length_append] at longer
    unfold Key.path at longer
    omega

namespace Tables

structure FaithfulRename (kind : Kind) (old new : Key) (before after : Tables) : Prop
    extends Renamed kind old new before after where
  coherent : before.Coherent
  oldValid : ValidName old.name
  newValid : ValidName new.name
  different : new.path ≠ old.path
  outside : ¬below old.path <+: new.path
  cascades : kind = .dir → ∀ key found, before.kindOf key = some found →
    rewriteParent old.path new.path key.parent = movePath old.path new.path key.parent

namespace FaithfulRename

variable {before after : Tables} {kind : Kind} {old new key : Key} {found : KindText}

theorem kindOf_old (faithful : FaithfulRename kind old new before after) :
    before.kindOf old = some kind.text := faithful.source

theorem not_below_new (faithful : FaithfulRename kind old new before after)
    (known : before.kindOf key = some found) : ¬AtOrBelow new.path key.parent := by
  apply faithful.coherent.not_below_of_childless faithful.newValid _ known
  intro directory
  rcases Option.map_eq_some_iff.mp directory with ⟨row, stored, isDirectory⟩
  exact faithful.target row stored isDirectory

theorem not_below_file (faithful : FaithfulRename .file old new before after)
    (known : before.kindOf key = some found) : ¬AtOrBelow old.path key.parent := by
  intro inside
  have directory := faithful.coherent.kindOf_of_hasDirectory faithful.oldValid
    (faithful.coherent.hasDirectory_of_below (Key.path_ne_nil faithful.oldValid) known inside)
  rw [faithful.kindOf_old] at directory
  cases directory

theorem relocate_eq (faithful : FaithfulRename kind old new before after)
    (known : before.kindOf key = some found) : relocate kind old new key = old.moved new key := by
  have oldStays : movePath old.path new.path old.parent = old.parent :=
    movePath_of_not (Key.not_atOrBelow_parent faithful.oldValid)
  cases kind with
  | file =>
      unfold relocate cascadeKey Key.moved
      rw [movePath_of_not (faithful.not_below_file known)]
  | dir =>
      have cascaded : cascadeKey .dir old new key =
          { key with parent := movePath old.path new.path key.parent } := by
        unfold cascadeKey
        rw [faithful.cascades rfl key found known]
      unfold relocate Key.moved
      rw [cascaded]
      by_cases same : key = old
      · rw [if_pos same, if_pos (by rw [same, oldStays])]
      · rw [if_neg same, if_neg]
        intro met
        -- Only an entry moved to a place above the old path could meet the old key.
        by_cases moves : AtOrBelow old.path key.parent
        · have below : AtOrBelow new.path old.parent := by
            rw [← congrArg Key.parent met]
            exact atOrBelow_movePath moves
          exact faithful.not_below_new faithful.kindOf_old below
        · rw [movePath_of_not moves] at met
          exact same met

theorem kindOf_moved (faithful : FaithfulRename kind old new before after)
    (known : before.kindOf key = some found) (kept : key ≠ new) :
    after.kindOf (old.moved new key) = some found := by
  rw [← faithful.relocate_eq known, faithful.kindOf_relocate kept ⟨found, known⟩, known]

theorem exists_moved (faithful : FaithfulRename kind old new before after)
    (known : after.kindOf key = some found) :
    ∃ source, source ≠ new ∧ before.kindOf source = some found ∧ old.moved new source = key := by
  rcases faithful.exists_source known with ⟨source, kept, original, target⟩
  exact ⟨source, kept, original, (faithful.relocate_eq original).symm.trans target⟩

theorem hasDirectory_moved (faithful : FaithfulRename kind old new before after)
    {path : Str} (directory : before.HasDirectory path) (kept : path ≠ new.path) :
    after.HasDirectory (movePath old.path new.path path) := by
  rcases hasDirectory_iff.mp directory with ⟨parent, known, rfl⟩
  have valid := faithful.coherent.names parent _ known
  have notNew : parent ≠ new := fun same => kept (same ▸ rfl)
  exact hasDirectory_iff.mpr ⟨_, faithful.kindOf_moved known notNew,
    Key.path_moved valid faithful.oldValid faithful.newValid⟩

/-- The rename keeps the tree coherent. -/
theorem coherent_after (faithful : FaithfulRename kind old new before after)
    (target : new.parent = rootPath ∨ before.HasDirectory new.parent) : after.Coherent where
  names key found known := by
    rcases faithful.exists_moved known with ⟨source, _, original, rfl⟩
    unfold Key.moved
    split
    · exact faithful.newValid
    · exact faithful.coherent.names source found original
  parents key found known := by
    have notRoot := Key.path_ne_nil faithful.oldValid
    rcases faithful.exists_moved known with ⟨source, kept, original, rfl⟩
    by_cases same : source = old
    · rw [Key.moved, if_pos same]
      rcases target with root | directory
      · exact .inl root
      · have outside : ¬AtOrBelow old.path new.parent := fun inside =>
          faithful.outside ((below_prefix_join faithful.newValid notRoot).mpr inside)
        have shorter : new.parent.length < new.path.length := length_lt_join faithful.newValid
        have moved := faithful.hasDirectory_moved directory fun equal => by
          rw [← equal] at shorter
          omega
        rw [movePath_of_not outside] at moved
        exact .inr moved
    · rw [Key.moved, if_neg same]
      rcases faithful.coherent.parents source found original with root | directory
      · have elsewhere : ¬AtOrBelow old.path source.parent := by
          rw [root]
          rintro (equal | inside)
          · exact notRoot equal.symm
          · simp [below, rootPath] at inside
        exact .inl ((movePath_of_not elsewhere).trans root)
      · exact .inr (faithful.hasDirectory_moved directory fun equal =>
          faithful.not_below_new original (.inl equal))

theorem hasEntry_moved (faithful : FaithfulRename kind old new before after) {path : Str}
    (stored : before.HasEntry path) : after.HasEntry (movePath old.path new.path path) := by
  rcases hasEntry_iff.mp stored with ⟨key, found, known, rfl⟩
  by_cases replaced : key = new
  · have elsewhere : ¬AtOrBelow old.path new.path := by
      rintro (same | inside)
      · exact faithful.different same
      · exact faithful.outside inside
    rw [replaced, movePath_of_not elsewhere]
    have moved := faithful.kindOf_moved faithful.kindOf_old fun same =>
      faithful.different (same ▸ rfl)
    rw [Key.moved, if_pos rfl] at moved
    exact hasEntry_iff.mpr ⟨new, _, moved, rfl⟩
  · exact hasEntry_iff.mpr ⟨_, found, faithful.kindOf_moved known replaced,
      Key.path_moved (faithful.coherent.names key found known) faithful.oldValid
        faithful.newValid⟩

end FaithfulRename

end Tables

/-! ## Cached paths -/

namespace InodeMaps

variable {maps : InodeMaps}

theorem mem_inoFor {path other : Str} :
    other ∈ (maps.inoFor path).2.inoByPath ↔ other = path ∨ other ∈ maps.inoByPath := by
  rcases maps.inoFor_cases path with ⟨cached, same⟩ | ⟨_, _, allocated⟩
  · rw [same]
    refine ⟨.inr, ?_⟩
    rintro (rfl | member)
    · exact Finmap.mem_iff.mpr ⟨_, cached⟩
    · exact member
  · rw [allocated, Finmap.mem_insert]

theorem mem_allocate {paths : List Str} {other : Str} :
    other ∈ (maps.allocate paths).inoByPath ↔ other ∈ paths ∨ other ∈ maps.inoByPath := by
  induction paths generalizing maps with
  | nil => simp [allocate]
  | cons path rest induction =>
      have step : maps.allocate (path :: rest) = (maps.inoFor path).2.allocate rest := rfl
      rw [step, induction, mem_inoFor, List.mem_cons]
      tauto

theorem mem_forget {path other : Str} :
    other ∈ (maps.forget path).inoByPath ↔ other ≠ path ∧ other ∈ maps.inoByPath := by
  rcases maps.forget_cases path with ⟨uncached, same⟩ | ⟨_, _, forgotten⟩
  · rw [same]
    refine ⟨fun member => ⟨?_, member⟩, fun both => both.2⟩
    rintro rfl
    exact Finmap.lookup_eq_none.mp uncached member
  · rw [forgotten, Finmap.mem_erase]

theorem exists_source_of_mem_rekeyMaps (order : Table.Order Str Nat) {oldPath newPath : Str}
    (outside : ¬below oldPath <+: newPath) :
    ∀ path ∈ (maps.rekeyMaps order oldPath newPath).inoByPath,
      path = newPath ∨ ∃ source ∈ maps.inoByPath, path = movePath oldPath newPath source := by
  have moved := rekeyMaps_induction (fun pending state =>
    (∀ path ∈ pending, path ∈ maps.inoByPath) ∧
    ∀ path ∈ state.inoByPath, path ∈ pending ∨ path = newPath ∨
      ∃ source ∈ maps.inoByPath, path = movePath oldPath newPath source)
    order maps outside ?_ ?_
  · intro path member
    exact (moved.2 path member).resolve_left List.not_mem_nil
  · intro pending _ inPending
    refine ⟨fun path member => ((inPending path).mp member).1, fun path member => ?_⟩
    rcases mem_rekeyOne.mp member with ⟨same, _⟩ | ⟨cached, notOld⟩
    · exact .inr (.inl same)
    · by_cases inside : below oldPath <+: path
      · exact .inl ((inPending path).mpr ⟨cached, inside⟩)
      · refine .inr (.inr ⟨path, cached, (movePath_of_not ?_).symm⟩)
        exact fun moves => moves.elim notOld inside
  · rintro path pending state ⟨cached, known⟩ inside
    refine ⟨fun other member => cached other (by simp [member]), fun other member => ?_⟩
    rcases mem_rekeyOne.mp member with ⟨same, _⟩ | ⟨kept, different⟩
    · exact .inr (.inr ⟨path, cached path (by simp), same⟩)
    · rcases known other kept with listed | later
      · exact .inl ((List.mem_cons.mp listed).resolve_left different)
      · exact .inr later

end InodeMaps

/-- The tree is coherent, and every cached path but the root belongs to an
entry. -/
structure Mount.Coherent (mount : Mount) : Prop where
  tree : mount.tables.Coherent
  cached : ∀ path ∈ mount.inoByPath, path = rootPath ∨ mount.tables.HasEntry path

def Mount.CascadeFollowsPaths (mount : Mount) (exchange : Exchange) : Prop :=
  exchange.reply = .ok .ok →
  ∀ paths ∈ exchange.event.callback.renamePaths mount.toInodeMaps,
    mount.tables.HasDirectory paths.1 → ∀ key ∈ mount.tables.entries.keys,
      rewriteParent paths.1 paths.2 key.parent = movePath paths.1 paths.2 key.parent

def Mount.ListsInExisting (mount : Mount) (callback : Callback) : Prop :=
  match callback with
  | .readdir ino _ _ => ∀ path ∈ mount.pathOfIno ino,
      (splitPath path).1 = rootPath ∨ mount.tables.HasEntry (splitPath path).1
  | _ => True

instance (mount : Mount) (exchange : Exchange) :
    Decidable (mount.CascadeFollowsPaths exchange) :=
  inferInstanceAs (Decidable (_ → ∀ paths ∈ exchange.event.callback.renamePaths _,
    _ → ∀ key ∈ mount.tables.entries.keys, _))

instance (mount : Mount) (callback : Callback) : Decidable (mount.ListsInExisting callback) :=
  match callback with
  | .readdir .. => inferInstanceAs (Decidable (∀ path ∈ mount.pathOfIno _, _))
  | .lookup .. | .getattr .. | .setattr .. | .read .. | .write .. | .open .. | .flush ..
  | .fsync .. | .release .. | .rename .. | .create .. | .mkdir .. | .unlink .. | .rmdir .. =>
      .isTrue trivial

/-! ## Steps -/

theorem Flushed.kindOf {quiet : Prop} {mount next : Mount} {fh : Nat} {succeeded : Bool}
    (flushed : Flushed quiet mount fh succeeded next) (key : Key) :
    next.tables.kindOf key = mount.tables.kindOf key := by
  cases flushed with
  | stored handle tables found pending batch => exact batch.contents.kindOf key
  | _ => rfl

namespace Mount

variable {before after : Mount}

theorem Coherent.of_kindOf (coherent : before.Coherent)
    (kinds : ∀ key, after.tables.kindOf key = before.tables.kindOf key)
    (maps : after.toInodeMaps = before.toInodeMaps) : after.Coherent where
  tree := coherent.tree.of_kindOf kinds
  cached path member := by
    rw [maps] at member
    exact (coherent.cached path member).imp_right fun stored =>
      stored.imp fun key found _ known => (kinds key).trans known

theorem Coherent.of_flushed {quiet : Prop} {fh : Nat} {succeeded : Bool}
    (coherent : before.Coherent) (flushed : Flushed quiet before fh succeeded after) :
    after.Coherent :=
  coherent.of_kindOf flushed.kindOf flushed.frame.1

theorem Coherent.allocate {paths : List Str} (coherent : before.Coherent)
    (stored : ∀ path ∈ paths, path = rootPath ∨ before.tables.HasEntry path) :
    (before.setMaps (before.allocate paths)).Coherent where
  tree := coherent.tree
  cached path member :=
    (InodeMaps.mem_allocate.mp member).elim (stored path) (coherent.cached path)

theorem Coherent.insert {key : Key} {kind : KindText} {now : Nat}
    (coherent : before.Coherent) (valid : ValidName key.name)
    (inDirectory : key.parent = rootPath ∨ before.tables.HasDirectory key.parent)
    (absent : before.tables.entries.lookup key = none) :
    ((before.setTables (before.tables.insertEntry key kind now)).setMaps
      (before.allocate [key.path])).Coherent where
  tree := coherent.tree.insertEntry valid inDirectory absent
  cached path member := by
    rcases InodeMaps.mem_allocate.mp member with new | cached
    · refine .inr (Tables.hasEntry_iff.mpr ⟨key, kind, ?_, (List.mem_singleton.mp new).symm⟩)
      exact (Tables.kindOf_insertEntry absent key).trans (if_pos rfl)
    · refine (coherent.cached path cached).imp_right fun stored =>
        stored.imp fun other found _ known => ?_
      refine (Tables.kindOf_insertEntry absent other).trans ((if_neg ?_).trans known)
      rintro rfl
      rw [Tables.kindOf, absent] at known
      cases known

theorem Coherent.remove {key : Key} {tables : Tables} (coherent : before.Coherent)
    (empty : ∀ child found, before.tables.kindOf child = some found →
      child.parent ≠ key.path)
    (removed : ∀ other, tables.kindOf other = (before.tables.deleteEntry key).2.kindOf other) :
    ((before.setTables tables).setMaps (before.forget key.path)).Coherent where
  tree := (coherent.tree.deleteEntry empty).of_kindOf removed
  cached path member := by
    rcases InodeMaps.mem_forget.mp member with ⟨other, cached⟩
    exact (coherent.cached path cached).imp_right fun stored =>
      (stored.deleteEntry other).imp fun key found _ known => (removed key).trans known

theorem Coherent.rename {kind : Kind} {old new : Key} {tables : Tables}
    {order : Table.Order Str Nat} (coherent : before.Coherent)
    (faithful : Tables.FaithfulRename kind old new before.tables tables)
    (target : new.parent = rootPath ∨ before.tables.HasDirectory new.parent) :
    ((before.setTables tables).setMaps
      (before.rekeyMaps order old.path new.path)).Coherent where
  tree := faithful.coherent_after target
  cached path member := by
    have arrived : tables.HasEntry new.path := by
      have stored := faithful.hasEntry_moved
        (Tables.hasEntry_iff.mpr ⟨old, _, faithful.kindOf_old, rfl⟩)
      rw [movePath_self] at stored
      exact stored
    rcases InodeMaps.exists_source_of_mem_rekeyMaps order faithful.outside path member with
      rfl | ⟨source, cached, rfl⟩
    · exact .inr arrived
    · rcases coherent.cached source cached with rfl | stored
      · refine .inl (movePath_of_not ?_)
        rintro (same | inside)
        · exact Key.path_ne_nil faithful.oldValid same.symm
        · simp [below, rootPath] at inside
      · exact .inr (faithful.hasEntry_moved stored)

end Mount

structure Exchange.Tidy (before : Mount) (exchange : Exchange) : Prop where
  names : exchange.event.callback.NamesValid
  parents : exchange.event.callback.ParentsAreDirectories before
  removals : exchange.event.callback.RemovesRightKind before
  cascades : before.CascadeFollowsPaths exchange
  lists : before.ListsInExisting exchange.event.callback

theorem Serves.coherent {quiet alone : Prop} {before after : Mount} {exchange : Exchange}
    (serves : Serves quiet alone before exchange.event.callback exchange.reply after)
    (isQuiet : quiet) (isAlone : alone) (tidy : exchange.Tidy before)
    (coherent : before.Coherent) : after.Coherent := by
  rcases exchange with ⟨⟨callback, dumpRequested, alive⟩, reply⟩
  rcases tidy with ⟨names, parents, removals, cascades, lists⟩
  cases serves with
  | lookup parent name parentPath reply resolved present =>
      refine coherent.allocate fun path member => .inr ?_
      rcases present isAlone with ⟨row, stored⟩
      rw [List.mem_singleton.mp member]
      exact Tables.hasEntry_iff.mpr ⟨⟨parentPath, name⟩, row.kind, Tables.kindOf_of_lookup stored, rfl⟩
  | truncate ino newSize path reply tables resolved truncated =>
      exact coherent.of_kindOf truncated.contents.kindOf rfl
  | flushRead _ _ _ _ _ _ _ _ _ flushed => exact coherent.of_flushed flushed
  | writeThrough ino given offset data path tables _ resolved written =>
      exact coherent.of_kindOf written.contents.kindOf rfl
  | flush _ _ _ _ _ _ _ _ flushed => exact coherent.of_flushed flushed
  | release ino given succeeded next flushed =>
      exact (coherent.of_flushed flushed).of_kindOf (fun _ => rfl) rfl
  | rename parent newparent flags old new kind tables order resolved newResolved different
      outside renamed =>
      have promised := (Mount.isDirectory_iff newResolved).mp parents.2
      refine coherent.rename ⟨renamed, coherent.tree, names old.name (by simp [Callback.names]),
        names new.name (by simp [Callback.names]), different, outside, ?_⟩ promised
      rintro rfl key found known
      refine cascades rfl (old.path, new.path) (renamePaths_eq flags resolved newResolved) ?_ key
        (Tables.mem_keys_iff.mpr ⟨found, known⟩)
      exact Tables.hasDirectory_iff.mpr ⟨old, renamed.source, rfl⟩
  | create parent key now ttl attr resolved absent =>
      exact (coherent.insert (names key.name (by simp [Callback.names]))
        ((Mount.isDirectory_iff resolved).mp parents) absent).of_kindOf (fun _ => rfl) rfl
  | mkdir parent key now reply resolved absent =>
      exact coherent.insert (names key.name (by simp [Callback.names]))
        ((Mount.isDirectory_iff resolved).mp parents) absent
  | unlink parent key resolved =>
      have valid := names key.name (by simp [Callback.names])
      refine coherent.remove (fun child found known same => ?_) fun _ => rfl
      rcases coherent.tree.parents child found known with root | directory
      · exact Key.path_ne_nil valid (same.symm.trans root)
      · have isDirectory := coherent.tree.kindOf_of_hasDirectory valid (same ▸ directory)
        cases (Mount.isOfKind_iff resolved).mp removals _ isDirectory
  | unlinkHalf parent key errno loud => exact absurd isQuiet loud
  | rmdir parent key resolved empty =>
      refine coherent.remove (fun child found known => ?_) fun _ => rfl
      rcases Option.map_eq_some_iff.mp known with ⟨row, stored, _⟩
      exact empty child (Table.mem_iff_exists_lookup.mpr ⟨row, stored⟩)
  | readdir ino offset room path children reply resolved listed =>
      refine coherent.allocate fun child member => ?_
      rcases List.mem_cons.mp member with rfl | listing
      · exact lists path resolved
      · rcases List.mem_map.mp listing with ⟨name, inList, rfl⟩
        rcases listed isAlone name inList with ⟨row, stored⟩
        exact .inr (Tables.hasEntry_iff.mpr
          ⟨⟨path, name⟩, row.kind, Tables.kindOf_of_lookup stored, rfl⟩)
  | _ => exact coherent.of_kindOf (fun _ => rfl) rfl

instance (before : Mount) (exchange : Exchange) : Decidable (exchange.Tidy before) :=
  decidable_of_iff
    (exchange.event.callback.NamesValid ∧
      exchange.event.callback.ParentsAreDirectories before ∧
      exchange.event.callback.RemovesRightKind before ∧
      before.CascadeFollowsPaths exchange ∧ before.ListsInExisting exchange.event.callback)
    ⟨fun ⟨names, parents, removals, cascades, lists⟩ =>
      ⟨names, parents, removals, cascades, lists⟩,
      fun tidy => ⟨tidy.names, tidy.parents, tidy.removals, tidy.cascades, tidy.lists⟩⟩

namespace PgFs

def TidyStep : PgFs → Exchange → PgFs → Prop :=
  StepWhere fun before exchange _ => exchange.Tidy before.mount

theorem coherent_of_run {start fs : PgFs} {history : List Exchange}
    (run : Trace TidyStep start history fs) (quiet : Db.Quiet start.db)
    (alone : start.db.replica = false) (coherent : start.mount.Coherent) :
    fs.mount.Coherent := by
  have kept := run.invariant (fun fs => (Db.Quiet fs.db ∧ fs.db.replica = false) ∧
    fs.mount.Coherent) ⟨⟨quiet, alone⟩, coherent⟩ ?_
  · exact kept.2
  rintro before exchange after ⟨⟨quiet, alone⟩, coherent⟩ ⟨step, tidy⟩
  exact ⟨⟨step.sameWorld.quiet quiet, step.sameWorld.2.trans alone⟩,
    step.serves.coherent quiet alone tidy coherent⟩

/-- The namespace stays coherent in a quiet run whose directory renames rewrite parents
as paths move, and whose listings are of directories in existing ones. -/
theorem namespace_coherent {world : Nat → Moment} {attrTtl : Nat} {history : List Exchange}
    {fs : PgFs} (quiet : ∀ index, (world index).fails = false)
    (run : Trace TidyStep (withAttrTtl (.connect .empty false world) attrTtl) history fs) :
    (∀ key row, fs.db.tables.entries.lookup key = some row →
      key.parent = rootPath ∨ fs.db.tables.HasDirectory key.parent) ∧
    ∀ path ∈ fs.inoByPath, path = rootPath ∨ fs.db.tables.HasEntry path := by
  have fresh : (withAttrTtl (.connect .empty false world) attrTtl).mount.Coherent := by
    refine ⟨Tables.coherent_empty, fun path member => .inl ?_⟩
    have known : path ∈ (Finmap.insert rootPath rootIno ∅ : Table Str Nat) := member
    rw [Finmap.mem_insert] at known
    exact known.resolve_right Finmap.notMem_empty
  have coherent := coherent_of_run run quiet rfl fresh
  exact ⟨fun key row stored => coherent.tree.parents key row.kind (Tables.kindOf_of_lookup stored),
    coherent.cached⟩

theorem namespace_coherent_rename : ∃ history fs, Trace TidyStep freshMount history fs ∧
    fs.db.tables.HasEntry ['c', '/', 'f'] ∧
    ∀ path ∈ fs.inoByPath, path = rootPath ∨ fs.db.tables.HasEntry path := by
  have observed : (replay (fun before exchange _ => exchange.Tidy before.mount)
      (fun _ _ _ => id)
      [{ callback := .mkdir 1 (some ['a']) }, { callback := .create 2 (some ['f']) },
        { callback := .rename 1 (some ['a']) 1 (some ['c']) 0 }] (freshMount, ())).any
      (fun final => final.1.db.tables.HasEntry ['c', '/', 'f']) = true := by decide
  rcases exists_trace_of_replay
    (fun fs => fs.db.tables.HasEntry ['c', '/', 'f']) observed with ⟨history, fs, run, seen⟩
  exact ⟨history, fs, run, of_decide_eq_true seen, (namespace_coherent (fun _ => rfl) run).2⟩

/-- Renaming the directory `_` takes a file in `a/b` along. -/
theorem child_without_parent_after_rename : ¬∀ history fs,
    Trace (StepWhere fun before exchange _ => exchange.event.callback.NamesValid ∧
      exchange.event.callback.ParentsAreDirectories before.mount ∧
      exchange.event.callback.RemovesRightKind before.mount) freshMount history fs →
    ∀ key row, fs.db.tables.entries.lookup key = some row →
      key.parent = rootPath ∨ fs.db.tables.HasDirectory key.parent := by
  intro claimed
  have observed : (replay (fun before exchange _ =>
      exchange.event.callback.NamesValid ∧
      exchange.event.callback.ParentsAreDirectories before.mount ∧
      exchange.event.callback.RemovesRightKind before.mount) (fun _ _ _ => id)
      [{ callback := .mkdir 1 (some ['_']) }, { callback := .mkdir 1 (some ['a']) },
        { callback := .mkdir 3 (some ['b']) }, { callback := .create 4 (some ['f']) },
        { callback := .rename 1 (some ['_']) 1 (some ['c']) 0 }] (freshMount, ())).any
      (fun final => (final.1.db.tables.kindOf ⟨['c', '/', 'b'], ['f']⟩).isSome ∧
        ¬final.1.db.tables.HasDirectory ['c', '/', 'b']) = true := by decide
  rcases exists_trace_of_replay
    (fun fs => (fs.db.tables.kindOf ⟨['c', '/', 'b'], ['f']⟩).isSome ∧
      ¬fs.db.tables.HasDirectory ['c', '/', 'b']) observed with ⟨history, fs, run, seen⟩
  have lost := of_decide_eq_true seen
  rcases Option.isSome_iff_exists.mp lost.1 with ⟨kind, known⟩
  rcases Option.map_eq_some_iff.mp known with ⟨row, stored, _⟩
  rcases claimed history fs run _ row stored with root | directory
  · cases root
  · exact lost.2 directory

end PgFs

end Pgfs
