import Pgfs.Fs.Run

namespace Pgfs

/-! What the kernel promises about its requests: the names and inodes of a
directory operation fit the tree. -/

namespace Tables

def kindOf (tables : Tables) (key : Key) : Option KindText :=
  (tables.entries.lookup key).map (·.kind)

def HasEntry (tables : Tables) (path : Str) : Prop :=
  ∃ key ∈ tables.entries.keys, key.path = path

def HasDirectory (tables : Tables) (path : Str) : Prop :=
  ∃ key ∈ tables.entries.keys, key.path = path ∧ tables.kindOf key = some .dir

instance (tables : Tables) (path : Str) : Decidable (tables.HasEntry path) :=
  inferInstanceAs (Decidable (∃ key ∈ tables.entries.keys, key.path = path))

instance (tables : Tables) (path : Str) : Decidable (tables.HasDirectory path) :=
  inferInstanceAs (Decidable (∃ key ∈ tables.entries.keys, key.path = path ∧
    tables.kindOf key = some .dir))

theorem kindOf_of_lookup {tables : Tables} {key : Key} {row : EntryRow}
    (stored : tables.entries.lookup key = some row) : tables.kindOf key = some row.kind := by
  rw [kindOf, stored, Option.map_some]

theorem mem_keys_iff {tables : Tables} {key : Key} :
    key ∈ tables.entries.keys ↔ ∃ kind, tables.kindOf key = some kind := by
  rw [Finmap.mem_keys, Table.mem_iff_exists_lookup, kindOf]
  simp

theorem hasEntry_iff {tables : Tables} {path : Str} :
    tables.HasEntry path ↔ ∃ key kind, tables.kindOf key = some kind ∧ key.path = path := by
  simp only [HasEntry, mem_keys_iff]
  exact ⟨fun ⟨key, ⟨kind, known⟩, same⟩ => ⟨key, kind, known, same⟩,
    fun ⟨key, kind, known, same⟩ => ⟨key, ⟨kind, known⟩, same⟩⟩

theorem hasDirectory_iff {tables : Tables} {path : Str} :
    tables.HasDirectory path ↔ ∃ key, tables.kindOf key = some .dir ∧ key.path = path := by
  simp only [HasDirectory, mem_keys_iff]
  exact ⟨fun ⟨key, _, same, known⟩ => ⟨key, known, same⟩,
    fun ⟨key, known, same⟩ => ⟨key, ⟨_, known⟩, same, known⟩⟩

variable {before after : Tables} {key : Key}

theorem ContentsOnly.kindOf (contents : ContentsOnly key before after) (other : Key) :
    after.kindOf other = before.kindOf other := by
  unfold Tables.kindOf
  by_cases same : other = key
  · rw [same, contents.kind]
  · rw [contents.entries other same]

theorem kindOf_insertEntry {kind : KindText} {now : Nat}
    (absent : before.entries.lookup key = none) (other : Key) :
    (before.insertEntry key kind now).kindOf other =
      if other = key then some kind else before.kindOf other := by
  unfold Tables.kindOf
  rw [lookup_insertEntry, absent]
  split <;> rfl

theorem kindOf_deleteEntry (tables : Tables) (key other : Key) :
    (tables.deleteEntry key).2.kindOf other =
      if other = key then none else tables.kindOf other := by
  unfold Tables.kindOf
  rw [lookup_deleteEntry]
  split <;> rfl

end Tables

theorem Renamed.kindOf_relocate {before after : Tables} {kind : Kind} {old new key : Key}
    (renamed : Renamed kind old new before after) (different : key ≠ new)
    (present : ∃ found, before.kindOf key = some found) :
    after.kindOf (relocate kind old new key) = before.kindOf key := by
  rcases present with ⟨found, known⟩
  rcases Option.map_eq_some_iff.mp known with ⟨row, stored, rfl⟩
  rcases renamed.entries_kept key row different stored with ⟨time, moved⟩
  rw [known, Tables.kindOf, moved]
  rfl

theorem Renamed.exists_source {before after : Tables} {kind : Kind} {old new key : Key}
    (renamed : Renamed kind old new before after) {found : KindText}
    (known : after.kindOf key = some found) :
    ∃ source, source ≠ new ∧ before.kindOf source = some found ∧
      relocate kind old new source = key := by
  rcases Option.map_eq_some_iff.mp known with ⟨row, stored, rfl⟩
  rcases renamed.entries_reached key row stored with
    ⟨source, time, different, original, target⟩
  exact ⟨source, different, by rw [Tables.kindOf, original]; rfl, target⟩

namespace Mount

def isDirectory (mount : Mount) (ino : Nat) : Bool :=
  (mount.pathOfIno ino).all fun path =>
    decide (path = rootPath) || decide (mount.tables.HasDirectory path)

def isOfKind (mount : Mount) (parent : Nat) (name : OsStr) (kind : KindText) : Bool :=
  (mount.pathOfIno parent).all fun path => name.all fun name =>
    (mount.tables.entries.lookup ⟨path, name⟩).all (·.kind = kind)

theorem isDirectory_iff {mount : Mount} {ino : Nat} {path : Str}
    (resolved : mount.pathOfIno ino = some path) :
    mount.isDirectory ino = true ↔ path = rootPath ∨ mount.tables.HasDirectory path := by
  simp [isDirectory, resolved]

theorem isOfKind_iff {mount : Mount} {parent : Nat} {key : Key} {kind : KindText}
    (resolved : mount.pathOfIno parent = some key.parent) :
    mount.isOfKind parent (some key.name) kind = true ↔
      ∀ found, mount.tables.kindOf key = some found → found = kind := by
  cases stored : mount.tables.entries.lookup key <;>
    simp [isOfKind, resolved, Tables.kindOf, stored]

end Mount

def Callback.RemovesRightKind (mount : Mount) : Callback → Prop
  | .unlink parent name => mount.isOfKind parent name .file = true
  | .rmdir parent name => mount.isOfKind parent name .dir = true
  | _ => True

def Callback.ParentsAreDirectories (mount : Mount) : Callback → Prop
  | .lookup parent _ | .create parent _ | .mkdir parent _ =>
      mount.isDirectory parent = true
  | .rename parent _ newparent _ _ =>
      mount.isDirectory parent = true ∧ mount.isDirectory newparent = true
  | _ => True

instance (mount : Mount) (callback : Callback) :
    Decidable (callback.RemovesRightKind mount) :=
  match callback with
  | .unlink .. | .rmdir .. => inferInstanceAs (Decidable (_ = true))
  | .lookup .. | .getattr .. | .setattr .. | .read .. | .write .. | .open .. | .flush ..
  | .fsync .. | .release .. | .rename .. | .create .. | .mkdir .. | .readdir .. => .isTrue trivial

instance (mount : Mount) (callback : Callback) :
    Decidable (callback.ParentsAreDirectories mount) :=
  match callback with
  | .lookup .. | .create .. | .mkdir .. => inferInstanceAs (Decidable (_ = true))
  | .rename .. => inferInstanceAs (Decidable (_ ∧ _))
  | .getattr .. | .setattr .. | .read .. | .write .. | .open .. | .flush .. | .fsync ..
  | .release .. | .unlink .. | .rmdir .. | .readdir .. => .isTrue trivial

end Pgfs
