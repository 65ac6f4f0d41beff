import Pgfs.Foundation.Table
import Pgfs.Foundation.MachineInt
import Pgfs.Path

namespace Pgfs

/-! The two tables, their rows, and the errors of the database layer. -/

inductive Kind
  | file
  | dir
  deriving DecidableEq, Repr

/-- The text of a `kind` column. The code only writes the first two. -/
inductive KindText
  | file
  | dir
  | other (text : Str)
  deriving DecidableEq, Repr

/-- The key of an entry. The root directory has parent "". -/
structure Key where
  parent : Str
  name : Str
  deriving DecidableEq, Repr

def Key.path (key : Key) : Str := join key.parent key.name

/-- A row of `entries`, without its `data` column, which stays ''. -/
structure EntryRow where
  kind : KindText
  size : Int
  mtime : Nat
  deriving DecidableEq, Repr

/-- The primary key of `blocks`. -/
structure BlockKey where
  key : Key
  blockNo : Int
  deriving DecidableEq, Repr

structure Tables where
  entries : Table Key EntryRow
  blocks : Table BlockKey (List UInt8)

def Tables.empty : Tables := ⟨∅, ∅⟩

structure FileMeta where
  name : Str
  kind : Kind
  size : Nat
  mtime : Nat
  deriving DecidableEq, Repr

/-- The text of an error with its interpolated values, each `_` standing for
one of them. -/
structure Message where
  template : String
  arguments : List Str
  deriving DecidableEq, Repr

/-- An error of the database layer: a failed statement wrapped with what was
being attempted, or a standalone failure. The source location is left out. -/
inductive DbError
  | ctx (what : Message)
  | failure (what : Message)
  deriving DecidableEq, Repr

def Str.ofInt (value : Int) : Str := (toString value).toList

/-- `row_to_meta`: the attributes a row stands for. -/
def rowToMeta (name : Str) (row : EntryRow) : Except DbError FileMeta := do
  let kind ← match row.kind with
    | .file => .ok Kind.file
    | .dir => .ok Kind.dir
    | .other text =>
        .error (.failure ⟨"unexpected entry kind _ for row name=_", [text, name]⟩)
  if row.size < 0 then
    .error (.failure ⟨"negative size _ for entry _", [.ofInt row.size, name]⟩)
  else
    .ok ⟨name, kind, row.size.toNat, row.mtime⟩

def Kind.text : Kind → KindText
  | .file => .file
  | .dir => .dir

theorem rowToMeta_eq_ok_iff {name : Str} {row : EntryRow} {fileMeta : FileMeta} :
    rowToMeta name row = .ok fileMeta ↔
      fileMeta.name = name ∧
        row = ⟨fileMeta.kind.text, fileMeta.size, fileMeta.mtime⟩ := by
  rcases row with ⟨kind, size, mtime⟩
  rcases fileMeta with ⟨metaName, metaKind, metaSize, metaTime⟩
  by_cases negative : size < 0
  · have different : size ≠ metaSize := by omega
    cases kind <;> simp [rowToMeta, Bind.bind, Except.bind, negative, different]
  · have same : size.toNat = metaSize ↔ size = metaSize := by omega
    cases kind <;> cases metaKind <;>
      simp [rowToMeta, Bind.bind, Except.bind, negative, same, Kind.text, eq_comm]

theorem rowToMeta_eq_error_iff {name : Str} {row : EntryRow} :
    (∃ failure, rowToMeta name row = .error failure) ↔
      (∃ text, row.kind = .other text) ∨ row.size < 0 := by
  rcases row with ⟨kind, size, mtime⟩
  by_cases negative : size < 0
  · cases kind <;> simp [rowToMeta, Bind.bind, Except.bind, negative]
  · cases kind <;> simp [rowToMeta, Bind.bind, Except.bind, negative]

def blockSize : Nat := 64 * 1024

/-! ## Statements

What each SQL statement does to the tables, or reads from them. -/

/-- `LIKE` with its wildcards `%` and `_` and its escape `\`. -/
def like : Str → Str → Bool
  | [], text => text.isEmpty
  | '%' :: pattern, text => text.tails.any (like pattern)
  | '_' :: pattern, text =>
      match text with
      | [] => false
      | _ :: rest => like pattern rest
  | ['\\'], _ => false
  | '\\' :: literal :: pattern, text =>
      match text with
      | [] => false
      | head :: rest => head == literal && like pattern rest
  | literal :: pattern, text =>
      match text with
      | [] => false
      | head :: rest => head == literal && like pattern rest

/-- `substring(text FROM start)`: positions count characters, from one. -/
def substringFrom (text : Str) (start : Nat) : Str := text.drop (start - 1)

/-- The `WHERE` clause of the descendant cascade. -/
def matchesDescendants (oldPath parent : Str) : Bool :=
  parent == oldPath || like (oldPath ++ ['/', '%']) parent

/-- The parent that the descendant cascade writes: everything from the byte
length of the old path on is kept. -/
def rewriteParent (oldPath newPath parent : Str) : Str :=
  if matchesDescendants oldPath parent then
    newPath ++ substringFrom parent (Str.utf8Len oldPath + 1)
  else
    parent

namespace Tables

variable (tables : Tables)

/-- `INSERT ... ON CONFLICT (parent, name) DO NOTHING` of an empty entry. -/
def insertEntry (key : Key) (kind : KindText) (now : Nat) : Tables :=
  match tables.entries.lookup key with
  | some _ => tables
  | none => { tables with entries := tables.entries.insert key ⟨kind, 0, now⟩ }

/-- `DELETE FROM entries` by key, with the number of deleted rows. -/
def deleteEntry (key : Key) : Nat × Tables :=
  (if key ∈ tables.entries then 1 else 0,
    { tables with entries := tables.entries.erase key })

/-- `DELETE FROM blocks` by (parent, name). -/
def deleteBlocks (key : Key) : Tables :=
  { tables with blocks := tables.blocks.select fun row _ => row.key ≠ key }

/-- `DELETE FROM blocks` past a block number. -/
def pruneBlocks (key : Key) (last : Int) : Tables :=
  { tables with
    blocks := tables.blocks.select fun row _ => ¬(row.key = key ∧ last < row.blockNo) }

def block (key : Key) (blockNo : Int) : Option (List UInt8) :=
  tables.blocks.lookup ⟨key, blockNo⟩

/-- `SELECT block_no, data` between two block numbers, by block number. -/
def readBlocks (key : Key) (first last : Int) (blockNo : Int) : Option (List UInt8) :=
  if first ≤ blockNo ∧ blockNo ≤ last then tables.block key blockNo else none

/-- `INSERT ... ON CONFLICT (parent, name, block_no) DO UPDATE SET data`. -/
def upsertBlock (key : Key) (blockNo : Int) (data : List UInt8) : Tables :=
  { tables with blocks := tables.blocks.insert ⟨key, blockNo⟩ data }

/-- `UPDATE entries SET size = ..., mtime = now()`; a missing entry is not
noticed. -/
def updateSize (key : Key) (size : Int) (now : Nat) : Tables :=
  { tables with
    entries := tables.entries.adjust key fun row =>
      { row with size := size, mtime := now } }

/-- `SELECT 1 FROM entries WHERE parent = ... LIMIT 1` finds a row. -/
def hasChildren (path : Str) : Bool :=
  decide (∃ key ∈ tables.entries.keys, key.parent = path)

/-- `SELECT ... WHERE parent = ... ORDER BY name`. -/
def children (parent : Str) : List (Str × EntryRow) :=
  let names : Table Str Unit :=
    { entries := (tables.entries.keys.filter (·.parent = parent)).val.map
        fun key => ⟨key.name, ()⟩
      nodupKeys := by
        rw [← Multiset.nodup_keys]
        simp only [Multiset.keys, Multiset.map_map, Function.comp_apply]
        apply Multiset.Nodup.map_on _ (Finset.nodup _)
        rintro ⟨parent, name⟩ member ⟨otherParent, otherName⟩ otherMember equal
        have first := (Finset.mem_filter.mp member).2
        have second := (Finset.mem_filter.mp otherMember).2
        simp_all }
  names.sortedKeys.filterMap fun name =>
    (tables.entries.lookup ⟨parent, name⟩).map fun row => (name, row)

/-- The cascade of a directory rename over `entries`. -/
def cascadeEntries (oldPath newPath : Str) : Option Tables :=
  (tables.entries.rekey fun key =>
    { key with parent := rewriteParent oldPath newPath key.parent }).map
      fun entries => { tables with entries := entries }

/-- The cascade of a directory rename over `blocks`. -/
def cascadeBlocks (oldPath newPath : Str) : Option Tables :=
  (tables.blocks.rekey fun row =>
    { row with key := { row.key with
        parent := rewriteParent oldPath newPath row.key.parent } }).map
      fun blocks => { tables with blocks := blocks }

/-- `UPDATE entries SET parent, name, mtime = now()` by key, with the number of
moved rows. -/
def moveEntry (old new : Key) (now : Nat) : Option (Nat × Tables) :=
  (tables.entries.rekey fun key => if key = old then new else key).map fun entries =>
    (if old ∈ tables.entries then 1 else 0,
      { tables with
        entries :=
          if old ∈ tables.entries then
            entries.adjust new fun row => { row with mtime := now }
          else
            entries })

/-- `UPDATE blocks SET parent, name` by (parent, name). -/
def moveBlocks (old new : Key) : Option Tables :=
  (tables.blocks.rekey fun row =>
    if row.key = old then { row with key := new } else row).map
      fun blocks => { tables with blocks := blocks }

/-! ### Rows after a statement -/

section

variable (key other : Key)

theorem block_upsertBlock (blockNo otherNo : Int) (data : List UInt8) :
    (tables.upsertBlock key blockNo data).block other otherNo =
      if other = key ∧ otherNo = blockNo then some data
      else tables.block other otherNo := by
  simp [upsertBlock, block, Table.lookup_insert_eq]

theorem block_pruneBlocks (last otherNo : Int) :
    (tables.pruneBlocks key last).block other otherNo =
      if other = key ∧ last < otherNo then none else tables.block other otherNo := by
  simp only [pruneBlocks, block, Table.lookup_select_of_key]
  by_cases pruned : other = key ∧ last < otherNo <;> simp [pruned]

@[simp] theorem block_updateSize (size : Int) (now : Nat) (otherNo : Int) :
    (tables.updateSize key size now).block other otherNo = tables.block other otherNo :=
  rfl

@[simp] theorem entries_upsertBlock (blockNo : Int) (data : List UInt8) :
    (tables.upsertBlock key blockNo data).entries = tables.entries := rfl

@[simp] theorem entries_pruneBlocks (last : Int) :
    (tables.pruneBlocks key last).entries = tables.entries := rfl

theorem lookup_updateSize (size : Int) (now : Nat) :
    (tables.updateSize key size now).entries.lookup other =
      if other = key then
        (tables.entries.lookup other).map fun row => { row with size := size, mtime := now }
      else
        tables.entries.lookup other :=
  Table.lookup_adjust _ _ _ _

theorem lookup_deleteEntry :
    (tables.deleteEntry key).2.entries.lookup other =
      if other = key then none else tables.entries.lookup other :=
  Table.lookup_erase_eq _ _ _

theorem block_deleteBlocks (blockNo : Int) :
    (tables.deleteBlocks key).block other blockNo =
      if other = key then none else tables.block other blockNo := by
  simp only [deleteBlocks, block, Table.lookup_select_of_key]
  by_cases same : other = key <;> simp [same]

theorem lookup_insertEntry (kind : KindText)
    (now : Nat) :
    (tables.insertEntry key kind now).entries.lookup other =
      if other = key then
        some ((tables.entries.lookup key).getD ⟨kind, 0, now⟩)
      else
        tables.entries.lookup other := by
  unfold insertEntry
  cases stored : tables.entries.lookup key with
  | none => simp [Table.lookup_insert_eq]
  | some row =>
      by_cases same : other = key
      · subst same
        simp [stored]
      · simp [same]

@[simp] theorem block_insertEntry (kind : KindText) (now : Nat) (blockNo : Int) :
    (tables.insertEntry key kind now).block other blockNo = tables.block other blockNo := by
  unfold insertEntry
  split <;> rfl

end

end Tables

end Pgfs
