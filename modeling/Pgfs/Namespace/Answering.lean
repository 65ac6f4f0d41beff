import Pgfs.Fs.Enumeration
import Pgfs.Fs.RenameGuards
import Pgfs.Namespace.CachedPaths
import Pgfs.Namespace.Outcomes
import Pgfs.Namespace.Renaming
import Pgfs.Replica.Routing
import Pgfs.Stored.Rows

namespace Pgfs

/-! What the callbacks reply to requests about names while the primary fails no
statement: what the tree of names answers. -/

def Kind.node : Kind → Node
  | .file => .leaf
  | .dir => .branch

theorem Kind.text_node (kind : Kind) : kind.node.text = kind.text := by
  cases kind <;> rfl

def Reply.node : Reply → Option Node
  | .entry _ shown | .attr _ shown | .created _ shown _ => some shown.kind.node
  | .ok | .data _ | .written _ | .opened _ | .directory _ => none

/-! ## Requests as calls -/

namespace Mount

def place (mount : Mount) (parent : Nat) (name : OsStr) : Option Place := do
  let path ← mount.pathOfIno parent
  let name ← name
  return ⟨namesOf path, name⟩

def nameCall (mount : Mount) : Callback → Option NameCall
  | .lookup parent name => some (.look ((mount.place parent name).map Place.names))
  | .getattr ino => some (.look ((mount.pathOfIno ino).map namesOf))
  | .setattr ino size => some (.resize size.isSome ((mount.pathOfIno ino).map namesOf))
  | .create parent name => some (.make .leaf (mount.place parent name))
  | .mkdir parent name => some (.make .branch (mount.place parent name))
  | .unlink parent name => some (.unlink (mount.place parent name))
  | .rmdir parent name => some (.rmdir (mount.place parent name))
  | .rename parent name newparent newname flags =>
      some (.rename flags (mount.place parent name) (mount.place newparent newname))
  | .read .. | .write .. | .open .. | .flush .. | .fsync .. | .release .. | .readdir .. => none

/-- The cascade of a rename of a directory, should it come to one, rewrites every parent
as moving its path would. -/
def CascadesMovePaths (mount : Mount) (callback : Callback) : Prop :=
  ∀ paths ∈ callback.renamePaths mount.toInodeMaps, mount.tables.HasDirectory paths.1 →
    ∀ key ∈ mount.tables.entries.keys,
      rewriteParent paths.1 paths.2 key.parent = movePath paths.1 paths.2 key.parent

instance (mount : Mount) (callback : Callback) : Decidable (mount.CascadesMovePaths callback) :=
  inferInstanceAs (Decidable (∀ paths ∈ callback.renamePaths _,
    _ → ∀ key ∈ mount.tables.entries.keys, _))

end Mount

/-! ## Rows and places -/

namespace NameTree.Represents

variable {tree : NameTree Str} {tables : Tables} {key : Key}

theorem node_of_attributes (represents : tree.Represents tables) (proper : key.Proper)
    {found : Option FileMeta} (known : tables.attributes key = .ok found) :
    tree.node key.names = found.map (·.kind.node) := by
  cases found with
  | none =>
      apply (represents.kindOf_eq_none_iff proper).mp
      unfold Tables.attributes at known
      unfold Tables.kindOf
      cases stored : tables.entries.lookup key with
      | none => rfl
      | some row =>
          rw [stored] at known
          cases converted : rowToMeta key.name row with
          | error failure => simp [converted, Except.map] at known
          | ok fileMeta => simp [converted, Except.map] at known
  | some fileMeta =>
      apply (represents.kindOf_iff proper).mp
      rw [Kind.text_node]
      exact Tables.kindOf_of_lookup (Tables.lookup_of_attributes known)

end NameTree.Represents

theorem Key.Proper.of_path {path : Str} (isPath : IsPath path) (notRoot : path ≠ rootPath) :
    (keyOf path).Proper ∧ (keyOf path).names = namesOf path := by
  have some : namesOf path ≠ [] := by
    intro none
    apply notRoot
    rw [← pathOfNames_namesOf path, none]
    rfl
  rcases exists_key_of_named isPath some with ⟨key, proper, names⟩
  have same : key = keyOf path := by
    have split := @splitPath_join key.parent key.name proper.name
    have path : join key.parent key.name = path := by
      have whole := proper.pathOfNames_names
      rw [names, pathOfNames_namesOf] at whole
      exact whole.symm
    rw [path] at split
    unfold keyOf
    rw [split]
  rw [← same]
  exact ⟨proper, names⟩

/-! ## Calls of the database -/

namespace Db

variable {before : Db}

theorem getattr_of_alone (alone : before.replica = false) (parent name : Str) :
    getattr parent name before = getattrPrimary parent name before := by
  have routed : before.route = (false, before) := if_pos alone
  rw [getattr_apply, routed]
  rfl

theorem occupied_of_rmdir {after : Db} {key : Key} (run : rmdir key.parent key.name before =
    some (.ok false, after)) :
    before.tables.hasChildren key.path = true ∨ key ∉ before.tables.entries := by
  unfold rmdir at run
  rcases Effect.bind_eq_ok.mp run with ⟨occupied, middle, asked, rest⟩
  rw [query_apply] at asked
  split at asked
  · cases asked
  cases asked
  by_cases children : before.tables.hasChildren (join key.parent key.name) = true
  · exact .inl children
  · right
    rw [if_neg children] at rest
    rcases Effect.bind_eq_ok.mp rest with ⟨deleted, last, executed, answered⟩
    have none : deleted = 0 := by
      simp only [Effect.pure_apply, Option.some.injEq, Prod.mk.injEq, Except.ok.injEq,
        decide_eq_false_iff_not, Nat.not_lt, Nat.le_zero] at answered
      exact answered.1
    subst none
    intro stored
    unfold execute at executed
    split at executed
    · cases executed
    · simp [Tables.deleteEntry, stored] at executed

end Db

/-! ## Callbacks -/

namespace PgFs

open Effect

variable {fs : PgFs} {tree : NameTree Str} {post : Value → Mount → Prop}
  {fail : Errno → Mount → Prop}

/-- A daemon alone on a quiet primary, with the tree that its tables stand for. -/
structure Keeps (fs : PgFs) (tree : NameTree Str) : Prop where
  quiet : Db.Quiet fs.db
  alone : fs.db.replica = false
  represents : tree.Represents fs.db.tables
  wellFormed : fs.db.tables.WellFormed
  owned : fs.db.tables.Owned
  ofPaths : fs.toInodeMaps.OfPaths

theorem Keeps.of_mount {next : PgFs} (keeps : Keeps fs tree) (world : Db.SameWorld fs.db next.db)
    (same : next.mount = fs.mount) : Keeps next tree := by
  have tables : next.db.tables = fs.db.tables := congrArg Mount.tables same
  have maps : next.toInodeMaps = fs.toInodeMaps := congrArg Mount.toInodeMaps same
  refine ⟨world.quiet keeps.quiet, world.2.trans keeps.alone, ?_, ?_, ?_, ?_⟩
  · rw [tables]
    exact keeps.represents
  · rw [tables]
    exact keeps.wellFormed
  · rw [tables]
    exact keeps.owned
  · rw [maps]
    exact keeps.ofPaths

def Follows (fs : PgFs) (tree : NameTree Str) (call : NameCall) (body : FsM Reply) : Prop :=
  Yields fs body (fun reply mount => Agrees tree call (.ok reply.node) mount.tables)
    fun errno mount => Agrees tree call (.error errno) mount.tables

theorem yields_of_ok {first : FsM Value} {rest : Value → FsM Result} {value : Value}
    {post : Result → Mount → Prop} (run : first fs = some (.ok value, fs))
    (restYields : Yields fs (rest value) post fail) : Yields fs (first >>= rest) post fail := by
  intro outcome next done
  rw [bind_of_ok run] at done
  exact restYields outcome next done

theorem yields_of_run {first : FsM Value} {rest : Value → FsM Result} {value : Value}
    {middle : PgFs} {post : Result → Mount → Prop} (run : first fs = some (.ok value, middle))
    (world : Db.SameWorld fs.db middle.db) (restYields : Yields middle (rest value) post fail) :
    Yields fs (first >>= rest) post fail := by
  intro outcome next done
  rw [bind_of_ok run] at done
  have finished := restYields outcome next done
  exact ⟨world.trans finished.1, finished.2⟩

theorem yields_of_error {first : FsM Value} {rest : Value → FsM Result} {errno : Errno}
    {post : Result → Mount → Prop} (run : first fs = some (.error errno, fs))
    (failed : fail errno fs.mount) : Yields fs (first >>= rest) post fail := by
  intro outcome next done
  rw [bind_of_error run] at done
  cases done
  exact ⟨.refl _, failed⟩

theorem yields_callDb_sure {body : DbM Value} {dbPost : Value → Tables → Prop} {excuse : Prop}
    (quiet : Db.Quiet fs.db) (atomic : Db.Atomic fs.db body dbPost excuse) (sure : ¬excuse)
    (holds : ∀ value tables, dbPost value tables → post value (fs.mount.setTables tables)) :
    Yields fs (callDb body) post fail := by
  apply yields_callDb_of
  rintro (failure | value) after run
  · exact absurd ((atomic _ _ run).2.2 quiet) sure
  · exact ⟨(atomic _ _ run).1, holds _ _ (atomic _ _ run).2⟩

/-! ### Resolving -/

theorem resolve_of_no_place {parent : Nat} {name : OsStr}
    (missing : fs.mount.place parent name = none) :
    resolve parent name fs = some (.error .enoent, fs) := by
  have place : fs.mount.place parent name = (fs.pathOfIno parent).bind fun path =>
      name.map fun child => ⟨namesOf path, child⟩ := by
    cases name <;> rfl
  rw [place] at missing
  unfold resolve pathOrEnoent
  cases resolved : fs.pathOfIno parent with
  | none => simp [bind_apply, resolved]
  | some path =>
      rw [resolved] at missing
      cases name with
      | none => simp [bind_apply, resolved]
      | some child => cases missing

theorem exists_of_place {parent : Nat} {name : OsStr} {place : Place}
    (found : fs.mount.place parent name = some place) :
    ∃ key : Key, place = key.place ∧ name = some key.name ∧
      fs.mount.pathOfIno parent = some key.parent := by
  unfold Mount.place at found
  rcases Option.bind_eq_some_iff.mp found with ⟨path, resolved, rest⟩
  rcases Option.bind_eq_some_iff.mp rest with ⟨child, named, equal⟩
  cases equal
  exact ⟨⟨path, child⟩, rfl, named, resolved⟩

theorem pathOrEnoent_fails {ino : Nat} (missing : fs.pathOfIno ino = none) :
    pathOrEnoent ino fs = some (.error .enoent, fs) := by
  unfold pathOrEnoent
  simp [bind_apply, missing]

/-! ### Looking -/

theorem kind_attrOf (ino : Nat) (fileMeta : FileMeta) :
    (attrOf ino fileMeta).kind = fileMeta.kind := by
  cases kind : fileMeta.kind <;> simp [attrOf, kind, dirAttr, fileAttr]

theorem node_entry (ttl ino : Nat) (fileMeta : FileMeta) :
    (Reply.entry ttl (attrOf ino fileMeta)).node = some fileMeta.kind.node := by
  rw [Reply.node, kind_attrOf]

theorem node_attr (ttl ino : Nat) (fileMeta : FileMeta) :
    (Reply.attr ttl (attrOf ino fileMeta)).node = some fileMeta.kind.node := by
  rw [Reply.node, kind_attrOf]

namespace Keeps

variable {key : Key}

theorem yields_attributes {ask : DbM (Option FileMeta)} {rest : Option FileMeta → FsM Value}
    (keeps : Keeps fs tree) (proper : key.Proper)
    (asks : ask fs.db = Db.getattrPrimary key.parent key.name fs.db)
    (restYields : ∀ found middle, Keeps middle tree → middle.mount = fs.mount →
      fs.db.tables.attributes key = .ok found →
      tree.node key.names = found.map (·.kind.node) → Yields middle (rest found) post fail) :
    Yields fs (callDb ask >>= rest) post fail := by
  have atomic : Db.Atomic fs.db ask (fun found tables => tables = fs.db.tables ∧
      fs.db.tables.attributes key = .ok found)
      (∃ failure, fs.db.tables.attributes key = .error failure) := by
    intro outcome after run
    rw [asks] at run
    exact Db.getattrPrimary_atomic outcome after run
  have readable : ¬∃ failure, fs.db.tables.attributes key = .error failure := by
    rintro ⟨failure, unreadable⟩
    rcases keeps.wellFormed.attributes key with ⟨found, known, _⟩
    rw [known] at unreadable
    cases unreadable
  apply Yields.bind (fun found mount => mount = fs.mount ∧
    fs.db.tables.attributes key = .ok found)
  · apply yields_callDb_sure keeps.quiet atomic readable
    intro found tables known
    exact ⟨congrArg fs.mount.setTables known.1, known.2⟩
  intro found middle world known
  exact restYields found middle (keeps.of_mount world known.1) known.1 known.2
    (keeps.represents.node_of_attributes proper known.2)

theorem agrees {call : NameCall} {answer : NameAnswer} (keeps : Keeps fs tree)
    (served : tree.serve call = (answer, tree)) : Agrees tree call answer fs.mount.tables :=
  keeps.represents.agrees served

theorem lookup_follows (keeps : Keeps fs tree) (parent : Nat) {name : OsStr}
    (valid : ∀ child ∈ name, ValidName child) :
    Follows fs tree (.look ((fs.mount.place parent name).map Place.names))
      (lookup parent name) := by
  unfold Follows lookup
  cases found : fs.mount.place parent name with
  | none =>
      have run : ((resolve parent name).attempt : FsM _) fs =
          some (.ok (.error .enoent), fs) :=
        attempt_eq_some.mpr ⟨.error .enoent, rfl, resolve_of_no_place found⟩
      apply yields_of_ok run
      apply yields_modify_bind rfl
      exact yields_raise (keeps.agrees rfl)
  | some place =>
      rcases exists_of_place found with ⟨key, rfl, rfl, resolved⟩
      have proper : key.Proper := ⟨(keeps.ofPaths.pathOfIno resolved).1, valid _ rfl⟩
      have run : ((resolve parent (some key.name)).attempt : FsM _) fs =
          some (.ok (.ok (key.parent, key.name)), fs) :=
        attempt_eq_some.mpr ⟨.ok (key.parent, key.name), rfl, resolve_apply resolved⟩
      apply yields_of_ok run
      apply keeps.yields_attributes proper (Db.getattr_of_alone keeps.alone _ _)
      intro found middle middleKeeps same _ node
      cases found with
      | none => exact yields_raise (middleKeeps.agrees (NameTree.serve_look_none node))
      | some fileMeta =>
          apply Yields.bind _ (yields_inoFor _)
          intro ino last _ allocated
          apply yields_get_bind
          apply yields_pure
          have shown := middleKeeps.agrees (NameTree.serve_look_some node)
          refine ⟨shown.answer.trans ?_, allocated ▸ shown.represents⟩
          rw [node_entry]

theorem proper_of_ino (keeps : Keeps fs tree) {ino : Nat} {path : Str}
    (resolved : fs.mount.pathOfIno ino = some path) (notRoot : ino ≠ rootIno) :
    (keyOf path).Proper ∧ (keyOf path).names = namesOf path := by
  have known := keeps.ofPaths.pathOfIno resolved
  exact Key.Proper.of_path known.1 fun root => notRoot (known.2 root)

theorem getattr_follows (keeps : Keeps fs tree) (ino : Nat) :
    Follows fs tree (.look ((fs.mount.pathOfIno ino).map namesOf)) (getattr ino) := by
  unfold Follows getattr
  by_cases root : ino = rootIno
  · subst root
    simp only [if_true]
    apply yields_get_bind
    apply yields_pure
    exact keeps.agrees (NameTree.serve_look_some tree.root)
  simp only [if_neg root]
  cases resolved : fs.mount.pathOfIno ino with
  | none => exact yields_of_error (pathOrEnoent_fails resolved) (keeps.agrees rfl)
  | some path =>
      apply yields_of_ok (pathOrEnoent_apply resolved)
      rcases keeps.proper_of_ino resolved root with ⟨proper, names⟩
      apply keeps.yields_attributes proper (Db.getattr_of_alone keeps.alone _ _)
      intro found middle middleKeeps same _ node
      rw [names] at node
      cases found with
      | none => exact yields_raise (middleKeeps.agrees (NameTree.serve_look_none node))
      | some fileMeta =>
          apply yields_get_bind
          apply yields_pure
          rw [node_attr]
          exact middleKeeps.agrees (NameTree.serve_look_some node)

/-! ### Resizing -/

private theorem serve_resize_none {sized : Bool} {names : List Str}
    (absent : tree.node names = none) :
    tree.serve (.resize sized (some names)) = (.error .enoent, tree) := by
  simp only [NameTree.serve, absent]

private theorem serve_resize_some {sized : Bool} {names : List Str} {node : Node}
    (found : tree.node names = some node)
    (allowed : node = .leaf ∨ sized = false ∨ names = []) :
    tree.serve (.resize sized (some names)) = (.ok (some node), tree) := by
  cases node with
  | leaf => simp only [NameTree.serve, found]
  | branch =>
      have free : ¬(sized = true ∧ names ≠ []) := by
        rcases allowed with contrary | unsized | root
        · cases contrary
        · simp [unsized]
        · simp [root]
      simp only [NameTree.serve, found, if_neg free]

private theorem yields_resized (keeps : Keeps fs tree) {path : Str} {names : List Str}
    {sized : Bool} {node : Node} (proper : (keyOf path).Proper)
    (sameNames : (keyOf path).names = names) (found : tree.node names = some node)
    (allowed : node = .leaf ∨ sized = false ∨ names = []) (ino : Nat) :
    Follows fs tree (.resize sized (some names)) (do
      match ← callDb (Db.getattrPrimary (splitPath path).1 (splitPath path).2) with
      | some fileMeta => return .attr (← Effect.get).attrTtl (attrOf ino fileMeta)
      | none => Effect.raise .enoent) := by
  apply keeps.yields_attributes proper rfl
  intro again middle middleKeeps _ _ node
  rw [sameNames, found] at node
  cases again with
  | none => cases node
  | some fileMeta =>
      apply yields_get_bind
      apply yields_pure
      rw [node_attr]
      have same : some fileMeta.kind.node = some _ := node.symm
      rw [same]
      exact middleKeeps.agrees (serve_resize_some found allowed)

private theorem truncated (keeps : Keeps fs tree) {next : PgFs} {newSize : Nat} {tables : Tables}
    (world : Db.SameWorld fs.db next.db) (fits : newSize < 2 ^ 63)
    (cut : Db.Truncated key newSize fs.db.tables tables)
    (same : next.mount = fs.mount.setTables tables) : Keeps next tree := by
  have tablesSame : next.db.tables = tables := congrArg Mount.tables same
  have maps : next.toInodeMaps = fs.toInodeMaps := congrArg Mount.toInodeMaps same
  refine ⟨world.quiet keeps.quiet, world.2.trans keeps.alone, ?_, ?_, ?_, ?_⟩
  · rw [tablesSame]
    exact keeps.represents.of_kindOf cut.contents.kindOf
  · rw [tablesSame]
    exact keeps.wellFormed.truncated cut fits
  · rw [tablesSame]
    rcases cut.blocks with ⟨size, file, _⟩
    exact keeps.owned.contents cut.contents fun _ _ _ => file.isFile
  · rw [maps]
    exact keeps.ofPaths

theorem setattr_follows (keeps : Keeps fs tree) (ino : Nat) {size : Option Nat}
    (sized : ∀ newSize ∈ size, newSize < 2 ^ 63) :
    Follows fs tree (.resize size.isSome ((fs.mount.pathOfIno ino).map namesOf))
      (setattr ino size) := by
  unfold Follows setattr
  by_cases root : ino = rootIno
  · subst root
    simp only [if_true]
    apply yields_get_bind
    apply yields_pure
    exact keeps.agrees (serve_resize_some tree.root (.inr (.inr rfl)))
  simp only [if_neg root]
  cases resolved : fs.mount.pathOfIno ino with
  | none => exact yields_of_error (pathOrEnoent_fails resolved) (keeps.agrees rfl)
  | some path =>
      apply yields_of_ok (pathOrEnoent_apply resolved)
      rcases keeps.proper_of_ino resolved root with ⟨proper, names⟩
      apply keeps.yields_attributes proper rfl
      intro found middle middleKeeps same attributes node
      rw [names] at node
      cases found with
      | none => exact yields_raise (middleKeeps.agrees (serve_resize_none node))
      | some fileMeta =>
          cases size with
          | none =>
              exact middleKeeps.yields_resized proper names node (.inr (.inl rfl)) ino
          | some newSize =>
              by_cases directory : fileMeta.kind = .dir
              · simp only [if_pos directory, raise_bind]
                apply yields_raise
                apply middleKeeps.agrees
                have notRoot : namesOf path ≠ [] := names ▸ Key.names_ne_nil _
                have branch : tree.node (namesOf path) = some .branch := by
                  simpa [directory, Kind.node] using node
                simp [NameTree.serve, branch, notRoot]
              · simp only [if_neg directory]
                have isFile : fileMeta.kind = .file := by
                  cases kind : fileMeta.kind with
                  | file => rfl
                  | dir => exact absurd kind directory
                have file : middle.db.tables.FileAt (keyOf path) fileMeta.size := by
                  refine ⟨fileMeta.mtime, ?_⟩
                  have tables : middle.db.tables = fs.db.tables := congrArg Mount.tables same
                  rw [tables, Tables.lookup_of_attributes attributes, isFile]
                  rfl
                apply Yields.bind (fun _ mount => ∃ tables,
                  Db.Truncated (keyOf path) newSize middle.db.tables tables ∧
                    mount = middle.mount.setTables tables)
                · apply yields_callDb_sure middleKeeps.quiet Db.truncate_atomic
                    (fun never => never _ file)
                  intro _ tables cut
                  exact ⟨tables, cut, rfl⟩
                rintro _ cut world ⟨tables, truncation, equal⟩
                have cutKeeps := middleKeeps.truncated world (sized newSize rfl) truncation equal
                have leaf : tree.node (namesOf path) = some .leaf := by
                  simpa [isFile, Kind.node] using node
                exact cutKeeps.yields_resized proper names leaf (.inl rfl) ino

/-! ### Making -/

private theorem yields_checkAbsent (keeps : Keeps fs tree) (proper : key.Proper)
    (added : Node) :
    Yields fs (checkAbsent key.parent key.name)
      (fun _ mount => mount = fs.mount ∧ tree.node key.names = none)
      fun errno mount =>
        Agrees tree (.make added (some key.place)) (.error errno) mount.tables := by
  unfold checkAbsent
  apply keeps.yields_attributes proper rfl
  intro found middle middleKeeps same _ node
  cases found with
  | some fileMeta => exact yields_raise (middleKeeps.agrees (NameTree.serve_make_present node))
  | none => exact yields_pure ⟨same, node⟩

theorem create_follows (keeps : Keeps fs tree) {parent : Nat} {name : OsStr}
    (valid : ∀ child ∈ name, ValidName child) (directory : fs.mount.isDirectory parent = true) :
    Follows fs tree (.make .leaf (fs.mount.place parent name)) (create parent name) := by
  unfold Follows create
  cases found : fs.mount.place parent name with
  | none => exact yields_of_error (resolve_of_no_place found) (keeps.agrees rfl)
  | some place =>
      rcases exists_of_place found with ⟨key, rfl, rfl, resolved⟩
      have proper : key.Proper := ⟨(keeps.ofPaths.pathOfIno resolved).1, valid _ rfl⟩
      have inDirectory := (Mount.isDirectory_iff resolved).mp directory
      apply yields_of_ok (resolve_apply resolved)
      apply Yields.bind _ (keeps.yields_checkAbsent proper .leaf)
      rintro _ checked world ⟨same, absent⟩
      apply Yields.bind (fun _ mount => ∃ now, mount =
        checked.mount.setTables (checked.db.tables.insertEntry key .file now))
      · apply yields_callDb_sure (world.quiet keeps.quiet) Db.create_atomic id
        rintro _ tables ⟨now, rfl⟩
        exact ⟨now, rfl⟩
      rintro _ inserted _ ⟨now, insertedMount⟩
      apply Yields.bind _ (yields_openHandle key)
      rintro fh opened _ ⟨openedMount, rfl⟩
      apply Yields.bind _ (yields_inoFor _)
      intro ino allocated _ allocatedMount
      apply yields_get_bind
      apply yields_pure
      have tables : checked.db.tables = fs.db.tables := congrArg Mount.tables same
      rw [allocatedMount, openedMount, insertedMount, tables]
      exact keeps.represents.made proper absent inDirectory .leaf now

theorem mkdir_follows (keeps : Keeps fs tree) {parent : Nat} {name : OsStr}
    (valid : ∀ child ∈ name, ValidName child) (directory : fs.mount.isDirectory parent = true) :
    Follows fs tree (.make .branch (fs.mount.place parent name)) (mkdir parent name) := by
  unfold Follows mkdir
  cases found : fs.mount.place parent name with
  | none => exact yields_of_error (resolve_of_no_place found) (keeps.agrees rfl)
  | some place =>
      rcases exists_of_place found with ⟨key, rfl, rfl, resolved⟩
      have proper : key.Proper := ⟨(keeps.ofPaths.pathOfIno resolved).1, valid _ rfl⟩
      have inDirectory := (Mount.isDirectory_iff resolved).mp directory
      apply yields_of_ok (resolve_apply resolved)
      apply Yields.bind _ (keeps.yields_checkAbsent proper .branch)
      rintro _ checked world ⟨same, absent⟩
      apply Yields.bind (fun _ mount => ∃ now, mount =
        checked.mount.setTables (checked.db.tables.insertEntry key .dir now))
      · apply yields_callDb_sure (world.quiet keeps.quiet) Db.mkdir_atomic id
        rintro _ tables ⟨now, rfl⟩
        exact ⟨now, rfl⟩
      rintro _ inserted _ ⟨now, insertedMount⟩
      apply Yields.bind _ (yields_inoFor _)
      intro ino allocated _ allocatedMount
      apply yields_get_bind
      apply yields_pure
      have tables : checked.db.tables = fs.db.tables := congrArg Mount.tables same
      rw [allocatedMount, insertedMount, tables]
      exact keeps.represents.made proper absent inDirectory .branch now

/-! ### Removing -/

private theorem node_of_isOfKind (keeps : Keeps fs tree) {parent : Nat} {kind : Kind}
    (proper : key.Proper) (resolved : fs.mount.pathOfIno parent = some key.parent)
    (promised : fs.mount.isOfKind parent (some key.name) kind.text = true) {node : Node}
    (found : tree.node key.names = some node) : node = kind.node := by
  have known := (keeps.represents.kindOf_iff proper).mpr found
  have text := (Mount.isOfKind_iff resolved).mp promised _ known
  cases node <;> cases kind <;> simp [Node.text, Kind.text, Kind.node] at text ⊢

theorem unlink_follows (keeps : Keeps fs tree) {parent : Nat} {name : OsStr}
    (valid : ∀ child ∈ name, ValidName child)
    (promised : fs.mount.isOfKind parent name .file = true) :
    Follows fs tree (.unlink (fs.mount.place parent name)) (unlink parent name) := by
  unfold Follows unlink
  cases found : fs.mount.place parent name with
  | none => exact yields_of_error (resolve_of_no_place found) (keeps.agrees rfl)
  | some place =>
      rcases exists_of_place found with ⟨key, rfl, rfl, resolved⟩
      have proper : key.Proper := ⟨(keeps.ofPaths.pathOfIno resolved).1, valid _ rfl⟩
      apply yields_of_ok (resolve_apply resolved)
      apply Yields.bind (fun _ mount =>
        mount.tables = (fs.db.tables.deleteEntry key).2.deleteBlocks key)
      · apply yields_callDb_of
        intro outcome after run
        rcases Db.unlink_cases run with ⟨world, ⟨rfl, removed⟩ | ⟨_, loud, _⟩⟩
        · exact ⟨world, removed⟩
        · exact absurd keeps.quiet loud
      intro _ removed _ tables
      apply yields_modify_bind rfl
      apply yields_pure
      apply keeps.represents.unlinked proper
      · intro other
        rw [mount_setMaps]
        show removed.mount.tables.kindOf other = _
        rw [tables]
        rfl
      · intro node found
        exact @node_of_isOfKind _ _ _ keeps _ .file proper resolved promised _ found

theorem rmdir_follows (keeps : Keeps fs tree) {parent : Nat} {name : OsStr}
    (valid : ∀ child ∈ name, ValidName child)
    (promised : fs.mount.isOfKind parent name .dir = true) :
    Follows fs tree (.rmdir (fs.mount.place parent name)) (rmdir parent name) := by
  unfold Follows rmdir
  cases found : fs.mount.place parent name with
  | none => exact yields_of_error (resolve_of_no_place found) (keeps.agrees rfl)
  | some place =>
      rcases exists_of_place found with ⟨key, rfl, rfl, resolved⟩
      have proper : key.Proper := ⟨(keeps.ofPaths.pathOfIno resolved).1, valid _ rfl⟩
      apply yields_of_ok (resolve_apply resolved)
      apply keeps.yields_attributes proper rfl
      intro found middle middleKeeps same attributes node
      cases found with
      | none =>
          apply yields_raise
          exact middleKeeps.agrees (NameTree.serve_rmdir_missing node)
      | some fileMeta =>
          have branch : tree.node key.names = some .branch := by
            rw [node]
            exact congrArg some
              (@node_of_isOfKind _ _ _ keeps _ .dir proper resolved promised _ node)
          have stored : key ∈ middle.db.tables.entries := by
            have tables : middle.db.tables = fs.db.tables := congrArg Mount.tables same
            rw [tables]
            exact Table.mem_iff_exists_lookup.mpr ⟨_, Tables.lookup_of_attributes attributes⟩
          apply Yields.bind (fun removed mount =>
            if removed then
              (∀ child ∈ middle.db.tables.entries, child.parent ≠ key.path) ∧
                mount.tables = (middle.db.tables.deleteEntry key).2
            else
              ¬tree.Childless key.names ∧ mount.tables = middle.db.tables)
          · apply yields_callDb_of
            intro outcome after run
            have done := Db.rmdir_atomic _ _ run
            refine ⟨done.1, ?_⟩
            cases outcome with
            | error failure => exact (done.2.2 middleKeeps.quiet).elim
            | ok removed =>
                cases removed with
                | true => exact done.2
                | false =>
                    refine ⟨fun childless => ?_, done.2⟩
                    rcases Db.occupied_of_rmdir run with occupied | missing
                    · rcases Tables.hasChildren_iff.mp occupied with ⟨child, member, parent⟩
                      exact (middleKeeps.represents.childless_iff proper).mp childless child
                        member parent
                    · exact missing stored
          rintro (_ | _) removed _ answered
          · simp only [Bool.false_eq_true, if_false] at answered ⊢
            apply yields_raise
            rw [answered.2]
            exact middleKeeps.agrees (NameTree.serve_rmdir_occupied branch answered.1)
          · simp only [if_true] at answered ⊢
            apply yields_modify_bind rfl
            apply yields_pure
            exact answered.2 ▸ middleKeeps.represents.removedDirectory proper branch answered.1

/-! ### Renaming -/

private theorem run_listPrimary (keeps : Keeps fs tree) (proper : key.Proper) :
    ∃ children, callDb (Db.listPrimary key.path) fs =
      some (.ok children, fs.setDb fs.db.advance) ∧
      (children = [] ↔ tree.Childless key.names) := by
  rcases keeps.wellFormed.listing key.path with ⟨children, listed⟩
  refine ⟨children, callDb_eq_ok.mpr ⟨fs.db.advance, ?_, rfl⟩, ?_⟩
  · rw [Db.listPrimary_quiet _ keeps.quiet]
    exact congrArg (fun outcome => some (outcome, fs.db.advance)) listed
  · have names : children.map (·.name) = fs.db.tables.childNames key.path :=
      Db.names_rowsToMeta listed
    rw [keeps.represents.childless_iff proper, ← List.map_eq_nil_iff, names]
    constructor
    · intro none child member same
      rcases Table.mem_iff_exists_lookup.mp member with ⟨row, stored⟩
      have listing : child.name ∈ fs.db.tables.childNames key.path :=
        Tables.mem_childNames_iff.mpr ⟨row, by rw [← same, stored]⟩
      rw [none] at listing
      cases listing
    · intro empty
      apply List.eq_nil_iff_forall_not_mem.mpr
      intro name listing
      rcases Tables.mem_childNames_iff.mp listing with ⟨row, stored⟩
      exact empty _ (Table.mem_iff_exists_lookup.mpr ⟨row, stored⟩) rfl

private theorem yields_checkTarget (keeps : Keeps fs tree) (proper : key.Proper)
    (source : Kind) :
    Yields fs (checkTarget source key.parent key.name)
      (fun _ mount => mount = fs.mount ∧ tree.replaceError source.node key.names = none)
      fun errno mount => mount = fs.mount ∧
        tree.replaceError source.node key.names = some errno := by
  unfold checkTarget
  rcases keeps.wellFormed.attributes key with ⟨found, attributes, _⟩
  have node := keeps.represents.node_of_attributes proper attributes
  have asked : tryDb (Db.getattrPrimary key.parent key.name) fs =
      some (.ok (.ok found), fs.setDb fs.db.advance) := by
    have answered : fs.db.moment.fails = false := keeps.quiet fs.db.cursor
    rw [tryDb_getattrPrimary, answered, ← attributes]
    rfl
  apply yields_of_run asked ⟨rfl, rfl⟩
  have middleKeeps : Keeps (fs.setDb fs.db.advance) tree := keeps.of_mount ⟨rfl, rfl⟩ rfl
  cases found with
  | none =>
      apply yields_pure
      refine ⟨rfl, ?_⟩
      cases source <;> simp [NameTree.replaceError, node, Kind.node]
  | some target =>
      cases source with
      | file =>
          cases kind : target.kind with
          | file =>
              simp only [kind]
              apply yields_pure
              exact ⟨rfl, by simp [NameTree.replaceError, node, kind, Kind.node]⟩
          | dir =>
              simp only [kind]
              apply yields_raise
              exact ⟨rfl, by simp [NameTree.replaceError, node, kind, Kind.node]⟩
      | dir =>
          cases kind : target.kind with
          | file =>
              simp only [kind]
              apply yields_raise
              exact ⟨rfl, by simp [NameTree.replaceError, node, kind, Kind.node]⟩
          | dir =>
              simp only [kind]
              rcases middleKeeps.run_listPrimary proper with ⟨children, listed, empty⟩
              apply yields_of_run listed ⟨rfl, rfl⟩
              cases children with
              | nil =>
                  apply yields_pure
                  have childless := empty.mp rfl
                  exact ⟨rfl, by simp [NameTree.replaceError, node, kind, Kind.node, childless]⟩
              | cons first rest =>
                  have occupied : ¬tree.Childless key.names := fun childless => by
                    cases empty.mpr childless
                  apply yields_raise
                  exact ⟨rfl, by simp [NameTree.replaceError, node, kind, Kind.node, occupied]⟩

private theorem target_allowed (keeps : Keeps fs tree) (proper : key.Proper) {source : Kind}
    (free : tree.replaceError source.node key.names = none) {found : KindText}
    (known : fs.db.tables.kindOf key = some found) :
    found = source.text ∧ (found = .dir → ∀ child ∈ fs.db.tables.entries,
      child.parent ≠ key.path) := by
  rw [keeps.represents.kinds key proper] at known
  rcases Option.map_eq_some_iff.mp known with ⟨node, there, rfl⟩
  rw [← keeps.represents.childless_iff proper]
  unfold NameTree.replaceError at free
  rw [there] at free
  cases source <;> cases node <;> simp_all [Kind.node, Kind.text, Node.text]

variable {old new : Key}

private theorem renamed (keeps : Keeps fs tree) {mount : Mount} {source : Kind}
    (allowed : Tables.RenameAllowed source old new fs.db.tables)
    (oldProper : old.Proper) (newProper : new.Proper)
    (free : tree.replaceError source.node new.names = none)
    (directory : new.parent = rootPath ∨ fs.db.tables.HasDirectory new.parent)
    (renames : Renamed source old new fs.db.tables mount.tables) :
    Agrees tree (.rename 0 (some old.place) (some new.place)) (.ok none) mount.tables := by
  have branch := (keeps.represents.branch_iff newProper.parent).mp directory
  have there : tree.node old.names = some source.node :=
    (keeps.represents.kindOf_iff oldProper).mp (source.text_node ▸ allowed.source)
  have outside : ¬old.names <+: new.names := by
    rw [← newProper.atOrBelow_iff oldProper]
    rintro (same | inside)
    · exact allowed.different same
    · exact allowed.outside inside
  have apart : new.place ≠ old.place := by
    intro same
    exact allowed.new_ne_old (newProper.injective oldProper (congrArg Place.names same))
  have faithful : Tables.FaithfulRename source old new fs.db.tables mount.tables :=
    ⟨renames, allowed.coherent, allowed.oldValid, allowed.newValid, allowed.different,
      allowed.outside, allowed.cascades⟩
  have served : tree.serve (.rename 0 (some old.place) (some new.place)) = (.ok none,
      tree.move old.names (namesOf new.parent) new.name outside branch) := by
    have oldThere : tree.node old.place.names = some source.node := there
    have newFree : tree.replaceError source.node new.place.names = none := free
    have inBranch : tree.node new.place.parents = some .branch := branch
    have elsewhere : ¬old.place.names <+: new.place.names := outside
    show tree.rename old.place new.place = _
    unfold NameTree.rename
    rw [if_neg apart, dif_pos elsewhere]
    simp only [oldThere, newFree, dif_pos inBranch]
    rfl
  refine ⟨congrArg Prod.fst served, ?_⟩
  rw [served]
  exact faithful.represents keeps.represents newProper outside branch

private theorem yields_renamed (keeps : Keeps fs tree) (oldProper : old.Proper)
    (newProper : new.Proper)
    (directory : new.parent = rootPath ∨ fs.db.tables.HasDirectory new.parent)
    (cascades : fs.db.tables.kindOf old = some .dir → ∀ key,
      (∃ found, fs.db.tables.kindOf key = some found) →
      rewriteParent old.path new.path key.parent = movePath old.path new.path key.parent) :
    Follows fs tree (.rename 0 (some old.place) (some new.place)) (do
      if join new.parent new.name = join old.parent old.name then
        return .ok
      else if (below (join old.parent old.name)).isPrefixOf (join new.parent new.name) then
        Effect.raise .einval
      else
        match ← callDb (Db.getattrPrimary old.parent old.name) with
        | none => Effect.raise .enoent
        | some source =>
            checkTarget source.kind new.parent new.name
            callDb (Db.rename old.parent old.name new.parent new.name)
            rekeyPathMaps (join old.parent old.name) (join new.parent new.name)
            return .ok) := by
  unfold Follows
  have served : tree.serve (.rename 0 (some old.place) (some new.place)) =
      tree.rename old.place new.place := rfl
  by_cases same : join new.parent new.name = join old.parent old.name
  · simp only [if_pos same]
    apply yields_pure
    apply keeps.agrees
    have keys : new = old := Key.path_injective newProper.name oldProper.name same
    rw [served, keys]
    unfold NameTree.rename
    rw [if_pos rfl]
    rfl
  simp only [if_neg same]
  have apart : new.place ≠ old.place := by
    intro places
    exact same (congrArg Key.path (newProper.injective oldProper (congrArg Place.names places)))
  by_cases inside : (below (join old.parent old.name)).isPrefixOf (join new.parent new.name) = true
  · simp only [if_pos inside]
    apply yields_raise
    apply keeps.agrees
    have above : old.place.names <+: new.place.names :=
      (newProper.atOrBelow_iff oldProper).mp (.inr (List.isPrefixOf_iff_prefix.mp inside))
    rw [served]
    unfold NameTree.rename
    rw [if_neg apart, dif_neg (not_not.mpr above)]
  simp only [if_neg inside]
  have outside : ¬below old.path <+: new.path :=
    fun contrary => inside (List.isPrefixOf_iff_prefix.mpr contrary)
  have elsewhere : ¬old.place.names <+: new.place.names := by
    intro above
    exact ((newProper.atOrBelow_iff oldProper).mpr above).elim same outside
  apply keeps.yields_attributes oldProper rfl
  intro found middle middleKeeps middleSame attributes node
  have there : tree.node old.place.names = found.map (·.kind.node) := node
  cases found with
  | none =>
      apply yields_raise
      apply middleKeeps.agrees
      rw [served]
      unfold NameTree.rename
      rw [if_neg apart, dif_pos elsewhere]
      simp only [there, Option.map_none]
  | some source =>
      have checks := middleKeeps.yields_checkTarget newProper source.kind
      apply Yields.bind _ (checks.imp (fun _ _ passed => passed) ?_)
      · rintro _ checked world ⟨checkedSame, free⟩
        have checkedKeeps := middleKeeps.of_mount world checkedSame
        have tables : checked.db.tables = fs.db.tables :=
          (congrArg Mount.tables checkedSame).trans (congrArg Mount.tables middleSame)
        have sourceKind : checked.db.tables.kindOf old = some source.kind.text := by
          rw [tables]
          exact Tables.kindOf_of_lookup (Tables.lookup_of_attributes attributes)
        have allowed : Tables.RenameAllowed source.kind old new checked.db.tables := {
          coherent := checkedKeeps.represents.coherent
          owned := checkedKeeps.owned
          source := sourceKind
          newValid := newProper.name
          different := same
          outside := outside
          target := fun found known => checkedKeeps.target_allowed newProper free known
          cascades := by
            intro isDir key found known
            rw [tables] at sourceKind known
            rw [isDir] at sourceKind
            exact cascades sourceKind key ⟨found, known⟩ }
        have different : ¬(old.parent = new.parent ∧ old.name = new.name) := by
          rintro ⟨parents, names⟩
          rw [parents, names] at same
          exact same rfl
        apply Yields.bind (fun _ mount =>
          Renamed source.kind old new checked.db.tables mount.tables)
        · apply yields_callDb_of
          intro outcome after run
          have done := Db.rename_atomic different _ _ run
          refine ⟨done.1, ?_⟩
          have readable : checked.db.tables.attributes old = .ok (some source) := by
            rw [tables]
            exact attributes
          rcases (Db.rename_succeeds_iff different readable).mpr
            ⟨fun index _ => checkedKeeps.quiet _, allowed.renamedTo_isSome 0⟩ with
            ⟨succeeded, ran⟩
          rw [run] at ran
          cases ran
          rcases done.2 with ⟨kind, renames⟩
          have kinds : some kind.text = some source.kind.text :=
            renames.source.symm.trans sourceKind
          have sameKind : kind = source.kind := by
            cases kind <;> cases text : source.kind <;> simp [text, Kind.text] at kinds ⊢
          exact sameKind ▸ renames
        · intro _ moved _ renames
          apply yields_modify_bind rfl
          apply yields_pure
          exact checkedKeeps.renamed allowed oldProper newProper free
            (tables ▸ directory) renames
      · rintro errno mount ⟨mountSame, refused⟩
        have forbidden : tree.replaceError source.kind.node new.place.names = some errno :=
          refused
        have answered : tree.serve (.rename 0 (some old.place) (some new.place)) =
            (.error errno, tree) := by
          rw [served]
          unfold NameTree.rename
          rw [if_neg apart, dif_pos elsewhere]
          simp only [there, Option.map_some, forbidden]
        rw [mountSame]
        exact middleKeeps.agrees answered

theorem rename_follows (keeps : Keeps fs tree) {parent newparent flags : Nat}
    {name newname : OsStr} (valid : ∀ child ∈ name, ValidName child)
    (newValid : ∀ child ∈ newname, ValidName child)
    (directory : fs.mount.isDirectory newparent = true)
    (cascades : fs.mount.CascadesMovePaths (.rename parent name newparent newname flags)) :
    Follows fs tree (.rename flags (fs.mount.place parent name)
      (fs.mount.place newparent newname)) (rename parent name newparent newname flags) := by
  unfold Follows rename
  by_cases flagged : flags ≠ 0
  · simp only [if_pos flagged]
    apply yields_raise
    apply keeps.agrees
    simp only [NameTree.serve, if_pos flagged]
  simp only [if_neg flagged]
  cases found : fs.mount.place parent name with
  | none =>
      apply yields_of_error (resolve_of_no_place found)
      apply keeps.agrees
      simp only [NameTree.serve, if_neg flagged]
  | some place =>
      rcases exists_of_place found with ⟨old, rfl, rfl, resolved⟩
      have oldProper : old.Proper := ⟨(keeps.ofPaths.pathOfIno resolved).1, valid _ rfl⟩
      apply yields_of_ok (resolve_apply resolved)
      cases newFound : fs.mount.place newparent newname with
      | none =>
          apply yields_of_error (resolve_of_no_place newFound)
          apply keeps.agrees
          simp only [NameTree.serve, if_neg flagged]
      | some newPlace =>
          rcases exists_of_place newFound with ⟨new, rfl, rfl, newResolved⟩
          have newProper : new.Proper :=
            ⟨(keeps.ofPaths.pathOfIno newResolved).1, newValid _ rfl⟩
          apply yields_of_ok (resolve_apply newResolved)
          have noFlags : flags = 0 := not_not.mp flagged
          subst noFlags
          exact keeps.yields_renamed oldProper newProper
            ((Mount.isDirectory_iff newResolved).mp directory) fun source key known =>
              cascades _ (renamePaths_eq 0 resolved newResolved)
                (Tables.hasDirectory_iff.mpr ⟨old, source, rfl⟩) key
                (Tables.mem_keys_iff.mpr known)

end Keeps

end PgFs

end Pgfs
