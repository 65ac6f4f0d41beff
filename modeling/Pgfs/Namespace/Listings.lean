import Pgfs.Fs.Enumeration
import Pgfs.Namespace.Runs

namespace Pgfs

/-! Listings. A directory is replied as what stands directly in its place of the tree,
whichever daemon is asked, and every inode of the reply leads to what it is the inode
of. -/

/-- What stands directly in a place, each name once. -/
structure NameTree.Lists (tree : NameTree Str) (place : List Str)
    (listing : List (Node × Str)) : Prop where
  distinct : (listing.map (·.2)).Nodup
  stands : ∀ node name, (node, name) ∈ listing ↔ tree.node (place ++ [name]) = some node

/-! ## Rows -/

theorem Db.mem_of_rowsToMeta {rows : List (Str × EntryRow)} {children : List FileMeta}
    (converted : rowsToMeta rows = .ok children) {child : FileMeta} (listed : child ∈ children) :
    ∃ row, (child.name, row) ∈ rows ∧ rowToMeta child.name row = .ok child := by
  induction rows generalizing children with
  | nil =>
      cases converted
      cases listed
  | cons head rest induction =>
      rcases head with ⟨name, row⟩
      unfold rowsToMeta at converted
      cases first : rowToMeta name row with
      | error failure =>
          rw [first] at converted
          cases converted
      | ok fileMeta =>
          cases later : rowsToMeta rest with
          | error failure =>
              rw [first, later] at converted
              cases converted
          | ok others =>
              rw [first, later] at converted
              cases converted
              rcases List.mem_cons.mp listed with rfl | behind
              · have named : child.name = name := (rowToMeta_eq_ok_iff.mp first).1
                rw [named]
                exact ⟨row, List.mem_cons_self, first⟩
              · rcases induction later behind with ⟨found, member, same⟩
                exact ⟨found, List.mem_cons_of_mem _ member, same⟩

namespace NameTree.Represents

variable {tree : NameTree Str} {tables : Tables} {path : Str} {children : List FileMeta}

theorem valid_of_stands (represents : tree.Represents tables) {place : List Str} {name : Str}
    {node : Node} (stands : tree.node (place ++ [name]) = some node) : ValidName name := by
  have named : Named (place ++ [name]) := by
    apply represents.named
    rw [stands]
    simp
  exact named_singleton.mp named.right

theorem node_of_listed (represents : tree.Represents tables)
    (converted : Db.rowsToMeta (tables.children path) = .ok children) {child : FileMeta}
    (listed : child ∈ children) :
    tree.node (namesOf path ++ [child.name]) = some child.kind.node := by
  rcases Db.mem_of_rowsToMeta converted listed with ⟨row, member, same⟩
  have stored : tables.entries.lookup ⟨path, child.name⟩ = some row :=
    Tables.mem_children member
  have known : tables.attributes ⟨path, child.name⟩ = .ok (some child) := by
    simp [Tables.attributes, stored, same, Except.map]
  have kind : tables.kindOf ⟨path, child.name⟩ = some row.kind := by
    unfold Tables.kindOf
    rw [stored]
    rfl
  exact represents.node_of_attributes (represents.proper _ _ kind) known

theorem lists (represents : tree.Represents tables) (isPath : IsPath path)
    (converted : Db.rowsToMeta (tables.children path) = .ok children) :
    tree.Lists (namesOf path) (children.map fun child => (child.kind.node, child.name)) where
  distinct := by
    rw [List.map_map]
    show (children.map (·.name)).Nodup
    rw [Db.names_rowsToMeta converted]
    exact tables.childNames_nodup path
  stands node name := by
    constructor
    · intro member
      rcases List.mem_map.mp member with ⟨child, listed, equal⟩
      cases equal
      exact represents.node_of_listed converted listed
    · intro stands
      have proper : Key.Proper ⟨path, name⟩ := ⟨isPath, represents.valid_of_stands stands⟩
      have kind : tables.kindOf ⟨path, name⟩ = some node.text :=
        (represents.kindOf_iff proper).mpr stands
      rcases Option.map_eq_some_iff.mp kind with ⟨row, stored, _⟩
      have listedName : name ∈ children.map (·.name) := by
        rw [Db.names_rowsToMeta converted]
        exact Tables.mem_childNames_iff.mpr ⟨row, stored⟩
      rcases List.mem_map.mp listedName with ⟨child, listed, rfl⟩
      have same := represents.node_of_listed converted listed
      rw [stands] at same
      cases same
      exact List.mem_map.mpr ⟨child, listed, rfl⟩

end NameTree.Represents

/-! ## Inodes -/

namespace InodeMaps

variable {maps : InodeMaps} {path other : Str} {ino : Nat}

def placeOfIno (maps : InodeMaps) (ino : Nat) : Option (List Str) :=
  (maps.pathOfIno ino).map namesOf

theorem placeOfIno_eq (known : maps.pathOfIno ino = some path) :
    maps.placeOfIno ino = some (namesOf path) := by
  unfold placeOfIno
  rw [known]
  rfl

theorem WellNumbered.pathOfIno (numbered : WellNumbered maps) (root : RootCached maps)
    (cached : maps.inoByPath.lookup path = some ino) : maps.pathOfIno ino = some path := by
  unfold InodeMaps.pathOfIno
  split
  · rename_i same
    subst same
    rw [numbered.injective _ _ _ root cached]
  · exact numbered.inverse _ _ cached

theorem inoFor_cached (maps : InodeMaps) (path : Str) :
    (maps.inoFor path).2.inoByPath.lookup path = some (maps.inoFor path).1 := by
  rcases maps.inoFor_cases path with ⟨cached, same⟩ | ⟨_, number, allocated⟩
  · rw [same, cached]
  · rw [allocated, number, Table.lookup_insert_eq, if_pos rfl]

theorem WellNumbered.leads_inoFor (numbered : WellNumbered maps) (root : RootCached maps)
    (path : Str) : (maps.inoFor path).2.pathOfIno (maps.inoFor path).1 = some path :=
  (numbered.inoFor path).pathOfIno (root.inoFor path) (maps.inoFor_cached path)

theorem WellNumbered.pathOfIno_inoFor (numbered : WellNumbered maps)
    (known : maps.pathOfIno ino = some path) (other : Str) :
    (maps.inoFor other).2.pathOfIno ino = some path := by
  rcases maps.inoFor_cases other with ⟨_, same⟩ | ⟨_, _, allocated⟩
  · rw [same, known]
  · rw [allocated]
    unfold InodeMaps.pathOfIno at known ⊢
    by_cases same : ino = rootIno
    · rw [if_pos same] at known ⊢
      exact known
    · rw [if_neg same] at known ⊢
      have old : ino ≠ maps.nextIno := (numbered.ino_lt _ _ known).ne
      rw [Table.lookup_insert_eq, if_neg old, known]

end InodeMaps

namespace PgFs

open Effect MachineInt

variable {fs next : PgFs} {tree : NameTree Str} {path : Str}

theorem inoFor_apply (fs : PgFs) (path : Str) :
    inoFor path fs = some (.ok (fs.toInodeMaps.inoFor path).1,
      fs.setMaps (fs.toInodeMaps.inoFor path).2) := rfl

theorem exists_childEntries (path : Str) (children : List FileMeta) {fs : PgFs}
    (numbered : fs.WellNumbered) (root : fs.RootCached) :
    ∃ entries next, childEntries path children fs = some (.ok entries, next) ∧
      entries.map (·.2) = children.map (fun child => (child.kind, child.name)) ∧
      (∀ entry ∈ entries, next.pathOfIno entry.1 = some (join path entry.2.2)) ∧
      ∀ ino known, fs.pathOfIno ino = some known → next.pathOfIno ino = some known := by
  induction children generalizing fs with
  | nil => exact ⟨[], fs, rfl, rfl, by simp, fun _ _ known => known⟩
  | cons child rest induction =>
      let maps := (fs.toInodeMaps.inoFor (join path child.name)).2
      let ino := (fs.toInodeMaps.inoFor (join path child.name)).1
      have here : maps.pathOfIno ino = some (join path child.name) := numbered.leads_inoFor root _
      rcases @induction (fs.setMaps maps) (numbered.inoFor _) (root.inoFor _) with
        ⟨entries, last, run, shown, lead, kept⟩
      refine ⟨(ino, child.kind, child.name) :: entries, last, ?_, ?_, ?_, ?_⟩
      · unfold childEntries
        rw [bind_of_ok (inoFor_apply _ _), bind_of_ok run]
        rfl
      · rw [List.map_cons, List.map_cons, shown]
      · intro entry member
        rcases List.mem_cons.mp member with rfl | behind
        · exact kept _ _ here
        · exact lead entry behind
      · intro other known before
        exact kept _ _ (numbered.pathOfIno_inoFor before _)

/-- A part of a listing: of the place itself, the place above it and what stands in it,
each with an inode that leads there, what comes from an offset on and finds room. -/
def RepliesListing (tree : NameTree Str) (after : PgFs) (place : List Str) (ino : Nat)
    (offset : Int) (room : Nat) (reply : Except Errno Reply) : Prop :=
  ∃ above children,
    tree.Lists place (children.map fun child : Nat × Kind × Str =>
      (child.2.1.node, child.2.2)) ∧
    reply = .ok (.directory (((numberedFrom 0 ((ino, .dir, ['.']) ::
      (above, .dir, ['.', '.']) :: children)).drop (asU64 offset)).take room)) ∧
    after.placeOfIno ino = some place ∧ after.placeOfIno above = some place.dropLast ∧
    ∀ child ∈ children, after.placeOfIno child.1 = some (place ++ [child.2.2])

private theorem namesOf_splitPath (isPath : IsPath path) :
    namesOf (splitPath path).1 = (namesOf path).dropLast := by
  rcases isPath.exists_names with ⟨names, named, rfl⟩
  have above : Named names.dropLast := fun name member =>
    named name (List.dropLast_subset names member)
  show namesOf (parentPath (pathOfNames names)) = _
  rw [parentPath_pathOfNames named, namesOf_pathOfNames named, namesOf_pathOfNames above]

private theorem Keeps.run_list (keeps : Keeps fs tree) {children : List FileMeta}
    (converted : Db.rowsToMeta (fs.db.tables.children path) = .ok children) :
    callDb (Db.list path) fs = some (.ok children, fs.setDb fs.db.advance) := by
  apply callDb_eq_ok.mpr
  refine ⟨fs.db.advance, ?_, rfl⟩
  have primary : fs.db.route = (false, fs.db) := if_pos keeps.alone
  rw [Db.list_apply, primary, if_neg Bool.false_ne_true, Db.listPrimary_quiet _ keeps.quiet]
  exact congrArg (fun outcome => some (outcome, fs.db.advance)) converted

private theorem Keeps.exists_readdir (keeps : Keeps fs tree) (numbered : fs.WellNumbered)
    {ino : Nat} (resolved : fs.pathOfIno ino = some path) (offset : Int) (room : Nat) :
    ∃ reply last, readdir ino offset room fs = some (reply, last) ∧
      RepliesListing tree last (namesOf path) ino offset room reply := by
  have isPath := (keeps.ofPaths.pathOfIno resolved).1
  have root : fs.RootCached := keeps.ofPaths.root
  let maps := (fs.toInodeMaps.inoFor (splitPath path).1).2
  let above := (fs.toInodeMaps.inoFor (splitPath path).1).1
  have leads : maps.pathOfIno above = some (splitPath path).1 := numbered.leads_inoFor root _
  have stays : maps.pathOfIno ino = some path := numbered.pathOfIno_inoFor resolved _
  rcases keeps.wellFormed.listing path with ⟨children, converted⟩
  have allocated : Keeps (fs.setMaps maps) tree := ⟨keeps.quiet, keeps.alone,
    keeps.represents, keeps.wellFormed, keeps.owned, keeps.ofPaths.inoFor isPath.parent⟩
  rcases @exists_childEntries path children
    ((fs.setMaps maps).setDb (fs.setMaps maps).db.advance) (numbered.inoFor _)
    (root.inoFor _) with ⟨entries, last, naming, shown, lead, kept⟩
  have run : readdir ino offset room fs = some (.ok (.directory (((numberedFrom 0
      ((ino, .dir, ['.']) :: (above, .dir, ['.', '.']) :: entries)).drop
        (asU64 offset)).take room)), last) := by
    unfold readdir parentIno
    rw [bind_of_ok (pathOrEnoent_apply resolved), bind_of_ok (inoFor_apply _ _),
      bind_of_ok (allocated.run_list converted), bind_of_ok naming]
    rfl
  have listing : tree.Lists (namesOf path)
      (entries.map fun child : Nat × Kind × Str => (child.2.1.node, child.2.2)) := by
    have pairs := congrArg (List.map fun pair : Kind × Str => (pair.1.node, pair.2)) shown
    rw [List.map_map, List.map_map] at pairs
    exact pairs ▸ keeps.represents.lists isPath converted
  refine ⟨_, last, run, above, entries, listing, rfl, ?_, ?_, ?_⟩
  · exact InodeMaps.placeOfIno_eq (kept _ _ stays)
  · rw [InodeMaps.placeOfIno_eq (kept _ _ leads), namesOf_splitPath isPath]
  · intro child member
    have stands := (listing.stands child.2.1.node child.2.2).mp
      (List.mem_map.mpr ⟨child, member, rfl⟩)
    rw [InodeMaps.placeOfIno_eq (lead child member),
      namesOf_join isPath (keeps.represents.valid_of_stands stands)]

private theorem Keeps.readdir_follows (keeps : Keeps fs tree) (numbered : fs.WellNumbered)
    {ino room : Nat} {offset : Int} {reply : Except Errno Reply}
    (run : readdir ino offset room fs = some (reply, next)) :
    (fs.placeOfIno ino = none → reply = .error .enoent) ∧
      ∀ place, fs.placeOfIno ino = some place →
        RepliesListing tree next place ino offset room reply := by
  constructor
  · intro unknown
    have missing : fs.pathOfIno ino = none := Option.map_eq_none_iff.mp unknown
    have fails : readdir ino offset room fs = some (.error .enoent, fs) := by
      unfold readdir
      rw [bind_of_error (pathOrEnoent_fails missing)]
    cases fails.symm.trans run
    rfl
  · intro place known
    rcases Option.map_eq_some_iff.mp known with ⟨path, resolved, rfl⟩
    rcases keeps.exists_readdir numbered resolved offset room with ⟨_, _, ran, listing⟩
    cases ran.symm.trans run
    exact listing

end PgFs

/-! ## Fleets -/

namespace Fleet

open PgFs

variable {Daemon : Type} [DecidableEq Daemon]

theorem wellNumbered_of_run {allowed : PgFs → FleetEvent → Prop} {start fleet : Fleet Daemon}
    {turns : List (Daemon × FleetEvent)} (run : FleetRun allowed start turns fleet)
    (initially : ∀ daemon, (start.own daemon).WellNumbered) (daemon : Daemon) :
    (fleet.own daemon).WellNumbered := by
  have numbered := Turns.invariant run (fun _ => True)
    (fun own : PgFs => own.WellNumbered) trivial initially ?_
  · exact numbered.2 daemon
  · intro shared mine event sharedAfter mineAfter _ numbered taken
    cases event with
    | served exchange => exact ⟨trivial, taken.2.1.serves.numbering.1 numbered⟩
    | restarted replica world attrTtl =>
        refine ⟨trivial, ?_⟩
        have anew : mineAfter = _ := taken.2.2
        rw [anew]
        exact InodeMaps.wellNumbered_initial

/-- Whatever daemons that take turns on one quiet primary have done, and whichever is
asked: `readdir` replies ENOENT for an inode that leads nowhere, and else a part of the
listing of the place in the one tree that the inode leads to, as large as the offset and
the room let it be. -/
theorem listings_of_one_tree {start fleet next : Fleet Daemon}
    {log : List (NameCall × NameAnswer)} {turns : List (Daemon × FleetEvent)}
    (empty : start.shared = .empty)
    (started : ∀ daemon, ∃ world attrTtl, (∀ index, (world index : Moment).fails = false) ∧
      start.own daemon = withAttrTtl (.connect .empty false world) attrTtl)
    (run : Trace (Watched (Turns.Step (FleetStep FleetEvent.Orderly))
      (Machine.keepLog nameTurn)) (start, []) turns (fleet, log))
    {daemon : Daemon} {exchange : Exchange} {ino room : Nat} {offset : Int}
    (called : exchange.event.callback = .readdir ino offset room)
    (step : Turns.Step (FleetStep FleetEvent.Orderly) fleet (daemon, .served exchange) next) :
    ((fleet.own daemon).placeOfIno ino = none → exchange.reply = .error .enoent) ∧
      ∀ place, (fleet.own daemon).placeOfIno ino = some place →
        RepliesListing (Machine.after NameTree.serve .empty (log.map (·.1)))
          (next.own daemon) place ino offset room exchange.reply := by
  have keeps := ((keeps_of_run empty started run).2.on daemon).1
  have numbered := wellNumbered_of_run run.unwatched (fun other => by
    rcases started other with ⟨world, attrTtl, _, fresh⟩
    exact fresh ▸ InodeMaps.wellNumbered_initial) daemon
  rcases step with ⟨⟨orderly, served, _⟩, _⟩
  rcases step_of_alive orderly.alive ((fleet.own daemon).on fleet.shared) with
    ⟨ready, world, same, serving⟩
  have maps : ready.toInodeMaps = (fleet.own daemon).toInodeMaps :=
    congrArg Mount.toInodeMaps same
  have listing : readdir ino offset room ready = some (exchange.reply, next.own daemon) := by
    have done := serving.symm.trans served
    rw [called] at done
    exact done
  rw [← maps] at numbered ⊢
  exact (keeps.of_mount world same).readdir_follows numbered listing

/-- One daemon makes a directory in which the other makes a file, and lists it after
the other has renamed it. -/
theorem listings_of_one_tree_twoDaemons : ∃ (turns : List (Bool × FleetEvent))
    (fleet next : Fleet Bool) (log : List (NameCall × NameAnswer)) (exchange : Exchange),
    Trace (Watched (Turns.Step (FleetStep FleetEvent.Orderly)) (Machine.keepLog nameTurn))
      (fresh, []) turns (fleet, log) ∧
    Turns.Step (FleetStep FleetEvent.Orderly) fleet (true, .served exchange) next ∧
    exchange.reply = .ok (.directory [⟨1, 2, .dir, ['.', '.']⟩, ⟨3, 3, .file, ['f']⟩]) ∧
    RepliesListing (Machine.after NameTree.serve .empty (log.map (·.1))) (next.own true)
      [['c']] 2 1 5 exchange.reply := by
  let event : Event := { callback := .readdir 2 1 5 }
  let test : Fleet Bool × List (NameCall × NameAnswer) → Bool := fun final =>
    decide ((final.1.own true).placeOfIno 2 = some [['c']]) &&
    (step event ((final.1.own true).on final.1.shared)).any fun outcome =>
      decide ((FleetEvent.served ⟨event, outcome.1⟩).Orderly
        ((final.1.own true).on final.1.shared) ∧
        outcome.1 = .ok (.directory [⟨1, 2, .dir, ['.', '.']⟩, ⟨3, 3, .file, ['f']⟩]))
  have played : (replay FleetEvent.Orderly (Machine.keepLog nameTurn)
      [(true, some { callback := .mkdir 1 (some ['a']) }),
        (false, some { callback := .lookup 1 (some ['a']) }),
        (false, some { callback := .create 2 (some ['f']) }),
        (true, some { callback := .rename 1 (some ['a']) 1 (some ['c']) 0 })]
      (fresh, [])).any test = true := by
    decide +kernel
  rcases exists_watched_of_replay (fun _ => ⟨rfl, fun _ => rfl⟩) played with
    ⟨turns, ⟨fleet, log⟩, run, seen⟩
  rcases Bool.and_eq_true_iff.mp seen with ⟨leads, asked⟩
  rcases (Option.any_eq_true _ _).mp asked with ⟨⟨reply, after⟩, served, answered⟩
  rcases of_decide_eq_true answered with ⟨orderly, shown⟩
  let next : Fleet Bool := ⟨after.db.tables, Function.update fleet.own true after⟩
  have taken : Turns.Step (FleetStep FleetEvent.Orderly) fleet
      (true, .served ⟨event, reply⟩) next := by
    have mine : next.own true = after := Function.update_self true after fleet.own
    refine ⟨⟨orderly, ?_, ?_⟩, fun other different => Function.update_of_ne different _ _⟩
    · show step event ((fleet.own true).on fleet.shared) = some (reply, next.own true)
      rw [mine]
      exact served
    · show after.db.tables = (next.own true).db.tables
      rw [mine]
  exact ⟨turns, fleet, next, log, ⟨event, reply⟩, run, taken, shown,
    (listings_of_one_tree rfl (fun _ => ⟨_, 1, fun _ => rfl, rfl⟩) run rfl taken).2 _
      (of_decide_eq_true leads)⟩

end Fleet

end Pgfs
