import Pgfs.Foundation.Mirror
import Pgfs.Db.BlockStorage
import Pgfs.Db.Namespace
import Pgfs.Db.Rules

namespace Pgfs

open Effect

/-! A database handle whose hash maps are iterated in other orders. No method does
anything else on it: a batch stores its blocks in another sequence, and leaves the
same tables behind when it succeeds and the former ones when it does not. -/

/-- The iteration orders of hash maps at every moment. -/
structure HashOrders where
  blocks : Nat → Table.Order Int (List UInt8)
  paths : Nat → Table.Order Str Nat

namespace Db

def reordered (orders : HashOrders) (db : Db) : Db :=
  { db with world := fun index => { db.world index with
      blockOrder := orders.blocks index
      pathOrder := orders.paths index } }

variable {orders : HashOrders}

def OrderBlind (orders : HashOrders) (body : DbM Value) : Prop :=
  ∀ db, Mirrors (reordered orders) (fun _ _ => True) id db body body

theorem OrderBlind.bind {first : DbM Value} {next : Value → DbM Result}
    (firstBlind : OrderBlind orders first) (nextBlind : ∀ value, OrderBlind orders (next value)) :
    OrderBlind orders (first >>= next) := fun db =>
  (firstBlind db).andThen fun value middle _ => nextBlind value middle

theorem orderBlind_pure (value : Value) : OrderBlind orders (pure value) :=
  fun _ => mirrors_pure rfl

theorem orderBlind_raise (failure : DbError) :
    OrderBlind orders (raise failure : DbM Value) :=
  fun _ => mirrors_raise trivial

theorem orderBlind_orAbort (value : Option Value) :
    OrderBlind orders (orAbort value : DbM Value) :=
  fun _ => mirrors_orAbort value

theorem orderBlind_execute (what : Message)
    {statement : Moment → Tables → Option (Value × Tables)}
    (unordered : ∀ moment blockOrder pathOrder tables,
      statement { moment with blockOrder := blockOrder, pathOrder := pathOrder } tables =
        statement moment tables) : OrderBlind orders (execute what statement) := by
  intro db outcome next run
  have same : statement (db.reordered orders).moment (db.reordered orders).tables =
      statement db.moment db.tables := unordered _ _ _ _
  have fate : (db.reordered orders).moment.fails = db.moment.fails := rfl
  unfold execute at run ⊢
  by_cases fails : db.moment.fails = true
  · rw [if_pos fails] at run
    cases run
    exact ⟨.error (.ctx what), if_pos fails, .error trivial⟩
  · rw [if_neg fails] at run
    rw [fate, if_neg fails, same]
    cases executed : statement db.moment db.tables with
    | none =>
        rw [executed] at run
        cases run
        exact ⟨_, rfl, .error trivial⟩
    | some changed =>
        rw [executed] at run
        cases run
        exact ⟨_, rfl, .ok rfl⟩

theorem orderBlind_query (what : Message) (read : Tables → Value) :
    OrderBlind orders (query what read) :=
  orderBlind_execute what fun _ _ _ _ => rfl

theorem orderBlind_update (what : Message) (change : Nat → Tables → Tables) :
    OrderBlind orders (update what fun moment => change moment.now) :=
  orderBlind_execute what fun _ _ _ _ => rfl

/-! ## Transactions -/

def MirrorsInside (orders : HashOrders) (db : Db) (body other : DbM Value) : Prop :=
  ∀ outcome next, body db = some (outcome, next) → ∃ otherOutcome tables,
    other (db.reordered orders) = some (otherOutcome, (next.reordered orders).setTables tables) ∧
      SameShape (fun _ _ => True) id outcome otherOutcome ∧
      (outcome.isOk = true → tables = next.tables)

theorem OrderBlind.inside {body : DbM Value} (blind : OrderBlind orders body) (db : Db) :
    MirrorsInside orders db body body := by
  intro outcome next run
  rcases blind db outcome next run with ⟨otherOutcome, otherRun, alike⟩
  exact ⟨otherOutcome, next.tables, otherRun, alike, fun _ => rfl⟩

theorem MirrorsInside.bind {db : Db} {first second : DbM Value} {next : Value → DbM Result}
    (firstMirrors : MirrorsInside orders db first second)
    (nextBlind : ∀ value, OrderBlind orders (next value)) :
    MirrorsInside orders db (first >>= next) (second >>= next) := by
  intro outcome last run
  rcases bind_eq_some.mp run with
    ⟨value, middle, firstRun, nextRun⟩ | ⟨failure, firstRun, failed⟩
  · rcases firstMirrors _ _ firstRun with ⟨_, tables, otherRun, ⟨same⟩, left⟩
    cases same
    rw [left rfl] at otherRun
    rcases (nextBlind value).inside middle _ _ nextRun with
      ⟨otherOutcome, after, later, alike, settled⟩
    exact ⟨otherOutcome, after, (bind_of_ok otherRun).trans later, alike, settled⟩
  · rcases firstMirrors _ _ firstRun with ⟨otherOutcome, tables, otherRun, alike, _⟩
    cases alike with
    | error =>
        refine ⟨_, tables, bind_of_error otherRun, failed ▸ .error trivial, ?_⟩
        rw [failed]
        exact fun succeeded => absurd succeeded Bool.false_ne_true

theorem mirrors_transaction {db : Db} (start finish : Message) {body other : DbM Value}
    (inside : ∀ started, MirrorsInside orders started body other) :
    Mirrors (reordered orders) (fun _ _ => True) id db (transaction start finish body)
      (transaction start finish other) := by
  apply (orderBlind_query start _ db).andThen
  intro _ started _
  apply mirrors_restoringOnFailure
  intro outcome next run
  have committed : MirrorsInside orders started (body >>= fun value => do
      query finish fun _ => ()
      return value) (other >>= fun value => do
      query finish fun _ => ()
      return value) :=
    (inside started).bind fun value =>
      (orderBlind_query finish _).bind fun _ => orderBlind_pure value
  rcases committed outcome next run with ⟨otherOutcome, tables, otherRun, alike, settled⟩
  refine ⟨otherOutcome, _, otherRun, alike, fun succeeded => ?_, rfl⟩
  rw [settled succeeded]
  rfl

theorem orderBlind_transaction (start finish : Message) {body : DbM Value}
    (blind : OrderBlind orders body) : OrderBlind orders (transaction start finish body) :=
  fun _ => mirrors_transaction start finish fun started => blind.inside started

/-! ## Methods -/

variable (parent name : Str)

theorem orderBlind_ofExcept (result : Except DbError Value) :
    OrderBlind orders (ofExcept result) := by
  cases result with
  | ok value => exact orderBlind_pure value
  | error failure => exact orderBlind_raise failure

theorem orderBlind_getattrPrimary : OrderBlind orders (getattrPrimary parent name) := by
  apply (orderBlind_query _ _).bind
  intro row
  cases row with
  | none => exact orderBlind_pure none
  | some row => exact (orderBlind_ofExcept _).bind fun _ => orderBlind_pure _

theorem orderBlind_listPrimary : OrderBlind orders (listPrimary parent) :=
  (orderBlind_query _ _).bind fun _ => orderBlind_ofExcept _

private theorem orderBlind_askReplica {answer : Moment → Value}
    (unordered : ∀ moment blockOrder pathOrder,
      answer { moment with blockOrder := blockOrder, pathOrder := pathOrder } = answer moment) :
    OrderBlind orders (askReplica answer) := by
  intro db outcome next run
  cases run
  refine ⟨_, rfl, .ok ?_⟩
  show (if db.moment.replicaFails then none else some (answer db.moment)) =
    if db.moment.replicaFails then none else some (answer (db.reordered orders).moment)
  rw [show answer (db.reordered orders).moment = answer db.moment from unordered _ _ _]

private theorem orderBlind_nowMonoMillis : OrderBlind orders nowMonoMillis := by
  intro db outcome next run
  cases run
  exact ⟨_, rfl, .ok rfl⟩

private theorem orderBlind_primaryLsn : OrderBlind orders primaryLsn := by
  intro db outcome next run
  cases run
  exact ⟨_, rfl, .ok rfl⟩

private theorem orderBlind_replicaFresh : OrderBlind orders replicaFresh := by
  intro db
  apply mirrors_get_bind
  show Mirrors _ _ _ _ (if !db.replica then _ else _) (if !db.replica then _ else _)
  split
  · exact orderBlind_pure false db
  · refine ((orderBlind_askReplica fun _ _ _ => rfl).bind fun recovering => ?_) db
    match recovering with
    | some false => exact orderBlind_pure true
    | none => exact orderBlind_pure false
    | some true =>
        apply orderBlind_primaryLsn.bind
        intro primary
        apply (orderBlind_askReplica fun _ _ _ => rfl).bind
        intro replayed
        split
        · exact orderBlind_pure _
        · exact orderBlind_pure false

private theorem orderBlind_replicaFreshCached : OrderBlind orders replicaFreshCached := by
  apply orderBlind_nowMonoMillis.bind
  intro now db
  apply mirrors_get_bind
  dsimp only [reordered]
  split
  · exact mirrors_pure rfl
  · apply (orderBlind_replicaFresh db).andThen
    intro fresh middle _
    exact mirrors_modify_bind rfl (mirrors_pure rfl)

theorem orderBlind_replicaState : OrderBlind orders replicaState := by
  intro db
  apply mirrors_get_bind
  show Mirrors _ _ _ _ (if !db.replica then _ else _) (if !db.replica then _ else _)
  split
  · exact mirrors_pure rfl
  · exact (orderBlind_replicaFreshCached.bind fun _ => orderBlind_pure ()) db

private theorem orderBlind_replicaServes : OrderBlind orders replicaServes := by
  intro db
  apply mirrors_get_bind
  show Mirrors _ _ _ _ (if db.replica then _ else _) (if db.replica then _ else _)
  split
  · exact orderBlind_replicaFreshCached db
  · exact mirrors_pure rfl

private theorem orderBlind_queryReplica (what : Message) (read : Tables → Value) :
    OrderBlind orders (queryReplica what read) := by
  apply (orderBlind_askReplica fun _ _ _ => rfl).bind
  intro standby
  cases standby with
  | none => exact orderBlind_raise _
  | some standby => exact orderBlind_pure _

theorem orderBlind_list : OrderBlind orders (list parent) := by
  apply orderBlind_replicaServes.bind
  intro serves
  split
  · exact (orderBlind_queryReplica _ _).bind fun _ => orderBlind_ofExcept _
  · exact orderBlind_listPrimary parent

theorem orderBlind_getattr : OrderBlind orders (getattr parent name) := by
  apply orderBlind_replicaServes.bind
  intro serves
  split
  · apply (orderBlind_queryReplica _ _).bind
    intro row
    cases row with
    | none => exact orderBlind_pure none
    | some row => exact (orderBlind_ofExcept _).bind fun _ => orderBlind_pure _
  · exact orderBlind_getattrPrimary parent name

theorem orderBlind_create : OrderBlind orders (create parent name) :=
  orderBlind_update _ fun now tables => tables.insertEntry ⟨parent, name⟩ .file now

theorem orderBlind_mkdir : OrderBlind orders (mkdir parent name) :=
  orderBlind_update _ fun now tables => tables.insertEntry ⟨parent, name⟩ .dir now

theorem orderBlind_unlink : OrderBlind orders (unlink parent name) :=
  (orderBlind_update _ fun _ tables => (tables.deleteEntry ⟨parent, name⟩).2).bind fun _ =>
    orderBlind_update _ fun _ tables => tables.deleteBlocks ⟨parent, name⟩

theorem orderBlind_rmdir : OrderBlind orders (rmdir parent name) := by
  apply (orderBlind_query _ _).bind
  intro occupied
  split
  · exact orderBlind_pure false
  · exact (orderBlind_execute _ fun _ _ _ _ => rfl).bind fun _ => orderBlind_pure _

private theorem orderBlind_replaceTarget (newPath : Str) :
    OrderBlind orders (replaceTarget parent name newPath) := by
  apply (orderBlind_query _ _).bind
  intro target
  cases target with
  | none => exact orderBlind_pure ()
  | some row =>
      have removes : OrderBlind orders (do
          update ⟨"remove target _ before overwrite", [newPath]⟩ fun _ tables =>
            (tables.deleteEntry ⟨parent, name⟩).2
          update ⟨"remove target blocks for _ before overwrite", [newPath]⟩ fun _ tables =>
            tables.deleteBlocks ⟨parent, name⟩) :=
        (orderBlind_update _ fun _ tables => (tables.deleteEntry ⟨parent, name⟩).2).bind
          fun _ => orderBlind_update _ fun _ tables => tables.deleteBlocks ⟨parent, name⟩
      dsimp only
      split
      · apply (orderBlind_query _ _).bind
        intro occupied
        split
        · exact orderBlind_raise _
        · exact removes
      · exact removes

theorem orderBlind_rename (oldParent oldName newParent newName : Str) :
    OrderBlind orders (rename oldParent oldName newParent newName) := by
  unfold rename
  dsimp only
  split
  · exact orderBlind_pure ()
  apply (orderBlind_getattrPrimary oldParent oldName).bind
  intro found
  cases found with
  | none => exact orderBlind_raise _
  | some fileMeta =>
      apply orderBlind_transaction
      apply (orderBlind_replaceTarget newParent newName _).bind
      intro _
      have moves : OrderBlind orders (do
          let moved ← execute ⟨"move entry _ -> _",
              [join oldParent oldName, join newParent newName]⟩ fun moment tables =>
            tables.moveEntry ⟨oldParent, oldName⟩ ⟨newParent, newName⟩ moment.now
          execute ⟨"move blocks _ -> _", [join oldParent oldName, join newParent newName]⟩
            fun _ tables =>
              (tables.moveBlocks ⟨oldParent, oldName⟩ ⟨newParent, newName⟩).map
                fun tables => ((), tables)
          if moved = 0 then
            Effect.raise (.failure ⟨"rename of _ updated zero rows",
              [join oldParent oldName]⟩)) := by
        apply (orderBlind_execute _ fun _ _ _ _ => rfl).bind
        intro moved
        apply (orderBlind_execute _ fun _ _ _ _ => rfl).bind
        intro _
        split
        · exact orderBlind_raise _
        · exact orderBlind_pure ()
      split
      · apply OrderBlind.bind
        · exact (orderBlind_execute _ fun _ _ _ _ => rfl).bind fun _ =>
            orderBlind_execute _ fun _ _ _ _ => rfl
        · exact fun _ => moves
      · exact moves

theorem orderBlind_readRange (offset length : Nat) :
    OrderBlind orders (readRange parent name offset length) := by
  apply (orderBlind_getattrPrimary parent name).bind
  intro found
  cases found with
  | none => exact orderBlind_pure none
  | some fileMeta =>
      dsimp only
      split
      · exact orderBlind_pure none
      split
      · exact orderBlind_pure _
      split
      · exact orderBlind_pure _
      apply (orderBlind_orAbort _).bind
      intro endOffset
      apply (orderBlind_query _ _).bind
      intro rows
      exact (orderBlind_orAbort _).bind fun _ => orderBlind_pure _

private theorem orderBlind_writeBlock (offset : Nat) (data : List UInt8) (blockNo : Int) :
    OrderBlind orders (writeBlock parent name offset data blockNo) := by
  apply (orderBlind_orAbort _).bind
  intro piece
  rcases piece with ⟨blockOffset, chunk⟩
  have stores : ∀ blockData : List UInt8, OrderBlind orders (update
      ⟨"upsert block _ for _ in _", [.ofInt blockNo, name, parent]⟩ fun _ tables =>
        tables.upsertBlock ⟨parent, name⟩ blockNo (Vec.patch blockData blockOffset chunk 0)) :=
    fun blockData => orderBlind_update _ fun _ tables =>
      tables.upsertBlock ⟨parent, name⟩ blockNo (Vec.patch blockData blockOffset chunk 0)
  dsimp only
  split
  · exact (orderBlind_query _ _).bind fun _ => stores _
  · exact stores _

theorem orderBlind_forM {Item : Type} {items : List Item} {body : Item → DbM Unit}
    (blind : ∀ item, OrderBlind orders (body item)) : OrderBlind orders (items.forM body) :=
  fun _ => mirrors_forM fun item _ middle => blind item middle

private theorem orderBlind_updateSize (what : Message) (size : Int) :
    OrderBlind orders (update what fun moment tables =>
      tables.updateSize ⟨parent, name⟩ size moment.now) :=
  orderBlind_update what fun now tables => tables.updateSize ⟨parent, name⟩ size now

theorem orderBlind_writeRange (offset : Nat) (data : List UInt8) :
    OrderBlind orders (writeRange parent name offset data) := by
  unfold writeRange
  split
  · exact orderBlind_pure ()
  apply (orderBlind_orAbort _).bind
  intro stop
  apply (orderBlind_getattrPrimary parent name).bind
  intro found
  apply orderBlind_transaction
  apply (orderBlind_forM (orderBlind_writeBlock parent name offset data)).bind
  exact fun _ => orderBlind_updateSize parent name _ _

theorem orderBlind_truncate (newSize : Nat) :
    OrderBlind orders (truncate parent name newSize) := by
  apply (orderBlind_getattrPrimary parent name).bind
  intro found
  cases found with
  | none => exact orderBlind_raise _
  | some fileMeta =>
      dsimp only
      split
      · exact orderBlind_raise _
      apply orderBlind_transaction
      split
      · apply OrderBlind.bind
        · apply (orderBlind_update _ fun _ tables => tables.pruneBlocks ⟨parent, name⟩ _).bind
          intro _
          dsimp only
          split
          · apply (orderBlind_query _ _).bind
            intro row
            cases row with
            | none => exact orderBlind_pure ()
            | some blockData =>
                exact orderBlind_update _ fun _ tables =>
                  tables.upsertBlock ⟨parent, name⟩ _ _
          · exact orderBlind_pure ()
        · exact fun _ => orderBlind_updateSize parent name _ _
      · exact orderBlind_updateSize parent name _ _

/-! ## The batch -/

private theorem forM_update_alike {Item : Type} {what : Item → Message} {change : Item → Tables → Tables}
    {items others : List Item} (same : items.length = others.length) {db next : Db}
    {start : Tables} {outcome : Except DbError Unit}
    (run : (items.forM fun item => update (what item) fun _ => change item) db =
      some (outcome, next)) :
    ∃ otherOutcome tables,
      (others.forM fun item => update (what item) fun _ => change item)
        ((db.reordered orders).setTables start) =
          some (otherOutcome, (next.reordered orders).setTables tables) ∧
      SameShape (fun _ _ => True) id outcome otherOutcome ∧
      (outcome.isOk = true →
        next.tables = items.foldl (fun tables item => change item tables) db.tables ∧
        tables = others.foldl (fun tables item => change item tables) start) := by
  induction items generalizing others db start with
  | nil =>
      cases others with
      | nil =>
          cases run
          exact ⟨_, start, rfl, .ok rfl, fun _ => ⟨rfl, rfl⟩⟩
      | cons other rest => cases same
  | cons item rest induction =>
      cases others with
      | nil => cases same
      | cons other others =>
          have lengths : rest.length = others.length := Nat.succ.inj same
          have fate : ((db.reordered orders).setTables start).moment.fails =
              db.moment.fails := rfl
          by_cases fails : db.moment.fails = true
          · have stops := (update_apply (what item) (fun _ => change item) db).trans (if_pos fails)
            have otherStops := (update_apply (what other) (fun _ => change other)
              ((db.reordered orders).setTables start)).trans (if_pos (fate.trans fails))
            cases (bind_of_error stops).symm.trans run
            exact ⟨_, start, bind_of_error otherStops, .error trivial,
              fun succeeded => absurd succeeded Bool.false_ne_true⟩
          · have stores := (update_apply (what item) (fun _ => change item) db).trans
              (if_neg fails)
            have otherStores := (update_apply (what other) (fun _ => change other)
              ((db.reordered orders).setTables start)).trans (if_neg (fate ▸ fails))
            rcases induction lengths ((bind_of_ok stores).symm.trans run) with
              ⟨otherOutcome, tables, otherRun, alike, left⟩
            exact ⟨otherOutcome, tables, (bind_of_ok otherStores).trans otherRun, alike, left⟩

private theorem upsertBlock_comm (tables : Tables) (key : Key) (blocks : Table Int (List UInt8))
    (first second : Int) :
    ((tables.upsertBlock key first ((blocks.lookup first).getD [])).upsertBlock key second
      ((blocks.lookup second).getD [])) =
    ((tables.upsertBlock key second ((blocks.lookup second).getD [])).upsertBlock key first
      ((blocks.lookup first).getD [])) := by
  by_cases same : first = second
  · rw [same]
  · unfold Tables.upsertBlock
    congr 1
    apply Finmap.ext_lookup
    intro row
    simp only [Table.lookup_insert_eq]
    grind

private theorem mirrorsInside_upserts (blocks : Table Int (List UInt8))
    {numbers others : List Int} (permuted : numbers.Perm others) (started : Db) :
    MirrorsInside orders started
      (numbers.forM fun blockNo =>
        update ⟨"upsert block _ for _ in _", [.ofInt blockNo, name, parent]⟩
          fun _ tables => tables.upsertBlock ⟨parent, name⟩ blockNo
            ((blocks.lookup blockNo).getD []))
      (others.forM fun blockNo =>
        update ⟨"upsert block _ for _ in _", [.ofInt blockNo, name, parent]⟩
          fun _ tables => tables.upsertBlock ⟨parent, name⟩ blockNo
            ((blocks.lookup blockNo).getD [])) := by
  intro outcome next run
  rcases forM_update_alike permuted.length_eq run with
    ⟨otherOutcome, tables, otherRun, alike, left⟩
  refine ⟨otherOutcome, tables, otherRun, alike, fun succeeded => ?_⟩
  rw [(left succeeded).1, (left succeeded).2]
  exact (permuted.foldl_eq' (fun first _ second _ tables =>
    upsertBlock_comm tables ⟨parent, name⟩ blocks first second) _).symm

theorem orderBlind_writeBlocksBatch (blocks : Table Int (List UInt8)) (newSize : Nat) :
    OrderBlind orders (writeBlocksBatch parent name blocks newSize) := by
  have permuted : ∀ db : Db, (db.moment.blockOrder.keys blocks).Perm
      ((db.reordered orders).moment.blockOrder.keys blocks) :=
    fun db => db.moment.blockOrder.perm _ blocks
  unfold writeBlocksBatch
  split
  · exact orderBlind_pure ()
  dsimp only
  split
  · apply (orderBlind_getattrPrimary parent name).bind
    intro found db
    apply mirrors_get_bind
    apply mirrors_transaction
    intro started
    apply (mirrorsInside_upserts parent name blocks (permuted db) started).bind
    exact fun _ => orderBlind_updateSize parent name _ _
  · apply (orderBlind_pure none).bind
    intro found db
    apply mirrors_get_bind
    apply mirrors_transaction
    intro started
    apply (mirrorsInside_upserts parent name blocks (permuted db) started).bind
    exact fun _ => orderBlind_pure ()

end Db

end Pgfs
