import Pgfs.Db.Contents

namespace Pgfs

/-! What the queries answer, from the primary or from the standby. No query
changes a table. -/

namespace Tables

theorem mem_children {tables : Tables} {parent name : Str} {row : EntryRow}
    (child : (name, row) ∈ tables.children parent) :
    tables.entries.lookup ⟨parent, name⟩ = some row := by
  simp only [children, List.mem_filterMap, Option.map_eq_some_iff, Prod.mk.injEq] at child
  rcases child with ⟨listed, _, stored, found, rfl, rfl⟩
  exact found

end Tables

namespace Db

variable {before : Db}

private def Unaltered (before after : Db) : Prop :=
  SameWorld before after ∧ after.tables = before.tables

private theorem Unaltered.refl (db : Db) : Unaltered db db := ⟨.refl _, rfl⟩

private theorem Unaltered.trans (first second third : Db) (left : Unaltered first second)
    (right : Unaltered second third) : Unaltered first third :=
  ⟨left.1.trans right.1, right.2.trans left.2⟩

private theorem atomic_of_unaltered {body : DbM Value} (keeps : Effect.Keeps Unaltered body) :
    Atomic before body (fun _ tables => tables = before.tables ∧ True) True := by
  rintro (failure | value) after run
  · exact ⟨(keeps _ _ _ run).1, (keeps _ _ _ run).2, fun _ => trivial⟩
  · exact ⟨(keeps _ _ _ run).1, (keeps _ _ _ run).2, trivial⟩

/-! ## Freshness of the standby -/

private theorem unaltered_askReplica (answer : Moment → Value) :
    Effect.Keeps Unaltered (askReplica answer) := by
  intro before outcome after run
  cases run
  exact ⟨⟨rfl, rfl⟩, rfl⟩

private theorem unaltered_nowMonoMillis : Effect.Keeps Unaltered nowMonoMillis := by
  intro before outcome after run
  cases run
  exact ⟨⟨rfl, rfl⟩, rfl⟩

private theorem unaltered_primaryLsn : Effect.Keeps Unaltered primaryLsn := by
  intro before outcome after run
  cases run
  exact ⟨⟨rfl, rfl⟩, rfl⟩

private theorem unaltered_get : Effect.Keeps Unaltered (Effect.get : DbM Db) := by
  intro before outcome after run
  cases run
  exact .refl _

private theorem unaltered_pure (value : Value) :
    Effect.Keeps Unaltered (pure value : DbM Value) :=
  Effect.keeps_pure Unaltered.refl value

private theorem unaltered_bind {first : DbM Value} {next : Value → DbM Result}
    (firstKeeps : Effect.Keeps Unaltered first)
    (nextKeeps : ∀ value, Effect.Keeps Unaltered (next value)) :
    Effect.Keeps Unaltered (first >>= next) :=
  firstKeeps.bind Unaltered.trans nextKeeps

private theorem unaltered_ite {first second : DbM Value} (condition : Prop)
    [Decidable condition] (firstKeeps : Effect.Keeps Unaltered first)
    (secondKeeps : Effect.Keeps Unaltered second) :
    Effect.Keeps Unaltered (if condition then first else second) := by
  split
  · exact firstKeeps
  · exact secondKeeps

private theorem unaltered_replicaFresh : Effect.Keeps Unaltered replicaFresh := by
  refine unaltered_bind unaltered_get fun config => ?_
  split
  · exact unaltered_pure _
  refine unaltered_bind (unaltered_askReplica _) ?_
  rintro (_ | _ | _)
  · exact unaltered_pure _
  · exact unaltered_pure _
  refine unaltered_bind unaltered_primaryLsn fun primary => ?_
  refine unaltered_bind (unaltered_askReplica _) fun replayed => ?_
  split <;> exact unaltered_pure _

private theorem unaltered_replicaFreshCached :
    Effect.Keeps Unaltered replicaFreshCached := by
  refine unaltered_bind unaltered_nowMonoMillis fun now => ?_
  refine unaltered_bind unaltered_get fun db => ?_
  apply unaltered_ite
  · exact unaltered_pure _
  refine unaltered_bind unaltered_replicaFresh fun fresh => ?_
  refine unaltered_bind ?_ fun _ => unaltered_pure _
  intro before outcome after run
  cases run
  exact ⟨⟨rfl, rfl⟩, rfl⟩

theorem replicaState_atomic :
    Atomic before replicaState (fun _ tables => tables = before.tables ∧ True) True := by
  apply atomic_of_unaltered
  refine unaltered_bind unaltered_get fun db => ?_
  split
  · exact unaltered_pure _
  · exact unaltered_bind unaltered_replicaFreshCached fun _ => unaltered_pure _

private theorem replicaServes_atomic :
    Atomic before replicaServes (fun serves tables => tables = before.tables ∧
      (before.replica = false → serves = false)) True := by
  refine Atomic.bind_read (fun config => config = before) (atomic_get ⟨rfl, rfl⟩) ?_
  rintro config started _ same rfl
  cases alone : config.replica with
  | false => exact atomic_pure ⟨same, fun _ => rfl⟩
  | true =>
      refine (atomic_of_unaltered unaltered_replicaFreshCached).imp ?_ id
      rintro serves tables ⟨equal, _⟩
      exact ⟨equal.trans same, fun contrary => by cases contrary⟩

private theorem queryReplica_atomic {what : Message} {read : Tables → Value} :
    Atomic before (queryReplica what read)
      (fun _ tables => tables = before.tables ∧ True) True := by
  apply atomic_of_unaltered
  refine unaltered_bind (unaltered_askReplica _) ?_
  rintro (_ | standby)
  · exact Effect.keeps_raise Unaltered.refl _
  · exact unaltered_pure _

private theorem ofExcept_atomic (value : Except DbError Value) :
    Atomic before (ofExcept value)
      (fun found tables => tables = before.tables ∧ value = .ok found) True := by
  cases value with
  | error failure => exact atomic_raise trivial
  | ok found => exact atomic_pure ⟨rfl, rfl⟩

/-! ## Attributes and listings -/

theorem getattr_atomic {parent name : Str} :
    Atomic before (getattr parent name)
      (fun found tables => tables = before.tables ∧
        (before.replica = false → before.tables.attributes ⟨parent, name⟩ = .ok found))
      True := by
  unfold getattr
  refine Atomic.bind_read _ replicaServes_atomic ?_
  intro serves started _ startedSame alone
  cases serves with
  | false =>
      simp only [Bool.false_eq_true, if_false]
      rw [← startedSame]
      exact getattrPrimary_atomic.imp
        (fun found tables known => ⟨known.1, fun _ => known.2⟩) fun _ => trivial
  | true =>
      simp only [if_true]
      have served : before.replica = false → False := fun none => by cases alone none
      refine Atomic.bind_read _ queryReplica_atomic ?_
      rintro (_ | row) answered _ answeredSame _
      · exact atomic_pure ⟨answeredSame.trans startedSame, fun none => (served none).elim⟩
      · refine Atomic.bind_pure _ ((ofExcept_atomic _).imp ?_ id)
        rintro fileMeta tables ⟨equal, _⟩
        exact ⟨equal.trans (answeredSame.trans startedSame), fun none => (served none).elim⟩

theorem names_rowsToMeta {rows : List (Str × EntryRow)} {children : List FileMeta}
    (converted : rowsToMeta rows = .ok children) :
    children.map (·.name) = rows.map (·.1) := by
  induction rows generalizing children with
  | nil =>
      cases converted
      rfl
  | cons head rest induction =>
      rcases head with ⟨name, row⟩
      unfold rowsToMeta at converted
      cases first : rowToMeta name row with
      | error failure =>
          rw [first] at converted
          cases converted
      | ok fileMeta =>
          cases later : rowsToMeta rest with
          | error failure =>
              rw [first, later] at converted
              cases converted
          | ok others =>
              rw [first, later] at converted
              cases converted
              simp [induction later, (rowToMeta_eq_ok_iff.mp first).1]

def Listed (tables : Tables) (parent : Str) (children : List FileMeta) : Prop :=
  ∀ child ∈ children, ∃ row, tables.entries.lookup ⟨parent, child.name⟩ = some row

private theorem listed_of_rowsToMeta {tables : Tables} {parent : Str}
    {children : List FileMeta} (converted : rowsToMeta (tables.children parent) = .ok children) :
    Listed tables parent children := by
  intro child member
  have named : child.name ∈ (tables.children parent).map (·.1) := by
    rw [← names_rowsToMeta converted]
    exact List.mem_map_of_mem member
  rcases List.mem_map.mp named with ⟨⟨name, row⟩, listed, equal⟩
  exact ⟨row, equal ▸ Tables.mem_children listed⟩

theorem listPrimary_atomic {parent : Str} :
    Atomic before (listPrimary parent)
      (fun children tables => tables = before.tables ∧
        Listed before.tables parent children) True := by
  refine Atomic.bind_read (fun rows => rows = before.tables.children parent)
    (query_atomic ⟨rfl, rfl⟩) ?_
  rintro _ read _ same rfl
  exact (ofExcept_atomic _).imp
    (fun children tables known => ⟨known.1.trans same, listed_of_rowsToMeta known.2⟩) id

theorem list_atomic {parent : Str} :
    Atomic before (list parent)
      (fun children tables => tables = before.tables ∧
        (before.replica = false → Listed before.tables parent children)) True := by
  unfold list
  refine Atomic.bind_read _ replicaServes_atomic ?_
  intro serves started _ startedSame alone
  cases serves with
  | false =>
      simp only [Bool.false_eq_true, if_false]
      rw [← startedSame]
      exact listPrimary_atomic.imp
        (fun children tables known => ⟨known.1, fun _ => known.2⟩) id
  | true =>
      simp only [if_true]
      have served : before.replica = false → False := fun none => by cases alone none
      refine Atomic.bind_read _ queryReplica_atomic ?_
      intro rows answered _ answeredSame _
      exact (ofExcept_atomic _).imp
        (fun children tables known => ⟨known.1.trans (answeredSame.trans startedSame),
          fun none => (served none).elim⟩) id

end Db

end Pgfs
