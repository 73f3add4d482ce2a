import Sourced.AggregateRepository

/-!
# Snapshots

An aggregate that can capture its state as a snapshot is loaded from the
latest one and the events after it (`snapshot/repository.rs`). The snapshot
is saved after a commit, in a step of its own, when enough events have come
in since the last; and it is read after the entity, in a step of its own.
So the snapshot a load finds can be older than the entity or newer.
-/

/-- Whether arithmetic overflow is checked: it panics in a build with
overflow checks and wraps around in one without. -/
abbrev OverflowChecks := Bool

/-- `u64` addition; `none` is the panic. -/
def addU64 (checks : OverflowChecks) (a b : ℕ) : Option ℕ :=
  if a + b < 2 ^ 64 then some (a + b)
  else if checks then none
  else some ((a + b) % 2 ^ 64)

/-- **The `bitcode` codec at the type of the snapshots.** A value is refused where its own
`Serialize` refuses it. -/
structure SnapshotCodec (T : Type) where
  serialize : T → Except String Bytes
  deserialize : Bytes → Except String T

/-- Decoding undoes encoding, where that succeeds. -/
def SnapshotCodec.Lawful {T : Type} (c : SnapshotCodec T) : Prop :=
  ∀ x data, c.serialize x = .ok data → c.deserialize data = .ok x

/-- A codec that refuses nothing. -/
def Bitcode.snapshotCodec {T : Type} (c : Bitcode T) : SnapshotCodec T :=
  ⟨fun x => .ok (c.serialize x), c.deserialize⟩

/-- **An implementation of the trait `Snapshottable`** for the aggregates with
own fields `σ`: the type of the snapshots, with its codec. -/
structure Snapshottable (σ : Type) where
  Snapshot : Type
  codec : SnapshotCodec Snapshot
  /-- `create_snapshot`. -/
  createSnapshot : Agg σ → Snapshot
  /-- `restore_from_snapshot`. -/
  restoreFromSnapshot : Agg σ → Snapshot → Agg σ

variable {σ : Type}

/-- **The record of a snapshot** of an aggregate, or the error of its `bitcode::serialize`. -/
def Snapshottable.record (B : Snapshottable σ) (agg : Agg σ) : RepoRes SnapshotRecord :=
  match B.codec.serialize (B.createSnapshot agg) with
  | .ok data => .ok ⟨agg.entity.id, agg.entity.version, data⟩
  | .error e => .error (.err (.replay ("snapshot serialize: " ++ e)))

/-- A record has the aggregate's id and version, and its snapshot as data. -/
theorem Snapshottable.record_eq_ok {B : Snapshottable σ} {agg : Agg σ} {r : SnapshotRecord}
    (h : B.record agg = .ok r) :
    r.aggregateId = agg.entity.id ∧ r.version = agg.entity.version
      ∧ B.codec.serialize (B.createSnapshot agg) = .ok r.data := by
  unfold Snapshottable.record at h
  cases hdata : B.codec.serialize (B.createSnapshot agg) with
  | error e => simp [hdata] at h
  | ok data =>
    rw [hdata] at h
    obtain rfl := Except.ok.inj h
    exact ⟨rfl, rfl, rfl⟩

/-- **`hydrate_from_snapshot`.** -/
def Aggregate.hydrateFromSnapshot (A : Aggregate σ) (B : Snapshottable σ) (now : SystemTime)
    (entity : Entity) (snapshot : SnapshotRecord) : RepoRes (Agg σ) := do
  let agg : Agg σ :=
    { A.newEmpty with entity := entity.setSnapshotVersion snapshot.version }
  let snap ← match B.codec.deserialize snapshot.data with
    | .ok snap => .ok snap
    | .error e => .error (.err (.replay ("snapshot deserialize: " ++ e)))
  let agg := B.restoreFromSnapshot agg snap
  let postSnapshot := agg.entity.events.filter (fun e => decide (snapshot.version < e.sequence))
  let events ← A.upcast postSnapshot
  A.replay now events agg

namespace SnapshotAggregateRepository

variable (R : Repo) (A : Aggregate σ) (B : Snapshottable σ) (now : SystemTime)

/-- `hydrate_with_optional_snapshot`: a snapshot newer than the entity is not
used. -/
def hydrateWithOptionalSnapshot (entity : Entity) (snapshot : Option SnapshotRecord) :
    RepoRes (Agg σ) :=
  match snapshot with
  | some snap =>
    if snap.version ≤ entity.version then A.hydrateFromSnapshot B now entity snap
    else A.hydrate now entity
  | none => A.hydrate now entity

/-- The entity of a read of an id, hydrated with the snapshot stored for it. -/
def hydrateStored (id : String) (entity : Entity) : Op (Agg σ) := do
  let snapshot ← R.getSnapshot id
  Call.done (hydrateWithOptionalSnapshot A B now entity snapshot)

/-- In the loops the snapshot is that of the entity's id. -/
def hydrator : Hydrator σ := fun entity => hydrateStored R A B now entity.id entity

/-- `SnapshotAggregateRepository::get`. -/
def get (id : String) : Op (Option (Agg σ)) :=
  Hydrator.loadOne (hydrateStored R A B now id) (R.getOne id)

/-- `SnapshotAggregateRepository::get_all`. -/
def getAll (ids : List String) : Op (List (Agg σ)) :=
  (hydrator R A B now).loadAll (R.getMany ids)

/-- `maybe_snapshot`: the aggregate as the call leaves it. A snapshot that cannot be
serialized fails the call, as one that cannot be saved does. -/
def maybeSnapshot (checks : OverflowChecks) (frequency : ℕ) (agg : Agg σ) : Op (Agg σ) :=
  match addU64 checks agg.entity.snapshotVersion frequency with
  | none => Call.done (.error .panic)
  | some threshold =>
    if threshold ≤ agg.entity.version then do
      let record ← Call.done (B.record agg)
      R.saveSnapshot record
      return { agg with entity := agg.entity.setSnapshotVersion agg.entity.version }
    else return agg

/-- The loop of `commit_all` after the commit: a snapshot of each aggregate in
turn, to the first failure. The aggregates are given back either way. -/
def maybeSnapshotAll (checks : OverflowChecks) (frequency : ℕ) :
    List (Agg σ) → RepoProg (RepoRes Unit × List (Agg σ))
  | [] => Prog.ret (.ok (), [])
  | agg :: aggs =>
    (maybeSnapshot R B checks frequency agg).bind (fun r =>
      match r with
      | .ok agg' => (maybeSnapshotAll checks frequency aggs).map (fun (r, aggs') =>
          (r, agg' :: aggs'))
      | .error e => Prog.ret (.error e, agg :: aggs))

/-- A commit of aggregates together with other entities – the messages of an
outbox commit – and then the snapshots of the aggregates. -/
def commitWith (checks : OverflowChecks) (frequency : ℕ) (aggs : List (Agg σ))
    (others : List Entity) :
    RepoProg (RepoRes Unit × List (Agg σ) × List Entity) :=
  (AggregateRepository.commitWith R aggs others).bind (fun (r, aggs', others') =>
    match r with
    | .ok () => (maybeSnapshotAll R B checks frequency aggs').map (fun (r, aggs'') =>
        (r, aggs'', others'))
    | .error e => Prog.ret (.error e, aggs', others'))

/-- `SnapshotAggregateRepository::commit`. -/
def commit (checks : OverflowChecks) (frequency : ℕ) (agg : Agg σ) :
    RepoProg (RepoRes Unit × List (Agg σ) × List Entity) :=
  commitWith R B checks frequency [agg] []

/-- `SnapshotAggregateRepository::commit_all`. -/
def commitAll (checks : OverflowChecks) (frequency : ℕ) (aggs : List (Agg σ)) :
    RepoProg (RepoRes Unit × List (Agg σ) × List Entity) :=
  commitWith R B checks frequency aggs []

/-- `SnapshotOutboxCommit::commit`: the aggregate and an outbox message's
entity. -/
def outboxCommit (checks : OverflowChecks) (frequency : ℕ) (agg : Agg σ) (message : Entity) :
    RepoProg (RepoRes Unit × List (Agg σ) × List Entity) :=
  commitWith R B checks frequency [agg] [message]

/-! ## Searches -/

/-- `SnapshotAggregateRepository::find`. -/
def find (p : Agg σ → Bool) : Op (List (Agg σ)) := (hydrator R A B now).find R p

/-- `SnapshotAggregateRepository::find_one`. -/
def findOne (p : Agg σ → Bool) : Op (Option (Agg σ)) := (hydrator R A B now).findOne R p

/-- `SnapshotAggregateRepository::exists`. -/
def exists' (p : Agg σ → Bool) : Op Bool := (hydrator R A B now).exists' R p

/-- `SnapshotAggregateRepository::count`. -/
def count (p : Agg σ → Bool) : Op ℕ := (hydrator R A B now).count R p

/-! ## Reads without a lock -/

variable (R : RepoWithOpts)

/-- `SnapshotAggregateRepository::abort`. -/
def abort (agg : Agg σ) : Op Unit := R.unlock agg.entity.id

/-- `SnapshotAggregateRepository::peek`. -/
def peek (id : String) : Op (Option (Agg σ)) :=
  Hydrator.loadOne (hydrateStored R.toRepo A B now id) (R.getWith id ReadOpts.noLock)

/-- `SnapshotAggregateRepository::peek_all`. -/
def peekAll (ids : List String) : Op (List (Agg σ)) :=
  (hydrator R.toRepo A B now).loadAll (R.getAllWith ids ReadOpts.noLock)

end SnapshotAggregateRepository
