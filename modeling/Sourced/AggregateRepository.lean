import Sourced.Aggregate
import Sourced.QueuedRepository

/-!
# `AggregateRepository`

Typed access to the aggregates of one kind (`aggregate/aggregate.rs`): every
read of the wrapped repository is followed by hydration, and every commit is
of the aggregates' entities.

The searches ask the wrapped repository for *every* entity and filter the
aggregates afterwards, since a predicate on aggregates cannot be evaluated
below. They stop at the first entity that does not hydrate, and `find_one` at
the first aggregate that matches.

The repository with snapshots repeats all this with another way to make an
aggregate of an entity. The loops are therefore stated once, for any
`Hydrator`.
-/

variable {σ : Type}

/-- **A way to make an aggregate of an entity.** -/
abbrev Hydrator (σ : Type) := Entity → Op (Agg σ)

namespace Hydrator

variable (f : Hydrator σ)

/-- The entity of a read, if there is one, made an aggregate. -/
def loadOne (read : Op (Option Entity)) : Op (Option (Agg σ)) := do
  let some entity ← read | return none
  let agg ← f entity
  return some agg

/-- The entities of a read made aggregates in turn, to the first failure. -/
def loadAll (read : Op (List Entity)) : Op (List (Agg σ)) := do
  let entities ← read
  Call.collect (fun entity => do
    let agg ← f entity
    return [agg]) entities

/-- The loop of `find`: every entity is made an aggregate, to the first failure,
and those that match are kept. -/
def filter (p : Agg σ → Bool) : List Entity → Op (List (Agg σ)) :=
  Call.collect (fun entity => do
    let agg ← f entity
    return [agg].filter p)

/-- The loop of `find_one`: entities are made aggregates, to the first that
matches or fails. -/
def first (p : Agg σ → Bool) : List Entity → Op (Option (Agg σ))
  | [] => pure none
  | entity :: entities => do
    let agg ← f entity
    if p agg then return some agg
    first p entities

variable (R : Repo)

/-- `find`. -/
def find (p : Agg σ → Bool) : Op (List (Agg σ)) := do
  let entities ← R.find (fun _ => true)
  f.filter p entities

/-- `find_one`. -/
def findOne (p : Agg σ → Bool) : Op (Option (Agg σ)) := do
  let entities ← R.find (fun _ => true)
  f.first p entities

/-- `exists`. -/
def exists' (p : Agg σ → Bool) : Op Bool := do
  let agg ← f.findOne R p
  return agg.isSome

/-- `count`. -/
def count (p : Agg σ → Bool) : Op ℕ := do
  let aggs ← f.find R p
  return aggs.length

end Hydrator

namespace AggregateRepository

variable (R : Repo) (A : Aggregate σ) (now : SystemTime)

/-- Aggregates are made by `hydrate`. -/
def hydrator : Hydrator σ := fun entity => Call.done (A.hydrate now entity)

/-- `AggregateRepository::get`. -/
def get (id : String) : Op (Option (Agg σ)) := (hydrator A now).loadOne (R.getOne id)

/-- `AggregateRepository::get_all`. -/
def getAll (ids : List String) : Op (List (Agg σ)) := (hydrator A now).loadAll (R.getMany ids)

/-- A commit of the entities of aggregates, together with other entities: the
outcome, and all of them as the call leaves them. -/
def commitWith (aggs : List (Agg σ)) (others : List Entity) :
    RepoProg (RepoRes Unit × List (Agg σ) × List Entity) :=
  (R.commit (aggs.map Agg.entity ++ others)).map (fun (r, es) =>
    (r, List.zipWith (fun agg e => { agg with entity := e }) aggs es, es.drop aggs.length))

theorem zipWith_entity (aggs : List (Agg σ)) (others : List Entity) (g : Entity → Entity) :
    List.zipWith (fun agg e => { agg with entity := e }) aggs
        ((aggs.map Agg.entity ++ others).map g)
      = aggs.map (fun a => { a with entity := g a.entity }) := by
  induction aggs with
  | nil => rfl
  | cons a aggs ih => exact congrArg (_ :: ·) ih

theorem drop_entity (aggs : List (Agg σ)) (others : List Entity) (g : Entity → Entity) :
    ((aggs.map Agg.entity ++ others).map g).drop aggs.length = others.map g := by
  rw [List.map_append]
  exact List.drop_left' (by simp)

/-- `AggregateRepository::commit`. -/
def commit (agg : Agg σ) : RepoProg (RepoRes Unit × List (Agg σ) × List Entity) :=
  commitWith R [agg] []

/-- `AggregateRepository::commit_all`. -/
def commitAll (aggs : List (Agg σ)) : RepoProg (RepoRes Unit × List (Agg σ) × List Entity) :=
  commitWith R aggs []

/-- `OutboxCommit::commit`: the aggregate and an outbox message's entity. -/
def outboxCommit (agg : Agg σ) (message : Entity) :
    RepoProg (RepoRes Unit × List (Agg σ) × List Entity) :=
  commitWith R [agg] [message]

/-- `AggregateRepository::find`. -/
def find (p : Agg σ → Bool) : Op (List (Agg σ)) := (hydrator A now).find R p

/-- `AggregateRepository::find_one`. -/
def findOne (p : Agg σ → Bool) : Op (Option (Agg σ)) := (hydrator A now).findOne R p

/-- `AggregateRepository::exists`. -/
def exists' (p : Agg σ → Bool) : Op Bool := (hydrator A now).exists' R p

/-- `AggregateRepository::count`. -/
def count (p : Agg σ → Bool) : Op ℕ := (hydrator A now).count R p

variable (R : RepoWithOpts)

/-- `AggregateRepository::abort`. -/
def abort (agg : Agg σ) : Op Unit := R.unlock agg.entity.id

/-- `AggregateRepository::get_with`. -/
def getWith (id : String) (opts : ReadOpts) : Op (Option (Agg σ)) :=
  (hydrator A now).loadOne (R.getWith id opts)

/-- `AggregateRepository::peek`. -/
def peek (id : String) : Op (Option (Agg σ)) := getWith A now R id ReadOpts.noLock

/-- `AggregateRepository::get_all_with`. -/
def getAllWith (ids : List String) (opts : ReadOpts) : Op (List (Agg σ)) :=
  (hydrator A now).loadAll (R.getAllWith ids opts)

/-- `AggregateRepository::peek_all`. -/
def peekAll (ids : List String) : Op (List (Agg σ)) :=
  getAllWith A now R ids ReadOpts.noLock

end AggregateRepository
