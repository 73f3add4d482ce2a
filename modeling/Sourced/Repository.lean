import Sourced.EventStore
import Sourced.SnapshotStore

/-!
# Repositories as programs

A call on a repository is a program over the atomic actions of what lies
below it: the per-id locks, the event store and the snapshot store. Each of
the latter two sits behind a read-write lock that an operation holds from
beginning to end, and a lock of `lock/in_memory.rs` behind a mutex, so these
are the steps between which other threads can move.

A type that implements the repository traits is a `Repo`: one program for
each trait method. `hashMapRepository` is `HashMapRepository`; wrappers such as
`QueuedRepository` are functions from a `Repo` to a `Repo`, and the typed
repositories are programs over any `Repo`.

`RepoAction.exec` is what the actions do in memory. A taken lock blocks; which
error a lock could return depends on the lock manager, and the in-memory one
returns none.
-/

/-- **The atomic actions** under a repository. -/
inductive RepoAction where
  /-- `Lock::lock` on the lock of an id. -/
  | lock (id : String)
  /-- `Lock::try_lock`. -/
  | tryLock (id : String)
  /-- `Lock::unlock`. -/
  | unlock (id : String)
  | getOne (id : String)
  | find (p : Entity → Bool)
  | findOne (p : Entity → Bool)
  | exists' (p : Entity → Bool)
  | count (p : Entity → Bool)
  | commit (es : List Entity)
  | getSnapshot (id : String)
  | saveSnapshot (record : SnapshotRecord)
  | deleteSnapshot (id : String)

/-- The response to an action. -/
@[reducible] def RepoAction.Resp : RepoAction → Type
  | .lock _ => Except LockError Unit
  | .tryLock _ => Except LockError Bool
  | .unlock _ => Except LockError Unit
  | .getOne _ => RepoRes (Option Entity)
  | .find _ => RepoRes (List Entity)
  | .findOne _ => RepoRes (Option Entity)
  | .exists' _ => RepoRes Bool
  | .count _ => RepoRes ℕ
  | .commit _ => RepoRes Unit × List Entity
  | .getSnapshot _ => RepoRes (Option SnapshotRecord)
  | .saveSnapshot _ => RepoRes Unit
  | .deleteSnapshot _ => RepoRes Bool

/-- A program of a repository. -/
abbrev RepoProg (α : Type) := Prog RepoAction RepoAction.Resp α

/-- The program of one repository action. -/
abbrev RepoProg.perform (a : RepoAction) : RepoProg a.Resp := Prog.perform a

/-- A fallible repository call. -/
abbrev Op (α : Type) := Call RepositoryError RepoAction RepoAction.Resp α

/-- **A repository**: a program for each method of the traits `GetOne`,
`GetMany`, `Find`, `FindOne`, `Exists`, `Count`, `Commit` and
`SnapshotStore`. A commit takes its entities by mutable reference and gives
them back with its outcome. -/
structure Repo where
  getOne : String → Op (Option Entity)
  getMany : List String → Op (List Entity)
  find : (Entity → Bool) → Op (List Entity)
  findOne : (Entity → Bool) → Op (Option Entity)
  exists' : (Entity → Bool) → Op Bool
  count : (Entity → Bool) → Op ℕ
  commit : List Entity → RepoProg (RepoRes Unit × List Entity)
  getSnapshot : String → Op (Option SnapshotRecord)
  saveSnapshot : SnapshotRecord → Op Unit
  deleteSnapshot : String → Op Bool

/-! ## `HashMapRepository` -/

namespace HashMapRepository

/-- `GetOne for HashMapRepository`. -/
def getOne (id : String) : Op (Option Entity) := RepoProg.perform (RepoAction.getOne id)

/-- `GetMany for HashMapRepository`: one point read after the other, the
missing ids left out. The lock is released between them. -/
def getMany : List String → Op (List Entity) :=
  Call.collect (fun id => do
    let entity ← getOne id
    return entity.toList)

end HashMapRepository

/-- **`HashMapRepository`.** -/
def hashMapRepository : Repo where
  getOne := HashMapRepository.getOne
  getMany := HashMapRepository.getMany
  find p := RepoProg.perform (RepoAction.find p)
  findOne p := RepoProg.perform (RepoAction.findOne p)
  exists' p := RepoProg.perform (RepoAction.exists' p)
  count p := RepoProg.perform (RepoAction.count p)
  commit es := RepoProg.perform (RepoAction.commit es)
  getSnapshot id := RepoProg.perform (RepoAction.getSnapshot id)
  saveSnapshot r := RepoProg.perform (RepoAction.saveSnapshot r)
  deleteSnapshot id := RepoProg.perform (RepoAction.deleteSnapshot id)

/-! ## The actions in memory -/

/-- **The shared state**: the two stores of a `HashMapRepository`, and the
flag of the lock of every id. A lock is made, released, when its id is first
asked for. -/
structure Shared where
  events : EventStore
  snapshots : SnapshotStore
  locked : String → Bool

namespace Shared

/-- An empty repository, with no lock taken. -/
def empty : Shared := ⟨EventStore.new, SnapshotStore.new, fun _ => false⟩

/-- A state with its events replaced. -/
def withEvents (s : Shared) (events : EventStore) : Shared := { s with events := events }

/-- A state with its snapshots replaced. -/
def withSnapshots (s : Shared) (snapshots : SnapshotStore) : Shared :=
  { s with snapshots := snapshots }

/-- A state with the flag of one lock set. -/
def setLocked (s : Shared) (id : String) (b : Bool) : Shared :=
  { s with locked := Function.update s.locked id b }

@[simp] theorem locked_setLocked_self (s : Shared) (id : String) (b : Bool) :
    (s.setLocked id b).locked id = b := Function.update_self _ _ _

theorem locked_setLocked (s : Shared) (id id' : String) (b : Bool) :
    (s.setLocked id b).locked id' = if id' = id then b else s.locked id' :=
  Function.update_apply _ _ _ _

@[simp] theorem events_setLocked (s : Shared) (id : String) (b : Bool) :
    (s.setLocked id b).events = s.events := rfl

@[simp] theorem snapshots_setLocked (s : Shared) (id : String) (b : Bool) :
    (s.setLocked id b).snapshots = s.snapshots := rfl

end Shared

/-- **What an action does in memory**, the map being iterated in the order
`ord`; `none` is a lock that is taken. -/
def RepoAction.exec (ord : List String) : (a : RepoAction) → Shared → Option (a.Resp × Shared)
  | .lock id, s => if s.locked id then none else some (.ok (), s.setLocked id true)
  | .tryLock id, s =>
    if s.locked id then some (.ok false, s) else some (.ok true, s.setLocked id true)
  | .unlock id, s => some (.ok (), s.setLocked id false)
  | .getOne id, s => some (s.events.getOne id, s)
  | .find p, s => some (s.events.find ord p, s)
  | .findOne p, s => some (s.events.findOne ord p, s)
  | .exists' p, s => some (s.events.exists' ord p, s)
  | .count p, s => some (s.events.count ord p, s)
  | .commit es, s =>
    let (r, es', events) := s.events.commit es
    some ((r, es'), s.withEvents events)
  | .getSnapshot id, s => some (.ok (s.snapshots.getSnapshot id), s)
  | .saveSnapshot r, s => some (.ok (), s.withSnapshots (s.snapshots.saveSnapshot r))
  | .deleteSnapshot id, s =>
    let (b, snapshots) := s.snapshots.deleteSnapshot id
    some (.ok b, s.withSnapshots snapshots)

/-- **An action in memory**, under some order of iteration of the map as it
is. -/
def RepoAction.Sem (a : RepoAction) (s : Shared) (r : a.Resp) (s' : Shared) : Prop :=
  ∃ ord, s.events.Enumerates ord ∧ a.exec ord s = some (r, s')

namespace RepoAction

variable {s s' : Shared} {id : String}

theorem sem_iff_of_exec {a : RepoAction} {r : a.Resp} (o : Option (a.Resp × Shared))
    (h : ∀ ord, a.exec ord s = o) : a.Sem s r s' ↔ o = some (r, s') := by
  constructor
  · rintro ⟨ord, -, hexec⟩
    exact (h ord).symm.trans hexec
  · intro ho
    obtain ⟨ord, hord⟩ := s.events.exists_enumerates
    exact ⟨ord, hord, (h ord).trans ho⟩

theorem sem_lock {r : Except LockError Unit} :
    (lock id).Sem s r s' ↔ s.locked id = false ∧ r = .ok () ∧ s' = s.setLocked id true := by
  rw [sem_iff_of_exec (if s.locked id then none else some (Except.ok (), s.setLocked id true))
    (fun _ => rfl)]
  cases s.locked id <;> simp [eq_comm]

theorem sem_unlock {r : Except LockError Unit} :
    (unlock id).Sem s r s' ↔ r = .ok () ∧ s' = s.setLocked id false := by
  rw [sem_iff_of_exec _ (fun _ => rfl)]
  simp [eq_comm]

theorem sem_tryLock {r : Except LockError Bool} :
    (tryLock id).Sem s r s'
      ↔ s.locked id = true ∧ r = .ok false ∧ s' = s
        ∨ s.locked id = false ∧ r = .ok true ∧ s' = s.setLocked id true := by
  rw [sem_iff_of_exec (if s.locked id then some (Except.ok false, s)
    else some (Except.ok true, s.setLocked id true)) (fun _ => rfl)]
  cases s.locked id <;> simp [eq_comm]

theorem sem_getOne {r : RepoRes (Option Entity)} :
    (getOne id).Sem s r s' ↔ r = s.events.getOne id ∧ s' = s := by
  rw [sem_iff_of_exec _ (fun _ => rfl)]
  simp [eq_comm]

theorem sem_commit {es : List Entity} {r : RepoRes Unit × List Entity} :
    (commit es).Sem s r s'
      ↔ r = ((s.events.commit es).1, (s.events.commit es).2.1)
        ∧ s' = s.withEvents (s.events.commit es).2.2 := by
  rw [sem_iff_of_exec (some (((s.events.commit es).1, (s.events.commit es).2.1),
    s.withEvents (s.events.commit es).2.2)) (fun _ => rfl)]
  simp [eq_comm]

theorem sem_getSnapshot {r : RepoRes (Option SnapshotRecord)} :
    (getSnapshot id).Sem s r s' ↔ r = .ok (s.snapshots.getSnapshot id) ∧ s' = s := by
  rw [sem_iff_of_exec _ (fun _ => rfl)]
  simp [eq_comm]

theorem sem_saveSnapshot {record : SnapshotRecord} {r : RepoRes Unit} :
    (saveSnapshot record).Sem s r s'
      ↔ r = .ok () ∧ s' = s.withSnapshots (s.snapshots.saveSnapshot record) := by
  rw [sem_iff_of_exec _ (fun _ => rfl)]
  simp [eq_comm]

theorem sem_deleteSnapshot {r : RepoRes Bool} :
    (deleteSnapshot id).Sem s r s'
      ↔ r = .ok (s.snapshots.deleteSnapshot id).1
        ∧ s' = s.withSnapshots (s.snapshots.deleteSnapshot id).2 := by
  rw [sem_iff_of_exec (some (Except.ok (s.snapshots.deleteSnapshot id).1,
    s.withSnapshots (s.snapshots.deleteSnapshot id).2)) (fun _ => rfl)]
  simp [eq_comm]

/-- The id of the lock an action is on. -/
def lockId : RepoAction → Option String
  | .lock id | .tryLock id | .unlock id => some id
  | _ => none

/-- **The other actions leave the locks as they are.** -/
theorem locked_of_sem {a : RepoAction} {r : a.Resp} (h : a.Sem s r s') (ha : a.lockId = none) :
    s'.locked = s.locked := by
  obtain ⟨ord, -, hexec⟩ := h
  cases a with
  | lock => cases ha
  | tryLock => cases ha
  | unlock => cases ha
  | _ => exact (congrArg (fun rs => rs.2.locked) (Option.some.inj hexec)).symm

/-- Whether an action is on what is stored and not only a read or on a lock. -/
def writes : RepoAction → Bool
  | .commit _ | .saveSnapshot _ | .deleteSnapshot _ => true
  | _ => false

/-- **Reads and locks leave the stores as they are.** -/
theorem stores_of_sem {a : RepoAction} {r : a.Resp} (h : a.Sem s r s') (ha : a.writes = false) :
    s'.events = s.events ∧ s'.snapshots = s.snapshots := by
  cases a with
  | commit => cases ha
  | saveSnapshot => cases ha
  | deleteSnapshot => cases ha
  | lock =>
    obtain ⟨-, -, rfl⟩ := sem_lock.mp h
    exact ⟨rfl, rfl⟩
  | tryLock => rcases sem_tryLock.mp h with ⟨-, -, rfl⟩ | ⟨-, -, rfl⟩ <;> exact ⟨rfl, rfl⟩
  | _ =>
    obtain ⟨ord, -, hexec⟩ := h
    obtain ⟨-, rfl⟩ := Prod.mk.inj (Option.some.inj hexec)
    exact ⟨rfl, rfl⟩

end RepoAction

/-- **What an action does that does not iterate the map.** -/
def RepoAction.alone : (a : RepoAction) → Shared → Option (a.Resp × Shared)
  | .find _, _ | .findOne _, _ | .exists' _, _ | .count _, _ => none
  | a, s => a.exec [] s

theorem RepoAction.sem_of_alone (a : RepoAction) (s : Shared) (r : a.Resp) (s' : Shared)
    (h : a.alone s = some (r, s')) : a.Sem s r s' := by
  obtain ⟨ord, hord⟩ := s.events.exists_enumerates
  refine ⟨ord, hord, ?_⟩
  cases a with
  | find => cases h
  | findOne => cases h
  | exists' => cases h
  | count => cases h
  | _ => exact h

/-- Run a call alone, the map being iterated in the order `ord`. -/
abbrev Op.run {α : Type} (ord : List String) (p : Op α) (s : Shared) :
    Option (RepoRes α × Shared) :=
  Prog.run (RepoAction.exec ord) p s
