import Sourced.Repository
import Mathlib.Data.List.Sort
import Mathlib.Data.List.Destutter
import Mathlib.Data.String.Basic

/-!
# `QueuedRepository`

A wrapper that adds a lock per id to any repository
(`queued_repo/repository.rs`). A point read or a search takes the locks of
what it reads; a commit that succeeds releases the locks of what it wrote; and
`unlock` releases a lock by id alone. Nothing records who took a lock.

The lock of an id is the lock `get_lock` returns for it, always the same one,
so it is named by the id.
-/

/-- **`ReadOpts`.** -/
structure ReadOpts where
  lock : Bool
deriving DecidableEq

/-- `ReadOpts::no_lock`. -/
def ReadOpts.noLock : ReadOpts := ⟨false⟩

/-- A repository that also implements `GetWithOpts`, `GetAllWithOpts` and
`UnlockableRepository`. -/
structure RepoWithOpts extends Repo where
  getWith : String → ReadOpts → Op (Option Entity)
  getAllWith : List String → ReadOpts → Op (List Entity)
  unlock : String → Op Unit

namespace QueuedRepository

/-- A lock error, as the `?` of the repository methods converts it. -/
def lockErr {α : Type} : Except LockError α → RepoRes α
  | .ok x => .ok x
  | .error e => .error (.err (.lock e))

/-- `lock.lock()?` on the lock of an id. -/
def acquire (id : String) : Op Unit :=
  Prog.act (RepoAction.lock id) (fun r => Prog.ret (lockErr r))

/-- `lock.try_lock()?` on the lock of an id. -/
def tryAcquire (id : String) : Op Bool :=
  Prog.act (RepoAction.tryLock id) (fun r => Prog.ret (lockErr r))

/-- `lock.unlock()?` on the lock of an id. -/
def release (id : String) : Op Unit :=
  Prog.act (RepoAction.unlock id) (fun r => Prog.ret (lockErr r))

/-- `QueuedRepository::lock`: the lock is tried, and whether it was taken is
ignored. -/
def lock (id : String) : Op Unit := do
  let _ ← tryAcquire id
  return ()

/-- `QueuedRepository::unlock`. -/
def unlock (id : String) : Op Unit := release id

/-- `QueuedRepository::abort`. -/
def abort (id : String) : Op Unit := unlock id

/-- `sort_unstable` and `dedup`: the distinct ids in order. -/
def sortDedup (ids : List String) : List String :=
  (ids.insertionSort (· ≤ ·)).destutter (· ≠ ·)

/-- Take the locks of a list of ids in turn. -/
def acquireAll : List String → Op Unit := Call.forEach acquire

/-- Release the locks of a list of ids in turn, to the first that fails. -/
def releaseAll : List String → Op Unit := Call.forEach release

/-- `lock_ids_in_order`. -/
def lockIdsInOrder (ids : List String) : Op Unit := acquireAll (sortDedup ids)

variable (inner : Repo)

/-- `GetOne for QueuedRepository`. -/
def getOne (id : String) : Op (Option Entity) := do
  acquire id
  inner.getOne id

/-- `GetMany for QueuedRepository`. -/
def getMany (ids : List String) : Op (List Entity) := do
  lockIdsInOrder ids
  inner.getMany ids

/-- The third phase of `find`: the matches re-fetched one by one with the
locks held, and kept where they still match. -/
def refetch (p : Entity → Bool) : List String → Op (List Entity) :=
  Call.collect (fun id => do
    let entity ← inner.getOne id
    return entity.toList.filter p)

/-- `Find for QueuedRepository`: search without locks, lock the matches,
fetch them again. -/
def find (p : Entity → Bool) : Op (List Entity) := do
  let entities ← inner.find p
  let ids := entities.map Entity.id
  lockIdsInOrder ids
  refetch inner p ids

/-- `FindOne for QueuedRepository`. -/
def findOne (p : Entity → Bool) : Op (Option Entity) := do
  let some entity ← inner.findOne p | return none
  acquire entity.id
  let current ← inner.getOne entity.id
  if current.any p then
    return current
  -- the entity no longer matches
  release entity.id
  return none

/-- `Commit for QueuedRepository`: on success the locks of the batch are
released, one for each entity; a release that fails makes the call fail. -/
def commit (es : List Entity) : RepoProg (RepoRes Unit × List Entity) :=
  (inner.commit es).bind (fun (r, es') =>
    match r with
    | .ok () => (releaseAll (es.map Entity.id)).map (fun r' => (r', es'))
    | .error e => Prog.ret (.error e, es'))

/-- `GetWithOpts for QueuedRepository`. -/
def getWith (id : String) (opts : ReadOpts) : Op (Option Entity) :=
  if opts.lock then getOne inner id else inner.getOne id

/-- `GetAllWithOpts for QueuedRepository`. -/
def getAllWith (ids : List String) (opts : ReadOpts) : Op (List Entity) :=
  if opts.lock then getMany inner ids else inner.getMany ids

end QueuedRepository

/-- **`QueuedRepository`** over a repository: `Exists`, `Count` and the
snapshot store are the inner ones. -/
def queuedRepository (inner : Repo) : RepoWithOpts where
  getOne := QueuedRepository.getOne inner
  getMany := QueuedRepository.getMany inner
  find := QueuedRepository.find inner
  findOne := QueuedRepository.findOne inner
  exists' := inner.exists'
  count := inner.count
  commit := QueuedRepository.commit inner
  getSnapshot := inner.getSnapshot
  saveSnapshot := inner.saveSnapshot
  deleteSnapshot := inner.deleteSnapshot
  getWith := QueuedRepository.getWith inner
  getAllWith := QueuedRepository.getAllWith inner
  unlock := QueuedRepository.unlock

/-! ## The ids a list of requests locks -/

namespace QueuedRepository

/-- `dedup` keeps every element at least once. -/
theorem mem_destutter' {x a : String} {l : List String} (h : x ∈ a :: l) :
    x ∈ l.destutter' (· ≠ ·) a := by
  induction l generalizing a with
  | nil => simpa using h
  | cons b l ih =>
    by_cases hab : a = b
    · subst hab
      rw [List.destutter'_cons_neg l (not_not.mpr rfl)]
      exact ih (by simpa using h)
    · rw [List.destutter'_cons_pos l hab]
      rcases List.mem_cons.mp h with rfl | h
      · exact List.mem_cons_self
      · exact List.mem_cons_of_mem a (ih h)

/-- **The ids locked are those asked for.** -/
@[simp] theorem mem_sortDedup {ids : List String} {id : String} :
    id ∈ sortDedup ids ↔ id ∈ ids := by
  unfold sortDedup
  rw [← (List.perm_insertionSort (· ≤ ·) ids).mem_iff]
  refine ⟨fun h => (List.destutter_sublist _ _).mem h, fun h => ?_⟩
  cases hs : ids.insertionSort (· ≤ ·) with
  | nil => rw [hs] at h; cases h
  | cons a l =>
    rw [hs] at h
    exact mem_destutter' h

/-- **The ids are locked in increasing order, each once.** -/
theorem pairwise_sortDedup (ids : List String) : (sortDedup ids).Pairwise (· < ·) := by
  have hle : (sortDedup ids).Pairwise (· ≤ ·) :=
    (List.pairwise_insertionSort (· ≤ ·) ids).sublist (List.destutter_sublist _ _)
  have hne : (sortDedup ids).IsChain (· ≠ ·) := List.isChain_destutter _ _
  rw [← List.isChain_iff_pairwise, List.isChain_iff_getElem] at hle ⊢
  rw [List.isChain_iff_getElem] at hne
  exact fun i hi => lt_of_le_of_ne (hle i hi) (hne i hi)

theorem nodup_sortDedup (ids : List String) : (sortDedup ids).Nodup :=
  (pairwise_sortDedup ids).imp (fun h => ne_of_lt h)

end QueuedRepository
