import Sourced.ReadModelStore
import Sourced.QueuedRepository

/-!
# `QueuedReadModelStore`

A wrapper that adds a lock per read model to a store (`read_model/queued.rs`), as
`QueuedRepository` does to a repository: `get_model` takes the lock of the model, a
write that succeeds releases it, and `unlock` releases a lock by type and id alone.
There is no read that does not lock but by the methods with options. `lock` waits until
the lock is free (`QueuedReadModelStore.run_lock`); that of `QueuedRepository` does not.

The lock of a model is named by its key, as the lock of an id is by the id.
-/

/-- **An atomic action** of a call on the store: taking a lock, releasing one, or a
call on the store inside. -/
inductive QueuedAction (F : ModelTypes) where
  | lock (key : String)
  | unlock (key : String)
  | inner (call : ReadModelCall F)

/-- The response to an action. -/
@[reducible] def QueuedAction.Resp {F : ModelTypes} : QueuedAction F → Type
  | .lock _ => Except LockError Unit
  | .unlock _ => Except LockError Unit
  | .inner call => call.Resp

/-- A fallible call on the store. -/
abbrev QueuedCall (F : ModelTypes) (α : Type) :=
  Call ReadModelError (QueuedAction F) QueuedAction.Resp α

namespace QueuedReadModelStore

variable {F : ModelTypes} {α : Type}

/-- `make_key`. -/
def makeKey (collection id : String) : String := collection ++ ":" ++ id

/-- A lock error, as `?` converts it. -/
def lockErr : Except LockError α → Res ReadModelError α
  | .ok x => .ok x
  | .error e => .error (.err (.lock e))

/-- `self.ensure_lock(&key)?` and `lock.lock()?`. -/
def acquire (key : String) : QueuedCall F Unit :=
  Prog.act (QueuedAction.lock key) (fun r => Prog.ret (lockErr r))

/-- `self.ensure_lock(&key)?` and `lock.unlock()?`. -/
def unlockKey (key : String) : QueuedCall F Unit :=
  Prog.act (QueuedAction.unlock key) (fun r => Prog.ret (lockErr r))

/-- `release`, whose errors are ignored. -/
def release (key : String) : QueuedCall F Unit :=
  Prog.act (QueuedAction.unlock key) (fun _ => Prog.ret (.ok ()))

/-- **A call that releases a lock if it succeeds.** -/
def releasing (key : String) (p : QueuedCall F α) : QueuedCall F α := do
  let x ← p
  release key
  return x

/-- A call on the store inside. -/
def inner (call : ReadModelCall F) : Prog (QueuedAction F) QueuedAction.Resp call.Resp :=
  Prog.perform (QueuedAction.inner call)

/-- `lock_ids_in_order`. -/
def lockIdsInOrder (keys : List String) : QueuedCall F Unit :=
  Call.forEach acquire (QueuedRepository.sortDedup keys)

variable (i : F.Index)

/-- The key of a model of the type. -/
def modelKey (id : String) : String := makeKey (F.type i).collection id

/-- **`lock`.** -/
def lock (id : String) : QueuedCall F Unit := acquire (modelKey i id)

/-- **`unlock`.** -/
def unlock (id : String) : QueuedCall F Unit := unlockKey (modelKey i id)

/-- `abort`. -/
def abort (id : String) : QueuedCall F Unit := unlock i id

/-- **`get_model`.** -/
def getModel (id : String) : QueuedCall F (Option (Versioned (F.Model i))) := do
  acquire (modelKey i id)
  inner (.getModel i id)

/-- **`upsert`.** -/
def upsert (model : F.Model i) : QueuedCall F (Versioned (F.Model i)) :=
  releasing (modelKey i ((F.type i).id model)) (inner (.upsert i model))

/-- **`insert`.** -/
def insert (model : F.Model i) : QueuedCall F (Versioned (F.Model i)) :=
  releasing (modelKey i ((F.type i).id model)) (inner (.insert i model))

/-- **`update`.** -/
def update (model : F.Model i) (expectedVersion : ℕ) : QueuedCall F (Versioned (F.Model i)) :=
  releasing (modelKey i ((F.type i).id model)) (inner (.update i model expectedVersion))

/-- **`delete`.** -/
def delete (id : String) : QueuedCall F Bool :=
  releasing (modelKey i id) (inner (.delete i id))

/-- **`upsert_raw`.** -/
def upsertRaw (key : String) (bytes : Bytes) : QueuedCall F Unit :=
  releasing key (inner (.upsertRaw key bytes))

variable (predicate : F.Model i → Bool)

/-- The third phase of `find_models`: the matches read again with the locks held; the
lock of one that is gone, or matches no longer, is released. -/
def refetch : List (Versioned (F.Model i)) → QueuedCall F (List (Versioned (F.Model i))) :=
  Call.collect (fun versioned => do
    let current ← (inner (.getModel i ((F.type i).id versioned.data)) :
      QueuedCall F (Option (Versioned (F.Model i))))
    match current with
    | some current =>
      if predicate current.data then
        return [current]
      release (modelKey i ((F.type i).id versioned.data))
      return []
    | none =>
      release (modelKey i ((F.type i).id versioned.data))
      return [])

/-- **`find_models`**: search without locks, lock the matches, read them again. -/
def findModels : QueuedCall F (List (Versioned (F.Model i))) := do
  let found ← (inner (.findModels i predicate) : QueuedCall F (List (Versioned (F.Model i))))
  lockIdsInOrder (found.map (fun v => modelKey i ((F.type i).id v.data)))
  refetch i predicate found

/-- **`find_one_model`.** -/
def findOneModel : QueuedCall F (Option (Versioned (F.Model i))) := do
  let some versioned ← (inner (.findOneModel i predicate) :
    QueuedCall F (Option (Versioned (F.Model i)))) | return none
  acquire (modelKey i ((F.type i).id versioned.data))
  let current ← (inner (.getModel i ((F.type i).id versioned.data)) :
    QueuedCall F (Option (Versioned (F.Model i))))
  if current.any (fun v => predicate v.data) then
    return current
  -- the model no longer matches
  unlockKey (modelKey i ((F.type i).id versioned.data))
  return none

/-- `get_model_with`. -/
def getModelWith (id : String) (opts : ReadOpts) : QueuedCall F (Option (Versioned (F.Model i))) :=
  if opts.lock then getModel i id else inner (.getModel i id)

/-- `find_models_with`. -/
def findModelsWith (opts : ReadOpts) : QueuedCall F (List (Versioned (F.Model i))) :=
  if opts.lock then findModels i predicate else inner (.findModels i predicate)

/-- `find_one_model_with`. -/
def findOneModelWith (opts : ReadOpts) : QueuedCall F (Option (Versioned (F.Model i))) :=
  if opts.lock then findOneModel i predicate else inner (.findOneModel i predicate)

end QueuedReadModelStore

/-! ## The actions in memory -/

/-- **The shared state**: the models, and the flag of the lock of every key. -/
structure QueuedModels where
  models : InMemoryReadModelStore
  locked : String → Bool

namespace QueuedAction

variable {F : ModelTypes}

/-- **What an action does in memory**, the map being iterated in the order `ord`; `none`
is a lock that is taken. -/
def exec (checks : OverflowChecks) (ord : List String) :
    (a : QueuedAction F) → QueuedModels → Option (a.Resp × QueuedModels)
  | .lock key, s =>
    if s.locked key then none
    else some (.ok (), { s with locked := Function.update s.locked key true })
  | .unlock key, s => some (.ok (), { s with locked := Function.update s.locked key false })
  | .inner call, s =>
    let (r, models) := call.exec checks ord s.models
    some (r, { s with models := models })

/-- **An action in memory**, under some order of iteration of the map as it is. -/
def Sem (checks : OverflowChecks) (a : QueuedAction F) (s : QueuedModels) (r : a.Resp)
    (s' : QueuedModels) : Prop :=
  ∃ ord, s.models.Enumerates ord ∧ a.exec checks ord s = some (r, s')

variable {checks : OverflowChecks} {s s' : QueuedModels} {key : String}

/-- What an action does that does not iterate the map. -/
def alone (checks : OverflowChecks) : (a : QueuedAction F) → QueuedModels → Option (a.Resp × QueuedModels)
  | .inner (.findModels _ _), _ | .inner (.findOneModel _ _), _ => none
  | a, s => a.exec checks [] s

theorem sem_of_alone {a : QueuedAction F} {r : a.Resp} (h : a.alone checks s = some (r, s')) :
    a.Sem checks s r s' := by
  obtain ⟨ord, hord⟩ := s.models.exists_enumerates
  refine ⟨ord, hord, ?_⟩
  cases a with
  | lock | unlock => exact h
  | inner call => cases call <;> first | exact h | cases h

theorem sem_lock {r : Except LockError Unit} (h : (lock (F := F) key).Sem checks s r s') :
    s.locked key = false ∧ r = .ok () ∧ s' = { s with locked := Function.update s.locked key true } := by
  obtain ⟨ord, -, hexec⟩ := h
  rw [exec] at hexec
  cases hlocked : s.locked key with
  | true =>
    rw [hlocked, if_pos rfl] at hexec
    cases hexec
  | false =>
    rw [hlocked, if_neg Bool.false_ne_true] at hexec
    obtain ⟨rfl, rfl⟩ := Prod.mk.inj (Option.some.inj hexec)
    exact ⟨rfl, rfl, rfl⟩

theorem sem_unlock {r : Except LockError Unit} (h : (unlock (F := F) key).Sem checks s r s') :
    r = .ok () ∧ s' = { s with locked := Function.update s.locked key false } := by
  obtain ⟨ord, -, hexec⟩ := h
  obtain ⟨rfl, rfl⟩ := Prod.mk.inj (Option.some.inj hexec)
  exact ⟨rfl, rfl⟩

theorem sem_inner {call : ReadModelCall F} {r : call.Resp} (h : (inner call).Sem checks s r s') :
    ∃ ord, s.models.Enumerates ord ∧ call.exec checks ord s.models = (r, s'.models)
      ∧ s'.locked = s.locked := by
  obtain ⟨ord, hord, hexec⟩ := h
  obtain ⟨hr, rfl⟩ := Prod.mk.inj (Option.some.inj hexec)
  exact ⟨ord, hord, Prod.ext hr rfl, rfl⟩

end QueuedAction

/-! ## Locks taken by hand, reads without, and writes of bytes -/

namespace QueuedReadModelStore

variable {F : ModelTypes} (checks : OverflowChecks) (ord : List String) (s : QueuedModels)
  (i : F.Index)

/-- **`lock` waits** while the lock is taken, and then takes it. -/
theorem run_lock (id : String) :
    (lock i id).run (QueuedAction.exec checks ord) s
      = if s.locked (modelKey i id) then none
        else some (.ok (), { s with locked := Function.update s.locked (modelKey i id) true }) := by
  show (QueuedAction.exec checks ord (.lock (modelKey i id)) s).bind _ = _
  rw [QueuedAction.exec]
  by_cases hlocked : s.locked (modelKey i id) = true
  · rw [if_pos hlocked, if_pos hlocked]
    rfl
  · rw [if_neg hlocked, if_neg hlocked]
    rfl

/-- **`get_model` is `lock` and a read without it.** -/
theorem getModel_eq (id : String) :
    getModel i id = (lock i id).andThen (fun _ => getModelWith i id ReadOpts.noLock) := rfl

/-- **A read without locks** waits for none, takes none, and changes nothing. -/
theorem run_noLock (id : String) (predicate : F.Model i → Bool) :
    (∃ r, (getModelWith i id ReadOpts.noLock).run (QueuedAction.exec checks ord) s = some (r, s))
      ∧ (∃ r, (findModelsWith i predicate ReadOpts.noLock).run (QueuedAction.exec checks ord) s
        = some (r, s))
      ∧ ∃ r, (findOneModelWith i predicate ReadOpts.noLock).run (QueuedAction.exec checks ord) s
        = some (r, s) :=
  ⟨⟨_, rfl⟩, ⟨_, rfl⟩, _, rfl⟩

/-- A call that releases a lock if it succeeds, run. -/
theorem run_releasing {α : Type} (key : String) (p : QueuedCall F α) :
    (releasing key p).run (QueuedAction.exec checks ord) s
      = (p.run (QueuedAction.exec checks ord) s).map (fun x =>
          (x.1, if x.1.toBool then { x.2 with locked := Function.update x.2.locked key false } else x.2)) := by
  rw [releasing, Call.bind_eq, Call.run_andThen]
  cases hp : p.run (QueuedAction.exec checks ord) s with
  | none => rfl
  | some x =>
    obtain ⟨r, s'⟩ := x
    cases r with
    | error f => rfl
    | ok x => rfl

/-- **A write of bytes** does to the store what the write of a model does that is serialized to
them. -/
theorem run_upsertRaw {model : F.Model i} {bytes : Bytes} (h : (F.type i).toVec model = .ok bytes) :
    (upsertRaw (modelKey i ((F.type i).id model)) bytes).run (QueuedAction.exec (F := F) checks ord) s
      = ((upsert i model).run (QueuedAction.exec checks ord) s).map
          (fun x => (x.1.map (fun _ => ()), x.2)) := by
  let saved := s.models.saveRaw checks (modelKey i ((F.type i).id model)) bytes
  have hraw : (inner (F := F) (.upsertRaw (modelKey i ((F.type i).id model)) bytes)).run
      (QueuedAction.exec checks ord) s = some (saved.1.map (fun _ => ()), { s with models := saved.2 }) := rfl
  have hmodel : (inner (.upsert i model)).run (QueuedAction.exec checks ord) s
      = some (saved.1.map (fun version => (⟨model, version⟩ : Versioned (F.Model i))),
          { s with models := saved.2 }) := by
    show some ((ReadModelStore.upsert (F.type i) checks model s.models).1, _) = _
    unfold ReadModelStore.upsert
    simp only [h]
    rfl
  rw [upsertRaw, upsert, run_releasing, run_releasing, hraw, hmodel]
  cases saved.1 <;> rfl

end QueuedReadModelStore
