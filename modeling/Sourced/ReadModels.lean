import Sourced.SnapshotRepository

/-!
# Read models

A read model is a serializable value with an id, stored as bytes under the
key `collection:id` (`read_model/mod.rs`, `read_model/in_memory.rs`). The
in-memory store keeps a version with each; of its operations this is the
type-erased write, the one a commit with read models uses.

The serializer `serde_json` is a crate of its own and a parameter here, as the
codec of payloads is.
-/

/-- The text of a lock error, its `Display`. -/
def LockError.display : LockError → String
  | .poisoned msg => "lock poisoned: " ++ msg
  | .acquireFailed msg => "lock acquire failed: " ++ msg
  | .releaseFailed msg => "lock release failed: " ++ msg
  | .expired msg => "lock expired: " ++ msg
  | .other msg => "lock error: " ++ msg

/-- **`ReadModelError`.** -/
inductive ReadModelError where
  | concurrencyConflict (collection id : String) (expected actual : ℕ)
  | serde (message : String)
  | storage (message : String)
  | notFound (collection id : String)
  | lock (e : LockError)
deriving DecidableEq, Repr

/-- The text of a read model error, its `Display`. -/
def ReadModelError.display : ReadModelError → String
  | .concurrencyConflict collection id expected actual =>
    "concurrency conflict on " ++ collection ++ ":" ++ id ++ " (expected version "
      ++ toString expected ++ ", actual " ++ toString actual ++ ")"
  | .serde msg => "read model serialization error: " ++ msg
  | .storage msg => "read model storage error: " ++ msg
  | .notFound collection id => "read model not found: " ++ collection ++ ":" ++ id
  | .lock e => "read model lock error: " ++ e.display

/-- `From<ReadModelError> for RepositoryError`. -/
def RepositoryError.ofReadModel (e : ReadModelError) : RepositoryError := .model e.display

/-- **An implementation of the trait `ReadModel`** for the type `M`, with its
serializer. -/
structure ReadModel (M : Type) where
  /-- `COLLECTION`. -/
  collection : String
  id : M → String
  /-- `serde_json::to_vec`. -/
  toVec : M → Except String Bytes

/-- The key of a read model, `make_key`. -/
def ReadModel.key {M : Type} (V : ReadModel M) (model : M) : String :=
  V.collection ++ ":" ++ V.id model

/-- `StoredModel`. -/
structure StoredModel where
  bytes : Bytes
  version : ℕ
deriving DecidableEq

/-- **`InMemoryReadModelStore`**: the models by key, and whether the lock is
poisoned. -/
structure InMemoryReadModelStore where
  storage : Finmap (fun _ : String => StoredModel)
  poisoned : Bool

namespace InMemoryReadModelStore

/-- `InMemoryReadModelStore::new`. -/
def new : InMemoryReadModelStore := ⟨∅, false⟩

/-- `storage.get(key)`. -/
def lookup (s : InMemoryReadModelStore) (key : String) : Option StoredModel :=
  s.storage.lookup key

/-- `storage.insert(key, stored)`. -/
def insert (s : InMemoryReadModelStore) (key : String) (stored : StoredModel) :
    InMemoryReadModelStore :=
  { s with storage := s.storage.insert key stored }

/-- The version the next write of a key gets; `none` is the panic of the
addition. -/
def nextVersion (checks : OverflowChecks) (s : InMemoryReadModelStore) (key : String) : Option ℕ :=
  match s.lookup key with
  | some stored => addU64 checks stored.version 1
  | none => some 1

/-- `save_raw`: the version written. The addition is made with the write lock
held, so its panic poisons it. -/
def saveRaw (checks : OverflowChecks) (s : InMemoryReadModelStore) (key : String) (bytes : Bytes) :
    Res ReadModelError ℕ × InMemoryReadModelStore :=
  if s.poisoned then (.error (.err (.storage "lock poisoned")), s)
  else
    match s.nextVersion checks key with
    | none => (.error .panic, { s with poisoned := true })
    | some v => (.ok v, s.insert key ⟨bytes, v⟩)

/-- **`upsert_raw`.** -/
def upsertRaw (checks : OverflowChecks) (s : InMemoryReadModelStore) (key : String)
    (bytes : Bytes) : Res ReadModelError Unit × InMemoryReadModelStore :=
  let (r, s') := s.saveRaw checks key bytes
  (r.map (fun _ => ()), s')

/-- The bytes stored under a key. -/
def model (s : InMemoryReadModelStore) (key : String) : Option Bytes :=
  (s.lookup key).map StoredModel.bytes

variable {checks : OverflowChecks} {s s' : InMemoryReadModelStore} {key : String} {bytes : Bytes}

@[simp] theorem poisoned_insert (s : InMemoryReadModelStore) (key : String) (stored : StoredModel) :
    (s.insert key stored).poisoned = s.poisoned := rfl

/-- After an insertion the key has what was inserted, and every other key what
it had. -/
theorem model_insert (s : InMemoryReadModelStore) (key : String) (stored : StoredModel) :
    (s.insert key stored).model = Function.update s.model key (some stored.bytes) := by
  funext k
  unfold model lookup insert
  by_cases hk : k = key
  · subst hk
    rw [Function.update_self, Finmap.lookup_insert]
    rfl
  · rw [Function.update_of_ne hk, Finmap.lookup_insert_of_ne _ hk]

theorem upsertRaw_eq (hp : s.poisoned = false) {v : ℕ} (hv : s.nextVersion checks key = some v)
    (bytes : Bytes) :
    s.upsertRaw checks key bytes = (.ok (), s.insert key ⟨bytes, v⟩) := by
  unfold upsertRaw saveRaw
  rw [hp, hv]
  rfl

/-- **What a write that succeeds does**: the bytes are those of the key, and every
other key has what it had. -/
theorem model_of_upsertRaw_ok (h : s.upsertRaw checks key bytes = (.ok (), s')) :
    s'.model = Function.update s.model key (some bytes) := by
  unfold upsertRaw saveRaw at h
  cases hp : s.poisoned with
  | true => rw [hp] at h; cases (Prod.mk.inj h).1
  | false =>
    cases hv : s.nextVersion checks key with
    | none => rw [hp, hv] at h; cases (Prod.mk.inj h).1
    | some v =>
      rw [hp, hv] at h
      obtain rfl := (Prod.mk.inj h).2
      exact model_insert s key ⟨bytes, v⟩

theorem eq_of_upsertRaw_err {e : ReadModelError}
    (h : s.upsertRaw checks key bytes = (.error (.err e), s')) : s' = s := by
  unfold upsertRaw saveRaw at h
  cases hp : s.poisoned with
  | true =>
    rw [hp] at h
    exact (Prod.mk.inj h).2.symm
  | false => cases hv : s.nextVersion checks key <;> rw [hp, hv] at h <;> cases (Prod.mk.inj h).1

end InMemoryReadModelStore
