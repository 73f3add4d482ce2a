import Sourced.ReadModels

/-!
# The in-memory read model store

The trait `ReadModelStore` for `InMemoryReadModelStore`
(`read_model/in_memory.rs`). Every operation holds the lock of the map from its
first look at it to its last, so each is one atomic step; serializing a model
comes before.

A program has any number of read model types: `ModelTypes` is their family, and a
`ReadModelCall` a call at one of them. What a call can do to the map is said once,
in `ReadModelCall.changes`: nothing, or it poisons the lock, or it writes one key at
the next version, or it removes one.
-/

/-- **`Versioned`.** -/
structure Versioned (M : Type) where
  data : M
  version : ℕ
deriving DecidableEq

/-- **An implementation of `ReadModel`** with both directions of its serializer. -/
structure ReadModelType (M : Type) extends ReadModel M where
  /-- `serde_json::from_slice`. -/
  fromSlice : Bytes → Except String M

namespace InMemoryReadModelStore

/-- `make_key`. -/
def makeKey (table id : String) : String := table ++ ":" ++ id

/-- `storage.remove(key)`. -/
def remove (s : InMemoryReadModelStore) (key : String) : InMemoryReadModelStore :=
  { s with storage := s.storage.erase key }

/-- **An order of iteration** of the map. -/
def Enumerates (s : InMemoryReadModelStore) (ord : List String) : Prop :=
  ord.Nodup ∧ ∀ key, key ∈ ord ↔ (s.lookup key).isSome

theorem exists_enumerates (s : InMemoryReadModelStore) : ∃ ord, s.Enumerates ord := by
  refine ⟨s.storage.keys.toList, Finset.nodup_toList _, fun key => ?_⟩
  rw [Finset.mem_toList, Finmap.mem_keys, lookup, Finmap.lookup_isSome]

@[simp] theorem poisoned_remove (s : InMemoryReadModelStore) (key : String) :
    (s.remove key).poisoned = s.poisoned := rfl

@[simp] theorem lookup_insert_self (s : InMemoryReadModelStore) (key : String) (stored : StoredModel) :
    (s.insert key stored).lookup key = some stored := Finmap.lookup_insert _

theorem lookup_insert_of_ne (s : InMemoryReadModelStore) {key key' : String} (h : key' ≠ key)
    (stored : StoredModel) : (s.insert key stored).lookup key' = s.lookup key' :=
  Finmap.lookup_insert_of_ne _ h

@[simp] theorem lookup_remove_self (s : InMemoryReadModelStore) (key : String) :
    (s.remove key).lookup key = none := Finmap.lookup_erase _ _

theorem lookup_remove_of_ne (s : InMemoryReadModelStore) {key key' : String} (h : key' ≠ key) :
    (s.remove key).lookup key' = s.lookup key' := Finmap.lookup_erase_ne h

end InMemoryReadModelStore

/-! ## The operations of the trait -/

namespace ReadModelStore

open InMemoryReadModelStore (makeKey)

variable {M : Type} (V : ReadModelType M) (checks : OverflowChecks)

/-- What is read of a stored model. -/
def decode (stored : Option StoredModel) : Res ReadModelError (Option (Versioned M)) :=
  match stored with
  | none => .ok none
  | some stored =>
    match V.fromSlice stored.bytes with
    | .ok data => .ok (some ⟨data, stored.version⟩)
    | .error e => .error (.err (.serde e))

/-- **`get_model`.** -/
def getModel (id : String) (s : InMemoryReadModelStore) :
    Res ReadModelError (Option (Versioned M)) :=
  if s.poisoned then .error (.err (.storage "lock poisoned"))
  else decode V (s.lookup (makeKey V.collection id))

/-- **`upsert`**, which writes as `save_raw` does. -/
def upsert (model : M) (s : InMemoryReadModelStore) :
    Res ReadModelError (Versioned M) × InMemoryReadModelStore :=
  match V.toVec model with
  | .error e => (.error (.err (.serde e)), s)
  | .ok bytes =>
    let (r, s') := s.saveRaw checks (makeKey V.collection (V.id model)) bytes
    (r.map (fun version => ⟨model, version⟩), s')

/-- **`insert`.** -/
def insert (model : M) (s : InMemoryReadModelStore) :
    Res ReadModelError (Versioned M) × InMemoryReadModelStore :=
  match V.toVec model with
  | .error e => (.error (.err (.serde e)), s)
  | .ok bytes =>
    if s.poisoned then (.error (.err (.storage "lock poisoned")), s)
    else
      match s.lookup (makeKey V.collection (V.id model)) with
      | some stored =>
        (.error (.err (.concurrencyConflict V.collection (V.id model) 0 stored.version)), s)
      | none => (.ok ⟨model, 1⟩, s.insert (makeKey V.collection (V.id model)) ⟨bytes, 1⟩)

/-- **`update`.** The addition is made with the write lock held. -/
def update (model : M) (expectedVersion : ℕ) (s : InMemoryReadModelStore) :
    Res ReadModelError (Versioned M) × InMemoryReadModelStore :=
  match V.toVec model with
  | .error e => (.error (.err (.serde e)), s)
  | .ok bytes =>
    if s.poisoned then (.error (.err (.storage "lock poisoned")), s)
    else
      match s.lookup (makeKey V.collection (V.id model)) with
      | none => (.error (.err (.notFound V.collection (V.id model))), s)
      | some stored =>
        if stored.version ≠ expectedVersion then
          (.error (.err
            (.concurrencyConflict V.collection (V.id model) expectedVersion stored.version)), s)
        else
          match addU64 checks stored.version 1 with
          | none => (.error .panic, { s with poisoned := true })
          | some version =>
            (.ok ⟨model, version⟩, s.insert (makeKey V.collection (V.id model)) ⟨bytes, version⟩)

/-- **`delete`.** -/
def delete (id : String) (s : InMemoryReadModelStore) :
    Res ReadModelError Bool × InMemoryReadModelStore :=
  if s.poisoned then (.error (.err (.storage "lock poisoned")), s)
  else
    (.ok (s.lookup (makeKey V.collection id)).isSome, s.remove (makeKey V.collection id))

/-- `key.starts_with(&prefix)`, of the prefix `"collection:"`. -/
def inCollection (key : String) : Bool := (V.collection ++ ":").toList.isPrefixOf key.toList

/-- A turn of the loop of the searches: the model under a key with the prefix, where
it is one of the type and matches. -/
def matching (predicate : M → Bool) (s : InMemoryReadModelStore) (key : String) :
    Option (Versioned M) :=
  if inCollection V key then
    match s.lookup key with
    | none => none
    | some stored =>
      match V.fromSlice stored.bytes with
      | .ok data => if predicate data then some ⟨data, stored.version⟩ else none
      | .error _ => none
  else none

/-- **`find_models`**, in an order of iteration. -/
def findModels (ord : List String) (predicate : M → Bool) (s : InMemoryReadModelStore) :
    Res ReadModelError (List (Versioned M)) :=
  if s.poisoned then .error (.err (.storage "lock poisoned"))
  else .ok (ord.filterMap (matching V predicate s))

/-- **`find_one_model`.** -/
def findOneModel (ord : List String) (predicate : M → Bool) (s : InMemoryReadModelStore) :
    Res ReadModelError (Option (Versioned M)) :=
  if s.poisoned then .error (.err (.storage "lock poisoned"))
  else .ok (ord.findSome? (matching V predicate s))

end ReadModelStore

/-! ## The calls of a program -/

/-- **The read model types of a program.** -/
structure ModelTypes where
  Index : Type
  Model : Index → Type
  type : ∀ i, ReadModelType (Model i)

/-- Switches, each the only model of its type: a type for every collection and id. -/
def ModelTypes.switches : ModelTypes where
  Index := String × String
  Model _ := Bool
  type i :=
    { collection := i.1
      id := fun _ => i.2
      toVec := fun on => .ok (if on then [116, 114, 117, 101] else [102, 97, 108, 115, 101])
      fromSlice := fun bytes =>
        if bytes = [116, 114, 117, 101] then .ok true
        else if bytes = [102, 97, 108, 115, 101] then .ok false
        else .error "invalid type" }

/-- **A call on the store**, at one of the types. `upsert_raw` is at none. -/
inductive ReadModelCall (F : ModelTypes) where
  | getModel (i : F.Index) (id : String)
  | upsert (i : F.Index) (model : F.Model i)
  | insert (i : F.Index) (model : F.Model i)
  | update (i : F.Index) (model : F.Model i) (expectedVersion : ℕ)
  | delete (i : F.Index) (id : String)
  | findModels (i : F.Index) (predicate : F.Model i → Bool)
  | findOneModel (i : F.Index) (predicate : F.Model i → Bool)
  | upsertRaw (key : String) (bytes : Bytes)

namespace ReadModelCall

variable {F : ModelTypes}

open InMemoryReadModelStore (makeKey)

/-- What a call returns. -/
@[reducible] def Resp : ReadModelCall F → Type
  | getModel i _ => Res ReadModelError (Option (Versioned (F.Model i)))
  | upsert i _ => Res ReadModelError (Versioned (F.Model i))
  | insert i _ => Res ReadModelError (Versioned (F.Model i))
  | update i _ _ => Res ReadModelError (Versioned (F.Model i))
  | delete _ _ => Res ReadModelError Bool
  | findModels i _ => Res ReadModelError (List (Versioned (F.Model i)))
  | findOneModel i _ => Res ReadModelError (Option (Versioned (F.Model i)))
  | upsertRaw _ _ => Res ReadModelError Unit

/-- **What a call does in memory**, the map being iterated in the order `ord`. -/
def exec (checks : OverflowChecks) (ord : List String) :
    (a : ReadModelCall F) → InMemoryReadModelStore → a.Resp × InMemoryReadModelStore
  | getModel i id, s => (ReadModelStore.getModel (F.type i) id s, s)
  | upsert i model, s => ReadModelStore.upsert (F.type i) checks model s
  | insert i model, s => ReadModelStore.insert (F.type i) model s
  | update i model expectedVersion, s =>
    ReadModelStore.update (F.type i) checks model expectedVersion s
  | delete i id, s => ReadModelStore.delete (F.type i) id s
  | findModels i predicate, s => (ReadModelStore.findModels (F.type i) ord predicate s, s)
  | findOneModel i predicate, s => (ReadModelStore.findOneModel (F.type i) ord predicate s, s)
  | upsertRaw key bytes, s => s.upsertRaw checks key bytes

/-- The key a call may write. -/
def writes : ReadModelCall F → Option String
  | upsert i model => some (makeKey (F.type i).collection ((F.type i).id model))
  | insert i model => some (makeKey (F.type i).collection ((F.type i).id model))
  | update i model _ => some (makeKey (F.type i).collection ((F.type i).id model))
  | upsertRaw key _ => some key
  | _ => none

/-- The key a call deletes. -/
def deletes : ReadModelCall F → Option String
  | delete i id => some (makeKey (F.type i).collection id)
  | _ => none

/-- Whether a call returned `Ok`. -/
def accepted : (a : ReadModelCall F) → a.Resp → Bool
  | getModel _ _, r => r.toBool
  | upsert _ _, r => r.toBool
  | insert _ _, r => r.toBool
  | update _ _ _, r => r.toBool
  | delete _ _, r => r.toBool
  | findModels _ _, r => r.toBool
  | findOneModel _ _, r => r.toBool
  | upsertRaw _ _, r => r.toBool

end ReadModelCall

/-! ## What a call can do to the map -/

namespace InMemoryReadModelStore

variable {checks : OverflowChecks} {s s' : InMemoryReadModelStore} {key : String} {bytes : Bytes}

/-- **A type-erased write** is refused and changes nothing, panics, or writes the next
version. -/
theorem saveRaw_cases (checks : OverflowChecks) (s : InMemoryReadModelStore) (key : String)
    (bytes : Bytes) :
    s.poisoned = true ∧ s.saveRaw checks key bytes = (.error (.err (.storage "lock poisoned")), s)
      ∨ s.poisoned = false ∧ s.nextVersion checks key = none
        ∧ s.saveRaw checks key bytes = (.error .panic, { s with poisoned := true })
      ∨ ∃ v, s.poisoned = false ∧ s.nextVersion checks key = some v
        ∧ s.saveRaw checks key bytes = (.ok v, s.insert key ⟨bytes, v⟩) := by
  unfold saveRaw
  cases hp : s.poisoned with
  | true => exact Or.inl ⟨rfl, if_pos rfl⟩
  | false =>
    rw [if_neg Bool.false_ne_true]
    cases hv : s.nextVersion checks key with
    | none => exact Or.inr (Or.inl ⟨rfl, rfl, rfl⟩)
    | some v => exact Or.inr (Or.inr ⟨v, rfl, rfl, rfl⟩)

/-- **The changes of the map**: none, a poisoned lock, a key written at its next
version, or a key removed. -/
inductive Changed (checks : OverflowChecks) (s : InMemoryReadModelStore) (writes deletes : Option String) :
    Bool → InMemoryReadModelStore → Prop
  | nothing (ok : Bool) (h : ok = true → writes = none ∧ deletes = none) :
      Changed checks s writes deletes ok s
  | panicked (hwrites : writes.isSome) (hp : s.poisoned = false) :
      Changed checks s writes deletes false { s with poisoned := true }
  | written {key : String} (hkey : writes = some key) (hp : s.poisoned = false) {v : ℕ}
      (hv : s.nextVersion checks key = some v) (bytes : Bytes) :
      Changed checks s writes deletes true (s.insert key ⟨bytes, v⟩)
  | removed {key : String} (hkey : deletes = some key) (hp : s.poisoned = false) :
      Changed checks s writes deletes true (s.remove key)

end InMemoryReadModelStore

/-! ## What each call does -/

namespace ReadModelStore

open InMemoryReadModelStore (makeKey Changed saveRaw_cases)

variable {M : Type} (V : ReadModelType M) (checks : OverflowChecks)

/-- `upsert` writes the key of the model, or nothing. -/
theorem upsert_changed (model : M) (s : InMemoryReadModelStore) :
    Changed checks s (some (makeKey V.collection (V.id model))) none
      (upsert V checks model s).1.toBool (upsert V checks model s).2 := by
  unfold upsert
  cases V.toVec model with
  | error e => exact .nothing false (fun h => absurd h Bool.false_ne_true)
  | ok bytes =>
    dsimp only
    rcases saveRaw_cases checks s (makeKey V.collection (V.id model)) bytes with
      ⟨-, h⟩ | ⟨hp, -, h⟩ | ⟨v, hp, hv, h⟩
    · rw [h]
      exact .nothing false (fun h => absurd h Bool.false_ne_true)
    · rw [h]
      exact .panicked rfl hp
    · rw [h]
      exact .written rfl hp hv bytes

/-- `insert` writes the key of the model where nothing is stored. -/
theorem insert_changed (model : M) (s : InMemoryReadModelStore) :
    Changed checks s (some (makeKey V.collection (V.id model))) none
      (insert V model s).1.toBool (insert V model s).2 := by
  unfold insert
  cases V.toVec model with
  | error e => exact .nothing false (fun h => absurd h Bool.false_ne_true)
  | ok bytes =>
    dsimp only
    cases hp : s.poisoned with
    | true => exact .nothing false (fun h => absurd h Bool.false_ne_true)
    | false =>
      rw [if_neg Bool.false_ne_true]
      cases hlookup : s.lookup (makeKey V.collection (V.id model)) with
      | some stored => exact .nothing false (fun h => absurd h Bool.false_ne_true)
      | none =>
        refine .written rfl hp ?_ bytes
        rw [InMemoryReadModelStore.nextVersion, hlookup]

/-- `update` writes the key of the model where its version is the one expected. -/
theorem update_changed (model : M) (expectedVersion : ℕ) (s : InMemoryReadModelStore) :
    Changed checks s (some (makeKey V.collection (V.id model))) none
      (update V checks model expectedVersion s).1.toBool
      (update V checks model expectedVersion s).2 := by
  unfold update
  cases V.toVec model with
  | error e => exact .nothing false (fun h => absurd h Bool.false_ne_true)
  | ok bytes =>
    dsimp only
    cases hp : s.poisoned with
    | true => exact .nothing false (fun h => absurd h Bool.false_ne_true)
    | false =>
      rw [if_neg Bool.false_ne_true]
      cases hlookup : s.lookup (makeKey V.collection (V.id model)) with
      | none => exact .nothing false (fun h => absurd h Bool.false_ne_true)
      | some stored =>
        dsimp only
        by_cases hversion : stored.version ≠ expectedVersion
        · rw [if_pos hversion]
          exact .nothing false (fun h => absurd h Bool.false_ne_true)
        · rw [if_neg hversion]
          cases hadd : addU64 checks stored.version 1 with
          | none => exact .panicked rfl hp
          | some v =>
            refine .written rfl hp ?_ bytes
            rw [InMemoryReadModelStore.nextVersion, hlookup]
            exact hadd

theorem delete_changed (id : String) (s : InMemoryReadModelStore) :
    Changed checks s none (some (makeKey V.collection id)) (delete V id s).1.toBool
      (delete V id s).2 := by
  unfold delete
  cases hp : s.poisoned with
  | true => exact .nothing false (fun h => absurd h Bool.false_ne_true)
  | false => exact .removed rfl hp

end ReadModelStore

namespace ReadModelCall

open InMemoryReadModelStore (makeKey Changed)

variable {F : ModelTypes}

/-- **What a call does to the map.** -/
theorem changes (checks : OverflowChecks) (ord : List String) (a : ReadModelCall F)
    (s : InMemoryReadModelStore) :
    Changed checks s a.writes a.deletes (a.accepted (a.exec checks ord s).1)
      (a.exec checks ord s).2 := by
  cases a with
  | getModel i id => exact .nothing _ (fun _ => ⟨rfl, rfl⟩)
  | upsert i model => exact ReadModelStore.upsert_changed _ _ _ _
  | insert i model => exact ReadModelStore.insert_changed _ _ _ _
  | update i model expectedVersion => exact ReadModelStore.update_changed _ _ _ _ _
  | delete i id => exact ReadModelStore.delete_changed _ _ _ _
  | findModels i predicate => exact .nothing _ (fun _ => ⟨rfl, rfl⟩)
  | findOneModel i predicate => exact .nothing _ (fun _ => ⟨rfl, rfl⟩)
  | upsertRaw key bytes =>
    show Changed checks s (some key) none (s.upsertRaw checks key bytes).1.toBool
      (s.upsertRaw checks key bytes).2
    unfold InMemoryReadModelStore.upsertRaw
    rcases InMemoryReadModelStore.saveRaw_cases checks s key bytes with
      ⟨-, h⟩ | ⟨hp, -, h⟩ | ⟨v, hp, hv, h⟩
    · rw [h]
      exact .nothing false (fun h => absurd h Bool.false_ne_true)
    · rw [h]
      exact .panicked rfl hp
    · rw [h]
      exact .written rfl hp hv bytes

theorem deletes_eq_none {a : ReadModelCall F} {key : String} (h : a.writes = some key) :
    a.deletes = none := by
  cases a <;> first | rfl | cases h

end ReadModelCall
