import Sourced.CommitBuilder
import Sourced.QueuedReadModels
import Sourced.ReadModelVersions

/-!
# Collections of read models

The models of a type are stored, searched and locked under keys that start with its
collection and a colon. The joining does not escape: of the collections `a` and `a:b`,
the key of `b:c` in the one is the key of `c` in the other.

So two collections are kept apart – no call at one is seen by the other, no search of
one finds what was stored under the other, and no lock is shared – exactly where neither
string starts with the other and a colon (`ReadModelCall.isolated_iff`).
-/

namespace ReadModelCall

open InMemoryReadModelStore (makeKey Changed)
open ReadModelStore (inCollection matching)

variable {F : ModelTypes} {checks : OverflowChecks} {i j : F.Index}

/-! ## What a type can do -/

/-- **The calls of a type**: those of the trait at it, and the type-erased writes of
models of it that a commit was given. -/
inductive Of (i : F.Index) : ReadModelCall F → Prop
  | getModel (id : String) : Of i (.getModel i id)
  | upsert (model : F.Model i) : Of i (.upsert i model)
  | insert (model : F.Model i) : Of i (.insert i model)
  | update (model : F.Model i) (expectedVersion : ℕ) : Of i (.update i model expectedVersion)
  | delete (id : String) : Of i (.delete i id)
  | findModels (predicate : F.Model i → Bool) : Of i (.findModels i predicate)
  | findOneModel (predicate : F.Model i → Bool) : Of i (.findOneModel i predicate)
  | readmodel {model : F.Model i} {b : CommitBuilder}
      (hb : CommitBuilder.new.readmodel (F.type i).toReadModel model = some b) {q : QueuedModel}
      (hq : q ∈ b.models) : Of i (.upsertRaw q.key q.bytes)

/-- **A store and where its models come from**: the type whose call wrote each key
last. -/
structure Collected (F : ModelTypes) where
  store : InMemoryReadModelStore
  writer : String → Option F.Index

namespace Collected

/-- A store with nothing in it. -/
def new : Collected F := ⟨.new, fun _ => none⟩

/-- The store after a call of a type. -/
def call (checks : OverflowChecks) (t : Collected F) (i : F.Index) (a : ReadModelCall F) :
    Collected F :=
  ⟨next checks a t.store, fun key =>
    if a.writes = some key ∧ a.accepted (a.exec checks [] t.store).1 = true then some i
    else t.writer key⟩

/-- **The stores a program reaches**, with calls of any of its types. -/
inductive Reached (checks : OverflowChecks) : Collected F → Prop
  | new : Reached checks new
  | call {t : Collected F} (h : Reached checks t) {i : F.Index} {a : ReadModelCall F} (ha : a.Of i) :
      Reached checks (t.call checks i a)

/-- Whether a model was stored under a collection. -/
def storedUnder (t : Collected F) (collection key : String) : Bool :=
  (t.writer key).any (fun i => decide ((F.type i).collection = collection))

end Collected

/-- **The collection of `i` is isolated from that of `j`.** -/
structure Isolated (checks : OverflowChecks) (i j : F.Index) : Prop where
  /-- A call of the one that returns leaves what `get_model` returns of the other. -/
  frame : ∀ a : ReadModelCall F, a.Of i → ∀ s : InMemoryReadModelStore,
    (next checks a s).poisoned = s.poisoned →
      ∀ id, ReadModelStore.getModel (F.type j) id (next checks a s)
        = ReadModelStore.getModel (F.type j) id s
  /-- `find_models` of the one takes nothing that was stored under the other. -/
  findModels : ∀ t : Collected F, t.Reached checks → ∀ ord predicate,
    ReadModelStore.findModels (F.type i) ord predicate t.store
      = ReadModelStore.findModels (F.type i)
          (ord.filter (fun key => ! t.storedUnder (F.type j).collection key)) predicate t.store
  /-- Nor does `find_one_model`. -/
  findOneModel : ∀ t : Collected F, t.Reached checks → ∀ ord predicate,
    ReadModelStore.findOneModel (F.type i) ord predicate t.store
      = ReadModelStore.findOneModel (F.type i)
          (ord.filter (fun key => ! t.storedUnder (F.type j).collection key)) predicate t.store
  /-- No model of the one has the lock of a model of the other. -/
  locks : ∀ id id', QueuedReadModelStore.modelKey i id ≠ QueuedReadModelStore.modelKey j id'

/-- **A string that starts with a collection and a colon.** -/
def Extends (collection s : String) : Prop := (collection ++ ":").toList <+: s.toList

/-! ## Keys -/

theorem toList_makeKey (collection id : String) :
    (makeKey collection id).toList = (collection ++ ":").toList ++ id.toList := by
  rw [makeKey, String.toList_append]

/-- **No key of a collection starts with another**, where the collection does not. -/
theorem not_inCollection {c c' : String} (hne : c ≠ c') (h : ¬ Extends c c') (h' : ¬ Extends c' c)
    (id : String) : ¬ (c ++ ":").toList <+: (makeKey c' id).toList := by
  intro hprefix
  rw [toList_makeKey] at hprefix
  have hcolon : ∀ s : String, (s ++ ":").toList = s.toList ++ [':'] := fun s => String.toList_append
  -- a proper prefix that ends in a colon ends before the colon
  have hshort : ∀ {s s' : String}, s ≠ s' → (s ++ ":").toList <+: (s' ++ ":").toList → Extends s s' := by
    intro s s' hs hle
    rw [hcolon s', List.prefix_concat_iff] at hle
    refine hle.resolve_left (fun heq => hs ?_)
    rw [hcolon s] at heq
    exact String.toList_inj.mp (List.append_cancel_right heq)
  rcases List.prefix_or_prefix_of_prefix hprefix (List.prefix_append _ _) with hle | hle
  · exact h (hshort hne hle)
  · exact h' (hshort hne.symm hle)

theorem makeKey_ne {c c' : String} (hne : c ≠ c') (h : ¬ Extends c c') (h' : ¬ Extends c' c)
    (id id' : String) : makeKey c id ≠ makeKey c' id' := by
  intro heq
  refine not_inCollection hne h h' id' ?_
  rw [← heq, toList_makeKey]
  exact List.prefix_append _ _

/-- **Where one collection extends the other**, a key is of both. -/
theorem Extends.shared {c c' : String} (h : Extends c c') (id' : String) :
    ∃ id, makeKey c id = makeKey c' id' := by
  obtain ⟨rest, hrest⟩ := h
  obtain rfl : c' = c ++ ":" ++ String.ofList rest := String.toList_inj.mp (by
    rw [String.toList_append, String.toList_ofList, hrest])
  refine ⟨String.ofList rest ++ ":" ++ id', ?_⟩
  unfold makeKey
  rw [String.append_assoc, String.append_assoc, String.append_assoc, String.append_assoc,
    String.append_assoc]

/-! ## What a call of a type touches -/

/-- **A call of a type writes and deletes keys of its collection.** -/
theorem Of.touches {a : ReadModelCall F} (ha : a.Of i) {key : String}
    (h : a.writes = some key ∨ a.deletes = some key) :
    ∃ id, key = makeKey (F.type i).collection id := by
  cases ha with
  | upsert model | insert model | update model _ =>
    exact ⟨_, (Option.some.inj (h.resolve_right (fun h => nomatch h))).symm⟩
  | delete id => exact ⟨id, (Option.some.inj (h.resolve_left (fun h => nomatch h))).symm⟩
  | @readmodel model b hb q hq =>
    obtain rfl : q.key = key := Option.some.inj (h.resolve_right (fun h => nomatch h))
    refine ⟨(F.type i).id model, ?_⟩
    unfold CommitBuilder.readmodel at hb
    split at hb
    · obtain rfl := Option.some.inj hb
      obtain rfl := List.mem_singleton.mp hq
      rfl
    · cases hb
  | getModel | findModels | findOneModel => exact absurd h (by simp [writes, deletes])

/-- **What was stored under a collection** has a key of it. -/
theorem Collected.Reached.key {t : Collected F} (h : t.Reached checks) {key : String}
    (hkey : t.writer key = some i) : ∃ id, key = makeKey (F.type i).collection id := by
  induction h with
  | new => cases hkey
  | @call t _ j a ha ih =>
    unfold Collected.call at hkey
    dsimp only at hkey
    split at hkey
    · rename_i hwrote
      obtain rfl := Option.some.inj hkey
      exact ha.touches (Or.inl hwrote.1)
    · exact ih hkey

/-! ## Isolation -/

section Apart

variable (hne : (F.type i).collection ≠ (F.type j).collection)
  (h : ¬ Extends (F.type i).collection (F.type j).collection)
  (h' : ¬ Extends (F.type j).collection (F.type i).collection)

include hne h h'

/-- A call of one type leaves the models of the other. -/
theorem frame_of_apart {a : ReadModelCall F} (ha : a.Of i) {s : InMemoryReadModelStore}
    (hp : (next checks a s).poisoned = s.poisoned) (id : String) :
    ReadModelStore.getModel (F.type j) id (next checks a s)
      = ReadModelStore.getModel (F.type j) id s := by
  have hkey : ∀ key, a.writes = some key ∨ a.deletes = some key →
      key ≠ makeKey (F.type j).collection id := fun key htouches => by
    obtain ⟨id', rfl⟩ := ha.touches htouches
    exact makeKey_ne hne h h' id' id
  unfold ReadModelStore.getModel
  rw [hp, lookup_next_of_ne checks (fun hw => hkey _ (Or.inl hw) rfl) (fun hd => hkey _ (Or.inr hd) rfl)]

/-- A search of one type passes over what was stored under the other. -/
theorem matching_of_storedUnder {t : Collected F} (ht : t.Reached checks) {key : String}
    (hkey : t.storedUnder (F.type j).collection key = true) (predicate : F.Model i → Bool) :
    matching (F.type i) predicate t.store key = none := by
  unfold Collected.storedUnder at hkey
  obtain ⟨k, hk, hcollection⟩ := (Option.any_eq_true _ _).mp hkey
  obtain ⟨id, rfl⟩ := ht.key hk
  refine if_neg (fun hin => ?_)
  rw [of_decide_eq_true hcollection] at hin
  exact not_inCollection hne h h' id (List.isPrefixOf_iff_prefix.mp hin)

theorem filterMap_of_apart {t : Collected F} (ht : t.Reached checks) (ord : List String)
    (predicate : F.Model i → Bool) :
    ord.filterMap (matching (F.type i) predicate t.store)
      = (ord.filter (fun key => ! t.storedUnder (F.type j).collection key)).filterMap
          (matching (F.type i) predicate t.store) := by
  rw [List.filterMap_filter]
  refine List.filterMap_congr (fun key _ => ?_)
  cases hkey : t.storedUnder (F.type j).collection key with
  | false => exact (if_pos rfl).symm
  | true => exact (matching_of_storedUnder hne h h' ht hkey predicate).trans (if_neg Bool.false_ne_true).symm

theorem isolated_of_apart : Isolated checks i j := by
  refine ⟨fun a ha s hp id => frame_of_apart hne h h' ha hp id, fun t ht ord predicate => ?_,
    fun t ht ord predicate => ?_, fun id id' => makeKey_ne hne h h' id id'⟩
  · unfold ReadModelStore.findModels
    rw [← filterMap_of_apart hne h h' ht]
  · unfold ReadModelStore.findOneModel
    rw [← List.head?_filterMap, ← List.head?_filterMap, ← filterMap_of_apart hne h h' ht]

end Apart

/-- **Different collections are isolated** exactly where neither starts with the other and
a colon. A key is the collection, a colon and the id, and nothing is escaped; so where one
collection goes on from the other, an id that makes up the difference has the same key, and
with it the same model and the same lock. -/
theorem isolated_iff (hne : (F.type i).collection ≠ (F.type j).collection) :
    Isolated checks i j ↔ ¬ Extends (F.type i).collection (F.type j).collection
      ∧ ¬ Extends (F.type j).collection (F.type i).collection := by
  constructor
  · refine fun hisolated => ⟨fun hext => ?_, fun hext => ?_⟩
    · obtain ⟨id, hid⟩ := hext.shared ""
      exact hisolated.locks id "" hid
    · obtain ⟨id, hid⟩ := hext.shared ""
      exact hisolated.locks "" id hid.symm
  · rintro ⟨h, h'⟩
    exact isolated_of_apart hne h h'

/-- The views `todos` and `todo_items` are isolated. -/
theorem isolated_todos : Isolated (F := .switches) true ("todos", "t-1") ("todo_items", "t-1") :=
  (isolated_iff (F := .switches) (by decide)).mpr ⟨by unfold Extends; decide, by unfold Extends; decide⟩

/-- **Of the collections `a` and `a:b`, one model is stored over the other**: the first
write of `b:c` in `a` is what is read as `c` in `a:b`. -/
theorem nested_collections : ReadModelStore.getModel (ModelTypes.switches.type ("a:b", "c")) "c" .new = .ok none
    ∧ ReadModelStore.getModel (ModelTypes.switches.type ("a:b", "c")) "c"
        (next true (.upsert (F := .switches) ("a", "b:c") true) .new) = .ok (some ⟨true, 1⟩)
    ∧ ¬ Isolated (F := .switches) true ("a", "b:c") ("a:b", "c") := by
  refine ⟨rfl, rfl, fun h => ?_⟩
  have hframe := h.frame _ (.upsert (F := .switches) (i := ("a", "b:c")) true) .new rfl "c"
  cases hframe

end ReadModelCall
