import Sourced.ReadModelStore

/-!
# Versions of read models

A client reads a model with its version and updates it on the condition that the
version is still the same. This notices every write that came between, since a write
counts the version up. It does not notice a model that was deleted and stored again:
the versions of a key begin anew after a `delete`, and the version that was read can
come back (`ReadModelCall.deleted_between`).

So an update that is accepted has overlooked nothing exactly where its key was not
deleted since the read (`ReadModelCall.update_sound_iff`) – and where, in a build
without overflow checks, the version has not been counted all the way around.
-/

namespace ReadModelCall

open InMemoryReadModelStore (makeKey Changed)

variable {F : ModelTypes} (checks : OverflowChecks)

/-- The store after a call. The order of iteration does not matter to it. -/
def next (a : ReadModelCall F) (s : InMemoryReadModelStore) : InMemoryReadModelStore :=
  (a.exec checks [] s).2

/-- The store after calls of any clients, one after the other. -/
def runAll (as : List (ReadModelCall F)) (s : InMemoryReadModelStore) : InMemoryReadModelStore :=
  as.foldl (fun s a => a.next checks s) s

/-- **A model read, and later updated** at the version that was read; `between` are the
calls that came between, of this client and others. -/
structure ReadThenUpdate (i : F.Index) (id : String) (model : F.Model i) (s : InMemoryReadModelStore)
    (between : List (ReadModelCall F)) (found : Versioned (F.Model i)) : Prop where
  read : ReadModelStore.getModel (F.type i) id s = .ok (some found)
  same : (F.type i).id model = id
  updated : ∃ r s', ReadModelStore.update (F.type i) checks model found.version
    (runAll checks between s) = (.ok r, s')

/-- **Nothing changed the key**: each of the calls left what is stored under it. -/
def Untouched (key : String) (s : InMemoryReadModelStore) (between : List (ReadModelCall F)) : Prop :=
  ∀ pre a post, between = pre ++ a :: post →
    (next checks a (runAll checks pre s)).lookup key = (runAll checks pre s).lookup key

/-- The number of accepted writes of a key. -/
def writeCount (key : String) : List (ReadModelCall F) → InMemoryReadModelStore → ℕ
  | [], _ => 0
  | a :: as, s =>
    (if a.writes = some key ∧ a.accepted (a.exec checks [] s).1 = true then 1 else 0)
      + writeCount key as (next checks a s)

/-- **A version counted up** by a number of writes. -/
def CountedUp (version n version' : ℕ) : Prop :=
  if checks then version' = version + n else version' % 2 ^ 64 = (version + n) % 2 ^ 64

variable {checks}

/-! ## One call -/

theorem exec_snd (a : ReadModelCall F) (ord : List String) (s : InMemoryReadModelStore) :
    (a.exec checks ord s).2 = next checks a s := by
  cases a <;> rfl

/-- A poisoned lock stays poisoned. -/
theorem poisoned_next {a : ReadModelCall F} {s : InMemoryReadModelStore} (hp : s.poisoned = true) :
    (next checks a s).poisoned = true := by
  have hchanges := a.changes checks [] s
  unfold next
  generalize a.accepted (a.exec checks [] s).1 = ok at hchanges
  generalize (a.exec checks [] s).2 = s' at hchanges
  cases hchanges with
  | nothing => exact hp
  | panicked => rfl
  | written _ _ _ _ => exact hp
  | removed => exact hp

theorem poisoned_runAll (as : List (ReadModelCall F)) {s : InMemoryReadModelStore}
    (hp : s.poisoned = true) : (runAll checks as s).poisoned = true := by
  induction as generalizing s with
  | nil => exact hp
  | cons a as ih => exact ih (poisoned_next hp)

/-- **A call that does not delete a key** writes it at its next version, or leaves what is
stored. -/
theorem lookup_next (checks : OverflowChecks) {a : ReadModelCall F} {key : String} (ha : a.deletes ≠ some key)
    (s : InMemoryReadModelStore) :
    ((a.writes = some key ∧ a.accepted (a.exec checks [] s).1 = true)
        ∧ ∃ bytes v, s.nextVersion checks key = some v
          ∧ (next checks a s).lookup key = some ⟨bytes, v⟩)
      ∨ ¬ (a.writes = some key ∧ a.accepted (a.exec checks [] s).1 = true)
        ∧ (next checks a s).lookup key = s.lookup key := by
  have hchanges := a.changes checks [] s
  unfold next
  generalize a.accepted (a.exec checks [] s).1 = ok at hchanges ⊢
  generalize (a.exec checks [] s).2 = s' at hchanges ⊢
  cases hchanges with
  | nothing ok hok =>
    refine Or.inr ⟨fun h => ?_, rfl⟩
    exact absurd (h.1.symm.trans (hok h.2).1) (by simp)
  | panicked => exact Or.inr ⟨fun h => absurd h.2 Bool.false_ne_true, rfl⟩
  | @written key' hkey hp v hv bytes =>
    by_cases heq : key' = key
    · subst heq
      exact Or.inl ⟨⟨hkey, rfl⟩, bytes, v, hv, InMemoryReadModelStore.lookup_insert_self _ _ _⟩
    · refine Or.inr ⟨fun h => heq (Option.some.inj (hkey.symm.trans h.1)), ?_⟩
      exact InMemoryReadModelStore.lookup_insert_of_ne _ (Ne.symm heq) _
  | @removed key' hkey hp =>
    have hne : key' ≠ key := fun heq => ha (heq ▸ hkey)
    refine Or.inr ⟨fun h => ?_, InMemoryReadModelStore.lookup_remove_of_ne _ (Ne.symm hne)⟩
    exact absurd (hkey.symm.trans (deletes_eq_none h.1)) (by simp)

theorem lookup_next_of_ne (checks : OverflowChecks) {a : ReadModelCall F} {key : String}
    (hw : a.writes ≠ some key) (hd : a.deletes ≠ some key) (s : InMemoryReadModelStore) :
    (next checks a s).lookup key = s.lookup key := by
  rcases lookup_next checks hd s with ⟨⟨hwrites, -⟩, -⟩ | ⟨-, hlookup⟩
  · exact absurd hwrites hw
  · exact hlookup

/-- A delete that is not refused removes its key. -/
theorem lookup_next_of_deletes {a : ReadModelCall F} {key : String} (ha : a.deletes = some key)
    {s : InMemoryReadModelStore} (hp : s.poisoned = false) : (next checks a s).lookup key = none := by
  cases a with
  | delete i id =>
    obtain rfl : makeKey (F.type i).collection id = key := Option.some.inj ha
    show (ReadModelStore.delete (F.type i) id s).2.lookup _ = none
    rw [ReadModelStore.delete, hp]
    exact InMemoryReadModelStore.lookup_remove_self _ _
  | _ => cases ha

/-! ## Versions -/

/-- **A version counted up once is another one.** -/
theorem addU64_one_ne {v v' : ℕ} (h : addU64 checks v 1 = some v') : v' ≠ v := by
  unfold addU64 at h
  by_cases hlt : v + 1 < 2 ^ 64
  · rw [if_pos hlt] at h
    obtain rfl := Option.some.inj h
    omega
  · rw [if_neg hlt] at h
    cases checks with
    | true => cases h
    | false =>
      obtain rfl := Option.some.inj h
      omega

/-- One more write counts up by one more. -/
theorem CountedUp.succ {v v₁ v' n : ℕ} (hv : addU64 checks v 1 = some v₁)
    (h : CountedUp checks v₁ n v') : CountedUp checks v (1 + n) v' := by
  unfold addU64 at hv
  unfold CountedUp at h ⊢
  cases checks with
  | true =>
    rw [if_pos rfl] at h ⊢
    by_cases hlt : v + 1 < 2 ^ 64
    · rw [if_pos hlt] at hv
      obtain rfl := Option.some.inj hv
      rw [h, Nat.add_assoc]
    · rw [if_neg hlt] at hv
      cases hv
  | false =>
    rw [if_neg Bool.false_ne_true] at h ⊢
    by_cases hlt : v + 1 < 2 ^ 64
    · rw [if_pos hlt] at hv
      obtain rfl := Option.some.inj hv
      rw [h, Nat.add_assoc]
    · rw [if_neg hlt] at hv
      obtain rfl := Option.some.inj hv
      rw [h, ← Nat.add_assoc, Nat.mod_add_mod]

/-- **Calls that do not delete a key** count its version up, by the writes of them. -/
theorem version_runAll (checks : OverflowChecks) {key : String} {as : List (ReadModelCall F)}
    (has : ∀ a ∈ as, a.deletes ≠ some key) {s : InMemoryReadModelStore} {stored : StoredModel}
    (hs : s.lookup key = some stored) :
    ∃ stored', (runAll checks as s).lookup key = some stored'
      ∧ CountedUp checks stored.version (writeCount checks key as s) stored'.version := by
  induction as generalizing s stored with
  | nil =>
    refine ⟨stored, hs, ?_⟩
    unfold CountedUp writeCount
    split <;> rfl
  | cons a as ih =>
    have has' := fun b hb => has b (List.mem_cons_of_mem a hb)
    rw [writeCount]
    rcases lookup_next checks (has a List.mem_cons_self) s with
      ⟨hwrote, bytes, v, hv, hlookup⟩ | ⟨hnot, hlookup⟩
    · obtain ⟨stored', hstored', hcounted⟩ := ih has' hlookup
      refine ⟨stored', hstored', ?_⟩
      rw [if_pos hwrote]
      rw [InMemoryReadModelStore.nextVersion, hs] at hv
      exact hcounted.succ hv
    · obtain ⟨stored', hstored', hcounted⟩ := ih has' (hlookup.trans hs)
      refine ⟨stored', hstored', ?_⟩
      rw [if_neg hnot, Nat.zero_add]
      exact hcounted

/-! ## Nothing is overlooked -/

theorem untouched_cons {key : String} {s : InMemoryReadModelStore} {a : ReadModelCall F}
    {as : List (ReadModelCall F)} :
    Untouched checks key s (a :: as)
      ↔ (next checks a s).lookup key = s.lookup key ∧ Untouched checks key (next checks a s) as := by
  constructor
  · refine fun h => ⟨h [] a as rfl, fun pre b post hsplit => ?_⟩
    exact h (a :: pre) b post (congrArg (List.cons a) hsplit)
  · rintro ⟨ha, h⟩ pre b post hsplit
    cases pre with
    | nil =>
      obtain ⟨rfl, rfl⟩ := List.cons.inj hsplit
      exact ha
    | cons a' pre =>
      obtain ⟨rfl, rfl⟩ := List.cons.inj hsplit
      exact h pre b post rfl

/-- **Calls that neither delete a key nor write it** leave it alone. -/
theorem untouched_of_writeCount {key : String} {as : List (ReadModelCall F)}
    (has : ∀ a ∈ as, a.deletes ≠ some key) {s : InMemoryReadModelStore}
    (hcount : writeCount checks key as s = 0) : Untouched checks key s as := by
  induction as generalizing s with
  | nil => exact fun pre a post h => absurd h (by simp)
  | cons a as ih =>
    rw [writeCount] at hcount
    obtain ⟨hzero, hrest⟩ := Nat.add_eq_zero_iff.mp hcount
    rcases lookup_next checks (has a List.mem_cons_self) s with ⟨hwrote, -⟩ | ⟨-, hlookup⟩
    · rw [if_pos hwrote] at hzero
      cases hzero
    · exact untouched_cons.mpr ⟨hlookup, ih (fun b hb => has b (List.mem_cons_of_mem a hb)) hrest⟩

/-- **Where a stored key is left alone** it is neither deleted nor written. -/
theorem Untouched.writeCount_eq {key : String} {as : List (ReadModelCall F)} {s : InMemoryReadModelStore}
    (h : Untouched checks key s as) (hs : (s.lookup key).isSome)
    (hp : (runAll checks as s).poisoned = false) :
    (∀ a ∈ as, a.deletes ≠ some key) ∧ writeCount checks key as s = 0 := by
  induction as generalizing s with
  | nil => exact ⟨fun a ha => absurd ha List.not_mem_nil, rfl⟩
  | cons a as ih =>
    obtain ⟨ha, hrest⟩ := untouched_cons.mp h
    have hp' : s.poisoned = false := by
      cases hpoisoned : s.poisoned with
      | false => rfl
      | true => exact absurd (hp.symm.trans (poisoned_runAll (a :: as) hpoisoned)) Bool.false_ne_true
    have hdeletes : a.deletes ≠ some key := fun hdel => by
      rw [← ha, lookup_next_of_deletes hdel hp'] at hs
      cases hs
    obtain ⟨hall, hcount⟩ := ih hrest (ha ▸ hs) hp
    refine ⟨List.forall_mem_cons.mpr ⟨hdeletes, hall⟩, ?_⟩
    rw [writeCount, hcount]
    rcases lookup_next checks hdeletes s with ⟨-, bytes, v, hv, hlookup⟩ | ⟨hnot, -⟩
    · -- a write would have counted the version up
      obtain ⟨stored, hstored⟩ := Option.isSome_iff_exists.mp hs
      rw [InMemoryReadModelStore.nextVersion, hstored] at hv
      have hsame := Option.some.inj ((hlookup.symm.trans ha).trans hstored)
      exact absurd (congrArg StoredModel.version hsame) (addU64_one_ne hv)
    · rw [if_neg hnot]

/-- What a read that finds a model saw. -/
theorem lookup_of_getModel {i : F.Index} {id : String} {s : InMemoryReadModelStore}
    {found : Versioned (F.Model i)} (h : ReadModelStore.getModel (F.type i) id s = .ok (some found)) :
    ∃ stored, s.lookup (makeKey (F.type i).collection id) = some stored
      ∧ stored.version = found.version := by
  unfold ReadModelStore.getModel ReadModelStore.decode at h
  split at h
  · cases h
  · cases hlookup : s.lookup (makeKey (F.type i).collection id) with
    | none => rw [hlookup] at h; cases h
    | some stored =>
      rw [hlookup] at h
      dsimp only at h
      split at h
      · obtain rfl := Option.some.inj (Except.ok.inj h)
        exact ⟨stored, rfl, rfl⟩
      · cases h

/-- An update that is accepted was of a stored model with the version expected. -/
theorem lookup_of_update {i : F.Index} {model : F.Model i} {version : ℕ}
    {s s' : InMemoryReadModelStore} {r : Versioned (F.Model i)}
    (h : ReadModelStore.update (F.type i) checks model version s = (.ok r, s')) :
    s.poisoned = false ∧ ∃ stored, s.lookup (makeKey (F.type i).collection ((F.type i).id model))
      = some stored ∧ stored.version = version := by
  unfold ReadModelStore.update at h
  split at h
  · cases (Prod.mk.inj h).1
  · cases hp : s.poisoned with
    | true => rw [hp] at h; cases (Prod.mk.inj h).1
    | false =>
      rw [hp] at h
      cases hlookup : s.lookup (makeKey (F.type i).collection ((F.type i).id model)) with
      | none => rw [hlookup] at h; cases (Prod.mk.inj h).1
      | some stored =>
        rw [hlookup] at h
        dsimp only at h
        by_cases hversion : stored.version ≠ version
        · rw [if_neg Bool.false_ne_true, if_pos hversion] at h
          cases (Prod.mk.inj h).1
        · exact ⟨rfl, stored, rfl, not_not.mp hversion⟩

/-- **An accepted update overlooked nothing** – no call since the read has changed its key –
exactly where none of them deleted the key and, in a build without overflow checks, the
key was written fewer than `2 ^ 64` times. -/
theorem update_sound_iff {i : F.Index} {id : String} {model : F.Model i} {s : InMemoryReadModelStore}
    {between : List (ReadModelCall F)} {found : Versioned (F.Model i)}
    (h : ReadThenUpdate checks i id model s between found) :
    Untouched checks (makeKey (F.type i).collection id) s between
      ↔ (∀ a ∈ between, a.deletes ≠ some (makeKey (F.type i).collection id))
        ∧ (checks = true ∨ writeCount checks (makeKey (F.type i).collection id) between s < 2 ^ 64) := by
  obtain ⟨hread, hsame, r, s', hupdated⟩ := h
  obtain ⟨stored, hstored, hversion⟩ := lookup_of_getModel hread
  obtain ⟨hp, stored', hstored', hversion'⟩ := lookup_of_update hupdated
  rw [hsame] at hstored'
  constructor
  · intro huntouched
    obtain ⟨hall, hcount⟩ := huntouched.writeCount_eq (hstored ▸ rfl) hp
    exact ⟨hall, Or.inr (hcount ▸ by decide)⟩
  · rintro ⟨hall, hfew⟩
    refine untouched_of_writeCount hall ?_
    -- the version is what it was, so it was not counted up
    obtain ⟨stored'', hstored'', hcounted⟩ := version_runAll checks hall hstored
    obtain rfl := Option.some.inj (hstored''.symm.trans hstored')
    rw [hversion, hversion'] at hcounted
    unfold CountedUp at hcounted
    cases checks with
    | true =>
      rw [if_pos rfl] at hcounted
      omega
    | false =>
      rw [if_neg Bool.false_ne_true] at hcounted
      have hlt := hfew.resolve_left Bool.false_ne_true
      omega

/-- A switch that is off. -/
def switchedOff : InMemoryReadModelStore :=
  runAll true [.insert (F := .switches) ("switches", "hall") false] .new

theorem read_then_switched : ReadThenUpdate (F := .switches) true ("switches", "hall") "hall" true
    switchedOff [.getModel ("switches", "hall") "hall"] ⟨false, 1⟩ where
  read := rfl
  same := rfl
  updated := ⟨⟨true, 2⟩, _, rfl⟩

/-- It is switched on, and nothing came between. -/
theorem update_sound_hall : Untouched (F := .switches) true "switches:hall" switchedOff
    [.getModel ("switches", "hall") "hall"] :=
  (update_sound_iff read_then_switched).mpr ⟨by simp [ReadModelCall.deletes], Or.inl rfl⟩

/-- **A model deleted and stored again** between the read and the update: the version is
`1` both times, and the update is accepted. -/
theorem deleted_between : ∃ between : List (ReadModelCall .switches),
    ReadThenUpdate true ("switches", "hall") "hall" true switchedOff between ⟨false, 1⟩
      ∧ ¬ Untouched true "switches:hall" switchedOff between := by
  refine ⟨[.delete ("switches", "hall") "hall", .insert ("switches", "hall") true],
    ⟨rfl, rfl, ⟨true, 2⟩, _, rfl⟩, fun h => ?_⟩
  exact absurd (h [] _ _ rfl) (by decide)

end ReadModelCall
