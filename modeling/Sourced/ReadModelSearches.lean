import Sourced.ReadModelSessions

/-!
# What a search for read models leaves locked

`find_models` of a `QueuedReadModelStore` searches without locks, takes the locks of the
matches, and reads each match again, since others can have moved in between. It
returns those that still match and, unlike `find` of `QueuedRepository`, releases the
lock of every other; `find_one_model` does the same with one match. So a search
leaves held exactly the locks of what it returns
(`QueuedReadModelStore.searches_hold_returned`).

A match is locked under the key its id gives, and was found under the key it is
stored with. That these are the same is `InMemoryReadModelStore.Keyed`, in every state
the search sees; it makes the matches of one search distinct.

The runs here are runs among others: at every action of the search the store can
be any.
-/

/-- **Every model is stored under its key**: what reads as a model of the type, under
a key of its collection, has that key. -/
def InMemoryReadModelStore.Keyed {M : Type} (V : ReadModelType M) (s : InMemoryReadModelStore) : Prop :=
  ∀ key stored data, s.lookup key = some stored → ReadModelStore.inCollection V key = true →
    V.fromSlice stored.bytes = .ok data → key = InMemoryReadModelStore.makeKey V.collection (V.id data)

/-- An action on queued read models observed. -/
abbrev ObservedModels (F : ModelTypes) := Observation (QueuedAction F) QueuedAction.Resp QueuedModels

namespace ObservedModels

variable {F : ModelTypes}

/-- What is held after an action of one's own. -/
def heldAfter (a : QueuedAction F) (r : a.Resp) (held : Finset String) : Finset String :=
  match a, r with
  | .lock key, .ok () => insert key held
  | .unlock key, .ok () => held.erase key
  | _, _ => held

/-- **The locks held** after some actions of one's own. -/
def held : List (ObservedModels F) → Finset String → Finset String
  | [], locks => locks
  | o :: t, locks => held t (heldAfter o.action o.response locks)

theorem held_append (t t' : List (ObservedModels F)) (locks : Finset String) :
    held (t ++ t') locks = held t' (held t locks) := by
  induction t generalizing locks with
  | nil => rfl
  | cons o t ih => exact ih _

/-- A point read found the model. -/
def Finds (i : F.Index) (o : ObservedModels F) (v : Versioned (F.Model i)) : Prop :=
  o.action = .inner (.getModel i ((F.type i).id v.data))
    ∧ ReadModelStore.getModel (F.type i) ((F.type i).id v.data) o.before.models = .ok (some v)

/-- **The model matched in a state observed while its lock was held**, of the locks
that were there and those taken. -/
def MatchedHeld (i : F.Index) (p : F.Model i → Bool) (t : List (ObservedModels F))
    (locks : Finset String) (v : Versioned (F.Model i)) : Prop :=
  p v.data = true ∧ ∃ t₁ o t₂, t = t₁ ++ o :: t₂ ∧ Finds i o v
    ∧ QueuedReadModelStore.modelKey i ((F.type i).id v.data) ∈ held t₁ locks

theorem MatchedHeld.append {i : F.Index} {p : F.Model i → Bool} {t : List (ObservedModels F)}
    {locks : Finset String} {v : Versioned (F.Model i)} {u : List (ObservedModels F)}
    (h : MatchedHeld i p t (held u locks) v) (w : List (ObservedModels F)) :
    MatchedHeld i p (u ++ (t ++ w)) locks v := by
  obtain ⟨hp, t₁, o, t₂, rfl, hfinds, hheld⟩ := h
  refine ⟨hp, u ++ t₁, o, t₂ ++ w, by simp, hfinds, ?_⟩
  rw [held_append]
  exact hheld

end ObservedModels

namespace QueuedReadModelStore

open ObservedModels (held held_append MatchedHeld)
open InMemoryReadModelStore (Keyed)

variable {F : ModelTypes} {checks : OverflowChecks} {i : F.Index} {p : F.Model i → Bool}

/-- Runs of calls among others. -/
abbrev Among (checks : OverflowChecks) {α : Type} (q : QueuedCall F α) (t : List (ObservedModels F))
    (r : Res ReadModelError α) : Prop :=
  Prog.Among (fun a => QueuedAction.Sem checks a) q t r

/-- The keys of some models. -/
def keys (i : F.Index) (vs : List (Versioned (F.Model i))) : List String :=
  vs.map (fun v => modelKey i ((F.type i).id v.data))

/-- **What a search leaves**: models each returned once, that matched under their
locks, and just their locks held. -/
structure HoldsReturned (i : F.Index) (p : F.Model i → Bool) (t : List (ObservedModels F))
    (vs : List (Versioned (F.Model i))) : Prop where
  once : (vs.map (fun v => (F.type i).id v.data)).Nodup
  matched : ∀ v ∈ vs, MatchedHeld i p t ∅ v
  held_iff : ∀ key, key ∈ held t ∅ ↔ key ∈ keys i vs

/-! ## Locks -/

theorem among_acquire {key : String} {t : List (ObservedModels F)}
    (h : Among checks (acquire key) t (.ok ())) (locks : Finset String) :
    held t locks = Insert.insert key locks := by
  obtain ⟨s, r, s', u, rfl, hsem, hret⟩ := Prog.among_act.mp h
  obtain ⟨rfl, -⟩ := Prog.among_ret.mp hret
  obtain ⟨-, rfl, -⟩ := QueuedAction.sem_lock hsem
  rfl

theorem among_release {key : String} {t : List (ObservedModels F)}
    (h : Among checks (release key) t (.ok ())) (locks : Finset String) :
    held t locks = locks.erase key := by
  obtain ⟨s, r, s', u, rfl, hsem, hret⟩ := Prog.among_act.mp h
  obtain ⟨rfl, -⟩ := Prog.among_ret.mp hret
  obtain ⟨rfl, -⟩ := QueuedAction.sem_unlock hsem
  rfl

theorem among_unlockKey {key : String} {t : List (ObservedModels F)}
    (h : Among checks (unlockKey key) t (.ok ())) (locks : Finset String) :
    held t locks = locks.erase key := by
  obtain ⟨s, r, s', u, rfl, hsem, hret⟩ := Prog.among_act.mp h
  obtain ⟨rfl, -⟩ := Prog.among_ret.mp hret
  obtain ⟨rfl, -⟩ := QueuedAction.sem_unlock hsem
  rfl

/-- **Locks taken in turn.** -/
theorem among_acquireAll {ks : List String} {t : List (ObservedModels F)}
    (h : Among checks (Call.forEach acquire ks) t (.ok ())) (locks : Finset String) :
    held t locks = locks ∪ ks.toFinset := by
  induction ks generalizing t locks with
  | nil =>
    obtain ⟨rfl, -⟩ := Prog.among_ret.mp h
    exact (Finset.union_empty _).symm
  | cons key ks ih =>
    obtain ⟨t₁, t₂, ⟨⟩, rfl, hkey, hks⟩ := Call.among_andThen_ok.mp h
    rw [held_append, ih hks, among_acquire hkey, List.toFinset_cons, Finset.union_insert,
      Finset.insert_union]

/-! ## Reads -/

theorem modelKey_inj {id id' : String} (h : modelKey i id = modelKey i id') : id = id' := by
  unfold modelKey makeKey at h
  have hlist := congrArg String.toList h
  simp only [String.toList_append, List.append_assoc] at hlist
  exact String.toList_inj.mp (List.append_cancel_left (List.append_cancel_left hlist))

theorem inCollection_modelKey (i : F.Index) (id : String) :
    ReadModelStore.inCollection (F.type i) (modelKey i id) = true := by
  unfold ReadModelStore.inCollection modelKey makeKey
  rw [List.isPrefixOf_iff_prefix]
  exact ⟨id.toList, String.toList_append.symm⟩

/-- **A model read has the id it was asked for**, where models are stored under
their keys. -/
theorem id_of_getModel {id : String} {s : InMemoryReadModelStore} {v : Versioned (F.Model i)}
    (hs : Keyed (F.type i) s) (h : ReadModelStore.getModel (F.type i) id s = .ok (some v)) :
    (F.type i).id v.data = id := by
  unfold ReadModelStore.getModel at h
  cases hp : s.poisoned with
  | true => rw [hp] at h; cases h
  | false =>
    rw [hp, if_neg Bool.false_ne_true] at h
    unfold ReadModelStore.decode at h
    cases hlookup : s.lookup (InMemoryReadModelStore.makeKey (F.type i).collection id) with
    | none => rw [hlookup] at h; cases h
    | some stored =>
      rw [hlookup] at h
      dsimp only at h
      cases hdata : (F.type i).fromSlice stored.bytes with
      | error e => rw [hdata] at h; cases h
      | ok data =>
        rw [hdata] at h
        obtain rfl := Option.some.inj (Except.ok.inj h)
        exact (modelKey_inj (hs _ _ _ hlookup (inCollection_modelKey i id) hdata)).symm

/-- A point read. -/
theorem among_getModel {id : String} {t : List (ObservedModels F)}
    {found : Option (Versioned (F.Model i))}
    (h : Among checks (inner (.getModel i id)) t (.ok found)) :
    ∃ o : ObservedModels F, t = [o] ∧ o.action = .inner (.getModel i id)
      ∧ ReadModelStore.getModel (F.type i) id o.before.models = .ok found
      ∧ ∀ locks, held [o] locks = locks := by
  obtain ⟨s, r, s', u, rfl, hsem, hret⟩ := Prog.among_act.mp h
  obtain ⟨rfl, hr⟩ := Prog.among_ret.mp hret
  obtain ⟨ord, -, hexec, -⟩ := QueuedAction.sem_inner hsem
  exact ⟨_, rfl, rfl, (Prod.mk.inj hexec).1.trans hr.symm, fun _ => rfl⟩

/-! ## The matches read again -/

/-- A turn of the third phase: a match is read again and returned, or its lock
released. -/
def refetchOne (i : F.Index) (p : F.Model i → Bool) (v : Versioned (F.Model i)) :
    QueuedCall F (List (Versioned (F.Model i))) :=
  Call.andThen (inner (.getModel i ((F.type i).id v.data))) (fun current =>
    if current.any (fun v => p v.data) then Call.done (.ok current.toList)
    else (release (modelKey i ((F.type i).id v.data))).andThen (fun _ => Call.done (.ok [])))

theorem refetch_eq (i : F.Index) (p : F.Model i → Bool) :
    refetch i p = Call.collect (refetchOne i p) := by
  unfold refetch
  congr 1
  funext v
  refine congrArg (Call.andThen _) (funext fun current => ?_)
  cases current with
  | none => rfl
  | some current =>
    show (if p current.data = true then _ else _) = if p current.data = true then _ else _
    split <;> rfl

/-- **One match read again**: it is returned, having matched under its lock, and the
locks are as they were; or it is not, and its lock is released. -/
theorem among_refetchOne {v : Versioned (F.Model i)} {t : List (ObservedModels F)}
    {vs : List (Versioned (F.Model i))} (h : Among checks (refetchOne i p v) t (.ok vs))
    (hkeyed : ∀ o ∈ t, Keyed (F.type i) o.before.models) {locks : Finset String}
    (hlocks : modelKey i ((F.type i).id v.data) ∈ locks) :
    (∃ current, vs = [current] ∧ (F.type i).id current.data = (F.type i).id v.data
        ∧ MatchedHeld i p t locks current ∧ held t locks = locks)
      ∨ vs = [] ∧ held t locks = locks.erase (modelKey i ((F.type i).id v.data)) := by
  obtain ⟨t₁, t₂, current, rfl, hget, hrest⟩ := Call.among_andThen_ok.mp h
  obtain ⟨o, rfl, haction, hread, hsame⟩ := among_getModel hget
  by_cases hp : current.any (fun v => p v.data) = true
  · rw [if_pos hp] at hrest
    obtain ⟨rfl, hvs⟩ := Prog.among_ret.mp hrest
    obtain rfl := Except.ok.inj hvs
    obtain ⟨c, rfl⟩ : ∃ c, current = some c := by
      cases current with
      | none => exact absurd hp Bool.false_ne_true
      | some c => exact ⟨c, rfl⟩
    have hpc : p c.data = true := hp
    have hid := id_of_getModel (hkeyed o (by simp)) hread
    refine Or.inl ⟨c, rfl, hid, ⟨hpc, [], o, [], by simp, ?_, ?_⟩, ?_⟩
    · rw [ObservedModels.Finds, hid]
      exact ⟨haction, hread⟩
    · rw [hid]
      exact hlocks
    · rw [List.append_nil, hsame]
  · rw [if_neg hp] at hrest
    obtain ⟨u, u', ⟨⟩, rfl, hrelease, hret⟩ := Call.among_andThen_ok.mp hrest
    obtain ⟨rfl, hvs⟩ := Prog.among_ret.mp hret
    obtain rfl := Except.ok.inj hvs
    refine Or.inr ⟨rfl, ?_⟩
    rw [held_append, hsame, List.append_nil, among_release hrelease]

/-- **The matches read again**: of the locks of the matches just those of the
returned are left. -/
theorem among_refetch {found : List (Versioned (F.Model i))} {t : List (ObservedModels F)}
    {vs : List (Versioned (F.Model i))}
    (h : Among checks (Call.collect (refetchOne i p) found) t (.ok vs))
    (hkeyed : ∀ o ∈ t, Keyed (F.type i) o.before.models) (hnd : (keys i found).Nodup)
    {locks : Finset String} (hlocks : ∀ key ∈ keys i found, key ∈ locks) :
    (vs.map (fun v => (F.type i).id v.data)).Sublist (found.map (fun v => (F.type i).id v.data))
      ∧ (∀ v ∈ vs, MatchedHeld i p t locks v)
      ∧ ∀ key, key ∈ held t locks ↔ key ∈ keys i vs ∨ key ∈ locks ∧ key ∉ keys i found := by
  induction found generalizing t vs locks with
  | nil =>
    obtain ⟨rfl, hvs⟩ := Prog.among_ret.mp h
    obtain rfl := Except.ok.inj hvs
    refine ⟨List.Sublist.refl _, fun v hv => absurd hv List.not_mem_nil, fun key => ?_⟩
    show key ∈ locks ↔ key ∈ [] ∨ key ∈ locks ∧ key ∉ []
    simp
  | cons v found ih =>
    obtain ⟨t₁, t₂, ys, rfl, hone, hrest⟩ := Call.among_andThen_ok.mp h
    obtain ⟨w, w', zs, rfl, hcollect, hret⟩ := Call.among_andThen_ok.mp hrest
    obtain ⟨rfl, hvs⟩ := Prog.among_ret.mp hret
    obtain rfl := Except.ok.inj hvs
    obtain ⟨hnotMem, hnd⟩ := List.nodup_cons.mp hnd
    have hkeyed₁ : ∀ o ∈ t₁, Keyed (F.type i) o.before.models :=
      fun o ho => hkeyed o (List.mem_append_left _ ho)
    have hkeyed₂ : ∀ o ∈ w, Keyed (F.type i) o.before.models :=
      fun o ho => hkeyed o (by simp [ho])
    have hkey := hlocks _ List.mem_cons_self
    have hmem : ∀ key, key ∈ keys i (v :: found)
        ↔ key = modelKey i ((F.type i).id v.data) ∨ key ∈ keys i found := fun key => List.mem_cons
    rcases among_refetchOne hone hkeyed₁ hkey with ⟨c, rfl, hid, hmatched, hheld⟩ | ⟨rfl, hheld⟩
    · have hlocks' : ∀ key ∈ keys i found, key ∈ held t₁ locks := fun key hmem => by
        rw [hheld]
        exact hlocks key (List.mem_cons_of_mem _ hmem)
      obtain ⟨hsub, hall, hiff⟩ := ih hcollect hkeyed₂ hnd hlocks'
      refine ⟨?_, ?_, fun key => ?_⟩
      · rw [List.singleton_append, List.map_cons, List.map_cons, hid]
        exact hsub.cons_cons _
      · exact List.forall_mem_cons.mpr ⟨hmatched.append (u := []) _, fun v' hv' => (hall v' hv').append []⟩
      · have hreturned : key ∈ keys i ([c] ++ zs)
            ↔ key = modelKey i ((F.type i).id v.data) ∨ key ∈ keys i zs := by
          rw [← hid]
          exact List.mem_cons
        rw [held_append, List.append_nil, hiff, hheld, hreturned, hmem]
        by_cases heq : key = modelKey i ((F.type i).id v.data)
        · subst heq
          exact iff_of_true (Or.inr ⟨hkey, hnotMem⟩) (Or.inl (Or.inl rfl))
        · simp [heq]
    · have hlocks' : ∀ key ∈ keys i found, key ∈ held t₁ locks := fun key hmem => by
        rw [hheld]
        exact Finset.mem_erase.mpr
          ⟨fun heq => hnotMem (show modelKey i ((F.type i).id v.data) ∈ keys i found from heq ▸ hmem),
            hlocks key (List.mem_cons_of_mem _ hmem)⟩
      obtain ⟨hsub, hall, hiff⟩ := ih hcollect hkeyed₂ hnd hlocks'
      refine ⟨hsub.cons _, fun v' hv' => (hall v' hv').append [], fun key => ?_⟩
      rw [held_append, List.append_nil, hiff, hheld, hmem, Finset.mem_erase, List.nil_append]
      tauto

/-! ## The searches -/

/-- A match of the first pass has the key it was found under. -/
theorem key_of_matching {s : InMemoryReadModelStore} (hs : Keyed (F.type i) s) {key : String}
    {v : Versioned (F.Model i)} (h : ReadModelStore.matching (F.type i) p s key = some v) :
    modelKey i ((F.type i).id v.data) = key := by
  unfold ReadModelStore.matching at h
  cases hin : ReadModelStore.inCollection (F.type i) key with
  | false => rw [hin] at h; cases h
  | true =>
    rw [hin, if_pos rfl] at h
    cases hlookup : s.lookup key with
    | none => rw [hlookup] at h; cases h
    | some stored =>
      rw [hlookup] at h
      dsimp only at h
      cases hdata : (F.type i).fromSlice stored.bytes with
      | error e => rw [hdata] at h; cases h
      | ok data =>
        rw [hdata] at h
        dsimp only at h
        split at h
        · obtain rfl := Option.some.inj h
          exact (hs key stored data hlookup hin hdata).symm
        · cases h

/-- The keys of the matches come in the order of iteration. -/
theorem keys_matching_sublist {s : InMemoryReadModelStore} (hs : Keyed (F.type i) s)
    (ord : List String) :
    (keys i (ord.filterMap (ReadModelStore.matching (F.type i) p s))).Sublist ord := by
  induction ord with
  | nil => exact List.Sublist.refl _
  | cons key ord ih =>
    cases hmatch : ReadModelStore.matching (F.type i) p s key with
    | none =>
      rw [List.filterMap_cons_none hmatch]
      exact ih.cons key
    | some v =>
      rw [List.filterMap_cons_some hmatch]
      show (modelKey i ((F.type i).id v.data) :: keys i _).Sublist (key :: ord)
      rw [key_of_matching hs hmatch]
      exact ih.cons_cons key

/-- The first pass of `find_models`: no two matches have the same key. -/
theorem nodup_keys_of_findModels {ord : List String} {s : InMemoryReadModelStore}
    {found : List (Versioned (F.Model i))} (hord : ord.Nodup) (hs : Keyed (F.type i) s)
    (h : ReadModelStore.findModels (F.type i) ord p s = .ok found) : (keys i found).Nodup := by
  unfold ReadModelStore.findModels at h
  cases hp : s.poisoned with
  | true => rw [hp] at h; cases h
  | false =>
    rw [hp, if_neg Bool.false_ne_true] at h
    obtain rfl := Except.ok.inj h
    exact hord.sublist (keys_matching_sublist hs ord)

/-- **`find_models` among others.** -/
theorem among_findModels {t : List (ObservedModels F)} {vs : List (Versioned (F.Model i))}
    (hkeyed : ∀ o ∈ t, Keyed (F.type i) o.before.models)
    (h : Among checks (findModels i p) t (.ok vs)) : HoldsReturned i p t vs := by
  obtain ⟨s, r, s', u, rfl, hsem, hrest⟩ := Prog.among_act.mp h
  obtain ⟨ord, ⟨hnd, -⟩, hexec, -⟩ := QueuedAction.sem_inner hsem
  cases r with
  | error f => exact absurd (Prog.among_ret.mp hrest).2 (by simp)
  | ok found =>
    have hfound := nodup_keys_of_findModels hnd (hkeyed _ List.mem_cons_self) (Prod.mk.inj hexec).1
    have hrest' : Among checks ((lockIdsInOrder (keys i found)).andThen
      (fun _ => refetch i p found)) u (.ok vs) := hrest
    obtain ⟨t₁, t₂, ⟨⟩, rfl, hlock, hrefetch⟩ := Call.among_andThen_ok.mp hrest'
    rw [refetch_eq] at hrefetch
    have hlocked : ∀ key, key ∈ held t₁ ∅ ↔ key ∈ keys i found := fun key => by
      rw [among_acquireAll hlock, Finset.empty_union, List.mem_toFinset, QueuedRepository.mem_sortDedup]
    obtain ⟨hsub, hall, hiff⟩ := among_refetch hrefetch
      (fun o ho => hkeyed o (List.mem_cons_of_mem _ (List.mem_append_right _ ho))) hfound
      (fun key hmem => (hlocked key).mpr hmem)
    have hids : (found.map (fun v => (F.type i).id v.data)).Nodup := by
      refine List.Nodup.of_map (modelKey i) ?_
      rw [List.map_map]
      exact hfound
    refine ⟨hids.sublist hsub, fun v hv => ?_, fun key => ?_⟩
    · have hv' : MatchedHeld i p t₂
          (held (⟨.inner (.findModels i p), s, .ok found, s'⟩ :: t₁) ∅) v := hall v hv
      have hmatched := hv'.append []
      rwa [List.append_nil] at hmatched
    · show key ∈ held (t₁ ++ t₂) ∅ ↔ _
      rw [held_append, hiff, hlocked]
      exact or_iff_left (fun hand => hand.2 hand.1)

/-- **`find_one_model` among others.** -/
theorem among_findOneModel {t : List (ObservedModels F)} {result : Option (Versioned (F.Model i))}
    (hkeyed : ∀ o ∈ t, Keyed (F.type i) o.before.models)
    (h : Among checks (findOneModel i p) t (.ok result)) : HoldsReturned i p t result.toList := by
  have hnothing : ∀ u : List (ObservedModels F), held u ∅ = ∅ → HoldsReturned i p u [] :=
    fun u hu => ⟨List.nodup_nil, fun v hv => absurd hv List.not_mem_nil, fun key => by simp [hu, keys]⟩
  obtain ⟨s, r, s', u, rfl, hsem, hrest⟩ := Prog.among_act.mp h
  cases r with
  | error f => exact absurd (Prog.among_ret.mp hrest).2 (by simp)
  | ok found =>
    cases found with
    | none =>
      obtain ⟨rfl, hr⟩ := Prog.among_ret.mp hrest
      obtain rfl : result = none := Except.ok.inj hr
      exact hnothing _ rfl
    | some v =>
      have hrest' : Among checks ((acquire (modelKey i ((F.type i).id v.data))).andThen (fun _ =>
        Call.andThen (inner (.getModel i ((F.type i).id v.data))) (fun current =>
          if current.any (fun v => p v.data) then Call.done (.ok current)
          else (unlockKey (modelKey i ((F.type i).id v.data))).andThen
            (fun _ => Call.done (.ok none))))) u (.ok result) := hrest
      obtain ⟨t₁, t₂, ⟨⟩, rfl, hlock, hread⟩ := Call.among_andThen_ok.mp hrest'
      obtain ⟨w, w', current, rfl, hget, htail⟩ := Call.among_andThen_ok.mp hread
      obtain ⟨o, rfl, haction, hgot, hsame⟩ := among_getModel hget
      have hlocked := among_acquire hlock ∅
      by_cases hp : current.any (fun v => p v.data) = true
      · rw [if_pos hp] at htail
        obtain ⟨rfl, hr⟩ := Prog.among_ret.mp htail
        obtain rfl : result = current := Except.ok.inj hr
        obtain ⟨c, rfl⟩ : ∃ c, result = some c := by
          cases result with
          | none => exact absurd hp Bool.false_ne_true
          | some c => exact ⟨c, rfl⟩
        have hpc : p c.data = true := hp
        have hid := id_of_getModel (hkeyed o (by simp)) hgot
        rw [← hid] at haction hgot hlocked
        refine ⟨List.nodup_singleton _, fun v' hv' => ?_, fun key => ?_⟩
        · obtain rfl := List.mem_singleton.mp hv'
          refine ⟨hpc, ⟨_, s, _, s'⟩ :: t₁, o, [], rfl, ⟨haction, hgot⟩, ?_⟩
          show _ ∈ held t₁ ∅
          rw [hlocked]
          exact Finset.mem_insert_self _ _
        · show key ∈ held (t₁ ++ ([o] ++ [])) ∅ ↔ key ∈ keys i [c]
          rw [held_append, List.append_nil, hsame, hlocked]
          simp [keys]
      · rw [if_neg hp] at htail
        obtain ⟨x, x', ⟨⟩, rfl, hrelease, hret⟩ := Call.among_andThen_ok.mp htail
        obtain ⟨rfl, hr⟩ := Prog.among_ret.mp hret
        obtain rfl : result = none := Except.ok.inj hr
        refine hnothing _ ?_
        show held (t₁ ++ ([o] ++ (x ++ []))) ∅ = ∅
        rw [held_append, hlocked, held_append, hsame, List.append_nil, among_unlockKey hrelease]
        simp

/-- **Searches hold the locks of what they return.** Whatever others make of the store
between the passes of a search, as long as every model of the type is stored under its
key: when `find_models` or `find_one_model` returns `Ok`, each model is returned once,
matched in a state observed while its lock was held, and the locks the call has taken
and not released are those of the models it returns. -/
theorem searches_hold_returned (i : F.Index) (p : F.Model i → Bool) {t : List (ObservedModels F)}
    (hkeyed : ∀ o ∈ t, Keyed (F.type i) o.before.models) :
    (∀ vs, Among checks (findModels i p) t (.ok vs) → HoldsReturned i p t vs)
      ∧ ∀ result, Among checks (findOneModel i p) t (.ok result) →
        HoldsReturned i p t result.toList :=
  ⟨fun _ h => among_findModels hkeyed h, fun _ h => among_findOneModel hkeyed h⟩

/-! ## A search of which one match is gone -/

/-- Lamps, in the hall and in the attic, lit or not. -/
def lamps : ModelTypes where
  Index := Unit
  Model _ := Bool × Bool
  type _ :=
    { collection := "lamp"
      id := fun lamp => if lamp.1 then "hall" else "attic"
      toVec := fun lamp => .ok [if lamp.1 then 1 else 0, if lamp.2 then 1 else 0]
      fromSlice := fun bytes =>
        match bytes with
        | [hall, lit] => .ok (hall = 1, lit = 1)
        | _ => .error "invalid length" }

/-- The lamp in the hall is lit, and that in the attic may be. -/
def lampStore (attic : UInt8) : QueuedModels :=
  ⟨(InMemoryReadModelStore.new.insert "lamp:attic" ⟨[0, attic], 1⟩).insert "lamp:hall" ⟨[1, 1], 1⟩,
    fun _ => false⟩

/-- Every lamp is stored under its key. -/
theorem keyed_lampStore (attic : UInt8) : Keyed (lamps.type ()) (lampStore attic).models := by
  intro key stored data hlookup _ hdata
  by_cases hhall : key = "lamp:hall"
  · subst hhall
    obtain rfl := Option.some.inj ((InMemoryReadModelStore.lookup_insert_self _ _ _).symm.trans hlookup)
    obtain rfl := Except.ok.inj hdata
    rfl
  · have hlookup := (InMemoryReadModelStore.lookup_insert_of_ne _ hhall _).symm.trans hlookup
    by_cases hattic : key = "lamp:attic"
    · subst hattic
      obtain rfl := Option.some.inj ((InMemoryReadModelStore.lookup_insert_self _ _ _).symm.trans hlookup)
      obtain rfl := Except.ok.inj hdata
      rfl
    · have hnone := (InMemoryReadModelStore.lookup_insert_of_ne _ hattic _).symm.trans hlookup
      cases hnone

/-- The search for lit lamps finds both; before they are read again the one in
the attic is put out. -/
def lampSearch : List (ObservedModels lamps) :=
  [⟨.inner (.findModels () Prod.snd), lampStore 1, .ok [⟨(true, true), 1⟩, ⟨(false, true), 1⟩],
      lampStore 1⟩,
    ⟨.lock "lamp:attic", lampStore 1, .ok (),
      { lampStore 1 with locked := Function.update (lampStore 1).locked "lamp:attic" true }⟩,
    ⟨.lock "lamp:hall", lampStore 0, .ok (),
      { lampStore 0 with locked := Function.update (lampStore 0).locked "lamp:hall" true }⟩,
    ⟨.inner (.getModel () "hall"), lampStore 0, .ok (some ⟨(true, true), 1⟩), lampStore 0⟩,
    ⟨.inner (.getModel () "attic"), lampStore 0, .ok (some ⟨(false, false), 1⟩), lampStore 0⟩,
    ⟨.unlock "lamp:attic", lampStore 0, .ok (),
      { lampStore 0 with locked := Function.update (lampStore 0).locked "lamp:attic" false }⟩]

theorem enumerates_lampStore (attic : UInt8) :
    (lampStore attic).models.Enumerates ["lamp:hall", "lamp:attic"] := by
  refine ⟨by decide, fun key => ?_⟩
  rw [List.mem_cons, List.mem_singleton]
  by_cases hhall : key = "lamp:hall"
  · subst hhall
    exact iff_of_true (Or.inl rfl) rfl
  · rw [or_iff_right hhall]
    have h₁ : (lampStore attic).models.lookup key = _ :=
      InMemoryReadModelStore.lookup_insert_of_ne _ hhall _
    by_cases hattic : key = "lamp:attic"
    · subst hattic
      exact iff_of_true rfl rfl
    · rw [h₁, InMemoryReadModelStore.lookup_insert_of_ne _ hattic]
      exact iff_of_false hattic (by simp [InMemoryReadModelStore.new, InMemoryReadModelStore.lookup])

theorem among_lampSearch :
    Among true (findModels (F := lamps) () Prod.snd) lampSearch (.ok [⟨(true, true), 1⟩]) :=
  .act ⟨_, enumerates_lampStore 1, rfl⟩
    (.act (QueuedAction.sem_of_alone rfl) (.act (QueuedAction.sem_of_alone rfl)
      (.act (QueuedAction.sem_of_alone rfl) (.act (QueuedAction.sem_of_alone rfl)
        (.act (QueuedAction.sem_of_alone rfl) (.ret _))))))

/-- The lamp in the hall is returned, and its lock alone is held. -/
theorem searches_hold_returned_lamps : ∃ t : List (ObservedModels lamps),
    HoldsReturned (F := lamps) () Prod.snd t [⟨(true, true), 1⟩]
      ∧ held t ∅ = {"lamp:hall"} := by
  refine ⟨lampSearch, (searches_hold_returned (F := lamps) () Prod.snd ?_).1 _ among_lampSearch,
    by decide⟩
  intro o ho
  simp only [lampSearch, List.mem_cons, List.not_mem_nil, or_false] at ho
  rcases ho with rfl | rfl | rfl | rfl | rfl | rfl <;> exact keyed_lampStore _

end QueuedReadModelStore
