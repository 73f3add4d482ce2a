import Sourced.OutboxWorker
import Sourced.TypedSearches
import Sourced.ReplayFaithful

/-!
# Typed searches in a store that holds messages

Aggregates and outbox messages share one map, and nothing in it says what a
stream is of. A typed search makes an aggregate of *every* stream: one that holds
an event of another type does not hydrate, and fails the search, whatever the
predicate (`Definition.not_hydrates_of_foreign`). So the typed searches of a store
find the committed aggregates that match exactly where every stream hydrates as
one, and what hydrates under the id of a message does not match
(`MixedStore.searches_work_iff`).
-/

open OutboxMessage (Codecs Readings)

variable {σ : Type} {ord : List String}

/-! ## Events of another type -/

/-- An upcast event keeps its name. -/
theorem upcastLoop_eventName {us : List EventUpcaster} {fuel : ℕ} {e e' : EventRecord}
    (h : upcastLoop us fuel e = some e') : e'.eventName = e.eventName := by
  induction fuel generalizing e with
  | zero =>
    unfold upcastLoop at h
    cases hstep : upcastStep us e with
    | none =>
      rw [hstep] at h
      rw [← Option.some.inj h]
    | some e₁ => rw [hstep] at h; cases h
  | succ fuel ih =>
    unfold upcastLoop at h
    cases hstep : upcastStep us e with
    | none =>
      rw [hstep] at h
      rw [← Option.some.inj h]
    | some e₁ =>
      rw [hstep] at h
      obtain ⟨u, -, -, rfl⟩ := upcastStep_eq_some hstep
      exact ih (e := u.apply e) h

/-- Upcast events keep their names. -/
theorem map_eventName_upcastEvents {us : List EventUpcaster} {es es' : List EventRecord}
    (h : upcastEvents us es = some es') :
    es'.map EventRecord.eventName = es.map EventRecord.eventName := by
  induction es generalizing es' with
  | nil =>
    obtain rfl : [] = es' := Option.some.inj h
    rfl
  | cons e es ih =>
    unfold upcastEvents at h
    rw [List.mapM_cons] at h
    obtain ⟨f, hf, h⟩ := Option.bind_eq_some_iff.mp h
    obtain ⟨fs, hfs, h⟩ := Option.bind_eq_some_iff.mp h
    obtain rfl : f :: fs = es' := Option.some.inj h
    rw [List.map_cons, List.map_cons, ih hfs, upcastLoop_eventName hf]

namespace Definition

variable {D : Definition σ}

/-- A replay that ends has found a method for each of its events. -/
theorem exists_method_of_replayAll {now : SystemTime} {es : List EventRecord} {a b : Agg σ}
    (h : D.aggregate.replayAll now es a = .ok b) {r : EventRecord} (hr : r ∈ es) :
    ∃ m ∈ D.methods, m.name = r.eventName := by
  induction es generalizing a with
  | nil => exact absurd hr List.not_mem_nil
  | cons e es ih =>
    rw [Aggregate.replayAll_cons] at h
    cases hreplay : D.aggregate.replayEvent now e a with
    | error f => rw [hreplay] at h; cases h
    | ok a' =>
      rw [hreplay] at h
      cases List.mem_cons.mp hr with
      | inr hr => exact ih h hr
      | inl hr =>
        have hfind : D.methods.find? (fun m => m.name = r.eventName) ≠ none := fun hnone => by
          have hreplay' : EventMethod.replayEvent D.methods now e a = .ok a' := hreplay
          unfold EventMethod.replayEvent at hreplay'
          rw [← hr, hnone] at hreplay'
          cases hreplay'
        obtain ⟨m, hm⟩ := Option.ne_none_iff_exists'.mp hfind
        exact ⟨m, List.mem_of_find?_eq_some hm, by simpa using List.find?_some hm⟩

/-- **A stream with an event of another type does not hydrate.** -/
theorem not_hydrates_of_foreign (now : SystemTime) {e : Entity} {r : EventRecord}
    (hr : r ∈ e.events) (hforeign : ∀ m ∈ D.methods, m.name ≠ r.eventName) (a : Agg σ) :
    D.aggregate.hydrate now e ≠ .ok a := by
  intro h
  obtain ⟨es, b, hup, hreplay, -⟩ := (Aggregate.hydrate_eq_ok _ _).mp h
  rw [Aggregate.upcast_eq] at hup
  cases hupcast : upcastEvents D.aggregate.upcasters e.events with
  | none => rw [hupcast] at hup; cases hup
  | some es' =>
    rw [hupcast] at hup
    obtain rfl : es' = es := Except.ok.inj hup
    have hname : r.eventName ∈ es'.map EventRecord.eventName := by
      rw [map_eventName_upcastEvents hupcast]
      exact List.mem_map_of_mem hr
    obtain ⟨r', hr', hname'⟩ := List.mem_map.mp hname
    obtain ⟨m, hm, hmname⟩ := exists_method_of_replayAll hreplay hr'
    exact hforeign m hm (hmname.trans hname')

end Definition

/-! ## What the searches of an in-memory repository return -/

namespace Hydrator

variable {g : Entity → RepoRes (Agg σ)} {p : Agg σ → Bool}

/-- **The loop of `find` and what it keeps**: an aggregate for each of the entities
that match. -/
theorem keepAll_forall₂ {es : List Entity} {as : List (Agg σ)} (h : keepAll g p es = .ok as) :
    ∃ kept : List Entity, kept.Sublist es
      ∧ List.Forall₂ (fun e a => g e = .ok a ∧ p a = true) kept as
      ∧ ∀ e ∈ es, ∀ a, g e = .ok a → p a = true → e ∈ kept := by
  induction es generalizing as with
  | nil =>
    obtain rfl : [] = as := Except.ok.inj h
    exact ⟨[], List.Sublist.refl [], .nil, fun e he => absurd he List.not_mem_nil⟩
  | cons e es ih =>
    rw [keepAll, Res.collect, ← keepAll] at h
    cases hg : g e with
    | error x => rw [hg] at h; cases h
    | ok a =>
      rw [hg] at h
      change (keepAll g p es).map (fun zs => [a].filter p ++ zs) = .ok as at h
      cases hes : keepAll g p es with
      | error x => rw [hes] at h; cases h
      | ok as' =>
        rw [hes] at h
        obtain rfl : [a].filter p ++ as' = as := Except.ok.inj h
        obtain ⟨kept, hsub, hall, hmem⟩ := ih hes
        cases hp : p a with
        | true =>
          rw [List.filter_cons_of_pos hp]
          refine ⟨e :: kept, hsub.cons_cons e, .cons ⟨hg, hp⟩ hall, fun e' he' a' ha' hp' => ?_⟩
          cases List.mem_cons.mp he' with
          | inl heq => exact heq ▸ List.mem_cons_self
          | inr he' => exact List.mem_cons_of_mem e (hmem e' he' a' ha' hp')
        | false =>
          rw [List.filter_cons_of_neg (hp ▸ Bool.false_ne_true)]
          refine ⟨kept, hsub.cons e, hall, fun e' he' a' ha' hp' => ?_⟩
          cases List.mem_cons.mp he' with
          | inr he' => exact hmem e' he' a' ha' hp'
          | inl heq =>
            subst heq
            obtain rfl : a = a' := Except.ok.inj (hg.symm.trans ha')
            exact absurd (hp.symm.trans hp') Bool.false_ne_true

theorem exists_keepAll {es : List Entity} (h : ∀ e ∈ es, ∃ a, g e = .ok a) :
    ∃ as, keepAll g p es = .ok as := by
  cases hkeep : keepAll g p es with
  | ok as => exact ⟨as, rfl⟩
  | error x =>
    obtain ⟨e, he, herr⟩ := keepAll_eq_error hkeep
    obtain ⟨a, ha⟩ := h e he
    exact absurd (herr.symm.trans ha) (by simp)

/-- The loop of `find_one` returns where nothing fails. -/
theorem exists_firstOf {es : List Entity} (h : ∀ e ∈ es, ∃ a, g e = .ok a) :
    ∃ o, firstOf g p es = .ok o := by
  induction es with
  | nil => exact ⟨none, rfl⟩
  | cons e es ih =>
    obtain ⟨a, ha⟩ := h e List.mem_cons_self
    rw [firstOf, ha]
    dsimp only
    cases p a with
    | true => exact ⟨some a, rfl⟩
    | false => exact ih (fun e' he' => h e' (List.mem_cons_of_mem e he'))

end Hydrator

/-! ## The ids of a store -/

namespace EventStore

variable {s s' : EventStore}

/-- **The same ids are stored.** -/
def SameIds (s s' : EventStore) : Prop := ∀ id, (s'.lookup id).isSome = (s.lookup id).isSome

theorem SameIds.refl (s : EventStore) : s.SameIds s := fun _ => rfl

theorem SameIds.trans {s'' : EventStore} (h : s.SameIds s') (h' : s'.SameIds s'') : s.SameIds s'' :=
  fun id => (h' id).trans (h id)

/-- A stream that is stored is replaced. -/
theorem sameIds_put {id : String} (h : (s.lookup id).isSome) (events : List EventRecord) :
    s.SameIds (s.put id events) := by
  intro id'
  by_cases hid : id' = id
  · subst hid
    have hput : (s.put id' events).lookup id' = some events := Finmap.lookup_insert _
    rw [hput, h]
    rfl
  · have hput : (s.put id events).lookup id' = s.lookup id' := Finmap.lookup_insert_of_ne _ hid
    rw [hput]

theorem sameIds_afterFault (s : EventStore) (f : Fault RepositoryError) :
    s.SameIds (s.afterFault f) := by
  cases f <;> exact fun _ => rfl

variable {checks : OverflowChecks} {C : Codecs}

theorem isSome_of_messageEvents {id : String} {l : List EventRecord}
    (h : s.messageEvents id = some l) : (s.lookup id).isSome := by
  unfold messageEvents at h
  split at h
  · rw [h]
    rfl
  · cases h

/-- A claim stores the same ids. -/
theorem sameIds_claimLoop (clock : String → Readings) (workerId : String) (max : ℕ)
    (lease : Duration) (ids : List String) (claimed : List (Agg OutboxMessage)) (s : EventStore) :
    s.SameIds (claimLoop checks C clock workerId max lease ids claimed s).2 := by
  induction ids generalizing claimed s with
  | nil => exact .refl s
  | cons id ids ih =>
    rw [claimLoop]
    cases hevents : s.messageEvents id with
    | none => exact ih claimed s
    | some events =>
      have hstored := isSome_of_messageEvents hevents
      dsimp only
      cases hydrateMessage checks C (clock id).replay id events with
      | error f => exact sameIds_afterFault s f
      | ok m =>
        dsimp only
        split
        · cases OutboxMessage.claimFor checks C (clock id) workerId lease m with
          | none => exact sameIds_afterFault s .panic
          | some m' =>
            dsimp only
            split
            · exact sameIds_put hstored _
            · exact (sameIds_put hstored _).trans (ih _ _)
        · split
          · exact .refl s
          · exact ih claimed s

/-- A change of one message stores the same ids. -/
theorem sameIds_updateMessage (t : Readings) (s : EventStore) (id : String)
    (test : OutboxMessage → Bool) (change : Agg OutboxMessage → Option (Agg OutboxMessage)) :
    s.SameIds (updateMessage checks C t s id test change).2 := by
  unfold updateMessage
  split
  · exact .refl s
  · cases hevents : s.lookup (OutboxMessage.normalizeId id) with
    | none => exact .refl s
    | some events =>
      have hstored : (s.lookup (OutboxMessage.normalizeId id)).isSome := hevents ▸ rfl
      dsimp only
      cases hydrateMessage checks C t.replay (OutboxMessage.normalizeId id) events with
      | error f => exact sameIds_afterFault s f
      | ok m =>
        dsimp only
        split
        · cases change m with
          | none => exact sameIds_afterFault s .panic
          | some m' => exact sameIds_put hstored _
        · exact .refl s

end EventStore

/-! ## Stores of aggregates and messages -/

/-- **An operation of an outbox worker** on a store. -/
inductive OutboxOperation (checks : OverflowChecks) (C : Codecs) (s : EventStore) :
    EventStore → Prop
  | claim (ord : List String) (hord : s.Enumerates ord) (clock : String → Readings)
      (workerId : String) (max : ℕ) (lease : Duration) :
      OutboxOperation checks C s (s.claimOutboxMessages checks C ord clock workerId max lease).2
  | complete (t : Readings) (id : String) :
      OutboxOperation checks C s (s.completeOutboxMessage checks C t id).2
  | release (t : Readings) (id error : String) :
      OutboxOperation checks C s (s.releaseOutboxMessage checks C t id error).2
  | fail (t : Readings) (id error : String) :
      OutboxOperation checks C s (s.failOutboxMessage checks C t id error).2

/-- A worker stores the same ids. -/
theorem OutboxOperation.sameIds {checks : OverflowChecks} {C : Codecs} {s s' : EventStore}
    (h : OutboxOperation checks C s s') : s.SameIds s' := by
  cases h with
  | claim ord hord clock workerId max lease =>
    unfold EventStore.claimOutboxMessages
    split
    · exact .refl s
    · exact EventStore.sameIds_claimLoop clock workerId max lease ord [] s
  | complete t id => exact EventStore.sameIds_updateMessage t s id _ _
  | release t id error => exact EventStore.sameIds_updateMessage t s id _ _
  | fail t id error => exact EventStore.sameIds_updateMessage t s id _ _

/-- **A store, and the ids under which aggregates and messages were committed.** -/
structure MixedStore where
  store : EventStore
  aggregates : Finset String
  messages : Finset String

namespace MixedStore

/-- An empty store. -/
def empty : MixedStore := ⟨EventStore.new, ∅, ∅⟩

/-- **A step**: a batch of aggregates and messages is committed, in any order, or
refused; or an outbox worker does something. What the entities of the batch hold
does not matter here. -/
inductive Step (checks : OverflowChecks) (C : Codecs) : MixedStore → MixedStore → Prop
  | commit {s : MixedStore} (aggregates messages batch : List Entity)
      (hbatch : batch.Perm (aggregates ++ messages)) {es : List Entity} {store : EventStore}
      (h : s.store.commit batch = (.ok (), es, store)) :
      Step checks C s ⟨store, s.aggregates ∪ (aggregates.map Entity.id).toFinset,
        s.messages ∪ (messages.map Entity.id).toFinset⟩
  | refused {s : MixedStore} (batch : List Entity) {f : RepositoryError} {es : List Entity}
      {store : EventStore} (h : s.store.commit batch = (.error (.err f), es, store)) :
      Step checks C s { s with store := store }
  | worker {s : MixedStore} {store : EventStore} (h : OutboxOperation checks C s.store store) :
      Step checks C s { s with store := store }

/-- **The stores that can come about.** -/
abbrev Reached (checks : OverflowChecks) (C : Codecs) (s : MixedStore) : Prop :=
  Relation.ReflTransGen (Step checks C) empty s

variable {checks : OverflowChecks} {C : Codecs} {s : MixedStore}

/-- What is stored was committed, as an aggregate or as a message. -/
theorem isSome_lookup_iff (h : Reached checks C s) (id : String) :
    (s.store.lookup id).isSome ↔ id ∈ s.aggregates ∨ id ∈ s.messages := by
  induction h with
  | refl => simp [empty, EventStore.new, EventStore.lookup]
  | tail _ hstep ih =>
    cases hstep with
    | commit aggregates messages batch hbatch hcommit =>
      rw [(EventStore.commit_eq_ok hcommit).2, EventStore.isSome_lookup_extendAll, ih]
      simp only [hbatch.mem_iff, List.mem_append, Finset.mem_union, List.mem_toFinset, List.mem_map]
      constructor
      · rintro ((h | h) | ⟨e, he | he, rfl⟩)
        · exact Or.inl (Or.inl h)
        · exact Or.inr (Or.inl h)
        · exact Or.inl (Or.inr ⟨e, he, rfl⟩)
        · exact Or.inr (Or.inr ⟨e, he, rfl⟩)
      · rintro ((h | ⟨e, he, rfl⟩) | (h | ⟨e, he, rfl⟩))
        · exact Or.inl (Or.inl h)
        · exact Or.inr ⟨e, Or.inl he, rfl⟩
        · exact Or.inl (Or.inr h)
        · exact Or.inr ⟨e, Or.inr he, rfl⟩
    | refused batch hcommit => rw [(EventStore.commit_eq_err hcommit).2, ih]
    | worker hop => rw [hop.sameIds id, ih]

end MixedStore

/-! ## The typed searches of an in-memory repository -/

section Searches

variable {A : Aggregate σ} {now : SystemTime} {p : Agg σ → Bool} {s : Shared}

theorem run_entities (hord : s.events.poisoned = false) :
    Prog.run (RepoAction.exec ord) (hashMapRepository.find (fun _ => true)) s
      = some (.ok (s.events.entities ord), s) := by
  show some (s.events.find ord (fun _ => true), s) = _
  rw [EventStore.find, hord, if_neg Bool.false_ne_true, List.filter_true]

theorem run_find (hord : s.events.poisoned = false) :
    Op.run ord (AggregateRepository.find hashMapRepository A now p) s
      = some (Hydrator.keepAll (A.hydrate now) p (s.events.entities ord), s) := by
  show Prog.run _ (Call.andThen _ _) s = _
  rw [Call.run_andThen, run_entities hord]
  exact Hydrator.run_filter (AggregateRepository.makes_hydrator A now ord s) _

theorem run_findOne (hord : s.events.poisoned = false) :
    Op.run ord (AggregateRepository.findOne hashMapRepository A now p) s
      = some (Hydrator.firstOf (A.hydrate now) p (s.events.entities ord), s) := by
  show Prog.run _ (Call.andThen _ _) s = _
  rw [Call.run_andThen, run_entities hord]
  exact Hydrator.run_first (AggregateRepository.makes_hydrator A now ord s) _

/-- A search of a poisoned store fails. -/
theorem run_find_of_poisoned (hpoisoned : s.events.poisoned = true) (as : List (Agg σ)) (s' : Shared) :
    Op.run ord (AggregateRepository.find hashMapRepository A now p) s ≠ some (.ok as, s') := by
  have hread : Prog.run (RepoAction.exec ord) (hashMapRepository.find (fun _ => true)) s
      = some (.error (.err (.lockPoisoned "read")), s) := by
    show some (s.events.find ord (fun _ => true), s) = _
    rw [EventStore.find, hpoisoned, if_pos rfl]
  show Prog.run _ (Call.andThen _ _) s ≠ _
  rw [Call.run_andThen, hread]
  exact fun h => nomatch (Prod.mk.inj (Option.some.inj h)).1

/-- **The typed searches find the committed aggregates**: `find` returns one for each
committed id whose aggregate matches and nothing else; `find_one` returns one where
there is one; `exists` agrees with `find_one`, and `count` with `find`. -/
structure SearchesWork (ord : List String) (A : Aggregate σ) (now : SystemTime) (p : Agg σ → Bool)
    (committed : Finset String) (s : Shared) : Prop where
  find : ∃ as, Op.run ord (AggregateRepository.find hashMapRepository A now p) s = some (.ok as, s)
    ∧ Op.run ord (AggregateRepository.count hashMapRepository A now p) s = some (.ok as.length, s)
    ∧ ∃ ids : List String, ids.Nodup ∧ List.Forall₂ (s.Found (A.hydrate now)) ids as
      ∧ ∀ id, id ∈ ids ↔ id ∈ committed ∧ ∃ a, s.Found (A.hydrate now) id a ∧ p a = true
  findOne : ∃ o, Op.run ord (AggregateRepository.findOne hashMapRepository A now p) s
      = some (.ok o, s)
    ∧ Op.run ord (AggregateRepository.exists' hashMapRepository A now p) s = some (.ok o.isSome, s)
    ∧ (o.isSome = true ↔ ∃ id ∈ committed, ∃ a, s.Found (A.hydrate now) id a ∧ p a = true)
    ∧ ∀ a ∈ o, p a = true ∧ ∃ id ∈ committed, s.Found (A.hydrate now) id a

theorem EventStore.mem_entities {store : EventStore} (hord : store.Enumerates ord)
    (hp : store.poisoned = false) {e : Entity} :
    e ∈ store.entities ord ↔ store.getOne e.id = .ok (some e) := by
  refine EventStore.mem_find hord ?_
  rw [EventStore.find, hp, if_neg Bool.false_ne_true, List.filter_true]

/-- **What the loop of `find` keeps, by id**: each id whose aggregate matches, once. -/
theorem EventStore.exists_ids_of_keepAll (hord : s.events.Enumerates ord)
    (hp : s.events.poisoned = false) {as : List (Agg σ)}
    (has : Hydrator.keepAll (A.hydrate now) p (s.events.entities ord) = .ok as) :
    ∃ ids : List String, ids.Nodup
      ∧ List.Forall₂ (fun id a => s.Found (A.hydrate now) id a ∧ p a = true) ids as
      ∧ ∀ id a, s.Found (A.hydrate now) id a → p a = true → id ∈ ids := by
  have hentities := fun e => EventStore.mem_entities hord hp (e := e)
  obtain ⟨kept, hsub, hforall, hmem⟩ := Hydrator.keepAll_forall₂ has
  have hkept : ∀ e ∈ kept, s.events.getOne e.id = .ok (some e) :=
    fun e he => (hentities e).mp (hsub.mem he)
  refine ⟨kept.map Entity.id, ?_, ?_, ?_⟩
  · exact (hord.1.sublist (EventStore.ids_entities_sublist ord s.events)).sublist
      (hsub.map Entity.id)
  · rw [List.forall₂_map_left_iff]
    exact ((List.forall₂_and_left kept as).mpr ⟨hkept, hforall⟩).imp
      (fun e a h => ⟨⟨e, h.1, h.2.1⟩, h.2.2⟩)
  · rintro id a ⟨e, hget, ha⟩ hpa
    have hid : e.id = id := EventStore.id_of_getOne hget
    exact List.mem_map.mpr ⟨e, hmem e ((hentities e).mpr (hid.symm ▸ hget)) a ha hpa, hid⟩

/-- **Where every stream hydrates**, and what matches was committed as an aggregate,
the searches work. -/
theorem SearchesWork.of_hydrates {committed : Finset String} (hord : s.events.Enumerates ord)
    (hp : s.events.poisoned = false)
    (hall : ∀ id, s.Stored id → ∃ a, s.Found (A.hydrate now) id a)
    (hmatch : ∀ id a, s.Found (A.hydrate now) id a → p a = true → id ∈ committed) :
    SearchesWork ord A now p committed s := by
  have hentities := fun e => EventStore.mem_entities hord hp (e := e)
  have hmake : ∀ e ∈ s.events.entities ord, ∃ a, A.hydrate now e = .ok a := fun e he => by
    have hget := (hentities e).mp he
    obtain ⟨a, e', hget', ha⟩ := hall e.id ⟨e, hget⟩
    obtain rfl : e = e' := Option.some.inj (Except.ok.inj (hget.symm.trans hget'))
    exact ⟨a, ha⟩
  have hfound := fun a => Hydrator.found_iff (g := A.hydrate now) hentities a
  obtain ⟨as, has⟩ := Hydrator.exists_keepAll (p := p) hmake
  obtain ⟨o, ho⟩ := Hydrator.exists_firstOf (p := p) hmake
  have hrun : Op.run ord (AggregateRepository.find hashMapRepository A now p) s = some (.ok as, s) :=
    (run_find hp).trans (by rw [has])
  have hrunOne : Op.run ord (AggregateRepository.findOne hashMapRepository A now p) s
      = some (.ok o, s) := (run_findOne hp).trans (by rw [ho])
  refine ⟨⟨as, hrun, ?_, ?_⟩, ⟨o, hrunOne, ?_, ?_, ?_⟩⟩
  · show Prog.run _ (Call.andThen _ _) s = _
    rw [Call.run_andThen]
    exact congrArg (fun x => Option.bind x _) hrun
  · obtain ⟨ids, hnd, hforall, hmem⟩ := EventStore.exists_ids_of_keepAll hord hp has
    refine ⟨ids, hnd, hforall.imp (fun _ _ => And.left), fun id => ⟨fun hid => ?_, ?_⟩⟩
    · obtain ⟨i, hi, rfl⟩ := List.mem_iff_getElem.mp hid
      obtain ⟨hfound', hpa⟩ := hforall.get hi (hforall.length_eq ▸ hi)
      exact ⟨hmatch _ _ hfound' hpa, _, hfound', hpa⟩
    · rintro ⟨-, a, ha, hpa⟩
      exact hmem id a ha hpa
  · show Prog.run _ (Call.andThen _ _) s = _
    rw [Call.run_andThen]
    exact congrArg (fun x => Option.bind x _) hrunOne
  · cases o with
    | none =>
      refine iff_of_false Bool.false_ne_true ?_
      rintro ⟨id, -, a, hfoundA, hpa⟩
      obtain ⟨e, he, ha⟩ := (hfound a).mpr ⟨id, hfoundA⟩
      obtain ⟨a', ha', hpa'⟩ := Hydrator.firstOf_eq_none ho e he
      obtain rfl : a' = a := Except.ok.inj (ha'.symm.trans ha)
      exact absurd (hpa'.symm.trans hpa) Bool.false_ne_true
    | some a =>
      obtain ⟨hpa, he⟩ := Hydrator.firstOf_eq_some ho
      obtain ⟨id, hfoundA⟩ := (hfound a).mp he
      exact iff_of_true rfl ⟨id, hmatch id a hfoundA hpa, a, hfoundA, hpa⟩
  · intro a ha
    obtain rfl : o = some a := ha
    obtain ⟨hpa, he⟩ := Hydrator.firstOf_eq_some ho
    obtain ⟨id, hfoundA⟩ := (hfound a).mp he
    exact ⟨hpa, id, hmatch id a hfoundA hpa, hfoundA⟩

/-- **Where the searches work**, every stream hydrates, and what matches was committed
as an aggregate. -/
theorem SearchesWork.hydrates {committed : Finset String} (hord : s.events.Enumerates ord)
    (h : SearchesWork ord A now p committed s) :
    s.events.poisoned = false ∧ (∀ id, s.Stored id → ∃ a, s.Found (A.hydrate now) id a)
      ∧ ∀ id a, s.Found (A.hydrate now) id a → p a = true → id ∈ committed := by
  obtain ⟨as, hrun, -, ids, hnd, hforall, hids⟩ := h.find
  have hp : s.events.poisoned = false := by
    cases hpoisoned : s.events.poisoned with
    | true => exact absurd hrun (run_find_of_poisoned hpoisoned as s)
    | false => rfl
  have hentities := fun e => EventStore.mem_entities hord hp (e := e)
  rw [run_find hp] at hrun
  have has : Hydrator.keepAll (A.hydrate now) p (s.events.entities ord) = .ok as :=
    (Prod.mk.inj (Option.some.inj hrun)).1
  obtain ⟨hmake, -⟩ := Hydrator.keepAll_eq_ok has
  refine ⟨hp, ?_, ?_⟩
  · rintro id ⟨e, hget⟩
    have hid : e.id = id := EventStore.id_of_getOne hget
    obtain ⟨a, ha⟩ := hmake e ((hentities e).mpr (hid.symm ▸ hget))
    exact ⟨a, e, hget, ha⟩
  · intro id a ha hpa
    -- as many ids match as were found, and each that was found matches
    obtain ⟨matching, -, hmatching, hmem⟩ := EventStore.exists_ids_of_keepAll hord hp has
    have hsubset : ids ⊆ matching := fun id' hid' => by
      obtain ⟨-, a', ha', hpa'⟩ := (hids id').mp hid'
      exact hmem id' a' ha' hpa'
    have hlength : matching.length ≤ ids.length := by
      rw [hmatching.length_eq, hforall.length_eq]
    have hperm : ids.Perm matching := (hnd.subperm hsubset).perm_of_length_le hlength
    exact ((hids id).mp (hperm.mem_iff.mpr (hmem id a ha hpa))).1

end Searches

namespace MixedStore

/-- **The typed searches of a store work exactly where every stream in it hydrates as
an aggregate, and what hydrates under an id that only messages were committed under
does not match**; and the store is not poisoned. This is of every store that commits
and outbox workers can bring about, and every order of iteration. -/
theorem searches_work_iff {checks : OverflowChecks} {C : Codecs} {st : MixedStore}
    (hreached : Reached checks C st) (A : Aggregate σ) (now : SystemTime) (p : Agg σ → Bool)
    (s : Shared) (hs : s.events = st.store) (hord : s.events.Enumerates ord) :
    SearchesWork ord A now p st.aggregates s
      ↔ s.events.poisoned = false
        ∧ (∀ id ∈ st.aggregates, ∃ a, s.Found (A.hydrate now) id a)
        ∧ ∀ id ∈ st.messages, id ∉ st.aggregates →
          ∃ a, s.Found (A.hydrate now) id a ∧ p a = false := by
  have hstored : s.events.poisoned = false → ∀ id, s.Stored id ↔ id ∈ st.aggregates ∨ id ∈ st.messages := by
    intro hp id
    rw [← isSome_lookup_iff hreached, ← hs]
    unfold Shared.Stored
    rw [EventStore.getOne_eq hp]
    cases s.events.lookup id with
    | none => simp
    | some l => exact iff_of_true ⟨_, rfl⟩ rfl
  constructor
  · intro h
    obtain ⟨hp, hall, hmatch⟩ := h.hydrates hord
    refine ⟨hp, fun id hid => hall id ((hstored hp id).mpr (Or.inl hid)), fun id hid hnot => ?_⟩
    obtain ⟨a, ha⟩ := hall id ((hstored hp id).mpr (Or.inr hid))
    refine ⟨a, ha, ?_⟩
    cases hpa : p a with
    | true => exact absurd (hmatch id a ha hpa) hnot
    | false => rfl
  · rintro ⟨hp, haggregates, hmessages⟩
    refine SearchesWork.of_hydrates hord hp (fun id hid => ?_) (fun id a ha hpa => ?_)
    · by_cases haggregate : id ∈ st.aggregates
      · exact haggregates id haggregate
      · obtain ⟨a, ha, -⟩ := hmessages id (((hstored hp id).mp hid).resolve_left haggregate) haggregate
        exact ⟨a, ha⟩
    · by_contra hnot
      obtain ⟨e, hget, hmake⟩ := ha
      obtain ⟨a', ha', hpa'⟩ := hmessages id (((hstored hp id).mp ⟨e, hget⟩).resolve_left hnot) hnot
      obtain rfl := Shared.Found.unique ha' ⟨e, hget, hmake⟩
      exact absurd (hpa'.symm.trans hpa) Bool.false_ne_true

/-- An account that has been opened. -/
def openedAccount : Agg Bool :=
  EventMethod.assign
    ((Definition.opened (fun _ => true)).digest SystemTime.unixEpoch Entity.new ())
    (true, some "account-1")

/-- The message that says so. -/
def openedMessage (C : Codecs) : Agg OutboxMessage :=
  EventMethod.assign
    ((OutboxMessage.initializeMessage C).digest SystemTime.unixEpoch Entity.new
      ("opened", "AccountOpened", [], none, ∅))
    ({ OutboxMessage.default with eventType := "AccountOpened" }, some "outbox:opened")

/-- The account and the message, committed together. -/
def announced (C : Codecs) : MixedStore :=
  ⟨(EventStore.new.extend "account-1" openedAccount.entity.events).extend "outbox:opened"
    (openedMessage C).entity.events, ∅ ∪ ["account-1"].toFinset, ∅ ∪ ["outbox:opened"].toFinset⟩

theorem reached_announced (C : Codecs) : Reached false C (announced C) :=
  .single (.commit (s := empty) [openedAccount.entity] [(openedMessage C).entity]
    [openedAccount.entity, (openedMessage C).entity] (.refl _) rfl)

/-- The repository with these events. -/
def announcedShared (C : Codecs) : Shared := ⟨(announced C).store, SnapshotStore.new, fun _ => false⟩

theorem enumerates_announced (C : Codecs) :
    (announcedShared C).events.Enumerates ["account-1", "outbox:opened"] := by
  refine ⟨by decide, fun id => ?_⟩
  have hiff := isSome_lookup_iff (reached_announced C) id
  show _ ↔ ((announced C).store.lookup id).isSome
  rw [hiff]
  simp [announced]

/-- Accounts that are open. -/
abbrev SearchAccounts (ord : List String) (committed : Finset String) (s : Shared) : Prop :=
  SearchesWork ord (Definition.account (fun _ => true)).aggregate SystemTime.unixEpoch Agg.fields
    committed s

/-- An account whose replay passes over events it does not know. -/
def lenientAccount : Aggregate Bool where
  default := false
  replayEvent _ e a := .ok (if e.eventName = "Opened" then ⟨true, a.entity⟩ else a)
  upcasters := []

/-- **With an account and a message**, the searches for accounts that are open work where a
message hydrates, as an account that is not. -/
theorem searches_work_account :
    Reached false Codecs.counting (announced Codecs.counting)
      ∧ "account-1" ∈ (announced Codecs.counting).aggregates
      ∧ "outbox:opened" ∈ (announced Codecs.counting).messages
      ∧ SearchesWork ["account-1", "outbox:opened"] lenientAccount SystemTime.unixEpoch Agg.fields
        (announced Codecs.counting).aggregates (announcedShared Codecs.counting) := by
  have hreached := reached_announced Codecs.counting
  refine ⟨hreached, by decide, by decide, (searches_work_iff hreached _ _ _ (announcedShared _)
    rfl (enumerates_announced _)).mpr ⟨rfl, fun id hid => ?_, fun id hid _ => ?_⟩⟩
  · obtain rfl : id = "account-1" := by simpa [announced] using hid
    exact ⟨_, _, rfl, rfl⟩
  · obtain rfl : id = "outbox:opened" := by simpa [announced] using hid
    exact ⟨_, ⟨_, rfl, rfl⟩, rfl⟩

/-- **One message fails every search**: an account is committed together with a message
that says so, and the searches for accounts fail at the event of the message. -/
theorem searches_fail : ∃ (st : MixedStore) (s s' : Shared) (message : Agg OutboxMessage),
    OutboxMessage.create Codecs.counting SystemTime.unixEpoch "opened" "AccountOpened" [] = some message
      ∧ Prog.run (RepoAction.exec [])
          (AggregateRepository.outboxCommit hashMapRepository openedAccount message.entity) s'
        = some ((.ok (), [{ openedAccount with entity := openedAccount.entity.markCommitted }],
            [message.entity.markCommitted]), s)
      ∧ Reached false Codecs.counting st ∧ s.events = st.store ∧ "account-1" ∈ st.aggregates
      ∧ s.events.Enumerates ["account-1", "outbox:opened"]
      ∧ Op.run ["account-1", "outbox:opened"]
          (AggregateRepository.find hashMapRepository (Definition.account (fun _ => true)).aggregate
            SystemTime.unixEpoch Agg.fields) s
        = some (.error (.err (.replay "Unknown event: MessageCreated")), s)
      ∧ ¬ SearchAccounts ["account-1", "outbox:opened"] st.aggregates s := by
  have hfail : Op.run ["account-1", "outbox:opened"]
      (AggregateRepository.find hashMapRepository (Definition.account (fun _ => true)).aggregate
        SystemTime.unixEpoch Agg.fields) (announcedShared Codecs.counting)
      = some (.error (.err (.replay "Unknown event: MessageCreated")), announcedShared Codecs.counting) := rfl
  refine ⟨announced _, announcedShared _, Shared.empty, openedMessage _, rfl, rfl, reached_announced _, rfl,
    by decide, enumerates_announced _, hfail, fun h => ?_⟩
  obtain ⟨as, hrun, -⟩ := h.find
  exact absurd (hfail.symm.trans hrun) (by simp)

end MixedStore
