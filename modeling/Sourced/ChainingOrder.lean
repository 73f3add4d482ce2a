import Sourced.CommitBuilder

/-!
# The order of chaining

A commit builder is filled by chained calls of `readmodel` and `outbox`, in any
order, before it commits (`commit_builder/mod.rs`: "chain methods in any
order"). The order is the order of the entities in the batch and of the writes
of the models after it. As long as no two calls are about one thing – the keys
of the models differ, and the ids of the messages from each other and from the
aggregate's – it decides nothing but which entity an error names:
`CommitBuilder.chaining_order`.

Entities of different ids are appended to different streams, and models of
different keys change places (`Call.Turns.perm`). Whether a commit is accepted
is asked of each entity by itself.
-/

variable {σ : Type}

/-! ## Chained calls -/

/-- **A call on a builder.** -/
inductive BuilderCall : Type 1 where
  | readmodel {M : Type} (V : ReadModel M) (model : M)
  | outbox (msg : Agg OutboxMessage)

namespace BuilderCall

/-- What the call does to the builder; `none` is a panic. -/
def apply (b : CommitBuilder) : BuilderCall → Option CommitBuilder
  | readmodel V model => b.readmodel V model
  | outbox msg => some (b.outbox msg)

/-- The key of the model of a call. -/
def key : BuilderCall → Option String
  | readmodel V model => some (V.key model)
  | outbox _ => none

/-- The id of the message of a call. -/
def messageId : BuilderCall → Option String
  | readmodel _ _ => none
  | outbox msg => some msg.entity.id

/-- The entity a call adds. -/
def entity : BuilderCall → Option Entity
  | readmodel _ _ => none
  | outbox msg => some msg.entity

/-- The model a call adds. -/
def model : BuilderCall → Option QueuedModel
  | readmodel V model => (V.toVec model).toOption.map (fun bytes => ⟨V.key model, bytes⟩)
  | outbox _ => none

/-- The model of a call serializes. -/
def Serializes : BuilderCall → Prop
  | readmodel V model => ∃ bytes, V.toVec model = .ok bytes
  | outbox _ => True

/-- **What a call does**: it adds its entity and its model, if the model
serializes. -/
theorem apply_eq_some {c : BuilderCall} {b b' : CommitBuilder} :
    c.apply b = some b'
      ↔ c.Serializes ∧ b' = ⟨b.entities ++ c.entity.toList, b.models ++ c.model.toList⟩ := by
  cases c with
  | readmodel V model =>
    show b.readmodel V model = some b' ↔ (∃ bytes, V.toVec model = .ok bytes) ∧ _
    unfold CommitBuilder.readmodel BuilderCall.model
    cases hvec : V.toVec model with
    | error e => simp
    | ok bytes => simp [hvec, entity, Except.toOption, eq_comm]
  | outbox msg =>
    show some (b.outbox msg) = some b' ↔ True ∧ _
    simp [CommitBuilder.outbox, entity, BuilderCall.model, eq_comm]

variable {calls : List BuilderCall}

theorem map_id_entities (calls : List BuilderCall) (e : Entity) :
    calls.filterMap messageId ++ [e.id] = (calls.filterMap entity ++ [e]).map Entity.id := by
  have hentity : ∀ c : BuilderCall, c.entity.map Entity.id = c.messageId := by rintro ⟨⟩ <;> rfl
  rw [List.map_append, List.map_filterMap]
  simp only [hentity]
  rfl

/-- The keys of the models, where all of them serialize. -/
theorem map_key_models (hser : ∀ c ∈ calls, c.Serializes) :
    (calls.filterMap BuilderCall.model).map QueuedModel.key = calls.filterMap key := by
  rw [List.map_filterMap]
  refine List.filterMap_congr (fun c hc => ?_)
  have hvec := hser c hc
  cases c with
  | readmodel V model =>
    obtain ⟨bytes, hbytes⟩ := hvec
    simp [BuilderCall.model, key, hbytes, Except.toOption]
  | outbox msg => rfl

end BuilderCall

namespace CommitBuilder

/-- **The chained calls**; `none` is a panic of one of them. -/
def chain (b : CommitBuilder) (calls : List BuilderCall) : Option CommitBuilder :=
  calls.foldlM BuilderCall.apply b

/-- **Chained calls and the commit of an aggregate.** -/
def chained (calls : List BuilderCall) (agg : Agg σ) : StoreProg (RepoRes Unit × Agg σ) :=
  match new.chain calls with
  | none => .ret (.error .panic, agg)
  | some b => b.commit agg

/-- **What chained calls leave**: the entities and the models of all of them, each
in the order of the calls. -/
theorem chain_eq_some {calls : List BuilderCall} {b b' : CommitBuilder} :
    b.chain calls = some b'
      ↔ (∀ c ∈ calls, c.Serializes)
        ∧ b' = ⟨b.entities ++ calls.filterMap BuilderCall.entity,
          b.models ++ calls.filterMap BuilderCall.model⟩ := by
  induction calls generalizing b with
  | nil =>
    show some b = some b' ↔ _
    simp [eq_comm]
  | cons c calls ih =>
    show (c.apply b).bind (fun b₁ => b₁.chain calls) = some b' ↔ _
    rw [Option.bind_eq_some_iff, List.forall_mem_cons]
    have hcons : ∀ {β : Type} (f : BuilderCall → Option β),
        (c :: calls).filterMap f = (f c).toList ++ calls.filterMap f := by
      intro β f
      cases hf : f c with
      | none => rw [List.filterMap_cons_none hf]; rfl
      | some x => rw [List.filterMap_cons_some hf]; rfl
    rw [hcons, hcons]
    constructor
    · rintro ⟨b₁, hc, hrest⟩
      obtain ⟨hser, rfl⟩ := BuilderCall.apply_eq_some.mp hc
      obtain ⟨hall, rfl⟩ := ih.mp hrest
      exact ⟨⟨hser, hall⟩, by simp only [List.append_assoc]⟩
    · rintro ⟨⟨hser, hall⟩, rfl⟩
      exact ⟨_, BuilderCall.apply_eq_some.mpr ⟨hser, rfl⟩,
        ih.mpr ⟨hall, by simp only [List.append_assoc]⟩⟩

theorem chain_new {calls : List BuilderCall} {b : CommitBuilder} :
    new.chain calls = some b
      ↔ (∀ c ∈ calls, c.Serializes)
        ∧ b = ⟨calls.filterMap BuilderCall.entity, calls.filterMap BuilderCall.model⟩ :=
  chain_eq_some

end CommitBuilder

/-! ## Batches and writes in another order -/

namespace EventStore

/-- Streams of different ids are appended to in either order. -/
theorem extend_comm (s : EventStore) {id id' : String} (h : id ≠ id') (l l' : List EventRecord) :
    (s.extend id l).extend id' l' = (s.extend id' l').extend id l := by
  unfold extend
  have hid : (s.extend id l).stream id' = s.stream id' := stream_extend_of_ne s (Ne.symm h) l
  have hid' : (s.extend id' l').stream id = s.stream id := stream_extend_of_ne s h l'
  unfold extend at hid hid'
  rw [hid, hid']
  exact congrArg (fun streams => { s with streams := streams })
    (Finmap.insert_insert_of_ne s.streams h)

/-- **A batch of different ids is appended in any order.** -/
theorem extendAll_perm (s : EventStore) {es es' : List Entity} (hperm : es.Perm es')
    (hnd : (es.map Entity.id).Nodup) : s.extendAll es = s.extendAll es' := by
  refine hperm.foldl_eq' (fun e he e' he' t => ?_) s
  by_cases heq : e = e'
  · rw [heq]
  · exact extend_comm t (fun hid => heq (List.inj_on_of_nodup_map hnd he he' hid)) _ _

theorem Valid.perm {s : EventStore} {es es' : List Entity} (h : s.Valid es) (hperm : es.Perm es') :
    s.Valid es' := fun e he => h e (hperm.mem_iff.mpr he)

/-- A second pass that returns has found every slice in range. -/
theorem newEvents_of_append {s : EventStore} {es : List Entity} (h : (s.append es).1 = .ok ()) :
    ∀ e ∈ es, e.newEvents = some e.uncommitted := by
  induction es generalizing s with
  | nil => exact fun e he => absurd he List.not_mem_nil
  | cons e es ih =>
    rw [append] at h
    cases hnew : e.newEvents with
    | none => rw [hnew] at h; cases h
    | some new =>
      rw [hnew] at h
      refine List.forall_mem_cons.mpr ⟨?_, ih h⟩
      unfold Entity.newEvents at hnew
      split at hnew
      · rename_i hle
        exact if_pos hle
      · cases hnew

/-- **A batch of different ids that is accepted is accepted in any order**, and
leaves the same store. -/
theorem commit_perm_ok {s s' : EventStore} {es es' es₁ : List Entity} (hperm : es.Perm es')
    (hnd : (es.map Entity.id).Nodup) (h : s.commit es = (.ok (), es₁, s')) :
    s.commit es' = (.ok (), es'.map Entity.markCommitted, s') := by
  obtain ⟨-, rfl⟩ := commit_eq_ok h
  have hvalid := valid_of_commit h
  cases hp : s.poisoned with
  | true =>
    rw [commit_of_poisoned es hp] at h
    cases (Prod.mk.inj h).1
  | false =>
    rw [commit, hp, validate_eq_ok.mpr hvalid] at h
    have hnew := newEvents_of_append (congrArg Prod.fst h)
    rw [extendAll_perm s hperm hnd]
    exact commit_of_valid hp (hvalid.perm hperm) (fun e he => hnew e (hperm.mem_iff.mpr he))

/-- **A batch that is refused is refused in any order.** -/
theorem commit_perm_err {s s' : EventStore} {es es' es₁ : List Entity} {f : RepositoryError}
    (hperm : es.Perm es') (h : s.commit es = (.error (.err f), es₁, s')) :
    ∃ f', s.commit es' = (.error (.err f'), es', s') := by
  obtain ⟨-, rfl⟩ := commit_eq_err h
  cases hp : s'.poisoned with
  | true => exact ⟨_, commit_of_poisoned es' hp⟩
  | false =>
    have hvalid : ¬ s'.Valid es' := by
      intro hv
      rw [commit, hp, validate_eq_ok.mpr (hv.perm hperm.symm)] at h
      exact append_ne_err h
    obtain ⟨e, -, he⟩ := commit_of_not_valid hp hvalid
    exact ⟨_, he⟩

end EventStore

namespace InMemoryReadModelStore

variable {checks : OverflowChecks} {s : InMemoryReadModelStore} {key key' : String}

theorem nextVersion_insert_of_ne (h : key ≠ key') (stored : StoredModel) :
    (s.insert key' stored).nextVersion checks key = s.nextVersion checks key := by
  have hlookup : (s.insert key' stored).lookup key = s.lookup key := Finmap.lookup_insert_of_ne _ h
  rw [nextVersion, hlookup, nextVersion]

theorem insert_comm (h : key ≠ key') (stored stored' : StoredModel) :
    (s.insert key stored).insert key' stored' = (s.insert key' stored').insert key stored :=
  congrArg (fun storage => { s with storage := storage }) (Finmap.insert_insert_of_ne s.storage h)

/-- **A write succeeds** exactly where the store is in working order and the
version does not overflow. -/
theorem upsertRaw_eq_ok {s' : InMemoryReadModelStore} {bytes : Bytes} :
    s.upsertRaw checks key bytes = (.ok (), s')
      ↔ s.poisoned = false
        ∧ ∃ v, s.nextVersion checks key = some v ∧ s' = s.insert key ⟨bytes, v⟩ := by
  unfold upsertRaw saveRaw
  cases s.poisoned with
  | true => simp [Except.map]
  | false =>
    cases s.nextVersion checks key with
    | none => simp [Except.map]
    | some v => simp [Except.map, eq_comm]

theorem upsertRaw_of_poisoned (hp : s.poisoned = true) (bytes : Bytes) :
    s.upsertRaw checks key bytes = (.error (.err (.storage "lock poisoned")), s) := by
  unfold upsertRaw saveRaw
  rw [if_pos hp]
  rfl

theorem poisoned_of_upsertRaw_err {s' : InMemoryReadModelStore} {bytes : Bytes} {e : ReadModelError}
    (h : s.upsertRaw checks key bytes = (.error (.err e), s')) : s.poisoned = true := by
  unfold upsertRaw saveRaw at h
  cases hp : s.poisoned with
  | true => rfl
  | false => cases hv : s.nextVersion checks key <;> rw [hp, hv] at h <;> cases h

end InMemoryReadModelStore

namespace HashMapStores

open CommitBuilder

variable {checks : OverflowChecks} {s s' : HashMapStores}

/-- The commit of entities is that of the event store. -/
theorem exec_commit (checks : OverflowChecks) {es es' : List Entity} {r : RepoRes Unit} :
    exec checks (.commit es) s = some ((r, es'), s')
      ↔ s.events.commit es = (r, es', s'.events) ∧ s'.models = s.models := by
  rw [exec]
  constructor
  · intro h
    obtain ⟨hout, rfl⟩ := Prod.mk.inj (Option.some.inj h)
    obtain ⟨hr, hes⟩ := Prod.mk.inj hout
    exact ⟨Prod.ext hr (Prod.ext hes rfl), rfl⟩
  · rintro ⟨h, hmodels⟩
    rw [h, ← hmodels]

/-- **The write of a queued model** that succeeds. -/
theorem run_writeModel_ok {q : QueuedModel} :
    Prog.run (exec checks) (writeModel q) s = some (.ok (), s')
      ↔ s.models.poisoned = false
        ∧ ∃ v, s.models.nextVersion checks q.key = some v
          ∧ s' = { s with models := s.models.insert q.key ⟨q.bytes, v⟩ } := by
  constructor
  · intro h
    have hexec := ModelRepo.exec_of_writeModel_ok (R := repo checks) h
    obtain ⟨hr, rfl⟩ := Prod.mk.inj (Option.some.inj hexec)
    obtain ⟨hp, v, hv, hs⟩ := InMemoryReadModelStore.upsertRaw_eq_ok.mp (Prod.ext hr rfl)
    exact ⟨hp, v, hv, congrArg (fun models => { s with models := models }) hs⟩
  · rintro ⟨hp, v, hv, rfl⟩
    show (exec checks (.upsertRaw q.key q.bytes) s).bind _ = _
    rw [exec, InMemoryReadModelStore.upsertRaw_eq hp hv]
    rfl

theorem run_writeModel_of_poisoned (hp : s.models.poisoned = true) (q : QueuedModel) :
    Prog.run (exec checks) (writeModel q) s
      = some (.error (.err (.ofReadModel (.storage "lock poisoned"))), s) := by
  show (exec checks (.upsertRaw q.key q.bytes) s).bind _ = _
  rw [exec, InMemoryReadModelStore.upsertRaw_of_poisoned hp]
  rfl

/-- **Two writes of different keys change places.** -/
theorem run_writeModel_swap {q q' : QueuedModel} (h : q.key ≠ q'.key) {s₁ s₂ : HashMapStores}
    (h₁ : Prog.run (exec checks) (writeModel q) s = some (.ok (), s₁))
    (h₂ : Prog.run (exec checks) (writeModel q') s₁ = some (.ok (), s₂)) :
    ∃ s₁', Prog.run (exec checks) (writeModel q') s = some (.ok (), s₁')
      ∧ Prog.run (exec checks) (writeModel q) s₁' = some (.ok (), s₂) := by
  obtain ⟨hp, v, hv, rfl⟩ := run_writeModel_ok.mp h₁
  obtain ⟨-, v', hv', rfl⟩ := run_writeModel_ok.mp h₂
  rw [InMemoryReadModelStore.nextVersion_insert_of_ne (Ne.symm h)] at hv'
  refine ⟨_, run_writeModel_ok.mpr ⟨hp, v', hv', rfl⟩,
    run_writeModel_ok.mpr ⟨hp, v, ?_, ?_⟩⟩
  · rw [InMemoryReadModelStore.nextVersion_insert_of_ne h]
    exact hv
  · exact congrArg (fun models => { s with models := models })
      (InMemoryReadModelStore.insert_comm h _ _)

/-- **Models of different keys are written in any order.** -/
theorem run_writeModels_perm_ok {qs qs' : List QueuedModel} (hperm : qs.Perm qs')
    (hnd : (qs.map QueuedModel.key).Nodup)
    (h : Prog.run (exec checks) (writeModels qs) s = some (.ok (), s')) :
    Prog.run (exec checks) (writeModels qs') s = some (.ok (), s') := by
  have hturns := Call.run_forEach_eq_ok.mp h
  refine Call.run_forEach_eq_ok.mpr (hturns.perm hperm fun q hq q' hq' hne t t₁ t₂ h₁ h₂ => ?_)
  exact run_writeModel_swap (fun hkey => hne (List.inj_on_of_nodup_map hnd hq hq' hkey)) h₁ h₂

/-- **The writes are refused** where the lock of the models is poisoned, and then
the first is. -/
theorem run_writeModels_err {qs : List QueuedModel} {e : RepositoryError} :
    Prog.run (exec checks) (writeModels qs) s = some (.error (.err e), s')
      ↔ s.models.poisoned = true ∧ qs ≠ []
        ∧ e = RepositoryError.ofReadModel (.storage "lock poisoned") ∧ s' = s := by
  constructor
  · intro h
    obtain ⟨done, q, rest, s₁, rfl, hdone, hq⟩ := Call.run_forEach_eq_error.mp h
    obtain ⟨e', hexec⟩ := ModelRepo.exec_of_writeModel_err (R := repo checks) hq
    obtain ⟨hr, -⟩ := Prod.mk.inj (Option.some.inj hexec)
    have hpoisoned := InMemoryReadModelStore.poisoned_of_upsertRaw_err (Prod.ext hr rfl)
    cases hdone with
    | nil =>
      refine ⟨hpoisoned, List.cons_ne_nil q rest, ?_⟩
      obtain ⟨hout, rfl⟩ := Prod.mk.inj
        (Option.some.inj (hq.symm.trans (run_writeModel_of_poisoned hpoisoned q)))
      exact ⟨Fault.err.inj (Except.error.inj hout), rfl⟩
    | cons hx hxs =>
      -- the store was in working order for the models before this one, and still is
      have hworking : s₁.models.poisoned = false := by
        refine hxs.preserves (P := fun t => t.models.poisoned = false) (fun x t t' ht hrun => ?_) ?_
        · obtain ⟨-, v, -, rfl⟩ := run_writeModel_ok.mp hrun
          exact ht
        · obtain ⟨hp, v, -, rfl⟩ := run_writeModel_ok.mp hx
          exact hp
      exact absurd (hworking.symm.trans hpoisoned) Bool.false_ne_true
  · rintro ⟨hp, hqs, rfl, rfl⟩
    obtain ⟨q, rest, rfl⟩ := List.exists_cons_of_ne_nil hqs
    exact Call.run_forEach_eq_error.mpr
      ⟨[], q, rest, s', rfl, .nil s', run_writeModel_of_poisoned hp q⟩

end HashMapStores

/-! ## The order does not matter -/

/-- **Both calls return `Ok`, or both return an error.** -/
def SameKind (r r' : RepoRes Unit) : Prop :=
  r = .ok () ∧ r' = .ok () ∨ ∃ e e', r = .error (.err e) ∧ r' = .error (.err e')

namespace CommitBuilder

variable {checks : OverflowChecks} {s s' : HashMapStores}

theorem drop_markCommitted (es : List Entity) (e : Entity) :
    ((es ++ [e]).map Entity.markCommitted).drop es.length = [e.markCommitted] := by
  rw [List.map_append, List.drop_left' (List.length_map _)]
  rfl

/-- **A commit of the entities in another order** ends in the same way. -/
theorem run_commitEntities_perm {b b' : CommitBuilder} (hentities : b.entities.Perm b'.entities)
    (hmodels : b.models.Perm b'.models) {e : Entity} {passed : List Entity}
    (hids : ((b.entities ++ [e]).map Entity.id).Nodup)
    (hkeys : (b.models.map QueuedModel.key).Nodup) {r : RepoRes Unit} (hr : SameKind r r)
    (h : (b.commitEntities [e]).run (HashMapStores.exec checks) s = some ((r, passed), s')) :
    ∃ r', (b'.commitEntities [e]).run (HashMapStores.exec checks) s = some ((r', passed), s')
      ∧ SameKind r r' := by
  have hperm : (b.entities ++ [e]).Perm (b'.entities ++ [e]) := hentities.append_right _
  rcases ModelRepo.run_commitEntities (R := HashMapStores.repo checks).mp h with
    ⟨f, es, hexec, rfl, rfl⟩ | ⟨es, s₁, hexec, hwrite, rfl⟩
  · -- the entities are refused, and left as they were
    obtain ⟨f, rfl⟩ : ∃ f', f = .err f' := by simpa [SameKind] using hr
    obtain ⟨hcommit, hsame⟩ := (HashMapStores.exec_commit checks).mp hexec
    obtain ⟨rfl, -⟩ := EventStore.commit_eq_err hcommit
    obtain ⟨f', hcommit'⟩ := EventStore.commit_perm_err hperm hcommit
    refine ⟨.error (.err f'), ?_, Or.inr ⟨f, f', rfl, rfl⟩⟩
    rw [List.drop_left]
    have hexec' : HashMapStores.exec checks (.commit (b'.entities ++ [e])) s
        = some ((.error (.err f'), b'.entities ++ [e]), s') :=
      (HashMapStores.exec_commit checks).mpr ⟨hcommit', hsame⟩
    exact (ModelRepo.run_commitEntities (R := HashMapStores.repo checks)).mpr
      (Or.inl ⟨.err f', _, hexec', rfl, List.drop_left.symm⟩)
  · -- they are accepted, and the models are written next
    obtain ⟨hcommit, hsame⟩ := (HashMapStores.exec_commit checks).mp hexec
    obtain ⟨rfl, -⟩ := EventStore.commit_eq_ok hcommit
    have hexec' : HashMapStores.exec checks (.commit (b'.entities ++ [e])) s
        = some ((.ok (), (b'.entities ++ [e]).map Entity.markCommitted), s₁) :=
      (HashMapStores.exec_commit checks).mpr ⟨EventStore.commit_perm_ok hperm hids hcommit, hsame⟩
    have hpassed := (drop_markCommitted b.entities e).trans (drop_markCommitted b'.entities e).symm
    rcases hr with ⟨rfl, -⟩ | ⟨f, f', rfl, -⟩
    · exact ⟨.ok (), (ModelRepo.run_commitEntities (R := HashMapStores.repo checks)).mpr
        (Or.inr ⟨_, s₁, hexec', HashMapStores.run_writeModels_perm_ok hmodels hkeys hwrite, hpassed⟩),
        Or.inl ⟨rfl, rfl⟩⟩
    · obtain ⟨hp, hne, rfl, rfl⟩ := HashMapStores.run_writeModels_err.mp hwrite
      have hne' : b'.models ≠ [] := fun hnil => hne (List.perm_nil.mp (hnil ▸ hmodels))
      exact ⟨_, (ModelRepo.run_commitEntities (R := HashMapStores.repo checks)).mpr
        (Or.inr ⟨_, s', hexec', HashMapStores.run_writeModels_err.mpr ⟨hp, hne', rfl, rfl⟩, hpassed⟩),
        Or.inr ⟨_, _, rfl, rfl⟩⟩

/-- **A chain in another order** ends in the same way, if it returns. -/
theorem run_chained_perm {agg agg' : Agg σ} {calls calls' : List BuilderCall}
    (hperm : calls.Perm calls') (hkeys : (calls.filterMap BuilderCall.key).Nodup)
    (hids : (calls.filterMap BuilderCall.messageId ++ [agg.entity.id]).Nodup)
    {r : RepoRes Unit} (hr : SameKind r r)
    (h : (chained calls agg).run (HashMapStores.exec checks) s = some ((r, agg'), s')) :
    ∃ r', (chained calls' agg).run (HashMapStores.exec checks) s = some ((r', agg'), s')
      ∧ SameKind r r' := by
  unfold chained at h ⊢
  cases hchain : new.chain calls with
  | none =>
    rw [hchain] at h
    obtain ⟨hout, -⟩ := Prod.mk.inj (Option.some.inj h)
    obtain ⟨rfl, -⟩ := Prod.mk.inj hout
    simp [SameKind] at hr
  | some b =>
    rw [hchain] at h
    obtain ⟨hser, rfl⟩ := chain_new.mp hchain
    rw [chain_new.mpr ⟨fun c hc => hser c (hperm.mem_iff.mpr hc), rfl⟩]
    dsimp only at h ⊢
    rw [commit, Prog.run_map] at h ⊢
    obtain ⟨⟨⟨r₀, passed⟩, s₀⟩, hrun, heq⟩ := Option.map_eq_some_iff.mp h
    obtain ⟨hout, hs⟩ := Prod.mk.inj heq
    obtain ⟨hr₀, hagg⟩ := Prod.mk.inj hout
    dsimp only at hs hr₀ hagg
    subst hs hr₀ hagg
    let b' : CommitBuilder :=
      ⟨calls'.filterMap BuilderCall.entity, calls'.filterMap BuilderCall.model⟩
    have hmodels : (calls.filterMap BuilderCall.model).Perm b'.models := hperm.filterMap _
    obtain ⟨r', hrun', hsame⟩ := run_commitEntities_perm (hperm.filterMap BuilderCall.entity) hmodels
      (BuilderCall.map_id_entities calls agg.entity ▸ hids)
      ((BuilderCall.map_key_models hser).symm ▸ hkeys) hr hrun
    exact ⟨r', by rw [hrun']; rfl, hsame⟩

/-- **Chaining order does not matter.** Calls whose models have different keys, and
whose messages have different ids, none of them the aggregate's, are chained in any
two orders before the commit of an aggregate. The one commit returns `Ok` exactly
where the other does, and an error exactly where the other does; and then they leave
the same aggregate, the same streams, and the same models and versions. -/
theorem chaining_order (checks : OverflowChecks) (s : HashMapStores) (agg : Agg σ)
    {calls calls' : List BuilderCall} (hperm : calls.Perm calls')
    (hkeys : (calls.filterMap BuilderCall.key).Nodup)
    (hids : (calls.filterMap BuilderCall.messageId ++ [agg.entity.id]).Nodup)
    (agg' : Agg σ) (s' : HashMapStores) :
    ((chained calls agg).run (HashMapStores.exec checks) s = some ((.ok (), agg'), s')
        ↔ (chained calls' agg).run (HashMapStores.exec checks) s = some ((.ok (), agg'), s'))
      ∧ ((∃ e, (chained calls agg).run (HashMapStores.exec checks) s
            = some ((.error (.err e), agg'), s'))
          ↔ ∃ e, (chained calls' agg).run (HashMapStores.exec checks) s
            = some ((.error (.err e), agg'), s')) := by
  have hkeys' : (calls'.filterMap BuilderCall.key).Nodup := (hperm.filterMap _).nodup_iff.mp hkeys
  have hids' : (calls'.filterMap BuilderCall.messageId ++ [agg.entity.id]).Nodup :=
    ((hperm.filterMap _).append_right _).nodup_iff.mp hids
  -- in one direction, for any two orders
  have hok : ∀ {c c' : List BuilderCall}, c.Perm c' → (c.filterMap BuilderCall.key).Nodup →
      (c.filterMap BuilderCall.messageId ++ [agg.entity.id]).Nodup →
      (chained c agg).run (HashMapStores.exec checks) s = some ((.ok (), agg'), s') →
      (chained c' agg).run (HashMapStores.exec checks) s = some ((.ok (), agg'), s') := by
    intro c c' hc hk hi hrun
    obtain ⟨r', hrun', ⟨-, rfl⟩ | ⟨e, e', he, -⟩⟩ :=
      run_chained_perm hc hk hi (Or.inl ⟨rfl, rfl⟩) hrun
    · exact hrun'
    · cases he
  have herr : ∀ {c c' : List BuilderCall}, c.Perm c' → (c.filterMap BuilderCall.key).Nodup →
      (c.filterMap BuilderCall.messageId ++ [agg.entity.id]).Nodup →
      (∃ e, (chained c agg).run (HashMapStores.exec checks) s = some ((.error (.err e), agg'), s')) →
      ∃ e, (chained c' agg).run (HashMapStores.exec checks) s
        = some ((.error (.err e), agg'), s') := by
    rintro c c' hc hk hi ⟨e, hrun⟩
    obtain ⟨r', hrun', ⟨he, -⟩ | ⟨_, e', -, rfl⟩⟩ :=
      run_chained_perm hc hk hi (Or.inr ⟨e, e, rfl, rfl⟩) hrun
    · cases he
    · exact ⟨e', hrun'⟩
  exact ⟨⟨hok hperm hkeys hids, hok hperm.symm hkeys' hids'⟩,
    ⟨herr hperm hkeys hids, herr hperm.symm hkeys' hids'⟩⟩

/-- The view of a game. -/
def gameView : ReadModel Unit := ⟨"game_views", fun _ => "game-42", fun _ => .ok [1]⟩

/-- A message that a game has moved. -/
def movedMessage : Agg OutboxMessage :=
  ⟨{ OutboxMessage.default with eventType := "GameMoved" },
    { Entity.withId "outbox:game-42:moved" with
      version := 1
      events := [EventRecord.new "MessageCreated" [] 1 SystemTime.unixEpoch] }⟩

/-- **A game, its view and a message**, with the view first and with the message
first. -/
theorem chaining_order_game : ∃ (agg : Agg Unit) (s : HashMapStores),
    (chained [.readmodel gameView (), .outbox movedMessage] ⟨(), movedGame⟩).run
        (HashMapStores.exec true) HashMapStores.new = some ((.ok (), agg), s)
      ∧ (chained [.outbox movedMessage, .readmodel gameView ()] ⟨(), movedGame⟩).run
        (HashMapStores.exec true) HashMapStores.new = some ((.ok (), agg), s) :=
  ⟨_, _, rfl, (chaining_order true HashMapStores.new ⟨(), movedGame⟩ (.swap _ _ _) (by decide)
    (by decide) _ _).1.mp rfl⟩

end CommitBuilder
