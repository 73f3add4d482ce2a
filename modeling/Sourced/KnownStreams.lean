import Sourced.QueuedRepository
import Sourced.Interleaving

/-!
# What a client knows of the store

Nobody does anything to a stream but append to it. So what a client has once
read of a stream stays a beginning of it, whatever the others do, and this is
all a client needs to know: an entity that tracks what the client knows tracks
what is stored.

`Known` is a beginning of every stream, `Known.protocol` what a client may do
that knows it – commit only entities that track it, save only snapshots that
are right for it – and what it learns from each response. `StoreInv.act` says
that the actions keep their side: the streams stay numbered, what anyone knows
stays a beginning of what is stored, and the stored snapshots stay right for
the stored streams. What makes a snapshot right is a parameter.
-/

/-- **What is known of the streams**: a beginning of each. -/
structure Known where
  stream : String → List EventRecord

namespace Known

/-- One can know more. -/
instance : Preorder Known where
  le k k' := ∀ id, k.stream id <+: k'.stream id
  le_refl _ _ := List.prefix_rfl
  le_trans _ _ _ h h' id := (h id).trans (h' id)

/-- Nothing is known. -/
def nothing : Known := ⟨fun _ => []⟩

/-- **The entities track what is known.** -/
def Tracks (k : Known) (es : List Entity) : Prop := ∀ e ∈ es, e.Tracks (k.stream e.id)

namespace Tracks

variable {k k' : Known} {e e' : Entity} {es es' pre post : List Entity}

theorem nil : k.Tracks [] := fun _ h => absurd h List.not_mem_nil

theorem mono (h : k.Tracks es) (hk : k ≤ k') : k'.Tracks es :=
  fun e he => (h e he).mono (hk e.id)

theorem append (h : k.Tracks es) (h' : k.Tracks es') : k.Tracks (es ++ es') :=
  fun e he => (List.mem_append.mp he).elim (h e) (h' e)

theorem cons (he : e.Tracks (k.stream e.id)) (h : k.Tracks es) : k.Tracks (e :: es) :=
  List.forall_mem_cons.mpr ⟨he, h⟩

theorem replace (h : k.Tracks (pre ++ e :: post)) (he' : e'.Tracks (k.stream e'.id)) :
    k.Tracks (pre ++ e' :: post) := by
  refine append (fun f hf => h f (List.mem_append_left _ hf)) (cons he' (fun f hf => ?_))
  exact h f (List.mem_append_right _ (List.mem_cons_of_mem _ hf))

end Tracks

end Known

/-- **The entity was loaded from the store**: its events are a beginning of its
stream, and its counters their number. -/
structure Known.Loads (k : Known) (e : Entity) : Prop where
  loadEntity : e = EventStore.loadEntity e.id e.events
  numbered : Numbered EventRecord.sequence e.events
  initial : e.events <+: k.stream e.id

namespace Known.Loads

variable {k k' : Known} {e : Entity}

theorem mono (h : k.Loads e) (hk : k ≤ k') : k'.Loads e :=
  ⟨h.loadEntity, h.numbered, h.initial.trans (hk e.id)⟩

theorem version_eq (h : k.Loads e) : e.version = e.events.length := by
  rw [h.loadEntity]
  rfl

theorem replaying_eq (h : k.Loads e) : e.replaying = false := by
  rw [h.loadEntity]
  rfl

theorem tracks (h : k.Loads e) : e.Tracks (k.stream e.id) := by
  have htracks : (EventStore.loadEntity e.id e.events).Tracks e.events :=
    Entity.Tracks.load h.numbered _
  rw [← h.loadEntity] at htracks
  exact htracks.mono h.initial

end Known.Loads

/-- All of a store known. -/
def EventStore.known (s : EventStore) : Known := ⟨s.stream⟩

/-! ## The protocol -/

section Protocol

variable (V : SnapshotRecord → List EventRecord → Prop)

/-- **What a client may do that knows `k`, and what it learns.** -/
def Known.protocol : Protocol RepoAction RepoAction.Resp Known where
  pre a k :=
    match a with
    | .commit es => k.Tracks es ∧ (es.map Entity.id).Nodup
    | .saveSnapshot r => V r (k.stream r.aggregateId)
    | .find _ | .findOne _ | .exists' _ | .count _ => False
    | _ => True
  upd a k r k' :=
    k ≤ k' ∧
      match a, r with
      | .getOne id, r => ∃ o, r = .ok o ∧ ∀ e ∈ o, e.id = id ∧ k'.Loads e
      | .commit es, r => (∃ f, r = (.error (.err f), es))
          ∨ r = (.ok (), es.map Entity.markCommitted) ∧ k'.Tracks (es.map Entity.markCommitted)
            ∧ ∀ e ∈ es, k'.stream e.id = e.events
      | .getSnapshot id, r => ∃ o, r = .ok o ∧ ∀ x ∈ o, x.aggregateId = id ∧ V x (k'.stream id)
      | .saveSnapshot _, r => r = .ok ()
      | .deleteSnapshot _, r => ∃ b, r = .ok b
      | .lock _, r => r = .ok ()
      | .tryLock _, r => ∃ b, r = .ok b
      | .unlock _, r => r = .ok ()
      | _, _ => True

/-- **The joint invariant**: the store is in working order, what is known is a
beginning of what is stored, and the stored snapshots are right. -/
structure StoreInv {C : Type} (s : Shared) (known : C → Known) : Prop where
  wellFormed : s.events.WellFormed
  known_le : ∀ c, known c ≤ s.events.known
  snapshots : ∀ id r, s.snapshots.getSnapshot id = some r →
    r.aggregateId = id ∧ V r (s.events.stream id)

end Protocol

namespace StoreInv

variable {V : SnapshotRecord → List EventRecord → Prop} {C : Type} {s s' : Shared}
  {known : C → Known}

theorem new : StoreInv V Shared.empty (fun _ : C => Known.nothing) where
  wellFormed := EventStore.WellFormed.new
  known_le _ _ := List.nil_prefix
  snapshots _ _ h := absurd h (by simp [Shared.empty, SnapshotStore.new, SnapshotStore.getSnapshot])

theorem tracked (hI : StoreInv V s known) {c : C} {es : List Entity}
    (hes : (known c).Tracks es) : s.events.Tracked es :=
  hes.mono (hI.known_le c)

/-- **The streams have grown, and one client knows all of them.** -/
theorem grow [DecidableEq C] (hI : StoreInv V s known) (s' : Shared) (hwf : s'.events.WellFormed)
    (hle : s.events.known ≤ s'.events.known)
    (hsnap : ∀ id r, s'.snapshots.getSnapshot id = some r →
      r.aggregateId = id ∧ V r (s'.events.stream id)) (c : C) :
    StoreInv V s' (Function.update known c s'.events.known) := by
  refine ⟨hwf, fun d => ?_, hsnap⟩
  by_cases hd : d = c
  · subst hd
    rw [Function.update_self]
  · rw [Function.update_of_ne hd]
    exact (hI.known_le d).trans hle

theorem setLocked [DecidableEq C] (hI : StoreInv V s known) (id : String) (b : Bool) (c : C) :
    StoreInv V (s.setLocked id b) (Function.update known c s.events.known) :=
  hI.grow (s.setLocked id b) hI.wellFormed le_rfl hI.snapshots c

/-- **A commit of tracking entities with pairwise distinct ids**: it appends and
marks every entity, or reports a conflict and changes nothing. -/
theorem commit_cases (hI : StoreInv V s known) {c : C} {es : List Entity}
    (hes : (known c).Tracks es) {r : RepoRes Unit × List Entity}
    (hsem : (RepoAction.commit es).Sem s r s') :
    (s.events.Valid es ∧ r = (.ok (), es.map Entity.markCommitted)
        ∧ s' = s.withEvents (s.events.extendAll es))
      ∨ (∃ f, r = (.error (.err f), es)) ∧ s' = s := by
  obtain ⟨rfl, rfl⟩ := RepoAction.sem_commit.mp hsem
  rcases EventStore.commit_cases hI.wellFormed.not_poisoned (hI.tracked hes)
    with ⟨hv, hc⟩ | ⟨-, e, -, hc⟩
  · rw [hc]
    exact Or.inl ⟨hv, rfl, rfl⟩
  · rw [hc]
    exact Or.inr ⟨⟨_, rfl⟩, rfl⟩

/-- **Every action a client may perform keeps the invariant**, lets the streams
grow, and teaches the client what the protocol says. What makes a snapshot
right must stay so as the stream grows. -/
theorem act [DecidableEq C] (hV : ∀ r l l', l <+: l' → V r l → V r l')
    (hI : StoreInv V s known) {c : C} {a : RepoAction} {r : a.Resp}
    (hpre : (Known.protocol V).pre a (known c)) (hsem : a.Sem s r s') :
    s.events.known ≤ s'.events.known
      ∧ ∃ k', (Known.protocol V).upd a (known c) r k' ∧ StoreInv V s' (Function.update known c k') := by
  have hk := hI.known_le c
  cases a with
  | lock id =>
    obtain ⟨-, rfl, rfl⟩ := RepoAction.sem_lock.mp hsem
    exact ⟨le_rfl, _, ⟨hk, rfl⟩, hI.setLocked id true c⟩
  | tryLock id =>
    obtain ⟨ord, -, hexec⟩ := hsem
    show s.events.known ≤ s'.events.known ∧ _
    by_cases hl : s.locked id = true
    · obtain ⟨rfl, rfl⟩ : .ok false = r ∧ s = s' := by simpa [RepoAction.exec, hl] using hexec
      exact ⟨le_rfl, _, ⟨hk, _, rfl⟩, hI.grow _ hI.wellFormed le_rfl hI.snapshots c⟩
    · obtain ⟨rfl, rfl⟩ : .ok true = r ∧ s.setLocked id true = s' := by
        simpa [RepoAction.exec, hl] using hexec
      exact ⟨le_rfl, _, ⟨hk, _, rfl⟩, hI.setLocked id true c⟩
  | unlock id =>
    obtain ⟨rfl, rfl⟩ := RepoAction.sem_unlock.mp hsem
    exact ⟨le_rfl, _, ⟨hk, rfl⟩, hI.setLocked id false c⟩
  | getOne id =>
    obtain ⟨rfl, rfl⟩ := RepoAction.sem_getOne.mp hsem
    refine ⟨le_rfl, _, ⟨hk, _, EventStore.getOne_eq hI.wellFormed.not_poisoned id, ?_⟩,
      hI.grow _ hI.wellFormed le_rfl hI.snapshots c⟩
    intro e he
    obtain ⟨l, hl, rfl⟩ := Option.map_eq_some_iff.mp he
    have hstream := EventStore.lookup_eq_some hl
    exact ⟨rfl, rfl, hstream ▸ hI.wellFormed.numbered id, hstream ▸ List.prefix_rfl⟩
  | commit es =>
    obtain ⟨hes, hnd⟩ := hpre
    have ht := hI.tracked hes
    rcases hI.commit_cases hes hsem with ⟨hv, rfl, rfl⟩ | ⟨⟨f, rfl⟩, rfl⟩
    · have hle : s.events.known ≤ (s.events.extendAll es).known :=
        fun id => EventStore.stream_prefix_extendAll _ es id
      refine ⟨hle, (s.events.extendAll es).known, ⟨hk.trans hle, Or.inr ⟨rfl, ?_, ?_⟩⟩, ?_⟩
      · exact EventStore.Tracked.markCommitted hv ht hnd
      · exact fun e he => EventStore.stream_extendAll_of_mem hv ht hnd he
      · refine hI.grow (s.withEvents _) (hI.wellFormed.extendAll hv ht hnd) hle ?_ c
        exact fun id r hr => ⟨(hI.snapshots id r hr).1, hV r _ _ (hle id) (hI.snapshots id r hr).2⟩
    · refine ⟨le_rfl, known c, ⟨le_rfl, Or.inl ⟨f, rfl⟩⟩, ?_⟩
      rw [Function.update_eq_self]
      exact hI
  | getSnapshot id =>
    obtain ⟨rfl, rfl⟩ := RepoAction.sem_getSnapshot.mp hsem
    exact ⟨le_rfl, _, ⟨hk, _, rfl, fun x hx => hI.snapshots id x hx⟩,
      hI.grow _ hI.wellFormed le_rfl hI.snapshots c⟩
  | saveSnapshot record =>
    obtain ⟨rfl, rfl⟩ := RepoAction.sem_saveSnapshot.mp hsem
    refine ⟨le_rfl, s.events.known, ⟨hk, rfl⟩,
      hI.grow (s.withSnapshots (s.snapshots.saveSnapshot record)) hI.wellFormed le_rfl
        (fun id r hr => ?_) c⟩
    have hr' := (s.snapshots.getSnapshot_saveSnapshot record id).symm.trans hr
    by_cases hid : id = record.aggregateId
    · rw [if_pos hid] at hr'
      obtain rfl := Option.some.inj hr'
      exact ⟨hid.symm, hid ▸ hV _ _ _ (hk _) hpre⟩
    · rw [if_neg hid] at hr'
      exact hI.snapshots id r hr'
  | deleteSnapshot id =>
    obtain ⟨rfl, rfl⟩ := RepoAction.sem_deleteSnapshot.mp hsem
    exact ⟨le_rfl, s.events.known, ⟨hk, _, rfl⟩,
      hI.grow (s.withSnapshots (s.snapshots.deleteSnapshot id).2) hI.wellFormed le_rfl
        (fun id' r hr => hI.snapshots id' r (SnapshotStore.getSnapshot_deleteSnapshot hr)) c⟩
  | find => exact hpre.elim
  | findOne => exact hpre.elim
  | exists' => exact hpre.elim
  | count => exact hpre.elim

end StoreInv

/-! ## Repositories over one store

A `HashMapRepository`, and a `QueuedRepository` over it, differ in their locks
only. Under the protocol both read, commit and save alike; the entities a call
reads are observed, in the order it reads them. -/

/-- The repositories clients of one store use. -/
inductive OverStore : Repo → Prop where
  | plain : OverStore hashMapRepository
  | queued : OverStore (queuedRepository hashMapRepository).toRepo

/-- The entity an action read. -/
def entityRead : (Σ a : RepoAction, a.Resp) → List Entity
  | ⟨.getOne _, .ok (some e)⟩ => [e]
  | _ => []

/-- The protocol, with the entities read. -/
abbrev Known.reading (V : SnapshotRecord → List EventRecord → Prop) :
    Protocol RepoAction RepoAction.Resp (Known × List Entity) :=
  (Known.protocol V).observing entityRead

namespace Known

/-- **From one point to a later one**: more may have become known, and `es` has
been read. -/
def Since (kl : Known × List Entity) (es : List Entity) (kl' : Known × List Entity) : Prop :=
  kl.1 ≤ kl'.1 ∧ kl'.2 = kl.2 ++ es

namespace Since

variable {kl kl' kl'' : Known × List Entity} {es es' : List Entity}

theorem refl (kl : Known × List Entity) : Since kl [] kl := ⟨le_rfl, (List.append_nil _).symm⟩

theorem trans (h : Since kl es kl') (h' : Since kl' es' kl'') : Since kl (es ++ es') kl'' :=
  ⟨h.1.trans h'.1, by rw [h'.2, h.2, List.append_assoc]⟩

theorem trans_nil (h : Since kl es kl') (h' : Since kl' [] kl'') : Since kl es kl'' := by
  simpa using h.trans h'

end Since

variable {V : SnapshotRecord → List EventRecord → Prop} {R : Repo} {kl : Known × List Entity}

/-- A call that fails under no circumstances. -/
abbrev Never {ε O : Type} : Fault ε → O → Prop := fun _ _ => False

theorem wp_acquire (kl : Known × List Entity) (id : String) :
    (reading V).wp (Protocol.outcome (fun _ => Since kl []) Never)
      (QueuedRepository.acquire id) kl := by
  refine ⟨trivial, fun r kl' ⟨⟨hk, hr⟩, hl⟩ => ?_⟩
  obtain rfl : r = .ok () := hr
  exact ⟨hk, hl⟩

theorem wp_release (kl : Known × List Entity) (id : String) :
    (reading V).wp (Protocol.outcome (fun _ => Since kl []) Never)
      (QueuedRepository.release id) kl := by
  refine ⟨trivial, fun r kl' ⟨⟨hk, hr⟩, hl⟩ => ?_⟩
  obtain rfl : r = .ok () := hr
  exact ⟨hk, hl⟩

theorem wp_forEach {α : Type} {f : α → Op Unit}
    (hf : ∀ x kl, (reading V).wp (Protocol.outcome (fun _ => Since kl []) Never) (f x) kl)
    (xs : List α) (kl : Known × List Entity) :
    (reading V).wp (Protocol.outcome (fun _ => Since kl []) Never) (Call.forEach f xs) kl := by
  refine Protocol.wp_forEach _ (fun x _ kl' hkl => ?_) (Since.refl kl)
  exact Protocol.wp_mono_ok _ (fun _ kl'' hr => hkl.trans_nil hr) (hf x kl')

theorem wp_hashMap_getOne (kl : Known × List Entity) (id : String) :
    (reading V).wp (Protocol.outcome (fun o kl' => Since kl o.toList kl'
        ∧ ∀ e ∈ o, e.id = id ∧ kl'.1.Loads e) Never) (HashMapRepository.getOne id) kl := by
  refine ⟨trivial, fun r kl' ⟨⟨hk, hr⟩, hl⟩ => ?_⟩
  obtain ⟨o, rfl, ho⟩ := hr
  refine ⟨⟨hk, hl.trans ?_⟩, ho⟩
  cases o <;> rfl

/-- `get_many` of a `HashMapRepository`. -/
theorem wp_hashMap_getMany (kl : Known × List Entity) (ids : List String) :
    (reading V).wp (Protocol.outcome (fun es kl' => Since kl es kl' ∧ ∀ e ∈ es, kl'.1.Loads e) Never)
      (HashMapRepository.getMany ids) kl := by
  refine Protocol.wp_collect _ (I := fun _ es kl' => Since kl es kl' ∧ ∀ e ∈ es, kl'.1.Loads e)
    (fun id _ _ es kl' hkl => ?_) ⟨Since.refl kl, fun e he => absurd he List.not_mem_nil⟩
  rw [Call.bind_eq]
  refine Protocol.wp_andThen_ok _ (fun o kl'' ⟨hsince, ho⟩ => ?_) (wp_hashMap_getOne kl' id)
  refine ⟨hkl.1.trans hsince, fun e he => ?_⟩
  rcases List.mem_append.mp he with he | he
  · exact (hkl.2 e he).mono hsince.1
  · exact (ho e (Option.mem_toList.mp he)).2

/-- **`get_one`.** -/
theorem wp_getOne (hR : OverStore R) (kl : Known × List Entity) (id : String) :
    (reading V).wp (Protocol.outcome (fun o kl' => Since kl o.toList kl'
        ∧ ∀ e ∈ o, e.id = id ∧ kl'.1.Loads e) Never) (R.getOne id) kl := by
  cases hR with
  | plain => exact wp_hashMap_getOne kl id
  | queued =>
    show (reading V).wp _ (QueuedRepository.getOne hashMapRepository id) kl
    rw [QueuedRepository.getOne, Call.bind_eq]
    refine Protocol.wp_andThen_ok _ (fun _ kl' hr => ?_) (wp_acquire kl id)
    refine Protocol.wp_mono_ok _ (fun o kl'' hr' => ⟨?_, hr'.2⟩) (wp_hashMap_getOne kl' id)
    simpa using hr.trans hr'.1

/-- **`get_many`.** -/
theorem wp_getMany (hR : OverStore R) (kl : Known × List Entity) (ids : List String) :
    (reading V).wp (Protocol.outcome (fun es kl' => Since kl es kl' ∧ ∀ e ∈ es, kl'.1.Loads e) Never)
      (R.getMany ids) kl := by
  cases hR with
  | plain => exact wp_hashMap_getMany kl ids
  | queued =>
    show (reading V).wp _ (QueuedRepository.getMany hashMapRepository ids) kl
    rw [QueuedRepository.getMany, Call.bind_eq]
    refine Protocol.wp_andThen_ok _ (fun _ kl' hr => ?_) (wp_forEach (fun id kl => wp_acquire kl id) _ kl)
    refine Protocol.wp_mono_ok _ (fun es kl'' hr' => ⟨?_, hr'.2⟩) (wp_hashMap_getMany kl' ids)
    simpa using hr.trans hr'.1

/-- **`get_snapshot`.** -/
theorem wp_getSnapshot (hR : OverStore R) (kl : Known × List Entity) (id : String) :
    (reading V).wp (Protocol.outcome (fun o kl' => Since kl [] kl'
        ∧ ∀ x ∈ o, x.aggregateId = id ∧ V x (kl'.1.stream id)) Never) (R.getSnapshot id) kl := by
  have h : (reading V).wp (Protocol.outcome (fun o kl' => Since kl [] kl'
      ∧ ∀ x ∈ o, x.aggregateId = id ∧ V x (kl'.1.stream id)) Never)
      (RepoProg.perform (RepoAction.getSnapshot id)) kl := by
    refine ⟨trivial, fun r kl' ⟨⟨hk, hr⟩, hl⟩ => ?_⟩
    obtain ⟨o, rfl, ho⟩ := hr
    exact ⟨⟨hk, hl⟩, ho⟩
  cases hR <;> exact h

/-- **`save_snapshot`** of a snapshot that is right. -/
theorem wp_saveSnapshot (hR : OverStore R) {record : SnapshotRecord}
    (hV : V record (kl.1.stream record.aggregateId)) :
    (reading V).wp (Protocol.outcome (fun _ => Since kl []) Never) (R.saveSnapshot record) kl := by
  have h : (reading V).wp (Protocol.outcome (fun _ => Since kl []) Never)
      (RepoProg.perform (RepoAction.saveSnapshot record)) kl := by
    refine ⟨hV, fun r kl' ⟨⟨hk, hr⟩, hl⟩ => ?_⟩
    obtain rfl : r = .ok () := hr
    exact ⟨hk, hl⟩
  cases hR <;> exact h

/-- **`delete_snapshot`.** -/
theorem wp_deleteSnapshot (hR : OverStore R) (kl : Known × List Entity) (id : String) :
    (reading V).wp (Protocol.outcome (fun _ => Since kl []) Never) (R.deleteSnapshot id) kl := by
  have h : (reading V).wp (Protocol.outcome (fun _ => Since kl []) Never)
      (RepoProg.perform (RepoAction.deleteSnapshot id)) kl := by
    refine ⟨trivial, fun r kl' ⟨⟨hk, hr⟩, hl⟩ => ?_⟩
    obtain ⟨b, rfl⟩ := hr
    exact ⟨hk, hl⟩
  cases hR <;> exact h

/-- The result of a commit: it failed and nothing has changed, or it appended
and marked every entity. -/
def Commits (es : List Entity) (r : RepoRes Unit × List Entity) (k : Known) : Prop :=
  (∃ f, r = (.error f, es))
    ∨ r = (.ok (), es.map Entity.markCommitted) ∧ k.Tracks (es.map Entity.markCommitted)
      ∧ ∀ e ∈ es, e.events <+: k.stream e.id

/-- **`commit`** of entities that track, with pairwise distinct ids. -/
theorem wp_commit (hR : OverStore R) {es : List Entity} (hes : kl.1.Tracks es)
    (hnd : (es.map Entity.id).Nodup) :
    (reading V).wp (fun r kl' => Since kl [] kl' ∧ Commits es r kl'.1) (R.commit es) kl := by
  have h : (reading V).wp (fun r kl' => Since kl [] kl' ∧ Commits es r kl'.1)
      (RepoProg.perform (RepoAction.commit es)) kl := by
    refine ⟨⟨hes, hnd⟩, fun r kl' ⟨⟨hk, hr⟩, hl⟩ => ⟨⟨hk, hl⟩, ?_⟩⟩
    rcases hr with ⟨f, rfl⟩ | ⟨rfl, htracks, hstream⟩
    · exact Or.inl ⟨_, rfl⟩
    · exact Or.inr ⟨rfl, htracks, fun e he => (hstream e he) ▸ List.prefix_rfl⟩
  cases hR with
  | plain => exact h
  | queued =>
    show (reading V).wp _ (QueuedRepository.commit hashMapRepository es) kl
    rw [QueuedRepository.commit, Protocol.wp_bind]
    refine Protocol.wp_mono _ (fun r kl' hr => ?_) h
    obtain ⟨hsince, ⟨f, rfl⟩ | ⟨rfl, htracks, hstream⟩⟩ := hr
    · exact ⟨hsince, Or.inl ⟨f, rfl⟩⟩
    · rw [Protocol.wp_map]
      refine Protocol.wp_mono_ok _ (fun _ kl'' hr => ⟨hsince.trans_nil hr, Or.inr ⟨rfl, ?_⟩⟩)
        (wp_forEach (fun id kl => wp_release kl id) _ kl')
      exact ⟨htracks.mono hr.1, fun e he => (hstream e he).trans (hr.1 e.id)⟩

end Known
