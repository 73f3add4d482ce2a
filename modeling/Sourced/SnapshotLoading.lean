import Sourced.SnapshotRepository
import Sourced.KnownStreams

/-!
# Loading through a snapshot is a full replay

A snapshot is taken of a live aggregate that has just been committed, and
saved in a step of its own; a load reads the entity, and the snapshot in a
later step. In between the stream can have grown and the snapshot been
replaced or deleted. What always holds of a stored snapshot is that it is the
state after a *beginning* of its stream, as long as that beginning
(`Snapshottable.Right`), and this survives everything clients do. A load that
uses it – it is not newer than the entity – has therefore read an entity whose
events continue the snapshot's, and restoring the snapshot and replaying the
rest is replaying everything
(`SnapshotAggregateRepository.hydrateFromSnapshot_eq`).

The one thing clients must not do is to give a committed entity another id. The
version check compares lengths, and would append the events of the one id to
the equally long stream of another; the live aggregate is then a snapshot of
neither (`SnapshotClients.renamed`).
-/

variable {σ : Type}

/-! ## Replays -/

namespace Aggregate

variable (A : Aggregate σ)

/-- **Replayed over any entity with this id the events give these fields**, and
leave the entity as it is. -/
def Replays (id : String) (es : List EventRecord) (f : σ) : Prop :=
  ∀ now e, e.id = id → e.replaying = true → ∃ events, A.upcast es = .ok events
    ∧ A.replayAll now events ⟨A.default, e⟩ = .ok ⟨f, e⟩

/-- **Replay reproduces the live state** of the aggregate. -/
def Reproduces (a : Agg σ) : Prop := A.Replays a.entity.id a.entity.events a.fields

variable {A}

theorem Replays.hydrate {e : Entity} {f : σ} (h : A.Replays e.id e.events f)
    (he : e.replaying = false) (now : SystemTime) : A.hydrate now e = .ok ⟨f, e⟩ := by
  obtain ⟨events, hup, hreplay⟩ := h now (e.setReplaying true) rfl rfl
  refine (A.hydrate_eq_ok now).mpr ⟨events, _, hup, hreplay, ?_⟩
  show _ = Agg.mk f { e with replaying := false }
  rw [← he]

theorem Replays.nil (id : String) : A.Replays id [] A.default := by
  refine fun now e _ _ => ⟨[], ?_, rfl⟩
  rw [A.upcast_eq]
  rfl

/-- **Upcasting a list in two parts**, where the first part upcasts. -/
theorem upcast_append (A : Aggregate σ) {es₁ es₂ us₁ : List EventRecord}
    (h : A.upcast es₁ = .ok us₁) :
    A.upcast (es₁ ++ es₂) = (A.upcast es₂).map (fun us₂ => us₁ ++ us₂) := by
  rw [A.upcast_eq] at h ⊢
  rw [A.upcast_eq, upcastEvents_append]
  cases h₁ : upcastEvents A.upcasters es₁ with
  | none => rw [h₁] at h; cases h
  | some us =>
    rw [h₁] at h
    obtain rfl : us = us₁ := Except.ok.inj h
    cases upcastEvents A.upcasters es₂ <;> rfl

end Aggregate

namespace Aggregate

variable (A : Aggregate σ)

/-- **The aggregate is what a full replay makes of the entity**, but for the
version of a snapshot noted in its entity. -/
structure Agrees (e : Entity) (b : Agg σ) : Prop where
  replays : A.Replays e.id e.events b.fields
  entity_eq : b.entity = e.setSnapshotVersion b.entity.snapshotVersion

/-- **The entity does not hydrate**, at no time. -/
def Fails (e : Entity) : Prop := ∀ now b, A.hydrate now e ≠ .ok b

end Aggregate

/-! ## Snapshots that are right -/

/-- **What is asked of the aggregate and its snapshots**: the codec loses
nothing; a snapshot restored over the aggregate's entity gives back what it
was taken of; and replay reproduces what was loaded. Nothing is asked of the
upcasters: a table with a cycle fails a load with a snapshot and a full replay
alike. -/
structure Snapshottable.Laws (B : Snapshottable σ) (A : Aggregate σ) : Prop where
  lawful : B.codec.Lawful
  restore : ∀ (a : Agg σ) (e : Entity), e.id = a.entity.id →
    B.restoreFromSnapshot ⟨A.default, e⟩ (B.createSnapshot a) = ⟨a.fields, e⟩
  loaded : ∀ now e a, A.hydrate now e = .ok a → A.Replays e.id e.events a.fields

/-- **What is asked of the snapshots alone**: the codec loses nothing, and a snapshot
restored over the aggregate's entity gives back what it was taken of. -/
structure Snapshottable.Restores (B : Snapshottable σ) (A : Aggregate σ) : Prop where
  lawful : B.codec.Lawful
  restore : ∀ (a : Agg σ) (e : Entity), e.id = a.entity.id →
    B.restoreFromSnapshot ⟨A.default, e⟩ (B.createSnapshot a) = ⟨a.fields, e⟩

theorem Snapshottable.Laws.restores {B : Snapshottable σ} {A : Aggregate σ} (h : B.Laws A) :
    B.Restores A := ⟨h.lawful, h.restore⟩

/-- **The snapshot is right for the stream**: it was taken of an aggregate whose
events begin the stream, and its version is their number. -/
def Snapshottable.Right (B : Snapshottable σ) (A : Aggregate σ) (r : SnapshotRecord)
    (stream : List EventRecord) : Prop :=
  ∃ a : Agg σ, a.entity.id = r.aggregateId ∧ A.Reproduces a ∧ a.entity.events <+: stream
    ∧ r.version = a.entity.events.length ∧ B.codec.serialize (B.createSnapshot a) = .ok r.data

theorem Snapshottable.Right.mono {B : Snapshottable σ} {A : Aggregate σ} {r : SnapshotRecord}
    {stream stream' : List EventRecord} (h : B.Right A r stream) (hs : stream <+: stream') :
    B.Right A r stream' := by
  obtain ⟨a, hid, hrep, hinit, hv, hdata⟩ := h
  exact ⟨a, hid, hrep, hinit.trans hs, hv, hdata⟩

namespace SnapshotAggregateRepository

variable {A : Aggregate σ} {B : Snapshottable σ} {e : Entity} {r : SnapshotRecord}

/-- **Hydrating from a right snapshot is hydrating in full**, over the entity
with the snapshot's version noted in it. -/
theorem hydrateFromSnapshot_of_restores (hB : B.Restores A) {stream : List EventRecord}
    (hr : B.Right A r stream) (hid : r.aggregateId = e.id) (he : e.events <+: stream)
    (hnum : Numbered EventRecord.sequence e.events) (hle : r.version ≤ e.events.length)
    (now : SystemTime) :
    A.hydrateFromSnapshot B now e r = A.hydrate now (e.setSnapshotVersion r.version) := by
  obtain ⟨a, haid, hrep, hinit, hv, hdata⟩ := hr
  -- both are beginnings of one stream, and the snapshot's is the shorter
  have hevents : a.entity.events <+: e.events :=
    List.prefix_of_prefix_length_le hinit he (hv ▸ hle)
  obtain ⟨rest, hrest⟩ := hevents
  have hpost : e.events.filter (fun x => decide (r.version < x.sequence)) = rest := by
    rw [hnum.filter_lt, hv, ← hrest]
    exact List.drop_left
  let e' := e.setSnapshotVersion r.version
  have hid' : e'.id = a.entity.id := (haid.trans hid).symm
  obtain ⟨events, hup, hreplay⟩ := hrep now (e'.setReplaying true) hid' rfl
  have hsplit : A.upcast e.events = (A.upcast rest).map (fun us => events ++ us) := by
    rw [← hrest]
    exact A.upcast_append hup
  have hrestore : B.restoreFromSnapshot ⟨A.default, e'⟩ (B.createSnapshot a) = ⟨a.fields, e'⟩ :=
    hB.restore a e' hid'
  have hdecode : B.codec.deserialize r.data = .ok (B.createSnapshot a) := hB.lawful _ _ hdata
  have hcut : A.hydrateFromSnapshot B now e r
      = (A.upcast rest).bind (fun us => A.replay now us ⟨a.fields, e'⟩) := by
    unfold Aggregate.hydrateFromSnapshot
    rw [hdecode]
    show (A.upcast (List.filter _ (B.restoreFromSnapshot ⟨A.default, e'⟩ _).entity.events)).bind
      (fun us => A.replay now us (B.restoreFromSnapshot ⟨A.default, e'⟩ _)) = _
    rw [hrestore]
    show (A.upcast (List.filter _ e.events)).bind _ = _
    rw [hpost]
  have hfull : A.hydrate now e'
      = (A.upcast rest).bind (fun us => A.replay now (events ++ us) ⟨A.default, e'⟩) := by
    show (A.upcast e.events).bind _ = _
    rw [hsplit]
    cases A.upcast rest <;> rfl
  rw [hcut, hfull]
  refine congrArg (Except.bind (A.upcast rest)) (funext fun us => ?_)
  unfold Aggregate.replay
  rw [A.replayAll_append, hreplay]
  rfl

theorem hydrateFromSnapshot_eq (hB : B.Laws A) {stream : List EventRecord}
    (hr : B.Right A r stream) (hid : r.aggregateId = e.id) (he : e.events <+: stream)
    (hnum : Numbered EventRecord.sequence e.events) (hle : r.version ≤ e.events.length)
    (now : SystemTime) :
    A.hydrateFromSnapshot B now e r = A.hydrate now (e.setSnapshotVersion r.version) :=
  hydrateFromSnapshot_of_restores hB.restores hr hid he hnum hle now

/-- **A full hydration** agrees with itself. -/
theorem hydrate_spec (hB : B.Laws A) (he : e.replaying = false) (now : SystemTime) :
    (∃ b, A.hydrate now e = .ok b ∧ A.Agrees e b) ∨ ∃ f, A.hydrate now e = .error f ∧ A.Fails e := by
  cases h : A.hydrate now e with
  | ok b =>
    have hrep := hB.loaded now e b h
    have hb : b = ⟨b.fields, e⟩ := Except.ok.inj (h.symm.trans (hrep.hydrate he now))
    have hentity : b.entity = e := congrArg Agg.entity hb
    refine Or.inl ⟨b, rfl, hrep, ?_⟩
    rw [hentity]
    rfl
  | error f =>
    refine Or.inr ⟨f, rfl, fun now' b hb => ?_⟩
    have hok := (hB.loaded now' e b hb).hydrate he now
    exact absurd (h.symm.trans hok) (by simp)

/-- **A hydration with the snapshot there may be** agrees with the full one. -/
theorem hydrateWithOptionalSnapshot_spec (hB : B.Laws A) {k : Known} (he : k.Loads e)
    {snapshot : Option SnapshotRecord}
    (hs : ∀ x ∈ snapshot, x.aggregateId = e.id ∧ B.Right A x (k.stream e.id)) (now : SystemTime) :
    (∃ b, hydrateWithOptionalSnapshot A B now e snapshot = .ok b ∧ A.Agrees e b)
      ∨ ∃ f, hydrateWithOptionalSnapshot A B now e snapshot = .error f ∧ A.Fails e := by
  cases snapshot with
  | none => exact hydrate_spec hB he.replaying_eq now
  | some r =>
    obtain ⟨hid, hright⟩ := hs r rfl
    unfold hydrateWithOptionalSnapshot
    by_cases hv : r.version ≤ e.version
    · have hle : r.version ≤ e.events.length := he.version_eq ▸ hv
      simp only [if_pos hv]
      rw [hydrateFromSnapshot_eq hB hright hid he.initial he.numbered hle now]
      -- the entity with the snapshot's version noted hydrates as the entity itself
      rcases hydrate_spec (e := e.setSnapshotVersion r.version) hB he.replaying_eq now
        with ⟨b, hb, hagree⟩ | ⟨f, hf, hfails⟩
      · refine Or.inl ⟨b, hb, hagree.replays, ?_⟩
        rw [hagree.entity_eq]
        rfl
      · refine Or.inr ⟨f, hf, fun now' b hb => ?_⟩
        have hrep : A.Replays (e.setSnapshotVersion r.version).id
            (e.setSnapshotVersion r.version).events b.fields := hB.loaded now' e b hb
        exact hfails now' _ (hrep.hydrate he.replaying_eq now')
    · simp only [if_neg hv]
      exact hydrate_spec hB he.replaying_eq now

/-! ## Programs that load -/

section Programs

variable {R : Repo} {kl : Known × List Entity}

/-- The protocol under which the stored snapshots are right. -/
abbrev loading (B : Snapshottable σ) (A : Aggregate σ) :
    Protocol RepoAction RepoAction.Resp (Known × List Entity) :=
  Known.reading (B.Right A)

open Known (Since)

/-- **The hydrator makes of a loaded entity what a full replay does**, or fails
where that fails, and reads no entity itself. -/
def Faithful (B : Snapshottable σ) (A : Aggregate σ) (f : Entity → Op (Agg σ)) (e : Entity) : Prop :=
  ∀ kl, kl.1.Loads e → (loading B A).wp (Protocol.outcome
    (fun b kl' => Since kl [] kl' ∧ A.Agrees e b) (fun _ kl' => Since kl [] kl' ∧ A.Fails e)) (f e) kl

/-- Hydration with the stored snapshot is faithful. -/
theorem faithful_hydrateStored (hR : OverStore R) (hB : B.Laws A) (now : SystemTime) (e : Entity) :
    Faithful B A (hydrateStored R A B now e.id) e := by
  intro kl he
  rw [hydrateStored, Call.bind_eq, Protocol.wp_andThen]
  refine Protocol.wp_mono _ (fun r kl' hr => ?_) (Known.wp_getSnapshot hR kl e.id)
  cases r with
  | error f => exact hr.elim
  | ok snapshot =>
    obtain ⟨hsince, hs⟩ := hr
    show Protocol.outcome _ _ (hydrateWithOptionalSnapshot A B now e snapshot) kl'
    rcases hydrateWithOptionalSnapshot_spec hB (he.mono hsince.1) hs now
      with ⟨b, hb, hagree⟩ | ⟨f, hf, hfails⟩
    · rw [hb]
      exact ⟨hsince, hagree⟩
    · rw [hf]
      exact ⟨hsince, hfails⟩

/-- Hydration in full is faithful. -/
theorem faithful_hydrate (hB : B.Laws A) (now : SystemTime) (e : Entity) :
    Faithful B A (AggregateRepository.hydrator A now) e := by
  intro kl he
  show Protocol.outcome _ _ (A.hydrate now e) kl
  rcases hydrate_spec hB he.replaying_eq now with ⟨b, hb, hagree⟩ | ⟨f, hf, hfails⟩
  · rw [hb]
    exact ⟨Since.refl kl, hagree⟩
  · rw [hf]
    exact ⟨Since.refl kl, hfails⟩

/-- **What a call that returned knows**: each aggregate agrees with the entity
read for it; or one of the entities read does not hydrate. -/
def Loaded (A : Aggregate σ) (reads : List Entity) (k : Known) : RepoRes (List (Agg σ)) → Prop
  | .ok bs => (∀ e ∈ reads, k.Loads e) ∧ List.Forall₂ A.Agrees reads bs
  | .error _ => ∃ e ∈ reads, A.Fails e

/-- **A load of one aggregate.** -/
theorem wp_loadOne {read : Op (Option Entity)} {id : String} {f : Hydrator σ}
    (hread : ∀ kl, (loading B A).wp (Protocol.outcome (fun o kl' => Since kl o.toList kl'
      ∧ ∀ e ∈ o, e.id = id ∧ kl'.1.Loads e) Known.Never) read kl)
    (hf : ∀ e, e.id = id → Faithful B A f e) (k : Known) :
    (loading B A).wp (fun r kl' => k ≤ kl'.1 ∧ Loaded A kl'.2 kl'.1 (r.map Option.toList))
      (f.loadOne read) (k, []) := by
  rw [Hydrator.loadOne, Call.bind_eq]
  refine Protocol.wp_andThen_ok _ (fun o kl ⟨⟨hk, hl⟩, he⟩ => ?_) (hread (k, []))
  cases o with
  | none =>
    refine ⟨hk, ?_⟩
    rw [hl]
    exact ⟨fun e he => absurd he List.not_mem_nil, List.Forall₂.nil⟩
  | some e =>
    obtain ⟨hid, hloads⟩ := he e rfl
    show (loading B A).wp _ (Call.andThen (f e) _) kl
    rw [Protocol.wp_andThen]
    refine Protocol.wp_mono _ (fun r kl' hr => ?_) (hf e hid kl hloads)
    rcases r with _ | b
    · obtain ⟨⟨hk', hl'⟩, hfails⟩ := hr
      have hreads : kl'.2 = [e] := hl'.trans ((List.append_nil _).trans hl)
      refine ⟨hk.trans hk', ?_⟩
      rw [hreads]
      exact ⟨e, List.mem_singleton_self e, hfails⟩
    · obtain ⟨⟨hk', hl'⟩, hagree⟩ := hr
      have hreads : kl'.2 = [e] := hl'.trans ((List.append_nil _).trans hl)
      refine ⟨hk.trans hk', ?_⟩
      rw [hreads]
      exact ⟨List.forall_mem_singleton.mpr (hloads.mono hk'), List.Forall₂.cons hagree .nil⟩

/-- **A load of several aggregates.** -/
theorem wp_loadAll {read : Op (List Entity)} {f : Hydrator σ}
    (hread : ∀ kl, (loading B A).wp (Protocol.outcome (fun es kl' => Since kl es kl'
      ∧ ∀ e ∈ es, kl'.1.Loads e) Known.Never) read kl)
    (hf : ∀ e, Faithful B A f e) (k : Known) :
    (loading B A).wp (fun r kl' => k ≤ kl'.1 ∧ Loaded A kl'.2 kl'.1 r)
      (f.loadAll read) (k, []) := by
  rw [Hydrator.loadAll, Call.bind_eq]
  refine Protocol.wp_andThen_ok _ (fun es kl ⟨⟨hk, hl⟩, hes⟩ => ?_) (hread (k, []))
  -- every turn reads no entity and agrees with the entity it is given
  refine Protocol.wp_mono _ (fun r kl' hr => ?_) (Protocol.wp_collect _
    (I := fun seen bs kl' => Since kl [] kl' ∧ List.Forall₂ A.Agrees seen bs)
    (E := fun _ kl' => Since kl [] kl' ∧ ∃ e ∈ es, A.Fails e)
    (fun e he seen bs kl' hkl => ?_) ⟨Since.refl kl, List.Forall₂.nil⟩)
  · rcases r with _ | bs
    · obtain ⟨⟨hk', hl'⟩, hfails⟩ := hr
      have hreads : kl'.2 = es := hl'.trans ((List.append_nil _).trans hl)
      exact ⟨hk.trans hk', hreads ▸ hfails⟩
    · obtain ⟨⟨hk', hl'⟩, hagree⟩ := hr
      have hreads : kl'.2 = es := hl'.trans ((List.append_nil _).trans hl)
      refine ⟨hk.trans hk', ?_⟩
      rw [hreads]
      exact ⟨fun e he => (hes e he).mono hk', hagree⟩
  · rw [Call.bind_eq, Protocol.wp_andThen]
    refine Protocol.wp_mono _ (fun r kl'' hr => ?_) (hf e kl' ((hes e he).mono hkl.1.1))
    cases r with
    | error f => exact ⟨hkl.1.trans_nil hr.1, e, he, hr.2⟩
    | ok b => exact ⟨hkl.1.trans_nil hr.1, List.rel_append hkl.2 (List.Forall₂.cons hr.2 .nil)⟩

end Programs

end SnapshotAggregateRepository

/-! ## Commits and the snapshots after them -/

namespace SnapshotClients

open Known (Since)
open SnapshotAggregateRepository (loading)

variable {A : Aggregate σ} {B : Snapshottable σ} {R : Repo}

/-- **A live aggregate**: its entity tracks what is known of its stream, and
replay reproduces it. -/
structure Live (A : Aggregate σ) (k : Known) (a : Agg σ) : Prop where
  tracks : a.entity.Tracks (k.stream a.entity.id)
  reproduces : A.Reproduces a

theorem Live.mono {k k' : Known} {a : Agg σ} (h : Live A k a) (hk : k ≤ k') : Live A k' a :=
  ⟨h.tracks.mono (hk _), h.reproduces⟩

theorem Live.newEmpty (A : Aggregate σ) (k : Known) : Live A k A.newEmpty :=
  ⟨Entity.Tracks.withId "" _, Aggregate.Replays.nil _⟩

theorem Live.markCommitted {k : Known} {a : Agg σ} (h : A.Reproduces a)
    (ht : a.entity.markCommitted.Tracks (k.stream a.entity.id)) :
    Live A k ⟨a.fields, a.entity.markCommitted⟩ :=
  ⟨ht, h⟩

/-- **What an aggregate is loaded as is live.** -/
theorem Live.of_agrees {k : Known} {e : Entity} {b : Agg σ} (he : k.Loads e)
    (h : A.Agrees e b) : Live A k b := by
  have hentity := h.entity_eq
  have hid : b.entity.id = e.id := by rw [hentity]; rfl
  have hevents : b.entity.events = e.events := by rw [hentity]; rfl
  have htracks := he.tracks
  refine ⟨?_, ?_⟩
  · rw [hid, hentity]
    exact ⟨htracks.committed_le, htracks.version_eq, htracks.numbered, htracks.initial⟩
  · show A.Replays b.entity.id b.entity.events b.fields
    rw [hid, hevents]
    exact h.replays

theorem Live.of_forall₂ {k : Known} {es : List Entity} {bs : List (Agg σ)}
    (hes : ∀ e ∈ es, k.Loads e) (h : List.Forall₂ A.Agrees es bs) : ∀ b ∈ bs, Live A k b := by
  induction h with
  | nil => exact fun b hb => absurd hb List.not_mem_nil
  | cons hb _ ih =>
    exact List.forall_mem_cons.mpr ⟨Live.of_agrees (hes _ List.mem_cons_self) hb,
      ih (fun e he => hes e (List.mem_cons_of_mem _ he))⟩

/-- **A commit of live aggregates and tracking entities** leaves them so; if it
returned `Ok`, the events of each aggregate are stored. -/
theorem wp_commitWith (hR : OverStore R) {kl : Known × List Entity} {aggs : List (Agg σ)}
    {others : List Entity} (haggs : ∀ a ∈ aggs, Live A kl.1 a) (hothers : kl.1.Tracks others)
    (hnd : ((aggs.map Agg.entity ++ others).map Entity.id).Nodup) :
    (loading B A).wp (fun r kl' => Since kl [] kl' ∧ (∀ a ∈ r.2.1, Live A kl'.1 a)
        ∧ kl'.1.Tracks r.2.2
        ∧ (r.1 = .ok () → ∀ a ∈ r.2.1, a.entity.events <+: kl'.1.stream a.entity.id))
      (AggregateRepository.commitWith R aggs others) kl := by
  have htracks : kl.1.Tracks (aggs.map Agg.entity ++ others) := by
    refine Known.Tracks.append (fun e he => ?_) hothers
    obtain ⟨a, ha, rfl⟩ := List.mem_map.mp he
    exact (haggs a ha).tracks
  rw [AggregateRepository.commitWith, Protocol.wp_map]
  refine Protocol.wp_mono _ (fun r kl' hr => ?_) (Known.wp_commit hR htracks hnd)
  obtain ⟨hsince, ⟨f, rfl⟩ | ⟨rfl, hmarked, hstored⟩⟩ := hr
  · have hzip := AggregateRepository.zipWith_entity aggs others id
    have hdrop := AggregateRepository.drop_entity aggs others id
    rw [List.map_id] at hzip hdrop
    dsimp only
    rw [hzip, hdrop, List.map_id]
    refine ⟨hsince, fun a ha => ?_, hothers.mono hsince.1, fun h => absurd h (by simp)⟩
    obtain ⟨a', ha', rfl⟩ := List.mem_map.mp ha
    exact (haggs a' ha').mono hsince.1
  · dsimp only
    rw [AggregateRepository.zipWith_entity, AggregateRepository.drop_entity]
    rw [List.map_append] at hmarked
    refine ⟨hsince, fun a ha => ?_, fun e he => hmarked e (List.mem_append_right _ he), fun _ a ha => ?_⟩
    · obtain ⟨a', ha', rfl⟩ := List.mem_map.mp ha
      refine Live.markCommitted (haggs a' ha').reproduces (hmarked _ (List.mem_append_left _ ?_))
      exact List.mem_map_of_mem (List.mem_map_of_mem ha')
    · obtain ⟨a', ha', rfl⟩ := List.mem_map.mp ha
      exact hstored a'.entity (List.mem_append_left _ (List.mem_map_of_mem ha'))

/-- **The snapshot of a live aggregate whose events are stored is right.** -/
theorem Live.right {k : Known} {a : Agg σ} {r : SnapshotRecord} (h : Live A k a)
    (hstored : a.entity.events <+: k.stream a.entity.id) (hr : B.record a = .ok r) :
    B.Right A r (k.stream r.aggregateId) := by
  obtain ⟨hid, hversion, hdata⟩ := Snapshottable.record_eq_ok hr
  exact ⟨a, hid.symm, h.reproduces, hid ▸ hstored, hversion.trans h.tracks.version_eq, hdata⟩

/-- `maybe_snapshot` after a commit. -/
theorem wp_maybeSnapshot (hR : OverStore R) {kl : Known × List Entity} {a : Agg σ}
    (ha : Live A kl.1 a) (hstored : a.entity.events <+: kl.1.stream a.entity.id)
    (checks : OverflowChecks) (frequency : ℕ) :
    (loading B A).wp (Protocol.outcome (fun a' kl' => Since kl [] kl' ∧ Live A kl'.1 a')
      (fun _ kl' => Since kl [] kl'))
      (SnapshotAggregateRepository.maybeSnapshot R B checks frequency a) kl := by
  unfold SnapshotAggregateRepository.maybeSnapshot
  cases addU64 checks a.entity.snapshotVersion frequency with
  | none => exact Since.refl kl
  | some threshold =>
    by_cases hv : threshold ≤ a.entity.version
    · simp only [if_pos hv]
      cases hrecord : B.record a with
      | error f => exact Since.refl kl
      | ok r =>
        show (loading B A).wp _ (Call.andThen (R.saveSnapshot r) _) kl
        refine Protocol.wp_andThen_ok _ (fun _ kl' hr => ?_)
          (Known.wp_saveSnapshot hR (ha.right hstored hrecord))
        have ht := ha.tracks
        exact ⟨hr, Live.mono (k := kl.1) ⟨⟨ht.committed_le, ht.version_eq, ht.numbered, ht.initial⟩,
          ha.reproduces⟩ hr.1⟩
    · simp only [if_neg hv]
      exact ⟨Since.refl kl, ha⟩

/-- The snapshots after a commit of several aggregates. -/
theorem wp_maybeSnapshotAll (hR : OverStore R) {kl : Known × List Entity} {aggs : List (Agg σ)}
    (haggs : ∀ a ∈ aggs, Live A kl.1 a ∧ a.entity.events <+: kl.1.stream a.entity.id)
    (checks : OverflowChecks) (frequency : ℕ) :
    (loading B A).wp (fun r kl' => Since kl [] kl' ∧ ∀ a ∈ r.2, Live A kl'.1 a)
      (SnapshotAggregateRepository.maybeSnapshotAll R B checks frequency aggs) kl := by
  induction aggs generalizing kl with
  | nil => exact ⟨Since.refl kl, fun a ha => absurd ha List.not_mem_nil⟩
  | cons a aggs ih =>
    obtain ⟨ha, hstored⟩ := haggs a List.mem_cons_self
    have hrest := fun a' ha' => haggs a' (List.mem_cons_of_mem a ha')
    rw [SnapshotAggregateRepository.maybeSnapshotAll, Protocol.wp_bind]
    refine Protocol.wp_mono _ (fun r kl' hr => ?_) (wp_maybeSnapshot hR ha hstored checks frequency)
    cases r with
    | error f =>
      refine ⟨hr, List.forall_mem_cons.mpr ⟨ha.mono hr.1, fun a' ha' => ?_⟩⟩
      exact (hrest a' ha').1.mono hr.1
    | ok a₁ =>
      obtain ⟨hsince, hlive⟩ := hr
      rw [Protocol.wp_map]
      refine Protocol.wp_mono _ (fun r kl'' hr => ?_) (ih (fun a' ha' =>
        ⟨(hrest a' ha').1.mono hsince.1, (hrest a' ha').2.trans (hsince.1 _)⟩))
      exact ⟨hsince.trans_nil hr.1, List.forall_mem_cons.mpr ⟨hlive.mono hr.1.1, hr.2⟩⟩

/-- **A commit with its snapshots.** -/
theorem wp_commitWith_snapshots (hR : OverStore R) {kl : Known × List Entity}
    {aggs : List (Agg σ)} {others : List Entity} (haggs : ∀ a ∈ aggs, Live A kl.1 a)
    (hothers : kl.1.Tracks others)
    (hnd : ((aggs.map Agg.entity ++ others).map Entity.id).Nodup) (checks : OverflowChecks)
    (frequency : ℕ) :
    (loading B A).wp (fun r kl' => Since kl [] kl' ∧ (∀ a ∈ r.2.1, Live A kl'.1 a)
        ∧ kl'.1.Tracks r.2.2)
      (SnapshotAggregateRepository.commitWith R B checks frequency aggs others) kl := by
  rw [SnapshotAggregateRepository.commitWith, Protocol.wp_bind]
  refine Protocol.wp_mono _ (fun r kl' hr => ?_) (wp_commitWith hR haggs hothers hnd)
  obtain ⟨r, aggs', others'⟩ := r
  obtain ⟨hsince, hlive, htracks, hstored⟩ := hr
  cases r with
  | error f => exact ⟨hsince, hlive, htracks⟩
  | ok u =>
    show (loading B A).wp _ (Prog.map _ _) kl'
    rw [Protocol.wp_map]
    refine Protocol.wp_mono _ (fun r kl'' hr => ?_) (wp_maybeSnapshotAll hR
      (fun a ha => ⟨hlive a ha, hstored rfl a ha⟩) checks frequency)
    exact ⟨hsince.trans_nil hr.1, hr.2, htracks.mono hr.1.1⟩

/-! ## The clients -/

/-- **The local state of a client**: its aggregates, its outbox messages, and
the loads it has made – the entities each read, and what it returned. -/
structure Client (σ : Type) where
  pool : List (Agg σ)
  messages : List Entity
  loads : List (List Entity × RepoRes (List (Agg σ)))

/-- **The loads**: through repositories with and without snapshots, over the
plain or the queued repository. -/
inductive Load (A : Aggregate σ) (B : Snapshottable σ) : Op (List (Agg σ)) → Prop where
  | get {R : Repo} (hR : OverStore R) (now : SystemTime) (id : String) :
      Load A B (Prog.map (Except.map Option.toList) (SnapshotAggregateRepository.get R A B now id))
  | getAll {R : Repo} (hR : OverStore R) (now : SystemTime) (ids : List String) :
      Load A B (SnapshotAggregateRepository.getAll R A B now ids)
  | peek (now : SystemTime) (id : String) :
      Load A B (Prog.map (Except.map Option.toList)
        (SnapshotAggregateRepository.peek A B now (queuedRepository hashMapRepository) id))
  | peekAll (now : SystemTime) (ids : List String) :
      Load A B
        (SnapshotAggregateRepository.peekAll A B now (queuedRepository hashMapRepository) ids)
  | plainGet {R : Repo} (hR : OverStore R) (now : SystemTime) (id : String) :
      Load A B (Prog.map (Except.map Option.toList) (AggregateRepository.get R A now id))
  | plainGetAll {R : Repo} (hR : OverStore R) (now : SystemTime) (ids : List String) :
      Load A B (AggregateRepository.getAll R A now ids)
  | plainPeek (now : SystemTime) (id : String) :
      Load A B (Prog.map (Except.map Option.toList)
        (AggregateRepository.peek A now (queuedRepository hashMapRepository) id))
  | plainPeekAll (now : SystemTime) (ids : List String) :
      Load A B (AggregateRepository.peekAll A now (queuedRepository hashMapRepository) ids)

/-- The client after a load that read `reads` and returned `r`: what was loaded
joins the pool. -/
def Client.loaded (l : Client σ) (reads : List Entity) (r : RepoRes (List (Agg σ))) : Client σ where
  pool := match r with
    | .ok bs => bs ++ l.pool
    | .error _ => l.pool
  messages := l.messages
  loads := (reads, r) :: l.loads

/-- **What a client does next**, where `edit` is what a command may do to an
entity. -/
inductive Start (edit : Entity → Entity → Prop) (A : Aggregate σ) (B : Snapshottable σ) :
    Client σ → RepoProg (Client σ) → Prop where
  /-- A new aggregate. -/
  | create (l : Client σ) : Start edit A B l (.ret { l with pool := A.newEmpty :: l.pool })
  /-- Commands on an aggregate, after which replay reproduces its state. -/
  | command (l : Client σ) (pre post : List (Agg σ)) (a a' : Agg σ)
      (hpool : l.pool = pre ++ a :: post) (hedit : edit a.entity a'.entity)
      (hreproduces : A.Reproduces a') : Start edit A B l (.ret { l with pool := pre ++ a' :: post })
  /-- A new outbox message. -/
  | message (l : Client σ) (e : Entity) (hedit : edit Entity.new e) :
      Start edit A B l (.ret { l with messages := e :: l.messages })
  /-- Commands on a message. -/
  | messageCommand (l : Client σ) (pre post : List Entity) (e e' : Entity)
      (hmessages : l.messages = pre ++ e :: post) (hedit : edit e e') :
      Start edit A B l (.ret { l with messages := pre ++ e' :: post })
  /-- A load. -/
  | load (l : Client σ) (p : Op (List (Agg σ))) (hp : Load A B p) :
      Start edit A B l (p.traced.map (fun tr => l.loaded (tr.1.flatMap entityRead) tr.2))
  /-- A commit with snapshots of any frequency: `commit`, `commit_all`, or an
  outbox commit, by the aggregates and messages it is given. -/
  | commit (l : Client σ) {R : Repo} (hR : OverStore R) (checks : OverflowChecks)
      (frequency : ℕ) (aggs rest : List (Agg σ)) (others unsent : List Entity)
      (hpool : l.pool.Perm (aggs ++ rest)) (hmessages : l.messages.Perm (others ++ unsent))
      (hnd : ((aggs.map Agg.entity ++ others).map Entity.id).Nodup) :
      Start edit A B l ((SnapshotAggregateRepository.commitWith R B checks frequency aggs others).map
        (fun r => ⟨r.2.1 ++ rest, r.2.2 ++ unsent, l.loads⟩))
  /-- A commit without snapshots. -/
  | plainCommit (l : Client σ) {R : Repo} (hR : OverStore R) (aggs rest : List (Agg σ))
      (others unsent : List Entity) (hpool : l.pool.Perm (aggs ++ rest))
      (hmessages : l.messages.Perm (others ++ unsent))
      (hnd : ((aggs.map Agg.entity ++ others).map Entity.id).Nodup) :
      Start edit A B l ((AggregateRepository.commitWith R aggs others).map
        (fun r => ⟨r.2.1 ++ rest, r.2.2 ++ unsent, l.loads⟩))
  /-- A snapshot is deleted. -/
  | deleteSnapshot (l : Client σ) {R : Repo} (hR : OverStore R) (id : String) :
      Start edit A B l (Prog.map (fun _ => l) (R.deleteSnapshot id))

/-- **Clients sharing one store**, its events and its snapshots. -/
def system (C : Type) (edit : Entity → Entity → Prop) (A : Aggregate σ) (B : Snapshottable σ) :
    System C RepoAction RepoAction.Resp Shared (Client σ) where
  sem _ a := a.Sem
  start _ := Start edit A B

/-- An empty store, and clients with nothing. -/
def initial (C : Type) (σ : Type) : Config C RepoAction RepoAction.Resp Shared (Client σ) :=
  ⟨Shared.empty, fun _ => .ret ⟨[], [], []⟩⟩

/-! ## The law -/

/-- **The aggregate is the hydrated entity**, whenever that is hydrated: the same
fields, id, events and version. -/
def SameAsHydrate (A : Aggregate σ) (e : Entity) (b : Agg σ) : Prop :=
  ∀ now, ∃ b', A.hydrate now e = .ok b' ∧ b.fields = b'.fields ∧ b.entity.id = b'.entity.id
    ∧ b.entity.events = b'.entity.events ∧ b.entity.version = b'.entity.version

/-- **A load that is right**: it returned an aggregate for each entity it read,
the hydrated one; or it failed, and one of the entities does not hydrate. -/
def RightLoad (A : Aggregate σ) (load : List Entity × RepoRes (List (Agg σ))) : Prop :=
  match load.2 with
  | .ok bs => List.Forall₂ (SameAsHydrate A) load.1 bs
  | .error _ => ∃ e ∈ load.1, A.Fails e

theorem sameAsHydrate_of_agrees {k : Known} {e : Entity} {b : Agg σ} (he : k.Loads e)
    (h : A.Agrees e b) : SameAsHydrate A e b := by
  intro now
  have hentity := h.entity_eq
  refine ⟨_, h.replays.hydrate he.replaying_eq now, rfl, ?_, ?_, ?_⟩ <;> rw [hentity] <;> rfl

theorem rightLoad_of_loaded {k : Known} {reads : List Entity} {r : RepoRes (List (Agg σ))}
    (h : SnapshotAggregateRepository.Loaded A reads k r) : RightLoad A (reads, r) := by
  cases r with
  | error f => exact h
  | ok bs =>
    obtain ⟨hloads, hagree⟩ := h
    refine ((List.forall₂_and_left _ _).mpr ⟨hloads, hagree⟩).imp (fun e b hb => ?_)
    exact sameAsHydrate_of_agrees hb.1 hb.2

/-- **What holds of a client at rest**: everything it has is live, and all its
loads were right. -/
structure Sound (A : Aggregate σ) (l : Client σ) (k : Known) : Prop where
  pool : ∀ a ∈ l.pool, Live A k a
  messages : k.Tracks l.messages
  loads : ∀ load ∈ l.loads, RightLoad A load

namespace Sound

variable {l : Client σ} {k k' : Known} {pool aggs rest : List (Agg σ)}
  {messages others unsent : List Entity}

theorem perm (h : Sound A l k) (hpool : l.pool.Perm pool) (hmessages : l.messages.Perm messages) :
    Sound A ⟨pool, messages, l.loads⟩ k :=
  ⟨fun a ha => h.pool a (hpool.symm.subset ha), fun e he => h.messages e (hmessages.symm.subset he),
    h.loads⟩

/-- Some of the aggregates and messages committed, the rest kept. -/
theorem committed {load : List (List Entity × RepoRes (List (Agg σ)))}
    {aggs' : List (Agg σ)} {others' : List Entity}
    (h : Sound A ⟨aggs ++ rest, others ++ unsent, load⟩ k) (hk : k ≤ k')
    (haggs : ∀ a ∈ aggs', Live A k' a) (hothers : k'.Tracks others') :
    Sound A ⟨aggs' ++ rest, others' ++ unsent, load⟩ k' := by
  refine ⟨fun a ha => ?_, hothers.append fun e he => ?_, h.loads⟩
  · rcases List.mem_append.mp ha with ha | ha
    · exact haggs a ha
    · exact (h.pool a (List.mem_append_right _ ha)).mono hk
  · exact (h.messages e (List.mem_append_right _ he)).mono (hk e.id)

end Sound

/-- **Every load keeps the protocol and is right.** -/
theorem wp_load (hB : B.Laws A) {p : Op (List (Agg σ))} (hp : Load A B p) (k : Known) :
    (loading B A).wp (fun r kl => k ≤ kl.1 ∧ SnapshotAggregateRepository.Loaded A kl.2 kl.1 r)
      p (k, []) := by
  cases hp with
  | get hR now id =>
    rw [Protocol.wp_map]
    refine SnapshotAggregateRepository.wp_loadOne (fun kl => Known.wp_getOne hR kl id)
      (fun e he => ?_) k
    exact he ▸ SnapshotAggregateRepository.faithful_hydrateStored hR hB now e
  | getAll hR now ids =>
    exact SnapshotAggregateRepository.wp_loadAll (fun kl => Known.wp_getMany hR kl ids)
      (SnapshotAggregateRepository.faithful_hydrateStored hR hB now) k
  | peek now id =>
    rw [Protocol.wp_map]
    refine SnapshotAggregateRepository.wp_loadOne (fun kl => Known.wp_hashMap_getOne kl id)
      (fun e he => ?_) k
    exact he ▸ SnapshotAggregateRepository.faithful_hydrateStored .queued hB now e
  | peekAll now ids =>
    exact SnapshotAggregateRepository.wp_loadAll (fun kl => Known.wp_hashMap_getMany kl ids)
      (SnapshotAggregateRepository.faithful_hydrateStored .queued hB now) k
  | plainGet hR now id =>
    rw [Protocol.wp_map]
    exact SnapshotAggregateRepository.wp_loadOne (fun kl => Known.wp_getOne hR kl id)
      (fun e _ => SnapshotAggregateRepository.faithful_hydrate hB now e) k
  | plainGetAll hR now ids =>
    exact SnapshotAggregateRepository.wp_loadAll (fun kl => Known.wp_getMany hR kl ids)
      (SnapshotAggregateRepository.faithful_hydrate hB now) k
  | plainPeek now id =>
    rw [Protocol.wp_map]
    exact SnapshotAggregateRepository.wp_loadOne (fun kl => Known.wp_hashMap_getOne kl id)
      (fun e _ => SnapshotAggregateRepository.faithful_hydrate hB now e) k
  | plainPeekAll now ids =>
    exact SnapshotAggregateRepository.wp_loadAll (fun kl => Known.wp_hashMap_getMany kl ids)
      (SnapshotAggregateRepository.faithful_hydrate hB now) k

/-- **Every program of a client keeps it sound.** -/
theorem wp_start (hB : B.Laws A) {l : Client σ} {p : RepoProg (Client σ)} {k : Known}
    (hl : Sound A l k) (h : Start Entity.Grows A B l p) :
    (Known.protocol (B.Right A)).wp (Sound A) p k := by
  cases h with
  | create =>
    exact ⟨List.forall_mem_cons.mpr ⟨Live.newEmpty A k, hl.pool⟩, hl.messages, hl.loads⟩
  | command pre post a a' hpool hgrows hreproduces =>
    have hall : ∀ b ∈ pre ++ a :: post, Live A k b := hpool ▸ hl.pool
    refine ⟨fun b hb => ?_, hl.messages, hl.loads⟩
    rcases List.mem_append.mp hb with hb | hb
    · exact hall b (List.mem_append_left _ hb)
    · rcases List.mem_cons.mp hb with rfl | hb
      · exact ⟨(hall a (by simp)).tracks.grows hgrows, hreproduces⟩
      · exact hall b (List.mem_append_right _ (List.mem_cons_of_mem _ hb))
  | message e hgrows =>
    exact ⟨hl.pool, hl.messages.cons ((Entity.Tracks.withId "" _).grows hgrows), hl.loads⟩
  | messageCommand pre post e e' hmessages hgrows =>
    have hall : k.Tracks (pre ++ e :: post) := hmessages ▸ hl.messages
    exact ⟨hl.pool, hall.replace ((hall e (by simp)).grows hgrows), hl.loads⟩
  | load p hp =>
    rw [Protocol.wp_map]
    refine Protocol.wp_traced _ (Q := fun reads r k' => Sound A (l.loaded reads r) k')
      (Protocol.wp_mono _ (fun r kl hr => ?_) (wp_load hB hp k))
    obtain ⟨hk, hloaded⟩ := hr
    have hloads : ∀ load ∈ (l.loaded kl.2 r).loads, RightLoad A load :=
      List.forall_mem_cons.mpr ⟨rightLoad_of_loaded hloaded, hl.loads⟩
    cases r with
    | error f => exact ⟨fun a ha => (hl.pool a ha).mono hk, hl.messages.mono hk, hloads⟩
    | ok bs =>
      refine ⟨fun a ha => ?_, hl.messages.mono hk, hloads⟩
      rcases List.mem_append.mp ha with ha | ha
      · exact Live.of_forall₂ hloaded.1 hloaded.2 a ha
      · exact (hl.pool a ha).mono hk
  | commit hR checks frequency aggs rest others unsent hpool hmessages hnd =>
    have hbatch := hl.perm hpool hmessages
    rw [Protocol.wp_map]
    refine Protocol.wp_of_observing _ (l := []) (Protocol.wp_mono _ (fun r kl hr => ?_)
      (wp_commitWith_snapshots hR (fun a ha => hbatch.pool a (List.mem_append_left _ ha))
        (fun e he => hbatch.messages e (List.mem_append_left _ he)) hnd checks frequency))
    exact hbatch.committed hr.1.1 hr.2.1 hr.2.2
  | plainCommit hR aggs rest others unsent hpool hmessages hnd =>
    have hbatch := hl.perm hpool hmessages
    rw [Protocol.wp_map]
    refine Protocol.wp_of_observing _ (l := []) (Protocol.wp_mono _ (fun r kl hr => ?_)
      (wp_commitWith (B := B) hR (fun a ha => hbatch.pool a (List.mem_append_left _ ha))
        (fun e he => hbatch.messages e (List.mem_append_left _ he)) hnd))
    exact hbatch.committed hr.1.1 hr.2.1 hr.2.2.1
  | deleteSnapshot hR id =>
    rw [Protocol.wp_map]
    refine Protocol.wp_of_observing _ (l := []) (Protocol.wp_mono _ (fun r kl hr => ?_)
      (Known.wp_deleteSnapshot hR (k, []) id))
    cases r with
    | error f => exact hr.elim
    | ok b => exact ⟨fun a ha => (hl.pool a ha).mono hr.1, hl.messages.mono hr.1, hl.loads⟩

theorem holds_of_run {C : Type} [DecidableEq C] (hB : B.Laws A)
    {x : Config C RepoAction RepoAction.Resp Shared (Client σ)}
    (hrun : (system C Entity.Grows A B).Run (initial C σ) x) :
    System.Holds (Known.protocol (B.Right A)) (StoreInv (B.Right A)) (Sound A) x := by
  refine System.reachable_holds (fun _ _ _ _ _ _ hI hpre hsem => ?_)
    (fun _ _ _ _ hl hstart => wp_start hB hl hstart) ⟨fun _ => Known.nothing, StoreInv.new, fun _ => ?_⟩
    hrun
  · exact (hI.act (fun _ _ _ hl hr => hr.mono hl) hpre hsem).2
  · exact ⟨fun a ha => absurd ha List.not_mem_nil, Known.Tracks.nil,
      fun load hload => absurd hload List.not_mem_nil⟩

end SnapshotClients

/-! ## A lamp -/

namespace Aggregate

variable {A : Aggregate σ} {g : EventRecord → σ → Res String σ}

/-- A replay that looks at the fields only leaves the entity as it is. -/
theorem replayAll_of_fields
    (hg : ∀ now e a, A.replayEvent now e a = (g e a.fields).map (fun f => ⟨f, a.entity⟩))
    (now : SystemTime) (es : List EventRecord) (a : Agg σ) :
    A.replayAll now es a = (es.foldlM (fun f e => g e f) a.fields).map (fun f => ⟨f, a.entity⟩) := by
  induction es generalizing a with
  | nil => rfl
  | cons e es ih =>
    rw [A.replayAll_cons, hg, List.foldlM_cons]
    cases h : g e a.fields with
    | error f => rfl
    | ok f => exact ih ⟨f, a.entity⟩

/-- **A replay that looks at the fields only reproduces what it loaded.** -/
theorem replays_of_fields
    (hg : ∀ now e a, A.replayEvent now e a = (g e a.fields).map (fun f => ⟨f, a.entity⟩))
    {now : SystemTime} {e : Entity} {a : Agg σ} (h : A.hydrate now e = .ok a) :
    A.Replays e.id e.events a.fields := by
  obtain ⟨events, b, hup, hreplay, rfl⟩ := (A.hydrate_eq_ok now).mp h
  rw [replayAll_of_fields hg] at hreplay
  cases hf : events.foldlM (fun f e => g e f) A.default with
  | error f => rw [hf] at hreplay; cases hreplay
  | ok f =>
    rw [hf] at hreplay
    obtain rfl : Agg.mk f _ = b := Except.ok.inj hreplay
    refine fun now' e' _ _ => ⟨events, hup, ?_⟩
    rw [replayAll_of_fields hg, hf]
    rfl

end Aggregate

/-- What an event does to a lamp, which is on or off. -/
def lampEvent (e : EventRecord) (on : Bool) : Res String Bool :=
  match e.eventName with
  | "On" => .ok true
  | "Off" => .ok false
  | "Renamed" => .ok on
  | name => .error (.err ("Unknown event: " ++ name))

/-- **A lamp.** -/
def lamp : Aggregate Bool where
  default := false
  replayEvent _ e a := (lampEvent e a.fields).map (fun on => ⟨on, a.entity⟩)
  upcasters := []

/-- The snapshots of a lamp: one byte. -/
def lampSnapshot : Snapshottable Bool where
  Snapshot := Bool
  codec := ⟨fun on => .ok [if on then 1 else 0], fun bytes => .ok (bytes == [1])⟩
  createSnapshot a := a.fields
  restoreFromSnapshot a on := { a with fields := on }

theorem lampSnapshot_laws : lampSnapshot.Laws lamp where
  lawful on data h := by
    obtain rfl := Except.ok.inj h
    cases on <;> rfl
  restore _ _ _ := rfl
  loaded _ _ _ h := Aggregate.replays_of_fields (g := lampEvent) (fun _ _ _ => rfl) h

namespace SnapshotClients

/-- A new lamp given an id and its first event. -/
def lit (id name : String) (on : Bool) : Agg Bool :=
  ⟨on, (Entity.withId id).digest SystemTime.unixEpoch name Bitcode.unit ()⟩

end SnapshotClients
