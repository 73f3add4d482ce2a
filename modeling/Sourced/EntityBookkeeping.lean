import Sourced.BatchCommit
import Mathlib.Logic.Relation

/-!
# The bookkeeping of an entity

An entity keeps two counters beside its events, and `new_events` is the slice
between them. Clients make or load any number of entities, work on them, and
commit some of them together. `Draft` is an entity with the list of what was
recorded on it since it was loaded or last committed – a list the program does
not keep, and which `new_events` is to be equal to.

It is, as long as `set_snapshot` is called only on entities that have nothing
committed. `set_snapshot` replaces the events and leaves `committed_version` as it
was: with one event committed the snapshot counts as committed, and is never
stored; with more the slice starts past its end, and the commit panics
(`newEvents_setSnapshot_iff`). And two entities of one id in a batch are
committed without regard to each other, so a batch has to have one of each
that has anything new.
-/

/-- **An entity at work**, and what was recorded on it. -/
structure Draft where
  entity : Entity
  /-- What was recorded since the entity was loaded or last committed. -/
  recorded : List EventRecord

namespace Draft

/-- `digest` and `digest_v` record an event, outside a replay. -/
def digestAt {T : Type} (d : Draft) (now : SystemTime) (name : String) (version : ℕ)
    (c : Bitcode T) (payload : T) : Draft :=
  ⟨d.entity.digestAt now name version c payload,
    if d.entity.replaying then d.recorded
    else d.recorded ++ [d.entity.record now name version c payload]⟩

/-- `set_snapshot` replaces what was recorded by the snapshot. -/
def setSnapshot {T : Type} (d : Draft) (now : SystemTime) (c : Bitcode T) (data : T) : Draft :=
  ⟨d.entity.setSnapshot now c data, [Entity.snapshotRecord now c data]⟩

/-- `rehydrate` records nothing. -/
def rehydrate {τ ε : Type} (d : Draft) (apply : τ → EventRecord → Except ε τ) (t : τ) : Draft :=
  ⟨(d.entity.rehydrate apply t).2, d.recorded⟩

/-- A successful commit stores what was recorded. -/
def committed (r : RepoRes Unit) (d : Draft) (e : Entity) : Draft :=
  match r with
  | .ok () => ⟨e, []⟩
  | .error _ => ⟨e, d.recorded⟩

/-- **The books of a draft are in order.** -/
structure InOrder (d : Draft) : Prop where
  committed_le : d.entity.committedVersion ≤ d.entity.version
  version_eq : d.entity.version = d.entity.events.length
  /-- The i-th event carries the sequence number i + 1. -/
  numbered : Numbered EventRecord.sequence d.entity.events
  /-- `new_events` does not panic, and is what was recorded. -/
  newEvents_eq : d.entity.newEvents = some d.recorded

end Draft

/-! ## The clients of a store -/

/-- **A store and the entities its clients work on.** -/
structure Drafts where
  store : EventStore
  drafts : List Draft

/-- The calls that are not always right: `set_snapshot` of an entity, and the
commit of a batch. -/
inductive RiskyCall where
  | setSnapshot (e : Entity)
  | commit (es : List Entity)

namespace Drafts

/-- **One call** of some client, where risky ones are made if `allowed`. -/
inductive Step (allowed : RiskyCall → Prop) : Drafts → Drafts → Prop
  | withId (s : EventStore) (ds : List Draft) (id : String) :
      Step allowed ⟨s, ds⟩ ⟨s, ⟨Entity.withId id, []⟩ :: ds⟩
  | getOne (s : EventStore) (ds : List Draft) (id : String) (e : Entity)
      (h : s.getOne id = .ok (some e)) : Step allowed ⟨s, ds⟩ ⟨s, ⟨e, []⟩ :: ds⟩
  | digest (s : EventStore) (pre post : List Draft) (d : Draft) {T : Type} (now : SystemTime)
      (name : String) (version : ℕ) (c : Bitcode T) (payload : T) :
      Step allowed ⟨s, pre ++ d :: post⟩ ⟨s, pre ++ d.digestAt now name version c payload :: post⟩
  | setMetadata (s : EventStore) (pre post : List Draft) (d : Draft) (m : Metadata) :
      Step allowed ⟨s, pre ++ d :: post⟩ ⟨s, pre ++ { d with entity := d.entity.setMetadata m } :: post⟩
  | setSnapshot (s : EventStore) (pre post : List Draft) (d : Draft) {T : Type} (now : SystemTime)
      (c : Bitcode T) (data : T) (h : allowed (.setSnapshot d.entity)) :
      Step allowed ⟨s, pre ++ d :: post⟩ ⟨s, pre ++ d.setSnapshot now c data :: post⟩
  | rehydrate (s : EventStore) (pre post : List Draft) (d : Draft) {τ ε : Type}
      (apply : τ → EventRecord → Except ε τ) (t : τ) :
      Step allowed ⟨s, pre ++ d :: post⟩ ⟨s, pre ++ d.rehydrate apply t :: post⟩
  | commit (s : EventStore) (ds batch rest : List Draft) (hperm : ds.Perm (batch ++ rest))
      (h : allowed (.commit (batch.map Draft.entity))) (r : RepoRes Unit) (es' : List Entity)
      (s' : EventStore) (hcommit : s.commit (batch.map Draft.entity) = (r, es', s')) :
      Step allowed ⟨s, ds⟩ ⟨s', batch.zipWith (Draft.committed r) es' ++ rest⟩

/-- `HashMapRepository::new`, and no entities. -/
def initial : Drafts := ⟨EventStore.new, []⟩

/-- Every order of calls. -/
abbrev Run (allowed : RiskyCall → Prop) : Drafts → Drafts → Prop :=
  Relation.ReflTransGen (Step allowed)

end Drafts

/-- **No entity of the batch has new events and shares its id** with another. -/
def EventStore.OneOfEach (es : List Entity) : Prop :=
  es.Pairwise (fun e f => e.id = f.id → e.uncommitted = [] ∧ f.uncommitted = [])

/-- **The calls that are right**: `set_snapshot` of an entity with nothing
committed, and the commit of a batch with one entity of each id that has
anything new. -/
def RiskyCall.Careful : RiskyCall → Prop
  | .setSnapshot e => e.committedVersion = 0
  | .commit es => EventStore.OneOfEach es

/-! ## Batches with one entity of each id -/

namespace EventStore

variable {s : EventStore} {es : List Entity} {e : Entity}

/-- In such a batch every entity appends alone. -/
theorem batchEvents_of_oneOfEach (h : OneOfEach es) (he : e ∈ es) :
    batchEvents es e.id = e.uncommitted := by
  induction es with
  | nil => cases he
  | cons f es ih =>
    obtain ⟨hf, hes⟩ := List.pairwise_cons.mp h
    rw [batchEvents_cons]
    rcases List.mem_cons.mp he with rfl | he
    · have hrest : batchEvents es e.id = [] := by
        refine List.flatMap_eq_nil_iff.mpr (fun g hg => ?_)
        by_cases hid : g.id = e.id
        · rw [if_pos hid]
          exact (hf g hg hid.symm).2
        · exact if_neg hid
      rw [if_pos rfl, hrest, List.append_nil]
    · rw [ih hes he]
      by_cases hid : f.id = e.id
      · rw [if_pos hid, (hf e he hid).1, List.nil_append]
      · rw [if_neg hid, List.nil_append]

/-- What an entity appends is some of what its batch does. -/
theorem length_uncommitted_le (he : e ∈ es) :
    e.uncommitted.length ≤ (batchEvents es e.id).length := by
  induction es with
  | nil => cases he
  | cons f es ih =>
    rw [batchEvents_cons, List.length_append]
    rcases List.mem_cons.mp he with rfl | he
    · rw [if_pos rfl]
      exact Nat.le_add_right _ _
    · exact (ih he).trans (Nat.le_add_left _ _)

/-- **Every entity appends alone** exactly where no two of one id have anything
new. -/
theorem oneOfEach_iff : OneOfEach es ↔ ∀ e ∈ es, batchEvents es e.id = e.uncommitted := by
  refine ⟨fun h e he => batchEvents_of_oneOfEach h he, fun h => ?_⟩
  -- only the lengths matter, and the bound goes down to the rest of the batch
  have hle : ∀ e ∈ es, (batchEvents es e.id).length ≤ e.uncommitted.length :=
    fun e he => (congrArg List.length (h e he)).le
  clear h
  induction es with
  | nil => exact List.Pairwise.nil
  | cons f es ih =>
    simp only [batchEvents_cons, List.length_append] at hle
    refine List.pairwise_cons.mpr ⟨fun g hg hid => ?_, ih (fun g hg => ?_)⟩
    · have hg' := hle g (List.mem_cons_of_mem f hg)
      have hf' := hle f List.mem_cons_self
      have hsub := length_uncommitted_le hg
      rw [if_pos hid] at hg'
      rw [if_pos rfl, hid] at hf'
      exact ⟨List.length_eq_zero_iff.mp (by omega), List.length_eq_zero_iff.mp (by omega)⟩
    · exact (Nat.le_add_left _ _).trans (hle g (List.mem_cons_of_mem f hg))

theorem OneOfEach.oneWriterEach (h : OneOfEach es) : OneWriterEach es :=
  h.imp (fun himp hid => Or.inl (himp hid).1)

/-- **The stream of an entity after its batch** is its events. -/
theorem stream_extendAll_of_oneOfEach (hv : s.Valid es) (ht : s.Tracked es) (h : OneOfEach es)
    (he : e ∈ es) : (s.extendAll es).stream e.id = e.events := by
  rw [stream_extendAll, batchEvents_of_oneOfEach h he]
  exact (ht e he).append_uncommitted (hv e he)

/-- **A commit can be read back** exactly where no two entities of one id have
anything new. -/
theorem getOne_after_commit_iff (hp : s.poisoned = false) (hv : s.Valid es) (ht : s.Tracked es) :
    (∀ e ∈ es.map Entity.markCommitted,
        ∃ stored, (s.extendAll es).getOne e.id = .ok (some stored) ∧ stored.events = e.events)
      ↔ OneOfEach es := by
  rw [oneOfEach_iff, List.forall_mem_map]
  refine forall₂_congr (fun e he => ?_)
  obtain ⟨l, hl⟩ := Option.isSome_iff_exists.mp
    ((isSome_lookup_extendAll s es e.id).mpr (Or.inr ⟨e, he, rfl⟩))
  have hstream := lookup_eq_some hl
  have happ := (ht e he).append_uncommitted (hv e he)
  rw [Entity.id_markCommitted, Entity.events_markCommitted,
    getOne_eq ((poisoned_extendAll s es).trans hp), hl]
  rw [stream_extendAll] at hstream
  constructor
  · rintro ⟨stored, hstored, hevents⟩
    obtain rfl := Option.some.inj (Except.ok.inj hstored)
    rw [events_loadEntity, ← hstream, ← happ] at hevents
    exact List.append_cancel_left hevents
  · intro h
    refine ⟨loadEntity e.id l, rfl, ?_⟩
    rw [events_loadEntity, ← hstream, h, happ]

end EventStore

/-! ## What each call does to a draft -/

/-- **A draft of a store**: its entity tracks the stream of its id, and what is
not committed is what was recorded. -/
structure Draft.Good (s : EventStore) (d : Draft) : Prop where
  tracks : d.entity.Tracks (s.stream d.entity.id)
  uncommitted_eq : d.entity.uncommitted = d.recorded

namespace Draft.Good

variable {s s' : EventStore} {d : Draft}

theorem inOrder (h : d.Good s) : d.InOrder :=
  ⟨h.tracks.version_eq ▸ h.tracks.committed_le, h.tracks.version_eq, h.tracks.numbered,
    h.tracks.newEvents_eq.trans (congrArg some h.uncommitted_eq)⟩

theorem withId (s : EventStore) (id : String) : Good s ⟨Entity.withId id, []⟩ :=
  ⟨Entity.Tracks.withId id _, rfl⟩

theorem getOne (hs : s.WellFormed) {id : String} {e : Entity} (h : s.getOne id = .ok (some e)) :
    Good s ⟨e, []⟩ := by
  obtain ⟨l, hl, rfl⟩ := EventStore.lookup_of_getOne h
  obtain rfl := EventStore.lookup_eq_some hl
  exact ⟨hs.tracks_loadEntity id, List.drop_length⟩

/-- An event is recorded after those recorded before. -/
theorem digestAt (h : d.Good s) {T : Type} (now : SystemTime) (name : String) (version : ℕ)
    (c : Bitcode T) (payload : T) : (d.digestAt now name version c payload).Good s := by
  refine ⟨?_, ?_⟩
  · unfold Draft.digestAt
    rw [Entity.id_digestAt]
    exact h.tracks.digestAt now name version c payload
  · unfold Draft.digestAt
    cases hr : d.entity.replaying with
    | true =>
      rw [Entity.digestAt_of_replaying hr]
      exact h.uncommitted_eq
    | false =>
      rw [Entity.digestAt_eq hr, ← h.uncommitted_eq]
      exact List.drop_append_of_le_length h.tracks.committed_le

theorem setMetadata (h : d.Good s) (m : Metadata) :
    Good s { d with entity := d.entity.setMetadata m } :=
  ⟨h.tracks.setMetadata m, h.uncommitted_eq⟩

theorem rehydrate (h : d.Good s) {τ ε : Type} (apply : τ → EventRecord → Except ε τ) (t : τ) :
    (d.rehydrate apply t).Good s :=
  ⟨⟨h.tracks.committed_le, h.tracks.version_eq, h.tracks.numbered, h.tracks.initial⟩,
    h.uncommitted_eq⟩

/-- **A snapshot of an entity with nothing committed** is the one thing
recorded. -/
theorem setSnapshot (hc : d.entity.committedVersion = 0) {T : Type} (now : SystemTime)
    (c : Bitcode T) (data : T) : (d.setSnapshot now c data).Good s := by
  refine ⟨⟨?_, rfl, rfl, ?_⟩, ?_⟩
  · show d.entity.committedVersion ≤ 1
    omega
  · show [Entity.snapshotRecord now c data].take d.entity.committedVersion <+: _
    rw [hc]
    exact List.nil_prefix
  · show [Entity.snapshotRecord now c data].drop d.entity.committedVersion = _
    rw [hc]
    rfl

theorem mono (h : d.Good s) (hgrow : s.stream d.entity.id <+: s'.stream d.entity.id) : d.Good s' :=
  ⟨h.tracks.mono hgrow, h.uncommitted_eq⟩

/-- A draft whose events are now stored. -/
theorem markCommitted (h : d.Good s) (hstream : s'.stream d.entity.id = d.entity.events) :
    Good s' ⟨d.entity.markCommitted, []⟩ := by
  refine ⟨?_, ?_⟩
  · show d.entity.markCommitted.Tracks (s'.stream d.entity.id)
    rw [hstream]
    exact h.tracks.markCommitted
  · show d.entity.events.drop d.entity.version = []
    rw [h.tracks.version_eq]
    exact List.drop_length

end Draft.Good

/-- **`set_snapshot` and `new_events`**: the snapshot is new exactly where nothing
was committed. -/
theorem Entity.newEvents_setSnapshot_iff {T : Type} (e : Entity) (now : SystemTime) (c : Bitcode T)
    (data : T) :
    (e.setSnapshot now c data).newEvents = some [snapshotRecord now c data]
      ↔ e.committedVersion = 0 := by
  show (if e.committedVersion ≤ 1 then
    some ([snapshotRecord now c data].drop e.committedVersion) else none) = _ ↔ _
  rcases hc : e.committedVersion with _ | _ | n <;> simp

/-! ## Every run -/

namespace Drafts

/-- The store is in working order, and every draft is one of it. -/
structure Inv (x : Drafts) : Prop where
  store : x.store.WellFormed
  good : ∀ d ∈ x.drafts, d.Good x.store

theorem inv_initial : Inv initial := ⟨.new, fun _ hd => by cases hd⟩

variable {s : EventStore} {ds pre post : List Draft}

theorem Inv.cons (h : Inv ⟨s, ds⟩) {d : Draft} (hd : d.Good s) : Inv ⟨s, d :: ds⟩ :=
  ⟨h.store, List.forall_mem_cons.mpr ⟨hd, h.good⟩⟩

theorem Inv.replace {d d' : Draft} (h : Inv ⟨s, pre ++ d :: post⟩) (hd : d.Good s → d'.Good s) :
    Inv ⟨s, pre ++ d' :: post⟩ := by
  refine ⟨h.store, fun x hx => ?_⟩
  rcases List.mem_append.mp hx with hx | hx
  · exact h.good x (List.mem_append_left _ hx)
  · rcases List.mem_cons.mp hx with rfl | hx
    · exact hd (h.good d (List.mem_append_right _ List.mem_cons_self))
    · exact h.good x (List.mem_append_right _ (List.mem_cons_of_mem d hx))

theorem Inv.tracked {batch rest : List Draft} (h : Inv ⟨s, ds⟩) (hperm : ds.Perm (batch ++ rest)) :
    s.Tracked (batch.map Draft.entity) := by
  intro e he
  obtain ⟨d, hd, rfl⟩ := List.mem_map.mp he
  exact (h.good d (hperm.symm.subset (List.mem_append_left _ hd))).tracks

/-- **A commit that goes through or is refused.** -/
theorem Inv.commit {batch rest : List Draft} (h : Inv ⟨s, ds⟩) (hperm : ds.Perm (batch ++ rest))
    (hone : EventStore.OneOfEach (batch.map Draft.entity)) {r : RepoRes Unit} {es' : List Entity}
    {s' : EventStore} (hcommit : s.commit (batch.map Draft.entity) = (r, es', s')) :
    Inv ⟨s', batch.zipWith (Draft.committed r) es' ++ rest⟩ := by
  have ht := h.tracked hperm
  have hgood : ∀ d ∈ batch ++ rest, d.Good s := fun d hd => h.good d (hperm.symm.subset hd)
  rcases EventStore.commit_cases h.store.not_poisoned ht with ⟨hv, hok⟩ | ⟨-, e, -, herr⟩
  · obtain ⟨rfl, hrest⟩ := Prod.mk.inj (hcommit.symm.trans hok)
    obtain ⟨rfl, rfl⟩ := Prod.mk.inj hrest
    refine ⟨⟨(EventStore.poisoned_extendAll _ _).trans h.store.not_poisoned,
      (EventStore.numbered_extendAll_iff h.store.numbered hv ht).mpr hone.oneWriterEach⟩, ?_⟩
    intro d hd
    rcases List.mem_append.mp hd with hd | hd
    · rw [List.map_map, List.zipWith_map_right, List.zipWith_self] at hd
      obtain ⟨d, hmem, rfl⟩ := List.mem_map.mp hd
      exact (hgood d (List.mem_append_left _ hmem)).markCommitted
        (EventStore.stream_extendAll_of_oneOfEach hv ht hone (List.mem_map_of_mem hmem))
    · exact (hgood d (List.mem_append_right _ hd)).mono (EventStore.stream_prefix_extendAll _ _ _)
  · obtain ⟨rfl, hrest⟩ := Prod.mk.inj (hcommit.symm.trans herr)
    obtain ⟨rfl, rfl⟩ := Prod.mk.inj hrest
    refine ⟨h.store, fun d hd => hgood d ?_⟩
    rw [List.zipWith_map_right, List.zipWith_self] at hd
    rcases List.mem_append.mp hd with hd | hd
    · obtain ⟨d, hmem, rfl⟩ := List.mem_map.mp hd
      exact List.mem_append_left _ hmem
    · exact List.mem_append_right _ hd

/-- Every call that is right keeps the books in order. -/
theorem Inv.step {x y : Drafts} (h : Inv x) (hstep : Step RiskyCall.Careful x y) : Inv y := by
  cases hstep with
  | withId s ds id => exact h.cons (.withId s id)
  | getOne s ds id e hget => exact h.cons (.getOne h.store hget)
  | digest s pre post d now name version c payload =>
    exact h.replace (fun hd => hd.digestAt now name version c payload)
  | setMetadata s pre post d m => exact h.replace (fun hd => hd.setMetadata m)
  | setSnapshot s pre post d now c data hc => exact h.replace (fun _ => .setSnapshot hc now c data)
  | rehydrate s pre post d apply t => exact h.replace (fun hd => hd.rehydrate apply t)
  | commit s ds batch rest hperm hone r es' s' hcommit => exact h.commit hperm hone hcommit

/-- **And so does every run.** -/
theorem Inv.run {x y : Drafts} (h : Inv x) (hrun : Run RiskyCall.Careful x y) : Inv y := by
  induction hrun with
  | refl => exact h
  | tail _ hstep ih => exact ih.step hstep

/-- **The bookkeeping of entities.** In every run whose calls are right the books of
every entity are in order; a batch that is then committed can be read back
entity by entity exactly where it is right to commit it; and a snapshot taken
of an entity is new exactly where it is right to take it. -/
theorem bookkeeping {x : Drafts} (hrun : Run RiskyCall.Careful initial x) :
    (∀ d ∈ x.drafts, d.InOrder)
      ∧ (∀ batch rest es' s', x.drafts.Perm (batch ++ rest) →
        x.store.commit (batch.map Draft.entity) = (.ok (), es', s') →
        ((∀ e ∈ es', ∃ stored, s'.getOne e.id = .ok (some stored) ∧ stored.events = e.events)
          ↔ RiskyCall.Careful (.commit (batch.map Draft.entity))))
      ∧ (∀ d ∈ x.drafts, ∀ (T : Type) now (c : Bitcode T) (data : T),
        (d.setSnapshot now c data).InOrder ↔ RiskyCall.Careful (.setSnapshot d.entity)) := by
  have h := inv_initial.run hrun
  refine ⟨fun d hd => (h.good d hd).inOrder, fun batch rest es' s' hperm hcommit => ?_,
    fun d _ T now c data =>
      ⟨fun hin => ?_, fun hc => (Draft.Good.setSnapshot (s := x.store) hc now c data).inOrder⟩⟩
  · obtain ⟨rfl, rfl⟩ := EventStore.commit_eq_ok hcommit
    exact EventStore.getOne_after_commit_iff h.store.not_poisoned
      (EventStore.valid_of_commit hcommit) (h.tracked hperm)
  · exact (Entity.newEvents_setSnapshot_iff d.entity now c data).mp hin.newEvents_eq

/-- A snapshot of a fresh entity, an event after it, and a commit. -/
theorem bookkeeping_snapshot_first : ∃ x, Run RiskyCall.Careful initial x
    ∧ (∃ d ∈ x.drafts, d.entity.version = 2 ∧ d.InOrder)
    ∧ (x.store.stream "lamp-1").length = 2 := by
  have h₁ : Run RiskyCall.Careful initial _ := .single (.withId _ _ "lamp-1")
  have h₂ := h₁.tail (.setSnapshot _ [] [] _ SystemTime.unixEpoch Bitcode.unit () rfl)
  have h₃ := h₂.tail (.digest _ [] [] _ SystemTime.unixEpoch "On" 1 Bitcode.unit ())
  have h₄ := h₃.tail (.commit _ _ [_] [] (List.Perm.refl _) (List.pairwise_singleton _ _) _ _ _ rfl)
  exact ⟨_, h₄, ⟨_, List.mem_cons_self, rfl, (bookkeeping h₄).1 _ List.mem_cons_self⟩, rfl⟩

/-- **A snapshot of an entity with events committed.** With one committed the
snapshot is not new, and a commit that succeeds leaves the event in the store;
with two `new_events` panics, and with it the commit. -/
theorem snapshot_after_commit :
    (∃ x, Run (fun _ => True) initial x ∧ ∃ d ∈ x.drafts,
        d.recorded = d.entity.events ∧ d.entity.newEvents = some []
          ∧ (x.store.commit [d.entity]).1 = .ok ()
          ∧ ∃ stored, (x.store.commit [d.entity]).2.2.getOne "lamp-1" = .ok (some stored)
            ∧ stored.events ≠ d.entity.events)
      ∧ ∃ x, Run (fun _ => True) initial x ∧ ∃ d ∈ x.drafts,
        d.entity.newEvents = none ∧ (x.store.commit [d.entity]).1 = .error .panic := by
  have h₁ : Run (fun _ => True) initial _ := .single (.withId _ _ "lamp-1")
  have h₂ := h₁.tail (.digest _ [] [] _ SystemTime.unixEpoch "On" 1 Bitcode.unit ())
  constructor
  · have h₃ := h₂.tail (.commit _ _ [_] [] (List.Perm.refl _) trivial _ _ _ rfl)
    have h₄ := h₃.tail (.setSnapshot _ [] [] _ SystemTime.unixEpoch Bitcode.unit () trivial)
    exact ⟨_, h₄, _, List.mem_cons_self, rfl, rfl, rfl, _, rfl, by decide⟩
  · have h₃ := h₂.tail (.digest _ [] [] _ SystemTime.unixEpoch "Off" 1 Bitcode.unit ())
    have h₄ := h₃.tail (.commit _ _ [_] [] (List.Perm.refl _) trivial _ _ _ rfl)
    have h₅ := h₄.tail (.setSnapshot _ [] [] _ SystemTime.unixEpoch Bitcode.unit () trivial)
    exact ⟨_, h₅, _, List.mem_cons_self, rfl, rfl⟩

end Drafts
