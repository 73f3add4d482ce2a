import Sourced.DerivedSnapshot
import Sourced.EventMethod

/-!
# The versions a snapshot is decided by

Whether a commit takes a snapshot depends on two numbers of the committed
entity: its version, and the version noted in it of the snapshot it was loaded
from. Event methods raise the first by one with every event they record, and
nothing else a client calls touches the second.

Nor does a load, whatever the aggregate. A replayed event method records
nothing, and all it can change of the entity is the id; restoring a snapshot is
the same (`Snapshottable.KeepsCounts`). So what is loaded has as many events
as its stream, and notes the version of the snapshot it was made of
(`SnapshotAggregateRepository.exists_setId_of_hydrate`).
-/

/-! ## What is stored -/

/-- **The version of the snapshot stored for an id**, 0 where there is none. -/
def SnapshotStore.version (s : SnapshotStore) (id : String) : ℕ :=
  match s.getSnapshot id with
  | some r => r.version
  | none => 0

namespace SnapshotStore

theorem version_saveSnapshot (s : SnapshotStore) (r : SnapshotRecord) (id : String) :
    (s.saveSnapshot r).version id = if id = r.aggregateId then r.version else s.version id := by
  unfold version
  rw [getSnapshot_saveSnapshot]
  by_cases h : id = r.aggregateId
  · rw [if_pos h, if_pos h]
  · rw [if_neg h, if_neg h]

end SnapshotStore

/-- **No snapshot is ahead of its stream.** -/
def Shared.Covered (s : Shared) : Prop := ∀ id, s.snapshots.version id ≤ (s.events.stream id).length

namespace Entity

/-! ## What event methods do to an entity -/

/-- **What event methods do to an entity**: they record events, and give it
metadata and an id – another one, if they like. -/
inductive Edited (e : Entity) : Entity → Prop where
  | refl : Edited e e
  | digest {e' : Entity} (h : Edited e e') {T : Type} (now : SystemTime) (name : String)
      (version : ℕ) (c : Bitcode T) (payload : T) :
      Edited e (e'.digestAt now name version c payload)
  | setMetadata {e' : Entity} (h : Edited e e') (m : Metadata) : Edited e (e'.setMetadata m)
  | setId {e' : Entity} (h : Edited e e') (id : String) : Edited e (e'.setId id)

/-- **The counters of an entity are what its events say.** -/
structure Counted (e : Entity) : Prop where
  committed_le : e.committedVersion ≤ e.events.length
  version_eq : e.version = e.events.length

variable {e e' : Entity}

namespace Counted

theorem new : Entity.new.Counted := ⟨le_rfl, rfl⟩

/-- An event recorded is counted. -/
theorem digestAt {T : Type} (h : e.Counted) (now : SystemTime) (name : String) (version : ℕ)
    (c : Bitcode T) (payload : T) : (e.digestAt now name version c payload).Counted := by
  cases hr : e.replaying with
  | true =>
    rw [digestAt_of_replaying hr]
    exact h
  | false =>
    rw [digestAt_eq hr]
    refine ⟨h.committed_le.trans ?_, ?_⟩ <;> simp

/-- **Event methods keep the counters right.** -/
theorem edited (h : e.Counted) (hedit : e.Edited e') : e'.Counted := by
  induction hedit with
  | refl => exact h
  | digest _ now name version c payload ih => exact ih.digestAt now name version c payload
  | setMetadata _ m ih => exact ⟨ih.committed_le, ih.version_eq⟩
  | setId _ id ih => exact ⟨ih.committed_le, ih.version_eq⟩

theorem markCommitted (h : e.Counted) : e.markCommitted.Counted :=
  ⟨h.version_eq.le, h.version_eq⟩

theorem loadEntity (id : String) (events : List EventRecord) :
    (EventStore.loadEntity id events).Counted := ⟨le_rfl, rfl⟩

theorem newEvents_eq (h : e.Counted) : e.newEvents = some e.uncommitted :=
  if_pos h.committed_le

end Counted

/-- Event methods touch neither the version of the snapshot nor what counts as
committed. -/
theorem Edited.noted_eq (h : e.Edited e') :
    e'.snapshotVersion = e.snapshotVersion ∧ e'.committedVersion = e.committedVersion := by
  induction h with
  | refl => exact ⟨rfl, rfl⟩
  | digest _ now name version c payload ih =>
    refine ⟨Eq.trans ?_ ih.1, (committedVersion_digestAt _ now name version c payload).trans ih.2⟩
    unfold digestAt
    split <;> rfl
  | setMetadata _ _ ih => exact ih
  | setId _ _ ih => exact ih

end Entity

/-! ## Commits -/

namespace EventStore

variable {s : EventStore} {es : List Entity}

/-- **A commit of counted entities** appends and marks them all, or returns an
error and changes nothing. -/
theorem commit_of_counted (hes : ∀ e ∈ es, e.Counted) :
    s.Valid es ∧ s.commit es = (.ok (), es.map Entity.markCommitted, s.extendAll es)
      ∨ ∃ f, s.commit es = (.error (.err f), es, s) := by
  cases hp : s.poisoned with
  | true => exact Or.inr ⟨_, commit_of_poisoned es hp⟩
  | false =>
    by_cases hv : s.Valid es
    · exact Or.inl ⟨hv, commit_of_valid hp hv (fun e he => (hes e he).newEvents_eq)⟩
    · obtain ⟨e, -, he⟩ := commit_of_not_valid hp hv
      exact Or.inr ⟨_, he⟩

theorem counted_of_getOne {id : String} {e : Entity} (h : s.getOne id = .ok (some e)) : e.Counted := by
  obtain ⟨l, -, rfl⟩ := lookup_of_getOne h
  exact .loadEntity id l

/-- The entities a search finds are counted. -/
theorem counted_of_find {ord : List String} {p : Entity → Bool} (h : s.find ord p = .ok es) :
    ∀ e ∈ es, e.Counted := by
  unfold find at h
  cases hp : s.poisoned with
  | true => rw [hp] at h; cases h
  | false =>
    rw [hp] at h
    obtain rfl : (s.entities ord).filter p = es := Except.ok.inj h
    intro e he
    obtain ⟨id, -, hid⟩ := List.mem_filterMap.mp (List.mem_of_mem_filter he)
    obtain ⟨l, -, rfl⟩ := Option.map_eq_some_iff.mp hid
    exact .loadEntity id l

/-- **After a commit each stream is as long as the version of its entity.** -/
theorem length_stream_extendAll (hv : s.Valid es) (hes : ∀ e ∈ es, e.Counted)
    (hnd : (es.map Entity.id).Nodup) {e : Entity} (he : e ∈ es) :
    ((s.extendAll es).stream e.id).length = e.version := by
  have hle := (hes e he).committed_le
  rw [stream_extendAll, batchEvents_of_nodup hnd he, List.length_append, hv e he,
    (hes e he).version_eq, Entity.uncommitted, List.length_drop]
  omega

end EventStore

/-! ## Loads -/

variable {σ : Type}

/-- **What is asked of an aggregate and its snapshots**: a replayed event, and a
restored snapshot, change nothing of the entity but its id. -/
structure Snapshottable.KeepsCounts (B : Snapshottable σ) (A : Aggregate σ) : Prop where
  replay : ∀ now x a b, a.entity.replaying = true → A.replayEvent now x a = .ok b →
    ∃ id, b.entity = a.entity.setId id
  restore : ∀ a snapshot, ∃ id, (B.restoreFromSnapshot a snapshot).entity = a.entity.setId id

/-- A replayed event method changes nothing of the entity but its id. -/
theorem Definition.exists_setId_of_replayEvent (D : Definition σ) (now : SystemTime) (x : EventRecord)
    (a b : Agg σ) (hr : a.entity.replaying = true) (h : D.aggregate.replayEvent now x a = .ok b) :
    ∃ id, b.entity = a.entity.setId id := by
  change EventMethod.replayEvent D.methods now x a = .ok b at h
  unfold EventMethod.replayEvent at h
  cases hfind : D.methods.find? (fun m => m.name = x.eventName) with
  | none => rw [hfind] at h; cases h
  | some m =>
    rw [hfind] at h
    dsimp only at h
    cases hdecode : m.params.decode x with
    | error msg => rw [hdecode] at h; cases h
    | ok args =>
      rw [hdecode] at h
      dsimp only at h
      rw [m.call_of_replaying hr] at h
      cases hg : m.guard a.fields a.entity args with
      | false =>
        rw [hg] at h
        obtain rfl : a = b := Except.ok.inj h
        exact ⟨a.entity.id, rfl⟩
      | true =>
        rw [hg, if_pos rfl] at h
        cases hbody : m.body now a.fields a.entity args with
        | none => rw [hbody] at h; cases h
        | some r =>
          rw [hbody] at h
          obtain rfl : EventMethod.assign a.entity r = b := Except.ok.inj h
          rcases r with ⟨f, _ | id⟩
          · exact ⟨a.entity.id, rfl⟩
          · exact ⟨id, rfl⟩

namespace Expanded

variable {T : FieldTypes} (X : Expanded T)

/-- The assignments of a restore are to the own fields. -/
theorem entity_of_assign {s : Snapshot T} {ns : List String} {a b : Agg (String → T.Value)}
    (h : ns.foldlM (assign s) a = some b) : b.entity = a.entity := by
  induction ns generalizing a with
  | nil =>
    obtain rfl : a = b := Option.some.inj h
    rfl
  | cons n ns ih =>
    rw [List.foldlM_cons] at h
    obtain ⟨a', ha', hns⟩ := Option.bind_eq_some_iff.mp h
    obtain ⟨value, -, hset⟩ := Option.bind_eq_some_iff.mp ha'
    obtain rfl := Option.some.inj hset
    exact (ih hns).trans rfl

/-- **A derived restore changes nothing of the entity but its id.** -/
theorem exists_setId_of_restore (codec : SnapshotCodec (Snapshot T)) (a : Agg (String → T.Value))
    (s : Snapshot T) :
    ∃ id, ((X.snapshottable codec).restoreFromSnapshot a s).entity = a.entity.setId id := by
  show ∃ id, ((X.restoreFromSnapshot a s).getD a).entity = a.entity.setId id
  cases h : X.restoreFromSnapshot a s with
  | none => exact ⟨a.entity.id, rfl⟩
  | some b =>
    unfold restoreFromSnapshot at h
    obtain ⟨idValue, -, h⟩ := Option.bind_eq_some_iff.mp h
    obtain ⟨ty, -, h⟩ := Option.bind_eq_some_iff.mp h
    obtain ⟨into, -, h⟩ := Option.bind_eq_some_iff.mp h
    obtain ⟨a', ha', h⟩ := Option.bind_eq_some_iff.mp h
    obtain rfl := Option.some.inj h
    exact ⟨into idValue, congrArg (fun e => Entity.setId e (into idValue)) (entity_of_assign ha')⟩

/-- **What the macros make is as asked**, of any aggregate and any snapshot. -/
theorem keepsCounts (D : Definition (String → T.Value)) (codec : SnapshotCodec (Snapshot T)) :
    (X.snapshottable codec).KeepsCounts D.aggregate :=
  ⟨D.exists_setId_of_replayEvent, X.exists_setId_of_restore codec⟩

end Expanded

namespace Aggregate

variable {A : Aggregate σ} {B : Snapshottable σ}

/-- A replay changes nothing of the entity but its id. -/
theorem exists_setId_of_replayAll (hB : B.KeepsCounts A) {now : SystemTime} {xs : List EventRecord}
    {a b : Agg σ} (hr : a.entity.replaying = true) (h : A.replayAll now xs a = .ok b) :
    ∃ id, b.entity = a.entity.setId id := by
  induction xs generalizing a with
  | nil =>
    obtain rfl : a = b := Except.ok.inj h
    exact ⟨a.entity.id, rfl⟩
  | cons x xs ih =>
    rw [A.replayAll_cons] at h
    cases hx : A.replayEvent now x a with
    | error f => rw [hx] at h; cases h
    | ok a' =>
      rw [hx] at h
      obtain ⟨id, hid⟩ := hB.replay now x a a' hr hx
      obtain ⟨id', hid'⟩ := ih (a := a') (by rw [hid]; exact hr) h
      exact ⟨id', by rw [hid', hid]; rfl⟩

theorem exists_setId_of_replay (hB : B.KeepsCounts A) {now : SystemTime} {xs : List EventRecord}
    {a b : Agg σ} (h : A.replay now xs a = .ok b) :
    ∃ id, b.entity = (a.entity.setReplaying false).setId id := by
  unfold replay at h
  cases hall : A.replayAll now xs ⟨a.fields, a.entity.setReplaying true⟩ with
  | error f => rcases f with f | _ | _ <;> (rw [hall] at h; cases h)
  | ok c =>
    rw [hall] at h
    obtain rfl : Agg.mk c.fields (c.entity.setReplaying false) = b := Except.ok.inj h
    obtain ⟨id, hid⟩ := exists_setId_of_replayAll hB rfl hall
    exact ⟨id, congrArg (fun e => Entity.setReplaying e false) hid⟩

end Aggregate

/-- **The version a load notes**: that of the snapshot it used. -/
def Entity.notedVersion (e : Entity) : Option SnapshotRecord → ℕ
  | some snapshot => if snapshot.version ≤ e.version then snapshot.version else e.snapshotVersion
  | none => e.snapshotVersion

namespace SnapshotAggregateRepository

variable {A : Aggregate σ} {B : Snapshottable σ} {now : SystemTime} {e : Entity} {b : Agg σ}

/-- What a full replay makes of an entity is the entity, its id aside. -/
theorem exists_setId_of_full (hB : B.KeepsCounts A) (h : A.hydrate now e = .ok b) :
    ∃ id, b.entity = (e.setReplaying false).setId id := by
  have hcut : A.hydrate now e
      = (A.upcast e.events).bind (fun xs => A.replay now xs ⟨A.default, e⟩) := rfl
  rw [hcut] at h
  cases hup : A.upcast e.events with
  | error f => rw [hup] at h; cases h
  | ok xs =>
    rw [hup] at h
    exact Aggregate.exists_setId_of_replay (a := ⟨A.default, e⟩) hB h

/-- What a snapshot and the events after it make of it is the same, with the
version of the snapshot noted. -/
theorem exists_setId_of_snapshot (hB : B.KeepsCounts A) {r : SnapshotRecord}
    (h : A.hydrateFromSnapshot B now e r = .ok b) :
    ∃ id, b.entity = ((e.setSnapshotVersion r.version).setReplaying false).setId id := by
  unfold Aggregate.hydrateFromSnapshot at h
  cases hdecode : B.codec.deserialize r.data with
  | error msg => rw [hdecode] at h; cases h
  | ok snap =>
    rw [hdecode] at h
    let a := B.restoreFromSnapshot ⟨A.default, e.setSnapshotVersion r.version⟩ snap
    obtain ⟨id, hid⟩ := hB.restore ⟨A.default, e.setSnapshotVersion r.version⟩ snap
    have hcut : (A.upcast (a.entity.events.filter (fun x => decide (r.version < x.sequence)))).bind
        (fun xs => A.replay now xs a) = .ok b := h
    cases hup : A.upcast (a.entity.events.filter (fun x => decide (r.version < x.sequence))) with
    | error f => rw [hup] at hcut; cases hcut
    | ok xs =>
      rw [hup] at hcut
      obtain ⟨id', hid'⟩ := Aggregate.exists_setId_of_replay hB hcut
      exact ⟨id', by rw [hid', hid]; rfl⟩

/-- **What is loaded** is the entity read, its id aside, with the version of the
snapshot it was made of. -/
theorem exists_setId_of_hydrate (hB : B.KeepsCounts A) {snapshot : Option SnapshotRecord}
    (h : hydrateWithOptionalSnapshot A B now e snapshot = .ok b) :
    ∃ id, b.entity
      = ((e.setSnapshotVersion (e.notedVersion snapshot)).setReplaying false).setId id := by
  cases snapshot with
  | none => exact exists_setId_of_full hB h
  | some r =>
    unfold hydrateWithOptionalSnapshot at h
    unfold Entity.notedVersion
    by_cases hv : r.version ≤ e.version
    · simp only [if_pos hv] at h ⊢
      exact exists_setId_of_snapshot hB h
    · simp only [if_neg hv] at h ⊢
      exact exists_setId_of_full hB h

theorem counted_of_hydrate (hB : B.KeepsCounts A) (he : e.Counted) {snapshot : Option SnapshotRecord}
    (h : hydrateWithOptionalSnapshot A B now e snapshot = .ok b) : b.entity.Counted := by
  obtain ⟨id, hid⟩ := exists_setId_of_hydrate hB h
  rw [hid]
  exact ⟨he.committed_le, he.version_eq⟩

end SnapshotAggregateRepository
