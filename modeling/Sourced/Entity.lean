import Sourced.EventRecord

/-!
# Entities

The event-sourced entity (`entity/entity.rs`): an id, the list of its events,
and the counters a repository reads – `version`, the number of events, and
`committed_version`, how many of them were in the store when the entity was
loaded or last committed.

An entity never sees the store it came from, so the only thing that ties it
to a stored stream is that its committed events are the beginning of that
stream. `Entity.Tracks` is this relation. It survives everything that happens
to the stream by appending, and everything `digest` does to the entity, and
where the lengths agree it says that the stream *is* the committed part
(`Entity.Tracks.append_uncommitted`) – which is why a length comparison is
enough of a version check.
-/

/-- **`Entity`.** The timestamp of the source is written and never read, and
is left out. -/
structure Entity where
  id : String
  version : ℕ
  events : List EventRecord
  replaying : Bool
  snapshotVersion : ℕ
  committedVersion : ℕ
  metadata : Metadata
deriving DecidableEq

namespace Entity

/-- `Entity::new`, which is `Entity::default`. -/
def new : Entity := ⟨"", 0, [], false, 0, 0, ∅⟩

/-- `Entity::set_id`. -/
def setId (e : Entity) (id : String) : Entity := { e with id := id }

/-- `Entity::with_id`. -/
def withId (id : String) : Entity := new.setId id

/-- `Entity::set_snapshot_version`. -/
def setSnapshotVersion (e : Entity) (v : ℕ) : Entity := { e with snapshotVersion := v }

/-- `Entity::set_replaying`. -/
def setReplaying (e : Entity) (b : Bool) : Entity := { e with replaying := b }

/-- `Entity::set_metadata`. -/
def setMetadata (e : Entity) (m : Metadata) : Entity := { e with metadata := m }

/-- `Entity::set_meta`; `set_correlation_id` and `set_causation_id` are this
at their own keys. -/
def setMeta (e : Entity) (key value : String) : Entity :=
  { e with metadata := e.metadata.insert key value }

/-- The events after the committed ones. -/
def uncommitted (e : Entity) : List EventRecord := e.events.drop e.committedVersion

/-- `Entity::new_events`, the slice of the events from `committed_version`
on; `none` is the panic of a slice that starts past the end. -/
def newEvents (e : Entity) : Option (List EventRecord) :=
  if e.committedVersion ≤ e.events.length then some e.uncommitted else none

/-- `Entity::mark_committed`. -/
def markCommitted (e : Entity) : Entity := { e with committedVersion := e.version }

/-- `digest_v` at an event version, of which `digest` is the case of version
1: record an event, unless the entity is replaying. -/
def digestAt {T : Type} (e : Entity) (now : SystemTime) (name : String) (version : ℕ)
    (c : Bitcode T) (payload : T) : Entity :=
  if e.replaying then e
  else
    let record := EventRecord.newVersioned name (c.serialize payload)
      (e.events.length + 1) version now
    -- the entity's metadata is attached only where there is some
    let record := if e.metadata = ∅ then record else { record with metadata := e.metadata }
    { e with
      events := e.events ++ [record]
      version := (e.events ++ [record]).length }

/-- `Entity::digest`. -/
def digest {T : Type} (e : Entity) (now : SystemTime) (name : String) (c : Bitcode T)
    (payload : T) : Entity :=
  e.digestAt now name 1 c payload

/-- `Entity::digest_v`. -/
def digestV {T : Type} (e : Entity) (now : SystemTime) (name : String) (version : ℕ)
    (c : Bitcode T) (payload : T) : Entity :=
  e.digestAt now name version c payload

/-- `Entity::digest_empty`: the payload is the unit value. -/
def digestEmpty (e : Entity) (now : SystemTime) (name : String) (c : Bitcode Unit) : Entity :=
  e.digest now name c ()

/-- `Entity::load_from_history`. -/
def loadFromHistory (e : Entity) (history : List EventRecord) : Entity :=
  { e with
    events := history
    version := history.length
    committedVersion := history.length }

/-- `Entity::rehydrate`, the closure being passed its state along: the flag is set
while the events are visited, and taken back on every way out. -/
def rehydrate {τ ε : Type} (e : Entity) (apply : τ → EventRecord → Except ε τ) (t : τ) :
    Except ε τ × Entity :=
  ((e.setReplaying true).events.foldlM apply t, e.setReplaying false)

/-- The event of `Entity::set_snapshot`. -/
def snapshotRecord {T : Type} (now : SystemTime) (c : Bitcode T) (data : T) : EventRecord :=
  EventRecord.new "Snapshot" (c.serialize data) 1 now

/-- `Entity::set_snapshot`: the events are replaced by a single one. -/
def setSnapshot {T : Type} (e : Entity) (now : SystemTime) (c : Bitcode T) (data : T) : Entity :=
  { e with events := [snapshotRecord now c data], version := 1 }

/-! ## Fields after each operation -/

@[simp] theorem id_withId (id : String) : (withId id).id = id := rfl
@[simp] theorem events_withId (id : String) : (withId id).events = [] := rfl
@[simp] theorem version_withId (id : String) : (withId id).version = 0 := rfl
@[simp] theorem committedVersion_withId (id : String) : (withId id).committedVersion = 0 := rfl
@[simp] theorem uncommitted_withId (id : String) : (withId id).uncommitted = [] := rfl

@[simp] theorem id_markCommitted (e : Entity) : e.markCommitted.id = e.id := rfl
@[simp] theorem events_markCommitted (e : Entity) : e.markCommitted.events = e.events := rfl
@[simp] theorem version_markCommitted (e : Entity) : e.markCommitted.version = e.version := rfl
@[simp] theorem committedVersion_markCommitted (e : Entity) :
    e.markCommitted.committedVersion = e.version := rfl

theorem markCommitted_eq_self {e : Entity} (h : e.version = e.committedVersion) :
    e.markCommitted = e :=
  congrArg (fun v => { e with committedVersion := v }) h

@[simp] theorem id_loadFromHistory (e : Entity) (h : List EventRecord) :
    (e.loadFromHistory h).id = e.id := rfl
@[simp] theorem events_loadFromHistory (e : Entity) (h : List EventRecord) :
    (e.loadFromHistory h).events = h := rfl
@[simp] theorem version_loadFromHistory (e : Entity) (h : List EventRecord) :
    (e.loadFromHistory h).version = h.length := rfl
@[simp] theorem committedVersion_loadFromHistory (e : Entity) (h : List EventRecord) :
    (e.loadFromHistory h).committedVersion = h.length := rfl

theorem digestAt_of_replaying {T : Type} {e : Entity} (h : e.replaying = true)
    (now : SystemTime) (name : String) (version : ℕ) (c : Bitcode T) (payload : T) :
    e.digestAt now name version c payload = e :=
  if_pos h

/-- **The record `digest` appends**: the next number, the name and version
given, the encoded payload, and the entity's metadata. -/
def record {T : Type} (e : Entity) (now : SystemTime) (name : String) (version : ℕ)
    (c : Bitcode T) (payload : T) : EventRecord :=
  ⟨name, c.serialize payload, version, e.events.length + 1, now, e.metadata⟩

/-- What `digest` does outside a replay: one record is appended, and nothing
else changes but the version. -/
theorem digestAt_eq {T : Type} {e : Entity} (h : e.replaying = false) (now : SystemTime)
    (name : String) (version : ℕ) (c : Bitcode T) (payload : T) :
    e.digestAt now name version c payload
      = { e with
          events := e.events ++ [e.record now name version c payload]
          version := e.events.length + 1 } := by
  unfold digestAt record EventRecord.newVersioned
  by_cases hm : e.metadata = ∅ <;> simp [h, hm]

@[simp] theorem id_digestAt {T : Type} (e : Entity) (now : SystemTime) (name : String)
    (version : ℕ) (c : Bitcode T) (payload : T) :
    (e.digestAt now name version c payload).id = e.id := by
  unfold digestAt
  split <;> rfl

@[simp] theorem committedVersion_digestAt {T : Type} (e : Entity) (now : SystemTime)
    (name : String) (version : ℕ) (c : Bitcode T) (payload : T) :
    (e.digestAt now name version c payload).committedVersion = e.committedVersion := by
  unfold digestAt
  split <;> rfl

/-- **What a client does to an entity between loading and committing it**: it
records events, sets metadata, and – as long as the entity has committed no
event – sets the id. -/
inductive Grows (e : Entity) : Entity → Prop where
  | refl : Grows e e
  | digest {e' : Entity} (h : Grows e e') {T : Type} (now : SystemTime) (name : String)
      (version : ℕ) (c : Bitcode T) (payload : T) :
      Grows e (e'.digestAt now name version c payload)
  | setMetadata {e' : Entity} (h : Grows e e') (m : Metadata) : Grows e (e'.setMetadata m)
  | setId {e' : Entity} (h : Grows e e') (hc : e'.committedVersion = 0) (id : String) :
      Grows e (e'.setId id)

theorem Grows.committedVersion_eq {e e' : Entity} (h : e.Grows e') :
    e'.committedVersion = e.committedVersion := by
  induction h with
  | refl => rfl
  | digest _ now name version c payload ih =>
    exact (committedVersion_digestAt _ now name version c payload).trans ih
  | setMetadata _ _ ih => exact ih
  | setId _ _ _ ih => exact ih

/-! ## An entity and the stream it was loaded from -/

/-- **The entity's committed events begin the stream**, and its counters are
what its events say. -/
structure Tracks (e : Entity) (stream : List EventRecord) : Prop where
  committed_le : e.committedVersion ≤ e.events.length
  version_eq : e.version = e.events.length
  numbered : Numbered EventRecord.sequence e.events
  initial : e.events.take e.committedVersion <+: stream

namespace Tracks

variable {e : Entity} {s t : List EventRecord}

theorem mono (h : e.Tracks s) (hst : s <+: t) : e.Tracks t :=
  ⟨h.committed_le, h.version_eq, h.numbered, h.initial.trans hst⟩

theorem newEvents_eq (h : e.Tracks s) : e.newEvents = some e.uncommitted :=
  if_pos h.committed_le

theorem withId (id : String) (s : List EventRecord) : (Entity.withId id).Tracks s :=
  ⟨le_rfl, rfl, Numbered.nil, List.nil_prefix⟩

theorem load (h : Numbered EventRecord.sequence s) (e : Entity) :
    (e.loadFromHistory s).Tracks s :=
  ⟨le_rfl, rfl, h, List.take_prefix _ _⟩

/-- **Recording an event keeps the stream tracked.** -/
theorem digestAt {T : Type} (h : e.Tracks s) (now : SystemTime) (name : String)
    (version : ℕ) (c : Bitcode T) (payload : T) :
    (e.digestAt now name version c payload).Tracks s := by
  cases hr : e.replaying with
  | true =>
    rw [digestAt_of_replaying hr]
    exact h
  | false =>
    rw [digestAt_eq hr]
    refine ⟨?_, ?_, h.numbered.concat rfl, ?_⟩
    · simpa using Nat.le_succ_of_le h.committed_le
    · simp
    · rw [List.take_append_of_le_length h.committed_le]
      exact h.initial

theorem setId (h : e.Tracks s) (hc : e.committedVersion = 0) (id : String)
    (t : List EventRecord) : (e.setId id).Tracks t := by
  refine ⟨h.committed_le, h.version_eq, h.numbered, ?_⟩
  show e.events.take e.committedVersion <+: t
  rw [hc, List.take_zero]
  exact List.nil_prefix

theorem setMetadata (h : e.Tracks s) (m : Metadata) : (e.setMetadata m).Tracks s :=
  ⟨h.committed_le, h.version_eq, h.numbered, h.initial⟩

/-- **What a client does to an entity keeps its streams tracked.** -/
theorem grows {e e' : Entity} {stream : String → List EventRecord} (h : e.Tracks (stream e.id))
    (hg : e.Grows e') : e'.Tracks (stream e'.id) := by
  induction hg with
  | refl => exact h
  | digest _ now name version c payload ih =>
    rw [id_digestAt]
    exact ih.digestAt now name version c payload
  | setMetadata _ m ih => exact ih.setMetadata m
  | setId _ hc id ih => exact ih.setId hc id _

/-- **Where the lengths agree, the stream is the committed part**: appending
the uncommitted events gives the entity's events. -/
theorem append_uncommitted (h : e.Tracks s) (hlen : s.length = e.committedVersion) :
    s ++ e.uncommitted = e.events := by
  have hs : e.events.take e.committedVersion = s := by
    refine h.initial.eq_of_length ?_
    rw [List.length_take, hlen]
    exact min_eq_left h.committed_le
  conv_rhs => rw [← List.take_append_drop e.committedVersion e.events, hs]
  rfl

theorem markCommitted (h : e.Tracks s) : e.markCommitted.Tracks e.events := by
  refine ⟨?_, h.version_eq, h.numbered, List.take_prefix _ _⟩
  show e.version ≤ e.events.length
  exact h.version_eq.le

end Tracks

end Entity
