import Sourced.EventStore
import Sourced.RecordJson

/-!
# Entities as JSON

The serde attributes of `Entity` (`entity/entity.rs`). The id, the version, the events,
the snapshot version and the time of the last change are written. Whether the entity is
replaying, how many of its events are committed and the metadata for the next ones are
skipped, and read as their defaults. So what is read is the entity without these
(`Entity.reloaded`): none of its events counts as committed.

This decides what a repository does with it. A commit of an entity that was read sends
all its events, and is accepted where nothing is stored under its id and nowhere else.
It carries a stream from one store to another (`EventStore.json_copies`), and never
back into the store it came from.

An `Entity` here has no timestamp, which nothing else reads. It is beside the entity
where the two are written.
-/

/-- `Serialize` and `Deserialize` for `EventRecord`. -/
def EventRecord.serde (B : Base64) (order : Metadata → List (String × String)) : JsonCodec EventRecord :=
  ⟨EventRecord.toJson B order, EventRecord.fromJson B⟩

theorem EventRecord.Writable.readsBack {B : Base64} {order : Metadata → List (String × String)}
    {r : EventRecord} (hB : B.Lawful) (horder : StringMap.Enumerates order) (hr : r.Writable) :
    JsonValue.ReadsBack (EventRecord.serde B order).write (EventRecord.serde B order).read r :=
  JsonValue.RoundTrips.readsBack (hr.fromJson_toJson hB horder)

namespace Entity

/-- The fields of an `Entity` that serde sees. -/
inductive Field where
  | id
  | version
  | events
  | snapshotVersion
  | timestamp
deriving DecidableEq

/-- They in their order. -/
def fields : StructDef Field where
  fields := [.id, .version, .events, .snapshotVersion, .timestamp]
  name
    | .id => "id"
    | .version => "version"
    | .events => "events"
    | .snapshotVersion => "snapshot_version"
    | .timestamp => "timestamp"
  nodup := by decide
  mem_fields i := by cases i <;> decide
  name_injective i i' h := by cases i <;> cases i' <;> first | rfl | simp at h

/-- Their types. -/
abbrev Field.Value : Field → Type
  | .id => String
  | .version => ℕ
  | .events => List EventRecord
  | .snapshotVersion => ℕ
  | .timestamp => SystemTime

/-- The fields of an entity and its timestamp. -/
def toFields (x : Entity × SystemTime) : ∀ i : Field, i.Value
  | .id => x.1.id
  | .version => x.1.version
  | .events => x.1.events
  | .snapshotVersion => x.1.snapshotVersion
  | .timestamp => x.2

/-- The entity of some fields: those that serde skips have their defaults. -/
def fromFields (x : ∀ i : Field, i.Value) : Entity × SystemTime :=
  (⟨x .id, x .version, x .events, false, x .snapshotVersion, 0, ∅⟩, x .timestamp)

/-- **What is left of an entity** that was written and read. -/
def reloaded (e : Entity) : Entity := { e with replaying := false, committedVersion := 0, metadata := ∅ }

variable (B : Base64) (order : Metadata → List (String × String))

/-- **`Serialize` for `Entity`.** -/
def writer : StructWriter fields Field.Value where
  write
    | .id => JsonCodec.string.write
    | .version => (JsonCodec.unsigned 64).write
    | .events => (EventRecord.serde B order).list.write
    | .snapshotVersion => (JsonCodec.unsigned 64).write
    | .timestamp => SystemTime.serde.write
  skip _ _ := false

/-- **`Deserialize` for `Entity`**: none of the fields may be absent, and members that it
does not know are ignored. The skipped fields are among these. -/
def reader : StructReader fields Field.Value where
  read
    | .id => JsonCodec.string.read
    | .version => (JsonCodec.unsigned 64).read
    | .events => (EventRecord.serde B order).list.read
    | .snapshotVersion => (JsonCodec.unsigned 64).read
    | .timestamp => SystemTime.serde.read
  default _ := none
  denyUnknown := false

/-- `Serialize` and `Deserialize` for an `Entity` with its timestamp. -/
def serde : JsonCodec (Entity × SystemTime) where
  write x := (writer B order).toJson (toFields x)
  read j := ((reader B order).fromJson j).map fromFields

/-- **An entity that can be written**: its numbers are of 64 bits, its events can be
written, and its time is not before the epoch. -/
structure Writable (x : Entity × SystemTime) : Prop where
  version_lt : x.1.version < 2 ^ 64
  events : ∀ r ∈ x.1.events, r.Writable
  snapshotVersion_lt : x.1.snapshotVersion < 2 ^ 64
  not_before_epoch : 0 ≤ x.2.secs

variable {B order} {x : Entity × SystemTime}

@[simp] theorem fromFields_toFields (x : Entity × SystemTime) :
    fromFields (toFields x) = (x.1.reloaded, x.2) := rfl

@[simp] theorem id_reloaded (e : Entity) : e.reloaded.id = e.id := rfl
@[simp] theorem events_reloaded (e : Entity) : e.reloaded.events = e.events := rfl
@[simp] theorem committedVersion_reloaded (e : Entity) : e.reloaded.committedVersion = 0 := rfl
@[simp] theorem uncommitted_reloaded (e : Entity) : e.reloaded.uncommitted = e.events := rfl
@[simp] theorem newEvents_reloaded (e : Entity) : e.reloaded.newEvents = some e.events := rfl
@[simp] theorem reloaded_reloaded (e : Entity) : e.reloaded.reloaded = e.reloaded := rfl

@[simp] theorem write_reloaded (x : Entity × SystemTime) :
    (serde B order).write (x.1.reloaded, x.2) = (serde B order).write x := rfl

/-- The values of the fields read back. -/
theorem Writable.readsBack (hB : B.Lawful) (horder : StringMap.Enumerates order) (hx : Writable x)
    (i : Field) :
    JsonValue.ReadsBack ((writer B order).write i) ((reader B order).read i) (toFields x i) := by
  cases i with
  | id => exact ⟨.str x.1.id, rfl, rfl⟩
  | version => exact (JsonCodec.roundTrips_unsigned (d := 0) le_rfl hx.version_lt).readsBack
  | events => exact JsonCodec.readsBack_list (fun r hr => (hx.events r hr).readsBack hB horder)
  | snapshotVersion =>
    exact (JsonCodec.roundTrips_unsigned (d := 0) le_rfl hx.snapshotVersion_lt).readsBack
  | timestamp => exact (SystemTime.roundTrips_serde hx.not_before_epoch 0).readsBack

/-- **An entity is read without what is skipped**, whatever the order of its members and
whichever others are among them. -/
theorem Writable.read_write (hB : B.Lawful) (horder : StringMap.Enumerates order) (hx : Writable x) :
    ∃ ms, (serde B order).write x = .ok (.obj ms)
      ∧ (serde B order).read (.obj ms) = .ok (x.1.reloaded, x.2)
      ∧ ∀ ms' : List (String × JsonValue), (ms'.filter (fun m => m.1 ∈ fields.names)).Perm ms →
        (serde B order).read (.obj ms') = .ok (x.1.reloaded, x.2) := by
  obtain ⟨ms, hms, hread, hothers⟩ := StructDef.readsBack (R := reader B order) rfl
    (fun _ _ h => by cases h) (hx.readsBack hB horder)
  have hfrom : ∀ ms', (reader B order).fromJson (.obj ms') = .ok (toFields x) →
      (serde B order).read (.obj ms') = .ok (x.1.reloaded, x.2) := fun ms' h => by
    show ((reader B order).fromJson (.obj ms')).map fromFields = _
    rw [h]
    rfl
  exact ⟨ms, hms, hfrom ms hread, fun ms' hperm => hfrom ms' (hothers ms' hperm)⟩

/-- **An entity that was read** has nothing in what is skipped, and can be written again. -/
theorem reloaded_of_read {j : JsonValue} (h : (serde B order).read j = .ok x) :
    x.1.reloaded = x.1 ∧ Writable x := by
  obtain ⟨y, hy, rfl⟩ : ∃ y, (reader B order).fromJson j = .ok y ∧ fromFields y = x := by
    cases hy : (reader B order).fromJson j with
    | error e =>
      simp [serde, hy, Except.map] at h
    | ok y =>
      simp only [serde, hy, Except.map, Except.ok.injEq] at h
      exact ⟨y, rfl, h⟩
  have hread : ∀ i, ∃ j', (reader B order).read i j' = .ok (y i) := fun i => by
    simpa [reader] using StructReader.read_or_default hy i
  refine ⟨rfl, ?_, fun r hr => ?_, ?_, ?_⟩
  · obtain ⟨j', hj'⟩ := hread .version
    exact JsonCodec.lt_of_unsigned hj'
  · obtain ⟨j', hj'⟩ := hread .events
    obtain ⟨jr, hjr⟩ := JsonCodec.exists_read_of_list hj' r hr
    exact EventRecord.writable_of_fromJson hjr
  · obtain ⟨j', hj'⟩ := hread .snapshotVersion
    exact JsonCodec.lt_of_unsigned hj'
  · obtain ⟨j', hj'⟩ := hread .timestamp
    exact SystemTime.not_before_of_serde hj'

end Entity

/-! ## Committing what was read -/

namespace EventStore

open Entity (reloaded markCommitted)

variable {s t : EventStore} {ord : List String}

/-- **The version check** of entities that were read passes where nothing is stored under
their ids. -/
theorem valid_map_reloaded {es : List Entity} :
    t.Valid (es.map reloaded) ↔ ∀ e ∈ es, t.stream e.id = [] := by
  simp [Valid]

/-- **A commit of entities that were read** appends all their events, and counts them as
committed. -/
theorem commit_map_reloaded {es : List Entity} (ht : t.poisoned = false)
    (h : ∀ e ∈ es, t.stream e.id = []) :
    t.commit (es.map reloaded)
      = (.ok (), (es.map reloaded).map markCommitted, t.extendAll (es.map reloaded)) :=
  commit_of_valid ht (valid_map_reloaded.mpr h) (by simp)

/-- **It is refused** where something is stored under one of the ids: no event of them counts
as committed. -/
theorem commit_map_reloaded_of_ne {es : List Entity} (ht : t.poisoned = false)
    (h : ¬ ∀ e ∈ es, t.stream e.id = []) :
    ∃ e ∈ es, t.stream e.id ≠ [] ∧ t.commit (es.map reloaded)
      = (.error (.err (.concurrentWrite e.id 0 (t.stream e.id).length)), es.map reloaded, t) := by
  cases hv : t.validate (es.map reloaded) with
  | ok _ => exact absurd (valid_map_reloaded.mp (validate_eq_ok.mp hv)) h
  | error f =>
    obtain ⟨e', he', hne, rfl⟩ := validate_eq_error hv
    obtain ⟨e, he, rfl⟩ := List.mem_map.mp he'
    refine ⟨e, he, by simpa using hne, ?_⟩
    simp [commit, ht, hv]

/-- An order of iteration has an entity for each id. -/
theorem entities_eq_map (hord : ∀ id ∈ ord, (s.lookup id).isSome) :
    s.entities ord = ord.map (fun id => loadEntity id (s.stream id)) := by
  induction ord with
  | nil => rfl
  | cons id ord ih =>
    obtain ⟨l, hl⟩ := Option.isSome_iff_exists.mp (hord id List.mem_cons_self)
    have ih' := ih (fun id' hid' => hord id' (List.mem_cons_of_mem id hid'))
    unfold entities at ih' ⊢
    rw [List.filterMap_cons_some (by rw [hl]; rfl), ih', List.map_cons, stream, hl]
    rfl

theorem markCommitted_reloaded_loadEntity (id : String) (l : List EventRecord) :
    (loadEntity id l).reloaded.markCommitted = loadEntity id l := rfl

/-- **The streams after a commit of the entities of a store**: those of the store, and the
others as they were. -/
theorem lookup_extendAll_entities (hord : s.Enumerates ord) (h : ∀ id ∈ ord, t.stream id = [])
    (id : String) :
    (t.extendAll ((s.entities ord).map reloaded)).lookup id = (s.lookup id).or (t.lookup id) := by
  have hes := entities_eq_map (fun id hid => (hord.2 id).mp hid)
  have hids : ((s.entities ord).map reloaded).map Entity.id = ord := by
    simp [hes, Function.comp_def]
  by_cases hid : id ∈ ord
  · obtain ⟨l, hl⟩ := Option.isSome_iff_exists.mp ((hord.2 id).mp hid)
    have hmem : (loadEntity id (s.stream id)).reloaded ∈ (s.entities ord).map reloaded := by
      rw [hes]
      exact List.mem_map_of_mem (List.mem_map_of_mem hid)
    have hbatch := batchEvents_of_nodup (hids.symm ▸ hord.1) hmem
    have hstream := lookup_eq_some hl
    rw [lookup_extendAll, appended, if_pos ⟨_, hmem, rfl⟩, hl]
    show some (t.stream id ++ batchEvents _ id) = _
    rw [h id hid]
    simpa [hstream] using hbatch
  · have hnone : s.lookup id = none := by
      simpa using mt (hord.2 id).mpr hid
    rw [lookup_extendAll_of_notMem t (hids.symm ▸ hid), hnone, Option.none_or]

variable {B : Base64} {order : Metadata → List (String × String)}

/-- **A store is copied through JSON**: its entities, found, written as an array, read and
committed in another store as one batch, carry all streams over and change no others.
They are committed as they were found. If anything is stored under one of the ids, as
it is in the store that they come from, the commit is refused and nothing is copied. -/
theorem json_copies (hB : B.Lawful) (horder : StringMap.Enumerates order) (hord : s.Enumerates ord)
    (ht : t.poisoned = false) {copies : List (Entity × SystemTime)}
    (hfind : s.find ord (fun _ => true) = .ok (copies.map Prod.fst))
    (hw : ∀ x ∈ copies, Entity.Writable x) :
    ∃ j copied, (Entity.serde B order).list.write copies = .ok j
      ∧ (Entity.serde B order).list.read j = .ok copied
      ∧ ((∀ id ∈ ord, t.stream id = []) → ∃ t',
          t.commit (copied.map Prod.fst) = (.ok (), copies.map Prod.fst, t') ∧ t'.poisoned = false
          ∧ ∀ id, t'.lookup id = (s.lookup id).or (t.lookup id))
      ∧ ((∃ id ∈ ord, t.stream id ≠ []) → ∃ id ∈ ord, t.stream id ≠ []
          ∧ t.commit (copied.map Prod.fst)
            = (.error (.err (.concurrentWrite id 0 (t.stream id).length)), copied.map Prod.fst, t)) := by
  have hsome : ∀ id ∈ ord, (s.lookup id).isSome := fun id hid => (hord.2 id).mp hid
  have hes : copies.map Prod.fst = ord.map (fun id => loadEntity id (s.stream id)) := by
    rw [← entities_eq_map hsome]
    unfold find at hfind
    split at hfind
    · cases hfind
    · simpa using (Except.ok.inj hfind).symm
  have hstreams : (∀ e ∈ copies.map Prod.fst, t.stream e.id = []) ↔ ∀ id ∈ ord, t.stream id = [] := by
    simp [hes]
  obtain ⟨j, hj, hread⟩ := JsonCodec.exists_write_list (fun x hx => by
    obtain ⟨ms, hms, hread, -⟩ := (hw x hx).read_write hB horder
    exact ⟨.obj ms, hms, hread⟩)
  have hcopied : (copies.map (fun x : Entity × SystemTime => (x.1.reloaded, x.2))).map Prod.fst
      = (copies.map Prod.fst).map reloaded := by
    simp
  refine ⟨j, _, hj, hread, fun h => ?_, fun h => ?_⟩
  · refine ⟨t.extendAll ((copies.map Prod.fst).map reloaded), ?_, ?_, fun id => ?_⟩
    · rw [hcopied, commit_map_reloaded ht (hstreams.mpr h), hes]
      simp [Function.comp_def, markCommitted_reloaded_loadEntity]
    · simpa using ht
    · rw [hes, ← entities_eq_map hsome]
      exact lookup_extendAll_entities hord h id
  · have hne : ¬ ∀ e ∈ copies.map Prod.fst, t.stream e.id = [] := by
      rw [hstreams]
      simpa using h
    obtain ⟨e, he, hstream, hcommit⟩ := commit_map_reloaded_of_ne ht hne
    rw [hes] at he
    obtain ⟨id, hid, rfl⟩ := List.mem_map.mp he
    exact ⟨id, hid, hstream, hcopied ▸ hcommit⟩

end EventStore

theorem Base64.exists_lawful : ∃ B : Base64, B.Lawful ∧ B.encode [1, 2, 3] = "AQID" := by
  classical
  obtain ⟨encode, hencode, hpayload⟩ := EventRecord.exists_code ([1, 2, 3] : Bytes) "AQID"
  refine ⟨⟨encode, fun s => (Function.partialInv encode s).elim (.error "invalid symbol") .ok⟩,
    fun b => ?_, hpayload⟩
  simp [Function.partialInv_left hencode]

namespace EventStore

/-- A store with the old event. -/
def oldStore : EventStore := new.extend "order-1" [EventRecord.oldEvent]

theorem lookup_oldStore : oldStore.lookup "order-1" = some [EventRecord.oldEvent] :=
  lookup_extend_self new "order-1" _

/-- **The old event is copied** to an empty store, and not back. -/
theorem json_copies_old : ∃ (B : Base64) (order : Metadata → List (String × String)) (j : JsonValue)
    (copied : List (Entity × SystemTime)) (t' : EventStore),
    (Entity.serde B order).list.write [(loadEntity "order-1" [EventRecord.oldEvent], .unixEpoch)] = .ok j
    ∧ (Entity.serde B order).list.read j = .ok copied
    ∧ new.commit (copied.map Prod.fst) = (.ok (), [loadEntity "order-1" [EventRecord.oldEvent]], t')
    ∧ t'.lookup "order-1" = some [EventRecord.oldEvent]
    ∧ oldStore.commit (copied.map Prod.fst)
      = (.error (.err (.concurrentWrite "order-1" 0 1)), copied.map Prod.fst, oldStore) := by
  obtain ⟨B, hB, -⟩ := Base64.exists_lawful
  obtain ⟨order, horder⟩ := StringMap.exists_enumerates
  have hord : oldStore.Enumerates ["order-1"] := enumerates_extend_new _ _
  have hstream : oldStore.stream "order-1" = [EventRecord.oldEvent] := lookup_eq_some lookup_oldStore
  have hfind : oldStore.find ["order-1"] (fun _ => true)
      = .ok ([(loadEntity "order-1" [EventRecord.oldEvent], SystemTime.unixEpoch)].map Prod.fst) := by
    have hpoisoned : oldStore.poisoned = false := rfl
    simp [find, hpoisoned, entities, lookup_oldStore]
  have hw : ∀ x ∈ [(loadEntity "order-1" [EventRecord.oldEvent], SystemTime.unixEpoch)],
      Entity.Writable x := by
    intro x hx
    obtain rfl := List.mem_singleton.mp hx
    refine ⟨by decide, fun r hr => ?_, by decide, by decide⟩
    obtain rfl := List.mem_singleton.mp hr
    exact ⟨by decide, by decide, by decide⟩
  obtain ⟨j, copied, hj, hread, hfree, -⟩ := json_copies hB horder hord (t := new) rfl hfind hw
  obtain ⟨t', hcommit, -, ht'⟩ := hfree (fun id _ => by simp [new, stream, lookup])
  obtain ⟨j', copied', hj', hread', -, hback⟩ := json_copies hB horder hord (t := oldStore) rfl hfind hw
  obtain rfl : j = j' := Except.ok.inj (hj.symm.trans hj')
  obtain rfl : copied = copied' := Except.ok.inj (hread.symm.trans hread')
  obtain ⟨id, hid, -, hrefused⟩ := hback ⟨"order-1", by simp, by simp [hstream]⟩
  obtain rfl := List.mem_singleton.mp hid
  refine ⟨B, order, j, copied, t', hj, hread, hcommit, ?_, ?_⟩
  · rw [ht', lookup_oldStore, Option.some_or]
  · rw [hrefused, hstream]
    rfl

end EventStore

namespace Entity

variable {B : Base64} {order : Metadata → List (String × String)} {x : Entity × SystemTime}

/-- **JSON keeps an entity but what is skipped.** The members of an entity, in any order and
among any others, are read as the entity without what is skipped. Two entities that are
written alike differ at most in that. Whatever is read has nothing there and can be
written again. And what is read can be committed, with all its events, where nothing is
stored under its id, and nowhere else. -/
theorem json_keeps (hB : B.Lawful) (horder : StringMap.Enumerates order) (hx : Writable x) :
    (∃ ms, (serde B order).write x = .ok (.obj ms)
      ∧ (serde B order).read (.obj ms) = .ok (x.1.reloaded, x.2)
      ∧ ∀ ms' : List (String × JsonValue), (ms'.filter (fun m => m.1 ∈ fields.names)).Perm ms →
        (serde B order).read (.obj ms') = .ok (x.1.reloaded, x.2))
    ∧ (∀ (order' : Metadata → List (String × String)) (x' : Entity × SystemTime),
        StringMap.Enumerates order' → Writable x' → (serde B order').write x' = (serde B order).write x →
        x'.1.reloaded = x.1.reloaded ∧ x'.2 = x.2)
    ∧ (∀ j y, (serde B order).read j = .ok y → y.1.reloaded = y.1 ∧ Writable y)
    ∧ ∀ s : EventStore, s.poisoned = false →
      s.commit [x.1.reloaded] = if s.stream x.1.id = [] then
          (.ok (), [x.1.reloaded.markCommitted], s.extend x.1.id x.1.events)
        else (.error (.err (.concurrentWrite x.1.id 0 (s.stream x.1.id).length)), [x.1.reloaded], s) := by
  obtain ⟨ms, hms, hread, hothers⟩ := hx.read_write hB horder
  refine ⟨⟨ms, hms, hread, hothers⟩, fun order' x' horder' hx' heq => ?_,
    fun j y hy => reloaded_of_read hy, fun s hs => ?_⟩
  · obtain ⟨ms', hms', hread', -⟩ := hx'.read_write hB horder'
    obtain rfl : ms' = ms := by
      simpa using hms'.symm.trans (heq.trans hms)
    simpa [Prod.ext_iff] using hread'.symm.trans hread
  · split
    · next h =>
      have hfree : ∀ e ∈ [x.1], s.stream e.id = [] := by simpa using h
      exact EventStore.commit_map_reloaded hs hfree
    · next h =>
      have htaken : ¬ ∀ e ∈ [x.1], s.stream e.id = [] := by simpa using h
      obtain ⟨e, he, -, hcommit⟩ := EventStore.commit_map_reloaded_of_ne hs htaken
      obtain rfl := List.mem_singleton.mp he
      exact hcommit

/-- An entity that was loaded and is about to record more, for some user. -/
def loadedEntity : Entity :=
  (EventStore.loadEntity "order-1" [EventRecord.oldEvent]).setMeta "user_id" "u1"

/-- What is written of it. -/
def loadedMembers : List (String × JsonValue) :=
  [("id", .str "order-1"), ("version", .nat 1), ("events", .arr [EventRecord.oldJson]),
    ("snapshot_version", .nat 0),
    ("timestamp", .obj [("secs_since_epoch", .nat 0), ("nanos_since_epoch", .nat 0)])]

/-- **It is read** with its event, which does not count as committed even if a member says so. -/
theorem json_keeps_loaded : ∃ (B : Base64) (order : Metadata → List (String × String)),
    (serde B order).write (loadedEntity, .unixEpoch) = .ok (.obj loadedMembers)
    ∧ (serde B order).read (.obj (("committed_version", .nat 1) :: loadedMembers))
      = .ok (⟨"order-1", 1, [EventRecord.oldEvent], false, 0, 0, ∅⟩, .unixEpoch)
    ∧ loadedEntity.committedVersion = 1
    ∧ EventStore.oldStore.commit [loadedEntity.reloaded] = (.error (.err (.concurrentWrite "order-1" 0 1)),
      [loadedEntity.reloaded], EventStore.oldStore) := by
  obtain ⟨B, hB, hpayload⟩ := Base64.exists_lawful
  obtain ⟨order, horder⟩ := StringMap.exists_enumerates
  have hw : Writable (loadedEntity, .unixEpoch) := by
    refine ⟨by decide, fun r hr => ?_, by decide, by decide⟩
    obtain rfl := List.mem_singleton.mp hr
    exact ⟨by decide, by decide, by decide⟩
  obtain ⟨⟨ms, hms, -, hothers⟩, -, -, hcommit⟩ := json_keeps hB horder hw
  have hwrite : (serde B order).write (loadedEntity, .unixEpoch) = .ok (.obj loadedMembers) := by
    show Except.ok (JsonValue.obj [_, _, ("events", .arr [.obj [_, ("payload", .str (B.encode [1, 2, 3])),
      _, _]]), _, _]) = _
    rw [hpayload]
    rfl
  obtain rfl : loadedMembers = ms := by
    simpa using hwrite.symm.trans hms
  refine ⟨B, order, hwrite, hothers _ ?_, rfl, ?_⟩
  · rw [show (("committed_version", JsonValue.nat 1) :: loadedMembers).filter
      (fun m => m.1 ∈ fields.names) = loadedMembers from rfl]
  · have hstream := EventStore.lookup_eq_some EventStore.lookup_oldStore
    have h := hcommit EventStore.oldStore rfl
    rw [show loadedEntity.id = "order-1" from rfl, hstream] at h
    simpa using h

end Entity
