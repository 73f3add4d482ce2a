import Sourced.OutboxBatches
import Sourced.OutboxClaims
import Sourced.OutboxWorkerThread
import Sourced.SharedOutbox
import Sourced.CommitBuilder
import Sourced.SnapshotRepository

/-!
# What publishers are handed

A message that comes back from the store, claimed or listed or loaded, is not the object
that was committed. It is rebuilt from its events. The one event of a new message has
everything that the constructor was given, so type, payload, destination and the metadata
given to the constructor come through every claim, release and claim again.

Metadata set afterwards does not. `set_meta` and its two siblings change the field of the
message in hand and record nothing, and so the event that is handed over has the metadata
of the constructor: it is the committed message's exactly where the setters have left
nothing that the constructor was not given (`OutboxMessage.delivered_faithful_iff`). Only
the committed object itself, given to a worker, still has what was set.
-/

open OutboxMessage (Codecs Readings Story Tells Continues hasPrefix)

variable {checks : OverflowChecks} {C : Codecs}

namespace OutboxMessage

/-! ## Constructors -/

section Constructors

variable (C) {T : Type} (serialize : T → Except String Bytes)

/-- `OutboxMessage::encode`, where `bitcode::serialize` may fail. -/
def encode (now : SystemTime) (id eventType : String) (payload : T) :
    Except String (Option (Agg OutboxMessage)) :=
  (serialize payload).map (fun bytes => create C now id eventType bytes)

/-- `OutboxMessage::encode_to`. -/
def encodeTo (now : SystemTime) (id eventType destination : String) (payload : T) :
    Except String (Option (Agg OutboxMessage)) :=
  (serialize payload).map (fun bytes => createTo C now id eventType destination bytes)

/-- `OutboxMessage::encode_with_metadata`. -/
def encodeWithMetadata (now : SystemTime) (id eventType : String) (payload : T) (metadata : Metadata) :
    Except String (Option (Agg OutboxMessage)) :=
  (serialize payload).map (fun bytes => createWithMetadata C now id eventType bytes metadata)

/-- `OutboxMessage::encode_for_entity`. -/
def encodeForEntity (now : SystemTime) (id eventType : String) (payload : T) (entity : Entity) :
    Except String (Option (Agg OutboxMessage)) :=
  (serialize payload).map (fun bytes => createWithMetadata C now id eventType bytes entity.metadata)

/-- `OutboxMessage::domain_event`. -/
def domainEvent {σ : Type} (B : Snapshottable σ) (serialize : B.Snapshot → Except String Bytes)
    (now : SystemTime) (eventType : String) (aggregate : Agg σ) :
    Except String (Option (Agg OutboxMessage)) :=
  (serialize (B.createSnapshot aggregate)).map (fun bytes => createWithMetadata C now
    (aggregate.entity.id ++ ":" ++ eventType ++ ":" ++ toString aggregate.entity.version) eventType bytes
    aggregate.entity.metadata)

end Constructors

variable (C) in
/-- **A message built by a public constructor**, with the metadata that this was given. -/
inductive Built : Agg OutboxMessage → Metadata → Prop
  | create {now : SystemTime} {id eventType : String} {payload : Bytes} {a : Agg OutboxMessage}
      (h : OutboxMessage.create C now id eventType payload = some a) : Built a ∅
  | createTo {now : SystemTime} {id eventType destination : String} {payload : Bytes}
      {a : Agg OutboxMessage} (h : OutboxMessage.createTo C now id eventType destination payload = some a) :
      Built a ∅
  | encode {T : Type} {serialize : T → Except String Bytes} {now : SystemTime} {id eventType : String}
      {payload : T} {a : Agg OutboxMessage}
      (h : OutboxMessage.encode C serialize now id eventType payload = .ok (some a)) : Built a ∅
  | encodeTo {T : Type} {serialize : T → Except String Bytes} {now : SystemTime}
      {id eventType destination : String} {payload : T} {a : Agg OutboxMessage}
      (h : OutboxMessage.encodeTo C serialize now id eventType destination payload = .ok (some a)) :
      Built a ∅
  | createWithMetadata {now : SystemTime} {id eventType : String} {payload : Bytes} {metadata : Metadata}
      {a : Agg OutboxMessage}
      (h : OutboxMessage.createWithMetadata C now id eventType payload metadata = some a) : Built a metadata
  | encodeWithMetadata {T : Type} {serialize : T → Except String Bytes} {now : SystemTime}
      {id eventType : String} {payload : T} {metadata : Metadata} {a : Agg OutboxMessage}
      (h : OutboxMessage.encodeWithMetadata C serialize now id eventType payload metadata = .ok (some a)) :
      Built a metadata
  | encodeForEntity {T : Type} {serialize : T → Except String Bytes} {now : SystemTime}
      {id eventType : String} {payload : T} {entity : Entity} {a : Agg OutboxMessage}
      (h : OutboxMessage.encodeForEntity C serialize now id eventType payload entity = .ok (some a)) :
      Built a entity.metadata
  | domainEvent {σ : Type} {B : Snapshottable σ} {serialize : B.Snapshot → Except String Bytes}
      {now : SystemTime} {eventType : String} {aggregate : Agg σ} {a : Agg OutboxMessage}
      (h : OutboxMessage.domainEvent C B serialize now eventType aggregate = .ok (some a)) :
      Built a aggregate.entity.metadata

/-- **Every constructor calls `initialize`** with the metadata it was given. -/
theorem Built.construct {a : Agg OutboxMessage} {given : Metadata} (h : Built C a given) :
    ∃ now id eventType payload destination,
      OutboxMessage.construct C now id eventType payload destination given = some a := by
  -- what is serialized is a payload like any other
  have hserialized : ∀ {bytes : Except String Bytes} {f : Bytes → Option (Agg OutboxMessage)},
      bytes.map f = .ok (some a) → ∃ payload, f payload = some a := by
    intro bytes f hmap
    cases bytes with
    | error e => cases hmap
    | ok payload => exact ⟨payload, Except.ok.inj hmap⟩
  cases h with
  | create h => exact ⟨_, _, _, _, _, h⟩
  | createTo h => exact ⟨_, _, _, _, _, h⟩
  | encode h => exact ⟨_, _, _, _, _, (hserialized h).choose_spec⟩
  | encodeTo h => exact ⟨_, _, _, _, _, (hserialized h).choose_spec⟩
  | createWithMetadata h => exact ⟨_, _, _, _, _, h⟩
  | encodeWithMetadata h => exact ⟨_, _, _, _, _, (hserialized h).choose_spec⟩
  | encodeForEntity h => exact ⟨_, _, _, _, _, (hserialized h).choose_spec⟩
  | domainEvent h => exact ⟨_, _, _, _, _, (hserialized h).choose_spec⟩

/-! ## Setters -/

/-- **A call of a public setter.** -/
inductive MetaSetter where
  | setMeta (key value : String)
  | setCorrelationId (id : String)
  | setCausationId (id : String)

namespace MetaSetter

/-- The call. -/
def apply (a : Agg OutboxMessage) : MetaSetter → Agg OutboxMessage
  | setMeta key value => OutboxMessage.setMeta key value a
  | setCorrelationId id => OutboxMessage.setCorrelationId id a
  | setCausationId id => OutboxMessage.setCausationId id a

/-- The key it sets. -/
def key : MetaSetter → String
  | setMeta key _ => key
  | setCorrelationId _ => "correlation_id"
  | setCausationId _ => "causation_id"

/-- The value it sets. -/
def value : MetaSetter → String
  | setMeta _ value => value
  | setCorrelationId id => id
  | setCausationId id => id

theorem apply_eq (a : Agg OutboxMessage) (u : MetaSetter) :
    u.apply a = OutboxMessage.setMeta u.key u.value a := by
  cases u <;> rfl

/-- The calls, one after the other. -/
def applyAll (us : List MetaSetter) (a : Agg OutboxMessage) : Agg OutboxMessage := us.foldl apply a

/-- **The value that the calls leave** under a key: that of the last call for it. -/
def last (us : List MetaSetter) (key : String) : Option String :=
  (us.reverse.find? (fun u => u.key = key)).map value

theorem last_concat (us : List MetaSetter) (u : MetaSetter) (key : String) :
    last (us ++ [u]) key = if u.key = key then some u.value else last us key := by
  unfold last
  rw [List.reverse_concat, List.find?_cons]
  by_cases h : u.key = key <;> simp [h]

theorem applyAll_concat (us : List MetaSetter) (u : MetaSetter) (a : Agg OutboxMessage) :
    applyAll (us ++ [u]) a = OutboxMessage.setMeta u.key u.value (applyAll us a) := by
  rw [applyAll, List.foldl_append, List.foldl_cons, List.foldl_nil, apply_eq]
  rfl

/-- **The metadata after some calls**: what they leave, and else what it was. -/
theorem lookup_applyAll (us : List MetaSetter) (a : Agg OutboxMessage) (key : String) :
    (applyAll us a).fields.metadata.lookup key = (last us key).or (a.fields.metadata.lookup key) := by
  induction us using List.reverseRecOn with
  | nil => rfl
  | append_singleton us u ih =>
    rw [applyAll_concat, last_concat]
    show ((applyAll us a).fields.metadata.insert u.key u.value).lookup key = _
    by_cases h : u.key = key
    · rw [if_pos h, ← h, Finmap.lookup_insert]
      rfl
    · rw [if_neg h, Finmap.lookup_insert_of_ne _ (Ne.symm h), ih]

theorem applyAll_eq (us : List MetaSetter) (a : Agg OutboxMessage) :
    applyAll us a
      = { a with fields := { a.fields with metadata := (applyAll us a).fields.metadata } } := by
  induction us using List.reverseRecOn with
  | nil => rfl
  | append_singleton us u ih =>
    rw [applyAll_concat, ih]
    rfl

/-- **The calls leave the metadata what it was** exactly where the values they leave were
there before. -/
theorem metadata_applyAll_eq_iff (us : List MetaSetter) (a : Agg OutboxMessage) :
    (applyAll us a).fields.metadata = a.fields.metadata
      ↔ ∀ key value, last us key = some value → a.fields.metadata.lookup key = some value := by
  constructor
  · intro heq key value hlast
    rw [← heq, lookup_applyAll, hlast]
    rfl
  · intro hsame
    refine Finmap.ext_lookup (fun key => ?_)
    rw [lookup_applyAll]
    cases hlast : last us key with
    | none => rfl
    | some value => exact (hsame key value hlast).symm

end MetaSetter

end OutboxMessage

/-! ## Commits -/

/-- **The ways to commit a message**: by the repository with other entities, by `OutboxCommit`,
by a builder that had entities before it and was given messages after it, and by
`SnapshotOutboxCommit`. -/
inductive CommitPath (σ : Type) where
  | repository (before after : List Entity)
  | outboxCommit (agg : Agg σ)
  | builder (b : CommitBuilder) (later : List (Agg OutboxMessage)) (passed : List Entity)
  | snapshotOutboxCommit (agg : Agg σ)

namespace CommitPath

variable {σ : Type}

/-- The builder when it commits. -/
def build (b : CommitBuilder) (message : Agg OutboxMessage) (later : List (Agg OutboxMessage)) :
    CommitBuilder :=
  later.foldl CommitBuilder.outbox (b.outbox message)

/-- The entities that are committed. -/
def batch (message : Agg OutboxMessage) : CommitPath σ → List Entity
  | repository before after => before ++ message.entity :: after
  | outboxCommit agg => [agg.entity, message.entity]
  | builder b later passed => (build b message later).entities ++ passed
  | snapshotOutboxCommit agg => [agg.entity, message.entity]

theorem entities_foldl_outbox (b : CommitBuilder) (later : List (Agg OutboxMessage)) :
    (later.foldl CommitBuilder.outbox b).entities = b.entities ++ later.map Agg.entity := by
  induction later generalizing b with
  | nil => exact (List.append_nil _).symm
  | cons a later ih =>
    rw [List.foldl_cons, ih]
    exact List.append_assoc ..

/-- **The message is among them**, on every path. -/
theorem mem_batch (message : Agg OutboxMessage) (path : CommitPath σ) :
    message.entity ∈ path.batch message := by
  cases path with
  | repository before after => exact List.mem_append_right _ List.mem_cons_self
  | outboxCommit agg => exact List.mem_cons_of_mem _ List.mem_cons_self
  | builder b later passed =>
    refine List.mem_append_left _ ?_
    rw [build, entities_foldl_outbox]
    exact List.mem_append_left _ (List.mem_append_right _ (List.mem_singleton_self _))
  | snapshotOutboxCommit agg => exact List.mem_cons_of_mem _ List.mem_cons_self

theorem outboxCommit_eq (R : Repo) (agg : Agg σ) (message : Agg OutboxMessage) :
    ∃ k, AggregateRepository.outboxCommit R agg message.entity
      = (R.commit ((outboxCommit agg).batch message)).bind k :=
  ⟨_, rfl⟩

theorem snapshotOutboxCommit_eq (R : Repo) (B : Snapshottable σ) (frequency : ℕ) (agg : Agg σ)
    (message : Agg OutboxMessage) :
    ∃ k, SnapshotAggregateRepository.outboxCommit R B checks frequency agg message.entity
      = (R.commit ((snapshotOutboxCommit agg).batch message)).bind k :=
  ⟨_, Prog.bind_assoc (R.commit ([agg].map Agg.entity ++ [message.entity])) _ _⟩

theorem builder_eq (b : CommitBuilder) (later : List (Agg OutboxMessage)) (passed : List Entity)
    (message : Agg OutboxMessage) :
    ∃ k, (build b message later).commitEntities passed
      = Prog.act (StoreAction.commit ((builder b later passed : CommitPath σ).batch message)) k :=
  ⟨_, rfl⟩

end CommitPath

/-! ## What is handed over -/

namespace Event

variable (e : Event) (entries : List (String × String))

@[simp] theorem eventType_withAll : (e.withAll entries).eventType = e.eventType := by
  induction entries generalizing e with
  | nil => rfl
  | cons kv entries ih => exact (ih _).trans rfl

@[simp] theorem payload_withAll : (e.withAll entries).payload = e.payload := by
  induction entries generalizing e with
  | nil => rfl
  | cons kv entries ih => exact (ih _).trans rfl

/-- The entries of a map are the metadata of the event. -/
theorem metadata_withAll :
    (e.withAll entries).metadata.getD [] = e.metadata.getD [] ++ entries := by
  induction entries generalizing e with
  | nil => exact (List.append_nil _).symm
  | cons kv entries ih =>
    refine (ih _).trans ?_
    show e.metadata.getD [] ++ [kv] ++ entries = _
    rw [List.append_assoc]
    rfl

end Event

/-- The entries of a map, each once. -/
def Entries (entries : List (String × String)) (metadata : Metadata) : Prop :=
  entries.Nodup ∧ ∀ key value, (key, value) ∈ entries ↔ metadata.lookup key = some value

namespace OutboxMessage

/-! ## What a message carries -/

variable {m m' : OutboxMessage} {id : String} {l l' : List EventRecord}

/-- **What publishers get of a message.** -/
def cargo (m : OutboxMessage) : String × Bytes × Option String × Metadata :=
  (m.eventType, m.payload, m.destination, m.metadata)

theorem Took.cargo {name : String} (h : Took (C := C) checks name m m') : m'.cargo = m.cargo := by
  cases h with
  | claimed => rfl
  | settled u => cases u <;> rfl

/-- **It stays what it is** as the story goes on. -/
theorem Continues.cargo (h : Continues checks C id l m l' m') : m'.cargo = m.cargo := by
  induction h with
  | refl => rfl
  | advance _ hadv ih => exact hadv.took.cargo.trans ih

/-- What a constructed message carries, and its story. -/
theorem exists_story_of_construct (checks : OverflowChecks) {now : SystemTime} {id eventType : String}
    {payload : Bytes} {destination : Option String} {given : Metadata} {a : Agg OutboxMessage}
    (h : construct C now id eventType payload destination given = some a) :
    a.fields.metadata = given
      ∧ ∃ m, Story checks C a.entity.id a.entity.events m ∧ m.cargo = a.fields.cargo := by
  obtain ⟨b, hb, -, -, -, htells⟩ := Tells.construct checks C now id eventType payload destination given
  obtain rfl : b = a := Option.some.inj (hb.symm.trans h)
  refine ⟨?_, _, htells.story, ?_⟩
  · rw [← Option.some.inj hb]
    rfl
  · rw [← Option.some.inj hb]
    rfl

/-- No method but the constructor changes it. -/
theorem Calls.cargo {a a' : Agg OutboxMessage} (h : Calls checks C a a') :
    a'.fields.cargo = a.fields.cargo ∧ a'.entity.id = a.entity.id := by
  obtain ⟨k, hk, x, now, hcall⟩ := h
  unfold EventMethod.call at hcall
  by_cases hguard : k.guard a.fields a.entity x = true
  · rw [if_pos hguard] at hcall
    obtain ⟨⟨m, o⟩, hbody, rfl⟩ := Option.map_eq_some_iff.mp hcall
    obtain ⟨-, -, rfl⟩ := later_keeps hk hbody
    exact ⟨(Took.of_body hk hguard hbody).cargo, Entity.id_digestAt ..⟩
  · rw [if_neg hguard] at hcall
    obtain rfl := Option.some.inj hcall
    exact ⟨rfl, rfl⟩

theorem Called.cargo {a a' : Agg OutboxMessage} (h : Called checks C a a') :
    a'.fields.cargo = a.fields.cargo ∧ a'.entity.id = a.entity.id := by
  induction h with
  | refl => exact ⟨rfl, rfl⟩
  | tail _ hcalls ih => exact ⟨hcalls.cargo.1.trans ih.1, hcalls.cargo.2.trans ih.2⟩

end OutboxMessage

/-! ## Handing over -/

/-- **A delivery that is faithful to a message**, of a thread that routes or not. -/
structure Delivery.Faithful (d : Delivery) (routed : Bool) (a : Agg OutboxMessage) : Prop where
  id : d.event.id = a.entity.id
  eventType : d.event.eventType = a.fields.eventType
  payload : d.event.payload = a.fields.payload
  metadata : Entries (d.event.metadata.getD []) a.fields.metadata
  destination : d.destination = if routed then a.fields.destination else none

/-- **A publisher that keeps a log** of what it is handed. -/
def OutboxPublisher.logged {P : Type} (pub : OutboxPublisher P) :
    OutboxPublisher (P × List (String × Bytes × Metadata)) :=
  ⟨fun p eventType payload metadata =>
    ((pub.publish p.1 eventType payload metadata).1,
      (pub.publish p.1 eventType payload metadata).2, p.2 ++ [(eventType, payload, metadata)])⟩

/-- **What a publisher is handed**: by a thread, that routes or not, or by an `OutboxWorker`. -/
inductive Handover where
  | thread (routed : Bool) (d : Delivery)
  | worker (eventType : String) (payload : Bytes) (metadata : Metadata)

namespace Handover

/-- **It is faithful to a message.** -/
def Faithful (a : Agg OutboxMessage) : Handover → Prop
  | thread routed d => d.Faithful routed a
  | worker eventType payload metadata =>
    eventType = a.fields.eventType ∧ payload = a.fields.payload ∧ metadata = a.fields.metadata

/-- **It is of a message** `b`: a thread that has `b` first in its batch has its publisher take
it, or an `OutboxWorker` processes `b` and its publisher logs it. -/
inductive Of (checks : OverflowChecks) (C : Codecs) (b : Agg OutboxMessage) : Handover → Prop
  | thread {W : Type} [DecidableEq W] {st st' : OutboxWorkers W} {w : W} {batch : List (Agg OutboxMessage)}
      {d : Delivery} (hphase : (st.threads w).phase = .publishing (b :: batch))
      (hstep : OutboxWorkers.Step checks C st st')
      (hsettling : (st'.threads w).phase = .settling true b batch) (htaken : st'.taken = st.taken ++ [d]) :
      Of checks C b (.thread (st.threads w).routed d)
  | worker {P : Type} {pub : OutboxPublisher P} {w w' : OutboxWorker (P × List (String × Bytes × Metadata))}
      {t : Readings} {now : SystemTime} {b' : Agg OutboxMessage} {r : ProcessOneResult} {eventType : String}
      {payload : Bytes} {metadata : Metadata}
      (h : OutboxWorker.publishMessage checks C pub.logged w t now b = some (r, b', w'))
      (hlog : w'.publisher.2 = w.publisher.2 ++ [(eventType, payload, metadata)]) :
      Of checks C b (.worker eventType payload metadata)

end Handover

/-- **What `OutboxWorker` hands over** of a message, where it does any work. -/
theorem OutboxPublisher.log_publishMessage {P : Type} {pub : OutboxPublisher P}
    {w w' : OutboxWorker (P × List (String × Bytes × Metadata))} {t : Readings} {now : SystemTime}
    {b b' : Agg OutboxMessage} {r : ProcessOneResult}
    (h : OutboxWorker.publishMessage checks C pub.logged w t now b = some (r, b', w')) :
    w'.publisher.2 = w.publisher.2
      ++ if r.didWork then [(b.fields.eventType, b.fields.payload, b.fields.metadata)] else [] := by
  unfold OutboxWorker.publishMessage at h
  by_cases hdone : (b.fields.isPublished || b.fields.isFailed) = true
  · rw [if_pos hdone] at h
    cases h
    exact (List.append_nil _).symm
  · rw [if_neg hdone] at h
    obtain ⟨m, hm, hrest⟩ := Option.bind_eq_some_iff.mp h
    have hcalled : OutboxMessage.Called checks C b m := .of_claim hm
    by_cases hflight : m.fields.isInFlight = true
    · rw [if_pos hflight] at hrest
      obtain ⟨r', hfinish, hr⟩ := Option.map_eq_some_iff.mp hrest
      cases hr
      have hcargo := hcalled.cargo.1
      have htype : m.fields.eventType = b.fields.eventType := congrArg (fun x => x.1) hcargo
      have hpayload : m.fields.payload = b.fields.payload := congrArg (fun x => x.2.1) hcargo
      have hmetadata : m.fields.metadata = b.fields.metadata := congrArg (fun x => x.2.2.2) hcargo
      rw [if_pos (OutboxWorker.called_finishMessage checks hfinish).1, ← htype, ← hpayload, ← hmetadata]
      rfl
    · rw [if_neg hflight] at hrest
      cases hrest
      exact (List.append_nil _).symm

theorem Entries.unique {entries : List (String × String)} {metadata metadata' : Metadata}
    (h : Entries entries metadata) (h' : Entries entries metadata') : metadata = metadata' := by
  refine Finmap.ext_lookup (fun key => Option.ext (fun value => ?_))
  exact (h.2 key value).symm.trans (h'.2 key value)

/-- **What is handed over of a copy is faithful** to the message that it is a copy of, but for
the metadata, exactly where it has its metadata too. -/
theorem Handover.Of.faithful_iff {a b : Agg OutboxMessage} {o : Handover} (h : o.Of checks C b)
    (hid : b.entity.id = a.entity.id) {given : Metadata}
    (hcargo : b.fields.cargo = (a.fields.eventType, a.fields.payload, a.fields.destination, given)) :
    o.Faithful a ↔ a.fields.metadata = given := by
  obtain ⟨htype, hrest⟩ := Prod.mk.inj hcargo
  obtain ⟨hpayload, hrest⟩ := Prod.mk.inj hrest
  obtain ⟨hdestination, hmetadata⟩ := Prod.mk.inj hrest
  cases h with
  | @thread W _ st st' w batch d hphase hstep hsettling htaken =>
    cases hstep with
    | @taken w₁ b₁ batch₁ entries hphase₁ hentries =>
      have hw : w = w₁ := by
        by_contra hne
        rw [OutboxWorkers.threads_set_of_ne hne] at hsettling
        cases hphase.symm.trans hsettling
      subst hw
      obtain ⟨rfl, rfl⟩ := List.cons.inj (WorkerPhase.publishing.inj (hphase.symm.trans hphase₁))
      obtain rfl := List.singleton_inj.mp (List.append_cancel_left htaken)
      -- the entries of the event are those of the copy
      have hevent : (OutboxWorkerThread.event entries b).metadata.getD [] = entries := by
        rw [OutboxWorkerThread.event, Event.metadata_withAll]
        rfl
      constructor
      · intro hfaithful
        have hmine : Entries entries a.fields.metadata := hevent ▸ hfaithful.metadata
        exact (hmine.unique hentries).trans hmetadata
      · intro hsame
        refine ⟨(Event.id_withAll _ _).trans hid, (Event.eventType_withAll _ _).trans htype,
          (Event.payload_withAll _ _).trans hpayload, ?_, ?_⟩
        · show Entries ((OutboxWorkerThread.event entries b).metadata.getD []) a.fields.metadata
          rw [hevent, hsame, ← hmetadata]
          exact hentries
        · show (if (st.threads w).routed then b.fields.destination else none) = _
          rw [hdestination]
    | _ => exact absurd (congrArg List.length htaken) (by simp [OutboxWorkers.set, OutboxWorkers.withStore])
  | @worker P pub w w' t now b' r eventType payload metadata hpublish hlog =>
    have hboth := List.append_cancel_left (hlog.symm.trans (OutboxPublisher.log_publishMessage hpublish))
    by_cases hwork : r.didWork = true
    · rw [if_pos hwork] at hboth
      cases hboth
      rw [← hmetadata]
      exact ⟨fun hfaithful => hfaithful.2.2.symm, fun hsame => ⟨htype, hpayload, hsame.symm⟩⟩
    · rw [if_neg hwork] at hboth
      cases hboth

namespace EventStore

/-! ## Copies -/

/-- **A copy that is claimed** is what its events say. -/
theorem content_of_claimFor (hC : C.Lawful) {t : Readings} {workerId id : String} {lease : Duration}
    {s : EventStore} {l : List EventRecord} {b a : Agg OutboxMessage} (hl : s.messageEvents id = some l)
    (hload : hydrateMessage checks C t.replay id l = .ok b) (hpending : b.fields.isPending = true)
    (hclaim : OutboxMessage.claimFor checks C t workerId lease b = some a) :
    content checks C a.entity.events = .ok a.fields.undated := by
  have hstatus : b.fields.status = .pending := of_decide_eq_true hpending
  have hpanic : ¬ ClaimPanics checks t lease b.fields := fun hpanic => by
    rw [(claimFor_eq_none hstatus).mpr hpanic] at hclaim
    cases hclaim
  obtain ⟨b', a', hb', -, ha', l', r, m, m', htaken⟩ :=
    exists_taken hC workerId hl (content_of_hydrate hload) hstatus hpanic
  obtain rfl : b' = b := Except.ok.inj (hb'.symm.trans hload)
  obtain rfl : a' = a := Option.some.inj (ha'.symm.trans hclaim)
  have hevents : a'.entity.events = l' ++ [r] := htaken.events
  have hcopy : a'.fields.undated = m' := htaken.copy
  rw [hevents, hcopy]
  exact htaken.became

/-- **A copy that a claim returns** carries what its story says. -/
theorem cargo_of_claim (hC : C.Lawful) {ord : List String} {clock : String → Readings} {workerId : String}
    {max : ℕ} {lease : Duration} {as : List (Agg OutboxMessage)} {s s' : EventStore}
    (h : s.claimOutboxMessages checks C ord clock workerId max lease = (.ok as, s')) {a : Agg OutboxMessage}
    (ha : a ∈ as) {m : OutboxMessage} (hstory : Story checks C a.entity.id a.entity.events m) :
    a.fields.cargo = m.cargo := by
  have hcontent : content checks C a.entity.events = .ok a.fields.undated :=
    forall_claim (P := fun a => content checks C a.entity.events = .ok a.fields.undated)
      (fun _ _ _ _ a hl hload hpending hclaim => (content_of_claimFor hC hl hload hpending hclaim :
        content checks C a.entity.events = .ok a.fields.undated)) h a ha
  have hsame := Except.ok.inj (hcontent.symm.trans
    (content_of_hydrate (hydrateMessage_eq hC hstory SystemTime.unixEpoch)))
  have hcargo := congrArg OutboxMessage.cargo hsame
  exact hcargo

/-- **A copy that is loaded** does too. -/
theorem Loads.cargo (hC : C.Lawful) {s : EventStore} (hs : Stories checks C s) {id : String}
    {a : Agg OutboxMessage} (h : s.Loads checks C id a) {l : List EventRecord} {m : OutboxMessage}
    (hl : s.lookup a.entity.id = some l) (hstory : Story checks C a.entity.id l m) :
    a.fields.cargo = m.cargo := by
  obtain ⟨l', now, hevents, hload⟩ := h
  obtain ⟨hl', hpre⟩ := messageEvents_eq_some.mp hevents
  obtain ⟨m', hstory'⟩ := hs id l' hl' hpre
  obtain rfl := Except.ok.inj ((hydrateMessage_eq hC hstory' now).symm.trans hload)
  obtain rfl : l' = l := Option.some.inj (hl'.symm.trans hl)
  have hcargo := congrArg OutboxMessage.cargo (hstory'.unique hC hstory)
  exact hcargo

end EventStore

namespace OutboxClients

variable (checks C) in
/-- **How a committed message comes back**: it is claimed, listed by its status or loaded. -/
inductive Rebuilds (c : OutboxClients) : Agg OutboxMessage → Prop
  | claimed {ord : List String} {clock : String → Readings} {workerId : String} {max : ℕ}
      {lease : Duration} {as : List (Agg OutboxMessage)} {s : EventStore} {b : Agg OutboxMessage}
      (hord : c.store.Enumerates ord)
      (h : c.store.claimOutboxMessages checks C ord clock workerId max lease = (.ok as, s)) (hb : b ∈ as) :
      Rebuilds c b
  | listed {ord : List String} {clock : String → Readings} {status : OutboxMessageStatus}
      {as : List (Agg OutboxMessage)} {b : Agg OutboxMessage} (hord : c.store.Enumerates ord)
      (h : c.store.outboxMessagesByStatus checks C ord clock status = .ok as) (hb : b ∈ as) : Rebuilds c b
  | loaded {now : SystemTime} {id : String} {e : Entity} {b : Agg OutboxMessage}
      (hpre : hasPrefix id = true) (hget : c.store.getOne id = .ok (some e))
      (hhydrate : (OutboxMessage.definition checks C).aggregate.hydrate now e = .ok b) : Rebuilds c b

/-- **What comes back** carries what the story of the stored message says. -/
theorem Rebuilds.cargo (hC : C.Lawful) {c : OutboxClients} (hc : MixedInv checks C c)
    {b : Agg OutboxMessage} (h : Rebuilds checks C c b) {l : List EventRecord} {m : OutboxMessage}
    (hl : c.store.lookup b.entity.id = some l) (hstory : Story checks C b.entity.id l m) :
    b.fields.cargo = m.cargo := by
  cases h with
  | claimed hord hclaim hb =>
    obtain ⟨-, m', m'', hfrom⟩ := (EventStore.claims_of_claim hC hc.stories hord hclaim).2.each b hb
    obtain ⟨leasedUntil, l', -, hl', hadv⟩ := hfrom.claimed
    obtain rfl : l' = l := Option.some.inj (hl'.symm.trans hl)
    obtain rfl := hadv.before.unique hC hstory
    exact (EventStore.cargo_of_claim hC hclaim hb hadv.after).trans hadv.took.cargo
  | listed hord hlist hb =>
    obtain ⟨id, hloads⟩ := EventStore.loads_of_listed hlist hb
    exact hloads.cargo hC hc.stories hl hstory
  | @loaded now id e b hpre hget hhydrate =>
    obtain ⟨l', hl', rfl⟩ := EventStore.lookup_of_getOne hget
    exact EventStore.Loads.cargo hC hc.stories ⟨l', now, EventStore.messageEvents_eq_some.mpr ⟨hl', hpre⟩,
      hhydrate⟩ hl hstory

/-- Setters called on a message in hand. -/
theorem exists_applyAll (checks : OverflowChecks) (C : Codecs) (us : List OutboxMessage.MetaSetter)
    {c : OutboxClients} {a : Agg OutboxMessage} (ha : a ∈ c.hands) :
    ∃ hands, MixedRun checks C c ⟨c.store, hands⟩ ∧ OutboxMessage.MetaSetter.applyAll us a ∈ hands := by
  induction us using List.reverseRecOn with
  | nil => exact ⟨c.hands, .refl, ha⟩
  | append_singleton us u ih =>
    obtain ⟨hands, hrun, hmem⟩ := ih
    rw [OutboxMessage.MetaSetter.applyAll_concat]
    exact ⟨_, hrun.tail (.obtain (.setMeta hmem u.key u.value)),
      List.mem_append_right _ (List.mem_singleton_self _)⟩

end OutboxClients

namespace OutboxMessage

/-! ## Faithful deliveries -/

section Faithful

variable {σ : Type} {a b : Agg OutboxMessage} {given : Metadata} {us : List MetaSetter} {o : Handover}

theorem MetaSetter.cargo_applyAll (us : List MetaSetter) (a : Agg OutboxMessage) :
    a.fields.cargo = ((applyAll us a).fields.eventType, (applyAll us a).fields.payload,
      (applyAll us a).fields.destination, a.fields.metadata) := by
  rw [applyAll_eq]
  rfl

theorem MetaSetter.entity_applyAll (us : List MetaSetter) (a : Agg OutboxMessage) :
    (applyAll us a).entity = a.entity := by
  rw [applyAll_eq]

/-- **A copy rebuilt from the store** after any history has the metadata of the constructor. -/
theorem rebuilt_faithful_iff (hC : C.Lawful) (hbuilt : Built C a given) {c c' : OutboxClients}
    {path : CommitPath σ} {s : EventStore} (hbefore : OutboxClients.MixedRun checks C .initial c)
    (hcommit : c.Commits (path.batch (MetaSetter.applyAll us a)) s)
    (hafter : OutboxClients.MixedRun checks C ⟨s, c.hands⟩ c') (ho : o.Of checks C b)
    {b₀ : Agg OutboxMessage} (hrebuilds : OutboxClients.Rebuilds checks C c' b₀)
    (hid : b₀.entity.id = a.entity.id) (hcalled : Called checks C b₀ b) :
    o.Faithful (MetaSetter.applyAll us a)
      ↔ ∀ key value, MetaSetter.last us key = some value → given.lookup key = some value := by
  obtain ⟨now, id, eventType, payload, destination, hconstruct⟩ := hbuilt.construct
  obtain ⟨rfl, m, hstory, hm⟩ := exists_story_of_construct checks hconstruct
  have hentity := MetaSetter.entity_applyAll us a
  -- the story of the message goes on from its commit
  obtain ⟨hinv, -⟩ := OutboxClients.MixedInv.initial.run hC hbefore
  have hstored := hcommit.lookup hinv (CommitPath.mem_batch _ path) (hentity ▸ hstory.hasPrefix)
  rw [hentity] at hstored
  obtain ⟨hinv', -⟩ := hinv.step hC (.commit hcommit)
  obtain ⟨hinv'', hprogress⟩ := hinv'.run hC hafter
  obtain ⟨l, m', hl, hcontinues⟩ := hprogress _ _ m hstored hstory
  have hb₀ : b₀.fields.cargo = m'.cargo :=
    hrebuilds.cargo hC hinv'' (hid ▸ hl) (hid ▸ hcontinues.story hstory)
  have hb : b.fields.cargo = a.fields.cargo :=
    calc b.fields.cargo = b₀.fields.cargo := hcalled.cargo.1
      _ = m'.cargo := hb₀
      _ = m.cargo := hcontinues.cargo
      _ = a.fields.cargo := hm
  have hid' : b.entity.id = (MetaSetter.applyAll us a).entity.id :=
    hcalled.cargo.2.trans (hid.trans (congrArg Entity.id hentity.symm))
  exact (ho.faithful_iff hid' (hb.trans (MetaSetter.cargo_applyAll us a))).trans
    (MetaSetter.metadata_applyAll_eq_iff us a)

/-- **The committed message itself** has the metadata it had. -/
theorem kept_faithful (ho : o.Of checks C b)
    (hcalled : Called checks C { MetaSetter.applyAll us a with entity := a.entity.markCommitted } b) :
    o.Faithful (MetaSetter.applyAll us a) := by
  have hmarked : a.entity.markCommitted.id = (MetaSetter.applyAll us a).entity.id := by
    rw [MetaSetter.entity_applyAll]
    rfl
  exact (ho.faithful_iff (hcalled.cargo.2.trans hmarked) hcalled.cargo.1).mpr rfl

/-- **What is handed over of a message is faithful to what was committed**, where the copy that
is processed was rebuilt from the store, exactly where the setters left nothing under a key
that the constructor was not given there; and always, where the message that was committed is
processed itself. -/
theorem delivered_faithful_iff (hC : C.Lawful) (hbuilt : Built C a given) {c c' : OutboxClients}
    {path : CommitPath σ} {s : EventStore} (hbefore : OutboxClients.MixedRun checks C .initial c)
    (hcommit : c.Commits (path.batch (MetaSetter.applyAll us a)) s)
    (hafter : OutboxClients.MixedRun checks C ⟨s, c.hands⟩ c') (ho : o.Of checks C b) :
    (∀ b₀, OutboxClients.Rebuilds checks C c' b₀ → b₀.entity.id = a.entity.id → Called checks C b₀ b →
      (o.Faithful (MetaSetter.applyAll us a)
        ↔ ∀ key value, MetaSetter.last us key = some value → given.lookup key = some value))
    ∧ (Called checks C { MetaSetter.applyAll us a with entity := a.entity.markCommitted } b →
      o.Faithful (MetaSetter.applyAll us a)) :=
  ⟨fun _ hrebuilds hid hcalled =>
    rebuilt_faithful_iff hC hbuilt hbefore hcommit hafter ho hrebuilds hid hcalled, kept_faithful ho⟩

end Faithful

theorem exists_handover (checks : OverflowChecks) (C : Codecs) {b : Agg OutboxMessage}
    (hflight : b.fields.isInFlight = true) : ∃ o : Handover, o.Of checks C b := by
  obtain ⟨r, b', p, hpublish, hexit⟩ := OutboxWorker.exists_exit checks C
    (OutboxWorker.always (.ok ())).logged (OutboxWorker.new ((), []) 1) OutboxWorker.epochReadings
    SystemTime.unixEpoch hflight
  have hlog := OutboxPublisher.log_publishMessage hpublish
  rw [if_pos hexit.didWork] at hlog
  exact ⟨_, .worker hpublish hlog⟩

/-- A message built, on which some setters are called and which is committed, claimed and
published. -/
theorem exists_handed (payload : Bytes) (metadata : Metadata) (us : List MetaSetter) :
    ∃ (a b : Agg OutboxMessage) (c : OutboxClients) (s : EventStore) (o : Handover),
      Built Codecs.counting a metadata ∧ a.fields.payload = payload
      ∧ OutboxClients.MixedRun true Codecs.counting .initial c
      ∧ c.Commits ((CommitPath.repository [] [] : CommitPath Unit).batch (MetaSetter.applyAll us a)) s
      ∧ OutboxClients.Rebuilds true Codecs.counting ⟨s, c.hands⟩ b ∧ b.entity.id = a.entity.id
      ∧ o.Of true Codecs.counting b := by
  obtain ⟨a, es, s, l, m, ha, hcommit, hsingle, hclaims⟩ :=
    EventStore.Single.exists_commit true Codecs.counting payload metadata
  have hpanic := hsingle.not_claimPanics (fun _ => hclaims ▸ by decide) OutboxWorker.epochReadings
  obtain ⟨b, s', -, hclaim, hid, -⟩ := hsingle.claim Codecs.counting_lawful
    (fun _ => OutboxWorker.epochReadings) "worker-1" (show 1 < 10 by decide) hpanic
  obtain ⟨hida, hpayload⟩ : a.entity.id = "outbox:m" ∧ a.fields.payload = payload := by
    obtain ⟨a', ha', hid', -, -, htells⟩ :=
      Tells.construct true Codecs.counting SystemTime.unixEpoch "m" "Created" payload none metadata
    obtain rfl : a' = a := Option.some.inj (ha'.symm.trans ha)
    obtain ⟨t, d, hfields⟩ := htells.fields
    exact ⟨hid'.trans (by decide), by rw [hfields]; rfl⟩
  -- the setters are called on it before it is committed
  have hobtain : OutboxClients.MixedStep true Codecs.counting .initial ⟨EventStore.new, [a]⟩ :=
    .obtain (.construct ha)
  obtain ⟨hands, hrun, hmem⟩ := OutboxClients.exists_applyAll true Codecs.counting us
    (c := ⟨EventStore.new, [a]⟩) (List.mem_singleton_self a)
  have hbatch : (CommitPath.repository [] [] : CommitPath Unit).batch (MetaSetter.applyAll us a)
      = [a.entity] := congrArg (fun e => [e]) (MetaSetter.entity_applyAll us a)
  obtain ⟨o, ho⟩ := exists_handover true Codecs.counting
    (EventStore.inFlight_of_claim hclaim b (List.mem_singleton_self b))
  refine ⟨a, b, ⟨EventStore.new, hands⟩, s, o, .createWithMetadata ha, hpayload,
    (Relation.ReflTransGen.single hobtain).trans hrun,
    ⟨fun e he _ => ⟨_, hmem, (List.mem_singleton.mp he).symm⟩, fun e he _ => ?_, ?_⟩,
    .claimed hsingle.enumerates hclaim (List.mem_singleton_self b), hid.trans hida.symm, ho⟩
  · rw [hbatch] at he ⊢
    rw [List.mem_singleton.mp he]
    exact List.filter_eq_self.mpr
      (fun e' he' => decide_eq_true (congrArg Entity.id (List.mem_singleton.mp he')))
  · rw [hbatch]
    exact ⟨es, hcommit⟩

/-- A message built with a correlation id, which is set once more to the same before the commit. -/
theorem delivered_faithful_published : ∃ (a b : Agg OutboxMessage) (o : Handover),
    Built Codecs.counting a (Finmap.insert "correlation_id" "req-abc" ∅) ∧ a.fields.payload = [1, 2]
      ∧ o.Of true Codecs.counting b ∧ o.Faithful (MetaSetter.applyAll [.setCorrelationId "req-abc"] a) := by
  obtain ⟨a, b, c, s, o, hbuilt, hpayload, hbefore, hcommit, hrebuilds, hid, ho⟩ :=
    exists_handed [1, 2] (Finmap.insert "correlation_id" "req-abc" ∅) [.setCorrelationId "req-abc"]
  refine ⟨a, b, o, hbuilt, hpayload, ho, ((delivered_faithful_iff Codecs.counting_lawful hbuilt hbefore hcommit
    .refl ho).1 b hrebuilds hid .refl).mpr fun key value hlast => ?_⟩
  -- the one setter leaves its own key, with what was given there
  have hone := MetaSetter.last_concat [] (.setCorrelationId "req-abc") key
  rw [List.nil_append, hlast] at hone
  by_cases hkey : (MetaSetter.setCorrelationId "req-abc").key = key
  · rw [if_pos hkey] at hone
    rw [← hkey, hone]
    exact Finmap.lookup_insert _
  · rw [if_neg hkey] at hone
    cases hone

/-- A message with a correlation id set before it was committed, which is published without. -/
theorem correlation_lost : ∃ (a b : Agg OutboxMessage) (c : OutboxClients) (s : EventStore) (o : Handover),
    Built Codecs.counting a ∅ ∧ OutboxClients.MixedRun true Codecs.counting .initial c
      ∧ c.Commits ((CommitPath.repository [] [] : CommitPath Unit).batch (setCorrelationId "req-abc" a)) s
      ∧ OutboxClients.Rebuilds true Codecs.counting ⟨s, c.hands⟩ b ∧ b.entity.id = a.entity.id
      ∧ o.Of true Codecs.counting b ∧ ¬ o.Faithful (setCorrelationId "req-abc" a) := by
  obtain ⟨a, b, c, s, o, hbuilt, -, hbefore, hcommit, hrebuilds, hid, ho⟩ :=
    exists_handed [] ∅ [.setCorrelationId "req-abc"]
  refine ⟨a, b, c, s, o, hbuilt, hbefore, hcommit, hrebuilds, hid, ho, fun hfaithful => ?_⟩
  have hkept := (rebuilt_faithful_iff Codecs.counting_lawful hbuilt hbefore hcommit .refl ho hrebuilds hid
    .refl).mp hfaithful "correlation_id" "req-abc" rfl
  rw [Finmap.lookup_empty] at hkept
  cases hkept

end OutboxMessage
