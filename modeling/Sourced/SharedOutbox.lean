import Sourced.OutboxHistory

/-!
# An outbox among other aggregates

A store that keeps messages keeps other aggregates too, and a commit of one path or
another takes entities of both kinds at once. Here clients do all that clients of an
outbox do, and more: they call any method of a message in hand, they set its metadata,
which records nothing, and they commit messages together with other entities. The
streams under ids without the prefix are left open; somebody may do anything to them.

What holds of an outbox by itself still holds: the streams under ids with the prefix
tell stories, and a message in hand, as far as it is committed, is the beginning of its
stream (`OutboxClients.MixedInv.run`).
-/

open OutboxMessage (Codecs Readings Story Tells Continues hasPrefix)

variable {checks : OverflowChecks} {C : Codecs}

namespace OutboxMessage

/-- `set_meta`. -/
def setMeta (key value : String) (a : Agg OutboxMessage) : Agg OutboxMessage :=
  { a with fields := { a.fields with metadata := a.fields.metadata.insert key value } }

/-- `set_correlation_id`. -/
def setCorrelationId (id : String) (a : Agg OutboxMessage) : Agg OutboxMessage :=
  setMeta "correlation_id" id a

/-- `set_causation_id`. -/
def setCausationId (id : String) (a : Agg OutboxMessage) : Agg OutboxMessage :=
  setMeta "causation_id" id a

end OutboxMessage

theorem EventStore.Hand.setMeta {s : EventStore} {a : Agg OutboxMessage} (ha : s.Hand checks C a)
    (key value : String) : s.Hand checks C (OutboxMessage.setMeta key value a) := by
  obtain ⟨m, hstory, ⟨t, d, hfields⟩, hversion, hreplaying⟩ := ha.tells
  refine ⟨⟨m, hstory, ⟨t, a.fields.metadata.insert key value, ?_⟩, hversion, hreplaying⟩, ha.committed_le,
    ha.initial⟩
  rw [OutboxMessage.setMeta, hfields]
  rfl

theorem EventStore.Hand.committed {s : EventStore} {a : Agg OutboxMessage} (ha : s.Hand checks C a)
    (hlookup : s.lookup a.entity.id = some a.entity.events) :
    s.Hand checks C { a with entity := a.entity.markCommitted } := by
  obtain ⟨m, htells⟩ := ha.tells
  exact .stored htells.markCommitted hlookup htells.version

namespace OutboxClients

variable (checks C)

/-- **How a client comes to have a message in hand**, the store being left as it is. -/
inductive Obtains (c : OutboxClients) : Agg OutboxMessage → Prop
  /-- It constructs one. -/
  | construct {now : SystemTime} {id eventType : String} {payload : Bytes}
      {destination : Option String} {metadata : Metadata} {a : Agg OutboxMessage}
      (h : OutboxMessage.construct C now id eventType payload destination metadata = some a) : Obtains c a
  /-- It loads one by its id. -/
  | load {now : SystemTime} {id : String} {e : Entity} {a : Agg OutboxMessage}
      (hpre : hasPrefix id = true) (hget : c.store.getOne id = .ok (some e))
      (hhydrate : (OutboxMessage.definition checks C).aggregate.hydrate now e = .ok a) : Obtains c a
  /-- It loads those with a status. -/
  | list {ord : List String} {clock : String → Readings} {status : OutboxMessageStatus}
      {as : List (Agg OutboxMessage)} {a : Agg OutboxMessage} (hord : c.store.Enumerates ord)
      (h : c.store.outboxMessagesByStatus checks C ord clock status = .ok as) (ha : a ∈ as) : Obtains c a
  /-- It calls a method of one. -/
  | call {a a' : Agg OutboxMessage} {k : EventMethod OutboxMessage} {x : k.Args} {now : SystemTime}
      (ha : a ∈ c.hands) (hk : k ∈ OutboxMessage.later checks C) (h : k.call now x a = some a') :
      Obtains c a'
  /-- A worker processes one. -/
  | process {a a' : Agg OutboxMessage} {t : Readings} {now : SystemTime} {workerId : String}
      {lease : Duration} {maxAttempts : ℕ} {answer : Except String Unit} {r : ProcessOneResult}
      (ha : a ∈ c.hands)
      (h : OutboxWorker.processMessage checks C t now workerId lease maxAttempts answer a
        = some (r, a')) : Obtains c a'
  /-- It sets metadata. -/
  | setMeta {a : Agg OutboxMessage} (ha : a ∈ c.hands) (key value : String) :
      Obtains c (OutboxMessage.setMeta key value a)
  /-- It has committed one. -/
  | committed {a : Agg OutboxMessage} (ha : a ∈ c.hands)
      (hlookup : c.store.lookup a.entity.id = some a.entity.events) :
      Obtains c { a with entity := a.entity.markCommitted }

/-- **A commit that is accepted**: the messages among the entities are in hand, and no two of
the entities have the id of a message. -/
structure Commits (c : OutboxClients) (es : List Entity) (s : EventStore) : Prop where
  mine : ∀ e ∈ es, hasPrefix e.id = true → ∃ a ∈ c.hands, a.entity = e
  alone : ∀ e ∈ es, hasPrefix e.id = true → es.filter (fun e' => e'.id = e.id) = [e]
  accepted : ∃ es', c.store.commit es = (.ok (), es', s)

/-- **A step of a client** of a store that keeps other aggregates too. A commit that is refused
changes nothing, and one that panics commits some entities and poisons the lock. -/
inductive MixedStep : OutboxClients → OutboxClients → Prop
  /-- A message comes to hand. -/
  | obtain {c : OutboxClients} {a : Agg OutboxMessage} (h : Obtains checks C c a) :
      MixedStep c ⟨c.store, c.hands ++ [a]⟩
  /-- Messages are claimed. -/
  | claim {c : OutboxClients} {ord : List String} {clock : String → Readings} {workerId : String}
      {max : ℕ} {lease : Duration} {as : List (Agg OutboxMessage)} {s : EventStore}
      (hord : c.store.Enumerates ord)
      (h : c.store.claimOutboxMessages checks C ord clock workerId max lease = (.ok as, s)) :
      MixedStep c ⟨s, c.hands ++ as⟩
  /-- A claim fails. -/
  | claimFails {c : OutboxClients} {ord : List String} {clock : String → Readings} {workerId : String}
      {max : ℕ} {lease : Duration} {f : Fault RepositoryError} {s : EventStore}
      (hord : c.store.Enumerates ord)
      (h : c.store.claimOutboxMessages checks C ord clock workerId max lease = (.error f, s)) :
      MixedStep c ⟨s, c.hands⟩
  /-- A message is settled by its id. -/
  | settle {c : OutboxClients} (u : Settling) (t : Readings) (messageId : String) :
      MixedStep c ⟨(u.run checks C t c.store messageId).2, c.hands⟩
  /-- Messages in hand are committed, and other entities with them. -/
  | commit {c : OutboxClients} {es : List Entity} {s : EventStore} (h : c.Commits es s) :
      MixedStep c ⟨s, c.hands⟩
  /-- Something happens to other streams, or the lock is poisoned. -/
  | other {c : OutboxClients} {s : EventStore}
      (h : ∀ id, hasPrefix id = true → s.lookup id = c.store.lookup id) : MixedStep c ⟨s, c.hands⟩

/-- **A history** of such steps. -/
def MixedRun : OutboxClients → OutboxClients → Prop := Relation.ReflTransGen (MixedStep checks C)

/-- **What holds in every history.** -/
structure MixedInv (c : OutboxClients) : Prop where
  stories : EventStore.Stories checks C c.store
  hands : ∀ a ∈ c.hands, c.store.Hand checks C a

variable {checks C} {c c' : OutboxClients}

/-- What comes to hand is a message in hand. -/
theorem Obtains.hand (hC : C.Lawful) (hc : MixedInv checks C c) {a : Agg OutboxMessage}
    (h : Obtains checks C c a) : c.store.Hand checks C a := by
  cases h with
  | construct hconstruct => exact .construct hconstruct _
  | @load now id e a hpre hget hhydrate =>
    unfold EventStore.getOne at hget
    split at hget
    · cases hget
    · obtain ⟨l, hl, rfl⟩ := Option.map_eq_some_iff.mp (Except.ok.inj hget)
      exact .load hC hc.stories hl hpre hhydrate
  | list hord hlist ha => exact .listed hC hc.stories hlist ha
  | call ha hk hcall => exact (hc.hands _ ha).call hk hcall
  | process ha hprocess => exact (hc.hands _ ha).process hprocess
  | setMeta ha key value => exact (hc.hands _ ha).setMeta key value
  | committed ha hlookup => exact (hc.hands _ ha).committed hlookup

/-- **Messages committed among other entities**: their streams are their events, and those of
other messages are what they were. -/
theorem Commits.stored (hc : MixedInv checks C c) {es : List Entity} {s : EventStore} (h : c.Commits es s) :
    (∀ id ∈ es.map Entity.id, hasPrefix id = true → ∃ a, c.store.Hand checks C a ∧ a.entity.id = id
      ∧ c.store.stream id = a.entity.events.take a.entity.committedVersion
      ∧ s.lookup id = some a.entity.events)
    ∧ ∀ id, id ∉ es.map Entity.id → s.lookup id = c.store.lookup id := by
  obtain ⟨es', hcommit⟩ := h.accepted
  obtain ⟨-, rfl⟩ := EventStore.commit_eq_ok hcommit
  refine ⟨fun id hid hpre => ?_, fun id hid => EventStore.lookup_extendAll_of_notMem c.store hid⟩
  obtain ⟨e, he, rfl⟩ := List.mem_map.mp hid
  obtain ⟨a, ha, rfl⟩ := h.mine e he hpre
  have hhand := hc.hands a ha
  exact ⟨a, hhand, rfl, EventStore.stored_of_valid (EventStore.valid_of_commit hcommit) hhand he
    (EventStore.batchEvents_of_filter (h.alone _ he hpre))⟩

theorem Commits.lookup (hc : MixedInv checks C c) {es : List Entity} {s : EventStore} (h : c.Commits es s)
    {e : Entity} (he : e ∈ es) (hpre : hasPrefix e.id = true) : s.lookup e.id = some e.events := by
  obtain ⟨es', hcommit⟩ := h.accepted
  obtain ⟨-, rfl⟩ := EventStore.commit_eq_ok hcommit
  obtain ⟨a, ha, rfl⟩ := h.mine e he hpre
  exact (EventStore.stored_of_valid (EventStore.valid_of_commit hcommit) (hc.hands a ha) he
    (EventStore.batchEvents_of_filter (h.alone _ he hpre))).2

namespace MixedInv

theorem initial : MixedInv checks C OutboxClients.initial :=
  ⟨.new, fun _ ha => absurd ha List.not_mem_nil⟩

theorem worked (hc : MixedInv checks C c) {s : EventStore} (hworked : c.store.Worked checks C s)
    {as : List (Agg OutboxMessage)} (has : ∀ a ∈ as, s.Hand checks C a) :
    MixedInv checks C ⟨s, c.hands ++ as⟩ ∧ c.store.Progress checks C s := by
  refine ⟨⟨hworked.stories hc.stories, fun a ha => ?_⟩, hworked.progress⟩
  cases List.mem_append.mp ha with
  | inl ha => exact (hc.hands a ha).mono hc.stories hworked.progress
  | inr ha => exact has a ha

theorem worked_nil (hc : MixedInv checks C c) {s : EventStore} (hworked : c.store.Worked checks C s) :
    MixedInv checks C ⟨s, c.hands⟩ ∧ c.store.Progress checks C s := by
  rw [← List.append_nil c.hands]
  exact hc.worked hworked (fun _ ha => absurd ha List.not_mem_nil)

/-- **Every step lets the stories go on.** -/
theorem step (hC : C.Lawful) (hc : MixedInv checks C c) (hstep : MixedStep checks C c c') :
    MixedInv checks C c' ∧ c.store.Progress checks C c'.store := by
  cases hstep with
  | obtain hobtains =>
    exact hc.worked (.of_lookup (fun _ => rfl)) (fun b hb => List.mem_singleton.mp hb ▸ hobtains.hand hC hc)
  | claim hord hclaim =>
    obtain ⟨hworked, hhands⟩ := EventStore.worked_claim hC hc.stories hord hclaim
    exact hc.worked hworked (hhands _ rfl)
  | claimFails hord hclaim => exact hc.worked_nil (EventStore.worked_claim hC hc.stories hord hclaim).1
  | settle u t messageId => exact hc.worked_nil (EventStore.worked_settling hC hc.stories u t messageId)
  | commit h =>
    obtain ⟨hstored, hothers⟩ := h.stored hc
    obtain ⟨hprogress, hborn⟩ := EventStore.progress_commit hC hstored hothers
    exact ⟨⟨hc.stories.progress hprogress hborn, fun a ha => (hc.hands a ha).mono hc.stories hprogress⟩,
      hprogress⟩
  | other h =>
    have hprogress : c.store.Progress checks C _ := fun id l m hl hstory =>
      ⟨l, m, (h id hstory.hasPrefix).trans hl, .refl⟩
    exact ⟨⟨hc.stories.progress hprogress (fun id l hnone hl hpre => by
      cases ((h id hpre).trans hnone).symm.trans hl), fun a ha => (hc.hands a ha).mono hc.stories hprogress⟩,
      hprogress⟩

/-- **A history lets the stories go on.** -/
theorem run (hC : C.Lawful) (hc : MixedInv checks C c) (hrun : MixedRun checks C c c') :
    MixedInv checks C c' ∧ c.store.Progress checks C c'.store := by
  induction hrun with
  | refl => exact ⟨hc, .of_lookup (fun _ => rfl)⟩
  | tail _ hstep ih =>
    obtain ⟨hinv, hprogress⟩ := ih
    obtain ⟨hinv', hstep'⟩ := hinv.step hC hstep
    exact ⟨hinv', hprogress.trans hstep'⟩

end MixedInv

end OutboxClients
