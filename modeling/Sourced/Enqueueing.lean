import Sourced.EventMethod
import Sourced.EventStore

/-!
# Events enqueued with those recorded

An aggregate made by `#[sourced(entity, enqueue)]` has an `EntityEmitter` beside
its entity (`emitter/entity_ext.rs`), a queue of local events to be emitted after
a commit. Each event method is rewritten to enqueue its event and to record it,
in this order, before its body runs, all under the method's guard.

Nothing but this order ties the queue to the entity. Each has a replaying flag of
its own; the generated code asks the entity's before it enqueues, and recording
asks it again. So the two stay in lockstep as long as a body leaves alone what is
recorded and the flag: the queue holds an item for every event recorded since it
was last drained, and after a replay it is empty (`EnqueueDefinition.lockstep`). A
body that records an event of its own breaks this, and so does one that ends the
replay it runs in (`EnqueueDefinition.not_lockstep`).

A guard and a body see the whole aggregate. What a body may change is the own
fields and the entity.
-/

/-- **`LocalEvent`.** -/
structure LocalEvent where
  eventType : String
  data : String
deriving DecidableEq

/-- **`EntityEmitter`**: an entity of its own, of which it uses the replaying flag,
and the queue. Its listeners are kept by another crate, and are left out. -/
structure EntityEmitter where
  entity : Entity
  eventsToEmit : List LocalEvent
deriving DecidableEq

namespace EntityEmitter

/-- `EntityEmitter::new`. -/
def new (entity : Entity) : EntityEmitter := ⟨entity, []⟩

/-- `EntityEmitter::default`. -/
def default : EntityEmitter := new Entity.new

/-- `is_replaying`. -/
def isReplaying (m : EntityEmitter) : Bool := m.entity.replaying

/-- `enqueue`. -/
def enqueue (m : EntityEmitter) (eventType data : String) : EntityEmitter :=
  if m.isReplaying then m
  else { m with eventsToEmit := m.eventsToEmit ++ [⟨eventType, data⟩] }

/-- `enqueue_with`, where `toJson` is `serde_json::to_string`; a payload that cannot
be encoded gives the empty text. -/
def enqueueWith {T : Type} (m : EntityEmitter) (toJson : T → Option String) (eventType : String)
    (payload : T) : EntityEmitter :=
  if m.isReplaying then m
  else { m with eventsToEmit := m.eventsToEmit ++ [⟨eventType, (toJson payload).getD ""⟩] }

/-- `drain_queued_events`. -/
def drainQueuedEvents (m : EntityEmitter) : List LocalEvent × EntityEmitter :=
  (m.eventsToEmit, { m with eventsToEmit := [] })

/-- `emit_queued`: the events emitted, in order, and the emitter. -/
def emitQueued (m : EntityEmitter) : List LocalEvent × EntityEmitter :=
  let (events, m) := m.drainQueuedEvents
  (events, m)

end EntityEmitter

/-- **The fields of an aggregate with an emitter**, its entity apart. -/
structure Emitting (σ : Type) where
  own : σ
  emitter : EntityEmitter
deriving DecidableEq

/-- An aggregate with its emitter replaced. -/
def Agg.withEmitter {σ : Type} (a : Agg (Emitting σ)) (emitter : EntityEmitter) :
    Agg (Emitting σ) :=
  ⟨⟨a.fields.own, emitter⟩, a.entity⟩

/-! ## The methods -/

namespace Params

variable {T : Type}

/-- The data of an item with these parameters: the empty text where there are none,
and else their JSON. -/
def data : Params T → (T → Option String) → T → String
  | .none _, _, _ => ""
  | .tuple _, toJson, x => (toJson x).getD ""

/-- The enqueueing of an event with these parameters. -/
def enqueueExpr : Params T → (T → Option String) → String → T → EntityEmitter → EntityEmitter
  | .none _, _, name, _, emitter => emitter.enqueue name ""
  | .tuple _, toJson, name, x, emitter => emitter.enqueueWith toJson name x

theorem enqueueExpr_eq (p : Params T) {emitter : EntityEmitter} (h : emitter.isReplaying = false)
    (toJson : T → Option String) (name : String) (x : T) :
    p.enqueueExpr toJson name x emitter
      = { emitter with eventsToEmit := emitter.eventsToEmit ++ [⟨name, p.data toJson x⟩] } := by
  cases p with
  | none c => exact if_neg (by rw [h]; exact Bool.false_ne_true)
  | tuple c => exact if_neg (by rw [h]; exact Bool.false_ne_true)

end Params

/-- **An event method of `#[sourced(entity, enqueue)]`.** -/
structure EnqueueMethod (σ : Type) where
  name : String
  version : Option ℕ
  Args : Type
  params : Params Args
  /-- `serde_json::to_string` of the tuple of the parameters. -/
  toJson : Args → Option String
  guard : Agg (Emitting σ) → Args → Bool
  /-- The body, at a clock reading; `none` is a panic. -/
  body : SystemTime → Agg (Emitting σ) → Args → Option (σ × Entity)

namespace EnqueueMethod

variable {σ : Type} (m : EnqueueMethod σ)

/-- The data of the item a call enqueues. -/
def data (x : m.Args) : String := m.params.data m.toJson x

/-- `generate_enqueue_call`. -/
def enqueueCall (x : m.Args) (a : Agg (Emitting σ)) : Agg (Emitting σ) :=
  if !a.entity.replaying then
    a.withEmitter (m.params.enqueueExpr m.toJson m.name x a.fields.emitter)
  else a

/-- `generate_digest_call`. -/
def digestCall (now : SystemTime) (x : m.Args) (a : Agg (Emitting σ)) : Agg (Emitting σ) :=
  { a with entity := a.entity.digestAt now m.name (m.version.getD 1) m.params.codec x }

/-- What is prepended to the body. -/
def prepend (now : SystemTime) (x : m.Args) (a : Agg (Emitting σ)) : Agg (Emitting σ) :=
  m.digestCall now x (m.enqueueCall x a)

/-- **The generated method**: under the guard, the event is enqueued and recorded, and
then the body runs. -/
def call (now : SystemTime) (x : m.Args) (a : Agg (Emitting σ)) : Option (Agg (Emitting σ)) :=
  if m.guard a x then
    (m.body now (m.prepend now x a) x).map (fun r =>
      ⟨⟨r.1, (m.prepend now x a).fields.emitter⟩, r.2⟩)
  else some a

/-- **The generated `replay_event`.** -/
def replayEvent (ms : List (EnqueueMethod σ)) (now : SystemTime) (e : EventRecord)
    (a : Agg (Emitting σ)) : Res String (Agg (Emitting σ)) :=
  match ms.find? (fun m => m.name = e.eventName) with
  | none => .error (.err ("Unknown event: " ++ e.eventName))
  | some m =>
    match m.params.decode e with
    | .error msg => .error (.err msg)
    | .ok x =>
      match m.call now x a with
      | none => .error .panic
      | some a' => .ok a'

/-- **The body leaves alone what is recorded** and the entity's replaying flag. -/
def KeepsRecorded : Prop :=
  ∀ now a x r, m.body now a x = some r →
    r.2.events = a.entity.events ∧ r.2.replaying = a.entity.replaying

/-! ### One call -/

variable {m} {now : SystemTime} {x : m.Args} {a a' : Agg (Emitting σ)}

theorem prepend_of_replaying (h : a.entity.replaying = true) : m.prepend now x a = a := by
  have henqueue : m.enqueueCall x a = a := by
    unfold enqueueCall
    rw [h]
    rfl
  unfold prepend digestCall
  rw [henqueue, Entity.digestAt_of_replaying h]

/-- Outside a replay an item is enqueued. -/
theorem emitter_prepend (ha : a.entity.replaying = false) (hm : a.fields.emitter.isReplaying = false) :
    (m.prepend now x a).fields.emitter = { a.fields.emitter with
      eventsToEmit := a.fields.emitter.eventsToEmit ++ [⟨m.name, m.data x⟩] } := by
  have henqueue : m.enqueueCall x a
      = a.withEmitter (m.params.enqueueExpr m.toJson m.name x a.fields.emitter) := by
    unfold enqueueCall
    rw [ha]
    rfl
  unfold prepend
  rw [henqueue, Params.enqueueExpr_eq _ hm]
  rfl

theorem entity_prepend (m : EnqueueMethod σ) (now : SystemTime) (x : m.Args) (a : Agg (Emitting σ)) :
    (m.prepend now x a).entity
      = a.entity.digestAt now m.name (m.version.getD 1) m.params.codec x := by
  have henqueue : (m.enqueueCall x a).entity = a.entity := by
    unfold enqueueCall
    split <;> rfl
  show (m.enqueueCall x a).entity.digestAt now m.name (m.version.getD 1) m.params.codec x = _
  rw [henqueue]

/-- **What a call does**: nothing where the guard rejects it, and else what is
prepended, with the body after it. -/
theorem call_cases (hm : m.KeepsRecorded) (h : m.call now x a = some a') :
    a' = a ∨ a'.fields.emitter = (m.prepend now x a).fields.emitter
      ∧ a'.entity.events = (m.prepend now x a).entity.events
      ∧ a'.entity.replaying = (m.prepend now x a).entity.replaying := by
  unfold call at h
  by_cases hg : m.guard a x = true
  · rw [if_pos hg] at h
    obtain ⟨r, hbody, rfl⟩ := Option.map_eq_some_iff.mp h
    exact Or.inr ⟨rfl, hm _ _ _ _ hbody⟩
  · rw [if_neg hg] at h
    exact Or.inl (Option.some.inj h).symm

end EnqueueMethod

/-- **The definition of an aggregate** made by `#[sourced(entity, enqueue)]`, or with a
custom emitter field. Its default has a new entity and a new emitter. -/
structure EnqueueDefinition (σ : Type) where
  default : σ
  methods : List (EnqueueMethod σ)
  upcasters : List EventUpcaster

namespace EnqueueDefinition

variable {σ : Type} (D : EnqueueDefinition σ)

/-- The generated implementation of the trait `Aggregate`. -/
def aggregate : Aggregate (Emitting σ) where
  default := ⟨D.default, EntityEmitter.default⟩
  replayEvent := EnqueueMethod.replayEvent D.methods
  upcasters := D.upcasters

/-- **A call of an event method**, which does not panic. -/
def Calls (a b : Agg (Emitting σ)) : Prop :=
  ∃ m ∈ D.methods, ∃ (now : SystemTime) (x : m.Args), m.call now x a = some b

end EnqueueDefinition

/-! ## An aggregate in use -/

/-- **An aggregate, with the number of events it had** when its queue was last
drained, or when it was loaded. -/
structure Emitted (σ : Type) where
  agg : Agg (Emitting σ)
  since : ℕ

namespace Emitted

variable {σ : Type}

/-- The queue of local events. -/
def queue (a : Emitted σ) : List LocalEvent := a.agg.fields.emitter.eventsToEmit

/-- The events recorded since the queue was last drained. -/
def recorded (a : Emitted σ) : List EventRecord := a.agg.entity.events.drop a.since

/-- **A step of a client**, of an aggregate with these calls and this implementation of the
trait. -/
inductive Step (calls : Agg (Emitting σ) → Agg (Emitting σ) → Prop) (A : Aggregate (Emitting σ)) :
    Emitted σ → Emitted σ → Prop where
  /-- A call of a method. -/
  | call (a : Emitted σ) (agg : Agg (Emitting σ)) (h : calls a.agg agg) : Step calls A a ⟨agg, a.since⟩
  /-- A commit, by itself or with other entities, to any store, whatever comes of it. -/
  | commit (a : Emitted σ) (s : EventStore) (es : List Entity) (e : Entity)
      (h : (a.agg.entity, e) ∈ es.zip (s.commit es).2.1) : Step calls A a ⟨⟨a.agg.fields, e⟩, a.since⟩
  /-- `drain_queued_events`. -/
  | drain (a : Emitted σ) : Step calls A a
      ⟨a.agg.withEmitter a.agg.fields.emitter.drainQueuedEvents.2, a.agg.entity.events.length⟩
  /-- `emit_queued`. -/
  | emit (a : Emitted σ) : Step calls A a
      ⟨a.agg.withEmitter a.agg.fields.emitter.emitQueued.2, a.agg.entity.events.length⟩
  /-- A load, of any entity. -/
  | load (a : Emitted σ) (entity : Entity) (now : SystemTime) (agg : Agg (Emitting σ))
      (h : A.hydrate now entity = .ok agg) : Step calls A a ⟨agg, agg.entity.events.length⟩

/-- **A run of a client**, beginning with a new aggregate. -/
def Run (D : EnqueueDefinition σ) (a : Emitted σ) : Prop :=
  Relation.ReflTransGen (Step D.Calls D.aggregate) ⟨D.aggregate.newEmpty, 0⟩ a

end Emitted

namespace EnqueueDefinition

variable {σ : Type} {D : EnqueueDefinition σ}

/-- **An item and an event of one call**: the item has the event's name, and the JSON
of the parameters of which the event has the payload. -/
def OneCall (D : EnqueueDefinition σ) (item : LocalEvent) (e : EventRecord) : Prop :=
  ∃ m ∈ D.methods, ∃ x : m.Args, item = ⟨m.name, m.data x⟩ ∧ e.eventName = m.name
    ∧ e.payload = m.params.codec.serialize x

/-! ### The replay -/

/-- A replayed event enqueues nothing and leaves the replay on. -/
theorem emitter_replayEvent (hD : ∀ m ∈ D.methods, m.KeepsRecorded) {now : SystemTime}
    {e : EventRecord} {a b : Agg (Emitting σ)} (ha : a.entity.replaying = true)
    (h : D.aggregate.replayEvent now e a = .ok b) :
    b.fields.emitter = a.fields.emitter ∧ b.entity.replaying = true := by
  change EnqueueMethod.replayEvent D.methods now e a = .ok b at h
  unfold EnqueueMethod.replayEvent at h
  cases hfind : D.methods.find? (fun m => m.name = e.eventName) with
  | none => rw [hfind] at h; cases h
  | some m =>
    rw [hfind] at h
    dsimp only at h
    cases hdecode : m.params.decode e with
    | error msg => rw [hdecode] at h; cases h
    | ok x =>
      rw [hdecode] at h
      dsimp only at h
      cases hcall : m.call now x a with
      | none => rw [hcall] at h; cases h
      | some a' =>
        rw [hcall] at h
        obtain rfl : a' = b := Except.ok.inj h
        rcases EnqueueMethod.call_cases (hD m (List.mem_of_find?_eq_some hfind)) hcall with
          rfl | ⟨hemitter, -, hreplaying⟩
        · exact ⟨rfl, ha⟩
        · rw [EnqueueMethod.prepend_of_replaying ha] at hemitter hreplaying
          exact ⟨hemitter, hreplaying.trans ha⟩

/-- **A replay enqueues nothing.** -/
theorem emitter_replayAll (hD : ∀ m ∈ D.methods, m.KeepsRecorded) {now : SystemTime}
    {es : List EventRecord} {a b : Agg (Emitting σ)} (ha : a.entity.replaying = true)
    (h : D.aggregate.replayAll now es a = .ok b) : b.fields.emitter = a.fields.emitter := by
  induction es generalizing a with
  | nil => exact (congrArg (fun a => a.fields.emitter) (Except.ok.inj h)).symm
  | cons e es ih =>
    rw [Aggregate.replayAll_cons] at h
    cases hreplay : D.aggregate.replayEvent now e a with
    | error f => rw [hreplay] at h; cases h
    | ok a' =>
      rw [hreplay] at h
      obtain ⟨hemitter, hreplaying⟩ := emitter_replayEvent hD ha hreplay
      exact (ih hreplaying h).trans hemitter

/-- **A hydrated aggregate has a new emitter.** -/
theorem emitter_hydrate (hD : ∀ m ∈ D.methods, m.KeepsRecorded) {now : SystemTime} {entity : Entity}
    {a : Agg (Emitting σ)} (h : D.aggregate.hydrate now entity = .ok a) :
    a.fields.emitter = EntityEmitter.default := by
  obtain ⟨es, b, -, hreplay, rfl⟩ := (D.aggregate.hydrate_eq_ok now).mp h
  exact emitter_replayAll hD rfl hreplay

end EnqueueDefinition

/-! ### What a commit does to an entity -/

/-- **A commit leaves every entity as it was, or marked**, however it ends. -/
theorem EventStore.commit_marks (s : EventStore) (es : List Entity) :
    List.Forall₂ (fun e e' => e' = e ∨ e' = e.markCommitted) es (s.commit es).2.1 := by
  have hsame : ∀ es : List Entity,
      List.Forall₂ (fun e e' => e' = e ∨ e' = e.markCommitted) es es :=
    fun es => List.forall₂_same.mpr (fun e _ => Or.inl rfl)
  have happend : ∀ (s : EventStore) (es : List Entity),
      List.Forall₂ (fun e e' => e' = e ∨ e' = e.markCommitted) es (s.append es).2.1 := by
    intro s es
    induction es generalizing s with
    | nil => exact .nil
    | cons e es ih =>
      rw [append]
      cases e.newEvents with
      | none => exact hsame (e :: es)
      | some new => exact .cons (Or.inr rfl) (ih (s.extend e.id new))
  unfold commit
  split
  · exact hsame es
  · split
    · exact hsame es
    · exact happend s es

/-! ## Lockstep -/

namespace EnqueueDefinition

variable {σ : Type} {D : EnqueueDefinition σ}

/-- **The queue holds an item for every event recorded since it was drained.** -/
structure InStep (D : EnqueueDefinition σ) (a : Emitted σ) : Prop where
  idle : a.agg.fields.emitter.isReplaying = false
  since_le : a.since ≤ a.agg.entity.events.length
  matched : List.Forall₂ D.OneCall a.queue a.recorded

namespace InStep

variable {a a' : Emitted σ}

theorem drained {agg : Agg (Emitting σ)} (hidle : agg.fields.emitter.isReplaying = false)
    (hqueue : agg.fields.emitter.eventsToEmit = []) : D.InStep ⟨agg, agg.entity.events.length⟩ := by
  refine ⟨hidle, le_rfl, ?_⟩
  show List.Forall₂ D.OneCall agg.fields.emitter.eventsToEmit (agg.entity.events.drop _)
  rw [hqueue, List.drop_length]
  exact .nil

/-- **A call enqueues and records, or does neither.** -/
theorem call (ha : D.InStep a) {m : EnqueueMethod σ} (hm : m ∈ D.methods) (hkeeps : m.KeepsRecorded)
    {now : SystemTime} {x : m.Args} {agg : Agg (Emitting σ)}
    (h : m.call now x a.agg = some agg) : D.InStep ⟨agg, a.since⟩ := by
  rcases EnqueueMethod.call_cases hkeeps h with rfl | ⟨hemitter, hevents, -⟩
  · exact ha
  · cases hr : a.agg.entity.replaying with
    | true =>
      rw [EnqueueMethod.prepend_of_replaying hr] at hemitter hevents
      refine ⟨?_, ?_, ?_⟩
      · rw [hemitter]
        exact ha.idle
      · rw [hevents]
        exact ha.since_le
      · unfold Emitted.queue Emitted.recorded
        rw [hemitter, hevents]
        exact ha.matched
    | false =>
      rw [EnqueueMethod.emitter_prepend hr ha.idle] at hemitter
      rw [EnqueueMethod.entity_prepend, Entity.digestAt_eq hr] at hevents
      refine ⟨?_, ?_, ?_⟩
      · rw [hemitter]
        exact ha.idle
      · rw [hevents]
        exact ha.since_le.trans (by simp)
      · unfold Emitted.queue Emitted.recorded
        rw [hemitter, hevents]
        dsimp only
        rw [List.drop_append_of_le_length ha.since_le]
        exact List.rel_append ha.matched (.cons ⟨m, hm, x, rfl, rfl, rfl⟩ .nil)

/-- **Every step keeps the two in lockstep.** -/
theorem step (hD : ∀ m ∈ D.methods, m.KeepsRecorded) (ha : D.InStep a)
    (h : Emitted.Step D.Calls D.aggregate a a') : D.InStep a' := by
  cases h with
  | call agg hcalls =>
    obtain ⟨m, hm, now, x, hcall⟩ := hcalls
    exact ha.call hm (hD m hm) hcall
  | commit s es e hmem =>
    have hmark := List.forall₂_zip (s.commit_marks es) hmem
    have hevents : e.events = a.agg.entity.events := by
      rcases hmark with rfl | rfl <;> rfl
    refine ⟨ha.idle, ?_, ?_⟩
    · rw [hevents]
      exact ha.since_le
    · show List.Forall₂ D.OneCall a.queue (e.events.drop a.since)
      rw [hevents]
      exact ha.matched
  | drain => exact drained ha.idle rfl
  | emit => exact drained ha.idle rfl
  | load entity now agg hload =>
    have hemitter := emitter_hydrate hD hload
    exact drained (by rw [hemitter]; rfl) (by rw [hemitter]; rfl)

theorem run (hD : ∀ m ∈ D.methods, m.KeepsRecorded) (h : Emitted.Run D a) : D.InStep a := by
  induction h with
  | refl => exact drained rfl rfl
  | tail _ hstep ih => exact ih.step hD hstep

end InStep

/-- **Recorded and enqueued events stay in lockstep**, for all guards, parameters and
bodies that leave alone what is recorded and the replaying flag. In every run the
queue holds, in order, an item for every event recorded since it was last drained or
since the load, with its name and the JSON of its parameters; and a hydrated
aggregate has an empty queue. -/
theorem lockstep (hD : ∀ m ∈ D.methods, m.KeepsRecorded) :
    (∀ a, Emitted.Run D a → List.Forall₂ D.OneCall a.queue a.recorded
        ∧ a.queue.map LocalEvent.eventType = a.recorded.map EventRecord.eventName)
      ∧ ∀ now entity agg, D.aggregate.hydrate now entity = .ok agg →
        agg.fields.emitter.eventsToEmit = [] := by
  refine ⟨fun a ha => ?_, fun now entity agg h => ?_⟩
  · have hmatched := (InStep.run hD ha).matched
    refine ⟨hmatched, ?_⟩
    refine List.forall₂_eq_eq_eq ▸ List.forall₂_map_left_iff.mpr (List.forall₂_map_right_iff.mpr ?_)
    refine hmatched.imp (fun item e hone => ?_)
    obtain ⟨m, -, x, rfl, hname, -⟩ := hone
    exact hname.symm
  · rw [emitter_hydrate hD h]
    rfl

/-- A text as its codes. -/
def ascii : Bitcode String where
  serialize text := text.toList.map (fun c => c.toNat.toUInt8)
  deserialize bytes := .ok (String.ofList (bytes.map (fun b => Char.ofNat b.toNat)))

/-- The method that creates an order for a customer. -/
def orderCreated : EnqueueMethod String where
  name := "OrderCreated"
  version := none
  Args := String
  params := .tuple ascii
  toJson customer := some ("[\"" ++ customer ++ "\"]")
  guard := fun _ _ => true
  body := fun _ a _ => some ("created", a.entity.setId "order-1")

/-- The method that confirms an order that was created. -/
def orderConfirmed : EnqueueMethod String where
  name := "OrderConfirmed"
  version := none
  Args := Unit
  params := .none Bitcode.unit
  toJson := fun _ => some "null"
  guard := fun a _ => a.fields.own = "created"
  body := fun _ a _ => some ("confirmed", a.entity)

/-- An order. -/
def order : EnqueueDefinition String := ⟨"", [orderCreated, orderConfirmed], []⟩

/-- **An order is created, and confirmed twice.** The guard rejects the second
confirmation, and neither is it enqueued. -/
theorem lockstep_order : ∃ a : Emitted String, Emitted.Run order a
    ∧ a.agg.entity.events.length = 2
    ∧ a.queue = [⟨"OrderCreated", "[\"alice\"]"⟩, ⟨"OrderConfirmed", ""⟩]
    ∧ a.queue.map LocalEvent.eventType = a.recorded.map EventRecord.eventName := by
  have hD : ∀ m ∈ order.methods, m.KeepsRecorded := by
    intro m hm now a x r hbody
    simp only [order, List.mem_cons, List.not_mem_nil, or_false] at hm
    rcases hm with rfl | rfl <;> (obtain rfl := Option.some.inj hbody; exact ⟨rfl, rfl⟩)
  have h₀ : Emitted.Run order ⟨order.aggregate.newEmpty, 0⟩ := .refl
  have h₁ := h₀.tail (.call _ _ ⟨orderCreated, List.mem_cons_self, SystemTime.unixEpoch, "alice", rfl⟩)
  have hconfirmed : orderConfirmed ∈ order.methods := List.mem_cons_of_mem _ List.mem_cons_self
  have h₂ := h₁.tail (.call _ _ ⟨orderConfirmed, hconfirmed, SystemTime.unixEpoch, (), rfl⟩)
  have h₃ := h₂.tail (.call _ _ ⟨orderConfirmed, hconfirmed, SystemTime.unixEpoch, (), rfl⟩)
  exact ⟨_, h₃, rfl, rfl, ((lockstep hD).1 _ h₃).2⟩

/-- An account, opened by a method with this body. -/
def opening (body : SystemTime → Entity → Entity) : EnqueueDefinition Unit :=
  ⟨(), [{
    name := "Opened"
    version := none
    Args := Unit
    params := .none Bitcode.unit
    toJson := fun _ => some "null"
    guard := fun _ _ => true
    body := fun now a _ => some ((), body now a.entity) }], []⟩

/-- **Bodies that do not touch the emitter, and break the lockstep.** One records an
event of its own, which is not enqueued. The other takes back the replaying flag, so
that hydrating an account opened twice enqueues the second event again. -/
theorem not_lockstep :
    (∃ a, Emitted.Run (opening fun now e => e.digestEmpty now "Audited" Bitcode.unit) a
      ∧ a.queue.map LocalEvent.eventType = ["Opened"]
      ∧ a.recorded.map EventRecord.eventName = ["Opened", "Audited"])
    ∧ ∃ a entity agg, Emitted.Run (opening fun _ e => e.setReplaying false) a
      ∧ (EventStore.new.commit [a.agg.entity]).2.2.getOne a.agg.entity.id = .ok (some entity)
      ∧ (opening fun _ e => e.setReplaying false).aggregate.hydrate SystemTime.unixEpoch entity
        = .ok agg
      ∧ agg.fields.emitter.eventsToEmit = [⟨"Opened", ""⟩] := by
  refine ⟨⟨_, .tail .refl (.call _ _ ⟨_, List.mem_cons_self, SystemTime.unixEpoch, (), rfl⟩), rfl,
    rfl⟩, ?_⟩
  have h₀ : Emitted.Run (opening fun _ e => e.setReplaying false)
      ⟨(opening fun _ e => e.setReplaying false).aggregate.newEmpty, 0⟩ := .refl
  have h₁ := h₀.tail (.call _ _ ⟨_, List.mem_cons_self, SystemTime.unixEpoch, (), rfl⟩)
  have h₂ := h₁.tail (.call _ _ ⟨_, List.mem_cons_self, SystemTime.unixEpoch, (), rfl⟩)
  exact ⟨_, _, _, h₂, rfl, rfl, rfl⟩

end EnqueueDefinition
