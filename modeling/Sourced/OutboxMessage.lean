import Sourced.EventMethod
import Sourced.SnapshotRepository
import Mathlib.Logic.Equiv.List
import Mathlib.Data.Countable.Basic

/-!
# Outbox messages

A message waiting to be published is itself an event-sourced aggregate
(`outbox/message.rs`): it is created, claimed by a worker, and then published,
released for another try, or failed. Its stream is stored under its id among the
streams of all other aggregates; that it is a message is told by the id, which
starts with `"outbox:"`.

What the events of a message say of it is its `Story`: how each of them took
effect on the fields the ones before had left. The methods look at nothing of
the entity, so a story replays to the same fields in whatever entity it is
loaded into (`OutboxMessage.Story.hydrate`) – but for `created_at`, which a
replay reads from the clock again.
-/

/-- **`OutboxMessageStatus`.** -/
inductive OutboxMessageStatus where
  | pending
  | inFlight
  | published
  | failed
deriving DecidableEq, Repr

/-- **The own fields of `OutboxMessage`.** -/
structure OutboxMessage where
  eventType : String
  payload : Bytes
  status : OutboxMessageStatus
  createdAt : SystemTime
  attempts : ℕ
  lastError : Option String
  workerId : Option String
  leasedUntil : Option SystemTime
  destination : Option String
  metadata : Metadata
deriving DecidableEq

/-- `u32` addition; `none` is the panic. -/
def addU32 (checks : OverflowChecks) (a b : ℕ) : Option ℕ :=
  if a + b < 2 ^ 32 then some (a + b)
  else if checks then none
  else some ((a + b) % 2 ^ 32)

theorem addU32_one_of_lt {checks : OverflowChecks} {n : ℕ} (h : n + 1 < 2 ^ 32) :
    addU32 checks n 1 = some (n + 1) := if_pos h

/-- The addition of one panics only where it overflows and this is checked. -/
theorem addU32_one_eq_none {checks : OverflowChecks} {n : ℕ} :
    addU32 checks n 1 = none ↔ checks = true ∧ ¬ n + 1 < 2 ^ 32 := by
  unfold addU32
  by_cases h : n + 1 < 2 ^ 32
  · rw [if_pos h]
    exact ⟨fun h' => (nomatch h'), fun h' => absurd h h'.2⟩
  · rw [if_neg h]
    cases checks with
    | true => exact ⟨fun _ => ⟨rfl, h⟩, fun _ => rfl⟩
    | false => exact ⟨fun h' => (nomatch h'), fun h' => absurd h'.1 Bool.false_ne_true⟩

namespace OutboxMessage

/-- `OutboxMessage::default`, without its entity. -/
def default : OutboxMessage :=
  ⟨"", [], .pending, SystemTime.unixEpoch, 0, none, none, none, none, ∅⟩

/-! ## Ids -/

/-- `OutboxMessage::ID_PREFIX`. -/
def idPrefix : String := "outbox:"

/-- `id.starts_with(OutboxMessage::ID_PREFIX)`. -/
def hasPrefix (id : String) : Bool := idPrefix.toList.isPrefixOf id.toList

/-- `OutboxMessage::normalize_id`. -/
def normalizeId (id : String) : String := if hasPrefix id then id else idPrefix ++ id

/-- The id of a message starts with the prefix. -/
@[simp] theorem hasPrefix_normalizeId (id : String) : hasPrefix (normalizeId id) = true := by
  unfold normalizeId
  by_cases h : hasPrefix id = true
  · rw [if_pos h]
    exact h
  · rw [if_neg h]
    unfold hasPrefix
    rw [String.toList_append]
    simp

theorem normalizeId_of_hasPrefix {id : String} (h : hasPrefix id = true) : normalizeId id = id :=
  if_pos h

/-! ## Getters -/

variable (m : OutboxMessage)

/-- `is_pending`. -/
def isPending : Bool := m.status = .pending

/-- `is_in_flight`. -/
def isInFlight : Bool := m.status = .inFlight

/-- `is_published`. -/
def isPublished : Bool := m.status = .published

/-- `is_failed`. -/
def isFailed : Bool := m.status = .failed

/-- `can_fail`. -/
def canFail : Bool := m.status ≠ .published ∧ m.status ≠ .failed

/-! ## The event methods -/

/-- The codecs of the payloads of a message's events. -/
structure Codecs where
  created : Bitcode (String × String × Bytes × Option String × Metadata)
  claimed : Bitcode (String × UInt64)
  published : Bitcode Unit
  error : Bitcode String

/-- Every payload decodes to what was encoded. -/
structure Codecs.Lawful (C : Codecs) : Prop where
  created : C.created.Lawful
  claimed : C.claimed.Lawful
  published : C.published.Lawful
  error : C.error.Lawful

open Classical in
/-- A codec for any countable type: a value is its number, written in unary. -/
noncomputable def numbered (T : Type) [Countable T] : Bitcode T where
  serialize x := List.replicate ((exists_injective_nat T).choose x) 0
  deserialize bytes :=
    if h : ∃ x, (exists_injective_nat T).choose x = bytes.length then .ok h.choose
    else .error "no value has this number"

theorem numbered_lawful (T : Type) [Countable T] : (numbered T).Lawful := by
  intro x
  have h : ∃ y, (exists_injective_nat T).choose y
      = (List.replicate ((exists_injective_nat T).choose x) (0 : UInt8)).length :=
    ⟨x, List.length_replicate.symm⟩
  have hx : h.choose = x :=
    (exists_injective_nat T).choose_spec (h.choose_spec.trans List.length_replicate)
  exact (dif_pos h).trans (congrArg Except.ok hx)

instance : Countable Char := Function.Injective.countable (f := Char.toNat) (fun _ _ => Char.toNat_inj.mp)

instance : Countable String :=
  Function.Injective.countable (f := String.toList) (fun _ _ => String.toList_inj.mp)

instance : Countable UInt8 := Function.Injective.countable (f := UInt8.toNat) (fun _ _ => UInt8.toNat_inj.mp)

instance : Countable UInt64 :=
  Function.Injective.countable (f := UInt64.toNat) (fun _ _ => UInt64.toNat_inj.mp)

instance : Countable Metadata :=
  Function.Injective.countable (f := Finmap.entries) (fun _ _ => Finmap.ext)

/-- Codecs that number the payloads. -/
noncomputable def Codecs.counting : Codecs :=
  ⟨numbered _, numbered _, Bitcode.unit, numbered _⟩

theorem Codecs.counting_lawful : counting.Lawful :=
  ⟨numbered_lawful _, numbered_lawful _, fun _ => rfl, numbered_lawful _⟩

/-- `if error.is_empty() { None } else { Some(error) }`. -/
def errorText (error : String) : Option String := if error = "" then none else some error

variable (checks : OverflowChecks) (C : Codecs)

/-- **`initialize`**: the message is given its id, normalized, and its content. -/
def initializeMessage : EventMethod OutboxMessage where
  name := "MessageCreated"
  version := none
  Args := String × String × Bytes × Option String × Metadata
  params := .tuple C.created
  guard := fun _ _ _ => true
  body := fun now m _ (id, eventType, payload, destination, metadata) =>
    some ({ m with
      eventType := eventType
      payload := payload
      destination := destination
      metadata := metadata
      status := .pending
      createdAt := now }, some (normalizeId id))

/-- `SystemTime::UNIX_EPOCH + Duration::from_secs(until_secs)`; `none` is the panic. -/
@[irreducible] def untilTime (untilSecs : UInt64) : Option SystemTime :=
  SystemTime.unixEpoch.add (.fromSecs untilSecs.toNat untilSecs.toNat_lt)

/-- The message after a claim; `none` is a panic. -/
def afterClaim (m : OutboxMessage) (workerId : String) (untilSecs : UInt64) : Option OutboxMessage :=
  (untilTime untilSecs).bind (fun leasedUntil => (addU32 checks m.attempts 1).map (fun attempts =>
    { m with
      status := .inFlight
      attempts := attempts
      workerId := some workerId
      leasedUntil := some leasedUntil }))

/-- **`claim`.** -/
def claim : EventMethod OutboxMessage where
  name := "MessageClaimed"
  version := none
  Args := String × UInt64
  params := .tuple C.claimed
  guard := fun m _ _ => m.isPending
  body := fun _ m _ x => (m.afterClaim checks x.1 x.2).map (fun m' => (m', none))

/-- The message, no longer anybody's, with another status. -/
def settle (m : OutboxMessage) (status : OutboxMessageStatus) (lastError : Option String) :
    OutboxMessage :=
  { m with status := status, lastError := lastError, workerId := none, leasedUntil := none }

/-- **`complete`.** -/
def complete : EventMethod OutboxMessage where
  name := "MessagePublished"
  version := none
  Args := Unit
  params := .none C.published
  guard := fun m _ _ => m.isInFlight
  body := fun _ m _ _ => some (m.settle .published m.lastError, none)

/-- **`release`.** -/
def release : EventMethod OutboxMessage where
  name := "MessageReleased"
  version := none
  Args := String
  params := .tuple C.error
  guard := fun m _ _ => m.isInFlight
  body := fun _ m _ error => some (m.settle .pending (errorText error), none)

/-- **`fail`.** -/
def fail : EventMethod OutboxMessage where
  name := "MessageFailed"
  version := none
  Args := String
  params := .tuple C.error
  guard := fun m _ _ => m.canFail
  body := fun _ m _ error => some (m.settle .failed (errorText error), none)

/-- The methods that a message can be through after it was created. -/
def later : List (EventMethod OutboxMessage) := [claim checks C, complete C, release C, fail C]

/-- **The aggregate `OutboxMessage`.** -/
def definition : Definition OutboxMessage := ⟨default, initializeMessage C :: later checks C, []⟩

/-- The definition meets what is promised of definitions. -/
theorem definition_wellFormed (hC : C.Lawful) : (definition checks C).WellFormed := by
  refine ⟨show ["MessageCreated", "MessageClaimed", "MessagePublished", "MessageReleased",
    "MessageFailed"].Nodup by decide, fun m hm => ?_⟩
  simp only [definition, later, List.mem_cons, List.not_mem_nil, or_false] at hm
  rcases hm with rfl | rfl | rfl | rfl | rfl
  · exact hC.created
  · exact hC.claimed
  · exact hC.published
  · exact hC.error
  · exact hC.error

/-! ## Constructors and convenience methods -/

/-- `OutboxMessage::new` and a call of `initialize`, which is how every constructor
makes a message. -/
def construct (now : SystemTime) (id eventType : String) (payload : Bytes)
    (destination : Option String) (metadata : Metadata) : Option (Agg OutboxMessage) :=
  (initializeMessage C).call now (id, eventType, payload, destination, metadata) ⟨default, Entity.new⟩

/-- `OutboxMessage::create`. -/
def create (now : SystemTime) (id eventType : String) (payload : Bytes) :
    Option (Agg OutboxMessage) :=
  construct C now id eventType payload none ∅

/-- `OutboxMessage::create_to`. -/
def createTo (now : SystemTime) (id eventType destination : String) (payload : Bytes) :
    Option (Agg OutboxMessage) :=
  construct C now id eventType payload (some destination) ∅

/-- `OutboxMessage::create_with_metadata`. -/
def createWithMetadata (now : SystemTime) (id eventType : String) (payload : Bytes)
    (metadata : Metadata) : Option (Agg OutboxMessage) :=
  construct C now id eventType payload none metadata

/-- The clock readings made while one message is handled: by its replay, for its
lease, and for the record of the event. -/
structure Readings where
  replay : SystemTime
  lease : SystemTime
  record : SystemTime

/-- **`claim_for`**; `none` is a panic, of the addition of the lease or of the claim. -/
def claimFor (t : Readings) (workerId : String) (lease : Duration) (m : Agg OutboxMessage) :
    Option (Agg OutboxMessage) :=
  (t.lease.add lease).bind (fun leasedUntil =>
    (claim checks C).call t.record (workerId, UInt64.ofNat leasedUntil.secsSinceEpoch) m)

/-! ## What the methods look at -/

/-- **The message as a client has it**: `created_at` is when the client created or
loaded it, and the metadata can be set without an event. -/
def inHand (m : OutboxMessage) (createdAt : SystemTime) (metadata : Metadata) : OutboxMessage :=
  { m with createdAt := createdAt, metadata := metadata }

variable {checks C m}

theorem isSome_untilTime (t : SystemTime) :
    (untilTime (UInt64.ofNat t.secsSinceEpoch)).isSome := by
  unfold untilTime
  refine SystemTime.isSome_unixEpoch_add _ ?_
  rw [UInt64.toNat_ofNat']
  exact (Nat.mod_le _ _).trans_lt t.secsSinceEpoch_lt

/-- **A claim panics** only where the attempts cannot be counted. -/
theorem isSome_afterClaim (checks : OverflowChecks) (m : OutboxMessage) (workerId : String) (t : SystemTime) :
    (m.afterClaim checks workerId (UInt64.ofNat t.secsSinceEpoch)).isSome
      = (addU32 checks m.attempts 1).isSome := by
  unfold afterClaim
  obtain ⟨leasedUntil, h⟩ := Option.isSome_iff_exists.mp (isSome_untilTime t)
  rw [h]
  cases addU32 checks m.attempts 1 <;> rfl

/-- A claim looks at nothing of `created_at` and the metadata. -/
theorem afterClaim_inHand (m : OutboxMessage) (t : SystemTime) (d : Metadata) (workerId : String)
    (untilSecs : UInt64) :
    (m.inHand t d).afterClaim checks workerId untilSecs
      = (m.afterClaim checks workerId untilSecs).map (fun m' => m'.inHand t d) := by
  -- the end of the lease and the number of attempts are the same for both
  have hsame : ∀ (leasedUntil : Option SystemTime) (attempts : Option ℕ)
      (f : OutboxMessage → SystemTime → ℕ → OutboxMessage)
      (_ : ∀ m l n, f (m.inHand t d) l n = (f m l n).inHand t d),
      leasedUntil.bind (fun l => attempts.map (fun n => f (m.inHand t d) l n))
        = (leasedUntil.bind (fun l => attempts.map (fun n => f m l n))).map
          (fun m' => m'.inHand t d) := by
    intro leasedUntil attempts f hf
    cases leasedUntil with
    | none => rfl
    | some l =>
      cases attempts with
      | none => rfl
      | some n => exact congrArg some (hf m l n)
  exact hsame (untilTime untilSecs) (addU32 checks m.attempts 1) (fun m l n => { m with
    status := .inFlight
    attempts := n
    workerId := some workerId
    leasedUntil := some l }) (fun _ _ _ => rfl)

/-- **A later method looks at nothing of the entity, the clock, `created_at` and the
metadata**, and leaves the id as it is. -/
theorem later_ignores {k : EventMethod OutboxMessage} (hk : k ∈ later checks C) (x : k.Args)
    (t now now' : SystemTime) (d : Metadata) (e e' : Entity) :
    k.guard (m.inHand t d) e x = k.guard m e' x
      ∧ k.body now (m.inHand t d) e x
        = (k.body now' m e' x).map (fun r => (r.1.inHand t d, none)) := by
  simp only [later, List.mem_cons, List.not_mem_nil, or_false] at hk
  rcases hk with rfl | rfl | rfl | rfl
  · refine ⟨rfl, ?_⟩
    show ((m.inHand t d).afterClaim checks x.1 x.2).map _ = ((m.afterClaim checks x.1 x.2).map _).map _
    rw [afterClaim_inHand, Option.map_map, Option.map_map]
    rfl
  · exact ⟨rfl, rfl⟩
  · exact ⟨rfl, rfl⟩
  · exact ⟨rfl, rfl⟩

/-- A later method leaves `created_at`, the metadata and the id as they are. -/
theorem later_keeps {k : EventMethod OutboxMessage} (hk : k ∈ later checks C) {x : k.Args}
    {now : SystemTime} {e : Entity} {m' : OutboxMessage} {o : Option String}
    (h : k.body now m e x = some (m', o)) :
    m'.createdAt = m.createdAt ∧ m'.metadata = m.metadata ∧ o = none := by
  have hself : m.inHand m.createdAt m.metadata = m := rfl
  have heq := (later_ignores (m := m) hk x m.createdAt now now m.metadata e e).2
  rw [hself, h] at heq
  obtain ⟨hm, ho⟩ := Prod.mk.inj (Option.some.inj heq)
  exact ⟨(congrArg createdAt hm).trans rfl, (congrArg metadata hm).trans rfl, ho⟩

theorem find?_later {k : EventMethod OutboxMessage} (hk : k ∈ later checks C) :
    (definition checks C).methods.find? (fun k' => k'.name = k.name) = some k := by
  refine EventMethod.find?_eq_some ?_ (List.mem_cons_of_mem _ hk)
  show ["MessageCreated", "MessageClaimed", "MessagePublished", "MessageReleased",
    "MessageFailed"].Nodup
  decide

/-! ## Stories -/

variable (checks C)

/-- **The story of a message**: the first event created it under the id, and each
event after that took effect on the fields the ones before had left. The fields are
those they leave, with `created_at` at the epoch. -/
inductive Story (id : String) : List EventRecord → OutboxMessage → Prop
  | created {r : EventRecord} {givenId eventType : String} {payload : Bytes}
      {destination : Option String} {metadata : Metadata}
      (hname : r.eventName = (initializeMessage C).name)
      (hpayload : r.payload
        = C.created.serialize (givenId, eventType, payload, destination, metadata))
      (hid : normalizeId givenId = id) :
      Story id [r] { default with
        eventType := eventType
        payload := payload
        destination := destination
        metadata := metadata }
  | later {l : List EventRecord} {m m' : OutboxMessage} {r : EventRecord}
      {k : EventMethod OutboxMessage} (h : Story id l m) (hk : k ∈ later checks C) (x : k.Args)
      (hname : r.eventName = k.name) (hpayload : r.payload = k.params.codec.serialize x)
      (hguard : k.guard m Entity.new x = true)
      (hbody : k.body SystemTime.unixEpoch m Entity.new x = some (m', none)) :
      Story id (l ++ [r]) m'

variable {checks C} {id : String} {l : List EventRecord}

namespace Story

theorem hasPrefix (h : Story checks C id l m) : hasPrefix id = true := by
  induction h with
  | created _ _ hid =>
    rw [← hid]
    exact hasPrefix_normalizeId _
  | later _ _ _ _ _ _ _ ih => exact ih

theorem ne_nil (h : Story checks C id l m) : l ≠ [] := by
  cases h with
  | created => exact List.cons_ne_nil _ _
  | later => exact List.append_ne_nil_of_right_ne_nil _ (List.cons_ne_nil _ _)

theorem createdAt_eq (h : Story checks C id l m) : m.createdAt = SystemTime.unixEpoch := by
  induction h with
  | created => rfl
  | later _ hk _ _ _ _ hbody ih => exact (later_keeps hk hbody).1.trans ih

/-- **No event of a story is skipped** by its guard on replay. -/
theorem unskipped (hC : C.Lawful) (h : Story checks C id l m) (now : SystemTime) {e : Entity}
    (he : e.replaying = true) :
    (definition checks C).Unskipped now l ⟨default, e⟩ ⟨m.inHand now m.metadata, e.setId id⟩ := by
  induction h with
  | @created r givenId eventType payload destination metadata hname hpayload hid =>
    refine .concat (l := []) (m := initializeMessage C)
      (x := (givenId, eventType, payload, destination, metadata)) (.nil _) ?_ ?_ rfl ?_
    · rw [hname]
      rfl
    · exact Params.decode_serialize (p := (initializeMessage C).params) hC.created hpayload
    · have hcall := EventMethod.call_of_replaying (initializeMessage C) (a := ⟨default, e⟩) he now
        (givenId, eventType, payload, destination, metadata)
      rw [← hid]
      exact hcall.trans rfl
  | @later l m m' r k _ hk x hname hpayload hguard hbody ih =>
    obtain ⟨hguard', hbody'⟩ := later_ignores (m := m) hk x now now SystemTime.unixEpoch m.metadata
      (e.setId id) Entity.new
    have hlawful := (definition_wellFormed checks C hC).lawful k (List.mem_cons_of_mem _ hk)
    refine .concat ih (m := k) (x := x) ?_ (Params.decode_serialize hlawful hpayload)
      (hguard'.trans hguard) ?_
    · rw [hname]
      exact find?_later hk
    · rw [EventMethod.call_of_replaying _ (a := ⟨_, e.setId id⟩) he]
      dsimp only
      rw [hguard', hguard, hbody', hbody, (later_keeps hk hbody).2.1]
      rfl

/-- **A story replays to its fields**: the entity ends up with the id, and nothing
else of it has changed. -/
theorem replayAll (hC : C.Lawful) (h : Story checks C id l m) (now : SystemTime) {e : Entity}
    (he : e.replaying = true) :
    (definition checks C).aggregate.replayAll now l ⟨default, e⟩
      = .ok ⟨m.inHand now m.metadata, e.setId id⟩ :=
  (h.unskipped hC now he).replayAll

/-- **A story hydrates to its fields**, from whatever entity it is loaded into under
its id. -/
theorem hydrate (hC : C.Lawful) (h : Story checks C id l m) (now : SystemTime) :
    (definition checks C).aggregate.hydrate now (EventStore.loadEntity id l)
      = .ok ⟨m.inHand now m.metadata, EventStore.loadEntity id l⟩ :=
  (Aggregate.hydrate_eq_ok _ _).mpr ⟨l, _, rfl, h.replayAll hC now rfl, rfl⟩

/-- The events tell one story. -/
theorem unique (hC : C.Lawful) {m' : OutboxMessage} (h : Story checks C id l m)
    (h' : Story checks C id l m') : m = m' := by
  have heq := Except.ok.inj ((h.hydrate hC SystemTime.unixEpoch).symm.trans
    (h'.hydrate hC SystemTime.unixEpoch))
  have hself : ∀ {m : OutboxMessage}, Story checks C id l m →
      m.inHand SystemTime.unixEpoch m.metadata = m := fun {m} h => by
    rw [← h.createdAt_eq]
    rfl
  rw [← hself h, ← hself h']
  exact congrArg Agg.fields heq

end Story

/-! ## Live calls -/

/-- A later method called on a message a client has in hand. -/
theorem call_later {k : EventMethod OutboxMessage} (hk : k ∈ later checks C) (x : k.Args)
    (now : SystemTime) {a : Agg OutboxMessage} {t : SystemTime} {d : Metadata}
    (hfields : a.fields = m.inHand t d) :
    k.call now x a
      = if k.guard m Entity.new x then
          (k.body SystemTime.unixEpoch m Entity.new x).map
            (fun r => ⟨r.1.inHand t d, k.digest now a.entity x⟩)
        else some a := by
  obtain ⟨hguard, hbody⟩ := later_ignores (m := m) hk x t now SystemTime.unixEpoch d
    (k.digest now a.entity x) Entity.new
  rw [EventMethod.call, hfields, hbody, Option.map_map]
  rw [(later_ignores (m := m) hk x t now now d a.entity Entity.new).1]
  rfl

/-- **One more event in a story**: the method `k`, called with `x`, took effect. -/
structure Advances (checks : OverflowChecks) (C : Codecs) (id : String)
    (k : EventMethod OutboxMessage) (x : k.Args) (l l' : List EventRecord) (m m' : OutboxMessage) :
    Prop where
  mem : k ∈ later checks C
  before : Story checks C id l m
  guard : k.guard m Entity.new x = true
  body : k.body SystemTime.unixEpoch m Entity.new x = some (m', none)
  events : ∃ r, r.eventName = k.name ∧ l' = l ++ [r]
  after : Story checks C id l' m'

/-- **A message in hand whose events tell the story of some fields.** -/
structure Tells (checks : OverflowChecks) (C : Codecs) (a : Agg OutboxMessage) (m : OutboxMessage) :
    Prop where
  story : Story checks C a.entity.id a.entity.events m
  fields : ∃ t d, a.fields = m.inHand t d
  version : a.entity.version = a.entity.events.length
  replaying : a.entity.replaying = false

namespace Tells

variable {a a' : Agg OutboxMessage}

/-- **A later method called on a message in hand** adds to its story, or is rejected by
its guard and does nothing. -/
theorem call (h : Tells checks C a m) {k : EventMethod OutboxMessage} (hk : k ∈ later checks C)
    {x : k.Args} {now : SystemTime} (hcall : k.call now x a = some a') :
    (k.guard m Entity.new x = false ∧ a' = a)
      ∨ ∃ m', Advances checks C a.entity.id k x a.entity.events a'.entity.events m m'
          ∧ Tells checks C a' m' ∧ a'.entity.id = a.entity.id
          ∧ a'.entity.committedVersion = a.entity.committedVersion := by
  obtain ⟨t, d, hfields⟩ := h.fields
  rw [call_later hk x now hfields] at hcall
  cases hguard : k.guard m Entity.new x with
  | false =>
    rw [hguard] at hcall
    exact Or.inl ⟨rfl, (Option.some.inj hcall).symm⟩
  | true =>
    rw [hguard, if_pos rfl] at hcall
    obtain ⟨⟨m', o⟩, hbody, rfl⟩ := Option.map_eq_some_iff.mp hcall
    obtain rfl : o = none := (later_keeps hk hbody).2.2
    have hdigest : k.digest now a.entity x = { a.entity with
        events := a.entity.events
          ++ [a.entity.record now k.name (k.version.getD 1) k.params.codec x]
        version := a.entity.events.length + 1 } := Entity.digestAt_eq h.replaying _ _ _ _ _
    have hstory : Story checks C a.entity.id (k.digest now a.entity x).events m' := by
      rw [hdigest]
      exact .later h.story hk x rfl rfl hguard hbody
    refine Or.inr ⟨m', ⟨hk, h.story, hguard, hbody, ?_, hstory⟩, ⟨?_, ⟨t, d, rfl⟩, ?_, ?_⟩, ?_, ?_⟩
    · show ∃ r, r.eventName = k.name ∧ (k.digest now a.entity x).events = a.entity.events ++ [r]
      rw [hdigest]
      exact ⟨_, rfl, rfl⟩
    · show Story checks C (k.digest now a.entity x).id (k.digest now a.entity x).events m'
      rw [show (k.digest now a.entity x).id = a.entity.id from Entity.id_digestAt _ _ _ _ _ _]
      exact hstory
    · show (k.digest now a.entity x).version = (k.digest now a.entity x).events.length
      rw [hdigest]
      simp
    · show (k.digest now a.entity x).replaying = false
      rw [hdigest]
      exact h.replaying
    · exact Entity.id_digestAt _ _ _ _ _ _
    · exact Entity.committedVersion_digestAt _ _ _ _ _ _

theorem load {l : List EventRecord} (h : Story checks C id l m) (now : SystemTime) :
    Tells checks C ⟨m.inHand now m.metadata, EventStore.loadEntity id l⟩ m :=
  ⟨h, ⟨now, m.metadata, rfl⟩, rfl, rfl⟩

/-- **A constructor makes a message** with one event, under the normalized id. -/
theorem construct (checks : OverflowChecks) (C : Codecs) (now : SystemTime) (id eventType : String)
    (payload : Bytes) (destination : Option String) (metadata : Metadata) :
    ∃ a, OutboxMessage.construct C now id eventType payload destination metadata = some a
      ∧ a.entity.id = normalizeId id ∧ a.entity.committedVersion = 0
      ∧ (∃ r, a.entity.events = [r])
      ∧ Tells checks C a { default with
          eventType := eventType
          payload := payload
          destination := destination
          metadata := metadata } :=
  ⟨_, rfl, rfl, rfl, ⟨_, rfl⟩, .created rfl rfl rfl, ⟨now, metadata, rfl⟩, rfl, rfl⟩

theorem markCommitted (h : Tells checks C a m) :
    Tells checks C { a with entity := a.entity.markCommitted } m :=
  ⟨h.story, h.fields, h.version, h.replaying⟩

end Tells

end OutboxMessage
