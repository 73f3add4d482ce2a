import Sourced.OutboxStories
import Sourced.ReplayFaithful

/-!
# What the events of a message say

A stream under an id with the prefix need not tell a story: it may have been written
by a foreign aggregate, or by calls of the event methods in any order. What it
hydrates to does not depend on the clock, nor on the entity that it is loaded into,
but for `created_at`, which `initialize` reads from the clock whenever it runs. The
rest is the content of its events (`EventStore.content`), and a message hydrated at any
clock reading, under any id, is this (`EventStore.map_hydrateMessage`).
-/

open OutboxMessage (Codecs)

variable {checks : OverflowChecks} {C : Codecs}

/-! ## The entity in a replay -/

namespace Definition

variable {σ : Type} {D : Definition σ} {now : SystemTime}

/-- **A replayed event changes nothing of the entity** but its id. -/
theorem entity_replayEvent {r : EventRecord} {a b : Agg σ} (ha : a.entity.replaying = true)
    (h : D.aggregate.replayEvent now r a = .ok b) : ∃ id, b.entity = a.entity.setId id := by
  change EventMethod.replayEvent D.methods now r a = .ok b at h
  unfold EventMethod.replayEvent at h
  cases hfind : D.methods.find? (fun k => k.name = r.eventName) with
  | none =>
    rw [hfind] at h
    cases h
  | some k =>
    rw [hfind] at h
    dsimp only at h
    cases hdecode : k.params.decode r with
    | error msg =>
      rw [hdecode] at h
      cases h
    | ok x =>
      rw [hdecode] at h
      dsimp only at h
      rw [k.call_of_replaying ha] at h
      by_cases hguard : k.guard a.fields a.entity x = true
      · rw [if_pos hguard] at h
        cases hbody : k.body now a.fields a.entity x with
        | none =>
          rw [hbody] at h
          cases h
        | some y =>
          rw [hbody] at h
          rw [← Except.ok.inj h]
          exact exists_setId a.entity y
      · rw [if_neg hguard] at h
        rw [← Except.ok.inj h]
        exact ⟨a.entity.id, rfl⟩

theorem entity_replayAll {es : List EventRecord} {a b : Agg σ} (ha : a.entity.replaying = true)
    (h : D.aggregate.replayAll now es a = .ok b) : ∃ id, b.entity = a.entity.setId id := by
  induction es generalizing a with
  | nil =>
    rw [← Except.ok.inj h]
    exact ⟨a.entity.id, rfl⟩
  | cons r es ih =>
    rw [Aggregate.replayAll_cons] at h
    cases hr : D.aggregate.replayEvent now r a with
    | error f =>
      rw [hr] at h
      cases h
    | ok a' =>
      rw [hr] at h
      obtain ⟨id, hid⟩ := entity_replayEvent ha hr
      obtain ⟨id', hid'⟩ := ih (show a'.entity.replaying = true by rw [hid]; exact ha) h
      exact ⟨id', by rw [hid', hid]; rfl⟩

/-- **A hydrated aggregate has the entity it was hydrated from**, but for the id. -/
theorem entity_hydrate {e : Entity} {a : Agg σ} (he : e.replaying = false)
    (h : D.aggregate.hydrate now e = .ok a) : ∃ id, a.entity = e.setId id := by
  obtain ⟨es, b, -, hreplay, rfl⟩ := Aggregate.hydrate_eq_ok _ _ |>.mp h
  obtain ⟨id, hid⟩ := entity_replayAll (show (e.setReplaying true).replaying = true from rfl) hreplay
  refine ⟨id, ?_⟩
  show b.entity.setReplaying false = e.setId id
  rw [hid, ← he]
  rfl

end Definition

/-! ## The content of a message -/

namespace OutboxMessage

/-- The message with `created_at` at the epoch. -/
def undated (m : OutboxMessage) : OutboxMessage := m.inHand SystemTime.unixEpoch m.metadata

variable {now now' : SystemTime} {a b : Agg OutboxMessage}

theorem eq_inHand_of_undated {m m' : OutboxMessage} (h : m.undated = m'.undated) :
    m' = m.inHand m'.createdAt m.metadata :=
  (congrArg (fun m₀ => inHand m₀ m'.createdAt m₀.metadata) h).symm

/-- **A method called** on two messages with the same content leaves the same content, or
panics on both. -/
theorem map_call_undated {k : EventMethod OutboxMessage} (hk : k ∈ (definition checks C).methods)
    (x : k.Args) (hab : a.fields.undated = b.fields.undated) :
    (k.call now x a).map (fun a => a.fields.undated)
      = (k.call now' x b).map (fun b => b.fields.undated) := by
  have hb := eq_inHand_of_undated hab
  obtain ⟨f, e⟩ := a
  obtain ⟨f', e'⟩ := b
  dsimp only at hb
  cases List.mem_cons.mp hk with
  | inl hk =>
    -- `initialize` writes over `created_at`
    subst hk
    rw [hb]
    rfl
  | inr hk =>
    rw [call_later hk x now (a := ⟨f, e⟩) (m := f) (t := f.createdAt) (d := f.metadata) rfl,
      call_later hk x now' (a := ⟨f', e'⟩) hb]
    by_cases hguard : k.guard f Entity.new x = true
    · rw [if_pos hguard, if_pos hguard, Option.map_map, Option.map_map]
      rfl
    · rw [if_neg hguard, if_neg hguard]
      exact congrArg some hab

/-- **A replayed event** does the same to the same content, at any clock reading. -/
theorem map_replayEvent_undated (r : EventRecord) (hab : a.fields.undated = b.fields.undated) :
    ((definition checks C).aggregate.replayEvent now r a).map (fun a => a.fields.undated)
      = ((definition checks C).aggregate.replayEvent now' r b).map (fun b => b.fields.undated) := by
  show (EventMethod.replayEvent _ now r a).map _ = (EventMethod.replayEvent _ now' r b).map _
  unfold EventMethod.replayEvent
  cases hfind : (definition checks C).methods.find? (fun k => k.name = r.eventName) with
  | none => rfl
  | some k =>
    dsimp only
    cases k.params.decode r with
    | error msg => rfl
    | ok x =>
      have hcall : (k.call now x a).map (fun a => a.fields.undated)
          = (k.call now' x b).map (fun b => b.fields.undated) :=
        map_call_undated (List.mem_of_find?_eq_some hfind) x hab
      dsimp only
      cases ha : k.call now x a with
      | none =>
        rw [ha] at hcall
        rw [Option.map_eq_none_iff.mp hcall.symm]
      | some a' =>
        rw [ha] at hcall
        obtain ⟨b', hb, hb'⟩ := Option.map_eq_some_iff.mp hcall.symm
        rw [hb]
        exact congrArg Except.ok hb'.symm

/-- A replay does the same to the same content. -/
theorem map_replayAll_undated (es : List EventRecord) (hab : a.fields.undated = b.fields.undated) :
    ((definition checks C).aggregate.replayAll now es a).map (fun a => a.fields.undated)
      = ((definition checks C).aggregate.replayAll now' es b).map (fun b => b.fields.undated) := by
  induction es generalizing a b with
  | nil => exact congrArg Except.ok hab
  | cons r es ih =>
    have hr : ((definition checks C).aggregate.replayEvent now r a).map (fun a => a.fields.undated)
        = ((definition checks C).aggregate.replayEvent now' r b).map (fun b => b.fields.undated) :=
      map_replayEvent_undated r hab
    rw [Aggregate.replayAll_cons, Aggregate.replayAll_cons]
    cases ha : (definition checks C).aggregate.replayEvent now r a with
    | error f =>
      rw [ha] at hr
      have hb : (definition checks C).aggregate.replayEvent now' r b = .error f :=
        Res.map_eq_error.mp hr.symm
      rw [hb]
      rfl
    | ok a' =>
      rw [ha] at hr
      obtain ⟨b', hb, hab'⟩ := Res.map_eq_ok.mp hr.symm
      rw [hb]
      exact ih hab'.symm

end OutboxMessage

namespace EventStore

section Content

variable {now : SystemTime} {id : String} {l : List EventRecord} {r : EventRecord}
  {m m' : OutboxMessage} {a : Agg OutboxMessage}

variable (checks C) in
/-- **What the events of a message say of it**, with `created_at` at the epoch. -/
def content (l : List EventRecord) : RepoRes OutboxMessage :=
  (hydrateMessage checks C SystemTime.unixEpoch "" l).map (fun a => a.fields.undated)

/-- A hydration replays the events as they are stored. -/
theorem map_hydrateMessage_eq (now : SystemTime) (id : String) (l : List EventRecord) :
    (hydrateMessage checks C now id l).map (fun a => a.fields.undated)
      = Res.mapErr RepositoryError.replay (((OutboxMessage.definition checks C).aggregate.replayAll now l
          ⟨OutboxMessage.default, (loadEntity id l).setReplaying true⟩).map
            (fun a => a.fields.undated)) := by
  show (Res.mapErr RepositoryError.replay ((OutboxMessage.definition checks C).aggregate.replayAll now l
    ⟨OutboxMessage.default, (loadEntity id l).setReplaying true⟩) >>= fun a =>
      (.ok ⟨a.fields, a.entity.setReplaying false⟩ : RepoRes (Agg OutboxMessage))).map
        (fun a => a.fields.undated) = _
  cases (OutboxMessage.definition checks C).aggregate.replayAll now l
    ⟨OutboxMessage.default, (loadEntity id l).setReplaying true⟩ with
  | ok b => rfl
  | error f => cases f <;> rfl

/-- **A hydration at any clock reading, under any id**, makes what the events say. -/
theorem map_hydrateMessage (now : SystemTime) (id : String) (l : List EventRecord) :
    (hydrateMessage checks C now id l).map (fun a => a.fields.undated) = content checks C l := by
  unfold content
  rw [map_hydrateMessage_eq, map_hydrateMessage_eq]
  exact congrArg _ (OutboxMessage.map_replayAll_undated l rfl)

theorem content_of_hydrate (h : hydrateMessage checks C now id l = .ok a) :
    content checks C l = .ok a.fields.undated := by
  rw [← map_hydrateMessage now id, h]
  rfl

/-- **Events that say something hydrate**, and the entity is the loaded one but for the
id. -/
theorem exists_hydrate (h : content checks C l = .ok m) (now : SystemTime) (id : String) :
    ∃ a id', hydrateMessage checks C now id l = .ok a ∧ a.fields.undated = m
      ∧ a.entity = (loadEntity id l).setId id' := by
  rw [← map_hydrateMessage now id] at h
  cases ha : hydrateMessage checks C now id l with
  | error f =>
    rw [ha] at h
    cases h
  | ok a =>
    rw [ha] at h
    obtain ⟨id', hid'⟩ := Definition.entity_hydrate (D := OutboxMessage.definition checks C)
      (e := loadEntity id l) rfl ha
    exact ⟨a, id', rfl, Except.ok.inj h, hid'⟩

theorem hydrate_eq_error {f : Fault RepositoryError} :
    hydrateMessage checks C now id l = .error f ↔ content checks C l = .error f := by
  rw [← map_hydrateMessage now id]
  cases hydrateMessage checks C now id l with
  | error f' => exact ⟨fun h => congrArg Except.error (Except.error.inj h),
      fun h => congrArg Except.error (Except.error.inj h)⟩
  | ok a => exact ⟨fun h => (nomatch h), fun h => (nomatch h)⟩

/-- **One more event** is replayed on what the events before it say. -/
theorem content_append_singleton (l : List EventRecord) (r : EventRecord) :
    content checks C (l ++ [r]) = (content checks C l).bind (fun m =>
      Res.mapErr RepositoryError.replay (((OutboxMessage.definition checks C).aggregate.replayEvent
        SystemTime.unixEpoch r ⟨m, Entity.new⟩).map (fun a => a.fields.undated))) := by
  -- the events before, in the entity that has one more
  have hbefore : content checks C l = Res.mapErr RepositoryError.replay
      (((OutboxMessage.definition checks C).aggregate.replayAll SystemTime.unixEpoch l
        ⟨OutboxMessage.default, (loadEntity "" (l ++ [r])).setReplaying true⟩).map
          (fun a => a.fields.undated)) := by
    rw [← map_hydrateMessage SystemTime.unixEpoch "", map_hydrateMessage_eq]
    exact congrArg _ (OutboxMessage.map_replayAll_undated l rfl)
  rw [hbefore, ← map_hydrateMessage SystemTime.unixEpoch "", map_hydrateMessage_eq,
    Aggregate.replayAll_append]
  cases (OutboxMessage.definition checks C).aggregate.replayAll SystemTime.unixEpoch l
      ⟨OutboxMessage.default, (loadEntity "" (l ++ [r])).setReplaying true⟩ with
  | error f => cases f <;> rfl
  | ok b =>
    have hevent : ((OutboxMessage.definition checks C).aggregate.replayEvent SystemTime.unixEpoch r b).map
          (fun a => a.fields.undated)
        = ((OutboxMessage.definition checks C).aggregate.replayEvent SystemTime.unixEpoch r
          ⟨b.fields.undated, Entity.new⟩).map (fun a => a.fields.undated) :=
      OutboxMessage.map_replayEvent_undated r rfl
    show Res.mapErr _ (((((OutboxMessage.definition checks C).aggregate.replayEvent
      SystemTime.unixEpoch r b).bind _)).map _) = Res.mapErr _ (((OutboxMessage.definition
        checks C).aggregate.replayEvent SystemTime.unixEpoch r ⟨b.fields.undated, Entity.new⟩).map _)
    rw [← hevent]
    cases (OutboxMessage.definition checks C).aggregate.replayEvent SystemTime.unixEpoch r b <;> rfl

/-- **The record of a claim** adds to the events what the claim does to the message. -/
theorem content_concat (hC : C.Lawful) (h : content checks C l = .ok m) (hpending : m.status = .pending)
    {y : String × UInt64} (hname : r.eventName = "MessageClaimed")
    (hpayload : r.payload = C.claimed.serialize y) (hm' : m.afterClaim checks y.1 y.2 = some m') :
    content checks C (l ++ [r]) = .ok m'.undated := by
  have hk : OutboxMessage.claim checks C ∈ OutboxMessage.later checks C := List.mem_cons_self
  have hcall : (OutboxMessage.claim checks C).call SystemTime.unixEpoch y ⟨m, Entity.new⟩
      = some ⟨m', (OutboxMessage.claim checks C).digest SystemTime.unixEpoch Entity.new y⟩ := by
    have hguard : (OutboxMessage.claim checks C).guard m Entity.new y = true := decide_eq_true hpending
    refine (if_pos hguard).trans ?_
    show ((m.afterClaim checks y.1 y.2).map _).map _ = _
    rw [hm']
    rfl
  have hreplay := Command.replayEvent_record (OutboxMessage.definition_wellFormed checks C hC)
    (c := ⟨OutboxMessage.claim checks C, SystemTime.unixEpoch, y⟩) (List.mem_cons_of_mem _ hk)
    hname hpayload SystemTime.unixEpoch ⟨m, Entity.new⟩
  rw [content_append_singleton, h]
  show Res.mapErr _ (((OutboxMessage.definition checks C).aggregate.replayEvent SystemTime.unixEpoch r
    ⟨m, Entity.new⟩).map _) = _
  rw [hreplay, hcall]
  rfl

end Content

end EventStore
