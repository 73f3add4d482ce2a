import Sourced.OutboxMachine

/-!
# Histories of an outbox

Clients that share the event store construct messages and commit them, claim them,
settle them by their ids, and process messages they have in hand and commit those.
A message in hand is a value: it may have been constructed, loaded or claimed long
ago, and what the store holds meanwhile may have gone on without it. So a message
is never taken out of the clients' hands here; a crash is a client that does nothing
more.

What holds in every history is that the streams tell stories and that a message in
hand, as far as it is committed, is the beginning of its stream
(`OutboxClients.Inv`). Every step then lets the stories go on
(`OutboxClients.Inv.step`), and the machine does the rest.
-/

open OutboxMessage (Codecs Readings Story Tells Continues hasPrefix normalizeId)

variable {checks : OverflowChecks} {C : Codecs}

/-! ## Methods called -/

namespace OutboxMessage

variable {a a' : Agg OutboxMessage}

/-- **A later method called** on a message in hand. -/
def Calls (checks : OverflowChecks) (C : Codecs) (a a' : Agg OutboxMessage) : Prop :=
  ∃ k ∈ later checks C, ∃ (x : k.Args) (now : SystemTime), k.call now x a = some a'

/-- **Later methods called**, one after the other. -/
def Called (checks : OverflowChecks) (C : Codecs) : Agg OutboxMessage → Agg OutboxMessage → Prop :=
  Relation.ReflTransGen (Calls checks C)

theorem Called.single {k : EventMethod OutboxMessage} (hk : k ∈ later checks C) {x : k.Args}
    {now : SystemTime} (h : k.call now x a = some a') : Called checks C a a' :=
  Relation.ReflTransGen.single ⟨k, hk, x, now, h⟩

theorem Called.claimFor {t : Readings} {workerId : String} {lease : Duration}
    (h : OutboxMessage.claimFor checks C t workerId lease a = some a') : Called checks C a a' := by
  obtain ⟨leasedUntil, -, hcall⟩ := Option.bind_eq_some_iff.mp h
  exact .single List.mem_cons_self hcall

theorem Called.of_claim {t : Readings} {workerId : String} {lease : Duration}
    (h : (if a.fields.isPending then OutboxMessage.claimFor checks C t workerId lease a else some a)
      = some a') : Called checks C a a' := by
  by_cases hpending : a.fields.isPending = true
  · rw [if_pos hpending] at h
    exact .claimFor h
  · rw [if_neg hpending] at h
    exact Option.some.inj h ▸ .refl

end OutboxMessage

namespace OutboxWorker

open OutboxMessage (Called later)

variable {a a' : Agg OutboxMessage} {now : SystemTime} {maxAttempts : ℕ} {answer : Except String Unit}
  {r : ProcessOneResult}

/-- What a worker does after it published: the answer decides which method it calls. -/
theorem called_finishMessage (checks : OverflowChecks)
    (h : finishMessage C now maxAttempts answer a = some (r, a')) :
    r.didWork = true ∧ Called checks C a a' := by
  have hcalled : ∀ {k : EventMethod OutboxMessage} (_ : k ∈ later checks C) {x : k.Args}
      {res : ProcessOneResult} (_ : res.didWork = true),
      (k.call now x a).map (fun m => (res, m)) = some (r, a') →
      r.didWork = true ∧ Called checks C a a' := by
    intro k hk x res hwork hmap
    obtain ⟨b, hcall, hb⟩ := Option.map_eq_some_iff.mp hmap
    obtain ⟨rfl, rfl⟩ := Prod.mk.inj hb
    exact ⟨hwork, .single hk hcall⟩
  unfold finishMessage at h
  cases answer with
  | ok u => exact hcalled (k := OutboxMessage.complete C) (by simp [later]) rfl h
  | error error =>
    dsimp only at h
    by_cases hmax : maxAttempts ≤ a.fields.attempts
    · rw [if_pos hmax] at h
      exact hcalled (k := OutboxMessage.fail C) (by simp [later]) rfl h
    · rw [if_neg hmax] at h
      exact hcalled (k := OutboxMessage.release C) (by simp [later]) rfl h

/-- **A worker calls methods of the message.** -/
theorem called_processMessage {t : Readings} {workerId : String} {lease : Duration}
    (h : processMessage checks C t now workerId lease maxAttempts answer a = some (r, a')) :
    Called checks C a a' := by
  unfold processMessage at h
  by_cases hdone : (a.fields.isPublished || a.fields.isFailed) = true
  · rw [if_pos hdone] at h
    obtain rfl : a = a' := congrArg Prod.snd (Option.some.inj h)
    exact .refl
  · rw [if_neg hdone] at h
    obtain ⟨b, hb, hrest⟩ := Option.bind_eq_some_iff.mp h
    have hcalled : Called checks C a b := .of_claim hb
    by_cases hflight : b.fields.isInFlight = true
    · rw [if_pos hflight] at hrest
      exact hcalled.trans (called_finishMessage checks hrest).2
    · rw [if_neg hflight] at hrest
      obtain rfl : b = a' := congrArg Prod.snd (Option.some.inj hrest)
      exact hcalled

end OutboxWorker

namespace EventStore

variable {s s' s'' : EventStore}

/-- **A message in hand**: its events tell a story, and those that are committed begin
the stream under its id. -/
structure Hand (checks : OverflowChecks) (C : Codecs) (s : EventStore) (a : Agg OutboxMessage) :
    Prop where
  tells : ∃ m, Tells checks C a m
  committed_le : a.entity.committedVersion ≤ a.entity.events.length
  initial : a.entity.events.take a.entity.committedVersion <+: s.stream a.entity.id

/-- **The stories have gone on.** -/
def Progress (checks : OverflowChecks) (C : Codecs) (s s' : EventStore) : Prop :=
  ∀ id l m, s.lookup id = some l → Story checks C id l m →
    ∃ l' m', s'.lookup id = some l' ∧ Continues checks C id l m l' m'

theorem Progress.of_lookup (h : ∀ id, s'.lookup id = s.lookup id) : Progress checks C s s' :=
  fun id l m hl _ => ⟨l, m, (h id).trans hl, .refl⟩

theorem Progress.trans (h : Progress checks C s s') (h' : Progress checks C s' s'') :
    Progress checks C s s'' := by
  intro id l m hl hstory
  obtain ⟨l₁, m₁, hl₁, hcontinues₁⟩ := h id l m hl hstory
  obtain ⟨l₂, m₂, hl₂, hcontinues₂⟩ := h' id l₁ m₁ hl₁ (hcontinues₁.story hstory)
  exact ⟨l₂, m₂, hl₂, hcontinues₁.trans hcontinues₂⟩

/-- A story that goes on as it does keeps being one. -/
theorem Stories.progress (hs : Stories checks C s) (h : Progress checks C s s')
    (hnew : ∀ id l, s.lookup id = none → s'.lookup id = some l → hasPrefix id = true →
      ∃ m, Story checks C id l m) : Stories checks C s' := by
  intro id l hl hpre
  cases hlookup : s.lookup id with
  | none => exact hnew id l hlookup hl hpre
  | some l₀ =>
    obtain ⟨m₀, hstory⟩ := hs id l₀ hlookup hpre
    obtain ⟨l', m', hl', hcontinues⟩ := h id l₀ m₀ hlookup hstory
    obtain rfl : l' = l := Option.some.inj (hl'.symm.trans hl)
    exact ⟨m', hcontinues.story hstory⟩

namespace Hand

variable {a a' : Agg OutboxMessage}

/-- A message in hand stays one as the stories go on. -/
theorem mono (ha : Hand checks C s a) (hs : Stories checks C s) (h : Progress checks C s s') :
    Hand checks C s' a := by
  refine ⟨ha.tells, ha.committed_le, ha.initial.trans ?_⟩
  obtain ⟨m, htells⟩ := ha.tells
  cases hlookup : s.lookup a.entity.id with
  | none =>
    rw [stream, hlookup]
    exact List.nil_prefix
  | some l =>
    obtain ⟨m₀, hstory⟩ := hs _ l hlookup htells.story.hasPrefix
    obtain ⟨l', m', hl', hcontinues⟩ := h _ l m₀ hlookup hstory
    rw [lookup_eq_some hlookup, lookup_eq_some hl']
    exact hcontinues.isPrefix

/-- A constructed message. -/
theorem construct {now : SystemTime} {id eventType : String} {payload : Bytes}
    {destination : Option String} {metadata : Metadata}
    (h : OutboxMessage.construct C now id eventType payload destination metadata = some a)
    (s : EventStore) : Hand checks C s a := by
  obtain ⟨b, hb, -, hcommitted, -, htells⟩ :=
    Tells.construct checks C now id eventType payload destination metadata
  obtain rfl : b = a := Option.some.inj (hb.symm.trans h)
  refine ⟨⟨_, htells⟩, hcommitted ▸ Nat.zero_le _, ?_⟩
  rw [hcommitted]
  exact List.nil_prefix

theorem stored {m : OutboxMessage} (h : Tells checks C a m)
    (hl : s.lookup a.entity.id = some a.entity.events)
    (hcommitted : a.entity.committedVersion = a.entity.events.length) : Hand checks C s a := by
  refine ⟨⟨m, h⟩, hcommitted.le, ?_⟩
  rw [lookup_eq_some hl]
  exact List.take_prefix _ _

theorem load (hC : C.Lawful) (hs : Stories checks C s) {now : SystemTime} {id : String}
    {l : List EventRecord} (hl : s.lookup id = some l) (hpre : hasPrefix id = true)
    (h : hydrateMessage checks C now id l = .ok a) : Hand checks C s a := by
  obtain ⟨m, hstory⟩ := hs id l hl hpre
  obtain rfl : ⟨m.inHand now m.metadata, loadEntity id l⟩ = a :=
    Except.ok.inj ((hydrateMessage_eq hC hstory now).symm.trans h)
  exact .stored (.load hstory now) hl rfl

/-- A message loaded by its id. -/
theorem getOne (hC : C.Lawful) (hs : Stories checks C s)
    (hmessages : ∀ id l, s.lookup id = some l → hasPrefix id = true) {now : SystemTime} {id : String}
    {e : Entity} (hget : s.getOne id = .ok (some e))
    (h : (OutboxMessage.definition checks C).aggregate.hydrate now e = .ok a) :
    Hand checks C s a := by
  unfold EventStore.getOne at hget
  split at hget
  · cases hget
  · obtain ⟨l, hl, rfl⟩ := Option.map_eq_some_iff.mp (Except.ok.inj hget)
    exact .load hC hs hl (hmessages id l hl) h

/-- **A message listed by its status.** -/
theorem listed (hC : C.Lawful) (hs : Stories checks C s) {ord : List String}
    {clock : String → Readings} {status : OutboxMessageStatus} {as : List (Agg OutboxMessage)}
    (h : s.outboxMessagesByStatus checks C ord clock status = .ok as) (ha : a ∈ as) :
    Hand checks C s a := by
  obtain ⟨id, l, now, hevents, hload⟩ := EventStore.loads_of_listed h ha
  obtain ⟨hl, hpre⟩ := EventStore.messageEvents_eq_some.mp hevents
  exact .load hC hs hl hpre hload

/-- **A later method called on a message in hand.** -/
theorem call (ha : Hand checks C s a) {k : EventMethod OutboxMessage}
    (hk : k ∈ OutboxMessage.later checks C) {x : k.Args} {now : SystemTime}
    (h : k.call now x a = some a') : Hand checks C s a' := by
  obtain ⟨m, htells⟩ := ha.tells
  cases htells.call hk h with
  | inl hsame => exact hsame.2 ▸ ha
  | inr hadvanced =>
    obtain ⟨m', hadv, htells', hid, hcommitted⟩ := hadvanced
    obtain ⟨r, -, hevents⟩ := hadv.events
    refine ⟨⟨m', htells'⟩, ?_, ?_⟩
    · rw [hcommitted, hevents, List.length_append]
      exact Nat.le_add_right_of_le ha.committed_le
    · rw [hcommitted, hevents, hid, List.take_append_of_le_length ha.committed_le]
      exact ha.initial

/-- **Later methods called on a message in hand.** -/
theorem called (ha : Hand checks C s a) (h : OutboxMessage.Called checks C a a') : Hand checks C s a' := by
  induction h with
  | refl => exact ha
  | tail _ hcalls ih =>
    obtain ⟨k, hk, x, now, hcall⟩ := hcalls
    exact ih.call hk hcall

/-- **A message processed by a worker.** -/
theorem process (ha : Hand checks C s a) {t : Readings} {now : SystemTime} {workerId : String}
    {lease : Duration} {maxAttempts : ℕ} {answer : Except String Unit} {r : ProcessOneResult}
    (h : OutboxWorker.processMessage checks C t now workerId lease maxAttempts answer a
      = some (r, a')) : Hand checks C s a' :=
  ha.called (OutboxWorker.called_processMessage h)

end Hand

/-- **A commit that is accepted**, of entities no other of which has the id of a message in hand:
its stream is now its events. -/
theorem stored_of_valid {es : List Entity} (hv : s.Valid es) {a : Agg OutboxMessage}
    (ha : Hand checks C s a) (hmem : a.entity ∈ es)
    (honly : batchEvents es a.entity.id = a.entity.uncommitted) :
    s.stream a.entity.id = a.entity.events.take a.entity.committedVersion
      ∧ (s.extendAll es).lookup a.entity.id = some a.entity.events := by
  -- the version check says that the stream is the committed part
  have hcommitted : s.stream a.entity.id = a.entity.events.take a.entity.committedVersion := by
    refine (ha.initial.eq_of_length ?_).symm
    rw [List.length_take, hv a.entity hmem]
    exact min_eq_left ha.committed_le
  refine ⟨hcommitted, ?_⟩
  have hstream : (s.extendAll es).stream a.entity.id = a.entity.events := by
    rw [stream_extendAll, honly, hcommitted]
    exact List.take_append_drop _ _
  obtain ⟨l, hl⟩ := Option.isSome_iff_exists.mp
    ((isSome_lookup_extendAll s es a.entity.id).mpr (Or.inr ⟨_, hmem, rfl⟩))
  rw [hl, ← lookup_eq_some hl, hstream]

/-- **Any commit of messages in hand**, with distinct ids, fails and changes nothing, or stores
them all. -/
theorem commit_hands {batch : List (Agg OutboxMessage)} (hbatch : ∀ a ∈ batch, Hand checks C s a)
    (hnd : (batch.map (fun a => a.entity.id)).Nodup) {r : RepoRes Unit} {es : List Entity}
    (hcommit : s.commit (batch.map Agg.entity) = (r, es, s')) :
    (∃ f, r = .error f) ∧ es = batch.map Agg.entity ∧ s' = s
      ∨ r = .ok () ∧ es = (batch.map Agg.entity).map Entity.markCommitted ∧ s'.poisoned = s.poisoned
        ∧ (∀ a ∈ batch, s.stream a.entity.id = a.entity.events.take a.entity.committedVersion
          ∧ s'.lookup a.entity.id = some a.entity.events)
        ∧ ∀ id, id ∉ batch.map (fun a => a.entity.id) → s'.lookup id = s.lookup id := by
  have hids : (batch.map Agg.entity).map Entity.id = batch.map (fun a => a.entity.id) :=
    List.map_map ..
  cases hp : s.poisoned with
  | true =>
    rw [commit_of_poisoned _ hp] at hcommit
    obtain ⟨hr, hrest⟩ := Prod.mk.inj hcommit
    exact Or.inl ⟨⟨_, hr.symm⟩, (Prod.mk.inj hrest).1.symm, (Prod.mk.inj hrest).2.symm⟩
  | false =>
    by_cases hv : s.Valid (batch.map Agg.entity)
    · have hnew : ∀ e ∈ batch.map Agg.entity, e.newEvents = some e.uncommitted := fun e he => by
        obtain ⟨a, ha, rfl⟩ := List.mem_map.mp he
        exact if_pos (hbatch a ha).committed_le
      rw [commit_of_valid hp hv hnew] at hcommit
      obtain ⟨rfl, hrest⟩ := Prod.mk.inj hcommit
      obtain ⟨rfl, rfl⟩ := Prod.mk.inj hrest
      exact Or.inr ⟨rfl, rfl, (poisoned_extendAll _ _).trans hp,
        fun a ha => stored_of_valid hv (hbatch a ha) (List.mem_map_of_mem ha)
          (batchEvents_of_nodup (hids ▸ hnd) (List.mem_map_of_mem ha)),
        fun id hid => lookup_extendAll_of_notMem s (hids ▸ hid)⟩
    · obtain ⟨e, -, hrefused⟩ := commit_of_not_valid hp hv
      rw [hrefused] at hcommit
      obtain ⟨hr, hrest⟩ := Prod.mk.inj hcommit
      exact Or.inl ⟨⟨_, hr.symm⟩, (Prod.mk.inj hrest).1.symm, (Prod.mk.inj hrest).2.symm⟩

/-! ## Stories that go on -/

/-- **Stored messages were worked on**: their stories have gone on, and nothing new is
stored. -/
structure Worked (checks : OverflowChecks) (C : Codecs) (s s' : EventStore) : Prop where
  progress : Progress checks C s s'
  absent : ∀ id, s.lookup id = none → s'.lookup id = none

theorem Worked.of_lookup (h : ∀ id, s'.lookup id = s.lookup id) : Worked checks C s s' :=
  ⟨.of_lookup h, fun id hid => (h id).trans hid⟩

theorem Worked.stories (h : Worked checks C s s') (hs : Stories checks C s) : Stories checks C s' :=
  hs.progress h.progress (fun id _ hnone hl => by rw [h.absent id hnone] at hl; cases hl)

/-- **A claim**, as far as it got. -/
theorem Claims.worked (hC : C.Lawful) {ids : List String} {workerId : String} {clock : String → Readings}
    {lease : Duration} {new : List (Agg OutboxMessage)}
    (h : Claims checks C clock workerId lease ids s s' new) : Worked checks C s s' := by
  refine ⟨fun id l m hl hstory => ?_, fun id hnone => ?_⟩
  · by_cases hid : id ∈ new.map (fun a => a.entity.id)
    · obtain ⟨a, ha, rfl⟩ := List.mem_map.mp hid
      obtain ⟨hstored, m₀, m', ⟨leasedUntil, l₀, -, hl₀, hadv⟩, -, -⟩ := h.each a ha
      obtain rfl : l₀ = l := Option.some.inj (hl₀.symm.trans hl)
      obtain rfl : m₀ = m := hadv.before.unique hC hstory
      exact ⟨_, m', hstored, Continues.refl.advance hadv⟩
    · exact ⟨l, m, (h.others id hid).trans hl, .refl⟩
  · by_cases hid : id ∈ new.map (fun a => a.entity.id)
    · obtain ⟨a, ha, rfl⟩ := List.mem_map.mp hid
      obtain ⟨-, -, -, ⟨-, l₀, -, hl₀, -⟩, -, -⟩ := h.each a ha
      cases hnone.symm.trans hl₀
    · exact (h.others id hid).trans hnone

theorem Claims.hand {ids : List String} {workerId : String} {clock : String → Readings}
    {lease : Duration} {new : List (Agg OutboxMessage)}
    (h : Claims checks C clock workerId lease ids s s' new) {a : Agg OutboxMessage} (ha : a ∈ new) :
    Hand checks C s' a := by
  obtain ⟨hstored, -, m', -, htells, hcommitted⟩ := h.each a ha
  exact .stored htells hstored hcommitted

/-- A message gone on by one event. -/
theorem Advanced.worked (hC : C.Lawful) {id : String} {k : EventMethod OutboxMessage} {x : k.Args}
    {m m' : OutboxMessage} (h : s.Advanced checks C s' id k x m m') : Worked checks C s s' := by
  obtain ⟨l, l', hl, hl', hadv⟩ := h.stored
  refine ⟨fun id₁ l₁ m₁ hl₁ hstory => ?_, fun id₁ hnone => ?_⟩
  · by_cases hid : id₁ = id
    · subst hid
      obtain rfl : l = l₁ := Option.some.inj (hl.symm.trans hl₁)
      obtain rfl : m = m₁ := hadv.before.unique hC hstory
      exact ⟨l', m', hl', Continues.refl.advance hadv⟩
    · exact ⟨l₁, m₁, (h.others id₁ hid).trans hl₁, .refl⟩
  · by_cases hid : id₁ = id
    · cases (hid ▸ hnone :).symm.trans hl
    · exact (h.others id₁ hid).trans hnone

/-- **A claim**, returned or not, has worked on what it claimed, and returns it. -/
theorem worked_claim (hC : C.Lawful) (hs : Stories checks C s) {ord : List String}
    (hord : s.Enumerates ord) {clock : String → Readings} {workerId : String} {max : ℕ} {lease : Duration}
    {r : RepoRes (List (Agg OutboxMessage))}
    (h : s.claimOutboxMessages checks C ord clock workerId max lease = (r, s')) :
    Worked checks C s s' ∧ ∀ as, r = .ok as → ∀ a ∈ as, Hand checks C s' a := by
  cases hp : s.poisoned with
  | true =>
    rw [claimOutboxMessages, hp] at h
    obtain ⟨rfl, rfl⟩ := Prod.mk.inj h
    exact ⟨.of_lookup (fun _ => rfl), fun _ has => (by cases has)⟩
  | false =>
    cases claimOutboxMessages_spec hC hs hp hord h with
    | ok hclaims _ _ =>
      refine ⟨hclaims.worked hC, fun as has a ha => hclaims.hand ?_⟩
      rw [← Except.ok.inj has] at ha
      exact ha
    | panic hclaims _ _ => exact ⟨hclaims.worked hC, fun _ has => (by cases has)⟩

/-- **A settling**: of a stored message, or of nothing. -/
theorem worked_settling (hC : C.Lawful) (hs : Stories checks C s) (u : Settling) (t : Readings)
    (messageId : String) : Worked checks C s (u.run checks C t s messageId).2 := by
  cases hp : s.poisoned with
  | true =>
    rw [u.run_of_poisoned hp]
    exact .of_lookup (fun _ => rfl)
  | false =>
    cases hlookup : s.lookup (normalizeId messageId) with
    | none =>
      rw [u.run_of_lookup hp hlookup]
      exact .of_lookup (fun _ => rfl)
    | some l =>
      obtain ⟨m, hstory⟩ := hs _ l hlookup (OutboxMessage.hasPrefix_normalizeId _)
      obtain ⟨s', hrun, hsettled⟩ := u.run_spec (t := t) hC hp ⟨l, hlookup, hstory⟩
      rw [hrun]
      cases hsettled with
      | inl hsame =>
        rw [hsame.2]
        exact .of_lookup (fun _ => rfl)
      | inr hadvanced => exact hadvanced.2.worked hC

/-- **Messages in hand committed**: the stories go on, or begin. -/
theorem progress_commit (hC : C.Lawful) {ids : List String}
    (hstored : ∀ id ∈ ids, hasPrefix id = true → ∃ a, Hand checks C s a ∧ a.entity.id = id
      ∧ s.stream id = a.entity.events.take a.entity.committedVersion ∧ s'.lookup id = some a.entity.events)
    (hothers : ∀ id, id ∉ ids → s'.lookup id = s.lookup id) :
    Progress checks C s s' ∧ ∀ id l, s.lookup id = none → s'.lookup id = some l → hasPrefix id = true →
      ∃ m, Story checks C id l m := by
  refine ⟨fun id l m hl hstory => ?_, fun id l hnone hl' hpre => ?_⟩
  · by_cases hid : id ∈ ids
    · obtain ⟨a, ha, rfl, hstream, hnew⟩ := hstored id hid hstory.hasPrefix
      obtain ⟨m', htells⟩ := ha.tells
      -- the stream was the committed part of the events, so these go on from it
      rw [lookup_eq_some hl] at hstream
      have hevents : a.entity.events = l ++ a.entity.events.drop a.entity.committedVersion := by
        rw [hstream, List.take_append_drop]
      have hafter : Story checks C a.entity.id (l ++ a.entity.events.drop a.entity.committedVersion) m' :=
        hevents ▸ htells.story
      obtain ⟨m₀, hm₀, hcontinues⟩ := hafter.split hstory.ne_nil
      obtain rfl : m₀ = m := hm₀.unique hC hstory
      exact ⟨_, m', hnew, hevents ▸ hcontinues⟩
    · exact ⟨l, m, (hothers id hid).trans hl, .refl⟩
  · by_cases hid : id ∈ ids
    · obtain ⟨a, ha, rfl, -, hnew⟩ := hstored id hid hpre
      obtain ⟨m', htells⟩ := ha.tells
      obtain rfl : a.entity.events = l := Option.some.inj (hnew.symm.trans hl')
      exact ⟨m', htells.story⟩
    · cases ((hothers id hid).trans hnone).symm.trans hl'

/-! ## One message, claimed again and again -/

/-- **A store with one pending message** and nothing else. -/
structure Single (checks : OverflowChecks) (C : Codecs) (s : EventStore) (id : String)
    (l : List EventRecord) (m : OutboxMessage) : Prop where
  not_poisoned : s.poisoned = false
  only : ∀ id', (s.lookup id').isSome → id' = id
  stored : s.lookup id = some l
  story : Story checks C id l m
  pending : m.status = .pending

namespace Single

variable {id : String} {l : List EventRecord} {m : OutboxMessage}

theorem enumerates (h : Single checks C s id l m) : s.Enumerates [id] := by
  refine ⟨List.nodup_singleton id, fun id' => ?_⟩
  rw [List.mem_singleton]
  exact ⟨fun heq => by rw [heq, h.stored]; rfl, h.only id'⟩

theorem stories (h : Single checks C s id l m) : Stories checks C s := by
  intro id' l' hl' _
  obtain rfl : id' = id := h.only id' (by rw [hl']; rfl)
  obtain rfl : l = l' := Option.some.inj (h.stored.symm.trans hl')
  exact ⟨m, h.story⟩

/-- **A message constructed and committed.** -/
theorem exists_commit (checks : OverflowChecks) (C : Codecs) (payload : Bytes) (metadata : Metadata) :
    ∃ a es s l m, OutboxMessage.construct C SystemTime.unixEpoch "m" "Created" payload none metadata = some a
      ∧ EventStore.new.commit [a.entity] = (.ok (), es, s)
      ∧ Single checks C s "outbox:m" l m ∧ OutboxMessage.claims l = 0 := by
  obtain ⟨a, ha, hid, hcommitted, ⟨r, hevents⟩, htells⟩ := Tells.construct checks C
    SystemTime.unixEpoch "m" "Created" payload none metadata
  have hid' : a.entity.id = "outbox:m" := hid.trans (by decide)
  have hnew : a.entity.newEvents = some a.entity.uncommitted := if_pos (hcommitted ▸ Nat.zero_le _)
  have hvalid : EventStore.new.Valid [a.entity] := fun e he => by
    rw [List.mem_singleton.mp he, hcommitted, EventStore.stream, EventStore.lookup, EventStore.new]
    rfl
  have hstore : EventStore.new.commit [a.entity]
      = (.ok (), [a.entity.markCommitted], EventStore.new.extend a.entity.id a.entity.uncommitted) :=
    EventStore.commit_of_valid rfl hvalid (fun e he => List.mem_singleton.mp he ▸ hnew)
  have hevents' : a.entity.uncommitted = [r] := by
    rw [Entity.uncommitted, hcommitted, List.drop_zero, hevents]
  rw [hevents', hid'] at hstore
  refine ⟨a, _, _, [r], _, ha, hstore, ⟨rfl, fun id hsome => ?_, lookup_extend_self _ _ _,
    hid' ▸ hevents ▸ htells.story, rfl⟩, ?_⟩
  · by_contra hne
    rw [lookup_extend_of_ne _ hne] at hsome
    cases hsome
  · obtain ⟨⟨names, hnames, -⟩, -⟩ := htells.story.machine
    rw [hevents] at hnames
    rw [OutboxMessage.claims, List.countP_singleton, (List.cons.inj hnames).1]
    rfl

theorem not_claimPanics (h : Single checks C s id l m)
    (hfew : checks = true → OutboxMessage.claims l + 1 < 2 ^ 32) (t : Readings) :
    ¬ ClaimPanics checks t (.fromSecs 0 (by decide)) m := by
  intro hpanic
  cases hpanic with
  | inl hlease => exact absurd ((SystemTime.add_zero _).symm.trans hlease) (Option.some_ne_none _)
  | inr hattempts =>
    -- a build with overflow checks has counted every claim
    obtain ⟨hchecks, hlt⟩ := addU32_one_eq_none.mp hattempts
    exact hlt ((h.story.machine.2.1.2 hchecks).symm ▸ hfew hchecks)

/-- **The message is claimed.** -/
theorem claim (hC : C.Lawful) (h : Single checks C s id l m) (clock : String → Readings)
    (workerId : String) {max : ℕ} {lease : Duration} (hmax : 1 < max)
    (hpanic : ¬ ClaimPanics checks (clock id) lease m) :
    ∃ a s₁ m₁, s.claimOutboxMessages checks C [id] clock workerId max lease = (.ok [a], s₁)
      ∧ a.entity.id = id ∧ s₁.poisoned = false ∧ s₁.lookup id = some a.entity.events
      ∧ (∀ id' ≠ id, s₁.lookup id' = s.lookup id')
      ∧ ClaimedFrom checks C s (clock id) workerId lease a m m₁ := by
  generalize hr : s.claimOutboxMessages checks C [id] clock workerId max lease = r
  cases claimOutboxMessages_spec hC h.stories h.not_poisoned h.enumerates hr with
  | panic _ _ hwhy =>
    obtain ⟨id', hid', m', hm', -, hpanic'⟩ := hwhy
    obtain rfl : id' = id := List.mem_singleton.mp hid'
    obtain rfl : m' = m := hm'.unique hC ⟨l, h.stored, h.story⟩
    exact absurd hpanic' hpanic
  | @ok new s₁ hclaims hp hall =>
    have hlen : new.length ≤ 1 := by simpa using hclaims.sublist.length_le
    have hid := hall (by simpa using hlen.trans_lt hmax) id (List.mem_singleton_self id) m
      ⟨l, h.stored, h.story⟩ h.pending
    obtain ⟨a, ha, hida⟩ := List.mem_map.mp hid
    obtain rfl : new = [a] := by
      cases new with
      | nil => exact absurd ha List.not_mem_nil
      | cons b new =>
        obtain rfl : new = [] := List.length_eq_zero_iff.mp (by simpa using hlen)
        rw [List.mem_singleton.mp ha]
    obtain ⟨hstored, m₀, m₁, hfrom⟩ := hclaims.each a ha
    obtain rfl : m₀ = m := by
      obtain ⟨_, l₀, -, hl₀, hadv⟩ := hfrom.claimed
      rw [hida] at hl₀ hadv
      obtain rfl : l₀ = l := Option.some.inj (hl₀.symm.trans h.stored)
      exact hadv.before.unique hC h.story
    rw [hida] at hstored hfrom
    exact ⟨a, s₁, m₁, rfl, hida, hp.trans h.not_poisoned, hstored,
      fun id' hid' => hclaims.others id' (by simpa [hida] using hid'), hfrom⟩

/-- **One round**: the message is claimed and released. -/
theorem round (hC : C.Lawful) (h : Single checks C s id l m) (clock : String → Readings)
    (workerId : String) {max : ℕ} {lease : Duration} (hmax : 1 < max)
    (hpanic : ¬ ClaimPanics checks (clock id) lease m) (error : String) (t : Readings) :
    ∃ a s₁ s₂ l₂ m₂,
      s.claimOutboxMessages checks C [id] clock workerId max lease = (.ok [a], s₁)
        ∧ a.entity.id = id ∧ Settling.run checks C t s₁ id (.release error) = (.ok (), s₂)
        ∧ Single checks C s₂ id l₂ m₂
        ∧ OutboxMessage.claims l₂ = OutboxMessage.claims l + 1 := by
  obtain ⟨a, s₁, m₁, hclaim, hida, hp, hstored, hothers, hfrom⟩ := h.claim hC clock workerId
    hmax hpanic
  obtain ⟨leasedUntil, l₀, -, hl₀, hadv⟩ := hfrom.claimed
  rw [hida] at hl₀ hadv
  obtain rfl : l₀ = l := Option.some.inj (hl₀.symm.trans h.stored)
  obtain ⟨r₁, hname₁, hl₁⟩ := hadv.events
  have hnext := hadv.took.next
  rw [h.pending] at hnext
  have hflight : m₁.status = .inFlight := (Option.some.inj hnext).symm
  have hnormal : normalizeId id = id := OutboxMessage.normalizeId_of_hasPrefix h.story.hasPrefix
  have hm₁ : s₁.Message checks C (normalizeId id) m₁ := by
    rw [hnormal]
    exact ⟨_, hstored, hadv.after⟩
  obtain ⟨s₂, hrun, hsettled⟩ := (Settling.release error).run_spec (t := t) hC hp hm₁
  rw [hnormal] at hsettled
  cases hsettled with
  | inl hsame => exact absurd (hsame.1.symm.trans (decide_eq_true hflight)) Bool.false_ne_true
  | inr hadvanced =>
    obtain ⟨l₁, l₂, hstored₁, hstored₂, hadv₂⟩ := hadvanced.2.stored
    obtain rfl : a.entity.events = l₁ := Option.some.inj (hstored.symm.trans hstored₁)
    obtain ⟨r₂, hname₂, hl₂⟩ := hadv₂.events
    refine ⟨a, s₁, s₂, l₂, _, hclaim, hida, hrun, ⟨hadvanced.2.poisoned.trans hp, fun id' hid' => ?_,
      hstored₂, hadv₂.after, rfl⟩, ?_⟩
    · by_contra hne
      rw [hadvanced.2.others id' hne, hothers id' hne] at hid'
      exact hne (h.only id' hid')
    · rw [hl₂, hl₁]
      unfold OutboxMessage.claims
      rw [List.countP_append, List.countP_append, List.countP_singleton, List.countP_singleton,
        hname₁, hname₂]
      rfl

end Single

end EventStore

/-- **Clients of an outbox**: the store they share, and every message that any of them
has had in hand. -/
structure OutboxClients where
  store : EventStore
  hands : List (Agg OutboxMessage)

namespace OutboxClients

/-- Nothing is stored, and nobody has anything. -/
def initial : OutboxClients := ⟨EventStore.new, []⟩

variable (checks C)

/-- **A step of a client.** -/
inductive Step : OutboxClients → OutboxClients → Prop
  /-- A message is constructed. -/
  | construct {c : OutboxClients} {now : SystemTime} {id eventType : String} {payload : Bytes}
      {destination : Option String} {metadata : Metadata} {a : Agg OutboxMessage}
      (h : OutboxMessage.construct C now id eventType payload destination metadata = some a) :
      Step c ⟨c.store, c.hands ++ [a]⟩
  /-- A message is loaded by its id. -/
  | load {c : OutboxClients} {now : SystemTime} {id : String} {e : Entity} {a : Agg OutboxMessage}
      (hget : c.store.getOne id = .ok (some e))
      (hhydrate : (OutboxMessage.definition checks C).aggregate.hydrate now e = .ok a) :
      Step c ⟨c.store, c.hands ++ [a]⟩
  /-- The messages with a status are loaded. -/
  | list {c : OutboxClients} {ord : List String} {clock : String → Readings}
      {status : OutboxMessageStatus} {as : List (Agg OutboxMessage)}
      (hord : c.store.Enumerates ord)
      (h : c.store.outboxMessagesByStatus checks C ord clock status = .ok as) :
      Step c ⟨c.store, c.hands ++ as⟩
  /-- Messages are claimed. -/
  | claim {c : OutboxClients} {ord : List String} {clock : String → Readings} {workerId : String}
      {max : ℕ} {lease : Duration} {as : List (Agg OutboxMessage)} {s : EventStore}
      (hord : c.store.Enumerates ord)
      (h : c.store.claimOutboxMessages checks C ord clock workerId max lease = (.ok as, s)) :
      Step c ⟨s, c.hands ++ as⟩
  /-- A claim fails. -/
  | claimFails {c : OutboxClients} {ord : List String} {clock : String → Readings}
      {workerId : String} {max : ℕ} {lease : Duration} {f : Fault RepositoryError} {s : EventStore}
      (hord : c.store.Enumerates ord)
      (h : c.store.claimOutboxMessages checks C ord clock workerId max lease = (.error f, s)) :
      Step c ⟨s, c.hands⟩
  /-- A message is settled by its id. -/
  | settle {c : OutboxClients} (u : Settling) (t : Readings) (messageId : String) :
      Step c ⟨(u.run checks C t c.store messageId).2, c.hands⟩
  /-- A worker processes a message in hand. -/
  | process {c : OutboxClients} {a a' : Agg OutboxMessage} {t : Readings} {now : SystemTime}
      {workerId : String} {lease : Duration} {maxAttempts : ℕ} {answer : Except String Unit}
      {r : ProcessOneResult} (ha : a ∈ c.hands)
      (h : OutboxWorker.processMessage checks C t now workerId lease maxAttempts answer a
        = some (r, a')) :
      Step c ⟨c.store, c.hands ++ [a']⟩
  /-- Messages in hand are committed, with distinct ids. -/
  | commit {c : OutboxClients} {batch : List (Agg OutboxMessage)} {r : RepoRes Unit}
      {es : List Entity} {s : EventStore} (hbatch : ∀ a ∈ batch, a ∈ c.hands)
      (hnd : (batch.map (fun a => a.entity.id)).Nodup)
      (h : c.store.commit (batch.map Agg.entity) = (r, es, s)) :
      Step c ⟨s, c.hands ++ List.zipWith (fun a e => ⟨a.fields, e⟩) batch es⟩

/-- **A history.** -/
def Run : OutboxClients → OutboxClients → Prop := Relation.ReflTransGen (Step checks C)

/-- **What holds in every history.** -/
structure Inv (c : OutboxClients) : Prop where
  stories : EventStore.Stories checks C c.store
  messages : ∀ id l, c.store.lookup id = some l → hasPrefix id = true
  hands : ∀ a ∈ c.hands, c.store.Hand checks C a

variable {checks C}

theorem inv_initial : Inv checks C initial :=
  ⟨.new, fun id l h => by simp [initial, EventStore.new, EventStore.lookup] at h,
    fun a ha => absurd ha List.not_mem_nil⟩

namespace Inv

open EventStore (Hand Progress)

variable {c c' : OutboxClients}

/-- The invariant of a step: the stories go on, and so does the invariant. -/
def Kept (checks : OverflowChecks) (C : Codecs) (c c' : OutboxClients) : Prop :=
  Inv checks C c' ∧ c.store.Progress checks C c'.store

/-- **The store has gone on and some messages have come to hand.** -/
theorem kept (h : Inv checks C c) {s : EventStore} {as : List (Agg OutboxMessage)}
    (hp : c.store.Progress checks C s)
    (hnew : ∀ id l, c.store.lookup id = none → s.lookup id = some l →
      ∃ m, Story checks C id l m)
    (has : ∀ a ∈ as, s.Hand checks C a) : Kept checks C c ⟨s, c.hands ++ as⟩ := by
  refine ⟨⟨h.stories.progress hp (fun id l hl hl' _ => hnew id l hl hl'), fun id l hl => ?_,
    fun a ha => ?_⟩, hp⟩
  · cases hlookup : c.store.lookup id with
    | none =>
      obtain ⟨m, hstory⟩ := hnew id l hlookup hl
      exact hstory.hasPrefix
    | some l₀ => exact h.messages id l₀ hlookup
  · cases List.mem_append.mp ha with
    | inl ha => exact (h.hands a ha).mono h.stories hp
    | inr ha => exact has a ha

theorem keptWorked (h : Inv checks C c) {s : EventStore} (hworked : c.store.Worked checks C s)
    {as : List (Agg OutboxMessage)} (has : ∀ a ∈ as, s.Hand checks C a) :
    Kept checks C c ⟨s, c.hands ++ as⟩ :=
  h.kept hworked.progress (fun id l hl hl' => by rw [hworked.absent id hl] at hl'; cases hl') has

theorem keptHands (h : Inv checks C c) {as : List (Agg OutboxMessage)}
    (has : ∀ a ∈ as, c.store.Hand checks C a) : Kept checks C c ⟨c.store, c.hands ++ as⟩ :=
  h.keptWorked (.of_lookup (fun _ => rfl)) has

/-- **A batch of messages in hand committed.** -/
theorem keptCommit (hC : C.Lawful) (h : Inv checks C c) {s : EventStore}
    {batch : List (Agg OutboxMessage)} (hbatch : ∀ a ∈ batch, c.store.Hand checks C a)
    (hstored : ∀ a ∈ batch,
      c.store.stream a.entity.id = a.entity.events.take a.entity.committedVersion
        ∧ s.lookup a.entity.id = some a.entity.events)
    (hothers : ∀ id, id ∉ batch.map (fun a => a.entity.id) → s.lookup id = c.store.lookup id) :
    Kept checks C c
      ⟨s, c.hands ++ batch.map (fun a => { a with entity := a.entity.markCommitted })⟩ := by
  have hlisted : ∀ id ∈ batch.map (fun a => a.entity.id), hasPrefix id = true →
      ∃ a, c.store.Hand checks C a ∧ a.entity.id = id
        ∧ c.store.stream id = a.entity.events.take a.entity.committedVersion
        ∧ s.lookup id = some a.entity.events := by
    intro id hid _
    obtain ⟨a, ha, rfl⟩ := List.mem_map.mp hid
    exact ⟨a, hbatch a ha, rfl, hstored a ha⟩
  obtain ⟨hprogress, hborn⟩ := EventStore.progress_commit hC hlisted hothers
  refine h.kept hprogress (fun id l hl hl' => ?_) (fun b hb => ?_)
  · by_cases hid : id ∈ batch.map (fun a => a.entity.id)
    · obtain ⟨a, ha, rfl⟩ := List.mem_map.mp hid
      obtain ⟨m, htells⟩ := (hbatch a ha).tells
      exact hborn _ l hl hl' htells.story.hasPrefix
    · cases ((hothers id hid).trans hl).symm.trans hl'
  · obtain ⟨a, ha, rfl⟩ := List.mem_map.mp hb
    obtain ⟨m', htells⟩ := (hbatch a ha).tells
    exact .stored htells.markCommitted (hstored a ha).2 htells.version

/-- **A commit**, accepted or not. -/
theorem keptBatch (hC : C.Lawful) (h : Inv checks C c) {batch : List (Agg OutboxMessage)}
    (hbatch : ∀ a ∈ batch, c.store.Hand checks C a)
    (hnd : (batch.map (fun a => a.entity.id)).Nodup) {r : RepoRes Unit} {es : List Entity}
    {s : EventStore} (hcommit : c.store.commit (batch.map Agg.entity) = (r, es, s)) :
    Kept checks C c ⟨s, c.hands ++ List.zipWith (fun a e => ⟨a.fields, e⟩) batch es⟩ := by
  rcases EventStore.commit_hands hbatch hnd hcommit with ⟨-, rfl, rfl⟩ | ⟨-, rfl, -, hstored, hothers⟩
  · rw [List.zipWith_map_right, List.zipWith_self, List.map_id']
    exact h.keptHands hbatch
  · rw [List.zipWith_map_right, List.zipWith_map_right, List.zipWith_self]
    exact h.keptCommit hC hbatch hstored hothers

/-- **Every step lets the stories go on.** -/
theorem step (hC : C.Lawful) (h : Inv checks C c) (hstep : Step checks C c c') :
    Kept checks C c c' := by
  cases hstep with
  | construct hconstruct =>
    exact h.keptHands (fun a ha => List.mem_singleton.mp ha ▸ .construct hconstruct _)
  | load hget hhydrate =>
    exact h.keptHands (fun b hb => List.mem_singleton.mp hb ▸
      .getOne hC h.stories h.messages hget hhydrate)
  | list hord hlist => exact h.keptHands (fun a ha => .listed hC h.stories hlist ha)
  | claim hord hclaim =>
    obtain ⟨hworked, hhands⟩ := EventStore.worked_claim hC h.stories hord hclaim
    exact h.keptWorked hworked (hhands _ rfl)
  | claimFails hord hclaim =>
    rw [← List.append_nil c.hands]
    exact h.keptWorked (EventStore.worked_claim hC h.stories hord hclaim).1
      (fun _ ha => absurd ha List.not_mem_nil)
  | settle u t messageId =>
    rw [← List.append_nil c.hands]
    exact h.keptWorked (EventStore.worked_settling hC h.stories u t messageId)
      (fun _ ha => absurd ha List.not_mem_nil)
  | process ha hprocess =>
    exact h.keptHands (fun b hb => List.mem_singleton.mp hb ▸ (h.hands _ ha).process hprocess)
  | commit hbatch hnd hcommit =>
    exact h.keptBatch hC (fun a ha => h.hands a (hbatch a ha)) hnd hcommit

end Inv

/-- **A history lets the stories go on.** -/
theorem Inv.run (hC : C.Lawful) {c c' : OutboxClients} (h : Inv checks C c) (hrun : Run checks C c c') :
    Inv checks C c' ∧ ∀ id l m, c.store.lookup id = some l → Story checks C id l m →
      ∃ l' m', c'.store.lookup id = some l' ∧ Continues checks C id l m l' m' := by
  induction hrun with
  | refl => exact ⟨h, fun id l m hl _ => ⟨l, m, hl, .refl⟩⟩
  | tail _ hstep ih =>
    obtain ⟨hinv, hprogress⟩ := ih
    obtain ⟨hinv', hstep'⟩ := hinv.step hC hstep
    exact ⟨hinv', EventStore.Progress.trans hprogress hstep'⟩

/-- **The state machine of the outbox.** In every history every stored message hydrates,
its events being a path of the machine of which the replay skips none; `attempts` counts
its claims, modulo `2 ^ 32` in a build without overflow checks; a worker and the end of a
lease are there exactly while it is in flight; and once it is published or failed its
stream stays what it is. An operation on the id a message was constructed with settles
that message, where its status lets it, and nothing else. -/
theorem stream_machine (hC : C.Lawful) {c : OutboxClients} (hrun : Run checks C initial c) :
    (∀ id l, c.store.lookup id = some l → hasPrefix id = true ∧ ∃ m : OutboxMessage,
      (∀ now,
        EventStore.hydrateMessage checks C now id l
            = .ok ⟨m.inHand now m.metadata, EventStore.loadEntity id l⟩
          ∧ (OutboxMessage.definition checks C).Unskipped now l
              ⟨OutboxMessage.default, (EventStore.loadEntity id l).setReplaying true⟩
              ⟨m.inHand now m.metadata, (EventStore.loadEntity id l).setReplaying true⟩)
        ∧ (∃ names, l.map EventRecord.eventName = "MessageCreated" :: names
          ∧ OutboxMessageStatus.pending.path names = some m.status)
        ∧ m.attempts = OutboxMessage.claims l % 2 ^ 32
        ∧ (checks = true → m.attempts = OutboxMessage.claims l)
        ∧ (m.workerId.isSome ↔ m.status = .inFlight)
        ∧ (m.leasedUntil.isSome ↔ m.status = .inFlight)
        ∧ (m.status = .published ∨ m.status = .failed →
          ∀ c', Run checks C c c' → c'.store.lookup id = some l))
      ∧ ∀ (now : SystemTime) (id eventType : String) (payload : Bytes)
        (destination : Option String) (metadata : Metadata) (a : Agg OutboxMessage),
        OutboxMessage.construct C now id eventType payload destination metadata = some a →
        ∀ m, c.store.Message checks C a.entity.id m → c.store.poisoned = false →
        ∀ (u : Settling) (t : Readings), ∃ s', u.run checks C t c.store id = (.ok (), s')
          ∧ (u.settles m = false → s' = c.store)
          ∧ (u.settles m = true → s'.Message checks C a.entity.id (u.after m)
            ∧ (∃ l r, c.store.lookup a.entity.id = some l
              ∧ s'.lookup a.entity.id = some (l ++ [r]) ∧ r.eventName = (u.method C).name)
            ∧ ∀ id' ≠ a.entity.id, s'.lookup id' = c.store.lookup id') := by
  obtain ⟨hinv, -⟩ := inv_initial.run hC hrun
  refine ⟨fun id l hl => ⟨hinv.messages id l hl, ?_⟩, ?_⟩
  · obtain ⟨m, hstory⟩ := hinv.stories id l hl (hinv.messages id l hl)
    obtain ⟨hpath, ⟨hcounted, hexact⟩, hworker, hlease⟩ := hstory.machine
    refine ⟨m, fun now => ⟨EventStore.hydrateMessage_eq hC hstory now, hstory.unskipped hC now rfl⟩,
      hpath, hcounted, hexact, hworker, hlease, fun hsettled c' hrun' => ?_⟩
    obtain ⟨l', m', hl', hcontinues⟩ := (hinv.run hC hrun').2 id l m hl hstory
    rw [hl', (hcontinues.eq_of_settled hsettled).1]
  · intro now id eventType payload destination metadata a hconstruct m hm hp u t
    obtain ⟨b, hb, hid, -⟩ :=
      Tells.construct checks C now id eventType payload destination metadata
    obtain rfl : b = a := Option.some.inj (hb.symm.trans hconstruct)
    rw [hid] at hm ⊢
    obtain ⟨s', hrun', hsettled⟩ := u.run_spec (t := t) hC hp hm
    refine ⟨s', hrun', ?_, ?_⟩
    · intro hnot
      cases hsettled with
      | inl h => exact h.2
      | inr h => exact absurd (hnot.symm.trans h.1) Bool.false_ne_true
    · intro hsettles
      cases hsettled with
      | inl h => exact absurd (h.1.symm.trans hsettles) Bool.false_ne_true
      | inr h =>
        obtain ⟨l, l', hl, hl', hadv⟩ := h.2.stored
        obtain ⟨r, hname, rfl⟩ := hadv.events
        exact ⟨⟨_, hl', hadv.after⟩, ⟨l, r, hl, hl', hname⟩, h.2.others⟩

theorem exists_single (checks : OverflowChecks) (C : Codecs) : ∃ c l m,
    Run checks C initial c ∧ c.store.Single checks C "outbox:m" l m
      ∧ OutboxMessage.claims l = 0 := by
  obtain ⟨a, r, s, l, m, ha, hcommit, hsingle, hclaims⟩ := EventStore.Single.exists_commit checks C [] ∅
  have hconstruct : Step checks C initial ⟨EventStore.new, [a]⟩ := .construct ha
  have hstep : Step checks C ⟨EventStore.new, [a]⟩ _ :=
    .commit (fun _ (h : _ ∈ [a]) => h) (List.nodup_singleton _) hcommit
  exact ⟨_, l, m, (Relation.ReflTransGen.single hconstruct).tail hstep, hsingle, hclaims⟩

/-- **A message claimed and released any number of times**, as far as `attempts` can count
it. -/
theorem rounds (checks : OverflowChecks) (hC : C.Lawful) {n : ℕ} (hn : checks = true → n < 2 ^ 32) : ∃ c l m,
    Run checks C initial c ∧ c.store.Single checks C "outbox:m" l m
      ∧ OutboxMessage.claims l = n := by
  induction n with
  | zero => exact exists_single checks C
  | succ n ih =>
    obtain ⟨c, l, m, hrun, hsingle, hclaims⟩ := ih (fun h => Nat.lt_of_succ_lt (hn h))
    have hpanic := hsingle.not_claimPanics (hclaims ▸ hn)
      ⟨SystemTime.unixEpoch, SystemTime.unixEpoch, SystemTime.unixEpoch⟩
    obtain ⟨a, s₁, s₂, l₂, m₂, hclaim, -, hrelease, hsingle₂, hclaims₂⟩ := hsingle.round hC
      (fun _ => ⟨SystemTime.unixEpoch, SystemTime.unixEpoch, SystemTime.unixEpoch⟩) "w"
      Nat.one_lt_two hpanic ""
      ⟨SystemTime.unixEpoch, SystemTime.unixEpoch, SystemTime.unixEpoch⟩
    have hstep₁ : Step checks C c ⟨s₁, c.hands ++ [a]⟩ := .claim hsingle.enumerates hclaim
    have hstep₂ : Step checks C ⟨s₁, c.hands ++ [a]⟩ ⟨_, c.hands ++ [a]⟩ := .settle (.release "")
      ⟨SystemTime.unixEpoch, SystemTime.unixEpoch, SystemTime.unixEpoch⟩ "outbox:m"
    rw [hrelease] at hstep₂
    exact ⟨_, l₂, m₂, (hrun.tail hstep₁).tail hstep₂, hsingle₂, by rw [hclaims₂, hclaims]⟩

/-- A history in which a message was claimed once. -/
theorem stream_machine_claimed : ∃ (c : OutboxClients) (l : List EventRecord) (m : OutboxMessage),
    Run true Codecs.counting initial c ∧ c.store.lookup "outbox:m" = some l
      ∧ (∀ now, EventStore.hydrateMessage true Codecs.counting now "outbox:m" l
        = .ok ⟨m.inHand now m.metadata, EventStore.loadEntity "outbox:m" l⟩)
      ∧ m.attempts = OutboxMessage.claims l ∧ OutboxMessage.claims l = 1 := by
  obtain ⟨c, l, _, hrun, hsingle, hclaims⟩ :=
    rounds true Codecs.counting_lawful (n := 1) (fun _ => by decide)
  obtain ⟨-, m, hhydrate, -, -, hexact, -⟩ :=
    (stream_machine Codecs.counting_lawful hrun).1 "outbox:m" l hsingle.stored
  exact ⟨c, l, m, hrun, hsingle.stored, fun now => (hhydrate now).1, hexact rfl, hclaims⟩

/-- **In a build without overflow checks `attempts` wraps around**: after `2 ^ 32` claims
it is zero. -/
theorem attempts_wrap : ¬ ∀ c, Run false Codecs.counting initial c →
    ∀ id l, c.store.lookup id = some l → ∃ m : OutboxMessage,
      (∀ now, EventStore.hydrateMessage false Codecs.counting now id l
        = .ok ⟨m.inHand now m.metadata, EventStore.loadEntity id l⟩)
      ∧ m.attempts = OutboxMessage.claims l := by
  intro h
  obtain ⟨c, l, m, hrun, hsingle, hclaims⟩ :=
    rounds false Codecs.counting_lawful (n := 2 ^ 32) (fun h => absurd h Bool.false_ne_true)
  obtain ⟨m', hhydrate, hattempts⟩ := h c hrun "outbox:m" l hsingle.stored
  have hsame := (hhydrate SystemTime.unixEpoch).symm.trans
    (EventStore.hydrateMessage_eq Codecs.counting_lawful hsingle.story SystemTime.unixEpoch)
  have heq : m'.attempts = m.attempts :=
    congrArg (fun a : Agg OutboxMessage => a.fields.attempts) (Except.ok.inj hsame)
  have hcounted := hsingle.story.machine.2.1.1
  rw [hclaims] at hattempts hcounted
  rw [heq, hcounted] at hattempts
  exact absurd hattempts (by decide)

end OutboxClients
