import Sourced.OutboxWorker

/-!
# What the outbox operations do to the stored messages

In a store whose message streams all tell stories the outbox operations fail only
with a poisoned lock or a panic, and what they do to a stream is to add one event
that took effect. A claim does so to pending messages, each once, to all of them if
it stops before it has claimed enough (`EventStore.claimOutboxMessages_spec`);
the other operations do it to one message, if they settle it (`Settling.run_spec`).
-/

open OutboxMessage (Codecs Readings Story Tells Advances hasPrefix normalizeId)

variable {checks : OverflowChecks} {C : Codecs}

namespace EventStore

variable {s s' : EventStore}

/-! ## Streams replaced -/

@[simp] theorem lookup_put_self (s : EventStore) (id : String) (l : List EventRecord) :
    (s.put id l).lookup id = some l := Finmap.lookup_insert _

theorem lookup_put_of_ne (s : EventStore) {id id' : String} (h : id' ≠ id) (l : List EventRecord) :
    (s.put id l).lookup id' = s.lookup id' := Finmap.lookup_insert_of_ne _ h

@[simp] theorem poisoned_put (s : EventStore) (id : String) (l : List EventRecord) :
    (s.put id l).poisoned = s.poisoned := rfl

@[simp] theorem lookup_afterFault (s : EventStore) (f : Fault RepositoryError) (id : String) :
    (s.afterFault f).lookup id = s.lookup id := by
  cases f <;> rfl

theorem messageEvents_eq_some {id : String} {l : List EventRecord} :
    s.messageEvents id = some l ↔ s.lookup id = some l ∧ hasPrefix id = true := by
  unfold messageEvents
  cases hpre : hasPrefix id <;> simp

/-! ## Stored messages -/

/-- **A message stored under an id**, with the fields its story leaves. -/
def Message (checks : OverflowChecks) (C : Codecs) (s : EventStore) (id : String)
    (m : OutboxMessage) : Prop :=
  ∃ l, s.lookup id = some l ∧ Story checks C id l m

/-- **Every stream under an id with the prefix tells a story.** -/
def Stories (checks : OverflowChecks) (C : Codecs) (s : EventStore) : Prop :=
  ∀ id l, s.lookup id = some l → hasPrefix id = true → ∃ m, Story checks C id l m

theorem Stories.new : Stories checks C EventStore.new := fun id l h => by
  simp [EventStore.new, lookup] at h

/-- A story that has gone on is stored. -/
theorem Stories.put (hs : Stories checks C s) {id : String} {l : List EventRecord}
    {m : OutboxMessage} (h : Story checks C id l m) : Stories checks C (s.put id l) := by
  intro id' l' hl' hpre
  by_cases hid : id' = id
  · subst hid
    rw [lookup_put_self] at hl'
    exact ⟨m, Option.some.inj hl' ▸ h⟩
  · rw [lookup_put_of_ne s hid] at hl'
    exact hs id' l' hl' hpre

theorem Message.unique (hC : C.Lawful) {id : String} {m m' : OutboxMessage}
    (h : s.Message checks C id m) (h' : s.Message checks C id m') : m = m' := by
  obtain ⟨l, hl, hstory⟩ := h
  obtain ⟨l', hl', hstory'⟩ := h'
  obtain rfl : l = l' := Option.some.inj (hl.symm.trans hl')
  exact hstory.unique hC hstory'

/-! ## Claims -/

/-- **A message returned by a claim**: it was stored and pending, and its stream is
now that of the claimed message. -/
structure ClaimedFrom (checks : OverflowChecks) (C : Codecs) (s : EventStore) (t : Readings)
    (workerId : String) (lease : Duration) (a : Agg OutboxMessage) (m m' : OutboxMessage) :
    Prop where
  claimed : ∃ leasedUntil l, t.lease.add lease = some leasedUntil
    ∧ s.lookup a.entity.id = some l
    ∧ Advances checks C a.entity.id (OutboxMessage.claim checks C)
      (workerId, UInt64.ofNat leasedUntil.secsSinceEpoch) l a.entity.events m m'
  tells : Tells checks C a m'
  committed : a.entity.committedVersion = a.entity.events.length

/-- **What a claim did to the store**: the messages it claimed, among `ids`, have been
claimed, and no other stream has changed. -/
structure Claims (checks : OverflowChecks) (C : Codecs) (clock : String → Readings)
    (workerId : String) (lease : Duration) (ids : List String) (s s' : EventStore)
    (claimed : List (Agg OutboxMessage)) : Prop where
  sublist : (claimed.map (fun a => a.entity.id)).Sublist ids
  each : ∀ a ∈ claimed, s'.lookup a.entity.id = some a.entity.events
    ∧ ∃ m m', ClaimedFrom checks C s (clock a.entity.id) workerId lease a m m'
  others : ∀ id, id ∉ claimed.map (fun a => a.entity.id) → s'.lookup id = s.lookup id

variable {clock : String → Readings} {workerId : String} {lease : Duration} {max : ℕ}
  {ids : List String}

theorem Claims.nil (h : ∀ id, s'.lookup id = s.lookup id) :
    Claims checks C clock workerId lease ids s s' [] :=
  ⟨List.nil_sublist ids, fun _ ha => absurd ha List.not_mem_nil, fun id _ => h id⟩

theorem Claims.skip {id : String} {claimed : List (Agg OutboxMessage)}
    (h : Claims checks C clock workerId lease ids s s' claimed) :
    Claims checks C clock workerId lease (id :: ids) s s' claimed :=
  ⟨h.sublist.cons id, h.each, h.others⟩

/-- **One message claimed, then others.** -/
theorem Claims.cons {a : Agg OutboxMessage} {m m' : OutboxMessage}
    (ha : ClaimedFrom checks C s (clock a.entity.id) workerId lease a m m')
    (hid : a.entity.id ∉ ids) {claimed : List (Agg OutboxMessage)}
    (h : Claims checks C clock workerId lease ids (s.put a.entity.id a.entity.events) s' claimed) :
    Claims checks C clock workerId lease (a.entity.id :: ids) s s' (a :: claimed) := by
  have hne : a.entity.id ∉ claimed.map (fun a => a.entity.id) := fun hmem => hid (h.sublist.mem hmem)
  refine ⟨h.sublist.cons_cons _, fun b hb => ?_, fun id hnot => ?_⟩
  · cases List.mem_cons.mp hb with
    | inl heq =>
      subst heq
      exact ⟨(h.others _ hne).trans (lookup_put_self s _ _), m, m', ha⟩
    | inr hb =>
      obtain ⟨hstored, m₁, m₁', ⟨leasedUntil, l, hlease, hl, hadv⟩, htells, hcommitted⟩ := h.each b hb
      have hother : b.entity.id ≠ a.entity.id := fun heq =>
        hne (heq ▸ List.mem_map_of_mem (f := fun a : Agg OutboxMessage => a.entity.id) hb)
      rw [lookup_put_of_ne s hother] at hl
      exact ⟨hstored, m₁, m₁', ⟨leasedUntil, l, hlease, hl, hadv⟩, htells, hcommitted⟩
  · rw [List.map_cons, List.mem_cons, not_or] at hnot
    exact (h.others id hnot.2).trans (lookup_put_of_ne s hnot.1 _)

theorem hydrateMessage_eq (hC : C.Lawful) {id : String} {l : List EventRecord} {m : OutboxMessage}
    (h : Story checks C id l m) (now : SystemTime) :
    hydrateMessage checks C now id l = .ok ⟨m.inHand now m.metadata, loadEntity id l⟩ :=
  h.hydrate hC now

/-- **A loaded message claimed.** -/
theorem claimFor_spec {id : String} {l : List EventRecord} {m : OutboxMessage}
    (hstory : Story checks C id l m) (hl : s.lookup id = some l) (hpending : m.status = .pending)
    {t : Readings} {a : Agg OutboxMessage}
    (h : OutboxMessage.claimFor checks C t workerId lease
      ⟨m.inHand t.replay m.metadata, loadEntity id l⟩ = some a) :
    a.entity.id = id ∧ ∃ m', ClaimedFrom checks C s t workerId lease
      { a with entity := a.entity.markCommitted } m m' := by
  obtain ⟨leasedUntil, hlease, hcall⟩ := Option.bind_eq_some_iff.mp h
  have hk : OutboxMessage.claim checks C ∈ OutboxMessage.later checks C := List.mem_cons_self
  have htells : Tells checks C ⟨m.inHand t.replay m.metadata, loadEntity id l⟩ m :=
    .load hstory t.replay
  cases htells.call hk hcall with
  | inl hrejected =>
    have hguard : (OutboxMessage.claim checks C).guard m Entity.new
        (workerId, UInt64.ofNat leasedUntil.secsSinceEpoch) = true := decide_eq_true hpending
    exact absurd (hrejected.1.symm.trans hguard) Bool.false_ne_true
  | inr h =>
    obtain ⟨m', hadv, htells', hid, -⟩ := h
    have hid' : a.entity.id = id := hid
    refine ⟨hid', m', ⟨leasedUntil, l, hlease, ?_, ?_⟩, htells'.markCommitted, ?_⟩
    · show s.lookup a.entity.id = some l
      rw [hid', hl]
    · show Advances checks C a.entity.id _ _ l a.entity.events m m'
      rw [hid']
      exact hadv
    · exact htells'.version

/-- The claim of a loaded message that is refused its lease or its count of attempts. -/
def ClaimPanics (checks : OverflowChecks) (t : Readings) (lease : Duration) (m : OutboxMessage) :
    Prop :=
  t.lease.add lease = none ∨ addU32 checks m.attempts 1 = none

/-- **A claim of a pending message panics** where the end of the lease is not a time or
the attempts cannot be counted. -/
theorem claimFor_eq_none {a : Agg OutboxMessage} {t : Readings} (hpending : a.fields.status = .pending) :
    OutboxMessage.claimFor checks C t workerId lease a = none
      ↔ ClaimPanics checks t lease a.fields := by
  unfold OutboxMessage.claimFor ClaimPanics
  cases t.lease.add lease with
  | none => exact ⟨fun _ => Or.inl rfl, fun _ => rfl⟩
  | some leasedUntil =>
    have hclaim := OutboxMessage.isSome_afterClaim checks a.fields workerId leasedUntil
    have hk : OutboxMessage.claim checks C ∈ OutboxMessage.later checks C := List.mem_cons_self
    have hcall := OutboxMessage.call_later (m := a.fields) (t := a.fields.createdAt)
      (d := a.fields.metadata) (a := a) hk
      (workerId, UInt64.ofNat leasedUntil.secsSinceEpoch) t.record rfl
    rw [if_pos (show (OutboxMessage.claim checks C).guard a.fields Entity.new
      (workerId, UInt64.ofNat leasedUntil.secsSinceEpoch) = true from decide_eq_true hpending)] at hcall
    show (OutboxMessage.claim checks C).call _ _ _ = none ↔ _
    rw [hcall, Option.map_eq_none_iff]
    show (a.fields.afterClaim checks workerId _).map _ = none ↔ _
    rw [Option.map_eq_none_iff, ← Option.not_isSome_iff_eq_none, hclaim, Option.not_isSome_iff_eq_none]
    exact ⟨Or.inr, fun h => h.resolve_left (fun h => by cases h)⟩

/-- **What a claim makes of the store**: it answers the messages it claimed, all that
were pending if these are fewer than it may claim; or it panics, at a message whose
claim does. -/
inductive ClaimResult (checks : OverflowChecks) (C : Codecs) (clock : String → Readings)
    (workerId : String) (lease : Duration) (ids : List String) (s : EventStore) (room : ℕ)
    (before : List (Agg OutboxMessage)) :
    RepoRes (List (Agg OutboxMessage)) × EventStore → Prop
  | ok {new : List (Agg OutboxMessage)} {s' : EventStore}
      (hclaims : Claims checks C clock workerId lease ids s s' new) (hp : s'.poisoned = s.poisoned)
      (hall : before.length + new.length < room → ∀ id ∈ ids, ∀ m, s.Message checks C id m →
        m.status = .pending → id ∈ new.map (fun a => a.entity.id)) :
      ClaimResult checks C clock workerId lease ids s room before (.ok (before ++ new), s')
  | panic {new : List (Agg OutboxMessage)} {s' : EventStore}
      (hclaims : Claims checks C clock workerId lease ids s s' new) (hp : s'.poisoned = true)
      (hwhy : ∃ id ∈ ids, ∃ m, s.Message checks C id m ∧ m.status = .pending
        ∧ ClaimPanics checks (clock id) lease m) :
      ClaimResult checks C clock workerId lease ids s room before (.error .panic, s')

namespace ClaimResult

variable {before : List (Agg OutboxMessage)}
  {r : RepoRes (List (Agg OutboxMessage)) × EventStore}

theorem stop (h : before.length < max → ∀ id ∈ ids, ∀ m, s.Message checks C id m →
      m.status ≠ .pending) :
    ClaimResult checks C clock workerId lease ids s max before (.ok before, s) := by
  have hok : ClaimResult checks C clock workerId lease ids s max before (.ok (before ++ []), s) :=
    .ok (.nil (fun _ => rfl)) rfl (fun hlt id hid m hm hpending => absurd hpending (h hlt id hid m hm))
  rw [List.append_nil] at hok
  exact hok

/-- One id passed over, under which no pending message is stored. -/
theorem skip {id : String} (hid : ∀ m, s.Message checks C id m → m.status ≠ .pending)
    (h : ClaimResult checks C clock workerId lease ids s max before r) :
    ClaimResult checks C clock workerId lease (id :: ids) s max before r := by
  cases h with
  | ok hclaims hp hall =>
    refine .ok hclaims.skip hp (fun hlt id' hid' m hm hpending => ?_)
    cases List.mem_cons.mp hid' with
    | inl heq => exact absurd hpending (hid m (heq ▸ hm))
    | inr hid' => exact hall hlt id' hid' m hm hpending
  | panic hclaims hp hwhy =>
    obtain ⟨id', hid', hwhy⟩ := hwhy
    exact .panic hclaims.skip hp ⟨id', List.mem_cons_of_mem _ hid', hwhy⟩

/-- **One message claimed, then others.** -/
theorem cons {a : Agg OutboxMessage} {m m' : OutboxMessage}
    (ha : ClaimedFrom checks C s (clock a.entity.id) workerId lease a m m')
    (hid : a.entity.id ∉ ids)
    (h : ClaimResult checks C clock workerId lease ids (s.put a.entity.id a.entity.events) max
      (before ++ [a]) r) :
    ClaimResult checks C clock workerId lease (a.entity.id :: ids) s max before r := by
  have hmessage : ∀ id' ∈ ids, ∀ m, (s.put a.entity.id a.entity.events).Message checks C id' m
      ↔ s.Message checks C id' m := fun id' hid' m => by
    have hne : id' ≠ a.entity.id := fun heq => hid (heq ▸ hid')
    rw [Message, Message, lookup_put_of_ne s hne]
  cases h with
  | @ok new s' hclaims hp hall =>
    rw [List.append_assoc]
    refine .ok (Claims.cons ha hid hclaims) hp (fun hlt id' hid' m hm hpending => ?_)
    have hlt' : (before ++ [a]).length + new.length < max := by
      rw [List.length_append, List.length_singleton]
      simp only [List.singleton_append, List.length_cons] at hlt
      omega
    cases List.mem_cons.mp hid' with
    | inl heq => exact heq ▸ List.mem_cons_self
    | inr hid' =>
      exact List.mem_cons_of_mem _ (hall hlt' id' hid' m ((hmessage id' hid' m).mpr hm) hpending)
  | panic hclaims hp hwhy =>
    obtain ⟨id', hid', m, hm, hwhy⟩ := hwhy
    exact .panic (Claims.cons ha hid hclaims) hp
      ⟨id', List.mem_cons_of_mem _ hid', m, (hmessage id' hid' m).mp hm, hwhy⟩

end ClaimResult

/-- **A turn of the claim loop at a pending message** claims it, or panics. -/
theorem claimLoop_pending (hC : C.Lawful) {id : String} {l : List EventRecord} {m : OutboxMessage}
    (hl : s.lookup id = some l) (hstory : Story checks C id l m) (hpending : m.status = .pending)
    (before : List (Agg OutboxMessage)) :
    claimLoop checks C clock workerId max lease (id :: ids) before s
      = match OutboxMessage.claimFor checks C (clock id) workerId lease
          ⟨m.inHand (clock id).replay m.metadata, loadEntity id l⟩ with
        | none => (.error .panic, s.afterFault .panic)
        | some a =>
          if max ≤ (before ++ [{ a with entity := a.entity.markCommitted }]).length then
            (.ok (before ++ [{ a with entity := a.entity.markCommitted }]), s.put id a.entity.events)
          else claimLoop checks C clock workerId max lease ids
            (before ++ [{ a with entity := a.entity.markCommitted }]) (s.put id a.entity.events) := by
  rw [claimLoop, messageEvents_eq_some.mpr ⟨hl, hstory.hasPrefix⟩]
  dsimp only
  rw [hydrateMessage_eq hC hstory]
  dsimp only
  exact (if_pos (show (m.inHand (clock id).replay m.metadata).isPending = true from
    decide_eq_true hpending)).trans rfl

/-- A turn of the claim loop at another message passes it over. -/
theorem claimLoop_not_pending (hC : C.Lawful) {id : String} {l : List EventRecord}
    {m : OutboxMessage} (hl : s.lookup id = some l) (hstory : Story checks C id l m)
    (hpending : m.status ≠ .pending) (before : List (Agg OutboxMessage)) :
    claimLoop checks C clock workerId max lease (id :: ids) before s
      = if max ≤ before.length then (.ok before, s)
        else claimLoop checks C clock workerId max lease ids before s := by
  rw [claimLoop, messageEvents_eq_some.mpr ⟨hl, hstory.hasPrefix⟩]
  dsimp only
  rw [hydrateMessage_eq hC hstory]
  dsimp only
  rw [if_neg (show ¬ (m.inHand (clock id).replay m.metadata).isPending = true from
    fun h => hpending (of_decide_eq_true h))]

/-- **The claim loop.** -/
theorem claimLoop_spec (hC : C.Lawful) (hnd : ids.Nodup) (before : List (Agg OutboxMessage))
    (hs : Stories checks C s) :
    ClaimResult checks C clock workerId lease ids s max before
      (claimLoop checks C clock workerId max lease ids before s) := by
  induction ids generalizing before s with
  | nil => exact .stop (fun _ id hid => absurd hid List.not_mem_nil)
  | cons id ids ih =>
    obtain ⟨hid, hnd'⟩ := List.nodup_cons.mp hnd
    cases hevents : s.messageEvents id with
    | none =>
      rw [claimLoop, hevents]
      refine (ih hnd' before hs).skip (fun m hm _ => ?_)
      -- a message has a stream under an id with the prefix
      obtain ⟨l, hl, hstory⟩ := hm
      rw [messageEvents_eq_some.mpr ⟨hl, hstory.hasPrefix⟩] at hevents
      cases hevents
    | some l =>
      obtain ⟨hl, hpre⟩ := messageEvents_eq_some.mp hevents
      obtain ⟨m, hstory⟩ := hs id l hl hpre
      by_cases hpending : m.status = .pending
      · rw [claimLoop_pending hC hl hstory hpending]
        cases hclaim : OutboxMessage.claimFor checks C (clock id) workerId lease
            ⟨m.inHand (clock id).replay m.metadata, loadEntity id l⟩ with
        | none =>
          exact .panic (.nil (fun _ => rfl)) rfl ⟨id, List.mem_cons_self, m, ⟨l, hl, hstory⟩, hpending,
            (claimFor_eq_none hpending).mp hclaim⟩
        | some a =>
          obtain ⟨heq, m', hfrom⟩ := claimFor_spec hstory hl hpending hclaim
          subst heq
          refine .cons (a := { a with entity := a.entity.markCommitted }) hfrom hid ?_
          dsimp only
          by_cases henough : max ≤ (before ++ [{ a with entity := a.entity.markCommitted }]).length
          · rw [if_pos henough]
            exact .stop (fun hlt => absurd hlt (Nat.not_lt.mpr henough))
          · rw [if_neg henough]
            exact ih hnd' _ (hs.put hfrom.tells.story)
      · rw [claimLoop_not_pending hC hl hstory hpending]
        by_cases henough : max ≤ before.length
        · rw [if_pos henough]
          exact .stop (fun hlt => absurd hlt (Nat.not_lt.mpr henough))
        · rw [if_neg henough]
          exact (ih hnd' before hs).skip (fun m' hm' heq =>
            hpending (hm'.unique hC ⟨l, hl, hstory⟩ ▸ heq))

/-- **A claim** of a store whose lock is not poisoned. -/
theorem claimOutboxMessages_spec (hC : C.Lawful) (hs : Stories checks C s)
    (hp : s.poisoned = false) (hord : s.Enumerates ids)
    {r : RepoRes (List (Agg OutboxMessage)) × EventStore}
    (h : claimOutboxMessages checks C ids clock s workerId max lease = r) :
    ClaimResult checks C clock workerId lease ids s max [] r := by
  rw [claimOutboxMessages, hp, if_neg Bool.false_ne_true] at h
  rw [← h]
  exact claimLoop_spec hC hord.1 [] hs

/-- **A claim that succeeds** has done what it returns, of a lock that was not poisoned. -/
theorem claims_of_claim (hC : C.Lawful) (hs : Stories checks C s) (hord : s.Enumerates ids)
    {as : List (Agg OutboxMessage)}
    (h : claimOutboxMessages checks C ids clock s workerId max lease = (.ok as, s')) :
    s.poisoned = false ∧ Claims checks C clock workerId lease ids s s' as := by
  cases hp : s.poisoned with
  | true =>
    rw [claimOutboxMessages, hp] at h
    cases h
  | false =>
    cases claimOutboxMessages_spec hC hs hp hord h with
    | ok hclaims _ _ => exact ⟨rfl, hclaims⟩

/-! ## Messages loaded -/

variable (checks C s) in
/-- **A stored message**, as it is loaded. -/
def Loads (id : String) (a : Agg OutboxMessage) : Prop :=
  ∃ l now, s.messageEvents id = some l ∧ hydrateMessage checks C now id l = .ok a

theorem Message.loads (hC : C.Lawful) {id : String} {m : OutboxMessage}
    (h : s.Message checks C id m) (now : SystemTime) :
    ∃ l, s.Loads checks C id ⟨m.inHand now m.metadata, loadEntity id l⟩ := by
  obtain ⟨l, hl, hstory⟩ := h
  exact ⟨l, l, now, messageEvents_eq_some.mpr ⟨hl, hstory.hasPrefix⟩, hydrateMessage_eq hC hstory now⟩

theorem Stories.message (hs : Stories checks C s) (hC : C.Lawful) {id : String}
    {a : Agg OutboxMessage} (h : s.Loads checks C id a) :
    ∃ m now, s.Message checks C id m ∧ a.fields = m.inHand now m.metadata := by
  obtain ⟨l, now, hevents, hhydrate⟩ := h
  obtain ⟨hl, hpre⟩ := messageEvents_eq_some.mp hevents
  obtain ⟨m, hstory⟩ := hs id l hl hpre
  refine ⟨m, now, ⟨l, hl, hstory⟩, ?_⟩
  rw [← Except.ok.inj ((hydrateMessage_eq hC hstory now).symm.trans hhydrate)]

/-- **A message listed by its status** is a stored message, loaded. -/
theorem loads_of_listed {ord : List String} {status : OutboxMessageStatus} {as : List (Agg OutboxMessage)}
    (h : s.outboxMessagesByStatus checks C ord clock status = .ok as) {a : Agg OutboxMessage} (ha : a ∈ as) :
    ∃ id, s.Loads checks C id a := by
  unfold outboxMessagesByStatus at h
  split at h
  · cases h
  · obtain ⟨id, hid, bs, hbs, ha⟩ := ((Res.mem_of_collect_eq_ok h).2 a).mp ha
    cases hevents : s.messageEvents id with
    | none =>
      rw [hevents] at hbs
      obtain rfl : [] = bs := Except.ok.inj hbs
      exact absurd ha List.not_mem_nil
    | some l =>
      rw [hevents] at hbs
      cases hload : hydrateMessage checks C (clock id).replay id l with
      | error f => simp only [hload] at hbs; cases hbs
      | ok b =>
        simp only [hload] at hbs
        obtain rfl := Except.ok.inj hbs
        obtain rfl : a = b := List.mem_singleton.mp (List.mem_of_mem_filter ha)
        exact ⟨id, l, _, hevents, hload⟩

/-! ## Messages settled -/

/-- **One message has gone on by one event**, and nothing else has changed. -/
structure Advanced (checks : OverflowChecks) (C : Codecs) (s s' : EventStore) (id : String)
    (k : EventMethod OutboxMessage) (x : k.Args) (m m' : OutboxMessage) : Prop where
  stored : ∃ l l', s.lookup id = some l ∧ s'.lookup id = some l' ∧ Advances checks C id k x l l' m m'
  others : ∀ id' ≠ id, s'.lookup id' = s.lookup id'
  poisoned : s'.poisoned = s.poisoned

/-- A stream replaced by what it is. -/
theorem put_of_lookup {id : String} {l : List EventRecord} (h : s.lookup id = some l) :
    s.put id l = s := by
  have hstreams : s.streams.insert id l = s.streams := by
    refine Finmap.ext_lookup (fun id' => ?_)
    by_cases hid : id' = id
    · rw [hid]
      exact (Finmap.lookup_insert _).trans h.symm
    · exact Finmap.lookup_insert_of_ne _ hid
  show (⟨s.streams.insert id l, s.poisoned⟩ : EventStore) = s
  rw [hstreams]

/-- **One message updated** by a method whose guard holds only where `test` does: the
method takes effect, or nothing happens. -/
theorem updateMessage_spec (hC : C.Lawful) (hp : s.poisoned = false) {messageId : String}
    {m : OutboxMessage} (hm : s.Message checks C (normalizeId messageId) m)
    {k : EventMethod OutboxMessage} (hk : k ∈ OutboxMessage.later checks C) {x : k.Args}
    {m' : OutboxMessage} (hbody : k.body SystemTime.unixEpoch m Entity.new x = some (m', none))
    (test : OutboxMessage → Bool)
    (htest : k.guard m Entity.new x = true → ∀ t d, test (m.inHand t d) = true) (t : Readings) :
    ∃ s', updateMessage checks C t s messageId test (k.call t.record x) = (.ok (), s')
      ∧ (k.guard m Entity.new x = false ∧ s' = s
        ∨ k.guard m Entity.new x = true
          ∧ Advanced checks C s s' (normalizeId messageId) k x m m') := by
  obtain ⟨l, hl, hstory⟩ := hm
  have htells : Tells checks C ⟨m.inHand t.replay m.metadata, loadEntity (normalizeId messageId) l⟩ m :=
    .load hstory t.replay
  have hcall := OutboxMessage.call_later (m := m) hk x t.record
    (a := ⟨m.inHand t.replay m.metadata, loadEntity (normalizeId messageId) l⟩) rfl
  rw [hbody] at hcall
  unfold updateMessage
  rw [hp, if_neg Bool.false_ne_true, hl]
  dsimp only
  rw [hydrateMessage_eq hC hstory]
  dsimp only
  cases hguard : k.guard m Entity.new x with
  | false =>
    rw [hguard] at hcall
    rw [hcall]
    refine ⟨s, ?_, Or.inl ⟨rfl, rfl⟩⟩
    -- the message written back is the one that was read
    by_cases h : test (m.inHand t.replay m.metadata) = true
    · rw [if_pos h]
      exact congrArg (Prod.mk _) (put_of_lookup hl)
    · rw [if_neg h]
  | true =>
    rw [if_pos (htest hguard _ _)]
    rw [hguard, if_pos rfl] at hcall
    rw [hcall]
    cases htells.call hk hcall with
    | inl hrejected => exact absurd (hrejected.1.symm.trans hguard) Bool.false_ne_true
    | inr h =>
      obtain ⟨m₁, hadv, -, -, -⟩ := h
      obtain rfl : m₁ = m' := congrArg Prod.fst (Option.some.inj (hadv.body.symm.trans hbody))
      exact ⟨_, rfl, Or.inr ⟨rfl, ⟨l, _, hl, lookup_put_self _ _ _, hadv⟩,
        fun id' hid' => lookup_put_of_ne s hid' _, rfl⟩⟩

end EventStore

/-- **What settles a message by its id**: `complete_outbox_message`,
`release_outbox_message` or `fail_outbox_message`. -/
inductive Settling where
  | complete
  | release (error : String)
  | fail (error : String)

namespace Settling

/-- The operation. -/
def run (checks : OverflowChecks) (C : Codecs) (t : Readings) (s : EventStore) (messageId : String) :
    Settling → RepoRes Unit × EventStore
  | complete => s.completeOutboxMessage checks C t messageId
  | release error => s.releaseOutboxMessage checks C t messageId error
  | fail error => s.failOutboxMessage checks C t messageId error

/-- The event method it calls. -/
def method (C : Codecs) : Settling → EventMethod OutboxMessage
  | complete => OutboxMessage.complete C
  | release _ => OutboxMessage.release C
  | fail _ => OutboxMessage.fail C

/-- The arguments it calls the method with. -/
def args (C : Codecs) : (u : Settling) → (u.method C).Args
  | complete => ()
  | release error => error
  | fail error => error

/-- The messages it settles. -/
def settles (m : OutboxMessage) : Settling → Bool
  | complete => m.isInFlight
  | release _ => m.isInFlight
  | fail _ => m.canFail

/-- The message settled. -/
def after (m : OutboxMessage) : Settling → OutboxMessage
  | complete => m.settle .published m.lastError
  | release error => m.settle .pending (OutboxMessage.errorText error)
  | fail error => m.settle .failed (OutboxMessage.errorText error)

variable {s : EventStore} {messageId : String} {t : Readings}

/-- **A message settled by its id**, in any spelling: it goes on by the event of the
operation, or stays what it was where the operation does not settle it. -/
theorem run_spec (hC : C.Lawful) (hp : s.poisoned = false) (u : Settling) {m : OutboxMessage}
    (hm : s.Message checks C (normalizeId messageId) m) :
    ∃ s', u.run checks C t s messageId = (.ok (), s')
      ∧ (u.settles m = false ∧ s' = s
        ∨ u.settles m = true ∧ s.Advanced checks C s' (normalizeId messageId) (u.method C) (u.args C)
          m (u.after m)) := by
  cases u with
  | complete =>
    exact EventStore.updateMessage_spec hC hp hm (k := OutboxMessage.complete C) (x := ())
      (by simp [OutboxMessage.later]) rfl _ (fun h _ _ => h) t
  | release error =>
    exact EventStore.updateMessage_spec hC hp hm (k := OutboxMessage.release C) (x := error)
      (by simp [OutboxMessage.later]) rfl _ (fun h _ _ => h) t
  | fail error =>
    exact EventStore.updateMessage_spec hC hp hm (k := OutboxMessage.fail C) (x := error)
      (by simp [OutboxMessage.later]) rfl (fun _ => true) (fun _ _ _ => rfl) t

theorem run_of_lookup (hp : s.poisoned = false) (u : Settling)
    (h : s.lookup (normalizeId messageId) = none) :
    u.run checks C t s messageId = (.ok (), s) := by
  cases u <;>
  · simp only [run, EventStore.completeOutboxMessage, EventStore.releaseOutboxMessage,
      EventStore.failOutboxMessage, EventStore.updateMessage]
    rw [hp, if_neg Bool.false_ne_true, h]

theorem run_of_poisoned (hp : s.poisoned = true) (u : Settling) :
    u.run checks C t s messageId = (.error (.err (.lockPoisoned "write")), s) := by
  cases u <;> exact if_pos hp

end Settling
