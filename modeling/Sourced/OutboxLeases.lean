import Sourced.OutboxHistory
import Mathlib.Data.Set.Card

/-!
# Leases of outbox messages

A claim puts a message in flight and gives it a lease, so that a worker that crashes
with the message in its hands would not keep it for ever. But the claim loop asks for
pending messages only, and never looks at the end of a lease: a message whose worker
has crashed stays in flight.

What is exactly so is `OutboxClients.deliverable_iff`: at a time `t` every message that
is due – not published or failed, and with no lease that ends after `t` – is returned by
a claim of as many messages as there are of them, if and only if none of them is in
flight, the lock is not poisoned, and the attempts at each of them can be counted.
-/

open OutboxMessage (Codecs Readings Story)

variable {checks : OverflowChecks} {C : Codecs}

/-- **A message that is due** at a time. -/
def OutboxMessage.Due (m : OutboxMessage) (t : SystemTime) : Prop :=
  m.status ≠ .published ∧ m.status ≠ .failed ∧ ∀ leasedUntil, m.leasedUntil = some leasedUntil →
    leasedUntil ≤ t

namespace EventStore

variable {s : EventStore}

variable (checks C s) in
/-- The ids of the messages that are due. -/
def dueIds (t : SystemTime) : Set String := { id | ∃ a, s.Loads checks C id a ∧ a.fields.Due t }

variable (checks C s) in
/-- **Every message that is due can be had**: each claim at the time, of as many messages
as are due and with a lease that has an end, returns it. -/
def Deliverable (t : SystemTime) : Prop :=
  ∀ id ∈ s.dueIds checks C t, ∀ (ord : List String) (clock : String → Readings)
    (workerId : String) (max : ℕ) (lease : Duration), s.Enumerates ord →
    (∀ id, (clock id).lease = t) → (t.add lease).isSome → (s.dueIds checks C t).ncard ≤ max →
    ∃ as s', s.claimOutboxMessages checks C ord clock workerId max lease = (.ok as, s')
      ∧ id ∈ as.map (fun a => a.entity.id)

variable (checks C s) in
/-- **The lock is not poisoned, and every message that is due is pending** and can be
claimed once more. -/
def Claimable (t : SystemTime) : Prop :=
  ∀ id a, s.Loads checks C id a → a.fields.Due t →
    s.poisoned = false ∧ a.fields.status = .pending
      ∧ (checks = true → a.fields.attempts + 1 < 2 ^ 32)

/-- **What a claim returned was pending** and could be claimed. -/
theorem Deliverable.claimable (hC : C.Lawful) (hs : Stories checks C s) {t : SystemTime}
    (h : s.Deliverable checks C t) : s.Claimable checks C t := by
  intro id a hloads hdue
  obtain ⟨ord, hord⟩ := s.exists_enumerates
  obtain ⟨as, s', hclaim, hid⟩ := h id ⟨a, hloads, hdue⟩ ord (fun _ => ⟨t, t, t⟩) ""
    (s.dueIds checks C t).ncard (.fromSecs 0 (by decide)) hord (fun _ => rfl)
    (by rw [SystemTime.add_zero]; rfl) le_rfl
  obtain ⟨hp, hclaims⟩ := claims_of_claim hC hs hord hclaim
  obtain ⟨b, hb, rfl⟩ := List.mem_map.mp hid
  obtain ⟨-, m₀, m', ⟨_, l, -, hl, hadv⟩, -, -⟩ := hclaims.each b hb
  obtain ⟨m, now, hm, hfields⟩ := hs.message hC hloads
  obtain rfl : m₀ = m := Message.unique hC ⟨l, hl, hadv.before⟩ hm
  obtain ⟨hpending, -, hattempts⟩ := hadv.claimed
  rw [hfields]
  refine ⟨hp, hpending, fun hchecks => ?_⟩
  by_contra hlt
  cases (addU32_one_eq_none.mpr ⟨hchecks, hlt⟩).symm.trans hattempts

/-- **A pending message is due**, for nobody has it; so it is claimable. -/
theorem Claimable.of_pending (hC : C.Lawful) {t : SystemTime} (h : s.Claimable checks C t)
    {id : String} {m : OutboxMessage} (hm : s.Message checks C id m) (hpending : m.status = .pending) :
    id ∈ s.dueIds checks C t ∧ (checks = true → m.attempts + 1 < 2 ^ 32) := by
  obtain ⟨l, hloads⟩ := hm.loads hC t
  have hleased : m.leasedUntil.isSome ↔ m.status = .inFlight := by
    obtain ⟨l', -, hstory⟩ := hm
    exact hstory.machine.2.2.2
  have hnone : ∀ u, m.leasedUntil ≠ some u := fun u hu => by
    rw [hu, hpending] at hleased
    exact absurd (hleased.mp rfl) (by decide)
  have hne : ∀ status, status ≠ .pending → (m.inHand t m.metadata).status ≠ status :=
    fun status hstatus heq => hstatus (heq.symm.trans hpending)
  have hdue : (m.inHand t m.metadata).Due t :=
    ⟨hne _ (by decide), hne _ (by decide), fun u hu => absurd hu (hnone u)⟩
  exact ⟨⟨_, hloads, hdue⟩, (h id _ hloads hdue).2.2⟩

theorem finite_dueIds (checks : OverflowChecks) (C : Codecs) {ord : List String}
    (hord : s.Enumerates ord) (t : SystemTime) : (s.dueIds checks C t).Finite := by
  refine (List.finite_toSet ord).subset ?_
  rintro id ⟨a, ⟨l, _, hevents, -⟩, -⟩
  refine (hord.2 id).mpr ?_
  rw [(messageEvents_eq_some.mp hevents).1]
  rfl

/-- **As many ids as are due, all of them due**, are the ids that are due. -/
theorem mem_of_length_dueIds {ord : List String} (hord : s.Enumerates ord) {t : SystemTime}
    {ids : List String} (hnd : ids.Nodup) (hsub : ∀ id ∈ ids, id ∈ s.dueIds checks C t)
    (hle : (s.dueIds checks C t).ncard ≤ ids.length) {id : String}
    (hid : id ∈ s.dueIds checks C t) : id ∈ ids := by
  have hcard : (s.dueIds checks C t).ncard ≤ (ids.toFinset : Set String).ncard := by
    rw [Set.ncard_coe_finset, List.toFinset_card_of_nodup hnd]
    exact hle
  have heq : (ids.toFinset : Set String) = s.dueIds checks C t :=
    Set.eq_of_subset_of_ncard_le (fun id' hid' => hsub id' (List.mem_toFinset.mp hid')) hcard
      (finite_dueIds checks C hord t)
  have hmem : id ∈ (ids.toFinset : Set String) := heq ▸ hid
  exact List.mem_toFinset.mp hmem

/-- **Where every message that is due can be claimed, a claim returns them all.** -/
theorem Claimable.deliverable (hC : C.Lawful) (hs : Stories checks C s) {t : SystemTime}
    (h : s.Claimable checks C t) : s.Deliverable checks C t := by
  rintro id ⟨a, hloads, hdueA⟩ ord clock workerId max lease hord hclock hlease hmax
  obtain ⟨hp, hpending, -⟩ := h id a hloads hdueA
  obtain ⟨m, now, hm, hfields⟩ := hs.message hC hloads
  rw [hfields] at hpending
  generalize hr : s.claimOutboxMessages checks C ord clock workerId max lease = r
  cases claimOutboxMessages_spec hC hs hp hord hr with
  | panic _ _ hwhy =>
    obtain ⟨id', -, m', hm', hpending', hpanic⟩ := hwhy
    cases hpanic with
    | inl hnone =>
      rw [hclock] at hnone
      rw [hnone] at hlease
      cases hlease
    | inr hnone =>
      obtain ⟨hchecks, hlt⟩ := addU32_one_eq_none.mp hnone
      exact absurd ((h.of_pending hC hm' hpending').2 hchecks) hlt
  | @ok new s' hclaims _ hall =>
    refine ⟨_, s', rfl, ?_⟩
    rw [List.nil_append]
    by_cases hlt : new.length < max
    · refine hall (by simpa using hlt) id ((hord.2 id).mpr ?_) m hm hpending
      obtain ⟨l, hl, -⟩ := hm
      rw [hl]
      rfl
    · -- the claimed ids are as many as are due
      refine mem_of_length_dueIds hord (hclaims.sublist.nodup hord.1) (fun id' hid' => ?_) ?_
        ⟨a, hloads, hdueA⟩
      · obtain ⟨b, hb, rfl⟩ := List.mem_map.mp hid'
        obtain ⟨-, m₀, m', ⟨_, l, -, hl, hadv⟩, -, -⟩ := hclaims.each b hb
        exact (h.of_pending hC ⟨l, hl, hadv.before⟩ hadv.claimed.1).1
      · rw [List.length_map]
        exact hmax.trans (Nat.not_lt.mp hlt)

end EventStore

namespace OutboxClients

/-- **A lease that has ended makes no message claimable again.** In every history and at
every time, the claims return every message that is due if and only if every such message
is pending, the lock is not poisoned, and – in a build with overflow checks – none of them
has been claimed `2 ^ 32 - 1` times. -/
theorem deliverable_iff (hC : C.Lawful) {c : OutboxClients} (hrun : Run checks C initial c)
    (t : SystemTime) : c.store.Deliverable checks C t ↔ c.store.Claimable checks C t := by
  obtain ⟨hinv, -⟩ := inv_initial.run hC hrun
  exact ⟨fun h => h.claimable hC hinv.stories, fun h => h.deliverable hC hinv.stories⟩

/-- A message that has been committed is delivered. -/
theorem deliverable_committed : ∃ c : OutboxClients, Run true Codecs.counting initial c
    ∧ (c.store.lookup "outbox:m").isSome
    ∧ c.store.Deliverable true Codecs.counting SystemTime.unixEpoch := by
  obtain ⟨c, l, m, hrun, hsingle, hclaims⟩ := exists_single true Codecs.counting
  refine ⟨c, hrun, by rw [hsingle.stored]; rfl,
    (deliverable_iff Codecs.counting_lawful hrun SystemTime.unixEpoch).mpr ?_⟩
  intro id a hloads _
  obtain ⟨m', now, ⟨l', hl', hstory⟩, hfields⟩ :=
    hsingle.stories.message Codecs.counting_lawful hloads
  obtain rfl : id = "outbox:m" := hsingle.only id (by rw [hl']; rfl)
  obtain rfl : l = l' := Option.some.inj (hsingle.stored.symm.trans hl')
  obtain rfl : m' = m := hstory.unique Codecs.counting_lawful hsingle.story
  rw [hfields]
  refine ⟨hsingle.not_poisoned, hsingle.pending, fun hchecks => ?_⟩
  show m'.attempts + 1 < 2 ^ 32
  rw [hstory.machine.2.1.2 hchecks, hclaims]
  decide

/-- **A worker that crashes keeps its message**: the message was claimed with a lease that
has ended, and no claim returns it. -/
theorem crashed_worker_keeps : ¬ ∀ c, Run true Codecs.counting initial c →
    ∀ t, c.store.Deliverable true Codecs.counting t := by
  intro h
  obtain ⟨c, l, m, hrun, hsingle, hclaims⟩ := exists_single true Codecs.counting
  have hpanic := hsingle.not_claimPanics (fun _ => hclaims ▸ by decide)
    ⟨SystemTime.unixEpoch, SystemTime.unixEpoch, SystemTime.unixEpoch⟩
  obtain ⟨a, s, m', hclaim, hid, -, hstored, -, hfrom⟩ := hsingle.claim
    Codecs.counting_lawful
    (fun _ => ⟨SystemTime.unixEpoch, SystemTime.unixEpoch, SystemTime.unixEpoch⟩) "w"
    Nat.one_lt_two hpanic
  have hrun' : Run true Codecs.counting initial ⟨s, c.hands ++ [a]⟩ :=
    hrun.tail (.claim hsingle.enumerates hclaim)
  obtain ⟨_, l', -, -, hadv⟩ := hfrom.claimed
  rw [hid] at hadv
  obtain ⟨-, -, -, hleased⟩ := hadv.after.machine
  have hnext := hadv.took.next
  rw [hsingle.pending] at hnext
  have hflight : m'.status = .inFlight := (Option.some.inj hnext).symm
  -- at the end of its lease the message is due, but it is in flight
  obtain ⟨t, ht⟩ := Option.isSome_iff_exists.mp (hleased.mpr hflight)
  obtain ⟨l'', hloads⟩ := EventStore.Message.loads Codecs.counting_lawful
    (show s.Message true Codecs.counting "outbox:m" m' from ⟨_, hstored, hadv.after⟩) t
  have hdue : (m'.inHand t m'.metadata).Due t := by
    refine ⟨fun heq => ?_, fun heq => ?_, fun u hu => ?_⟩
    · exact absurd (hflight.symm.trans heq) (by decide)
    · exact absurd (hflight.symm.trans heq) (by decide)
    · obtain rfl : t = u := Option.some.inj (ht.symm.trans hu)
      exact Or.inr ⟨rfl, le_rfl⟩
  obtain ⟨-, hpending, -⟩ := (h _ hrun' t).claimable Codecs.counting_lawful
    (inv_initial.run Codecs.counting_lawful hrun').1.stories _ _ hloads hdue
  exact absurd (hflight.symm.trans hpending) (by decide)

end OutboxClients
