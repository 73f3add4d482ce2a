import Sourced.OutboxHistory
import Sourced.OutboxContent

/-!
# What a claim claims, and what a failed one leaves

`claim_outbox_messages` goes through the map once. It rebuilds every stream under
an id with the prefix, claims and writes back the pending messages one by one, and
looks after each whether it has enough. The streams need not tell stories here: a
stream that hydrates is claimed whatever its events are, and one that does not ends
the call with an error.

Up to where it stops, the loop passes over a beginning of the order of iteration
(`EventStore.claimLoop_pass`): what is pending there is taken, and nothing else is
changed. It stops at the last message that it may claim, at a stream that does not
hydrate, or at a claim that panics.

It looks whether it has enough only after it has claimed. A call that may claim
nothing therefore claims the first message it comes to, where this one is pending
(`EventStore.claim_spec_iff`). And it writes as it goes, so that a stream that does
not hydrate ends the call after others have been claimed, of which the caller is not
told (`EventStore.failed_claim_iff`).
-/

open OutboxMessage (Codecs Readings hasPrefix)

variable {checks : OverflowChecks} {C : Codecs}

namespace EventStore

/-! ## One message claimed -/

section Claims

variable {s s' : EventStore} {clock : String → Readings} {t : Readings} {workerId id : String}
  {lease : Duration} {max : ℕ} {l : List EventRecord} {m : OutboxMessage}

/-- **A message taken by a claim**: its stream is the old one and the record of the claim,
which says of it that it is in flight, once more attempted, and whose; and the copy
returned has this stream, all of it committed. -/
structure TakenAs (checks : OverflowChecks) (C : Codecs) (s s' : EventStore) (workerId id : String)
    (a : Agg OutboxMessage) (l : List EventRecord) (r : EventRecord) (m m' : OutboxMessage) :
    Prop where
  stored : s.messageEvents id = some l
  was : content checks C l = .ok m
  pending : m.status = .pending
  name : r.eventName = "MessageClaimed"
  stored' : s'.lookup id = some (l ++ [r])
  became : content checks C (l ++ [r]) = .ok m'
  inFlight : m'.status = .inFlight
  attempts : addU32 checks m.attempts 1 = some m'.attempts
  worker : m'.workerId = some workerId
  copy : a.fields.undated = m'
  events : a.entity.events = l ++ [r]
  newEvents : a.entity.newEvents = some []

/-- A message taken by a claim, as some event. -/
def Taken (checks : OverflowChecks) (C : Codecs) (s s' : EventStore) (workerId id : String)
    (a : Agg OutboxMessage) : Prop :=
  ∃ l r m m', TakenAs checks C s s' workerId id a l r m m'

/-- **A pending message is taken**, unless its claim panics. -/
theorem exists_taken (hC : C.Lawful) (workerId : String) (hl : s.messageEvents id = some l)
    (hm : content checks C l = .ok m) (hpending : m.status = .pending)
    (hpanic : ¬ ClaimPanics checks t lease m) : ∃ b a,
      hydrateMessage checks C t.replay id l = .ok b ∧ b.fields.isPending = true
        ∧ OutboxMessage.claimFor checks C t workerId lease b = some a
        ∧ Taken checks C s (s.put id a.entity.events) workerId id
          { a with entity := a.entity.markCommitted } := by
  obtain ⟨b, id', hb, hfields, hentity⟩ := exists_hydrate hm t.replay id
  have hstatus : b.fields.status = .pending :=
    (congrArg (fun m => m.status) hfields).trans hpending
  cases ha : OutboxMessage.claimFor checks C t workerId lease b with
  | none =>
    have hattempts : b.fields.attempts = m.attempts := congrArg (fun m => m.attempts) hfields
    refine absurd ((claimFor_eq_none hstatus).mp ha) ?_
    unfold ClaimPanics at hpanic ⊢
    rw [hattempts]
    exact hpanic
  | some a =>
    refine ⟨b, a, hb, decide_eq_true hstatus, ha, ?_⟩
    obtain ⟨leasedUntil, -, hcall⟩ := Option.bind_eq_some_iff.mp ha
    have hk : OutboxMessage.claim checks C ∈ OutboxMessage.later checks C := List.mem_cons_self
    have hlive := OutboxMessage.call_later hk (workerId, UInt64.ofNat leasedUntil.secsSinceEpoch) t.record
      (m := m) (a := b) (t := b.fields.createdAt) (d := b.fields.metadata) (by rw [← hfields]; rfl)
    rw [if_pos (show (OutboxMessage.claim checks C).guard m Entity.new
      (workerId, UInt64.ofNat leasedUntil.secsSinceEpoch) = true from decide_eq_true hpending)] at hlive
    obtain ⟨⟨m₁, o⟩, hbody, rfl⟩ := Option.map_eq_some_iff.mp (hlive.symm.trans hcall)
    obtain ⟨-, hmetadata, rfl⟩ := OutboxMessage.later_keeps hk hbody
    obtain ⟨m₂, hclaim, heq⟩ := Option.map_eq_some_iff.mp hbody
    obtain rfl : m₂ = m₁ := congrArg Prod.fst heq
    obtain ⟨until', -, hafter⟩ := Option.bind_eq_some_iff.mp hclaim
    obtain ⟨attempts, hattempts, hm₂⟩ := Option.map_eq_some_iff.mp hafter
    have hevents : b.entity.events = l := by
      rw [hentity]
      rfl
    have hdigest : (OutboxMessage.claim checks C).digest t.record b.entity
        (workerId, UInt64.ofNat leasedUntil.secsSinceEpoch) = { b.entity with
          events := b.entity.events ++ [b.entity.record t.record "MessageClaimed" 1 C.claimed
            (workerId, UInt64.ofNat leasedUntil.secsSinceEpoch)]
          version := b.entity.events.length + 1 } :=
      Entity.digestAt_eq (by rw [hentity]; rfl) _ _ _ _ _
    rw [hevents] at hdigest
    dsimp only
    rw [hdigest]
    refine ⟨l, _, m, m₂.undated, hl, hm, hpending, rfl, lookup_put_self _ _ _,
      content_concat hC hm hpending rfl rfl hclaim, ?_, ?_, ?_, ?_, rfl, ?_⟩
    · rw [← hm₂]
      rfl
    · rw [hattempts, ← hm₂]
      rfl
    · rw [← hm₂]
      rfl
    · show m₂.inHand SystemTime.unixEpoch b.fields.metadata = m₂.inHand SystemTime.unixEpoch m₂.metadata
      rw [hmetadata, ← hfields]
      rfl
    · simp [Entity.newEvents, Entity.uncommitted, Entity.markCommitted]

/-! ## The turns of the loop -/

variable {ids : List String} {before : List (Agg OutboxMessage)}

theorem claimLoop_absent (h : s.messageEvents id = none) :
    claimLoop checks C clock workerId max lease (id :: ids) before s
      = claimLoop checks C clock workerId max lease ids before s := by
  rw [claimLoop, h]

theorem claimLoop_error {f : Fault RepositoryError} (hl : s.messageEvents id = some l)
    (hf : content checks C l = .error f) :
    claimLoop checks C clock workerId max lease (id :: ids) before s = (.error f, s.afterFault f) := by
  rw [claimLoop, hl]
  dsimp only
  rw [hydrate_eq_error.mpr hf]

/-- A message that is not pending is left as it is. -/
theorem claimLoop_leave (hl : s.messageEvents id = some l) (hm : content checks C l = .ok m)
    (hpending : m.status ≠ .pending) :
    claimLoop checks C clock workerId max lease (id :: ids) before s
      = if max ≤ before.length then (.ok before, s)
        else claimLoop checks C clock workerId max lease ids before s := by
  obtain ⟨b, -, hb, hfields, -⟩ := exists_hydrate hm (clock id).replay id
  rw [claimLoop, hl]
  dsimp only
  rw [hb]
  dsimp only
  refine if_neg (fun h => hpending ?_)
  rw [← hfields]
  exact of_decide_eq_true h

/-- A pending message is taken. -/
theorem claimLoop_take (hC : C.Lawful) (hl : s.messageEvents id = some l)
    (hm : content checks C l = .ok m) (hpending : m.status = .pending)
    (hpanic : ¬ ClaimPanics checks (clock id) lease m) (ids : List String)
    (before : List (Agg OutboxMessage)) : ∃ a events,
      Taken checks C s (s.put id events) workerId id a
        ∧ claimLoop checks C clock workerId max lease (id :: ids) before s
          = if max ≤ (before ++ [a]).length then (.ok (before ++ [a]), s.put id events)
            else claimLoop checks C clock workerId max lease ids (before ++ [a]) (s.put id events) := by
  obtain ⟨b, a, hb, hb', ha, htaken⟩ := exists_taken hC workerId hl hm hpending hpanic
  refine ⟨_, _, htaken, ?_⟩
  rw [claimLoop, hl]
  dsimp only
  rw [hb]
  dsimp only
  rw [if_pos hb', ha]

/-- A pending message whose claim panics ends the loop. -/
theorem claimLoop_panic (hl : s.messageEvents id = some l) (hm : content checks C l = .ok m)
    (hpending : m.status = .pending) (hpanic : ClaimPanics checks (clock id) lease m) :
    claimLoop checks C clock workerId max lease (id :: ids) before s
      = (.error .panic, s.afterFault .panic) := by
  obtain ⟨b, -, hb, hfields, -⟩ := exists_hydrate hm (clock id).replay id
  have hstatus : b.fields.status = .pending :=
    (congrArg (fun m => m.status) hfields).trans hpending
  have hattempts : b.fields.attempts = m.attempts := congrArg (fun m => m.attempts) hfields
  have hnone : OutboxMessage.claimFor checks C (clock id) workerId lease b = none := by
    refine (claimFor_eq_none hstatus).mpr ?_
    unfold ClaimPanics at hpanic ⊢
    rw [hattempts]
    exact hpanic
  rw [claimLoop, hl]
  dsimp only
  rw [hb]
  dsimp only
  rw [if_pos (show b.fields.isPending = true from decide_eq_true hstatus), hnone]

/-! ## What the loop passes over -/

/-- Whether a pending message is stored under an id. -/
def pendingAt (checks : OverflowChecks) (C : Codecs) (s : EventStore) (id : String) : Bool :=
  match s.messageEvents id with
  | none => false
  | some l =>
    match content checks C l with
    | .ok m => m.isPending
    | .error _ => false

/-- The ids of pending messages. -/
def pendingIds (checks : OverflowChecks) (C : Codecs) (s : EventStore) (ids : List String) :
    List String :=
  ids.filter (s.pendingAt checks C)

/-- The loop goes past an id: what is stored there hydrates, and can be claimed if it is
pending. -/
def Passes (checks : OverflowChecks) (C : Codecs) (clock : String → Readings) (lease : Duration)
    (s : EventStore) (id : String) : Prop :=
  ∀ l, s.messageEvents id = some l → ∃ m, content checks C l = .ok m
    ∧ (m.status = .pending → ¬ ClaimPanics checks (clock id) lease m)

theorem pendingAt_eq_true : s.pendingAt checks C id = true
    ↔ ∃ l m, s.messageEvents id = some l ∧ content checks C l = .ok m ∧ m.status = .pending := by
  unfold pendingAt
  cases hl : s.messageEvents id with
  | none => simp
  | some l =>
    cases hm : content checks C l with
    | error f => simp [hm]
    | ok m => simp [hm, OutboxMessage.isPending]

/-- **`outbox_messages_pending` lists the pending messages**: one for each id that a claim finds
pending, in the order of iteration. -/
theorem outboxMessagesPending_eq (hs : Stories checks C s) (hC : C.Lawful) (hp : s.poisoned = false)
    (ord : List String) (clock : String → Readings) :
    ∃ as, s.outboxMessagesPending checks C ord clock = .ok as
      ∧ as.map (fun a => a.entity.id) = s.pendingIds checks C ord := by
  unfold outboxMessagesPending outboxMessagesByStatus
  rw [if_neg (by simp [hp])]
  refine (Res.exists_collect_eq_ok (f := fun id => [id].filter (s.pendingAt checks C))
    (fun id _ => ?_)).imp (fun as has => ⟨has.1, has.2.trans ?_⟩)
  swap
  · rw [← List.filter_flatMap, List.flatMap_singleton', pendingIds]
  -- a turn of the loop
  cases hevents : s.messageEvents id with
  | none => exact ⟨[], rfl, by simp [pendingAt, hevents]⟩
  | some l =>
    obtain ⟨hl, hpre⟩ := messageEvents_eq_some.mp hevents
    obtain ⟨m, hstory⟩ := hs id l hl hpre
    have hload := hydrateMessage_eq hC hstory (clock id).replay
    have hstatus : (m.inHand (clock id).replay m.metadata).status = m.status := rfl
    have hpending : s.pendingAt checks C id = decide (m.status = .pending) := by
      rw [pendingAt, hevents]
      simp only [content_of_hydrate hload]
      rfl
    refine ⟨_, congrArg (Except.map _) hload, ?_⟩
    dsimp only
    by_cases hm : m.status = .pending <;> simp [hpending, hstatus, hm]

/-- **What the loop has done to the ids it has passed over**: the pending ones are taken,
in this order, and nothing else has changed. -/
structure Passed (checks : OverflowChecks) (C : Codecs) (workerId : String) (s s' : EventStore)
    (ids : List String) (new : List (Agg OutboxMessage)) : Prop where
  taken : List.Forall₂ (Taken checks C s s' workerId) (s.pendingIds checks C ids) new
  others : ∀ id ∉ s.pendingIds checks C ids, s'.lookup id = s.lookup id
  poisoned : s'.poisoned = s.poisoned

theorem messageEvents_congr (h : s'.lookup id = s.lookup id) :
    s'.messageEvents id = s.messageEvents id := by
  unfold messageEvents
  rw [h]

/-- **A message stays taken** while its stream is left alone, and was taken from a store
with the same stream. -/
theorem Taken.congr {s₁ s₂ : EventStore} {a : Agg OutboxMessage}
    (h : Taken checks C s₁ s₂ workerId id a) (hs : s₁.lookup id = s.lookup id)
    (hs' : s'.lookup id = s₂.lookup id) : Taken checks C s s' workerId id a := by
  obtain ⟨l, r, m, m', h⟩ := h
  exact ⟨l, r, m, m', { h with
    stored := (messageEvents_congr hs).symm.trans h.stored
    stored' := hs'.trans h.stored' }⟩

namespace Passed

variable {new : List (Agg OutboxMessage)}

theorem length_eq (h : Passed checks C workerId s s' ids new) :
    new.length = (s.pendingIds checks C ids).length := h.taken.length_eq.symm

theorem messageEvents_eq (h : Passed checks C workerId s s' ids new) (hid : id ∉ ids) :
    s'.messageEvents id = s.messageEvents id :=
  messageEvents_congr (h.others id (fun hmem => hid (List.mem_of_mem_filter hmem)))

theorem nil (s : EventStore) : Passed checks C workerId s s [] [] := ⟨.nil, fun _ _ => rfl, rfl⟩

theorem leave (h : Passed checks C workerId s s' ids new) (hid : s.pendingAt checks C id = false) :
    Passed checks C workerId s s' (ids ++ [id]) new := by
  have hids : s.pendingIds checks C (ids ++ [id]) = s.pendingIds checks C ids := by
    simp [pendingIds, List.filter_append, hid]
  exact ⟨hids ▸ h.taken, hids ▸ h.others, h.poisoned⟩

/-- **One more message taken.** -/
theorem take (h : Passed checks C workerId s s' ids new) (hid : s.pendingAt checks C id = true)
    (hnot : id ∉ ids) {events : List EventRecord} {a : Agg OutboxMessage}
    (ha : Taken checks C s' (s'.put id events) workerId id a) :
    Passed checks C workerId s (s'.put id events) (ids ++ [id]) (new ++ [a]) := by
  have hids : s.pendingIds checks C (ids ++ [id]) = s.pendingIds checks C ids ++ [id] := by
    simp [pendingIds, List.filter_append, hid]
  have hnot' : ∀ id' ∈ s.pendingIds checks C ids, id' ≠ id := fun id' hid' heq =>
    hnot (heq ▸ List.mem_of_mem_filter hid')
  refine ⟨?_, fun id' hid' => ?_, h.poisoned⟩
  · rw [hids]
    refine List.rel_append ?_ (.cons ?_ .nil)
    · exact ((List.forall₂_and_left _ _).mpr ⟨hnot', h.taken⟩).imp (fun id' a' ⟨hne, htaken⟩ =>
        htaken.congr rfl (lookup_put_of_ne s' hne events))
    · exact ha.congr (h.others id (fun hmem => hnot' id hmem rfl)) rfl
  · rw [hids, List.mem_append, List.mem_singleton, not_or] at hid'
    exact (lookup_put_of_ne s' hid'.2 events).trans (h.others id' hid'.1)

end Passed

/-- **The loop passes over a beginning of the ids** that holds fewer pending messages than
it may claim. -/
theorem claimLoop_pass (hC : C.Lawful) (workerId : String) {pre rest : List String}
    (hnd : (pre ++ rest).Nodup) (hpass : ∀ id ∈ pre, s.Passes checks C clock lease id)
    (hroom : (s.pendingIds checks C pre).length < max) : ∃ new s',
      Passed checks C workerId s s' pre new
        ∧ claimLoop checks C clock workerId max lease (pre ++ rest) [] s
          = claimLoop checks C clock workerId max lease rest new s' := by
  induction pre using List.reverseRecOn generalizing rest with
  | nil => exact ⟨[], s, .nil s, rfl⟩
  | append_singleton pre id ih =>
    rw [List.append_assoc] at hnd ⊢
    have hle : (s.pendingIds checks C pre).length ≤ (s.pendingIds checks C (pre ++ [id])).length := by
      simp [pendingIds, List.filter_append]
    obtain ⟨new, s', hpassed, hloop⟩ := ih hnd
      (fun id' hid' => hpass id' (List.mem_append_left _ hid')) (hle.trans_lt hroom)
    have hnot : id ∉ pre := fun h =>
      List.disjoint_of_nodup_append hnd h (List.mem_append_left _ (List.mem_singleton_self id))
    have hevents := hpassed.messageEvents_eq hnot
    rw [hloop]
    cases hl : s.messageEvents id with
    | none =>
      refine ⟨new, s', hpassed.leave ?_, claimLoop_absent (hevents.trans hl)⟩
      simp [pendingAt, hl]
    | some l =>
      obtain ⟨m, hm, hpanic⟩ := hpass id (List.mem_append_right _ (List.mem_singleton_self id)) l hl
      by_cases hpending : m.status = .pending
      · have hat : s.pendingAt checks C id = true := pendingAt_eq_true.mpr ⟨l, m, hl, hm, hpending⟩
        obtain ⟨a, events, htaken, hturn⟩ := claimLoop_take hC
          (hevents.trans hl) hm hpending (hpanic hpending) rest new
        have hpassed' := hpassed.take hat hnot htaken
        refine ⟨_, _, hpassed', hturn.trans (if_neg ?_)⟩
        rw [hpassed'.length_eq]
        exact Nat.not_le.mpr hroom
      · have hat : s.pendingAt checks C id = false := by
          simp [pendingAt, hl, hm, OutboxMessage.isPending, hpending]
        refine ⟨new, s', hpassed.leave hat,
          (claimLoop_leave (hevents.trans hl) hm hpending).trans (if_neg ?_)⟩
        rw [hpassed.length_eq]
        exact Nat.not_le.mpr (hle.trans_lt hroom)

theorem passes_of_pendingAt (hl : ∀ l, s.messageEvents id = some l → ∃ m, content checks C l = .ok m)
    (h : s.pendingAt checks C id = false) : s.Passes checks C clock lease id := by
  intro l hl'
  obtain ⟨m, hm⟩ := hl l hl'
  refine ⟨m, hm, fun hpending => ?_⟩
  rw [pendingAt_eq_true.mpr ⟨l, m, hl', hm, hpending⟩] at h
  cases h

theorem exists_of_filter_eq {α : Type} {p : α → Bool} {l l₁ l₂ : List α} {x : α}
    (h : l.filter p = l₁ ++ x :: l₂) :
    ∃ pre post, l = pre ++ x :: post ∧ pre.filter p = l₁ ∧ p x = true := by
  obtain ⟨k₁, k₂, rfl, h₁, h₂⟩ := List.filter_eq_append_iff.mp h
  obtain ⟨k₃, k₄, rfl, hnot, hx, -⟩ := List.filter_eq_cons_iff.mp h₂
  refine ⟨k₁ ++ k₃, k₄, (List.append_assoc _ _ _).symm, ?_, hx⟩
  rw [List.filter_append, h₁, List.filter_eq_nil_iff.mpr hnot, List.append_nil]

/-- The element of a number that a filter keeps. -/
theorem exists_of_lt_length_filter {α : Type} {p : α → Bool} {l : List α} {n : ℕ}
    (hn : n < (l.filter p).length) : ∃ pre x post, l = pre ++ x :: post ∧ p x = true
      ∧ (pre.filter p).length = n ∧ (pre ++ [x]).filter p = (l.filter p).take (n + 1) := by
  have htake := List.take_succ_eq_append_getElem hn
  generalize (l.filter p)[n] = x at htake
  have hsplit : l.filter p = (l.filter p).take n ++ x :: (l.filter p).drop (n + 1) := by
    rw [List.append_cons, ← htake]
    exact (List.take_append_drop _ _).symm
  obtain ⟨pre, post, hl, hpre, hx⟩ := exists_of_filter_eq hsplit
  refine ⟨pre, x, post, hl, hx, ?_, ?_⟩
  · rw [hpre]
    exact List.length_take_of_le hn.le
  · rw [htake, ← hpre]
    simp [List.filter_append, hx]

/-- The first element without a property. -/
theorem exists_first {α : Type} {P : α → Prop} {l : List α} (h : ¬ ∀ x ∈ l, P x) :
    ∃ pre x post, l = pre ++ x :: post ∧ (∀ y ∈ pre, P y) ∧ ¬ P x := by
  induction l with
  | nil => exact absurd (fun x hx => absurd hx List.not_mem_nil) h
  | cons a l ih =>
    by_cases ha : P a
    · obtain ⟨pre, x, post, rfl, hpre, hx⟩ := ih (fun hl => h (List.forall_mem_cons.mpr ⟨ha, hl⟩))
      exact ⟨a :: pre, x, post, rfl, List.forall_mem_cons.mpr ⟨ha, hpre⟩, hx⟩
    · exact ⟨[], a, l, rfl, fun _ hy => absurd hy List.not_mem_nil, ha⟩

/-- **The loop stops at the last message it may claim.** -/
theorem claimLoop_stop (hC : C.Lawful) (workerId : String) {pre rest : List String}
    (hnd : (pre ++ id :: rest).Nodup) (hpass : ∀ id' ∈ pre, s.Passes checks C clock lease id')
    (hid : s.Passes checks C clock lease id)
    (hat : s.pendingAt checks C id = true) (hlen : (s.pendingIds checks C pre).length + 1 = max) :
    ∃ new s', Passed checks C workerId s s' (pre ++ [id]) new
      ∧ claimLoop checks C clock workerId max lease (pre ++ id :: rest) [] s = (.ok new, s') := by
  obtain ⟨new, s', hpassed, hloop⟩ : ∃ new s', Passed checks C workerId s s' pre new
      ∧ claimLoop checks C clock workerId max lease (pre ++ id :: rest) [] s
        = claimLoop checks C clock workerId max lease (id :: rest) new s' :=
    claimLoop_pass hC workerId hnd hpass (hlen ▸ Nat.lt_succ_self _)
  -- it is stored as it was, and is taken
  have hnot : id ∉ pre := fun h => List.disjoint_of_nodup_append hnd h List.mem_cons_self
  have hevents := hpassed.messageEvents_eq hnot
  obtain ⟨l, m, hl, hm, hpending⟩ := pendingAt_eq_true.mp hat
  obtain ⟨m', hm', hpanic⟩ := hid l hl
  obtain rfl : m = m' := Except.ok.inj (hm.symm.trans hm')
  obtain ⟨a, events, htaken, hturn⟩ := claimLoop_take hC (hevents.trans hl) hm hpending
    (hpanic hpending) rest new
  refine ⟨new ++ [a], _, hpassed.take hat hnot htaken, hloop.trans (hturn.trans (if_pos ?_))⟩
  rw [List.length_append, List.length_singleton, hpassed.length_eq, hlen]

/-- **The loop claims the first pending messages**, as many as it may, where none of them
panics. -/
theorem claimLoop_ok (hC : C.Lawful) (workerId : String) (hnd : ids.Nodup) (hmax : 0 < max)
    (hl : ∀ id l, s.messageEvents id = some l → ∃ m, content checks C l = .ok m)
    (hcan : ∀ id ∈ (s.pendingIds checks C ids).take max, s.Passes checks C clock lease id) :
    ∃ pre new s', s.pendingIds checks C pre = (s.pendingIds checks C ids).take max
      ∧ Passed checks C workerId s s' pre new
      ∧ claimLoop checks C clock workerId max lease ids [] s = (.ok new, s') := by
  have hpass : ∀ pre : List String, (∀ id ∈ s.pendingIds checks C pre, s.Passes checks C clock lease id) →
      ∀ id ∈ pre, s.Passes checks C clock lease id := fun pre h id hid => by
    cases hat : s.pendingAt checks C id with
    | true => exact h id (List.mem_filter.mpr ⟨hid, hat⟩)
    | false => exact passes_of_pendingAt (hl id) hat
  by_cases hlt : (s.pendingIds checks C ids).length < max
  · rw [List.take_of_length_le hlt.le] at hcan ⊢
    rw [← List.append_nil ids] at hnd
    obtain ⟨new, s', hpassed, hloop⟩ := claimLoop_pass hC workerId hnd (hpass ids hcan) hlt
    rw [List.append_nil] at hloop
    exact ⟨ids, new, s', rfl, hpassed, hloop⟩
  · obtain ⟨n, rfl⟩ := Nat.exists_eq_add_of_lt hmax
    rw [Nat.zero_add] at hlt hcan ⊢
    obtain ⟨pre, id, post, rfl, hat, hlen, htake⟩ :=
      exists_of_lt_length_filter (p := s.pendingAt checks C) (l := ids) (n := n) (Nat.not_lt.mp hlt)
    have hpass' := hpass (pre ++ [id]) (fun id' hid' => hcan id' (htake ▸ hid'))
    obtain ⟨new, s', hpassed, hloop⟩ := claimLoop_stop hC workerId hnd
      (fun id' hid' => hpass' id' (List.mem_append_left _ hid'))
      (hpass' id (List.mem_append_right _ (List.mem_singleton_self id))) hat (congrArg (· + 1) hlen)
    exact ⟨pre ++ [id], new, s', htake, hpassed, hloop⟩

/-! ## The specification of a claim -/

/-- **A copy returned by a claim**, beside the stream under the id it is of: the message
was pending, its stream has the record of the claim after what it was, and the copy has
this stream and nothing to commit. The stream hydrates to a message in flight, once more
attempted, and the worker's, as at any time; and so is the copy. -/
structure ClaimedCopy (checks : OverflowChecks) (C : Codecs) (s s' : EventStore) (workerId id : String)
    (a : Agg OutboxMessage) (l : List EventRecord) (r : EventRecord) : Prop where
  stored : s.messageEvents id = some l
  name : r.eventName = "MessageClaimed"
  stored' : s'.lookup id = some (l ++ [r])
  events : a.entity.events = l ++ [r]
  newEvents : a.entity.newEvents = some []
  hydrated : ∀ now, ∃ m m', hydrateMessage checks C now id l = .ok m
    ∧ hydrateMessage checks C now id (l ++ [r]) = .ok m' ∧ a.fields.undated = m'.fields.undated
    ∧ m.fields.status = .pending ∧ m'.fields.status = .inFlight
    ∧ m'.fields.attempts = m.fields.attempts + 1 ∧ m'.fields.workerId = some workerId

/-- **What a claim is to do**: answer as many messages as it may, or as are pending, each
of them claimed, and change no other stream. -/
def ClaimsUpTo (checks : OverflowChecks) (C : Codecs) (s : EventStore) (workerId : String) (max : ℕ)
    (ord : List String) (r : RepoRes (List (Agg OutboxMessage)) × EventStore) : Prop :=
  ∃ as ids, r.1 = .ok as ∧ as.length = min max (s.pendingIds checks C ord).length ∧ ids.Nodup
    ∧ List.Forall₂ (fun id a => ∃ l e, ClaimedCopy checks C s r.2 workerId id a l e) ids as
    ∧ ∀ id ∉ ids, r.2.lookup id = s.lookup id

/-- Attempts that were counted as one more. -/
theorem lt_of_addU32_one {n : ℕ} (h : addU32 checks n 1 = some (n + 1)) : n + 1 < 2 ^ 32 := by
  unfold addU32 at h
  by_contra hnot
  rw [if_neg hnot] at h
  cases checks with
  | true => cases h
  | false =>
    have heq : (n + 1) % 2 ^ 32 = n + 1 := Option.some.inj h
    omega

/-- A message taken is claimed, if its attempts are counted without overflow. -/
theorem TakenAs.claimedCopy {a : Agg OutboxMessage} {r : EventRecord} {m' : OutboxMessage}
    (h : TakenAs checks C s s' workerId id a l r m m') (hlt : m.attempts + 1 < 2 ^ 32) :
    ClaimedCopy checks C s s' workerId id a l r := by
  refine ⟨h.stored, h.name, h.stored', h.events, h.newEvents, fun now => ?_⟩
  obtain ⟨b, -, hb, hfields, -⟩ := exists_hydrate h.was now id
  obtain ⟨b', -, hb', hfields', -⟩ := exists_hydrate h.became now id
  have hattempts := h.attempts
  rw [addU32_one_of_lt hlt] at hattempts
  refine ⟨b, b', hb, hb', h.copy.trans hfields'.symm, ?_, ?_, ?_, ?_⟩
  · exact (congrArg (fun m => m.status) hfields).trans h.pending
  · exact (congrArg (fun m => m.status) hfields').trans h.inFlight
  · refine (congrArg (fun m => m.attempts) hfields').trans ((Option.some.inj hattempts).symm.trans ?_)
    exact (congrArg (fun m => m.attempts + 1) hfields).symm
  · exact (congrArg (fun m => m.workerId) hfields').trans h.worker

/-- **A message taken and claimed** had attempts that are counted without overflow. -/
theorem ClaimedCopy.lt {a b : Agg OutboxMessage} {r e : EventRecord} {k : List EventRecord}
    {m' : OutboxMessage} (h : ClaimedCopy checks C s s' workerId id a k e)
    (h' : TakenAs checks C s s' workerId id b l r m m') : m.attempts + 1 < 2 ^ 32 := by
  obtain rfl : k = l := Option.some.inj (h.stored.symm.trans h'.stored)
  have hevents : k ++ [e] = k ++ [r] := Option.some.inj (h.stored'.symm.trans h'.stored')
  obtain ⟨c, c', hc, hc', -, -, -, hattempts, -⟩ := h.hydrated SystemTime.unixEpoch
  rw [hevents] at hc'
  have hm : m = c.fields.undated := Except.ok.inj (h'.was.symm.trans (content_of_hydrate hc))
  have hm' : m' = c'.fields.undated := Except.ok.inj (h'.became.symm.trans (content_of_hydrate hc'))
  have hcount : m'.attempts = m.attempts + 1 := by
    rw [hm, hm']
    exact hattempts
  exact lt_of_addU32_one (hcount ▸ h'.attempts)

/-- Ids without the prefix are passed over. -/
theorem claimLoop_append {pre rest : List String} (h : ∀ id ∈ pre, hasPrefix id = false) :
    claimLoop checks C clock workerId max lease (pre ++ rest) before s
      = claimLoop checks C clock workerId max lease rest before s := by
  induction pre with
  | nil => rfl
  | cons id pre ih =>
    have habsent : s.messageEvents id = none := by
      unfold messageEvents
      rw [h id List.mem_cons_self]
      rfl
    exact (claimLoop_absent habsent).trans (ih (fun id' hid' => h id' (List.mem_cons_of_mem _ hid')))

theorem exists_claimLoop_eq (h : ids.find? hasPrefix = some id) : ∃ post, id ∈ ids ∧ hasPrefix id = true
    ∧ claimLoop checks C clock workerId max lease ids before s
      = claimLoop checks C clock workerId max lease (id :: post) before s := by
  obtain ⟨hid, pre, post, rfl, hpre⟩ := List.find?_eq_some_iff_append.mp h
  exact ⟨post, List.mem_append_right _ List.mem_cons_self, hid,
    claimLoop_append (fun id' hid' => by simpa using hpre id' hid')⟩

/-- **A claim that may claim nothing** does so where the first message is not pending. -/
theorem claimLoop_zero (hl : ∀ id l, s.messageEvents id = some l → ∃ m, content checks C l = .ok m)
    (hstored : ∀ id ∈ ids, (s.lookup id).isSome)
    (hfirst : ∀ id, ids.find? hasPrefix = some id → s.pendingAt checks C id = false) :
    claimLoop checks C clock workerId 0 lease ids [] s = (.ok [], s) := by
  cases hfind : ids.find? hasPrefix with
  | none =>
    have hnone : ∀ id ∈ ids, hasPrefix id = false := fun id hid => by
      simpa using List.find?_eq_none.mp hfind id hid
    rw [← List.append_nil ids, claimLoop_append hnone, claimLoop]
  | some id =>
    obtain ⟨post, hmem, hid, hloop⟩ := exists_claimLoop_eq hfind
    obtain ⟨l, hlookup⟩ := Option.isSome_iff_exists.mp (hstored id hmem)
    have hl' := messageEvents_eq_some.mpr ⟨hlookup, hid⟩
    obtain ⟨m, hm⟩ := hl id l hl'
    rw [hloop, claimLoop_leave hl' hm]
    · exact if_pos (Nat.zero_le _)
    · intro hpending
      have hat := hfirst id hfind
      rw [pendingAt_eq_true.mpr ⟨l, m, hl', hm, hpending⟩] at hat
      cases hat

/-- **A pending message that comes first** is claimed, or the claim panics. -/
theorem claimLoop_first (hC : C.Lawful) (hfind : ids.find? hasPrefix = some id)
    (hat : s.pendingAt checks C id = true) {as : List (Agg OutboxMessage)} {s' : EventStore}
    (h : claimLoop checks C clock workerId 0 lease ids [] s = (.ok as, s')) : as.length = 1 := by
  obtain ⟨post, -, -, hloop⟩ := exists_claimLoop_eq hfind
  obtain ⟨l, m, hl, hm, hpending⟩ := pendingAt_eq_true.mp hat
  rw [hloop] at h
  by_cases hpanic : ClaimPanics checks (clock id) lease m
  · rw [claimLoop_panic hl hm hpending hpanic] at h
    cases h
  · obtain ⟨a, events, -, hturn⟩ := claimLoop_take hC hl hm hpending hpanic post []
    rw [hturn, if_pos (Nat.zero_le _)] at h
    rw [← Except.ok.inj (congrArg Prod.fst h)]
    rfl

/-- **A claim that returns** has not come to a message whose claim panics, among those it
was to claim. -/
theorem passes_of_claimLoop_ok (hC : C.Lawful) (hnd : ids.Nodup)
    (hl : ∀ id l, s.messageEvents id = some l → ∃ m, content checks C l = .ok m)
    {as : List (Agg OutboxMessage)} {s' : EventStore}
    (h : claimLoop checks C clock workerId max lease ids [] s = (.ok as, s')) :
    ∀ id ∈ (s.pendingIds checks C ids).take max, s.Passes checks C clock lease id := by
  by_contra hnot
  obtain ⟨l₁, id, l₂, htake, hl₁, hid⟩ := exists_first hnot
  have hsplit : ids.filter (s.pendingAt checks C)
      = l₁ ++ id :: (l₂ ++ (s.pendingIds checks C ids).drop max) := by
    rw [← List.cons_append, ← List.append_assoc, ← htake]
    exact (List.take_append_drop _ _).symm
  obtain ⟨pre, post, rfl, rfl, hat⟩ := exists_of_filter_eq hsplit
  have hlen : (s.pendingIds checks C pre).length < max := by
    have hle := List.length_take_le max (s.pendingIds checks C (pre ++ id :: post))
    rw [htake, List.length_append, List.length_cons] at hle
    exact Nat.lt_of_lt_of_le (Nat.lt_add_of_pos_right (Nat.succ_pos _)) hle
  have hpass : ∀ id' ∈ pre, s.Passes checks C clock lease id' := fun id' hid' => by
    cases hat' : s.pendingAt checks C id' with
    | true => exact hl₁ id' (List.mem_filter.mpr ⟨hid', hat'⟩)
    | false => exact passes_of_pendingAt (hl id') hat'
  obtain ⟨new, s₁, hpassed, hloop⟩ := claimLoop_pass hC workerId hnd hpass hlen
  have hevents := hpassed.messageEvents_eq (fun h => List.disjoint_of_nodup_append hnd h List.mem_cons_self)
  obtain ⟨l, m, hl', hm, hpending⟩ := pendingAt_eq_true.mp hat
  have hpanic : ClaimPanics checks (clock id) lease m := by
    by_contra hcan
    refine hid (fun l' hl'' => ?_)
    obtain rfl : l = l' := Option.some.inj (hl'.symm.trans hl'')
    exact ⟨m, hm, fun _ => hcan⟩
  rw [hloop, claimLoop_panic (hevents.trans hl') hm hpending hpanic] at h
  cases h

/-- An element of a list has a partner in a list that it is related to. -/
theorem exists_of_forall₂ {α β : Type} {R : α → β → Prop} {l₁ : List α} {l₂ : List β} {x : α}
    (h : List.Forall₂ R l₁ l₂) (hx : x ∈ l₁) : ∃ y ∈ l₂, R x y := by
  induction h with
  | nil => cases hx
  | cons hR _ ih =>
    cases hx with
    | head => exact ⟨_, List.mem_cons_self, hR⟩
    | tail _ hx =>
      obtain ⟨y, hy, hR'⟩ := ih hx
      exact ⟨y, List.mem_cons_of_mem _ hy, hR'⟩

/-! ## One message and one claim -/

/-- The clock at the epoch. -/
def atEpoch : String → Readings :=
  fun _ => ⟨SystemTime.unixEpoch, SystemTime.unixEpoch, SystemTime.unixEpoch⟩

theorem Single.content_eq (hC : C.Lawful) (h : Single checks C s id l m) :
    s.messageEvents id = some l ∧ content checks C l = .ok m := by
  refine ⟨messageEvents_eq_some.mpr ⟨h.stored, h.story.hasPrefix⟩, ?_⟩
  rw [content_of_hydrate (hydrateMessage_eq hC h.story SystemTime.unixEpoch)]
  have hself : m.inHand m.createdAt m.metadata = m := rfl
  rw [h.story.createdAt_eq] at hself
  exact congrArg Except.ok hself

theorem Single.hydrates (hC : C.Lawful) (h : Single checks C s id l m) (id' : String)
    (l' : List EventRecord) (hl' : s.messageEvents id' = some l') :
    ∃ now a, hydrateMessage checks C now id' l' = .ok a := by
  have hid : id' = id := h.only id' (by rw [(messageEvents_eq_some.mp hl').1]; rfl)
  have hl : l' = l := Option.some.inj ((hid ▸ hl' :).symm.trans (h.content_eq hC).1)
  obtain ⟨a, -, ha, -⟩ := exists_hydrate (h.content_eq hC).2 SystemTime.unixEpoch id'
  exact ⟨SystemTime.unixEpoch, a, hl ▸ ha⟩

/-- **A store with one message**, which can be claimed. -/
theorem exists_claimable (checks : OverflowChecks) (C : Codecs) : ∃ s l m,
    Single checks C s "outbox:m" l m ∧ m.attempts + 1 < 2 ^ 32
      ∧ ¬ ClaimPanics checks (atEpoch "outbox:m") (Duration.fromSecs 0 (by decide)) m := by
  obtain ⟨-, -, s, l, m, -, -, hsingle, hclaims⟩ := Single.exists_commit checks C [] ∅
  have hlt : m.attempts + 1 < 2 ^ 32 := by
    rw [hsingle.story.machine.2.1.1, hclaims]
    decide
  exact ⟨s, l, m, hsingle, hlt, hsingle.not_claimPanics (fun _ => hclaims ▸ by decide) _⟩

/-- **A claim does what it is to do** in a store whose message streams hydrate, under a lease
that ends at a time, exactly where the lock is not poisoned, the messages to be claimed
have attempts that are counted without overflow, and – where it may claim nothing – the
first message that it comes to is not pending. -/
theorem claim_spec_iff (hC : C.Lawful) {ord : List String} (hord : s.Enumerates ord)
    (hhydrate : ∀ id l, s.messageEvents id = some l →
      ∃ now a, hydrateMessage checks C now id l = .ok a)
    (hlease : ∀ id, (clock id).lease.add lease ≠ none) :
    ClaimsUpTo checks C s workerId max ord (claimOutboxMessages checks C ord clock s workerId max lease)
      ↔ s.poisoned = false
        ∧ (max = 0 → ∀ id, ord.find? hasPrefix = some id → s.pendingAt checks C id = false)
        ∧ ∀ id ∈ (s.pendingIds checks C ord).take max, ∀ l m, s.messageEvents id = some l →
          content checks C l = .ok m → m.attempts + 1 < 2 ^ 32 := by
  have hl : ∀ id l, s.messageEvents id = some l → ∃ m, content checks C l = .ok m := fun id l h => by
    obtain ⟨now, a, ha⟩ := hhydrate id l h
    exact ⟨_, content_of_hydrate ha⟩
  unfold claimOutboxMessages
  cases hp : s.poisoned with
  | true => exact ⟨fun ⟨_, _, h, _⟩ => (nomatch h), fun h => (nomatch h.1)⟩
  | false =>
    rw [if_neg Bool.false_ne_true]
    constructor
    · rintro ⟨as, ids, has, hlen, -, htaken, hothers⟩
      have hloop : claimLoop checks C clock workerId max lease ord [] s
          = (.ok as, (claimLoop checks C clock workerId max lease ord [] s).2) := Prod.ext has rfl
      refine ⟨rfl, fun hmax id hfind => ?_, fun id hid l m hl' hm => ?_⟩
      · subst hmax
        by_contra hat
        rw [Bool.not_eq_false] at hat
        have hone := claimLoop_first hC hfind hat hloop
        rw [hlen, Nat.zero_min] at hone
        cases hone
      · -- the loop took the message, and what it did to the stream is a claim
        have hmax : 0 < max := by
          cases max with
          | zero => cases hid
          | succ n => exact Nat.succ_pos n
        obtain ⟨pre, new, s', hpre, hpassed, hloop'⟩ := claimLoop_ok hC workerId hord.1 hmax
          hl (passes_of_claimLoop_ok hC hord.1 hl hloop)
        rw [hloop'] at htaken hothers
        obtain ⟨b, -, k, r, m₁, m', hb⟩ := exists_of_forall₂ hpassed.taken (hpre ▸ hid)
        obtain rfl : k = l := Option.some.inj (hb.stored.symm.trans hl')
        obtain rfl : m₁ = m := Except.ok.inj (hb.was.symm.trans hm)
        by_cases hmem : id ∈ ids
        · obtain ⟨a, -, k', e, ha⟩ := exists_of_forall₂ htaken hmem
          exact ha.lt hb
        · have hsame := (hothers id hmem).symm.trans hb.stored'
          rw [(messageEvents_eq_some.mp hl').1] at hsame
          have hlen' := congrArg List.length (Option.some.inj hsame)
          simp at hlen'
    · rintro ⟨-, hfirst, hattempts⟩
      by_cases hmax : max = 0
      · subst hmax
        rw [claimLoop_zero hl (fun id hid => (hord.2 id).mp hid) (hfirst rfl)]
        exact ⟨[], [], rfl, (Nat.zero_min _).symm, List.nodup_nil, .nil, fun _ _ => rfl⟩
      · have hcan : ∀ id ∈ (s.pendingIds checks C ord).take max, s.Passes checks C clock lease id := by
          intro id hid l hl'
          obtain ⟨m, hm⟩ := hl id l hl'
          refine ⟨m, hm, fun _ hpanic => hpanic.elim (hlease id) (fun hnone => ?_)⟩
          rw [addU32_one_of_lt (hattempts id hid l m hl' hm)] at hnone
          cases hnone
        obtain ⟨pre, new, s', hpre, hpassed, hloop⟩ := claimLoop_ok hC workerId hord.1
          (Nat.pos_of_ne_zero hmax) hl hcan
        rw [hloop]
        refine ⟨new, s.pendingIds checks C pre, rfl, ?_, ?_, ?_, hpassed.others⟩
        · rw [hpassed.length_eq, hpre, List.length_take]
        · rw [hpre]
          exact (hord.1.filter _).sublist (List.take_sublist _ _)
        · rw [← hpre] at hattempts
          refine ((List.forall₂_and_left _ _).mpr ⟨hattempts, hpassed.taken⟩).imp ?_
          rintro id a ⟨hlt, l, r, m, m', ha⟩
          exact ⟨l, r, ha.claimedCopy (hlt l m ha.stored ha.was)⟩

/-- A message claimed. -/
theorem claim_spec_single : ∃ s : EventStore,
    s.pendingIds true Codecs.counting ["outbox:m"] = ["outbox:m"]
      ∧ ClaimsUpTo true Codecs.counting s "w" 1 ["outbox:m"]
        (claimOutboxMessages true Codecs.counting ["outbox:m"] atEpoch s "w" 1
          (Duration.fromSecs 0 (by decide))) := by
  obtain ⟨s, l, m, hsingle, hlt, -⟩ := exists_claimable true Codecs.counting
  obtain ⟨hl, hm⟩ := hsingle.content_eq Codecs.counting_lawful
  have hat : s.pendingAt true Codecs.counting "outbox:m" = true :=
    pendingAt_eq_true.mpr ⟨l, m, hl, hm, hsingle.pending⟩
  have hids : s.pendingIds true Codecs.counting ["outbox:m"] = ["outbox:m"] :=
    List.filter_eq_self.mpr (fun id hid => (List.mem_singleton.mp hid) ▸ hat)
  refine ⟨s, hids, (claim_spec_iff Codecs.counting_lawful hsingle.enumerates
    (hsingle.hydrates Codecs.counting_lawful) (fun id hnone => ?_)).mpr
      ⟨hsingle.not_poisoned, fun h => (nomatch h), fun id hid l' m' hl' hm' => ?_⟩⟩
  · exact absurd ((SystemTime.add_zero _).symm.trans hnone) (Option.some_ne_none _)
  · rw [hids] at hid
    obtain rfl : id = "outbox:m" := List.mem_singleton.mp hid
    obtain rfl : l = l' := Option.some.inj (hl.symm.trans hl')
    obtain rfl : m = m' := Except.ok.inj (hm.symm.trans hm')
    exact hlt

/-- **A claim of at most no message claims one.** -/
theorem claimed_without_room : ∃ (s s' : EventStore) (a : Agg OutboxMessage),
    s.poisoned = false ∧ s.Enumerates ["outbox:m"]
      ∧ (∀ id l, s.messageEvents id = some l → ∃ now a, hydrateMessage true Codecs.counting now id l = .ok a)
      ∧ (atEpoch "outbox:m").lease.add (Duration.fromSecs 0 (by decide)) ≠ none
      ∧ claimOutboxMessages true Codecs.counting ["outbox:m"] atEpoch s "w" 0
          (Duration.fromSecs 0 (by decide)) = (.ok [a], s')
      ∧ ¬ ClaimsUpTo true Codecs.counting s "w" 0 ["outbox:m"] (.ok [a], s') := by
  obtain ⟨s, l, m, hsingle, -, hpanic⟩ := exists_claimable true Codecs.counting
  obtain ⟨hl, hm⟩ := hsingle.content_eq Codecs.counting_lawful
  obtain ⟨a, s', hclaim⟩ : ∃ a s', claimOutboxMessages true Codecs.counting ["outbox:m"] atEpoch s "w" 0
      (Duration.fromSecs 0 (by decide)) = (.ok [a], s') := by
    obtain ⟨a, events, -, hturn⟩ := claimLoop_take Codecs.counting_lawful hl hm hsingle.pending hpanic [] []
    refine ⟨a, s.put "outbox:m" events, ?_⟩
    rw [claimOutboxMessages, hsingle.not_poisoned, if_neg Bool.false_ne_true, hturn]
    exact if_pos (Nat.zero_le _)
  refine ⟨s, s', a, hsingle.not_poisoned, hsingle.enumerates, hsingle.hydrates Codecs.counting_lawful,
    fun h => hpanic (Or.inl h), hclaim, fun h => ?_⟩
  obtain ⟨as, ids, has, hlen, -⟩ := h
  rw [← Except.ok.inj has, Nat.zero_min] at hlen
  cases hlen

/-! ## A failed claim -/

/-- A claim that may claim nothing and fails has changed no stream. -/
theorem claimLoop_zero_error (hC : C.Lawful) {f : Fault RepositoryError} {s' : EventStore}
    (h : claimLoop checks C clock workerId 0 lease ids [] s = (.error f, s')) (id' : String) :
    s'.lookup id' = s.lookup id' := by
  induction ids with
  | nil => cases h
  | cons id ids ih =>
    cases hl : s.messageEvents id with
    | none => exact ih ((claimLoop_absent hl).symm.trans h)
    | some l =>
      cases hm : content checks C l with
      | error f' =>
        rw [claimLoop_error hl hm] at h
        rw [← (Prod.mk.inj h).2]
        exact lookup_afterFault s f' id'
      | ok m =>
        by_cases hpending : m.status = .pending
        · by_cases hpanic : ClaimPanics checks (clock id) lease m
          · rw [claimLoop_panic hl hm hpending hpanic] at h
            rw [← (Prod.mk.inj h).2]
            exact lookup_afterFault s .panic id'
          · obtain ⟨a, events, -, hturn⟩ := claimLoop_take hC hl hm hpending hpanic ids []
            rw [hturn, if_pos (Nat.zero_le _)] at h
            cases h
        · rw [claimLoop_leave hl hm hpending, if_pos (Nat.zero_le _)] at h
          cases h

/-- **The loop ends with an error** at a stream that does not hydrate, with room left by
what it has claimed before. -/
theorem exists_of_claimLoop_err (hC : C.Lawful) (hnd : ids.Nodup) (hmax : 0 < max) {e : RepositoryError}
    {s' : EventStore}
    (h : claimLoop checks C clock workerId max lease ids [] s = (.error (.err e), s')) :
    ∃ pre id post l new s₁, ids = pre ++ id :: post
      ∧ (∀ id' ∈ pre, s.Passes checks C clock lease id')
      ∧ s.messageEvents id = some l ∧ content checks C l = .error (.err e)
      ∧ (s.pendingIds checks C pre).length < max
      ∧ Passed checks C workerId s s₁ pre new ∧ s' = s₁.afterFault (.err e) := by
  -- a beginning that passes ends before there is enough
  have hroom : ∀ pre post, ids = pre ++ post → (∀ id' ∈ pre, s.Passes checks C clock lease id') →
      (s.pendingIds checks C pre).length < max := by
    rintro pre post rfl hpass
    by_contra hlt
    obtain ⟨n, rfl⟩ := Nat.exists_eq_add_of_lt hmax
    rw [Nat.zero_add] at hlt h
    obtain ⟨pre', id, post', rfl, hat, hlen, -⟩ :=
      exists_of_lt_length_filter (p := s.pendingAt checks C) (l := pre) (n := n) (Nat.not_lt.mp hlt)
    rw [List.append_assoc, List.cons_append] at hnd h
    obtain ⟨new, s₁, -, hloop⟩ := claimLoop_stop hC workerId hnd
      (fun id' hid' => hpass id' (List.mem_append_left _ hid'))
      (hpass id (List.mem_append_right _ List.mem_cons_self)) hat (congrArg (· + 1) hlen)
    rw [hloop] at h
    cases h
  by_cases hall : ∀ id ∈ ids, s.Passes checks C clock lease id
  · rw [← List.append_nil ids] at hnd h
    obtain ⟨new, s₁, -, hloop⟩ := claimLoop_pass hC workerId hnd hall (hroom ids [] (by simp) hall)
    rw [hloop] at h
    cases h
  · obtain ⟨pre, id, post, rfl, hpass, hid⟩ := exists_first hall
    have hlt := hroom pre (id :: post) rfl hpass
    obtain ⟨new, s₁, hpassed, hloop⟩ := claimLoop_pass hC workerId hnd hpass hlt
    have hevents := hpassed.messageEvents_eq (fun h => List.disjoint_of_nodup_append hnd h List.mem_cons_self)
    rw [hloop] at h
    cases hl : s.messageEvents id with
    | none => exact absurd (fun l hl' => by rw [hl] at hl'; cases hl') hid
    | some l =>
      cases hm : content checks C l with
      | error f =>
        rw [claimLoop_error (hevents.trans hl) hm] at h
        obtain rfl : f = .err e := Except.error.inj (congrArg Prod.fst h)
        exact ⟨pre, id, post, l, new, s₁, rfl, hpass, hl, hm, hlt, hpassed, (congrArg Prod.snd h).symm⟩
      | ok m =>
        -- what does not pass there is a claim that panics
        have hpanic : m.status = .pending ∧ ClaimPanics checks (clock id) lease m := by
          by_contra hcan
          refine hid (fun l' hl' => ?_)
          obtain rfl : l = l' := Option.some.inj (hl.symm.trans hl')
          exact ⟨m, hm, fun hpending hpanic => hcan ⟨hpending, hpanic⟩⟩
        rw [claimLoop_panic (hevents.trans hl) hm hpanic.1 hpanic.2] at h
        cases h

/-- **A claim that fails with an error has changed no stream**, exactly where the lock is
poisoned or no stream that does not hydrate comes after pending messages that are claimed
before it: some, and fewer than the claim may take. -/
theorem failed_claim_iff (hC : C.Lawful) {ord : List String} (hord : s.Enumerates ord) :
    (∀ e s', claimOutboxMessages checks C ord clock s workerId max lease = (.error (.err e), s') →
        ∀ id, s'.lookup id = s.lookup id)
      ↔ s.poisoned = true
        ∨ ¬ ∃ pre id post, ord = pre ++ id :: post
          ∧ (∀ id' ∈ pre, s.Passes checks C clock lease id')
          ∧ (∃ l e, s.messageEvents id = some l ∧ content checks C l = .error (.err e))
          ∧ s.pendingIds checks C pre ≠ [] ∧ (s.pendingIds checks C pre).length < max := by
  unfold claimOutboxMessages
  cases hp : s.poisoned with
  | true =>
    refine ⟨fun _ => Or.inl rfl, fun _ e s' h id => ?_⟩
    rw [if_pos rfl] at h
    rw [← (Prod.mk.inj h).2]
  | false =>
    rw [if_neg Bool.false_ne_true]
    constructor
    · rintro h
      refine Or.inr ?_
      rintro ⟨pre, id, post, rfl, hpass, ⟨l, e, hl, hm⟩, hsome, hlt⟩
      obtain ⟨new, s₁, hpassed, hloop⟩ := claimLoop_pass hC workerId hord.1 hpass hlt
      have hevents := hpassed.messageEvents_eq
        (fun h => List.disjoint_of_nodup_append hord.1 h List.mem_cons_self)
      rw [claimLoop_error (hevents.trans hl) hm] at hloop
      -- the first message that was claimed has one more event
      obtain ⟨id', hid'⟩ := List.exists_mem_of_ne_nil _ hsome
      obtain ⟨a, -, l', r, m, m', ha⟩ := exists_of_forall₂ hpassed.taken hid'
      have hsame := h e _ hloop id'
      rw [lookup_afterFault, ha.stored', (messageEvents_eq_some.mp ha.stored).1] at hsame
      have hlen := congrArg List.length (Option.some.inj hsame)
      simp at hlen
    · intro h e s' hclaim id
      by_cases hmax : max = 0
      · subst hmax
        exact claimLoop_zero_error hC hclaim id
      · obtain ⟨pre, id₁, post, l, new, s₁, rfl, hpass, hl, hm, hlt, hpassed, hs'⟩ :=
          exists_of_claimLoop_err hC hord.1 (Nat.pos_of_ne_zero hmax) hclaim
        rw [hs', lookup_afterFault]
        refine hpassed.others id (fun hid => h.elim (fun h => (nomatch h)) (fun hnot => hnot ?_))
        exact ⟨pre, id₁, post, rfl, hpass, ⟨l, e, hl, hm⟩, List.ne_nil_of_mem hid, hlt⟩

/-- An event that no message records. -/
def foreignEvent : EventRecord := EventRecord.new "Opened" [] 1 SystemTime.unixEpoch

theorem content_foreignEvent :
    content true Codecs.counting [foreignEvent] = .error (.err (.replay "Unknown event: Opened")) :=
  rfl

/-- A claim that comes to a foreign stream first fails, and has claimed nothing. -/
theorem failed_claim_foreign : ∃ s : EventStore,
    s.Enumerates ["outbox:x"]
      ∧ claimOutboxMessages true Codecs.counting ["outbox:x"] atEpoch s "w" 10
          (Duration.fromSecs 0 (by decide)) = (.error (.err (.replay "Unknown event: Opened")), s)
      ∧ ∀ e s', claimOutboxMessages true Codecs.counting ["outbox:x"] atEpoch s "w" 10
          (Duration.fromSecs 0 (by decide)) = (.error (.err e), s') → ∀ id, s'.lookup id = s.lookup id := by
  refine ⟨EventStore.new.extend "outbox:x" [foreignEvent], enumerates_extend_new _ _, rfl,
    (failed_claim_iff Codecs.counting_lawful (enumerates_extend_new _ _)).mpr (Or.inr ?_)⟩
  rintro ⟨pre, id, post, hids, -, -, hsome, -⟩
  -- nothing comes before it
  cases pre with
  | nil => exact hsome rfl
  | cons id' pre =>
    have hlen := congrArg List.length hids
    simp at hlen

/-- **A failed claim has claimed a message**: a foreign stream comes after it. -/
theorem failed_claim_claims : ∃ (s s' : EventStore) (e : RepositoryError) (l : List EventRecord)
    (r : EventRecord), s.Enumerates ["outbox:m", "outbox:x"]
      ∧ claimOutboxMessages true Codecs.counting ["outbox:m", "outbox:x"] atEpoch s "w" 10
          (Duration.fromSecs 0 (by decide)) = (.error (.err e), s')
      ∧ s.lookup "outbox:m" = some l ∧ s'.lookup "outbox:m" = some (l ++ [r]) := by
  obtain ⟨s, l, m, hsingle, -, hpanic⟩ := exists_claimable true Codecs.counting
  obtain ⟨hl, hm⟩ := hsingle.content_eq Codecs.counting_lawful
  have hne : ("outbox:m" : String) ≠ "outbox:x" := by decide
  have hfree : s.stream "outbox:x" = [] := by
    cases hx : s.lookup "outbox:x" with
    | none => rw [stream, hx]; rfl
    | some l' => exact absurd (hsingle.only "outbox:x" (by rw [hx]; rfl)).symm hne
  let s₁ := s.extend "outbox:x" [foreignEvent]
  have hl₁ : s₁.messageEvents "outbox:m" = some l :=
    (messageEvents_congr (lookup_extend_of_ne s hne _)).trans hl
  obtain ⟨a, events, ⟨l', r, m', m'', ha⟩, hturn⟩ := claimLoop_take Codecs.counting_lawful hl₁
    hm hsingle.pending hpanic ["outbox:x"] []
  obtain rfl : l' = l := Option.some.inj (ha.stored.symm.trans hl₁)
  have hx : (s₁.put "outbox:m" events).messageEvents "outbox:x" = some [foreignEvent] := by
    refine messageEvents_eq_some.mpr ⟨(lookup_put_of_ne s₁ hne.symm events).trans ?_, by decide⟩
    rw [lookup_extend_self, hfree]
    rfl
  refine ⟨s₁, (s₁.put "outbox:m" events).afterFault (.err (.replay "Unknown event: Opened")),
    .replay "Unknown event: Opened", l', r, ⟨by decide, fun id => ?_⟩, ?_,
    (messageEvents_eq_some.mp hl₁).1, ha.stored'⟩
  · rw [List.mem_cons, List.mem_singleton]
    by_cases hid : id = "outbox:x"
    · rw [hid]
      exact ⟨fun _ => by rw [lookup_extend_self]; rfl, fun _ => Or.inr rfl⟩
    · rw [lookup_extend_of_ne s hid]
      refine ⟨fun h => ?_, fun h => Or.inl (hsingle.only id h)⟩
      rw [h.resolve_right hid, hsingle.stored]
      rfl
  · rw [claimOutboxMessages, show s₁.poisoned = false from hsingle.not_poisoned, if_neg Bool.false_ne_true,
      hturn]
    exact (if_neg (show ¬ 10 ≤ 1 by decide)).trans (claimLoop_error hx content_foreignEvent)

end Claims

end EventStore
