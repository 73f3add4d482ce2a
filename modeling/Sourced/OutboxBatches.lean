import Sourced.OutboxHistory

/-!
# Batches of an outbox worker

`process_batch` hands the messages of a slice to the publisher, one after the other,
and completes, releases or fails each by the answer. It works on the first
`batch_size` of them. The number of messages that a claim may take is given to the
claim, and is not the worker's: what a claim returns can be longer than a batch, and
the messages past the first `batch_size` then stay in flight
(`OutboxWorker.processBatch_drains`).

The messages that a claim returns are in flight, whatever streams they were rebuilt
from, and a message in flight has three exits (`OutboxWorker.Exit`).
-/

open OutboxMessage (Codecs Readings)

variable {checks : OverflowChecks} {C : Codecs}

namespace EventStore

/-- A pending message claimed is in flight. -/
theorem inFlight_of_claimFor {t : Readings} {workerId : String} {lease : Duration} {a b : Agg OutboxMessage}
    (hpending : b.fields.isPending = true)
    (h : OutboxMessage.claimFor checks C t workerId lease b = some a) : a.fields.isInFlight = true := by
  obtain ⟨leasedUntil, -, hcall⟩ := Option.bind_eq_some_iff.mp h
  have hbody := (if_pos (show (OutboxMessage.claim checks C).guard b.fields b.entity
    (workerId, UInt64.ofNat leasedUntil.secsSinceEpoch) = true from hpending)).symm.trans hcall
  obtain ⟨r, hr, rfl⟩ := Option.map_eq_some_iff.mp hbody
  obtain ⟨m', hclaim, rfl⟩ := Option.map_eq_some_iff.mp hr
  obtain ⟨until', -, hafter⟩ := Option.bind_eq_some_iff.mp hclaim
  obtain ⟨attempts, -, rfl⟩ := Option.map_eq_some_iff.mp hafter
  rfl

/-- **What holds of every copy that is claimed** holds of the copies that the loop returns. -/
theorem forall_claimLoop {P : Agg OutboxMessage → Prop} {clock : String → Readings} {workerId : String}
    {max : ℕ} {lease : Duration}
    (hP : ∀ (s : EventStore) (id : String) (l : List EventRecord) (b a : Agg OutboxMessage),
      s.messageEvents id = some l → hydrateMessage checks C (clock id).replay id l = .ok b →
      b.fields.isPending = true → OutboxMessage.claimFor checks C (clock id) workerId lease b = some a →
      P { a with entity := a.entity.markCommitted })
    {ids : List String} {before as : List (Agg OutboxMessage)} {s s' : EventStore}
    (hbefore : ∀ a ∈ before, P a)
    (h : claimLoop checks C clock workerId max lease ids before s = (.ok as, s')) : ∀ a ∈ as, P a := by
  induction ids generalizing before s with
  | nil => exact Except.ok.inj (congrArg Prod.fst h) ▸ hbefore
  | cons id ids ih =>
    rw [claimLoop] at h
    cases hevents : s.messageEvents id with
    | none =>
      rw [hevents] at h
      exact ih hbefore h
    | some l =>
      rw [hevents] at h
      dsimp only at h
      cases hload : hydrateMessage checks C (clock id).replay id l with
      | error f =>
        rw [hload] at h
        cases h
      | ok b =>
        rw [hload] at h
        dsimp only at h
        by_cases hpending : b.fields.isPending = true
        · rw [if_pos hpending] at h
          cases hclaim : OutboxMessage.claimFor checks C (clock id) workerId lease b with
          | none =>
            rw [hclaim] at h
            cases h
          | some a =>
            rw [hclaim] at h
            dsimp only at h
            have hbefore' : ∀ a' ∈ before ++ [{ a with entity := a.entity.markCommitted }], P a' := by
              intro a' ha'
              cases List.mem_append.mp ha' with
              | inl ha' => exact hbefore a' ha'
              | inr ha' => exact List.mem_singleton.mp ha' ▸ hP s id l b a hevents hload hpending hclaim
            split at h
            · exact Except.ok.inj (congrArg Prod.fst h) ▸ hbefore'
            · exact ih hbefore' h
        · rw [if_neg hpending] at h
          split at h
          · exact Except.ok.inj (congrArg Prod.fst h) ▸ hbefore
          · exact ih hbefore h

/-- What holds of every copy that is claimed holds of those that a claim returns. -/
theorem forall_claim {P : Agg OutboxMessage → Prop} {clock : String → Readings} {workerId : String}
    {max : ℕ} {lease : Duration}
    (hP : ∀ (s : EventStore) (id : String) (l : List EventRecord) (b a : Agg OutboxMessage),
      s.messageEvents id = some l → hydrateMessage checks C (clock id).replay id l = .ok b →
      b.fields.isPending = true → OutboxMessage.claimFor checks C (clock id) workerId lease b = some a →
      P { a with entity := a.entity.markCommitted })
    {ord : List String} {as : List (Agg OutboxMessage)} {s s' : EventStore}
    (h : s.claimOutboxMessages checks C ord clock workerId max lease = (.ok as, s')) : ∀ a ∈ as, P a := by
  unfold claimOutboxMessages at h
  split at h
  · cases h
  · exact forall_claimLoop hP (fun a ha => absurd ha List.not_mem_nil) h

/-- **The messages that a claim returns are in flight.** -/
theorem inFlight_of_claim {ord : List String} {clock : String → Readings} {workerId : String} {max : ℕ}
    {lease : Duration} {as : List (Agg OutboxMessage)} {s s' : EventStore}
    (h : s.claimOutboxMessages checks C ord clock workerId max lease = (.ok as, s')) :
    ∀ a ∈ as, a.fields.isInFlight = true :=
  forall_claim (P := fun a => a.fields.isInFlight = true)
    (fun _ _ _ _ a _ _ hpending hclaim =>
      (inFlight_of_claimFor hpending hclaim : a.fields.isInFlight = true)) h

end EventStore

/-- **`DrainResult`.** -/
structure DrainResult where
  claimed : ℕ
  completed : ℕ
  released : ℕ
  failed : ℕ
deriving DecidableEq

namespace DrainResult

/-- `DrainResult::default`. -/
def default : DrainResult := ⟨0, 0, 0, 0⟩

/-- The result with one more message processed. -/
def add (r : DrainResult) (processed : ProcessOneResult) : DrainResult where
  claimed := if processed.didWork then r.claimed + 1 else r.claimed
  completed := if processed.completed then r.completed + 1 else r.completed
  released := if processed.released then r.released + 1 else r.released
  failed := if processed.failed then r.failed + 1 else r.failed

end DrainResult

/-- **A publisher** with the state `P`: what `publish` answers, an error by its text, and
the state it leaves. -/
structure OutboxPublisher (P : Type) where
  publish : P → String → Bytes → Metadata → Except String Unit × P

/-- **`OutboxWorker`.** -/
structure OutboxWorker (P : Type) where
  publisher : P
  workerId : String
  batchSize : ℕ
  lease : Duration
  maxAttempts : ℕ

namespace OutboxWorker

variable {P : Type}

theorem minute_lt : 60 < 2 ^ 64 := by decide

/-- `OutboxWorker::new`, in the process `pid`. -/
def new (publisher : P) (pid : ℕ) : OutboxWorker P :=
  ⟨publisher, "worker-" ++ toString pid, 10, .fromSecs 60 minute_lt, 3⟩

/-- `with_batch_size`. -/
def withBatchSize (w : OutboxWorker P) (size : ℕ) : OutboxWorker P := { w with batchSize := size }

section Process

variable (checks : OverflowChecks) (C : Codecs) (pub : OutboxPublisher P)

/-- **`process_message`**, with the publisher. -/
def publishMessage (w : OutboxWorker P) (t : Readings) (now : SystemTime) (m : Agg OutboxMessage) :
    Option (ProcessOneResult × Agg OutboxMessage × OutboxWorker P) :=
  if m.fields.isPublished || m.fields.isFailed then some (idle, m, w)
  else
    (if m.fields.isPending then OutboxMessage.claimFor checks C t w.workerId w.lease m
      else some m).bind (fun m' =>
        if m'.fields.isInFlight then
          let (answer, publisher) := pub.publish w.publisher m'.fields.eventType m'.fields.payload
            m'.fields.metadata
          (finishMessage C now w.maxAttempts answer m').map
            (fun r => (r.1, r.2, { w with publisher := publisher }))
        else some (idle, m', w))

/-- The loop of `process_batch`, at the clock readings of its turns. -/
def drainLoop : OutboxWorker P → (ℕ → Readings × SystemTime) → List (Agg OutboxMessage) → DrainResult →
    Option (DrainResult × List (Agg OutboxMessage) × OutboxWorker P)
  | w, _, [], result => some (result, [], w)
  | w, clock, m :: messages, result =>
    (publishMessage checks C pub w (clock 0).1 (clock 0).2 m).bind (fun r =>
      (drainLoop r.2.2 (fun n => clock (n + 1)) messages (result.add r.1)).map
        (fun r' => (r'.1, r.2.1 :: r'.2.1, r'.2.2)))

/-- **`process_batch`**; `none` is a panic of a claim. -/
def processBatch (w : OutboxWorker P) (clock : ℕ → Readings × SystemTime)
    (messages : List (Agg OutboxMessage)) :
    Option (DrainResult × List (Agg OutboxMessage) × OutboxWorker P) :=
  (drainLoop checks C pub w clock (messages.take w.batchSize) .default).map
    (fun r => (r.1, r.2.1 ++ messages.drop w.batchSize, r.2.2))

end Process

/-! ## One message -/

variable {pub : OutboxPublisher P} {w : OutboxWorker P} {t : Readings} {now : SystemTime}
  {m m' : Agg OutboxMessage}

/-- **With a publisher, a message is processed as its answer says.** -/
theorem publishMessage_eq (checks : OverflowChecks) (C : Codecs) (pub : OutboxPublisher P)
    (w : OutboxWorker P) (t : Readings) (now : SystemTime) (m : Agg OutboxMessage) :
    ∃ answer, (publishMessage checks C pub w t now m).map (fun r => (r.1, r.2.1))
      = processMessage checks C t now w.workerId w.lease w.maxAttempts answer m := by
  unfold publishMessage processMessage
  by_cases hdone : (m.fields.isPublished || m.fields.isFailed) = true
  · refine ⟨.ok (), ?_⟩
    rw [if_pos hdone, if_pos hdone]
    rfl
  · simp only [if_neg hdone]
    cases hclaim : (if m.fields.isPending then OutboxMessage.claimFor checks C t w.workerId w.lease m
      else some m) with
    | none => exact ⟨.ok (), rfl⟩
    | some m' =>
      refine ⟨(pub.publish w.publisher m'.fields.eventType m'.fields.payload m'.fields.metadata).1, ?_⟩
      rw [Option.bind_some, Option.bind_some]
      by_cases hflight : m'.fields.isInFlight = true
      · rw [if_pos hflight, if_pos hflight, Option.map_map]
        exact Option.map_id'
      · rw [if_neg hflight, if_neg hflight]
        rfl

/-- Only the publisher of a worker changes. -/
theorem publishMessage_worker {r : ProcessOneResult} {w' : OutboxWorker P}
    (h : publishMessage checks C pub w t now m = some (r, m', w')) : ∃ p, w' = { w with publisher := p } := by
  unfold publishMessage at h
  by_cases hdone : (m.fields.isPublished || m.fields.isFailed) = true
  · rw [if_pos hdone] at h
    obtain ⟨-, hrest⟩ := Prod.mk.inj (Option.some.inj h)
    exact ⟨w.publisher, (Prod.mk.inj hrest).2.symm⟩
  · rw [if_neg hdone] at h
    obtain ⟨b, -, hrest⟩ := Option.bind_eq_some_iff.mp h
    by_cases hflight : b.fields.isInFlight = true
    · rw [if_pos hflight] at hrest
      obtain ⟨r', -, hr'⟩ := Option.map_eq_some_iff.mp hrest
      obtain ⟨-, hrest⟩ := Prod.mk.inj hr'
      exact ⟨_, (Prod.mk.inj hrest).2.symm⟩
    · rw [if_neg hflight] at hrest
      obtain ⟨-, hrest⟩ := Prod.mk.inj (Option.some.inj hrest)
      exact ⟨w.publisher, (Prod.mk.inj hrest).2.symm⟩

/-- **The exits of a message in flight.** -/
inductive Exit (m' : Agg OutboxMessage) : ProcessOneResult → Prop
  | completed (h : m'.fields.status = .published) : Exit m' ⟨true, true, false, false⟩
  | released (h : m'.fields.status = .pending) : Exit m' ⟨true, false, true, false⟩
  | failed (h : m'.fields.status = .failed) : Exit m' ⟨true, false, false, true⟩

theorem Exit.didWork {r : ProcessOneResult} (h : Exit m' r) : r.didWork = true := by
  cases h <;> rfl

theorem Exit.not_inFlight {r : ProcessOneResult} (h : Exit m' r) : m'.fields.isInFlight = false := by
  cases h with
  | completed h => simp [OutboxMessage.isInFlight, h]
  | released h => simp [OutboxMessage.isInFlight, h]
  | failed h => simp [OutboxMessage.isInFlight, h]

/-- What an exit adds to the counters. -/
theorem Exit.add {processed : ProcessOneResult} (h : Exit m' processed) (r : DrainResult) :
    (r.add processed).completed = r.completed + (if m'.fields.status = .published then 1 else 0)
      ∧ (r.add processed).released = r.released + (if m'.fields.status = .pending then 1 else 0)
      ∧ (r.add processed).failed = r.failed + (if m'.fields.status = .failed then 1 else 0)
      ∧ (r.add processed).claimed + (r.completed + r.released + r.failed)
        = r.claimed + ((r.add processed).completed + (r.add processed).released
          + (r.add processed).failed) := by
  refine ⟨?_, ?_, ?_, ?_⟩
  · cases h <;> simp [DrainResult.add, *]
  · cases h <;> simp [DrainResult.add, *]
  · cases h <;> simp [DrainResult.add, *]
  · cases h <;>
    · simp only [DrainResult.add, if_true, Bool.false_eq_true, if_false]
      omega

/-- **A message in flight takes one of the exits**, whatever the publisher answers. -/
theorem exists_exit (checks : OverflowChecks) (C : Codecs) (pub : OutboxPublisher P)
    (w : OutboxWorker P) (t : Readings) (now : SystemTime)
    (hm : m.fields.isInFlight = true) : ∃ r m' p,
      publishMessage checks C pub w t now m = some (r, m', { w with publisher := p }) ∧ Exit m' r := by
  have hstatus : m.fields.status = .inFlight := of_decide_eq_true hm
  have hdone : ¬ (m.fields.isPublished || m.fields.isFailed) = true := by
    simp [OutboxMessage.isPublished, OutboxMessage.isFailed, hstatus]
  have hpending : ¬ m.fields.isPending = true := by simp [OutboxMessage.isPending, hstatus]
  unfold publishMessage
  rw [if_neg hdone, if_neg hpending, Option.bind_some, if_pos hm]
  generalize pub.publish w.publisher m.fields.eventType m.fields.payload m.fields.metadata = a
  obtain ⟨answer, p⟩ := a
  cases answer with
  | ok u =>
    refine ⟨_, _, p, congrArg (Option.map _) (congrArg (Option.map _) (if_pos hm)), .completed rfl⟩
  | error error =>
    by_cases hmax : w.maxAttempts ≤ m.fields.attempts
    · have hcan : m.fields.canFail = true := by simp [OutboxMessage.canFail, hstatus]
      exact ⟨_, _, p, congrArg (Option.map _) ((if_pos hmax).trans (congrArg (Option.map _) (if_pos hcan))),
        .failed rfl⟩
    · exact ⟨_, _, p, congrArg (Option.map _) ((if_neg hmax).trans (congrArg (Option.map _) (if_pos hm))),
        .released rfl⟩

/-! ## A batch -/

/-- **The number of messages that went from in flight** to a status. -/
def transitions (before after : List (Agg OutboxMessage)) (status : OutboxMessageStatus) : ℕ :=
  (before.zip after).countP (fun x => x.1.fields.isInFlight && x.2.fields.status = status)

theorem transitions_cons {before after : List (Agg OutboxMessage)} (hm : m.fields.isInFlight = true)
    (status : OutboxMessageStatus) :
    transitions (m :: before) (m' :: after) status
      = transitions before after status + if m'.fields.status = status then 1 else 0 := by
  simp [transitions, List.countP_cons, hm]

/-- **What a loop over messages in flight did**: none of them is in flight, and the counters
have gone up by the transitions. -/
structure Drained (before after : List (Agg OutboxMessage)) (r r' : DrainResult) : Prop where
  length : after.length = before.length
  landed : ∀ a ∈ after, a.fields.isInFlight = false
  completed : r'.completed = r.completed + transitions before after .published
  released : r'.released = r.released + transitions before after .pending
  failed : r'.failed = r.failed + transitions before after .failed
  claimed : r'.claimed + (r.completed + r.released + r.failed)
    = r.claimed + (r'.completed + r'.released + r'.failed)

/-- One message took an exit, and then others. -/
theorem Drained.cons {before after : List (Agg OutboxMessage)} {r r' : DrainResult}
    {processed : ProcessOneResult} (hm : m.fields.isInFlight = true) (h : Exit m' processed)
    (hrest : Drained before after (r.add processed) r') : Drained (m :: before) (m' :: after) r r' := by
  obtain ⟨hlength, hlanded, hcompleted, hreleased, hfailed, hclaimed⟩ := hrest
  obtain ⟨hcompleted₁, hreleased₁, hfailed₁, hclaimed₁⟩ := h.add r
  refine ⟨congrArg (· + 1) hlength, List.forall_mem_cons.mpr ⟨h.not_inFlight, hlanded⟩, ?_, ?_, ?_, ?_⟩
  · rw [transitions_cons hm, hcompleted, hcompleted₁]
    omega
  · rw [transitions_cons hm, hreleased, hreleased₁]
    omega
  · rw [transitions_cons hm, hfailed, hfailed₁]
    omega
  · omega

/-- **The loop over messages in flight.** -/
theorem exists_drainLoop (checks : OverflowChecks) (C : Codecs) (pub : OutboxPublisher P)
    (w : OutboxWorker P) (clock : ℕ → Readings × SystemTime)
    {before : List (Agg OutboxMessage)} (hbefore : ∀ a ∈ before, a.fields.isInFlight = true)
    (r : DrainResult) : ∃ r' after w',
      drainLoop checks C pub w clock before r = some (r', after, w') ∧ Drained before after r r' := by
  induction before generalizing w clock r with
  | nil =>
    exact ⟨r, [], w, rfl, rfl, fun a ha => absurd ha List.not_mem_nil, rfl, rfl, rfl, rfl⟩
  | cons m before ih =>
    obtain ⟨hm, hbefore⟩ := List.forall_mem_cons.mp hbefore
    obtain ⟨processed, m', p, hpublish, hexit⟩ :=
      exists_exit checks C pub w (clock 0).1 (clock 0).2 hm
    obtain ⟨r', after, w', hloop, hdrained⟩ := ih { w with publisher := p } (fun n => clock (n + 1)) hbefore
      (r.add processed)
    refine ⟨r', m' :: after, w', ?_, hdrained.cons hm hexit⟩
    rw [drainLoop, hpublish, Option.bind_some]
    dsimp only
    rw [hloop]
    rfl

theorem transitions_append {b₁ a₁ : List (Agg OutboxMessage)} (h : a₁.length = b₁.length)
    (b₂ a₂ : List (Agg OutboxMessage)) (status : OutboxMessageStatus) :
    transitions (b₁ ++ b₂) (a₁ ++ a₂) status = transitions b₁ a₁ status + transitions b₂ a₂ status := by
  unfold transitions
  rw [List.zip_append h.symm, List.countP_append]

/-- Messages left as they are make no transition. -/
theorem transitions_self (messages : List (Agg OutboxMessage)) {status : OutboxMessageStatus}
    (hstatus : status ≠ .inFlight) : transitions messages messages status = 0 := by
  induction messages with
  | nil => rfl
  | cons m messages ih =>
    unfold transitions at ih ⊢
    rw [List.zip_cons_cons, List.countP_cons, ih]
    by_cases hm : m.fields.status = .inFlight
    · simp [OutboxMessage.isInFlight, hm, hstatus.symm]
    · simp [OutboxMessage.isInFlight, hm]

/-- **A slice of claimed messages processed**: those of the first `batch_size` are published,
pending or failed, and the others are as they were. The counters are the transitions, and
add up. No message is left in flight exactly where the slice is no longer than a batch. -/
theorem processBatch_drains (pub : OutboxPublisher P) (w : OutboxWorker P)
    (clock : ℕ → Readings × SystemTime) {s s' : EventStore} {ord : List String}
    {claimClock : String → Readings} {workerId : String} {max : ℕ} {lease : Duration}
    {claimed messages : List (Agg OutboxMessage)}
    (hclaim : s.claimOutboxMessages checks C ord claimClock workerId max lease = (.ok claimed, s'))
    (hslice : ∀ a ∈ messages, a ∈ claimed) : ∃ result processed w',
      processBatch checks C pub w clock messages
          = some (result, processed ++ messages.drop w.batchSize, w')
        ∧ processed.length = (messages.take w.batchSize).length
        ∧ (∀ a ∈ processed, a.fields.status = .published ∨ a.fields.status = .pending
          ∨ a.fields.status = .failed)
        ∧ result.claimed = result.completed + result.released + result.failed
        ∧ result.completed = transitions messages (processed ++ messages.drop w.batchSize) .published
        ∧ result.released = transitions messages (processed ++ messages.drop w.batchSize) .pending
        ∧ result.failed = transitions messages (processed ++ messages.drop w.batchSize) .failed
        ∧ ((∀ a ∈ processed ++ messages.drop w.batchSize, a.fields.isInFlight = false)
          ↔ messages.length ≤ w.batchSize) := by
  have hflight : ∀ a ∈ messages, a.fields.isInFlight = true := fun a ha =>
    EventStore.inFlight_of_claim hclaim a (hslice a ha)
  have htake : ∀ a ∈ messages.take w.batchSize, a.fields.isInFlight = true :=
    fun a ha => hflight a (List.mem_of_mem_take ha)
  obtain ⟨result, processed, w', hloop, hdrained⟩ := exists_drainLoop checks C pub w clock htake .default
  have hcount : ∀ status, status ≠ .inFlight →
      transitions messages (processed ++ messages.drop w.batchSize) status
        = transitions (messages.take w.batchSize) processed status := by
    intro status hstatus
    have happend := transitions_append hdrained.length (messages.drop w.batchSize)
      (messages.drop w.batchSize) status
    rw [List.take_append_drop, transitions_self _ hstatus] at happend
    exact happend
  refine ⟨result, processed, w', ?_, hdrained.length, fun a ha => ?_, ?_, ?_, ?_, ?_, ?_⟩
  · rw [processBatch, hloop]
    rfl
  · have hlanded := hdrained.landed a ha
    cases hstatus : a.fields.status with
    | pending => exact Or.inr (Or.inl rfl)
    | inFlight => simp [OutboxMessage.isInFlight, hstatus] at hlanded
    | published => exact Or.inl rfl
    | failed => exact Or.inr (Or.inr rfl)
  · simpa [DrainResult.default] using hdrained.claimed
  · rw [hcount _ (by decide)]
    simpa [DrainResult.default] using hdrained.completed
  · rw [hcount _ (by decide)]
    simpa [DrainResult.default] using hdrained.released
  · rw [hcount _ (by decide)]
    simpa [DrainResult.default] using hdrained.failed
  · constructor
    · intro hall
      by_contra hlong
      -- the first message past the batch is in flight
      obtain ⟨a, ha⟩ := List.exists_mem_of_ne_nil (messages.drop w.batchSize) (by
        rw [Ne, List.drop_eq_nil_iff]
        exact hlong)
      have hnot := hall a (List.mem_append_right _ ha)
      rw [hflight a (List.mem_of_mem_drop ha)] at hnot
      cases hnot
    · intro hshort a ha
      rw [List.drop_of_length_le hshort, List.append_nil] at ha
      exact hdrained.landed a ha

/-- A publisher that answers every message in the same way. -/
def always (answer : Except String Unit) : OutboxPublisher Unit := ⟨fun p _ _ _ => (answer, p)⟩

/-- Clock readings at the epoch. -/
def epochReadings : Readings := ⟨SystemTime.unixEpoch, SystemTime.unixEpoch, SystemTime.unixEpoch⟩

/-- **A message claimed**, from a store with this one. -/
theorem exists_claimed : ∃ (s s' : EventStore) (a : Agg OutboxMessage),
    s.claimOutboxMessages true Codecs.counting ["outbox:m"] (fun _ => epochReadings) "worker-1" 100
      (.fromSecs 0 (by decide)) = (.ok [a], s') := by
  obtain ⟨-, -, s, l, m, -, -, hsingle, hclaims⟩ :=
    EventStore.Single.exists_commit true Codecs.counting [] ∅
  have hpanic := hsingle.not_claimPanics (fun _ => hclaims ▸ by decide) epochReadings
  obtain ⟨a, s', -, hclaim, -⟩ := hsingle.claim Codecs.counting_lawful (fun _ => epochReadings) "worker-1"
    (show 1 < 100 by decide) hpanic
  exact ⟨s, s', a, hclaim⟩

/-- A message claimed and published in a batch. -/
theorem processBatch_published : ∃ (a b : Agg OutboxMessage) (result : DrainResult) (w' : OutboxWorker Unit),
    processBatch true Codecs.counting (always (.ok ())) (new () 1) (fun _ => (epochReadings, SystemTime.unixEpoch))
        [a] = some (result, [b], w')
      ∧ (b.fields.status = .published ∨ b.fields.status = .pending ∨ b.fields.status = .failed) := by
  obtain ⟨s, s', a, hclaim⟩ := exists_claimed
  obtain ⟨result, processed, w', hbatch, hlength, hlanded, -⟩ := processBatch_drains (always (.ok ()))
    (new () 1) (fun _ => (epochReadings, SystemTime.unixEpoch)) hclaim (fun _ ha => ha)
  obtain ⟨b, rfl⟩ := List.length_eq_one_iff.mp (hlength.trans rfl)
  exact ⟨a, b, result, w', hbatch, hlanded b (List.mem_singleton_self b)⟩

/-- **A message past the batch stays in flight.** -/
theorem processBatch_leaves : ∃ (s s' : EventStore) (a : Agg OutboxMessage) (result : DrainResult)
    (w' : OutboxWorker Unit),
    s.claimOutboxMessages true Codecs.counting ["outbox:m"] (fun _ => epochReadings) "worker-1" 100
        (.fromSecs 0 (by decide)) = (.ok [a], s')
      ∧ processBatch true Codecs.counting (always (.ok ())) ((new () 1).withBatchSize 0)
          (fun _ => (epochReadings, SystemTime.unixEpoch)) [a] = some (result, [a], w')
      ∧ a.fields.status = .inFlight := by
  obtain ⟨s, s', a, hclaim⟩ := exists_claimed
  exact ⟨s, s', a, _, _, hclaim, rfl,
    of_decide_eq_true (EventStore.inFlight_of_claim hclaim a (List.mem_singleton_self a))⟩

end OutboxWorker
