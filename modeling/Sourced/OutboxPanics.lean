import Sourced.OutboxClaims

/-!
# Claims that panic

`claim_outbox_messages` holds the write lock of the whole store while it hydrates and
claims, so a panic there poisons the lock, and nothing can be read or written any more.
The time and attempt arithmetic can panic in two places. `claim_for` adds the lease to
the clock reading, and the lease may be too long for the sum to be a time. And a record
of a claim that is replayed – the one just made, or one that was stored – adds its
seconds to the epoch and one to the attempts.

Which streams panic when they are hydrated can be told from their records
(`EventStore.StreamPanics`), and which claims do from these, the pending messages, the
clock and the lease (`EventStore.CanClaim`). A call returns and leaves the lock as it was
exactly there (`EventStore.claims_return_iff`).
-/

open OutboxMessage (Codecs Readings hasPrefix normalizeId)

variable {checks : OverflowChecks} {C : Codecs}

/-! ## A record replayed -/

namespace OutboxMessage

variable {now : SystemTime} {r : EventRecord} {a : Agg OutboxMessage}

theorem untilTime_eq_none {untilSecs : UInt64} :
    untilTime untilSecs = none ↔ 2 ^ 63 ≤ untilSecs.toNat := by
  unfold untilTime
  rw [SystemTime.add_eq_none]
  show 2 ^ 63 ≤ (0 : ℤ) + (untilSecs.toNat : ℤ) + ((0 + 0) / 1000000000 : ℕ) ↔ _
  omega

/-- **A claim panics** at seconds that are not a time, or where the attempts cannot be
counted. -/
theorem afterClaim_eq_none {m : OutboxMessage} {workerId : String} {untilSecs : UInt64} :
    m.afterClaim checks workerId untilSecs = none
      ↔ 2 ^ 63 ≤ untilSecs.toNat ∨ checks = true ∧ ¬ m.attempts + 1 < 2 ^ 32 := by
  rw [← untilTime_eq_none, ← addU32_one_eq_none]
  unfold afterClaim
  cases untilTime untilSecs with
  | none => simp
  | some leasedUntil => simp

/-- Of the methods only a claim can panic, of a pending message. -/
theorem call_eq_none {k : EventMethod OutboxMessage} (hk : k ∈ (definition checks C).methods) {x : k.Args}
    (h : k.call now x a = none) : k = claim checks C ∧ a.fields.isPending = true := by
  unfold EventMethod.call at h
  by_cases hguard : k.guard a.fields a.entity x = true
  · rw [if_pos hguard, Option.map_eq_none_iff] at h
    simp only [definition, later, List.mem_cons, List.not_mem_nil, or_false] at hk
    rcases hk with rfl | rfl | rfl | rfl | rfl
    · cases h
    · exact ⟨rfl, hguard⟩
    · cases h
    · cases h
    · cases h
  · rw [if_neg hguard] at h
    cases h

/-- **A replayed record panics** where it is of a claim, the message is pending, and the
claim panics. -/
theorem replayEvent_eq_panic :
    (definition checks C).aggregate.replayEvent now r a = .error .panic
      ↔ r.eventName = "MessageClaimed" ∧ a.fields.status = .pending
        ∧ ∃ x, C.claimed.deserialize r.payload = .ok x ∧ a.fields.afterClaim checks x.1 x.2 = none := by
  have hclaim : claim checks C ∈ later checks C := List.mem_cons_self
  change EventMethod.replayEvent (definition checks C).methods now r a = .error .panic ↔ _
  unfold EventMethod.replayEvent
  constructor
  · intro h
    cases hfind : (definition checks C).methods.find? (fun k => k.name = r.eventName) with
    | none =>
      rw [hfind] at h
      cases h
    | some k =>
      rw [hfind] at h
      dsimp only at h
      cases hx : k.params.decode r with
      | error msg =>
        rw [hx] at h
        cases h
      | ok x =>
        rw [hx] at h
        dsimp only at h
        cases hcall : k.call now x a with
        | some a' =>
          rw [hcall] at h
          cases h
        | none =>
          obtain ⟨rfl, hpending⟩ := call_eq_none (List.mem_of_find?_eq_some hfind) hcall
          have hname : (claim checks C).name = r.eventName := by simpa using List.find?_some hfind
          refine ⟨hname.symm, of_decide_eq_true hpending, x, hx, ?_⟩
          have hbody := (if_pos hpending).symm.trans hcall
          rw [Option.map_eq_none_iff] at hbody
          exact Option.map_eq_none_iff.mp hbody
  · rintro ⟨hname, hpending, x, hx, hnone⟩
    have hfind : (definition checks C).methods.find? (fun k => k.name = r.eventName)
        = some (claim checks C) := hname ▸ find?_later hclaim
    have hcall : (claim checks C).call now x a = none := by
      refine (if_pos (decide_eq_true hpending)).trans ?_
      show ((a.fields.afterClaim checks x.1 x.2).map _).map _ = none
      rw [hnone]
      rfl
    rw [hfind]
    dsimp only
    rw [show (claim checks C).params.decode r = .ok x from hx]
    dsimp only
    rw [hcall]

/-- A replayed record ends in some way. -/
theorem replayEvent_ne_diverge :
    (definition checks C).aggregate.replayEvent now r a ≠ .error .diverge := by
  show EventMethod.replayEvent (definition checks C).methods now r a ≠ .error .diverge
  unfold EventMethod.replayEvent
  cases (definition checks C).methods.find? (fun k => k.name = r.eventName) with
  | none => simp
  | some k =>
    dsimp only
    cases k.params.decode r with
    | error msg => simp
    | ok x =>
      dsimp only
      cases k.call now x a with
      | none => simp
      | some a' => simp

end OutboxMessage

/-! ## A stream hydrated -/

namespace EventStore

variable {s s' : EventStore} {clock : String → Readings} {t : Readings} {workerId id : String}
  {lease : Duration} {max : ℕ} {l : List EventRecord} {m : OutboxMessage}

/-- **A stream panics**: one of its records is of a claim, the records before it say that
the message is pending, and its seconds are too many for a time or it is one attempt too
many to be counted. -/
def StreamPanics (checks : OverflowChecks) (C : Codecs) (l : List EventRecord) : Prop :=
  ∃ l₁ r l₂ m x, l = l₁ ++ r :: l₂ ∧ content checks C l₁ = .ok m ∧ m.status = .pending
    ∧ r.eventName = "MessageClaimed" ∧ C.claimed.deserialize r.payload = .ok x
    ∧ (2 ^ 63 ≤ x.2.toNat ∨ checks = true ∧ ¬ m.attempts + 1 < 2 ^ 32)

/-- **A stream panics when it is hydrated** as its records say. -/
theorem content_eq_panic : content checks C l = .error .panic ↔ StreamPanics checks C l := by
  induction l using List.reverseRecOn with
  | nil =>
    constructor
    · intro h
      cases h
    · rintro ⟨l₁, r, l₂, m, x, hl, -⟩
      simp at hl
  | append_singleton l r ih =>
    rw [content_append_singleton]
    constructor
    · intro h
      cases hm : content checks C l with
      | error f =>
        -- the records before panic already
        rw [hm] at h
        obtain rfl : f = .panic := Except.error.inj h
        obtain ⟨l₁, r', l₂, m, x, rfl, hrest⟩ := ih.mp hm
        exact ⟨l₁, r', l₂ ++ [r], m, x, by simp, hrest⟩
      | ok m =>
        rw [hm] at h
        have hpanic : (OutboxMessage.definition checks C).aggregate.replayEvent SystemTime.unixEpoch r
            ⟨m, Entity.new⟩ = .error .panic := Res.map_eq_error.mp (Res.mapErr_eq_panic.mp h)
        obtain ⟨hname, hpending, x, hx, hnone⟩ := OutboxMessage.replayEvent_eq_panic.mp hpanic
        exact ⟨l, r, [], m, x, rfl, hm, hpending, hname, hx, OutboxMessage.afterClaim_eq_none.mp hnone⟩
    · rintro ⟨l₁, r', l₂, m, x, hl, hm, hpending, hname, hx, hnone⟩
      cases l₂ using List.reverseRecOn with
      | nil =>
        obtain ⟨rfl, hr⟩ := List.append_inj' hl rfl
        obtain rfl : r = r' := (List.cons.inj hr).1
        rw [hm]
        show Res.mapErr _ (((OutboxMessage.definition checks C).aggregate.replayEvent _ r _).map _) = _
        rw [OutboxMessage.replayEvent_eq_panic.mpr ⟨hname, hpending, x, hx,
          OutboxMessage.afterClaim_eq_none.mpr hnone⟩]
        rfl
      | append_singleton l₂ r₂ =>
        rw [← List.cons_append, ← List.append_assoc] at hl
        obtain ⟨rfl, -⟩ := List.append_inj' hl rfl
        rw [ih.mpr ⟨l₁, r', l₂, m, x, rfl, hm, hpending, hname, hx, hnone⟩]
        rfl

/-- A stream hydrates, fails to, or panics. -/
theorem content_ne_diverge (l : List EventRecord) : content checks C l ≠ .error .diverge := by
  induction l using List.reverseRecOn with
  | nil =>
    intro h
    cases h
  | append_singleton l r ih =>
    rw [content_append_singleton]
    cases hm : content checks C l with
    | error f =>
      rw [hm] at ih
      exact ih
    | ok m =>
      intro h
      exact OutboxMessage.replayEvent_ne_diverge (Res.map_eq_error.mp (Res.mapErr_eq_diverge.mp h))

/-! ## What the loop comes to -/

variable {ids pre : List String} {n : ℕ}

/-- **The loop goes on after some ids** with `n` messages claimed before: what is stored
under them hydrates, and either there is no message among them, or there are fewer pending
ones than it may still claim. -/
def GoesOn (checks : OverflowChecks) (C : Codecs) (s : EventStore) (max n : ℕ) (pre : List String) :
    Prop :=
  (∀ id ∈ pre, ∀ l, s.messageEvents id = some l → ∃ m, content checks C l = .ok m)
    ∧ ((∀ id ∈ pre, s.messageEvents id = none) ∨ n + (s.pendingIds checks C pre).length < max)

/-- **What is stored under an id is claimed without a panic**: the stream does not panic,
and if the message is pending, the lease ends at a time and the attempts can be counted. -/
def ClaimsSafely (checks : OverflowChecks) (C : Codecs) (clock : String → Readings) (lease : Duration)
    (s : EventStore) (id : String) : Prop :=
  ∀ l, s.messageEvents id = some l → ¬ StreamPanics checks C l
    ∧ ∀ m, content checks C l = .ok m → m.status = .pending →
      (clock id).lease.secs + lease.secs + (((clock id).lease.nanos + lease.nanos) / 1000000000 : ℕ)
          < 2 ^ 63
        ∧ (checks = true → m.attempts + 1 < 2 ^ 32)

/-- **The condition on a claim**: whatever the loop comes to is claimed without a panic. -/
def CanClaim (checks : OverflowChecks) (C : Codecs) (ord : List String) (clock : String → Readings)
    (s : EventStore) (max : ℕ) (lease : Duration) : Prop :=
  ∀ pre id post, ord = pre ++ id :: post → s.GoesOn checks C max 0 pre →
    s.ClaimsSafely checks C clock lease id

theorem not_claimPanics_iff : ¬ ClaimPanics checks t lease m
    ↔ t.lease.secs + lease.secs + ((t.lease.nanos + lease.nanos) / 1000000000 : ℕ) < 2 ^ 63
      ∧ (checks = true → m.attempts + 1 < 2 ^ 32) := by
  unfold ClaimPanics
  rw [SystemTime.add_eq_none, addU32_one_eq_none, not_or, not_le, not_and, not_not]

/-- A message that hydrates. -/
theorem claimsSafely_iff (hl : s.messageEvents id = some l) (hm : content checks C l = .ok m) :
    s.ClaimsSafely checks C clock lease id
      ↔ (m.status = .pending → ¬ ClaimPanics checks (clock id) lease m) := by
  have hno : ¬ StreamPanics checks C l := fun h => by
    rw [content_eq_panic.mpr h] at hm
    cases hm
  rw [not_claimPanics_iff]
  constructor
  · intro h hpending
    exact (h l hl).2 m hm hpending
  · intro h l' hl'
    obtain rfl : l = l' := Option.some.inj (hl.symm.trans hl')
    refine ⟨hno, fun m' hm' => ?_⟩
    obtain rfl : m = m' := Except.ok.inj (hm.symm.trans hm')
    exact h

theorem claimsSafely_congr (h : s'.messageEvents id = s.messageEvents id) :
    s'.ClaimsSafely checks C clock lease id ↔ s.ClaimsSafely checks C clock lease id := by
  unfold ClaimsSafely
  rw [h]

theorem goesOn_congr (h : ∀ id ∈ pre, s'.messageEvents id = s.messageEvents id) :
    s'.GoesOn checks C max n pre ↔ s.GoesOn checks C max n pre := by
  have hat : s'.pendingIds checks C pre = s.pendingIds checks C pre :=
    List.filter_congr (fun id hid => by simp only [pendingAt, h id hid])
  unfold GoesOn
  rw [hat]
  refine and_congr (forall₂_congr fun id hid => ?_) (or_congr (forall₂_congr fun id hid => ?_) Iff.rfl)
  · rw [h id hid]
  · rw [h id hid]

theorem goesOn_nil : s.GoesOn checks C max n [] := ⟨by simp, Or.inl (by simp)⟩

theorem goesOn_absent (h : s.messageEvents id = none) :
    s.GoesOn checks C max n (id :: pre) ↔ s.GoesOn checks C max n pre := by
  have hat : s.pendingAt checks C id = false := by simp [pendingAt, h]
  unfold GoesOn pendingIds
  rw [List.filter_cons_of_neg (by simp [hat])]
  simp [h]

/-- After a message the limit is looked at. -/
theorem goesOn_cons (hl : s.messageEvents id = some l) (hm : content checks C l = .ok m) :
    s.GoesOn checks C max n (id :: pre)
      ↔ n + (s.pendingIds checks C [id]).length < max
        ∧ s.GoesOn checks C max (n + (s.pendingIds checks C [id]).length) pre := by
  have hsplit : s.pendingIds checks C (id :: pre)
      = s.pendingIds checks C [id] ++ s.pendingIds checks C pre := List.filter_append [id] pre
  have hnil : (∀ id ∈ pre, s.messageEvents id = none) → s.pendingIds checks C pre = [] := fun h =>
    List.filter_eq_nil_iff.mpr (fun id hid => by simp [pendingAt, h id hid])
  unfold GoesOn
  rw [hsplit, List.length_append, ← Nat.add_assoc]
  simp only [List.forall_mem_cons, hl, Option.some.injEq, forall_eq', reduceCtorEq, false_and, false_or]
  constructor
  · rintro ⟨⟨-, hpre⟩, hlt⟩
    exact ⟨by omega, hpre, Or.inr hlt⟩
  · rintro ⟨hlt, hpre, hrest⟩
    refine ⟨⟨⟨m, hm⟩, hpre⟩, ?_⟩
    cases hrest with
    | inl hnone =>
      rw [hnil hnone]
      exact hlt
    | inr hlt' => exact hlt'

/-- What follows the first element, or the element itself. -/
theorem exists_split_cons {α : Type} {P : List α → Prop} {Q : α → Prop} {a : α} {l : List α} :
    (∃ pre x post, a :: l = pre ++ x :: post ∧ P pre ∧ Q x)
      ↔ (P [] ∧ Q a) ∨ ∃ pre x post, l = pre ++ x :: post ∧ P (a :: pre) ∧ Q x := by
  constructor
  · rintro ⟨pre, x, post, hl, hP, hQ⟩
    cases pre with
    | nil =>
      obtain ⟨rfl, rfl⟩ := List.cons.inj hl
      exact Or.inl ⟨hP, hQ⟩
    | cons b pre =>
      obtain ⟨rfl, hl'⟩ := List.cons.inj hl
      exact Or.inr ⟨pre, x, post, hl', hP, hQ⟩
  · rintro (⟨hP, hQ⟩ | ⟨pre, x, post, rfl, hP, hQ⟩)
    · exact ⟨[], a, l, rfl, hP, hQ⟩
    · exact ⟨a :: pre, x, post, rfl, hP, hQ⟩

/-- **The loop panics** where it comes to what is not claimed without a panic. -/
theorem claimLoop_eq_panic (hC : C.Lawful) (hnd : ids.Nodup) (before : List (Agg OutboxMessage)) :
    (claimLoop checks C clock workerId max lease ids before s).1 = .error .panic
      ↔ ∃ pre id post, ids = pre ++ id :: post ∧ s.GoesOn checks C max before.length pre
        ∧ ¬ s.ClaimsSafely checks C clock lease id := by
  induction ids generalizing s before with
  | nil =>
    constructor
    · intro h
      cases h
    · rintro ⟨pre, id, post, hids, -⟩
      simp at hids
  | cons id ids ih =>
    obtain ⟨hnot, hnd'⟩ := List.nodup_cons.mp hnd
    rw [exists_split_cons (P := s.GoesOn checks C max before.length)
      (Q := fun id => ¬ s.ClaimsSafely checks C clock lease id)]
    cases hl : s.messageEvents id with
    | none =>
      have hsafe : s.ClaimsSafely checks C clock lease id := fun l hl' => by
        rw [hl] at hl'
        cases hl'
      rw [claimLoop_absent hl, ih hnd']
      simp only [goesOn_absent hl, hsafe, not_true_eq_false, and_false, false_or]
    | some l =>
      cases hm : content checks C l with
      | error f =>
        rw [claimLoop_error hl hm]
        constructor
        · intro h
          obtain rfl : f = .panic := Except.error.inj h
          exact Or.inl ⟨goesOn_nil, fun hsafe => (hsafe l hl).1 (content_eq_panic.mp hm)⟩
        · rintro (⟨-, hunsafe⟩ | ⟨pre, x, post, -, hgoes, -⟩)
          · -- a stream that says nothing is unsafe only where it panics
            by_contra hne
            refine hunsafe (fun l' hl' => ?_)
            obtain rfl : l = l' := Option.some.inj (hl.symm.trans hl')
            refine ⟨fun hpanic => hne ?_, fun m hm' => ?_⟩
            · exact congrArg Except.error (Except.error.inj (hm.symm.trans (content_eq_panic.mpr hpanic)))
            · rw [hm] at hm'
              cases hm'
          · obtain ⟨m, hm'⟩ := hgoes.1 id List.mem_cons_self l hl
            rw [hm] at hm'
            cases hm'
      | ok m =>
        have hsafe : s.ClaimsSafely checks C clock lease id
            ↔ (m.status = .pending → ¬ ClaimPanics checks (clock id) lease m) := claimsSafely_iff hl hm
        simp only [goesOn_cons hl hm]
        by_cases hpending : m.status = .pending
        · have hat : s.pendingIds checks C [id] = [id] :=
            List.filter_eq_self.mpr (fun id' hid' => by
              rw [List.mem_singleton.mp hid']
              exact pendingAt_eq_true.mpr ⟨l, m, hl, hm, hpending⟩)
          by_cases hpanic : ClaimPanics checks (clock id) lease m
          · rw [claimLoop_panic hl hm hpending hpanic]
            exact iff_of_true rfl (Or.inl ⟨goesOn_nil, fun h => hsafe.mp h hpending hpanic⟩)
          · obtain ⟨a, events, -, hturn⟩ := claimLoop_take hC hl hm hpending hpanic ids before
            have hsafe' := hsafe.mpr (fun _ => hpanic)
            rw [hturn, hat]
            simp only [hsafe', not_true_eq_false, and_false, false_or, List.length_append,
              List.length_singleton]
            by_cases hroom : max ≤ before.length + 1
            · rw [if_pos hroom]
              simp [Nat.not_lt.mpr hroom]
            · -- the rest is stored as it was
              have hrest : ∀ id' ∈ ids, (s.put id events).messageEvents id' = s.messageEvents id' :=
                fun id' hid' => messageEvents_congr
                  (lookup_put_of_ne s (ne_of_mem_of_not_mem hid' hnot) events)
              rw [if_neg hroom, ih hnd', List.length_append, List.length_singleton]
              refine exists_congr fun pre => exists_congr fun id' => exists_congr fun post =>
                and_congr_right fun hids => ?_
              subst hids
              rw [goesOn_congr (fun id'' hid'' => hrest id'' (List.mem_append_left _ hid'')),
                claimsSafely_congr (hrest id' (List.mem_append_right _ List.mem_cons_self))]
              simp [Nat.not_le.mp hroom]
        · have hat : s.pendingIds checks C [id] = [] := by
            refine List.filter_eq_nil_iff.mpr (fun id' hid' => ?_)
            rw [List.mem_singleton.mp hid']
            simp [pendingAt, hl, hm, OutboxMessage.isPending, hpending]
          have hsafe' := hsafe.mpr (fun h => absurd h hpending)
          rw [claimLoop_leave hl hm hpending, hat]
          simp only [hsafe', not_true_eq_false, and_false, false_or, List.length_nil, Nat.add_zero]
          by_cases hroom : max ≤ before.length
          · rw [if_pos hroom]
            simp [Nat.not_lt.mpr hroom]
          · rw [if_neg hroom, ih hnd']
            simp [Nat.not_le.mp hroom]

/-! ## Calls that return -/

/-- **A call returns**: it answers `Ok` or an error, and the lock is as it was. -/
def Returns {α : Type} (s : EventStore) (r : RepoRes α × EventStore) : Prop :=
  ((∃ x, r.1 = .ok x) ∨ ∃ e, r.1 = .error (.err e)) ∧ r.2.poisoned = s.poisoned

/-- The loop returns, or it panics and poisons the lock. -/
theorem claimLoop_ends (hC : C.Lawful) (ids : List String) (before : List (Agg OutboxMessage)) :
    s.Returns (claimLoop checks C clock workerId max lease ids before s)
      ∨ (claimLoop checks C clock workerId max lease ids before s).1 = .error .panic
        ∧ (claimLoop checks C clock workerId max lease ids before s).2.poisoned = true := by
  induction ids generalizing s before with
  | nil => exact Or.inl ⟨Or.inl ⟨before, rfl⟩, rfl⟩
  | cons id ids ih =>
    cases hl : s.messageEvents id with
    | none =>
      rw [claimLoop_absent hl]
      exact ih before
    | some l =>
      cases hm : content checks C l with
      | error f =>
        rw [claimLoop_error hl hm]
        cases f with
        | err e => exact Or.inl ⟨Or.inr ⟨e, rfl⟩, rfl⟩
        | panic => exact Or.inr ⟨rfl, rfl⟩
        | diverge => exact absurd hm (content_ne_diverge l)
      | ok m =>
        by_cases hpending : m.status = .pending
        · by_cases hpanic : ClaimPanics checks (clock id) lease m
          · rw [claimLoop_panic hl hm hpending hpanic]
            exact Or.inr ⟨rfl, rfl⟩
          · obtain ⟨a, events, -, hturn⟩ : ∃ a events,
                Taken checks C s (s.put id events) workerId id a
                  ∧ claimLoop checks C clock workerId max lease (id :: ids) before s
                    = if max ≤ (before ++ [a]).length then (.ok (before ++ [a]), s.put id events)
                      else claimLoop checks C clock workerId max lease ids (before ++ [a])
                        (s.put id events) := claimLoop_take hC hl hm hpending hpanic ids before
            rw [hturn]
            by_cases hroom : max ≤ (before ++ [a]).length
            · rw [if_pos hroom]
              exact Or.inl ⟨Or.inl ⟨_, rfl⟩, rfl⟩
            · rw [if_neg hroom]
              exact ih (s := s.put id events) (before ++ [a])
        · rw [claimLoop_leave hl hm hpending]
          by_cases hroom : max ≤ before.length
          · rw [if_pos hroom]
            exact Or.inl ⟨Or.inl ⟨before, rfl⟩, rfl⟩
          · rw [if_neg hroom]
            exact ih before

/-- **A claim returns** exactly where the lock is poisoned already or whatever the loop
comes to is claimed without a panic. -/
theorem claims_return_iff (hC : C.Lawful) {ord : List String} (hord : s.Enumerates ord) :
    s.Returns (claimOutboxMessages checks C ord clock s workerId max lease)
      ↔ s.poisoned = true ∨ s.CanClaim checks C ord clock max lease := by
  unfold claimOutboxMessages
  cases hp : s.poisoned with
  | true => exact iff_of_true ⟨Or.inr ⟨_, rfl⟩, rfl⟩ (Or.inl rfl)
  | false =>
    rw [if_neg Bool.false_ne_true]
    have hcan : s.CanClaim checks C ord clock max lease
        ↔ ¬ (claimLoop checks C clock workerId max lease ord [] s).1 = .error .panic := by
      rw [claimLoop_eq_panic hC hord.1]
      simp [CanClaim]
    rw [hcan]
    constructor
    · rintro ⟨hreturns, -⟩
      refine Or.inr (fun h => ?_)
      rw [h] at hreturns
      simp at hreturns
    · rintro (h | h)
      · cases h
      · exact (claimLoop_ends hC ord []).resolve_right (fun h' => h h'.1)

/-- A message that is changed by a call that does not panic. -/
theorem updateMessage_returns {messageId : String} {test : OutboxMessage → Bool}
    {change : Agg OutboxMessage → Option (Agg OutboxMessage)} (hchange : ∀ a, change a ≠ none)
    (hsafe : ∀ l, s.lookup (normalizeId messageId) = some l → ¬ StreamPanics checks C l) :
    s.Returns (updateMessage checks C t s messageId test change) := by
  unfold updateMessage
  cases hp : s.poisoned with
  | true => exact ⟨Or.inr ⟨_, rfl⟩, rfl⟩
  | false =>
    rw [if_neg Bool.false_ne_true]
    cases hl : s.lookup (normalizeId messageId) with
    | none => exact ⟨Or.inl ⟨(), rfl⟩, rfl⟩
    | some l =>
      dsimp only
      cases ha : hydrateMessage checks C t.replay (normalizeId messageId) l with
      | error f =>
        cases f with
        | err e => exact ⟨Or.inr ⟨e, rfl⟩, rfl⟩
        | panic => exact absurd (content_eq_panic.mp (hydrate_eq_error.mp ha)) (hsafe l hl)
        | diverge => exact absurd (hydrate_eq_error.mp ha) (content_ne_diverge l)
      | ok a =>
        dsimp only
        by_cases htest : test a.fields = true
        · rw [if_pos htest]
          obtain ⟨a', ha'⟩ := Option.ne_none_iff_exists'.mp (hchange a)
          rw [ha']
          exact ⟨Or.inl ⟨(), rfl⟩, rfl⟩
        · rw [if_neg htest]
          exact ⟨Or.inl ⟨(), rfl⟩, rfl⟩

/-- **A message settled by its id**: nothing can panic but the hydration. -/
theorem settling_returns {messageId : String} (u : Settling)
    (hsafe : ∀ l, s.lookup (normalizeId messageId) = some l → ¬ StreamPanics checks C l) :
    s.Returns (u.run checks C t s messageId) := by
  have hcall : ∀ {k : EventMethod OutboxMessage} {x : k.Args} {now : SystemTime},
      k ∈ OutboxMessage.later checks C → k.name ≠ (OutboxMessage.claim checks C).name →
        ∀ a, k.call now x a ≠ none := by
    intro k x now hk hname a hnone
    obtain ⟨rfl, -⟩ := OutboxMessage.call_eq_none (List.mem_cons_of_mem _ hk) hnone
    exact hname rfl
  cases u with
  | complete =>
    exact updateMessage_returns (hcall (by simp [OutboxMessage.later])
      (show "MessagePublished" ≠ "MessageClaimed" by decide)) hsafe
  | release error =>
    exact updateMessage_returns (hcall (by simp [OutboxMessage.later])
      (show "MessageReleased" ≠ "MessageClaimed" by decide)) hsafe
  | fail error =>
    exact updateMessage_returns (hcall (by simp [OutboxMessage.later])
      (show "MessageFailed" ≠ "MessageClaimed" by decide)) hsafe

/-- **A commit** of entities that were not committed beyond their events. -/
theorem commit_returns {es : List Entity}
    (hes : s.Valid es → ∀ e ∈ es, e.committedVersion ≤ e.events.length) :
    s.Returns ((s.commit es).1, (s.commit es).2.2) := by
  cases hp : s.poisoned with
  | true =>
    rw [commit_of_poisoned es hp]
    exact ⟨Or.inr ⟨_, rfl⟩, rfl⟩
  | false =>
    by_cases hv : s.Valid es
    · rw [commit_of_valid hp hv (fun e he => if_pos (hes hv e he))]
      exact ⟨Or.inl ⟨(), rfl⟩, poisoned_extendAll s es⟩
    · obtain ⟨e, -, hcommit⟩ := commit_of_not_valid hp hv
      rw [hcommit]
      exact ⟨Or.inr ⟨_, rfl⟩, rfl⟩

end EventStore

/-! ## Runs -/

/-- **A call that takes the write lock** of the store. -/
inductive StoreCall where
  | commit (es : List Entity)
  | claim (ord : List String) (clock : String → Readings) (workerId : String) (max : ℕ)
      (lease : Duration)
  | settle (u : Settling) (t : Readings) (messageId : String)

namespace StoreCall

variable (checks C) in
/-- The store after the call. -/
def after (s : EventStore) : StoreCall → EventStore
  | commit es => (s.commit es).2.2
  | claim ord clock workerId max lease => (s.claimOutboxMessages checks C ord clock workerId max lease).2
  | settle u t messageId => (u.run checks C t s messageId).2

variable (checks C) in
/-- **The condition on a call**: a claim comes to nothing whose claim panics; and the others
do not panic, as they do of entities committed beyond their events and of streams that
panic. -/
def Fits (s : EventStore) : StoreCall → Prop
  | commit es => s.Valid es → ∀ e ∈ es, e.committedVersion ≤ e.events.length
  | claim ord clock _ max lease => s.Enumerates ord ∧ s.CanClaim checks C ord clock max lease
  | settle _ _ messageId =>
    ∀ l, s.lookup (normalizeId messageId) = some l → ¬ EventStore.StreamPanics checks C l

variable (checks C) in
/-- **Calls of any clients**, one after the other, each of which meets the condition. -/
def Run : EventStore → EventStore → Prop :=
  Relation.ReflTransGen (fun s s' => ∃ c : StoreCall, c.Fits checks C s ∧ s' = c.after checks C s)

theorem poisoned_after (hC : C.Lawful) {s : EventStore} {c : StoreCall} (h : c.Fits checks C s) :
    (c.after checks C s).poisoned = s.poisoned := by
  cases c with
  | commit es => exact (EventStore.commit_returns h).2
  | claim ord clock workerId max lease => exact ((EventStore.claims_return_iff hC h.1).mpr (Or.inr h.2)).2
  | settle u t messageId => exact (EventStore.settling_returns u h).2

theorem Run.poisoned_eq (hC : C.Lawful) {s s' : EventStore} (h : Run checks C s s') :
    s'.poisoned = s.poisoned := by
  induction h with
  | refl => rfl
  | tail _ hstep ih =>
    obtain ⟨c, hc, rfl⟩ := hstep
    exact (poisoned_after hC hc).trans ih

/-- **A message committed** to the new store, by a call that meets the condition. -/
theorem exists_run_single (checks : OverflowChecks) (C : Codecs) : ∃ s l m, Run checks C EventStore.new s
    ∧ EventStore.Single checks C s "outbox:m" l m ∧ OutboxMessage.claims l = 0 := by
  obtain ⟨a, es, s, l, m, ha, hcommit, hsingle, hclaims⟩ := EventStore.Single.exists_commit checks C [] ∅
  obtain ⟨b, hb, -, hcommitted, -⟩ := OutboxMessage.Tells.construct checks C SystemTime.unixEpoch "m"
    "Created" [] none ∅
  obtain rfl : a = b := Option.some.inj (ha.symm.trans hb)
  refine ⟨s, l, m, .single ⟨commit [a.entity], fun _ e he => ?_, ?_⟩, hsingle, hclaims⟩
  · rw [List.mem_singleton.mp he, hcommitted]
    exact Nat.zero_le _
  · show s = (EventStore.new.commit [a.entity]).2.2
    rw [hcommit]

/-- **Claiming does not panic** exactly where the loop comes to nothing that is not claimed
without a panic; and in a run of calls that meet the condition the lock is never poisoned,
so that every stream can be read. -/
theorem claiming_returns (hC : C.Lawful) :
    (∀ (s : EventStore) (ord : List String) (clock : String → Readings) (workerId : String) (max : ℕ)
        (lease : Duration), s.Enumerates ord →
      (s.Returns (s.claimOutboxMessages checks C ord clock workerId max lease)
        ↔ s.poisoned = true ∨ s.CanClaim checks C ord clock max lease))
      ∧ ∀ s, Run checks C EventStore.new s →
        s.poisoned = false ∧ ∀ id, s.getOne id = .ok ((s.lookup id).map (EventStore.loadEntity id)) := by
  refine ⟨fun s ord clock workerId max lease hord => EventStore.claims_return_iff hC hord, fun s h => ?_⟩
  have hp : s.poisoned = false := h.poisoned_eq hC
  exact ⟨hp, EventStore.getOne_eq hp⟩

/-- A message is committed and claimed. -/
theorem claiming_returns_committed : ∃ s : EventStore, Run true Codecs.counting EventStore.new s
    ∧ s.pendingIds true Codecs.counting ["outbox:m"] = ["outbox:m"]
    ∧ s.CanClaim true Codecs.counting ["outbox:m"] EventStore.atEpoch 10 (.fromSecs 0 (by decide))
    ∧ s.Returns (s.claimOutboxMessages true Codecs.counting ["outbox:m"] EventStore.atEpoch "w" 10
        (.fromSecs 0 (by decide)))
    ∧ s.poisoned = false := by
  obtain ⟨s, l, m, hrun, hsingle, hclaims⟩ := exists_run_single true Codecs.counting
  obtain ⟨hl, hm⟩ := hsingle.content_eq Codecs.counting_lawful
  have hat : s.pendingAt true Codecs.counting "outbox:m" = true :=
    EventStore.pendingAt_eq_true.mpr ⟨l, m, hl, hm, hsingle.pending⟩
  have hcan : s.CanClaim true Codecs.counting ["outbox:m"] EventStore.atEpoch 10
      (.fromSecs 0 (by decide)) := by
    intro pre id post hids _
    obtain rfl : id = "outbox:m" := by
      have hid : id ∈ ["outbox:m"] := hids ▸ List.mem_append_right _ List.mem_cons_self
      exact List.mem_singleton.mp hid
    exact (EventStore.claimsSafely_iff hl hm).mpr (fun _ =>
      hsingle.not_claimPanics (fun _ => hclaims ▸ by decide) _)
  exact ⟨s, hrun, List.filter_eq_self.mpr (fun id hid => (List.mem_singleton.mp hid) ▸ hat), hcan,
    ((claiming_returns Codecs.counting_lawful).1 s _ _ "w" 10 _ hsingle.enumerates).mpr (Or.inr hcan),
    ((claiming_returns Codecs.counting_lawful).2 s hrun).1⟩

/-- **A claim for ever poisons the store**: no time is `Duration::MAX` from now, and after
the panic the message can no longer be read. -/
theorem claim_forever : ∃ s : EventStore, Run true Codecs.counting EventStore.new s
    ∧ s.Enumerates ["outbox:m"]
    ∧ s.claimOutboxMessages true Codecs.counting ["outbox:m"] EventStore.atEpoch "w" 10 Duration.max
        = (.error .panic, { s with poisoned := true })
    ∧ ¬ s.Returns (s.claimOutboxMessages true Codecs.counting ["outbox:m"] EventStore.atEpoch "w" 10
        Duration.max)
    ∧ EventStore.getOne { s with poisoned := true } "outbox:m" = .error (.err (.lockPoisoned "read")) := by
  obtain ⟨s, l, m, hrun, hsingle, -⟩ := exists_run_single true Codecs.counting
  obtain ⟨hl, hm⟩ := hsingle.content_eq Codecs.counting_lawful
  have hclaim : s.claimOutboxMessages true Codecs.counting ["outbox:m"] EventStore.atEpoch "w" 10
      Duration.max = (.error .panic, { s with poisoned := true }) := by
    rw [EventStore.claimOutboxMessages, hsingle.not_poisoned, if_neg Bool.false_ne_true]
    exact EventStore.claimLoop_panic hl hm hsingle.pending (Or.inl (SystemTime.add_eq_none.mpr (by decide)))
  refine ⟨s, hrun, hsingle.enumerates, hclaim, fun hreturns => ?_, rfl⟩
  rw [hclaim] at hreturns
  exact absurd (hreturns.2.trans hsingle.not_poisoned) (show ¬ true = false by decide)

end StoreCall
