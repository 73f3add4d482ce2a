import Sourced.OutboxStories

/-!
# The machine of an outbox message

A message is created pending. A claim puts it in flight; from there it is
released, which makes it pending again, or published; and while it is pending or
in flight it can fail. Published and failed messages stay what they are.

What an event of a message's story did is one of two things (`OutboxMessage.Took`):
it claimed the message or it settled it. Everything said of a whole story below is
said of these two, by induction on the story: its event names are a path of the
machine, its claims are what `attempts` counts, and somebody has the message exactly
while it is in flight.
-/

open OutboxMessage (Codecs Readings Story Advances)

variable {checks : OverflowChecks} {C : Codecs}

/-- **The machine**: where an event leads. -/
def OutboxMessageStatus.next : OutboxMessageStatus → String → Option OutboxMessageStatus
  | .pending, "MessageClaimed" => some .inFlight
  | .inFlight, "MessageReleased" => some .pending
  | .inFlight, "MessagePublished" => some .published
  | .pending, "MessageFailed" => some .failed
  | .inFlight, "MessageFailed" => some .failed
  | _, _ => none

/-- **A path of the machine.** -/
def OutboxMessageStatus.path (status : OutboxMessageStatus) (names : List String) :
    Option OutboxMessageStatus :=
  names.foldlM OutboxMessageStatus.next status

theorem OutboxMessageStatus.path_concat {status status' status'' : OutboxMessageStatus}
    {names : List String} {name : String} (h : status.path names = some status')
    (h' : status'.next name = some status'') : status.path (names ++ [name]) = some status'' := by
  unfold path at h ⊢
  rw [List.foldlM_append, h]
  exact (congrArg (fun o : Option OutboxMessageStatus => o.bind pure) h').trans rfl

namespace OutboxMessage

/-- **What one event did to a message**: it claimed it, or settled it. -/
inductive Took (checks : OverflowChecks) : String → OutboxMessage → OutboxMessage → Prop
  | claimed {m : OutboxMessage} {workerId : String} {leasedUntil : SystemTime} {attempts : ℕ}
      (hpending : m.status = .pending) (hattempts : addU32 checks m.attempts 1 = some attempts) :
      Took checks "MessageClaimed" m { m with
        status := .inFlight
        attempts := attempts
        workerId := some workerId
        leasedUntil := some leasedUntil }
  | settled {m : OutboxMessage} (u : Settling) (hsettles : u.settles m = true) :
      Took checks (u.method C).name m (u.after m)

variable {id : String} {k : EventMethod OutboxMessage} {x : k.Args} {l l' : List EventRecord}
  {m m' : OutboxMessage}

/-- **The body of a later method**, under its guard, claims the message or settles it. -/
theorem Took.of_body (hk : k ∈ later checks C) {now : SystemTime} {e e' : Entity}
    {r : OutboxMessage × Option String} (hguard : k.guard m e x = true)
    (hbody : k.body now m e' x = some r) : Took (C := C) checks k.name m r.1 := by
  simp only [later, List.mem_cons, List.not_mem_nil, or_false] at hk
  rcases hk with rfl | rfl | rfl | rfl
  · obtain ⟨m', hclaim, rfl⟩ := Option.map_eq_some_iff.mp hbody
    obtain ⟨leasedUntil, -, hclaimed⟩ := Option.bind_eq_some_iff.mp hclaim
    obtain ⟨attempts, hattempts, rfl⟩ := Option.map_eq_some_iff.mp hclaimed
    exact .claimed (of_decide_eq_true hguard) hattempts
  · obtain rfl := Option.some.inj hbody
    exact .settled .complete hguard
  · obtain rfl := Option.some.inj hbody
    exact .settled (.release x) hguard
  · obtain rfl := Option.some.inj hbody
    exact .settled (.fail x) hguard

/-- **An event that took effect** claimed the message or settled it. -/
theorem Advances.took (h : Advances checks C id k x l l' m m') :
    Took (C := C) checks k.name m m' :=
  .of_body h.mem h.guard h.body

/-- **A claim that took effect**: the message was pending and is in flight, and its attempts
were counted. -/
theorem Advances.claimed {y : String × UInt64}
    (h : Advances checks C id (claim checks C) y l l' m m') :
    m.status = .pending ∧ m'.status = .inFlight ∧ addU32 checks m.attempts 1 = some m'.attempts := by
  obtain ⟨m₁, hclaim, hm₁⟩ := Option.map_eq_some_iff.mp h.body
  obtain rfl : m₁ = m' := congrArg Prod.fst hm₁
  obtain ⟨leasedUntil, -, hclaimed⟩ := Option.bind_eq_some_iff.mp hclaim
  obtain ⟨attempts, hattempts, rfl⟩ := Option.map_eq_some_iff.mp hclaimed
  exact ⟨of_decide_eq_true h.guard, rfl, hattempts⟩

/-- **One event, one step of the machine.** -/
theorem Took.next {name : String} (h : Took (C := C) checks name m m') :
    m.status.next name = some m'.status := by
  cases h with
  | claimed hpending hattempts =>
    rw [hpending]
    rfl
  | settled u hsettles =>
    cases u with
    | complete =>
      rw [show m.status = .inFlight from of_decide_eq_true hsettles]
      rfl
    | release error =>
      rw [show m.status = .inFlight from of_decide_eq_true hsettles]
      rfl
    | fail error =>
      -- only a published or failed message cannot fail
      show m.status.next "MessageFailed" = some .failed
      have hcan : m.status ≠ .published ∧ m.status ≠ .failed := of_decide_eq_true hsettles
      cases hstatus : m.status with
      | pending => rfl
      | inFlight => rfl
      | published => exact absurd hstatus hcan.1
      | failed => exact absurd hstatus hcan.2

/-- **Somebody has the message** exactly while it is in flight. -/
def Leased (m : OutboxMessage) : Prop :=
  (m.workerId.isSome ↔ m.status = .inFlight) ∧ (m.leasedUntil.isSome ↔ m.status = .inFlight)

theorem Took.leased {name : String} (h : Took (C := C) checks name m m') : m'.Leased := by
  cases h with
  | claimed => exact ⟨⟨fun _ => rfl, fun _ => rfl⟩, ⟨fun _ => rfl, fun _ => rfl⟩⟩
  | settled u => cases u <;> simp [Leased, Settling.after, settle]

/-- The number of claims among the events. -/
def claims (l : List EventRecord) : ℕ := l.countP (fun r => r.eventName = "MessageClaimed")

/-- **`attempts` counts the claims** as far as it goes. -/
def Counted (checks : OverflowChecks) (l : List EventRecord) (m : OutboxMessage) : Prop :=
  m.attempts = claims l % 2 ^ 32 ∧ (checks = true → m.attempts = claims l)

/-- One more event is counted if it is a claim. -/
theorem Took.counted {r : EventRecord} (h : Took (C := C) checks r.eventName m m')
    (hm : Counted checks l m) : Counted checks (l ++ [r]) m' := by
  have hclaims : claims (l ++ [r]) = claims l + if r.eventName = "MessageClaimed" then 1 else 0 := by
    simp [claims, List.countP_append, List.countP_cons]
  generalize r.eventName = name at h hclaims
  cases h with
  | @claimed _ _ _ attempts hpending hattempts =>
    rw [if_pos rfl] at hclaims
    unfold addU32 at hattempts
    obtain ⟨hmod, hexact⟩ := hm
    unfold Counted
    rw [hclaims]
    by_cases hlt : m.attempts + 1 < 2 ^ 32
    · rw [if_pos hlt] at hattempts
      obtain rfl := Option.some.inj hattempts
      exact ⟨show m.attempts + 1 = _ by omega, fun hchecks => congrArg (· + 1) (hexact hchecks)⟩
    · rw [if_neg hlt] at hattempts
      -- a build without overflow checks wraps around
      cases hchecks : checks with
      | true =>
        rw [hchecks] at hattempts
        cases hattempts
      | false =>
        rw [hchecks] at hattempts
        obtain rfl := Option.some.inj hattempts
        refine ⟨?_, fun h => absurd h Bool.false_ne_true⟩
        show (m.attempts + 1) % 2 ^ 32 = _
        omega
  | settled u hsettles =>
    have hname : (u.method C).name ≠ "MessageClaimed" := by
      cases u with
      | complete => exact show "MessagePublished" ≠ "MessageClaimed" by decide
      | release error => exact show "MessageReleased" ≠ "MessageClaimed" by decide
      | fail error => exact show "MessageFailed" ≠ "MessageClaimed" by decide
    rw [if_neg hname] at hclaims
    have hattempts : (u.after m).attempts = m.attempts := by cases u <;> rfl
    unfold Counted
    rw [hclaims, hattempts]
    exact hm

/-- **A story is a path of the machine**, its claims are counted, and somebody has the
message exactly while it is in flight. -/
theorem Story.machine (h : Story checks C id l m) :
    (∃ names, l.map EventRecord.eventName = "MessageCreated" :: names
      ∧ OutboxMessageStatus.pending.path names = some m.status)
      ∧ Counted checks l m ∧ m.Leased := by
  induction h with
  | @created r _ _ _ _ _ hname _ _ =>
    have hcount : claims [r] = 0 := by
      rw [claims, List.countP_singleton, hname]
      rfl
    refine ⟨⟨[], congrArg (fun n => [n]) hname, rfl⟩, ?_, ?_⟩
    · unfold Counted
      rw [hcount]
      exact ⟨rfl, fun _ => rfl⟩
    · simp [Leased, default]
  | @later l m m' r k h hk x hname hpayload hguard hbody ih =>
    have hadv : Advances checks C id k x l (l ++ [r]) m m' :=
      ⟨hk, h, hguard, hbody, ⟨r, hname, rfl⟩, .later h hk x hname hpayload hguard hbody⟩
    obtain ⟨⟨names, hnames, hpath⟩, hcounted, -⟩ := ih
    have htook := hadv.took
    rw [← hname] at htook
    refine ⟨⟨names ++ [r.eventName], ?_, OutboxMessageStatus.path_concat hpath htook.next⟩,
      htook.counted hcounted, htook.leased⟩
    rw [List.map_append, hnames]
    rfl

/-! ## Stories that go on -/

variable (checks C id)

/-- **A story that has gone on** from some events to others, each taking effect. -/
inductive Continues (l : List EventRecord) (m : OutboxMessage) :
    List EventRecord → OutboxMessage → Prop
  | refl : Continues l m l m
  | advance {l' l'' : List EventRecord} {m' m'' : OutboxMessage} {k : EventMethod OutboxMessage}
      {x : k.Args} (h : Continues l m l' m') (hadv : Advances checks C id k x l' l'' m' m'') :
      Continues l m l'' m''

variable {checks C id}

namespace Continues

theorem isPrefix (h : Continues checks C id l m l' m') : l <+: l' := by
  induction h with
  | refl => exact List.prefix_refl l
  | advance _ hadv ih =>
    obtain ⟨r, -, heq⟩ := hadv.events
    exact heq ▸ ih.trans (List.prefix_append _ _)

theorem trans {l'' : List EventRecord} {m'' : OutboxMessage} (h : Continues checks C id l m l' m')
    (h' : Continues checks C id l' m' l'' m'') : Continues checks C id l m l'' m'' := by
  induction h' with
  | refl => exact h
  | advance _ hadv ih => exact ih.advance hadv

theorem story (h : Continues checks C id l m l' m') (hl : Story checks C id l m) :
    Story checks C id l' m' := by
  cases h with
  | refl => exact hl
  | advance _ hadv => exact hadv.after

/-- **A published or failed message stays what it is.** -/
theorem eq_of_settled (h : Continues checks C id l m l' m')
    (hm : m.status = .published ∨ m.status = .failed) : l' = l ∧ m' = m := by
  induction h with
  | refl => exact ⟨rfl, rfl⟩
  | advance _ hadv ih =>
    obtain ⟨rfl, rfl⟩ := ih
    have hnext := hadv.took.next
    cases hm with
    | inl hm =>
      rw [hm] at hnext
      cases hnext
    | inr hm =>
      rw [hm] at hnext
      cases hnext

end Continues

/-- The last event of a story that has others before it. -/
theorem Story.last {r : EventRecord} (h : Story checks C id (l ++ [r]) m) (hne : l ≠ []) :
    ∃ (m₀ : OutboxMessage) (k : EventMethod OutboxMessage) (x : k.Args),
      Story checks C id l m₀ ∧ Advances checks C id k x l (l ++ [r]) m₀ m := by
  generalize hl' : l ++ [r] = l' at h
  cases h with
  | created =>
    have hlen := congrArg List.length hl'
    rw [List.length_append, List.length_singleton, List.length_singleton] at hlen
    exact absurd (List.length_eq_zero_iff.mp (Nat.succ.inj hlen)) hne
  | @later l₀ m₀ _ r₀ k h hk x hname hpayload hguard hbody =>
    obtain ⟨rfl, hr⟩ := List.append_inj' hl' rfl
    exact ⟨m₀, k, x, h, hk, h, hguard, hbody, ⟨r₀, hname, rfl⟩, .later h hk x hname hpayload hguard hbody⟩

/-- **A story begun by other events** is the story of these, gone on. -/
theorem Story.split {l₀ : List EventRecord} (h : Story checks C id (l₀ ++ l) m) (hne : l₀ ≠ []) :
    ∃ m₀, Story checks C id l₀ m₀ ∧ Continues checks C id l₀ m₀ (l₀ ++ l) m := by
  induction l using List.reverseRecOn generalizing m with
  | nil =>
    rw [List.append_nil] at h ⊢
    exact ⟨m, h, .refl⟩
  | append_singleton l r ih =>
    rw [← List.append_assoc] at h ⊢
    have hne' : l₀ ++ l ≠ [] := fun heq => hne (List.append_eq_nil_iff.mp heq).1
    obtain ⟨m₁, k, x, h₁, hadv⟩ := h.last hne'
    obtain ⟨m₀, h₀, hcontinues⟩ := ih h₁
    exact ⟨m₀, h₀, hcontinues.advance hadv⟩

end OutboxMessage
