import Sourced.InMemoryQueue

/-!
# The deadline of a receiver

`EventReceiver::recv` sets a deadline and asks before every `poll` how much of
the time is left; with none left it returns. `recvWithin` is `recv` with its
timeout and its clock, whose readings never go back.

A `recv` that has time for one `poll` more than there are events to read finds
the first event of its types, or that there is none (`recv_finds`). `try_recv`
is `recv` with a timeout of zero: by the time the clock is read again nothing
is left, so it makes no `poll` at all and finds nothing whatever there is
(`tryRecv_eq`).
-/

namespace InMemoryQueue

/-- **The clock of a call of `recv`**, in nanoseconds: the reading its deadline
is set from and, for every turn of its loop, the reading at which it asks for
the time that is left and how often the `poll` of that turn finds its own
deadline ahead. -/
structure RecvClock where
  start : ℕ
  turns : List (ℕ × ℕ)
  /-- An `Instant` is not earlier than one that was read before. -/
  monotone : (start :: turns.map Prod.fst).Pairwise (· ≤ ·)

/-- The turns of the loop in which time is left. -/
def turnsBefore (deadline : ℕ) : List (ℕ × ℕ) → List ℕ
  | [] => []
  | (now, polls) :: turns =>
    -- `saturating_duration_since` is zero from the deadline on
    if deadline - now = 0 then [] else polls :: turnsBefore deadline turns

/-- **`EventReceiver::recv`** with its timeout in milliseconds. -/
def recvWithin (types : List String) (timeoutMs : ℕ) (clock : RecvClock) : Accesses (Option Event) :=
  recv types (turnsBefore (clock.start + timeoutMs * 1000000) clock.turns)

/-- **`EventReceiver::try_recv`.** -/
def tryRecv (types : List String) (clock : RecvClock) : Accesses (Option Event) :=
  recvWithin types 0 clock

/-- A loop of accesses run alone, from a position: its result, and the position
it leaves. -/
def runAt (q : InMemoryQueue) (p : Accesses (Option Event)) (pos : ℕ) : Option (Option Event × ℕ) :=
  p.run (fun _ pos => some (q.pollOnce pos)) pos

/-- **The first event of the types** at or after a position, the position being
left just behind it; and none only where there is none. -/
def Finds (types : List String) (log : List Event) (pos : ℕ) : Option Event → ℕ → Prop
  | some e, pos' => e.eventType ∈ types ∧ ∃ skipped rest, log.drop pos = skipped ++ e :: rest
      ∧ (∀ e' ∈ skipped, e'.eventType ∉ types) ∧ pos' = pos + skipped.length + 1
  | none, _ => ∀ e ∈ log.drop pos, e.eventType ∉ types

variable {q : InMemoryQueue} {types : List String}

/-- `poll` alone gives what its first access does: nothing comes while it waits. -/
theorem runAt_poll (q : InMemoryQueue) (turns pos : ℕ) :
    q.runAt (poll turns) pos = some (q.pollOnce pos) := by
  unfold runAt poll
  induction turns with
  | zero => rfl
  | succ turns ih =>
    rw [accesses, Prog.run_act]
    rcases hnext : q.pollOnce pos with ⟨_ | e, pos'⟩
    · have hpos : pos' = pos := Cursor.pos_of_next_none hnext
      rw [Option.bind_some, hpos, ih, hnext, hpos]
    · rfl

/-- What `recv` goes on to find after an event of another type. -/
theorem Finds.skip {log : List Event} {pos pos' : ℕ} {e : Event} {o : Option Event}
    (hdrop : log.drop pos = e :: log.drop (pos + 1)) (he : e.eventType ∉ types)
    (h : Finds types log (pos + 1) o pos') : Finds types log pos o pos' := by
  cases o with
  | none =>
    show ∀ e' ∈ log.drop pos, e'.eventType ∉ types
    rw [hdrop]
    exact List.forall_mem_cons.mpr ⟨he, h⟩
  | some e' =>
    obtain ⟨he', skipped, rest, hrest, hskipped, rfl⟩ := h
    refine ⟨he', e :: skipped, rest, ?_, List.forall_mem_cons.mpr ⟨he, hskipped⟩, ?_⟩
    · rw [hdrop, hrest, List.cons_append]
    · rw [List.length_cons]
      omega

/-- **A `recv` with time enough finds the first event of its types.** -/
theorem recv_finds (budget : List ℕ) (pos : ℕ) (h : (q.log.drop pos).length < budget.length) :
    ∃ o pos', q.runAt (recv types budget) pos = some (o, pos') ∧ Finds types q.log pos o pos' := by
  induction budget generalizing pos with
  | nil => exact absurd h (Nat.not_lt_zero _)
  | cons turns budget ih =>
    rw [recv, runAt, Prog.run_bind, ← runAt, runAt_poll]
    rcases hnext : q.pollOnce pos with ⟨_ | e, pos'⟩
    · refine ⟨none, pos', rfl, ?_⟩
      rw [Finds, Cursor.drop_of_next_none hnext]
      exact fun _ he => absurd he List.not_mem_nil
    · obtain rfl : pos' = pos + 1 := Cursor.pos_of_next_some hnext
      have hdrop : q.log.drop pos = e :: q.log.drop (pos + 1) := Cursor.drop_next hnext
      rw [Option.bind_some]
      dsimp only
      by_cases he : e.eventType ∈ types
      · rw [if_pos he]
        exact ⟨some e, pos + 1, rfl, he, [], _, hdrop, by simp, rfl⟩
      · rw [if_neg he]
        rw [hdrop, List.length_cons, List.length_cons] at h
        obtain ⟨o, pos', hrun, hfinds⟩ := ih (pos + 1) (by omega)
        exact ⟨o, pos', hrun, hfinds.skip hdrop he⟩

/-- **`try_recv` makes no `poll`.** -/
theorem tryRecv_eq (types : List String) (clock : RecvClock) :
    tryRecv types clock = Prog.ret none := by
  unfold tryRecv recvWithin
  rcases hturns : clock.turns with _ | ⟨⟨now, polls⟩, turns⟩
  · rfl
  · have hle : clock.start ≤ now := by
      have hmono := clock.monotone
      rw [hturns] at hmono
      exact (List.pairwise_cons.mp hmono).1 now List.mem_cons_self
    rw [turnsBefore, if_pos (by omega)]
    rfl

/-- **When `try_recv` finds what there is**: only where there is nothing to
find. On every log, position and set of types it returns nothing, and leaves
the position as it was. -/
theorem tryRecv_finds_iff (q : InMemoryQueue) (types : List String) (clock : RecvClock) (pos : ℕ) :
    ∃ o pos', q.runAt (tryRecv types clock) pos = some (o, pos')
      ∧ (Finds types q.log pos o pos' ↔ ∀ e ∈ q.log.drop pos, e.eventType ∉ types) := by
  rw [tryRecv_eq]
  exact ⟨none, pos, rfl, Iff.rfl⟩

/-- **An event that is there is not found.** -/
theorem tryRecv_misses :
    ∃ (e : Event) (clock : RecvClock),
      (InMemoryQueue.new.publish e).runAt (tryRecv [e.eventType] clock) 0 = some (none, 0)
        ∧ ¬ Finds [e.eventType] (InMemoryQueue.new.publish e).log 0 none 0 := by
  refine ⟨Event.new "evt-1" "OrderCreated" [], ⟨0, [(0, 0)], by decide⟩, rfl, ?_⟩
  intro h
  exact h _ List.mem_cons_self (List.mem_singleton.mpr rfl)

end InMemoryQueue
