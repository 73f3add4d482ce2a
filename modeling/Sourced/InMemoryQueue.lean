import Mathlib.Data.Finmap
import Sourced.Bus
import Sourced.Cursor
import Sourced.Program

/-!
# `InMemoryQueue`

The bus in memory (`bus/in_memory_queue.rs`): one log of published events,
which every subscriber reads at a position of its own, and named queues of
sent messages, each read at one position that all listeners share. A call
takes the locks it needs for one access at a time, so an access is one atomic
step.

`poll` and `listen` make accesses until one gives an event or the deadline has
passed. The clock is read after an access that gave none; how many of these
readings are before the deadline is not the code's choice, and is an argument
here. `recv` reads the clock before every `poll`, and has an argument for each
of them. The results are stated for all.
-/

/-- `PointToPointQueue`. -/
structure PointToPointQueue where
  messages : List Event
  position : ℕ

/-- **`InMemoryQueue`**, the parts its subscribers share: the log, and the named
queues. -/
structure InMemoryQueue where
  log : List Event
  queues : Finmap (fun _ : String => PointToPointQueue)

namespace InMemoryQueue

/-- `InMemoryQueue::new`. -/
def new : InMemoryQueue := ⟨[], ∅⟩

/-- `publish`. -/
def publish (q : InMemoryQueue) (e : Event) : InMemoryQueue := { q with log := q.log ++ [e] }

/-- `publish_batch`. -/
def publishBatch (q : InMemoryQueue) (es : List Event) : InMemoryQueue :=
  { q with log := q.log ++ es }

/-- The access of `poll` at a position: the event there, and the position after
it. -/
def pollOnce (q : InMemoryQueue) (pos : ℕ) : Option Event × ℕ := Cursor.next q.log pos

/-- The named queue, an empty one where nothing was sent. -/
def named (q : InMemoryQueue) (name : String) : PointToPointQueue :=
  (q.queues.lookup name).getD ⟨[], 0⟩

/-- `send`: the queue is made where there is none. -/
def send (q : InMemoryQueue) (name : String) (e : Event) : InMemoryQueue :=
  { q with
    queues := q.queues.insert name
      { q.named name with messages := (q.named name).messages ++ [e] } }

/-- The access of `listen`: the event at the position of the queue, which is
moved behind it. -/
def listenOnce (q : InMemoryQueue) (name : String) : Option Event × InMemoryQueue :=
  match q.queues.lookup name with
  | none => (none, q)
  | some p2p =>
    match Cursor.next p2p.messages p2p.position with
    | (some e, pos) => (some e, { q with queues := q.queues.insert name { p2p with position := pos } })
    | (none, _) => (none, q)

/-- **The messages that wait in a queue.** -/
def waiting (q : InMemoryQueue) (name : String) : List Event :=
  (q.named name).messages.drop (q.named name).position

/-! ## The loops -/

/-- A program of accesses, each of which gives an event or none. -/
abbrev Accesses (α : Type) := Prog Unit (fun _ => Option Event) α

/-- Accesses until one gives an event, or the clock is past the deadline; before
it is, it is read `turns` times. -/
def accesses : ℕ → Accesses (Option Event)
  | 0 => Prog.act () Prog.ret
  | turns + 1 => Prog.act () (fun o =>
    match o with
    | some e => Prog.ret (some e)
    | none => accesses turns)

/-- **`poll`**, on a subscriber. -/
def poll (turns : ℕ) : Accesses (Option Event) := accesses turns

/-- **`listen`**, on a named queue. -/
def listen (turns : ℕ) : Accesses (Option Event) := accesses turns

/-- **`EventReceiver::recv`** for a set of types: `poll` is called once for each
element of the list, before whose end the deadline has not passed. -/
def recv (types : List String) : List ℕ → Accesses (Option Event)
  | [] => Prog.ret none
  | turns :: rest =>
    (poll turns).bind (fun o =>
      match o with
      | some e => if e.eventType ∈ types then Prog.ret (some e) else recv types rest
      | none => Prog.ret none)

/-! ## What the loops do with what they are given -/

/-- **The loop looks for a wanted event**: it returns the first it is given,
goes on after any other, and without one returns nothing. -/
inductive Seeks (wants : Event → Bool) : Accesses (Option Event) → Prop
  | done : Seeks wants (Prog.ret none)
  | access {k : Option Event → Accesses (Option Event)}
      (hwanted : ∀ e, wants e = true → k (some e) = Prog.ret (some e))
      (hother : ∀ e, wants e = false → Seeks wants (k (some e)))
      (hnone : Seeks wants (k none)) : Seeks wants (Prog.act () k)

theorem seeks_accesses (turns : ℕ) : Seeks (fun _ => true) (accesses turns) := by
  induction turns with
  | zero => exact .access (fun _ _ => rfl) (fun _ h => nomatch h) .done
  | succ turns ih => exact .access (fun _ _ => rfl) (fun _ h => nomatch h) ih

/-- **`recv` wants the events of its types**, whenever its deadline passes. -/
theorem seeks_recv (types : List String) (budget : List ℕ) :
    Seeks (fun e => decide (e.eventType ∈ types)) (recv types budget) := by
  induction budget with
  | nil => exact .done
  | cons turns rest ih =>
    -- whatever `poll` is given it passes on, and the rest of `recv` judges it
    have hgiven : ∀ e : Event, decide (e.eventType ∈ types) = true →
        (if e.eventType ∈ types then Prog.ret (some e) else recv types rest) = Prog.ret (some e) :=
      fun e he => if_pos (of_decide_eq_true he)
    have hskipped : ∀ e : Event, decide (e.eventType ∈ types) = false →
        Seeks (fun e => decide (e.eventType ∈ types))
          (if e.eventType ∈ types then Prog.ret (some e) else recv types rest) := by
      intro e he
      rw [if_neg (of_decide_eq_false he)]
      exact ih
    rw [recv, poll]
    induction turns with
    | zero => exact .access hgiven hskipped .done
    | succ turns ihturns => exact .access hgiven hskipped ihturns

/-! ## The named queues -/

@[simp] theorem named_send_self (q : InMemoryQueue) (name : String) (e : Event) :
    (q.send name e).named name
      = { q.named name with messages := (q.named name).messages ++ [e] } := by
  unfold send
  rw [named, Finmap.lookup_insert]
  rfl

theorem named_send_of_ne (q : InMemoryQueue) {name name' : String} (h : name' ≠ name) (e : Event) :
    (q.send name e).named name' = q.named name' := by
  unfold send
  rw [named, Finmap.lookup_insert_of_ne _ h, named]

/-- **What an access of `listen` does**: it reads the named queue as a cursor
does, and moves no other. -/
theorem listenOnce_spec {q q' : InMemoryQueue} {name : String} {o : Option Event}
    (h : q.listenOnce name = (o, q')) :
    Cursor.next (q.named name).messages (q.named name).position = (o, (q'.named name).position)
      ∧ (q'.named name).messages = (q.named name).messages
      ∧ ∀ name', name' ≠ name → q'.named name' = q.named name' := by
  unfold listenOnce at h
  cases hlookup : q.queues.lookup name with
  | none =>
    rw [hlookup] at h
    obtain ⟨rfl, rfl⟩ := Prod.mk.inj h
    have hnamed : q.named name = ⟨[], 0⟩ := by
      rw [named, hlookup]
      rfl
    rw [hnamed]
    exact ⟨rfl, rfl, fun _ _ => rfl⟩
  | some p2p =>
    have hnamed : q.named name = p2p := by
      rw [named, hlookup]
      rfl
    rw [hlookup] at h
    dsimp only at h
    rw [hnamed]
    rcases hnext : Cursor.next p2p.messages p2p.position with ⟨_ | e, pos⟩
    · rw [hnext] at h
      obtain ⟨rfl, rfl⟩ := Prod.mk.inj h
      rw [hnamed, Cursor.pos_of_next_none hnext]
      exact ⟨rfl, rfl, fun _ _ => rfl⟩
    · rw [hnext] at h
      obtain ⟨rfl, rfl⟩ := Prod.mk.inj h
      have hself : InMemoryQueue.named { q with queues := q.queues.insert name { p2p with position := pos } }
          name = { p2p with position := pos } := by
        rw [named, Finmap.lookup_insert]
        rfl
      rw [hself]
      refine ⟨rfl, rfl, fun name' hne => ?_⟩
      rw [named, Finmap.lookup_insert_of_ne _ hne, named]

end InMemoryQueue
