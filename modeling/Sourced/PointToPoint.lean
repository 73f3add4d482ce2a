import Mathlib.Algebra.BigOperators.Fin
import Mathlib.Logic.Relation
import Sourced.InMemoryQueue
import Sourced.Microsvc

/-!
# Point-to-point messages

Clients send to named queues of one `InMemoryQueue`, and listen on them
themselves; threads of `microsvc::listen` each serve one queue with a service
of their own (`microsvc/service.rs`). All listeners of a queue compete for its
one position. A thread looks for a stop signal, listens, dispatches what it
heard, and begins again; a signal that comes in between waits until then, so
a message that was taken is dispatched. A handler that sends or listens itself
is one of the clients for that.

Every access that takes a message is recorded, with who took it
(`Messaging.taken`). `Messaging.dispatched_once` compares the record with the
queues, with what the threads dispatched, and with their counters.
-/

open InMemoryQueue (Accesses Seeks)

/-! ## The threads -/

/-- **Where a listen thread is in its loop.** -/
inductive ListenPhase where
  /-- At `stop_rx.try_recv()`. -/
  | checking
  /-- In `listener.listen(..)`, with what is left of its loop. -/
  | listening (rest : Accesses (Option Event))
  /-- At `service.dispatch_event(&event)`. -/
  | dispatching (event : Event)
  | ended

/-- **A thread of `microsvc::listen`**: its queue, its service with the state of
the repository, its counters, and whether it was signalled to stop; and what
it has dispatched, with the outcomes. -/
structure ListenThread (ρ V : Type) where
  queueName : String
  service : Service ρ V
  repo : ρ
  stats : TransportStats
  phase : ListenPhase
  stop : Bool
  dispatched : List (Event × Except HandlerError V)

namespace ListenThread

variable {ρ V : Type}

/-- A thread as it is spawned. -/
def spawn (queueName : String) (service : Service ρ V) (repo : ρ) : ListenThread ρ V :=
  ⟨queueName, service, repo, TransportStats.default, .checking, false, []⟩

/-- The head of the loop: a stop signal ends it; else the poll is counted, and
`listen` called. -/
def check (t : ListenThread ρ V) (turns : ℕ) : ListenThread ρ V :=
  if t.stop then { t with phase := .ended }
  else { t with stats := t.stats.polled, phase := .listening (InMemoryQueue.listen turns) }

/-- After an access of `listen`: it goes on, or has returned. -/
def heard (t : ListenThread ρ V) : Accesses (Option Event) → ListenThread ρ V
  | .ret (some event) => { t with phase := .dispatching event }
  | .ret none => { t with phase := .checking }
  | .act a k => { t with phase := .listening (.act a k) }

/-- The dispatch of a message, and its count. -/
def dispatch (J : Json V) (t : ListenThread ρ V) (event : Event) : ListenThread ρ V :=
  let out := t.service.dispatchEvent J event t.repo
  { t with
    repo := out.2
    stats := t.stats.dispatched out.1
    phase := .checking
    dispatched := t.dispatched ++ [(event, out.1)] }

/-- The message a thread has taken and not dispatched. -/
def inFlight (t : ListenThread ρ V) : List Event :=
  match t.phase with
  | .dispatching event => [event]
  | _ => []

/-- **The messages a thread has had**: those dispatched, and the one in flight. -/
def messages (t : ListenThread ρ V) : List Event := t.dispatched.map Prod.fst ++ t.inFlight

end ListenThread

/-! ## The queue, its threads and its clients -/

/-- **Who takes a message.** -/
inductive Consumer (C : Type) where
  | thread (j : ℕ)
  | client (c : C)
deriving DecidableEq

/-- Whether it is a thread. -/
def Consumer.isThread {C : Type} : Consumer C → Bool
  | .thread _ => true
  | .client _ => false

/-- **A message taken**, with who took it and from which queue. -/
structure Taken (C : Type) where
  consumer : Consumer C
  queueName : String
  event : Event

/-- **The queue, its threads and its clients**, with what was sent to each queue
and what was taken, in order. -/
structure Messaging (C ρ V : Type) where
  queue : InMemoryQueue
  threads : List (ListenThread ρ V)
  calls : C → Option (String × Accesses (Option Event))
  sent : String → List Event
  taken : List (Taken C)

namespace Messaging

variable {C ρ V : Type} [DecidableEq C]

/-- A new queue. -/
def initial (C ρ V : Type) : Messaging C ρ V :=
  ⟨InMemoryQueue.new, [], fun _ => none, fun _ => [], []⟩

/-- What a consumer's access took, put on the record. -/
def took (consumer : Consumer C) (queueName : String) (o : Option Event) : List (Taken C) :=
  o.toList.map (fun event => ⟨consumer, queueName, event⟩)

/-- A client's call after an access: it goes on, or has returned. -/
def callRest (name : String) : Accesses (Option Event) → Option (String × Accesses (Option Event))
  | .ret _ => none
  | .act a k => some (name, .act a k)

/-- **One step of one client or thread.** -/
inductive Step (J : Json V) : Messaging C ρ V → Messaging C ρ V → Prop
  | send {x : Messaging C ρ V} (c : C) (name : String) (e : Event) (hidle : x.calls c = none) :
      Step J x { x with
        queue := x.queue.send name e
        sent := Function.update x.sent name (x.sent name ++ [e]) }
  | listen {x : Messaging C ρ V} (c : C) (name : String) (turns : ℕ) (hidle : x.calls c = none) :
      Step J x { x with
        calls := Function.update x.calls c (some (name, InMemoryQueue.listen turns)) }
  /-- An access of a client's `listen`. -/
  | access {x : Messaging C ρ V} (c : C) (name : String) (o : Option Event) (q : InMemoryQueue)
      (k : Option Event → Accesses (Option Event)) (hcall : x.calls c = some (name, .act () k))
      (hlisten : x.queue.listenOnce name = (o, q)) :
      Step J x { x with
        queue := q
        calls := Function.update x.calls c (callRest name (k o))
        taken := x.taken ++ took (.client c) name o }
  | spawn {x : Messaging C ρ V} (queueName : String) (service : Service ρ V) (repo : ρ) :
      Step J x { x with threads := x.threads ++ [ListenThread.spawn queueName service repo] }
  /-- `signal_stop`, `stop`, or the drop of the handle. -/
  | signalStop {x : Messaging C ρ V} (j : ℕ) (t : ListenThread ρ V) (hj : x.threads[j]? = some t) :
      Step J x { x with threads := x.threads.set j { t with stop := true } }
  | threadCheck {x : Messaging C ρ V} (j turns : ℕ) (t : ListenThread ρ V)
      (hj : x.threads[j]? = some t) (hphase : t.phase = .checking) :
      Step J x { x with threads := x.threads.set j (t.check turns) }
  /-- An access of a thread's `listen`. -/
  | threadAccess {x : Messaging C ρ V} (j : ℕ) (t : ListenThread ρ V) (o : Option Event)
      (q : InMemoryQueue) (k : Option Event → Accesses (Option Event))
      (hj : x.threads[j]? = some t) (hphase : t.phase = .listening (.act () k))
      (hlisten : x.queue.listenOnce t.queueName = (o, q)) :
      Step J x { x with
        queue := q
        threads := x.threads.set j (t.heard (k o))
        taken := x.taken ++ took (.thread j) t.queueName o }
  | threadDispatch {x : Messaging C ρ V} (j : ℕ) (t : ListenThread ρ V) (event : Event)
      (hj : x.threads[j]? = some t) (hphase : t.phase = .dispatching event) :
      Step J x { x with threads := x.threads.set j (t.dispatch J event) }
  /-- Somebody else uses the repository of a thread's service. -/
  | serve {x : Messaging C ρ V} (j : ℕ) (t : ListenThread ρ V) (repo : ρ)
      (hj : x.threads[j]? = some t) :
      Step J x { x with threads := x.threads.set j { t with repo := repo } }

/-- A run. -/
abbrev Run (J : Json V) : Messaging C ρ V → Messaging C ρ V → Prop := Relation.ReflTransGen (Step J)

/-! ## The record -/

omit [DecidableEq C] in
/-- **The messages taken from a queue**, in order. -/
def takenFrom (taken : List (Taken C)) (name : String) : List Event :=
  (taken.filter (fun m => decide (m.queueName = name))).map Taken.event

/-- **The messages a consumer took**, in order, each with its queue. -/
def takenBy (taken : List (Taken C)) (consumer : Consumer C) : List (String × Event) :=
  (taken.filter (fun m => decide (m.consumer = consumer))).map (fun m => (m.queueName, m.event))

section Record

variable {consumer consumer' : Consumer C} {name name' : String} {o : Option Event}

omit [DecidableEq C] in
theorem takenFrom_append (l l' : List (Taken C)) (name : String) :
    takenFrom (l ++ l') name = takenFrom l name ++ takenFrom l' name := by
  unfold takenFrom
  rw [List.filter_append, List.map_append]

omit [DecidableEq C] in
theorem takenFrom_took_self : takenFrom (took consumer name o) name = o.toList := by
  cases o <;> simp [takenFrom, took]

omit [DecidableEq C] in
theorem takenFrom_took_of_ne (h : name' ≠ name) : takenFrom (took consumer name o) name' = [] := by
  cases o <;> simp [takenFrom, took, h.symm]

theorem takenBy_append (l l' : List (Taken C)) (consumer : Consumer C) :
    takenBy (l ++ l') consumer = takenBy l consumer ++ takenBy l' consumer := by
  unfold takenBy
  rw [List.filter_append, List.map_append]

theorem takenBy_took_self :
    takenBy (took consumer name o) consumer = o.toList.map (fun e => (name, e)) := by
  cases o <;> simp [takenBy, took]

theorem takenBy_took_of_ne (h : consumer' ≠ consumer) :
    takenBy (took consumer name o) consumer' = [] := by
  cases o <;> simp [takenBy, took, h.symm]

end Record

end Messaging

/-! ## What the threads keep -/

/-- **A thread is right** about what it took: it has dispatched it, or has it in
flight; and has counted what it dispatched. -/
structure ListenThread.Right {ρ V : Type} (t : ListenThread ρ V) (taken : List (String × Event)) :
    Prop where
  taken_eq : taken = t.messages.map (fun e => (t.queueName, e))
  counted : t.stats.handled + t.stats.failed = t.dispatched.length
  listening : ∀ p, t.phase = .listening p → Seeks (fun _ => true) p

namespace ListenThread.Right

variable {ρ V : Type} {t : ListenThread ρ V} {taken : List (String × Event)}

theorem spawn (queueName : String) (service : Service ρ V) (repo : ρ) :
    (ListenThread.spawn queueName service repo).Right [] :=
  ⟨rfl, rfl, fun _ h => nomatch h⟩

/-- The head of the loop takes nothing. -/
theorem check (h : t.Right taken) (hphase : t.phase = .checking) (turns : ℕ) :
    (t.check turns).Right taken := by
  have hmessages : t.messages = t.dispatched.map Prod.fst ++ [] := by
    rw [messages, inFlight, hphase]
  unfold ListenThread.check
  split
  · exact ⟨h.taken_eq.trans (congrArg _ hmessages), h.counted, fun _ hp => nomatch hp⟩
  · refine ⟨h.taken_eq.trans (congrArg _ hmessages),
      (TransportStats.messages_polled t.stats).trans h.counted, fun p hp => ?_⟩
    obtain rfl := ListenPhase.listening.inj hp
    exact InMemoryQueue.seeks_accesses turns

/-- **What an access gives is in flight after it.** -/
theorem heard (h : t.Right taken) {k : Option Event → Accesses (Option Event)}
    (hphase : t.phase = .listening (.act () k)) (o : Option Event) :
    (t.heard (k o)).Right (taken ++ o.toList.map (fun e => (t.queueName, e))) := by
  have hmessages : t.messages = t.dispatched.map Prod.fst ++ [] := by
    rw [messages, inFlight, hphase]
  have htaken := h.taken_eq.trans (congrArg (List.map _) (hmessages.trans (List.append_nil _)))
  cases h.listening _ hphase with
  | access hwanted _ hnone =>
    cases o with
    | some e =>
      rw [hwanted e rfl]
      refine ⟨?_, h.counted, fun _ hp => nomatch hp⟩
      rw [htaken]
      exact (List.map_append).symm
    | none =>
      rw [Option.toList_none, List.map_nil, List.append_nil]
      -- what is left of `listen` after an access that gave nothing
      generalize hrest : k none = rest at hnone
      cases hnone with
      | done => exact ⟨htaken.trans (congrArg _ (List.append_nil _).symm), h.counted, fun _ hp => nomatch hp⟩
      | access hwanted' hother' hnone' =>
        refine ⟨htaken.trans (congrArg _ (List.append_nil _).symm), h.counted, fun p hp => ?_⟩
        obtain rfl := ListenPhase.listening.inj hp
        exact .access hwanted' hother' hnone'

/-- **A dispatch counts the message in flight.** -/
theorem dispatch (h : t.Right taken) {event : Event} (hphase : t.phase = .dispatching event)
    (J : Json V) : (t.dispatch J event).Right taken where
  taken_eq := by
    have hmessages : (t.dispatch J event).messages = t.messages := by
      rw [messages, messages, inFlight, inFlight, hphase]
      show (t.dispatched ++ [(event, _)]).map Prod.fst ++ [] = _
      rw [List.map_append, List.append_nil]
      rfl
    rw [hmessages]
    exact h.taken_eq
  counted := by
    show (t.stats.dispatched _).handled + (t.stats.dispatched _).failed = (t.dispatched ++ [_]).length
    rw [TransportStats.messages_dispatched, h.counted, List.length_append]
    rfl
  listening _ hp := nomatch hp

theorem signalStop (h : t.Right taken) : ({ t with stop := true } : ListenThread ρ V).Right taken :=
  ⟨h.taken_eq, h.counted, h.listening⟩

theorem serve (h : t.Right taken) (repo : ρ) :
    ({ t with repo := repo } : ListenThread ρ V).Right taken :=
  ⟨h.taken_eq, h.counted, h.listening⟩

end ListenThread.Right

namespace Messaging

/-! ## What a run keeps -/

/-- **A queue is served in order**: it holds what was sent to it, and what was
taken from it is the beginning up to its position. -/
structure Served (p2p : PointToPointQueue) (sent taken : List Event) : Prop where
  messages_eq : p2p.messages = sent
  position_le : p2p.position ≤ p2p.messages.length
  taken_eq : taken = p2p.messages.take p2p.position

namespace Served

variable {p2p : PointToPointQueue} {sent taken : List Event}

/-- A message sent goes behind all others. -/
theorem send (h : Served p2p sent taken) (e : Event) :
    Served { p2p with messages := p2p.messages ++ [e] } (sent ++ [e]) taken where
  messages_eq := congrArg (· ++ [e]) h.messages_eq
  position_le := by
    show p2p.position ≤ (p2p.messages ++ [e]).length
    rw [List.length_append]
    exact Nat.le_add_right_of_le h.position_le
  taken_eq := by
    show taken = (p2p.messages ++ [e]).take p2p.position
    rw [List.take_append_of_le_length h.position_le, h.taken_eq]

/-- **An access takes the next message.** -/
theorem listen (h : Served p2p sent taken) {p2p' : PointToPointQueue} {o : Option Event}
    (hnext : Cursor.next p2p.messages p2p.position = (o, p2p'.position))
    (hmessages : p2p'.messages = p2p.messages) : Served p2p' sent (taken ++ o.toList) where
  messages_eq := hmessages.trans h.messages_eq
  position_le := by
    rw [hmessages]
    exact Cursor.next_le h.position_le hnext
  taken_eq := by
    rw [hmessages, Cursor.take_next hnext, h.taken_eq]

end Served

variable {C ρ V : Type} [DecidableEq C]

/-- **The invariant**: the queues are served in order, the threads are right, and
where there is no thread none has taken a message. -/
structure Inv (x : Messaging C ρ V) : Prop where
  queues : ∀ name, Served (x.queue.named name) (x.sent name) (takenFrom x.taken name)
  threads : ∀ j (t : ListenThread ρ V), x.threads[j]? = some t →
    t.Right (takenBy x.taken (.thread j))
  unborn : ∀ j, x.threads[j]? = none → takenBy x.taken (.thread j) = []

namespace Inv

variable {x : Messaging C ρ V}

theorem initial : Inv (Messaging.initial C ρ V) where
  queues _ := ⟨rfl, Nat.le_refl _, rfl⟩
  threads _ _ hj := nomatch hj
  unborn _ _ := rfl

theorem send (h : x.Inv) (name : String) (e : Event) :
    Inv { x with
      queue := x.queue.send name e
      sent := Function.update x.sent name (x.sent name ++ [e]) } where
  queues name' := by
    show Served ((x.queue.send name e).named name') (Function.update x.sent name _ name') _
    by_cases hname : name' = name
    · subst hname
      rw [InMemoryQueue.named_send_self, Function.update_self]
      exact (h.queues name').send e
    · rw [InMemoryQueue.named_send_of_ne _ hname, Function.update_of_ne hname]
      exact h.queues name'
  threads := h.threads
  unborn := h.unborn

/-- **The queues after an access**: the message comes from the queue listened on,
whoever took it. -/
theorem queues_access (h : x.Inv) {name : String} {o : Option Event} {q : InMemoryQueue}
    (hlisten : x.queue.listenOnce name = (o, q)) (consumer : Consumer C) (name' : String) :
    Served (q.named name') (x.sent name') (takenFrom (x.taken ++ took consumer name o) name') := by
  obtain ⟨hnext, hmessages, hother⟩ := InMemoryQueue.listenOnce_spec hlisten
  rw [takenFrom_append]
  by_cases hname : name' = name
  · subst hname
    rw [takenFrom_took_self]
    exact (h.queues name').listen hnext hmessages
  · rw [takenFrom_took_of_ne hname, List.append_nil, hother name' hname]
    exact h.queues name'

/-- A client's access is not a thread's. -/
theorem access (h : x.Inv) (c : C) (name : String) {o : Option Event} {q : InMemoryQueue}
    (calls : C → Option (String × Accesses (Option Event)))
    (hlisten : x.queue.listenOnce name = (o, q)) :
    Inv { x with queue := q, calls := calls, taken := x.taken ++ took (.client c) name o } := by
  have htakenBy (j : ℕ) :
      takenBy (x.taken ++ took (.client c) name o) (.thread j) = takenBy x.taken (.thread j) := by
    have hne : (Consumer.thread j : Consumer C) ≠ .client c := fun h => nomatch h
    rw [takenBy_append, takenBy_took_of_ne hne, List.append_nil]
  refine ⟨h.queues_access hlisten _, fun j t hj => ?_, fun j hj => ?_⟩
  · show t.Right (takenBy (x.taken ++ took (.client c) name o) (.thread j))
    rw [htakenBy]
    exact h.threads j t hj
  · show takenBy (x.taken ++ took (.client c) name o) (.thread j) = []
    rw [htakenBy]
    exact h.unborn j hj

/-- **A thread is replaced by one that is right**, while the others take nothing. -/
theorem setThread (h : x.Inv) {j : ℕ} {t t' : ListenThread ρ V} {q : InMemoryQueue}
    {taken' : List (Taken C)} (hj : x.threads[j]? = some t)
    (hqueues : ∀ name, Served (q.named name) (x.sent name) (takenFrom taken' name))
    (hright : t'.Right (takenBy taken' (.thread j)))
    (hother : ∀ i, i ≠ j → takenBy taken' (.thread i) = takenBy x.taken (.thread i)) :
    Inv { x with queue := q, threads := x.threads.set j t', taken := taken' } := by
  have hlt : j < x.threads.length := (List.getElem?_eq_some_iff.mp hj).1
  refine ⟨hqueues, fun i u hi => ?_, fun i hi => ?_⟩
  · show u.Right (takenBy taken' (.thread i))
    change (x.threads.set j t')[i]? = some u at hi
    by_cases hij : i = j
    · subst hij
      rw [List.getElem?_set_self hlt] at hi
      exact Option.some.inj hi ▸ hright
    · rw [List.getElem?_set_ne (Ne.symm hij)] at hi
      rw [hother i hij]
      exact h.threads i u hi
  · show takenBy taken' (.thread i) = []
    change (x.threads.set j t')[i]? = none at hi
    have hij : i ≠ j := by
      rintro rfl
      rw [List.getElem?_set_self hlt] at hi
      cases hi
    rw [List.getElem?_set_ne (Ne.symm hij)] at hi
    rw [hother i hij]
    exact h.unborn i hi

theorem changeThread (h : x.Inv) {j : ℕ} {t t' : ListenThread ρ V} (hj : x.threads[j]? = some t)
    (hright : t'.Right (takenBy x.taken (.thread j))) :
    Inv { x with threads := x.threads.set j t' } :=
  h.setThread hj h.queues hright (fun _ _ => rfl)

/-- **A thread's access**: it alone has the message. -/
theorem threadAccess (h : x.Inv) {j : ℕ} {t : ListenThread ρ V} {o : Option Event}
    {q : InMemoryQueue} {k : Option Event → Accesses (Option Event)}
    (hj : x.threads[j]? = some t) (hphase : t.phase = .listening (.act () k))
    (hlisten : x.queue.listenOnce t.queueName = (o, q)) :
    Inv { x with
      queue := q
      threads := x.threads.set j (t.heard (k o))
      taken := x.taken ++ took (.thread j) t.queueName o } := by
  refine h.setThread hj (h.queues_access hlisten _) ?_ (fun i hi => ?_)
  · rw [takenBy_append, takenBy_took_self]
    exact (h.threads j t hj).heard hphase o
  · rw [takenBy_append, takenBy_took_of_ne (fun h => hi (Consumer.thread.inj h)), List.append_nil]

/-- A new thread has the next number, under which nothing was taken. -/
theorem spawn (h : x.Inv) (queueName : String) (service : Service ρ V) (repo : ρ) :
    Inv { x with threads := x.threads ++ [ListenThread.spawn queueName service repo] } := by
  refine ⟨h.queues, fun j t hj => ?_, fun j hj => ?_⟩
  · show t.Right (takenBy x.taken (.thread j))
    change (x.threads ++ [ListenThread.spawn queueName service repo])[j]? = some t at hj
    by_cases hlt : j < x.threads.length
    · rw [List.getElem?_append_left hlt] at hj
      exact h.threads j t hj
    · have hunborn := h.unborn j (List.getElem?_eq_none (Nat.le_of_not_lt hlt))
      rw [List.getElem?_append_right (Nat.le_of_not_lt hlt)] at hj
      rw [List.mem_singleton.mp (List.mem_of_getElem? hj), hunborn]
      exact ListenThread.Right.spawn queueName service repo
  · refine h.unborn j (List.getElem?_eq_none ?_)
    have hle := List.getElem?_eq_none_iff.mp hj
    rw [List.length_append] at hle
    omega

/-- **A step keeps the invariant.** -/
theorem step {J : Json V} {x x' : Messaging C ρ V} (hstep : Step J x x') (h : x.Inv) : x'.Inv := by
  cases hstep with
  | send c name e hidle => exact h.send name e
  | listen c name turns hidle => exact ⟨h.queues, h.threads, h.unborn⟩
  | access c name o q k hcall hlisten => exact h.access c name _ hlisten
  | spawn queueName service repo => exact h.spawn queueName service repo
  | signalStop j t hj => exact h.changeThread hj (h.threads j t hj).signalStop
  | threadCheck j turns t hj hphase => exact h.changeThread hj ((h.threads j t hj).check hphase turns)
  | threadAccess j t o q k hj hphase hlisten => exact h.threadAccess hj hphase hlisten
  | threadDispatch j t event hj hphase =>
    exact h.changeThread hj ((h.threads j t hj).dispatch hphase J)
  | serve j t repo hj => exact h.changeThread hj ((h.threads j t hj).serve repo)

/-- **A run keeps it.** -/
theorem run {J : Json V} {x x' : Messaging C ρ V} (hrun : Run J x x') (h : x.Inv) : x'.Inv := by
  induction hrun with
  | refl => exact h
  | tail _ hstep ih => exact ih.step hstep

end Inv

/-! ## The count -/

omit [DecidableEq C] in
theorem sum_threads (threads : List (ListenThread ρ V)) (g : ListenThread ρ V → ℕ) (f : ℕ → ℕ)
    (hf : ∀ j t, threads[j]? = some t → g t = f j) :
    (threads.map g).sum = ∑ j ∈ Finset.range threads.length, f j := by
  induction threads generalizing f with
  | nil => rfl
  | cons t threads ih =>
    rw [List.map_cons, List.sum_cons, List.length_cons, Finset.sum_range_succ', hf 0 t rfl,
      ih (fun j => f (j + 1)) (fun j u hj => hf (j + 1) u hj), Nat.add_comm]

/-- **The threads took what was taken by threads**: each message is of one of
them. -/
theorem sum_takenBy (taken : List (Taken C)) (n : ℕ)
    (hunborn : ∀ j, n ≤ j → takenBy taken (.thread j) = []) :
    ∑ j ∈ Finset.range n, (takenBy taken (.thread j)).length
      = taken.countP (fun m => m.consumer.isThread) := by
  induction taken with
  | nil => exact Finset.sum_const_zero
  | cons m taken ih =>
    have hcons (j : ℕ) : (takenBy (m :: taken) (.thread j)).length
        = (takenBy taken (.thread j)).length + if m.consumer = .thread j then 1 else 0 := by
      unfold takenBy
      rw [List.length_map, List.length_map, List.filter_cons]
      split
      · rename_i h
        rw [if_pos (of_decide_eq_true h), List.length_cons]
      · rename_i h
        rw [if_neg (fun heq => h (decide_eq_true heq)), Nat.add_zero]
    have hunborn' : ∀ j, n ≤ j → takenBy taken (.thread j) = [] := by
      intro j hj
      have hlen := hcons j
      rw [hunborn j hj, List.length_nil] at hlen
      exact List.length_eq_zero_iff.mp (Nat.eq_zero_of_add_eq_zero_right hlen.symm)
    rw [List.countP_cons, ← ih hunborn']
    simp only [hcons, Finset.sum_add_distrib]
    congr 1
    cases hconsumer : m.consumer with
    | client c => exact Finset.sum_eq_zero (fun j _ => if_neg (fun h => nomatch h))
    | thread i =>
      -- the thread exists, for it has taken this message
      have hi : i < n := by
        by_contra hle
        have hlen := hcons i
        rw [hunborn i (Nat.le_of_not_lt hle), if_pos hconsumer] at hlen
        cases hlen
      simp only [Consumer.thread.injEq, Finset.sum_ite_eq, Finset.mem_range, if_pos hi]
      rfl

/-! ## The theorem -/

variable {x : Messaging C ρ V}

/-- **Point-to-point messages are dispatched exactly once**, in every run of any
clients and threads: what was taken from a queue, in order, and what waits in
it are what was sent to it; what a thread took it has dispatched once, in
order, but for the message it is about to dispatch, and an ended thread has
none such; and when all threads have ended, they have counted as many messages
as they took. -/
theorem dispatched_once {J : Json V} (hrun : Run J (initial C ρ V) x) :
    (∀ name, takenFrom x.taken name ++ x.queue.waiting name = x.sent name)
    ∧ (∀ j t, x.threads[j]? = some t →
        takenBy x.taken (.thread j) = t.messages.map (fun e => (t.queueName, e))
        ∧ (t.phase = .ended → takenBy x.taken (.thread j)
            = t.dispatched.map (fun d => (t.queueName, d.1))))
    ∧ ((∀ t ∈ x.threads, t.phase = .ended) →
        (x.threads.map (fun t => t.stats.handled + t.stats.failed)).sum
          = x.taken.countP (fun m => m.consumer.isThread)) := by
  have hinv := Inv.run hrun Inv.initial
  have hended (j : ℕ) (t : ListenThread ρ V) (hj : x.threads[j]? = some t)
      (hphase : t.phase = .ended) : takenBy x.taken (.thread j)
        = t.dispatched.map (fun d => (t.queueName, d.1)) := by
    rw [(hinv.threads j t hj).taken_eq, ListenThread.messages, ListenThread.inFlight, hphase,
      List.append_nil, List.map_map]
    rfl
  refine ⟨fun name => ?_, fun j t hj => ⟨(hinv.threads j t hj).taken_eq, hended j t hj⟩,
    fun hall => ?_⟩
  · have hserved := hinv.queues name
    rw [hserved.taken_eq, InMemoryQueue.waiting, List.take_append_drop, hserved.messages_eq]
  · rw [← sum_takenBy x.taken x.threads.length
      (fun j hj => hinv.unborn j (List.getElem?_eq_none hj))]
    refine sum_threads _ _ _ (fun j t hj => ?_)
    rw [(hinv.threads j t hj).counted, hended j t hj (hall t (List.mem_of_getElem? hj)),
      List.length_map]

/-- JSON for an empty payload, which is none. -/
def noJson : Json String := ⟨fun _ => none, id, "null"⟩

/-- A command, and a service that handles it. -/
def create : Event := Event.new "m-1" "create" []
def creates : Service Unit String := Service.new.command "create" (fun ctx repo => (.ok ctx.input, repo))

/-- A thread handles a command sent to its queue, and is stopped. -/
theorem dispatched_once_run : ∃ (x : Messaging Unit Unit String) (t : ListenThread Unit String),
    Run noJson (initial Unit Unit String) x ∧ x.threads = [t] ∧ t.phase = .ended
    ∧ t.dispatched = [(create, .ok "")] ∧ takenBy x.taken (.thread 0) = [("commands", create)]
    ∧ t.stats.handled + t.stats.failed = x.taken.countP (fun m => m.consumer.isThread) := by
  have h₀ : Run noJson (initial Unit Unit String) (initial Unit Unit String) := .refl
  have h₁ := h₀.tail (.spawn "commands" creates ())
  have h₂ := h₁.tail (.send () "commands" create rfl)
  have h₃ := h₂.tail (.threadCheck 0 0 _ rfl rfl)
  have h₄ := h₃.tail (.threadAccess 0 _ (some create) _ _ rfl rfl rfl)
  have h₅ := h₄.tail (.threadDispatch 0 _ create rfl rfl)
  have h₆ := h₅.tail (.signalStop 0 _ rfl)
  have h₇ := h₆.tail (.threadCheck 0 0 _ rfl rfl)
  have hall := dispatched_once h₇
  exact ⟨_, _, h₇, rfl, rfl, rfl, (hall.2.1 0 _ rfl).2 rfl,
    hall.2.2 (fun t ht => List.mem_singleton.mp ht ▸ rfl)⟩

end Messaging
