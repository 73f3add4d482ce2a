import Mathlib.Logic.Relation
import Sourced.InMemoryQueue
import Sourced.Microsvc

/-!
# Services that subscribe to the log

A thread of `microsvc::subscribe` feeds one service with the events of one
`InMemoryQueue`, read with a subscriber of its own (`microsvc/service.rs`). It
looks for a stop signal, polls, dispatches what it was given, acknowledges the
event or rejects it by the outcome, and begins again.

A handler sees nothing but its event and the repository, so what a service has
become is a function of what was done with its repository, in order:
`Service.replay`. `Subscribing.replays` says that this is the beginning of the
log, and between two events what others did with the repository. Services that
nobody else uses are therefore replicas of each other, however their threads
are interleaved, and however late one of them was started.
-/

open InMemoryQueue (Accesses Seeks)

/-! ## Services fed with a log -/

/-- **What is done with the repository of a service**: an event is dispatched, or
somebody else uses it, through the service or past it. -/
inductive Use (ρ : Type) where
  | event (e : Event)
  | other (f : ρ → ρ)

/-- The event of a use. -/
def Use.event? {ρ : Type} : Use ρ → Option Event
  | .event e => some e
  | .other _ => none

namespace Service

variable {ρ V : Type} (J : Json V) (S : Service ρ V)

/-- One use: an event is put on the record with its outcome. -/
def use (x : List (Event × Except HandlerError V) × ρ) :
    Use ρ → List (Event × Except HandlerError V) × ρ
  | .event e => (x.1 ++ [(e, (S.dispatchEvent J e x.2).1)], (S.dispatchEvent J e x.2).2)
  | .other f => (x.1, f x.2)

/-- **The uses of a repository one after the other**: the events with their
outcomes, and the repository afterwards. -/
def replay (uses : List (Use ρ)) (repo : ρ) : List (Event × Except HandlerError V) × ρ :=
  uses.foldl (S.use J) ([], repo)

@[simp] theorem replay_nil (repo : ρ) : S.replay J [] repo = ([], repo) := rfl

theorem replay_concat (uses : List (Use ρ)) (u : Use ρ) (repo : ρ) :
    S.replay J (uses ++ [u]) repo = S.use J (S.replay J uses repo) u := by
  simp [replay]

/-- **What has been done is done**: events that come later find the repository as
it was left. -/
theorem replay_append_events (uses : List (Use ρ)) (es : List Event) (repo : ρ) :
    S.replay J (uses ++ es.map .event) repo
      = ((S.replay J uses repo).1 ++ (S.replay J (es.map .event) (S.replay J uses repo).2).1,
        (S.replay J (es.map .event) (S.replay J uses repo).2).2) := by
  induction es using List.reverseRecOn with
  | nil => simp
  | append_singleton es e ih =>
    rw [List.map_append, List.map_singleton, ← List.append_assoc, replay_concat, replay_concat, ih]
    simp [use]

/-- The events dispatched are those of the uses. -/
theorem map_fst_replay (uses : List (Use ρ)) (repo : ρ) :
    (S.replay J uses repo).1.map Prod.fst = uses.filterMap Use.event? := by
  induction uses using List.reverseRecOn with
  | nil => rfl
  | append_singleton uses u ih =>
    rw [replay_concat, List.filterMap_append, ← ih]
    cases u with
    | event e => simp [use, Use.event?]
    | other f => simp [use, Use.event?]

end Service

/-! ## The threads -/

/-- **Where a subscribe thread is in its loop.** -/
inductive SubscribePhase (V : Type) where
  /-- At `stop_rx.try_recv()`. -/
  | checking
  /-- In `subscriber.poll(..)`, with what is left of its loop. -/
  | polling (rest : Accesses (Option Event))
  /-- At `service.dispatch_event(&event)`. -/
  | dispatching (event : Event)
  /-- At `ack` or `nack`, by the outcome. -/
  | answering (event : Event) (outcome : Except HandlerError V)
  | ended

/-- **A thread of `microsvc::subscribe`**: the position of its subscriber and the
ids acknowledged with it, its service with the state of the repository, its
counters, and whether it was signalled to stop; and what it dispatched, with
the outcomes, the repository it began with, and what was done with that. -/
structure SubscribeThread (ρ V : Type) where
  position : ℕ
  acked : List String
  service : Service ρ V
  repo : ρ
  stats : TransportStats
  phase : SubscribePhase V
  stop : Bool
  dispatched : List (Event × Except HandlerError V)
  spawnedWith : ρ
  uses : List (Use ρ)

namespace SubscribeThread

variable {ρ V : Type}

/-- A thread as it is spawned, with a subscriber as `new_subscriber` makes it. -/
def spawn (service : Service ρ V) (repo : ρ) : SubscribeThread ρ V :=
  ⟨0, [], service, repo, TransportStats.default, .checking, false, [], repo, []⟩

/-- The head of the loop: a stop signal ends it; else the poll is counted, and
`poll` called. -/
def check (t : SubscribeThread ρ V) (turns : ℕ) : SubscribeThread ρ V :=
  if t.stop then { t with phase := .ended }
  else { t with stats := t.stats.polled, phase := .polling (InMemoryQueue.poll turns) }

/-- After an access of `poll`: it goes on, or has returned. -/
def polled (t : SubscribeThread ρ V) (position : ℕ) :
    Accesses (Option Event) → SubscribeThread ρ V
  | .ret (some event) => { t with position := position, phase := .dispatching event }
  | .ret none => { t with position := position, phase := .checking }
  | .act a k => { t with position := position, phase := .polling (.act a k) }

/-- The dispatch of an event. -/
def dispatch (J : Json V) (t : SubscribeThread ρ V) (event : Event) : SubscribeThread ρ V :=
  let out := t.service.dispatchEvent J event t.repo
  { t with
    repo := out.2
    phase := .answering event out.1
    dispatched := t.dispatched ++ [(event, out.1)]
    uses := t.uses ++ [.event event] }

/-- `ack` keeps the id, `nack` does nothing; then the outcome is counted. -/
def answer (t : SubscribeThread ρ V) (event : Event) (outcome : Except HandlerError V) :
    SubscribeThread ρ V :=
  { t with
    acked := if outcome.isOk then t.acked ++ [event.id] else t.acked
    stats := t.stats.dispatched outcome
    phase := .checking }

/-- Somebody else uses the repository. -/
def served (t : SubscribeThread ρ V) (f : ρ → ρ) : SubscribeThread ρ V :=
  { t with repo := f t.repo, uses := t.uses ++ [.other f] }

/-- The event a thread was given and has not dispatched. -/
def inFlight (t : SubscribeThread ρ V) : List Event :=
  match t.phase with
  | .dispatching event => [event]
  | _ => []

/-- The event it has dispatched and not answered. -/
def unanswered (t : SubscribeThread ρ V) : List (Event × Except HandlerError V) :=
  match t.phase with
  | .answering event outcome => [(event, outcome)]
  | _ => []

/-- **One step of a thread**, and of what others do with it. -/
inductive Step (J : Json V) (log : List Event) : SubscribeThread ρ V → SubscribeThread ρ V → Prop
  /-- `signal_stop`, `stop`, or the drop of the handle. -/
  | signalStop (t : SubscribeThread ρ V) : Step J log t { t with stop := true }
  | check {t : SubscribeThread ρ V} (turns : ℕ) (hphase : t.phase = .checking) :
      Step J log t (t.check turns)
  /-- An access of `poll`. -/
  | access {t : SubscribeThread ρ V} {o : Option Event} {position : ℕ}
      {k : Option Event → Accesses (Option Event)} (hphase : t.phase = .polling (.act () k))
      (hpoll : Cursor.next log t.position = (o, position)) : Step J log t (t.polled position (k o))
  | dispatch {t : SubscribeThread ρ V} {event : Event} (hphase : t.phase = .dispatching event) :
      Step J log t (t.dispatch J event)
  | answer {t : SubscribeThread ρ V} {event : Event} {outcome : Except HandlerError V}
      (hphase : t.phase = .answering event outcome) : Step J log t (t.answer event outcome)
  /-- Somebody else uses the repository. -/
  | serve (t : SubscribeThread ρ V) (f : ρ → ρ) : Step J log t (t.served f)

end SubscribeThread

/-! ## What a thread keeps -/

/-- **A thread is in step with the log**: what it dispatched and has in flight is
the log before its position, its repository is what became of the one it began
with, and it has answered and counted what it dispatched. -/
structure SubscribeThread.InStep {ρ V : Type} (J : Json V) (log : List Event)
    (t : SubscribeThread ρ V) : Prop where
  position_le : t.position ≤ log.length
  events_eq : t.dispatched.map Prod.fst ++ t.inFlight = log.take t.position
  polling : ∀ p, t.phase = .polling p → Seeks (fun _ => true) p
  replay_eq : t.service.replay J t.uses t.spawnedWith = (t.dispatched, t.repo)
  answered : ∃ answered, t.dispatched = answered ++ t.unanswered
    ∧ t.acked = (answered.filter (fun d => d.2.isOk)).map (fun d => d.1.id)
    ∧ t.stats.handled = answered.countP (fun d => d.2.isOk)
    ∧ t.stats.failed = answered.countP (fun d => !d.2.isOk)

namespace SubscribeThread.InStep

variable {ρ V : Type} {J : Json V} {log : List Event} {t t' : SubscribeThread ρ V}

theorem spawn (log : List Event) (service : Service ρ V) (repo : ρ) :
    (SubscribeThread.spawn service repo).InStep J log where
  position_le := Nat.zero_le _
  events_eq := rfl
  polling := nofun
  replay_eq := rfl
  answered := ⟨[], rfl, rfl, rfl, rfl⟩

theorem grow (h : t.InStep J log) (es : List Event) : t.InStep J (log ++ es) where
  position_le := by
    rw [List.length_append]
    exact Nat.le_add_right_of_le h.position_le
  events_eq := by rw [List.take_append_of_le_length h.position_le, h.events_eq]
  polling := h.polling
  replay_eq := h.replay_eq
  answered := h.answered

/-- The head of the loop reads nothing. -/
theorem check (h : t.InStep J log) (hphase : t.phase = .checking) (turns : ℕ) :
    (t.check turns).InStep J log := by
  have hflight : t.inFlight = [] := by simp [inFlight, hphase]
  have hunanswered : t.unanswered = [] := by simp [unanswered, hphase]
  have hevents := hflight ▸ h.events_eq
  have hanswered := hunanswered ▸ h.answered
  unfold SubscribeThread.check
  split
  · exact ⟨h.position_le, hevents, nofun, h.replay_eq, hanswered⟩
  · refine ⟨h.position_le, hevents, fun p hp => ?_, h.replay_eq, hanswered⟩
    cases hp
    exact InMemoryQueue.seeks_accesses turns

/-- **What an access gives is in flight after it.** -/
theorem access (h : t.InStep J log) {o : Option Event} {position : ℕ}
    {k : Option Event → Accesses (Option Event)} (hphase : t.phase = .polling (.act () k))
    (hpoll : Cursor.next log t.position = (o, position)) :
    (t.polled position (k o)).InStep J log := by
  have hevents : t.dispatched.map Prod.fst ++ o.toList = log.take position := by
    rw [Cursor.take_next hpoll, ← h.events_eq]
    simp [inFlight, hphase]
  have hanswered := h.answered
  rw [show t.unanswered = [] by simp [unanswered, hphase]] at hanswered
  have hle := Cursor.next_le h.position_le hpoll
  cases h.polling _ hphase with
  | access hwanted hother hnone =>
    cases o with
    | some event =>
      rw [hwanted event rfl]
      exact ⟨hle, hevents, nofun, h.replay_eq, hanswered⟩
    | none =>
      cases hk : k none with
      | ret o' =>
        -- without an event the loop returns none
        rw [hk] at hnone
        cases hnone
        exact ⟨hle, hevents, nofun, h.replay_eq, hanswered⟩
      | act a k' =>
        refine ⟨hle, hevents, fun p hp => ?_, h.replay_eq, hanswered⟩
        cases hp
        exact hk ▸ hnone

/-- **A dispatch is one more use of the repository.** -/
theorem dispatch (h : t.InStep J log) {event : Event} (hphase : t.phase = .dispatching event) :
    (t.dispatch J event).InStep J log where
  position_le := h.position_le
  events_eq := by
    have hevents := h.events_eq
    rw [show t.inFlight = [event] by simp [inFlight, hphase]] at hevents
    simpa [SubscribeThread.dispatch, inFlight] using hevents
  polling := nofun
  replay_eq := by
    show t.service.replay J (t.uses ++ [.event event]) t.spawnedWith = _
    rw [Service.replay_concat, h.replay_eq]
    rfl
  answered := by
    obtain ⟨answered, hdispatched, hacked⟩ := h.answered
    rw [show t.unanswered = [] by simp [unanswered, hphase], List.append_nil] at hdispatched
    exact ⟨answered, congrArg (· ++ [_]) hdispatched, hacked⟩

/-- **The answer is that of the outcome.** -/
theorem answer (h : t.InStep J log) {event : Event} {outcome : Except HandlerError V}
    (hphase : t.phase = .answering event outcome) : (t.answer event outcome).InStep J log where
  position_le := h.position_le
  events_eq := by
    have hevents := h.events_eq
    rw [show t.inFlight = [] by simp [inFlight, hphase]] at hevents
    simpa [SubscribeThread.answer, inFlight] using hevents
  polling := nofun
  replay_eq := h.replay_eq
  answered := by
    obtain ⟨answered, hdispatched, hacked, hhandled, hfailed⟩ := h.answered
    rw [show t.unanswered = [(event, outcome)] by simp [unanswered, hphase]] at hdispatched
    refine ⟨answered ++ [(event, outcome)], by simpa [SubscribeThread.answer, unanswered], ?_⟩
    cases outcome with
    | ok v => simp [SubscribeThread.answer, TransportStats.dispatched, Except.isOk, Except.toBool, *]
    | error e => simp [SubscribeThread.answer, TransportStats.dispatched, Except.isOk, Except.toBool, *]

/-- Others use the repository between two events. -/
theorem served (h : t.InStep J log) (f : ρ → ρ) : (t.served f).InStep J log where
  position_le := h.position_le
  events_eq := h.events_eq
  polling := h.polling
  replay_eq := by
    show t.service.replay J (t.uses ++ [.other f]) t.spawnedWith = _
    rw [Service.replay_concat, h.replay_eq]
    rfl
  answered := h.answered

/-- **Every step of a thread keeps it in step.** -/
theorem step (h : t.InStep J log) (hstep : Step J log t t') : t'.InStep J log := by
  cases hstep with
  | signalStop => exact ⟨h.position_le, h.events_eq, h.polling, h.replay_eq, h.answered⟩
  | check turns hphase => exact h.check hphase turns
  | access hphase hpoll => exact h.access hphase hpoll
  | dispatch hphase => exact h.dispatch hphase
  | answer hphase => exact h.answer hphase
  | serve f => exact h.served f

end SubscribeThread.InStep

/-! ## Replicas -/

namespace SubscribeThread

variable {ρ V : Type} {J : Json V} {log : List Event} {t t' : SubscribeThread ρ V}

/-- **Nobody but the thread uses its service.** -/
def Alone (t : SubscribeThread ρ V) : Prop := ∀ u ∈ t.uses, u.event?.isSome

theorem InStep.events_uses (h : t.InStep J log) :
    t.uses.filterMap Use.event? = t.dispatched.map Prod.fst := by
  rw [← Service.map_fst_replay J t.service t.uses t.spawnedWith, h.replay_eq]

theorem InStep.dispatched_eq (h : t.InStep J log) :
    t.dispatched.map Prod.fst = log.take t.dispatched.length := by
  have hpre : t.dispatched.map Prod.fst <+: log :=
    (List.prefix_append _ _).trans (h.events_eq ▸ List.take_prefix _ _)
  rw [List.prefix_iff_eq_take.mp hpre, List.length_map]

/-- **A service that nobody else uses** was given the first events of the log. -/
theorem InStep.uses_eq (h : t.InStep J log) (halone : t.Alone) :
    t.uses = (log.take t.dispatched.length).map .event := by
  rw [← h.dispatched_eq, ← h.events_uses, List.map_filterMap]
  have hsome : ∀ u ∈ t.uses, (u.event?.map .event) = some u := by
    intro u hu
    cases u with
    | event e => rfl
    | other f => exact absurd (halone _ hu) (by simp [Use.event?])
  rw [List.filterMap_congr hsome, List.filterMap_some]

/-- **Of two replicas the later has done all that the earlier has**, with the same
outcomes, and is what the earlier becomes with the events between them. -/
theorem InStep.replica (h : t.InStep J log) (h' : t'.InStep J log) (hservice : t'.service = t.service)
    (hspawned : t'.spawnedWith = t.spawnedWith) (halone : t.Alone) (halone' : t'.Alone)
    (hle : t.dispatched.length ≤ t'.dispatched.length) :
    ∃ es : List Event, (t'.dispatched, t'.repo)
      = (t.dispatched ++ (t.service.replay J (es.map .event) t.repo).1,
        (t.service.replay J (es.map .event) t.repo).2) := by
  refine ⟨(log.take t'.dispatched.length).drop t.dispatched.length, ?_⟩
  have huses : t'.uses
      = t.uses ++ ((log.take t'.dispatched.length).drop t.dispatched.length).map .event := by
    rw [h'.uses_eq halone', h.uses_eq halone, ← List.map_append]
    have htake : log.take t.dispatched.length
        = (log.take t'.dispatched.length).take t.dispatched.length := by
      rw [List.take_take, Nat.min_eq_left hle]
    rw [htake, List.take_append_drop]
  rw [← h'.replay_eq, hservice, hspawned, huses, Service.replay_append_events, h.replay_eq]

end SubscribeThread

/-! ## The log and its threads -/

/-- **An `InMemoryQueue` and the threads that subscribe to it.** -/
structure Subscribing (ρ V : Type) where
  queue : InMemoryQueue
  threads : List (SubscribeThread ρ V)

namespace Subscribing

variable {ρ V : Type} {J : Json V}

/-- A new queue. -/
def initial (ρ V : Type) : Subscribing ρ V := ⟨InMemoryQueue.new, []⟩

/-- **One step**: somebody publishes, a thread is spawned, or one moves. -/
inductive Step (J : Json V) : Subscribing ρ V → Subscribing ρ V → Prop
  | publish (x : Subscribing ρ V) (e : Event) : Step J x { x with queue := x.queue.publish e }
  | publishBatch (x : Subscribing ρ V) (es : List Event) :
      Step J x { x with queue := x.queue.publishBatch es }
  | spawn (x : Subscribing ρ V) (service : Service ρ V) (repo : ρ) :
      Step J x { x with threads := x.threads ++ [SubscribeThread.spawn service repo] }
  | thread {x : Subscribing ρ V} {j : ℕ} {t t' : SubscribeThread ρ V} (hj : x.threads[j]? = some t)
      (hstep : t.Step J x.queue.log t') : Step J x { x with threads := x.threads.set j t' }

/-- A run. -/
abbrev Run (J : Json V) : Subscribing ρ V → Subscribing ρ V → Prop :=
  Relation.ReflTransGen (Step J)

/-- **Every thread is in step with the log.** -/
def Inv (J : Json V) (x : Subscribing ρ V) : Prop := ∀ t ∈ x.threads, t.InStep J x.queue.log

/-- **Every step keeps all threads in step.** -/
theorem Inv.step {x y : Subscribing ρ V} (h : Inv J x) (hstep : Step J x y) : Inv J y := by
  cases hstep with
  | publish e => exact fun t ht => (h t ht).grow [e]
  | publishBatch es => exact fun t ht => (h t ht).grow es
  | spawn service repo =>
    intro t ht
    cases List.mem_append.mp ht with
    | inl hold => exact h t hold
    | inr hnew =>
      rw [List.mem_singleton.mp hnew]
      exact .spawn _ service repo
  | thread hj hstep =>
    intro t ht
    cases List.mem_or_eq_of_mem_set ht with
    | inl hold => exact h t hold
    | inr hmoved =>
      rw [hmoved]
      exact (h _ (List.mem_of_getElem? hj)).step hstep

/-- **Every run keeps all threads in step.** -/
theorem Inv.run {x : Subscribing ρ V} (hrun : Run J (initial ρ V) x) : Inv J x := by
  induction hrun with
  | refl => exact fun t ht => absurd ht (List.not_mem_nil)
  | tail _ hstep ih => exact ih.step hstep

/-- **A subscribing service is what the log makes of it.** In every run, however the threads
and the publishers are interleaved: what a thread has dispatched, and the event in flight,
are the log before its position, each event once and in order; the outcomes and its
repository are those of these events dispatched one after the other, with what others did
with the repository in between; it has acknowledged those of the events it has answered
that were handled, and counted all of them; and of two services with the same handlers that
began alike and that nobody else uses, the one that is behind has had the same outcomes, and
becomes the other with the events that it has not had. -/
theorem replays {x : Subscribing ρ V} (hrun : Run J (initial ρ V) x) {j : ℕ}
    {t : SubscribeThread ρ V} (hj : x.threads[j]? = some t) :
    t.dispatched.map Prod.fst ++ t.inFlight = x.queue.log.take t.position
      ∧ (t.uses.filterMap Use.event? = t.dispatched.map Prod.fst
        ∧ t.service.replay J t.uses t.spawnedWith = (t.dispatched, t.repo))
      ∧ (∃ answered, t.dispatched = answered ++ t.unanswered
        ∧ t.acked = (answered.filter (fun d => d.2.isOk)).map (fun d => d.1.id)
        ∧ t.stats.handled = answered.countP (fun d => d.2.isOk)
        ∧ t.stats.failed = answered.countP (fun d => !d.2.isOk))
      ∧ ∀ (j' : ℕ) (t' : SubscribeThread ρ V), x.threads[j']? = some t' → t'.service = t.service →
        t'.spawnedWith = t.spawnedWith → t.Alone → t'.Alone →
        t.dispatched.length ≤ t'.dispatched.length →
        ∃ es : List Event, t'.dispatched.map Prod.fst = t.dispatched.map Prod.fst ++ es
          ∧ t'.dispatched = t.dispatched ++ (t.service.replay J (es.map .event) t.repo).1
          ∧ t'.repo = (t.service.replay J (es.map .event) t.repo).2 := by
  have hinv := Inv.run hrun
  have h := hinv t (List.mem_of_getElem? hj)
  refine ⟨h.events_eq, ⟨h.events_uses, h.replay_eq⟩, h.answered, ?_⟩
  intro j' t' hj' hservice hspawned halone halone' hle
  obtain ⟨es, heq⟩ := h.replica (hinv t' (List.mem_of_getElem? hj')) hservice hspawned halone halone' hle
  obtain ⟨hdispatched, hrepo⟩ := Prod.mk.injEq .. ▸ heq
  refine ⟨es, ?_, hdispatched, hrepo⟩
  rw [hdispatched, List.map_append, Service.map_fst_replay]
  simp [List.filterMap_map, Function.comp_def, Use.event?]

/-! ### A run -/

/-- A service that counts what it is told to. -/
def counter : Service ℕ String :=
  Service.new.command "count" (fun ctx n => (.ok ctx.input, n + 1))

/-- Payloads that are no JSON. -/
def textOnly : Json String := ⟨fun _ => none, id, "null"⟩

/-- What it is told. -/
def count : Event := Event.new "evt-1" "count" []

/-- **One replica is ahead of another**, which was spawned after the event was handled. -/
theorem replays_counter : ∃ (x : Subscribing ℕ String) (t t' : SubscribeThread ℕ String),
    Run textOnly (initial ℕ String) x ∧ x.threads = [t', t] ∧ t.repo = 0 ∧ t'.repo = 1
      ∧ t'.acked = ["evt-1"]
      ∧ ∃ es : List Event, t'.dispatched.map Prod.fst = t.dispatched.map Prod.fst ++ es
        ∧ t'.repo = (t.service.replay textOnly (es.map .event) t.repo).2 := by
  have h₁ := (Relation.ReflTransGen.refl (r := Step textOnly)).tail (.publish (initial ℕ String) count)
  have h₂ := h₁.tail (.spawn _ counter 0)
  have h₃ := h₂.tail (.thread (j := 0) rfl (.check 0 rfl))
  have h₄ := h₃.tail (.thread (j := 0) rfl (.access (o := some count) (k := Prog.ret) rfl rfl))
  have h₅ := h₄.tail (.thread (j := 0) rfl (.dispatch rfl))
  have h₆ := h₅.tail (.thread (j := 0) rfl (.answer rfl))
  have h₇ := h₆.tail (.spawn _ counter 0)
  obtain ⟨-, -, -, hreplica⟩ := replays h₇ (j := 1) rfl
  obtain ⟨es, hevents, -, hrepo⟩ := hreplica 0 _ rfl rfl rfl nofun
    (fun u hu => by rw [List.mem_singleton.mp hu]; rfl) (Nat.zero_le _)
  exact ⟨_, _, _, h₇, rfl, rfl, rfl, rfl, es, hevents, hrepo⟩

end Subscribing
