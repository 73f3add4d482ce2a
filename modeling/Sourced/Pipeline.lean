import Sourced.Deliveries
import Sourced.PointToPoint
import Sourced.Subscribing

/-!
# From the outbox to the handlers

The threads that drain an outbox hand its messages to an `InMemoryQueue`: what
they route to a destination is sent to a queue of that name, and the rest is
published to the log. Behind the queue are threads of `microsvc::listen` and of
`microsvc::subscribe`, which dispatch to their services.

Each part has its own account of what it does to a message: the workers' threads
hand it over once (`OutboxWorkers.Ledger`), the queue gives a message that was
sent to one listener (`Messaging.Inv`), and every subscriber reads the log in
order (`SubscribeThread.InStep`). Here they are put in a row, and there is one
account more, of the content: what is handed over is what is stored
(`OutboxWorkers.Honest`). `Pipeline.exactly_once` is what a service can rely on.
-/

open OutboxMessage (Codecs Readings Story Tells Continues hasPrefix)

variable {checks : OverflowChecks} {C : Codecs}

/-! ## What the workers' threads hand over -/

/-- **A delivery carries a message**: its type, payload and metadata, to its
destination or to nobody in particular. -/
structure Delivery.Carries (d : Delivery) (m : OutboxMessage) : Prop where
  eventType : d.event.eventType = m.eventType
  payload : d.event.payload = m.payload
  metadata : Entries (d.event.metadata.getD []) m.metadata
  destination : d.destination = none ∨ d.destination = m.destination

theorem Delivery.Carries.of_cargo {d : Delivery} {m m' : OutboxMessage} (h : d.Carries m)
    (hcargo : m'.cargo = m.cargo) : d.Carries m' := by
  simp only [OutboxMessage.cargo, Prod.mk.injEq] at hcargo
  obtain ⟨heventType, hpayload, hdestination, hmetadata⟩ := hcargo
  exact ⟨heventType ▸ h.eventType, hpayload ▸ h.payload, hmetadata ▸ h.metadata,
    hdestination ▸ h.destination⟩

/-- Every map has an order of iteration. -/
theorem exists_entries (metadata : Metadata) : ∃ entries, Entries entries metadata := by
  induction metadata using Finmap.induction_on with
  | H l =>
    refine ⟨l.entries.map (fun kv => (kv.1, kv.2)), ?_, fun key value => ?_⟩
    · refine (l.nodupKeys.nodup).map (fun kv kv' h => ?_)
      obtain ⟨hkey, hvalue⟩ := Prod.mk.inj h
      exact Sigma.ext hkey (heq_of_eq hvalue)
    · rw [Finmap.lookup_toFinmap, ← Option.mem_def, AList.mem_lookup_iff]
      simp

/-- **A stored message stays what it is** as the stories go on. -/
theorem EventStore.Progress.message {s s' : EventStore} (h : Progress checks C s s') {id : String}
    {m : OutboxMessage} (hm : s.Message checks C id m) :
    ∃ m', s'.Message checks C id m' ∧ m'.cargo = m.cargo := by
  obtain ⟨l, hl, hstory⟩ := hm
  obtain ⟨l', m', hl', hcontinues⟩ := h id l m hl hstory
  exact ⟨m', ⟨l', hl', hcontinues.story hstory⟩, hcontinues.cargo⟩

namespace OutboxWorkers

variable {W : Type} [DecidableEq W] {st st' : OutboxWorkers W} {w : W}

variable (checks C) in
omit [DecidableEq W] in
/-- **What the threads have in hand, and what the publishers have taken, is what is
stored.** -/
structure Honest (st : OutboxWorkers W) : Prop where
  batches : ∀ w, ∀ a ∈ (st.threads w).phase.batch,
    ∃ m, st.store.Message checks C a.entity.id m ∧ a.fields.cargo = m.cargo
  taken : ∀ d ∈ st.taken, ∃ m, st.store.Message checks C d.event.id m ∧ d.Carries m

namespace Honest

omit [DecidableEq W] in
theorem initial (spawned : W → String × Bool) : Honest checks C (OutboxWorkers.initial spawned) where
  batches _ _ ha := absurd ha List.not_mem_nil
  taken _ hd := absurd hd List.not_mem_nil

omit [DecidableEq W] in
/-- **What was honest stays so** as the stories go on, if what is new is honest. -/
theorem mono (h : Honest checks C st) (hprogress : st.store.Progress checks C st'.store)
    (hbatches : ∀ w, ∀ a ∈ (st'.threads w).phase.batch, a ∈ (st.threads w).phase.batch
      ∨ ∃ m, st'.store.Message checks C a.entity.id m ∧ a.fields.cargo = m.cargo)
    (htaken : ∀ d ∈ st'.taken, d ∈ st.taken
      ∨ ∃ m, st'.store.Message checks C d.event.id m ∧ d.Carries m) : Honest checks C st' where
  batches w a ha := by
    cases hbatches w a ha with
    | inl hold =>
      obtain ⟨m, hm, hcargo⟩ := h.batches w a hold
      obtain ⟨m', hm', hcargo'⟩ := hprogress.message hm
      exact ⟨m', hm', hcargo.trans hcargo'.symm⟩
    | inr hnew => exact hnew
  taken d hd := by
    cases htaken d hd with
    | inl hold =>
      obtain ⟨m, hm, hcarries⟩ := h.taken d hold
      obtain ⟨m', hm', hcargo'⟩ := hprogress.message hm
      exact ⟨m', hm', hcarries.of_cargo hcargo'⟩
    | inr hnew => exact hnew

/-- The batches after a step of one thread. -/
theorem batches_set (st' : OutboxWorkers W) {thread : OutboxWorkerThread} (hthreads : st'.threads = st.threads)
    {P : Agg OutboxMessage → Prop}
    (hbatch : ∀ a ∈ thread.phase.batch, a ∈ (st.threads w).phase.batch ∨ P a) (w' : W) :
    ∀ a ∈ ((st'.set w thread).threads w').phase.batch, a ∈ (st.threads w').phase.batch ∨ P a := by
  intro a ha
  by_cases hw : w' = w
  · subst hw
    rw [threads_set_self] at ha
    exact hbatch a ha
  · rw [threads_set_of_ne hw, hthreads] at ha
    exact Or.inl ha

/-- **A step of a thread that takes no message to hand.** -/
theorem same (h : Honest checks C st) {s : EventStore} {thread : OutboxWorkerThread}
    (hprogress : st.store.Progress checks C s)
    (hbatch : ∀ a ∈ thread.phase.batch, a ∈ (st.threads w).phase.batch) :
    Honest checks C ((st.withStore s).set w thread) :=
  h.mono hprogress (batches_set (st.withStore s) rfl (fun a ha => Or.inl (hbatch a ha)))
    (fun _ hd => Or.inl hd)

omit [DecidableEq W] in
/-- **A batch that was claimed** is what is stored. -/
theorem claimed (hC : C.Lawful) (hstories : EventStore.Stories checks C st.store) {ord : List String}
    {clock : String → Readings} {workerId : String} {max : ℕ} {lease : Duration}
    {batch : List (Agg OutboxMessage)} {s : EventStore} (hord : st.store.Enumerates ord)
    (hclaim : st.store.claimOutboxMessages checks C ord clock workerId max lease = (.ok batch, s))
    {a : Agg OutboxMessage} (ha : a ∈ batch) :
    ∃ m, s.Message checks C a.entity.id m ∧ a.fields.cargo = m.cargo := by
  obtain ⟨hl, m, m', hfrom⟩ := (EventStore.claims_of_claim hC hstories hord hclaim).2.each a ha
  obtain ⟨leasedUntil, l, -, -, hadv⟩ := hfrom.claimed
  exact ⟨m', ⟨_, hl, hadv.after⟩, EventStore.cargo_of_claim hC hclaim ha hadv.after⟩

/-- **The event of a message in hand carries it.** -/
theorem carries {a : Agg OutboxMessage} {m : OutboxMessage} (hcargo : a.fields.cargo = m.cargo)
    (routed : Bool) {entries : List (String × String)} (hentries : Entries entries a.fields.metadata) :
    Delivery.Carries ⟨if routed then a.fields.destination else none,
      OutboxWorkerThread.event entries a⟩ m := by
  refine Delivery.Carries.of_cargo (m := a.fields) ⟨?_, ?_, ?_, ?_⟩ hcargo.symm
  · exact Event.eventType_withAll _ _
  · exact Event.payload_withAll _ _
  · simpa [OutboxWorkerThread.event, Event.metadata_withAll, Event.new] using hentries
  · cases routed with
    | true => exact Or.inr rfl
    | false => exact Or.inl rfl

/-- **Every step of the threads is honest.** -/
theorem step (hC : C.Lawful) (hstories : EventStore.Stories checks C st.store)
    (h : Honest checks C st) (hprogress : st.store.Progress checks C st'.store)
    (hstep : Step checks C st st') : Honest checks C st' := by
  cases hstep with
  | signal w => exact h.same hprogress (fun _ ha => ha)
  | stop hphase | poll hphase | sleep hphase | claimFails hphase | claimPanics hphase =>
    exact h.same hprogress (fun _ ha => absurd ha List.not_mem_nil)
  | refused hphase => exact h.same hprogress (fun _ ha => by rwa [hphase])
  | complete hphase | release hphase =>
    exact h.same hprogress (fun _ ha => by
      rw [hphase]
      exact List.mem_cons_of_mem _ ha)
  | commit => exact h.mono hprogress (fun _ _ ha => Or.inl ha) (fun _ hd => Or.inl hd)
  | claim hphase hord hclaim =>
    refine h.mono hprogress (batches_set (st.withStore _) rfl ?_) (fun _ hd => Or.inl hd)
    exact fun a ha => Or.inr (claimed hC hstories hord hclaim ha)
  | @taken w a batch entries hphase hentries =>
    have hhead : a ∈ (st.threads w).phase.batch := by
      rw [hphase]
      exact List.mem_cons_self ..
    refine h.mono hprogress (batches_set (st.deliver _ _) rfl ?_) (fun d hd => ?_)
    · intro b hb
      show b ∈ (st.threads w).phase.batch ∨ _
      rw [hphase]
      exact Or.inl hb
    · cases List.mem_append.mp hd with
      | inl hold => exact Or.inl hold
      | inr hnew =>
        obtain ⟨m, hm, hcargo⟩ := h.batches w a hhead
        rw [List.mem_singleton.mp hnew]
        refine Or.inr ⟨m, ?_, carries hcargo _ hentries⟩
        exact (show (OutboxWorkerThread.event entries a).id = a.entity.id from Event.id_withAll _ _) ▸ hm

/-- **Every run of the threads is honest.** -/
theorem run (hC : C.Lawful) {spawned : W → String × Bool} (hrun : Run checks C (.initial spawned) st) :
    Honest checks C st := by
  induction hrun with
  | refl => exact Honest.initial spawned
  | tail hrun hstep ih =>
    obtain ⟨hands, hclients⟩ := Run.clients hrun
    obtain ⟨hinv, -⟩ := OutboxClients.inv_initial.run hC hclients
    obtain ⟨hands', hclients'⟩ := hstep.clients hands
    exact ih.step hC hinv.stories (hinv.run hC hclients').2 hstep

end Honest

theorem Step.exists_taken (h : Step checks C st st') : ∃ ds, st'.taken = st.taken ++ ds := by
  cases h with
  | taken => exact ⟨[_], rfl⟩
  | signal | stop | poll | claim | claimFails | claimPanics | refused | complete | release | sleep
  | commit => exact ⟨[], (List.append_nil _).symm⟩

end OutboxWorkers

/-! ## Deliveries by their destination -/

namespace Delivery

/-- **The events delivered to a destination**, or published, in order. -/
def eventsTo (taken : List Delivery) (destination : Option String) : List Event :=
  (taken.filter (fun d => decide (d.destination = destination))).map Delivery.event

theorem eventsTo_append (taken taken' : List Delivery) (destination : Option String) :
    eventsTo (taken ++ taken') destination
      = eventsTo taken destination ++ eventsTo taken' destination := by
  simp [eventsTo]

theorem eventsTo_singleton (d : Delivery) (destination : Option String) :
    eventsTo [d] destination = if d.destination = destination then [d.event] else [] := by
  by_cases h : d.destination = destination
  · simp [eventsTo, h]
  · simp [eventsTo, h]

/-- **A message delivered once has gone one way.** -/
theorem countP_eventsTo {taken : List Delivery} {id : String}
    (hone : taken.countP (fun d => d.event.id = id) = 1) : ∃ d ∈ taken, d.event.id = id
      ∧ ∀ destination, (eventsTo taken destination).countP (fun e => decide (e.id = id))
        = if d.destination = destination then 1 else 0 := by
  rw [List.countP_eq_length_filter] at hone
  obtain ⟨d, hd⟩ := List.length_eq_one_iff.mp hone
  have hmem : d ∈ taken.filter (fun d => d.event.id = id) := hd ▸ List.mem_singleton_self d
  obtain ⟨htaken, hid⟩ := List.mem_filter.mp hmem
  refine ⟨d, htaken, of_decide_eq_true hid, fun destination => ?_⟩
  calc (eventsTo taken destination).countP (fun e => decide (e.id = id))
      = (taken.filter (fun d => d.event.id = id)).countP (fun d => d.destination = destination) := by
        simp only [eventsTo, List.countP_map, List.countP_filter, Function.comp_def, Bool.and_comm]
    _ = if d.destination = destination then 1 else 0 := by
        rw [hd]
        simp

theorem countP_eventsTo_zero {taken : List Delivery} {id : String}
    (hnone : taken.countP (fun d => d.event.id = id) = 0) (destination : Option String) :
    (eventsTo taken destination).countP (fun e => decide (e.id = id)) = 0 := by
  rw [List.countP_eq_zero] at hnone ⊢
  intro e he
  obtain ⟨d, hd, rfl⟩ := List.mem_map.mp he
  exact hnone d (List.mem_filter.mp hd).1

end Delivery

/-! ## How often a service has a message -/

/-- How often a thread that subscribes has dispatched the event of an id. -/
def SubscribeThread.dispatches {ρ V : Type} (t : SubscribeThread ρ V) (id : String) : ℕ :=
  t.dispatched.countP (fun d => decide (d.1.id = id))

/-- How often a thread that listens has. -/
def ListenThread.dispatches {ρ V : Type} (t : ListenThread ρ V) (id : String) : ℕ :=
  t.dispatched.countP (fun d => decide (d.1.id = id))

/-- How often it was taken from a queue, by a thread or another listener. -/
def Messaging.receipts {N ρ V : Type} (x : Messaging N ρ V) (id : String) : ℕ :=
  x.taken.countP (fun r => decide (r.event.id = id))

/-- **A subscriber dispatches what is in the log**, and no more often. -/
theorem SubscribeThread.InStep.dispatches_add {ρ V : Type} {J : Json V} {log : List Event}
    {t : SubscribeThread ρ V} (h : t.InStep J log) (id : String) :
    t.dispatches id + t.inFlight.countP (fun e => decide (e.id = id))
        + (log.drop t.position).countP (fun e => decide (e.id = id))
      = log.countP (fun e => decide (e.id = id)) := by
  calc t.dispatches id + t.inFlight.countP (fun e => decide (e.id = id))
        + (log.drop t.position).countP (fun e => decide (e.id = id))
      = (t.dispatched.map Prod.fst ++ t.inFlight).countP (fun e => decide (e.id = id))
        + (log.drop t.position).countP (fun e => decide (e.id = id)) := by
        rw [List.countP_append, List.countP_map]
        rfl
    _ = log.countP (fun e => decide (e.id = id)) := by
        rw [h.events_eq, ← List.countP_append, List.take_append_drop]

namespace Messaging

variable {N ρ V : Type} [DecidableEq N] {x : Messaging N ρ V} {id : String}

theorem Inv.mem_sent (h : x.Inv) {r : Taken N} (hr : r ∈ x.taken) : r.event ∈ x.sent r.queueName := by
  have hserved := h.queues r.queueName
  have hmem : r.event ∈ takenFrom x.taken r.queueName :=
    List.mem_map_of_mem (List.mem_filter.mpr ⟨hr, decide_eq_true rfl⟩)
  rw [hserved.taken_eq] at hmem
  exact hserved.messages_eq ▸ List.mem_of_mem_take hmem

theorem Inv.queueName_eq (h : x.Inv) {name : String}
    (hother : ∀ name' ≠ name, (x.sent name').countP (fun e => decide (e.id = id)) = 0) {r : Taken N}
    (hr : r ∈ x.taken) (hid : r.event.id = id) : r.queueName = name := by
  by_contra hne
  exact List.countP_eq_zero.mp (hother _ hne) _ (h.mem_sent hr) (decide_eq_true hid)

/-- **A message that was sent to one queue** was taken from there, or waits. -/
theorem Inv.receipts_add (h : x.Inv) {name : String}
    (hother : ∀ name' ≠ name, (x.sent name').countP (fun e => decide (e.id = id)) = 0) :
    x.receipts id + (x.queue.waiting name).countP (fun e => decide (e.id = id))
      = (x.sent name).countP (fun e => decide (e.id = id)) := by
  have hreceipts : x.receipts id
      = (takenFrom x.taken name).countP (fun e => decide (e.id = id)) := by
    rw [receipts, takenFrom, List.countP_map, List.countP_filter]
    refine List.countP_congr (fun r hr => ?_)
    simp only [decide_eq_true_eq, Function.comp_apply, Bool.and_eq_true]
    exact ⟨fun hid => ⟨hid, h.queueName_eq hother hr hid⟩, And.left⟩
  rw [hreceipts, ← List.countP_append, (h.queues name).taken_eq, ← (h.queues name).messages_eq]
  exact congrArg _ (List.take_append_drop ..)

theorem Inv.receipts_eq_zero (h : x.Inv)
    (hnone : ∀ name, (x.sent name).countP (fun e => decide (e.id = id)) = 0) : x.receipts id = 0 := by
  have hadd : x.receipts id + (x.queue.waiting "").countP (fun e => decide (e.id = id)) = 0 :=
    (h.receipts_add (fun name _ => hnone name)).trans (hnone "")
  exact (Nat.add_eq_zero_iff.mp hadd).1

/-- **A thread that listens has dispatched what it took**, but for what is in flight. -/
theorem Inv.dispatches_add (h : x.Inv) {j : ℕ} {t : ListenThread ρ V} (hj : x.threads[j]? = some t)
    (id : String) : t.dispatches id + t.inFlight.countP (fun e => decide (e.id = id))
      = x.taken.countP (fun r => decide (r.event.id = id) && decide (r.consumer = .thread j)) := by
  have hcount := congrArg (List.countP (fun p : String × Event => decide (p.2.id = id)))
    (h.threads j t hj).taken_eq
  simp only [takenBy, ListenThread.messages, List.countP_map, List.countP_filter, List.countP_append,
    Function.comp_def, List.map_append, List.map_map] at hcount
  exact hcount.symm

/-- **A message that was taken once**: the thread that took it, if it was one, has dispatched it
when it has nothing in flight. -/
theorem Inv.dispatches_eq_one (h : x.Inv) {r : Taken N}
    (hr : x.taken.filter (fun r => decide (r.event.id = id)) = [r]) {j : ℕ} {t : ListenThread ρ V}
    (hconsumer : r.consumer = .thread j) (hj : x.threads[j]? = some t) (hflight : t.inFlight = []) :
    t.dispatches id = 1 := by
  calc t.dispatches id
      = x.taken.countP (fun r => decide (r.event.id = id) && decide (r.consumer = .thread j)) := by
        rw [← h.dispatches_add hj id, hflight]
        rfl
    _ = (x.taken.filter (fun r => decide (r.event.id = id))).countP
          (fun r => decide (r.consumer = .thread j)) := by
        rw [List.countP_filter]
        exact List.countP_congr (fun _ _ => by rw [Bool.and_comm])
    _ = 1 := by
        rw [hr]
        simp [hconsumer]

end Messaging

/-! ## The pipeline -/

namespace Messaging

variable {N ρ V : Type}

/-- **The queue is handed a delivery**: it is sent to its destination, or published. -/
def handed (x : Messaging N ρ V) (d : Delivery) : Messaging N ρ V :=
  match d.destination with
  | none => { x with queue := x.queue.publish d.event }
  | some name =>
    { x with
      queue := x.queue.send name d.event
      sent := Function.update x.sent name (x.sent name ++ [d.event]) }

variable [DecidableEq N]

omit [DecidableEq N] in
theorem log_handed (x : Messaging N ρ V) (d : Delivery) :
    (x.handed d).queue.log = x.queue.log ++ Delivery.eventsTo [d] none := by
  rw [Delivery.eventsTo_singleton]
  unfold handed
  cases d.destination with
  | none => rfl
  | some name => exact (List.append_nil _).symm

omit [DecidableEq N] in
/-- What was sent was sent to its queue. -/
theorem sent_handed (x : Messaging N ρ V) (d : Delivery) (name : String) :
    (x.handed d).sent name = x.sent name ++ Delivery.eventsTo [d] (some name) := by
  rw [Delivery.eventsTo_singleton]
  unfold handed
  cases d.destination with
  | none => exact (List.append_nil _).symm
  | some name' =>
    by_cases h : name' = name
    · subst h
      simp
    · simp [Function.update_of_ne (Ne.symm h), h]

theorem Inv.handed {x : Messaging N ρ V} (h : x.Inv) (d : Delivery) : (x.handed d).Inv := by
  unfold Messaging.handed
  cases d.destination with
  | none => exact ⟨h.queues, h.threads, h.unborn⟩
  | some name => exact h.send name d.event

omit [DecidableEq N] in
theorem log_listenOnce {q q' : InMemoryQueue} {name : String} {o : Option Event}
    (h : q.listenOnce name = (o, q')) : q'.log = q.log := by
  unfold InMemoryQueue.listenOnce at h
  split at h
  · exact (congrArg InMemoryQueue.log (Prod.mk.inj h).2).symm
  · split at h
    · exact (congrArg InMemoryQueue.log (Prod.mk.inj h).2).symm
    · exact (congrArg InMemoryQueue.log (Prod.mk.inj h).2).symm

/-- **Listeners leave the log as it is.** -/
theorem Step.log {J : Json V} {x m : Messaging N ρ V} (h : Step J x m) : m.queue.log = x.queue.log := by
  cases h with
  | access _ _ _ _ _ _ hlisten => exact log_listenOnce hlisten
  | threadAccess _ _ _ _ _ _ _ hlisten => exact log_listenOnce hlisten
  | send | listen | spawn | signalStop | threadCheck | threadDispatch | serve => rfl

end Messaging

/-- **Workers' threads, a queue, and the services behind it**: those that listen, with
the other listeners, and those that subscribe. -/
structure Pipeline (W N ρ V : Type) where
  workers : OutboxWorkers W
  messaging : Messaging N ρ V
  subscribers : List (SubscribeThread ρ V)

namespace Pipeline

variable {W N ρ V : Type} [DecidableEq W] [DecidableEq N] {J : Json V}

omit [DecidableEq W] [DecidableEq N] in
/-- An empty outbox, threads just spawned, and a new queue. -/
def initial (N ρ V : Type) (spawned : W → String × Bool) : Pipeline W N ρ V :=
  ⟨.initial spawned, .initial N ρ V, []⟩

variable (checks C) in
/-- **One step.** Nobody sends or publishes but the workers' threads. -/
inductive Step (J : Json V) : Pipeline W N ρ V → Pipeline W N ρ V → Prop
  /-- A worker's thread moves, or messages are committed; what a publisher takes is handed
  to the queue. -/
  | outbox {x : Pipeline W N ρ V} {st : OutboxWorkers W} {ds : List Delivery}
      (h : OutboxWorkers.Step checks C x.workers st) (hds : st.taken = x.workers.taken ++ ds) :
      Step J x { x with workers := st, messaging := ds.foldl Messaging.handed x.messaging }
  /-- A listener moves, or a thread is spawned that listens. -/
  | listener {x : Pipeline W N ρ V} {m : Messaging N ρ V} (h : Messaging.Step J x.messaging m)
      (hsent : m.sent = x.messaging.sent) : Step J x { x with messaging := m }
  /-- A thread is spawned that subscribes. -/
  | subscribe (x : Pipeline W N ρ V) (service : Service ρ V) (repo : ρ) :
      Step J x { x with subscribers := x.subscribers ++ [SubscribeThread.spawn service repo] }
  | subscriber {x : Pipeline W N ρ V} {j : ℕ} {t t' : SubscribeThread ρ V}
      (hj : x.subscribers[j]? = some t) (h : t.Step J x.messaging.queue.log t') :
      Step J x { x with subscribers := x.subscribers.set j t' }

variable (checks C) in
/-- A run. -/
abbrev Run (J : Json V) : Pipeline W N ρ V → Pipeline W N ρ V → Prop :=
  Relation.ReflTransGen (Step checks C J)

/-! ## What a run keeps -/

variable (checks C) in
/-- **The parts fit together**: the workers' threads have had a run of their own, the log is
what they published and the queues what they sent, and behind the queue everything is in
order. -/
structure Inv (J : Json V) (spawned : W → String × Bool) (x : Pipeline W N ρ V) : Prop where
  workers : OutboxWorkers.Run checks C (.initial spawned) x.workers
  log : x.messaging.queue.log = Delivery.eventsTo x.workers.taken none
  sent : ∀ name, x.messaging.sent name = Delivery.eventsTo x.workers.taken (some name)
  messaging : x.messaging.Inv
  subscribers : ∀ t ∈ x.subscribers, t.InStep J x.messaging.queue.log

namespace Inv

variable {spawned : W → String × Bool} {x y : Pipeline W N ρ V}

omit [DecidableEq N] in
/-- The queue after some deliveries. -/
theorem foldl_handed (m : Messaging N ρ V) (ds : List Delivery) :
    (ds.foldl Messaging.handed m).queue.log = m.queue.log ++ Delivery.eventsTo ds none
      ∧ ∀ name, (ds.foldl Messaging.handed m).sent name
        = m.sent name ++ Delivery.eventsTo ds (some name) := by
  induction ds using List.reverseRecOn with
  | nil => exact ⟨(List.append_nil _).symm, fun _ => (List.append_nil _).symm⟩
  | append_singleton ds d ih =>
    rw [List.foldl_append, List.foldl_cons, List.foldl_nil, Messaging.log_handed, ih.1]
    refine ⟨by rw [Delivery.eventsTo_append, List.append_assoc], fun name => ?_⟩
    rw [Messaging.sent_handed, ih.2 name, Delivery.eventsTo_append, List.append_assoc]

theorem initial (J : Json V) (spawned : W → String × Bool) :
    Inv checks C J spawned (.initial N ρ V spawned) where
  workers := .refl
  log := rfl
  sent _ := rfl
  messaging := .initial
  subscribers _ ht := absurd ht List.not_mem_nil

/-- **Every step keeps the parts together.** -/
theorem step (h : Inv checks C J spawned x) (hstep : Step checks C J x y) :
    Inv checks C J spawned y := by
  cases hstep with
  | @outbox st ds hworkers hds =>
    obtain ⟨hlog, hsent⟩ := foldl_handed x.messaging ds
    refine ⟨h.workers.tail hworkers, ?_, fun name => ?_, ?_, fun t ht => ?_⟩
    · rw [hlog, h.log, hds, Delivery.eventsTo_append]
    · rw [hsent, h.sent, hds, Delivery.eventsTo_append]
    · exact List.foldlRecOn ds Messaging.handed h.messaging (fun _ hm d _ => hm.handed d)
    · rw [hlog]
      exact (h.subscribers t ht).grow _
  | listener hm hsent =>
    refine ⟨h.workers, hm.log.trans h.log, fun name => ?_, h.messaging.step hm, fun t ht => ?_⟩
    · exact (congrFun hsent name).trans (h.sent name)
    · exact hm.log ▸ h.subscribers t ht
  | subscribe service repo =>
    refine ⟨h.workers, h.log, h.sent, h.messaging, fun t ht => ?_⟩
    cases List.mem_append.mp ht with
    | inl hold => exact h.subscribers t hold
    | inr hnew =>
      rw [List.mem_singleton.mp hnew]
      exact .spawn _ service repo
  | subscriber hj ht' =>
    refine ⟨h.workers, h.log, h.sent, h.messaging, fun t ht => ?_⟩
    cases List.mem_or_eq_of_mem_set ht with
    | inl hold => exact h.subscribers t hold
    | inr hmoved =>
      rw [hmoved]
      exact (h.subscribers _ (List.mem_of_getElem? hj)).step ht'

/-- **Every run keeps them together.** -/
theorem run (hrun : Run checks C J (.initial N ρ V spawned) x) : Inv checks C J spawned x := by
  induction hrun with
  | refl => exact .initial J spawned
  | tail _ hstep ih => exact ih.step hstep

end Inv

/-! ## The theorem -/

variable {spawned : W → String × Bool} {x : Pipeline W N ρ V} {id : String}

/-- **Where the event of an id has gone**: nowhere, into the log, or to one queue. -/
inductive Went (x : Pipeline W N ρ V) (id : String) : Prop
  | nowhere (hdeliveries : x.workers.deliveries id = 0)
      (hsubscribers : ∀ t ∈ x.subscribers, t.dispatches id = 0) (hlisteners : x.messaging.receipts id = 0)
  | published (hdeliveries : x.workers.deliveries id = 1)
      (hsubscribers : ∀ t ∈ x.subscribers, t.dispatches id ≤ 1
        ∧ (t.position = x.messaging.queue.log.length → t.inFlight = [] → t.dispatches id = 1))
      (hlisteners : x.messaging.receipts id = 0)
  | sent (hdeliveries : x.workers.deliveries id = 1) (d : Delivery) (hd : d ∈ x.workers.taken)
      (hid : d.event.id = id) (name : String) (hdestination : d.destination = some name)
      (hsubscribers : ∀ t ∈ x.subscribers, t.dispatches id = 0)
      (hlisteners : x.messaging.receipts id
        + (x.messaging.queue.waiting name).countP (fun e => decide (e.id = id)) = 1)
      (hqueue : ∀ r ∈ x.messaging.taken, r.event.id = id → r.queueName = name)

/-- **The event of an id goes one way.** -/
theorem Inv.went (hC : C.Lawful) (h : Inv checks C J spawned x) (id : String) : x.Went id := by
  have hledger := (OutboxWorkers.Inv.run hC h.workers).ledger id
  have hlog : ∀ t ∈ x.subscribers, t.dispatches id + t.inFlight.countP (fun e => decide (e.id = id))
      + (x.messaging.queue.log.drop t.position).countP (fun e => decide (e.id = id))
      = (Delivery.eventsTo x.workers.taken none).countP (fun e => decide (e.id = id)) :=
    fun t ht => h.log ▸ (h.subscribers t ht).dispatches_add id
  cases Nat.le_one_iff_eq_zero_or_eq_one.mp hledger.deliveries_le with
  | inl hzero =>
    have hnone := Delivery.countP_eventsTo_zero hzero
    refine .nowhere hzero (fun t ht => ?_) (h.messaging.receipts_eq_zero fun name => ?_)
    · have := hlog t ht
      rw [hnone] at this
      omega
    · rw [h.sent, hnone]
  | inr hone =>
    obtain ⟨d, hd, hid, hcount⟩ := Delivery.countP_eventsTo hone
    cases hdestination : d.destination with
    | none =>
      refine .published hone (fun t ht => ?_) (h.messaging.receipts_eq_zero fun name => ?_)
      · have := hlog t ht
        rw [hcount, if_pos hdestination] at this
        refine ⟨by omega, fun hposition hflight => ?_⟩
        rw [hposition, hflight, List.drop_length] at this
        simpa using this
      · rw [h.sent, hcount, hdestination]
        rfl
    | some name =>
      have hother : ∀ name' ≠ name,
          (x.messaging.sent name').countP (fun e => decide (e.id = id)) = 0 := by
        intro name' hne
        rw [h.sent, hcount, hdestination, if_neg (fun heq => hne (Option.some.inj heq).symm)]
      refine .sent hone d hd hid name hdestination (fun t ht => ?_) ?_
        (fun r hr => h.messaging.queueName_eq hother hr)
      · have := hlog t ht
        rw [hcount, hdestination, if_neg (Option.some_ne_none name)] at this
        omega
      · rw [h.messaging.receipts_add hother, h.sent, hcount, if_pos hdestination]

/-- **What was handed over is stored.** -/
theorem Inv.stored (hC : C.Lawful) (h : Inv checks C J spawned x) {destination : Option String} {e : Event}
    (he : e ∈ Delivery.eventsTo x.workers.taken destination) :
    ∃ a, x.workers.store.Loads checks C e.id a ∧ Delivery.Carries ⟨destination, e⟩ a.fields := by
  obtain ⟨d, hd, rfl⟩ := List.mem_map.mp he
  obtain ⟨htaken, hdestination⟩ := List.mem_filter.mp hd
  obtain ⟨m, hm, hcarries⟩ := (OutboxWorkers.Honest.run hC h.workers).taken d htaken
  obtain ⟨l, hloads⟩ := hm.loads hC SystemTime.unixEpoch
  obtain rfl := of_decide_eq_true hdestination
  exact ⟨_, hloads, hcarries.of_cargo rfl⟩

theorem Inv.mem_published (h : Inv checks C J spawned x) {t : SubscribeThread ρ V}
    (ht : t ∈ x.subscribers) {d : Event × Except HandlerError V} (hd : d ∈ t.dispatched) :
    d.1 ∈ Delivery.eventsTo x.workers.taken none := by
  have hmem : d.1 ∈ x.messaging.queue.log.take t.position := by
    rw [← (h.subscribers t ht).events_eq]
    exact List.mem_append_left _ (List.mem_map_of_mem hd)
  exact h.log ▸ List.mem_of_mem_take hmem

theorem Inv.mem_sent (h : Inv checks C J spawned x) {r : Taken N} (hr : r ∈ x.messaging.taken) :
    r.event ∈ Delivery.eventsTo x.workers.taken (some r.queueName) := by
  exact h.sent r.queueName ▸ h.messaging.mem_sent hr

/-- **Every event is handled exactly once.** In every run of any clients of the outbox, its
threads, and the services behind the queue: each subscribing service dispatches the event of
an id at most once, and at most one listener has it at most once, and these two do not both
happen; whatever is dispatched or taken is stored, and has the content of what is stored,
where it was to go; as long as the message is pending nobody has had it; and once it is
published, either every subscriber has dispatched it that has caught up with the log, or it
was sent to its destination, and when nothing is waiting there one listener has it, which
has dispatched it if it is a thread with nothing in flight. -/
theorem exactly_once (hC : C.Lawful) (hrun : Run checks C J (.initial N ρ V spawned) x) (id : String) :
    ((∀ t ∈ x.subscribers, t.dispatches id ≤ 1) ∧ x.messaging.receipts id ≤ 1
      ∧ (x.messaging.receipts id = 0 ∨ ∀ t ∈ x.subscribers, t.dispatches id = 0))
    ∧ ((∀ t ∈ x.subscribers, ∀ d ∈ t.dispatched,
        ∃ a, x.workers.store.Loads checks C d.1.id a ∧ Delivery.Carries ⟨none, d.1⟩ a.fields)
      ∧ ∀ r ∈ x.messaging.taken, ∃ a, x.workers.store.Loads checks C r.event.id a
        ∧ Delivery.Carries ⟨some r.queueName, r.event⟩ a.fields)
    ∧ ∀ a, x.workers.store.Loads checks C id a →
      (a.fields.status = .pending →
        x.messaging.receipts id = 0 ∧ ∀ t ∈ x.subscribers, t.dispatches id = 0)
      ∧ (a.fields.status = .published →
        (∀ t ∈ x.subscribers, t.position = x.messaging.queue.log.length → t.inFlight = [] →
          t.dispatches id = 1)
        ∨ ∃ name, a.fields.destination = some name ∧ (x.messaging.queue.waiting name = [] →
          ∃ r ∈ x.messaging.taken, r.event.id = id ∧ r.queueName = name
            ∧ ∀ j t, r.consumer = .thread j → x.messaging.threads[j]? = some t → t.inFlight = [] →
              t.dispatches id = 1)) := by
  have h := Inv.run hrun
  have hledger := (OutboxWorkers.Inv.run hC h.workers).ledger id
  obtain ⟨hands, hclients⟩ := OutboxWorkers.Run.clients h.workers
  have hstories := (OutboxClients.inv_initial.run hC hclients).1.stories
  refine ⟨?_, ⟨fun t ht d hd => h.stored hC (h.mem_published ht hd),
    fun r hr => h.stored hC (h.mem_sent hr)⟩, fun a ha => ?_⟩
  · cases h.went hC id with
    | nowhere _ hsubscribers hlisteners =>
      exact ⟨fun t ht => (hsubscribers t ht).trans_le (Nat.zero_le 1), hlisteners.trans_le (Nat.zero_le 1),
        Or.inl hlisteners⟩
    | published _ hsubscribers hlisteners =>
      exact ⟨fun t ht => (hsubscribers t ht).1, hlisteners.trans_le (Nat.zero_le 1), Or.inl hlisteners⟩
    | sent _ _ _ _ _ _ hsubscribers hlisteners =>
      exact ⟨fun t ht => (hsubscribers t ht).trans_le (Nat.zero_le 1), by omega, Or.inr hsubscribers⟩
  obtain ⟨m, now, hm, hfields⟩ := hstories.message hC ha
  have hstatus : a.fields.status = m.status := (congrArg OutboxMessage.status hfields).trans rfl
  rw [hstatus]
  refine ⟨fun hpending => ?_, fun hpublished => ?_⟩
  · have hnone := (hledger.of_pending hC hm hpending).2
    cases h.went hC id with
    | nowhere _ hsubscribers hlisteners => exact ⟨hlisteners, hsubscribers⟩
    | published hone | sent hone => exact absurd (hnone.symm.trans hone) Nat.zero_ne_one
  · have hone := hledger.of_published hC hm hpublished
    cases h.went hC id with
    | nowhere hnone => exact absurd (hnone.symm.trans hone) Nat.zero_ne_one
    | published _ hsubscribers _ => exact Or.inl (fun t ht => (hsubscribers t ht).2)
    | sent _ d hd hid name hdestination _ hlisteners hqueue =>
      refine Or.inr ⟨name, ?_, fun hwaiting => ?_⟩
      · -- the message that was handed over is the one that is stored
        obtain ⟨m', hm', hcarries⟩ := (OutboxWorkers.Honest.run hC h.workers).taken d hd
        obtain rfl := (hid ▸ hm').unique hC hm
        have hdestination' := hcarries.destination
        rw [hdestination] at hdestination'
        rw [hfields]
        exact (hdestination'.resolve_left (Option.some_ne_none name)).symm
      · rw [hwaiting, List.countP_nil, Nat.add_zero, Messaging.receipts, List.countP_eq_length_filter,
          List.length_eq_one_iff] at hlisteners
        obtain ⟨r, hr⟩ := hlisteners
        obtain ⟨hmem, hid'⟩ := List.mem_filter.mp (hr ▸ List.mem_singleton_self r)
        have hid' := of_decide_eq_true hid'
        exact ⟨r, hmem, hid', hqueue r hmem hid',
          fun j t hconsumer hj => h.messaging.dispatches_eq_one hr hconsumer hj⟩

/-! ### A run -/

/-- **The queue keeps no worker's thread from anything**: every run of an outbox is one with
a queue. -/
theorem exists_run {st : OutboxWorkers W} (hrun : OutboxWorkers.Run checks C (.initial spawned) st) :
    ∃ x : Pipeline W N ρ V, Run checks C J (.initial N ρ V spawned) x ∧ x.workers = st
      ∧ x.subscribers = [] := by
  induction hrun with
  | refl => exact ⟨_, .refl, rfl, rfl⟩
  | tail _ hstep ih =>
    obtain ⟨x, hx, rfl, hsubscribers⟩ := ih
    obtain ⟨ds, hds⟩ := hstep.exists_taken
    exact ⟨_, hx.tail (.outbox hstep hds), rfl, hsubscribers⟩

/-- A message is committed, claimed and published. -/
theorem exists_delivered (checks : OverflowChecks) (hC : C.Lawful) :
    ∃ (st : OutboxWorkers Unit) (e : Event),
      OutboxWorkers.Run checks C (.initial fun _ => ("w", false)) st ∧ st.taken = [⟨none, e⟩]
        ∧ e.id = "outbox:m" := by
  obtain ⟨a, es, s, l, m, ha, hcommit, hsingle, hclaims⟩ := EventStore.Single.exists_commit checks C [] ∅
  have hpanic : ¬ EventStore.ClaimPanics checks OutboxWorkers.epoch OutboxWorkerThread.lease m := by
    rw [OutboxWorkers.claimPanics_epoch, addU32_one_eq_none]
    rintro ⟨hchecks, hlt⟩
    exact hlt (by rw [hsingle.story.machine.2.1.2 hchecks, hclaims]; decide)
  obtain ⟨b, s₁, m₁, hclaim, hid, -⟩ := hsingle.claim hC (fun _ => OutboxWorkers.epoch) "w"
    (show 1 < OutboxWorkerThread.batchSize by decide) hpanic
  obtain ⟨entries, hentries⟩ := exists_entries b.fields.metadata
  have h₁ : OutboxWorkers.Run checks C (.initial fun _ : Unit => ("w", false)) _ :=
    .single (.commit (fun b (hb : b ∈ [a]) => List.mem_singleton.mp hb ▸ ⟨_, _, _, _, _, _, ha⟩)
      (List.nodup_singleton _) hcommit)
  have h₂ := h₁.tail (.poll (w := ()) rfl rfl)
  have h₃ := h₂.tail (.claim (w := ()) rfl hsingle.enumerates hclaim)
  have h₄ := h₃.tail (.taken (w := ()) rfl hentries)
  exact ⟨_, _, h₄, rfl, (Event.id_withAll _ _).trans hid⟩

/-- **A subscriber handles what was committed**, whatever its service makes of it. -/
theorem exactly_once_delivered :
    ∃ (x : Pipeline Unit Unit Unit String) (t : SubscribeThread Unit String)
      (d : Event × Except HandlerError String),
      Run true Codecs.counting Subscribing.textOnly (.initial Unit Unit String fun _ => ("w", false)) x
        ∧ x.subscribers = [t] ∧ t.dispatched = [d] ∧ d.1.id = "outbox:m" ∧ t.dispatches "outbox:m" ≤ 1
        ∧ ∃ a, x.workers.store.Loads true Codecs.counting d.1.id a
          ∧ Delivery.Carries ⟨none, d.1⟩ a.fields := by
  obtain ⟨st, e, hworkers, htaken, hid⟩ := exists_delivered true Codecs.counting_lawful
  obtain ⟨x, hx, rfl, hsubscribers⟩ : ∃ x : Pipeline Unit Unit Unit String,
      Run true Codecs.counting Subscribing.textOnly (.initial Unit Unit String fun _ => ("w", false)) x
        ∧ x.workers = st ∧ x.subscribers = [] := exists_run hworkers
  have hlog : x.messaging.queue.log = [e] := by
    rw [(Inv.run hx).log, htaken]
    rfl
  obtain ⟨workers, messaging, subscribers⟩ := x
  obtain rfl : subscribers = [] := hsubscribers
  have h₁ := hx.tail (.subscribe _ Service.new ())
  have h₂ := h₁.tail (.subscriber (j := 0) rfl (.check 0 rfl))
  have h₃ := h₂.tail (.subscriber (j := 0) rfl (.access (o := some e) (k := Prog.ret) rfl
    (by rw [hlog]; rfl)))
  have h₄ := h₃.tail (.subscriber (j := 0) rfl (.dispatch rfl))
  obtain ⟨⟨honce, -⟩, ⟨hcontent, -⟩, -⟩ := exactly_once Codecs.counting_lawful h₄ "outbox:m"
  exact ⟨_, _, _, h₄, rfl, rfl, hid, honce _ (List.mem_singleton_self _),
    hcontent _ (List.mem_singleton_self _) _ (List.mem_singleton_self _)⟩

end Pipeline
