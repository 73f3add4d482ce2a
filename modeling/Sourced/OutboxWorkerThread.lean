import Sourced.OutboxHistory
import Sourced.Bus

/-!
# Threads that drain the outbox

`OutboxWorkerThread` (`outbox_worker/thread.rs`) is a loop: it looks for a stop
signal, claims up to a hundred messages, and publishes them one after the other,
completing the message where the publisher took it and releasing it where it did
not. Any number of such threads share a store with clients that commit new messages.

Every message that is stored is in one place (`OutboxWorkers.Ledger`): it is pending,
or published, or in flight and in the hands of one thread, which still owes it to a
publisher or owes the store its completion. That the publishers have had it once in
the last case and in the second, and never in the others, is the whole argument.

The one thing that can lose a message is a panic of a claim, which leaves the
messages it has claimed so far in flight and in nobody's hands, and the lock
poisoned; it happens in a build with overflow checks to a message claimed
`2 ^ 32 - 1` times (`OutboxWorkers.claimed_and_lost`).
-/

open OutboxMessage (Codecs Readings Story Tells hasPrefix normalizeId)

/-- **`WorkerStats`.** -/
structure WorkerStats where
  messagesPublished : ℕ
  messagesFailed : ℕ
  polls : ℕ
deriving DecidableEq

/-- **Where a thread is in its loop.** -/
inductive WorkerPhase where
  /-- It looks for a stop signal. -/
  | checking
  /-- It claims. -/
  | claiming
  /-- It publishes the first of the messages left of its batch. -/
  | publishing (batch : List (Agg OutboxMessage))
  /-- It completes or releases the message, as the publisher took it or not. -/
  | settling (taken : Bool) (message : Agg OutboxMessage) (batch : List (Agg OutboxMessage))
  /-- It has seen a stop signal. -/
  | stopped
  /-- Its claim has panicked. -/
  | panicked

namespace WorkerPhase

/-- The messages left of the batch, with the one being published or settled. -/
def batch : WorkerPhase → List (Agg OutboxMessage)
  | publishing batch => batch
  | settling _ message batch => message :: batch
  | _ => []

/-- The ids of the messages that no publisher has taken in this batch. -/
def unsent : WorkerPhase → List String
  | publishing batch => batch.map (fun a => a.entity.id)
  | settling true _ batch => batch.map (fun a => a.entity.id)
  | settling false message batch => (message :: batch).map (fun a => a.entity.id)
  | _ => []

/-- The id of the message that a publisher has taken and that is to be completed. -/
def sent : WorkerPhase → Option String
  | settling true message _ => some message.entity.id
  | _ => none

/-- The thread has come to its end. -/
def Ended : WorkerPhase → Prop
  | stopped => True
  | panicked => True
  | _ => False

theorem Ended.batch_eq {p : WorkerPhase} (h : p.Ended) : p.batch = [] := by
  cases p with
  | stopped => rfl
  | panicked => rfl
  | _ => exact h.elim

/-- What is in the batch is to be published or to be completed. -/
theorem mem_batch {p : WorkerPhase} {id : String} :
    id ∈ p.batch.map (fun a => a.entity.id) ↔ id ∈ p.unsent ∨ p.sent = some id := by
  cases p with
  | settling taken message batch =>
    cases taken with
    | true =>
      show id ∈ message.entity.id :: batch.map _ ↔ id ∈ batch.map _ ∨ some message.entity.id = some id
      rw [List.mem_cons, Option.some_inj, or_comm, @eq_comm _ id]
    | false => simp [WorkerPhase.batch, unsent, sent]
  | _ => simp [WorkerPhase.batch, unsent, sent]

end WorkerPhase

/-- **An `OutboxWorkerThread`**: it was spawned to route or not, with an id. -/
structure OutboxWorkerThread where
  workerId : String
  routed : Bool
  stop : Bool
  phase : WorkerPhase
  stats : WorkerStats

namespace OutboxWorkerThread

/-- `spawn_with_id` or `spawn_routed_with_id`. -/
def spawn (workerId : String) (routed : Bool) : OutboxWorkerThread :=
  ⟨workerId, routed, false, .checking, ⟨0, 0, 0⟩⟩

/-- The lease of a minute. -/
def lease : Duration := .fromSecs 60 (by decide)

/-- The size of a batch. -/
def batchSize : ℕ := 100

/-- The event of a message; `entries` are those of its metadata in an order of
iteration. -/
def event (entries : List (String × String)) (m : Agg OutboxMessage) : Event :=
  (Event.new m.entity.id m.fields.eventType m.fields.payload).withAll entries

end OutboxWorkerThread

/-- **What a publisher took**: an event sent to a destination, or published. -/
structure Delivery where
  destination : Option String
  event : Event

/-- **Threads over one store**: the store, the threads, and everything that their
publishers have taken. -/
structure OutboxWorkers (W : Type) where
  store : EventStore
  threads : W → OutboxWorkerThread
  taken : List Delivery

namespace OutboxWorkers

variable {W : Type} [DecidableEq W]

/-- An empty store and threads just spawned. -/
def initial (spawned : W → String × Bool) : OutboxWorkers W :=
  ⟨EventStore.new, fun w => .spawn (spawned w).1 (spawned w).2, []⟩

/-- The system with a thread in another state. -/
def set (st : OutboxWorkers W) (w : W) (thread : OutboxWorkerThread) : OutboxWorkers W :=
  { st with threads := Function.update st.threads w thread }

/-- The system with another store. -/
def withStore (st : OutboxWorkers W) (s : EventStore) : OutboxWorkers W := { st with store := s }

/-- The system after a publisher took an event. -/
def deliver (st : OutboxWorkers W) (destination : Option String) (event : Event) :
    OutboxWorkers W :=
  { st with taken := st.taken ++ [⟨destination, event⟩] }

variable (checks : OverflowChecks) (C : Codecs)

/-- **A step** of a thread or of a client. -/
inductive Step : OutboxWorkers W → OutboxWorkers W → Prop
  /-- A stop signal is sent, or the handle is dropped. -/
  | signal {st : OutboxWorkers W} (w : W) :
      Step st (st.set w { st.threads w with stop := true })
  /-- A thread finds a stop signal. -/
  | stop {st : OutboxWorkers W} {w : W} (hphase : (st.threads w).phase = .checking)
      (hstop : (st.threads w).stop = true) :
      Step st (st.set w { st.threads w with phase := .stopped })
  /-- A thread finds no stop signal. -/
  | poll {st : OutboxWorkers W} {w : W} (hphase : (st.threads w).phase = .checking)
      (hstop : (st.threads w).stop = false) :
      Step st (st.set w { st.threads w with
        phase := .claiming
        stats := { (st.threads w).stats with polls := (st.threads w).stats.polls + 1 } })
  /-- A thread claims a batch. -/
  | claim {st : OutboxWorkers W} {w : W} {ord : List String} {clock : String → Readings}
      {batch : List (Agg OutboxMessage)} {s : EventStore}
      (hphase : (st.threads w).phase = .claiming) (hord : st.store.Enumerates ord)
      (hclaim : st.store.claimOutboxMessages checks C ord clock (st.threads w).workerId
        OutboxWorkerThread.batchSize OutboxWorkerThread.lease = (.ok batch, s)) :
      Step st ((st.withStore s).set w { st.threads w with phase := .publishing batch })
  /-- The claim of a thread fails. -/
  | claimFails {st : OutboxWorkers W} {w : W} {ord : List String} {clock : String → Readings}
      {e : RepositoryError} {s : EventStore}
      (hphase : (st.threads w).phase = .claiming) (hord : st.store.Enumerates ord)
      (hclaim : st.store.claimOutboxMessages checks C ord clock (st.threads w).workerId
        OutboxWorkerThread.batchSize OutboxWorkerThread.lease = (.error (.err e), s)) :
      Step st ((st.withStore s).set w { st.threads w with phase := .checking })
  /-- The claim of a thread panics. -/
  | claimPanics {st : OutboxWorkers W} {w : W} {ord : List String} {clock : String → Readings}
      {s : EventStore}
      (hphase : (st.threads w).phase = .claiming) (hord : st.store.Enumerates ord)
      (hclaim : st.store.claimOutboxMessages checks C ord clock (st.threads w).workerId
        OutboxWorkerThread.batchSize OutboxWorkerThread.lease = (.error .panic, s)) :
      Step st ((st.withStore s).set w { st.threads w with phase := .panicked })
  /-- The publisher of a thread takes a message: it is sent to its destination if the thread
  routes and the message has one, and published if not. -/
  | taken {st : OutboxWorkers W} {w : W} {a : Agg OutboxMessage} {batch : List (Agg OutboxMessage)}
      {entries : List (String × String)} (hphase : (st.threads w).phase = .publishing (a :: batch))
      (hentries : entries.Nodup
        ∧ ∀ key value, (key, value) ∈ entries ↔ a.fields.metadata.lookup key = some value) :
      Step st ((st.deliver (if (st.threads w).routed then a.fields.destination else none)
        (OutboxWorkerThread.event entries a)).set w
          { st.threads w with phase := .settling true a batch })
  /-- The publisher of a thread refuses a message. -/
  | refused {st : OutboxWorkers W} {w : W} {a : Agg OutboxMessage}
      {batch : List (Agg OutboxMessage)} (hphase : (st.threads w).phase = .publishing (a :: batch)) :
      Step st (st.set w { st.threads w with phase := .settling false a batch })
  /-- A thread completes the message. -/
  | complete {st : OutboxWorkers W} {w : W} {a : Agg OutboxMessage}
      {batch : List (Agg OutboxMessage)} {t : Readings} {r : RepoRes Unit} {s : EventStore}
      (hphase : (st.threads w).phase = .settling true a batch)
      (hcomplete : st.store.completeOutboxMessage checks C t a.entity.id = (r, s)) :
      Step st ((st.withStore s).set w { st.threads w with
        phase := .publishing batch
        stats := if r.isOk then { (st.threads w).stats with
          messagesPublished := (st.threads w).stats.messagesPublished + 1 }
          else (st.threads w).stats })
  /-- A thread releases the message. -/
  | release {st : OutboxWorkers W} {w : W} {a : Agg OutboxMessage}
      {batch : List (Agg OutboxMessage)} {t : Readings} {r : RepoRes Unit} {s : EventStore}
      (hphase : (st.threads w).phase = .settling false a batch)
      (hrelease : st.store.releaseOutboxMessage checks C t a.entity.id "publish failed" = (r, s)) :
      Step st ((st.withStore s).set w { st.threads w with
        phase := .publishing batch
        stats := { (st.threads w).stats with
          messagesFailed := (st.threads w).stats.messagesFailed + 1 } })
  /-- A thread is through with its batch, and sleeps. -/
  | sleep {st : OutboxWorkers W} {w : W} (hphase : (st.threads w).phase = .publishing []) :
      Step st (st.set w { st.threads w with phase := .checking })
  /-- A client commits new messages, with distinct ids. -/
  | commit {st : OutboxWorkers W} {batch : List (Agg OutboxMessage)} {r : RepoRes Unit}
      {es : List Entity} {s : EventStore}
      (hnew : ∀ a ∈ batch, ∃ (now : SystemTime) (id eventType : String) (payload : Bytes)
        (destination : Option String) (metadata : Metadata),
        OutboxMessage.construct C now id eventType payload destination metadata = some a)
      (hnd : (batch.map (fun a => a.entity.id)).Nodup)
      (hcommit : st.store.commit (batch.map Agg.entity) = (r, es, s)) :
      Step st (st.withStore s)

/-- **A run.** -/
def Run : OutboxWorkers W → OutboxWorkers W → Prop := Relation.ReflTransGen (Step checks C)

variable {checks C} {st st' : OutboxWorkers W}

@[simp] theorem store_set (w : W) (thread : OutboxWorkerThread) : (st.set w thread).store = st.store :=
  rfl

@[simp] theorem threads_set_self (w : W) (thread : OutboxWorkerThread) :
    (st.set w thread).threads w = thread := Function.update_self ..

theorem threads_set_of_ne {w w' : W} (h : w' ≠ w) (thread : OutboxWorkerThread) :
    (st.set w thread).threads w' = st.threads w' := Function.update_of_ne h ..

/-! ## Threads are clients of the outbox -/

/-- Messages constructed one after the other. -/
theorem run_construct {s : EventStore} {batch : List (Agg OutboxMessage)}
    (hnew : ∀ a ∈ batch, ∃ (now : SystemTime) (id eventType : String) (payload : Bytes)
      (destination : Option String) (metadata : Metadata),
      OutboxMessage.construct C now id eventType payload destination metadata = some a)
    (hands : List (Agg OutboxMessage)) :
    OutboxClients.Run checks C ⟨s, hands⟩ ⟨s, hands ++ batch⟩ := by
  induction batch generalizing hands with
  | nil =>
    rw [List.append_nil]
    exact .refl
  | cons a batch ih =>
    obtain ⟨now, id, eventType, payload, destination, metadata, ha⟩ := hnew a List.mem_cons_self
    have hrest := ih (fun b hb => hnew b (List.mem_cons_of_mem _ hb)) (hands ++ [a])
    rw [List.append_assoc] at hrest
    exact .head (.construct ha) hrest

/-- **A step of a thread does to the store what steps of clients do.** -/
theorem Step.clients (h : Step checks C st st') (hands : List (Agg OutboxMessage)) :
    ∃ hands', OutboxClients.Run checks C ⟨st.store, hands⟩ ⟨st'.store, hands'⟩ := by
  cases h with
  | signal | stop | poll | taken | refused | sleep => exact ⟨hands, .refl⟩
  | claim _ hord hclaim => exact ⟨_, .single (.claim hord hclaim)⟩
  | claimFails _ hord hclaim => exact ⟨_, .single (.claimFails hord hclaim)⟩
  | claimPanics _ hord hclaim => exact ⟨_, .single (.claimFails hord hclaim)⟩
  | @complete w a batch t r s _ hcomplete =>
    have hstep : OutboxClients.Step checks C ⟨st.store, hands⟩ _ := .settle .complete t a.entity.id
    rw [show Settling.run checks C t st.store a.entity.id .complete = (r, s) from hcomplete] at hstep
    exact ⟨hands, .single hstep⟩
  | @release w a batch t r s _ hrelease =>
    have hstep : OutboxClients.Step checks C ⟨st.store, hands⟩ _ :=
      .settle (.release "publish failed") t a.entity.id
    rw [show Settling.run checks C t st.store a.entity.id (.release "publish failed") = (r, s) from
      hrelease] at hstep
    exact ⟨hands, .single hstep⟩
  | commit hnew hnd hcommit =>
    exact ⟨_, (run_construct hnew hands).tail
      (.commit (fun a ha => List.mem_append_right _ ha) hnd hcommit)⟩

/-- **A run of threads does to the store what a history of clients does.** -/
theorem Run.clients {spawned : W → String × Bool} (h : Run checks C (initial spawned) st) :
    ∃ hands, OutboxClients.Run checks C OutboxClients.initial ⟨st.store, hands⟩ := by
  induction h with
  | refl => exact ⟨[], .refl⟩
  | tail _ hstep ih =>
    obtain ⟨hands, hrun⟩ := ih
    obtain ⟨hands', hrun'⟩ := hstep.clients hands
    exact ⟨hands', Relation.ReflTransGen.trans hrun hrun'⟩

/-! ## The ledger -/

/-- How often publishers have taken the event of an id. -/
def deliveries (st : OutboxWorkers W) (id : String) : ℕ :=
  st.taken.countP (fun d => d.event.id = id)

/-- A thread has nothing to do with an id. -/
def Free (st : OutboxWorkers W) (id : String) (w : W) : Prop :=
  id ∉ (st.threads w).phase.unsent ∧ (st.threads w).phase.sent ≠ some id

variable (checks C) in
/-- **Where the message of an id is.** -/
inductive Ledger (st : OutboxWorkers W) (id : String) : Prop
  /-- It has not been committed. -/
  | absent (hstored : st.store.lookup id = none) (hfree : ∀ w, st.Free id w)
      (hnone : st.deliveries id = 0)
  /-- It waits for a thread. -/
  | pending {m : OutboxMessage} (hm : st.store.Message checks C id m) (hstatus : m.status = .pending)
      (hfree : ∀ w, st.Free id w) (hnone : st.deliveries id = 0)
  /-- A thread owes it to its publisher, or has been refused. -/
  | unsent {m : OutboxMessage} (hm : st.store.Message checks C id m)
      (hstatus : m.status = .inFlight) (w : W) (hw : id ∈ (st.threads w).phase.unsent)
      (hw' : (st.threads w).phase.sent ≠ some id) (hsole : ∀ w' ≠ w, st.Free id w')
      (hnone : st.deliveries id = 0)
  /-- A thread owes the store its completion. -/
  | sent {m : OutboxMessage} (hm : st.store.Message checks C id m) (hstatus : m.status = .inFlight)
      (w : W) (hw : (st.threads w).phase.sent = some id) (hw' : id ∉ (st.threads w).phase.unsent)
      (hsole : ∀ w' ≠ w, st.Free id w') (hone : st.deliveries id = 1)
  /-- It is published. -/
  | published {m : OutboxMessage} (hm : st.store.Message checks C id m)
      (hstatus : m.status = .published) (hfree : ∀ w, st.Free id w) (hone : st.deliveries id = 1)
  /-- A panic has left it in flight. -/
  | lost {m : OutboxMessage} (hm : st.store.Message checks C id m) (hstatus : m.status = .inFlight)
      (hp : st.store.poisoned = true) (hfree : ∀ w, st.Free id w) (hle : st.deliveries id ≤ 1)

namespace Ledger

variable {id : String} {w : W}

omit [DecidableEq W] in
/-- **Nothing has happened to the message.** -/
theorem frame (h : Ledger checks C st id) (hlookup : st'.store.lookup id = st.store.lookup id)
    (hunsent : ∀ w, id ∈ (st'.threads w).phase.unsent ↔ id ∈ (st.threads w).phase.unsent)
    (hsent : ∀ w, (st'.threads w).phase.sent = some id ↔ (st.threads w).phase.sent = some id)
    (hcount : st'.deliveries id = st.deliveries id)
    (hp : st.store.poisoned = true → st'.store.poisoned = true) : Ledger checks C st' id := by
  have hmessage : ∀ {m}, st.store.Message checks C id m → st'.store.Message checks C id m :=
    fun ⟨l, hl, hstory⟩ => ⟨l, hlookup.trans hl, hstory⟩
  have hfree : ∀ {w}, st.Free id w → st'.Free id w := fun {w} h =>
    ⟨fun h' => h.1 ((hunsent w).mp h'), fun h' => h.2 ((hsent w).mp h')⟩
  cases h with
  | absent hstored hf hnone =>
    exact .absent (hlookup.trans hstored) (fun w => hfree (hf w)) (hcount.trans hnone)
  | pending hm hstatus hf hnone =>
    exact .pending (hmessage hm) hstatus (fun w => hfree (hf w)) (hcount.trans hnone)
  | unsent hm hstatus w hw hw' hsole hnone =>
    exact .unsent (hmessage hm) hstatus w ((hunsent w).mpr hw) (fun h => hw' ((hsent w).mp h))
      (fun w' h => hfree (hsole w' h)) (hcount.trans hnone)
  | sent hm hstatus w hw hw' hsole hone =>
    exact .sent (hmessage hm) hstatus w ((hsent w).mpr hw) (fun h => hw' ((hunsent w).mp h))
      (fun w' h => hfree (hsole w' h)) (hcount.trans hone)
  | published hm hstatus hf hone =>
    exact .published (hmessage hm) hstatus (fun w => hfree (hf w)) (hcount.trans hone)
  | lost hm hstatus hpoisoned hf hle =>
    exact .lost (hmessage hm) hstatus (hp hpoisoned) (fun w => hfree (hf w)) (hcount.trans_le hle)

/-- **A step of one thread that has nothing to do with the message.** -/
theorem frame_set (h : Ledger checks C st id) (st' : OutboxWorkers W) {thread : OutboxWorkerThread}
    (hthreads : st'.threads = st.threads)
    (hunsent : id ∈ thread.phase.unsent ↔ id ∈ (st.threads w).phase.unsent)
    (hsent : thread.phase.sent = some id ↔ (st.threads w).phase.sent = some id)
    (hlookup : st'.store.lookup id = st.store.lookup id)
    (hcount : st'.deliveries id = st.deliveries id)
    (hp : st.store.poisoned = true → st'.store.poisoned = true) :
    Ledger checks C (st'.set w thread) id := by
  refine h.frame hlookup (fun w' => ?_) (fun w' => ?_) hcount hp
  · by_cases hw : w' = w
    · rw [hw, threads_set_self]
      exact hunsent
    · rw [threads_set_of_ne hw, hthreads]
  · by_cases hw : w' = w
    · rw [hw, threads_set_self]
      exact hsent
    · rw [threads_set_of_ne hw, hthreads]

omit [DecidableEq W] in
theorem of_absent (h : Ledger checks C st id) (hl : st.store.lookup id = none) :
    (∀ w, st.Free id w) ∧ st.deliveries id = 0 := by
  have hnot : ∀ {m}, ¬ st.store.Message checks C id m := fun ⟨l, hl', _⟩ => by
    rw [hl] at hl'
    cases hl'
  cases h with
  | absent _ hfree hnone => exact ⟨hfree, hnone⟩
  | pending hm | unsent hm | sent hm | published hm | lost hm => exact absurd hm hnot

omit [DecidableEq W] in
/-- **A pending message** is in nobody's hands and has not been delivered. -/
theorem of_pending (hC : C.Lawful) (h : Ledger checks C st id) {m : OutboxMessage}
    (hm : st.store.Message checks C id m) (hstatus : m.status = .pending) :
    (∀ w, st.Free id w) ∧ st.deliveries id = 0 := by
  have hnot : ∀ {m'}, st.store.Message checks C id m' → m'.status ≠ .pending → False :=
    fun hm' hne => hne (hm.unique hC hm' ▸ hstatus)
  cases h with
  | absent hstored hfree hnone => exact ⟨hfree, hnone⟩
  | pending _ _ hfree hnone => exact ⟨hfree, hnone⟩
  | unsent hm' hstatus' => exact (hnot hm' (by rw [hstatus']; decide)).elim
  | sent hm' hstatus' => exact (hnot hm' (by rw [hstatus']; decide)).elim
  | published hm' hstatus' => exact (hnot hm' (by rw [hstatus']; decide)).elim
  | lost hm' hstatus' => exact (hnot hm' (by rw [hstatus']; decide)).elim

/-- **A message that a thread has not sent** is in flight, in its hands alone, and has not
been delivered. -/
theorem of_unsent (h : Ledger checks C st id) (hw : id ∈ (st.threads w).phase.unsent) :
    (∃ m, st.store.Message checks C id m ∧ m.status = .inFlight)
      ∧ (st.threads w).phase.sent ≠ some id ∧ (∀ w' ≠ w, st.Free id w') ∧ st.deliveries id = 0 := by
  cases h with
  | absent _ hfree _ => exact absurd hw (hfree w).1
  | pending _ _ hfree _ => exact absurd hw (hfree w).1
  | published _ _ hfree _ => exact absurd hw (hfree w).1
  | lost _ _ _ hfree _ => exact absurd hw (hfree w).1
  | unsent hm hstatus w₀ _ hsent hsole hnone =>
    obtain rfl : w₀ = w := by
      by_contra hne
      exact (hsole w (Ne.symm hne)).1 hw
    exact ⟨⟨_, hm, hstatus⟩, hsent, hsole, hnone⟩
  | sent _ _ w₀ _ hunsent hsole _ =>
    by_cases hne : w₀ = w
    · rw [hne] at hunsent
      exact absurd hw hunsent
    · exact absurd hw (hsole w (Ne.symm hne)).1

/-- **A message that a thread has sent** is in flight, in its hands alone, and has been
delivered once. -/
theorem of_sent (h : Ledger checks C st id) (hw : (st.threads w).phase.sent = some id) :
    (∃ m, st.store.Message checks C id m ∧ m.status = .inFlight)
      ∧ id ∉ (st.threads w).phase.unsent ∧ (∀ w' ≠ w, st.Free id w') ∧ st.deliveries id = 1 := by
  cases h with
  | absent _ hfree _ => exact absurd hw (hfree w).2
  | pending _ _ hfree _ => exact absurd hw (hfree w).2
  | published _ _ hfree _ => exact absurd hw (hfree w).2
  | lost _ _ _ hfree _ => exact absurd hw (hfree w).2
  | sent hm hstatus w₀ _ hunsent hsole hone =>
    obtain rfl : w₀ = w := by
      by_contra hne
      exact (hsole w (Ne.symm hne)).2 hw
    exact ⟨⟨_, hm, hstatus⟩, hunsent, hsole, hone⟩
  | unsent _ _ w₀ _ hsent hsole _ =>
    by_cases hne : w₀ = w
    · rw [hne] at hsent
      exact absurd hw hsent
    · exact absurd hw (hsole w (Ne.symm hne)).2

omit [DecidableEq W] in
theorem deliveries_le (h : Ledger checks C st id) : st.deliveries id ≤ 1 := by
  cases h with
  | absent _ _ hnone | pending _ _ _ hnone | unsent _ _ _ _ _ _ hnone =>
    exact hnone.trans_le (Nat.zero_le 1)
  | sent _ _ _ _ _ _ hone | published _ _ _ hone => exact hone.le
  | lost _ _ _ _ hle => exact hle

omit [DecidableEq W] in
/-- A published message was handed over. -/
theorem of_published (hC : C.Lawful) (h : Ledger checks C st id) {m : OutboxMessage}
    (hm : st.store.Message checks C id m) (hstatus : m.status = .published) : st.deliveries id = 1 := by
  cases h with
  | published _ _ _ hone => exact hone
  | absent hnone _ _ =>
    obtain ⟨l, hl, -⟩ := hm
    rw [hl] at hnone
    cases hnone
  | pending hm' hstatus' | unsent hm' hstatus' | sent hm' hstatus' | lost hm' hstatus' =>
    rw [hm'.unique hC hm, hstatus] at hstatus'
    cases hstatus'

end Ledger

variable (checks C) in
/-- **Every message is in one place**, and no batch has a message twice. -/
structure Inv (st : OutboxWorkers W) : Prop where
  ledger : ∀ id, Ledger checks C st id
  nodup : ∀ w, (st.threads w).phase.unsent.Nodup

omit [DecidableEq W] in
theorem inv_initial (spawned : W → String × Bool) : Inv checks C (initial spawned) :=
  ⟨fun _ => .absent rfl (fun _ => ⟨List.not_mem_nil, fun h => nomatch h⟩) rfl, fun _ => List.nodup_nil⟩

namespace Inv

open EventStore (Claims ClaimResult Stories)

variable {w : W}

theorem nodup_set (h : Inv checks C st) {thread : OutboxWorkerThread}
    (hthreads : st'.threads = st.threads) (hnd : thread.phase.unsent.Nodup) (w' : W) :
    ((st'.set w thread).threads w').phase.unsent.Nodup := by
  by_cases hw : w' = w
  · rw [hw, threads_set_self]
    exact hnd
  · rw [threads_set_of_ne hw, hthreads]
    exact h.nodup w'

/-- **A step that moves no message.** -/
theorem same (h : Inv checks C st) {thread : OutboxWorkerThread}
    (hunsent : thread.phase.unsent = (st.threads w).phase.unsent)
    (hsent : thread.phase.sent = (st.threads w).phase.sent) : Inv checks C (st.set w thread) :=
  ⟨fun id => (h.ledger id).frame_set st rfl (by rw [hunsent]) (by rw [hsent]) rfl rfl (fun hp => hp),
    h.nodup_set rfl (hunsent ▸ h.nodup w)⟩

/-- **Messages claimed**: they were pending, and now the thread has them, or nobody has
them and the lock is poisoned. -/
theorem ledger_claims (hC : C.Lawful) (h : Inv checks C st) {s : EventStore} {ids : List String}
    {clock : String → Readings} {workerId : String} {lease : Duration}
    {new : List (Agg OutboxMessage)}
    (hclaims : Claims checks C clock workerId lease ids st.store s new)
    (hphase : (st.threads w).phase = .claiming) {thread : OutboxWorkerThread}
    (hsent : thread.phase.sent = none) (hp : st.store.poisoned = true → s.poisoned = true)
    (hunsent : thread.phase.unsent = new.map (fun a => a.entity.id)
      ∨ thread.phase.unsent = [] ∧ s.poisoned = true) (id : String) :
    Ledger checks C ((st.withStore s).set w thread) id := by
  have hidle : (st.threads w).phase.unsent = [] ∧ (st.threads w).phase.sent = none := by
    rw [hphase]
    exact ⟨rfl, rfl⟩
  by_cases hid : id ∈ new.map (fun a => a.entity.id)
  · obtain ⟨a, ha, rfl⟩ := List.mem_map.mp hid
    obtain ⟨hstored, m, m', ⟨_, l, -, hl, hadv⟩, -, -⟩ := hclaims.each a ha
    have hpending := hadv.claimed.1
    have hnext := hadv.took.next
    rw [hpending] at hnext
    have hflight : m'.status = .inFlight := (Option.some.inj hnext).symm
    have hm' : ((st.withStore s).set w thread).store.Message checks C a.entity.id m' :=
      ⟨_, hstored, hadv.after⟩
    obtain ⟨hfree, hnone⟩ := (h.ledger a.entity.id).of_pending hC ⟨l, hl, hadv.before⟩ hpending
    have hothers : ∀ w' ≠ w, Free ((st.withStore s).set w thread) a.entity.id w' := fun w' hw' => by
      rw [Free, threads_set_of_ne hw']
      exact hfree w'
    cases hunsent with
    | inl hbatch =>
      refine .unsent hm' hflight w ?_ ?_ hothers hnone
      · rw [threads_set_self, hbatch]
        exact hid
      · rw [threads_set_self, hsent]
        exact Option.some_ne_none _ ∘ Eq.symm
    | inr hlost =>
      refine .lost hm' hflight hlost.2 (fun w' => ?_) (hnone.trans_le (Nat.zero_le 1))
      by_cases hw' : w' = w
      · rw [hw', Free, threads_set_self, hlost.1, hsent]
        exact ⟨List.not_mem_nil, fun h => nomatch h⟩
      · exact hothers w' hw'
  · refine (h.ledger id).frame_set (st.withStore s) rfl ?_ ?_ (hclaims.others id hid) rfl hp
    · rw [hidle.1]
      cases hunsent with
      | inl hbatch => rw [hbatch]; exact ⟨fun h => absurd h hid, fun h => absurd h List.not_mem_nil⟩
      | inr hlost => rw [hlost.1]
    · rw [hsent, hidle.2]

/-- **A publisher takes a message.** -/
theorem taken (h : Inv checks C st) {a : Agg OutboxMessage} {batch : List (Agg OutboxMessage)}
    (hphase : (st.threads w).phase = .publishing (a :: batch)) {destination : Option String}
    {event : Event} (hevent : event.id = a.entity.id) {thread : OutboxWorkerThread}
    (hthread : thread.phase = .settling true a batch) :
    Inv checks C ((st.deliver destination event).set w thread) := by
  have hunsent : (st.threads w).phase.unsent = a.entity.id :: batch.map (fun a => a.entity.id) := by
    rw [hphase]
    rfl
  have hnew : thread.phase.unsent = batch.map (fun a => a.entity.id)
      ∧ thread.phase.sent = some a.entity.id := by
    rw [hthread]
    exact ⟨rfl, rfl⟩
  have hnd := h.nodup w
  rw [hunsent] at hnd
  obtain ⟨hnot, hnd'⟩ := List.nodup_cons.mp hnd
  have hcount : ∀ id, (st.deliver destination event).deliveries id
      = st.deliveries id + if a.entity.id = id then 1 else 0 := fun id => by
    show (st.taken ++ [_]).countP _ = _
    rw [List.countP_append, List.countP_singleton, hevent]
    simp [deliveries]
  refine ⟨fun id => ?_, h.nodup_set rfl (hnew.1 ▸ hnd')⟩
  by_cases hid : a.entity.id = id
  · subst hid
    obtain ⟨⟨m, hm, hstatus⟩, -, hsole, hnone⟩ := (h.ledger a.entity.id).of_unsent (w := w)
      (hunsent ▸ List.mem_cons_self)
    refine .sent (m := m) hm hstatus w ?_ ?_ (fun w' hw' => ?_) ?_
    · rw [threads_set_self]
      exact hnew.2
    · rw [threads_set_self, hnew.1]
      exact hnot
    · rw [Free, threads_set_of_ne hw']
      exact hsole w' hw'
    · show (st.deliver destination event).deliveries a.entity.id = 1
      rw [hcount, hnone, if_pos rfl]
  · refine (h.ledger id).frame_set (st.deliver destination event) rfl ?_ ?_ rfl ?_ (fun hp => hp)
    · rw [hnew.1, hunsent, List.mem_cons]
      exact ⟨Or.inr, fun h => h.resolve_left (Ne.symm hid)⟩
    · rw [hnew.2, hphase]
      exact ⟨fun h => absurd (Option.some.inj h) hid, fun h => nomatch h⟩
    · rw [hcount, if_neg hid, Nat.add_zero]

variable (checks C) in
/-- **A message that a thread is about to settle**: it is in flight and in the hands of
the thread alone, which has it once; and it has been delivered if it was taken. -/
structure Settles (st : OutboxWorkers W) (w : W) (wasTaken : Bool) (a : Agg OutboxMessage)
    (batch : List (Agg OutboxMessage)) : Prop where
  flight : ∃ m, st.store.Message checks C a.entity.id m ∧ m.status = .inFlight
  notMem : a.entity.id ∉ batch.map (fun a => a.entity.id)
  sole : ∀ w' ≠ w, st.Free a.entity.id w'
  count : st.deliveries a.entity.id = if wasTaken then 1 else 0
  nodup : (batch.map (fun a => a.entity.id)).Nodup
  others : ∀ id ≠ a.entity.id,
    (id ∈ (st.threads w).phase.unsent ↔ id ∈ batch.map (fun a => a.entity.id))
      ∧ (st.threads w).phase.sent ≠ some id

/-- A thread that settles a message is alone with it. -/
theorem settles (h : Inv checks C st) {wasTaken : Bool} {a : Agg OutboxMessage}
    {batch : List (Agg OutboxMessage)} (hphase : (st.threads w).phase = .settling wasTaken a batch) :
    Settles checks C st w wasTaken a batch := by
  have hnd := h.nodup w
  cases wasTaken with
  | true =>
    obtain ⟨hm, hnot, hsole, hone⟩ := (h.ledger a.entity.id).of_sent (w := w) (by rw [hphase]; rfl)
    rw [hphase] at hnot hnd
    refine ⟨hm, hnot, hsole, hone, hnd, fun id hid => ?_⟩
    rw [hphase]
    exact ⟨Iff.rfl, fun h => hid (Option.some.inj h).symm⟩
  | false =>
    obtain ⟨hm, -, hsole, hnone⟩ := (h.ledger a.entity.id).of_unsent (w := w)
      (by rw [hphase]; exact List.mem_cons_self)
    rw [hphase] at hnd
    obtain ⟨hnot, hnd'⟩ := List.nodup_cons.mp (show (a.entity.id :: batch.map _).Nodup from hnd)
    refine ⟨hm, hnot, hsole, hnone, hnd', fun id hid => ?_⟩
    rw [hphase]
    refine ⟨?_, fun h => nomatch h⟩
    show id ∈ a.entity.id :: batch.map _ ↔ _
    rw [List.mem_cons]
    exact ⟨fun h => h.resolve_left hid, Or.inr⟩

section Settled

variable {wasTaken : Bool} {a : Agg OutboxMessage} {batch : List (Agg OutboxMessage)}
  {s : EventStore} {thread : OutboxWorkerThread}

theorem Settles.free (hs : Settles checks C st w wasTaken a batch)
    (hthread : thread.phase = .publishing batch) (w' : W) :
    Free ((st.withStore s).set w thread) a.entity.id w' := by
  by_cases hw' : w' = w
  · rw [hw', Free, threads_set_self, hthread]
    exact ⟨hs.notMem, fun h => nomatch h⟩
  · rw [Free, threads_set_of_ne hw']
    exact hs.sole w' hw'

/-- The other messages are where they were. -/
theorem Settles.frame (hs : Settles checks C st w wasTaken a batch) (h : Inv checks C st)
    (hthread : thread.phase = .publishing batch)
    (hothers : ∀ id ≠ a.entity.id, s.lookup id = st.store.lookup id)
    (hp : st.store.poisoned = true → s.poisoned = true) {id : String} (hid : id ≠ a.entity.id) :
    Ledger checks C ((st.withStore s).set w thread) id := by
  refine (h.ledger id).frame_set (st.withStore s) rfl ?_ ?_ (hothers id hid) rfl hp
  · rw [hthread]
    exact (hs.others id hid).1.symm
  · rw [hthread]
    exact ⟨fun h => (nomatch h), fun h => absurd h (hs.others id hid).2⟩

/-- **A thread completes the message that was taken, or releases it.** -/
theorem settled (hC : C.Lawful) (h : Inv checks C st)
    (hphase : (st.threads w).phase = .settling wasTaken a batch) {u : Settling}
    (hu : wasTaken = true ∧ u = .complete ∨ wasTaken = false ∧ ∃ error, u = .release error)
    {t : Readings} {r : RepoRes Unit} (hrun : u.run checks C t st.store a.entity.id = (r, s))
    (hthread : thread.phase = .publishing batch) :
    Inv checks C ((st.withStore s).set w thread) := by
  have hs := h.settles hphase
  obtain ⟨m, hm, hstatus⟩ := hs.flight
  have hnormal : normalizeId a.entity.id = a.entity.id := by
    obtain ⟨l, -, hstory⟩ := hm
    exact OutboxMessage.normalizeId_of_hasPrefix hstory.hasPrefix
  have hnd : thread.phase.unsent.Nodup := by
    rw [hthread]
    exact hs.nodup
  refine ⟨fun id => ?_, h.nodup_set rfl hnd⟩
  cases hp : st.store.poisoned with
  | true =>
    -- the operation is refused, and the message stays in flight
    rw [u.run_of_poisoned hp] at hrun
    obtain rfl : st.store = s := (Prod.mk.inj hrun).2
    by_cases hid : id = a.entity.id
    · subst hid
      refine .lost (m := m) hm hstatus hp (hs.free hthread) ?_
      show st.deliveries a.entity.id ≤ 1
      rw [hs.count]
      split <;> decide
    · exact hs.frame h hthread (fun _ _ => rfl) (fun hp => hp) hid
  | false =>
    obtain ⟨s', hrun', hsettled⟩ := u.run_spec (t := t) hC hp (hnormal.symm ▸ hm)
    rw [hrun] at hrun'
    obtain rfl : s = s' := (Prod.mk.inj hrun').2
    rw [hnormal] at hsettled
    have hsettles : u.settles m = true := by
      cases hu with
      | inl hu => rw [hu.2]; exact decide_eq_true hstatus
      | inr hu =>
        obtain ⟨-, error, rfl⟩ := hu
        exact decide_eq_true hstatus
    cases hsettled with
    | inl hsame => exact absurd (hsame.1.symm.trans hsettles) Bool.false_ne_true
    | inr hadvanced =>
      obtain ⟨l, l', -, hl', hadv⟩ := hadvanced.2.stored
      by_cases hid : id = a.entity.id
      · subst hid
        cases hu with
        | inl hu =>
          obtain ⟨rfl, rfl⟩ := hu
          exact .published (m := Settling.after m .complete) ⟨l', hl', hadv.after⟩ rfl
            (hs.free hthread) hs.count
        | inr hu =>
          obtain ⟨rfl, error, rfl⟩ := hu
          exact .pending (m := Settling.after m (.release error)) ⟨l', hl', hadv.after⟩ rfl
            (hs.free hthread) hs.count
      · exact hs.frame h hthread hadvanced.2.others
          (fun hp' => absurd (hp'.symm.trans hp) Bool.noConfusion) hid

end Settled

omit [DecidableEq W] in
/-- **New messages committed.** -/
theorem commit (h : Inv checks C st) (hstories : Stories checks C st.store)
    {batch : List (Agg OutboxMessage)}
    (hnew : ∀ a ∈ batch, ∃ (now : SystemTime) (id eventType : String) (payload : Bytes)
      (destination : Option String) (metadata : Metadata),
      OutboxMessage.construct C now id eventType payload destination metadata = some a)
    (hnd : (batch.map (fun a => a.entity.id)).Nodup) {r : RepoRes Unit} {es : List Entity}
    {s : EventStore} (hcommit : st.store.commit (batch.map Agg.entity) = (r, es, s)) :
    Inv checks C (st.withStore s) := by
  have hhands : ∀ a ∈ batch, st.store.Hand checks C a := fun a ha => by
    obtain ⟨now, id, eventType, payload, destination, metadata, hconstruct⟩ := hnew a ha
    exact .construct hconstruct _
  rcases EventStore.commit_hands hhands hnd hcommit with ⟨-, -, rfl⟩ | ⟨-, -, hp, hstored, hothers⟩
  · exact h
  · refine ⟨fun id => ?_, h.nodup⟩
    by_cases hid : id ∈ batch.map (fun a => a.entity.id)
    · obtain ⟨a, ha, rfl⟩ := List.mem_map.mp hid
      obtain ⟨hstream, hl'⟩ := hstored a ha
      obtain ⟨now, id, eventType, payload, destination, metadata, hconstruct⟩ := hnew a ha
      obtain ⟨b, hb, -, hcommitted, -, htells⟩ :=
        Tells.construct checks C now id eventType payload destination metadata
      obtain rfl : b = a := Option.some.inj (hb.symm.trans hconstruct)
      -- the version check says that nothing was stored under the id
      have hnone : st.store.lookup b.entity.id = none := by
        rw [hcommitted, List.take_zero] at hstream
        cases hl : st.store.lookup b.entity.id with
        | none => rfl
        | some l =>
          obtain ⟨m, hstory⟩ := hstories _ l hl htells.story.hasPrefix
          rw [EventStore.lookup_eq_some hl] at hstream
          exact absurd hstream hstory.ne_nil
      obtain ⟨hfree, hnever⟩ := (h.ledger b.entity.id).of_absent hnone
      exact .pending ⟨_, hl', htells.story⟩ rfl hfree hnever
    · exact (h.ledger id).frame (hothers id hid) (fun _ => Iff.rfl) (fun _ => Iff.rfl) rfl
        (fun hpoisoned => hp.trans hpoisoned)

/-- **Every step keeps every message in one place.** -/
theorem step (hC : C.Lawful) (hstories : Stories checks C st.store) (h : Inv checks C st)
    (hstep : Step checks C st st') : Inv checks C st' := by
  cases hstep with
  | signal w => exact h.same rfl rfl
  | stop hphase => exact h.same (by rw [hphase]; rfl) (by rw [hphase]; rfl)
  | poll hphase => exact h.same (by rw [hphase]; rfl) (by rw [hphase]; rfl)
  | sleep hphase => exact h.same (by rw [hphase]; rfl) (by rw [hphase]; rfl)
  | refused hphase => exact h.same (by rw [hphase]; rfl) (by rw [hphase]; rfl)
  | taken hphase hentries => exact h.taken hphase (Event.id_withAll _ _) rfl
  | complete hphase hcomplete =>
    exact h.settled hC hphase (u := .complete) (Or.inl ⟨rfl, rfl⟩) hcomplete rfl
  | release hphase hrelease =>
    exact h.settled hC hphase (u := .release "publish failed") (Or.inr ⟨rfl, _, rfl⟩)
      hrelease rfl
  | commit hnew hnd hcommit => exact h.commit hstories hnew hnd hcommit
  | @claim w ord clock batch s hphase hord hclaim =>
    obtain ⟨hp, hclaims⟩ := EventStore.claims_of_claim hC hstories hord hclaim
    exact ⟨h.ledger_claims hC hclaims hphase rfl (fun hp' => absurd (hp'.symm.trans hp)
      Bool.noConfusion) (Or.inl rfl), h.nodup_set rfl (hclaims.sublist.nodup hord.1)⟩
  | @claimFails w ord clock e s hphase hord hclaim =>
    cases hp : st.store.poisoned with
    | true =>
      rw [EventStore.claimOutboxMessages, hp] at hclaim
      obtain rfl : st.store = s := (Prod.mk.inj hclaim).2
      exact h.same (by rw [hphase]; rfl) (by rw [hphase]; rfl)
    | false =>
      cases EventStore.claimOutboxMessages_spec hC hstories hp hord hclaim
  | @claimPanics w ord clock s hphase hord hclaim =>
    cases hp : st.store.poisoned with
    | true =>
      rw [EventStore.claimOutboxMessages, hp] at hclaim
      cases hclaim
    | false =>
      cases EventStore.claimOutboxMessages_spec hC hstories hp hord hclaim with
      | panic hclaims hp' _ =>
        exact ⟨h.ledger_claims hC hclaims hphase rfl (fun _ => hp') (Or.inr ⟨rfl, hp'⟩),
          h.nodup_set rfl List.nodup_nil⟩

/-- **In every run every message is in one place.** -/
theorem run (hC : C.Lawful) {spawned : W → String × Bool}
    (hrun : Run checks C (initial spawned) st) : Inv checks C st := by
  induction hrun with
  | refl => exact inv_initial spawned
  | tail hrun hstep ih =>
    obtain ⟨hands, hclients⟩ := Run.clients hrun
    exact ih.step hC (OutboxClients.inv_initial.run hC hclients).1.stories hstep

end Inv

/-- **Threads publish every message once and lose none.** In every run every message has
been taken by a publisher at most once; exactly once if it is published, and never if it is
pending. As long as no claim has panicked, a message in flight is in the batch of exactly
one thread, and so none is in flight once all threads have ended. -/
theorem publish_once (hC : C.Lawful) {spawned : W → String × Bool}
    (hrun : Run checks C (initial spawned) st) (id : String) :
    st.deliveries id ≤ 1
      ∧ ∀ a, st.store.Loads checks C id a →
        (a.fields.status = .published → st.deliveries id = 1)
        ∧ (a.fields.status = .pending → st.deliveries id = 0)
        ∧ (st.store.poisoned = false → a.fields.status = .inFlight →
          ∃! w, id ∈ (st.threads w).phase.batch.map (fun b => b.entity.id))
        ∧ (st.store.poisoned = false → (∀ w, (st.threads w).phase.Ended) →
          a.fields.status ≠ .inFlight) := by
  have hledger := (Inv.run hC hrun).ledger id
  obtain ⟨hands, hclients⟩ := Run.clients hrun
  have hstories := (OutboxClients.inv_initial.run hC hclients).1.stories
  have hcount : st.deliveries id ≤ 1 := by
    cases hledger with
    | absent _ _ hnone | pending _ _ _ hnone | unsent _ _ _ _ _ _ hnone => exact hnone.trans_le (Nat.zero_le 1)
    | sent _ _ _ _ _ _ hone | published _ _ _ hone => exact hone.le
    | lost _ _ _ _ hle => exact hle
  refine ⟨hcount, fun a ha => ?_⟩
  obtain ⟨m, now, hm, hfields⟩ := hstories.message hC ha
  have hstatus : a.fields.status = m.status := (congrArg OutboxMessage.status hfields).trans rfl
  have hunique : st.store.poisoned = false → m.status = .inFlight →
      ∃! w, id ∈ (st.threads w).phase.batch.map (fun b => b.entity.id) := by
    intro hp hflight
    -- a message in flight is with the one thread that owes it something
    have hsole : ∀ w, (id ∈ (st.threads w).phase.unsent ∨ (st.threads w).phase.sent = some id) →
        (∀ w' ≠ w, st.Free id w') →
        ∃! w, id ∈ (st.threads w).phase.batch.map (fun b => b.entity.id) := by
      intro w hw hothers
      refine ⟨w, WorkerPhase.mem_batch.mpr hw, fun w' hw' => ?_⟩
      by_contra hne
      exact (WorkerPhase.mem_batch.mp hw').elim (hothers w' hne).1 (hothers w' hne).2
    cases hledger with
    | unsent _ _ w hw _ hothers _ => exact hsole w (Or.inl hw) hothers
    | sent _ _ w hw _ hothers _ => exact hsole w (Or.inr hw) hothers
    | absent hnone _ _ =>
      obtain ⟨l, hl, -⟩ := hm
      rw [hl] at hnone
      cases hnone
    | pending hm' hstatus' | published hm' hstatus' =>
      rw [hm'.unique hC hm, hflight] at hstatus'
      cases hstatus'
    | lost _ _ hpoisoned => exact absurd (hp.symm.trans hpoisoned) Bool.false_ne_true
  rw [hstatus]
  refine ⟨fun hpublished => ?_, fun hpending => (hledger.of_pending hC hm hpending).2, hunique,
    fun hp hended hflight => ?_⟩
  · cases hledger with
    | published _ _ _ hone => exact hone
    | absent hnone _ _ =>
      obtain ⟨l, hl, -⟩ := hm
      rw [hl] at hnone
      cases hnone
    | pending hm' hstatus' | unsent hm' hstatus' | sent hm' hstatus' | lost hm' hstatus' =>
      rw [hm'.unique hC hm, hpublished] at hstatus'
      cases hstatus'
  · obtain ⟨w, hw, -⟩ := hunique hp hflight
    rw [(hended w).batch_eq] at hw
    exact absurd hw List.not_mem_nil

/-! ## A claim that panics -/

/-- A reading at the epoch. -/
def epoch : Readings := ⟨SystemTime.unixEpoch, SystemTime.unixEpoch, SystemTime.unixEpoch⟩

theorem claimPanics_epoch {m : OutboxMessage} :
    EventStore.ClaimPanics checks epoch OutboxWorkerThread.lease m
      ↔ addU32 checks m.attempts 1 = none := by
  have hsome := SystemTime.isSome_unixEpoch_add (n := 60) (by decide) (by decide)
  refine ⟨fun h => h.resolve_left (fun hnone => ?_), Or.inr⟩
  have hnone' : SystemTime.unixEpoch.add (.fromSecs 60 (by decide)) = none := hnone
  rw [hnone'] at hsome
  cases hsome

/-- **A thread claims one message and is refused it**, and comes back to where it was. -/
theorem Run.refused_round {w : W} (hphase : (st.threads w).phase = .checking)
    (hstop : (st.threads w).stop = false) {ord : List String} {clock : String → Readings}
    {a : Agg OutboxMessage} {t : Readings} {r : RepoRes Unit} {s₁ s₂ : EventStore}
    (hord : st.store.Enumerates ord)
    (hclaim : st.store.claimOutboxMessages checks C ord clock (st.threads w).workerId
      OutboxWorkerThread.batchSize OutboxWorkerThread.lease = (.ok [a], s₁))
    (hrelease : s₁.releaseOutboxMessage checks C t a.entity.id "publish failed" = (r, s₂)) :
    ∃ st', Run checks C st st' ∧ st'.store = s₂ ∧ (st'.threads w).phase = .checking
      ∧ (st'.threads w).stop = false := by
  -- the thread after each of the five steps
  obtain ⟨st₁, h₁, hstore₁, hthread₁⟩ : ∃ st₁, Step checks C st st₁ ∧ st₁.store = st.store
      ∧ st₁.threads w = { st.threads w with
        phase := .claiming
        stats := { (st.threads w).stats with polls := (st.threads w).stats.polls + 1 } } :=
    ⟨_, .poll hphase hstop, rfl, threads_set_self ..⟩
  obtain ⟨st₂, h₂, hstore₂, hthread₂⟩ : ∃ st₂, Step checks C st₁ st₂ ∧ st₂.store = s₁
      ∧ st₂.threads w = { st₁.threads w with phase := .publishing [a] } :=
    ⟨_, .claim (w := w) (by rw [hthread₁]) (hstore₁ ▸ hord)
      (by rw [hstore₁, hthread₁]; exact hclaim), rfl, threads_set_self ..⟩
  obtain ⟨st₃, h₃, hstore₃, hthread₃⟩ : ∃ st₃, Step checks C st₂ st₃ ∧ st₃.store = s₁
      ∧ st₃.threads w = { st₂.threads w with phase := .settling false a [] } :=
    ⟨_, .refused (w := w) (by rw [hthread₂]), hstore₂, threads_set_self ..⟩
  obtain ⟨st₄, h₄, hstore₄, hthread₄⟩ : ∃ st₄, Step checks C st₃ st₄ ∧ st₄.store = s₂
      ∧ (st₄.threads w).phase = .publishing [] ∧ (st₄.threads w).stop = (st₃.threads w).stop :=
    ⟨_, .release (w := w) (by rw [hthread₃]) (by rw [hstore₃]; exact hrelease), rfl,
      by rw [threads_set_self], by rw [threads_set_self]⟩
  obtain ⟨st₅, h₅, hstore₅, hthread₅⟩ : ∃ st₅, Step checks C st₄ st₅ ∧ st₅.store = s₂
      ∧ st₅.threads w = { st₄.threads w with phase := .checking } :=
    ⟨_, .sleep (w := w) hthread₄.1, hstore₄, threads_set_self ..⟩
  refine ⟨st₅, ((((Relation.ReflTransGen.single h₁).tail h₂).tail h₃).tail h₄).tail h₅, hstore₅,
    by rw [hthread₅], ?_⟩
  rw [hthread₅]
  show (st₄.threads w).stop = false
  rw [hthread₄.2, hthread₃, hthread₂, hthread₁]
  exact hstop

/-- **A thread that is refused one message any number of times**, as far as `attempts` can
count it. -/
theorem refused_rounds (checks : OverflowChecks) (hC : C.Lawful) {n : ℕ} (hn : n < 2 ^ 32) :
    ∃ (st : OutboxWorkers Unit) (l : List EventRecord) (m : OutboxMessage),
      Run checks C (initial fun _ => ("w", false)) st
        ∧ (st.threads ()).phase = .checking ∧ (st.threads ()).stop = false
        ∧ st.store.Single checks C "outbox:m" l m ∧ OutboxMessage.claims l = n := by
  induction n with
  | zero =>
    obtain ⟨a, es, s, l, m, ha, hcommit, hsingle, hclaims⟩ :=
      EventStore.Single.exists_commit checks C [] ∅
    have hstep : Step checks C (initial fun _ : Unit => ("w", false)) _ :=
      .commit (fun b (hb : b ∈ [a]) => List.mem_singleton.mp hb ▸ ⟨_, _, _, _, _, _, ha⟩)
        (List.nodup_singleton _) hcommit
    exact ⟨_, l, m, .single hstep, rfl, rfl, hsingle, hclaims⟩
  | succ n ih =>
    obtain ⟨st, l, m, hrun, hphase, hstop, hsingle, hclaims⟩ := ih (Nat.lt_of_succ_lt hn)
    have hpanic : ¬ EventStore.ClaimPanics checks epoch OutboxWorkerThread.lease m := by
      rw [claimPanics_epoch, addU32_one_eq_none]
      rintro ⟨hchecks, hlt⟩
      exact hlt (by rw [hsingle.story.machine.2.1.2 hchecks, hclaims]; exact hn)
    obtain ⟨a, s₁, s₂, l₂, m₂, hclaim, hid, hrelease, hsingle₂, hclaims₂⟩ := hsingle.round hC
      (fun _ => epoch) (st.threads ()).workerId
      (show 1 < OutboxWorkerThread.batchSize by decide) hpanic "publish failed" epoch
    rw [← hid] at hrelease
    obtain ⟨st', hround, hstore, hphase', hstop'⟩ :=
      Run.refused_round hphase hstop hsingle.enumerates hclaim hrelease
    exact ⟨st', l₂, m₂, Relation.ReflTransGen.trans hrun hround, hphase', hstop', hstore ▸ hsingle₂,
      by rw [hclaims₂, hclaims]⟩

/-- A message refused once has not been delivered. -/
theorem publish_once_refused : ∃ (st : OutboxWorkers Unit) (a : Agg OutboxMessage),
    Run true Codecs.counting (initial fun _ => ("w", false)) st
      ∧ st.store.Loads true Codecs.counting "outbox:m" a ∧ st.deliveries "outbox:m" = 0 := by
  obtain ⟨st, l, m, hrun, -, -, hsingle, -⟩ :=
    refused_rounds true Codecs.counting_lawful (n := 1) (by decide)
  obtain ⟨l', hloads⟩ := EventStore.Message.loads Codecs.counting_lawful
    (show st.store.Message true Codecs.counting "outbox:m" m from
      ⟨l, hsingle.stored, hsingle.story⟩) SystemTime.unixEpoch
  obtain ⟨-, hmessage⟩ := publish_once Codecs.counting_lawful hrun "outbox:m"
  exact ⟨st, _, hrun, hloads, (hmessage _ hloads).2.1 hsingle.pending⟩

/-- **A claim of two messages that panics at the second** leaves the first in flight. -/
theorem claim_panics_second (hC : C.Lawful) {s : EventStore} (clock : String → Readings)
    (workerId : String) {max : ℕ} {lease : Duration} {id₁ id₂ : String} {m₁ m₂ : OutboxMessage}
    (hp : s.poisoned = false) (hne : id₁ ≠ id₂) (h₁ : s.Message checks C id₁ m₁)
    (hpending₁ : m₁.status = .pending) (hcan : ¬ EventStore.ClaimPanics checks (clock id₁) lease m₁)
    (h₂ : s.Message checks C id₂ m₂) (hpending₂ : m₂.status = .pending)
    (hcannot : EventStore.ClaimPanics checks (clock id₂) lease m₂) (hmax : 1 < max) :
    ∃ s' m', s.claimOutboxMessages checks C [id₁, id₂] clock workerId max lease = (.error .panic, s')
      ∧ s'.Message checks C id₁ m' ∧ m'.status = .inFlight := by
  obtain ⟨l₁, hl₁, hstory₁⟩ := h₁
  obtain ⟨l₂, hl₂, hstory₂⟩ := h₂
  rw [EventStore.claimOutboxMessages, hp, if_neg Bool.false_ne_true,
    EventStore.claimLoop_pending hC hl₁ hstory₁ hpending₁]
  cases hclaim : OutboxMessage.claimFor checks C (clock id₁) workerId lease
      ⟨m₁.inHand (clock id₁).replay m₁.metadata, EventStore.loadEntity id₁ l₁⟩ with
  | none => exact absurd ((EventStore.claimFor_eq_none hpending₁).mp hclaim) hcan
  | some a =>
    obtain ⟨heq, m', hfrom⟩ := EventStore.claimFor_spec (s := s) hstory₁ hl₁ hpending₁ hclaim
    subst heq
    obtain ⟨_, _, -, -, hadv⟩ := hfrom.claimed
    have hnext := hadv.took.next
    rw [hpending₁] at hnext
    have hl₂' : (s.put a.entity.id a.entity.events).lookup id₂ = some l₂ :=
      (EventStore.lookup_put_of_ne s (Ne.symm hne) _).trans hl₂
    have hroom : ¬ max ≤ ([] ++ [({ a with entity := a.entity.markCommitted } : Agg OutboxMessage)]).length :=
      Nat.not_le.mpr hmax
    dsimp only
    rw [if_neg hroom,
      EventStore.claimLoop_pending hC hl₂' hstory₂ hpending₂,
      (EventStore.claimFor_eq_none hpending₂).mpr hcannot]
    exact ⟨_, m', rfl, ⟨_, EventStore.lookup_put_self s _ _, hadv.after⟩, (Option.some.inj hnext).symm⟩

/-- **Another message committed** to a store with one message. -/
theorem commit_second {s : EventStore} {l : List EventRecord} {m : OutboxMessage}
    (h : s.Single checks C "outbox:m" l m) : ∃ b es s' m₁,
      OutboxMessage.construct C SystemTime.unixEpoch "n" "Created" [] none ∅ = some b
        ∧ s.commit [b.entity] = (.ok (), es, s') ∧ s'.poisoned = false
        ∧ s'.Enumerates ["outbox:n", "outbox:m"] ∧ s'.Message checks C "outbox:m" m
        ∧ s'.Message checks C "outbox:n" m₁ ∧ m₁.status = .pending ∧ m₁.attempts = 0 := by
  obtain ⟨b, hb, hid, hcommitted, -, htells⟩ := Tells.construct checks C
    SystemTime.unixEpoch "n" "Created" [] none ∅
  have hid' : b.entity.id = "outbox:n" := hid.trans (by decide)
  have hne : "outbox:m" ≠ "outbox:n" := by decide
  have hstream : s.stream b.entity.id = [] := by
    have hnone : s.lookup "outbox:n" = none :=
      Option.not_isSome_iff_eq_none.mp (fun hsome => hne (h.only _ hsome).symm)
    rw [hid', EventStore.stream, hnone]
    rfl
  have hvalid : s.Valid [b.entity] := fun e he => by
    rw [List.mem_singleton.mp he, hstream, hcommitted]
    rfl
  have hcommit := EventStore.commit_of_valid h.not_poisoned hvalid
    (fun e he => List.mem_singleton.mp he ▸ if_pos (hcommitted ▸ Nat.zero_le _))
  refine ⟨b, _, _, _, hb, hcommit, h.not_poisoned, ⟨by decide, fun id => ?_⟩, ⟨l, ?_, h.story⟩,
    ⟨b.entity.events, ?_, hid' ▸ htells.story⟩, rfl, rfl⟩
  · rw [EventStore.isSome_lookup_extendAll, List.mem_cons, List.mem_singleton]
    constructor
    · rintro (rfl | rfl)
      · exact Or.inr ⟨_, List.mem_singleton_self _, hid'⟩
      · exact Or.inl (by rw [h.stored]; rfl)
    · rintro (hsome | ⟨e, he, rfl⟩)
      · exact Or.inr (h.only id hsome)
      · exact Or.inl (List.mem_singleton.mp he ▸ hid')
  · exact (EventStore.lookup_extend_of_ne s (hid' ▸ hne) _).trans h.stored
  · show (s.extend b.entity.id b.entity.uncommitted).lookup "outbox:n" = _
    rw [← hid', EventStore.lookup_extend_self, hstream, Entity.uncommitted, hcommitted]
    rfl

/-- **A claim that panics loses what it has claimed**: a message claimed `2 ^ 32 - 1` times
overflows in a build with overflow checks, and the one claimed before it stays in flight
though the only thread has ended. -/
theorem claimed_and_lost : ¬ ∀ st : OutboxWorkers Unit,
    Run true Codecs.counting (initial fun _ => ("w", false)) st →
    ∀ id a, st.store.Loads true Codecs.counting id a → (∀ w, (st.threads w).phase.Ended) →
      a.fields.status ≠ .inFlight := by
  intro h
  have hC := Codecs.counting_lawful
  obtain ⟨st, l, m, hrun, hphase, hstop, hsingle, hclaims⟩ :=
    refused_rounds true hC (n := 2 ^ 32 - 1) (by decide)
  obtain ⟨b, es, s₁, m₁, hb, hcommit, hp, hord, hm, hm₁, hpending₁, hattempts₁⟩ :=
    commit_second hsingle
  have hcan : ¬ EventStore.ClaimPanics true epoch OutboxWorkerThread.lease m₁ := by
    rw [claimPanics_epoch, addU32_one_eq_none, hattempts₁]
    decide
  have hcannot : EventStore.ClaimPanics true epoch OutboxWorkerThread.lease m := by
    rw [claimPanics_epoch, addU32_one_eq_none, hsingle.story.machine.2.1.2 rfl, hclaims]
    decide
  obtain ⟨s₂, m₂, hclaim, hm₂, hflight⟩ := claim_panics_second hC (fun _ => epoch)
    (st.threads ()).workerId hp (by decide) hm₁ hpending₁ hcan hm hsingle.pending hcannot
    (show 1 < OutboxWorkerThread.batchSize by decide)
  -- the message is committed, and the thread polls and panics
  have hstep₁ : Step true Codecs.counting st (st.withStore s₁) :=
    .commit (fun a (ha : a ∈ [b]) => List.mem_singleton.mp ha ▸ ⟨_, _, _, _, _, _, hb⟩)
      (List.nodup_singleton _) hcommit
  obtain ⟨st₂, hstep₂, hstore₂, hthread₂⟩ : ∃ st₂, Step true Codecs.counting (st.withStore s₁) st₂
      ∧ st₂.store = s₁ ∧ st₂.threads () = { st.threads () with
        phase := .claiming
        stats := { (st.threads ()).stats with polls := (st.threads ()).stats.polls + 1 } } :=
    ⟨_, .poll (w := ()) hphase hstop, rfl, threads_set_self ..⟩
  have hclaim' : st₂.store.claimOutboxMessages true Codecs.counting ["outbox:n", "outbox:m"]
      (fun _ => epoch) (st₂.threads ()).workerId OutboxWorkerThread.batchSize OutboxWorkerThread.lease
        = (.error .panic, s₂) := by
    rw [hstore₂, hthread₂]
    exact hclaim
  have hstep₃ : Step true Codecs.counting st₂ ((st₂.withStore s₂).set () _) :=
    .claimPanics (by rw [hthread₂]) (hstore₂ ▸ hord) hclaim'
  obtain ⟨l', hloads⟩ := EventStore.Message.loads hC hm₂ SystemTime.unixEpoch
  refine h _ (((hrun.tail hstep₁).tail hstep₂).tail hstep₃) "outbox:n" _ hloads (fun w => ?_) hflight
  show (((st₂.withStore s₂).set () _).threads ()).phase.Ended
  rw [threads_set_self]
  trivial

end OutboxWorkers
