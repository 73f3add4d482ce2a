import Sourced.OutboxMessage
import Sourced.EventStore

/-!
# The outbox of a store

The outbox operations of `HashMapRepository` (`outbox_worker/repository_ext.rs`)
work on the event map itself: under its lock they load every stream whose id has
the prefix of messages, call an event method of the message, and write its events
back as the whole stream. Each is one atomic step. The clock readings made for a
message are those `clock` has at its id.

A claim goes through the map once and stops where it has claimed enough. An error
ends it where it is, with what it has claimed so far written. A panic leaves the
lock poisoned.

The worker of `outbox_worker/worker.rs` works on a message in hand: it claims it,
publishes it, and completes, releases or fails it, all by the same event methods.
-/

open OutboxMessage (Codecs Readings Story Tells hasPrefix normalizeId)

namespace EventStore

variable (checks : OverflowChecks) (C : Codecs)

/-- `*events = …`: the stream under an id replaced. -/
def put (s : EventStore) (id : String) (events : List EventRecord) : EventStore :=
  { s with streams := s.streams.insert id events }

/-- The store after a failure under the write lock: a panic poisons it. -/
def afterFault (s : EventStore) : Fault RepositoryError → EventStore
  | .panic => { s with poisoned := true }
  | _ => s

/-- `hydrate::<OutboxMessage>` of the entity of a stream. -/
def hydrateMessage (now : SystemTime) (id : String) (events : List EventRecord) :
    RepoRes (Agg OutboxMessage) :=
  (OutboxMessage.definition checks C).aggregate.hydrate now (loadEntity id events)

/-- The stream under an id, where it has the prefix of messages. -/
def messageEvents (s : EventStore) (id : String) : Option (List EventRecord) :=
  if hasPrefix id then s.lookup id else none

/-! ## The operations -/

/-- **`outbox_messages_by_status`.** -/
def outboxMessagesByStatus (ord : List String) (clock : String → Readings) (s : EventStore)
    (status : OutboxMessageStatus) : RepoRes (List (Agg OutboxMessage)) :=
  if s.poisoned then .error (.err (.lockPoisoned "read"))
  else Res.collect (fun id =>
    match s.messageEvents id with
    | none => .ok []
    | some events => (hydrateMessage checks C (clock id).replay id events).map
        (fun m => [m].filter (fun m => m.fields.status = status))) ord

/-- `outbox_messages_pending`. -/
def outboxMessagesPending (ord : List String) (clock : String → Readings) (s : EventStore) :
    RepoRes (List (Agg OutboxMessage)) :=
  outboxMessagesByStatus checks C ord clock s .pending

/-- The loop of `claim_outbox_messages`. -/
def claimLoop (clock : String → Readings) (workerId : String) (max : ℕ) (lease : Duration) :
    List String → List (Agg OutboxMessage) → EventStore →
      RepoRes (List (Agg OutboxMessage)) × EventStore
  | [], claimed, s => (.ok claimed, s)
  | id :: ids, claimed, s =>
    match s.messageEvents id with
    | none => claimLoop clock workerId max lease ids claimed s
    | some events =>
      match hydrateMessage checks C (clock id).replay id events with
      | .error f => (.error f, s.afterFault f)
      | .ok m =>
        if m.fields.isPending then
          match OutboxMessage.claimFor checks C (clock id) workerId lease m with
          | none => (.error .panic, s.afterFault .panic)
          | some m' =>
            let s' := s.put id m'.entity.events
            let claimed' := claimed ++ [{ m' with entity := m'.entity.markCommitted }]
            if max ≤ claimed'.length then (.ok claimed', s')
            else claimLoop clock workerId max lease ids claimed' s'
        else if max ≤ claimed.length then (.ok claimed, s)
        else claimLoop clock workerId max lease ids claimed s

/-- **`claim_outbox_messages`.** -/
def claimOutboxMessages (ord : List String) (clock : String → Readings) (s : EventStore)
    (workerId : String) (max : ℕ) (lease : Duration) :
    RepoRes (List (Agg OutboxMessage)) × EventStore :=
  if s.poisoned then (.error (.err (.lockPoisoned "write")), s)
  else claimLoop checks C clock workerId max lease ord [] s

/-- One message changed: it is loaded under the normalized id and, where `test`
holds of it, changed and written back. An id that is not stored is ignored. -/
def updateMessage (t : Readings) (s : EventStore) (messageId : String) (test : OutboxMessage → Bool)
    (change : Agg OutboxMessage → Option (Agg OutboxMessage)) : RepoRes Unit × EventStore :=
  if s.poisoned then (.error (.err (.lockPoisoned "write")), s)
  else
    match s.lookup (normalizeId messageId) with
    | none => (.ok (), s)
    | some events =>
      match hydrateMessage checks C t.replay (normalizeId messageId) events with
      | .error f => (.error f, s.afterFault f)
      | .ok m =>
        if test m.fields then
          match change m with
          | none => (.error .panic, s.afterFault .panic)
          | some m' => (.ok (), s.put (normalizeId messageId) m'.entity.events)
        else (.ok (), s)

/-- **`complete_outbox_message`.** -/
def completeOutboxMessage (t : Readings) (s : EventStore) (messageId : String) :
    RepoRes Unit × EventStore :=
  updateMessage checks C t s messageId OutboxMessage.isInFlight
    ((OutboxMessage.complete C).call t.record ())

/-- **`release_outbox_message`.** -/
def releaseOutboxMessage (t : Readings) (s : EventStore) (messageId error : String) :
    RepoRes Unit × EventStore :=
  updateMessage checks C t s messageId OutboxMessage.isInFlight
    ((OutboxMessage.release C).call t.record error)

/-- **`fail_outbox_message`**: the message is written back whether or not it could
fail. -/
def failOutboxMessage (t : Readings) (s : EventStore) (messageId error : String) :
    RepoRes Unit × EventStore :=
  updateMessage checks C t s messageId (fun _ => true)
    ((OutboxMessage.fail C).call t.record error)

end EventStore

/-! ## The worker -/

/-- **`ProcessOneResult`.** -/
structure ProcessOneResult where
  didWork : Bool
  completed : Bool
  released : Bool
  failed : Bool
deriving DecidableEq

namespace OutboxWorker

variable (checks : OverflowChecks) (C : Codecs)

/-- `ProcessOneResult::default`. -/
def idle : ProcessOneResult := ⟨false, false, false, false⟩

/-- The second half of `process_message`, of a message in flight: what the
publisher answered, an error by its text, decides what becomes of it. -/
def finishMessage (now : SystemTime) (maxAttempts : ℕ) (answer : Except String Unit)
    (m : Agg OutboxMessage) : Option (ProcessOneResult × Agg OutboxMessage) :=
  match answer with
  | .ok () => ((OutboxMessage.complete C).call now () m).map
      (fun m' => (⟨true, true, false, false⟩, m'))
  | .error error =>
    if maxAttempts ≤ m.fields.attempts then
      ((OutboxMessage.fail C).call now error m).map (fun m' => (⟨true, false, false, true⟩, m'))
    else
      ((OutboxMessage.release C).call now error m).map
        (fun m' => (⟨true, false, true, false⟩, m'))

/-- **`OutboxWorker::process_message`**; `none` is a panic of the claim. -/
def processMessage (t : Readings) (now : SystemTime) (workerId : String) (lease : Duration)
    (maxAttempts : ℕ) (answer : Except String Unit) (m : Agg OutboxMessage) :
    Option (ProcessOneResult × Agg OutboxMessage) :=
  if m.fields.isPublished || m.fields.isFailed then some (idle, m)
  else
    (if m.fields.isPending then OutboxMessage.claimFor checks C t workerId lease m
      else some m).bind (fun m' =>
        if m'.fields.isInFlight then finishMessage C now maxAttempts answer m'
        else some (idle, m'))

end OutboxWorker
