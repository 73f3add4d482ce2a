import Sourced.Bus
import Sourced.RepositoryError

/-!
# Command services

A `Service` routes commands by name to handlers (`microsvc/service.rs`). A
handler, and the guard before it, may do with the service's repository what
they like: both take the state of the repository and give it back.

JSON values are those of `serde_json`, a crate of its own; what the service
needs of them is `Json`.
-/

/-- **JSON values**, as far as an event is turned into one. -/
structure Json (V : Type) where
  /-- `serde_json::from_slice`. -/
  fromSlice : Bytes → Option V
  /-- `Value::String`. -/
  string : String → V
  /-- `Value::Null`. -/
  null : V

/-- **`HandlerError`**; of an error of another type its text. -/
inductive HandlerError where
  | unknownCommand (name : String)
  | decodeFailed (message : String)
  | rejected (message : String)
  | notFound (id : String)
  | unauthorized (message : String)
  | repository (e : RepositoryError)
  | guardRejected (name : String)
  | other (message : String)
deriving DecidableEq, Repr

/-- `Session`: the session variables. -/
abbrev Session := Finmap (fun _ : String => String)

/-- `Context`, but for its reference to the repository. -/
structure Context (V : Type) where
  commandName : String
  input : V
  session : Session

/-- `CommandHandler`, over the states `ρ` of the repository. -/
structure CommandHandler (ρ V : Type) where
  guard : Option (Context V → ρ → Bool × ρ)
  handle : Context V → ρ → Except HandlerError V × ρ

/-- **`Service`**, but for its repository. -/
structure Service (ρ V : Type) where
  handlers : Finmap (fun _ : String => CommandHandler ρ V)

namespace Service

variable {ρ V : Type}

/-- `Service::new`. -/
def new : Service ρ V := ⟨∅⟩

/-- `command`. -/
def command (S : Service ρ V) (name : String)
    (handler : Context V → ρ → Except HandlerError V × ρ) : Service ρ V :=
  ⟨S.handlers.insert name ⟨none, handler⟩⟩

/-- `command_guarded`. -/
def commandGuarded (S : Service ρ V) (name : String) (guard : Context V → ρ → Bool × ρ)
    (handler : Context V → ρ → Except HandlerError V × ρ) : Service ρ V :=
  ⟨S.handlers.insert name ⟨some guard, handler⟩⟩

/-- **`dispatch`.** -/
def dispatch (S : Service ρ V) (command : String) (input : V) (session : Session) (repo : ρ) :
    Except HandlerError V × ρ :=
  match S.handlers.lookup command with
  | none => (.error (.unknownCommand command), repo)
  | some handler =>
    let ctx : Context V := ⟨command, input, session⟩
    match handler.guard with
    | none => handler.handle ctx repo
    | some guard =>
      let (passed, repo) := guard ctx repo
      if passed then handler.handle ctx repo else (.error (.guardRejected command), repo)

section Registered

variable (S : Service ρ V) (name : String) (guard : Context V → ρ → Bool × ρ)
  (handler : Context V → ρ → Except HandlerError V × ρ) (called : String) (input : V)
  (session : Session) (repo : ρ)

/-- **A command registered without a guard** goes to its handler, whatever was registered under
its name before, and every other goes where it went. -/
theorem dispatch_command :
    (S.command name handler).dispatch called input session repo
      = if called = name then handler ⟨name, input, session⟩ repo
        else S.dispatch called input session repo := by
  by_cases h : called = name
  · subst h
    rw [if_pos rfl]
    simp [dispatch, Service.command]
  · rw [if_neg h]
    simp [dispatch, Service.command, Finmap.lookup_insert_of_ne _ h]

/-- **With a guard** it goes to its handler where the guard lets it pass, and is rejected by name
where not; the handler finds the repository as the guard has left it. -/
theorem dispatch_commandGuarded :
    (S.commandGuarded name guard handler).dispatch called input session repo
      = if called = name then
          if (guard ⟨name, input, session⟩ repo).1 then
            handler ⟨name, input, session⟩ (guard ⟨name, input, session⟩ repo).2
          else (.error (.guardRejected name), (guard ⟨name, input, session⟩ repo).2)
        else S.dispatch called input session repo := by
  by_cases h : called = name
  · subst h
    rw [if_pos rfl]
    simp [dispatch, Service.commandGuarded]
  · rw [if_neg h]
    simp [dispatch, Service.commandGuarded, Finmap.lookup_insert_of_ne _ h]

end Registered

/-- `event_to_json_input`: the payload as JSON, else as a string, else null. -/
def eventToJsonInput (J : Json V) (event : Event) : V :=
  match J.fromSlice event.payload with
  | some value => value
  | none =>
    match event.payloadStr with
    | some s => J.string s
    | none => J.null

/-- `event_to_session`: of a key that occurs twice the later value. -/
def eventToSession (event : Event) : Session :=
  (event.metadata.getD []).foldl (fun vars kv => vars.insert kv.1 kv.2) ∅

/-- **`dispatch_event`.** -/
def dispatchEvent (J : Json V) (S : Service ρ V) (event : Event) (repo : ρ) :
    Except HandlerError V × ρ :=
  S.dispatch event.eventType (eventToJsonInput J event) (eventToSession event) repo

end Service

/-- **`TransportStats`.** A queue keeps the messages it was sent, so there are fewer
of them than a `usize` counts; nothing is read off `polls`. -/
structure TransportStats where
  handled : ℕ
  failed : ℕ
  polls : ℕ
deriving DecidableEq

namespace TransportStats

/-- `TransportStats::default`. -/
def default : TransportStats := ⟨0, 0, 0⟩

/-- The count of a poll. -/
def polled (s : TransportStats) : TransportStats := { s with polls := s.polls + 1 }

/-- The count of a dispatch, by its outcome. -/
def dispatched {V : Type} (s : TransportStats) : Except HandlerError V → TransportStats
  | .ok _ => { s with handled := s.handled + 1 }
  | .error _ => { s with failed := s.failed + 1 }

@[simp] theorem messages_polled (s : TransportStats) :
    s.polled.handled + s.polled.failed = s.handled + s.failed := rfl

/-- **A dispatch counts as one message**, whatever its outcome. -/
@[simp] theorem messages_dispatched {V : Type} (s : TransportStats) (r : Except HandlerError V) :
    (s.dispatched r).handled + (s.dispatched r).failed = s.handled + s.failed + 1 := by
  cases r with
  | error e => rfl
  | ok v =>
    show s.handled + 1 + s.failed = s.handled + s.failed + 1
    omega

end TransportStats
