import Sourced.SerialCalls

/-!
# Typed events

Beside the implementation of `Aggregate`, `#[sourced]` generates an enum of the
events, with a variant for each event method and its parameters as fields, a
method `event_name`, and a `TryFrom<&EventRecord>` that reads a stored event as
one of the enum (`sourced_rust_macros/src/lib.rs`).

The match of `TryFrom` is that of `replay_event`, arm by arm, so to replay an
event is to read it and to call the method of its variant
(`Definition.replayEvent_eq`). And since an event is recorded with the arguments
of its call, a stream reads as the calls that were committed
(`SerialCalls.typed_log`): nothing of them is lost in the payloads, and no event
of it is unknown.
-/

variable {σ : Type}

namespace Definition

/-- **The generated enum**: a variant, by the number of its method, with its fields. -/
structure TypedEvent (D : Definition σ) where
  method : Fin D.methods.length
  args : (D.methods.get method).Args

namespace TypedEvent

variable {D : Definition σ}

/-- The generated `event_name`. -/
def eventName (ev : D.TypedEvent) : String := (D.methods.get ev.method).name

/-- The call of the method of its variant, with its fields. -/
def call (ev : D.TypedEvent) (now : SystemTime) (a : Agg σ) : Option (Agg σ) :=
  (D.methods.get ev.method).call now ev.args a

end TypedEvent

/-- The event of a call. -/
def MethodCall.event {D : Definition σ} (c : D.MethodCall) : D.TypedEvent := ⟨c.method, c.args⟩

variable (D : Definition σ)

/-- **The generated `try_from`**: the first arm with the name of the event, its fields
decoded. -/
def tryFrom (e : EventRecord) : Except String D.TypedEvent :=
  match D.methods.findFinIdx? (fun m => m.name = e.eventName) with
  | none => .error ("Unknown event: " ++ e.eventName)
  | some i => ((D.methods.get i).params.decode e).map (fun args => ⟨i, args⟩)

variable {D}

/-- **To replay an event is to read it as a typed one**, and to call the method of its
variant. -/
theorem replayEvent_eq (now : SystemTime) (e : EventRecord) (a : Agg σ) :
    D.aggregate.replayEvent now e a
      = match D.tryFrom e with
        | .error msg => .error (.err msg)
        | .ok ev =>
          match ev.call now a with
          | none => .error .panic
          | some a' => .ok a' := by
  show EventMethod.replayEvent D.methods now e a = _
  rw [EventMethod.replayEvent, tryFrom, List.find?_eq_map_findFinIdx?_getElem]
  cases D.methods.findFinIdx? (fun m => m.name = e.eventName) with
  | none => rfl
  | some i =>
    simp only [Option.map_some]
    cases (D.methods.get i).params.decode e with
    | error msg => rfl
    | ok args => rfl

/-- **An event recorded by a call reads as the event of the call.** -/
theorem tryFrom_of_recorded (hD : D.WellFormed) (c : D.MethodCall) {r : EventRecord}
    (hname : r.eventName = c.command.method.name)
    (hpayload : r.payload = c.command.method.params.codec.serialize c.args) :
    D.tryFrom r = .ok c.event := by
  have hfind : D.methods.findFinIdx? (fun m => m.name = r.eventName) = some c.method := by
    refine List.findFinIdx?_eq_some_iff.mpr ⟨decide_eq_true hname.symm, fun j hj hfound => ?_⟩
    -- the names are distinct
    have hne := List.pairwise_iff_getElem.mp hD.names j c.method
      (by rw [List.length_map]; exact j.2) (by rw [List.length_map]; exact c.method.2) hj
    rw [List.getElem_map, List.getElem_map] at hne
    exact hne ((of_decide_eq_true hfound).trans hname)
  rw [tryFrom, hfind]
  show ((D.methods.get c.method).params.decode r).map _ = _
  rw [Params.decode_serialize (hD.lawful _ (List.get_mem _ _)) hpayload]
  rfl

end Definition

namespace Command

/-- **An event is recorded as what was called**: under the name of the method, with the
arguments encoded. -/
def RecordedAs (c : Command σ) (r : EventRecord) : Prop :=
  r.eventName = c.method.name ∧ r.payload = c.method.params.codec.serialize c.args

/-- **Calls that take effect are recorded**, one event for each. -/
theorem Applies.recorded {cs : List (Command σ)} {a b : Agg σ} (h : Applies cs a b)
    (hr : a.entity.replaying = false) :
    ∃ records, b.entity.events = a.entity.events ++ records ∧ List.Forall₂ RecordedAs cs records := by
  induction h with
  | nil a => exact ⟨[], (List.append_nil _).symm, .nil⟩
  | @cons c cs a b d hguard hrun _ ih =>
    obtain ⟨f, id, -, rfl⟩ := body_of_run hr hguard hrun
    obtain ⟨records, hevents, hrecords⟩ := ih hr
    refine ⟨c.record a.entity :: records, ?_, .cons ⟨rfl, rfl⟩ hrecords⟩
    rw [hevents]
    exact List.append_assoc ..

end Command

namespace CallHistory

variable {D : Definition σ}

/-- The calls on the aggregate of an id, as calls of event methods. -/
def methodCallsOf (log : List (Work D)) (id : String) : List D.MethodCall :=
  log.flatMap (fun w => if w.id = id then w.calls else [])

theorem map_command_methodCallsOf (log : List (Work D)) (id : String) :
    (methodCallsOf log id).map Definition.MethodCall.command = callsOf log id := by
  rw [methodCallsOf, callsOf, List.map_flatMap]
  refine congrArg (fun f => log.flatMap f) (funext fun w => ?_)
  split
  · rfl
  · rfl

end CallHistory

/-- **Events recorded by calls read as the events of the calls.** -/
theorem Definition.WellFormed.reads {D : Definition σ} (hD : D.WellFormed) {calls : List D.MethodCall}
    {records : List EventRecord}
    (h : List.Forall₂ (fun c r => Command.RecordedAs c.command r) calls records) :
    records.map D.tryFrom = calls.map (fun c => .ok c.event)
      ∧ records.map EventRecord.eventName = calls.map (fun c => c.event.eventName) := by
  induction h with
  | nil => exact ⟨rfl, rfl⟩
  | @cons c r calls records hrecorded _ ih =>
    obtain ⟨hname, hpayload⟩ := hrecorded
    rw [List.map_cons, List.map_cons, List.map_cons, List.map_cons, ih.1, ih.2,
      Definition.tryFrom_of_recorded hD c hname hpayload, hname]
    exact ⟨rfl, rfl⟩

namespace SerialCalls

variable {D : Definition σ} {C : Type} [DecidableEq C] {x : State D C}

/-- **A stream reads as the calls that were committed.** In every state that any clients
reach, through the plain or the queued repository, every stored event reads as a typed one;
and those of an id are, in order, the calls that the clients have committed to it, each with
its name and its arguments. -/
theorem typed_log (hD : Lawful D) (hrun : (system D C).Run (initial D C) x) (id : String) :
    (x.shared.shared.events.stream id).map D.tryFrom
        = (CallHistory.methodCallsOf x.shared.log id).map (fun c => .ok c.event)
      ∧ (x.shared.shared.events.stream id).map EventRecord.eventName
        = (CallHistory.methodCallsOf x.shared.log id).map (fun c => c.event.eventName) := by
  obtain ⟨known, hI, -⟩ := holds_of_run hD hrun
  obtain ⟨f, -, a, happlies, -, hevents, -⟩ := hI.serial id
  obtain ⟨records, hrecords, hforall⟩ := happlies.recorded rfl
  obtain rfl : records = x.shared.shared.events.stream id := hevents ▸ hrecords.symm
  rw [← CallHistory.map_command_methodCallsOf, List.forall₂_map_left_iff] at hforall
  exact hD.wellFormed.reads hforall

/-- **The account that was opened** reads as opened. -/
theorem typed_log_opened :
    ∃ x : State (Definition.account (fun _ => true)) Bool,
      (x.shared.shared.events.stream "account-1").map (Definition.account (fun _ => true)).tryFrom
        = [.ok openAccount.event]
      ∧ (x.shared.shared.events.stream "account-1").map EventRecord.eventName = ["Opened"] := by
  obtain ⟨x, hrun, hlog⟩ := exists_opened
  have h := typed_log lawful_account hrun "account-1"
  rw [hlog] at h
  exact ⟨x, h⟩

end SerialCalls
