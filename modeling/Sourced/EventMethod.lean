import Sourced.Aggregate

/-!
# Aggregates made by the macros

`#[sourced]`, and `#[digest]` together with `aggregate!`, make an aggregate
of a list of *event methods* (`sourced_rust_macros`). Each method is rewritten
to record its event before its body runs, the whole under the method's guard;
and replaying an event is calling the method of its name again, with the
arguments decoded from the event. While the entity is replaying the recording
does nothing, so the replayed call is the body under the guard.

The definition of such an aggregate is a `Definition`: a default and a list
of methods. A guard and a body are code of the aggregate's author, and can
look at the whole aggregate, its entity included. What a body may change is
the own fields and the entity's id; its panic is a `none`. The guard is a
boolean. Local event emission (`enqueue`) concerns another object, and is left
out.
-/

/-- **The parameters of an event method**: none – the event carries the unit
value, and is not decoded on replay – or a tuple of them. -/
inductive Params : Type → Type 1 where
  | none (c : Bitcode Unit) : Params Unit
  | tuple {T : Type} (c : Bitcode T) : Params T

namespace Params

variable {T : Type}

/-- The codec of the payload. -/
def codec : Params T → Bitcode T
  | .none c => c
  | .tuple c => c

/-- The arguments a replay calls the method with. -/
def decode : Params T → EventRecord → Except String T
  | .none _, _ => .ok ()
  | .tuple c, e => e.decode c

theorem decode_serialize {p : Params T} (hp : p.codec.Lawful) {e : EventRecord} {x : T}
    (he : e.payload = p.codec.serialize x) : p.decode e = .ok x := by
  cases p with
  | none c => rfl
  | tuple c =>
    show c.deserialize e.payload = .ok x
    rw [he]
    exact hp x

end Params

/-- **An event method**: a method with the attribute `#[event]` or
`#[digest]`. -/
structure EventMethod (σ : Type) where
  /-- The name of the event. -/
  name : String
  /-- The version of the event, where the attribute gives one. -/
  version : Option ℕ
  /-- The tuple of the parameters. -/
  Args : Type
  params : Params Args
  /-- The guard `when`; constantly true where there is none. -/
  guard : σ → Entity → Args → Bool
  /-- The body, at a clock reading: the new fields, and the id the entity is
  given, if any. -/
  body : SystemTime → σ → Entity → Args → Option (σ × Option String)

namespace EventMethod

variable {σ : Type}

/-- The generated call of `digest`, `digest_v` or `digest_empty`. -/
def digest (m : EventMethod σ) (now : SystemTime) (e : Entity) (x : m.Args) : Entity :=
  e.digestAt now m.name (m.version.getD 1) m.params.codec x

/-- **The call that is generated** is of `digest_v` where the attribute gives a version, and
of `digest` where it does not. -/
theorem digest_eq (m : EventMethod σ) (now : SystemTime) (e : Entity) (x : m.Args) :
    m.digest now e x = m.version.elim (e.digest now m.name m.params.codec x)
      (fun version => e.digestV now m.name version m.params.codec x) := by
  unfold digest
  cases m.version with
  | none => rfl
  | some version => rfl

/-- The aggregate after a body has run. -/
def assign (e : Entity) (r : σ × Option String) : Agg σ :=
  ⟨r.1, match r.2 with
    | some id => e.setId id
    | none => e⟩

/-- **The generated method**: under the guard, the event is recorded and then
the body runs; `none` is a panic of the body. -/
def call (m : EventMethod σ) (now : SystemTime) (x : m.Args) (a : Agg σ) : Option (Agg σ) :=
  if m.guard a.fields a.entity x then
    (m.body now a.fields (m.digest now a.entity x) x).map (assign (m.digest now a.entity x))
  else some a

/-- **While the entity is replaying** the method is its body under its guard. -/
theorem call_of_replaying (m : EventMethod σ) {a : Agg σ} (h : a.entity.replaying = true)
    (now : SystemTime) (x : m.Args) :
    m.call now x a
      = if m.guard a.fields a.entity x then (m.body now a.fields a.entity x).map (assign a.entity)
        else some a := by
  have hdigest : m.digest now a.entity x = a.entity := Entity.digestAt_of_replaying h _ _ _ _ _
  rw [call, hdigest]

/-- **The generated `replay_event`**: the first method with the event's name,
its arguments decoded. -/
def replayEvent (ms : List (EventMethod σ)) (now : SystemTime) (e : EventRecord) (a : Agg σ) :
    Res String (Agg σ) :=
  match ms.find? (fun m => m.name = e.eventName) with
  | none => .error (.err ("Unknown event: " ++ e.eventName))
  | some m =>
    match m.params.decode e with
    | .error msg => .error (.err msg)
    | .ok x =>
      match m.call now x a with
      | none => .error .panic
      | some a' => .ok a'

/-- With distinct names, a method is found by its name. -/
theorem find?_eq_some {ms : List (EventMethod σ)} (hnd : (ms.map EventMethod.name).Nodup)
    {m : EventMethod σ} (hm : m ∈ ms) : ms.find? (fun m' => m'.name = m.name) = some m := by
  induction ms with
  | nil => cases hm
  | cons m' ms ih =>
    rw [List.map_cons, List.nodup_cons] at hnd
    cases hm with
    | head => exact List.find?_cons_of_pos (by simp)
    | tail _ hm =>
      rw [List.find?_cons_of_neg]
      · exact ih hnd.2 hm
      · simpa using fun h => hnd.1 (List.mem_map.mpr ⟨m, hm, h.symm⟩)

end EventMethod

/-- **The definition of an aggregate** made by the macros. -/
structure Definition (σ : Type) where
  default : σ
  methods : List (EventMethod σ)
  upcasters : List EventUpcaster

namespace Definition

variable {σ : Type}

/-- The generated implementation of the trait `Aggregate`. -/
def aggregate (D : Definition σ) : Aggregate σ where
  default := D.default
  replayEvent := EventMethod.replayEvent D.methods
  upcasters := D.upcasters

/-- **What the compiler and the codec promise of a definition**: the event
names are distinct, and every payload decodes to what was encoded. -/
structure WellFormed (D : Definition σ) : Prop where
  names : (D.methods.map EventMethod.name).Nodup
  lawful : ∀ m ∈ D.methods, m.params.codec.Lawful

end Definition

/-! ## Calls of event methods -/

/-- A call of an event method: with its arguments, at a clock reading. -/
structure Command (σ : Type) where
  method : EventMethod σ
  now : SystemTime
  args : method.Args

namespace Command

variable {σ : Type}

/-- The call on an aggregate. -/
def run (c : Command σ) (a : Agg σ) : Option (Agg σ) := c.method.call c.now c.args a

/-- The calls in turn; `none` where one of them panics. -/
def runAll (cs : List (Command σ)) (a : Agg σ) : Option (Agg σ) :=
  cs.foldlM (fun a c => c.run a) a

/-- The guard of the call. -/
def guard (c : Command σ) (a : Agg σ) : Bool := c.method.guard a.fields a.entity c.args

/-- The event the call records, where its guard lets it. -/
def record (c : Command σ) (e : Entity) : EventRecord :=
  e.record c.now c.method.name (c.method.version.getD 1) c.method.params.codec c.args

/-- What the body of the call answers, given the recorded entity. -/
def body (c : Command σ) (now : SystemTime) (f : σ) (e : Entity) : Option (σ × Option String) :=
  c.method.body now f e c.args

theorem run_of_guard_false {c : Command σ} {a : Agg σ} (h : c.guard a = false) :
    c.run a = some a := by
  show (if c.guard a = true then _ else some a) = some a
  rw [h]
  rfl

theorem run_of_guard {c : Command σ} {a : Agg σ} (h : c.guard a = true) :
    c.run a = (c.body c.now a.fields (c.method.digest c.now a.entity c.args)).map
      (EventMethod.assign (c.method.digest c.now a.entity c.args)) :=
  if_pos h

theorem runAll_cons (c : Command σ) (cs : List (Command σ)) (a : Agg σ) :
    runAll (c :: cs) a = (c.run a).bind (runAll cs) := rfl

/-- **Replaying the event of a call is calling the method again**, at the
clock reading of the replay. -/
theorem replayEvent_record {D : Definition σ} (hD : D.WellFormed) {c : Command σ}
    (hc : c.method ∈ D.methods) {e : EventRecord} (hname : e.eventName = c.method.name)
    (hpayload : e.payload = c.method.params.codec.serialize c.args) (now : SystemTime)
    (b : Agg σ) :
    D.aggregate.replayEvent now e b
      = match c.method.call now c.args b with
        | none => .error .panic
        | some b' => .ok b' := by
  show EventMethod.replayEvent D.methods now e b = _
  unfold EventMethod.replayEvent
  rw [hname, EventMethod.find?_eq_some hD.names hc]
  dsimp only
  rw [Params.decode_serialize (hD.lawful _ hc) hpayload]

end Command

/-! ## Replays that skip nothing -/

/-- **A replay in which every event takes effect**: the method of each event's name is
let through by its guard. -/
inductive Definition.Unskipped {σ : Type} (D : Definition σ) (now : SystemTime) :
    List EventRecord → Agg σ → Agg σ → Prop
  | nil (a : Agg σ) : Unskipped D now [] a a
  | concat {l : List EventRecord} {a b c : Agg σ} {e : EventRecord} {m : EventMethod σ} {x : m.Args}
      (h : Unskipped D now l a b)
      (hfind : D.methods.find? (fun m => m.name = e.eventName) = some m)
      (hdecode : m.params.decode e = .ok x) (hguard : m.guard b.fields b.entity x = true)
      (hcall : m.call now x b = some c) :
      Unskipped D now (l ++ [e]) a c

/-- Such a replay succeeds. -/
theorem Definition.Unskipped.replayAll {σ : Type} {D : Definition σ} {now : SystemTime}
    {es : List EventRecord} {a b : Agg σ} (h : D.Unskipped now es a b) :
    D.aggregate.replayAll now es a = .ok b := by
  induction h with
  | nil => rfl
  | @concat l a b c e m x _ hfind hdecode _ hcall ih =>
    have hreplay : D.aggregate.replayEvent now e b = .ok c := by
      show EventMethod.replayEvent D.methods now e b = .ok c
      unfold EventMethod.replayEvent
      rw [hfind]
      dsimp only
      rw [hdecode]
      dsimp only
      rw [hcall]
    rw [Aggregate.replayAll_append, ih]
    show (D.aggregate.replayEvent now e b).bind _ = _
    rw [hreplay]
    rfl
