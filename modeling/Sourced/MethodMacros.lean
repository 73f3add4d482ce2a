import Mathlib.Data.List.Find
import Sourced.Enqueueing

/-!
# What the macros make of a method

An event method is written with `#[event]` in an `impl` under `#[sourced(entity,
enqueue)]`, or by itself with `#[digest]` and `#[enqueue]`, and then the aggregate is
made with `aggregate!`. Each attribute rewrites the block of the method: it puts a call
before the statements, and the guard, if it has one, around both. An attribute further
down rewrites what those above it have made, so its guard is outside of theirs.

The guard is then asked once for each attribute, each time after the calls of those
below. Where it looks neither at what is recorded nor at what is queued, the attributes may
stand in any order, and mean what `#[sourced]` makes of the method
(`MethodMacros.expand_alike`); the whole aggregates are then the same
(`MethodMacros.run_standalone`). Where it does look, that is when they mean the same
(`MethodMacros.stacks_iff`).
-/

variable {σ : Type}

/-! ## Methods and attributes -/

/-- **A method as it is written**, without its attributes: the parameters, and the
statements, which do not touch the emitter. -/
structure MethodSource (σ : Type) where
  Args : Type
  params : Params Args
  toJson : Args → Option String
  stmts : SystemTime → Agg (Emitting σ) → Args → Option (σ × Entity)

/-- **A guard** `when`, which sees the aggregate and the parameters. -/
abbrev MethodSource.Guard (M : MethodSource σ) : Type := Agg (Emitting σ) → M.Args → Bool

variable {M : MethodSource σ}

/-- **`DigestArgs`.** -/
structure DigestArgs (M : MethodSource σ) where
  entityField : String
  eventName : String
  guard : Option M.Guard
  version : Option ℕ

/-- **`EnqueueArgs`**, whose `entity_field` is always `entity`. -/
structure EnqueueArgs (M : MethodSource σ) where
  emitterField : String
  entityField : String
  eventName : String
  guard : Option M.Guard

/-- **`EventAttr`.** -/
structure EventAttr (M : MethodSource σ) where
  eventName : String
  guard : Option M.Guard
  version : Option ℕ

/-- **`SourcedArgs`**: the field of the entity, and that of the emitter if `enqueue` is on. -/
structure SourcedArgs where
  entityField : String
  enqueue : Option String

/-! ## Blocks -/

/-- **A call the macros generate.** -/
inductive GeneratedCall where
  | digest (entityField eventName : String) (version : Option ℕ)
  | enqueue (entityField emitterField eventName : String)

/-- **The block of a method**: the statements as they are written, or a call before a block,
or a guard around one. -/
inductive MethodBlock (M : MethodSource σ) where
  | stmts
  | call (c : GeneratedCall) (rest : MethodBlock M)
  | guarded (g : M.Guard) (block : MethodBlock M)

namespace MethodMacros

/-- `generate_digest_call`. -/
def generateDigestCall (entityField eventName : String) (version : Option ℕ) : GeneratedCall :=
  .digest entityField eventName version

/-- `generate_enqueue_call`. -/
def generateEnqueueCall (entityField emitterField eventName : String) : GeneratedCall :=
  .enqueue entityField emitterField eventName

/-- **`wrap_body_with_guard`.** -/
def wrapBodyWithGuard (guard : Option M.Guard) (prepend : List GeneratedCall)
    (original : MethodBlock M) : MethodBlock M :=
  match guard with
  | some g => .guarded g (prepend.foldr .call original)
  | none => prepend.foldr .call original

/-- **`#[digest]`.** -/
def digest (args : DigestArgs M) (block : MethodBlock M) : MethodBlock M :=
  wrapBodyWithGuard args.guard
    [generateDigestCall args.entityField args.eventName args.version] block

/-- **`#[enqueue]`.** -/
def enqueue (args : EnqueueArgs M) (block : MethodBlock M) : MethodBlock M :=
  wrapBodyWithGuard args.guard
    [generateEnqueueCall args.entityField args.emitterField args.eventName] block

/-- **`#[sourced]`**, at a method with `#[event]`. -/
def sourced (args : SourcedArgs) (event : EventAttr M) (block : MethodBlock M) : MethodBlock M :=
  wrapBodyWithGuard event.guard
    ((args.enqueue.map (fun emitter => generateEnqueueCall args.entityField emitter event.eventName)).toList
      ++ [generateDigestCall args.entityField event.eventName event.version]) block

/-- **An attribute of a method.** -/
inductive MethodAttr (M : MethodSource σ) where
  | digest (args : DigestArgs M)
  | enqueue (args : EnqueueArgs M)

namespace MethodAttr

/-- The guard in it. -/
def guard : MethodAttr M → Option M.Guard
  | digest args => args.guard
  | enqueue args => args.guard

/-- Its call. -/
def call : MethodAttr M → GeneratedCall
  | digest args => generateDigestCall args.entityField args.eventName args.version
  | enqueue args => generateEnqueueCall args.entityField args.emitterField args.eventName

/-- The block it makes of a block. -/
def apply : MethodAttr M → MethodBlock M → MethodBlock M
  | digest args => MethodMacros.digest args
  | enqueue args => MethodMacros.enqueue args

/-- The arguments of a `#[digest]`. -/
def digest? : MethodAttr M → Option (DigestArgs M)
  | digest args => some args
  | enqueue _ => none

/-- The arguments of an `#[enqueue]`. -/
def enqueue? : MethodAttr M → Option (EnqueueArgs M)
  | digest _ => none
  | enqueue args => some args

theorem apply_eq (attr : MethodAttr M) (block : MethodBlock M) :
    attr.apply block = wrapBodyWithGuard attr.guard [attr.call] block := by
  cases attr <;> rfl

end MethodAttr

/-- **The block of a method with attributes**, of which the first expands first. -/
def expand (attrs : List (MethodAttr M)) (block : MethodBlock M) : MethodBlock M :=
  attrs.foldl (fun b attr => attr.apply b) block

end MethodMacros

/-! ## What a block does -/

/-- **A generated call**, at the parameters. -/
def GeneratedCall.run (M : MethodSource σ) (now : SystemTime) (x : M.Args) :
    GeneratedCall → Agg (Emitting σ) → Agg (Emitting σ)
  | .digest _ eventName version, a =>
    { a with entity := a.entity.digestAt now eventName (version.getD 1) M.params.codec x }
  | .enqueue _ _ eventName, a =>
    if !a.entity.replaying then
      a.withEmitter (M.params.enqueueExpr M.toJson eventName x a.fields.emitter)
    else a

/-- The fields a call is of are those of the aggregate. -/
def GeneratedCall.Compiles (entity emitter : String) : GeneratedCall → Prop
  | .digest entityField _ _ => entityField = entity
  | .enqueue entityField emitterField _ => entityField = entity ∧ emitterField = emitter

namespace MethodBlock

/-- **A block**, at the parameters; `none` is a panic. -/
def run (now : SystemTime) (x : M.Args) : MethodBlock M → Agg (Emitting σ) → Option (Agg (Emitting σ))
  | stmts, a => (M.stmts now a x).map (fun r => ⟨⟨r.1, a.fields.emitter⟩, r.2⟩)
  | call c rest, a => rest.run now x (c.run M now x a)
  | guarded g block, a => if g a x then block.run now x a else some a

/-- It compiles in an aggregate with these fields. -/
def Compiles (entity emitter : String) : MethodBlock M → Prop
  | stmts => True
  | call c rest => c.Compiles entity emitter ∧ rest.Compiles entity emitter
  | guarded _ block => block.Compiles entity emitter

end MethodBlock

namespace MethodMacros

/-! ## Calls -/

section Calls

variable {now : SystemTime} {x : M.Args} {a : Agg (Emitting σ)}

theorem replaying_digestAt {T : Type} (e : Entity) (now : SystemTime) (name : String) (version : ℕ)
    (c : Bitcode T) (payload : T) : (e.digestAt now name version c payload).replaying = e.replaying := by
  cases h : e.replaying with
  | true => rw [Entity.digestAt_of_replaying h, h]
  | false =>
    rw [Entity.digestAt_eq h]
    exact h

/-- **What is recorded and what is queued are apart**: the two calls can change places. -/
theorem run_comm (entityField entityField' emitterField eventName eventName' : String)
    (version : Option ℕ) :
    (GeneratedCall.enqueue entityField emitterField eventName).run M now x
        ((GeneratedCall.digest entityField' eventName' version).run M now x a)
      = (GeneratedCall.digest entityField' eventName' version).run M now x
        ((GeneratedCall.enqueue entityField emitterField eventName).run M now x a) := by
  simp only [GeneratedCall.run, replaying_digestAt]
  by_cases h : a.entity.replaying = true
  · simp [h]
  · simp [h, Agg.withEmitter]

end Calls

/-! ## Attributes in any order -/

/-- **A guard overlooks the calls** of a method: it looks neither at what is recorded nor at
what is queued. -/
def Overlooks (guard : Option M.Guard) : Prop :=
  ∀ g ∈ guard, ∀ (c : GeneratedCall) now x a, g (c.run M now x a) x = g a x

/-- What a guard says, if there is one. -/
def holds (guard : Option M.Guard) (a : Agg (Emitting σ)) (x : M.Args) : Bool :=
  guard.all (fun g => g a x)

/-- The calls of attributes: the last attribute's is made first. -/
def calls (attrs : List (MethodAttr M)) (now : SystemTime) (x : M.Args) (a : Agg (Emitting σ)) :
    Agg (Emitting σ) := attrs.foldr (fun attr a => attr.call.run M now x a) a

section Stacks

variable {guard : Option M.Guard} {now : SystemTime} {x : M.Args} {a : Agg (Emitting σ)}
  {attrs attrs' : List (MethodAttr M)} {block : MethodBlock M}

/-- A block under a guard, with calls before it. -/
theorem run_wrap (prepend : List GeneratedCall) :
    (wrapBodyWithGuard guard prepend block).run now x a
      = if holds guard a x then block.run now x (prepend.foldl (fun a c => c.run M now x a) a)
        else some a := by
  have hrun : ∀ a, (prepend.foldr MethodBlock.call block).run now x a
      = block.run now x (prepend.foldl (fun a c => c.run M now x a) a) := by
    induction prepend with
    | nil => exact fun _ => rfl
    | cons c cs ih => exact fun a => ih (c.run M now x a)
  cases guard with
  | none => exact hrun a
  | some g =>
    show (if g a x then (prepend.foldr MethodBlock.call block).run now x a else some a) = _
    rw [hrun a]
    rfl

theorem Overlooks.holds_calls (hguard : Overlooks guard) :
    holds guard (calls attrs now x a) x = holds guard a x := by
  cases guard with
  | none => rfl
  | some g =>
    show g (calls attrs now x a) x = g a x
    induction attrs with
    | nil => rfl
    | cons attr attrs ih => exact (hguard g rfl _ _ _ _).trans ih

/-- **A stack of attributes under one guard** is their calls and the block, under the guard. -/
theorem run_expand (hguard : Overlooks guard) (hattrs : ∀ attr ∈ attrs, attr.guard = guard) :
    (expand attrs block).run now x a
      = if attrs = [] ∨ holds guard a x = true then block.run now x (calls attrs now x a)
        else some a := by
  induction attrs generalizing block with
  | nil => rfl
  | cons attr attrs ih =>
    obtain ⟨hattr, hattrs⟩ := List.forall_mem_cons.mp hattrs
    have happly : ∀ b, (attr.apply block).run now x b
        = if holds guard b x then block.run now x (attr.call.run M now x b) else some b := by
      intro b
      rw [attr.apply_eq, hattr, run_wrap]
      rfl
    show (expand attrs (attr.apply block)).run now x a = _
    rw [ih hattrs, happly, hguard.holds_calls]
    by_cases h : holds guard a x = true
    · simp [h, calls]
    · by_cases hnil : attrs = []
      · subst hnil
        simp [h, calls]
      · simp [h, hnil]

/-- **The calls of a stack** are those of its `#[enqueue]`s and then those of its
`#[digest]`s. -/
theorem calls_eq : calls attrs now x a
    = calls ((attrs.filterMap MethodAttr.digest?).map .digest) now x
        (calls ((attrs.filterMap MethodAttr.enqueue?).map .enqueue) now x a) := by
  -- a call of an `#[enqueue]` goes past those of any `#[digest]`s
  have hpast : ∀ (q : EnqueueArgs M) (ds : List (DigestArgs M)) (b : Agg (Emitting σ)),
      (MethodAttr.enqueue q).call.run M now x (calls (ds.map .digest) now x b)
        = calls (ds.map .digest) now x ((MethodAttr.enqueue q).call.run M now x b) := by
    intro q ds b
    induction ds with
    | nil => rfl
    | cons d ds ih =>
      calc (MethodAttr.enqueue q).call.run M now x
            ((MethodAttr.digest d).call.run M now x (calls (ds.map .digest) now x b))
          = (MethodAttr.digest d).call.run M now x
            ((MethodAttr.enqueue q).call.run M now x (calls (ds.map .digest) now x b)) :=
          run_comm ..
        _ = calls ((d :: ds).map .digest) now x ((MethodAttr.enqueue q).call.run M now x b) :=
          congrArg ((MethodAttr.digest d).call.run M now x) ih
  induction attrs with
  | nil => rfl
  | cons attr attrs ih =>
    show attr.call.run M now x (calls attrs now x a) = _
    rw [ih]
    cases attr with
    | digest d => rfl
    | enqueue q => exact hpast q _ _

/-- **The order of the attributes is theirs among themselves.** Two stacks of attributes with
the same `#[digest]`s in the same order, and the same `#[enqueue]`s in the same order, all
under one guard that overlooks what is recorded and queued, make the same of every block. -/
theorem expand_alike (hguard : Overlooks guard) (hattrs : ∀ attr ∈ attrs, attr.guard = guard)
    (hattrs' : ∀ attr ∈ attrs', attr.guard = guard)
    (hdigest : attrs.filterMap MethodAttr.digest? = attrs'.filterMap MethodAttr.digest?)
    (henqueue : attrs.filterMap MethodAttr.enqueue? = attrs'.filterMap MethodAttr.enqueue?) :
    (expand attrs block).run now x a = (expand attrs' block).run now x a := by
  have hnil : attrs = [] ↔ attrs' = [] := by
    have hempty : ∀ l : List (MethodAttr M), l = [] ↔
        l.filterMap MethodAttr.digest? = [] ∧ l.filterMap MethodAttr.enqueue? = [] := by
      intro l
      cases l with
      | nil => simp
      | cons attr l => cases attr <;> simp [MethodAttr.digest?, MethodAttr.enqueue?]
    rw [hempty attrs, hempty attrs', hdigest, henqueue]
  have hcalls : calls attrs now x a = calls attrs' now x a := by
    rw [calls_eq, hdigest, henqueue]
    exact calls_eq.symm
  rw [run_expand hguard hattrs, run_expand hguard hattrs', hcalls]
  simp only [hnil]

end Stacks

end MethodMacros

/-! ## Whole aggregates -/

/-- **The event method** that `#[sourced(entity, enqueue)]` makes. -/
def EventAttr.method (event : EventAttr M) : EnqueueMethod σ where
  name := event.eventName
  version := event.version
  Args := M.Args
  params := M.params
  toJson := M.toJson
  guard := MethodMacros.holds event.guard
  body := M.stmts

/-- The same attribute for the `#[digest]` of a method by itself. -/
def EventAttr.digest (event : EventAttr M) (entityField : String) : DigestArgs M :=
  ⟨entityField, event.eventName, event.guard, event.version⟩

/-- And for its `#[enqueue]`. -/
def EventAttr.enqueue (event : EventAttr M) (emitterField : String) : EnqueueArgs M :=
  ⟨emitterField, "entity", event.eventName, event.guard⟩

/-- **An event method as it is written**, with the arguments of its attribute. -/
structure EventItem (σ : Type) where
  source : MethodSource σ
  event : EventAttr source

/-- **A method as the macros leave it.** -/
structure ExpandedMethod (σ : Type) where
  source : MethodSource σ
  block : MethodBlock source

/-- An arm of `replay_event`: the parameters are decoded, and the method is called. -/
def ExpandedMethod.replay (m : ExpandedMethod σ) (now : SystemTime) (e : EventRecord)
    (a : Agg (Emitting σ)) : Res String (Agg (Emitting σ)) :=
  match m.source.params.decode e with
  | .error msg => .error (.err msg)
  | .ok x =>
    match m.block.run now x a with
    | none => .error .panic
    | some a' => .ok a'

/-- **An aggregate as the macros leave it**: its methods, and the arms of `replay_event`. -/
structure ExpandedImpl (σ : Type) where
  default : σ
  methods : List (ExpandedMethod σ)
  arms : List (String × ExpandedMethod σ)
  upcasters : List EventUpcaster

namespace ExpandedImpl

/-- The generated `replay_event`: the first arm with the event's name. -/
def replayEvent (arms : List (String × ExpandedMethod σ)) (now : SystemTime) (e : EventRecord)
    (a : Agg (Emitting σ)) : Res String (Agg (Emitting σ)) :=
  match arms.find? (fun arm => arm.1 = e.eventName) with
  | none => .error (.err ("Unknown event: " ++ e.eventName))
  | some arm => arm.2.replay now e a

variable (I : ExpandedImpl σ)

/-- The generated implementation of the trait `Aggregate`. -/
def aggregate : Aggregate (Emitting σ) where
  default := ⟨I.default, EntityEmitter.default⟩
  replayEvent := replayEvent I.arms
  upcasters := I.upcasters

/-- **A call of a method**, which does not panic. -/
def Calls (a b : Agg (Emitting σ)) : Prop :=
  ∃ m ∈ I.methods, ∃ (now : SystemTime) (x : m.source.Args), m.block.run now x a = some b

/-- **A run of a client**, beginning with a new aggregate, as for
`#[sourced(entity, enqueue)]`. -/
def Run (a : Emitted σ) : Prop :=
  Relation.ReflTransGen (Emitted.Step I.Calls I.aggregate) ⟨I.aggregate.newEmpty, 0⟩ a

end ExpandedImpl

namespace MethodMacros

variable (default : σ) (items : List (EventItem σ)) (upcasters : List EventUpcaster)

/-- **`#[sourced]`** on an `impl` with these event methods. -/
def sourcedImpl (args : SourcedArgs) : ExpandedImpl σ where
  default := default
  methods := items.map (fun i => ⟨i.source, sourced args i.event .stmts⟩)
  arms := items.map (fun i => (i.event.eventName, ⟨i.source, sourced args i.event .stmts⟩))
  upcasters := upcasters

/-- **The methods with attributes of their own, and `aggregate!`** with an arm for each of some
of them, which passes the parameters as they come. -/
def standaloneImpl (stack : ∀ i : EventItem σ, List (MethodAttr i.source)) (arms : List (EventItem σ)) :
    ExpandedImpl σ where
  default := default
  methods := items.map (fun i => ⟨i.source, expand (stack i) .stmts⟩)
  arms := arms.map (fun i => (i.event.eventName, ⟨i.source, expand (stack i) .stmts⟩))
  upcasters := upcasters

/-- The definition that `EnqueueDefinition` has of the `impl`. -/
def sourcedDefinition : EnqueueDefinition σ :=
  ⟨default, items.map (fun i => i.event.method), upcasters⟩

section Impls

variable {default : σ} {items arms : List (EventItem σ)} {upcasters : List EventUpcaster}
  {args : SourcedArgs} {emitter : String} {stack : ∀ i : EventItem σ, List (MethodAttr i.source)}

/-- **What `#[sourced]` makes of a method** is the event method. -/
theorem run_sourced (hargs : args.enqueue = some emitter) (event : EventAttr M) (now : SystemTime)
    (x : M.Args) (a : Agg (Emitting σ)) :
    (sourced args event .stmts).run now x a = event.method.call now x a := by
  rw [sourced, run_wrap, hargs]
  rfl

/-- **What attributes of its own make of a method**, in any order, is the same. -/
theorem run_stack {event : EventAttr M} (hguard : Overlooks event.guard) {attrs : List (MethodAttr M)}
    (hdigest : attrs.filterMap MethodAttr.digest? = [event.digest args.entityField])
    (henqueue : attrs.filterMap MethodAttr.enqueue? = (args.enqueue.map event.enqueue).toList)
    (now : SystemTime) (x : M.Args) (a : Agg (Emitting σ)) :
    (expand attrs .stmts).run now x a = (sourced args event .stmts).run now x a := by
  have hattrs : ∀ attr ∈ attrs, attr.guard = event.guard := by
    intro attr hattr
    cases attr with
    | digest d =>
      have hd : d ∈ attrs.filterMap MethodAttr.digest? := List.mem_filterMap.mpr ⟨_, hattr, rfl⟩
      rw [hdigest, List.mem_singleton] at hd
      exact congrArg DigestArgs.guard hd
    | enqueue q =>
      have hq : q ∈ attrs.filterMap MethodAttr.enqueue? := List.mem_filterMap.mpr ⟨_, hattr, rfl⟩
      rw [henqueue, Option.mem_toList] at hq
      obtain ⟨emitter, -, rfl⟩ := Option.map_eq_some_iff.mp hq
      rfl
  have hnil : attrs ≠ [] := by
    rintro rfl
    simp at hdigest
  rw [run_expand hguard hattrs, calls_eq, hdigest, henqueue, sourced, run_wrap]
  simp only [hnil, false_or]
  cases args.enqueue <;> rfl

/-- A block under a guard compiles if its calls do. -/
theorem compiles_wrap {entity emitter : String} {guard : Option M.Guard} {prepend : List GeneratedCall}
    {block : MethodBlock M} :
    (wrapBodyWithGuard guard prepend block).Compiles entity emitter
      ↔ (∀ c ∈ prepend, c.Compiles entity emitter) ∧ block.Compiles entity emitter := by
  have hcalls : (prepend.foldr MethodBlock.call block).Compiles entity emitter
      ↔ (∀ c ∈ prepend, c.Compiles entity emitter) ∧ block.Compiles entity emitter := by
    induction prepend with
    | nil => simp
    | cons c cs ih =>
      show c.Compiles entity emitter ∧ (cs.foldr MethodBlock.call block).Compiles entity emitter ↔ _
      rw [ih, List.forall_mem_cons, and_assoc]
  cases guard <;> exact hcalls

theorem compiles_expand {entity emitter : String} {attrs : List (MethodAttr M)}
    {block : MethodBlock M} :
    (expand attrs block).Compiles entity emitter
      ↔ (∀ attr ∈ attrs, attr.call.Compiles entity emitter) ∧ block.Compiles entity emitter := by
  induction attrs generalizing block with
  | nil => simp [expand]
  | cons attr attrs ih =>
    show (expand attrs (attr.apply block)).Compiles entity emitter ↔ _
    rw [ih, attr.apply_eq, compiles_wrap, List.forall_mem_singleton, List.forall_mem_cons]
    exact and_left_comm.trans and_assoc.symm

/-- **Where they compile.** `#[sourced]` needs fields with the names it is given; an `#[enqueue]` of
its own asks the field `entity` whether it is replaying. -/
theorem compiles_iff {event : EventAttr M} {entity emitter : String} {attrs : List (MethodAttr M)}
    (hdigest : attrs.filterMap MethodAttr.digest? = [event.digest args.entityField])
    (henqueue : attrs.filterMap MethodAttr.enqueue? = (args.enqueue.map event.enqueue).toList) :
    (expand attrs (.stmts : MethodBlock M)).Compiles entity emitter
      ↔ (sourced args event (.stmts : MethodBlock M)).Compiles entity emitter
        ∧ (args.enqueue.isSome → entity = "entity") := by
  have hsplit : (∀ attr ∈ attrs, attr.call.Compiles entity emitter)
      ↔ (∀ d ∈ attrs.filterMap MethodAttr.digest?, d.entityField = entity)
        ∧ ∀ q ∈ attrs.filterMap MethodAttr.enqueue?,
          q.entityField = entity ∧ q.emitterField = emitter := by
    clear hdigest henqueue
    induction attrs with
    | nil => simp
    | cons attr attrs ih =>
      rw [List.forall_mem_cons, ih]
      cases attr with
      | digest d => simp [MethodAttr.digest?, MethodAttr.enqueue?, MethodAttr.call, generateDigestCall,
          GeneratedCall.Compiles, and_assoc]
      | enqueue q => simp [MethodAttr.digest?, MethodAttr.enqueue?, MethodAttr.call, generateEnqueueCall,
          GeneratedCall.Compiles, and_assoc, and_left_comm]
  rw [compiles_expand, hsplit, hdigest, henqueue, sourced, compiles_wrap]
  cases args.enqueue with
  | none => simp [generateDigestCall, GeneratedCall.Compiles, MethodBlock.Compiles, EventAttr.digest]
  | some e =>
    simp [generateDigestCall, generateEnqueueCall, GeneratedCall.Compiles, MethodBlock.Compiles,
      EventAttr.digest, EventAttr.enqueue]
    grind

/-- The arms of methods, with these blocks. -/
theorem replayEvent_map (block : ∀ i : EventItem σ, MethodBlock i.source) (now : SystemTime)
    (e : EventRecord) (a : Agg (Emitting σ)) :
    ExpandedImpl.replayEvent (items.map (fun i => (i.event.eventName, ⟨i.source, block i⟩))) now e a
      = match items.find? (fun i => i.event.eventName = e.eventName) with
        | none => .error (.err ("Unknown event: " ++ e.eventName))
        | some i => (⟨i.source, block i⟩ : ExpandedMethod σ).replay now e a := by
  rw [ExpandedImpl.replayEvent, List.find?_map]
  change (match (items.find? (fun i => i.event.eventName = e.eventName)).map
      (fun i => (i.event.eventName, (⟨i.source, block i⟩ : ExpandedMethod σ))) with
    | none => (.error (.err ("Unknown event: " ++ e.eventName)) : Res String (Agg (Emitting σ)))
    | some arm => arm.2.replay now e a) = _
  cases items.find? (fun i => i.event.eventName = e.eventName) <;> rfl

/-- Methods with blocks that do the same, in any order of their arms, make the same aggregate. -/
theorem replayEvent_alike {block block' : ∀ i : EventItem σ, MethodBlock i.source}
    (hrun : ∀ i ∈ items, ∀ now x a, (block i).run now x a = (block' i).run now x a)
    (hnd : (items.map (fun i => i.event.eventName)).Nodup) (harms : arms.Perm items) :
    ExpandedImpl.replayEvent (arms.map (fun i => (i.event.eventName, ⟨i.source, block i⟩)))
      = ExpandedImpl.replayEvent (items.map (fun i => (i.event.eventName, ⟨i.source, block' i⟩))) := by
  funext now e a
  have hperm : arms.find? (fun i => i.event.eventName = e.eventName)
      = items.find? (fun i => i.event.eventName = e.eventName) := by
    refine List.find?_eq_find?_of_perm harms ?_
    rintro i ⟨hi, hname⟩ j ⟨hj, hname'⟩
    exact List.inj_on_of_nodup_map hnd (harms.mem_iff.mp hi) (harms.mem_iff.mp hj)
      ((of_decide_eq_true hname).trans (of_decide_eq_true hname').symm)
  rw [replayEvent_map, replayEvent_map, hperm]
  cases hfind : items.find? (fun i => i.event.eventName = e.eventName) with
  | none => rfl
  | some i =>
    have hi : i ∈ items := List.mem_of_find?_eq_some hfind
    show (⟨i.source, block i⟩ : ExpandedMethod σ).replay now e a
      = (⟨i.source, block' i⟩ : ExpandedMethod σ).replay now e a
    unfold ExpandedMethod.replay
    dsimp only
    cases i.source.params.decode e with
    | error msg => rfl
    | ok x =>
      dsimp only
      rw [hrun i hi]

/-- **Attributes by themselves and `aggregate!` make what `#[sourced]` makes.** For all event
methods with guards that overlook what is recorded and queued, with one `#[digest]` each, and
one `#[enqueue]` if `#[sourced]` is to enqueue, in any order, and arms in any order: every
method does the same in every call, every event is replayed the same, and a client has the
same runs. -/
theorem run_standalone (hguard : ∀ i ∈ items, Overlooks i.event.guard)
    (hdigest : ∀ i ∈ items, (stack i).filterMap MethodAttr.digest? = [i.event.digest args.entityField])
    (henqueue : ∀ i ∈ items,
      (stack i).filterMap MethodAttr.enqueue? = (args.enqueue.map i.event.enqueue).toList)
    (hnd : (items.map (fun i => i.event.eventName)).Nodup) (harms : arms.Perm items) :
    (∀ i ∈ items, ∀ now x a,
      (expand (stack i) .stmts).run now x a = (sourced args i.event .stmts).run now x a)
    ∧ (standaloneImpl default items upcasters stack arms).aggregate
      = (sourcedImpl default items upcasters args).aggregate
    ∧ ∀ a, (standaloneImpl default items upcasters stack arms).Run a
      ↔ (sourcedImpl default items upcasters args).Run a := by
  have hrun : ∀ i ∈ items, ∀ now x a,
      (expand (stack i) .stmts).run now x a = (sourced args i.event .stmts).run now x a :=
    fun i hi now x a => run_stack (hguard i hi) (hdigest i hi) (henqueue i hi) now x a
  have hagg : (standaloneImpl default items upcasters stack arms).aggregate
      = (sourcedImpl default items upcasters args).aggregate :=
    congrArg (Aggregate.mk _ · upcasters) (replayEvent_alike hrun hnd harms)
  have hcalls : (standaloneImpl default items upcasters stack arms).Calls
      = (sourcedImpl default items upcasters args).Calls := by
    ext a b
    constructor
    · rintro ⟨m, hm, now, x, h⟩
      obtain ⟨i, hi, rfl⟩ := List.mem_map.mp hm
      exact ⟨_, List.mem_map.mpr ⟨i, hi, rfl⟩, now, x, (hrun i hi now x a).symm.trans h⟩
    · rintro ⟨m, hm, now, x, h⟩
      obtain ⟨i, hi, rfl⟩ := List.mem_map.mp hm
      exact ⟨_, List.mem_map.mpr ⟨i, hi, rfl⟩, now, x, (hrun i hi now x a).trans h⟩
  refine ⟨hrun, hagg, fun a => ?_⟩
  unfold ExpandedImpl.Run
  rw [hcalls, hagg]

/-- The aggregate `#[sourced]` makes is that of the definition. -/
theorem aggregate_sourcedImpl (hargs : args.enqueue = some emitter) :
    (sourcedImpl default items upcasters args).aggregate
      = (sourcedDefinition default items upcasters).aggregate := by
  refine congrArg (Aggregate.mk _ · upcasters) ?_
  funext now e a
  refine (replayEvent_map _ now e a).trans ?_
  show _ = EnqueueMethod.replayEvent (items.map (fun i => i.event.method)) now e a
  have hname : ((fun m => decide (m.name = e.eventName)) ∘ fun i : EventItem σ => i.event.method)
      = fun i => decide (i.event.eventName = e.eventName) := rfl
  rw [EnqueueMethod.replayEvent, List.find?_map, hname]
  cases items.find? (fun i => i.event.eventName = e.eventName) with
  | none => rfl
  | some i =>
    rw [Option.map_some]
    dsimp only
    unfold ExpandedMethod.replay
    dsimp only
    cases hdecode : i.source.params.decode e with
    | error msg => rw [show i.event.method.params.decode e = .error msg from hdecode]
    | ok x =>
      rw [show i.event.method.params.decode e = .ok x from hdecode]
      have hrun : (sourced args i.event .stmts).run now x a = i.event.method.call now x a :=
        run_sourced hargs i.event now x a
      dsimp only
      cases hcall : i.event.method.call now x a <;> simp [hrun, hcall]

/-- **What `#[sourced]` makes is what its definition says**, in every run. -/
theorem run_sourcedImpl (hargs : args.enqueue = some emitter) (a : Emitted σ) :
    (sourcedImpl default items upcasters args).Run a
      ↔ Emitted.Run (sourcedDefinition default items upcasters) a := by
  have hagg : (sourcedImpl default items upcasters args).aggregate
      = (sourcedDefinition default items upcasters).aggregate := aggregate_sourcedImpl hargs
  have hcalls : (sourcedImpl default items upcasters args).Calls
      = (sourcedDefinition default items upcasters).Calls := by
    ext a b
    constructor
    · rintro ⟨m, hm, now, x, h⟩
      obtain ⟨i, hi, rfl⟩ := List.mem_map.mp hm
      exact ⟨_, List.mem_map.mpr ⟨i, hi, rfl⟩, now, x, (run_sourced hargs i.event now x a).symm.trans h⟩
    · rintro ⟨m, hm, now, x, h⟩
      obtain ⟨i, hi, rfl⟩ := List.mem_map.mp hm
      exact ⟨_, List.mem_map.mpr ⟨i, hi, rfl⟩, now, x, (run_sourced hargs i.event now x a).trans h⟩
  unfold ExpandedImpl.Run Emitted.Run
  rw [hcalls, hagg]

end Impls

/-- The method that creates an order. -/
def orderCreated : EventItem String where
  source := ⟨String, .tuple EnqueueDefinition.ascii, EnqueueDefinition.orderCreated.toJson,
    fun _ a _ => some ("created", a.entity.setId "order-1")⟩
  event := ⟨"OrderCreated", none, none⟩

/-- The method that confirms it. -/
def orderConfirmed : EventItem String where
  source := ⟨Unit, .none Bitcode.unit, fun _ => some "null", fun _ a _ => some ("confirmed", a.entity)⟩
  event := ⟨"OrderConfirmed", some (fun a _ => a.fields.own = "created"), none⟩

/-- `#[digest]` above `#[enqueue]`. -/
def digestEnqueue (i : EventItem String) : List (MethodAttr i.source) :=
  [.digest (i.event.digest "entity"), .enqueue (i.event.enqueue "emitter")]

/-- **An order is created, and confirmed**, with the attributes by themselves and the arms the
other way, and so it is with `#[sourced]`. -/
theorem run_standalone_order : ∃ a : Emitted String,
    (standaloneImpl "" [orderCreated, orderConfirmed] [] digestEnqueue
      [orderConfirmed, orderCreated]).Run a
    ∧ (sourcedImpl "" [orderCreated, orderConfirmed] [] ⟨"entity", some "emitter"⟩).Run a
    ∧ a.agg.fields.own = "confirmed"
    ∧ a.queue.map LocalEvent.eventType = ["OrderCreated", "OrderConfirmed"]
    ∧ a.recorded.map EventRecord.eventName = ["OrderCreated", "OrderConfirmed"] := by
  have hguard : ∀ i ∈ [orderCreated, orderConfirmed], Overlooks i.event.guard := by
    intro i hi
    simp only [List.mem_cons, List.not_mem_nil, or_false] at hi
    rcases hi with rfl | rfl
    · intro g hg
      cases hg
    · intro g hg c now x a
      obtain rfl := Option.some.inj hg
      cases c with
      | digest => rfl
      | enqueue =>
        show decide ((if _ then _ else _ : Agg (Emitting String)).fields.own = "created") = _
        split <;> rfl
  let I := standaloneImpl "" [orderCreated, orderConfirmed] [] digestEnqueue
    [orderConfirmed, orderCreated]
  have h₀ : I.Run ⟨I.aggregate.newEmpty, 0⟩ := .refl
  have h₁ := h₀.tail (.call _ _ ⟨⟨orderCreated.source, expand (digestEnqueue orderCreated) .stmts⟩,
    List.mem_cons_self, SystemTime.unixEpoch, "alice", rfl⟩)
  have h₂ := h₁.tail (.call _ _ ⟨⟨orderConfirmed.source, expand (digestEnqueue orderConfirmed) .stmts⟩,
    List.mem_cons_of_mem _ List.mem_cons_self, SystemTime.unixEpoch, (), rfl⟩)
  exact ⟨_, h₂, ((run_standalone hguard (fun _ _ => rfl) (fun _ _ => rfl) (by decide)
    (List.Perm.swap _ _ _)).2.2 _).mp h₂, rfl, rfl, rfl⟩

/-! ## One guard for both -/

section Guards

variable {event : EventAttr M} {g : M.Guard} {args : SourcedArgs} {emitter : String} {now : SystemTime}
  {x : M.Args} {a : Agg (Emitting σ)}

/-- **Two attributes under one guard**: it is asked again after the call of the lower one. -/
theorem run_two {upper lower : MethodAttr M} {block : MethodBlock M} (hupper : upper.guard = some g)
    (hlower : lower.guard = some g) :
    (expand [upper, lower] block).run now x a
      = if g a x then
          if g (lower.call.run M now x a) x then
            block.run now x (upper.call.run M now x (lower.call.run M now x a))
          else some (lower.call.run M now x a)
        else some a := by
  show (lower.apply (upper.apply block)).run now x a = _
  rw [lower.apply_eq, upper.apply_eq, hupper, hlower]
  rfl

theorem run_of_replaying (ha : a.entity.replaying = true) (c : GeneratedCall) : c.run M now x a = a := by
  cases c with
  | digest entityField eventName version =>
    show Agg.mk a.fields (a.entity.digestAt now eventName (version.getD 1) M.params.codec x) = a
    rw [Entity.digestAt_of_replaying ha]
  | enqueue entityField emitterField eventName => simp [GeneratedCall.run, ha]

/-- Both calls, one after the other. -/
def both (args : SourcedArgs) (emitter : String) (event : EventAttr M) (now : SystemTime) (x : M.Args)
    (a : Agg (Emitting σ)) : Agg (Emitting σ) :=
  (MethodAttr.digest (event.digest args.entityField)).call.run M now x
    ((MethodAttr.enqueue (event.enqueue emitter)).call.run M now x a)

theorem run_guarded (hargs : args.enqueue = some emitter) (hguard : event.guard = some g) :
    (sourced args event .stmts).run now x a
      = if g a x then MethodBlock.stmts.run now x (both args emitter event now x a) else some a := by
  rw [run_sourced hargs]
  show (if holds event.guard a x then _ else _) = _
  rw [hguard]
  rfl

/-- **Outside a replay both calls do something**, and the statements do not undo it. -/
theorem run_both (hkeeps : event.method.KeepsRecorded) (ha : a.entity.replaying = false)
    (hidle : a.fields.emitter.isReplaying = false) {b : Agg (Emitting σ)}
    (h : MethodBlock.stmts.run now x (both args emitter event now x a) = some b) :
    b.fields.emitter ≠ a.fields.emitter ∧ b.entity.events ≠ a.entity.events := by
  obtain ⟨r, hr, rfl⟩ := Option.map_eq_some_iff.mp h
  have hemitter : (both args emitter event now x a).fields.emitter.eventsToEmit
      = a.fields.emitter.eventsToEmit ++ [⟨event.eventName, event.method.data x⟩] :=
    congrArg EntityEmitter.eventsToEmit (EnqueueMethod.emitter_prepend (m := event.method) ha hidle)
  have hevents : r.2.events
      = (a.entity.digestAt now event.eventName (event.version.getD 1) M.params.codec x).events :=
    (hkeeps _ _ _ _ hr).1.trans
      (congrArg Entity.events (EnqueueMethod.entity_prepend event.method now x a))
  refine ⟨fun hsame => ?_, fun hsame => ?_⟩
  · dsimp only at hsame
    rw [hsame] at hemitter
    simp at hemitter
  · rw [Entity.digestAt_eq ha] at hevents
    dsimp only at hsame
    rw [hsame] at hevents
    simp at hevents

/-- **When two attributes mean what `#[sourced]` does.** With one guard, and statements that
leave alone what is recorded, `#[digest]` above `#[enqueue]` does the same just where the guard
still holds once the event is queued, and `#[enqueue]` above `#[digest]` just where it still
holds once the event is recorded. -/
theorem stacks_iff (hargs : args.enqueue = some emitter) (hguard : event.guard = some g)
    (hkeeps : event.method.KeepsRecorded) (hidle : a.fields.emitter.isReplaying = false) :
    ((expand [.digest (event.digest args.entityField), .enqueue (event.enqueue emitter)]
        .stmts).run now x a = (sourced args event .stmts).run now x a
      ↔ (g a x → g ((MethodAttr.enqueue (event.enqueue emitter)).call.run M now x a) x))
    ∧ ((expand [.enqueue (event.enqueue emitter), .digest (event.digest args.entityField)]
        .stmts).run now x a = (sourced args event .stmts).run now x a
      ↔ (g a x → g ((MethodAttr.digest (event.digest args.entityField)).call.run M now x a) x)) := by
  have hdigest : (MethodAttr.digest (event.digest args.entityField)).guard = some g := hguard
  have henqueue : (MethodAttr.enqueue (event.enqueue emitter)).guard = some g := hguard
  rw [run_two hdigest henqueue, run_two henqueue hdigest, run_guarded hargs hguard]
  by_cases hg : g a x = true
  · cases ha : a.entity.replaying with
    | true => simp only [both, run_of_replaying ha, hg, if_true, implies_true, and_self]
    | false =>
      simp only [hg, if_true, true_imp_iff]
      refine ⟨⟨fun h => ?_, fun h => ?_⟩, fun h => ?_, fun h => ?_⟩
      · -- the event is queued, and not recorded
        by_contra hlower
        rw [if_neg hlower] at h
        refine (run_both hkeeps ha hidle h.symm).2 ?_
        simp [MethodAttr.call, generateEnqueueCall, GeneratedCall.run, ha, Agg.withEmitter]
      · rw [if_pos h]
        rfl
      · -- the event is recorded, and not queued
        by_contra hlower
        rw [if_neg hlower] at h
        exact (run_both hkeeps ha hidle h.symm).1 rfl
      · rw [if_pos h]
        exact congrArg _ (run_comm ..)
  · simp [hg]

end Guards

/-- The method that opens an account that has no events. -/
def opened : EventItem Unit where
  source := ⟨Unit, .none Bitcode.unit, fun _ => some "null", fun _ a _ => some ((), a.entity)⟩
  event := ⟨"Opened", some (fun a _ => a.entity.events.isEmpty), none⟩

/-- **An account is opened.** With `#[digest]` above `#[enqueue]` that is what `#[sourced]` makes
of it, and with `#[enqueue]` above `#[digest]` it is recorded and not opened. -/
theorem stacks_iff_opened :
    (expand [.digest (opened.event.digest "entity"), .enqueue (opened.event.enqueue "emitter")]
        .stmts).run SystemTime.unixEpoch () ⟨⟨(), EntityEmitter.default⟩, Entity.new⟩
      = (sourced ⟨"entity", some "emitter"⟩ opened.event .stmts).run SystemTime.unixEpoch ()
        ⟨⟨(), EntityEmitter.default⟩, Entity.new⟩
    ∧ (expand [.enqueue (opened.event.enqueue "emitter"), .digest (opened.event.digest "entity")]
        .stmts).run SystemTime.unixEpoch () ⟨⟨(), EntityEmitter.default⟩, Entity.new⟩
      ≠ (sourced ⟨"entity", some "emitter"⟩ opened.event .stmts).run SystemTime.unixEpoch ()
        ⟨⟨(), EntityEmitter.default⟩, Entity.new⟩ := by
  have hkeeps : opened.event.method.KeepsRecorded := by
    intro now a x r hbody
    obtain rfl := Option.some.inj hbody
    exact ⟨rfl, rfl⟩
  refine ⟨(stacks_iff rfl rfl hkeeps rfl).1.mpr fun _ => rfl, fun heq => ?_⟩
  exact absurd ((stacks_iff rfl rfl hkeeps rfl).2.mp heq rfl) (by decide)

end MethodMacros
