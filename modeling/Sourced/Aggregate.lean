import Sourced.Entity
import Sourced.Upcaster
import Sourced.RepositoryError

/-!
# Aggregates and hydration

A domain aggregate is a struct with an `Entity` in it and a way to replay an
event onto itself (`aggregate/aggregate.rs`). `hydrate` rebuilds one from an
entity: the default aggregate is given the entity, the entity's events are
upcast, and each is replayed with the entity's `replaying` flag set, so that
a replayed command records nothing.

An `Aggregate σ` is one implementation of the trait, for a struct whose own
fields are a `σ`. Replaying an event may read the clock – a command body may,
and a replay runs it – so it takes the reading; and it may fail, panic, or
loop, as any code of the aggregate's author may.
-/

/-- **A live aggregate**: its own fields and its entity. -/
structure Agg (σ : Type) where
  fields : σ
  entity : Entity
deriving DecidableEq

/-- **An implementation of the trait `Aggregate`** for a struct with the own
fields `σ`. -/
structure Aggregate (σ : Type) where
  /-- The own fields of `Self::default()`. -/
  default : σ
  /-- `replay_event`, at a clock reading. -/
  replayEvent : SystemTime → EventRecord → Agg σ → Res String (Agg σ)
  /-- `upcasters()`. -/
  upcasters : List EventUpcaster

namespace Aggregate

variable {σ : Type} (A : Aggregate σ) (now : SystemTime)

/-- `Aggregate::new_empty`. -/
def newEmpty : Agg σ := ⟨A.default, Entity.new⟩

/-- The replay loop of `hydrate`: the events one after the other, to the
first that fails. -/
def replayAll (es : List EventRecord) (a : Agg σ) : Res String (Agg σ) :=
  es.foldlM (fun a e => A.replayEvent now e a) a

/-- The events `hydrate` replays: the upcast ones, or the events as they are
where no upcaster is registered. -/
def upcast (es : List EventRecord) : RepoRes (List EventRecord) :=
  if A.upcasters.isEmpty then .ok es
  else
    match upcastEvents A.upcasters es with
    | some es => .ok es
    | none => .error .diverge

/-- The end of `hydrate` and of `hydrate_from_snapshot`: the events are replayed
with the entity's flag set, which is then taken back. -/
def replay (events : List EventRecord) (agg : Agg σ) : RepoRes (Agg σ) := do
  let agg ← (A.replayAll now events
    { agg with entity := agg.entity.setReplaying true }).mapErr .replay
  return { agg with entity := agg.entity.setReplaying false }

/-- **`hydrate`.** -/
def hydrate (entity : Entity) : RepoRes (Agg σ) := do
  let agg : Agg σ := { A.newEmpty with entity := entity }
  let events ← A.upcast agg.entity.events
  A.replay now events agg

/-! ## The replay of a list in two parts -/

@[simp] theorem replayAll_nil (a : Agg σ) : A.replayAll now [] a = .ok a := rfl

theorem replayAll_cons (e : EventRecord) (es : List EventRecord) (a : Agg σ) :
    A.replayAll now (e :: es) a = (A.replayEvent now e a).bind (A.replayAll now es) := rfl

theorem replayAll_append (es₁ es₂ : List EventRecord) (a : Agg σ) :
    A.replayAll now (es₁ ++ es₂) a = (A.replayAll now es₁ a).bind (A.replayAll now es₂) := by
  unfold replayAll
  rw [List.foldlM_append]
  rfl

/-- With no upcasters, or with a table that always ends, the events replayed
are those of `upcast_events`. -/
theorem upcast_eq (es : List EventRecord) :
    A.upcast es
      = match upcastEvents A.upcasters es with
        | some es => .ok es
        | none => .error .diverge := by
  unfold upcast
  cases hus : A.upcasters with
  | nil => simp
  | cons u us => rfl

/-- **A hydration that succeeds**: its events upcast, and its replay ended in
an aggregate, whose flag is then taken back. -/
theorem hydrate_eq_ok {entity : Entity} {a : Agg σ} :
    A.hydrate now entity = .ok a
      ↔ ∃ es b, A.upcast entity.events = .ok es
          ∧ A.replayAll now es ⟨A.default, entity.setReplaying true⟩ = .ok b
          ∧ a = ⟨b.fields, b.entity.setReplaying false⟩ := by
  unfold hydrate replay newEmpty
  dsimp only
  cases hup : A.upcast entity.events with
  | error f => simp [Bind.bind, Except.bind]
  | ok es =>
    simp only [Bind.bind, Except.bind]
    cases hre : A.replayAll now es ⟨A.default, entity.setReplaying true⟩ with
    | error f => rcases f with e | _ | _ <;> simp [Res.mapErr, hre]
    | ok b => simp [Res.mapErr, hre, Pure.pure, Except.pure, eq_comm]

end Aggregate
