import Sourced.OutboxMessage
import Sourced.ReadModels

/-!
# `CommitBuilder`

A builder collects outbox messages and read models and commits them together
with what it is given (`commit_builder/mod.rs`). The entities go to the
repository in one call, and the read models after it, one call each, to the
first that is refused. Each of these calls is atomic; the sequence of them is
not, and there is nothing that takes back what the calls before a refused one
have written.

What a builder needs of a repository is a `ModelRepo`: what its calls do, and
what can be seen of its streams and models. That its calls are all-or-nothing
is `ModelRepo.AllOrNothing`. For every such repository `Builds.atomic_iff` says
exactly when a commit is atomic: where no model is refused after something has
been written.
-/

variable {σ : Type}

/-! ## The actions of a repository with read models -/

/-- **The atomic actions** of a repository that keeps read models, as far as
its commits and point reads go. -/
inductive StoreAction where
  | getOne (id : String)
  | commit (es : List Entity)
  | upsertRaw (key : String) (bytes : Bytes)

/-- The response to an action. -/
@[reducible] def StoreAction.Resp : StoreAction → Type
  | .getOne _ => RepoRes (Option Entity)
  | .commit _ => RepoRes Unit × List Entity
  | .upsertRaw _ _ => Res ReadModelError Unit

/-- A program of a repository with read models. -/
abbrev StoreProg (α : Type) := Prog StoreAction StoreAction.Resp α

/-- A fallible call on one. -/
abbrev StoreOp (α : Type) := Call RepositoryError StoreAction StoreAction.Resp α

/-! ## The builder -/

/-- `QueuedModel`. -/
structure QueuedModel where
  key : String
  bytes : Bytes
deriving DecidableEq

/-- **`CommitBuilder`.** -/
structure CommitBuilder where
  entities : List Entity
  models : List QueuedModel

namespace CommitBuilder

/-- `CommitBuilder::new`. -/
def new : CommitBuilder := ⟨[], []⟩

/-- `readmodel`; `none` is the panic of a model that does not serialize. -/
def readmodel {M : Type} (V : ReadModel M) (b : CommitBuilder) (model : M) :
    Option CommitBuilder :=
  match V.toVec model with
  | .ok bytes => some { b with models := b.models ++ [⟨V.key model, bytes⟩] }
  | .error _ => none

/-- `outbox`. -/
def outbox (b : CommitBuilder) (msg : Agg OutboxMessage) : CommitBuilder :=
  { b with entities := b.entities ++ [msg.entity] }

/-- `upsert_raw(&queued.key, queued.bytes)?`. -/
def writeModel (q : QueuedModel) : StoreOp Unit :=
  Prog.act (StoreAction.upsertRaw q.key q.bytes)
    (fun r => Prog.ret (r.mapErr RepositoryError.ofReadModel))

/-- The loop over the queued read models. -/
def writeModels : List QueuedModel → StoreOp Unit := Call.forEach writeModel

/-- What the commits have in common: the builder's entities and those passed go
to the repository in one call, and the read models after it. -/
def commitEntities (b : CommitBuilder) (passed : List Entity) :
    StoreProg (RepoRes Unit × List Entity) :=
  Prog.act (StoreAction.commit (b.entities ++ passed)) (fun out =>
    match out.1 with
    | .ok () => (writeModels b.models).map (fun r => (r, out.2.drop b.entities.length))
    | .error e => Prog.ret (.error e, out.2.drop b.entities.length))

/-- **`commit`.** -/
def commit (b : CommitBuilder) (agg : Agg σ) : StoreProg (RepoRes Unit × Agg σ) :=
  (b.commitEntities [agg.entity]).map (fun out =>
    (out.1, { agg with entity := out.2.headD agg.entity }))

/-- **`commit_many`.** -/
def commitMany (b : CommitBuilder) (es : List Entity) : StoreProg (RepoRes Unit × List Entity) :=
  b.commitEntities es

/-- **`commit_all`**: without entities there is no call for them. -/
def commitAll (b : CommitBuilder) : StoreOp Unit :=
  if b.entities.isEmpty then writeModels b.models
  else (b.commitEntities []).map Prod.fst

end CommitBuilder

/-! ## Repositories whose calls are atomic -/

/-- **A repository that keeps read models**: what its actions do, and what can be
seen of it. -/
structure ModelRepo (S : Type) where
  exec : (a : StoreAction) → S → Option (a.Resp × S)
  streams : S → String → Option (List EventRecord)
  models : S → String → Option Bytes

/-- The models after a list of writes. -/
def QueuedModel.written (qs : List QueuedModel) (models : String → Option Bytes) :
    String → Option Bytes :=
  qs.foldl (fun models q => Function.update models q.key (some q.bytes)) models

namespace ModelRepo

variable {S : Type}

/-- **Each call is all-or-nothing**, though it may be refused at any time. -/
structure AllOrNothing (R : ModelRepo S) : Prop where
  commit_ok : ∀ {s s' : S} {es es' : List Entity},
    R.exec (.commit es) s = some ((.ok (), es'), s') →
      es' = es.map Entity.markCommitted ∧ R.streams s' = EventStore.appended es (R.streams s)
        ∧ R.models s' = R.models s
  commit_err : ∀ {s s' : S} {es es' : List Entity} {e : RepositoryError},
    R.exec (.commit es) s = some ((.error (.err e), es'), s') →
      es' = es ∧ R.streams s' = R.streams s ∧ R.models s' = R.models s
  upsertRaw_ok : ∀ {s s' : S} {key : String} {bytes : Bytes},
    R.exec (.upsertRaw key bytes) s = some (.ok (), s') →
      R.streams s' = R.streams s ∧ R.models s' = Function.update (R.models s) key (some bytes)
  upsertRaw_err : ∀ {s s' : S} {key : String} {bytes : Bytes} {e : ReadModelError},
    R.exec (.upsertRaw key bytes) s = some (.error (.err e), s') →
      R.streams s' = R.streams s ∧ R.models s' = R.models s

/-- **A commit is atomic**: where it returns an error nothing has changed, neither
in the repository nor in what the passed entities have to commit; and where it
returns everything has been written. -/
structure Atomic (R : ModelRepo S) (s : S) (b : CommitBuilder) (passed : List Entity)
    (ends : Option ((RepoRes Unit × List Entity) × S)) : Prop where
  failed : ∀ e passed' s', ends = some ((.error (.err e), passed'), s') →
    R.streams s' = R.streams s ∧ R.models s' = R.models s
      ∧ passed'.map Entity.committedVersion = passed.map Entity.committedVersion
      ∧ passed'.map Entity.newEvents = passed.map Entity.newEvents
  returned : ∀ passed' s', ends = some ((.ok (), passed'), s') →
    R.streams s' = EventStore.appended (b.entities ++ passed) (R.streams s)
      ∧ R.models s' = QueuedModel.written b.models (R.models s)

/-- **A queued model is refused** after those in `done` were accepted. -/
def Refuses (R : ModelRepo S) (s : S) (models done : List QueuedModel) : Prop :=
  ∃ e s', Call.Stops R.exec CommitBuilder.writeModel s models done (.err e) s'

/-- **There was nothing to write**: the entities add nothing to the streams, the
models are already there, and the passed entities have no version to commit. -/
structure Unneeded (R : ModelRepo S) (s : S) (es passed : List Entity) (done : List QueuedModel) :
    Prop where
  streams : EventStore.appended es (R.streams s) = R.streams s
  models : QueuedModel.written done (R.models s) = R.models s
  versions : ∀ e ∈ passed, e.version = e.committedVersion

/-- **No model is refused after something was written**, where the entities are
committed. -/
def Safe (R : ModelRepo S) (s : S) (b : CommitBuilder) (passed : List Entity) : Prop :=
  ∀ es' s₁ done, R.exec (.commit (b.entities ++ passed)) s = some ((.ok (), es'), s₁) →
    R.Refuses s₁ b.models done → R.Unneeded s (b.entities ++ passed) passed done

/-- The same for a commit that may have no entities. -/
def SafeAll (R : ModelRepo S) (s : S) (b : CommitBuilder) : Prop :=
  if b.entities = [] then ∀ done, R.Refuses s b.models done → R.Unneeded s [] [] done
  else R.Safe s b []

end ModelRepo

namespace ModelRepo

variable {S : Type} {R : ModelRepo S} {s s' : S}

open CommitBuilder

/-! ## The writes of the models -/

theorem exec_of_writeModel_ok {q : QueuedModel}
    (h : Prog.run R.exec (writeModel q) s = some (.ok (), s')) :
    R.exec (.upsertRaw q.key q.bytes) s = some (.ok (), s') := by
  rw [writeModel, Prog.run_act] at h
  obtain ⟨⟨r, s₁⟩, hexec, hret⟩ := Option.bind_eq_some_iff.mp h
  obtain ⟨hr, rfl⟩ := Prod.mk.inj (Option.some.inj hret)
  obtain rfl : r = .ok () := Res.mapErr_eq_ok.mp hr
  exact hexec

theorem exec_of_writeModel_err {q : QueuedModel} {e : RepositoryError}
    (h : Prog.run R.exec (writeModel q) s = some (.error (.err e), s')) :
    ∃ e', R.exec (.upsertRaw q.key q.bytes) s = some (.error (.err e'), s') := by
  rw [writeModel, Prog.run_act] at h
  obtain ⟨⟨r, s₁⟩, hexec, hret⟩ := Option.bind_eq_some_iff.mp h
  obtain ⟨hr, rfl⟩ := Prod.mk.inj (Option.some.inj hret)
  obtain ⟨e', -, rfl⟩ := Res.mapErr_eq_err.mp hr
  exact ⟨e', hexec⟩

/-- **Models that are all accepted** are written, and the streams stay. -/
theorem AllOrNothing.turns (hR : R.AllOrNothing) {qs : List QueuedModel}
    (h : Call.Turns R.exec writeModel s qs s') :
    R.streams s' = R.streams s ∧ R.models s' = QueuedModel.written qs (R.models s) := by
  induction h with
  | nil s => exact ⟨rfl, rfl⟩
  | cons hx _ ih =>
    obtain ⟨hstreams, hmodels⟩ := hR.upsertRaw_ok (exec_of_writeModel_ok hx)
    refine ⟨ih.1.trans hstreams, ih.2.trans ?_⟩
    rw [hmodels]
    rfl

/-- **Where a model is refused** those before it are written. -/
theorem AllOrNothing.stops (hR : R.AllOrNothing) {qs done : List QueuedModel} {e : RepositoryError}
    (h : Call.Stops R.exec writeModel s qs done (.err e) s') :
    R.streams s' = R.streams s ∧ R.models s' = QueuedModel.written done (R.models s) := by
  obtain ⟨q, rest, s₁, -, hdone, hq⟩ := h
  obtain ⟨e', hexec⟩ := exec_of_writeModel_err hq
  obtain ⟨hstreams, hmodels⟩ := hR.upsertRaw_err hexec
  obtain ⟨hstreams', hmodels'⟩ := hR.turns hdone
  exact ⟨hstreams.trans hstreams', hmodels.trans hmodels'⟩

/-! ## The commits -/

/-- **How a commit ends**: the entities fail, or they are accepted and the writes
of the models end it. -/
theorem run_commitEntities {b : CommitBuilder} {passed passed' : List Entity} {r : RepoRes Unit} :
    (b.commitEntities passed).run R.exec s = some ((r, passed'), s')
      ↔ (∃ e es', R.exec (.commit (b.entities ++ passed)) s = some ((.error e, es'), s')
          ∧ r = .error e ∧ passed' = es'.drop b.entities.length)
        ∨ ∃ es' s₁, R.exec (.commit (b.entities ++ passed)) s = some ((.ok (), es'), s₁)
          ∧ Prog.run R.exec (writeModels b.models) s₁ = some (r, s')
          ∧ passed' = es'.drop b.entities.length := by
  rw [commitEntities, Prog.run_act, Option.bind_eq_some_iff]
  constructor
  · rintro ⟨⟨⟨_ | ⟨⟩, es'⟩, s₁⟩, hexec, hrun⟩
    case error e =>
      obtain ⟨hout, rfl⟩ := Prod.mk.inj (Option.some.inj hrun)
      obtain ⟨rfl, rfl⟩ := Prod.mk.inj hout
      exact Or.inl ⟨e, es', hexec, rfl, rfl⟩
    case ok =>
      rw [Prog.run_map] at hrun
      obtain ⟨⟨r', s₂⟩, hmodels, heq⟩ := Option.map_eq_some_iff.mp hrun
      obtain ⟨hout, rfl⟩ : (r', es'.drop b.entities.length) = (r, passed') ∧ s₂ = s' :=
        Prod.mk.inj heq
      obtain ⟨rfl, rfl⟩ := Prod.mk.inj hout
      exact Or.inr ⟨es', s₁, hexec, hmodels, rfl⟩
  · rintro (⟨e, es', hexec, rfl, rfl⟩ | ⟨es', s₁, hexec, hmodels, rfl⟩)
    · exact ⟨_, hexec, rfl⟩
    · refine ⟨_, hexec, ?_⟩
      show Prog.run R.exec ((writeModels b.models).map _) s₁ = _
      rw [Prog.run_map, hmodels]
      rfl

/-- **What the passed entities are after a commit** that did not panic: as they
were, or all of them marked. -/
theorem AllOrNothing.passed_eq (hR : R.AllOrNothing) {b : CommitBuilder} {passed passed' : List Entity}
    {r : RepoRes Unit} (hr : r = .ok () ∨ ∃ e, r = .error (.err e))
    (h : (b.commitEntities passed).run R.exec s = some ((r, passed'), s')) :
    passed' = passed ∨ passed' = passed.map Entity.markCommitted := by
  rcases run_commitEntities.mp h with ⟨e, es', hexec, rfl, rfl⟩ | ⟨es', s₁, hexec, -, rfl⟩
  · obtain ⟨e', rfl⟩ : ∃ e', e = .err e' := by simpa using hr
    rw [(hR.commit_err hexec).1]
    exact Or.inl List.drop_left
  · rw [(hR.commit_ok hexec).1, List.map_append]
    exact Or.inr (List.drop_left' (List.length_map _))

/-- **A commit is atomic exactly where it is safe**: no model is refused after
something was written. -/
theorem AllOrNothing.atomic_iff_safe (hR : R.AllOrNothing) (s : S) (b : CommitBuilder)
    (passed : List Entity) :
    R.Atomic s b passed ((b.commitEntities passed).run R.exec s) ↔ R.Safe s b passed := by
  constructor
  · intro hatomic es' s₁ done hexec hrefuses
    obtain ⟨e, s', hstops⟩ := hrefuses
    obtain ⟨hes, hstreams₁, hmodels₁⟩ := hR.commit_ok hexec
    obtain ⟨hstreams, hmodels⟩ := hR.stops hstops
    -- the call returns the error of the refused model
    obtain ⟨hs, hm, hversions, -⟩ := hatomic.failed e _ s' (run_commitEntities.mpr
      (Or.inr ⟨es', s₁, hexec, Call.run_forEach_eq_error.mpr ⟨done, hstops⟩, rfl⟩))
    refine ⟨?_, ?_, ?_⟩
    · rw [← hstreams₁, ← hstreams, hs]
    · rw [← hmodels₁, ← hmodels, hm, hmodels₁]
    · rw [hes, List.map_append, List.drop_left' (List.length_map _), List.map_map] at hversions
      exact List.map_inj_left.mp hversions
  · intro hsafe
    refine ⟨fun e passed' s' hrun => ?_, fun passed' s' hrun => ?_⟩
    · rcases run_commitEntities.mp hrun with ⟨f, es', hexec, hf, rfl⟩ | ⟨es', s₁, hexec, hmodels, rfl⟩
      · obtain rfl : .err e = f := Except.error.inj hf
        obtain ⟨rfl, hstreams, hmodels⟩ := hR.commit_err hexec
        rw [List.drop_left]
        exact ⟨hstreams, hmodels, rfl, rfl⟩
      · obtain ⟨done, hstops⟩ := Call.run_forEach_eq_error.mp hmodels
        have hun := hsafe es' s₁ done hexec ⟨e, s', hstops⟩
        obtain ⟨rfl, hstreams₁, hmodels₁⟩ := hR.commit_ok hexec
        obtain ⟨hstreams, hmodels'⟩ := hR.stops hstops
        -- marking an entity with nothing to commit leaves it as it is
        have hmark : passed.map Entity.markCommitted = passed := by
          refine (List.map_congr_left fun e he => ?_).trans (List.map_id passed)
          exact Entity.markCommitted_eq_self (hun.versions e he)
        rw [List.map_append, List.drop_left' (List.length_map _), hmark]
        refine ⟨?_, ?_, rfl, rfl⟩
        · rw [hstreams, hstreams₁, hun.streams]
        · rw [hmodels', hmodels₁, hun.models]
    · rcases run_commitEntities.mp hrun with ⟨f, es', hexec, hf, rfl⟩ | ⟨es', s₁, hexec, hmodels, rfl⟩
      · cases hf
      · obtain ⟨-, hstreams₁, hmodels₁⟩ := hR.commit_ok hexec
        obtain ⟨hstreams, hmodels'⟩ := hR.turns (Call.run_forEach_eq_ok.mp hmodels)
        exact ⟨hstreams.trans hstreams₁, hmodels'.trans (congrArg _ hmodels₁)⟩

/-- The same for a call that gives the passed entities back in another form. -/
theorem AllOrNothing.atomic_map_iff_safe (hR : R.AllOrNothing) (s : S) (b : CommitBuilder)
    (passed : List Entity) {f : List Entity → List Entity}
    (hf : ∀ es, es.length = passed.length → f es = es) :
    R.Atomic s b passed (((b.commitEntities passed).map (fun out => (out.1, f out.2))).run R.exec s)
      ↔ R.Safe s b passed := by
  rw [← hR.atomic_iff_safe, Prog.run_map]
  have hends : ∀ r passed' s', (r = .ok () ∨ ∃ e, r = .error (.err e)) →
      (((b.commitEntities passed).run R.exec s).map (fun xs => ((xs.1.1, f xs.1.2), xs.2))
          = some ((r, passed'), s')
        ↔ (b.commitEntities passed).run R.exec s = some ((r, passed'), s')) := by
    intro r passed' s' hr
    have hlen : ∀ es, (b.commitEntities passed).run R.exec s = some ((r, es), s') → f es = es := by
      intro es hrun
      refine hf es ?_
      rcases hR.passed_eq hr hrun with rfl | rfl
      · rfl
      · exact List.length_map _
    constructor
    · intro hmap
      obtain ⟨⟨⟨r', es⟩, s₁⟩, hrun, heq⟩ := Option.map_eq_some_iff.mp hmap
      obtain ⟨hout, rfl⟩ := Prod.mk.inj heq
      obtain ⟨rfl, rfl⟩ := Prod.mk.inj hout
      rw [hrun]
      exact congrArg (fun es => some ((r', es), s₁)) (hlen es hrun).symm
    · intro hrun
      rw [hrun]
      exact congrArg (fun es => some ((r, es), s')) (hlen passed' hrun)
  constructor
  · intro h
    exact ⟨fun e passed' s' hrun => h.failed e passed' s' ((hends _ _ _ (Or.inr ⟨e, rfl⟩)).mpr hrun),
      fun passed' s' hrun => h.returned passed' s' ((hends _ _ _ (Or.inl rfl)).mpr hrun)⟩
  · intro h
    exact ⟨fun e passed' s' hrun => h.failed e passed' s' ((hends _ _ _ (Or.inr ⟨e, rfl⟩)).mp hrun),
      fun passed' s' hrun => h.returned passed' s' ((hends _ _ _ (Or.inl rfl)).mp hrun)⟩

/-- A commit with nothing passed, which has no call for the entities where the
builder has none. -/
theorem AllOrNothing.atomic_commitAll_iff (hR : R.AllOrNothing) (s : S) (b : CommitBuilder) :
    R.Atomic s b [] ((Prog.map (fun r => (r, [])) b.commitAll).run R.exec s) ↔ R.SafeAll s b := by
  unfold commitAll SafeAll
  by_cases hb : b.entities = []
  · rw [if_pos hb, if_pos (List.isEmpty_iff.mpr hb), Prog.run_map]
    have hnone : EventStore.appended [] (R.streams s) = R.streams s := by
      funext id
      exact if_neg (by simp)
    constructor
    · intro hatomic done hrefuses
      obtain ⟨e, s', hstops⟩ := hrefuses
      have hrun : Prog.run R.exec (writeModels b.models) s = some (.error (.err e), s') :=
        Call.run_forEach_eq_error.mpr ⟨done, hstops⟩
      obtain ⟨-, hm, -⟩ := hatomic.failed e [] s' (congrArg (Option.map _) hrun)
      exact ⟨hnone, (hR.stops hstops).2.symm.trans hm, fun e he => absurd he List.not_mem_nil⟩
    · intro hsafe
      refine ⟨fun e passed' s' hmap => ?_, fun passed' s' hmap => ?_⟩
      · obtain ⟨⟨r, s₁⟩, hrun, heq⟩ := Option.map_eq_some_iff.mp hmap
        obtain ⟨hout, rfl⟩ := Prod.mk.inj heq
        obtain ⟨rfl, rfl⟩ := Prod.mk.inj hout
        obtain ⟨done, hstops⟩ := Call.run_forEach_eq_error.mp hrun
        obtain ⟨hstreams, hmodels⟩ := hR.stops hstops
        exact ⟨hstreams, hmodels.trans (hsafe done ⟨e, s₁, hstops⟩).models, rfl, rfl⟩
      · obtain ⟨⟨r, s₁⟩, hrun, heq⟩ := Option.map_eq_some_iff.mp hmap
        obtain ⟨hout, rfl⟩ := Prod.mk.inj heq
        obtain ⟨rfl, rfl⟩ := Prod.mk.inj hout
        obtain ⟨hstreams, hmodels⟩ := hR.turns (Call.run_forEach_eq_ok.mp hrun)
        rw [hb, List.append_nil, hnone]
        exact ⟨hstreams, hmodels⟩
  · rw [if_neg hb, if_neg (fun h => hb (List.isEmpty_iff.mp h)), Prog.map_map]
    exact hR.atomic_map_iff_safe s b [] (f := fun _ => [])
      (fun es hes => (List.length_eq_zero_iff.mp hes).symm)

/-- **A repository whose models cannot be written**: every such write is refused
with the error given. -/
def refusing (R : ModelRepo S) (e : ReadModelError) : ModelRepo S where
  exec
    | .getOne id, s => R.exec (.getOne id) s
    | .commit es, s => R.exec (.commit es) s
    | .upsertRaw _ _, s => some (.error (.err e), s)
  streams := R.streams
  models := R.models

theorem AllOrNothing.refusing (hR : R.AllOrNothing) (e : ReadModelError) :
    (R.refusing e).AllOrNothing where
  commit_ok := hR.commit_ok
  commit_err := hR.commit_err
  upsertRaw_ok h := nomatch h
  upsertRaw_err h := by
    obtain ⟨-, rfl⟩ := Prod.mk.inj (Option.some.inj h)
    exact ⟨rfl, rfl⟩

end ModelRepo

/-! ## `HashMapRepository` -/

/-- **The event and the model store of a `HashMapRepository`.** -/
structure HashMapStores where
  events : EventStore
  models : InMemoryReadModelStore

namespace HashMapStores

/-- Both stores empty. -/
def new : HashMapStores := ⟨EventStore.new, InMemoryReadModelStore.new⟩

variable (checks : OverflowChecks)

/-- What the actions do: each of the two stores has a lock of its own. -/
def exec : (a : StoreAction) → HashMapStores → Option (a.Resp × HashMapStores)
  | .getOne id, s => some (s.events.getOne id, s)
  | .commit es, s =>
    some (((s.events.commit es).1, (s.events.commit es).2.1),
      { s with events := (s.events.commit es).2.2 })
  | .upsertRaw key bytes, s =>
    some ((s.models.upsertRaw checks key bytes).1,
      { s with models := (s.models.upsertRaw checks key bytes).2 })

/-- **`HashMapRepository`** as a repository with read models. -/
def repo : ModelRepo HashMapStores := ⟨exec checks, fun s => s.events.lookup, fun s => s.models.model⟩

/-- **Its calls are all-or-nothing.** -/
theorem allOrNothing : (repo checks).AllOrNothing where
  commit_ok {s s' es es'} h := by
    obtain ⟨hout, rfl⟩ := Prod.mk.inj (Option.some.inj h)
    obtain ⟨hr, hes⟩ := Prod.mk.inj hout
    obtain ⟨hmark, hevents⟩ := EventStore.commit_eq_ok (s := s.events)
      (Prod.ext hr (Prod.ext hes rfl))
    exact ⟨hmark, (congrArg EventStore.lookup hevents).trans (EventStore.lookup_extendAll s.events es),
      rfl⟩
  commit_err {s s' es es' e} h := by
    obtain ⟨hout, rfl⟩ := Prod.mk.inj (Option.some.inj h)
    obtain ⟨hr, hes⟩ := Prod.mk.inj hout
    obtain ⟨hsame, hevents⟩ := EventStore.commit_eq_err (s := s.events)
      (Prod.ext hr (Prod.ext hes rfl))
    exact ⟨hsame, congrArg EventStore.lookup hevents, rfl⟩
  upsertRaw_ok {s s' key bytes} h := by
    obtain ⟨hr, rfl⟩ := Prod.mk.inj (Option.some.inj h)
    exact ⟨rfl, InMemoryReadModelStore.model_of_upsertRaw_ok (Prod.ext hr rfl)⟩
  upsertRaw_err {s s' key bytes e} h := by
    obtain ⟨hr, rfl⟩ := Prod.mk.inj (Option.some.inj h)
    exact ⟨rfl, congrArg InMemoryReadModelStore.model
      (InMemoryReadModelStore.eq_of_upsertRaw_err (Prod.ext hr rfl))⟩

end HashMapStores

/-! ## When a commit is atomic -/

namespace CommitBuilder

variable {S : Type} {R : ModelRepo S}

/-- **Exactly when a commit is atomic**, in each of its three forms: where the
repository refuses no read model after something has been written. The entities are
committed first and the models after them, one by one, so that a refusal leaves in place
whatever came before it. -/
theorem atomic_iff (hR : R.AllOrNothing) (b : CommitBuilder) (s : S) :
    (∀ (σ : Type) (agg : Agg σ), R.Atomic s b [agg.entity]
        (((b.commit agg).map (fun out => (out.1, [out.2.entity]))).run R.exec s)
      ↔ R.Safe s b [agg.entity])
    ∧ (∀ es : List Entity, R.Atomic s b es ((b.commitMany es).run R.exec s) ↔ R.Safe s b es)
    ∧ (R.Atomic s b [] ((Prog.map (fun r => (r, [])) b.commitAll).run R.exec s) ↔ R.SafeAll s b) := by
  refine ⟨fun σ agg => ?_, fun es => hR.atomic_iff_safe s b es, ?_⟩
  · rw [commit, Prog.map_map]
    refine hR.atomic_map_iff_safe s b [agg.entity] (f := fun es => [es.headD agg.entity]) ?_
    intro es hes
    obtain ⟨e, rfl⟩ := List.length_eq_one_iff.mp hes
    rfl
  · exact hR.atomic_commitAll_iff s b

/-- A game that has recorded its first move. -/
def movedGame : Entity :=
  { Entity.withId "game-42" with
    version := 1
    events := [EventRecord.new "Moved" [] 1 SystemTime.unixEpoch] }

/-- A commit with the view of a game. -/
def gameCommit : CommitBuilder := ⟨[], [⟨"game_views:game-42", [1]⟩]⟩

/-- A game and its view are committed to an empty `HashMapRepository`. -/
theorem atomic_game :
    (HashMapStores.repo true).Atomic HashMapStores.new gameCommit [movedGame]
      (((gameCommit.commit (⟨(), movedGame⟩ : Agg Unit)).map
        (fun out => (out.1, [out.2.entity]))).run (HashMapStores.repo true).exec
          HashMapStores.new) := by
  refine ((atomic_iff (HashMapStores.allOrNothing true) gameCommit HashMapStores.new).1 Unit
    ⟨(), movedGame⟩).mpr (fun es' s₁ done hexec hrefuses => ?_)
  -- the model store is empty, and accepts the view
  obtain ⟨-, rfl⟩ := Prod.mk.inj (Option.some.inj hexec)
  obtain ⟨e, s', q, rest, s₂, hsplit, hdone, hrun⟩ := hrefuses
  cases hdone with
  | nil =>
    obtain ⟨rfl, -⟩ := List.cons.inj hsplit
    cases hrun
  | cons hx hxs => exact absurd (congrArg List.length hsplit) (by simp [gameCommit])

/-- **A refused read model leaves the events committed**: the commit of a game
with its view to a repository whose models cannot be written returns an error,
and the game's stream has its event. -/
theorem refused_view_leaves_events :
    ((HashMapStores.repo true).refusing (.storage "disk full")).AllOrNothing
      ∧ ¬ ((HashMapStores.repo true).refusing (.storage "disk full")).Atomic HashMapStores.new
        gameCommit [movedGame]
        (((gameCommit.commit (⟨(), movedGame⟩ : Agg Unit)).map
          (fun out => (out.1, [out.2.entity]))).run
            ((HashMapStores.repo true).refusing (.storage "disk full")).exec HashMapStores.new) := by
  have hR := (HashMapStores.allOrNothing true).refusing (.storage "disk full")
  refine ⟨hR, fun hatomic => ?_⟩
  obtain ⟨-, -, hversions, -⟩ := hatomic.failed
    (RepositoryError.ofReadModel (.storage "disk full")) [movedGame.markCommitted]
    ⟨EventStore.new.extendAll [movedGame], InMemoryReadModelStore.new⟩ rfl
  exact absurd hversions (by decide)

end CommitBuilder
