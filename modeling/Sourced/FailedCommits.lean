import Sourced.SnapshotRepository

/-!
# What a failed commit has persisted

A commit through `QueuedRepository` releases locks after the commit of the
repository it wraps, and one through `SnapshotAggregateRepository` serializes and
saves snapshots after it. Each of these steps can be refused, and its error is
returned as the error of the commit – by then the events are stored and the
entities marked.

Which steps follow a commit is known from its arguments
(`SnapshotAggregateRepository.followUps`): for each queue around the store an
unlock of every entity, then a save for every aggregate whose snapshot is due, which
is refused without reaching the store where the snapshot cannot be serialized.
`InnerStore.failed_commit_iff` says for every store whose own commit is
all-or-nothing, every way to wrap it, and each of the commits, exactly when an
error means that nothing was persisted: where none of the steps that follow is
refused after a commit that had something to persist.
-/

variable {σ S : Type}

/-! ## Stores -/

/-- **A store under a repository**: what the repository actions do, and what can
be seen of the streams. -/
structure InnerStore (S : Type) where
  exec : (a : RepoAction) → S → Option (a.Resp × S)
  streams : S → String → Option (List EventRecord)

/-- **The store's own commit is all-or-nothing**, and its locks and snapshots are
no part of the streams. A lock or a snapshot save may be refused at any time. -/
structure InnerStore.AllOrNothing (R : InnerStore S) : Prop where
  commit_ok : ∀ {s s' : S} {es es' : List Entity},
    R.exec (.commit es) s = some ((.ok (), es'), s') →
      es' = es.map Entity.markCommitted ∧ R.streams s' = EventStore.appended es (R.streams s)
  commit_err : ∀ {s s' : S} {es es' : List Entity} {e : RepositoryError},
    R.exec (.commit es) s = some ((.error (.err e), es'), s') →
      es' = es ∧ R.streams s' = R.streams s
  unlock : ∀ {s s' : S} {id : String} {r : Except LockError Unit},
    R.exec (.unlock id) s = some (r, s') → R.streams s' = R.streams s
  saveSnapshot : ∀ {s s' : S} {record : SnapshotRecord} {r : RepoRes Unit},
    R.exec (.saveSnapshot record) s = some (r, s') → R.streams s' = R.streams s

/-- **The repositories over a store**, with the number of queues around it. The
methods of `hashMapRepository` are single actions, so with the actions of
another store it is that store. -/
inductive Queued : ℕ → Repo → Prop
  | inner : Queued 0 hashMapRepository
  | queued {n : ℕ} {R : Repo} (h : Queued n R) : Queued (n + 1) (queuedRepository R).toRepo

theorem Queued.saveSnapshot_eq {n : ℕ} {R : Repo} (h : Queued n R) :
    R.saveSnapshot = hashMapRepository.saveSnapshot := by
  induction h with
  | inner => rfl
  | queued _ ih => exact ih

/-! ## The steps that follow a commit -/

/-- **A step after a commit.** A save is of the record of a snapshot, or of the error of
serializing it. -/
inductive FollowUp where
  | unlock (id : String)
  | save (record : RepoRes SnapshotRecord)

/-- The call it makes. -/
def FollowUp.run : FollowUp → Op Unit
  | .unlock id => QueuedRepository.release id
  | .save record => (Call.done record).andThen hashMapRepository.saveSnapshot

/-- The unlocks after the commit of a batch: each queue around the store
unlocks every entity. -/
def QueuedRepository.unlocks (n : ℕ) (es : List Entity) : List FollowUp :=
  (List.replicate n (es.map (fun e => FollowUp.unlock e.id))).flatten

/-- An aggregate after its entity was marked as committed. -/
def Agg.markCommitted (agg : Agg σ) : Agg σ := { agg with entity := agg.entity.markCommitted }

namespace SnapshotAggregateRepository

variable (B : Snapshottable σ) (checks : OverflowChecks) (frequency : ℕ)

/-- The saves for a list of aggregates, up to one whose threshold panics. -/
def saves : List (Agg σ) → List FollowUp
  | [] => []
  | agg :: aggs =>
    match addU64 checks agg.entity.snapshotVersion frequency with
    | none => []
    | some threshold =>
      if threshold ≤ agg.entity.version then
        .save (B.record agg) :: saves aggs
      else saves aggs

/-- **The steps after a commit of aggregates with other entities.** -/
def followUps (n : ℕ) (aggs : List (Agg σ)) (others : List Entity) : List FollowUp :=
  QueuedRepository.unlocks n (aggs.map Agg.entity ++ others)
    ++ saves B checks frequency (aggs.map Agg.markCommitted)

end SnapshotAggregateRepository

namespace InnerStore

/-- **A failed call has persisted nothing**: the streams are as they were, and no
passed entity's committed version has changed. -/
def PersistsNothing (R : InnerStore S) (s : S) (passed : List Entity)
    (ends : Option ((RepoRes Unit × List Entity) × S)) : Prop :=
  ∀ e passed' s', ends = some ((.error (.err e), passed'), s') →
    R.streams s' = R.streams s
      ∧ passed'.map Entity.committedVersion = passed.map Entity.committedVersion

/-- **A step after a commit is refused.** -/
def Refuses (R : InnerStore S) (s : S) (steps : List FollowUp) : Prop :=
  ∃ done e s', Call.Stops R.exec FollowUp.run s steps done (.err e) s'

/-- **There was nothing to persist.** -/
structure Unneeded (R : InnerStore S) (s : S) (passed : List Entity) : Prop where
  streams : EventStore.appended passed (R.streams s) = R.streams s
  versions : ∀ e ∈ passed, e.version = e.committedVersion

/-- **No step is refused after something was persisted.** -/
def Safe (R : InnerStore S) (s : S) (passed : List Entity) (steps : List FollowUp) : Prop :=
  ∀ es' s₁, R.exec (.commit passed) s = some ((.ok (), es'), s₁) → R.Refuses s₁ steps →
    R.Unneeded s passed

variable {R : InnerStore S} {s s' : S}

/-- A step that returns has changed no stream. -/
theorem AllOrNothing.streams_of_run (hR : R.AllOrNothing) {x : FollowUp} {r : RepoRes Unit}
    (h : Prog.run R.exec x.run s = some (r, s')) : R.streams s' = R.streams s := by
  cases x with
  | unlock id =>
    obtain ⟨⟨r', s₁⟩, hexec, hret⟩ := Option.bind_eq_some_iff.mp h
    obtain ⟨-, rfl⟩ := Prod.mk.inj (Option.some.inj hret)
    exact hR.unlock hexec
  | save record =>
    cases record with
    | error e =>
      obtain ⟨-, rfl⟩ := Prod.mk.inj (Option.some.inj h)
      rfl
    | ok record =>
      obtain ⟨⟨r', s₁⟩, hexec, hret⟩ := Option.bind_eq_some_iff.mp h
      obtain ⟨-, rfl⟩ := Prod.mk.inj (Option.some.inj hret)
      exact hR.saveSnapshot hexec

/-- **The steps before a refused one, and it, have changed no stream.** -/
theorem AllOrNothing.streams_of_stops (hR : R.AllOrNothing) {steps done : List FollowUp}
    {e : Fault RepositoryError} (h : Call.Stops R.exec FollowUp.run s steps done e s') :
    R.streams s' = R.streams s := by
  obtain ⟨x, rest, s₁, -, hdone, hx⟩ := h
  have hturns : R.streams s₁ = R.streams s :=
    hdone.preserves (P := fun s₂ => R.streams s₂ = R.streams s)
      (fun x s₂ s₃ h₂ hrun => (hR.streams_of_run hrun).trans h₂) rfl
  exact (hR.streams_of_run hx).trans hturns

end InnerStore

/-! ## The commits -/

section Commits

variable {R : InnerStore S} {s s' : S} {n : ℕ} {repo : Repo}

theorem QueuedRepository.unlocks_succ (n : ℕ) (es : List Entity) :
    unlocks (n + 1) es = unlocks n es ++ es.map (fun e => FollowUp.unlock e.id) := by
  unfold unlocks
  rw [List.replicate_succ', List.flatten_append, List.flatten_singleton]

theorem QueuedRepository.releaseAll_eq (es : List Entity) :
    releaseAll (es.map Entity.id) = Call.forEach FollowUp.run (es.map (fun e => FollowUp.unlock e.id)) := by
  rw [releaseAll, Call.forEach_map, Call.forEach_map]
  rfl

/-- **How a commit through queues ends**: the store refuses it, or accepts it
and the unlocks end it. -/
theorem Queued.run_commit (h : Queued n repo) {es es' : List Entity} {r : RepoRes Unit} :
    (repo.commit es).run R.exec s = some ((r, es'), s')
      ↔ (∃ e, R.exec (.commit es) s = some ((.error e, es'), s') ∧ r = .error e)
        ∨ ∃ s₁, R.exec (.commit es) s = some ((.ok (), es'), s₁)
          ∧ Prog.run R.exec (Call.forEach FollowUp.run (QueuedRepository.unlocks n es)) s₁
            = some (r, s') := by
  induction h generalizing r es' s' with
  | inner =>
    show (R.exec (.commit es) s).bind some = _ ↔ _
    rw [Option.bind_fun_some]
    constructor
    · intro hexec
      cases r with
      | error e => exact Or.inl ⟨e, hexec, rfl⟩
      | ok u => exact Or.inr ⟨s', hexec, rfl⟩
    · rintro (⟨e, hexec, rfl⟩ | ⟨s₁, hexec, hrun⟩)
      · exact hexec
      · obtain ⟨rfl, rfl⟩ := Prod.mk.inj (Option.some.inj hrun)
        exact hexec
  | @queued n inner _ ih =>
    show (QueuedRepository.commit inner es).run R.exec s = _ ↔ _
    rw [QueuedRepository.commit, Prog.run_bind, Option.bind_eq_some_iff,
      QueuedRepository.unlocks_succ, Call.forEach_append]
    constructor
    · rintro ⟨⟨⟨e | u, es₁⟩, s₁⟩, hrun, hrest⟩
      · obtain ⟨hout, rfl⟩ := Prod.mk.inj (Option.some.inj hrest)
        obtain ⟨rfl, rfl⟩ := Prod.mk.inj hout
        rcases ih.mp hrun with hleft | ⟨s₂, hexec, hunlocks⟩
        · exact Or.inl hleft
        · exact Or.inr ⟨s₂, hexec, Call.run_andThen_eq_some.mpr (Or.inr ⟨e, hunlocks, rfl⟩)⟩
      · dsimp only at hrest
        rw [Prog.run_map, QueuedRepository.releaseAll_eq] at hrest
        obtain ⟨⟨r', s₂⟩, hrelease, heq⟩ := Option.map_eq_some_iff.mp hrest
        obtain ⟨hout, rfl⟩ := Prod.mk.inj heq
        obtain ⟨rfl, rfl⟩ := Prod.mk.inj hout
        rcases ih.mp hrun with ⟨e, -, he⟩ | ⟨s₃, hexec, hunlocks⟩
        · cases he
        · exact Or.inr ⟨s₃, hexec, Call.run_andThen_eq_some.mpr (Or.inl ⟨(), s₁, hunlocks, hrelease⟩)⟩
    · rintro (⟨e, hexec, rfl⟩ | ⟨s₁, hexec, hrun⟩)
      · exact ⟨_, ih.mpr (Or.inl ⟨e, hexec, rfl⟩), rfl⟩
      · rcases Call.run_andThen_eq_some.mp hrun with ⟨u, s₂, hunlocks, hrelease⟩ | ⟨e, hunlocks, rfl⟩
        · refine ⟨_, ih.mpr (Or.inr ⟨s₁, hexec, hunlocks⟩), ?_⟩
          dsimp only
          rw [Prog.run_map, QueuedRepository.releaseAll_eq, hrelease]
          rfl
        · exact ⟨_, ih.mpr (Or.inr ⟨s₁, hexec, hunlocks⟩), rfl⟩

namespace SnapshotAggregateRepository

variable {B : Snapshottable σ} {checks : OverflowChecks} {frequency : ℕ}

/-- The committed versions of a list of aggregates. -/
abbrev committedVersions (aggs : List (Agg σ)) : List ℕ :=
  aggs.map (fun agg => agg.entity.committedVersion)

/-- `maybe_snapshot` where a snapshot is due: it ends as the save does. -/
theorem run_maybeSnapshot_due (h : Queued n repo) {agg : Agg σ} {threshold : ℕ}
    (hadd : addU64 checks agg.entity.snapshotVersion frequency = some threshold)
    (hdue : threshold ≤ agg.entity.version) (s : S) :
    Prog.run R.exec (maybeSnapshot repo B checks frequency agg) s
      = (Prog.run R.exec (FollowUp.save (B.record agg)).run s).map (fun xs =>
        (xs.1.map (fun _ => { agg with entity := agg.entity.setSnapshotVersion agg.entity.version }),
          xs.2)) := by
  unfold maybeSnapshot
  rw [hadd]
  dsimp only
  rw [if_pos hdue]
  cases B.record agg with
  | error e => rfl
  | ok record =>
    show Prog.run R.exec (Call.andThen (repo.saveSnapshot record) _) s
      = Option.map _ (Prog.run R.exec (hashMapRepository.saveSnapshot record) s)
    rw [Call.run_andThen, h.saveSnapshot_eq]
    rcases Prog.run R.exec (hashMapRepository.saveSnapshot record) s with _ | ⟨_ | _, _⟩ <;> rfl

/-- `maybe_snapshot` where no snapshot is due. -/
theorem run_maybeSnapshot_not_due {agg : Agg σ} {threshold : ℕ}
    (hadd : addU64 checks agg.entity.snapshotVersion frequency = some threshold)
    (hdue : ¬ threshold ≤ agg.entity.version) (s : S) :
    Prog.run R.exec (maybeSnapshot repo B checks frequency agg) s = some (.ok agg, s) := by
  unfold maybeSnapshot
  rw [hadd]
  dsimp only
  rw [if_neg hdue]
  rfl

theorem run_maybeSnapshot_panic {agg : Agg σ}
    (hadd : addU64 checks agg.entity.snapshotVersion frequency = none) (s : S) :
    Prog.run R.exec (maybeSnapshot repo B checks frequency agg) s = some (.error .panic, s) := by
  unfold maybeSnapshot
  rw [hadd]
  rfl

/-- A result put in front of the others does not change how a loop ends. -/
theorem exists_map_cons {α : Type} {a : α} {o : Option ((RepoRes Unit × List α) × S)}
    {r : RepoRes Unit} :
    (∃ l, o.map (fun xs => ((xs.1.1, a :: xs.1.2), xs.2)) = some ((r, l), s'))
      ↔ ∃ l, o = some ((r, l), s') := by
  constructor
  · rintro ⟨l, h⟩
    obtain ⟨⟨⟨r', l'⟩, s₁⟩, rfl, heq⟩ := Option.map_eq_some_iff.mp h
    obtain ⟨hout, rfl⟩ := Prod.mk.inj heq
    obtain ⟨rfl, -⟩ : r' = r ∧ a :: l' = l := Prod.mk.inj hout
    exact ⟨l', rfl⟩
  · rintro ⟨l, rfl⟩
    exact ⟨a :: l, rfl⟩

/-- **The loop over the snapshots** fails as the saves do. -/
theorem run_maybeSnapshotAll (h : Queued n repo) {aggs : List (Agg σ)} {e : RepositoryError} :
    (∃ aggs', (maybeSnapshotAll repo B checks frequency aggs).run R.exec s
        = some ((.error (.err e), aggs'), s'))
      ↔ Prog.run R.exec (Call.forEach FollowUp.run (saves B checks frequency aggs)) s
        = some (.error (.err e), s') := by
  induction aggs generalizing s with
  | nil => exact ⟨fun ⟨_, hrun⟩ => (nomatch hrun), fun hrun => (nomatch hrun)⟩
  | cons agg aggs ih =>
    rw [maybeSnapshotAll, Prog.run_bind, saves]
    cases hadd : addU64 checks agg.entity.snapshotVersion frequency with
    | none =>
      rw [run_maybeSnapshot_panic hadd]
      exact ⟨fun ⟨_, hrun⟩ => (nomatch hrun), fun hrun => (nomatch hrun)⟩
    | some threshold =>
      dsimp only
      by_cases hdue : threshold ≤ agg.entity.version
      · rw [run_maybeSnapshot_due h hadd hdue, if_pos hdue, Call.forEach, Call.bind_eq,
          Call.run_andThen]
        rcases Prog.run R.exec (FollowUp.save (B.record agg)).run s with _ | ⟨f | ⟨⟩, s₁⟩
        · simp
        · simp [Except.map]
        · rw [Option.map_some, Option.bind_some, Option.bind_some]
          dsimp only [Except.map]
          rw [← ih, Prog.run_map]
          exact exists_map_cons
      · rw [run_maybeSnapshot_not_due hadd hdue, if_neg hdue, Option.bind_some, ← ih]
        dsimp only
        rw [Prog.run_map]
        exact exists_map_cons

/-- **The loop over the snapshots** changes no committed version, however it
ends. -/
theorem committedVersions_of_run (h : Queued n repo) {aggs aggs' : List (Agg σ)} {r : RepoRes Unit}
    (hrun : (maybeSnapshotAll repo B checks frequency aggs).run R.exec s = some ((r, aggs'), s')) :
    committedVersions aggs' = committedVersions aggs := by
  induction aggs generalizing s aggs' with
  | nil =>
    obtain ⟨hout, -⟩ := Prod.mk.inj (Option.some.inj hrun)
    rw [← (Prod.mk.inj hout).2]
  | cons agg aggs ih =>
    rw [maybeSnapshotAll, Prog.run_bind] at hrun
    -- an aggregate whose turn returned has its committed version still
    have hrest : ∀ (agg' : Agg σ) (s₁ : S), agg'.entity.committedVersion = agg.entity.committedVersion →
        ((maybeSnapshotAll repo B checks frequency aggs).map (fun out => (out.1, agg' :: out.2))).run
          R.exec s₁ = some ((r, aggs'), s') →
        committedVersions aggs' = committedVersions (agg :: aggs) := by
      intro agg' s₁ hversion hmap
      rw [Prog.run_map] at hmap
      obtain ⟨⟨⟨r', l⟩, s₂⟩, hloop, heq⟩ := Option.map_eq_some_iff.mp hmap
      obtain ⟨hout, rfl⟩ := Prod.mk.inj heq
      obtain ⟨rfl, rfl⟩ : r' = r ∧ agg' :: l = aggs' := Prod.mk.inj hout
      exact congrArg₂ List.cons hversion (ih hloop)
    cases hadd : addU64 checks agg.entity.snapshotVersion frequency with
    | none =>
      rw [run_maybeSnapshot_panic hadd] at hrun
      obtain ⟨hout, -⟩ := Prod.mk.inj (Option.some.inj hrun)
      rw [← (Prod.mk.inj hout).2]
    | some threshold =>
      by_cases hdue : threshold ≤ agg.entity.version
      · rw [run_maybeSnapshot_due h hadd hdue] at hrun
        rcases hsave : Prog.run R.exec (FollowUp.save (B.record agg)).run s with
          _ | ⟨f | ⟨⟩, s₁⟩
        · rw [hsave] at hrun
          cases hrun
        · rw [hsave] at hrun
          obtain ⟨hout, -⟩ := Prod.mk.inj (Option.some.inj hrun)
          rw [← (Prod.mk.inj hout).2]
        · rw [hsave] at hrun
          exact hrest { agg with entity := agg.entity.setSnapshotVersion agg.entity.version } s₁ rfl hrun
      · rw [run_maybeSnapshot_not_due hadd hdue] at hrun
        exact hrest agg s rfl hrun

end SnapshotAggregateRepository

/-! ## When an error means that nothing was persisted -/

namespace InnerStore

/-- **A call that commits and goes on with steps**: an error of it is that of the
commit or of a step, and the committed versions it leaves are those the commit
left. -/
structure CommitsThen (R : InnerStore S) (passed : List Entity) (steps : List FollowUp)
    (call : RepoProg (RepoRes Unit × List Entity)) : Prop where
  fails : ∀ {s s' : S} {e : RepositoryError} {passed' : List Entity},
    call.run R.exec s = some ((.error (.err e), passed'), s') →
      ∃ es', passed'.map Entity.committedVersion = es'.map Entity.committedVersion
        ∧ (R.exec (.commit passed) s = some ((.error (.err e), es'), s')
          ∨ ∃ s₁, R.exec (.commit passed) s = some ((.ok (), es'), s₁)
            ∧ Prog.run R.exec (Call.forEach FollowUp.run steps) s₁ = some (.error (.err e), s'))
  stops : ∀ {s s₁ s' : S} {es' : List Entity} {e : RepositoryError},
    R.exec (.commit passed) s = some ((.ok (), es'), s₁) →
      Prog.run R.exec (Call.forEach FollowUp.run steps) s₁ = some (.error (.err e), s') →
      ∃ passed', call.run R.exec s = some ((.error (.err e), passed'), s')
        ∧ passed'.map Entity.committedVersion = es'.map Entity.committedVersion

/-- **Such a call has persisted nothing where it fails**, exactly where no step is
refused after something was persisted. -/
theorem AllOrNothing.persistsNothing_iff (hR : R.AllOrNothing) {passed : List Entity}
    {steps : List FollowUp} {call : RepoProg (RepoRes Unit × List Entity)}
    (hcall : R.CommitsThen passed steps call) (s : S) :
    R.PersistsNothing s passed (call.run R.exec s) ↔ R.Safe s passed steps := by
  constructor
  · intro hnothing es' s₁ hexec hrefuses
    obtain ⟨done, e, s', hstops⟩ := hrefuses
    obtain ⟨passed', hrun, hversions⟩ :=
      hcall.stops hexec (Call.run_forEach_eq_error.mpr ⟨done, hstops⟩)
    obtain ⟨hstreams, hkept⟩ := hnothing e passed' s' hrun
    obtain ⟨rfl, happended⟩ := hR.commit_ok hexec
    refine ⟨?_, ?_⟩
    · rw [← happended, ← hR.streams_of_stops hstops, hstreams]
    · rw [hversions, List.map_map] at hkept
      exact List.map_inj_left.mp hkept
  · intro hsafe e passed' s' hrun
    obtain ⟨es', hversions, hexec | ⟨s₁, hexec, hsteps⟩⟩ := hcall.fails hrun
    · obtain ⟨rfl, hstreams⟩ := hR.commit_err hexec
      exact ⟨hstreams, hversions⟩
    · obtain ⟨done, hstops⟩ := Call.run_forEach_eq_error.mp hsteps
      have hun := hsafe es' s₁ hexec ⟨done, e, s', hstops⟩
      obtain ⟨rfl, happended⟩ := hR.commit_ok hexec
      refine ⟨?_, hversions.trans ?_⟩
      · rw [hR.streams_of_stops hstops, happended, hun.streams]
      · rw [List.map_map]
        exact List.map_congr_left hun.versions

end InnerStore

/-- **A commit through queues** goes on with their unlocks. -/
theorem Queued.commitsThen (h : Queued n repo) (es : List Entity) :
    R.CommitsThen es (QueuedRepository.unlocks n es) (repo.commit es) where
  fails {s s' e passed'} hrun := by
    refine ⟨passed', rfl, ?_⟩
    rcases h.run_commit.mp hrun with ⟨f, hexec, hf⟩ | haccepted
    · obtain rfl : .err e = f := Except.error.inj hf
      exact Or.inl hexec
    · exact Or.inr haccepted
  stops {s s₁ s' es' e} hexec hsteps := ⟨es', h.run_commit.mpr (Or.inr ⟨s₁, hexec, hsteps⟩), rfl⟩

namespace SnapshotAggregateRepository

variable {B : Snapshottable σ} {checks : OverflowChecks} {frequency : ℕ}

/-- The entities of a commit of aggregates with others, as the call leaves
them. -/
def entitiesOf (out : RepoRes Unit × List (Agg σ) × List Entity) : RepoRes Unit × List Entity :=
  (out.1, out.2.1.map Agg.entity ++ out.2.2)

theorem map_committedVersion (aggs : List (Agg σ)) (others : List Entity) :
    (aggs.map Agg.entity ++ others).map Entity.committedVersion
      = committedVersions aggs ++ others.map Entity.committedVersion := by
  rw [List.map_append, List.map_map]
  rfl

/-- **How a commit with snapshots ends**: the commit of the wrapped repository
fails, or it returns and the snapshots end it. -/
theorem run_commitWith {aggs aggs'' : List (Agg σ)} {others others' : List Entity}
    {r : RepoRes Unit} :
    (commitWith repo B checks frequency aggs others).run R.exec s = some ((r, aggs'', others'), s')
      ↔ ∃ r' es' s₁, (repo.commit (aggs.map Agg.entity ++ others)).run R.exec s
            = some ((r', es'), s₁)
          ∧ others' = es'.drop aggs.length
          ∧ ((∃ e, r' = .error e ∧ r = .error e ∧ s₁ = s'
              ∧ aggs'' = List.zipWith (fun agg e => { agg with entity := e }) aggs es')
            ∨ r' = .ok () ∧ (maybeSnapshotAll repo B checks frequency
                (List.zipWith (fun agg e => { agg with entity := e }) aggs es')).run R.exec s₁
              = some ((r, aggs''), s')) := by
  rw [commitWith, Prog.run_bind, Option.bind_eq_some_iff, AggregateRepository.commitWith, Prog.run_map]
  constructor
  · rintro ⟨⟨⟨r', aggs', es₁⟩, s₁⟩, hcommit, hrest⟩
    obtain ⟨⟨⟨r₁, es'⟩, s₂⟩, hrun, heq⟩ := Option.map_eq_some_iff.mp hcommit
    simp only [Prod.mk.injEq] at heq
    obtain ⟨⟨rfl, rfl, rfl⟩, rfl⟩ := heq
    cases r₁ with
    | error e =>
      simp only [Prog.run_ret, Option.some.injEq, Prod.mk.injEq] at hrest
      obtain ⟨⟨rfl, rfl, rfl⟩, rfl⟩ := hrest
      exact ⟨_, es', s₂, hrun, rfl, Or.inl ⟨e, rfl, rfl, rfl, rfl⟩⟩
    | ok u =>
      dsimp only at hrest
      rw [Prog.run_map] at hrest
      obtain ⟨⟨⟨r', l⟩, s₃⟩, hloop, heq⟩ := Option.map_eq_some_iff.mp hrest
      simp only [Prod.mk.injEq] at heq
      obtain ⟨⟨rfl, rfl, rfl⟩, rfl⟩ := heq
      exact ⟨_, es', s₂, hrun, rfl, Or.inr ⟨rfl, hloop⟩⟩
  · rintro ⟨r', es', s₁, hrun, rfl, ⟨e, rfl, rfl, rfl, rfl⟩ | ⟨rfl, hloop⟩⟩
    · exact ⟨_, congrArg (Option.map _) hrun, rfl⟩
    · refine ⟨_, congrArg (Option.map _) hrun, ?_⟩
      dsimp only
      rw [Prog.run_map, hloop]
      rfl

theorem entities_zipWith (aggs : List (Agg σ)) (others : List Entity) (g : Entity → Entity) :
    (List.zipWith (fun agg e => { agg with entity := e }) aggs
        ((aggs.map Agg.entity ++ others).map g)).map Agg.entity
      ++ ((aggs.map Agg.entity ++ others).map g).drop aggs.length
      = (aggs.map Agg.entity ++ others).map g := by
  rw [AggregateRepository.zipWith_entity, AggregateRepository.drop_entity, List.map_append,
    List.map_map, List.map_map]
  rfl

/-- **A commit with snapshots** goes on with the unlocks and the saves. -/
theorem commitsThen (hR : R.AllOrNothing) (h : Queued n repo) (B : Snapshottable σ)
    (checks : OverflowChecks) (frequency : ℕ) (aggs : List (Agg σ)) (others : List Entity) :
    R.CommitsThen (aggs.map Agg.entity ++ others) (followUps B checks frequency n aggs others)
      ((commitWith repo B checks frequency aggs others).map entitiesOf) where
  fails {s s' e passed'} hrun := by
    rw [Prog.run_map] at hrun
    obtain ⟨⟨⟨r, aggs'', others'⟩, s₂⟩, hwith, heq⟩ := Option.map_eq_some_iff.mp hrun
    simp only [entitiesOf, Prod.mk.injEq] at heq
    obtain ⟨⟨rfl, rfl⟩, rfl⟩ := heq
    obtain ⟨r', es', s₁, hcommit, rfl, hends⟩ := run_commitWith.mp hwith
    rw [followUps, Call.forEach_append]
    rcases hends with ⟨f, rfl, hf, rfl, rfl⟩ | ⟨rfl, hloop⟩
    · -- the commit of the wrapped repository failed
      obtain rfl : .err e = f := Except.error.inj hf
      rcases h.run_commit.mp hcommit with ⟨f, hexec, hf⟩ | ⟨s₀, hexec, hunlocks⟩
      · obtain rfl : .err e = f := Except.error.inj hf
        refine ⟨es', ?_, Or.inl hexec⟩
        rw [(hR.commit_err hexec).1]
        have hentities := entities_zipWith aggs others id
        rw [List.map_id] at hentities
        rw [hentities]
      · refine ⟨es', ?_, Or.inr ⟨s₀, hexec,
          Call.run_andThen_eq_some.mpr (Or.inr ⟨_, hunlocks, rfl⟩)⟩⟩
        rw [(hR.commit_ok hexec).1, entities_zipWith]
    · -- it returned, and a save failed
      rcases h.run_commit.mp hcommit with ⟨f, -, hf⟩ | ⟨s₀, hexec, hunlocks⟩
      · cases hf
      · obtain rfl := (hR.commit_ok hexec).1
        have hversions := committedVersions_of_run h hloop
        rw [AggregateRepository.zipWith_entity] at hloop
        refine ⟨_, ?_, Or.inr ⟨s₀, hexec, Call.run_andThen_eq_some.mpr (Or.inl ⟨(), s₁, hunlocks,
          (run_maybeSnapshotAll h).mp ⟨aggs'', hloop⟩⟩)⟩⟩
        rw [map_committedVersion, hversions, ← map_committedVersion, entities_zipWith]
  stops {s s₁ s' es' e} hexec hsteps := by
    obtain rfl := (hR.commit_ok hexec).1
    rw [followUps, Call.forEach_append] at hsteps
    rw [Prog.run_map]
    rcases Call.run_andThen_eq_some.mp hsteps with ⟨⟨⟩, s₂, hunlocks, hsaves⟩ | ⟨f, hunlocks, hf⟩
    · obtain ⟨aggs'', hloop⟩ := (run_maybeSnapshotAll h).mpr hsaves
      have hmarked := AggregateRepository.zipWith_entity aggs others Entity.markCommitted
      rw [show aggs.map Agg.markCommitted = _ from hmarked.symm] at hloop
      have hversions := committedVersions_of_run h hloop
      refine ⟨_, congrArg (Option.map _) (run_commitWith.mpr ⟨.ok (), _, s₂,
        h.run_commit.mpr (Or.inr ⟨s₁, hexec, hunlocks⟩), rfl, Or.inr ⟨rfl, hloop⟩⟩), ?_⟩
      show (aggs''.map Agg.entity ++ _).map Entity.committedVersion = _
      rw [map_committedVersion, hversions, ← map_committedVersion, entities_zipWith]
    · obtain rfl : .err e = f := Except.error.inj hf
      refine ⟨_, congrArg (Option.map _) (run_commitWith.mpr ⟨.error (.err e), _, s',
        h.run_commit.mpr (Or.inr ⟨s₁, hexec, hunlocks⟩), rfl, Or.inl ⟨_, rfl, rfl, rfl, rfl⟩⟩), ?_⟩
      exact congrArg _ (entities_zipWith aggs others Entity.markCommitted)

end SnapshotAggregateRepository

/-- **Exactly when a failed commit has persisted nothing**: for every store whose
own commit is all-or-nothing, with any number of queues around it, and for
each commit of a `SnapshotAggregateRepository` over it and of another queue. -/
theorem InnerStore.failed_commit_iff (hR : R.AllOrNothing) (h : Queued n repo) (B : Snapshottable σ)
    (checks : OverflowChecks) (frequency : ℕ) (s : S) :
    (∀ agg : Agg σ, R.PersistsNothing s [agg.entity]
        (((SnapshotAggregateRepository.commit repo B checks frequency agg).map
          SnapshotAggregateRepository.entitiesOf).run R.exec s)
      ↔ R.Safe s [agg.entity]
        (SnapshotAggregateRepository.followUps B checks frequency n [agg] []))
    ∧ (∀ aggs : List (Agg σ), R.PersistsNothing s (aggs.map Agg.entity)
        (((SnapshotAggregateRepository.commitAll repo B checks frequency aggs).map
          SnapshotAggregateRepository.entitiesOf).run R.exec s)
      ↔ R.Safe s (aggs.map Agg.entity)
        (SnapshotAggregateRepository.followUps B checks frequency n aggs []))
    ∧ (∀ (agg : Agg σ) (message : Entity), R.PersistsNothing s [agg.entity, message]
        (((SnapshotAggregateRepository.outboxCommit repo B checks frequency agg message).map
          SnapshotAggregateRepository.entitiesOf).run R.exec s)
      ↔ R.Safe s [agg.entity, message]
        (SnapshotAggregateRepository.followUps B checks frequency n [agg] [message]))
    ∧ ∀ es : List Entity, R.PersistsNothing s es ((QueuedRepository.commit repo es).run R.exec s)
      ↔ R.Safe s es (QueuedRepository.unlocks (n + 1) es) := by
  refine ⟨fun agg => ?_, fun aggs => ?_, fun agg message => ?_, fun es => ?_⟩
  · exact hR.persistsNothing_iff (SnapshotAggregateRepository.commitsThen hR h B checks frequency [agg] []) s
  · have hall := hR.persistsNothing_iff
      (SnapshotAggregateRepository.commitsThen hR h B checks frequency aggs []) s
    rw [List.append_nil] at hall
    exact hall
  · exact hR.persistsNothing_iff
      (SnapshotAggregateRepository.commitsThen hR h B checks frequency [agg] [message]) s
  · exact hR.persistsNothing_iff (h.queued.commitsThen es) s

end Commits

/-! ## In memory -/

namespace InnerStore

/-- **The stores of a `HashMapRepository`**, with the locks in memory. -/
def inMemory : InnerStore Shared := ⟨RepoAction.exec [], fun s => s.events.lookup⟩

/-- Their commit is all-or-nothing. -/
theorem inMemory_allOrNothing : inMemory.AllOrNothing where
  commit_ok {s s' es es'} h := by
    obtain ⟨hout, rfl⟩ := Prod.mk.inj (Option.some.inj h)
    obtain ⟨hr, hes⟩ := Prod.mk.inj hout
    obtain ⟨hmark, hevents⟩ := EventStore.commit_eq_ok (s := s.events)
      (Prod.ext hr (Prod.ext hes rfl))
    exact ⟨hmark, (congrArg EventStore.lookup hevents).trans (EventStore.lookup_extendAll s.events es)⟩
  commit_err {s s' es es' e} h := by
    obtain ⟨hout, rfl⟩ := Prod.mk.inj (Option.some.inj h)
    obtain ⟨hr, hes⟩ := Prod.mk.inj hout
    obtain ⟨hsame, hevents⟩ := EventStore.commit_eq_err (s := s.events)
      (Prod.ext hr (Prod.ext hes rfl))
    exact ⟨hsame, congrArg EventStore.lookup hevents⟩
  unlock h := by
    obtain ⟨-, rfl⟩ := Prod.mk.inj (Option.some.inj h)
    rfl
  saveSnapshot h := by
    obtain ⟨-, rfl⟩ := Prod.mk.inj (Option.some.inj h)
    rfl

/-- **In memory only a snapshot that cannot be serialized is refused**, so a failed commit of
aggregates whose snapshots can be has persisted nothing. -/
theorem inMemory_safe (s : Shared) (passed : List Entity) {steps : List FollowUp}
    (hsteps : ∀ e, FollowUp.save (.error e) ∉ steps) : inMemory.Safe s passed steps := by
  rintro es' s₁ - ⟨done, e, s', x, rest, s₂, heq, -, hrun⟩
  cases x with
  | unlock id => cases hrun
  | save record =>
    cases record with
    | error f => exact absurd (heq ▸ List.mem_append_right _ List.mem_cons_self) (hsteps f)
    | ok record => cases hrun

/-- **The same stores with a snapshot store that is down.** -/
def refusingSaves (e : RepositoryError) : InnerStore Shared where
  exec
    | .saveSnapshot _, s => some (.error (.err e), s)
    | a, s => a.exec [] s
  streams s := s.events.lookup

theorem refusingSaves_allOrNothing (e : RepositoryError) : (refusingSaves e).AllOrNothing where
  commit_ok := inMemory_allOrNothing.commit_ok
  commit_err := inMemory_allOrNothing.commit_err
  unlock := inMemory_allOrNothing.unlock
  saveSnapshot h := by
    obtain ⟨-, rfl⟩ := Prod.mk.inj (Option.some.inj h)
    rfl

/-- An aggregate without fields, and its snapshots. -/
def unitSnapshot : Snapshottable Unit :=
  ⟨Unit, Bitcode.unit.snapshotCodec, fun _ => (), fun agg _ => agg⟩

/-- An order that has recorded its first event. -/
def placedOrder : Agg Unit :=
  ⟨(), { Entity.withId "order-1" with
    version := 1
    events := [EventRecord.new "Placed" [] 1 SystemTime.unixEpoch] }⟩

/-- An order is committed in memory through a queue, with a snapshot. -/
theorem failed_commit_iff_order :
    inMemory.PersistsNothing Shared.empty [placedOrder.entity]
      (((SnapshotAggregateRepository.commit (queuedRepository hashMapRepository).toRepo unitSnapshot
        true 1 placedOrder).map SnapshotAggregateRepository.entitiesOf).run inMemory.exec Shared.empty) :=
  ((failed_commit_iff inMemory_allOrNothing Queued.inner.queued unitSnapshot true 1 Shared.empty).1
    placedOrder).mpr (inMemory_safe _ _ (fun e h => by
      rcases List.mem_cons.mp h with h | h
      · cases h
      · cases List.mem_singleton.mp h))

/-- **A refused snapshot leaves the events committed**: the commit of an order
whose snapshot cannot be saved returns an error, and the order has been stored
and marked. -/
theorem refused_snapshot_leaves_events :
    (refusingSaves (.model "snapshot store down")).AllOrNothing
      ∧ ¬ (refusingSaves (.model "snapshot store down")).PersistsNothing Shared.empty
        [placedOrder.entity]
        (((SnapshotAggregateRepository.commit hashMapRepository unitSnapshot true 1 placedOrder).map
          SnapshotAggregateRepository.entitiesOf).run
            (refusingSaves (.model "snapshot store down")).exec Shared.empty) := by
  refine ⟨refusingSaves_allOrNothing _, fun hnothing => ?_⟩
  obtain ⟨-, hversions⟩ := hnothing (.model "snapshot store down") [placedOrder.entity.markCommitted]
    (Shared.empty.withEvents (EventStore.new.extendAll [placedOrder.entity])) rfl
  exact absurd hversions (by decide)

/-- The snapshots of an aggregate without fields, none of which can be serialized. -/
def refusedSnapshot : Snapshottable Unit :=
  ⟨Unit, ⟨fun _ => .error "not supported", fun _ => .ok ()⟩, fun _ => (), fun agg _ => agg⟩

/-- **So does a snapshot that cannot be serialized**, with both stores in memory. -/
theorem unserialized_snapshot_leaves_events :
    inMemory.AllOrNothing
      ∧ ¬ inMemory.PersistsNothing Shared.empty [placedOrder.entity]
        (((SnapshotAggregateRepository.commit hashMapRepository refusedSnapshot true 1 placedOrder).map
          SnapshotAggregateRepository.entitiesOf).run inMemory.exec Shared.empty) := by
  refine ⟨inMemory_allOrNothing, fun hnothing => ?_⟩
  obtain ⟨-, hversions⟩ := hnothing (.replay "snapshot serialize: not supported")
    [placedOrder.entity.markCommitted]
    (Shared.empty.withEvents (EventStore.new.extendAll [placedOrder.entity])) rfl
  exact absurd hversions (by decide)

end InnerStore
