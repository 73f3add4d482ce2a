import Sourced.SerialSnapshots
import Sourced.DerivedSnapshot
import Sourced.OutboxMessage

/-!
# Fields that are not on the snapshots

A field with `#[serde(skip)]` is left out of the snapshots of an aggregate: a label made of
others, or the emitter. Loaded through a snapshot the aggregate has its default there, and
what the events after the snapshot have made of that.

The other fields are right all the same, as long as the event methods make them of each other
alone. For then an aggregate without the skipped fields can be made of the one with them: it
has the same methods, records the same events and has the same snapshots
(`KeptPart.definition`, `KeptPart.snapshottable`). Whatever clients do with the one they do
with the other (`KeptPart.run_image`), and so what is known of aggregates that keep all their
fields on their snapshots is known of the fields that are kept (`KeptPart.loads_kept`). For
derived snapshots these are the fields that are not skipped (`DeriveInput.skipped_fields`).
-/

/-- **A part of the fields of an aggregate**, and fields that have nothing else. -/
structure KeptPart (σ τ : Type) where
  keep : σ → τ
  blank : τ → σ
  keep_blank : ∀ t, keep (blank t) = t

variable {σ τ : Type} (K : KeptPart σ τ)

namespace KeptPart

/-- The part of an aggregate. -/
def agg (a : Agg σ) : Agg τ := ⟨K.keep a.fields, a.entity⟩

/-- An aggregate with nothing else. -/
def blankAgg (b : Agg τ) : Agg σ := ⟨K.blank b.fields, b.entity⟩

theorem agg_blankAgg (b : Agg τ) : K.agg (K.blankAgg b) = b :=
  congrArg (Agg.mk · b.entity) (K.keep_blank b.fields)

/-! ## The methods -/

/-- An event method on the part. -/
def method (m : EventMethod σ) : EventMethod τ where
  name := m.name
  version := m.version
  Args := m.Args
  params := m.params
  guard f e x := m.guard (K.blank f) e x
  body now f e x := (m.body now (K.blank f) e x).map (Prod.map K.keep id)

/-- **A method is of the part**: what it makes of it, and whether it is let through, is no
matter of the rest. -/
structure Suffices (m : EventMethod σ) : Prop where
  guard : ∀ f g e x, K.keep f = K.keep g → m.guard f e x = m.guard g e x
  body : ∀ now f g e x, K.keep f = K.keep g →
    (m.body now f e x).map (Prod.map K.keep id) = (m.body now g e x).map (Prod.map K.keep id)

variable {K} {m : EventMethod σ}

theorem Suffices.guard_blank (hm : K.Suffices m) (f : σ) (e : Entity) (x : m.Args) :
    m.guard (K.blank (K.keep f)) e x = m.guard f e x := hm.guard _ _ e x (K.keep_blank _)

theorem Suffices.body_blank (hm : K.Suffices m) (now : SystemTime) (f : σ) (e : Entity) (x : m.Args) :
    (m.body now (K.blank (K.keep f)) e x).map (Prod.map K.keep id)
      = (m.body now f e x).map (Prod.map K.keep id) := hm.body now _ _ e x (K.keep_blank _)

/-- **A call on the part** is the part of the call. -/
theorem call_method (hm : K.Suffices m) (now : SystemTime) (x : m.Args) (a : Agg σ) :
    (K.method m).call now x (K.agg a) = (m.call now x a).map K.agg := by
  show (if m.guard (K.blank (K.keep a.fields)) a.entity x then _ else _) = _
  rw [hm.guard_blank, EventMethod.call]
  by_cases hg : m.guard a.fields a.entity x = true
  · rw [if_pos hg, if_pos hg]
    show Option.map _ ((m.body now (K.blank (K.keep a.fields)) _ x).map (Prod.map K.keep id)) = _
    rw [hm.body_blank, Option.map_map, Option.map_map]
    rfl
  · rw [if_neg hg, if_neg hg]
    rfl

variable (K)

/-- A call. -/
def command (c : Command σ) : Command τ := ⟨K.method c.method, c.now, c.args⟩

variable {K} {c : Command σ} {cs : List (Command σ)} {a b : Agg σ}

theorem guard_command (hm : K.Suffices c.method) (a : Agg σ) :
    (K.command c).guard (K.agg a) = c.guard a := hm.guard_blank _ _ _

theorem run_command (hm : K.Suffices c.method) (a : Agg σ) :
    (K.command c).run (K.agg a) = (c.run a).map K.agg := call_method hm c.now c.args a

/-- Calls that take effect on the part are those that take effect. -/
theorem exists_of_applies (hcs : ∀ c ∈ cs, K.Suffices c.method) {b' : Agg τ}
    (h : Command.Applies (cs.map K.command) (K.agg a) b') :
    ∃ b, Command.Applies cs a b ∧ K.agg b = b' := by
  induction cs generalizing a with
  | nil =>
    cases h with
    | nil => exact ⟨a, .nil a, rfl⟩
  | cons c cs ih =>
    obtain ⟨hc, hcs⟩ := List.forall_mem_cons.mp hcs
    cases h with
    | cons hguard hrun hrest =>
      rw [run_command hc, Option.map_eq_some_iff] at hrun
      obtain ⟨a', hrun, rfl⟩ := hrun
      obtain ⟨b, hb, rfl⟩ := ih hcs hrest
      exact ⟨b, .cons ((guard_command hc a).symm.trans hguard) hrun hb, rfl⟩

/-- An id assigned first is so on the part. -/
theorem assignsIdFirst (hcs : ∀ c ∈ cs, K.Suffices c.method) (h : Command.AssignsIdFirst cs a) :
    Command.AssignsIdFirst (cs.map K.command) (K.agg a) := by
  have hignores : ∀ {c : Command σ} {a : Agg σ}, K.Suffices c.method → c.IgnoresEntity a.fields →
      (K.command c).IgnoresEntity (K.agg a).fields := by
    intro c a hc h e e'
    refine ⟨?_, fun t t' => ?_⟩
    · show c.method.guard (K.blank (K.keep a.fields)) e c.args
        = c.method.guard (K.blank (K.keep a.fields)) e' c.args
      rw [hc.guard_blank, hc.guard_blank]
      exact (h e e').1
    · show (c.method.body t (K.blank (K.keep a.fields)) e c.args).map _
        = (c.method.body t' (K.blank (K.keep a.fields)) e' c.args).map _
      rw [hc.body_blank, hc.body_blank]
      exact congrArg _ ((h e e').2 t t')
  induction h with
  | nil a => exact .nil _
  | @rejected c cs a hg _ ih =>
    obtain ⟨hc, hcs⟩ := List.forall_mem_cons.mp hcs
    exact .rejected ((guard_command hc a).trans hg) (ih hcs)
  | @assigns c cs a hg h f assigned hbody =>
    have hc := hcs c List.mem_cons_self
    refine .assigns ((guard_command hc a).trans hg) (hignores hc h) (K.keep f) assigned ?_
    show (c.method.body c.now (K.blank (K.keep a.fields)) _ c.args).map (Prod.map K.keep id) = _
    rw [hc.body_blank]
    exact congrArg (Option.map (Prod.map K.keep id)) hbody
  | @ignores c cs a a' hg h hrun _ ih =>
    obtain ⟨hc, hcs⟩ := List.forall_mem_cons.mp hcs
    refine .ignores ((guard_command hc a).trans hg) (hignores hc h) ?_ (ih hcs)
    rw [run_command hc, hrun]
    rfl

/-! ## The aggregate -/

variable (K)

/-- **The definition of the part.** -/
def definition (D : Definition σ) : Definition τ :=
  ⟨K.keep D.default, D.methods.map K.method, D.upcasters⟩

variable {K} {D : Definition σ} {now : SystemTime}

/-- **Replaying an event** on the part. -/
theorem replayEvent_definition (hD : ∀ m ∈ D.methods, K.Suffices m) (e : EventRecord) (a : Agg σ) :
    (K.definition D).aggregate.replayEvent now e (K.agg a)
      = (D.aggregate.replayEvent now e a).map K.agg := by
  show EventMethod.replayEvent (D.methods.map K.method) now e (K.agg a)
    = (EventMethod.replayEvent D.methods now e a).map K.agg
  have hname : ((fun m => decide (m.name = e.eventName)) ∘ K.method)
      = fun m : EventMethod σ => decide (m.name = e.eventName) := rfl
  unfold EventMethod.replayEvent
  rw [List.find?_map, hname]
  cases hfind : D.methods.find? (fun m => m.name = e.eventName) with
  | none => rfl
  | some m =>
    rw [Option.map_some]
    dsimp only
    cases hdecode : m.params.decode e with
    | error msg =>
      rw [show (K.method m).params.decode e = .error msg from hdecode]
      rfl
    | ok x =>
      rw [show (K.method m).params.decode e = .ok x from hdecode]
      dsimp only
      rw [call_method (hD m (List.mem_of_find?_eq_some hfind))]
      cases m.call now x a <;> rfl

theorem replayAll_definition (hD : ∀ m ∈ D.methods, K.Suffices m) (es : List EventRecord) (a : Agg σ) :
    (K.definition D).aggregate.replayAll now es (K.agg a)
      = (D.aggregate.replayAll now es a).map K.agg := by
  induction es generalizing a with
  | nil => rfl
  | cons e es ih =>
    rw [Aggregate.replayAll_cons, Aggregate.replayAll_cons, replayEvent_definition hD]
    cases D.aggregate.replayEvent now e a with
    | error f => rfl
    | ok b => exact ih b

theorem replay_definition (hD : ∀ m ∈ D.methods, K.Suffices m) (es : List EventRecord) (a : Agg σ) :
    (K.definition D).aggregate.replay now es (K.agg a) = (D.aggregate.replay now es a).map K.agg := by
  unfold Aggregate.replay
  show (((K.definition D).aggregate.replayAll now es
    (K.agg ⟨a.fields, a.entity.setReplaying true⟩)).mapErr _).bind _ = _
  rw [replayAll_definition hD]
  rcases D.aggregate.replayAll now es ⟨a.fields, a.entity.setReplaying true⟩ with ((f | _ | _) | b) <;> rfl

/-- **The part hydrated** is the part of what is hydrated. -/
theorem hydrate_definition (hD : ∀ m ∈ D.methods, K.Suffices m) (e : Entity) :
    (K.definition D).aggregate.hydrate now e = (D.aggregate.hydrate now e).map K.agg := by
  show (D.aggregate.upcast e.events).bind
    (fun es => (K.definition D).aggregate.replay now es (K.agg ⟨D.default, e⟩)) = _
  unfold Aggregate.hydrate
  show _ = Except.map K.agg ((D.aggregate.upcast e.events).bind
    (fun es => D.aggregate.replay now es ⟨D.default, e⟩))
  cases D.aggregate.upcast e.events with
  | error f => rfl
  | ok es => exact replay_definition hD es _

/-! ## The snapshots -/

variable (K)

/-- The snapshots of the part. -/
def snapshottable (B : Snapshottable σ) : Snapshottable τ where
  Snapshot := B.Snapshot
  codec := B.codec
  createSnapshot b := B.createSnapshot (K.blankAgg b)
  restoreFromSnapshot b s := K.agg (B.restoreFromSnapshot (K.blankAgg b) s)

/-- **The snapshots are of the part**: they are taken of it alone, and what they give back of it is
no matter of the rest. -/
structure OnSnapshots (B : Snapshottable σ) : Prop where
  create : ∀ a b, K.agg a = K.agg b → B.createSnapshot a = B.createSnapshot b
  restore : ∀ a b s, K.agg a = K.agg b →
    K.agg (B.restoreFromSnapshot a s) = K.agg (B.restoreFromSnapshot b s)

/-- **Restored, they give back the part**, and the codec loses nothing. -/
structure Restored (B : Snapshottable σ) (A : Aggregate σ) : Prop where
  lawful : B.codec.Lawful
  restore : ∀ (a : Agg σ) (e : Entity), e.id = a.entity.id →
    K.agg (B.restoreFromSnapshot ⟨A.default, e⟩ (B.createSnapshot a)) = ⟨K.keep a.fields, e⟩

variable {K} {B : Snapshottable σ}

theorem createSnapshot_agg (hB : K.OnSnapshots B) (a : Agg σ) :
    (K.snapshottable B).createSnapshot (K.agg a) = B.createSnapshot a :=
  hB.create _ _ (K.agg_blankAgg _)

theorem restoreFromSnapshot_agg (hB : K.OnSnapshots B) (a : Agg σ) (s : B.Snapshot) :
    (K.snapshottable B).restoreFromSnapshot (K.agg a) s = K.agg (B.restoreFromSnapshot a s) :=
  hB.restore _ _ s (K.agg_blankAgg _)

/-- **The part has all its fields on its snapshots.** -/
theorem restores (hB : K.OnSnapshots B) (hR : K.Restored B D.aggregate) :
    (K.snapshottable B).Restores (K.definition D).aggregate := by
  refine ⟨hR.lawful, fun b e he => ?_⟩
  have hrestore := restoreFromSnapshot_agg hB ⟨D.default, e⟩ (B.createSnapshot (K.blankAgg b))
  refine hrestore.trans ((hR.restore (K.blankAgg b) e he).trans ?_)
  exact congrArg (Agg.mk · e) (K.keep_blank b.fields)

/-- **The part hydrated from a snapshot**, whatever the snapshot. -/
theorem hydrateFromSnapshot_definition (hD : ∀ m ∈ D.methods, K.Suffices m) (hB : K.OnSnapshots B)
    (e : Entity) (r : SnapshotRecord) :
    (K.definition D).aggregate.hydrateFromSnapshot (K.snapshottable B) now e r
      = (D.aggregate.hydrateFromSnapshot B now e r).map K.agg := by
  have hcodec : (K.snapshottable B).codec.deserialize r.data = B.codec.deserialize r.data := rfl
  unfold Aggregate.hydrateFromSnapshot
  rw [hcodec]
  cases B.codec.deserialize r.data with
  | error err => rfl
  | ok s =>
    let a : Agg σ := ⟨D.default, e.setSnapshotVersion r.version⟩
    show (D.aggregate.upcast (List.filter _
        ((K.snapshottable B).restoreFromSnapshot (K.agg a) s).entity.events)).bind
      (fun es => (K.definition D).aggregate.replay now es
        ((K.snapshottable B).restoreFromSnapshot (K.agg a) s)) = _
    rw [restoreFromSnapshot_agg hB]
    show (D.aggregate.upcast (List.filter _ (B.restoreFromSnapshot a s).entity.events)).bind _
      = Except.map K.agg ((D.aggregate.upcast (List.filter _
        (B.restoreFromSnapshot a s).entity.events)).bind _)
    cases D.aggregate.upcast (List.filter _ (B.restoreFromSnapshot a s).entity.events) with
    | error f => rfl
    | ok es => exact replay_definition hD es _

theorem hydrateWithOptionalSnapshot_definition (hD : ∀ m ∈ D.methods, K.Suffices m)
    (hB : K.OnSnapshots B) (e : Entity) (snapshot : Option SnapshotRecord) :
    SnapshotAggregateRepository.hydrateWithOptionalSnapshot (K.definition D).aggregate
        (K.snapshottable B) now e snapshot
      = (SnapshotAggregateRepository.hydrateWithOptionalSnapshot D.aggregate B now e snapshot).map
        K.agg := by
  unfold SnapshotAggregateRepository.hydrateWithOptionalSnapshot
  cases snapshot with
  | none => exact hydrate_definition hD e
  | some r =>
    dsimp only
    by_cases hv : r.version ≤ e.version
    · rw [if_pos hv, if_pos hv]
      exact hydrateFromSnapshot_definition hD hB e r
    · rw [if_neg hv, if_neg hv]
      exact hydrate_definition hD e

/-! ## The loads -/

section Loads

variable {R : Repo}

/-- Making aggregates one way and taking their parts is making the parts. -/
theorem map_loadOne {f : Hydrator σ} {f' : Hydrator τ} (read : Op (Option Entity))
    (hf : ∀ e, Prog.map (Except.map K.agg) (f e) = f' e) :
    Prog.map (Except.map (Option.map K.agg)) (f.loadOne read) = f'.loadOne read := by
  unfold Hydrator.loadOne
  simp only [Call.bind_eq]
  rw [Call.map_andThen]
  refine congrArg (Call.andThen read) (funext fun o => ?_)
  cases o with
  | none => rfl
  | some e =>
    dsimp only
    rw [Call.map_andThen, ← hf, Call.andThen_map]
    rfl

theorem map_loadAll {f : Hydrator σ} {f' : Hydrator τ} (read : Op (List Entity))
    (hf : ∀ e, Prog.map (Except.map K.agg) (f e) = f' e) :
    Prog.map (Except.map (List.map K.agg)) (f.loadAll read) = f'.loadAll read := by
  unfold Hydrator.loadAll
  simp only [Call.bind_eq]
  rw [Call.map_andThen]
  refine congrArg (Call.andThen read) (funext fun es => ?_)
  rw [Call.map_collect]
  refine congrArg (fun f => Call.collect f es) (funext fun e => ?_)
  rw [Call.map_andThen, ← hf, Call.andThen_map]
  rfl

theorem map_toList {p : Op (Option (Agg σ))} {p' : Op (Option (Agg τ))}
    (hp : Prog.map (Except.map (Option.map K.agg)) p = p') :
    Prog.map (Except.map (List.map K.agg)) (Prog.map (Except.map Option.toList) p)
      = Prog.map (Except.map Option.toList) p' := by
  rw [← hp, Prog.map_map, Prog.map_map]
  refine congrArg (Prog.map · p) (funext fun r => ?_)
  rcases r with f | (_ | a) <;> rfl

theorem map_hydrator (hD : ∀ m ∈ D.methods, K.Suffices m) (e : Entity) :
    Prog.map (Except.map K.agg) (AggregateRepository.hydrator D.aggregate now e)
      = AggregateRepository.hydrator (K.definition D).aggregate now e :=
  congrArg Call.done (hydrate_definition hD e).symm

theorem map_hydrateStored (hD : ∀ m ∈ D.methods, K.Suffices m) (hB : K.OnSnapshots B) (id : String)
    (e : Entity) :
    Prog.map (Except.map K.agg)
        (SnapshotAggregateRepository.hydrateStored R D.aggregate B now id e)
      = SnapshotAggregateRepository.hydrateStored R (K.definition D).aggregate (K.snapshottable B)
        now id e := by
  unfold SnapshotAggregateRepository.hydrateStored
  simp only [Call.bind_eq]
  rw [Call.map_andThen]
  refine congrArg (Call.andThen (R.getSnapshot id)) (funext fun snapshot => ?_)
  exact congrArg Call.done (hydrateWithOptionalSnapshot_definition hD hB e snapshot).symm

theorem map_hydratorStored (hD : ∀ m ∈ D.methods, K.Suffices m) (hB : K.OnSnapshots B) (e : Entity) :
    Prog.map (Except.map K.agg) (SnapshotAggregateRepository.hydrator R D.aggregate B now e)
      = SnapshotAggregateRepository.hydrator R (K.definition D).aggregate (K.snapshottable B) now e :=
  map_hydrateStored hD hB e.id e

/-- **A load of aggregates** is a load of their parts. -/
theorem load_definition (hD : ∀ m ∈ D.methods, K.Suffices m) {p : Op (List (Agg σ))}
    (hp : SerialCalls.Load D p) :
    SerialCalls.Load (K.definition D) (Prog.map (Except.map (List.map K.agg)) p) := by
  cases hp with
  | get hR now id =>
    rw [AggregateRepository.get, map_toList (map_loadOne _ (map_hydrator hD))]
    exact .get hR now id
  | getAll hR now ids =>
    rw [AggregateRepository.getAll, map_loadAll _ (map_hydrator hD)]
    exact .getAll hR now ids
  | peek now id =>
    rw [AggregateRepository.peek, AggregateRepository.getWith,
      map_toList (map_loadOne _ (map_hydrator hD))]
    exact .peek now id
  | peekAll now ids =>
    rw [AggregateRepository.peekAll, AggregateRepository.getAllWith, map_loadAll _ (map_hydrator hD)]
    exact .peekAll now ids

theorem load_snapshottable (hD : ∀ m ∈ D.methods, K.Suffices m) (hB : K.OnSnapshots B)
    {p : Op (List (Agg σ))} (hp : SerialSnapshots.Load D B p) :
    SerialSnapshots.Load (K.definition D) (K.snapshottable B)
      (Prog.map (Except.map (List.map K.agg)) p) := by
  cases hp with
  | get hR now id =>
    rw [SnapshotAggregateRepository.get, map_toList (map_loadOne _ (map_hydrateStored hD hB id))]
    exact .get hR now id
  | getAll hR now ids =>
    rw [SnapshotAggregateRepository.getAll, map_loadAll _ (map_hydratorStored hD hB)]
    exact .getAll hR now ids
  | peek now id =>
    rw [SnapshotAggregateRepository.peek, map_toList (map_loadOne _ (map_hydrateStored hD hB id))]
    exact .peek now id
  | peekAll now ids =>
    rw [SnapshotAggregateRepository.peekAll, map_loadAll _ (map_hydratorStored hD hB)]
    exact .peekAll now ids

end Loads

/-! ## The commits -/

section Commits

variable {R : Repo}

/-- What a commit returns, of the parts. -/
def mapCommitted (r : RepoRes Unit × List (Agg σ) × List Entity) :
    RepoRes Unit × List (Agg τ) × List Entity := (r.1, r.2.1.map K.agg, r.2.2)

/-- **A commit of parts** commits the entities they are parts of. -/
theorem map_commitWith (aggs : List (Agg σ)) (others : List Entity) :
    Prog.map (mapCommitted (K := K)) (AggregateRepository.commitWith R aggs others)
      = AggregateRepository.commitWith R (aggs.map K.agg) others := by
  have hentities : (aggs.map K.agg).map Agg.entity = aggs.map Agg.entity := by
    rw [List.map_map]
    rfl
  unfold AggregateRepository.commitWith
  rw [Prog.map_map, hentities, List.length_map]
  refine congrArg (Prog.map · _) (funext fun r => ?_)
  simp [mapCommitted, List.map_zipWith, List.zipWith_map_left, agg]

theorem record_agg (hB : K.OnSnapshots B) (a : Agg σ) : (K.snapshottable B).record (K.agg a) = B.record a := by
  unfold Snapshottable.record
  rw [createSnapshot_agg hB]
  rfl

/-- A snapshot of an aggregate is saved where one of its part is. -/
theorem map_maybeSnapshot (hB : K.OnSnapshots B) (checks : OverflowChecks) (frequency : ℕ) (a : Agg σ) :
    Prog.map (Except.map K.agg) (SnapshotAggregateRepository.maybeSnapshot R B checks frequency a)
      = SnapshotAggregateRepository.maybeSnapshot R (K.snapshottable B) checks frequency (K.agg a) := by
  have hentity : (K.agg a).entity = a.entity := rfl
  unfold SnapshotAggregateRepository.maybeSnapshot
  rw [hentity]
  cases addU64 checks a.entity.snapshotVersion frequency with
  | none => rfl
  | some threshold =>
    dsimp only
    by_cases hv : threshold ≤ a.entity.version
    · rw [if_pos hv, if_pos hv, record_agg hB]
      simp only [Call.bind_eq]
      rw [Call.map_andThen]
      refine congrArg (Call.andThen (Call.done (B.record a))) (funext fun record => ?_)
      rw [Call.map_andThen]
      rfl
    · rw [if_neg hv, if_neg hv]
      rfl

theorem map_maybeSnapshotAll (hB : K.OnSnapshots B) (checks : OverflowChecks) (frequency : ℕ)
    (aggs : List (Agg σ)) :
    Prog.map (Prod.map id (List.map K.agg))
        (SnapshotAggregateRepository.maybeSnapshotAll R B checks frequency aggs)
      = SnapshotAggregateRepository.maybeSnapshotAll R (K.snapshottable B) checks frequency
        (aggs.map K.agg) := by
  induction aggs with
  | nil => rfl
  | cons a aggs ih =>
    rw [List.map_cons, SnapshotAggregateRepository.maybeSnapshotAll,
      SnapshotAggregateRepository.maybeSnapshotAll, ← map_maybeSnapshot hB, ← ih]
    unfold Prog.map
    rw [Prog.bind_assoc, Prog.bind_assoc]
    refine congrArg (Prog.bind _) (funext fun r => ?_)
    cases r with
    | error f => rfl
    | ok a' =>
      show Prog.bind (Prog.bind _ _) _ = Prog.bind (Prog.bind _ _) _
      rw [Prog.bind_assoc, Prog.bind_assoc]
      rfl

theorem map_commitAll (hB : K.OnSnapshots B) (checks : OverflowChecks) (frequency : ℕ)
    (aggs : List (Agg σ)) :
    Prog.map (mapCommitted (K := K)) (SnapshotAggregateRepository.commitAll R B checks frequency aggs)
      = SnapshotAggregateRepository.commitAll R (K.snapshottable B) checks frequency
        (aggs.map K.agg) := by
  unfold SnapshotAggregateRepository.commitAll SnapshotAggregateRepository.commitWith
  rw [← map_commitWith]
  unfold Prog.map
  rw [Prog.bind_assoc, Prog.bind_assoc]
  refine congrArg (Prog.bind _) (funext fun r => ?_)
  obtain ⟨r, aggs', others⟩ := r
  cases r with
  | error f => rfl
  | ok u =>
    show Prog.bind (Prog.bind (SnapshotAggregateRepository.maybeSnapshotAll R B checks frequency aggs') _) _
      = Prog.bind (SnapshotAggregateRepository.maybeSnapshotAll R (K.snapshottable B) checks frequency
        (aggs'.map K.agg)) _
    rw [← map_maybeSnapshotAll hB, Prog.bind_assoc]
    unfold Prog.map
    rw [Prog.bind_assoc]
    rfl

end Commits

/-! ## The clients -/

variable (K)

theorem get_definition (D : Definition σ) (i : Fin D.methods.length)
    (h : i.val < (K.definition D).methods.length) :
    (K.definition D).methods.get ⟨i.val, h⟩ = K.method (D.methods.get i) := by
  simp [definition]

/-- A call of a method of the definition. -/
def methodCall (c : D.MethodCall) : (K.definition D).MethodCall where
  method := ⟨c.method, by simp [definition]⟩
  now := c.now
  args := cast (congrArg EventMethod.Args (K.get_definition D c.method _)).symm c.args

theorem command_methodCall (c : D.MethodCall) : (K.methodCall c).command = K.command c.command := by
  have hargs : ∀ {m m' : EventMethod τ} (h : m' = m) (x : m.Args),
      (⟨m', c.now, cast (congrArg EventMethod.Args h).symm x⟩ : Command τ) = ⟨m, c.now, x⟩ := by
    rintro m _ rfl x
    rfl
  exact hargs (K.get_definition D c.method _) c.args

/-- **What a client does with the part of an aggregate.** -/
def work (w : Work D) : Work (K.definition D) := ⟨K.agg w.base, w.calls.map K.methodCall, K.agg w.agg⟩

theorem commands_work (w : Work D) : (K.work w).commands = w.commands.map K.command := by
  unfold Work.commands work
  rw [List.map_map, List.map_map]
  exact List.map_congr_left fun c _ => K.command_methodCall c

theorem callsOf_work (log : List (Work D)) (id : String) :
    CallHistory.callsOf (log.map K.work) id = (CallHistory.callsOf log id).map K.command := by
  unfold CallHistory.callsOf
  rw [List.flatMap_map, List.map_flatMap]
  refine List.flatMap_congr fun w _ => ?_
  show (if w.id = id then (K.work w).commands else []) = _
  rw [K.commands_work]
  split <;> rfl

/-- The shared state with the history of the parts. -/
def history (h : CallHistory D) : CallHistory (K.definition D) := ⟨h.shared, h.log.map K.work⟩

variable {K}

/-- Every action does what it did. -/
theorem sem_history {na : List (Work D) × RepoAction} {h h' : CallHistory D} {r : na.2.Resp}
    (hsem : CallHistory.Sem na h r h') :
    CallHistory.Sem (na.1.map K.work, na.2) (K.history h) r (K.history h') := by
  refine ⟨hsem.1, ?_⟩
  have hcommitted : CallHistory.committed (na.1.map K.work) na.2 r
      = (CallHistory.committed na.1 na.2 r).map K.work := by
    obtain ⟨works, action⟩ := na
    cases action with
    | commit es =>
      obtain ⟨f | u, es'⟩ := r <;> rfl
    | _ => rfl
  show h'.log.map K.work = h.log.map K.work ++ _
  rw [hsem.2, List.map_append, hcommitted]

theorem named_work (hD : ∀ m ∈ D.methods, K.Suffices m) {w : Work D} (h : w.Named) :
    (K.work w).Named := by
  refine Or.imp id (fun hnew => ⟨hnew.1, ?_⟩) h
  rw [K.commands_work]
  exact assignsIdFirst (fun c hc => hD _ (Work.method_mem hc)) hnew.2

/-- What is loaded. -/
theorem loaded_work (pool : List (Work D)) (r : RepoRes (List (Agg σ))) :
    (SerialCalls.loaded pool r).map K.work
      = SerialCalls.loaded (pool.map K.work) (r.map (List.map K.agg)) := by
  cases r with
  | error f => rfl
  | ok aggs =>
    show (aggs.map Work.start ++ pool).map K.work = (aggs.map K.agg).map Work.start ++ pool.map K.work
    rw [List.map_append, List.map_map, List.map_map]
    rfl

/-- The works after a commit. -/
theorem settle_work (ws : List (Work D)) (r : RepoRes Unit) (aggs : List (Agg σ)) :
    (Work.settle ws r aggs).map K.work = Work.settle (ws.map K.work) r (aggs.map K.agg) := by
  cases r with
  | error f =>
    show (List.zipWith _ ws aggs).map K.work = List.zipWith _ (ws.map K.work) (aggs.map K.agg)
    rw [List.map_zipWith, List.zipWith_map]
    rfl
  | ok u =>
    show (aggs.map Work.start).map K.work = (aggs.map K.agg).map Work.start
    rw [List.map_map, List.map_map]
    rfl

theorem settleAll_work (ws : List (Work D)) (aggs : List (Agg σ)) :
    (SerialSnapshots.settle ws aggs).map K.work
      = SerialSnapshots.settle (ws.map K.work) (aggs.map K.agg) := by
  unfold SerialSnapshots.settle
  rw [List.map_zipWith, List.zipWith_map]
  refine congrArg (fun f => List.zipWith f ws aggs) (funext fun w => funext fun a => ?_)
  unfold SerialSnapshots.settleOne
  show K.work (if _ then _ else _) = if a.entity.committedVersion = a.entity.events.length then _ else _
  split <;> rfl

theorem map_agg_work (batch : List (Work D)) :
    (batch.map K.work).map Work.agg = (batch.map Work.agg).map K.agg := by
  rw [List.map_map, List.map_map]
  rfl

theorem map_id_work (batch : List (Work D)) : (batch.map K.work).map Work.id = batch.map Work.id := by
  rw [List.map_map]
  rfl

/-- A program of a client, on the parts. -/
abbrev imageOf (p : SerialCalls.NotedProg D (List (Work D))) :
    SerialCalls.NotedProg (K.definition D) (List (Work (K.definition D))) :=
  (p.renoting (List.map K.work)).map (List.map K.work)

theorem imageOf_map {α β : Type} {n : List (Work D)} {p : RepoProg α} {q : RepoProg β} {f : α → β}
    {g : α → List (Work D)} {g' : β → List (Work (K.definition D))} (hp : Prog.map f p = q)
    (hg : ∀ r, (g r).map K.work = g' (f r)) :
    imageOf ((p.noting n).map g) = (q.noting (n.map K.work)).map g' := by
  unfold imageOf
  rw [Prog.renoting_map, Prog.renoting_noting, ← hp, Prog.noting_map, Prog.map_map, Prog.map_map]
  exact congrArg (Prog.map · _) (funext hg)

/-- **What clients start, they start on the parts.** -/
theorem start_work (hD : ∀ m ∈ D.methods, K.Suffices m) {pool : List (Work D)}
    {p : SerialCalls.NotedProg D (List (Work D))} (h : SerialCalls.Start pool p) :
    SerialCalls.Start (pool.map K.work) (imageOf p) := by
  cases h with
  | create id => exact .create id _
  | call pre post w c a hguard hrun =>
    have hc : K.Suffices c.command.method := hD _ (List.get_mem D.methods c.method)
    have hguard' : (K.methodCall c).command.guard (K.agg w.agg) = true := by
      rw [K.command_methodCall]
      exact (guard_command hc w.agg).trans hguard
    have hrun' : (K.methodCall c).command.run (K.agg w.agg) = some (K.agg a) := by
      rw [K.command_methodCall, run_command hc, hrun]
      rfl
    have himage : imageOf (K := K) (.ret (pre ++ (⟨w.base, w.calls ++ [c], a⟩ : Work D) :: post))
        = .ret (pre.map K.work ++ ⟨K.agg w.base, (K.work w).calls ++ [K.methodCall c], K.agg a⟩
          :: post.map K.work) := by
      simp [imageOf, Prog.renoting, Prog.map, work]
    rw [himage, List.map_append]
    exact .call (pre.map K.work) (post.map K.work) (K.work w) (K.methodCall c) (K.agg a) hguard' hrun'
  | load _ p hp =>
    rw [imageOf_map rfl (loaded_work pool)]
    exact .load _ _ (load_definition hD hp)
  | @commit R hR _ batch rest hpool hnd hnamed =>
    have himage : imageOf (((AggregateRepository.commitAll R (batch.map Work.agg)).noting batch).map
          (fun r => Work.settle batch r.1 r.2.1 ++ rest))
        = ((AggregateRepository.commitAll R ((batch.map K.work).map Work.agg)).noting
          (batch.map K.work)).map
            (fun r => Work.settle (batch.map K.work) r.1 r.2.1 ++ rest.map K.work) := by
      rw [map_agg_work]
      refine imageOf_map (map_commitWith (batch.map Work.agg) []) (fun r => ?_)
      rw [List.map_append, settle_work]
      rfl
    rw [himage]
    refine .commit hR _ _ _ ?_ ((map_id_work batch).symm ▸ hnd)
      (List.forall_mem_map.mpr fun w hw => named_work hD (hnamed w hw))
    rw [← List.map_append]
    exact hpool.map K.work
  | unlock i _ =>
    have himage : imageOf (((QueuedRepository.unlock i).noting []).map (fun _ => pool))
        = ((QueuedRepository.unlock i).noting []).map (fun _ => pool.map K.work) :=
      imageOf_map (Prog.map_id _) (fun _ => rfl)
    rw [himage]
    exact .unlock i _

/-- **And with snapshots.** -/
theorem start_snapshottable (hD : ∀ m ∈ D.methods, K.Suffices m) (hB : K.OnSnapshots B)
    {pool : List (Work D)} {p : SerialCalls.NotedProg D (List (Work D))}
    (h : SerialSnapshots.Start B pool p) :
    SerialSnapshots.Start (K.snapshottable B) (pool.map K.work) (imageOf p) := by
  cases h with
  | plain _ _ h => exact .plain _ _ (start_work hD h)
  | load _ p hp =>
    rw [imageOf_map rfl (loaded_work pool)]
    exact .load _ _ (load_snapshottable hD hB hp)
  | @commit R hR checks frequency _ batch rest hpool hnd hnamed =>
    have himage : imageOf (((SnapshotAggregateRepository.commitAll R B checks frequency
            (batch.map Work.agg)).noting batch).map
          (fun r => SerialSnapshots.settle batch r.2.1 ++ rest))
        = ((SnapshotAggregateRepository.commitAll R (K.snapshottable B) checks frequency
            ((batch.map K.work).map Work.agg)).noting (batch.map K.work)).map
          (fun r => SerialSnapshots.settle (batch.map K.work) r.2.1 ++ rest.map K.work) := by
      rw [map_agg_work]
      refine imageOf_map (map_commitAll hB checks frequency (batch.map Work.agg)) (fun r => ?_)
      rw [List.map_append, settleAll_work]
      rfl
    rw [himage]
    refine .commit hR checks frequency _ _ _ ?_ ((map_id_work batch).symm ▸ hnd)
      (List.forall_mem_map.mpr fun w hw => named_work hD (hnamed w hw))
    rw [← List.map_append]
    exact hpool.map K.work
  | @deleteSnapshot R hR i _ =>
    have himage : imageOf (((R.deleteSnapshot i).noting []).map (fun _ => pool))
        = ((R.deleteSnapshot i).noting []).map (fun _ => pool.map K.work) :=
      imageOf_map (Prog.map_id _) (fun _ => rfl)
    rw [himage]
    exact .deleteSnapshot hR i _

/-! ## The law -/

section Law

variable {C : Type} [DecidableEq C] {x : SerialCalls.State D C}

/-- **Clients of the parts.** -/
def image (x : SerialCalls.State D C) : SerialCalls.State (K.definition D) C :=
  System.image (List.map K.work) K.history (List.map K.work) x

/-- **Whatever clients do with aggregates they do with the parts**: the events that are stored,
and the snapshots, are the same. -/
theorem run_image (hD : ∀ m ∈ D.methods, K.Suffices m) (hB : K.OnSnapshots B)
    (hrun : (SerialSnapshots.system D B C).Run (SerialCalls.initial D C) x) :
    (SerialSnapshots.system (K.definition D) (K.snapshottable B) C).Run
      (SerialCalls.initial (K.definition D) C) (image x) :=
  System.Run.image (n := List.map K.work) (f := K.history) (g := List.map K.work) sem_history
    (start_snapshottable hD hB) hrun

/-- The part of a definition asks no more. -/
theorem lawful_definition (hD : SerialCalls.Lawful D) : SerialCalls.Lawful (K.definition D) := by
  have hnames : (K.definition D).methods.map EventMethod.name = D.methods.map EventMethod.name := by
    show (D.methods.map K.method).map EventMethod.name = _
    rw [List.map_map]
    rfl
  refine ⟨⟨hnames ▸ hD.wellFormed.names, ?_⟩, hD.upcasters, ?_⟩
  · intro m' hm'
    obtain ⟨m, hm, rfl⟩ := List.mem_map.mp hm'
    exact hD.wellFormed.lawful m hm
  · intro m' hm'
    obtain ⟨m, hm, rfl⟩ := List.mem_map.mp hm'
    intro f e e' y he
    obtain ⟨hguard, hbody⟩ := hD.readsOnlyId m hm (K.blank f) e e' y he
    exact ⟨hguard, fun t t' => congrArg (Option.map (Prod.map K.keep id)) (hbody t t')⟩

theorem exists_of_records (hS : ∀ m ∈ D.methods, K.Suffices m) {id : String} {b' : Agg τ}
    {cs : List (Command σ)} (hcs : ∀ c ∈ cs, c.method ∈ D.methods)
    (h : Command.Applies (cs.map K.command) ⟨(K.definition D).default, Entity.withId id⟩ b') :
    ∃ b, Command.Applies cs ⟨D.default, Entity.withId id⟩ b ∧ K.agg b = b' :=
  exists_of_applies (fun c hc => hS _ (hcs c hc)) h

theorem method_of_callsOf {log : List (Work D)} {id : String} {c : Command σ}
    (hc : c ∈ CallHistory.callsOf log id) : c.method ∈ D.methods := by
  obtain ⟨w, -, hw⟩ := List.mem_flatMap.mp hc
  split at hw
  · exact Work.method_mem hw
  · cases hw

/-- **Whoever hydrates what is stored** with the snapshot that is stored has the part of the one
aggregate. -/
theorem hydrate_kept (hD : SerialCalls.Lawful D) (hS : ∀ m ∈ D.methods, K.Suffices m)
    (hB : K.OnSnapshots B) (hR : K.Restored B D.aggregate)
    (hrun : (SerialSnapshots.system D B C).Run (SerialCalls.initial D C) x) (id : String) :
    ∃ a, Command.Applies (CallHistory.callsOf x.shared.log id) ⟨D.default, Entity.withId id⟩ a
      ∧ a.entity.events = x.shared.shared.events.stream id
      ∧ ∀ now, ∃ b, SnapshotAggregateRepository.hydrateWithOptionalSnapshot D.aggregate B now
          (EventStore.loadEntity id (x.shared.shared.events.stream id))
          (x.shared.shared.snapshots.getSnapshot id) = .ok b
        ∧ b.entity.id = id ∧ b.entity.events = x.shared.shared.events.stream id
        ∧ K.keep b.fields = K.keep a.fields := by
  obtain ⟨f, ⟨-, b', happlies, -, hevents, rfl⟩, hhydrate⟩ :=
    SerialSnapshots.hydrate_of_run (lawful_definition hD) (restores hB hR) (run_image hS hB hrun) id
  have hlog : CallHistory.callsOf (image (K := K) x).shared.log id
      = (CallHistory.callsOf x.shared.log id).map K.command := K.callsOf_work x.shared.log id
  rw [hlog] at happlies
  obtain ⟨a, ha, rfl⟩ := exists_of_records hS (fun c hc => method_of_callsOf hc) happlies
  refine ⟨a, ha, hevents, fun now => ?_⟩
  have hnow := hhydrate now
  rw [hydrateWithOptionalSnapshot_definition hS hB, Res.map_eq_ok] at hnow
  obtain ⟨b, hb, hagg⟩ := hnow
  exact ⟨b, hb, congrArg (fun a => a.entity.id) hagg, congrArg (fun a => a.entity.events) hagg,
    congrArg Agg.fields hagg⟩

/-- **Whatever a client has loaded**, made or committed has the part of the one aggregate, as it
was after its first calls. -/
theorem loads_kept (hD : SerialCalls.Lawful D) (hS : ∀ m ∈ D.methods, K.Suffices m)
    (hB : K.OnSnapshots B) (hR : K.Restored B D.aggregate)
    (hrun : (SerialSnapshots.system D B C).Run (SerialCalls.initial D C) x) {c : C}
    {pool : List (Work D)} (hrest : x.prog c = .ret pool) {w : Work D} (hw : w ∈ pool) :
    w.base.entity.events <+: x.shared.shared.events.stream w.base.entity.id
      ∧ ∃ a, Command.Applies ((CallHistory.callsOf x.shared.log w.base.entity.id).take
          w.base.entity.events.length) ⟨D.default, Entity.withId w.base.entity.id⟩ a
        ∧ a.entity.id = w.base.entity.id ∧ a.entity.events = w.base.entity.events
        ∧ K.keep w.base.fields = K.keep a.fields := by
  have hrest' : (image (K := K) x).prog c = .ret (pool.map K.work) := by
    show Prog.map (List.map K.work) (Prog.renoting (List.map K.work) (x.prog c)) = _
    rw [hrest]
    rfl
  obtain ⟨hle, ⟨cs, hcs⟩, f, hf⟩ := SerialSnapshots.records_of_run (lawful_definition hD)
    (restores hB hR) (run_image hS hB hrun) hrest' (List.mem_map_of_mem hw)
  obtain ⟨-, b', happlies, hid, hevents, hfields⟩ :=
    SerialSnapshots.exists_after (lawful_definition hD) hf hcs hle
  have hlog : CallHistory.callsOf (image (K := K) x).shared.log w.base.entity.id
      = (CallHistory.callsOf x.shared.log w.base.entity.id).map K.command :=
    K.callsOf_work x.shared.log w.base.entity.id
  have hfirst : (CallHistory.callsOf (image (K := K) x).shared.log (K.work w).base.entity.id).take
        (K.work w).base.entity.events.length
      = ((CallHistory.callsOf x.shared.log w.base.entity.id).take
        w.base.entity.events.length).map K.command := by
    show (CallHistory.callsOf (image (K := K) x).shared.log w.base.entity.id).take _ = _
    rw [hlog, List.map_take]
    rfl
  rw [hfirst] at happlies
  obtain ⟨a, ha, rfl⟩ := exists_of_records hS
    (fun c hc => method_of_callsOf (List.mem_of_mem_take hc)) happlies
  exact ⟨hle, a, ha, hid, hevents, hfields.symm⟩

end Law

end KeptPart

/-! ## Derived snapshots -/

namespace DeriveInput

variable {T : FieldTypes} {d : DeriveInput T} {X : Expanded T} {fields : List (NamedField T)}

/-- **The fields on the snapshots**, with defaults for the others. -/
def keptPart (names : List String) (default : String → T.Value) :
    KeptPart (String → T.Value) ({n // n ∈ names} → T.Value) where
  keep f n := f n
  blank g n := if h : n ∈ names then g ⟨n, h⟩ else default n
  keep_blank _ := funext fun n => dif_pos n.2

variable {names : List String} {default : String → T.Value} {a b : Agg (String → T.Value)}

/-- Two aggregates with the same part. -/
theorem agg_keptPart_eq : (keptPart names default).agg a = (keptPart names default).agg b
    ↔ a.entity = b.entity ∧ ∀ n ∈ names, a.fields n = b.fields n := by
  constructor
  · intro h
    have hentity : ((keptPart names default).agg a).entity = ((keptPart names default).agg b).entity :=
      congrArg Agg.entity h
    have hfields : ((keptPart names default).agg a).fields = ((keptPart names default).agg b).fields :=
      congrArg Agg.fields h
    exact ⟨hentity, fun n hn => congrFun hfields ⟨n, hn⟩⟩
  · intro h
    show Agg.mk _ a.entity = Agg.mk _ b.entity
    rw [h.1]
    exact congrArg (Agg.mk · b.entity) (funext fun n => h.2 n n.2)

/-- An assignment is to the part alone, or no matter of it. -/
theorem foldlM_assign_keptPart (s : Expanded.Snapshot T) (assigned : List String)
    (h : (keptPart names default).agg a = (keptPart names default).agg b) :
    (assigned.foldlM (Expanded.assign s) a).map (keptPart names default).agg
      = (assigned.foldlM (Expanded.assign s) b).map (keptPart names default).agg := by
  induction assigned generalizing a b with
  | nil => exact congrArg some h
  | cons n assigned ih =>
    rw [List.foldlM_cons, List.foldlM_cons]
    unfold Expanded.assign
    cases s.lookup n with
    | none => rfl
    | some value =>
      obtain ⟨hentity, hfields⟩ := agg_keptPart_eq.mp h
      refine ih (agg_keptPart_eq.mpr ⟨hentity, fun m hm => ?_⟩)
      by_cases hmn : m = n
      · subst hmn
        simp
      · simp [hmn, hfields m hm]

/-- **A snapshot restored**: what it gives back of the part is no matter of the rest. -/
theorem restoreFromSnapshot_keptPart (X : Expanded T) (s : Expanded.Snapshot T)
    (h : (keptPart names default).agg a = (keptPart names default).agg b) :
    (keptPart names default).agg ((X.restoreFromSnapshot a s).getD a)
      = (keptPart names default).agg ((X.restoreFromSnapshot b s).getD b) := by
  have hmap : (X.restoreFromSnapshot a s).map (keptPart names default).agg
      = (X.restoreFromSnapshot b s).map (keptPart names default).agg := by
    have hassigned := foldlM_assign_keptPart s X.restoreAssignments h
    unfold Expanded.restoreFromSnapshot
    cases s.lookup X.idFieldName with
    | none => rfl
    | some idValue =>
      cases X.structFieldDefs.lookup X.idFieldName with
      | none => rfl
      | some ty =>
        cases hinto : T.into ty with
        | none => simp [hinto]
        | some into =>
          simp only [Option.bind_eq_bind, Option.bind_some, hinto]
          have hset : ∀ o : Option (Agg (String → T.Value)),
              (o.bind fun agg => some { agg with entity := agg.entity.setId (into idValue) }).map
                  (keptPart names default).agg
                = (o.map (keptPart names default).agg).map
                  (fun c => { c with entity := c.entity.setId (into idValue) }) := by
            intro o
            cases o <;> rfl
          exact (hset _).trans ((congrArg _ hassigned).trans (hset _).symm)
  cases ha : X.restoreFromSnapshot a s with
  | none =>
    cases hb : X.restoreFromSnapshot b s with
    | none => exact h
    | some b' =>
      rw [ha, hb] at hmap
      cases hmap
  | some a' =>
    cases hb : X.restoreFromSnapshot b s with
    | none =>
      rw [ha, hb] at hmap
      cases hmap
    | some b' =>
      rw [ha, hb] at hmap
      exact Option.some.inj hmap

/-- What a snapshot is made of: the fields on it, and the id of the entity. -/
theorem source_of_mem (hfields : d.namedFields = .ok fields) (hX : d.deriveSnapshot = .ok X)
    {f : String × Source} (hf : f ∈ X.fieldAssignments) :
    f.2 = .entityId ∨ ∃ n ∈ X.restoreAssignments, f.2 = .clone n := by
  obtain rfl := deriveSnapshot_eq hfields hX
  have hcloned : f ∈ (d.snapshotFields fields).map (fun f => (f.1, Source.clone f.1)) →
      ∃ n ∈ (d.snapshotFields fields).map Prod.fst, f.2 = .clone n := by
    intro hmem
    obtain ⟨g, hg, rfl⟩ := List.mem_map.mp hmem
    exact ⟨g.1, List.mem_map_of_mem hg, rfl⟩
  by_cases hown : d.hasOwnId (d.snapshotFields fields) = true
  · simp only [if_pos hown] at hf
    exact Or.inr (hcloned hf)
  · simp only [if_neg hown] at hf
    cases hf with
    | head => exact Or.inl rfl
    | tail _ hf => exact Or.inr (hcloned hf)

/-- **Derived snapshots are of the fields on them.** -/
theorem onSnapshots_derived (hfields : d.namedFields = .ok fields) (hX : d.deriveSnapshot = .ok X)
    (codec : SnapshotCodec (Expanded.Snapshot T)) (default : String → T.Value) :
    (keptPart X.restoreAssignments default).OnSnapshots (X.snapshottable codec) := by
  refine ⟨fun a b h => ?_, fun a b s h => ?_⟩
  · obtain ⟨hentity, hsame⟩ := agg_keptPart_eq.mp h
    refine List.map_congr_left fun f hf => congrArg (Prod.mk f.1) ?_
    cases source_of_mem hfields hX hf with
    | inl hid =>
      rw [hid]
      show T.ofString a.entity.id = T.ofString b.entity.id
      rw [hentity]
    | inr hclone =>
      obtain ⟨n, hn, hclone⟩ := hclone
      rw [hclone]
      exact hsame n hn
  · exact restoreFromSnapshot_keptPart X s h

/-- **And give them back**, where the id is made for them. -/
theorem restored_derived (hfields : d.namedFields = .ok fields) (hX : d.deriveSnapshot = .ok X)
    (hown : d.hasOwnId (d.snapshotFields fields) = false) {codec : SnapshotCodec (Expanded.Snapshot T)}
    (hcodec : codec.Lawful) (A : Aggregate (String → T.Value)) :
    (keptPart X.restoreAssignments A.default).Restored (X.snapshottable codec) A := by
  refine ⟨hcodec, fun a e he => ?_⟩
  have hinto : X.Compiles T.asString := by
    obtain rfl := deriveSnapshot_eq hfields hX
    refine ⟨T.string, ?_, T.into_string⟩
    simp [hown, (id_notMem hown).1]
  have hid : d.snapshotId fields T.asString a = a.entity.id :=
    if_neg (Bool.eq_false_iff.mp hown)
  show (keptPart X.restoreAssignments A.default).agg
    ((X.restoreFromSnapshot ⟨A.default, e⟩ (X.createSnapshot a)).getD _) = _
  rw [restore_createSnapshot hfields hX hinto, Option.getD_some, hid, ← he]
  exact congrArg (Agg.mk · e) (funext fun n => if_pos n.2)

/-- **Skipped fields are no matter of the others.** An aggregate has derived snapshots whose id is
made for them, and methods that make the non-skipped fields of each other alone. In every state
that any clients reach, with and without snapshots, at any frequencies: whoever hydrates what is
stored, with the snapshot that is stored, has the non-skipped fields of the one aggregate that all
calls are made on; and what a client has loaded has those that the first calls have left there, as
many as it has events. -/
theorem skipped_fields (hfields : d.namedFields = .ok fields) (hX : d.deriveSnapshot = .ok X)
    (hown : d.hasOwnId (d.snapshotFields fields) = false) {codec : SnapshotCodec (Expanded.Snapshot T)}
    (hcodec : codec.Lawful) {D : Definition (String → T.Value)} (hD : SerialCalls.Lawful D)
    (hS : ∀ m ∈ D.methods, (keptPart X.restoreAssignments D.default).Suffices m)
    {C : Type} [DecidableEq C] {x : SerialCalls.State D C}
    (hrun : (SerialSnapshots.system D (X.snapshottable codec) C).Run (SerialCalls.initial D C) x) :
    (∀ id, ∃ a, Command.Applies (CallHistory.callsOf x.shared.log id) ⟨D.default, Entity.withId id⟩ a
      ∧ a.entity.events = x.shared.shared.events.stream id
      ∧ ∀ now, ∃ b, SnapshotAggregateRepository.hydrateWithOptionalSnapshot D.aggregate
          (X.snapshottable codec) now (EventStore.loadEntity id (x.shared.shared.events.stream id))
          (x.shared.shared.snapshots.getSnapshot id) = .ok b
        ∧ b.entity.id = id ∧ b.entity.events = x.shared.shared.events.stream id
        ∧ ∀ f ∈ fields, d.NonSkipped f → b.fields f.ident = a.fields f.ident)
    ∧ ∀ c pool, x.prog c = .ret pool → ∀ w ∈ pool,
      w.base.entity.events <+: x.shared.shared.events.stream w.base.entity.id
      ∧ ∃ a, Command.Applies ((CallHistory.callsOf x.shared.log w.base.entity.id).take
          w.base.entity.events.length) ⟨D.default, Entity.withId w.base.entity.id⟩ a
        ∧ a.entity.id = w.base.entity.id ∧ a.entity.events = w.base.entity.events
        ∧ ∀ f ∈ fields, d.NonSkipped f → w.base.fields f.ident = a.fields f.ident := by
  have hB := onSnapshots_derived hfields hX codec D.default
  have hR : (keptPart X.restoreAssignments D.default).Restored (X.snapshottable codec) D.aggregate :=
    restored_derived hfields hX hown hcodec D.aggregate
  have hkept : ∀ f ∈ fields, d.NonSkipped f → f.ident ∈ X.restoreAssignments := by
    intro f hf hskip
    rw [deriveSnapshot_eq hfields hX]
    exact mem_snapshotFields.mpr ⟨f, hf, hskip, rfl⟩
  constructor
  · intro id
    obtain ⟨a, ha, hevents, hload⟩ := KeptPart.hydrate_kept hD hS hB hR hrun id
    refine ⟨a, ha, hevents, fun now => ?_⟩
    obtain ⟨b, hb, hid, hevents', hsame⟩ := hload now
    exact ⟨b, hb, hid, hevents', fun f hf hskip => congrFun hsame ⟨f.ident, hkept f hf hskip⟩⟩
  · intro c pool hrest w hw
    obtain ⟨hle, a, ha, hid, hevents, hsame⟩ := KeptPart.loads_kept hD hS hB hR hrun hrest hw
    exact ⟨hle, a, ha, hid, hevents, fun f hf hskip => congrFun hsame ⟨f.ident, hkept f hf hskip⟩⟩

/-! ### A run -/

/-- What is derived for an order: its snapshots have no label. -/
def orderExpanded : Expanded basicTypes :=
  ⟨[("id", "String"), ("customer", "String")], [("id", .entityId), ("customer", .clone "customer")],
    ["customer"], "id"⟩

/-- The method that places an order, and labels it. -/
def placeMethod : EventMethod (String → basicTypes.Value) where
  name := "Placed"
  version := none
  Args := Unit
  params := .none Bitcode.unit
  guard := fun _ _ _ => true
  body := fun _ f _ _ => some (Function.update (Function.update f "customer" (.inl "alice"))
    "cached_label" (.inl "Order for alice"), some "order-1")

/-- An order. -/
def orders : Definition (String → basicTypes.Value) := ⟨fun _ => .inl "", [placeMethod], []⟩

/-- The snapshot of the order placed. -/
def placedSnapshot : List (String × (String ⊕ ℕ)) := [("id", .inl "order-1"), ("customer", .inl "alice")]

/-- A codec of snapshots that takes no bytes for this one. -/
noncomputable def orderCodec : SnapshotCodec (List (String × (String ⊕ ℕ))) where
  serialize s := .ok (if s = placedSnapshot then [] else 0 :: (OutboxMessage.numbered _).serialize s)
  deserialize
    | [] => .ok placedSnapshot
    | _ :: bytes => (OutboxMessage.numbered _).deserialize bytes

theorem lawful_orderCodec : orderCodec.Lawful := by
  intro s data hdata
  obtain rfl := Except.ok.inj hdata
  unfold orderCodec
  dsimp only
  by_cases hs : s = placedSnapshot
  · rw [if_pos hs, hs]
  · rw [if_neg hs]
    exact OutboxMessage.numbered_lawful _ s

theorem lawful_orders : SerialCalls.Lawful orders := by
  refine ⟨⟨List.nodup_singleton _, fun m hm => ?_⟩, rfl, fun m hm => ?_⟩
  · obtain rfl := List.mem_singleton.mp hm
    exact fun _ => rfl
  · obtain rfl := List.mem_singleton.mp hm
    exact fun _ _ _ _ _ => ⟨rfl, fun _ _ => rfl⟩

theorem suffices_place : (keptPart orderExpanded.restoreAssignments orders.default).Suffices placeMethod := by
  refine ⟨fun _ _ _ _ _ => rfl, fun _ f g _ _ h => ?_⟩
  refine congrArg (fun f => some (f, some "order-1")) (funext fun n => ?_)
  obtain ⟨n, hn⟩ := n
  obtain rfl := List.mem_singleton.mp hn
  rfl

/-- The call that places an order. -/
def placeOrder : orders.MethodCall := ⟨⟨0, Nat.one_pos⟩, SystemTime.unixEpoch, ()⟩

/-- The work of a client that has made an order and placed it. -/
def placedWork : Work orders :=
  ⟨⟨orders.default, Entity.withId ""⟩, [placeOrder],
    ⟨Function.update (Function.update orders.default "customer" (.inl "alice")) "cached_label"
        (.inl "Order for alice"),
      (Entity.withId "").recorded "order-1" [placeOrder.command.record (Entity.withId "")]⟩⟩

theorem named_placedWork : placedWork.Named :=
  Or.inr ⟨rfl, .assigns rfl (fun _ _ => ⟨rfl, fun _ _ => rfl⟩) _ "order-1" rfl⟩

/-- A client places an order, commits it with a snapshot, and loads it through that. -/
theorem exists_placed : ∃ (x : SerialCalls.State orders Bool) (w : Work orders) (pool : List (Work orders)),
    (SerialSnapshots.system orders (orderExpanded.snapshottable orderCodec) Bool).Run
      (SerialCalls.initial orders Bool) x
    ∧ x.shared.log = [placedWork] ∧ x.prog true = .ret (w :: pool) ∧ w.base.entity.id = "order-1"
    ∧ w.base.entity.events.length = 1 ∧ w.base.entity.snapshotVersion = 1
    ∧ w.base.fields "cached_label" = .inl "" := by
  have h₀ : (SerialSnapshots.system orders (orderExpanded.snapshottable orderCodec) Bool).Run
      (SerialCalls.initial orders Bool) (SerialCalls.initial orders Bool) := .refl
  have h₁ := h₀.tail (.start true _ _ rfl (.plain _ _ (.create "" [])))
  have h₂ := h₁.tail (.start true _ _ rfl (.plain _ _ (.call [] [] _ placeOrder placedWork.agg rfl rfl)))
  have h₃ := System.Run.call (c := true) CallHistory.sem_of_alone h₂ rfl
    (.commit .plain true 1 [placedWork] [placedWork] [] (.refl _) (List.nodup_singleton _)
      (fun w hw => List.mem_singleton.mp hw ▸ named_placedWork)) rfl
  have h₄ := System.Run.call (c := true) CallHistory.sem_of_alone h₃ rfl
    (.load _ _ (.get .plain SystemTime.unixEpoch "order-1")) rfl
  exact ⟨_, _, _, h₄, rfl, rfl, rfl, rfl, rfl, rfl⟩

/-- **The order loaded** has the customer it was placed for, and no label. -/
theorem skipped_fields_order : ∃ (x : SerialCalls.State orders Bool) (w : Work orders)
    (a : Agg (String → basicTypes.Value)),
    Command.Applies ((CallHistory.callsOf x.shared.log "order-1").take 1)
      ⟨orders.default, Entity.withId "order-1"⟩ a
    ∧ w.base.fields "customer" = a.fields "customer"
    ∧ w.base.fields "cached_label" = .inl "" ∧ w.base.entity.snapshotVersion = 1 := by
  obtain ⟨x, w, pool, hrun, hlog, hrest, hid, hlen, hv, hlabel⟩ := exists_placed
  have hS : ∀ m ∈ orders.methods,
      (keptPart orderExpanded.restoreAssignments orders.default).Suffices m := by
    intro m hm
    obtain rfl := List.mem_singleton.mp hm
    exact suffices_place
  obtain ⟨-, a, ha, -, -, hsame⟩ := (skipped_fields (d := order) (X := orderExpanded) rfl rfl rfl
    lawful_orderCodec lawful_orders hS hrun).2 true _ hrest w List.mem_cons_self
  rw [hid, hlen] at ha
  exact ⟨x, w, a, ha, hsame ⟨"customer", [], "String"⟩ (List.mem_cons_of_mem _ List.mem_cons_self)
    ⟨by decide, rfl⟩, hlabel, hv⟩

end DeriveInput
