import Sourced.SnapshotVersions
import Sourced.SnapshotLoading
import Sourced.SnapshotFrequency

/-!
# Whether the stored snapshot goes back

A commit through a repository with snapshots first commits the events, and
over a `QueuedRepository` releases the locks with that; the snapshots are
saved after it, and a save replaces whatever is stored. So a client can be
overtaken between its commit and its save: another loads the aggregate,
commits a later version and saves that, and then the first saves the earlier
one over it (`SnapshotSavers.goes_back`).

That is the only way. What a client has still to save, after its commit, can
be read off its program (`Prog.toSave`). As long as nobody saves a snapshot
while another has still to save an earlier one of the same id, no stored
version ever goes back; and where somebody does, the other need only go on for
it to go back (`SnapshotSavers.never_back`).
-/

variable {C Λ α β : Type}

/-! ## What is still to be saved -/

/-- What the next action leaves to be saved: the snapshot of a save, and nothing
for a release. -/
def RepoAction.nextSaves : (a : RepoAction) → (a.Resp → List SnapshotRecord) → List SnapshotRecord
  | .saveSnapshot r, rest => r :: rest (.ok ())
  | .unlock _, rest => rest (.ok ())
  | _, _ => []

/-- **The snapshots a program has still to save**, before it does anything else
than release locks. -/
def Prog.toSave : RepoProg α → List SnapshotRecord
  | .ret _ => []
  | .act a k => a.nextSaves (fun r => (k r).toSave)

namespace SnapshotSavers

variable [DecidableEq C]

/-- **Nobody is overtaken**: a client saves a snapshot only when no other has
still to save an earlier one of the id. -/
def InTurn (c : C) (x : Config C RepoAction RepoAction.Resp Shared Λ) : Prop :=
  ∀ r k, x.prog c = .act (.saveSnapshot r) k → ∀ d, d ≠ c → ∀ r' ∈ (x.prog d).toSave,
    r'.aggregateId = r.aggregateId → r.version ≤ r'.version

/-- **No stored version goes back** from the one store to the other. -/
def NeverBack (s s' : SnapshotStore) : Prop :=
  ∀ id r, s.getSnapshot id = some r → ∃ r', s'.getSnapshot id = some r' ∧ r.version ≤ r'.version

omit [DecidableEq C] in
theorem NeverBack.refl (s : SnapshotStore) : NeverBack s s := fun _ r h => ⟨r, h, le_rfl⟩

omit [DecidableEq C] in
theorem NeverBack.trans {s s' s'' : SnapshotStore} (h : NeverBack s s') (h' : NeverBack s' s'') :
    NeverBack s s'' := by
  intro id r hr
  obtain ⟨r', hr', hle⟩ := h id r hr
  obtain ⟨r'', hr'', hle'⟩ := h' id r' hr'
  exact ⟨r'', hr'', hle.trans hle'⟩

omit [DecidableEq C] in
/-- A save of a version that is no earlier than the stored one. -/
theorem NeverBack.save {s : SnapshotStore} {r : SnapshotRecord}
    (h : s.version r.aggregateId ≤ r.version) : NeverBack s (s.saveSnapshot r) := by
  intro id r' hr'
  rw [SnapshotStore.getSnapshot_saveSnapshot]
  by_cases hid : id = r.aggregateId
  · rw [if_pos hid]
    refine ⟨r, rfl, ?_⟩
    rw [← hid, SnapshotStore.version, hr'] at h
    exact h
  · rw [if_neg hid]
    exact ⟨r', hr', le_rfl⟩

open SnapshotAggregateRepository

variable {σ : Type} {A : Aggregate σ} {B : Snapshottable σ}

/-- **The loads** through a handle with snapshots. -/
inductive Load (A : Aggregate σ) (B : Snapshottable σ) : Op (List (Agg σ)) → Prop where
  | get {R : Repo} (hR : OverStore R) (now : SystemTime) (id : String) :
      Load A B (Prog.map (Except.map Option.toList) (get R A B now id))
  | getAll {R : Repo} (hR : OverStore R) (now : SystemTime) (ids : List String) :
      Load A B (getAll R A B now ids)
  | find {R : Repo} (hR : OverStore R) (now : SystemTime) (p : Agg σ → Bool) :
      Load A B (find R A B now p)
  | findOne {R : Repo} (hR : OverStore R) (now : SystemTime) (p : Agg σ → Bool) :
      Load A B (Prog.map (Except.map Option.toList) (findOne R A B now p))
  | peek (now : SystemTime) (id : String) :
      Load A B (Prog.map (Except.map Option.toList)
        (peek A B now (queuedRepository hashMapRepository) id))
  | peekAll (now : SystemTime) (ids : List String) :
      Load A B (peekAll A B now (queuedRepository hashMapRepository) ids)

/-- The aggregates of a client after a load. -/
def loaded (pool : List (Agg σ)) : RepoRes (List (Agg σ)) → List (Agg σ)
  | .ok as => as ++ pool
  | .error _ => pool

/-- **What a client with some aggregates does next.** -/
inductive Start (A : Aggregate σ) (B : Snapshottable σ) :
    List (Agg σ) → RepoProg (List (Agg σ)) → Prop where
  /-- A new aggregate. -/
  | create (pool : List (Agg σ)) : Start A B pool (.ret (A.newEmpty :: pool))
  /-- Event methods of an aggregate. -/
  | edit (pre post : List (Agg σ)) (a a' : Agg σ) (hedit : a.entity.Edited a'.entity) :
      Start A B (pre ++ a :: post) (.ret (pre ++ a' :: post))
  /-- A load. -/
  | load (pool : List (Agg σ)) (p : Op (List (Agg σ))) (hp : Load A B p) :
      Start A B pool (p.map (loaded pool))
  /-- A commit at any frequency: `commit`, `commit_all`, or an outbox commit, by
  the aggregates and messages it is given. -/
  | commit (pool : List (Agg σ)) {R : Repo} (hR : OverStore R) (checks : OverflowChecks)
      (frequency : ℕ) (aggs rest : List (Agg σ)) (messages : List Entity)
      (hpool : pool.Perm (aggs ++ rest)) (hmessages : ∀ e ∈ messages, Entity.new.Edited e)
      (hnd : ((aggs.map Agg.entity ++ messages).map Entity.id).Nodup) :
      Start A B pool ((commitWith R B checks frequency aggs messages).map (fun r => r.2.1 ++ rest))
  /-- An aggregate given up, and its lock released. -/
  | abort (pool : List (Agg σ)) (a : Agg σ) :
      Start A B pool ((abort (queuedRepository hashMapRepository) a).map (fun _ => pool))

/-- **Clients sharing one store.** Nobody deletes a snapshot. -/
def system (C : Type) (A : Aggregate σ) (B : Snapshottable σ) :
    System C RepoAction RepoAction.Resp Shared (List (Agg σ)) where
  sem _ a := a.Sem
  start _ := Start A B

/-- An empty store, and clients with nothing. -/
def initial (C : Type) (σ : Type) : Config C RepoAction RepoAction.Resp Shared (List (Agg σ)) :=
  ⟨Shared.empty, fun _ => .ret []⟩

/-! ## What a client may save -/

/-- The versions of which a client can have the snapshots still to save. -/
abbrev Pending := String → Option ℕ

/-- Nothing is to be saved. -/
def Pending.none : Pending := fun _ => Option.none

/-- What was committed can be to be saved. -/
def Pending.ofBatch (es : List Entity) : Pending :=
  fun id => (es.find? (fun e => decide (e.id = id))).map Entity.version

theorem Pending.ofBatch_eq_some {es : List Entity} {id : String} {v : ℕ}
    (h : Pending.ofBatch es id = some v) : ∃ e ∈ es, e.id = id ∧ e.version = v := by
  obtain ⟨e, he, rfl⟩ := Option.map_eq_some_iff.mp h
  have hid := List.find?_some he
  exact ⟨e, List.mem_of_find?_eq_some he, of_decide_eq_true hid, rfl⟩

theorem Pending.ofBatch_of_mem {es : List Entity} (hnd : (es.map Entity.id).Nodup) {e : Entity}
    (he : e ∈ es) : Pending.ofBatch es e.id = some e.version := by
  unfold Pending.ofBatch
  cases hfind : es.find? (fun e' => decide (e'.id = e.id)) with
  | none => exact absurd (decide_eq_true rfl) (List.find?_eq_none.mp hfind e he)
  | some e' =>
    have hid := List.find?_some hfind
    rw [List.inj_on_of_nodup_map hnd (List.mem_of_find?_eq_some hfind) he (of_decide_eq_true hid)]
    rfl

/-- **What a client may do and what comes of it.** It commits counted entities with
distinct ids, and after that releases locks, and saves snapshots of what it
committed, one for each id. Anything else it does, it has nothing to save
after. -/
def saving : Protocol RepoAction RepoAction.Resp Pending where
  pre a o :=
    match a with
    | .commit es => (∀ e ∈ es, e.Counted) ∧ (es.map Entity.id).Nodup
    | .saveSnapshot r => o r.aggregateId = some r.version
    | .deleteSnapshot _ => False
    | _ => True
  upd a o r o' :=
    match a, r with
    | .commit es, r => (∃ f, r = (.error (.err f), es)) ∧ o' = Pending.none
        ∨ r = (.ok (), es.map Entity.markCommitted) ∧ o' = Pending.ofBatch es
    | .saveSnapshot r, answer => answer = .ok () ∧ o' = Function.update o r.aggregateId none
    | .unlock _, answer => answer = .ok () ∧ o' = o
    | .getOne _, r => (∀ e, r = .ok (some e) → e.Counted) ∧ o' = Pending.none
    | .find _, r => (∀ es, r = .ok es → ∀ e ∈ es, e.Counted) ∧ o' = Pending.none
    | _, _ => o' = Pending.none

/-- **What is still to be saved is pending**, once for each id. -/
theorem pending_of_toSave {Q : α → Pending → Prop} {p : RepoProg α} {o : Pending}
    (h : saving.wp Q p o) : ∀ r ∈ p.toSave, o r.aggregateId = some r.version := by
  induction p generalizing o with
  | ret x => exact fun r hr => absurd hr List.not_mem_nil
  | act a k ih =>
    cases a with
    | saveSnapshot r₀ =>
      obtain ⟨hpre, hrest⟩ := h
      refine List.forall_mem_cons.mpr ⟨hpre, fun r hr => ?_⟩
      have hlater := ih (.ok ()) (hrest (.ok ()) _ ⟨rfl, rfl⟩) r hr
      rw [Function.update_apply] at hlater
      by_cases hid : r.aggregateId = r₀.aggregateId
      · rw [if_pos hid] at hlater
        cases hlater
      · rwa [if_neg hid] at hlater
    | unlock id => exact ih (.ok ()) (h.2 (.ok ()) o ⟨rfl, rfl⟩)
    | _ => exact fun r hr => absurd hr List.not_mem_nil

theorem toSave_eq_nil {Q : α → Pending → Prop} {p : RepoProg α} (h : saving.wp Q p Pending.none) :
    p.toSave = [] := by
  refine List.eq_nil_iff_forall_not_mem.mpr (fun r hr => ?_)
  cases pending_of_toSave h r hr

/-! ### Loads -/

/-- **The call keeps the protocol, whatever is pending, and returns only what is
asked.** -/
def Gives (p : Op α) (G : α → Prop) : Prop :=
  ∀ o, saving.wp (fun r _ => ∀ x, r = .ok x → G x) p o

namespace Gives

variable {G : α → Prop} {H : β → Prop} {p : Op α} {f : α → Op β}

theorem done {r : RepoRes α} (h : ∀ x, r = .ok x → G x) : Gives (Call.done r) G := fun _ => h

theorem andThen (h : Gives p G) (hf : ∀ x, G x → Gives (f x) H) : Gives (p.andThen f) H := by
  intro o
  rw [Protocol.wp_andThen]
  refine Protocol.wp_mono _ (fun r o' hr => ?_) (h o)
  cases r with
  | error e => exact fun x hx => by cases hx
  | ok x => exact hf x (hr x rfl) o'

theorem forEach {f : α → Op Unit} (hf : ∀ x, Gives (f x) (fun _ => True)) (xs : List α) :
    Gives (Call.forEach f xs) (fun _ => True) := by
  induction xs with
  | nil => exact done (fun _ _ => trivial)
  | cons x xs ih => exact andThen (hf x) (fun _ _ => ih)

/-- The rule of loops that collect. -/
theorem collect {f : α → Op (List β)} {xs : List α}
    (hf : ∀ x ∈ xs, Gives (f x) (fun ys => ∀ y ∈ ys, H y)) :
    Gives (Call.collect f xs) (fun ys => ∀ y ∈ ys, H y) := by
  induction xs with
  | nil =>
    refine done (fun ys hys y hy => ?_)
    obtain rfl : [] = ys := Except.ok.inj hys
    cases hy
  | cons x xs ih =>
    obtain ⟨hx, hxs⟩ := List.forall_mem_cons.mp hf
    refine andThen hx (fun ys hys => andThen (ih hxs) (fun zs hzs => done (fun ws hws => ?_)))
    obtain rfl : ys ++ zs = ws := Except.ok.inj hws
    exact List.forall_mem_append.mpr ⟨hys, hzs⟩

end Gives

section Reads

variable {R : Repo}

theorem gives_acquire (id : String) : Gives (QueuedRepository.acquire id) (fun _ => True) :=
  fun _ => ⟨trivial, fun _ _ _ _ _ => trivial⟩

theorem gives_acquireAll (ids : List String) :
    Gives (QueuedRepository.lockIdsInOrder ids) (fun _ => True) :=
  Gives.forEach gives_acquire _

theorem gives_hashMap_getOne (id : String) :
    Gives (HashMapRepository.getOne id) (fun entity => ∀ e ∈ entity, e.Counted) :=
  fun _ => ⟨trivial, fun _ _ hr _ hx e he => hr.1 e (he ▸ hx)⟩

theorem gives_hashMap_getMany (ids : List String) :
    Gives (HashMapRepository.getMany ids) (fun es => ∀ e ∈ es, e.Counted) := by
  refine Gives.collect (fun id _ => Gives.andThen (gives_hashMap_getOne id) (fun entity he =>
    Gives.done (fun es hes e hmem => ?_)))
  obtain rfl : entity.toList = es := Except.ok.inj hes
  exact he e (Option.mem_toList.mp hmem)

theorem gives_hashMap_find (p : Entity → Bool) :
    Gives (hashMapRepository.find p) (fun es => ∀ e ∈ es, e.Counted) :=
  fun _ => ⟨trivial, fun _ _ hr es hes => hr.1 es hes⟩

theorem gives_getOne (hR : OverStore R) (id : String) :
    Gives (R.getOne id) (fun entity => ∀ e ∈ entity, e.Counted) := by
  cases hR with
  | plain => exact gives_hashMap_getOne id
  | queued => exact Gives.andThen (gives_acquire id) (fun _ _ => gives_hashMap_getOne id)

theorem gives_getMany (hR : OverStore R) (ids : List String) :
    Gives (R.getMany ids) (fun es => ∀ e ∈ es, e.Counted) := by
  cases hR with
  | plain => exact gives_hashMap_getMany ids
  | queued => exact Gives.andThen (gives_acquireAll ids) (fun _ _ => gives_hashMap_getMany ids)

/-- Those of a search are. -/
theorem gives_find (hR : OverStore R) (p : Entity → Bool) :
    Gives (R.find p) (fun es => ∀ e ∈ es, e.Counted) := by
  cases hR with
  | plain => exact gives_hashMap_find p
  | queued =>
    refine Gives.andThen (gives_hashMap_find p) (fun es _ => Gives.andThen (gives_acquireAll _)
      (fun _ _ => Gives.collect (fun id _ => Gives.andThen (gives_hashMap_getOne id)
        (fun entity he => Gives.done (fun es hes e hmem => ?_)))))
    obtain rfl : entity.toList.filter p = es := Except.ok.inj hes
    exact he e (Option.mem_toList.mp (List.mem_of_mem_filter hmem))

end Reads

section Loads

variable {R : Repo} {now : SystemTime}

/-- **Hydration keeps an entity counted.** -/
theorem gives_hydrateStored (hR : OverStore R) (hB : B.KeepsCounts A) (id : String) {e : Entity}
    (he : e.Counted) : Gives (hydrateStored R A B now id e) (fun a => a.entity.Counted) := by
  have hread : Gives (R.getSnapshot id) (fun _ => True) := by
    have hperform : Gives (RepoProg.perform (RepoAction.getSnapshot id)) (fun _ => True) :=
      fun _ => ⟨trivial, fun _ _ _ _ _ => trivial⟩
    cases hR <;> exact hperform
  exact hread.andThen (fun snapshot _ => Gives.done (fun a ha => counted_of_hydrate hB he ha))

/-- Every aggregate that is loaded is counted. -/
theorem gives_loadOne {f : Hydrator σ} (hf : ∀ e : Entity, e.Counted →
    Gives (f e) (fun a => a.entity.Counted)) {read : Op (Option Entity)}
    (hread : Gives read (fun entity => ∀ e ∈ entity, e.Counted)) :
    Gives (f.loadOne read) (fun agg => ∀ a ∈ agg, a.entity.Counted) := by
  refine hread.andThen (fun entity he => ?_)
  cases entity with
  | none => exact Gives.done (fun agg hagg a ha => by rw [← Except.ok.inj hagg] at ha; cases ha)
  | some e =>
    refine (hf e (he e rfl)).andThen (fun a ha => Gives.done (fun agg hagg b hb => ?_))
    rw [← Except.ok.inj hagg] at hb
    rw [← Option.some.inj hb]
    exact ha

theorem gives_loadAll {f : Hydrator σ} (hf : ∀ e : Entity, e.Counted →
    Gives (f e) (fun a => a.entity.Counted)) {read : Op (List Entity)}
    (hread : Gives read (fun es => ∀ e ∈ es, e.Counted)) :
    Gives (f.loadAll read) (fun aggs => ∀ a ∈ aggs, a.entity.Counted) := by
  refine hread.andThen (fun es hes => Gives.collect (fun e he => (hf e (hes e he)).andThen
    (fun a ha => Gives.done (fun aggs haggs b hb => ?_))))
  rw [← Except.ok.inj haggs] at hb
  rw [List.mem_singleton.mp hb]
  exact ha

theorem gives_filter {f : Hydrator σ} {es : List Entity} (hf : ∀ e ∈ es,
    Gives (f e) (fun a => a.entity.Counted)) (p : Agg σ → Bool) :
    Gives (f.filter p es) (fun aggs => ∀ a ∈ aggs, a.entity.Counted) := by
  refine Gives.collect (fun e he => (hf e he).andThen (fun a ha =>
    Gives.done (fun aggs haggs b hb => ?_)))
  rw [← Except.ok.inj haggs] at hb
  rw [List.mem_singleton.mp (List.mem_of_mem_filter hb)]
  exact ha

theorem gives_first {f : Hydrator σ} {es : List Entity} (hf : ∀ e ∈ es,
    Gives (f e) (fun a => a.entity.Counted)) (p : Agg σ → Bool) :
    Gives (f.first p es) (fun agg => ∀ a ∈ agg, a.entity.Counted) := by
  induction es with
  | nil => exact Gives.done (fun agg hagg a ha => by rw [← Except.ok.inj hagg] at ha; cases ha)
  | cons e es ih =>
    obtain ⟨he, hes⟩ := List.forall_mem_cons.mp hf
    refine he.andThen (fun a ha => ?_)
    cases p a with
    | true =>
      refine Gives.done (fun agg hagg b hb => ?_)
      rw [← Except.ok.inj hagg] at hb
      rw [← Option.some.inj hb]
      exact ha
    | false => exact ih hes

/-- The result of a load of at most one, as a list. -/
theorem gives_toList {p : Op (Option (Agg σ))} (h : Gives p (fun agg => ∀ a ∈ agg, a.entity.Counted)) :
    Gives (Prog.map (Except.map Option.toList) p) (fun aggs => ∀ a ∈ aggs, a.entity.Counted) := by
  intro o
  rw [Protocol.wp_map]
  refine Protocol.wp_mono _ (fun r _ hr aggs haggs a ha => ?_) (h o)
  cases r with
  | error e => cases haggs
  | ok agg =>
    rw [← Except.ok.inj haggs] at ha
    exact hr agg rfl a (Option.mem_toList.mp ha)

/-- **Every load keeps the protocol and returns counted aggregates.** -/
theorem gives_load (hB : B.KeepsCounts A) {p : Op (List (Agg σ))} (hp : Load A B p) :
    Gives p (fun aggs => ∀ a ∈ aggs, a.entity.Counted) := by
  have hf : ∀ {R : Repo} (hR : OverStore R) (now : SystemTime) (id : String) (e : Entity),
      e.Counted → Gives (hydrateStored R A B now id e) (fun a => a.entity.Counted) :=
    fun hR _ id _ he => gives_hydrateStored hR hB id he
  cases hp with
  | get hR now id => exact gives_toList (gives_loadOne (hf hR now id) (gives_getOne hR id))
  | getAll hR now ids =>
    exact gives_loadAll (fun e => hf hR now e.id e) (gives_getMany hR ids)
  | find hR now p =>
    exact (gives_find hR _).andThen (fun es hes =>
      gives_filter (fun e he => hf hR now e.id e (hes e he)) p)
  | findOne hR now p =>
    exact gives_toList ((gives_find hR _).andThen (fun es hes =>
      gives_first (fun e he => hf hR now e.id e (hes e he)) p))
  | peek now id => exact gives_toList (gives_loadOne (hf .queued now id) (gives_hashMap_getOne id))
  | peekAll now ids =>
    exact gives_loadAll (fun e => hf .queued now e.id e) (gives_hashMap_getMany ids)

end Loads

/-! ### Commits -/

section Commits

variable {R : Repo} {o : Pending}

/-- A commit of counted entities with distinct ids: refused, or all of them are
marked, and can be to be saved. -/
theorem wp_commit (hR : OverStore R) {es : List Entity} (hes : ∀ e ∈ es, e.Counted)
    (hnd : (es.map Entity.id).Nodup) :
    saving.wp (fun r o' => (∃ f, r = (.error f, es))
      ∨ r = (.ok (), es.map Entity.markCommitted) ∧ o' = Pending.ofBatch es) (R.commit es) o := by
  have hplain : saving.wp (fun r o' => (∃ f, r = (.error f, es))
      ∨ r = (.ok (), es.map Entity.markCommitted) ∧ o' = Pending.ofBatch es)
      (RepoProg.perform (RepoAction.commit es)) o := by
    refine ⟨⟨hes, hnd⟩, fun r o' hupd => ?_⟩
    rcases hupd with ⟨⟨f, rfl⟩, -⟩ | ⟨rfl, ho'⟩
    · exact Or.inl ⟨_, rfl⟩
    · exact Or.inr ⟨rfl, ho'⟩
  cases hR with
  | plain => exact hplain
  | queued =>
    show saving.wp _ (QueuedRepository.commit hashMapRepository es) o
    rw [QueuedRepository.commit, Protocol.wp_bind]
    refine Protocol.wp_mono _ (fun r o' hr => ?_) hplain
    rcases hr with ⟨f, rfl⟩ | ⟨rfl, rfl⟩
    · exact Or.inl ⟨f, rfl⟩
    · -- the releases leave everything to be saved
      rw [Protocol.wp_map]
      refine Protocol.wp_mono_ok _ (fun _ o' ho' => Or.inr ⟨rfl, ho'⟩)
        (Protocol.wp_forEach _ (I := fun o' => o' = Pending.ofBatch es) (fun id _ o' ho' => ?_) rfl)
      refine ⟨trivial, fun r o'' hupd => ?_⟩
      obtain ⟨rfl, rfl⟩ := hupd
      exact ho'

/-- `maybe_snapshot` of what can be to be saved. -/
theorem wp_maybeSnapshot (hR : OverStore R) (checks : OverflowChecks) (frequency : ℕ) {a : Agg σ}
    (ha : a.entity.Counted) (ho : o a.entity.id = some a.entity.version) :
    saving.wp (Protocol.outcome (fun a' o' => a'.entity.Counted ∧ ∀ id, id ≠ a.entity.id → o' id = o id)
      (fun _ _ => True)) (maybeSnapshot R B checks frequency a) o := by
  unfold maybeSnapshot
  cases addU64 checks a.entity.snapshotVersion frequency with
  | none => trivial
  | some threshold =>
    by_cases hv : threshold ≤ a.entity.version
    · simp only [if_pos hv]
      cases hrecord : B.record a with
      | error f => trivial
      | ok record =>
        obtain ⟨hrid, hversion, -⟩ := Snapshottable.record_eq_ok hrecord
        have hsave : saving.wp (Protocol.outcome (fun _ o' => o' = Function.update o a.entity.id none)
            (fun _ _ => False)) (RepoProg.perform (RepoAction.saveSnapshot record)) o := by
          refine ⟨?_, fun r o' hupd => ?_⟩
          · show o record.aggregateId = some record.version
            rw [hrid, hversion]
            exact ho
          · obtain ⟨rfl, ho'⟩ := hupd
            exact hrid ▸ ho'
        have hsaveR : saving.wp (Protocol.outcome (fun _ o' => o' = Function.update o a.entity.id none)
            (fun _ _ => False)) (R.saveSnapshot record) o := by
          cases hR <;> exact hsave
        show saving.wp _ (Call.andThen (R.saveSnapshot record) _) o
        refine Protocol.wp_andThen_ok _ (fun _ o' ho' => ?_) hsaveR
        refine ⟨⟨ha.committed_le, ha.version_eq⟩, fun id hid => ?_⟩
        rw [ho', Function.update_of_ne hid]
    · simp only [if_neg hv]
      exact ⟨ha, fun _ _ => rfl⟩

/-- The snapshots of what can be to be saved. -/
theorem wp_maybeSnapshotAll (hR : OverStore R) (checks : OverflowChecks) (frequency : ℕ)
    {as : List (Agg σ)} (has : ∀ a ∈ as, a.entity.Counted ∧ o a.entity.id = some a.entity.version)
    (hnd : (as.map (fun a => a.entity.id)).Nodup) :
    saving.wp (fun r _ => ∀ a ∈ r.2, a.entity.Counted)
      (maybeSnapshotAll R B checks frequency as) o := by
  induction as generalizing o with
  | nil => exact fun a ha => absurd ha List.not_mem_nil
  | cons a as ih =>
    obtain ⟨⟨ha, ho⟩, hrest⟩ := List.forall_mem_cons.mp has
    obtain ⟨hid, hnd'⟩ := List.nodup_cons.mp hnd
    rw [maybeSnapshotAll, Protocol.wp_bind]
    refine Protocol.wp_mono _ (fun r o' hr => ?_) (wp_maybeSnapshot hR checks frequency ha ho)
    cases r with
    | error f => exact List.forall_mem_cons.mpr ⟨ha, fun a' ha' => (hrest a' ha').1⟩
    | ok a₁ =>
      obtain ⟨ha₁, hkeep⟩ := hr
      rw [Protocol.wp_map]
      refine Protocol.wp_mono _ (fun r _ hr => List.forall_mem_cons.mpr ⟨ha₁, hr⟩)
        (ih (fun a' ha' => ⟨(hrest a' ha').1, ?_⟩) hnd')
      rw [hkeep _ (fun h => hid (List.mem_map.mpr ⟨a', ha', h⟩))]
      exact (hrest a' ha').2

/-- **A commit with its snapshots** keeps the protocol, and the aggregates
counted. -/
theorem wp_commitWith (hR : OverStore R) (checks : OverflowChecks) (frequency : ℕ)
    {aggs : List (Agg σ)} {messages : List Entity} (haggs : ∀ a ∈ aggs, a.entity.Counted)
    (hmessages : ∀ e ∈ messages, e.Counted)
    (hnd : ((aggs.map Agg.entity ++ messages).map Entity.id).Nodup) :
    saving.wp (fun r _ => ∀ a ∈ r.2.1, a.entity.Counted)
      (commitWith R B checks frequency aggs messages) o := by
  have hes : ∀ e ∈ aggs.map Agg.entity ++ messages, e.Counted :=
    List.forall_mem_append.mpr ⟨List.forall_mem_map.mpr haggs, hmessages⟩
  rw [commitWith, Protocol.wp_bind, AggregateRepository.commitWith, Protocol.wp_map]
  refine Protocol.wp_mono _ (fun r o' hr => ?_) (wp_commit hR hes hnd)
  rcases hr with ⟨f, rfl⟩ | ⟨rfl, rfl⟩
  · have hzip := AggregateRepository.zipWith_entity aggs messages id
    rw [List.map_id] at hzip
    dsimp only
    rw [hzip]
    exact List.forall_mem_map.mpr haggs
  · dsimp only
    rw [AggregateRepository.zipWith_entity, Protocol.wp_map]
    refine wp_maybeSnapshotAll hR checks frequency (fun a ha => ?_) ?_
    · obtain ⟨a', ha', rfl⟩ := List.mem_map.mp ha
      refine ⟨(haggs a' ha').markCommitted, ?_⟩
      exact Pending.ofBatch_of_mem hnd (e := a'.entity)
        (List.mem_append_left _ (List.mem_map_of_mem ha'))
    · have hpart := (List.nodup_append.mp (List.map_append ▸ hnd)).1
      rw [List.map_map] at hpart ⊢
      exact hpart

end Commits

/-- **What holds of a client at rest**: everything it has is counted. -/
def Resting (pool : List (Agg σ)) (_ : Pending) : Prop := ∀ a ∈ pool, a.entity.Counted

/-- **Every program of a client keeps the protocol**, whatever is pending. -/
theorem wp_start (hB : B.KeepsCounts A) {pool : List (Agg σ)} {p : RepoProg (List (Agg σ))}
    (hpool : ∀ a ∈ pool, a.entity.Counted) (h : Start A B pool p) (o : Pending) :
    saving.wp Resting p o := by
  cases h with
  | create => exact List.forall_mem_cons.mpr ⟨.new, hpool⟩
  | edit pre post a a' hedit =>
    obtain ⟨hpre, hpost⟩ := List.forall_mem_append.mp hpool
    obtain ⟨ha, hpost⟩ := List.forall_mem_cons.mp hpost
    exact List.forall_mem_append.mpr ⟨hpre, List.forall_mem_cons.mpr ⟨ha.edited hedit, hpost⟩⟩
  | load _ p hp =>
    rw [Protocol.wp_map]
    refine Protocol.wp_mono _ (fun r o' hr => ?_) (gives_load hB hp o)
    cases r with
    | error f => exact hpool
    | ok as => exact List.forall_mem_append.mpr ⟨hr as rfl, hpool⟩
  | commit _ hR checks frequency aggs rest messages hperm hmessages hnd =>
    have hall : ∀ a ∈ aggs ++ rest, a.entity.Counted := fun a ha => hpool a (hperm.symm.subset ha)
    obtain ⟨haggs, hrest⟩ := List.forall_mem_append.mp hall
    rw [Protocol.wp_map]
    refine Protocol.wp_mono _ (fun r o' hr => List.forall_mem_append.mpr ⟨hr, hrest⟩)
      (wp_commitWith hR checks frequency haggs
        (fun e he => Entity.Counted.new.edited (hmessages e he)) hnd)
  | abort _ a =>
    rw [Protocol.wp_map]
    exact ⟨trivial, fun r o' _ => hpool⟩

/-! ## What holds of the store and the clients -/

/-- **No snapshot is ahead of its stream, stored or pending.** -/
structure Inv (s : Shared) (own : C → Pending) : Prop where
  covered : s.Covered
  pending_le : ∀ c id v, own c id = some v → v ≤ (s.events.stream id).length

namespace Inv

variable {s s' : Shared} {own : C → Pending} {c : C} {o : Pending}

/-- The streams may grow, and what one client has to save change. -/
theorem next (hI : Inv s own) (s' : Shared) (hcovered : s'.Covered)
    (hgrow : ∀ id, (s.events.stream id).length ≤ (s'.events.stream id).length)
    (ho : ∀ id v, o id = some v → v ≤ (s'.events.stream id).length) :
    Inv s' (Function.update own c o) := by
  refine ⟨hcovered, fun d id v hv => ?_⟩
  rcases update_eq_cases (rfl : Function.update own c o d = _) with ⟨-, heq⟩ | ⟨-, heq⟩
  · rw [← heq] at hv
    exact ho id v hv
  · rw [← heq] at hv
    exact (hI.pending_le d id v hv).trans (hgrow id)

theorem reset (hI : Inv s own) (hstores : s'.events = s.events ∧ s'.snapshots = s.snapshots) (c : C) :
    Inv s' (Function.update own c Pending.none) := by
  refine hI.next s' (fun id => ?_) (fun id => ?_) (fun id v hv => by cases hv)
  · rw [hstores.1, hstores.2]
    exact hI.covered id
  · rw [hstores.1]

/-- **Every action a client may perform keeps the invariant.** -/
theorem act (hI : Inv s own) {a : RepoAction} {r : a.Resp} (hpre : saving.pre a (own c))
    (hsem : a.Sem s r s') :
    ∃ o, saving.upd a (own c) r o ∧ Inv s' (Function.update own c o) := by
  cases a with
  | commit es =>
    obtain ⟨hes, hnd⟩ := hpre
    obtain ⟨rfl, rfl⟩ := RepoAction.sem_commit.mp hsem
    rcases EventStore.commit_of_counted hes with ⟨hv, hc⟩ | ⟨f, hc⟩
    · rw [hc]
      have hgrow : ∀ id, (s.events.stream id).length ≤ ((s.events.extendAll es).stream id).length :=
        fun id => (s.events.stream_prefix_extendAll es id).length_le
      refine ⟨_, Or.inr ⟨rfl, rfl⟩, hI.next (s.withEvents (s.events.extendAll es))
        (fun id => (hI.covered id).trans (hgrow id)) hgrow (fun id v hid => ?_)⟩
      obtain ⟨e, he, rfl, rfl⟩ := Pending.ofBatch_eq_some hid
      exact (EventStore.length_stream_extendAll hv hes hnd he).ge
    · rw [hc]
      exact ⟨_, Or.inl ⟨⟨f, rfl⟩, rfl⟩, hI.reset ⟨rfl, rfl⟩ c⟩
  | saveSnapshot record =>
    obtain ⟨rfl, rfl⟩ := RepoAction.sem_saveSnapshot.mp hsem
    refine ⟨_, ⟨rfl, rfl⟩, hI.next (s.withSnapshots (s.snapshots.saveSnapshot record))
      (fun id => ?_) (fun _ => le_rfl) (fun id v hv => ?_)⟩
    · show (s.snapshots.saveSnapshot record).version id ≤ (s.events.stream id).length
      rw [SnapshotStore.version_saveSnapshot]
      by_cases hid : id = record.aggregateId
      · rw [if_pos hid, hid]
        exact hI.pending_le c _ _ hpre
      · rw [if_neg hid]
        exact hI.covered id
    · rw [Function.update_apply] at hv
      by_cases hid : id = record.aggregateId
      · rw [if_pos hid] at hv
        cases hv
      · rw [if_neg hid] at hv
        exact hI.pending_le c id v hv
  | unlock id =>
    obtain ⟨rfl, rfl⟩ := RepoAction.sem_unlock.mp hsem
    exact ⟨own c, ⟨rfl, rfl⟩, hI.next _ hI.covered (fun _ => le_rfl) (hI.pending_le c)⟩
  | getOne id =>
    obtain ⟨rfl, -⟩ := RepoAction.sem_getOne.mp hsem
    exact ⟨_, ⟨fun e he => EventStore.counted_of_getOne he, rfl⟩,
      hI.reset (RepoAction.stores_of_sem hsem rfl) c⟩
  | find p =>
    have hstores := RepoAction.stores_of_sem hsem rfl
    obtain ⟨ord, -, hexec⟩ := hsem
    obtain ⟨rfl, -⟩ := Prod.mk.inj (Option.some.inj hexec)
    exact ⟨_, ⟨fun es hes => EventStore.counted_of_find hes, rfl⟩, hI.reset hstores c⟩
  | deleteSnapshot id => exact hpre.elim
  | _ => exact ⟨_, rfl, hI.reset (RepoAction.stores_of_sem hsem rfl) c⟩

end Inv

/-- **What is stored is no later than what anybody has still to save.** -/
def Behind (x : Config C RepoAction RepoAction.Resp Shared Λ) : Prop :=
  ∀ c, ∀ r ∈ (x.prog c).toSave, x.shared.snapshots.version r.aggregateId ≤ r.version

/-- The protocol is kept. -/
abbrev Keeps (x : Config C RepoAction RepoAction.Resp Shared (List (Agg σ))) : Prop :=
  System.Holds saving Inv Resting x

section Steps

variable {x y : Config C RepoAction RepoAction.Resp Shared (List (Agg σ))} {c : C}

theorem Keeps.step (hB : B.KeepsCounts A) (hx : Keeps x) (h : (system C A B).Step x y) : Keeps y :=
  h.holds (fun _ _ _ _ _ _ hI hpre hsem => hI.act hpre hsem)
    (fun _ _ _ _ hl hstart => wp_start hB hl hstart _) hx

omit [DecidableEq C] in
theorem keeps_initial : Keeps (initial C σ) :=
  ⟨fun _ => Pending.none, ⟨fun _ => Nat.zero_le _, fun _ _ _ hv => by cases hv⟩,
    fun _ _ ha => absurd ha List.not_mem_nil⟩

theorem Behind.update {s' : Shared} {p : RepoProg Λ} {x : Config C RepoAction RepoAction.Resp Shared Λ}
    (hothers : ∀ d, d ≠ c → ∀ r ∈ (x.prog d).toSave, s'.snapshots.version r.aggregateId ≤ r.version)
    (hself : ∀ r ∈ p.toSave, s'.snapshots.version r.aggregateId ≤ r.version) :
    Behind (⟨s', Function.update x.prog c p⟩ : Config C RepoAction RepoAction.Resp Shared Λ) := by
  intro d r hr
  rcases update_eq_cases (rfl : Function.update x.prog c p d = _) with ⟨-, heq⟩ | ⟨hd, heq⟩
  · exact hself r (heq ▸ hr)
  · exact hothers d hd r (heq ▸ hr)

/-- **A save in turn** goes no stored version back, and leaves the store behind
what is to be saved. -/
theorem Behind.save (hb : Behind x) (hmay : InTurn c x) {record : SnapshotRecord}
    {k : RepoRes Unit → RepoProg (List (Agg σ))} (hprog : x.prog c = .act (.saveSnapshot record) k)
    (hrest : ∀ r ∈ (k (.ok ())).toSave, r.aggregateId ≠ record.aggregateId) :
    Behind (⟨x.shared.withSnapshots (x.shared.snapshots.saveSnapshot record),
        Function.update x.prog c (k (.ok ()))⟩ :
          Config C RepoAction RepoAction.Resp Shared (List (Agg σ)))
      ∧ NeverBack x.shared.snapshots (x.shared.snapshots.saveSnapshot record) := by
  have hmine : ∀ r ∈ record :: (k (.ok ())).toSave,
      x.shared.snapshots.version r.aggregateId ≤ r.version := by
    have hc := hb c
    rw [hprog] at hc
    exact hc
  obtain ⟨hrecord, hlater⟩ := List.forall_mem_cons.mp hmine
  refine ⟨Behind.update (fun d hd r hr => ?_) (fun r hr => ?_), .save hrecord⟩
  · show (x.shared.snapshots.saveSnapshot record).version r.aggregateId ≤ r.version
    rw [SnapshotStore.version_saveSnapshot]
    by_cases hid : r.aggregateId = record.aggregateId
    · rw [if_pos hid]
      exact hmay record k hprog d hd r hr hid
    · rw [if_neg hid]
      exact hb d r hr
  · show (x.shared.snapshots.saveSnapshot record).version r.aggregateId ≤ r.version
    rw [SnapshotStore.version_saveSnapshot, if_neg (hrest r hr)]
    exact hlater r hr

/-- An action that leaves the snapshots as they are, after which nothing is to be
saved but what was. -/
theorem Behind.other (hb : Behind x) {s' : Shared} {p : RepoProg (List (Agg σ))}
    (hsnap : s'.snapshots = x.shared.snapshots)
    (hself : ∀ r ∈ p.toSave, x.shared.snapshots.version r.aggregateId ≤ r.version) :
    Behind (⟨s', Function.update x.prog c p⟩ :
        Config C RepoAction RepoAction.Resp Shared (List (Agg σ)))
      ∧ NeverBack x.shared.snapshots s'.snapshots := by
  refine ⟨Behind.update (fun d _ r hr => ?_) (fun r hr => ?_), hsnap ▸ .refl _⟩
  · rw [hsnap]
    exact hb d r hr
  · rw [hsnap]
    exact hself r hr

/-- **A step in turn** goes no stored version back. -/
theorem Behind.step (hB : B.KeepsCounts A) (hx : Keeps x) (hb : Behind x) (hmay : InTurn c x)
    (h : (system C A B).StepBy c x y) :
    Behind y ∧ NeverBack x.shared.snapshots y.shared.snapshots := by
  obtain ⟨own, hI, hwp⟩ := hx
  have hc := hwp c
  cases h with
  | start l p hprog hstart =>
    rw [hprog] at hc
    refine hb.other rfl (fun r hr => ?_)
    rw [toSave_eq_nil (wp_start hB hc hstart _)] at hr
    cases hr
  | act a k r s' hprog hsem =>
    rw [hprog] at hc
    obtain ⟨o, hupd, -⟩ := hI.act hc.1 hsem
    have hk := hc.2 r o hupd
    -- after most actions nothing is to be saved
    have hnothing : o = Pending.none → s'.snapshots = x.shared.snapshots →
        Behind (⟨s', Function.update x.prog c (k r)⟩ :
          Config C RepoAction RepoAction.Resp Shared (List (Agg σ)))
        ∧ NeverBack x.shared.snapshots s'.snapshots := by
      rintro rfl hsnap
      refine hb.other hsnap (fun r' hr' => ?_)
      rw [toSave_eq_nil hk] at hr'
      cases hr'
    cases a with
    | saveSnapshot record =>
      obtain ⟨rfl, rfl⟩ := RepoAction.sem_saveSnapshot.mp hsem
      refine hb.save hmay hprog (fun r' hr' hid => ?_)
      have hpending := pending_of_toSave hk r' hr'
      rw [hupd.2, hid, Function.update_self] at hpending
      cases hpending
    | unlock id =>
      obtain ⟨rfl, rfl⟩ := RepoAction.sem_unlock.mp hsem
      refine hb.other rfl ?_
      have hmine := hb c
      rw [hprog] at hmine
      exact hmine
    | commit es =>
      obtain ⟨hes, hnd⟩ := hc.1
      obtain ⟨rfl, rfl⟩ := RepoAction.sem_commit.mp hsem
      rcases hupd with ⟨-, ho⟩ | ⟨hr, rfl⟩
      · exact hnothing ho rfl
      · -- what is committed now is later than everything stored
        refine hb.other rfl (fun r' hr' => ?_)
        obtain ⟨e, he, hid, hversion⟩ := Pending.ofBatch_eq_some (pending_of_toSave hk r' hr')
        rcases EventStore.commit_of_counted hes with ⟨hv, -⟩ | ⟨f, hf⟩
        · have hlen := EventStore.length_stream_extendAll hv hes hnd he
          have hgrow := (x.shared.events.stream_prefix_extendAll es e.id).length_le
          rw [← hid, ← hversion]
          exact (hI.covered e.id).trans (hgrow.trans hlen.le)
        · rw [hf] at hr
          cases congrArg Prod.fst hr
    | deleteSnapshot id => exact hc.1.elim
    | getOne id => exact hnothing hupd.2 (RepoAction.stores_of_sem hsem rfl).2
    | find p => exact hnothing hupd.2 (RepoAction.stores_of_sem hsem rfl).2
    | _ => exact hnothing hupd (RepoAction.stores_of_sem hsem rfl).2

end Steps

/-! ## A lamp -/

/-- The lit lamp, at hand and stored with its snapshot. -/
def lit : Config Unit RepoAction RepoAction.Resp Shared (List (Agg Bool)) :=
  ⟨SnapshotTurns.lit, fun _ => .ret [⟨true,
    (SnapshotClients.lit "lamp-1" "On" true).entity.markCommitted.setSnapshotVersion 1⟩]⟩

end SnapshotSavers
