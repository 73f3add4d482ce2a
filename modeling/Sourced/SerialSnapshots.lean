import Sourced.SerialCalls
import Sourced.SnapshotLoading
import Sourced.SnapshotVersions

/-!
# Snapshots of the one aggregate

The clients of `SerialCalls` also load through repositories with snapshots, and commit
through them. A snapshot is saved after the commit, in a step of its own, and read after
the entity. So the one a load finds can be older than the entity or newer; by the time it
is saved others can have committed; and what is stored can go back to an earlier one.

It is still as if there was one aggregate for each id. A stored snapshot is that aggregate
as it was after its first calls, as many as the version says
(`SerialSnapshots.snapshots_serial`). And what a client has loaded, however the saves of
others fell into its load, is that aggregate after as many calls as events were read
(`SerialSnapshots.loads_serial`).
-/

variable {σ : Type}

/-! ## Calls and their events -/

namespace Command

variable {D : Definition σ} {c d : Command σ} {cs ds : List (Command σ)} {a b b' : Agg σ}

/-- **Calls that record the same event are the same call.** -/
theorem eq_of_record (hD : D.WellFormed) (hc : c.method ∈ D.methods) (hd : d.method ∈ D.methods)
    {e : Entity} (h : c.record e = d.record e) : c = d := by
  obtain ⟨m, now, args⟩ := c
  obtain ⟨m', now', args'⟩ := d
  have hname : m.name = m'.name := congrArg EventRecord.eventName h
  have hfind : D.methods.find? (fun n => n.name = m.name) = some m := EventMethod.find?_eq_some hD.names hc
  rw [hname, EventMethod.find?_eq_some hD.names hd] at hfind
  obtain rfl : m' = m := Option.some.inj hfind
  obtain rfl : now = now' := congrArg EventRecord.timestamp h
  have hpayload : m'.params.codec.serialize args = m'.params.codec.serialize args' :=
    congrArg EventRecord.payload h
  have hargs := hD.lawful _ hc args
  rw [hpayload, hD.lawful _ hc args'] at hargs
  rw [Except.ok.inj hargs]

theorem Applies.eq_of_nil (h : Applies [] a b) : b = a := by
  cases h with
  | nil => rfl

/-- The first of some calls that take effect, and the rest. -/
theorem Applies.uncons (h : Applies (c :: cs) a b) (hr : a.entity.replaying = false) :
    ∃ m records, c.run a = some m ∧ Applies cs m b ∧ m.entity.replaying = false
      ∧ b.entity.events = a.entity.events ++ c.record a.entity :: records := by
  cases h with
  | cons hguard hrun hrest =>
    obtain ⟨f, id, -, rfl⟩ := body_of_run hr hguard hrun
    obtain ⟨records, -, hb⟩ := hrest.entity_eq hr rfl
    refine ⟨_, records, hrun, hrest, hr, ?_⟩
    rw [hb]
    exact List.append_assoc _ [_] records

/-- **Calls with the first events were the first calls.** -/
theorem Applies.isPrefix (hD : D.WellFormed) (hcs : ∀ c ∈ cs, c.method ∈ D.methods)
    (hds : ∀ d ∈ ds, d.method ∈ D.methods) (hr : a.entity.replaying = false) (h : Applies cs a b)
    (h' : Applies ds a b') (hevents : b.entity.events <+: b'.entity.events) : cs <+: ds := by
  induction cs generalizing ds a with
  | nil => exact List.nil_prefix
  | cons c cs ih =>
    obtain ⟨m, records, hrun, hrest, hm, hb⟩ := h.uncons hr
    rw [hb] at hevents
    cases ds with
    | nil =>
      cases h'
      have hlen := hevents.length_le
      rw [List.length_append, List.length_cons] at hlen
      omega
    | cons d ds =>
      obtain ⟨m', records', hrun', hrest', -, hb'⟩ := h'.uncons hr
      rw [hb', List.prefix_append_right_inj, List.cons_prefix_cons] at hevents
      obtain rfl := eq_of_record hD (hcs c List.mem_cons_self) (hds d List.mem_cons_self) hevents.1
      obtain rfl : m = m' := Option.some.inj (hrun.symm.trans hrun')
      refine List.cons_prefix_cons.mpr ⟨rfl, ?_⟩
      exact ih (fun c' hc' => hcs c' (List.mem_cons_of_mem c hc'))
        (fun d' hd' => hds d' (List.mem_cons_of_mem c hd')) hm hrest hrest'

end Command

/-! ## Snapshots of the one aggregate -/

/-- **The snapshot is of the one aggregate**: calls on it have left the beginning of the
stream and the fields the snapshot was taken of, and its version is their number. -/
def Snapshottable.Memento (B : Snapshottable σ) (D : Definition σ) (r : SnapshotRecord)
    (stream : List EventRecord) : Prop :=
  ∃ (cs : List (Command σ)) (a : Agg σ), D.Records r.aggregateId cs a.entity.events a.fields
    ∧ a.entity.id = r.aggregateId ∧ a.entity.events <+: stream ∧ r.version = a.entity.events.length
    ∧ B.codec.serialize (B.createSnapshot a) = .ok r.data

open SerialCalls (Lawful Fits CopyOf Copying Copied Recorded)

theorem Definition.Records.toReplays {D : Definition σ} (hD : Lawful D) {id : String}
    {cs : List (Command σ)} {l : List EventRecord} {f : σ} (h : D.Records id cs l f) :
    D.aggregate.Replays id l f :=
  fun now _ he hr => ⟨l, upcast_eq hD.upcasters l, h.replayAll hD.wellFormed hD.readsOnlyId now he hr⟩

namespace Snapshottable.Memento

variable {B : Snapshottable σ} {D : Definition σ} {r : SnapshotRecord} {stream stream' : List EventRecord}

theorem mono (h : B.Memento D r stream) (hs : stream <+: stream') : B.Memento D r stream' := by
  obtain ⟨cs, a, hcs, hid, hle, hrest⟩ := h
  exact ⟨cs, a, hcs, hid, hle.trans hs, hrest⟩

theorem right (hD : Lawful D) (h : B.Memento D r stream) : B.Right D.aggregate r stream := by
  obtain ⟨cs, a, hcs, hid, hle, hv, hdata⟩ := h
  refine ⟨a, hid, ?_, hle, hv, hdata⟩
  unfold Aggregate.Reproduces
  rw [hid]
  exact hcs.toReplays hD

end Snapshottable.Memento

/-! ## The clients -/

namespace SerialSnapshots

open Known (Since)
open SerialCalls (NotedProg loaded grown NoCommit)
open Command (Applies)

section Programs

variable {D : Definition σ} {B : Snapshottable σ} {R : Repo} {k : Known}

/-- **Hydration with a snapshot is a copy**, with the version of the snapshot noted. -/
theorem hydrateWithOptionalSnapshot_eq (hD : Lawful D) (hB : B.Restores D.aggregate) {e : Entity}
    (he : k.Loads e) {snapshot : Option SnapshotRecord}
    (hs : ∀ r ∈ snapshot, r.aggregateId = e.id ∧ B.Memento D r (k.stream e.id))
    {cs : List (Command σ)} {f : σ} (hcs : D.Records e.id cs e.events f) (now : SystemTime) :
    SnapshotAggregateRepository.hydrateWithOptionalSnapshot D.aggregate B now e snapshot
      = .ok ((Agg.loaded e.id e.events f).noting (e.notedVersion snapshot)) := by
  have hnoted : ∀ v, D.aggregate.hydrate now (e.setSnapshotVersion v)
      = .ok ((Agg.loaded e.id e.events f).noting v) := by
    intro v
    have hhydrate := (hcs.toReplays hD).hydrate (e := e.setSnapshotVersion v) he.replaying_eq now
    rw [hhydrate, Agg.noting, Agg.loaded, ← he.loadEntity]
  have hplain := hnoted e.snapshotVersion
  cases snapshot with
  | none => exact hplain
  | some r =>
    obtain ⟨hid, hmemento⟩ := hs r rfl
    unfold SnapshotAggregateRepository.hydrateWithOptionalSnapshot Entity.notedVersion
    by_cases hv : r.version ≤ e.version
    · simp only [if_pos hv]
      rw [SnapshotAggregateRepository.hydrateFromSnapshot_of_restores hB (hmemento.right hD) hid he.initial
        he.numbered (he.version_eq ▸ hv) now]
      exact hnoted r.version
    · simp only [if_neg hv]
      exact hplain

/-- Hydration with the stored snapshot copies. -/
theorem copying_hydrateStored (hD : Lawful D) (hB : B.Restores D.aggregate) (hR : OverStore R)
    (now : SystemTime) (e : Entity) : Copying (B.Memento D) D
      (SnapshotAggregateRepository.hydrateStored R D.aggregate B now e.id) e := by
  intro kl he
  rw [SnapshotAggregateRepository.hydrateStored, Call.bind_eq, Protocol.wp_andThen]
  refine Protocol.wp_mono _ (fun r kl' hr => ?_) (Known.wp_getSnapshot hR kl e.id)
  cases r with
  | error f => exact hr.elim
  | ok snapshot =>
    obtain ⟨hsince, hs⟩ := hr
    show Protocol.outcome _ _ (SnapshotAggregateRepository.hydrateWithOptionalSnapshot _ _ _ e snapshot) kl'
    cases hok : SnapshotAggregateRepository.hydrateWithOptionalSnapshot D.aggregate B now e snapshot with
    | error f => exact hsince
    | ok agg =>
      refine ⟨hsince, fun cs f hcs => ⟨e.notedVersion snapshot, ?_⟩⟩
      exact Except.ok.inj (hok.symm.trans
        (hydrateWithOptionalSnapshot_eq hD hB (he.mono hsince.1) hs hcs now))

/-- **The loads** through repositories with snapshots. -/
inductive Load (D : Definition σ) (B : Snapshottable σ) : Op (List (Agg σ)) → Prop where
  | get {R : Repo} (hR : OverStore R) (now : SystemTime) (id : String) :
      Load D B (Prog.map (Except.map Option.toList)
        (SnapshotAggregateRepository.get R D.aggregate B now id))
  | getAll {R : Repo} (hR : OverStore R) (now : SystemTime) (ids : List String) :
      Load D B (SnapshotAggregateRepository.getAll R D.aggregate B now ids)
  | peek (now : SystemTime) (id : String) :
      Load D B (Prog.map (Except.map Option.toList)
        (SnapshotAggregateRepository.peek D.aggregate B now (queuedRepository hashMapRepository) id))
  | peekAll (now : SystemTime) (ids : List String) :
      Load D B
        (SnapshotAggregateRepository.peekAll D.aggregate B now (queuedRepository hashMapRepository) ids)

theorem only_hydrateStored (hR : OverStore R) (now : SystemTime) (id : String) (e : Entity) :
    (SnapshotAggregateRepository.hydrateStored R D.aggregate B now id e).Only NoCommit := by
  have hread : (R.getSnapshot id).Only NoCommit := by
    cases hR <;> exact ⟨fun _ => RepoAction.noConfusion, fun _ => trivial⟩
  exact Call.only_andThen hread (fun _ => trivial)

/-- **The loads commit nothing.** -/
theorem only_load {p : Op (List (Agg σ))} (hp : Load D B p) : p.Only NoCommit := by
  cases hp with
  | get hR now id =>
    exact (SerialCalls.only_loadOne (SerialCalls.only_getOne hR id) (only_hydrateStored hR now id)).map _
  | getAll hR now ids =>
    exact SerialCalls.only_loadAll (SerialCalls.only_getMany hR ids)
      (fun e => only_hydrateStored hR now e.id e)
  | peek now id =>
    exact (SerialCalls.only_loadOne (SerialCalls.only_hashMap_getOne id)
      (only_hydrateStored .queued now id)).map _
  | peekAll now ids =>
    exact SerialCalls.only_loadAll (SerialCalls.only_hashMap_getMany ids)
      (fun e => only_hydrateStored .queued now e.id e)

/-- **And return copies** of the entities they read. -/
theorem wp_load (hD : Lawful D) (hB : B.Restores D.aggregate) {p : Op (List (Agg σ))} (hp : Load D B p)
    (k : Known) : (Known.reading (B.Memento D)).wp
      (Protocol.outcome (fun aggs kl' => k ≤ kl'.1 ∧ Copied D kl' aggs) (grown k)) p (k, []) := by
  cases hp with
  | get hR now id =>
    refine SerialCalls.wp_toList (SerialCalls.wp_loadOne k (Known.wp_getOne hR (k, []) id) (fun e he => ?_))
    exact he ▸ copying_hydrateStored hD hB hR now e
  | getAll hR now ids =>
    exact SerialCalls.wp_loadAll k (Known.wp_getMany hR (k, []) ids) (copying_hydrateStored hD hB hR now)
  | peek now id =>
    refine SerialCalls.wp_toList (SerialCalls.wp_loadOne k (Known.wp_hashMap_getOne (k, []) id)
      (fun e he => ?_))
    exact he ▸ copying_hydrateStored hD hB .queued now e
  | peekAll now ids =>
    exact SerialCalls.wp_loadAll k (Known.wp_hashMap_getMany (k, []) ids)
      (copying_hydrateStored hD hB .queued now)

/-! ### Commits -/

/-- **`maybe_snapshot`** of an aggregate whose snapshot is of the one aggregate: it may note the
version. -/
theorem wp_maybeSnapshot (hR : OverStore R) {kl : Known × List Entity} {a : Agg σ}
    (ha : ∀ r, B.record a = .ok r → B.Memento D r (kl.1.stream r.aggregateId))
    (checks : OverflowChecks) (frequency : ℕ) :
    (Known.reading (B.Memento D)).wp (Protocol.outcome (fun a' kl' => Since kl [] kl' ∧ ∃ v, a' = a.noting v)
      (fun _ kl' => Since kl [] kl'))
      (SnapshotAggregateRepository.maybeSnapshot R B checks frequency a) kl := by
  unfold SnapshotAggregateRepository.maybeSnapshot
  cases addU64 checks a.entity.snapshotVersion frequency with
  | none => exact Since.refl kl
  | some threshold =>
    by_cases hv : threshold ≤ a.entity.version
    · simp only [if_pos hv]
      cases hrecord : B.record a with
      | error f => exact Since.refl kl
      | ok record =>
        show (Known.reading (B.Memento D)).wp _ (Call.andThen (R.saveSnapshot record) _) kl
        refine Protocol.wp_andThen_ok _ (fun _ kl' hr => ?_) (Known.wp_saveSnapshot hR (ha record hrecord))
        exact ⟨hr, a.entity.version, rfl⟩
    · simp only [if_neg hv]
      exact ⟨Since.refl kl, a.entity.snapshotVersion, rfl⟩

/-- The snapshots after a commit of several. -/
theorem wp_maybeSnapshotAll (hR : OverStore R) {kl : Known × List Entity} {aggs : List (Agg σ)}
    (haggs : ∀ a ∈ aggs, ∀ r, B.record a = .ok r → B.Memento D r (kl.1.stream r.aggregateId))
    (checks : OverflowChecks) (frequency : ℕ) :
    (Known.reading (B.Memento D)).wp (fun r kl' => Since kl [] kl'
        ∧ List.Forall₂ (fun a a' => ∃ v, a' = a.noting v) aggs r.2)
      (SnapshotAggregateRepository.maybeSnapshotAll R B checks frequency aggs) kl := by
  have hsame : ∀ l : List (Agg σ), List.Forall₂ (fun a a' => ∃ v, a' = a.noting v) l l := fun l =>
    List.forall₂_same.mpr (fun a _ => ⟨a.entity.snapshotVersion, rfl⟩)
  induction aggs generalizing kl with
  | nil => exact ⟨Since.refl kl, .nil⟩
  | cons a aggs ih =>
    rw [SnapshotAggregateRepository.maybeSnapshotAll, Protocol.wp_bind]
    refine Protocol.wp_mono _ (fun r kl' hr => ?_)
      (wp_maybeSnapshot hR (haggs a List.mem_cons_self) checks frequency)
    cases r with
    | error f => exact ⟨hr, hsame _⟩
    | ok a₁ =>
      obtain ⟨hsince, hnoted⟩ := hr
      rw [Protocol.wp_map]
      refine Protocol.wp_mono _ (fun r kl'' hr => ?_) (ih (fun a' ha' r hrecord =>
        (haggs a' (List.mem_cons_of_mem a ha') r hrecord).mono (hsince.1 _)))
      exact ⟨hsince.trans_nil hr.1, .cons hnoted hr.2⟩

/-- **What a work is after a commit with snapshots**: it begins again if its aggregate has
nothing left to commit, also where a snapshot after the commit failed. -/
def settleOne (w : Work D) (agg : Agg σ) : Work D :=
  if agg.entity.committedVersion = agg.entity.events.length then Work.start agg else { w with agg := agg }

/-- The works of a batch. -/
def settle (ws : List (Work D)) (aggs : List (Agg σ)) : List (Work D) := List.zipWith settleOne ws aggs

/-- The works after a commit that failed. -/
theorem fits_unchanged {batch : List (Work D)} {k' : Known} (hbatch : ∀ w ∈ batch, Fits k w) (hk : k ≤ k') :
    ∀ w ∈ settle batch (batch.map Work.agg), Fits k' w := by
  intro w hw
  rw [settle, List.zipWith_map_right, List.zipWith_self] at hw
  obtain ⟨w, hmem, rfl⟩ := List.mem_map.mp hw
  have hfits := (hbatch w hmem).mono hk
  unfold settleOne
  by_cases hnothing : w.agg.entity.committedVersion = w.agg.entity.events.length
  · rw [if_pos hnothing]
    -- with nothing to commit there have been no calls
    obtain ⟨v, records, hagg, hlen⟩ := hfits.agg_entity
    have hnone : w.commands = [] := by
      rw [hagg] at hnothing
      have hrecords : w.base.entity.events.length = (w.base.entity.events ++ records).length := hnothing
      rw [List.length_append] at hrecords
      exact List.eq_nil_of_length_eq_zero (by omega)
    have hbase : w.agg = w.base := (hnone ▸ hfits.applies).eq_of_nil
    rw [hbase]
    exact ⟨hfits.loaded, hfits.records, hfits.initial, .nil _⟩
  · rw [if_neg hnothing]
    exact hfits

/-- The works after one that succeeded. -/
theorem fits_settled (hD : Lawful D) {batch : List (Work D)} {aggs : List (Agg σ)} {k' : Known}
    (hbatch : ∀ w ∈ batch, Fits k w ∧ w.Named)
    (hstored : ∀ w ∈ batch, w.agg.entity.events <+: k'.stream w.id)
    (haggs : List.Forall₂ (fun a a' => ∃ v, a' = a.noting v) ((batch.map Work.agg).map Agg.committed) aggs) :
    ∀ w ∈ settle batch aggs, Fits k' w := by
  induction batch generalizing aggs with
  | nil => exact fun w hw => absurd hw List.not_mem_nil
  | cons w batch ih =>
    obtain ⟨hw, hbatch⟩ := List.forall_mem_cons.mp hbatch
    obtain ⟨hstored, hrest⟩ := List.forall_mem_cons.mp hstored
    cases haggs with
    | cons ha haggs =>
      obtain ⟨v, rfl⟩ := ha
      refine List.forall_mem_cons.mpr ⟨?_, ih hbatch hrest haggs⟩
      have hnothing : (w.agg.committed.noting v).entity.committedVersion
          = (w.agg.committed.noting v).entity.events.length := (hw.1.tracks hw.2).version_eq
      rw [settleOne, if_pos hnothing]
      exact SerialCalls.fits_committed hD hw.1 hw.2 hstored v

/-- **The snapshot of a committed work** is of the one aggregate. -/
theorem memento_committed (hD : Lawful D) {w : Work D} (h : Fits k w) (hnamed : w.Named) {k' : Known}
    (hstored : w.agg.entity.events <+: k'.stream w.id) {r : SnapshotRecord}
    (hr : B.record w.agg.committed = .ok r) :
    B.Memento D r (k'.stream r.aggregateId) := by
  obtain ⟨cs, hcs⟩ := h.records_agg hD.wellFormed hD.upcasters hD.readsOnlyId hnamed
  obtain ⟨hid, hversion, hdata⟩ := Snapshottable.record_eq_ok hr
  exact ⟨cs, w.agg.committed, hid ▸ hcs, hid.symm, hid ▸ hstored,
    hversion.trans (h.tracks hnamed).version_eq, hdata⟩

/-- What a commit with snapshots commits is the batch. -/
theorem only_commitAll (hR : OverStore R) (checks : OverflowChecks) (frequency : ℕ) (aggs : List (Agg σ)) :
    (SnapshotAggregateRepository.commitAll R B checks frequency aggs).Only
      (fun a => ∀ es, a = .commit es → es = aggs.map Agg.entity ++ []) := by
  have hsave : ∀ as : List (Agg σ), (SnapshotAggregateRepository.maybeSnapshotAll R B checks frequency as).Only
      (fun a => ∀ es, a = .commit es → es = aggs.map Agg.entity ++ []) := by
    intro as
    induction as with
    | nil => trivial
    | cons a as ih =>
      refine Prog.Only.bind ?_ (fun r => ?_)
      · unfold SnapshotAggregateRepository.maybeSnapshot
        cases addU64 checks a.entity.snapshotVersion frequency with
        | none => trivial
        | some threshold =>
          by_cases hv : threshold ≤ a.entity.version
          · simp only [if_pos hv]
            cases B.record a with
            | error f => trivial
            | ok record =>
              show (Call.andThen (R.saveSnapshot record) _).Only _
              refine Call.only_andThen ?_ (fun _ => trivial)
              cases hR <;> exact ⟨fun _ h => RepoAction.noConfusion h, fun _ => trivial⟩
          · simp only [if_neg hv]
            trivial
      · cases r with
        | error f => trivial
        | ok a' => exact ih.map _
  refine Prog.Only.bind ((SerialCalls.only_commit hR _).map _) (fun r => ?_)
  obtain ⟨r, aggs', others⟩ := r
  cases r with
  | error f => trivial
  | ok u => exact (hsave aggs').map _

/-- **A commit with snapshots of works that fit**: each of them is as it was or begins again,
and the snapshots saved are of the one aggregates. -/
theorem wp_commitAll (hD : Lawful D) (hR : OverStore R) {batch : List (Work D)}
    (hnd : (batch.map Work.id).Nodup) (hbatch : ∀ w ∈ batch, Fits k w ∧ w.Named)
    (checks : OverflowChecks) (frequency : ℕ) :
    (SerialCalls.protocol (B.Memento D) D).wp (fun r k' => k ≤ k' ∧ ∀ w ∈ settle batch r.2.1, Fits k' w)
      ((SnapshotAggregateRepository.commitAll R B checks frequency (batch.map Work.agg)).noting batch) k := by
  obtain ⟨htracks, hids⟩ := SerialCalls.tracks_aggs hnd hbatch
  refine SerialCalls.wp_batch hbatch (only_commitAll hR checks frequency _) ?_
  rw [SnapshotAggregateRepository.commitAll, SnapshotAggregateRepository.commitWith, Protocol.wp_bind]
  refine Protocol.wp_mono _ (fun r kl hr => ?_) (SerialCalls.wp_commitWith hR htracks hids)
  obtain ⟨r, aggs, others⟩ := r
  obtain ⟨hsince, hr⟩ := hr
  cases hr with
  | inl hfailed =>
    obtain ⟨⟨f, rfl⟩, rfl⟩ := hfailed
    exact ⟨hsince.1, fits_unchanged (fun w hw => (hbatch w hw).1) hsince.1⟩
  | inr hok =>
    obtain ⟨rfl, rfl, hstored⟩ := hok
    have hstored' : ∀ w ∈ batch, w.agg.entity.events <+: kl.1.stream w.id :=
      fun w hw => hstored w.agg (List.mem_map_of_mem hw)
    show (Known.reading (B.Memento D)).wp _ (Prog.map _ _) kl
    rw [Protocol.wp_map]
    refine Protocol.wp_mono _ (fun r kl' hr => ?_) (wp_maybeSnapshotAll hR (fun a ha => ?_) checks frequency)
    · refine ⟨hsince.1.trans hr.1.1, fits_settled hD hbatch (fun w hw => ?_) hr.2⟩
      exact (hstored' w hw).trans (hr.1.1 _)
    · obtain ⟨a', ha', rfl⟩ := List.mem_map.mp ha
      obtain ⟨w, hw, rfl⟩ := List.mem_map.mp ha'
      exact fun record hrecord =>
        memento_committed hD (hbatch w hw).1 (hbatch w hw).2 (hstored' w hw) hrecord

/-! ### What the clients do -/

/-- **What a client does next.** -/
inductive Start (B : Snapshottable σ) : List (Work D) → NotedProg D (List (Work D)) → Prop where
  /-- Anything without snapshots: an aggregate made, a call, a load, a commit. -/
  | plain (pool : List (Work D)) (p : NotedProg D (List (Work D))) (h : SerialCalls.Start pool p) :
      Start B pool p
  /-- A load. -/
  | load (pool : List (Work D)) (p : Op (List (Agg σ))) (hp : Load D B p) :
      Start B pool ((p.noting []).map (loaded pool))
  /-- `commit` or `commit_all` at any frequency, of aggregates with pairwise distinct ids. -/
  | commit {R : Repo} (hR : OverStore R) (checks : OverflowChecks) (frequency : ℕ)
      (pool batch rest : List (Work D)) (hpool : pool.Perm (batch ++ rest))
      (hnd : (batch.map Work.id).Nodup) (hnamed : ∀ w ∈ batch, w.Named) :
      Start B pool
        (((SnapshotAggregateRepository.commitAll R B checks frequency (batch.map Work.agg)).noting batch).map
          (fun r => settle batch r.2.1 ++ rest))
  /-- `delete_snapshot`. -/
  | deleteSnapshot {R : Repo} (hR : OverStore R) (id : String) (pool : List (Work D)) :
      Start B pool (((R.deleteSnapshot id).noting []).map (fun _ => pool))

/-- **Every program of a client keeps the protocol**, and its works fit. -/
theorem wp_start (hD : Lawful D) (hB : B.Restores D.aggregate) {pool : List (Work D)}
    {p : NotedProg D (List (Work D))} (hpool : ∀ w ∈ pool, Fits k w) (h : Start B pool p) :
    (SerialCalls.protocol (B.Memento D) D).wp (fun pool k => ∀ w ∈ pool, Fits k w) p k := by
  cases h with
  | plain _ _ h => exact SerialCalls.wp_start hD hpool h
  | load _ p hp => exact SerialCalls.wp_loaded hpool (only_load hp) (wp_load hD hB hp k)
  | commit hR checks frequency _ batch rest hperm hnd hnamed =>
    have hall : ∀ w ∈ batch ++ rest, Fits k w := fun w hw => hpool w (hperm.symm.subset hw)
    rw [Protocol.wp_map]
    refine Protocol.wp_mono _ (fun r k' hr => ?_) (wp_commitAll hD hR hnd
      (fun w hw => ⟨hall w (List.mem_append_left _ hw), hnamed w hw⟩) checks frequency)
    intro w hw
    cases List.mem_append.mp hw with
    | inl hbatch => exact hr.2 w hbatch
    | inr hrest => exact (hall w (List.mem_append_right _ hrest)).mono hr.1
  | @deleteSnapshot R' hR id =>
    have honly : (R'.deleteSnapshot id).Only NoCommit := by
      cases hR <;> exact ⟨fun _ => RepoAction.noConfusion, fun _ => trivial⟩
    rw [Protocol.wp_map]
    refine Protocol.wp_mono _ (fun r k' hr => ?_)
      (SerialCalls.wp_reads honly (Known.wp_deleteSnapshot hR (k, []) id))
    obtain ⟨es, -, hr⟩ := hr
    cases r with
    | error f => exact hr.elim
    | ok u => exact fun w hw => (hpool w hw).mono hr.1

end Programs

variable (D : Definition σ) (B : Snapshottable σ)

/-- **Clients sharing one store**, its events and its snapshots. -/
def system (C : Type) : System C (List (Work D) × RepoAction) (fun na => na.2.Resp) (CallHistory D)
    (List (Work D)) where
  sem _ := CallHistory.Sem
  start _ := Start B

/-! ## The law -/

section Law

variable {D B} {C : Type} [DecidableEq C] {x : SerialCalls.State D C}

theorem holds_of_run (hD : Lawful D) (hB : B.Restores D.aggregate)
    (hrun : (system D B C).Run (SerialCalls.initial D C) x) :
    System.Holds (SerialCalls.protocol (B.Memento D) D) (SerialCalls.Inv (B.Memento D) D)
      (fun pool k => ∀ w ∈ pool, Fits k w) x :=
  System.reachable_holds
    (fun _ _ _ _ _ _ hI hpre hsem => hI.act (fun _ _ _ hle h => h.mono hle) hD hpre hsem)
    (fun _ _ _ _ hl hstart => wp_start hD hB hl hstart) (SerialCalls.holds_initial D C) hrun

/-- **The beginnings of the stream** are those that the first calls have left. -/
theorem exists_after (hD : Lawful D) {id : String} {calls cs : List (Command σ)}
    {stream l : List EventRecord} {f f' : σ} (h : D.Records id calls stream f)
    (hcs : D.Records id cs l f') (hl : l <+: stream) :
    l.length ≤ calls.length ∧ ∃ b, Applies (calls.take l.length) ⟨D.default, Entity.withId id⟩ b
      ∧ b.entity.id = id ∧ b.entity.events = l ∧ b.fields = f' := by
  have hlen := hcs.length_eq
  obtain ⟨hcalls, a, happlies, -, rfl, -⟩ := h
  obtain ⟨hmethods, b, hb, hid, rfl, rfl⟩ := hcs
  have hfirst : cs <+: calls := hb.isPrefix hD.wellFormed hmethods hcalls rfl happlies hl
  refine ⟨hlen ▸ hfirst.length_le, b, ?_, hid, rfl, rfl⟩
  rw [hlen, ← List.prefix_iff_eq_take.mp hfirst]
  exact hb

/-- **Whoever hydrates what is stored**, with the snapshot that is stored, has what the calls
have left on the one aggregate. -/
theorem hydrate_of_run (hD : Lawful D) (hB : B.Restores D.aggregate)
    (hrun : (system D B C).Run (SerialCalls.initial D C) x) (id : String) :
    ∃ f, D.Records id (CallHistory.callsOf x.shared.log id) (x.shared.shared.events.stream id) f
      ∧ ∀ now, SnapshotAggregateRepository.hydrateWithOptionalSnapshot D.aggregate B now
          (EventStore.loadEntity id (x.shared.shared.events.stream id))
          (x.shared.shared.snapshots.getSnapshot id)
        = .ok ((Agg.loaded id (x.shared.shared.events.stream id) f).noting
            (x.shared.shared.snapshots.version id)) := by
  obtain ⟨known, hI, -⟩ := holds_of_run hD hB hrun
  obtain ⟨f, hf⟩ := hI.serial id
  have hstored := hI.store.snapshots id
  have hloads : x.shared.shared.events.known.Loads
      (EventStore.loadEntity id (x.shared.shared.events.stream id)) :=
    ⟨rfl, hf.numbered, List.prefix_rfl⟩
  refine ⟨f, hf, fun now => (hydrateWithOptionalSnapshot_eq hD hB hloads hstored hf now).trans ?_⟩
  -- no stored snapshot is newer than its stream
  have hnoted : (EventStore.loadEntity id (x.shared.shared.events.stream id)).notedVersion
      (x.shared.shared.snapshots.getSnapshot id) = x.shared.shared.snapshots.version id := by
    unfold Entity.notedVersion SnapshotStore.version
    cases hsnapshot : x.shared.shared.snapshots.getSnapshot id with
    | none => rfl
    | some r =>
      obtain ⟨-, cs, b, -, -, hle, hv, -⟩ := hstored r hsnapshot
      exact if_pos (hv ▸ hle.length_le)
  rw [hnoted]
  rfl

/-- **Snapshots cannot be told from the one aggregate.** In every state that any clients
reach, with and without snapshots, at any frequencies, through the plain or the queued
repository: the calls of all commits that succeeded take effect, one after the other, on one
aggregate of each id, whose events are stored; whoever hydrates what is stored with the
snapshot that is stored has its fields; and a stored snapshot restores the fields it had after
the first of these calls, as many as the version of the snapshot says. -/
theorem snapshots_serial (hD : Lawful D) (hB : B.Restores D.aggregate)
    (hrun : (system D B C).Run (SerialCalls.initial D C) x) (id : String) :
    ∃ a, Applies (CallHistory.callsOf x.shared.log id) ⟨D.default, Entity.withId id⟩ a
      ∧ a.entity.id = id ∧ a.entity.events = x.shared.shared.events.stream id
      ∧ (∀ now, SnapshotAggregateRepository.hydrateWithOptionalSnapshot D.aggregate B now
          (EventStore.loadEntity id (x.shared.shared.events.stream id))
          (x.shared.shared.snapshots.getSnapshot id)
        = .ok ((Agg.loaded id (x.shared.shared.events.stream id) a.fields).noting
            (x.shared.shared.snapshots.version id)))
      ∧ ∀ r, x.shared.shared.snapshots.getSnapshot id = some r →
        r.version ≤ (CallHistory.callsOf x.shared.log id).length
          ∧ ∃ b snapshot, Applies ((CallHistory.callsOf x.shared.log id).take r.version)
              ⟨D.default, Entity.withId id⟩ b
            ∧ B.codec.deserialize r.data = .ok snapshot
            ∧ ∀ e, e.id = id → B.restoreFromSnapshot ⟨D.default, e⟩ snapshot = ⟨b.fields, e⟩ := by
  obtain ⟨known, hI, -⟩ := holds_of_run hD hB hrun
  obtain ⟨f, hf, hhydrate⟩ := hydrate_of_run hD hB hrun id
  have hrecords := hf
  obtain ⟨-, a, happlies, hid, hevents, rfl⟩ := hf
  refine ⟨a, happlies, hid, hevents, hhydrate, fun r hr => ?_⟩
  obtain ⟨hrid, cs, b, hcs, hbid, hle, hv, hdata⟩ := hI.store.snapshots id r hr
  subst hrid
  obtain ⟨hlen, b', hb', -, -, hfields⟩ := exists_after hD hrecords hcs hle
  rw [← hv] at hlen hb'
  refine ⟨hlen, b', B.createSnapshot b, hb', hB.lawful _ _ hdata, fun e he => ?_⟩
  rw [hfields]
  exact hB.restore b e (he.trans hbid.symm)

/-- **What a client has, calls on one aggregate have left**, and its events are stored. -/
theorem records_of_run (hD : Lawful D) (hB : B.Restores D.aggregate)
    (hrun : (system D B C).Run (SerialCalls.initial D C) x) {c : C} {pool : List (Work D)}
    (hrest : x.prog c = .ret pool) {w : Work D} (hw : w ∈ pool) :
    w.base.entity.events <+: x.shared.shared.events.stream w.base.entity.id
      ∧ (∃ cs, D.Records w.base.entity.id cs w.base.entity.events w.base.fields)
      ∧ ∃ f, D.Records w.base.entity.id (CallHistory.callsOf x.shared.log w.base.entity.id)
        (x.shared.shared.events.stream w.base.entity.id) f := by
  obtain ⟨known, hI, hwp⟩ := holds_of_run hD hB hrun
  have hc := hwp c
  rw [hrest] at hc
  have hfits : Fits (known c) w := hc w hw
  exact ⟨hfits.initial.trans (hI.store.known_le c w.base.entity.id), hfits.records, hI.serial _⟩

/-- **What a client has is the one aggregate**, as it was after its first calls: whatever it
has made, loaded, with or without a snapshot, or committed, has the fields and the events
that as many calls as there are events have left, of those that all clients have committed to
the id. -/
theorem loads_serial (hD : Lawful D) (hB : B.Restores D.aggregate)
    (hrun : (system D B C).Run (SerialCalls.initial D C) x) {c : C} {pool : List (Work D)}
    (hrest : x.prog c = .ret pool) {w : Work D} (hw : w ∈ pool) :
    w.base.entity.events <+: x.shared.shared.events.stream w.base.entity.id
      ∧ ∃ b, Applies ((CallHistory.callsOf x.shared.log w.base.entity.id).take w.base.entity.events.length)
          ⟨D.default, Entity.withId w.base.entity.id⟩ b
        ∧ b.entity.id = w.base.entity.id ∧ b.entity.events = w.base.entity.events
        ∧ b.fields = w.base.fields := by
  obtain ⟨hle, ⟨cs, hcs⟩, f, hf⟩ := records_of_run hD hB hrun hrest hw
  exact ⟨hle, (exists_after hD hf hcs hle).2⟩

end Law

/-! ### A run -/

theorem restores_account : lampSnapshot.Restores (Definition.account (fun _ => true)).aggregate :=
  ⟨lampSnapshot_laws.lawful, fun _ _ _ => rfl⟩

open SerialCalls (openAccount openedWork named_openedWork lawful_account)

/-- A client opens an account, commits it with a snapshot, and loads it through that. -/
theorem exists_loaded : ∃ (x : SerialCalls.State (Definition.account (fun _ => true)) Bool)
    (r : SnapshotRecord) (w : Work (Definition.account (fun _ => true))) (pool : List (Work _)),
    (system (Definition.account (fun _ => true)) lampSnapshot Bool).Run (SerialCalls.initial _ Bool) x
      ∧ x.shared.log = [openedWork] ∧ x.shared.shared.snapshots.getSnapshot "account-1" = some r
      ∧ r.version = 1 ∧ x.prog true = .ret (w :: pool) ∧ w.base.fields = true
      ∧ w.base.entity.id = "account-1" ∧ w.base.entity.snapshotVersion = 1 := by
  have h₀ : (system (Definition.account (fun _ => true)) lampSnapshot Bool).Run
      (SerialCalls.initial _ Bool) (SerialCalls.initial _ Bool) := .refl
  have h₁ := h₀.tail (.start true _ _ rfl (.plain _ _ (.create "" [])))
  have h₂ := h₁.tail (.start true _ _ rfl (.plain _ _ (.call [] [] _ openAccount openedWork.agg rfl rfl)))
  have h₃ := System.Run.call (c := true) CallHistory.sem_of_alone h₂ rfl
    (.commit .plain true 1 [openedWork] [openedWork] [] (.refl _) (List.nodup_singleton _)
      (fun w hw => List.mem_singleton.mp hw ▸ named_openedWork)) rfl
  have h₄ := System.Run.call (c := true) CallHistory.sem_of_alone h₃ rfl
    (.load _ _ (.get .plain SystemTime.unixEpoch "account-1")) rfl
  exact ⟨_, _, _, _, h₄, rfl, rfl, rfl, rfl, rfl, rfl, rfl⟩

/-- The snapshot restores the account as opened. -/
theorem snapshots_serial_opened :
    ∃ (x : SerialCalls.State (Definition.account (fun _ => true)) Bool) (r : SnapshotRecord) (b : Agg Bool)
      (on : Bool), x.shared.shared.snapshots.getSnapshot "account-1" = some r ∧ r.version = 1
        ∧ Applies ((CallHistory.callsOf x.shared.log "account-1").take 1)
          ⟨false, Entity.withId "account-1"⟩ b
        ∧ lampSnapshot.codec.deserialize r.data = .ok on ∧ on = b.fields := by
  obtain ⟨x, r, -, -, hrun, -, hr, hv, -⟩ := exists_loaded
  obtain ⟨-, -, -, -, -, hstored⟩ := snapshots_serial lawful_account restores_account hrun "account-1"
  obtain ⟨-, b, on, happlies, hdata, hrestore⟩ := hstored r hr
  have hfields := congrArg Agg.fields (hrestore (Entity.withId "account-1") rfl)
  exact ⟨x, r, b, on, hr, hv, hv ▸ happlies, hdata, hfields⟩

/-- The account loaded through it is the one account after its first call. -/
theorem loads_serial_opened :
    ∃ (x : SerialCalls.State (Definition.account (fun _ => true)) Bool)
      (w : Work (Definition.account (fun _ => true))) (b : Agg Bool),
      w.base.entity.snapshotVersion = 1 ∧ w.base.fields = true
        ∧ Applies ((CallHistory.callsOf x.shared.log "account-1").take w.base.entity.events.length)
          ⟨false, Entity.withId "account-1"⟩ b
        ∧ b.fields = w.base.fields := by
  obtain ⟨x, -, w, pool, hrun, -, -, -, hrest, hfields, hid, hv⟩ := exists_loaded
  obtain ⟨-, b, happlies, -, -, hb⟩ := loads_serial lawful_account restores_account hrun hrest List.mem_cons_self
  rw [hid] at happlies
  exact ⟨x, w, b, hv, hfields, happlies, hb⟩

end SerialSnapshots
