import Sourced.SnapshotVersions
import Sourced.SnapshotLoading
import Sourced.TypedSearches

/-!
# How often a snapshot is taken

A commit through a repository with the frequency `f` takes a snapshot of an
aggregate that has got `f` events further than the last one. The last one is
not looked up: its version is noted in the entity when the aggregate is
loaded, and the check adds `f` to it, in `u64`.

Of aggregates used one after another – obtained, worked on and committed
before the next is obtained – the noted version is that of the stored snapshot,
whatever the frequencies of the handles they went through. So the snapshots
come as often as they should, and fewer than `f` events are left to replay,
exactly where the sum fits (`SnapshotTurns.onTime_iff`). A handle with a large
frequency meant to take no snapshots panics, or takes them, as soon as
another has stored one (`SnapshotTurns.overflows`).
-/

namespace SnapshotStore

/-- Snapshots saved one after the other. -/
def saveAll (s : SnapshotStore) (rs : List SnapshotRecord) : SnapshotStore := rs.foldl saveSnapshot s

theorem version_saveAll_of_notMem (s : SnapshotStore) {rs : List SnapshotRecord} {id : String}
    (h : ∀ r ∈ rs, r.aggregateId ≠ id) : (s.saveAll rs).version id = s.version id := by
  induction rs generalizing s with
  | nil => rfl
  | cons r rs ih =>
    obtain ⟨hr, hrs⟩ := List.forall_mem_cons.mp h
    show ((s.saveSnapshot r).saveAll rs).version id = _
    rw [ih _ hrs, version_saveSnapshot, if_neg (Ne.symm hr)]

/-- What is saved is stored, once for each id. -/
theorem version_saveAll_of_mem (s : SnapshotStore) {rs : List SnapshotRecord}
    (hnd : (rs.map SnapshotRecord.aggregateId).Nodup) {r : SnapshotRecord} (hr : r ∈ rs) :
    (s.saveAll rs).version r.aggregateId = r.version := by
  induction rs generalizing s with
  | nil => cases hr
  | cons r' rs ih =>
    obtain ⟨hfirst, hrest⟩ := List.nodup_cons.mp hnd
    show ((s.saveSnapshot r').saveAll rs).version r.aggregateId = _
    cases hr with
    | head =>
      rw [version_saveAll_of_notMem _ (fun r'' hr'' h => hfirst (List.mem_map.mpr ⟨r'', hr'', h⟩)),
        version_saveSnapshot, if_pos rfl]
    | tail _ hr => exact ih _ hrest hr

end SnapshotStore

namespace SnapshotTurns

open SnapshotAggregateRepository

variable {σ : Type} {A : Aggregate σ} {B : Snapshottable σ}

/-! ## The run -/

/-- **Loading the id gives the aggregate.** -/
def Loads (A : Aggregate σ) (B : Snapshottable σ) (s : Shared) (id : String) (a : Agg σ) : Prop :=
  ∃ now, Prog.run RepoAction.alone (get hashMapRepository A B now id) s = some (.ok (some a), s)

/-- **The aggregates a client can have at hand**: new ones, and what a load
through a handle returned. -/
inductive Obtained (A : Aggregate σ) (B : Snapshottable σ) (s : Shared) : Agg σ → Prop where
  | created : Obtained A B s A.newEmpty
  | get (ord : List String) (now : SystemTime) (id : String) {a : Agg σ} {s' : Shared}
      (h : Op.run ord (get hashMapRepository A B now id) s = some (.ok (some a), s')) :
      Obtained A B s a
  | getAll (ord : List String) (now : SystemTime) (ids : List String) {as : List (Agg σ)}
      {s' : Shared} (h : Op.run ord (getAll hashMapRepository A B now ids) s = some (.ok as, s'))
      {a : Agg σ} (ha : a ∈ as) : Obtained A B s a
  | find (ord : List String) (hord : s.events.Enumerates ord) (now : SystemTime)
      (p : Agg σ → Bool) {as : List (Agg σ)} {s' : Shared}
      (h : Op.run ord (find hashMapRepository A B now p) s = some (.ok as, s'))
      {a : Agg σ} (ha : a ∈ as) : Obtained A B s a
  | findOne (ord : List String) (hord : s.events.Enumerates ord) (now : SystemTime)
      (p : Agg σ → Bool) {a : Agg σ} {s' : Shared}
      (h : Op.run ord (findOne hashMapRepository A B now p) s = some (.ok (some a), s')) :
      Obtained A B s a

/-- **What is committed in a turn**, through a handle of the frequency: the
aggregates, and the messages of an outbox commit. -/
structure Turn (σ : Type) where
  frequency : ℕ
  aggs : List (Agg σ)
  messages : List Entity

namespace Turn

/-- The entities of the commit. -/
def entities (t : Turn σ) : List Entity := t.aggs.map Agg.entity ++ t.messages

/-- **The turn can be taken.** Its aggregates are obtained and event methods are
called on them; one that has committed events keeps the id it is loaded by. -/
structure Fits (A : Aggregate σ) (B : Snapshottable σ) (s : Shared) (t : Turn σ) : Prop where
  aggs : ∀ a ∈ t.aggs, ∃ b, Obtained A B s b ∧ b.entity.Edited a.entity
    ∧ (a.entity.committedVersion = 0 ∨ Loads A B s a.entity.id b)
  messages : ∀ e ∈ t.messages, Entity.new.Edited e
  distinct : (t.entities.map Entity.id).Nodup

/-- **The commit of the turn**, with what it performed. -/
def Commits (checks : OverflowChecks) (B : Snapshottable σ) (t : Turn σ) (s : Shared)
    (trace : List (Σ a : RepoAction, a.Resp)) (r : RepoRes Unit) (s' : Shared) : Prop :=
  ∃ left, Prog.run RepoAction.alone
    (commitWith hashMapRepository B checks t.frequency t.aggs t.messages).traced s
      = some ((trace, r, left), s')

end Turn

/-- **One turn after another**, whatever comes of them. -/
inductive Step (checks : OverflowChecks) (A : Aggregate σ) (B : Snapshottable σ) :
    Shared → Shared → Prop where
  | turn {s s' : Shared} (t : Turn σ) (hfits : t.Fits A B s)
      {trace : List (Σ a : RepoAction, a.Resp)} {r : RepoRes Unit}
      (hcommit : t.Commits checks B s trace r s') : Step checks A B s s'

/-- A run of turns. -/
abbrev Run (checks : OverflowChecks) (A : Aggregate σ) (B : Snapshottable σ) :
    Shared → Shared → Prop :=
  Relation.ReflTransGen (Step checks A B)

/-! ## The law -/

/-- A snapshot of the id was written. -/
def Writes (trace : List (Σ a : RepoAction, a.Resp)) (id : String) : Prop :=
  ∃ record r, ⟨.saveSnapshot record, r⟩ ∈ trace ∧ record.aggregateId = id

/-- **Snapshots come as often as they should.** -/
structure OnTime (t : Turn σ) (s : Shared) (trace : List (Σ a : RepoAction, a.Resp)) (s' : Shared) :
    Prop where
  /-- The sum of the check does not overflow. -/
  fits : ∀ a ∈ t.aggs, a.entity.snapshotVersion + t.frequency < 2 ^ 64
  /-- There is a new snapshot exactly where the aggregate has got far enough. -/
  written : ∀ a ∈ t.aggs, Writes trace a.entity.id
    ↔ (t.frequency : ℤ) ≤ a.entity.version - s.snapshots.version a.entity.id
  /-- Fewer events than the frequency are beyond the snapshot. -/
  left : ∀ a ∈ t.aggs, ((s'.events.stream a.entity.id).length : ℤ)
    - s'.snapshots.version a.entity.id < max 1 t.frequency

/-! ## What is loaded -/

/-- What is made of an entity in a state. -/
abbrev made (A : Aggregate σ) (B : Snapshottable σ) (now : SystemTime) (s : Shared) (e : Entity) :
    RepoRes (Agg σ) :=
  hydrateWithOptionalSnapshot A B now e (s.snapshots.getSnapshot e.id)

theorem makes_hydrator (ord : List String) (now : SystemTime) (s : Shared) :
    (hydrator hashMapRepository A B now).Makes ord s (made A B now s) := fun _ => rfl

/-- A load of one id, run alone under any handler that reads the stores. -/
theorem run_get {h : (a : RepoAction) → Shared → Option (a.Resp × Shared)} {s s' : Shared}
    {id : String} (hone : h (.getOne id) s = some (s.events.getOne id, s))
    (hsnap : h (.getSnapshot id) s = some (.ok (s.snapshots.getSnapshot id), s)) {now : SystemTime}
    {a : Agg σ} :
    Prog.run h (get hashMapRepository A B now id) s = some (.ok (some a), s')
      ↔ s' = s ∧ ∃ e, s.events.getOne id = .ok (some e) ∧ made A B now s e = .ok a := by
  have hread : Prog.run h (hashMapRepository.getOne id) s = some (s.events.getOne id, s) := by
    show (h (.getOne id) s).bind _ = _
    rw [hone]
    rfl
  rw [SnapshotAggregateRepository.get, Hydrator.loadOne, Call.bind_eq, Call.run_andThen, hread,
    Option.bind_some]
  cases hget : s.events.getOne id with
  | error f => simp
  | ok o =>
    cases o with
    | none => simp
    | some e =>
      have hid := EventStore.id_of_getOne hget
      have hmade : Prog.run h (hydrateStored hashMapRepository A B now id e) s
          = some (made A B now s e, s) := by
        show (h (.getSnapshot id) s).bind _ = _
        rw [hsnap, made, hid]
        rfl
      dsimp only
      rw [Call.bind_eq, Call.run_andThen, hmade, Option.bind_some]
      cases hm : made A B now s e with
      | error f => simp [hm]
      | ok b => simp [hm, and_comm, eq_comm]

/-- **Loading an id** is making an aggregate of what is read. -/
theorem loads_iff {s : Shared} {id : String} {a : Agg σ} :
    Loads A B s id a ↔ ∃ now e, s.events.getOne id = .ok (some e) ∧ made A B now s e = .ok a := by
  refine exists_congr (fun now => ?_)
  rw [run_get rfl rfl]
  exact and_iff_right rfl

theorem run_findAll (ord : List String) (s : Shared) {β : Type} (k : List Entity → Op β) :
    Op.run ord ((hashMapRepository.find (fun _ => true)).andThen k) s
      = match s.events.find ord (fun _ => true) with
        | .ok es => Op.run ord (k es) s
        | .error f => some (.error f, s) := by
  rw [Op.run, Call.run_andThen]
  show (Option.bind (some (s.events.find ord (fun _ => true), s)) _) = _
  cases s.events.find ord (fun _ => true) <;> rfl

/-- **Every aggregate at hand is new, or what the load of an id gives.** -/
theorem Obtained.new_or_loads {s : Shared} {a : Agg σ} (h : Obtained A B s a) :
    a = A.newEmpty ∨ ∃ id, Loads A B s id a := by
  cases h with
  | created => exact Or.inl rfl
  | get ord now id h =>
    obtain ⟨-, e, he, ha⟩ := (run_get rfl rfl).mp h
    exact Or.inr ⟨id, loads_iff.mpr ⟨now, e, he, ha⟩⟩
  | getAll ord now ids h ha =>
    rw [SnapshotAggregateRepository.getAll, Hydrator.loadAll, Call.bind_eq, Op.run, Call.run_andThen,
      show Prog.run (RepoAction.exec ord) (hashMapRepository.getMany ids) s = _ from
        HashMapRepository.run_getMany ids s, Option.bind_some] at h
    cases hes : s.events.getMany ids with
    | error f => rw [hes] at h; cases h
    | ok es =>
      rw [hes] at h
      have hrun := Hydrator.run_collect (makes_hydrator (A := A) (B := B) ord now s) es
      obtain ⟨hmade, -⟩ := Prod.mk.inj (Option.some.inj (hrun.symm.trans h))
      obtain ⟨e, he, hea⟩ := (Hydrator.mem_makeAll hmade).mp ha
      obtain ⟨id, -, hid⟩ := (EventStore.mem_getMany hes).mp he
      exact Or.inr ⟨id, loads_iff.mpr ⟨now, e, hid, hea⟩⟩
  | find ord hord now p h ha =>
    rw [SnapshotAggregateRepository.find, Hydrator.find, Call.bind_eq, run_findAll] at h
    cases hes : s.events.find ord (fun _ => true) with
    | error f => rw [hes] at h; cases h
    | ok es =>
      rw [hes] at h
      have hrun := Hydrator.run_filter (p := p) (makes_hydrator (A := A) (B := B) ord now s) es
      obtain ⟨hkept, -⟩ := Prod.mk.inj (Option.some.inj (hrun.symm.trans h))
      obtain ⟨-, e, he, hea⟩ := ((Hydrator.keepAll_eq_ok hkept).2 a).mp ha
      exact Or.inr ⟨e.id, loads_iff.mpr ⟨now, e, (EventStore.mem_find hord hes).mp he, hea⟩⟩
  | findOne ord hord now p h =>
    rw [SnapshotAggregateRepository.findOne, Hydrator.findOne, Call.bind_eq, run_findAll] at h
    cases hes : s.events.find ord (fun _ => true) with
    | error f => rw [hes] at h; cases h
    | ok es =>
      rw [hes] at h
      have hrun := Hydrator.run_first (p := p) (makes_hydrator (A := A) (B := B) ord now s) es
      obtain ⟨hfirst, -⟩ := Prod.mk.inj (Option.some.inj (hrun.symm.trans h))
      obtain ⟨-, e, he, hea⟩ := Hydrator.firstOf_eq_some hfirst
      exact Or.inr ⟨e.id, loads_iff.mpr ⟨now, e, (EventStore.mem_find hord hes).mp he, hea⟩⟩

/-! ## The versions that are noted -/

/-- **What a load gives**: all events of the stream, committed, and the version
of the stored snapshot. -/
theorem Loads.spec (hB : B.KeepsCounts A) {s : Shared} (hs : s.Covered) {id : String} {b : Agg σ}
    (h : Loads A B s id b) : b.entity.Counted ∧ b.entity.snapshotVersion = s.snapshots.version id
      ∧ b.entity.committedVersion = (s.events.stream id).length := by
  obtain ⟨now, e, hget, hmade⟩ := loads_iff.mp h
  obtain ⟨l, hl, rfl⟩ : ∃ l, s.events.lookup id = some l ∧ EventStore.loadEntity id l = e := by
    unfold EventStore.getOne at hget
    cases hp : s.events.poisoned with
    | true => rw [hp] at hget; cases hget
    | false =>
      rw [hp] at hget
      exact Option.map_eq_some_iff.mp (Except.ok.inj hget)
  have hstream := EventStore.lookup_eq_some hl
  obtain ⟨id', hb⟩ := exists_setId_of_hydrate hB hmade
  have hnoted : (EventStore.loadEntity id l).notedVersion (s.snapshots.getSnapshot id)
      = s.snapshots.version id := by
    have hle := hs id
    unfold SnapshotStore.version at hle ⊢
    unfold Entity.notedVersion
    cases hr : s.snapshots.getSnapshot id with
    | none => rfl
    | some r =>
      rw [hr, hstream] at hle
      exact if_pos hle
  rw [hb, hstream]
  exact ⟨⟨le_rfl, rfl⟩, hnoted, rfl⟩

/-- **The version noted in what is committed is the stored one**, if the commit
is accepted. -/
theorem Turn.Fits.spec (hB : B.KeepsCounts A) {s : Shared} (hs : s.Covered) {t : Turn σ}
    (ht : t.Fits A B s) {a : Agg σ} (ha : a ∈ t.aggs) : a.entity.Counted
      ∧ ((s.events.stream a.entity.id).length = a.entity.committedVersion →
        a.entity.snapshotVersion = s.snapshots.version a.entity.id) := by
  obtain ⟨b, hb, hedit, hown⟩ := ht.aggs a ha
  obtain ⟨hnoted, hcommitted⟩ := hedit.noted_eq
  have hcounted : b.entity.Counted := by
    rcases hb.new_or_loads with rfl | ⟨id, hid⟩
    · exact .new
    · exact (hid.spec hB hs).1
  refine ⟨hcounted.edited hedit, fun hv => ?_⟩
  rw [hnoted]
  rcases hown with hzero | hown
  · -- nothing is committed, so nothing is stored and nothing noted
    have hstored : s.snapshots.version a.entity.id = 0 := by
      have hle := hs a.entity.id
      omega
    rw [hstored]
    rcases hb.new_or_loads with rfl | ⟨id, hid⟩
    · rfl
    · obtain ⟨-, hversion, hlength⟩ := hid.spec hB hs
      have hle := hs id
      omega
  · exact (hown.spec hB hs).2.1

theorem Turn.Fits.counted (hB : B.KeepsCounts A) {s : Shared} (hs : s.Covered) {t : Turn σ}
    (ht : t.Fits A B s) : ∀ e ∈ t.entities, e.Counted := by
  intro e he
  rcases List.mem_append.mp he with he | he
  · obtain ⟨a, ha, rfl⟩ := List.mem_map.mp he
    exact (ht.spec hB hs ha).1
  · exact Entity.Counted.new.edited (ht.messages e he)

/-! ## What a commit does -/

/-- The save of a snapshot, performed. -/
def saved (r : SnapshotRecord) : Σ a : RepoAction, a.Resp := ⟨.saveSnapshot r, .ok ()⟩

/-- **The aggregates a snapshot is taken of**, with its record: to the first sum that panics
or the first snapshot that cannot be serialized, those that have got as far as the sum. -/
def taken (checks : OverflowChecks) (B : Snapshottable σ) (f : ℕ) :
    List (Agg σ) → List (Agg σ × SnapshotRecord)
  | [] => []
  | a :: as =>
    match addU64 checks a.entity.snapshotVersion f with
    | none => []
    | some threshold =>
      if threshold ≤ a.entity.version then
        match B.record a with
        | .error _ => []
        | .ok r => (a, r) :: taken checks B f as
      else taken checks B f as

/-- **How taking the snapshots ends**: in a panic where a sum panics, and in an error where
a snapshot cannot be serialized. -/
def outcome (checks : OverflowChecks) (B : Snapshottable σ) (f : ℕ) : List (Agg σ) → RepoRes Unit
  | [] => .ok ()
  | a :: as =>
    match addU64 checks a.entity.snapshotVersion f with
    | none => .error .panic
    | some threshold =>
      if threshold ≤ a.entity.version then
        match B.record a with
        | .error e => .error e
        | .ok _ => outcome checks B f as
      else outcome checks B f as

theorem taken_sublist (checks : OverflowChecks) (B : Snapshottable σ) (f : ℕ) (as : List (Agg σ)) :
    ((taken checks B f as).map Prod.fst).Sublist as := by
  induction as with
  | nil => exact List.Sublist.refl []
  | cons a as ih =>
    rw [taken]
    cases addU64 checks a.entity.snapshotVersion f with
    | none => exact List.nil_sublist _
    | some threshold =>
      dsimp only
      by_cases h : threshold ≤ a.entity.version
      · rw [if_pos h]
        cases B.record a with
        | error e => exact List.nil_sublist _
        | ok r => exact ih.cons_cons a
      · rw [if_neg h]
        exact ih.cons a

/-- Each has its own record. -/
theorem record_of_mem_taken {checks : OverflowChecks} {f : ℕ} {as : List (Agg σ)}
    {ar : Agg σ × SnapshotRecord} (h : ar ∈ taken checks B f as) : B.record ar.1 = .ok ar.2 := by
  induction as with
  | nil => simp [taken] at h
  | cons a as ih =>
    rw [taken] at h
    cases hsum : addU64 checks a.entity.snapshotVersion f with
    | none => simp [hsum] at h
    | some threshold =>
      rw [hsum] at h
      dsimp only at h
      split at h
      · cases hrecord : B.record a with
        | error e => simp [hrecord] at h
        | ok r =>
          rw [hrecord] at h
          rcases List.mem_cons.mp h with rfl | h
          · exact hrecord
          · exact ih h
      · exact ih h

/-- Where no sum overflows and no snapshot is refused, it ends well, and they are those
that have got far enough. -/
theorem mem_taken {checks : OverflowChecks} {f : ℕ} {as : List (Agg σ)}
    (hfits : ∀ a ∈ as, a.entity.snapshotVersion + f < 2 ^ 64)
    (hserialized : ∀ e, outcome checks B f as ≠ .error (.err e)) :
    outcome checks B f as = .ok () ∧ ∀ a, a ∈ (taken checks B f as).map Prod.fst
      ↔ a ∈ as ∧ a.entity.snapshotVersion + f ≤ a.entity.version := by
  induction as with
  | nil => simp [taken, outcome]
  | cons a' as ih =>
    obtain ⟨hfirst, hrest⟩ := List.forall_mem_cons.mp hfits
    rw [outcome, addU64, if_pos hfirst] at hserialized ⊢
    rw [taken, addU64, if_pos hfirst]
    dsimp only at hserialized ⊢
    by_cases h : a'.entity.snapshotVersion + f ≤ a'.entity.version
    · simp only [if_pos h] at hserialized ⊢
      cases hrecord : B.record a' with
      | error e =>
        cases hdata : B.codec.serialize (B.createSnapshot a') <;>
          simp_all [Snapshottable.record]
      | ok r =>
        simp only [hrecord] at hserialized
        obtain ⟨hout, hmem⟩ := ih hrest hserialized
        refine ⟨hout, fun a => ?_⟩
        rw [List.map_cons, List.mem_cons, hmem, List.mem_cons]
        grind
    · simp only [if_neg h] at hserialized ⊢
      obtain ⟨hout, hmem⟩ := ih hrest hserialized
      refine ⟨hout, fun a => ?_⟩
      rw [hmem, List.mem_cons]
      grind

/-- **The snapshots after a commit**, run alone. -/
theorem run_maybeSnapshotAll (checks : OverflowChecks) (f : ℕ) (as : List (Agg σ)) (s : Shared) :
    ∃ left, Prog.run RepoAction.alone (maybeSnapshotAll hashMapRepository B checks f as).traced s
      = some ((((taken checks B f as).map Prod.snd).map saved, outcome checks B f as, left),
        s.withSnapshots (s.snapshots.saveAll ((taken checks B f as).map Prod.snd))) := by
  induction as generalizing s with
  | nil => exact ⟨_, rfl⟩
  | cons a as ih =>
    rw [maybeSnapshotAll, taken, outcome]
    unfold maybeSnapshot
    cases addU64 checks a.entity.snapshotVersion f with
    | none => exact ⟨_, rfl⟩
    | some threshold =>
      dsimp only
      by_cases h : threshold ≤ a.entity.version
      · rw [if_pos h, if_pos h, if_pos h]
        cases B.record a with
        | error e => exact ⟨_, rfl⟩
        | ok r =>
          -- the save, and the rest after it
          obtain ⟨left, hrun⟩ := ih (s.withSnapshots (s.snapshots.saveSnapshot r))
          refine ⟨⟨a.fields, a.entity.setSnapshotVersion a.entity.version⟩ :: left, ?_⟩
          change Prog.run RepoAction.alone (Prog.map (fun tx => (saved r :: tx.1, tx.2)) (Prog.map
            (fun x => (x.1, ⟨a.fields, a.entity.setSnapshotVersion a.entity.version⟩ :: x.2))
            (maybeSnapshotAll hashMapRepository B checks f as)).traced)
            (s.withSnapshots (s.snapshots.saveSnapshot r)) = _
          rw [Prog.traced_map, Prog.run_map, Prog.run_map, hrun]
          rfl
      · obtain ⟨left, hrun⟩ := ih s
        rw [if_neg h, if_neg h, if_neg h]
        refine ⟨a :: left, ?_⟩
        change Prog.run RepoAction.alone (Prog.map (fun x => (x.1, a :: x.2))
          (maybeSnapshotAll hashMapRepository B checks f as)).traced s = _
        rw [Prog.traced_map, Prog.run_map, hrun]
        rfl

/-- The aggregate after its commit. -/
def marked (a : Agg σ) : Agg σ := ⟨a.fields, a.entity.markCommitted⟩

namespace Turn

variable {checks : OverflowChecks} {t : Turn σ} {s s' : Shared}

/-- The snapshots taken in a turn whose commit is accepted. -/
def snapshots (checks : OverflowChecks) (B : Snapshottable σ) (t : Turn σ) : List SnapshotRecord :=
  (taken checks B t.frequency (t.aggs.map marked)).map Prod.snd

/-- What it performs. -/
def performed (checks : OverflowChecks) (B : Snapshottable σ) (t : Turn σ) :
    List (Σ a : RepoAction, a.Resp) :=
  ⟨.commit t.entities, .ok (), t.entities.map Entity.markCommitted⟩
    :: (t.snapshots checks B).map saved

/-- What it leaves. -/
def stored (checks : OverflowChecks) (B : Snapshottable σ) (t : Turn σ) (s : Shared) : Shared :=
  (s.withEvents (s.events.extendAll t.entities)).withSnapshots
    (s.snapshots.saveAll (t.snapshots checks B))

/-- **A commit that the store accepts**: the events of all entities are stored, and
snapshots are taken. -/
theorem commits_of_accepted (hc : s.events.commit t.entities
    = (.ok (), t.entities.map Entity.markCommitted, s.events.extendAll t.entities))
    {trace : List (Σ a : RepoAction, a.Resp)} {r : RepoRes Unit} :
    t.Commits checks B s trace r s' ↔ trace = t.performed checks B
      ∧ r = outcome checks B t.frequency (t.aggs.map marked) ∧ s' = t.stored checks B s := by
  obtain ⟨left, hsnap⟩ := run_maybeSnapshotAll (B := B) checks t.frequency (t.aggs.map marked)
    (s.withEvents (s.events.extendAll t.entities))
  have halone : RepoAction.alone (.commit t.entities) s = some ((.ok (),
      t.entities.map Entity.markCommitted), s.withEvents (s.events.extendAll t.entities)) := by
    show some (((s.events.commit t.entities).1, (s.events.commit t.entities).2.1),
      s.withEvents (s.events.commit t.entities).2.2) = _
    rw [hc]
  have hmarked : List.zipWith (fun agg e => { agg with entity := e }) t.aggs
      (t.entities.map Entity.markCommitted) = t.aggs.map marked :=
    AggregateRepository.zipWith_entity t.aggs t.messages Entity.markCommitted
  have hrun : ∃ left, Prog.run RepoAction.alone
      (commitWith hashMapRepository B checks t.frequency t.aggs t.messages).traced s
        = some ((t.performed checks B, outcome checks B t.frequency (t.aggs.map marked), left),
          t.stored checks B s) := by
    refine ⟨(left, (t.entities.map Entity.markCommitted).drop t.aggs.length), ?_⟩
    change Prog.run RepoAction.alone (.act (.commit t.entities) _) s = _
    rw [Prog.run_act, halone, Option.bind_some]
    let answer : Σ a : RepoAction, a.Resp :=
      ⟨.commit t.entities, .ok (), t.entities.map Entity.markCommitted⟩
    change Prog.run RepoAction.alone (Prog.map (fun tx => (answer :: tx.1, tx.2))
      (Prog.map (fun x => (x.1, x.2, (t.entities.map Entity.markCommitted).drop t.aggs.length))
        (maybeSnapshotAll hashMapRepository B checks t.frequency
          (List.zipWith (fun agg e => { agg with entity := e }) t.aggs
            (t.entities.map Entity.markCommitted)))).traced)
      (s.withEvents (s.events.extendAll t.entities)) = _
    rw [hmarked, Prog.traced_map, Prog.run_map, Prog.run_map, hsnap]
    rfl
  obtain ⟨left', hrun⟩ := hrun
  constructor
  · rintro ⟨left'', hrun'⟩
    obtain ⟨hresult, rfl⟩ := Prod.mk.inj (Option.some.inj (hrun.symm.trans hrun'))
    obtain ⟨rfl, hr⟩ := Prod.mk.inj hresult
    exact ⟨rfl, (Prod.mk.inj hr).1.symm, rfl⟩
  · rintro ⟨rfl, rfl, rfl⟩
    exact ⟨left', hrun⟩

/-- A commit that the store refuses returns the error and changes nothing. -/
theorem Commits.of_refused {f : RepositoryError}
    (hc : s.events.commit t.entities = (.error (.err f), t.entities, s.events))
    {trace : List (Σ a : RepoAction, a.Resp)} {r : RepoRes Unit}
    (h : t.Commits checks B s trace r s') : r = .error (.err f) ∧ s' = s := by
  obtain ⟨left, hrun⟩ := h
  have halone : RepoAction.alone (.commit t.entities) s
      = some ((.error (.err f), t.entities), s) := by
    show some (((s.events.commit t.entities).1, (s.events.commit t.entities).2.1),
      s.withEvents (s.events.commit t.entities).2.2) = _
    rw [hc]
    rfl
  change Prog.run RepoAction.alone (.act (.commit t.entities) _) s = _ at hrun
  rw [Prog.run_act, halone, Option.bind_some] at hrun
  obtain ⟨hresult, rfl⟩ := Prod.mk.inj (Option.some.inj hrun)
  obtain ⟨-, hr⟩ := Prod.mk.inj hresult
  exact ⟨(Prod.mk.inj hr).1.symm, rfl⟩

/-- **How the commit of a turn can end.** -/
theorem Commits.cases_counted {trace : List (Σ a : RepoAction, a.Resp)} {r : RepoRes Unit}
    (hes : ∀ e ∈ t.entities, e.Counted) (h : t.Commits checks B s trace r s') :
    (∃ f, r = .error (.err f)) ∧ s' = s
      ∨ s.events.Valid t.entities ∧ trace = t.performed checks B
        ∧ r = outcome checks B t.frequency (t.aggs.map marked) ∧ s' = t.stored checks B s := by
  rcases EventStore.commit_of_counted hes with ⟨hv, hc⟩ | ⟨f, hc⟩
  · exact Or.inr ⟨hv, (commits_of_accepted hc).mp h⟩
  · obtain ⟨hr, hs'⟩ := Commits.of_refused hc h
    exact Or.inl ⟨⟨f, hr⟩, hs'⟩

theorem eq_of_id (hnd : (t.entities.map Entity.id).Nodup) {a a' : Agg σ} (ha : a ∈ t.aggs)
    (ha' : a' ∈ t.aggs) (hid : a.entity.id = a'.entity.id) : a = a' := by
  have hnd' : (t.aggs.map (fun a => a.entity.id)).Nodup := by
    have hpart := (List.nodup_append.mp (List.map_append ▸ hnd)).1
    rwa [List.map_map] at hpart
  exact List.inj_on_of_nodup_map hnd' ha ha' hid

theorem exists_of_mem_snapshots {r : SnapshotRecord} (h : r ∈ t.snapshots checks B) :
    ∃ a ∈ t.aggs, marked a ∈ (taken checks B t.frequency (t.aggs.map marked)).map Prod.fst
      ∧ r.aggregateId = a.entity.id ∧ r.version = a.entity.version := by
  obtain ⟨⟨a', r'⟩, hmem, rfl⟩ := List.mem_map.mp h
  have hfst := List.mem_map_of_mem (f := Prod.fst) hmem
  obtain ⟨a, ha, rfl⟩ := List.mem_map.mp ((taken_sublist _ _ _ _).subset hfst)
  obtain ⟨hid, hversion, -⟩ := Snapshottable.record_eq_ok (record_of_mem_taken hmem)
  exact ⟨a, ha, hfst, hid, hversion⟩

theorem exists_mem_snapshots {a : Agg σ}
    (h : marked a ∈ (taken checks B t.frequency (t.aggs.map marked)).map Prod.fst) :
    ∃ r ∈ t.snapshots checks B, r.aggregateId = a.entity.id ∧ r.version = a.entity.version := by
  obtain ⟨⟨a', r⟩, hmem, heq⟩ := List.mem_map.mp h
  obtain rfl : a' = marked a := heq
  obtain ⟨hid, hversion, -⟩ := Snapshottable.record_eq_ok (record_of_mem_taken hmem)
  exact ⟨r, List.mem_map_of_mem (f := Prod.snd) hmem, hid, hversion⟩

/-- There is one snapshot for each. -/
theorem nodup_snapshots (hnd : (t.entities.map Entity.id).Nodup) :
    ((t.snapshots checks B).map SnapshotRecord.aggregateId).Nodup := by
  have hpart := (List.nodup_append.mp (List.map_append ▸ hnd)).1
  refine List.Nodup.sublist ?_ hpart
  have hids : (t.snapshots checks B).map SnapshotRecord.aggregateId
      = ((taken checks B t.frequency (t.aggs.map marked)).map Prod.fst).map (fun a => a.entity.id) := by
    rw [snapshots, List.map_map, List.map_map]
    exact List.map_congr_left (fun ar har => (Snapshottable.record_eq_ok (record_of_mem_taken har)).1)
  have hsub := (taken_sublist checks B t.frequency (t.aggs.map marked)).map (fun a => a.entity.id)
  rw [hids, List.map_map (l := t.aggs)]
  rwa [List.map_map (l := t.aggs)] at hsub

/-- **A snapshot of an aggregate was written** exactly where one was taken of it. -/
theorem writes_iff (hnd : (t.entities.map Entity.id).Nodup) {a : Agg σ} (ha : a ∈ t.aggs) :
    Writes (t.performed checks B) a.entity.id
      ↔ marked a ∈ (taken checks B t.frequency (t.aggs.map marked)).map Prod.fst := by
  constructor
  · rintro ⟨record, r, hmem, hid⟩
    rcases List.mem_cons.mp hmem with heq | hmem
    · exact absurd (congrArg Sigma.fst heq) (by simp)
    · obtain ⟨r', hr', heq⟩ := List.mem_map.mp hmem
      obtain rfl : r' = record := RepoAction.saveSnapshot.inj (congrArg Sigma.fst heq)
      obtain ⟨b, hb, htaken, hbid, -⟩ := exists_of_mem_snapshots hr'
      rwa [← eq_of_id hnd hb ha (hbid.symm.trans hid)]
  · intro h
    obtain ⟨r, hr, hid, -⟩ := exists_mem_snapshots h
    exact ⟨_, _, List.mem_cons_of_mem _ (List.mem_map.mpr ⟨r, hr, rfl⟩), hid⟩

/-- **The stored versions after the commit**: that of each aggregate a snapshot was
taken of, and otherwise what they were. -/
theorem version_stored (checks : OverflowChecks) (hnd : (t.entities.map Entity.id).Nodup) (s : Shared)
    (id : String) :
    (∃ a ∈ t.aggs, a.entity.id = id ∧ (t.stored checks B s).snapshots.version id = a.entity.version)
      ∨ (∀ a ∈ t.aggs, a.entity.id = id →
          marked a ∉ (taken checks B t.frequency (t.aggs.map marked)).map Prod.fst)
        ∧ (t.stored checks B s).snapshots.version id = s.snapshots.version id := by
  by_cases h : ∃ a ∈ t.aggs, a.entity.id = id
      ∧ marked a ∈ (taken checks B t.frequency (t.aggs.map marked)).map Prod.fst
  · obtain ⟨a, ha, rfl, htaken⟩ := h
    obtain ⟨r, hr, hid, hversion⟩ := exists_mem_snapshots htaken
    refine Or.inl ⟨a, ha, rfl, ?_⟩
    rw [← hid, ← hversion]
    exact SnapshotStore.version_saveAll_of_mem s.snapshots (nodup_snapshots hnd) hr
  · push Not at h
    refine Or.inr ⟨h, SnapshotStore.version_saveAll_of_notMem _ (fun r hr hid => ?_)⟩
    obtain ⟨a, ha, htaken, haid, -⟩ := exists_of_mem_snapshots hr
    exact h a ha (haid.symm.trans hid) htaken

end Turn

/-- **No turn puts a snapshot ahead of its stream**, whatever comes of it. -/
theorem Step.covered (hB : B.KeepsCounts A) {checks : OverflowChecks} {s s' : Shared}
    (h : Step checks A B s s') (hs : s.Covered) : s'.Covered := by
  obtain ⟨t, hfits, hcommit⟩ := h
  have hcounted := hfits.counted hB hs
  rcases hcommit.cases_counted hcounted with ⟨-, rfl⟩ | ⟨hv, -, -, rfl⟩
  · exact hs
  intro id
  show (t.stored checks B s).snapshots.version id ≤ ((s.events.extendAll t.entities).stream id).length
  rcases Turn.version_stored checks hfits.distinct s id
    with ⟨a, ha, rfl, hversion⟩ | ⟨-, hversion⟩
  · have hlen := EventStore.length_stream_extendAll hv hcounted hfits.distinct (e := a.entity)
      (List.mem_append_left _ (List.mem_map_of_mem ha))
    rw [hlen]
    exact hversion.le
  · exact hversion.le.trans ((hs id).trans (s.events.stream_prefix_extendAll t.entities id).length_le)

theorem Run.covered (hB : B.KeepsCounts A) {checks : OverflowChecks} {s : Shared}
    (h : Run checks A B Shared.empty s) : s.Covered := by
  induction h with
  | refl => exact fun _ => Nat.zero_le _
  | tail _ hstep ih => exact hstep.covered hB ih

/-- **Snapshots come as often as they should**, in every run of turns through
handles of any frequencies, exactly where the sum of the stored version and
the frequency fits for every aggregate of the commit. -/
theorem onTime_iff (hB : B.KeepsCounts A) {checks : OverflowChecks} {s s' : Shared}
    (hrun : Run checks A B Shared.empty s) {t : Turn σ} (hfits : t.Fits A B s)
    {trace : List (Σ a : RepoAction, a.Resp)} {r : RepoRes Unit}
    (hcommit : t.Commits checks B s trace r s') (haccepted : ∀ f, r ≠ .error (.err f)) :
    (r = .ok () ∧ OnTime t s trace s')
      ↔ ∀ a ∈ t.aggs, s.snapshots.version a.entity.id + t.frequency < 2 ^ 64 := by
  have hs := hrun.covered hB
  have hcounted := hfits.counted hB hs
  rcases hcommit.cases_counted hcounted with ⟨⟨f, rfl⟩, -⟩ | ⟨hv, rfl, rfl, rfl⟩
  · exact absurd rfl (haccepted f)
  -- the version noted in each aggregate is the stored one
  have hentity : ∀ a ∈ t.aggs, a.entity ∈ t.entities :=
    fun a ha => List.mem_append_left _ (List.mem_map_of_mem ha)
  have hnoted : ∀ a ∈ t.aggs, a.entity.snapshotVersion = s.snapshots.version a.entity.id :=
    fun a ha => (hfits.spec hB hs ha).2 (hv _ (hentity a ha))
  constructor
  · rintro ⟨-, htime⟩ a ha
    rw [← hnoted a ha]
    exact htime.fits a ha
  · intro hcond
    have hsum : ∀ a ∈ t.aggs, a.entity.snapshotVersion + t.frequency < 2 ^ 64 :=
      fun a ha => (hnoted a ha) ▸ hcond a ha
    have hsum' : ∀ a ∈ t.aggs.map marked, a.entity.snapshotVersion + t.frequency < 2 ^ 64 :=
      List.forall_mem_map.mpr hsum
    obtain ⟨hout, hmem⟩ := mem_taken hsum' haccepted
    have htaken : ∀ a ∈ t.aggs,
        marked a ∈ (taken checks B t.frequency (t.aggs.map marked)).map Prod.fst
          ↔ s.snapshots.version a.entity.id + t.frequency ≤ a.entity.version := by
      intro a ha
      rw [hmem, ← hnoted a ha]
      exact and_iff_right (List.mem_map_of_mem ha)
    refine ⟨hout, hsum, fun a ha => ?_, fun a ha => ?_⟩
    · rw [Turn.writes_iff hfits.distinct ha, htaken a ha]
      omega
    · have hlen : (((t.stored checks B s).events.stream a.entity.id).length) = a.entity.version :=
        EventStore.length_stream_extendAll hv hcounted hfits.distinct (hentity a ha)
      rcases Turn.version_stored checks hfits.distinct s a.entity.id
        with ⟨b, hb, hid, hversion⟩ | ⟨hnot, hversion⟩
      · obtain rfl := Turn.eq_of_id hfits.distinct hb ha hid
        rw [hlen, hversion]
        omega
      · have hfew := (htaken a ha).not.mp (hnot a ha rfl)
        rw [hlen, hversion]
        omega

/-! ## A lamp -/

/-- A lamp and its snapshots leave the counters of its entity. -/
theorem keepsCounts_lamp : lampSnapshot.KeepsCounts lamp where
  replay _ x a b _ h := by
    change (lampEvent x a.fields).map (fun on => ⟨on, a.entity⟩) = .ok b at h
    cases hx : lampEvent x a.fields with
    | error f => rw [hx] at h; cases h
    | ok on =>
      rw [hx] at h
      obtain rfl : Agg.mk on a.entity = b := Except.ok.inj h
      exact ⟨a.entity.id, rfl⟩
  restore a _ := ⟨a.entity.id, rfl⟩

/-- A new lamp is lit. -/
def lighting (frequency : ℕ) : Turn Bool := ⟨frequency, [SnapshotClients.lit "lamp-1" "On" true], []⟩

theorem fits_lighting (frequency : ℕ) : (lighting frequency).Fits lamp lampSnapshot
    Shared.empty where
  aggs a ha := by
    obtain rfl := List.mem_singleton.mp ha
    exact ⟨_, .created, .digest (.setId .refl "lamp-1") _ _ _ _ _, Or.inl rfl⟩
  messages e he := absurd he List.not_mem_nil
  distinct := List.nodup_singleton _

/-- **The first snapshot on time**: a new lamp is lit and committed at frequency
1. -/
theorem onTime_iff_lighting : ∃ trace s', (lighting 1).Commits true lampSnapshot Shared.empty
      trace (.ok ()) s'
    ∧ OnTime (lighting 1) Shared.empty trace s'
    ∧ Writes trace "lamp-1" := by
  have hcommit : (lighting 1).Commits true lampSnapshot Shared.empty _ (.ok ()) _ :=
    ⟨_, rfl⟩
  have htime := ((onTime_iff keepsCounts_lamp .refl (fits_lighting 1) hcommit (fun _ => by simp)).mpr
    (fun a ha => by
      obtain rfl := List.mem_singleton.mp ha
      decide)).2
  exact ⟨_, _, hcommit, htime, (htime.written _ List.mem_cons_self).mpr (by decide)⟩

/-- A lamp loaded with a snapshot of version 1. -/
def loadedLamp : Agg Bool :=
  ⟨true, (EventStore.loadEntity "lamp-1"
    (SnapshotClients.lit "lamp-1" "On" true).entity.events).setSnapshotVersion 1⟩

/-- The lamp put out. -/
def putOut : Agg Bool :=
  ⟨false, loadedLamp.entity.digest SystemTime.unixEpoch "Off" Bitcode.unit ()⟩

/-- The store with the lit lamp and its snapshot. -/
def lit : Shared := (lighting 1).stored true lampSnapshot Shared.empty

/-- The lamp is put out and committed through a handle of the largest frequency
there is. -/
def putting : Turn Bool := ⟨2 ^ 64 - 1, [putOut], []⟩

theorem fits_putting : putting.Fits lamp lampSnapshot lit where
  aggs a ha := by
    obtain rfl := List.mem_singleton.mp ha
    have hmade : lit.events.getOne "lamp-1" = .ok (some (EventStore.loadEntity "lamp-1"
        (SnapshotClients.lit "lamp-1" "On" true).entity.events))
      ∧ made lamp lampSnapshot SystemTime.unixEpoch lit (EventStore.loadEntity "lamp-1"
        (SnapshotClients.lit "lamp-1" "On" true).entity.events) = .ok loadedLamp := ⟨rfl, rfl⟩
    have hget := (run_get (h := RepoAction.exec []) rfl rfl).mpr ⟨rfl, _, hmade⟩
    exact ⟨loadedLamp, .get [] SystemTime.unixEpoch "lamp-1" hget, .digest .refl _ _ _ _ _,
      Or.inr (loads_iff.mpr ⟨SystemTime.unixEpoch, _, hmade⟩)⟩
  messages e he := absurd he List.not_mem_nil
  distinct := List.nodup_singleton _

/-- **A frequency that is too large.** A lamp committed at frequency 1 has a
snapshot. Loaded, put out, and committed through a handle of the largest
frequency there is, it makes the check panic; in a build that does not check,
a snapshot is written one event after the last. -/
theorem overflows : putting.Fits lamp lampSnapshot lit
    ∧ putting.aggs = [putOut] ∧ putOut.entity.version = lit.snapshots.version putOut.entity.id + 1
    ∧ (Run true lamp lampSnapshot Shared.empty lit
      ∧ ∃ trace s', putting.Commits true lampSnapshot lit trace (.error .panic) s')
    ∧ Run false lamp lampSnapshot Shared.empty lit
      ∧ ∃ trace s', putting.Commits false lampSnapshot lit trace (.ok ()) s'
        ∧ Writes trace putOut.entity.id := by
  have hlit : ∀ checks, Run checks lamp lampSnapshot Shared.empty lit := fun checks =>
    .single (.turn _ (fits_lighting 1) ((Turn.commits_of_accepted rfl).mpr
      ⟨rfl, rfl, by cases checks <;> rfl⟩))
  have hpanic : addU64 true 1 (2 ^ 64 - 1) = none := by decide
  have hwrap : addU64 false 1 (2 ^ 64 - 1) = some 0 := by decide
  refine ⟨fits_putting, rfl, rfl, ⟨hlit true, _, _, (Turn.commits_of_accepted rfl).mpr ⟨rfl, ?_, rfl⟩⟩,
    hlit false, _, _, (Turn.commits_of_accepted rfl).mpr ⟨rfl, ?_, rfl⟩, ?_⟩
  · show _ = outcome true lampSnapshot putting.frequency [marked putOut]
    rw [outcome, show addU64 true (marked putOut).entity.snapshotVersion putting.frequency = _ from hpanic]
  · show _ = outcome false lampSnapshot putting.frequency [marked putOut]
    rw [outcome, show addU64 false (marked putOut).entity.snapshotVersion putting.frequency = _ from hwrap]
    rfl
  · refine (Turn.writes_iff (t := putting) (List.nodup_singleton _) List.mem_cons_self).mpr ?_
    show marked putOut ∈ (taken false lampSnapshot putting.frequency [marked putOut]).map Prod.fst
    rw [taken, show addU64 false (marked putOut).entity.snapshotVersion putting.frequency = _ from hwrap]
    exact List.mem_cons_self

end SnapshotTurns
