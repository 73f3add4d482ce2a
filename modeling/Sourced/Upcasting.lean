import Sourced.SnapshotRepository
import Sourced.Stepping

/-!
# What upcasting comes to

Which entry of a table `upcast_one` applies next, and whether there is one,
depends on the name and the version of the event alone: the payload goes
along. So the loop is a walk over versions (`nextVersion`), from each to the
version of the first entry that matches.

The walk can go to the versions of the table only, and therefore the loop
ends exactly where the walk does not come back to a version it has left
(`upcastOne_isSome_iff`). Neither the macros nor the loop look at the versions of
a table; one whose versions increase always ends, and what it makes of an
event is `Upcasted`: the transforms of the first entries that match, from the
event's version upward, and nothing else.
-/

open StateTransition Stepping

/-- The first entry for an event name and a version. -/
def firstFor (us : List EventUpcaster) (name : String) (version : ℕ) : Option EventUpcaster :=
  us.find? (fun u => decide (u.eventType = name ∧ u.fromVersion = version))

/-- **The walk over the versions**: where the first entry leads. -/
def nextVersion (us : List EventUpcaster) (k : String × ℕ) : Option (String × ℕ) :=
  (firstFor us k.1 k.2).map (fun u => (k.1, u.toVersion))

/-- **The versions lead back**: from a version of an event, the first entries
come to a version they have left. -/
def LeadsBack (us : List EventUpcaster) (name : String) (version : ℕ) : Prop :=
  Loops (nextVersion us) (name, version)

/-- The name and the version of an event. -/
def EventRecord.key (e : EventRecord) : String × ℕ := (e.eventName, e.eventVersion)

variable {us : List EventUpcaster}

theorem firstFor_eq_some {name : String} {version : ℕ} {u : EventUpcaster}
    (h : firstFor us name version = some u) :
    u ∈ us ∧ u.eventType = name ∧ u.fromVersion = version :=
  ⟨List.mem_of_find?_eq_some h, by simpa using List.find?_some h⟩

theorem firstFor_eq_none_iff {e : EventRecord} :
    firstFor us e.eventName e.eventVersion = none ↔ ∀ u ∈ us, ¬ u.Applies e := by
  unfold firstFor EventUpcaster.Applies
  rw [List.find?_eq_none]
  exact forall₂_congr (fun u _ => by rw [decide_eq_true_iff])

theorem upcastStep_eq (us : List EventUpcaster) (e : EventRecord) :
    upcastStep us e = (firstFor us e.eventName e.eventVersion).map (fun u => u.apply e) := rfl

theorem map_key_upcastStep (us : List EventUpcaster) (e : EventRecord) :
    (upcastStep us e).map EventRecord.key = nextVersion us e.key := by
  rw [upcastStep_eq, Option.map_map]
  rfl

theorem nextVersion_mem {k k' : String × ℕ} (h : nextVersion us k = some k') :
    k' ∈ us.map (fun u => (u.eventType, u.toVersion)) := by
  obtain ⟨u, hu, rfl⟩ := Option.map_eq_some_iff.mp h
  obtain ⟨hmem, hname, -⟩ := firstFor_eq_some hu
  exact List.mem_map.mpr ⟨u, hmem, by rw [hname]⟩

/-- The outer loop is a bounded run of the inner one. -/
theorem upcastLoop_eq_runFor (us : List EventUpcaster) (fuel : ℕ) (e : EventRecord) :
    upcastLoop us fuel e = runFor (upcastStep us) fuel e := by
  induction fuel generalizing e with
  | zero =>
    unfold upcastLoop runFor
    cases upcastStep us e <;> rfl
  | succ fuel ih =>
    unfold upcastLoop runFor
    cases upcastStep us e with
    | none => rfl
    | some e' => exact ih e'

/-! ## When the loop ends -/

/-- **`upcast_one` returns exactly where the versions do not lead back.** -/
theorem upcastOne_isSome_iff (us : List EventUpcaster) (e : EventRecord) :
    (upcastOne us e).isSome ↔ ¬ LeadsBack us e.eventName e.eventVersion := by
  have hkey := map_runFor (map_key_upcastStep us) us.length e
  unfold upcastOne
  rw [upcastLoop_eq_runFor, ← Option.isSome_map (f := EventRecord.key), hkey]
  exact isSome_runFor_iff (fun _ _ => nextVersion_mem) (List.length_map _).le e.key

theorem mem_eval_of_upcastOne {e f : EventRecord} (h : upcastOne us e = some f) :
    f ∈ eval (upcastStep us) e := by
  rw [upcastOne, upcastLoop_eq_runFor] at h
  exact mem_eval_of_runFor h

/-- **The loop without a bound ends exactly there**: the bound of `upcastOne` cuts
no run off that would have ended. -/
theorem dom_eval_upcastStep_iff (us : List EventUpcaster) (e : EventRecord) :
    (eval (upcastStep us) e).Dom ↔ ¬ LeadsBack us e.eventName e.eventVersion := by
  constructor
  · intro h
    have hdom := (tr_eval_dom (respects (map_key_upcastStep us)) rfl).mpr h
    exact not_loops_of_dom hdom
  · intro h
    obtain ⟨f, hf⟩ := Option.isSome_iff_exists.mp ((upcastOne_isSome_iff us e).mpr h)
    exact Part.dom_iff_mem.mpr ⟨f, mem_eval_of_upcastOne hf⟩

/-- **Versions that increase do not lead back.** -/
theorem EventUpcaster.Increasing.not_leadsBack (hus : EventUpcaster.Increasing us) (name : String)
    (version : ℕ) : ¬ LeadsBack us name version := by
  refine not_loops_of_lt Prod.snd (fun k k' h => ?_) _
  obtain ⟨u, hu, rfl⟩ := Option.map_eq_some_iff.mp h
  obtain ⟨hmem, -, hfrom⟩ := firstFor_eq_some hu
  exact hfrom ▸ hus u hmem

/-- **`upcast_events` returns exactly where no event's versions lead back.** -/
theorem upcastEvents_eq_none_iff (us : List EventUpcaster) (es : List EventRecord) :
    upcastEvents us es = none ↔ ∃ e ∈ es, LeadsBack us e.eventName e.eventVersion := by
  induction es with
  | nil => simp [upcastEvents]
  | cons e es ih =>
    unfold upcastEvents at ih ⊢
    rw [List.mapM_cons, List.exists_mem_cons_iff, ← ih, ← not_not (a := LeadsBack us _ _),
      ← upcastOne_isSome_iff]
    cases upcastOne us e <;> cases List.mapM (upcastOne us) es <;> simp

/-! ## What the loop makes of an event -/

/-- **The entries a run applies** to an event of a name, from a version on: at
each version the first that matches, until there is none. -/
inductive Applied (us : List EventUpcaster) (name : String) : ℕ → List EventUpcaster → ℕ → Prop
  | done {version : ℕ} (h : firstFor us name version = none) : Applied us name version [] version
  | first {version last : ℕ} {u : EventUpcaster} {rest : List EventUpcaster}
      (h : firstFor us name version = some u) (hrest : Applied us name u.toVersion rest last) :
      Applied us name version (u :: rest) last

/-- The transforms of a list of entries, one after the other. -/
def transformAll (entries : List EventUpcaster) (payload : Bytes) : Bytes :=
  entries.foldl (fun p u => u.transform p) payload

/-- **The normal form of an event** under a table. -/
structure Upcasted (us : List EventUpcaster) (e f : EventRecord) : Prop where
  eventName_eq : f.eventName = e.eventName
  sequence_eq : f.sequence = e.sequence
  timestamp_eq : f.timestamp = e.timestamp
  metadata_eq : f.metadata = e.metadata
  /-- The entries applied, their versions going up, and the payload they make. -/
  applied : ∃ entries, Applied us e.eventName e.eventVersion entries f.eventVersion
    ∧ entries.Pairwise (fun u v => u.fromVersion < v.fromVersion)
    ∧ f.payload = transformAll entries e.payload
  /-- Nothing more applies. -/
  final : ∀ u ∈ us, ¬ u.Applies f
  /-- An event to which nothing applies is what it was. -/
  untouched : (∀ u ∈ us, ¬ u.Applies e) → f = e

/-- The loop applies the entries of a run, and changes the payload and the
version only. -/
theorem applied_of_upcastLoop {fuel : ℕ} {e f : EventRecord} (h : upcastLoop us fuel e = some f) :
    ∃ entries, Applied us e.eventName e.eventVersion entries f.eventVersion
      ∧ f = { e with payload := transformAll entries e.payload, eventVersion := f.eventVersion } := by
  rw [upcastLoop_eq_runFor] at h
  induction fuel generalizing e with
  | zero =>
    cases hfirst : firstFor us e.eventName e.eventVersion with
    | none =>
      rw [runFor_of_none (by rw [upcastStep_eq, hfirst]; rfl)] at h
      obtain rfl := Option.some.inj h
      exact ⟨[], .done hfirst, rfl⟩
    | some u =>
      have hstep : upcastStep us e = some (u.apply e) := by rw [upcastStep_eq, hfirst]; rfl
      rw [runFor_zero_of_some hstep] at h
      cases h
  | succ fuel ih =>
    cases hfirst : firstFor us e.eventName e.eventVersion with
    | none =>
      rw [runFor_of_none (by rw [upcastStep_eq, hfirst]; rfl)] at h
      obtain rfl := Option.some.inj h
      exact ⟨[], .done hfirst, rfl⟩
    | some u =>
      have hstep : upcastStep us e = some (u.apply e) := by rw [upcastStep_eq, hfirst]; rfl
      rw [runFor_succ_of_some hstep] at h
      obtain ⟨rest, hrest, hf⟩ := ih h
      exact ⟨u :: rest, .first hfirst hrest, hf⟩

theorem Applied.firstFor_eq_none {name : String} {version last : ℕ} {entries : List EventUpcaster}
    (h : Applied us name version entries last) : firstFor us name last = none := by
  induction h with
  | done h => exact h
  | first _ _ ih => exact ih

theorem Applied.eq_nil {name : String} {version last : ℕ} {entries : List EventUpcaster}
    (h : Applied us name version entries last) (hnone : firstFor us name version = none) :
    entries = [] ∧ last = version := by
  cases h with
  | done => exact ⟨rfl, rfl⟩
  | first h => rw [hnone] at h; cases h

/-- **In an increasing table the entries of a run go up** from the version it
starts at. -/
theorem Applied.increasing {name : String} {version last : ℕ} {entries : List EventUpcaster}
    (hus : EventUpcaster.Increasing us) (h : Applied us name version entries last) :
    (∀ u ∈ entries, version ≤ u.fromVersion)
      ∧ entries.Pairwise (fun u v => u.fromVersion < v.fromVersion) := by
  induction h with
  | done => exact ⟨fun u hu => (by cases hu), List.Pairwise.nil⟩
  | @first version last u rest hfirst _ ih =>
    obtain ⟨hmem, -, rfl⟩ := firstFor_eq_some hfirst
    have hlt := hus u hmem
    refine ⟨fun v hv => ?_, List.pairwise_cons.mpr ⟨fun v hv => hlt.trans_le (ih.1 v hv), ih.2⟩⟩
    rcases List.mem_cons.mp hv with rfl | hv
    · exact le_rfl
    · exact hlt.le.trans (ih.1 v hv)

/-- **What `upcast_one` returns under an increasing table.** -/
theorem upcasted_of_upcastOne {e f : EventRecord} (hus : EventUpcaster.Increasing us)
    (h : upcastOne us e = some f) : Upcasted us e f := by
  obtain ⟨entries, happ, hf⟩ := applied_of_upcastLoop h
  have hname : f.eventName = e.eventName := by rw [hf]
  refine ⟨hname, by rw [hf], by rw [hf], by rw [hf],
    ⟨entries, happ, (happ.increasing hus).2, by rw [hf]⟩, ?_, fun hnone => ?_⟩
  · have hlast := happ.firstFor_eq_none
    rw [← hname] at hlast
    exact firstFor_eq_none_iff.mp hlast
  · obtain ⟨rfl, hversion⟩ := happ.eq_nil (firstFor_eq_none_iff.mpr hnone)
    rw [hf, hversion]
    rfl

theorem upcastOne_of_final {f : EventRecord} (h : ∀ u ∈ us, ¬ u.Applies f) :
    upcastOne us f = some f := by
  rw [upcastOne, upcastLoop_eq_runFor]
  refine runFor_of_none ?_ _
  rw [upcastStep_eq, firstFor_eq_none_iff.mpr h]
  rfl

/-- Upcasting a list is upcasting each of its events. -/
theorem upcastEvents_eq_some_iff {es fs : List EventRecord} :
    upcastEvents us es = some fs ↔ List.Forall₂ (fun e f => upcastOne us e = some f) es fs := by
  induction es generalizing fs with
  | nil => simp [upcastEvents, eq_comm]
  | cons e es ih =>
    unfold upcastEvents at ih ⊢
    rw [List.mapM_cons]
    constructor
    · intro h
      obtain ⟨f, hf, h⟩ := Option.bind_eq_some_iff.mp h
      obtain ⟨fs', hfs, h⟩ := Option.bind_eq_some_iff.mp h
      obtain rfl := Option.some.inj h
      exact List.Forall₂.cons hf (ih.mp hfs)
    · rintro (_ | ⟨hf, hfs⟩)
      rw [hf, Option.bind_eq_bind, Option.bind_some, ih.mpr hfs]
      rfl

theorem upcastEvents_of_upcasted {es fs : List EventRecord}
    (h : List.Forall₂ (Upcasted us) es fs) : upcastEvents us fs = some fs := by
  refine upcastEvents_eq_some_iff.mpr ?_
  induction h with
  | nil => exact List.Forall₂.nil
  | cons he _ ih => exact List.Forall₂.cons (upcastOne_of_final he.final) ih

/-- **The normal form of a list of events.** Under a table whose versions
increase the loop ends for every event, and `upcast_events` returns the events
in order, each in its normal form; upcasting them again changes nothing. -/
theorem upcastEvents_normalForm (hus : EventUpcaster.Increasing us) (es : List EventRecord) :
    (∀ e ∈ es, (eval (upcastStep us) e).Dom)
      ∧ ∃ fs, upcastEvents us es = some fs ∧ List.Forall₂ (Upcasted us) es fs
        ∧ upcastEvents us fs = some fs := by
  refine ⟨fun e _ => (dom_eval_upcastStep_iff us e).mpr (hus.not_leadsBack _ _), ?_⟩
  obtain ⟨fs, hfs⟩ := Option.isSome_iff_exists.mp (upcastEvents_isSome hus es)
  have hall : List.Forall₂ (Upcasted us) es fs :=
    (upcastEvents_eq_some_iff.mp hfs).imp (fun _ _ => upcasted_of_upcastOne hus)
  exact ⟨fs, hfs, hall, upcastEvents_of_upcasted hall⟩

/-- A gap in the versions, a second entry for one of them, and an event of
another name: the first entries apply. -/
theorem upcastEvents_normalForm_mixed :
    let table : List EventUpcaster :=
      [⟨"Created", 2, 5, fun p => p ++ [25]⟩, ⟨"Created", 1, 2, fun p => p ++ [12]⟩,
        ⟨"Created", 1, 3, fun p => p ++ [13]⟩]
    let created := EventRecord.new "Created" [] 1 SystemTime.unixEpoch
    let renamed := EventRecord.new "Renamed" [7] 2 SystemTime.unixEpoch
    EventUpcaster.Increasing table
      ∧ upcastEvents table [created, renamed]
        = some [{ created with payload := [12, 25], eventVersion := 5 }, renamed]
      ∧ Upcasted table renamed renamed := by
  intro table created renamed
  have hus : EventUpcaster.Increasing table := by
    show ∀ u ∈ table, u.fromVersion < u.toVersion
    decide
  obtain ⟨-, fs, hfs, hall, -⟩ := upcastEvents_normalForm hus [created, renamed]
  obtain rfl : [{ created with payload := [12, 25], eventVersion := 5 }, renamed] = fs :=
    Option.some.inj hfs
  exact ⟨hus, hfs, (List.forall₂_cons.mp (List.forall₂_cons.mp hall).2).1⟩

/-! ## Hydration -/

namespace Aggregate

variable {σ : Type} (A : Aggregate σ) (now : SystemTime)

theorem upcast_eq_diverge_iff (es : List EventRecord) :
    A.upcast es = .error .diverge
      ↔ ∃ e ∈ es, LeadsBack A.upcasters e.eventName e.eventVersion := by
  rw [upcast_eq, ← upcastEvents_eq_none_iff]
  cases upcastEvents A.upcasters es <;> simp

theorem upcast_eq_error {es : List EventRecord} {f : Fault RepositoryError}
    (h : A.upcast es = .error f) : f = .diverge := by
  rw [upcast_eq] at h
  cases hup : upcastEvents A.upcasters es with
  | none => rw [hup] at h; exact (Except.error.inj h).symm
  | some fs => rw [hup] at h; cases h

variable {A}

/-- Replaying events that can each be replayed returns. -/
theorem replayAll_ne_diverge
    (hA : ∀ now e a, A.replayEvent now e a ≠ .error .diverge) (es : List EventRecord) (a : Agg σ) :
    A.replayAll now es a ≠ .error .diverge := by
  induction es generalizing a with
  | nil => simp
  | cons e es ih =>
    rw [replayAll_cons]
    cases hre : A.replayEvent now e a with
    | ok b => exact ih b
    | error f =>
      intro h
      obtain rfl := Except.error.inj h
      exact hA now e a hre

theorem replay_ne_diverge (hA : ∀ now e a, A.replayEvent now e a ≠ .error .diverge)
    (es : List EventRecord) (a : Agg σ) : A.replay now es a ≠ .error .diverge := by
  intro h
  unfold replay at h
  have hne := replayAll_ne_diverge now hA es { a with entity := a.entity.setReplaying true }
  cases hre : A.replayAll now es { a with entity := a.entity.setReplaying true } with
  | ok b => rw [hre] at h; cases h
  | error f =>
    rw [hre] at h hne
    cases f with
    | err e => cases h
    | panic => cases h
    | diverge => exact hne rfl

/-- **Both hydrations are stopped by the upcasting alone.** -/
theorem upcast_replay_eq_diverge_iff (hA : ∀ now e a, A.replayEvent now e a ≠ .error .diverge)
    (es : List EventRecord) (a : Agg σ) :
    (A.upcast es >>= fun events => A.replay now events a) = .error .diverge
      ↔ ∃ e ∈ es, LeadsBack A.upcasters e.eventName e.eventVersion := by
  rw [← A.upcast_eq_diverge_iff]
  cases hup : A.upcast es with
  | error f =>
    obtain rfl := A.upcast_eq_error hup
    exact iff_of_true rfl rfl
  | ok events => exact iff_of_false (replay_ne_diverge now hA events a) (by simp)

/-- **When hydration returns.** The loop of `upcast_one` ends for an event
exactly where the first entries from its version on do not lead back, and
`hydrate` and `hydrate_from_snapshot` of an aggregate whose `replay_event`
returns are kept from returning by the events alone for which it does not end –
which a table of increasing versions has none of. -/
theorem hydrate_diverges_iff (hA : ∀ now e a, A.replayEvent now e a ≠ .error .diverge) :
    (∀ e : EventRecord, (eval (upcastStep A.upcasters) e).Dom
        ↔ ¬ LeadsBack A.upcasters e.eventName e.eventVersion)
      ∧ (∀ now entity, A.hydrate now entity = .error .diverge
        ↔ ∃ e ∈ entity.events, LeadsBack A.upcasters e.eventName e.eventVersion)
      ∧ (∀ (B : Snapshottable σ) now entity snapshot,
        A.hydrateFromSnapshot B now entity snapshot = .error .diverge
          ↔ ∃ snap, B.codec.deserialize snapshot.data = .ok snap
            ∧ ∃ e ∈ (B.restoreFromSnapshot
                ⟨A.default, entity.setSnapshotVersion snapshot.version⟩ snap).entity.events,
              snapshot.version < e.sequence
                ∧ LeadsBack A.upcasters e.eventName e.eventVersion)
      ∧ (EventUpcaster.Increasing A.upcasters →
        ∀ name version, ¬ LeadsBack A.upcasters name version) := by
  refine ⟨dom_eval_upcastStep_iff A.upcasters, fun now entity => ?_, fun B now entity snapshot => ?_,
    EventUpcaster.Increasing.not_leadsBack⟩
  · exact upcast_replay_eq_diverge_iff now hA entity.events ⟨A.default, entity⟩
  · unfold hydrateFromSnapshot
    cases hde : B.codec.deserialize snapshot.data with
    | error e => exact iff_of_false (by intro h; cases h) (by rintro ⟨snap, h, -⟩; cases h)
    | ok snap =>
      refine (upcast_replay_eq_diverge_iff now hA _ _).trans ⟨?_, ?_⟩
      · rintro ⟨e, he, hback⟩
        obtain ⟨hmem, hseq⟩ := List.mem_filter.mp he
        exact ⟨snap, rfl, e, hmem, of_decide_eq_true hseq, hback⟩
      · rintro ⟨snap', hsnap, e, hmem, hseq, hback⟩
        obtain rfl := Except.ok.inj hsnap
        exact ⟨e, List.mem_filter.mpr ⟨hmem, decide_eq_true hseq⟩, hback⟩

/-- The aggregate with the table `us` whose replay changes nothing. -/
def unchanging (us : List EventUpcaster) : Aggregate Unit := ⟨(), fun _ _ a => .ok a, us⟩

/-- With a table from version 1 to 2 it is hydrated. -/
theorem hydrate_diverges_iff_unchanging :
    (unchanging [⟨"Created", 1, 2, fun p => p⟩]).hydrate SystemTime.unixEpoch
      ((Entity.withId "todo-1").loadFromHistory
        [EventRecord.new "Created" [] 1 SystemTime.unixEpoch]) ≠ .error .diverge := by
  intro h
  obtain ⟨-, hhydrate, -, hincreasing⟩ :=
    hydrate_diverges_iff (A := unchanging [⟨"Created", 1, 2, fun p => p⟩])
      (fun now e a h => by cases h)
  obtain ⟨e, -, hback⟩ := (hhydrate _ _).mp h
  exact hincreasing (fun u hu => by rw [List.mem_singleton.mp hu]; decide) _ _ hback

/-- **A table that leads back.** An entry from version 1 to version 1 keeps
the loop of `upcast_one`, and with it `hydrate`, from returning. -/
theorem hydrate_leadsBack :
    let table : List EventUpcaster := [⟨"Created", 1, 1, fun p => p⟩]
    let created := EventRecord.new "Created" [] 1 SystemTime.unixEpoch
    ¬ (eval (upcastStep table) created).Dom
      ∧ (unchanging table).hydrate SystemTime.unixEpoch
        ((Entity.withId "todo-1").loadFromHistory [created]) = .error .diverge := by
  intro table created
  refine ⟨fun hdom => ?_, rfl⟩
  have hstep : nextVersion table ("Created", 1) = some ("Created", 1) := rfl
  exact (dom_eval_upcastStep_iff table created).mp hdom
    ⟨_, Relation.ReflTransGen.refl, Relation.TransGen.single hstep⟩

end Aggregate
