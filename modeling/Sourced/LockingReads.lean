import Sourced.AggregateRepository
import Mathlib.Data.Fintype.EquivFin
import Mathlib.Data.Fintype.Sets

/-!
# What a locking read leaves locked

`get_one` and `get_many` of a `QueuedRepository` take the locks of the ids they
are asked for, then read. They do not give back the locks of ids that turn out
to be missing, and they keep all of them where the read fails; the typed `get`
and `get_all` then hydrate, and keep the locks of what does not hydrate. The
caller gets nothing to release such a lock with, and the id stays blocked
(`QueuedRepository.blocks_missing`) – where `find_one`, in the same file,
releases the lock of an entity it does not return.

So what is left locked is what was returned exactly where everything asked for
was there, and hydrated (`QueuedRepository.reads_leave_held_iff`).
-/

variable {σ α β : Type} {ord : List String} {s s' : Shared}

/-! ## Locks taken by a call that runs alone -/

namespace Shared

/-- **The locks of some ids were free and have been taken**; nothing else has
changed. -/
structure Takes (s : Shared) (ids : List String) (s' : Shared) : Prop where
  events : s'.events = s.events
  snapshots : s'.snapshots = s.snapshots
  free : ∀ id ∈ ids, s.locked id = false
  locked : ∀ id, s'.locked id = true ↔ id ∈ ids ∨ s.locked id = true

/-- **The locks a call took and left held** are those of some ids. -/
def LeavesHeld (s s' : Shared) (ids : List String) : Prop :=
  ∀ id, s.locked id = false ∧ s'.locked id = true ↔ id ∈ ids

theorem Takes.refl (s : Shared) : s.Takes [] s :=
  ⟨rfl, rfl, fun _ h => absurd h List.not_mem_nil,
    fun _ => (or_iff_right List.not_mem_nil).symm⟩

/-- What has been taken is held. -/
theorem Takes.leavesHeld_iff {ids ids' : List String} (h : s.Takes ids s') :
    s.LeavesHeld s' ids' ↔ ∀ id, id ∈ ids ↔ id ∈ ids' := by
  refine forall_congr' (fun id => iff_congr ?_ Iff.rfl)
  rw [h.locked]
  constructor
  · rintro ⟨hfree, hid | hlocked⟩
    · exact hid
    · exact absurd (hfree.symm.trans hlocked) Bool.false_ne_true
  · exact fun hid => ⟨h.free id hid, Or.inl hid⟩

theorem Takes.cons {id : String} {ids : List String} (hfree : s.locked id = false)
    (h : (s.setLocked id true).Takes ids s') : s.Takes (id :: ids) s' := by
  refine ⟨h.events, h.snapshots, List.forall_mem_cons.mpr ⟨hfree, fun id' hid' => ?_⟩, fun id' => ?_⟩
  · have hfree' := h.free id' hid'
    rw [locked_setLocked] at hfree'
    by_cases hid : id' = id
    · rw [if_pos hid] at hfree'
      cases hfree'
    · rwa [if_neg hid] at hfree'
  · rw [h.locked, locked_setLocked, List.mem_cons]
    by_cases hid : id' = id <;> simp [hid]

/-- The id is stored, and can be read. -/
def Stored (s : Shared) (id : String) : Prop := ∃ e, s.events.getOne id = .ok (some e)

/-- **The id can be read, and hydrates** to the aggregate. -/
def Loads (s : Shared) (A : Aggregate σ) (now : SystemTime) (id : String) (a : Agg σ) : Prop :=
  ∃ e, s.events.getOne id = .ok (some e) ∧ A.hydrate now e = .ok a

end Shared

/-- **Pigeonhole**: a partial function on ids that takes every id of a list as its
value at one of them is defined at all of them. -/
theorem exists_of_forall_exists {ids : List String} {P : String → String → Prop}
    (hP : ∀ id x y, P id x → P id y → x = y) (h : ∀ x ∈ ids, ∃ id ∈ ids, P id x) :
    ∀ id ∈ ids, ∃ x, P id x := by
  choose f hf hPf using h
  let g : {id // id ∈ ids} → {id // id ∈ ids} := fun x => ⟨f x x.2, hf x x.2⟩
  have hinj : Function.Injective g := by
    intro x y hxy
    have hfxy : f x x.2 = f y y.2 := congrArg Subtype.val hxy
    have hy := hPf y y.2
    rw [← hfxy] at hy
    exact Subtype.ext (hP _ _ _ (hPf x x.2) hy)
  intro id hmem
  obtain ⟨x, hx⟩ := Finite.surjective_of_injective hinj ⟨id, hmem⟩
  have hfx : f x x.2 = id := congrArg Subtype.val hx
  exact ⟨x, hfx ▸ hPf x x.2⟩

/-- The ids of what a call returned; a call that failed returned nothing. -/
def returned (ids : α → List String) : RepoRes α → List String
  | .ok x => ids x
  | .error _ => []

namespace QueuedRepository

theorem run_acquire {id : String} {f : Unit → Op α} {r : RepoRes α}
    (h : Op.run ord ((acquire id).andThen f) s = some (r, s')) :
    s.locked id = false ∧ Op.run ord (f ()) (s.setLocked id true) = some (r, s') := by
  cases hl : s.locked id with
  | true => simp [Call.run_andThen, acquire, RepoAction.exec, hl] at h
  | false => exact ⟨rfl, by simpa [Call.run_andThen, acquire, RepoAction.exec, hl, lockErr] using h⟩

/-- **The locks are taken in turn** by a call that does not block. -/
theorem run_acquireAll {ids : List String} {f : Unit → Op α} {r : RepoRes α}
    (h : Op.run ord ((acquireAll ids).andThen f) s = some (r, s')) :
    ∃ s₁, s.Takes ids s₁ ∧ Op.run ord (f ()) s₁ = some (r, s') := by
  induction ids generalizing s with
  | nil => exact ⟨s, .refl s, h⟩
  | cons id ids ih =>
    have hassoc : (acquireAll (id :: ids)).andThen f
        = (acquire id).andThen (fun _ => (acquireAll ids).andThen f) := Call.andThen_assoc _ _ _
    rw [hassoc] at h
    obtain ⟨hfree, h⟩ := run_acquire h
    obtain ⟨s₁, htakes, hrun⟩ := ih h
    exact ⟨s₁, htakes.cons hfree, hrun⟩

end QueuedRepository

/-! ## Reads that run alone -/

/-- The point reads of a list of ids, the missing ones left out. -/
def EventStore.getMany (s : EventStore) : List String → RepoRes (List Entity) :=
  Res.collect (fun id => (s.getOne id).map Option.toList)

/-- **What was read**: every id could be, and the entities are those of the ids
that are stored. -/
theorem EventStore.mem_getMany {s : EventStore} {ids : List String} {es : List Entity}
    (h : s.getMany ids = .ok es) {e : Entity} :
    e ∈ es ↔ ∃ id ∈ ids, s.getOne id = .ok (some e) := by
  rw [(Res.mem_of_collect_eq_ok h).2 e]
  refine exists_congr (fun id => and_congr_right' ⟨?_, fun hid => ⟨[e], by rw [hid]; rfl, by simp⟩⟩)
  rintro ⟨zs, hzs, he⟩
  cases hid : s.getOne id with
  | error f => rw [hid] at hzs; cases hzs
  | ok o =>
    rw [hid] at hzs
    obtain rfl : o.toList = zs := Except.ok.inj hzs
    rw [Option.mem_toList.mp he]

theorem EventStore.exists_of_getMany_eq_error {s : EventStore} {ids : List String}
    {f : Fault RepositoryError} (h : s.getMany ids = .error f) :
    ∃ id ∈ ids, s.getOne id = .error f := by
  obtain ⟨id, hid, herr⟩ := Res.exists_of_collect_eq_error h
  exact ⟨id, hid, Res.map_eq_error.mp herr⟩

theorem HashMapRepository.run_getMany (ids : List String) (s : Shared) :
    Op.run ord (HashMapRepository.getMany ids) s = some (s.events.getMany ids, s) := by
  refine Call.run_collect (fun id _ => ?_)
  rw [Call.bind_eq, Call.run_andThen]
  show (Option.bind (some (s.events.getOne id, s)) _) = _
  cases s.events.getOne id <;> rfl

namespace QueuedRepository

theorem run_getOne {id : String} {r : RepoRes (Option Entity)}
    (h : Op.run ord (getOne hashMapRepository id) s = some (r, s')) :
    s.Takes [id] s' ∧ r = s.events.getOne id := by
  obtain ⟨hfree, hrun⟩ := run_acquire h
  obtain ⟨hr, rfl⟩ := Prod.mk.inj (Option.some.inj hrun)
  exact ⟨.cons hfree (.refl _), hr.symm⟩

theorem run_getMany {ids : List String} {r : RepoRes (List Entity)}
    (h : Op.run ord (getMany hashMapRepository ids) s = some (r, s')) :
    s.Takes (sortDedup ids) s' ∧ r = s.events.getMany ids := by
  obtain ⟨s₁, htakes, hrun⟩ := run_acquireAll h
  obtain ⟨hr, rfl⟩ := Prod.mk.inj (Option.some.inj ((HashMapRepository.run_getMany ids s₁).symm.trans hrun))
  rw [htakes.events] at hr
  exact ⟨htakes, hr.symm⟩

/-! ### What was read and what was locked -/

/-- The ids of the entities read are those of the ids asked for that are
stored. -/
theorem ids_getMany {ids : List String} {es : List Entity} (h : s.events.getMany ids = .ok es)
    (id : String) : id ∈ es.map Entity.id ↔ id ∈ ids ∧ s.Stored id := by
  constructor
  · intro hid
    obtain ⟨e, he, rfl⟩ := List.mem_map.mp hid
    obtain ⟨id, hid, hget⟩ := (EventStore.mem_getMany h).mp he
    rw [EventStore.id_of_getOne hget]
    exact ⟨hid, e, hget⟩
  · rintro ⟨hid, e, hget⟩
    refine List.mem_map.mpr ⟨e, (EventStore.mem_getMany h).mpr ⟨id, hid, hget⟩, ?_⟩
    exact EventStore.id_of_getOne hget

/-- `get_many` leaves held what it returned exactly where all ids are stored. -/
theorem leavesHeld_getMany_iff {ids : List String} {r : RepoRes (List Entity)}
    (h : Op.run ord (getMany hashMapRepository ids) s = some (r, s')) :
    s.LeavesHeld s' (returned (List.map Entity.id) r) ↔ ∀ id ∈ ids, s.Stored id := by
  obtain ⟨htakes, rfl⟩ := run_getMany h
  rw [htakes.leavesHeld_iff]
  cases hread : s.events.getMany ids with
  | error f =>
    obtain ⟨id, hid, herr⟩ := EventStore.exists_of_getMany_eq_error hread
    refine iff_of_false (fun hall => ?_) (fun hall => ?_)
    · exact absurd ((hall id).mp (mem_sortDedup.mpr hid)) List.not_mem_nil
    · obtain ⟨e, he⟩ := hall id hid
      exact absurd (herr.symm.trans he) (by simp)
  | ok es =>
    refine forall_congr' (fun id => ?_)
    show (id ∈ sortDedup ids ↔ id ∈ es.map Entity.id) ↔ _
    rw [mem_sortDedup, ids_getMany hread]
    exact iff_self_and

/-- `get_one` leaves held what it returned exactly where the id is stored. -/
theorem leavesHeld_getOne_iff {id : String} {r : RepoRes (Option Entity)}
    (h : Op.run ord (getOne hashMapRepository id) s = some (r, s')) :
    s.LeavesHeld s' (returned (fun e => e.toList.map Entity.id) r) ↔ s.Stored id := by
  obtain ⟨htakes, rfl⟩ := run_getOne h
  rw [htakes.leavesHeld_iff]
  cases hread : s.events.getOne id with
  | error f =>
    refine iff_of_false (fun hall => ?_) (fun ⟨e, he⟩ => absurd (hread.symm.trans he) (by simp))
    exact absurd ((hall id).mp (List.mem_singleton_self id)) List.not_mem_nil
  | ok o =>
    cases o with
    | none =>
      refine iff_of_false (fun hall => ?_) (fun ⟨e, he⟩ => absurd (hread.symm.trans he) (by simp))
      exact absurd ((hall id).mp (List.mem_singleton_self id)) List.not_mem_nil
    | some e =>
      refine iff_of_true (fun id' => ?_) ⟨e, hread⟩
      show id' ∈ [id] ↔ id' ∈ [e.id]
      rw [EventStore.id_of_getOne hread]

end QueuedRepository

/-! ## Typed reads that run alone -/

/-- **What a hydrator makes of the entities**, in a state it leaves as it is. -/
def Hydrator.Makes (f : Hydrator σ) (ord : List String) (s : Shared) (g : Entity → RepoRes (Agg σ)) :
    Prop :=
  ∀ e, Op.run ord (f e) s = some (g e, s)

namespace Hydrator

variable {f : Hydrator σ} {g : Entity → RepoRes (Agg σ)}

/-- The aggregates of a list of entities, to the first failure. -/
def makeAll (g : Entity → RepoRes (Agg σ)) : List Entity → RepoRes (List (Agg σ)) :=
  Res.collect (fun e => (g e).map (fun a => [a]))

/-- What was made is what was made of each. -/
theorem mem_makeAll {es : List Entity} {as : List (Agg σ)} (h : makeAll g es = .ok as) {a : Agg σ} :
    a ∈ as ↔ ∃ e ∈ es, g e = .ok a := by
  rw [(Res.mem_of_collect_eq_ok h).2 a]
  refine exists_congr (fun e => and_congr_right' ⟨?_, fun he => ⟨[a], by rw [he]; rfl, by simp⟩⟩)
  rintro ⟨zs, hzs, ha⟩
  cases he : g e with
  | error f => rw [he] at hzs; cases hzs
  | ok a' =>
    rw [he] at hzs
    obtain rfl : [a'] = zs := Except.ok.inj hzs
    rw [List.mem_singleton.mp ha]

theorem exists_of_makeAll_eq_error {es : List Entity} {x : Fault RepositoryError}
    (h : makeAll g es = .error x) : ∃ e ∈ es, g e = .error x := by
  obtain ⟨e, he, herr⟩ := Res.exists_of_collect_eq_error h
  exact ⟨e, he, Res.map_eq_error.mp herr⟩

theorem run_collect (hf : f.Makes ord s g) (es : List Entity) :
    Op.run ord (Call.collect (fun e => (f e).andThen (fun a => Call.done (.ok [a]))) es) s
      = some (makeAll g es, s) := by
  refine Call.run_collect (fun e _ => ?_)
  have he : Prog.run (RepoAction.exec ord) (f e) s = some (g e, s) := hf e
  rw [Call.run_andThen, he, Option.bind_some]
  cases g e <;> rfl

end Hydrator

namespace AggregateRepository

variable (A : Aggregate σ) (now : SystemTime)

theorem makes_hydrator (ord : List String) (s : Shared) :
    (hydrator A now).Makes ord s (A.hydrate now) := fun _ => rfl

/-- The locks a typed repository takes are those of a queued one. -/
abbrev queued : RepoWithOpts := queuedRepository hashMapRepository

variable {A now}

/-- **`get` leaves held what it returned** exactly where the id is stored and
hydrates to an aggregate with that id. -/
theorem leavesHeld_get_iff {id : String} {r : RepoRes (Option (Agg σ))}
    (h : Op.run ord (get queued.toRepo A now id) s = some (r, s')) :
    s.LeavesHeld s' (returned (fun a => a.toList.map (fun a => a.entity.id)) r)
      ↔ ∃ a, s.Loads A now id a ∧ a.entity.id = id := by
  have hnot : ∀ s₁, s.Takes [id] s₁ → ¬ s.LeavesHeld s₁ [] := fun s₁ htakes hall =>
    absurd ((htakes.leavesHeld_iff.mp hall id).mp (List.mem_singleton_self id)) List.not_mem_nil
  rcases Call.run_andThen_eq_some.mp h with ⟨o, s₁, hread, hrest⟩ | ⟨f, hread, rfl⟩
  · obtain ⟨htakes, ho⟩ := QueuedRepository.run_getOne hread
    cases o with
    | none =>
      obtain ⟨rfl, rfl⟩ := Prod.mk.inj (Option.some.inj hrest)
      exact iff_of_false (hnot s₁ htakes) (fun ⟨_, ⟨_, he, _⟩, _⟩ => absurd (ho.trans he) (by simp))
    | some e =>
      have hloads : ∀ a, s.Loads A now id a ↔ A.hydrate now e = .ok a := fun a => by
        refine ⟨fun ⟨e', he', ha⟩ => ?_, fun ha => ⟨e, ho.symm, ha⟩⟩
        obtain rfl : e = e' := Option.some.inj (Except.ok.inj (ho.trans he'))
        exact ha
      simp only [hloads]
      rcases Call.run_andThen_eq_some.mp hrest with ⟨a, s₂, hmake, hrest⟩ | ⟨f, hmake, rfl⟩
      · obtain ⟨ha, rfl⟩ := Prod.mk.inj (Option.some.inj hmake)
        obtain ⟨rfl, rfl⟩ := Prod.mk.inj (Option.some.inj hrest)
        rw [htakes.leavesHeld_iff, ha]
        show (∀ id', id' ∈ [id] ↔ id' ∈ [a.entity.id]) ↔ _
        constructor
        · exact fun hall => ⟨a, rfl, (List.mem_singleton.mp ((hall id).mp (List.mem_singleton_self id))).symm⟩
        · rintro ⟨a', ha', hid⟩ id'
          obtain rfl : a = a' := Except.ok.inj ha'
          rw [hid]
      · obtain ⟨ha, rfl⟩ := Prod.mk.inj (Option.some.inj hmake)
        rw [ha]
        exact iff_of_false (hnot s₁ htakes) (fun ⟨_, ha', _⟩ => absurd ha' (by simp))
  · obtain ⟨htakes, ho⟩ := QueuedRepository.run_getOne hread
    exact iff_of_false (hnot s' htakes) (fun ⟨_, ⟨_, he, _⟩, _⟩ => absurd (ho.trans he) (by simp))

theorem loads_unique {id : String} {a a' : Agg σ} (h : s.Loads A now id a) (h' : s.Loads A now id a') :
    a = a' := by
  obtain ⟨e, he, ha⟩ := h
  obtain ⟨e', he', ha'⟩ := h'
  obtain rfl : e = e' := Option.some.inj (Except.ok.inj (he.symm.trans he'))
  exact Except.ok.inj (ha.symm.trans ha')

/-- Where each id asked for is that of an aggregate that loads, each of them loads:
there are no more aggregates than ids. -/
theorem exists_loads_of_ids {ids : List String}
    (h : ∀ id ∈ ids, ∃ id' ∈ ids, ∃ a, s.Loads A now id' a ∧ a.entity.id = id) :
    ∀ id ∈ ids, ∃ a, s.Loads A now id a := by
  have hunique : ∀ id x y, (∃ a, s.Loads A now id a ∧ a.entity.id = x) →
      (∃ a, s.Loads A now id a ∧ a.entity.id = y) → x = y := by
    rintro id x y ⟨a, ha, rfl⟩ ⟨a', ha', rfl⟩
    rw [loads_unique ha ha']
  intro id hid
  obtain ⟨-, a, ha, -⟩ := exists_of_forall_exists hunique h id hid
  exact ⟨a, ha⟩

/-- **`get_all` leaves held what it returned** exactly where all ids are stored
and hydrate, to aggregates with these ids. -/
theorem leavesHeld_getAll_iff {ids : List String} {r : RepoRes (List (Agg σ))}
    (h : Op.run ord (getAll queued.toRepo A now ids) s = some (r, s')) :
    s.LeavesHeld s' (returned (List.map (fun a => a.entity.id)) r)
      ↔ (∀ id ∈ ids, ∃ a, s.Loads A now id a)
        ∧ ∀ id, id ∈ ids ↔ ∃ id' ∈ ids, ∃ a, s.Loads A now id' a ∧ a.entity.id = id := by
  have hnot : ∀ id ∈ ids, ∀ s₁, s.Takes (QueuedRepository.sortDedup ids) s₁ → ¬ s.LeavesHeld s₁ [] :=
    fun id hid s₁ htakes hall => absurd
      ((htakes.leavesHeld_iff.mp hall id).mp (QueuedRepository.mem_sortDedup.mpr hid)) List.not_mem_nil
  rcases Call.run_andThen_eq_some.mp h with ⟨es, s₁, hread, hrest⟩ | ⟨f, hread, rfl⟩
  · obtain ⟨htakes, hes⟩ := QueuedRepository.run_getMany hread
    have hloads : ∀ a, (∃ e ∈ es, A.hydrate now e = .ok a) ↔ ∃ id ∈ ids, s.Loads A now id a := by
      intro a
      constructor
      · rintro ⟨e, he, ha⟩
        obtain ⟨id, hid, hget⟩ := (EventStore.mem_getMany hes.symm).mp he
        exact ⟨id, hid, e, hget, ha⟩
      · rintro ⟨id, hid, e, hget, ha⟩
        exact ⟨e, (EventStore.mem_getMany hes.symm).mpr ⟨id, hid, hget⟩, ha⟩
    obtain ⟨rfl, rfl⟩ := Prod.mk.inj (Option.some.inj
      ((Hydrator.run_collect (makes_hydrator A now ord s₁) es).symm.trans hrest))
    cases hmake : Hydrator.makeAll (A.hydrate now) es with
    | error f =>
      obtain ⟨e, he, herr⟩ := Hydrator.exists_of_makeAll_eq_error hmake
      obtain ⟨id, hid, hget⟩ := (EventStore.mem_getMany hes.symm).mp he
      refine iff_of_false (hnot id hid s₁ htakes) (fun hall => ?_)
      obtain ⟨a, e', hget', ha⟩ := hall.1 id hid
      obtain rfl : e = e' := Option.some.inj (Except.ok.inj (hget.symm.trans hget'))
      exact absurd (herr.symm.trans ha) (by simp)
    | ok as =>
      rw [htakes.leavesHeld_iff]
      have hids : ∀ id, id ∈ as.map (fun a => a.entity.id)
          ↔ ∃ id' ∈ ids, ∃ a, s.Loads A now id' a ∧ a.entity.id = id := by
        intro id
        rw [List.mem_map]
        constructor
        · rintro ⟨a, ha, hid⟩
          obtain ⟨id', hid', hload⟩ := (hloads a).mp ((Hydrator.mem_makeAll hmake).mp ha)
          exact ⟨id', hid', a, hload, hid⟩
        · rintro ⟨id', hid', a, hload, hid⟩
          exact ⟨a, (Hydrator.mem_makeAll hmake).mpr ((hloads a).mpr ⟨id', hid', hload⟩), hid⟩
      show (∀ id, id ∈ QueuedRepository.sortDedup ids ↔ id ∈ as.map _) ↔ _
      simp only [QueuedRepository.mem_sortDedup, hids]
      refine ⟨fun hall => ⟨fun id hid => ?_, hall⟩, And.right⟩
      exact exists_loads_of_ids (fun id hid => (hall id).mp hid) id hid
  · obtain ⟨htakes, hes⟩ := QueuedRepository.run_getMany hread
    obtain ⟨id, hid, herr⟩ := EventStore.exists_of_getMany_eq_error hes.symm
    refine iff_of_false (hnot id hid s' htakes) (fun hall => ?_)
    obtain ⟨a, e, hget, -⟩ := hall.1 id hid
    exact absurd (herr.symm.trans hget) (by simp)

end AggregateRepository

/-! ## The law -/

namespace QueuedRepository

/-- **A locking read leaves held exactly what it returned, exactly where all it
was asked for is there**: the ids are stored, in a store that can be read, and
– where aggregates are asked for – hydrate, to aggregates with these ids. This
is of calls that return, from any state of the locks. -/
theorem reads_leave_held_iff (A : Aggregate σ) (now : SystemTime) (ord : List String) (s s' : Shared) :
    (∀ id r, Op.run ord (getOne hashMapRepository id) s = some (r, s') →
        (s.LeavesHeld s' (returned (fun e => e.toList.map Entity.id) r) ↔ s.Stored id))
      ∧ (∀ ids r, Op.run ord (getMany hashMapRepository ids) s = some (r, s') →
        (s.LeavesHeld s' (returned (List.map Entity.id) r) ↔ ∀ id ∈ ids, s.Stored id))
      ∧ (∀ id r, Op.run ord (AggregateRepository.get AggregateRepository.queued.toRepo A now id) s
          = some (r, s') →
        (s.LeavesHeld s' (returned (fun a => a.toList.map (fun a => a.entity.id)) r)
          ↔ ∃ a, s.Loads A now id a ∧ a.entity.id = id))
      ∧ ∀ ids r, Op.run ord (AggregateRepository.getAll AggregateRepository.queued.toRepo A now ids) s
          = some (r, s') →
        (s.LeavesHeld s' (returned (List.map (fun a => a.entity.id)) r)
          ↔ (∀ id ∈ ids, ∃ a, s.Loads A now id a)
            ∧ ∀ id, id ∈ ids ↔ ∃ id' ∈ ids, ∃ a, s.Loads A now id' a ∧ a.entity.id = id) :=
  ⟨fun _ _ => leavesHeld_getOne_iff, fun _ _ => leavesHeld_getMany_iff,
    fun _ _ => AggregateRepository.leavesHeld_get_iff,
    fun _ _ => AggregateRepository.leavesHeld_getAll_iff⟩

/-- **An id that is stored**: `get_one` leaves its lock held and nothing else. -/
theorem leavesHeld_stored : ∃ (s s' : Shared) (e : Entity),
    Op.run [] (getOne hashMapRepository "todo-1") s = some (.ok (some e), s')
      ∧ s.LeavesHeld s' ["todo-1"] := by
  let A : Aggregate Unit := ⟨(), fun _ _ a => .ok a, []⟩
  let s := Shared.empty.withEvents (EventStore.new.commit [Entity.withId "todo-1"]).2.2
  have hrun : Op.run [] (getOne hashMapRepository "todo-1") s
      = some (.ok (some (EventStore.loadEntity "todo-1" [])), s.setLocked "todo-1" true) := rfl
  exact ⟨s, _, _, hrun,
    ((reads_leave_held_iff A SystemTime.unixEpoch [] s _).1 _ _ hrun).mpr ⟨_, rfl⟩⟩

/-- **An id that is missing is left blocked**: `get_one` returns nothing and
leaves its lock held, and the next `get_one` of the id waits for ever. -/
theorem blocks_missing : ∃ s' : Shared,
    Op.run [] (getOne hashMapRepository "todo-1") Shared.empty = some (.ok none, s')
      ∧ ¬ Shared.empty.LeavesHeld s' []
      ∧ Op.run [] (getOne hashMapRepository "todo-1") s' = none :=
  ⟨_, rfl, fun h => absurd ((h "todo-1").mp ⟨rfl, rfl⟩) List.not_mem_nil, rfl⟩

end QueuedRepository
