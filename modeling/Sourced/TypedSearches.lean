import Sourced.LockingSearches
import Sourced.LockingReads
import Sourced.SnapshotRepository

/-!
# Typed searches, and what they leave locked

The typed repositories search for every entity and look at the aggregates
afterwards. Over a `QueuedRepository` the search below locks all it finds, and
the search above does not give back the locks of what it leaves out. So `find`
leaves held what it returns exactly where every stored aggregate matches,
`find_one` exactly where there is at most the one it returns; and `exists` and
`count`, which are made of these two and return no aggregate at all, leave the
whole store locked – where the same operations of the `QueuedRepository` lock
nothing (`Hydrator.searches_lock_iff`).

All this is the same with snapshots, which only make an aggregate of an entity
in another way.
-/

variable {σ : Type} {ord : List String} {s s' : Shared}

/-! ## The loops of the searches -/

namespace Hydrator

variable {f : Hydrator σ} {g : Entity → RepoRes (Agg σ)} {p : Agg σ → Bool}

/-- The aggregates that match, to the first failure. -/
def keepAll (g : Entity → RepoRes (Agg σ)) (p : Agg σ → Bool) : List Entity → RepoRes (List (Agg σ)) :=
  Res.collect (fun e => (g e).map (fun a => [a].filter p))

/-- The first aggregate that matches, unless a failure comes first. -/
def firstOf (g : Entity → RepoRes (Agg σ)) (p : Agg σ → Bool) :
    List Entity → RepoRes (Option (Agg σ))
  | [] => .ok none
  | e :: es =>
    match g e with
    | .error f => .error f
    | .ok a => if p a then .ok (some a) else firstOf g p es

/-- **The loop of `find` returned**: nothing failed, and what was kept are the
aggregates that match. -/
theorem keepAll_eq_ok {es : List Entity} {as : List (Agg σ)} (h : keepAll g p es = .ok as) :
    (∀ e ∈ es, ∃ a, g e = .ok a) ∧ ∀ a, a ∈ as ↔ p a = true ∧ ∃ e ∈ es, g e = .ok a := by
  obtain ⟨hall, hmem⟩ := Res.mem_of_collect_eq_ok h
  refine ⟨fun e he => ?_, fun a => ?_⟩
  · obtain ⟨zs, hzs⟩ := hall e he
    cases hg : g e with
    | error f => rw [hg] at hzs; cases hzs
    | ok a => exact ⟨a, rfl⟩
  · rw [hmem a]
    constructor
    · rintro ⟨e, he, zs, hzs, ha⟩
      cases hg : g e with
      | error f => rw [hg] at hzs; cases hzs
      | ok a' =>
        rw [hg] at hzs
        obtain rfl : [a'].filter p = zs := Except.ok.inj hzs
        obtain ⟨ha', hp⟩ := List.mem_filter.mp ha
        obtain rfl := List.mem_singleton.mp ha'
        exact ⟨hp, e, he, hg⟩
    · rintro ⟨hp, e, he, hg⟩
      refine ⟨e, he, [a].filter p, by rw [hg]; rfl, ?_⟩
      exact List.mem_filter.mpr ⟨List.mem_singleton_self a, hp⟩

theorem keepAll_eq_error {es : List Entity} {x : Fault RepositoryError}
    (h : keepAll g p es = .error x) : ∃ e ∈ es, g e = .error x := by
  obtain ⟨e, he, herr⟩ := Res.exists_of_collect_eq_error h
  exact ⟨e, he, Res.map_eq_error.mp herr⟩

/-- **The loop of `find_one` found nothing**: nothing matches. -/
theorem firstOf_eq_none {es : List Entity} (h : firstOf g p es = .ok none) :
    ∀ e ∈ es, ∃ a, g e = .ok a ∧ p a = false := by
  induction es with
  | nil => exact fun e he => absurd he List.not_mem_nil
  | cons e es ih =>
    rw [firstOf] at h
    cases hg : g e with
    | error f => rw [hg] at h; cases h
    | ok a =>
      rw [hg] at h
      dsimp only at h
      cases hp : p a with
      | true => rw [hp] at h; cases h
      | false =>
        rw [hp] at h
        exact List.forall_mem_cons.mpr ⟨⟨a, hg, hp⟩, ih h⟩

/-- **The loop of `find_one` found an aggregate**: it matches. -/
theorem firstOf_eq_some {es : List Entity} {a : Agg σ} (h : firstOf g p es = .ok (some a)) :
    p a = true ∧ ∃ e ∈ es, g e = .ok a := by
  induction es with
  | nil => cases h
  | cons e es ih =>
    rw [firstOf] at h
    cases hg : g e with
    | error f => rw [hg] at h; cases h
    | ok a' =>
      rw [hg] at h
      dsimp only at h
      cases hp : p a' with
      | true =>
        rw [hp] at h
        obtain rfl : a' = a := Option.some.inj (Except.ok.inj h)
        exact ⟨hp, e, List.mem_cons_self, hg⟩
      | false =>
        rw [hp] at h
        obtain ⟨hpa, e', he', hg'⟩ := ih h
        exact ⟨hpa, e', List.mem_cons_of_mem e he', hg'⟩

theorem run_filter (hf : f.Makes ord s g) (es : List Entity) :
    Op.run ord (f.filter p es) s = some (keepAll g p es, s) := by
  refine Call.run_collect (fun e _ => ?_)
  have he : Prog.run (RepoAction.exec ord) (f e) s = some (g e, s) := hf e
  rw [Call.bind_eq, Call.run_andThen, he, Option.bind_some]
  cases g e <;> rfl

/-- The loop of `find_one` alone. -/
theorem run_first (hf : f.Makes ord s g) (es : List Entity) :
    Op.run ord (f.first p es) s = some (firstOf g p es, s) := by
  induction es with
  | nil => rfl
  | cons e es ih =>
    have he : Prog.run (RepoAction.exec ord) (f e) s = some (g e, s) := hf e
    rw [first, firstOf, Op.run, Call.bind_eq, Call.run_andThen, he, Option.bind_some]
    cases g e with
    | error x => rfl
    | ok a =>
      dsimp only
      cases hp : p a with
      | true => rw [if_pos rfl, if_pos rfl]; rfl
      | false => rw [if_neg Bool.false_ne_true, if_neg Bool.false_ne_true]; exact ih

end Hydrator

/-! ## The search below -/

/-- A search for everything finds what can be read. -/
theorem EventStore.mem_find {store : EventStore} (hord : store.Enumerates ord) {es : List Entity}
    (h : store.find ord (fun _ => true) = .ok es) {e : Entity} :
    e ∈ es ↔ store.getOne e.id = .ok (some e) := by
  unfold EventStore.find at h
  unfold EventStore.getOne
  cases hp : store.poisoned with
  | true => rw [hp] at h; cases h
  | false =>
    rw [hp] at h
    obtain rfl : (store.entities ord).filter (fun _ => true) = es := Except.ok.inj h
    rw [List.filter_true]
    show e ∈ store.entities ord
      ↔ (.ok ((store.lookup e.id).map (loadEntity e.id)) : RepoRes (Option Entity)) = .ok (some e)
    rw [Except.ok.injEq, entities, List.mem_filterMap]
    constructor
    · rintro ⟨id, -, he⟩
      obtain ⟨l, hl, rfl⟩ := Option.map_eq_some_iff.mp he
      show (store.lookup id).map (loadEntity id) = _
      rw [hl]
      rfl
    · intro he
      obtain ⟨l, hl, -⟩ := Option.map_eq_some_iff.mp he
      exact ⟨e.id, (hord.2 e.id).mpr (hl ▸ rfl), he⟩

theorem EventStore.getOne_of_find_eq_error {store : EventStore} {x : Fault RepositoryError}
    (h : store.find ord (fun _ => true) = .error x) (id : String) : store.getOne id = .error x := by
  unfold EventStore.find at h
  unfold EventStore.getOne
  cases hp : store.poisoned with
  | true => rw [hp] at h; exact congrArg Except.error (Except.error.inj h)
  | false => rw [hp] at h; cases h

namespace QueuedRepository

theorem run_refetch (p : Entity → Bool) (ids : List String) (s : Shared) :
    Op.run ord (refetch hashMapRepository p ids) s
      = some (Res.collect (fun id => (s.events.getOne id).map (fun e => e.toList.filter p)) ids, s) := by
  refine Call.run_collect (fun id _ => ?_)
  rw [Call.bind_eq, Call.run_andThen]
  show (Option.bind (some (s.events.getOne id, s)) _) = _
  cases s.events.getOne id <;> rfl

/-- **A search for everything took the locks of all that is stored**, and found
all of it. -/
theorem run_find_all (hord : s.events.Enumerates ord) {r : RepoRes (List Entity)}
    (h : Op.run ord (find hashMapRepository (fun _ => true)) s = some (r, s')) :
    ∃ ids, s.Takes ids s' ∧ (∀ id, id ∈ ids ↔ s.Stored id)
      ∧ ∀ es, r = .ok es → ∀ e, e ∈ es ↔ s.events.getOne e.id = .ok (some e) := by
  rcases Call.run_andThen_eq_some.mp h with ⟨es, s₁, hfind, hrest⟩ | ⟨x, hfind, rfl⟩
  · obtain ⟨hes, rfl⟩ := Prod.mk.inj (Option.some.inj hfind)
    have hmem := fun e => EventStore.mem_find hord hes (e := e)
    obtain ⟨s₁, htakes, hrefetch⟩ := run_acquireAll hrest
    obtain ⟨rfl, rfl⟩ := Prod.mk.inj (Option.some.inj ((run_refetch _ _ s₁).symm.trans hrefetch))
    refine ⟨_, htakes, fun id => ?_, fun es' hes' e => ?_⟩
    · rw [mem_sortDedup, List.mem_map]
      constructor
      · rintro ⟨e, he, rfl⟩
        exact ⟨e, (hmem e).mp he⟩
      · rintro ⟨e, hget⟩
        have hid : e.id = id := EventStore.id_of_getOne hget
        exact ⟨e, (hmem e).mpr (hid.symm ▸ hget), hid⟩
    · rw [(Res.mem_of_collect_eq_ok hes').2 e, htakes.events]
      constructor
      · rintro ⟨id, -, zs, hzs, he⟩
        cases hget : s.events.getOne id with
        | error x => rw [hget] at hzs; cases hzs
        | ok o =>
          rw [hget] at hzs
          obtain rfl : o.toList.filter (fun _ => true) = zs := Except.ok.inj hzs
          rw [List.filter_true, Option.mem_toList] at he
          rw [he] at hget
          rw [EventStore.id_of_getOne hget, hget]
      · intro hget
        refine ⟨e.id, List.mem_map_of_mem ((hmem e).mpr hget), [e], ?_, List.mem_singleton_self e⟩
        rw [hget]
        rfl
  · obtain ⟨hx, rfl⟩ := Prod.mk.inj (Option.some.inj hfind)
    refine ⟨[], .refl s, fun id => iff_of_false List.not_mem_nil ?_, fun es hes => nomatch hes⟩
    rintro ⟨e, he⟩
    exact absurd ((EventStore.getOne_of_find_eq_error hx id).symm.trans he) (by simp)

end QueuedRepository

/-! ## What the searches above leave locked -/

/-- **An aggregate made of what is stored under an id.** -/
def Shared.Found (s : Shared) (g : Entity → RepoRes (Agg σ)) (id : String) (a : Agg σ) : Prop :=
  ∃ e, s.events.getOne id = .ok (some e) ∧ g e = .ok a

theorem Shared.Found.unique {g : Entity → RepoRes (Agg σ)} {id : String} {a a' : Agg σ}
    (h : s.Found g id a) (h' : s.Found g id a') : a = a' := by
  obtain ⟨e, he, ha⟩ := h
  obtain ⟨e', he', ha'⟩ := h'
  obtain rfl : e = e' := Option.some.inj (Except.ok.inj (he.symm.trans he'))
  exact Except.ok.inj (ha.symm.trans ha')

/-- **When four typed searches leave held the locks of what they return and no
others**, `g` being how they make an aggregate of an entity. -/
structure SearchLocks (ord : List String) (s s' : Shared) (g : Entity → RepoRes (Agg σ))
    (p : Agg σ → Bool) (find : Op (List (Agg σ))) (findOne : Op (Option (Agg σ)))
    (exists' : Op Bool) (count : Op ℕ) : Prop where
  /-- `find`: where all that is stored matches, under its own id. -/
  find : ∀ as, Op.run ord find s = some (.ok as, s') →
    (s.LeavesHeld s' (as.map (fun a => a.entity.id))
      ↔ (∀ id a, s.Found g id a → p a = true)
        ∧ ∀ id, s.Stored id ↔ ∃ id' a, s.Found g id' a ∧ a.entity.id = id)
  /-- `find_one`: where nothing is stored, or one aggregate that matches. -/
  findOne : ∀ o, Op.run ord findOne s = some (.ok o, s') →
    (s.LeavesHeld s' (o.toList.map (fun a => a.entity.id))
      ↔ (∀ id, ¬ s.Stored id)
        ∨ ∃ id a, (∀ id', s.Stored id' ↔ id' = id) ∧ s.Found g id a ∧ p a = true ∧ a.entity.id = id)
  /-- `exists` changes no lock where nothing is stored. -/
  exists' : ∀ r, Op.run ord exists' s = some (r, s') → (s'.locked = s.locked ↔ ∀ id, ¬ s.Stored id)
  /-- `count` changes no lock where nothing is stored. -/
  count : ∀ r, Op.run ord count s = some (r, s') → (s'.locked = s.locked ↔ ∀ id, ¬ s.Stored id)

namespace Hydrator

variable {f : Hydrator σ} {g : Entity → RepoRes (Agg σ)} {p : Agg σ → Bool}

/-- **A typed search took the locks of all that is stored**, whatever it does with
what was found: `k` is its loop, which changes nothing and returns `kk`. -/
theorem run_search {β : Type} {k : List Entity → Op β} {kk : List Entity → RepoRes β}
    (hk : ∀ es s₁, s₁.events = s.events → s₁.snapshots = s.snapshots →
      Op.run ord (k es) s₁ = some (kk es, s₁))
    (hord : s.events.Enumerates ord) {r : RepoRes β}
    (h : Op.run ord ((QueuedRepository.find hashMapRepository (fun _ => true)).andThen k) s
      = some (r, s')) :
    ∃ ids, s.Takes ids s' ∧ (∀ id, id ∈ ids ↔ s.Stored id)
      ∧ ∀ x, r = .ok x → ∃ es, kk es = .ok x ∧ ∀ e, e ∈ es ↔ s.events.getOne e.id = .ok (some e) := by
  rcases Call.run_andThen_eq_some.mp h with ⟨es, s₁, hfind, hrest⟩ | ⟨x, hfind, rfl⟩
  · obtain ⟨ids, htakes, hids, hes⟩ := QueuedRepository.run_find_all hord hfind
    obtain ⟨rfl, rfl⟩ := Prod.mk.inj (Option.some.inj
      ((hk es s₁ htakes.events htakes.snapshots).symm.trans hrest))
    exact ⟨ids, htakes, hids, fun x hx => ⟨es, hx, hes es rfl⟩⟩
  · obtain ⟨ids, htakes, hids, -⟩ := QueuedRepository.run_find_all hord hfind
    exact ⟨ids, htakes, hids, fun x hx => nomatch hx⟩

theorem run_map {α β : Type} {c : Op α} {h : α → β} {r : RepoRes β}
    (hrun : Op.run ord (c.andThen (fun x => Call.done (.ok (h x)))) s = some (r, s')) :
    ∃ r', Op.run ord c s = some (r', s') := by
  rcases Call.run_andThen_eq_some.mp hrun with ⟨x, s₁, hc, hrest⟩ | ⟨x, hc, rfl⟩
  · obtain ⟨-, rfl⟩ := Prod.mk.inj (Option.some.inj hrest)
    exact ⟨_, hc⟩
  · exact ⟨_, hc⟩

/-- The locks have changed exactly where some were taken. -/
theorem locked_eq_iff {ids : List String} (htakes : s.Takes ids s')
    (hids : ∀ id, id ∈ ids ↔ s.Stored id) : s'.locked = s.locked ↔ ∀ id, ¬ s.Stored id := by
  constructor
  · intro heq id hstored
    have hid := (hids id).mpr hstored
    have hlocked := (htakes.locked id).mpr (Or.inl hid)
    rw [heq, htakes.free id hid] at hlocked
    exact Bool.false_ne_true hlocked
  · intro hnone
    funext id
    rw [Bool.eq_iff_iff, htakes.locked id, hids id]
    exact or_iff_right (hnone id)

theorem found_iff {es : List Entity} (hes : ∀ e, e ∈ es ↔ s.events.getOne e.id = .ok (some e))
    (a : Agg σ) : (∃ e ∈ es, g e = .ok a) ↔ ∃ id, s.Found g id a := by
  constructor
  · rintro ⟨e, he, ha⟩
    exact ⟨e.id, e, (hes e).mp he, ha⟩
  · rintro ⟨id, e, hget, ha⟩
    refine ⟨e, (hes e).mpr ?_, ha⟩
    rw [EventStore.id_of_getOne hget, hget]

/-- **`find`** returned the matches of all that is stored, all of which it left
locked. -/
theorem leavesHeld_find_iff {ids : List String} (htakes : s.Takes ids s')
    (hids : ∀ id, id ∈ ids ↔ s.Stored id) {es : List Entity} {as : List (Agg σ)}
    (hkeep : keepAll g p es = .ok as)
    (hes : ∀ e, e ∈ es ↔ s.events.getOne e.id = .ok (some e)) :
    s.LeavesHeld s' (as.map (fun a => a.entity.id))
      ↔ (∀ id a, s.Found g id a → p a = true)
        ∧ ∀ id, s.Stored id ↔ ∃ id' a, s.Found g id' a ∧ a.entity.id = id := by
  obtain ⟨-, hmem⟩ := keepAll_eq_ok hkeep
  have has : ∀ id, id ∈ as.map (fun a => a.entity.id)
      ↔ ∃ id' a, s.Found g id' a ∧ p a = true ∧ a.entity.id = id := fun id => by
    rw [List.mem_map]
    constructor
    · rintro ⟨a, ha, hid⟩
      obtain ⟨hp, hfound⟩ := (hmem a).mp ha
      obtain ⟨id', hfound⟩ := (found_iff hes a).mp hfound
      exact ⟨id', a, hfound, hp, hid⟩
    · rintro ⟨id', a, hfound, hp, hid⟩
      exact ⟨a, (hmem a).mpr ⟨hp, (found_iff hes a).mpr ⟨id', hfound⟩⟩, hid⟩
  rw [htakes.leavesHeld_iff]
  simp only [hids, has]
  constructor
  · intro hall
    -- every stored id is that of a match, so there are as many matches as ids
    have hevery : ∀ id ∈ ids, ∃ x, ∃ a, s.Found g id a ∧ p a = true ∧ a.entity.id = x := by
      refine exists_of_forall_exists ?_ (fun id hid => ?_)
      · rintro id x y ⟨a, ha, -, hx⟩ ⟨a', ha', -, hy⟩
        rw [← hx, ← hy, ha.unique ha']
      · obtain ⟨id', a, hfound, hp, hid'⟩ := (hall id).mp ((hids id).mp hid)
        obtain ⟨e, hget, hmake⟩ := hfound
        exact ⟨id', (hids id').mpr ⟨e, hget⟩, a, ⟨e, hget, hmake⟩, hp, hid'⟩
    have hp : ∀ id a, s.Found g id a → p a = true := fun id a hfound => by
      obtain ⟨e, hget, hmake⟩ := hfound
      obtain ⟨-, a', hfound', hp, -⟩ := hevery id ((hids id).mpr ⟨e, hget⟩)
      rwa [← hfound'.unique ⟨e, hget, hmake⟩]
    refine ⟨hp, fun id => (hall id).trans ?_⟩
    exact exists_congr (fun id' => exists_congr (fun a =>
      and_congr_right (fun hfound => and_iff_right (hp id' a hfound))))
  · rintro ⟨hp, hall⟩ id
    refine (hall id).trans (exists_congr (fun id' => exists_congr (fun a => ?_)))
    exact and_congr_right (fun hfound => (and_iff_right (hp id' a hfound)).symm)

/-- **`find_one`** returned one match of all that is stored, all of which it left
locked. -/
theorem leavesHeld_findOne_iff {ids : List String} (htakes : s.Takes ids s')
    (hids : ∀ id, id ∈ ids ↔ s.Stored id) {es : List Entity} {o : Option (Agg σ)}
    (hfirst : firstOf g p es = .ok o)
    (hes : ∀ e, e ∈ es ↔ s.events.getOne e.id = .ok (some e)) :
    s.LeavesHeld s' (o.toList.map (fun a => a.entity.id))
      ↔ (∀ id, ¬ s.Stored id)
        ∨ ∃ id a, (∀ id', s.Stored id' ↔ id' = id) ∧ s.Found g id a ∧ p a = true
          ∧ a.entity.id = id := by
  rw [htakes.leavesHeld_iff]
  simp only [hids]
  cases o with
  | none =>
    show (∀ id, s.Stored id ↔ id ∈ []) ↔ _
    constructor
    · exact fun hall => Or.inl (fun id hstored => List.not_mem_nil ((hall id).mp hstored))
    · rintro (hnone | ⟨id, a, -, ⟨e, hget, hmake⟩, hp, -⟩)
      · exact fun id => iff_of_false (hnone id) List.not_mem_nil
      · obtain ⟨a', ha', hp'⟩ := firstOf_eq_none hfirst e
          ((hes e).mpr ((EventStore.id_of_getOne hget).symm ▸ hget))
        obtain rfl : a' = a := Except.ok.inj (ha'.symm.trans hmake)
        exact absurd (hp'.symm.trans hp) Bool.false_ne_true
  | some a =>
    obtain ⟨hp, hfound⟩ := firstOf_eq_some hfirst
    obtain ⟨id, e, hget, hmake⟩ := (found_iff hes a).mp hfound
    show (∀ id', s.Stored id' ↔ id' ∈ [a.entity.id]) ↔ _
    simp only [List.mem_singleton]
    constructor
    · intro hall
      obtain rfl := (hall id).mp ⟨e, hget⟩
      exact Or.inr ⟨_, a, hall, ⟨e, hget, hmake⟩, hp, rfl⟩
    · rintro (hnone | ⟨id', a', hall, hfound', -, hid⟩)
      · exact absurd ⟨e, hget⟩ (hnone id)
      · obtain rfl : id = id' := (hall id).mp ⟨e, hget⟩
        obtain rfl := hfound'.unique ⟨e, hget, hmake⟩
        rw [hid]
        exact hall

/-- **What the typed searches leave locked**, for any way to make an aggregate of
an entity that changes nothing. -/
theorem searchLocks (p : Agg σ → Bool) (hord : s.events.Enumerates ord)
    (hf : ∀ s₁, s₁.events = s.events → s₁.snapshots = s.snapshots → f.Makes ord s₁ g) :
    SearchLocks ord s s' g p (f.find AggregateRepository.queued.toRepo p)
      (f.findOne AggregateRepository.queued.toRepo p)
      (f.exists' AggregateRepository.queued.toRepo p)
      (f.count AggregateRepository.queued.toRepo p) := by
  have hfilter := fun r (h : Op.run ord _ s = some (r, s')) => run_search
    (fun es s₁ he hs => run_filter (p := p) (hf s₁ he hs) es) hord h
  have hfirst := fun r (h : Op.run ord _ s = some (r, s')) => run_search
    (fun es s₁ he hs => run_first (p := p) (hf s₁ he hs) es) hord h
  refine ⟨fun as h => ?_, fun o h => ?_, fun r h => ?_, fun r h => ?_⟩
  · obtain ⟨ids, htakes, hids, hok⟩ := hfilter _ h
    obtain ⟨es, hkeep, hes⟩ := hok as rfl
    exact leavesHeld_find_iff htakes hids hkeep hes
  · obtain ⟨ids, htakes, hids, hok⟩ := hfirst _ h
    obtain ⟨es, hone, hes⟩ := hok o rfl
    exact leavesHeld_findOne_iff htakes hids hone hes
  · obtain ⟨r', h'⟩ := run_map h
    obtain ⟨ids, htakes, hids, -⟩ := hfirst _ h'
    exact locked_eq_iff htakes hids
  · obtain ⟨r', h'⟩ := run_map h
    obtain ⟨ids, htakes, hids, -⟩ := hfilter _ h'
    exact locked_eq_iff htakes hids

end Hydrator

/-! ## The law -/

namespace QueuedRepository

open AggregateRepository (queued)

/-- **The typed searches leave held the locks of what they return and no others
exactly where nothing else is stored**: `find`, where all that is stored matches;
`find_one`, where nothing is stored but what it returns; `exists` and `count`,
which return no aggregate, where nothing is stored at all. It is the same with
snapshots. This is of calls that return, from any state of the locks. -/
theorem typed_searches_lock_iff (A : Aggregate σ) (B : Snapshottable σ) (now : SystemTime)
    (p : Agg σ → Bool) (s s' : Shared) (hord : s.events.Enumerates ord) :
    SearchLocks ord s s' (A.hydrate now) p
        (AggregateRepository.find queued.toRepo A now p)
        (AggregateRepository.findOne queued.toRepo A now p)
        (AggregateRepository.exists' queued.toRepo A now p)
        (AggregateRepository.count queued.toRepo A now p)
      ∧ SearchLocks ord s s'
        (fun e => SnapshotAggregateRepository.hydrateWithOptionalSnapshot A B now e
          (s.snapshots.getSnapshot e.id)) p
        (SnapshotAggregateRepository.find queued.toRepo A B now p)
        (SnapshotAggregateRepository.findOne queued.toRepo A B now p)
        (SnapshotAggregateRepository.exists' queued.toRepo A B now p)
        (SnapshotAggregateRepository.count queued.toRepo A B now p) := by
  refine ⟨Hydrator.searchLocks p hord (fun s₁ _ _ => AggregateRepository.makes_hydrator A now ord s₁),
    Hydrator.searchLocks p hord (fun s₁ _ hsnapshots e => ?_)⟩
  rw [← hsnapshots]
  rfl

/-- An aggregate without fields of its own, which replays every event. -/
def blank : Aggregate Unit := ⟨(), fun _ _ a => .ok a, []⟩

theorem hydrate_blank (now : SystemTime) (e : Entity) :
    blank.hydrate now e = .ok ⟨(), e.setReplaying false⟩ := by
  have hreplay : ∀ es a, blank.replayAll now es a = .ok a := fun es a => by
    induction es with
    | nil => rfl
    | cons e es ih => exact ih
  exact (Aggregate.hydrate_eq_ok blank now).mpr ⟨e.events, _, rfl, hreplay _ _, rfl⟩

/-- Its snapshots say nothing. -/
def blankSnapshot : Snapshottable Unit := ⟨Unit, Bitcode.unit.snapshotCodec, fun _ => (), fun a _ => a⟩

/-- **Where all that is stored matches** `find` leaves it held and nothing else. -/
theorem find_holds_all : ∃ (s' : Shared) (a : Agg Unit),
    Op.run ["todo-1"] (AggregateRepository.find queued.toRepo blank SystemTime.unixEpoch (fun _ => true))
        (oneStream []) = some (.ok [a], s')
      ∧ (oneStream []).LeavesHeld s' [a.entity.id] := by
  let s' := (oneStream []).setLocked "todo-1" true
  let a : Agg Unit := ⟨(), EventStore.loadEntity "todo-1" []⟩
  have hrun : Op.run ["todo-1"]
      (AggregateRepository.find queued.toRepo blank SystemTime.unixEpoch (fun _ => true)) (oneStream [])
        = some (.ok [a], s') := rfl
  have hfound : ∀ id b, (oneStream []).Found (blank.hydrate SystemTime.unixEpoch) id b →
      b.entity.id = id := by
    rintro id b ⟨e, hget, hb⟩
    rw [hydrate_blank] at hb
    obtain rfl := Except.ok.inj hb
    have hid : e.id = id := EventStore.id_of_getOne hget
    exact hid
  refine ⟨s', a, hrun, ((typed_searches_lock_iff blank blankSnapshot SystemTime.unixEpoch
    (fun _ => true) (oneStream []) s' (EventStore.enumerates_extend_new _ [])).1.find _ hrun).mpr
      ⟨fun _ _ _ => rfl, fun id => ⟨?_, ?_⟩⟩⟩
  · rintro ⟨e, hget⟩
    have hid : e.id = id := EventStore.id_of_getOne hget
    exact ⟨id, ⟨(), e.setReplaying false⟩, ⟨e, hget, hydrate_blank _ e⟩, hid⟩
  · rintro ⟨id', b, ⟨e, hget, hb⟩, hid⟩
    obtain rfl := hid.symm.trans (hfound id' b ⟨e, hget, hb⟩)
    exact ⟨e, hget⟩

/-- **A typed search that finds nothing leaves what is stored locked**: `find`
returns nothing, `exists` answers no, and either keeps the lock of the one
aggregate there is. The `exists` of the queued repository itself takes no lock. -/
theorem exists_leaves_locked : ∃ s' : Shared,
    Op.run ["todo-1"] (AggregateRepository.find queued.toRepo blank SystemTime.unixEpoch (fun _ => false))
        (oneStream []) = some (.ok [], s')
      ∧ ¬ (oneStream []).LeavesHeld s' []
      ∧ Op.run ["todo-1"]
          (AggregateRepository.exists' queued.toRepo blank SystemTime.unixEpoch (fun _ => false))
          (oneStream []) = some (.ok false, s')
      ∧ s'.locked ≠ (oneStream []).locked
      ∧ ∀ p, ∃ b, Op.run ["todo-1"] (queued.exists' p) (oneStream []) = some (.ok b, oneStream []) := by
  refine ⟨(oneStream []).setLocked "todo-1" true, rfl, fun h => ?_, rfl, fun h => ?_,
    fun p => ⟨_, rfl⟩⟩
  · exact absurd ((h "todo-1").mp ⟨rfl, rfl⟩) List.not_mem_nil
  · exact absurd (congrFun h "todo-1") (by decide)

end QueuedRepository
