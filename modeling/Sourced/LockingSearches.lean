import Sourced.LockHistory

/-!
# What a locking search leaves locked

`find` of a `QueuedRepository` searches without locks, takes the locks of the
matches, and fetches each match again, since others can have moved in between.
A match that is gone or no longer matches is left out of the result – and its
lock is kept, where `find_one` releases it. The search therefore leaves held
what it returns exactly where every match is found to match again
(`QueuedRepository.searches_leave_held_iff`). What it does return matched while its
lock was held.

The runs here are runs among others: at every action of the search the store
can be any, whatever it was before.
-/

/-- An action of a repository observed. -/
abbrev Observed := Observation RepoAction RepoAction.Resp Shared

namespace Observed

/-- **The locks held** after some actions of one's own. -/
def held : List Observed → Finset String → Finset String
  | [], locks => locks
  | o :: t, locks => held t (LockHistory.heldAfter o.action o.response locks)

theorem held_append (t t' : List Observed) (locks : Finset String) :
    held (t ++ t') locks = held t' (held t locks) := by
  induction t generalizing locks with
  | nil => rfl
  | cons o t ih => exact ih _

/-- A point read found the entity. -/
def Finds (o : Observed) (e : Entity) : Prop :=
  o.action = .getOne e.id ∧ o.before.events.getOne e.id = .ok (some e)

/-- **The entity matched in a state observed while its lock was held.** -/
def MatchedHeld (p : Entity → Bool) (t : List Observed) (e : Entity) : Prop :=
  p e = true ∧ ∃ t₁ o t₂, t = t₁ ++ o :: t₂ ∧ o.Finds e ∧ e.id ∈ held t₁ ∅

/-- **What is read again still matches.** -/
def StillMatches (p : Entity → Bool) (t : List Observed) : Prop :=
  ∀ o ∈ t, ∀ id, o.action = .getOne id → ∃ e, o.before.events.getOne id = .ok (some e) ∧ p e = true

end Observed

namespace QueuedRepository

variable {s s' : Shared}

/-- Runs of repository calls among others. -/
abbrev Among {α : Type} (p : Op α) (t : List Observed) (r : RepoRes α) : Prop :=
  Prog.Among (fun a => RepoAction.Sem a) p t r

theorem among_acquire {id : String} {t : List Observed} (h : Among (acquire id) t (.ok ()))
    (locks : Finset String) :
    Observed.held t locks = insert id locks ∧ t.map Observation.action = [.lock id] := by
  obtain ⟨s, r, s', u, rfl, hsem, hret⟩ := Prog.among_act.mp h
  obtain ⟨rfl, -⟩ := Prog.among_ret.mp hret
  obtain ⟨-, rfl, -⟩ := RepoAction.sem_lock.mp hsem
  exact ⟨rfl, rfl⟩

theorem among_release {id : String} {t : List Observed} (h : Among (release id) t (.ok ()))
    (locks : Finset String) :
    Observed.held t locks = locks.erase id ∧ t.map Observation.action = [.unlock id] := by
  obtain ⟨s, r, s', u, rfl, hsem, hret⟩ := Prog.among_act.mp h
  obtain ⟨rfl, -⟩ := Prog.among_ret.mp hret
  obtain ⟨rfl, -⟩ := RepoAction.sem_unlock.mp hsem
  exact ⟨rfl, rfl⟩

/-- **Locks taken in turn.** -/
theorem among_acquireAll {ids : List String} {t : List Observed}
    (h : Among (acquireAll ids) t (.ok ())) (locks : Finset String) :
    Observed.held t locks = locks ∪ ids.toFinset
      ∧ t.map Observation.action = ids.map RepoAction.lock := by
  induction ids generalizing t locks with
  | nil =>
    obtain ⟨rfl, -⟩ := Prog.among_ret.mp h
    exact ⟨(Finset.union_empty _).symm, rfl⟩
  | cons id ids ih =>
    obtain ⟨t₁, t₂, ⟨⟩, rfl, hid, hids⟩ := Call.among_andThen_ok.mp h
    obtain ⟨hheld, hact⟩ := among_acquire hid locks
    obtain ⟨hheld', hact'⟩ := ih hids (Observed.held t₁ locks)
    refine ⟨?_, ?_⟩
    · rw [Observed.held_append, hheld', hheld, List.toFinset_cons, Finset.union_insert,
        Finset.insert_union]
    · rw [List.map_append, hact, hact']
      rfl

theorem among_getOne {id : String} {t : List Observed} {entity : Option Entity}
    (h : Among (HashMapRepository.getOne id) t (.ok entity)) :
    ∃ o : Observed, t = [o] ∧ o.action = .getOne id ∧ o.before.events.getOne id = .ok entity := by
  obtain ⟨s, r, s', u, rfl, hsem, hret⟩ := Prog.among_act.mp h
  obtain ⟨rfl, hr⟩ := Prog.among_ret.mp hret
  obtain ⟨rfl, -⟩ := RepoAction.sem_getOne.mp hsem
  exact ⟨_, rfl, rfl, hr.symm⟩

/-- **The matches fetched again**: one read of each, and what is found to match is
returned. -/
theorem among_refetch {p : Entity → Bool} {ids : List String} {t : List Observed} {es : List Entity}
    (h : Among (refetch hashMapRepository p ids) t (.ok es)) :
    t.map Observation.action = ids.map RepoAction.getOne
      ∧ ∀ e, e ∈ es ↔ p e = true ∧ ∃ o ∈ t, o.Finds e := by
  induction ids generalizing t es with
  | nil =>
    obtain ⟨rfl, hes⟩ := Prog.among_ret.mp h
    obtain rfl : es = [] := Except.ok.inj hes
    exact ⟨rfl, by simp⟩
  | cons id ids ih =>
    obtain ⟨t₁, t₂, ys, rfl, hid, hrest⟩ := Call.among_andThen_ok.mp h
    obtain ⟨u, v, entity, rfl, hget, hret⟩ := Call.among_andThen_ok.mp hid
    obtain ⟨o, rfl, haction, hread⟩ := among_getOne hget
    obtain ⟨rfl, hys⟩ := Prog.among_ret.mp hret
    obtain ⟨w, v', zs, rfl, hcollect, hret'⟩ := Call.among_andThen_ok.mp hrest
    obtain ⟨rfl, hes⟩ := Prog.among_ret.mp hret'
    obtain rfl : ys = entity.toList.filter p := Except.ok.inj hys
    obtain rfl : es = entity.toList.filter p ++ zs := Except.ok.inj hes
    obtain ⟨hactions, hmem⟩ := ih hcollect
    refine ⟨?_, fun e => ?_⟩
    · rw [List.append_nil, List.append_nil, List.map_append, hactions, List.map_cons, haction]
      rfl
    · have hfirst : e ∈ entity.toList.filter p ↔ p e = true ∧ o.Finds e := by
        rw [List.mem_filter, Option.mem_toList, and_comm]
        refine and_congr_right' ⟨?_, fun ⟨haction', hread'⟩ => ?_⟩
        · rintro rfl
          rw [← EventStore.id_of_getOne hread] at haction hread
          exact ⟨haction, hread⟩
        · obtain rfl : id = e.id := RepoAction.getOne.inj (haction.symm.trans haction')
          exact Except.ok.inj (hread.symm.trans hread')
      rw [List.mem_append, hfirst, hmem e, ← and_or_left]
      simp

/-- Point reads change no locks. -/
theorem held_of_getOne {ids : List String} {t : List Observed}
    (h : t.map Observation.action = ids.map RepoAction.getOne) (locks : Finset String) :
    Observed.held t locks = locks := by
  induction t generalizing ids with
  | nil => rfl
  | cons o t ih =>
    cases ids with
    | nil => cases h
    | cons id ids =>
      obtain ⟨ho, ht⟩ := List.cons.inj h
      obtain ⟨action, s, r, s'⟩ := o
      obtain rfl : action = .getOne id := ho
      exact ih ht

/-- The first pass of `find`: the matches have distinct ids. -/
theorem nodup_of_find {p : Entity → Bool} {es : List Entity}
    (h : (RepoAction.find p).Sem s (.ok es) s') : (es.map Entity.id).Nodup := by
  obtain ⟨ord, ⟨hnd, -⟩, hexec⟩ := h
  have hes : s.events.find ord p = .ok es := (Prod.mk.inj (Option.some.inj hexec)).1
  unfold EventStore.find at hes
  cases hp : s.events.poisoned with
  | true => rw [hp] at hes; cases hes
  | false =>
    rw [hp] at hes
    obtain rfl := Except.ok.inj hes
    exact (hnd.sublist (EventStore.ids_entities_sublist ord s.events)).sublist
      (List.filter_sublist.map Entity.id)

/-- **`find` among others**: the locks of the first pass are taken, each match is
read again, and what still matches is returned. -/
theorem among_find {p : Entity → Bool} {t : List Observed} {es : List Entity}
    (h : Among (find hashMapRepository p) t (.ok es)) :
    ∃ (ids : List String) (t₁ t₂ : List Observed), t = t₁ ++ t₂ ∧ ids.Nodup
      ∧ Observed.held t₁ ∅ = ids.toFinset ∧ (∀ o ∈ t₁, ∀ id, o.action ≠ .getOne id)
      ∧ t₂.map Observation.action = ids.map RepoAction.getOne
      ∧ ∀ e, e ∈ es ↔ p e = true ∧ ∃ o ∈ t₂, o.Finds e := by
  obtain ⟨s, r, s', u, rfl, hsem, hrest⟩ := Prog.among_act.mp h
  cases r with
  | error f => exact absurd (Prog.among_ret.mp hrest).2 (by simp)
  | ok entities =>
    have hrest' : Among ((lockIdsInOrder (entities.map Entity.id)).andThen
      (fun _ => refetch hashMapRepository p (entities.map Entity.id))) u (.ok es) := hrest
    obtain ⟨t₁, t₂, ⟨⟩, rfl, hlocks, hrefetch⟩ := Call.among_andThen_ok.mp hrest'
    obtain ⟨hheld, hactions⟩ := among_acquireAll hlocks ∅
    obtain ⟨hactions', hmem⟩ := among_refetch hrefetch
    refine ⟨entities.map Entity.id, ⟨_, s, _, s'⟩ :: t₁, t₂, rfl, nodup_of_find hsem, ?_, ?_,
      hactions', hmem⟩
    · show Observed.held t₁ ∅ = _
      rw [hheld, Finset.empty_union]
      ext id
      rw [List.mem_toFinset, List.mem_toFinset, mem_sortDedup]
    · intro o ho id
      rcases List.mem_cons.mp ho with rfl | ho
      · exact RepoAction.noConfusion
      · have hmem := List.mem_map_of_mem (f := Observation.action) ho
        rw [hactions] at hmem
        obtain ⟨id', -, haction⟩ := List.mem_map.mp hmem
        rw [← haction]
        exact RepoAction.noConfusion

/-- **`find_one` among others**: it returns an entity that it read under its lock
and that matched, and holds the lock; or it returns nothing and holds none. -/
theorem among_findOne {p : Entity → Bool} {t : List Observed} {entity : Option Entity}
    (h : Among (findOne hashMapRepository p) t (.ok entity)) :
    (∀ id, id ∈ Observed.held t ∅ ↔ id ∈ entity.toList.map Entity.id)
      ∧ ∀ e ∈ entity, Observed.MatchedHeld p t e := by
  obtain ⟨s, r, s', u, rfl, hsem, hrest⟩ := Prog.among_act.mp h
  cases r with
  | error f => exact absurd (Prog.among_ret.mp hrest).2 (by simp)
  | ok found =>
    cases found with
    | none =>
      obtain ⟨rfl, he⟩ := Prog.among_ret.mp hrest
      obtain rfl : entity = none := Except.ok.inj he
      exact ⟨fun id => Iff.rfl, fun e he => absurd he (by simp)⟩
    | some found =>
      have hrest' : Among ((acquire found.id).andThen (fun _ =>
        (HashMapRepository.getOne found.id).andThen (fun current =>
          if current.any p then Call.done (.ok current)
          else (release found.id).andThen (fun _ => Call.done (.ok none))))) u (.ok entity) := hrest
      obtain ⟨t₁, t₂, ⟨⟩, rfl, hlock, hread⟩ := Call.among_andThen_ok.mp hrest'
      obtain ⟨u, v, current, rfl, hget, htail⟩ := Call.among_andThen_ok.mp hread
      obtain ⟨o, rfl, haction, hgot⟩ := among_getOne hget
      obtain ⟨hlocked, -⟩ := among_acquire hlock ∅
      have hheld : Observed.held (⟨.findOne p, s, .ok (some found), s'⟩ :: (t₁ ++ ([o] ++ v))) ∅
          = Observed.held v {found.id} := by
        have hactions : [o].map Observation.action = [found.id].map RepoAction.getOne :=
          congrArg (fun a => [a]) haction
        show Observed.held (t₁ ++ ([o] ++ v)) ∅ = _
        rw [Observed.held_append, hlocked, Observed.held_append, held_of_getOne hactions]
        rfl
      by_cases hp : current.any p = true
      · rw [if_pos hp] at htail
        obtain ⟨rfl, he⟩ := Prog.among_ret.mp htail
        obtain rfl : entity = current := Except.ok.inj he
        obtain ⟨e, rfl⟩ : ∃ e, entity = some e := by
          cases entity with
          | none => exact absurd hp Bool.false_ne_true
          | some e => exact ⟨e, rfl⟩
        have hpe : p e = true := hp
        have hid : e.id = found.id := EventStore.id_of_getOne hgot
        refine ⟨fun id => ?_, fun e' he' => ?_⟩
        · rw [hheld]
          show id ∈ ({found.id} : Finset String) ↔ id ∈ [e.id]
          rw [Finset.mem_singleton, List.mem_singleton, hid]
        · obtain rfl := Option.some.inj he'
          rw [← hid] at haction hgot hlocked
          refine ⟨hpe, ⟨.findOne p, s, .ok (some found), s'⟩ :: t₁, o, [], rfl, ⟨haction, hgot⟩, ?_⟩
          show e.id ∈ Observed.held t₁ ∅
          rw [hlocked]
          exact Finset.mem_insert_self _ _
      · rw [if_neg hp] at htail
        obtain ⟨w, w', ⟨⟩, rfl, hrelease, hret⟩ := Call.among_andThen_ok.mp htail
        obtain ⟨rfl, he⟩ := Prog.among_ret.mp hret
        obtain rfl : entity = none := Except.ok.inj he
        refine ⟨fun id => ?_, fun e he => absurd he (by simp)⟩
        rw [hheld, List.append_nil, (among_release hrelease _).1]
        simp

/-- What `find` returns matched while its lock was held. -/
theorem matchedHeld_of_find {p : Entity → Bool} {t₁ t₂ : List Observed} {ids : List String}
    (hheld : Observed.held t₁ ∅ = ids.toFinset)
    (hactions : t₂.map Observation.action = ids.map RepoAction.getOne) {e : Entity} (hp : p e = true)
    {o : Observed} (ho : o ∈ t₂) (hfinds : o.Finds e) : Observed.MatchedHeld p (t₁ ++ t₂) e := by
  obtain ⟨u, v, rfl⟩ := List.append_of_mem ho
  refine ⟨hp, t₁ ++ u, o, v, by simp, hfinds, ?_⟩
  -- the reads before this one are of ids too
  obtain ⟨ids₁, ids₂, rfl, hu, hv⟩ := List.map_eq_append_iff.mp (hactions.symm.trans List.map_append)
  obtain ⟨id, ids₃, rfl, hid, -⟩ := List.map_eq_cons_iff.mp hv
  rw [Observed.held_append, held_of_getOne hu.symm, hheld, List.mem_toFinset]
  obtain rfl : id = e.id := RepoAction.getOne.inj (hid.trans hfinds.1)
  exact List.mem_append_right _ List.mem_cons_self

/-- **A locking search leaves held what it returns.** `find_one` always does;
`find` does exactly where every match of its first pass still matches when it
is read again, under its lock. What either returns matched in a state observed
while its lock was held. -/
theorem searches_leave_held_iff (p : Entity → Bool) (t : List Observed) :
    (∀ es, Among (find hashMapRepository p) t (.ok es) →
        ((∀ id, id ∈ Observed.held t ∅ ↔ id ∈ es.map Entity.id)
            ∧ (∀ e ∈ es, Observed.MatchedHeld p t e)
          ↔ Observed.StillMatches p t))
      ∧ ∀ entity, Among (findOne hashMapRepository p) t (.ok entity) →
        (∀ id, id ∈ Observed.held t ∅ ↔ id ∈ entity.toList.map Entity.id)
          ∧ ∀ e ∈ entity, Observed.MatchedHeld p t e := by
  refine ⟨fun es h => ?_, fun entity => among_findOne⟩
  obtain ⟨ids, t₁, t₂, rfl, hnd, hheld, hnone, hactions, hmem⟩ := among_find h
  have hmatched : ∀ e ∈ es, Observed.MatchedHeld p (t₁ ++ t₂) e := fun e he => by
    obtain ⟨hp, o, ho, hfinds⟩ := (hmem e).mp he
    exact matchedHeld_of_find hheld hactions hp ho hfinds
  -- what is held at the end are the ids of the first pass, each of which is read again once
  have hend : ∀ id, id ∈ Observed.held (t₁ ++ t₂) ∅ ↔ id ∈ ids := fun id => by
    rw [Observed.held_append, held_of_getOne hactions, hheld, List.mem_toFinset]
  have hread : ∀ id ∈ ids, ∃ o ∈ t₂, o.action = .getOne id := fun id hid => by
    have hact : RepoAction.getOne id ∈ t₂.map Observation.action :=
      hactions ▸ List.mem_map_of_mem hid
    exact List.mem_map.mp hact
  have hids : ∀ o ∈ t₂, ∀ id, o.action = .getOne id → id ∈ ids := fun o ho id haction => by
    refine (List.mem_map_of_injective (fun _ _ => RepoAction.getOne.inj)).mp ?_
    rw [← hactions, ← haction]
    exact List.mem_map_of_mem ho
  have honce : ∀ o ∈ t₂, ∀ o' ∈ t₂, o.action = o'.action → o = o' := by
    refine fun o ho o' ho' heq => List.inj_on_of_nodup_map (f := Observation.action) ?_ ho ho' heq
    rw [hactions]
    exact hnd.map (fun _ _ => RepoAction.getOne.inj)
  rw [and_iff_left hmatched]
  constructor
  · intro hall o ho id haction
    rcases List.mem_append.mp ho with ho | ho
    · exact absurd haction (hnone o ho id)
    · have hid := hids o ho id haction
      obtain ⟨e, he, rfl⟩ := List.mem_map.mp ((hall id).mp ((hend id).mpr hid))
      obtain ⟨hp, o', ho', haction', hread'⟩ := (hmem e).mp he
      obtain rfl := honce o ho o' ho' (haction.trans haction'.symm)
      exact ⟨e, hread', hp⟩
  · intro hstill id
    rw [hend id]
    constructor
    · intro hid
      obtain ⟨o, ho, haction⟩ := hread id hid
      obtain ⟨e, hget, hp⟩ := hstill o (List.mem_append_right _ ho) id haction
      obtain rfl := EventStore.id_of_getOne hget
      exact List.mem_map.mpr ⟨e, (hmem e).mpr ⟨hp, o, ho, haction, hget⟩, rfl⟩
    · intro hid
      obtain ⟨e, he, rfl⟩ := List.mem_map.mp hid
      obtain ⟨-, o, ho, haction, -⟩ := (hmem e).mp he
      exact hids o ho e.id haction

/-! ## A search that finds a match gone -/

/-- A store with one stream, under "todo-1". -/
def oneStream (stream : List EventRecord) : Shared :=
  ⟨EventStore.new.extend "todo-1" stream, SnapshotStore.new, fun _ => false⟩

/-- A search for the entities without events. -/
def unstarted (e : Entity) : Bool := e.events.isEmpty

/-- The search with the first pass in a store where the stream is empty, and the
rest in one where it may not be. -/
def searched (stream : List EventRecord) : List Observed :=
  [⟨.find unstarted, oneStream [], .ok [EventStore.loadEntity "todo-1" []], oneStream []⟩,
    ⟨.lock "todo-1", oneStream stream, .ok (), (oneStream stream).setLocked "todo-1" true⟩,
    ⟨.getOne "todo-1", oneStream stream, .ok (some (EventStore.loadEntity "todo-1" stream)),
      oneStream stream⟩]

theorem among_searched (stream : List EventRecord) :
    Among (find hashMapRepository unstarted) (searched stream)
      (.ok ([EventStore.loadEntity "todo-1" stream].filter unstarted ++ [])) :=
  .act ⟨["todo-1"], EventStore.enumerates_extend_new _ [], rfl⟩ (.act (RepoAction.sem_lock.mpr ⟨rfl, rfl, rfl⟩)
    (.act (RepoAction.sem_getOne.mpr ⟨rfl, rfl⟩) (.ret _)))

/-- **A match that is gone stays locked**: the entity found without events has one
when it is read again. It is not returned, and its lock is held. -/
theorem find_keeps_dropped : ∃ t, Among (find hashMapRepository unstarted) t (.ok [])
    ∧ "todo-1" ∈ Observed.held t ∅
    ∧ ¬ ((∀ id, id ∈ Observed.held t ∅ ↔ id ∈ ([] : List Entity).map Entity.id)
        ∧ ∀ e ∈ ([] : List Entity), Observed.MatchedHeld unstarted t e) := by
  let stream := [EventRecord.new "Initialized" [] 1 SystemTime.unixEpoch]
  refine ⟨searched stream, among_searched stream, by decide, fun h => ?_⟩
  exact absurd ((h.1 "todo-1").mp (by decide)) List.not_mem_nil

/-- **A match that still matches** is returned, and its lock is what is held. -/
theorem find_holds_returned : ∃ t e, Among (find hashMapRepository unstarted) t (.ok [e])
    ∧ (∀ id, id ∈ Observed.held t ∅ ↔ id ∈ [e].map Entity.id)
    ∧ Observed.MatchedHeld unstarted t e := by
  have hstill : Observed.StillMatches unstarted (searched []) := by
    intro o ho id haction
    simp only [searched, List.mem_cons, List.not_mem_nil, or_false] at ho
    rcases ho with rfl | rfl | rfl
    · cases haction
    · cases haction
    · obtain rfl : "todo-1" = id := RepoAction.getOne.inj haction
      exact ⟨EventStore.loadEntity "todo-1" [], rfl, rfl⟩
  obtain ⟨hheld, hmatched⟩ :=
    ((searches_leave_held_iff unstarted (searched [])).1 _ (among_searched [])).mpr hstill
  exact ⟨_, _, among_searched [], hheld, hmatched _ (List.mem_singleton_self _)⟩

end QueuedRepository
