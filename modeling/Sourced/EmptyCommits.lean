import Sourced.LockingReads
import Sourced.OutboxWorker

/-!
# Commits of nothing

An entity with no new events adds nothing to its stream. If the id has a stream
the commit writes back what is there, and no read can tell that there was a
commit. If it has none, `entry(id).or_insert_with(Vec::new)` makes one: the
id, which was not stored, is now stored with no events, and every read that
goes through the map finds an entity the batch did not record anything about.

The answer of a read that goes through the map depends on the order of its
keys, and two stores read the same where each can give the answers of the
other.
-/

open OutboxMessage (Codecs Readings)

namespace EventStore

/-- **An answer a store can give** to a read that goes through its keys. -/
def Answers {ρ : Type} (s : EventStore) (read : List String → EventStore → ρ) (r : ρ) : Prop :=
  ∃ ord, s.Enumerates ord ∧ read ord s = r

/-- **Two stores read the same**, at every id and under every predicate. -/
structure ReadsAs (checks : OverflowChecks) (C : Codecs) (s s' : EventStore) : Prop where
  getOne : ∀ id, s'.getOne id = s.getOne id
  getMany : ∀ ids, s'.getMany ids = s.getMany ids
  find : ∀ p r, s'.Answers (fun ord s => s.find ord p) r ↔ s.Answers (fun ord s => s.find ord p) r
  findOne : ∀ p r,
    s'.Answers (fun ord s => s.findOne ord p) r ↔ s.Answers (fun ord s => s.findOne ord p) r
  exists' : ∀ p r,
    s'.Answers (fun ord s => s.exists' ord p) r ↔ s.Answers (fun ord s => s.exists' ord p) r
  count : ∀ p r,
    s'.Answers (fun ord s => s.count ord p) r ↔ s.Answers (fun ord s => s.count ord p) r
  messages : ∀ (clock : String → Readings) status r,
    s'.Answers (fun ord s => s.outboxMessagesByStatus checks C ord clock status) r
      ↔ s.Answers (fun ord s => s.outboxMessagesByStatus checks C ord clock status) r

theorem ReadsAs.refl (checks : OverflowChecks) (C : Codecs) (s : EventStore) :
    s.ReadsAs checks C s :=
  ⟨fun _ => rfl, fun _ => rfl, fun _ _ => Iff.rfl, fun _ _ => Iff.rfl, fun _ _ => Iff.rfl,
    fun _ _ => Iff.rfl, fun _ _ _ => Iff.rfl⟩

variable {s : EventStore} {es : List Entity}

theorem uncommitted_of_newEvents {e : Entity} {new : List EventRecord} (h : e.newEvents = some new) :
    e.uncommitted = new := by
  unfold Entity.newEvents at h
  split at h
  · exact Option.some.inj h
  · cases h

/-- Writing back what is there changes nothing. -/
theorem extend_nil {id : String} (h : (s.lookup id).isSome) : s.extend id [] = s := by
  obtain ⟨l, hl⟩ := Option.isSome_iff_exists.mp h
  have hstreams : s.streams.insert id (s.stream id ++ []) = s.streams := by
    refine Finmap.ext_lookup (fun id' => ?_)
    by_cases hid : id' = id
    · subst hid
      rw [Finmap.lookup_insert, List.append_nil, lookup_eq_some hl]
      exact hl.symm
    · exact Finmap.lookup_insert_of_ne _ hid
  exact congrArg (fun m => { s with streams := m }) hstreams

theorem extendAll_of_empty (hnew : ∀ e ∈ es, e.uncommitted = [])
    (hstored : ∀ e ∈ es, (s.lookup e.id).isSome) : s.extendAll es = s := by
  induction es with
  | nil => rfl
  | cons e es ih =>
    rw [List.forall_mem_cons] at hnew hstored
    rw [extendAll, List.foldl_cons, hnew.1, extend_nil hstored.1]
    exact ih hnew.2 hstored.2

theorem commit_of_empty (hnew : ∀ e ∈ es, e.newEvents = some []) (hp : s.poisoned = false)
    (hv : s.Valid es) : (s.commit es).2.2 = s.extendAll es := by
  rw [commit_of_valid hp hv (fun e he => by rw [hnew e he, uncommitted_of_newEvents (hnew e he)])]

/-- **When a commit of nothing cannot be told**: the commit is refused, or every
id of the batch has a stream already. An id that had none is stored with an empty stream,
and is found from then on. -/
theorem reads_after_empty_commit_iff (checks : OverflowChecks) (C : Codecs)
    (hnew : ∀ e ∈ es, e.newEvents = some []) :
    s.ReadsAs checks C (s.commit es).2.2
      ↔ s.poisoned = true ∨ ¬ s.Valid es ∨ ∀ e ∈ es, (s.lookup e.id).isSome := by
  constructor
  · intro hreads
    cases hp : s.poisoned with
    | true => exact Or.inl rfl
    | false =>
      by_cases hv : s.Valid es
      · refine Or.inr (Or.inr (fun e he => ?_))
        have hget := hreads.getOne e.id
        rw [commit_of_empty hnew hp hv, getOne_eq hp, getOne_eq ((poisoned_extendAll s es).trans hp)]
          at hget
        have hsome := congrArg Option.isSome (Except.ok.inj hget)
        rw [Option.isSome_map, Option.isSome_map] at hsome
        rw [← hsome]
        exact (isSome_lookup_extendAll s es e.id).mpr (Or.inr ⟨e, he, rfl⟩)
      · exact Or.inr (Or.inl hv)
  · intro h
    have hsame : (s.commit es).2.2 = s := by
      cases hp : s.poisoned with
      | true => rw [commit_of_poisoned es hp]
      | false =>
        by_cases hv : s.Valid es
        · rw [commit_of_empty hnew hp hv]
          refine extendAll_of_empty (fun e he => uncommitted_of_newEvents (hnew e he)) ?_
          simpa [hp, hv] using h
        · obtain ⟨e, -, hcommit⟩ := commit_of_not_valid hp hv
          rw [hcommit]
    rw [hsame]
    exact ReadsAs.refl checks C s

/-- The entity of a stream that is there is committed again unnoticed. -/
theorem reads_after_empty_commit_iff_loaded :
    let created := EventRecord.new "Created" [] 1 SystemTime.unixEpoch
    let s := EventStore.new.extend "todo-1" [created]
    s.ReadsAs true Codecs.counting (s.commit [loadEntity "todo-1" [created]]).2.2 := by
  intro created s
  refine (reads_after_empty_commit_iff true Codecs.counting ?_).mpr (Or.inr (Or.inr ?_))
  · intro e he
    rw [List.mem_singleton.mp he]
    rfl
  · intro e he
    rw [List.mem_singleton.mp he]
    rfl

/-- **A fresh entity is stored** by a commit of nothing: the store that had no
entity reads one. -/
theorem fresh_empty_commit_stores :
    (Entity.withId "todo-1").newEvents = some []
      ∧ (EventStore.new.getOne "todo-1" = .ok none)
      ∧ ((EventStore.new.commit [Entity.withId "todo-1"]).2.2.getOne "todo-1"
        = .ok (some (Entity.withId "todo-1")))
      ∧ ¬ EventStore.new.ReadsAs true Codecs.counting
        (EventStore.new.commit [Entity.withId "todo-1"]).2.2 := by
  have hafter : (EventStore.new.commit [Entity.withId "todo-1"]).2.2.getOne "todo-1"
      = .ok (some (Entity.withId "todo-1")) := rfl
  refine ⟨rfl, rfl, hafter, fun h => ?_⟩
  have hsame := h.getOne "todo-1"
  rw [hafter] at hsame
  cases hsame

end EventStore
