import Sourced.EventStore

/-!
# Batches that name an id twice

A batch is committed in two passes: every version is compared with the store
before anything is written. The comparison of one entity does not see what
another entity of the same batch is about to append, so a batch with two
entities of one id passes it when both were loaded at the stored version.
Both then append, and the second continues a stream that is no longer the one
it was loaded from.

`EventStore.AllOrNothing` is what a batch commit should do, and
`EventStore.allOrNothing_iff` the condition under which it does: it fails, or
no two of its entities have the same id and both have new events.
-/

namespace EventStore

/-- **The entities a client can commit to a store**: made with an id, or
loaded from the store – as it is, or as it was when a stream was shorter –
and extended by events. -/
inductive FromStore (s : EventStore) : Entity → Prop
  | withId (id : String) : FromStore s (Entity.withId id)
  | load (id : String) (l : List EventRecord) (h : l <+: s.stream id) :
      FromStore s (loadEntity id l)
  | digest {T : Type} (e : Entity) (h : FromStore s e) (now : SystemTime) (name : String)
      (version : ℕ) (c : Bitcode T) (payload : T) :
      FromStore s (e.digestAt now name version c payload)
  | setMetadata (e : Entity) (h : FromStore s e) (m : Metadata) :
      FromStore s (e.setMetadata m)

theorem FromStore.tracks {s : EventStore}
    (hs : ∀ id, Numbered EventRecord.sequence (s.stream id)) {e : Entity}
    (h : FromStore s e) : e.Tracks (s.stream e.id) := by
  induction h with
  | withId id => exact Entity.Tracks.withId id _
  | load id l hl => exact (Entity.Tracks.load ((hs id).of_initial hl) _).mono hl
  | digest e _ now name version c payload ih =>
    rw [Entity.id_digestAt]
    exact ih.digestAt now name version c payload
  | setMetadata e _ m ih => exact ih.setMetadata m

/-- **What a batch commit should do**: when it fails, nothing has changed in
the store or in the batch; when it succeeds, the ids outside the batch have
what they had, every stream is numbered, and the stream read back for each
entity begins with the entity's events. -/
def AllOrNothing (s : EventStore) (es : List Entity) : Prop :=
  match s.commit es with
  | (.error _, es', s') => (∀ id, s'.lookup id = s.lookup id) ∧ es' = es
  | (.ok (), es', s') =>
    (∀ id ∉ es.map Entity.id, s'.lookup id = s.lookup id)
      ∧ (∀ id, Numbered EventRecord.sequence (s'.stream id))
      ∧ es'.map Entity.id = es.map Entity.id
      ∧ ∀ e ∈ es', ∃ stored, s'.getOne e.id = .ok (some stored) ∧ e.events <+: stored.events

/-- **No two entities of the batch have the same id and new events both.** -/
def OneWriterEach (es : List Entity) : Prop :=
  es.Pairwise (fun e f => e.id = f.id → e.uncommitted = [] ∨ f.uncommitted = [])

variable {s : EventStore} {es : List Entity}

theorem batchEvents_eq_flatten (es : List Entity) (id : String) :
    batchEvents es id
      = (es.map (fun e => if e.id = id then e.uncommitted else [])).flatten :=
  List.flatMap_def

/-- Each part continues the stored stream. -/
theorem numbered_append_part (hs : ∀ id, Numbered EventRecord.sequence (s.stream id))
    (hv : s.Valid es) (ht : s.Tracked es) (id : String) :
    ∀ part ∈ es.map (fun e => if e.id = id then e.uncommitted else []),
      Numbered EventRecord.sequence (s.stream id ++ part) := by
  intro part hpart
  obtain ⟨e, he, rfl⟩ := List.mem_map.mp hpart
  by_cases hid : e.id = id
  · subst hid
    rw [if_pos rfl, (ht e he).append_uncommitted (hv e he)]
    exact (ht e he).numbered
  · rw [if_neg hid, List.append_nil]
    exact hs id

/-- One writer for each id, seen at every id. -/
theorem oneWriterEach_iff :
    OneWriterEach es ↔ ∀ id, (es.map (fun e => if e.id = id then e.uncommitted else [])).Pairwise
      (fun a b => a = [] ∨ b = []) := by
  simp only [List.pairwise_map]
  simp only [OneWriterEach, List.pairwise_iff_getElem]
  constructor
  · intro h id i j hi hj hij
    by_cases hei : es[i].id = id
    · by_cases hej : es[j].id = id
      · rw [if_pos hei, if_pos hej]
        exact h i j hi hj hij (hei.trans hej.symm)
      · exact Or.inr (if_neg hej)
    · exact Or.inl (if_neg hei)
  · intro h i j hi hj hij hid
    simpa [hid] using h es[j].id i j hi hj hij

/-- **After a valid batch every stream is numbered** exactly where the batch
has one writer for each id. -/
theorem numbered_extendAll_iff (hs : ∀ id, Numbered EventRecord.sequence (s.stream id))
    (hv : s.Valid es) (ht : s.Tracked es) :
    (∀ id, Numbered EventRecord.sequence ((s.extendAll es).stream id)) ↔ OneWriterEach es := by
  rw [oneWriterEach_iff]
  refine forall_congr' (fun id => ?_)
  rw [stream_extendAll, batchEvents_eq_flatten]
  exact Numbered.append_flatten_iff (hs id) (numbered_append_part hs hv ht id)

/-- The stream read back after a valid batch with one writer for each id
begins with the events of every entity. -/
theorem prefix_stream_extendAll (hv : s.Valid es) (ht : s.Tracked es) (h : OneWriterEach es)
    {e : Entity} (he : e ∈ es) : e.events <+: (s.extendAll es).stream e.id := by
  rw [stream_extendAll, batchEvents_eq_flatten, ← (ht e he).append_uncommitted (hv e he),
    List.prefix_append_right_inj]
  refine Numbered.prefix_flatten (oneWriterEach_iff.mp h e.id) (List.mem_map.mpr ⟨e, he, ?_⟩)
  exact if_pos rfl

/-- **A batch that breaks a stream**: two entities made with one id, each with
its first event. Both versions agree with the empty store, and the stream
ends up with the number 1 twice. -/
theorem not_allOrNothing_twice :
    let e := (Entity.withId "todo-1").digest SystemTime.unixEpoch "Initialized" Bitcode.unit ()
    (∀ id, Numbered EventRecord.sequence (new.stream id)) ∧ (∀ f ∈ [e, e], FromStore new f)
      ∧ ¬ new.AllOrNothing [e, e] := by
  intro e
  refine ⟨fun id => Numbered.nil, fun f hf => ?_, fun h => ?_⟩
  · obtain rfl : f = e := by simpa using hf
    exact .digest _ (.withId "todo-1") _ _ _ _ _
  · unfold AllOrNothing at h
    rw [commit_of_valid rfl (by decide) (by decide)] at h
    exact absurd (h.2.1 "todo-1") (by decide)

/-- **A batch commit is all or nothing, and keeps the streams numbered,
exactly where** it fails – the lock is poisoned or a version differs – or no
two of its entities have the same id and new events both. -/
theorem allOrNothing_iff (hs : ∀ id, Numbered EventRecord.sequence (s.stream id))
    (hes : ∀ e ∈ es, FromStore s e) :
    s.AllOrNothing es ↔ s.poisoned = true ∨ ¬ s.Valid es ∨ OneWriterEach es := by
  have ht : s.Tracked es := fun e he => (hes e he).tracks hs
  unfold AllOrNothing
  cases hp : s.poisoned with
  | true =>
    rw [commit_of_poisoned es hp]
    exact iff_of_true ⟨fun _ => rfl, rfl⟩ (Or.inl rfl)
  | false =>
    rcases commit_cases hp ht with ⟨hv, hc⟩ | ⟨hv, e, -, hc⟩
    · rw [hc]
      constructor
      · intro h
        exact Or.inr (Or.inr ((numbered_extendAll_iff hs hv ht).mp h.2.1))
      · intro h
        have hone : OneWriterEach es := by
          rcases h with h | h | h
          · exact absurd h Bool.false_ne_true
          · exact absurd hv h
          · exact h
        refine ⟨fun id hid => lookup_extendAll_of_notMem s hid,
          (numbered_extendAll_iff hs hv ht).mpr hone, ?_, fun e' he' => ?_⟩
        · rw [List.map_map]
          exact List.map_congr_left (fun e _ => rfl)
        · obtain ⟨e, he, rfl⟩ := List.mem_map.mp he'
          obtain ⟨l, hl⟩ := Option.isSome_iff_exists.mp
            ((isSome_lookup_extendAll s es e.id).mpr (Or.inr ⟨e, he, rfl⟩))
          refine ⟨loadEntity e.id l, ?_, ?_⟩
          · rw [getOne_eq ((poisoned_extendAll s es).trans hp), Entity.id_markCommitted, hl]
            rfl
          · rw [events_loadEntity, ← lookup_eq_some hl, Entity.events_markCommitted]
            exact prefix_stream_extendAll hv ht hone he
    · rw [hc]
      exact iff_of_true ⟨fun _ => rfl, rfl⟩ (Or.inr (Or.inl hv))

/-- A batch of two ids, each made and given its first event. -/
theorem allOrNothing_two :
    new.AllOrNothing
      [(Entity.withId "todo-1").digest SystemTime.unixEpoch "Initialized" Bitcode.unit (),
        (Entity.withId "todo-2").digest SystemTime.unixEpoch "Initialized" Bitcode.unit ()] := by
  refine (allOrNothing_iff (fun _ => Numbered.nil) (fun e he => ?_)).mpr
    (Or.inr (Or.inr (by simp [OneWriterEach, Entity.withId, Entity.setId, Entity.digest])))
  rcases List.mem_pair.mp he with rfl | rfl
  · exact .digest _ (.withId "todo-1") _ _ _ _ _
  · exact .digest _ (.withId "todo-2") _ _ _ _ _

end EventStore
