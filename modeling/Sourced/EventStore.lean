import Sourced.Entity
import Sourced.RepositoryError

/-!
# The event store of `HashMapRepository`

The event part of the in-memory repository (`hashmap_repo/repository.rs`): a
map from ids to streams behind a read-write lock. Every operation here holds
that lock from beginning to end, so each is one atomic step of whoever calls
it.

The order in which a `HashMap` is iterated is not part of its content. The
searches take it as an argument, an enumeration of the keys
(`EventStore.Enumerates`), and are stated for all of them.

A panic while the write lock is held poisons it, and every later operation
then fails. The one panic there is, a slice out of range in the middle of a
commit, cannot happen to entities that track their streams; what a commit of
such entities does is `EventStore.commit_of_valid`.
-/

/-- **The event store**: the stream under each id, and whether the lock is
poisoned. -/
structure EventStore where
  streams : Finmap (fun _ : String => List EventRecord)
  poisoned : Bool

namespace EventStore

/-- `HashMapRepository::new`. -/
def new : EventStore := ⟨∅, false⟩

/-- `storage.get(id)`. -/
def lookup (s : EventStore) (id : String) : Option (List EventRecord) := s.streams.lookup id

/-- The stream under an id, empty where nothing is stored. -/
def stream (s : EventStore) (id : String) : List EventRecord := (s.lookup id).getD []

/-- The entity of a stream: an empty one with the id set and the history
loaded, which is how every read builds its result. -/
def loadEntity (id : String) (events : List EventRecord) : Entity :=
  (Entity.new.setId id).loadFromHistory events

/-! ## Reads -/

/-- `GetOne for HashMapRepository`. -/
def getOne (s : EventStore) (id : String) : RepoRes (Option Entity) :=
  if s.poisoned then .error (.err (.lockPoisoned "read"))
  else .ok ((s.lookup id).map (loadEntity id))

/-- **An order of iteration**: every key of the map, once. -/
def Enumerates (s : EventStore) (ord : List String) : Prop :=
  ord.Nodup ∧ ∀ id, id ∈ ord ↔ (s.lookup id).isSome

theorem exists_enumerates (s : EventStore) : ∃ ord, s.Enumerates ord := by
  refine ⟨s.streams.keys.toList, Finset.nodup_toList _, fun id => ?_⟩
  rw [Finset.mem_toList, Finmap.mem_keys, lookup, Finmap.lookup_isSome]

/-- The entities of the store, in an order of iteration. -/
def entities (ord : List String) (s : EventStore) : List Entity :=
  ord.filterMap (fun id => (s.lookup id).map (loadEntity id))

/-- `Find for HashMapRepository`. -/
def find (ord : List String) (s : EventStore) (p : Entity → Bool) : RepoRes (List Entity) :=
  if s.poisoned then .error (.err (.lockPoisoned "read"))
  else .ok ((s.entities ord).filter p)

/-- `FindOne for HashMapRepository`. -/
def findOne (ord : List String) (s : EventStore) (p : Entity → Bool) :
    RepoRes (Option Entity) :=
  if s.poisoned then .error (.err (.lockPoisoned "read"))
  else .ok ((s.entities ord).find? p)

/-- `Exists for HashMapRepository`. -/
def exists' (ord : List String) (s : EventStore) (p : Entity → Bool) : RepoRes Bool :=
  if s.poisoned then .error (.err (.lockPoisoned "read"))
  else .ok ((s.entities ord).any p)

/-- `Count for HashMapRepository`. -/
def count (ord : List String) (s : EventStore) (p : Entity → Bool) : RepoRes ℕ :=
  if s.poisoned then .error (.err (.lockPoisoned "read"))
  else .ok ((s.entities ord).countP p)

/-! ## Commit -/

/-- The first pass of `commit`: the stored length of every entity's stream is
compared with the version the entity was loaded at, and the first that
differs is reported. -/
def validate (s : EventStore) : List Entity → RepoRes Unit
  | [] => .ok ()
  | e :: es =>
    if (s.stream e.id).length ≠ e.committedVersion then
      .error (.err (.concurrentWrite e.id e.committedVersion (s.stream e.id).length))
    else validate s es

/-- `storage.entry(id).or_insert_with(Vec::new)`, extended. -/
def extend (s : EventStore) (id : String) (new : List EventRecord) : EventStore :=
  { s with streams := s.streams.insert id (s.stream id ++ new) }

/-- The second pass of `commit`: the new events of each entity are appended
and the entity is marked. A slice out of range panics with the write lock
held, which leaves what was written so far and poisons the lock. -/
def append (s : EventStore) : List Entity → RepoRes Unit × List Entity × EventStore
  | [] => (.ok (), [], s)
  | e :: es =>
    match e.newEvents with
    | none => (.error .panic, e :: es, { s with poisoned := true })
    | some new =>
      let (r, es', s') := append (s.extend e.id new) es
      (r, e.markCommitted :: es', s')

/-- **`Commit for HashMapRepository`**: the outcome, the entities as the call
leaves them, and the store. -/
def commit (s : EventStore) (es : List Entity) : RepoRes Unit × List Entity × EventStore :=
  if s.poisoned then (.error (.err (.lockPoisoned "write")), es, s)
  else
    match s.validate es with
    | .error e => (.error e, es, s)
    | .ok () => s.append es

/-! ## Lookups -/

@[simp] theorem id_loadEntity (id : String) (l : List EventRecord) :
    (loadEntity id l).id = id := rfl
@[simp] theorem events_loadEntity (id : String) (l : List EventRecord) :
    (loadEntity id l).events = l := rfl

@[simp] theorem poisoned_extend (s : EventStore) (id : String) (new : List EventRecord) :
    (s.extend id new).poisoned = s.poisoned := rfl

@[simp] theorem lookup_extend_self (s : EventStore) (id : String) (new : List EventRecord) :
    (s.extend id new).lookup id = some (s.stream id ++ new) :=
  Finmap.lookup_insert _

theorem lookup_extend_of_ne (s : EventStore) {id id' : String} (h : id' ≠ id)
    (new : List EventRecord) : (s.extend id new).lookup id' = s.lookup id' :=
  Finmap.lookup_insert_of_ne _ h

/-- **A store with one stream** is iterated in one way. -/
theorem enumerates_extend_new (id : String) (l : List EventRecord) :
    (new.extend id l).Enumerates [id] := by
  refine ⟨List.nodup_singleton _, fun id' => ?_⟩
  rw [List.mem_singleton]
  by_cases h : id' = id
  · subst h
    rw [lookup_extend_self]
    exact iff_of_true rfl rfl
  · rw [lookup_extend_of_ne _ h]
    exact iff_of_false h (by simp [new, lookup])

@[simp] theorem stream_extend_self (s : EventStore) (id : String) (new : List EventRecord) :
    (s.extend id new).stream id = s.stream id ++ new := by
  rw [stream, lookup_extend_self]
  rfl

theorem stream_extend_of_ne (s : EventStore) {id id' : String} (h : id' ≠ id)
    (new : List EventRecord) : (s.extend id new).stream id' = s.stream id' := by
  rw [stream, lookup_extend_of_ne s h, stream]

theorem stream_extend (s : EventStore) (id id' : String) (new : List EventRecord) :
    (s.extend id new).stream id' = s.stream id' ++ (if id = id' then new else []) := by
  by_cases h : id = id'
  · subst h
    rw [stream_extend_self, if_pos rfl]
  · rw [stream_extend_of_ne s (Ne.symm h), if_neg h, List.append_nil]

theorem getOne_eq {s : EventStore} (h : s.poisoned = false) (id : String) :
    s.getOne id = .ok ((s.lookup id).map (loadEntity id)) := by
  rw [getOne, h]
  rfl

/-- An entity that is read is loaded from the stream of its id. -/
theorem lookup_of_getOne {s : EventStore} {id : String} {e : Entity} (h : s.getOne id = .ok (some e)) :
    ∃ l, s.lookup id = some l ∧ e = loadEntity id l := by
  unfold getOne at h
  cases hp : s.poisoned with
  | true =>
    rw [hp] at h
    cases h
  | false =>
    rw [hp] at h
    obtain ⟨l, hl, he⟩ := Option.map_eq_some_iff.mp (Except.ok.inj h)
    exact ⟨l, hl, he.symm⟩

/-- The entities of the store have the ids they are stored under. -/
theorem ids_entities_sublist (ord : List String) (s : EventStore) :
    ((s.entities ord).map Entity.id).Sublist ord := by
  induction ord with
  | nil => exact List.Sublist.refl []
  | cons id ord ih =>
    unfold entities at ih ⊢
    cases hlookup : s.lookup id with
    | none =>
      rw [List.filterMap_cons_none (by rw [hlookup]; rfl)]
      exact ih.cons id
    | some l =>
      rw [List.filterMap_cons_some (by rw [hlookup]; rfl)]
      exact ih.cons_cons id

theorem id_of_getOne {s : EventStore} {id : String} {e : Entity}
    (h : s.getOne id = .ok (some e)) : e.id = id := by
  obtain ⟨l, -, rfl⟩ := lookup_of_getOne h
  rfl

/-! ## What a commit does -/

/-- **The version check passed for every entity.** -/
def Valid (s : EventStore) (es : List Entity) : Prop :=
  ∀ e ∈ es, (s.stream e.id).length = e.committedVersion

instance (s : EventStore) (es : List Entity) : Decidable (s.Valid es) :=
  inferInstanceAs (Decidable (∀ e ∈ es, _))

/-- The first pass succeeds exactly where every version agrees. -/
theorem validate_eq_ok {s : EventStore} {es : List Entity} :
    s.validate es = .ok () ↔ s.Valid es := by
  induction es with
  | nil => simp [validate, Valid]
  | cons e es ih =>
    rw [validate, Valid, List.forall_mem_cons, ← Valid, ← ih]
    by_cases h : (s.stream e.id).length = e.committedVersion
    · rw [if_neg (not_not.mpr h)]
      simp [h]
    · rw [if_pos h]
      simp [h]

/-- The first pass fails only with a version conflict, of an entity of the
batch. -/
theorem validate_eq_error {s : EventStore} {es : List Entity} {f : Fault RepositoryError}
    (h : s.validate es = .error f) :
    ∃ e ∈ es, (s.stream e.id).length ≠ e.committedVersion
      ∧ f = .err (.concurrentWrite e.id e.committedVersion (s.stream e.id).length) := by
  induction es with
  | nil => cases h
  | cons e es ih =>
    rw [validate] at h
    by_cases hv : (s.stream e.id).length = e.committedVersion
    · rw [if_neg (not_not.mpr hv)] at h
      obtain ⟨e', he', h'⟩ := ih h
      exact ⟨e', List.mem_cons_of_mem e he', h'⟩
    · rw [if_pos hv] at h
      exact ⟨e, List.mem_cons_self, hv, (Except.error.inj h).symm⟩

/-- The store after the second pass, where nothing panics: the entities'
uncommitted events appended one entity after the other. -/
def extendAll (s : EventStore) (es : List Entity) : EventStore :=
  es.foldl (fun s e => s.extend e.id e.uncommitted) s

/-- The second pass over entities whose slices are in range. -/
theorem append_eq {s : EventStore} {es : List Entity}
    (hes : ∀ e ∈ es, e.newEvents = some e.uncommitted) :
    s.append es = (.ok (), es.map Entity.markCommitted, s.extendAll es) := by
  induction es generalizing s with
  | nil => rfl
  | cons e es ih =>
    rw [append, hes e List.mem_cons_self]
    dsimp only
    rw [ih (fun e' he' => hes e' (List.mem_cons_of_mem e he'))]
    rfl

/-- **A commit that passes the version check** appends and marks every
entity. -/
theorem commit_of_valid {s : EventStore} {es : List Entity} (hp : s.poisoned = false)
    (hv : s.Valid es) (hes : ∀ e ∈ es, e.newEvents = some e.uncommitted) :
    s.commit es = (.ok (), es.map Entity.markCommitted, s.extendAll es) := by
  rw [commit, hp, validate_eq_ok.mpr hv, ← append_eq hes]
  rfl

/-- **A commit that fails the version check** changes nothing. -/
theorem commit_of_not_valid {s : EventStore} {es : List Entity} (hp : s.poisoned = false)
    (hv : ¬ s.Valid es) :
    ∃ e ∈ es, s.commit es
      = (.error (.err (.concurrentWrite e.id e.committedVersion (s.stream e.id).length)),
          es, s) := by
  rw [commit, hp]
  cases h : s.validate es with
  | ok u => exact absurd (validate_eq_ok.mp h) hv
  | error f =>
    obtain ⟨e, he, -, rfl⟩ := validate_eq_error h
    exact ⟨e, he, rfl⟩

theorem commit_of_poisoned {s : EventStore} (es : List Entity) (hp : s.poisoned = true) :
    s.commit es = (.error (.err (.lockPoisoned "write")), es, s) := by
  rw [commit, hp]
  rfl

/-- A second pass that returns has appended and marked every entity. -/
theorem append_eq_ok {s s' : EventStore} {es es' : List Entity}
    (h : s.append es = (.ok (), es', s')) : es' = es.map Entity.markCommitted ∧ s' = s.extendAll es := by
  induction es generalizing s es' with
  | nil =>
    obtain ⟨rfl, rfl⟩ := Prod.mk.inj (Prod.mk.inj h).2
    exact ⟨rfl, rfl⟩
  | cons e es ih =>
    rw [append] at h
    cases hnew : e.newEvents with
    | none => rw [hnew] at h; cases h
    | some new =>
      rw [hnew] at h
      dsimp only at h
      obtain ⟨hr, hrest⟩ := Prod.mk.inj h
      obtain ⟨rfl, hs⟩ := Prod.mk.inj hrest
      have heq : (s.extend e.id new).append es
          = (.ok (), ((s.extend e.id new).append es).2.1, s') := Prod.ext hr (Prod.ext rfl hs)
      obtain rfl : e.uncommitted = new := by
        unfold Entity.newEvents at hnew
        split at hnew
        · exact Option.some.inj hnew
        · cases hnew
      exact ⟨congrArg (List.cons _) (ih heq).1, (ih heq).2⟩

/-- **A commit that returns `Ok`** has appended and marked every entity. -/
theorem commit_eq_ok {s s' : EventStore} {es es' : List Entity}
    (h : s.commit es = (.ok (), es', s')) : es' = es.map Entity.markCommitted ∧ s' = s.extendAll es := by
  unfold commit at h
  cases hp : s.poisoned with
  | true => rw [hp] at h; cases h
  | false =>
    rw [hp] at h
    cases hv : s.validate es with
    | error f => rw [hv] at h; cases h
    | ok u => rw [hv] at h; exact append_eq_ok h

/-- **A commit that returns `Ok`** has passed the version check. -/
theorem valid_of_commit {s s' : EventStore} {es es' : List Entity}
    (h : s.commit es = (.ok (), es', s')) : s.Valid es := by
  unfold commit at h
  cases hp : s.poisoned with
  | true => rw [hp] at h; cases h
  | false =>
    rw [hp] at h
    cases hv : s.validate es with
    | error f => rw [hv] at h; cases h
    | ok u => exact validate_eq_ok.mp hv

/-- The second pass returns or panics. -/
theorem append_ne_err {s s' : EventStore} {es es' : List Entity} {f : RepositoryError} :
    s.append es ≠ (.error (.err f), es', s') := by
  intro h
  induction es generalizing s es' with
  | nil => cases h
  | cons e es ih =>
    rw [append] at h
    cases hnew : e.newEvents with
    | none => rw [hnew] at h; cases h
    | some new =>
      rw [hnew] at h
      exact ih (Prod.ext (Prod.mk.inj h).1 (Prod.ext rfl (Prod.mk.inj (Prod.mk.inj h).2).2))

/-- **A commit that returns an error** has changed nothing. -/
theorem commit_eq_err {s s' : EventStore} {es es' : List Entity} {f : RepositoryError}
    (h : s.commit es = (.error (.err f), es', s')) : es' = es ∧ s' = s := by
  unfold commit at h
  cases hp : s.poisoned with
  | true =>
    rw [hp] at h
    obtain ⟨rfl, rfl⟩ := Prod.mk.inj (Prod.mk.inj h).2
    exact ⟨rfl, rfl⟩
  | false =>
    rw [hp] at h
    cases hv : s.validate es with
    | error g =>
      rw [hv] at h
      obtain ⟨rfl, rfl⟩ := Prod.mk.inj (Prod.mk.inj h).2
      exact ⟨rfl, rfl⟩
    | ok u =>
      rw [hv] at h
      exact absurd h append_ne_err

/-- The uncommitted events a batch carries for one id, in batch order. -/
def batchEvents (es : List Entity) (id : String) : List EventRecord :=
  es.flatMap (fun e => if e.id = id then e.uncommitted else [])

theorem batchEvents_cons (e : Entity) (es : List Entity) (id : String) :
    batchEvents (e :: es) id
      = (if e.id = id then e.uncommitted else []) ++ batchEvents es id :=
  List.flatMap_cons

/-- **What a batch appends to a stream**: the uncommitted events of its
entities with that id. -/
theorem stream_extendAll (s : EventStore) (es : List Entity) (id : String) :
    (s.extendAll es).stream id = s.stream id ++ batchEvents es id := by
  induction es generalizing s with
  | nil => simp [extendAll, batchEvents]
  | cons e es ih =>
    rw [extendAll, List.foldl_cons, ← extendAll, ih, stream_extend, batchEvents_cons,
      List.append_assoc]

@[simp] theorem poisoned_extendAll (s : EventStore) (es : List Entity) :
    (s.extendAll es).poisoned = s.poisoned := by
  induction es generalizing s with
  | nil => rfl
  | cons e es ih => exact (ih (s.extend e.id e.uncommitted)).trans rfl

/-- The ids stored after a batch: those stored before and those of the batch. -/
theorem isSome_lookup_extendAll (s : EventStore) (es : List Entity) (id : String) :
    ((s.extendAll es).lookup id).isSome ↔ (s.lookup id).isSome ∨ ∃ e ∈ es, e.id = id := by
  induction es generalizing s with
  | nil => simp [extendAll]
  | cons e es ih =>
    rw [extendAll, List.foldl_cons, ← extendAll, ih]
    by_cases h : e.id = id
    · subst h
      simp
    · rw [lookup_extend_of_ne s (Ne.symm h)]
      simp [h]

theorem lookup_extendAll_of_notMem (s : EventStore) {es : List Entity} {id : String}
    (h : id ∉ es.map Entity.id) : (s.extendAll es).lookup id = s.lookup id := by
  induction es generalizing s with
  | nil => rfl
  | cons e es ih =>
    rw [List.map_cons, List.mem_cons, not_or] at h
    exact (ih (s.extend e.id e.uncommitted) h.2).trans (lookup_extend_of_ne s h.1 _)

/-- **The streams after a batch**: every id of the batch has its stream with the
batch's events for it appended, and every other id what it had. -/
def appended (es : List Entity) (streams : String → Option (List EventRecord)) (id : String) :
    Option (List EventRecord) :=
  if ∃ e ∈ es, e.id = id then some ((streams id).getD [] ++ batchEvents es id) else streams id

theorem lookup_extendAll (s : EventStore) (es : List Entity) :
    (s.extendAll es).lookup = appended es s.lookup := by
  funext id
  unfold appended
  by_cases h : ∃ e ∈ es, e.id = id
  · rw [if_pos h]
    obtain ⟨l, hl⟩ := Option.isSome_iff_exists.mp ((isSome_lookup_extendAll s es id).mpr (Or.inr h))
    have hstream := stream_extendAll s es id
    rw [stream, hl] at hstream
    rw [hl]
    exact congrArg some hstream
  · rw [if_neg h]
    exact lookup_extendAll_of_notMem s (by simpa using h)

theorem batchEvents_of_notMem {es : List Entity} {id : String}
    (h : ∀ e ∈ es, e.id ≠ id) : batchEvents es id = [] := by
  refine List.flatMap_eq_nil_iff.mpr (fun e he => ?_)
  rw [if_neg (h e he)]

/-- **With pairwise distinct ids every entity of a batch appends alone.** -/
theorem batchEvents_of_nodup {es : List Entity} (hnd : (es.map Entity.id).Nodup) {e : Entity}
    (he : e ∈ es) : batchEvents es e.id = e.uncommitted := by
  induction es with
  | nil => cases he
  | cons f es ih =>
    rw [List.map_cons, List.nodup_cons] at hnd
    rw [batchEvents_cons]
    rcases List.mem_cons.mp he with rfl | he
    · rw [if_pos rfl, batchEvents_of_notMem, List.append_nil]
      exact fun e' he' h => hnd.1 (List.mem_map.mpr ⟨e', he', h⟩)
    · rw [if_neg (fun h => hnd.1 (List.mem_map.mpr ⟨e, he, h.symm⟩)), List.nil_append]
      exact ih hnd.2 he

theorem batchEvents_of_filter {es : List Entity} {e : Entity}
    (h : es.filter (fun e' => e'.id = e.id) = [e]) : batchEvents es e.id = e.uncommitted := by
  have hsame : ∀ es : List Entity,
      batchEvents es e.id = (es.filter (fun e' => e'.id = e.id)).flatMap Entity.uncommitted := by
    intro es
    induction es with
    | nil => rfl
    | cons f es ih =>
      rw [batchEvents_cons, ih, List.filter_cons]
      by_cases hf : f.id = e.id <;> simp [hf]
  rw [hsame, h, List.flatMap_singleton]

/-! ## Well-formed stores -/

/-- **A store in working order**: its lock is not poisoned, and every stream
carries the numbers `1, 2, …`. -/
structure WellFormed (s : EventStore) : Prop where
  not_poisoned : s.poisoned = false
  numbered : ∀ id, Numbered EventRecord.sequence (s.stream id)

theorem WellFormed.new : new.WellFormed :=
  ⟨rfl, fun _ => Numbered.nil⟩

/-- **Every entity of a batch tracks the stream of its id.** -/
def Tracked (s : EventStore) (es : List Entity) : Prop := ∀ e ∈ es, e.Tracks (s.stream e.id)

theorem WellFormed.tracks_loadEntity {s : EventStore} (hs : s.WellFormed) (id : String) :
    (loadEntity id (s.stream id)).Tracks (s.stream id) :=
  Entity.Tracks.load (hs.numbered id) _

theorem lookup_eq_some {s : EventStore} {id : String} {l : List EventRecord}
    (h : s.lookup id = some l) : s.stream id = l := by
  rw [stream, h]
  rfl

/-- **What a commit of tracking entities can do**: append and mark them all,
or report a conflict and change nothing. -/
theorem commit_cases {s : EventStore} {es : List Entity} (hp : s.poisoned = false)
    (ht : s.Tracked es) :
    (s.Valid es ∧ s.commit es = (.ok (), es.map Entity.markCommitted, s.extendAll es))
      ∨ ¬ s.Valid es ∧ ∃ e ∈ es, s.commit es
        = (.error (.err (.concurrentWrite e.id e.committedVersion (s.stream e.id).length)),
            es, s) := by
  by_cases hv : s.Valid es
  · exact Or.inl ⟨hv, commit_of_valid hp hv (fun e he => (ht e he).newEvents_eq)⟩
  · exact Or.inr ⟨hv, commit_of_not_valid hp hv⟩

theorem stream_prefix_extendAll (s : EventStore) (es : List Entity) (id : String) :
    s.stream id <+: (s.extendAll es).stream id := by
  rw [stream_extendAll]
  exact List.prefix_append _ _

/-- **After a valid batch with pairwise distinct ids the stream of each of its
entities is the entity's events.** -/
theorem stream_extendAll_of_mem {s : EventStore} {es : List Entity} (hv : s.Valid es)
    (ht : s.Tracked es) (hnd : (es.map Entity.id).Nodup) {e : Entity} (he : e ∈ es) :
    (s.extendAll es).stream e.id = e.events := by
  rw [stream_extendAll, batchEvents_of_nodup hnd he]
  exact (ht e he).append_uncommitted (hv e he)

theorem stream_extendAll_of_notMem (s : EventStore) {es : List Entity} {id : String}
    (h : id ∉ es.map Entity.id) : (s.extendAll es).stream id = s.stream id := by
  rw [stream_extendAll, batchEvents_of_notMem, List.append_nil]
  exact fun e he heq => h (heq ▸ List.mem_map_of_mem he)

/-- **A batch with pairwise distinct ids keeps the store in working order.** -/
theorem WellFormed.extendAll {s : EventStore} {es : List Entity} (hs : s.WellFormed)
    (hv : s.Valid es) (ht : s.Tracked es) (hnd : (es.map Entity.id).Nodup) :
    (s.extendAll es).WellFormed := by
  refine ⟨(poisoned_extendAll s es).trans hs.not_poisoned, fun id => ?_⟩
  by_cases h : id ∈ es.map Entity.id
  · obtain ⟨e, he, rfl⟩ := List.mem_map.mp h
    rw [stream_extendAll_of_mem hv ht hnd he]
    exact (ht e he).numbered
  · rw [stream_extendAll_of_notMem s h]
    exact hs.numbered id

/-- **The committed entities track the store after the batch.** -/
theorem Tracked.markCommitted {s : EventStore} {es : List Entity} (hv : s.Valid es)
    (ht : s.Tracked es) (hnd : (es.map Entity.id).Nodup) :
    (s.extendAll es).Tracked (es.map Entity.markCommitted) := by
  intro e' he'
  obtain ⟨e, he, rfl⟩ := List.mem_map.mp he'
  rw [Entity.id_markCommitted, stream_extendAll_of_mem hv ht hnd he]
  exact (ht e he).markCommitted

end EventStore
