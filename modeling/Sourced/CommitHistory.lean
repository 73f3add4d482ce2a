import Sourced.KnownStreams

/-!
# The history of an optimistic repository

Clients share one `HashMapRepository` and use no locks. Each keeps a pool of
entities, made with an id or loaded, records events on them, and commits some
of them together; a commit takes what it finds in the store only to compare
lengths.

The clients are a `System` whose shared state keeps, beside the stores, the
list of the entities committed so far. What a client knows – its ghost value –
is a beginning of every stream: everything in its pool tracks what the client
knows, and what it knows stays a beginning of what is stored, because nobody
does anything to a stream but append to it. A commit whose lengths agree then
puts exactly the entity's own events in the store (`History.law`).
-/

/-- **The shared state with its history**: the stores, and the entities
committed so far, as they were when they were committed. -/
structure History where
  shared : Shared
  log : List Entity

namespace History

/-- The stream under an id. -/
def stream (h : History) (id : String) : List EventRecord := h.shared.events.stream id

/-- Nothing is stored and nothing has happened. -/
def empty : History := ⟨Shared.empty, []⟩

/-- The entities an action committed: those of a commit that returned `Ok`. -/
def committed : (a : RepoAction) → a.Resp → List Entity
  | .commit es, (.ok (), _) => es
  | _, _ => []

/-- **An action with its history**: what it does in memory, and the entities
it committed added to the log. -/
def Sem (a : RepoAction) (h : History) (r : a.Resp) (h' : History) : Prop :=
  a.Sem h.shared r h'.shared ∧ h'.log = h.log ++ committed a r

/-- The state after a commit that returned `Ok`. -/
structure Commits (h : History) (es es' : List Entity) (h' : History) : Prop where
  /-- The stream of each entity grew by its `new_events`. -/
  appended : ∀ e ∈ es, ∃ new, e.newEvents = some new ∧ h'.stream e.id = h.stream e.id ++ new
  /-- The other streams are what they were. -/
  others : ∀ id ∉ es.map Entity.id, h'.stream id = h.stream id
  /-- The entities keep their ids. -/
  ids : es'.map Entity.id = es.map Entity.id
  /-- Each entity has the events of its stream. -/
  events : ∀ e ∈ es', e.events = h'.stream e.id
  /-- Each entity's counters are the length of its stream. -/
  versions : ∀ e ∈ es', e.committedVersion = e.version ∧ e.version = (h'.stream e.id).length

end History

/-! ## The clients -/

namespace OptimisticClient

/-- The pool after `get_one` has returned. -/
def loaded (pool : List Entity) : RepoRes (Option Entity) → List Entity
  | .ok (some e) => e :: pool
  | _ => pool

/-- The pool after `get_many` has returned. -/
def loadedAll (pool : List Entity) : RepoRes (List Entity) → List Entity
  | .ok es => es ++ pool
  | .error _ => pool

/-- **What a client does next.** Its local state is its pool of entities. -/
inductive Start : List Entity → RepoProg (List Entity) → Prop
  /-- `Entity::with_id`. -/
  | create (id : String) (pool : List Entity) :
      Start pool (.ret (Entity.withId id :: pool))
  /-- `get_one`. -/
  | getOne (id : String) (pool : List Entity) :
      Start pool ((hashMapRepository.getOne id).map (loaded pool))
  /-- `get_many`. -/
  | getMany (ids : List String) (pool : List Entity) :
      Start pool ((hashMapRepository.getMany ids).map (loadedAll pool))
  /-- `digest` and `digest_v`, with the metadata their events carry, and
  `set_id` of an entity that has committed no event. -/
  | work (e e' : Entity) (pre post : List Entity) (h : e.Grows e') :
      Start (pre ++ e :: post) (.ret (pre ++ e' :: post))
  /-- `commit`, of some of the entities, with pairwise distinct ids. -/
  | commit (pool batch rest : List Entity) (hpool : pool.Perm (batch ++ rest))
      (hnd : (batch.map Entity.id).Nodup) :
      Start pool ((hashMapRepository.commit batch).map (fun r => r.2 ++ rest))

end OptimisticClient

/-- **Clients sharing one `HashMapRepository`.** -/
def optimistic (C : Type) : System C RepoAction RepoAction.Resp History (List Entity) where
  sem _ := History.Sem
  start _ := OptimisticClient.Start

/-- An empty repository, and every client with an empty pool. -/
def optimistic.initial (C : Type) : Config C RepoAction RepoAction.Resp History (List Entity) :=
  ⟨History.empty, fun _ => .ret []⟩

namespace History

/-! ## Programs that keep the protocol -/

/-- A repository without snapshots: any snapshot would do. -/
abbrev anySnapshot : SnapshotRecord → List EventRecord → Prop := fun _ _ => True

/-- The protocol of the clients: they commit entities that track what they
know. -/
abbrev protocol : Protocol RepoAction RepoAction.Resp Known := Known.protocol anySnapshot

/-- **Every program of a client keeps the protocol**: a pool that tracks
before, tracks after. -/
theorem wp_start {pool : List Entity} {p : RepoProg (List Entity)} {k : Known}
    (hpool : k.Tracks pool) (h : OptimisticClient.Start pool p) :
    protocol.wp (fun pool k => k.Tracks pool) p k := by
  cases h with
  | create id => exact hpool.cons (Entity.Tracks.withId id _)
  | getOne id =>
    rw [Protocol.wp_map]
    refine protocol.wp_of_observing (l := []) (Protocol.wp_mono _ (fun r kl hr => ?_)
      (Known.wp_getOne .plain (k, []) id))
    rcases r with f | _ | e
    · exact hr.elim
    · exact hpool.mono hr.1.1
    · exact (hpool.mono hr.1.1).cons (hr.2 e rfl).2.tracks
  | getMany ids =>
    rw [Protocol.wp_map]
    refine protocol.wp_of_observing (l := []) (Protocol.wp_mono _ (fun r kl hr => ?_)
      (Known.wp_getMany .plain (k, []) ids))
    cases r with
    | error f => exact hr.elim
    | ok es => exact Known.Tracks.append (fun e he => (hr.2 e he).tracks) (hpool.mono hr.1.1)
  | work e e' pre post h => exact hpool.replace ((hpool e (by simp)).grows h)
  | commit _ batch rest hperm hnd =>
    have hall : k.Tracks (batch ++ rest) := fun e he => hpool e (hperm.symm.subset he)
    have hbatch : k.Tracks batch := fun e he => hall e (List.mem_append_left _ he)
    have hrest : k.Tracks rest := fun e he => hall e (List.mem_append_right _ he)
    rw [Protocol.wp_map]
    refine protocol.wp_of_observing (l := []) (Protocol.wp_mono _ (fun r kl hr => ?_)
      (Known.wp_commit .plain hbatch hnd))
    obtain ⟨hsince, ⟨f, rfl⟩ | ⟨rfl, htracks, -⟩⟩ := hr
    · exact (hbatch.append hrest).mono hsince.1
    · exact htracks.append (hrest.mono hsince.1)

/-! ## What the actions do -/

/-- **The log of commits at a state of the streams**: every commit of new events
has left its expected version behind, and no two to one id expected the
same. -/
structure Logged (log : List Entity) (k : Known) : Prop where
  below : ∀ e ∈ log, e.uncommitted ≠ [] → e.committedVersion < (k.stream e.id).length
  distinct : log.Pairwise (fun e f => e.id = f.id → e.uncommitted ≠ [] → f.uncommitted ≠ [] →
    e.committedVersion ≠ f.committedVersion)

theorem Logged.mono {log : List Entity} {k k' : Known} (h : Logged log k) (hk : k ≤ k') :
    Logged log k' :=
  ⟨fun e he hne => (h.below e he hne).trans_le (hk e.id).length_le, h.distinct⟩

/-- **A valid commit is logged**: the stream of each of its entities is now the
entity's events, and no earlier commit of new events expected the length it
had. -/
theorem Logged.commit {s : EventStore} {log es : List Entity} (h : Logged log s.known)
    (ht : s.Tracked es) (hnd : (es.map Entity.id).Nodup) (hv : s.Valid es) :
    Logged (log ++ es) (s.extendAll es).known := by
  have hgrow : s.known ≤ (s.extendAll es).known :=
    fun id => EventStore.stream_prefix_extendAll s es id
  refine ⟨fun e he hne => ?_, ?_⟩
  · rcases List.mem_append.mp he with he | he
    · exact (h.mono hgrow).below e he hne
    · show e.committedVersion < ((s.extendAll es).stream e.id).length
      rw [EventStore.stream_extendAll_of_mem hv ht hnd he]
      exact Nat.lt_of_not_le (fun hle => hne (List.drop_eq_nil_of_le hle))
  · rw [List.pairwise_append]
    refine ⟨h.distinct, ?_, fun e he f hf hid hne _ => ?_⟩
    · exact (List.pairwise_map.mp hnd).imp (fun hne hid => absurd hid hne)
    · -- an earlier commit: its version is below the length, this one's is the length
      have hlt := h.below e he hne
      rw [hid] at hlt
      exact (hlt.trans_eq (hv f hf)).ne

/-- **The joint invariant**: that of the store and of what the clients know,
and that of the log. -/
structure Inv {C : Type} (h : History) (known : C → Known) : Prop where
  store : StoreInv anySnapshot h.shared known
  logged : Logged h.log h.shared.events.known

variable {C : Type} {h h' : History} {known : C → Known}

theorem inv_empty : Inv empty (fun _ : C => Known.nothing) where
  store := StoreInv.new
  logged := ⟨fun _ he => absurd he List.not_mem_nil, List.Pairwise.nil⟩

/-- **Every action a client may perform keeps the invariant**, and lets the
streams grow. -/
theorem Inv.act [DecidableEq C] (hI : Inv h known) {c : C} {a : RepoAction} {r : a.Resp}
    (hpre : protocol.pre a (known c)) (hsem : Sem a h r h') :
    h.shared.events.known ≤ h'.shared.events.known
      ∧ ∃ k', protocol.upd a (known c) r k' ∧ Inv h' (Function.update known c k') := by
  obtain ⟨hact, hlog⟩ := hsem
  obtain ⟨hle, k', hupd, hstore⟩ := hI.store.act (fun _ _ _ _ _ => trivial) hpre hact
  refine ⟨hle, k', hupd, hstore, ?_⟩
  rw [hlog]
  have hsame : Logged (h.log ++ []) h'.shared.events.known := by
    rw [List.append_nil]
    exact hI.logged.mono hle
  cases a with
  | commit es =>
    rcases hI.store.commit_cases hpre.1 hact with ⟨hv, rfl, hs⟩ | ⟨⟨f, rfl⟩, -⟩
    · rw [hs]
      exact hI.logged.commit (hI.store.tracked hpre.1) hpre.2 hv
    · exact hsame
  | _ => exact hsame

/-- **What a commit that returned `Ok` did**, in a state of the invariant. -/
theorem Inv.commits (hI : Inv h known) {c : C} {es es' : List Entity}
    (hes : (known c).Tracks es) (hnd : (es.map Entity.id).Nodup)
    (hsem : Sem (.commit es) h (.ok (), es') h') : h.Commits es es' h' := by
  rcases hI.store.commit_cases hes hsem.1 with ⟨hv, hr, hs⟩ | ⟨⟨f, hr⟩, -⟩
  · obtain rfl : es' = es.map Entity.markCommitted := congrArg Prod.snd hr
    have ht := hI.store.tracked hes
    have hmem : ∀ e ∈ es, h'.stream e.id = e.events := fun e he => by
      show h'.shared.events.stream e.id = _
      rw [hs]
      exact EventStore.stream_extendAll_of_mem hv ht hnd he
    refine ⟨fun e he => ⟨e.uncommitted, (ht e he).newEvents_eq, ?_⟩, fun id hid => ?_, ?_, ?_, ?_⟩
    · rw [hmem e he]
      exact ((ht e he).append_uncommitted (hv e he)).symm
    · show h'.shared.events.stream id = _
      rw [hs]
      exact EventStore.stream_extendAll_of_notMem _ hid
    · rw [List.map_map]
      exact List.map_congr_left (fun e _ => rfl)
    · intro e' he'
      obtain ⟨e, he, rfl⟩ := List.mem_map.mp he'
      exact (hmem e he).symm
    · intro e' he'
      obtain ⟨e, he, rfl⟩ := List.mem_map.mp he'
      rw [Entity.id_markCommitted, hmem e he]
      exact ⟨rfl, (ht e he).version_eq⟩
  · exact absurd (congrArg Prod.fst hr) (by simp)

/-! ## The law -/

section Law

variable [DecidableEq C] {x : Config C RepoAction RepoAction.Resp History (List Entity)}

/-- The configurations of the clients that keep the protocol. -/
abbrev Keeps (x : Config C RepoAction RepoAction.Resp History (List Entity)) : Prop :=
  System.Holds protocol Inv (fun pool k => k.Tracks pool) x

omit [DecidableEq C] in
theorem keeps_initial : Keeps (optimistic.initial C) :=
  ⟨fun _ => Known.nothing, inv_empty, fun _ => Known.Tracks.nil⟩

theorem keeps_of_run {y : Config C RepoAction RepoAction.Resp History (List Entity)} (hx : Keeps x)
    (hrun : (optimistic C).Run x y) : Keeps y :=
  System.reachable_holds (fun _ _ _ _ _ _ hI hpre hsem => (hI.act hpre hsem).2)
    (fun _ _ _ _ hpool hstart => wp_start hpool hstart) hx hrun

/-- Streams only grow along a run. -/
theorem stream_prefix_of_run {y : Config C RepoAction RepoAction.Resp History (List Entity)}
    (hx : Keeps x) (hrun : (optimistic C).Run x y) :
    x.shared.shared.events.known ≤ y.shared.shared.events.known := by
  induction hrun with
  | refl => exact le_rfl
  | @tail u v hxu huv ih =>
    refine ih.trans ?_
    obtain ⟨known, hI, hwp⟩ := keeps_of_run hx hxu
    cases huv with
    | act c a k r s' hprog hsem =>
      have hc := hwp c
      rw [hprog, Protocol.wp_act] at hc
      exact (hI.act hc.1 hsem).1
    | start => exact le_rfl

/-- **The history law of optimistic concurrency.** In every state a run of any
clients reaches: every stream is numbered `1, 2, …`; from there on streams
only grow; a commit that returns `Ok` has appended exactly the new events of
its entities and leaves each entity equal to its stream; and of the commits
of new events to one id that expected the same version at most one has
returned `Ok`. -/
theorem law (hrun : (optimistic C).Run (optimistic.initial C) x) :
    (∀ id, Numbered EventRecord.sequence (x.shared.stream id))
      ∧ (∀ y, (optimistic C).Run x y → ∀ id, x.shared.stream id <+: y.shared.stream id)
      ∧ (∀ c es k es' h', x.prog c = .act (.commit es) k →
          (optimistic C).sem c (.commit es) x.shared (.ok (), es') h' →
          x.shared.Commits es es' h')
      ∧ x.shared.log.Pairwise (fun e f => e.id = f.id → e.uncommitted ≠ [] →
          f.uncommitted ≠ [] → e.committedVersion ≠ f.committedVersion) := by
  have hx := keeps_of_run keeps_initial hrun
  refine ⟨?_, fun y hy => stream_prefix_of_run hx hy, ?_, ?_⟩
  · obtain ⟨known, hI, -⟩ := hx
    exact hI.store.wellFormed.numbered
  · intro c es k es' h' hprog hsem
    obtain ⟨known, hI, hwp⟩ := hx
    have hc := hwp c
    rw [hprog, Protocol.wp_act] at hc
    exact hI.commits hc.1.1 hc.1.2 hsem
  · obtain ⟨known, hI, -⟩ := hx
    exact hI.logged.distinct

end Law

/-- **The law is about something**: two clients make an entity with the same
id and record an event on it, and the first to commit has its event stored. -/
theorem law_run : ∃ x : Config Bool RepoAction RepoAction.Resp History (List Entity),
    x.shared.log ≠ [] ∧ (∀ id, Numbered EventRecord.sequence (x.shared.stream id))
      ∧ x.shared.log.Pairwise (fun e f => e.id = f.id → e.uncommitted ≠ [] →
          f.uncommitted ≠ [] → e.committedVersion ≠ f.committedVersion) := by
  let e := (Entity.withId "todo-1").digest SystemTime.unixEpoch "Initialized" Bitcode.unit ()
  let s := History.empty.shared.withEvents (EventStore.new.commit [e]).2.2
  have hrefl : (optimistic Bool).Run (optimistic.initial Bool) (optimistic.initial Bool) := .refl
  -- both clients make the entity and record the event, then the first commits
  have hrun := (((((hrefl.tail
    (.start true [] _ rfl (.create "todo-1" []))).tail
    (.start true _ _ rfl (.work _ e [] [] (.digest .refl _ _ _ _ _)))).tail
    (.start false [] _ rfl (.create "todo-1" []))).tail
    (.start false _ _ rfl (.work _ e [] [] (.digest .refl _ _ _ _ _)))).tail
    (.start true _ _ rfl (.commit [e] [e] [] (.refl _) (by simp)))).tail
    (.act true (.commit [e]) _ (.ok (), [e.markCommitted]) ⟨s, [e]⟩ rfl
      ⟨RepoAction.sem_commit.mpr ⟨rfl, rfl⟩, rfl⟩)
  exact ⟨_, List.cons_ne_nil _ _, (law hrun).1, (law hrun).2.2.2⟩

end History
