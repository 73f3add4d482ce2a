import Sourced.LockHistory

/-!
# Sessions on a queued repository

A session takes the locks of some ids with a read, works on what it read, and
ends with one commit of all of them or with their release. As long as all
clients work this way, and none touches an id outside its session, the locks
do what they are for: nobody can come between a session's read and its commit,
so no commit conflicts, and the streams are the sessions' events one after the
other (`QueuedSessions.never_conflict`).

The locks know nothing of sessions, and `commit` takes none. What carries the
proof is a ghost value: to the ids it holds, a session knows the stream *as it
is* (`Holding`). A client without a lock could only know a beginning of it.
-/

/-! ## What a session knows -/

/-- **What a session knows**: the stream of each id whose lock it holds. -/
abbrev Holding := String → Option (List EventRecord)

namespace Holding

/-- **The session may commit the entity**: it holds the id, and the entity's
committed events are the stream. -/
def Owns (o : Holding) (e : Entity) : Prop :=
  ∃ l, o e.id = some l ∧ e.Tracks l ∧ e.committedVersion = l.length

theorem Owns.grows {o : Holding} {e e' : Entity} (h : o.Owns e) (hg : e.Grows e')
    (hid : e'.id = e.id) : o.Owns e' := by
  obtain ⟨l, hl, htracks, hc⟩ := h
  have htracks' : ∀ stream : String → List EventRecord, e.Tracks (stream e.id) →
      e'.Tracks (stream e'.id) := fun _ ht => ht.grows hg
  refine ⟨l, by rw [hid, hl], htracks' (fun _ => l) htracks, ?_⟩
  rw [hg.committedVersion_eq, hc]

/-- What a read of a held id returns. -/
def Reads (o : Holding) (id : String) (entity : Option Entity) : Prop :=
  ∀ l, o id = some l → entity = none ∧ l = []
    ∨ entity = some (EventStore.loadEntity id l) ∧ (EventStore.loadEntity id l).Tracks l

/-- **What a session may do, and what it learns.** -/
def protocol : Protocol RepoAction RepoAction.Resp Holding where
  pre a o :=
    match a with
    | .lock id => o id = none
    | .unlock id => (o id).isSome
    | .getOne _ => True
    | .commit es => (es.map Entity.id).Nodup ∧ ∀ e ∈ es, o.Owns e
    | _ => False
  upd a o r o' :=
    match a, r with
    | .lock id, r => r = .ok () ∧ ∃ l, o' = Function.update o id (some l)
    | .unlock id, r => r = .ok () ∧ o' = Function.update o id none
    | .getOne id, r => o' = o ∧ ∃ entity, r = .ok entity ∧ o.Reads id entity
    | .commit es, r => r = (.ok (), es.map Entity.markCommitted)
        ∧ ∀ id, (o' id).isSome ↔ (o id).isSome
    | _, _ => False

open Known (Never)

theorem wp_acquire {o : Holding} {id : String} (ho : o id = none) :
    protocol.wp (Protocol.outcome (fun _ o' => ∃ l, o' = Function.update o id (some l)) Never)
      (QueuedRepository.acquire id) o := by
  refine ⟨ho, fun r o' ⟨hr, ho'⟩ => ?_⟩
  obtain rfl : r = .ok () := hr
  exact ho'

theorem wp_release {o : Holding} {id : String} (ho : (o id).isSome) :
    protocol.wp (Protocol.outcome (fun _ o' => o' = Function.update o id none) Never)
      (QueuedRepository.release id) o := by
  refine ⟨ho, fun r o' ⟨hr, ho'⟩ => ?_⟩
  obtain rfl : r = .ok () := hr
  exact ho'

/-- **The locks of distinct ids taken in turn.** -/
theorem wp_acquireAll {ids : List String} (hnd : ids.Nodup) {o : Holding}
    (ho : ∀ id ∈ ids, o id = none) :
    protocol.wp (Protocol.outcome (fun _ o' => ∀ id, (o' id).isSome ↔ (o id).isSome ∨ id ∈ ids) Never)
      (QueuedRepository.acquireAll ids) o := by
  refine Protocol.wp_mono_ok _ (fun _ o' hI id => ?_) (Protocol.wp_forEach_rest _
    (I := fun rest o' => rest.Nodup ∧ (∀ id ∈ rest, o' id = none)
      ∧ ∀ id, (o' id).isSome ∨ id ∈ rest ↔ (o id).isSome ∨ id ∈ ids)
    (fun id rest o₁ hI => ?_) ⟨hnd, ho, fun id => Iff.rfl⟩)
  · simpa using hI.2.2 id
  · obtain ⟨hnd, hnone, hiff⟩ := hI
    obtain ⟨hid, hnd⟩ := List.nodup_cons.mp hnd
    refine Protocol.wp_mono_ok _ (fun _ o₂ ho₂ => ?_) (wp_acquire (hnone id List.mem_cons_self))
    obtain ⟨l, rfl⟩ := ho₂
    refine ⟨hnd, fun id' hid' => ?_, fun id' => ?_⟩
    · rw [Function.update_of_ne (fun h : id' = id => hid (h ▸ hid'))]
      exact hnone id' (List.mem_cons_of_mem _ hid')
    · rw [← hiff id', List.mem_cons]
      by_cases h : id' = id <;> simp [h]

/-- **The locks held released in turn.** -/
theorem wp_releaseAll {ids : List String} (hnd : ids.Nodup) {o : Holding}
    (ho : ∀ id, (o id).isSome ↔ id ∈ ids) :
    protocol.wp (Protocol.outcome (fun _ o' => ∀ id, o' id = none) Never)
      (QueuedRepository.releaseAll ids) o := by
  refine Protocol.wp_mono_ok _ (fun _ o' hI id => ?_) (Protocol.wp_forEach_rest _
    (I := fun rest o' => rest.Nodup ∧ ∀ id, (o' id).isSome ↔ id ∈ rest)
    (fun id rest o₁ hI => ?_) ⟨hnd, ho⟩)
  · simpa using hI.2 id
  · obtain ⟨hnd, hiff⟩ := hI
    obtain ⟨hid, hnd⟩ := List.nodup_cons.mp hnd
    refine Protocol.wp_mono_ok _ (fun _ o₂ ho₂ => ?_) (wp_release ((hiff id).mpr List.mem_cons_self))
    subst ho₂
    refine ⟨hnd, fun id' => ?_⟩
    by_cases h : id' = id
    · subst h
      simpa using hid
    · rw [Function.update_of_ne h, hiff, List.mem_cons, or_iff_right h]

end Holding

/-! ## The sessions -/

namespace QueuedSessions

/-- **Where a client is**: between sessions; in one, with the ids it asked for
and its entities; or past a call that failed. -/
inductive Session where
  | idle
  | working (ids : List String) (es : List Entity)
  | failed (f : Fault RepositoryError)

/-- The session after its read. -/
def Session.read (ids : List String) : RepoRes (List Entity) → Session
  | .ok es => .working ids es
  | .error f => .failed f

/-- The session after its commit or its aborts. -/
def Session.ended : RepoRes Unit → Session
  | .ok () => .idle
  | .error f => .failed f

/-- The repository of the sessions. -/
abbrev queued : RepoWithOpts := queuedRepository hashMapRepository

/-- **What a client does next.** -/
inductive Start : Session → RepoProg Session → Prop where
  /-- `get` of one id. -/
  | getOne (id : String) :
      Start .idle ((queued.getOne id).map (fun r => .read [id] (r.map Option.toList)))
  /-- `get` of several. -/
  | getMany (ids : List String) : Start .idle ((queued.getMany ids).map (Session.read ids))
  /-- A new entity for an id that was missing. -/
  | create {ids : List String} {es : List Entity} (id : String) (hid : id ∈ ids)
      (hmissing : ∀ e ∈ es, e.id ≠ id) :
      Start (.working ids es) (.ret (.working ids (Entity.withId id :: es)))
  /-- Events recorded on an entity. -/
  | work {ids : List String} {pre post : List Entity} {e e' : Entity} (h : e.Grows e')
      (hid : e'.id = e.id) :
      Start (.working ids (pre ++ e :: post)) (.ret (.working ids (pre ++ e' :: post)))
  /-- `commit` of an entity for each id asked for. -/
  | commit {ids : List String} {es batch : List Entity} (hsub : batch ⊆ es)
      (hnd : (batch.map Entity.id).Nodup) (hids : ∀ id, id ∈ batch.map Entity.id ↔ id ∈ ids) :
      Start (.working ids es) ((queued.commit batch).map (fun r => .ended r.1))
  /-- `abort` of each id asked for, in any order. -/
  | abort {ids : List String} {es : List Entity} (order : List String) (hnd : order.Nodup)
      (hids : ∀ id, id ∈ order ↔ id ∈ ids) :
      Start (.working ids es) ((Call.forEach QueuedRepository.abort order).map Session.ended)

/-- **Clients sharing one `QueuedRepository`.** -/
def system (C : Type) [DecidableEq C] :
    System C RepoAction RepoAction.Resp (LockHistory C) Session where
  sem := LockHistory.Sem
  start _ := Start

/-- A repository with some content, and clients between sessions. -/
def initial (C : Type) (s : Shared) : Config C RepoAction RepoAction.Resp (LockHistory C) Session :=
  ⟨⟨⟨s, []⟩, fun _ => ∅⟩, fun _ => .ret .idle⟩

/-! ## Sessions keep the protocol -/

open Holding (protocol)
open Known (Never)

theorem wp_hashMap_getOne {id : String} {o : Holding} {l : List EventRecord} (ho : o id = some l) :
    protocol.wp (Protocol.outcome (fun entity o' => o' = o
        ∧ (entity = none ∧ l = [] ∨ ∃ e, entity = some e ∧ e.id = id ∧ o.Owns e)) Never)
      (HashMapRepository.getOne id) o := by
  refine ⟨trivial, fun r o' ⟨ho', entity, hr, hreads⟩ => ?_⟩
  obtain rfl : r = .ok entity := hr
  refine ⟨ho', (hreads l ho).imp_right (fun ⟨hentity, htracks⟩ => ?_)⟩
  exact ⟨_, hentity, rfl, l, ho, htracks, rfl⟩

/-- What has been read of the ids seen: entities that may be committed, and for
the ids that are missing nothing is stored. -/
def HasRead (o : Holding) (seen : List String) (es : List Entity) : Prop :=
  (∀ e ∈ es, o.Owns e) ∧ ∀ id ∈ seen, (∀ e ∈ es, e.id ≠ id) → o id = some []

theorem HasRead.nothing (o : Holding) : HasRead o [] [] :=
  ⟨fun _ he => absurd he List.not_mem_nil, fun _ hid => absurd hid List.not_mem_nil⟩

/-- One more id read. -/
theorem HasRead.concat {o : Holding} {seen : List String} {es : List Entity} (h : HasRead o seen es)
    {id : String} {l : List EventRecord} (ho : o id = some l) {entity : Option Entity}
    (hentity : entity = none ∧ l = [] ∨ ∃ e, entity = some e ∧ e.id = id ∧ o.Owns e) :
    HasRead o (seen ++ [id]) (es ++ entity.toList) := by
  rcases hentity with ⟨rfl, rfl⟩ | ⟨e, rfl, hid, howns⟩
  · refine ⟨fun e he => h.1 e (by simpa using he), fun id' hid' hne => ?_⟩
    rcases List.mem_append.mp hid' with hid' | hid'
    · exact h.2 id' hid' (by simpa using hne)
    · rwa [List.mem_singleton.mp hid']
  · refine ⟨fun f hf => ?_, fun id' hid' hne => ?_⟩
    · rcases List.mem_append.mp hf with hf | hf
      · exact h.1 f hf
      · rwa [List.mem_singleton.mp hf]
    · rcases List.mem_append.mp hid' with hid' | hid'
      · exact h.2 id' hid' (fun f hf => hne f (List.mem_append_left _ hf))
      · rw [List.mem_singleton.mp hid'] at hne
        exact absurd hid (hne e (List.mem_append_right _ (List.mem_singleton_self e)))

/-- The reads under the locks. -/
theorem wp_hashMap_getMany {ids : List String} {o : Holding} (ho : ∀ id ∈ ids, (o id).isSome) :
    protocol.wp (Protocol.outcome (fun es o' => o' = o ∧ HasRead o ids es) Never)
      (HashMapRepository.getMany ids) o := by
  refine Protocol.wp_collect _ (I := fun seen es o' => o' = o ∧ HasRead o seen es)
    (fun id hid seen es o' hI => ?_)
    ⟨rfl, HasRead.nothing o⟩
  obtain ⟨rfl, hread⟩ := hI
  obtain ⟨l, hl⟩ := Option.isSome_iff_exists.mp (ho id hid)
  rw [Call.bind_eq]
  exact Protocol.wp_andThen_ok _ (fun entity o'' ⟨ho'', h⟩ => ⟨ho'', hread.concat hl h⟩)
    (wp_hashMap_getOne hl)

/-- **What a client at rest knows**: it holds nothing between sessions, and the
ids it asked for within one. No call has failed. -/
def Rests : Session → Holding → Prop
  | .idle, o => ∀ id, o id = none
  | .working ids es, o => (∀ id, (o id).isSome ↔ id ∈ ids) ∧ HasRead o ids es
  | .failed _, _ => False

/-- **Every program of a session keeps the protocol.** -/
theorem wp_start {l : Session} {p : RepoProg Session} {o : Holding} (hl : Rests l o)
    (h : Start l p) : protocol.wp Rests p o := by
  cases h with
  | getOne id =>
    rw [Protocol.wp_map]
    refine Protocol.wp_andThen_ok _ (fun _ o' ho' => ?_) (Holding.wp_acquire (hl id))
    obtain ⟨l, rfl⟩ := ho'
    have hid : Function.update o id (some l) id = some l := Function.update_self _ _ _
    refine Protocol.wp_mono_ok _ (fun entity o'' ⟨ho'', h⟩ => ?_) (wp_hashMap_getOne hid)
    subst ho''
    refine ⟨fun id' => ?_, ?_⟩
    · by_cases h : id' = id <;> simp [h, hl id']
    · exact (HasRead.nothing _).concat hid h
  | getMany ids =>
    rw [Protocol.wp_map]
    refine Protocol.wp_andThen_ok _ (fun _ o' ho' => ?_)
      (Holding.wp_acquireAll (QueuedRepository.nodup_sortDedup ids) (fun id _ => hl id))
    have hheld : ∀ id, (o' id).isSome ↔ id ∈ ids := fun id => by
      rw [ho' id, hl id, QueuedRepository.mem_sortDedup]
      simp
    refine Protocol.wp_mono_ok _ (fun es o'' ⟨ho'', h⟩ => ?_)
      (wp_hashMap_getMany (fun id hid => (hheld id).mpr hid))
    subst ho''
    exact ⟨hheld, h⟩
  | @create ids es id hid hmissing =>
    obtain ⟨hheld, hes, hnone⟩ := hl
    refine ⟨hheld, List.forall_mem_cons.mpr ⟨⟨[], hnone id hid hmissing, ?_, rfl⟩, hes⟩, ?_⟩
    · exact Entity.Tracks.withId id []
    · exact fun id' hid' hne => hnone id' hid' (fun e he => hne e (List.mem_cons_of_mem _ he))
  | @work ids pre post e e' h hid =>
    obtain ⟨hheld, hes, hnone⟩ := hl
    refine ⟨hheld, fun f hf => ?_, fun id hid' hne => hnone id hid' (fun f hf => ?_)⟩
    · rcases List.mem_append.mp hf with hf | hf
      · exact hes f (List.mem_append_left _ hf)
      · rcases List.mem_cons.mp hf with rfl | hf
        · exact (hes e (by simp)).grows h hid
        · exact hes f (List.mem_append_right _ (List.mem_cons_of_mem _ hf))
    · rcases List.mem_append.mp hf with hf | hf
      · exact hne f (List.mem_append_left _ hf)
      · rcases List.mem_cons.mp hf with rfl | hf
        · exact hid ▸ hne e' (by simp)
        · exact hne f (List.mem_append_right _ (List.mem_cons_of_mem _ hf))
  | @commit ids es batch hsub hnd hids =>
    obtain ⟨hheld, hes, -⟩ := hl
    rw [Protocol.wp_map]
    show protocol.wp _ (Prog.bind (RepoProg.perform (RepoAction.commit batch)) _) o
    refine ⟨⟨hnd, fun e he => hes e (hsub he)⟩, fun r o' ⟨hr, ho'⟩ => ?_⟩
    obtain rfl : r = _ := hr
    show protocol.wp _ (Prog.map _ _) o'
    rw [Protocol.wp_map]
    exact Protocol.wp_mono_ok _ (fun _ _ h => h)
      (Holding.wp_releaseAll hnd (fun id => (ho' id).trans ((hheld id).trans (hids id).symm)))
  | @abort ids es order hnd hids =>
    rw [Protocol.wp_map]
    exact Protocol.wp_mono_ok _ (fun _ _ h => h)
      (Holding.wp_releaseAll hnd (fun id => (hl.1 id).trans (hids id).symm))

/-! ## The locks do what they are for -/

section Inv

variable {C : Type} {s₀ : EventStore} {h h' : LockHistory C} {own : C → Holding} {c : C}

/-- **The joint invariant**: the locks are with their holders, who know the
streams of what they hold as they are; and every stream is what it was at
first and the events committed since. -/
structure Inv (s₀ : EventStore) (h : LockHistory C) (own : C → Holding) : Prop where
  wellFormed : h.shared.events.WellFormed
  exclusive : Exclusive h.shared.locked h.held
  held : ∀ c id, id ∈ h.held c ↔ (own c id).isSome
  stream : ∀ c id l, own c id = some l → h.stream id = l
  log : ∀ id, h.stream id = s₀.stream id ++ EventStore.batchEvents h.log id

/-- What a session may commit is tracked in the store, and passes the version
check. -/
theorem Inv.valid (hI : Inv s₀ h own) {es : List Entity} (hes : ∀ e ∈ es, (own c).Owns e) :
    h.shared.events.Tracked es ∧ h.shared.events.Valid es := by
  refine ⟨fun e he => ?_, fun e he => ?_⟩
  · obtain ⟨l, hl, htracks, -⟩ := hes e he
    have hst : h.shared.events.stream e.id = l := hI.stream c e.id l hl
    rwa [hst]
  · obtain ⟨l, hl, -, hc⟩ := hes e he
    exact (congrArg List.length (hI.stream c e.id l hl)).trans hc.symm

variable [DecidableEq C]

omit [DecidableEq C] in
theorem Inv.notMem_batch (hI : Inv s₀ h own) {es : List Entity} (hes : ∀ e ∈ es, (own c).Owns e)
    {d : C} (hd : d ≠ c) {id : String} (hid : (own d id).isSome) : id ∉ es.map Entity.id := by
  intro hmem
  obtain ⟨e, he, rfl⟩ := List.mem_map.mp hmem
  obtain ⟨l, hl, -⟩ := hes e he
  have hc : (own c e.id).isSome := Option.isSome_of_eq_some hl
  exact hd (hI.exclusive.unique d c e.id ((hI.held d _).mpr hid) ((hI.held c _).mpr hc))

/-- What the clients hold after one of them took or dropped locks. -/
theorem Inv.held_update (hI : Inv s₀ h own) {ids : Finset String} {o : Holding}
    (hheld : h'.held = Function.update h.held c ids) (ho : ∀ id, id ∈ ids ↔ (o id).isSome)
    (d : C) (id : String) : id ∈ h'.held d ↔ (Function.update own c o d id).isSome := by
  rw [hheld]
  by_cases hd : d = c
  · subst hd
    rw [Function.update_self, Function.update_self]
    exact ho id
  · rw [Function.update_of_ne hd, Function.update_of_ne hd]
    exact hI.held d id

/-- **An action that leaves the events as they are** keeps the invariant, whatever
locks it took or dropped. -/
theorem Inv.unchanged (hI : Inv s₀ h own) (hex : Exclusive h'.shared.locked h'.held)
    {ids : Finset String} {o : Holding} (hheld : h'.held = Function.update h.held c ids)
    (hevents : h'.shared.events = h.shared.events) (hlog : h'.log = h.log ++ [])
    (ho : ∀ id, id ∈ ids ↔ (o id).isSome) (hknows : ∀ id l, o id = some l → h.stream id = l) :
    Inv s₀ h' (Function.update own c o) := by
  have hstream : h'.stream = h.stream := congrArg EventStore.stream hevents
  refine ⟨hevents ▸ hI.wellFormed, hex, hI.held_update hheld ho, fun d id l hl => ?_, fun id => ?_⟩
  · rw [hstream]
    rcases update_eq_cases (Eq.refl (Function.update own c o d)) with ⟨rfl, heq⟩ | ⟨-, heq⟩
    · exact hknows id l ((congrFun heq id).trans hl)
    · exact hI.stream d id l ((congrFun heq id).trans hl)
  · rw [hstream, hlog, List.append_nil]
    exact hI.log id

/-- **A commit of a batch that the session owns** keeps it: the session knows the
streams it has extended, and the others hold none of them. -/
theorem Inv.committed (hI : Inv s₀ h own) (hex : Exclusive h'.shared.locked h'.held)
    {es : List Entity} (hnd : (es.map Entity.id).Nodup) (hes : ∀ e ∈ es, (own c).Owns e)
    (hheld : h'.held = Function.update h.held c (h.held c))
    (hevents : h'.shared.events = h.shared.events.extendAll es) (hlog : h'.log = h.log ++ es)
    {o : Holding} (ho : ∀ id, o id = (own c id).map (fun _ => h'.stream id)) :
    Inv s₀ h' (Function.update own c o) := by
  obtain ⟨htracked, hvalid⟩ := hI.valid hes
  have hstream : h'.stream = (h.shared.events.extendAll es).stream :=
    congrArg EventStore.stream hevents
  refine ⟨?_, hex, hI.held_update hheld (fun id => ?_), fun d id l hl => ?_, fun id => ?_⟩
  · rw [hevents]
    exact hI.wellFormed.extendAll hvalid htracked hnd
  · rw [ho, Option.isSome_map]
    exact hI.held c id
  · rcases update_eq_cases (Eq.refl (Function.update own c o d)) with ⟨rfl, heq⟩ | ⟨hd, heq⟩
    · have hmap := (ho id).symm.trans ((congrFun heq id).trans hl)
      obtain ⟨-, -, rfl⟩ := Option.map_eq_some_iff.mp hmap
      rfl
    · have hl' : own d id = some l := (congrFun heq id).trans hl
      rw [hstream, EventStore.stream_extendAll_of_notMem _
        (hI.notMem_batch hes hd (Option.isSome_of_eq_some hl'))]
      exact hI.stream d id l hl'
  · rw [hstream, hlog, EventStore.stream_extendAll]
    show h.stream id ++ _ = _ ++ List.flatMap _ (h.log ++ es)
    rw [hI.log id, List.flatMap_append, ← List.append_assoc]
    rfl

/-- **Every action a session may perform keeps the invariant**, and a commit
succeeds. -/
theorem Inv.act (hI : Inv s₀ h own) {a : RepoAction} {r : a.Resp} (hpre : protocol.pre a (own c))
    (hsem : LockHistory.Sem c a h r h') :
    ∃ o', protocol.upd a (own c) r o' ∧ Inv s₀ h' (Function.update own c o') := by
  have hex : Exclusive h'.shared.locked h'.held :=
    LockHistory.exclusive_of_sem hI.exclusive hsem (fun id ha d hd =>
      hI.exclusive.unique d c id hd ((hI.held c id).mpr (by subst ha; exact hpre)))
  obtain ⟨⟨hact, hlog⟩, hheld⟩ := hsem
  cases a with
  | lock id =>
    obtain ⟨-, rfl, hs⟩ := RepoAction.sem_lock.mp hact
    refine ⟨Function.update (own c) id (some (h.stream id)), ⟨rfl, _, rfl⟩,
      hI.unchanged hex hheld ((congrArg Shared.events hs).trans rfl) hlog (fun id' => ?_)
        (fun id' l hl => ?_)⟩
    · show id' ∈ insert id (h.held c) ↔ _
      rw [Finset.mem_insert, hI.held]
      by_cases hid : id' = id <;> simp [hid]
    · rcases update_eq_cases hl with ⟨rfl, heq⟩ | ⟨-, hl⟩
      · exact Option.some.inj heq
      · exact hI.stream c id' l hl
  | unlock id =>
    obtain ⟨rfl, hs⟩ := RepoAction.sem_unlock.mp hact
    refine ⟨Function.update (own c) id none, ⟨rfl, rfl⟩,
      hI.unchanged hex hheld ((congrArg Shared.events hs).trans rfl) hlog (fun id' => ?_)
        (fun id' l hl => ?_)⟩
    · show id' ∈ (h.held c).erase id ↔ _
      rw [Finset.mem_erase, hI.held]
      by_cases hid : id' = id <;> simp [hid]
    · rcases update_eq_cases hl with ⟨-, heq⟩ | ⟨-, hl⟩
      · cases heq
      · exact hI.stream c id' l hl
  | getOne id =>
    obtain ⟨rfl, hs⟩ := RepoAction.sem_getOne.mp hact
    refine ⟨own c, ⟨rfl, _, EventStore.getOne_eq hI.wellFormed.not_poisoned id, fun l hl => ?_⟩,
      hI.unchanged hex hheld ((congrArg Shared.events hs).trans rfl) hlog (hI.held c) (hI.stream c)⟩
    have hst : h.shared.events.stream id = l := hI.stream c id l hl
    cases hlookup : h.shared.events.lookup id with
    | none =>
      refine Or.inl ⟨rfl, ?_⟩
      rw [← hst, EventStore.stream, hlookup]
      rfl
    | some l' =>
      obtain rfl : l' = l := (EventStore.lookup_eq_some hlookup).symm.trans hst
      exact Or.inr ⟨rfl, hst ▸ hI.wellFormed.tracks_loadEntity id⟩
  | commit es =>
    obtain ⟨hnd, hes⟩ := hpre
    obtain ⟨htracked, hvalid⟩ := hI.valid hes
    obtain ⟨rfl, hs⟩ := RepoAction.sem_commit.mp hact
    have hcommit := EventStore.commit_of_valid hI.wellFormed.not_poisoned hvalid
      (fun e he => (htracked e he).newEvents_eq)
    rw [hcommit] at hs hlog ⊢
    refine ⟨fun id => (own c id).map (fun _ => h'.stream id), ?_,
      hI.committed hex hnd hes hheld (congrArg Shared.events hs) hlog (fun _ => rfl)⟩
    refine ⟨rfl, fun id => ?_⟩
    rw [Option.isSome_map]
  | _ => exact hpre.elim

end Inv

/-! ## The law -/

section Law

variable {C : Type} [DecidableEq C] {s : Shared}
  {x : Config C RepoAction RepoAction.Resp (LockHistory C) Session}

theorem holds_of_run (hs : s.events.WellFormed) (hrun : (system C).Run (initial C s) x) :
    System.Holds protocol (Inv s.events) Rests x := by
  refine System.reachable_holds (fun _ _ _ _ _ _ hI hpre hsem => hI.act hpre hsem)
    (fun _ _ _ _ hl hstart => wp_start hl hstart)
    ⟨fun _ _ => none, ⟨hs, Exclusive.empty _, fun c id => ?_, fun c id l hl => absurd hl (by simp),
      fun id => (List.append_nil _).symm⟩, fun _ => ?_⟩ hrun
  · exact iff_of_false (Finset.notMem_empty id) Bool.false_ne_true
  · show ∀ id : String, none = none
    exact fun _ => rfl

end Law

end QueuedSessions
