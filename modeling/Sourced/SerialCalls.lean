import Sourced.ReplayFaithful
import Sourced.CommitHistory
import Sourced.AggregateRepository
import Sourced.Noted

/-!
# The calls of all clients on one aggregate

Clients share one store. Each makes aggregates or loads them, calls event methods on what it
has, and commits; a commit of stale aggregates is refused. So every client works on copies,
and the store has nothing but events.

Yet it is as if there was one aggregate for each id, in memory and never loaded, and the
calls of a client were made on it directly, all at once, when its commit succeeds
(`SerialCalls.calls_serial`): each of them takes effect there, the events it records there are those
that are stored, and what anybody loads has the fields of that aggregate.

As in `ReplayFaithful`, this is so of methods that look at nothing of the entity but its id.
And an aggregate is committed under the id it was made or loaded with; if it has been given
its id by a call, no call before has looked at it.
-/

variable {σ : Type}

/-! ## Calls that take effect -/

namespace Entity

/-- **An entity after it has recorded events**, under another id or its own. -/
def recorded (e : Entity) (id : String) (records : List EventRecord) : Entity :=
  { e with
    id := id
    events := e.events ++ records
    version := (e.events ++ records).length }

theorem recorded_nil {e : Entity} (h : e.version = e.events.length) : e.recorded e.id [] = e := by
  unfold recorded
  rw [List.append_nil, ← h]

theorem recorded_recorded (e : Entity) (id id' : String) (l l' : List EventRecord) :
    (e.recorded id l).recorded id' l' = e.recorded id' (l ++ l') := by
  simp [recorded, List.append_assoc]

end Entity

namespace Command

/-- **Calls that all take effect**, one after the other. -/
inductive Applies : List (Command σ) → Agg σ → Agg σ → Prop
  | nil (a : Agg σ) : Applies [] a a
  | cons {c : Command σ} {cs : List (Command σ)} {a b d : Agg σ} (hguard : c.guard a = true)
      (hrun : c.run a = some b) (h : Applies cs b d) : Applies (c :: cs) a d

namespace Applies

variable {c : Command σ} {cs ds : List (Command σ)} {a b d : Agg σ}

theorem runAll (h : Applies cs a b) : Command.runAll cs a = some b := by
  induction h with
  | nil a => rfl
  | cons hguard hrun _ ih =>
    rw [runAll_cons, hrun]
    exact ih

theorem append (h : Applies cs a b) (h' : Applies ds b d) : Applies (cs ++ ds) a d := by
  induction h with
  | nil a => exact h'
  | cons hguard hrun _ ih => exact .cons hguard hrun (ih h')

theorem concat (h : Applies cs a b) (hguard : c.guard b = true) (hrun : c.run b = some d) :
    Applies (cs ++ [c]) a d := h.append (.cons hguard hrun (.nil d))

end Applies

variable {c : Command σ} {cs : List (Command σ)} {a b a' : Agg σ}

/-- **A call that takes effect** has recorded its event, and the body has answered. -/
theorem body_of_run (hr : a.entity.replaying = false) (hguard : c.guard a = true)
    (hrun : c.run a = some a') :
    ∃ f id, c.body c.now a.fields (c.method.digest c.now a.entity c.args) = some (f, id)
      ∧ a' = ⟨f, a.entity.recorded (id.getD a.entity.id) [c.record a.entity]⟩ := by
  rw [run_of_guard hguard, Option.map_eq_some_iff] at hrun
  obtain ⟨⟨f, id⟩, hbody, rfl⟩ := hrun
  refine ⟨f, id, hbody, ?_⟩
  rw [EventMethod.assign, Definition.events_digest hr, Entity.recorded, List.length_append]
  cases id <;> rfl

/-- **What calls that take effect do to the entity**: they record one event each, and may give
it another id. -/
theorem Applies.entity_eq (h : Applies cs a b) (hr : a.entity.replaying = false)
    (hv : a.entity.version = a.entity.events.length) :
    ∃ records, records.length = cs.length ∧ b.entity = a.entity.recorded b.entity.id records := by
  induction h with
  | nil a => exact ⟨[], rfl, (Entity.recorded_nil hv).symm⟩
  | @cons c cs a b d hguard hrun _ ih =>
    obtain ⟨f, id, -, rfl⟩ := body_of_run hr hguard hrun
    obtain ⟨records, hlen, hd⟩ := ih hr rfl
    refine ⟨c.record a.entity :: records, by simp [hlen], hd.trans ?_⟩
    exact Entity.recorded_recorded _ _ _ _ _

/-- Recording events keeps a stream tracked, whatever the id. -/
theorem Applies.tracks {s : List EventRecord} (h : Applies cs a b) (hr : a.entity.replaying = false)
    (ht : a.entity.Tracks s) : b.entity.Tracks s := by
  induction h with
  | nil a => exact ht
  | @cons c cs a b d hguard hrun _ ih =>
    have hdigest := ht.digestAt c.now c.method.name (c.method.version.getD 1) c.method.params.codec c.args
    rw [Entity.digestAt_eq hr] at hdigest
    obtain ⟨f, id, -, rfl⟩ := body_of_run hr hguard hrun
    exact ih hr ⟨hdigest.committed_le, rfl, hdigest.numbered, hdigest.initial⟩

/-! ## The same calls on another aggregate -/

/-- **One aggregate stands where another does**: it has the same fields and the same events,
and the same id – or the id the other will end up with, as long as nothing looks at it. -/
structure Shadows (b a : Agg σ) (cs : List (Command σ)) (id : String) : Prop where
  fields : b.fields = a.fields
  events : b.entity.events = a.entity.events
  metadata : b.entity.metadata = a.entity.metadata
  replaying : b.entity.replaying = false
  id_eq : b.entity.id = a.entity.id ∨ b.entity.id = id ∧ AssignsIdFirst cs a

/-- **A call that takes effect on the one takes effect on the other**, and records the same
event. -/
theorem Shadows.run {id : String} (hS : Shadows b a (c :: cs) id) (hread : c.method.ReadsOnlyId)
    (hr : a.entity.replaying = false) (hguard : c.guard a = true) (hrun : c.run a = some a') :
    ∃ b', c.guard b = true ∧ c.run b = some b' ∧ Shadows b' a' cs id := by
  obtain ⟨f, o, hbody, rfl⟩ := body_of_run hr hguard hrun
  have hida : (c.method.digest c.now a.entity c.args).id = a.entity.id := Entity.id_digestAt _ _ _ _ _ _
  have hidb : (c.method.digest c.now b.entity c.args).id = b.entity.id := Entity.id_digestAt _ _ _ _ _ _
  -- the guard and the body see the same
  have hsame : c.guard b = true
      ∧ c.body c.now b.fields (c.method.digest c.now b.entity c.args) = some (f, o) := by
    have hignores : c.IgnoresEntity a.fields → c.guard b = true
        ∧ c.body c.now b.fields (c.method.digest c.now b.entity c.args) = some (f, o) := by
      intro h
      refine ⟨?_, ?_⟩
      · rw [guard, hS.fields]
        exact (h b.entity a.entity).1.trans hguard
      · rw [hS.fields]
        exact ((h _ _).2 _ _).trans hbody
    cases hS.id_eq with
    | inl heq =>
      refine ⟨?_, ?_⟩
      · rw [guard, hS.fields]
        exact (hread _ _ _ _ heq).1.trans hguard
      · rw [hS.fields]
        exact ((hread _ _ _ _ (hidb.trans (heq.trans hida.symm))).2 _ _).trans hbody
    | inr hfirst =>
      cases hfirst.2 with
      | rejected h => exact absurd (h.symm.trans hguard) Bool.false_ne_true
      | assigns _ h => exact hignores h
      | ignores _ h => exact hignores h
  have hrecord : c.record b.entity = c.record a.entity := by
    unfold record Entity.record
    rw [hS.events, hS.metadata]
  refine ⟨⟨f, b.entity.recorded (o.getD b.entity.id) [c.record b.entity]⟩, hsame.1, ?_, rfl, ?_,
    hS.metadata, hS.replaying, ?_⟩
  · rw [run_of_guard hsame.1, hsame.2, Option.map_some, EventMethod.assign,
      Definition.events_digest hS.replaying, Entity.recorded, List.length_append]
    cases o <;> rfl
  · show b.entity.events ++ [_] = a.entity.events ++ [_]
    rw [hS.events, hrecord]
  · cases o with
    | some id' => exact Or.inl rfl
    | none =>
      show b.entity.id = a.entity.id ∨ b.entity.id = id ∧ _
      refine hS.id_eq.imp_right (fun h => ⟨h.1, ?_⟩)
      cases h.2 with
      | rejected h => exact absurd (h.symm.trans hguard) Bool.false_ne_true
      | assigns _ _ f' id' hbody' => exact absurd (hbody.symm.trans hbody') (by simp)
      | ignores _ _ hrun' hcs => exact Option.some.inj (hrun'.symm.trans hrun) ▸ hcs

/-- **Calls that take effect on the one take effect on the other**, record the same events and
leave the same fields and the same id. -/
theorem Applies.shadow (h : Applies cs a a') (hread : ∀ c ∈ cs, c.method.ReadsOnlyId)
    (hr : a.entity.replaying = false) (hS : Shadows b a cs a'.entity.id) :
    ∃ b', Applies cs b b' ∧ b'.fields = a'.fields ∧ b'.entity.events = a'.entity.events
      ∧ b'.entity.id = a'.entity.id := by
  induction h generalizing b with
  | nil a => exact ⟨b, .nil b, hS.fields, hS.events, hS.id_eq.elim id And.left⟩
  | @cons c cs a m d hguard hrun _ ih =>
    obtain ⟨b', hguard', hrun', hS'⟩ := hS.run (hread c List.mem_cons_self) hr hguard hrun
    have hr' : m.entity.replaying = false := by
      obtain ⟨f, id, -, rfl⟩ := body_of_run hr hguard hrun
      exact hr
    obtain ⟨b'', happlies, hrest⟩ := ih (fun c' hc' => hread c' (List.mem_cons_of_mem c hc')) hr' hS'
    exact ⟨b'', .cons hguard' hrun' happlies, hrest⟩

end Command

/-! ## One aggregate -/

open Command (Applies AssignsIdFirst)

/-- **What calls leave on one aggregate of an id**: made with the id, it has been through the
calls, has the id still and these events, and these fields. -/
def Definition.Records (D : Definition σ) (id : String) (cs : List (Command σ))
    (l : List EventRecord) (f : σ) : Prop :=
  (∀ c ∈ cs, c.method ∈ D.methods)
    ∧ ∃ a, Applies cs ⟨D.default, Entity.withId id⟩ a ∧ a.entity.id = id ∧ a.entity.events = l
      ∧ a.fields = f

/-- An aggregate as it is loaded. -/
def Agg.loaded (id : String) (l : List EventRecord) (f : σ) : Agg σ := ⟨f, EventStore.loadEntity id l⟩

/-- With the version of a snapshot noted in its entity. -/
def Agg.noting (a : Agg σ) (v : ℕ) : Agg σ := ⟨a.fields, a.entity.setSnapshotVersion v⟩

/-- After a commit. -/
def Agg.committed (a : Agg σ) : Agg σ := ⟨a.fields, a.entity.markCommitted⟩

namespace Definition.Records

variable {D : Definition σ} {id : String} {cs ds : List (Command σ)} {l : List EventRecord} {f : σ}

theorem nil (D : Definition σ) (id : String) : D.Records id [] [] D.default :=
  ⟨fun _ hc => absurd hc List.not_mem_nil, _, .nil _, rfl, rfl, rfl⟩

theorem numbered (h : D.Records id cs l f) : Numbered EventRecord.sequence l := by
  obtain ⟨-, a, happlies, -, rfl, -⟩ := h
  exact (happlies.tracks rfl (Entity.Tracks.withId id [])).numbered

theorem length_eq (h : D.Records id cs l f) : l.length = cs.length := by
  obtain ⟨-, a, happlies, -, rfl, -⟩ := h
  obtain ⟨records, hlen, heq⟩ := happlies.entity_eq rfl rfl
  rw [heq]
  exact hlen

theorem eq_default (h : D.Records id cs [] f) : f = D.default := by
  have hlen := h.length_eq
  obtain ⟨-, a, happlies, -, -, rfl⟩ := h
  obtain rfl : cs = [] := List.eq_nil_of_length_eq_zero hlen.symm
  cases happlies with
  | nil => rfl

/-- **Replayed over any entity with the id, the events give the fields**, at any time. -/
theorem replayAll (hD : D.WellFormed) (hread : ∀ m ∈ D.methods, m.ReadsOnlyId)
    (h : D.Records id cs l f) (now : SystemTime) {e : Entity} (he : e.id = id)
    (hr : e.replaying = true) : D.aggregate.replayAll now l ⟨D.default, e⟩ = .ok ⟨f, e⟩ := by
  obtain ⟨hcs, a, happlies, hid, rfl, rfl⟩ := h
  obtain ⟨records, hevents, -, hreplay⟩ := replayAll_of_runAll hD now
    (fun c hc => ⟨hcs c hc, hread _ (hcs c hc)⟩) rfl happlies.runAll (b := ⟨D.default, e⟩)
    ⟨rfl, hr, Or.inl he⟩
  obtain rfl : a.entity.events = records := hevents
  rw [hreplay, hid, ← he]
  rfl

theorem upcast_eq (hup : D.upcasters = []) (l : List EventRecord) : D.aggregate.upcast l = .ok l := by
  unfold Aggregate.upcast
  rw [show D.aggregate.upcasters = [] from hup]
  rfl

/-- **The events give the fields**: whoever loads them hydrates the aggregate that recorded
them, at any time. -/
theorem hydrate (hD : D.WellFormed) (hup : D.upcasters = []) (hread : ∀ m ∈ D.methods, m.ReadsOnlyId)
    (h : D.Records id cs l f) (now : SystemTime) :
    D.aggregate.hydrate now (EventStore.loadEntity id l) = .ok (Agg.loaded id l f) :=
  (D.aggregate.hydrate_eq_ok now).mpr ⟨l, _, upcast_eq hup l, h.replayAll hD hread now rfl rfl, rfl⟩

theorem unique (hD : D.WellFormed) (hup : D.upcasters = []) (hread : ∀ m ∈ D.methods, m.ReadsOnlyId)
    {f' : σ} (h : D.Records id cs l f) (h' : D.Records id ds l f') : f = f' := by
  have hok := (h.hydrate hD hup hread SystemTime.unixEpoch).symm.trans
    (h'.hydrate hD hup hread SystemTime.unixEpoch)
  exact congrArg Agg.fields (Except.ok.inj hok)

/-- **Calls on a loaded aggregate are calls on the one aggregate**: made on a copy of it, or on
a new aggregate that one of them gives its id. -/
theorem extend (hread : ∀ m ∈ D.methods, m.ReadsOnlyId) {base agg : Agg σ} {v : ℕ}
    (hbase : base.entity = (EventStore.loadEntity base.entity.id base.entity.events).setSnapshotVersion v)
    (hds : ∀ c ∈ ds, c.method ∈ D.methods) (happlies : Applies ds base agg)
    (h : D.Records agg.entity.id cs base.entity.events base.fields)
    (hid : agg.entity.id = base.entity.id ∨ AssignsIdFirst ds base) :
    D.Records agg.entity.id (cs ++ ds) agg.entity.events agg.fields := by
  obtain ⟨hcs, a, hbefore, haid, haevents, hafields⟩ := h
  obtain ⟨records, -, hentity⟩ := hbefore.entity_eq rfl rfl
  -- the one aggregate stands where the copy does
  have hS : Command.Shadows a base ds agg.entity.id := by
    refine ⟨hafields, haevents, ?_, ?_, ?_⟩
    · rw [hentity, hbase]
      rfl
    · rw [hentity]
      rfl
    · cases hid with
      | inl hsame => exact Or.inl (haid.trans hsame)
      | inr hfirst => exact Or.inr ⟨haid, hfirst⟩
  obtain ⟨a', happlies', hfields, hevents, haid'⟩ :=
    happlies.shadow (fun c hc => hread _ (hds c hc)) (by rw [hbase]; rfl) hS
  refine ⟨fun c hc => ?_, a', hbefore.append happlies', haid', hevents, hfields⟩
  cases List.mem_append.mp hc with
  | inl hc => exact hcs c hc
  | inr hc => exact hds c hc

end Definition.Records

/-! ## The clients -/

/-- **A call of one of the event methods of a definition.** -/
structure Definition.MethodCall (D : Definition σ) where
  method : Fin D.methods.length
  now : SystemTime
  args : (D.methods.get method).Args

/-- It is a call. -/
def Definition.MethodCall.command {D : Definition σ} (c : D.MethodCall) : Command σ :=
  ⟨D.methods.get c.method, c.now, c.args⟩

/-- **An aggregate a client works on**: what it was when it was made, loaded or last
committed, the calls since that have taken effect, and what it is now. -/
structure Work (D : Definition σ) where
  base : Agg σ
  calls : List D.MethodCall
  agg : Agg σ

namespace Work

variable {D : Definition σ}

/-- Work begins. -/
def start (a : Agg σ) : Work D := ⟨a, [], a⟩

/-- The id it is under. -/
def id (w : Work D) : String := w.agg.entity.id

/-- The calls. -/
def commands (w : Work D) : List (Command σ) := w.calls.map Definition.MethodCall.command

theorem method_mem {w : Work D} {c : Command σ} (hc : c ∈ w.commands) : c.method ∈ D.methods := by
  obtain ⟨mc, -, rfl⟩ := List.mem_map.mp hc
  exact List.get_mem D.methods mc.method

/-- **It can be committed under its id**: the one it was made or loaded with, or one that it has
been given by a call, being new, before which no call has looked at the id. -/
def Named (w : Work D) : Prop :=
  w.id = w.base.entity.id ∨ w.base.entity.events = [] ∧ AssignsIdFirst w.commands w.base

/-- What the aggregates of works are after a commit. -/
def settle (ws : List (Work D)) : RepoRes Unit → List (Agg σ) → List (Work D)
  | .ok (), aggs => aggs.map start
  | .error _, aggs => List.zipWith (fun w agg => { w with agg := agg }) ws aggs

theorem settle_unchanged (ws : List (Work D)) (f : Fault RepositoryError) :
    settle ws (.error f) (ws.map agg) = ws := by
  induction ws with
  | nil => rfl
  | cons w ws ih => exact congrArg (w :: ·) ih

end Work

/-- **The shared state with its history**: the works committed, in the order of the commits. -/
structure CallHistory (D : Definition σ) where
  shared : Shared
  log : List (Work D)

namespace CallHistory

variable {D : Definition σ}

/-- The calls on the aggregate of an id. -/
def callsOf (log : List (Work D)) (id : String) : List (Command σ) :=
  log.flatMap (fun w => if w.id = id then w.commands else [])

theorem callsOf_append (log log' : List (Work D)) (id : String) :
    callsOf (log ++ log') id = callsOf log id ++ callsOf log' id := List.flatMap_append

theorem callsOf_cons (w : Work D) (log : List (Work D)) (id : String) :
    callsOf (w :: log) id = (if w.id = id then w.commands else []) ++ callsOf log id := rfl

theorem callsOf_of_notMem {log : List (Work D)} {id : String} (h : ∀ w ∈ log, w.id ≠ id) :
    callsOf log id = [] := by
  refine List.flatMap_eq_nil_iff.mpr (fun w hw => ?_)
  rw [if_neg (h w hw)]

/-- The calls of a work are all of its id, in works with pairwise distinct ids. -/
theorem callsOf_of_nodup {works : List (Work D)} (hnd : (works.map Work.id).Nodup) {w : Work D}
    (hw : w ∈ works) : callsOf works w.id = w.commands := by
  induction works with
  | nil => cases hw
  | cons w' works ih =>
    obtain ⟨hnot, hnd⟩ := List.nodup_cons.mp hnd
    have hnot' : ∀ v ∈ works, v.id ≠ w'.id := fun v hv heq => hnot (heq ▸ List.mem_map_of_mem hv)
    rw [callsOf_cons]
    cases List.mem_cons.mp hw with
    | inl heq =>
      subst heq
      rw [if_pos rfl, callsOf_of_notMem hnot', List.append_nil]
    | inr hw =>
      rw [if_neg (Ne.symm (hnot' w hw)), ih hnd hw, List.nil_append]

/-- The works an action committed: those noted, of a commit that returned `Ok`. -/
def committed (works : List (Work D)) : (a : RepoAction) → a.Resp → List (Work D)
  | .commit _, (.ok (), _) => works
  | _, _ => []

/-- **An action with its history.** -/
def Sem (na : List (Work D) × RepoAction) (h : CallHistory D) (r : na.2.Resp)
    (h' : CallHistory D) : Prop :=
  na.2.Sem h.shared r h'.shared ∧ h'.log = h.log ++ committed na.1 na.2 r

/-- The same as a function, where the action does not iterate the map. -/
def alone (na : List (Work D) × RepoAction) (h : CallHistory D) : Option (na.2.Resp × CallHistory D) :=
  (na.2.alone h.shared).map (fun (r, s) => (r, ⟨s, h.log ++ committed na.1 na.2 r⟩))

theorem sem_of_alone (na : List (Work D) × RepoAction) (h : CallHistory D) (r : na.2.Resp)
    (h' : CallHistory D) (halone : alone na h = some (r, h')) : Sem na h r h' := by
  obtain ⟨⟨r', s⟩, hs, heq⟩ := Option.map_eq_some_iff.mp halone
  obtain ⟨rfl, rfl⟩ := Prod.mk.inj heq
  exact ⟨RepoAction.sem_of_alone na.2 h.shared r' s hs, rfl⟩

end CallHistory

namespace SerialCalls

variable (D : Definition σ)

/-- A program of a client: the actions of a commit have the works committed as a note. -/
abbrev NotedProg (α : Type) : Type :=
  Prog (List (Work D) × RepoAction) (fun na => na.2.Resp) α

/-- **The loads**, through the plain or the queued repository. -/
inductive Load : Op (List (Agg σ)) → Prop where
  | get {R : Repo} (hR : OverStore R) (now : SystemTime) (id : String) :
      Load (Prog.map (Except.map Option.toList) (AggregateRepository.get R D.aggregate now id))
  | getAll {R : Repo} (hR : OverStore R) (now : SystemTime) (ids : List String) :
      Load (AggregateRepository.getAll R D.aggregate now ids)
  | peek (now : SystemTime) (id : String) :
      Load (Prog.map (Except.map Option.toList)
        (AggregateRepository.peek D.aggregate now (queuedRepository hashMapRepository) id))
  | peekAll (now : SystemTime) (ids : List String) :
      Load (AggregateRepository.peekAll D.aggregate now (queuedRepository hashMapRepository) ids)

variable {D}

/-- The works after a load. -/
def loaded (pool : List (Work D)) : RepoRes (List (Agg σ)) → List (Work D)
  | .ok aggs => aggs.map Work.start ++ pool
  | .error _ => pool

/-- **What a client does next.** -/
inductive Start : List (Work D) → NotedProg D (List (Work D)) → Prop where
  /-- `new_empty`, or with an id set. -/
  | create (id : String) (pool : List (Work D)) :
      Start pool (.ret (Work.start ⟨D.default, Entity.withId id⟩ :: pool))
  /-- A call that takes effect. -/
  | call (pre post : List (Work D)) (w : Work D) (c : D.MethodCall) (agg : Agg σ)
      (hguard : c.command.guard w.agg = true) (hrun : c.command.run w.agg = some agg) :
      Start (pre ++ w :: post) (.ret (pre ++ ⟨w.base, w.calls ++ [c], agg⟩ :: post))
  /-- A load. -/
  | load (pool : List (Work D)) (p : Op (List (Agg σ))) (hp : Load D p) :
      Start pool ((p.noting []).map (loaded pool))
  /-- `commit` or `commit_all`, of aggregates with pairwise distinct ids. -/
  | commit {R : Repo} (hR : OverStore R) (pool batch rest : List (Work D))
      (hpool : pool.Perm (batch ++ rest)) (hnd : (batch.map Work.id).Nodup)
      (hnamed : ∀ w ∈ batch, w.Named) :
      Start pool (((AggregateRepository.commitAll R (batch.map Work.agg)).noting batch).map
        (fun r => Work.settle batch r.1 r.2.1 ++ rest))
  /-- `abort`, or `unlock` of any id. -/
  | unlock (id : String) (pool : List (Work D)) :
      Start pool (((QueuedRepository.unlock id).noting []).map (fun _ => pool))

/-- **A `commit`** is a `commit_all` of one aggregate. -/
theorem Start.commit_one {R : Repo} (hR : OverStore R) {pool rest : List (Work D)} {w : Work D}
    (hpool : pool.Perm (w :: rest)) (hw : w.Named) :
    Start pool (((AggregateRepository.commit R w.agg).noting [w]).map
      (fun r => Work.settle [w] r.1 r.2.1 ++ rest)) :=
  .commit hR pool [w] rest hpool (List.nodup_singleton _)
    (fun _ hv => List.mem_singleton.mp hv ▸ hw)

/-- **An `abort`** is an `unlock` of the aggregate's id. -/
theorem Start.abort (agg : Agg σ) (pool : List (Work D)) :
    Start pool (((AggregateRepository.abort (queuedRepository hashMapRepository) agg).noting []).map
      (fun _ => pool)) :=
  .unlock agg.entity.id pool

variable (D)

/-- **Clients sharing one store.** -/
def system (C : Type) : System C (List (Work D) × RepoAction) (fun na => na.2.Resp) (CallHistory D)
    (List (Work D)) where
  sem _ := CallHistory.Sem
  start _ := Start

/-- A state of the clients and the store. -/
abbrev State (C : Type) : Type :=
  Config C (List (Work D) × RepoAction) (fun na => na.2.Resp) (CallHistory D) (List (Work D))

/-- An empty store, and clients with nothing. -/
def initial (C : Type) : State D C :=
  ⟨⟨Shared.empty, []⟩, fun _ => .ret []⟩

/-! ## What a client knows -/

variable {D}

/-- **The works of a client fit what it knows**: each has come by its calls from an aggregate as
it is loaded, that calls on one aggregate have left, and whose events are stored. -/
structure Fits (k : Known) (w : Work D) : Prop where
  loaded : ∃ v, w.base = (Agg.loaded w.base.entity.id w.base.entity.events w.base.fields).noting v
  records : ∃ cs, D.Records w.base.entity.id cs w.base.entity.events w.base.fields
  initial : w.base.entity.events <+: k.stream w.base.entity.id
  applies : Applies w.commands w.base w.agg

namespace Fits

variable {k k' : Known} {w : Work D}

theorem mono (h : Fits k w) (hk : k ≤ k') : Fits k' w :=
  ⟨h.loaded, h.records, h.initial.trans (hk _), h.applies⟩

theorem start {id : String} {cs : List (Command σ)} {l : List EventRecord} {f : σ}
    (h : D.Records id cs l f) (hl : l <+: k.stream id) (v : ℕ) :
    Fits k (Work.start ((Agg.loaded id l f).noting v) : Work D) :=
  ⟨⟨v, rfl⟩, ⟨cs, h⟩, hl, .nil _⟩

theorem entity_eq (h : Fits k w) : ∃ v,
    w.base.entity = (EventStore.loadEntity w.base.entity.id w.base.entity.events).setSnapshotVersion v := by
  obtain ⟨v, hv⟩ := h.loaded
  exact ⟨v, congrArg Agg.entity hv⟩

theorem agg_entity (h : Fits k w) : ∃ v records, w.agg.entity
    = ((EventStore.loadEntity w.base.entity.id w.base.entity.events).setSnapshotVersion v).recorded
        w.agg.entity.id records ∧ records.length = w.commands.length := by
  obtain ⟨v, hv⟩ := h.entity_eq
  obtain ⟨records, hlen, hagg⟩ := h.applies.entity_eq (by rw [hv]; rfl) (by rw [hv]; rfl)
  exact ⟨v, records, hv ▸ hagg, hlen⟩

theorem call {c : D.MethodCall} {agg : Agg σ} (h : Fits k w) (hguard : c.command.guard w.agg = true)
    (hrun : c.command.run w.agg = some agg) : Fits k ⟨w.base, w.calls ++ [c], agg⟩ := by
  refine ⟨h.loaded, h.records, h.initial, ?_⟩
  rw [Work.commands, List.map_append]
  exact h.applies.concat hguard hrun

/-- **The calls of the work, after the calls on one aggregate** that have left the events it
began with. -/
theorem extend (hD : D.WellFormed) (hup : D.upcasters = []) (hread : ∀ m ∈ D.methods, m.ReadsOnlyId)
    (h : Fits k w) (hnamed : w.Named) {cs : List (Command σ)} {f : σ}
    (hcs : D.Records w.id cs w.base.entity.events f) :
    D.Records w.id (cs ++ w.commands) w.agg.entity.events w.agg.fields := by
  obtain ⟨ds, hds⟩ := h.records
  -- the fields it began with are those of the events
  have hf : f = w.base.fields := by
    cases hnamed with
    | inl hsame =>
      rw [hsame] at hcs
      exact hcs.unique hD hup hread hds
    | inr hnew =>
      rw [hnew.1] at hcs hds
      exact hcs.eq_default.trans hds.eq_default.symm
  subst hf
  obtain ⟨v, hv⟩ := h.entity_eq
  exact Definition.Records.extend hread hv (fun c hc => Work.method_mem hc) h.applies hcs
    (hnamed.imp_right And.right)

theorem records_agg (hD : D.WellFormed) (hup : D.upcasters = [])
    (hread : ∀ m ∈ D.methods, m.ReadsOnlyId) (h : Fits k w) (hnamed : w.Named) :
    ∃ cs, D.Records w.id cs w.agg.entity.events w.agg.fields := by
  cases hnamed with
  | inl hsame =>
    obtain ⟨ds, hds⟩ := h.records
    exact ⟨_, h.extend hD hup hread (Or.inl hsame) (hsame ▸ hds)⟩
  | inr hnew =>
    exact ⟨_, h.extend hD hup hread (Or.inr hnew) (hnew.1 ▸ Definition.Records.nil D w.id)⟩

/-- The work tracks the stream of its id. -/
theorem tracks (h : Fits k w) (hnamed : w.Named) : w.agg.entity.Tracks (k.stream w.id) := by
  obtain ⟨ds, hds⟩ := h.records
  obtain ⟨v, hv⟩ := h.entity_eq
  have hbase : w.base.entity.Tracks w.base.entity.events := by
    rw [hv]
    have ht : (EventStore.loadEntity w.base.entity.id w.base.entity.events).Tracks w.base.entity.events :=
      Entity.Tracks.load hds.numbered _
    exact ⟨ht.committed_le, ht.version_eq, ht.numbered, ht.initial⟩
  have hreplaying : w.base.entity.replaying = false := by
    rw [hv]
    rfl
  cases hnamed with
  | inl hsame =>
    rw [hsame]
    exact h.applies.tracks hreplaying (hbase.mono h.initial)
  | inr hnew =>
    refine h.applies.tracks hreplaying (hbase.mono ?_)
    rw [hnew.1]
    exact List.nil_prefix

/-- **A work that is committed begins again** from the committed aggregate. -/
theorem committed_eq (h : Fits k w) : ∃ v, w.agg.committed
    = (Agg.loaded w.id w.agg.entity.events w.agg.fields).noting v := by
  obtain ⟨v, records, hagg, -⟩ := h.agg_entity
  refine ⟨v, ?_⟩
  unfold Agg.committed Agg.loaded Agg.noting Work.id
  rw [hagg]
  rfl

/-- **The stream a work passes the version check of** is what it began with. -/
theorem stream_eq (h : Fits k w) (hnamed : w.Named) {stream : List EventRecord}
    (hk : k.stream w.id <+: stream) (hlen : stream.length = w.agg.entity.committedVersion) :
    stream = w.base.entity.events := by
  obtain ⟨v, records, hagg, -⟩ := h.agg_entity
  have hcommitted : w.agg.entity.committedVersion = w.base.entity.events.length := by
    rw [hagg]
    rfl
  have hshort : w.base.entity.events <+: stream := by
    cases hnamed with
    | inl hsame => exact (hsame ▸ h.initial).trans hk
    | inr hnew => exact hnew.1 ▸ List.nil_prefix
  exact (hshort.eq_of_length (hlen.trans hcommitted).symm).symm

end Fits

theorem tracks_batch {k : Known} {batch : List (Work D)} (h : ∀ w ∈ batch, Fits k w ∧ w.Named) :
    k.Tracks (batch.map (fun w => w.agg.entity)) := by
  intro e he
  obtain ⟨w, hw, rfl⟩ := List.mem_map.mp he
  exact (h w hw).1.tracks (h w hw).2

/-! ## The protocol -/

/-- What is asked of a definition: it is in order, has no upcasters, and its methods look at
nothing of the entity but its id. -/
structure Lawful (D : Definition σ) : Prop where
  wellFormed : D.WellFormed
  upcasters : D.upcasters = []
  readsOnlyId : ∀ m ∈ D.methods, m.ReadsOnlyId

/-- **The events of the entity are those of one aggregate** with its id. -/
def Recorded (D : Definition σ) (e : Entity) : Prop := ∃ cs f, D.Records e.id cs e.events f

section Protocol

variable (V : SnapshotRecord → List EventRecord → Prop)

/-- The protocol of the actions, in which the entities that are read are recorded. -/
abbrev learning (D : Definition σ) : Protocol RepoAction RepoAction.Resp Known :=
  (Known.protocol V).learning entityRead (Recorded D)

/-- **What a client may do**: commit the works it has noted, which fit what it knows, and save
snapshots that are right. -/
def protocol (D : Definition σ) :
    Protocol (List (Work D) × RepoAction) (fun na => na.2.Resp) Known where
  pre na k := (Known.protocol V).pre na.2 k ∧ ∀ es, na.2 = .commit es →
    es = na.1.map (fun w => w.agg.entity) ∧ ∀ w ∈ na.1, Fits k w ∧ w.Named
  upd na k r k' := (learning V D).upd na.2 k r k'

end Protocol

/-- The actions that are no commits. -/
def NoCommit (a : RepoAction) : Prop := ∀ es, a ≠ .commit es

variable {V : SnapshotRecord → List EventRecord → Prop}

theorem wp_reads {α : Type} {n : List (Work D)} {p : RepoProg α} {Q : α → Known × List Entity → Prop}
    {k : Known} (hp : p.Only NoCommit) (h : (Known.reading V).wp Q p (k, [])) :
    (protocol V D).wp (fun x k' => ∃ es, (∀ e ∈ es, Recorded D e) ∧ Q x (k', es)) (p.noting n) k := by
  refine Protocol.wp_noting (P := learning V D) (T := NoCommit) (J := fun _ => True)
    (fun a o ha _ hpre => ?_) (fun _ _ _ _ hupd => hupd) (fun _ _ _ _ _ _ => trivial) hp trivial
    (Protocol.wp_learning h)
  exact ⟨hpre, fun es hes => absurd hes (ha es)⟩

/-! ## The programs of a client -/

open Known (Never Since)

section Only

variable {R : Repo}

theorem only_acquireAll (ids : List String) : (QueuedRepository.acquireAll ids).Only NoCommit := by
  refine Call.only_forEach (fun id => ?_) ids
  exact ⟨fun _ => RepoAction.noConfusion, fun _ => trivial⟩

theorem only_hashMap_getOne (id : String) : (HashMapRepository.getOne id).Only NoCommit :=
  Prog.only_perform (fun _ => RepoAction.noConfusion)

theorem only_hashMap_getMany (ids : List String) : (HashMapRepository.getMany ids).Only NoCommit := by
  refine Call.only_collect (fun id => ?_) ids
  exact Call.only_andThen (only_hashMap_getOne id) (fun _ => trivial)

/-- **The reads of a repository commit nothing.** -/
theorem only_getOne (hR : OverStore R) (id : String) : (R.getOne id).Only NoCommit := by
  cases hR with
  | plain => exact only_hashMap_getOne id
  | queued =>
    exact Call.only_andThen (p := QueuedRepository.acquire id)
      ⟨fun _ => RepoAction.noConfusion, fun _ => trivial⟩ (fun _ => only_hashMap_getOne id)

theorem only_getMany (hR : OverStore R) (ids : List String) : (R.getMany ids).Only NoCommit := by
  cases hR with
  | plain => exact only_hashMap_getMany ids
  | queued => exact Call.only_andThen (only_acquireAll _) (fun _ => only_hashMap_getMany ids)

theorem only_loadOne {read : Op (Option Entity)} (hread : read.Only NoCommit) {f : Hydrator σ}
    (hf : ∀ e, (f e).Only NoCommit) : (f.loadOne read).Only NoCommit := by
  refine Call.only_andThen hread (fun o => ?_)
  cases o with
  | none => trivial
  | some e => exact Call.only_andThen (hf e) (fun _ => trivial)

theorem only_loadAll {read : Op (List Entity)} (hread : read.Only NoCommit) {f : Hydrator σ}
    (hf : ∀ e, (f e).Only NoCommit) : (f.loadAll read).Only NoCommit := by
  refine Call.only_andThen hread (fun es => Call.only_collect (fun e => ?_) es)
  exact Call.only_andThen (hf e) (fun _ => trivial)

theorem only_hydrator (now : SystemTime) (e : Entity) :
    (AggregateRepository.hydrator D.aggregate now e).Only NoCommit := trivial

/-- **And so do the loads.** -/
theorem only_load {p : Op (List (Agg σ))} (hp : Load D p) : p.Only NoCommit := by
  cases hp with
  | get hR now id => exact (only_loadOne (only_getOne hR id) (only_hydrator now)).map _
  | getAll hR now ids => exact only_loadAll (only_getMany hR ids) (only_hydrator now)
  | peek now id => exact (only_loadOne (only_hashMap_getOne id) (only_hydrator now)).map _
  | peekAll now ids => exact only_loadAll (only_hashMap_getMany ids) (only_hydrator now)

/-- The commits of a repository are of the batch. -/
theorem only_commit (hR : OverStore R) (es : List Entity) :
    (R.commit es).Only (fun a => ∀ es', a = .commit es' → es' = es) := by
  have hone : (RepoProg.perform (.commit es)).Only (fun a => ∀ es', a = .commit es' → es' = es) :=
    Prog.only_perform (fun es' h => (RepoAction.commit.inj h).symm)
  cases hR with
  | plain => exact hone
  | queued =>
    refine Prog.Only.bind hone (fun r => ?_)
    obtain ⟨r, es'⟩ := r
    cases r with
    | error f => trivial
    | ok u =>
      refine Prog.Only.map (Call.only_forEach (fun id => ?_) _) _
      exact ⟨fun _ h => RepoAction.noConfusion h, fun _ => trivial⟩

end Only

section Loads

variable {kl : Known × List Entity}

/-- **The aggregate is a copy**: the entity, if its events are those of one aggregate, with the
fields of that. The version of a snapshot may be noted in it. -/
def CopyOf (D : Definition σ) (e : Entity) (agg : Agg σ) : Prop :=
  ∀ cs f, D.Records e.id cs e.events f → ∃ v, agg = (Agg.loaded e.id e.events f).noting v

/-- The aggregates are copies of the entities read. -/
def Copied (D : Definition σ) (kl : Known × List Entity) (aggs : List (Agg σ)) : Prop :=
  ∀ agg ∈ aggs, ∃ e ∈ kl.2, kl.1.Loads e ∧ CopyOf D e agg

/-- A failure of a load promises nothing more. -/
abbrev grown (k : Known) : Fault RepositoryError → Known × List Entity → Prop := fun _ kl => k ≤ kl.1

/-- **The hydrator copies a loaded entity**, or fails, and reads no entity itself. -/
def Copying (V : SnapshotRecord → List EventRecord → Prop) (D : Definition σ) (f : Hydrator σ)
    (e : Entity) : Prop :=
  ∀ kl, kl.1.Loads e → (Known.reading V).wp (Protocol.outcome
    (fun agg kl' => Since kl [] kl' ∧ CopyOf D e agg) (fun _ kl' => Since kl [] kl')) (f e) kl

theorem copyOf_hydrate (hD : Lawful D) {now : SystemTime} {e : Entity} {agg : Agg σ}
    (h : D.aggregate.hydrate now e = .ok agg) (he : e = EventStore.loadEntity e.id e.events) :
    CopyOf D e agg := by
  intro cs f hcs
  refine ⟨0, ?_⟩
  rw [he, hcs.hydrate hD.wellFormed hD.upcasters hD.readsOnlyId now] at h
  exact (Except.ok.inj h).symm

theorem copying_hydrator (hD : Lawful D) (now : SystemTime) (e : Entity) :
    Copying V D (AggregateRepository.hydrator D.aggregate now) e := by
  intro kl he
  show Protocol.outcome _ _ (D.aggregate.hydrate now e) kl
  cases hok : D.aggregate.hydrate now e with
  | error f => exact Since.refl kl
  | ok agg => exact ⟨Since.refl kl, copyOf_hydrate hD hok he.loadEntity⟩

/-- **A load of one aggregate.** -/
theorem wp_loadOne {read : Op (Option Entity)} {id : String} {f : Hydrator σ} (k : Known)
    (hread : (Known.reading V).wp (Protocol.outcome (fun o kl' =>
      Since (k, []) o.toList kl' ∧ ∀ e ∈ o, e.id = id ∧ kl'.1.Loads e) Never) read (k, []))
    (hf : ∀ e, e.id = id → Copying V D f e) :
    (Known.reading V).wp (Protocol.outcome (fun o kl' => k ≤ kl'.1 ∧ Copied D kl' o.toList) (grown k))
      (f.loadOne read) (k, []) := by
  refine Protocol.wp_andThen_ok _ (fun o kl' ⟨hsince, ho⟩ => ?_) hread
  cases o with
  | none => exact ⟨hsince.1, fun agg hagg => absurd hagg List.not_mem_nil⟩
  | some e =>
    obtain ⟨hid, hloads⟩ := ho e rfl
    show (Known.reading V).wp _ (Call.andThen (f e) _) kl'
    rw [Protocol.wp_andThen]
    refine Protocol.wp_mono _ (fun r kl'' hr => ?_) (hf e hid kl' hloads)
    cases r with
    | error g => exact hsince.1.trans hr.1
    | ok agg =>
      obtain ⟨hrest, hcopy⟩ := hr
      refine ⟨hsince.1.trans hrest.1, fun agg' hagg' => ?_⟩
      obtain rfl : agg' = agg := List.mem_singleton.mp hagg'
      refine ⟨e, ?_, hloads.mono hrest.1, hcopy⟩
      rw [hrest.2, hsince.2]
      simp

/-- **A load of several aggregates.** -/
theorem wp_loadAll {read : Op (List Entity)} {f : Hydrator σ} (k : Known)
    (hread : (Known.reading V).wp (Protocol.outcome (fun es kl' =>
      Since (k, []) es kl' ∧ ∀ e ∈ es, kl'.1.Loads e) Never) read (k, []))
    (hf : ∀ e, Copying V D f e) :
    (Known.reading V).wp (Protocol.outcome (fun aggs kl' => k ≤ kl'.1 ∧ Copied D kl' aggs) (grown k))
      (f.loadAll read) (k, []) := by
  refine Protocol.wp_andThen_ok _ (fun es kl' ⟨hsince, hes⟩ => ?_) hread
  -- every turn reads no entity and makes a copy of the entity it is given
  refine Protocol.wp_mono _ (fun r kl'' hr => ?_) (Protocol.wp_collect _
    (I := fun _ aggs kl'' => Since kl' [] kl'' ∧ ∀ agg ∈ aggs, ∃ e ∈ es, CopyOf D e agg)
    (E := fun _ kl'' => Since kl' [] kl'') (fun e he seen aggs kl'' hI => ?_)
    ⟨Since.refl kl', fun agg hagg => absurd hagg List.not_mem_nil⟩)
  · cases r with
    | error g => exact hsince.1.trans hr.1
    | ok aggs =>
      obtain ⟨hrest, haggs⟩ := hr
      refine ⟨hsince.1.trans hrest.1, fun agg hagg => ?_⟩
      obtain ⟨e, he, hcopy⟩ := haggs agg hagg
      refine ⟨e, ?_, (hes e he).mono hrest.1, hcopy⟩
      rw [hrest.2, hsince.2]
      simpa using he
  · obtain ⟨hrest, haggs⟩ := hI
    rw [Call.bind_eq, Protocol.wp_andThen]
    refine Protocol.wp_mono _ (fun r kl₃ hr => ?_) (hf e kl'' ((hes e he).mono hrest.1))
    cases r with
    | error g => exact hrest.trans_nil hr
    | ok agg =>
      refine ⟨hrest.trans_nil hr.1, fun agg' hagg' => ?_⟩
      cases List.mem_append.mp hagg' with
      | inl h => exact haggs agg' h
      | inr h => exact ⟨e, he, List.mem_singleton.mp h ▸ hr.2⟩

theorem wp_toList {p : Op (Option (Agg σ))} {k : Known} (h : (Known.reading V).wp
      (Protocol.outcome (fun o kl' => k ≤ kl'.1 ∧ Copied D kl' o.toList) (grown k)) p (k, [])) :
    (Known.reading V).wp (Protocol.outcome (fun aggs kl' => k ≤ kl'.1 ∧ Copied D kl' aggs) (grown k))
      (Prog.map (Except.map Option.toList) p) (k, []) := by
  rw [Protocol.wp_map]
  refine Protocol.wp_mono _ (fun r kl' hr => ?_) h
  cases r <;> exact hr

/-- **Every load** returns copies of entities it has read. -/
theorem wp_load (hD : Lawful D) {p : Op (List (Agg σ))} (hp : Load D p) (k : Known) :
    (Known.reading V).wp (Protocol.outcome (fun aggs kl' => k ≤ kl'.1 ∧ Copied D kl' aggs) (grown k))
      p (k, []) := by
  cases hp with
  | get hR now id =>
    exact wp_toList (wp_loadOne k (Known.wp_getOne hR (k, []) id) (fun e _ => copying_hydrator hD now e))
  | getAll hR now ids => exact wp_loadAll k (Known.wp_getMany hR (k, []) ids) (copying_hydrator hD now)
  | peek now id =>
    exact wp_toList (wp_loadOne k (Known.wp_hashMap_getOne (k, []) id)
      (fun e _ => copying_hydrator hD now e))
  | peekAll now ids =>
    exact wp_loadAll k (Known.wp_hashMap_getMany (k, []) ids) (copying_hydrator hD now)

end Loads

section Programs

variable {R : Repo} {k : Known}

/-- **A commit of aggregates whose entities track** fails and leaves them, or marks them, and
their events are stored. -/
theorem wp_commitWith (hR : OverStore R) {aggs : List (Agg σ)} (htracks : k.Tracks (aggs.map Agg.entity))
    (hnd : ((aggs.map Agg.entity).map Entity.id).Nodup) :
    (Known.reading V).wp (fun r kl => Since (k, []) [] kl
        ∧ ((∃ f, r.1 = .error f) ∧ r.2.1 = aggs
          ∨ r.1 = .ok () ∧ r.2.1 = aggs.map Agg.committed
            ∧ ∀ a ∈ aggs, a.entity.events <+: kl.1.stream a.entity.id))
      (AggregateRepository.commitWith R aggs []) (k, []) := by
  have hnil : aggs.map Agg.entity ++ [] = aggs.map Agg.entity := List.append_nil _
  rw [AggregateRepository.commitWith, Protocol.wp_map]
  refine Protocol.wp_mono _ (fun r kl hr => ⟨hr.1, ?_⟩)
    (Known.wp_commit hR (hnil.symm ▸ htracks) (hnil.symm ▸ hnd))
  cases hr.2 with
  | inl hfailed =>
    obtain ⟨f, rfl⟩ := hfailed
    refine Or.inl ⟨⟨f, rfl⟩, ?_⟩
    have hzip := AggregateRepository.zipWith_entity aggs [] id
    rw [List.map_id] at hzip
    exact hzip.trans (List.map_id aggs)
  | inr hok =>
    obtain ⟨rfl, -, hstored⟩ := hok
    refine Or.inr ⟨rfl, AggregateRepository.zipWith_entity aggs [] _, fun a ha => ?_⟩
    exact hstored _ (List.mem_append_left _ (List.mem_map_of_mem ha))

/-- **A program that commits a batch of works that fit** keeps the protocol, with the batch as
its note. -/
theorem wp_batch {α : Type} {batch : List (Work D)} (hbatch : ∀ w ∈ batch, Fits k w ∧ w.Named)
    {p : RepoProg α} {Q : α → Known → Prop}
    (hp : p.Only (fun a => ∀ es, a = .commit es → es = (batch.map Work.agg).map Agg.entity ++ []))
    (h : (Known.reading V).wp (fun x kl => Q x kl.1) p (k, [])) :
    (protocol V D).wp Q (p.noting batch) k := by
  refine Protocol.wp_noting (P := Known.protocol V) (J := fun k' => k ≤ k') (fun a k' ha hk hpre => ?_)
    (fun _ _ _ _ hupd => ?_) (fun _ _ _ _ hk hupd => hk.trans hupd.1) hp le_rfl
    (Protocol.wp_of_observing _ h)
  · refine ⟨hpre, fun es hes => ⟨(ha es hes).trans (by simp), fun w hw => ?_⟩⟩
    exact ⟨(hbatch w hw).1.mono hk, (hbatch w hw).2⟩
  · exact hupd.1

theorem tracks_aggs {batch : List (Work D)} (hnd : (batch.map Work.id).Nodup)
    (hbatch : ∀ w ∈ batch, Fits k w ∧ w.Named) :
    k.Tracks ((batch.map Work.agg).map Agg.entity)
      ∧ (((batch.map Work.agg).map Agg.entity).map Entity.id).Nodup := by
  rw [List.map_map, List.map_map]
  exact ⟨tracks_batch hbatch, hnd⟩

/-- **A committed work begins again**, and fits. -/
theorem fits_committed (hD : Lawful D) {w : Work D} (h : Fits k w) (hnamed : w.Named) {k' : Known}
    (hstored : w.agg.entity.events <+: k'.stream w.id) (v : ℕ) :
    Fits k' (Work.start (w.agg.committed.noting v) : Work D) := by
  obtain ⟨cs, hcs⟩ := h.records_agg hD.wellFormed hD.upcasters hD.readsOnlyId hnamed
  obtain ⟨u, hu⟩ := h.committed_eq
  rw [hu]
  exact Fits.start hcs hstored v

/-- **Committed works that fit**: after the commit of a batch each of its works is as it was, or
begins again. -/
theorem wp_commitAll (hD : Lawful D) (hR : OverStore R) {batch : List (Work D)}
    (hnd : (batch.map Work.id).Nodup) (hbatch : ∀ w ∈ batch, Fits k w ∧ w.Named) :
    (protocol V D).wp (fun r k' => k ≤ k' ∧ ∀ w ∈ Work.settle batch r.1 r.2.1, Fits k' w)
      ((AggregateRepository.commitAll R (batch.map Work.agg)).noting batch) k := by
  obtain ⟨htracks, hids⟩ := tracks_aggs hnd hbatch
  refine wp_batch hbatch ((only_commit hR _).map _)
    (Protocol.wp_mono _ (fun r kl hr => ⟨hr.1.1, fun w hw => ?_⟩) (wp_commitWith hR htracks hids))
  obtain ⟨r, aggs, others⟩ := r
  obtain ⟨hsince, hr⟩ := hr
  cases hr with
  | inl hfailed =>
    obtain ⟨⟨f, rfl⟩, rfl⟩ := hfailed
    rw [Work.settle_unchanged] at hw
    exact (hbatch w hw).1.mono hsince.1
  | inr hok =>
    obtain ⟨rfl, rfl, hstored⟩ := hok
    obtain ⟨a, ha, rfl⟩ := List.mem_map.mp hw
    obtain ⟨a', ha', rfl⟩ := List.mem_map.mp ha
    obtain ⟨w', hw', rfl⟩ := List.mem_map.mp ha'
    exact fits_committed hD (hbatch w' hw').1 (hbatch w' hw').2 (hstored _ ha') _

theorem fits_of_copied {es : List Entity} {aggs : List (Agg σ)} (hes : ∀ e ∈ es, Recorded D e)
    (h : Copied D (k, es) aggs) {agg : Agg σ} (hagg : agg ∈ aggs) :
    Fits k (Work.start agg : Work D) := by
  obtain ⟨e, he, hloads, hcopy⟩ := h agg hagg
  obtain ⟨cs, f, hcs⟩ := hes e he
  obtain ⟨v, rfl⟩ := hcopy cs f hcs
  exact Fits.start hcs hloads.initial v

/-- **The works after a load** fit. -/
theorem wp_loaded {p : Op (List (Agg σ))} {pool : List (Work D)} (hpool : ∀ w ∈ pool, Fits k w)
    (hp : p.Only NoCommit) (h : (Known.reading V).wp
      (Protocol.outcome (fun aggs kl' => k ≤ kl'.1 ∧ Copied D kl' aggs) (grown k)) p (k, [])) :
    (protocol V D).wp (fun pool k => ∀ w ∈ pool, Fits k w) ((p.noting []).map (loaded pool)) k := by
  rw [Protocol.wp_map]
  refine Protocol.wp_mono _ (fun r k' hr => ?_) (wp_reads hp h)
  obtain ⟨es, hes, hr⟩ := hr
  cases r with
  | error f => exact fun w hw => (hpool w hw).mono hr
  | ok aggs =>
    intro w hw
    cases List.mem_append.mp hw with
    | inl hnew =>
      obtain ⟨agg, hagg, rfl⟩ := List.mem_map.mp hnew
      exact fits_of_copied hes hr.2 hagg
    | inr hold => exact (hpool w hold).mono hr.1

/-- **Every program of a client keeps the protocol**, and its works fit. -/
theorem wp_start (hD : Lawful D) {pool : List (Work D)} {p : NotedProg D (List (Work D))}
    (hpool : ∀ w ∈ pool, Fits k w) (h : Start pool p) :
    (protocol V D).wp (fun pool k => ∀ w ∈ pool, Fits k w) p k := by
  cases h with
  | create id =>
    exact List.forall_mem_cons.mpr
      ⟨Fits.start (Definition.Records.nil D id) List.nil_prefix 0, hpool⟩
  | call pre post w c agg hguard hrun =>
    intro w' hw'
    cases List.mem_append.mp hw' with
    | inl hpre => exact hpool w' (List.mem_append_left _ hpre)
    | inr hrest =>
      cases List.mem_cons.mp hrest with
      | inl heq => exact heq ▸ (hpool w (by simp)).call hguard hrun
      | inr hpost => exact hpool w' (List.mem_append_right _ (List.mem_cons_of_mem w hpost))
  | load _ p hp => exact wp_loaded hpool (only_load hp) (wp_load hD hp k)
  | commit hR _ batch rest hperm hnd hnamed =>
    have hall : ∀ w ∈ batch ++ rest, Fits k w := fun w hw => hpool w (hperm.symm.subset hw)
    rw [Protocol.wp_map]
    refine Protocol.wp_mono _ (fun r k' hr => ?_) (wp_commitAll hD hR hnd
      (fun w hw => ⟨hall w (List.mem_append_left _ hw), hnamed w hw⟩))
    intro w hw
    cases List.mem_append.mp hw with
    | inl hbatch => exact hr.2 w hbatch
    | inr hrest => exact (hall w (List.mem_append_right _ hrest)).mono hr.1
  | unlock id =>
    rw [Protocol.wp_map]
    have hread := Known.wp_release (V := V) (k, []) id
    refine Protocol.wp_mono _ (fun r k' hr => ?_)
      (wp_reads (p := QueuedRepository.release id) ⟨fun _ => RepoAction.noConfusion, fun _ => trivial⟩ hread)
    obtain ⟨es, -, hr⟩ := hr
    cases r with
    | error f => exact hr.elim
    | ok u => exact fun w hw => (hpool w hw).mono hr.1

end Programs

/-! ## The joint invariant -/

section Inv

variable {C : Type} {h h' : CallHistory D} {known : C → Known}

/-- **The joint invariant**: that of the store and of what the clients know, and that the stream
of every id is what the calls of the works committed have left on one aggregate. -/
structure Inv (V : SnapshotRecord → List EventRecord → Prop) (D : Definition σ) (h : CallHistory D)
    (known : C → Known) : Prop where
  store : StoreInv V h.shared known
  serial : ∀ id, ∃ f, D.Records id (CallHistory.callsOf h.log id) (h.shared.events.stream id) f

/-- An entity that is read is that of one aggregate. -/
theorem Inv.recorded (hI : Inv V D h known) {a : RepoAction} {r : a.Resp} {s : Shared}
    (hsem : a.Sem h.shared r s) : ∀ e ∈ entityRead ⟨a, r⟩, Recorded D e := by
  intro e he
  cases a with
  | getOne id =>
    obtain ⟨hr, -⟩ := RepoAction.sem_getOne.mp hsem
    cases r with
    | error f => cases he
    | ok o =>
      cases o with
      | none => cases he
      | some e' =>
        obtain rfl : e = e' := List.mem_singleton.mp he
        obtain ⟨l, hl, rfl⟩ := EventStore.lookup_of_getOne hr.symm
        obtain ⟨f, hf⟩ := hI.serial id
        rw [EventStore.lookup_eq_some hl] at hf
        exact ⟨_, f, hf⟩
  | _ => cases he

/-- **A commit of works that fit** adds their calls to those on the one aggregates. -/
theorem Inv.serial_commit (hD : Lawful D) (hI : Inv V D h known) {c : C} {works : List (Work D)}
    (hworks : ∀ w ∈ works, Fits (known c) w ∧ w.Named) (hnd : (works.map Work.id).Nodup)
    (hv : h.shared.events.Valid (works.map (fun w => w.agg.entity))) (id : String) :
    ∃ f, D.Records id (CallHistory.callsOf (h.log ++ works) id)
      ((h.shared.events.extendAll (works.map (fun w => w.agg.entity))).stream id) f := by
  have ht : h.shared.events.Tracked (works.map (fun w => w.agg.entity)) :=
    hI.store.tracked (tracks_batch hworks)
  have hids : ((works.map (fun w => w.agg.entity)).map Entity.id).Nodup := by
    rw [List.map_map]
    exact hnd
  obtain ⟨f, hf⟩ := hI.serial id
  rw [CallHistory.callsOf_append]
  by_cases hin : ∃ w ∈ works, w.id = id
  · obtain ⟨w, hw, rfl⟩ := hin
    obtain ⟨hfits, hnamed⟩ := hworks w hw
    have hmem : w.agg.entity ∈ works.map (fun w => w.agg.entity) := List.mem_map_of_mem hw
    have hstream : h.shared.events.stream w.id = w.base.entity.events :=
      hfits.stream_eq hnamed (hI.store.known_le c w.id) (hv _ hmem)
    rw [hstream] at hf
    refine ⟨w.agg.fields, ?_⟩
    rw [CallHistory.callsOf_of_nodup hnd hw, show w.id = w.agg.entity.id from rfl,
      EventStore.stream_extendAll_of_mem hv ht hids hmem]
    exact hfits.extend hD.wellFormed hD.upcasters hD.readsOnlyId hnamed hf
  · have hnot : ∀ w ∈ works, w.id ≠ id := fun w hw heq => hin ⟨w, hw, heq⟩
    refine ⟨f, ?_⟩
    rw [CallHistory.callsOf_of_notMem hnot, List.append_nil,
      EventStore.stream_extendAll_of_notMem]
    · exact hf
    · rw [List.map_map, List.mem_map]
      rintro ⟨w, hw, heq⟩
      exact hnot w hw heq

/-- **Every action a client may perform keeps the invariant.** -/
theorem Inv.act [DecidableEq C] (hV : ∀ r l l', l <+: l' → V r l → V r l') (hD : Lawful D)
    (hI : Inv V D h known) {c : C} {na : List (Work D) × RepoAction} {r : na.2.Resp}
    (hpre : (protocol V D).pre na (known c)) (hsem : CallHistory.Sem na h r h') :
    ∃ k', (protocol V D).upd na (known c) r k' ∧ Inv V D h' (Function.update known c k') := by
  obtain ⟨works, a⟩ := na
  obtain ⟨hact, hlog⟩ := hsem
  obtain ⟨hpre, hbatch⟩ := hpre
  obtain ⟨-, k', hupd, hstore⟩ := hI.store.act hV hpre hact
  refine ⟨k', ⟨hupd, hI.recorded hact⟩, hstore, fun id => ?_⟩
  -- what is no commit leaves the events and the log
  have hsame : h'.shared.events = h.shared.events → CallHistory.committed works a r = [] →
      ∃ f, D.Records id (CallHistory.callsOf h'.log id) (h'.shared.events.stream id) f := by
    intro hevents hnone
    rw [hlog, hnone, List.append_nil, hevents]
    exact hI.serial id
  cases a with
  | commit es =>
    obtain ⟨hes, hworks⟩ := hbatch es rfl
    change es = works.map (fun w => w.agg.entity) at hes
    subst hes
    cases hI.store.commit_cases hpre.1 hact with
    | inl hok =>
      obtain ⟨hv, rfl, hs⟩ := hok
      rw [hlog, hs]
      refine hI.serial_commit hD hworks ?_ hv id
      have hnd := hpre.2
      rw [List.map_map] at hnd
      exact hnd
    | inr hfailed =>
      obtain ⟨⟨f, rfl⟩, hs⟩ := hfailed
      exact hsame (congrArg Shared.events hs) rfl
  | saveSnapshot record =>
    obtain ⟨-, hs⟩ := RepoAction.sem_saveSnapshot.mp hact
    exact hsame (by rw [hs]; rfl) rfl
  | deleteSnapshot id' =>
    obtain ⟨-, hs⟩ := RepoAction.sem_deleteSnapshot.mp hact
    exact hsame (by rw [hs]; rfl) rfl
  | _ => exact hsame (RepoAction.stores_of_sem hact rfl).1 rfl

end Inv

/-! ## The law -/

section Law

variable {C : Type} [DecidableEq C] {x : State D C}

omit [DecidableEq C] in
variable (D C) in
theorem holds_initial :
    System.Holds (protocol V D) (Inv V D) (fun pool k => ∀ w ∈ pool, Fits k w) (initial D C) :=
  ⟨fun _ => Known.nothing, ⟨StoreInv.new, fun id => ⟨D.default, Definition.Records.nil D id⟩⟩,
    fun _ _ hw => absurd hw List.not_mem_nil⟩

theorem holds_of_run (hD : Lawful D) (hrun : (system D C).Run (initial D C) x) :
    System.Holds (protocol History.anySnapshot D) (Inv History.anySnapshot D)
      (fun pool k => ∀ w ∈ pool, Fits k w) x := by
  refine System.reachable_holds (fun c na h own r h' hI hpre hsem =>
      hI.act (fun _ _ _ _ _ => trivial) hD hpre hsem)
    (fun c l p o hl hstart => wp_start hD hl hstart) (holds_initial D C) hrun

/-- **It is as if there was one aggregate for each id**, on which the calls of all commits that
succeeded are made, one after the other: in every state that any clients reach, through the
plain or the queued repository, each of these calls takes effect on the aggregate, its events
are the stream that is stored, and whoever hydrates what is stored, at any time, has its
fields. -/
theorem calls_serial (hD : Lawful D) (hrun : (system D C).Run (initial D C) x) (id : String) :
    ∃ a, Applies (CallHistory.callsOf x.shared.log id) ⟨D.default, Entity.withId id⟩ a
      ∧ a.entity.id = id ∧ a.entity.events = x.shared.shared.events.stream id
      ∧ ∀ now, D.aggregate.hydrate now (EventStore.loadEntity id (x.shared.shared.events.stream id))
        = .ok (Agg.loaded id (x.shared.shared.events.stream id) a.fields) := by
  obtain ⟨known, hI, -⟩ := holds_of_run hD hrun
  obtain ⟨f, hf⟩ := hI.serial id
  have hhydrate := fun now => hf.hydrate hD.wellFormed hD.upcasters hD.readsOnlyId now
  obtain ⟨-, a, happlies, hid, hevents, rfl⟩ := hf
  exact ⟨a, happlies, hid, hevents, hhydrate⟩

end Law

/-! ### A run -/

theorem lawful_account : Lawful (Definition.account (fun _ => true)) where
  wellFormed := Definition.account_wellFormed _
  upcasters := rfl
  readsOnlyId m hm := by
    obtain rfl := List.mem_singleton.mp hm
    exact Definition.readsOnlyId_opened (fun _ _ _ => rfl)

/-- The call that opens an account. -/
def openAccount : (Definition.account (fun _ => true)).MethodCall :=
  ⟨⟨0, Nat.one_pos⟩, SystemTime.unixEpoch, ()⟩

/-- The work of a client that has made an account and opened it. -/
def openedWork : Work (Definition.account (fun _ => true)) :=
  ⟨⟨false, Entity.withId ""⟩, [openAccount],
    ⟨true, (Entity.withId "").recorded "account-1" [openAccount.command.record (Entity.withId "")]⟩⟩

theorem named_openedWork : openedWork.Named := by
  refine Or.inr ⟨rfl, .assigns rfl (fun _ _ => ⟨rfl, fun _ _ => rfl⟩) true "account-1" rfl⟩

/-- A client opens an account and commits it. -/
theorem exists_opened : ∃ x : State (Definition.account (fun _ => true)) Bool,
    (system (Definition.account (fun _ => true)) Bool).Run (initial _ Bool) x
      ∧ x.shared.log = [openedWork] := by
  have h₀ : (system (Definition.account (fun _ => true)) Bool).Run (initial _ Bool) (initial _ Bool) := .refl
  have h₁ := h₀.tail (.start true _ _ rfl (.create "" []))
  have h₂ := h₁.tail (.start true _ _ rfl
    (.call [] [] _ openAccount openedWork.agg rfl rfl))
  have h₃ := System.Run.call (c := true) CallHistory.sem_of_alone h₂ rfl
    (.commit .plain [openedWork] [openedWork] [] (.refl _) (List.nodup_singleton _)
      (fun w hw => List.mem_singleton.mp hw ▸ named_openedWork)) rfl
  exact ⟨_, h₃, rfl⟩

/-- **The law is about something**: the account has been opened. -/
theorem calls_serial_opened :
    ∃ (x : State (Definition.account (fun _ => true)) Bool) (a : Agg Bool),
      CallHistory.callsOf x.shared.log "account-1" = [openAccount.command]
        ∧ Applies (CallHistory.callsOf x.shared.log "account-1") ⟨false, Entity.withId "account-1"⟩ a
        ∧ a.entity.events = x.shared.shared.events.stream "account-1" := by
  obtain ⟨x, hrun, hlog⟩ := exists_opened
  obtain ⟨a, happlies, -, hevents, -⟩ := calls_serial lawful_account hrun "account-1"
  exact ⟨x, a, by rw [hlog]; rfl, happlies, hevents⟩

end SerialCalls
