import Sourced.EventMethod
import Sourced.EventStore

/-!
# Replay reproduces the live aggregate

An aggregate that has been through some calls is committed, read back and
hydrated. The replay calls the recorded methods again, in the same order, on
the default aggregate; a call rejected by its guard recorded nothing and is
not repeated, which is right because it changed nothing either.

The replay sees the same fields as the live calls did. It does not see the
same entity: `hydrate` puts the whole loaded entity in place *before* it
replays, so from the first event on the entity has the id it will only have
been given by a later one, and all its events. A guard that asks whether the
entity already has an id – a plausible one for a creating command – therefore
lets the live call through and rejects the replayed one
(`Definition.hydrate_unfaithful`).

So the replay is faithful for aggregates whose guards and bodies look at
nothing of the entity but its id, in every history that does not look at the
id before a recorded event has assigned it (`Definition.hydrate_faithful`).
The proof is a simulation of the live calls by the replay; `Replays` relates
the two aggregates.
-/

variable {σ : Type}

/-! ## What guards and bodies look at -/

namespace EventMethod

/-- **A method looks at nothing of the entity but its id**, and its body is
deterministic. -/
def ReadsOnlyId (m : EventMethod σ) : Prop :=
  ∀ f e e' x, e.id = e'.id →
    m.guard f e x = m.guard f e' x ∧ ∀ t t', m.body t f e x = m.body t' f e' x

end EventMethod

namespace Command

/-- A call at these fields does not look at the entity at all. -/
def IgnoresEntity (c : Command σ) (f : σ) : Prop :=
  ∀ e e', c.method.guard f e c.args = c.method.guard f e' c.args
    ∧ ∀ t t', c.body t f e = c.body t' f e'

/-- **The history does not look at the id before an event has assigned it**:
up to and including the first call that assigns an id, the calls that take
effect ignore the entity. -/
inductive AssignsIdFirst : List (Command σ) → Agg σ → Prop
  | nil (a : Agg σ) : AssignsIdFirst [] a
  | rejected {c : Command σ} {cs : List (Command σ)} {a : Agg σ} (h : c.guard a = false)
      (hcs : AssignsIdFirst cs a) : AssignsIdFirst (c :: cs) a
  | assigns {c : Command σ} {cs : List (Command σ)} {a : Agg σ} (hg : c.guard a = true)
      (h : c.IgnoresEntity a.fields) (f : σ) (id : String)
      (hbody : c.body c.now a.fields (c.method.digest c.now a.entity c.args) = some (f, some id)) :
      AssignsIdFirst (c :: cs) a
  | ignores {c : Command σ} {cs : List (Command σ)} {a a' : Agg σ} (hg : c.guard a = true)
      (h : c.IgnoresEntity a.fields) (hrun : c.run a = some a') (hcs : AssignsIdFirst cs a') :
      AssignsIdFirst (c :: cs) a

end Command

/-! ## The simulation -/

namespace Definition

open Command

/-- **The replay stands where the live aggregate stands**: it has the same
fields and is replaying, and its entity has the live id – or still the id the
live aggregate will end up with, as long as nothing looks at it. -/
structure Replays (b a : Agg σ) (cs : List (Command σ)) (id : String) : Prop where
  fields : b.fields = a.fields
  replaying : b.entity.replaying = true
  id_eq : b.entity.id = a.entity.id ∨ b.entity.id = id ∧ AssignsIdFirst cs a

variable {D : Definition σ}

theorem events_digest {c : Command σ} {a : Agg σ} (hr : a.entity.replaying = false) :
    c.method.digest c.now a.entity c.args
      = { a.entity with
          events := a.entity.events ++ [c.record a.entity]
          version := a.entity.events.length + 1 } :=
  Entity.digestAt_eq hr _ _ _ _ _

/-- **A call that takes effect, live and replayed**: the guard lets the replayed
call through too, and its body answers the same. -/
theorem Replays.body_eq {a b : Agg σ} {c : Command σ} {cs : List (Command σ)} {id : String}
    (hR : Replays b a (c :: cs) id) (hread : c.method.ReadsOnlyId) (hg : c.guard a = true)
    (now : SystemTime) :
    c.method.guard b.fields b.entity c.args = true
      ∧ c.method.body now b.fields b.entity c.args
        = c.body c.now a.fields (c.method.digest c.now a.entity c.args) := by
  rw [hR.fields]
  have hid : (c.method.digest c.now a.entity c.args).id = a.entity.id :=
    Entity.id_digestAt _ _ _ _ _ _
  have hignores : c.IgnoresEntity a.fields →
      c.method.guard a.fields b.entity c.args = true
        ∧ c.method.body now a.fields b.entity c.args
          = c.body c.now a.fields (c.method.digest c.now a.entity c.args) :=
    fun h => ⟨(h b.entity a.entity).1.trans hg, (h _ _).2 _ _⟩
  rcases hR.id_eq with heq | ⟨-, hfirst⟩
  · exact ⟨(hread _ _ _ _ heq).1.trans hg, (hread _ _ _ _ (heq.trans hid.symm)).2 _ _⟩
  · cases hfirst with
    | rejected h => exact absurd (h.symm.trans hg) Bool.false_ne_true
    | assigns _ h => exact hignores h
    | ignores _ h => exact hignores h

/-- The entity after the body of a replayed call, and where it stands. -/
theorem Replays.assign {a b : Agg σ} {c : Command σ} {cs : List (Command σ)} {id : String}
    (hR : Replays b a (c :: cs) id) (hg : c.guard a = true) {r : σ × Option String}
    (hbody : c.body c.now a.fields (c.method.digest c.now a.entity c.args) = some r) :
    Replays (EventMethod.assign b.entity r)
      (EventMethod.assign (c.method.digest c.now a.entity c.args) r) cs id := by
  obtain ⟨f, o⟩ := r
  have hrun := run_of_guard hg
  rw [hbody] at hrun
  cases o with
  | some id' => exact ⟨rfl, hR.replaying, Or.inl rfl⟩
  | none =>
    refine ⟨rfl, hR.replaying, ?_⟩
    have hid : (c.method.digest c.now a.entity c.args).id = a.entity.id :=
      Entity.id_digestAt _ _ _ _ _ _
    rcases hR.id_eq with heq | ⟨heq, hfirst⟩
    · exact Or.inl (heq.trans hid.symm)
    · refine Or.inr ⟨heq, ?_⟩
      cases hfirst with
      | rejected h => exact absurd (h.symm.trans hg) Bool.false_ne_true
      | assigns _ h f' id' hbody' => exact absurd (hbody.symm.trans hbody') (by simp)
      | ignores _ h hrun' hcs =>
        obtain rfl := Option.some.inj (hrun.symm.trans hrun')
        exact hcs

theorem exists_setId (e : Entity) (r : σ × Option String) :
    ∃ id, (EventMethod.assign e r).entity = e.setId id := by
  obtain ⟨f, o⟩ := r
  cases o with
  | some id => exact ⟨id, rfl⟩
  | none => exact ⟨e.id, rfl⟩

/-- **The simulation**: the events that a sequence of calls appends, replayed
from where the live aggregate stood, lead to where it stands now; and of the
replaying entity nothing but the id has changed. -/
theorem replayAll_of_runAll (hD : D.WellFormed) (now : SystemTime) {cs : List (Command σ)}
    (hcs : ∀ c ∈ cs, c.method ∈ D.methods ∧ c.method.ReadsOnlyId) {a a' b : Agg σ}
    (hr : a.entity.replaying = false) (hrun : runAll cs a = some a')
    (hR : Replays b a cs a'.entity.id) :
    ∃ records, a'.entity.events = a.entity.events ++ records
      ∧ a'.entity.committedVersion = a.entity.committedVersion
      ∧ D.aggregate.replayAll now records b = .ok ⟨a'.fields, b.entity.setId a'.entity.id⟩ := by
  induction cs generalizing a b with
  | nil =>
    obtain rfl := Option.some.inj hrun
    refine ⟨[], (List.append_nil _).symm, rfl, ?_⟩
    have hid : b.entity.id = a.entity.id := hR.id_eq.elim id And.left
    rw [Aggregate.replayAll_nil, ← hR.fields, ← hid]
    rfl
  | cons c cs ih =>
    have hcs' := fun c' hc' => hcs c' (List.mem_cons_of_mem c hc')
    obtain ⟨hmem, hread⟩ := hcs c List.mem_cons_self
    rw [runAll_cons] at hrun
    cases hg : c.guard a with
    | false =>
      -- the live call did nothing, and left no event to replay
      rw [run_of_guard_false hg] at hrun
      refine ih hcs' hr hrun ⟨hR.fields, hR.replaying, hR.id_eq.imp_right fun h => ⟨h.1, ?_⟩⟩
      cases h.2 with
      | rejected _ h => exact h
      | assigns h => exact absurd (hg.symm.trans h) Bool.false_ne_true
      | ignores h => exact absurd (hg.symm.trans h) Bool.false_ne_true
    | true =>
      rw [run_of_guard hg] at hrun
      obtain ⟨hg', hbody'⟩ := hR.body_eq hread hg now
      cases hbody : c.body c.now a.fields (c.method.digest c.now a.entity c.args) with
      | none =>
        rw [hbody] at hrun
        cases hrun
      | some r =>
        rw [hbody] at hrun hbody'
        have hdig := events_digest (c := c) hr
        -- the live aggregate after the call, and the replayed one
        obtain ⟨id₁, hid₁⟩ := exists_setId (c.method.digest c.now a.entity c.args) r
        obtain ⟨id₂, hid₂⟩ := exists_setId b.entity r
        have hr' : (EventMethod.assign (c.method.digest c.now a.entity c.args) r).entity.replaying
            = false := by
          rw [hid₁, hdig]
          exact hr
        obtain ⟨records, hevents, hcommitted, hreplay⟩ :=
          ih hcs' hr' hrun (hR.assign hg hbody)
        refine ⟨c.record a.entity :: records, ?_, ?_, ?_⟩
        · rw [hevents, hid₁, hdig]
          show (a.entity.events ++ [c.record a.entity]) ++ records = _
          rw [List.append_assoc]
          rfl
        · rw [hcommitted, hid₁, hdig]
          rfl
        · rw [Aggregate.replayAll_cons, replayEvent_record hD hmem rfl rfl]
          rw [c.method.call_of_replaying hR.replaying, if_pos hg', hbody']
          show D.aggregate.replayAll now records _ = _
          rw [hreplay, hid₂]
          rfl

/-! ## The law -/

/-- The method that opens an account: its body assigns the id, and its guard
looks at the entity. -/
def opened (guard : Entity → Bool) : EventMethod Bool where
  name := "Opened"
  version := none
  Args := Unit
  params := .none Bitcode.unit
  guard := fun _ e _ => guard e
  body := fun _ _ _ _ => some (true, some "account-1")

/-- An account, which can be opened. -/
def account (guard : Entity → Bool) : Definition Bool := ⟨false, [opened guard], []⟩

theorem account_wellFormed (guard : Entity → Bool) : (account guard).WellFormed := by
  refine ⟨List.nodup_singleton _, fun m hm => ?_⟩
  obtain rfl := List.mem_singleton.mp hm
  exact fun _ => rfl

theorem readsOnlyId_opened {guard : Entity → Bool}
    (hguard : ∀ e e', e.id = e'.id → guard e = guard e') : (opened guard).ReadsOnlyId :=
  fun _ e e' _ h => ⟨hguard e e' h, fun _ _ => rfl⟩

/-- **A replay that rejects what was accepted**: an account that can be opened
while its entity has no id. Opened and committed, it is read back and
hydrated as one that was never opened. -/
theorem hydrate_unfaithful : ∃ (D : Definition Bool) (cs : List (Command Bool)) (a b : Agg Bool)
    (entity : Entity),
    D.WellFormed ∧ D.upcasters = [] ∧ (∀ c ∈ cs, c.method ∈ D.methods ∧ c.method.ReadsOnlyId)
      ∧ runAll cs D.aggregate.newEmpty = some a
      ∧ (EventStore.new.commit [a.entity]).1 = .ok ()
      ∧ (EventStore.new.commit [a.entity]).2.2.getOne a.entity.id = .ok (some entity)
      ∧ D.aggregate.hydrate SystemTime.unixEpoch entity = .ok b
      ∧ a.fields = true ∧ b.fields = false := by
  refine ⟨account (fun e => e.id = ""),
    [⟨opened (fun e => e.id = ""), SystemTime.unixEpoch, ()⟩], _, _, _,
    account_wellFormed _, rfl, fun c hc => ?_, rfl, rfl, rfl, rfl, rfl, rfl⟩
  obtain rfl := List.mem_singleton.mp hc
  exact ⟨List.mem_singleton_self _, readsOnlyId_opened (fun e e' h => by rw [h])⟩

/-- **Replay is faithful** for methods that look at nothing of the entity but
its id, in every history that does not look at the id before an event has
assigned it, or leaves the id empty: committed under an unused id, read back and hydrated, the
aggregate has the fields and the id it had live. The replay leaves the entity
as it was read, and not replaying. -/
theorem hydrate_faithful (hD : D.WellFormed) (hup : D.upcasters = []) {cs : List (Command σ)}
    (hcs : ∀ c ∈ cs, c.method ∈ D.methods ∧ c.method.ReadsOnlyId) {a : Agg σ}
    (hrun : runAll cs D.aggregate.newEmpty = some a)
    (hfirst : a.entity.id = "" ∨ AssignsIdFirst cs D.aggregate.newEmpty) {s : EventStore} (hp : s.poisoned = false)
    (hs : s.stream a.entity.id = []) (now : SystemTime) :
    (s.commit [a.entity]).1 = .ok ()
      ∧ ∃ entity, (s.commit [a.entity]).2.2.getOne a.entity.id = .ok (some entity)
        ∧ entity.id = a.entity.id ∧ entity.events = a.entity.events ∧ entity.replaying = false
        ∧ D.aggregate.hydrate now entity = .ok ⟨a.fields, entity⟩ := by
  let entity := EventStore.loadEntity a.entity.id a.entity.events
  have hR : Replays ⟨D.default, entity.setReplaying true⟩ D.aggregate.newEmpty cs a.entity.id :=
    ⟨rfl, rfl, hfirst.imp id (fun h => ⟨rfl, h⟩)⟩
  obtain ⟨records, hevents, hcommitted, hreplay⟩ := replayAll_of_runAll hD now hcs rfl hrun hR
  have hrecords : records = a.entity.events := hevents.symm
  have hnew : a.entity.newEvents = some a.entity.events := by
    show (if a.entity.committedVersion ≤ _ then some (a.entity.events.drop _) else none) = _
    rw [hcommitted]
    rfl
  have hcommit : s.commit [a.entity]
      = (.ok (), [a.entity.markCommitted], s.extend a.entity.id a.entity.events) := by
    have hvalid : s.validate [a.entity] = .ok () := by
      rw [EventStore.validate_eq_ok]
      intro e he
      obtain rfl := List.mem_singleton.mp he
      rw [hs, hcommitted]
      rfl
    rw [EventStore.commit, hp, hvalid]
    show s.append [a.entity] = _
    rw [EventStore.append, hnew]
    rfl
  refine ⟨by rw [hcommit], entity, ?_, rfl, rfl, rfl, ?_⟩
  · rw [hcommit]
    show (s.extend a.entity.id a.entity.events).getOne a.entity.id = _
    rw [EventStore.getOne_eq (s := s.extend _ _) hp, EventStore.lookup_extend_self, hs]
    rfl
  · rw [Aggregate.hydrate_eq_ok]
    refine ⟨a.entity.events, _, ?_, hrecords ▸ hreplay, rfl⟩
    show (if D.upcasters.isEmpty then _ else _) = _
    rw [hup]
    rfl

/-- An account that is opened without a guard is read back as opened. -/
theorem hydrate_account : ∃ (a : Agg Bool) (entity : Entity),
    runAll [⟨opened (fun _ => true), SystemTime.unixEpoch, ()⟩]
        (account (fun _ => true)).aggregate.newEmpty = some a
      ∧ (EventStore.new.commit [a.entity]).2.2.getOne a.entity.id = .ok (some entity)
      ∧ (account (fun _ => true)).aggregate.hydrate SystemTime.unixEpoch entity
        = .ok ⟨true, entity⟩ := by
  let cs : List (Command Bool) := [⟨opened (fun _ => true), SystemTime.unixEpoch, ()⟩]
  have hcs : ∀ c ∈ cs, c.method ∈ (account (fun _ => true)).methods ∧ c.method.ReadsOnlyId := by
    intro c hc
    obtain rfl := List.mem_singleton.mp hc
    exact ⟨List.mem_singleton_self _, readsOnlyId_opened (fun _ _ _ => rfl)⟩
  have hfirst : AssignsIdFirst cs (account (fun _ => true)).aggregate.newEmpty :=
    .assigns rfl (fun _ _ => ⟨rfl, fun _ _ => rfl⟩) true "account-1" rfl
  obtain ⟨-, entity, hget, -, -, -, hhydrate⟩ :=
    hydrate_faithful (account_wellFormed _) rfl hcs rfl (Or.inr hfirst) (s := EventStore.new) rfl rfl
      SystemTime.unixEpoch
  exact ⟨_, entity, rfl, hget, hhydrate⟩

end Definition
