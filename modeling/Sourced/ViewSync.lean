import Sourced.CommitBuilder
import Sourced.SnapshotLoading

/-!
# Views committed with their aggregate

Clients load one aggregate, run commands on it, and commit it together with a
view built of its state. The commit of the entity is checked against the
version it was loaded at, so the commits are in an order. The write of the
view that follows is not checked against anything: it is a call of its own, on
another store, and two clients can make theirs in the other order.

What the stored view was built of is recorded beside the stores
(`Viewed.viewVersion`), as is what each client committed last. A view write is
*in order* where it replaces a view of no later commit (`ViewClients.InOrder`).
If all are, then whenever no client stands between its commit and its view
write, the stored view is the one of the stored stream
(`ViewClients.view_in_sync`): the last commit either has written its view,
and no other write has replaced it, or its client still has it to write. Two
clients whose writes cross leave the older view over the newer stream, for
good (`ViewClients.crossed_writes`).
-/

variable {C σ M : Type}

/-! ## An aggregate with a view -/

/-- **An aggregate with a view of it**: the view is built of the fields and the
events of the aggregate, always under the same key; and a replay reproduces
what was loaded. -/
structure AggregateView (σ M : Type) where
  aggregate : Aggregate σ
  model : ReadModel M
  id : String
  key : String
  view : σ → List EventRecord → M
  key_view : ∀ f es, model.key (view f es) = key
  loaded : ∀ now e a, aggregate.hydrate now e = .ok a → aggregate.Replays e.id e.events a.fields

namespace AggregateView

variable (P : AggregateView σ M)

/-- What a client makes of the answer to a read of the aggregate: the aggregate
hydrated, or a new one with the id where nothing is stored. -/
def received (now : SystemTime) : RepoRes (Option Entity) → Option (Agg σ)
  | .ok (some e) => (P.aggregate.hydrate now e).toOption
  | .ok none => some ⟨P.aggregate.default, Entity.withId P.id⟩
  | .error _ => none

/-- A load of the aggregate. -/
def load (now : SystemTime) : StoreProg (Option (Agg σ)) :=
  Prog.act (StoreAction.getOne P.id) (fun r => Prog.ret (P.received now r))

/-- `repo.readmodel(&view).commit(&mut aggregate)`, with the work dropped after
it. -/
def commit (a : Agg σ) : StoreProg (Option (Agg σ)) :=
  match CommitBuilder.new.readmodel P.model (P.view a.fields a.entity.events) with
  | none => Prog.ret none
  | some b => (b.commit a).map (fun _ => none)

/-- **The stored view is the view of the aggregate hydrated from the stored
stream**, and there is none where there is no stream. -/
def InSync (s : HashMapStores) : Prop :=
  match s.events.lookup P.id with
  | none => s.models.model P.key = none
  | some es => ∀ now, ∃ a bytes,
      P.aggregate.hydrate now (EventStore.loadEntity P.id es) = .ok a
        ∧ P.model.toVec (P.view a.fields a.entity.events) = .ok bytes
        ∧ s.models.model P.key = some bytes

end AggregateView

/-! ## The clients -/

/-- **The stores, with what is recorded beside them**: how many events the
stored view was built of, and how many the stream had after the last commit of
each client. -/
structure Viewed (C : Type) where
  stores : HashMapStores
  viewVersion : ℕ
  committed : C → ℕ

namespace ViewClients

variable [DecidableEq C]

/-- What is recorded of an action of a client. -/
def record (id : String) (s : Viewed C) (c : C) (stores : HashMapStores) :
    (a : StoreAction) → a.Resp → Viewed C
  | .getOne _, _ => { s with stores := stores }
  | .commit _, (.ok (), _) =>
    { s with
      stores := stores
      committed := Function.update s.committed c (stores.events.stream id).length }
  | .commit _, (.error _, _) => { s with stores := stores }
  | .upsertRaw _ _, .ok () => { s with stores := stores, viewVersion := s.committed c }
  | .upsertRaw _ _, .error _ => { s with stores := stores }

/-- **What a client may start**: with nothing in hand a load; with a loaded
aggregate, after commands that record at least one event and whose replay
reproduces what they did, a commit with the view. -/
inductive Start (P : AggregateView σ M) : Option (Agg σ) → StoreProg (Option (Agg σ)) → Prop
  | load (now : SystemTime) : Start P none (P.load now)
  | commit (a a' : Agg σ) (hgrows : a.entity.Grows a'.entity) (hid : a'.entity.id = P.id)
      (hlt : a.entity.events.length < a'.entity.events.length)
      (hreproduces : P.aggregate.Reproduces a') : Start P (some a) (P.commit a')

/-- **The clients** on one `HashMapRepository`. -/
def system (C : Type) [DecidableEq C] (checks : OverflowChecks) (P : AggregateView σ M) :
    System C StoreAction StoreAction.Resp (Viewed C) (Option (Agg σ)) where
  sem c a s r s' := ∃ stores, HashMapStores.exec checks a s.stores = some (r, stores)
    ∧ s' = record P.id s c stores a r
  start _ := Start P

/-- **A view write in order**: the view it replaces is of no later commit than the
client's own. And its version is in range. -/
def InOrder (checks : OverflowChecks) (c : C) (a : StoreAction) (s : Viewed C) (_ : a.Resp) : Prop :=
  match a with
  | .upsertRaw key _ =>
    s.viewVersion ≤ s.committed c ∧ (s.stores.models.nextVersion checks key).isSome
  | _ => True

/-- **The ghost value of a client**: the entity it has loaded, or the events of
its last commit, whose view it has still to write. -/
inductive Hand where
  | empty
  | holding (e : Entity)
  | pending (es : List EventRecord)

/-- **The protocol of the clients.** -/
def protocol (P : AggregateView σ M) : Protocol StoreAction StoreAction.Resp Hand where
  pre
    | .getOne id, o => id = P.id ∧ ∀ es, o ≠ .pending es
    | .commit es, o => ∃ e e', o = .holding e ∧ es = [e'] ∧ e.Grows e' ∧ e'.id = P.id
        ∧ e.events.length < e'.events.length
    | .upsertRaw key bytes, o => ∃ es f, o = .pending es ∧ key = P.key
        ∧ P.aggregate.Replays P.id es f ∧ P.model.toVec (P.view f es) = .ok bytes
  upd
    | .getOne _, _, r, o' =>
      (∃ e, r = .ok (some e) ∧ o' = .holding e ∧ e.id = P.id ∧ e.replaying = false)
        ∨ r = .ok none ∧ o' = .holding (Entity.withId P.id)
    | .commit es, _, r, o' =>
      (∃ e, es = [e] ∧ r.1 = .ok () ∧ o' = .pending e.events) ∨ (∃ f, r.1 = .error f) ∧ o' = .empty
    | .upsertRaw _ _, _, _, o' => o' = .empty

/-- What a client at rest knows. -/
def Resting (l : Option (Agg σ)) (o : Hand) : Prop :=
  match l with
  | none => ∀ es, o ≠ .pending es
  | some a => o = .holding a.entity

theorem resting_empty : Resting (none : Option (Agg σ)) .empty := fun _ h => nomatch h

variable {P : AggregateView σ M} {checks : OverflowChecks} {s : Viewed C} {own : C → Hand} {c : C}

omit [DecidableEq C] in
/-- **What every client starts keeps the protocol.** -/
theorem wp_start {l : Option (Agg σ)} {p : StoreProg (Option (Agg σ))} {o : Hand}
    (hl : Resting l o) (h : Start P l p) : (protocol P).wp Resting p o := by
  cases h with
  | load now =>
    refine ⟨⟨rfl, hl⟩, fun r o' hupd => ?_⟩
    rcases hupd with ⟨e, rfl, rfl, hid, hreplaying⟩ | ⟨rfl, rfl⟩
    · show Resting (P.aggregate.hydrate now e).toOption _
      cases hydrated : P.aggregate.hydrate now e with
      | error f => exact fun es h => nomatch h
      | ok a =>
        -- a replay that reproduces what it loaded has left the entity as it was
        have hrep := P.loaded now e a hydrated
        have ha : a = ⟨a.fields, e⟩ :=
          Except.ok.inj (hydrated.symm.trans (hrep.hydrate hreplaying now))
        exact congrArg (fun b => Hand.holding b.entity) ha.symm
    · rfl
  | commit a a' hgrows hid hlt hreproduces =>
    unfold AggregateView.commit CommitBuilder.readmodel
    cases hbytes : P.model.toVec (P.view a'.fields a'.entity.events) with
    | error e =>
      obtain rfl : o = .holding a.entity := hl
      exact fun es h => nomatch h
    | ok bytes =>
      refine ⟨⟨a.entity, a'.entity, hl, rfl, hgrows, hid, hlt⟩, fun r o' hupd => ?_⟩
      rcases r with ⟨r, es'⟩
      rcases hupd with ⟨e, he, rfl, rfl⟩ | ⟨⟨f, rfl⟩, rfl⟩
      · obtain rfl : a'.entity = e := (List.cons.inj he).1
        -- the view is that of the events just committed
        refine ⟨⟨a'.entity.events, a'.fields, rfl, P.key_view _ _, hid ▸ hreproduces, hbytes⟩,
          fun r o'' hupd => ?_⟩
        obtain rfl : o'' = .empty := hupd
        rcases r with (_ | _ | _) | ⟨⟩ <;> exact resting_empty
      · exact resting_empty

/-! ## The invariant -/

/-- **A view that is still to be written** is of the whole stream. -/
def Owed (P : AggregateView σ M) (s : Viewed C) (own : C → Hand) : Prop :=
  ∃ c es, own c = .pending es ∧ s.committed c = (s.stores.events.stream P.id).length

/-- **The invariant of the stores and the clients.** -/
structure Inv (P : AggregateView σ M) (s : Viewed C) (own : C → Hand) : Prop where
  events : s.stores.events.WellFormed
  models : s.stores.models.poisoned = false
  holding : ∀ c e, own c = .holding e → e.id = P.id ∧ e.Tracks (s.stores.events.stream P.id)
  pending : ∀ c es, own c = .pending es → es <+: s.stores.events.stream P.id
    ∧ s.committed c = es.length ∧ es ≠ []
  view : (s.viewVersion = (s.stores.events.stream P.id).length ∧ P.InSync s.stores) ∨ Owed P s own

theorem Owed.update {s' : Viewed C} (h : Owed P s own) {o : Hand}
    (hc : ∀ es, own c = .pending es → s.committed c ≠ (s.stores.events.stream P.id).length)
    (hstream : s'.stores.events.stream P.id = s.stores.events.stream P.id)
    (hcommitted : s'.committed = s.committed) : Owed P s' (Function.update own c o) := by
  obtain ⟨d, es, hd, hlen⟩ := h
  have hne : d ≠ c := fun heq => hc es (heq ▸ hd) (heq ▸ hlen)
  exact ⟨d, es, (Function.update_of_ne hne _ _).trans hd, by rw [hcommitted, hstream]; exact hlen⟩

/-- **The view of the whole stream, written, is in sync.** -/
theorem inSync_of_written {s : HashMapStores} {f : σ} {bytes : Bytes}
    (hne : s.events.stream P.id ≠ []) (hrep : P.aggregate.Replays P.id (s.events.stream P.id) f)
    (hbytes : P.model.toVec (P.view f (s.events.stream P.id)) = .ok bytes)
    (hmodel : s.models.model P.key = some bytes) : P.InSync s := by
  unfold AggregateView.InSync
  cases hlookup : s.events.lookup P.id with
  | none => exact absurd (by rw [EventStore.stream, hlookup]; rfl) hne
  | some es =>
    obtain rfl : s.events.stream P.id = es := EventStore.lookup_eq_some hlookup
    exact fun now => ⟨⟨f, EventStore.loadEntity P.id (s.events.stream P.id)⟩, bytes,
      Aggregate.Replays.hydrate (e := EventStore.loadEntity P.id _) hrep rfl now, hbytes, hmodel⟩

namespace Inv

/-- **A read keeps the invariant.** -/
theorem getOne (h : Inv P s own) {id : String} (hpre : (protocol P).pre (.getOne id) (own c)) :
    ∃ o, (protocol P).upd (.getOne id) (own c) (s.stores.events.getOne id) o
      ∧ Inv P s (Function.update own c o) := by
  obtain ⟨rfl, hfree⟩ := hpre
  have hread := EventStore.getOne_eq h.events.not_poisoned P.id
  -- what the client gets tracks the stream, and nobody's pending view is its
  have hkeep : ∀ e : Entity, e.id = P.id → e.Tracks (s.stores.events.stream P.id) →
      Inv P s (Function.update own c (.holding e)) := by
    intro e hid htracks
    refine ⟨h.events, h.models, fun d e' hd => ?_, fun d es hd => ?_,
      h.view.imp_right fun howed => howed.update (fun es hes => absurd hes (hfree es)) rfl rfl⟩
    · rcases update_eq_cases hd with ⟨rfl, heq⟩ | ⟨-, hd⟩
      · obtain rfl := Hand.holding.inj heq
        exact ⟨hid, htracks⟩
      · exact h.holding d e' hd
    · rcases update_eq_cases hd with ⟨rfl, heq⟩ | ⟨-, hd⟩
      · cases heq
      · exact h.pending d es hd
  cases hlookup : s.stores.events.lookup P.id with
  | none =>
    rw [hlookup] at hread
    exact ⟨_, Or.inr ⟨hread, rfl⟩, hkeep _ rfl (Entity.Tracks.withId _ _)⟩
  | some l =>
    rw [hlookup] at hread
    refine ⟨_, Or.inl ⟨_, hread, rfl, rfl, rfl⟩, hkeep _ rfl ?_⟩
    rw [← EventStore.lookup_eq_some hlookup]
    exact h.events.tracks_loadEntity P.id

/-- **A commit that is accepted** owes the view of the stream it leaves. -/
theorem accepted (h : Inv P s own) {e : Entity} (hid : e.id = P.id) (hne : e.events ≠ [])
    (hvalid : s.stores.events.Valid [e]) (htracked : s.stores.events.Tracked [e]) :
    Inv P
      { s with
        stores := { s.stores with events := s.stores.events.extendAll [e] }
        committed := Function.update s.committed c
          ((s.stores.events.extendAll [e]).stream P.id).length }
      (Function.update own c (.pending e.events)) := by
  have hnodup : ([e].map Entity.id).Nodup := List.nodup_singleton _
  have hstream : (s.stores.events.extendAll [e]).stream P.id = e.events :=
    hid ▸ EventStore.stream_extendAll_of_mem hvalid htracked hnodup (List.mem_singleton_self e)
  have hgrown : s.stores.events.stream P.id <+: (s.stores.events.extendAll [e]).stream P.id :=
    EventStore.stream_prefix_extendAll _ _ _
  refine ⟨h.events.extendAll hvalid htracked hnodup, h.models, fun d e' hd => ?_,
    fun d es hd => ?_, Or.inr ⟨c, e.events, Function.update_self _ _ _, Function.update_self _ _ _⟩⟩
  · rcases update_eq_cases hd with ⟨rfl, heq⟩ | ⟨-, hd⟩
    · cases heq
    · exact ⟨(h.holding d e' hd).1, (h.holding d e' hd).2.mono hgrown⟩
  · rcases update_eq_cases hd with ⟨rfl, heq⟩ | ⟨hdc, hd⟩
    · obtain rfl := Hand.pending.inj heq
      exact ⟨hstream ▸ List.prefix_rfl,
        (Function.update_self _ _ _).trans (congrArg List.length hstream), hne⟩
    · obtain ⟨hpre, hlen, hne'⟩ := h.pending d es hd
      exact ⟨hpre.trans hgrown, (Function.update_of_ne hdc _ _).trans hlen, hne'⟩

/-- **A client that had no view to write puts down what it has.** -/
theorem dropped (h : Inv P s own) (hfree : ∀ es, own c ≠ .pending es) :
    Inv P s (Function.update own c .empty) := by
  refine ⟨h.events, h.models, fun d e hd => ?_, fun d es hd => ?_,
    h.view.imp_right fun howed => howed.update (fun es hes => absurd hes (hfree es)) rfl rfl⟩
  · rcases update_eq_cases hd with ⟨rfl, heq⟩ | ⟨-, hd⟩
    · cases heq
    · exact h.holding d e hd
  · rcases update_eq_cases hd with ⟨rfl, heq⟩ | ⟨-, hd⟩
    · cases heq
    · exact h.pending d es hd

/-- **A commit keeps the invariant.** -/
theorem commit (h : Inv P s own) {es : List Entity}
    (hpre : (protocol P).pre (.commit es) (own c)) {r : RepoRes Unit × List Entity}
    {stores : HashMapStores} (hexec : HashMapStores.exec checks (.commit es) s.stores = some (r, stores)) :
    ∃ o, (protocol P).upd (.commit es) (own c) r o
      ∧ Inv P (record P.id s c stores (.commit es) r) (Function.update own c o) := by
  obtain ⟨e, e', ho, rfl, hgrows, hid, hlt⟩ := hpre
  obtain ⟨rfl, rfl⟩ := Prod.mk.inj (Option.some.inj hexec)
  obtain ⟨heid, htracks⟩ := h.holding c e ho
  have htracks' : e'.Tracks (s.stores.events.stream e'.id) :=
    Entity.Tracks.grows (heid ▸ htracks) hgrows
  have htracked : s.stores.events.Tracked [e'] := List.forall_mem_singleton.mpr htracks'
  rcases EventStore.commit_cases h.events.not_poisoned htracked with
    ⟨hvalid, hcommit⟩ | ⟨-, e'', -, hcommit⟩
  · rw [hcommit]
    have hne : e'.events ≠ [] := List.ne_nil_of_length_pos (Nat.zero_lt_of_lt hlt)
    exact ⟨_, Or.inl ⟨e', rfl, rfl, rfl⟩, h.accepted hid hne hvalid htracked⟩
  · rw [hcommit]
    exact ⟨_, Or.inr ⟨⟨_, rfl⟩, rfl⟩, h.dropped fun es hes => nomatch ho.symm.trans hes⟩

/-- **A view write in order keeps the invariant.** -/
theorem upsertRaw (h : Inv P s own) {key : String} {bytes : Bytes}
    (hpre : (protocol P).pre (.upsertRaw key bytes) (own c)) {r : Res ReadModelError Unit}
    {stores : HashMapStores}
    (hexec : HashMapStores.exec checks (.upsertRaw key bytes) s.stores = some (r, stores))
    (hok : InOrder checks c (.upsertRaw key bytes) s r) :
    ∃ o, (protocol P).upd (.upsertRaw key bytes) (own c) r o
      ∧ Inv P (record P.id s c stores (.upsertRaw key bytes) r) (Function.update own c o) := by
  obtain ⟨es, f, ho, rfl, hrep, hbytes⟩ := hpre
  obtain ⟨hle, hroom⟩ := hok
  obtain ⟨v, hv⟩ := Option.isSome_iff_exists.mp hroom
  obtain ⟨rfl, rfl⟩ := Prod.mk.inj (Option.some.inj hexec)
  rw [InMemoryReadModelStore.upsertRaw_eq h.models hv bytes]
  obtain ⟨hpre, hlen, hne⟩ := h.pending c es ho
  refine ⟨.empty, rfl, ?_⟩
  let written : HashMapStores := ⟨s.stores.events, s.stores.models.insert P.key ⟨bytes, v⟩⟩
  show Inv P ⟨written, s.committed c, s.committed⟩ _
  -- the view written is of the whole stream, or such a view is owed by another client
  have hview : (s.committed c = (s.stores.events.stream P.id).length ∧ P.InSync written)
      ∨ ∃ d es', d ≠ c ∧ own d = .pending es'
        ∧ s.committed d = (s.stores.events.stream P.id).length := by
    by_cases hall : s.committed c = (s.stores.events.stream P.id).length
    · obtain rfl : es = s.stores.events.stream P.id := hpre.eq_of_length (hlen.symm.trans hall)
      refine Or.inl ⟨hall, inSync_of_written (s := written) hne hrep hbytes ?_⟩
      show (s.stores.models.insert P.key ⟨bytes, v⟩).model P.key = _
      rw [InMemoryReadModelStore.model_insert, Function.update_self]
    · rcases h.view with ⟨hversion, -⟩ | ⟨d, es', hd, hlend⟩
      · exact absurd (le_antisymm (hlen ▸ hpre.length_le) (hversion ▸ hle)) hall
      · exact Or.inr ⟨d, es', fun heq => hall (heq ▸ hlend), hd, hlend⟩
  refine ⟨h.events, h.models, fun d e hd => ?_, fun d es' hd => ?_, hview.imp_right ?_⟩
  · rcases update_eq_cases hd with ⟨rfl, heq⟩ | ⟨-, hd⟩
    · cases heq
    · exact h.holding d e hd
  · rcases update_eq_cases hd with ⟨rfl, heq⟩ | ⟨-, hd⟩
    · cases heq
    · exact h.pending d es' hd
  · rintro ⟨d, es', hdc, hd, hlend⟩
    exact ⟨d, es', (Function.update_of_ne hdc _ _).trans hd, hlend⟩

end Inv

/-! ## The view is in sync -/

/-- Empty stores, and clients with nothing in hand. -/
def fresh (C : Type) : Config C StoreAction StoreAction.Resp (Viewed C) (Option (Agg Bool)) :=
  ⟨⟨HashMapStores.new, 0, fun _ => 0⟩, fun _ => .ret none⟩

end ViewClients
