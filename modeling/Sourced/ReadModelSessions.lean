import Sourced.LockHistory
import Sourced.QueuedReadModels

/-!
# Sessions on queued read models

A session gets a model with its lock, and ends with a write that is computed from what
was read, or with an `abort`. `upsert` checks no version; a lost update is ruled out by
the lock alone, and so only as long as nobody writes a model without its lock.

Every client works off a *script* of sessions, whatever they are. The history of a run
keeps the sessions in the order in which they acquired each lock, and which of them
have completed; the law (`ReadModelSessions.composed`) is that what is stored under a key
is the functions of the completed ones composed in that order.

The clients know nothing of each other. What carries the proof is again a ghost value: a
session that has the lock of its key knows what is stored under it, as it is.
-/

/-! ## What a write leaves, and why it is refused -/

/-- Whether a write failed because of what is stored: with `ConcurrencyConflict` or
`NotFound`. -/
def ReadModelError.stale : ReadModelError → Bool
  | .concurrencyConflict _ _ _ _ => true
  | .notFound _ _ => true
  | _ => false

/-- The version of the next write, by what is stored. -/
def StoredModel.nextVersion (checks : OverflowChecks) : Option StoredModel → Option ℕ
  | some stored => addU64 checks stored.version 1
  | none => some 1

/-- What a model leaves in the place of what is stored; that again where it does not
serialize, or the version overflows. -/
def StoredModel.written (checks : OverflowChecks) (bytes : Except String Bytes)
    (stored : Option StoredModel) : Option StoredModel :=
  match bytes, nextVersion checks stored with
  | .ok bytes, some v => some ⟨bytes, v⟩
  | _, _ => stored

namespace ReadModelStore

open InMemoryReadModelStore (makeKey saveRaw_cases)

variable {M : Type} {V : ReadModelType M} {checks : OverflowChecks} {model : M}
  {s s' : InMemoryReadModelStore} {r : Res ReadModelError (Versioned M)}

/-- **An accepted write of a model.** -/
def Wrote (V : ReadModelType M) (checks : OverflowChecks) (model : M) (s s' : InMemoryReadModelStore) :
    Prop :=
  s'.lookup (makeKey V.collection (V.id model))
    = StoredModel.written checks (V.toVec model) (s.lookup (makeKey V.collection (V.id model)))

theorem wrote_insert {bytes : Bytes} (hbytes : V.toVec model = .ok bytes) {v : ℕ}
    (hv : s.nextVersion checks (makeKey V.collection (V.id model)) = some v) :
    Wrote V checks model s (s.insert (makeKey V.collection (V.id model)) ⟨bytes, v⟩) := by
  unfold Wrote
  have hnext : StoredModel.nextVersion checks (s.lookup (makeKey V.collection (V.id model))) = some v := by
    rw [← hv]
    unfold StoredModel.nextVersion InMemoryReadModelStore.nextVersion
    cases s.lookup (makeKey V.collection (V.id model)) <;> rfl
  unfold StoredModel.written
  rw [InMemoryReadModelStore.lookup_insert_self, hbytes, hnext]

/-- `upsert` writes, or fails for a reason other than what is stored. -/
theorem upsert_cases (h : upsert V checks model s = (r, s')) :
    r.toBool = true ∧ Wrote V checks model s s'
      ∨ r.toBool = false ∧ ∀ e, r = .error (.err e) → e.stale = false := by
  unfold upsert at h
  cases hbytes : V.toVec model with
  | error e =>
    rw [hbytes] at h
    obtain ⟨rfl, rfl⟩ := Prod.mk.inj h
    refine Or.inr ⟨rfl, fun e' he => ?_⟩
    cases he
    rfl
  | ok bytes =>
    rw [hbytes] at h
    dsimp only at h
    rcases saveRaw_cases checks s (makeKey V.collection (V.id model)) bytes with
      ⟨-, heq⟩ | ⟨hp, -, heq⟩ | ⟨v, hp, hv, heq⟩
    · rw [heq] at h
      obtain ⟨rfl, rfl⟩ := Prod.mk.inj h
      refine Or.inr ⟨rfl, fun e' he => ?_⟩
      cases he
      rfl
    · rw [heq] at h
      obtain ⟨rfl, rfl⟩ := Prod.mk.inj h
      exact Or.inr ⟨rfl, fun e he => (nomatch Except.error.inj he)⟩
    · rw [heq] at h
      obtain ⟨rfl, rfl⟩ := Prod.mk.inj h
      exact Or.inl ⟨rfl, wrote_insert hbytes hv⟩

/-- `insert` writes, or fails because something is stored, or for another reason. -/
theorem insert_cases (checks : OverflowChecks) (h : insert V model s = (r, s')) :
    r.toBool = true ∧ Wrote V checks model s s'
      ∨ r.toBool = false ∧ ∀ e, r = .error (.err e) → e.stale = true →
        (s.lookup (makeKey V.collection (V.id model))).isSome := by
  unfold insert at h
  cases hbytes : V.toVec model with
  | error e =>
    rw [hbytes] at h
    obtain ⟨rfl, rfl⟩ := Prod.mk.inj h
    refine Or.inr ⟨rfl, fun e' he hstale => ?_⟩
    cases he
    cases hstale
  | ok bytes =>
    rw [hbytes] at h
    dsimp only at h
    cases hp : s.poisoned with
    | true =>
      rw [hp] at h
      obtain ⟨rfl, rfl⟩ := Prod.mk.inj h
      refine Or.inr ⟨rfl, fun e' he hstale => ?_⟩
      cases he
      cases hstale
    | false =>
      rw [hp, if_neg Bool.false_ne_true] at h
      cases hlookup : s.lookup (makeKey V.collection (V.id model)) with
      | some stored =>
        rw [hlookup] at h
        obtain ⟨rfl, rfl⟩ := Prod.mk.inj h
        exact Or.inr ⟨rfl, fun _ _ _ => rfl⟩
      | none =>
        rw [hlookup] at h
        obtain ⟨rfl, rfl⟩ := Prod.mk.inj h
        refine Or.inl ⟨rfl, wrote_insert hbytes ?_⟩
        rw [InMemoryReadModelStore.nextVersion, hlookup]

/-- `update` writes, or fails because nothing is stored or at another version, or for
another reason. -/
theorem update_cases {expectedVersion : ℕ} (h : update V checks model expectedVersion s = (r, s')) :
    r.toBool = true ∧ Wrote V checks model s s'
      ∨ r.toBool = false ∧ ∀ e, r = .error (.err e) → e.stale = true →
        ∀ stored, s.lookup (makeKey V.collection (V.id model)) = some stored →
          stored.version ≠ expectedVersion := by
  unfold update at h
  cases hbytes : V.toVec model with
  | error e =>
    rw [hbytes] at h
    obtain ⟨rfl, rfl⟩ := Prod.mk.inj h
    refine Or.inr ⟨rfl, fun e' he hstale => ?_⟩
    cases he
    cases hstale
  | ok bytes =>
    rw [hbytes] at h
    dsimp only at h
    cases hp : s.poisoned with
    | true =>
      rw [hp] at h
      obtain ⟨rfl, rfl⟩ := Prod.mk.inj h
      refine Or.inr ⟨rfl, fun e' he hstale => ?_⟩
      cases he
      cases hstale
    | false =>
      rw [hp, if_neg Bool.false_ne_true] at h
      cases hlookup : s.lookup (makeKey V.collection (V.id model)) with
      | none =>
        rw [hlookup] at h
        obtain ⟨rfl, rfl⟩ := Prod.mk.inj h
        exact Or.inr ⟨rfl, fun _ _ _ _ hnone => (nomatch hnone)⟩
      | some stored =>
        rw [hlookup] at h
        dsimp only at h
        by_cases hversion : stored.version ≠ expectedVersion
        · rw [if_pos hversion] at h
          obtain ⟨rfl, rfl⟩ := Prod.mk.inj h
          refine Or.inr ⟨rfl, fun _ _ _ stored' hstored' => ?_⟩
          obtain rfl := Option.some.inj hstored'
          exact hversion
        · rw [if_neg hversion] at h
          cases hadd : addU64 checks stored.version 1 with
          | none =>
            rw [hadd] at h
            obtain ⟨rfl, rfl⟩ := Prod.mk.inj h
            exact Or.inr ⟨rfl, fun e he => (nomatch Except.error.inj he)⟩
          | some v =>
            rw [hadd] at h
            obtain ⟨rfl, rfl⟩ := Prod.mk.inj h
            refine Or.inl ⟨rfl, wrote_insert hbytes ?_⟩
            rw [InMemoryReadModelStore.nextVersion, hlookup]
            exact hadd

/-- `delete` removes, or fails for a reason other than what is stored. -/
theorem delete_cases {id : String} {r : Res ReadModelError Bool} (h : delete V id s = (r, s')) :
    r.toBool = true ∧ s'.lookup (makeKey V.collection id) = none
      ∨ r.toBool = false ∧ ∀ e, r = .error (.err e) → e.stale = false := by
  unfold delete at h
  cases hp : s.poisoned with
  | true =>
    rw [hp] at h
    obtain ⟨rfl, rfl⟩ := Prod.mk.inj h
    refine Or.inr ⟨rfl, fun e' he => ?_⟩
    cases he
    rfl
  | false =>
    rw [hp] at h
    obtain ⟨rfl, rfl⟩ := Prod.mk.inj h
    exact Or.inl ⟨rfl, InMemoryReadModelStore.lookup_remove_self _ _⟩

end ReadModelStore

/-! ## The sessions -/

/-- **What a session does after its read**: a write of a model with its id, or nothing. -/
inductive ModelWrite {M : Type} (V : ReadModelType M) (id : String) where
  | upsert (model : {m : M // V.id m = id})
  | insert (model : {m : M // V.id m = id})
  | update (model : {m : M // V.id m = id}) (expectedVersion : ℕ)
  | delete
  | abort

/-- **A session**: the model it gets, and what it does with what it read. -/
structure ModelSession (F : ModelTypes) where
  index : F.Index
  id : String
  plan : Option (Versioned (F.Model index)) → ModelWrite (F.type index) id

namespace ModelWrite

variable {F : ModelTypes} {i : F.Index} {id : String}

/-- **A write that fits what was read**: an insert after nothing, an update with the version
read. -/
def AsRead (found : Option (Versioned (F.Model i))) : ModelWrite (F.type i) id → Prop
  | .insert _ => found = none
  | .update _ expectedVersion => found.map Versioned.version = some expectedVersion
  | _ => True

/-- **What a write makes of what is stored.** -/
def effect (checks : OverflowChecks) (stored : Option StoredModel) :
    ModelWrite (F.type i) id → Option StoredModel
  | .upsert model => StoredModel.written checks ((F.type i).toVec model.1) stored
  | .insert model => StoredModel.written checks ((F.type i).toVec model.1) stored
  | .update model _ => StoredModel.written checks ((F.type i).toVec model.1) stored
  | .delete => none
  | .abort => stored

/-- The call a write makes on the store inside. -/
def call : ModelWrite (F.type i) id → Option (ReadModelCall F)
  | .upsert model => some (.upsert i model.1)
  | .insert model => some (.insert i model.1)
  | .update model expectedVersion => some (.update i model.1 expectedVersion)
  | .delete => some (.delete i id)
  | .abort => none

/-- The result of a call is dropped. -/
def discard {α : Type} (p : QueuedCall F α) : QueuedCall F Unit :=
  Prog.map (fun r => r.map (fun _ => ())) p

/-- **The program of a write.** -/
def program : ModelWrite (F.type i) id → QueuedCall F Unit
  | .upsert model => discard (QueuedReadModelStore.upsert i model.1)
  | .insert model => discard (QueuedReadModelStore.insert i model.1)
  | .update model expectedVersion => discard (QueuedReadModelStore.update i model.1 expectedVersion)
  | .delete => discard (QueuedReadModelStore.delete i id)
  | .abort => QueuedReadModelStore.abort i id

end ModelWrite

namespace ModelSession

variable {F : ModelTypes}

/-- The key of a session's model. -/
def key (session : ModelSession F) : String := QueuedReadModelStore.modelKey session.index session.id

/-- **The function of a session**: what it makes of what is stored. -/
def effect (checks : OverflowChecks) (session : ModelSession F) (stored : Option StoredModel) :
    Option StoredModel :=
  match ReadModelStore.decode (F.type session.index) stored with
  | .ok found => (session.plan found).effect checks stored
  | .error _ => stored

/-- A write that a session makes of what is stored. -/
def Plans (session : ModelSession F) (stored : Option StoredModel) (call : ReadModelCall F) : Prop :=
  ∃ found, ReadModelStore.decode (F.type session.index) stored = .ok found
    ∧ (session.plan found).call = some call

end ModelSession

namespace ReadModelSessions

variable {F : ModelTypes}

/-- **Where a client is**: before a session of its script; in one, with what it read; in
one whose read or write returned an error; or past a panic. -/
inductive Place (F : ModelTypes) where
  | idle (script : ℕ → ModelSession F) (n : ℕ)
  | loaded (script : ℕ → ModelSession F) (n : ℕ) (found : Option (Versioned (F.Model (script n).index)))
  | unread (script : ℕ → ModelSession F) (n : ℕ) (e : ReadModelError)
  | refused (script : ℕ → ModelSession F) (n : ℕ) (found : Option (Versioned (F.Model (script n).index)))
      (e : ReadModelError)
  | panicked

/-- The place after a read. -/
def Place.got (script : ℕ → ModelSession F) (n : ℕ) :
    Res ReadModelError (Option (Versioned (F.Model (script n).index))) → Place F
  | .ok found => .loaded script n found
  | .error (.err e) => .unread script n e
  | .error _ => .panicked

/-- The place after a write. -/
def Place.wrote (script : ℕ → ModelSession F) (n : ℕ)
    (found : Option (Versioned (F.Model (script n).index))) : Res ReadModelError Unit → Place F
  | .ok () => .idle script (n + 1)
  | .error (.err e) => .refused script n found e
  | .error _ => .panicked

/-- The place after an `unlock`. -/
def Place.unlocked (script : ℕ → ModelSession F) (n : ℕ) : Res ReadModelError Unit → Place F
  | .ok () => .idle script (n + 1)
  | .error _ => .panicked

/-- A program of a client. -/
abbrev ClientProg (F : ModelTypes) := Prog (QueuedAction F) QueuedAction.Resp (Place F)

/-- **What a client does next.** -/
inductive Start : Place F → ClientProg F → Prop where
  /-- It begins its next session. -/
  | getModel (script : ℕ → ModelSession F) (n : ℕ) :
      Start (.idle script n)
        ((QueuedReadModelStore.getModel (script n).index (script n).id).map (.got script n))
  /-- It writes what it has made of what it read. -/
  | write (script : ℕ → ModelSession F) (n : ℕ) (found : Option (Versioned (F.Model (script n).index))) :
      Start (.loaded script n found) (((script n).plan found).program.map (.wrote script n found))
  /-- It releases the lock after a write that returned an error. -/
  | unlock (script : ℕ → ModelSession F) (n : ℕ) (found : Option (Versioned (F.Model (script n).index)))
      (e : ReadModelError) :
      Start (.refused script n found e)
        ((QueuedReadModelStore.unlock (script n).index (script n).id).map (.unlocked script n))
  /-- Or after a read that did. -/
  | giveUp (script : ℕ → ModelSession F) (n : ℕ) (e : ReadModelError) :
      Start (.unread script n e)
        ((QueuedReadModelStore.unlock (script n).index (script n).id).map (.unlocked script n))

end ReadModelSessions

/-! ## The history -/

/-- Whether a call can change a key. -/
def ReadModelCall.modifies {F : ModelTypes} (a : ReadModelCall F) : Bool :=
  a.writes.isSome || a.deletes.isSome

/-- **The shared state with its history**: the locks each client holds, the number of
sessions it has begun, the sessions in the order in which they acquired each lock, and
those whose write has returned `Ok`. -/
structure ModelHistory (C : Type) where
  shared : QueuedModels
  held : C → Finset String
  begun : C → ℕ
  acquired : String → List (C × ℕ)
  completed : C → Finset ℕ

namespace ModelHistory

variable {F : ModelTypes} {C : Type} [DecidableEq C]

/-- The history after an action. -/
def after (h : ModelHistory C) (c : C) (a : QueuedAction F) (r : a.Resp) (shared : QueuedModels) :
    ModelHistory C :=
  match a, r with
  | .lock key, .ok () =>
    { shared := shared
      held := Function.update h.held c (insert key (h.held c))
      begun := Function.update h.begun c (h.begun c + 1)
      acquired := Function.update h.acquired key (h.acquired key ++ [(c, h.begun c)])
      completed := h.completed }
  | .lock _, .error _ => { h with shared := shared }
  | .unlock key, .ok () =>
    { h with shared := shared, held := Function.update h.held c ((h.held c).erase key) }
  | .unlock _, .error _ => { h with shared := shared }
  | .inner call, r =>
    if call.modifies && call.accepted r then
      { h with
        shared := shared
        completed := Function.update h.completed c (insert (h.begun c - 1) (h.completed c)) }
    else { h with shared := shared }

/-- **An action with its history.** -/
def Sem (checks : OverflowChecks) (c : C) (a : QueuedAction F) (h : ModelHistory C) (r : a.Resp)
    (h' : ModelHistory C) : Prop :=
  a.Sem checks h.shared r h'.shared ∧ h' = h.after c a r h'.shared

/-- **The composition of the completed sessions** of a key, in the order in which they
acquired its lock. -/
def composed (checks : OverflowChecks) (script : C → ℕ → ModelSession F) (s₀ : InMemoryReadModelStore)
    (h : ModelHistory C) (key : String) : Option StoredModel :=
  ((h.acquired key).filter (fun p => decide (p.2 ∈ h.completed p.1))).foldl
    (fun stored p => (script p.1 p.2).effect checks stored) (s₀.lookup key)

end ModelHistory

namespace ReadModelSessions

variable {F : ModelTypes} (checks : OverflowChecks)

/-- **Clients sharing one `QueuedReadModelStore`.** -/
def system (F : ModelTypes) (C : Type) [DecidableEq C] :
    System C (QueuedAction F) QueuedAction.Resp (ModelHistory C) (Place F) where
  sem := ModelHistory.Sem checks
  start _ := Start

/-- A store with some content, and every client before the first session of its script. -/
def initial {C : Type} (script : C → ℕ → ModelSession F) (s : QueuedModels) :
    Config C (QueuedAction F) QueuedAction.Resp (ModelHistory C) (Place F) :=
  ⟨⟨s, fun _ => ∅, fun _ => 0, fun _ => [], fun _ => ∅⟩, fun c => .ret (.idle (script c) 0)⟩

end ReadModelSessions

/-! ## Sessions keep the protocol -/

namespace ReadModelSessions

variable {F : ModelTypes}

/-- **The ghost value of a client**: outside of its session; in it, with what is stored under
the key; or after its write. -/
inductive Phase where
  | outside
  | holding (stored : Option StoredModel)
  | done

/-- Whether the client has the lock. -/
def Phase.inside : Phase → Bool
  | .outside => false
  | _ => true

/-- The ghost value with the script, and the number of the session. -/
structure Standing (F : ModelTypes) where
  script : ℕ → ModelSession F
  session : ℕ
  phase : Phase

/-- The key of the session. -/
def Standing.key (o : Standing F) : String := (o.script o.session).key

variable (checks : OverflowChecks)

/-- **An answer of a call**, on a store with this under the key. -/
def Answers (key : String) (call : ReadModelCall F) (stored : Option StoredModel) (r : call.Resp) : Prop :=
  ∃ ord s s', s.lookup key = stored ∧ call.exec checks ord s = (r, s')

/-- **What a session may do, and what it learns.** -/
def protocol : Protocol (QueuedAction F) QueuedAction.Resp (Standing F) where
  pre a o :=
    match a with
    | .lock key => o.phase = .outside ∧ key = o.key
    | .unlock key => o.phase.inside = true ∧ key = o.key
    | .inner call => ∃ stored, o.phase = .holding stored
        ∧ (call.modifies = false ∨ (o.script o.session).Plans stored call)
  upd a o r o' :=
    match a, r with
    | .lock _, r => r = .ok () ∧ ∃ stored, o' = { o with phase := .holding stored }
    | .unlock _, r => r = .ok () ∧ o' = { o with session := o.session + 1, phase := .outside }
    | .inner call, r => (∀ stored, o.phase = .holding stored → Answers checks o.key call stored r)
        ∧ o' = if call.modifies && call.accepted r then { o with phase := .done } else o

/-- **What a client at rest knows.** -/
def Rests : Place F → Standing F → Prop
  | .idle script n, o => o = ⟨script, n, .outside⟩
  | .loaded script n found, o => ∃ stored, o = ⟨script, n, .holding stored⟩
      ∧ ReadModelStore.decode (F.type (script n).index) stored = .ok found
  | .unread script n _, o => ∃ phase, o = ⟨script, n, phase⟩ ∧ phase.inside = true
  | .refused script n found e, o => (∃ phase, o = ⟨script, n, phase⟩ ∧ phase.inside = true)
      ∧ (((script n).plan found).AsRead found → e.stale = false)
  | .panicked, _ => True

variable {checks} {script : ℕ → ModelSession F} {n : ℕ}
  {found : Option (Versioned (F.Model (script n).index))}

/-- A session ends with the release of its lock. -/
theorem wp_unlock {phase : Phase} (hphase : phase.inside = true) {key : String}
    (hkey : key = (script n).key) {k : Except LockError Unit → ClientProg F}
    (hk : k (.ok ()) = .ret (.idle script (n + 1))) :
    (protocol checks).wp Rests (.act (.unlock key) k) ⟨script, n, phase⟩ := by
  refine ⟨⟨hphase, hkey⟩, fun r o' ⟨hr, ho'⟩ => ?_⟩
  obtain rfl : r = .ok () := hr
  obtain rfl := ho'
  rw [hk]
  rfl

theorem rests_refused {stored : Option StoredModel} {e : Fault ReadModelError}
    (he : ∀ e', e = .err e' → ((script n).plan found).AsRead found → e'.stale = false) :
    Rests (.wrote script n found (.error e)) ⟨script, n, .holding stored⟩ := by
  cases e with
  | err e => exact ⟨⟨_, rfl, rfl⟩, he e rfl⟩
  | panic => exact trivial
  | diverge => exact trivial

theorem decode_none {M : Type} {V : ReadModelType M} {stored : Option StoredModel}
    (h : ReadModelStore.decode V stored = .ok none) : stored = none := by
  unfold ReadModelStore.decode at h
  split at h
  · rfl
  · split at h <;> cases h

/-- The version found is the one stored. -/
theorem decode_version {M : Type} {V : ReadModelType M} {stored : Option StoredModel}
    {found : Option (Versioned M)} (h : ReadModelStore.decode V stored = .ok found) :
    found.map Versioned.version = stored.map StoredModel.version := by
  unfold ReadModelStore.decode at h
  split at h
  · obtain rfl := Except.ok.inj h
    rfl
  · split at h
    · obtain rfl := Except.ok.inj h
      rfl
    · cases h

section NotStale

variable {i : F.Index} {id : String} {stored : Option StoredModel} {e : ReadModelError}

theorem upsert_not_stale {key : String} {model : F.Model i}
    (h : Answers checks key (.upsert i model) stored (.error (.err e))) : e.stale = false := by
  obtain ⟨ord, s, s', -, hexec⟩ := h
  rcases ReadModelStore.upsert_cases hexec with ⟨hok, -⟩ | ⟨-, hstale⟩
  · cases hok
  · exact hstale e rfl

/-- An insert does not where nothing is. -/
theorem insert_not_stale {model : {m : F.Model i // (F.type i).id m = id}}
    (h : Answers checks (QueuedReadModelStore.modelKey i id) (.insert i model.1) none (.error (.err e))) :
    e.stale = false := by
  obtain ⟨model, rfl⟩ := model
  obtain ⟨ord, s, s', hs, hexec⟩ := h
  rcases ReadModelStore.insert_cases checks hexec with ⟨hok, -⟩ | ⟨-, hstale⟩
  · cases hok
  · refine Bool.eq_false_iff.mpr (fun he => ?_)
    obtain ⟨stored, hstored⟩ := Option.isSome_iff_exists.mp (hstale e rfl he)
    exact absurd (hs.symm.trans hstored) (by simp)

/-- An update does not at the version of what is stored. -/
theorem update_not_stale {model : {m : F.Model i // (F.type i).id m = id}} {expectedVersion : ℕ}
    (hversion : stored.map StoredModel.version = some expectedVersion)
    (h : Answers checks (QueuedReadModelStore.modelKey i id) (.update i model.1 expectedVersion) stored
      (.error (.err e))) : e.stale = false := by
  obtain ⟨model, rfl⟩ := model
  obtain ⟨ord, s, s', hs, hexec⟩ := h
  rcases ReadModelStore.update_cases hexec with ⟨hok, -⟩ | ⟨-, hstale⟩
  · cases hok
  · refine Bool.eq_false_iff.mpr (fun he => ?_)
    obtain ⟨found, rfl, hfound⟩ := Option.map_eq_some_iff.mp hversion
    exact hstale e rfl he found hs hfound

theorem delete_not_stale {key : String} (h : Answers checks key (.delete i id) stored (.error (.err e))) :
    e.stale = false := by
  obtain ⟨ord, s, s', -, hexec⟩ := h
  rcases ReadModelStore.delete_cases hexec with ⟨hok, -⟩ | ⟨-, hstale⟩
  · cases hok
  · exact hstale e rfl

end NotStale

/-- **What a session has read** is what is stored under its key. -/
theorem wp_getModel (script : ℕ → ModelSession F) (n : ℕ) :
    (protocol checks).wp Rests
      ((QueuedReadModelStore.getModel (script n).index (script n).id).map (.got script n))
      ⟨script, n, .outside⟩ := by
  refine ⟨⟨rfl, rfl⟩, fun r o' ⟨hr, stored, ho'⟩ => ?_⟩
  obtain rfl : r = .ok () := hr
  obtain rfl := ho'
  refine ⟨⟨stored, rfl, Or.inl rfl⟩, fun r o' ⟨hanswers, ho'⟩ => ?_⟩
  obtain rfl := ho'
  obtain ⟨ord, s, s', hs, hexec⟩ := hanswers stored rfl
  have hr := (Prod.mk.inj hexec).1
  cases r with
  | error e =>
    cases e with
    | err e => exact ⟨_, rfl, rfl⟩
    | panic => exact trivial
    | diverge => exact trivial
  | ok found =>
    refine ⟨stored, rfl, ?_⟩
    unfold ReadModelStore.getModel at hr
    split at hr
    · cases hr
    · exact hs ▸ hr

/-- **What a session writes** is of the model it has read, and releases the lock. -/
theorem wp_write {stored : Option StoredModel}
    (hdecode : ReadModelStore.decode (F.type (script n).index) stored = .ok found) :
    (protocol checks).wp Rests (((script n).plan found).program.map (.wrote script n found))
      ⟨script, n, .holding stored⟩ := by
  have hplans : ∀ {w : ModelWrite (F.type (script n).index) (script n).id} {call : ReadModelCall F},
      (script n).plan found = w → w.call = some call →
        (protocol checks).pre (.inner call) ⟨script, n, .holding stored⟩ := fun hw hcall =>
    ⟨stored, rfl, Or.inr ⟨found, hdecode, (congrArg ModelWrite.call hw).trans hcall⟩⟩
  have hkey : ∀ model : {m // (F.type (script n).index).id m = (script n).id},
      QueuedReadModelStore.modelKey _ ((F.type (script n).index).id model.1) = (script n).key :=
    fun model => congrArg _ model.2
  cases hplan : (script n).plan found with
  | upsert model =>
    refine ⟨hplans hplan rfl, fun r o' ⟨hanswers, ho'⟩ => ?_⟩
    obtain rfl := ho'
    cases r with
    | ok v => exact wp_unlock rfl (hkey model) rfl
    | error e => exact rests_refused (fun e' he _ => upsert_not_stale (he ▸ hanswers stored rfl))
  | insert model =>
    refine ⟨hplans hplan rfl, fun r o' ⟨hanswers, ho'⟩ => ?_⟩
    obtain rfl := ho'
    cases r with
    | ok v => exact wp_unlock rfl (hkey model) rfl
    | error e =>
      refine rests_refused (fun e' he hread => ?_)
      rw [hplan] at hread
      obtain rfl : found = none := hread
      obtain rfl := decode_none hdecode
      exact insert_not_stale (he ▸ hanswers none rfl)
  | update model expectedVersion =>
    refine ⟨hplans hplan rfl, fun r o' ⟨hanswers, ho'⟩ => ?_⟩
    obtain rfl := ho'
    cases r with
    | ok v => exact wp_unlock rfl (hkey model) rfl
    | error e =>
      refine rests_refused (fun e' he hread => ?_)
      rw [hplan] at hread
      exact update_not_stale ((decode_version hdecode).symm.trans hread) (he ▸ hanswers stored rfl)
  | delete =>
    refine ⟨hplans hplan rfl, fun r o' ⟨hanswers, ho'⟩ => ?_⟩
    obtain rfl := ho'
    cases r with
    | ok v => exact wp_unlock rfl rfl rfl
    | error e => exact rests_refused (fun e' he _ => delete_not_stale (he ▸ hanswers stored rfl))
  | abort => exact wp_unlock rfl rfl rfl

/-- **Every program of a session keeps the protocol.** -/
theorem wp_start {l : Place F} {p : ClientProg F} {o : Standing F} (hl : Rests l o) (h : Start l p) :
    (protocol checks).wp Rests p o := by
  cases h with
  | getModel script n =>
    obtain rfl := hl
    exact wp_getModel script n
  | write script n found =>
    obtain ⟨stored, rfl, hdecode⟩ := hl
    exact wp_write hdecode
  | unlock script n found e =>
    obtain ⟨⟨phase, rfl, hphase⟩, -⟩ := hl
    exact wp_unlock hphase rfl rfl
  | giveUp script n e =>
    obtain ⟨phase, rfl, hphase⟩ := hl
    exact wp_unlock hphase rfl rfl

end ReadModelSessions
