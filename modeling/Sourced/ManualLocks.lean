import Sourced.LockOwnership

/-!
# Locks taken by hand

`QueuedRepository::lock` is the way to the lock of an id without a read. It calls
`try_lock`, drops the answer, and returns `Ok` – also when the lock is someone
else's and was not taken. `lock` of `QueuedReadModelStore`, its counterpart, waits for
the lock.

A client owns the lock of an id from the moment its `lock` or its locking read
is told `Ok` until its own release. Two clients can then own one lock at once
(`ManualLocks.both_locked`). No two ever do as long as no `lock` is called on a lock
that another client owns and no such lock is released, by `unlock`, by `abort` or by
the commit of an entity with its id (`ManualLocks.lock_exclusive`). Either of these,
done once, is enough for two owners.
-/

/-- **The shared state and who owns what.** -/
structure OwnedLocks (C : Type) where
  shared : Shared
  owned : C → Finset String

namespace ManualLocks

open LockOwnership (queued fetched)

/-- What a client owns after an action of its own. A `try_lock` is that of
`QueuedRepository::lock`, which returns `Ok` whatever the answer. -/
def ownedAfter (a : RepoAction) (r : a.Resp) (owned : Finset String) : Finset String :=
  match a, r with
  | .lock id, .ok () => insert id owned
  | .tryLock id, .ok _ => insert id owned
  | .unlock id, .ok () => owned.erase id
  | _, _ => owned

/-- **`QueuedRepository::lock` returns `Ok`** on either answer. -/
theorem lock_eq (id : String) :
    QueuedRepository.lock id
      = Prog.act (.tryLock id) (fun r => Prog.ret (QueuedRepository.lockErr (r.map (fun _ => ())))) := by
  refine congrArg (Prog.act (RepoAction.tryLock id)) (funext fun r => ?_)
  cases r <;> rfl

variable {C : Type} [DecidableEq C]

/-- **An action and what its client owns after it.** -/
def Sem (c : C) (a : RepoAction) (h : OwnedLocks C) (r : a.Resp) (h' : OwnedLocks C) : Prop :=
  a.Sem h.shared r h'.shared
    ∧ h'.owned = Function.update h.owned c (ownedAfter a r (h.owned c))

/-- The same as a function, where the action does not iterate the map. -/
def alone (c : C) (a : RepoAction) (h : OwnedLocks C) : Option (a.Resp × OwnedLocks C) :=
  (a.alone h.shared).map (fun (r, s) =>
    (r, ⟨s, Function.update h.owned c (ownedAfter a r (h.owned c))⟩))

theorem sem_of_alone (c : C) (a : RepoAction) (h : OwnedLocks C) (r : a.Resp) (h' : OwnedLocks C)
    (halone : alone c a h = some (r, h')) : Sem c a h r h' := by
  obtain ⟨⟨r', s⟩, hs, heq⟩ := Option.map_eq_some_iff.mp halone
  obtain ⟨rfl, rfl⟩ := Prod.mk.inj heq
  exact ⟨RepoAction.sem_of_alone a h.shared _ s hs, rfl⟩

/-- **What a client does next.** Its local state is its entities. -/
inductive Start : List Entity → RepoProg (List Entity) → Prop where
  /-- `lock`. -/
  | lock (pool : List Entity) (id : String) :
      Start pool ((QueuedRepository.lock id).map (fun _ => pool))
  /-- `unlock`, and `abort`. -/
  | unlock (pool : List Entity) (id : String) : Start pool ((queued.unlock id).map (fun _ => pool))
  /-- A new entity with an id. -/
  | create (pool : List Entity) (id : String) : Start pool (.ret (Entity.withId id :: pool))
  /-- `get` of one id. -/
  | getOne (pool : List Entity) (id : String) :
      Start pool ((queued.getOne id).map (fun r => fetched (r.map Option.toList) ++ pool))
  /-- `get` of several. -/
  | getMany (pool : List Entity) (ids : List String) :
      Start pool ((queued.getMany ids).map (fun r => fetched r ++ pool))
  /-- `peek`. -/
  | peek (pool : List Entity) (id : String) :
      Start pool ((queued.getWith id ReadOpts.noLock).map
        (fun r => fetched (r.map Option.toList) ++ pool))
  /-- `find`. -/
  | find (pool : List Entity) (p : Entity → Bool) :
      Start pool ((queued.find p).map (fun r => fetched r ++ pool))
  /-- `find_one`. -/
  | findOne (pool : List Entity) (p : Entity → Bool) :
      Start pool ((queued.findOne p).map (fun r => fetched (r.map Option.toList) ++ pool))
  /-- Events recorded on an entity. -/
  | work (pre post : List Entity) (e e' : Entity) (h : e.Grows e') :
      Start (pre ++ e :: post) (.ret (pre ++ e' :: post))
  /-- `commit` of some of the entities. -/
  | commit (pool batch rest : List Entity) (hpool : pool.Perm (batch ++ rest)) :
      Start pool ((queued.commit batch).map (fun r => r.2 ++ rest))

/-- **Clients sharing one `QueuedRepository`.** -/
def system (C : Type) [DecidableEq C] :
    System C RepoAction RepoAction.Resp (OwnedLocks C) (List Entity) where
  sem := Sem
  start _ := Start

/-- A repository with some content and some locks taken, and clients with
nothing. -/
def initial (C : Type) (s : Shared) : Config C RepoAction RepoAction.Resp (OwnedLocks C) (List Entity) :=
  ⟨⟨s, fun _ => ∅⟩, fun _ => .ret []⟩

/-- **Neither a `lock` nor a release is of a lock that another client owns.** -/
def Orderly (c : C) (a : RepoAction) (h : OwnedLocks C) (_ : a.Resp) : Prop :=
  match a with
  | .tryLock id | .unlock id => ∀ d, id ∈ h.owned d → d = c
  | _ => True

variable {c : C} {a : RepoAction} {h h' : OwnedLocks C} {r : a.Resp}

/-- **An orderly action keeps the locks with their owners.** -/
theorem exclusive_of_sem (hI : Exclusive h.shared.locked h.owned) (hsem : Sem c a h r h')
    (hok : Orderly c a h r) : Exclusive h'.shared.locked h'.owned := by
  obtain ⟨hact, howned⟩ := hsem
  rw [howned]
  have hsame : h'.shared.locked = h.shared.locked → ownedAfter a r (h.owned c) = h.owned c →
      Exclusive h'.shared.locked (Function.update h.owned c (ownedAfter a r (h.owned c))) := by
    intro hlocked hafter
    rw [hlocked, hafter, Function.update_eq_self]
    exact hI
  cases a with
  | lock id =>
    obtain ⟨hfree, rfl, hs⟩ := RepoAction.sem_lock.mp hact
    rw [hs]
    exact hI.take hfree c
  | tryLock id =>
    rcases RepoAction.sem_tryLock.mp hact with ⟨htaken, rfl, hs⟩ | ⟨hfree, rfl, hs⟩
    · -- the lock was not taken, and nobody but the caller owns it
      rw [hs]
      exact hI.join htaken hok
    · rw [hs]
      exact hI.take hfree c
  | unlock id =>
    obtain ⟨rfl, hs⟩ := RepoAction.sem_unlock.mp hact
    rw [hs]
    exact hI.release hok
  | _ => exact hsame (RepoAction.locked_of_sem hact rfl) rfl

theorem exclusive_of_run {x y : Config C RepoAction RepoAction.Resp (OwnedLocks C) (List Entity)}
    (hx : Exclusive x.shared.shared.locked x.shared.owned)
    (hrun : ((system C).restrict Orderly).Run x y) :
    Exclusive y.shared.shared.locked y.shared.owned := by
  induction hrun with
  | refl => exact hx
  | tail _ hstep ih =>
    cases hstep with
    | act c a k r s' _ hsem => exact exclusive_of_sem ih hsem.1 hsem.2
    | start => exact ih

/-- **`lock` does not keep a client out**: called on a lock another client owns, it
leaves both owning it. -/
theorem shared_after_tryLock {d : C} {id : String} {b : Bool} (hd : id ∈ h.owned d) (hdc : d ≠ c)
    (hsem : Sem c (.tryLock id) h (.ok b) h') : id ∈ h'.owned c ∧ id ∈ h'.owned d := by
  rw [hsem.2]
  refine ⟨?_, ?_⟩
  · rw [Function.update_self]
    exact Finset.mem_insert_self _ _
  · rw [Function.update_of_ne hdc]
    exact hd

/-- **A release of another's lock** leaves it owned and free, and whoever locks it next, with a
locking read or with `lock`, owns it too. -/
theorem shared_after_unlock {d : C} {id : String} (hd : id ∈ h.owned d) (hdc : d ≠ c)
    (hsem : Sem c (.unlock id) h (.ok ()) h') :
    id ∈ h'.owned d ∧ h'.shared.locked id = false
      ∧ ∀ e, ∃ h'', Sem e (.lock id) h' (.ok ()) h'' ∧ Sem e (.tryLock id) h' (.ok true) h''
        ∧ id ∈ h''.owned e ∧ id ∈ h''.owned d := by
  obtain ⟨hact, howned⟩ := hsem
  have hfree : h'.shared.locked id = false := by
    rw [(RepoAction.sem_unlock.mp hact).2]
    exact Shared.locked_setLocked_self _ _ _
  have hmem : id ∈ h'.owned d := by
    rw [howned, Function.update_of_ne hdc]
    exact hd
  refine ⟨hmem, hfree, fun e => ?_⟩
  let h'' : OwnedLocks C := ⟨h'.shared.setLocked id true,
    Function.update h'.owned e (insert id (h'.owned e))⟩
  have he : id ∈ h''.owned e := by
    show id ∈ Function.update h'.owned e _ e
    rw [Function.update_self]
    exact Finset.mem_insert_self _ _
  refine ⟨h'', ⟨RepoAction.sem_lock.mpr ⟨hfree, rfl, rfl⟩, rfl⟩,
    ⟨RepoAction.sem_tryLock.mpr (Or.inr ⟨hfree, rfl, rfl⟩), rfl⟩, he, ?_⟩
  by_cases heq : d = e
  · exact heq ▸ he
  · show id ∈ Function.update h'.owned e _ d
    rw [Function.update_of_ne heq]
    exact hmem

/-- **When `lock` gives exclusive ownership.** In every run in which neither a `lock` nor a
release is of a lock that another client owns, no two clients own the lock of one id.
Either of these is enough for two owners: a `lock` that is then called on another
client's lock leaves both owning it, and a release of one leaves it free, for any client
to be told `Ok` for it beside its owner. -/
theorem lock_exclusive {s : Shared}
    {x : Config C RepoAction RepoAction.Resp (OwnedLocks C) (List Entity)}
    (hrun : ((system C).restrict Orderly).Run (initial C s) x) :
    (∀ c d id, id ∈ x.shared.owned c → id ∈ x.shared.owned d → c = d)
      ∧ (∀ c d id b h', id ∈ x.shared.owned d → d ≠ c → Sem c (.tryLock id) x.shared (.ok b) h' →
        id ∈ h'.owned c ∧ id ∈ h'.owned d)
      ∧ ∀ c d id h', id ∈ x.shared.owned d → d ≠ c → Sem c (.unlock id) x.shared (.ok ()) h' →
        id ∈ h'.owned d ∧ h'.shared.locked id = false
          ∧ ∀ e, ∃ h'', Sem e (.lock id) h' (.ok ()) h'' ∧ Sem e (.tryLock id) h' (.ok true) h''
            ∧ id ∈ h''.owned e ∧ id ∈ h''.owned d :=
  ⟨(exclusive_of_run (Exclusive.empty _) hrun).unique,
    fun _ _ _ _ _ hd hdc hsem => shared_after_tryLock hd hdc hsem,
    fun _ _ _ _ hd hdc hsem => shared_after_unlock hd hdc hsem⟩

/-- What an orderly action does that does not iterate the map. -/
def orderlyAlone (c : Bool) (a : RepoAction) (h : OwnedLocks Bool) :
    Option (a.Resp × OwnedLocks Bool) :=
  match a with
  | .tryLock id => if ∀ d, id ∈ h.owned d → d = c then alone c (.tryLock id) h else none
  | .unlock id => if ∀ d, id ∈ h.owned d → d = c then alone c (.unlock id) h else none
  | a => alone c a h

theorem sem_of_orderlyAlone (c : Bool) (a : RepoAction) (h : OwnedLocks Bool) (r : a.Resp)
    (h' : OwnedLocks Bool) (halone : orderlyAlone c a h = some (r, h')) :
    Sem c a h r h' ∧ Orderly c a h r := by
  cases a with
  | tryLock id =>
    by_cases hok : ∀ d, id ∈ h.owned d → d = c
    · rw [orderlyAlone, if_pos hok] at halone
      exact ⟨sem_of_alone c _ h r h' halone, hok⟩
    · rw [orderlyAlone, if_neg hok] at halone
      cases halone
  | unlock id =>
    by_cases hok : ∀ d, id ∈ h.owned d → d = c
    · rw [orderlyAlone, if_pos hok] at halone
      exact ⟨sem_of_alone c _ h r h' halone, hok⟩
    · rw [orderlyAlone, if_neg hok] at halone
      cases halone
  | _ => exact ⟨sem_of_alone c _ h r h' halone, trivial⟩

/-- A lock goes from one client to another, the first releases it again though it is free, and
then commits a new entity whose lock it has never taken. -/
theorem lock_exclusive_handed :
    ∃ x : Config Bool RepoAction RepoAction.Resp (OwnedLocks Bool) (List Entity),
      "todo-1" ∈ x.shared.owned false ∧ "todo-2" ∈ x.shared.owned true
        ∧ "todo-3" ∉ x.shared.owned true ∧ (x.shared.shared.events.lookup "todo-3").isSome
        ∧ ∀ c d id, id ∈ x.shared.owned c → id ∈ x.shared.owned d → c = d := by
  have h₀ : ((system Bool).restrict Orderly).Run (initial Bool Shared.empty)
    (initial Bool Shared.empty) := .refl
  have h₁ := h₀.call (sem_of_orderlyAlone true) rfl (.lock _ "todo-1") rfl
  have h₂ := h₁.call (sem_of_orderlyAlone true) rfl (.getOne _ "todo-2") rfl
  have h₃ := h₂.call (sem_of_orderlyAlone true) rfl (.unlock _ "todo-1") rfl
  have h₄ := h₃.call (sem_of_orderlyAlone true) rfl (.unlock _ "todo-1") rfl
  have h₅ := h₄.call (sem_of_orderlyAlone false) rfl (.lock _ "todo-1") rfl
  have h₆ := h₅.call (sem_of_orderlyAlone true) rfl (.create _ "todo-3") rfl
  have h₇ := h₆.call (sem_of_orderlyAlone true) rfl (.commit _ [_] [] (.refl _)) rfl
  exact ⟨_, by decide, by decide, by decide, rfl, (lock_exclusive h₇).1⟩

/-- **Two clients lock one id.** Both calls return `Ok`, the second while the first
client has not released the id; and neither call waits. -/
theorem both_locked :
    ∃ x : Config Bool RepoAction RepoAction.Resp (OwnedLocks Bool) (List Entity),
      (system Bool).Run (initial Bool Shared.empty) x
        ∧ (∀ c, x.prog c = .ret [])
        ∧ "todo-1" ∈ x.shared.owned true ∧ "todo-1" ∈ x.shared.owned false := by
  have h₀ : (system Bool).Run (initial Bool Shared.empty)
    (initial Bool Shared.empty) := .refl
  have h₁ := h₀.call (sem_of_alone true) rfl (.lock _ "todo-1") rfl
  have h₂ := h₁.call (sem_of_alone false) rfl (.lock _ "todo-1") rfl
  refine ⟨_, h₂, fun c => ?_, by decide, by decide⟩
  cases c <;> rfl

end ManualLocks
