import Sourced.InMemoryLock
import Sourced.Monitored
import Sourced.QueuedRepository

/-!
# The in-memory lock manager

`InMemoryLockManager` (`lock/in_memory.rs`) is a map behind a mutex, from ids to locks;
`get_lock` makes the lock of an id when it is first asked for, and answers the same one
ever after. A `QueuedRepository` asks it for a lock before each operation, or once before
several.

In `Repository` the lock of an id is a flag, and taking it one action that is blocked while
the flag is set. Here are the programs of the repositories over the locks themselves: the
map, the handles that were looked up, the turns under the mutex of each lock, the sleepers
and who is woken, in any interleaving. It refines the flags, for all programs
(`InMemoryLockManager.refines_flags`), and whoever sleeps in it has reason to
(`InMemoryLockManager.not_all_asleep`).
-/

/-- **`InMemoryLockManager`**: the map, and the locks that were made, by their handles. -/
structure InMemoryLockManager where
  locks : String → Option ℕ
  heap : List InMemoryLock

/-- **An action can be performed**, or is that of a lock that is taken. -/
theorem RepoAction.enabled_or_locked (a : RepoAction) (s : Shared) :
    (∃ r s', a.Sem s r s') ∨ ∃ id, a = .lock id ∧ s.locked id = true := by
  obtain ⟨ord, hord⟩ := s.events.exists_enumerates
  have henabled : ∀ {a : RepoAction} {r s'}, a.exec ord s = some (r, s') →
      (∃ r s', a.Sem s r s') ∨ ∃ id, a = .lock id ∧ s.locked id = true :=
    fun hexec => Or.inl ⟨_, _, ord, hord, hexec⟩
  cases a with
  | lock id =>
    cases hlocked : s.locked id with
    | true => exact Or.inr ⟨id, rfl, hlocked⟩
    | false => exact henabled (if_neg (by simp [hlocked]))
  | tryLock id =>
    cases hlocked : s.locked id with
    | true => exact henabled (if_pos hlocked)
    | false => exact henabled (if_neg (by simp [hlocked]))
  | _ => exact henabled rfl

namespace InMemoryLockManager

/-- `InMemoryLockManager::new`. -/
def new : InMemoryLockManager := ⟨fun _ => none, []⟩

/-- **`InMemoryLockManager::get_lock`**: the lock of the id, made if there is none. -/
def getLock (m : InMemoryLockManager) (id : String) : ℕ × InMemoryLockManager :=
  match m.locks id with
  | some h => (h, m)
  | none =>
    (m.heap.length, ⟨Function.update m.locks id (some m.heap.length), m.heap ++ [InMemoryLock.new]⟩)

/-! ## Repositories over the locks -/

/-- **Which action is an operation of a lock**, and of the lock of which id. -/
def kind : (a : RepoAction) → Monitor.Kind String LockOp LockOp.Resp a.Resp
  | .lock id => .operation id .lock (fun r => r)
  | .tryLock id => .operation id .tryLock (fun r => r)
  | .unlock id => .operation id .unlock (fun r => r)
  | .getOne _ => .data
  | .find _ => .data
  | .findOne _ => .data
  | .exists' _ => .data
  | .count _ => .data
  | .commit _ => .data
  | .getSnapshot _ => .data
  | .saveSnapshot _ => .data
  | .deleteSnapshot _ => .data

/-- The two stores. -/
structure Stores where
  events : EventStore
  snapshots : SnapshotStore

/-- The stores, with the flags of the locks. -/
def Stores.withLocks (d : Stores) (locked : String → Bool) : Shared :=
  ⟨d.events, d.snapshots, locked⟩

/-- **An action on the stores**, whatever the locks. -/
def StoreSem (a : RepoAction) (d : Stores) (r : a.Resp) (d' : Stores) : Prop :=
  ∀ locked, a.Sem (d.withLocks locked) r (d'.withLocks locked)

variable {C Λ : Type}

/-- **The programs of clients over the locks of a manager.** -/
def clients (start : C → Λ → RepoProg Λ → Prop) :
    Monitored C RepoAction RepoAction.Resp Stores String InMemoryLock LockOp LockOp.Resp Λ where
  monitor := InMemoryLock.monitor
  fresh := InMemoryLock.new
  kind := kind
  sem _ := StoreSem
  start := start

/-- **The same programs over flags.** -/
def flags (start : C → Λ → RepoProg Λ → Prop) :
    System C RepoAction RepoAction.Resp Shared Λ where
  sem _ := RepoAction.Sem
  start := start

/-- A state of the clients and the locks. -/
abbrev State (C Λ : Type) : Type :=
  Monitored.Fine C RepoAction RepoAction.Resp Stores String InMemoryLock LockOp Λ

/-- The manager of a state. -/
def manager (x : State C Λ) : InMemoryLockManager := ⟨x.table, x.heap⟩

/-- In the beginning it is a new one. -/
theorem manager_initial (d : Stores) (prog : C → RepoProg Λ) :
    manager (.initial C d prog : State C Λ) = new := rfl

/-- **The flag of the lock of an id**: of the one in the map, and clear if there is none. -/
def locked (x : State C Λ) (id : String) : Bool := (x.monitors InMemoryLock.new id).locked

/-- **A state, over flags.** -/
def config (x : State C Λ) : Config C RepoAction RepoAction.Resp Shared Λ :=
  ⟨x.data.withLocks (locked x), x.prog⟩

variable {start : C → Λ → RepoProg Λ → Prop}

section Steps

variable [DecidableEq C]

/-- **A client asks the manager for a lock**, at any time. -/
theorem step_getLock (x : State C Λ) (c : C) (id : String) :
    (clients start).Step x { x with
      table := ((manager x).getLock id).2.locks
      heap := ((manager x).getLock id).2.heap
      handles := Function.update x.handles c
        (Function.update (x.handles c) id (some ((manager x).getLock id).1)) } := by
  unfold getLock manager
  cases hid : x.table id with
  | some h => simpa [hid] using Monitored.Step.lookup (N := clients start) c id h hid
  | none =>
    simp only [hid]
    exact Monitored.Step.create (N := clients start) c id hid

end Steps

/-! ## Actions on the stores -/

variable {a : RepoAction}

/-- What an action on the stores does does not depend on the locks. -/
theorem exec_of_data (ha : kind a = .data) (ord : List String) (d : Stores) :
    ∃ r d', ∀ locked, a.exec ord (d.withLocks locked) = some (r, Stores.withLocks d' locked) := by
  cases a with
  | lock id => cases ha
  | tryLock id => cases ha
  | unlock id => cases ha
  | getOne id => exact ⟨d.events.getOne id, d, fun _ => rfl⟩
  | find p => exact ⟨d.events.find ord p, d, fun _ => rfl⟩
  | findOne p => exact ⟨d.events.findOne ord p, d, fun _ => rfl⟩
  | exists' p => exact ⟨d.events.exists' ord p, d, fun _ => rfl⟩
  | count p => exact ⟨d.events.count ord p, d, fun _ => rfl⟩
  | commit es =>
    exact ⟨((d.events.commit es).1, (d.events.commit es).2.1),
      ⟨(d.events.commit es).2.2, d.snapshots⟩, fun _ => rfl⟩
  | getSnapshot id => exact ⟨.ok (d.snapshots.getSnapshot id), d, fun _ => rfl⟩
  | saveSnapshot record =>
    exact ⟨.ok (), ⟨d.events, d.snapshots.saveSnapshot record⟩, fun _ => rfl⟩
  | deleteSnapshot id =>
    exact ⟨.ok (d.snapshots.deleteSnapshot id).1, ⟨d.events, (d.snapshots.deleteSnapshot id).2⟩,
      fun _ => rfl⟩

/-- **An action on the stores among locks** is the action on the stores. -/
theorem storeSem_of_sem (ha : kind a = .data) {d : Stores} {locked : String → Bool} {r : a.Resp}
    {s : Shared} (h : a.Sem (d.withLocks locked) r s) : ∃ d', StoreSem a d r d' := by
  obtain ⟨ord, hord, hexec⟩ := h
  obtain ⟨r', d', hdata⟩ := exec_of_data ha ord d
  rw [hdata locked] at hexec
  obtain ⟨rfl, -⟩ := Prod.mk.inj (Option.some.inj hexec)
  exact ⟨d', fun locked' => ⟨ord, hord, hdata locked'⟩⟩

/-! ## The refinement -/

section Refinement

variable [DecidableEq C]

/-- The flags of a table of locks. -/
def flagsOf (m : String → InMemoryLock) (id : String) : Bool := (m id).locked

theorem flagsOf_update (m : String → InMemoryLock) (id : String) (s : InMemoryLock) :
    flagsOf (Function.update m id s) = Function.update (flagsOf m) id s.locked := by
  funext id'
  by_cases heq : id' = id
  · subst heq
    simp [flagsOf]
  · simp [flagsOf, heq]

omit [DecidableEq C] in
/-- **An operation on a lock is the action on its flag**, and leaves no mutex poisoned. -/
theorem sem_of_atomicSem {c : C} {d d' : Stores} {m m' : String → InMemoryLock} {r : a.Resp}
    (hm : ∀ id, (m id).poisoned = false)
    (h : (clients start).AtomicSem c a ⟨d, m⟩ r ⟨d', m'⟩) :
    a.Sem (d.withLocks (flagsOf m)) r (d'.withLocks (flagsOf m'))
      ∧ ∀ id, (m' id).poisoned = false := by
  cases h with
  | data hkind hsem => exact ⟨hsem (flagsOf m), hm⟩
  | @operation _ _ id o answer s notify r hkind hturn =>
    change InMemoryLock.monitor.turn o (m id) = _ at hturn
    have hperforms := InMemoryLock.performs_of_turn (hm id) hturn id
      (t := d.withLocks (flagsOf m)) rfl
    have hset : (d.withLocks (flagsOf m)).setLocked id s.locked
        = d.withLocks (flagsOf (Function.update m id s)) := by
      rw [flagsOf_update]
      rfl
    rw [hset] at hperforms
    refine ⟨?_, fun id' => ?_⟩
    · cases a with
      | lock id' =>
        obtain ⟨rfl, rfl, hanswer⟩ := Monitor.Kind.operation.inj hkind
        obtain rfl := eq_of_heq hanswer
        exact hperforms
      | tryLock id' =>
        obtain ⟨rfl, rfl, hanswer⟩ := Monitor.Kind.operation.inj hkind
        obtain rfl := eq_of_heq hanswer
        exact hperforms
      | unlock id' =>
        obtain ⟨rfl, rfl, hanswer⟩ := Monitor.Kind.operation.inj hkind
        obtain rfl := eq_of_heq hanswer
        exact hperforms
      | _ => cases hkind
    · by_cases heq : id' = id
      · subst heq
        rw [Function.update_self]
        exact (InMemoryLock.turn_eq_done (hm id') hturn).1
      · rw [Function.update_of_ne heq]
        exact hm id'

/-- Runs over atomic operations are runs over flags. -/
theorem run_flags {x y : Config C RepoAction RepoAction.Resp (Monitored.Shared Stores String InMemoryLock) Λ}
    (hx : ∀ id, (x.shared.monitors id).poisoned = false) (hrun : (clients start).atomic.Run x y) :
    (flags start).Run ⟨x.shared.data.withLocks (flagsOf x.shared.monitors), x.prog⟩
        ⟨y.shared.data.withLocks (flagsOf y.shared.monitors), y.prog⟩
      ∧ ∀ id, (y.shared.monitors id).poisoned = false := by
  induction hrun with
  | refl => exact ⟨.refl, hx⟩
  | tail _ hstep ih =>
    obtain ⟨hflags, hy⟩ := ih
    cases hstep with
    | act c a k r s' hprog hsem =>
      obtain ⟨hsem, hy'⟩ := sem_of_atomicSem hy hsem
      exact ⟨hflags.tail (.act c a k r _ hprog hsem), hy'⟩
    | start c l p hprog hstart => exact ⟨hflags.tail (.start c l p hprog hstart), hy⟩

omit [DecidableEq C] in
theorem wakes (start : C → Λ → RepoProg Λ → Prop) :
    (clients start).monitor.Wakes (fun s => s.poisoned = false) (fun s => s.locked = true) :=
  InMemoryLock.wakes

theorem inv_of_run {d : Stores} {prog : C → RepoProg Λ} {x : State C Λ}
    (hrun : (clients start).Run (.initial C d prog) x) :
    Monitored.Inv (clients start) (fun s => s.poisoned = false) (fun s => s.locked = true) x :=
  (Monitored.Inv.initial d prog).run (wakes start) rfl hrun

theorem run_config {d : Stores} {prog : C → RepoProg Λ} {x : State C Λ}
    (hrun : (clients start).Run (.initial C d prog) x) :
    (flags start).Run ⟨d.withLocks (fun _ => false), prog⟩ (config x)
      ∧ ∀ id, (x.monitors InMemoryLock.new id).poisoned = false :=
  run_flags (fun _ => rfl) (Monitored.run_atomic (wakes start) rfl hrun)

/-- **The locks refine the flags**, for clients of any programs: whatever the clients have
done over the locks of a new manager, in any interleaving of their turns, look-ups and
wake-ups, they could have done where taking a lock is one action on a flag. And the clients
that looked up one id, and only they, have the handle of one lock. -/
theorem refines_flags {d : Stores} {prog : C → RepoProg Λ} {x : State C Λ}
    (hrun : (clients start).Run (.initial C d prog) x) :
    (flags start).Run ⟨d.withLocks (fun _ => false), prog⟩ (config x)
      ∧ ∀ c c' id id' h h', x.handles c id = some h → x.handles c' id' = some h' →
        (h = h' ↔ id = id') := by
  have hI := inv_of_run hrun
  refine ⟨(run_config hrun).1, fun c c' id id' h h' hh hh' => ⟨fun heq => ?_, fun heq => ?_⟩⟩
  · subst heq
    exact hI.table_inj (hI.handles hh) (hI.handles hh')
  · subst heq
    exact Option.some.inj ((hI.handles hh).symm.trans (hI.handles hh'))

end Refinement

/-! ### A run -/

/-- One client that takes the lock of an id and releases it, and one that takes it. -/
def twoClients : Bool → Op Unit
  | true => (QueuedRepository.acquire "todo-1").andThen (fun _ => QueuedRepository.release "todo-1")
  | false => QueuedRepository.acquire "todo-1"

/-- Two stores with nothing in them. -/
def noStores : Stores := ⟨EventStore.new, SnapshotStore.new⟩

/-- Clients that start nothing more. -/
abbrev startsNothing : Bool → RepoRes Unit → Op Unit → Prop := fun _ _ _ => False

/-- A client sleeps while another has the lock, and is woken. -/
theorem exists_run_woken : ∃ x y : State Bool (RepoRes Unit),
    (clients startsNothing).Run (.initial Bool noStores twoClients) x
      ∧ x.phase false = .asleep (0, .lock)
      ∧ (clients startsNothing).Run (.initial Bool noStores twoClients) y
      ∧ y.phase false = .woken (0, .lock) ∧ locked y "todo-1" = false
      ∧ ∃ k, y.prog false = .act (.lock "todo-1") k := by
  have h₁ := (Relation.ReflTransGen.refl (r := (clients startsNothing).Step)).tail
    (.create true "todo-1" (x := .initial Bool noStores twoClients) rfl)
  have h₂ := h₁.tail (.done true (.lock "todo-1") _ "todo-1" .lock (fun r => r) 0 _ _ _ rfl rfl
    (Or.inl ⟨rfl, rfl⟩) rfl rfl)
  have h₃ := h₂.tail (.lookup false "todo-1" 0 rfl)
  have h₄ := h₃.tail (.sleep false (.lock "todo-1") _ "todo-1" .lock (fun r => r) 0 _ rfl rfl
    (Or.inl ⟨rfl, rfl⟩) rfl rfl)
  have h₅ := h₄.tail (.notify true (.unlock "todo-1") _ "todo-1" .unlock (fun r => r) 0 _ _ _
    (fun c => if c then .outside else .woken (0, .lock)) rfl rfl (Or.inl ⟨rfl, rfl⟩) rfl rfl
    ⟨fun c => ?_, fun c o _ => ⟨false, .lock, rfl, rfl⟩⟩)
  · exact ⟨_, _, h₄, rfl, h₅, rfl, rfl, _, rfl⟩
  · cases c with
    | true => exact Or.inl rfl
    | false => exact Or.inr ⟨.lock, rfl, rfl⟩

/-- **The refinement is about something**: what the two clients did over one lock, in whose
monitor one of them slept. -/
theorem refines_flags_woken : ∃ x : State Bool (RepoRes Unit),
    x.phase false = .woken (0, .lock)
      ∧ (flags startsNothing).Run ⟨noStores.withLocks (fun _ => false), twoClients⟩ (config x) := by
  obtain ⟨-, x, -, -, hrun, hwoken, -⟩ := exists_run_woken
  exact ⟨x, hwoken, (refines_flags hrun).1⟩

section Waiting

variable [DecidableEq C]

/-! ## Waiting -/

omit [DecidableEq C] in
theorem atomicSem_of_does {c : C} {d : Stores} {m : String → InMemoryLock} {id : String} {o : LockOp}
    {f : o.Resp → a.Resp} {r : o.Resp} {locked notify : Bool} (hm : ∀ id, (m id).poisoned = false)
    (hkind : kind a = .operation id o f)
    (hdoes : InMemoryLock.Does ⟨o, r⟩ (m id).locked locked notify) :
    ∃ t, (clients start).AtomicSem c a ⟨d, m⟩ (f r) t :=
  ⟨_, .operation hkind (InMemoryLock.turn_of_does (hm id) hdoes)⟩

omit [DecidableEq C] in
/-- **An action on a flag is an operation on the lock**, or an action on the stores. -/
theorem atomicSem_of_sem {c : C} {d : Stores} {m : String → InMemoryLock} {r : a.Resp} {s : Shared}
    (hm : ∀ id, (m id).poisoned = false) (h : a.Sem (d.withLocks (flagsOf m)) r s) :
    ∃ t, (clients start).AtomicSem c a ⟨d, m⟩ r t := by
  cases a with
  | lock id =>
    obtain ⟨hfree, rfl, -⟩ := RepoAction.sem_lock.mp h
    change (m id).locked = false at hfree
    have hdoes : InMemoryLock.Does ⟨.lock, .ok ()⟩ (m id).locked true false := hfree ▸ .lock
    exact atomicSem_of_does (a := .lock id) (f := fun r => r) hm rfl hdoes
  | tryLock id =>
    cases RepoAction.sem_tryLock.mp h with
    | inl hrefused =>
      obtain ⟨htaken, rfl, -⟩ := hrefused
      change (m id).locked = true at htaken
      have hdoes : InMemoryLock.Does ⟨.tryLock, .ok false⟩ (m id).locked true false :=
        htaken ▸ .refused
      exact atomicSem_of_does (a := .tryLock id) (f := fun r => r) hm rfl hdoes
    | inr hdone =>
      obtain ⟨hfree, rfl, -⟩ := hdone
      change (m id).locked = false at hfree
      have hdoes : InMemoryLock.Does ⟨.tryLock, .ok true⟩ (m id).locked true false :=
        hfree ▸ .tryLock
      exact atomicSem_of_does (a := .tryLock id) (f := fun r => r) hm rfl hdoes
  | unlock id =>
    obtain ⟨rfl, -⟩ := RepoAction.sem_unlock.mp h
    exact atomicSem_of_does (a := .unlock id) (f := fun r => r) hm rfl
      (InMemoryLock.Does.unlock (m id).locked)
  | _ =>
    obtain ⟨d', hdata⟩ := storeSem_of_sem rfl h
    exact ⟨_, .data rfl hdata⟩

/-- A client that can go on over flags, and who is not asleep over locks. -/
theorem exists_awake {d : Stores} {prog : C → RepoProg Λ} {x : State C Λ}
    (hrun : (clients start).Run (.initial C d prog) x) {c : C} {k : a.Resp → RepoProg Λ}
    (hprog : x.prog c = .act a k) {r : a.Resp} {s : Shared} (hsem : a.Sem (config x).shared r s) :
    ∃ d a' k', x.prog d = .act a' k' ∧ ∀ w, x.phase d ≠ .asleep w := by
  have hI := inv_of_run hrun
  obtain ⟨t, hatomic⟩ : ∃ t, (clients start).AtomicSem c a ((clients start).coarse x).shared r t :=
    atomicSem_of_sem (run_config hrun).2 hsem
  refine hI.awake_of_enabled (fun {o s'} hs' hlocked hcan => ?_) hprog hatomic
  -- only `lock` waits
  obtain ⟨s₁, hs₁, hturn₁⟩ := hcan
  exact (InMemoryLock.turn_eq_sleep hs').mpr ⟨((InMemoryLock.turn_eq_sleep hs₁).mp hturn₁).1, hlocked⟩

/-- **Whoever sleeps has reason to**: as long as some client could perform its next action
over the flags as they are, not all clients that are in the middle of a call are asleep; and
a client that sleeps does so in `lock`, on the lock of the id it asked for. -/
theorem not_all_asleep {d : Stores} {prog : C → RepoProg Λ} {x : State C Λ}
    (hrun : (clients start).Run (.initial C d prog) x) :
    (∀ c (a : RepoAction) k r s, x.prog c = .act a k → a.Sem (config x).shared r s →
        ∃ d a' k', x.prog d = .act a' k' ∧ ∀ w, x.phase d ≠ .asleep w)
      ∧ ∀ c h o, x.phase c = .asleep (h, o) →
        ∃ id k, x.prog c = .act (.lock id) k ∧ x.table id = some h := by
  refine ⟨fun c a k r s hprog hsem => exists_awake hrun hprog hsem, fun c h o hc => ?_⟩
  have hI := inv_of_run hrun
  have hwaits := hI.waits c
  rw [hc] at hwaits
  obtain ⟨a, k, id, f, hprog, hkind, hid⟩ := hwaits
  obtain ⟨s, hheap⟩ : ∃ s, x.heap[h]? = some s := ⟨_, List.getElem?_eq_getElem (hI.table_lt hid)⟩
  have hcan := (hI.awake hheap).waits c o (Or.inl (by simp [hc]))
  obtain ⟨s₁, hs₁, hturn₁⟩ := hcan
  obtain rfl : o = .lock := ((InMemoryLock.turn_eq_sleep hs₁).mp hturn₁).1
  cases a with
  | lock id' =>
    obtain ⟨rfl, -, -⟩ := Monitor.Kind.operation.inj hkind
    exact ⟨id', k, hprog, hid⟩
  | _ => cases hkind

end Waiting

/-- **It is about something**: a client sleeps on the lock that another has; and once that is
released, the sleeper has been woken. -/
theorem not_all_asleep_woken : ∃ x y : State Bool (RepoRes Unit),
    (clients startsNothing).Run (.initial Bool noStores twoClients) x
      ∧ x.phase false = .asleep (0, .lock)
      ∧ (∃ id k, x.prog false = .act (.lock id) k ∧ x.table id = some 0)
      ∧ (clients startsNothing).Run (.initial Bool noStores twoClients) y
      ∧ y.phase false = .woken (0, .lock)
      ∧ ∃ (d : Bool) (a : RepoAction) (k : a.Resp → Op Unit),
        y.prog d = .act a k ∧ ∀ w, y.phase d ≠ .asleep w := by
  obtain ⟨x, y, hx, hasleep, hy, hwoken, hfree, k, hprog⟩ := exists_run_woken
  exact ⟨x, y, hx, hasleep, (not_all_asleep hx).2 _ _ _ hasleep, hy, hwoken,
    (not_all_asleep hy).1 _ _ _ _ _ hprog (RepoAction.sem_lock.mpr ⟨hfree, rfl, rfl⟩)⟩

end InMemoryLockManager
