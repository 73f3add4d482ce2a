import Sourced.Monitor
import Sourced.Repository

/-!
# The in-memory lock

`InMemoryLock` (`lock/in_memory.rs`) is a flag behind a mutex, with a condition variable.
`lock` waits while the flag is set; `unlock` notifies one waiter, and only if the flag
was set. A thread that comes between the notification and the waiter may take the lock
first, and the waiter sleeps again.

As a monitor, the lock strands no waiter, and its flag is set exactly where a lock was
taken since the last unlock (`InMemoryLock.no_stranded_waiter`). The operations that
are done, in their order, are the actions on the lock of an id that the repositories
perform (`InMemoryLock.performs_of_run`).

An operation of a thread that panics in its turn would poison the mutex. None does, but
what the operations answer then is here as well.
-/

/-- `Mutex<bool>`: the flag, and whether the mutex is poisoned. -/
structure InMemoryLock where
  locked : Bool
  poisoned : Bool
deriving DecidableEq

/-- The operations of `Lock`. -/
inductive LockOp where
  | lock
  | tryLock
  | unlock
deriving DecidableEq

/-- What they answer. -/
@[reducible] def LockOp.Resp : LockOp → Type
  | .lock => Except LockError Unit
  | .tryLock => Except LockError Bool
  | .unlock => Except LockError Unit

namespace InMemoryLock

/-- `InMemoryLock::new`. -/
def new : InMemoryLock := ⟨false, false⟩

/-- The error of a poisoned mutex, as text. -/
def poisonError : LockError := .poisoned "poisoned lock: another task failed inside"

/-- A turn of **`lock`**: from the test of the flag to the next, or to the end. -/
def lock (s : InMemoryLock) : Monitor.Turn InMemoryLock (Except LockError Unit) :=
  if s.poisoned then .done s false (.error poisonError)
  else if s.locked then .sleep
  else .done { s with locked := true } false (.ok ())

/-- **`try_lock`.** -/
def tryLock (s : InMemoryLock) : Monitor.Turn InMemoryLock (Except LockError Bool) :=
  if s.poisoned then .done s false (.error poisonError)
  else if s.locked then .done s false (.ok false)
  else .done { s with locked := true } false (.ok true)

/-- **`unlock`.** -/
def unlock (s : InMemoryLock) : Monitor.Turn InMemoryLock (Except LockError Unit) :=
  if s.poisoned then .done s false (.error poisonError)
  else if s.locked then .done { s with locked := false } true (.ok ())
  else .done s false (.ok ())

/-- **The lock as a monitor.** -/
def monitor : Monitor InMemoryLock LockOp LockOp.Resp where
  turn
    | .lock => lock
    | .tryLock => tryLock
    | .unlock => unlock

/-! ## What one turn does -/

variable {s s' : InMemoryLock} {notify : Bool}

theorem turn_eq_sleep {o : LockOp} (hs : s.poisoned = false) :
    monitor.turn o s = .sleep ↔ o = .lock ∧ s.locked = true := by
  obtain ⟨locked, poisoned⟩ := s
  subst hs
  cases o <;> cases locked <;> simp [monitor, lock, tryLock, unlock]

/-- **What an operation that is done does**: its answer, the flag before and after, and
whether it notifies. -/
inductive Does : (Σ o : LockOp, o.Resp) → Bool → Bool → Bool → Prop
  | lock : Does ⟨.lock, .ok ()⟩ false true false
  | tryLock : Does ⟨.tryLock, .ok true⟩ false true false
  | refused : Does ⟨.tryLock, .ok false⟩ true true false
  | unlock (locked : Bool) : Does ⟨.unlock, .ok ()⟩ locked false locked

/-- A turn that is done. -/
theorem turn_eq_done {o : LockOp} {r : o.Resp} (hs : s.poisoned = false)
    (h : monitor.turn o s = .done s' notify r) :
    s'.poisoned = false ∧ Does ⟨o, r⟩ s.locked s'.locked notify := by
  obtain ⟨locked, poisoned⟩ := s
  subst hs
  cases o with
  | lock =>
    cases locked with
    | false =>
      obtain ⟨rfl, rfl, rfl⟩ := Monitor.Turn.done.inj h
      exact ⟨rfl, .lock⟩
    | true => cases h
  | tryLock =>
    cases locked with
    | false =>
      obtain ⟨rfl, rfl, rfl⟩ := Monitor.Turn.done.inj h
      exact ⟨rfl, .tryLock⟩
    | true =>
      obtain ⟨rfl, rfl, rfl⟩ := Monitor.Turn.done.inj h
      exact ⟨rfl, .refused⟩
  | unlock =>
    cases locked with
    | false =>
      obtain ⟨rfl, rfl, rfl⟩ := Monitor.Turn.done.inj h
      exact ⟨rfl, .unlock false⟩
    | true =>
      obtain ⟨rfl, rfl, rfl⟩ := Monitor.Turn.done.inj h
      exact ⟨rfl, .unlock true⟩

theorem turn_of_does {o : LockOp} {r : o.Resp} {locked : Bool} (hs : s.poisoned = false)
    (h : Does ⟨o, r⟩ s.locked locked notify) : monitor.turn o s = .done ⟨locked, false⟩ notify r := by
  obtain ⟨before, poisoned⟩ := s
  subst hs
  cases h with
  | lock => rfl
  | tryLock => rfl
  | refused => rfl
  | unlock => cases before <;> rfl

/-- **The lock keeps the discipline of monitors**, where the mutex is not poisoned: who
sleeps finds the flag set, and only `unlock` clears it, which then notifies. -/
theorem wakes : monitor.Wakes (fun s => s.poisoned = false) (fun s => s.locked = true) where
  keeps hs hturn := (turn_eq_done hs hturn).1
  blocked hs hturn := ((turn_eq_sleep hs).mp hturn).2
  notifies := by
    intro o s s' r hs hturn
    obtain ⟨-, hdoes⟩ := turn_eq_done hs hturn
    generalize s.locked = locked at hdoes ⊢
    generalize s'.locked = locked' at hdoes ⊢
    cases hdoes with
    | lock => exact Or.inl rfl
    | tryLock => exact Or.inl rfl
    | refused => exact Or.inl rfl
    | unlock =>
      -- an `unlock` that does not notify found the lock free
      refine Or.inr ⟨Bool.false_ne_true, fun hsleep => ?_⟩
      obtain ⟨s₁, hs₁, hturn₁⟩ := hsleep
      exact absurd ((turn_eq_sleep hs₁).mp hturn₁).1 (by decide)

/-! ## The flag -/

/-- An operation that was done and took the lock. -/
def Takes (e : Σ o : LockOp, o.Resp) : Prop := e = ⟨.lock, .ok ()⟩ ∨ e = ⟨.tryLock, .ok true⟩

/-- A lock taken has not been followed by an unlock. -/
def TakenSince (l : List (Σ o : LockOp, o.Resp)) : Prop :=
  ∃ l₁ e l₂, l = l₁ ++ e :: l₂ ∧ Takes e ∧ ∀ e' ∈ l₂, e'.1 ≠ .unlock

/-- One more operation. -/
theorem takenSince_concat {l : List (Σ o : LockOp, o.Resp)} {e : Σ o : LockOp, o.Resp} :
    TakenSince (l ++ [e]) ↔ Takes e ∨ e.1 ≠ .unlock ∧ TakenSince l := by
  constructor
  · rintro ⟨l₁, e', l₂, hl, htakes, hnot⟩
    cases l₂ using List.reverseRecOn with
    | nil =>
      obtain ⟨-, he⟩ := List.append_inj' hl rfl
      obtain rfl : e = e' := (List.cons.inj he).1
      exact Or.inl htakes
    | append_singleton l₂ e₂ =>
      rw [← List.cons_append, ← List.append_assoc] at hl
      obtain ⟨rfl, he⟩ := List.append_inj' hl rfl
      obtain rfl : e = e₂ := (List.cons.inj he).1
      refine Or.inr ⟨hnot e (by simp), l₁, e', l₂, rfl, htakes, fun e'' he'' => ?_⟩
      exact hnot e'' (List.mem_append_left _ he'')
  · rintro (h | ⟨hne, l₁, e', l₂, rfl, htakes, hnot⟩)
    · exact ⟨l, e, [], rfl, h, by simp⟩
    · refine ⟨l₁, e', l₂ ++ [e], by simp, htakes, fun e'' he'' => ?_⟩
      cases List.mem_append.mp he'' with
      | inl h => exact hnot e'' h
      | inr h => exact List.mem_singleton.mp h ▸ hne

/-- **The flag is set where a lock taken has not been followed by an unlock**, after
operations performed one after the other. -/
theorem locked_iff_of_follows {l : List (Σ o : LockOp, o.Resp)} (h : Monitor.Follows monitor new l s) :
    s.poisoned = false ∧ (s.locked = true ↔ TakenSince l) := by
  induction h with
  | nil => exact ⟨rfl, by simp [new, TakenSince]⟩
  | @concat l s s' o notify r h hturn ih =>
    obtain ⟨hs, hlocked⟩ := ih
    obtain ⟨hs', hdoes⟩ := turn_eq_done hs hturn
    refine ⟨hs', ?_⟩
    rw [takenSince_concat, ← hlocked]
    generalize s.locked = locked at hdoes ⊢
    generalize s'.locked = locked' at hdoes ⊢
    cases hdoes with
    | lock => simp [Takes]
    | tryLock => simp [Takes]
    | refused => simp [Takes]
    | unlock => simp [Takes]

/-! ## The lock of an id -/

/-- An operation that was done, as the action on the lock of an id. -/
def Performs (id : String) (s s' : Shared) : (e : Σ o : LockOp, o.Resp) → Prop
  | ⟨.lock, r⟩ => (RepoAction.lock id).Sem s r s'
  | ⟨.tryLock, r⟩ => (RepoAction.tryLock id).Sem s r s'
  | ⟨.unlock, r⟩ => (RepoAction.unlock id).Sem s r s'

/-- Actions on the lock of an id, one after the other. -/
inductive PerformsAll (id : String) (s₀ : Shared) : List (Σ o : LockOp, o.Resp) → Shared → Prop
  | nil : PerformsAll id s₀ [] s₀
  | concat {l : List (Σ o : LockOp, o.Resp)} {s s' : Shared} {e : Σ o : LockOp, o.Resp}
      (h : PerformsAll id s₀ l s) (he : Performs id s s' e) : PerformsAll id s₀ (l ++ [e]) s'

/-- **A turn is the action on the lock of an id** whose flag is that of the lock. -/
theorem performs_of_turn {o : LockOp} {r : o.Resp} (hs : s.poisoned = false)
    (h : monitor.turn o s = .done s' notify r) (id : String) {t : Shared}
    (ht : t.locked id = s.locked) : Performs id t (t.setLocked id s'.locked) ⟨o, r⟩ := by
  have hself : t.setLocked id (t.locked id) = t := by
    simp [Shared.setLocked]
  obtain ⟨-, hdoes⟩ := turn_eq_done hs h
  generalize s.locked = locked at hdoes ht
  generalize s'.locked = locked' at hdoes ⊢
  cases hdoes with
  | lock => exact RepoAction.sem_lock.mpr ⟨ht, rfl, rfl⟩
  | tryLock => exact RepoAction.sem_tryLock.mpr (Or.inr ⟨ht, rfl, rfl⟩)
  | refused => exact RepoAction.sem_tryLock.mpr (Or.inl ⟨ht, rfl, ht ▸ hself⟩)
  | unlock => exact RepoAction.sem_unlock.mpr ⟨rfl, rfl⟩

variable {ι : Type} [DecidableEq ι]

/-- **What the threads have done** is what the repositories' actions do to the lock of an
id, one after the other, from a state in which it is free. -/
theorem performs_of_run {x : Monitor.State InMemoryLock LockOp LockOp.Resp ι}
    (h : Monitor.Run monitor (.initial new) x) (id : String) {t : Shared} (ht : t.locked id = false) :
    PerformsAll id t x.completed (t.setLocked id x.shared.locked) := by
  have hself : t.setLocked id false = t := by
    rw [← ht]
    simp [Shared.setLocked]
  have hfollows := Monitor.follows_of_run h
  generalize x.completed = l at hfollows
  generalize x.shared = s at hfollows
  induction hfollows with
  | nil => exact hself.symm ▸ .nil
  | @concat l s s' o notify r hbefore hturn ih =>
    have hone := performs_of_turn (locked_iff_of_follows hbefore).1 hturn id
      (t.locked_setLocked_self id s.locked)
    have hset : (t.setLocked id s.locked).setLocked id s'.locked = t.setLocked id s'.locked := by
      simp [Shared.setLocked]
    exact ih.concat (hset ▸ hone)

/-! ## No stranded waiter -/

/-- **No waiter is stranded**, for any number of threads in any interleaving: the flag is
set exactly where a lock that was taken has not been followed by an unlock, and if it is
not set while a thread sleeps in `lock`, a waiter is woken. -/
theorem no_stranded_waiter {x : Monitor.State InMemoryLock LockOp LockOp.Resp ι}
    (h : Monitor.Run monitor (.initial new) x) :
    (x.shared.locked = true ↔ TakenSince x.completed)
      ∧ ¬ (x.shared.locked = false ∧ (∃ t, x.phase t = .asleep .lock)
        ∧ ¬ ∃ t, x.phase t = .woken .lock) := by
  refine ⟨(locked_iff_of_follows (Monitor.follows_of_run h)).2, ?_⟩
  rintro ⟨hfree, ⟨t, ht⟩, hnone⟩
  obtain ⟨u, o, hu, s, hs, hturn⟩ :=
    Monitor.woken_of_run wakes rfl h (by simp [hfree]) ⟨t, .lock, ht⟩
  -- only `lock` waits
  obtain rfl : o = .lock := ((turn_eq_sleep hs).mp hturn).1
  exact hnone ⟨u, hu⟩

/-- **A waiter is overtaken.** Two threads wait for the lock. The first is notified, but a
third takes the lock before it, and it sleeps again; then the second is notified. -/
theorem no_stranded_waiter_overtaken : ∃ x : Monitor.State InMemoryLock LockOp LockOp.Resp ℕ,
    Monitor.Run monitor (.initial new) x
      ∧ x.completed = [⟨.lock, .ok ()⟩, ⟨.unlock, .ok ()⟩, ⟨.tryLock, .ok true⟩, ⟨.unlock, .ok ()⟩]
      ∧ x.phase 1 = .asleep .lock ∧ x.phase 2 = .woken .lock ∧ ¬ TakenSince x.completed
      ∧ ¬ (x.shared.locked = false ∧ (∃ t, x.phase t = .asleep .lock)
        ∧ ¬ ∃ t, x.phase t = .woken .lock) := by
  have h₀ : Monitor.Run monitor
    (.initial new : Monitor.State InMemoryLock LockOp LockOp.Resp ℕ) _ := .refl
  have h₁ := h₀.tail (.done 0 .lock ⟨true, false⟩ (.ok ()) (Or.inl rfl) rfl)
  have h₂ := h₁.tail (.sleep 1 .lock (Or.inl rfl) rfl)
  have h₃ := h₂.tail (.sleep 2 .lock (Or.inl rfl) rfl)
  have h₄ := h₃.tail (.notify 0 .unlock new (.ok ()) _ (Or.inl rfl) rfl
    (.single (t := 1) (o := .lock) rfl))
  have h₅ := h₄.tail (.done 3 .tryLock ⟨true, false⟩ (.ok true) (Or.inl rfl) rfl)
  have h₆ := h₅.tail (.sleep 1 .lock (Or.inr rfl) rfl)
  have h₇ := h₆.tail (.notify 3 .unlock new (.ok ()) _ (Or.inl rfl) rfl
    (.single (t := 2) (o := .lock) rfl))
  have hlaw := no_stranded_waiter h₇
  exact ⟨_, h₇, rfl, rfl, rfl, fun htaken => Bool.false_ne_true (hlaw.1.mpr htaken), hlaw.2⟩

end InMemoryLock
