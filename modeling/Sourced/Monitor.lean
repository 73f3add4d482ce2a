import Mathlib.Logic.Function.Basic
import Mathlib.Logic.Relation
import Mathlib.Data.List.Basic

/-!
# Monitors

A state behind a mutex, with one condition variable. An operation takes the mutex for
a *turn*. In its turn it either finds that it has to wait, and goes to sleep, which
gives up the mutex, or it changes the state and is done. It may then notify the
variable, which wakes at least one of the sleepers, if there are any. A sleeper may
also wake by itself. Whoever is woken takes the mutex for another turn, when it comes
to it, and others may come first.

The operations that are done, in their order, are operations performed one after the
other, without any waiting (`Monitor.follows_of_run`).

No waiter is stranded – asleep in a state in which nobody would have to wait, with none
woken – if three things are seen to (`Monitor.Wakes`): an operation sleeps only in
states that block; an operation that can sleep and leaves the state unblocked notifies;
and so does one that finds it blocked and leaves it unblocked. Then this holds of all
states that can be reached (`Monitor.woken_of_run`).
-/

/-- **What an operation does in its turn.** -/
inductive Monitor.Turn (S R : Type) where
  /-- It waits. -/
  | sleep
  /-- It leaves a state, notifies or not, and answers. -/
  | done (s : S) (notify : Bool) (r : R)

/-- **The operations of a monitor**: what each does in a turn. -/
structure Monitor (S O : Type) (R : O → Type) where
  turn : (o : O) → S → Monitor.Turn S (R o)

/-- Where a thread is: outside, or in an operation, asleep or woken. -/
inductive Monitor.Phase (O : Type) where
  | outside
  | asleep (o : O)
  | woken (o : O)

namespace Monitor

variable {S O ι : Type} {R : O → Type}

/-- **A state of a monitor and its threads**, and the operations that are done, with their
answers. -/
structure State (S O : Type) (R : O → Type) (ι : Type) where
  shared : S
  phase : ι → Phase O
  completed : List (Σ o, R o)

/-- All threads outside. -/
def State.initial (s : S) : State S O R ι := ⟨s, fun _ => .outside, []⟩

/-- **A notification**: some sleepers are woken, at least one if there is one. -/
structure Notifies (phase phase' : ι → Phase O) : Prop where
  wakes : ∀ t, phase' t = phase t ∨ ∃ o, phase t = .asleep o ∧ phase' t = .woken o
  one : ∀ t o, phase t = .asleep o → ∃ t' o', phase t' = .asleep o' ∧ phase' t' = .woken o'

variable [DecidableEq ι]

theorem Notifies.single {phase : ι → Phase O} {t : ι} {o : O} (h : phase t = .asleep o) :
    Notifies phase (Function.update phase t (.woken o)) := by
  refine ⟨fun t' => ?_, fun _ _ _ => ⟨t, o, h, Function.update_self _ _ _⟩⟩
  by_cases heq : t' = t
  · subst heq
    exact Or.inr ⟨o, h, Function.update_self _ _ _⟩
  · exact Or.inl (Function.update_of_ne heq _ _)

variable (M : Monitor S O R)

/-- **One step of one thread.** A turn is that of a call from outside or of a thread that
was woken. -/
inductive Step : State S O R ι → State S O R ι → Prop
  | sleep {x : State S O R ι} (t : ι) (o : O) (ht : x.phase t = .outside ∨ x.phase t = .woken o)
      (hturn : M.turn o x.shared = .sleep) :
      Step x { x with phase := Function.update x.phase t (.asleep o) }
  | done {x : State S O R ι} (t : ι) (o : O) (s : S) (r : R o)
      (ht : x.phase t = .outside ∨ x.phase t = .woken o)
      (hturn : M.turn o x.shared = .done s false r) :
      Step x ⟨s, Function.update x.phase t .outside, x.completed ++ [⟨o, r⟩]⟩
  | notify {x : State S O R ι} (t : ι) (o : O) (s : S) (r : R o) (phase : ι → Phase O)
      (ht : x.phase t = .outside ∨ x.phase t = .woken o)
      (hturn : M.turn o x.shared = .done s true r)
      (hnotify : Notifies (Function.update x.phase t .outside) phase) :
      Step x ⟨s, phase, x.completed ++ [⟨o, r⟩]⟩
  /-- A sleeper wakes by itself. -/
  | spurious {x : State S O R ι} (t : ι) (o : O) (ht : x.phase t = .asleep o) :
      Step x { x with phase := Function.update x.phase t (.woken o) }

/-- Any number of steps, of any threads in any order. -/
def Run : State S O R ι → State S O R ι → Prop := Relation.ReflTransGen (Step M)

/-! ## What is done -/

/-- **Operations performed one after the other**, from a state, and the state they leave. -/
inductive Follows (s₀ : S) : List (Σ o, R o) → S → Prop
  | nil : Follows s₀ [] s₀
  | concat {l : List (Σ o, R o)} {s s' : S} {o : O} {notify : Bool} {r : R o} (h : Follows s₀ l s)
      (hturn : M.turn o s = .done s' notify r) : Follows s₀ (l ++ [⟨o, r⟩]) s'

variable {M} {x y : State S O R ι} {s₀ : S}

theorem Follows.step (h : Follows M s₀ x.completed x.shared) (hstep : Step M x y) :
    Follows M s₀ y.completed y.shared := by
  cases hstep with
  | sleep t o ht hturn => exact h
  | done t o s r ht hturn => exact h.concat hturn
  | notify t o s r phase ht hturn hnotify => exact h.concat hturn
  | spurious t o ht => exact h

/-- **The operations that are done** have been performed one after the other. -/
theorem follows_of_run (h : Run M (.initial s₀) x) : Follows M s₀ x.completed x.shared := by
  induction h with
  | refl => exact .nil
  | tail _ hstep ih => exact ih.step hstep

/-! ## Waiters -/

variable {I Blocked : S → Prop}

/-- An operation that may have to wait. -/
def CanSleep (M : Monitor S O R) (I : S → Prop) (o : O) : Prop := ∃ s, I s ∧ M.turn o s = .sleep

/-- **The discipline of a monitor**, on the states of an invariant: who sleeps is blocked,
and who leaves the state unblocked notifies, unless it found it so and never sleeps. -/
structure Wakes (M : Monitor S O R) (I Blocked : S → Prop) : Prop where
  keeps : ∀ {o s s' notify r}, I s → M.turn o s = .done s' notify r → I s'
  blocked : ∀ {o s}, I s → M.turn o s = .sleep → Blocked s
  notifies : ∀ {o s s' r}, I s → M.turn o s = .done s' false r →
    Blocked s' ∨ ¬ Blocked s ∧ ¬ M.CanSleep I o

/-- **No waiter is stranded**: if the state does not block, and a thread sleeps, another is
woken. And who is in the monitor is in an operation that may have to wait. -/
structure Awake (M : Monitor S O R) (I Blocked : S → Prop) (x : State S O R ι) : Prop where
  inv : I x.shared
  waits : ∀ t o, x.phase t = .asleep o ∨ x.phase t = .woken o → M.CanSleep I o
  woken : ¬ Blocked x.shared → ∀ t o, x.phase t = .asleep o → ∃ t' o', x.phase t' = .woken o'

namespace Awake

omit [DecidableEq ι] in
theorem initial (hs : I s₀) : Awake M I Blocked (State.initial s₀ : State S O R ι) := by
  refine ⟨hs, fun t o ht => ?_, fun _ t o ht => ?_⟩
  · cases ht with
    | inl ht => cases ht
    | inr ht => cases ht
  · cases ht

/-- **A step strands no waiter.** -/
theorem step (hM : M.Wakes I Blocked) (h : Awake M I Blocked x) (hstep : Step M x y) :
    Awake M I Blocked y := by
  cases hstep with
  | sleep t o ht hturn =>
    refine ⟨h.inv, fun t' o' ht' => ?_, fun hfree => absurd (hM.blocked h.inv hturn) hfree⟩
    by_cases heq : t' = t
    · subst heq
      simp only [Function.update_self, Phase.asleep.injEq, reduceCtorEq, or_false] at ht'
      exact ht' ▸ ⟨x.shared, h.inv, hturn⟩
    · simp only [Function.update_of_ne heq] at ht'
      exact h.waits t' o' ht'
  | done t o s r ht hturn =>
    refine ⟨hM.keeps h.inv hturn, fun t' o' ht' => ?_, fun hfree t' o' ht' => ?_⟩
    · by_cases heq : t' = t
      · subst heq
        simp at ht'
      · simp only [Function.update_of_ne heq] at ht'
        exact h.waits t' o' ht'
    · -- the state was unblocked before, and whoever was woken still is
      obtain ⟨hfree', hnever⟩ := (hM.notifies h.inv hturn).resolve_left hfree
      have hout : x.phase t = .outside := ht.resolve_right (fun hw => hnever (h.waits t o (Or.inr hw)))
      have hne : t' ≠ t := fun heq => by simp [heq] at ht'
      simp only [Function.update_of_ne hne] at ht'
      obtain ⟨u, p, hu⟩ := h.woken hfree' t' o' ht'
      have hne' : u ≠ t := fun heq => by simp [heq, hout] at hu
      exact ⟨u, p, by simpa [hne'] using hu⟩
  | notify t o s r phase ht hturn hnotify =>
    -- a thread in the monitor was in it before
    have hbefore : ∀ t' o', phase t' = .asleep o' ∨ phase t' = .woken o' →
        Function.update x.phase t .outside t' = .asleep o'
          ∨ Function.update x.phase t .outside t' = .woken o' := by
      intro t' o' ht'
      cases hnotify.wakes t' with
      | inl hsame => exact hsame ▸ ht'
      | inr hwoken =>
        obtain ⟨p, hasleep, hwoken⟩ := hwoken
        rw [hwoken] at ht'
        simp only [reduceCtorEq, Phase.woken.injEq, false_or] at ht'
        exact Or.inl (ht' ▸ hasleep)
    refine ⟨hM.keeps h.inv hturn, fun t' o' ht' => ?_, fun _ t' o' ht' => ?_⟩
    · have hin := hbefore t' o' ht'
      by_cases heq : t' = t
      · subst heq
        simp at hin
      · simp only [Function.update_of_ne heq] at hin
        exact h.waits t' o' hin
    · cases hnotify.wakes t' with
      | inl hsame =>
        obtain ⟨u, p, -, hu⟩ := hnotify.one t' o' (hsame ▸ ht')
        exact ⟨u, p, hu⟩
      | inr hwoken =>
        obtain ⟨p, -, hwoken⟩ := hwoken
        exact ⟨t', p, hwoken⟩
  | spurious t o ht =>
    refine ⟨h.inv, fun t' o' ht' => ?_, fun _ _ _ _ => ⟨t, o, Function.update_self _ _ _⟩⟩
    by_cases heq : t' = t
    · subst heq
      simp only [Function.update_self, reduceCtorEq, Phase.woken.injEq, false_or] at ht'
      exact ht' ▸ h.waits t' o (Or.inl ht)
    · simp only [Function.update_of_ne heq] at ht'
      exact h.waits t' o' ht'

theorem run (hM : M.Wakes I Blocked) (h : Awake M I Blocked x) (hrun : Run M x y) :
    Awake M I Blocked y := by
  induction hrun with
  | refl => exact h
  | tail _ hstep ih => exact ih.step hM hstep

end Awake

/-- **In a monitor of this discipline no waiter is stranded**, in any state that is reached. -/
theorem woken_of_run (hM : M.Wakes I Blocked) (hs : I s₀) (h : Run M (.initial s₀) x)
    (hfree : ¬ Blocked x.shared) (hasleep : ∃ t o, x.phase t = .asleep o) :
    ∃ t o, x.phase t = .woken o ∧ M.CanSleep I o := by
  obtain ⟨t, o, ht⟩ := hasleep
  have hawake := Awake.run hM (.initial hs) h
  obtain ⟨u, p, hu⟩ := hawake.woken hfree t o ht
  exact ⟨u, p, hu, hawake.waits u p (Or.inr hu)⟩

end Monitor
