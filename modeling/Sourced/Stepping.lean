import Mathlib.Computability.StateTransition
import Mathlib.Data.List.Basic

/-!
# Running a transition function

A partial function `step` from states to states is run until it has nothing
more to do. Mathlib has the result of such a run, where there is one
(`StateTransition.eval`); here is when there is one.

A run is deterministic, so a run that comes back to a state it has left never
ends. The converse needs the states that can come next to be finitely many –
the run has nowhere else to go – and then no run that ends takes more steps
than there are of them. `runFor` is the run with a bound on its steps, for
programs that have to be executed.
-/

namespace Stepping

open Relation StateTransition

variable {α β : Type*}

/-- **The run comes back** to a state it has left. -/
def Loops (step : α → Option α) (a : α) : Prop :=
  ∃ b, Reaches step a b ∧ Reaches₁ step b b

/-- The run for at most `fuel` steps; `none` is a run that takes more. -/
def runFor (step : α → Option α) : ℕ → α → Option α
  | fuel, a =>
    match step a with
    | none => some a
    | some a' =>
      match fuel with
      | 0 => none
      | fuel + 1 => runFor step fuel a'

variable {step : α → Option α}

theorem runFor_of_none {a : α} (h : step a = none) (fuel : ℕ) : runFor step fuel a = some a := by
  cases fuel <;> rw [runFor, h]

theorem runFor_zero_of_some {a a' : α} (h : step a = some a') : runFor step 0 a = none := by
  rw [runFor, h]

theorem runFor_succ_of_some {a a' : α} (h : step a = some a') (fuel : ℕ) :
    runFor step (fuel + 1) a = runFor step fuel a' := by
  rw [runFor, h]

/-- A bounded run that ends, ends where the run does. -/
theorem mem_eval_of_runFor {fuel : ℕ} {a b : α} (h : runFor step fuel a = some b) :
    b ∈ eval step a := by
  induction fuel generalizing a with
  | zero =>
    cases hstep : step a with
    | none =>
      rw [runFor_of_none hstep] at h
      obtain rfl := Option.some.inj h
      exact mem_eval.mpr ⟨ReflTransGen.refl, hstep⟩
    | some a' =>
      rw [runFor_zero_of_some hstep] at h
      cases h
  | succ fuel ih =>
    cases hstep : step a with
    | none =>
      rw [runFor_of_none hstep] at h
      obtain rfl := Option.some.inj h
      exact mem_eval.mpr ⟨ReflTransGen.refl, hstep⟩
    | some a' =>
      rw [runFor_succ_of_some hstep] at h
      obtain ⟨hreach, hend⟩ := mem_eval.mp (ih h)
      exact mem_eval.mpr ⟨hreach.head hstep, hend⟩

/-- **A run that ends does not come back**: from every state it passes it goes
on to its end, and no step leads out of there. -/
theorem not_loops_of_dom {a : α} (h : (eval step a).Dom) : ¬ Loops step a := by
  rintro ⟨b, hab, hbb⟩
  obtain ⟨c, hend⟩ := Part.dom_iff_mem.mp h
  rw [reaches_eval hab] at hend
  -- the way round can be taken as often as one likes, so it is taken at the end
  have hround : ∀ c, Reaches step b c → Reaches₁ step c c := by
    intro c hbc
    induction hbc with
    | refl => exact hbb
    | tail _ hstep ih => exact TransGen.tail' (reaches₁_fwd ih hstep) hstep
  exact eval_maximal₁ hend _ (hround _ (mem_eval.mp hend).1)

/-- **A run that does not come back, with finitely many states to go to, ends**,
and within as many steps as there are of them: once a state has been left the
run has one state fewer to go to. -/
theorem isSome_runFor {next : List α} {a : α} (hl : ¬ Loops step a)
    (hnext : ∀ b b', Reaches step a b → step b = some b' → b' ∈ next) {fuel : ℕ}
    (hfuel : next.length ≤ fuel) : (runFor step fuel a).isSome := by
  classical
  induction fuel generalizing next a with
  | zero =>
    cases hstep : step a with
    | none =>
      rw [runFor_of_none hstep]
      rfl
    | some a' =>
      have hmem := hnext a a' ReflTransGen.refl hstep
      rw [List.length_eq_zero_iff.mp (Nat.le_zero.mp hfuel)] at hmem
      cases hmem
  | succ fuel ih =>
    cases hstep : step a with
    | none =>
      rw [runFor_of_none hstep]
      rfl
    | some a' =>
      rw [runFor_succ_of_some hstep]
      have hmem := hnext a a' ReflTransGen.refl hstep
      have hl' : ¬ Loops step a' := by
        rintro ⟨b, hb, hbb⟩
        exact hl ⟨b, hb.head hstep, hbb⟩
      have hnext' : ∀ b b', Reaches step a' b → step b = some b' →
          b' ∈ next.filter (fun b => decide (b ≠ a')) := by
        intro b b' hb hb'
        refine List.mem_filter.mpr ⟨hnext b b' (hb.head hstep) hb', decide_eq_true ?_⟩
        rintro rfl
        -- the run is back where the first step took it
        exact hl ⟨b', ReflTransGen.single hstep, TransGen.tail' hb hb'⟩
      have hlt : (next.filter (fun b => decide (b ≠ a'))).length < next.length :=
        List.length_filter_lt_length_iff_exists.mpr ⟨a', hmem, by simp⟩
      exact ih hl' hnext' (by omega)

/-- **A run ends exactly where it does not come back**, and then within as many
steps as there are states to go to. -/
theorem isSome_runFor_iff {next : List α} (hnext : ∀ b b', step b = some b' → b' ∈ next) {fuel : ℕ}
    (hfuel : next.length ≤ fuel) (a : α) : (runFor step fuel a).isSome ↔ ¬ Loops step a := by
  constructor
  · intro h
    obtain ⟨b, hb⟩ := Option.isSome_iff_exists.mp h
    exact not_loops_of_dom (Part.dom_iff_mem.mpr ⟨b, mem_eval_of_runFor hb⟩)
  · intro h
    exact isSome_runFor h (fun b b' _ => hnext b b') hfuel

/-! ## What the run depends on

Where the next step is decided by a part of the state, so is the whole run. -/

variable {next : β → Option β} {key : α → β}

/-- A step is a step of the part that decides it. -/
theorem respects (h : ∀ a, (step a).map key = next (key a)) :
    Respects step next (fun a b => key a = b) := by
  rintro a b rfl
  have hstep := h a
  cases hs : step a with
  | none =>
    rw [hs] at hstep
    exact hstep.symm
  | some a' =>
    rw [hs] at hstep
    exact ⟨key a', rfl, TransGen.single hstep.symm⟩

/-- A bounded run is one of the part that decides it. -/
theorem map_runFor (h : ∀ a, (step a).map key = next (key a)) (fuel : ℕ) (a : α) :
    (runFor step fuel a).map key = runFor next fuel (key a) := by
  induction fuel generalizing a with
  | zero =>
    have hstep := h a
    cases hs : step a with
    | none =>
      rw [hs] at hstep
      rw [runFor_of_none hs, runFor_of_none hstep.symm]
      rfl
    | some a' =>
      rw [hs] at hstep
      rw [runFor_zero_of_some hs, runFor_zero_of_some hstep.symm]
      rfl
  | succ fuel ih =>
    have hstep := h a
    cases hs : step a with
    | none =>
      rw [hs] at hstep
      rw [runFor_of_none hs, runFor_of_none hstep.symm]
      rfl
    | some a' =>
      rw [hs] at hstep
      rw [runFor_succ_of_some hs, runFor_succ_of_some hstep.symm]
      exact ih a'

/-! ## Runs that go up -/

/-- **A run every step of which goes up does not come back.** -/
theorem not_loops_of_lt {γ : Type*} [Preorder γ] (height : α → γ)
    (h : ∀ a a', step a = some a' → height a < height a') (a : α) : ¬ Loops step a := by
  rintro ⟨b, -, hbb⟩
  have hup : ∀ c, Reaches₁ step b c → height b < height c := by
    intro c hc
    induction hc with
    | single hstep => exact h _ _ hstep
    | tail _ hstep ih => exact ih.trans (h _ _ hstep)
  exact lt_irrefl _ (hup b hbb)

end Stepping
