import Mathlib.Logic.Function.Basic
import Mathlib.Data.List.Basic

/-!
# Programs over atomic actions

A call on shared state is a sequence of atomic actions – take a lock, read
under a lock, write under a lock – with ordinary code between them. What
other threads can see of it is the actions, and what they can do to it is
change the state between two of them.

`Prog A R α` is that and nothing more: either the call has returned its
result, or it performs an action and goes on with the action's response.
The same program is then read in three ways: run alone on a state
(`Prog.run`), run by one client among others (`Sourced.Interleaving`), and
together with the list of what it performed (`Prog.traced`).

How a call ends is a `Res`: it returns a value, returns an error, panics, or
never returns. A call that waits for a lock for ever has no result at all,
and is a program whose next action cannot be taken.
-/

/-- **How a call can fail to return a value**: it returns an error, it
panics, or it loops without performing any action. -/
inductive Fault (ε : Type) where
  | err (e : ε)
  | panic
  | diverge
deriving DecidableEq, Repr

/-- The outcome of a call whose source type is `Result<α, ε>`. -/
abbrev Res (ε α : Type) := Except (Fault ε) α

namespace Res

variable {ε δ α : Type}

/-- Convert the error of a call, as `map_err` does; a panic stays a panic. -/
def mapErr (f : ε → δ) : Res ε α → Res δ α
  | .ok x => .ok x
  | .error (.err e) => .error (.err (f e))
  | .error .panic => .error .panic
  | .error .diverge => .error .diverge

@[simp] theorem mapErr_eq_ok {f : ε → δ} {x : Res ε α} {y : α} :
    x.mapErr f = .ok y ↔ x = .ok y := by
  rcases x with ((e | _ | _) | x) <;> simp [mapErr]

@[simp] theorem mapErr_eq_err {f : ε → δ} {x : Res ε α} {e : δ} :
    x.mapErr f = .error (.err e) ↔ ∃ e', f e' = e ∧ x = .error (.err e') := by
  rcases x with ((e | _ | _) | x) <;> simp [mapErr]

@[simp] theorem mapErr_eq_panic {f : ε → δ} {x : Res ε α} :
    x.mapErr f = .error .panic ↔ x = .error .panic := by
  rcases x with ((e | _ | _) | x) <;> simp [mapErr]

@[simp] theorem mapErr_eq_diverge {f : ε → δ} {x : Res ε α} :
    x.mapErr f = .error .diverge ↔ x = .error .diverge := by
  rcases x with ((e | _ | _) | x) <;> simp [mapErr]

variable {β : Type}

@[simp] theorem map_eq_ok {g : α → β} {x : Res ε α} {y : β} :
    x.map g = .ok y ↔ ∃ a, x = .ok a ∧ g a = y := by
  cases x <;> simp [Except.map]

@[simp] theorem map_eq_error {g : α → β} {x : Res ε α} {f : Fault ε} :
    x.map g = .error f ↔ x = .error f := by
  cases x <;> simp [Except.map]

/-- A loop over a list that collects what each turn contributes, to the first
failure. -/
def collect (g : α → Res ε (List β)) : List α → Res ε (List β)
  | [] => .ok []
  | x :: xs =>
    match g x with
    | .error e => .error e
    | .ok ys => (collect g xs).map (fun zs => ys ++ zs)

/-- **What a loop collected** is what its turns contributed, none of which
failed. -/
theorem mem_of_collect_eq_ok {g : α → Res ε (List β)} {xs : List α} {ys : List β}
    (h : collect g xs = .ok ys) :
    (∀ x ∈ xs, ∃ zs, g x = .ok zs) ∧ ∀ y, y ∈ ys ↔ ∃ x ∈ xs, ∃ zs, g x = .ok zs ∧ y ∈ zs := by
  induction xs generalizing ys with
  | nil =>
    obtain rfl : [] = ys := Except.ok.inj h
    exact ⟨fun x hx => absurd hx List.not_mem_nil, by simp⟩
  | cons x xs ih =>
    rw [collect] at h
    cases hx : g x with
    | error e => rw [hx] at h; cases h
    | ok zs =>
      rw [hx] at h
      cases hxs : collect g xs with
      | error e => rw [hxs] at h; cases h
      | ok zs' =>
        rw [hxs] at h
        obtain rfl : zs ++ zs' = ys := Except.ok.inj h
        obtain ⟨hall, hmem⟩ := ih hxs
        refine ⟨List.forall_mem_cons.mpr ⟨⟨zs, hx⟩, hall⟩, fun y => ?_⟩
        rw [List.mem_append, hmem]
        simp [hx]

/-- A loop none of whose turns fails collects what they contribute, in their order. -/
theorem exists_collect_eq_ok {γ : Type} {g : α → Res ε (List β)} {k : β → γ} {f : α → List γ}
    {xs : List α} (h : ∀ x ∈ xs, ∃ ys, g x = .ok ys ∧ ys.map k = f x) :
    ∃ ys, collect g xs = .ok ys ∧ ys.map k = xs.flatMap f := by
  induction xs with
  | nil => exact ⟨[], rfl, rfl⟩
  | cons x xs ih =>
    obtain ⟨ys, hys, hmap⟩ := h x List.mem_cons_self
    obtain ⟨zs, hzs, hmap'⟩ := ih (fun x' hx' => h x' (List.mem_cons_of_mem x hx'))
    refine ⟨ys ++ zs, ?_, ?_⟩
    · rw [collect, hys]
      simp [hzs]
    · rw [List.map_append, hmap, hmap', List.flatMap_cons]

/-- A loop fails with the failure of one of its turns. -/
theorem exists_of_collect_eq_error {g : α → Res ε (List β)} {xs : List α} {e : Fault ε}
    (h : collect g xs = .error e) : ∃ x ∈ xs, g x = .error e := by
  induction xs with
  | nil => cases h
  | cons x xs ih =>
    rw [collect] at h
    cases hx : g x with
    | error e' =>
      rw [hx] at h
      obtain rfl : e' = e := Except.error.inj h
      exact ⟨x, List.mem_cons_self, hx⟩
    | ok zs =>
      rw [hx] at h
      cases hxs : collect g xs with
      | error e' =>
        rw [hxs] at h
        obtain rfl : e' = e := Except.error.inj h
        obtain ⟨y, hy, hgy⟩ := ih hxs
        exact ⟨y, List.mem_cons_of_mem x hy, hgy⟩
      | ok zs' => rw [hxs] at h; cases h

end Res

/-- **A program over atomic actions**: `A` is the type of actions and `R a`
the type of the response to the action `a`. -/
inductive Prog (A : Type) (R : A → Type) (α : Type) where
  /-- The call has returned. -/
  | ret (x : α)
  /-- The call performs an action and goes on with its response. -/
  | act (a : A) (k : R a → Prog A R α)

namespace Prog

variable {A : Type} {R : A → Type} {α β γ S : Type}

/-- Run a program, then the program its result selects. -/
def bind : Prog A R α → (α → Prog A R β) → Prog A R β
  | ret x, f => f x
  | act a k, f => act a (fun r => (k r).bind f)

/-- Apply a function to the result of a program. -/
def map (f : α → β) (p : Prog A R α) : Prog A R β := p.bind (fun x => ret (f x))

/-- The program of one action. -/
def perform (a : A) : Prog A R (R a) := act a ret

@[simp] theorem ret_bind (x : α) (f : α → Prog A R β) : (ret x).bind f = f x := rfl

@[simp] theorem act_bind (a : A) (k : R a → Prog A R α) (f : α → Prog A R β) :
    (act a k).bind f = act a (fun r => (k r).bind f) := rfl

@[simp] theorem perform_bind (a : A) (f : R a → Prog A R β) :
    (perform a).bind f = act a f := rfl

theorem bind_assoc (p : Prog A R α) (f : α → Prog A R β) (g : β → Prog A R γ) :
    (p.bind f).bind g = p.bind (fun x => (f x).bind g) := by
  induction p with
  | ret x => rfl
  | act a k ih =>
    rw [act_bind, act_bind, act_bind]
    exact congrArg (act a) (funext ih)

/-! ## Running a program alone

A handler says what each action does to the state; `none` is an action that
cannot be taken, which for a program running alone is a call that blocks for
ever. -/

/-- **The run of a program alone.** -/
def run (h : (a : A) → S → Option (R a × S)) : Prog A R α → S → Option (α × S)
  | ret x, s => some (x, s)
  | act a k, s => (h a s).bind (fun rs => (k rs.1).run h rs.2)

variable (h : (a : A) → S → Option (R a × S))

@[simp] theorem run_ret (x : α) (s : S) : (ret x : Prog A R α).run h s = some (x, s) := rfl

@[simp] theorem run_act (a : A) (k : R a → Prog A R α) (s : S) :
    (act a k).run h s = (h a s).bind (fun rs => (k rs.1).run h rs.2) := rfl

theorem run_bind (p : Prog A R α) (f : α → Prog A R β) (s : S) :
    (p.bind f).run h s = (p.run h s).bind (fun xs => (f xs.1).run h xs.2) := by
  induction p generalizing s with
  | ret x => rfl
  | act a k ih =>
    rw [act_bind, run_act, run_act, Option.bind_assoc]
    exact congrArg (Option.bind (h a s)) (funext fun rs => ih rs.1 rs.2)

theorem run_map (f : α → β) (p : Prog A R α) (s : S) :
    (p.map f).run h s = (p.run h s).map (fun xs => (f xs.1, xs.2)) := by
  rw [map, run_bind]
  exact Option.map_eq_bind.symm

/-! ## What a program performed -/

/-- **The program with its own trace**: the same actions, the result paired
with the list of the actions performed and their responses. -/
def traced : Prog A R α → Prog A R (List (Σ a, R a) × α)
  | ret x => ret ([], x)
  | act a k => act a (fun r => (k r).traced.map (fun tx => (⟨a, r⟩ :: tx.1, tx.2)))

theorem map_act (f : α → β) (a : A) (k : R a → Prog A R α) :
    (act a k).map f = act a (fun r => (k r).map f) := rfl

theorem map_map (f : α → β) (g : β → γ) (p : Prog A R α) :
    (p.map f).map g = p.map (fun x => g (f x)) :=
  bind_assoc p _ _

theorem map_id (p : Prog A R α) : p.map id = p := by
  induction p with
  | ret x => rfl
  | act a k ih => exact congrArg (act a) (funext ih)

theorem traced_map (f : α → β) (p : Prog A R α) :
    (p.map f).traced = p.traced.map (fun tx => (tx.1, f tx.2)) := by
  induction p with
  | ret x => rfl
  | act a k ih =>
    rw [map_act, traced, traced, map_act]
    refine congrArg (act a) (funext fun r => ?_)
    rw [ih r, map_map, map_map]

/-! ## A program among others

Between two of its actions others can change the state, to anything. What is
left of the program's own part is what it observed at each action. -/

end Prog

/-- **An action performed**: the state before it, its response, and the state
after. -/
structure Observation (A : Type) (R : A → Type) (S : Type) where
  action : A
  before : S
  response : R action
  after : S

namespace Prog

variable {A : Type} {R : A → Type} {α β S : Type} {sem : (a : A) → S → R a → S → Prop}

/-- **A run of a program among others**: every action takes place in some state,
whatever the state was after the one before it. -/
inductive Among (sem : (a : A) → S → R a → S → Prop) :
    Prog A R α → List (Observation A R S) → α → Prop
  | ret (x : α) : Among sem (ret x) [] x
  | act {a : A} {k : R a → Prog A R α} {t : List (Observation A R S)} {x : α} {s s' : S} {r : R a}
      (hsem : sem a s r s') (hk : Among sem (k r) t x) : Among sem (act a k) (⟨a, s, r, s'⟩ :: t) x

theorem among_ret {x y : α} {t : List (Observation A R S)} :
    Among sem (ret x) t y ↔ t = [] ∧ y = x := by
  constructor
  · rintro ⟨⟩
    exact ⟨rfl, rfl⟩
  · rintro ⟨rfl, rfl⟩
    exact .ret y

theorem among_act {a : A} {k : R a → Prog A R α} {t : List (Observation A R S)} {x : α} :
    Among sem (act a k) t x
      ↔ ∃ s r s' u, t = ⟨a, s, r, s'⟩ :: u ∧ sem a s r s' ∧ Among sem (k r) u x := by
  constructor
  · rintro ⟨⟩
    case act hsem hk => exact ⟨_, _, _, _, rfl, hsem, hk⟩
  · rintro ⟨s, r, s', u, rfl, hsem, hk⟩
    exact .act hsem hk

/-- The run of a sequence among others is a run of its parts. -/
theorem among_bind {p : Prog A R α} {f : α → Prog A R β} {t : List (Observation A R S)} {y : β} :
    Among sem (p.bind f) t y
      ↔ ∃ t₁ t₂ x, t = t₁ ++ t₂ ∧ Among sem p t₁ x ∧ Among sem (f x) t₂ y := by
  induction p generalizing t with
  | ret x =>
    constructor
    · exact fun h => ⟨[], t, x, rfl, .ret x, h⟩
    · rintro ⟨t₁, t₂, x', rfl, hx, hf⟩
      obtain ⟨rfl, rfl⟩ := among_ret.mp hx
      exact hf
  | act a k ih =>
    rw [act_bind, among_act]
    constructor
    · rintro ⟨s, r, s', u, rfl, hsem, hk⟩
      obtain ⟨t₁, t₂, x, rfl, hx, hf⟩ := (ih r).mp hk
      exact ⟨_ :: t₁, t₂, x, rfl, .act hsem hx, hf⟩
    · rintro ⟨t₁, t₂, x, rfl, hx, hf⟩
      obtain ⟨s, r, s', u, rfl, hsem, hk⟩ := among_act.mp hx
      exact ⟨s, r, s', u ++ t₂, rfl, hsem, (ih r).mpr ⟨u, t₂, x, rfl, hk, hf⟩⟩

end Prog

/-! ## Programs that can fail -/

/-- **A program of a fallible call**: its result is a `Res`. -/
abbrev Call (ε : Type) (A : Type) (R : A → Type) (α : Type) := Prog A R (Res ε α)

namespace Call

variable {ε : Type} {A : Type} {R : A → Type} {α β S : Type}

/-- A call that returns at once. -/
def done (x : Res ε α) : Call ε A R α := Prog.ret x

/-- The `?` operator: go on with the value, return a failure unchanged. -/
def andThen (p : Call ε A R α) (f : α → Call ε A R β) : Call ε A R β :=
  Prog.bind p (fun
    | .ok x => f x
    | .error e => Prog.ret (.error e))

instance : Monad (Call ε A R) where
  pure x := done (.ok x)
  bind := andThen

/-- A loop over a list, to the first failure. -/
def forEach (f : α → Call ε A R Unit) : List α → Call ε A R Unit
  | [] => pure ()
  | x :: xs => do
    f x
    forEach f xs

/-- A loop over a list that collects what each turn contributes, to the first
failure. -/
def collect (f : α → Call ε A R (List β)) : List α → Call ε A R (List β)
  | [] => pure []
  | x :: xs => do
    let ys ← f x
    let zs ← collect f xs
    return ys ++ zs

@[simp] theorem pure_eq (x : α) : (pure x : Call ε A R α) = done (.ok x) := rfl

@[simp] theorem bind_eq (p : Call ε A R α) (f : α → Call ε A R β) :
    p >>= f = p.andThen f := rfl

@[simp] theorem done_ok_andThen (x : α) (f : α → Call ε A R β) :
    (done (.ok x)).andThen f = f x := rfl

@[simp] theorem done_error_andThen (e : Fault ε) (f : α → Call ε A R β) :
    (done (.error e)).andThen f = done (.error e) := rfl

theorem andThen_assoc {γ : Type} (p : Call ε A R α) (f : α → Call ε A R β) (g : β → Call ε A R γ) :
    (p.andThen f).andThen g = p.andThen (fun x => (f x).andThen g) := by
  unfold andThen
  rw [Prog.bind_assoc]
  refine congrArg (Prog.bind p) (funext fun r => ?_)
  cases r <;> rfl

theorem map_andThen {γ : Type} (g : β → γ) (p : Call ε A R α) (f : α → Call ε A R β) :
    Prog.map (Except.map g) (p.andThen f) = p.andThen (fun x => Prog.map (Except.map g) (f x)) := by
  unfold andThen Prog.map
  rw [Prog.bind_assoc]
  refine congrArg (Prog.bind p) (funext fun r => ?_)
  cases r <;> rfl

theorem andThen_map {γ : Type} (g : α → β) (p : Call ε A R α) (f : β → Call ε A R γ) :
    andThen (Prog.map (Except.map g) p) f = p.andThen (fun x => f (g x)) := by
  unfold andThen Prog.map
  rw [Prog.bind_assoc]
  refine congrArg (Prog.bind p) (funext fun r => ?_)
  cases r <;> rfl

/-- A loop of mapped calls. -/
theorem map_collect {γ : Type} (g : β → γ) (f : α → Call ε A R (List β)) (xs : List α) :
    Prog.map (Except.map (List.map g)) (collect f xs)
      = collect (fun x => Prog.map (Except.map (List.map g)) (f x)) xs := by
  induction xs with
  | nil => rfl
  | cons x xs ih =>
    simp only [collect, bind_eq]
    rw [map_andThen, andThen_map, ← ih]
    refine congrArg (andThen (f x)) (funext fun ys => ?_)
    rw [map_andThen, andThen_map]
    refine congrArg (andThen (collect f xs)) (funext fun zs => ?_)
    simp [Prog.map, done, Except.map]

/-- The run of a sequence of fallible calls. -/
theorem run_andThen (h : (a : A) → S → Option (R a × S)) (p : Call ε A R α)
    (f : α → Call ε A R β) (s : S) :
    Prog.run h (p.andThen f) s
      = (Prog.run h p s).bind (fun
          | (.ok x, s') => Prog.run h (f x) s'
          | (.error e, s') => some (.error e, s')) := by
  unfold andThen
  rw [Prog.run_bind]
  refine congrArg (Option.bind _) (funext fun xs => ?_)
  rcases xs with ⟨_ | _, _⟩ <;> rfl

/-- **How a sequence of fallible calls can end**: the first fails, or returns and
the second runs. -/
theorem run_andThen_eq_some {h : (a : A) → S → Option (R a × S)} {p : Call ε A R α}
    {f : α → Call ε A R β} {s s' : S} {r : Res ε β} :
    Prog.run h (p.andThen f) s = some (r, s')
      ↔ (∃ x s₁, Prog.run h p s = some (.ok x, s₁) ∧ Prog.run h (f x) s₁ = some (r, s'))
        ∨ ∃ e, Prog.run h p s = some (.error e, s') ∧ r = .error e := by
  rw [run_andThen]
  rcases Prog.run h p s with _ | ⟨e | x, s₁⟩
  · simp
  · simp [eq_comm, and_comm]
  · simp

/-- The run among others of a sequence of fallible calls that returns. -/
theorem among_andThen_ok {sem : (a : A) → S → R a → S → Prop} {p : Call ε A R α}
    {f : α → Call ε A R β} {t : List (Observation A R S)} {y : β} :
    Prog.Among sem (p.andThen f) t (.ok y)
      ↔ ∃ t₁ t₂ x, t = t₁ ++ t₂ ∧ Prog.Among sem p t₁ (.ok x) ∧ Prog.Among sem (f x) t₂ (.ok y) := by
  unfold andThen
  rw [Prog.among_bind]
  constructor
  · rintro ⟨t₁, t₂, e | x, rfl, hp, hf⟩
    · exact absurd (Prog.among_ret.mp hf).2 (by simp)
    · exact ⟨t₁, t₂, x, rfl, hp, hf⟩
  · rintro ⟨t₁, t₂, x, rfl, hp, hf⟩
    exact ⟨t₁, t₂, .ok x, rfl, hp, hf⟩

/-- The run of a loop that collects, where no turn changes the state. -/
theorem run_collect {h : (a : A) → S → Option (R a × S)} {f : α → Call ε A R (List β)}
    {g : α → Res ε (List β)} {xs : List α} {s : S}
    (hf : ∀ x ∈ xs, Prog.run h (f x) s = some (g x, s)) :
    Prog.run h (collect f xs) s = some (Res.collect g xs, s) := by
  induction xs with
  | nil => rfl
  | cons x xs ih =>
    rw [collect, bind_eq, run_andThen, hf x List.mem_cons_self, Option.bind_some, Res.collect]
    cases g x with
    | error e => rfl
    | ok ys =>
      dsimp only
      rw [bind_eq, run_andThen, ih (fun y hy => hf y (List.mem_cons_of_mem x hy)), Option.bind_some]
      cases Res.collect g xs <;> rfl

@[simp] theorem run_done (h : (a : A) → S → Option (R a × S)) (x : Res ε α) (s : S) :
    Prog.run h (done x : Call ε A R α) s = some (x, s) := rfl

/-! ## How a loop ends -/

/-- **Turns of a loop that all return**, one after the other. -/
inductive Turns (h : (a : A) → S → Option (R a × S)) (f : α → Call ε A R Unit) :
    S → List α → S → Prop
  | nil (s : S) : Turns h f s [] s
  | cons {s s₁ s₂ : S} {x : α} {xs : List α} (hx : Prog.run h (f x) s = some (.ok (), s₁))
      (hxs : Turns h f s₁ xs s₂) : Turns h f s (x :: xs) s₂

/-- **A loop stops in a failure**: the turns before it all return, and it is the
failure of the next. -/
def Stops (h : (a : A) → S → Option (R a × S)) (f : α → Call ε A R Unit) (s : S) (xs done : List α)
    (e : Fault ε) (s' : S) : Prop :=
  ∃ x rest s₁, xs = done ++ x :: rest ∧ Turns h f s done s₁ ∧ Prog.run h (f x) s₁ = some (.error e, s')

variable {h : (a : A) → S → Option (R a × S)} {f : α → Call ε A R Unit}

/-- A loop returns exactly where all its turns do. -/
theorem run_forEach_eq_ok {xs : List α} {s s' : S} :
    Prog.run h (forEach f xs) s = some (.ok (), s') ↔ Turns h f s xs s' := by
  induction xs generalizing s with
  | nil =>
    constructor
    · intro hrun
      obtain rfl : s = s' := (Prod.mk.inj (Option.some.inj hrun)).2
      exact .nil s
    · rintro ⟨⟩
      rfl
  | cons x xs ih =>
    rw [forEach, bind_eq, run_andThen_eq_some]
    constructor
    · rintro (⟨⟨⟩, s₁, hx, hxs⟩ | ⟨e, -, he⟩)
      · exact .cons hx (ih.mp hxs)
      · cases he
    · rintro ⟨⟩
      case cons s₁ hx hxs => exact Or.inl ⟨(), s₁, hx, ih.mpr hxs⟩

/-- **A loop fails exactly where it stops** in the failure of one of its
turns. -/
theorem run_forEach_eq_error {xs : List α} {s s' : S} {e : Fault ε} :
    Prog.run h (forEach f xs) s = some (.error e, s') ↔ ∃ done, Stops h f s xs done e s' := by
  induction xs generalizing s with
  | nil =>
    constructor
    · intro hrun
      cases (Prod.mk.inj (Option.some.inj hrun)).1
    · rintro ⟨done, x, rest, s₁, hsplit, -⟩
      exact absurd hsplit (by simp)
  | cons x xs ih =>
    rw [forEach, bind_eq, run_andThen_eq_some]
    constructor
    · rintro (⟨⟨⟩, s₁, hx, hxs⟩ | ⟨e', hx, he⟩)
      · obtain ⟨done, y, rest, s₂, rfl, hdone, hy⟩ := ih.mp hxs
        exact ⟨x :: done, y, rest, s₂, rfl, .cons hx hdone, hy⟩
      · obtain rfl : e = e' := Except.error.inj he
        exact ⟨[], x, xs, s, rfl, .nil s, hx⟩
    · rintro ⟨done, y, rest, s₂, hsplit, hdone, hy⟩
      cases hdone with
      | nil =>
        obtain ⟨rfl, rfl⟩ := List.cons.inj hsplit
        exact Or.inr ⟨e, hy, rfl⟩
      | cons hx hxs =>
        obtain ⟨rfl, rfl⟩ := List.cons.inj hsplit
        exact Or.inl ⟨(), _, hx, ih.mpr ⟨_, y, rest, s₂, rfl, hxs, hy⟩⟩

theorem forEach_append (f : α → Call ε A R Unit) (xs ys : List α) :
    forEach f (xs ++ ys) = (forEach f xs).andThen (fun _ => forEach f ys) := by
  induction xs with
  | nil => rfl
  | cons x xs ih =>
    rw [List.cons_append, forEach, forEach, bind_eq, bind_eq, andThen_assoc]
    exact congrArg (andThen (f x)) (funext fun _ => ih)

theorem forEach_map (f : β → Call ε A R Unit) (g : α → β) (xs : List α) :
    forEach f (xs.map g) = forEach (fun x => f (g x)) xs := by
  induction xs with
  | nil => rfl
  | cons x xs ih =>
    rw [List.map_cons, forEach, forEach, bind_eq, bind_eq]
    exact congrArg (andThen (f (g x))) (funext fun _ => ih)

theorem Turns.preserves {P : S → Prop} (hf : ∀ x s s', P s → Prog.run h (f x) s = some (.ok (), s') → P s')
    {xs : List α} {s s' : S} (hxs : Turns h f s xs s') (hs : P s) : P s' := by
  induction hxs with
  | nil s => exact hs
  | cons hx _ ih => exact ih (hf _ _ _ hs hx)

/-- **Turns that can change places lead to the same state in every order.** -/
theorem Turns.perm {xs ys : List α} {s s' : S} (hxs : Turns h f s xs s') (hperm : xs.Perm ys)
    (hswap : ∀ x ∈ xs, ∀ y ∈ xs, x ≠ y → ∀ t t₁ t₂, Prog.run h (f x) t = some (.ok (), t₁) →
      Prog.run h (f y) t₁ = some (.ok (), t₂) →
        ∃ t₁', Prog.run h (f y) t = some (.ok (), t₁') ∧ Prog.run h (f x) t₁' = some (.ok (), t₂)) :
    Turns h f s ys s' := by
  induction hperm generalizing s with
  | nil => exact hxs
  | cons x _ ih =>
    cases hxs with
    | cons hx hxs =>
      exact .cons hx (ih hxs fun y hy z hz =>
        hswap y (List.mem_cons_of_mem x hy) z (List.mem_cons_of_mem x hz))
  | swap x y l =>
    cases hxs with
    | cons hy hxs =>
      cases hxs with
      | cons hx hl =>
        by_cases hxy : y = x
        · subst hxy
          exact .cons hy (.cons hx hl)
        · obtain ⟨t, hx', hy'⟩ := hswap y List.mem_cons_self x
            (List.mem_cons_of_mem y List.mem_cons_self) hxy _ _ _ hy hx
          exact .cons hx' (.cons hy' hl)
  | trans hperm₁ _ ih₁ ih₂ =>
    exact ih₂ (ih₁ hxs hswap) fun y hy z hz =>
      hswap y (hperm₁.mem_iff.mpr hy) z (hperm₁.mem_iff.mpr hz)

end Call
