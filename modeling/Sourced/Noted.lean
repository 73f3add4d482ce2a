import Sourced.Interleaving

/-!
# Programs whose actions carry notes

What a client means by a call is not in the actions of the call. A *note* says it: the
actions of a program are given the same note each (`Prog.noting`), and a system can keep a
record of the notes. A protocol for the actions with notes can ask that the note of an action
fits the action, and what was shown of the program without notes still serves
(`Protocol.wp_noting`), given which actions the program performs at all (`Prog.Only`).

What an action observes can be known to be of some kind, whatever the ghost value: then so is
all that a program has observed (`Protocol.wp_learning`).
-/

variable {A O N α β : Type} {R : A → Type}

namespace Prog

/-! ## The actions of a program -/

/-- **Every action the program can come to perform is of a kind.** -/
def Only (T : A → Prop) : Prog A R α → Prop
  | ret _ => True
  | act a k => T a ∧ ∀ r, (k r).Only T

variable {T T' : A → Prop}

theorem only_perform {a : A} (ha : T a) : (perform a : Prog A R (R a)).Only T := ⟨ha, fun _ => trivial⟩

theorem Only.bind {p : Prog A R α} {f : α → Prog A R β} (hp : p.Only T) (hf : ∀ x, (f x).Only T) :
    (p.bind f).Only T := by
  induction p with
  | ret x => exact hf x
  | act a k ih => exact ⟨hp.1, fun r => ih r (hp.2 r)⟩

theorem Only.map {p : Prog A R α} (hp : p.Only T) (f : α → β) : (p.map f).Only T :=
  hp.bind (fun _ => trivial)

/-- **The program with a note at every action.** -/
def noting (n : N) : Prog A R α → Prog (N × A) (fun na => R na.2) α
  | ret x => ret x
  | act a k => act (n, a) (fun r => (k r).noting n)

/-! ## Other notes -/

variable {M : Type}

/-- The program with its notes changed. -/
def renoting (f : N → M) : Prog (N × A) (fun na => R na.2) α → Prog (M × A) (fun ma => R ma.2) α
  | ret x => ret x
  | act na k => act (f na.1, na.2) (fun r => (k r).renoting f)

@[simp] theorem renoting_noting (f : N → M) (n : N) (p : Prog A R α) :
    (p.noting n).renoting f = p.noting (f n) := by
  induction p with
  | ret x => rfl
  | act a k ih => exact congrArg (act (f n, a)) (funext ih)

@[simp] theorem renoting_map (f : N → M) (g : α → β) (p : Prog (N × A) (fun na => R na.2) α) :
    (p.map g).renoting f = (p.renoting f).map g := by
  induction p with
  | ret x => rfl
  | act na k ih => exact congrArg (act (f na.1, na.2)) (funext ih)

theorem noting_map (n : N) (g : α → β) (p : Prog A R α) : (p.map g).noting n = (p.noting n).map g := by
  induction p with
  | ret x => rfl
  | act a k ih => exact congrArg (act (n, a)) (funext ih)

end Prog

namespace Call

variable {ε : Type} {T : A → Prop}

theorem only_andThen {p : Call ε A R α} {f : α → Call ε A R β} (hp : Prog.Only T p)
    (hf : ∀ x, Prog.Only T (f x)) : Prog.Only T (p.andThen f) := by
  refine Prog.Only.bind hp (fun r => ?_)
  cases r with
  | error e => trivial
  | ok x => exact hf x

theorem only_forEach {f : α → Call ε A R Unit} (hf : ∀ x, Prog.Only T (f x)) (xs : List α) :
    Prog.Only T (forEach f xs) := by
  induction xs with
  | nil => trivial
  | cons x xs ih => exact only_andThen (hf x) (fun _ => ih)

theorem only_collect {f : α → Call ε A R (List β)} (hf : ∀ x, Prog.Only T (f x)) (xs : List α) :
    Prog.Only T (collect f xs) := by
  induction xs with
  | nil => trivial
  | cons x xs ih => exact only_andThen (hf x) (fun _ => only_andThen ih (fun _ => trivial))

end Call

namespace Protocol

/-! ## Protocols -/

/-- **A program with notes keeps a protocol for actions with notes** if the program keeps one
without, and of the actions it performs the one asks no more and promises no less. What it
asks can rest on something that is so of the ghost value and stays so. -/
theorem wp_noting {P : Protocol A R O} {P' : Protocol (N × A) (fun na => R na.2) O} {n : N}
    {T : A → Prop} {J : O → Prop} (hpre : ∀ a o, T a → J o → P.pre a o → P'.pre (n, a) o)
    (hupd : ∀ a o r o', P'.upd (n, a) o r o' → P.upd a o r o')
    (hJ : ∀ a o r o', J o → P.upd a o r o' → J o') {Q : α → O → Prop} {p : Prog A R α}
    (hp : p.Only T) {o : O} (ho : J o) (h : P.wp Q p o) : P'.wp Q (p.noting n) o := by
  induction p generalizing o with
  | ret x => exact h
  | act a k ih =>
    refine ⟨hpre a o hp.1 ho h.1, fun r o' ho' => ?_⟩
    have hupd' := hupd a o r o' ho'
    exact ih r (hp.2 r) (hJ a o r o' ho hupd') (h.2 r o' hupd')

variable (P : Protocol A R O)

/-- **The protocol in which what is observed is of a kind.** -/
def learning (obs : (Σ a, R a) → List β) (T : β → Prop) : Protocol A R O where
  pre := P.pre
  upd a o r o' := P.upd a o r o' ∧ ∀ b ∈ obs ⟨a, r⟩, T b

variable {P}

/-- **All that a program has observed** is of that kind. -/
theorem wp_learning {obs : (Σ a, R a) → List β} {T : β → Prop} {Q : α → O × List β → Prop}
    {p : Prog A R α} {o : O} {l : List β} (h : (P.observing obs).wp Q p (o, l)) :
    (P.learning obs T).wp (fun x o' => ∃ l', (∀ b ∈ l', T b) ∧ Q x (o', l ++ l')) p o := by
  induction p generalizing o l with
  | ret x => exact ⟨[], fun b hb => absurd hb List.not_mem_nil, (List.append_nil l).symm ▸ h⟩
  | act a k ih =>
    refine ⟨h.1, fun r o' ⟨hupd, hT⟩ => ?_⟩
    refine (P.learning obs T).wp_mono (fun x o'' hx => ?_) (ih r (h.2 r (o', _) ⟨hupd, rfl⟩))
    obtain ⟨l', hl', hQ⟩ := hx
    refine ⟨obs ⟨a, r⟩ ++ l', fun b hb => ?_, List.append_assoc l _ l' ▸ hQ⟩
    cases List.mem_append.mp hb with
    | inl hb => exact hT b hb
    | inr hb => exact hl' b hb

end Protocol

/-! ## The image of a run -/

namespace System

variable {C S S' Λ Λ' N' : Type} [DecidableEq C]

/-- A configuration with its notes, its shared state and its local states mapped. -/
def image (n : N → N') (f : S → S') (g : Λ → Λ')
    (x : Config C (N × A) (fun na => R na.2) S Λ) : Config C (N' × A) (fun na => R na.2) S' Λ' :=
  ⟨f x.shared, fun c => ((x.prog c).renoting n).map g⟩

/-- **The image of a run is a run**, where that is so of every action and every program that
is started. -/
theorem Run.image {P : System C (N × A) (fun na => R na.2) S Λ}
    {Q : System C (N' × A) (fun na => R na.2) S' Λ'} {n : N → N'} {f : S → S'} {g : Λ → Λ'}
    (hsem : ∀ {c na s r s'}, P.sem c na s r s' → Q.sem c (n na.1, na.2) (f s) r (f s'))
    (hstart : ∀ {c l p}, P.start c l p → Q.start c (g l) ((p.renoting n).map g))
    {x y : Config C (N × A) (fun na => R na.2) S Λ} (hrun : P.Run x y) :
    Q.Run (System.image n f g x) (System.image n f g y) := by
  have hupdate : ∀ (x : Config C (N × A) (fun na => R na.2) S Λ) (c : C) (s : S)
      (p : Prog (N × A) (fun na => R na.2) Λ),
      System.image n f g ⟨s, Function.update x.prog c p⟩
        = ⟨f s, Function.update (System.image n f g x).prog c ((p.renoting n).map g)⟩ := by
    intro x c s p
    refine congrArg (Config.mk (f s)) (funext fun d => ?_)
    by_cases hd : d = c
    · subst hd
      simp
    · simp [hd, System.image]
  refine Relation.ReflTransGen.lift (System.image n f g) (fun x y hstep => ?_) _ _ hrun
  show Q.Step (System.image n f g x) (System.image n f g y)
  cases hstep with
  | act c na k r s' hprog hact =>
    rw [hupdate]
    refine Step.act (x := System.image n f g x) c (n na.1, na.2)
      (fun r => ((k r).renoting n).map g) r (f s') ?_ (hsem hact)
    show ((x.prog c).renoting n).map g = _
    rw [hprog]
    rfl
  | start c l p hprog hp =>
    rw [hupdate]
    refine Step.start (x := System.image n f g x) c (g l) _ ?_ (hstart hp)
    show ((x.prog c).renoting n).map g = _
    rw [hprog]
    rfl

end System
