import Sourced.Program
import Mathlib.Logic.Relation

/-!
# Clients interleaving their programs

Any number of clients share one state. Each is at rest in a local state of
its own or in the middle of a program, and at every step one of them performs
its next action or, at rest, starts another program. A `System` says what the
actions do to the shared state, which programs a client may start where, and
nothing about who is scheduled: a run is any sequence of steps.

What a client knows about the shared state is not what the state is: others
move in between. The proofs below therefore give every client a *ghost*
value – the locks it owns, the part of a history it has seen – and reason
about its program against that value alone. A `Protocol` says which actions a
client may perform under its ghost value and how the value changes; `wp` is
the weakest precondition of a program under that protocol; and
`System.reachable_holds` is the rule that puts the clients together: if every
action keeps a joint invariant of the state and the ghost values, then every
reachable configuration satisfies the invariant, with every client still
satisfying its own `wp`.
-/

variable {C A S Λ O α β : Type} {R : A → Type}

/-! ## Systems of clients -/

/-- **A system of clients**: the effect of an action performed by a client on
the shared state, and the programs a client at rest may start. -/
structure System (C A : Type) (R : A → Type) (S Λ : Type) where
  /-- `sem c a s r s'`: performed by `c` in `s`, the action `a` can answer `r`
  and leave `s'`. An action no response is possible for is blocked. -/
  sem : C → (a : A) → S → R a → S → Prop
  /-- `start c l p`: at rest in the local state `l`, the client `c` may start
  the program `p`. -/
  start : C → Λ → Prog A R Λ → Prop

/-- **A configuration**: the shared state and what is left of the program of
every client. A client at rest in the local state `l` is at `Prog.ret l`. -/
@[ext] structure Config (C A : Type) (R : A → Type) (S Λ : Type) where
  shared : S
  prog : C → Prog A R Λ

namespace System

variable [DecidableEq C]

/-- **One step of one client.** -/
inductive Step (M : System C A R S Λ) : Config C A R S Λ → Config C A R S Λ → Prop
  /-- A client performs the next action of its program. -/
  | act {x : Config C A R S Λ} (c : C) (a : A) (k : R a → Prog A R Λ) (r : R a) (s' : S)
      (hprog : x.prog c = .act a k) (hsem : M.sem c a x.shared r s') :
      Step M x ⟨s', Function.update x.prog c (k r)⟩
  /-- A client at rest starts a program. -/
  | start {x : Config C A R S Λ} (c : C) (l : Λ) (p : Prog A R Λ)
      (hprog : x.prog c = .ret l) (hstart : M.start c l p) :
      Step M x ⟨x.shared, Function.update x.prog c p⟩

/-- A run: any number of steps, of any clients in any order. -/
abbrev Run (M : System C A R S Λ) : Config C A R S Λ → Config C A R S Λ → Prop :=
  Relation.ReflTransGen M.Step

/-- **The runs whose every action meets a condition**: the same system with
the actions that break the condition left out. -/
def restrict (M : System C A R S Λ) (ok : C → (a : A) → S → R a → Prop) :
    System C A R S Λ where
  sem c a s r s' := M.sem c a s r s' ∧ ok c a s r
  start := M.start

omit [DecidableEq C] in
@[simp] theorem restrict_sem (M : System C A R S Λ) (ok : C → (a : A) → S → R a → Prop)
    (c : C) (a : A) (s : S) (r : R a) (s' : S) :
    (M.restrict ok).sem c a s r s' ↔ M.sem c a s r s' ∧ ok c a s r := Iff.rfl

/-- **A run can be recorded**: where every action can, in states that hold more than those it
acts on. -/
theorem Run.recorded {S' : Type} {M : System C A R S Λ} {N : System C A R S' Λ} {f : S' → S}
    (hsem : ∀ {c a s' r t}, M.sem c a (f s') r t → ∃ t', f t' = t ∧ N.sem c a s' r t')
    (hstart : ∀ {c l p}, M.start c l p → N.start c l p) {x y : Config C A R S Λ}
    (hrun : M.Run x y) {s' : S'} (hs' : f s' = x.shared) :
    ∃ t', f t' = y.shared ∧ N.Run ⟨s', x.prog⟩ ⟨t', y.prog⟩ := by
  induction hrun with
  | refl => exact ⟨s', hs', .refl⟩
  | tail _ hstep ih =>
    obtain ⟨t', ht', hrun'⟩ := ih
    cases hstep with
    | act c a k r t hprog hact =>
      rw [← ht'] at hact
      obtain ⟨u', hu', hact'⟩ := hsem hact
      exact ⟨u', hu', hrun'.tail (.act c a k r u' hprog hact')⟩
    | start c l p hprog hs => exact ⟨t', ht', hrun'.tail (.start c l p hprog (hstart hs))⟩

/-- **A run moves finitely many clients.** -/
theorem Run.exists_moved {M : System C A R S Λ} {x y : Config C A R S Λ} (hrun : M.Run x y) :
    ∃ moved : List C, ∀ c ∉ moved, y.prog c = x.prog c := by
  induction hrun with
  | refl => exact ⟨[], fun _ _ => rfl⟩
  | tail _ hstep ih =>
    obtain ⟨moved, hmoved⟩ := ih
    cases hstep with
    | act c a k r s' hprog hsem =>
      refine ⟨c :: moved, fun d hd => ?_⟩
      obtain ⟨hne, hd⟩ := not_or.mp (mt List.mem_cons.mpr hd)
      exact (Function.update_of_ne hne _ _).trans (hmoved d hd)
    | start c l p hprog hstart =>
      refine ⟨c :: moved, fun d hd => ?_⟩
      obtain ⟨hne, hd⟩ := not_or.mp (mt List.mem_cons.mpr hd)
      exact (Function.update_of_ne hne _ _).trans (hmoved d hd)

/-- **One step of a client.** -/
inductive StepBy (M : System C A R S Λ) (c : C) : Config C A R S Λ → Config C A R S Λ → Prop
  | act {x : Config C A R S Λ} (a : A) (k : R a → Prog A R Λ) (r : R a) (s' : S)
      (hprog : x.prog c = .act a k) (hsem : M.sem c a x.shared r s') :
      StepBy M c x ⟨s', Function.update x.prog c (k r)⟩
  | start {x : Config C A R S Λ} (l : Λ) (p : Prog A R Λ) (hprog : x.prog c = .ret l)
      (hstart : M.start c l p) : StepBy M c x ⟨x.shared, Function.update x.prog c p⟩

theorem StepBy.step {M : System C A R S Λ} {c : C} {x y : Config C A R S Λ} (h : M.StepBy c x y) :
    M.Step x y := by
  cases h with
  | act a k r s' hprog hsem => exact .act c a k r s' hprog hsem
  | start l p hprog hstart => exact .start c l p hprog hstart

/-- A program run alone is a run: the client performs its actions one after
the other, and nobody moves in between. -/
theorem run_alone {M : System C A R S Λ} {h : (a : A) → S → Option (R a × S)} {c : C}
    (hh : ∀ a s r s', h a s = some (r, s') → M.sem c a s r s') {p : Prog A R Λ} {s s' : S} {l : Λ}
    (progs : C → Prog A R Λ) (hrun : p.run h s = some (l, s')) :
    M.Run ⟨s, Function.update progs c p⟩ ⟨s', Function.update progs c (.ret l)⟩ := by
  induction p generalizing s with
  | ret x =>
    obtain ⟨rfl, rfl⟩ : x = l ∧ s = s' := by simpa using hrun
    exact .refl
  | act a k ih =>
    rw [Prog.run_act] at hrun
    obtain ⟨⟨r, s₁⟩, ha, hk⟩ := Option.bind_eq_some_iff.mp hrun
    have hstep := Step.act (M := M) (x := ⟨s, Function.update progs c (.act a k)⟩) c a k r s₁
      (Function.update_self _ _ _) (hh a s r s₁ ha)
    rw [Function.update_idem] at hstep
    exact Relation.ReflTransGen.head hstep (ih r hk)

/-- **A client starts a program and runs it to its end.** -/
theorem Run.call {M : System C A R S Λ} {h : (a : A) → S → Option (R a × S)} {c : C}
    (hh : ∀ a s r s', h a s = some (r, s') → M.sem c a s r s') {x y : Config C A R S Λ} {l l' : Λ}
    {p : Prog A R Λ} {s' : S} (hxy : M.Run x y) (hprog : y.prog c = .ret l)
    (hstart : M.start c l p) (hrun : p.run h y.shared = some (l', s')) :
    M.Run x ⟨s', Function.update y.prog c (.ret l')⟩ :=
  (hxy.tail (.start c l p hprog hstart)).trans (run_alone hh y.prog hrun)

end System

/-! ## Protocols and weakest preconditions -/

/-- **A protocol for the ghost value of a client**: `pre a o` allows the
action `a` under the ghost value `o`, and `upd a o r o'` is the change the
response `r` makes to it. -/
structure Protocol (A : Type) (R : A → Type) (O : Type) where
  pre : A → O → Prop
  upd : (a : A) → O → R a → O → Prop

namespace Protocol

/-- **The weakest precondition of a program under a protocol**: every action
it performs is allowed, and whatever the responses, `Q` holds of the result
and of the ghost value at the end. -/
def wp (P : Protocol A R O) (Q : α → O → Prop) : Prog A R α → O → Prop
  | .ret x, o => Q x o
  | .act a k, o => P.pre a o ∧ ∀ r o', P.upd a o r o' → P.wp Q (k r) o'

variable (P : Protocol A R O)

@[simp] theorem wp_ret {Q : α → O → Prop} {x : α} {o : O} :
    P.wp Q (.ret x) o ↔ Q x o := Iff.rfl

theorem wp_act {Q : α → O → Prop} {a : A} {k : R a → Prog A R α} {o : O} :
    P.wp Q (.act a k) o ↔ P.pre a o ∧ ∀ r o', P.upd a o r o' → P.wp Q (k r) o' :=
  Iff.rfl

/-- **The rule of sequence.** -/
theorem wp_bind {Q : β → O → Prop} {p : Prog A R α} {f : α → Prog A R β} {o : O} :
    P.wp Q (p.bind f) o ↔ P.wp (fun x o' => P.wp Q (f x) o') p o := by
  induction p generalizing o with
  | ret x => rfl
  | act a k ih =>
    rw [Prog.act_bind, wp_act, wp_act]
    exact and_congr_right' (forall_congr' fun r => forall_congr' fun o' =>
      imp_congr_right fun _ => ih r)

theorem wp_map {Q : β → O → Prop} {p : Prog A R α} {f : α → β} {o : O} :
    P.wp Q (p.map f) o ↔ P.wp (fun x o' => Q (f x) o') p o :=
  wp_bind P

/-- **The rule of consequence.** -/
theorem wp_mono {Q Q' : α → O → Prop} {p : Prog A R α} {o : O}
    (hQ : ∀ x o', Q x o' → Q' x o') (h : P.wp Q p o) : P.wp Q' p o := by
  induction p generalizing o with
  | ret x => exact hQ x o h
  | act a k ih => exact ⟨h.1, fun r o' hupd => ih r (h.2 r o' hupd)⟩

/-- The postcondition of a fallible call, its two outcomes apart. -/
def outcome {ε : Type} (Q : α → O → Prop) (E : Fault ε → O → Prop) : Res ε α → O → Prop
  | .ok x, o => Q x o
  | .error e, o => E e o

@[simp] theorem outcome_ok {ε : Type} {Q : α → O → Prop} {E : Fault ε → O → Prop} {x : α}
    {o : O} : outcome Q E (.ok x) o ↔ Q x o := Iff.rfl

@[simp] theorem outcome_error {ε : Type} {Q : α → O → Prop} {E : Fault ε → O → Prop}
    {e : Fault ε} {o : O} : outcome Q E (.error e) o ↔ E e o := Iff.rfl

theorem wp_andThen {ε : Type} {Q : Res ε β → O → Prop} {p : Call ε A R α}
    {f : α → Call ε A R β} {o : O} :
    P.wp Q (p.andThen f) o
      ↔ P.wp (outcome (fun x o' => P.wp Q (f x) o') (fun e o' => Q (.error e) o')) p o := by
  unfold Call.andThen
  rw [wp_bind]
  constructor <;> refine P.wp_mono (fun x o' h => ?_) <;> cases x <;> exact h

theorem wp_mono_ok {ε : Type} {Q : α → O → Prop} {Q' : Res ε α → O → Prop} {p : Call ε A R α}
    {o : O} (hQ : ∀ x o', Q x o' → Q' (.ok x) o')
    (h : P.wp (outcome Q (fun _ _ => False)) p o) : P.wp Q' p o := by
  refine P.wp_mono (fun r o' hr => ?_) h
  cases r with
  | error e => exact hr.elim
  | ok x => exact hQ x o' hr

/-- **The rule of sequence after a call that does not fail.** -/
theorem wp_andThen_ok {ε : Type} {Q : α → O → Prop} {Q' : Res ε β → O → Prop} {p : Call ε A R α}
    {f : α → Call ε A R β} {o : O} (hQ : ∀ x o', Q x o' → P.wp Q' (f x) o')
    (h : P.wp (outcome Q (fun _ _ => False)) p o) : P.wp Q' (p.andThen f) o :=
  P.wp_andThen.mpr (P.wp_mono_ok hQ h)

/-! ### Loops -/

/-- **The rule of loops**: an invariant of what is left to do, which every turn
keeps, holds at the end of nothing left. -/
theorem wp_forEach_rest {ε : Type} {I : List α → O → Prop} {E : Fault ε → O → Prop}
    {f : α → Call ε A R Unit}
    (hf : ∀ x rest o, I (x :: rest) o → P.wp (outcome (fun _ => I rest) E) (f x) o)
    {xs : List α} {o : O} (ho : I xs o) :
    P.wp (outcome (fun _ => I []) E) (Call.forEach f xs) o := by
  induction xs generalizing o with
  | nil => exact ho
  | cons x xs ih =>
    rw [Call.forEach, Call.bind_eq, wp_andThen]
    refine P.wp_mono (fun r o' hr => ?_) (hf x xs o ho)
    cases r with
    | error e => exact hr
    | ok u => exact ih hr

/-- The rule for an invariant that does not look at what is left to do. -/
theorem wp_forEach {ε : Type} {I : O → Prop} {E : Fault ε → O → Prop} {f : α → Call ε A R Unit}
    {xs : List α} (hf : ∀ x ∈ xs, ∀ o, I o → P.wp (outcome (fun _ => I) E) (f x) o) {o : O}
    (ho : I o) : P.wp (outcome (fun _ => I) E) (Call.forEach f xs) o := by
  refine P.wp_mono (fun r o' hr => ?_) (P.wp_forEach_rest (E := E)
    (I := fun rest o => rest ⊆ xs ∧ I o) (fun x rest o hI => ?_) ⟨List.Subset.refl xs, ho⟩)
  · cases r with
    | error e => exact hr
    | ok u => exact hr.2
  · refine P.wp_mono (fun r o' hr => ?_) (hf x (hI.1 List.mem_cons_self) o hI.2)
    cases r with
    | error e => exact hr
    | ok u => exact ⟨fun y hy => hI.1 (List.mem_cons_of_mem x hy), hr⟩

/-- **The rule of loops that collect**: an invariant of the elements seen and
the results so far, which every turn keeps, holds at the end of all elements
and all results. -/
theorem wp_collect {ε : Type} {I : List α → List β → O → Prop} {E : Fault ε → O → Prop}
    {f : α → Call ε A R (List β)} {xs : List α}
    (hf : ∀ x ∈ xs, ∀ seen ys o, I seen ys o →
      P.wp (outcome (fun zs => I (seen ++ [x]) (ys ++ zs)) E) (f x) o)
    {o : O} (ho : I [] [] o) : P.wp (outcome (I xs) E) (Call.collect f xs) o := by
  suffices ∀ seen ys o, I seen ys o →
      P.wp (outcome (fun zs => I (seen ++ xs) (ys ++ zs)) E) (Call.collect f xs) o from
    this [] [] o ho
  clear ho o
  induction xs with
  | nil =>
    intro seen ys o ho
    show I (seen ++ []) (ys ++ []) o
    rw [List.append_nil, List.append_nil]
    exact ho
  | cons x xs ih =>
    intro seen ys o ho
    rw [Call.collect, Call.bind_eq, wp_andThen]
    refine P.wp_mono (fun r o₁ hr => ?_) (hf x List.mem_cons_self seen ys o ho)
    cases r with
    | error e => exact hr
    | ok zs =>
      rw [outcome_ok, Call.bind_eq, wp_andThen]
      refine P.wp_mono (fun r o₂ hr₂ => ?_)
        (ih (fun y hy => hf y (List.mem_cons_of_mem x hy)) (seen ++ [x]) (ys ++ zs) o₁ hr)
      cases r with
      | error e => exact hr₂
      | ok zs' =>
        show I (seen ++ x :: xs) (ys ++ (zs ++ zs')) o₂
        rw [← List.append_assoc, List.append_cons]
        exact hr₂

/-- A loop that collects, of turns that leave the ghost value as it is, leaves it
so, whether it fails or not. -/
theorem wp_collect_keeps {ε : Type} {f : α → Call ε A R (List β)} {o : O}
    (hf : ∀ x, P.wp (fun _ o' => o' = o) (f x) o) (xs : List α) :
    P.wp (fun _ o' => o' = o) (Call.collect f xs) o := by
  have houtcome : P.wp (outcome (fun _ o' => o' = o) (fun _ o' => o' = o)) (Call.collect f xs) o := by
    refine P.wp_collect (I := fun _ _ o' => o' = o) (fun x _ _ _ o' ho' => ?_) rfl
    subst ho'
    refine P.wp_mono (fun r o'' h => ?_) (hf x)
    cases r <;> exact h
  refine P.wp_mono (fun r o' h => ?_) houtcome
  cases r <;> exact h

/-! ### What a program saw

A program returns its result, not what it saw on the way. To relate the two
the ghost value is extended by a list of observations, which every action
adds to; the program with its own trace then returns what was observed. -/

/-- **The protocol with observations**: `obs` is what an action and its
response add to them. -/
def observing (obs : (Σ a, R a) → List β) : Protocol A R (O × List β) where
  pre a o := P.pre a o.1
  upd a o r o' := P.upd a o.1 r o'.1 ∧ o'.2 = o.2 ++ obs ⟨a, r⟩

theorem wp_of_observing {obs : (Σ a, R a) → List β} {Q : α → O → Prop} {p : Prog A R α} {o : O}
    {l : List β} (h : (P.observing obs).wp (fun x ol => Q x ol.1) p (o, l)) : P.wp Q p o := by
  induction p generalizing o l with
  | ret x => exact h
  | act a k ih => exact ⟨h.1, fun r o' hupd => ih r (h.2 r (o', _) ⟨hupd, rfl⟩)⟩

/-- **The trace of a program is what was observed.** -/
theorem wp_traced {obs : (Σ a, R a) → List β} {Q : List β → α → O → Prop} {p : Prog A R α} {o : O}
    (h : (P.observing obs).wp (fun x ol => Q ol.2 x ol.1) p (o, [])) :
    P.wp (fun tx o' => Q (tx.1.flatMap obs) tx.2 o') p.traced o := by
  suffices ∀ l, (P.observing obs).wp (fun x ol => Q ol.2 x ol.1) p (o, l) →
      P.wp (fun tx o' => Q (l ++ tx.1.flatMap obs) tx.2 o') p.traced o by
    simpa using this [] h
  clear h
  intro l h
  induction p generalizing o l with
  | ret x => simpa [Prog.traced] using h
  | act a k ih =>
    refine ⟨h.1, fun r o' hupd => ?_⟩
    rw [wp_map]
    refine P.wp_mono (fun tx o'' hQ => ?_) (ih r _ (h.2 r (o', _) ⟨hupd, rfl⟩))
    simpa [List.flatMap_cons, List.append_assoc] using hQ

end Protocol

/-! ## The rule for systems of clients -/

/-- **A ghost value after one client's was changed** is that client's new one, or
another's as it was. -/
theorem update_eq_cases [DecidableEq C] {own : C → O} {c d : C} {o x : O}
    (h : Function.update own c o d = x) : d = c ∧ o = x ∨ d ≠ c ∧ own d = x := by
  by_cases hdc : d = c
  · subst hdc
    exact Or.inl ⟨rfl, (Function.update_self _ _ _).symm.trans h⟩
  · exact Or.inr ⟨hdc, (Function.update_of_ne hdc _ _).symm.trans h⟩

namespace System

variable [DecidableEq C] (M : System C A R S Λ) (P : Protocol A R O)
variable (I : S → (C → O) → Prop) (Q : Λ → O → Prop)

/-- **A configuration that keeps a protocol**: for some ghost values the
joint invariant holds and every client satisfies its weakest
precondition. -/
def Holds (x : Config C A R S Λ) : Prop :=
  ∃ own : C → O, I x.shared own ∧ ∀ c, P.wp Q (x.prog c) (own c)

variable {M P I Q}

/-- One step keeps the protocol. -/
theorem Step.holds
    (hact : ∀ c a s own r s', I s own → P.pre a (own c) → M.sem c a s r s' →
      ∃ o', P.upd a (own c) r o' ∧ I s' (Function.update own c o'))
    (hstart : ∀ c l p o, Q l o → M.start c l p → P.wp Q p o)
    {x y : Config C A R S Λ} (hstep : M.Step x y) (hx : Holds P I Q x) :
    Holds P I Q y := by
  obtain ⟨own, hI, hwp⟩ := hx
  cases hstep with
  | act c a k r s' hprog hsem =>
    have hc := hwp c
    rw [hprog, Protocol.wp_act] at hc
    obtain ⟨o', hupd, hI'⟩ := hact c a _ own r s' hI hc.1 hsem
    refine ⟨Function.update own c o', hI', fun d => ?_⟩
    by_cases hd : d = c
    · subst hd
      simpa using hc.2 r o' hupd
    · simpa [hd] using hwp d
  | start c l p hprog hs =>
    have hc := hwp c
    rw [hprog, Protocol.wp_ret] at hc
    refine ⟨own, hI, fun d => ?_⟩
    by_cases hd : d = c
    · subst hd
      simpa using hstart d l p (own d) hc hs
    · simpa [hd] using hwp d

/-- **The rule for systems of clients**: if every allowed action keeps the
joint invariant, moving only the ghost value of the client that performs it,
and every program a client at rest may start satisfies its weakest
precondition, then every configuration reachable from one that keeps the
protocol keeps it. -/
theorem reachable_holds
    (hact : ∀ c a s own r s', I s own → P.pre a (own c) → M.sem c a s r s' →
      ∃ o', P.upd a (own c) r o' ∧ I s' (Function.update own c o'))
    (hstart : ∀ c l p o, Q l o → M.start c l p → P.wp Q p o)
    {x y : Config C A R S Λ} (hx : Holds P I Q x) (hrun : M.Run x y) :
    Holds P I Q y := by
  induction hrun with
  | refl => exact hx
  | tail _ hstep ih => exact hstep.holds hact hstart ih

end System
