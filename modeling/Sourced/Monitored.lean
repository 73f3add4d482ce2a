import Mathlib.Data.List.Basic
import Sourced.Interleaving
import Sourced.Monitor

/-!
# Programs over monitors made on demand

The programs of clients act on data, and operate on monitors that are named by keys. Two
levels of it are compared.

In `Monitored.atomic` every operation is one action: a turn in which it is done, taken on
the monitor of its key. A monitor that would have it wait blocks the action.

In `Monitored.Step` nothing is atomic but the sections under a mutex. The monitors stand
behind a table that maps a key to a handle, and makes a monitor where there is none. A
client looks up the key, at any time before, and takes a turn on the handle it was given;
it may have to sleep, is woken with others or by itself, and takes another turn. Others
look up, take turns and act on the data in between.

The second refines the first (`Monitored.run_atomic`): what the clients have done, at the
end of any run, they could have done by atomic actions. And the waiting of the second is
that of the first (`Monitored.Inv.awake_of_enabled`): as long as a client could go on in the
first, not all who are in the middle of a program sleep in the second.
-/

namespace Monitor

/-- **What an action is**: one on the data, or an operation on the monitor of a key, with
the way its answer is passed on. -/
inductive Kind (K O : Type) (RO : O → Type) (T : Type) where
  | data
  | operation (key : K) (o : O) (answer : RO o → T)

/-- Where a thread of many monitors is, as one of them sees it. -/
def Phase.here {O : Type} (h : ℕ) : Phase (ℕ × O) → Phase O
  | .outside => .outside
  | .asleep w => if w.1 = h then .asleep w.2 else .outside
  | .woken w => if w.1 = h then .woken w.2 else .outside

namespace Phase

variable {O : Type} {h h' : ℕ} {o : O} {p : Phase (ℕ × O)}

@[simp] theorem here_outside : here h (.outside : Phase (ℕ × O)) = .outside := rfl

@[simp] theorem here_asleep_self : here h (.asleep (h, o)) = .asleep o := if_pos rfl

@[simp] theorem here_woken_self : here h (.woken (h, o)) = .woken o := if_pos rfl

theorem here_asleep_of_ne (hne : h ≠ h') : here h' (.asleep (h, o)) = .outside := if_neg hne

theorem here_woken_of_ne (hne : h ≠ h') : here h' (.woken (h, o)) = .outside := if_neg hne

/-- Who sleeps here sleeps in the monitor. -/
theorem here_eq_asleep : here h p = .asleep o ↔ p = .asleep (h, o) := by
  cases p with
  | outside => simp
  | asleep w =>
    obtain ⟨h', o'⟩ := w
    by_cases hne : h' = h
    · subst hne
      simp
    · simp [here_asleep_of_ne hne, hne]
  | woken w =>
    obtain ⟨h', o'⟩ := w
    by_cases hne : h' = h
    · subst hne
      simp
    · simp [here_woken_of_ne hne]

theorem here_eq_woken : here h p = .woken o ↔ p = .woken (h, o) := by
  cases p with
  | outside => simp
  | asleep w =>
    obtain ⟨h', o'⟩ := w
    by_cases hne : h' = h
    · subst hne
      simp
    · simp [here_asleep_of_ne hne]
  | woken w =>
    obtain ⟨h', o'⟩ := w
    by_cases hne : h' = h
    · subst hne
      simp
    · simp [here_woken_of_ne hne, hne]

end Phase

end Monitor

open Monitor (Phase)

/-- **Clients whose programs act on data and operate on monitors**: the monitor and its
first state, which actions are operations, what the other actions do to the data, and
which programs a client at rest may start. -/
structure Monitored (C A : Type) (R : A → Type) (D K S O : Type) (RO : O → Type) (Λ : Type) where
  monitor : Monitor S O RO
  fresh : S
  kind : (a : A) → Monitor.Kind K O RO (R a)
  sem : C → (a : A) → D → R a → D → Prop
  start : C → Λ → Prog A R Λ → Prop

namespace Monitored

variable {C A D K S O Λ : Type} {R : A → Type} {RO : O → Type}

/-! ## Two levels -/

/-- **The data, and the state of the monitor of every key.** -/
structure Shared (D K S : Type) where
  data : D
  monitors : K → S

variable (N : Monitored C A R D K S O RO Λ)

section Steps

variable [DecidableEq C] [DecidableEq K]

/-- **An action where operations are atomic.** -/
inductive AtomicSem (c : C) : (a : A) → Shared D K S → R a → Shared D K S → Prop
  | data {a : A} {d d' : D} {m : K → S} {r : R a} (hkind : N.kind a = .data) (hsem : N.sem c a d r d') :
      AtomicSem c a ⟨d, m⟩ r ⟨d', m⟩
  | operation {a : A} {d : D} {m : K → S} {key : K} {o : O} {answer : RO o → R a} {s : S}
      {notify : Bool} {r : RO o} (hkind : N.kind a = .operation key o answer)
      (hturn : N.monitor.turn o (m key) = .done s notify r) :
      AtomicSem c a ⟨d, m⟩ (answer r) ⟨d, Function.update m key s⟩

/-- **The system in which operations are atomic.** -/
def atomic : System C A R (Shared D K S) Λ where
  sem := N.AtomicSem
  start := N.start

/-- **A state of the finer system**: the data; the table, and the monitors by their
handles; the handles each client was given; where each client waits, for which operation on
which handle; and what is left of its program. -/
structure Fine (C A : Type) (R : A → Type) (D K S O Λ : Type) where
  data : D
  table : K → Option ℕ
  heap : List S
  handles : C → K → Option ℕ
  phase : C → Phase (ℕ × O)
  prog : C → Prog A R Λ

variable {N}

/-- A client is at its turn of an operation: it has a handle for the key, or was woken. -/
def Fine.AtTurn (x : Fine C A R D K S O Λ) (c : C) (key : K) (o : O) (h : ℕ) : Prop :=
  x.phase c = .outside ∧ x.handles c key = some h ∨ x.phase c = .woken (h, o)

/-- The state of the monitor of every key; where there is none yet, the first. -/
def Fine.monitors (x : Fine C A R D K S O Λ) (fresh : S) (key : K) : S :=
  match x.table key with
  | none => fresh
  | some h => x.heap.getD h fresh

/-- **A notification of one monitor of many**: some who sleep there are woken, at least one
if there is one, and nobody else is. -/
structure NotifiesAt (h : ℕ) (phase phase' : C → Phase (ℕ × O)) : Prop where
  wakes : ∀ c, phase' c = phase c ∨ ∃ o, phase c = .asleep (h, o) ∧ phase' c = .woken (h, o)
  one : ∀ c o, phase c = .asleep (h, o) →
    ∃ d o', phase d = .asleep (h, o') ∧ phase' d = .woken (h, o')

variable (N)

/-- **One step of one client.** -/
inductive Step : Fine C A R D K S O Λ → Fine C A R D K S O Λ → Prop
  /-- An action on the data. -/
  | data {x : Fine C A R D K S O Λ} (c : C) (a : A) (k : R a → Prog A R Λ) (r : R a) (d : D)
      (hprog : x.prog c = .act a k) (hkind : N.kind a = .data) (hsem : N.sem c a x.data r d) :
      Step x { x with data := d, prog := Function.update x.prog c (k r) }
  /-- A client looks up a key that is in the table. -/
  | lookup {x : Fine C A R D K S O Λ} (c : C) (key : K) (h : ℕ) (hkey : x.table key = some h) :
      Step x { x with
        handles := Function.update x.handles c (Function.update (x.handles c) key (some h)) }
  /-- A client looks up a key that is not: a monitor is made for it. -/
  | create {x : Fine C A R D K S O Λ} (c : C) (key : K) (hkey : x.table key = none) :
      Step x { x with
        table := Function.update x.table key (some x.heap.length)
        heap := x.heap ++ [N.fresh]
        handles := Function.update x.handles c
          (Function.update (x.handles c) key (some x.heap.length)) }
  /-- A turn in which the operation has to wait. -/
  | sleep {x : Fine C A R D K S O Λ} (c : C) (a : A) (k : R a → Prog A R Λ) (key : K) (o : O)
      (answer : RO o → R a) (h : ℕ) (s : S) (hprog : x.prog c = .act a k)
      (hkind : N.kind a = .operation key o answer) (hat : x.AtTurn c key o h)
      (hheap : x.heap[h]? = some s) (hturn : N.monitor.turn o s = .sleep) :
      Step x { x with phase := Function.update x.phase c (.asleep (h, o)) }
  /-- A turn in which the operation is done, and notifies nobody. -/
  | done {x : Fine C A R D K S O Λ} (c : C) (a : A) (k : R a → Prog A R Λ) (key : K) (o : O)
      (answer : RO o → R a) (h : ℕ) (s s' : S) (r : RO o) (hprog : x.prog c = .act a k)
      (hkind : N.kind a = .operation key o answer) (hat : x.AtTurn c key o h)
      (hheap : x.heap[h]? = some s) (hturn : N.monitor.turn o s = .done s' false r) :
      Step x { x with
        heap := x.heap.set h s'
        phase := Function.update x.phase c .outside
        prog := Function.update x.prog c (k (answer r)) }
  /-- A turn in which it is done, and notifies those who sleep at this monitor. -/
  | notify {x : Fine C A R D K S O Λ} (c : C) (a : A) (k : R a → Prog A R Λ) (key : K) (o : O)
      (answer : RO o → R a) (h : ℕ) (s s' : S) (r : RO o) (phase : C → Phase (ℕ × O))
      (hprog : x.prog c = .act a k) (hkind : N.kind a = .operation key o answer)
      (hat : x.AtTurn c key o h) (hheap : x.heap[h]? = some s)
      (hturn : N.monitor.turn o s = .done s' true r)
      (hnotify : NotifiesAt h (Function.update x.phase c .outside) phase) :
      Step x { x with
        heap := x.heap.set h s'
        phase := phase
        prog := Function.update x.prog c (k (answer r)) }
  /-- A sleeper wakes by itself. -/
  | spurious {x : Fine C A R D K S O Λ} (c : C) (h : ℕ) (o : O) (hphase : x.phase c = .asleep (h, o)) :
      Step x { x with phase := Function.update x.phase c (.woken (h, o)) }
  /-- A client at rest starts a program. -/
  | start {x : Fine C A R D K S O Λ} (c : C) (l : Λ) (p : Prog A R Λ) (hprog : x.prog c = .ret l)
      (hstart : N.start c l p) : Step x { x with prog := Function.update x.prog c p }

/-- Any number of steps, of any clients in any order. -/
abbrev Run : Fine C A R D K S O Λ → Fine C A R D K S O Λ → Prop := Relation.ReflTransGen N.Step

end Steps

/-- Some data, no monitors, and clients that wait for nothing. -/
def Fine.initial (C : Type) {A D K S O Λ : Type} {R : A → Type} (d : D) (prog : C → Prog A R Λ) :
    Fine C A R D K S O Λ :=
  ⟨d, fun _ => none, [], fun _ _ => none, fun _ => .outside, prog⟩

/-- **What a state of the finer system is** where operations are atomic. -/
def coarse (x : Fine C A R D K S O Λ) : Config C A R (Shared D K S) Λ :=
  ⟨⟨x.data, x.monitors N.fresh⟩, x.prog⟩

/-! ## What holds of every state -/

/-- **Who waits is in an operation**: on the key whose handle it was given. -/
def Waits (table : K → Option ℕ) (p : Prog A R Λ) : Phase (ℕ × O) → Prop
  | .outside => True
  | .asleep w => ∃ a k key answer, p = .act a k ∧ N.kind a = .operation key w.2 answer
      ∧ table key = some w.1
  | .woken w => ∃ a k key answer, p = .act a k ∧ N.kind a = .operation key w.2 answer
      ∧ table key = some w.1

/-- **The joint invariant**: the table gives every key a monitor of its own; a handle once
given is that of the table; who waits is in an operation on its key; and at every monitor no
waiter is stranded. -/
structure Inv (I Blocked : S → Prop) (x : Fine C A R D K S O Λ) : Prop where
  table_lt : ∀ {key h}, x.table key = some h → h < x.heap.length
  table_inj : ∀ {key key' h}, x.table key = some h → x.table key' = some h → key = key'
  handles : ∀ {c key h}, x.handles c key = some h → x.table key = some h
  waits : ∀ c, N.Waits x.table (x.prog c) (x.phase c)
  awake : ∀ {h s}, x.heap[h]? = some s →
    Monitor.Awake N.monitor I Blocked ⟨s, Phase.here h ∘ x.phase, []⟩

variable {N} {I Blocked : S → Prop} {x y : Fine C A R D K S O Λ}

/-- Waiting looks at the keys that are in the table, which stay there. -/
theorem Waits.mono {table table' : K → Option ℕ} {p : Prog A R Λ} {f : Phase (ℕ × O)}
    (h : N.Waits table p f) (htable : ∀ {key h}, table key = some h → table' key = some h) :
    N.Waits table' p f := by
  cases f with
  | outside => trivial
  | asleep w =>
    obtain ⟨a, k, key, answer, hp, hkind, hkey⟩ := h
    exact ⟨a, k, key, answer, hp, hkind, htable hkey⟩
  | woken w =>
    obtain ⟨a, k, key, answer, hp, hkind, hkey⟩ := h
    exact ⟨a, k, key, answer, hp, hkind, htable hkey⟩

/-- A client whose program is not at an operation waits for nothing. -/
theorem Waits.eq_outside {table : K → Option ℕ} {p : Prog A R Λ} {f : Phase (ℕ × O)}
    (h : N.Waits table p f) (hp : ∀ a k, p = .act a k → N.kind a = .data) : f = .outside := by
  cases f with
  | outside => rfl
  | asleep w =>
    obtain ⟨a, k, key, answer, hact, hkind, -⟩ := h
    exact absurd ((hp a k hact).symm.trans hkind) (by simp)
  | woken w =>
    obtain ⟨a, k, key, answer, hact, hkind, -⟩ := h
    exact absurd ((hp a k hact).symm.trans hkind) (by simp)

/-- A notification, as the monitor sees it. -/
theorem NotifiesAt.here {h : ℕ} {phase phase' : C → Phase (ℕ × O)} (hn : NotifiesAt h phase phase') :
    Monitor.Notifies (Phase.here h ∘ phase) (Phase.here h ∘ phase') := by
  refine ⟨fun c => ?_, fun c o hc => ?_⟩
  · cases hn.wakes c with
    | inl hsame => exact Or.inl (congrArg (Phase.here h) hsame)
    | inr hwoken =>
      obtain ⟨o, hasleep, hwoken⟩ := hwoken
      exact Or.inr ⟨o, by simp [hasleep], by simp [hwoken]⟩
  · obtain ⟨d, o', hasleep, hwoken⟩ := hn.one c o (Phase.here_eq_asleep.mp hc)
    exact ⟨d, o', by simp [hasleep], by simp [hwoken]⟩

/-- The others do not see it. -/
theorem NotifiesAt.here_of_ne {h h' : ℕ} {phase phase' : C → Phase (ℕ × O)}
    (hn : NotifiesAt h phase phase') (hne : h' ≠ h) :
    Phase.here h' ∘ phase' = Phase.here h' ∘ phase := by
  funext c
  show Phase.here h' (phase' c) = Phase.here h' (phase c)
  cases hn.wakes c with
  | inl hsame => rw [hsame]
  | inr hwoken =>
    obtain ⟨o, hasleep, hwoken⟩ := hwoken
    rw [hasleep, hwoken, Phase.here_woken_of_ne (Ne.symm hne), Phase.here_asleep_of_ne (Ne.symm hne)]

namespace Inv

/-- The monitor a client is at its turn on is that of its key. -/
theorem table_of_atTurn (hI : Inv N I Blocked x) {c : C} {a : A} {k : R a → Prog A R Λ} {key : K}
    {o : O} {answer : RO o → R a} {h : ℕ} (hprog : x.prog c = .act a k)
    (hkind : N.kind a = .operation key o answer) (hat : x.AtTurn c key o h) :
    x.table key = some h := by
  cases hat with
  | inl hout => exact hI.handles hout.2
  | inr hwoken =>
    have hwaits := hI.waits c
    rw [hwoken] at hwaits
    obtain ⟨a', k', key', answer', hprog', hkind', hkey⟩ := hwaits
    rw [hprog] at hprog'
    obtain ⟨rfl, -⟩ := Prog.act.inj hprog'
    rw [hkind] at hkind'
    exact (Monitor.Kind.operation.inj hkind').1 ▸ hkey

theorem monitors_of_table {key : K} {h : ℕ} {s : S} (hkey : x.table key = some h)
    (hheap : x.heap[h]? = some s) : x.monitors N.fresh key = s := by
  simp [Fine.monitors, hkey, hheap]

theorem here_of_atTurn {c : C} {key : K} {o : O} {h : ℕ} (hat : x.AtTurn c key o h) :
    (Phase.here h ∘ x.phase) c = .outside ∨ (Phase.here h ∘ x.phase) c = .woken o := by
  cases hat with
  | inl hout => exact Or.inl (by simp [hout.1])
  | inr hwoken => exact Or.inr (by simp [hwoken])

theorem here_of_atTurn_of_ne {c : C} {key : K} {o : O} {h h' : ℕ} (hat : x.AtTurn c key o h)
    (hne : h' ≠ h) : Phase.here h' (x.phase c) = .outside := by
  cases hat with
  | inl hout => rw [hout.1, Phase.here_outside]
  | inr hwoken => rw [hwoken, Phase.here_woken_of_ne (Ne.symm hne)]

end Inv

/-! ## One step -/

variable [DecidableEq C]

theorem here_comp_update {h : ℕ} {phase : C → Phase (ℕ × O)} {c : C} {f : Phase (ℕ × O)}
    (hf : Phase.here h f = Phase.here h (phase c)) :
    Phase.here h ∘ Function.update phase c f = Phase.here h ∘ phase := by
  rw [Function.comp_update, hf]
  exact Function.update_eq_self c (Phase.here h ∘ phase)

namespace Inv

/-- **A step of one monitor strands no waiter at any**, if the others see nothing of it. -/
theorem awake_set (hM : N.monitor.Wakes I Blocked) (hI : Inv N I Blocked x) {h : ℕ} {s s' : S}
    {l : List (Σ o, RO o)} {phase : C → Phase (ℕ × O)} (hheap : x.heap[h]? = some s)
    (hstep : Monitor.Step N.monitor ⟨s, Phase.here h ∘ x.phase, []⟩ ⟨s', Phase.here h ∘ phase, l⟩)
    (hothers : ∀ h' ≠ h, Phase.here h' ∘ phase = Phase.here h' ∘ x.phase) {h' : ℕ} {t : S}
    (ht : (x.heap.set h s')[h']? = some t) :
    Monitor.Awake N.monitor I Blocked ⟨t, Phase.here h' ∘ phase, []⟩ := by
  by_cases hne : h' = h
  · subst hne
    have hlt : h' < x.heap.length := (List.getElem?_eq_some_iff.mp hheap).1
    obtain rfl : s' = t := by simpa [hlt] using ht
    have hnext := (hI.awake hheap).step hM hstep
    exact ⟨hnext.inv, hnext.waits, hnext.woken⟩
  · rw [List.getElem?_set_ne (Ne.symm hne)] at ht
    rw [hothers h' hne]
    exact hI.awake ht

theorem awake_phase (hM : N.monitor.Wakes I Blocked) (hI : Inv N I Blocked x) {h : ℕ} {s : S}
    {phase : C → Phase (ℕ × O)} (hheap : x.heap[h]? = some s)
    (hstep : Monitor.Step N.monitor ⟨s, Phase.here h ∘ x.phase, []⟩ ⟨s, Phase.here h ∘ phase, []⟩)
    (hothers : ∀ h' ≠ h, Phase.here h' ∘ phase = Phase.here h' ∘ x.phase) {h' : ℕ} {t : S}
    (ht : x.heap[h']? = some t) :
    Monitor.Awake N.monitor I Blocked ⟨t, Phase.here h' ∘ phase, []⟩ := by
  refine hI.awake_set hM hheap hstep hothers ?_
  obtain ⟨hlt, rfl⟩ := List.getElem?_eq_some_iff.mp hheap
  rwa [List.set_getElem_self]

/-- **A turn that is done**, whomever it notified, keeps the invariant. -/
theorem done (hI : Inv N I Blocked x) {c : C} {h : ℕ} {s : S} {p : Prog A R Λ}
    {phase : C → Phase (ℕ × O)} (hc : phase c = .outside)
    (hphase : ∀ d ≠ c, N.Waits x.table (x.prog d) (phase d))
    (hawake : ∀ {h' t}, (x.heap.set h s)[h']? = some t →
      Monitor.Awake N.monitor I Blocked ⟨t, Phase.here h' ∘ phase, []⟩) :
    Inv N I Blocked { x with
      heap := x.heap.set h s, phase := phase, prog := Function.update x.prog c p } where
  table_lt hkey := by simpa using hI.table_lt hkey
  table_inj := hI.table_inj
  handles := hI.handles
  waits d := by
    by_cases hd : d = c
    · subst hd
      show N.Waits x.table _ (phase d)
      rw [hc]
      trivial
    · show N.Waits x.table (Function.update x.prog c p d) (phase d)
      rw [Function.update_of_ne hd]
      exact hphase d hd
  awake := hawake

/-- **Where a client waits** changes, and nothing else. -/
theorem phase (hI : Inv N I Blocked x) {c : C} {f : Phase (ℕ × O)}
    (hf : N.Waits x.table (x.prog c) f)
    (hawake : ∀ {h t}, x.heap[h]? = some t →
      Monitor.Awake N.monitor I Blocked ⟨t, Phase.here h ∘ Function.update x.phase c f, []⟩) :
    Inv N I Blocked { x with phase := Function.update x.phase c f } where
  table_lt := hI.table_lt
  table_inj := hI.table_inj
  handles := hI.handles
  waits d := by
    show N.Waits x.table (x.prog d) (Function.update x.phase c f d)
    by_cases hd : d = c
    · subst hd
      rw [Function.update_self]
      exact hf
    · rw [Function.update_of_ne hd]
      exact hI.waits d
  awake := hawake

/-- **A client that waits for nothing goes on**, with its program or another. -/
theorem prog (hI : Inv N I Blocked x) {c : C} (hc : x.phase c = .outside) (d : D) (p : Prog A R Λ) :
    Inv N I Blocked { x with data := d, prog := Function.update x.prog c p } where
  table_lt := hI.table_lt
  table_inj := hI.table_inj
  handles := hI.handles
  waits e := by
    show N.Waits x.table (Function.update x.prog c p e) (x.phase e)
    by_cases he : e = c
    · subst he
      rw [hc]
      trivial
    · rw [Function.update_of_ne he]
      exact hI.waits e
  awake := hI.awake

variable [DecidableEq K]

omit [DecidableEq C] [DecidableEq K] in
/-- Nobody waits at a handle that is not given out. -/
theorem here_length (hI : Inv N I Blocked x) :
    Phase.here x.heap.length ∘ x.phase = fun _ => .outside := by
  funext c
  have hwaits := hI.waits c
  show Phase.here x.heap.length (x.phase c) = .outside
  generalize x.phase c = f at hwaits ⊢
  cases f with
  | outside => rfl
  | asleep w =>
    obtain ⟨a, k, key, answer, -, -, hkey⟩ := hwaits
    exact Phase.here_asleep_of_ne (Nat.ne_of_lt (hI.table_lt hkey))
  | woken w =>
    obtain ⟨a, k, key, answer, -, -, hkey⟩ := hwaits
    exact Phase.here_woken_of_ne (Nat.ne_of_lt (hI.table_lt hkey))

omit [DecidableEq C] in
/-- A key that is put in the table gets a handle that no other key has. -/
theorem table_update {key key' : K} {h : ℕ}
    (hkey' : Function.update x.table key (some x.heap.length) key' = some h) :
    key' = key ∧ h = x.heap.length ∨ key' ≠ key ∧ x.table key' = some h := by
  by_cases heq : key' = key
  · subst heq
    rw [Function.update_self] at hkey'
    exact Or.inl ⟨rfl, (Option.some.inj hkey').symm⟩
  · rw [Function.update_of_ne heq] at hkey'
    exact Or.inr ⟨heq, hkey'⟩

/-- **A monitor is made** for a key that has none. -/
theorem create (hfresh : I N.fresh) (hI : Inv N I Blocked x) {c : C} {key : K}
    (hkey : x.table key = none) :
    Inv N I Blocked { x with
      table := Function.update x.table key (some x.heap.length)
      heap := x.heap ++ [N.fresh]
      handles := Function.update x.handles c
        (Function.update (x.handles c) key (some x.heap.length)) } := by
  have hstays : ∀ {key' h}, x.table key' = some h →
      Function.update x.table key (some x.heap.length) key' = some h := by
    intro key' h hkey'
    have hne : key' ≠ key := fun heq => by simp [heq, hkey] at hkey'
    rw [Function.update_of_ne hne]
    exact hkey'
  refine ⟨fun hk => ?_, fun hk hk' => ?_, fun {d key' h} hd => ?_, fun d => (hI.waits d).mono hstays,
    fun {h t} ht => ?_⟩
  · rw [List.length_append, List.length_singleton]
    cases table_update hk with
    | inl hnew => omega
    | inr hold => exact Nat.lt_succ_of_lt (hI.table_lt hold.2)
  · -- the new handle is not that of another key
    cases table_update hk with
    | inl hnew =>
      cases table_update hk' with
      | inl hnew' => exact hnew.1.trans hnew'.1.symm
      | inr hold' => exact absurd (hI.table_lt hold'.2) (by omega)
    | inr hold =>
      cases table_update hk' with
      | inl hnew' => exact absurd (hI.table_lt hold.2) (by omega)
      | inr hold' => exact hI.table_inj hold.2 hold'.2
  · change Function.update x.handles c _ d key' = some h at hd
    by_cases hdc : d = c
    · subst hdc
      rw [Function.update_self] at hd
      by_cases heq : key' = key
      · subst heq
        rw [Function.update_self] at hd
        exact (Function.update_self _ _ _).trans hd
      · rw [Function.update_of_ne heq] at hd
        exact hstays (hI.handles hd)
    · rw [Function.update_of_ne hdc] at hd
      exact hstays (hI.handles hd)
  · change (x.heap ++ [N.fresh])[h]? = some t at ht
    by_cases hlt : h < x.heap.length
    · rw [List.getElem?_append_left hlt] at ht
      exact hI.awake ht
    · rw [List.getElem?_append_right (Nat.le_of_not_lt hlt), List.getElem?_singleton] at ht
      split at ht
      · obtain rfl : N.fresh = t := Option.some.inj ht
        obtain rfl : h = x.heap.length := by omega
        rw [hI.here_length]
        exact Monitor.Awake.initial hfresh
      · cases ht

/-- A handle is given to a client. -/
theorem lookup (hI : Inv N I Blocked x) {c : C} {key : K} {h : ℕ} (hkey : x.table key = some h) :
    Inv N I Blocked { x with
      handles := Function.update x.handles c (Function.update (x.handles c) key (some h)) } where
  table_lt := hI.table_lt
  table_inj := hI.table_inj
  waits := hI.waits
  awake := hI.awake
  handles := by
    intro d key' h' hd
    change Function.update x.handles c _ d key' = some h' at hd
    by_cases hdc : d = c
    · subst hdc
      rw [Function.update_self] at hd
      by_cases heq : key' = key
      · subst heq
        rw [Function.update_self] at hd
        exact hkey.trans hd
      · rw [Function.update_of_ne heq] at hd
        exact hI.handles hd
    · rw [Function.update_of_ne hdc] at hd
      exact hI.handles hd

/-- **Every step keeps the invariant.** -/
theorem step (hM : N.monitor.Wakes I Blocked) (hfresh : I N.fresh) (hI : Inv N I Blocked x)
    (hstep : N.Step x y) : Inv N I Blocked y := by
  cases hstep with
  | data c a k r d hprog hkind hsem =>
    have hout : x.phase c = .outside := (hI.waits c).eq_outside (fun a' k' hprog' => by
      rw [hprog] at hprog'
      exact (Prog.act.inj hprog').1 ▸ hkind)
    exact hI.prog hout d (k r)
  | lookup c key h hkey => exact hI.lookup hkey
  | create c key hkey => exact hI.create hfresh hkey
  | sleep c a k key o answer h s hprog hkind hat hheap hturn =>
    have htable := hI.table_of_atTurn hprog hkind hat
    have hsleep := Monitor.Step.sleep (M := N.monitor)
      (x := ⟨s, Phase.here h ∘ x.phase, []⟩) c o (here_of_atTurn hat) hturn
    refine hI.phase ⟨a, k, key, answer, hprog, hkind, htable⟩ (fun {h' t} ht => ?_)
    refine hI.awake_phase hM hheap ?_ (fun h' hne => ?_) ht
    · rw [Function.comp_update, Phase.here_asleep_self]
      exact hsleep
    · exact here_comp_update ((Phase.here_asleep_of_ne hne.symm).trans
        (here_of_atTurn_of_ne hat hne).symm)
  | done c a k key o answer h s s' r hprog hkind hat hheap hturn =>
    have hdone := Monitor.Step.done (M := N.monitor)
      (x := ⟨s, Phase.here h ∘ x.phase, []⟩) c o s' r (here_of_atTurn hat) hturn
    refine hI.done (Function.update_self _ _ _) (fun d hd => ?_) (fun {h' t} ht => ?_)
    · rw [Function.update_of_ne hd]
      exact hI.waits d
    · refine hI.awake_set (l := [⟨o, r⟩]) hM hheap ?_ (fun h' hne => ?_) ht
      · rw [Function.comp_update, Phase.here_outside]
        exact hdone
      · exact here_comp_update (here_of_atTurn_of_ne hat hne).symm
  | notify c a k key o answer h s s' r phase hprog hkind hat hheap hturn hnotify =>
    have hhere := hnotify.here
    rw [Function.comp_update, Phase.here_outside] at hhere
    have hdone := Monitor.Step.notify (M := N.monitor)
      (x := ⟨s, Phase.here h ∘ x.phase, []⟩) c o s' r (Phase.here h ∘ phase) (here_of_atTurn hat)
      hturn hhere
    -- whoever is woken slept at the same place
    have hphase : ∀ d, N.Waits x.table (x.prog d) (Function.update x.phase c .outside d) →
        N.Waits x.table (x.prog d) (phase d) := by
      intro d hd
      cases hnotify.wakes d with
      | inl hsame => exact hsame ▸ hd
      | inr hwoken =>
        obtain ⟨o', hasleep, hwoken⟩ := hwoken
        rw [hasleep] at hd
        rw [hwoken]
        exact hd
    have hc : phase c = .outside := by
      cases hnotify.wakes c with
      | inl hsame => rw [hsame, Function.update_self]
      | inr hwoken =>
        obtain ⟨o', hasleep, -⟩ := hwoken
        rw [Function.update_self] at hasleep
        cases hasleep
    refine hI.done hc (fun d hd => hphase d ?_) (fun {h' t} ht => ?_)
    · rw [Function.update_of_ne hd]
      exact hI.waits d
    · refine hI.awake_set hM hheap hdone (fun h' hne => ?_) ht
      rw [hnotify.here_of_ne hne]
      exact here_comp_update (here_of_atTurn_of_ne hat hne).symm
  | spurious c h o hphase =>
    have hwaits := hI.waits c
    rw [hphase] at hwaits
    refine hI.phase hwaits (fun {h' t} ht => ?_)
    obtain ⟨a, k, key, answer, -, -, hkey⟩ := hwaits
    obtain ⟨s, hheap⟩ : ∃ s, x.heap[h]? = some s :=
      ⟨_, List.getElem?_eq_getElem (hI.table_lt hkey)⟩
    have hwake := Monitor.Step.spurious (M := N.monitor)
      (x := ⟨s, Phase.here h ∘ x.phase, []⟩) c o (by simp [hphase])
    refine hI.awake_phase hM hheap ?_ (fun h' hne => ?_) ht
    · rw [Function.comp_update, Phase.here_woken_self]
      exact hwake
    · exact here_comp_update (by
        rw [hphase, Phase.here_asleep_of_ne hne.symm, Phase.here_woken_of_ne hne.symm])
  | start c l p hprog hstart =>
    have hout : x.phase c = .outside := (hI.waits c).eq_outside (fun a' k' hprog' => by
      rw [hprog] at hprog'
      cases hprog')
    exact hI.prog hout x.data p

omit [DecidableEq C] [DecidableEq K] in
theorem initial (d : D) (prog : C → Prog A R Λ) : Inv N I Blocked (Fine.initial C d prog) where
  table_lt hkey := by cases hkey
  table_inj hkey := by cases hkey
  handles hkey := by cases hkey
  waits _ := trivial
  awake ht := by cases ht

/-- **And so does every run.** -/
theorem run (hM : N.monitor.Wakes I Blocked) (hfresh : I N.fresh) (hI : Inv N I Blocked x)
    (hrun : N.Run x y) : Inv N I Blocked y := by
  induction hrun with
  | refl => exact hI
  | tail _ hstep ih => exact ih.step hM hfresh hstep

end Inv

/-! ## The refinement -/

variable [DecidableEq K]

omit [DecidableEq C] in
/-- The monitor of one key is left in another state, and those of the other keys as they are. -/
theorem Inv.monitors_set (hI : Inv N I Blocked x) {key : K} {h : ℕ} (hkey : x.table key = some h)
    (s : S) (phase : C → Phase (ℕ × O)) (prog : C → Prog A R Λ) :
    Fine.monitors { x with heap := x.heap.set h s, phase := phase, prog := prog } N.fresh
      = Function.update (x.monitors N.fresh) key s := by
  funext key'
  by_cases heq : key' = key
  · subst heq
    rw [Function.update_self]
    have hlt := hI.table_lt hkey
    simp [Fine.monitors, hkey, hlt]
  · rw [Function.update_of_ne heq]
    simp only [Fine.monitors]
    cases hkey' : x.table key' with
    | none => rfl
    | some h' =>
      have hne : h ≠ h' := fun hh => heq (hI.table_inj (hh ▸ hkey') hkey)
      simp [List.getElem?_set_ne hne]

omit [DecidableEq C] in
/-- A monitor that is made is in the state it was taken to be in. -/
theorem Inv.monitors_create (hI : Inv N I Blocked x) {key : K} (hkey : x.table key = none)
    (handles : C → K → Option ℕ) :
    Fine.monitors { x with
      table := Function.update x.table key (some x.heap.length)
      heap := x.heap ++ [N.fresh]
      handles := handles } N.fresh = x.monitors N.fresh := by
  funext key'
  by_cases heq : key' = key
  · subst heq
    simp [Fine.monitors, hkey]
  · simp only [Fine.monitors, Function.update_of_ne heq]
    cases hkey' : x.table key' with
    | none => rfl
    | some h' =>
      have hlt := hI.table_lt hkey'
      simp [List.getElem?_append_left hlt]

/-- **A turn that is done is the atomic operation.** -/
theorem Inv.atomic_of_done (hI : Inv N I Blocked x) {c : C} {a : A} {k : R a → Prog A R Λ} {key : K}
    {o : O} {answer : RO o → R a} {h : ℕ} {s s' : S} {notify : Bool} {r : RO o}
    (phase : C → Phase (ℕ × O)) (hprog : x.prog c = .act a k)
    (hkind : N.kind a = .operation key o answer) (hkey : x.table key = some h)
    (hheap : x.heap[h]? = some s) (hturn : N.monitor.turn o s = .done s' notify r) :
    N.atomic.Step (N.coarse x) (N.coarse { x with
      heap := x.heap.set h s'
      phase := phase
      prog := Function.update x.prog c (k (answer r)) }) := by
  have hturn' : N.monitor.turn o (x.monitors N.fresh key) = .done s' notify r := by
    rw [Inv.monitors_of_table hkey hheap]
    exact hturn
  have hstep := System.Step.act (M := N.atomic) (x := N.coarse x) c a k (answer r) _ hprog
    (.operation hkind hturn')
  unfold coarse
  rw [hI.monitors_set hkey]
  exact hstep

/-- **A step is an atomic one, or none.** -/
theorem Inv.step_coarse (hI : Inv N I Blocked x) (hstep : N.Step x y) :
    N.coarse y = N.coarse x ∨ N.atomic.Step (N.coarse x) (N.coarse y) := by
  cases hstep with
  | data c a k r d hprog hkind hsem =>
    exact Or.inr (System.Step.act (M := N.atomic) (x := N.coarse x) c a k r _ hprog
      (.data hkind hsem))
  | lookup c key h hkey => exact Or.inl rfl
  | create c key hkey =>
    refine Or.inl ?_
    unfold coarse
    rw [hI.monitors_create hkey]
  | sleep c a k key o answer h s hprog hkind hat hheap hturn => exact Or.inl rfl
  | done c a k key o answer h s s' r hprog hkind hat hheap hturn =>
    exact Or.inr (hI.atomic_of_done _ hprog hkind (hI.table_of_atTurn hprog hkind hat) hheap hturn)
  | notify c a k key o answer h s s' r phase hprog hkind hat hheap hturn hnotify =>
    exact Or.inr (hI.atomic_of_done _ hprog hkind (hI.table_of_atTurn hprog hkind hat) hheap hturn)
  | spurious c h o hphase => exact Or.inl rfl
  | start c l p hprog hstart =>
    exact Or.inr (System.Step.start (M := N.atomic) (x := N.coarse x) c l p hprog hstart)

/-- **The finer system refines the one with atomic operations.** -/
theorem Inv.run_atomic (hM : N.monitor.Wakes I Blocked) (hfresh : I N.fresh) (hI : Inv N I Blocked x)
    (hrun : N.Run x y) : N.atomic.Run (N.coarse x) (N.coarse y) := by
  induction hrun with
  | refl => exact .refl
  | tail hrun hstep ih =>
    cases (hI.run hM hfresh hrun).step_coarse hstep with
    | inl hsame => exact hsame ▸ ih
    | inr hatomic => exact ih.tail hatomic

theorem run_atomic (hM : N.monitor.Wakes I Blocked) (hfresh : I N.fresh) {d : D}
    {prog : C → Prog A R Λ} (hrun : N.Run (.initial C d prog) y) :
    N.atomic.Run ⟨⟨d, fun _ => N.fresh⟩, prog⟩ (N.coarse y) :=
  (Inv.initial d prog).run_atomic hM hfresh hrun

/-! ## Waiting -/

omit [DecidableEq C] in
/-- **Who sleeps where nobody is woken is blocked**: its next action is none that the atomic
system can perform. -/
theorem Inv.blocked_of_asleep (hI : Inv N I Blocked x)
    (hsleeps : ∀ {o s}, I s → Blocked s → N.monitor.CanSleep I o → N.monitor.turn o s = .sleep)
    {c : C} {h : ℕ} {o : O} (hc : x.phase c = .asleep (h, o))
    (hnone : ∀ d o', x.phase d ≠ .woken (h, o')) {a : A} {k : R a → Prog A R Λ}
    (hprog : x.prog c = .act a k) (r : R a) (t : Shared D K S) :
    ¬ N.AtomicSem c a (N.coarse x).shared r t := by
  have hwaits := hI.waits c
  rw [hc] at hwaits
  obtain ⟨a', k', key, answer, hprog', hkind, hkey⟩ := hwaits
  rw [hprog] at hprog'
  obtain ⟨rfl, -⟩ := Prog.act.inj hprog'
  obtain ⟨s, hheap⟩ : ∃ s, x.heap[h]? = some s := ⟨_, List.getElem?_eq_getElem (hI.table_lt hkey)⟩
  have hawake := hI.awake hheap
  have hhere : (Phase.here h ∘ x.phase) c = .asleep o := by simp [hc]
  -- were the state free, somebody would be woken there
  have hblocked : Blocked s := by
    by_contra hfree
    obtain ⟨d, o', hd⟩ := hawake.woken hfree c o hhere
    exact hnone d o' (Phase.here_eq_woken.mp hd)
  have hturn : N.monitor.turn o s = .sleep :=
    hsleeps hawake.inv hblocked (hawake.waits c o (Or.inl hhere))
  intro hsem
  cases hsem with
  | data hkind' hsem =>
    rw [hkind] at hkind'
    cases hkind'
  | operation hkind' hturn' =>
    rw [hkind] at hkind'
    obtain ⟨rfl, rfl, -⟩ := Monitor.Kind.operation.inj hkind'
    rw [show x.monitors N.fresh key = s from Inv.monitors_of_table hkey hheap, hturn] at hturn'
    cases hturn'

omit [DecidableEq C] in
/-- **The waiting of the finer system is that of the atomic one**: as long as a client could
perform its next action there, one in the middle of a program is not asleep here. -/
theorem Inv.awake_of_enabled (hI : Inv N I Blocked x)
    (hsleeps : ∀ {o s}, I s → Blocked s → N.monitor.CanSleep I o → N.monitor.turn o s = .sleep)
    {c : C} {a : A} {k : R a → Prog A R Λ} (hprog : x.prog c = .act a k) {r : R a}
    {t : Shared D K S} (hsem : N.AtomicSem c a (N.coarse x).shared r t) :
    ∃ d a' k', x.prog d = .act a' k' ∧ ∀ w, x.phase d ≠ .asleep w := by
  by_cases hc : ∃ w, x.phase c = .asleep w
  · obtain ⟨⟨h, o⟩, hc⟩ := hc
    by_cases hwoken : ∃ d o', x.phase d = .woken (h, o')
    · obtain ⟨d, o', hd⟩ := hwoken
      have hwaits := hI.waits d
      rw [hd] at hwaits
      obtain ⟨a', k', -, -, hprog', -⟩ := hwaits
      exact ⟨d, a', k', hprog', by simp [hd]⟩
    · exact absurd hsem (hI.blocked_of_asleep hsleeps hc
        (fun d o' hd => hwoken ⟨d, o', hd⟩) hprog r t)
  · exact ⟨c, a, k, hprog, fun w hw => hc ⟨w, hw⟩⟩

end Monitored
