import Mathlib.Data.Finset.Max
import Sourced.InMemoryLockManager
import Sourced.LockOrder
import Sourced.QueuedSessions

/-!
# Sessions over the in-memory locks

The sessions of `QueuedSessions` over the locks of an `InMemoryLockManager`: the clients
look up locks, sleep in their monitors and are woken. The locks still do what they are for
(`LockedSessions.isolated`): no call fails, no two clients are in sessions of one id, and
the streams are what was committed, one commit after the other.

And the clients keep moving (`LockedSessions.no_deadlock`): if all who are in the middle of a
call are asleep, one of them waits for an id that is in the session of a client between two
calls. So it is a session that somebody keeps open, and never the locks themselves, that
holds the others up. The reason is the order in which the locks of one request are taken.
-/

namespace LockedSessions

variable {C : Type} [DecidableEq C]

/-- The clients, with their sessions, and the locks of a manager. -/
abbrev State (C : Type) : Type := InMemoryLockManager.State C QueuedSessions.Session

/-- **Clients with sessions over the locks of a manager.** -/
abbrev clients (C : Type) :
    Monitored C RepoAction RepoAction.Resp InMemoryLockManager.Stores String InMemoryLock LockOp
      LockOp.Resp QueuedSessions.Session :=
  InMemoryLockManager.clients (fun _ : C => QueuedSessions.Start)

/-- Stores with some content, a new manager, and clients between sessions. -/
abbrev initial (C : Type) (d : InMemoryLockManager.Stores) : State C :=
  .initial C d (fun _ => .ret .idle)

/-! ## The history of a run -/

theorem exists_sem {c : C} {a : RepoAction} {h : LockHistory C} {r : a.Resp} {s : Shared}
    (hsem : a.Sem h.shared r s) : ∃ h' : LockHistory C, h'.shared = s ∧ LockHistory.Sem c a h r h' :=
  ⟨⟨⟨s, h.log ++ History.committed a r⟩,
    Function.update h.held c (LockHistory.heldAfter a r (h.held c))⟩, rfl, ⟨hsem, rfl⟩, rfl⟩

/-- **What the clients have done over the locks** is a run of sessions over flags, with its
history. -/
theorem history_of_run {d : InMemoryLockManager.Stores} {x : State C}
    (hrun : (clients C).Run (initial C d) x) :
    ∃ h : LockHistory C, h.shared = (InMemoryLockManager.config x).shared
      ∧ (QueuedSessions.system C).Run (QueuedSessions.initial C (d.withLocks (fun _ => false)))
          ⟨h, x.prog⟩ :=
  System.Run.recorded (N := QueuedSessions.system C) (fun hsem => exists_sem hsem) (fun hs => hs)
    (InMemoryLockManager.run_config hrun).1 rfl

/-! ## Isolation -/

/-- **What a session holds**: nothing between sessions, and the ids asked for within one. -/
def Keeps : QueuedSessions.Session → Finset String → Prop
  | .idle, o => o = ∅
  | .working ids _, o => o = ids.toFinset
  | .failed _, _ => True

open Known (Never)

theorem sdiff_eq_empty {ids order : List String} (hids : ∀ id, id ∈ order ↔ id ∈ ids) :
    ids.toFinset \ order.toFinset = ∅ := by
  ext id
  simp [hids id]

/-- **Every program of a session takes its locks in order.** -/
theorem wp_start {l : QueuedSessions.Session} {p : RepoProg QueuedSessions.Session} {o : Finset String}
    (hl : Keeps l o)
    (h : QueuedSessions.Start l p) : LockOrder.protocol.wp Keeps p o := by
  cases h with
  | getOne id =>
    obtain rfl : o = ∅ := hl
    rw [Protocol.wp_map]
    refine Protocol.wp_andThen_ok _ (fun _ o' ho' => ?_)
      (LockOrder.wp_acquire (fun id' hid' => absurd hid' (Finset.notMem_empty id')))
    subst ho'
    refine ⟨trivial, fun r o' ho' => ?_⟩
    obtain rfl : o' = insert id ∅ := ho'.1
    cases r with
    | error f => trivial
    | ok entity => simp [Keeps, QueuedSessions.Session.read, Except.map]
  | getMany ids =>
    obtain rfl : o = ∅ := hl
    rw [Protocol.wp_map]
    refine Protocol.wp_andThen_ok _ (fun _ o' ho' => ?_)
      (LockOrder.wp_acquireAll (QueuedRepository.pairwise_sortDedup ids))
    subst ho'
    refine Protocol.wp_mono _ (fun r o' ho' => ?_) (LockOrder.wp_hashMap_getMany _ ids)
    subst ho'
    cases r with
    | error f => trivial
    | ok es =>
      show (QueuedRepository.sortDedup ids).toFinset = ids.toFinset
      ext id
      simp
  | create id hid hmissing => exact hl
  | work h hid => exact hl
  | @commit ids es batch hsub hnd hids =>
    obtain rfl : o = ids.toFinset := hl
    rw [Protocol.wp_map]
    show LockOrder.protocol.wp _ (Prog.bind (RepoProg.perform (RepoAction.commit batch)) _) _
    refine ⟨trivial, fun r o' ho' => ?_⟩
    obtain rfl : o' = ids.toFinset := ho'.1
    obtain ⟨r, es'⟩ := r
    cases r with
    | error f => trivial
    | ok u =>
      show LockOrder.protocol.wp _ (Prog.map _ _) _
      rw [Protocol.wp_map]
      refine Protocol.wp_mono_ok _ (fun _ o' ho' => ?_)
        (LockOrder.wp_releaseAll (batch.map Entity.id) ids.toFinset)
      exact ho'.trans (sdiff_eq_empty hids)
  | @abort ids es order hnd hids =>
    obtain rfl : o = ids.toFinset := hl
    rw [Protocol.wp_map]
    refine Protocol.wp_mono_ok _ (fun _ o' ho' => ?_) (LockOrder.wp_releaseAll order ids.toFinset)
    exact ho'.trans (sdiff_eq_empty hids)

/-- What holds of the locks in every state: a lock that is taken is held by somebody. -/
theorem held_of_locked {s : Shared} (hs : ∀ id, s.locked id = false)
    {x : Config C RepoAction RepoAction.Resp (LockHistory C) QueuedSessions.Session}
    (hrun : (QueuedSessions.system C).Run (QueuedSessions.initial C s) x) {id : String}
    (hlocked : x.shared.shared.locked id = true) : ∃ c, id ∈ x.shared.held c := by
  induction hrun generalizing id with
  | refl => exact absurd ((hs id).symm.trans hlocked) Bool.false_ne_true
  | tail _ hstep ih =>
    cases hstep with
    | start c l p hprog hstart => exact ih hlocked
    | act c a k r h' hprog hsem => exact LockHistory.held_of_sem (fun id => ih) hsem hlocked

/-- **A client that waits for a lock holds only ids below the one it waits for.** -/
theorem held_lt_awaited {s : Shared}
    {x : Config C RepoAction RepoAction.Resp (LockHistory C) QueuedSessions.Session}
    (hrun : (QueuedSessions.system C).Run (QueuedSessions.initial C s) x) {c : C} {id id' : String}
    {k : Except LockError Unit → RepoProg QueuedSessions.Session} (hc : x.prog c = .act (.lock id) k)
    (hheld : id' ∈ x.shared.held c) : id' < id := by
  obtain ⟨own, hI, hwp⟩ : System.Holds LockOrder.protocol (fun h own => h.held = own) Keeps x := by
    refine System.reachable_holds (fun c a h own r h' hI _ hsem => LockOrder.held_act hI hsem)
      (fun _ l p o hl hstart => wp_start hl hstart) ⟨fun _ => ∅, rfl, fun _ => ?_⟩ hrun
    show Keeps .idle ∅
    rfl
  have hpre := hwp c
  rw [hc, Protocol.wp_act] at hpre
  exact hpre.1 id' (hI ▸ hheld)

/-! ## Progress -/

/-- The id whose lock is the next thing a program asks for. -/
def awaited : RepoProg QueuedSessions.Session → Option String
  | .act (.lock id) _ => some id
  | _ => none

theorem awaited_eq_some {p : RepoProg QueuedSessions.Session} {id : String} :
    awaited p = some id ↔ ∃ k, p = .act (.lock id) k := by
  constructor
  · intro h
    cases p with
    | ret l => cases h
    | act a k =>
      cases a with
      | lock id' =>
        obtain rfl : id' = id := Option.some.inj h
        exact ⟨k, rfl⟩
      | _ => cases h
  · rintro ⟨k, rfl⟩
    rfl

/-- **Somebody waits for the last id** that is waited for, of those a run has put to wait. -/
theorem exists_last_awaited {prog : C → RepoProg QueuedSessions.Session} {moved : List C}
    (hmoved : ∀ c ∉ moved, prog c = .ret .idle) {c : C} {id : String}
    (hc : awaited (prog c) = some id) :
    ∃ c' id', awaited (prog c') = some id' ∧ ∀ c'' id'', awaited (prog c'') = some id'' → id'' ≤ id' := by
  have hmem : ∀ {c id}, awaited (prog c) = some id →
      id ∈ (moved.filterMap (fun c => awaited (prog c))).toFinset := by
    intro c id hc
    by_cases hin : c ∈ moved
    · simpa using ⟨c, hin, hc⟩
    · rw [hmoved c hin] at hc
      cases hc
  obtain ⟨id', hid', hmax⟩ := Finset.exists_max_image _ (fun id => id) ⟨id, hmem hc⟩
  rw [List.mem_toFinset, List.mem_filterMap] at hid'
  obtain ⟨c', -, hc'⟩ := hid'
  exact ⟨c', id', hc', fun c'' id'' hc'' => hmax id'' (hmem hc'')⟩

/-- **The locks hold nobody up for ever**: as long as a client is in the middle of a call,
one that is in the middle of a call is not asleep, or one waits for an id that is in the
session of a client between two calls. -/
theorem no_deadlock {d : InMemoryLockManager.Stores} (hd : d.events.WellFormed)
    {x : State C} (hrun : (clients C).Run (initial C d) x) {c : C}
    {a : RepoAction} {k : a.Resp → RepoProg QueuedSessions.Session} (hc : x.prog c = .act a k) :
    (∃ c' a' k', x.prog c' = .act a' k' ∧ ∀ w, x.phase c' ≠ .asleep w)
      ∨ ∃ c' c'' id k' ids es, x.prog c' = .act (.lock id) k'
        ∧ x.prog c'' = .ret (.working ids es) ∧ id ∈ ids := by
  obtain ⟨h, hshared, hhistory⟩ := history_of_run hrun
  by_cases hen : ∃ c a k r s, x.prog c = .act a k ∧ RepoAction.Sem a h.shared r s
  · obtain ⟨c, a, k, r, s, hprog, hsem⟩ := hen
    exact Or.inl (InMemoryLockManager.exists_awake hrun hprog (hshared ▸ hsem))
  · -- whoever is in the middle of a call waits for a lock that is taken
    have hwaits : ∀ {c a k}, x.prog c = .act a k →
        ∃ id, awaited (x.prog c) = some id ∧ h.shared.locked id = true := by
      intro c a k hprog
      cases RepoAction.enabled_or_locked a h.shared with
      | inl henabled =>
        obtain ⟨r, s, hsem⟩ := henabled
        exact absurd ⟨c, a, k, r, s, hprog, hsem⟩ hen
      | inr hlocked =>
        obtain ⟨id, rfl, hlocked⟩ := hlocked
        exact ⟨id, awaited_eq_some.mpr ⟨k, hprog⟩, hlocked⟩
    obtain ⟨moved, hmoved⟩ := hhistory.exists_moved
    obtain ⟨id₀, hawait₀, -⟩ := hwaits hc
    obtain ⟨c', id, hc', hlast⟩ := exists_last_awaited hmoved hawait₀
    obtain ⟨k', hprog'⟩ := awaited_eq_some.mp hc'
    obtain ⟨id₁, hawait₁, hlocked⟩ := hwaits hprog'
    obtain rfl : id = id₁ := Option.some.inj (hc'.symm.trans hawait₁)
    -- its holder is not in the middle of a call: it would wait for a later one
    obtain ⟨c'', hheld⟩ := held_of_locked (fun _ => rfl) hhistory hlocked
    obtain ⟨own, hI, hwp⟩ :=
      QueuedSessions.holds_of_run (s := d.withLocks (fun _ => false)) hd hhistory
    have hclient : Holding.protocol.wp QueuedSessions.Rests (x.prog c'') (own c'') := hwp c''
    cases hprog'' : x.prog c'' with
    | act a'' k'' =>
      obtain ⟨id'', hawait'', -⟩ := hwaits hprog''
      obtain ⟨k₂, hlock⟩ := awaited_eq_some.mp hawait''
      have hlt := held_lt_awaited hhistory hlock hheld
      exact absurd (hlast c'' id'' hawait'') (not_le_of_gt hlt)
    | ret l =>
      rw [hprog''] at hclient
      have hown := (hI.held c'' id).mp hheld
      cases l with
      | idle => simp [show own c'' id = none from hclient id] at hown
      | working ids es => exact Or.inr ⟨c', c'', id, k', ids, es, hprog', hprog'', (hclient.1 id).mp hown⟩
      | failed f => exact hclient.elim

/-! ### A run -/

/-- One client has a session of an id, and another sleeps that asked for the same. -/
theorem exists_run_asleep : ∃ x : State Bool,
    (clients Bool).Run (initial Bool InMemoryLockManager.noStores) x
      ∧ x.prog true = .ret (.working ["todo-1"] []) ∧ x.phase false = .asleep (0, .lock)
      ∧ ∃ k, x.prog false = .act (.lock "todo-1") k := by
  have h₁ := (Relation.ReflTransGen.refl (r := (clients Bool).Step)).tail
    (.start true .idle _ (x := initial Bool InMemoryLockManager.noStores) rfl (.getOne "todo-1"))
  have h₂ := h₁.tail (.create true "todo-1" rfl)
  have h₃ := h₂.tail (.done true (.lock "todo-1") _ "todo-1" .lock (fun r => r) 0 _ _ _ rfl rfl
    (Or.inl ⟨rfl, rfl⟩) rfl rfl)
  have h₄ := h₃.tail (.data true (.getOne "todo-1") _ (.ok none) InMemoryLockManager.noStores rfl rfl
    (fun _ => RepoAction.sem_getOne.mpr ⟨rfl, rfl⟩))
  have h₅ := h₄.tail (Monitored.Step.start (N := clients Bool) false .idle _ rfl (.getOne "todo-1"))
  have h₆ := h₅.tail (.lookup false "todo-1" 0 rfl)
  have h₇ := h₆.tail (.sleep false (.lock "todo-1") _ "todo-1" .lock (fun r => r) 0 _ rfl rfl
    (Or.inl ⟨rfl, rfl⟩) rfl rfl)
  exact ⟨_, h₇, rfl, rfl, _, rfl⟩

/-- The sleeper waits for the session of the other. -/
theorem no_deadlock_asleep : ∃ x : State Bool,
    x.phase false = .asleep (0, .lock)
      ∧ ((∃ c a k, x.prog c = .act a k ∧ ∀ w, x.phase c ≠ .asleep w)
        ∨ ∃ c c' id k ids es, x.prog c = .act (.lock id) k
          ∧ x.prog c' = .ret (.working ids es) ∧ id ∈ ids) := by
  obtain ⟨x, hrun, -, hfalse, k, hprog⟩ := exists_run_asleep
  exact ⟨x, hfalse, no_deadlock EventStore.WellFormed.new hrun hprog⟩

end LockedSessions
