import Sourced.CommitHistory
import Mathlib.Data.Finset.Insert

/-!
# Who holds which lock

The locks of a `QueuedRepository` are flags: they do not record who took them,
and a release is by id alone. A history of the run does. In it a client holds
the lock of an id from the moment its `lock` returns until its own release of
that lock.

A flag keeps two clients apart only as long as nobody releases what another
holds. `Exclusive` is what then holds – a held lock is taken, and by one client
– and `LockHistory.exclusive_of_sem` says that every action keeps it, a release
if no other client holds the lock.
-/

/-! ## Flags and their holders -/

section Exclusive

variable {C K : Type} [DecidableEq C] [DecidableEq K]

/-- **A held lock is taken, and held by one client.** -/
structure Exclusive (locked : K → Bool) (held : C → Finset K) : Prop where
  locked : ∀ c k, k ∈ held c → locked k = true
  unique : ∀ c d k, k ∈ held c → k ∈ held d → c = d

variable {locked : K → Bool} {held : C → Finset K}

omit [DecidableEq C] [DecidableEq K] in
theorem Exclusive.empty (locked : K → Bool) : Exclusive locked (fun _ : C => ∅) :=
  ⟨fun _ _ h => absurd h (Finset.notMem_empty _), fun _ _ _ h => absurd h (Finset.notMem_empty _)⟩

/-- **A lock that is taken has a new holder**, if no other client holds it. -/
theorem Exclusive.join (h : Exclusive locked held) {k : K} {c : C} (htaken : locked k = true)
    (hc : ∀ d, k ∈ held d → d = c) :
    Exclusive locked (Function.update held c (insert k (held c))) := by
  have hmem : ∀ d i, i ∈ Function.update held c (insert k (held c)) d →
      i = k ∧ d = c ∨ i ∈ held d := fun d i hi => by
    by_cases hd : d = c
    · subst hd
      rw [Function.update_self, Finset.mem_insert] at hi
      exact hi.imp_left (fun hik => ⟨hik, rfl⟩)
    · rw [Function.update_of_ne hd] at hi
      exact Or.inr hi
  refine ⟨fun d i hi => ?_, fun d e i hi hi' => ?_⟩
  · rcases hmem d i hi with ⟨rfl, -⟩ | hi
    · exact htaken
    · exact h.locked d i hi
  · rcases hmem d i hi with ⟨rfl, rfl⟩ | hd
    · rcases hmem e i hi' with ⟨-, rfl⟩ | he
      · rfl
      · exact (hc e he).symm
    · rcases hmem e i hi' with ⟨rfl, rfl⟩ | he
      · exact hc d hd
      · exact h.unique d e i hd he

/-- **A free lock is taken.** -/
theorem Exclusive.take (h : Exclusive locked held) {k : K} (hfree : locked k = false) (c : C) :
    Exclusive (Function.update locked k true)
      (Function.update held c (insert k (held c))) := by
  have hup : Exclusive (Function.update locked k true) held := by
    refine ⟨fun d i hi => ?_, h.unique⟩
    by_cases hik : i = k
    · rw [hik, Function.update_self]
    · rw [Function.update_of_ne hik]
      exact h.locked d i hi
  refine hup.join (Function.update_self _ _ _) (fun d hd => ?_)
  -- nobody held it
  have := h.locked d k hd
  rw [hfree] at this
  cases this

/-- **A lock is released that nobody else holds.** Whether the client that releases it
holds it makes no difference. -/
theorem Exclusive.release (h : Exclusive locked held) {k : K} {c : C}
    (hc : ∀ d, k ∈ held d → d = c) :
    Exclusive (Function.update locked k false)
      (Function.update held c ((held c).erase k)) := by
  have hmem : ∀ d i, i ∈ Function.update held c ((held c).erase k) d → i ≠ k ∧ i ∈ held d := by
    intro d i hi
    by_cases hd : d = c
    · subst hd
      rw [Function.update_self, Finset.mem_erase] at hi
      exact hi
    · rw [Function.update_of_ne hd] at hi
      exact ⟨fun hik => hd (hc d (hik ▸ hi)), hi⟩
  refine ⟨fun d i hi => ?_, fun d e i hi hi' => ?_⟩
  · obtain ⟨hik, hi⟩ := hmem d i hi
    rw [Function.update_of_ne hik]
    exact h.locked d i hi
  · exact h.unique d e i (hmem d i hi).2 (hmem e i hi').2

theorem Exclusive.drop (h : Exclusive locked held) {k : K} {c : C} (hc : k ∈ held c) :
    Exclusive (Function.update locked k false)
      (Function.update held c ((held c).erase k)) :=
  h.release (fun d hd => h.unique d c k hd hc)

end Exclusive

/-! ## The history -/

/-- **The shared state with its history**: beside the entities committed, the
locks each client holds. -/
structure LockHistory (C : Type) extends History where
  held : C → Finset String

namespace LockHistory

/-- What a client holds after an action of its own. -/
def heldAfter (a : RepoAction) (r : a.Resp) (held : Finset String) : Finset String :=
  match a, r with
  | .lock id, .ok () => insert id held
  | .tryLock id, .ok true => insert id held
  | .unlock id, .ok () => held.erase id
  | _, _ => held

variable {C : Type} [DecidableEq C]

/-- **An action with its history.** -/
def Sem (c : C) (a : RepoAction) (h : LockHistory C) (r : a.Resp) (h' : LockHistory C) : Prop :=
  History.Sem a h.toHistory r h'.toHistory
    ∧ h'.held = Function.update h.held c (heldAfter a r (h.held c))

/-- The same as a function, where the action does not iterate the map. -/
def alone (c : C) (a : RepoAction) (h : LockHistory C) : Option (a.Resp × LockHistory C) :=
  (a.alone h.shared).map (fun (r, s) =>
    (r, ⟨⟨s, h.log ++ History.committed a r⟩,
      Function.update h.held c (heldAfter a r (h.held c))⟩))

theorem sem_of_alone (c : C) (a : RepoAction) (h : LockHistory C) (r : a.Resp) (h' : LockHistory C)
    (halone : alone c a h = some (r, h')) : Sem c a h r h' := by
  obtain ⟨⟨r', s⟩, hs, heq⟩ := Option.map_eq_some_iff.mp halone
  obtain ⟨rfl, rfl⟩ := Prod.mk.inj heq
  exact ⟨⟨RepoAction.sem_of_alone a h.shared _ s hs, rfl⟩, rfl⟩

variable {c : C} {a : RepoAction} {h h' : LockHistory C} {r : a.Resp}

/-- **Every action keeps the locks with their holders**, a release if no other client
holds the lock. -/
theorem exclusive_of_sem (hI : Exclusive h.shared.locked h.held) (hsem : Sem c a h r h')
    (hunlock : ∀ id, a = .unlock id → ∀ d, id ∈ h.held d → d = c) :
    Exclusive h'.shared.locked h'.held := by
  obtain ⟨⟨hact, -⟩, hheld⟩ := hsem
  rw [hheld]
  have hsame : h'.shared.locked = h.shared.locked → heldAfter a r (h.held c) = h.held c →
      Exclusive h'.shared.locked (Function.update h.held c (heldAfter a r (h.held c))) := by
    intro hlocked hafter
    rw [hlocked, hafter, Function.update_eq_self]
    exact hI
  cases a with
  | lock id =>
    obtain ⟨hfree, rfl, hs⟩ := RepoAction.sem_lock.mp hact
    rw [hs]
    exact hI.take hfree c
  | tryLock id =>
    rcases RepoAction.sem_tryLock.mp hact with ⟨-, rfl, hs⟩ | ⟨hfree, rfl, hs⟩
    · exact hsame (congrArg Shared.locked hs) rfl
    · rw [hs]
      exact hI.take hfree c
  | unlock id =>
    obtain ⟨rfl, hs⟩ := RepoAction.sem_unlock.mp hact
    rw [hs]
    exact hI.release (hunlock id rfl)
  | _ => exact hsame (RepoAction.locked_of_sem hact rfl) rfl

/-- **A lock that is taken is held**, if it was so before: whoever releases a lock frees it, and
takes no other from anybody. -/
theorem held_of_sem (hI : ∀ id, h.shared.locked id = true → ∃ d, id ∈ h.held d)
    (hsem : Sem c a h r h') {id : String} (hlocked : h'.shared.locked id = true) :
    ∃ d, id ∈ h'.held d := by
  obtain ⟨⟨hact, -⟩, hheld⟩ := hsem
  -- who held the lock does, if the action leaves it
  have hbefore : h.shared.locked id = true → (id ∈ h.held c → id ∈ heldAfter a r (h.held c)) →
      ∃ d, id ∈ h'.held d := by
    intro hlocked hafter
    obtain ⟨d, hd⟩ := hI id hlocked
    refine ⟨d, ?_⟩
    rw [hheld]
    by_cases heq : d = c
    · subst heq
      rw [Function.update_self]
      exact hafter hd
    · rw [Function.update_of_ne heq]
      exact hd
  have htaken : id ∈ heldAfter a r (h.held c) → ∃ d, id ∈ h'.held d :=
    fun hc => ⟨c, by rw [hheld, Function.update_self]; exact hc⟩
  cases a with
  | lock id' =>
    obtain ⟨-, rfl, hs⟩ := RepoAction.sem_lock.mp hact
    rw [hs, Shared.locked_setLocked] at hlocked
    by_cases heq : id = id'
    · exact htaken (heq ▸ Finset.mem_insert_self _ _)
    · exact hbefore (by simpa [heq] using hlocked) (Finset.mem_insert_of_mem)
  | tryLock id' =>
    cases RepoAction.sem_tryLock.mp hact with
    | inl hrefused =>
      obtain ⟨-, rfl, hs⟩ := hrefused
      exact hbefore (hs ▸ hlocked) (fun hc => hc)
    | inr hdone =>
      obtain ⟨-, rfl, hs⟩ := hdone
      rw [hs, Shared.locked_setLocked] at hlocked
      by_cases heq : id = id'
      · exact htaken (heq ▸ Finset.mem_insert_self _ _)
      · exact hbefore (by simpa [heq] using hlocked) (Finset.mem_insert_of_mem)
  | unlock id' =>
    obtain ⟨rfl, hs⟩ := RepoAction.sem_unlock.mp hact
    rw [hs, Shared.locked_setLocked] at hlocked
    have hne : id ≠ id' := fun heq => by simp [heq] at hlocked
    exact hbefore (by simpa [hne] using hlocked) (fun hc => Finset.mem_erase.mpr ⟨hne, hc⟩)
  | _ => exact hbefore (RepoAction.locked_of_sem hact rfl ▸ hlocked) (fun hc => hc)

end LockHistory
