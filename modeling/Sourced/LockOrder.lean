import Sourced.LockHistory
import Mathlib.Logic.Relation

/-!
# Locks are taken in order

A client of a `QueuedRepository` that asks for several ids takes their locks one
by one, in increasing order and each once. As long as it holds no other lock
while it does, the ids it holds are smaller than the one it waits for. Along a
chain of clients each waiting for a lock of the next the awaited ids increase,
so the chain cannot close (`LockOrder.no_lock_cycle`).

What a client holds is what it has taken and not itself released. Nothing is
asked of the commits: they may name any entities, and release what others hold.
-/

namespace LockOrder

/-- The repository of the clients. -/
abbrev queued : RepoWithOpts := queuedRepository hashMapRepository

/-- **What a client does next**, given the ids it holds: it gets one or several ids
while it holds none, commits any entities, or aborts any id. -/
inductive Start : Finset String → RepoProg (Finset String) → Prop where
  | getOne (id : String) : Start ∅ ((queued.getOne id).map (fun _ => {id}))
  | getMany (ids : List String) : Start ∅ ((queued.getMany ids).map (fun _ => ids.toFinset))
  | commit (held : Finset String) (es : List Entity) :
      Start held ((queued.commit es).map (fun r =>
        match r.1 with
        | .ok () => held \ (es.map Entity.id).toFinset
        | .error _ => held))
  | abort (held : Finset String) (id : String) :
      Start held ((queued.unlock id).map (fun _ => held.erase id))

/-- **Clients sharing one `QueuedRepository`.** -/
def system (C : Type) [DecidableEq C] :
    System C RepoAction RepoAction.Resp (LockHistory C) (Finset String) where
  sem := LockHistory.Sem
  start _ := Start

/-- A repository with some content, and clients that hold nothing. -/
def initial (C : Type) (s : Shared) :
    Config C RepoAction RepoAction.Resp (LockHistory C) (Finset String) :=
  ⟨⟨⟨s, []⟩, fun _ => ∅⟩, fun _ => .ret ∅⟩

/-! ## A client alone -/

/-- **The protocol of the order**: a client takes only locks above those it holds. -/
def protocol : Protocol RepoAction RepoAction.Resp (Finset String) where
  pre a o :=
    match a with
    | .lock id => ∀ id' ∈ o, id' < id
    | _ => True
  upd a o r o' := o' = LockHistory.heldAfter a r o ∧
    match a, r with
    | .lock _, r => r = .ok ()
    | .unlock _, r => r = .ok ()
    | _, _ => True

open Known (Never)

theorem wp_acquire {o : Finset String} {id : String} (ho : ∀ id' ∈ o, id' < id) :
    protocol.wp (Protocol.outcome (fun _ o' => o' = insert id o) Never)
      (QueuedRepository.acquire id) o := by
  refine ⟨ho, fun r o' ⟨ho', hr⟩ => ?_⟩
  obtain rfl : r = .ok () := hr
  exact ho'

theorem wp_release (o : Finset String) (id : String) :
    protocol.wp (Protocol.outcome (fun _ o' => o' = o.erase id) Never)
      (QueuedRepository.release id) o := by
  refine ⟨trivial, fun r o' ⟨ho', hr⟩ => ?_⟩
  obtain rfl : r = .ok () := hr
  exact ho'

/-- **Locks taken in increasing order**, by a client that holds none. -/
theorem wp_acquireAll {ids : List String} (hids : ids.Pairwise (· < ·)) :
    protocol.wp (Protocol.outcome (fun _ o' => o' = ids.toFinset) Never)
      (QueuedRepository.acquireAll ids) ∅ := by
  -- what is held is below what is left to take
  refine Protocol.wp_mono_ok _ (fun _ o' hI => ?_) (Protocol.wp_forEach_rest _
    (I := fun rest o' => o' ∪ rest.toFinset = ids.toFinset ∧ rest.Pairwise (· < ·)
      ∧ ∀ id' ∈ o', ∀ id ∈ rest, id' < id) (fun id rest o₁ hI => ?_) ⟨?_, hids, ?_⟩)
  · simpa using hI.1
  · obtain ⟨hunion, hsorted, hbelow⟩ := hI
    obtain ⟨hid, hrest⟩ := List.pairwise_cons.mp hsorted
    refine Protocol.wp_mono_ok _ (fun _ o₂ ho₂ => ?_)
      (wp_acquire (fun id' hid' => hbelow id' hid' id List.mem_cons_self))
    subst ho₂
    refine ⟨?_, hrest, fun id' hid' id'' hid'' => ?_⟩
    · rw [← hunion, List.toFinset_cons, Finset.union_insert, Finset.insert_union]
    · cases Finset.mem_insert.mp hid' with
      | inl heq => exact heq ▸ hid id'' hid''
      | inr hid' => exact hbelow id' hid' id'' (List.mem_cons_of_mem id hid'')
  · exact Finset.empty_union _
  · exact fun id' hid' => absurd hid' (Finset.notMem_empty id')

/-- Locks released in turn. -/
theorem wp_releaseAll (ids : List String) (o : Finset String) :
    protocol.wp (Protocol.outcome (fun _ o' => o' = o \ ids.toFinset) Never)
      (QueuedRepository.releaseAll ids) o := by
  refine Protocol.wp_mono_ok _ (fun _ o' hI => ?_) (Protocol.wp_forEach_rest _
    (I := fun rest o' => o' \ rest.toFinset = o \ ids.toFinset) (fun id rest o₁ hI => ?_) rfl)
  · simpa using hI
  · refine Protocol.wp_mono_ok _ (fun _ o₂ ho₂ => ?_) (wp_release o₁ id)
    subst ho₂
    show o₁.erase id \ rest.toFinset = o \ ids.toFinset
    rw [← hI, List.toFinset_cons]
    ext id'
    simp only [Finset.mem_sdiff, Finset.mem_erase, Finset.mem_insert, not_or]
    tauto

theorem wp_hashMap_getMany (o : Finset String) (ids : List String) :
    protocol.wp (fun _ o' => o' = o) (HashMapRepository.getMany ids) o := by
  refine Protocol.wp_collect_keeps _ (fun id => ?_) ids
  show protocol.wp _ (Prog.act (.getOne id) _) o
  refine ⟨trivial, fun r o' h => ?_⟩
  cases r <;> exact h.1

/-- **Every program of a client keeps the order**, and the client knows what it
holds. -/
theorem wp_start {o : Finset String} {p : RepoProg (Finset String)} (h : Start o p) :
    protocol.wp (fun held o => o = held) p o := by
  cases h with
  | getOne id =>
    rw [Protocol.wp_map]
    refine Protocol.wp_andThen_ok _ (fun _ o ho => ?_)
      (wp_acquire (fun id' hid' => absurd hid' (Finset.notMem_empty id')))
    subst ho
    exact ⟨trivial, fun r o' ho' => ho'.1⟩
  | getMany ids =>
    rw [Protocol.wp_map]
    refine Protocol.wp_andThen_ok _ (fun _ o ho => ?_)
      (wp_acquireAll (QueuedRepository.pairwise_sortDedup ids))
    subst ho
    refine Protocol.wp_mono _ (fun r o' ho' => ?_) (wp_hashMap_getMany _ ids)
    subst ho'
    ext id
    simp
  | commit o es =>
    rw [Protocol.wp_map]
    show protocol.wp _ (Prog.bind (RepoProg.perform (RepoAction.commit es)) _) o
    refine ⟨trivial, fun r o' ⟨ho', _⟩ => ?_⟩
    subst ho'
    rcases r with ⟨f | u, es'⟩
    · rfl
    · show protocol.wp _ (Prog.map _ _) _
      rw [Protocol.wp_map]
      exact Protocol.wp_mono_ok _ (fun _ _ h => h) (wp_releaseAll (es.map Entity.id) _)
  | abort o id =>
    rw [Protocol.wp_map]
    exact Protocol.wp_mono_ok _ (fun _ _ h => h) (wp_release o id)

/-! ## The law -/

section Law

variable {C : Type} [DecidableEq C]

/-- The client is about to take the lock of an id, or waits for it. -/
def Awaits (x : Config C RepoAction RepoAction.Resp (LockHistory C) (Finset String)) (c : C)
    (id : String) : Prop :=
  ∃ k, x.prog c = .act (.lock id) k

/-- **One client waits for a lock that another holds.** -/
def WaitsFor (x : Config C RepoAction RepoAction.Resp (LockHistory C) (Finset String)) (c d : C) :
    Prop :=
  ∃ id, Awaits x c id ∧ id ∈ x.shared.held d

/-- Every action changes what its client holds as the protocol says. -/
theorem held_act {c : C} {a : RepoAction} {h h' : LockHistory C} {own : C → Finset String}
    {r : a.Resp} (hI : h.held = own) (hsem : LockHistory.Sem c a h r h') :
    ∃ o', protocol.upd a (own c) r o' ∧ h'.held = Function.update own c o' := by
  subst hI
  refine ⟨LockHistory.heldAfter a r (h.held c), ⟨rfl, ?_⟩, hsem.2⟩
  cases a with
  | lock id => exact (RepoAction.sem_lock.mp hsem.1.1).2.1
  | unlock id => exact (RepoAction.sem_unlock.mp hsem.1.1).1
  | _ => trivial

/-- **A waiting client holds only ids below the one it waits for.** -/
theorem held_lt_awaited {s : Shared}
    {x : Config C RepoAction RepoAction.Resp (LockHistory C) (Finset String)}
    (hrun : (system C).Run (initial C s) x) {c : C} {id id' : String} (hc : Awaits x c id)
    (hheld : id' ∈ x.shared.held c) : id' < id := by
  obtain ⟨own, hI, hwp⟩ : System.Holds protocol (fun h own => h.held = own)
      (fun held o => o = held) x := by
    refine System.reachable_holds (fun c a h own r h' hI _ hsem => held_act hI hsem)
      (fun _ l p o ho hstart => ?_) ⟨fun _ => ∅, rfl, fun _ => ?_⟩ hrun
    · subst ho
      exact wp_start hstart
    · show (∅ : Finset String) = ∅
      rfl
  obtain ⟨k, hprog⟩ := hc
  have hc := hwp c
  rw [hprog, Protocol.wp_act] at hc
  exact hc.1 id' (hI ▸ hheld)

/-- **There is no cycle of clients each waiting for a lock the next one holds**, in any
configuration that any interleaving of any number of clients reaches. A request takes its
locks in the order of the ids, so what a waiting client holds is below what it waits for
(`held_lt_awaited`), and around a cycle the ids would only rise. -/
theorem no_lock_cycle {s : Shared}
    {x : Config C RepoAction RepoAction.Resp (LockHistory C) (Finset String)}
    (hrun : (system C).Run (initial C s) x) (c : C) : ¬ Relation.TransGen (WaitsFor x) c c := by
  -- along a chain of waiting clients the awaited ids increase
  have hchain : ∀ {d}, Relation.TransGen (WaitsFor x) c d → ∃ id, Awaits x c id
      ∧ ∀ id', Awaits x d id' → id < id' := by
    intro d h
    induction h with
    | single h =>
      obtain ⟨id, hc, hheld⟩ := h
      exact ⟨id, hc, fun id' hd => held_lt_awaited hrun hd hheld⟩
    | tail _ h ih =>
      obtain ⟨id, hc, hlt⟩ := ih
      obtain ⟨id', hb, hheld⟩ := h
      exact ⟨id, hc, fun id'' hd => (hlt id' hb).trans (held_lt_awaited hrun hd hheld)⟩
  intro hcycle
  obtain ⟨id, hc, hlt⟩ := hchain hcycle
  exact absurd (hlt id hc) (lt_irrefl id)

end Law

/-- **The law is about something**: one client has taken two locks of a request, and
another waits for the first of them. -/
theorem no_lock_cycle_waiting :
    ∃ x : Config Bool RepoAction RepoAction.Resp (LockHistory Bool) (Finset String),
      WaitsFor x true false ∧ ¬ Relation.TransGen (WaitsFor x) true true := by
  have h₀ : (system Bool).Run (initial Bool Shared.empty)
    (initial Bool Shared.empty) := .refl
  have h₁ := h₀.call (LockHistory.sem_of_alone false) rfl (.getMany ["b", "a"]) rfl
  have h₂ := h₁.tail (.start true _ _ rfl (.getMany ["a", "c"]))
  exact ⟨_, ⟨"a", ⟨_, rfl⟩, by decide⟩, no_lock_cycle h₂ true⟩

end LockOrder
