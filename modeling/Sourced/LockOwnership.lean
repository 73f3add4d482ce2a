import Sourced.LockHistory

/-!
# Whose release it is

Nothing ties a lock to the client that took it: a commit that succeeds releases
the lock of every entity in its batch, and `abort` releases by id alone. `commit`
says of itself that it acquires the locks of its entities, but it only looks them up.
A client that has only peeked at an id, or has made an entity with it blindly,
releases the lock another client holds by committing that entity, and a third
can then take it (`LockOwnership.foreign_release`).

This is all that can go wrong. Clients are kept apart in every run in which no
release is of a lock that another client holds (`LockOwnership.released_by_holder`).
New entities and messages may be committed without their locks in such a run, and a
lock that is free may be released. One release of a lock that another client holds
is enough for the lock to be held and free at once.

To commit only ids one holds, each once, and to abort only these, is one way to keep
to that. A batch that names a held id twice releases it twice, and the second release
may already be of someone else's lock (`LockOwnership.released_twice`).
-/

namespace LockOwnership

/-! ## The clients -/

/-- **The local state of a client**: its entities, and the locks it has taken
and not released. -/
structure Client where
  pool : List Entity
  held : Finset String

/-- The entities a read returned. -/
def fetched : RepoRes (List Entity) → List Entity
  | .ok es => es
  | .error _ => []

/-- The client after a read that took the locks of `ids`: it holds them whatever
the read returned. -/
def Client.read (l : Client) (ids : List String) (r : RepoRes (List Entity)) : Client :=
  ⟨fetched r ++ l.pool, l.held ∪ ids.toFinset⟩

/-- The client after a commit of some of its entities. -/
def Client.committed (l : Client) (batch rest : List Entity) (r : RepoRes Unit × List Entity) :
    Client where
  pool := r.2 ++ rest
  held := match r.1 with
    | .ok () => l.held \ (batch.map Entity.id).toFinset
    | .error _ => l.held

/-- The repository of the clients. -/
abbrev queued : RepoWithOpts := queuedRepository hashMapRepository

/-- **What a client does next**, where `may` says of which ids a client that
holds some locks may abort. -/
inductive Start (may : Finset String → String → Prop) : Client → RepoProg Client → Prop where
  /-- A new entity with an id. -/
  | create (l : Client) (id : String) :
      Start may l (.ret { l with pool := Entity.withId id :: l.pool })
  /-- `get` of one id. -/
  | getOne (l : Client) (id : String) :
      Start may l ((queued.getOne id).map (fun r => l.read [id] (r.map Option.toList)))
  /-- `get` of several. -/
  | getMany (l : Client) (ids : List String) :
      Start may l ((queued.getMany ids).map (l.read ids))
  /-- `peek` at one id. -/
  | peek (l : Client) (id : String) :
      Start may l ((queued.getWith id ReadOpts.noLock).map
        (fun r => l.read [] (r.map Option.toList)))
  /-- `peek` at several. -/
  | peekAll (l : Client) (ids : List String) :
      Start may l ((queued.getAllWith ids ReadOpts.noLock).map (l.read []))
  /-- Events recorded on an entity. -/
  | work (l : Client) (pre post : List Entity) (e e' : Entity) (hpool : l.pool = pre ++ e :: post)
      (h : e.Grows e') : Start may l (.ret { l with pool := pre ++ e' :: post })
  /-- `commit` of some of the entities. -/
  | commit (l : Client) (batch rest : List Entity) (hpool : l.pool.Perm (batch ++ rest)) :
      Start may l ((queued.commit batch).map (l.committed batch rest))
  /-- `abort` of an entity. -/
  | abort (l : Client) (e : Entity) (he : e ∈ l.pool) (hmay : may l.held e.id) :
      Start may l ((queued.unlock e.id).map (fun _ => { l with held := l.held.erase e.id }))

/-- **Clients sharing one `QueuedRepository`.** -/
def system (C : Type) [DecidableEq C] (may : Finset String → String → Prop) :
    System C RepoAction RepoAction.Resp (LockHistory C) Client where
  sem := LockHistory.Sem
  start _ := Start may

/-- A repository with some content, and clients with nothing. -/
def initial (C : Type) (s : Shared) : Config C RepoAction RepoAction.Resp (LockHistory C) Client :=
  ⟨⟨⟨s, []⟩, fun _ => ∅⟩, fun _ => .ret ⟨[], ∅⟩⟩

/-- **No release is of a lock that another client holds.** -/
def NoForeignRelease {C : Type} (c : C) (a : RepoAction) (h : LockHistory C) (_ : a.Resp) : Prop :=
  match a with
  | .unlock id => ∀ d, id ∈ h.held d → d = c
  | _ => True

/-- **A commit that succeeds names only ids its client holds, each once.** -/
def CommitsHeld {C : Type} (c : C) (a : RepoAction) (h : LockHistory C) (r : a.Resp) : Prop :=
  match a, r with
  | .commit es, (.ok (), _) => (es.map Entity.id).Nodup ∧ ∀ e ∈ es, e.id ∈ h.held c
  | _, _ => True

/-! ## Clients that release what they hold -/

/-- **The protocol of the locks**: a client releases only what it holds. -/
def protocol : Protocol RepoAction RepoAction.Resp (Finset String) where
  pre a o :=
    match a with
    | .unlock id => id ∈ o
    | _ => True
  upd a o r o' := o' = LockHistory.heldAfter a r o ∧
    match a, r with
    | .lock _, r => r = .ok ()
    | .unlock _, r => r = .ok ()
    | .commit es, (.ok (), _) => (es.map Entity.id).Nodup ∧ ∀ e ∈ es, e.id ∈ o
    | _, _ => True

open Known (Never)

theorem wp_acquire (o : Finset String) (id : String) :
    protocol.wp (Protocol.outcome (fun _ o' => o' = insert id o) Never)
      (QueuedRepository.acquire id) o := by
  refine ⟨trivial, fun r o' ⟨ho', hr⟩ => ?_⟩
  obtain rfl : r = .ok () := hr
  exact ho'

theorem wp_release {o : Finset String} {id : String} (ho : id ∈ o) :
    protocol.wp (Protocol.outcome (fun _ o' => o' = o.erase id) Never)
      (QueuedRepository.release id) o := by
  refine ⟨ho, fun r o' ⟨ho', hr⟩ => ?_⟩
  obtain rfl : r = .ok () := hr
  exact ho'

/-- Locks taken in turn. -/
theorem wp_acquireAll (ids : List String) (o : Finset String) :
    protocol.wp (Protocol.outcome (fun _ o' => o' = o ∪ ids.toFinset) Never)
      (QueuedRepository.acquireAll ids) o := by
  refine Protocol.wp_mono_ok _ (fun _ o' hI => ?_) (Protocol.wp_forEach_rest _
    (I := fun rest o' => o' ∪ rest.toFinset = o ∪ ids.toFinset) (fun id rest o₁ hI => ?_) rfl)
  · simpa using hI
  · refine Protocol.wp_mono_ok _ (fun _ o₂ ho₂ => ?_) (wp_acquire o₁ id)
    subst ho₂
    show insert id o₁ ∪ rest.toFinset = o ∪ ids.toFinset
    rw [← hI, List.toFinset_cons, Finset.union_insert, Finset.insert_union]

/-- **Locks held, released in turn.** -/
theorem wp_releaseAll {ids : List String} (hnd : ids.Nodup) {o : Finset String}
    (ho : ∀ id ∈ ids, id ∈ o) :
    protocol.wp (Protocol.outcome (fun _ o' => o' = o \ ids.toFinset) Never)
      (QueuedRepository.releaseAll ids) o := by
  refine Protocol.wp_mono_ok _ (fun _ o' hI => ?_) (Protocol.wp_forEach_rest _
    (I := fun rest o' => rest.Nodup ∧ (∀ id ∈ rest, id ∈ o')
      ∧ o' \ rest.toFinset = o \ ids.toFinset) (fun id rest o₁ hI => ?_) ⟨hnd, ho, rfl⟩)
  · simpa using hI.2.2
  · obtain ⟨hnd, hmem, hdiff⟩ := hI
    obtain ⟨hid, hnd⟩ := List.nodup_cons.mp hnd
    refine Protocol.wp_mono_ok _ (fun _ o₂ ho₂ => ?_) (wp_release (hmem id List.mem_cons_self))
    subst ho₂
    refine ⟨hnd, fun id' hid' => ?_, ?_⟩
    · exact Finset.mem_erase.mpr ⟨fun h => hid (h ▸ hid'), hmem id' (List.mem_cons_of_mem _ hid')⟩
    · rw [← hdiff, List.toFinset_cons]
      ext id'
      simp only [Finset.mem_sdiff, Finset.mem_erase, Finset.mem_insert, not_or]
      tauto

theorem wp_hashMap_getOne (o : Finset String) (id : String) :
    protocol.wp (fun _ o' => o' = o) (HashMapRepository.getOne id) o :=
  ⟨trivial, fun _ _ h => h.1⟩

theorem wp_hashMap_getMany (o : Finset String) (ids : List String) :
    protocol.wp (fun _ o' => o' = o) (HashMapRepository.getMany ids) o := by
  refine Protocol.wp_collect_keeps _ (fun id => ?_) ids
  rw [Call.bind_eq, Protocol.wp_andThen]
  refine Protocol.wp_mono _ (fun r o' h => ?_) (wp_hashMap_getOne o id)
  cases r <;> exact h

/-- **Every program of a client keeps the protocol**, where it aborts only what
it holds. -/
theorem wp_start {l : Client} {p : RepoProg Client} (h : Start (fun held id => id ∈ held) l p) :
    protocol.wp (fun l o => o = l.held) p l.held := by
  cases h with
  | create id => rfl
  | getOne id =>
    rw [Protocol.wp_map]
    refine Protocol.wp_andThen_ok _ (fun _ o ho => ?_) (wp_acquire l.held id)
    subst ho
    refine Protocol.wp_mono _ (fun r o' ho' => ?_) (wp_hashMap_getOne _ id)
    subst ho'
    show insert id l.held = l.held ∪ [id].toFinset
    rw [List.toFinset_cons, List.toFinset_nil, Finset.union_insert, Finset.union_empty]
  | getMany ids =>
    rw [Protocol.wp_map]
    refine Protocol.wp_andThen_ok _ (fun _ o ho => ?_)
      (wp_acquireAll (QueuedRepository.sortDedup ids) l.held)
    subst ho
    refine Protocol.wp_mono _ (fun r o' ho' => ?_) (wp_hashMap_getMany _ ids)
    subst ho'
    show _ = l.held ∪ ids.toFinset
    ext id
    simp
  | peek id =>
    rw [Protocol.wp_map]
    refine Protocol.wp_mono _ (fun r o' ho' => ?_) (wp_hashMap_getOne l.held id)
    exact ho'.trans (Finset.union_empty _).symm
  | peekAll ids =>
    rw [Protocol.wp_map]
    refine Protocol.wp_mono _ (fun r o' ho' => ?_) (wp_hashMap_getMany l.held ids)
    exact ho'.trans (Finset.union_empty _).symm
  | work pre post e e' hpool h => rfl
  | commit batch rest hpool =>
    rw [Protocol.wp_map]
    show protocol.wp _ (Prog.bind (RepoProg.perform (RepoAction.commit batch)) _) l.held
    refine ⟨trivial, fun r o' ⟨ho', hr⟩ => ?_⟩
    subst ho'
    rcases r with ⟨f | u, es'⟩
    · rfl
    · obtain ⟨hnd, hheld⟩ := hr
      show protocol.wp _ (Prog.map _ _) l.held
      rw [Protocol.wp_map]
      exact Protocol.wp_mono_ok _ (fun _ _ h => h)
        (wp_releaseAll hnd (fun id hid => by
          obtain ⟨e, he, rfl⟩ := List.mem_map.mp hid
          exact hheld e he))
  | abort e he hmay =>
    rw [Protocol.wp_map]
    exact Protocol.wp_mono_ok _ (fun _ _ h => h) (wp_release hmay)

/-! ## The law -/

section Law

variable {C : Type} [DecidableEq C]

/-- **The joint invariant**: the locks are with their holders, and every client
knows what it holds. -/
structure Inv (h : LockHistory C) (own : C → Finset String) : Prop where
  exclusive : Exclusive h.shared.locked h.held
  held : h.held = own

/-- Every action a client may perform keeps the invariant. -/
theorem Inv.act {h h' : LockHistory C} {own : C → Finset String} (hI : Inv h own) {c : C}
    {a : RepoAction} {r : a.Resp} (hpre : protocol.pre a (own c)) (hsem : LockHistory.Sem c a h r h')
    (hok : CommitsHeld c a h r) :
    ∃ o', protocol.upd a (own c) r o' ∧ Inv h' (Function.update own c o') := by
  obtain rfl := hI.held
  have hex : Exclusive h'.shared.locked h'.held :=
    LockHistory.exclusive_of_sem hI.exclusive hsem (fun id ha d hd => by
      subst ha
      exact hI.exclusive.unique d c id hd hpre)
  refine ⟨LockHistory.heldAfter a r (h.held c), ⟨rfl, ?_⟩, hex, hsem.2⟩
  cases a with
  | lock id => exact (RepoAction.sem_lock.mp hsem.1.1).2.1
  | unlock id => exact (RepoAction.sem_unlock.mp hsem.1.1).1
  | commit es =>
    rcases r with ⟨f | u, es'⟩
    · trivial
    · exact hok
  | _ => trivial

/-- What a client can do that aborts only what it holds, it can do. -/
theorem Start.mono {may may' : Finset String → String → Prop} (hmay : ∀ held id, may held id → may' held id)
    {l : Client} {p : RepoProg Client} (h : Start may l p) : Start may' l p := by
  cases h with
  | create id => exact .create l id
  | getOne id => exact .getOne l id
  | getMany ids => exact .getMany l ids
  | peek id => exact .peek l id
  | peekAll ids => exact .peekAll l ids
  | work pre post e e' hpool h => exact .work l pre post e e' hpool h
  | commit batch rest hpool => exact .commit l batch rest hpool
  | abort e he h => exact .abort l e he (hmay l.held e.id h)

variable {s : Shared} {x : Config C RepoAction RepoAction.Resp (LockHistory C) Client}

/-- **Clients that release what they hold keep the protocol**, in every run. -/
theorem holds_of_commitsHeld
    (hrun : ((system C (fun held id => id ∈ held)).restrict CommitsHeld).Run (initial C s) x) :
    System.Holds protocol Inv (fun l o => o = l.held) x := by
  refine System.reachable_holds (fun _ _ _ _ _ _ hI hpre hsem => hI.act hpre hsem.1 hsem.2)
    (fun _ l p o ho hstart => ?_) ⟨fun _ => ∅, ⟨Exclusive.empty _, rfl⟩, fun _ => ?_⟩ hrun
  · subst ho
    exact wp_start hstart
  · show (∅ : Finset String) = ∅
    rfl

omit [DecidableEq C] in
/-- A client that keeps the protocol releases what it holds. -/
theorem mem_held_of_holds (hx : System.Holds protocol Inv (fun l o => o = l.held) x) {c : C}
    {id : String} {k : (RepoAction.unlock id).Resp → RepoProg Client}
    (hprog : x.prog c = .act (.unlock id) k) :
    id ∈ x.shared.held c ∧ ∀ d, id ∈ x.shared.held d → d = c := by
  obtain ⟨own, hI, hwp⟩ := hx
  have hc := hwp c
  rw [hprog, Protocol.wp_act] at hc
  have hmem : id ∈ x.shared.held c := by
    rw [hI.held]
    exact hc.1
  exact ⟨hmem, fun d hd => hI.exclusive.unique d c id hd hmem⟩

/-- **So none of its releases is of another's lock.** -/
theorem run_of_commitsHeld
    (hrun : ((system C (fun held id => id ∈ held)).restrict CommitsHeld).Run (initial C s) x) :
    ((system C (fun _ _ => True)).restrict NoForeignRelease).Run (initial C s) x := by
  induction hrun with
  | refl => exact .refl
  | tail hrun hstep ih =>
    refine ih.tail ?_
    cases hstep with
    | act c a k r h' hprog hsem =>
      refine .act c a k r h' hprog ⟨hsem.1, ?_⟩
      cases a with
      | unlock id => exact (mem_held_of_holds (holds_of_commitsHeld hrun) hprog).2
      | _ => trivial
    | start c l p hprog hstart => exact .start c l p hprog (hstart.mono (fun _ _ _ => trivial))

/-- **Locks stay with their holders** in every run without a release of another's lock. -/
theorem exclusive_of_run
    (hrun : ((system C (fun _ _ => True)).restrict NoForeignRelease).Run (initial C s) x) :
    Exclusive x.shared.shared.locked x.shared.held := by
  induction hrun with
  | refl => exact Exclusive.empty _
  | tail _ hstep ih =>
    cases hstep with
    | act c a k r h' _ hsem =>
      exact LockHistory.exclusive_of_sem ih hsem.1 (fun id ha => by subst ha; exact hsem.2)
    | start => exact ih

/-- **A release of another's lock** leaves the lock held and free, and whoever locks it next
holds it too. -/
theorem held_and_free {h h' : LockHistory C} {c d : C} {id : String} (hd : id ∈ h.held d)
    (hdc : d ≠ c) (hsem : LockHistory.Sem c (.unlock id) h (.ok ()) h') :
    id ∈ h'.held d ∧ h'.shared.locked id = false
      ∧ ∀ e, ∃ h'', LockHistory.Sem e (.lock id) h' (.ok ()) h'' ∧ id ∈ h''.held e ∧ id ∈ h''.held d := by
  obtain ⟨⟨hact, -⟩, hheld⟩ := hsem
  have hfree : h'.shared.locked id = false := by
    rw [(RepoAction.sem_unlock.mp hact).2]
    exact Shared.locked_setLocked_self _ _ _
  have hmem : id ∈ h'.held d := by
    rw [hheld, Function.update_of_ne hdc]
    exact hd
  refine ⟨hmem, hfree, fun e => ?_⟩
  let h'' : LockHistory C := ⟨⟨h'.shared.setLocked id true, h'.log ++ []⟩,
    Function.update h'.held e (insert id (h'.held e))⟩
  have he : id ∈ h''.held e := by
    show id ∈ Function.update h'.held e _ e
    rw [Function.update_self]
    exact Finset.mem_insert_self _ _
  refine ⟨h'', ⟨⟨RepoAction.sem_lock.mpr ⟨hfree, rfl, rfl⟩, rfl⟩, rfl⟩, he, ?_⟩
  by_cases heq : d = e
  · exact heq ▸ he
  · show id ∈ Function.update h'.held e _ d
    rw [Function.update_of_ne heq]
    exact hmem

/-- **Clients are kept apart unless one releases what another holds.** In every run in which
no release, by a commit that returned `Ok` or by an abort, is of a lock that another
client holds: a lock that is held is taken, and no two clients hold the same. If a
client then releases a lock that another holds, that lock is free though it is held,
and whoever locks it next holds it as well. Runs whose successful commits name only ids
their client holds, each once, and whose aborts are of held ids, are among these, and
every release in them is by the holder. -/
theorem released_by_holder :
    (((system C (fun _ _ => True)).restrict NoForeignRelease).Run (initial C s) x →
      (∀ c id, id ∈ x.shared.held c → x.shared.shared.locked id = true)
      ∧ (∀ c d id, id ∈ x.shared.held c → id ∈ x.shared.held d → c = d)
      ∧ ∀ c d id h', id ∈ x.shared.held d → d ≠ c →
          LockHistory.Sem c (.unlock id) x.shared (.ok ()) h' →
          id ∈ h'.held d ∧ h'.shared.locked id = false
            ∧ ∀ e, ∃ h'', LockHistory.Sem e (.lock id) h' (.ok ()) h''
              ∧ id ∈ h''.held e ∧ id ∈ h''.held d)
    ∧ (((system C (fun held id => id ∈ held)).restrict CommitsHeld).Run (initial C s) x →
      ((system C (fun _ _ => True)).restrict NoForeignRelease).Run (initial C s) x
      ∧ ∀ c id k, x.prog c = .act (.unlock id) k →
          id ∈ x.shared.held c ∧ ∀ d, id ∈ x.shared.held d → d = c) := by
  refine ⟨fun hrun => ?_, fun hrun => ⟨run_of_commitsHeld hrun, fun c id k hprog =>
    mem_held_of_holds (holds_of_commitsHeld hrun) hprog⟩⟩
  have hex := exclusive_of_run hrun
  exact ⟨hex.locked, hex.unique, fun c d id h' hd hdc hsem => held_and_free hd hdc hsem⟩

end Law

/-! ## Releases of what others hold -/

/-- What an action does that does not iterate the map, a release if no other client holds
the lock. -/
def ownAlone (c : Bool) (a : RepoAction) (h : LockHistory Bool) :
    Option (a.Resp × LockHistory Bool) :=
  match a with
  | .unlock id => if ∀ d, id ∈ h.held d → d = c then LockHistory.alone c (.unlock id) h else none
  | a => LockHistory.alone c a h

theorem sem_of_ownAlone (c : Bool) (a : RepoAction) (h : LockHistory Bool) (r : a.Resp)
    (h' : LockHistory Bool) (halone : ownAlone c a h = some (r, h')) :
    LockHistory.Sem c a h r h' ∧ NoForeignRelease c a h r := by
  cases a with
  | unlock id =>
    by_cases hid : ∀ d, id ∈ h.held d → d = c
    · rw [ownAlone, if_pos hid] at halone
      exact ⟨LockHistory.sem_of_alone c _ h r h' halone, hid⟩
    · rw [ownAlone, if_neg hid] at halone
      cases halone
  | _ => exact ⟨LockHistory.sem_of_alone c _ h r h' halone, trivial⟩

/-- **The law is about something**: a client gets an id, commits an entity for it and gets it
again; meanwhile another commits a new entity whose lock it has never taken. -/
theorem released_by_holder_run :
    ∃ x : Config Bool RepoAction RepoAction.Resp (LockHistory Bool) Client,
      "todo-1" ∈ x.shared.held true ∧ x.shared.log.map Entity.id = ["todo-2", "todo-1"]
        ∧ ∀ c d id, id ∈ x.shared.held c → id ∈ x.shared.held d → c = d := by
  have h₀ : ((system Bool (fun _ _ => True)).restrict NoForeignRelease).Run
    (initial Bool Shared.empty) (initial Bool Shared.empty) := .refl
  have h₁ := h₀.call (sem_of_ownAlone true) rfl (.getOne _ "todo-1") rfl
  have h₂ := h₁.call (sem_of_ownAlone false) rfl (.create _ "todo-2") rfl
  have h₃ := h₂.call (sem_of_ownAlone false) rfl (.commit _ [_] [] (.refl _)) rfl
  have h₄ := h₃.call (sem_of_ownAlone true) rfl (.create _ "todo-1") rfl
  have h₅ := h₄.call (sem_of_ownAlone true) rfl (.commit _ [_] [] (.refl _)) rfl
  have h₆ := h₅.call (sem_of_ownAlone true) rfl (.getOne _ "todo-1") rfl
  exact ⟨_, by decide, rfl, (released_by_holder.1 h₆).2.1⟩

/-- **A lock about to be released can be taken** by the client that releases it,
whoever else holds it. -/
theorem retaken {may : Finset String → String → Prop}
    {w x : Config Bool RepoAction RepoAction.Resp (LockHistory Bool) Client} {c : Bool} {id : String}
    {k : (RepoAction.unlock id).Resp → RepoProg Client} (hx : (system Bool may).Run w x)
    (hprog : x.prog c = .act (.unlock id) k) {l : Client} (hk : k (.ok ()) = .ret l) :
    ∃ y, (system Bool may).Run w y ∧ id ∈ y.shared.held c
      ∧ ∀ d, d ≠ c → y.shared.held d = x.shared.held d := by
  let h₁ : LockHistory Bool := ⟨⟨x.shared.shared.setLocked id false, x.shared.log ++ []⟩,
    Function.update x.shared.held c ((x.shared.held c).erase id)⟩
  let h₂ : LockHistory Bool := ⟨⟨h₁.shared.setLocked id true, h₁.log ++ []⟩,
    Function.update h₁.held c (insert id (h₁.held c))⟩
  have hfree : h₁.shared.locked id = false := Shared.locked_setLocked_self _ _ _
  have hrun : (system Bool may).Run w _ := ((hx.tail
    (.act c _ k (.ok ()) h₁ hprog (LockHistory.sem_of_alone c _ _ _ _ rfl))).tail
    (.start c l _ ((Function.update_self _ _ _).trans hk) (.getOne l id))).tail
    (.act c _ _ (.ok ()) h₂ (Function.update_self _ _ _)
      ⟨⟨RepoAction.sem_lock.mpr ⟨hfree, rfl, rfl⟩, rfl⟩, rfl⟩)
  refine ⟨_, hrun, ?_, fun d hd => ?_⟩
  · show id ∈ Function.update h₁.held c (insert id (h₁.held c)) c
    rw [Function.update_self]
    exact Finset.mem_insert_self _ _
  · show Function.update h₁.held c _ d = _
    rw [Function.update_of_ne hd]
    exact Function.update_of_ne hd _ _

/-- **A foreign release**: while one client holds the lock of an id that it found
missing, another makes an entity with the id and commits it. The commit is
about to release the lock, and when it has, the second client takes it too. -/
theorem foreign_release :
    ∃ x y : Config Bool RepoAction RepoAction.Resp (LockHistory Bool) Client, ∃ k,
      (system Bool (fun _ _ => True)).Run (initial Bool Shared.empty) x
        ∧ (system Bool (fun _ _ => True)).Run (initial Bool Shared.empty) y
        ∧ x.prog false = .act (.unlock "todo-1") k
        ∧ ("todo-1" ∈ x.shared.held true ∧ "todo-1" ∉ x.shared.held false)
        ∧ "todo-1" ∈ y.shared.held true ∧ "todo-1" ∈ y.shared.held false := by
  have h₀ : (system Bool (fun _ _ => True)).Run (initial Bool Shared.empty) (initial Bool Shared.empty) := .refl
  have h₁ := h₀.call (LockHistory.sem_of_alone true) rfl (.getOne _ "todo-1") rfl
  have h₂ := h₁.call (LockHistory.sem_of_alone false) rfl (.create _ "todo-1") rfl
  have h₃ := (h₂.tail (.start false _ _ rfl (.commit _ [_] [] (.refl _)))).tail
    (.act false _ _ _ _ rfl (LockHistory.sem_of_alone false _ _ _ _ rfl))
  obtain ⟨y, hy, hfalse, htrue⟩ := retaken h₃ (c := false) rfl rfl
  refine ⟨_, y, _, h₃, hy, rfl, by decide, ?_, hfalse⟩
  rw [htrue true (by decide)]
  decide

/-- **A lock released twice**: a client that holds the lock of an id commits two
entities with it. After the first release another client takes the lock, and
the second is of that client's. -/
theorem released_twice :
    ∃ x : Config Bool RepoAction RepoAction.Resp (LockHistory Bool) Client, ∃ k,
      (system Bool (fun held id => id ∈ held)).Run (initial Bool Shared.empty) x
        ∧ x.prog true = .act (.unlock "todo-1") k
        ∧ "todo-1" ∉ x.shared.held true ∧ "todo-1" ∈ x.shared.held false := by
  have h₀ : (system Bool (fun held id => id ∈ held)).Run (initial Bool Shared.empty)
    (initial Bool Shared.empty) := .refl
  have h₁ := h₀.call (LockHistory.sem_of_alone true) rfl (.getOne _ "todo-1") rfl
  have h₂ := h₁.call (LockHistory.sem_of_alone true) rfl (.create _ "todo-1") rfl
  have h₃ := h₂.call (LockHistory.sem_of_alone true) rfl (.create _ "todo-1") rfl
  have h₄ := ((h₃.tail (.start true _ _ rfl (.commit _ [_, _] [] (.refl _)))).tail
    (.act true _ _ _ _ rfl (LockHistory.sem_of_alone true _ _ _ _ rfl))).tail
    (.act true _ _ _ _ rfl (LockHistory.sem_of_alone true _ _ _ _ rfl))
  have h₅ := System.Run.call (LockHistory.sem_of_alone false) h₄ rfl (.getOne _ "todo-1") rfl
  exact ⟨_, _, h₅, rfl, by decide, by decide⟩

end LockOwnership
