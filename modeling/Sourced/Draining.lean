import Sourced.OutboxClaims
import Sourced.OutboxSearches
import Sourced.Pipeline
import Mathlib.Algebra.BigOperators.Fin

/-!
# How fast the outbox is drained

Threads count what they have published and what they have been refused
(`WorkerStats`), and the store knows what is pending, in flight and published. The two
agree: every step moves messages from one status to another
(`EventStore.Moved`), and counts them (`OutboxWorkers.Tally`).

A claim takes a hundred of the pending messages, or all, whoever makes it. So
while nothing new is committed and no publisher refuses, every poll of any thread leaves a
hundred fewer (`OutboxWorkers.drains`); and nothing keeps a thread from polling, so
that what is pending can always be published (`OutboxWorkers.can_drain`).
-/

open OutboxMessage (Codecs Readings Story Tells Advances hasPrefix normalizeId claims)

variable {checks : OverflowChecks} {C : Codecs}

/-! ## The statuses of the messages of a store -/

namespace EventStore

variable {s s' : EventStore} {id : String} {m : OutboxMessage}

/-- **The status of the message under an id**, if there is one. -/
def statusAt (checks : OverflowChecks) (C : Codecs) (s : EventStore) (id : String) :
    Option OutboxMessageStatus :=
  match s.messageEvents id with
  | none => none
  | some l =>
    match content checks C l with
    | .ok m => some m.status
    | .error _ => none

/-- **The ids of the messages with a status.** -/
def having (checks : OverflowChecks) (C : Codecs) (s : EventStore) (status : OutboxMessageStatus) :
    Finset String :=
  s.streams.keys.filter (fun id => s.statusAt checks C id = some status)

/-- **How often messages have been claimed**, all together. -/
def allClaims (s : EventStore) : ℕ := ∑ id ∈ s.streams.keys, claims (s.stream id)

theorem mem_keys : id ∈ s.streams.keys ↔ (s.lookup id).isSome := by
  rw [Finmap.mem_keys, lookup, Finmap.lookup_isSome]

theorem isSome_of_statusAt {status : OutboxMessageStatus} (h : s.statusAt checks C id = some status) :
    (s.lookup id).isSome := by
  unfold statusAt at h
  cases hl : s.messageEvents id with
  | none => simp [hl] at h
  | some l => simp [(messageEvents_eq_some.mp hl).1]

@[simp] theorem mem_having {status : OutboxMessageStatus} :
    id ∈ s.having checks C status ↔ s.statusAt checks C id = some status := by
  rw [having, Finset.mem_filter, mem_keys, and_iff_right_iff_imp]
  exact isSome_of_statusAt

theorem statusAt_congr (h : s'.lookup id = s.lookup id) :
    s'.statusAt checks C id = s.statusAt checks C id := by
  unfold statusAt
  rw [messageEvents_congr h]

theorem Message.statusAt_eq (hC : C.Lawful) (h : s.Message checks C id m) :
    s.statusAt checks C id = some m.status := by
  obtain ⟨l, hl, hstory⟩ := h
  have hcontent : content checks C l = .ok _ :=
    content_of_hydrate (hydrateMessage_eq hC hstory SystemTime.unixEpoch)
  simp [statusAt, messageEvents_eq_some.mpr ⟨hl, hstory.hasPrefix⟩, hcontent]
  rfl

/-- The pending ids are those that a claim finds pending. -/
theorem length_pendingIds {ord : List String} (hord : s.Enumerates ord) :
    (s.pendingIds checks C ord).length = (s.having checks C .pending).card := by
  have hpending : ∀ id, s.pendingAt checks C id = true ↔ s.statusAt checks C id = some .pending := by
    intro id
    unfold pendingAt statusAt
    cases s.messageEvents id with
    | none => simp
    | some l => cases hm : content checks C l <;> simp [hm, OutboxMessage.isPending]
  have hset : (s.pendingIds checks C ord).toFinset = s.having checks C .pending := by
    ext id
    rw [List.mem_toFinset, pendingIds, List.mem_filter, hord.2, hpending, mem_having]
    exact ⟨And.right, fun h => ⟨isSome_of_statusAt h, h⟩⟩
  rw [← hset, List.toFinset_card_of_nodup]
  exact hord.1.filter _

/-! ### A store with one message -/

namespace Single

variable {l : List EventRecord}

theorem keys_eq (h : Single checks C s id l m) : s.streams.keys = {id} := by
  ext id'
  rw [mem_keys, Finset.mem_singleton]
  exact ⟨h.only id', fun heq => by rw [heq, h.stored]; rfl⟩

theorem having_pending (h : Single checks C s id l m) (hC : C.Lawful) :
    s.having checks C .pending = {id} := by
  have hm : s.Message checks C id m := ⟨l, h.stored, h.story⟩
  have hstatus : s.statusAt checks C id = some .pending := by rw [hm.statusAt_eq hC, h.pending]
  rw [having, h.keys_eq, Finset.filter_singleton, if_pos hstatus]

theorem allClaims_eq (h : Single checks C s id l m) : s.allClaims = claims l := by
  rw [allClaims, h.keys_eq, Finset.sum_singleton, lookup_eq_some h.stored]

theorem message_eq (h : Single checks C s id l m) (hC : C.Lawful) {id' : String} {m' : OutboxMessage}
    (hm' : s.Message checks C id' m') : m' = m := by
  have hid : id' = id := by
    obtain ⟨l', hl', -⟩ := hm'
    exact h.only id' (by rw [hl']; rfl)
  exact (hid ▸ hm').unique hC ⟨l, h.stored, h.story⟩

end Single

/-! ### Messages moved from one status to another -/

/-- **Some messages have gone from a status to another**, with `n` claims each, and
nothing else has happened. -/
structure Moved (checks : OverflowChecks) (C : Codecs) (s s' : EventStore) (ids : Finset String) (n : ℕ)
    (was is : Option OutboxMessageStatus) : Prop where
  before : ∀ id ∈ ids, s.statusAt checks C id = was
  after : ∀ id ∈ ids, s'.statusAt checks C id = is
  others : ∀ id ∉ ids, s'.lookup id = s.lookup id
  claims : ∀ id ∈ ids, claims (s'.stream id) = claims (s.stream id) + n

namespace Moved

variable {ids : Finset String} {n : ℕ} {was is : Option OutboxMessageStatus}
  {status : OutboxMessageStatus}

theorem of_lookup (h : ∀ id, s'.lookup id = s.lookup id) : Moved checks C s s' ∅ n was is where
  before := by simp
  after := by simp
  others id _ := h id
  claims := by simp

/-- **They have left the one.** -/
theorem card_was (h : Moved checks C s s' ids n (some status) is) (hne : is ≠ some status) :
    (s'.having checks C status).card + ids.card = (s.having checks C status).card := by
  have hset : s'.having checks C status = s.having checks C status \ ids := by
    ext id
    by_cases hid : id ∈ ids
    · simp [hid, h.after id hid, hne]
    · simp [hid, statusAt_congr (h.others id hid)]
  have hsub : ids ⊆ s.having checks C status := fun id hid => by simp [h.before id hid]
  rw [hset, Finset.card_sdiff_of_subset hsub]
  exact Nat.sub_add_cancel (Finset.card_le_card hsub)

/-- **They have come to the other.** -/
theorem card_is (h : Moved checks C s s' ids n was (some status)) (hne : was ≠ some status) :
    (s'.having checks C status).card = (s.having checks C status).card + ids.card := by
  have hset : s'.having checks C status = s.having checks C status ∪ ids := by
    ext id
    by_cases hid : id ∈ ids
    · simp [hid, h.after id hid]
    · simp [hid, statusAt_congr (h.others id hid)]
  rw [hset, Finset.card_union_of_disjoint]
  exact Finset.disjoint_left.mpr (fun id hid hids =>
    hne ((h.before id hids).symm.trans (by simpa using hid)))

theorem having_eq (h : Moved checks C s s' ids n was is) (status : OutboxMessageStatus)
    (hwas : was ≠ some status)
    (his : is ≠ some status) : s'.having checks C status = s.having checks C status := by
  ext id
  by_cases hid : id ∈ ids
  · simp [h.before id hid, h.after id hid, hwas, his]
  · simp [statusAt_congr (h.others id hid)]

/-- **The claims are counted.** -/
theorem allClaims (h : Moved checks C s s' ids n was (some status)) :
    s'.allClaims = s.allClaims + n * ids.card := by
  have hids : ids ⊆ s.streams.keys ∪ s'.streams.keys := fun id hid =>
    Finset.mem_union_right _ (mem_keys.mpr (isSome_of_statusAt (h.after id hid)))
  have hsum : ∀ t : EventStore, t.streams.keys ⊆ s.streams.keys ∪ s'.streams.keys →
      t.allClaims = ∑ id ∈ s.streams.keys ∪ s'.streams.keys, OutboxMessage.claims (t.stream id) := by
    intro t ht
    refine Finset.sum_subset ht (fun id _ hid => ?_)
    rw [mem_keys, Option.not_isSome_iff_eq_none] at hid
    simp [stream, hid, OutboxMessage.claims]
  have hclaims : ∀ id, OutboxMessage.claims (s'.stream id)
      = OutboxMessage.claims (s.stream id) + if id ∈ ids then n else 0 := by
    intro id
    by_cases hid : id ∈ ids
    · simp [hid, h.claims id hid]
    · simp [hid, stream, h.others id hid]
  rw [hsum s Finset.subset_union_left, hsum s' Finset.subset_union_right]
  simp only [hclaims, Finset.sum_add_distrib, ← Finset.sum_filter]
  rw [Finset.filter_mem_eq_inter, Finset.inter_eq_right.mpr hids, Finset.sum_const, smul_eq_mul, mul_comm]

end Moved

theorem claims_of_advances {k : EventMethod OutboxMessage} {x : k.Args} {l l' : List EventRecord}
    {m' : OutboxMessage} (h : Advances checks C id k x l l' m m') :
    claims l' = claims l + if k.name = "MessageClaimed" then 1 else 0 := by
  obtain ⟨r, hname, rfl⟩ := h.events
  simp [claims, List.countP_append, List.countP_cons, hname]

variable {ids : List String} {clock : String → Readings} {workerId : String} {lease : Duration}
  {max : ℕ} {batch : List (Agg OutboxMessage)}

/-- **A claim moves the messages it returns.** -/
theorem Claims.moved (hC : C.Lawful) (h : Claims checks C clock workerId lease ids s s' batch) :
    Moved checks C s s' (batch.map (fun a => a.entity.id)).toFinset 1 (some .pending)
      (some .inFlight) := by
  have hmessage : ∀ a ∈ batch, ∃ l l' x m m', s.lookup a.entity.id = some l
      ∧ s'.lookup a.entity.id = some l'
      ∧ Advances checks C a.entity.id (OutboxMessage.claim checks C) x l l' m m' := by
    intro a ha
    obtain ⟨hl', m, m', ⟨leasedUntil, l, -, hl, hadv⟩, -, -⟩ := h.each a ha
    exact ⟨l, _, _, m, m', hl, hl', hadv⟩
  have hmem : ∀ id, id ∈ (batch.map (fun a => a.entity.id)).toFinset
      ↔ ∃ a ∈ batch, a.entity.id = id := by simp
  refine ⟨fun id hid => ?_, fun id hid => ?_, fun id hid => ?_, fun id hid => ?_⟩
  · obtain ⟨a, ha, rfl⟩ := (hmem id).mp hid
    obtain ⟨l, l', x, m, m', hl, -, hadv⟩ := hmessage a ha
    rw [Message.statusAt_eq hC ⟨l, hl, hadv.before⟩, hadv.claimed.1]
  · obtain ⟨a, ha, rfl⟩ := (hmem id).mp hid
    obtain ⟨l, l', x, m, m', -, hl', hadv⟩ := hmessage a ha
    have hnext := hadv.took.next
    rw [hadv.claimed.1] at hnext
    rw [Message.statusAt_eq hC ⟨l', hl', hadv.after⟩, ← Option.some.inj hnext]
  · exact h.others id (fun hmem => hid (List.mem_toFinset.mpr hmem))
  · obtain ⟨a, ha, rfl⟩ := (hmem id).mp hid
    obtain ⟨l, l', x, m, m', hl, hl', hadv⟩ := hmessage a ha
    rw [lookup_eq_some hl, lookup_eq_some hl', claims_of_advances hadv]
    rfl

/-- **A claim that returns has claimed a batch, or all.** -/
theorem length_of_claim (hC : C.Lawful) (hs : Stories checks C s) (hord : s.Enumerates ids)
    (hmax : 0 < max)
    (h : s.claimOutboxMessages checks C ids clock workerId max lease = (.ok batch, s')) :
    batch.length = min max (s.having checks C .pending).card := by
  have hl : ∀ id l, s.messageEvents id = some l → ∃ m, content checks C l = .ok m := by
    intro id l hevents
    obtain ⟨hl, hpre⟩ := messageEvents_eq_some.mp hevents
    obtain ⟨m, hstory⟩ := hs id l hl hpre
    exact ⟨_, content_of_hydrate (hydrateMessage_eq hC hstory SystemTime.unixEpoch)⟩
  cases hp : s.poisoned with
  | true =>
    rw [claimOutboxMessages, hp] at h
    cases h
  | false =>
    rw [claimOutboxMessages, hp, if_neg Bool.false_ne_true] at h
    obtain ⟨before, new, s₁, hbefore, hpassed, hloop⟩ := claimLoop_ok hC workerId hord.1 hmax hl
      (passes_of_claimLoop_ok hC hord.1 hl h)
    rw [h] at hloop
    obtain rfl : batch = new := Except.ok.inj (Prod.mk.inj hloop).1
    rw [hpassed.length_eq, hbefore, List.length_take, length_pendingIds hord]

/-- **A message settled moves.** -/
theorem Advanced.moved (hC : C.Lawful) {u : Settling} {m' : OutboxMessage}
    (h : s.Advanced checks C s' id (u.method C) (u.args C) m m') :
    Moved checks C s s' {id} 0 (some m.status) (some m'.status) := by
  obtain ⟨l, l', hl, hl', hadv⟩ := h.stored
  have hname : (u.method C).name ≠ "MessageClaimed" := by
    cases u <;> simp [Settling.method, OutboxMessage.complete, OutboxMessage.release, OutboxMessage.fail]
  refine ⟨?_, ?_, fun id' hid' => h.others id' (by simpa using hid'), ?_⟩
  · simpa using Message.statusAt_eq hC ⟨l, hl, hadv.before⟩
  · simpa using Message.statusAt_eq hC ⟨l', hl', hadv.after⟩
  · simp [lookup_eq_some hl, lookup_eq_some hl', claims_of_advances hadv, hname]

/-- **New messages committed move from nowhere.** -/
theorem exists_moved_of_commit (hs : Stories checks C s)
    (hnew : ∀ a ∈ batch, ∃ (now : SystemTime) (id eventType : String) (payload : Bytes)
      (destination : Option String) (metadata : Metadata),
      OutboxMessage.construct C now id eventType payload destination metadata = some a)
    (hnd : (batch.map (fun a => a.entity.id)).Nodup) (hC : C.Lawful) {r : RepoRes Unit} {es : List Entity}
    (hcommit : s.commit (batch.map Agg.entity) = (r, es, s')) :
    s'.poisoned = s.poisoned
      ∧ ∃ ids, Moved checks C s s' ids 0 none (some .pending) ∧ ∀ id ∈ ids, s.lookup id = none := by
  have hhands : ∀ a ∈ batch, s.Hand checks C a := fun a ha => by
    obtain ⟨now, id, eventType, payload, destination, metadata, hconstruct⟩ := hnew a ha
    exact .construct hconstruct _
  rcases commit_hands hhands hnd hcommit with ⟨-, -, rfl⟩ | ⟨-, -, hp, hstored, hothers⟩
  · exact ⟨rfl, ∅, .of_lookup (fun _ => rfl), by simp⟩
  have hmessage : ∀ a ∈ batch, s.lookup a.entity.id = none ∧ s'.lookup a.entity.id = some a.entity.events
      ∧ claims a.entity.events = 0
      ∧ ∃ m, Story checks C a.entity.id a.entity.events m ∧ m.status = .pending := by
    intro a ha
    obtain ⟨hstream, hl'⟩ := hstored a ha
    obtain ⟨now, id, eventType, payload, destination, metadata, hconstruct⟩ := hnew a ha
    obtain ⟨b, hb, -, hcommitted, ⟨r, hevents⟩, htells⟩ :=
      Tells.construct checks C now id eventType payload destination metadata
    obtain rfl : b = a := Option.some.inj (hb.symm.trans hconstruct)
    refine ⟨?_, hl', ?_, _, htells.story, rfl⟩
    · -- the version check says that nothing was stored under the id
      rw [hcommitted, List.take_zero] at hstream
      cases hl : s.lookup b.entity.id with
      | none => rfl
      | some l =>
        obtain ⟨m, hstory⟩ := hs _ l hl htells.story.hasPrefix
        exact absurd ((lookup_eq_some hl).symm.trans hstream) hstory.ne_nil
    · obtain ⟨⟨names, hnames, -⟩, -⟩ := htells.story.machine
      rw [hevents] at hnames ⊢
      simp [claims, (List.cons.inj hnames).1]
  have hmem : ∀ id, id ∈ (batch.map (fun a => a.entity.id)).toFinset
      ↔ ∃ a ∈ batch, a.entity.id = id := by simp
  refine ⟨hp, (batch.map (fun a => a.entity.id)).toFinset, ⟨fun id hid => ?_, fun id hid => ?_,
    fun id hid => ?_, fun id hid => ?_⟩, fun id hid => ?_⟩
  · obtain ⟨a, ha, rfl⟩ := (hmem id).mp hid
    simp [statusAt, messageEvents, (hmessage a ha).1]
  · obtain ⟨a, ha, rfl⟩ := (hmem id).mp hid
    obtain ⟨-, hl', -, m, hstory, hpending⟩ := hmessage a ha
    rw [Message.statusAt_eq hC ⟨_, hl', hstory⟩, hpending]
  · exact hothers id (fun hmem => hid (List.mem_toFinset.mpr hmem))
  · obtain ⟨a, ha, rfl⟩ := (hmem id).mp hid
    obtain ⟨hnone, hl', hclaims, -⟩ := hmessage a ha
    simp [stream, hnone, hl', hclaims]
    rfl
  · obtain ⟨a, ha, rfl⟩ := (hmem id).mp hid
    exact (hmessage a ha).1

end EventStore

namespace OutboxWorkers

variable {W : Type} [DecidableEq W] {st st' : OutboxWorkers W} {w : W}

/-! ## The threads, all together -/

/-- A number of every thread, added up. -/
def total [Fintype W] (st : OutboxWorkers W) (f : OutboxWorkerThread → ℕ) : ℕ := ∑ w, f (st.threads w)

section Total

variable [Fintype W] (f : OutboxWorkerThread → ℕ)

omit [DecidableEq W] in
@[simp] theorem total_withStore (s : EventStore) : (st.withStore s).total f = st.total f := rfl

omit [DecidableEq W] in
@[simp] theorem total_deliver (destination : Option String) (event : Event) :
    (st.deliver destination event).total f = st.total f := rfl

/-- **One thread in another state.** -/
theorem total_set (st : OutboxWorkers W) (w : W) (thread : OutboxWorkerThread) :
    (st.set w thread).total f + f (st.threads w) = st.total f + f thread := by
  have hrest : ∑ w' ∈ Finset.univ.erase w, f ((st.set w thread).threads w')
      = ∑ w' ∈ Finset.univ.erase w, f (st.threads w') :=
    Finset.sum_congr rfl (fun w' hw' => by rw [threads_set_of_ne (Finset.ne_of_mem_erase hw')])
  rw [total, total, ← Finset.add_sum_erase _ _ (Finset.mem_univ w), hrest, threads_set_self,
    ← Finset.add_sum_erase _ (fun w => f (st.threads w)) (Finset.mem_univ w)]
  omega

theorem total_set_of_eq {st' : OutboxWorkers W} {thread : OutboxWorkerThread}
    (hthreads : st'.threads = st.threads) (hf : f thread = f (st.threads w)) :
    (st'.set w thread).total f = st.total f := by
  have hset := total_set f st' w thread
  rw [hthreads, ← hf] at hset
  exact (Nat.add_right_cancel hset).trans (by rw [total, total, hthreads])

end Total

/-- A message is committed, and nothing else has happened. -/
theorem exists_committed (checks : OverflowChecks) (hC : C.Lawful) : ∃ st : OutboxWorkers Unit,
    Run checks C (initial fun _ => ("w", false)) st ∧ st.store.poisoned = false
      ∧ (st.threads ()).phase = .checking ∧ (st.threads ()).stop = false
      ∧ st.store.having checks C .pending = {"outbox:m"}
      ∧ ∀ id m, st.store.Message checks C id m → m.attempts = 0 := by
  obtain ⟨a, es, s, l, m, ha, hcommit, hsingle, hclaims⟩ := EventStore.Single.exists_commit checks C [] ∅
  refine ⟨(initial fun _ => ("w", false)).withStore s, .single (.commit (fun b (hb : b ∈ [a]) =>
    List.mem_singleton.mp hb ▸ ⟨_, _, _, _, _, _, ha⟩) (List.nodup_singleton _) hcommit),
    hsingle.not_poisoned, rfl, rfl, hsingle.having_pending hC, fun id m' hm' => ?_⟩
  rw [hsingle.message_eq hC hm', hsingle.story.machine.2.1.1, hclaims]
  rfl

/-- A poisoned store stays poisoned. -/
theorem Step.poisoned (h : Step checks C st st') (hp : st.store.poisoned = true) :
    st'.store.poisoned = true := by
  cases h with
  | signal | stop | poll | taken | refused | sleep => exact hp
  | claim hphase hord hclaim | claimFails hphase hord hclaim | claimPanics hphase hord hclaim =>
    rw [EventStore.claimOutboxMessages, hp] at hclaim
    first | cases hclaim; done | exact (Prod.mk.inj hclaim).2 ▸ hp
  | complete hphase hcomplete =>
    have hrun := (Settling.complete.run_of_poisoned hp).symm.trans hcomplete
    exact (Prod.mk.inj hrun).2 ▸ hp
  | release hphase hrelease =>
    have hrun := ((Settling.release _).run_of_poisoned hp).symm.trans hrelease
    exact (Prod.mk.inj hrun).2 ▸ hp
  | commit hnew hnd hcommit =>
    rw [EventStore.commit_of_poisoned _ hp] at hcommit
    exact (Prod.mk.inj (Prod.mk.inj hcommit).2).2 ▸ hp

variable (checks C) in
/-- **The threads have counted right**: what is in flight is in their hands, what they have
published is published, and every claim came to one of these or to a refusal. -/
structure Tally [Fintype W] (st : OutboxWorkers W) : Prop where
  inFlight : (st.store.having checks C .inFlight).card = st.total (fun t => t.phase.batch.length)
  published : (st.store.having checks C .published).card = st.total (fun t => t.stats.messagesPublished)
  claims : st.store.allClaims = st.total (fun t => t.phase.batch.length)
    + st.total (fun t => t.stats.messagesPublished) + st.total (fun t => t.stats.messagesFailed)

namespace Inv

/-- **A thread that settles a message moves it.** -/
theorem moved_settled (hC : C.Lawful) (h : Inv checks C st) (hp : st.store.poisoned = false)
    {wasTaken : Bool} {a : Agg OutboxMessage} {batch : List (Agg OutboxMessage)}
    (hphase : (st.threads w).phase = .settling wasTaken a batch) {u : Settling}
    (hu : ∀ m, u.settles m = m.isInFlight) {status : OutboxMessageStatus}
    (hstatus : ∀ m, (Settling.after m u).status = status) {t : Readings} {r : RepoRes Unit}
    {s : EventStore} (hrun : u.run checks C t st.store a.entity.id = (r, s)) :
    r = .ok () ∧ s.poisoned = false
      ∧ EventStore.Moved checks C st.store s {a.entity.id} 0 (some .inFlight) (some status) := by
  obtain ⟨m, hm, hflight⟩ := (h.settles hphase).flight
  have hnormal : normalizeId a.entity.id = a.entity.id := by
    obtain ⟨l, -, hstory⟩ := hm
    exact OutboxMessage.normalizeId_of_hasPrefix hstory.hasPrefix
  obtain ⟨s', hrun', hsettled⟩ := u.run_spec (t := t) hC hp (hnormal.symm ▸ hm)
  obtain ⟨rfl, rfl⟩ := Prod.mk.inj (hrun.symm.trans hrun')
  rw [hnormal, hu, show m.isInFlight = true from decide_eq_true hflight] at hsettled
  cases hsettled with
  | inl hsame => simp at hsame
  | inr hadvanced =>
    have hmoved := hadvanced.2.moved hC
    rw [hflight, hstatus] at hmoved
    exact ⟨rfl, hadvanced.2.poisoned.trans hp, hmoved⟩

end Inv

namespace Tally

variable [Fintype W]

omit [DecidableEq W] in
/-- Nothing is counted at first. -/
theorem initial (spawned : W → String × Bool) : Tally checks C (OutboxWorkers.initial spawned) := by
  constructor
  · show (EventStore.new.having checks C .inFlight).card = _
    simp [OutboxWorkers.initial, OutboxWorkerThread.spawn, total, WorkerPhase.batch]
    rfl
  · show (EventStore.new.having checks C .published).card = _
    simp [OutboxWorkers.initial, OutboxWorkerThread.spawn, total]
    rfl
  · simp [OutboxWorkers.initial, OutboxWorkerThread.spawn, total, WorkerPhase.batch, EventStore.allClaims,
      EventStore.new]

/-- **A step that settles no message**, and hands over at most. -/
theorem same (h : Tally checks C st) (st' : OutboxWorkers W) (hstore : st'.store = st.store)
    (hthreads : st'.threads = st.threads) {thread : OutboxWorkerThread}
    (hbatch : thread.phase.batch.length = (st.threads w).phase.batch.length)
    (hpublished : thread.stats.messagesPublished = (st.threads w).stats.messagesPublished)
    (hfailed : thread.stats.messagesFailed = (st.threads w).stats.messagesFailed) :
    Tally checks C (st'.set w thread) := by
  have hbatch' := total_set_of_eq (fun t => t.phase.batch.length) hthreads hbatch
  have hpublished' := total_set_of_eq (fun t => t.stats.messagesPublished) hthreads hpublished
  have hfailed' := total_set_of_eq (fun t => t.stats.messagesFailed) hthreads hfailed
  exact ⟨by rw [store_set, hstore, hbatch', h.inFlight],
    by rw [store_set, hstore, hpublished', h.published],
    by rw [store_set, hstore, hbatch', hpublished', hfailed', h.claims]⟩

/-- **A step that moves messages**, with what the thread counts of it. -/
theorem moved (h : Tally checks C st) {s : EventStore} {ids : Finset String} {n : ℕ}
    {was is : OutboxMessageStatus} (hne : was ≠ is)
    (hmoved : EventStore.Moved checks C st.store s ids n (some was) (some is))
    {thread : OutboxWorkerThread}
    (hbatch : thread.phase.batch.length + (if was = .inFlight then ids.card else 0)
      = (st.threads w).phase.batch.length + if is = .inFlight then ids.card else 0)
    (hpublished : thread.stats.messagesPublished + (if was = .published then ids.card else 0)
      = (st.threads w).stats.messagesPublished + if is = .published then ids.card else 0)
    (hclaims : n * ids.card + (st.threads w).phase.batch.length + (st.threads w).stats.messagesPublished
        + (st.threads w).stats.messagesFailed
      = thread.phase.batch.length + thread.stats.messagesPublished + thread.stats.messagesFailed) :
    Tally checks C ((st.withStore s).set w thread) := by
  have hcard : ∀ status, (s.having checks C status).card + (if was = status then ids.card else 0)
      = (st.store.having checks C status).card + if is = status then ids.card else 0 := by
    intro status
    by_cases hwas : was = status
    · subst hwas
      simpa [Ne.symm hne] using hmoved.card_was (by simpa using Ne.symm hne)
    · by_cases his : is = status
      · subst his
        simpa [hwas] using hmoved.card_is (by simpa using hwas)
      · simpa [hwas, his] using congrArg Finset.card (hmoved.having_eq status
          (by simpa using hwas) (by simpa using his))
  have hall := hmoved.allClaims
  have htotal := fun f => total_set f (st.withStore s) w thread
  have hthread : (st.withStore s).threads w = st.threads w := rfl
  simp only [total_withStore, hthread] at htotal
  have hbatch' := htotal (fun t => t.phase.batch.length)
  have hpublished' := htotal (fun t => t.stats.messagesPublished)
  have hfailed' := htotal (fun t => t.stats.messagesFailed)
  obtain ⟨h₁, h₂, h₃⟩ := h
  have h₁' := hcard .inFlight
  have h₂' := hcard .published
  constructor
  · show (s.having checks C .inFlight).card = _
    omega
  · show (s.having checks C .published).card = _
    omega
  · show s.allClaims = _
    omega

omit [DecidableEq W] in
/-- **New messages** count as nothing yet. -/
theorem commit (h : Tally checks C st) {s : EventStore} {ids : Finset String}
    (hmoved : EventStore.Moved checks C st.store s ids 0 none (some .pending)) :
    Tally checks C (st.withStore s) := by
  have hall := hmoved.allClaims
  rw [Nat.zero_mul, Nat.add_zero] at hall
  have hflight := hmoved.having_eq .inFlight (by simp) (by simp)
  have hpublished := hmoved.having_eq .published (by simp) (by simp)
  exact ⟨(congrArg Finset.card hflight).trans h.inFlight,
    (congrArg Finset.card hpublished).trans h.published, hall.trans h.claims⟩

/-- **Every step is counted.** -/
theorem step (hC : C.Lawful) (hinv : Inv checks C st) (hstories : EventStore.Stories checks C st.store)
    (h : Tally checks C st) (hp : st.store.poisoned = false) (hstep : Step checks C st st')
    (hp' : st'.store.poisoned = false) : Tally checks C st' := by
  cases hstep with
  | signal w => exact h.same st rfl rfl rfl rfl rfl
  | stop hphase | poll hphase | sleep hphase | refused hphase =>
    exact h.same st rfl rfl (by rw [hphase]; rfl) rfl rfl
  | taken hphase => exact h.same (st.deliver _ _) rfl rfl (by rw [hphase]; rfl) rfl rfl
  | commit hnew hnd hcommit =>
    obtain ⟨-, ids, hmoved, -⟩ := EventStore.exists_moved_of_commit hstories hnew hnd hC hcommit
    exact h.commit hmoved
  | claim hphase hord hclaim =>
    obtain ⟨-, hclaims⟩ := EventStore.claims_of_claim hC hstories hord hclaim
    have hcard := List.toFinset_card_of_nodup (hclaims.sublist.nodup hord.1)
    rw [List.length_map] at hcard
    refine h.moved (by decide) (hclaims.moved hC) ?_ ?_ ?_
    · simp [hphase, WorkerPhase.batch, hcard]
    · simp
    · simp [hphase, WorkerPhase.batch, hcard]
  | claimFails hphase hord hclaim => cases EventStore.claimOutboxMessages_spec hC hstories hp hord hclaim
  | claimPanics hphase hord hclaim =>
    cases EventStore.claimOutboxMessages_spec hC hstories hp hord hclaim with
    | panic _ hpoisoned => exact absurd (hpoisoned.symm.trans hp') (by decide)
  | complete hphase hcomplete =>
    obtain ⟨rfl, -, hmoved⟩ := hinv.moved_settled hC hp hphase (u := .complete) (fun _ => rfl)
      (fun _ => rfl) hcomplete
    refine h.moved (by decide) hmoved ?_ ?_ ?_
    · simp [hphase, WorkerPhase.batch]
    · simp [Except.isOk, Except.toBool]
    · simp [hphase, WorkerPhase.batch, Except.isOk, Except.toBool]
      omega
  | release hphase hrelease =>
    obtain ⟨rfl, -, hmoved⟩ := hinv.moved_settled hC hp hphase (u := .release _) (fun _ => rfl)
      (fun _ => rfl) hrelease
    refine h.moved (by decide) hmoved ?_ ?_ ?_
    · simp [hphase, WorkerPhase.batch]
    · simp
    · simp [hphase, WorkerPhase.batch]
      omega

/-- **Every run is counted**, as long as no claim has panicked. -/
theorem run (hC : C.Lawful) {spawned : W → String × Bool} (hrun : Run checks C (.initial spawned) st)
    (hp : st.store.poisoned = false) : Tally checks C st := by
  induction hrun with
  | refl => exact .initial spawned
  | tail hrun hstep ih =>
    obtain ⟨hands, hclients⟩ := Run.clients hrun
    have hp' := Bool.eq_false_iff.mpr (fun hpoisoned =>
      absurd (hp.symm.trans (hstep.poisoned hpoisoned)) (by decide))
    exact (ih hp').step hC (Inv.run hC hrun) (OutboxClients.inv_initial.run hC hclients).1.stories hp'
      hstep hp

end Tally

omit [DecidableEq W] in
/-- **What is stored is pending, in flight or published**, as long as no claim has panicked. -/
theorem Inv.card_keys (hC : C.Lawful) (h : Inv checks C st) (hp : st.store.poisoned = false) :
    st.store.streams.keys.card = (st.store.having checks C .pending).card
      + (st.store.having checks C .inFlight).card + (st.store.having checks C .published).card := by
  have hset : st.store.streams.keys = st.store.having checks C .pending
      ∪ st.store.having checks C .inFlight ∪ st.store.having checks C .published := by
    ext id
    simp only [Finset.mem_union, EventStore.mem_having, EventStore.mem_keys]
    refine ⟨fun hsome => ?_, fun h => ?_⟩
    · cases h.ledger id with
      | absent hnone => simp [hnone] at hsome
      | pending hm hstatus | unsent hm hstatus | sent hm hstatus | published hm hstatus =>
        simp [hm.statusAt_eq hC, hstatus]
      | lost _ _ hpoisoned => exact absurd (hpoisoned.symm.trans hp) (by decide)
    · rcases h with (h | h) | h <;> exact EventStore.isSome_of_statusAt h
  have hdisjoint : ∀ status status' : OutboxMessageStatus, status ≠ status' →
      Disjoint (st.store.having checks C status) (st.store.having checks C status') := by
    intro status status' hne
    refine Finset.disjoint_left.mpr (fun id h h' => hne ?_)
    exact Option.some.inj ((EventStore.mem_having.mp h).symm.trans (EventStore.mem_having.mp h'))
  rw [hset, Finset.card_union_of_disjoint, Finset.card_union_of_disjoint]
  · exact hdisjoint _ _ (by decide)
  · exact Finset.disjoint_union_left.mpr ⟨hdisjoint _ _ (by decide), hdisjoint _ _ (by decide)⟩

omit [DecidableEq W] in
theorem Tally.stored [Fintype W] (hC : C.Lawful) (h : Tally checks C st) (hinv : Inv checks C st)
    (hp : st.store.poisoned = false) :
    st.store.streams.keys.card = (st.store.having checks C .pending).card
      + st.total (fun t => t.phase.batch.length) + st.total (fun t => t.stats.messagesPublished) := by
  rw [← h.inFlight, ← h.published]
  exact hinv.card_keys hC hp

/-! ## Draining -/

/-- No publisher has refused a message that is to be released, and no claim has
panicked. -/
def Accepting (st : OutboxWorkers W) : Prop :=
  ∀ w, (∀ a batch, (st.threads w).phase ≠ .settling false a batch) ∧ (st.threads w).phase ≠ .panicked

/-- **Every thread is between two rounds**, or has stopped. -/
def Idle (st : OutboxWorkers W) : Prop :=
  ∀ w, (st.threads w).phase = .checking ∨ (st.threads w).phase = .stopped

variable (checks C) in
/-- **A quiet step**: nothing new is committed, and no publisher refuses and no claim panics. -/
def Quiet (st st' : OutboxWorkers W) : Prop :=
  Step checks C st st' ∧ st'.Accepting ∧ st.store.SameIds st'.store

variable (checks C) in
/-- **A quiet run.** -/
def QuietRun : OutboxWorkers W → OutboxWorkers W → Prop := Relation.ReflTransGen (Quiet checks C)

omit [DecidableEq W] in
theorem Idle.total_eq_zero [Fintype W] (h : st.Idle) {f : OutboxWorkerThread → ℕ}
    (hf : ∀ t, t.phase = .checking ∨ t.phase = .stopped → f t = 0) : st.total f = 0 :=
  Finset.sum_eq_zero (fun w _ => hf _ (h w))

omit [DecidableEq W] in
/-- **With idle threads, what is stored is pending or published**, and delivered in the
second case only. -/
theorem Inv.statusAt_of_idle (hC : C.Lawful) (h : Inv checks C st) (hp : st.store.poisoned = false)
    (hidle : st.Idle) {id : String} (hsome : (st.store.lookup id).isSome) :
    st.store.statusAt checks C id = some .pending ∧ st.deliveries id = 0
      ∨ st.store.statusAt checks C id = some .published ∧ st.deliveries id = 1 := by
  cases h.ledger id with
  | absent hnone => simp [hnone] at hsome
  | pending hm hstatus _ hnone =>
    exact Or.inl ⟨(hm.statusAt_eq hC).trans (congrArg some hstatus), hnone⟩
  | published hm hstatus _ hone =>
    exact Or.inr ⟨(hm.statusAt_eq hC).trans (congrArg some hstatus), hone⟩
  | lost _ _ hpoisoned => exact absurd (hpoisoned.symm.trans hp) (by decide)
  | unsent _ _ w hw => rcases hidle w with h | h <;> simp [h, WorkerPhase.unsent] at hw
  | sent _ _ w hw => rcases hidle w with h | h <;> simp [h, WorkerPhase.sent] at hw

theorem QuietRun.run (h : QuietRun checks C st st') : Run checks C st st' :=
  Relation.ReflTransGen.mono (fun _ _ (hstep : Quiet checks C _ _) => hstep.1) _ _ h

theorem QuietRun.sameIds (h : QuietRun checks C st st') : st.store.SameIds st'.store := by
  induction h with
  | refl => exact .refl _
  | tail _ hstep ih => exact ih.trans hstep.2.2

theorem QuietRun.keys_eq (h : QuietRun checks C st st') :
    st.store.streams.keys = st'.store.streams.keys := by
  ext id
  rw [EventStore.mem_keys, EventStore.mem_keys, h.sameIds id]

/-- **No refusal is counted in a quiet run.** -/
theorem QuietRun.messagesFailed [Fintype W] (h : QuietRun checks C st st') (haccepting : st.Accepting) :
    st'.total (fun t => t.stats.messagesFailed) = st.total (fun t => t.stats.messagesFailed) := by
  suffices hboth : st'.Accepting ∧ st'.total (fun t => t.stats.messagesFailed)
      = st.total (fun t => t.stats.messagesFailed) from hboth.2
  induction h with
  | refl => exact ⟨haccepting, rfl⟩
  | @tail st₁ st₂ _ hquiet ih =>
    obtain ⟨haccepting₁, hfailed⟩ := ih
    obtain ⟨hstep, haccepting₂, -⟩ := hquiet
    refine ⟨haccepting₂, Eq.trans ?_ hfailed⟩
    cases hstep with
    | release hphase => exact absurd hphase ((haccepting₁ _).1 _ _)
    | commit => rfl
    | complete => exact total_set_of_eq _ rfl (by dsimp only; split <;> rfl)
    | signal | stop | poll | claim | claimFails | claimPanics | taken | refused | sleep =>
      exact total_set_of_eq _ rfl rfl

omit [DecidableEq W] in
theorem Idle.accepting (h : st.Idle) : st.Accepting := fun w => by
  rcases h w with h | h <;> simp [h]

/-- Whether a thread is about to claim. -/
def claiming (t : OutboxWorkerThread) : ℕ :=
  match t.phase with
  | .claiming => 1
  | _ => 0

variable (checks C) in
/-- **Where a quiet run has got to**, from a number of polls and of pending messages: each
of its `k` claims has taken a batch of what was pending. -/
structure Drained [Fintype W] (polls pending k : ℕ) (st : OutboxWorkers W) : Prop where
  not_poisoned : st.store.poisoned = false
  accepting : st.Accepting
  polls : st.total (fun t => t.stats.polls) = polls + k + st.total claiming
  pending : (st.store.having checks C .pending).card = pending - OutboxWorkerThread.batchSize * k

namespace Drained

variable [Fintype W] {polls pending k : ℕ}

omit [DecidableEq W] in
theorem idle (hidle : st.Idle) (hp : st.store.poisoned = false) :
    Drained checks C (st.total (fun t => t.stats.polls)) (st.store.having checks C .pending).card 0 st := by
  have hclaiming : st.total claiming = 0 := hidle.total_eq_zero (fun t ht => by
    rcases ht with h | h <;> simp [claiming, h])
  exact ⟨hp, hidle.accepting, by simp [hclaiming], by simp⟩

/-- **A step of one thread**, after which `k'` claims have been made. -/
theorem set (h : Drained checks C polls pending k st) (st' : OutboxWorkers W) {k' : ℕ}
    (hthreads : st'.threads = st.threads) (hp : st'.store.poisoned = false)
    (hpending : (st'.store.having checks C .pending).card = pending - OutboxWorkerThread.batchSize * k')
    {thread : OutboxWorkerThread} (haccepting : (st'.set w thread).Accepting)
    (hpolls : thread.stats.polls + claiming (st.threads w) + k
      = (st.threads w).stats.polls + claiming thread + k') :
    Drained checks C polls pending k' (st'.set w thread) := by
  have htotal := fun f => total_set f st' w thread
  have hst' : ∀ f, st'.total f = st.total f := fun f => by rw [total, total, hthreads]
  simp only [hst', hthreads] at htotal
  have hpolls' := htotal (fun t => t.stats.polls)
  have hclaiming' := htotal claiming
  have := h.polls
  exact ⟨hp, haccepting, by omega, hpending⟩

/-- **A quiet step takes a batch, or leaves what is pending.** -/
theorem step (hC : C.Lawful) (hinv : Inv checks C st) (hstories : EventStore.Stories checks C st.store)
    (h : Drained checks C polls pending k st) (hquiet : Quiet checks C st st') :
    ∃ k', Drained checks C polls pending k' st' := by
  obtain ⟨hstep, haccepting, hids⟩ := hquiet
  have hp := h.not_poisoned
  cases hstep with
  | signal w => exact ⟨k, h.set st rfl hp h.pending haccepting rfl⟩
  | stop hphase | poll hphase | sleep hphase => 
    exact ⟨k, h.set st rfl hp h.pending haccepting (by simp [claiming, hphase])⟩
  | refused hphase =>
    exact absurd (congrArg OutboxWorkerThread.phase (threads_set_self _ _)) ((haccepting _).1 _ _)
  | taken hphase =>
    exact ⟨k, h.set (st.deliver _ _) rfl hp h.pending haccepting (by simp [claiming, hphase])⟩
  | commit hnew hnd hcommit =>
    obtain ⟨hpoisoned, ids, hmoved, hnone⟩ :=
      EventStore.exists_moved_of_commit hstories hnew hnd hC hcommit
    have hempty : ids = ∅ := Finset.eq_empty_of_forall_notMem (fun id hid => by
      have hsome := (hids id).symm.trans (EventStore.isSome_of_statusAt (hmoved.after id hid))
      simp [hnone id hid] at hsome)
    have hcard := hmoved.card_is (by simp)
    rw [hempty, Finset.card_empty, Nat.add_zero] at hcard
    exact ⟨k, hpoisoned.trans hp, haccepting, h.polls, hcard.trans h.pending⟩
  | @complete w a batch t r s hphase hcomplete =>
    obtain ⟨rfl, hp', hmoved⟩ := hinv.moved_settled hC hp hphase (u := .complete) (fun _ => rfl)
      (fun _ => rfl) hcomplete
    have hpending := hmoved.having_eq .pending (by simp) (by simp)
    refine ⟨k, h.set (st.withStore s) rfl hp' ((congrArg Finset.card hpending).trans h.pending)
      haccepting ?_⟩
    simp [claiming, hphase, Except.isOk, Except.toBool]
  | claimFails hphase hord hclaim => cases EventStore.claimOutboxMessages_spec hC hstories hp hord hclaim
  | claimPanics hphase hord hclaim =>
    exact absurd (congrArg OutboxWorkerThread.phase (threads_set_self _ _)) (haccepting _).2
  | release hphase hrelease => exact absurd hphase ((h.accepting _).1 _ _)
  | @claim w ord clock batch s hphase hord hclaim =>
    have hlength := EventStore.length_of_claim hC hstories hord (by decide) hclaim
    obtain ⟨-, hclaims⟩ := EventStore.claims_of_claim hC hstories hord hclaim
    have hcard := (hclaims.moved hC).card_was (by simp)
    rw [List.toFinset_card_of_nodup (hclaims.sublist.nodup hord.1), List.length_map, hlength,
      h.pending] at hcard
    cases EventStore.claimOutboxMessages_spec hC hstories hp hord hclaim with
    | ok _ hpoisoned _ =>
      refine ⟨k + 1, h.set (st.withStore s) rfl (hpoisoned.trans hp) ?_ haccepting ?_⟩
      · show (s.having checks C .pending).card = _
        rw [Nat.mul_succ]
        omega
      · simp [claiming, hphase]
        omega

/-- **A quiet run has taken batch after batch.** -/
theorem run (hC : C.Lawful) {spawned : W → String × Bool} (hrun : Run checks C (.initial spawned) st)
    (h : Drained checks C polls pending k st) (hquiet : QuietRun checks C st st') :
    ∃ k', Drained checks C polls pending k' st' := by
  induction hquiet with
  | refl => exact ⟨k, h⟩
  | tail hquiet hstep ih =>
    obtain ⟨k', h'⟩ := ih
    have hrun' := Relation.ReflTransGen.trans hrun (QuietRun.run hquiet)
    obtain ⟨hands, hclients⟩ := Run.clients hrun'
    exact h'.step hC (Inv.run hC hrun') (OutboxClients.inv_initial.run hC hclients).1.stories hstep

end Drained

/-- The publishers forget nothing. -/
theorem Run.deliveries_le (h : Run checks C st st') (id : String) :
    st.deliveries id ≤ st'.deliveries id := by
  induction h with
  | refl => exact le_rfl
  | tail _ hstep ih =>
    refine ih.trans ?_
    obtain ⟨ds, hds⟩ := hstep.exists_taken
    rw [deliveries, deliveries, hds, List.countP_append]
    exact Nat.le_add_right _ _

/-! ### A thread left alone -/

variable (checks C) in
/-- **A quiet run in which one thread works**: the others stay what they are, and what is
pending at the end was so, as it is, at the beginning. -/
structure Alone (w : W) (st st' : OutboxWorkers W) : Prop where
  quiet : QuietRun checks C st st'
  accepting : st'.Accepting
  not_poisoned : st'.store.poisoned = false
  others : ∀ w' ≠ w, st'.threads w' = st.threads w'
  stop : (st'.threads w).stop = (st.threads w).stop
  pending : ∀ id m, st'.store.Message checks C id m → m.status = .pending →
    st.store.Message checks C id m

namespace Alone

theorem refl (hp : st.store.poisoned = false) (haccepting : st.Accepting) : Alone checks C w st st :=
  ⟨.refl, haccepting, hp, fun _ _ => rfl, rfl, fun _ _ hm _ => hm⟩

theorem trans {st'' : OutboxWorkers W} (h : Alone checks C w st st') (h' : Alone checks C w st' st'') :
    Alone checks C w st st'' where
  quiet := Relation.ReflTransGen.trans h.quiet h'.quiet
  accepting := h'.accepting
  not_poisoned := h'.not_poisoned
  others w' hw' := (h'.others w' hw').trans (h.others w' hw')
  stop := h'.stop.trans h.stop
  pending id m hm hpending := h.pending id m (h'.pending id m hm hpending) hpending

/-- **One step of the thread.** -/
theorem step (haccepting : st.Accepting) (st' : OutboxWorkers W) (hthreads : st'.threads = st.threads)
    {thread : OutboxWorkerThread} (hstep : Step checks C st (st'.set w thread))
    (hphase : (∀ a batch, thread.phase ≠ .settling false a batch) ∧ thread.phase ≠ .panicked)
    (hstop : thread.stop = (st.threads w).stop) (hp : st'.store.poisoned = false)
    (hids : st.store.SameIds st'.store)
    (hpending : ∀ id m, st'.store.Message checks C id m → m.status = .pending →
      st.store.Message checks C id m) : Alone checks C w st (st'.set w thread) := by
  have haccepting' : (st'.set w thread).Accepting := fun w' => by
    by_cases hw' : w' = w
    · subst hw'
      rw [threads_set_self]
      exact hphase
    · rw [threads_set_of_ne hw', hthreads]
      exact haccepting w'
  refine ⟨.single ⟨hstep, haccepting', hids⟩, haccepting', hp, fun w' hw' => ?_, ?_, hpending⟩
  · rw [threads_set_of_ne hw', hthreads]
  · rw [threads_set_self, hstop]

/-- What is pending after messages were moved to another status was so before. -/
theorem pending_of_moved (hC : C.Lawful) {s s' : EventStore} {ids : Finset String} {n : ℕ}
    {was : Option OutboxMessageStatus} {is : OutboxMessageStatus} (his : is ≠ .pending)
    (hmoved : EventStore.Moved checks C s s' ids n was (some is)) (id : String) (m : OutboxMessage)
    (hm : s'.Message checks C id m) (hpending : m.status = .pending) : s.Message checks C id m := by
  have hid : id ∉ ids := fun hid => by
    have hstatus := (hmoved.after id hid).symm.trans (hm.statusAt_eq hC)
    exact his ((Option.some.inj hstatus).trans hpending)
  obtain ⟨l, hl, hstory⟩ := hm
  exact ⟨l, (hmoved.others id hid).symm.trans hl, hstory⟩

/-- **The thread publishes a message and completes it.** -/
theorem publish (hC : C.Lawful) {spawned : W → String × Bool} (hrun : Run checks C (.initial spawned) st)
    (hp : st.store.poisoned = false) (haccepting : st.Accepting) {a : Agg OutboxMessage}
    {batch : List (Agg OutboxMessage)} (hphase : (st.threads w).phase = .publishing (a :: batch)) :
    ∃ st', Alone checks C w st st' ∧ (st'.threads w).phase = .publishing batch
      ∧ st'.store.having checks C .pending = st.store.having checks C .pending := by
  obtain ⟨entries, hentries⟩ := exists_entries a.fields.metadata
  have htaken : Alone checks C w st _ := step haccepting (st.deliver _ _) rfl (.taken hphase hentries)
    (by simp) rfl hp (.refl _) (fun _ _ hm _ => hm)
  generalize hst₁ : (st.deliver _ _).set w _ = st₁ at htaken
  have hphase₁ : (st₁.threads w).phase = .settling true a batch := by rw [← hst₁, threads_set_self]
  have hstore₁ : st₁.store = st.store := by rw [← hst₁]; rfl
  obtain ⟨r, s, hcomplete⟩ : ∃ r s, st₁.store.completeOutboxMessage checks C epoch a.entity.id = (r, s) :=
    ⟨_, _, rfl⟩
  have hinv₁ := Inv.run hC (Relation.ReflTransGen.trans hrun htaken.quiet.run)
  obtain ⟨-, hp', hmoved⟩ := hinv₁.moved_settled hC htaken.not_poisoned hphase₁ (u := .complete)
    (fun _ => rfl) (fun _ => rfl) hcomplete
  have hids : st₁.store.SameIds s := by
    have hsame := (show OutboxOperation checks C st₁.store _ from .complete epoch a.entity.id).sameIds
    rwa [hcomplete] at hsame
  have hcompleted : Alone checks C w st₁ _ := step htaken.accepting (st₁.withStore s) rfl
    (.complete hphase₁ hcomplete) (by simp) rfl hp' hids (pending_of_moved hC (by decide) hmoved)
  refine ⟨_, htaken.trans hcompleted, by rw [threads_set_self], ?_⟩
  rw [← hstore₁]
  exact hmoved.having_eq _ (by simp) (by simp)

/-- **It publishes its batch.** -/
theorem publishAll (hC : C.Lawful) {spawned : W → String × Bool} (batch : List (Agg OutboxMessage))
    (hrun : Run checks C (.initial spawned) st) (hp : st.store.poisoned = false)
    (haccepting : st.Accepting) (hphase : (st.threads w).phase = .publishing batch) :
    ∃ st', Alone checks C w st st' ∧ (st'.threads w).phase = .publishing []
      ∧ st'.store.having checks C .pending = st.store.having checks C .pending := by
  induction batch generalizing st with
  | nil => exact ⟨st, .refl hp haccepting, hphase, rfl⟩
  | cons a batch ih =>
    obtain ⟨st₁, hone, hphase₁, hpending₁⟩ := publish hC hrun hp haccepting hphase
    obtain ⟨st₂, hrest, hphase₂, hpending₂⟩ := ih (Relation.ReflTransGen.trans hrun hone.quiet.run)
      hone.not_poisoned hone.accepting hphase₁
    exact ⟨st₂, hone.trans hrest, hphase₂, hpending₂.trans hpending₁⟩

/-- **It polls, claims, publishes its batch, and comes back**, if what is pending can be
claimed. -/
theorem round (hC : C.Lawful) {spawned : W → String × Bool} (hrun : Run checks C (.initial spawned) st)
    (hp : st.store.poisoned = false) (haccepting : st.Accepting)
    (hphase : (st.threads w).phase = .checking) (hstop : (st.threads w).stop = false)
    (hcan : ∀ id m, st.store.Message checks C id m → m.status = .pending →
      ¬ EventStore.ClaimPanics checks epoch OutboxWorkerThread.lease m) :
    ∃ st', Alone checks C w st st' ∧ (st'.threads w).phase = .checking
      ∧ (st'.store.having checks C .pending).card
        = (st.store.having checks C .pending).card - OutboxWorkerThread.batchSize := by
  have hpolled : Alone checks C w st _ := step haccepting st rfl (.poll hphase hstop) (by simp) rfl hp
    (.refl _) (fun _ _ hm _ => hm)
  generalize hst₁ : st.set w _ = st₁ at hpolled
  have hphase₁ : (st₁.threads w).phase = .claiming := by rw [← hst₁, threads_set_self]
  have hstore₁ : st₁.store = st.store := by rw [← hst₁]; rfl
  have hrun₁ := Relation.ReflTransGen.trans hrun hpolled.quiet.run
  obtain ⟨hands, hclients⟩ := Run.clients hrun₁
  have hstories : EventStore.Stories checks C st₁.store :=
    (OutboxClients.inv_initial.run hC hclients).1.stories
  obtain ⟨ord, hord⟩ := st₁.store.exists_enumerates
  -- the claim returns a batch, for it panics at no pending message
  obtain ⟨⟨r, s⟩, hresult⟩ : ∃ result, st₁.store.claimOutboxMessages checks C ord (fun _ => epoch)
    (st₁.threads w).workerId OutboxWorkerThread.batchSize OutboxWorkerThread.lease = result := ⟨_, rfl⟩
  have hspec := EventStore.claimOutboxMessages_spec hC hstories hpolled.not_poisoned hord hresult
  cases hspec with
  | panic _ _ hwhy =>
    obtain ⟨id, -, m, hm, hpending, hpanics⟩ := hwhy
    exact absurd hpanics (hcan id m (hstore₁ ▸ hm) hpending)
  | @ok batch _ hclaims hpoisoned _ =>
    rw [List.nil_append] at hresult
    have hmoved := hclaims.moved hC
    have hids : st₁.store.SameIds s := by
      have hsame := (show OutboxOperation checks C st₁.store _ from .claim ord hord (fun _ => epoch)
        (st₁.threads w).workerId OutboxWorkerThread.batchSize OutboxWorkerThread.lease).sameIds
      rwa [hresult] at hsame
    have hclaimed : Alone checks C w st₁ _ := step hpolled.accepting (st₁.withStore s) rfl
      (.claim hphase₁ hord hresult) (by simp) rfl (hpoisoned.trans hpolled.not_poisoned) hids
      (pending_of_moved hC (by decide) hmoved)
    generalize hst₂ : (st₁.withStore s).set w _ = st₂ at hclaimed
    have hphase₂ : (st₂.threads w).phase = .publishing batch := by rw [← hst₂, threads_set_self]
    have hstore₂ : st₂.store = s := by rw [← hst₂]; rfl
    have hrun₂ := Relation.ReflTransGen.trans hrun₁ hclaimed.quiet.run
    obtain ⟨st₃, hpublished, hphase₃, hpending₃⟩ :=
      publishAll hC batch hrun₂ hclaimed.not_poisoned hclaimed.accepting hphase₂
    have hslept : Alone checks C w st₃ _ := step hpublished.accepting st₃ rfl (.sleep hphase₃) (by simp) rfl
      hpublished.not_poisoned (.refl _) (fun _ _ hm _ => hm)
    refine ⟨_, ((hpolled.trans hclaimed).trans hpublished).trans hslept, by rw [threads_set_self], ?_⟩
    have hcard := hmoved.card_was (by simp)
    rw [List.toFinset_card_of_nodup (hclaims.sublist.nodup hord.1), List.length_map,
      EventStore.length_of_claim hC hstories hord (by decide) hresult, hstore₁] at hcard
    show (st₃.store.having checks C .pending).card = _
    rw [hpending₃, hstore₂]
    omega

/-- **It does so any number of times.** -/
theorem rounds (hC : C.Lawful) {spawned : W → String × Bool} (hrun : Run checks C (.initial spawned) st)
    (hp : st.store.poisoned = false) (haccepting : st.Accepting)
    (hphase : (st.threads w).phase = .checking) (hstop : (st.threads w).stop = false)
    (hcan : ∀ id m, st.store.Message checks C id m → m.status = .pending →
      ¬ EventStore.ClaimPanics checks epoch OutboxWorkerThread.lease m) (n : ℕ) :
    ∃ st', Alone checks C w st st' ∧ (st'.threads w).phase = .checking
      ∧ (st'.store.having checks C .pending).card
        = (st.store.having checks C .pending).card - OutboxWorkerThread.batchSize * n := by
  induction n with
  | zero => exact ⟨st, .refl hp haccepting, hphase, rfl⟩
  | succ n ih =>
    obtain ⟨st₁, hbefore, hphase₁, hcard₁⟩ := ih
    obtain ⟨st₂, hround, hphase₂, hcard₂⟩ := round hC (Relation.ReflTransGen.trans hrun hbefore.quiet.run)
      hbefore.not_poisoned hbefore.accepting hphase₁ (hbefore.stop.trans hstop)
      (fun id m hm hpending => hcan id m (hbefore.pending id m hm hpending) hpending)
    refine ⟨st₂, hbefore.trans hround, hphase₂, ?_⟩
    rw [hcard₂, hcard₁, Nat.mul_succ, Nat.sub_sub]

end Alone

/-- **The statistics are right.** In every run, as long as no claim has panicked: what all
threads say they have published is what is published; what is stored is published,
pending, or in the hands of a thread; and every claim of a message has come to its
publication, to a refusal that is counted, or is in a thread's hands. -/
theorem statistics [Fintype W] (hC : C.Lawful) {spawned : W → String × Bool}
    (hrun : Run checks C (.initial spawned) st) (hp : st.store.poisoned = false) :
    (st.store.having checks C .published).card = st.total (fun t => t.stats.messagesPublished)
      ∧ st.store.streams.keys.card = (st.store.having checks C .pending).card
        + st.total (fun t => t.phase.batch.length) + st.total (fun t => t.stats.messagesPublished)
      ∧ st.store.allClaims = st.total (fun t => t.phase.batch.length)
        + st.total (fun t => t.stats.messagesPublished) + st.total (fun t => t.stats.messagesFailed) := by
  have htally := Tally.run hC hrun hp
  exact ⟨htally.published, htally.stored hC (Inv.run hC hrun) hp, htally.claims⟩

/-- One message, refused once and then published: what the thread has counted is what is stored. -/
theorem statistics_refused : ∃ st : OutboxWorkers Unit,
    Run true Codecs.counting (initial fun _ => ("w", false)) st
      ∧ st.total (fun t => t.stats.messagesPublished) = 1 ∧ st.total (fun t => t.stats.messagesFailed) = 1
      ∧ (st.store.having true Codecs.counting .published).card = 1 ∧ st.store.allClaims = 2 := by
  have hC := Codecs.counting_lawful
  have hbatch : ∀ t : OutboxWorkerThread, t.phase = .checking ∨ t.phase = .stopped →
      t.phase.batch.length = 0 := fun t ht => by rcases ht with h | h <;> simp [h, WorkerPhase.batch]
  -- the message has been refused
  obtain ⟨st, l, m, hrun, hphase, hstop, hsingle, hclaims⟩ := refused_rounds true hC (n := 1) (by decide)
  have hidle : st.Idle := fun _ => Or.inl hphase
  obtain ⟨-, hstored, hall⟩ := statistics hC hrun hsingle.not_poisoned
  rw [hsingle.keys_eq, hsingle.having_pending hC, Finset.card_singleton,
    hidle.total_eq_zero hbatch] at hstored
  rw [hsingle.allClaims_eq, hclaims, hidle.total_eq_zero hbatch] at hall
  -- and is published
  have hcan : ∀ id m', st.store.Message true Codecs.counting id m' → m'.status = .pending →
      ¬ EventStore.ClaimPanics true epoch OutboxWorkerThread.lease m' := by
    intro id m' hm' _
    rw [hsingle.message_eq hC hm', claimPanics_epoch, addU32_one_eq_none,
      hsingle.story.machine.2.1.2 rfl, hclaims]
    decide
  obtain ⟨st', halone, hphase', hcard⟩ :=
    Alone.rounds hC hrun hsingle.not_poisoned hidle.accepting hphase hstop hcan 1
  have hidle' : st'.Idle := fun _ => Or.inl hphase'
  have hrun' := Relation.ReflTransGen.trans hrun halone.quiet.run
  obtain ⟨hpublished, hstored', hall'⟩ := statistics hC hrun' halone.not_poisoned
  rw [← halone.quiet.keys_eq, hsingle.keys_eq, hcard, hsingle.having_pending hC, Finset.card_singleton,
    hidle'.total_eq_zero hbatch] at hstored'
  rw [hidle'.total_eq_zero hbatch, halone.quiet.messagesFailed hidle.accepting] at hall'
  have hone : st'.total (fun t => t.stats.messagesPublished) = 1 := by
    rw [show 1 - OutboxWorkerThread.batchSize * 1 = 0 from rfl] at hstored'
    omega
  refine ⟨st', hrun', hone, ?_, hpublished.trans hone, ?_⟩
  · rw [halone.quiet.messagesFailed hidle.accepting]
    omega
  · omega

/-- **Every poll takes a batch of what is pending.** From any state that threads and clients
reach in which every thread is idle and no claim has panicked, and in every run from
there in which nothing new is committed, no publisher refuses and no claim panics: when
every thread is idle again, each poll of any of them has left a hundred fewer pending, until
none was left; nothing has become pending; and what is no longer pending is published,
delivered once in this run, and counted by the threads. -/
theorem drains [Fintype W] (hC : C.Lawful) {spawned : W → String × Bool}
    (hrun : Run checks C (.initial spawned) st) (hp : st.store.poisoned = false) (hidle : st.Idle)
    (hquiet : QuietRun checks C st st') (hidle' : st'.Idle) :
    (st'.store.having checks C .pending).card = (st.store.having checks C .pending).card
        - OutboxWorkerThread.batchSize
          * (st'.total (fun t => t.stats.polls) - st.total (fun t => t.stats.polls))
      ∧ st'.store.having checks C .pending ⊆ st.store.having checks C .pending
      ∧ (∀ id ∈ st.store.having checks C .pending \ st'.store.having checks C .pending,
        id ∈ st'.store.having checks C .published ∧ st.deliveries id = 0 ∧ st'.deliveries id = 1)
      ∧ st'.total (fun t => t.stats.messagesPublished) = st.total (fun t => t.stats.messagesPublished)
        + (st.store.having checks C .pending \ st'.store.having checks C .pending).card := by
  have hrun' : Run checks C (.initial spawned) st' := Relation.ReflTransGen.trans hrun hquiet.run
  have hstart : Drained checks C _ _ 0 st := .idle hidle hp
  obtain ⟨k, hdrained⟩ := hstart.run hC hrun hquiet
  have hp' := hdrained.not_poisoned
  have hstatus : ∀ id, (st.store.lookup id).isSome → _ := fun id =>
    (Inv.run hC hrun).statusAt_of_idle hC hp hidle
  have hstatus' : ∀ id, (st'.store.lookup id).isSome → _ := fun id =>
    (Inv.run hC hrun').statusAt_of_idle hC hp' hidle'
  have hsub : st'.store.having checks C .pending ⊆ st.store.having checks C .pending := by
    intro id hid
    simp only [EventStore.mem_having] at hid ⊢
    have hsome := EventStore.isSome_of_statusAt hid
    have hnone : st.deliveries id = 0 := by
      have hle := hquiet.run.deliveries_le id
      have hpending := hstatus' id hsome
      simp [hid] at hpending
      omega
    have hbefore := hstatus id ((hquiet.sameIds id).symm.trans hsome)
    simpa [hnone] using hbefore
  refine ⟨?_, hsub, fun id hid => ?_, ?_⟩
  · have hclaiming : st'.total claiming = 0 := hidle'.total_eq_zero (fun t ht => by
      rcases ht with h | h <;> simp [claiming, h])
    have hpolls := hdrained.polls
    rw [hdrained.pending, hpolls, hclaiming, Nat.add_zero, Nat.add_sub_cancel_left]
  · obtain ⟨hpending, hnot⟩ := Finset.mem_sdiff.mp hid
    simp only [EventStore.mem_having] at hpending hnot ⊢
    have hsome := EventStore.isSome_of_statusAt hpending
    have hbefore := hstatus id hsome
    have hafter := hstatus' id ((hquiet.sameIds id).trans hsome)
    simp [hpending] at hbefore
    simp [hnot] at hafter
    exact ⟨hafter.1, hbefore, hafter.2⟩
  · have hbatch : ∀ t : OutboxWorkerThread, t.phase = .checking ∨ t.phase = .stopped →
        t.phase.batch.length = 0 := fun t ht => by rcases ht with h | h <;> simp [h, WorkerPhase.batch]
    have hkeys : st'.store.streams.keys = st.store.streams.keys := hquiet.keys_eq.symm
    have hstored := (Tally.run hC hrun hp).stored hC (Inv.run hC hrun) hp
    have hstored' := (Tally.run hC hrun' hp').stored hC (Inv.run hC hrun') hp'
    rw [hkeys, hstored, hidle.total_eq_zero hbatch, hidle'.total_eq_zero hbatch] at hstored'
    have hcard := Finset.card_sdiff_add_card_eq_card hsub
    omega

/-- A message was committed, and one poll has published it. -/
theorem drains_committed : ∃ st st' : OutboxWorkers Unit,
    QuietRun true Codecs.counting st st' ∧ st.store.having true Codecs.counting .pending = {"outbox:m"}
      ∧ (st'.store.having true Codecs.counting .pending).card = 1 - OutboxWorkerThread.batchSize
        * (st'.total (fun t => t.stats.polls) - st.total (fun t => t.stats.polls))
      ∧ st'.deliveries "outbox:m" = 1 := by
  obtain ⟨st, hrun, hp, hphase, hstop, hpending, hattempts⟩ :=
    exists_committed true Codecs.counting_lawful
  have hidle : st.Idle := fun _ => Or.inl hphase
  have hcan : ∀ id m, st.store.Message true Codecs.counting id m → m.status = .pending →
      ¬ EventStore.ClaimPanics true epoch OutboxWorkerThread.lease m := by
    intro id m hm _
    rw [claimPanics_epoch, addU32_one_eq_none, hattempts id m hm]
    decide
  obtain ⟨st', halone, hphase', hcard⟩ :=
    Alone.rounds Codecs.counting_lawful hrun hp hidle.accepting hphase hstop hcan 1
  obtain ⟨hpolls, -, hpublished, -⟩ := drains Codecs.counting_lawful hrun hp hidle halone.quiet
    (fun _ => Or.inl hphase')
  rw [hpending, Finset.card_singleton] at hpolls hcard
  have hnone : st'.store.having true Codecs.counting .pending = ∅ := Finset.card_eq_zero.mp hcard
  exact ⟨st, st', halone.quiet, hpending, hpolls,
    (hpublished "outbox:m" (by rw [hnone, hpending, Finset.sdiff_empty, Finset.mem_singleton])).2.2⟩

/-- **What is pending can be published.** From any state that threads and clients reach in
which every thread is idle, no claim has panicked, and one thread has not been told to stop,
there is a run after which every thread is idle again and nothing is pending, and in
which nothing new is committed, no publisher refuses and no claim panics; unless
overflow is checked and a pending message cannot be claimed once more. -/
theorem can_drain (hC : C.Lawful) {spawned : W → String × Bool}
    (hrun : Run checks C (.initial spawned) st) (hp : st.store.poisoned = false) (hidle : st.Idle)
    (hphase : (st.threads w).phase = .checking) (hstop : (st.threads w).stop = false)
    (hcan : checks = true → ∀ id a, st.store.Loads checks C id a → a.fields.status = .pending →
      a.fields.attempts + 1 < 2 ^ 32) :
    ∃ st', QuietRun checks C st st' ∧ st'.Idle ∧ st'.store.having checks C .pending = ∅ := by
  have hcan' : ∀ id m, st.store.Message checks C id m → m.status = .pending →
      ¬ EventStore.ClaimPanics checks epoch OutboxWorkerThread.lease m := by
    intro id m hm hpending
    rw [claimPanics_epoch, addU32_one_eq_none]
    rintro ⟨hchecks, hnot⟩
    obtain ⟨l, hloads⟩ := hm.loads hC SystemTime.unixEpoch
    exact hnot (hcan hchecks id _ hloads hpending)
  obtain ⟨st', halone, hphase', hcard⟩ := Alone.rounds hC hrun hp hidle.accepting hphase hstop hcan'
    (st.store.having checks C .pending).card
  refine ⟨st', halone.quiet, fun w' => ?_, ?_⟩
  · by_cases hw' : w' = w
    · exact hw' ▸ Or.inl hphase'
    · rw [halone.others w' hw']
      exact hidle w'
  · have hle := Nat.le_mul_of_pos_left (st.store.having checks C .pending).card
      (show 0 < OutboxWorkerThread.batchSize by decide)
    rw [← Finset.card_eq_zero, hcard, Nat.sub_eq_zero_of_le hle]

/-- The message that was committed. -/
theorem can_drain_committed : ∃ st st' : OutboxWorkers Unit,
    st.store.having true Codecs.counting .pending = {"outbox:m"} ∧ QuietRun true Codecs.counting st st'
      ∧ st'.store.having true Codecs.counting .pending = ∅ := by
  obtain ⟨st, hrun, hp, hphase, hstop, hpending, hattempts⟩ :=
    exists_committed true Codecs.counting_lawful
  have hcan : ∀ id a, st.store.Loads true Codecs.counting id a → a.fields.status = .pending →
      a.fields.attempts + 1 < 2 ^ 32 := by
    intro id a ha _
    obtain ⟨hands, hclients⟩ := Run.clients hrun
    obtain ⟨m, now, hm, hfields⟩ :=
      (OutboxClients.inv_initial.run Codecs.counting_lawful hclients).1.stories.message
        Codecs.counting_lawful ha
    have hattempts' : a.fields.attempts = m.attempts :=
      (congrArg OutboxMessage.attempts hfields).trans rfl
    rw [hattempts', hattempts id m hm]
    decide
  obtain ⟨st', hquiet, -, hnone⟩ := can_drain (w := ()) Codecs.counting_lawful hrun hp
    (fun _ => Or.inl hphase) hphase hstop (fun _ => hcan)
  exact ⟨st, st', hpending, hquiet, hnone⟩

end OutboxWorkers
