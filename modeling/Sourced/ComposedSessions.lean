import Sourced.ReadModelSessions
import Sourced.ReadModelVersions

/-!
# No update is lost

The joint invariant of clients that work in sessions on a `QueuedReadModelStore`, and the
law that follows from it.

The session that has a lock is the last that acquired it. When its write is accepted, the
list of completed sessions grows at its end by this one, and what is stored under the key
becomes its function of what was stored before: nobody else has come between.
-/

namespace ModelWrite

variable {F : ModelTypes} {checks : OverflowChecks} {i : F.Index} {id : String}
  {w : ModelWrite (F.type i) id} {call : ReadModelCall F}

/-- A write changes the key of its session, and no other. -/
theorem touches (hcall : w.call = some call) :
    call.modifies = true ∧ ∀ key, call.writes = some key ∨ call.deletes = some key →
      key = QueuedReadModelStore.modelKey i id := by
  cases w with
  | upsert model | insert model | update model _ =>
    obtain ⟨model, rfl⟩ := model
    obtain rfl := Option.some.inj hcall
    refine ⟨rfl, fun key h => ?_⟩
    exact (Option.some.inj (h.resolve_right (fun h => nomatch h))).symm
  | delete =>
    obtain rfl := Option.some.inj hcall
    refine ⟨rfl, fun key h => ?_⟩
    exact (Option.some.inj (h.resolve_left (fun h => nomatch h))).symm
  | abort => cases hcall

/-- **An accepted write has its effect.** -/
theorem lookup_of_accepted (hcall : w.call = some call) {ord : List String}
    {s s' : InMemoryReadModelStore} {r : call.Resp} (hexec : call.exec checks ord s = (r, s'))
    (hok : call.accepted r = true) :
    s'.lookup (QueuedReadModelStore.modelKey i id)
      = w.effect checks (s.lookup (QueuedReadModelStore.modelKey i id)) := by
  cases w with
  | upsert model =>
    obtain ⟨model, rfl⟩ := model
    obtain rfl := Option.some.inj hcall
    rcases ReadModelStore.upsert_cases hexec with ⟨-, hwrote⟩ | ⟨hrefused, -⟩
    · exact hwrote
    · exact absurd (hrefused.symm.trans hok) Bool.false_ne_true
  | insert model =>
    obtain ⟨model, rfl⟩ := model
    obtain rfl := Option.some.inj hcall
    rcases ReadModelStore.insert_cases checks hexec with ⟨-, hwrote⟩ | ⟨hrefused, -⟩
    · exact hwrote
    · exact absurd (hrefused.symm.trans hok) Bool.false_ne_true
  | update model expectedVersion =>
    obtain ⟨model, rfl⟩ := model
    obtain rfl := Option.some.inj hcall
    rcases ReadModelStore.update_cases hexec with ⟨-, hwrote⟩ | ⟨hrefused, -⟩
    · exact hwrote
    · exact absurd (hrefused.symm.trans hok) Bool.false_ne_true
  | delete =>
    obtain rfl := Option.some.inj hcall
    rcases ReadModelStore.delete_cases hexec with ⟨-, hremoved⟩ | ⟨hrefused, -⟩
    · exact hremoved
    · exact absurd (hrefused.symm.trans hok) Bool.false_ne_true
  | abort => cases hcall

end ModelWrite

/-- **A call that changes no key, or is not accepted,** leaves what is stored. -/
theorem ReadModelCall.lookup_exec {F : ModelTypes} {checks : OverflowChecks} {call : ReadModelCall F}
    {ord : List String} {s s' : InMemoryReadModelStore} {r : call.Resp}
    (hexec : call.exec checks ord s = (r, s')) (h : (call.modifies && call.accepted r) = false) :
    s'.lookup = s.lookup := by
  have hchanges := call.changes checks ord s
  rw [hexec] at hchanges
  dsimp only at hchanges
  generalize hok : call.accepted r = ok at hchanges h
  cases hchanges with
  | nothing => rfl
  | panicked => rfl
  | written hkey =>
    unfold modifies at h
    rw [hkey] at h
    cases h
  | removed hkey =>
    unfold modifies at h
    rw [hkey, Option.isSome_some, Bool.or_true] at h
    cases h

namespace ModelHistory

variable {F : ModelTypes} {checks : OverflowChecks} {C : Type} [DecidableEq C]
  {script : C → ℕ → ModelSession F} {s₀ : InMemoryReadModelStore} {h h' : ModelHistory C}
  {c : C} {n : ℕ} {key : String}

/-! ## The composition -/

omit [DecidableEq C] in
/-- A session that has acquired a lock has not completed. -/
theorem composed_acquire
    (hacquired : h'.acquired = Function.update h.acquired key (h.acquired key ++ [(c, n)]))
    (hcompleted : h'.completed = h.completed) (hn : n ∉ h.completed c) (k : String) :
    h'.composed checks script s₀ k = h.composed checks script s₀ k := by
  unfold composed
  rw [hacquired, hcompleted]
  by_cases hk : k = key
  · subst hk
    rw [Function.update_self, List.filter_append, List.filter_singleton, decide_eq_false hn]
    exact congrArg (List.foldl _ _) (List.append_nil _)
  · rw [Function.update_of_ne hk]

omit [DecidableEq C] in
/-- What has been acquired, and by one session more. -/
theorem mem_acquire (key k : String) (x p : C × ℕ) :
    p ∈ Function.update h.acquired key (h.acquired key ++ [x]) k
      ↔ p ∈ h.acquired k ∨ k = key ∧ p = x := by
  by_cases hk : k = key
  · subst hk
    rw [Function.update_self, List.mem_append, List.mem_singleton]
    exact or_congr_right (and_iff_right rfl).symm
  · rw [Function.update_of_ne hk]
    exact (or_iff_left (fun hkey => hk hkey.1)).symm

theorem mem_complete (hcompleted : h'.completed = Function.update h.completed c (insert n (h.completed c)))
    {p : C × ℕ} (hp : p ≠ (c, n)) : p.2 ∈ h'.completed p.1 ↔ p.2 ∈ h.completed p.1 := by
  rw [hcompleted]
  by_cases hc : p.1 = c
  · rw [hc, Function.update_self, Finset.mem_insert]
    exact or_iff_right (fun hn => hp (Prod.ext hc hn))
  · rw [Function.update_of_ne hc]

/-- **The last session of a lock completes**, as the last of them. -/
theorem composed_complete (hacquired : h'.acquired = h.acquired)
    (hcompleted : h'.completed = Function.update h.completed c (insert n (h.completed c)))
    (hn : n ∉ h.completed c) {l : List (C × ℕ)} (hlast : h.acquired key = l ++ [(c, n)])
    (hnodup : (h.acquired key).Nodup) :
    h'.composed checks script s₀ key
      = (script c n).effect checks (h.composed checks script s₀ key) := by
  have hl : ∀ p ∈ l, p ≠ (c, n) := by
    rw [hlast] at hnodup
    rintro p hp rfl
    exact (List.nodup_append.mp hnodup).2.2 _ hp _ (List.mem_singleton_self _) rfl
  have hfilter : l.filter (fun p => decide (p.2 ∈ h'.completed p.1))
      = l.filter (fun p => decide (p.2 ∈ h.completed p.1)) :=
    List.filter_congr (fun p hp => decide_eq_decide.mpr (mem_complete hcompleted (hl p hp)))
  have hnow : n ∈ h'.completed c := by
    rw [hcompleted, Function.update_self]
    exact Finset.mem_insert_self n _
  unfold composed
  rw [hacquired, hlast, List.filter_append, List.filter_append, hfilter, List.filter_singleton,
    List.filter_singleton, decide_eq_true hnow, decide_eq_false hn, List.foldl_append, List.foldl_append]
  rfl

theorem composed_complete_of_notMem (hacquired : h'.acquired = h.acquired)
    (hcompleted : h'.completed = Function.update h.completed c (insert n (h.completed c)))
    (hkey : (c, n) ∉ h.acquired key) :
    h'.composed checks script s₀ key = h.composed checks script s₀ key := by
  unfold composed
  rw [hacquired]
  refine congrArg (List.foldl _ _) (List.filter_congr (fun p hp => ?_))
  exact decide_eq_decide.mpr (mem_complete hcompleted (fun heq => hkey (heq ▸ hp)))

end ModelHistory

/-! ## The joint invariant -/

namespace ReadModelSessions

section Inv

variable {F : ModelTypes} {checks : OverflowChecks} {C : Type} [DecidableEq C]
  {script : C → ℕ → ModelSession F} {s₀ : InMemoryReadModelStore} {h h' : ModelHistory C}
  {own : C → Standing F} {c : C}

omit [DecidableEq C] in
/-- **The joint invariant.** -/
structure Inv (checks : OverflowChecks) (script : C → ℕ → ModelSession F) (s₀ : InMemoryReadModelStore)
    (h : ModelHistory C) (own : C → Standing F) : Prop where
  exclusive : Exclusive h.shared.locked h.held
  scripted : ∀ c, (own c).script = script c
  /-- A client holds the lock of its session, and no other. -/
  held : ∀ c key, key ∈ h.held c ↔ (own c).phase.inside = true ∧ key = (own c).key
  begun : ∀ c, h.begun c = (own c).session + (own c).phase.inside.toNat
  acquired : ∀ key p, p ∈ h.acquired key → p.2 < h.begun p.1 ∧ (script p.1 p.2).key = key
  nodup : ∀ key, (h.acquired key).Nodup
  completed : ∀ c n, n ∈ h.completed c → n < h.begun c
  /-- The session that has a lock acquired it last. -/
  last : ∀ c, (own c).phase.inside = true →
    ∃ l, h.acquired (own c).key = l ++ [(c, (own c).session)]
  /-- It knows what is stored until it writes. -/
  holding : ∀ c stored, (own c).phase = .holding stored →
    h.shared.models.lookup (own c).key = stored ∧ (own c).session ∉ h.completed c
  value : ∀ key, h.shared.models.lookup key = h.composed checks script s₀ key

/-- **What holds of one client** by itself, with its standing. -/
structure Stands (script : C → ℕ → ModelSession F) (h : ModelHistory C) (c : C) (o : Standing F) :
    Prop where
  scripted : o.script = script c
  held : ∀ key, key ∈ h.held c ↔ o.phase.inside = true ∧ key = o.key
  begun : h.begun c = o.session + o.phase.inside.toNat
  completed : ∀ n, n ∈ h.completed c → n < h.begun c
  last : o.phase.inside = true → ∃ l, h.acquired o.key = l ++ [(c, o.session)]
  holding : ∀ stored, o.phase = .holding stored →
    h.shared.models.lookup o.key = stored ∧ o.session ∉ h.completed c

/-- **A client acts**: it has to be seen of this client and of the others, and of the store. -/
theorem Inv.of_update {o : Standing F} (hself : Stands script h' c o)
    (hothers : ∀ d, d ≠ c → Stands script h' d (own d)) (hexclusive : Exclusive h'.shared.locked h'.held)
    (hacquired : ∀ key p, p ∈ h'.acquired key → p.2 < h'.begun p.1 ∧ (script p.1 p.2).key = key)
    (hnodup : ∀ key, (h'.acquired key).Nodup)
    (hvalue : ∀ key, h'.shared.models.lookup key = h'.composed checks script s₀ key) :
    Inv checks script s₀ h' (Function.update own c o) := by
  have hall : ∀ d, Stands script h' d (Function.update own c o d) := by
    intro d
    by_cases hd : d = c
    · subst hd
      rw [Function.update_self]
      exact hself
    · rw [Function.update_of_ne hd]
      exact hothers d hd
  exact ⟨hexclusive, fun d => (hall d).scripted, fun d => (hall d).held, fun d => (hall d).begun,
    hacquired, hnodup, fun d => (hall d).completed, fun d => (hall d).last, fun d => (hall d).holding,
    hvalue⟩

/-- **A session acquires its lock.** -/
theorem Inv.lock (hI : Inv checks script s₀ h own) (houtside : (own c).phase = .outside)
    {s' : QueuedModels} (hfree : h.shared.locked (own c).key = false)
    (hs' : s' = { h.shared with locked := Function.update h.shared.locked (own c).key true }) :
    Inv checks script s₀ (h.after (F := F) c (.lock (own c).key) (.ok ()) s')
      (Function.update own c
        { own c with phase := .holding (h.shared.models.lookup (own c).key) }) := by
  have hout : (own c).phase.inside = false := by rw [houtside]; rfl
  have hbegun : h.begun c = (own c).session := by
    rw [hI.begun, hout]
    rfl
  have hfresh : (own c).session ∉ h.completed c := fun hmem => by
    have := hI.completed c _ hmem
    omega
  have hgrows : ∀ d, h.begun d ≤ Function.update h.begun c (h.begun c + 1) d := fun d => by
    by_cases hd : d = c
    · subst hd
      rw [Function.update_self]
      omega
    · rw [Function.update_of_ne hd]
  -- nobody else is in a session of the key
  have hother : ∀ d, d ≠ c → (own d).phase.inside = true → (own d).key ≠ (own c).key := by
    intro d _ hin heq
    have hlocked := hI.exclusive.locked d _ ((hI.held d _).mpr ⟨hin, rfl⟩)
    rw [heq, hfree] at hlocked
    cases hlocked
  subst hs'
  refine .of_update
    ⟨hI.scripted c, fun key => ?_, ?_, fun n hn => ?_, fun _ => ?_, fun stored hstored => ?_⟩
    (fun d hd => ⟨hI.scripted d, fun key => ?_, ?_, fun n hn => ?_, fun hin => ?_, hI.holding d⟩)
    (hI.exclusive.take hfree c) (fun key p hp => ?_) (fun key => ?_) (fun key => ?_)
  · show key ∈ Function.update h.held c _ c ↔ _
    rw [Function.update_self, Finset.mem_insert, hI.held, hout]
    simp [Phase.inside, Standing.key]
  · show Function.update h.begun c _ c = _
    rw [Function.update_self, hbegun]
    rfl
  · exact (hI.completed c n hn).trans_le (hgrows c)
  · refine ⟨h.acquired (own c).key, ?_⟩
    show Function.update h.acquired (own c).key _ (own c).key = _
    rw [Function.update_self, hbegun]
  · exact ⟨Phase.holding.inj hstored, hfresh⟩
  · show key ∈ Function.update h.held c _ d ↔ _
    rw [Function.update_of_ne hd]
    exact hI.held d key
  · show Function.update h.begun c _ d = _
    rw [Function.update_of_ne hd]
    exact hI.begun d
  · exact (hI.completed d n hn).trans_le (hgrows d)
  · show ∃ l, Function.update h.acquired (own c).key _ _ = _
    rw [Function.update_of_ne (hother d hd hin)]
    exact hI.last d hin
  · show p.2 < Function.update h.begun c _ p.1 ∧ _
    rcases (ModelHistory.mem_acquire (own c).key key _ p).mp hp with hp | ⟨rfl, rfl⟩
    · exact ⟨(hI.acquired key p hp).1.trans_le (hgrows p.1), (hI.acquired key p hp).2⟩
    · rw [Function.update_self]
      refine ⟨Nat.lt_succ_self _, ?_⟩
      rw [hbegun, ← hI.scripted]
      rfl
  · show (Function.update h.acquired (own c).key _ key).Nodup
    by_cases hkey : key = (own c).key
    · subst hkey
      rw [Function.update_self]
      refine List.nodup_append.mpr ⟨hI.nodup _, List.nodup_singleton _, fun p hp q hq heq => ?_⟩
      obtain rfl := List.mem_singleton.mp hq
      subst heq
      exact lt_irrefl _ (hI.acquired _ _ hp).1
    · rw [Function.update_of_ne hkey]
      exact hI.nodup key
  · refine (hI.value key).trans (Eq.symm ?_)
    apply ModelHistory.composed_acquire (n := h.begun c)
    · rfl
    · rfl
    · exact fun hmem => lt_irrefl _ (hI.completed c _ hmem)

/-- **A session releases its lock**, and the next is not begun. -/
theorem Inv.unlock (hI : Inv checks script s₀ h own) (hin : (own c).phase.inside = true)
    {s' : QueuedModels}
    (hs' : s' = { h.shared with locked := Function.update h.shared.locked (own c).key false }) :
    Inv checks script s₀ (h.after (F := F) c (.unlock (own c).key) (.ok ()) s')
      (Function.update own c { own c with session := (own c).session + 1, phase := .outside }) := by
  subst hs'
  refine .of_update
    ⟨hI.scripted c, fun key => ?_, ?_, hI.completed c, fun hin' => ?_, fun stored hstored => ?_⟩
    (fun d hd => ⟨hI.scripted d, fun key => ?_, hI.begun d, hI.completed d, hI.last d, hI.holding d⟩)
    (hI.exclusive.drop ((hI.held c _).mpr ⟨hin, rfl⟩)) hI.acquired hI.nodup hI.value
  · show key ∈ Function.update h.held c _ c ↔ _
    rw [Function.update_self, Finset.mem_erase, hI.held]
    constructor
    · rintro ⟨hne, -, rfl⟩
      exact absurd rfl hne
    · rintro ⟨hin', -⟩
      cases hin'
  · refine (hI.begun c).trans ?_
    rw [hin]
    rfl
  · cases hin'
  · cases hstored
  · show key ∈ Function.update h.held c _ d ↔ _
    rw [Function.update_of_ne hd]
    exact hI.held d key

omit [DecidableEq C] in
/-- **A call that changes nothing** of what is stored. -/
theorem Inv.unchanged (hI : Inv checks script s₀ h own) {s' : QueuedModels}
    (hlocked : s'.locked = h.shared.locked) (hlookup : s'.models.lookup = h.shared.models.lookup) :
    Inv checks script s₀ { h with shared := s' } own := by
  refine { hI with exclusive := ?_, holding := fun d stored hd => ?_, value := fun key => ?_ }
  · show Exclusive s'.locked h.held
    rw [hlocked]
    exact hI.exclusive
  · refine ⟨(congrFun hlookup _).trans (hI.holding d stored hd).1, (hI.holding d stored hd).2⟩
  · exact (congrFun hlookup key).trans (hI.value key)

/-- **A session completes**: its write is accepted. -/
theorem Inv.complete (hI : Inv checks script s₀ h own) {stored : Option StoredModel}
    (hholding : (own c).phase = .holding stored) {s' : QueuedModels}
    (hlocked : s'.locked = h.shared.locked)
    (hself : s'.models.lookup (own c).key = (script c (own c).session).effect checks stored)
    (hothers : ∀ key, key ≠ (own c).key → s'.models.lookup key = h.shared.models.lookup key) :
    Inv checks script s₀
      { h with
        shared := s'
        completed := Function.update h.completed c (insert (h.begun c - 1) (h.completed c)) }
      (Function.update own c { own c with phase := .done }) := by
  have hin : (own c).phase.inside = true := by rw [hholding]; rfl
  have hbegun : h.begun c = (own c).session + 1 := by
    rw [hI.begun, hin]
    rfl
  have hlast : h.begun c - 1 = (own c).session := by rw [hbegun, Nat.add_sub_cancel]
  obtain ⟨hstored, hnot⟩ := hI.holding c stored hholding
  rw [hlast]
  refine .of_update
    ⟨hI.scripted c, fun key => ?_, ?_, fun n hn => ?_, fun _ => hI.last c hin, fun stored' hd => ?_⟩
    (fun d hd => ⟨hI.scripted d, hI.held d, hI.begun d, fun n hn => ?_, hI.last d,
      fun stored' hstored' => ?_⟩)
    ?_ hI.acquired hI.nodup (fun key => ?_)
  · refine (hI.held c key).trans ?_
    rw [hin]
    rfl
  · refine (hI.begun c).trans ?_
    rw [hin]
    rfl
  · replace hn : n ∈ Function.update h.completed c _ c := hn
    show n < h.begun c
    rw [Function.update_self] at hn
    rcases Finset.mem_insert.mp hn with rfl | hn
    · omega
    · exact hI.completed c n hn
  · cases hd
  · replace hn : n ∈ Function.update h.completed c _ d := hn
    rw [Function.update_of_ne hd] at hn
    exact hI.completed d n hn
  · obtain ⟨hd', hnot'⟩ := hI.holding d stored' hstored'
    -- another session has another lock
    have hkey : (own d).key ≠ (own c).key := fun heq => by
      have hdin : (own d).phase.inside = true := by rw [hstored']; rfl
      refine hd (hI.exclusive.unique d c (own d).key ((hI.held d _).mpr ⟨hdin, rfl⟩) ?_)
      exact (hI.held c _).mpr ⟨hin, heq⟩
    refine ⟨(hothers _ hkey).trans hd', ?_⟩
    show _ ∉ Function.update h.completed c _ d
    rw [Function.update_of_ne hd]
    exact hnot'
  · show Exclusive s'.locked h.held
    rw [hlocked]
    exact hI.exclusive
  · by_cases hkey : key = (own c).key
    · subst hkey
      obtain ⟨l, hl⟩ := hI.last c hin
      refine hself.trans (Eq.symm ?_)
      rw [← hstored, hI.value]
      apply ModelHistory.composed_complete (l := l)
      · rfl
      · rfl
      · exact hnot
      · exact hl
      · exact hI.nodup _
    · refine (hothers key hkey).trans ((hI.value key).trans (Eq.symm ?_))
      apply ModelHistory.composed_complete_of_notMem (c := c) (n := (own c).session)
      · rfl
      · rfl
      · intro hmem
        refine hkey ?_
        rw [← (hI.acquired key _ hmem).2, ← hI.scripted]
        rfl

/-- **Every action a session may perform keeps the invariant.** -/
theorem Inv.act (hI : Inv checks script s₀ h own) {a : QueuedAction F} {r : a.Resp}
    (hpre : (protocol checks).pre a (own c)) (hsem : ModelHistory.Sem checks c a h r h') :
    ∃ o', (protocol checks).upd a (own c) r o' ∧ Inv checks script s₀ h' (Function.update own c o') := by
  obtain ⟨hact, hh'⟩ := hsem
  cases a with
  | lock key =>
    obtain ⟨houtside, rfl⟩ := hpre
    obtain ⟨hfree, rfl, hs'⟩ := QueuedAction.sem_lock hact
    refine ⟨{ own c with phase := .holding (h.shared.models.lookup (own c).key) }, ⟨rfl, _, rfl⟩, ?_⟩
    rw [hh']
    exact hI.lock houtside hfree hs'
  | unlock key =>
    obtain ⟨hin, rfl⟩ := hpre
    obtain ⟨rfl, hs'⟩ := QueuedAction.sem_unlock hact
    refine ⟨{ own c with session := (own c).session + 1, phase := .outside }, ⟨rfl, rfl⟩, ?_⟩
    rw [hh']
    exact hI.unlock hin hs'
  | inner call =>
    obtain ⟨stored, hholding, hplans⟩ := hpre
    obtain ⟨ord, -, hexec, hlocked⟩ := QueuedAction.sem_inner hact
    have hstored := (hI.holding c stored hholding).1
    refine ⟨if call.modifies && call.accepted r then { own c with phase := .done } else own c,
      ⟨fun stored' hstored' => ⟨ord, h.shared.models, h'.shared.models, ?_, hexec⟩, rfl⟩, ?_⟩
    · obtain rfl := Phase.holding.inj (hholding.symm.trans hstored')
      exact hstored
    · rw [hh', ModelHistory.after]
      cases hmodified : call.modifies && call.accepted r with
      | false =>
        rw [if_neg Bool.false_ne_true, if_neg Bool.false_ne_true, Function.update_eq_self]
        exact hI.unchanged hlocked (ReadModelCall.lookup_exec hexec hmodified)
      | true =>
        rw [if_pos rfl, if_pos rfl]
        obtain ⟨hmodifies, hok⟩ := Bool.and_eq_true_iff.mp hmodified
        obtain ⟨found, hdecode, hcall⟩ := hplans.resolve_left (fun hnot => by
          rw [hnot] at hmodifies
          cases hmodifies)
        have hlookup := ModelWrite.lookup_of_accepted hcall hexec hok
        refine hI.complete hholding hlocked ?_ (fun key hkey => ?_)
        · rw [← hI.scripted, ModelSession.effect, hdecode, ← hstored]
          exact hlookup
        · have htouches := (ModelWrite.touches hcall).2 key
          have hnext := ReadModelCall.lookup_next_of_ne checks
            (fun hw => hkey (htouches (Or.inl hw))) (fun hd => hkey (htouches (Or.inr hd))) h.shared.models
          rw [← ReadModelCall.exec_snd call ord, hexec] at hnext
          exact hnext

end Inv

/-! ## The law -/

section Law

variable {F : ModelTypes} {checks : OverflowChecks} {C : Type} [DecidableEq C]
  {script : C → ℕ → ModelSession F} {s : QueuedModels}
  {x : Config C (QueuedAction F) QueuedAction.Resp (ModelHistory C) (Place F)}

theorem holds_of_run (hrun : (system checks F C).Run (initial script s) x) :
    System.Holds (protocol checks) (Inv checks script s.models) Rests x := by
  refine System.reachable_holds (fun _ _ _ _ _ _ hI hpre hsem => hI.act hpre hsem)
    (fun _ _ _ _ hl hstart => wp_start hl hstart)
    ⟨fun c => ⟨script c, 0, .outside⟩, ?_, fun c => ?_⟩ hrun
  swap
  · exact Eq.refl (⟨script c, 0, .outside⟩ : Standing F)
  refine ⟨Exclusive.empty _, fun _ => rfl, fun c key => ?_, fun _ => rfl, fun _ _ hp => ?_,
    fun _ => List.nodup_nil, fun _ _ hn => ?_, fun _ hin => ?_, fun _ _ h => ?_, fun _ => rfl⟩
  · exact iff_of_false (Finset.notMem_empty key) (fun h => Bool.false_ne_true h.1)
  · cases hp
  · exact absurd hn (Finset.notMem_empty _)
  · cases hin
  · cases h

end Law

/-- It is what an action does that does not iterate the map, with its history. -/
theorem sem_of_alone {F : ModelTypes} {C : Type} [DecidableEq C] (checks : OverflowChecks) (c : C)
    (a : QueuedAction F) (h : ModelHistory C) (r : a.Resp) (h' : ModelHistory C)
    (halone : ((a.alone checks h.shared).map (fun rs => (rs.1, h.after c a rs.1 rs.2))) = some (r, h')) :
    ModelHistory.Sem checks c a h r h' := by
  obtain ⟨⟨r', s⟩, hs, heq⟩ := Option.map_eq_some_iff.mp halone
  obtain ⟨rfl, rfl⟩ := Prod.mk.inj heq
  have hshared : (h.after c a r' s).shared = s := by
    unfold ModelHistory.after
    split
    · rfl
    · rfl
    · rfl
    · rfl
    · split <;> rfl
  refine ⟨?_, by rw [hshared]⟩
  rw [hshared]
  exact QueuedAction.sem_of_alone hs

end ReadModelSessions
