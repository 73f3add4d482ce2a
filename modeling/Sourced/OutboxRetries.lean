import Sourced.OutboxBatches

/-!
# Bounded retries

Workers share the store. Each of them goes through cycles: it claims messages, hands
them to its publisher one after the other, settles each by the answer, and commits
them. The number of attempts of a message is kept in its events. The decision to
release or to fail it is taken on the copy a worker has in hand, and stored later, if
the commit succeeds.

So the model keeps two histories of each message beside the store: the answers to all
publish calls of it, and those of them that were committed. The second says what is
stored (`OutboxMessage.Tally`): after a claim the attempts are ahead of it by one. That
the copy in hand is still the stored message when it is committed is what the workers
owe each other: a message in flight is in one worker's hands only, and nobody else
writes to its stream (`OutboxCrew.Inv`).
-/

open OutboxMessage (Codecs Readings Story Tells Advances hasPrefix)

variable {checks : OverflowChecks} {C : Codecs}

namespace OutboxWorker

/-! ## The settling of an answer -/

/-- **What `process_message` settles a message with**, by the answer and the attempts. -/
def settling (maxAttempts attempts : ℕ) : Except String Unit → Settling
  | .ok () => .complete
  | .error error => if maxAttempts ≤ attempts then .fail error else .release error

theorem settles_settling {m : OutboxMessage} (hflight : m.status = .inFlight) (maxAttempts attempts : ℕ)
    (answer : Except String Unit) : (settling maxAttempts attempts answer).settles m = true := by
  cases answer with
  | ok u => exact decide_eq_true hflight
  | error error =>
    show (if maxAttempts ≤ attempts then Settling.fail error else .release error).settles m = true
    split
    · simp [Settling.settles, OutboxMessage.canFail, hflight]
    · exact decide_eq_true hflight

/-- **A settling called on a message in flight** in a worker's hands. -/
theorem call_settling {a a' : Agg OutboxMessage} {m : OutboxMessage} (htells : Tells checks C a m)
    {u : Settling} (hsettles : u.settles m = true) {now : SystemTime}
    (h : (u.method C).call now (u.args C) a = some a') :
    Advances checks C a.entity.id (u.method C) (u.args C) a.entity.events a'.entity.events m (u.after m)
      ∧ Tells checks C a' (u.after m) ∧ a'.entity.id = a.entity.id
      ∧ a'.entity.committedVersion = a.entity.committedVersion := by
  have hmem : u.method C ∈ OutboxMessage.later checks C := by
    cases u <;> simp [Settling.method, OutboxMessage.later]
  have hguard : (u.method C).guard m Entity.new (u.args C) = true := by
    cases u <;> exact hsettles
  have hbody : (u.method C).body SystemTime.unixEpoch m Entity.new (u.args C) = some (u.after m, none) := by
    cases u <;> rfl
  cases htells.call hmem h with
  | inl hrejected => exact absurd (hrejected.1.symm.trans hguard) Bool.false_ne_true
  | inr hadvanced =>
    obtain ⟨m', hadv, htells', hid, hcommitted⟩ := hadvanced
    obtain rfl : m' = u.after m := congrArg Prod.fst (Option.some.inj (hadv.body.symm.trans hbody))
    exact ⟨hadv, htells', hid, hcommitted⟩

/-- What the publisher answered decides which method is called. -/
theorem finishMessage_eq (now : SystemTime) (maxAttempts : ℕ) (answer : Except String Unit)
    (a : Agg OutboxMessage) : ∃ r : ProcessOneResult, r.didWork = true
      ∧ finishMessage C now maxAttempts answer a
        = (((settling maxAttempts a.fields.attempts answer).method C).call now
            ((settling maxAttempts a.fields.attempts answer).args C) a).map (fun m' => (r, m')) := by
  cases answer with
  | ok u => exact ⟨⟨true, true, false, false⟩, rfl, rfl⟩
  | error error =>
    by_cases hmax : maxAttempts ≤ a.fields.attempts
    · rw [show settling maxAttempts a.fields.attempts (.error error) = .fail error from if_pos hmax]
      exact ⟨⟨true, false, false, true⟩, rfl, if_pos hmax⟩
    · rw [show settling maxAttempts a.fields.attempts (.error error) = .release error from if_neg hmax]
      exact ⟨⟨true, false, true, false⟩, rfl, if_neg hmax⟩

/-- **A message in flight processed** is settled by the answer. -/
theorem processMessage_inFlight {a a' : Agg OutboxMessage} {m : OutboxMessage} (htells : Tells checks C a m)
    (hflight : m.status = .inFlight) {t : Readings} {now : SystemTime} {workerId : String}
    {lease : Duration} {maxAttempts : ℕ} {answer : Except String Unit} {r : ProcessOneResult}
    (h : processMessage checks C t now workerId lease maxAttempts answer a = some (r, a')) :
    r.didWork = true ∧ ((settling maxAttempts m.attempts answer).method C).call now
      ((settling maxAttempts m.attempts answer).args C) a = some a' := by
  obtain ⟨created, metadata, hfields⟩ := htells.fields
  have hstatus : a.fields.status = .inFlight := (congrArg OutboxMessage.status hfields).trans hflight
  have hattempts : a.fields.attempts = m.attempts := congrArg (fun m => m.attempts) hfields
  have hdone : ¬ (a.fields.isPublished || a.fields.isFailed) = true := by
    simp [OutboxMessage.isPublished, OutboxMessage.isFailed, hstatus]
  have hpending : ¬ a.fields.isPending = true := by simp [OutboxMessage.isPending, hstatus]
  unfold processMessage at h
  rw [if_neg hdone, if_neg hpending, Option.bind_some,
    if_pos (show a.fields.isInFlight = true from decide_eq_true hstatus)] at h
  obtain ⟨r', hwork, hfinish⟩ := finishMessage_eq (C := C) now maxAttempts answer a
  rw [hfinish, hattempts] at h
  obtain ⟨b, hb, hres⟩ := Option.map_eq_some_iff.mp h
  obtain ⟨rfl, rfl⟩ := Prod.mk.inj hres
  exact ⟨hwork, hb⟩

end OutboxWorker

namespace OutboxMessage

/-! ## Outcomes and attempts -/

variable {M n : ℕ} {status : OutboxMessageStatus} {outcomes : List (Except String Unit)}

/-- Answers that are all errors. -/
def AllErrors (answers : List (Except String Unit)) : Prop := ∀ answer ∈ answers, ∃ error, answer = .error error

/-- **The status and the attempts of a message** after the outcomes of its publish calls, for
workers that make `M` attempts at most. -/
inductive Tally (M : ℕ) : OutboxMessageStatus → ℕ → List (Except String Unit) → Prop
  | pending {errors : List (Except String Unit)} (herrors : AllErrors errors)
      (hroom : errors.length < max 1 M) : Tally M .pending errors.length errors
  | inFlight {errors : List (Except String Unit)} (herrors : AllErrors errors)
      (hroom : errors.length < max 1 M) : Tally M .inFlight (errors.length + 1) errors
  | published {errors : List (Except String Unit)} (herrors : AllErrors errors)
      (hroom : errors.length < max 1 M) : Tally M .published (errors.length + 1) (errors ++ [.ok ()])
  | failed {errors : List (Except String Unit)} {error : String} (herrors : AllErrors errors)
      (hlast : errors.length + 1 = max 1 M) :
      Tally M .failed (errors.length + 1) (errors ++ [.error error])

/-- Nothing comes after an `Ok`. -/
def OnceTaken (answers : List (Except String Unit)) : Prop :=
  ∀ before after, answers = before ++ .ok () :: after → after = []

/-- Among errors and one more answer only the last can be `Ok`. -/
theorem AllErrors.onceTaken {errors : List (Except String Unit)} (h : AllErrors errors)
    (answer : Except String Unit) : OnceTaken (errors ++ [answer]) := by
  intro before after heq
  by_contra hafter
  -- an `Ok` that others follow would be one of the errors
  have hinit : errors = before ++ .ok () :: after.dropLast := by
    have hdrop := congrArg List.dropLast heq
    rwa [List.dropLast_concat, List.dropLast_append_of_ne_nil (List.cons_ne_nil _ _),
      List.dropLast_cons_of_ne_nil hafter] at hdrop
  obtain ⟨error, herror⟩ := h (.ok ()) (hinit ▸ by simp)
  cases herror

theorem AllErrors.onceTaken_self {errors : List (Except String Unit)} (h : AllErrors errors) :
    OnceTaken errors := by
  intro before after heq
  obtain ⟨error, herror⟩ := h (.ok ()) (heq ▸ by simp)
  cases herror

namespace Tally

theorem created (M : ℕ) : Tally M .pending 0 [] :=
  .pending (fun _ h => absurd h List.not_mem_nil) (by simp)

theorem attempts_eq (h : Tally M status n outcomes) :
    n = outcomes.length + if status = .inFlight then 1 else 0 := by
  cases h <;> simp

theorem attempts_le (h : Tally M status n outcomes) : n ≤ max 1 M := by
  cases h with
  | pending _ hroom => exact hroom.le
  | inFlight _ hroom => exact hroom
  | published _ hroom => exact hroom
  | failed _ hlast => exact hlast.le

/-- **A message has failed** exactly where the last attempt that it has is answered by an error. -/
theorem failed_iff (h : Tally M status n outcomes) :
    status = .failed ↔ ∃ error, outcomes[max 1 M - 1]? = some (.error error) := by
  cases h with
  | pending _ hroom =>
    refine ⟨fun h => (nomatch h), fun ⟨error, herror⟩ => ?_⟩
    rw [List.getElem?_eq_none (by omega)] at herror
    cases herror
  | inFlight _ hroom =>
    refine ⟨fun h => (nomatch h), fun ⟨error, herror⟩ => ?_⟩
    rw [List.getElem?_eq_none (by omega)] at herror
    cases herror
  | @published errors _ hroom =>
    refine ⟨fun h => (nomatch h), fun ⟨error, herror⟩ => ?_⟩
    by_cases hlast : max 1 M - 1 = errors.length
    · rw [hlast, List.getElem?_concat_length] at herror
      cases herror
    · rw [List.getElem?_eq_none (by rw [List.length_append, List.length_singleton]; omega)] at herror
      cases herror
  | @failed errors error _ hlast =>
    refine ⟨fun _ => ⟨error, ?_⟩, fun _ => rfl⟩
    rw [← hlast, Nat.add_sub_cancel, List.getElem?_concat_length]

theorem onceTaken (h : Tally M status n outcomes) : OnceTaken outcomes := by
  cases h with
  | pending herrors => exact herrors.onceTaken_self
  | inFlight herrors => exact herrors.onceTaken_self
  | published herrors => exact herrors.onceTaken _
  | failed herrors => exact herrors.onceTaken _

theorem of_inFlight (h : Tally M .inFlight n outcomes) :
    AllErrors outcomes ∧ n = outcomes.length + 1 ∧ n ≤ max 1 M := by
  cases h with
  | inFlight herrors hroom => exact ⟨herrors, rfl, hroom⟩

/-- **A claim** counts the attempts up. -/
theorem claim (h : Tally M .pending n outcomes) (hM : M < 2 ^ 32) {attempts : ℕ}
    (hattempts : addU32 checks n 1 = some attempts) : Tally M .inFlight attempts outcomes := by
  cases h with
  | pending herrors hroom =>
    rw [addU32_one_of_lt (by omega)] at hattempts
    exact Option.some.inj hattempts ▸ .inFlight herrors hroom

/-- **A message settled by the answer** to its publish call. -/
theorem settle {m : OutboxMessage} (h : Tally M .inFlight m.attempts outcomes)
    (answer : Except String Unit) :
    Tally M ((OutboxWorker.settling M m.attempts answer).after m).status
      ((OutboxWorker.settling M m.attempts answer).after m).attempts (outcomes ++ [answer]) := by
  obtain ⟨herrors, hattempts, hle⟩ := h.of_inFlight
  cases answer with
  | ok u =>
    show Tally M .published m.attempts _
    rw [hattempts] at hle ⊢
    exact .published herrors hle
  | error error =>
    have herrors' : AllErrors (outcomes ++ [.error error]) := by
      intro answer hanswer
      cases List.mem_append.mp hanswer with
      | inl hmem => exact herrors answer hmem
      | inr hmem => exact ⟨error, List.mem_singleton.mp hmem⟩
    by_cases hmax : M ≤ m.attempts
    · rw [show OutboxWorker.settling M m.attempts (.error error) = .fail error from if_pos hmax]
      show Tally M .failed m.attempts _
      rw [hattempts] at hmax hle ⊢
      exact .failed herrors (by omega)
    · rw [show OutboxWorker.settling M m.attempts (.error error) = .release error from if_neg hmax]
      show Tally M .pending m.attempts _
      have hlength : (outcomes ++ [Except.error error]).length = m.attempts := by
        rw [List.length_append, List.length_singleton, hattempts]
      rw [← hlength]
      exact .pending herrors' (by omega)

end Tally

end OutboxMessage

/-! ## Workers in their cycles -/

/-- **A cycle of a worker**: the messages that it has yet to process, and the others it
claimed, each with the answer to its publish call if there was one. -/
structure OutboxCycle where
  left : List (Agg OutboxMessage)
  done : List (Agg OutboxMessage × Option (Except String Unit))

namespace OutboxCycle

/-- Between cycles. -/
def idle : OutboxCycle := ⟨[], []⟩

/-- All messages of a cycle. -/
def held (cycle : OutboxCycle) : List (Agg OutboxMessage × Option (Except String Unit)) :=
  cycle.left.map (fun a => (a, none)) ++ cycle.done

/-- The ids of messages. -/
def ids (held : List (Agg OutboxMessage × Option (Except String Unit))) : List String :=
  held.map (fun x => x.1.entity.id)

/-- The answers for one id. -/
def answers (batch : List (Agg OutboxMessage × Option (Except String Unit))) (id : String) :
    List (Except String Unit) :=
  batch.filterMap (fun x => if x.1.entity.id = id then x.2 else none)

end OutboxCycle

/-- **Workers over one store**, with the answers to the publish calls of each message, and
those of them that were committed. -/
structure OutboxCrew (W : Type) where
  store : EventStore
  cycles : W → OutboxCycle
  calls : String → List (Except String Unit)
  outcomes : String → List (Except String Unit)

namespace OutboxCrew

variable {P W : Type}

/-- An empty store, and no cycle begun. -/
def initial : OutboxCrew W := ⟨EventStore.new, fun _ => .idle, fun _ => [], fun _ => []⟩

variable (checks C)

/-- **A step**: of a worker in its cycle, or of somebody else who commits new messages, or
works on other streams. -/
inductive Step [DecidableEq W] (crew : W → OutboxWorker P) : OutboxCrew W → OutboxCrew W → Prop
  /-- Somebody commits new messages, with other entities maybe. -/
  | append {c : OutboxCrew W} {es es' : List Entity} {s : EventStore}
      (hnew : ∀ e ∈ es, hasPrefix e.id = true →
        ∃ (now : SystemTime) (id eventType : String) (payload : Bytes) (destination : Option String)
          (metadata : Metadata) (a : Agg OutboxMessage),
          OutboxMessage.construct C now id eventType payload destination metadata = some a
            ∧ a.entity = e)
      (hnd : (es.map Entity.id).Nodup) (hcommit : c.store.commit es = (.ok (), es', s)) :
      Step crew c { c with store := s }
  /-- Somebody works on streams that are no messages. -/
  | other {c : OutboxCrew W} {s : EventStore}
      (h : ∀ id, hasPrefix id = true → s.lookup id = c.store.lookup id) : Step crew c { c with store := s }
  /-- A worker claims messages, of which it processes the first `batch_size`. -/
  | claim {c : OutboxCrew W} {w : W} {ord : List String} {clock : String → Readings} {workerId : String}
      {max : ℕ} {lease : Duration} {as : List (Agg OutboxMessage)} {s : EventStore}
      (hidle : c.cycles w = .idle) (hord : c.store.Enumerates ord)
      (hclaim : c.store.claimOutboxMessages checks C ord clock workerId max lease = (.ok as, s)) :
      Step crew c { c with
        store := s
        cycles := Function.update c.cycles w
          ⟨as.take (crew w).batchSize, (as.drop (crew w).batchSize).map (fun a => (a, none))⟩ }
  /-- A claim fails, or panics. -/
  | claimFails {c : OutboxCrew W} {ord : List String} {clock : String → Readings} {workerId : String}
      {max : ℕ} {lease : Duration} {f : Fault RepositoryError} {s : EventStore}
      (hord : c.store.Enumerates ord)
      (hclaim : c.store.claimOutboxMessages checks C ord clock workerId max lease = (.error f, s)) :
      Step crew c { c with store := s }
  /-- A worker processes the next message, and its publisher gives some answer. -/
  | process {c : OutboxCrew W} {w : W} {a a' : Agg OutboxMessage} {left : List (Agg OutboxMessage)}
      {t : Readings} {now : SystemTime} {answer : Except String Unit} {r : ProcessOneResult}
      (hleft : (c.cycles w).left = a :: left)
      (hprocess : OutboxWorker.processMessage checks C t now (crew w).workerId (crew w).lease
        (crew w).maxAttempts answer a = some (r, a')) :
      Step crew c { c with
        cycles := Function.update c.cycles w
          ⟨left, (c.cycles w).done ++ [(a', if r.didWork then some answer else none)]⟩
        calls := fun id =>
          c.calls id ++ if r.didWork ∧ a.entity.id = id then [answer] else [] }
  /-- A worker that has processed its messages commits them, or some of them. -/
  | commit {c : OutboxCrew W} {w : W} {batch rest : List (Agg OutboxMessage × Option (Except String Unit))}
      {es : List Entity} {s : EventStore} (hleft : (c.cycles w).left = [])
      (hdone : (c.cycles w).done.Perm (batch ++ rest))
      (hcommit : c.store.commit (batch.map (fun x => x.1.entity)) = (.ok (), es, s)) :
      Step crew c { c with
        store := s
        cycles := Function.update c.cycles w ⟨[], rest⟩
        outcomes := fun id => c.outcomes id ++ OutboxCycle.answers batch id }
  /-- A commit fails, and the worker still has the messages. -/
  | commitFails {c : OutboxCrew W} {w : W}
      {batch rest : List (Agg OutboxMessage × Option (Except String Unit))} {es : List Entity}
      {f : Fault RepositoryError} {s : EventStore} (hleft : (c.cycles w).left = [])
      (hdone : (c.cycles w).done.Perm (batch ++ rest))
      (hcommit : c.store.commit (batch.map (fun x => x.1.entity)) = (.error f, es, s)) :
      Step crew c { c with store := s }
  /-- A worker gives its cycle up. -/
  | abandon (c : OutboxCrew W) (w : W) :
      Step crew c { c with cycles := Function.update c.cycles w .idle }

/-- A run. -/
def Run [DecidableEq W] (crew : W → OutboxWorker P) : OutboxCrew W → OutboxCrew W → Prop :=
  Relation.ReflTransGen (Step checks C crew)

/-! ## One message -/

/-- **The account of an id**: nothing is stored under it, or a message that its outcomes have
left as it is and of which at most one publish call is not committed, while it is in
flight. -/
inductive Account (M : ℕ) (c : OutboxCrew W) (id : String) : Prop
  | unborn (hlookup : c.store.lookup id = none) (hcalls : c.calls id = []) (houtcomes : c.outcomes id = [])
  | even {l : List EventRecord} {m : OutboxMessage} (hlookup : c.store.lookup id = some l)
      (hstory : Story checks C id l m) (htally : OutboxMessage.Tally M m.status m.attempts (c.outcomes id))
      (hcalls : c.calls id = c.outcomes id)
  | called {l : List EventRecord} {m : OutboxMessage} {answer : Except String Unit}
      (hlookup : c.store.lookup id = some l) (hstory : Story checks C id l m)
      (htally : OutboxMessage.Tally M m.status m.attempts (c.outcomes id)) (hflight : m.status = .inFlight)
      (hcalls : c.calls id = c.outcomes id ++ [answer])

/-- **A message in a worker's hands**: the stored one, which is in flight, or that one settled
by the answer to its publish call, of which nothing is committed. -/
inductive Held (M : ℕ) (c : OutboxCrew W) : Agg OutboxMessage × Option (Except String Unit) → Prop
  | claimed {a : Agg OutboxMessage} {m : OutboxMessage} (htells : Tells checks C a m)
      (hflight : m.status = .inFlight) (hlookup : c.store.lookup a.entity.id = some a.entity.events)
      (hcommitted : a.entity.committedVersion = a.entity.events.length)
      (hcalls : c.calls a.entity.id = c.outcomes a.entity.id) : Held M c (a, none)
  | answered {a : Agg OutboxMessage} {l : List EventRecord} {m : OutboxMessage}
      {answer : Except String Unit} (hlookup : c.store.lookup a.entity.id = some l)
      (hstory : Story checks C a.entity.id l m) (hflight : m.status = .inFlight)
      (htells : Tells checks C a ((OutboxWorker.settling M m.attempts answer).after m))
      (hevents : l <+: a.entity.events) (hcommitted : a.entity.committedVersion = l.length)
      (hcalls : c.calls a.entity.id = c.outcomes a.entity.id ++ [answer]) : Held M c (a, some answer)

variable {checks C} {M : ℕ} {c c' : OutboxCrew W} {id : String}

/-- Nothing has changed for an id. -/
structure Same (c c' : OutboxCrew W) (id : String) : Prop where
  lookup : c'.store.lookup id = c.store.lookup id
  calls : c'.calls id = c.calls id
  outcomes : c'.outcomes id = c.outcomes id

variable (checks C) in
/-- **What a step does to a message**: nothing, or it stores it, claims it, has it published,
or settles what is stored by the answer of its publish call. -/
inductive Turn (M : ℕ) (c c' : OutboxCrew W) (id : String) : Prop
  | same (h : Same c c' id)
  | born {l : List EventRecord} {m : OutboxMessage} (hnone : c.store.lookup id = none)
      (hlookup : c'.store.lookup id = some l) (hstory : Story checks C id l m)
      (hpending : m.status = .pending) (hattempts : m.attempts = 0) (hcalls : c'.calls id = c.calls id)
      (houtcomes : c'.outcomes id = c.outcomes id)
  | claimed {x : String × UInt64} {l l' : List EventRecord} {m m' : OutboxMessage}
      (hlookup : c.store.lookup id = some l)
      (hadv : Advances checks C id (OutboxMessage.claim checks C) x l l' m m')
      (hlookup' : c'.store.lookup id = some l') (hcalls : c'.calls id = c.calls id)
      (houtcomes : c'.outcomes id = c.outcomes id)
  | called {l : List EventRecord} {m : OutboxMessage} {answer : Except String Unit}
      (hlookup : c.store.lookup id = some l) (hstory : Story checks C id l m)
      (hflight : m.status = .inFlight) (hcalls : c.calls id = c.outcomes id)
      (hlookup' : c'.store.lookup id = c.store.lookup id) (hcalls' : c'.calls id = c.calls id ++ [answer])
      (houtcomes : c'.outcomes id = c.outcomes id)
  | settled {l l' : List EventRecord} {m : OutboxMessage} {answer : Except String Unit}
      (hlookup : c.store.lookup id = some l) (hstory : Story checks C id l m)
      (hflight : m.status = .inFlight) (hcalls : c.calls id = c.outcomes id ++ [answer])
      (hlookup' : c'.store.lookup id = some l')
      (hstory' : Story checks C id l' ((OutboxWorker.settling M m.attempts answer).after m))
      (hcalls' : c'.calls id = c.calls id) (houtcomes : c'.outcomes id = c.outcomes id ++ [answer])

/-- The account of an id for which nothing has changed. -/
theorem Account.same (h : Account checks C M c id) (hsame : Same c c' id) : Account checks C M c' id := by
  obtain ⟨hlookup, hcalls, houtcomes⟩ := hsame
  cases h with
  | unborn hnone hnever hnothing =>
    exact .unborn (hlookup.trans hnone) (hcalls.trans hnever) (houtcomes.trans hnothing)
  | even hl hstory htally heven =>
    exact .even (hlookup.trans hl) hstory (houtcomes ▸ htally) (by rw [hcalls, houtcomes, heven])
  | called hl hstory htally hflight hcalled =>
    exact .called (hlookup.trans hl) hstory (houtcomes ▸ htally) hflight (by rw [hcalls, houtcomes, hcalled])

/-- A stored message has a tally. -/
theorem Account.tally (hC : C.Lawful) (h : Account checks C M c id) {l : List EventRecord}
    {m : OutboxMessage} (hlookup : c.store.lookup id = some l) (hstory : Story checks C id l m) :
    OutboxMessage.Tally M m.status m.attempts (c.outcomes id) := by
  cases h with
  | unborn hnone =>
    rw [hnone] at hlookup
    cases hlookup
  | even hl hstory' htally =>
    obtain rfl := Option.some.inj (hl.symm.trans hlookup)
    exact hstory.unique hC hstory' ▸ htally
  | called hl hstory' htally =>
    obtain rfl := Option.some.inj (hl.symm.trans hlookup)
    exact hstory.unique hC hstory' ▸ htally

/-- **A step keeps the accounts.** -/
theorem Turn.account (hC : C.Lawful) (hM : M < 2 ^ 32) (hturn : Turn checks C M c c' id)
    (h : Account checks C M c id) : Account checks C M c' id := by
  cases hturn with
  | same hsame => exact h.same hsame
  | @born l m hnone hlookup hstory hpending hattempts hcalls houtcomes =>
    cases h with
    | unborn _ hnever hnothing =>
      refine .even hlookup hstory ?_ (by rw [hcalls, houtcomes, hnever, hnothing])
      rw [hpending, hattempts, houtcomes, hnothing]
      exact .created M
    | even hl => cases hnone.symm.trans hl
    | called hl => cases hnone.symm.trans hl
  | claimed hlookup hadv hlookup' hcalls houtcomes =>
    have htally := h.tally hC hlookup hadv.before
    cases h with
    | unborn hnone => cases hnone.symm.trans hlookup
    | even hl hstory _ heven =>
      refine .even hlookup' hadv.after ?_ (by rw [hcalls, houtcomes, heven])
      rw [houtcomes]
      obtain ⟨hpending, hflight, hattempts⟩ := hadv.claimed
      rw [hflight]
      exact (hpending ▸ htally).claim hM hattempts
    | called hl hstory _ hflight =>
      -- a message in flight is not claimed
      obtain rfl := Option.some.inj (hl.symm.trans hlookup)
      obtain rfl := hstory.unique hC hadv.before
      cases hflight.symm.trans hadv.claimed.1
  | called hlookup hstory hflight heven hlookup' hcalls' houtcomes =>
    have htally := h.tally hC hlookup hstory
    rw [heven, ← houtcomes] at hcalls'
    exact .called (hlookup'.trans hlookup) hstory (houtcomes ▸ htally) hflight hcalls'
  | settled hlookup hstory hflight hcalls hlookup' hstory' hcalls' houtcomes =>
    refine .even hlookup' hstory' ?_ (by rw [hcalls', houtcomes, hcalls])
    rw [houtcomes]
    exact (hflight ▸ h.tally hC hlookup hstory).settle _

/-- **A published or failed message** is left alone, and not published. -/
theorem Turn.of_settled (hC : C.Lawful) (hturn : Turn checks C M c c' id) {l : List EventRecord}
    {m : OutboxMessage} (hlookup : c.store.lookup id = some l) (hstory : Story checks C id l m)
    (hsettled : m.status = .published ∨ m.status = .failed) :
    c'.store.lookup id = some l ∧ c'.calls id = c.calls id := by
  have hnot : ∀ {l₁ : List EventRecord} {m₁ : OutboxMessage}, c.store.lookup id = some l₁ →
      Story checks C id l₁ m₁ → ¬ (m₁.status = .pending ∨ m₁.status = .inFlight) := by
    intro l₁ m₁ hl₁ hstory₁ hopen
    obtain rfl := Option.some.inj (hl₁.symm.trans hlookup)
    obtain rfl := hstory₁.unique hC hstory
    rcases hsettled with h | h <;> rcases hopen with h' | h' <;> cases h.symm.trans h'
  cases hturn with
  | same hsame => exact ⟨hsame.lookup.trans hlookup, hsame.calls⟩
  | born hnone => cases hnone.symm.trans hlookup
  | claimed hl hadv => exact absurd (Or.inl hadv.claimed.1) (hnot hl hadv.before)
  | called hl hstory₁ hflight => exact absurd (Or.inr hflight) (hnot hl hstory₁)
  | settled hl hstory₁ hflight => exact absurd (Or.inr hflight) (hnot hl hstory₁)

/-! ## Messages in hand -/

namespace Held

variable {x : Agg OutboxMessage × Option (Except String Unit)}

/-- A message in hand of which nothing has changed. -/
theorem same (h : Held checks C M c x) (hsame : Same c c' x.1.entity.id) : Held checks C M c' x := by
  obtain ⟨hlookup, hcalls, houtcomes⟩ := hsame
  cases h with
  | claimed htells hflight hl hcommitted heven =>
    exact .claimed htells hflight (hlookup.trans hl) hcommitted (hcalls.trans (heven.trans houtcomes.symm))
  | answered hl hstory hflight htells hevents hcommitted hcalled =>
    refine .answered (hlookup.trans hl) hstory hflight htells hevents hcommitted (hcalls.trans ?_)
    rw [houtcomes]
    exact hcalled

/-- **What is stored of a message in hand** is in flight. -/
theorem inFlight (h : Held checks C M c x) : ∃ l m, c.store.lookup x.1.entity.id = some l
    ∧ Story checks C x.1.entity.id l m ∧ m.status = .inFlight := by
  cases h with
  | claimed htells hflight hl => exact ⟨_, _, hl, htells.story, hflight⟩
  | answered hl hstory hflight => exact ⟨_, _, hl, hstory, hflight⟩

theorem hand (h : Held checks C M c x) : c.store.Hand checks C x.1 := by
  cases h with
  | claimed htells _ hl hcommitted => exact .stored htells hl hcommitted
  | answered hl _ _ htells hevents hcommitted =>
    refine ⟨⟨_, htells⟩, hcommitted ▸ hevents.length_le, ?_⟩
    rw [EventStore.lookup_eq_some hl, hcommitted, ← List.prefix_iff_eq_take.mp hevents]

end Held

end OutboxCrew

namespace OutboxCycle

variable {batch : List (Agg OutboxMessage × Option (Except String Unit))}
  {x : Agg OutboxMessage × Option (Except String Unit)} {id : String}

theorem answers_of_notMem (h : id ∉ ids batch) : answers batch id = [] := by
  refine List.filterMap_eq_nil_iff.mpr (fun y hy => if_neg (fun heq => h ?_))
  exact List.mem_map.mpr ⟨y, hy, heq⟩

theorem answers_cons (x : Agg OutboxMessage × Option (Except String Unit))
    (batch : List (Agg OutboxMessage × Option (Except String Unit))) (id : String) :
    answers (x :: batch) id = (if x.1.entity.id = id then x.2.toList else []) ++ answers batch id := by
  unfold answers
  by_cases h : x.1.entity.id = id
  · cases hx : x.2 <;> simp [h, hx]
  · simp [h]

/-- **The answer for a message of a batch.** -/
theorem answers_of_mem (hnd : (ids batch).Nodup) (hx : x ∈ batch) :
    answers batch x.1.entity.id = x.2.toList := by
  induction batch with
  | nil => exact absurd hx List.not_mem_nil
  | cons y batch ih =>
    obtain ⟨hy, hnd⟩ := List.nodup_cons.mp hnd
    rw [answers_cons]
    cases List.mem_cons.mp hx with
    | inl heq =>
      subst heq
      rw [if_pos rfl, answers_of_notMem hy, List.append_nil]
    | inr hmem =>
      have hne : y.1.entity.id ≠ x.1.entity.id := fun heq =>
        hy (List.mem_map.mpr ⟨x, hmem, heq.symm⟩)
      rw [if_neg hne]
      exact ih hnd hmem

end OutboxCycle

namespace OutboxCrew

variable {P W : Type} {M : ℕ} {c c' : OutboxCrew W} {id : String}

variable (checks C) in
/-- **The invariant**: every message has its account, and is in the hands of one worker at
most, once. -/
structure Inv (M : ℕ) (c : OutboxCrew W) : Prop where
  accounts : ∀ id, hasPrefix id = true → Account checks C M c id
  held : ∀ w, ∀ x ∈ (c.cycles w).held, Held checks C M c x
  nodup : ∀ w, (OutboxCycle.ids (c.cycles w).held).Nodup
  apart : ∀ w w', ∀ x ∈ (c.cycles w).held, ∀ x' ∈ (c.cycles w').held,
    x.1.entity.id = x'.1.entity.id → w = w'

theorem inv_initial : Inv checks C M (initial : OutboxCrew W) := by
  refine ⟨fun id _ => .unborn ?_ rfl rfl, fun w x hx => absurd hx List.not_mem_nil,
    fun w => List.nodup_nil, fun w w' x hx => absurd hx List.not_mem_nil⟩
  simp [initial, EventStore.new, EventStore.lookup]

namespace Inv

theorem stories (h : Inv checks C M c) : c.store.Stories checks C := by
  intro id l hl hpre
  cases h.accounts id hpre with
  | unborn hnone => cases hnone.symm.trans hl
  | even hl' hstory => exact ⟨_, Option.some.inj (hl'.symm.trans hl) ▸ hstory⟩
  | called hl' hstory => exact ⟨_, Option.some.inj (hl'.symm.trans hl) ▸ hstory⟩

/-- **A step that leaves the workers' hands alone.** -/
theorem frame (hC : C.Lawful) (hM : M < 2 ^ 32) (h : Inv checks C M c) (hcycles : c'.cycles = c.cycles)
    (hturns : ∀ id, hasPrefix id = true → Turn checks C M c c' id)
    (hothers : ∀ w, ∀ x ∈ (c.cycles w).held, Same c c' x.1.entity.id) : Inv checks C M c' := by
  refine ⟨fun id hpre => (hturns id hpre).account hC hM (h.accounts id hpre), ?_, ?_, ?_⟩
  · rw [hcycles]
    exact fun w x hx => (h.held w x hx).same (hothers w x hx)
  · rw [hcycles]
    exact h.nodup
  · rw [hcycles]
    exact h.apart

/-- **A step of one worker**, with its new hands. -/
theorem update [DecidableEq W] (hC : C.Lawful) (hM : M < 2 ^ 32) (h : Inv checks C M c) {w : W}
    {cycle : OutboxCycle} (hcycles : c'.cycles = Function.update c.cycles w cycle)
    (hturns : ∀ id, hasPrefix id = true → Turn checks C M c c' id)
    (hothers : ∀ w' ≠ w, ∀ x ∈ (c.cycles w').held, Same c c' x.1.entity.id)
    (hheld : ∀ x ∈ cycle.held, Held checks C M c' x) (hnodup : (OutboxCycle.ids cycle.held).Nodup)
    (hapart : ∀ x ∈ cycle.held, ∀ w' ≠ w, ∀ x' ∈ (c.cycles w').held,
      x.1.entity.id ≠ x'.1.entity.id) : Inv checks C M c' := by
  refine ⟨fun id hpre => (hturns id hpre).account hC hM (h.accounts id hpre), fun w' => ?_, fun w' => ?_,
    fun w₁ w₂ => ?_⟩
  · by_cases hw : w' = w
    · rw [hcycles, hw, Function.update_self]
      exact hheld
    · rw [hcycles, Function.update_of_ne hw]
      exact fun x hx => (h.held w' x hx).same (hothers w' hw x hx)
  · by_cases hw : w' = w
    · rw [hcycles, hw, Function.update_self]
      exact hnodup
    · rw [hcycles, Function.update_of_ne hw]
      exact h.nodup w'
  · by_cases hw₁ : w₁ = w
    · by_cases hw₂ : w₂ = w
      · exact fun _ _ _ _ _ => hw₁.trans hw₂.symm
      · rw [hcycles, hw₁, Function.update_self, Function.update_of_ne hw₂]
        exact fun x hx x' hx' heq => absurd heq (hapart x hx w₂ hw₂ x' hx')
    · by_cases hw₂ : w₂ = w
      · rw [hcycles, hw₂, Function.update_self, Function.update_of_ne hw₁]
        exact fun x hx x' hx' heq => absurd heq.symm (hapart x' hx' w₁ hw₁ x hx)
      · rw [hcycles, Function.update_of_ne hw₁, Function.update_of_ne hw₂]
        exact h.apart w₁ w₂

/-! ## The steps -/

/-- **New messages committed**: nothing was stored under their ids. -/
theorem stored_of_new (h : Inv checks C M c) {es es' : List Entity} {s : EventStore}
    (hnew : ∀ e ∈ es, hasPrefix e.id = true →
      ∃ (now : SystemTime) (id eventType : String) (payload : Bytes) (destination : Option String)
        (metadata : Metadata) (a : Agg OutboxMessage),
        OutboxMessage.construct C now id eventType payload destination metadata = some a
          ∧ a.entity = e)
    (hnd : (es.map Entity.id).Nodup) (hcommit : c.store.commit es = (.ok (), es', s)) {e : Entity}
    (he : e ∈ es) (hpre : hasPrefix e.id = true) : c.store.lookup e.id = none
      ∧ ∃ l m, s.lookup e.id = some l ∧ Story checks C e.id l m ∧ m.status = .pending ∧ m.attempts = 0 := by
  obtain ⟨now, id, eventType, payload, destination, metadata, a, hconstruct, rfl⟩ := hnew e he hpre
  obtain ⟨b, hb, -, hcommitted, -, htells⟩ :=
    Tells.construct checks C now id eventType payload destination metadata
  obtain rfl : b = a := Option.some.inj (hb.symm.trans hconstruct)
  -- the version check says that there were no events
  have hstream : c.store.stream b.entity.id = [] := by
    rw [← List.length_eq_zero_iff, EventStore.valid_of_commit hcommit _ he, hcommitted]
  have hnone : c.store.lookup b.entity.id = none := by
    cases hl : c.store.lookup b.entity.id with
    | none => rfl
    | some l =>
      obtain ⟨m, hstory⟩ := h.stories _ l hl hpre
      exact absurd ((EventStore.lookup_eq_some hl).symm.trans hstream) hstory.ne_nil
  obtain ⟨-, rfl⟩ := EventStore.commit_eq_ok hcommit
  obtain ⟨l, hl⟩ := Option.isSome_iff_exists.mp
    ((EventStore.isSome_lookup_extendAll c.store es b.entity.id).mpr (Or.inr ⟨_, he, rfl⟩))
  have hevents : l = b.entity.events := by
    rw [← EventStore.lookup_eq_some hl, EventStore.stream_extendAll, EventStore.batchEvents_of_nodup hnd he,
      hstream, Entity.uncommitted, hcommitted]
    rfl
  exact ⟨hnone, l, _, hl, hevents ▸ htells.story, rfl, rfl⟩

/-- **A claim** is a turn of every message. -/
theorem turn_claims {s : EventStore} {ids : List String} {clock : String → Readings} {workerId : String}
    {lease : Duration} {new : List (Agg OutboxMessage)} {cycles : W → OutboxCycle}
    (hclaims : c.store.Claims checks C clock workerId lease ids s new) (id : String) :
    Turn checks C M c ⟨s, cycles, c.calls, c.outcomes⟩ id := by
  by_cases hid : id ∈ new.map (fun a => a.entity.id)
  · obtain ⟨a, ha, rfl⟩ := List.mem_map.mp hid
    obtain ⟨hstored, m, m', ⟨leasedUntil, l, -, hl, hadv⟩, -, -⟩ := hclaims.each a ha
    exact .claimed hl hadv hstored rfl rfl
  · exact .same ⟨hclaims.others id hid, rfl, rfl⟩

/-- What a worker has in its hands is not claimed. -/
theorem notMem_claims (hC : C.Lawful) (h : Inv checks C M c) {s : EventStore} {ids : List String}
    {clock : String → Readings} {workerId : String} {lease : Duration} {new : List (Agg OutboxMessage)}
    (hclaims : c.store.Claims checks C clock workerId lease ids s new) {w : W}
    {x : Agg OutboxMessage × Option (Except String Unit)} (hx : x ∈ (c.cycles w).held) :
    x.1.entity.id ∉ new.map (fun a => a.entity.id) := by
  intro hid
  obtain ⟨a, ha, heq⟩ := List.mem_map.mp hid
  obtain ⟨-, m, m', ⟨leasedUntil, l, -, hl, hadv⟩, -, -⟩ := hclaims.each a ha
  obtain ⟨l₀, m₀, hl₀, hstory, hflight⟩ := (h.held w x hx).inFlight
  rw [← heq] at hl₀ hstory
  obtain rfl := Option.some.inj (hl₀.symm.trans hl)
  obtain rfl := hstory.unique hC hadv.before
  cases hflight.symm.trans hadv.claimed.1

/-- **A message that was claimed** is in hand. -/
theorem held_claims (hC : C.Lawful) (h : Inv checks C M c) {s : EventStore} {ids : List String}
    {clock : String → Readings} {workerId : String} {lease : Duration} {new : List (Agg OutboxMessage)}
    {cycles : W → OutboxCycle} (hclaims : c.store.Claims checks C clock workerId lease ids s new)
    {a : Agg OutboxMessage} (ha : a ∈ new) :
    Held checks C M (⟨s, cycles, c.calls, c.outcomes⟩ : OutboxCrew W) (a, none) := by
  obtain ⟨hstored, m, m', ⟨leasedUntil, l, -, hl, hadv⟩, htells, hcommitted⟩ := hclaims.each a ha
  refine .claimed htells hadv.claimed.2.1 hstored hcommitted ?_
  cases h.accounts a.entity.id hadv.before.hasPrefix with
  | unborn hnone => cases hnone.symm.trans hl
  | even _ _ _ heven => exact heven
  | called hl' hstory _ hflight =>
    obtain rfl := Option.some.inj (hl'.symm.trans hl)
    obtain rfl := hstory.unique hC hadv.before
    cases hflight.symm.trans hadv.claimed.1

variable (checks C) in
/-- What a step keeps: it is a turn of every message, and keeps the invariant. -/
def Kept (M : ℕ) (c c' : OutboxCrew W) : Prop :=
  (∀ id, hasPrefix id = true → Turn checks C M c c' id) ∧ Inv checks C M c'

/-- New messages, and other entities. -/
theorem keptAppend (hC : C.Lawful) (hM : M < 2 ^ 32) (h : Inv checks C M c) {es es' : List Entity}
    {s : EventStore}
    (hnew : ∀ e ∈ es, hasPrefix e.id = true →
      ∃ (now : SystemTime) (id eventType : String) (payload : Bytes) (destination : Option String)
        (metadata : Metadata) (a : Agg OutboxMessage),
        OutboxMessage.construct C now id eventType payload destination metadata = some a
          ∧ a.entity = e)
    (hnd : (es.map Entity.id).Nodup) (hcommit : c.store.commit es = (.ok (), es', s)) :
    Kept checks C M c { c with store := s } := by
  have hsame : ∀ id, id ∉ es.map Entity.id → s.lookup id = c.store.lookup id := fun id hid =>
    (EventStore.commit_eq_ok hcommit).2 ▸ EventStore.lookup_extendAll_of_notMem c.store hid
  have hturns : ∀ id, hasPrefix id = true → Turn checks C M c { c with store := s } id := by
    intro id hpre
    by_cases hid : id ∈ es.map Entity.id
    · obtain ⟨e, he, rfl⟩ := List.mem_map.mp hid
      obtain ⟨hnone, l, m, hl, hstory, hpending, hattempts⟩ := h.stored_of_new hnew hnd hcommit he hpre
      exact .born hnone hl hstory hpending hattempts rfl rfl
    · exact .same ⟨hsame id hid, rfl, rfl⟩
  refine ⟨hturns, h.frame hC hM rfl hturns (fun w x hx => ⟨hsame _ (fun hid => ?_), rfl, rfl⟩)⟩
  -- what a worker has in hand is stored already
  obtain ⟨l, m, hl, hstory, -⟩ := (h.held w x hx).inFlight
  obtain ⟨e, he, heq⟩ := List.mem_map.mp hid
  obtain ⟨hnone, -⟩ := h.stored_of_new hnew hnd hcommit he (heq ▸ hstory.hasPrefix)
  rw [heq] at hnone
  cases hnone.symm.trans hl

theorem keptClaimFails (hC : C.Lawful) (hM : M < 2 ^ 32) (h : Inv checks C M c) {s : EventStore}
    {ids : List String} {clock : String → Readings} {workerId : String} {lease : Duration}
    {new : List (Agg OutboxMessage)}
    (hclaims : c.store.Claims checks C clock workerId lease ids s new) :
    Kept checks C M c { c with store := s } := by
  refine ⟨fun id _ => turn_claims hclaims id, h.frame hC hM rfl (fun id _ => turn_claims hclaims id)
    (fun w x hx => ⟨hclaims.others _ (h.notMem_claims hC hclaims hx), rfl, rfl⟩)⟩

theorem apart_of_ids (h : Inv checks C M c) {w : W}
    {held : List (Agg OutboxMessage × Option (Except String Unit))}
    (hids : OutboxCycle.ids held ⊆ OutboxCycle.ids (c.cycles w).held) :
    ∀ x ∈ held, ∀ w' ≠ w, ∀ x' ∈ (c.cycles w').held, x.1.entity.id ≠ x'.1.entity.id := by
  intro x hx w' hw x' hx' heq
  obtain ⟨x₀, hx₀, heq₀⟩ := List.mem_map.mp (hids (List.mem_map.mpr ⟨x, hx, rfl⟩))
  exact hw (h.apart w w' x₀ hx₀ x' hx' (heq₀.trans heq)).symm

variable [DecidableEq W]

/-- A claim of messages, which are the worker's from then on. -/
theorem keptClaim (hC : C.Lawful) (hM : M < 2 ^ 32) (h : Inv checks C M c) (w : W) {s : EventStore}
    {ids : List String} (hnd : ids.Nodup) {clock : String → Readings} {workerId : String} {lease : Duration}
    {as : List (Agg OutboxMessage)}
    (hclaims : c.store.Claims checks C clock workerId lease ids s as) (n : ℕ) :
    Kept checks C M c { c with
      store := s
      cycles := Function.update c.cycles w ⟨as.take n, (as.drop n).map (fun a => (a, none))⟩ } := by
  have hcycle : OutboxCycle.held ⟨as.take n, (as.drop n).map (fun a => (a, none))⟩
      = as.map (fun a => (a, none)) := by
    rw [OutboxCycle.held, ← List.map_append, List.take_append_drop]
  have hids : OutboxCycle.ids (as.map (fun a => (a, none))) = as.map (fun a => a.entity.id) :=
    List.map_map ..
  refine ⟨fun id _ => turn_claims hclaims id,
    h.update hC hM rfl (fun id _ => turn_claims hclaims id) ?_ ?_ ?_ ?_⟩
  · exact fun w' _ x hx => ⟨hclaims.others _ (h.notMem_claims hC hclaims hx), rfl, rfl⟩
  · rw [hcycle]
    intro x hx
    obtain ⟨a, ha, rfl⟩ := List.mem_map.mp hx
    exact h.held_claims hC hclaims ha
  · rw [hcycle, hids]
    exact hclaims.sublist.nodup hnd
  · rw [hcycle]
    intro x hx w' _ x' hx' heq
    obtain ⟨a, ha, rfl⟩ := List.mem_map.mp hx
    exact h.notMem_claims hC hclaims hx' (heq ▸ List.mem_map.mpr ⟨a, ha, rfl⟩)

/-- **A message processed**: its publish call is not committed yet. -/
theorem keptProcess (hC : C.Lawful) (hM : M < 2 ^ 32) (h : Inv checks C M c) {w : W}
    {a a' : Agg OutboxMessage} {left : List (Agg OutboxMessage)} (hleft : (c.cycles w).left = a :: left)
    {t : Readings} {now : SystemTime} {workerId : String} {lease : Duration}
    {answer : Except String Unit} {r : ProcessOneResult}
    (hprocess : OutboxWorker.processMessage checks C t now workerId lease M answer a = some (r, a')) :
    Kept checks C M c { c with
      cycles := Function.update c.cycles w
        ⟨left, (c.cycles w).done ++ [(a', if r.didWork then some answer else none)]⟩
      calls := fun id => c.calls id ++ if r.didWork ∧ a.entity.id = id then [answer] else [] } := by
  have hcycle : (c.cycles w).held = (a, none) :: (left.map (fun a => (a, none)) ++ (c.cycles w).done) := by
    rw [OutboxCycle.held, hleft]
    rfl
  have hmem : (a, none) ∈ (c.cycles w).held := hcycle ▸ List.mem_cons_self
  have hnodup := h.nodup w
  rw [hcycle] at hnodup
  obtain ⟨hnot, hrest⟩ := List.nodup_cons.mp hnodup
  cases h.held w _ hmem with
  | @claimed _ m htells hflight hlookup hcommitted heven =>
    obtain ⟨hwork, hcall⟩ := OutboxWorker.processMessage_inFlight htells hflight hprocess
    obtain ⟨hadv, htells', hid, hcommitted'⟩ :=
      OutboxWorker.call_settling htells (OutboxWorker.settles_settling hflight M m.attempts answer) hcall
    obtain ⟨e, -, hevents⟩ := hadv.events
    simp only [hwork, true_and, if_true]
    -- the calls of the message, and of others
    have hself : ∀ (cycles : W → OutboxCycle), Turn checks C M c
        ⟨c.store, cycles, fun id => c.calls id ++ if a.entity.id = id then [answer] else [], c.outcomes⟩
        a.entity.id := fun cycles =>
      .called hlookup htells.story hflight heven rfl (congrArg _ (if_pos rfl)) rfl
    have hother : ∀ (cycles : W → OutboxCycle) id, id ≠ a.entity.id → Same c
        ⟨c.store, cycles, fun id => c.calls id ++ if a.entity.id = id then [answer] else [], c.outcomes⟩
        id := fun cycles id hne =>
      ⟨rfl, (congrArg _ (if_neg (Ne.symm hne))).trans (List.append_nil _), rfl⟩
    have hturns : ∀ (cycles : W → OutboxCycle) id, hasPrefix id = true → Turn checks C M c
        ⟨c.store, cycles, fun id => c.calls id ++ if a.entity.id = id then [answer] else [], c.outcomes⟩
        id := fun cycles id _ => by
      by_cases heq : id = a.entity.id
      · exact heq ▸ hself cycles
      · exact .same (hother cycles id heq)
    have hperm : (OutboxCycle.ids (OutboxCycle.held ⟨left, (c.cycles w).done ++ [(a', some answer)]⟩)).Perm
        (OutboxCycle.ids (c.cycles w).held) := by
      rw [hcycle, OutboxCycle.held, ← List.append_assoc]
      refine (List.perm_append_singleton _ _).map _ |>.trans ?_
      rw [List.map_cons, hid]
      exact List.Perm.refl _
    refine ⟨hturns _, h.update hC hM rfl (hturns _) ?_ ?_ ?_ ?_⟩
    · intro w' hw x hx
      exact hother _ _ (fun heq => hw (h.apart w' w x hx (a, none) hmem heq))
    · intro x hx
      rw [OutboxCycle.held, ← List.append_assoc] at hx
      cases List.mem_append.mp hx with
      | inl hold =>
        refine (h.held w x (hcycle ▸ List.mem_cons_of_mem _ hold)).same (hother _ _ (fun heq => hnot ?_))
        exact List.mem_map.mpr ⟨x, hold, heq⟩
      | inr hnew =>
        rw [List.mem_singleton.mp hnew]
        refine .answered (m := m) (l := a.entity.events) (hid ▸ hlookup) (hid ▸ htells.story) hflight
          htells' ?_ ?_ ?_
        · exact hevents ▸ List.prefix_append _ _
        · exact hcommitted'.trans hcommitted
        · rw [hid]
          exact (congrArg _ (if_pos rfl)).trans (congrArg (· ++ [answer]) heven)
    · exact hperm.nodup_iff.mpr (h.nodup w)
    · exact h.apart_of_ids hperm.subset

omit [DecidableEq W] in
/-- The messages of a cycle in two parts. -/
theorem parts (h : Inv checks C M c) {w : W}
    {batch rest : List (Agg OutboxMessage × Option (Except String Unit))}
    (hleft : (c.cycles w).left = []) (hdone : (c.cycles w).done.Perm (batch ++ rest)) :
    (c.cycles w).held.Perm (batch ++ rest) ∧ (OutboxCycle.ids batch ++ OutboxCycle.ids rest).Nodup := by
  have hheld : (c.cycles w).held.Perm (batch ++ rest) := by
    rw [OutboxCycle.held, hleft]
    exact hdone
  have hids : (OutboxCycle.ids (c.cycles w).held).Perm (OutboxCycle.ids batch ++ OutboxCycle.ids rest) := by
    rw [OutboxCycle.ids, OutboxCycle.ids, OutboxCycle.ids, ← List.map_append]
    exact hheld.map _
  exact ⟨hheld, hids.nodup_iff.mp (h.nodup w)⟩

/-- **A commit of processed messages**: their outcomes are what is stored. -/
theorem keptCommit (hC : C.Lawful) (hM : M < 2 ^ 32) (h : Inv checks C M c) {w : W}
    {batch rest : List (Agg OutboxMessage × Option (Except String Unit))}
    (hleft : (c.cycles w).left = []) (hdone : (c.cycles w).done.Perm (batch ++ rest)) {s : EventStore}
    (hstored : ∀ x ∈ batch, s.lookup x.1.entity.id = some x.1.entity.events)
    (hothers : ∀ id, id ∉ OutboxCycle.ids batch → s.lookup id = c.store.lookup id) :
    Kept checks C M c { c with
      store := s
      cycles := Function.update c.cycles w ⟨[], rest⟩
      outcomes := fun id => c.outcomes id ++ OutboxCycle.answers batch id } := by
  obtain ⟨hheld, hnodup⟩ := h.parts hleft hdone
  obtain ⟨hbatch, hrest, hdisjoint⟩ := List.nodup_append.mp hnodup
  have hsame : ∀ (cycles : W → OutboxCycle) id, id ∉ OutboxCycle.ids batch → Same c
      ⟨s, cycles, c.calls, fun id => c.outcomes id ++ OutboxCycle.answers batch id⟩ id :=
    fun cycles id hid => ⟨hothers id hid, rfl,
      (congrArg _ (OutboxCycle.answers_of_notMem hid)).trans (List.append_nil _)⟩
  have hturns : ∀ (cycles : W → OutboxCycle) id, hasPrefix id = true → Turn checks C M c
      ⟨s, cycles, c.calls, fun id => c.outcomes id ++ OutboxCycle.answers batch id⟩ id := by
    intro cycles id _
    by_cases hid : id ∈ OutboxCycle.ids batch
    · obtain ⟨x, hx, rfl⟩ := List.mem_map.mp hid
      have hanswers := OutboxCycle.answers_of_mem hbatch hx
      have hnew := hstored x hx
      cases h.held w x (hheld.mem_iff.mpr (List.mem_append_left _ hx)) with
      | claimed _ _ hlookup =>
        -- it was not processed, and is stored as it was
        exact .same ⟨hnew.trans hlookup.symm, rfl, (congrArg _ hanswers).trans (List.append_nil _)⟩
      | answered hlookup hstory hflight htells _ _ hcalled =>
        exact .settled hlookup hstory hflight hcalled hnew htells.story rfl (congrArg _ hanswers)
    · exact .same (hsame cycles id hid)
  refine ⟨hturns _, h.update hC hM rfl (hturns _) ?_ ?_ hrest ?_⟩
  · intro w' hw x hx
    refine hsame _ _ (fun hid => ?_)
    obtain ⟨y, hy, heq⟩ := List.mem_map.mp hid
    exact hw (h.apart w' w x hx y (hheld.mem_iff.mpr (List.mem_append_left _ hy)) heq.symm)
  · intro x hx
    refine (h.held w x (hheld.mem_iff.mpr (List.mem_append_right _ hx))).same (hsame _ _ (fun hid => ?_))
    exact hdisjoint _ hid _ (List.mem_map.mpr ⟨x, hx, rfl⟩) rfl
  · exact h.apart_of_ids (List.map_subset _ (fun x hx => hheld.mem_iff.mpr (List.mem_append_right _ hx)))

omit [DecidableEq W] in
/-- The messages of a cycle, committed. -/
theorem commit_cases (h : Inv checks C M c) {w : W}
    {batch rest : List (Agg OutboxMessage × Option (Except String Unit))}
    (hleft : (c.cycles w).left = []) (hdone : (c.cycles w).done.Perm (batch ++ rest)) {r : RepoRes Unit}
    {es : List Entity} {s : EventStore}
    (hcommit : c.store.commit (batch.map (fun x => x.1.entity)) = (r, es, s)) :
    (∃ f, r = .error f) ∧ s = c.store
      ∨ r = .ok () ∧ (∀ x ∈ batch, s.lookup x.1.entity.id = some x.1.entity.events)
        ∧ ∀ id, id ∉ OutboxCycle.ids batch → s.lookup id = c.store.lookup id := by
  obtain ⟨hheld, hnodup⟩ := h.parts hleft hdone
  have hhands : ∀ a ∈ batch.map Prod.fst, c.store.Hand checks C a := fun a ha => by
    obtain ⟨x, hx, rfl⟩ := List.mem_map.mp ha
    exact (h.held w x (hheld.mem_iff.mpr (List.mem_append_left _ hx))).hand
  have hids : (batch.map Prod.fst).map (fun a => a.entity.id) = OutboxCycle.ids batch := List.map_map ..
  rw [show batch.map (fun x => x.1.entity) = (batch.map Prod.fst).map Agg.entity from
    (List.map_map ..).symm] at hcommit
  rcases EventStore.commit_hands hhands (hids ▸ (List.nodup_append.mp hnodup).1) hcommit with
    ⟨hr, -, hs⟩ | ⟨hr, -, -, hstored, hothers⟩
  · exact Or.inl ⟨hr, hs⟩
  · exact Or.inr ⟨hr, fun x hx => (hstored x.1 (List.mem_map_of_mem hx)).2, hids ▸ hothers⟩

/-- **Every step is a turn of every message** and keeps the invariant. -/
theorem step (hC : C.Lawful) {crew : W → OutboxWorker P} (hcrew : ∀ w, (crew w).maxAttempts = M)
    (hM : M < 2 ^ 32) (h : Inv checks C M c) (hstep : Step checks C crew c c') : Kept checks C M c c' := by
  cases hstep with
  | append hnew hnd hcommit => exact h.keptAppend hC hM hnew hnd hcommit
  | other hsame =>
    refine ⟨fun id hpre => .same ⟨hsame id hpre, rfl, rfl⟩,
      h.frame hC hM rfl (fun id hpre => .same ⟨hsame id hpre, rfl, rfl⟩) (fun w x hx => ?_)⟩
    obtain ⟨l, m, -, hstory, -⟩ := (h.held w x hx).inFlight
    exact ⟨hsame _ hstory.hasPrefix, rfl, rfl⟩
  | @claim w ord clock workerId max lease as s hidle hord hclaim =>
    obtain ⟨-, hclaims⟩ := EventStore.claims_of_claim hC h.stories hord hclaim
    exact h.keptClaim hC hM w hord.1 hclaims _
  | @claimFails ord clock workerId max lease f s hord hclaim =>
    cases hp : c.store.poisoned with
    | true =>
      rw [EventStore.claimOutboxMessages, hp] at hclaim
      obtain rfl : c.store = s := (Prod.mk.inj hclaim).2
      exact ⟨fun id _ => .same ⟨rfl, rfl, rfl⟩, h⟩
    | false =>
      cases EventStore.claimOutboxMessages_spec hC h.stories hp hord hclaim with
      | panic hclaims _ _ => exact h.keptClaimFails hC hM hclaims
  | @process w a a' left t now answer r hleft hprocess =>
    rw [hcrew w] at hprocess
    exact h.keptProcess hC hM hleft hprocess
  | commit hleft hdone hcommit =>
    rcases h.commit_cases hleft hdone hcommit with ⟨⟨f, hf⟩, -⟩ | ⟨-, hstored, hothers⟩
    · cases hf
    · exact h.keptCommit hC hM hleft hdone hstored hothers
  | @commitFails w batch rest es f s hleft hdone hcommit =>
    rcases h.commit_cases hleft hdone hcommit with ⟨-, rfl⟩ | ⟨hok, -⟩
    · exact ⟨fun id _ => .same ⟨rfl, rfl, rfl⟩, h⟩
    · cases hok
  | abandon w =>
    have hturns : ∀ id, hasPrefix id = true → Turn checks C M c
        { c with cycles := Function.update c.cycles w .idle } id := fun id _ => .same ⟨rfl, rfl, rfl⟩
    exact ⟨hturns, h.update hC hM rfl hturns (fun _ _ _ _ => ⟨rfl, rfl, rfl⟩)
      (fun _ hx => absurd hx List.not_mem_nil) List.nodup_nil (fun _ hx => absurd hx List.not_mem_nil)⟩

/-- **A run keeps the invariant.** -/
theorem run (hC : C.Lawful) {crew : W → OutboxWorker P} (hcrew : ∀ w, (crew w).maxAttempts = M)
    (hM : M < 2 ^ 32) (h : Inv checks C M c) (hrun : Run checks C crew c c') : Inv checks C M c' := by
  induction hrun with
  | refl => exact h
  | tail _ hstep ih => exact (ih.step hC hcrew hM hstep).2

/-- **A published or failed message is not published again**, in any run. -/
theorem run_of_settled (hC : C.Lawful) {crew : W → OutboxWorker P} (hcrew : ∀ w, (crew w).maxAttempts = M)
    (hM : M < 2 ^ 32) (h : Inv checks C M c) (hrun : Run checks C crew c c') {l : List EventRecord}
    {m : OutboxMessage} (hlookup : c.store.lookup id = some l) (hstory : Story checks C id l m)
    (hsettled : m.status = .published ∨ m.status = .failed) :
    c'.store.lookup id = some l ∧ c'.calls id = c.calls id := by
  induction hrun with
  | refl => exact ⟨hlookup, rfl⟩
  | tail hbefore hstep ih =>
    have hturn := ((h.run hC hcrew hM hbefore).step hC hcrew hM hstep).1 id hstory.hasPrefix
    obtain ⟨hlookup', hcalls⟩ := hturn.of_settled hC ih.1 hstory hsettled
    exact ⟨hlookup', hcalls.trans ih.2⟩

end Inv

/-! ## Bounded retries -/

/-- **The attempts of a message are bounded.** In every run of workers that make `M` attempts,
whatever the publishers answer and whoever goes on when, a stored message hydrates; its
attempts are the publish calls that were committed, and one more while it is in flight;
they are `max 1 M` at most, as are the calls; it has failed exactly where the one with this
number was answered by an error; none follows one that was answered by `Ok`; and
once it is published or failed there are no more. -/
theorem retries_bounded [DecidableEq W] (hC : C.Lawful) {crew : W → OutboxWorker P}
    (hcrew : ∀ w, (crew w).maxAttempts = M) (hM : M < 2 ^ 32) {c : OutboxCrew W}
    (hrun : Run checks C crew initial c) {id : String} {l : List EventRecord}
    (hlookup : c.store.lookup id = some l) (hpre : hasPrefix id = true) : ∃ m : OutboxMessage,
      (∀ now, EventStore.hydrateMessage checks C now id l
        = .ok ⟨m.inHand now m.metadata, EventStore.loadEntity id l⟩)
      ∧ m.attempts = (c.outcomes id).length + (if m.status = .inFlight then 1 else 0)
      ∧ m.attempts ≤ max 1 M
      ∧ (m.status = .failed ↔ ∃ error, (c.outcomes id)[max 1 M - 1]? = some (.error error))
      ∧ c.outcomes id <+: c.calls id ∧ (c.calls id).length ≤ max 1 M
      ∧ (∀ before after, c.calls id = before ++ .ok () :: after → after = [])
      ∧ (m.status = .published ∨ m.status = .failed →
        ∀ c', Run checks C crew c c' → c'.calls id = c.calls id) := by
  have hinv : Inv checks C M c := inv_initial.run hC hcrew hM hrun
  obtain ⟨m, hstory⟩ := hinv.stories id l hlookup hpre
  have haccount := hinv.accounts id hpre
  have htally := haccount.tally hC hlookup hstory
  have hcalls : c.outcomes id <+: c.calls id ∧ (c.calls id).length ≤ max 1 M
      ∧ OutboxMessage.OnceTaken (c.calls id) := by
    cases haccount with
    | unborn hnone => cases hnone.symm.trans hlookup
    | even _ _ _ heven =>
      rw [heven]
      have hattempts := htally.attempts_eq
      exact ⟨List.prefix_refl _, by have := htally.attempts_le; omega, htally.onceTaken⟩
    | called hl hstory' htally' hflight hcalled =>
      obtain ⟨herrors, hattempts, hle⟩ := (hflight ▸ htally').of_inFlight
      rw [hcalled]
      refine ⟨List.prefix_append _ _, ?_, herrors.onceTaken _⟩
      rw [List.length_append, List.length_singleton]
      exact hattempts ▸ hle
  exact ⟨m, EventStore.hydrateMessage_eq hC hstory, htally.attempts_eq, htally.attempts_le, htally.failed_iff,
    hcalls.1, hcalls.2.1, hcalls.2.2,
    fun hsettled c' hrun' => (hinv.run_of_settled hC hcrew hM hrun' hlookup hstory hsettled).2⟩

/-- The attempts of a message that was claimed once. -/
theorem retries_bounded_claimed : ∃ (c : OutboxCrew Unit) (l : List EventRecord) (m : OutboxMessage),
    Run true Codecs.counting (fun _ => OutboxWorker.new () 1) initial c
      ∧ c.store.lookup "outbox:m" = some l
      ∧ m.attempts = (c.outcomes "outbox:m").length + (if m.status = .inFlight then 1 else 0)
      ∧ m.attempts ≤ 3 := by
  obtain ⟨a, es, s, l, m, ha, hcommit, hsingle, hclaims⟩ :=
    EventStore.Single.exists_commit true Codecs.counting [] ∅
  have hpanic := hsingle.not_claimPanics (fun _ => hclaims ▸ by decide) OutboxWorker.epochReadings
  obtain ⟨b, s', -, hclaim, -, -, hstored, -⟩ := hsingle.claim Codecs.counting_lawful
    (fun _ => OutboxWorker.epochReadings) "worker-1" (show 1 < 10 by decide) hpanic
  have happend : Step true Codecs.counting (fun _ : Unit => OutboxWorker.new () 1) initial
      ⟨s, fun _ => .idle, fun _ => [], fun _ => []⟩ :=
    .append (fun e he _ => ⟨_, _, _, _, _, _, a, ha, (List.mem_singleton.mp he).symm⟩)
      (List.nodup_singleton _) hcommit
  have hrun := (Relation.ReflTransGen.single happend).tail
    (.claim (w := ()) rfl hsingle.enumerates hclaim)
  obtain ⟨m', -, hattempts, hle, -⟩ := retries_bounded Codecs.counting_lawful (M := 3) (fun _ => rfl)
    (by decide) hrun hstored (by decide)
  exact ⟨_, _, m', hrun, hstored, hattempts, hle⟩

/-! ## Batches -/

/-- **The loop of `process_batch` is a run**, whatever the publisher. -/
theorem run_drainLoop [DecidableEq W] {crew : W → OutboxWorker P} (pub : OutboxPublisher P) {w : W}
    {v v' : OutboxWorker P} (hv : ∃ p, v = { crew w with publisher := p }) {clock : ℕ → Readings × SystemTime}
    {messages processed : List (Agg OutboxMessage)} {r r' : DrainResult} {c : OutboxCrew W}
    (hleft : (c.cycles w).left = messages)
    (h : OutboxWorker.drainLoop checks C pub v clock messages r = some (r', processed, v')) :
    ∃ c' answered, Run checks C crew c c' ∧ c'.store = c.store
      ∧ c'.cycles = Function.update c.cycles w ⟨[], (c.cycles w).done ++ answered⟩
      ∧ processed = answered.map Prod.fst := by
  induction messages generalizing v clock processed r c with
  | nil =>
    obtain ⟨-, hrest⟩ := Prod.mk.inj (Option.some.inj h)
    refine ⟨c, [], .refl, rfl, ?_, (Prod.mk.inj hrest).1.symm⟩
    rw [List.append_nil, ← hleft]
    exact (Function.update_eq_self w c.cycles).symm
  | cons m messages ih =>
    obtain ⟨p, rfl⟩ := hv
    rw [OutboxWorker.drainLoop] at h
    obtain ⟨⟨r₁, m', v₁⟩, hpublish, hrest⟩ := Option.bind_eq_some_iff.mp h
    obtain ⟨⟨r₂, processed', v₂⟩, hloop, hout⟩ := Option.map_eq_some_iff.mp hrest
    obtain ⟨hr, hout⟩ := Prod.mk.inj hout
    obtain ⟨hprocessed, hv'⟩ := Prod.mk.inj hout
    dsimp only at hr hprocessed hv'
    subst hr hprocessed hv'
    obtain ⟨p', rfl⟩ := OutboxWorker.publishMessage_worker hpublish
    obtain ⟨answer, hanswer⟩ := OutboxWorker.publishMessage_eq checks C pub
      { crew w with publisher := p } (clock 0).1 (clock 0).2 m
    rw [hpublish] at hanswer
    obtain ⟨c₁, hstep, hstore₁, hcycles₁⟩ : ∃ c₁, Step checks C crew c c₁ ∧ c₁.store = c.store
        ∧ c₁.cycles = Function.update c.cycles w
          ⟨messages, (c.cycles w).done ++ [(m', if r₁.didWork then some answer else none)]⟩ :=
      ⟨_, .process hleft hanswer.symm, rfl, rfl⟩
    have hcycle := (congrFun hcycles₁ w).trans (Function.update_self ..)
    have hloop' : OutboxWorker.drainLoop checks C pub { crew w with publisher := p' }
        (fun n => clock (n + 1)) messages (r.add r₁) = some (r₂, processed', v₂) := hloop
    obtain ⟨c', answered, hrun, hstore, hcycles, hprocessed⟩ :=
      ih ⟨p', rfl⟩ (congrArg OutboxCycle.left hcycle) hloop'
    refine ⟨c', (m', if r₁.didWork then some answer else none) :: answered,
      Relation.ReflTransGen.head hstep hrun, hstore.trans hstore₁, ?_, ?_⟩
    · rw [hcycles, hcycle, hcycles₁, Function.update_idem, List.append_assoc]
      rfl
    · rw [hprocessed]
      rfl

/-- **`process_batch` is a run** of the worker through what it has claimed: the store stays
as it is, and its messages, processed, are those that it can commit. -/
theorem run_processBatch [DecidableEq W] {crew : W → OutboxWorker P} (pub : OutboxPublisher P) {w : W}
    {w' : OutboxWorker P} {clock : ℕ → Readings × SystemTime} {messages processed : List (Agg OutboxMessage)}
    {r : DrainResult} {c : OutboxCrew W}
    (hclaimed : c.cycles w = ⟨messages.take (crew w).batchSize,
      (messages.drop (crew w).batchSize).map (fun a => (a, none))⟩)
    (h : OutboxWorker.processBatch checks C pub (crew w) clock messages = some (r, processed, w')) :
    ∃ c' done, Run checks C crew c c' ∧ c'.store = c.store
      ∧ c'.cycles = Function.update c.cycles w ⟨[], done⟩ ∧ (done.map Prod.fst).Perm processed := by
  obtain ⟨⟨r₁, processed₁, w₁⟩, hloop, hout⟩ := Option.map_eq_some_iff.mp h
  obtain ⟨-, hout⟩ := Prod.mk.inj hout
  obtain ⟨rfl, -⟩ := Prod.mk.inj hout
  obtain ⟨c', answered, hrun, hstore, hcycles, hprocessed⟩ := run_drainLoop pub ⟨(crew w).publisher, rfl⟩
    (congrArg OutboxCycle.left hclaimed) hloop
  refine ⟨c', _, hrun, hstore, hcycles, ?_⟩
  rw [hclaimed, hprocessed, List.map_append, List.map_map]
  show (List.map id _ ++ _).Perm _
  rw [List.map_id]
  exact List.perm_append_comm

end OutboxCrew
