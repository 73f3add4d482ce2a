import Sourced.OutboxContent

/-!
# A message and the one rebuilt from its events

The event methods of a message are called in any order, at any clock readings, on a
new message, and what they recorded is hydrated at another reading. The rebuilt
message has every field of the live one but perhaps `created_at`, and its id
(`OutboxMessage.rebuilt_iff`). For `created_at` is not carried by the event:
`initialize` reads the clock in its body, which a replay runs again. `claim`, by
contrast, is given the end of its lease as an argument.

The live calls and the replay go side by side (`OutboxMessage.Beside`). Both have the same
content at every step; the one dates the message by the calls, the other by the
reading of the replay.
-/

open OutboxMessage (Codecs)

variable {checks : OverflowChecks} {C : Codecs}

namespace OutboxMessage

variable {now : SystemTime} {a a' b b' : Agg OutboxMessage}

/-! ## What dates and names a message -/

theorem initialize_call {x : (initializeMessage C).Args}
    (h : (initializeMessage C).call now x a = some a') :
    a'.fields.createdAt = now ∧ a'.entity.id = normalizeId x.1 := by
  rw [← Option.some.inj h]
  exact ⟨rfl, rfl⟩

/-- A later method does neither. -/
theorem call_later_keeps {k : EventMethod OutboxMessage} (hk : k ∈ later checks C) {x : k.Args}
    (h : k.call now x a = some a') :
    a'.fields.createdAt = a.fields.createdAt ∧ a'.entity.id = a.entity.id := by
  rw [call_later hk x now (m := a.fields) (t := a.fields.createdAt) (d := a.fields.metadata) rfl] at h
  by_cases hguard : k.guard a.fields Entity.new x = true
  · rw [if_pos hguard] at h
    obtain ⟨r, -, rfl⟩ := Option.map_eq_some_iff.mp h
    exact ⟨rfl, Entity.id_digestAt _ _ _ _ _ _⟩
  · rw [if_neg hguard] at h
    rw [← Option.some.inj h]
    exact ⟨rfl, rfl⟩

theorem name_ne_of_later {k : EventMethod OutboxMessage} (hk : k ∈ later checks C) :
    k.name ≠ "MessageCreated" := by
  simp only [later, List.mem_cons, List.not_mem_nil, or_false] at hk
  rcases hk with rfl | rfl | rfl | rfl
  · exact show "MessageClaimed" ≠ "MessageCreated" by decide
  · exact show "MessagePublished" ≠ "MessageCreated" by decide
  · exact show "MessageReleased" ≠ "MessageCreated" by decide
  · exact show "MessageFailed" ≠ "MessageCreated" by decide

/-- **The clock reading of the last call of `initialize`**, if there is one. -/
def lastCreated : List (Command OutboxMessage) → Option SystemTime
  | [] => none
  | c :: cs => (lastCreated cs).or (if c.method.name = "MessageCreated" then some c.now else none)

/-! ## The calls and their replay -/

/-- **A live message and its replay, both gone on from `a` and `b`** by the calls: they have
the same content, and the last creation has dated the one by its own reading and the other
by that of the replay, and given both the same id. -/
structure Beside (now : SystemTime) (cs : List (Command OutboxMessage)) (a a' b b' : Agg OutboxMessage) :
    Prop where
  content : b'.fields.undated = a'.fields.undated
  createdAt : a'.fields.createdAt = (lastCreated cs).getD a.fields.createdAt
  replayedAt : b'.fields.createdAt = if (lastCreated cs).isSome then now else b.fields.createdAt
  id_of_none : lastCreated cs = none → a'.entity.id = a.entity.id ∧ b'.entity.id = b.entity.id
  id_of_some : (lastCreated cs).isSome → b'.entity.id = a'.entity.id

namespace Beside

variable {cs : List (Command OutboxMessage)} {c : Command OutboxMessage} {a₁ b₁ : Agg OutboxMessage}

theorem nil (hab : b.fields.undated = a.fields.undated) : Beside now [] a a b b :=
  ⟨hab, rfl, rfl, fun _ => ⟨rfl, rfl⟩, fun h => (nomatch h)⟩

/-- A later method was called first. -/
theorem later (h : Beside now cs a₁ a' b₁ b') (hc : c.method.name ≠ "MessageCreated")
    (ha : a₁.fields.createdAt = a.fields.createdAt ∧ a₁.entity.id = a.entity.id)
    (hb : b₁.fields.createdAt = b.fields.createdAt ∧ b₁.entity.id = b.entity.id) :
    Beside now (c :: cs) a a' b b' := by
  have hlast : lastCreated (c :: cs) = lastCreated cs := by
    rw [lastCreated, if_neg hc, Option.or_none]
  refine ⟨h.content, ?_, ?_, fun hnone => ?_, fun hsome => h.id_of_some (hlast ▸ hsome)⟩
  · rw [hlast, ← ha.1]
    exact h.createdAt
  · rw [hlast, ← hb.1]
    exact h.replayedAt
  · obtain ⟨hid, hid'⟩ := h.id_of_none (hlast ▸ hnone)
    exact ⟨hid.trans ha.2, hid'.trans hb.2⟩

/-- **A creation was called first**: it counts if none comes after it. -/
theorem created (h : Beside now cs a₁ a' b₁ b') (hc : c.method.name = "MessageCreated")
    (ha : a₁.fields.createdAt = c.now) (hb : b₁.fields.createdAt = now)
    (hid : b₁.entity.id = a₁.entity.id) : Beside now (c :: cs) a a' b b' := by
  have hlast : lastCreated (c :: cs) = (lastCreated cs).or (some c.now) := by
    rw [lastCreated, if_pos hc]
  cases hcs : lastCreated cs with
  | none =>
    rw [hcs] at hlast
    obtain ⟨hid₁, hid₂⟩ := h.id_of_none hcs
    refine ⟨h.content, ?_, ?_, fun hnone => ?_, fun _ => hid₂.trans (hid.trans hid₁.symm)⟩
    · rw [hlast, h.createdAt, hcs, ha]
      rfl
    · rw [hlast, h.replayedAt, hcs, hb]
      rfl
    · rw [hlast] at hnone
      cases hnone
  | some t =>
    rw [hcs] at hlast
    refine ⟨h.content, ?_, ?_, fun hnone => ?_, fun _ => h.id_of_some (hcs ▸ rfl)⟩
    · rw [hlast, h.createdAt, hcs]
      rfl
    · rw [hlast, h.replayedAt, hcs]
      rfl
    · rw [hlast] at hnone
      cases hnone

end Beside

/-- **The simulation**: what the calls recorded, replayed from the same content, leads to the
same content. -/
theorem exists_beside (hC : C.Lawful) {cs : List (Command OutboxMessage)}
    (hcs : ∀ c ∈ cs, c.method ∈ (definition checks C).methods) (ha : a.entity.replaying = false)
    (hrun : Command.runAll cs a = some a') (hb : b.entity.replaying = true)
    (hab : b.fields.undated = a.fields.undated) (now : SystemTime) : ∃ records b',
      a'.entity.events = a.entity.events ++ records
        ∧ (definition checks C).aggregate.replayAll now records b = .ok b'
        ∧ Beside now cs a a' b b' := by
  induction cs generalizing a b with
  | nil =>
    obtain rfl := Option.some.inj hrun
    exact ⟨[], b, (List.append_nil _).symm, rfl, .nil hab⟩
  | cons c cs ih =>
    have hcs' := fun c' hc' => hcs c' (List.mem_cons_of_mem c hc')
    have hmem := hcs c List.mem_cons_self
    rw [Command.runAll_cons] at hrun
    obtain ⟨a₁, hcall, hrun⟩ := Option.bind_eq_some_iff.mp hrun
    cases hguard : c.guard a with
    | false =>
      -- nothing was recorded, by a method that is not `initialize`
      rw [Command.run_of_guard_false hguard] at hcall
      obtain rfl := Option.some.inj hcall
      obtain ⟨records, b', hevents, hreplay, hbeside⟩ := ih hcs' ha hrun hb hab
      refine ⟨records, b', hevents, hreplay, hbeside.later ?_ ⟨rfl, rfl⟩ ⟨rfl, rfl⟩⟩
      obtain ⟨k, t, x⟩ := c
      cases List.mem_cons.mp hmem with
      | inr hk => exact name_ne_of_later hk
      | inl hk =>
        subst hk
        cases hguard
    | true =>
      -- the event of the call is replayed beside it
      have hreplay₁ := Command.replayEvent_record (definition_wellFormed checks C hC) (c := c) hmem
        (e := c.record a.entity) rfl rfl now b
      have hsame : (c.method.call now c.args b).map (fun b => b.fields.undated)
          = (c.method.call c.now c.args a).map (fun a => a.fields.undated) :=
        map_call_undated hmem c.args hab
      rw [show c.method.call c.now c.args a = some a₁ from hcall] at hsame
      obtain ⟨b₁, hb₁, hab₁⟩ := Option.map_eq_some_iff.mp hsame
      rw [hb₁] at hreplay₁
      obtain ⟨id, hid⟩ := Definition.entity_replayEvent hb hreplay₁
      have hrecorded : ∃ id', a₁.entity = { a.entity with
          id := id'
          events := a.entity.events ++ [c.record a.entity]
          version := a.entity.events.length + 1 } := by
        rw [Command.run_of_guard hguard] at hcall
        obtain ⟨r, -, rfl⟩ := Option.map_eq_some_iff.mp hcall
        obtain ⟨id', hid'⟩ := Definition.exists_setId (c.method.digest c.now a.entity c.args) r
        exact ⟨id', hid'.trans (congrArg (fun e => e.setId id') (Definition.events_digest ha))⟩
      obtain ⟨id', hrecorded⟩ := hrecorded
      obtain ⟨records, b', hevents, hreplay, hbeside⟩ := ih hcs'
        (show a₁.entity.replaying = false by rw [hrecorded]; exact ha) hrun
        (show b₁.entity.replaying = true by rw [hid]; exact hb) hab₁
      refine ⟨c.record a.entity :: records, b', ?_, ?_, ?_⟩
      · rw [hevents, hrecorded]
        exact List.append_assoc _ _ _
      · rw [Aggregate.replayAll_cons, hreplay₁]
        exact hreplay
      · obtain ⟨k, t, x⟩ := c
        cases List.mem_cons.mp hmem with
        | inr hk =>
          exact hbeside.later (name_ne_of_later hk) (call_later_keeps hk hcall) (call_later_keeps hk hb₁)
        | inl hk =>
          subst hk
          obtain ⟨hdate, hname⟩ := initialize_call hcall
          obtain ⟨hdate', hname'⟩ := initialize_call hb₁
          exact hbeside.created rfl hdate hdate' (hname'.trans hname.symm)

/-! ## The rebuilt message -/

/-- **A message rebuilt from its events** is the live one, exactly where it was not created by
a call of `initialize`, or the clock of the rebuilding reads what it read at the last one.
`created_at` is in no event: the body of `initialize` reads the clock for it, and does so
again whenever it is replayed. -/
theorem rebuilt_iff (hC : C.Lawful) {cs : List (Command OutboxMessage)}
    (hcs : ∀ c ∈ cs, c.method ∈ (definition checks C).methods)
    (hrun : Command.runAll cs (definition checks C).aggregate.newEmpty = some a) (now : SystemTime) :
    ∃ b, EventStore.hydrateMessage checks C now a.entity.id a.entity.events = .ok b
      ∧ (b.fields = a.fields ∧ b.entity.id = a.entity.id ↔ ∀ t, lastCreated cs = some t → now = t) := by
  have hloaded : (⟨default, (EventStore.loadEntity a.entity.id a.entity.events).setReplaying true⟩ :
      Agg OutboxMessage).fields.undated = (definition checks C).aggregate.newEmpty.fields.undated := rfl
  obtain ⟨records, b, hevents, hreplay, hbeside⟩ := exists_beside hC hcs rfl hrun rfl hloaded now
  have hevents' : records = a.entity.events := hevents.symm
  rw [hevents'] at hreplay
  refine ⟨⟨b.fields, b.entity.setReplaying false⟩, (Aggregate.hydrate_eq_ok _ _).mpr
    ⟨a.entity.events, b, rfl, hreplay, rfl⟩, ?_⟩
  have hid : b.entity.id = a.entity.id := by
    cases hlast : lastCreated cs with
    | none => exact (hbeside.id_of_none hlast).2
    | some t => exact hbeside.id_of_some (hlast ▸ rfl)
  -- the fields are the same if the dates are
  have hfields : b.fields = a.fields ↔ b.fields.createdAt = a.fields.createdAt := by
    refine ⟨fun h => congrArg createdAt h, fun h => ?_⟩
    rw [eq_inHand_of_undated hbeside.content.symm, h]
    rfl
  refine (and_iff_left hid).trans (hfields.trans ?_)
  rw [hbeside.createdAt, hbeside.replayedAt]
  cases lastCreated cs with
  | none => exact iff_of_true rfl (fun t h => (nomatch h))
  | some t => exact ⟨fun h t' ht' => h.trans (Option.some.inj ht'), fun h => h t rfl⟩

/-- The creation of a message, at the epoch. -/
noncomputable def creation : Command OutboxMessage :=
  ⟨initializeMessage Codecs.counting, SystemTime.unixEpoch, ("m", "Created", [], none, ∅)⟩

/-- A message created and failed, rebuilt at once. -/
theorem rebuilt_failed : ∃ a b,
    Command.runAll [creation, ⟨fail Codecs.counting, SystemTime.unixEpoch, "rejected"⟩]
        (definition true Codecs.counting).aggregate.newEmpty = some a
      ∧ EventStore.hydrateMessage true Codecs.counting SystemTime.unixEpoch a.entity.id a.entity.events
        = .ok b
      ∧ b.fields = a.fields ∧ b.entity.id = a.entity.id := by
  have hcs : ∀ c ∈ [creation, ⟨fail Codecs.counting, SystemTime.unixEpoch, "rejected"⟩],
      c.method ∈ (definition true Codecs.counting).methods := by
    intro c hc
    simp only [List.mem_cons, List.not_mem_nil, or_false] at hc
    rcases hc with rfl | rfl
    · exact List.mem_cons_self
    · exact List.mem_cons_of_mem _ (by simp [later])
  obtain ⟨b, hb, hiff⟩ := rebuilt_iff Codecs.counting_lawful hcs rfl SystemTime.unixEpoch
  exact ⟨_, b, rfl, hb, hiff.mpr (fun t ht => Option.some.inj ht)⟩

/-- **A message rebuilt a second later** is another second old. -/
theorem rebuilt_later : ∃ (now : SystemTime) (a b : Agg OutboxMessage),
    Command.runAll [creation] (definition true Codecs.counting).aggregate.newEmpty = some a
      ∧ EventStore.hydrateMessage true Codecs.counting now a.entity.id a.entity.events = .ok b
      ∧ a.fields.createdAt = SystemTime.unixEpoch ∧ b.fields.createdAt ≠ a.fields.createdAt := by
  obtain ⟨a, ha, -, -, -, htells⟩ := Tells.construct true Codecs.counting SystemTime.unixEpoch "m"
    "Created" [] none ∅
  have hdate : a.fields.createdAt = SystemTime.unixEpoch := (initialize_call ha).1
  refine ⟨⟨1, 0, by decide, by decide⟩, a, _, Option.bind_eq_some_iff.mpr ⟨a, ha, rfl⟩,
    htells.story.hydrate Codecs.counting_lawful _, hdate, fun heq => ?_⟩
  have hsecs := congrArg SystemTime.secs (heq.trans hdate)
  exact absurd hsecs (show ¬ (1 : ℤ) = 0 by decide)

end OutboxMessage
