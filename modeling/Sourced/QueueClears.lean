import Mathlib.Logic.Relation
import Sourced.InMemoryQueue

/-!
# Clearing the log

`InMemoryQueue::clear` empties the log, which all handles of the queue share,
and then sets one position to zero, that of the handle it is called through
(`bus/in_memory_queue.rs`). The other subscribers keep theirs. A position that was
past the beginning is then past the end: the log grows again under it, and what
is published until it has is never read.

Where every other position is zero when a clear begins this does not happen
(`within_log`). Between the two steps of a clear the handle's own position
can be past the end; it is left out until the clear is over.

A handle is known by its position, which its clones share. What a handle was
given is recorded since the log was last emptied or the position reset.
-/

open InMemoryQueue (Accesses)

/-- **A handle**: its position, and what the accesses at it have given. -/
structure Handle where
  position : ℕ
  delivered : List Event

/-- A handle as `new_subscriber` makes it and `reset_position` leaves it. -/
def Handle.start : Handle := ⟨0, []⟩

/-- A call that has not returned: a `poll` or `recv` at a handle, with what is
left of its loop, or a `clear` through a handle, which has emptied the log. -/
inductive PendingCall where
  | reading (handle : ℕ) (rest : Accesses (Option Event))
  | clearing (handle : ℕ)

/-- **A queue, its handles, and the calls of its clients.** -/
structure ClearedQueue (C : Type) where
  queue : InMemoryQueue
  handles : List Handle
  calls : C → Option PendingCall

namespace ClearedQueue

variable {C : Type}

/-- A clear through the handle is in progress. -/
def Clearing (x : ClearedQueue C) (i : ℕ) : Prop := ∃ c, x.calls c = some (.clearing i)

/-- The log emptied, for every handle. -/
def emptied (x : ClearedQueue C) : ClearedQueue C :=
  { x with
    queue := { x.queue with log := [] }
    handles := x.handles.map (fun h => { h with delivered := [] }) }

/-- One position set to zero. -/
def reset (x : ClearedQueue C) (i : ℕ) : ClearedQueue C :=
  { x with handles := x.handles.set i Handle.start }

/-- **`clear`**, with nothing in between. -/
def clear (x : ClearedQueue C) (i : ℕ) : ClearedQueue C := x.emptied.reset i

/-- **Every other position is zero**, those apart that are about to be. -/
def OthersAtStart (x : ClearedQueue C) (i : ℕ) : Prop :=
  ∀ j h, x.handles[j]? = some h → j ≠ i → ¬ x.Clearing j → h.position = 0

variable [DecidableEq C]

/-- A client's call, or none. -/
def withCall (x : ClearedQueue C) (c : C) (call : Option PendingCall) : ClearedQueue C :=
  { x with calls := Function.update x.calls c call }

/-- **One step of one client**, where a clear begins if `allowed`. -/
inductive Step (allowed : ClearedQueue C → ℕ → Prop) : ClearedQueue C → ClearedQueue C → Prop
  | publish {x : ClearedQueue C} (c : C) (e : Event) (hidle : x.calls c = none) :
      Step allowed x { x with queue := x.queue.publish e }
  | publishBatch {x : ClearedQueue C} (c : C) (es : List Event) (hidle : x.calls c = none) :
      Step allowed x { x with queue := x.queue.publishBatch es }
  /-- `new_subscriber`, and `subscribe`, which wraps a new subscriber. -/
  | newSubscriber {x : ClearedQueue C} (c : C) (hidle : x.calls c = none) :
      Step allowed x { x with handles := x.handles ++ [Handle.start] }
  | poll {x : ClearedQueue C} (c : C) (i turns : ℕ) (hidle : x.calls c = none)
      (hi : i < x.handles.length) :
      Step allowed x (x.withCall c (some (.reading i (InMemoryQueue.poll turns))))
  | recv {x : ClearedQueue C} (c : C) (i : ℕ) (types : List String) (budget : List ℕ)
      (hidle : x.calls c = none) (hi : i < x.handles.length) :
      Step allowed x (x.withCall c (some (.reading i (InMemoryQueue.recv types budget))))
  /-- An access of a call in progress. -/
  | access {x : ClearedQueue C} (c : C) (i pos : ℕ) (h : Handle) (o : Option Event)
      (k : Option Event → Accesses (Option Event))
      (hcall : x.calls c = some (.reading i (.act () k))) (hhandle : x.handles[i]? = some h)
      (hpoll : x.queue.pollOnce h.position = (o, pos)) :
      Step allowed x ({ x with handles := x.handles.set i ⟨pos, h.delivered ++ o.toList⟩ }.withCall c
        (some (.reading i (k o))))
  | ret {x : ClearedQueue C} (c : C) (i : ℕ) (o : Option Event)
      (hcall : x.calls c = some (.reading i (.ret o))) : Step allowed x (x.withCall c none)
  | resetPosition {x : ClearedQueue C} (c : C) (i : ℕ) (hidle : x.calls c = none)
      (hi : i < x.handles.length) :
      Step allowed x (x.reset i)
  /-- The first step of a `clear`: the log is emptied. -/
  | clearLog {x : ClearedQueue C} (c : C) (i : ℕ) (hidle : x.calls c = none)
      (hi : i < x.handles.length) (hallowed : allowed x i) :
      Step allowed x (x.emptied.withCall c (some (.clearing i)))
  /-- The second: the handle's position is set to zero. -/
  | clearPosition {x : ClearedQueue C} (c : C) (i : ℕ) (hcall : x.calls c = some (.clearing i)) :
      Step allowed x ((x.reset i).withCall c none)

/-- A run. -/
abbrev Run (allowed : ClearedQueue C → ℕ → Prop) : ClearedQueue C → ClearedQueue C → Prop :=
  Relation.ReflTransGen (Step allowed)

omit [DecidableEq C] in
/-- A new queue, which is a handle itself. -/
def initial (C : Type) : ClearedQueue C := ⟨InMemoryQueue.new, [Handle.start], fun _ => none⟩

end ClearedQueue

/-! ## Polling on -/

/-- What a number of accesses give from a position on. -/
def InMemoryQueue.polled (q : InMemoryQueue) : ℕ → ℕ → List Event
  | 0, _ => []
  | n + 1, pos => (q.pollOnce pos).1.toList ++ q.polled n (q.pollOnce pos).2

theorem InMemoryQueue.polled_eq (q : InMemoryQueue) (n pos : ℕ) :
    q.polled n pos = (q.log.drop pos).take n := by
  induction n generalizing pos with
  | zero => rfl
  | succ n ih =>
    rcases hnext : q.pollOnce pos with ⟨_ | e, pos'⟩
    · have hpos : pos' = pos := Cursor.pos_of_next_none hnext
      rw [polled, hnext, ih, hpos, Cursor.drop_of_next_none hnext]
      simp
    · have hdrop : q.log.drop pos = e :: q.log.drop pos' := Cursor.drop_next hnext
      rw [polled, hnext, ih, hdrop]
      rfl

/-- **A handle within the log**: it has been given what is before its position. -/
structure Handle.Within (log : List Event) (h : Handle) : Prop where
  position_le : h.position ≤ log.length
  delivered_eq : h.delivered = log.take h.position

namespace Handle.Within

variable {log : List Event} {h : Handle}

theorem start (log : List Event) : Handle.start.Within log := ⟨Nat.zero_le _, rfl⟩

theorem grow (hw : h.Within log) (es : List Event) : h.Within (log ++ es) := by
  refine ⟨?_, ?_⟩
  · rw [List.length_append]
    exact Nat.le_add_right_of_le hw.position_le
  · rw [List.take_append_of_le_length hw.position_le]
    exact hw.delivered_eq

theorem next (hw : h.Within log) {o : Option Event} {pos : ℕ}
    (hnext : Cursor.next log h.position = (o, pos)) :
    Within log ⟨pos, h.delivered ++ o.toList⟩ := by
  refine ⟨Cursor.next_le hw.position_le hnext, ?_⟩
  show h.delivered ++ o.toList = log.take pos
  rw [Cursor.take_next hnext, hw.delivered_eq]

/-- **Whoever keeps polling is given everything**: the events given and those to
come are all there are. -/
theorem delivered_append_polled {q : InMemoryQueue} (hw : h.Within q.log) {n : ℕ}
    (hn : q.log.length ≤ h.position + n) : h.delivered ++ q.polled n h.position = q.log := by
  rw [q.polled_eq, List.take_of_length_le (by rw [List.length_drop]; omega), hw.delivered_eq]
  exact List.take_append_drop _ _

end Handle.Within

/-! ## Every run -/

namespace ClearedQueue

variable {C : Type} {x y : ClearedQueue C}

/-- Every handle that no clear is about to reset is within the log. -/
def Inv (x : ClearedQueue C) : Prop :=
  ∀ i h, x.handles[i]? = some h → ¬ x.Clearing i → h.Within x.queue.log

theorem inv_initial (C : Type) : Inv (initial C) := by
  intro i h hhandle _
  obtain rfl : Handle.start = h := by
    rw [initial, List.getElem?_singleton] at hhandle
    split at hhandle
    · exact Option.some.inj hhandle
    · cases hhandle
  exact .start _

variable [DecidableEq C]

theorem clearing_withCall {c : C} {call : Option PendingCall} {i : ℕ}
    (hbefore : ∀ j, x.calls c ≠ some (.clearing j)) (h : x.Clearing i) :
    (x.withCall c call).Clearing i := by
  obtain ⟨d, hd⟩ := h
  refine ⟨d, ?_⟩
  have hne : d ≠ c := fun heq => hbefore i (heq ▸ hd)
  exact (Function.update_of_ne hne _ _).trans hd

omit [DecidableEq C] in
/-- One handle replaced. -/
theorem Inv.set (hx : Inv x) {i : ℕ} {h' : Handle} (hh' : ¬ x.Clearing i → h'.Within x.queue.log) :
    Inv { x with handles := x.handles.set i h' } := by
  intro j h hhandle hnot
  dsimp only at hhandle
  rw [List.getElem?_set] at hhandle
  split at hhandle
  · next hij =>
    subst hij
    split at hhandle
    · obtain rfl := Option.some.inj hhandle
      exact hh' hnot
    · cases hhandle
  · exact hx j h hhandle hnot

theorem Inv.withCall (hx : Inv x) {c : C} (call : Option PendingCall)
    (hbefore : ∀ j, x.calls c ≠ some (.clearing j)) : Inv (x.withCall c call) :=
  fun i h hhandle hnot => hx i h hhandle (fun hi => hnot (clearing_withCall hbefore hi))

theorem Inv.grow {C : Type} {x : ClearedQueue C} (hx : Inv x) (es : List Event) :
    Inv { x with queue := x.queue.publishBatch es } :=
  fun i h hhandle hnot => (hx i h hhandle hnot).grow es

/-- The end of a clear. -/
theorem Inv.clearPosition (hx : Inv x) {c : C} {i : ℕ} (hcall : x.calls c = some (.clearing i)) :
    Inv ((x.reset i).withCall c none) := by
  intro j h hhandle hnot
  have hhandle : (x.handles.set i Handle.start)[j]? = some h := hhandle
  rw [List.getElem?_set] at hhandle
  split at hhandle
  · split at hhandle
    · obtain rfl := Option.some.inj hhandle
      exact .start _
    · cases hhandle
  · next hij =>
    refine hx j h hhandle (fun hj => hnot ?_)
    -- another clear of another handle is still in progress
    obtain ⟨d, hd⟩ := hj
    refine ⟨d, (Function.update_of_ne (fun heq => ?_) _ _).trans hd⟩
    rw [heq, hcall] at hd
    exact hij (PendingCall.clearing.inj (Option.some.inj hd))

/-- **The log is emptied** where every other position is zero. -/
theorem Inv.clearLog {c : C} {i : ℕ} (hidle : x.calls c = none) (hothers : x.OthersAtStart i) :
    Inv (x.emptied.withCall c (some (.clearing i))) := by
  intro j h hhandle hnot
  have hhandle : (x.handles.map (fun h => { h with delivered := [] }))[j]? = some h := hhandle
  rw [List.getElem?_map] at hhandle
  obtain ⟨h, hmem, rfl⟩ := Option.map_eq_some_iff.mp hhandle
  have hij : j ≠ i := by
    rintro rfl
    exact hnot ⟨c, Function.update_self _ _ _⟩
  have hzero := hothers j h hmem hij (fun hj => hnot (clearing_withCall (x := x.emptied)
    (fun k hk => by rw [show x.emptied.calls c = none from hidle] at hk; cases hk) hj))
  refine ⟨?_, ?_⟩
  · show h.position ≤ 0
    rw [hzero]
  · show [] = List.take h.position []
    rw [List.take_nil]

/-- Every step keeps the handles within the log. -/
theorem Inv.step (hx : Inv x) (hstep : Step OthersAtStart x y) : Inv y := by
  cases hstep with
  | publish c e _ => exact hx.grow [e]
  | publishBatch c es _ => exact hx.grow es
  | newSubscriber c _ =>
    intro i h hhandle hnot
    dsimp only at hhandle
    rw [List.getElem?_append] at hhandle
    split at hhandle
    · exact hx i h hhandle hnot
    · rw [List.getElem?_singleton] at hhandle
      split at hhandle
      · obtain rfl := Option.some.inj hhandle
        exact .start _
      · cases hhandle
  | poll c i turns hidle _ => exact hx.withCall _ (by rw [hidle]; exact fun j hj => by cases hj)
  | recv c i types budget hidle _ => exact hx.withCall _ (by rw [hidle]; exact fun j hj => by cases hj)
  | access c i pos h o k hcall hhandle hpoll =>
    refine Inv.withCall (Inv.set hx (fun hnot => (hx i h hhandle hnot).next hpoll)) _ ?_
    show ∀ j, x.calls c ≠ _
    rw [hcall]
    exact fun j hj => by cases hj
  | ret c i o hcall => exact hx.withCall _ (by rw [hcall]; exact fun j hj => by cases hj)
  | resetPosition c i _ _ => exact Inv.set hx (fun _ => .start _)
  | clearLog c i hidle _ hothers => exact Inv.clearLog hidle hothers
  | clearPosition c i hcall => exact hx.clearPosition hcall

/-- **And so does every run.** -/
theorem Inv.run (hx : Inv x) (hrun : Run OthersAtStart x y) : Inv y := by
  induction hrun with
  | refl => exact hx
  | tail _ hstep ih => exact ih.step hstep

omit [DecidableEq C] in
/-- **What a clear leaves**, with no other in progress: positions within the
log exactly where the others are at zero. -/
theorem within_after_clear_iff (hidle : ∀ c, x.calls c = none) (i : ℕ) :
    (∀ h ∈ (x.clear i).handles, h.position ≤ (x.clear i).queue.log.length)
      ↔ x.OthersAtStart i := by
  show (∀ h ∈ (x.handles.map (fun h => { h with delivered := [] })).set i Handle.start,
    h.position ≤ 0) ↔ _
  constructor
  · intro hwithin j h hhandle hij _
    refine Nat.le_zero.mp (hwithin { h with delivered := [] } (List.mem_iff_getElem?.mpr ⟨j, ?_⟩))
    rw [List.getElem?_set_ne (Ne.symm hij), List.getElem?_map, hhandle]
    rfl
  · intro hothers h hmem
    obtain ⟨j, hj⟩ := List.mem_iff_getElem?.mp hmem
    by_cases hij : j = i
    · subst hij
      rw [List.getElem?_set_self'] at hj
      obtain ⟨_, -, rfl⟩ := Option.map_eq_some_iff.mp hj
      exact le_rfl
    · rw [List.getElem?_set_ne (Ne.symm hij), List.getElem?_map] at hj
      obtain ⟨h, hhandle, rfl⟩ := Option.map_eq_some_iff.mp hj
      refine (hothers j h hhandle hij ?_).le
      rintro ⟨c, hc⟩
      rw [hidle c] at hc
      cases hc

/-- **No position runs past the log.** In every run in which every clear begins
with every other position at zero, every handle that is not being cleared is
within the log and, polled as often as there are events left, has been given
every event published since the log was emptied; and where no call is in
progress, a clear leaves every position within the log exactly where the others
are at zero. -/
theorem within_log (hrun : Run OthersAtStart (initial C) x) :
    (∀ i h, x.handles[i]? = some h → ¬ x.Clearing i →
        h.position ≤ x.queue.log.length
          ∧ ∀ n, x.queue.log.length ≤ h.position + n →
            h.delivered ++ x.queue.polled n h.position = x.queue.log)
      ∧ ((∀ c, x.calls c = none) → ∀ i,
        (∀ h ∈ (x.clear i).handles, h.position ≤ (x.clear i).queue.log.length)
          ↔ x.OthersAtStart i) := by
  have hinv := (inv_initial C).run hrun
  refine ⟨fun i h hhandle hnot => ?_, fun hidle i => within_after_clear_iff hidle i⟩
  have hw := hinv i h hhandle hnot
  exact ⟨hw.position_le, fun n hn => hw.delivered_append_polled hn⟩

/-- A queue is read to the end and cleared while its subscriber has read
nothing; the subscriber is then given what is published next. -/
theorem within_log_subscriber : ∃ x : ClearedQueue Unit, Run OthersAtStart (initial Unit) x
    ∧ (∃ h, x.handles[1]? = some h ∧ h.position ≤ x.queue.log.length
      ∧ h.delivered ++ x.queue.polled 1 h.position = [Event.new "evt-2" "OrderCreated" []]) := by
  have h₁ : Run OthersAtStart (initial Unit) _ := .single (.newSubscriber () rfl)
  have h₂ := h₁.tail (.publish () (Event.new "evt-1" "OrderCreated" []) rfl)
  have h₃ := h₂.tail (.poll () 0 0 rfl (by decide))
  have h₄ := h₃.tail (.access () 0 _ _ _ _ rfl rfl rfl)
  have h₅ := h₄.tail (.ret () 0 _ rfl)
  have h₆ := h₅.tail (.clearLog () 0 rfl (by decide) (fun j h hhandle hj _ => by
    rcases j with _ | _ | j
    · exact absurd rfl hj
    · obtain rfl := Option.some.inj hhandle
      rfl
    · cases hhandle))
  have h₇ := h₆.tail (.clearPosition () 0 rfl)
  have h₈ := h₇.tail (.publish () (Event.new "evt-2" "OrderCreated" []) rfl)
  obtain ⟨hle, hall⟩ := (within_log h₈).1 1 _ rfl (by rintro ⟨c, hc⟩; cases hc)
  exact ⟨_, h₈, _, rfl, hle, hall 1 (by decide)⟩

/-- **A clear through another handle.** A subscriber reads the one event there
is, and the log is cleared through the queue it was made from: its position is
past the log, and the next event published is not given to it however often it
polls. -/
theorem clear_skips : ∃ x : ClearedQueue Unit, Run (fun _ _ => True) (initial Unit) x
    ∧ (∀ c, x.calls c = none)
    ∧ ∃ h, x.handles[1]? = some h ∧ x.queue.log.length < h.position
      ∧ ∀ n, h.delivered ++ (x.queue.publish (Event.new "evt-2" "OrderCreated" [])).polled n h.position
        = [] := by
  have h₁ : Run (fun _ _ => True) (initial Unit) _ := .single (.newSubscriber () rfl)
  have h₂ := h₁.tail (.publish () (Event.new "evt-1" "OrderCreated" []) rfl)
  have h₃ := h₂.tail (.poll () 1 0 rfl (by decide))
  have h₄ := h₃.tail (.access () 1 _ _ _ _ rfl rfl rfl)
  have h₅ := h₄.tail (.ret () 1 _ rfl)
  have h₆ := h₅.tail (.clearLog () 0 rfl (by decide) trivial)
  have h₇ := h₆.tail (.clearPosition () 0 rfl)
  refine ⟨_, h₇, fun _ => rfl, _, rfl, by decide, fun n => ?_⟩
  rw [InMemoryQueue.polled_eq]
  exact List.take_nil

end ClearedQueue
