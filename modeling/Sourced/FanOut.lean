import Mathlib.Logic.Relation
import Sourced.InMemoryQueue

/-!
# Fan-out delivery

Any number of clients publish to one `InMemoryQueue`, make subscribers and
receivers of it, and read with them. Every subscriber has a position of its
own; a receiver is a subscriber with a set of types. A client in the middle of
a `poll` or `recv` is at a loop of accesses, and others move between two of
them; the deadline may pass at any.

What the calls returned is recorded for every reader, with what each call was
given on the way (`Reader.completed`), and so is what each publishing call
appended to the log. `FanOut.complete_in_order` puts them together: what a
reader's calls returned is, of the part of the log it has read, all that it
wants, in log order.
-/

open InMemoryQueue (Accesses Seeks)

/-- **A subscriber**, or a receiver with its types: its position, and the calls
on it that have returned, each with the events it was given and its result. -/
structure Reader where
  position : ℕ
  types : Option (List String)
  completed : List (List Event × Option Event)

namespace Reader

/-- A subscriber as `new_subscriber` makes it, and with types a receiver as
`subscribe` does. -/
def new (types : Option (List String)) : Reader := ⟨0, types, []⟩

/-- The events a reader wants: all of them, or those of its types. -/
def wants (r : Reader) (e : Event) : Bool :=
  match r.types with
  | none => true
  | some types => decide (e.eventType ∈ types)

/-- **The events its calls returned**, in order. -/
def returned (r : Reader) : List Event := r.completed.filterMap Prod.snd

end Reader

/-- A call that has not returned: its reader, the events it was given, and what
is left of its loop. -/
structure Reading where
  reader : ℕ
  given : List Event
  rest : Accesses (Option Event)

/-- **The queue and its clients**, with the lists the publishing calls
appended. -/
structure FanOut (C : Type) where
  queue : InMemoryQueue
  published : List (List Event)
  readers : List Reader
  calls : C → Option Reading

namespace FanOut

variable {C : Type} [DecidableEq C]

/-- A new queue, which is a subscriber itself. -/
def initial (C : Type) : FanOut C := ⟨InMemoryQueue.new, [], [Reader.new none], fun _ => none⟩

/-- A client's call at a loop: where nothing is left of the loop it returns. -/
def atLoop (x : FanOut C) (c : C) (i : ℕ) (r : Reader) (given : List Event) :
    Accesses (Option Event) → FanOut C
  | .ret o =>
    { x with
      readers := x.readers.set i { r with completed := r.completed ++ [(given, o)] }
      calls := Function.update x.calls c none }
  | .act a k =>
    { x with
      readers := x.readers.set i r
      calls := Function.update x.calls c (some ⟨i, given, .act a k⟩) }

/-- **One step of one client.** -/
inductive Step : FanOut C → FanOut C → Prop
  | publish {x : FanOut C} (c : C) (e : Event) (hidle : x.calls c = none) :
      Step x { x with queue := x.queue.publish e, published := x.published ++ [[e]] }
  | publishBatch {x : FanOut C} (c : C) (es : List Event) (hidle : x.calls c = none) :
      Step x { x with queue := x.queue.publishBatch es, published := x.published ++ [es] }
  | newSubscriber {x : FanOut C} (c : C) (hidle : x.calls c = none) :
      Step x { x with readers := x.readers ++ [Reader.new none] }
  | subscribe {x : FanOut C} (c : C) (types : List String) (hidle : x.calls c = none) :
      Step x { x with readers := x.readers ++ [Reader.new (some types)] }
  | poll {x : FanOut C} (c : C) (i turns : ℕ) (r : Reader) (hidle : x.calls c = none)
      (hreader : x.readers[i]? = some r) (htypes : r.types = none) :
      Step x (x.atLoop c i r [] (InMemoryQueue.poll turns))
  | recv {x : FanOut C} (c : C) (i : ℕ) (budget : List ℕ) (r : Reader) (types : List String)
      (hidle : x.calls c = none) (hreader : x.readers[i]? = some r) (htypes : r.types = some types) :
      Step x (x.atLoop c i r [] (InMemoryQueue.recv types budget))
  /-- An access of a call in progress. -/
  | access {x : FanOut C} (c : C) (i pos : ℕ) (r : Reader) (given : List Event) (o : Option Event)
      (k : Option Event → Accesses (Option Event))
      (hcall : x.calls c = some ⟨i, given, .act () k⟩) (hreader : x.readers[i]? = some r)
      (hpoll : x.queue.pollOnce r.position = (o, pos)) :
      Step x (x.atLoop c i { r with position := pos } (given ++ o.toList) (k o))

/-- A run. -/
abbrev Run : FanOut C → FanOut C → Prop := Relation.ReflTransGen Step

end FanOut

/-! ## A reader in order -/

/-- **What a completed call was given**: without a result nothing that was wanted,
and with one the result last and nothing wanted before it. -/
def Reader.Honest (r : Reader) (given : List Event) : Option Event → Prop
  | none => ∀ e ∈ given, r.wants e = false
  | some e => r.wants e = true ∧ ∃ skipped, given = skipped ++ [e] ∧ ∀ e' ∈ skipped, r.wants e' = false

/-- **A reader in order**: what its calls returned is what it wants of the log
before its position. -/
structure Reader.InOrder (log : List Event) (r : Reader) : Prop where
  position_le : r.position ≤ log.length
  returned_eq : r.returned = (log.take r.position).filter r.wants
  honest : ∀ call ∈ r.completed, r.Honest call.1 call.2

namespace Reader.InOrder

variable {log : List Event} {r : Reader}

theorem new (log : List Event) (types : Option (List String)) : (Reader.new types).InOrder log :=
  ⟨Nat.zero_le _, rfl, fun _ h => nomatch h⟩

theorem grow (h : r.InOrder log) (es : List Event) : r.InOrder (log ++ es) where
  position_le := by
    rw [List.length_append]
    exact Nat.le_add_right_of_le h.position_le
  returned_eq := by
    rw [List.take_append_of_le_length h.position_le]
    exact h.returned_eq
  honest := h.honest

/-- **An event given that is not wanted** moves the position. -/
theorem skip (h : r.InOrder log) {e : Event} {pos : ℕ}
    (hnext : Cursor.next log r.position = (some e, pos)) (he : r.wants e = false) :
    ({ r with position := pos } : Reader).InOrder log where
  position_le := Cursor.next_le h.position_le hnext
  returned_eq := by
    show r.returned = (log.take pos).filter r.wants
    rw [h.returned_eq, Cursor.take_next hnext, List.filter_append]
    simp [he]
  honest := h.honest

/-- **A call that returns without an event.** -/
theorem complete_none (h : r.InOrder log) {given : List Event}
    (hgiven : ∀ e ∈ given, r.wants e = false) :
    ({ r with completed := r.completed ++ [(given, none)] } : Reader).InOrder log where
  position_le := h.position_le
  returned_eq := by
    show (r.completed ++ [(given, none)]).filterMap Prod.snd = (log.take r.position).filter r.wants
    rw [List.filterMap_append, ← h.returned_eq]
    exact List.append_nil _
  honest := by
    intro call hcall
    rcases List.mem_append.mp hcall with hcall | hcall
    · exact h.honest call hcall
    · obtain rfl := List.mem_singleton.mp hcall
      exact hgiven

/-- **A call that returns the event it was given**, which was wanted. -/
theorem complete_some (h : r.InOrder log) {given : List Event} {e : Event} {pos : ℕ}
    (hgiven : ∀ e ∈ given, r.wants e = false)
    (hnext : Cursor.next log r.position = (some e, pos)) (he : r.wants e = true) :
    ({ r with position := pos, completed := r.completed ++ [(given ++ [e], some e)] } : Reader).InOrder
      log where
  position_le := Cursor.next_le h.position_le hnext
  returned_eq := by
    show (r.completed ++ [(given ++ [e], some e)]).filterMap Prod.snd = (log.take pos).filter r.wants
    rw [List.filterMap_append, Cursor.take_next hnext, List.filter_append, ← h.returned_eq]
    simp [he, Reader.returned]
  honest := by
    intro call hcall
    rcases List.mem_append.mp hcall with hcall | hcall
    · exact h.honest call hcall
    · obtain rfl := List.mem_singleton.mp hcall
      exact ⟨he, given, rfl, hgiven⟩

end Reader.InOrder

/-! ## The invariant -/

namespace FanOut

variable {C : Type} {x y : FanOut C}

/-- A call in progress looks for what its reader wants, and was given nothing of
it. -/
def Pending (readers : List Reader) (reading : Reading) : Prop :=
  ∃ r, readers[reading.reader]? = some r ∧ Seeks r.wants reading.rest
    ∧ ∀ e ∈ reading.given, r.wants e = false

/-- **The invariant of the queue and its clients.** -/
structure Inv (x : FanOut C) : Prop where
  log : x.queue.log = x.published.flatten
  readers : ∀ r ∈ x.readers, r.InOrder x.queue.log
  calls : ∀ c reading, x.calls c = some reading → Pending x.readers reading

theorem Inv.initial : Inv (initial C) where
  log := rfl
  readers r hr := by
    obtain rfl := List.mem_singleton.mp hr
    exact .new _ _
  calls _ _ h := nomatch h

theorem Pending.append {readers : List Reader} {reading : Reading} (h : Pending readers reading)
    (r : Reader) : Pending (readers ++ [r]) reading := by
  obtain ⟨r', hr', hseeks⟩ := h
  exact ⟨r', List.getElem?_append_left (List.getElem?_eq_some_iff.mp hr').1 ▸ hr', hseeks⟩

/-- A call in progress goes on where a reader was moved. -/
theorem Pending.set {readers : List Reader} {reading : Reading} (h : Pending readers reading)
    {i : ℕ} {r r' : Reader} (hr : readers[i]? = some r) (htypes : r'.types = r.types) :
    Pending (readers.set i r') reading := by
  obtain ⟨r₀, hr₀, hseeks, hgiven⟩ := h
  by_cases hi : reading.reader = i
  · subst hi
    obtain rfl : r = r₀ := Option.some.inj (hr.symm.trans hr₀)
    have hwants : r'.wants = r.wants := by
      unfold Reader.wants
      rw [htypes]
    refine ⟨r', ?_, hwants ▸ hseeks, hwants ▸ hgiven⟩
    exact List.getElem?_set_self (List.getElem?_eq_some_iff.mp hr).1
  · refine ⟨r₀, ?_, hseeks, hgiven⟩
    rw [List.getElem?_set_ne (fun h => hi h.symm)]
    exact hr₀

/-- The readers after a reader was added. -/
theorem Inv.addReader (h : Inv x) (types : Option (List String)) :
    Inv { x with readers := x.readers ++ [Reader.new types] } where
  log := h.log
  readers := by
    intro r hr
    rcases List.mem_append.mp hr with hr | hr
    · exact h.readers r hr
    · obtain rfl := List.mem_singleton.mp hr
      exact .new _ _
  calls c reading hcall := (h.calls c reading hcall).append _

theorem Inv.publish (h : Inv x) (es : List Event) :
    Inv { x with queue := x.queue.publishBatch es, published := x.published ++ [es] } where
  log := by
    rw [List.flatten_append, List.flatten_singleton, ← h.log]
    rfl
  readers r hr := (h.readers r hr).grow es
  calls := h.calls

variable [DecidableEq C]

/-- The readers and calls after a client's call was put at a loop. -/
theorem Inv.moved (h : Inv x) {c : C} {i : ℕ} {r : Reader} (hr : x.readers[i]? = some r)
    (r' : Reader) (htypes : r'.types = r.types) (hr' : r'.InOrder x.queue.log) (o : Option Reading)
    (ho : ∀ reading, o = some reading → Pending (x.readers.set i r') reading) :
    Inv { x with readers := x.readers.set i r', calls := Function.update x.calls c o } where
  log := h.log
  readers := by
    intro r₀ hr₀
    rcases List.mem_or_eq_of_mem_set hr₀ with hmem | rfl
    · exact h.readers r₀ hmem
    · exact hr'
  calls := by
    intro d reading hd
    change Function.update x.calls c o d = some reading at hd
    by_cases hdc : d = c
    · subst hdc
      rw [Function.update_self] at hd
      exact ho reading hd
    · rw [Function.update_of_ne hdc] at hd
      exact (h.calls d reading hd).set hr htypes

/-- **A call that looks for what its reader wants**, and was given nothing of it. -/
theorem Inv.seeking (h : Inv x) {c : C} {i : ℕ} {r : Reader} (hr : x.readers[i]? = some r)
    (r' : Reader) (htypes : r'.types = r.types) (hr' : r'.InOrder x.queue.log) {given : List Event}
    {p : Accesses (Option Event)} (hp : Seeks r'.wants p)
    (hgiven : ∀ e ∈ given, r'.wants e = false) : Inv (x.atLoop c i r' given p) := by
  cases hp with
  | done =>
    exact h.moved hr { r' with completed := r'.completed ++ [(given, none)] } htypes
      (hr'.complete_none hgiven) none (fun _ ho => nomatch ho)
  | access hwanted hother hnone =>
    refine h.moved hr r' htypes hr' _ (fun reading ho => ?_)
    obtain rfl := Option.some.inj ho
    refine ⟨r', ?_, .access hwanted hother hnone, hgiven⟩
    exact List.getElem?_set_self (List.getElem?_eq_some_iff.mp hr).1

/-- **An access of a call in progress keeps the invariant.** -/
theorem Inv.access (h : Inv x) {c : C} {i pos : ℕ} {r : Reader} {given : List Event}
    {o : Option Event} {k : Option Event → Accesses (Option Event)}
    (hcall : x.calls c = some ⟨i, given, .act () k⟩) (hreader : x.readers[i]? = some r)
    (hpoll : x.queue.pollOnce r.position = (o, pos)) :
    Inv (x.atLoop c i { r with position := pos } (given ++ o.toList) (k o)) := by
  obtain ⟨r₀, hr₀, hseeks, hgiven⟩ := h.calls c _ hcall
  obtain rfl : r = r₀ := Option.some.inj (hreader.symm.trans hr₀)
  have hr := h.readers r (List.mem_of_getElem? hreader)
  cases hseeks with
  | access hwanted hother hnone =>
    cases o with
    | none =>
      obtain rfl := Cursor.pos_of_next_none hpoll
      rw [show given ++ (none : Option Event).toList = given from List.append_nil _]
      exact h.seeking hreader r rfl hr hnone hgiven
    | some e =>
      cases he : r.wants e with
      | true =>
        rw [hwanted e he]
        exact h.moved hreader
          { r with position := pos, completed := r.completed ++ [(given ++ [e], some e)] } rfl
          (hr.complete_some hgiven hpoll he) none (fun _ ho => nomatch ho)
      | false =>
        refine h.seeking hreader { r with position := pos } rfl (hr.skip hpoll he) (hother e he)
          (fun e' he' => ?_)
        rcases List.mem_append.mp he' with he' | he'
        · exact hgiven e' he'
        · obtain rfl := List.mem_singleton.mp he'
          exact he

/-- **Every step keeps the invariant.** -/
theorem Inv.step (h : Inv x) (hstep : Step x y) : Inv y := by
  cases hstep with
  | publish c e => exact h.publish [e]
  | publishBatch c es => exact h.publish es
  | newSubscriber c => exact h.addReader none
  | subscribe c types => exact h.addReader (some types)
  | poll c i turns r _ hreader htypes =>
    refine h.seeking hreader r rfl (h.readers r (List.mem_of_getElem? hreader)) ?_ (fun _ he => nomatch he)
    have hwants : r.wants = fun _ => true := by
      unfold Reader.wants
      rw [htypes]
    rw [hwants]
    exact InMemoryQueue.seeks_accesses turns
  | recv c i budget r types _ hreader htypes =>
    refine h.seeking hreader r rfl (h.readers r (List.mem_of_getElem? hreader)) ?_ (fun _ he => nomatch he)
    have hwants : r.wants = fun e => decide (e.eventType ∈ types) := by
      unfold Reader.wants
      rw [htypes]
    rw [hwants]
    exact InMemoryQueue.seeks_recv types budget
  | access c i pos r given o k hcall hreader hpoll => exact h.access hcall hreader hpoll

/-- **Every run keeps the invariant.** -/
theorem Inv.run (hrun : Run x y) (h : Inv x) : Inv y := by
  induction hrun with
  | refl => exact h
  | tail _ hstep ih => exact ih.step hstep

/-! ## Delivery -/

/-- **Fan-out delivery is complete, ordered and without duplicates.** In every run
of any clients: what the polls of a subscriber returned is the beginning of
the log up to its position; what the calls of a receiver returned is what of
that beginning has one of its types, and a call that returned nothing was
given nothing of these types; and the log is the lists published, one after
the other, each in one piece. -/
theorem complete_in_order (hrun : Run (initial C) x) :
    (∀ r ∈ x.readers, r.position ≤ x.queue.log.length
      ∧ (r.types = none → r.returned = x.queue.log.take r.position)
      ∧ ∀ types, r.types = some types →
        r.returned = (x.queue.log.take r.position).filter (fun e => decide (e.eventType ∈ types))
        ∧ ∀ given, (given, none) ∈ r.completed → ∀ e ∈ given, e.eventType ∉ types)
    ∧ x.queue.log = x.published.flatten ∧ ∀ es ∈ x.published, es <:+: x.queue.log := by
  have hinv := Inv.run hrun (Inv.initial (C := C))
  refine ⟨fun r hr => ?_, hinv.log, fun es hes => hinv.log ▸ List.infix_of_mem_flatten hes⟩
  have horder := hinv.readers r hr
  refine ⟨horder.position_le, fun htypes => ?_, fun types htypes => ⟨?_, fun given hcall e he => ?_⟩⟩
  · rw [horder.returned_eq]
    refine List.filter_eq_self.mpr (fun e _ => ?_)
    rw [Reader.wants, htypes]
  · rw [horder.returned_eq]
    refine List.filter_congr (fun e _ => ?_)
    rw [Reader.wants, htypes]
  · have hunwanted := horder.honest _ hcall e he
    rw [Reader.wants, htypes] at hunwanted
    exact of_decide_eq_false hunwanted

/-- Two events of a batch. -/
def ordered : Event := Event.new "evt-1" "Ordered" []
def shipped : Event := Event.new "evt-2" "Shipped" []

/-- A receiver of one of two types skips the event of the other. -/
theorem complete_in_order_run : ∃ (x : FanOut Unit) (r : Reader), Run (initial Unit) x
    ∧ r ∈ x.readers ∧ x.queue.log = [ordered, shipped] ∧ r.returned = [shipped]
    ∧ r.returned
      = (x.queue.log.take r.position).filter (fun e => decide (e.eventType ∈ ["Shipped"])) := by
  have h₀ : Run (initial Unit) (initial Unit) := .refl
  have h₁ := h₀.tail (.publishBatch () [ordered, shipped] rfl)
  have h₂ := h₁.tail (.subscribe () ["Shipped"] rfl)
  have h₃ := h₂.tail (.recv () 1 [0, 0] _ _ rfl rfl rfl)
  have h₄ := h₃.tail (.access () 1 _ _ _ _ _ rfl rfl rfl)
  have h₅ := h₄.tail (.access () 1 _ _ _ _ _ rfl rfl rfl)
  have hmem := List.mem_cons_of_mem (Reader.new none) (List.mem_singleton_self
    (⟨2, some ["Shipped"], [([ordered, shipped], some shipped)]⟩ : Reader))
  exact ⟨_, _, h₅, hmem, rfl, rfl, (((complete_in_order h₅).1 _ hmem).2.2 _ rfl).1⟩

end FanOut
