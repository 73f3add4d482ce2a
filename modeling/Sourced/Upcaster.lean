import Sourced.EventRecord
import Mathlib.Tactic.Common

/-!
# Upcasters

A stored event is rewritten on load to the version the code now expects
(`entity/upcaster.rs`). One upcaster takes one event type from one version to
another; the loop of `upcast_one` applies the first that matches and starts
over, until none does.

The loop has no bound of its own, and a table that leads from a version back
to itself keeps it running for ever. `upcastOne` therefore returns an
`Option`: it gives the loop as many applications as the table has entries,
and `none` is a loop that needs more. A table whose versions increase never
does (`upcastOne_isSome`), since no entry can be applied twice.
-/

/-- **`EventUpcaster`.** -/
structure EventUpcaster where
  eventType : String
  fromVersion : ℕ
  toVersion : ℕ
  transform : Bytes → Bytes

namespace EventUpcaster

/-- The test of the inner loop of `upcast_one`. -/
def Applies (u : EventUpcaster) (e : EventRecord) : Prop :=
  u.eventType = e.eventName ∧ u.fromVersion = e.eventVersion

instance (u : EventUpcaster) (e : EventRecord) : Decidable (u.Applies e) :=
  inferInstanceAs (Decidable (_ ∧ _))

/-- One application: the payload is transformed and the version set. -/
def apply (u : EventUpcaster) (e : EventRecord) : EventRecord :=
  { e with payload := u.transform e.payload, eventVersion := u.toVersion }

/-- **The versions of the table increase.** -/
def Increasing (us : List EventUpcaster) : Prop := ∀ u ∈ us, u.fromVersion < u.toVersion

end EventUpcaster

/-- The inner loop of `upcast_one`: the first entry that matches is applied. -/
def upcastStep (us : List EventUpcaster) (e : EventRecord) : Option EventRecord :=
  (us.find? (fun u => decide (u.Applies e))).map (fun u => u.apply e)

/-- The outer loop of `upcast_one`, for at most `fuel` applications. -/
def upcastLoop (us : List EventUpcaster) : ℕ → EventRecord → Option EventRecord
  | fuel, e =>
    match upcastStep us e with
    | none => some e
    | some e' =>
      match fuel with
      | 0 => none
      | fuel + 1 => upcastLoop us fuel e'

/-- **`upcast_one`**; `none` is the loop that does not end. -/
def upcastOne (us : List EventUpcaster) (e : EventRecord) : Option EventRecord :=
  upcastLoop us us.length e

/-- **`upcast_events`.** -/
def upcastEvents (us : List EventUpcaster) (es : List EventRecord) :
    Option (List EventRecord) :=
  es.mapM (upcastOne us)

theorem upcastStep_eq_some {us : List EventUpcaster} {e e' : EventRecord}
    (h : upcastStep us e = some e') : ∃ u ∈ us, u.Applies e ∧ e' = u.apply e := by
  obtain ⟨u, hu, rfl⟩ := Option.map_eq_some_iff.mp h
  exact ⟨u, List.mem_of_find?_eq_some hu, by simpa using List.find?_some hu, rfl⟩

/-- The entries at or above a version, which an event at that version can
still be taken through. -/
def ahead (us : List EventUpcaster) (version : ℕ) : List EventUpcaster :=
  us.filter (fun u => decide (version ≤ u.fromVersion))

/-- An application leaves fewer entries ahead. -/
theorem length_ahead_lt {us : List EventUpcaster} {u : EventUpcaster} (hu : u ∈ us)
    (hlt : u.fromVersion < u.toVersion) :
    (ahead us u.toVersion).length < (ahead us u.fromVersion).length := by
  have hsub : ahead us u.toVersion
      = (ahead us u.fromVersion).filter (fun v => decide (u.toVersion ≤ v.fromVersion)) := by
    unfold ahead
    rw [List.filter_filter]
    refine List.filter_congr (fun v _ => ?_)
    by_cases h : u.toVersion ≤ v.fromVersion <;> simp [h]
    omega
  rw [hsub, List.length_filter_lt_length_iff_exists]
  exact ⟨u, List.mem_filter.mpr ⟨hu, by simp⟩, by simpa using hlt⟩

/-- **An increasing table stops the loop**, within the number of entries ahead
of the event. -/
theorem upcastLoop_isSome {us : List EventUpcaster} (hus : EventUpcaster.Increasing us)
    (fuel : ℕ) (e : EventRecord) (hfuel : (ahead us e.eventVersion).length ≤ fuel) :
    (upcastLoop us fuel e).isSome := by
  induction fuel generalizing e with
  | zero =>
    unfold upcastLoop
    cases hstep : upcastStep us e with
    | none => rfl
    | some e' =>
      obtain ⟨u, hu, happ, -⟩ := upcastStep_eq_some hstep
      have hlt := length_ahead_lt hu (hus u hu)
      rw [happ.2] at hlt
      omega
  | succ fuel ih =>
    unfold upcastLoop
    cases hstep : upcastStep us e with
    | none => rfl
    | some e' =>
      obtain ⟨u, hu, happ, rfl⟩ := upcastStep_eq_some hstep
      have hlt := length_ahead_lt hu (hus u hu)
      rw [happ.2] at hlt
      refine ih _ ?_
      show (ahead us u.toVersion).length ≤ fuel
      omega

/-- **Under an increasing table `upcast_one` returns.** -/
theorem upcastOne_isSome {us : List EventUpcaster} (hus : EventUpcaster.Increasing us)
    (e : EventRecord) : (upcastOne us e).isSome :=
  upcastLoop_isSome hus _ e (List.length_filter_le _ _)

/-! ## Lists of events -/

@[simp] theorem upcastOne_nil (e : EventRecord) : upcastOne [] e = some e := rfl

@[simp] theorem upcastEvents_nil_table (es : List EventRecord) :
    upcastEvents [] es = some es := by
  induction es with
  | nil => rfl
  | cons e es ih => simp_all [upcastEvents]

/-- **Upcasting is event by event**: a list in two parts is upcast in two
parts. -/
theorem upcastEvents_append (us : List EventUpcaster) (es₁ es₂ : List EventRecord) :
    upcastEvents us (es₁ ++ es₂)
      = (upcastEvents us es₁).bind (fun fs₁ =>
          (upcastEvents us es₂).map (fun fs₂ => fs₁ ++ fs₂)) := by
  unfold upcastEvents
  rw [List.mapM_append]
  cases List.mapM (upcastOne us) es₁ <;> cases List.mapM (upcastOne us) es₂ <;> rfl

/-- **Under an increasing table `upcast_events` returns.** -/
theorem upcastEvents_isSome {us : List EventUpcaster} (hus : EventUpcaster.Increasing us)
    (es : List EventRecord) : (upcastEvents us es).isSome := by
  induction es with
  | nil => rfl
  | cons e es ih =>
    obtain ⟨e', he⟩ := Option.isSome_iff_exists.mp (upcastOne_isSome hus e)
    obtain ⟨es', hes⟩ := Option.isSome_iff_exists.mp ih
    unfold upcastEvents at hes ⊢
    rw [List.mapM_cons, he, hes]
    rfl
