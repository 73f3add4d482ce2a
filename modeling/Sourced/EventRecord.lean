import Mathlib.Data.Finmap
import Sourced.Numbering

/-!
# Event records

The stored form of an event (`entity/event_record.rs`), with what it is made
of: the clock, the metadata map, and the `bitcode` codec of payloads.

The codec is a crate of its own and is a parameter here: `Bitcode T` is what
`serialize` and `deserialize` do at the type `T`, and `Bitcode.Lawful` is the
one thing the repository relies on, that decoding undoes encoding.

Payloads are values that serialize. The panic of `digest` at one whose own
`Serialize` refuses it is left out.
-/

/-! ## The clock -/

/-- `std::time::Duration`: seconds in a `u64` and a fraction in nanoseconds. -/
structure Duration where
  secs : ℕ
  nanos : ℕ
  secs_lt : secs < 2 ^ 64
  nanos_lt : nanos < 1000000000
deriving DecidableEq

/-- `std::time::SystemTime`, as a signed 64-bit count of seconds since the
epoch and a fraction in nanoseconds. -/
structure SystemTime where
  secs : ℤ
  nanos : ℕ
  secs_range : -2 ^ 63 ≤ secs ∧ secs < 2 ^ 63
  nanos_lt : nanos < 1000000000
deriving DecidableEq

namespace Duration

/-- `Duration::from_secs`. -/
def fromSecs (secs : ℕ) (h : secs < 2 ^ 64) : Duration := ⟨secs, 0, h, by decide⟩

/-- `Duration::MAX`. -/
def max : Duration := ⟨2 ^ 64 - 1, 999999999, by decide, by decide⟩

end Duration

namespace SystemTime

/-- `SystemTime::UNIX_EPOCH`. -/
def unixEpoch : SystemTime := ⟨0, 0, by decide, by decide⟩

instance : Inhabited SystemTime := ⟨unixEpoch⟩

/-- A second count and a fraction, where the count is representable. -/
def ofParts (secs : ℤ) (nanos : ℕ) (h : nanos < 1000000000) : Option SystemTime :=
  if hs : -2 ^ 63 ≤ secs ∧ secs < 2 ^ 63 then some ⟨secs, nanos, hs, h⟩ else none

/-- `SystemTime + Duration`; `none` is the panic of the operator where the
result is not representable. -/
def add (t : SystemTime) (d : Duration) : Option SystemTime :=
  if h : t.nanos + d.nanos < 1000000000 then
    ofParts (t.secs + d.secs) (t.nanos + d.nanos) h
  else
    -- the whole seconds are added first, and checked, before the carry
    (ofParts (t.secs + d.secs) 0 (by decide)).bind (fun u =>
      ofParts (u.secs + 1) (t.nanos + d.nanos - 1000000000)
        (Nat.sub_lt_right_of_lt_add (Nat.not_lt.mp h) (Nat.add_lt_add t.nanos_lt d.nanos_lt)))

/-- `t.duration_since(UNIX_EPOCH).unwrap_or_default().as_secs()`: the whole
seconds since the epoch, zero before it. -/
def secsSinceEpoch (t : SystemTime) : ℕ := t.secs.toNat

/-- The order of times: by the seconds, then by the fraction. -/
instance : LE SystemTime := ⟨fun t u => t.secs < u.secs ∨ t.secs = u.secs ∧ t.nanos ≤ u.nanos⟩

theorem secsSinceEpoch_lt (t : SystemTime) : t.secsSinceEpoch < 2 ^ 63 := by
  have h := t.secs_range.2
  unfold secsSinceEpoch
  omega

theorem ofParts_eq_none {secs : ℤ} {nanos : ℕ} {h : nanos < 1000000000} :
    ofParts secs nanos h = none ↔ ¬ (-2 ^ 63 ≤ secs ∧ secs < 2 ^ 63) := by
  unfold ofParts
  by_cases hs : -2 ^ 63 ≤ secs ∧ secs < 2 ^ 63
  · rw [dif_pos hs]
    exact iff_of_false (Option.some_ne_none _) (not_not_intro hs)
  · rw [dif_neg hs]
    exact iff_of_true rfl hs

theorem secs_of_ofParts {secs : ℤ} {nanos : ℕ} {h : nanos < 1000000000} {t : SystemTime}
    (ht : ofParts secs nanos h = some t) : t.secs = secs := by
  unfold ofParts at ht
  split at ht
  · obtain rfl := Option.some.inj ht
    rfl
  · cases ht

/-- **A time is not representable** from `2 ^ 63` seconds after the epoch on. -/
theorem add_eq_none {t : SystemTime} {d : Duration} : t.add d = none
    ↔ 2 ^ 63 ≤ t.secs + d.secs + ((t.nanos + d.nanos) / 1000000000 : ℕ) := by
  have hrange := t.secs_range
  have hnanos := Nat.add_lt_add t.nanos_lt d.nanos_lt
  unfold add
  by_cases h : t.nanos + d.nanos < 1000000000
  · rw [dif_pos h, Nat.div_eq_of_lt h, ofParts_eq_none]
    omega
  · -- the fractions are a second and some more
    have hcarry : (t.nanos + d.nanos) / 1000000000 = 1 := by omega
    rw [dif_neg h, hcarry]
    cases hu : ofParts (t.secs + d.secs) 0 (by decide) with
    | none =>
      have hout := ofParts_eq_none.mp hu
      exact iff_of_true rfl (by omega)
    | some u =>
      have hsecs : u.secs = t.secs + d.secs := secs_of_ofParts hu
      have hu_range := u.secs_range
      rw [Option.bind_some, ofParts_eq_none]
      omega

/-- Nothing comes before a time that a duration was added to. -/
theorem le_add {t u : SystemTime} {d : Duration} (h : t.add d = some u) : t.secs ≤ u.secs := by
  unfold add at h
  split at h
  · have hsecs : u.secs = t.secs + d.secs := secs_of_ofParts h
    omega
  · obtain ⟨v, hv, hu⟩ := Option.bind_eq_some_iff.mp h
    have hv_secs : v.secs = t.secs + d.secs := secs_of_ofParts hv
    have hu_secs : u.secs = v.secs + 1 := secs_of_ofParts hu
    omega

/-- Nothing added to a time. -/
@[simp] theorem add_zero (t : SystemTime) : t.add (.fromSecs 0 (by decide)) = some t := by
  unfold add
  rw [dif_pos (show t.nanos + (Duration.fromSecs 0 (by decide)).nanos < 1000000000 from t.nanos_lt)]
  unfold ofParts
  rw [dif_pos (show -2 ^ 63 ≤ t.secs + ((Duration.fromSecs 0 (by decide)).secs : ℤ)
      ∧ t.secs + ((Duration.fromSecs 0 (by decide)).secs : ℤ) < 2 ^ 63 by
    show -2 ^ 63 ≤ t.secs + 0 ∧ t.secs + 0 < 2 ^ 63
    have h := t.secs_range
    omega)]
  simp [Duration.fromSecs]

/-- The epoch and a count of seconds that a time can have. -/
theorem isSome_unixEpoch_add {n : ℕ} (h : n < 2 ^ 64) (hn : n < 2 ^ 63) :
    (unixEpoch.add (.fromSecs n h)).isSome := by
  have hsum : -2 ^ 63 ≤ unixEpoch.secs + ((Duration.fromSecs n h).secs : ℤ)
      ∧ unixEpoch.secs + ((Duration.fromSecs n h).secs : ℤ) < 2 ^ 63 := by
    show -2 ^ 63 ≤ 0 + (n : ℤ) ∧ 0 + (n : ℤ) < 2 ^ 63
    omega
  unfold add
  rw [dif_pos (show unixEpoch.nanos + (Duration.fromSecs n h).nanos < 1000000000 by
    show 0 + 0 < 1000000000
    omega)]
  unfold ofParts
  rw [dif_pos hsum]
  rfl

end SystemTime

/-! ## Metadata and payloads -/

/-- `HashMap<String, String>`. -/
abbrev Metadata := Finmap (fun _ : String => String)

/-- The bytes of a payload. -/
abbrev Bytes := List UInt8

/-- **The `bitcode` codec at a type.** -/
structure Bitcode (T : Type) where
  serialize : T → Bytes
  deserialize : Bytes → Except String T

/-- Decoding undoes encoding. -/
def Bitcode.Lawful {T : Type} (c : Bitcode T) : Prop :=
  ∀ x, c.deserialize (c.serialize x) = .ok x

/-- The codec of the unit value, which takes no bytes. -/
def Bitcode.unit : Bitcode Unit := ⟨fun _ => [], fun _ => .ok ()⟩

/-! ## Records -/

/-- **`EventRecord`**: an event as it is stored. -/
structure EventRecord where
  eventName : String
  payload : Bytes
  eventVersion : ℕ
  sequence : ℕ
  timestamp : SystemTime
  metadata : Metadata
deriving DecidableEq

namespace EventRecord

/-- `EventRecord::new_versioned`, at the clock reading `now`. -/
def newVersioned (eventName : String) (payload : Bytes) (sequence version : ℕ)
    (now : SystemTime) : EventRecord :=
  ⟨eventName, payload, version, sequence, now, ∅⟩

/-- `EventRecord::new`: version 1. -/
def new (eventName : String) (payload : Bytes) (sequence : ℕ) (now : SystemTime) :
    EventRecord :=
  newVersioned eventName payload sequence 1 now

/-- `EventRecord::decode`: the payload read at a type. -/
def decode {T : Type} (c : Bitcode T) (e : EventRecord) : Except String T :=
  c.deserialize e.payload

end EventRecord
