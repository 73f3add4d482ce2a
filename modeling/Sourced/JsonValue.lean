import Mathlib.Data.Finmap
import Mathlib.Data.Set.Countable
import Mathlib.Logic.Function.Basic

/-!
# Structs as JSON objects

A struct is written as a JSON object with a member for each of its fields, in the
order in which they are declared. The writer may leave a field out where its value
says so, and the reader may take a default for a field that is absent. These are two
rules, which need not fit together. Where every value that is left out is the default
(`StructWriter.SkipsDefaults`), and the values of the fields round-trip, so does the
struct (`StructDef.roundTrips`).

An object is read one member after the other into one slot for each field. A member
for a field whose slot is filled is an error, and one for no field is one or is
ignored. So the order of the members does not matter, and a member may be missing
if its field has the default (`StructReader.read_obj`, `StructReader.read_obj_of_perm`).
-/

/-- **JSON values.** A number is a natural number or any other, as it is written. -/
inductive JsonValue where
  | null
  | bool (b : Bool)
  | nat (n : ℕ)
  | number (literal : String)
  | str (s : String)
  | arr (items : List JsonValue)
  | obj (members : List (String × JsonValue))

/-- What can be wrong with a value that is written or a text that is read. -/
inductive JsonError where
  | malformed
  | invalidType
  | invalidLength
  | missingField (name : String)
  | duplicateField (name : String)
  | unknownField (name : String)
  | custom (message : String)
deriving DecidableEq

namespace JsonValue

/-- **A plain value**, nested at most to a depth: a text, a 64-bit number, or an object
of these. -/
inductive Plain : ℕ → JsonValue → Prop
  | str {d : ℕ} (s : String) : Plain d (.str s)
  | nat {d n : ℕ} (h : n < 2 ^ 64) : Plain d (.nat n)
  | obj {d : ℕ} {ms : List (String × JsonValue)} (h : ∀ m ∈ ms, Plain d m.2) : Plain (d + 1) (.obj ms)

theorem Plain.mono {d d' : ℕ} {j : JsonValue} (h : Plain d j) (hd : d ≤ d') : Plain d' j := by
  induction h generalizing d' with
  | str s => exact .str s
  | nat h => exact .nat h
  | @obj d ms _ ih =>
    cases d' with
    | zero => simp at hd
    | succ d' => exact .obj (fun m hm => ih m hm (Nat.le_of_succ_le_succ hd))

/-- There are as many plain values as there are numbers. -/
theorem countable_plain [Countable String] (d : ℕ) : { j | Plain d j }.Countable := by
  induction d with
  | zero =>
    refine ((Set.countable_range JsonValue.str).union (Set.countable_range JsonValue.nat)).mono
      (fun j hj => ?_)
    cases hj with
    | str s => exact Or.inl ⟨s, rfl⟩
    | nat _ => exact Or.inr ⟨_, rfl⟩
  | succ d ih =>
    have hd : Countable { j // Plain d j } := ih.to_subtype
    refine (((Set.countable_range JsonValue.str).union (Set.countable_range JsonValue.nat)).union
      (Set.countable_range (fun l : List (String × { j // Plain d j }) =>
        JsonValue.obj (l.map (fun m => (m.1, m.2.1)))))).mono (fun j hj => ?_)
    cases hj with
    | str s => exact Or.inl (Or.inl ⟨s, rfl⟩)
    | nat _ => exact Or.inl (Or.inr ⟨_, rfl⟩)
    | @obj _ ms h =>
      refine Or.inr ⟨ms.attach.map (fun m => (m.1.1, ⟨m.1.2, h m.1 m.2⟩)), ?_⟩
      show JsonValue.obj ((ms.attach.map _).map _) = JsonValue.obj ms
      rw [List.map_map]
      exact congrArg JsonValue.obj (List.attach_map_subtype_val ms)

/-! ## Values -/

theorem bind_eq_ok {α β : Type} {x : Except JsonError α} {f : α → Except JsonError β} {y : β} :
    x.bind f = .ok y ↔ ∃ a, x = .ok a ∧ f a = .ok y := by
  cases x <;> simp [Except.bind]

variable {T : Type}

/-- **A value round-trips**: it is written as a plain value, which is read as it. -/
def RoundTrips (write : T → Except JsonError JsonValue) (read : JsonValue → Except JsonError T)
    (d : ℕ) (x : T) : Prop :=
  ∃ j, write x = .ok j ∧ read j = .ok x ∧ j.Plain d

/-- **A value reads back**: whatever it is written as is read as it. -/
def ReadsBack (write : T → Except JsonError JsonValue) (read : JsonValue → Except JsonError T) (x : T) :
    Prop :=
  ∃ j, write x = .ok j ∧ read j = .ok x

theorem RoundTrips.readsBack {write : T → Except JsonError JsonValue}
    {read : JsonValue → Except JsonError T} {d : ℕ} {x : T} (h : RoundTrips write read d x) :
    ReadsBack write read x := by
  obtain ⟨j, hj, hread, -⟩ := h
  exact ⟨j, hj, hread⟩

end JsonValue

/-- **How the values of a type are written and read.** -/
structure JsonCodec (T : Type) where
  write : T → Except JsonError JsonValue
  read : JsonValue → Except JsonError T

namespace JsonCodec

variable {T : Type} {d : ℕ}

/-- A value round-trips. -/
abbrev RoundTrips (c : JsonCodec T) (d : ℕ) (x : T) : Prop := JsonValue.RoundTrips c.write c.read d x

/-- Texts. -/
def string : JsonCodec String where
  write s := .ok (.str s)
  read
    | .str s => .ok s
    | _ => .error .invalidType

/-- Unsigned numbers of some bits. -/
def unsigned (bits : ℕ) : JsonCodec ℕ where
  write n := .ok (.nat n)
  read
    | .nat n => if n < 2 ^ bits then .ok n else .error .invalidType
    | _ => .error .invalidType

@[simp] theorem roundTrips_string (s : String) : string.RoundTrips d s := ⟨.str s, rfl, rfl, .str s⟩

theorem roundTrips_unsigned {bits n : ℕ} (hbits : bits ≤ 64) (h : n < 2 ^ bits) :
    (unsigned bits).RoundTrips d n :=
  ⟨.nat n, rfl, if_pos h, .nat (h.trans_le (Nat.pow_le_pow_right (by decide) hbits))⟩

/-- Arrays of values. -/
def list (c : JsonCodec T) : JsonCodec (List T) where
  write xs := (xs.mapM c.write).map JsonValue.arr
  read
    | .arr js => js.mapM c.read
    | _ => .error .invalidType

/-- **An array is read as what its items are read as.** -/
theorem exists_write_list {c : JsonCodec T} {f : T → T} {xs : List T}
    (h : ∀ x ∈ xs, ∃ j, c.write x = .ok j ∧ c.read j = .ok (f x)) :
    ∃ j, c.list.write xs = .ok j ∧ c.list.read j = .ok (xs.map f) := by
  obtain ⟨js, hjs, hreads⟩ : ∃ js, xs.mapM c.write = .ok js ∧ js.mapM c.read = .ok (xs.map f) := by
    induction xs with
    | nil => exact ⟨[], rfl, rfl⟩
    | cons x xs ih =>
      obtain ⟨j, hj, hread⟩ := h x List.mem_cons_self
      obtain ⟨js, hjs, hreads⟩ := ih (fun x' hx' => h x' (List.mem_cons_of_mem x hx'))
      refine ⟨j :: js, ?_, ?_⟩
      · rw [List.mapM_cons, hj, hjs]
        rfl
      · rw [List.mapM_cons, hread, hreads]
        rfl
  refine ⟨.arr js, ?_, hreads⟩
  show (xs.mapM c.write).map JsonValue.arr = .ok (.arr js)
  rw [hjs]
  rfl

theorem readsBack_list {c : JsonCodec T} {xs : List T}
    (h : ∀ x ∈ xs, JsonValue.ReadsBack c.write c.read x) :
    JsonValue.ReadsBack c.list.write c.list.read xs := by
  simpa [JsonValue.ReadsBack] using exists_write_list (f := fun x => x) h

/-- What was read as an array was read item by item. -/
theorem exists_read_of_list {c : JsonCodec T} {j : JsonValue} {xs : List T}
    (h : c.list.read j = .ok xs) : ∀ x ∈ xs, ∃ j', c.read j' = .ok x := by
  have hitems : ∀ (js : List JsonValue) (xs : List T), js.mapM c.read = .ok xs →
      ∀ x ∈ xs, ∃ j', c.read j' = .ok x := by
    intro js
    induction js with
    | nil =>
      intro xs h
      obtain rfl : [] = xs := Except.ok.inj h
      simp
    | cons j js ih =>
      intro xs h
      rw [List.mapM_cons] at h
      obtain ⟨x, hx, h⟩ := JsonValue.bind_eq_ok.mp h
      obtain ⟨xs', hxs', h⟩ := JsonValue.bind_eq_ok.mp h
      obtain rfl : x :: xs' = xs := Except.ok.inj h
      simpa [List.forall_mem_cons] using ⟨⟨j, hx⟩, ih xs' hxs'⟩
  cases j with
  | arr js => exact hitems js xs h
  | null => cases h
  | bool b => cases h
  | nat n => cases h
  | number literal => cases h
  | str s => cases h
  | obj members => cases h

/-- A number that was read is one of the bits. -/
theorem lt_of_unsigned {bits n : ℕ} {j : JsonValue} (h : (unsigned bits).read j = .ok n) :
    n < 2 ^ bits := by
  cases j with
  | nat k =>
    simp only [unsigned] at h
    split at h
    · next hk => exact Except.ok.inj h ▸ hk
    · cases h
  | null => cases h
  | bool b => cases h
  | number literal => cases h
  | str s => cases h
  | arr items => cases h
  | obj members => cases h

end JsonCodec

/-! ## Maps of texts -/

namespace StringMap

/-- **An order of iteration** of every map. -/
def Enumerates (order : Finmap (fun _ : String => String) → List (String × String)) : Prop :=
  ∀ m, ((order m).map Prod.fst).Nodup ∧ ∀ k v, (k, v) ∈ order m ↔ m.lookup k = some v

/-- There is one. -/
theorem exists_enumerates : ∃ order, Enumerates order := by
  refine ⟨fun m => m.entries.toList.map (fun e => (e.1, e.2)), fun m => ⟨?_, fun k v => ?_⟩⟩
  · have hnd := m.nodupKeys
    rw [← m.entries.coe_toList, Multiset.coe_nodupKeys] at hnd
    rw [List.map_map]
    exact hnd
  · show (k, v) ∈ m.entries.toList.map (fun e => (e.1, e.2)) ↔ _
    rw [Finmap.lookup_eq_some_iff]
    simp

/-- The object of a map, in an order of iteration. -/
def write (order : Finmap (fun _ : String => String) → List (String × String))
    (m : Finmap (fun _ : String => String)) : Except JsonError JsonValue :=
  .ok (.obj ((order m).map (fun e => (e.1, .str e.2))))

/-- The members of an object, inserted one after the other. -/
def readEntries (m : Finmap (fun _ : String => String)) :
    List (String × JsonValue) → Except JsonError (Finmap (fun _ : String => String))
  | [] => .ok m
  | (k, .str v) :: ms => readEntries (m.insert k v) ms
  | _ => .error .invalidType

/-- The map of an object. -/
def read : JsonValue → Except JsonError (Finmap (fun _ : String => String))
  | .obj ms => readEntries ∅ ms
  | _ => .error .invalidType

/-- **Entries with distinct keys**, inserted one after the other, are what is in the map
in the end. -/
theorem exists_readEntries {l : List (String × String)} (hnd : (l.map Prod.fst).Nodup)
    (m : Finmap (fun _ : String => String)) :
    ∃ m', readEntries m (l.map (fun e => (e.1, .str e.2))) = .ok m'
      ∧ ∀ k v, m'.lookup k = some v ↔ (k, v) ∈ l ∨ k ∉ l.map Prod.fst ∧ m.lookup k = some v := by
  induction l generalizing m with
  | nil => exact ⟨m, rfl, by simp⟩
  | cons e l ih =>
    obtain ⟨k, v⟩ := e
    obtain ⟨hk, hnd'⟩ := List.nodup_cons.mp hnd
    obtain ⟨m', hm', hlookup⟩ := ih hnd' (m.insert k v)
    refine ⟨m', hm', fun k' v' => ?_⟩
    rw [hlookup]
    by_cases heq : k' = k
    · subst heq
      have hno : (k', v') ∉ l := fun h => hk (List.mem_map.mpr ⟨_, h, rfl⟩)
      rw [Finmap.lookup_insert]
      simp [hno, show k' ∉ l.map Prod.fst from hk, eq_comm]
    · rw [Finmap.lookup_insert_of_ne _ heq]
      simp [heq]

/-- A map round-trips. -/
theorem roundTrips {order : Finmap (fun _ : String => String) → List (String × String)}
    (h : Enumerates order) (m : Finmap (fun _ : String => String)) (d : ℕ) :
    JsonValue.RoundTrips (write order) read (d + 1) m := by
  obtain ⟨hnd, hmem⟩ := h m
  obtain ⟨m', hm', hlookup⟩ := exists_readEntries hnd ∅
  obtain rfl : m' = m := by
    refine Finmap.ext_lookup (fun k => Option.ext fun v => ?_)
    rw [hlookup, hmem]
    simp
  refine ⟨_, rfl, hm', .obj (fun e he => ?_)⟩
  obtain ⟨e', -, rfl⟩ := List.mem_map.mp he
  exact .str e'.2

end StringMap

/-! ## Structs -/

/-- **The fields of a struct**, in the order in which they are declared, and their names. -/
structure StructDef (ι : Type) where
  fields : List ι
  name : ι → String
  /-- Every field is declared once. -/
  nodup : fields.Nodup
  mem_fields : ∀ i, i ∈ fields
  /-- Two fields have two names. -/
  name_injective : Function.Injective name

variable {ι : Type} {T : ι → Type}

/-- The names of the fields. -/
def StructDef.names (D : StructDef ι) : List String := D.fields.map D.name

/-- A field is found by its name. -/
@[simp] theorem StructDef.find?_name [DecidableEq ι] (D : StructDef ι) (i : ι) :
    D.fields.find? (fun i' => D.name i' = D.name i) = some i := by
  have h : (fun i' => decide (D.name i' = D.name i)) = fun i' => decide (i' = i) := by
    funext i'
    simp [D.name_injective.eq_iff]
  rw [h, List.find?_eq_some_iff_append]
  obtain ⟨l₁, l₂, hl⟩ := List.append_of_mem (D.mem_fields i)
  refine ⟨by simp, l₁, l₂, hl, fun i' hi' => ?_⟩
  have hnd := D.nodup
  rw [hl] at hnd
  simpa using fun heq : i' = i => List.disjoint_of_nodup_append hnd (heq ▸ hi') List.mem_cons_self

/-! ### Writing -/

/-- **How the fields are written**, and the values for which they are left out. -/
structure StructWriter (D : StructDef ι) (T : ι → Type) where
  write : ∀ i, T i → Except JsonError JsonValue
  skip : ∀ i, T i → Bool

namespace StructWriter

variable {D : StructDef ι} (W : StructWriter D T)

/-- The members for some fields. -/
def membersOf (x : ∀ i, T i) : List ι → Except JsonError (List (String × JsonValue))
  | [] => .ok []
  | i :: is =>
    match W.write i (x i) with
    | .error e => .error e
    | .ok j => (membersOf x is).map (fun ms => (D.name i, j) :: ms)

/-- The fields that are written. -/
def kept (x : ∀ i, T i) : List ι := D.fields.filter (fun i => ! W.skip i (x i))

/-- The struct written. -/
def toJson (x : ∀ i, T i) : Except JsonError JsonValue := (W.membersOf x (W.kept x)).map JsonValue.obj

variable {W} {x : ∀ i, T i} {is : List ι} {ms : List (String × JsonValue)}

theorem membersOf_cons {i : ι} {j : JsonValue} (hj : W.write i (x i) = .ok j)
    (hms : W.membersOf x is = .ok ms) : W.membersOf x (i :: is) = .ok ((D.name i, j) :: ms) := by
  rw [membersOf, hj, hms]
  rfl

theorem membersOf_cons_eq_ok {i : ι} (h : W.membersOf x (i :: is) = .ok ms) :
    ∃ j ms', W.write i (x i) = .ok j ∧ W.membersOf x is = .ok ms' ∧ ms = (D.name i, j) :: ms' := by
  rw [membersOf] at h
  cases hj : W.write i (x i) with
  | error e =>
    rw [hj] at h
    cases h
  | ok j =>
    cases hms : W.membersOf x is with
    | error e =>
      rw [hj, hms] at h
      cases h
    | ok ms' =>
      rw [hj, hms] at h
      exact ⟨j, ms', rfl, rfl, (Except.ok.inj h).symm⟩

/-- The members under some names are those for the fields with these names. -/
theorem membersOf_filter (p : String → Bool) (hms : W.membersOf x is = .ok ms) :
    W.membersOf x (is.filter (fun i => p (D.name i))) = .ok (ms.filter (fun m => p m.1)) := by
  induction is generalizing ms with
  | nil =>
    obtain rfl : [] = ms := Except.ok.inj hms
    rfl
  | cons i is ih =>
    obtain ⟨j, ms', hj, hms', rfl⟩ := membersOf_cons_eq_ok hms
    by_cases hp : p (D.name i) = true
    · simpa [hp] using membersOf_cons hj (ih hms')
    · simpa [hp] using ih hms'

/-- **The members in another order** are those for the fields in another order. -/
theorem membersOf_perm {ms' : List (String × JsonValue)} (hms : W.membersOf x is = .ok ms)
    (hperm : ms.Perm ms') : ∃ is', is.Perm is' ∧ W.membersOf x is' = .ok ms' := by
  induction hperm generalizing is with
  | nil =>
    cases is with
    | nil => exact ⟨[], .refl [], rfl⟩
    | cons i is =>
      obtain ⟨j, ms', -, -, h⟩ := membersOf_cons_eq_ok hms
      cases h
  | cons m _ ih =>
    cases is with
    | nil => cases hms
    | cons i is =>
      obtain ⟨j, ms', hj, hms', heq⟩ := membersOf_cons_eq_ok hms
      obtain ⟨rfl, rfl⟩ := List.cons.inj heq
      obtain ⟨is', hperm', his'⟩ := ih hms'
      exact ⟨i :: is', hperm'.cons i, membersOf_cons hj his'⟩
  | swap m m' ms =>
    cases is with
    | nil => cases hms
    | cons i is =>
      obtain ⟨j, ms', hj, hms', heq⟩ := membersOf_cons_eq_ok hms
      obtain ⟨rfl, rfl⟩ := List.cons.inj heq
      cases is with
      | nil => cases hms'
      | cons i' is =>
        obtain ⟨j', ms'', hj', hms'', heq⟩ := membersOf_cons_eq_ok hms'
        obtain ⟨rfl, rfl⟩ := List.cons.inj heq
        exact ⟨i' :: i :: is, .swap i' i is, membersOf_cons hj' (membersOf_cons hj hms'')⟩
  | trans _ _ ih ih' =>
    obtain ⟨is', hperm', his'⟩ := ih hms
    obtain ⟨is'', hperm'', his''⟩ := ih' his'
    exact ⟨is'', hperm'.trans hperm'', his''⟩

end StructWriter

/-! ### Reading -/

/-- **How the fields are read**, and what they are when they are absent. A member for none
of the fields may be denied. -/
structure StructReader (D : StructDef ι) (T : ι → Type) where
  read : ∀ i, JsonValue → Except JsonError (T i)
  default : ∀ i, Option (T i)
  denyUnknown : Bool

namespace StructReader

variable {D : StructDef ι} (R : StructReader D T)

/-- What a slot holds, or the default. -/
def filled (slots : ∀ i, Option (T i)) (i : ι) : Option (T i) := (slots i).or (R.default i)

/-- The struct from its slots; the first field that is missing is reported. -/
def finish (slots : ∀ i, Option (T i)) : Except JsonError (∀ i, T i) :=
  match h : D.fields.find? (fun i => (R.filled slots i).isNone) with
  | some i => .error (.missingField (D.name i))
  | none => .ok (fun i => (R.filled slots i).get (by
      simpa [Option.isNone_iff_eq_none, Option.isSome_iff_ne_none] using
        List.find?_eq_none.mp h i (D.mem_fields i)))

/-- Slots that are filled, by themselves or by the defaults. -/
theorem finish_eq {R : StructReader D T} {x : ∀ i, T i} {slots : ∀ i, Option (T i)}
    (h : ∀ i, R.filled slots i = some (x i)) : R.finish slots = .ok x := by
  have hfind : D.fields.find? (fun i => (R.filled slots i).isNone) = none :=
    List.find?_eq_none.mpr (fun i _ => by simp [h i])
  unfold finish
  split
  · next i hi => simp [hfind] at hi
  · congr 1
    funext i
    simp [h i]

theorem filled_of_finish {R : StructReader D T} {x : ∀ i, T i} {slots : ∀ i, Option (T i)}
    (h : R.finish slots = .ok x) (i : ι) : R.filled slots i = some (x i) := by
  unfold finish at h
  split at h
  · cases h
  · rw [← Except.ok.inj h]
    simp

variable [DecidableEq ι]

/-- The members of an object, read into the slots of their fields. -/
def readMembers : (∀ i, Option (T i)) → List (String × JsonValue) → Except JsonError (∀ i, Option (T i))
  | slots, [] => .ok slots
  | slots, (k, j) :: ms =>
    match D.fields.find? (fun i => D.name i = k) with
    | none => if R.denyUnknown then .error (.unknownField k) else readMembers slots ms
    | some i =>
      if (slots i).isSome then .error (.duplicateField k)
      else
        match R.read i j with
        | .error e => .error e
        | .ok v => readMembers (Function.update slots i (some v)) ms

/-- The items of an array, read into the slots of the fields in their order. -/
def readItems : (∀ i, Option (T i)) → List ι → List JsonValue → Except JsonError (∀ i, Option (T i))
  | slots, [], [] => .ok slots
  | _, [], _ :: _ => .error .malformed
  | slots, i :: is, [] =>
    if (R.default i).isSome then readItems slots is [] else .error .invalidLength
  | slots, i :: is, j :: js =>
    match R.read i j with
    | .error e => .error e
    | .ok v => readItems (Function.update slots i (some v)) is js

/-- The struct read. -/
def fromJson : JsonValue → Except JsonError (∀ i, T i)
  | .obj ms => (R.readMembers (fun _ => none) ms).bind R.finish
  | .arr js => (R.readItems (fun _ => none) D.fields js).bind R.finish
  | _ => .error .invalidType

variable {R} {W : StructWriter D T} {x : ∀ i, T i} {slots : ∀ i, Option (T i)} {is : List ι}
  {ms : List (String × JsonValue)} {d : ℕ}

/-- **Members that were written are read** into the slots of their fields. -/
theorem readMembers_of_readsBack (hnd : is.Nodup) (hfree : ∀ i ∈ is, slots i = none)
    (h : ∀ i, JsonValue.ReadsBack (W.write i) (R.read i) (x i)) (hms : W.membersOf x is = .ok ms) :
    R.readMembers slots ms = .ok (fun i => if i ∈ is then some (x i) else slots i) := by
  induction is generalizing slots ms with
  | nil =>
    obtain rfl : [] = ms := Except.ok.inj hms
    simp [readMembers]
  | cons i is ih =>
    obtain ⟨hi, hnd'⟩ := List.nodup_cons.mp hnd
    obtain ⟨j, hj, hread⟩ := h i
    obtain ⟨j', ms', hj', hms', rfl⟩ := StructWriter.membersOf_cons_eq_ok hms
    obtain rfl : j = j' := Except.ok.inj (hj.symm.trans hj')
    -- the slots of the others are still free
    have hfree' : ∀ i' ∈ is, Function.update slots i (some (x i)) i' = none := fun i' hi' => by
      rw [Function.update_of_ne (ne_of_mem_of_not_mem hi' hi)]
      exact hfree i' (List.mem_cons_of_mem i hi')
    rw [readMembers, D.find?_name]
    dsimp only
    rw [hfree i List.mem_cons_self, hread]
    refine (ih hnd' hfree' hms').trans ?_
    congr 1
    funext i'
    by_cases heq : i' = i
    · subst heq
      simp [hi]
    · simp [heq]

/-- **An object with members for some of the fields**, in any order, is read as the struct
if the others have their defaults. -/
theorem read_obj_of_readsBack (hnd : is.Nodup)
    (h : ∀ i, JsonValue.ReadsBack (W.write i) (R.read i) (x i))
    (hdefault : ∀ i ∉ is, R.default i = some (x i)) (hms : W.membersOf x is = .ok ms) :
    R.fromJson (.obj ms) = .ok x := by
  show (R.readMembers (fun _ => none) ms).bind R.finish = .ok x
  rw [readMembers_of_readsBack hnd (fun _ _ => rfl) h hms]
  refine finish_eq (fun i => ?_)
  by_cases hi : i ∈ is
  · simp [filled, hi]
  · simp [filled, hi, hdefault i hi]

/-- **Unknown members are passed over** where they are not denied. -/
theorem readMembers_filter (hdeny : R.denyUnknown = false) :
    R.readMembers slots ms = R.readMembers slots (ms.filter (fun m => m.1 ∈ D.names)) := by
  induction ms generalizing slots with
  | nil => rfl
  | cons m ms ih =>
    obtain ⟨k, j⟩ := m
    by_cases hk : k ∈ D.names
    · obtain ⟨i, -, rfl⟩ := List.mem_map.mp hk
      rw [List.filter_cons_of_pos (by simpa using hk), readMembers, readMembers, D.find?_name]
      simp only [ih]
    · have hnone : D.fields.find? (fun i => D.name i = k) = none :=
        List.find?_eq_none.mpr (fun i hi h => hk (List.mem_map.mpr ⟨i, hi, of_decide_eq_true h⟩))
      rw [List.filter_cons_of_neg (by simpa using hk), readMembers, hnone]
      simpa [hdeny] using ih

/-- **The members that were written are read in any order**, and among any others. -/
theorem read_obj_of_perm (hdeny : R.denyUnknown = false) (hnd : is.Nodup)
    (h : ∀ i, JsonValue.ReadsBack (W.write i) (R.read i) (x i))
    (hdefault : ∀ i ∉ is, R.default i = some (x i)) (hms : W.membersOf x is = .ok ms)
    {ms' : List (String × JsonValue)} (hperm : (ms'.filter (fun m => m.1 ∈ D.names)).Perm ms) :
    R.fromJson (.obj ms') = .ok x := by
  obtain ⟨is', his, hms'⟩ := StructWriter.membersOf_perm hms hperm.symm
  have hread : R.fromJson (.obj (ms'.filter (fun m => m.1 ∈ D.names))) = .ok x :=
    read_obj_of_readsBack (his.nodup_iff.mp hnd) h
      (fun i hi => hdefault i (fun h => hi (his.mem_iff.mp h))) hms'
  show (R.readMembers (fun _ => none) ms').bind R.finish = .ok x
  rw [readMembers_filter hdeny]
  exact hread

theorem read_obj (hnd : is.Nodup) (h : ∀ i, JsonValue.RoundTrips (W.write i) (R.read i) d (x i))
    (hdefault : ∀ i ∉ is, R.default i = some (x i)) (hms : W.membersOf x is = .ok ms) :
    R.fromJson (.obj ms) = .ok x :=
  read_obj_of_readsBack hnd (fun i => (h i).readsBack) hdefault hms

/-! ### What is accepted -/

/-- Every slot that is filled holds what was read. -/
def Read (R : StructReader D T) (slots : ∀ i, Option (T i)) : Prop :=
  ∀ i v, slots i = some v → ∃ j, R.read i j = .ok v

theorem Read.update {i : ι} {v : T i} {j : JsonValue} (h : R.Read slots) (hv : R.read i j = .ok v) :
    R.Read (Function.update slots i (some v)) := by
  intro i' v' hv'
  by_cases heq : i' = i
  · subst heq
    rw [Function.update_self] at hv'
    exact ⟨j, Option.some.inj hv' ▸ hv⟩
  · rw [Function.update_of_ne heq] at hv'
    exact h i' v' hv'

theorem Read.readMembers {slots' : ∀ i, Option (T i)} (h : R.Read slots)
    (hread : R.readMembers slots ms = .ok slots') : R.Read slots' := by
  induction ms generalizing slots with
  | nil => exact Except.ok.inj hread ▸ h
  | cons m ms ih =>
    obtain ⟨k, j⟩ := m
    rw [StructReader.readMembers] at hread
    cases hfind : D.fields.find? (fun i => D.name i = k) with
    | none =>
      rw [hfind] at hread
      dsimp only at hread
      split at hread
      · cases hread
      · exact ih h hread
    | some i =>
      rw [hfind] at hread
      dsimp only at hread
      split at hread
      · cases hread
      · cases hv : R.read i j with
        | error e =>
          rw [hv] at hread
          cases hread
        | ok v =>
          rw [hv] at hread
          exact ih (h.update hv) hread

theorem Read.readItems {slots' : ∀ i, Option (T i)} {js : List JsonValue} (h : R.Read slots)
    (hread : R.readItems slots is js = .ok slots') : R.Read slots' := by
  induction is generalizing slots js with
  | nil =>
    cases js with
    | nil => exact Except.ok.inj hread ▸ h
    | cons j js => cases hread
  | cons i is ih =>
    cases js with
    | nil =>
      rw [StructReader.readItems] at hread
      split at hread
      · exact ih h hread
      · cases hread
    | cons j js =>
      rw [StructReader.readItems] at hread
      cases hv : R.read i j with
      | error e =>
        rw [hv] at hread
        cases hread
      | ok v =>
        rw [hv] at hread
        exact ih (h.update hv) hread

/-- **A struct that is accepted** has in each field what was read there, or the default. -/
theorem read_or_default {j : JsonValue} (h : R.fromJson j = .ok x) (i : ι) :
    (∃ j', R.read i j' = .ok (x i)) ∨ R.default i = some (x i) := by
  obtain ⟨slots, hslots, hfinish⟩ : ∃ slots, R.Read slots ∧ R.finish slots = .ok x := by
    have hnone : R.Read (fun _ => none) := fun i v hv => by cases hv
    cases j with
    | obj ms =>
      obtain ⟨slots, hms, hfinish⟩ := JsonValue.bind_eq_ok.mp h
      exact ⟨slots, hnone.readMembers hms, hfinish⟩
    | arr js =>
      obtain ⟨slots, hjs, hfinish⟩ := JsonValue.bind_eq_ok.mp h
      exact ⟨slots, hnone.readItems hjs, hfinish⟩
    | null => cases h
    | bool b => cases h
    | nat n => cases h
    | number literal => cases h
    | str s => cases h
  have hfilled := filled_of_finish hfinish i
  unfold filled at hfilled
  cases hs : slots i with
  | none =>
    rw [hs] at hfilled
    exact Or.inr hfilled
  | some v =>
    rw [hs] at hfilled
    exact Or.inl (Option.some.inj hfilled ▸ hslots i v hs)

end StructReader

/-! ### Round trips -/

/-- **A value that is left out is the default.** -/
def StructWriter.SkipsDefaults {D : StructDef ι} (W : StructWriter D T) (R : StructReader D T) : Prop :=
  ∀ i v, W.skip i v = true → R.default i = some v

namespace StructDef

variable {D : StructDef ι} {W : StructWriter D T} {R : StructReader D T} {x : ∀ i, T i} {d : ℕ}

theorem exists_membersOf (h : ∀ i, JsonValue.RoundTrips (W.write i) (R.read i) d (x i)) (is : List ι) :
    ∃ ms, W.membersOf x is = .ok ms ∧ ∀ m ∈ ms, m.2.Plain d := by
  induction is with
  | nil => exact ⟨[], rfl, by simp⟩
  | cons i is ih =>
    obtain ⟨ms, hms, hplain⟩ := ih
    obtain ⟨j, hj, -, hj'⟩ := h i
    exact ⟨(D.name i, j) :: ms, StructWriter.membersOf_cons hj hms, by simpa [hj'] using hplain⟩

/-- **A struct reads back** if its values do and what is left out is the default. Its members
may be in any order then, and among any others. -/
theorem readsBack [DecidableEq ι] (hdeny : R.denyUnknown = false) (hD : W.SkipsDefaults R)
    (h : ∀ i, JsonValue.ReadsBack (W.write i) (R.read i) (x i)) :
    ∃ ms, W.toJson x = .ok (.obj ms) ∧ R.fromJson (.obj ms) = .ok x
      ∧ ∀ ms' : List (String × JsonValue),
        (ms'.filter (fun m => m.1 ∈ D.names)).Perm ms → R.fromJson (.obj ms') = .ok x := by
  obtain ⟨ms, hms⟩ : ∃ ms, W.membersOf x (W.kept x) = .ok ms := by
    induction W.kept x with
    | nil => exact ⟨[], rfl⟩
    | cons i is ih =>
      obtain ⟨ms, hms⟩ := ih
      obtain ⟨j, hj, -⟩ := h i
      exact ⟨(D.name i, j) :: ms, StructWriter.membersOf_cons hj hms⟩
  have hdefault : ∀ i ∉ W.kept x, R.default i = some (x i) := fun i hi => hD i _ (by
    simpa [StructWriter.kept, D.mem_fields i] using hi)
  refine ⟨ms, ?_, R.read_obj_of_readsBack (D.nodup.filter _) h hdefault hms, fun ms' hperm =>
    R.read_obj_of_perm hdeny (D.nodup.filter _) h hdefault hms hperm⟩
  show (W.membersOf x (W.kept x)).map JsonValue.obj = _
  rw [hms]
  rfl

/-- **A struct round-trips** if its values do and what is left out is the default. -/
theorem roundTrips [DecidableEq ι] (hD : W.SkipsDefaults R)
    (h : ∀ i, JsonValue.RoundTrips (W.write i) (R.read i) d (x i)) :
    JsonValue.RoundTrips W.toJson R.fromJson (d + 1) x := by
  obtain ⟨ms, hms, hplain⟩ := exists_membersOf h (W.kept x)
  refine ⟨.obj ms, ?_, ?_, .obj hplain⟩
  · show (W.membersOf x (W.kept x)).map JsonValue.obj = _
    rw [hms]
    rfl
  · refine R.read_obj (D.nodup.filter _) h (fun i hi => hD i _ ?_) hms
    simpa [StructWriter.kept, D.mem_fields i] using hi

end StructDef
