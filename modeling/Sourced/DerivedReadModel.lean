import Sourced.DerivedSnapshot
import Sourced.ReadModelCollections
import Mathlib

/-!
# `#[derive(ReadModel)]`

The macro gives a struct a collection and an id (`sourced_rust_macros/src/read_model.rs`):
the collection is a string in its attribute or, by default, its name in snake case and
an `s`; the id is the field marked so or, by default, the field `id`.

In snake case an underscore stands before a letter that was in upper case, and for an
underscore. So the default collections of `AB` and `A_b` are the same string. Of
names in camel case they are different, and none has a colon in it; and so the models of
derived types are kept apart exactly where the types have different names
(`DerivedModels.isolated_iff_names`).
-/

open ReadModelCall (Extends Isolated)

/-! ## Snake case -/

/-- **Upper and lower case** of characters, as the standard library has them. -/
structure CaseMap where
  isUppercase : Char → Bool
  /-- The first character of `to_lowercase`. -/
  lower : Char → Char

namespace CaseMap

/-- **ASCII letters have their own lower case.** -/
structure Ascii (U : CaseMap) : Prop where
  isUppercase : ∀ c : Char, c.isAlphanum = true → U.isUppercase c = c.isUpper
  lower : ∀ c : Char, c.isUpper = true → U.lower c = c.toLower

/-- The case of ASCII letters. -/
def ascii : CaseMap := ⟨Char.isUpper, Char.toLower⟩

theorem ascii_ascii : ascii.Ascii := ⟨fun _ _ => rfl, fun _ _ => rfl⟩

variable (U : CaseMap)

/-- What `to_snake_case` pushes for a character, after another. -/
def snakeChar (ch : Char) : List Char := if U.isUppercase ch then ['_', U.lower ch] else [ch]

/-- **`to_snake_case`.** -/
def toSnakeCase (s : String) : String :=
  String.ofList (s.toList.zipIdx.flatMap (fun (ch, i) =>
    if U.isUppercase ch then (if i > 0 then ['_', U.lower ch] else [U.lower ch]) else [ch]))

end CaseMap

/-! ## The macro -/

/-- **`DeriveInput`**, with the name of the struct. -/
structure NamedInput (T : FieldTypes) extends DeriveInput T where
  ident : String

/-- The closure of `extract_collection`. -/
def collectionMeta (collection : Option String) (entry : NestedMeta) : Option String × Bool :=
  if entry.path = "collection" then
    match entry.arg with
    | .lit value => (some value, true)
    | _ => (collection, false)
  else (collection, decide (entry.arg = .nothing))

/-- The collection in the attributes: the last of the first attribute with one. -/
def attrCollection (attrs : List Attribute) : Option String :=
  attrs.findSome? (fun attr =>
    if attr.path = "readmodel" then parseNestedMeta collectionMeta none attr.metas else none)

/-- Whether an attribute marks the id. -/
def marksId (attr : Attribute) : Bool :=
  decide (attr.path = "readmodel")
    && parseNestedMeta (fun isId entry => (isId || decide (entry.path = "id"),
        decide (entry.arg = .nothing))) false attr.metas

namespace NamedInput

variable {T : FieldTypes} (U : CaseMap) (d : NamedInput T)

/-- **`extract_collection`.** -/
def extractCollection : String := (attrCollection d.attrs).getD (U.toSnakeCase d.ident ++ "s")

/-- **`extract_id_field`.** -/
def extractIdField : Except String String :=
  match d.data with
  | .structNamed fields =>
    match fields.find? (fun f => f.attrs.any marksId) with
    | some f => .ok f.ident
    | none =>
      match fields.find? (fun f => decide (f.ident = "id")) with
      | some f => .ok f.ident
      | none => .error "ReadModel derive: no field marked with #[readmodel(id)] and no field named `id`"
  | _ => .error "ReadModel derive: no field marked with #[readmodel(id)] and no field named `id`"

end NamedInput

/-- **The read models of a program that are derived**: the declaration of each type, which
the macro accepts, and its serializer. -/
structure DerivedModels (T : FieldTypes) where
  Index : Type
  input : Index → NamedInput T
  idField : Index → String
  accepted : ∀ i, (input i).extractIdField = .ok (idField i)
  toVec : Index → (String → T.Value) → Except String Bytes
  fromSlice : Index → Bytes → Except String (String → T.Value)

/-- **What the macro generates**, for each type. -/
def DerivedModels.types {T : FieldTypes} (D : DerivedModels T) (U : CaseMap) : ModelTypes where
  Index := D.Index
  Model _ := String → T.Value
  type i :=
    { collection := (D.input i).extractCollection U
      id := fun model => T.asString (model (D.idField i))
      toVec := D.toVec i
      fromSlice := D.fromSlice i }

/-! ## Names in camel case -/

/-- **A name in camel case**: ASCII letters and digits, the first an upper case letter. -/
def isCamelCase (s : String) : Bool := s.toList.head?.any Char.isUpper && s.toList.all Char.isAlphanum

namespace CaseMap

variable {U : CaseMap}

theorem toLower_injective {a b : Char} (ha : a.isUpper = true) (hb : b.isUpper = true)
    (h : a.toLower = b.toLower) : a = b := by
  have hback : ∀ {c : Char}, c.isUpper = true → c.toLower.toUpper = c := fun {c} hc => by
    rw [Char.toUpper_toLower_eq_toUpper, Char.toUpper_eq_of_not_isLower (Char.not_isLower_of_isUpper hc)]
  rw [← hback ha, h, hback hb]

theorem ne_of_isAlphanum {c : Char} (h : c.isAlphanum = true) : c ≠ '_' ∧ c ≠ ':' := by
  constructor <;> rintro rfl <;> exact absurd h (by decide)

/-- After its first character, a name is put in snake case one character after the other. -/
theorem toList_toSnakeCase {s : String} {a : Char} {l : List Char} (h : s.toList = a :: l)
    (ha : U.isUppercase a = true) : (U.toSnakeCase s).toList = U.lower a :: l.flatMap U.snakeChar := by
  have hrest : ∀ n, (l.zipIdx (n + 1)).flatMap (fun (ch, i) =>
      if U.isUppercase ch then (if i > 0 then ['_', U.lower ch] else [U.lower ch]) else [ch])
        = l.flatMap U.snakeChar := by
    clear h
    induction l with
    | nil => simp
    | cons b l ih =>
      intro n
      rw [List.zipIdx_cons, List.flatMap_cons, List.flatMap_cons, ih (n + 1)]
      simp [snakeChar]
  rw [toSnakeCase, h, String.toList_ofList, List.zipIdx_cons, List.flatMap_cons, hrest 0]
  simp [ha]

theorem Ascii.snakeChar_eq (hU : U.Ascii) {c : Char} (hc : c.isAlphanum = true) :
    U.snakeChar c = if c.isUpper then ['_', c.toLower] else [c] := by
  rw [snakeChar, hU.isUppercase c hc]
  by_cases hupper : c.isUpper = true
  · simp [hupper, hU.lower c hupper]
  · simp [hupper]

/-- **Snake case can be read back** where there is no underscore. -/
theorem Ascii.flatMap_snakeChar_injective (hU : U.Ascii) {l l' : List Char}
    (hl : ∀ c ∈ l, c.isAlphanum = true) (hl' : ∀ c ∈ l', c.isAlphanum = true)
    (h : l.flatMap U.snakeChar = l'.flatMap U.snakeChar) : l = l' := by
  have hne : ∀ c, U.snakeChar c ≠ [] := fun c => by
    unfold snakeChar
    split <;> simp
  induction l generalizing l' with
  | nil =>
    cases l' with
    | nil => rfl
    | cons b l' => exact absurd (List.append_eq_nil_iff.mp h.symm).1 (hne b)
  | cons a l ih =>
    cases l' with
    | nil => exact absurd (List.append_eq_nil_iff.mp h).1 (hne a)
    | cons b l' =>
      obtain ⟨ha, hl⟩ := List.forall_mem_cons.mp hl
      obtain ⟨hb, hl'⟩ := List.forall_mem_cons.mp hl'
      rw [List.flatMap_cons, List.flatMap_cons, hU.snakeChar_eq ha, hU.snakeChar_eq hb] at h
      -- what is pushed for an upper case letter starts with an underscore, and nothing else does
      by_cases hupper : a.isUpper = true <;> by_cases hupper' : b.isUpper = true
      · simp only [hupper, hupper', if_true, List.cons_append, List.nil_append, List.cons.injEq] at h
        rw [toLower_injective hupper hupper' h.2.1, ih hl hl' h.2.2]
      · simp [hupper, hupper'] at h
        exact absurd h.1.symm (ne_of_isAlphanum hb).1
      · simp [hupper, hupper'] at h
        exact absurd h.1 (ne_of_isAlphanum ha).1
      · simp [hupper, hupper'] at h
        rw [h.1, ih hl hl' h.2]

end CaseMap

theorem exists_of_isCamelCase {s : String} (h : isCamelCase s = true) : ∃ a l, s.toList = a :: l
    ∧ a.isUpper = true ∧ a.isAlphanum = true ∧ ∀ c ∈ l, c.isAlphanum = true := by
  unfold isCamelCase at h
  cases hs : s.toList with
  | nil => simp [hs] at h
  | cons a l =>
    simp only [hs, List.head?_cons, Option.any_some, List.all_cons, Bool.and_eq_true, List.all_eq_true] at h
    exact ⟨a, l, rfl, h.1, h.2.1, h.2.2⟩

namespace CaseMap.Ascii

variable {U : CaseMap} (hU : U.Ascii) {s s' : String}

include hU

/-- **Names in camel case have different names in snake case.** -/
theorem toSnakeCase_injective (hs : isCamelCase s = true) (hs' : isCamelCase s' = true)
    (h : U.toSnakeCase s = U.toSnakeCase s') : s = s' := by
  obtain ⟨a, l, hal, ha, ha', hl⟩ := exists_of_isCamelCase hs
  obtain ⟨b, l', hbl, hb, hb', hl'⟩ := exists_of_isCamelCase hs'
  have hlist := congrArg String.toList h
  rw [toList_toSnakeCase hal ((hU.isUppercase a ha').trans ha),
    toList_toSnakeCase hbl ((hU.isUppercase b hb').trans hb), hU.lower a ha, hU.lower b hb] at hlist
  obtain ⟨hhead, htail⟩ := List.cons.inj hlist
  refine String.toList_inj.mp ?_
  rw [hal, hbl, toLower_injective ha hb hhead, hU.flatMap_snakeChar_injective hl hl' htail]

/-- **There is no colon in it.** -/
theorem colon_notMem (hs : isCamelCase s = true) : ':' ∉ (U.toSnakeCase s).toList := by
  obtain ⟨a, l, hal, ha, ha', hl⟩ := exists_of_isCamelCase hs
  have hlower : ∀ {c : Char}, c.isUpper = true → ':' ≠ c.toLower := fun {c} hc => by
    have halnum : c.toLower.isAlphanum = true := by simp [Char.isAlphanum, Char.isAlpha, hc]
    exact (ne_of_isAlphanum halnum).2.symm
  rw [toList_toSnakeCase hal ((hU.isUppercase a ha').trans ha), hU.lower a ha, List.mem_cons, not_or,
    List.mem_flatMap]
  refine ⟨hlower ha, ?_⟩
  rintro ⟨c, hc, hmem⟩
  rw [hU.snakeChar_eq (hl c hc)] at hmem
  by_cases hupper : c.isUpper = true
  · simp [hupper, hlower hupper] at hmem
  · simp [hupper] at hmem
    exact (ne_of_isAlphanum (hl c hc)).2 hmem.symm

end CaseMap.Ascii

/-! ## Collections of derived types -/

namespace DerivedModels

variable {T : FieldTypes} {D : DerivedModels T} {U : CaseMap} {checks : OverflowChecks}

/-- **A default collection of a name in camel case extends no other**, nor is it extended. -/
theorem not_extends (hU : U.Ascii) {d : NamedInput T} (hattrs : attrCollection d.attrs = none)
    (hident : isCamelCase d.ident = true) (collection : String) :
    ¬ Extends collection (d.extractCollection U) := by
  intro h
  have hcolon : ':' ∈ (d.extractCollection U).toList := h.subset (by simp)
  rw [NamedInput.extractCollection, hattrs, Option.getD_none, String.toList_append, List.mem_append] at hcolon
  cases hcolon with
  | inl h => exact hU.colon_notMem hident h
  | inr h => exact absurd h (by decide)

/-- **Derived types are kept apart exactly where their names differ.** Of any program's
derived read models, two types with names in camel case and no collection in their
attributes are isolated – no call at the one that returns changes what is read of the
other, no search of the one finds what was stored under the other, whatever calls came
before, and no lock is shared – if and only if they have different names. -/
theorem isolated_iff_names (hU : U.Ascii) {i j : D.Index}
    (hi : attrCollection (D.input i).attrs = none) (hj : attrCollection (D.input j).attrs = none)
    (hi' : isCamelCase (D.input i).ident = true) (hj' : isCamelCase (D.input j).ident = true) :
    Isolated (F := D.types U) checks i j ↔ (D.input i).ident ≠ (D.input j).ident := by
  constructor
  · intro hisolated heq
    have hcollection : (D.input i).extractCollection U = (D.input j).extractCollection U := by
      rw [NamedInput.extractCollection, NamedInput.extractCollection, hi, hj, heq]
    refine hisolated.locks "" "" ?_
    show InMemoryReadModelStore.makeKey _ _ = InMemoryReadModelStore.makeKey _ _
    exact congrArg (fun c => InMemoryReadModelStore.makeKey c "") hcollection
  · intro hne
    refine ReadModelCall.isolated_of_apart (F := D.types U) (fun hcollection => hne ?_)
      (not_extends hU hj hj' _) (not_extends hU hi hi' _)
    have hsnake : (D.input i).extractCollection U = (D.input j).extractCollection U := hcollection
    rw [NamedInput.extractCollection, NamedInput.extractCollection, hi, hj] at hsnake
    exact hU.toSnakeCase_injective hi' hj' ((String.append_left_inj "s").mp hsnake)

/-- A text as its codes. -/
def codes (text : String) : Bytes := text.toList.map (fun c => c.toNat.toUInt8)

/-- The text of some codes. -/
def text (bytes : Bytes) : String := String.ofList (bytes.map (fun b => Char.ofNat b.toNat))

/-- A view with two fields. -/
def view (key id : String) : String → DeriveInput.basicTypes.Value :=
  fun n => if n = "key" then .inl key else if n = "id" then .inl id else .inl ""

/-- The views of a game and of a player, whose ids are marked; their two fields are written
one after the other, with a byte between them that is no code. -/
def gameViews : DerivedModels DeriveInput.basicTypes where
  Index := Bool
  input player := { attrs := [], data := .structNamed [⟨"key", [⟨"readmodel", [⟨"id", .nothing⟩]⟩], "String"⟩,
    ⟨"id", [], "String"⟩], ident := if player then "PlayerView" else "GameView" }
  idField _ := "key"
  accepted _ := rfl
  toVec _ model := .ok (codes (DeriveInput.basicTypes.asString (model "key"))
    ++ 255 :: codes (DeriveInput.basicTypes.asString (model "id")))
  fromSlice _ bytes :=
    if 255 ∈ bytes then
      .ok (view (text (bytes.takeWhile (fun b => b != 255)))
        (text ((bytes.dropWhile (fun b => b != 255)).drop 1)))
    else .error "EOF while parsing a value"

/-- They are `game_views` and `player_views`, and are kept apart: of a game and a player written
under one id, each is read as it was written. -/
theorem isolated_iff_names_views :
    ((gameViews.input false).extractCollection .ascii, (gameViews.input true).extractCollection .ascii)
        = ("game_views", "player_views")
      ∧ Isolated (F := gameViews.types .ascii) true false true
      ∧ ∃ s : InMemoryReadModelStore,
        ReadModelStore.getModel ((gameViews.types .ascii).type false) "42" s = .ok (some ⟨view "42" "open", 1⟩)
        ∧ ReadModelStore.getModel ((gameViews.types .ascii).type true) "42" s
          = .ok (some ⟨view "42" "alice", 1⟩) := by
  have hiff : Isolated (F := gameViews.types .ascii) true false true ↔ _ :=
    isolated_iff_names (D := gameViews) (i := false) (j := true) CaseMap.ascii_ascii rfl rfl (by decide)
      (by decide)
  let s := ReadModelCall.next true (.upsert (F := gameViews.types .ascii) (i := true) (view "42" "alice"))
    (ReadModelCall.next true (.upsert (F := gameViews.types .ascii) (i := false) (view "42" "open")) .new)
  exact ⟨by decide, hiff.mpr (by decide), s, rfl, rfl⟩

/-- Two names that are not both in camel case, in one snake case. -/
example : CaseMap.ascii.toSnakeCase "AB" = CaseMap.ascii.toSnakeCase "A_b" := by decide

end DerivedModels
