import Sourced.SnapshotRepository

/-!
# `#[derive(Snapshot)]`

The macro reads the declaration of an aggregate's struct, and generates a
struct for its snapshots and the two methods of `Snapshottable`
(`sourced_rust_macros/src/snapshot.rs`). The snapshot has the fields of the
aggregate but its entity and those with `#[serde(skip)]`; and of the id the
entity is given on restoring, there are three sources: a field named by
`#[snapshot(id = "..")]`, a field that happens to be called `id`, or, where
there is neither, a field `id` made for it, which takes the id of the entity.

Here the macro is a function on declarations, and what it generates
(`Expanded`) has its meaning on aggregates (`Expanded.createSnapshot`,
`Expanded.restoreFromSnapshot`). Only a field made for it is sure to hold the
entity's id. `DeriveInput.derived_round_trip` says what a snapshot gives back
in each case.

The own fields of an aggregate are a function on names, of which the struct
declares some.
-/

/-! ## Declarations -/

/-- **The types of fields**, with their values: strings, and those a `String`
can be made of. -/
structure FieldTypes where
  Ty : Type
  Value : Type
  /-- `impl Into<String>` for references to values of a type, where there is one. -/
  into : Ty → Option (Value → String)
  string : Ty
  ofString : String → Value
  asString : Value → String
  into_string : into string = some asString
  asString_ofString : ∀ s, asString (ofString s) = s

/-- What follows the path of an entry in an attribute's list. -/
inductive MetaArg where
  | nothing
  /-- `= ".."`, a string literal. -/
  | lit (s : String)
  | other
deriving DecidableEq

/-- An entry of an attribute's list. -/
structure NestedMeta where
  path : String
  arg : MetaArg

/-- An attribute; one without a list has no entries. -/
structure Attribute where
  path : String
  metas : List NestedMeta

/-- A named field. -/
structure NamedField (T : FieldTypes) where
  ident : String
  attrs : List Attribute
  ty : T.Ty

/-- `syn::Data`. -/
inductive DeriveData (T : FieldTypes) where
  | structNamed (fields : List (NamedField T))
  /-- A struct with a tuple of fields, or with none. -/
  | structOther
  | notStruct

/-- **`DeriveInput`**, the declaration the macro reads. -/
structure DeriveInput (T : FieldTypes) where
  attrs : List Attribute
  data : DeriveData T

/-! ## The attributes -/

/-- **`parse_nested_meta`**: the entries one after the other, to the first the
closure rejects, or does not read to its end. The closure says whether it did. -/
def parseNestedMeta {S : Type} (logic : S → NestedMeta → S × Bool) : S → List NestedMeta → S
  | s, [] => s
  | s, entry :: entries =>
    if (logic s entry).2 then parseNestedMeta logic (logic s entry).1 entries
    else (logic s entry).1

/-- The closure of `parse_struct_attrs`; its errors are dropped. -/
def structMeta (names : String × Option String) (entry : NestedMeta) :
    (String × Option String) × Bool :=
  if entry.path = "entity" then
    match entry.arg with
    | .lit value => ((value, names.2), true)
    | _ => (names, false)
  else if entry.path = "id" then
    match entry.arg with
    | .lit value => ((names.1, some value), true)
    | _ => (names, false)
  else (names, decide (entry.arg = .nothing))

/-- **`parse_struct_attrs`**: the name of the entity field, and the custom id. -/
def parseStructAttrs (attrs : List Attribute) : String × Option String :=
  attrs.foldl (fun names attr =>
    if attr.path = "snapshot" then parseNestedMeta structMeta names attr.metas else names)
    ("entity", none)

/-- **`has_serde_skip`.** -/
def hasSerdeSkip (attrs : List Attribute) : Bool :=
  attrs.any (fun attr => decide (attr.path = "serde")
    && parseNestedMeta (fun found entry =>
        (found || decide (entry.path = "skip"), decide (entry.arg = .nothing))) false attr.metas)

/-! ## The generated code -/

/-- The right side of a generated assignment. -/
inductive Source where
  /-- `self.entity.id().to_string()`. -/
  | entityId
  /-- `self.n.clone()`. -/
  | clone (n : String)
deriving DecidableEq

/-- **What the macro generates**: the fields of the snapshot's struct, the
assignments of `snapshot()`, the fields that `restore_from_snapshot` assigns,
and the field it takes the id from. -/
structure Expanded (T : FieldTypes) where
  structFieldDefs : List (String × T.Ty)
  fieldAssignments : List (String × Source)
  restoreAssignments : List String
  idFieldName : String

namespace DeriveInput

variable {T : FieldTypes} (d : DeriveInput T)

/-- The name of the entity field. -/
def entityField : String := (parseStructAttrs d.attrs).1

/-- The custom id. -/
def customId : Option String := (parseStructAttrs d.attrs).2

/-- The fields, where they have names; else the macro panics. -/
def namedFields : Except String (List (NamedField T)) :=
  match d.data with
  | .structNamed fields => .ok fields
  | .structOther => .error "Snapshot derive only supports structs with named fields"
  | .notStruct => .error "Snapshot derive only supports structs"

/-- `snapshot_fields`. -/
def snapshotFields (fields : List (NamedField T)) : List (String × T.Ty) :=
  (fields.filter (fun f => decide (f.ident ≠ d.entityField) && !hasSerdeSkip f.attrs)).map
    (fun f => (f.ident, f.ty))

/-- `id_field_name`. -/
def idFieldName : String := d.customId.getD "id"

/-- **Whether the id is a field of the aggregate**, and none is made for it. -/
def hasOwnId (fields : List (String × T.Ty)) : Bool :=
  d.customId.isSome || fields.any (fun f => decide (f.1 = d.idFieldName))

/-- **`derive_snapshot`.** -/
def deriveSnapshot : Except String (Expanded T) := do
  let fields ← d.namedFields
  let snapshotFields := d.snapshotFields fields
  let cloned := snapshotFields.map (fun f => (f.1, Source.clone f.1))
  return {
    structFieldDefs :=
      if d.hasOwnId snapshotFields then snapshotFields else ("id", T.string) :: snapshotFields
    fieldAssignments :=
      if d.hasOwnId snapshotFields then cloned else ("id", .entityId) :: cloned
    restoreAssignments := snapshotFields.map Prod.fst
    idFieldName := d.idFieldName }

end DeriveInput

/-! ## Its meaning -/

/-- The value a generated assignment takes from an aggregate. -/
def Source.eval {T : FieldTypes} (a : Agg (String → T.Value)) : Source → T.Value
  | .entityId => T.ofString a.entity.id
  | .clone n => a.fields n

namespace Expanded

variable {T : FieldTypes} (X : Expanded T)

/-- A value of the snapshot's struct. -/
abbrev Snapshot (T : FieldTypes) := List (String × T.Value)

/-- `snapshot`. -/
def snapshot (a : Agg (String → T.Value)) : Snapshot T :=
  X.fieldAssignments.map (fun f => (f.1, f.2.eval a))

/-- **`create_snapshot`.** -/
def createSnapshot (a : Agg (String → T.Value)) : Snapshot T := X.snapshot a

/-- `self.n = snapshot.n`. -/
def assign (s : Snapshot T) (agg : Agg (String → T.Value)) (n : String) :
    Option (Agg (String → T.Value)) := do
  let value ← s.lookup n
  return { agg with fields := Function.update agg.fields n value }

/-- **`restore_from_snapshot`**; `none` where the code does not compile. -/
def restoreFromSnapshot (agg : Agg (String → T.Value)) (s : Snapshot T) :
    Option (Agg (String → T.Value)) := do
  let idValue ← s.lookup X.idFieldName
  let ty ← X.structFieldDefs.lookup X.idFieldName
  let into ← T.into ty
  let agg ← X.restoreAssignments.foldlM (assign s) agg
  return { agg with entity := agg.entity.setId (into idValue) }

/-- **The generated code compiles**, as far as the id goes: the snapshot has the
field, and a `String` can be made of it. -/
def Compiles (into : T.Value → String) : Prop :=
  ∃ ty, X.structFieldDefs.lookup X.idFieldName = some ty ∧ T.into ty = some into

/-- The generated implementation of the trait. -/
def snapshottable (codec : SnapshotCodec (Snapshot T)) : Snapshottable (String → T.Value) where
  Snapshot := Snapshot T
  codec := codec
  createSnapshot := X.createSnapshot
  restoreFromSnapshot agg s := (X.restoreFromSnapshot agg s).getD agg

end Expanded

/-! ## The round trip -/

namespace Expanded

variable {T : FieldTypes} {X : Expanded T} {s : Snapshot T} {names : List String}

/-- **The assignments** give the fields they name the values of the snapshot. -/
theorem foldlM_assign (v : String → T.Value) (h : ∀ n ∈ names, s.lookup n = some (v n))
    (agg : Agg (String → T.Value)) :
    names.foldlM (assign s) agg
      = some { agg with fields := fun n => if n ∈ names then v n else agg.fields n } := by
  induction names generalizing agg with
  | nil => rfl
  | cons n names ih =>
    have hn : assign s agg n = some { agg with fields := Function.update agg.fields n (v n) } := by
      unfold assign
      rw [h n List.mem_cons_self]
      rfl
    rw [List.foldlM_cons, hn]
    refine (ih (fun m hm => h m (List.mem_cons_of_mem n hm)) _).trans ?_
    congr 2
    funext m
    by_cases hm : m ∈ names
    · rw [if_pos hm, if_pos (List.mem_cons_of_mem n hm)]
    · rw [if_neg hm]
      by_cases hmn : m = n
      · rw [hmn, if_pos List.mem_cons_self]
        exact Function.update_self ..
      · rw [if_neg (fun hmem => (List.mem_cons.mp hmem).elim hmn hm)]
        exact Function.update_of_ne hmn ..

end Expanded

namespace DeriveInput

variable {T : FieldTypes} {d : DeriveInput T} {X : Expanded T} {into : T.Value → String}

/-- **The id an aggregate has on its snapshots**: the value of the field that is
its id, or the id of its entity. -/
def snapshotId (d : DeriveInput T) (fields : List (NamedField T)) (into : T.Value → String)
    (a : Agg (String → T.Value)) : String :=
  if d.hasOwnId (d.snapshotFields fields) then into (a.fields d.idFieldName) else a.entity.id

variable {fields : List (NamedField T)}

/-- The expansion, where the fields have names. -/
theorem deriveSnapshot_eq (hfields : d.namedFields = .ok fields) (hX : d.deriveSnapshot = .ok X) :
    X = { structFieldDefs :=
            if d.hasOwnId (d.snapshotFields fields) then d.snapshotFields fields
            else ("id", T.string) :: d.snapshotFields fields
          fieldAssignments :=
            if d.hasOwnId (d.snapshotFields fields)
            then (d.snapshotFields fields).map (fun f => (f.1, .clone f.1))
            else ("id", .entityId) :: (d.snapshotFields fields).map (fun f => (f.1, .clone f.1))
          restoreAssignments := (d.snapshotFields fields).map Prod.fst
          idFieldName := d.idFieldName } := by
  unfold deriveSnapshot at hX
  rw [hfields] at hX
  exact (Except.ok.inj hX).symm

theorem lookup_cloned (fields : List (String × T.Ty)) (a : Agg (String → T.Value)) {n : String}
    (hn : n ∈ fields.map Prod.fst) :
    ((fields.map (fun f => (f.1, Source.clone f.1))).map (fun f => (f.1, f.2.eval a))).lookup n
      = some (a.fields n) := by
  have hgraph := List.lookup_graph a.fields hn
  rw [List.map_map] at hgraph ⊢
  exact hgraph

/-- Without an id of its own no field of the snapshot is called `id`. -/
theorem id_notMem (hown : d.hasOwnId (d.snapshotFields fields) = false) :
    d.idFieldName = "id" ∧ "id" ∉ (d.snapshotFields fields).map Prod.fst := by
  obtain ⟨hcustom, hany⟩ := Bool.or_eq_false_iff.mp hown
  have hid : d.idFieldName = "id" := by
    rw [idFieldName, Option.not_isSome_iff_eq_none.mp (Bool.eq_false_iff.mp hcustom)]
    rfl
  refine ⟨hid, fun hmem => ?_⟩
  obtain ⟨f, hf, hname⟩ := List.mem_map.mp hmem
  exact List.any_eq_false.mp hany f hf (decide_eq_true (hname.trans hid.symm))

/-- With one, the generated code compiles only where it is on the snapshots. -/
theorem idFieldName_mem (hfields : d.namedFields = .ok fields) (hX : d.deriveSnapshot = .ok X)
    (hinto : X.Compiles into) (hown : d.hasOwnId (d.snapshotFields fields) = true) :
    d.idFieldName ∈ (d.snapshotFields fields).map Prod.fst := by
  obtain rfl := deriveSnapshot_eq hfields hX
  obtain ⟨ty, hty, -⟩ := hinto
  simp only [if_pos hown] at hty
  obtain ⟨l, l', hl, -⟩ := List.lookup_eq_some_iff.mp hty
  rw [hl, List.map_append, List.map_cons]
  exact List.mem_append_right _ List.mem_cons_self

/-- **A snapshot created** has the fields that are assigned on restoring. -/
theorem lookup_createSnapshot (hfields : d.namedFields = .ok fields)
    (hX : d.deriveSnapshot = .ok X) (a : Agg (String → T.Value)) {n : String}
    (hn : n ∈ X.restoreAssignments) : (X.createSnapshot a).lookup n = some (a.fields n) := by
  obtain rfl := deriveSnapshot_eq hfields hX
  unfold Expanded.createSnapshot Expanded.snapshot
  by_cases hown : d.hasOwnId (d.snapshotFields fields)
  · simp only [if_pos hown]
    exact lookup_cloned _ a hn
  · simp only [if_neg hown]
    have hne : n ≠ "id" := fun heq =>
      (id_notMem (Bool.eq_false_iff.mpr hown)).2 (heq ▸ hn)
    rw [List.map_cons, List.lookup_cons, beq_false_of_ne hne]
    exact lookup_cloned _ a hn

/-- **The id on a snapshot created.** -/
theorem lookup_id_createSnapshot (hfields : d.namedFields = .ok fields)
    (hX : d.deriveSnapshot = .ok X) (hinto : X.Compiles into) (a : Agg (String → T.Value)) :
    ∃ idValue, (X.createSnapshot a).lookup X.idFieldName = some idValue
      ∧ into idValue = d.snapshotId fields into a := by
  by_cases hown : d.hasOwnId (d.snapshotFields fields)
  · have hid := idFieldName_mem hfields hX hinto hown
    obtain rfl := deriveSnapshot_eq hfields hX
    unfold Expanded.createSnapshot Expanded.snapshot snapshotId
    simp only [if_pos hown]
    exact ⟨_, lookup_cloned _ a hid, rfl⟩
  · obtain rfl := deriveSnapshot_eq hfields hX
    obtain ⟨ty, hty, hinto⟩ := hinto
    unfold Expanded.createSnapshot Expanded.snapshot snapshotId
    simp only [if_neg hown] at hty ⊢
    rw [(id_notMem (Bool.eq_false_iff.mpr hown)).1] at hty ⊢
    rw [List.lookup_cons_self] at hty
    obtain rfl := Option.some.inj hty
    refine ⟨T.ofString a.entity.id, List.lookup_cons_self, ?_⟩
    obtain rfl : T.asString = into := Option.some.inj (T.into_string.symm.trans hinto)
    exact T.asString_ofString _

/-- **A snapshot restored**: the fields it has are those it was taken of, and
the entity is given the id on it. -/
theorem restore_createSnapshot (hfields : d.namedFields = .ok fields)
    (hX : d.deriveSnapshot = .ok X) (hinto : X.Compiles into) (agg a : Agg (String → T.Value)) :
    X.restoreFromSnapshot agg (X.createSnapshot a)
      = some ⟨fun n => if n ∈ X.restoreAssignments then a.fields n else agg.fields n,
          agg.entity.setId (d.snapshotId fields into a)⟩ := by
  obtain ⟨idValue, hidValue, hid⟩ := lookup_id_createSnapshot hfields hX hinto a
  obtain ⟨ty, hty, hinto⟩ := hinto
  unfold Expanded.restoreFromSnapshot
  rw [hidValue, hty, Expanded.foldlM_assign a.fields
    (fun n hn => lookup_createSnapshot hfields hX a hn) agg]
  simp only [Option.bind_eq_bind, Option.bind_some, hinto, hid]
  rfl

/-- **An aggregate loaded from a snapshot** that no event follows has the id on
the snapshot, whatever entity it was loaded with; under this id it is
committed, and its stream unlocked. -/
theorem hydrateFromSnapshot_derived (hfields : d.namedFields = .ok fields)
    (hX : d.deriveSnapshot = .ok X) (hinto : X.Compiles into) {codec : SnapshotCodec (Expanded.Snapshot T)}
    (hlawful : codec.Lawful) (A : Aggregate (String → T.Value)) (now : SystemTime) {e : Entity}
    {r : SnapshotRecord} {a : Agg (String → T.Value)}
    (hdata : codec.serialize (X.createSnapshot a) = .ok r.data)
    (hevents : ∀ x ∈ e.events, x.sequence ≤ r.version) :
    ∃ b, A.hydrateFromSnapshot (X.snapshottable codec) now e r = .ok b
      ∧ b.entity.id = d.snapshotId fields into a ∧ b.entity.events = e.events := by
  have hdecode : (X.snapshottable codec).codec.deserialize r.data = .ok (X.createSnapshot a) :=
    hlawful _ _ hdata
  have hpost : e.events.filter (fun x => decide (r.version < x.sequence)) = [] :=
    List.filter_eq_nil_iff.mpr (fun x hx h => absurd (of_decide_eq_true h) (hevents x hx).not_gt)
  let agg : Agg (String → T.Value) := ⟨A.default, e.setSnapshotVersion r.version⟩
  have hrestore : (X.snapshottable codec).restoreFromSnapshot agg (X.createSnapshot a) = _ :=
    congrArg (fun o => o.getD agg) (restore_createSnapshot hfields hX hinto agg a)
  have hkept : ((X.snapshottable codec).restoreFromSnapshot agg
      (X.createSnapshot a)).entity.events = e.events := by
    rw [hrestore]
    rfl
  have hload : A.hydrateFromSnapshot (X.snapshottable codec) now e r
      = (A.upcast []).bind (fun us => A.replay now us
          ((X.snapshottable codec).restoreFromSnapshot agg (X.createSnapshot a))) := by
    unfold Aggregate.hydrateFromSnapshot
    rw [hdecode]
    show (A.upcast (List.filter _ ((X.snapshottable codec).restoreFromSnapshot agg
      (X.createSnapshot a)).entity.events)).bind _ = _
    rw [hkept, hpost]
    rfl
  have hup : A.upcast [] = .ok [] := by
    rw [A.upcast_eq]
    rfl
  rw [hload, hup, hrestore]
  exact ⟨_, rfl, rfl, rfl⟩

/-! ## The theorem -/

/-- **The field is on the snapshots**: it is neither the entity nor skipped. -/
def NonSkipped (d : DeriveInput T) (f : NamedField T) : Prop :=
  f.ident ≠ d.entityField ∧ hasSerdeSkip f.attrs = false

/-- The fields on the snapshots are the non-skipped ones. -/
theorem mem_snapshotFields {n : String} :
    n ∈ (d.snapshotFields fields).map Prod.fst ↔ ∃ f ∈ fields, d.NonSkipped f ∧ f.ident = n := by
  unfold snapshotFields
  rw [List.map_map, List.mem_map]
  constructor
  · rintro ⟨f, hf, hname⟩
    obtain ⟨hmem, hkept⟩ := List.mem_filter.mp hf
    obtain ⟨hne, hskip⟩ := Bool.and_eq_true_iff.mp hkept
    exact ⟨f, hmem, ⟨of_decide_eq_true hne, (Bool.not_eq_true' _).mp hskip⟩, hname⟩
  · rintro ⟨f, hmem, ⟨hne, hskip⟩, hname⟩
    refine ⟨f, List.mem_filter.mpr ⟨hmem, ?_⟩, hname⟩
    exact Bool.and_eq_true_iff.mpr ⟨decide_eq_true hne, (Bool.not_eq_true' _).mpr hskip⟩

/-- **A field of the name is the id.** -/
theorem snapshotId_of_field {f : NamedField T} (hf : f ∈ fields) (hkept : d.NonSkipped f)
    (hname : f.ident = d.idFieldName) (a : Agg (String → T.Value)) :
    d.snapshotId fields into a = into (a.fields f.ident) := by
  have hmem := mem_snapshotFields.mpr ⟨f, hf, hkept, hname⟩
  obtain ⟨g, hg, hgname⟩ := List.mem_map.mp hmem
  have hany : (d.snapshotFields fields).any (fun f => decide (f.1 = d.idFieldName)) = true :=
    List.any_eq_true.mpr ⟨g, hg, decide_eq_true hgname⟩
  have hown : d.hasOwnId (d.snapshotFields fields) = true := Bool.or_eq_true_iff.mpr (Or.inr hany)
  rw [snapshotId, if_pos hown, hname]

/-- Without one, the id is the entity's: a custom id would not compile. -/
theorem snapshotId_of_no_field (hfields : d.namedFields = .ok fields)
    (hX : d.deriveSnapshot = .ok X) (hinto : X.Compiles into)
    (hno : ∀ f ∈ fields, d.NonSkipped f → f.ident ≠ d.idFieldName) (a : Agg (String → T.Value)) :
    d.snapshotId fields into a = a.entity.id := by
  by_cases hown : d.hasOwnId (d.snapshotFields fields)
  · have hmem := idFieldName_mem hfields hX hinto hown
    obtain ⟨f, hf, hkept, hname⟩ := mem_snapshotFields.mp hmem
    exact absurd hname (hno f hf hkept)
  · exact if_neg hown

/-- **Derived snapshots round-trip, but for an id that is a field**, for every
declaration whose expansion compiles and every aggregate: a snapshot restored
over the aggregate's entity gives back the non-skipped fields, the events and
the version; the entity has the id that the id field holds, where there is
one; and this is the entity's own id exactly if the field, where there is one,
holds that. -/
theorem derived_round_trip (hfields : d.namedFields = .ok fields) (hX : d.deriveSnapshot = .ok X)
    (hinto : X.Compiles into) (default : String → T.Value) (a : Agg (String → T.Value)) :
    ∃ b, X.restoreFromSnapshot ⟨default, a.entity⟩ (X.createSnapshot a) = some b
      ∧ (∀ f ∈ fields, d.NonSkipped f → b.fields f.ident = a.fields f.ident)
      ∧ b.entity.events = a.entity.events ∧ b.entity.version = a.entity.version
      ∧ (∀ f ∈ fields, d.NonSkipped f → f.ident = d.idFieldName →
          b.entity.id = into (a.fields f.ident))
      ∧ (b.entity.id = a.entity.id ↔ ∀ f ∈ fields, d.NonSkipped f → f.ident = d.idFieldName →
          into (a.fields f.ident) = a.entity.id) := by
  refine ⟨_, restore_createSnapshot hfields hX hinto _ a, fun f hf hkept => ?_, rfl, rfl,
    fun f hf hkept hname => snapshotId_of_field hf hkept hname a, ?_⟩
  · refine if_pos ?_
    rw [deriveSnapshot_eq hfields hX]
    exact mem_snapshotFields.mpr ⟨f, hf, hkept, rfl⟩
  · show d.snapshotId fields into a = a.entity.id ↔ _
    constructor
    · intro hid f hf hkept hname
      exact (snapshotId_of_field hf hkept hname a).symm.trans hid
    · intro hall
      by_cases hsome : ∃ f ∈ fields, d.NonSkipped f ∧ f.ident = d.idFieldName
      · obtain ⟨f, hf, hkept, hname⟩ := hsome
        rw [snapshotId_of_field hf hkept hname a]
        exact hall f hf hkept hname
      · exact snapshotId_of_no_field hfields hX hinto
          (fun f hf hkept hname => hsome ⟨f, hf, hkept, hname⟩) a

/-- Strings and numbers, with types by name. -/
def basicTypes : FieldTypes where
  Ty := String
  Value := String ⊕ ℕ
  into ty := if ty = "String" then some (Sum.elim id (fun _ => "")) else none
  string := "String"
  ofString := Sum.inl
  asString := Sum.elim id (fun _ => "")
  into_string := rfl
  asString_ofString _ := rfl

/-- An aggregate with an id made for its snapshots, and a skipped field. -/
def order : DeriveInput basicTypes :=
  ⟨[], .structNamed [⟨"entity", [], "Entity"⟩, ⟨"customer", [], "String"⟩,
    ⟨"cached_label", [⟨"serde", [⟨"skip", .nothing⟩]⟩], "String"⟩]⟩

/-- Its fields `customer` and `cached_label`, both filled. -/
def placed : Agg (String → basicTypes.Value) := ⟨fun _ => .inl "alice", Entity.withId "o1"⟩

/-- The order keeps its customer and its id. -/
theorem derived_round_trip_order : ∃ X b, order.deriveSnapshot = .ok X
    ∧ X.restoreFromSnapshot ⟨fun _ => .inl "", placed.entity⟩ (X.createSnapshot placed) = some b
    ∧ b.fields "customer" = .inl "alice" ∧ b.entity.id = "o1" := by
  obtain ⟨b, hb, hfields, -, -, -, hid⟩ :=
    derived_round_trip (d := order) rfl rfl ⟨"String", rfl, rfl⟩ (fun _ => .inl "") placed
  have hcustomer := hfields ⟨"customer", [], "String"⟩
    (List.mem_cons_of_mem _ List.mem_cons_self) ⟨by decide, rfl⟩
  have hnone : ∀ f : NamedField basicTypes, f.ident = "id" →
      f.ident ∉ ["entity", "customer", "cached_label"] := by
    intro f hf
    rw [hf]
    decide
  refine ⟨_, b, rfl, hb, hcustomer, hid.mpr (fun f hf _ hname => ?_)⟩
  exact absurd (List.mem_map_of_mem hf) (hnone f hname)

/-- An aggregate whose snapshots have a field of its own for the id. -/
def inventory : DeriveInput basicTypes :=
  ⟨[⟨"snapshot", [⟨"id", .lit "sku"⟩]⟩], .structNamed [⟨"entity", [], "Entity"⟩,
    ⟨"sku", [], "String"⟩, ⟨"available", [], "u32"⟩]⟩

/-- It was created as `inv-1`, with another string for its `sku`. -/
def stocked : Agg (String → basicTypes.Value) :=
  ⟨fun n => if n = "sku" then .inl "SKU-A" else .inr 10, Entity.withId "inv-1"⟩

/-- **The id of a field replaces the entity's**: restored, the inventory is
`SKU-A`. -/
theorem restored_under_sku : ∃ X into, inventory.deriveSnapshot = .ok X ∧ X.Compiles into
    ∧ ¬ ∃ b, X.restoreFromSnapshot ⟨fun _ => .inl "", stocked.entity⟩ (X.createSnapshot stocked)
        = some b ∧ b.entity.id = stocked.entity.id := by
  refine ⟨_, _, rfl, ⟨"String", rfl, rfl⟩, ?_⟩
  rintro ⟨b, hb, hid⟩
  have hsku := congrArg (Option.map (fun b => b.entity.id)) hb
  exact absurd (Option.some.inj (hsku.trans (congrArg some hid))) (by decide)

end DeriveInput
