import Sourced.JsonValue
import Sourced.OutboxMessage

/-!
# Event records as JSON

The serde attributes of `EventRecord` (`entity/event_record.rs`). The payload is
written as a base64 text. The event version is left out where it is 1 and the metadata
where it is empty, and a record that has neither is read with version 1 and without
metadata, as old records are. The two conditions are those of the two defaults, so what
is written is read back (`EventRecord.json_round_trip`).

Timestamps are written as serde writes a `SystemTime`, as the seconds and nanoseconds
since the epoch. A time before it cannot be written.

The `base64` and `serde_json` crates are parameters: what the first makes of bytes, and
how the second prints and parses a JSON value. Decoding undoes encoding. A parser
undoes printing for values that are not nested too deep.
-/

/-- **The `STANDARD` engine of `base64`.** -/
structure Base64 where
  encode : Bytes → String
  decode : String → Except String Bytes

/-- Decoding undoes encoding. -/
def Base64.Lawful (B : Base64) : Prop := ∀ b, B.decode (B.encode b) = .ok b

/-- **The texts of `serde_json`.** -/
structure SerdeJson where
  print : JsonValue → String
  parse : String → Except JsonError JsonValue

/-- Parsing undoes printing, down to the depth that the parser allows. -/
def SerdeJson.Lawful (J : SerdeJson) : Prop := ∀ j, j.Plain 127 → J.parse (J.print j) = .ok j

/-! ## Timestamps -/

namespace SystemTime

/-- The fields that serde gives a `SystemTime`. -/
inductive Part where
  | secs
  | nanos
deriving DecidableEq

/-- They in their order. -/
def parts : StructDef Part where
  fields := [.secs, .nanos]
  name
    | .secs => "secs_since_epoch"
    | .nanos => "nanos_since_epoch"
  nodup := by decide
  mem_fields i := by cases i <;> decide
  name_injective i i' h := by cases i <;> cases i' <;> first | rfl | simp at h

/-- Their codecs. -/
def Part.codec : Part → JsonCodec ℕ
  | .secs => .unsigned 64
  | .nanos => .unsigned 32

/-- How they are written. -/
def partsWriter : StructWriter parts (fun _ => ℕ) where
  write i := i.codec.write
  skip _ _ := false

/-- How they are read: none may be absent and none added. -/
def partsReader : StructReader parts (fun _ => ℕ) where
  read i := i.codec.read
  default _ := none
  denyUnknown := true

/-- The seconds and nanoseconds since the epoch. -/
def toParts (t : SystemTime) : Part → ℕ
  | .secs => t.secs.toNat
  | .nanos => t.nanos

/-- The time of some seconds and nanoseconds since the epoch. -/
def fromParts (x : Part → ℕ) : Except JsonError SystemTime :=
  if h : x .secs + x .nanos / 1000000000 < 2 ^ 64 then
    match unixEpoch.add ⟨x .secs + x .nanos / 1000000000, x .nanos % 1000000000, h,
      Nat.mod_lt _ (by decide)⟩ with
    | some t => .ok t
    | none => .error (.custom "overflow deserializing SystemTime")
  else .error (.custom "overflow deserializing SystemTime epoch offset")

/-- **`Serialize` and `Deserialize` for `SystemTime`.** -/
def serde : JsonCodec SystemTime where
  write t :=
    if 0 ≤ t.secs then partsWriter.toJson t.toParts
    else .error (.custom "SystemTime must be later than UNIX_EPOCH")
  read j := (partsReader.fromJson j).bind fromParts

theorem fromParts_toParts {t : SystemTime} (h : 0 ≤ t.secs) : fromParts t.toParts = .ok t := by
  obtain ⟨secs, nanos, hsecs, hnanos⟩ := t
  obtain ⟨n, rfl⟩ : ∃ n : ℕ, secs = n := Int.eq_ofNat_of_zero_le h
  have hn : (n : ℤ) < 9223372036854775808 := hsecs.2
  have hlt : n < 18446744073709551616 := by omega
  simp [fromParts, toParts, Nat.div_eq_of_lt hnanos, Nat.mod_eq_of_lt hnanos, hlt, add, ofParts,
    unixEpoch, hnanos, hn]

/-- **A time that is not before the epoch round-trips.** -/
theorem roundTrips_serde {t : SystemTime} (h : 0 ≤ t.secs) (d : ℕ) : serde.RoundTrips (d + 1) t := by
  have hparts : ∀ i,
      JsonValue.RoundTrips (partsWriter.write i) (partsReader.read i) d (t.toParts i) := by
    have hsecs := t.secs_range
    have hnanos := t.nanos_lt
    intro i
    cases i with
    | secs =>
      exact JsonCodec.roundTrips_unsigned le_rfl (show t.secs.toNat < 2 ^ 64 by omega)
    | nanos =>
      exact JsonCodec.roundTrips_unsigned (by decide) (show t.nanos < 2 ^ 32 by omega)
  obtain ⟨j, hj, hread, hplain⟩ := StructDef.roundTrips (fun _ _ h => by cases h) hparts
  refine ⟨j, (if_pos h).trans hj, ?_, hplain⟩
  show (partsReader.fromJson j).bind fromParts = .ok t
  rw [hread]
  exact fromParts_toParts h

/-- A time that was read is not before the epoch. -/
theorem not_before_of_serde {t : SystemTime} {j : JsonValue} (h : serde.read j = .ok t) :
    0 ≤ t.secs := by
  obtain ⟨x, -, hx⟩ := JsonValue.bind_eq_ok.mp h
  unfold fromParts at hx
  split at hx
  · split at hx
    · next u hu =>
      obtain rfl : u = t := Except.ok.inj hx
      exact (le_add hu).trans' (by simp [unixEpoch])
    · cases hx
  · cases hx

end SystemTime

/-! ## Records -/

/-- `payload_serde`. -/
def payloadSerde (B : Base64) : JsonCodec Bytes where
  write payload := JsonCodec.string.write (B.encode payload)
  read j :=
    match JsonCodec.string.read j with
    | .error e => .error e
    | .ok s =>
      match B.decode s with
      | .error message => .error (.custom message)
      | .ok payload => .ok payload

theorem roundTrips_payloadSerde {B : Base64} (hB : B.Lawful) (payload : Bytes) (d : ℕ) :
    (payloadSerde B).RoundTrips d payload := by
  refine ⟨.str (B.encode payload), rfl, ?_, .str _⟩
  simp [payloadSerde, JsonCodec.string, hB payload]

namespace EventRecord

/-- The fields of an `EventRecord`. -/
inductive Field where
  | eventName
  | payload
  | eventVersion
  | sequence
  | timestamp
  | metadata
deriving DecidableEq

/-- They in their order. -/
def fields : StructDef Field where
  fields := [.eventName, .payload, .eventVersion, .sequence, .timestamp, .metadata]
  name
    | .eventName => "event_name"
    | .payload => "payload"
    | .eventVersion => "event_version"
    | .sequence => "sequence"
    | .timestamp => "timestamp"
    | .metadata => "metadata"
  nodup := by decide
  mem_fields i := by cases i <;> decide
  name_injective i i' h := by cases i <;> cases i' <;> first | rfl | simp at h

/-- Their types. -/
abbrev Field.Value : Field → Type
  | .eventName => String
  | .payload => Bytes
  | .eventVersion => ℕ
  | .sequence => ℕ
  | .timestamp => SystemTime
  | .metadata => Metadata

/-- The fields of a record. -/
def toFields (r : EventRecord) : ∀ i : Field, i.Value
  | .eventName => r.eventName
  | .payload => r.payload
  | .eventVersion => r.eventVersion
  | .sequence => r.sequence
  | .timestamp => r.timestamp
  | .metadata => r.metadata

/-- The record of some fields. -/
def fromFields (x : ∀ i : Field, i.Value) : EventRecord :=
  ⟨x .eventName, x .payload, x .eventVersion, x .sequence, x .timestamp, x .metadata⟩

/-- `default_event_version`. -/
def defaultEventVersion : ℕ := 1

/-- `is_version_one`. -/
def isVersionOne (v : ℕ) : Bool := v = 1

variable (B : Base64) (order : Metadata → List (String × String))

/-- **`Serialize` for `EventRecord`**, with the metadata iterated in an order: version 1 and
empty metadata are left out. -/
def writer : StructWriter fields Field.Value where
  write
    | .eventName => JsonCodec.string.write
    | .payload => (payloadSerde B).write
    | .eventVersion => (JsonCodec.unsigned 64).write
    | .sequence => (JsonCodec.unsigned 64).write
    | .timestamp => SystemTime.serde.write
    | .metadata => StringMap.write order
  skip
    | .eventVersion, v => isVersionOne v
    | .metadata, m => decide (m = ∅)
    | _, _ => false

/-- **`Deserialize` for `EventRecord`**: the version defaults to 1 and the metadata to
none, and members that it does not know are ignored. -/
def reader : StructReader fields Field.Value where
  read
    | .eventName => JsonCodec.string.read
    | .payload => (payloadSerde B).read
    | .eventVersion => (JsonCodec.unsigned 64).read
    | .sequence => (JsonCodec.unsigned 64).read
    | .timestamp => SystemTime.serde.read
    | .metadata => StringMap.read
  default
    | .eventVersion => some defaultEventVersion
    | .metadata => some ∅
    | _ => none
  denyUnknown := false

/-- The JSON value of a record. -/
def toJson (r : EventRecord) : Except JsonError JsonValue := (writer B order).toJson r.toFields

/-- The members for all fields of a record, with none left out. -/
def allMembers (r : EventRecord) : Except JsonError (List (String × JsonValue)) :=
  (writer B order).membersOf r.toFields fields.fields

/-- The record of a JSON value. -/
def fromJson (j : JsonValue) : Except JsonError EventRecord := ((reader B).fromJson j).map fromFields

variable (J : SerdeJson)

/-- `serde_json::to_string` of a record. -/
def toText (r : EventRecord) : Except JsonError String := (r.toJson B order).map J.print

/-- `serde_json::from_str` at the type `EventRecord`. -/
def fromText (text : String) : Except JsonError EventRecord := (J.parse text).bind (fromJson B)

/-- **A record that can be written**: its numbers are of 64 bits, and its time is not before
the epoch. -/
structure Writable (r : EventRecord) : Prop where
  eventVersion_lt : r.eventVersion < 2 ^ 64
  sequence_lt : r.sequence < 2 ^ 64
  not_before_epoch : 0 ≤ r.timestamp.secs

variable {B order J} {r : EventRecord}

/-- **What is left out is what is read in its place.** -/
theorem skipsDefaults : (writer B order).SkipsDefaults (reader B) := by
  intro i v h
  cases i with
  | eventVersion =>
    obtain rfl : v = 1 := of_decide_eq_true h
    rfl
  | metadata =>
    obtain rfl : v = ∅ := of_decide_eq_true h
    rfl
  | eventName => cases h
  | payload => cases h
  | sequence => cases h
  | timestamp => cases h

/-- The values of the fields round-trip. -/
theorem Writable.roundTrips (hB : B.Lawful) (horder : StringMap.Enumerates order) (hr : r.Writable)
    (i : Field) :
    JsonValue.RoundTrips ((writer B order).write i) ((reader B).read i) 1 (r.toFields i) := by
  cases i with
  | eventName => exact JsonCodec.roundTrips_string _
  | payload => exact roundTrips_payloadSerde hB _ 1
  | eventVersion => exact JsonCodec.roundTrips_unsigned le_rfl hr.eventVersion_lt
  | sequence => exact JsonCodec.roundTrips_unsigned le_rfl hr.sequence_lt
  | timestamp => exact SystemTime.roundTrips_serde hr.not_before_epoch 0
  | metadata => exact StringMap.roundTrips horder _ 0

/-- The names of the members that a record is written without. -/
def leftOut (r : EventRecord) : List String :=
  (if isVersionOne r.eventVersion then ["event_version"] else [])
    ++ if r.metadata = ∅ then ["metadata"] else []

/-- **A record is written without these**, and with all other members. -/
theorem Writable.toJson_eq (hB : B.Lawful) (horder : StringMap.Enumerates order) (hr : r.Writable) :
    ∃ ms, r.allMembers B order = .ok ms
      ∧ r.toJson B order = .ok (.obj (ms.filter (fun m => m.1 ∉ r.leftOut))) := by
  obtain ⟨ms, hms, -⟩ := StructDef.exists_membersOf (hr.roundTrips hB horder) fields.fields
  have hkept : (writer B order).kept r.toFields
      = fields.fields.filter (fun i => fields.name i ∉ r.leftOut) := by
    refine List.filter_congr (fun i _ => ?_)
    by_cases hv : isVersionOne r.eventVersion = true <;> by_cases hm : r.metadata = ∅ <;>
      cases i <;> simp [writer, toFields, fields, leftOut, hv, hm]
  refine ⟨ms, hms, ?_⟩
  show ((writer B order).membersOf r.toFields _).map JsonValue.obj = _
  rw [hkept, StructWriter.membersOf_filter (fun k => k ∉ r.leftOut) hms]
  rfl

/-- **A record round-trips** through its JSON value. -/
theorem Writable.fromJson_toJson (hB : B.Lawful) (horder : StringMap.Enumerates order)
    (hr : r.Writable) : JsonValue.RoundTrips (toJson B order) (fromJson B) 2 r := by
  obtain ⟨j, hj, hread, hplain⟩ := StructDef.roundTrips skipsDefaults (hr.roundTrips hB horder)
  refine ⟨j, hj, ?_, hplain⟩
  rw [fromJson, hread]
  rfl

theorem fromText_print (hJ : J.Lawful) {j : JsonValue} (hj : j.Plain 2) :
    fromText B J (J.print j) = fromJson B j := by
  rw [fromText, hJ j (hj.mono (by decide))]
  rfl

/-- **Members may be absent** where the record has the default. -/
theorem Writable.fromJson_absent (hB : B.Lawful) (horder : StringMap.Enumerates order)
    (hr : r.Writable) {absent : List String}
    (habsent : ∀ k ∈ absent, k = "event_version" ∧ r.eventVersion = 1
      ∨ k = "metadata" ∧ r.metadata = ∅) : ∃ ms, r.allMembers B order = .ok ms
        ∧ fromJson B (.obj (ms.filter (fun m => m.1 ∉ absent))) = .ok r
        ∧ (JsonValue.obj (ms.filter (fun m => m.1 ∉ absent))).Plain 2 := by
  obtain ⟨ms, hms, hplain⟩ := StructDef.exists_membersOf (hr.roundTrips hB horder) fields.fields
  have hfilter := StructWriter.membersOf_filter (fun k => k ∉ absent) hms
  refine ⟨ms, hms, ?_, .obj (fun m hm => hplain m (List.mem_of_mem_filter hm))⟩
  rw [fromJson, StructReader.read_obj (fields.nodup.filter _) (hr.roundTrips hB horder) (fun i hi => ?_)
    hfilter]
  · rfl
  · -- an absent field has its default
    have hname : fields.name i ∈ absent := by
      simpa [fields.mem_fields i] using hi
    cases i with
    | eventVersion =>
      simpa [reader, toFields, defaultEventVersion, fields, eq_comm] using habsent _ hname
    | metadata => simpa [reader, toFields, fields, eq_comm] using habsent _ hname
    | eventName => simpa [fields] using habsent _ hname
    | payload => simpa [fields] using habsent _ hname
    | sequence => simpa [fields] using habsent _ hname
    | timestamp => simpa [fields] using habsent _ hname

/-- **Records round-trip through JSON**, whatever their fields: the text of a record is read
as the record; so is the object of its members without those of version 1 and of empty
metadata; and no other record has its text. -/
theorem json_round_trip (hB : B.Lawful) (hJ : J.Lawful) (horder : StringMap.Enumerates order)
    (hr : r.Writable) :
    (∃ text, r.toText B order J = .ok text ∧ fromText B J text = .ok r)
      ∧ (∀ absent : List String, (∀ k ∈ absent, k = "event_version" ∧ r.eventVersion = 1
            ∨ k = "metadata" ∧ r.metadata = ∅) →
          ∃ ms, r.allMembers B order = .ok ms
            ∧ fromJson B (.obj (ms.filter (fun m => m.1 ∉ absent))) = .ok r
            ∧ fromText B J (J.print (.obj (ms.filter (fun m => m.1 ∉ absent)))) = .ok r)
      ∧ ∀ (order' : Metadata → List (String × String)) (r' : EventRecord),
          StringMap.Enumerates order' → r'.Writable →
          r'.toText B order' J = r.toText B order J → r' = r := by
  have hread : ∀ (order : Metadata → List (String × String)) (r : EventRecord),
      StringMap.Enumerates order → r.Writable →
        ∃ text, r.toText B order J = .ok text ∧ fromText B J text = .ok r := by
    intro order r horder hr
    obtain ⟨j, hj, hfrom, hplain⟩ := hr.fromJson_toJson hB horder
    refine ⟨J.print j, ?_, (fromText_print hJ hplain).trans hfrom⟩
    rw [toText, hj]
    rfl
  refine ⟨hread order r horder hr, fun absent habsent => ?_, fun order' r' horder' hr' heq => ?_⟩
  · obtain ⟨ms, hms, hfrom, hplain⟩ := hr.fromJson_absent hB horder habsent
    exact ⟨ms, hms, hfrom, (fromText_print hJ hplain).trans hfrom⟩
  · obtain ⟨text, htext, hfrom⟩ := hread order r horder hr
    obtain ⟨text', htext', hfrom'⟩ := hread order' r' horder' hr'
    obtain rfl : text' = text := Except.ok.inj (htext'.symm.trans (heq.trans htext))
    exact Except.ok.inj (hfrom'.symm.trans hfrom)

/-! ## What is accepted -/

/-- **A record that was read can be written again.** -/
theorem writable_of_fromJson {j : JsonValue} (h : fromJson B j = .ok r) : r.Writable := by
  obtain ⟨x, hx, rfl⟩ : ∃ x, (reader B).fromJson j = .ok x ∧ fromFields x = r := by
    unfold fromJson at h
    cases hx : (reader B).fromJson j with
    | error e =>
      rw [hx] at h
      cases h
    | ok x =>
      rw [hx] at h
      exact ⟨x, rfl, Except.ok.inj h⟩
  refine ⟨?_, ?_, ?_⟩
  · cases StructReader.read_or_default hx .eventVersion with
    | inl h =>
      obtain ⟨j', hj'⟩ := h
      exact JsonCodec.lt_of_unsigned hj'
    | inr h =>
      have hone : x .eventVersion = 1 := (Option.some.inj h).symm
      show x .eventVersion < 2 ^ 64
      rw [hone]
      decide
  · cases StructReader.read_or_default hx .sequence with
    | inl h =>
      obtain ⟨j', hj'⟩ := h
      exact JsonCodec.lt_of_unsigned hj'
    | inr h => cases h
  · cases StructReader.read_or_default hx .timestamp with
    | inl h =>
      obtain ⟨j', hj'⟩ := h
      exact SystemTime.not_before_of_serde hj'
    | inr h => cases h

/-! ## One record -/

/-- Any text can be that of a value in a code of all values. -/
theorem exists_code {α : Type} [Countable α] (x : α) (text : String) :
    ∃ code : α → String, Function.Injective code ∧ code x = text := by
  classical
  obtain ⟨f, hf⟩ := exists_injective_nat α
  -- the others have longer texts
  refine ⟨fun y => if y = x then text else String.ofList (List.replicate (text.length + f y + 1) 'a'),
    fun y z h => ?_, if_pos rfl⟩
  have hlen : ∀ n, (String.ofList (List.replicate (text.length + n + 1) 'a')).length
      = text.length + n + 1 := fun n => by simp
  dsimp only at h
  by_cases hy : y = x
  · by_cases hz : z = x
    · rw [hy, hz]
    · rw [if_pos hy, if_neg hz] at h
      have h' := congrArg String.length h
      rw [hlen] at h'
      omega
  · by_cases hz : z = x
    · rw [if_neg hy, if_pos hz] at h
      have h' := congrArg String.length h
      rw [hlen] at h'
      omega
    · rw [if_neg hy, if_neg hz] at h
      have h' := congrArg String.length h
      rw [hlen, hlen] at h'
      exact hf (by omega)

/-- An event recorded at the epoch, of version 1 and without metadata. -/
def oldEvent : EventRecord := EventRecord.new "old_event" [1, 2, 3] 1 SystemTime.unixEpoch

/-- Its JSON value, which has neither the version nor the metadata. -/
def oldJson : JsonValue :=
  .obj [("event_name", .str "old_event"), ("payload", .str "AQID"), ("sequence", .nat 1),
    ("timestamp", .obj [("secs_since_epoch", .nat 0), ("nanos_since_epoch", .nat 0)])]

/-- Its text. -/
def oldText : String :=
  "\x7b\"event_name\":\"old_event\",\"payload\":\"AQID\",\"sequence\":1,\"timestamp\":"
    ++ "\x7b\"secs_since_epoch\":0,\"nanos_since_epoch\":0\x7d\x7d"

theorem plain_oldJson : oldJson.Plain 127 := by
  refine .obj (d := 126) (fun m hm => ?_)
  simp only [List.mem_cons, List.not_mem_nil, or_false] at hm
  rcases hm with rfl | rfl | rfl | rfl
  · exact .str _
  · exact .str _
  · exact .nat (by decide)
  · refine .obj (d := 125) (fun m hm => ?_)
    simp only [List.mem_cons, List.not_mem_nil, or_false] at hm
    rcases hm with rfl | rfl
    · exact .nat (by decide)
    · exact .nat (by decide)

/-- **An old event** is written without version and metadata, and read again. -/
theorem json_round_trip_old : ∃ (B : Base64) (J : SerdeJson)
    (order : Metadata → List (String × String)), B.Lawful ∧ J.Lawful ∧ StringMap.Enumerates order ∧ oldEvent.Writable
      ∧ oldEvent.toText B order J = .ok oldText
      ∧ (∃ text, oldEvent.toText B order J = .ok text ∧ fromText B J text = .ok oldEvent)
      ∧ ∃ ms, oldEvent.allMembers B order = .ok ms ∧ ms.length = 6
        ∧ fromJson B (.obj (ms.filter (fun m => m.1 ∉ ["event_version", "metadata"])))
          = .ok oldEvent := by
  obtain ⟨encode, hencode, hpayload⟩ := exists_code ([1, 2, 3] : Bytes) "AQID"
  have hcountable : Countable { j : JsonValue // j.Plain 127 } :=
    (JsonValue.countable_plain 127).to_subtype
  obtain ⟨print, hprint, htext⟩ :=
    exists_code (⟨oldJson, plain_oldJson⟩ : { j : JsonValue // j.Plain 127 }) oldText
  classical
  let B : Base64 := ⟨encode, fun s =>
    match Function.partialInv encode s with
    | some b => .ok b
    | none => .error "invalid symbol"⟩
  let J : SerdeJson := ⟨fun j => if h : j.Plain 127 then print ⟨j, h⟩ else "", fun text =>
    match Function.partialInv print text with
    | some j => .ok j.1
    | none => .error .malformed⟩
  have hB : B.Lawful := fun b => by
    show (match Function.partialInv encode (encode b) with
      | some b => Except.ok b
      | none => .error "invalid symbol") = .ok b
    rw [Function.partialInv_left hencode]
  have hJ : J.Lawful := fun j hj => by
    show (match Function.partialInv print (if h : j.Plain 127 then print ⟨j, h⟩ else "") with
      | some j => Except.ok j.1
      | none => .error JsonError.malformed) = .ok j
    rw [dif_pos hj, Function.partialInv_left hprint]
  obtain ⟨order, horder⟩ := StringMap.exists_enumerates
  have hr : oldEvent.Writable := ⟨by decide, by decide, by decide⟩
  have hround := json_round_trip hB hJ horder hr
  have hjson : oldEvent.toJson B order = .ok oldJson := by
    show Except.ok (JsonValue.obj [_, ("payload", .str (encode [1, 2, 3])), _, _]) = _
    rw [hpayload]
    rfl
  obtain ⟨ms, hms, hread, -⟩ := hround.2.1 ["event_version", "metadata"] (by decide)
  refine ⟨B, J, order, hB, hJ, horder, hr, ?_, hround.1, ms, hms, ?_, hread⟩
  · rw [toText, hjson]
    show Except.ok (if h : oldJson.Plain 127 then print ⟨oldJson, h⟩ else "") = _
    rw [dif_pos plain_oldJson, htext]
  · rw [← Except.ok.inj hms]
    rfl

end EventRecord
