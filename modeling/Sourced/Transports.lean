import Sourced.Microsvc
import Sourced.ReadModels
import Mathlib.Data.List.Perm.Basic

/-!
# Transports

A `Service` is reached over HTTP (`microsvc/http.rs`), over gRPC (`microsvc/grpc.rs`)
and from the bus. Each transport parses the body, makes the session out of what came
with it, dispatches, and says the outcome in its own way.

The JSON parser and printer are of `serde_json`, and the extractor of HTTP bodies of
`axum`; both are parameters. Of a body that is JSON the transports make the same of
everything (`Transports.agree`). They differ in a body that is not: HTTP answers without
a dispatch, and an event is dispatched with its text as a string.
-/

/-! ## Outcomes -/

/-- The text of a repository error, its `Display`. -/
def RepositoryError.display : RepositoryError → String
  | .lockPoisoned operation => "repository lock poisoned during " ++ operation
  | .lock e => "repository lock error: " ++ e.display
  | .concurrentWrite id expected actual =>
    "concurrent write detected for entity " ++ id ++ " (expected version " ++ toString expected
      ++ ", got " ++ toString actual ++ ")"
  | .replay message => "replay error: " ++ message
  | .model message => "model error: " ++ message

namespace HandlerError

/-- The text of a handler error, its `Display`. -/
def display : HandlerError → String
  | .unknownCommand name => "unknown command: " ++ name
  | .decodeFailed message => "decode failed: " ++ message
  | .rejected message => "rejected: " ++ message
  | .notFound id => "not found: " ++ id
  | .unauthorized message => "unauthorized: " ++ message
  | .repository e => "repository error: " ++ e.display
  | .guardRejected name => "guard rejected command: " ++ name
  | .other message => "handler error: " ++ message

/-- **`status_code`.** -/
def statusCode : HandlerError → ℕ
  | .unknownCommand _ => 404
  | .decodeFailed _ => 400
  | .rejected _ => 422
  | .notFound _ => 404
  | .unauthorized _ => 401
  | .repository _ => 500
  | .guardRejected _ => 400
  | .other _ => 500

end HandlerError

/-- **JSON values as text**, as far as requests and responses go. -/
structure JsonText (V : Type) extends Json V where
  /-- `serde_json::from_str`. -/
  fromStr : String → Option V
  /-- The `Display` of a value. -/
  toString : V → String
  /-- `serde_json::to_vec`. -/
  toVec : V → Bytes
  /-- `json!({ "error": message })`. -/
  error : String → V

/-- The bytes of a text. -/
def utf8 (s : String) : Bytes := s.toUTF8.data.toList

/-- **Text and bytes are parsed and printed alike.** -/
structure JsonText.Correct {V : Type} (J : JsonText V) : Prop where
  fromStr : ∀ s, J.fromStr s = J.fromSlice (utf8 s)
  toVec : ∀ v, J.toVec v = utf8 (J.toString v)

/-! ## HTTP -/

/-- An HTTP response. -/
structure HttpResponse where
  status : ℕ
  body : Bytes

/-- **`axum`'s extractor of JSON bodies**, which looks at the content type and the body:
the value, or the response it rejects the request with. -/
structure JsonExtractor (V : Type) where
  isJson : List (String × String) → Bool
  extract : List (String × String) → Bytes → Except HttpResponse V

/-- What it is documented to do. -/
structure JsonExtractor.Documented {V : Type} (X : JsonExtractor V) (J : JsonText V) : Prop where
  accepts : ∀ headers body value, X.isJson headers = true → J.fromSlice body = some value →
    X.extract headers body = .ok value
  rejects : ∀ headers body, J.fromSlice body = none →
    ∃ r, X.extract headers body = .error r ∧ 400 ≤ r.status ∧ r.status < 500

namespace Transports

variable {ρ V : Type}

/-- What `HeaderValue::to_str` takes: visible ASCII and tabs. -/
def visible (c : Char) : Bool := c = '\t' || (32 ≤ c.toNat && c.toNat < 127)

/-- `HeaderValue::to_str`. -/
def toStr (value : String) : Option String := if value.toList.all visible then some value else none

/-- `session_from_headers`, of the headers in their order of iteration. -/
def sessionFromHeaders (headers : List (String × String)) : Session :=
  headers.foldl (fun vars kv =>
    match toStr kv.2 with
    | some v => vars.insert kv.1 v
    | none => vars) ∅

/-- `StatusCode::from_u16`. -/
def statusFromU16 (n : ℕ) : Option ℕ := if 100 ≤ n ∧ n < 1000 then some n else none

/-- **`command_handler`**, after the extractor. -/
def commandHandler (J : JsonText V) (X : JsonExtractor V) (S : Service ρ V) (command : String)
    (headers : List (String × String)) (body : Bytes) (repo : ρ) : HttpResponse × ρ :=
  match X.extract headers body with
  | .error rejection => (rejection, repo)
  | .ok input =>
    match S.dispatch command input (sessionFromHeaders headers) repo with
    | (.ok value, repo) => (⟨200, J.toVec value⟩, repo)
    | (.error e, repo) =>
      (⟨(statusFromU16 e.statusCode).getD 500, J.toVec (J.error e.display)⟩, repo)

/-! ## gRPC -/

/-- `GrpcRequest`. -/
structure GrpcRequest where
  command : String
  input : String
  sessionVariables : List (String × String)

/-- `GrpcResponse`. -/
structure GrpcResponse where
  status : ℕ
  body : String

/-- The keys of binary metadata, which `KeyAndValueRef` keeps apart from text. -/
def isBinary (key : String) : Bool := "-bin".toList.isSuffixOf key.toList

/-- `build_session`, of the metadata and the variables in their orders of iteration. -/
def buildSession (metadata payloadVars : List (String × String)) : Session :=
  let vars := metadata.foldl (fun vars kv =>
    if isBinary kv.1 then vars
    else
      match toStr kv.2 with
      | some v => vars.insert kv.1 v
      | none => vars) ∅
  payloadVars.foldl (fun vars kv => vars.insert kv.1 kv.2) vars

/-- **`GrpcHandler::dispatch`.** An input that does not parse is the default, `Null`. -/
def grpcDispatch (J : JsonText V) (S : Service ρ V) (metadata : List (String × String))
    (req : GrpcRequest) (repo : ρ) : GrpcResponse × ρ :=
  let input := (J.fromStr req.input).getD J.null
  let session := buildSession metadata req.sessionVariables
  match S.dispatch req.command input session repo with
  | (.ok value, repo) => (⟨200, J.toString value⟩, repo)
  | (.error e, repo) => (⟨e.statusCode, J.toString (J.error e.display)⟩, repo)

/-! ## Requests -/

/-- `CommandRequest`. -/
structure CommandRequest (V : Type) where
  command : String
  input : V
  sessionVariables : List (String × String)

/-- `CommandResponse`. -/
structure CommandResponse (V : Type) where
  status : ℕ
  body : V

/-- A session from variables in an order of iteration. -/
def sessionOf (pairs : List (String × String)) : Session :=
  pairs.foldl (fun vars kv => vars.insert kv.1 kv.2) ∅

/-- **`dispatch_request`.** -/
def dispatchRequest (J : JsonText V) (S : Service ρ V) (request : CommandRequest V) (repo : ρ) :
    CommandResponse V × ρ :=
  match S.dispatch request.command request.input (sessionOf request.sessionVariables) repo with
  | (.ok value, repo) => (⟨200, value⟩, repo)
  | (.error e, repo) => (⟨e.statusCode, J.error e.display⟩, repo)

/-- **One request over every transport**: the pairs that come with it, each transport
iterating them in an order of its own. A key has one value, which is printable, and no key
is of binary metadata. -/
structure SameRequest (pairs headers metadata entries : List (String × String)) : Prop where
  headers : headers.Perm pairs
  metadata : metadata.Perm pairs
  entries : entries.Perm pairs
  single : (pairs.map Prod.fst).Nodup
  printable : ∀ kv ∈ pairs, kv.2.toList.all visible = true
  textual : ∀ kv ∈ pairs, isBinary kv.1 = false

/-- What is replied to an outcome. -/
def reply (J : JsonText V) : Except HandlerError V → GrpcResponse
  | .ok value => ⟨200, J.toString value⟩
  | .error e => ⟨e.statusCode, J.toString (J.error e.display)⟩

/-! ## Sessions -/

/-- **The order of iteration does not matter** where no key occurs twice. -/
theorem sessionOf_perm {l l' : List (String × String)} (h : l.Perm l') (hnd : (l'.map Prod.fst).Nodup) :
    sessionOf l = sessionOf l' := by
  have hnd' : (l.map Prod.fst).Nodup := (h.map Prod.fst).nodup_iff.mpr hnd
  refine h.foldl_eq' (fun x hx y hy vars => ?_) ∅
  by_cases hxy : x.1 = y.1
  · rw [List.inj_on_of_nodup_map hnd' hx hy hxy]
  · exact Finmap.insert_insert_of_ne vars hxy

variable {pairs headers metadata entries : List (String × String)}

theorem SameRequest.sessionFromHeaders_eq (h : SameRequest pairs headers metadata entries) :
    sessionFromHeaders headers = sessionOf pairs := by
  rw [← sessionOf_perm h.headers h.single]
  refine List.foldl_ext _ _ _ (fun vars kv hkv => ?_)
  rw [toStr, if_pos (h.printable kv (h.headers.mem_iff.mp hkv))]

theorem SameRequest.buildSession_eq (h : SameRequest pairs headers metadata entries) :
    buildSession metadata [] = sessionOf pairs := by
  rw [← sessionOf_perm h.metadata h.single]
  show metadata.foldl _ ∅ = _
  refine List.foldl_ext _ _ _ (fun vars kv hkv => ?_)
  have hmem := h.metadata.mem_iff.mp hkv
  rw [h.textual kv hmem, toStr, if_pos (h.printable kv hmem)]
  rfl

/-! ## Texts -/

theorem fromUTF8_utf8 (s : String) : String.fromUTF8? ⟨(utf8 s).toArray⟩ = some s := by
  unfold utf8
  rw [Array.toArray_toList]
  exact (dif_pos s.isValidUTF8).trans (congrArg some (String.toByteArray_inj.mp rfl))

theorem statusFromU16_statusCode (e : HandlerError) :
    statusFromU16 e.statusCode = some e.statusCode := by
  cases e <;> rfl

/-! ## The transports agree -/

variable {J : JsonText V} {X : JsonExtractor V}

/-- HTTP replies with the outcome of the dispatch. -/
theorem commandHandler_eq (hJ : J.Correct) (hX : X.Documented J) {S : Service ρ V} {command body : String}
    (h : SameRequest pairs headers metadata entries) (hjson : X.isJson headers = true)
    {repo repo' : ρ} {input : V} {r : Except HandlerError V} (hinput : J.fromStr body = some input)
    (hout : S.dispatch command input (sessionOf pairs) repo = (r, repo')) :
    commandHandler J X S command headers (utf8 body) repo
      = (⟨(reply J r).status, utf8 (reply J r).body⟩, repo') := by
  unfold commandHandler
  rw [hX.accepts headers _ _ hjson ((hJ.fromStr body).symm.trans hinput)]
  dsimp only
  rw [h.sessionFromHeaders_eq, hout]
  cases r with
  | error e =>
    dsimp only
    rw [hJ.toVec, statusFromU16_statusCode]
    rfl
  | ok value =>
    dsimp only
    rw [hJ.toVec]
    rfl

theorem grpcDispatch_eq {S : Service ρ V} {command body : String}
    (h : SameRequest pairs headers metadata entries) {repo repo' : ρ} {input : V}
    {r : Except HandlerError V} (hinput : J.fromStr body = some input)
    (hout : S.dispatch command input (sessionOf pairs) repo = (r, repo')) :
    grpcDispatch J S metadata ⟨command, body, []⟩ repo = (reply J r, repo') := by
  unfold grpcDispatch
  dsimp only
  rw [h.buildSession_eq, hinput, Option.getD_some, hout]
  cases r <;> rfl

/-- **The transports agree.** Of one request with a JSON body, HTTP, gRPC and the bus make
the same dispatch, and HTTP and gRPC reply the same. Where the body is not JSON, HTTP replies
with a status of the 4xx and dispatches nothing, and the bus dispatches the text. -/
theorem agree (hJ : J.Correct) (hX : X.Documented J) (S : Service ρ V) (command id body : String)
    (h : SameRequest pairs headers metadata entries) (hjson : X.isJson headers = true) (repo : ρ) :
    (∀ input r repo', J.fromStr body = some input →
        S.dispatch command input (sessionOf pairs) repo = (r, repo') →
        commandHandler J X S command headers (utf8 body) repo
            = (⟨(reply J r).status, utf8 (reply J r).body⟩, repo')
          ∧ grpcDispatch J S metadata ⟨command, body, []⟩ repo = (reply J r, repo')
          ∧ S.dispatchEvent J.toJson ⟨id, command, utf8 body, some entries⟩ repo = (r, repo'))
      ∧ (J.fromStr body = none →
        (∃ r, commandHandler J X S command headers (utf8 body) repo = (r, repo)
            ∧ 400 ≤ r.status ∧ r.status < 500)
          ∧ S.dispatchEvent J.toJson ⟨id, command, utf8 body, some entries⟩ repo
            = S.dispatch command (J.string body) (sessionOf pairs) repo) := by
  have hsession : Service.eventToSession ⟨id, command, utf8 body, some entries⟩ = sessionOf pairs :=
    sessionOf_perm h.entries h.single
  refine ⟨fun input r repo' hinput hout => ⟨?_, ?_, ?_⟩, fun hinput => ⟨?_, ?_⟩⟩
  · exact commandHandler_eq hJ hX h hjson hinput hout
  · exact grpcDispatch_eq h hinput hout
  · unfold Service.dispatchEvent Service.eventToJsonInput
    rw [hsession, ← hJ.fromStr, hinput]
    exact hout
  · obtain ⟨r, hr, hlow, hhigh⟩ := hX.rejects headers _ ((hJ.fromStr body).symm.trans hinput)
    refine ⟨r, ?_, hlow, hhigh⟩
    unfold commandHandler
    rw [hr]
  · unfold Service.dispatchEvent Service.eventToJsonInput
    rw [hsession, ← hJ.fromStr, hinput, Event.payloadStr, fromUTF8_utf8]

/-- **A request dispatched directly** has the same response: what HTTP and gRPC reply is its
status and its body as text, and the repository is left the same. -/
theorem dispatchRequest_agrees (hJ : J.Correct) (hX : X.Documented J) (S : Service ρ V)
    (command body : String) (h : SameRequest pairs headers metadata entries)
    (hjson : X.isJson headers = true) (repo : ρ) {input : V} (hinput : J.fromStr body = some input) :
    ∃ response repo', dispatchRequest J S ⟨command, input, entries⟩ repo = (response, repo')
      ∧ commandHandler J X S command headers (utf8 body) repo
        = (⟨response.status, utf8 (J.toString response.body)⟩, repo')
      ∧ grpcDispatch J S metadata ⟨command, body, []⟩ repo
        = (⟨response.status, J.toString response.body⟩, repo') := by
  obtain ⟨r, repo', hout⟩ : ∃ r repo', S.dispatch command input (sessionOf pairs) repo = (r, repo') :=
    ⟨_, _, rfl⟩
  have hhttp := commandHandler_eq hJ hX h hjson hinput hout
  have hgrpc := grpcDispatch_eq h hinput hout
  have hdirect : S.dispatch command input (sessionOf entries) repo = (r, repo') := by
    rw [sessionOf_perm h.entries h.single]
    exact hout
  unfold dispatchRequest
  dsimp only
  rw [hdirect]
  cases r with
  | ok value => exact ⟨⟨200, value⟩, repo', rfl, hhttp, hgrpc⟩
  | error e => exact ⟨⟨e.statusCode, J.error e.display⟩, repo', rfl, hhttp, hgrpc⟩

/-! ## A service over every transport -/

/-- JSON as compact text, of the empty object and the literals. -/
def literals : JsonText String where
  fromStr s := if s ∈ ["\x7b\x7d", "null", "true", "false"] then some s else none
  fromSlice bytes := (String.fromUTF8? ⟨bytes.toArray⟩).bind
    (fun s => if s ∈ ["\x7b\x7d", "null", "true", "false"] then some s else none)
  string s := "\"" ++ s ++ "\""
  null := "null"
  toString := id
  toVec := utf8
  error message := "\x7b\"error\":\"" ++ message ++ "\"\x7d"

theorem literals_correct : literals.Correct where
  fromStr s := by
    show _ = (String.fromUTF8? ⟨(utf8 s).toArray⟩).bind _
    rw [fromUTF8_utf8]
    rfl
  toVec _ := rfl

/-- The extractor of requests whose content type is `application/json`. -/
def extractor : JsonExtractor String where
  isJson headers := headers.contains ("content-type", "application/json")
  extract headers body :=
    if headers.contains ("content-type", "application/json") then
      match literals.fromSlice body with
      | some value => .ok value
      | none => .error ⟨400, utf8 "Failed to parse the request body as JSON"⟩
    else .error ⟨415, utf8 "Expected request with Content-Type: application/json"⟩

theorem extractor_documented : extractor.Documented literals where
  accepts headers body value hjson hvalue := by
    unfold extractor at hjson ⊢
    dsimp only at hjson ⊢
    rw [if_pos hjson, hvalue]
  rejects headers body hnone := by
    unfold extractor
    dsimp only
    rw [hnone]
    split
    · exact ⟨_, rfl, by decide, by decide⟩
    · exact ⟨_, rfl, by decide, by decide⟩

/-- A service with one command, which counts and answers with its input. -/
def ping : Service ℕ String := Service.new.command "ping" (fun ctx n => (.ok ctx.input, n + 1))

/-- The pairs of its requests. -/
def pingPairs : List (String × String) := [("content-type", "application/json"), ("x-hasura-role", "admin")]

theorem sameRequest_ping : SameRequest pingPairs pingPairs pingPairs.reverse pingPairs.reverse where
  headers := .refl _
  metadata := List.reverse_perm _
  entries := List.reverse_perm _
  single := by decide
  printable := by decide
  textual := by decide

/-- The empty object is dispatched by all three. -/
theorem agree_ping :
    commandHandler literals extractor ping "ping" pingPairs (utf8 "\x7b\x7d") 0
        = (⟨200, utf8 "\x7b\x7d"⟩, 1)
      ∧ grpcDispatch literals ping pingPairs.reverse ⟨"ping", "\x7b\x7d", []⟩ 0 = (⟨200, "\x7b\x7d"⟩, 1)
      ∧ ping.dispatchEvent literals.toJson ⟨"1", "ping", utf8 "\x7b\x7d", some pingPairs.reverse⟩ 0
        = (.ok "\x7b\x7d", 1) :=
  (agree literals_correct extractor_documented ping "ping" "1" "\x7b\x7d" sameRequest_ping rfl 0).1
    "\x7b\x7d" _ _ rfl rfl

/-- **A text that is not JSON**: HTTP runs no handler, and the bus and gRPC run it. -/
theorem handled_text : literals.fromStr "oops" = none
    ∧ (commandHandler literals extractor ping "ping" pingPairs (utf8 "oops") 0).2 = 0
    ∧ (ping.dispatchEvent literals.toJson ⟨"1", "ping", utf8 "oops", some pingPairs.reverse⟩ 0).2 = 1
    ∧ (grpcDispatch literals ping pingPairs.reverse ⟨"ping", "oops", []⟩ 0).2 = 1 := by
  refine ⟨rfl, ?_, rfl, rfl⟩
  have hnone : literals.fromSlice (utf8 "oops") = none := (literals_correct.fromStr "oops").symm
  obtain ⟨r, hr, -⟩ := extractor_documented.rejects pingPairs _ hnone
  unfold commandHandler
  rw [hr]

end Transports
