import Unixd.Lib.Value

/-!
# Envelopes

Requests and responses as JSON frames: how each field is written, and how a frame is read back,
the outcome of a response through the buffer of a flattened field. The array form that a decoder
also takes for a struct is never written and left out.
-/

namespace Unixd

open Lib

abbrev Text := List Char

abbrev Bytes := List UInt8

/-- The recursion limit of `serde_json`. -/
def recursionLimit : ℕ := 128

/-- A protocol version. Both sides must share the major. -/
structure Version where
  major : UInt16
  minor : UInt16
  deriving DecidableEq

/-- One request frame. -/
structure Request (B : Type) where
  v : Version
  id : Text
  body : B

/-- An error on the wire. -/
structure Fault where
  code : Text
  message : Text
  retryable : Bool
  details : Option Value

inductive Outcome (R : Type) where
  | ok (response : R)
  | err (fault : Fault)

/-- One response frame; the outcome is flattened into it. -/
structure Response (R : Type) where
  v : Version
  id : Text
  outcome : Outcome R

variable {B R : Type}

def Version.toJson (v : Version) : Json :=
  .obj [("major".toList, .num (Json.intLiteral v.major.toNat)), ("minor".toList, .num (Json.intLiteral v.minor.toNat))]

def Request.toJson (body : B → Json) (request : Request B) : Json :=
  .obj [("v".toList, request.v.toJson), ("id".toList, .str request.id), ("body".toList, body request.body)]

def Fault.toJson (fault : Fault) : Json :=
  .obj ([("code".toList, .str fault.code), ("message".toList, .str fault.message),
    ("retryable".toList, .bool fault.retryable)] ++
    fault.details.toList.map fun details => ("details".toList, details.toJson))

def Outcome.member (response : R → Json) : Outcome R → Text × Json
  | .ok r => ("ok".toList, response r)
  | .err fault => ("err".toList, fault.toJson)

def Response.toJson (response : R → Json) (r : Response R) : Json :=
  .obj [("v".toList, r.v.toJson), ("id".toList, .str r.id), r.outcome.member response]

/-- `serde_json::to_vec`. -/
def toVec (json : Json) : Bytes :=
  utf8 json.render

/-- `serde_json::from_slice`, up to the decoder of the target. -/
def fromSlice (bytes : Bytes) : Option Json := do
  Json.parse recursionLimit (← fromUtf8 bytes)

/-- The only member of a name; a missing or repeated one is an error. -/
def field {X : Type} (name : Text) (members : List (Text × X)) : Option X :=
  match members.filter (·.1 = name) with
  | [m] => some m.2
  | _ => none

/-- A field that may be missing. -/
def defaultField {X : Type} (name : Text) (members : List (Text × X)) : Option (Option X) :=
  match members.filter (·.1 = name) with
  | [] => some none
  | [m] => some (some m.2)
  | _ => none

def u16OfJson : Json → Option UInt16
  | .num literal => do
    let n ← Json.readInt literal
    if 0 ≤ n ∧ n < 65536 then some (UInt16.ofNat n.toNat) else none
  | _ => none

def textOfJson : Json → Option Text
  | .str text => some text
  | _ => none

def Version.ofJson : Json → Option Version
  | .obj members => do
    let major ← u16OfJson (← field "major".toList members)
    let minor ← u16OfJson (← field "minor".toList members)
    return ⟨major, minor⟩
  | _ => none

/-- `Deserialize` for `serde_json::Value`. -/
def valueOfJson (json : Json) : Value :=
  (Value.ofJson Fits64 json).sort

/-- `Request<Value>`, as the server decodes it. -/
def Request.ofJson : Json → Option (Request Value)
  | .obj members => do
    let v ← Version.ofJson (← field "v".toList members)
    let id ← textOfJson (← field "id".toList members)
    let body ← field "body".toList members
    return ⟨v, id, valueOfJson body⟩
  | _ => none

def textOfContent : Value → Option Text
  | .str text => some text
  | _ => none

def boolOfContent : Value → Option Bool
  | .bool b => some b
  | _ => none

/-- `Option<Value>`: a null is `None`. -/
def optionOfContent : Value → Option Value
  | .null => none
  | content => some content.sort

def Fault.ofContent : Value → Option Fault
  | .obj members => do
    let code ← textOfContent (← field "code".toList members)
    let message ← textOfContent (← field "message".toList members)
    let retryable ← boolOfContent (← field "retryable".toList members)
    let details ← defaultField "details".toList members
    return ⟨code, message, retryable, details.bind optionOfContent⟩
  | _ => none

/-- The outcome is the first member of the buffer with a variant's name. -/
def Outcome.ofContent (response : Value → Option R) (members : List (Text × Value)) : Option (Outcome R) :=
  match members.find? fun m => m.1 = "ok".toList ∨ m.1 = "err".toList with
  | some (name, content) =>
    if name = "ok".toList then (response content).map .ok else (Fault.ofContent content).map .err
  | none => none

/-- `Response<R>`; what is neither `v` nor `id` is buffered for the outcome. -/
def Response.ofJson (response : Value → Option R) : Json → Option (Response R)
  | .obj members => do
    let v ← Version.ofJson (← field "v".toList members)
    let id ← textOfJson (← field "id".toList members)
    let rest := members.filter fun m => m.1 ≠ "v".toList ∧ m.1 ≠ "id".toList
    let outcome ← Outcome.ofContent response (Value.ofMembers Fits64 rest)
    return ⟨v, id, outcome⟩
  | _ => none

lemma fromSlice_toVec {json : Json} (hn : json.numbers = true) (hd : json.depth < recursionLimit) :
    fromSlice (toVec json) = some json := by
  rw [fromSlice, toVec, fromUtf8_utf8]
  exact Json.parse_render hn hd

lemma ascii_newline : '\n'.toNat < 128 := by decide

lemma newline_not_mem_toVec {json : Json} (hn : json.numbers = true) : asciiByte '\n' ∉ toVec json := by
  intro h
  have hmem : '\n' ∈ json.render := (mem_utf8_ascii ascii_newline).mp h
  exact Json.newline_not_mem_render json hn hmem

lemma u16OfJson_intLiteral {n : ℕ} (h : n < 65536) :
    u16OfJson (.num (Json.intLiteral n)) = some (UInt16.ofNat n) := by
  have hrange : (0 : ℤ) ≤ n ∧ (n : ℤ) < 65536 := ⟨Int.natCast_nonneg n, Int.ofNat_lt.mpr h⟩
  rw [u16OfJson, Json.readInt_intLiteral, Option.bind_eq_bind, Option.bind_some, if_pos hrange, Int.toNat_natCast]

lemma u16OfJson_toNat (n : UInt16) : u16OfJson (.num (Json.intLiteral n.toNat)) = some n := by
  rw [u16OfJson_intLiteral n.toNat_lt, UInt16.ofNat_toNat]

lemma Version.ofJson_toJson (v : Version) : Version.ofJson v.toJson = some v := by
  simp [Version.toJson, Version.ofJson, field, u16OfJson_toNat]

lemma Request.ofJson_toJson (body : B → Json) (request : Request B) :
    Request.ofJson (request.toJson body) = some ⟨request.v, request.id, valueOfJson (body request.body)⟩ := by
  simp [Request.toJson, Request.ofJson, field, Version.ofJson_toJson, textOfJson]

/-- What the two sides of a response exchange of the response itself. -/
lemma Response.ofJson_ok (encode : R → Json) (decode : Value → Option B) (v : Version) (id : Text) (r : R) :
    Response.ofJson decode (Response.toJson encode ⟨v, id, .ok r⟩) =
      (decode (Value.ofJson Fits64 (encode r))).map fun b => ⟨v, id, .ok b⟩ := by
  simp [Response.toJson, Response.ofJson, Outcome.member, field, Version.ofJson_toJson, textOfJson,
    Outcome.ofContent, Value.ofMembers]
  cases decode (Value.ofJson Fits64 (encode r)) <;> rfl

lemma Response.ofJson_err (encode : R → Json) (decode : Value → Option B) (v : Version) (id : Text) (fault : Fault) :
    Response.ofJson decode (Response.toJson encode ⟨v, id, .err fault⟩) =
      (Fault.ofContent (Value.ofJson Fits64 fault.toJson)).map fun fault => ⟨v, id, .err fault⟩ := by
  simp [Response.toJson, Response.ofJson, Outcome.member, field, Version.ofJson_toJson, textOfJson,
    Outcome.ofContent, Value.ofMembers]
  cases Fault.ofContent (Value.ofJson Fits64 fault.toJson) <;> rfl

/-- The response as the client decodes it, for a caller that takes any JSON value. -/
def Response.decode (bytes : Bytes) : Option (Response Value) :=
  (fromSlice bytes).bind (Response.ofJson fun content => some content.sort)

def Request.decode (bytes : Bytes) : Option (Request Value) :=
  (fromSlice bytes).bind Request.ofJson

def Response.encode (response : Response Value) : Bytes :=
  toVec (response.toJson Value.toJson)

def Request.encode (request : Request Value) : Bytes :=
  toVec (request.toJson Value.toJson)

/-- All its JSON values have 64-bit integers. -/
def Outcome.Wf : Outcome Value → Prop
  | .ok response => response.Wf
  | .err fault => ∀ details ∈ fault.details, details.Wf

lemma numbers_version (v : Version) : v.toJson.numbers = true := by
  simp [Version.toJson, Json.numbers, Json.numbersMembers, Json.isNumber_intLiteral]

lemma numbers_fault {fault : Fault} (h : ∀ details ∈ fault.details, details.Wf) : fault.toJson.numbers = true := by
  cases hdetails : fault.details with
  | none => simp [Fault.toJson, hdetails, Json.numbers, Json.numbersMembers]
  | some details =>
    have hnumbers := Value.numbers_toJson details (h details hdetails)
    simp [Fault.toJson, hdetails, Json.numbers, Json.numbersMembers, hnumbers]

lemma numbers_response {response : Response Value} (h : response.outcome.Wf) :
    (response.toJson Value.toJson).numbers = true := by
  have hmember : (response.outcome.member Value.toJson).2.numbers = true := by
    cases houtcome : response.outcome with
    | ok value =>
      rw [houtcome] at h
      exact Value.numbers_toJson value h
    | err fault =>
      rw [houtcome] at h
      exact numbers_fault h
  simp [Response.toJson, Json.numbers, Json.numbersMembers, numbers_version, hmember]

lemma numbers_request {request : Request Value} (h : request.body.Wf) :
    (request.toJson Value.toJson).numbers = true := by
  simp [Request.toJson, Json.numbers, Json.numbersMembers, numbers_version, Value.numbers_toJson _ h]

/-- A fault through the buffer keeps everything but a null as its details. -/
lemma Fault.ofContent_toJson {fault : Fault} (h : ∀ details ∈ fault.details, details.Wf) :
    Fault.ofContent (Value.ofJson Fits64 fault.toJson) =
      some { fault with details := fault.details.bind optionOfContent } := by
  cases hdetails : fault.details with
  | none => simp [Fault.toJson, hdetails, Value.ofJson, Value.ofMembers, Fault.ofContent, field, defaultField,
      textOfContent, boolOfContent]
  | some details =>
    have hcontent := Value.ofJson_toJson details (h details hdetails)
    simp [Fault.toJson, hdetails, Value.ofJson, Value.ofMembers, Fault.ofContent, field, defaultField,
      textOfContent, boolOfContent, hcontent]

lemma optionOfContent_eq {details : Value} (h : details.Wf) (hne : details ≠ .null) :
    optionOfContent details = some details := by
  unfold optionOfContent
  split
  · exact absurd rfl hne
  · rw [Value.sort_eq _ h]

/-- Which faults come back as they were. -/
lemma Fault.details_iff {fault : Fault} (h : ∀ details ∈ fault.details, details.Wf) :
    fault.details.bind optionOfContent = fault.details ↔ fault.details ≠ some .null := by
  cases hdetails : fault.details with
  | none => simp
  | some details =>
    rw [Option.bind_some]
    constructor
    · rintro heq hnull
      rw [Option.some_inj] at hnull
      rw [hnull] at heq
      cases heq
    · intro hne
      exact optionOfContent_eq (h details hdetails) fun hnull => hne (congrArg some hnull)

lemma Request.decode_encode {request : Request Value} (h : request.body.Wf)
    (hd : (request.toJson Value.toJson).depth < recursionLimit) : Request.decode request.encode = some request := by
  rw [Request.decode, Request.encode, fromSlice_toVec (numbers_request h) hd, Option.bind_some,
    Request.ofJson_toJson, valueOfJson, Value.ofJson_toJson _ h, Value.sort_eq _ h]

lemma Response.decode_encode_iff {response : Response Value} (h : response.outcome.Wf)
    (hd : (response.toJson Value.toJson).depth < recursionLimit) :
    Response.decode response.encode = some response ↔
      ∀ fault, response.outcome = .err fault → fault.details ≠ some .null := by
  obtain ⟨v, id, outcome⟩ := response
  rw [Response.decode, Response.encode, fromSlice_toVec (numbers_response h) hd, Option.bind_some]
  cases outcome with
  | ok value =>
    rw [Response.ofJson_ok, Value.ofJson_toJson value h, Value.sort_eq value h]
    simp
  | err fault =>
    rw [Response.ofJson_err, Fault.ofContent_toJson h]
    simp only [Option.map_some, Option.some_inj, Response.mk.injEq, true_and, Outcome.err.injEq]
    constructor
    · rintro heq fault' rfl
      exact (Fault.details_iff h).mp (congrArg Fault.details heq)
    · intro hne
      rw [(Fault.details_iff h).mpr (hne fault rfl)]

/-- Envelopes come back as they were, except a fault whose details are a JSON null. -/
theorem envelope_round_trip_iff (response : Response Value) (request : Request Value)
    (hresponse : response.outcome.Wf) (hrequest : request.body.Wf)
    (hd : (response.toJson Value.toJson).depth < recursionLimit)
    (hd' : (request.toJson Value.toJson).depth < recursionLimit) :
    (Response.decode response.encode = some response ∧ Request.decode request.encode = some request ∧
      asciiByte '\n' ∉ response.encode ∧ asciiByte '\n' ∉ request.encode) ↔
    ∀ fault, response.outcome = .err fault → fault.details ≠ some .null := by
  rw [Response.decode_encode_iff hresponse hd]
  constructor
  · intro h
    exact h.1
  · intro h
    exact ⟨h, Request.decode_encode hrequest hd', newline_not_mem_toVec (numbers_response hresponse),
      newline_not_mem_toVec (numbers_request hrequest)⟩

/-- A response with no null details, and a request for it. -/
theorem envelope_round_trip_not_found :
    let response : Response Value := ⟨⟨1, 0⟩, "a-0".toList, .err ⟨"not_found".toList, "no such thing".toList, false,
      some (.obj [("status".toList, .num (.int 404))])⟩⟩
    Response.decode response.encode = some response ∧ asciiByte '\n' ∉ response.encode := by
  intro response
  have h := (envelope_round_trip_iff response ⟨⟨1, 0⟩, "a-0".toList, .str "missing".toList⟩
    (by
      intro details hdetails
      obtain rfl : _ = details := Option.some_inj.mp hdetails
      have hfits : Fits64 404 := by decide
      exact ⟨List.pairwise_singleton _ _, hfits, trivial⟩)
    trivial (by decide) (by decide)).mpr (by
      rintro fault hfault
      cases hfault
      simp)
  exact ⟨h.1, h.2.2.1⟩

/-- Details that are a JSON null do not come back. -/
theorem null_details_lost :
    let response : Response Value := ⟨⟨1, 0⟩, "a-0".toList, .err ⟨"gone".toList, "it is gone".toList, false, some .null⟩⟩
    response.outcome.Wf ∧ (response.toJson Value.toJson).depth < recursionLimit ∧
      Response.decode response.encode ≠ some response := by
  intro response
  have hwf : response.outcome.Wf := by
    rintro details ⟨⟩
    exact trivial
  have hd : (response.toJson Value.toJson).depth < recursionLimit := by decide
  refine ⟨hwf, hd, fun h => ?_⟩
  exact (Response.decode_encode_iff hwf hd).mp h _ rfl rfl

end Unixd
