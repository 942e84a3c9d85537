import Unixd.Frame
import Unixd.Lib.Schema

/-!
# The transport

One call: the client's request frame, the server that decodes it and runs the handler, the response
frame and what the client makes of it. Payloads are typed data; each side decodes them through an
untyped value.
-/

namespace Unixd

open Lib

/-- An error a handler returns. -/
structure Failure where
  code : Text
  message : Text
  retryable : Bool
  details : Option Value

/-- Answers one decoded request. -/
structure Handler where
  request : Schema
  handle : Data → Except Failure Data

/-- `serde_json::Value` parses a number from a key and has 128-bit integers asked of it. -/
def valueDecoder : Decoder := ⟨true, true⟩

/-- The buffer of a flattened field keeps keys as strings. Whether it can be asked for an integer of
128 bits is left open. -/
def contentDecoder (wideInts : Bool) : Decoder := ⟨false, wideInts⟩

def decimal (n : ℕ) : Text :=
  Nat.toDigits 10 n

def unsupportedVersion (version sent : Version) : Fault :=
  ⟨"unsupported_version".toList,
    "this server speaks major version ".toList ++ decimal version.major.toNat ++ ", not ".toList ++
      decimal sent.major.toNat,
    false,
    some (.obj [("requested_major".toList, .num (.int sent.major.toNat)),
      ("supported_major".toList, .num (.int version.major.toNat))])⟩

def invalidRequest : Fault :=
  ⟨"invalid_request".toList, "the request body is not one this server answers".toList, false, none⟩

namespace Server

/-- The requests that the handler ran on, and the outcome. -/
def respond (handler : Handler) (version sent : Version) (body : Value) : List Data × Outcome Data :=
  if sent.major ≠ version.major then
    ([], .err (unsupportedVersion version sent))
  else
    match Schema.decode valueDecoder handler.request body with
    | none => ([], .err invalidRequest)
    | some request =>
      match handler.handle request with
      | .ok response => ([request], .ok response)
      | .error e => ([request], .err ⟨e.code, e.message, e.retryable, e.details⟩)

/-- Serves one connection whose request arrives in time: the requests that the handler ran on, and
the bytes sent back. -/
def serveAs (codec : LinesCodec) (handler : Handler) (version : Version) (maxFrameBytes : ℕ) (sameUser : Bool)
    (reads : List (Except IoErrorKind Bytes)) : List Data × Bytes :=
  if ¬ sameUser then
    ([], [])
  else
    match (readFrame codec maxFrameBytes reads).1 with
    | none => ([], [])
    | some line =>
      match (Json.parse recursionLimit line).bind Request.ofJson with
      | none => ([], [])
      | some request =>
        let answer := respond handler version request.v request.body
        (answer.1, toVec (Response.toJson Data.encode ⟨version, request.id, answer.2⟩) ++ [newline])

end Server

namespace Client

/-- What a call meets after it has encoded its request. -/
structure Connection where
  connect : Except ClientError Unit
  trusted : Bool
  writes : List (Turn ℕ)
  shutdown : Except IoErrorKind Unit
  reads : List (Turn Bytes)

def requestFrame (version : Version) (id : Text) (body : Data) : Bytes :=
  toVec (Request.toJson Data.encode ⟨version, id, body⟩) ++ [newline]

/-- The response of a frame. -/
def accept (version : Version) (id : Text) (decode : Value → Option Data) (line : Bytes) : Except ClientError Data :=
  match (fromSlice line).bind (Response.ofJson decode) with
  | none => .error .invalidFrame
  | some response =>
    if response.id ≠ id then
      .error .invalidFrame
    else
      match response.outcome with
      | .ok r => if response.v.major ≠ version.major then .error .invalidFrame else .ok r
      | .err fault => .error (.remote fault)

/-- Sends `body` and returns the handler's response; `none` while a write still waits. -/
def call (version : Version) (maxFrameBytes : ℕ) (id : Text) (decode : Value → Option Data) (body : Data)
    (connection : Connection) : Option (Except ClientError Data) :=
  let frame := requestFrame version id body
  if maxFrameBytes < frame.length then
    some (.error .frameTooLarge)
  else
    match connection.connect with
    | .error e => some (.error e)
    | .ok () =>
      if ¬ connection.trusted then
        some (.error .peerMismatch)
      else
        match (writeFrame frame connection.writes).1 with
        | none => none
        | some (.error e) => some (.error e)
        | some (.ok ()) =>
          match connection.shutdown with
          | .error kind => some (.error (ioError kind))
          | .ok () =>
            match readFrame maxFrameBytes [] connection.reads with
            | .error e => some (.error e)
            | .ok line => some (accept version id decode line)

end Client

/-- `serde_json` decodes the value's own encoding directly back to it. -/
def Direct (s : Schema) (d : Data) : Prop :=
  (fromSlice (toVec d.encode)).bind (fun json => Schema.decode ⟨true, true⟩ s (Value.ofJson (fun _ => True) json)) =
    some d

lemma Direct.clear {s : Schema} {d : Data} (hof : s.Of d) (h : Direct s d) : s.Clear d := by
  obtain ⟨json, hjson, hdecode⟩ := Option.bind_eq_some_iff.mp h
  rw [fromSlice, toVec, fromUtf8_utf8] at hjson
  obtain ⟨rfl, -⟩ := (Json.parse_render_iff d.numbers_encode (by decide)).mp hjson
  exact (Schema.of_decode_content d s d hof hdecode).2 rfl

/-- A payload that comes through a request: integers of 64 bits, and one level of nesting to spare. -/
def CarriedByRequest (s : Schema) (d : Data) : Prop :=
  s.Carried Fits64 valueDecoder d ∧ d.encode.depth + 1 < recursionLimit

/-- A payload that comes through a response: no number keys either. -/
def CarriedByResponse (wideInts : Bool) (s : Schema) (d : Data) : Prop :=
  s.Carried Fits64 (contentDecoder wideInts) d ∧ d.encode.depth + 1 < recursionLimit

lemma numbers_requestFrame (request : Request Data) : (request.toJson Data.encode).numbers = true := by
  simp [Request.toJson, Json.numbers, Json.numbersMembers, numbers_version, Data.numbers_encode]

lemma depth_requestFrame (request : Request Data) :
    (request.toJson Data.encode).depth < recursionLimit ↔ request.body.encode.depth + 1 < recursionLimit := by
  simp only [Request.toJson, Version.toJson, Json.depth, Json.depthMembers, recursionLimit]
  omega

lemma numbers_responseFrame {response : Response Data} {r : Data} (h : response.outcome = .ok r) :
    (response.toJson Data.encode).numbers = true := by
  simp [Response.toJson, h, Outcome.member, Json.numbers, Json.numbersMembers, numbers_version, Data.numbers_encode]

lemma depth_responseFrame {response : Response Data} {r : Data} (h : response.outcome = .ok r) :
    (response.toJson Data.encode).depth < recursionLimit ↔ r.encode.depth + 1 < recursionLimit := by
  simp only [Response.toJson, h, Outcome.member, Version.toJson, Json.depth, Json.depthMembers, recursionLimit]
  omega

/-- One call with one user on both ends, no timeout and frames within both caps: the request arrives
in some chunks, and the answer in some reads. -/
structure Exchange (codec : LinesCodec) (handler : Handler) (client server : Version) (id : Text)
    (clientCap serverCap : ℕ) (b : Data) where
  connection : Client.Connection
  chunks : List Bytes
  connects : connection.connect = .ok ()
  trusted : connection.trusted = true
  writes : (Client.writeFrame (Client.requestFrame client id b) connection.writes).1 = some (.ok ())
  shutdown : connection.shutdown = .ok ()
  nonempty : ∀ chunk ∈ chunks, chunk ≠ []
  sent : chunks.flatten = (Client.writeFrame (Client.requestFrame client id b) connection.writes).2
  quiet : ∀ turn ∈ connection.reads, turn.Quiet
  reply : connection.reads.flatMap Turn.bytes =
    (Server.serveAs codec handler server serverCap true (chunks.map .ok)).2
  request_client : (Client.requestFrame client id b).length ≤ clientCap
  request_server : (Client.requestFrame client id b).length ≤ serverCap
  reply_client : (Server.serveAs codec handler server serverCap true (chunks.map .ok)).2.length ≤ clientCap

lemma renderMembers_last (ms : List (Text × Json)) : ∃ start, Json.renderMembers ms = start ++ ['}'] := by
  induction ms with
  | nil => exact ⟨[], rfl⟩
  | cons m ms ih =>
    obtain ⟨name, x⟩ := m
    obtain ⟨start, hstart⟩ := ih
    refine ⟨',' :: Json.quote name ++ ':' :: x.render ++ start, ?_⟩
    rw [Json.renderMembers, hstart, ← List.append_assoc]

lemma render_obj_last (ms : List (Text × Json)) : ∃ start, (Json.obj ms).render = start ++ ['}'] := by
  cases ms with
  | nil => exact ⟨['{'], rfl⟩
  | cons m ms =>
    obtain ⟨name, x⟩ := m
    obtain ⟨start, hstart⟩ := renderMembers_last ms
    refine ⟨'{' :: Json.quote name ++ ':' :: x.render ++ start, ?_⟩
    rw [Json.render, hstart, ← List.append_assoc]

lemma toVec_obj_last (ms : List (Text × Json)) : (toVec (.obj ms)).getLast? ≠ some carriageReturn := by
  obtain ⟨start, hstart⟩ := render_obj_last ms
  rw [toVec, hstart, utf8_append]
  have hbrace : utf8 ['}'] = [125] := by decide
  have hne : (125 : UInt8) ≠ carriageReturn := by decide
  rw [hbrace, List.getLast?_concat]
  simpa using hne

section exchange

/-- What the server does in an exchange. -/
abbrev Exchange.serve {codec : LinesCodec} {handler : Handler} {client server : Version} {id : Text}
    {clientCap serverCap : ℕ} {b : Data} (x : Exchange codec handler client server id clientCap serverCap b) :
    List Data × Bytes :=
  Server.serveAs codec handler server serverCap true (x.chunks.map .ok)

/-- What the call returns that decodes the response as `schema`. -/
abbrev Exchange.call {codec : LinesCodec} {handler : Handler} {client server : Version} {id : Text}
    {clientCap serverCap : ℕ} {b : Data} (x : Exchange codec handler client server id clientCap serverCap b)
    (wideInts : Bool) (schema : Schema) : Option (Except ClientError Data) :=
  Client.call client clientCap id (Schema.decode (contentDecoder wideInts) schema) b x.connection

variable {codec : LinesCodec} {handler : Handler} {client server : Version} {id : Text} {clientCap serverCap : ℕ}
  {b r : Data} {response : Schema} {wideInts : Bool}

/-- The server finds the request in its reads. -/
lemma Exchange.line (x : Exchange codec handler client server id clientCap serverCap b) (h : codec.Lawful) :
    (Server.readFrame codec serverCap (x.chunks.map .ok)).1 =
      some (Request.toJson Data.encode ⟨client, id, b⟩).render := by
  have hsent := (Client.writeFrame_sent _ _).2 x.writes
  have hlen := x.request_server
  rw [Client.requestFrame, List.length_append, List.length_singleton] at hlen
  apply Server.readFrame_line h (newline_not_mem_toVec (numbers_requestFrame _)) (toVec_obj_last _) _ x.nonempty
  · rw [x.sent, hsent]
    rfl
  · exact hlen

lemma Exchange.served (x : Exchange codec handler client server id clientCap serverCap b) (h : codec.Lawful)
    (hd : b.encode.depth + 1 < recursionLimit) :
    Server.serveAs codec handler server serverCap true (x.chunks.map .ok) =
      let answer := Server.respond handler server client (b.content Fits64).sort
      (answer.1, toVec (Response.toJson Data.encode ⟨server, id, answer.2⟩) ++ [newline]) := by
  have hparse : Json.parse recursionLimit (Request.toJson Data.encode ⟨client, id, b⟩).render =
      some (Request.toJson Data.encode ⟨client, id, b⟩) :=
    Json.parse_render (numbers_requestFrame _) ((depth_requestFrame _).mpr hd)
  rw [Server.serveAs, if_neg (by simp), x.line h]
  simp only [hparse, Option.bind_some, Request.ofJson_toJson]
  rfl

lemma Exchange.unserved (x : Exchange codec handler client server id clientCap serverCap b) (h : codec.Lawful)
    (hd : ¬ b.encode.depth + 1 < recursionLimit) :
    Server.serveAs codec handler server serverCap true (x.chunks.map .ok) = ([], []) := by
  have hparse : Json.parse recursionLimit (Request.toJson Data.encode ⟨client, id, b⟩).render = none := by
    cases hparse : Json.parse recursionLimit (Request.toJson Data.encode ⟨client, id, b⟩).render with
    | none => rfl
    | some json =>
      have hdepth := ((Json.parse_render_iff (numbers_requestFrame _) (by decide)).mp hparse).2
      exact absurd ((depth_requestFrame _).mp hdepth) hd
  rw [Server.serveAs, if_neg (by simp), x.line h]
  simp only [hparse, Option.bind_none]

/-- The handler runs on the request once and on nothing else, exactly when the request carries it. -/
theorem Exchange.runs_iff (x : Exchange codec handler client server id clientCap serverCap b) (h : codec.Lawful)
    (hmajor : client.major = server.major) (hof : handler.request.Of b) (hdirect : Direct handler.request b) :
    (Server.serveAs codec handler server serverCap true (x.chunks.map .ok)).1 = [b] ↔
      CarriedByRequest handler.request b := by
  have hdecode : Schema.decode valueDecoder handler.request (b.content Fits64) = some b ↔
      handler.request.Carried Fits64 valueDecoder b := Schema.decode_iff hof (hdirect.clear hof)
  by_cases hd : b.encode.depth + 1 < recursionLimit
  · rw [x.served h hd, CarriedByRequest, ← hdecode, Server.respond, if_neg (by rw [hmajor]; simp),
      Schema.decode_sort b _ hof]
    cases hb : Schema.decode valueDecoder handler.request (b.content Fits64) with
    | none => simp
    | some request =>
      have hrun : (match handler.handle request with
          | .ok response => (([request], .ok response) : List Data × Outcome Data)
          | .error e => ([request], .err ⟨e.code, e.message, e.retryable, e.details⟩)).1 = [request] := by
        cases handler.handle request <;> rfl
      simp only [hrun, hd, and_true, List.cons.injEq, Option.some_inj]
  · rw [x.unserved h hd]
    simp [CarriedByRequest, hd]

lemma Exchange.answer (x : Exchange codec handler client server id clientCap serverCap b) (h : codec.Lawful)
    (hmajor : client.major = server.major) (hof : handler.request.Of b) (hdirect : Direct handler.request b)
    (hcarried : CarriedByRequest handler.request b) (hret : handler.handle b = .ok r) :
    (Server.serveAs codec handler server serverCap true (x.chunks.map .ok)).2 =
      toVec (Response.toJson Data.encode ⟨server, id, .ok r⟩) ++ [newline] := by
  have hdecode := (Schema.decode_iff hof (hdirect.clear hof)).mpr hcarried.1
  rw [x.served h hcarried.2, Server.respond, if_neg (by rw [hmajor]; simp), Schema.decode_sort b _ hof, hdecode]
  simp only [hret]

/-- The client takes the response exactly when it carries the handler's answer. -/
lemma accept_iff (hmajor : client.major = server.major) (hof : response.Of r) (hdirect : Direct response r) :
    Client.accept client id (Schema.decode (contentDecoder wideInts) response)
      (toVec (Response.toJson Data.encode ⟨server, id, .ok r⟩)) = .ok r ↔ CarriedByResponse wideInts response r := by
  have hdecode : Schema.decode (contentDecoder wideInts) response (r.content Fits64) = some r ↔
      response.Carried Fits64 (contentDecoder wideInts) r := Schema.decode_iff hof (hdirect.clear hof)
  have hnumbers : (Response.toJson Data.encode ⟨server, id, .ok r⟩).numbers = true := numbers_responseFrame rfl
  have hdepth : (Response.toJson Data.encode ⟨server, id, .ok r⟩).depth < recursionLimit ↔
      r.encode.depth + 1 < recursionLimit := depth_responseFrame rfl
  rw [CarriedByResponse, ← hdecode, ← hdepth, Client.accept]
  by_cases hd : (Response.toJson Data.encode ⟨server, id, .ok r⟩).depth < recursionLimit
  · rw [fromSlice_toVec hnumbers hd, Option.bind_some, Response.ofJson_ok]
    cases hr : Schema.decode (contentDecoder wideInts) response (r.content Fits64) with
    | none =>
      rw [Data.content] at hr
      simp [hr]
    | some r' =>
      rw [Data.content] at hr
      simp [hr, hd, hmajor]
  · have hparse : fromSlice (toVec (Response.toJson Data.encode ⟨server, id, .ok r⟩)) = none := by
      cases hparse : fromSlice (toVec (Response.toJson Data.encode ⟨server, id, .ok r⟩)) with
      | none => rfl
      | some json =>
        rw [fromSlice, toVec, fromUtf8_utf8] at hparse
        exact absurd ((Json.parse_render_iff hnumbers (by decide)).mp hparse).2 hd
    rw [hparse]
    simp [hd]

/-- The client finds the reply in its reads. -/
lemma Exchange.call_eq (x : Exchange codec handler client server id clientCap serverCap b) {json : Json}
    (hnumbers : json.numbers = true) (decode : Value → Option Data)
    (hreply : (Server.serveAs codec handler server serverCap true (x.chunks.map .ok)).2 = toVec json ++ [newline]) :
    Client.call client clientCap id decode b x.connection =
      some (Client.accept client id decode (toVec json)) := by
  have hcap := x.reply_client
  rw [hreply, List.length_append, List.length_singleton] at hcap
  have hread : Client.readFrame clientCap [] x.connection.reads = .ok (toVec json) := by
    rw [Client.readFrame_eq_framed x.quiet List.not_mem_nil (by rw [List.length_nil]; omega), List.nil_append, x.reply,
      hreply, framed_line (newline_not_mem_toVec hnumbers), if_neg (by omega)]
  rw [Client.call, if_neg (Nat.not_lt.mpr x.request_client), x.connects]
  simp only [x.trusted, not_true_eq_false, if_false, x.writes, x.shutdown, hread]

/-- The handler runs once, on exactly `b`, and the call returns exactly `r`, if and only if the two
payloads come through the untyped values they are decoded from. -/
theorem transport_preserves_iff (x : Exchange codec handler client server id clientCap serverCap b)
    (hcodec : codec.Lawful) (hmajor : client.major = server.major) (hb : handler.request.Of b) (hr : response.Of r)
    (hbDirect : Direct handler.request b) (hrDirect : Direct response r) (hret : handler.handle b = .ok r) :
    (x.serve.1 = [b] ∧ x.call wideInts response = some (.ok r)) ↔
    CarriedByRequest handler.request b ∧ CarriedByResponse wideInts response r := by
  rw [x.runs_iff hcodec hmajor hb hbDirect]
  apply and_congr_right
  intro hcarried
  have hcall : x.call wideInts response = some (Client.accept client id
      (Schema.decode (contentDecoder wideInts) response) (toVec (Response.toJson Data.encode ⟨server, id, .ok r⟩))) :=
    x.call_eq (numbers_responseFrame rfl) _ (x.answer hcodec hmajor hb hbDirect hcarried hret)
  rw [hcall, Option.some_inj, accept_iff hmajor hr hrDirect]

end exchange

lemma direct_of {s : Schema} {d : Data} (hof : s.Of d) (hclear : s.Clear d)
    (hcarried : s.Carried (fun _ => True) ⟨true, true⟩ d) (hd : d.encode.depth < recursionLimit) : Direct s d := by
  rw [Direct, fromSlice_toVec d.numbers_encode hd]
  exact Schema.decode_content d s hof hcarried hclear

/-- The reply to a request that comes in one piece. -/
def wholeReply (codec : LinesCodec) (handler : Handler) (version : Version) (id : Text) (b : Data) : Bytes :=
  let frame := Client.requestFrame version id b
  (Server.serveAs codec handler version frame.length true [.ok frame]).2

/-- The exchange in which each frame comes in one piece. -/
def Exchange.whole (codec : LinesCodec) (handler : Handler) (version : Version) (id : Text) (b : Data) :
    Exchange codec handler version version id
      (max (Client.requestFrame version id b).length (wholeReply codec handler version id b).length)
      (Client.requestFrame version id b).length b := by
  let frame := Client.requestFrame version id b
  let reply := wholeReply codec handler version id b
  have hframe : frame ≠ [] := by
    intro h
    have hlen : (toVec (Request.toJson Data.encode ⟨version, id, b⟩) ++ [newline]).length = 0 := congrArg List.length h
    rw [List.length_append, List.length_singleton] at hlen
    cases hlen
  have hlen : frame.length ≠ 0 := fun h => hframe (List.eq_nil_of_length_eq_zero h)
  have hwrites : Client.writeFrame frame [.done frame.length] = (some (.ok ()), frame) := by
    simp [Client.writeFrame, hframe]
  exact
    { connection := ⟨.ok (), true, [.done frame.length], .ok (), if reply = [] then [] else [.done reply]⟩
      chunks := [frame]
      connects := rfl
      trusted := rfl
      writes := congrArg Prod.fst hwrites
      shutdown := rfl
      nonempty := by
        intro chunk hchunk
        rw [List.mem_singleton.mp hchunk]
        exact hframe
      sent := by rw [hwrites, List.flatten_singleton]
      quiet := by
        intro turn hturn
        split_ifs at hturn with hempty
        · cases hturn
        · exact .inr ⟨reply, List.mem_singleton.mp hturn, hempty⟩
      reply := by
        change (if reply = [] then [] else [Turn.done reply]).flatMap Turn.bytes = reply
        split_ifs with hempty
        · rw [hempty]
          rfl
        · exact List.append_nil reply
      request_client := Nat.le_max_left _ _
      request_server := Nat.le_refl _
      reply_client := Nat.le_max_right _ _ }

/-- An echo of a text. -/
theorem transport_preserves_hello :
    let hello : Data := .str "hello".toList
    let handler : Handler := ⟨.str, .ok⟩
    let x := Exchange.whole linesCodec handler ⟨1, 0⟩ "a-0".toList hello
    x.serve.1 = [hello] ∧ x.call false .str = some (.ok hello) := by
  intro hello handler x
  have hof : Schema.Of .str hello := trivial
  have hdirect : Direct .str hello := direct_of hof trivial trivial (by decide)
  exact (transport_preserves_iff x linesCodec_lawful rfl hof hof hdirect hdirect rfl).mpr
    ⟨⟨trivial, by decide⟩, ⟨trivial, by decide⟩⟩

/-- A map with a number as its key does not come back. -/
theorem number_keys_lost :
    let hello : Data := .str "hello".toList
    let names : Data := .map [(.int 1, .str "one".toList)]
    let schema : Schema := .map (.int .u32) .str
    let handler : Handler := ⟨.str, fun _ => .ok names⟩
    let x := Exchange.whole linesCodec handler ⟨1, 0⟩ "a-0".toList hello
    schema.Of names ∧ Direct .str hello ∧ Direct schema names ∧ handler.handle hello = .ok names ∧
      ¬ (x.serve.1 = [hello] ∧ x.call true schema = some (.ok names)) := by
  intro hello names schema handler x
  have hof : schema.Of names := by
    have hkey : IntType.Holds .u32 1 := by decide
    refine ⟨List.pairwise_singleton _ _, fun e he => ?_⟩
    rw [List.mem_singleton.mp he]
    exact ⟨hkey, trivial⟩
  have hstr : Schema.Of .str hello := trivial
  have hhello : Direct .str hello := direct_of hstr trivial trivial (by decide)
  have hnames : Direct schema names := by
    apply direct_of hof _ _ (by decide)
    · intro e he
      rw [List.mem_singleton.mp he]
      exact ⟨trivial, trivial⟩
    · intro e he
      rw [List.mem_singleton.mp he]
      exact ⟨rfl, trivial⟩
  refine ⟨hof, hhello, hnames, rfl, fun h => ?_⟩
  have hcarried := (transport_preserves_iff x linesCodec_lawful rfl hstr hof hhello hnames rfl).mp h
  have hkey : false = true := (hcarried.2.1 (.int 1, .str "one".toList) (List.mem_singleton_self _)).1
  cases hkey

end Unixd
