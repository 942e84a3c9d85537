import Unixd.Envelope

/-!
# Framing

The two readers of one frame and the client's writer, over any way the stream comes in reads. The
codec that the server uses is a parameter, with what it is documented to do stated apart.
-/

namespace Unixd

open Lib

inductive IoErrorKind where
  | interrupted
  | wouldBlock
  | timedOut
  | other (code : ℕ)
  deriving DecidableEq

/-- Why a call failed. -/
inductive ClientError where
  | unavailable
  | timeout
  | peerMismatch
  | frameTooLarge
  | encode
  | closed
  | invalidFrame
  | remote (fault : Fault)
  | io (kind : IoErrorKind)

def newline : UInt8 := asciiByte '\n'

def carriageReturn : UInt8 := asciiByte '\r'

def ioError : IoErrorKind → ClientError
  | .wouldBlock | .timedOut => .timeout
  | kind => .io kind

/-- One turn of a read or write loop: the deadline has passed, or the call returns. -/
inductive Turn (X : Type) where
  | late
  | failed (kind : IoErrorKind)
  | done (x : X)

namespace Client

/-- The client's `read_frame` with `frame` read so far; at the end of the turns the stream ends, and
an empty read is the end as well. -/
def readFrame (max : ℕ) (frame : Bytes) : List (Turn Bytes) → Except ClientError Bytes
  | [] => .error (if frame = [] then .closed else .invalidFrame)
  | .late :: _ => .error .timeout
  | .failed .interrupted :: turns => readFrame max frame turns
  | .failed kind :: _ => .error (ioError kind)
  | .done chunk :: turns =>
    if chunk = [] then
      .error (if frame = [] then .closed else .invalidFrame)
    else
      match chunk.findIdx? (· = newline) with
      | some offset =>
        if max ≤ frame.length + offset then .error .frameTooLarge
        else .ok ((frame ++ chunk).take (frame.length + offset))
      | none =>
        if max ≤ (frame ++ chunk).length then .error .frameTooLarge
        else readFrame max (frame ++ chunk) turns

/-- `write_frame`: what it returns, if it does, and the bytes the peer was sent. -/
def writeFrame (rest : Bytes) : List (Turn ℕ) → Option (Except ClientError Unit) × Bytes
  | [] => (if rest = [] then some (.ok ()) else none, [])
  | turn :: turns =>
    if rest = [] then
      (some (.ok ()), [])
    else
      match turn with
      | .late => (some (.error .timeout), [])
      | .failed .interrupted => writeFrame rest turns
      | .failed kind => (some (.error (ioError kind)), [])
      | .done written =>
        if written = 0 then
          (some (.error .closed), [])
        else
          let later := writeFrame (rest.drop written) turns
          (later.1, rest.take written ++ later.2)

end Client

/-- `LinesCodec`: what it makes of the bytes buffered so far, and of those left at the end. -/
structure LinesCodec where
  decode : ℕ → Bytes → Except Unit (Option Text)
  decodeEof : ℕ → Bytes → Except Unit (Option Text)

/-- It yields the line before the first newline, fails once more bytes than its maximum hold none,
and waits for more before that. -/
structure LinesCodec.Lawful (codec : LinesCodec) : Prop where
  line : ∀ max line rest, newline ∉ utf8 line → (utf8 line).length ≤ max →
    (utf8 line).getLast? ≠ some carriageReturn →
    codec.decode max (utf8 line ++ newline :: rest) = .ok (some line)
  long : ∀ max buffer, max < buffer.length → newline ∉ buffer.take (max + 1) →
    codec.decode max buffer = .error ()
  more : ∀ max buffer, buffer.length ≤ max → newline ∉ buffer → codec.decode max buffer = .ok none

namespace Server

variable (codec : LinesCodec)

/-- The first item of a `FramedRead` over a reader that takes at most `limit` more bytes: the line,
and how many bytes were read. A read of no bytes is the end. -/
def framedNext (maxLength : ℕ) :
    (limit : ℕ) → (buffer : Bytes) → List (Except IoErrorKind Bytes) → Except Unit (Option Text) × ℕ
  | _, buffer, [] => (codec.decodeEof maxLength buffer, 0)
  | limit, buffer, read :: reads =>
    if limit = 0 then
      (codec.decodeEof maxLength buffer, 0)
    else
      match read with
      | .error _ => (.error (), 0)
      | .ok chunk =>
        let got := chunk.take limit
        if got = [] then
          (codec.decodeEof maxLength buffer, 0)
        else
          match codec.decode maxLength (buffer ++ got) with
          | .ok none =>
            let later := framedNext maxLength (limit - got.length) (buffer ++ got) reads
            (later.1, got.length + later.2)
          | result => (result, got.length)

/-- The server's `read_frame`: the line, and how many bytes were read. -/
def readFrame (max : ℕ) (reads : List (Except IoErrorKind Bytes)) : Option Text × ℕ :=
  let next := framedNext codec (max - 1) max [] reads
  match next.1 with
  | .ok line => (line, next.2)
  | .error () => (none, next.2)

end Server

/-- The bytes of a turn. -/
def Turn.bytes : Turn Bytes → Bytes
  | .done chunk => chunk
  | _ => []

/-- The turn of a read that returns some bytes or is interrupted. -/
def Turn.Quiet (turn : Turn Bytes) : Prop :=
  turn = .failed .interrupted ∨ ∃ chunk, turn = .done chunk ∧ chunk ≠ []

/-- What a reader with the cap `max` makes of a whole stream. -/
def framed (max : ℕ) (stream : Bytes) : Except ClientError Bytes :=
  match stream.findIdx? (· = newline) with
  | some index => if max ≤ index then .error .frameTooLarge else .ok (stream.take index)
  | none =>
    if max ≤ stream.length then .error .frameTooLarge
    else .error (if stream = [] then .closed else .invalidFrame)

lemma findIdx_eq_none {bytes : Bytes} : bytes.findIdx? (· = newline) = none ↔ newline ∉ bytes := by
  rw [List.findIdx?_eq_none_iff]
  constructor
  · intro h hmem
    simpa using h newline hmem
  · intro h b hb
    simp only [decide_eq_false_iff_not]
    rintro rfl
    exact h hb

/-- Past a part without newline the cap decides, whatever comes. -/
lemma framed_long {max : ℕ} {start rest : Bytes} (h : newline ∉ start) (hlen : max ≤ start.length) :
    framed max (start ++ rest) = .error .frameTooLarge := by
  rw [framed, List.findIdx?_append, findIdx_eq_none.mpr h, Option.none_or]
  cases hrest : rest.findIdx? (· = newline) with
  | none =>
    have hle : max ≤ (start ++ rest).length := by
      rw [List.length_append]
      omega
    exact if_pos hle
  | some index =>
    have hle : max ≤ index + start.length := by omega
    exact if_pos hle

lemma framed_line {max : ℕ} {line rest : Bytes} (h : newline ∉ line) :
    framed max (line ++ newline :: rest) =
      if max ≤ line.length then .error .frameTooLarge else .ok line := by
  rw [framed, List.findIdx?_append, findIdx_eq_none.mpr h, Option.none_or, List.findIdx?_cons]
  simp

namespace Client

/-- The turns left say what the bytes left say. -/
theorem readFrame_eq_framed {max : ℕ} {turns : List (Turn Bytes)} (hturns : ∀ turn ∈ turns, turn.Quiet) :
    ∀ {frame : Bytes}, newline ∉ frame → frame.length < max →
      readFrame max frame turns = framed max (frame ++ turns.flatMap Turn.bytes) := by
  induction turns with
  | nil =>
    intro frame hframe hlen
    have hnot : ¬ max ≤ frame.length := by omega
    rw [readFrame, List.flatMap_nil, List.append_nil, framed, findIdx_eq_none.mpr hframe]
    exact (if_neg hnot).symm
  | cons turn turns ih =>
    intro frame hframe hlen
    have hquiet : ∀ t ∈ turns, t.Quiet := fun t ht => hturns t (List.mem_cons_of_mem turn ht)
    rcases hturns turn List.mem_cons_self with rfl | ⟨chunk, rfl, hchunk⟩
    · exact ih hquiet hframe hlen
    · rw [readFrame, if_neg hchunk, List.flatMap_cons, Turn.bytes, ← List.append_assoc]
      cases hfind : chunk.findIdx? (· = newline) with
      | none =>
        have hboth : newline ∉ frame ++ chunk := by
          rw [List.mem_append, not_or]
          exact ⟨hframe, findIdx_eq_none.mp hfind⟩
        by_cases hle : max ≤ (frame ++ chunk).length
        · rw [framed_long hboth hle]
          exact if_pos hle
        · simp only [if_neg hle]
          exact ih hquiet hboth (by omega)
      | some offset =>
        have hoffset : offset < chunk.length := (List.findIdx?_eq_some_iff_getElem.mp hfind).1
        have hindex : (frame ++ chunk).findIdx? (· = newline) = some (offset + frame.length) := by
          rw [List.findIdx?_append, findIdx_eq_none.mpr hframe, hfind]
          rfl
        have htake : (frame ++ chunk ++ turns.flatMap Turn.bytes).take (offset + frame.length) =
            (frame ++ chunk).take (offset + frame.length) := by
          apply List.take_append_of_le_length
          rw [List.length_append]
          omega
        rw [framed, List.findIdx?_append, hindex, Option.some_or]
        simp only [htake]
        rw [Nat.add_comm offset]

/-- What a write sends is a prefix of the frame, and all of it when the write returns. -/
theorem writeFrame_sent (frame : Bytes) (turns : List (Turn ℕ)) :
    (writeFrame frame turns).2 <+: frame ∧
      ((writeFrame frame turns).1 = some (.ok ()) → (writeFrame frame turns).2 = frame) := by
  induction turns generalizing frame with
  | nil =>
    by_cases hframe : frame = []
    · simp [writeFrame, hframe]
    · simp [writeFrame, hframe]
  | cons turn turns ih =>
    by_cases hframe : frame = []
    · simp [writeFrame, hframe]
    · cases turn with
      | late => simp [writeFrame, hframe]
      | failed kind =>
        cases kind with
        | interrupted =>
          rw [writeFrame, if_neg hframe]
          exact ih frame
        | wouldBlock => simp [writeFrame, hframe, ioError]
        | timedOut => simp [writeFrame, hframe, ioError]
        | other code => simp [writeFrame, hframe, ioError]
      | done written =>
        rw [writeFrame, if_neg hframe]
        by_cases hzero : written = 0
        · simp [hzero]
        · have hrest := ih (frame.drop written)
          simp only [if_neg hzero]
          constructor
          · have happend := (List.prefix_append_right_inj (frame.take written)).mpr hrest.1
            rwa [List.take_append_drop] at happend
          · intro hok
            rw [hrest.2 hok, List.take_append_drop]

end Client

namespace Server

variable {codec : LinesCodec}

lemma framedNext_read_le (maxLength limit : ℕ) (buffer : Bytes) (reads : List (Except IoErrorKind Bytes)) :
    (framedNext codec maxLength limit buffer reads).2 ≤ limit := by
  induction reads generalizing limit buffer with
  | nil => exact Nat.zero_le _
  | cons read reads ih =>
    by_cases hlimit : limit = 0
    · cases read <;> simp [framedNext, hlimit]
    · cases read with
      | error kind => simp [framedNext, hlimit]
      | ok chunk =>
        have hgot : (chunk.take limit).length ≤ limit := List.length_take_le _ _
        rw [framedNext, if_neg hlimit]
        simp only
        split_ifs with hempty
        · exact Nat.zero_le _
        · split
          · have hlater := ih (limit - (chunk.take limit).length) (buffer ++ chunk.take limit)
            simp only
            omega
          · exact hgot

/-- One read of a stream whose buffered part holds no newline: either the codec waits and the whole
chunk is buffered, or it decides. -/
lemma framedNext_cons {max : ℕ} {buffer chunk : Bytes} (hlen : buffer.length < max) (hchunk : chunk ≠ [])
    (reads : List (Except IoErrorKind Bytes)) :
    framedNext codec (max - 1) (max - buffer.length) buffer (.ok chunk :: reads) =
      match codec.decode (max - 1) (buffer ++ chunk.take (max - buffer.length)) with
      | .ok none =>
        let got := chunk.take (max - buffer.length)
        let later := framedNext codec (max - 1) (max - buffer.length - got.length) (buffer ++ got) reads
        (later.1, got.length + later.2)
      | result => (result, (chunk.take (max - buffer.length)).length) := by
  have hlimit : max - buffer.length ≠ 0 := by omega
  have hgot : chunk.take (max - buffer.length) ≠ [] := by
    intro h
    rcases List.take_eq_nil_iff.mp h with h | h
    · exact hlimit h
    · exact hchunk h
  rw [framedNext, if_neg hlimit]
  simp only [if_neg hgot]

/-- A line shorter than the cap is found in whichever read its newline comes. -/
theorem framedNext_line (h : codec.Lawful) {max : ℕ} {line : Text} {rest : Bytes} (hline : newline ∉ utf8 line)
    (hcr : (utf8 line).getLast? ≠ some carriageReturn) (hmax : (utf8 line).length < max) {chunks : List Bytes}
    (hchunks : ∀ chunk ∈ chunks, chunk ≠ []) :
    ∀ {buffer : Bytes}, buffer.length ≤ (utf8 line).length →
      buffer ++ chunks.flatten = utf8 line ++ newline :: rest →
      (framedNext codec (max - 1) (max - buffer.length) buffer (chunks.map .ok)).1 = .ok (some line) := by
  induction chunks with
  | nil =>
    intro buffer hlen heq
    have hlength := congrArg List.length heq
    simp only [List.flatten_nil, List.append_nil, List.length_append, List.length_cons] at hlength
    omega
  | cons chunk chunks ih =>
    intro buffer hlen heq
    rw [List.map_cons, framedNext_cons (by omega) (hchunks chunk List.mem_cons_self)]
    have hgot : (buffer ++ chunk.take (max - buffer.length)) <+: utf8 line ++ newline :: rest := by
      rw [← heq, List.flatten_cons, ← List.append_assoc]
      exact ((List.prefix_append_right_inj buffer).mpr (List.take_prefix _ _)).trans (List.prefix_append _ _)
    by_cases hshort : (buffer ++ chunk.take (max - buffer.length)).length ≤ (utf8 line).length
    · have hpart : (buffer ++ chunk.take (max - buffer.length)) <+: utf8 line :=
        List.prefix_of_prefix_length_le hgot (List.prefix_append _ _) hshort
      have hnot : newline ∉ buffer ++ chunk.take (max - buffer.length) := fun hmem => hline (hpart.subset hmem)
      have hwhole : chunk.take (max - buffer.length) = chunk := by
        apply List.take_of_length_le
        by_contra hlong
        rw [List.length_append, List.length_take] at hshort
        omega
      rw [h.more _ _ (by omega) hnot, hwhole]
      rw [hwhole] at hshort
      have hrest := ih (fun c hc => hchunks c (List.mem_cons_of_mem chunk hc)) hshort (by
        rw [← heq, List.flatten_cons, List.append_assoc])
      rw [List.length_append, ← Nat.sub_sub] at hrest
      exact hrest
    · have hover : (utf8 line ++ [newline]) <+: buffer ++ chunk.take (max - buffer.length) := by
        apply List.prefix_of_prefix_length_le _ hgot
        · rw [List.length_append, List.length_singleton]
          omega
        · exact (List.prefix_append_right_inj (utf8 line)).mpr (List.prefix_append [newline] rest)
      obtain ⟨tail, htail⟩ := hover
      rw [← htail, List.append_assoc, List.singleton_append, h.line _ _ _ hline (by omega) hcr]

/-- A part without newline as long as the cap is refused. -/
theorem framedNext_long (h : codec.Lawful) {max : ℕ} {chunks : List Bytes} (hchunks : ∀ chunk ∈ chunks, chunk ≠ []) :
    ∀ {buffer : Bytes}, buffer.length < max → max ≤ (buffer ++ chunks.flatten).length →
      newline ∉ (buffer ++ chunks.flatten).take max →
      (framedNext codec (max - 1) (max - buffer.length) buffer (chunks.map .ok)).1 = .error () := by
  induction chunks with
  | nil =>
    intro buffer hlen hlong _
    rw [List.flatten_nil, List.append_nil] at hlong
    omega
  | cons chunk chunks ih =>
    intro buffer hlen hlong hnot
    rw [List.map_cons, framedNext_cons hlen (hchunks chunk List.mem_cons_self)]
    have hgot : (buffer ++ chunk.take (max - buffer.length)) <+: (buffer ++ (chunk :: chunks).flatten).take max := by
      apply List.prefix_take_iff.mpr
      constructor
      · rw [List.flatten_cons, ← List.append_assoc]
        exact ((List.prefix_append_right_inj buffer).mpr (List.take_prefix _ _)).trans (List.prefix_append _ _)
      · rw [List.length_append, List.length_take]
        omega
    have hnone : newline ∉ buffer ++ chunk.take (max - buffer.length) := fun hmem => hnot (hgot.subset hmem)
    by_cases hshort : (buffer ++ chunk.take (max - buffer.length)).length ≤ max - 1
    · have hwhole : chunk.take (max - buffer.length) = chunk := by
        apply List.take_of_length_le
        by_contra hmore
        rw [List.length_append, List.length_take] at hshort
        omega
      rw [h.more _ _ hshort hnone, hwhole]
      rw [hwhole] at hshort
      rw [List.flatten_cons, ← List.append_assoc] at hlong hnot
      have hrest := ih (fun c hc => hchunks c (List.mem_cons_of_mem chunk hc)) (by omega) hlong hnot
      rw [List.length_append, ← Nat.sub_sub] at hrest
      exact hrest
    · rw [h.long _ _ (by omega) fun hmem => hnone (List.take_subset _ _ hmem)]

lemma readFrame_line (h : codec.Lawful) {max : ℕ} {line : Text} {rest : Bytes} {chunks : List Bytes}
    (hline : newline ∉ utf8 line) (hcr : (utf8 line).getLast? ≠ some carriageReturn) (hmax : (utf8 line).length < max)
    (hchunks : ∀ chunk ∈ chunks, chunk ≠ []) (hstream : chunks.flatten = utf8 line ++ newline :: rest) :
    (readFrame codec max (chunks.map .ok)).1 = some line := by
  have hnext : (framedNext codec (max - 1) (max - ([] : Bytes).length) [] (chunks.map .ok)).1 = .ok (some line) :=
    framedNext_line h hline hcr hmax hchunks (Nat.zero_le _) (by rw [List.nil_append, hstream])
  rw [List.length_nil, Nat.sub_zero] at hnext
  rw [readFrame, hnext]

end Server

/-- A line without the carriage return it may end in. -/
def withoutCarriageReturn (line : Bytes) : Bytes :=
  if line.getLast? = some carriageReturn then line.dropLast else line

/-- A codec that does what `LinesCodec` is documented to do. -/
def linesCodec : LinesCodec where
  decode max buffer :=
    match (buffer.take (max + 1)).findIdx? (· = newline) with
    | some index =>
      match fromUtf8 (withoutCarriageReturn (buffer.take index)) with
      | some line => .ok (some line)
      | none => .error ()
    | none => if max < buffer.length then .error () else .ok none
  decodeEof _ buffer :=
    if buffer = [] ∨ buffer = [carriageReturn] then .ok none
    else
      match fromUtf8 (withoutCarriageReturn buffer) with
      | some line => .ok (some line)
      | none => .error ()

theorem linesCodec_lawful : linesCodec.Lawful where
  line max line rest hline hlen hcr := by
    have hfind : ((utf8 line ++ newline :: rest).take (max + 1)).findIdx? (· = newline) = some (utf8 line).length := by
      obtain ⟨n, hn⟩ := Nat.exists_eq_add_of_le hlen
      rw [hn, Nat.add_assoc, List.take_length_add_append, List.take_succ_cons, List.findIdx?_append,
        findIdx_eq_none.mpr hline, Option.none_or, List.findIdx?_cons]
      simp
    simp only [linesCodec, hfind, List.take_left, withoutCarriageReturn, if_neg hcr, fromUtf8_utf8]
  long max buffer hlen hnot := by
    simp only [linesCodec, findIdx_eq_none.mpr hnot, if_pos hlen]
  more max buffer hlen hnot := by
    have hnone : newline ∉ buffer.take (max + 1) := fun hmem => hnot (List.take_subset _ _ hmem)
    simp only [linesCodec, findIdx_eq_none.mpr hnone, if_neg (Nat.not_lt.mpr hlen)]

end Unixd
