import Unixd.Cache.Reading
import Unixd.Cache.Scan
import Unixd.Envelope

/-!
# The JSON of an entry

How an entry is written and how its header and its value are read back, the value by the decoder of
its type. The header is in front of the first `value` key, whatever the namespace and the value are.
-/

namespace Unixd.Cache

open Unixd.Lib

/-- `Serialize` and `DeserializeOwned` of a value type. -/
structure Serde (T : Type) where
  toJson : T → Option Json
  ofJson : Json → Option T
  numbers : ∀ value json, toJson value = some json → json.numbers = true

def Source.text : Source → Name
  | .callerDefault => "caller_default".toList
  | .cacheControl => "cache_control".toList

def Source.ofText (text : Name) : Option Source :=
  if text = Source.text .callerDefault then some .callerDefault
  else if text = Source.text .cacheControl then some .cacheControl
  else none

/-- A unit variant is its name, alone or with a null. -/
def Source.ofJson : Json → Option Source
  | .str text => Source.ofText text
  | .obj [(name, .null)] => Source.ofText name
  | _ => none

/-- An unsigned integer of `bits` bits. -/
def uintOfJson (bits : ℕ) : Json → Option ℕ
  | .num literal => do
    let n ← Json.readInt literal
    if 0 ≤ n ∧ n < 2 ^ bits then some n.toNat else none
  | _ => none

def natJson (n : ℕ) : Json :=
  .num (Json.intLiteral n)

/-- The members of an entry in front of its value. -/
def Header.members (header : Header) : List (Name × Json) :=
  [("format".toList, natJson header.format), ("schema".toList, natJson header.schema),
    ("namespace".toList, .str header.space), ("digest".toList, .str header.digest),
    ("stored_at_ms".toList, natJson header.storedAtMs), ("fresh_until_ms".toList, natJson header.freshUntilMs),
    ("stale_until_ms".toList, natJson header.staleUntilMs), ("source".toList, .str header.source.text)]

/-- A struct is read from an object, or from an array in the order of its fields. -/
def Header.ofJson : Json → Option Header
  | .obj members => do
    let format ← uintOfJson 8 (← field "format".toList members)
    let schema ← uintOfJson 32 (← field "schema".toList members)
    let space ← textOfJson (← field "namespace".toList members)
    let digest ← textOfJson (← field "digest".toList members)
    let storedAtMs ← uintOfJson 64 (← field "stored_at_ms".toList members)
    let freshUntilMs ← uintOfJson 64 (← field "fresh_until_ms".toList members)
    let staleUntilMs ← uintOfJson 64 (← field "stale_until_ms".toList members)
    let source ← Source.ofJson (← field "source".toList members)
    return ⟨format, schema, space, digest, storedAtMs, freshUntilMs, staleUntilMs, source⟩
  | .arr [format, schema, space, digest, storedAtMs, freshUntilMs, staleUntilMs, source] => do
    return ⟨← uintOfJson 8 format, ← uintOfJson 32 schema, ← textOfJson space, ← textOfJson digest,
      ← uintOfJson 64 storedAtMs, ← uintOfJson 64 freshUntilMs, ← uintOfJson 64 staleUntilMs, ← Source.ofJson source⟩
  | _ => none

/-- The integers of a header are within their types. -/
structure Header.Fits (header : Header) : Prop where
  format : header.format < 2 ^ 8
  schema : header.schema < 2 ^ 32
  stored : header.storedAtMs < 2 ^ 64
  fresh : header.freshUntilMs < 2 ^ 64
  stale : header.staleUntilMs < 2 ^ 64

/-- What is ignored is not limited in depth. -/
def headerOfBytes (bytes : Bytes) : Option Header := do
  let text ← fromUtf8 bytes
  Header.ofJson (← Json.parse (text.length + 1) text)

def valueMember : Name := "value".toList

namespace Serde

variable {T : Type} (serde : Serde T)

def valueOfBytes (bytes : Bytes) : Option T := do
  match ← fromSlice bytes with
  | .obj members => serde.ofJson (← field valueMember members)
  | .arr [value] => serde.ofJson value
  | _ => none

def codec : Codec T where
  encode written := (serde.toJson written.value).map fun value =>
    toVec (.obj (written.header.members ++ [(valueMember, value)]))
  header := headerOfBytes
  value := serde.valueOfBytes

/-- The JSON of a value decodes back from the member of an object. -/
def RoundTrips (value : T) : Prop :=
  ∀ json, serde.toJson value = some json → serde.valueOfBytes (toVec (.obj [(valueMember, json)])) = some value

end Serde

lemma uintOfJson_natJson {bits n : ℕ} (h : n < 2 ^ bits) : uintOfJson bits (natJson n) = some n := by
  simp only [uintOfJson, natJson, Json.readInt_intLiteral, Option.bind_eq_bind, Option.bind_some]
  rw [if_pos ⟨Int.natCast_nonneg n, by exact_mod_cast h⟩, Int.toNat_natCast]

lemma Source.ofText_text (source : Source) : Source.ofText source.text = some source := by
  cases source <;> rfl

lemma field_append {X : Type} {name : Name} {members rest : List (Name × X)} {x : X} (h : field name members = some x)
    (hrest : ∀ m ∈ rest, m.1 ≠ name) : field name (members ++ rest) = some x := by
  have hnone : rest.filter (fun m => decide (m.1 = name)) = [] := by
    rw [List.filter_eq_nil_iff]
    intro m hm
    simpa using hrest m hm
  unfold field at h ⊢
  rw [List.filter_append, hnone, List.append_nil]
  exact h

/-- The members of a header read back, whatever else there is under the name of the value. -/
lemma Header.ofJson_members {header : Header} (h : header.Fits) {rest : List (Name × Json)}
    (hrest : ∀ m ∈ rest, m.1 = valueMember) : Header.ofJson (.obj (header.members ++ rest)) = some header := by
  have hfield : ∀ (name : Name) {json : Json}, name ≠ valueMember → field name header.members = some json →
      field name (header.members ++ rest) = some json := by
    intro name json hname hjson
    apply field_append hjson
    intro m hm
    rw [hrest m hm]
    exact hname.symm
  rw [Header.ofJson, hfield "format".toList (by decide) rfl, hfield "schema".toList (by decide) rfl,
    hfield "namespace".toList (by decide) rfl, hfield "digest".toList (by decide) rfl,
    hfield "stored_at_ms".toList (by decide) rfl, hfield "fresh_until_ms".toList (by decide) rfl,
    hfield "stale_until_ms".toList (by decide) rfl, hfield "source".toList (by decide) rfl]
  simp only [Option.bind_eq_bind, Option.bind_some, uintOfJson_natJson h.format, uintOfJson_natJson h.schema,
    uintOfJson_natJson h.stored, uintOfJson_natJson h.fresh, uintOfJson_natJson h.stale, textOfJson, Source.ofJson,
    Source.ofText_text]
  rfl

lemma uintOfJson_lt {bits n : ℕ} {json : Json} (h : uintOfJson bits json = some n) : n < 2 ^ bits := by
  cases json with
  | num literal =>
    obtain ⟨m, -, hm⟩ := Option.bind_eq_some_iff.mp h
    by_cases hfits : 0 ≤ m ∧ m < 2 ^ bits
    · rw [if_pos hfits, Option.some_inj] at hm
      rw [← hm, Int.toNat_lt hfits.1]
      exact_mod_cast hfits.2
    · rw [if_neg hfits] at hm
      cases hm
  | _ => cases h

/-- The integers of a header that is read are within their types. -/
lemma Header.ofJson_fits {json : Json} {header : Header} (h : Header.ofJson json = some header) : header.Fits := by
  unfold Header.ofJson at h
  split at h
  · obtain ⟨_, -, h⟩ := Option.bind_eq_some_iff.mp h
    obtain ⟨format, hformat, h⟩ := Option.bind_eq_some_iff.mp h
    obtain ⟨_, -, h⟩ := Option.bind_eq_some_iff.mp h
    obtain ⟨schema, hschema, h⟩ := Option.bind_eq_some_iff.mp h
    obtain ⟨_, -, h⟩ := Option.bind_eq_some_iff.mp h
    obtain ⟨_, -, h⟩ := Option.bind_eq_some_iff.mp h
    obtain ⟨_, -, h⟩ := Option.bind_eq_some_iff.mp h
    obtain ⟨_, -, h⟩ := Option.bind_eq_some_iff.mp h
    obtain ⟨_, -, h⟩ := Option.bind_eq_some_iff.mp h
    obtain ⟨stored, hstored, h⟩ := Option.bind_eq_some_iff.mp h
    obtain ⟨_, -, h⟩ := Option.bind_eq_some_iff.mp h
    obtain ⟨fresh, hfresh, h⟩ := Option.bind_eq_some_iff.mp h
    obtain ⟨_, -, h⟩ := Option.bind_eq_some_iff.mp h
    obtain ⟨stale, hstale, h⟩ := Option.bind_eq_some_iff.mp h
    obtain ⟨_, -, h⟩ := Option.bind_eq_some_iff.mp h
    obtain ⟨_, -, h⟩ := Option.bind_eq_some_iff.mp h
    cases h
    exact ⟨uintOfJson_lt hformat, uintOfJson_lt hschema, uintOfJson_lt hstored, uintOfJson_lt hfresh, uintOfJson_lt hstale⟩
  · obtain ⟨format, hformat, h⟩ := Option.bind_eq_some_iff.mp h
    obtain ⟨schema, hschema, h⟩ := Option.bind_eq_some_iff.mp h
    obtain ⟨_, -, h⟩ := Option.bind_eq_some_iff.mp h
    obtain ⟨_, -, h⟩ := Option.bind_eq_some_iff.mp h
    obtain ⟨stored, hstored, h⟩ := Option.bind_eq_some_iff.mp h
    obtain ⟨fresh, hfresh, h⟩ := Option.bind_eq_some_iff.mp h
    obtain ⟨stale, hstale, h⟩ := Option.bind_eq_some_iff.mp h
    obtain ⟨_, -, h⟩ := Option.bind_eq_some_iff.mp h
    cases h
    exact ⟨uintOfJson_lt hformat, uintOfJson_lt hschema, uintOfJson_lt hstored, uintOfJson_lt hfresh, uintOfJson_lt hstale⟩
  · cases h

lemma headerOfBytes_fits {bytes : Bytes} {header : Header} (h : headerOfBytes bytes = some header) : header.Fits := by
  obtain ⟨text, -, htext⟩ := Option.bind_eq_some_iff.mp h
  obtain ⟨json, -, hjson⟩ := Option.bind_eq_some_iff.mp htext
  exact Header.ofJson_fits hjson

/-- Members that are numbers and texts. -/
lemma Header.numbers_members (header : Header) {rest : List (Name × Json)} (h : Json.numbersMembers rest = true) :
    Json.numbersMembers (header.members ++ rest) = true := by
  simp [Header.members, Json.numbersMembers, Json.numbers, natJson, Json.isNumber_intLiteral, h]

lemma Header.depth_members (header : Header) (rest : List (Name × Json)) :
    Json.depthMembers (header.members ++ rest) = Json.depthMembers rest := by
  simp [Header.members, Json.depthMembers, Json.depth, natJson]

lemma headerOfBytes_toVec {json : Json} (h : json.numbers = true) : headerOfBytes (toVec json) = Header.ofJson json := by
  have hdepth := Json.depth_le_length json
  rw [headerOfBytes, toVec, fromUtf8_utf8, Option.bind_eq_bind, Option.bind_some,
    Json.parse_render h (Nat.lt_succ_of_le hdepth)]
  rfl

namespace Serde

variable {T : Type} {serde : Serde T} {written : Written T} {bytes : Bytes}

/-- What an entry is as JSON. -/
lemma encode_eq_some : serde.codec.encode written = some bytes ↔ ∃ json, serde.toJson written.value = some json ∧
    toVec (.obj (written.header.members ++ [(valueMember, json)])) = bytes := by
  simp [codec, Option.map_eq_some_iff]

lemma valueOfBytes_obj {members : List (Name × Json)} {json : Json} (hn : Json.numbersMembers members = true)
    (hfield : field valueMember members = some json) :
    serde.valueOfBytes (toVec (.obj members)) =
      if Json.depthMembers members + 1 < recursionLimit then serde.ofJson json else none := by
  unfold valueOfBytes
  split_ifs with hdepth
  · rw [fromSlice_toVec (by rwa [Json.numbers]) (by rwa [Json.depth])]
    simp [hfield]
  · have hnone : fromSlice (toVec (.obj members)) = none := by
      rw [fromSlice, toVec, fromUtf8_utf8, Option.bind_eq_bind, Option.bind_some, Option.eq_none_iff_forall_ne_some]
      intro w hw
      have hlimit := (Json.parse_render_iff (by rwa [Json.numbers]) (by decide)).mp hw
      rw [Json.depth] at hlimit
      exact hdepth hlimit.2
    rw [hnone]
    rfl

lemma valueOfBytes_single {json : Json} (h : json.numbers = true) :
    serde.valueOfBytes (toVec (.obj [(valueMember, json)])) =
      if json.depth + 1 < recursionLimit then serde.ofJson json else none := by
  rw [@valueOfBytes_obj _ _ _ json (by simp [Json.numbersMembers, h]) (by simp [field])]
  simp [Json.depthMembers]

/-- The header of an entry reads back, whatever its value is. -/
theorem header_encode (h : serde.codec.encode written = some bytes) (hfits : written.header.Fits) :
    serde.codec.header bytes = some written.header := by
  obtain ⟨json, hjson, rfl⟩ := encode_eq_some.mp h
  have hn := @Header.numbers_members written.header [(valueMember, json)]
    (by simp [Json.numbersMembers, serde.numbers _ _ hjson])
  change headerOfBytes _ = _
  rw [headerOfBytes_toVec (by rwa [Json.numbers])]
  exact Header.ofJson_members hfits (by simp)

/-- The value of an entry is read as it would be read alone. -/
theorem value_encode {json : Json} (h : serde.codec.encode written = some bytes)
    (hjson : serde.toJson written.value = some json) :
    serde.codec.value bytes = serde.valueOfBytes (toVec (.obj [(valueMember, json)])) := by
  obtain ⟨json', hjson', rfl⟩ := encode_eq_some.mp h
  obtain rfl : json' = json := by rwa [hjson', Option.some_inj] at hjson
  have hnumbers := serde.numbers _ _ hjson
  have hn := @Header.numbers_members written.header [(valueMember, json')] (by simp [Json.numbersMembers, hnumbers])
  have hfield : field valueMember (written.header.members ++ [(valueMember, json')]) = some json' := rfl
  rw [valueOfBytes_single hnumbers]
  change serde.valueOfBytes _ = _
  rw [valueOfBytes_obj hn hfield, Header.depth_members]
  simp [Json.depthMembers]

end Serde

/-- `window` does not begin in `piece` in front of `rest`. -/
def Misses (window piece rest : Bytes) : Prop :=
  ∀ j < piece.length, ¬window <+: (piece ++ rest).drop j

lemma Misses.append {window piece piece' rest : Bytes} (h : Misses window piece (piece' ++ rest))
    (h' : Misses window piece' rest) : Misses window (piece ++ piece') rest := by
  intro j hj
  rw [List.append_assoc]
  rcases Nat.lt_or_ge j piece.length with hlt | hge
  · exact h j hlt
  · have hsub := h' (j - piece.length) (by rw [List.length_append] at hj; omega)
    rwa [List.drop_append, List.drop_eq_nil_of_le hge, List.nil_append]

/-- What comes after pieces that `window` does not begin in is where it begins. -/
lemma Misses.position {window piece rest : Bytes} (h : Misses window piece (window ++ rest)) :
    position window (piece ++ (window ++ rest)) = some piece.length := by
  refine position_eq_some.mpr ⟨⟨?_, ?_⟩, h⟩
  · rw [List.drop_left]
    exact List.prefix_append _ _
  · simp

lemma misses_of_not_mem {piece rest : Bytes} (h : asciiByte ',' ∉ piece) : Misses valueKey piece rest := by
  intro j hj hstarts
  rw [List.drop_append_of_le_length (Nat.le_of_lt hj), List.drop_eq_getElem_cons hj, List.cons_append] at hstarts
  have hfirst : asciiByte ',' = piece[j] := (List.cons_prefix_cons.mp hstarts).1
  exact h (hfirst ▸ List.getElem_mem hj)

lemma misses_utf8 {text : Name} {rest : Bytes} (h : ',' ∉ text) : Misses valueKey (utf8 text) rest :=
  misses_of_not_mem fun hmem => h ((mem_utf8_ascii (by decide)).mp hmem)

/-- A comma with anything but a quote and a `v` behind it. -/
lemma misses_comma {rest : Bytes} (h : rest.take 2 ≠ (valueKey.drop 1).take 2) : Misses valueKey (utf8 [',']) rest := by
  intro j hj hstarts
  obtain rfl : j = 0 := by
    have hlen : (utf8 [',']).length = 1 := rfl
    omega
  have htake := List.prefix_iff_eq_take.mp hstarts
  apply h
  have hlen : valueKey.length = 9 := rfl
  rw [htake, hlen]
  simp [utf8_cons, utf8EncodeChar_ascii (c := ',') (by decide), List.take_take]

/-- In a text every quote is escaped, so no comma in it has a quote and a `v` behind it. -/
lemma misses_escape (text : Name) (rest : Bytes) :
    Misses valueKey (utf8 (Json.escape text)) (utf8 ['"', ','] ++ rest) := by
  induction text with
  | nil =>
    intro j hj
    cases hj
  | cons c text ih =>
    have hcons : utf8 (Json.escape (c :: text)) = utf8 (Json.escapeChar c) ++ utf8 (Json.escape text) := utf8_append _ _
    rw [hcons]
    refine Misses.append ?_ ih
    by_cases hc : c = ','
    · rw [hc]
      apply misses_comma
      cases text with
      | nil => exact (by decide : (utf8 ['"', ',']).take 2 ≠ (valueKey.drop 1).take 2)
      | cons d text =>
        obtain ⟨e, tail, heq, hne⟩ := Json.escapeChar_head d
        have hhead : Json.escape (d :: text) = e :: (tail ++ Json.escape text) := by
          rw [Json.escape, List.flatMap_cons, heq, List.cons_append]
          rfl
        obtain ⟨b, bytes, hbytes, hfirst⟩ := utf8_head e (tail ++ Json.escape text)
        rw [hhead, hbytes]
        intro htake
        exact hne (hfirst '"' (by decide) (List.cons.inj htake).1)
    · exact misses_utf8 fun hmem => hc (Json.comma_of_mem_escapeChar hmem)

/-- A member in front of another one: its name does not begin as the name of the value does. -/
structure Shown (name : Name) (json : Json) : Prop where
  name : ',' ∉ name ∧ (utf8 (Json.quote name)).take 2 ≠ (valueKey.drop 1).take 2
  value : (∃ n, json = natJson n) ∨ ∃ text, json = .str text

lemma two_le_utf8_quote (text : Name) : 2 ≤ (utf8 (Json.quote text)).length := by
  have hquote : utf8 (Json.quote text) = utf8 ['"'] ++ (utf8 (Json.escape text) ++ utf8 ['"']) := by
    rw [← utf8_append, ← utf8_append]
    rfl
  have hone : (utf8 ['"']).length = 1 := rfl
  rw [hquote, List.length_append, List.length_append, hone]
  omega

lemma joined_comma (members : List (Name × Json)) (rest : Bytes) :
    ∃ rest', utf8 (Json.joined members) ++ (utf8 [','] ++ rest) = utf8 [','] ++ rest' := by
  cases members with
  | nil => exact ⟨rest, rfl⟩
  | cons m members =>
    refine ⟨utf8 (Json.quote m.1 ++ ':' :: m.2.render ++ Json.joined members) ++ (utf8 [','] ++ rest), ?_⟩
    rw [← List.append_assoc (utf8 [',']), ← utf8_append]
    rfl

lemma misses_value {json : Json} (h : (∃ n, json = natJson n) ∨ ∃ text, json = .str text) (rest : Bytes) :
    Misses valueKey (utf8 json.render) (utf8 [','] ++ rest) := by
  rcases h with ⟨n, rfl⟩ | ⟨text, rfl⟩
  · apply misses_utf8
    intro hmem
    have hchar := List.all_eq_true.mp (Json.isNumber_chars (Json.isNumber_intLiteral n)) _ hmem
    revert hchar
    decide
  · have hquote : (Json.str text).render = '"' :: (Json.escape text ++ ['"']) := by
      rw [Json.render, Json.quote, List.cons_append]
    rw [hquote, ← List.singleton_append, utf8_append, utf8_append]
    refine Misses.append (misses_utf8 (by decide)) (Misses.append ?_ (misses_utf8 (by decide)))
    exact misses_escape text rest

lemma misses_joined {members : List (Name × Json)} (h : ∀ m ∈ members, Shown m.1 m.2) (rest : Bytes) :
    Misses valueKey (utf8 (Json.joined members)) (utf8 [','] ++ rest) := by
  induction members with
  | nil =>
    intro j hj
    cases hj
  | cons m members ih =>
    obtain ⟨name, json⟩ := m
    have hm := h _ List.mem_cons_self
    have hsplit : utf8 (Json.joined ((name, json) :: members)) = utf8 [','] ++ (utf8 (Json.quote name) ++
        (utf8 [':'] ++ (utf8 json.render ++ utf8 (Json.joined members)))) := by
      simp only [← utf8_append]
      congr 1
      simp [Json.joined]
    have hlen := two_le_utf8_quote name
    obtain ⟨rest', hrest⟩ := joined_comma members rest
    rw [hsplit]
    refine Misses.append (misses_comma ?_) (Misses.append (misses_utf8 (Json.comma_not_mem_quote hm.name.1))
      (Misses.append (misses_utf8 (by decide)) (Misses.append ?_ (ih fun m hmem => h m (List.mem_cons_of_mem _ hmem)))))
    · simp only [List.append_assoc]
      rw [List.take_append_of_le_length hlen]
      exact hm.name.2
    · rw [hrest]
      exact misses_value hm.value rest'

lemma valueKey_eq : valueKey = utf8 (',' :: Json.quote valueMember ++ [':']) := by
  decide

/-- The first `value` key of an object is the one behind its other members. -/
lemma position_value {name : Name} {x json : Json} {members : List (Name × Json)} (hname : ',' ∉ name)
    (hx : (∃ n, x = natJson n) ∨ ∃ text, x = .str text) (h : ∀ m ∈ members, Shown m.1 m.2) :
    ∃ k, position valueKey (toVec (.obj ((name, x) :: members ++ [(valueMember, json)]))) = some k ∧
      (toVec (.obj ((name, x) :: members ++ [(valueMember, json)]))).take k ++ [0x7d] = toVec (.obj ((name, x) :: members)) := by
  set piece := utf8 ('{' :: Json.quote name ++ [':']) ++ (utf8 x.render ++ utf8 (Json.joined members)) with hpiece
  have hwhole : toVec (.obj ((name, x) :: members ++ [(valueMember, json)])) =
      piece ++ (valueKey ++ utf8 (json.render ++ ['}'])) := by
    simp only [hpiece, valueKey_eq, toVec, ← utf8_append]
    congr 1
    simp [Json.render, Json.renderMembers_append, Json.renderMembers]
  have hclosed : piece ++ [0x7d] = toVec (.obj ((name, x) :: members)) := by
    have hbrace : ([0x7d] : Bytes) = utf8 ['}'] := by decide
    simp only [hpiece, hbrace, toVec, ← utf8_append]
    congr 1
    have hmembers := Json.renderMembers_append members []
    rw [List.append_nil] at hmembers
    simp [Json.render, hmembers, Json.renderMembers]
  have hmisses : Misses valueKey piece (valueKey ++ utf8 (json.render ++ ['}'])) := by
    have hcomma : valueKey ++ utf8 (json.render ++ ['}']) =
        utf8 [','] ++ utf8 (Json.quote valueMember ++ ':' :: json.render ++ ['}']) := by
      rw [valueKey_eq, ← utf8_append, ← utf8_append]
      congr 1
    rw [hcomma]
    obtain ⟨rest, hrest⟩ := joined_comma members (utf8 (Json.quote valueMember ++ ':' :: json.render ++ ['}']))
    refine Misses.append (misses_utf8 ?_) (Misses.append ?_ (misses_joined h _))
    · have hquote := Json.comma_not_mem_quote hname
      simpa using hquote
    · rw [hrest]
      exact misses_value hx rest
  refine ⟨piece.length, ?_, ?_⟩
  · rw [hwhole]
    exact hmisses.position
  · rw [hwhole, List.take_left, hclosed]

lemma Header.shown (header : Header) : ∀ m ∈ header.members.tail, Shown m.1 m.2 := by
  simp only [Header.members, List.tail_cons, List.forall_mem_cons, List.not_mem_nil, false_implies, implies_true, and_true]
  exact ⟨⟨by decide, .inl ⟨_, rfl⟩⟩, ⟨by decide, .inr ⟨_, rfl⟩⟩, ⟨by decide, .inr ⟨_, rfl⟩⟩, ⟨by decide, .inl ⟨_, rfl⟩⟩,
    ⟨by decide, .inl ⟨_, rfl⟩⟩, ⟨by decide, .inl ⟨_, rfl⟩⟩, ⟨by decide, .inr ⟨_, rfl⟩⟩⟩

/-- What is in front of the first `value` key of an entry is its header. -/
theorem Serde.scanHeader_encode {T : Type} {serde : Serde T} {written : Written T} {bytes : Bytes} {limit : ℕ}
    (h : serde.codec.encode written = some bytes) (hfits : written.header.Fits) (hlimit : bytes.length ≤ limit) :
    scanHeader serde.codec limit bytes = some written.header := by
  obtain ⟨json, -, rfl⟩ := encode_eq_some.mp h
  have hformat : ',' ∉ "format".toList := by decide
  obtain ⟨k, hk, hclosed⟩ := position_value hformat (.inl ⟨written.header.format, rfl⟩) written.header.shown
  have hnumbers := @Header.numbers_members written.header [] rfl
  have hmembers := @Header.ofJson_members _ hfits [] (by simp)
  rw [List.append_nil] at hnumbers hmembers
  rw [scanHeader, List.take_of_length_le hlimit]
  change (position valueKey (toVec (.obj (("format".toList, natJson written.header.format) ::
    written.header.members.tail ++ [(valueMember, json)])))).bind _ = _
  rw [hk, Option.bind_some]
  change headerOfBytes _ = _
  have htake : (toVec (.obj (written.header.members ++ [(valueMember, json)]))).take k ++ [0x7d] =
      toVec (.obj written.header.members) := hclosed
  rw [htake, headerOfBytes_toVec (by rwa [Json.numbers])]
  exact hmembers

end Unixd.Cache
