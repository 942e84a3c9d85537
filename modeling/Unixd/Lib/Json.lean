import Mathlib.Data.List.TakeWhile
import Mathlib.Data.Nat.Notation

/-!
# Compact JSON text

JSON values as text: the compact form that a serializer writes, and a recursive descent parser with
a limit on nesting. Numbers are kept as their literals. What is written reads back, in front of any
rest, and is one line.
-/

namespace Unixd.Lib

set_option linter.unusedSimpArgs false

inductive Json where
  | null
  | bool (b : Bool)
  | num (literal : List Char)
  | str (text : List Char)
  | arr (items : List Json)
  | obj (members : List (List Char × Json))

namespace Json

def hexDigits : List Char :=
  "0123456789abcdef".toList

/-- A character of a string: control characters, the quote and the backslash are escaped. -/
def escapeChar (c : Char) : List Char :=
  if c = '"' then ['\\', '"']
  else if c = '\\' then ['\\', '\\']
  else if c = '\x08' then ['\\', 'b']
  else if c = '\t' then ['\\', 't']
  else if c = '\n' then ['\\', 'n']
  else if c = '\x0c' then ['\\', 'f']
  else if c = '\r' then ['\\', 'r']
  else if c.toNat < 32 then
    ['\\', 'u', '0', '0', hexDigits.getD (c.toNat / 16) '0', hexDigits.getD (c.toNat % 16) '0']
  else [c]

def escape (text : List Char) : List Char :=
  text.flatMap escapeChar

def quote (text : List Char) : List Char :=
  '"' :: escape text ++ ['"']

mutual
def render : Json → List Char
  | .null => "null".toList
  | .bool true => "true".toList
  | .bool false => "false".toList
  | .num literal => literal
  | .str text => quote text
  | .arr [] => "[]".toList
  | .arr (x :: xs) => '[' :: render x ++ renderItems xs
  | .obj [] => "\x7b\x7d".toList
  | .obj ((name, x) :: ms) => '{' :: quote name ++ ':' :: render x ++ renderMembers ms

/-- The items after the first one, and the closing bracket. -/
def renderItems : List Json → List Char
  | [] => [']']
  | x :: xs => ',' :: render x ++ renderItems xs

/-- The members after the first one, and the closing brace. -/
def renderMembers : List (List Char × Json) → List Char
  | [] => ['}']
  | (name, x) :: ms => ',' :: quote name ++ ':' :: render x ++ renderMembers ms
end

mutual
/-- How deep arrays and objects are nested. -/
def depth : Json → ℕ
  | .arr xs => depthItems xs + 1
  | .obj ms => depthMembers ms + 1
  | _ => 0

def depthItems : List Json → ℕ
  | [] => 0
  | x :: xs => max (depth x) (depthItems xs)

def depthMembers : List (List Char × Json) → ℕ
  | [] => 0
  | (_, x) :: ms => max (depth x) (depthMembers ms)
end

/-- The members after the first one, each behind its comma. -/
def joined : List (List Char × Json) → List Char
  | [] => []
  | (name, x) :: ms => ',' :: quote name ++ ':' :: render x ++ joined ms

def isWhite (c : Char) : Bool :=
  c = ' ' ∨ c = '\n' ∨ c = '\t' ∨ c = '\r'

def skipWhite (input : List Char) : List Char :=
  input.dropWhile isWhite

def isNumberChar (c : Char) : Bool :=
  c.isDigit ∨ c = '-' ∨ c = '+' ∨ c = '.' ∨ c = 'e' ∨ c = 'E'

def isExponent : List Char → Bool
  | [] => true
  | e :: rest =>
    let digits := match rest with
      | '+' :: digits | '-' :: digits => digits
      | digits => digits
    (e = 'e' ∨ e = 'E') ∧ digits ≠ [] ∧ digits.all Char.isDigit

def isFraction : List Char → Bool
  | '.' :: rest => rest.takeWhile Char.isDigit ≠ [] ∧ isExponent (rest.dropWhile Char.isDigit)
  | rest => isExponent rest

/-- The grammar of number literals. -/
def isNumber (literal : List Char) : Bool :=
  let rest := match literal with
    | '-' :: rest => rest
    | rest => rest
  let whole := rest.takeWhile Char.isDigit
  literal.all isNumberChar ∧ whole ≠ [] ∧ (whole = ['0'] ∨ whole.head? ≠ some '0') ∧
    isFraction (rest.dropWhile Char.isDigit)

mutual
/-- Every number of a value is a literal. -/
def numbers : Json → Bool
  | .num literal => isNumber literal
  | .arr xs => numbersItems xs
  | .obj ms => numbersMembers ms
  | _ => true

def numbersItems : List Json → Bool
  | [] => true
  | x :: xs => numbers x && numbersItems xs

def numbersMembers : List (List Char × Json) → Bool
  | [] => true
  | (_, x) :: ms => numbers x && numbersMembers ms
end

def hexValue (c : Char) : Option ℕ :=
  if c.isDigit then some (c.toNat - '0'.toNat)
  else if 'a' ≤ c ∧ c ≤ 'f' then some (c.toNat - 'a'.toNat + 10)
  else if 'A' ≤ c ∧ c ≤ 'F' then some (c.toNat - 'A'.toNat + 10)
  else none

def hexUnit (a b c d : Char) : Option ℕ := do
  return 4096 * (← hexValue a) + 256 * (← hexValue b) + 16 * (← hexValue c) + (← hexValue d)

/-- What a one-letter escape stands for. -/
def unescape (c : Char) : Option Char :=
  if c = '"' ∨ c = '\\' ∨ c = '/' then some c
  else if c = 'b' then some '\x08'
  else if c = 't' then some '\t'
  else if c = 'n' then some '\n'
  else if c = 'f' then some '\x0c'
  else if c = 'r' then some '\r'
  else none

/-- The text of a string whose opening quote is read, and the input after its closing quote. -/
def parseString : List Char → Option (List Char × List Char)
  | [] => none
  | '"' :: rest => some ([], rest)
  | '\\' :: c :: rest =>
    if c = 'u' then
      match rest with
      | a :: b :: c :: d :: rest =>
        match hexUnit a b c d with
        | none => none
        | some unit =>
          if unit < 0xd800 ∨ 0xe000 ≤ unit then
            (parseString rest).map fun p => (Char.ofNat unit :: p.1, p.2)
          else
            -- a character outside the basic plane is two escapes, the high half first
            match rest with
            | '\\' :: 'u' :: a :: b :: c :: d :: rest =>
              match hexUnit a b c d with
              | none => none
              | some low =>
                if unit < 0xdc00 ∧ 0xdc00 ≤ low ∧ low < 0xe000 then
                  (parseString rest).map fun p =>
                    (Char.ofNat (0x10000 + 0x400 * (unit - 0xd800) + (low - 0xdc00)) :: p.1, p.2)
                else none
            | _ => none
      | _ => none
    else
      match unescape c with
      | none => none
      | some plain => (parseString rest).map fun p => (plain :: p.1, p.2)
  | c :: rest =>
    if c.toNat < 32 then none
    else (parseString rest).map fun p => (c :: p.1, p.2)
termination_by structural input => input

def parseNumber (input : List Char) : Option (Json × List Char) :=
  let literal := input.takeWhile isNumberChar
  if isNumber literal then some (.num literal, input.drop literal.length) else none

def keyword (word : List Char) (v : Json) (input : List Char) : Option (Json × List Char) :=
  if word <+: input then some (v, input.drop word.length) else none

mutual
/-- One value; `depth` is the nesting that is left, `fuel` bounds the recursion. -/
def parseValue : ℕ → ℕ → List Char → Option (Json × List Char)
  | 0, _, _ => none
  | fuel + 1, depth, input =>
    match skipWhite input with
    | [] => none
    | c :: rest =>
      if c = 'n' then keyword "ull".toList .null rest
      else if c = 't' then keyword "rue".toList (.bool true) rest
      else if c = 'f' then keyword "alse".toList (.bool false) rest
      else if c = '"' then (parseString rest).map fun p => (.str p.1, p.2)
      else if c = '[' then
        if depth ≤ 1 then none
        else if (skipWhite rest).head? = some ']' then some (.arr [], (skipWhite rest).tail)
        else do
          let (x, rest) ← parseValue fuel (depth - 1) rest
          let (xs, rest) ← parseItems fuel (depth - 1) rest
          return (.arr (x :: xs), rest)
      else if c = '{' then
        if depth ≤ 1 then none
        else if (skipWhite rest).head? = some '}' then some (.obj [], (skipWhite rest).tail)
        else do
          let (m, rest) ← parseMember fuel (depth - 1) rest
          let (ms, rest) ← parseMembers fuel (depth - 1) rest
          return (.obj (m :: ms), rest)
      else parseNumber (c :: rest)

def parseItems : ℕ → ℕ → List Char → Option (List Json × List Char)
  | 0, _, _ => none
  | fuel + 1, depth, input =>
    match skipWhite input with
    | ']' :: rest => some ([], rest)
    | ',' :: rest => do
      let (x, rest) ← parseValue fuel depth rest
      let (xs, rest) ← parseItems fuel depth rest
      return (x :: xs, rest)
    | _ => none

def parseMember : ℕ → ℕ → List Char → Option ((List Char × Json) × List Char)
  | 0, _, _ => none
  | fuel + 1, depth, input =>
    match skipWhite input with
    | '"' :: rest => do
      let (name, rest) ← parseString rest
      match skipWhite rest with
      | ':' :: rest => do
        let (x, rest) ← parseValue fuel depth rest
        return ((name, x), rest)
      | _ => none
    | _ => none

def parseMembers : ℕ → ℕ → List Char → Option (List (List Char × Json) × List Char)
  | 0, _, _ => none
  | fuel + 1, depth, input =>
    match skipWhite input with
    | '}' :: rest => some ([], rest)
    | ',' :: rest => do
      let (m, rest) ← parseMember fuel depth rest
      let (ms, rest) ← parseMembers fuel depth rest
      return (m :: ms, rest)
    | _ => none
end

/-- A whole text: one value with nothing but white space around it. -/
def parse (limit : ℕ) (text : List Char) : Option Json :=
  match parseValue (text.length + 1) limit text with
  | some (v, rest) => if skipWhite rest = [] then some v else none
  | none => none


/-- A `\u` escape of a control character. -/
lemma hexUnit_control {n : ℕ} (h : n < 32) :
    hexUnit '0' '0' (hexDigits.getD (n / 16) '0') (hexDigits.getD (n % 16) '0') = some n := by
  have hall : ∀ n < 32, hexUnit '0' '0' (hexDigits.getD (n / 16) '0') (hexDigits.getD (n % 16) '0') = some n := by
    decide
  exact hall n h

lemma parseString_unescape {c plain : Char} (hu : c ≠ 'u') (h : unescape c = some plain) (rest : List Char) :
    parseString ('\\' :: c :: rest) = (parseString rest).map fun p => (plain :: p.1, p.2) := by
  rcases rest with _ | ⟨x, _ | ⟨y, _ | ⟨z, _ | ⟨w, rest⟩⟩⟩⟩ <;> simp [parseString, hu, h]

lemma parseString_plain {c : Char} (hq : c ≠ '"') (hb : c ≠ '\\') (h : ¬ c.toNat < 32) (rest : List Char) :
    parseString (c :: rest) = (parseString rest).map fun p => (c :: p.1, p.2) := by
  rw [parseString.eq_5 c rest hq (fun _ _ hc => absurd hc hb), if_neg h]

lemma parseString_escapeChar (c : Char) (rest : List Char) :
    parseString (escapeChar c ++ rest) = (parseString rest).map fun p => (c :: p.1, p.2) := by
  unfold escapeChar
  split_ifs with h1 h2 h3 h4 h5 h6 h7 h8
  · rw [h1]
    exact parseString_unescape (by decide) rfl rest
  · rw [h2]
    exact parseString_unescape (by decide) rfl rest
  · rw [h3]
    exact parseString_unescape (by decide) rfl rest
  · rw [h4]
    exact parseString_unescape (by decide) rfl rest
  · rw [h5]
    exact parseString_unescape (by decide) rfl rest
  · rw [h6]
    exact parseString_unescape (by decide) rfl rest
  · rw [h7]
    exact parseString_unescape (by decide) rfl rest
  · have hsmall : c.toNat < 0xd800 := by omega
    simp only [List.cons_append, List.nil_append]
    rw [parseString.eq_3, if_pos rfl, hexUnit_control h8]
    simp only [hsmall, true_or, if_true, Char.ofNat_toNat]
  · exact parseString_plain h1 h2 h8 rest

lemma parseString_escape (text rest : List Char) : parseString (escape text ++ '"' :: rest) = some (text, rest) := by
  induction text with
  | nil => simp [escape, parseString]
  | cons c text ih =>
    rw [escape, List.flatMap_cons, List.append_assoc, parseString_escapeChar]
    rw [escape] at ih
    rw [ih]
    rfl

/-- The input after a number cannot carry it on. -/
def Stops (rest : List Char) : Prop :=
  ∀ c ∈ rest.head?, isNumberChar c = false

lemma stops_nil : Stops [] := by
  intro c hc
  cases hc

lemma stops_cons {c : Char} (h : isNumberChar c = false) (rest : List Char) : Stops (c :: rest) := by
  intro d hd
  rw [List.head?_cons, Option.mem_some_iff] at hd
  rw [← hd]
  exact h

lemma takeWhile_append_of_stops {literal rest : List Char} (h : literal.all isNumberChar = true)
    (hrest : Stops rest) : (literal ++ rest).takeWhile isNumberChar = literal := by
  rw [List.takeWhile_append_of_pos (List.all_eq_true.mp h)]
  cases rest with
  | nil => simp
  | cons c rest =>
    have hc := hrest c rfl
    simp [hc]

lemma isNumber_chars {literal : List Char} (h : isNumber literal = true) : literal.all isNumberChar = true := by
  simp only [isNumber, decide_eq_true_eq] at h
  exact h.1

lemma parseNumber_append {literal rest : List Char} (h : isNumber literal = true) (hrest : Stops rest) :
    parseNumber (literal ++ rest) = some (.num literal, rest) := by
  rw [parseNumber, takeWhile_append_of_stops (isNumber_chars h) hrest]
  simp [h]

/-- A literal starts with a digit or a sign. -/
lemma isNumber_head {literal : List Char} (h : isNumber literal = true) :
    ∃ c rest, literal = c :: rest ∧ isNumberChar c = true ∧ c ≠ '\n' ∧
      c ≠ 'n' ∧ c ≠ 't' ∧ c ≠ 'f' ∧ c ≠ '"' ∧ c ≠ '[' ∧ c ≠ '{' := by
  cases literal with
  | nil => simp [isNumber] at h
  | cons c rest =>
    have hc : isNumberChar c = true := List.all_eq_true.mp (isNumber_chars h) c List.mem_cons_self
    refine ⟨c, rest, rfl, hc, ?_, ?_, ?_, ?_, ?_, ?_, ?_⟩ <;>
    · rintro rfl
      revert hc
      decide

lemma skipWhite_cons {c : Char} (h : isWhite c = false) (rest : List Char) :
    skipWhite (c :: rest) = c :: rest := by
  rw [skipWhite, List.dropWhile_cons_of_neg]
  simp [h]

lemma not_white_of_number {c : Char} (h : isNumberChar c = true) : isWhite c = false := by
  by_contra hw
  simp only [isWhite, Bool.not_eq_false, decide_eq_true_eq] at hw
  rcases hw with rfl | rfl | rfl | rfl
  all_goals
    revert h
    decide

lemma stops_renderItems (xs : List Json) (rest : List Char) : Stops (renderItems xs ++ rest) := by
  cases xs with
  | nil => exact stops_cons (by decide) _
  | cons x xs => exact stops_cons (by decide) _

lemma stops_renderMembers (ms : List (List Char × Json)) (rest : List Char) :
    Stops (renderMembers ms ++ rest) := by
  cases ms with
  | nil => exact stops_cons (by decide) _
  | cons m ms => exact stops_cons (by decide) _

/-- The first character of a value is not white and closes nothing. -/
lemma render_head {v : Json} (h : numbers v = true) :
    ∃ c rest, render v = c :: rest ∧ isWhite c = false ∧ c ≠ ']' ∧ c ≠ '}' := by
  cases v with
  | null => exact ⟨'n', "ull".toList, rfl, by decide, by decide, by decide⟩
  | bool b =>
    cases b with
    | true => exact ⟨'t', "rue".toList, rfl, by decide, by decide, by decide⟩
    | false => exact ⟨'f', "alse".toList, rfl, by decide, by decide, by decide⟩
  | num literal =>
    rw [numbers] at h
    obtain ⟨c, rest, rfl, hc, -⟩ := isNumber_head h
    refine ⟨c, rest, rfl, not_white_of_number hc, ?_, ?_⟩ <;>
    · rintro rfl
      revert hc
      decide
  | str text => exact ⟨'"', _, rfl, by decide, by decide, by decide⟩
  | arr xs =>
    cases xs with
    | nil => exact ⟨'[', [']'], rfl, by decide, by decide, by decide⟩
    | cons x xs => exact ⟨'[', _, by rw [render]; rfl, by decide, by decide, by decide⟩
  | obj ms =>
    cases ms with
    | nil => exact ⟨'{', ['}'], rfl, by decide, by decide, by decide⟩
    | cons m ms => exact ⟨'{', _, by rw [render]; rfl, by decide, by decide, by decide⟩

lemma parseMember_render (name : List Char) {x : Json} {fuel limit : ℕ} {rest : List Char}
    (h : parseValue fuel limit (render x ++ rest) = some (x, rest)) :
    parseMember (fuel + 1) limit (quote name ++ ':' :: (render x ++ rest)) = some ((name, x), rest) := by
  simp only [quote, parseMember, List.cons_append, List.append_assoc, List.nil_append,
    skipWhite_cons (c := '"') (by decide), parseString_escape, Option.bind_eq_bind, Option.bind_some,
    skipWhite_cons (c := ':') (by decide), h]
  rfl

mutual
/-- A value reads back in front of any rest that does not carry on its last number. -/
theorem parseValue_render (v : Json) (fuel limit : ℕ) (rest : List Char) (hn : numbers v = true)
    (hd : depth v < limit) (hf : (render v).length ≤ fuel) (hrest : Stops rest) :
    parseValue fuel limit (render v ++ rest) = some (v, rest) := by
  have hpos : 0 < (render v).length := by
    obtain ⟨c, tail, heq, -⟩ := render_head hn
    rw [heq]
    exact Nat.succ_pos _
  obtain ⟨fuel, rfl⟩ := Nat.exists_eq_succ_of_ne_zero (show fuel ≠ 0 by omega)
  cases v with
  | null => simp [render, parseValue, skipWhite_cons (c := 'n') (by decide), keyword]
  | bool b =>
    cases b with
    | true => simp [render, parseValue, skipWhite_cons (c := 't') (by decide), keyword]
    | false => simp [render, parseValue, skipWhite_cons (c := 'f') (by decide), keyword]
  | num literal =>
    rw [numbers] at hn
    obtain ⟨c, tail, rfl, hc, -, h1, h2, h3, h4, h5, h6⟩ := isNumber_head hn
    have hnumber := parseNumber_append hn hrest
    rw [List.cons_append] at hnumber
    simp only [render, parseValue, List.cons_append, skipWhite_cons (not_white_of_number hc), h1, h2, h3, h4,
      h5, h6, if_false, hnumber]
  | str text =>
    simp only [render, quote, parseValue, List.cons_append, List.append_assoc, List.nil_append,
      skipWhite_cons (c := '"') (by decide), parseString_escape]
    rfl
  | arr xs =>
    rw [depth] at hd
    have hlimit : ¬ limit ≤ 1 := by omega
    cases xs with
    | nil => simp [render, parseValue, skipWhite_cons (c := '[') (by decide),
        skipWhite_cons (c := ']') (by decide), hlimit]
    | cons x xs =>
      rw [numbers, numbersItems, Bool.and_eq_true] at hn
      rw [depthItems] at hd
      simp only [render, List.length_cons, List.length_append] at hf
      obtain ⟨c, tail, hhead, hwhite, hne, -⟩ := render_head hn.1
      have hx := parseValue_render x fuel (limit - 1) (renderItems xs ++ rest) hn.1 (by omega) (by omega)
        (stops_renderItems xs rest)
      have hxs := parseItems_render xs fuel (limit - 1) rest hn.2 (by omega) (by omega)
      have hopen : (skipWhite (render x ++ (renderItems xs ++ rest))).head? ≠ some ']' := by
        rw [hhead, List.cons_append, skipWhite_cons hwhite, List.head?_cons]
        simpa using hne
      simp only [render, parseValue, List.cons_append, List.append_assoc, skipWhite_cons (c := '[') (by decide),
        hopen, hlimit, if_false, hx, hxs, Option.bind_eq_bind, Option.bind_some]
      rfl
  | obj ms =>
    rw [depth] at hd
    have hlimit : ¬ limit ≤ 1 := by omega
    cases ms with
    | nil => simp [render, parseValue, skipWhite_cons (c := '{') (by decide),
        skipWhite_cons (c := '}') (by decide), hlimit]
    | cons m ms =>
      obtain ⟨name, x⟩ := m
      rw [numbers, numbersMembers, Bool.and_eq_true] at hn
      rw [depthMembers] at hd
      simp only [render, List.length_cons, List.length_append] at hf
      obtain ⟨fuel, rfl⟩ := Nat.exists_eq_succ_of_ne_zero (show fuel ≠ 0 by omega)
      have hx := parseValue_render x fuel (limit - 1) (renderMembers ms ++ rest) hn.1 (by omega) (by omega)
        (stops_renderMembers ms rest)
      have hm := parseMember_render name hx
      have hms := parseMembers_render ms (fuel + 1) (limit - 1) rest hn.2 (by omega) (by omega)
      have hopen : (skipWhite (quote name ++ ':' :: (render x ++ (renderMembers ms ++ rest)))).head? ≠ some '}' := by
        rw [quote, List.cons_append, List.cons_append, skipWhite_cons (by decide), List.head?_cons]
        decide
      simp only [render, parseValue, List.cons_append, List.append_assoc, skipWhite_cons (c := '{') (by decide),
        hopen, hlimit, if_false, hm, hms, Option.bind_eq_bind, Option.bind_some]
      rfl

theorem parseItems_render (xs : List Json) (fuel limit : ℕ) (rest : List Char) (hn : numbersItems xs = true)
    (hd : depthItems xs < limit) (hf : (renderItems xs).length ≤ fuel) :
    parseItems fuel limit (renderItems xs ++ rest) = some (xs, rest) := by
  cases xs with
  | nil =>
    obtain ⟨fuel, rfl⟩ := Nat.exists_eq_succ_of_ne_zero (show fuel ≠ 0 by simp [renderItems] at hf; omega)
    simp [renderItems, parseItems, skipWhite_cons (c := ']') (by decide)]
  | cons x xs =>
    rw [numbersItems, Bool.and_eq_true] at hn
    rw [depthItems] at hd
    simp only [renderItems, List.length_cons, List.length_append] at hf
    obtain ⟨fuel, rfl⟩ := Nat.exists_eq_succ_of_ne_zero (show fuel ≠ 0 by omega)
    have hx := parseValue_render x fuel limit (renderItems xs ++ rest) hn.1 (by omega) (by omega)
      (stops_renderItems xs rest)
    have hxs := parseItems_render xs fuel limit rest hn.2 (by omega) (by omega)
    simp only [renderItems, parseItems, List.cons_append, List.append_assoc,
      skipWhite_cons (c := ',') (by decide), hx, hxs, Option.bind_eq_bind, Option.bind_some]
    rfl

theorem parseMembers_render (ms : List (List Char × Json)) (fuel limit : ℕ) (rest : List Char)
    (hn : numbersMembers ms = true) (hd : depthMembers ms < limit) (hf : (renderMembers ms).length ≤ fuel) :
    parseMembers fuel limit (renderMembers ms ++ rest) = some (ms, rest) := by
  cases ms with
  | nil =>
    obtain ⟨fuel, rfl⟩ := Nat.exists_eq_succ_of_ne_zero (show fuel ≠ 0 by simp [renderMembers] at hf; omega)
    simp [renderMembers, parseMembers, skipWhite_cons (c := '}') (by decide)]
  | cons m ms =>
    obtain ⟨name, x⟩ := m
    rw [numbersMembers, Bool.and_eq_true] at hn
    rw [depthMembers] at hd
    simp only [renderMembers, List.length_cons, List.length_append] at hf
    obtain ⟨fuel, rfl⟩ := Nat.exists_eq_succ_of_ne_zero (show fuel ≠ 0 by omega)
    obtain ⟨fuel, rfl⟩ := Nat.exists_eq_succ_of_ne_zero (show fuel ≠ 0 by omega)
    have hx := parseValue_render x fuel limit (renderMembers ms ++ rest) hn.1 (by omega) (by omega)
      (stops_renderMembers ms rest)
    have hm := parseMember_render name hx
    have hms := parseMembers_render ms (fuel + 1) limit rest hn.2 (by omega) (by omega)
    simp only [renderMembers, List.cons_append, List.append_assoc]
    rw [parseMembers, skipWhite_cons (by decide)]
    simp only [hm, hms, Option.bind_eq_bind, Option.bind_some]
    rfl
end

/-- What is written reads back, up to the limit on nesting. -/
theorem parse_render {v : Json} {limit : ℕ} (hn : numbers v = true) (hd : depth v < limit) :
    parse limit (render v) = some v := by
  have h := parseValue_render v ((render v).length + 1) limit [] hn hd (by omega) stops_nil
  rw [List.append_nil] at h
  simp [parse, h, skipWhite]

lemma keyword_eq {word input rest : List Char} {v v' : Json} (h : keyword word v input = some (v', rest)) : v' = v := by
  unfold keyword at h
  split_ifs at h
  exact (Prod.mk.inj (Option.some_inj.mp h)).1.symm

lemma parseNumber_depth {input rest : List Char} {v : Json} (h : parseNumber input = some (v, rest)) :
    depth v = 0 := by
  unfold parseNumber at h
  simp only at h
  split_ifs at h
  rw [← (Prod.mk.inj (Option.some_inj.mp h)).1]
  rfl

/-- What a parser has read is nested less than its limit, and a higher limit reads the same. -/
theorem parse_limits (fuel : ℕ) :
    (∀ limit input v rest, parseValue fuel limit input = some (v, rest) →
      depth v < max limit 1 ∧ ∀ limit', limit ≤ limit' → parseValue fuel limit' input = some (v, rest)) ∧
    (∀ limit input xs rest, parseItems fuel limit input = some (xs, rest) →
      depthItems xs < max limit 1 ∧ ∀ limit', limit ≤ limit' → parseItems fuel limit' input = some (xs, rest)) ∧
    (∀ limit input m rest, parseMember fuel limit input = some (m, rest) →
      depth m.2 < max limit 1 ∧ ∀ limit', limit ≤ limit' → parseMember fuel limit' input = some (m, rest)) ∧
    (∀ limit input ms rest, parseMembers fuel limit input = some (ms, rest) →
      depthMembers ms < max limit 1 ∧ ∀ limit', limit ≤ limit' → parseMembers fuel limit' input = some (ms, rest)) := by
  induction fuel with
  | zero =>
    refine ⟨?_, ?_, ?_, ?_⟩ <;>
    · intro _ _ _ _ h
      simp [parseValue, parseItems, parseMember, parseMembers] at h
  | succ fuel ih =>
    obtain ⟨ihValue, ihItems, ihMember, ihMembers⟩ := ih
    refine ⟨?_, ?_, ?_, ?_⟩
    · intro limit input v rest h
      have hpos : 0 < max limit 1 := by omega
      rw [parseValue] at h
      cases hskip : skipWhite input with
      | nil => simp [hskip] at h
      | cons c tail =>
        simp only [hskip] at h
        simp only [parseValue, hskip]
        split_ifs at h ⊢ with h1 h2 h3 h4 h5 h6 h7 h8 h9 h10
        · exact ⟨by simpa [keyword_eq h, depth] using hpos, fun _ _ => h⟩
        · exact ⟨by simpa [keyword_eq h, depth] using hpos, fun _ _ => h⟩
        · exact ⟨by simpa [keyword_eq h, depth] using hpos, fun _ _ => h⟩
        · obtain ⟨p, hp, heq⟩ := Option.map_eq_some_iff.mp h
          obtain ⟨rfl, rfl⟩ := Prod.mk.inj heq
          exact ⟨by simpa [depth] using hpos, fun _ _ => h⟩
        · obtain ⟨rfl, rfl⟩ := Prod.mk.inj (Option.some_inj.mp h)
          refine ⟨by rw [depth, depthItems]; omega, fun limit' hle => ?_⟩
          rw [if_neg (by omega)]
        · obtain ⟨⟨x, rest'⟩, hx, h⟩ := Option.bind_eq_some_iff.mp h
          obtain ⟨⟨xs, rest''⟩, hxs, h⟩ := Option.bind_eq_some_iff.mp h
          obtain ⟨rfl, rfl⟩ := Prod.mk.inj (Option.some_inj.mp h)
          have hx' := ihValue _ _ _ _ hx
          have hxs' := ihItems _ _ _ _ hxs
          refine ⟨by simp only [depth, depthItems]; omega, fun limit' hle => ?_⟩
          have hle' : limit - 1 ≤ limit' - 1 := by omega
          rw [if_neg (by omega)]
          simp only [hx'.2 _ hle', hxs'.2 _ hle', Option.bind_eq_bind, Option.bind_some]
          rfl
        · obtain ⟨rfl, rfl⟩ := Prod.mk.inj (Option.some_inj.mp h)
          refine ⟨by rw [depth, depthMembers]; omega, fun limit' hle => ?_⟩
          rw [if_neg (by omega)]
        · obtain ⟨⟨m, rest'⟩, hm, h⟩ := Option.bind_eq_some_iff.mp h
          obtain ⟨⟨ms, rest''⟩, hms, h⟩ := Option.bind_eq_some_iff.mp h
          obtain ⟨rfl, rfl⟩ := Prod.mk.inj (Option.some_inj.mp h)
          have hm' := ihMember _ _ _ _ hm
          have hms' := ihMembers _ _ _ _ hms
          refine ⟨by simp only [depth, depthMembers]; omega, fun limit' hle => ?_⟩
          have hle' : limit - 1 ≤ limit' - 1 := by omega
          rw [if_neg (by omega)]
          simp only [hm'.2 _ hle', hms'.2 _ hle', Option.bind_eq_bind, Option.bind_some]
          rfl
        · exact ⟨by rwa [parseNumber_depth h], fun _ _ => h⟩
    · intro limit input xs rest h
      rw [parseItems] at h
      split at h
      · rename_i tail heq
        obtain ⟨rfl, rfl⟩ := Prod.mk.inj (Option.some_inj.mp h)
        refine ⟨by rw [depthItems]; omega, fun limit' _ => ?_⟩
        rw [parseItems, heq]
        rfl
      · rename_i tail heq
        obtain ⟨⟨x, rest'⟩, hx, h⟩ := Option.bind_eq_some_iff.mp h
        obtain ⟨⟨xs', rest''⟩, hxs, h⟩ := Option.bind_eq_some_iff.mp h
        obtain ⟨rfl, rfl⟩ := Prod.mk.inj (Option.some_inj.mp h)
        have hx' := ihValue _ _ _ _ hx
        have hxs' := ihItems _ _ _ _ hxs
        refine ⟨by rw [depthItems]; omega, fun limit' hle => ?_⟩
        rw [parseItems, heq]
        simp only [hx'.2 limit' hle, hxs'.2 limit' hle, Option.bind_eq_bind, Option.bind_some]
        rfl
      · cases h
    · intro limit input m rest h
      rw [parseMember] at h
      split at h
      · rename_i tail heq
        obtain ⟨⟨name, rest'⟩, hname, h⟩ := Option.bind_eq_some_iff.mp h
        simp only at h
        split at h
        · rename_i tail' heq'
          obtain ⟨⟨x, rest''⟩, hx, h⟩ := Option.bind_eq_some_iff.mp h
          obtain ⟨rfl, rfl⟩ := Prod.mk.inj (Option.some_inj.mp h)
          have hx' := ihValue _ _ _ _ hx
          refine ⟨hx'.1, fun limit' hle => ?_⟩
          rw [parseMember, heq]
          simp only [hname, heq', hx'.2 limit' hle, Option.bind_eq_bind, Option.bind_some]
          rfl
        · cases h
      · cases h
    · intro limit input ms rest h
      rw [parseMembers] at h
      split at h
      · rename_i tail heq
        obtain ⟨rfl, rfl⟩ := Prod.mk.inj (Option.some_inj.mp h)
        refine ⟨by rw [depthMembers]; omega, fun limit' _ => ?_⟩
        rw [parseMembers, heq]
        rfl
      · rename_i tail heq
        obtain ⟨⟨m, rest'⟩, hm, h⟩ := Option.bind_eq_some_iff.mp h
        obtain ⟨⟨ms', rest''⟩, hms, h⟩ := Option.bind_eq_some_iff.mp h
        obtain ⟨rfl, rfl⟩ := Prod.mk.inj (Option.some_inj.mp h)
        have hm' := ihMember _ _ _ _ hm
        have hms' := ihMembers _ _ _ _ hms
        refine ⟨by rw [depthMembers]; omega, fun limit' hle => ?_⟩
        rw [parseMembers, heq]
        simp only [hm'.2 limit' hle, hms'.2 limit' hle, Option.bind_eq_bind, Option.bind_some]
        rfl
      · cases h

/-- What is written is read exactly within the limit, and as nothing else. -/
theorem parse_render_iff {v w : Json} {limit : ℕ} (hn : numbers v = true) (hlimit : 0 < limit) :
    parse limit (render v) = some w ↔ w = v ∧ depth v < limit := by
  constructor
  · intro h
    unfold parse at h
    split at h
    · rename_i w' rest heq
      have hlimits := (parse_limits _).1 _ _ _ _ heq
      have hbig := hlimits.2 (max limit (depth v + 1)) (Nat.le_max_left _ _)
      have hround := parseValue_render v ((render v).length + 1) (max limit (depth v + 1)) [] hn (by omega)
        (by omega) stops_nil
      rw [List.append_nil, hbig] at hround
      obtain ⟨rfl, rfl⟩ := Prod.mk.inj (Option.some_inj.mp hround)
      refine ⟨(Option.some_inj.mp h).symm, ?_⟩
      have hdepth := hlimits.1
      omega
    · cases h
  · rintro ⟨rfl, hd⟩
    exact parse_render hn hd

mutual

/-- A value is nested no deeper than its text is long. -/
theorem depth_le_length (v : Json) : depth v ≤ (render v).length := by
  match v with
  | .null | .bool true | .bool false | .num _ | .str _ => simp [depth]
  | .arr [] => simp [depth, depthItems, render]
  | .arr (x :: xs) =>
    have hx := depth_le_length x
    have hxs := depthItems_le_length xs
    simp only [depth, depthItems, render, List.length_cons, List.length_append]
    omega
  | .obj [] => simp [depth, depthMembers, render]
  | .obj ((name, x) :: ms) =>
    have hx := depth_le_length x
    have hms := depthMembers_le_length ms
    simp only [depth, depthMembers, render, List.length_cons, List.length_append, List.cons_append]
    omega

theorem depthItems_le_length (xs : List Json) : depthItems xs ≤ (renderItems xs).length := by
  match xs with
  | [] => simp [depthItems]
  | x :: xs =>
    have hx := depth_le_length x
    have hxs := depthItems_le_length xs
    simp only [depthItems, renderItems, List.length_cons, List.length_append, List.cons_append]
    omega

theorem depthMembers_le_length (ms : List (List Char × Json)) : depthMembers ms ≤ (renderMembers ms).length := by
  match ms with
  | [] => simp [depthMembers]
  | (name, x) :: ms =>
    have hx := depth_le_length x
    have hms := depthMembers_le_length ms
    simp only [depthMembers, renderMembers, List.length_cons, List.length_append, List.cons_append]
    omega

end

lemma newline_not_mem_escapeChar (c : Char) : '\n' ∉ escapeChar c := by
  unfold escapeChar
  split_ifs with h1 h2 h3 h4 h5 h6 h7 h8
  iterate 7 decide
  · have hall : ∀ n < 32, '\n' ∉ ['\\', 'u', '0', '0', hexDigits.getD (n / 16) '0', hexDigits.getD (n % 16) '0'] := by
      decide
    exact hall c.toNat h8
  · simpa using Ne.symm h5

lemma newline_not_mem_quote (text : List Char) : '\n' ∉ quote text := by
  have hescape : '\n' ∉ escape text := by
    intro h
    obtain ⟨c, -, hc⟩ := List.mem_flatMap.mp h
    exact newline_not_mem_escapeChar c hc
  simp [quote, hescape]

lemma renderMembers_append (ms ms' : List (List Char × Json)) :
    renderMembers (ms ++ ms') = joined ms ++ renderMembers ms' := by
  induction ms with
  | nil => rfl
  | cons m ms ih =>
    obtain ⟨name, x⟩ := m
    simp only [List.cons_append, renderMembers, joined, ih, List.append_assoc]

lemma comma_of_mem_escapeChar {c : Char} (h : ',' ∈ escapeChar c) : c = ',' := by
  by_contra hne
  revert h
  unfold escapeChar
  split_ifs with h1 h2 h3 h4 h5 h6 h7 h8
  iterate 7 decide
  · have hall : ∀ n < 32, ',' ∉ ['\\', 'u', '0', '0', hexDigits.getD (n / 16) '0', hexDigits.getD (n % 16) '0'] := by
      decide
    exact hall c.toNat h8
  · simpa using Ne.symm hne

lemma comma_not_mem_quote {text : List Char} (h : ',' ∉ text) : ',' ∉ quote text := by
  have hescape : ',' ∉ escape text := by
    intro hmem
    obtain ⟨c, hc, hmem⟩ := List.mem_flatMap.mp hmem
    exact h (comma_of_mem_escapeChar hmem ▸ hc)
  simp [quote, hescape]

/-- An escaped character does not begin with a quote. -/
lemma escapeChar_head (c : Char) : ∃ d rest, escapeChar c = d :: rest ∧ d ≠ '"' := by
  unfold escapeChar
  split_ifs with h1
  iterate 8 exact ⟨'\\', _, rfl, by decide⟩
  exact ⟨c, [], rfl, h1⟩

lemma newline_not_mem_number {literal : List Char} (h : isNumber literal = true) : '\n' ∉ literal := by
  intro hmem
  have hc := List.all_eq_true.mp (isNumber_chars h) _ hmem
  revert hc
  decide

mutual
/-- A value is written on one line. -/
theorem newline_not_mem_render (v : Json) (hn : numbers v = true) : '\n' ∉ render v := by
  cases v with
  | null => decide
  | bool b => cases b <;> decide
  | num literal => exact newline_not_mem_number hn
  | str text => exact newline_not_mem_quote text
  | arr xs =>
    cases xs with
    | nil => decide
    | cons x xs =>
      rw [numbers, numbersItems, Bool.and_eq_true] at hn
      have hx := newline_not_mem_render x hn.1
      have hxs := newline_not_mem_renderItems xs hn.2
      simp [render, hx, hxs]
  | obj ms =>
    cases ms with
    | nil => decide
    | cons m ms =>
      obtain ⟨name, x⟩ := m
      rw [numbers, numbersMembers, Bool.and_eq_true] at hn
      have hx := newline_not_mem_render x hn.1
      have hms := newline_not_mem_renderMembers ms hn.2
      simp [render, hx, hms, newline_not_mem_quote name]

theorem newline_not_mem_renderItems (xs : List Json) (hn : numbersItems xs = true) : '\n' ∉ renderItems xs := by
  cases xs with
  | nil => decide
  | cons x xs =>
    rw [numbersItems, Bool.and_eq_true] at hn
    have hx := newline_not_mem_render x hn.1
    have hxs := newline_not_mem_renderItems xs hn.2
    simp [renderItems, hx, hxs]

theorem newline_not_mem_renderMembers (ms : List (List Char × Json)) (hn : numbersMembers ms = true) :
    '\n' ∉ renderMembers ms := by
  cases ms with
  | nil => decide
  | cons m ms =>
    obtain ⟨name, x⟩ := m
    rw [numbersMembers, Bool.and_eq_true] at hn
    have hx := newline_not_mem_render x hn.1
    have hms := newline_not_mem_renderMembers ms hn.2
    simp [renderMembers, hx, hms, newline_not_mem_quote name]
end

/-- The literal of an integer. -/
def intLiteral (n : ℤ) : List Char :=
  if n < 0 then '-' :: Nat.toDigits 10 n.natAbs else Nat.toDigits 10 n.natAbs

/-- The integer of a literal without fraction and exponent; `-0` is a float. -/
def readInt : List Char → Option ℤ
  | '-' :: digits =>
    if digits ≠ [] ∧ digits.all Char.isDigit ∧ digits ≠ ['0'] then some (-(Nat.ofDigitChars 10 digits 0 : ℤ)) else none
  | digits => if digits ≠ [] ∧ digits.all Char.isDigit then some (Nat.ofDigitChars 10 digits 0 : ℤ) else none

lemma toDigits_all (n : ℕ) : (Nat.toDigits 10 n).all Char.isDigit = true :=
  List.all_eq_true.mpr fun _ hc => Nat.isDigit_of_mem_toDigits (by decide) (by decide) hc

lemma toDigits_head (n : ℕ) : ∃ c rest, Nat.toDigits 10 n = c :: rest ∧ c.isDigit = true := by
  cases h : Nat.toDigits 10 n with
  | nil => exact absurd h Nat.toDigits_ne_nil
  | cons c rest =>
    have hall := toDigits_all n
    rw [h, List.all_cons, Bool.and_eq_true] at hall
    exact ⟨c, rest, rfl, hall.1⟩

lemma ne_of_isDigit {c d : Char} (hc : c.isDigit = true) (hd : d.isDigit = false) : c ≠ d := by
  rintro rfl
  rw [hc] at hd
  cases hd

theorem readInt_intLiteral (n : ℤ) : readInt (intLiteral n) = some n := by
  have hall := toDigits_all n.natAbs
  have hne : Nat.toDigits 10 n.natAbs ≠ [] := Nat.toDigits_ne_nil
  unfold intLiteral
  split_ifs with hneg
  · have hzero : Nat.toDigits 10 n.natAbs ≠ ['0'] := by
      intro h
      have hval := congrArg (Nat.ofDigitChars 10 · 0) h
      simp only [Nat.ofDigitChars_ten_toDigits] at hval
      have hdigit : Nat.ofDigitChars 10 ['0'] 0 = 0 := by decide
      omega
    rw [readInt, if_pos ⟨hne, hall, hzero⟩, Nat.ofDigitChars_ten_toDigits, Option.some_inj]
    omega
  · obtain ⟨c, rest, heq, hc⟩ := toDigits_head n.natAbs
    have hval : (Nat.ofDigitChars 10 (Nat.toDigits 10 n.natAbs) 0 : ℤ) = n := by
      rw [Nat.ofDigitChars_ten_toDigits]
      omega
    rw [heq] at hall hne hval ⊢
    rw [readInt, if_pos ⟨hne, hall⟩, hval]
    intro digits hminus
    injection hminus with hminus _
    exact ne_of_isDigit hc (by decide) hminus

/-- Digits without a leading zero. -/
lemma toDigits_whole (n : ℕ) : Nat.toDigits 10 n = ['0'] ∨ (Nat.toDigits 10 n).head? ≠ some '0' := by
  induction n using Nat.strongRecOn with
  | ind n ih =>
    by_cases hlt : n < 10
    · rw [Nat.toDigits_of_lt_base hlt]
      have hall : ∀ n < 10, [Nat.digitChar n] = ['0'] ∨ [Nat.digitChar n].head? ≠ some '0' := by decide
      exact hall n hlt
    · rw [Nat.toDigits_of_base_le (by decide) (by omega)]
      rcases ih (n / 10) (by omega) with h | h
      · have hval := congrArg (Nat.ofDigitChars 10 · 0) h
        simp only [Nat.ofDigitChars_ten_toDigits] at hval
        have hdigit : Nat.ofDigitChars 10 ['0'] 0 = 0 := by decide
        omega
      · right
        obtain ⟨c, rest, heq, -⟩ := toDigits_head (n / 10)
        rw [heq] at h ⊢
        exact h

lemma isNumber_digits {literal digits : List Char} (h : literal = digits ∨ literal = '-' :: digits)
    (hne : digits ≠ []) (hall : digits.all Char.isDigit = true) (hz : digits = ['0'] ∨ digits.head? ≠ some '0') :
    isNumber literal = true := by
  have htake : digits.takeWhile Char.isDigit = digits :=
    List.takeWhile_eq_self_iff.mpr (List.all_eq_true.mp hall)
  have hdrop : digits.dropWhile Char.isDigit = [] :=
    List.dropWhile_eq_nil_iff.mpr (List.all_eq_true.mp hall)
  have hchars : digits.all isNumberChar = true := by
    apply List.all_eq_true.mpr
    intro c hc
    simp [isNumberChar, List.all_eq_true.mp hall c hc]
  rcases h with rfl | rfl
  · obtain ⟨c, rest, rfl⟩ := List.exists_cons_of_ne_nil hne
    have hc : c.isDigit = true := List.all_eq_true.mp hall c List.mem_cons_self
    have hminus : c ≠ '-' := ne_of_isDigit hc (by decide)
    have hrest : (match c :: rest with | '-' :: rest => rest | rest => rest) = c :: rest := by
      split
      · rename_i heq
        injection heq with heq _
        exact absurd heq hminus
      · rfl
    simpa [isNumber, hrest, htake, hdrop, hchars, isFraction, isExponent] using hz
  · have hall' : ('-' :: digits).all isNumberChar = true := by
      rw [List.all_cons, hchars]
      rfl
    simp [isNumber, htake, hdrop, hall', hne, hz, isFraction, isExponent]

theorem isNumber_intLiteral (n : ℤ) : isNumber (intLiteral n) = true := by
  refine @isNumber_digits _ (Nat.toDigits 10 n.natAbs) ?_ Nat.toDigits_ne_nil (toDigits_all _) (toDigits_whole _)
  unfold intLiteral
  split_ifs
  · exact .inr rfl
  · exact .inl rfl

end Json

end Unixd.Lib
