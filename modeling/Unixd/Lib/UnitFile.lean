import Unixd.Lib.Utf8

/-!
# Unit files

How a service manager reads a unit file: a newline ends a directive, a command line is words between
white space with C escapes in double quotes, and a doubled mark stands for itself.
-/

namespace Unixd.Lib.UnitFile

abbrev Bytes := List UInt8

/-- A setting, in the section that it stands in. -/
structure Directive where
  group : Bytes
  key : Bytes
  value : Bytes
  deriving DecidableEq

/-- The directives of `lines` in the section `group`; empty lines, comments and lines without a sign are none. -/
def directivesIn (group : Bytes) : List Bytes → List Directive
  | [] => []
  | line :: lines =>
    if line.head? = some (asciiByte '[') then
      directivesIn (line.tail.takeWhile (· ≠ asciiByte ']')) lines
    else if asciiByte '=' ∉ line ∨ line.head? = some (asciiByte '#') ∨ line.head? = some (asciiByte ';') then
      directivesIn group lines
    else
      ⟨group, line.takeWhile (· ≠ asciiByte '='), (line.dropWhile (· ≠ asciiByte '=')).tail⟩ :: directivesIn group lines

def directives (unit : Bytes) : List Directive :=
  directivesIn [] (unit.splitOn (asciiByte '\n'))

/-- Where a command line is read: between words, in a word, in its quotes, behind a backslash there, or in the
digits of an escape, with those that are missing and the value so far; a wide escape stands for a character. -/
inductive Mode where
  | between
  | bare
  | quoted
  | escape
  | code (base left value : ℕ) (wide : Bool)
  deriving DecidableEq

structure Scan where
  mode : Mode
  word : Bytes
  words : List Bytes

def isWhite (b : UInt8) : Bool :=
  b = asciiByte ' ' ∨ b = asciiByte '\t' ∨ b = asciiByte '\n' ∨ b = asciiByte '\r'

/-- The value of a digit in a base up to 16. -/
def digitValue (base : ℕ) (b : UInt8) : Option ℕ :=
  let n := b.toNat
  let value := if 48 ≤ n ∧ n ≤ 57 then n - 48 else if 97 ≤ n ∧ n ≤ 102 then n - 87 else if 65 ≤ n ∧ n ≤ 70 then n - 55 else base
  if value < base then some value else none

/-- The byte that a letter behind a backslash stands for. -/
def letterEscape (b : UInt8) : Option UInt8 :=
  if b = asciiByte 'a' then some 7
  else if b = asciiByte 'b' then some 8
  else if b = asciiByte 'f' then some 12
  else if b = asciiByte 'n' then some 10
  else if b = asciiByte 'r' then some 13
  else if b = asciiByte 't' then some 9
  else if b = asciiByte 'v' then some 11
  else if b = asciiByte 's' then some 32
  else if b = asciiByte '\\' ∨ b = asciiByte '"' ∨ b = asciiByte '\'' then some b
  else none

def Scan.push (s : Scan) (mode : Mode) (bytes : Bytes) : Scan :=
  { s with mode := mode, word := s.word ++ bytes }

def Scan.step (s : Scan) (b : UInt8) : Option Scan :=
  match s.mode with
  | .between =>
    if isWhite b then some s
    else if b = asciiByte '"' then some { s with mode := .quoted }
    else some (s.push .bare [b])
  | .bare =>
    if isWhite b then some ⟨.between, [], s.words ++ [s.word]⟩
    else if b = asciiByte '"' then some { s with mode := .quoted }
    else some (s.push .bare [b])
  | .quoted =>
    if b = asciiByte '"' then some { s with mode := .bare }
    else if b = asciiByte '\\' then some { s with mode := .escape }
    else some (s.push .quoted [b])
  | .escape =>
    if b = asciiByte 'x' then some { s with mode := .code 16 2 0 false }
    else if b = asciiByte 'u' then some { s with mode := .code 16 4 0 true }
    else if b = asciiByte 'U' then some { s with mode := .code 16 8 0 true }
    else
      match digitValue 8 b, letterEscape b with
      | some value, _ => some { s with mode := .code 8 2 value false }
      | none, some byte => some (s.push .quoted [byte])
      | none, none => none
  | .code base left value wide =>
    (digitValue base b).map fun digit =>
      let value := value * base + digit
      if left = 1 then s.push .quoted (if wide then String.utf8EncodeChar (Char.ofNat value) else [UInt8.ofNat value])
      else { s with mode := .code base (left - 1) value wide }

/-- The words that a line ends with, unless it ends in a quote. -/
def Scan.finish (s : Scan) : Option (List Bytes) :=
  match s.mode with
  | .between => some s.words
  | .bare => some (s.words ++ [s.word])
  | _ => none

def splitWords (line : Bytes) : Option (List Bytes) :=
  (line.foldlM Scan.step ⟨.between, [], []⟩).bind Scan.finish

/-- A doubled `mark` is one; what another use of it stands for is not in the word. -/
def undouble (mark : UInt8) : Bytes → Option Bytes
  | [] => some []
  | [b] => if b = mark then none else some [b]
  | b :: c :: rest =>
    if b = mark then
      if c = mark then (undouble mark rest).map (mark :: ·) else none
    else (undouble mark (c :: rest)).map (b :: ·)

/-- In an argument `%` begins a specifier and `$` a variable. -/
def argument (word : Bytes) : Option Bytes :=
  (undouble (asciiByte '%') word).bind (undouble (asciiByte '$'))

/-- The program and the arguments of a command line; in the program `%` begins a specifier. -/
def commandLine (line : Bytes) : Option (List Bytes) := do
  match ← splitWords line with
  | [] => none
  | program :: args =>
    let program ← undouble (asciiByte '%') program
    let args ← args.mapM argument
    return program :: args

def double (mark : UInt8) (bytes : Bytes) : Bytes :=
  bytes.flatMap fun b => if b = mark then [mark, mark] else [b]

lemma double_append (mark : UInt8) (xs ys : Bytes) : double mark (xs ++ ys) = double mark xs ++ double mark ys :=
  List.flatMap_append

lemma undouble_double (mark : UInt8) (bytes : Bytes) : undouble mark (double mark bytes) = some bytes := by
  induction bytes with
  | nil => rfl
  | cons b bytes ih =>
    rw [double, List.flatMap_cons, ← double]
    by_cases hb : b = mark
    · rw [if_pos hb, List.cons_append, List.singleton_append, undouble, if_pos rfl, if_pos rfl, ih, hb]
      rfl
    · rw [if_neg hb, List.singleton_append]
      cases htail : double mark bytes with
      | nil =>
        rw [htail, undouble, Option.some_inj] at ih
        rw [undouble, if_neg hb, ih]
      | cons c rest =>
        rw [undouble, if_neg hb, ← htail, ih]
        rfl

/-- Doubling changes what has the mark. -/
lemma double_eq_self {mark : UInt8} {bytes : Bytes} : double mark bytes = bytes ↔ mark ∉ bytes := by
  have hlen : ∀ bytes, (double mark bytes).length = bytes.length + bytes.count mark := by
    intro bytes
    induction bytes with
    | nil => rfl
    | cons b bytes ih =>
      rw [double, List.flatMap_cons, ← double, List.length_append, ih, List.count_cons, List.length_cons]
      by_cases hb : b = mark
      · simp [hb]
        omega
      · simp [hb]
        omega
  constructor
  · intro h hmem
    have hsame := congrArg List.length h
    have hcount := List.count_pos_iff.mpr hmem
    rw [hlen] at hsame
    omega
  · intro h
    induction bytes with
    | nil => rfl
    | cons b bytes ih =>
      rw [List.mem_cons, not_or] at h
      rw [double, List.flatMap_cons, ← double, ih h.2, if_neg (Ne.symm h.1)]
      rfl

/-- A text with a doubled character is a text. -/
lemma double_utf8 {c : Char} (h : c.toNat < 128) (text : List Char) :
    double (asciiByte c) (utf8 text) = utf8 (text.flatMap fun d => if d = c then [c, c] else [d]) := by
  induction text with
  | nil => rfl
  | cons d text ih =>
    have hcons : utf8 (d :: text) = utf8 [d] ++ utf8 text := utf8_append [d] text
    rw [hcons, double_append, ih, List.flatMap_cons, utf8_append]
    by_cases hd : d = c
    · have hone : utf8 [c] = [asciiByte c] := utf8_ascii h []
      have htwo : utf8 [c, c] = [asciiByte c, asciiByte c] := by
        rw [utf8_ascii h, hone]
      rw [hd, if_pos rfl, hone, htwo, double, List.flatMap_singleton, if_pos rfl]
    · have hnot : asciiByte c ∉ utf8 [d] := by
        rw [mem_utf8_ascii h, List.mem_singleton]
        exact Ne.symm hd
      rw [if_neg hd, double_eq_self.mpr hnot]

lemma mapM_map_some {X Y Z : Type} {f : Y → Option Z} {g : X → Y} {h : X → Z} (hf : ∀ x, f (g x) = some (h x)) (xs : List X) :
    (xs.map g).mapM f = some (xs.map h) := by
  induction xs with
  | nil => rfl
  | cons x xs ih =>
    rw [List.map_cons, List.mapM_cons, hf, ih]
    rfl

lemma splitOn_line {line : List Char} (rest : List Char) (h : '\n' ∉ line) :
    (utf8 (line ++ '\n' :: rest)).splitOn (asciiByte '\n') = utf8 line :: (utf8 rest).splitOn (asciiByte '\n') := by
  have hnot : asciiByte '\n' ∉ utf8 line := fun hmem => h ((mem_utf8_ascii (by decide)).mp hmem)
  rw [utf8_append, utf8_ascii (by decide), List.splitOn_append_cons_of_beq _ _ (beq_self_eq_true _),
    List.splitOn_eq_singleton hnot, List.singleton_append]

/-- A line with a setting is a directive of its section. -/
lemma directivesIn_setting {group : Bytes} {key value : List Char} (lines : List Bytes)
    (hkey : '=' ∉ key ∧ (utf8 key).head? ∉ [none, some (asciiByte '['), some (asciiByte '#'), some (asciiByte ';')]) :
    directivesIn group (utf8 (key ++ '=' :: value) :: lines) =
      ⟨group, utf8 key, utf8 value⟩ :: directivesIn group lines := by
  have hsplit : utf8 (key ++ '=' :: value) = utf8 key ++ asciiByte '=' :: utf8 value := by
    rw [utf8_append, utf8_ascii (by decide)]
  have hnot : asciiByte '=' ∉ utf8 key := fun h => hkey.1 ((mem_utf8_ascii (by decide)).mp h)
  have hhead : (utf8 key ++ asciiByte '=' :: utf8 value).head? = (utf8 key).head? := by
    cases hk : utf8 key with
    | nil => simp [hk] at hkey
    | cons b rest => rfl
  simp only [List.mem_cons, List.not_mem_nil, or_false, not_or] at hkey
  have hall : ∀ b ∈ utf8 key, decide (b ≠ asciiByte '=') = true := by
    intro b hb
    simp only [decide_eq_true_eq]
    rintro rfl
    exact hnot hb
  rw [hsplit, directivesIn, hhead, if_neg hkey.2.2.1, if_neg (by simp [hkey.2.2.2.1, hkey.2.2.2.2]),
    List.takeWhile_append_of_pos hall, List.dropWhile_append_of_pos hall]
  simp

end Unixd.Lib.UnitFile
