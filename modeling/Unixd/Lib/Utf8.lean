import Mathlib.Data.List.Basic
import Mathlib.Order.Defs.Unbundled

/-!
# UTF-8

Texts as bytes and back. A byte below 128 stands for one character and occurs in the encoding of no
other, so a text can be cut at such a byte.
-/

namespace Unixd.Lib

def utf8 (text : List Char) : List UInt8 :=
  text.flatMap String.utf8EncodeChar

def fromUtf8 (bytes : List UInt8) : Option (List Char) :=
  bytes.toByteArray.utf8Decode?.map Array.toList

@[simp] lemma utf8_nil : utf8 [] = [] := rfl

lemma utf8_cons (c : Char) (text : List Char) : utf8 (c :: text) = String.utf8EncodeChar c ++ utf8 text :=
  List.flatMap_cons

lemma utf8_append (s t : List Char) : utf8 (s ++ t) = utf8 s ++ utf8 t :=
  List.flatMap_append

lemma utf8_eq (text : List Char) : (utf8 text).toByteArray = text.utf8Encode := by
  simp only [List.utf8Encode]
  rfl

@[simp] theorem fromUtf8_utf8 (text : List Char) : fromUtf8 (utf8 text) = some text := by
  rw [fromUtf8, utf8_eq, List.utf8Decode?_utf8Encode]
  rfl

lemma utf8_injective : Function.Injective utf8 := by
  intro s t h
  have hdecode := congrArg fromUtf8 h
  rw [fromUtf8_utf8, fromUtf8_utf8] at hdecode
  exact Option.some_inj.mp hdecode

/-- The order of texts by their bytes. -/
def utf8Lt (s t : List Char) : Prop :=
  utf8 s < utf8 t

instance : DecidableRel utf8Lt := fun s t => inferInstanceAs (Decidable (utf8 s < utf8 t))

instance : IsStrictTotalOrder (List Char) utf8Lt where
  irrefl s := List.lt_irrefl (utf8 s)
  trans _ _ _ h h' := List.lt_trans h h'
  trichotomous s t h h' := by
    have hle : utf8 t ≤ utf8 s := h
    rw [List.le_iff_lt_or_eq] at hle
    exact utf8_injective (hle.resolve_left h').symm

/-- The one byte of an ASCII character. -/
def asciiByte (c : Char) : UInt8 :=
  UInt8.ofNat c.toNat

lemma utf8EncodeChar_ascii {c : Char} (h : c.toNat < 128) : String.utf8EncodeChar c = [asciiByte c] := by
  have hc : c.val.toNat ≤ 0x7f := Nat.le_of_lt_succ h
  simp only [String.utf8EncodeChar, hc, if_true]
  rfl

lemma utf8EncodeChar_high {c : Char} (h : ¬ c.toNat < 128) {b : UInt8} (hb : b ∈ String.utf8EncodeChar c) :
    128 ≤ b.toNat := by
  have hc : ¬ c.val.toNat ≤ 0x7f := fun hle => h (Nat.lt_succ_of_le hle)
  simp only [String.utf8EncodeChar, hc, if_false] at hb
  split_ifs at hb
  all_goals
    simp only [List.mem_cons, List.not_mem_nil, or_false] at hb
    rcases hb with rfl | rfl | rfl | rfl <;> simp only [UInt8.toNat_ofNat'] <;> omega

/-- A byte below 128 is a character of its own. -/
lemma utf8EncodeChar_of_mem {c : Char} {b : UInt8} (hb : b ∈ String.utf8EncodeChar c) (h : b.toNat < 128) :
    c.toNat = b.toNat ∧ String.utf8EncodeChar c = [b] := by
  by_cases hc : c.toNat < 128
  · rw [utf8EncodeChar_ascii hc, List.mem_singleton] at hb
    rw [utf8EncodeChar_ascii hc, hb, asciiByte, UInt8.toNat_ofNat']
    refine ⟨?_, rfl⟩
    omega
  · have hhigh := utf8EncodeChar_high hc hb
    omega

lemma asciiByte_toNat {c : Char} (h : c.toNat < 128) : (asciiByte c).toNat = c.toNat := by
  rw [asciiByte, UInt8.toNat_ofNat']
  omega

/-- The first byte of a text is an ASCII character only where its first character is that one. -/
lemma utf8_head (c : Char) (text : List Char) :
    ∃ b rest, utf8 (c :: text) = b :: rest ∧ ∀ d : Char, d.toNat < 128 → b = asciiByte d → c = d := by
  have hne : String.utf8EncodeChar c ≠ [] := by
    apply List.ne_nil_of_length_pos
    rw [String.length_utf8EncodeChar]
    exact Char.utf8Size_pos c
  obtain ⟨b, rest, heq⟩ := List.exists_cons_of_ne_nil hne
  refine ⟨b, rest ++ utf8 text, by rw [utf8_cons, heq, List.cons_append], ?_⟩
  rintro d hd rfl
  have hmem : asciiByte d ∈ String.utf8EncodeChar c := heq ▸ List.mem_cons_self
  have hnat := (utf8EncodeChar_of_mem hmem (by rwa [asciiByte_toNat hd])).1
  rw [asciiByte_toNat hd] at hnat
  exact Char.toNat_inj.mp hnat

lemma mem_utf8_ascii {text : List Char} {c : Char} (h : c.toNat < 128) :
    asciiByte c ∈ utf8 text ↔ c ∈ text := by
  constructor
  · intro hb
    obtain ⟨d, hd, hmem⟩ := List.mem_flatMap.mp hb
    have hnat := (utf8EncodeChar_of_mem hmem (by rwa [asciiByte_toNat h])).1
    rw [asciiByte_toNat h] at hnat
    have heq : d = c := Char.toNat_inj.mp hnat
    rw [← heq]
    exact hd
  · intro hc
    apply List.mem_flatMap.mpr
    refine ⟨c, hc, ?_⟩
    rw [utf8EncodeChar_ascii h]
    exact List.mem_singleton_self _

lemma utf8_ascii {c : Char} (h : c.toNat < 128) (text : List Char) : utf8 (c :: text) = asciiByte c :: utf8 text := by
  rw [utf8_cons, utf8EncodeChar_ascii h, List.singleton_append]

/-- The character at the head of `bytes`. -/
def firstChar (bytes : List UInt8) : Option Char :=
  bytes.toByteArray.utf8DecodeChar? 0

/-- How many bytes the longest part of a character takes at the head of bytes that no character begins. -/
def brokenLength : List UInt8 → ℕ
  | a :: b :: rest =>
    if a = 0xe0 ∧ 0xa0 ≤ b ∧ b ≤ 0xbf ∨ (0xe1 ≤ a ∧ a ≤ 0xec ∨ a = 0xee ∨ a = 0xef) ∧ 0x80 ≤ b ∧ b ≤ 0xbf ∨
        a = 0xed ∧ 0x80 ≤ b ∧ b ≤ 0x9f then
      2
    else if a = 0xf0 ∧ 0x90 ≤ b ∧ b ≤ 0xbf ∨ (0xf1 ≤ a ∧ a ≤ 0xf3) ∧ 0x80 ≤ b ∧ b ≤ 0xbf ∨
        a = 0xf4 ∧ 0x80 ≤ b ∧ b ≤ 0x8f then
      match rest with
      | c :: _ => if 0x80 ≤ c ∧ c ≤ 0xbf then 3 else 2
      | [] => 2
    else 1
  | _ => 1

/-- A text from any bytes, with U+FFFD for each part that is not UTF-8. -/
def fromUtf8Lossy : List UInt8 → List Char
  | [] => []
  | b :: rest =>
    match firstChar (b :: rest) with
    | some c => c :: fromUtf8Lossy (rest.drop (c.utf8Size - 1))
    | none => '\ufffd' :: fromUtf8Lossy (rest.drop (brokenLength (b :: rest) - 1))
termination_by bytes => bytes.length
decreasing_by
  all_goals
    rw [List.length_drop, List.length_cons]
    omega

/-- What is UTF-8 loses nothing. -/
theorem fromUtf8Lossy_utf8 (text : List Char) : fromUtf8Lossy (utf8 text) = text := by
  induction text with
  | nil => rw [utf8_nil, fromUtf8Lossy]
  | cons c text ih =>
    have hlen := String.length_utf8EncodeChar c
    have hpos := Char.utf8Size_pos c
    obtain ⟨b, rest, heq⟩ := List.exists_cons_of_length_pos (l := String.utf8EncodeChar c) (by omega)
    have hfirst : firstChar (b :: (rest ++ utf8 text)) = some c := by
      rw [← List.cons_append, ← heq, firstChar, List.toByteArray_append]
      exact ByteArray.utf8DecodeChar?_utf8EncodeChar_append
    have hdrop : (rest ++ utf8 text).drop (c.utf8Size - 1) = utf8 text := by
      rw [heq, List.length_cons] at hlen
      exact List.drop_left' (by omega)
    rw [utf8_cons, heq, List.cons_append, fromUtf8Lossy, hfirst]
    simp only [hdrop, ih]

end Unixd.Lib
