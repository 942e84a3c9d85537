import Mathlib.Data.List.Duplicate
import Unixd.Lib.Fields
import Unixd.Lib.SortedMap
import Unixd.Lib.Utf8
import Unixd.Cache.Protocol

/-!
# Keys

How a key is built from its named parts: the bytes fed to the hasher, and what the digest and the
file names made from it say about the parts. The hash function is a parameter.
-/

namespace Unixd.Cache

open Unixd.Lib

/-- Parts in the order of a `BTreeMap` with string keys. -/
abbrev Sorted (parts : List (Name × Name)) : Prop :=
  SortedMap.Sorted utf8Lt parts

def insertPart (name value : Name) (parts : List (Name × Name)) : Option Name × List (Name × Name) :=
  SortedMap.insert utf8Lt name value parts

/-- Collects the named parts of a key, sorted by name. -/
structure KeyBuilder where
  space : Name
  parts : List (Name × Name)
  sorted : Sorted parts

def Key.builder (space : Name) : KeyBuilder :=
  ⟨space, [], List.Pairwise.nil⟩

def KeyBuilder.part (self : KeyBuilder) (name value : Name) : Except Error KeyBuilder :=
  if (insertPart name value self.parts).1.isSome then
    .error (.duplicateKeyPart name)
  else
    .ok ⟨self.space, (insertPart name value self.parts).2, self.sorted.insert⟩

/-- A chain of `part` calls. -/
def KeyBuilder.chain (self : KeyBuilder) : List (Name × Name) → Except Error KeyBuilder
  | [] => .ok self
  | p :: parts =>
    match self.part p.1 p.2 with
    | .ok next => next.chain parts
    | .error e => .error e

lemma KeyBuilder.part_ok {self : KeyBuilder} {name value : Name} {next : KeyBuilder}
    (h : self.part name value = .ok next) :
    name ∉ self.parts.map Prod.fst ∧ next.space = self.space ∧ next.parts.Perm ((name, value) :: self.parts) := by
  unfold KeyBuilder.part at h
  split_ifs at h with hsome
  have hnone : (insertPart name value self.parts).1 = none := by simpa using hsome
  injection h with h
  have hout := (SortedMap.insert_eq_none self.sorted).mp hnone
  rw [← h]
  exact ⟨hout, rfl, SortedMap.insert_perm self.sorted hout⟩

lemma KeyBuilder.part_error {self : KeyBuilder} {name value : Name} {e : Error}
    (h : self.part name value = .error e) : name ∈ self.parts.map Prod.fst ∧ e = .duplicateKeyPart name := by
  unfold KeyBuilder.part at h
  split_ifs at h with hsome
  injection h with h
  refine ⟨?_, h.symm⟩
  by_contra hout
  rw [insertPart, (SortedMap.insert_eq_none self.sorted).mpr hout] at hsome
  cases hsome

/-- A chain that succeeds has kept every part, each name once. -/
lemma KeyBuilder.chain_ok {self : KeyBuilder} {parts : List (Name × Name)} {last : KeyBuilder}
    (h : self.chain parts = .ok last) (hself : (self.parts.map Prod.fst).Nodup) :
    last.space = self.space ∧ last.parts.Perm (parts ++ self.parts) ∧
      ((parts ++ self.parts).map Prod.fst).Nodup := by
  induction parts generalizing self with
  | nil =>
    injection h with h
    rw [← h]
    exact ⟨rfl, List.Perm.refl _, hself⟩
  | cons p parts ih =>
    rw [KeyBuilder.chain] at h
    split at h
    · rename_i next hnext
      have hpart := part_ok hnext
      have hnodup : (next.parts.map Prod.fst).Nodup := by
        rw [(hpart.2.2.map Prod.fst).nodup_iff]
        exact List.nodup_cons.mpr ⟨hpart.1, hself⟩
      have hrest := ih h hnodup
      have hperm : (parts ++ next.parts).Perm (p :: parts ++ self.parts) :=
        (hpart.2.2.append_left parts).trans List.perm_middle
      refine ⟨hrest.1.trans hpart.2.1, hrest.2.1.trans hperm, ?_⟩
      rw [← (hperm.map Prod.fst).nodup_iff]
      exact hrest.2.2
    · cases h

lemma KeyBuilder.chain_error {self : KeyBuilder} {parts : List (Name × Name)} {e : Error}
    (h : self.chain parts = .error e) :
    ¬ ((parts ++ self.parts).map Prod.fst).Nodup ∧ ∃ name, e = .duplicateKeyPart name := by
  induction parts generalizing self with
  | nil => cases h
  | cons p parts ih =>
    rw [KeyBuilder.chain] at h
    split at h
    · rename_i next hnext
      have hperm : (parts ++ next.parts).Perm (p :: parts ++ self.parts) :=
        ((part_ok hnext).2.2.append_left parts).trans List.perm_middle
      rw [← (hperm.map Prod.fst).nodup_iff]
      exact ih h
    · rename_i e' herror
      injection h with h
      have hpart := part_error herror
      refine ⟨fun hnodup => ?_, p.1, h ▸ hpart.2⟩
      rw [List.cons_append, List.map_cons, List.nodup_cons, List.map_append, List.mem_append] at hnodup
      exact hnodup.1 (.inr hpart.1)

/-- Length-prefixes each field. -/
def feed (hasher : Bytes) (text : Name) : Bytes :=
  hasher ++ leBytes 8 (min (utf8 text).length u64Max) ++ utf8 text

/-- Everything `build` feeds to the hasher. -/
def KeyBuilder.fed (self : KeyBuilder) : Bytes :=
  self.parts.foldl (fun hasher p => feed (feed hasher p.1) p.2) (feed [UInt8.ofNat format] self.space)

/-- A digit of `DIGITS`. -/
def hexDigit (n : ℕ) : Char :=
  "0123456789abcdef".toList.getD n '0'

def hex (bytes : Bytes) : Name :=
  bytes.flatMap fun byte : UInt8 => [hexDigit (byte >>> 4).toNat, hexDigit (byte &&& 0x0f).toNat]

/-- `Sha256`: any function of the bytes fed that gives 32 bytes. -/
structure Hash where
  finalize : Bytes → Bytes
  length : ∀ bytes, (finalize bytes).length = 32

def isLowerHexDigit (c : Char) : Bool :=
  ('0' ≤ c ∧ c ≤ '9') ∨ ('a' ≤ c ∧ c ≤ 'f')

lemma isLowerHexDigit_hexDigit {n : ℕ} (h : n < 16) : isLowerHexDigit (hexDigit n) = true := by
  revert h n
  decide

lemma hexDigit_inj {n m : ℕ} (hn : n < 16) (hm : m < 16) (h : hexDigit n = hexDigit m) : n = m := by
  have hall : ∀ n < 16, ∀ m < 16, hexDigit n = hexDigit m → n = m := by decide
  exact hall n hn m hm h

lemma high_toNat (byte : UInt8) : (byte >>> 4).toNat = byte.toNat / 16 := by
  rw [UInt8.toNat_shiftRight, Nat.shiftRight_eq_div_pow]
  rfl

lemma low_toNat (byte : UInt8) : (byte &&& 0x0f).toNat = byte.toNat % 16 := by
  rw [UInt8.toNat_and]
  exact Nat.and_two_pow_sub_one_eq_mod _ 4

lemma hex_cons (byte : UInt8) (bytes : Bytes) :
    hex (byte :: bytes) = hexDigit (byte.toNat / 16) :: hexDigit (byte.toNat % 16) :: hex bytes := by
  rw [← high_toNat, ← low_toNat]
  rfl

lemma length_hex (bytes : Bytes) : (hex bytes).length = 2 * bytes.length := by
  induction bytes with
  | nil => rfl
  | cons byte bytes ih =>
    rw [hex_cons, List.length_cons, List.length_cons, ih, List.length_cons]
    omega

lemma isLowerHexDigit_of_mem_hex {bytes : Bytes} {c : Char} (h : c ∈ hex bytes) :
    isLowerHexDigit c = true := by
  rcases List.mem_flatMap.mp h with ⟨byte, -, hc⟩
  have hbyte := byte.toNat_lt
  rw [high_toNat, low_toNat] at hc
  rcases List.mem_pair.mp hc with rfl | rfl
  · exact isLowerHexDigit_hexDigit (by omega)
  · exact isLowerHexDigit_hexDigit (by omega)

lemma isHexDigit_of_lower {c : Char} (h : isLowerHexDigit c = true) : isHexDigit c = true := by
  simp only [isLowerHexDigit, isHexDigit, decide_eq_true_eq] at h ⊢
  exact h.imp_right .inl

lemma isDigest_hex {bytes : Bytes} (h : bytes.length = 32) : isDigest (hex bytes) = true := by
  rw [isDigest_iff, length_hex, h]
  exact ⟨rfl, fun c hc => isHexDigit_of_lower (isLowerHexDigit_of_mem_hex hc)⟩

lemma hex_injective : Function.Injective hex := by
  intro xs
  induction xs with
  | nil =>
    intro ys h
    have hlen := congrArg List.length h
    rw [length_hex, length_hex, List.length_nil] at hlen
    exact (List.eq_nil_of_length_eq_zero (by omega)).symm
  | cons x xs ih =>
    intro ys h
    cases ys with
    | nil =>
      have hlen := congrArg List.length h
      rw [length_hex, length_hex, List.length_nil, List.length_cons] at hlen
      omega
    | cons y ys =>
      simp only [hex_cons, List.cons.injEq] at h
      have hx := x.toNat_lt
      have hy := y.toNat_lt
      have hhigh := hexDigit_inj (by omega) (by omega) h.1
      have hlow := hexDigit_inj (by omega) (by omega) h.2.1
      have hbyte : x = y := UInt8.toNat_inj.mp (by omega)
      rw [hbyte, ih h.2.2]

/-- Hashes the namespace and the sorted parts into a key. -/
def KeyBuilder.build (hash : Hash) (self : KeyBuilder) : Key :=
  ⟨self.space, hex (hash.finalize self.fed), isDigest_hex (hash.length _)⟩

/-- The fields of a builder in the order they are fed. -/
def KeyBuilder.fields (self : KeyBuilder) : List Bytes :=
  utf8 self.space :: self.parts.flatMap fun p => [utf8 p.1, utf8 p.2]

/-- Every field of a key is shorter than `2 ^ 64` bytes. -/
def ShortFields (space : Name) (parts : List (Name × Name)) : Prop :=
  (utf8 space).length < 2 ^ 64 ∧ ∀ p ∈ parts, (utf8 p.1).length < 2 ^ 64 ∧ (utf8 p.2).length < 2 ^ 64

abbrev KeyBuilder.Short (self : KeyBuilder) : Prop :=
  ShortFields self.space self.parts

lemma feed_eq {hasher : Bytes} {text : Name} (h : (utf8 text).length < 2 ^ 64) :
    feed hasher text = hasher ++ field 8 (utf8 text) := by
  have hmin : min (utf8 text).length u64Max = (utf8 text).length := by
    rw [u64Max]
    omega
  rw [feed, hmin, field, List.append_assoc]

lemma KeyBuilder.fed_eq {self : KeyBuilder} (h : self.Short) :
    self.fed = UInt8.ofNat format :: self.fields.flatMap (field 8) := by
  have hparts : ∀ (parts : List (Name × Name)) (hasher : Bytes),
      (∀ p ∈ parts, (utf8 p.1).length < 2 ^ 64 ∧ (utf8 p.2).length < 2 ^ 64) →
      parts.foldl (fun hasher p => feed (feed hasher p.1) p.2) hasher =
        hasher ++ (parts.flatMap fun p => [utf8 p.1, utf8 p.2]).flatMap (field 8) := by
    intro parts
    induction parts with
    | nil =>
      intro hasher _
      simp
    | cons p parts ih =>
      intro hasher hshort
      have hp := hshort p List.mem_cons_self
      rw [List.foldl_cons, ih _ (fun q hq => hshort q (List.mem_cons_of_mem p hq)), feed_eq hp.2, feed_eq hp.1]
      simp
  rw [fed, hparts _ _ h.2, feed_eq h.1, fields, List.flatMap_cons]
  rfl

lemma KeyBuilder.Short.fields {self : KeyBuilder} (h : self.Short) :
    ∀ x ∈ self.fields, x.length < 256 ^ 8 := by
  intro x hx
  rcases List.mem_cons.mp hx with rfl | hx
  · exact h.1
  · rcases List.mem_flatMap.mp hx with ⟨p, hp, hx⟩
    rcases List.mem_pair.mp hx with rfl | rfl
    · exact (h.2 p hp).1
    · exact (h.2 p hp).2

/-- The bytes fed determine the namespace and the parts. -/
lemma KeyBuilder.fed_inj {b c : KeyBuilder} (hb : b.Short) (hc : c.Short) :
    b.fed = c.fed ↔ b.space = c.space ∧ b.parts = c.parts := by
  have hpairs : ∀ (ps qs : List (Name × Name)),
      (ps.flatMap fun p => [utf8 p.1, utf8 p.2]) = (qs.flatMap fun p => [utf8 p.1, utf8 p.2]) → ps = qs := by
    intro ps
    induction ps with
    | nil =>
      intro qs h
      cases qs with
      | nil => rfl
      | cons q qs => cases h
    | cons p ps ih =>
      intro qs h
      cases qs with
      | nil => cases h
      | cons q qs =>
        simp only [List.flatMap_cons, List.cons_append, List.nil_append, List.cons.injEq] at h
        have hfst := utf8_injective h.1
        have hsnd := utf8_injective h.2.1
        rw [ih qs h.2.2, Prod.ext hfst hsnd]
  constructor
  · intro h
    rw [fed_eq hb, fed_eq hc] at h
    injection h with _ h
    have hfields := flatMap_field_inj (by decide) hb.fields hc.fields h
    injection hfields with hspace hparts
    exact ⟨utf8_injective hspace, hpairs _ _ hparts⟩
  · intro h
    rw [fed, fed, h.1, h.2]

lemma Key.chain_ok {space : Name} {parts : List (Name × Name)} {b : KeyBuilder}
    (h : (Key.builder space).chain parts = .ok b) : b.space = space ∧ ∀ p, p ∈ b.parts ↔ p ∈ parts := by
  have hchain := KeyBuilder.chain_ok h List.nodup_nil
  refine ⟨hchain.1, fun p => ?_⟩
  rw [hchain.2.1.mem_iff, Key.builder, List.append_nil]

/-- A chain fails exactly when a name occurs twice in it. -/
theorem Key.chain_error_iff (space : Name) (parts : List (Name × Name)) :
    (∃ name, (Key.builder space).chain parts = .error (.duplicateKeyPart name)) ↔
      ∃ name, List.Duplicate name (parts.map Prod.fst) := by
  rw [List.exists_duplicate_iff_not_nodup]
  constructor
  · rintro ⟨name, h⟩
    simpa [Key.builder] using (KeyBuilder.chain_error h).1
  · intro hdup
    cases h : (Key.builder space).chain parts with
    | ok b =>
      have hchain := KeyBuilder.chain_ok h List.nodup_nil
      rw [Key.builder, List.append_nil] at hchain
      exact absurd hchain.2.2 hdup
    | error e =>
      rcases (KeyBuilder.chain_error h).2 with ⟨name, rfl⟩
      exact ⟨name, rfl⟩

lemma Key.fed_eq_iff {space space' : Name} {parts parts' : List (Name × Name)} {b b' : KeyBuilder}
    (h : (Key.builder space).chain parts = .ok b) (h' : (Key.builder space').chain parts' = .ok b')
    (hshort : ShortFields space parts) (hshort' : ShortFields space' parts') :
    b.fed = b'.fed ↔ space = space' ∧ {p | p ∈ parts} = {p | p ∈ parts'} := by
  have hb := Key.chain_ok h
  have hb' := Key.chain_ok h'
  have hs : b.Short := ⟨hb.1 ▸ hshort.1, fun p hp => hshort.2 p ((hb.2 p).mp hp)⟩
  have hs' : b'.Short := ⟨hb'.1 ▸ hshort'.1, fun p hp => hshort'.2 p ((hb'.2 p).mp hp)⟩
  rw [KeyBuilder.fed_inj hs hs', hb.1, hb'.1]
  apply and_congr_right
  intro _
  constructor
  · intro hparts
    ext p
    change p ∈ parts ↔ p ∈ parts'
    rw [← hb.2 p, ← hb'.2 p, hparts]
  · intro hparts
    apply b.sorted.ext b'.sorted
    intro p
    rw [hb.2 p, hb'.2 p]
    exact Set.ext_iff.mp hparts p

lemma KeyBuilder.build_eq_iff {hash : Hash} {b b' : KeyBuilder}
    (hcollision : hash.finalize b.fed = hash.finalize b'.fed → b.fed = b'.fed) :
    b.build hash = b'.build hash ↔ b.space = b'.space ∧ b.fed = b'.fed := by
  constructor
  · intro h
    have hdigest : hex (hash.finalize b.fed) = hex (hash.finalize b'.fed) := congrArg Key.digest h
    exact ⟨congrArg Key.space h, hcollision (hex_injective hdigest)⟩
  · intro h
    simp only [KeyBuilder.build, h.1, h.2]

/-- Keys identify their parts, in the bytes hashed, as values and as file names. -/
theorem key_identifies_parts (hash : Hash) (space space' : Name) (parts parts' : List (Name × Name)) :
    ((∃ name, (Key.builder space).chain parts = .error (.duplicateKeyPart name)) ↔
      ∃ name, List.Duplicate name (parts.map Prod.fst)) ∧
    (∀ b b', (Key.builder space).chain parts = .ok b → (Key.builder space').chain parts' = .ok b' →
      ShortFields space parts → ShortFields space' parts' →
      (b.fed = b'.fed ↔ space = space' ∧ {p | p ∈ parts} = {p | p ∈ parts'}) ∧
      ((hash.finalize b.fed = hash.finalize b'.fed → b.fed = b'.fed) →
        (b.build hash = b'.build hash ↔ space = space' ∧ {p | p ∈ parts} = {p | p ∈ parts'}))) ∧
    ∀ b, (Key.builder space).chain parts = .ok b →
      (b.build hash).digest.length = 64 ∧ (∀ c ∈ (b.build hash).digest, isLowerHexDigit c = true) ∧
      entryDigest (entryPath (b.build hash).digest) = some (b.build hash).digest ∧
      ∀ path, TemporaryOf (b.build hash).digest path →
        temporaryDigest path = some (b.build hash).digest := by
  refine ⟨Key.chain_error_iff space parts, fun b b' h h' hshort hshort' => ?_, fun b _ => ?_⟩
  · have hfed := Key.fed_eq_iff h h' hshort hshort'
    refine ⟨hfed, fun hcollision => ?_⟩
    rw [KeyBuilder.build_eq_iff hcollision, hfed, (Key.chain_ok h).1, (Key.chain_ok h').1]
    exact ⟨fun hkeys => hkeys.2, fun hkeys => ⟨hkeys.1, hkeys⟩⟩
  · have hwf := (b.build hash).wf
    exact ⟨(isDigest_iff.mp hwf).1, fun c hc => isLowerHexDigit_of_mem_hex hc, entryDigest_entryPath hwf,
      fun path hpath => hpath.temporaryDigest hwf⟩

end Unixd.Cache
