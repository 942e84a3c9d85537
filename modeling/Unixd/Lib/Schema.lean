import Mathlib.Data.List.Forall2
import Mathlib.Data.List.Nodup
import Mathlib.Data.List.Perm.Basic
import Unixd.Lib.Value

/-!
# Typed data

A data model with its types: how a value is written as JSON, and how a decoder that knows the type
reads it from a `Value`. Decoders differ in what they can be asked for: keys of maps that are
numbers, and integers of 128 bits.
-/

namespace Unixd.Lib

inductive IntType where
  | i8 | i16 | i32 | i64 | i128
  | u8 | u16 | u32 | u64 | u128
  deriving DecidableEq

def IntType.Holds : IntType → ℤ → Prop
  | .i8, n => -2 ^ 7 ≤ n ∧ n < 2 ^ 7
  | .i16, n => -2 ^ 15 ≤ n ∧ n < 2 ^ 15
  | .i32, n => -2 ^ 31 ≤ n ∧ n < 2 ^ 31
  | .i64, n => -2 ^ 63 ≤ n ∧ n < 2 ^ 63
  | .i128, n => -2 ^ 127 ≤ n ∧ n < 2 ^ 127
  | .u8, n => 0 ≤ n ∧ n < 2 ^ 8
  | .u16, n => 0 ≤ n ∧ n < 2 ^ 16
  | .u32, n => 0 ≤ n ∧ n < 2 ^ 32
  | .u64, n => 0 ≤ n ∧ n < 2 ^ 64
  | .u128, n => 0 ≤ n ∧ n < 2 ^ 128

instance (t : IntType) (n : ℤ) : Decidable (t.Holds n) := by
  cases t <;> exact inferInstanceAs (Decidable (_ ∧ _))

def IntType.wide (t : IntType) : Bool :=
  t = .i128 ∨ t = .u128

inductive KeyType where
  | str
  | int (t : IntType)

inductive Schema where
  | bool
  | str
  | int (t : IntType)
  | seq (item : Schema)
  | opt (item : Schema)
  | struct (fields : List (List Char × Schema))
  | map (key : KeyType) (item : Schema)

/-- A key of a map. -/
inductive MapKey where
  | str (text : List Char)
  | int (n : ℤ)
  deriving DecidableEq

inductive Data where
  | bool (b : Bool)
  | str (text : List Char)
  | int (n : ℤ)
  | seq (items : List Data)
  | none
  | some (item : Data)
  | struct (fields : List (List Char × Data))
  | map (entries : List (MapKey × Data))

def MapKey.text : MapKey → List Char
  | .str text => text
  | .int n => Json.intLiteral n

/-- Texts by their bytes, numbers by their value. -/
def MapKey.lt : MapKey → MapKey → Prop
  | .str s, .str t => utf8Lt s t
  | .str _, .int _ => True
  | .int _, .str _ => False
  | .int n, .int m => n < m

instance : DecidableRel MapKey.lt
  | .str s, .str t => inferInstanceAs (Decidable (utf8Lt s t))
  | .str _, .int _ => inferInstanceAs (Decidable True)
  | .int _, .str _ => inferInstanceAs (Decidable False)
  | .int n, .int m => inferInstanceAs (Decidable (n < m))

instance : IsStrictTotalOrder MapKey MapKey.lt where
  irrefl := by
    rintro (s | n) h
    · exact irrefl_of utf8Lt s h
    · exact absurd h (Int.lt_irrefl n)
  trans := by
    rintro (s | n) (t | m) (u | k) h h'
    · exact trans_of utf8Lt h h'
    · exact trivial
    · exact absurd h' id
    · exact trivial
    · exact absurd h id
    · exact absurd h id
    · exact absurd h' id
    · exact Int.lt_trans h h'
  trichotomous := by
    rintro (s | n) (t | m) h h'
    · exact congrArg MapKey.str (((trichotomous_of utf8Lt s t).resolve_left h).resolve_right h')
    · exact absurd trivial h
    · exact absurd trivial h'
    · exact congrArg MapKey.int (Int.le_antisymm (Int.not_lt.mp h') (Int.not_lt.mp h))

/-- What a decoder can be asked for. -/
structure Decoder where
  /-- A number where the key of a map is expected. -/
  numberKeys : Bool
  /-- A number of 128 bits. -/
  wideInts : Bool

def KeyType.read (decoder : Decoder) (text : List Char) : KeyType → Option MapKey
  | .str => some (.str text)
  | .int t =>
    if decoder.numberKeys then do
      let n ← Json.readInt text
      if t.Holds n then some (.int n) else none
    else none

namespace Data

mutual
def encode : Data → Json
  | .bool b => .bool b
  | .str text => .str text
  | .int n => .num (Json.intLiteral n)
  | .seq items => .arr (encodeItems items)
  | .none => .null
  | .some item => encode item
  | .struct fields => .obj (encodeFields fields)
  | .map entries => .obj (encodeEntries entries)

def encodeItems : List Data → List Json
  | [] => []
  | x :: xs => encode x :: encodeItems xs

def encodeFields : List (List Char × Data) → List (List Char × Json)
  | [] => []
  | (name, x) :: fs => (name, encode x) :: encodeFields fs

def encodeEntries : List (MapKey × Data) → List (List Char × Json)
  | [] => []
  | (key, x) :: es => (key.text, encode x) :: encodeEntries es
end

end Data

def KeyType.Of : KeyType → MapKey → Prop
  | .str, .str _ => True
  | .int t, .int n => t.Holds n
  | _, _ => False

namespace Schema

mutual
/-- The values of a type. -/
def Of : Schema → Data → Prop
  | .bool, .bool _ => True
  | .str, .str _ => True
  | .int t, .int n => t.Holds n
  | .seq item, .seq items => ∀ x ∈ items, Of item x
  | .opt _, .none => True
  | .opt item, .some x => Of item x
  | .struct fields, .struct members => (fields.map Prod.fst).Nodup ∧ OfFields fields members
  | .map key item, .map entries =>
    SortedMap.Sorted MapKey.lt entries ∧ ∀ e ∈ entries, key.Of e.1 ∧ Of item e.2
  | _, _ => False

def OfFields : List (List Char × Schema) → List (List Char × Data) → Prop
  | [], [] => True
  | (name, s) :: fields, (name', x) :: members => name' = name ∧ Of s x ∧ OfFields fields members
  | _, _ => False
end

/-- A missing field is `None` for an option and an error otherwise. -/
def missing : Schema → Option Data
  | .opt _ => some .none
  | _ => none

mutual
def decode (decoder : Decoder) : Schema → Value → Option Data
  | .bool, .bool b => some (.bool b)
  | .str, .str text => some (.str text)
  | .int t, .num (.int n) =>
    if t.Holds n ∧ (t.wide = true → decoder.wideInts = true) then some (.int n) else none
  | .seq item, .arr items => (items.mapM (decode decoder item)).map .seq
  | .opt _, .null => some .none
  | .opt item, value => (decode decoder item value).map .some
  | .struct fields, .obj members => (decodeFields decoder fields members).map .struct
  | .map key item, .obj members => do
    let entries ← members.mapM fun m => do
      return (← key.read decoder m.1, ← decode decoder item m.2)
    return .map (SortedMap.ofList MapKey.lt entries)
  | _, _ => none

def decodeFields (decoder : Decoder) :
    List (List Char × Schema) → List (List Char × Value) → Option (List (List Char × Data))
  | [], _ => some []
  | (name, s) :: fields, members => do
    let x ← match members.filter (·.1 = name) with
      | [] => missing s
      | [m] => decode decoder s m.2
      | _ => none
    return (name, x) :: (← decodeFields decoder fields members)
end

end Schema

lemma mapM_eq_some_iff {X Y : Type} {f : X → Option Y} {xs : List X} {ys : List Y} :
    xs.mapM f = some ys ↔ List.Forall₂ (fun x y => f x = some y) xs ys := by
  induction xs generalizing ys with
  | nil => simp [eq_comm]
  | cons x xs ih =>
    rw [List.mapM_cons]
    constructor
    · intro h
      obtain ⟨y, hy, hrest⟩ := Option.bind_eq_some_iff.mp h
      obtain ⟨ys', hys, heq⟩ := Option.bind_eq_some_iff.mp hrest
      obtain rfl : y :: ys' = ys := Option.some_inj.mp heq
      exact List.Forall₂.cons hy (ih.mp hys)
    · intro h
      cases h with
      | cons hy hys =>
        rw [hy, ih.mpr hys]
        rfl

lemma exists_of_forall₂ {X Y : Type} {R : X → Y → Prop} {xs : List X} {ys : List Y} (h : List.Forall₂ R xs ys)
    {x : X} (hx : x ∈ xs) : ∃ y, R x y := by
  induction h with
  | nil => cases hx
  | cons hR _ ih =>
    rcases List.mem_cons.mp hx with rfl | hx
    · exact ⟨_, hR⟩
    · exact ih hx

lemma forall₂_mem {X Y : Type} {R : X → Y → Prop} {xs : List X} {ys : List Y} (h : List.Forall₂ R xs ys) :
    List.Forall₂ (fun x y => x ∈ xs ∧ R x y) xs ys := by
  induction h with
  | nil => exact .nil
  | cons hR _ ih =>
    exact .cons ⟨List.mem_cons_self, hR⟩ (ih.imp fun _ _ h => ⟨List.mem_cons_of_mem _ h.1, h.2⟩)

namespace Value

lemma ofItems_eq (keep : ℤ → Prop) [DecidablePred keep] (xs : List Json) :
    ofItems keep xs = xs.map (ofJson keep) := by
  induction xs with
  | nil => rfl
  | cons x xs ih => rw [ofItems, ih, List.map_cons]

lemma ofMembers_eq (keep : ℤ → Prop) [DecidablePred keep] (ms : List (List Char × Json)) :
    ofMembers keep ms = ms.map fun m => (m.1, ofJson keep m.2) := by
  induction ms with
  | nil => rfl
  | cons m ms ih => rw [ofMembers, ih, List.map_cons]

end Value

namespace Data

/-- Induction over data, through its lists. -/
theorem induct {motive : Data → Prop} (bool : ∀ b, motive (.bool b)) (str : ∀ text, motive (.str text))
    (int : ∀ n, motive (.int n)) (seq : ∀ items, (∀ x ∈ items, motive x) → motive (.seq items))
    (none : motive .none) (some : ∀ x, motive x → motive (.some x))
    (struct : ∀ fields : List (List Char × Data), (∀ f ∈ fields, motive f.2) → motive (.struct fields))
    (map : ∀ entries : List (MapKey × Data), (∀ e ∈ entries, motive e.2) → motive (.map entries)) :
    ∀ d, motive d
  | .bool b => bool b
  | .str text => str text
  | .int n => int n
  | .seq items => seq items fun x _ => induct bool str int seq none some struct map x
  | .none => none
  | .some x => some x (induct bool str int seq none some struct map x)
  | .struct fields => struct fields fun f _ => induct bool str int seq none some struct map f.2
  | .map entries => map entries fun e _ => induct bool str int seq none some struct map e.2
termination_by d => sizeOf d
decreasing_by
  all_goals simp_wf
  · have := List.sizeOf_lt_of_mem ‹x ∈ items›
    omega
  · obtain ⟨name, x⟩ := f
    have := List.sizeOf_lt_of_mem ‹_ ∈ fields›
    simp only [Prod.mk.sizeOf_spec] at this ⊢
    omega
  · obtain ⟨key, x⟩ := e
    have := List.sizeOf_lt_of_mem ‹_ ∈ entries›
    simp only [Prod.mk.sizeOf_spec] at this ⊢
    omega

lemma encodeItems_eq (xs : List Data) : encodeItems xs = xs.map encode := by
  induction xs with
  | nil => rfl
  | cons x xs ih => rw [encodeItems, ih, List.map_cons]

lemma encodeFields_eq (fs : List (List Char × Data)) : encodeFields fs = fs.map fun f => (f.1, encode f.2) := by
  induction fs with
  | nil => rfl
  | cons f fs ih => rw [encodeFields, ih, List.map_cons]

lemma encodeEntries_eq (es : List (MapKey × Data)) :
    encodeEntries es = es.map fun e => (e.1.text, encode e.2) := by
  induction es with
  | nil => rfl
  | cons e es ih => rw [encodeEntries, ih, List.map_cons]

/-- A value as a decoder without a type gets it. -/
def content (keep : ℤ → Prop) [DecidablePred keep] (d : Data) : Value :=
  Value.ofJson keep d.encode

variable (keep : ℤ → Prop) [DecidablePred keep]

lemma content_seq (items : List Data) : content keep (.seq items) = .arr (items.map (content keep)) := by
  rw [content, encode, Value.ofJson, Value.ofItems_eq, encodeItems_eq, List.map_map]
  rfl

lemma content_struct (fields : List (List Char × Data)) :
    content keep (.struct fields) = .obj (fields.map fun f => (f.1, content keep f.2)) := by
  rw [content, encode, Value.ofJson, Value.ofMembers_eq, encodeFields_eq, List.map_map]
  rfl

lemma content_map (entries : List (MapKey × Data)) :
    content keep (.map entries) = .obj (entries.map fun e => (e.1.text, content keep e.2)) := by
  rw [content, encode, Value.ofJson, Value.ofMembers_eq, encodeEntries_eq, List.map_map]
  rfl

lemma content_int {n : ℤ} : content keep (.int n) =
    .num (if keep n then .int n else .float (Json.intLiteral n)) := by
  rw [content, encode, Value.ofJson, Number.ofLiteral, Json.readInt_intLiteral]

/-- Only a null is written as a null. -/
lemma content_eq_null {d : Data} : content keep d = .null ↔ d.encode = .null := by
  rw [content]
  cases d.encode <;> simp [Value.ofJson]

end Data

/-- The keys of a type can be read by the decoder. -/
def KeyType.Read (decoder : Decoder) : KeyType → Prop
  | .str => True
  | .int _ => decoder.numberKeys = true

lemma KeyType.read_text {decoder : Decoder} {key : KeyType} {k : MapKey} (h : key.Of k) {k' : MapKey} :
    key.read decoder k.text = some k' ↔ key.Read decoder ∧ k' = k := by
  cases key with
  | str =>
    cases k with
    | str text => simp [KeyType.read, KeyType.Read, MapKey.text, eq_comm]
    | int n => exact absurd h id
  | int t =>
    cases k with
    | str text => exact absurd h id
    | int n =>
      have hn : t.Holds n := h
      simp only [KeyType.read, KeyType.Read, MapKey.text, Json.readInt_intLiteral]
      by_cases hkeys : decoder.numberKeys = true
      · simp [hkeys, hn, eq_comm]
      · simp [hkeys]

namespace Schema

mutual
/-- Something holds of all integers, of the types of all keys and of all present options of a value. -/
def Every (P : IntType → ℤ → Prop) (K : KeyType → Prop) (N : Data → Prop) : Schema → Data → Prop
  | .int t, .int n => P t n
  | .seq item, .seq items => ∀ x ∈ items, Every P K N item x
  | .opt item, .some x => N x ∧ Every P K N item x
  | .struct fields, .struct members => EveryField P K N fields members
  | .map key item, .map entries => ∀ e ∈ entries, K key ∧ Every P K N item e.2
  | _, _ => True

def EveryField (P : IntType → ℤ → Prop) (K : KeyType → Prop) (N : Data → Prop) :
    List (List Char × Schema) → List (List Char × Data) → Prop
  | (_, s) :: fields, (_, x) :: members => Every P K N s x ∧ EveryField P K N fields members
  | _, _ => True
end

/-- What survives a decoder that keeps only some integers. -/
abbrev Carried (keep : ℤ → Prop) (decoder : Decoder) : Schema → Data → Prop :=
  Every (fun t n => keep n ∧ (t.wide = true → decoder.wideInts = true)) (KeyType.Read decoder) fun _ => True

abbrev CarriedField (keep : ℤ → Prop) (decoder : Decoder) :=
  EveryField (fun t n => keep n ∧ (t.wide = true → decoder.wideInts = true)) (KeyType.Read decoder) fun _ => True

/-- No present option is written as a null. -/
abbrev Clear : Schema → Data → Prop :=
  Every (fun _ _ => True) (fun _ => True) fun x => x.encode ≠ .null

abbrev ClearField :=
  EveryField (fun _ _ => True) (fun _ => True) fun x => x.encode ≠ .null

variable {keep : ℤ → Prop} [DecidablePred keep] {decoder : Decoder}

lemma filter_content {whole : List (List Char × Data)} (hnodup : (whole.map Prod.fst).Nodup)
    {m : List Char × Data} (hm : m ∈ whole) :
    (whole.map fun f => (f.1, f.2.content keep)).filter (·.1 = m.1) = [(m.1, m.2.content keep)] := by
  induction whole with
  | nil => cases hm
  | cons f whole ih =>
    rw [List.map_cons, List.nodup_cons] at hnodup
    rw [List.map_cons]
    rcases List.mem_cons.mp hm with rfl | hm
    · have hnone : (whole.map fun f => (f.1, f.2.content keep)).filter (·.1 = m.1) = [] := by
        apply List.filter_eq_nil_iff.mpr
        intro q hq
        obtain ⟨g, hg, rfl⟩ := List.mem_map.mp hq
        simp only [decide_eq_true_eq]
        intro heq
        exact hnodup.1 (List.mem_map.mpr ⟨g, hg, heq⟩)
      rw [List.filter_cons_of_pos (by simp), hnone]
    · have hne : f.1 ≠ m.1 := by
        intro heq
        exact hnodup.1 (List.mem_map.mpr ⟨m, hm, heq.symm⟩)
      rw [List.filter_cons_of_neg (by simpa using hne), ih hnodup.2 hm]

lemma names_eq {fields : List (List Char × Schema)} {members : List (List Char × Data)}
    (h : OfFields fields members) : members.map Prod.fst = fields.map Prod.fst := by
  induction fields generalizing members with
  | nil =>
    cases members with
    | nil => rfl
    | cons m members => exact absurd h id
  | cons f fields ih =>
    cases members with
    | nil => exact absurd h id
    | cons m members =>
      obtain ⟨name, s⟩ := f
      obtain ⟨name', x⟩ := m
      rw [OfFields] at h
      rw [List.map_cons, List.map_cons, ih h.2.2, h.1]

lemma names_nodup {fields : List (List Char × Schema)} {members : List (List Char × Data)}
    (h : (fields.map Prod.fst).Nodup) (hof : OfFields fields members) : (members.map Prod.fst).Nodup := by
  rwa [names_eq hof]

/-- The fields of a struct, each looked up in all of its members. -/
lemma decodeFields_content {whole : List (List Char × Data)} (hnodup : (whole.map Prod.fst).Nodup)
    {fields : List (List Char × Schema)} {members : List (List Char × Data)} (hof : OfFields fields members)
    (hmem : ∀ m ∈ members, m ∈ whole)
    (h : ∀ m ∈ members, ∀ s, Of s m.2 → Carried keep decoder s m.2 → Clear s m.2 →
      decode decoder s (m.2.content keep) = some m.2)
    (hcarried : CarriedField keep decoder fields members) (hclear : ClearField fields members) :
    decodeFields decoder fields (whole.map fun f => (f.1, f.2.content keep)) = some members := by
  induction fields generalizing members with
  | nil =>
    cases members with
    | nil => rfl
    | cons m members => exact absurd hof id
  | cons f fields ih =>
    cases members with
    | nil => exact absurd hof id
    | cons m members =>
      obtain ⟨name, s⟩ := f
      obtain ⟨name', x⟩ := m
      rw [OfFields] at hof
      obtain ⟨rfl, hs, hrest⟩ := hof
      have hx := h (name', x) List.mem_cons_self s hs hcarried.1 hclear.1
      have hfields := ih hrest (fun m hm => hmem m (List.mem_cons_of_mem _ hm))
        (fun m hm => h m (List.mem_cons_of_mem _ hm)) hcarried.2 hclear.2
      rw [decodeFields, filter_content hnodup (hmem (name', x) List.mem_cons_self)]
      simp only [hx, hfields, Option.bind_eq_bind, Option.bind_some]
      rfl

lemma of_decodeFields {whole : List (List Char × Data)} (hnodup : (whole.map Prod.fst).Nodup)
    {fields : List (List Char × Schema)} {members ys : List (List Char × Data)} (hof : OfFields fields members)
    (hmem : ∀ m ∈ members, m ∈ whole)
    (h : ∀ m ∈ members, ∀ s y, Of s m.2 → decode decoder s (m.2.content keep) = some y →
      Carried keep decoder s m.2 ∧ (y = m.2 → Clear s m.2))
    (hys : decodeFields decoder fields (whole.map fun f => (f.1, f.2.content keep)) = some ys) :
    CarriedField keep decoder fields members ∧ (ys = members → ClearField fields members) := by
  induction fields generalizing members ys with
  | nil =>
    cases members with
    | nil => exact ⟨trivial, fun _ => trivial⟩
    | cons m members => exact absurd hof id
  | cons f fields ih =>
    cases members with
    | nil => exact absurd hof id
    | cons m members =>
      obtain ⟨name, s⟩ := f
      obtain ⟨name', x⟩ := m
      rw [OfFields] at hof
      obtain ⟨rfl, hs, hrest⟩ := hof
      rw [decodeFields, filter_content hnodup (hmem (name', x) List.mem_cons_self)] at hys
      obtain ⟨y, hy, hys⟩ := Option.bind_eq_some_iff.mp hys
      obtain ⟨ys', hys', heq⟩ := Option.bind_eq_some_iff.mp hys
      have hx := h (name', x) List.mem_cons_self s y hs hy
      have hfields := ih hrest (fun m hm => hmem m (List.mem_cons_of_mem _ hm))
        (fun m hm => h m (List.mem_cons_of_mem _ hm)) hys'
      refine ⟨⟨hx.1, hfields.1⟩, fun hsame => ?_⟩
      rw [hsame] at heq
      injection heq with heq
      injection heq with hhead htail
      injection hhead with _ hhead
      exact ⟨hx.2 hhead, hfields.2 htail⟩

/-- One entry of a map. -/
def decodeEntry (decoder : Decoder) (key : KeyType) (item : Schema) (m : List Char × Value) :
    Option (MapKey × Data) := do
  return (← key.read decoder m.1, ← decode decoder item m.2)

lemma decode_map {key : KeyType} {item : Schema} {members : List (List Char × Value)} :
    decode decoder (.map key item) (.obj members) =
      (members.mapM (decodeEntry decoder key item)).map fun entries => .map (SortedMap.ofList MapKey.lt entries) := by
  rw [decode]
  change (members.mapM (decodeEntry decoder key item)).bind _ = _
  cases members.mapM (decodeEntry decoder key item) <;> rfl

/-- What a map's entries decode to, key by key. -/
lemma decodeEntries_content {key : KeyType} {item : Schema} {entries ys : List (MapKey × Data)}
    (hof : Of (.map key item) (.map entries))
    (hys : (entries.map fun e => (e.1.text, e.2.content keep)).mapM (decodeEntry decoder key item) = some ys) :
    List.Forall₂ (fun (e e' : MapKey × Data) => (key.Read decoder ∧ e'.1 = e.1) ∧
      decode decoder item (e.2.content keep) = some e'.2) entries ys ∧ SortedMap.Sorted MapKey.lt ys := by
  rw [mapM_eq_some_iff, List.forall₂_map_left_iff] at hys
  have hread : List.Forall₂ (fun (e e' : MapKey × Data) => (key.Read decoder ∧ e'.1 = e.1) ∧
      decode decoder item (e.2.content keep) = some e'.2) entries ys := by
    apply (forall₂_mem hys).imp
    intro e e' he
    obtain ⟨k, hk, hrest⟩ := Option.bind_eq_some_iff.mp he.2
    obtain ⟨x, hx, heq⟩ := Option.bind_eq_some_iff.mp hrest
    obtain rfl : (k, x) = e' := Option.some_inj.mp heq
    exact ⟨(KeyType.read_text (hof.2 e he.1).1).mp hk, hx⟩
  have hkeys : ys.map Prod.fst = entries.map Prod.fst := by
    rw [← List.forall₂_eq_eq_eq, List.forall₂_map_left_iff, List.forall₂_map_right_iff]
    exact (hread.imp fun e e' he => he.1.2).flip
  have hsorted : (ys.map Prod.fst).Pairwise MapKey.lt := by
    rw [hkeys, List.pairwise_map]
    exact hof.1
  rw [List.pairwise_map] at hsorted
  exact ⟨hread, hsorted⟩

lemma decode_opt {item : Schema} {v : Value} (h : v ≠ .null) :
    decode decoder (.opt item) v = (decode decoder item v).map .some := by
  cases v <;> first | exact absurd rfl h | rfl

lemma content_ne_null {d : Data} (h : d.encode ≠ .null) : d.content keep ≠ .null :=
  fun heq => h ((Data.content_eq_null keep).mp heq)

/-- A value that survives is decoded. -/
theorem decode_content (d : Data) : ∀ s, Of s d → Carried keep decoder s d → Clear s d →
    decode decoder s (d.content keep) = some d := by
  induction d using Data.induct with
  | bool b =>
    intro s hof _ _
    cases s with
    | bool => rfl
    | _ => exact absurd hof id
  | str text =>
    intro s hof _ _
    cases s with
    | str => rfl
    | _ => exact absurd hof id
  | int n =>
    intro s hof hcarried _
    cases s with
    | int t =>
      rw [Data.content_int, if_pos hcarried.1]
      exact if_pos ⟨hof, hcarried.2⟩
    | _ => exact absurd hof id
  | seq items ih =>
    intro s hof hcarried hclear
    cases s with
    | seq item =>
      have hitems : (items.map (Data.content keep)).mapM (decode decoder item) = some items := by
        rw [mapM_eq_some_iff, List.forall₂_map_left_iff, List.forall₂_same]
        intro x hx
        exact ih x hx item (hof x hx) (hcarried x hx) (hclear x hx)
      rw [Data.content_seq, decode, hitems]
      rfl
    | _ => exact absurd hof id
  | none =>
    intro s hof _ _
    cases s with
    | opt item => rfl
    | _ => exact absurd hof id
  | some x ih =>
    intro s hof hcarried hclear
    cases s with
    | opt item =>
      change decode decoder (.opt item) (x.content keep) = _
      rw [decode_opt (content_ne_null hclear.1), ih item hof hcarried.2 hclear.2]
      rfl
    | _ => exact absurd hof id
  | struct members ih =>
    intro s hof hcarried hclear
    cases s with
    | struct fields =>
      rw [Of] at hof
      have hnodup : (members.map Prod.fst).Nodup := names_nodup hof.1 hof.2
      rw [Data.content_struct, decode,
        decodeFields_content hnodup hof.2 (fun m hm => hm) ih hcarried hclear]
      rfl
    | _ => exact absurd hof id
  | map entries ih =>
    intro s hof hcarried hclear
    cases s with
    | map key item =>
      have hentries : (entries.map fun e => (e.1.text, e.2.content keep)).mapM (decodeEntry decoder key item) =
          some entries := by
        rw [mapM_eq_some_iff, List.forall₂_map_left_iff, List.forall₂_same]
        intro e he
        have hkey := (KeyType.read_text (hof.2 e he).1).mpr ⟨(hcarried e he).1, rfl⟩
        have hx := ih e he item (hof.2 e he).2 (hcarried e he).2 (hclear e he).2
        simp only [decodeEntry, hkey, hx, Option.bind_eq_bind, Option.bind_some]
        rfl
      rw [Data.content_map, decode_map, hentries, Option.map_some,
        SortedMap.ofList_eq hof.1 (List.Perm.refl _)]
    | _ => exact absurd hof id

omit [DecidablePred keep] in
lemma carried_of_null (d : Data) : ∀ s, Of s d → d.encode = .null → Carried keep decoder s d := by
  induction d using Data.induct with
  | some x ih =>
    intro s hof hnull
    cases s with
    | opt item => exact ⟨trivial, ih item hof hnull⟩
    | _ => exact absurd hof id
  | none =>
    intro s hof _
    cases s with
    | opt item => exact trivial
    | _ => exact absurd hof id
  | _ =>
    intro s _ hnull
    cases hnull

/-- A value that is decoded at all survives, and comes back only without a null for a present option. -/
theorem of_decode_content (d : Data) : ∀ s y, Of s d → decode decoder s (d.content keep) = some y →
    Carried keep decoder s d ∧ (y = d → Clear s d) := by
  induction d using Data.induct with
  | bool b =>
    intro s y hof _
    cases s with
    | bool => exact ⟨trivial, fun _ => trivial⟩
    | _ => exact absurd hof id
  | str text =>
    intro s y hof _
    cases s with
    | str => exact ⟨trivial, fun _ => trivial⟩
    | _ => exact absurd hof id
  | int n =>
    intro s y hof h
    cases s with
    | int t =>
      rw [Data.content_int] at h
      by_cases hkeep : keep n
      · rw [if_pos hkeep, decode] at h
        split_ifs at h with hread
        exact ⟨⟨hkeep, hread.2⟩, fun _ => trivial⟩
      · rw [if_neg hkeep] at h
        cases h
    | _ => exact absurd hof id
  | seq items ih =>
    intro s y hof h
    cases s with
    | seq item =>
      rw [Data.content_seq, decode] at h
      obtain ⟨ys, hys, rfl⟩ := Option.map_eq_some_iff.mp h
      rw [mapM_eq_some_iff, List.forall₂_map_left_iff] at hys
      constructor
      · intro x hx
        obtain ⟨y, hy⟩ := exists_of_forall₂ hys hx
        exact (ih x hx item y (hof x hx) hy).1
      · intro hsame
        injection hsame with hsame
        rw [hsame, List.forall₂_same] at hys
        intro x hx
        exact (ih x hx item x (hof x hx) (hys x hx)).2 rfl
    | _ => exact absurd hof id
  | none =>
    intro s y hof _
    cases s with
    | opt item => exact ⟨trivial, fun _ => trivial⟩
    | _ => exact absurd hof id
  | some x ih =>
    intro s y hof h
    cases s with
    | opt item =>
      change decode decoder (.opt item) (x.content keep) = _ at h
      by_cases hnull : x.content keep = .null
      · rw [hnull, decode, Option.some_inj] at h
        refine ⟨⟨trivial, carried_of_null x item hof ((Data.content_eq_null keep).mp hnull)⟩, fun hsame => ?_⟩
        rw [← h] at hsame
        cases hsame
      · rw [decode_opt hnull] at h
        obtain ⟨z, hz, rfl⟩ := Option.map_eq_some_iff.mp h
        have hx := ih item z hof hz
        refine ⟨⟨trivial, hx.1⟩, fun hsame => ⟨fun henc => hnull ((Data.content_eq_null keep).mpr henc), ?_⟩⟩
        injection hsame with hsame
        exact hx.2 hsame
    | _ => exact absurd hof id
  | struct members ih =>
    intro s y hof h
    cases s with
    | struct fields =>
      rw [Of] at hof
      rw [Data.content_struct, decode] at h
      obtain ⟨ys, hys, rfl⟩ := Option.map_eq_some_iff.mp h
      have hfields := of_decodeFields (names_nodup hof.1 hof.2) hof.2 (fun m hm => hm) ih hys
      refine ⟨hfields.1, fun hsame => ?_⟩
      injection hsame with hsame
      exact hfields.2 hsame
    | _ => exact absurd hof id
  | map entries ih =>
    intro s y hof h
    cases s with
    | map key item =>
      rw [Data.content_map, decode_map] at h
      obtain ⟨ys, hys, rfl⟩ := Option.map_eq_some_iff.mp h
      have hread := decodeEntries_content hof hys
      constructor
      · intro e he
        obtain ⟨e', he'⟩ := exists_of_forall₂ hread.1 he
        exact ⟨he'.1.1, (ih e he item e'.2 (hof.2 e he).2 he'.2).1⟩
      · intro hsame
        rw [SortedMap.ofList_eq hread.2 (List.Perm.refl _)] at hsame
        injection hsame with hsame
        rw [hsame, List.forall₂_same] at hread
        intro e he
        exact ⟨trivial, (ih e he item e.2 (hof.2 e he).2 (hread.1 e he).2).2 rfl⟩
    | _ => exact absurd hof id

lemma mapM_congr {X Y : Type} {f g : X → Option Y} {xs : List X} (h : ∀ x ∈ xs, f x = g x) :
    xs.mapM f = xs.mapM g := by
  induction xs with
  | nil => rfl
  | cons x xs ih =>
    rw [List.mapM_cons, List.mapM_cons, h x List.mem_cons_self, ih fun y hy => h y (List.mem_cons_of_mem x hy)]

lemma mapM_perm {X Y : Type} {f : X → Option Y} {xs xs' : List X} (h : xs'.Perm xs) {ys : List Y}
    (hys : xs.mapM f = some ys) : ∃ ys', xs'.mapM f = some ys' ∧ ys'.Perm ys := by
  rw [mapM_eq_some_iff] at hys
  obtain ⟨ys', hys', hperm⟩ := List.perm_comp_forall₂ h hys
  exact ⟨ys', mapM_eq_some_iff.mpr hys', hperm⟩

lemma text_inj {key : KeyType} {k k' : MapKey} (h : key.Of k) (h' : key.Of k') (heq : k.text = k'.text) : k = k' := by
  cases key with
  | str =>
    cases k <;> cases k' <;> first | exact absurd h id | exact absurd h' id | exact congrArg MapKey.str heq
  | int t =>
    cases k <;> cases k' <;> try first | exact absurd h id | exact absurd h' id
    have hread := congrArg Json.readInt heq
    simp only [MapKey.text, Json.readInt_intLiteral, Option.some_inj] at hread
    exact congrArg MapKey.int hread

lemma sortItems_eq_map (xs : List Value) : Value.sortItems xs = xs.map Value.sort := by
  induction xs with
  | nil => rfl
  | cons x xs ih => rw [Value.sortItems, ih, List.map_cons]

lemma sortMembers_eq_map (ms : List (List Char × Value)) :
    Value.sortMembers ms = ms.map fun m => (m.1, m.2.sort) := by
  induction ms with
  | nil => rfl
  | cons m ms ih => rw [Value.sortMembers, ih, List.map_cons]

lemma sort_seq (items : List Data) :
    (Data.content keep (.seq items)).sort = .arr (items.map fun x => (x.content keep).sort) := by
  rw [Data.content_seq, Value.sort, sortItems_eq_map, List.map_map]
  rfl

lemma sort_struct (members : List (List Char × Data)) : (Data.content keep (.struct members)).sort =
    .obj (SortedMap.ofList utf8Lt (members.map fun f => (f.1, (f.2.content keep).sort))) := by
  rw [Data.content_struct, Value.sort, sortMembers_eq_map, List.map_map]
  rfl

lemma sort_map (entries : List (MapKey × Data)) : (Data.content keep (.map entries)).sort =
    .obj (SortedMap.ofList utf8Lt (entries.map fun e => (e.1.text, (e.2.content keep).sort))) := by
  rw [Data.content_map, Value.sort, sortMembers_eq_map, List.map_map]
  rfl

lemma sort_eq_null {v : Value} (h : v.sort = .null) : v = .null := by
  cases v <;> simp [Value.sort] at h ⊢

/-- The entries of a map are read alike in any order. -/
lemma ofList_mapM_perm {key : KeyType} {item : Schema} {entries : List (MapKey × Data)}
    {members members' : List (List Char × Value)} (hof : Of (.map key item) (.map entries))
    (hperm : members.Perm members')
    (hplain : members'.mapM (decodeEntry decoder key item) =
      (entries.map fun e => (e.1.text, e.2.content keep)).mapM (decodeEntry decoder key item)) :
    (members.mapM (decodeEntry decoder key item)).map (fun es => Data.map (SortedMap.ofList MapKey.lt es)) =
      ((entries.map fun e => (e.1.text, e.2.content keep)).mapM (decodeEntry decoder key item)).map
        fun es => Data.map (SortedMap.ofList MapKey.lt es) := by
  rw [← hplain]
  cases hys : members'.mapM (decodeEntry decoder key item) with
  | none =>
    cases hys' : members.mapM (decodeEntry decoder key item) with
    | none => rfl
    | some ys =>
      obtain ⟨ys', h, -⟩ := mapM_perm hperm.symm hys'
      rw [hys] at h
      cases h
  | some ys =>
    obtain ⟨ys', hys', hperm'⟩ := mapM_perm hperm hys
    have hsorted := (decodeEntries_content hof (hplain.symm.trans hys)).2
    rw [hys', Option.map_some, Option.map_some, SortedMap.ofList_eq hsorted hperm',
      SortedMap.ofList_eq hsorted (List.Perm.refl _)]

/-- A struct finds its fields in any order of the members. -/
lemma decodeFields_sort {whole : List (List Char × Data)} {sorted : List (List Char × Value)}
    (hnodup : (whole.map Prod.fst).Nodup)
    (hperm : sorted.Perm (whole.map fun f => (f.1, (f.2.content keep).sort)))
    {fields : List (List Char × Schema)} {members : List (List Char × Data)} (hof : OfFields fields members)
    (hmem : ∀ m ∈ members, m ∈ whole)
    (h : ∀ m ∈ members, ∀ s, Of s m.2 →
      decode decoder s (m.2.content keep).sort = decode decoder s (m.2.content keep)) :
    decodeFields decoder fields sorted =
      decodeFields decoder fields (whole.map fun f => (f.1, f.2.content keep)) := by
  induction fields generalizing members with
  | nil => rfl
  | cons f fields ih =>
    cases members with
    | nil => exact absurd hof id
    | cons m members =>
      obtain ⟨name, s⟩ := f
      obtain ⟨name', x⟩ := m
      rw [OfFields] at hof
      obtain ⟨rfl, hs, hrest⟩ := hof
      have hfields := ih hrest (fun m hm => hmem m (List.mem_cons_of_mem _ hm))
        fun m hm => h m (List.mem_cons_of_mem _ hm)
      have hx := h (name', x) List.mem_cons_self s hs
      have hplain : (whole.map fun f => (f.1, f.2.content keep)).filter (·.1 = name') = [(name', x.content keep)] :=
        filter_content hnodup (hmem (name', x) List.mem_cons_self)
      have hsorted : sorted.filter (·.1 = name') = [(name', (x.content keep).sort)] := by
        apply List.perm_singleton.mp
        apply (hperm.filter _).trans
        have hmap : (whole.map fun f => (f.1, (f.2.content keep).sort)) =
            (whole.map fun f => (f.1, f.2.content keep)).map fun m => (m.1, m.2.sort) := by
          rw [List.map_map]
          rfl
        have hcomp : ((fun m : List Char × Value => decide (m.1 = name')) ∘
            fun m : List Char × Value => (m.1, m.2.sort)) = fun m => decide (m.1 = name') := rfl
        rw [hmap, List.filter_map, hcomp, hplain]
        exact List.Perm.refl _
      rw [decodeFields, decodeFields, hplain, hsorted]
      simp only [hx, hfields]

/-- Sorting the objects of a value changes nothing for a typed decoder. -/
theorem decode_sort (d : Data) : ∀ s, Of s d →
    decode decoder s (d.content keep).sort = decode decoder s (d.content keep) := by
  induction d using Data.induct with
  | bool b => exact fun _ _ => rfl
  | str text => exact fun _ _ => rfl
  | int n =>
    intro s _
    rw [Data.content_int]
    rfl
  | none => exact fun _ _ => rfl
  | some x ih =>
    intro s hof
    cases s with
    | opt item =>
      change decode decoder (.opt item) (x.content keep).sort = decode decoder (.opt item) (x.content keep)
      by_cases hnull : x.content keep = .null
      · rw [hnull]
        rfl
      · rw [decode_opt hnull, decode_opt fun h => hnull (sort_eq_null h), ih item hof]
    | _ => exact absurd hof id
  | seq items ih =>
    intro s hof
    cases s with
    | seq item =>
      have hitems : items.mapM (fun x => decode decoder item (x.content keep).sort) =
          items.mapM (fun x => decode decoder item (x.content keep)) :=
        mapM_congr fun x hx => ih x hx item (hof x hx)
      rw [sort_seq, Data.content_seq, decode, decode, List.mapM_map, List.mapM_map]
      exact congrArg (Option.map Data.seq) hitems
    | _ => exact absurd hof id
  | struct members ih =>
    intro s hof
    cases s with
    | struct fields =>
      rw [Of] at hof
      have hnodup := names_nodup hof.1 hof.2
      have hnames : ((members.map fun f => (f.1, (f.2.content keep).sort)).map Prod.fst).Nodup := by
        rwa [List.map_map]
      rw [sort_struct, Data.content_struct, decode, decode,
        decodeFields_sort hnodup (SortedMap.ofList_perm hnames) hof.2 (fun m hm => hm) ih]
    | _ => exact absurd hof id
  | map entries ih =>
    intro s hof
    cases s with
    | map key item =>
      have htexts : ((entries.map fun e => (e.1.text, (e.2.content keep).sort)).map Prod.fst).Nodup := by
        rw [List.map_map]
        apply List.Nodup.map_on _ hof.1.nodup
        intro e he e' he' heq
        have hkey : e.1 = e'.1 := text_inj (hof.2 e he).1 (hof.2 e' he').1 heq
        exact List.inj_on_of_nodup_map hof.1.nodup_keys he he' hkey
      have hplain : (entries.map fun e => (e.1.text, (e.2.content keep).sort)).mapM (decodeEntry decoder key item) =
          (entries.map fun e => (e.1.text, e.2.content keep)).mapM (decodeEntry decoder key item) := by
        rw [List.mapM_map, List.mapM_map]
        apply mapM_congr
        intro e he
        have hx := ih e he item (hof.2 e he).2
        simp only [Function.comp_apply, decodeEntry, hx]
      rw [sort_map, Data.content_map, decode_map, decode_map]
      exact ofList_mapM_perm hof (SortedMap.ofList_perm htexts) hplain
    | _ => exact absurd hof id

/-- Which values a decoder through an untyped one gives back. -/
theorem decode_iff {s : Schema} {d : Data} (hof : Of s d) (hclear : Clear s d) :
    decode decoder s (d.content keep) = some d ↔ Carried keep decoder s d :=
  ⟨fun h => (of_decode_content d s d hof h).1, fun h => decode_content d s hof h hclear⟩

end Schema

/-- A typed value is written with literals. -/
theorem Data.numbers_encode (d : Data) : d.encode.numbers = true := by
  have hitems : ∀ xs : List Json, (∀ x ∈ xs, x.numbers = true) → Json.numbersItems xs = true := by
    intro xs
    induction xs with
    | nil => exact fun _ => rfl
    | cons x xs ih =>
      intro h
      rw [Json.numbersItems, h x List.mem_cons_self, ih fun y hy => h y (List.mem_cons_of_mem x hy)]
      rfl
  have hmembers : ∀ ms : List (List Char × Json), (∀ m ∈ ms, m.2.numbers = true) → Json.numbersMembers ms = true := by
    intro ms
    induction ms with
    | nil => exact fun _ => rfl
    | cons m ms ih =>
      intro h
      obtain ⟨name, x⟩ := m
      rw [Json.numbersMembers, h (name, x) List.mem_cons_self, ih fun y hy => h y (List.mem_cons_of_mem _ hy)]
      rfl
  induction d using Data.induct with
  | bool b => rfl
  | str text => rfl
  | int n => exact Json.isNumber_intLiteral n
  | seq items ih =>
    rw [encode, encodeItems_eq]
    apply hitems
    intro x hx
    obtain ⟨d, hd, rfl⟩ := List.mem_map.mp hx
    exact ih d hd
  | none => rfl
  | some x ih => exact ih
  | struct fields ih =>
    rw [encode, encodeFields_eq]
    apply hmembers
    intro m hm
    obtain ⟨f, hf, rfl⟩ := List.mem_map.mp hm
    exact ih f hf
  | map entries ih =>
    rw [encode, encodeEntries_eq]
    apply hmembers
    intro m hm
    obtain ⟨e, he, rfl⟩ := List.mem_map.mp hm
    exact ih e he

end Unixd.Lib
