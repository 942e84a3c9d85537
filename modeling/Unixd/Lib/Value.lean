import Mathlib.Algebra.Group.Int.Defs
import Unixd.Lib.Json
import Unixd.Lib.SortedMap
import Unixd.Lib.Utf8

/-!
# Values without a type

What a decoder that does not know its target makes of JSON: integers of at most 64 bits and floats
for all other numbers. `serde_json::Value` keeps its objects sorted; the buffer of a flattened field
keeps the members as they came. Both are a `Value` here, the first one a sorted one.
-/

namespace Unixd.Lib

inductive Number where
  | int (n : ℤ)
  | float (literal : List Char)

inductive Value where
  | null
  | bool (b : Bool)
  | num (n : Number)
  | str (text : List Char)
  | arr (items : List Value)
  | obj (members : List (List Char × Value))

/-- The integers of `i64` and `u64`. -/
def Fits64 (n : ℤ) : Prop :=
  -2 ^ 63 ≤ n ∧ n < 2 ^ 64

instance (n : ℤ) : Decidable (Fits64 n) := inferInstanceAs (Decidable (_ ∧ _))

/-- A number literal; `keep` says which integers stay integers. -/
def Number.ofLiteral (keep : ℤ → Prop) [DecidablePred keep] (literal : List Char) : Number :=
  match Json.readInt literal with
  | some n => if keep n then .int n else .float literal
  | none => .float literal

namespace Value

mutual
/-- The values of JSON text, members in the order of the text. -/
def ofJson (keep : ℤ → Prop) [DecidablePred keep] : Json → Value
  | .null => .null
  | .bool b => .bool b
  | .num literal => .num (.ofLiteral keep literal)
  | .str text => .str text
  | .arr items => .arr (ofItems keep items)
  | .obj members => .obj (ofMembers keep members)

def ofItems (keep : ℤ → Prop) [DecidablePred keep] : List Json → List Value
  | [] => []
  | x :: xs => ofJson keep x :: ofItems keep xs

def ofMembers (keep : ℤ → Prop) [DecidablePred keep] : List (List Char × Json) → List (List Char × Value)
  | [] => []
  | (name, x) :: ms => (name, ofJson keep x) :: ofMembers keep ms
end

mutual
/-- Every object a sorted map. -/
def sort : Value → Value
  | .arr items => .arr (sortItems items)
  | .obj members => .obj (SortedMap.ofList utf8Lt (sortMembers members))
  | .null => .null
  | .bool b => .bool b
  | .num n => .num n
  | .str text => .str text

def sortItems : List Value → List Value
  | [] => []
  | x :: xs => sort x :: sortItems xs

def sortMembers : List (List Char × Value) → List (List Char × Value)
  | [] => []
  | (name, x) :: ms => (name, sort x) :: sortMembers ms
end

mutual
def toJson : Value → Json
  | .null => .null
  | .bool b => .bool b
  | .num (.int n) => .num (Json.intLiteral n)
  | .num (.float literal) => .num literal
  | .str text => .str text
  | .arr items => .arr (toItems items)
  | .obj members => .obj (toMembers members)

def toItems : List Value → List Json
  | [] => []
  | x :: xs => toJson x :: toItems xs

def toMembers : List (List Char × Value) → List (List Char × Json)
  | [] => []
  | (name, x) :: ms => (name, toJson x) :: toMembers ms
end

mutual
/-- A `serde_json::Value` whose numbers are integers of 64 bits. -/
def Wf : Value → Prop
  | .num (.int n) => Fits64 n
  | .num (.float _) => False
  | .arr items => WfItems items
  | .obj members => SortedMap.Sorted utf8Lt members ∧ WfMembers members
  | _ => True

def WfItems : List Value → Prop
  | [] => True
  | x :: xs => Wf x ∧ WfItems xs

def WfMembers : List (List Char × Value) → Prop
  | [] => True
  | (_, x) :: ms => Wf x ∧ WfMembers ms
end

lemma ofLiteral_intLiteral {keep : ℤ → Prop} [DecidablePred keep] {n : ℤ} (h : keep n) :
    Number.ofLiteral keep (Json.intLiteral n) = .int n := by
  rw [Number.ofLiteral, Json.readInt_intLiteral]
  exact if_pos h

mutual
theorem ofJson_toJson (v : Value) (h : Wf v) : ofJson Fits64 (toJson v) = v := by
  cases v with
  | null => rfl
  | bool b => rfl
  | num n =>
    cases n with
    | int n =>
      rw [Wf] at h
      rw [toJson, ofJson, ofLiteral_intLiteral h]
    | float literal => exact absurd h id
  | str text => rfl
  | arr items =>
    rw [Wf] at h
    rw [toJson, ofJson, ofItems_toItems items h]
  | obj members =>
    rw [Wf] at h
    rw [toJson, ofJson, ofMembers_toMembers members h.2]

theorem ofItems_toItems (xs : List Value) (h : WfItems xs) : ofItems Fits64 (toItems xs) = xs := by
  cases xs with
  | nil => rfl
  | cons x xs =>
    rw [WfItems] at h
    rw [toItems, ofItems, ofJson_toJson x h.1, ofItems_toItems xs h.2]

theorem ofMembers_toMembers (ms : List (List Char × Value)) (h : WfMembers ms) :
    ofMembers Fits64 (toMembers ms) = ms := by
  cases ms with
  | nil => rfl
  | cons m ms =>
    obtain ⟨name, x⟩ := m
    rw [WfMembers] at h
    rw [toMembers, ofMembers, ofJson_toJson x h.1, ofMembers_toMembers ms h.2]
end

mutual
theorem sort_eq (v : Value) (h : Wf v) : sort v = v := by
  cases v with
  | arr items =>
    rw [Wf] at h
    rw [sort, sortItems_eq items h]
  | obj members =>
    rw [Wf] at h
    rw [sort, sortMembers_eq members h.2, SortedMap.ofList_eq h.1 (List.Perm.refl _)]
  | null => rfl
  | bool b => rfl
  | num n => rfl
  | str text => rfl

theorem sortItems_eq (xs : List Value) (h : WfItems xs) : sortItems xs = xs := by
  cases xs with
  | nil => rfl
  | cons x xs =>
    rw [WfItems] at h
    rw [sortItems, sort_eq x h.1, sortItems_eq xs h.2]

theorem sortMembers_eq (ms : List (List Char × Value)) (h : WfMembers ms) : sortMembers ms = ms := by
  cases ms with
  | nil => rfl
  | cons m ms =>
    obtain ⟨name, x⟩ := m
    rw [WfMembers] at h
    rw [sortMembers, sort_eq x h.1, sortMembers_eq ms h.2]
end

mutual
theorem numbers_toJson (v : Value) (h : Wf v) : (toJson v).numbers = true := by
  cases v with
  | num n =>
    cases n with
    | int n => exact Json.isNumber_intLiteral n
    | float literal => exact absurd h id
  | arr items =>
    rw [Wf] at h
    exact numbers_toItems items h
  | obj members =>
    rw [Wf] at h
    exact numbers_toMembers members h.2
  | null => rfl
  | bool b => rfl
  | str text => rfl

theorem numbers_toItems (xs : List Value) (h : WfItems xs) : Json.numbersItems (toItems xs) = true := by
  cases xs with
  | nil => rfl
  | cons x xs =>
    rw [WfItems] at h
    rw [toItems, Json.numbersItems, numbers_toJson x h.1, numbers_toItems xs h.2]
    rfl

theorem numbers_toMembers (ms : List (List Char × Value)) (h : WfMembers ms) :
    Json.numbersMembers (toMembers ms) = true := by
  cases ms with
  | nil => rfl
  | cons m ms =>
    obtain ⟨name, x⟩ := m
    rw [WfMembers] at h
    rw [toMembers, Json.numbersMembers, numbers_toJson x h.1, numbers_toMembers ms h.2]
    rfl
end

end Value

end Unixd.Lib
