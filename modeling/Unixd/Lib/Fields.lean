import Mathlib.Algebra.Order.Ring.Nat
import Mathlib.Data.List.Basic
import Mathlib.Data.Nat.Digits.Defs

/-!
# Length-prefixed fields

A sequence of fields, each written as its length in a fixed number of little-endian bytes and then
its own bytes. The concatenation has no terminator and no count, and still determines the fields.
-/

namespace Unixd.Lib

/-- The `k` low bytes of `n`, least significant first. -/
def leBytes : ℕ → ℕ → List UInt8
  | 0, _ => []
  | k + 1, n => UInt8.ofNat n :: leBytes k (n / 256)

@[simp] lemma length_leBytes (k n : ℕ) : (leBytes k n).length = k := by
  induction k generalizing n with
  | zero => rfl
  | succ k ih => simp [leBytes, ih]

lemma leBytes_inj {k n m : ℕ} (hn : n < 256 ^ k) (hm : m < 256 ^ k) (h : leBytes k n = leBytes k m) : n = m := by
  induction k generalizing n m with
  | zero => omega
  | succ k ih =>
    rw [pow_succ] at hn hm
    rw [leBytes, leBytes, List.cons.injEq] at h
    have hlow : n % 256 = m % 256 := by simpa using congrArg UInt8.toNat h.1
    have hhigh : n / 256 = m / 256 := ih (by omega) (by omega) h.2
    omega

/-- One field in front of `rest`. -/
def field (k : ℕ) (bytes : List UInt8) : List UInt8 :=
  leBytes k bytes.length ++ bytes

lemma field_append_inj {k : ℕ} {x y r s : List UInt8} (hx : x.length < 256 ^ k) (hy : y.length < 256 ^ k)
    (h : field k x ++ r = field k y ++ s) : x = y ∧ r = s := by
  simp only [field, List.append_assoc] at h
  have hlen : (leBytes k x.length).length = (leBytes k y.length).length := by simp
  have hsame : x.length = y.length := leBytes_inj hx hy (List.append_inj_left h hlen)
  have hrest : x ++ r = y ++ s := List.append_inj_right h hlen
  exact List.append_inj hrest hsame

lemma field_ne_nil {k : ℕ} (hk : k ≠ 0) (x : List UInt8) : field k x ≠ [] := by
  intro h
  have hlen := congrArg List.length h
  simp only [field, List.length_append, length_leBytes, List.length_nil] at hlen
  omega

/-- A sequence of fields is read back from its concatenation, whatever its length. -/
theorem flatMap_field_inj {k : ℕ} (hk : k ≠ 0) {xs ys : List (List UInt8)}
    (hxs : ∀ x ∈ xs, x.length < 256 ^ k) (hys : ∀ y ∈ ys, y.length < 256 ^ k)
    (h : xs.flatMap (field k) = ys.flatMap (field k)) : xs = ys := by
  induction xs generalizing ys with
  | nil =>
    cases ys with
    | nil => rfl
    | cons y ys =>
      rw [List.flatMap_nil, List.flatMap_cons, eq_comm, List.append_eq_nil_iff] at h
      exact absurd h.1 (field_ne_nil hk y)
  | cons x xs ih =>
    cases ys with
    | nil =>
      rw [List.flatMap_nil, List.flatMap_cons, List.append_eq_nil_iff] at h
      exact absurd h.1 (field_ne_nil hk x)
    | cons y ys =>
      rw [List.flatMap_cons, List.flatMap_cons] at h
      have hhead := field_append_inj (hxs x List.mem_cons_self) (hys y List.mem_cons_self) h
      have htail := ih (fun z hz => hxs z (List.mem_cons_of_mem x hz))
        (fun z hz => hys z (List.mem_cons_of_mem y hz)) hhead.2
      rw [hhead.1, htail]

end Unixd.Lib
