import Mathlib.Data.List.Basic
import Unixd.Cache.Os

/-!
# Names under the root

The fixed names of a cache root, the paths of a key's entry and lock file, and what the name of
a file in the entries directory says about it.
-/

namespace Unixd.Cache

def root : Path := []

def entries : Path := ["entries".toList]

def locks : Path := ["locks".toList]

def maintenanceLock : Path := ["maintenance.lock".toList]

def pruneLock : Path := ["prune.lock".toList]

def temporarySuffix : Name := ".tmp".toList

def isHexDigit (c : Char) : Bool :=
  ('0' ≤ c ∧ c ≤ '9') ∨ ('a' ≤ c ∧ c ≤ 'f') ∨ ('A' ≤ c ∧ c ≤ 'F')

def isDigest (digest : Name) : Bool :=
  digest.length = 64 ∧ digest.all isHexDigit

def entryPath (digest : Name) : Path :=
  entries ++ [digest ++ ".json".toList]

def lockPath (digest : Name) : Path :=
  locks ++ [digest ++ ".lock".toList]

def stripSuffix (suffix name : Name) : Option Name :=
  if suffix <:+ name then some (name.take (name.length - suffix.length)) else none

def entryDigest (path : Path) : Option Name := do
  let name ← path.getLast?
  (stripSuffix ".json".toList name).filter isDigest

/-- A temporary file is named `.<digest>.<random>.tmp` by its writer. -/
def temporaryDigest (path : Path) : Option Name := do
  match ← path.getLast? with
  | '.' :: rest => (some (rest.takeWhile (· ≠ '.'))).filter isDigest
  | _ => none

def isTemporary (path : Path) : Bool :=
  match path.getLast? with
  | some name => ['.'] <+: name ∧ temporarySuffix <:+ name
  | none => false

def temporaryStart (digest : Name) : Name :=
  '.' :: digest ++ ['.']

lemma isDigest_iff {digest : Name} :
    isDigest digest = true ↔ digest.length = 64 ∧ ∀ c ∈ digest, isHexDigit c = true := by
  simp [isDigest]

lemma stripSuffix_eq_some {suffix name rest : Name} :
    stripSuffix suffix name = some rest ↔ name = rest ++ suffix := by
  unfold stripSuffix
  constructor
  · intro h
    split at h
    · rename_i hs
      obtain ⟨t, rfl⟩ := hs
      obtain rfl : t = rest := by simpa using h
      rfl
    · cases h
  · rintro rfl
    simp

lemma entryDigest_eq_some {name digest : Name} :
    entryDigest (entries ++ [name]) = some digest ↔
      name = digest ++ ".json".toList ∧ isDigest digest = true := by
  simp only [entryDigest, List.getLast?_append, List.getLast?_singleton, Option.some_or,
    Option.bind_eq_bind, Option.bind_some, Option.filter_eq_some_iff, stripSuffix_eq_some]

lemma entryDigest_entryPath {digest : Name} (h : isDigest digest = true) :
    entryDigest (entryPath digest) = some digest :=
  entryDigest_eq_some.mpr ⟨rfl, h⟩

lemma temporaryDigest_eq_some {name digest : Name} :
    temporaryDigest (entries ++ [name]) = some digest ↔
      ∃ rest, name = '.' :: rest ∧ rest.takeWhile (· ≠ '.') = digest ∧ isDigest digest = true := by
  simp only [temporaryDigest, List.getLast?_append, List.getLast?_singleton, Option.some_or,
    Option.bind_eq_bind, Option.bind_some]
  split
  · simp [Option.filter_eq_some_iff]
  · rename_i hne
    simp only [reduceCtorEq, false_iff]
    rintro ⟨rest, rfl, -⟩
    exact hne rest rfl

end Unixd.Cache
