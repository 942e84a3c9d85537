import Mathlib.Data.List.Basic
import Mathlib.Order.Defs.Unbundled

/-!
# Sorted maps

An ordered map as the list of its entries in the order of their keys. Inserting keeps the order and
says what the key had; the list is determined by its entries.
-/

namespace Unixd.Lib.SortedMap

set_option linter.unusedSectionVars false

variable {K B : Type} {lt : K → K → Prop}

/-- Entries in the order of their keys, no key twice. -/
abbrev Sorted (lt : K → K → Prop) (entries : List (K × B)) : Prop :=
  entries.Pairwise fun p q => lt p.1 q.1

variable [DecidableEq K] [DecidableRel lt]

/-- The value that the key had, and the map with the new one. -/
def insert (lt : K → K → Prop) [DecidableRel lt] (key : K) (value : B) :
    List (K × B) → Option B × List (K × B)
  | [] => (none, [(key, value)])
  | p :: entries =>
    if key = p.1 then
      (some p.2, (key, value) :: entries)
    else if lt key p.1 then
      (none, (key, value) :: p :: entries)
    else
      ((insert lt key value entries).1, p :: (insert lt key value entries).2)

/-- The map of a list of entries, the last one of a key kept. -/
def ofList (lt : K → K → Prop) [DecidableRel lt] (entries : List (K × B)) : List (K × B) :=
  entries.foldl (fun m p => (insert lt p.1 p.2 m).2) []

variable {key : K} {value : B} {entries : List (K × B)}

lemma mem_insert {q : K × B} (h : q ∈ (insert lt key value entries).2) : q = (key, value) ∨ q ∈ entries := by
  induction entries with
  | nil =>
    rw [insert, List.mem_singleton] at h
    exact .inl h
  | cons p entries ih =>
    rw [insert] at h
    split_ifs at h with heq hlt
    · rcases List.mem_cons.mp h with rfl | h
      · exact .inl rfl
      · exact .inr (List.mem_cons_of_mem p h)
    · exact List.mem_cons.mp h
    · rcases List.mem_cons.mp h with rfl | h
      · exact .inr List.mem_cons_self
      · exact (ih h).imp_right (List.mem_cons_of_mem p)

section order

variable [IsStrictTotalOrder K lt]

lemma lt_of_not {a b : K} (hne : a ≠ b) (h : ¬ lt a b) : lt b a := by
  rcases trichotomous_of lt a b with hlt | heq | hgt
  · exact absurd hlt h
  · exact absurd heq hne
  · exact hgt

lemma Sorted.insert (h : Sorted lt entries) : Sorted lt (insert lt key value entries).2 := by
  induction entries with
  | nil => exact List.pairwise_singleton _ _
  | cons p entries ih =>
    have hp := List.pairwise_cons.mp h
    rw [SortedMap.insert]
    split_ifs with heq hlt
    · apply List.pairwise_cons.mpr
      exact ⟨fun q hq => by rw [heq]; exact hp.1 q hq, hp.2⟩
    · apply List.pairwise_cons.mpr
      refine ⟨fun q hq => ?_, h⟩
      rcases List.mem_cons.mp hq with rfl | hq
      · exact hlt
      · exact trans_of lt hlt (hp.1 q hq)
    · apply List.pairwise_cons.mpr
      refine ⟨fun q hq => ?_, ih hp.2⟩
      rcases mem_insert hq with rfl | hq
      · exact lt_of_not heq hlt
      · exact hp.1 q hq

/-- The old value is there exactly when the key is. -/
lemma insert_eq_none (h : Sorted lt entries) :
    (SortedMap.insert lt key value entries).1 = none ↔ key ∉ entries.map Prod.fst := by
  induction entries with
  | nil => simp [SortedMap.insert]
  | cons p entries ih =>
    have hp := List.pairwise_cons.mp h
    rw [SortedMap.insert, List.map_cons, List.mem_cons, not_or]
    split_ifs with heq hlt
    · simp [heq]
    · have hout : key ∉ entries.map Prod.fst := by
        intro hmem
        rcases List.mem_map.mp hmem with ⟨q, hq, rfl⟩
        exact irrefl_of lt q.1 (trans_of lt hlt (hp.1 q hq))
      exact iff_of_true rfl ⟨heq, hout⟩
    · rw [ih hp.2]
      exact ⟨fun hout => ⟨heq, hout⟩, fun hout => hout.2⟩

lemma insert_perm (h : Sorted lt entries) (hout : key ∉ entries.map Prod.fst) :
    (SortedMap.insert lt key value entries).2.Perm ((key, value) :: entries) := by
  induction entries with
  | nil => exact List.Perm.refl _
  | cons p entries ih =>
    have hp := List.pairwise_cons.mp h
    rw [List.map_cons, List.mem_cons, not_or] at hout
    rw [SortedMap.insert]
    split_ifs with heq hlt
    · exact absurd heq hout.1
    · exact List.Perm.refl _
    · exact ((ih hp.2 hout.2).cons p).trans (List.Perm.swap _ _ _)

lemma Sorted.nodup (h : Sorted lt entries) : entries.Nodup := by
  apply List.Pairwise.imp _ h
  rintro p q hlt rfl
  exact irrefl_of lt p.1 hlt

lemma Sorted.nodup_keys (h : Sorted lt entries) : (entries.map Prod.fst).Nodup := by
  apply List.Pairwise.map _ _ h
  intro p q hlt heq
  rw [heq] at hlt
  exact irrefl_of lt q.1 hlt

/-- Sorted entries are determined by the set of them. -/
lemma Sorted.ext {entries' : List (K × B)} (h : Sorted lt entries) (h' : Sorted lt entries')
    (hmem : ∀ p, p ∈ entries ↔ p ∈ entries') : entries = entries' := by
  apply List.Perm.eq_of_pairwise _ h h' ((List.perm_ext_iff_of_nodup h.nodup h'.nodup).mpr hmem)
  intro p q _ _ hpq hqp
  exact absurd (trans_of lt hpq hqp) (irrefl_of lt p.1)

lemma foldl_insert_perm {m : List (K × B)} (hm : Sorted lt m) (h : ((entries ++ m).map Prod.fst).Nodup) :
    Sorted lt (entries.foldl (fun m p => (SortedMap.insert lt p.1 p.2 m).2) m) ∧
      (entries.foldl (fun m p => (SortedMap.insert lt p.1 p.2 m).2) m).Perm (entries ++ m) := by
  induction entries generalizing m with
  | nil => exact ⟨hm, List.Perm.refl _⟩
  | cons p entries ih =>
    rw [List.cons_append, List.map_cons, List.nodup_cons] at h
    have hout : p.1 ∉ m.map Prod.fst := by
      intro hmem
      apply h.1
      rw [List.map_append, List.mem_append]
      exact .inr hmem
    have hinsert : (SortedMap.insert lt p.1 p.2 m).2.Perm (p :: m) := insert_perm hm hout
    have hperm : (entries ++ (SortedMap.insert lt p.1 p.2 m).2).Perm (p :: (entries ++ m)) :=
      (hinsert.append_left entries).trans List.perm_middle
    have hnodup : ((entries ++ (SortedMap.insert lt p.1 p.2 m).2).map Prod.fst).Nodup := by
      rw [(hperm.map Prod.fst).nodup_iff]
      exact List.nodup_cons.mpr h
    have hrest := ih hm.insert hnodup
    exact ⟨hrest.1, hrest.2.trans hperm⟩

lemma ofList_sorted (h : (entries.map Prod.fst).Nodup) : Sorted lt (ofList lt entries) :=
  (foldl_insert_perm List.Pairwise.nil (by rwa [List.append_nil])).1

lemma ofList_perm (h : (entries.map Prod.fst).Nodup) : (ofList lt entries).Perm entries := by
  have hnil : Sorted lt ([] : List (K × B)) := List.Pairwise.nil
  have hperm := (foldl_insert_perm hnil (by rwa [List.append_nil])).2
  rwa [List.append_nil] at hperm

/-- The map of entries that are in any order is the sorted list of them. -/
theorem ofList_eq {sorted : List (K × B)} (h : Sorted lt sorted) (hperm : entries.Perm sorted) :
    ofList lt entries = sorted := by
  have hnodup : (entries.map Prod.fst).Nodup := by
    rw [(hperm.map Prod.fst).nodup_iff]
    exact h.nodup_keys
  apply (ofList_sorted hnodup).ext h
  intro p
  exact ((ofList_perm hnodup).trans hperm).mem_iff

end order

end Unixd.Lib.SortedMap
