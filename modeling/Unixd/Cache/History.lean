import Mathlib.Data.List.Induction
import Unixd.Cache.Horizon
import Unixd.Cache.Session

/-!
# The history of an entry

Where the content of an entry file comes from, as the journal tells: what a store last renamed into place, or what was
there at the start.
-/

namespace Unixd.Cache

open Unixd.Lib

set_option linter.unusedSectionVars false

/-- The last element with a property is one, whatever follows it. -/
lemma last_unique {α : Type} {Q : α → Prop} {pre pre' post post' : List α} {x x' : α} (h : pre ++ x :: post = pre' ++ x' :: post')
    (hx : Q x) (hx' : Q x') (hpost : ∀ y ∈ post, ¬Q y) (hpost' : ∀ y ∈ post', ¬Q y) : pre' = pre ∧ x' = x ∧ post' = post := by
  rw [List.append_eq_append_iff] at h
  rcases h with ⟨more, rfl, hmore⟩ | ⟨more, rfl, hmore⟩
  · cases more with
    | nil =>
      rw [List.nil_append, List.cons.injEq] at hmore
      exact ⟨List.append_nil _, hmore.1.symm, hmore.2.symm⟩
    | cons y more =>
      rw [List.cons_append, List.cons.injEq] at hmore
      exact absurd hx' (hpost x' (hmore.2 ▸ by simp))
  · cases more with
    | nil =>
      rw [List.nil_append, List.cons.injEq] at hmore
      exact ⟨(List.append_nil _).symm, hmore.1, hmore.2⟩
    | cons y more =>
      rw [List.cons_append, List.cons.injEq] at hmore
      exact absurd hx (hpost' x (hmore.2 ▸ by simp))

section

variable {A V : Type} {a : A} {pre pre' j : List (Event A V)} {v v' : V} {t t' : ℕ} {P P' : List (Event A V) → Prop}

/-- The last note of an agent is one. -/
lemma Since.unique (h : Since j a pre v t P) (h' : Since j a pre' v' t' P') : pre' = pre ∧ v' = v ∧ t' = t ∧
    ∃ post, j = pre ++ ⟨a, .noted v t⟩ :: post ∧ P post ∧ P' post := by
  obtain ⟨post, hj, hnone, hP⟩ := h
  obtain ⟨post', hj', hnone', hP'⟩ := h'
  have hlast : ∀ {post : List (Event A V)}, (∀ e ∈ post, e.agent = a → ∀ v t, e.what ≠ .noted v t) →
      ∀ e ∈ post, ¬(e.agent = a ∧ ∃ v t, e.what = .noted v t) := by
    rintro post hnone e he ⟨hagent, v, t, hwhat⟩
    exact hnone e he hagent v t hwhat
  obtain ⟨rfl, heq, rfl⟩ := last_unique (Q := fun e => e.agent = a ∧ ∃ v t, e.what = .noted v t) (hj.symm.trans hj')
    ⟨rfl, _, _, rfl⟩ ⟨rfl, _, _, rfl⟩ (hlast hnone) (hlast hnone')
  cases heq
  exact ⟨rfl, rfl, rfl, post', hj, hP, hP'⟩

lemma Latest.unique {now now' : ℕ} (h : Latest a now j) (h' : Latest a now' j) : now' = now := by
  obtain ⟨seen, rest, rfl, hrest, -⟩ := h
  obtain ⟨seen', rest', heq, hrest', -⟩ := h'
  have hlast : ∀ {rest : List (Event A V)}, (∀ e ∈ rest, e.agent = a → ∀ t, e.what ≠ .clock t) →
      ∀ e ∈ rest, ¬(e.agent = a ∧ ∃ t, e.what = .clock t) := by
    rintro rest hrest e he ⟨hagent, t, hwhat⟩
    exact hrest e he hagent t hwhat
  obtain ⟨-, hsame, -⟩ := last_unique (Q := fun e => e.agent = a ∧ ∃ t, e.what = .clock t) heq
    ⟨rfl, _, rfl⟩ ⟨rfl, _, rfl⟩ (hlast hrest) (hlast hrest')
  cases hsame
  rfl

end

section

variable {A V : Type} {digest : Name} {content : Option (Kind × Bytes)} {start : Name → Option (Kind × Bytes)}
  {journal : List (Event A V)} {x : Kind × Bytes}

/-- What takes the entry of `digest` away or puts another one in its place. -/
def What.Replaces (digest : Name) : What V → Prop
  | .renamed _ dst _ => dst = entryPath digest
  | .unlinked path _ => path = entryPath digest
  | _ => False

lemma What.change_eq_self {what : What V} (h : ¬what.Replaces digest) : what.change digest content = content := by
  cases what with
  | renamed src dst bytes => exact if_neg h
  | unlinked path why => exact if_neg h
  | _ => rfl

lemma contents_append_of_not {added : List (Event A V)} (h : ∀ e ∈ added, ¬e.what.Replaces digest) :
    contents start (journal ++ added) digest = contents start journal digest := by
  induction added using List.reverseRecOn with
  | nil => rw [List.append_nil]
  | append_singleton added e ih =>
    rw [← List.append_assoc, contents_append, What.change_eq_self (h e (by simp))]
    exact ih fun e he => h e (by simp [he])

/-- An entry that is there was there at the start, or is the last that was renamed into place. -/
lemma contents_eq_some (h : contents start journal digest = some x) :
    (start digest = some x ∧ ∀ e ∈ journal, ¬e.what.Replaces digest) ∨ ∃ pre b src bytes post,
      journal = pre ++ ⟨b, .renamed src (entryPath digest) bytes⟩ :: post ∧ x = (.file, bytes) ∧ ∀ e ∈ post, ¬e.what.Replaces digest := by
  induction journal using List.reverseRecOn with
  | nil => exact Or.inl ⟨h, fun _ he => (nomatch he)⟩
  | append_singleton journal e ih =>
    rw [contents_append] at h
    by_cases he : e.what.Replaces digest
    · obtain ⟨b, what⟩ := e
      cases what with
      | renamed src dst bytes =>
        obtain rfl : dst = entryPath digest := he
        refine Or.inr ⟨journal, b, src, bytes, [], rfl, ?_, fun _ he => (nomatch he)⟩
        rw [What.change, if_pos rfl, Option.some_inj] at h
        exact h.symm
      | unlinked path why =>
        obtain rfl : path = entryPath digest := he
        rw [What.change, if_pos rfl] at h
        cases h
      | _ => exact he.elim
    · rw [What.change_eq_self he] at h
      have hlast : ∀ {l : List (Event A V)}, (∀ e ∈ l, ¬e.what.Replaces digest) → ∀ d ∈ l ++ [e], ¬d.what.Replaces digest := by
        intro l hl d hd
        rcases List.mem_append.mp hd with hmem | hmem
        · exact hl d hmem
        · exact List.mem_singleton.mp hmem ▸ he
      rcases ih h with ⟨hstart, hnone⟩ | ⟨pre, b, src, bytes, post, rfl, hx, hnone⟩
      · exact Or.inl ⟨hstart, hlast hnone⟩
      · exact Or.inr ⟨pre, b, src, bytes, post ++ [e], by simp, hx, hlast hnone⟩

end

namespace Rules

variable {ι : Type} {T : ι → Type} {A : Type} [DecidableEq A] {R : Rules A ι T}
  {s : Pool A (World A (Note ι T)) Error (Op (Note ι T)) Op.Ret Unit} {digest : Name} {kind : Kind} {bytes : Bytes}

/-- Some store of `digest` writes `bytes`, stored at `n` and stale after `t`. -/
def Writes (R : Rules A ι T) (digest : Name) (n t : ℕ) (bytes : Bytes) : Prop :=
  ∃ i inner key value policy, key.digest = digest ∧ n ≤ u64Max ∧ t = staleUntil n policy ∧
    (R.codec i).encode (.at inner key n value policy) = some bytes

/-- Stores have written the entries that are there at the start. -/
def Stored (R : Rules A ι T) : Prop :=
  ∀ digest kind bytes, isDigest digest = true → R.start digest = some (kind, bytes) → kind = .file ∧ ∃ n t, R.Writes digest n t bytes

lemma Writes.header {n t : ℕ} (h : R.Writes digest n t bytes) :
    ∃ header, headerOfBytes bytes = some header ∧ header.storedAtMs = n ∧ header.staleUntilMs = t := by
  obtain ⟨i, inner, key, value, policy, -, hn, rfl, hencode⟩ := h
  exact ⟨_, Serde.header_encode hencode (fits_at hn), rfl, rfl⟩

/-- The live entries are those that are not past their stale horizon. -/
lemma Writes.live_iff {n t now limit : ℕ} {i : ι} (h : R.Writes digest n t bytes) (hlimit : bytes.length ≤ limit) :
    Live (R.codec i) digest now limit bytes ↔ now ≤ t := by
  obtain ⟨j, inner, key, value, policy, rfl, hn, rfl, hencode⟩ := h
  exact @live_encode _ (R.serde j) _ _ _ _ _ _ _ _ hencode hn hlimit

/-- At every moment an entry is what one store has written. -/
theorem contents_stored (h : R.system.Reachable s) (hstart : R.Stored) (hd : isDigest digest = true) {before after : List (Event A (Note ι T))}
    (hj : s.world.journal = before ++ after) (hcontent : contents R.start before digest = some (kind, bytes)) :
    kind = .file ∧ ∃ n t, R.Writes digest n t bytes := by
  rcases contents_eq_some hcontent with ⟨hstored, -⟩ | ⟨pre, b, src, written, post, rfl, hx, -⟩
  · exact hstart digest kind bytes hd hstored
  · have hsaid := @Core.said _ _ _ _ (inv h).toCore pre ⟨b, .renamed src (entryPath digest) written⟩ (post ++ after)
      (by rw [hj]; simp) trivial
    obtain ⟨_, _, i, inner, key, value, policy, now, ⟨_, -, -, hclocked⟩, -, hdst, hencode, -⟩ := hsaid
    rw [Prod.mk.injEq] at hx
    obtain ⟨rfl, rfl⟩ := hx
    refine ⟨rfl, now, _, i, inner, key, value, policy, ?_, hclocked.2, rfl, hencode⟩
    simpa [entryPath] using hdst.symm

end Rules

end Unixd.Cache
