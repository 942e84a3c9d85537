import Unixd.Cache.Failing
import Unixd.Cache.History
import Unixd.Cache.Exclusion

/-!
# Entries that cannot be read

What a prune removes as expired when calls fail, and what a lookup answers that cannot read its entry.
-/

namespace Unixd.Cache

open Unixd.Lib Protocol.Scope

set_option linter.unusedSectionVars false

section

variable {A V : Type}

/-- In `post` the scan of the entry of `digest` failed, with nothing else of `a` since. -/
def Unscanned (a : A) (digest : Name) (post : List (Event A V)) : Prop :=
  ⟨a, .failed (.openRead (entryPath digest) true)⟩ ∈ post ∨
    ∃ x f size y, post = x ++ ⟨a, .failed (.read f size)⟩ :: y ∧ ∀ e ∈ y, e.agent ≠ a

lemma Unscanned.unread {a : A} {digest : Name} {post : List (Event A V)} (h : Unscanned a digest post) : Unread a post := by
  rcases h with hmem | ⟨x, f, size, y, rfl, -⟩
  · exact ⟨_, hmem, digest, rfl⟩
  · exact ⟨.read f size, by simp, trivial⟩

end

namespace Rules

variable {ι : Type} {T : ι → Type} {A : Type} [DecidableEq A] {R : Rules A ι T} {s : State A ι T} {a : A}

/-- After `before` a prune of `a`, or the maintenance of its store, goes on that began `post` ago and read the time `now`. -/
def Prunes (R : Rules A ι T) (before : List (Event A (Note ι T))) (a : A) (inner : Inner) (now : ℕ) (post : List (Event A (Note ι T))) :
    Prop :=
  ∃ pre v t i, (v = .began (some (i, inner)) ∨ ∃ key value policy, v = .storing i inner key value policy) ∧
    Since before a pre v t fun p => p = post ∧ Latest a now p

/-- An entry that a prune finds expired could be read, and is too large or past its stale horizon. -/
structure Expired (R : Rules A ι T) (before : List (Event A (Note ι T))) (a : A) (digest : Name) (inner : Inner) (now : ℕ)
    (post : List (Event A (Note ι T))) : Prop where
  read : ¬Unscanned a digest post
  past : ∃ bytes, contents R.start before digest = some (.file, bytes) ∧
    (inner.limits.maxEntryBytes < bytes.length ∨ ∃ n t, R.Writes digest n t bytes ∧ t < now)

/-- Where no scan fails a prune removes as expired what is. -/
lemma expired_of_read (h : R.system.Reachable s) (hstart : R.Stored) {before after : List (Event A (Note ι T))} {digest : Name}
    {inner : Inner} {now : ℕ} {post : List (Event A (Note ι T))}
    (hj : s.world.journal = before ++ ⟨a, .unlinked (entryPath digest) (.prune .expired)⟩ :: after) (hd : isDigest digest = true)
    (hprunes : R.Prunes before a inner now post) (hread : ¬Unread a post) : R.Expired before a digest inner now post := by
  refine ⟨fun hun => hread hun.unread, ?_⟩
  obtain ⟨pre, v, t, i, inner', digest', now', hv, hpath, hsince⟩ := (inv h).said hj trivial
  obtain ⟨pre', v', t', i', hv', hsince'⟩ := hprunes
  obtain ⟨-, rfl, -, post', -, ⟨hlatest, hexpires⟩, rfl, hlatest'⟩ := hsince.unique hsince'
  obtain rfl := hlatest.unique hlatest'
  obtain rfl : inner = inner' := by
    rcases hv with rfl | ⟨key, value, policy, rfl⟩
    · rcases hv' with heq | ⟨key', value', policy', heq⟩
      · cases heq
        rfl
      · cases heq
    · rcases hv' with heq | ⟨key', value', policy', heq⟩
      · cases heq
      · cases heq
        rfl
  obtain rfl : digest' = digest := by simpa [entryPath] using hpath.symm
  obtain ⟨bytes, hcontent, hwhy⟩ := hexpires
  refine ⟨bytes, hcontent, ?_⟩
  obtain ⟨-, n, stale, hwrites⟩ := contents_stored h hstart hd hj hcontent
  rcases hwhy with hlarge | hlive | hun
  · exact Or.inl hlarge
  · by_cases hsize : inner.limits.maxEntryBytes < bytes.length
    · exact Or.inl hsize
    · refine Or.inr ⟨n, stale, hwrites, ?_⟩
      rw [hwrites.live_iff (Nat.le_of_not_lt hsize)] at hlive
      exact Nat.lt_of_not_le hlive
  · exact absurd hun hread

end Rules

end Unixd.Cache
