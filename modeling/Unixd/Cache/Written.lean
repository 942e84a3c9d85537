import Unixd.Cache.Files
import Unixd.Cache.Horizon
import Unixd.Cache.Looked

/-!
# What becomes of a store

An entry as a store wrote it, and what every later lookup and prune makes of it. A prune reads no further than the header in
front of the value, and a lookup parses the whole entry; the two agree on when the entry is over.
-/

namespace Unixd.Cache

open Unixd.Lib

set_option linter.unusedSectionVars false

variable {A V T : Type} [DecidableEq A] {tick : ℕ → ℕ → Prop} {a : A} {serde : Serde T} {inner inner' : Inner} {key : Key}
  {n limit : ℕ} {value : T} {policy : Policy} {bytes : Bytes} {locked : Bool} {w w' : World A V}

/-- The entry of `key` is a regular file of these bytes with no other name. -/
structure HasEntry (w : World A V) (key : Key) (bytes : Bytes) : Prop where
  entries : w.scene.OwnDir entries
  file : ∃ i node, w.find (entryPath key.digest) = some (i, node) ∧ node.kind = .file ∧ node.bytes = bytes ∧
    ∀ p x, w.find p = some (i, x) → p = entryPath key.digest

/-- A lookup on its own of what a store wrote: what it answers and whether it takes the entry away. -/
lemma ends_lookup (hentry : HasEntry w key bytes) (codec : Codec T) :
    (∃ r w', (read codec inner' key locked : M V _).Ends (machine A V (fun _ => False) tick) a w r w') ∧
      ∀ r w', (read codec inner' key locked : M V _).Ends (machine A V (fun _ => False) tick) a w r w' →
        r = .ok (answer codec inner' key (some (.file, bytes)) w.clock) ∧
          (w'.find (entryPath key.digest) = none ↔ locked = true ∧ Discards codec inner' key (some (.file, bytes)) w.clock) := by
  obtain ⟨hentries, i, node, hfind, hkind, rfl, hone⟩ := hentry
  have hsolo := @solo_lookup _ _ _ _ (fun _ => False) tick a _ w.margin _ _ codec inner' key locked hentries hfind hkind hone
    fun _ _ => trivial
  obtain ⟨hrun, hends⟩ := Lone.ends hsolo (w.sees a)
  refine ⟨hrun, fun r w' h => ?_⟩
  have hend := hends r w' h
  rcases r with e | r
  · obtain ⟨_, ⟨_, hf, -⟩, -⟩ := hend.2
    exact hf.elim
  · obtain ⟨rfl, hsees | ⟨e, ⟨_, ⟨_, hf, -⟩, -⟩⟩⟩ := hend
    · refine ⟨rfl, ?_⟩
      rw [← World.scene_find, hsees.scene]
      exact Scene.find_looked hfind
    · exact hf.elim

/-- What a lookup answers of a stored value is a function of the two schemas and of the time, which over time goes from fresh
to stale to nothing; a lookup under the key lock takes the entry away once it is past its stale horizon, unless the entry
has a newer schema. -/
theorem lookup_horizons (h : serde.codec.encode (.at inner key n value policy) = some bytes) (hn : n ≤ u64Max)
    (hvalue : serde.RoundTrips value) (hentry : HasEntry w key bytes) (hsize : bytes.length ≤ inner'.limits.maxEntryBytes) :
    (∃ r w', (read serde.codec inner' key locked : M V _).Ends (machine A V (fun _ => False) tick) a w r w') ∧
      (∀ r w', (read serde.codec inner' key locked : M V _).Ends (machine A V (fun _ => False) tick) a w r w' →
        r = .ok (due inner'.schema inner.schema n value policy w.clock) ∧ (w'.find (entryPath key.digest) = none ↔
          locked = true ∧ inner.schema ≤ inner'.schema ∧ staleUntil n policy < w.clock)) ∧
      ∀ t t', t ≤ t' → (due inner'.schema inner.schema n value policy t).phase ≤ (due inner'.schema inner.schema n value policy t').phase := by
  obtain ⟨hrun, hends⟩ := ends_lookup hentry serde.codec
  refine ⟨hrun, fun r w' hr => ?_, fun t t' ht => phase_due_mono ht⟩
  obtain ⟨hanswer, hgone⟩ := hends r w' hr
  rw [answer_encode h hn hvalue hsize] at hanswer
  rw [discards_encode h hn hvalue hsize] at hgone
  exact ⟨hanswer, hgone⟩

lemma hasEntry_withEntry (bytes : Bytes) (clock : ℕ) : HasEntry (withEntry bytes clock) keyA bytes := by
  obtain ⟨i, hfind, hone⟩ := find_withEntry bytes clock
  exact ⟨(fit_rootWith (extra_withEntry bytes)).entries, i, _, hfind, rfl, rfl, hone⟩

/-- Past its stale horizon a lookup under the key lock takes the entry away. -/
theorem lookup_horizons_late : ∃ bytes r w', Serde.unit.codec.encode (.at roomy keyA 0 () briefly) = some bytes ∧
    (read Serde.unit.codec roomy keyA true : M Unit (Lookup Unit)).Ends (machine Unit Unit (fun _ => False) fun _ _ => True) ()
      (withEntry bytes 10) r w' ∧ r = .ok .miss ∧ w'.find (entryPath digestA) = none := by
  obtain ⟨bytes, hencode, hsize⟩ := exists_briefly
  obtain ⟨⟨r, w', hrun⟩, hends, -⟩ := @lookup_horizons Unit Unit Unit _ (fun _ _ => True) () Serde.unit roomy roomy keyA 0 () briefly bytes
    true (withEntry bytes 10) hencode (Nat.zero_le _) unit_roundTrips (hasEntry_withEntry bytes 10) hsize
  obtain ⟨hr, hgone⟩ := hends r w' hrun
  exact ⟨bytes, r, w', hencode, hrun, hr, hgone.mpr ⟨rfl, Nat.le_refl _, show staleUntil 0 briefly < 10 by decide⟩⟩

end Unixd.Cache
