import Mathlib.Data.Nat.Find
import Unixd.Cache.Prune

/-!
# The header of an entry

Where `position` finds a window, also in bytes that come in chunks, and the header that `readHeader`
takes from an entry's bytes however they are read.
-/

namespace Unixd.Cache

section

variable {window : Bytes}

lemma position_eq_some {bytes : Bytes} {k : ℕ} :
    position window bytes = some k ↔
      (window <+: bytes.drop k ∧ k ≤ bytes.length) ∧ ∀ j < k, ¬window <+: bytes.drop j := by
  induction bytes generalizing k with
  | nil =>
    unfold position
    split
    · rename_i hw
      subst hw
      simp only [Option.some_inj, List.drop_nil, List.nil_prefix, true_and, List.length_nil]
      constructor
      · rintro rfl
        simp
      · rintro ⟨h, -⟩
        omega
    · rename_i hw
      simp [hw]
  | cons byte bytes ih =>
    unfold position
    split
    · rename_i hp
      simp only [Option.some_inj]
      constructor
      · rintro rfl
        exact ⟨⟨hp, Nat.zero_le _⟩, by simp⟩
      · rintro ⟨-, hmin⟩
        by_contra hne
        exact hmin 0 (by omega) hp
    · rename_i hp
      cases k with
      | zero => simp [hp]
      | succ k =>
        simp only [Option.map_eq_some_iff, Nat.add_right_cancel_iff, exists_eq_right, ih, List.drop_succ_cons,
          List.length_cons, Nat.add_le_add_iff_right]
        refine and_congr_right fun _ => ⟨fun hmin j hj => ?_, fun hmin j hj => ?_⟩
        · cases j with
          | zero => exact hp
          | succ j => exact hmin j (by omega)
        · exact hmin (j + 1) (by omega)

lemma position_eq_none {bytes : Bytes} :
    position window bytes = none ↔ ∀ j ≤ bytes.length, ¬window <+: bytes.drop j := by
  constructor
  · intro h j hj hp
    have hex : ∃ j, window <+: bytes.drop j ∧ j ≤ bytes.length := ⟨j, hp, hj⟩
    classical
    have hfind := Nat.find_spec hex
    have hsome : position window bytes = some (Nat.find hex) := by
      refine position_eq_some.mpr ⟨hfind, fun m hm hpm => ?_⟩
      exact Nat.find_min hex hm ⟨hpm, by omega⟩
    rw [h] at hsome
    cases hsome
  · intro h
    by_contra hne
    obtain ⟨k, hk⟩ := Option.ne_none_iff_exists'.mp hne
    obtain ⟨⟨hp, hle⟩, -⟩ := position_eq_some.mp hk
    exact h k hle hp

lemma prefix_drop_append {bytes chunk : Bytes} {j : ℕ} (hj : j + window.length ≤ bytes.length) :
    window <+: (bytes ++ chunk).drop j ↔ window <+: bytes.drop j := by
  rw [List.drop_append_of_le_length (by omega)]
  constructor
  · rintro ⟨t, ht⟩
    refine List.prefix_of_prefix_length_le ⟨t, ht⟩ (List.prefix_append _ _) ?_
    rw [List.length_drop]
    omega
  · exact fun h => h.trans (List.prefix_append _ _)

lemma position_length {bytes : Bytes} {k : ℕ} (h : position window bytes = some k) : k + window.length ≤ bytes.length := by
  obtain ⟨⟨hp, hle⟩, -⟩ := position_eq_some.mp h
  have hlen := hp.length_le
  rw [List.length_drop] at hlen
  omega

/-- The first place stays the first when more follows. -/
lemma position_append {bytes chunk : Bytes} {k : ℕ} (h : position window bytes = some k) :
    position window (bytes ++ chunk) = some k := by
  have hlen := position_length h
  obtain ⟨⟨hp, hle⟩, hmin⟩ := position_eq_some.mp h
  refine position_eq_some.mpr ⟨⟨(prefix_drop_append hlen).mpr hp, ?_⟩, fun j hj hpj => ?_⟩
  · rw [List.length_append]
    omega
  · exact hmin j hj ((prefix_drop_append (by omega)).mp hpj)

/-- After bytes without the window it is enough to look from their last `window.length - 1` on. -/
lemma position_overlap {bytes chunk : Bytes} (hw : window ≠ []) (h : position window bytes = none) :
    position window (bytes ++ chunk) =
      (position window ((bytes ++ chunk).drop (bytes.length - (window.length - 1)))).map
        (bytes.length - (window.length - 1) + ·) := by
  set start := bytes.length - (window.length - 1) with hstart
  have hpos : 0 < window.length := List.length_pos_of_ne_nil hw
  have hbefore : ∀ j < start, ¬window <+: (bytes ++ chunk).drop j := by
    intro j hj hp
    rw [prefix_drop_append (by omega)] at hp
    exact position_eq_none.mp h j (by omega) hp
  have hle : start ≤ (bytes ++ chunk).length := by
    rw [List.length_append]
    omega
  cases hk : position window ((bytes ++ chunk).drop start) with
  | none =>
    refine position_eq_none.mpr fun j hj hp => ?_
    rcases Nat.lt_or_ge j start with hlt | hge
    · exact hbefore j hlt hp
    · refine position_eq_none.mp hk (j - start) ?_ ?_
      · rw [List.length_drop]
        omega
      · rwa [List.drop_drop, Nat.add_sub_cancel' hge]
  | some k =>
    obtain ⟨⟨hp, hlen⟩, hmin⟩ := position_eq_some.mp hk
    rw [List.drop_drop] at hp
    rw [List.length_drop] at hlen
    change position window (bytes ++ chunk) = some (start + k)
    refine position_eq_some.mpr ⟨⟨hp, by omega⟩, fun j hj hpj => ?_⟩
    rcases Nat.lt_or_ge j start with hlt | hge
    · exact hbefore j hlt hpj
    · refine hmin (j - start) (by omega) ?_
      rwa [List.drop_drop, Nat.add_sub_cancel' hge]

end

section

variable {T : Type} (codec : Codec T)

/-- The header in front of the first `value` key within `limit` bytes. -/
def scanHeader (limit : ℕ) (bytes : Bytes) : Option Header :=
  (position valueKey (bytes.take limit)).bind fun at' => codec.header (bytes.take at' ++ [0x7d])

/-- What `live` looks for in the entry of `digest`. -/
def Live (digest : Name) (now limit : ℕ) (bytes : Bytes) : Prop :=
  ∃ header, scanHeader codec limit bytes = some header ∧ header.consistent = true ∧ header.digest = digest ∧
    now ≤ header.staleUntilMs

/-- What a scan of `bytes` has read so far, without having met the `value` key. -/
structure Scanned (limit : ℕ) (bytes read : Bytes) : Prop where
  start : read = bytes.take read.length
  within : read.length ≤ limit
  unmet : position valueKey read = none

namespace Scanned

variable {codec} {limit n : ℕ} {bytes read : Bytes}

lemma nil : Scanned limit bytes [] :=
  ⟨by simp, by simp, rfl⟩

/-- A scan that stops short of the key finds no header. -/
lemma none_of_take (h : Scanned limit bytes read) (hall : bytes.take limit = read) : scanHeader codec limit bytes = none := by
  rw [scanHeader, hall, h.unmet]
  rfl

lemma at_limit (h : Scanned limit bytes read) (hlimit : limit ≤ read.length) : scanHeader codec limit bytes = none := by
  refine h.none_of_take ?_
  rw [h.start, Nat.le_antisymm h.within hlimit]

lemma at_end (h : Scanned limit bytes read) (hend : bytes.length ≤ read.length) : scanHeader codec limit bytes = none := by
  have hwithin := h.within
  refine h.none_of_take ?_
  rw [h.start, List.take_of_length_le hend, List.take_of_length_le (by omega)]

lemma append (h : Scanned limit bytes read) : read ++ (bytes.drop read.length).take n = bytes.take (read.length + n) := by
  rw [List.take_add, ← h.start]

/-- The key in the next chunk, with the overlap in front of it, is the first of all. -/
lemma found (h : Scanned limit bytes read) (hn : n ≤ limit - read.length) {k : ℕ}
    (hk : position valueKey ((read ++ (bytes.drop read.length).take n).drop (read.length - (valueKey.length - 1))) = some k) :
    scanHeader codec limit bytes = codec.header ((read ++ (bytes.drop read.length).take n).take
      (read.length - (valueKey.length - 1) + k) ++ [0x7d]) := by
  have hwithin := h.within
  have hoverlap := @position_overlap _ _ ((bytes.drop read.length).take n) (by decide) h.unmet
  rw [hk, h.append, Option.map_some] at hoverlap
  have hlen := position_length hoverlap
  have hlimit : bytes.take limit = bytes.take (read.length + n) ++
      (bytes.drop (read.length + n)).take (limit - (read.length + n)) := by
    rw [← List.take_add]
    congr 1
    omega
  rw [scanHeader, hlimit, position_append hoverlap, Option.bind_some, h.append, List.take_take, Nat.min_eq_left]
  rw [List.length_take] at hlen
  omega

lemma more (h : Scanned limit bytes read) (hn : n ≤ limit - read.length)
    (hk : position valueKey ((read ++ (bytes.drop read.length).take n).drop (read.length - (valueKey.length - 1))) = none) :
    Scanned limit bytes (read ++ (bytes.drop read.length).take n) := by
  have hwithin := h.within
  have hoverlap := @position_overlap _ _ ((bytes.drop read.length).take n) (by decide) h.unmet
  refine ⟨?_, ?_, by rw [hoverlap, hk]; rfl⟩
  · rw [h.append, List.length_take, List.take_eq_take_iff]
    omega
  · rw [h.append, List.length_take]
    omega

end Scanned

end

end Unixd.Cache
