import Unixd.Cache.Codec

/-!
# The horizons of an entry

What an entry that a store wrote is worth to every later lookup and to a prune, as a function of the
time: fresh, then stale, then nothing.
-/

namespace Unixd.Cache

open Unixd.Lib

def freshUntil (n : ℕ) (policy : Policy) : ℕ :=
  satAdd n (millis policy.fresh)

def staleUntil (n : ℕ) (policy : Policy) : ℕ :=
  satAdd (freshUntil n policy) (millis policy.staleIfError)

variable {T : Type}

/-- What a lookup with schema `schema'` gives at the time `t` of a value stored with `schema` at `n`. -/
def due (schema' schema n : ℕ) (value : T) (policy : Policy) (t : ℕ) : Lookup T :=
  if schema' < schema then .miss
  else if staleUntil n policy < t then .miss
  else if schema' = schema ∧ t ≤ freshUntil n policy then .fresh ⟨value, n, t - n, policy.source⟩
  else .stale ⟨value, n, t - n, policy.source⟩

def Lookup.phase : Lookup T → ℕ
  | .fresh _ => 0
  | .stale _ => 1
  | .miss => 2

lemma freshUntil_le_staleUntil {n : ℕ} (policy : Policy) (hn : n ≤ u64Max) :
    n ≤ freshUntil n policy ∧ freshUntil n policy ≤ staleUntil n policy := by
  simp only [staleUntil, freshUntil, satAdd]
  omega

/-- Over time a lookup goes from fresh to stale to nothing. -/
theorem phase_due_mono {schema' schema n : ℕ} {value : T} {policy : Policy} {t t' : ℕ} (h : t ≤ t') :
    (due schema' schema n value policy t).phase ≤ (due schema' schema n value policy t').phase := by
  unfold due
  split_ifs with h1 h2 h3 h4 h5 h6
  all_goals
    simp only [Lookup.phase]
    omega

section

variable {serde : Serde T} {inner inner' : Inner} {key : Key} {n : ℕ} {value : T} {policy : Policy} {bytes : Bytes} {t : ℕ}

lemma fits_at (hn : n ≤ u64Max) : (Written.at inner key n value policy).header.Fits := by
  have hmax : u64Max < 2 ^ 64 := by decide
  have hformat : Cache.format < 2 ^ 8 := by decide
  refine ⟨hformat, inner.fits, ?_, ?_, ?_⟩
  all_goals
    simp only [Written.at, satAdd]
    omega

lemma consistent_at (hn : n ≤ u64Max) : (Written.at inner key n value policy).header.consistent = true := by
  have hle := freshUntil_le_staleUntil policy hn
  rw [Header.consistent, decide_eq_true_eq]
  exact ⟨rfl, hle.1, hle.2⟩

/-- What a lookup makes of an entry depends on the schemas and on the time alone. -/
theorem verdict_encode (h : serde.codec.encode (.at inner key n value policy) = some bytes) (hn : n ≤ u64Max)
    (hvalue : serde.RoundTrips value) :
    verdict serde.codec inner' key bytes t =
      if inner'.schema < inner.schema then .newer
      else if staleUntil n policy < t then .useless
      else .hit (due inner'.schema inner.schema n value policy t) := by
  have hheader := Serde.header_encode h (fits_at hn)
  obtain ⟨json, hjson, -⟩ := Serde.encode_eq_some.mp h
  have hread : serde.codec.value bytes = some value := (Serde.value_encode h hjson).trans (hvalue json hjson)
  have hconsistent := @consistent_at _ inner key _ value policy hn
  rw [verdict, hheader]
  simp only [hconsistent, hread]
  have hschema : (Written.at inner key n value policy).header.schema = inner.schema := rfl
  have hstale : (Written.at inner key n value policy).header.staleUntilMs = staleUntil n policy := rfl
  have hfresh : (Written.at inner key n value policy).header.freshUntilMs = freshUntil n policy := rfl
  have hkey : (Written.at inner key n value policy).header.digest = key.digest ∧
    (Written.at inner key n value policy).header.space = key.space := ⟨rfl, rfl⟩
  rw [hschema, hstale, hfresh, hkey.1, hkey.2]
  unfold due
  split_ifs with h1 h2 h3 h4 h5
  all_goals first
    | rfl
    | simp_all

theorem answer_encode (h : serde.codec.encode (.at inner key n value policy) = some bytes) (hn : n ≤ u64Max)
    (hvalue : serde.RoundTrips value) (hsize : bytes.length ≤ inner'.limits.maxEntryBytes) :
    answer serde.codec inner' key (some (.file, bytes)) t = due inner'.schema inner.schema n value policy t := by
  rw [answer, readable_file hsize]
  simp only [verdict_encode h hn hvalue]
  unfold due
  split_ifs <;> rfl

/-- A locked lookup removes an entry of its own or a lower schema once it is past its stale horizon. -/
theorem discards_encode (h : serde.codec.encode (.at inner key n value policy) = some bytes) (hn : n ≤ u64Max)
    (hvalue : serde.RoundTrips value) (hsize : bytes.length ≤ inner'.limits.maxEntryBytes) :
    Discards serde.codec inner' key (some (.file, bytes)) t ↔ inner.schema ≤ inner'.schema ∧ staleUntil n policy < t := by
  rw [Discards, readable_file hsize]
  simp only [verdict_encode h hn hvalue]
  split_ifs with h1 h2
  · simp [Nat.not_le.mpr h1]
  · simp [Nat.not_lt.mp h1, h2]
  · simp [h2]

/-- An entry is live until its stale horizon, whatever its schema and its value are. -/
theorem live_encode {limit : ℕ} (h : serde.codec.encode (.at inner key n value policy) = some bytes) (hn : n ≤ u64Max)
    (hlimit : bytes.length ≤ limit) : Live serde.codec key.digest t limit bytes ↔ t ≤ staleUntil n policy := by
  have hscan := Serde.scanHeader_encode h (fits_at hn) hlimit
  constructor
  · rintro ⟨header, hheader, -, -, ht⟩
    obtain rfl := Option.some_inj.mp (hscan.symm.trans hheader)
    exact ht
  · intro ht
    exact ⟨_, hscan, consistent_at hn, rfl, ht⟩

end

end Unixd.Cache
