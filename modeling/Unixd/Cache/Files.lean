import Unixd.Cache.Alone
import Unixd.Cache.Scan

/-!
# Files, alone

Reading, touching and removing one file of a known scene.
-/

namespace Unixd.Cache

open Unixd.Lib Protocol.Scope

set_option linter.unusedSectionVars false

variable {A V T α : Type} [DecidableEq A] {faults : Op V → Prop} {tick : ℕ → ℕ → Prop} {a : A} {v : Scene A} {ℓ : Margin A V}
  {path : Path} {i f : ℕ} {node : Node} {o : Open} {X : Error → World A V → Prop}

/-- The file is closed however its scope ends. -/
lemma solo_closing {S : World A V → Prop} {p : M V α} {T : α → Scene A → Prop}
    (hp : Solo faults tick a S p (fun x w => ∃ u o, T x u ∧ u.files a f = none ∧ Sees a (u.setFile a f (some o)) ℓ w)
      fun e w => v.files a f = none ∧ ∃ o, Broken faults a (v.setFile a f (some o)) ℓ e w) :
    Solo faults tick a S (closing f p) (fun x w => ∃ u, T x u ∧ Sees a u ℓ w) (Broken faults a v ℓ) := by
  refine Runs.handle hp (fun x => ?_) fun e => ?_
  · refine .of_exists fun u => .of_exists fun o => .imp fun hT => .imp fun hnone => ?_
    refine .bind (solo_close (Scene.files_setFile_self _)) fun _ => .pure fun w _ h => ⟨u, hT, ?_⟩
    rwa [Scene.setFile_setFile, Scene.setFile_eq_self hnone] at h
  · refine .imp fun hnone => .of_exists fun o => .of_exists fun j => .imp fun hf => .imp fun hj => ?_
    refine .bind (solo_close (Scene.files_setFile_self _)) fun _ => .throw fun w _ h => ⟨j, hf, hj, ?_⟩
    rwa [Scene.setFile_setFile, Scene.setFile_eq_self hnone] at h

lemma solo_syncDir (hdir : v.OwnDir path) :
    Solo faults tick a (Sees a v ℓ) (syncDir path : M V Unit) (fun _ => Sees a v ℓ) (Broken faults a v ℓ) := by
  obtain ⟨i, node, hfind, hkind, -⟩ := hdir
  refine .bind (solo_openRead hfind (Or.inr hkind)) fun r => .or ?_ ?_
  · refine .of_exists fun f => .of_exists fun since => .imp fun hr => .imp fun hnew => ?_
    subst hr
    rw [ofResult_ok_bind]
    refine (solo_closing (T := fun _ u => u = v) ?_).post fun _ w _ h => h.elim fun u hu => hu.1 ▸ hu.2
    refine .bind solo_fsync fun r => .or (.imp fun hr => ?_) ?_
    · subst hr
      exact .pure fun w _ h => ⟨v, _, rfl, hnew, h⟩
    · intro w hi h
      obtain ⟨code, rfl⟩ := h.2.1
      exact .ret ⟨hnew, _, h.broken _⟩
  · intro w hi h
    obtain ⟨code, rfl⟩ := h.2.1
    exact .ret (h.broken _)

/-- The bytes of a file, in chunks of any size. -/
lemma solo_readToEnd {since limit : ℕ} (hfind : v.find path = some (i, node)) :
    Solo faults tick a (Sees a (v.setFile a f (some (.reading path i since 0))) ℓ) (readToEnd f limit : M V Bytes)
      (fun r w => r = node.bytes.take limit ∧ Sees a (v.setFile a f (some (.reading path i since r.length))) ℓ w)
      (fun e w => ∃ pos, Erred faults a (v.setFile a f (some (.reading path i since pos))) ℓ e w) := by
  unfold readToEnd
  refine (Runs.iterate (J := fun n read w => (read = node.bytes.take read.length ∧ read.length ≤ limit ∧ n = limit - read.length) ∧
    Sees a (v.setFile a f (some (.reading path i since read.length))) ℓ w) (fun n read => .imp fun hread => ?_) limit []).pre
      fun w _ h => ⟨⟨by simp, Nat.zero_le _, rfl⟩, h⟩
  obtain ⟨hread, hle, rfl⟩ := hread
  by_cases hfull : limit ≤ read.length
  · rw [if_pos hfull]
    refine .pure fun w _ h => ⟨?_, h⟩
    rw [hread, Nat.le_antisymm hle hfull]
  · rw [if_neg hfull]
    refine .bind (solo_read (Scene.files_setFile_self _) hfind) fun r => .or ?_ ?_
    · refine .of_exists fun n => .imp fun hn => .imp fun hend => .imp fun hr => ?_
      subst hr
      rw [Scene.setFile_setFile]
      change Solo faults tick a (Sees a (v.setFile a f (some (.reading path i since (read.length +
        ((node.bytes.drop read.length).take n).length)))) ℓ) (if (node.bytes.drop read.length).take n = [] then return .inr read
          else return .inl (read ++ (node.bytes.drop read.length).take n) : M V (Bytes ⊕ Bytes)) _ _
      have happend : read ++ (node.bytes.drop read.length).take n = node.bytes.take (read.length + n) := by
        rw [List.take_add, ← hread]
      by_cases hnil : (node.bytes.drop read.length).take n = []
      · rw [if_pos hnil]
        refine .pure fun w _ h => ⟨?_, ?_⟩
        · have hlen : node.bytes.length ≤ read.length := by
            rcases Nat.eq_zero_or_pos n with h0 | h0
            · exact (hend h0).resolve_left (by omega)
            · have hzero := congrArg List.length hnil
              simp only [List.length_take, List.length_drop, List.length_nil] at hzero
              omega
          rw [hread, List.take_of_length_le hlen, List.take_of_length_le (by omega)]
        · rwa [hnil] at h
      · rw [if_neg hnil]
        have hpos : 0 < ((node.bytes.drop read.length).take n).length := List.length_pos_of_ne_nil hnil
        have hlen : ((node.bytes.drop read.length).take n).length ≤ n := by
          rw [List.length_take]
          omega
        refine .pure fun w _ h => ⟨_, ?_, ⟨?_, ?_, rfl⟩, ?_⟩
        · rw [List.length_append]
          omega
        · rw [happend, List.length_take, List.take_eq_take_iff]
          omega
        · rw [List.length_append]
          omega
        · rw [List.length_append]
          exact h
    · intro w hi h
      obtain ⟨code, rfl⟩ := h.2.1
      exact .ret ⟨read.length, ⟨code, rfl⟩, h.broken _⟩

/-- The file is closed after its bytes are read. -/
lemma solo_closing_erred {S : World A V → Prop} {p : M V α} {P : α → Prop}
    (hp : Solo faults tick a S p (fun x w => P x ∧ v.files a f = none ∧ ∃ o, Sees a (v.setFile a f (some o)) ℓ w)
      fun e w => v.files a f = none ∧ ∃ o, Erred faults a (v.setFile a f (some o)) ℓ e w) :
    Solo faults tick a S (closing f p) (fun x w => P x ∧ Sees a v ℓ w) (Erred faults a v ℓ) := by
  refine Runs.handle hp (fun x => ?_) fun e => ?_
  · refine .imp fun hP => .imp fun hnone => .of_exists fun o => ?_
    refine .bind (solo_close (Scene.files_setFile_self _)) fun _ => .pure fun w _ h => ⟨hP, ?_⟩
    rwa [Scene.setFile_setFile, Scene.setFile_eq_self hnone] at h
  · refine .imp fun hnone => .of_exists fun o => .imp fun he => .of_exists fun j => .imp fun hf => .imp fun hj => ?_
    refine .bind (solo_close (Scene.files_setFile_self _)) fun _ => .throw fun w _ h => ⟨he, j, hf, hj, ?_⟩
    rwa [Scene.setFile_setFile, Scene.setFile_eq_self hnone] at h

/-- What a read goes on with where its file was not to be had. -/
lemma solo_missed {limit code : ℕ} {j : List (Event A V)} (hfind : v.find path = some (i, node)) (hkind : node.kind = .file)
    (hf : Failed faults a ℓ j) (hj : ℓ.lax.Holds a j) :
    Solo faults tick a (Sees a v (ℓ.lax.later j)) (do
        match ← Sys.lstat path with
        | .ok metadata => if metadata.kind ≠ .file then return none else throw (.io (.other code))
        | .error .notFound => return none
        | .error _ => throw (.io (.other code)) : M V (Option (Bytes × Metadata)))
      (fun r w => r = (if limit < node.bytes.length then none else some (node.bytes, node.metadata i)) ∧ Sees a v ℓ w)
      (Erred faults a v ℓ) := by
  refine .bind solo_lstat fun r => .or (.imp fun hr => ?_) fun w _ h => ?_
  · subst hr
    rw [Scene.lstat_some hfind]
    simp only [Node.metadata, hkind, ne_eq, not_true_eq_false, if_false]
    exact .throw fun w _ h => ⟨⟨code, rfl⟩, j, hf, hj, h⟩
  · obtain ⟨code', rfl⟩ := h.2.1
    refine .ret ⟨⟨code, rfl⟩, j, hf, hj, h.lax.mono rfl ?_⟩
    rintro what (hmay | hfailed)
    · exact hmay
    · exact Or.inr hfailed

/-- What a lookup gets of a regular file, if no call fails. -/
lemma solo_readFile {limit : ℕ} (hfind : v.find path = some (i, node)) (hkind : node.kind = .file) (hlimit : limit ≤ u64Max) :
    Solo faults tick a (Sees a v ℓ) (readFile path limit : M V _)
      (fun r w => r = (if limit < node.bytes.length then none else some (node.bytes, node.metadata i)) ∧ Sees a v ℓ w)
      (Erred faults a v ℓ) := by
  refine .bind (solo_openRead hfind (Or.inl hkind)) fun r => .or ?_ ?_
  · refine .of_exists fun f => .of_exists fun since => .imp fun hr => .imp fun hnew => ?_
    subst hr
    refine solo_closing_erred (P := fun r => r = if limit < node.bytes.length then none else some (node.bytes, node.metadata i)) ?_
    refine .bind (solo_fstat (Scene.files_setFile_self _) hfind) fun r => .or (.imp fun hr => ?_) ?_
    · subst hr
      rw [ofResult_ok_bind]
      simp only [Open.at, Node.metadata, hkind, ne_eq, not_true_eq_false, false_or]
      by_cases hlarge : limit < node.bytes.length
      · simp only [if_pos hlarge]
        exact .pure fun w _ h => ⟨rfl, hnew, _, h⟩
      · simp only [if_neg hlarge]
        refine .bind (Lone.mono (solo_readToEnd hfind) (fun _ => id) (fun _ _ => id) fun e w h => ?_) fun bytes => .imp fun hbytes => ?_
        · obtain ⟨pos, h⟩ := h
          exact ⟨hnew, _, h⟩
        · rw [List.take_of_length_le (by unfold satAdd; omega)] at hbytes
          subst hbytes
          simp only [if_neg hlarge]
          exact .pure fun w _ h => ⟨rfl, hnew, _, h⟩
    · intro w hi h
      obtain ⟨code, rfl⟩ := h.2.1
      exact .ret ⟨hnew, _, ⟨code, rfl⟩, h.broken _⟩
  · intro w hi h
    obtain ⟨code, rfl⟩ := h.2.1
    obtain ⟨j, hf, hj, hsees⟩ := h.broken (.io (.other code))
    exact solo_missed hfind hkind hf hj w hi hsees

/-- The modification time of a file with one name is set, if it can be. -/
lemma solo_touch {ms : ℕ} (hfind : v.find path = some (i, node)) (hkind : node.kind = .file)
    (hone : ∀ p x, v.find p = some (i, x) → p = path) :
    Solo faults tick a (Sees a v ℓ) (touch path ms : M V Unit)
      (fun _ => Sees a (v.put path (some (i, { node with modified := millisecond ms }))) ℓ) (Broken faults a v ℓ) := by
  refine .bind (solo_openRead hfind (Or.inl hkind)) fun r => .or ?_ ?_
  · refine .of_exists fun f => .of_exists fun since => .imp fun hr => .imp fun hnew => ?_
    subst hr
    rw [ofResult_ok_bind]
    refine (solo_closing (T := fun _ u => u = v.put path (some (i, { node with modified := millisecond ms }))) ?_).post
      fun _ w _ h => h.elim fun u hu => hu.1 ▸ hu.2
    refine .bind (solo_setModified (Scene.files_setFile_self _) hfind hone) fun r => .or (.imp fun hr => ?_) ?_
    · subst hr
      exact .pure fun w _ h => ⟨_, _, rfl, hnew, h⟩
    · intro w hi h
      obtain ⟨code, rfl⟩ := h.2.1
      exact .ret ⟨hnew, _, h.broken _⟩
  · intro w hi h
    obtain ⟨code, rfl⟩ := h.2.1
    exact .ret (h.broken _)

lemma does_remove {why : Why} (hmay : ℓ.may (.unlinked path why)) :
    Does tick a (Sees a v ℓ) (remove path why : M V Unit) fun _ => Sees a (v.less (v.extent path)) ℓ := by
  refine .bind (Does.sure solo_lstat) fun r => .imp fun hr => ?_
  subst hr
  cases hfind : v.find path with
  | none =>
    rw [Scene.lstat_none hfind]
    refine .pure fun w _ h => ?_
    rwa [Scene.less_extent_of_none hfind]
  | some x =>
    obtain ⟨i, node⟩ := x
    rw [Scene.lstat_some hfind]
    dsimp only
    by_cases hkind : (node.metadata i).kind = .dir
    · rw [if_pos hkind]
      refine .bind (Does.sure (solo_removeTree hfind hkind hmay)) fun r => .imp fun hr => ?_
      subst hr
      exact .pure fun _ _ h => h
    · rw [if_neg hkind]
      refine .bind (Does.sure (solo_unlink hfind hkind hmay)) fun r => .imp fun hr => ?_
      subst hr
      exact .pure fun _ _ h => h

/-- Whether a file is at `path`; anything else goes. -/
lemma does_regular (hmay : ℓ.may (.unlinked path (.prune .irregular))) :
    Does tick a (Sees a v ℓ) (regular path : M V (Option Metadata)) fun r w =>
      (∃ i node, v.find path = some (i, node) ∧ node.kind = .file ∧ r = some (node.metadata i) ∧ Sees a v ℓ w) ∨
        (∀ i node, v.find path = some (i, node) → node.kind ≠ .file) ∧ r = none ∧ Sees a (v.less (v.extent path)) ℓ w := by
  refine .bind (Does.sure solo_lstat) fun r => .imp fun hr => ?_
  subst hr
  cases hfind : v.find path with
  | none =>
    rw [Scene.lstat_none hfind]
    refine .pure fun w _ h => Or.inr ⟨by simp, rfl, ?_⟩
    rwa [Scene.less_extent_of_none hfind]
  | some x =>
    obtain ⟨i, node⟩ := x
    rw [Scene.lstat_some hfind]
    dsimp only
    by_cases hkind : (node.metadata i).kind = .file
    · rw [if_pos hkind]
      exact .pure fun w _ h => Or.inl ⟨i, node, rfl, hkind, rfl, h⟩
    · rw [if_neg hkind]
      refine .bind (does_remove hmay) fun _ => .pure fun w _ h => Or.inr ⟨fun j x hx => ?_, rfl, h⟩
      rw [Option.some_inj, Prod.mk.injEq] at hx
      exact hx.2 ▸ hkind

/-- The header of an entry's bytes, in chunks of any size. -/
lemma does_readHeader {codec : Codec T} {limit : ℕ} (hfind : v.find path = some (i, node)) (hkind : node.kind = .file) :
    Does tick a (Sees a v ℓ) (readHeader codec path limit : M V _)
      fun r w => r = scanHeader codec limit node.bytes ∧ Sees a v ℓ w := by
  refine .bind (Does.sure (solo_openRead hfind (Or.inl hkind))) fun r => .of_exists fun f => .of_exists fun since =>
    .imp fun hr => .imp fun hnew => ?_
  subst hr
  refine Runs.post (does_closing (ℓ := ℓ) (T := fun r u => u = v ∧ r = scanHeader codec limit node.bytes) ?_) fun r w _ h => ?_
  · refine (Runs.iterate (J := fun n read w => (Scanned limit node.bytes read ∧ n = limit - read.length) ∧
      Sees a (v.setFile a f (some (.reading path i since read.length))) ℓ w) (fun n read => .imp fun hread => ?_) limit []).pre
        fun w _ h => ⟨⟨Scanned.nil, rfl⟩, h⟩
    obtain ⟨hscan, rfl⟩ := hread
    by_cases hfull : limit ≤ read.length
    · simp only [if_pos hfull]
      exact .pure fun w _ h => ⟨v, _, ⟨rfl, (hscan.at_limit hfull).symm⟩, hnew, h⟩
    · simp only [if_neg hfull]
      refine .bind (Does.sure (solo_read (Scene.files_setFile_self _) hfind)) fun r => .of_exists fun n =>
        .imp fun hn => .imp fun hend => .imp fun hr => ?_
      subst hr
      rw [Scene.setFile_setFile]
      dsimp only [Open.reading, Open.at]
      by_cases hnil : (node.bytes.drop read.length).take n = []
      · simp only [if_pos hnil]
        refine .pure fun w _ h => ⟨v, _, ⟨rfl, (hscan.at_end ?_).symm⟩, hnew, h⟩
        rcases Nat.eq_zero_or_pos n with h0 | h0
        · exact (hend h0).resolve_left (by omega)
        · have hzero := congrArg List.length hnil
          simp only [List.length_take, List.length_drop, List.length_nil] at hzero
          omega
      · simp only [if_neg hnil]
        have hle : n ≤ limit - read.length := by omega
        have hpos : 0 < ((node.bytes.drop read.length).take n).length := List.length_pos_of_ne_nil hnil
        cases hfound : position valueKey ((read ++ (node.bytes.drop read.length).take n).drop
            (read.length - (valueKey.length - 1))) with
        | some at' => exact .pure fun w _ h => ⟨v, _, ⟨rfl, (hscan.found hle hfound).symm⟩, hnew, h⟩
        | none =>
          refine .pure fun w _ h => ⟨_, ?_, ⟨hscan.more hle hfound, rfl⟩, ?_⟩
          · rw [List.length_append]
            omega
          · rw [List.length_append]
            exact h
  · obtain ⟨u, ⟨rfl, hr⟩, h⟩ := h
    exact ⟨hr, h⟩

lemma does_live {codec : Codec T} {digest : Name} {now limit : ℕ} (hd : isDigest digest = true)
    (hfind : v.find (entryPath digest) = some (i, node)) (hkind : node.kind = .file) :
    Does tick a (Sees a v ℓ) (live codec (entryPath digest) now limit : M V _)
      fun r w => (r = true ↔ Live codec digest now limit node.bytes) ∧ Sees a v ℓ w := by
  refine .bind (does_readHeader hfind hkind) fun r => .imp fun hr => ?_
  rcases r with _ | header
  · refine .pure fun w _ h => ⟨?_, h⟩
    simp [Live, ← hr]
  · refine .pure fun w _ h => ⟨?_, h⟩
    rw [entryDigest_entryPath hd]
    simp only [Live, ← hr, Option.some_inj, exists_eq_left', Bool.decide_and, Bool.and_eq_true, decide_eq_true_eq,
      Bool.decide_eq_true]
    exact and_congr_right fun _ => and_congr_left fun _ => eq_comm

end Unixd.Cache
