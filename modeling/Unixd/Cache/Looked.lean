import Unixd.Cache.Failing

/-!
# A lookup on its own

What a lookup of an entry that is there answers and what it leaves behind while nobody else takes a step, whatever
calls fail: it answers right, or it passes a failed call on and has changed nothing.
-/

namespace Unixd.Cache

open Unixd.Lib Protocol.Scope

set_option linter.unusedSectionVars false

variable {A V T : Type} [DecidableEq A] {faults : Op V → Prop} {tick : ℕ → ℕ → Prop} {a : A} {v : Scene A} {ℓ : Margin A V}
  {path : Path} {i : ℕ} {node : Node} {X : Error → World A V → Prop} {codec : Codec T} {inner : Inner} {key : Key}
  {locked : Bool}

/-- What is at a path goes, or a call fails. -/
lemma solo_remove {why : Why} (hfind : v.find path = some (i, node)) (hmay : ℓ.may (.unlinked path why)) :
    Solo faults tick a (Sees a v ℓ) (remove path why : M V Unit) (fun _ => Sees a (v.less (v.extent path)) ℓ)
      (Broken faults a v ℓ) := by
  refine .bind solo_lstat fun r => .or (.imp fun hr => ?_) fun w _ h => ?_
  · subst hr
    rw [Scene.lstat_some hfind]
    dsimp only
    by_cases hkind : (node.metadata i).kind = .dir
    · rw [if_pos hkind]
      refine .bind (solo_removeTree hfind hkind hmay) fun r => .or (.imp fun hr => ?_) fun w _ h => ?_
      · subst hr
        exact .pure fun _ _ h => h
      · obtain ⟨code, rfl⟩ := h.2.1
        exact .ret (h.broken _)
    · rw [if_neg hkind]
      refine .bind (solo_unlink hfind hkind hmay) fun r => .or (.imp fun hr => ?_) fun w _ h => ?_
      · subst hr
        exact .pure fun _ _ h => h
      · obtain ⟨code, rfl⟩ := h.2.1
        exact .ret (h.broken _)
  · obtain ⟨code, rfl⟩ := h.2.1
    exact .ret (h.broken _)

/-- What a hit makes of the entry: its use is recorded, unless one was recorded lately. -/
def Scene.recorded (v : Scene A) (inner : Inner) (key : Key) (i : ℕ) (node : Node) : Scene A :=
  if millis inner.limits.touchAfter < v.clock - modifiedMs (node.metadata i) then
    v.put (entryPath key.digest) (some (i, { node with modified := millisecond v.clock }))
  else v

open Classical in
/-- What a lookup makes of the scene where no call fails. -/
noncomputable def Scene.looked (v : Scene A) (codec : Codec T) (inner : Inner) (key : Key) (locked : Bool) (i : ℕ)
    (node : Node) : Scene A :=
  if Discards codec inner key (some (.file, node.bytes)) v.clock then
    if locked then v.put (entryPath key.digest) none else v
  else if answer codec inner key (some (.file, node.bytes)) v.clock = .miss then v
  else v.recorded inner key i node

lemma Scene.clock_looked : (v.looked codec inner key locked i node).clock = v.clock := by
  unfold Scene.looked Scene.recorded
  split_ifs <;> rfl

/-- A lookup takes an entry away where the key is locked and the entry of no use. -/
lemma Scene.find_looked (hfind : v.find (entryPath key.digest) = some (i, node)) :
    (v.looked codec inner key locked i node).find (entryPath key.digest) = none ↔
      locked = true ∧ Discards codec inner key (some (.file, node.bytes)) v.clock := by
  have hthere : v.find (entryPath key.digest) ≠ none := by simp [hfind]
  unfold Scene.looked
  split
  · rename_i hdiscards
    cases locked with
    | false => simp [hthere]
    | true => exact iff_of_true (Scene.find_put_self _) ⟨rfl, hdiscards⟩
  · rename_i hkeep
    refine iff_of_false ?_ fun h => hkeep h.2
    split
    · exact hthere
    · unfold Scene.recorded
      split
      · rw [Scene.find_put_self]
        simp
      · exact hthere

/-- After a lookup: it has answered right and left the scene as it does, or as it was after a failed call. -/
def Answered (faults : Op V → Prop) (a : A) (v : Scene A) (ℓ : Margin A V) (codec : Codec T) (inner : Inner) (key : Key)
    (locked : Bool) (i : ℕ) (node : Node) (r : Lookup T) (w : World A V) : Prop :=
  r = answer codec inner key (some (.file, node.bytes)) v.clock ∧
    (Sees a (v.looked codec inner key locked i node) ℓ w ∨ ∃ e, Broken faults a v ℓ e w)

lemma answer_of_discards {content : Option (Kind × Bytes)} {n : ℕ} (h : Discards codec inner key content n) :
    answer codec inner key content n = .miss := by
  unfold Discards at h
  unfold answer
  split
  · rfl
  · rename_i bytes hr
    rw [hr] at h
    dsimp only at h
    rw [h]

lemma solo_discard (hfind : v.find (entryPath key.digest) = some (i, node)) (hkind : node.kind = .file)
    (h : Discards codec inner key (some (.file, node.bytes)) v.clock)
    (hmay : locked = true → ℓ.may (.unlinked (entryPath key.digest) .discard)) :
    Solo faults tick a (Sees a v ℓ) (discard (entryPath key.digest) locked : M V (Lookup T))
      (Answered faults a v ℓ codec inner key locked i node) X := by
  have hmiss := answer_of_discards h
  have hscene : v.looked codec inner key locked i node = if locked then v.put (entryPath key.digest) none else v := if_pos h
  unfold discard
  cases locked with
  | false => exact .pure fun w _ hw => ⟨hmiss.symm, Or.inl (hscene ▸ hw)⟩
  | true =>
    have hextent : v.less (v.extent (entryPath key.digest)) = v.put (entryPath key.digest) none := by
      rw [Scene.put_none, Scene.extent_of_ne_dir]
      intro j x hx
      rw [hfind, Option.some_inj, Prod.mk.injEq] at hx
      rw [← hx.2, hkind]
      decide
    refine .bind (.attempt (T := Upshot (fun _ => Sees a (v.put (entryPath key.digest) none) ℓ) (Broken faults a v ℓ))
      (Lone.mono (solo_remove hfind (hmay rfl)) (fun _ => id) (fun _ _ hw => hextent ▸ hw) fun _ _ => id)) ?_
    rintro (e | ⟨⟩)
    · exact .pure fun w _ hw => ⟨hmiss.symm, Or.inr ⟨e, hw⟩⟩
    · exact .pure fun w _ hw => ⟨hmiss.symm, Or.inl (hscene ▸ hw)⟩

/-- The end of a lookup that hits. -/
lemma solo_hit (hfind : v.find (entryPath key.digest) = some (i, node)) (hkind : node.kind = .file)
    (hone : ∀ p x, v.find p = some (i, x) → p = entryPath key.digest) {header : Header} {value : T}
    (hkeep : ¬Discards codec inner key (some (.file, node.bytes)) v.clock)
    (hanswer : answer codec inner key (some (.file, node.bytes)) v.clock =
      if header.schema = inner.schema ∧ v.clock ≤ header.freshUntilMs then
        .fresh ⟨value, header.storedAtMs, v.clock - header.storedAtMs, header.source⟩
      else .stale ⟨value, header.storedAtMs, v.clock - header.storedAtMs, header.source⟩) :
    Solo faults tick a (Sees a v ℓ) (do
        if millis inner.limits.touchAfter < v.clock - modifiedMs (node.metadata i) then
          let _ ← Prog.attempt (touch (entryPath key.digest) v.clock)
        let cached := ⟨value, header.storedAtMs, v.clock - header.storedAtMs, header.source⟩
        if header.schema = inner.schema ∧ v.clock ≤ header.freshUntilMs then
          return .fresh cached
        else
          return .stale cached)
      (Answered faults a v ℓ codec inner key locked i node) X := by
  have hhit : answer codec inner key (some (.file, node.bytes)) v.clock ≠ .miss := by
    rw [hanswer]
    split <;> simp
  have hscene : v.looked codec inner key locked i node = v.recorded inner key i node := by
    rw [Scene.looked, if_neg hkeep, if_neg hhit]
  have hlast : ∀ {S : World A V → Prop}, (∀ w, S w → Sees a (v.recorded inner key i node) ℓ w ∨ ∃ e, Broken faults a v ℓ e w) →
      Solo faults tick a S (if header.schema = inner.schema ∧ v.clock ≤ header.freshUntilMs then
          pure (.fresh ⟨value, header.storedAtMs, v.clock - header.storedAtMs, header.source⟩)
        else pure (.stale ⟨value, header.storedAtMs, v.clock - header.storedAtMs, header.source⟩) : M V _)
        (Answered faults a v ℓ codec inner key locked i node) X := by
    intro S hS
    split
    · rename_i hfresh
      rw [if_pos hfresh] at hanswer
      exact .pure fun w _ hw => ⟨hanswer.symm, hscene ▸ hS w hw⟩
    · rename_i hfresh
      rw [if_neg hfresh] at hanswer
      exact .pure fun w _ hw => ⟨hanswer.symm, hscene ▸ hS w hw⟩
  dsimp only
  split
  · rename_i hdue
    have hrecorded : v.recorded inner key i node =
        v.put (entryPath key.digest) (some (i, { node with modified := millisecond v.clock })) := if_pos hdue
    refine .bind (.attempt (T := fun _ w => Sees a (v.recorded inner key i node) ℓ w ∨ ∃ e, Broken faults a v ℓ e w)
      (Lone.mono (solo_touch hfind hkind hone) (fun _ => id) (fun _ _ hw => Or.inl (hrecorded ▸ hw)) fun e _ hw => Or.inr ⟨e, hw⟩))
        fun r => hlast fun _ => id
  · rename_i hrecent
    have hrecorded : v.recorded inner key i node = v := if_neg hrecent
    exact hlast fun w hw => Or.inl (hrecorded.symm ▸ hw)

/-- A lookup of an entry that is there. -/
theorem solo_lookup (hentries : v.OwnDir entries) (hfind : v.find (entryPath key.digest) = some (i, node))
    (hkind : node.kind = .file) (hone : ∀ p x, v.find p = some (i, x) → p = entryPath key.digest)
    (hmay : Discards codec inner key (some (.file, node.bytes)) v.clock → locked = true →
      ℓ.may (.unlinked (entryPath key.digest) .discard)) :
    Solo faults tick a (Sees a v ℓ) (read codec inner key locked) (Answered faults a v ℓ codec inner key locked i node)
      (Erred faults a v ℓ) := by
  have hdiscard : Discards codec inner key (some (.file, node.bytes)) v.clock → Solo faults tick a (Sees a v ℓ)
      (discard (entryPath key.digest) locked : M V (Lookup T)) (Answered faults a v ℓ codec inner key locked i node)
        (Erred faults a v ℓ) := fun h => solo_discard hfind hkind h (hmay h)
  refine .bind (solo_ensureDir_erred hentries) fun _ => ?_
  refine .bind (solo_readFile hfind hkind inner.limits.maxEntry) fun r => .imp fun hr => ?_
  subst hr
  by_cases hsize : inner.limits.maxEntryBytes < node.bytes.length
  · rw [if_pos hsize]
    refine hdiscard ?_
    rw [Discards, readable_eq_none (Or.inr hsize)]
    trivial
  rw [if_neg hsize]
  have hout : ∀ n, (verdict codec inner key node.bytes n = .useless → Discards codec inner key (some (.file, node.bytes)) n) ∧
      (verdict codec inner key node.bytes n = .newer → ¬Discards codec inner key (some (.file, node.bytes)) n ∧
        answer codec inner key (some (.file, node.bytes)) n = .miss) ∧
      ∀ l, verdict codec inner key node.bytes n = .hit l → ¬Discards codec inner key (some (.file, node.bytes)) n ∧
        answer codec inner key (some (.file, node.bytes)) n = l := by
    intro n
    unfold Discards answer
    rw [readable_file (Nat.le_of_not_lt hsize)]
    refine ⟨id, fun hv => ?_, fun l hv => ?_⟩
    · simp [hv]
    · simp [hv]
  unfold verdict at hout
  dsimp only
  cases hheader : codec.header node.bytes with
  | none =>
    simp only [hheader] at hout ⊢
    exact hdiscard ((hout _).1 trivial)
  | some header =>
    simp only [hheader] at hout ⊢
    by_cases hnewer : inner.schema < header.schema
    · simp only [if_pos hnewer] at hout ⊢
      obtain ⟨hkeep, hmiss⟩ := (hout v.clock).2.1 trivial
      refine .pure fun w _ hw => ⟨hmiss.symm, Or.inl ?_⟩
      rwa [Scene.looked, if_neg hkeep, if_pos hmiss]
    · simp only [if_neg hnewer] at hout ⊢
      by_cases hbad : ¬header.consistent ∨ header.digest ≠ key.digest ∨ header.space ≠ key.space
      · simp only [if_pos hbad]
        exact hdiscard ((hout _).1 (by rw [if_pos (Or.inl hbad)]))
      · simp only [if_neg hbad]
        refine .bind solo_now fun now => .imp fun hnow => ?_
        subst hnow
        by_cases hstale : header.staleUntilMs < v.clock
        · simp only [if_pos hstale]
          exact hdiscard ((hout _).1 (by rw [if_pos (Or.inr hstale)]))
        · simp only [if_neg hstale]
          have hgood : ¬((¬header.consistent ∨ header.digest ≠ key.digest ∨ header.space ≠ key.space) ∨
              header.staleUntilMs < v.clock) := not_or.mpr ⟨hbad, hstale⟩
          specialize hout v.clock
          rw [if_neg hgood] at hout
          cases hvalue : codec.value node.bytes with
          | none =>
            simp only [hvalue] at hout ⊢
            exact hdiscard (hout.1 trivial)
          | some value =>
            simp only [hvalue] at hout ⊢
            by_cases hfresh : header.schema = inner.schema ∧ v.clock ≤ header.freshUntilMs
            · rw [if_pos hfresh] at hout
              obtain ⟨hkeep, hanswer⟩ := hout.2.2 _ rfl
              exact solo_hit hfind hkind hone hkeep (by rw [if_pos hfresh, hanswer])
            · rw [if_neg hfresh] at hout
              obtain ⟨hkeep, hanswer⟩ := hout.2.2 _ rfl
              exact solo_hit hfind hkind hone hkeep (by rw [if_neg hfresh, hanswer])

section

variable {w w' : World A V}

/-- A call of `a` failed between `w` and `w'`. -/
def FailsBetween (faults : Op V → Prop) (a : A) (w w' : World A V) : Prop :=
  ∃ op, faults op ∧ ⟨a, .failed op⟩ ∈ w'.journal.drop w.journal.length

lemma Broken.fails {e : Error} (h : Broken faults a v w.margin e w') : FailsBetween faults a w w' ∧ w'.scene = v := by
  obtain ⟨j, ⟨op, hop, hmem⟩, -, hsees⟩ := h
  obtain ⟨added, hj, -⟩ := hsees.journal
  refine ⟨⟨op, hop, ?_⟩, hsees.scene⟩
  change _ ∈ w'.journal.drop w.margin.before.length
  rw [hj]
  change _ ∈ (j ++ added).drop _
  rw [List.drop_append]
  exact List.mem_append_left _ hmem

/-- What a lookup tells of the entry that it found: its answer, and what becomes of the root. -/
def Lookup.Tells (faults : Op V → Prop) (a : A) (codec : Codec T) (inner : Inner) (key : Key) (locked : Bool) (i : ℕ) (node : Node)
    (w w' : World A V) : Except Error (Lookup T) → Prop
  | .error e => (∃ code, e = .io (.other code)) ∧ FailsBetween faults a w w' ∧ w'.scene = w.scene
  | .ok r => r = answer codec inner key (some (.file, node.bytes)) w.clock ∧
    (w'.scene = w.scene.looked codec inner key locked i node ∨ FailsBetween faults a w w' ∧ w'.scene = w.scene)

lemma Lookup.Tells.gone {r : Except Error (Lookup T)} (h : Lookup.Tells faults a codec inner key locked i node w w' r)
    (hfind : w.find (entryPath key.digest) = some (i, node)) (hgone : w'.find (entryPath key.digest) = none) :
    r = .ok .miss ∧ locked = true ∧ Discards codec inner key (some (.file, node.bytes)) w.clock := by
  have hthere : ¬w'.scene = w.scene := by
    intro hscene
    rw [← World.scene_find, hscene, World.scene_find, hfind] at hgone
    cases hgone
  rcases r with e | r
  · exact absurd h.2.2 hthere
  · obtain ⟨hr, hscene | ⟨-, hscene⟩⟩ := h
    · rw [← World.scene_find, hscene, Scene.find_looked (by rw [World.scene_find, hfind])] at hgone
      exact ⟨hr ▸ congrArg Except.ok (answer_of_discards hgone.2), hgone⟩
    · exact absurd hscene hthere

/-- A lookup of an entry that is there, where any calls may fail, ends; it answers what the entry is worth, or passes a
failed call on and leaves the root as it was. The entry goes only where the key is locked and the entry of no use. -/
theorem lookup_tells (hentries : w.scene.OwnDir entries) (hfind : w.find (entryPath key.digest) = some (i, node))
    (hkind : node.kind = .file) (hone : ∀ p x, w.find p = some (i, x) → p = entryPath key.digest) :
    (∃ r w', (read codec inner key locked : M V _).Ends (machine A V faults tick) a w r w') ∧
      ∀ r w', (read codec inner key locked : M V _).Ends (machine A V faults tick) a w r w' →
        Lookup.Tells faults a codec inner key locked i node w w' r ∧ (w'.find (entryPath key.digest) = none →
          r = .ok .miss ∧ locked = true ∧ Discards codec inner key (some (.file, node.bytes)) w.clock) := by
  have hsolo := @solo_lookup _ _ _ _ faults tick a _ w.margin _ _ codec inner key locked hentries hfind hkind hone fun _ _ => trivial
  obtain ⟨hrun, hends⟩ := Lone.ends hsolo (w.sees a)
  refine ⟨hrun, fun r w' h => ?_⟩
  have htells : Lookup.Tells faults a codec inner key locked i node w w' r := by
    have hend := hends r w' h
    rcases r with e | r
    · exact ⟨hend.1, hend.2.fails⟩
    · obtain ⟨hr, hsees | ⟨e, hbroken⟩⟩ := hend
      · exact ⟨hr, Or.inl hsees.scene⟩
      · exact ⟨hr, Or.inr hbroken.fails⟩
  exact ⟨htells, htells.gone hfind⟩

end

/-- A root with one entry. -/
def withEntry (bytes : Bytes) (clock : ℕ) : World Unit Unit :=
  World.of (rootWith (stored [(digestA, .holding bytes 0)] [])) clock

lemma extra_withEntry (bytes : Bytes) : Extra (stored [(digestA, .holding bytes 0)] []) :=
  extra_stored (by simp) List.nodup_nil (by simp [Node.holding])

lemma find_withEntry (bytes : Bytes) (clock : ℕ) : ∃ i, (withEntry bytes clock).find (entryPath keyA.digest) = some (i, { Node.holding bytes 0 with mode := 0 }) ∧
    ∀ p x, (withEntry bytes clock).find p = some (i, x) → p = entryPath keyA.digest := by
  have hmem : (entryPath digestA, Node.holding bytes 0) ∈ rootWith (stored [(digestA, .holding bytes 0)] []) :=
    List.mem_append_right _ (List.mem_singleton.mpr rfl)
  obtain ⟨i, hfind⟩ := @World.find_of_mem Unit Unit _ _ clock _ _ (rootWith_nodup (extra_withEntry bytes)) hmem
  refine ⟨i, hfind, fun p x hp => ?_⟩
  obtain ⟨_, hx, -⟩ := World.find_of hp
  obtain ⟨_, hy, -⟩ := World.find_of hfind
  rw [hx, Option.some_inj, Prod.mk.injEq] at hy
  exact hy.1

/-- The entry cannot be opened. -/
def noOpen : Op Unit → Prop
  | .openRead path _ => path = entryPath digestA
  | _ => False

/-- The entry that a store of no interest writes at the time 0. -/
lemma exists_briefly : ∃ bytes, Serde.unit.codec.encode (.at roomy keyA 0 () briefly) = some bytes ∧
    bytes.length ≤ roomy.limits.maxEntryBytes := by
  have hlength : (Serde.unit.codec.encode (.at roomy keyA 0 () briefly)).map List.length = some 208 := rfl
  obtain ⟨bytes, hencode, hbytes⟩ := Option.map_eq_some_iff.mp hlength
  refine ⟨bytes, hencode, ?_⟩
  rw [hbytes]
  decide

theorem lookup_tells_denied : ∃ bytes i node r w', Serde.unit.codec.encode (.at roomy keyA 0 () briefly) = some bytes ∧
    (read Serde.unit.codec roomy keyA true : M Unit (Lookup Unit)).Ends (machine Unit Unit noOpen fun _ _ => True) ()
      (withEntry bytes 0) r w' ∧
    Lookup.Tells noOpen () Serde.unit.codec roomy keyA true i node (withEntry bytes 0) w' r := by
  obtain ⟨bytes, hencode, -⟩ := exists_briefly
  obtain ⟨i, hfind, hone⟩ := find_withEntry bytes 0
  obtain ⟨⟨r, w', hrun⟩, hends⟩ := @lookup_tells Unit Unit Unit _ noOpen (fun _ _ => True) () i _ Serde.unit.codec roomy keyA true
    (withEntry bytes 0) (fit_rootWith (extra_withEntry bytes)).entries hfind rfl hone
  exact ⟨bytes, i, _, r, w', hencode, hrun, (hends r w' hrun).1⟩

end Unixd.Cache
