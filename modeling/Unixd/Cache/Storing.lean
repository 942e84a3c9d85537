import Unixd.Cache.Reading

/-!
# Storing

`writeAtomic` in triples: whatever fails, the entry changes in the one step that renames a file
with all of the bytes, and the temporary file is gone afterwards.
-/

namespace Unixd.Cache

open Unixd.Lib

set_option linter.unusedSectionVars false

variable {A V : Type} [DecidableEq A] {σ : Setting A V} {a : A} {C : (protocol σ).Scope a} {L : Ledger}
  {X : Error → World A V → Prop}

/-- A ledger with the live lock of a key. -/
def Ledger.Holds (L : Ledger) (digest : Name) : Prop :=
  ∃ g o, L g = some o ∧ o.path = lockPath digest ∧ o.held = some .key

lemma Has.holds {w : World A V} {F : World A V → Prop} {digest : Name} (h : Has a L F w) (hL : L.Holds digest) :
    w.Holds a (lockPath digest) .key := by
  obtain ⟨g, o, ho, hp, hheld⟩ := hL
  exact ⟨g, o, h.lookup ho, hp, hheld⟩

/-- What `a` knows through a store: `F` before, `M path i` with the inode `i` at the temporary path, `N path i ms`
once its time is set, `F'` after the rename, and `Y` after a failure. -/
structure Stores (C : (protocol σ).Scope a) (L : Ledger) (digest : Name) (bytes : Bytes) (F : World A V → Prop)
    (M : Path → ℕ → World A V → Prop) (N : Path → ℕ → ℕ → World A V → Prop) (F' Y : World A V → Prop) : Prop where
  calm : Calm C L F
  calmM : ∀ path i, Calm C L (M path i)
  calmN : ∀ path i ms, Calm C L (N path i ms)
  calm' : Calm C L F'
  calmY : Calm C L Y
  failed : ∀ {w}, F w → Y w
  unsynced : ∀ {w op}, Inv σ w → F' w → F' (w.log a (.failed op)) → σ.fails op →
    (op = .openRead entries true ∨ ∃ f, op = .fsync f) → Y (w.log a (.failed op))
  created : ∀ {w w' path i node}, Inv σ w → F w → Called σ a w w' → Inv σ w' → TemporaryOf digest path →
    w.names path = none → w.Free i → w'.names = Function.update w.names path (some i) →
      w'.nodes = Function.update w.nodes i node → w'.journal = w.journal ++ [⟨a, .linked path⟩] → M path i w'
  written : ∀ {w w' path i node}, Inv σ w → M path i w → Called σ a w w' → w'.names = w.names →
    w'.nodes = Function.update w.nodes i node → w'.journal = w.journal → M path i w'
  clock : ∀ {w path i}, Inv σ w → M path i w → M path i (w.log a (.clock w.clock))
  stamped : ∀ {w w₁ w' path i}, Inv σ w₁ → M path i w₁ → Inv σ w → M path i w → Called σ a w w' →
    w' = w.setNode i { w.nodes i with modified := millisecond w₁.clock } → N path i w₁.clock w'
  permits : ∀ {w path i ms}, Inv σ w → N path i ms w → σ.permits w.journal a (.renamed path (entryPath digest) bytes)
  born : ∀ {w path i ms}, Inv σ w → N path i ms w → σ.forward → ∀ s, σ.born bytes = some s → s ≤ ms
  renamed : ∀ {w w' path i ms}, Inv σ w → N path i ms w → Called σ a w w' → Inv σ w' → TemporaryOf digest path →
    w.names path = some i → (w.nodes i).kind = .file → (w.nodes i).bytes = bytes →
      w'.names = Function.update (Function.update w.names path none) (entryPath digest) (some i) → w'.nodes = w.nodes →
        w'.journal = w.journal ++ [⟨a, .renamed path (entryPath digest) bytes⟩] → F' w'
  dropped : ∀ {w w' path i f}, Inv σ w → (M path i w ∨ ∃ ms, N path i ms w) → Called σ a w w' → Inv σ w' →
    TemporaryOf digest path → w'.nodes = w.nodes →
      (w'.names = Function.update w.names path none ∧ w'.journal = w.journal ++ [⟨a, .dropped path⟩] ∨
        σ.fails (.dropTemp f) ∧ w'.names = w.names ∧ w'.journal = w.journal) → Y w'

/-- Why a store failed: a fault, or a directory in the entry's place. -/
def Barred (σ : Setting A V) (N : Path → ℕ → ℕ → World A V → Prop) (digest : Name) : Prop :=
  σ.faults ∨ ∃ w path i ms, Inv σ w ∧ N path i ms w ∧ w.IsDir (entryPath digest)

section

variable {digest : Name} {bytes written : Bytes} {F F' Y : World A V → Prop} {M : Path → ℕ → World A V → Prop}
  {N : Path → ℕ → ℕ → World A V → Prop} {path : Path} {f i since ms : ℕ}

lemma runs_tempfile (h : Stores C L digest bytes F M N F' Y) (hd : isDigest digest = true) (hholds : L.Holds digest) :
    C.Runs (Has a L F) (Sys.tempfile entries (temporaryStart digest) temporarySuffix)
      (fun r w => match r with
        | .ok f => L f = none ∧ ∃ path i since, TemporaryOf digest path ∧
            Has a (Function.update L f (some (.temporary path i since []))) (M path i) w
        | .error _ => Has a L (fun w => Y w ∧ Barred σ N digest) w) X := by
  have hallowed : ∀ w, Inv σ w → Has a L F w → Allowed σ a (.tempfile entries (temporaryStart digest) temporarySuffix) w :=
    fun w _ hw => ⟨digest, hd, rfl, rfl, rfl, hw.holds hholds⟩
  refine sys_call h.calm hallowed ?_ ?_
  · intro w hi _
    obtain ⟨random, hnone⟩ := w.exists_name entries (temporaryStart digest) temporarySuffix
    obtain ⟨j, hname, hkind, -⟩ := hi.entriesDir
    obtain ⟨i, hfree⟩ := w.exists_free
    obtain ⟨f, hf⟩ := w.exists_fd a
    exact ⟨_, _, @Sem.tempfile _ _ _ _ _ _ _ _ _ _ _ 0 _ hnone ⟨j, hname, hkind⟩ hfree hf⟩
  · intro w r w' hi hw hi' hsem
    have hcall : Called σ a w w' := ⟨_, r, by simp [Op.Plain], hallowed w hi hw, hsem⟩
    cases hsem with
    | fault hf hr =>
      obtain ⟨code, rfl⟩ := hr
      exact ⟨hw.1, h.failed (h.calm.failed hi hw (hallowed w hi hw) hf ⟨code, rfl⟩).2, Or.inl ⟨_, hf⟩⟩
    | @tempfile dir start random suffix i f modified _ hnone isDir free new =>
      have hof : TemporaryOf digest (entries ++ [temporaryStart digest ++ random ++ temporarySuffix]) := ⟨random, rfl⟩
      refine ⟨by rw [← hw.1, new], _, i, w.journal.length + 1, hof, ?_, h.created hi hw.2 hcall hi' hof hnone free rfl rfl rfl⟩
      rw [World.files_setFile_self, ← hw.1]
      rfl
    | tempfileNoDir isDir =>
      obtain ⟨j, hname, hkind, -⟩ := hi.entriesDir
      exact absurd ⟨j, hname, hkind⟩ isDir

lemma runs_write (h : Stores C L digest bytes F M N F' Y) (hnew : L f = none) {left : Bytes} :
    C.Runs (Has a (Function.update L f (some (.temporary path i since written))) (M path i)) (Sys.write f left)
      (fun r w => match r with
        | .ok n => (n ≤ left.length ∧ (left ≠ [] → 0 < n)) ∧
            Has a (Function.update L f (some (.temporary path i since (written ++ left.take n)))) (M path i) w
        | .error _ => Has a (Function.update L f (some (.temporary path i since written))) (fun w => M path i w ∧ σ.faults) w)
      X := by
  have hbelow := Ledger.below_update hnew (Open.temporary path i since written)
  have hcalm := (h.calmM path i).below hbelow
  refine sys_call hcalm (fun _ _ _ => trivial) ?_ ?_
  · intro w _ hw
    exact ⟨_, _, @Sem.write _ _ _ _ _ _ _ _ _ _ 0 _ (hw.lookup (Function.update_self _ _ _)) rfl (Nat.le_refl _) List.length_pos_of_ne_nil⟩
  · intro w r w' hi hw _ hsem
    have hcall : Called σ a w w' := ⟨_, r, by simp [Op.Plain], trivial, hsem⟩
    have ho : w.files a f = some (.temporary path i since written) := hw.lookup (Function.update_self _ _ _)
    cases hsem with
    | fault hf hr =>
      obtain ⟨code, rfl⟩ := hr
      have hallowed : Allowed σ a (.write f left) w := trivial
      exact (hcalm.failed hi hw hallowed hf ⟨code, rfl⟩).and ⟨_, hf⟩
    | @write _ _ n o written' modified _ ho' temp le pos =>
      rw [ho, Option.some_inj] at ho'
      subst ho'
      obtain rfl : written = written' := by simpa [Open.temporary] using temp
      refine ⟨⟨le, pos⟩, ?_, h.written hi hw.2 hcall rfl rfl rfl⟩
      rw [World.files_setFile_self]
      change Function.update (w.files a) f _ = _
      rw [hw.1, Function.update_idem]
      rfl

lemma runs_dropTemp (h : Stores C L digest bytes F M N F' Y) (hnew : L f = none) (hof : TemporaryOf digest path)
    {p : Prop} {K : World A V → Prop} (hK : Calm C L K) (hKM : ∀ w, K w → M path i w ∨ ∃ ms, N path i ms w) :
    C.Runs (Has a (Function.update L f (some (.temporary path i since written))) fun w => K w ∧ p) (Sys.dropTemp f)
      (fun _ => Has a (Function.update L f (some (.at path i since))) fun w => Y w ∧ p) X := by
  have hbelow := Ledger.below_update hnew (Open.temporary path i since written)
  refine sys_call ((hK.and (calm_const p)).below hbelow) (fun _ _ _ => trivial)
    (fun w _ hw => ⟨_, _, .dropTemp (hw.lookup (Function.update_self _ _ _)) rfl⟩) ?_
  intro w r w' hi hw hi' hsem
  have hcall : Called σ a w w' := ⟨_, r, by simp [Op.Plain], trivial, hsem⟩
  have ho : w.files a f = some (.temporary path i since written) := hw.lookup (Function.update_self _ _ _)
  have hfiles : Function.update (w.files a) f (some (Open.at path i since)) =
      Function.update L f (some (.at path i since)) := by
    rw [hw.1, Function.update_idem]
  have hY := fun (f : ℕ) => h.dropped (f := f) hi (hKM w hw.2.1) hcall hi' hof
  cases hsem with
  | fault hf hr => exact hr.elim
  | dropTemp ho' temp =>
    rw [ho, Option.some_inj] at ho'
    subst ho'
    exact ⟨(World.files_setFile_self _ _ _ _).trans hfiles, hY f rfl (Or.inl ⟨rfl, rfl⟩), hw.2.2⟩
  | dropTempFails ho' temp why =>
    rw [ho, Option.some_inj] at ho'
    subst ho'
    refine ⟨(World.files_setFile_self _ _ _ _).trans hfiles, hY f rfl (Or.inr ⟨?_, rfl, rfl⟩), hw.2.2⟩
    refine why.resolve_right ?_
    rintro ⟨j, hj, hdir⟩
    obtain ⟨hname, -, hkind, -⟩ := (hi.file ho).temp rfl
    rw [hname, Option.some_inj] at hj
    rw [hj, hdir] at hkind
    cases hkind

lemma runs_persist (h : Stores C L digest bytes F M N F' Y) (hnew : L f = none) (hd : isDigest digest = true)
    (hof : TemporaryOf digest path) :
    C.Runs (Has a (Function.update L f (some (.temporary path i since bytes))) fun w => N path i ms w ∧
        (w.nodes i).modified = millisecond ms) (Sys.persist f (entryPath digest))
      (fun r w => match r with
        | .ok () => Has a (Function.update L f (some (.at (entryPath digest) i since))) F' w
        | .error _ => Has a (Function.update L f (some (.temporary path i since bytes)))
            (fun w => N path i ms w ∧ Barred σ N digest) w) X := by
  have hbelow := Ledger.below_update hnew (Open.temporary path i since bytes)
  have hcalm : Calm C (Function.update L f (some (.temporary path i since bytes))) fun w => N path i ms w ∧
      (w.nodes i).modified = millisecond ms :=
    ((h.calmN path i ms).below hbelow).and (calm_modified (o := .temporary path i since bytes) (Function.update_self _ _ _)
      (by simp [Open.temporary]) _)
  have hallowed : ∀ w, Inv σ w → Has a (Function.update L f (some (.temporary path i since bytes))) (fun w => N path i ms w ∧
      (w.nodes i).modified = millisecond ms) w → Allowed σ a (.persist f (entryPath digest)) w := by
    intro w hi hw o ho
    rw [hw.lookup (by simp : _ = some (Open.temporary path i since bytes)), Option.some_inj] at ho
    subst ho
    refine ⟨rfl, rfl, bytes, digest, rfl, hd, hof, rfl, h.permits hi hw.2.1, fun hforward s hs => ?_⟩
    change millisecond s ≤ (w.nodes i).modified
    rw [hw.2.2]
    have hle := h.born hi hw.2.1 hforward s hs
    unfold millisecond
    omega
  refine sys_call hcalm hallowed ?_ ?_
  · intro w hi hw
    have ho : w.files a f = some (.temporary path i since bytes) := hw.lookup (Function.update_self _ _ _)
    by_cases hdir : w.IsDir (entryPath digest)
    · exact ⟨_, w, @Sem.persistOther _ _ _ _ _ _ _ _ 0 hdir⟩
    · exact ⟨_, _, .persist ho rfl ((hi.file ho).temp rfl).1 hdir⟩
  · intro w r w' hi hw hi' hsem
    have hcall : Called σ a w w' := ⟨_, r, by simp [Op.Plain], hallowed w hi hw, hsem⟩
    have ho : w.files a f = some (.temporary path i since bytes) := hw.lookup (Function.update_self _ _ _)
    obtain ⟨hname, -, hkind, hbytes, -⟩ := (hi.file ho).temp rfl
    cases hsem with
    | fault hf hr =>
      obtain ⟨code, rfl⟩ := hr
      have hstill := hcalm.failed hi hw (hallowed w hi hw) hf ⟨code, rfl⟩
      exact ⟨hstill.1, hstill.2.1, Or.inl ⟨_, hf⟩⟩
    | @persist _ _ o j written' _ ho' temp src file =>
      rw [ho, Option.some_inj] at ho'
      subst ho'
      rw [hname, Option.some_inj] at src
      subst src
      refine ⟨?_, h.renamed hi hw.2.1 hcall hi' hof hname hkind hbytes rfl rfl (by rw [hbytes]; rfl)⟩
      rw [World.files_setFile_self]
      change Function.update (w.files a) f _ = _
      rw [hw.1, Function.update_idem]
      rfl
    | persistMissing ho' src =>
      rw [ho, Option.some_inj] at ho'
      subst ho'
      simp [hname] at src
    | persistOther hdir => exact ⟨hw.1, hw.2.1, Or.inr ⟨w, path, i, ms, hi, hw.2.1, hdir⟩⟩

lemma runs_writeAll (h : Stores C L digest bytes F M N F' Y) (hnew : L f = none) :
    C.Runs (Has a (Function.update L f (some (.temporary path i since []))) (M path i)) (writeAll f bytes)
      (fun _ => Has a (Function.update L f (some (.temporary path i since bytes))) (M path i))
      (fun _ w => ∃ written, Has a (Function.update L f (some (.temporary path i since written)))
        (fun w => M path i w ∧ σ.faults) w) := by
  unfold writeAll
  refine .pre (.iterate (J := fun n left w => n = left.length ∧ ∃ written, written ++ left = bytes ∧
    Has a (Function.update L f (some (.temporary path i since written))) (M path i) w)
      (fun n left => .imp fun hn => .of_exists fun written => .imp fun hsplit => ?_) bytes.length bytes)
        fun w _ hw => ⟨rfl, [], rfl, hw⟩
  by_cases hleft : left = []
  · subst hleft
    simp only [if_true]
    refine .pure fun w _ hw => ?_
    rwa [← hsplit, List.append_nil]
  · simp only [if_neg hleft]
    refine runs_ofResult_bind (T := fun k w => (k ≤ left.length ∧ (left ≠ [] → 0 < k)) ∧
      Has a (Function.update L f (some (.temporary path i since (written ++ left.take k)))) (M path i) w)
        ((runs_write h hnew).post ?_) fun k => .imp fun hk => .pure ?_
    · rintro (e | k) w _ hw
      · exact ⟨written, hw⟩
      · exact hw
    · intro w _ hw
      refine ⟨(left.drop k).length, ?_, rfl, _, ?_, hw⟩
      · have hpos := hk.2 hleft
        rw [hn, List.length_drop]
        omega
      · rw [List.append_assoc, List.take_append_drop, hsplit]

/-- Whatever fails before the rename, the temporary file is dropped. -/
theorem runs_writeAtomic (h : Stores C L digest bytes F M N F' Y) (hd : isDigest digest = true) (hholds : L.Holds digest) :
    C.Runs (Has a L F) (writeAtomic digest bytes) (fun _ => Has a L F')
      (fun _ => Has a L fun w => Y w ∧ Barred σ N digest) := by
  have hbarred : σ.faults → Barred σ N digest := Or.inl
  have hentries : Blamed σ F (·.OwnDir entries) → σ.faults := fun hb => hb fun w hi _ => hi.entriesDir
  unfold writeAtomic
  refine .bind (U := fun _ => Has a L F) ((runs_ensureDir h.calm (Or.inl rfl)).mono (fun _ _ => id)
    (fun _ _ _ hw => ⟨hw.1, hw.2.1⟩) fun _ _ _ hw => ⟨hw.1, h.failed hw.2.1, hbarred (hentries hw.2.2)⟩) fun _ => ?_
  refine runs_ofResult_bind (T := fun f w => L f = none ∧ ∃ path i since, TemporaryOf digest path ∧
    Has a (Function.update L f (some (.temporary path i since []))) (M path i) w)
      ((runs_tempfile h hd hholds).post ?_) fun f => .imp fun hnew => .of_exists fun path => .of_exists fun i =>
        .of_exists fun since => .imp fun hof => ?_
  · rintro (e | f) w _ hw
    · exact hw
    · exact hw
  have hclosable : ∀ p, ChildOf entries p → Closable σ L (.at p i since) :=
    fun p hp => ⟨rfl, rfl, fun _ h => absurd rfl h, fun _ => hp.not_locks⟩
  have hbelow := fun written => Ledger.below_update hnew (Open.temporary path i since written)
  have ho : Function.update L f (some (Open.temporary path i since bytes)) f = some (.temporary path i since bytes) := by
    simp
  have hbody : C.Runs (Has a (Function.update L f (some (.temporary path i since []))) (M path i))
      (do
        writeAll f bytes
        let now ← Sys.now
        ofResult (← Sys.setModified f now)
        ofResult (← Sys.fsync f)
        ofResult (← Sys.persist f (entryPath digest)))
      (fun _ => Has a (Function.update L f (some (.at (entryPath digest) i since))) F')
      (fun _ w => ∃ written, Has a (Function.update L f (some (.temporary path i since written)))
        (fun w => (M path i w ∨ ∃ ms, N path i ms w) ∧ Barred σ N digest) w) := by
    refine .bind ((runs_writeAll h hnew).mono (fun _ _ => id) (fun _ _ _ => id) ?_) fun _ => ?_
    · rintro _ w _ ⟨written, hfiles, hM, hf⟩
      exact ⟨written, hfiles, Or.inl hM, hbarred hf⟩
    have hcalm := (h.calmM path i).below (hbelow bytes)
    refine .bind (U := fun now w => (∃ w₁, Inv σ w₁ ∧ M path i w₁ ∧ now = w₁.clock) ∧
      Has a (Function.update L f (some (.temporary path i since bytes))) (fun w => M path i w ∧
        ⟨a, .clock now⟩ ∈ w.journal) w) (sys_now hcalm fun w hi hw => ⟨⟨w, hi, hw.2, rfl⟩, hw.1, h.clock hi hw.2, by simp⟩)
          fun now => .imp ?_
    rintro ⟨w₁, hi₁, hM₁, rfl⟩
    let Timed : World A V → Prop := fun w => N path i w₁.clock w ∧ (w.nodes i).modified = millisecond w₁.clock
    have htimed : Calm C (Function.update L f (some (.temporary path i since bytes))) Timed :=
      ((h.calmN path i w₁.clock).below (hbelow bytes)).and (calm_modified ho (by simp [Open.temporary]) _)
    refine runs_ofResult_bind (T := fun _ => Has a (Function.update L f (some (.temporary path i since bytes))) Timed)
      (sys_setModified (G := Timed) (hcalm.and (calm_read _)) ho (fun _ _ h => h.2) (Or.inr (Or.inl (by simp [Open.temporary])))
        ?_ ?_ ?_) fun _ => ?_
    · intro w w' hi hw hcall _ hw'
      refine ⟨h.stamped hi₁ hM₁ hi hw.2.1 hcall hw', ?_⟩
      rw [hw']
      simp [Open.temporary, Open.at]
    · exact fun w _ hw => hw
    · exact fun w e _ hw hf => ⟨bytes, hw.1, Or.inl hw.2.1, hbarred hf.1⟩
    refine runs_ofResult_bind (T := fun _ => Has a (Function.update L f (some (.temporary path i since bytes))) Timed)
      (sys_fsync htimed ?_) fun _ => ?_
    · rintro w r _ hw (rfl | hf)
      · exact hw
      · obtain ⟨code, rfl⟩ := hf.1.2
        exact ⟨bytes, hw.1, Or.inr ⟨_, hw.2.1⟩, hbarred hf.faults⟩
    refine runs_ofResult ((runs_persist h hnew hd hof).post ?_)
    rintro (e | ⟨⟩) w _ hw
    · exact ⟨bytes, hw.1, Or.inr ⟨_, hw.2.1⟩, hw.2.2⟩
    · exact hw
  refine .bind (U := fun _ => Has a L F') (runs_after (Y := fun _ => Has a (Function.update L f
    (some (.at path i since))) fun w => Y w ∧ Barred σ N digest) (runs_orElseDrop hbody fun _ => .of_exists fun written => ?_)
      (fun _ => ?_) fun _ => ?_) fun _ => ?_
  · exact runs_dropTemp h hnew hof ((h.calmM path i).or (.of_exists fun ms => h.calmN path i ms)) fun _ hw => hw
  · exact sys_close h.calm' hnew (hclosable _ (childOf_entryPath digest))
  · exact sys_close (h.calmY.and (calm_const _)) hnew (hclosable _ hof.child)
  · exact runs_syncDirOf h.calm' (h.calmY.and (calm_const _)) (Or.inl rfl) (fun w hi _ => hi.entriesDir)
      fun w op hi hF' hstill hfails hop => ⟨h.unsynced hi hF' hstill hfails hop, hbarred ⟨op, hfails⟩⟩

end

end Unixd.Cache
