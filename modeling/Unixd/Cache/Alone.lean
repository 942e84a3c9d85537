import Unixd.Cache.KeyLock
import Unixd.Cache.Upkeep
import Unixd.Cache.Scene

/-!
# Directories and locks, alone

The functions of `private.rs` on a root in order: what they answer and how they leave the scene, while nobody else
takes a step.
-/

namespace Unixd.Cache

open Unixd.Lib Protocol.Scope

set_option linter.unusedSectionVars false

variable {A V α : Type} [DecidableEq A] {faults : Op V → Prop} {tick : ℕ → ℕ → Prop} {a : A} {v : Scene A} {ℓ : Margin A V}
  {path : Path} {i f : ℕ} {node : Node} {o : Open} {X : Error → World A V → Prop}

/-- A call failed for a reason of its own, as the journal tells. -/
def Failed (faults : Op V → Prop) (a : A) (ℓ : Margin A V) (j : List (Event A V)) : Prop :=
  ∃ op, faults op ∧ ⟨a, .failed op⟩ ∈ j.drop ℓ.before.length

/-- A call failed, and nothing else is amiss. -/
def Broken (faults : Op V → Prop) (a : A) (v : Scene A) (ℓ : Margin A V) (_ : Error) (w : World A V) : Prop :=
  ∃ j, Failed faults a ℓ j ∧ ℓ.lax.Holds a j ∧ Sees a v (ℓ.lax.later j) w

lemma Broken.sees {e : Error} {w : World A V} (h : Broken faults a v ℓ e w) : Sees a v ℓ.lax w := by
  obtain ⟨j, -, hj, h⟩ := h
  exact h.of_later hj

/-- Without faults there is no error. -/
abbrev Does (tick : ℕ → ℕ → Prop) (a : A) (S : World A V → Prop) (p : M V α) (T : α → World A V → Prop) : Prop :=
  Solo (fun _ => False) tick a S p T fun _ _ => False

lemma Does.of_solo {S : World A V → Prop} {p : M V α} {T : α → World A V → Prop}
    (h : Solo (fun _ => False) tick a S p T (Broken (fun _ => False) a v ℓ)) : Does tick a S p T :=
  Lone.mono h (fun _ => id) (fun _ _ => id) fun _ _ hb => hb.elim fun _ h => h.1.elim fun _ hop => hop.1

/-- Without faults there is a run from `w`, and every run answers. -/
lemma Does.ends {w : World A V} {p : M V α} {T : α → World A V → Prop} (h : Does tick a (Sees a w.scene w.margin) p T) :
    (∃ r w', p.Ends (machine A V (fun _ => False) tick) a w r w') ∧
      ∀ r w', p.Ends (machine A V (fun _ => False) tick) a w r w' → ∃ x, r = .ok x ∧ T x w' := by
  obtain ⟨hrun, hends⟩ := Lone.ends h (w.sees a)
  refine ⟨hrun, fun r w' hr => ?_⟩
  have hend := hends r w' hr
  cases r with
  | error e => exact hend.elim
  | ok x => exact ⟨x, rfl, hend⟩

/-- Without faults a call answers as it should. -/
lemma Does.sure {β : Type} {S : World A V → Prop} {op : Op V} {p : M V (Except ErrorKind β)}
    {T : Except ErrorKind β → World A V → Prop}
    (h : Solo (fun _ => False) tick a S p (fun r w => T r w ∨ Fails (fun _ => False) op a v ℓ r w) X) :
    Solo (fun _ => False) tick a S p T X :=
  h.post fun _ _ _ h => h.resolve_right fun hf => hf.1

@[simp] lemma ofResult_ok_bind {β : Type} (x : α) (p : α → M V β) : (ofResult (.ok x) >>= p) = p x := rfl

@[simp] lemma ofResult_error_bind {β : Type} (e : ErrorKind) (p : α → M V β) :
    (ofResult (.error e) >>= p) = throw (.io e) := rfl

lemma Fails.broken {β : Type} {op : Op V} {r : Except ErrorKind β} {w : World A V} (h : Fails faults op a v ℓ r w) (e : Error) :
    Broken faults a v ℓ e w := by
  have hlax := h.lax
  obtain ⟨hfault, -, w₀, hw, rfl⟩ := h
  obtain ⟨added, hj, -⟩ := hw.journal
  refine ⟨_, ⟨op, hfault, ?_⟩, hlax.journal, hlax.later⟩
  rw [World.journal_log, hj, List.append_assoc, List.drop_left]
  simp

/-- A call failed, and its error is the answer. -/
def Erred (faults : Op V → Prop) (a : A) (v : Scene A) (ℓ : Margin A V) (e : Error) (w : World A V) : Prop :=
  (∃ code, e = .io (.other code)) ∧ Broken faults a v ℓ e w

/-- The answer of a call that fails is passed on. -/
lemma solo_fails {β : Type} {op : Op V} {r : Except ErrorKind β} {T : β → World A V → Prop} :
    Solo faults tick a (Fails faults op a v ℓ r) (ofResult r : M V β) T (Erred faults a v ℓ) := by
  intro w hi h
  obtain ⟨code, rfl⟩ := h.2.1
  exact .ret ⟨⟨code, rfl⟩, h.broken _⟩

lemma Scene.OwnDir.lstat (h : v.OwnDir path) :
    ∃ metadata, v.lstat path = .ok metadata ∧ metadata.kind = .dir ∧ metadata.owned = true := by
  obtain ⟨i, node, hfind, hkind, howned⟩ := h
  exact ⟨node.metadata i, by rw [Scene.lstat, hfind], hkind, howned⟩

lemma solo_setMode {mode : ℕ} (hfind : v.find path = some (i, node)) :
    Solo faults tick a (Sees a v ℓ) (setMode path mode : M V Unit) (fun _ => Sees a v ℓ) (Erred faults a v ℓ) := by
  refine .bind (solo_chmod hfind) fun r => .or (.imp fun hr => ?_) solo_fails
  subst hr
  exact .pure fun _ _ h => h

lemma solo_validateRoot (hroot : v.OwnDir root) :
    Solo faults tick a (Sees a v ℓ) (validateRoot : M V Unit) (fun _ => Sees a v ℓ) (Broken faults a v ℓ) := by
  obtain ⟨metadata, hlstat, hkind, howned⟩ := hroot.lstat
  obtain ⟨i, node, hfind, -⟩ := hroot
  refine .bind solo_lstat fun r => .or (.imp fun hr => ?_) fun w _ h => ?_
  · subst hr
    rw [hlstat]
    simp only [hkind, howned, ne_eq, not_true_eq_false, or_self, if_false]
    exact Lone.mono (solo_setMode hfind) (fun _ => id) (fun _ _ => id) fun _ _ h => h.2
  · obtain ⟨code, rfl⟩ := h.2.1
    exact .ret (h.broken _)

lemma solo_ensureDir_erred (hdir : v.OwnDir path) :
    Solo faults tick a (Sees a v ℓ) (ensureDir path : M V Unit) (fun _ => Sees a v ℓ) (Erred faults a v ℓ) := by
  obtain ⟨metadata, hlstat, hkind, howned⟩ := hdir.lstat
  obtain ⟨i, node, hfind, -⟩ := hdir
  refine Runs.iterate (J := fun _ _ => Sees a v ℓ) (fun _ _ => ?_) 0 ()
  refine .bind solo_lstat fun r => .or (.imp fun hr => ?_) fun w _ h => ?_
  · subst hr
    rw [hlstat]
    simp only [hkind, howned, and_self, if_true]
    exact .bind (solo_setMode hfind) fun _ => .pure fun _ _ hs => hs
  · obtain ⟨code, rfl⟩ := h.2.1
    exact .ret ⟨⟨code, rfl⟩, h.broken _⟩

lemma solo_ensureDir (hdir : v.OwnDir path) :
    Solo faults tick a (Sees a v ℓ) (ensureDir path : M V Unit) (fun _ => Sees a v ℓ) (Broken faults a v ℓ) :=
  Lone.mono (solo_ensureDir_erred hdir) (fun _ => id) (fun _ _ => id) fun _ _ h => h.2

/-- A lock file, if it is there, is a regular file of the user's own. -/
def Scene.Regular (v : Scene A) (path : Path) : Prop :=
  ∀ i node, v.find path = some (i, node) → node.kind = .file ∧ node.owned = true

/-- Some agent has the lock of the file at `path`. -/
def Scene.Taken (v : Scene A) (path : Path) : Prop :=
  ∃ i node b g o, v.find path = some (i, node) ∧ v.files b g = some o ∧ o.ino = i ∧ o.lock ≠ none

/-- The inode of a lock file that is there or is made. -/
structure Scene.Locks (v : Scene A) (path : Path) (i : ℕ) (node : Node) : Prop where
  found : v.find path = some (i, node) ∨ v.find path = none ∧ v.Free i
  kind : node.kind = .file
  owned : node.owned = true

/-- Opening a lock file that is there, or making it. -/
lemma does_openLock (hdir : v.OwnDir path.dropLast) (hreg : v.Regular path)
    (hmay : v.find path = none → ℓ.may (.linked path)) :
    Does tick a (Sees a v ℓ) (openLock path : M V ℕ) fun f w => ∃ i node since, v.Locks path i node ∧ v.files a f = none ∧
      Sees a ((v.put path (some (i, node))).setFile a f (some (.at path i since))) ℓ w := by
  have hopen : Does tick a (Sees a v ℓ) (Sys.openLock path : M V _) fun r w => ∃ f i node since, r = .ok f ∧
      v.Locks path i node ∧ v.files a f = none ∧
      Sees a ((v.put path (some (i, node))).setFile a f (some (.at path i since))) ℓ w := by
    cases hfind : v.find path with
    | none =>
      refine (solo_createLock hfind hdir (hmay hfind)).post fun r w _ h => ?_
      obtain ⟨f, i, node, since, rfl, hfree, hnew, hkind, howned, h⟩ := h.resolve_right fun hf => hf.1
      exact ⟨f, i, node, since, rfl, ⟨Or.inr ⟨hfind, hfree⟩, hkind, howned⟩, hnew, h⟩
    | some x =>
      obtain ⟨i, node⟩ := x
      obtain ⟨hkind, howned⟩ := hreg i node hfind
      refine (solo_openLock hfind hkind).post fun r w _ h => ?_
      obtain ⟨f, since, rfl, hnew, h⟩ := h.resolve_right fun hf => hf.1
      refine ⟨f, i, node, since, rfl, ⟨Or.inl hfind, hkind, howned⟩, hnew, ?_⟩
      rwa [Scene.put_eq_self hfind]
  refine .bind hopen fun r => .of_exists fun f => .of_exists fun i => .of_exists fun node => .of_exists fun since =>
    .imp fun hr => .imp fun hlocks => .imp fun hnew => ?_
  subst hr
  refine Runs.handle (Y := fun _ _ => False) ?_ (fun _ => .pure fun _ _ h => h) fun _ _ _ h => h.elim
  have hfile := Scene.files_setFile_self (v := v.put path (some (i, node))) (a := a) (f := f) (some (.at path i since))
  refine .bind (Does.sure (@solo_fstat _ _ _ _ _ _ _ _ path _ node _ _ hfile (by simp [Open.at]))) fun r => .imp fun hr => ?_
  subst hr
  simp only [ofResult_ok_bind, Node.metadata, hlocks.kind, hlocks.owned, ne_eq, not_true_eq_false, or_self, if_false]
  refine .bind (Does.sure (solo_fchmod hfile)) fun r => .imp fun hr => ?_
  subst hr
  exact .pure fun w _ h => ⟨i, node, since, hlocks, hnew, h⟩

lemma Scene.put_files (x : Option (ℕ × Node)) (b : A) (g : ℕ) : (v.put path x).files b g = v.files b g := rfl

/-- Another open file stands in the way of a lock, or of the lock file's new inode. -/
lemma Scene.Locks.conflict (h : v.Locks path i node) {f : ℕ} {file : Open} (hfile : file.lock = none) :
    ((v.put path (some (i, node))).setFile a f (some file)).Conflict a f i .exclusive → v.Taken path := by
  rintro ⟨b, g, o, hne, ho, hino, hlock⟩
  rw [files_setFile_other _ hne, files_put] at ho
  rcases h.found with hfind | ⟨-, hfree⟩
  · refine ⟨i, node, b, g, o, hfind, ho, hino, ?_⟩
    rcases hlock with hl | ⟨-, hl⟩ <;> simp [hl]
  · exact absurd hino (hfree.2 b g o ho)

lemma Scene.Taken.conflict (h : v.Taken path) (hlocks : v.Locks path i node) {f : ℕ} {file : Option Open}
    (hnew : v.files a f = none) : ((v.put path (some (i, node))).setFile a f file).Conflict a f i .exclusive := by
  obtain ⟨j, node', b, g, o, hfind, ho, rfl, hlock⟩ := h
  have hne : ¬(b = a ∧ g = f) := by
    rintro ⟨rfl, rfl⟩
    rw [hnew] at ho
    cases ho
  refine ⟨b, g, o, hne, ?_, ?_, ?_⟩
  · rw [files_setFile_other _ hne, files_put, ho]
  · rcases hlocks.found with hfound | ⟨hnone, -⟩
    · rw [hfind, Option.some_inj, Prod.mk.injEq] at hfound
      exact hfound.1
    · rw [hfind] at hnone
      cases hnone
  · cases hl : o.lock with
    | none => exact absurd hl hlock
    | some mode =>
      cases mode with
      | shared => exact Or.inr ⟨rfl, rfl⟩
      | exclusive => exact Or.inl rfl

/-- The path of a file that one has open names it. -/
lemma does_names {file : Open} (hf : v.files a f = some file) (hfind : v.find path = some (file.ino, node)) :
    Does tick a (Sees a v ℓ) (names path f : M V Bool) fun r w => r = true ∧ Sees a v ℓ w := by
  refine .bind (Does.sure (solo_fstat hf hfind)) fun r => .imp fun hr => ?_
  subst hr
  rw [ofResult_ok_bind]
  refine .bind (Does.sure solo_lstat) fun r => .imp fun hr => ?_
  subst hr
  rw [Scene.lstat, hfind]
  exact .pure fun w _ h => ⟨decide_eq_true rfl, h⟩

/-- What holding the lock of `path` makes of a scene. -/
def Scene.hold (v : Scene A) (a : A) (held : Held) (i since : ℕ) (node : Node) (by' : HeldBy) : Scene A :=
  (v.put held.path (some (i, node))).setFile a held.file (some (.holding held.path i since by'))

lemma does_tryLockExclusive (hdir : v.OwnDir path.dropLast) (hreg : v.Regular path)
    (hmay : v.find path = none → ℓ.may (.linked path)) :
    Does tick a (Sees a v ℓ) (tryLockExclusive path : M V (Option Held)) fun r w =>
      v.Taken path ∧ r = none ∧ Sees a v ℓ w ∨ ¬v.Taken path ∧ ∃ held i node since, r = some held ∧ held.path = path ∧
        v.Locks path i node ∧ v.files a held.file = none ∧ Sees a (v.hold a held i since node .prune) ℓ w := by
  refine .bind (does_openLock hdir hreg hmay) fun f => .of_exists fun i => .of_exists fun node => .of_exists fun since =>
    .imp fun hlocks => .imp fun hnew => ?_
  refine Runs.handle (Y := fun _ _ => False) ?_ (fun _ => .pure fun _ _ h => h) fun _ _ _ h => h.elim
  have hfile := Scene.files_setFile_self (v := v.put path (some (i, node))) (a := a) (f := f) (some (.at path i since))
  by_cases htaken : v.Taken path
  · refine .bind (Does.sure (solo_wouldBlock hfile (htaken.conflict hlocks hnew))) fun r => .imp fun hr => ?_
    subst hr
    refine .bind (solo_close hfile) fun _ => .pure fun w _ h => Or.inl ⟨htaken, rfl, ?_⟩
    obtain ⟨j, node', b, g, o, hfind, -⟩ := htaken
    have hfound := hlocks.found.resolve_right fun hnone => by simp [hfind] at hnone
    rwa [Scene.setFile_setFile, Scene.put_eq_self hfound, Scene.setFile_eq_self hnew] at h
  · refine .bind (Does.sure (solo_flock hfile fun hc => htaken (hlocks.conflict rfl hc))) fun r => .imp fun hr => ?_
    subst hr
    rw [Scene.setFile_setFile]
    have hfile' := Scene.files_setFile_self (v := v.put path (some (i, node))) (a := a) (f := f)
      (some { Open.at path i since with lock := some .exclusive })
    refine .bind (@does_names _ _ _ _ _ _ _ _ _ node _ hfile' (by simp [Open.at])) fun r => .imp fun hr => ?_
    subst hr
    refine .bind (solo_hold hfile') fun _ => .pure fun w _ h => Or.inr ⟨htaken, ⟨path, f⟩, i, node, since, rfl, rfl, hlocks, hnew, ?_⟩
    rwa [Scene.setFile_setFile] at h

/-- The lock file goes and then the lock. -/
lemma does_drop {u : Scene A} {held : Held} {i since : ℕ} {by' : HeldBy}
    (hf : u.files a held.file = some (.holding held.path i since by')) (hreg : u.Regular held.path)
    (hmay : ℓ.may (.released held.path by')) :
    Does tick a (Sees a u ℓ) (held.drop : M V Unit) fun _ => Sees a ((u.put held.path none).setFile a held.file none) ℓ := by
  refine .bind ((solo_release hf rfl ?_ hmay).post fun _ w _ h => h.resolve_right fun hf => hf.1) fun _ => ?_
  · intro j node hfind hkind
    exact absurd ((hreg j node hfind).1.symm.trans hkind) (by simp)
  · refine (solo_close (Scene.files_setFile_self _)).post fun _ w _ h => ?_
    rwa [Scene.setFile_setFile] at h

lemma does_after {S : World A V → Prop} {p : M V α} {U T : α → World A V → Prop} {drop : M V Unit} (hp : Does tick a S p U)
    (hdrop : ∀ x, Does tick a (U x) drop fun _ => T x) : Does tick a S (after p drop) T :=
  Runs.handle (Y := fun _ _ => False) hp (fun x => .bind (hdrop x) fun _ => .pure fun _ _ h => h) fun _ _ _ h => h.elim

lemma does_closing {S : World A V → Prop} {p : M V α} {T : α → Scene A → Prop}
    (hp : Does tick a S p fun x w => ∃ u o, T x u ∧ u.files a f = none ∧ Sees a (u.setFile a f (some o)) ℓ w) :
    Does tick a S (closing f p) fun x w => ∃ u, T x u ∧ Sees a u ℓ w := by
  refine does_after hp fun x => .of_exists fun u => .of_exists fun o => .imp fun hT => .imp fun hnone => ?_
  refine (solo_close (Scene.files_setFile_self _)).post fun _ w _ h => ⟨u, hT, ?_⟩
  rwa [Scene.setFile_setFile, Scene.setFile_eq_self hnone] at h

lemma What.Links.touches {what : What V} (h : what.Links path) : what.Touches path := by
  cases what with
  | linked p => exact h
  | renamed src dst bytes => exact Or.inr h
  | _ => exact h.elim

/-- What an agent may add while a stream of the directory at `path`, begun after `j`, has shown the names `seen`. -/
def Margin.during (ℓ : Margin A V) (j : List (Event A V)) (path : Path) (seen : List Name) : Margin A V where
  before := j
  may what := ℓ.may what ∧ ∀ name, (what.Touches (path ++ [name]) → name ∈ seen) ∧ ¬what.Links (path ++ [name])
  clock n := ⟨ℓ.clock n, fun _ => ⟨fun h => h.elim, id⟩⟩

lemma Sees.of_during {j : List (Event A V)} {seen : List Name} {w : World A V} (h : Sees a v (ℓ.during j path seen) w)
    (hj : ℓ.Holds a j) : Sees a v ℓ w := by
  obtain ⟨before, rfl, hbefore⟩ := hj
  obtain ⟨added, hw, hadded⟩ := h.journal
  refine ⟨h.scene, before ++ added, by rw [hw, Margin.during, List.append_assoc], fun e he => ?_⟩
  rcases List.mem_append.mp he with hmem | hmem
  · exact hbefore e hmem
  · exact ⟨(hadded e hmem).1, (hadded e hmem).2.1⟩

lemma Sees.during_mono {j : List (Event A V)} {seen seen' : List Name} {w : World A V} (h : Sees a v (ℓ.during j path seen) w)
    (hseen : ∀ name ∈ seen, name ∈ seen') : Sees a v (ℓ.during j path seen') w :=
  h.mono rfl fun _ hmay => ⟨hmay.1, fun name => ⟨fun ht => hseen name ((hmay.2 name).1 ht), (hmay.2 name).2⟩⟩

/-- A stream of a directory in which nothing is made shows every name once, in some order. -/
theorem does_forDir {σ : Type} {init : σ} {body : σ → Name → M V σ} {I : List Name → σ → Scene A → Prop} (hdir : v.OwnDir path)
    (hinit : I [] init v)
    (hkeep : ∀ {seen s u}, I seen s u → ∀ name, name ∉ seen → u.find (path ++ [name]) = v.find (path ++ [name]))
    (hbody : ∀ {j seen s u name f o}, I seen s u → name ∉ seen → u.find (path ++ [name]) ≠ none → u.files a f = none →
      o.lock = none → Does tick a (Sees a (u.setFile a f (some o)) (ℓ.during j path (name :: seen))) (body s name) fun s w =>
        ∃ u, I (name :: seen) s u ∧ u.files a f = none ∧
          Sees a (u.setFile a f (some o)) (ℓ.during j path (name :: seen)) w) :
    Does tick a (Sees a v ℓ) (forDir path init body) fun s w => ∃ u, (∃ seen, I seen s u ∧ seen.Nodup ∧
      ∀ name, name ∈ seen ↔ v.find (path ++ [name]) ≠ none) ∧ Sees a u ℓ w := by
  obtain ⟨i, dir, hfind, hkind, -⟩ := hdir
  have hopen : Does tick a (Sees a v ℓ) (Sys.openDir path : M V _) fun r w => ∃ f j, r = .ok f ∧ v.files a f = none ∧
      ℓ.Holds a j ∧ (∃ all : List Name, ∀ name, v.find (path ++ [name]) ≠ none → name ∈ all) ∧
      Sees a (v.setFile a f (some (.streaming path i j.length []))) (ℓ.during j path []) w := by
    refine (solo_openDir hfind hkind).post fun r w _ h => ?_
    obtain ⟨f, since, rfl, hnew, rfl, h⟩ := h.resolve_right fun hf => hf.1
    refine ⟨f, w.journal, rfl, hnew, h.journal, ?_, h.scene, [], (List.append_nil _).symm, fun _ he => (nomatch he)⟩
    obtain ⟨paths, hpaths⟩ := w.paths
    refine ⟨paths.map fun p => p.getLast?.getD [], fun name hname => ?_⟩
    have hmem := hpaths (path ++ [name]) fun hnone => hname (by
      rw [← show w.find (path ++ [name]) = v.find (path ++ [name]) from congrFun h.find _]
      exact w.find_eq_none.mpr hnone)
    exact List.mem_map.mpr ⟨_, hmem, by simp⟩
  refine .bind hopen fun r => .of_exists fun f => .of_exists fun j => .imp fun hr => .imp fun hnew => .imp fun hj =>
    .imp fun hall => ?_
  subst hr
  obtain ⟨all, hall⟩ := hall
  rw [ofResult_ok_bind]
  refine does_closing (T := fun s u => ∃ seen, I seen s u ∧ seen.Nodup ∧ ∀ name, name ∈ seen ↔ v.find (path ++ [name]) ≠ none) ?_
  let J : ℕ → σ → World A V → Prop := fun n s w => ∃ seen u, I seen s u ∧ seen.Nodup ∧
    (∀ name ∈ seen, v.find (path ++ [name]) ≠ none) ∧ u.files a f = none ∧ all.length - seen.length = n ∧
    Sees a (u.setFile a f (some (.streaming path i j.length seen))) (ℓ.during j path seen) w
  refine (Runs.iterate (J := J) (fun n s => ?_) all.length init).pre fun w _ h =>
    ⟨[], v, hinit, List.nodup_nil, fun _ h => (nomatch h), hnew, rfl, h⟩
  refine .of_exists fun seen => .of_exists fun u => .imp fun hI => .imp fun hnodup => .imp fun hseen => .imp fun hfree =>
    .imp fun hn => ?_
  have hfile := Scene.files_setFile_self (v := u) (a := a) (f := f) (some (.streaming path i j.length seen))
  refine .bind (Does.sure (solo_next hfile rfl)) fun r => .or ?_ ?_
  · refine .of_exists fun name => .imp fun hr => .imp fun hshown => .imp fun honce => ?_
    subst hr
    have hfresh : name ∉ seen := by
      intro hmem
      obtain ⟨what, hmay, hlink⟩ := honce hmem
      exact (hmay.2 name).2 hlink
    have hthere : u.find (path ++ [name]) ≠ none := by
      refine hshown.resolve_right ?_
      rintro ⟨what, hmay, htouch⟩
      exact hfresh ((hmay.2 name).1 htouch)
    have hname : v.find (path ++ [name]) ≠ none := hkeep hI name hfresh ▸ hthere
    have hlt : seen.length < all.length := by
      have hsub : name :: seen ⊆ all := by
        intro n hmem
        rcases List.mem_cons.mp hmem with rfl | hmem
        · exact hall _ hname
        · exact hall _ (hseen n hmem)
      exact (List.subperm_of_subset (List.nodup_cons.mpr ⟨hfresh, hnodup⟩) hsub).length_le
    rw [ofResult_ok_bind]
    refine .bind ((hbody (j := j) (o := .streaming path i j.length (name :: seen)) hI hfresh hthere hfree rfl).pre ?_) fun s => ?_
    · intro w _ h
      rw [Scene.setFile_setFile] at h
      exact h.during_mono fun _ => List.mem_cons_of_mem _
    · refine .pure fun w _ h => ?_
      obtain ⟨u', hI', hfree', h⟩ := h
      refine ⟨all.length - (name :: seen).length, by simp only [List.length_cons]; omega, name :: seen, u', hI',
        List.nodup_cons.mpr ⟨hfresh, hnodup⟩, fun n hmem => ?_, hfree', rfl, h⟩
      rcases List.mem_cons.mp hmem with rfl | hmem
      · exact hname
      · exact hseen n hmem
  · refine .imp fun hr => .imp fun hend => ?_
    subst hr
    rw [ofResult_ok_bind]
    refine .pure fun w _ h => ⟨u, .streaming path i j.length seen, ⟨seen, hI, hnodup, fun name => ⟨hseen name, fun hname => ?_⟩⟩,
      hfree, h.of_during hj⟩
    by_contra hmem
    refine hmem (hend name ?_ fun what hmay htouch => hmem ((hmay.2 name).1 htouch))
    rw [Scene.find_setFile, show (Open.streaming path i j.length seen).path = path from rfl, hkeep hI name hmem]
    exact hname

/-- A lock that nobody has is taken at once. -/
lemma does_lockExclusive (hdir : v.OwnDir path.dropLast) (hreg : v.Regular path) (hmay : v.find path = none → ℓ.may (.linked path))
    (hfree : ¬v.Taken path) :
    Does tick a (Sees a v ℓ) (lockExclusive path : M V Held) fun held w => ∃ i node since, held.path = path ∧
      v.Locks path i node ∧ v.files a held.file = none ∧ Sees a (v.hold a held i since node .key) ℓ w := by
  refine Runs.iterate (J := fun _ _ => Sees a v ℓ) (fun _ _ => ?_) 0 ()
  refine .bind (does_openLock hdir hreg hmay) fun f => .of_exists fun i => .of_exists fun node => .of_exists fun since =>
    .imp fun hlocks => .imp fun hnew => ?_
  refine Runs.handle (Y := fun _ _ => False) ?_ (fun _ => .pure fun _ _ h => h) fun _ _ _ h => h.elim
  have hfile := Scene.files_setFile_self (v := v.put path (some (i, node))) (a := a) (f := f) (some (.at path i since))
  refine .bind (Does.sure (solo_flock hfile fun hc => hfree (hlocks.conflict rfl hc))) fun r => .imp fun hr => ?_
  subst hr
  rw [Scene.setFile_setFile]
  have hfile' := Scene.files_setFile_self (v := v.put path (some (i, node))) (a := a) (f := f)
    (some { Open.at path i since with lock := some .exclusive })
  refine .bind (@does_names _ _ _ _ _ _ _ _ _ node _ hfile' (by simp [Open.at])) fun r => .imp fun hr => ?_
  subst hr
  refine .bind (solo_hold hfile') fun _ => .pure fun w _ h => ⟨i, node, since, rfl, hlocks, hnew, ?_⟩
  rwa [Scene.setFile_setFile] at h

/-- A root whose directories and lock files are in order. -/
structure Scene.Fit (v : Scene A) : Prop where
  root : v.OwnDir root
  entries : v.OwnDir entries
  locks : v.OwnDir locks
  regular : ∀ {path}, Lockish path → v.Regular path
  maintenance : v.find maintenanceLock ≠ none
  pruning : v.find pruneLock ≠ none

/-- Open files have no part in it. -/
lemma Scene.Fit.setFile (h : v.Fit) (file : Option Open) : (v.setFile a f file).Fit :=
  ⟨h.root, h.entries, h.locks, h.regular, h.maintenance, h.pruning⟩

/-- Nobody has the maintenance lock alone. -/
def Scene.Shareable (v : Scene A) : Prop :=
  ∀ i node b g o, v.find maintenanceLock = some (i, node) → v.files b g = some o → o.ino = i → o.lock ≠ some .exclusive

/-- The scene of the holder of a key. -/
def KeyLock.scene (lock : KeyLock) (a : A) (v : Scene A) (m since i since' : ℕ) (node : Node) : Scene A :=
  (v.setFile a lock.maintenance (some (.withLock maintenanceLock m since .shared))).hold a lock.held i since' node .key

lemma lockPath_dropLast (digest : Name) : (lockPath digest).dropLast = locks :=
  List.dropLast_concat ..

/-- A lock file that is there is opened, and the scene gains an open file. -/
lemma does_openPinned (hfit : v.Fit) (hpath : path = maintenanceLock ∨ path = pruneLock) :
    Does tick a (Sees a v ℓ) (openLock path : M V ℕ) fun f w => ∃ i node since, v.find path = some (i, node) ∧
      node.kind = .file ∧ v.files a f = none ∧ Sees a (v.setFile a f (some (.at path i since))) ℓ w := by
  have hthere : v.find path ≠ none := by
    rcases hpath with rfl | rfl
    · exact hfit.maintenance
    · exact hfit.pruning
  have hdir : v.OwnDir path.dropLast := by
    rcases hpath with rfl | rfl <;> exact hfit.root
  refine (does_openLock hdir (hfit.regular ?_) fun hnone => absurd hnone hthere).post fun f w _ h => ?_
  · rcases hpath with rfl | rfl
    · exact Or.inl rfl
    · exact Or.inr (Or.inl rfl)
  · obtain ⟨i, node, since, hlocks, hnew, h⟩ := h
    have hfound := hlocks.found.resolve_right fun hnone => hthere hnone.1
    rw [Scene.put_eq_self hfound] at h
    exact ⟨i, node, since, hfound, hlocks.kind, hnew, h⟩

lemma Scene.Taken.of_setFile {file : Open} (h : (v.setFile a f (some file)).Taken path) (hlock : file.lock ≠ none →
    ∀ node, v.find path ≠ some (file.ino, node)) : v.Taken path := by
  obtain ⟨i, node, b, g, o, hfind, ho, hino, hl⟩ := h
  by_cases hself : b = a ∧ g = f
  · obtain ⟨rfl, rfl⟩ := hself
    rw [files_setFile_self, Option.some_inj] at ho
    subst ho
    exact absurd (hino ▸ hfind) (hlock hl node)
  · rw [files_setFile_other _ hself] at ho
    exact ⟨i, node, b, g, o, hfind, ho, hino, hl⟩

lemma Scene.Locks.of_setFile {file : Option Open} (h : (v.setFile a f file).Locks path i node) (hnew : v.files a f = none) :
    v.Locks path i node := by
  refine ⟨h.found.imp id fun ⟨hnone, hfree⟩ => ⟨hnone, hfree.1, fun b g o ho => ?_⟩, h.kind, h.owned⟩
  have hne : ¬(b = a ∧ g = f) := by
    rintro ⟨rfl, rfl⟩
    rw [hnew] at ho
    cases ho
  exact hfree.2 b g o ((files_setFile_other _ hne).trans ho)

/-- No two names of a lock file. -/
def Scene.Distinct (v : Scene A) : Prop :=
  ∀ {path q i node node'}, Lockish path → v.find path = some (i, node) → v.find q = some (i, node') → q = path

theorem does_lock {key : Key} (hfit : v.Fit) (hone : v.Distinct) (hshare : v.Shareable) (hfree : ¬v.Taken (lockPath key.digest))
    (hmay : ℓ.may (.linked (lockPath key.digest))) :
    Does tick a (Sees a v ℓ) (lock key : M V KeyLock) fun lock w => ∃ m since i since' node, lock.key = key ∧
      lock.held.path = lockPath key.digest ∧ v.Locks (lockPath key.digest) i node ∧ v.files a lock.maintenance = none ∧
      v.files a lock.held.file = none ∧ lock.held.file ≠ lock.maintenance ∧ Sees a (lock.scene a v m since i since' node) ℓ w := by
  have hchild := childOf_lockPath key.digest
  refine .bind (Does.of_solo (solo_validateRoot hfit.root)) fun _ => ?_
  refine .bind (Does.of_solo (solo_ensureDir hfit.locks)) fun _ => ?_
  refine .bind (does_openPinned hfit (Or.inl rfl)) fun m => .of_exists fun i => .of_exists fun node => .of_exists fun since =>
    .imp fun hfind => .imp fun hkind => .imp fun hnew => ?_
  refine Runs.handle (Y := fun _ _ => False) ?_ (fun _ => .pure fun _ _ h => h) fun _ _ _ h => h.elim
  have hfile := Scene.files_setFile_self (v := v) (a := a) (f := m) (some (.at maintenanceLock i since))
  refine .bind (Does.sure (solo_flock hfile ?_)) fun r => .imp fun hr => ?_
  · rintro ⟨b, g, o, hne, ho, hino, hlock | ⟨hmode, -⟩⟩
    · rw [Scene.files_setFile_other _ hne] at ho
      exact hshare i node b g o hfind ho hino hlock
    · cases hmode
  subst hr
  rw [Scene.setFile_setFile]
  refine .bind (does_lockExclusive ?_ (hfit.regular (Lockish.of_child hchild)) (fun _ => hmay) ?_) fun held => ?_
  · rw [lockPath_dropLast]
    exact hfit.locks
  · refine fun htaken => hfree (htaken.of_setFile fun _ node' hsame => ?_)
    exact hchild.ne (by decide) (hone (Or.inl rfl) hfind hsame)
  · refine .pure fun w _ h => ?_
    obtain ⟨j, node', since', hpath, hlocks, hheld, h⟩ := h
    have hne : held.file ≠ m := by
      rintro rfl
      rw [Scene.files_setFile_self] at hheld
      cases hheld
    rw [Scene.files_setFile_of_ne _ hne] at hheld
    exact ⟨i, since, j, since', node', rfl, hpath, hlocks.of_setFile hnew, hnew, hheld, hne, h⟩

end Unixd.Cache
