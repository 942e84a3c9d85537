import Unixd.Cache.Opened
import Unixd.Cache.Session

/-!
# Exclusion, and no deadlock

What the protocol gives every run of every set of threads: one live `Held` for each lock path, and
no cycle among those who wait for a lock.
-/

namespace Unixd.Cache

open Unixd.Lib

set_option linter.unusedSectionVars false

namespace Rules

variable {ι : Type} {T : ι → Type} {A : Type} [DecidableEq A] {R : Rules A ι T} {a b : A}

/-- The threads and their world. -/
abbrev State (A ι : Type) (T : ι → Type) : Type 1 :=
  Pool A (World A (Note ι T)) Error (Op (Note ι T)) Op.Ret Unit

variable {s t : State A ι T}

/-- What a step leaves of a file that was open and stands for a `Held` afterwards. -/
lemma held_kept (h : R.system.Reachable s) {l : Pool.Label A} (hstep : R.system.step s l t) {f : ℕ} {o o' : Open}
    (ho : s.world.files a f = some o) (ho' : t.world.files a f = some o') (hheld' : o'.held ≠ none) :
    o'.path = o.path ∧ o'.ino = o.ino := by
  have hsame : s.world.files a f = some o' → o'.path = o.path ∧ o'.ino = o.ino := by
    intro hf
    rw [ho, Option.some_inj] at hf
    exact ⟨hf ▸ rfl, hf ▸ rfl⟩
  cases hstep with
  | @call b op next r w hb sem =>
    rcases Sem.opened (inv h).toCore ((ok h).allowed hb) sem ho' with ⟨o₁, ho₁, hkept, -⟩ | ⟨-, hnone, -⟩
    · rw [ho, Option.some_inj] at ho₁
      exact ⟨ho₁ ▸ hkept.path, ho₁ ▸ hkept.ino⟩
    · exact absurd hnone hheld'
  | turn hb => exact hsame ho'
  | @env w he =>
    obtain ⟨clock, -, -, rfl⟩ := he
    exact hsame ho'
  | kill dead progs hdead halive => exact hsame (World.files_of_kill ho')

section

/-- Threads on a root with nothing stored. -/
def quiet (A : Type) : Rules A Unit fun _ => Unit where
  serde _ := .unit
  fails _ := False
  tick n m := n ≤ m
  start _ := none
  plain := True
  ordered := True
  tidy := True
  may _ _ _ := True

/-- One thread is to take a key lock. -/
def locking : State Unit Unit fun _ => Unit :=
  ⟨fun _ => some ((Session.lock keyA fun _ => .done).run (quiet Unit).codec []), World.of (rootWith []) 0⟩

lemma extra_nil : Extra [] :=
  ⟨List.nodup_nil, by simp, by simp, by simp⟩

lemma starts_locking : (quiet Unit).Starts locking := by
  have hfit := @fit_rootWith Unit (Note Unit fun _ => Unit) _ _ 0 extra_nil
  have hdir : ∀ {path}, locking.world.scene.OwnDir path → locking.world.OwnDir path := by
    rintro path ⟨i, node, hfind, hkind, howned⟩
    obtain ⟨hname, rfl⟩ := (World.find_eq_some _).mp hfind
    exact ⟨i, hname, hkind, howned⟩
  refine ⟨fun a p hp => ⟨_, ?_, (Option.some_inj.mp hp).symm⟩, fun _ _ => rfl, rfl, Nat.zero_le _, hdir hfit.entries, ?_, ?_, fun _ => ⟨hdir hfit.locks, ?_⟩⟩
  · exact ⟨fun _ => rfl, fun _ => trivial, trivial⟩
  · intro digest _
    have hnone : locking.world.find (entryPath digest) = none := by
      by_contra hthere
      obtain ⟨⟨i, node⟩, hfind⟩ := Option.ne_none_iff_exists'.mp hthere
      obtain ⟨x, hx, -⟩ := mem_extra extra_nil hfind
      cases hx
    rw [World.content, (World.find_eq_none _).mp hnone]
    rfl
  · intro _ path q i hlock hpath hq
    exact World.distinct_of hlock ((World.find_eq_some _).mpr ⟨hpath, rfl⟩) ((World.find_eq_some _).mpr ⟨hq, rfl⟩)
  · intro path i hchild hname
    exact hfit.regular (Or.inr (Or.inr hchild)) i { locking.world.nodes i with mode := 0 }
      ((World.find_eq_some _).mpr ⟨hname, rfl⟩)

lemma locking_progs : locking.progs () = some ((Cache.lock keyA).handle fun r => match r with
    | .ok held => (Session.done (ι := Unit) (T := fun _ => Unit)).run (quiet Unit).codec [held]
    | .error _ => (Session.done (ι := Unit) (T := fun _ => Unit)).run (quiet Unit).codec []) := by
  refine congrArg some ?_
  unfold Session.run
  refine (Prog.handle_handle (Cache.lock keyA) _ _).trans ?_
  congr 1

/-- What is open where a key is held. -/
lemma KeyLock.of_files_scene {lock : KeyLock} {b : A} {v : Scene A} {m since i since' f : ℕ} {node : Node} {o : Open}
    (h : (lock.scene a v m since i since' node).files b f = some o) :
    o = .holding lock.held.path i since' .key ∨ o = .withLock maintenanceLock m since .shared ∨ v.files b f = some o := by
  by_cases hheld : b = a ∧ f = lock.held.file
  · obtain ⟨rfl, rfl⟩ := hheld
    exact Or.inl (Option.some_inj.mp ((Scene.files_setFile_self _).symm.trans h)).symm
  · replace h : (v.setFile a lock.maintenance (some (.withLock maintenanceLock m since .shared))).files b f = some o :=
      (Scene.files_setFile_other _ hheld).symm.trans h
    by_cases hshared : b = a ∧ f = lock.maintenance
    · obtain ⟨rfl, rfl⟩ := hshared
      exact Or.inr (Or.inl (Option.some_inj.mp ((Scene.files_setFile_self _).symm.trans h)).symm)
    · exact Or.inr (Or.inr ((Scene.files_setFile_other _ hshared).symm.trans h))

/-- The thread takes the lock, nobody dies, and what else it has open is no lock file. -/
lemma run_locked : ∃ ls s lock o, (quiet Unit).system.Run locking ls s ∧ s.world.files () lock = some o ∧ o.held = some .key ∧
    o.path = lockPath keyA.digest ∧ (∀ e ∈ s.world.journal, e.what ≠ .died) ∧
      ∀ a f o, s.world.files a f = some o → ChildOf locks o.path → o.held ≠ none := by
  have hdoes := @does_lock Unit (Note Unit fun _ => Unit) _ (quiet Unit).tick () _ ⟨[], fun what => what ≠ .died, fun _ => by simp⟩ keyA
    (@fit_rootWith Unit (Note Unit fun _ => Unit) _ _ 0 extra_nil) World.distinct_of World.shareable_of
      World.not_taken_of (by simp)
  have htotal := hdoes locking.world trivial ⟨rfl, [], rfl, fun _ he => (nomatch he)⟩
  obtain ⟨ls, r, w, hend, hrun⟩ := Protocol.Scope.Total.exec (fun _ => rfl) htotal locking_progs rfl
  rcases r with e | lock
  · exact hend.elim
  · obtain ⟨m, since, i, since', node, -, hpath, -, -, -, hne, hsees⟩ := hend
    obtain ⟨added, hj, hadded⟩ := hsees.journal
    refine ⟨ls, _, lock.held.file, .holding lock.held.path i since' .key, hrun, ?_, rfl, hpath, fun e he => ?_, fun b f o ho hchild => ?_⟩
    · change w.files () lock.held.file = _
      rw [hsees.files]
      exact Scene.files_setFile_self _
    · refine (hadded e ?_).2
      rw [hj] at he
      exact he
    · change w.files b f = some o at ho
      rw [hsees.files] at ho
      rcases KeyLock.of_files_scene ho with rfl | rfl | hnone
      · exact Option.some_ne_none HeldBy.key
      · exact absurd rfl (hchild.ne (show maintenanceLock.length ≠ locks.length + 1 by decide))
      · cases hnone

/-- The thread takes the lock. -/
lemma run_locking : ∃ ls s lock o, (quiet Unit).system.Run locking ls s ∧ s.world.files () lock = some o ∧ o.held = some .key ∧
    o.path = lockPath keyA.digest := by
  obtain ⟨ls, s, lock, o, hrun, ho, hheld, hpath, -⟩ := run_locked
  exact ⟨ls, s, lock, o, hrun, ho, hheld, hpath⟩

end

/-- A live `Held` is the only one of its path, the path names the inode that it locks, and no step takes the lock
file away from it. -/
theorem held_exclusive (h : R.system.Reachable s) {f : ℕ} {o : Open} (ho : s.world.files a f = some o)
    (hheld : o.held ≠ none) :
    s.world.names o.path = some o.ino ∧
      (∀ b g o', s.world.files b g = some o' → o'.held ≠ none → o'.path = o.path → b = a ∧ g = f) ∧
      ∀ l t o', R.system.step s l t → t.world.files a f = some o' → o'.held ≠ none →
        t.world.names o.path = some o.ino := by
  have hnames : ∀ {s : State A ι T} {o}, R.system.Reachable s → s.world.files a f = some o → o.held ≠ none →
      s.world.names o.path = some o.ino := by
    intro s o h ho hheld
    obtain ⟨by', hby⟩ := Option.ne_none_iff_exists'.mp hheld
    exact ((inv h).file ho).held hby |>.2.2.1
  refine ⟨hnames h ho hheld, ?_, fun l t o' hstep ho' hheld' => ?_⟩
  · exact fun b g o' ho' hheld' hpath => (inv h).toCore.held_unique ho ho' hheld hheld' hpath.symm
  · obtain ⟨hpath, hino⟩ := held_kept h hstep ho ho' hheld'
    have hname := hnames (h.run (.single hstep)) ho' hheld'
    rwa [hpath, hino] at hname

theorem held_exclusive_locked : ∃ s f o, (quiet Unit).system.Reachable s ∧ s.world.files () f = some o ∧ o.held ≠ none ∧
    s.world.names o.path = some o.ino := by
  obtain ⟨ls, s, f, o, hrun, ho, hheld, -⟩ := run_locking
  have hne : o.held ≠ none := by simp [hheld]
  exact ⟨s, f, o, ⟨_, ls, starts_locking, hrun⟩, ho, hne, (held_exclusive ⟨_, ls, starts_locking, hrun⟩ ho hne).1⟩

/-- `a` is about to wait for the lock at `path`. -/
def Pends (s : State A ι T) (a : A) (path : Path) (mode : LockMode) : Prop :=
  ∃ f next o, s.progs a = some (.call (.flock f mode true) next) ∧ s.world.files a f = some o ∧ o.path = path

/-- `a` waits for a lock that `b` holds. -/
def Waits (s : State A ι T) (a b : A) : Prop :=
  ∃ f mode next o g o', s.progs a = some (.call (.flock f mode true) next) ∧ s.world.files a f = some o ∧
    ¬(b = a ∧ g = f) ∧ s.world.files b g = some o' ∧ o'.ino = o.ino ∧
      (o'.lock = some .exclusive ∨ mode = .exclusive ∧ o'.lock = some .shared)

/-- The order in which locks are waited for. -/
def rank (path : Path) : ℕ :=
  if path = maintenanceLock then 2 else if path = pruneLock then 0 else 1

lemma mayWait (h : R.system.Reachable s) (hordered : R.ordered) {path : Path} {mode : LockMode} (hp : Pends s a path mode) :
    s.world.MayWait a path mode := by
  obtain ⟨f, next, o, hcall, ho, rfl⟩ := hp
  exact ((ok h).allowed hcall o ho).2 rfl hordered

/-- A lock that is waited for has the path of the lock that is held. -/
lemma Waits.cases (hw : Waits s a b) (h : R.system.Reachable s) (hordered : R.ordered) (hplain : R.plain) :
    ∃ path mode g o', Pends s a path mode ∧ s.world.files b g = some o' ∧ o'.path = path ∧ o'.lock ≠ none ∧
      (mode = .shared → o'.lock = some .exclusive) := by
  obtain ⟨f, mode, next, o, g, o', hcall, ho, -, ho', hino, hlock⟩ := hw
  have hmay := mayWait h hordered ⟨f, next, o, hcall, ho, rfl⟩
  have hlockish : Lockish o.path := by
    rcases hmay.2 with ⟨hp, -⟩ | ⟨hp, -⟩ | ⟨hp, -⟩
    · exact Or.inl hp
    · exact Or.inr (Or.inl hp)
    · exact Or.inr (Or.inr hp)
  refine ⟨o.path, mode, g, o', ⟨f, next, o, hcall, ho, rfl⟩, ho', (((inv h).single hplain).file ho hlockish).2 b g o' ho' hino,
    ?_, ?_⟩
  · rcases hlock with hl | ⟨-, hl⟩ <;> simp [hl]
  · rintro rfl
    exact hlock.resolve_right (by simp)

lemma Pends.unique {path path' : Path} {mode mode' : LockMode} (h : Pends s a path mode) (h' : Pends s a path' mode') :
    path' = path ∧ mode' = mode := by
  obtain ⟨f, next, o, hcall, ho, rfl⟩ := h
  obtain ⟨f', next', o', hcall', ho', rfl⟩ := h'
  rw [hcall, Option.some_inj] at hcall'
  cases hcall'
  rw [ho, Option.some_inj] at ho'
  exact ⟨ho' ▸ rfl, rfl⟩

/-- Whoever is waited for waits for a lock of a lower rank. -/
lemma Waits.rank_lt (hw : Waits s a b) (h : R.system.Reachable s) (hordered : R.ordered) (hplain : R.plain) {path path' : Path}
    {mode mode' : LockMode} (hp : Pends s a path mode) (hp' : Pends s b path' mode') {c : A} (hw' : Waits s b c) :
    rank path' < rank path := by
  obtain ⟨path₁, mode₁, g, o, hp₁, ho, hpath, hlock, hshared⟩ := hw.cases h hordered hplain
  obtain ⟨rfl, rfl⟩ := hp.unique hp₁
  obtain ⟨hprune, hmay⟩ := mayWait h hordered hp'
  have hne : path₁ ≠ pruneLock := hpath ▸ hprune g o ho hlock
  rcases hmay with ⟨rfl, hnone | ⟨rfl, hshares⟩⟩ | ⟨rfl, -⟩ | ⟨hchild, hlight⟩
  · exact absurd (hnone g o ho) hlock
  · obtain ⟨path₂, mode₂, k, o₂, hp₂, ho₂, hpath₂, -, hexclusive⟩ := hw'.cases h hordered hplain
    obtain ⟨rfl, rfl⟩ := hp'.unique hp₂
    exact ((inv h).toCore.excludes ⟨k, o₂, ho₂, hpath₂, hexclusive rfl⟩ hshares).elim
  · have hzero : rank pruneLock = 0 := by decide
    rw [hzero, rank, if_neg hne]
    split <;> omega
  · have hpath' : path₁ = maintenanceLock := hpath ▸ (hlight g o ho hlock).1
    have hm : path' ≠ maintenanceLock := hchild.ne (by decide)
    have hp : path' ≠ pruneLock := hchild.ne (by decide)
    rw [hpath', rank, rank, if_neg hm, if_neg hp]
    decide

lemma Waits.pends (hw : Waits s a b) : ∃ path mode, Pends s a path mode := by
  obtain ⟨f, mode, next, o, g, o', hcall, ho, -⟩ := hw
  exact ⟨o.path, mode, f, next, o, hcall, ho, rfl⟩

/-- Where each thread takes one key lock at a time, nobody waits for himself through any number of others, and
whoever has `prune.lock` waits for no lock at all. -/
theorem no_lock_cycle (h : R.system.Reachable s) (hordered : R.ordered) (hplain : R.plain) :
    (∀ a, ¬Relation.TransGen (Waits s) a a) ∧ ∀ a, s.world.Prunes a → ∀ path mode, ¬Pends s a path mode := by
  constructor
  · have hfalls : ∀ {a b}, Relation.TransGen (Waits s) a b → ∀ {path path' mode mode' c}, Pends s a path mode →
        Pends s b path' mode' → Waits s b c → rank path' < rank path := by
      intro a b hab
      induction hab with
      | single hw => exact fun hp hp' hw' => hw.rank_lt h hordered hplain hp hp' hw'
      | tail _ hw ih =>
        intro path path' mode mode' c hp hp' hw'
        obtain ⟨path₁, mode₁, hp₁⟩ := hw.pends
        exact (hw.rank_lt h hordered hplain hp₁ hp' hw').trans (ih hp hp₁ hw)
    intro a ha
    obtain ⟨c, hw, -⟩ := Relation.TransGen.head'_iff.mp ha
    obtain ⟨path, mode, hp⟩ := hw.pends
    exact Nat.lt_irrefl _ (hfalls ha hp hp hw)
  · rintro a ⟨f, o, ho, hpath, hlock⟩ path mode hp
    exact (mayWait h hordered hp).1 f o ho (by simp [hlock]) hpath

theorem no_lock_cycle_locked : ∃ s f o, (quiet Unit).system.Reachable s ∧ s.world.files () f = some o ∧ o.held ≠ none ∧
    ∀ a, ¬Relation.TransGen (Waits s) a a := by
  obtain ⟨ls, s, f, o, hrun, ho, hheld, -⟩ := run_locking
  have hreach : (quiet Unit).system.Reachable s := ⟨_, ls, starts_locking, hrun⟩
  exact ⟨s, f, o, hreach, ho, by simp [hheld], (no_lock_cycle hreach trivial trivial).1⟩

end Rules

end Unixd.Cache
