import Unixd.Cache.Served

/-!
# What a held key keeps

The files of a key belong to the one who holds its lock: nobody else removes or replaces the entry, or the temporary file of a
store that is under way.
-/

namespace Unixd.Cache

open Unixd.Lib

set_option linter.unusedSectionVars false

namespace Rules

variable {ι : Type} {T : ι → Type} {A : Type} [DecidableEq A] {R : Rules A ι T} {s t : State A ι T} {a : A} {f : ℕ} {o : Open}
  {l : Pool.Label A} {ls : List (Pool.Label A)} {digest : Name} {path : Path} {x : HeldBy}

/-- Steps that `a` neither takes nor dies in. -/
def Apart (a : A) (l : Pool.Label A) : Prop :=
  ¬l.Of a ∧ ∀ dead, l = .kill dead → ¬dead a

lemma Apart.other (h : R.system.Reachable s) (hstep : R.system.step s l t) (hl : Apart a l) :
    s.world = t.world ∨ Other R.setting a s.world t.world :=
  (ok h).other hstep a ⟨fun heq => hl.1 (Or.inl heq), hl.2⟩

/-- In every run of steps of the others, the holder of a key keeps its lock, the lock file, and each file of the key. -/
theorem files_kept (h : R.system.Reachable s) (hrun : R.system.Run s ls t) (hapart : ∀ l ∈ ls, Apart a l)
    (ho : s.world.files a f = some o) (hheld : o.held = some x) (hpath : o.path = lockPath digest) :
    t.world.files a f = some o ∧ t.world.names o.path = some o.ino ∧
      ∀ path, Covers digest path → t.world.names path = s.world.names path ∧ t.world.content path = s.world.content path := by
  have hkept : ∀ {ls t}, R.system.Run s ls t → (∀ l ∈ ls, Apart a l) → t.world.files a f = some o ∧
      ∀ path, Covers digest path → t.world.names path = s.world.names path ∧ t.world.content path = s.world.content path := by
    intro ls t hrun
    induction hrun with
    | nil => exact fun _ => ⟨ho, fun _ _ => ⟨rfl, rfl⟩⟩
    | @snoc t u ls l hrun hstep ih =>
      intro hall
      obtain ⟨hfile, hsame⟩ := ih fun l hl => hall l (List.mem_append_left _ hl)
      have ht := h.run hrun
      rcases (hall l (by simp)).other ht hstep with heq | hother
      · rw [← heq]
        exact ⟨hfile, hsame⟩
      · refine ⟨(congrFun hother.files f).trans hfile, fun path hp => ?_⟩
        have hcovered := hother.covered (inv ht) hp ⟨f, o, hfile, hpath, hheld⟩
        exact ⟨hcovered.1.trans (hsame path hp).1, hcovered.2.trans (hsame path hp).2⟩
  obtain ⟨hfile, hsame⟩ := hkept hrun hapart
  obtain ⟨-, -, hname, -⟩ := ((inv (h.run hrun)).file hfile).held hheld
  exact ⟨hfile, hname, hsame⟩

/-- One thread has the lock of a key, and another is on its way to it. -/
theorem files_kept_locked : ∃ s t f o, (holding Bool []).system.Reachable s ∧ (holding Bool []).system.Run s [.call false] t ∧
    s.world.files true f = some o ∧ o.held = some .key ∧ t.world.files true f = some o ∧
      t.world.names (entryPath keyA.digest) = s.world.names (entryPath keyA.digest) := by
  have hidle : handing.world.scene.AtRest := ⟨fit_rootWith extra_nil, World.distinct_of, fun _ _ => rfl⟩
  have hreach : (holding Bool []).system.Reachable handing := ⟨_, [], starts_handing, .nil _⟩
  obtain ⟨s, held, hs, hprogs, hkey, hlocking, -⟩ := exec_lock (a := true) rfl hreach rfl hidle
  obtain ⟨i, since, hfile⟩ := hlocking.holding.held
  have hpath : held.held.path = lockPath keyA.digest := hkey ▸ hlocking.holding.path
  have hnext : s.progs false = handing.progs false := by
    rw [hprogs]
    exact Function.update_of_ne (by simp) _ _
  have hsem : (machine Bool (Note Unit fun _ => Unit) (holding Bool []).fails (holding Bool []).tick).sem false (.lstat root) s.world
    (s.world.lstat root) s.world := Sem.lstat
  have hlock : handing.progs false = some ((Cache.lock keyA).handle _) := congrArg some (run_lock _ _)
  have hstep := Pool.Step.call ((hnext.trans hlock).trans rfl) hsem
  have hfile' : s.world.files true held.held.file = some (.holding held.held.path i since .key) := hfile
  obtain ⟨hkept, -, hsame⟩ := files_kept hs (.single hstep) (by simp [Apart, Pool.Label.Of]) hfile' rfl hpath
  exact ⟨s, _, _, _, hs, .single hstep, hfile', rfl, hkept, (hsame _ (covers_entryPath keyA.wf)).1⟩

end Rules

end Unixd.Cache
