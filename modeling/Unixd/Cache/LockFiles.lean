import Unixd.Cache.Exclusion

/-!
# Lock files exist only while held

Every lock file is some thread's to see to, from its creation on or since a prune or a clear went
through all of them; where nobody is about to lock or to release, that thread holds it.
-/

namespace Unixd.Cache

open Unixd.Lib

set_option linter.unusedSectionVars false

namespace Rules

variable {ι : Type} {T : ι → Type} {A : Type} [DecidableEq A] {R : Rules A ι T} {a : A} {s s₀ t : State A ι T}
  {n : ℕ} {ls : List (Pool.Label A)}

/-- What is seen to stays so along every run. -/
lemma swept_run (h : R.system.Reachable s) (hrun : R.system.Run s ls t) (hswept : s.world.Swept R.setting n) :
    t.world.Swept R.setting n := by
  induction hrun with
  | nil => exact hswept
  | @snoc t u ls l hrun hstep ih =>
    have hok := ok (h.run hrun)
    cases hstep with
    | call hb sem => exact fun path hchild => (ih path hchild).step hchild hok.inv (hok.allowed hb) sem
    | turn hb => exact ih
    | env he =>
      obtain ⟨clock, -, -, rfl⟩ := he
      exact ih
    | kill dead progs hdead halive => exact fun path hchild => (ih path hchild).kill dead

/-- No lock, try-lock or release is under way: a lock file that is open is held. -/
def Settled (w : World A (Note ι T)) : Prop :=
  ∀ a f o, w.files a f = some o → ChildOf locks o.path → o.held ≠ none

/-- Nobody died since there was no lock file, or since a prune or a clear began that ended. -/
def Unharmed (s₀ s : State A ι T) : Prop :=
  (∀ path, ChildOf locks path → s₀.world.names path = none) ∧ (∀ e ∈ s.world.journal, e.what ≠ .died) ∨
    ∃ a cache before now middle now' after,
      s.world.journal = before ++ ⟨a, .noted (.began cache) now⟩ :: middle ++ ⟨a, .noted (.swept cache) now'⟩ :: after ∧
        ∀ e ∈ middle ++ after, e.what ≠ .died

lemma clean_of_unharmed (hclean : R.setting.clean) (h₀ : R.Starts s₀) (hrun : R.system.Run s₀ ls s) (h : Unharmed s₀ s) :
    s.world.Clean := by
  have hstart : R.system.Reachable s₀ := ⟨s₀, [], h₀, .nil s₀⟩
  rcases h with ⟨hempty, halive⟩ | ⟨a, cache, before, now, middle, now', after, hj, halive⟩
  · have hswept : s.world.Swept R.setting 0 :=
      swept_run hstart hrun fun path hchild => .of_none (Nat.zero_le _) fun _ => hempty path hchild
    intro path i hchild hname
    refine (hswept path hchild).2 hclean ?_ i hname
    rintro ⟨e, he, hdied⟩
    exact halive e (by simpa using he) hdied
  · exact ((inv (hstart.run hrun)).tidy hclean).swept (v := .swept cache) rfl hj halive

/-- Where nothing is under way and nobody died, the lock files are those of the locks that are held. -/
theorem lock_files_held (hclean : R.setting.clean) (h₀ : R.Starts s₀) (hrun : R.system.Run s₀ ls s) (h : Unharmed s₀ s)
    (hsettled : Settled s.world) {path : Path} (hchild : ChildOf locks path) :
    s.world.names path ≠ none ↔ ∃ a f o, s.world.files a f = some o ∧ o.path = path ∧ o.held ≠ none := by
  constructor
  · intro hname
    obtain ⟨i, hi⟩ := Option.ne_none_iff_exists'.mp hname
    obtain ⟨a, f, o, ho, hpath, -, -⟩ := clean_of_unharmed hclean h₀ hrun h path i hchild hi
    exact ⟨a, f, o, ho, hpath, hsettled a f o ho (hpath ▸ hchild)⟩
  · rintro ⟨a, f, o, ho, rfl, hheld⟩
    obtain ⟨x, hheld⟩ := Option.ne_none_iff_exists'.mp hheld
    obtain ⟨-, -, hname, -⟩ := ((inv ⟨s₀, ls, h₀, hrun⟩).file ho).held hheld
    rw [hname]
    exact Option.some_ne_none _

theorem lock_files_held_locked : ∃ s, (quiet Unit).system.Reachable s ∧ s.world.names (lockPath keyA.digest) ≠ none ∧
    ∀ path, ChildOf locks path → (s.world.names path ≠ none ↔ ∃ a f o, s.world.files a f = some o ∧ o.path = path ∧ o.held ≠ none) := by
  obtain ⟨ls, s, f, o, hrun, ho, hheld, hpath, halive, hsettled⟩ := run_locked
  have hempty : ∀ path, ChildOf locks path → locking.world.names path = none := by
    rintro path ⟨name, rfl⟩
    by_contra hthere
    obtain ⟨i, hname⟩ := Option.ne_none_iff_exists'.mp hthere
    obtain ⟨x, hx, -⟩ := mem_extra extra_nil ((World.find_eq_some _).mpr ⟨hname, rfl⟩)
    cases hx
  have hclean : (quiet Unit).setting.clean := ⟨⟨trivial, trivial⟩, fun ⟨_, hfails⟩ => hfails⟩
  have hfiles : ∀ path, ChildOf locks path → (s.world.names path ≠ none ↔
      ∃ a f o, s.world.files a f = some o ∧ o.path = path ∧ o.held ≠ none) :=
    fun path hchild => lock_files_held hclean starts_locking hrun (Or.inl ⟨hempty, halive⟩) hsettled hchild
  refine ⟨s, ⟨locking, ls, starts_locking, hrun⟩, (hfiles _ (childOf_lockPath _)).mpr ⟨(), f, o, ho, hpath, ?_⟩, hfiles⟩
  rw [hheld]
  exact Option.some_ne_none _

end Rules

end Unixd.Cache
