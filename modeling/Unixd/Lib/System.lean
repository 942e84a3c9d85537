import Mathlib.Tactic.Common

/-!
# Labelled transition systems

Runs carry their labels in order, so that a statement can restrict the steps of a run.
An invariant is proved once for one step and then holds along every run.
-/

namespace Unixd.Lib

structure System (σ ℓ : Type*) where
  init : σ → Prop
  step : σ → ℓ → σ → Prop

namespace System

variable {σ ℓ : Type*} (S : System σ ℓ)

/-- `S.Run s ls t`: the steps labelled `ls` lead from `s` to `t`. -/
inductive Run : σ → List ℓ → σ → Prop where
  | nil (s : σ) : Run s [] s
  | snoc {s t u : σ} {ls : List ℓ} {l : ℓ} : Run s ls t → S.step t l u → Run s (ls ++ [l]) u

/-- A state that some run from an initial state reaches. -/
def Reachable (s : σ) : Prop :=
  ∃ s₀ ls, S.init s₀ ∧ S.Run s₀ ls s

/-- The runs of `S` from the states of `init` whose steps are all `good`. -/
def restrict (init : σ → Prop) (good : σ → ℓ → Prop) : System σ ℓ where
  init s := S.init s ∧ init s
  step s l t := S.step s l t ∧ good s l

variable {S} {s t u : σ} {ls ls' : List ℓ} {l : ℓ}

lemma Run.single (h : S.step s l t) : S.Run s [l] t :=
  Run.snoc (Run.nil s) h

lemma Run.next (h : S.Run s ls t) (l : ℓ) (hstep : S.step t l u) : S.Run s (ls ++ [l]) u :=
  h.snoc hstep

lemma Run.append (h : S.Run s ls t) (h' : S.Run t ls' u) : S.Run s (ls ++ ls') u := by
  induction h' with
  | nil => simpa using h
  | snoc _ hstep ih =>
    rw [← List.append_assoc]
    exact ih.snoc hstep

lemma Run.cons (h : S.step s l t) (h' : S.Run t ls u) : S.Run s (l :: ls) u :=
  (Run.single h).append h'

/-- An infinite sequence after one element more. -/
def before {α : Type*} (x : α) (xs : ℕ → α) : ℕ → α
  | 0 => x
  | n + 1 => xs n

/-- A run, and then for ever the same step. -/
lemma Run.forever (h : S.Run s ls t) (hloop : S.step t l t) : ∃ (run : ℕ → σ) (labels : ℕ → ℓ), run 0 = s ∧
    (∀ n, S.step (run n) (labels n) (run (n + 1))) ∧ (∀ n, ls.length ≤ n → run n = t) ∧ ∀ n, labels n ∈ ls ∨ labels n = l := by
  suffices hrun : ∀ {ls t}, S.Run s ls t → ∀ (run : ℕ → σ) (labels : ℕ → ℓ), run 0 = t → (∀ n, S.step (run n) (labels n) (run (n + 1))) →
      ∃ (run' : ℕ → σ) (labels' : ℕ → ℓ), run' 0 = s ∧ (∀ n, S.step (run' n) (labels' n) (run' (n + 1))) ∧
        (∀ n, run' (ls.length + n) = run n) ∧ ∀ n, labels' n ∈ ls ∨ ∃ m, labels' n = labels m by
    obtain ⟨run, labels, h0, hstep, hend, hlabels⟩ := hrun h (fun _ => t) (fun _ => l) rfl fun _ => hloop
    refine ⟨run, labels, h0, hstep, fun n hn => ?_, fun n => (hlabels n).imp_right fun ⟨_, heq⟩ => heq⟩
    rw [← hend (n - ls.length), Nat.add_sub_cancel' hn]
  intro ls t h
  induction h with
  | nil => exact fun run labels h0 hstep => ⟨run, labels, h0, hstep, fun n => by simp, fun n => Or.inr ⟨n, rfl⟩⟩
  | @snoc t u ls l _ hl ih =>
    intro run labels h0 hstep
    have hnext : ∀ n, S.step (before t run n) (before l labels n) (before t run (n + 1)) := by
      intro n
      cases n with
      | zero =>
        change S.step t l (run 0)
        rwa [h0]
      | succ n => exact hstep n
    obtain ⟨run', labels', h0', hstep', hend, hlabels⟩ := ih (before t run) (before l labels) rfl hnext
    refine ⟨run', labels', h0', hstep', fun n => ?_, fun n => ?_⟩
    · rw [List.length_append, List.length_singleton, Nat.add_assoc, Nat.add_comm 1 n]
      exact hend (n + 1)
    · rcases hlabels n with hn | ⟨m, hn⟩
      · exact Or.inl (List.mem_append_left _ hn)
      · cases m with
        | zero => exact Or.inl (List.mem_append_right _ (hn ▸ List.mem_singleton_self l))
        | succ m => exact Or.inr ⟨m, hn⟩

/-- A property that every step with an allowed label keeps holds along every run of such
steps. -/
theorem Run.keeps {P : σ → Prop} {allowed : ℓ → Prop}
    (hstep : ∀ s l t, allowed l → P s → S.step s l t → P t)
    (h : S.Run s ls t) (hall : ∀ l ∈ ls, allowed l) (hs : P s) : P t := by
  induction h with
  | nil => exact hs
  | snoc _ hl ih =>
    have hprev := ih (fun l hl => hall l (List.mem_append_left _ hl))
    exact hstep _ _ _ (hall _ (by simp)) hprev hl

theorem Run.invariant {P : σ → Prop} (hstep : ∀ s l t, P s → S.step s l t → P t)
    (h : S.Run s ls t) (hs : P s) : P t :=
  Run.keeps (fun s l t (_ : True) => hstep s l t) h (fun _ _ => trivial) hs

theorem Reachable.invariant {P : σ → Prop} (hinit : ∀ s, S.init s → P s)
    (hstep : ∀ s l t, P s → S.step s l t → P t) (h : S.Reachable s) : P s := by
  obtain ⟨s₀, ls, h₀, hrun⟩ := h
  exact hrun.invariant hstep (hinit s₀ h₀)

lemma Run.of_restrict {init : σ → Prop} {good : σ → ℓ → Prop} (h : (S.restrict init good).Run s ls t) : S.Run s ls t := by
  induction h with
  | nil => exact .nil _
  | snoc _ hstep ih => exact ih.snoc hstep.1

lemma Reachable.run (h : S.Reachable s) (hrun : S.Run s ls t) : S.Reachable t := by
  obtain ⟨s₀, ls₀, h₀, hrun₀⟩ := h
  exact ⟨s₀, ls₀ ++ ls, h₀, hrun₀.append hrun⟩

end System

end Unixd.Lib
