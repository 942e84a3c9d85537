import Mathlib.Data.Nat.Find
import Unixd.Lib.Total

/-!
# Fair runs

What total programs come to when they share a world: none is ever stuck, and each that the scheduler does not forget
returns.
-/

namespace Unixd.Lib.Pool

open Protocol

variable {A W E Op : Type} {Ret : Op → Type} {R α : Type} {M : Machine A W Op Ret} {P : Protocol M} {a : A}
  {p : Prog E Op Ret α} {Q : Except E α → W → Prop} {w w' : W}

/-- A total program is total after whatever the others do. -/
lemma total_rely (hQ : ∀ r, P.Stable a (Q r)) (h : (P.whole a).Total p Q w) (hr : P.Rely a w w') : (P.whole a).Total p Q w' := by
  induction h generalizing w' with
  | ret h => exact .ret ((hQ _).rely h hr)
  | call allowed live after _ =>
    exact .call (fun w₁ hr₁ => allowed w₁ (Relation.ReflTransGen.trans hr hr₁))
      (fun w₁ hr₁ => live w₁ (Relation.ReflTransGen.trans hr hr₁)) fun w₁ hr₁ => after w₁ (Relation.ReflTransGen.trans hr hr₁)
  | loop _ ih => exact .loop (ih hQ hr)

variable [DecidableEq A] {Q : A → Except E R → W → Prop} {s t : Pool A W E Op Ret R} {l : Label A}

/-- The invariant holds and every program is total from here on. -/
structure Live (P : Protocol M) (Q : A → Except E R → W → Prop) (s : Pool A W E Op Ret R) : Prop where
  inv : P.inv s.world
  total : ∀ a p, s.progs a = some p → (P.whole a).Total p (Q a) s.world

lemma Live.ok (h : Live P Q s) : Ok P Q s :=
  ⟨h.inv, fun a p hp _ => (h.total a p hp).safe⟩

lemma Live.ret (h : Live P Q s) {r : Except E R} (ha : s.progs a = some (.ret r)) : Q a r s.world := by
  cases h.total a _ ha with
  | ret h => exact h

theorem Live.step (hQ : ∀ a r, P.Stable a (Q a r)) (h : Live P Q s) (hstep : Step M s l t) : Live P Q t := by
  refine ⟨(h.ok.step hQ hstep).inv, fun b p hp => ?_⟩
  have hother : (l ≠ .call b ∧ ∀ dead, l = .kill dead → ¬dead b) → s.progs b = some p → (P.whole b).Total p (Q b) t.world := by
    intro hl hs
    rcases h.ok.other hstep b hl with heq | ho
    · exact heq ▸ h.total b p hs
    · exact total_rely (hQ b) (h.total b p hs) (.single ⟨h.inv, ho⟩)
  cases hstep with
  | @call a op next r w ha sem =>
    by_cases hab : b = a
    · subst hab
      obtain rfl : next r = p := by simpa using hp
      cases h.total b _ ha with
      | call _ _ after => exact after _ Relation.ReflTransGen.refl r w sem
    · refine hother ⟨?_, by simp⟩ (by simpa [hab] using hp)
      rintro ⟨⟩
      exact hab rfl
  | @turn a σ β body x next ha =>
    by_cases hab : b = a
    · subst hab
      obtain rfl : (body x).handle (.turn body next) = p := by simpa using hp
      cases h.total b _ ha with
      | loop h => exact h
    · exact hother ⟨by simp, by simp⟩ (by simpa [hab] using hp)
  | env he => exact hother ⟨by simp, by simp⟩ hp
  | kill dead progs hdead halive =>
    have hlive : ¬dead b := by
      intro hd
      simp [hdead b hd] at hp
    refine hother ⟨by simp, ?_⟩ ((halive b hlive).symm.trans hp)
    rintro _ ⟨⟩
    exact hlive

theorem live_of_reachable {init : Pool A W E Op Ret R → Prop} (hQ : ∀ a r, P.Stable a (Q a r)) (hinit : ∀ s, init s → Live P Q s)
    (h : (system M init).Reachable s) : Live P Q s :=
  h.invariant hinit fun _ _ _ hlive hstep => hlive.step hQ hstep

/-- A program that has not returned can take a step. -/
theorem Live.moves (h : Live P Q s) {p : Prog E Op Ret R} (ha : s.progs a = some p) :
    (∃ r, p = .ret r ∧ Q a r s.world) ∨ ∃ l t, l.Of a ∧ Step M s l t := by
  cases h.total a p ha with
  | ret hr => exact Or.inl ⟨_, rfl, hr⟩
  | call allowed live after =>
    obtain ⟨r, w, hsem⟩ := live _ Relation.ReflTransGen.refl
    exact Or.inr ⟨_, _, Or.inl rfl, .call ha hsem⟩
  | loop h => exact Or.inr ⟨_, _, Or.inr rfl, .turn ha⟩

/-- A step that is not one of `a` leaves its program as it is. -/
lemma Step.progs_eq (h : Step M s l t) (hof : ¬l.Of a) (halive : ∀ dead, l = .kill dead → ¬dead a) : t.progs a = s.progs a := by
  cases h with
  | @call b op next r w hb sem =>
    refine Function.update_of_ne ?_ _ _
    rintro rfl
    exact hof (Or.inl rfl)
  | @turn b σ β body x next hb =>
    refine Function.update_of_ne ?_ _ _
    rintro rfl
    exact hof (Or.inr rfl)
  | env he => rfl
  | kill dead progs hdead halive' => exact halive' a (halive dead rfl)

/-- An infinite run that passes `a` by only when it has returned, and does not kill it. -/
structure Fair (M : Machine A W Op Ret) (a : A) (run : ℕ → Pool A W E Op Ret R) (labels : ℕ → Label A) : Prop where
  step : ∀ n, Step M (run n) (labels n) (run (n + 1))
  alive : ∀ n dead, labels n = .kill dead → ¬dead a
  turns : ∀ n, (∀ r, (run n).progs a ≠ some (.ret r)) → ∃ m, n ≤ m ∧ (labels m).Of a

variable {run : ℕ → Pool A W E Op Ret R} {labels : ℕ → Label A}

/-- What the others do before `a` moves again. -/
lemma Fair.waits (h : Fair M a run labels) (hlive : ∀ n, Live P Q (run n)) {n m : ℕ} (hnm : n ≤ m)
    (hnone : ∀ k, n ≤ k → k < m → ¬(labels k).Of a) :
    (run m).progs a = (run n).progs a ∧ P.Rely a (run n).world (run m).world := by
  induction hnm with
  | refl => exact ⟨rfl, Relation.ReflTransGen.refl⟩
  | @step m hnm ih =>
    obtain ⟨hprogs, hrely⟩ := ih fun k hn hk => hnone k hn (Nat.lt_succ_of_lt hk)
    have hof := hnone m hnm (Nat.lt_succ_self m)
    have hstep := h.step m
    have hne : labels m ≠ .call a := fun heq => hof (Or.inl heq)
    refine ⟨((h.step m).progs_eq hof (h.alive m)).trans hprogs, ?_⟩
    rcases (hlive m).ok.other hstep a ⟨hne, h.alive m⟩ with heq | ho
    · exact heq ▸ hrely
    · exact hrely.tail ⟨(hlive m).inv, ho⟩

/-- From where a total program is, whatever the others have done since its last step, a fair run leads to its end. -/
lemma Fair.ends (h : Fair M a run labels) (hlive : ∀ n, Live P Q (run n)) {Q' : Except E α → W → Prop} (htotal : (P.whole a).Total p Q' w) :
    ∀ {f : Except E α → Prog E Op Ret R} {n : ℕ}, (run n).progs a = some (p.handle f) → P.Rely a w (run n).world →
      ∃ m r w', (run m).progs a = some (f r) ∧ Q' r w' ∧ P.Rely a w' (run m).world := by
  -- The next step of `a`, and what comes before it.
  have hnext : ∀ {q : Prog E Op Ret R} {n : ℕ} {w}, (run n).progs a = some q → (∀ r, q ≠ .ret r) → P.Rely a w (run n).world →
      ∃ m, (run m).progs a = some q ∧ P.Rely a w (run m).world ∧ (labels m).Of a := by
    intro q n w hq hne hr
    classical
    have hex := h.turns n fun r hret => hne r (Option.some_inj.mp (hq.symm.trans hret))
    obtain ⟨hle, hof⟩ := Nat.find_spec hex
    obtain ⟨hprogs, hrely⟩ := h.waits hlive hle fun k hn hk hofk => Nat.find_min hex hk ⟨hn, hofk⟩
    exact ⟨Nat.find hex, hprogs.trans hq, Relation.ReflTransGen.trans hr hrely, hof⟩
  induction htotal with
  | ret hq => exact fun hp hr => ⟨_, _, _, hp, hq, hr⟩
  | call allowed live after ih =>
    intro f n hp hr
    obtain ⟨m, hm, hrely, hof⟩ := hnext hp (fun _ h => nomatch h) hr
    have hstep := h.step m
    generalize labels m = l at hstep hof
    generalize ht : run (m + 1) = t at hstep
    rcases hof with rfl | rfl
    · cases hstep with
      | @call _ op' next' r w₂ ha sem =>
        cases hm.symm.trans ha
        exact ih _ hrely r w₂ sem (n := m + 1) (by rw [ht]; exact Function.update_self _ _ _) (by rw [ht]; exact Relation.ReflTransGen.refl)
    · cases hstep with
      | turn ha => cases hm.symm.trans ha
  | loop _ ih =>
    intro f n hp hr
    obtain ⟨m, hm, hrely, hof⟩ := hnext hp (fun _ h => nomatch h) hr
    have hstep := h.step m
    generalize labels m = l at hstep hof
    generalize ht : run (m + 1) = t at hstep
    rcases hof with rfl | rfl
    · cases hstep with
      | call ha sem => cases hm.symm.trans ha
    · cases hstep with
      | @turn _ σ β body x next ha =>
        cases hm.symm.trans ha
        refine ih (n := m + 1) ?_ (by rw [ht]; exact hrely)
        rw [ht, Prog.handle_handle]
        simp only [Prog.turn_handle]
        exact Function.update_self _ _ _

lemma Fair.live (hQ : ∀ a r, P.Stable a (Q a r)) (h : Fair M a run labels) (hlive : Live P Q (run 0)) (n : ℕ) : Live P Q (run n) := by
  induction n with
  | zero => exact hlive
  | succ n ih => exact ih.step hQ (h.step n)

/-- In a fair run every total program returns. -/
theorem Fair.returns (hQ : ∀ a r, P.Stable a (Q a r)) (h : Fair M a run labels) (hlive : Live P Q (run 0)) {p : Prog E Op Ret R}
    (hp : (run 0).progs a = some p) : ∃ n r, (run n).progs a = some (.ret r) ∧ Q a r (run n).world := by
  obtain ⟨n, r, w, hn, hr, hrely⟩ := h.ends (h.live hQ hlive) (hlive.total a p hp) (n := 0) (hp.trans (congrArg some p.handle_ret.symm))
    Relation.ReflTransGen.refl
  exact ⟨n, r, hn, (hQ a r).rely hr hrely⟩

lemma Label.Of.alive (h : l.Of a) {b : A} (dead : A → Prop) (heq : l = .kill dead) : ¬dead b := by
  rcases h with rfl | rfl
  · cases heq
  · cases heq

/-- A program that has returned takes no more steps. -/
lemma Step.returned (h : Step M s l t) (hof : ∃ b, l.Of b) {r : Except E R} (ha : s.progs a = some (.ret r)) : t.progs a = some (.ret r) := by
  obtain ⟨b, hof⟩ := hof
  refine (h.progs_eq (fun ha' => ?_) (fun dead => hof.alive dead)).trans ha
  rcases ha' with rfl | rfl
  · cases h with
    | call hp => cases ha.symm.trans hp
  · cases h with
    | turn hp => cases ha.symm.trans hp

/-- A run to where the programs of the given agents have all returned. -/
lemma Live.finish (hQ : ∀ a r, P.Stable a (Q a r)) (init : Pool A W E Op Ret R → Prop) (agents : List A) (h : Live P Q s)
    (halive : ∀ a ∈ agents, s.progs a ≠ none) :
    ∃ ls t, (system M init).Run s ls t ∧ (∀ l ∈ ls, ∃ b, l.Of b) ∧ ∀ a ∈ agents, ∃ r, t.progs a = some (.ret r) := by
  induction agents generalizing s with
  | nil => exact ⟨[], s, .nil s, by simp, by simp⟩
  | cons a agents ih =>
    obtain ⟨p, hp⟩ := Option.ne_none_iff_exists'.mp (halive a (by simp))
    obtain ⟨ls, r, w, -, hrun, hof⟩ := Scope.Total.exec_of init (fun _ => Relation.ReflTransGen.refl) (h.total a p hp)
      (hp.trans (congrArg some p.handle_ret.symm)) rfl
    have hlive := hrun.invariant (fun _ _ _ hlive hstep => hlive.step hQ hstep) h
    obtain ⟨ls', t, hrun', hof', hall⟩ := ih hlive fun b hb => by
      by_cases hab : b = a
      · simp [hab]
      · simpa [hab] using halive b (List.mem_cons_of_mem a hb)
    have hkept := System.Run.keeps (P := fun s => s.progs a = some (.ret r)) (fun _ _ _ hof ha hstep => Step.returned hstep hof ha) hrun' hof'
      (Function.update_self _ _ _)
    refine ⟨ls ++ ls', t, hrun.append hrun', fun l hl => ?_, fun b hb => ?_⟩
    · rcases List.mem_append.mp hl with hl | hl
      · exact ⟨a, hof l hl⟩
      · exact hof' l hl
    · rcases List.mem_cons.mp hb with rfl | hb
      · exact ⟨r, hkept⟩
      · exact hall b hb

/-- A run that is fair to finitely many total programs. -/
theorem Live.exists_fair (hkill : ∀ w, M.kill (fun _ => False) w = w) (hQ : ∀ a r, P.Stable a (Q a r)) (agents : List A) (h : Live P Q s)
    (halive : ∀ a ∈ agents, s.progs a ≠ none) :
    ∃ run labels, run 0 = s ∧ ∀ a ∈ agents, Fair M a run labels := by
  obtain ⟨ls, t, hrun, hof, hall⟩ := h.finish hQ (fun _ => True) agents halive
  have hloop : (system M fun _ => True).step t (.kill fun _ => False) t := by
    have hstep := Step.kill (M := M) (s := t) (fun _ => False) t.progs (fun _ hdead => hdead.elim) fun _ _ => rfl
    rw [hkill] at hstep
    exact hstep
  obtain ⟨run, labels, h0, hstep, hend, hlabels⟩ := hrun.forever hloop
  have hnobody : ∀ n dead, labels n = .kill dead → ∀ a, ¬dead a := by
    intro n dead heq a
    rcases hlabels n with hl | hl
    · obtain ⟨b, hb⟩ := hof _ hl
      exact hb.alive dead heq
    · cases hl.symm.trans heq
      exact id
  refine ⟨run, labels, h0, fun a ha => ⟨hstep, fun n dead heq => hnobody n dead heq a, fun n hne => ?_⟩⟩
  by_contra hnone
  obtain ⟨r, hr⟩ := hall a ha
  have hsame : ∀ k, (run (n + k)).progs a = (run n).progs a := by
    intro k
    induction k with
    | zero => rfl
    | succ k ih => exact ((hstep (n + k)).progs_eq (fun hof => hnone ⟨n + k, by omega, hof⟩) fun dead heq => hnobody _ dead heq a).trans ih
  refine hne r ((hsame ls.length).symm.trans ?_)
  rw [hend (n + ls.length) (by omega)]
  exact hr

end Unixd.Lib.Pool
