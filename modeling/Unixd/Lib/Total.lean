import Unixd.Lib.Triple

/-!
# Total correctness under interference

`Total` is the weakest precondition of one program while everything else moves the world only as a
scope allows: every operation is allowed and finds an answer, every run ends, and it ends as
stated. In the widest scope it is safety and more.
-/

namespace Unixd.Lib.Protocol

variable {A W E Op : Type} {Ret : Op → Type} {M : Machine A W Op Ret} {α β σ : Type}

/-- What the others are taken to do between the operations of `a`. -/
structure Scope (P : Protocol M) (a : A) where
  rely : W → W → Prop
  within : ∀ {w w'}, P.inv w → rely w w' → P.Rely a w w'

/-- All that the others may do. -/
def whole (P : Protocol M) (a : A) : P.Scope a where
  rely := P.Rely a
  within _ h := h

/-- The others do nothing. -/
def alone (P : Protocol M) (a : A) : P.Scope a where
  rely := Eq
  within _ h := h ▸ Relation.ReflTransGen.refl

namespace Scope

variable {P : Protocol M} {a : A} (C : P.Scope a)

def Stable (S : W → Prop) : Prop :=
  ∀ w w', P.inv w → S w → C.rely w w' → S w'

/-- Whatever happens within the scope between the operations of `p`, it ends, and ends in `Q`. -/
inductive Total : {α : Type} → Prog E Op Ret α → (Except E α → W → Prop) → W → Prop where
  | ret {α : Type} {r : Except E α} {Q : Except E α → W → Prop} {w : W} (h : Q r w) : Total (.ret r) Q w
  | call {α : Type} {op : Op} {next : Ret op → Prog E Op Ret α} {Q : Except E α → W → Prop} {w : W}
      (allowed : ∀ w₁, C.rely w w₁ → P.allowed a op w₁)
      (live : ∀ w₁, C.rely w w₁ → ∃ r w₂, M.sem a op w₁ r w₂)
      (after : ∀ w₁, C.rely w w₁ → ∀ r w₂, M.sem a op w₁ r w₂ → Total (next r) Q w₂) :
      Total (.call op next) Q w
  | loop {σ β α : Type} {body : σ → Prog E Op Ret (σ ⊕ β)} {s : σ}
      {next : Except E β → Prog E Op Ret α} {Q : Except E α → W → Prop} {w : W}
      (h : Total ((body s).handle (.turn body next)) Q w) : Total (.loop body s next) Q w

/-- From `S` on, `p` does what is allowed and ends, in `T` with a result or in `X` with an error. -/
def Runs (S : W → Prop) (p : Prog E Op Ret α) (T : α → W → Prop) (X : E → W → Prop) : Prop :=
  ∀ w, P.inv w → S w → C.Total p (fun r w => match r with
    | .ok x => T x w
    | .error e => X e w) w

variable {C} {p : Prog E Op Ret α} {w w' : W} {Q Q' : Except E α → W → Prop}

lemma inv_rely (hi : P.inv w) (h : C.rely w w') : P.inv w' :=
  (C.within hi h).inv hi

lemma Total.mono (h : C.Total p Q w) (hi : P.inv w) (hQ : ∀ r w, P.inv w → Q r w → Q' r w) :
    C.Total p Q' w := by
  induction h with
  | ret h => exact .ret (hQ _ _ hi h)
  | call allowed live _ ih =>
    refine .call allowed live fun w₁ hr r w₂ hsem => ih w₁ hr r w₂ hsem ?_ hQ
    exact P.inv_step (inv_rely hi hr) (allowed w₁ hr) hsem
  | loop _ ih => exact .loop (ih hi hQ)

lemma Total.handle {f : Except E α → Prog E Op Ret β} {Q' : Except E β → W → Prop} (h : C.Total p Q w)
    (hi : P.inv w) (hf : ∀ r w, P.inv w → Q r w → C.Total (f r) Q' w) : C.Total (p.handle f) Q' w := by
  induction h with
  | ret h => exact hf _ _ hi h
  | call allowed live _ ih =>
    refine .call allowed live fun w₁ hr r w₂ hsem => ih w₁ hr r w₂ hsem ?_ hf
    exact P.inv_step (inv_rely hi hr) (allowed w₁ hr) hsem
  | loop _ ih =>
    have hturn := ih hi hf
    rw [Prog.handle_handle] at hturn
    simp only [Prog.turn_handle] at hturn
    exact .loop hturn

/-- Stable in the widest scope is stable under every step. -/
lemma Stable.step {S : W → Prop} (h : (P.whole a).Stable S) : P.Stable a S :=
  fun w w' hi hs ho => h w w' hi hs (Relation.ReflTransGen.single ⟨hi, ho⟩)

/-- In the widest scope a total program is safe. -/
lemma Total.safe (h : (P.whole a).Total p Q w) {n : ℕ} : P.Safe a n p Q w := by
  induction h generalizing n with
  | ret h =>
    cases n with
    | zero => trivial
    | succ n => exact h
  | call allowed live _ ih =>
    cases n with
    | zero => trivial
    | succ n => exact fun w₁ hr => ⟨allowed w₁ hr, fun r w₂ hsem => ih w₁ hr r w₂ hsem⟩
  | loop _ ih =>
    cases n with
    | zero => trivial
    | succ n => exact ih

/-- A total program of a pool, where nobody else has to move, has a run of its own steps to its end. -/
theorem Total.exec_of [DecidableEq A] {R : Type} (init : Pool A W E Op Ret R → Prop) (hrefl : ∀ w, C.rely w w)
    (h : C.Total p Q w) : ∀ {f : Except E α → Prog E Op Ret R} {s : Pool A W E Op Ret R},
      s.progs a = some (p.handle f) → s.world = w → ∃ ls r w', Q r w' ∧
        (Pool.system M init).Run s ls ⟨Function.update s.progs a (some (f r)), w'⟩ ∧ ∀ l ∈ ls, l.Of a := by
  induction h with
  | ret h =>
    rintro f ⟨progs, w⟩ hprog rfl
    refine ⟨[], _, w, h, ?_, by simp⟩
    have hsame : Function.update progs a (some (f _)) = progs := Function.update_eq_self_iff.mpr hprog.symm
    rw [hsame]
    exact .nil _
  | call allowed live after ih =>
    rintro f ⟨progs, w⟩ hprog rfl
    obtain ⟨r, w₂, hsem⟩ := live _ (hrefl _)
    have hstep := Pool.Step.call (M := M) (s := ⟨progs, _⟩) hprog hsem
    obtain ⟨ls, r', w', hq, hrun, hof⟩ := ih _ (hrefl _) r w₂ hsem (f := f)
      (s := ⟨Function.update progs a (some _), w₂⟩) (Function.update_self ..) rfl
    rw [Function.update_idem] at hrun
    exact ⟨.call a :: ls, r', w', hq, .cons hstep hrun, List.forall_mem_cons.mpr ⟨Or.inl rfl, hof⟩⟩
  | loop _ ih =>
    rintro f ⟨progs, w⟩ hprog rfl
    have hstep := Pool.Step.turn (M := M) (s := ⟨progs, _⟩) hprog
    obtain ⟨ls, r', w', hq, hrun, hof⟩ := ih (f := f) (s := ⟨Function.update progs a (some _), _⟩)
      (Function.update_self ..) rfl
    rw [Function.update_idem, Prog.handle_handle] at hrun
    simp only [Prog.turn_handle] at hrun
    exact ⟨.turn a :: ls, r', w', hq, .cons hstep hrun, List.forall_mem_cons.mpr ⟨Or.inr rfl, hof⟩⟩

/-- A total program of a pool, where nobody else has to move, has a run to its end. -/
theorem Total.exec [DecidableEq A] {R : Type} {init : Pool A W E Op Ret R → Prop} (hrefl : ∀ w, C.rely w w)
    (h : C.Total p Q w) {f : Except E α → Prog E Op Ret R} {s : Pool A W E Op Ret R} (hprog : s.progs a = some (p.handle f))
    (hworld : s.world = w) :
    ∃ ls r w', Q r w' ∧ (Pool.system M init).Run s ls ⟨Function.update s.progs a (some (f r)), w'⟩ := by
  obtain ⟨ls, r, w', hq, hrun, -⟩ := h.exec_of init hrefl hprog hworld
  exact ⟨ls, r, w', hq, hrun⟩

variable {S S' : W → Prop} {T T' : α → W → Prop} {X X' : E → W → Prop} {U : β → W → Prop}

lemma Runs.triple (h : (P.whole a).Runs S p T X) : P.Triple a S p T X :=
  fun _ w hi hs => (h w hi hs).safe

namespace Runs

lemma mono (h : C.Runs S p T X) (hS : ∀ w, P.inv w → S' w → S w) (hT : ∀ x w, P.inv w → T x w → T' x w)
    (hX : ∀ e w, P.inv w → X e w → X' e w) : C.Runs S' p T' X' := by
  intro w hi hs
  refine (h w hi (hS w hi hs)).mono hi ?_
  rintro (e | x) w hi hr
  · exact hX e w hi hr
  · exact hT x w hi hr

lemma pre (h : C.Runs S p T X) (hS : ∀ w, P.inv w → S' w → S w) : C.Runs S' p T X :=
  h.mono hS (fun _ _ _ => id) fun _ _ _ => id

lemma post (h : C.Runs S p T X) (hT : ∀ x w, P.inv w → T x w → T' x w) : C.Runs S p T' X :=
  h.mono (fun _ _ => id) hT fun _ _ _ => id

lemma of_exists {ι : Type*} {S : ι → W → Prop} (h : ∀ i, C.Runs (S i) p T X) :
    C.Runs (fun w => ∃ i, S i w) p T X := by
  rintro w hi ⟨i, hs⟩
  exact h i w hi hs

lemma or (h : C.Runs S p T X) (h' : C.Runs S' p T X) : C.Runs (fun w => S w ∨ S' w) p T X := by
  rintro w hi (hs | hs)
  · exact h w hi hs
  · exact h' w hi hs

lemma imp {q : Prop} (h : q → C.Runs S p T X) : C.Runs (fun w => q ∧ S w) p T X :=
  fun w hi hs => h hs.1 w hi hs.2

lemma pure {x : α} (h : ∀ w, P.inv w → S w → T x w) : C.Runs S (Pure.pure x : Prog E Op Ret α) T X :=
  fun w hi hs => .ret (h w hi hs)

lemma throw {e : E} (h : ∀ w, P.inv w → S w → X e w) : C.Runs S (throw e : Prog E Op Ret α) T X :=
  fun w hi hs => .ret (h w hi hs)

lemma handle {q : Prog E Op Ret β} {f : Except E β → Prog E Op Ret α} {Y : E → W → Prop}
    (h : C.Runs S q U Y) (hok : ∀ x, C.Runs (U x) (f (.ok x)) T X)
    (herr : ∀ e, C.Runs (Y e) (f (.error e)) T X) : C.Runs S (q.handle f) T X := by
  intro w hi hs
  refine (h w hi hs).handle hi ?_
  rintro (e | x) w hi hr
  · exact herr e w hi hr
  · exact hok x w hi hr

lemma bind {q : Prog E Op Ret β} {f : β → Prog E Op Ret α} (h : C.Runs S q U X)
    (hf : ∀ x, C.Runs (U x) (f x) T X) : C.Runs S (q >>= f) T X :=
  handle h hf fun _ _ _ hx => .ret hx

lemma attempt {T : Except E α → W → Prop} {Y : E → W → Prop}
    (h : C.Runs S p (fun x => T (.ok x)) fun e => T (.error e)) : C.Runs S p.attempt T Y :=
  handle h (fun _ _ _ h => .ret h) fun _ _ _ h => .ret h

/-- A loop whose every turn lowers the measure of the invariant `J` or leaves. -/
lemma iterate {body : σ → Prog E Op Ret (σ ⊕ α)} {J : ℕ → σ → W → Prop}
    (h : ∀ n s, C.Runs (J n s) (body s) (fun r w => match r with
      | .inl s => ∃ m < n, J m s w
      | .inr b => T b w) X) (n : ℕ) (s : σ) : C.Runs (J n s) (Prog.iterate body s) T X := by
  induction n using Nat.strongRecOn generalizing s with
  | ind n ih =>
    intro w hi hs
    refine .loop ((h n s w hi hs).handle hi ?_)
    rintro (e | s | b) w hi hr
    · exact .ret hr
    · obtain ⟨m, hm, hj⟩ := hr
      exact ih m hm s w hi hj
    · exact .ret hr

lemma op {op : Op} {T : Ret op → W → Prop} (hS : C.Stable S) (hallowed : ∀ w, P.inv w → S w → P.allowed a op w)
    (hlive : ∀ w, P.inv w → S w → ∃ r w', M.sem a op w r w')
    (hsem : ∀ w r w', P.inv w → S w → P.inv w' → M.sem a op w r w' → T r w') :
    C.Runs S (Prog.op op) T X := by
  intro w hi hs
  have hnow : ∀ {w₁}, C.rely w w₁ → P.inv w₁ ∧ S w₁ := fun hr => ⟨inv_rely hi hr, hS _ _ hi hs hr⟩
  refine .call (fun w₁ hr => hallowed w₁ (hnow hr).1 (hnow hr).2) (fun w₁ hr => hlive w₁ (hnow hr).1 (hnow hr).2) ?_
  intro w₁ hr r w₂ h
  obtain ⟨hi₁, hs₁⟩ := hnow hr
  exact .ret (hsem w₁ r w₂ hi₁ hs₁ (P.inv_step hi₁ (hallowed w₁ hi₁ hs₁) h) h)

end Runs

end Scope

end Unixd.Lib.Protocol
