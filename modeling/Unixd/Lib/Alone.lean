import Unixd.Lib.Total

/-!
# A program on its own

How one program ends when nobody else takes a step, and a total specification of it that asks for
no protocol. A program that meets one has a run to its end, in every pool that it is part of, and each of its runs
ends as specified.
-/

namespace Unixd.Lib

variable {A W E Op : Type} {Ret : Op → Type} {M : Machine A W Op Ret} {a : A} {α β σ : Type}

/-- `p` takes `w` to `w'` and ends with `r`. -/
inductive Prog.Ends (M : Machine A W Op Ret) (a : A) :
    {α : Type} → Prog E Op Ret α → W → Except E α → W → Prop where
  | ret {α : Type} {r : Except E α} {w : W} : Ends M a (.ret r) w r w
  | call {α : Type} {op : Op} {next : Ret op → Prog E Op Ret α} {x : Ret op} {r : Except E α} {w w₁ w' : W}
      (sem : M.sem a op w x w₁) (rest : Ends M a (next x) w₁ r w') : Ends M a (.call op next) w r w'
  | loop {σ β α : Type} {body : σ → Prog E Op Ret (σ ⊕ β)} {s : σ} {next : Except E β → Prog E Op Ret α}
      {r : Except E α} {w w' : W} (rest : Ends M a ((body s).handle (.turn body next)) w r w') :
      Ends M a (.loop body s next) w r w'

lemma Prog.handle_turn {γ : Type} (body : σ → Prog E Op Ret (σ ⊕ γ)) (s : σ) (next : Except E γ → Prog E Op Ret α)
    (f : Except E α → Prog E Op Ret β) :
    ((body s).handle (.turn body next)).handle f = (body s).handle (.turn body fun r => (next r).handle f) := by
  rw [handle_handle]
  congr 1
  funext r
  rw [turn_handle]

namespace Prog.Ends

variable {p : Prog E Op Ret α} {f : Except E α → Prog E Op Ret β} {w w' : W} {x x' : Except E α} {r : Except E β}

/-- A run of a composition is a run of its first part and one of the rest. -/
lemma of_handle (h : (p.handle f).Ends M a w r w') : ∃ x w₁, p.Ends M a w x w₁ ∧ (f x).Ends M a w₁ r w' := by
  generalize hq : p.handle f = q at h
  induction h generalizing α with
  | ret =>
    cases p with
    | ret x =>
      refine ⟨x, _, .ret, ?_⟩
      rw [show f x = _ from hq]
      exact .ret
    | call op next => cases hq
    | loop body s next => cases hq
  | call sem rest ih =>
    cases p with
    | ret x =>
      refine ⟨x, _, .ret, ?_⟩
      rw [show f x = _ from hq]
      exact .call sem rest
    | call op next =>
      cases hq
      obtain ⟨x, w₁, hfirst, hrest⟩ := ih rfl
      exact ⟨x, w₁, .call sem hfirst, hrest⟩
    | loop body s next => cases hq
  | loop rest ih =>
    cases p with
    | ret x =>
      refine ⟨x, _, .ret, ?_⟩
      rw [show f x = _ from hq]
      exact .loop rest
    | call op next => cases hq
    | @loop σ β _ body s next =>
      cases hq
      obtain ⟨x, w₁, hfirst, hrest⟩ := ih (handle_turn _ _ _ f)
      exact ⟨x, w₁, .loop hfirst, hrest⟩

lemma of_ret (h : (Prog.ret x : Prog E Op Ret α).Ends M a w x' w') : x' = x ∧ w' = w := by
  cases h
  exact ⟨rfl, rfl⟩

lemma of_bind {f : α → Prog E Op Ret β} (h : (p >>= f).Ends M a w r w') :
    (∃ y w₁, p.Ends M a w (.ok y) w₁ ∧ (f y).Ends M a w₁ r w') ∨ ∃ e, p.Ends M a w (.error e) w' ∧ r = .error e := by
  obtain ⟨x, w₁, hfirst, hrest⟩ := of_handle h
  cases x with
  | ok y => exact Or.inl ⟨y, w₁, hfirst, hrest⟩
  | error e =>
    obtain ⟨rfl, rfl⟩ := of_ret hrest
    exact Or.inr ⟨e, hfirst, rfl⟩

/-- A run of the first part and one of the rest are a run of a composition. -/
lemma handle {w₁ : W} (h : p.Ends M a w x w₁) (hf : (f x).Ends M a w₁ r w') : (p.handle f).Ends M a w r w' := by
  induction h with
  | ret => exact hf
  | call sem rest ih => exact .call sem (ih hf)
  | loop rest ih =>
    refine .loop ?_
    rw [← handle_turn]
    exact ih hf

lemma bind {f : α → Prog E Op Ret β} {w₁ : W} {y : α} (h : p.Ends M a w (.ok y) w₁) (hf : (f y).Ends M a w₁ r w') :
    (p >>= f).Ends M a w r w' :=
  handle h hf

lemma bind_error {f : α → Prog E Op Ret β} {e : E} (h : p.Ends M a w (.error e) w') : (p >>= f).Ends M a w (.error e) w' :=
  handle h .ret

/-- A machine that can do more has the same runs and more. -/
lemma weaken {M' : Machine A W Op Ret} (hsem : ∀ {op y w w'}, M.sem a op w y w' → M'.sem a op w y w') (h : p.Ends M a w x w') :
    p.Ends M' a w x w' := by
  induction h with
  | ret => exact .ret
  | call sem rest ih => exact .call (hsem sem) ih
  | loop rest ih => exact .loop ih

/-- A program that never throws. -/
def Sure (M : Machine A W Op Ret) (a : A) (p : Prog E Op Ret α) : Prop :=
  ∀ w e w', ¬p.Ends M a w (.error e) w'

lemma sure_pure (x : α) : Sure M a (pure x : Prog E Op Ret α) := by
  intro w e w' h
  cases (of_ret h).1

lemma sure_attempt (p : Prog E Op Ret α) : Sure M a p.attempt := by
  intro w e w' h
  obtain ⟨x, w₁, -, hret⟩ := of_handle h
  cases (of_ret hret).1

lemma sure_op (op : Op) : Sure M a (Prog.op op : Prog E Op Ret (Ret op)) := by
  intro w e w' h
  cases h with
  | call sem rest => cases (of_ret rest).1

lemma Sure.bind {f : α → Prog E Op Ret β} (hp : Sure M a p) (hf : ∀ x, Sure M a (f x)) : Sure M a (p >>= f) := by
  intro w e w' h
  obtain ⟨y, w₁, -, hrest⟩ | ⟨e', hfirst, -⟩ := of_bind h
  · exact hf y w₁ e w' hrest
  · exact hp w e' w' hfirst

/-- What every operation keeps, every run keeps. -/
lemma keeps {I : W → Prop} (hI : ∀ {op y w w'}, M.sem a op w y w' → I w → I w') (h : p.Ends M a w x w') (hw : I w) :
    I w' := by
  induction h with
  | ret => exact hw
  | call sem rest ih => exact ih (hI sem hw)
  | loop rest ih => exact ih hw

end Prog.Ends

namespace Protocol

/-- The protocol that asks for nothing. -/
def free (M : Machine A W Op Ret) : Protocol M where
  inv _ := True
  allowed _ _ _ := True
  inv_step _ _ _ := trivial
  inv_env _ _ := trivial
  inv_kill _ _ := trivial

end Protocol

/-- From `S`, with nobody else about, `p` ends in `T` with a result or in `X` with an error. -/
abbrev Lone (M : Machine A W Op Ret) (a : A) (S : W → Prop) (p : Prog E Op Ret α) (T : α → W → Prop)
    (X : E → W → Prop) : Prop :=
  ((Protocol.free M).alone a).Runs S p T X

namespace Lone

open Protocol

variable {S S' : W → Prop} {p : Prog E Op Ret α} {T : α → W → Prop} {X : E → W → Prop} {Q : Except E α → W → Prop}
  {w w' : W} {r : Except E α}

lemma op {op : Op} {T : Ret op → W → Prop} (hlive : ∀ w, S w → ∃ r w', M.sem a op w r w')
    (hsem : ∀ w r w', S w → M.sem a op w r w' → T r w') : Lone M a S (Prog.op op) T X :=
  Scope.Runs.op (fun _ _ _ hs hr => hr ▸ hs) (fun _ _ _ => trivial) (fun w _ hs => hlive w hs)
    fun w r w' _ hs _ h => hsem w r w' hs h

lemma mono {S' : W → Prop} {T' : α → W → Prop} {X' : E → W → Prop} (h : Lone M a S p T X) (hS : ∀ w, S' w → S w)
    (hT : ∀ x w, T x w → T' x w) (hX : ∀ e w, X e w → X' e w) : Lone M a S' p T' X' :=
  Scope.Runs.mono h (fun w _ => hS w) (fun x w _ => hT x w) fun e w _ => hX e w

lemma total_ends (h : ((free M).alone a).Total p Q w) (hr : p.Ends M a w r w') : Q r w' := by
  induction hr with
  | ret =>
    cases h with
    | ret h => exact h
  | call sem rest ih =>
    cases h with
    | call allowed live after => exact ih (after _ rfl _ _ sem)
  | loop rest ih =>
    cases h with
    | loop h => exact ih h

lemma exists_ends (h : ((free M).alone a).Total p Q w) : ∃ r w', p.Ends M a w r w' ∧ Q r w' := by
  induction h with
  | ret h => exact ⟨_, _, .ret, h⟩
  | call allowed live after ih =>
    obtain ⟨x, w₂, hsem⟩ := live _ rfl
    obtain ⟨r, w', hrest, hq⟩ := ih _ rfl x w₂ hsem
    exact ⟨r, w', .call hsem hrest, hq⟩
  | loop h ih =>
    obtain ⟨r, w', hrest, hq⟩ := ih
    exact ⟨r, w', .loop hrest, hq⟩

/-- There is a run, and every run ends as the specification says. -/
theorem ends (h : Lone M a S p T X) (hs : S w) :
    (∃ r w', p.Ends M a w r w') ∧ ∀ r w', p.Ends M a w r w' → match r with
      | .ok x => T x w'
      | .error e => X e w' := by
  refine ⟨?_, fun r w' hr => total_ends (h w trivial hs) hr⟩
  obtain ⟨r, w', hr, -⟩ := exists_ends (h w trivial hs)
  exact ⟨r, w', hr⟩

end Lone

end Unixd.Lib
