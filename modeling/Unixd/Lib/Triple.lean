import Unixd.Lib.Rely

/-!
# Triples

Safety of programs put together with `do`: a precondition, what holds when a result is there, and
what holds when there is an error.
-/

namespace Unixd.Lib

/-- `T` of a result, `X` of an error. -/
abbrev Upshot {W E α : Type*} (T : α → W → Prop) (X : E → W → Prop) : Except E α → W → Prop
  | .ok x => T x
  | .error e => X e

/-- `T` of what was found, `X` where nothing was. -/
abbrev Sought {W α : Type*} (T : α → W → Prop) (X : W → Prop) : Option α → W → Prop
  | some x => T x
  | none => X

namespace Protocol

variable {A W E Op : Type} {Ret : Op → Type} {M : Machine A W Op Ret} {α β σ : Type}

/-- From `S` on, `p` does what is allowed and ends in `T` with a result or in `X` with an error. -/
def Triple (P : Protocol M) (a : A) (S : W → Prop) (p : Prog E Op Ret α) (T : α → W → Prop)
    (X : E → W → Prop) : Prop :=
  P.Spec a S p fun r w => match r with
    | .ok x => T x w
    | .error e => X e w

variable {P : Protocol M} {a : A} {S S' : W → Prop} {p : Prog E Op Ret α} {T T' : α → W → Prop}
  {X X' : E → W → Prop} {U : β → W → Prop}

namespace Triple

lemma mono (h : P.Triple a S p T X) (hS : ∀ w, P.inv w → S' w → S w) (hT : ∀ x w, P.inv w → T x w → T' x w)
    (hX : ∀ e w, P.inv w → X e w → X' e w) : P.Triple a S' p T' X' := by
  refine Spec.mono h hS ?_
  rintro (e | x) w hi hr
  · exact hX e w hi hr
  · exact hT x w hi hr

lemma pre (h : P.Triple a S p T X) (hS : ∀ w, P.inv w → S' w → S w) : P.Triple a S' p T X :=
  h.mono hS (fun _ _ _ => id) fun _ _ _ => id

lemma post (h : P.Triple a S p T X) (hT : ∀ x w, P.inv w → T x w → T' x w) : P.Triple a S p T' X :=
  h.mono (fun _ _ => id) hT fun _ _ _ => id

lemma of_exists {ι : Type*} {S : ι → W → Prop} (h : ∀ i, P.Triple a (S i) p T X) :
    P.Triple a (fun w => ∃ i, S i w) p T X :=
  Spec.exists h

lemma imp {q : Prop} (h : q → P.Triple a S p T X) : P.Triple a (fun w => q ∧ S w) p T X :=
  Spec.imp h

lemma or (h : P.Triple a S p T X) (h' : P.Triple a S' p T X) : P.Triple a (fun w => S w ∨ S' w) p T X :=
  Spec.or h h'

lemma pure {x : α} (h : ∀ w, P.inv w → S w → T x w) :
    P.Triple a S (Pure.pure x : Prog E Op Ret α) T X :=
  Spec.ret h

lemma throw {e : E} (h : ∀ w, P.inv w → S w → X e w) : P.Triple a S (throw e : Prog E Op Ret α) T X :=
  Spec.ret h

lemma bind {q : Prog E Op Ret β} {f : β → Prog E Op Ret α} (h : P.Triple a S q U X)
    (hf : ∀ x, P.Triple a (U x) (f x) T X) : P.Triple a S (q >>= f) T X := by
  refine Spec.handle h ?_
  rintro (e | x)
  · exact Spec.ret fun _ _ h => h
  · exact hf x

lemma handle {q : Prog E Op Ret β} {f : Except E β → Prog E Op Ret α} {Y : E → W → Prop}
    (h : P.Triple a S q U Y) (hok : ∀ x, P.Triple a (U x) (f (.ok x)) T X)
    (herr : ∀ e, P.Triple a (Y e) (f (.error e)) T X) : P.Triple a S (q.handle f) T X := by
  refine Spec.handle h ?_
  rintro (e | x)
  · exact herr e
  · exact hok x

lemma attempt {T : Except E α → W → Prop} {Y : E → W → Prop}
    (h : P.Triple a S p (fun x => T (.ok x)) fun e => T (.error e)) : P.Triple a S p.attempt T Y :=
  h.handle (fun _ => Spec.ret fun _ _ h => h) fun _ => Spec.ret fun _ _ h => h

/-- A loop whose every turn keeps the invariant `J` or leaves. -/
lemma iterate {body : σ → Prog E Op Ret (σ ⊕ α)} {J : σ → W → Prop}
    (h : ∀ s, P.Triple a (J s) (body s) (fun r w => match r with
      | .inl s => J s w
      | .inr b => T b w) X) (s : σ) : P.Triple a (J s) (Prog.iterate body s) T X := by
  refine Spec.loop (T := fun r w => match r with
    | .ok b => T b w
    | .error e => X e w) (fun s => ?_) (fun r => Spec.ret fun _ _ h => h) s
  refine Spec.mono (h s) (fun _ _ => id) ?_
  rintro (e | s | b) w _ hr
  · exact hr
  · exact hr
  · exact hr

lemma op {op : Op} {T : Ret op → W → Prop} (hS : P.Stable a S)
    (hallowed : ∀ w, P.inv w → S w → P.allowed a op w)
    (hsem : ∀ w r w', P.inv w → S w → P.inv w' → M.sem a op w r w' → T r w') :
    P.Triple a S (Prog.op op) T X :=
  Spec.op hS hallowed hsem

end Triple

end Protocol

end Unixd.Lib
