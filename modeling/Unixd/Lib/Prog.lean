import Mathlib.Tactic.Common

/-!
# Programs over operations

A program is a tree: it ends with a result or an error, performs an operation and goes on with
what it answered, or runs a loop. What an operation does is left to a machine, so one program
can be read both alone and among others that interleave with it.
-/

namespace Unixd.Lib

inductive Prog (E Op : Type) (Ret : Op → Type) : Type → Type 1 where
  | ret {α : Type} (r : Except E α) : Prog E Op Ret α
  | call {α : Type} (op : Op) (next : Ret op → Prog E Op Ret α) : Prog E Op Ret α
  | loop {σ β α : Type} (body : σ → Prog E Op Ret (σ ⊕ β)) (s : σ)
      (next : Except E β → Prog E Op Ret α) : Prog E Op Ret α

namespace Prog

variable {E Op : Type} {Ret : Op → Type} {α β σ : Type}

/-- Goes on with how `p` ended. -/
def handle : {α : Type} → Prog E Op Ret α → (Except E α → Prog E Op Ret β) → Prog E Op Ret β
  | _, .ret r, f => f r
  | _, .call op next, f => .call op fun x => (next x).handle f
  | _, .loop body s next, f => .loop body s fun r => (next r).handle f

def bind (p : Prog E Op Ret α) (f : α → Prog E Op Ret β) : Prog E Op Ret β :=
  p.handle fun
    | .ok a => f a
    | .error e => .ret (.error e)

instance : Monad (Prog E Op Ret) where
  pure a := .ret (.ok a)
  bind := bind

instance : MonadExceptOf E (Prog E Op Ret) where
  throw e := .ret (.error e)
  tryCatch p f := p.handle fun
    | .ok a => .ret (.ok a)
    | .error e => f e

/-- One operation. -/
def op (op : Op) : Prog E Op Ret (Ret op) :=
  .call op fun r => .ret (.ok r)

/-- A failure of `p` as a result. -/
def attempt (p : Prog E Op Ret α) : Prog E Op Ret (Except E α) :=
  p.handle fun r => .ret (.ok r)

/-- Runs `body` from `s` until it gives a result. -/
def iterate (body : σ → Prog E Op Ret (σ ⊕ β)) (s : σ) : Prog E Op Ret β :=
  .loop body s .ret

/-- What follows one turn of a loop. -/
def turn (body : σ → Prog E Op Ret (σ ⊕ β)) (next : Except E β → Prog E Op Ret α) :
    Except E (σ ⊕ β) → Prog E Op Ret α
  | .ok (.inl s) => .loop body s next
  | .ok (.inr b) => next (.ok b)
  | .error e => next (.error e)

lemma handle_handle {γ : Type} (p : Prog E Op Ret α) (f : Except E α → Prog E Op Ret β)
    (g : Except E β → Prog E Op Ret γ) :
    (p.handle f).handle g = p.handle fun r => (f r).handle g := by
  induction p with
  | ret r => rfl
  | call op next ih =>
    change call op _ = call op _
    congr 1
    funext x
    exact ih x f
  | loop body s next _ ih =>
    change loop body s _ = loop body s _
    congr 1
    funext r
    exact ih r f

lemma handle_ret (p : Prog E Op Ret α) : p.handle .ret = p := by
  induction p with
  | ret r => rfl
  | call op next ih =>
    change call op _ = call op _
    congr 1
    funext x
    exact ih x
  | loop body s next _ ih =>
    change loop body s _ = loop body s _
    congr 1
    funext r
    exact ih r

lemma bind_assoc {γ : Type} (p : Prog E Op Ret α) (f : α → Prog E Op Ret β) (g : β → Prog E Op Ret γ) :
    (p >>= f) >>= g = p >>= fun x => f x >>= g := by
  refine (handle_handle p _ _).trans ?_
  change p.handle _ = p.handle _
  congr 1
  funext r
  cases r <;> rfl

lemma turn_handle (body : σ → Prog E Op Ret (σ ⊕ β)) {γ : Type} (next : Except E β → Prog E Op Ret α)
    (f : Except E α → Prog E Op Ret γ) (r : Except E (σ ⊕ β)) :
    (turn body next r).handle f = turn body (fun r => (next r).handle f) r := by
  rcases r with e | s | b <;> rfl

section

variable {Op' : Type} {Ret' : Op' → Type}

/-- The same program where there are more operations. -/
def lift : {α : Type} → Prog E Op Ret α → Prog E (Op ⊕ Op') (Sum.elim Ret Ret') α
  | _, .ret r => .ret r
  | _, .call op next => .call (.inl op) fun x => (next x).lift
  | _, .loop body s next => .loop (fun s => (body s).lift) s fun r => (next r).lift

@[simp] lemma lift_handle (p : Prog E Op Ret α) (f : Except E α → Prog E Op Ret β) :
    ((p.handle f).lift : Prog E (Op ⊕ Op') (Sum.elim Ret Ret') β) = p.lift.handle fun r => (f r).lift := by
  induction p with
  | ret r => rfl
  | call op next ih =>
    change call (Sum.inl op) _ = call (Sum.inl op) _
    congr 1
    funext x
    exact ih x f
  | loop body s next _ ih =>
    change loop _ s _ = loop _ s _
    congr 1
    funext r
    exact ih r f

@[simp] lemma lift_bind (p : Prog E Op Ret α) (f : α → Prog E Op Ret β) :
    ((p >>= f).lift : Prog E (Op ⊕ Op') (Sum.elim Ret Ret') β) = p.lift >>= fun x => (f x).lift := by
  refine (lift_handle p _).trans ?_
  change p.lift.handle _ = p.lift.handle _
  congr 1
  funext r
  cases r <;> rfl

lemma lift_iterate (body : σ → Prog E Op Ret (σ ⊕ β)) (s : σ) :
    ((iterate body s).lift : Prog E (Op ⊕ Op') (Sum.elim Ret Ret') β) = iterate (fun s => (body s).lift) s :=
  rfl

end

end Prog

end Unixd.Lib
