import Mathlib.Logic.Function.Basic
import Mathlib.Logic.Relation
import Unixd.Lib.Prog
import Unixd.Lib.System

/-!
# Rely and guarantee

Agents run programs on one world, interleaved by operation, and may be killed. A protocol is an
invariant with what each agent may do to keep it; what the others may then do is what an agent
relies on. `Spec` is partial correctness under that rely, and the pool of all programs keeps the
invariant when every program meets its own specification.
-/

namespace Unixd.Lib

structure Machine (A W Op : Type) (Ret : Op → Type) where
  sem : A → (op : Op) → W → Ret op → W → Prop
  env : W → W → Prop
  kill : (A → Prop) → W → W

/-- An invariant that every allowed operation, the environment and every death keep. -/
structure Protocol {A W Op : Type} {Ret : Op → Type} (M : Machine A W Op Ret) where
  inv : W → Prop
  allowed : A → Op → W → Prop
  inv_step : ∀ {a op w r w'}, inv w → allowed a op w → M.sem a op w r w' → inv w'
  inv_env : ∀ {w w'}, inv w → M.env w w' → inv w'
  inv_kill : ∀ {w} (dead : A → Prop), inv w → inv (M.kill dead w)

variable {A W E Op : Type} {Ret : Op → Type} {M : Machine A W Op Ret} {α β σ : Type}

namespace Protocol

variable (P : Protocol M) (a : A)

/-- What one step of anything but `a` can do. -/
inductive Other (w : W) : W → Prop where
  | step {b : A} {op : Op} {r : Ret op} {w' : W} (ne : b ≠ a) (allowed : P.allowed b op w)
      (sem : M.sem b op w r w') : Other w w'
  | env {w' : W} (h : M.env w w') : Other w w'
  | kill (dead : A → Prop) (alive : ¬dead a) : Other w (M.kill dead w)

def Rely : W → W → Prop :=
  Relation.ReflTransGen fun w w' => P.inv w ∧ P.Other a w w'

/-- An assertion of `a` that no other step breaks. -/
def Stable (S : W → Prop) : Prop :=
  ∀ w w', P.inv w → S w → P.Other a w w' → S w'

variable {P a} {w w' : W} {S S' : W → Prop}

lemma Other.inv (h : P.Other a w w') (hi : P.inv w) : P.inv w' := by
  cases h with
  | step ne allowed sem => exact P.inv_step hi allowed sem
  | env h => exact P.inv_env hi h
  | kill dead alive => exact P.inv_kill dead hi

lemma Rely.inv (h : P.Rely a w w') (hi : P.inv w) : P.inv w' := by
  induction h with
  | refl => exact hi
  | tail _ h ih => exact h.2.inv ih

lemma Stable.rely (hS : P.Stable a S) (hs : S w) (h : P.Rely a w w') : S w' := by
  induction h with
  | refl => exact hs
  | tail _ h ih => exact hS _ _ h.1 ih h.2

lemma Stable.and (hS : P.Stable a S) (hS' : P.Stable a S') : P.Stable a fun w => S w ∧ S' w :=
  fun w w' hi hs h => ⟨hS w w' hi hs.1 h, hS' w w' hi hs.2 h⟩

lemma stable_const (p : Prop) : P.Stable a fun _ => p :=
  fun _ _ _ hp _ => hp

lemma stable_exists {ι : Type*} {S : ι → W → Prop} (h : ∀ i, P.Stable a (S i)) :
    P.Stable a fun w => ∃ i, S i w := by
  rintro w w' hi ⟨i, hs⟩ ho
  exact ⟨i, h i w w' hi hs ho⟩

/-- For `n` operations of `a`, every one is allowed where it happens, and `Q` holds if `p` ends
among them. -/
def Safe (P : Protocol M) (a : A) :
    ℕ → {α : Type} → Prog E Op Ret α → (Except E α → W → Prop) → W → Prop
  | 0, _, _, _, _ => True
  | _ + 1, _, .ret r, Q, w => Q r w
  | n + 1, _, .call op next, Q, w => ∀ w₁, P.Rely a w w₁ →
      P.allowed a op w₁ ∧ ∀ r w₂, M.sem a op w₁ r w₂ → Safe P a n (next r) Q w₂
  | n + 1, _, .loop body s next, Q, w => Safe P a n ((body s).handle (.turn body next)) Q w

/-- From `S`, whatever the others do, `p` does only what is allowed, and `Q` holds when it ends. -/
def Spec (P : Protocol M) (a : A) (S : W → Prop) (p : Prog E Op Ret α) (Q : Except E α → W → Prop) :
    Prop :=
  ∀ n w, P.inv w → S w → P.Safe a n p Q w

variable {p : Prog E Op Ret α} {Q Q' : Except E α → W → Prop}

lemma Safe.mono {n : ℕ} (h : P.Safe a n p Q w) (hi : P.inv w) (hQ : ∀ r w, P.inv w → Q r w → Q' r w) :
    P.Safe a n p Q' w := by
  induction n generalizing p w with
  | zero => trivial
  | succ n ih =>
    cases p with
    | ret r => exact hQ r w hi h
    | call op next =>
      intro w₁ hr
      obtain ⟨hallowed, hnext⟩ := h w₁ hr
      exact ⟨hallowed, fun r w₂ hsem => ih (hnext r w₂ hsem) (P.inv_step (hr.inv hi) hallowed hsem)⟩
    | loop body s next => exact ih h hi

lemma Safe.handle {n : ℕ} {f : Except E α → Prog E Op Ret β} {Q' : Except E β → W → Prop}
    (h : P.Safe a n p Q w) (hi : P.inv w)
    (hf : ∀ r m w, m ≤ n → P.inv w → Q r w → P.Safe a m (f r) Q' w) :
    P.Safe a n (p.handle f) Q' w := by
  induction n generalizing p w with
  | zero => trivial
  | succ n ih =>
    replace ih := fun {p} {w} h hi => @ih p w h hi fun r m w hm => hf r m w (Nat.le_succ_of_le hm)
    cases p with
    | ret r => exact hf r _ w (Nat.le_refl _) hi h
    | call op next =>
      intro w₁ hr
      obtain ⟨hallowed, hnext⟩ := h w₁ hr
      exact ⟨hallowed, fun r w₂ hsem => ih (hnext r w₂ hsem) (P.inv_step (hr.inv hi) hallowed hsem)⟩
    | loop body s next =>
      have hturn := ih h hi
      rw [Prog.handle_handle] at hturn
      simp only [Prog.turn_handle] at hturn
      exact hturn

/-- Safety outlives what the others do, if what `p` leaves behind does. -/
lemma Safe.rely {n : ℕ} (hQ : ∀ r, P.Stable a (Q r)) (h : P.Safe a n p Q w) (hr : P.Rely a w w') :
    P.Safe a n p Q w' := by
  induction n generalizing p with
  | zero => trivial
  | succ n ih =>
    cases p with
    | ret r => exact (hQ r).rely h hr
    | call op next => exact fun w₁ hr₁ => h w₁ (Relation.ReflTransGen.trans hr hr₁)
    | loop body s next => exact ih h

variable {S S' : W → Prop} {f : Except E α → Prog E Op Ret β} {Q' : Except E β → W → Prop}

lemma Spec.mono {Q' : Except E α → W → Prop} (h : P.Spec a S p Q) (hS : ∀ w, P.inv w → S' w → S w)
    (hQ : ∀ r w, P.inv w → Q r w → Q' r w) : P.Spec a S' p Q' :=
  fun n w hi hs => (h n w hi (hS w hi hs)).mono hi hQ

lemma Spec.exists {ι : Type*} {S : ι → W → Prop} (h : ∀ i, P.Spec a (S i) p Q) :
    P.Spec a (fun w => ∃ i, S i w) p Q := by
  rintro n w hi ⟨i, hs⟩
  exact h i n w hi hs

lemma Spec.imp {q : Prop} (h : q → P.Spec a S p Q) : P.Spec a (fun w => q ∧ S w) p Q :=
  fun n w hi hs => h hs.1 n w hi hs.2

lemma Spec.or (h : P.Spec a S p Q) (h' : P.Spec a S' p Q) : P.Spec a (fun w => S w ∨ S' w) p Q := by
  rintro n w hi (hs | hs)
  · exact h n w hi hs
  · exact h' n w hi hs

lemma Spec.ret {r : Except E α} (h : ∀ w, P.inv w → S w → Q r w) : P.Spec a S (.ret r) Q := by
  intro n w hi hs
  cases n with
  | zero => trivial
  | succ n => exact h w hi hs

lemma Spec.handle (h : P.Spec a S p Q) (hf : ∀ r, P.Spec a (Q r) (f r) Q') :
    P.Spec a S (p.handle f) Q' :=
  fun n w hi hs => (h n w hi hs).handle hi fun r m w _ hi hq => hf r m w hi hq

/-- The next operation, in an assertion that nothing else breaks. -/
lemma Spec.call {op : Op} {next : Ret op → Prog E Op Ret α} {T : Ret op → W → Prop} (hS : P.Stable a S)
    (hallowed : ∀ w, P.inv w → S w → P.allowed a op w)
    (hsem : ∀ w r w', P.inv w → S w → P.inv w' → M.sem a op w r w' → T r w')
    (hnext : ∀ r, P.Spec a (T r) (next r) Q) : P.Spec a S (.call op next) Q := by
  intro n w hi hs
  cases n with
  | zero => trivial
  | succ n =>
    intro w₁ hr
    have hi₁ := hr.inv hi
    have hs₁ := hS.rely hs hr
    refine ⟨hallowed w₁ hi₁ hs₁, fun r w₂ h => ?_⟩
    have hi₂ := P.inv_step hi₁ (hallowed w₁ hi₁ hs₁) h
    exact hnext r n w₂ hi₂ (hsem w₁ r w₂ hi₁ hs₁ hi₂ h)

lemma Spec.op {op : Op} {Q : Except E (Ret op) → W → Prop} (hS : P.Stable a S)
    (hallowed : ∀ w, P.inv w → S w → P.allowed a op w)
    (hsem : ∀ w r w', P.inv w → S w → P.inv w' → M.sem a op w r w' → Q (.ok r) w') :
    P.Spec a S (Prog.op op) Q :=
  Spec.call hS hallowed hsem fun _ => Spec.ret fun _ _ h => h

/-- A loop whose every turn keeps the invariant `J` or leaves in `T`. -/
lemma Spec.loop {body : σ → Prog E Op Ret (σ ⊕ α)} {next : Except E α → Prog E Op Ret β}
    {J : σ → W → Prop} {T : Except E α → W → Prop}
    (hbody : ∀ s, P.Spec a (J s) (body s) fun r w => match r with
      | .ok (.inl s) => J s w
      | .ok (.inr b) => T (.ok b) w
      | .error e => T (.error e) w)
    (hnext : ∀ r, P.Spec a (T r) (next r) Q') (s : σ) : P.Spec a (J s) (.loop body s next) Q' := by
  intro n
  induction n using Nat.strongRecOn generalizing s with
  | ind n ih =>
    intro w hi hs
    cases n with
    | zero => trivial
    | succ n =>
      refine (hbody s n w hi hs).handle hi fun r m w hm hi hr => ?_
      rcases r with e | s | b
      · exact hnext _ m w hi hr
      · exact ih m (by omega) s w hi hr
      · exact hnext _ m w hi hr

end Protocol

/-- All programs and the world they share. -/
structure Pool (A W E Op : Type) (Ret : Op → Type) (R : Type) where
  progs : A → Option (Prog E Op Ret R)
  world : W

namespace Pool

inductive Label (A : Type) where
  | call (a : A)
  | turn (a : A)
  | env
  | kill (dead : A → Prop)

/-- The step of a label is one of `a`. -/
def Label.Of (a : A) (l : Label A) : Prop :=
  l = .call a ∨ l = .turn a

variable {R : Type} [DecidableEq A]

/-- One operation of one program, one turn of a loop, a step of the environment, or a death. -/
inductive Step (M : Machine A W Op Ret) : Pool A W E Op Ret R → Label A → Pool A W E Op Ret R → Prop where
  | call {s} {a : A} {op : Op} {next : Ret op → Prog E Op Ret R} {r : Ret op} {w : W}
      (h : s.progs a = some (.call op next)) (sem : M.sem a op s.world r w) :
      Step M s (.call a) ⟨Function.update s.progs a (some (next r)), w⟩
  | turn {s} {a : A} {σ β : Type} {body : σ → Prog E Op Ret (σ ⊕ β)} {x : σ}
      {next : Except E β → Prog E Op Ret R} (h : s.progs a = some (.loop body x next)) :
      Step M s (.turn a)
        ⟨Function.update s.progs a (some ((body x).handle (.turn body next))), s.world⟩
  | env {s} {w : W} (h : M.env s.world w) : Step M s .env ⟨s.progs, w⟩
  | kill {s} (dead : A → Prop) (progs : A → Option (Prog E Op Ret R))
      (hdead : ∀ a, dead a → progs a = none) (halive : ∀ a, ¬dead a → progs a = s.progs a) :
      Step M s (.kill dead) ⟨progs, M.kill dead s.world⟩

def system (M : Machine A W Op Ret) (init : Pool A W E Op Ret R → Prop) :
    System (Pool A W E Op Ret R) (Label A) where
  init := init
  step := Step M

/-- The invariant holds and every program is safe from here on. -/
structure Ok (P : Protocol M) (Q : A → Except E R → W → Prop) (s : Pool A W E Op Ret R) : Prop where
  inv : P.inv s.world
  safe : ∀ a p, s.progs a = some p → ∀ n, P.Safe a n p (Q a) s.world

variable {P : Protocol M} {Q : A → Except E R → W → Prop} {s t : Pool A W E Op Ret R} {l : Label A}

omit [DecidableEq A] in
lemma Ok.allowed (h : Ok P Q s) {a : A} {op : Op} {next : Ret op → Prog E Op Ret R}
    (ha : s.progs a = some (.call op next)) : P.allowed a op s.world :=
  (h.safe a _ ha 1 s.world Relation.ReflTransGen.refl).1

omit [DecidableEq A] in
lemma Ok.done (h : Ok P Q s) {a : A} {r : Except E R} (ha : s.progs a = some (.ret r)) : Q a r s.world :=
  h.safe a _ ha 1

/-- What one step does to the world, for an agent that does not take it. -/
lemma Ok.other (h : Ok P Q s) (hstep : Step M s l t) (a : A)
    (hl : l ≠ .call a ∧ ∀ dead, l = .kill dead → ¬dead a) : s.world = t.world ∨ P.Other a s.world t.world := by
  cases hstep with
  | @call b op next r w hb sem =>
    have hne : b ≠ a := by
      rintro rfl
      exact hl.1 rfl
    exact Or.inr (.step hne (h.allowed hb) sem)
  | turn hb => exact Or.inl rfl
  | env he => exact Or.inr (.env he)
  | kill dead progs hdead halive => exact Or.inr (.kill dead (hl.2 dead rfl))

theorem Ok.step (hQ : ∀ a r, P.Stable a (Q a r)) (h : Ok P Q s) (hstep : Step M s l t) : Ok P Q t := by
  have hother : ∀ a, (l ≠ .call a ∧ ∀ dead, l = .kill dead → ¬dead a) → ∀ p, s.progs a = some p →
      ∀ n, P.Safe a n p (Q a) t.world := by
    intro a hl p hp n
    rcases h.other hstep a hl with heq | ho
    · exact heq ▸ h.safe a p hp n
    · exact (h.safe a p hp n).rely (hQ a) (.single ⟨h.inv, ho⟩)
  cases hstep with
  | @call a op next r w ha sem =>
    refine ⟨P.inv_step h.inv (h.allowed ha) sem, fun b p hb n => ?_⟩
    by_cases hab : b = a
    · subst hab
      obtain rfl : next r = p := by simpa using hb
      exact (h.safe b _ ha (n + 1) s.world Relation.ReflTransGen.refl).2 r w sem
    · refine hother b ⟨?_, by simp⟩ p (by simpa [hab] using hb) n
      rintro ⟨⟩
      exact hab rfl
  | @turn a σ β body x next ha =>
    refine ⟨h.inv, fun b p hb n => ?_⟩
    by_cases hab : b = a
    · subst hab
      obtain rfl : (body x).handle (.turn body next) = p := by simpa using hb
      exact h.safe b _ ha (n + 1)
    · exact h.safe b p (by simpa [hab] using hb) n
  | env he =>
    exact ⟨P.inv_env h.inv he, fun a p ha n => hother a ⟨by simp, by simp⟩ p ha n⟩
  | kill dead progs hdead halive =>
    refine ⟨P.inv_kill dead h.inv, fun a p ha n => ?_⟩
    have hlive : ¬dead a := by
      intro hd
      simp [hdead a hd] at ha
    refine hother a ⟨by simp, ?_⟩ p ((halive a hlive).symm.trans ha) n
    rintro _ ⟨⟩
    exact hlive

/-- A pool whose programs meet their specifications at the start is in order in every state that
it reaches. -/
theorem ok_of_reachable {init : Pool A W E Op Ret R → Prop} {S : A → W → Prop}
    (hQ : ∀ a r, P.Stable a (Q a r)) (hinv : ∀ s, init s → P.inv s.world)
    (hspec : ∀ s, init s → ∀ a p, s.progs a = some p → S a s.world ∧ P.Spec a (S a) p (Q a))
    (h : (system M init).Reachable s) : Ok P Q s := by
  refine h.invariant (fun s hs => ⟨hinv s hs, fun a p ha n => ?_⟩) fun _ _ _ hok hstep => hok.step hQ hstep
  obtain ⟨hstart, hp⟩ := hspec s hs a p ha
  exact hp n s.world (hinv s hs) hstart

end Pool

end Unixd.Lib
