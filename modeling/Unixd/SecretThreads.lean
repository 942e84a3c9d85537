import Unixd.Lib.System
import Unixd.Secrets

/-!
# The secret store among threads

Each operation reads the clock before it takes the mutex, so locked sections can run in another order
than their readings. A `get` that read the clock before the put whose secret it finds sets the time of
the last read back, and with it the idle lifetime.
-/

namespace Unixd.Secrets

open Unixd.Lib

variable {A S : Type}

/-- Threads with their calls that have read the clock and not yet locked the store. -/
structure Threads (A S : Type) where
  store : SecretStore S
  clock : ℕ
  pending : A → Option (ℕ × Op S)

namespace Threads

inductive Label (A S : Type) where
  | tick
  | reads (a : A) (op : Op S)
  | locks (a : A) (now : ℕ) (op : Op S) (answer : Option S)

variable [DecidableEq A]

/-- The clock moves on, a call reads it, or the locked section of a call runs; `remove` and `clear` make no use of
their reading. -/
inductive Step : Threads A S → Label A S → Threads A S → Prop where
  | tick {s : Threads A S} {clock : ℕ} (h : s.clock ≤ clock) : Step s .tick { s with clock := clock }
  | reads {s : Threads A S} {a : A} {op : Op S} (h : s.pending a = none) :
      Step s (.reads a op) { s with pending := Function.update s.pending a (some (s.clock, op)) }
  | locks {s : Threads A S} {a : A} {now : ℕ} {op : Op S} (h : s.pending a = some (now, op)) :
      Step s (.locks a now op (s.store.step now op).1)
        { s with store := (s.store.step now op).2, pending := Function.update s.pending a none }

/-- What a thread finds in the store was not put there after the thread read the clock. -/
def InOrder (s : Threads A S) : Label A S → Prop
  | .locks _ now (.get key) _ => ∀ held, s.store.secrets key = some held → held.stored ≤ now
  | _ => True

def system (limits : SecretLimits) : System (Threads A S) (Label A S) where
  init s := s.store = .new limits ∧ ∀ a, s.pending a = none
  step := Step

/-- The runs in which every `get` is in order with the put whose secret it finds. -/
def orderly (limits : SecretLimits) : System (Threads A S) (Label A S) where
  init := (system limits).init
  step s l t := Step s l t ∧ s.InOrder l

end Threads

/-- The clock reading `now` is within the bounds of a secret, counted from its put. -/
def Held.Within (held : Held S) (now : ℕ) : Prop :=
  (held.idle ≠ 0 → now - held.stored < held.idle) ∧ (held.maxAge ≠ 0 → now - held.stored < held.maxAge)

/-- `held'` is `held`, perhaps read since. -/
def Held.Same (held held' : Held S) : Prop :=
  held'.secret = held.secret ∧ held'.stored = held.stored ∧ held'.idle = held.idle ∧ held'.maxAge = held.maxAge

lemma Held.Within.not_expired {held : Held S} {now : ℕ} (h : held.Within now) (hread : held.stored ≤ held.read) :
    held.expired now = false := by
  have hidle : held.idle = 0 ∨ now - held.read < held.idle := by
    by_cases hzero : held.idle = 0
    · exact Or.inl hzero
    · have hlt := h.1 hzero
      right
      omega
  have hage : held.maxAge = 0 ∨ now - held.stored < held.maxAge := by
    by_cases hzero : held.maxAge = 0
    · exact Or.inl hzero
    · exact Or.inr (h.2 hzero)
  rw [Held.expired, past_eq_false.mpr hidle, past_eq_false.mpr hage]
  rfl

/-- No secret was read before it was put. -/
def SecretStore.Forward (store : SecretStore S) : Prop :=
  ∀ key held, store.secrets key = some held → held.stored ≤ held.read

section

variable {store : SecretStore S} {key : String} {held : Held S} {now : ℕ} {op : Op S}

lemma secrets_step_other (hkeeps : op.replaces key = false) (hget : op ≠ .get key) (hsweep : op ≠ .sweep) :
    (store.step now op).2.secrets key = store.secrets key := by
  have hne : ∀ {k : String}, (k == key) = false → key ≠ k := fun hk => (ne_of_beq_false hk).symm
  cases op with
  | put k secret => exact Function.update_of_ne (hne hkeeps) _ _
  | putWith k secret idle maxAge => exact Function.update_of_ne (hne hkeeps) _ _
  | remove k => exact Function.update_of_ne (hne hkeeps) _ _
  | clear => cases hkeeps
  | sweep => exact absurd rfl hsweep
  | get k =>
    have hk : key ≠ k := by
      rintro rfl
      exact hget rfl
    change (store.get now k id).2.secrets key = _
    unfold SecretStore.get
    cases store.secrets k with
    | none => rfl
    | some other =>
      simp only
      split_ifs
      · exact Function.update_of_ne hk _ _
      · exact Function.update_of_ne hk _ _

/-- What a locked section that does not replace a secret leaves of it. -/
lemma secrets_step (hheld : store.secrets key = some held) (hkeeps : op.replaces key = false) :
    (op ≠ .get key ∧ (store.step now op).2.secrets key = some held) ∨
      ((op = .get key ∨ op = .sweep) ∧ held.expired now = true ∧ (store.step now op).2.secrets key = none) ∨
      op = .get key ∧ (store.step now op).1 = some held.secret ∧
        (store.step now op).2.secrets key = some { held with read := now } := by
  by_cases hget : op = .get key
  · subst hget
    right
    cases hexpired : held.expired now with
    | true => exact Or.inl ⟨Or.inl rfl, rfl, by simp [SecretStore.step, SecretStore.get, SecretStore.remove, hheld, hexpired]⟩
    | false =>
      refine Or.inr ⟨rfl, ?_, ?_⟩
      all_goals simp [SecretStore.step, SecretStore.get, hheld, hexpired]
  · by_cases hsweep : op = .sweep
    · subst hsweep
      cases hexpired : held.expired now with
      | true => exact Or.inr (Or.inl ⟨Or.inr rfl, rfl, by simp [SecretStore.step, SecretStore.sweep, hheld, hexpired]⟩)
      | false => exact Or.inl ⟨hget, by simp [SecretStore.step, SecretStore.sweep, hheld, hexpired]⟩
    · exact Or.inl ⟨hget, (secrets_step_other hkeeps hget hsweep).trans hheld⟩

/-- What a locked section that replaces a secret puts in its place was not read before it was put. -/
lemma forward_replaced (hreplaces : op.replaces key = true) (h : (store.step now op).2.secrets key = some held) :
    held.stored ≤ held.read := by
  cases op with
  | put k secret =>
    obtain rfl : k = key := by simpa [Op.replaces] using hreplaces
    simp only [SecretStore.step, SecretStore.put, SecretStore.putWith, Function.update_self, Option.some_inj] at h
    rw [← h]
  | putWith k secret idle maxAge =>
    obtain rfl : k = key := by simpa [Op.replaces] using hreplaces
    simp only [SecretStore.step, SecretStore.putWith, Function.update_self, Option.some_inj] at h
    rw [← h]
  | remove k =>
    obtain rfl : k = key := by simpa [Op.replaces] using hreplaces
    simp [SecretStore.step, SecretStore.remove] at h
  | clear => cases h
  | get k => cases hreplaces
  | sweep => cases hreplaces

lemma secrets_step_none (hnone : store.secrets key = none) (hkeeps : op.replaces key = false) :
    (store.step now op).2.secrets key = none := by
  by_cases hget : op = .get key
  · subst hget
    simp [SecretStore.step, SecretStore.get, hnone]
  · by_cases hsweep : op = .sweep
    · subst hsweep
      simp [SecretStore.step, SecretStore.sweep, hnone]
    · exact (secrets_step_other hkeeps hget hsweep).trans hnone

end

namespace Threads

variable [DecidableEq A] {limits : SecretLimits} {s t : Threads A S} {l : Label A S}

lemma forward_step (h : s.store.Forward) (hstep : Step s l t) (horder : s.InOrder l) : t.store.Forward := by
  cases hstep with
  | tick _ => exact h
  | reads _ => exact h
  | @locks a now op hpending =>
    intro key held hheld
    cases hreplaces : op.replaces key with
    | true => exact forward_replaced hreplaces hheld
    | false =>
      cases hold : s.store.secrets key with
      | none =>
        rw [secrets_step_none hold hreplaces] at hheld
        cases hheld
      | some old =>
        rcases secrets_step hold hreplaces with ⟨-, hsame⟩ | ⟨-, -, hnone⟩ | ⟨hop, -, hread⟩
        · obtain rfl := Option.some_inj.mp (hsame.symm.trans hheld)
          exact h key _ hold
        · cases hnone.symm.trans hheld
        · obtain rfl := Option.some_inj.mp (hread.symm.trans hheld)
          subst hop
          exact horder old hold

lemma forward (h : (orderly limits).Reachable s) : s.store.Forward := by
  apply h.invariant
  · rintro s ⟨hstore, -⟩ key held hheld
    rw [hstore] at hheld
    cases hheld
  · exact fun s l t hs hstep => forward_step hs hstep.1 hstep.2

/-- Where every `get` is in order with the put whose secret it finds, a secret goes only by being removed or
replaced, or at a clock reading past one of its bounds from its put on, and every other `get` finds it. -/
theorem secret_kept (h : (orderly limits).Reachable s) (hstep : (orderly limits).step s l t) {key : String} {held : Held S}
    (hheld : s.store.secrets key = some held) :
    ((∃ held', t.store.secrets key = some held' ∧ held.Same held') ∨ ∃ a now op answer, l = .locks a now op answer ∧
      (op.replaces key = true ∨ (op = .get key ∨ op = .sweep) ∧ ¬held.Within now)) ∧
      ∀ a now answer, l = .locks a now (.get key) answer → held.Within now → answer = some held.secret := by
  have hforward := forward h key held hheld
  obtain ⟨hstep, -⟩ := hstep
  cases hstep with
  | tick _ => exact ⟨Or.inl ⟨held, hheld, rfl, rfl, rfl, rfl⟩, fun _ _ _ hl => by cases hl⟩
  | reads _ => exact ⟨Or.inl ⟨held, hheld, rfl, rfl, rfl, rfl⟩, fun _ _ _ hl => by cases hl⟩
  | @locks a now op hpending =>
    cases hreplaces : op.replaces key with
    | true =>
      refine ⟨Or.inr ⟨a, now, op, _, rfl, Or.inl hreplaces⟩, ?_⟩
      intro b now' answer hl
      cases hl
      cases hreplaces
    | false =>
      rcases secrets_step hheld hreplaces with ⟨hget, hsame⟩ | ⟨hop, hexpired, -⟩ | ⟨hop, hanswer, hread⟩
      · refine ⟨Or.inl ⟨held, hsame, rfl, rfl, rfl, rfl⟩, ?_⟩
        intro b now' answer hl _
        cases hl
        exact absurd rfl hget
      · have hpast : ¬held.Within now := fun hwithin => by
          rw [hwithin.not_expired hforward] at hexpired
          cases hexpired
        refine ⟨Or.inr ⟨a, now, op, _, rfl, Or.inr ⟨hop, hpast⟩⟩, ?_⟩
        intro b now' answer hl hwithin
        cases hl
        exact absurd hwithin hpast
      · refine ⟨Or.inl ⟨_, hread, rfl, rfl, rfl, rfl⟩, ?_⟩
        intro b now' answer hl _
        cases hl
        exact hanswer

/-- A secret that was put at 5 is found by a `get` that reads the clock then. -/
theorem secret_kept_token : ∃ s t : Threads ℕ ℕ, ∃ held, (orderly ⟨10, 0, 60⟩).Reachable s ∧
    (orderly ⟨10, 0, 60⟩).step s (.locks 0 5 (.get "token") (some 7)) t ∧ s.store.secrets "token" = some held ∧
      held.Within 5 ∧ ((∃ held', t.store.secrets "token" = some held' ∧ held.Same held') ∨ ∃ a now op answer,
        Label.locks 0 5 (.get "token") (some 7) = .locks a now op answer ∧ (op.replaces "token" = true ∨
          (op = .get "token" ∨ op = .sweep) ∧ ¬held.Within now)) := by
  let put : Op ℕ := .putWith "token" 7 10 0
  let s₀ : Threads ℕ ℕ := ⟨.new ⟨10, 0, 60⟩, 5, fun _ => none⟩
  let s₁ : Threads ℕ ℕ := { s₀ with pending := Function.update s₀.pending 1 (some (5, put)) }
  let s₂ : Threads ℕ ℕ := { s₁ with store := (s₁.store.step 5 put).2, pending := Function.update s₁.pending 1 none }
  let s₃ : Threads ℕ ℕ := { s₂ with pending := Function.update s₂.pending 0 (some (5, .get "token")) }
  let s₄ : Threads ℕ ℕ :=
    { s₃ with store := (s₃.store.step 5 (.get "token")).2, pending := Function.update s₃.pending 0 none }
  have h₁ : (orderly ⟨10, 0, 60⟩).step s₀ (.reads 1 put) s₁ := ⟨.reads rfl, trivial⟩
  have h₂ : (orderly ⟨10, 0, 60⟩).step s₁ (.locks 1 5 put none) s₂ := ⟨.locks rfl, trivial⟩
  have h₃ : (orderly ⟨10, 0, 60⟩).step s₂ (.reads 0 (.get "token")) s₃ := ⟨.reads rfl, trivial⟩
  have h₄ : (orderly ⟨10, 0, 60⟩).step s₃ (.locks 0 5 (.get "token") (some 7)) s₄ := by
    refine ⟨.locks rfl, ?_⟩
    rintro held ⟨⟩
    exact Nat.le_refl 5
  have hreach : (orderly ⟨10, 0, 60⟩).Reachable s₃ :=
    ⟨s₀, _, ⟨rfl, fun _ => rfl⟩, ((System.Run.single h₁).snoc h₂).snoc h₃⟩
  exact ⟨s₃, s₄, _, hreach, h₄, rfl, ⟨fun _ => by decide, fun h => absurd rfl h⟩, (secret_kept hreach h₄ rfl).1⟩

/-- A `get` that read the clock at 0 and locks the store after a put at 5 sets the last read back to 0, and a sweep
at 12 takes the secret away 7 after its put, with an idle lifetime of 10. -/
theorem secret_lost : ∃ s t : Threads ℕ ℕ, ∃ held, (system ⟨10, 0, 60⟩).Reachable s ∧
    (system ⟨10, 0, 60⟩).step s (.locks 2 12 .sweep none) t ∧ s.store.secrets "token" = some held ∧ held.stored = 5 ∧
      held.Within 12 ∧ t.store.secrets "token" = none := by
  let put : Op ℕ := .putWith "token" 7 10 0
  let s₀ : Threads ℕ ℕ := ⟨.new ⟨10, 0, 60⟩, 0, fun _ => none⟩
  let s₁ : Threads ℕ ℕ := { s₀ with pending := Function.update s₀.pending 0 (some (0, .get "token")) }
  let s₂ : Threads ℕ ℕ := { s₁ with clock := 5 }
  let s₃ : Threads ℕ ℕ := { s₂ with pending := Function.update s₂.pending 1 (some (5, put)) }
  let s₄ : Threads ℕ ℕ := { s₃ with store := (s₃.store.step 5 put).2, pending := Function.update s₃.pending 1 none }
  let s₅ : Threads ℕ ℕ :=
    { s₄ with store := (s₄.store.step 0 (.get "token")).2, pending := Function.update s₄.pending 0 none }
  let s₆ : Threads ℕ ℕ := { s₅ with clock := 12 }
  let s₇ : Threads ℕ ℕ := { s₆ with pending := Function.update s₆.pending 2 (some (12, .sweep)) }
  let s₈ : Threads ℕ ℕ := { s₇ with store := (s₇.store.step 12 .sweep).2, pending := Function.update s₇.pending 2 none }
  have h₁ : Step s₀ (.reads 0 (.get "token")) s₁ := .reads rfl
  have h₂ : Step s₁ .tick s₂ := .tick (Nat.zero_le 5)
  have h₃ : Step s₂ (.reads 1 put) s₃ := .reads rfl
  have h₄ : Step s₃ (.locks 1 5 put none) s₄ := .locks rfl
  have h₅ : Step s₄ (.locks 0 0 (.get "token") (some 7)) s₅ := .locks rfl
  have h₆ : Step s₅ .tick s₆ := .tick (by decide)
  have h₇ : Step s₆ (.reads 2 .sweep) s₇ := .reads rfl
  have h₈ : Step s₇ (.locks 2 12 .sweep none) s₈ := .locks rfl
  have hreach : (system ⟨10, 0, 60⟩).Reachable s₇ := ⟨s₀, _, ⟨rfl, fun _ => rfl⟩,
    ((((((System.Run.single h₁).snoc h₂).snoc h₃).snoc h₄).snoc h₅).snoc h₆).snoc h₇⟩
  exact ⟨s₇, s₈, _, hreach, h₈, rfl, rfl, ⟨fun _ => by decide, fun h => absurd rfl h⟩, rfl⟩

end Threads

end Unixd.Secrets
