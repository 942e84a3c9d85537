import Mathlib.Data.List.Chain
import Mathlib.Logic.Function.Basic
import Mathlib.Tactic.Common

/-!
# The secret store

`SecretStore` keeps secrets in memory with an idle and a maximum lifetime. Expiry is
lazy: a secret past a bound goes when a `get` finds it or a sweep passes. This file
models the store on a clock given as an input and shows that its answers are those of
a history: what was put, what was read, and when. Sweeps are then invisible.
-/

namespace Unixd.Secrets

/-- When a secret leaves memory, in nanoseconds like every time here. A zero turns a bound
off. -/
structure SecretLimits where
  idle : ℕ
  maxAge : ℕ
  sweepEvery : ℕ

/-- A stored secret with its bounds and the times it was stored and last read. -/
structure Held (S : Type) where
  secret : S
  stored : ℕ
  read : ℕ
  idle : ℕ
  maxAge : ℕ

/-- A bound that is on and that the time since `since` has reached. -/
def past (now since : ℕ) (bound : ℕ) : Bool :=
  bound != 0 && decide (bound ≤ now - since)

@[simp] lemma past_eq_false {now since bound : ℕ} :
    past now since bound = false ↔ bound = 0 ∨ now - since < bound := by
  simp only [past, Bool.and_eq_false_iff, bne_eq_false_iff_eq, decide_eq_false_iff_not, Nat.not_le]

def Held.expired {S : Type} (held : Held S) (now : ℕ) : Bool :=
  past now held.read held.idle || past now held.stored held.maxAge

structure SecretStore (S : Type) where
  limits : SecretLimits
  secrets : String → Option (Held S)

namespace SecretStore

variable {S R : Type}

def new (limits : SecretLimits) : SecretStore S :=
  ⟨limits, fun _ => none⟩

def putWith (store : SecretStore S) (now : ℕ) (key : String) (secret : S)
    (idle maxAge : ℕ) : SecretStore S :=
  { store with secrets := Function.update store.secrets key (some ⟨secret, now, now, idle, maxAge⟩) }

def put (store : SecretStore S) (now : ℕ) (key : String) (secret : S) : SecretStore S :=
  store.putWith now key secret store.limits.idle store.limits.maxAge

def remove (store : SecretStore S) (key : String) : SecretStore S :=
  { store with secrets := Function.update store.secrets key none }

def get (store : SecretStore S) (now : ℕ) (key : String) (read : S → R) :
    Option R × SecretStore S :=
  match store.secrets key with
  | none => (none, store)
  | some held =>
    if held.expired now then (none, store.remove key)
    else (some (read held.secret),
      { store with secrets := Function.update store.secrets key (some { held with read := now }) })

/-- The caller's reader sees the secret and nothing else, and leaves no mark on the store. -/
lemma get_read (store : SecretStore S) (now : ℕ) (key : String) (read : S → R) :
    store.get now key read =
      ((store.get now key id).1.map read, (store.get now key id).2) := by
  rw [get, get]
  cases store.secrets key with
  | none => rfl
  | some held => cases h : held.expired now <;> simp [h]

def clear (store : SecretStore S) : SecretStore S :=
  { store with secrets := fun _ => none }

def sweep (store : SecretStore S) (now : ℕ) : SecretStore S :=
  { store with secrets := fun key => (store.secrets key).filter (fun held => !held.expired now) }

end SecretStore

/-- The operations of a trace. -/
inductive Op (S : Type) where
  | put (key : String) (secret : S)
  | putWith (key : String) (secret : S) (idle maxAge : ℕ)
  | get (key : String)
  | remove (key : String)
  | clear
  | sweep

namespace Op

variable {S : Type}

/-- The operation is about the secret under `key`, apart from its expiry. -/
def concerns (key : String) : Op S → Bool
  | .put k _ | .putWith k _ _ _ | .get k | .remove k => k == key
  | .clear => true
  | .sweep => false

/-- The secret the operation puts under `key`, with its idle and maximum lifetimes. -/
def puts (limits : SecretLimits) (key : String) : Op S → Option (S × ℕ × ℕ)
  | .put k secret => if k = key then some (secret, limits.idle, limits.maxAge) else none
  | .putWith k secret idle maxAge => if k = key then some (secret, idle, maxAge) else none
  | _ => none

/-- The operation removes or replaces the secret under `key`. -/
def replaces (key : String) : Op S → Bool
  | .put k _ | .putWith k _ _ _ | .remove k => k == key
  | .clear => true
  | .get _ | .sweep => false

end Op

abbrev Trace (S : Type) := List (ℕ × Op S)

namespace SecretStore

variable {S : Type}

/-- One operation at a clock reading, with what a `get` returns. -/
def step (store : SecretStore S) (now : ℕ) : Op S → Option S × SecretStore S
  | .put key secret => (none, store.put now key secret)
  | .putWith key secret idle maxAge => (none, store.putWith now key secret idle maxAge)
  | .get key => store.get now key id
  | .remove key => (none, store.remove key)
  | .clear => (none, store.clear)
  | .sweep => (none, store.sweep now)

/-- The store after a trace. -/
def run (store : SecretStore S) : Trace S → SecretStore S
  | [] => store
  | (now, op) :: rest => ((store.step now op).2).run rest

/-- What the `get`s of `key` in a trace return, with their times. -/
def answers (store : SecretStore S) (key : String) : Trace S → List (ℕ × Option S)
  | [] => []
  | (now, op) :: rest =>
    let later := ((store.step now op).2).answers key rest
    match op with
    | .get k => if k = key then (now, (store.step now op).1) :: later else later
    | _ => later

@[simp] lemma limits_step (store : SecretStore S) (now : ℕ) (op : Op S) :
    (store.step now op).2.limits = store.limits := by
  cases op with
  | get key =>
    simp only [step, get]
    cases h : store.secrets key with
    | none => rfl
    | some held =>
      by_cases he : held.expired now
      · simp [he, remove]
      · simp [he]
  | _ => rfl

@[simp] lemma limits_run (store : SecretStore S) (tr : Trace S) :
    (store.run tr).limits = store.limits := by
  induction tr generalizing store with
  | nil => rfl
  | cons e rest ih => rw [run, ih, limits_step]

lemma run_append (store : SecretStore S) (tr tr' : Trace S) :
    store.run (tr ++ tr') = (store.run tr).run tr' := by
  induction tr generalizing store with
  | nil => rfl
  | cons e rest ih => exact ih _

end SecretStore

/-! ## The history of a key -/

/-- What a history says of a key: the last value put, when and under which bounds, and
the times it was read since, in order. -/
structure Record (S : Type) where
  value : S
  put : ℕ
  idle : ℕ
  maxAge : ℕ
  reads : List ℕ

namespace Record

variable {S : Type}

/-- The put and the reads, in order. -/
def moments (r : Record S) : List ℕ :=
  r.put :: r.reads

/-- Every gap between successive moments is below the idle bound. -/
def Unbroken (idle : ℕ) (moments : List ℕ) : Prop :=
  idle = 0 ∨ moments.IsChain (fun x y => y - x < idle)

/-- The record answers a read at `t`. -/
def Live (r : Record S) (t : ℕ) : Prop :=
  (r.maxAge = 0 ∨ t - r.put < r.maxAge) ∧ Unbroken r.idle (r.moments ++ [t])

/-- The store's form of the record. -/
def held (r : Record S) : Held S :=
  ⟨r.value, r.put, r.moments.getLast (List.cons_ne_nil _ _), r.idle, r.maxAge⟩

@[simp] lemma held_secret (r : Record S) : r.held.secret = r.value := rfl

/-- The record after a read at `t`. -/
def readAt (r : Record S) (t : ℕ) : Record S :=
  { r with reads := r.reads ++ [t] }

@[simp] lemma moments_readAt (r : Record S) (t : ℕ) :
    (r.readAt t).moments = r.moments ++ [t] := rfl

lemma held_readAt (r : Record S) (t : ℕ) : (r.readAt t).held = { r.held with read := t } := by
  simp [held, readAt, moments]

lemma unbroken_concat (idle : ℕ) (ms : List ℕ) (hms : ms ≠ []) (t : ℕ)
    (h : Unbroken idle ms) :
    Unbroken idle (ms ++ [t]) ↔ idle = 0 ∨ t - ms.getLast hms < idle := by
  by_cases hi : idle = 0
  · simp [Unbroken, hi]
  · have hc : ms.IsChain (fun x y => y - x < idle) := h.resolve_left hi
    simp only [Unbroken, hi, false_or]
    constructor
    · intro ha
      exact ha.rel_getLast_head_of_append hms (by simp)
    · intro hl
      refine hc.append (List.isChain_singleton t) ?_
      intro x hx y hy
      rw [List.getLast?_eq_getLast_of_ne_nil hms, Option.mem_some_iff] at hx
      simp only [List.head?_cons, Option.mem_some_iff] at hy
      rw [← hx, ← hy]
      exact hl

/-- The store's test agrees with the history, one read after another. -/
lemma live_iff_not_expired (r : Record S) (h : Unbroken r.idle r.moments) (t : ℕ) :
    r.Live t ↔ r.held.expired t = false := by
  rw [Live, unbroken_concat r.idle r.moments (List.cons_ne_nil _ _) t h]
  simp only [Held.expired, Bool.or_eq_false_iff, past_eq_false]
  exact and_comm

end Record

/-- What a read at `now` finds in a history. -/
def recalled {S : Type} (history : Option (Record S)) (now : ℕ) : Option S :=
  (history.filter (fun r => !r.held.expired now)).map Record.value

@[simp] lemma recalled_none {S : Type} (now : ℕ) : recalled (none : Option (Record S)) now = none := rfl

lemma recalled_some {S : Type} (r : Record S) (now : ℕ) :
    recalled (some r) now = if r.held.expired now then none else some r.value := by
  cases h : r.held.expired now <;> simp [recalled, Option.filter_some, h]

lemma recalled_eq_some {S : Type} {history : Option (Record S)} {now : ℕ} {v : S} :
    recalled history now = some v ↔
      ∃ r, history = some r ∧ r.held.expired now = false ∧ r.value = v := by
  cases history with
  | none => simp
  | some r => cases h : r.held.expired now <;> simp [recalled_some, h]

/-- What an operation at `now` does to the history of `key`. A sweep and an operation on
another key do nothing, and neither does a read of a record that has expired. -/
def remember {S : Type} (limits : SecretLimits) (key : String) (history : Option (Record S))
    (now : ℕ) : Op S → Option (Record S)
  | .put k secret =>
    if k = key then some ⟨secret, now, limits.idle, limits.maxAge, []⟩ else history
  | .putWith k secret idle maxAge => if k = key then some ⟨secret, now, idle, maxAge, []⟩ else history
  | .get k =>
    if k = key then history.map (fun r => if r.held.expired now then r else r.readAt now) else history
  | .remove k => if k = key then none else history
  | .clear => none
  | .sweep => history

def remembered {S : Type} (limits : SecretLimits) (key : String) (history : Option (Record S))
    (tr : Trace S) : Option (Record S) :=
  tr.foldl (fun h e => remember limits key h e.1 e.2) history

/-- The answers a history gives to the `get`s of `key`. -/
def recalls {S : Type} (limits : SecretLimits) (key : String) (history : Option (Record S)) :
    Trace S → List (ℕ × Option S)
  | [] => []
  | (now, op) :: rest =>
    let later := recalls limits key (remember limits key history now op) rest
    match op with
    | .get k => if k = key then (now, recalled history now) :: later else later
    | _ => later

/-- The store holds the record of the history, or that record has expired by `now`. -/
structure Tracks {S : Type} (now : ℕ) (history : Option (Record S)) (stored : Option (Held S)) :
    Prop where
  unbroken : ∀ r, history = some r → Record.Unbroken r.idle r.moments
  stored_of_live : ∀ r, history = some r → r.held.expired now = false → stored = some r.held
  live_of_stored : ∀ held, stored = some held → ∃ r, history = some r ∧ held = r.held

lemma Held.expired_mono {S : Type} {held : Held S} {now t : ℕ} (hle : now ≤ t)
    (h : held.expired t = false) : held.expired now = false := by
  simp only [Held.expired, Bool.or_eq_false_iff, past_eq_false] at h ⊢
  exact ⟨h.1.imp_right (fun h => by omega), h.2.imp_right (fun h => by omega)⟩

namespace Tracks

variable {S : Type} {now t : ℕ} {history : Option (Record S)} {stored : Option (Held S)}

lemma mono (h : Tracks now history stored) (hle : now ≤ t) : Tracks t history stored :=
  ⟨h.unbroken, fun r hr he => h.stored_of_live r hr (Held.expired_mono hle he), h.live_of_stored⟩

lemma none_none : Tracks now (none : Option (Record S)) none :=
  ⟨by simp, by simp, by simp⟩

lemma fresh (secret : S) (idle maxAge : ℕ) :
    Tracks now (some ⟨secret, now, idle, maxAge, []⟩) (some ⟨secret, now, now, idle, maxAge⟩) := by
  refine ⟨?_, ?_, ?_⟩
  · rintro r ⟨⟩
    exact Or.inr (List.isChain_singleton _)
  · rintro r ⟨⟩ _
    rfl
  · rintro held ⟨⟩
    exact ⟨_, rfl, rfl⟩

lemma sweep (h : Tracks now history stored) :
    Tracks now history (stored.filter (fun held => !held.expired now)) := by
  refine ⟨h.unbroken, ?_, ?_⟩
  · intro r hr he
    rw [h.stored_of_live r hr he]
    simp [he]
  · intro held hs
    exact h.live_of_stored held (Option.filter_eq_some_iff.mp hs).1

/-- A read finds in the store what it finds in the history, and both record it. -/
lemma get {store : SecretStore S} {key : String} (h : Tracks now history (store.secrets key)) :
    (store.get now key id).1 = recalled history now ∧
      Tracks now (history.map (fun r => if r.held.expired now then r else r.readAt now))
        ((store.get now key id).2.secrets key) := by
  cases hs : store.secrets key with
  | none =>
    have hdead : ∀ r, history = some r → r.held.expired now = true := by
      intro r hr
      by_contra he
      have := h.stored_of_live r hr (by simpa using he)
      simp [hs] at this
    cases history with
    | none => simpa [SecretStore.get, hs] using none_none
    | some r =>
      rw [hs] at h
      simpa [SecretStore.get, hs, recalled_some, hdead r rfl] using h
  | some held =>
    obtain ⟨r, rfl, rfl⟩ := h.live_of_stored held hs
    by_cases he : r.held.expired now = true
    · refine ⟨by simp [SecretStore.get, hs, recalled_some, he], ?_⟩
      simp only [SecretStore.get, hs, he, if_true, SecretStore.remove, Function.update_self, Option.map_some]
      exact ⟨h.unbroken, fun r' hr' he' => by simp_all, by simp⟩
    · have he' : r.held.expired now = false := by simpa using he
      have hlive := (r.live_iff_not_expired (h.unbroken r rfl) now).mpr he'
      refine ⟨by simp [SecretStore.get, hs, recalled_some, he'], ?_⟩
      simp only [SecretStore.get, hs, he', Bool.false_eq_true, if_false, Function.update_self, Option.map_some]
      refine ⟨?_, ?_, ?_⟩
      · rintro r' ⟨⟩
        exact hlive.2
      · rintro r' ⟨⟩ _
        rw [Record.held_readAt]
      · rintro held' ⟨⟩
        exact ⟨_, rfl, (Record.held_readAt r now).symm⟩

/-- One operation keeps the store and the history together. -/
lemma step {store : SecretStore S} {key : String} (h : Tracks now history (store.secrets key))
    (op : Op S) :
    Tracks now (remember store.limits key history now op) ((store.step now op).2.secrets key) := by
  cases op with
  | put k secret =>
    by_cases hk : k = key
    · subst hk
      simpa [remember, SecretStore.step, SecretStore.put, SecretStore.putWith] using fresh secret _ _
    · simpa [remember, SecretStore.step, SecretStore.put, SecretStore.putWith, hk, Ne.symm hk] using h
  | putWith k secret idle maxAge =>
    by_cases hk : k = key
    · subst hk
      simpa [remember, SecretStore.step, SecretStore.putWith] using fresh secret _ _
    · simpa [remember, SecretStore.step, SecretStore.putWith, hk, Ne.symm hk] using h
  | get k =>
    by_cases hk : k = key
    · subst hk
      simpa [remember, SecretStore.step] using h.get.2
    · have hs : (store.get now k id).2.secrets key = store.secrets key := by
        rw [SecretStore.get]
        split
        · rfl
        · split <;> simp [SecretStore.remove, Ne.symm hk]
      simpa [remember, SecretStore.step, hk, hs] using h
  | remove k =>
    by_cases hk : k = key
    · subst hk
      simpa [remember, SecretStore.step, SecretStore.remove] using none_none
    · simpa [remember, SecretStore.step, SecretStore.remove, hk, Ne.symm hk] using h
  | clear => exact none_none
  | sweep => exact h.sweep

end Tracks

/-- The readings of a trace, from `now` on, never go back. -/
def Monotone {S : Type} (now : ℕ) (tr : Trace S) : Prop :=
  (now :: tr.map Prod.fst).IsChain (· ≤ ·)

/-- A store that tracks a history goes on to track it, and answers as the history does. -/
theorem tracks_run {S : Type} (store : SecretStore S) (key : String) (now : ℕ)
    (history : Option (Record S)) (h : Tracks now history (store.secrets key)) (tr : Trace S)
    (clock : Monotone now tr) :
    store.answers key tr = recalls store.limits key history tr ∧
      ∀ t, Monotone now (tr ++ [(t, .sweep)]) →
        Tracks t (remembered store.limits key history tr) ((store.run tr).secrets key) := by
  induction tr generalizing store now history with
  | nil =>
    refine ⟨rfl, fun t ht => h.mono ?_⟩
    simpa [Monotone] using ht
  | cons e rest ih =>
    obtain ⟨t₀, op⟩ := e
    have hclock : now ≤ t₀ ∧ Monotone t₀ rest := by simpa [Monotone] using clock
    have h₀ := h.mono hclock.1
    have hi := ih ((store.step t₀ op).2) t₀ (remember store.limits key history t₀ op) (h₀.step op)
      hclock.2
    rw [SecretStore.limits_step] at hi
    refine ⟨?_, fun t ht => hi.2 t ?_⟩
    · cases op with
      | get k =>
        by_cases hk : k = key
        · subst hk
          simp only [SecretStore.answers, recalls, if_true, hi.1]
          rw [SecretStore.step, h₀.get.1]
        · simp [SecretStore.answers, recalls, hi.1, hk]
      | _ => simpa [SecretStore.answers, recalls] using hi.1
    · have : now ≤ t₀ ∧ Monotone t₀ (rest ++ [(t, .sweep)]) := by simpa [Monotone] using ht
      exact this.2

/-! ## What a history remembers -/

section

variable {S : Type} (limits : SecretLimits) (key : String)

/-- The times of the answers that found a secret. -/
def readTimes (answers : List (ℕ × Option S)) : List ℕ :=
  answers.filterMap (fun a => a.2.map (fun _ => a.1))

lemma remember_of_not_concerns (history : Option (Record S)) (now : ℕ) (op : Op S)
    (h : op.concerns key = false) : remember limits key history now op = history := by
  cases op <;> simp_all [Op.concerns, remember]

/-- Sweeps and operations on other keys leave no trace in what a key's history answers. -/
lemma recalls_filter (history : Option (Record S)) (tr : Trace S) :
    recalls limits key history (tr.filter (fun e => e.2.concerns key)) =
      recalls limits key history tr := by
  induction tr generalizing history with
  | nil => rfl
  | cons e rest ih =>
    obtain ⟨now, op⟩ := e
    cases hc : op.concerns key with
    | true => simp [hc, recalls, ih]
    | false =>
      rw [List.filter_cons, if_neg (by simp [hc]), ih]
      cases op <;> simp_all [Op.concerns, recalls, remember]

/-- With no put, removal or clear, a history only gains the reads that found the secret. -/
lemma remembered_of_kept (r : Record S) (tr : Trace S) (h : ∀ e ∈ tr, e.2.replaces key = false) :
    remembered limits key (some r) tr =
      some { r with reads := r.reads ++ readTimes (recalls limits key (some r) tr) } := by
  induction tr generalizing r with
  | nil => simp [remembered, recalls, readTimes]
  | cons e rest ih =>
    obtain ⟨now, op⟩ := e
    have hrest : ∀ e ∈ rest, e.2.replaces key = false := fun e he => h e (List.mem_cons_of_mem _ he)
    have hop : op.replaces key = false := h (now, op) List.mem_cons_self
    have hstep : remembered limits key (some r) ((now, op) :: rest) =
        remembered limits key (remember limits key (some r) now op) rest := rfl
    rw [hstep]
    cases op with
    | get k =>
      by_cases hk : k = key
      · cases he : r.held.expired now with
        | true => simpa [remember, hk, he, recalls, recalled_some, readTimes] using ih r hrest
        | false =>
          simpa [remember, hk, he, recalls, recalled_some, readTimes, Record.readAt] using
            ih (r.readAt now) hrest
      · simpa [remember, hk, recalls] using ih r hrest
    | put k secret =>
      have hk : k ≠ key := by simpa [Op.replaces] using hop
      simpa [remember, hk, recalls] using ih r hrest
    | putWith k secret idle maxAge =>
      have hk : k ≠ key := by simpa [Op.replaces] using hop
      simpa [remember, hk, recalls] using ih r hrest
    | remove k =>
      have hk : k ≠ key := by simpa [Op.replaces] using hop
      simpa [remember, hk, recalls] using ih r hrest
    | clear => simp [Op.replaces] at hop
    | sweep => simpa [remember, recalls] using ih r hrest

lemma remember_of_puts (history : Option (Record S)) (now : ℕ) (op : Op S) (v : S) (idle maxAge : ℕ)
    (h : op.puts limits key = some (v, idle, maxAge)) :
    remember limits key history now op = some ⟨v, now, idle, maxAge, []⟩ := by
  cases op <;> simp_all [Op.puts, remember]

/-- A history that remembers a secret has a put of it and nothing after that took it away. -/
lemma exists_put_of_remembered (tr : Trace S) (r : Record S)
    (h : remembered limits key none tr = some r) :
    ∃ before p op after v idle maxAge, tr = before ++ (p, op) :: after ∧
      op.puts limits key = some (v, idle, maxAge) ∧ ∀ e ∈ after, e.2.replaces key = false := by
  induction tr using List.reverseRecOn generalizing r with
  | nil => simp [remembered] at h
  | append_singleton tr e ih =>
    obtain ⟨now, op⟩ := e
    have hlast : remember limits key (remembered limits key none tr) now op = some r := by
      simpa [remembered] using h
    cases hp : op.puts limits key with
    | some x => exact ⟨tr, now, op, [], x.1, x.2.1, x.2.2, rfl, hp, by simp⟩
    | none =>
      have hkept : op.replaces key = false ∧ ∃ r', remembered limits key none tr = some r' := by
        cases op <;> simp_all [Op.puts, Op.replaces, remember]
        case get k =>
          split at hlast
          · exact (Option.map_eq_some_iff.mp hlast).imp fun _ h => h.1
          · exact ⟨r, hlast⟩
      obtain ⟨hop, r', hr'⟩ := hkept
      obtain ⟨before, p, put, after, v, idle, maxAge, rfl, hput, hafter⟩ := ih r' hr'
      refine ⟨before, p, put, after ++ [(now, op)], v, idle, maxAge, by simp, hput, ?_⟩
      intro e he
      rcases List.mem_append.mp he with he | he
      · exact hafter e he
      · simpa [List.mem_singleton.mp he] using hop

lemma remembered_put (before after : Trace S) (p : ℕ) (op : Op S) (v : S) (idle maxAge : ℕ)
    (hput : op.puts limits key = some (v, idle, maxAge))
    (hafter : ∀ e ∈ after, e.2.replaces key = false) :
    remembered limits key none (before ++ (p, op) :: after) =
      some ⟨v, p, idle, maxAge,
        readTimes (recalls limits key (some ⟨v, p, idle, maxAge, []⟩) after)⟩ := by
  rw [remembered, List.foldl_append, List.foldl_cons, remember_of_puts limits key _ p op v idle maxAge hput]
  exact remembered_of_kept limits key ⟨v, p, idle, maxAge, []⟩ after hafter

lemma monotone_split (now : ℕ) (tr tr' : Trace S) (t : ℕ) (op : Op S)
    (h : Monotone now (tr ++ (t, op) :: tr')) :
    Monotone now (tr ++ [(t, .sweep)]) ∧ Monotone t tr' := by
  simp only [Monotone, List.map_append, List.map_cons, List.map_nil] at h ⊢
  refine ⟨?_, ?_⟩
  · refine h.prefix ⟨tr'.map Prod.fst, ?_⟩
    simp
  · refine h.suffix ⟨now :: tr.map Prod.fst, ?_⟩
    simp

lemma Monotone.prefix {now : ℕ} {tr : Trace S} {t : ℕ} {op : Op S} (h : Monotone now (tr ++ [(t, op)])) :
    Monotone now tr := by
  simp only [Monotone, List.map_append, List.map_cons, List.map_nil] at h ⊢
  exact List.IsChain.prefix h ⟨[t], by simp⟩

/-- A new store tracks its history through any trace. -/
lemma tracks_new (tr : Trace S) (t : ℕ) (op : Op S) (clock : Monotone 0 (tr ++ [(t, op)])) :
    Tracks t (remembered limits key none tr) (((SecretStore.new limits).run tr).secrets key) :=
  (tracks_run (SecretStore.new limits) key 0 none Tracks.none_none tr clock.prefix).2 t
    (monotone_split 0 tr [] t op clock).1

lemma answers_after_put (before after : Trace S) (p : ℕ) (op : Op S) (v : S) (idle maxAge : ℕ)
    (clock : Monotone 0 (before ++ (p, op) :: after))
    (hput : op.puts limits key = some (v, idle, maxAge)) :
    ((SecretStore.new limits).run (before ++ [(p, op)])).answers key after =
      recalls limits key (some ⟨v, p, idle, maxAge, []⟩) after := by
  have hsplit := monotone_split 0 before after p op clock
  have htracks := (tracks_new limits key before p .sweep hsplit.1).step op
  rw [SecretStore.limits_run, SecretStore.new, remember_of_puts limits key _ p op v idle maxAge hput,
    ← SecretStore.new] at htracks
  have := (tracks_run _ key p _ htracks after hsplit.2).1
  rw [SecretStore.limits_step, SecretStore.limits_run] at this
  rw [SecretStore.run_append]
  exact this

end

/-- The lifetime of a secret over a whole trace. A `get` at `t` returns the value of the last
put of its key exactly when nothing removed it since, its age is below `maxAge`, and no gap
between the put, the reads that found it and `t` reaches `idle`. The answers of a key depend
on nothing but the operations that concern it: not on sweeps, and not on other keys. -/
theorem get_iff_history {S : Type} (limits : SecretLimits) (key : String) (tr : Trace S) (t : ℕ)
    (clock : Monotone 0 (tr ++ [(t, .get key)])) :
    (∀ v, (((SecretStore.new limits).run tr).get t key id).1 = some v ↔
      ∃ before p op after idle maxAge, tr = before ++ (p, op) :: after ∧
        op.puts limits key = some (v, idle, maxAge) ∧
        (∀ e ∈ after, e.2.replaces key = false) ∧
        (maxAge = 0 ∨ t - p < maxAge) ∧
        Record.Unbroken idle (p :: readTimes
          (((SecretStore.new limits).run (before ++ [(p, op)])).answers key after) ++ [t])) ∧
    ∀ tr' : Trace S, Monotone 0 tr' →
      tr'.filter (fun e => e.2.concerns key) = tr.filter (fun e => e.2.concerns key) →
      (SecretStore.new limits).answers key tr' = (SecretStore.new limits).answers key tr := by
  have htracks := tracks_new limits key tr t (.get key) clock
  refine ⟨fun v => ?_, fun tr' clock' heq => ?_⟩
  · rw [htracks.get.1, recalled_eq_some]
    constructor
    · rintro ⟨r, hr, he, rfl⟩
      obtain ⟨before, p, op, after, v, idle, maxAge, rfl, hput, hafter⟩ :=
        exists_put_of_remembered limits key tr r hr
      have hr' := remembered_put limits key before after p op v idle maxAge hput hafter
      have hlive := (r.live_iff_not_expired (htracks.unbroken r hr) t).mpr he
      rw [hr, Option.some_inj] at hr'
      subst hr'
      rw [← answers_after_put limits key before after p op v idle maxAge clock.prefix hput] at hlive
      exact ⟨before, p, op, after, idle, maxAge, rfl, hput, hafter, hlive.1, hlive.2⟩
    · rintro ⟨before, p, op, after, idle, maxAge, rfl, hput, hafter, hage, hidle⟩
      have hr := remembered_put limits key before after p op v idle maxAge hput hafter
      rw [answers_after_put limits key before after p op v idle maxAge clock.prefix hput] at hidle
      refine ⟨_, hr, ?_, rfl⟩
      exact (Record.live_iff_not_expired _ (htracks.unbroken _ hr) t).mp ⟨hage, hidle⟩
  · rw [(tracks_run (SecretStore.new limits) key 0 none Tracks.none_none tr' clock').1,
      (tracks_run (SecretStore.new limits) key 0 none Tracks.none_none tr clock.prefix).1,
      ← recalls_filter _ _ _ tr', heq, recalls_filter]

theorem get_iff_history_token :
    (((SecretStore.new ⟨10, 100, 60⟩).run
      [(0, .put "token" 7), (8, .get "token"), (9, .sweep)]).get 17 "token" id).1 = some 7 :=
  ((get_iff_history ⟨10, 100, 60⟩ "token" [(0, .put "token" 7), (8, .get "token"), (9, .sweep)] 17
    (by simp [Monotone])).1 7).mpr
    ⟨[], 0, .put "token" 7, [(8, .get "token"), (9, .sweep)], 10, 100, rfl, by decide, by decide,
      by decide, Or.inr (by decide)⟩

end Unixd.Secrets
