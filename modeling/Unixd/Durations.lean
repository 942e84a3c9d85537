import Mathlib.Algebra.Order.Ring.Nat
import Unixd.Secrets
import Unixd.Serve
import Unixd.Transport

/-!
# Configured durations

`Duration` and `Instant` with the arithmetic that the client, the secret store and the accept loop
use: checked, saturating, a library timer's, and in two places the plain sum, which panics.
-/

namespace Unixd

set_option linter.unusedSectionVars false

open Unixd.Lib

/-- A length of time in nanoseconds: 64 bits of seconds and a fraction. -/
structure Duration where
  nanos : ℕ
  lt : nanos < 2 ^ 64 * 10 ^ 9

/-- A reading of the monotone clock in nanoseconds: seconds in a signed 64-bit number, and a fraction. -/
structure Instant where
  nanos : ℕ
  lt : nanos < 2 ^ 63 * 10 ^ 9

namespace Duration

def zero : Duration := ⟨0, by decide⟩

/-- `Duration::MAX`. -/
def longest : Duration := ⟨2 ^ 64 * 10 ^ 9 - 1, by decide⟩

def isZero (d : Duration) : Bool :=
  d.nanos == 0

end Duration

namespace Instant

variable (t since deadline now : Instant) (d : Duration)

/-- The sum is an instant. -/
def Reaches : Prop :=
  t.nanos + d.nanos < 2 ^ 63 * 10 ^ 9

instance : Decidable (t.Reaches d) :=
  inferInstanceAs (Decidable (_ < _))

/-- `Instant::checked_add`. -/
def checkedAdd : Option Instant :=
  if h : t.Reaches d then some ⟨t.nanos + d.nanos, h⟩ else none

/-- The sum `t + d`; `none` is its panic. -/
def add : Option Instant :=
  t.checkedAdd d

/-- `Instant::checked_duration_since`. -/
def checkedDurationSince : Option Duration :=
  if since.nanos ≤ t.nanos then
    some ⟨t.nanos - since.nanos, by have := t.lt; omega⟩
  else none

/-- The difference `t - since`, zero when `since` is later. -/
def sub : Duration :=
  ⟨t.nanos - since.nanos, by have := t.lt; omega⟩

/-- The deadline of `tokio::time::sleep` and `timeout`: an instant, or one that never comes. -/
def sleep : Option Instant :=
  t.checkedAdd d

/-- A timer with this deadline has fired. -/
def Fired : Option Instant → Instant → Prop
  | none, _ => False
  | some deadline, now => deadline.nanos ≤ now.nanos

variable {t since deadline now d}

lemma checkedAdd_eq_none : t.checkedAdd d = none ↔ ¬t.Reaches d := by
  unfold checkedAdd
  split <;> simp_all

lemma checkedAdd_eq_some (h : t.Reaches d) : t.checkedAdd d = some ⟨t.nanos + d.nanos, h⟩ := by
  unfold checkedAdd
  rw [dif_pos h]

/-- A library timer counts in unbounded numbers, as far as any reading of the clock can tell. -/
lemma fired_sleep : Fired (t.sleep d) now ↔ t.nanos + d.nanos ≤ now.nanos := by
  unfold sleep checkedAdd
  split
  next h => exact Iff.rfl
  next h =>
    have := now.lt
    unfold Reaches at h
    constructor
    · intro hfired
      exact hfired.elim
    · intro hle
      omega

end Instant

namespace Client

/-- The time left to the deadline; `none` is the timeout. -/
def left (deadline now : Instant) : Option Duration :=
  (deadline.checkedDurationSince now).filter fun left => !left.isZero

/-- No socket timeout is zero, which would be refused, and each ends at the deadline. -/
lemma left_eq_some {deadline now : Instant} {timeout : Duration} (h : left deadline now = some timeout) :
    timeout.nanos ≠ 0 ∧ now.nanos + timeout.nanos = deadline.nanos := by
  unfold left Instant.checkedDurationSince at h
  split at h
  next hle =>
    obtain ⟨h, hpos⟩ := Option.filter_eq_some_iff.mp h
    cases h
    constructor
    · simpa [Duration.isZero] using hpos
    · exact Nat.add_sub_cancel' hle
  next => simp at h

/-- One round of a read or write loop: what `left` reads on the clock, and what the socket call then
returns. -/
structure Attempt (X : Type) where
  now : Instant
  result : Except IoErrorKind X

def Attempt.turn {X : Type} (left : Instant → Option Duration) (attempt : Attempt X) : Turn X :=
  match left attempt.now with
  | none => .late
  | some _ =>
    match attempt.result with
    | .error kind => .failed kind
    | .ok x => .done x

/-- What a call meets after it has encoded its request, with its readings of the clock. -/
structure Meeting where
  connecting : Instant
  connect : Except ClientError Unit
  trusted : Bool
  writes : List (Attempt ℕ)
  shutdown : Except IoErrorKind Unit
  reads : List (Attempt Bytes)

/-- The meeting under a deadline, which `left` stands for. -/
def Meeting.connection (meeting : Meeting) (left : Instant → Option Duration) : Connection where
  connect := if left meeting.connecting = none then .error .timeout else meeting.connect
  trusted := meeting.trusted
  writes := meeting.writes.map (Attempt.turn left)
  shutdown := meeting.shutdown
  reads := meeting.reads.map (Attempt.turn left)

/-- `Client::call` on the clock. The outer `none` is its panic. -/
def callAt (now : Instant) (deadline : Duration) (version : Version) (maxFrameBytes : ℕ) (id : Text)
    (decode : Value → Option Data) (body : Data) (meeting : Meeting) : Option (Option (Except ClientError Data)) :=
  (now.add deadline).map fun deadline =>
    call version maxFrameBytes id decode body (meeting.connection (left deadline))

/-- The call without a deadline. -/
def callUnbounded (version : Version) (maxFrameBytes : ℕ) (id : Text) (decode : Value → Option Data) (body : Data)
    (meeting : Meeting) : Option (Except ClientError Data) :=
  call version maxFrameBytes id decode body (meeting.connection fun _ => some .longest)

/-- The deadline of a call neither panics nor, out of reach, ends the call; every socket timeout is a time
the socket takes. -/
def DeadlineHolds (now : Instant) (deadline : Duration) : Prop :=
  (∀ version maxFrameBytes id decode body meeting,
    ∃ result, callAt now deadline version maxFrameBytes id decode body meeting = some result ∧
      (¬now.Reaches deadline → result = callUnbounded version maxFrameBytes id decode body meeting)) ∧
  ∀ last reading timeout, now.add deadline = some last → left last reading = some timeout → timeout.nanos ≠ 0

theorem deadlineHolds_iff (now : Instant) (deadline : Duration) :
    DeadlineHolds now deadline ↔ now.Reaches deadline := by
  constructor
  · intro h
    by_contra hfar
    obtain ⟨result, hresult, -⟩ := h.1 ⟨1, 0⟩ 0 [] (fun _ => none) (.bool true)
      ⟨now, .ok (), true, [], .ok (), []⟩
    rw [callAt, Instant.add, Instant.checkedAdd_eq_none.mpr hfar] at hresult
    simp at hresult
  · intro hnear
    constructor
    · intro version maxFrameBytes id decode body meeting
      rw [callAt, Instant.add, Instant.checkedAdd_eq_some hnear]
      exact ⟨_, rfl, fun hfar => absurd hnear hfar⟩
    · intro last reading timeout _ hleft
      exact (left_eq_some hleft).1

end Client

namespace Secrets

variable {S : Type}

/-- The limits as configured. -/
structure Config where
  idle : Duration
  maxAge : Duration
  sweepEvery : Duration

def Config.limits (config : Config) : SecretLimits :=
  ⟨config.idle.nanos, config.maxAge.nanos, config.sweepEvery.nanos⟩

/-- What `SecretStore::new` starts: the store, and the first tick of its sweeps. -/
structure Started (S : Type) where
  store : SecretStore S
  firstSweep : Option Instant

/-- `SecretStore::new` in a process that can be hardened; `none` is its panic. -/
def SecretStore.newAt (now : Instant) (config : Config) : Option (Started S) :=
  if config.sweepEvery.isZero then
    some ⟨.new config.limits, none⟩
  else
    (now.add config.sweepEvery).map fun first => ⟨.new config.limits, some first⟩

/-- The store starts, and it is never swept when its first sweep is out of reach. -/
def SweepHolds (now : Instant) (config : Config) : Prop :=
  ∃ started : Started S, SecretStore.newAt now config = some started ∧ started.store = .new config.limits ∧
    (¬now.Reaches config.sweepEvery → started.firstSweep = none)

theorem sweepHolds_iff (now : Instant) (config : Config) :
    SweepHolds (S := S) now config ↔ config.sweepEvery.nanos = 0 ∨ now.Reaches config.sweepEvery := by
  unfold SweepHolds SecretStore.newAt
  by_cases hzero : config.sweepEvery.nanos = 0
  · simp [Duration.isZero, hzero]
  · by_cases hnear : now.Reaches config.sweepEvery
    · simp [Duration.isZero, hzero, Instant.add, Instant.checkedAdd_eq_some hnear, hnear]
    · simp [Duration.isZero, hzero, Instant.add, Instant.checkedAdd_eq_none.mpr hnear, hnear]

/-- The test of `Held::expired` on instants: its difference is a duration, whichever of the two is later. -/
def pastAt (now since : Instant) (bound : Duration) : Bool :=
  !bound.isZero && decide (bound.nanos ≤ (now.sub since).nanos)

lemma pastAt_eq_past (now since : Instant) (bound : Duration) :
    pastAt now since bound = past now.nanos since.nanos bound.nanos := rfl

/-- A lifetime that counts from `since`, or no bound when it would end past every instant. -/
def reachable (since bound : ℕ) : ℕ :=
  if since + bound < 2 ^ 63 * 10 ^ 9 then bound else 0

/-- The same put with a lifetime out of reach left out. -/
def Op.reachable (limits : SecretLimits) (now : ℕ) : Op S → Op S
  | .put key secret => .putWith key secret (Secrets.reachable now limits.idle) (Secrets.reachable now limits.maxAge)
  | .putWith key secret idle maxAge => .putWith key secret (Secrets.reachable now idle) (Secrets.reachable now maxAge)
  | op => op

/-- The same secret with bounds out of reach left out, last read by `t`. -/
structure Held.Alike (t : ℕ) (held held' : Held S) : Prop where
  secret : held'.secret = held.secret
  stored : held'.stored = held.stored
  read : held'.read = held.read
  readBy : held.read ≤ t
  idle : held'.idle = held.idle ∨ held'.idle = 0 ∧ 2 ^ 63 * 10 ^ 9 ≤ held.read + held.idle
  maxAge : held'.maxAge = held.maxAge ∨ held'.maxAge = 0 ∧ 2 ^ 63 * 10 ^ 9 ≤ held.stored + held.maxAge

namespace Held.Alike

variable {t now : ℕ} {held held' : Held S}

lemma mono (h : Held.Alike t held held') (hle : t ≤ now) : Held.Alike now held held' :=
  { h with readBy := h.readBy.trans hle }

/-- A bound is the same, or off and past every instant. -/
lemma past_eq {since bound bound' : ℕ} (hnow : now < 2 ^ 63 * 10 ^ 9)
    (h : bound' = bound ∨ bound' = 0 ∧ 2 ^ 63 * 10 ^ 9 ≤ since + bound) : past now since bound' = past now since bound := by
  rcases h with h | ⟨h, hfar⟩
  · rw [h]
  · rw [h, past_eq_false.mpr (.inl rfl), eq_comm, past_eq_false]
    omega

lemma expired_eq (h : Held.Alike t held held') (hnow : now < 2 ^ 63 * 10 ^ 9) : held'.expired now = held.expired now := by
  unfold Held.expired
  rw [h.read, h.stored, past_eq hnow h.idle, past_eq hnow h.maxAge]

/-- A read moves the end of the idle lifetime on, so a bound out of reach stays there. -/
lemma readAt (h : Held.Alike t held held') (hle : t ≤ now) :
    Held.Alike now { held with read := now } { held' with read := now } where
  secret := h.secret
  stored := h.stored
  read := rfl
  readBy := Nat.le_refl now
  idle := h.idle.imp_right fun ⟨hoff, hfar⟩ => ⟨hoff, by have := h.readBy; simp only; omega⟩
  maxAge := h.maxAge

end Held.Alike

lemma reachable_cases (since bound : ℕ) :
    reachable since bound = bound ∨ reachable since bound = 0 ∧ 2 ^ 63 * 10 ^ 9 ≤ since + bound := by
  unfold reachable
  split <;> omega

namespace SecretStore

variable {store store' : SecretStore S} {t now : ℕ}

/-- The two stores hold the same secrets. -/
structure Alike (t : ℕ) (store store' : SecretStore S) : Prop where
  limits : store'.limits = store.limits
  secrets : ∀ key, Option.Rel (Held.Alike t) (store.secrets key) (store'.secrets key)

namespace Alike

lemma mono (h : Alike t store store') (hle : t ≤ now) : Alike now store store' where
  limits := h.limits
  secrets := by
    intro key
    have hold := h.secrets key
    revert hold
    generalize store.secrets key = a
    generalize store'.secrets key = b
    rintro (⟨hab⟩ | _)
    · exact .some (hab.mono hle)
    · exact .none

lemma update (h : Alike t store store') (hle : t ≤ now) (key : String) {o o' : Option (Held S)}
    (ho : Option.Rel (Held.Alike now) o o') :
    Alike now { store with secrets := Function.update store.secrets key o }
      { store' with secrets := Function.update store'.secrets key o' } where
  limits := h.limits
  secrets := by
    intro k
    by_cases hk : k = key
    · subst hk
      simpa using ho
    · simpa only [Function.update_of_ne hk] using (h.mono hle).secrets k

lemma putWith (h : Alike t store store') (hle : t ≤ now) (key : String) (secret : S) (idle maxAge : ℕ) :
    Alike now (store.putWith now key secret idle maxAge)
      (store'.putWith now key secret (reachable now idle) (reachable now maxAge)) :=
  h.update hle key (.some
    ⟨rfl, rfl, rfl, Nat.le_refl now, reachable_cases now idle, reachable_cases now maxAge⟩)

lemma sweep (h : Alike t store store') (hle : t ≤ now) (hnow : now < 2 ^ 63 * 10 ^ 9) :
    Alike now (store.sweep now) (store'.sweep now) where
  limits := h.limits
  secrets := by
    intro key
    have hold := h.secrets key
    unfold SecretStore.sweep
    revert hold
    simp only
    generalize store.secrets key = a
    generalize store'.secrets key = b
    rintro (⟨hab⟩ | _)
    · simp only [Option.filter_some, hab.expired_eq hnow]
      split
      · exact .some (hab.mono hle)
      · exact .none
    · exact .none

/-- A `get` finds the same on both sides. -/
lemma get (h : Alike t store store') (hle : t ≤ now) (hnow : now < 2 ^ 63 * 10 ^ 9) (key : String) :
    (store'.get now key id).1 = (store.get now key id).1 ∧
      Alike now (store.get now key id).2 (store'.get now key id).2 := by
  have hold := h.secrets key
  unfold SecretStore.get
  revert hold
  cases hheld : store.secrets key with
  | none =>
    cases hheld' : store'.secrets key with
    | none => exact fun _ => ⟨rfl, h.mono hle⟩
    | some held' => intro hrel; cases hrel
  | some held =>
    cases hheld' : store'.secrets key with
    | none => intro hrel; cases hrel
    | some held' =>
      rintro (⟨hab⟩ | _)
      simp only [hab.expired_eq hnow]
      split
      next => exact ⟨rfl, h.update hle key .none⟩
      next => exact ⟨congrArg some hab.secret, h.update hle key (.some (hab.readAt hle))⟩

lemma step (h : Alike t store store') (hle : t ≤ now) (hnow : now < 2 ^ 63 * 10 ^ 9) (op : Op S) :
    (store'.step now (op.reachable store.limits now)).1 = (store.step now op).1 ∧
      Alike now (store.step now op).2 (store'.step now (op.reachable store.limits now)).2 := by
  cases op with
  | put key secret => exact ⟨rfl, h.putWith hle key secret store.limits.idle store.limits.maxAge⟩
  | putWith key secret idle maxAge => exact ⟨rfl, h.putWith hle key secret idle maxAge⟩
  | get key => exact h.get hle hnow key
  | remove key => exact ⟨rfl, h.update hle key .none⟩
  | clear => exact ⟨rfl, h.limits, fun _ => .none⟩
  | sweep => exact ⟨rfl, h.sweep hle hnow⟩

end Alike

/-- Whatever the calls, the bounds out of reach are no bounds. -/
theorem answers_reachable (key : String) (trace : Trace S) :
    ∀ {t : ℕ} {store store' : SecretStore S}, Alike t store store' → (∀ e ∈ trace, t ≤ e.1) →
      trace.Pairwise (fun e e' => e.1 ≤ e'.1) → (∀ e ∈ trace, e.1 < 2 ^ 63 * 10 ^ 9) →
      store'.answers key (trace.map fun e => (e.1, e.2.reachable store.limits e.1)) = store.answers key trace := by
  induction trace with
  | nil => intros; rfl
  | cons e trace ih =>
    obtain ⟨now, op⟩ := e
    intro t store store' halike hfrom hsorted hinstants
    obtain ⟨hanswer, hstep⟩ := halike.step (hfrom (now, op) (by simp)) (hinstants (now, op) (by simp)) op
    have hlater := ih hstep (List.pairwise_cons.mp hsorted).1 (List.pairwise_cons.mp hsorted).2
      fun e he => hinstants e (List.mem_cons_of_mem _ he)
    rw [limits_step] at hlater
    rw [List.map_cons]
    cases op with
    | get k =>
      unfold answers
      simp only [Op.reachable] at hlater hanswer ⊢
      rw [hlater, hanswer]
    | put | putWith | remove | clear | sweep =>
      unfold answers
      exact hlater

end SecretStore

end Secrets

namespace Serve

variable {E : Type} {life : Lifecycle}

/-- The timers of the loop were started at some reading of the clock since `t₀`. -/
structure Started (life : Lifecycle) (t₀ : ℕ) (s : State E) : Prop where
  clock : t₀ ≤ s.clock
  armed : ∀ d, s.loop = .selecting (.armed d) → ∃ t, t₀ ≤ t ∧ t ≤ s.clock ∧ d = t + life.idleTimeout
  draining : ∀ exit d, s.loop = .draining exit d → ∃ t, t₀ ≤ t ∧ t ≤ s.clock ∧ d = t + life.drainTimeout

lemma Started.loop {t₀ : ℕ} {s s' : State E} (h : Started life t₀ s) (hclock : s.clock ≤ s'.clock)
    (harmed : ∀ d, s'.loop = .selecting (.armed d) →
      s.loop = .selecting (.armed d) ∨ d = s.clock + life.idleTimeout)
    (hdraining : ∀ exit d, s'.loop = .draining exit d →
      s.loop = .draining exit d ∨ d = s.clock + life.drainTimeout) : Started life t₀ s' where
  clock := h.clock.trans hclock
  armed := by
    intro d hd
    rcases harmed d hd with hold | hnew
    · obtain ⟨t, hfrom, hto, heq⟩ := h.armed d hold
      exact ⟨t, hfrom, hto.trans hclock, heq⟩
    · exact ⟨s.clock, h.clock, hclock, hnew⟩
  draining := by
    intro exit d hd
    rcases hdraining exit d hd with hold | hnew
    · obtain ⟨t, hfrom, hto, heq⟩ := h.draining exit d hold
      exact ⟨t, hfrom, hto.trans hclock, heq⟩
    · exact ⟨s.clock, h.clock, hclock, hnew⟩

lemma started_step {t₀ : ℕ} {s s' : State E} {a : Action E} (h : Started life t₀ s) (hstep : Step life s a s') :
    Started life t₀ s' := by
  cases hstep with
  | tick n => exact h.loop (Nat.le_add_right _ _) (fun _ => .inl) (fun _ _ => .inl)
  | raise signal => exact h.loop (Nat.le_refl _) (fun _ => .inl) (fun _ _ => .inl)
  | pollIdle hloop =>
    refine h.loop (Nat.le_refl _) ?_ ?_
    · intro d hd
      simp only [State.setLoop, Loop.selecting.injEq] at hd
      unfold Serve.pollIdle at hd
      split at hd
      · simp only [Idle.armed.injEq] at hd
        exact .inr hd.symm
      · simp at hd
    · simp [State.setLoop]
  | startTimeout hloop =>
    refine h.loop (Nat.le_refl _) ?_ ?_
    · simp [State.setLoop]
    · intro exit d hd
      simp only [State.setLoop, Loop.draining.injEq] at hd
      exact .inr hd.2.symm
  | serveReturns | panic | cut | lower | notify | finish =>
    exact h.loop (Nat.le_refl _) (fun _ => .inl) (fun _ _ => .inl)
  | installFails | install | accept | acceptAborted | acceptFails | closed | idle | signalled | count | spawn
  | dropListener | closeTracker | drained | drainTimeout =>
    exact h.loop (Nat.le_refl _) (by simp [State.setLoop, State.leave]) (by simp [State.setLoop, State.leave])

theorem started_run {s₀ s : State E} {as : List (Action E)} (h₀ : Init s₀) (hrun : (system E life).Run s₀ as s) :
    Started life s₀.clock s :=
  hrun.invariant (fun _ _ _ h hstep => started_step h hstep)
    ⟨Nat.le_refl _, by simp [h₀.1], by simp [h₀.1]⟩

/-- The lifecycle as configured. -/
structure Config where
  idleTimeout : Duration
  drainTimeout : Duration

def Config.lifecycle (config : Config) : Lifecycle :=
  ⟨config.idleTimeout.nanos, config.drainTimeout.nanos⟩

/-- Whenever a timer ends the wait of the loop or of the drain, it is a library timer that was started
since, and it has fired. -/
def TimersHold (E : Type) (config : Config) : Prop :=
  ∀ (s₀ s : State E) (as : List (Action E)) (now : Instant), Init s₀ → (system E config.lifecycle).Run s₀ as s →
    s.clock = now.nanos → ∀ (a : Action E) (t : State E), Step config.lifecycle s a t →
      (a = .idle → ∃ armed : Instant, s₀.clock ≤ armed.nanos ∧ Instant.Fired (armed.sleep config.idleTimeout) now) ∧
      (a = .drainTimeout →
        ∃ armed : Instant, s₀.clock ≤ armed.nanos ∧ Instant.Fired (armed.sleep config.drainTimeout) now)

theorem timersHold (E : Type) (config : Config) : TimersHold E config := by
  intro s₀ s as now h₀ hrun hclock a t hstep
  have hstarted := started_run h₀ hrun
  have hlt := now.lt
  cases hstep with
  | idle hloop ready =>
    obtain ⟨moment, hfrom, hto, heq⟩ := hstarted.armed _ hloop
    refine ⟨fun _ => ⟨⟨moment, by omega⟩, hfrom, ?_⟩, fun h => nomatch h⟩
    rw [Instant.fired_sleep, ← hclock]
    exact heq ▸ ready
  | drainTimeout hloop ready =>
    obtain ⟨moment, hfrom, hto, heq⟩ := hstarted.draining _ _ hloop
    refine ⟨fun h => (nomatch h), fun _ => ⟨⟨moment, by omega⟩, hfrom, ?_⟩⟩
    rw [Instant.fired_sleep, ← hclock]
    exact heq ▸ ready
  | _ => exact ⟨fun h => (nomatch h), fun h => nomatch h⟩

end Serve

/-- A use of a configured duration that adds it to the clock. -/
inductive Use where
  | call (now : Instant) (deadline : Duration)
  | new (now : Instant) (config : Secrets.Config)

namespace Use

/-- The use does not panic, and a bound out of reach does nothing. -/
def Holds (S : Type) : Use → Prop
  | call now deadline => Client.DeadlineHolds now deadline
  | new now config => Secrets.SweepHolds (S := S) now config

/-- The sum that the use takes is an instant. -/
def InReach : Use → Prop
  | call now deadline => now.Reaches deadline
  | new now config => config.sweepEvery.nanos = 0 ∨ now.Reaches config.sweepEvery

end Use

/-- The configured durations keep to the claim in every sequence of calls and store starts exactly when each
deadline and each first sweep is an instant. The lifetimes of secrets and the timers of the accept loop
always do. -/
theorem durations_hold_iff (S E : Type) (uses : List Use) :
    ((∀ use ∈ uses, use.Holds S) ∧
      (∀ now since bound, Secrets.pastAt now since bound = Secrets.past now.nanos since.nanos bound.nanos) ∧
      (∀ (config : Secrets.Config) (key : String) (trace : Secrets.Trace S),
        trace.Pairwise (fun e e' => e.1 ≤ e'.1) → (∀ e ∈ trace, ∃ now : Instant, e.1 = now.nanos) →
        (Secrets.SecretStore.new config.limits).answers key
            (trace.map fun e => (e.1, e.2.reachable config.limits e.1)) =
          (Secrets.SecretStore.new config.limits).answers key trace) ∧
      ∀ config : Serve.Config, Serve.TimersHold E config) ↔
      ∀ use ∈ uses, use.InReach := by
  have heach : ∀ use : Use, use.Holds S ↔ use.InReach := by
    intro use
    cases use with
    | call now deadline => exact Client.deadlineHolds_iff now deadline
    | new now config => exact Secrets.sweepHolds_iff now config
  simp only [heach]
  constructor
  · exact fun h => h.1
  · intro h
    refine ⟨h, Secrets.pastAt_eq_past, ?_, fun config => Serve.timersHold E config⟩
    intro config key trace hsorted hinstants
    have hfresh : Secrets.SecretStore.Alike (S := S) 0 (.new config.limits) (.new config.limits) :=
      ⟨rfl, fun _ => .none⟩
    apply Secrets.SecretStore.answers_reachable key trace hfresh (fun _ _ => Nat.zero_le _) hsorted
    intro e he
    obtain ⟨now, hnow⟩ := hinstants e he
    exact hnow ▸ now.lt

/-- A client whose deadline is `Duration::MAX`, so as to have none, cannot make a call. -/
theorem longest_deadline_panics :
    (∀ version maxFrameBytes id decode body meeting,
      Client.callAt ⟨0, by decide⟩ .longest version maxFrameBytes id decode body meeting = none) ∧
    ¬(Use.call ⟨0, by decide⟩ .longest).Holds ℕ := by
  have hfar : ¬Instant.Reaches ⟨0, by decide⟩ .longest := by decide
  constructor
  · intro version maxFrameBytes id decode body meeting
    rw [Client.callAt, Instant.add, Instant.checkedAdd_eq_none.mpr hfar]
    rfl
  · rw [Use.Holds, Client.deadlineHolds_iff]
    exact hfar

end Unixd
