import Mathlib.Tactic.Common
import Unixd.Lib.System

/-!
# The accept loop and its drain

`serve_listener` against an explicit clock. The loop selects over six branches and raises
`open` for every connection it accepts; each connection task lowers `open` and wakes the loop
through `closed`, whose one permit coalesces. A drain stops accepting, waits, then cuts.
-/

namespace Unixd.Serve
set_option linter.unusedSectionVars false

open Unixd.Lib

/-- Durations in the clock's unit. -/
structure Lifecycle where
  idleTimeout : ℕ
  drainTimeout : ℕ

/-- The idle branch of one iteration: it reads `open` when it is first polled. -/
inductive Idle where
  | unpolled
  | armed (deadline : ℕ)
  | pending
  deriving DecidableEq

/-- What the loop broke with, and when. -/
structure Exit (E : Type) where
  result : Except E Unit
  since : ℕ

/-- Where `serve_listener` is. -/
inductive Loop (E : Type) where
  | installing
  | failed (error : E)
  | selecting (idle : Idle)
  | accepted (moment : ℕ)
  | counted (moment : ℕ)
  | broken (exit : Exit E)
  | dropped (exit : Exit E)
  | closed (exit : Exit E)
  | draining (exit : Exit E) (deadline : ℕ)
  | cutting (exit : Exit E)
  | returned (exit : Exit E)

/-- What the counter is ahead of the tasks by. -/
def Loop.raised {E : Type} : Loop E → ℕ
  | .counted _ => 1
  | _ => 0

/-- How many accepted connections have no task yet. -/
def Loop.inHand {E : Type} : Loop E → ℕ
  | .accepted _ | .counted _ => 1
  | _ => 0

/-- The loop has ended, and how. -/
def Loop.exit {E : Type} : Loop E → Option (Exit E)
  | .broken exit | .dropped exit | .closed exit | .draining exit _ | .cutting exit | .returned exit =>
    some exit
  | _ => none

/-- What a connection task does after its connection is over. -/
inductive Rest where
  | served
  | lowered
  | notified
  | ended
  | panicked
  deriving DecidableEq

/-- A connection task, with the moments its connection was accepted and over. -/
inductive Task where
  | serving (accepted : ℕ)
  | gone (accepted ended : ℕ) (rest : Rest)

namespace Task

def IsServing : Task → Bool
  | serving _ => true
  | gone .. => false

/-- The task has not lowered `open`. -/
def IsCounted : Task → Bool
  | serving _ | gone _ _ .served | gone _ _ .panicked => true
  | gone .. => false

def IsPanicked : Task → Bool
  | gone _ _ .panicked => true
  | _ => false

/-- The runtime has dropped the task, which takes it off the tracker. -/
def HasEnded : Task → Bool
  | gone _ _ .ended | gone _ _ .panicked => true
  | _ => false

/-- The connection was accepted and over by `t`. -/
def OverBy (t : ℕ) : Task → Prop
  | serving _ => False
  | gone a o _ => a ≤ o ∧ o ≤ t

lemma OverBy.mono {t t' : ℕ} {task : Task} (h : task.OverBy t) (hle : t ≤ t') : task.OverBy t' := by
  cases task with
  | serving => exact h
  | gone a o r => exact ⟨h.1, Nat.le_trans h.2 hle⟩

end Task

inductive Signal where
  | shutdown
  | terminate
  | interrupt
  deriving DecidableEq

/-- `permit` is the one permit of `closed`, `cut` the token that cuts the connections. -/
structure State (E : Type) where
  loop : Loop E
  openCount : ℕ
  permit : Bool
  cut : Bool
  tasks : List Task
  raised : Signal → Bool
  clock : ℕ

inductive Action (E : Type) where
  | tick (n : ℕ)
  | raise (signal : Signal)
  | installFails (error : E)
  | install
  | pollIdle
  | accept
  | acceptAborted
  | acceptFails (error : E)
  | closed
  | idle
  | signalled (signal : Signal)
  | count
  | spawn
  | dropListener
  | closeTracker
  | startTimeout
  | drained
  | drainTimeout
  | serveReturns (i : ℕ)
  | panic (i : ℕ)
  | cut (i : ℕ)
  | lower (i : ℕ)
  | notify (i : ℕ)
  | finish (i : ℕ)

section

variable {E : Type} {life : Lifecycle}

namespace State

def Serving (s : State E) : ℕ :=
  s.tasks.countP Task.IsServing

def AllEnded (s : State E) : Prop :=
  ∀ task ∈ s.tasks, task.HasEnded

def setLoop (s : State E) (loop : Loop E) : State E :=
  { s with loop := loop }

def setTask (s : State E) (i : ℕ) (task : Task) : State E :=
  { s with tasks := s.tasks.set i task }

/-- The loop breaks. -/
def leave (s : State E) (result : Except E Unit) : State E :=
  s.setLoop (.broken ⟨result, s.clock⟩)

end State

/-- What the idle branch does when it is first polled. -/
def pollIdle (life : Lifecycle) (s : State E) : Idle :=
  if s.openCount = 0 ∧ life.idleTimeout ≠ 0 then .armed (s.clock + life.idleTimeout) else .pending

/-- One step of the loop, of a connection task, of the clock or of a sender of signals. Any
ready branch of a `select!` may win, also before another branch is polled. -/
inductive Step (life : Lifecycle) : State E → Action E → State E → Prop where
  | tick {s} (n : ℕ) : Step life s (.tick n) { s with clock := s.clock + n }
  | raise {s} (signal : Signal) :
      Step life s (.raise signal) { s with raised := fun x => x = signal || s.raised x }
  | installFails {s} (error : E) (h : s.loop = .installing) :
      Step life s (.installFails error) (s.setLoop (.failed error))
  | install {s} (h : s.loop = .installing) : Step life s .install (s.setLoop (.selecting .unpolled))
  | pollIdle {s} (h : s.loop = .selecting .unpolled) :
      Step life s .pollIdle (s.setLoop (.selecting (pollIdle life s)))
  | accept {s} {i : Idle} (h : s.loop = .selecting i) : Step life s .accept (s.setLoop (.accepted s.clock))
  | acceptAborted {s} {i : Idle} (h : s.loop = .selecting i) :
      Step life s .acceptAborted (s.setLoop (.selecting .unpolled))
  | acceptFails {s} {i : Idle} (error : E) (h : s.loop = .selecting i) :
      Step life s (.acceptFails error) (s.leave (.error error))
  | closed {s} {i : Idle} (h : s.loop = .selecting i) (ready : s.permit = true) :
      Step life s .closed { s.setLoop (.selecting .unpolled) with permit := false }
  | idle {s} {d : ℕ} (h : s.loop = .selecting (.armed d)) (ready : d ≤ s.clock) :
      Step life s .idle (s.leave (.ok ()))
  | signalled {s} {i : Idle} {signal : Signal} (h : s.loop = .selecting i)
      (ready : s.raised signal = true) : Step life s (.signalled signal) (s.leave (.ok ()))
  | count {s} {a : ℕ} (h : s.loop = .accepted a) :
      Step life s .count { s.setLoop (.counted a) with openCount := s.openCount + 1 }
  | spawn {s} {a : ℕ} (h : s.loop = .counted a) :
      Step life s .spawn { s.setLoop (.selecting .unpolled) with tasks := s.tasks ++ [.serving a] }
  | dropListener {s} {exit : Exit E} (h : s.loop = .broken exit) :
      Step life s .dropListener (s.setLoop (.dropped exit))
  | closeTracker {s} {exit : Exit E} (h : s.loop = .dropped exit) :
      Step life s .closeTracker (s.setLoop (.closed exit))
  | startTimeout {s} {exit : Exit E} (h : s.loop = .closed exit) :
      Step life s .startTimeout (s.setLoop (.draining exit (s.clock + life.drainTimeout)))
  | drained {s} {exit : Exit E} (h : (∃ d, s.loop = .draining exit d) ∨ s.loop = .cutting exit)
      (ready : s.AllEnded) : Step life s .drained (s.setLoop (.returned exit))
  | drainTimeout {s} {exit : Exit E} {d : ℕ} (h : s.loop = .draining exit d) (ready : d ≤ s.clock) :
      Step life s .drainTimeout { s.setLoop (.cutting exit) with cut := true }
  | serveReturns {s} {i a : ℕ} (h : s.tasks[i]? = some (.serving a)) :
      Step life s (.serveReturns i) (s.setTask i (.gone a s.clock .served))
  | panic {s} {i a : ℕ} (h : s.tasks[i]? = some (.serving a)) :
      Step life s (.panic i) (s.setTask i (.gone a s.clock .panicked))
  | cut {s} {i a : ℕ} (h : s.tasks[i]? = some (.serving a)) (ready : s.cut = true) :
      Step life s (.cut i) (s.setTask i (.gone a s.clock .served))
  | lower {s} {i a o : ℕ} (h : s.tasks[i]? = some (.gone a o .served)) :
      Step life s (.lower i) { s.setTask i (.gone a o .lowered) with openCount := s.openCount - 1 }
  | notify {s} {i a o : ℕ} (h : s.tasks[i]? = some (.gone a o .lowered)) :
      Step life s (.notify i) { s.setTask i (.gone a o .notified) with permit := true }
  | finish {s} {i a o : ℕ} (h : s.tasks[i]? = some (.gone a o .notified)) :
      Step life s (.finish i) (s.setTask i (.gone a o .ended))

def Init (s : State E) : Prop :=
  s.loop = .installing ∧ s.openCount = 0 ∧ s.permit = false ∧ s.cut = false ∧ s.tasks = []

/-- One call of `serve_listener`. -/
def system (E : Type) (life : Lifecycle) : System (State E) (Action E) where
  init := Init
  step := Step life

/-- What holds in every reachable state. -/
structure Inv (life : Lifecycle) (s : State E) : Prop where
  counted : s.openCount = s.tasks.countP Task.IsCounted + s.loop.raised
  overBy : ∀ task ∈ s.tasks, task.IsServing = false → task.OverBy s.clock
  accepted : ∀ a, (s.loop = .accepted a ∨ s.loop = .counted a ∨ .serving a ∈ s.tasks) → a ≤ s.clock
  armed : ∀ d, s.loop = .selecting (.armed d) → s.openCount = 0 ∧
    ∃ t, t + life.idleTimeout = d ∧ ∀ task ∈ s.tasks, task.OverBy t
  pending : s.loop = .selecting .pending → life.idleTimeout ≠ 0 →
    s.openCount ≠ 0 ∨ s.permit = true ∨ ∃ a o, .gone a o .lowered ∈ s.tasks
  draining : ∀ exit d, s.loop = .draining exit d → exit.since + life.drainTimeout ≤ d
  broken : ∀ exit, (s.loop = .broken exit ∨ s.loop = .dropped exit ∨ s.loop = .closed exit) →
    exit.since ≤ s.clock
  cut : s.cut = true → ∃ exit, (s.loop = .cutting exit ∨ s.loop = .returned exit) ∧
    exit.since + life.drainTimeout ≤ s.clock
  returned : ∀ exit, s.loop = .returned exit → s.AllEnded

lemma inv_init {s : State E} (h : Init s) : Inv life s := by
  obtain ⟨hloop, hopen, hpermit, hcut, htasks⟩ := h
  constructor <;> simp [hloop, hopen, hcut, htasks, Loop.raised]

/-- A step of the loop that leaves the counter and the tasks as they are. -/
lemma Inv.loop {s : State E} (hi : Inv life s) {loop : Loop E} (hraised : loop.raised = s.loop.raised)
    (haccepted : ∀ a, (loop = .accepted a ∨ loop = .counted a) → a ≤ s.clock)
    (harmed : ∀ d, loop = .selecting (.armed d) → s.openCount = 0 ∧
      ∃ t, t + life.idleTimeout = d ∧ ∀ task ∈ s.tasks, task.OverBy t)
    (hpending : loop = .selecting .pending → life.idleTimeout ≠ 0 → s.openCount ≠ 0)
    (hdraining : ∀ exit d, loop = .draining exit d → exit.since + life.drainTimeout ≤ d)
    (hbroken : ∀ exit, (loop = .broken exit ∨ loop = .dropped exit ∨ loop = .closed exit) →
      exit.since ≤ s.clock)
    (hcut : s.cut = true → ∃ exit, (loop = .cutting exit ∨ loop = .returned exit) ∧
      exit.since + life.drainTimeout ≤ s.clock)
    (hreturned : ∀ exit, loop = .returned exit → s.AllEnded) : Inv life (s.setLoop loop) where
  counted := by
    have hcounted := hi.counted
    rw [← hraised] at hcounted
    exact hcounted
  overBy := hi.overBy
  accepted a h := by
    rcases h with h | h | h
    · exact haccepted a (Or.inl h)
    · exact haccepted a (Or.inr h)
    · exact hi.accepted a (Or.inr (Or.inr h))
  armed := harmed
  pending h hne := Or.inl (hpending h hne)
  draining := hdraining
  broken := hbroken
  cut := hcut
  returned := hreturned

lemma countP_set {p : Task → Bool} {tasks : List Task} {i : ℕ} {old : Task}
    (h : tasks[i]? = some old) (new : Task) :
    (tasks.set i new).countP p + (p old).toNat = tasks.countP p + (p new).toNat := by
  induction tasks generalizing i with
  | nil => simp at h
  | cons task tasks ih =>
    cases i with
    | zero =>
      obtain rfl : task = old := by simpa using h
      simp only [List.set_cons_zero, List.countP_cons]
      cases p task <;> cases p new <;> simp
    | succ i =>
      have hi := ih (by simpa using h)
      simp only [List.set_cons_succ, List.countP_cons]
      omega

lemma Inv.gone {s : State E} (hi : Inv life s) {i a o : ℕ} {rest : Rest}
    (h : s.tasks[i]? = some (.gone a o rest)) : a ≤ o ∧ o ≤ s.clock :=
  hi.overBy _ (List.mem_of_getElem? h) rfl

/-- A step of one task, which has not ended, to a later stage. -/
lemma Inv.task {s : State E} (hi : Inv life s) {i : ℕ} {old new : Task} {o : ℕ} {permit : Bool}
    (hold : s.tasks[i]? = some old) (hrunning : old.HasEnded = false)
    (hcounted : o + old.IsCounted.toNat = s.openCount + new.IsCounted.toNat) (hle : o ≤ s.openCount)
    (hover : new.OverBy s.clock) (hoverBy : ∀ t, old.OverBy t → new.OverBy t)
    (hpermit : s.permit = true → permit = true)
    (hlowered : s.openCount ≠ 0 → o ≠ 0 ∨ ∃ a o, new = .gone a o .lowered)
    (hnotified : ∀ a o, old = .gone a o .lowered → permit = true) :
    Inv life { s.setTask i new with openCount := o, permit := permit } := by
  have hmem : ∀ {task}, task ∈ s.tasks.set i new → task ∈ s.tasks ∨ task = new :=
    fun h => List.mem_or_eq_of_mem_set h
  have holdmem : old ∈ s.tasks := List.mem_of_getElem? hold
  have hnotserving : ∀ a, new ≠ .serving a := by
    rintro a rfl
    exact hover
  constructor
  · have hset := countP_set (p := Task.IsCounted) hold new
    have hsum := hi.counted
    change o = (s.tasks.set i new).countP _ + s.loop.raised
    omega
  · intro task h hserving
    rcases hmem h with h | rfl
    · exact hi.overBy task h hserving
    · exact hover
  · intro a h
    rcases h with h | h | h
    · exact hi.accepted a (Or.inl h)
    · exact hi.accepted a (Or.inr (Or.inl h))
    · rcases hmem h with h | h
      · exact hi.accepted a (Or.inr (Or.inr h))
      · exact absurd h.symm (hnotserving a)
  · intro d h
    obtain ⟨hopen, t, hd, hall⟩ := hi.armed d h
    refine ⟨by change o = 0; omega, t, hd, fun task htask => ?_⟩
    rcases hmem htask with htask | rfl
    · exact hall task htask
    · exact hoverBy t (hall old holdmem)
  · intro h hne
    rcases hi.pending h hne with hopen | hp | ⟨a, o', hmemo⟩
    · rcases hlowered hopen with ho | ⟨a, o', rfl⟩
      · exact Or.inl ho
      · exact Or.inr (Or.inr ⟨a, o', List.mem_set (List.getElem?_eq_some_iff.mp hold).1 _⟩)
    · exact Or.inr (Or.inl (hpermit hp))
    · obtain ⟨j, hj⟩ := List.mem_iff_getElem?.mp hmemo
      by_cases hji : i = j
      · subst hji
        rw [hold, Option.some_inj] at hj
        exact Or.inr (Or.inl (hnotified a o' hj))
      · refine Or.inr (Or.inr ⟨a, o', List.mem_iff_getElem?.mpr ⟨j, ?_⟩⟩)
        change (s.tasks.set i new)[j]? = _
        rw [List.getElem?_set_ne hji, hj]
  · exact hi.draining
  · exact hi.broken
  · exact hi.cut
  · intro exit h
    have hended := hi.returned exit h old holdmem
    simp [hrunning] at hended

lemma Inv.leave {s : State E} (hi : Inv life s) {i : Idle} (h : s.loop = .selecting i)
    (result : Except E Unit) : Inv life (s.leave result) := by
  refine hi.loop (by simp [h, Loop.raised]) (by simp) (by simp) (by simp) (by simp) ?_ ?_ (by simp)
  · intro exit hexit
    simp only [Loop.broken.injEq, reduceCtorEq, or_false] at hexit
    exact hexit ▸ Nat.le_refl _
  · intro hcut
    obtain ⟨exit, hloop, -⟩ := hi.cut hcut
    simp [h] at hloop

/-- The idle branch finds no connection open, or one whose task has still to wake the loop. -/
lemma Inv.pollIdle {s : State E} (hi : Inv life s) (h : s.loop = .selecting .unpolled) :
    Inv life (s.setLoop (.selecting (pollIdle life s))) := by
  have hcut : s.cut ≠ true := by
    intro hcut
    obtain ⟨exit, hloop, -⟩ := hi.cut hcut
    simp [h] at hloop
  refine hi.loop (by simp [h, Loop.raised]) (by simp) ?_ ?_ (by simp) (by simp) (absurd · hcut) (by simp)
  · intro d hd
    simp only [Loop.selecting.injEq, Serve.pollIdle] at hd
    split at hd
    · rename_i hidle
      obtain ⟨hopen, -⟩ := hidle
      refine ⟨hopen, s.clock, by simpa using hd, fun task htask => hi.overBy task htask ?_⟩
      have hcounted := hi.counted
      have hzero : s.tasks.countP Task.IsCounted = 0 := by omega
      rw [List.countP_eq_zero] at hzero
      cases task with
      | serving a => exact absurd rfl (hzero _ htask)
      | gone a o rest => rfl
    · cases hd
  · intro hp hne hopen
    simp [Serve.pollIdle, hne, hopen] at hp

lemma Inv.select {s : State E} (hi : Inv life s) (hraised : s.loop.raised = 0) (hcut : s.cut ≠ true) :
    Inv life (s.setLoop (.selecting .unpolled)) :=
  hi.loop hraised.symm (by simp) (by simp) (by simp) (by simp) (by simp) (absurd · hcut) (by simp)

theorem inv_step {s s' : State E} {a : Action E} (hi : Inv life s) (h : Step life s a s') :
    Inv life s' := by
  have hcut : (∀ exit, s.loop ≠ .cutting exit ∧ s.loop ≠ .returned exit) → s.cut ≠ true := by
    intro hloop hcut
    obtain ⟨exit, hl | hl, -⟩ := hi.cut hcut
    · exact (hloop exit).1 hl
    · exact (hloop exit).2 hl
  cases h with
  | tick n =>
    refine ⟨hi.counted, fun task htask hs => (hi.overBy task htask hs).mono (Nat.le_add_right _ _),
      fun a ha => Nat.le_trans (hi.accepted a ha) (Nat.le_add_right _ _), hi.armed, hi.pending,
      hi.draining, fun exit he => Nat.le_trans (hi.broken exit he) (Nat.le_add_right _ _), ?_, hi.returned⟩
    intro hc
    obtain ⟨exit, hl, hle⟩ := hi.cut hc
    exact ⟨exit, hl, Nat.le_trans hle (Nat.le_add_right _ _)⟩
  | raise signal =>
    exact ⟨hi.counted, hi.overBy, hi.accepted, hi.armed, hi.pending, hi.draining, hi.broken, hi.cut,
      hi.returned⟩
  | installFails error h =>
    exact hi.loop (by simp [h, Loop.raised]) (by simp) (by simp) (by simp) (by simp) (by simp)
      (absurd · (hcut (by simp [h]))) (by simp)
  | install h => exact hi.select (by simp [h, Loop.raised]) (hcut (by simp [h]))
  | pollIdle h => exact hi.pollIdle h
  | accept h =>
    refine hi.loop (by simp [h, Loop.raised]) ?_ (by simp) (by simp) (by simp) (by simp)
      (absurd · (hcut (by simp [h]))) (by simp)
    intro a ha
    simp only [Loop.accepted.injEq, reduceCtorEq, or_false] at ha
    exact ha ▸ Nat.le_refl _
  | acceptAborted h => exact hi.select (by simp [h, Loop.raised]) (hcut (by simp [h]))
  | acceptFails error h => exact hi.leave h _
  | @closed i h ready =>
    have hsel := hi.select (by simp [h, Loop.raised]) (hcut (by simp [h]))
    exact ⟨hsel.counted, hsel.overBy, hsel.accepted, hsel.armed, by simp [State.setLoop], hsel.draining,
      hsel.broken, hsel.cut, hsel.returned⟩
  | idle h ready => exact hi.leave h _
  | signalled h ready => exact hi.leave h _
  | @count m h =>
    have hc := hcut (by simp [h])
    have hcounted := hi.counted
    refine ⟨?_, hi.overBy, ?_, by simp [State.setLoop], by simp [State.setLoop], by simp [State.setLoop],
      by simp [State.setLoop], (absurd · hc), by simp [State.setLoop]⟩
    · simpa [h, State.setLoop, Loop.raised] using hcounted
    · rintro a (ha | ha | ha)
      · simp [State.setLoop] at ha
      · obtain rfl : m = a := by simpa [State.setLoop] using ha
        exact hi.accepted m (Or.inl h)
      · exact hi.accepted a (Or.inr (Or.inr ha))
  | @spawn m h =>
    have hc := hcut (by simp [h])
    have hcounted := hi.counted
    refine ⟨?_, ?_, ?_, by simp [State.setLoop], by simp [State.setLoop], by simp [State.setLoop],
      by simp [State.setLoop], (absurd · hc), by simp [State.setLoop]⟩
    · simpa [h, State.setLoop, Loop.raised, Task.IsCounted] using hcounted
    · intro task htask hserving
      rcases List.mem_append.mp htask with htask | htask
      · exact hi.overBy task htask hserving
      · obtain rfl := List.mem_singleton.mp htask
        cases hserving
    · rintro a (ha | ha | ha)
      · simp [State.setLoop] at ha
      · simp [State.setLoop] at ha
      · rcases List.mem_append.mp ha with ha | ha
        · exact hi.accepted a (Or.inr (Or.inr ha))
        · obtain rfl : a = m := by simpa using ha
          exact hi.accepted a (Or.inr (Or.inl h))
  | @dropListener exit h =>
    refine hi.loop (by simp [h, Loop.raised]) (by simp) (by simp) (by simp) (by simp) ?_
      (absurd · (hcut (by simp [h]))) (by simp)
    intro e he
    obtain rfl : exit = e := by simpa using he
    exact hi.broken exit (Or.inl h)
  | @closeTracker exit h =>
    refine hi.loop (by simp [h, Loop.raised]) (by simp) (by simp) (by simp) (by simp) ?_
      (absurd · (hcut (by simp [h]))) (by simp)
    intro e he
    obtain rfl : exit = e := by simpa using he
    exact hi.broken exit (Or.inr (Or.inl h))
  | @startTimeout exit h =>
    refine hi.loop (by simp [h, Loop.raised]) (by simp) (by simp) (by simp) ?_ (by simp)
      (absurd · (hcut (by simp [h]))) (by simp)
    intro e d he
    simp only [Loop.draining.injEq] at he
    have hle := hi.broken exit (Or.inr (Or.inr h))
    rw [← he.1, ← he.2]
    omega
  | @drained exit h ready =>
    refine hi.loop ?_ (by simp) (by simp) (by simp) (by simp) (by simp) ?_ (fun _ _ => ready)
    · rcases h with ⟨d, h⟩ | h <;> simp [h, Loop.raised]
    · intro hc
      obtain ⟨e, hl, hle⟩ := hi.cut hc
      refine ⟨exit, Or.inr rfl, ?_⟩
      rcases h with ⟨d, h⟩ | h
      · simp [h] at hl
      · obtain rfl : exit = e := by simpa [h] using hl
        exact hle
  | @drainTimeout exit d h ready =>
    refine ⟨?_, hi.overBy, ?_, by simp [State.setLoop], by simp [State.setLoop], by simp [State.setLoop],
      by simp [State.setLoop], fun _ => ⟨exit, Or.inl rfl, ?_⟩, by simp [State.setLoop]⟩
    · simpa [h, State.setLoop, Loop.raised] using hi.counted
    · rintro a (ha | ha | ha)
      · simp [State.setLoop] at ha
      · simp [State.setLoop] at ha
      · exact hi.accepted a (Or.inr (Or.inr ha))
    · exact Nat.le_trans (hi.draining exit d h) ready
  | @serveReturns i a h | @panic i a h | @cut i a h =>
    have hle := hi.accepted a (Or.inr (Or.inr (List.mem_of_getElem? h)))
    exact hi.task h rfl rfl (Nat.le_refl _) ⟨hle, Nat.le_refl _⟩ (fun _ => False.elim) id (fun ho => Or.inl ho)
      (by simp)
  | @lower i a o h =>
    have hcounted := hi.counted
    have hpos : 0 < s.tasks.countP Task.IsCounted :=
      List.countP_pos_iff.mpr ⟨_, List.mem_of_getElem? h, rfl⟩
    refine hi.task h rfl ?_ (Nat.sub_le _ _) (hi.gone h) (fun _ => id) id
      (fun _ => Or.inr ⟨a, o, rfl⟩) (by simp)
    change s.openCount - 1 + 1 = s.openCount + 0
    omega
  | @notify i a o h =>
    exact hi.task h rfl rfl (Nat.le_refl _) (hi.gone h) (fun _ => id)
      (fun _ => rfl) (fun ho => Or.inl ho) (fun _ _ _ => rfl)
  | @finish i a o h =>
    exact hi.task h rfl rfl (Nat.le_refl _) (hi.gone h) (fun _ => id) id
      (fun ho => Or.inl ho) (by simp)

theorem inv_reachable {s : State E} (h : (system E life).Reachable s) : Inv life s :=
  h.invariant (fun _ => inv_init) (fun _ _ _ hi hstep => inv_step hi hstep)

namespace Action

def IsPanic : Action E → Bool
  | .panic _ => true
  | _ => false

def IsAccept : Action E → Bool
  | .accept => true
  | _ => false

end Action

lemma Step.panicked {s t : State E} {a : Action E} (h : Step life s a t) :
    t.tasks.countP Task.IsPanicked = s.tasks.countP Task.IsPanicked + a.IsPanic.toNat := by
  cases h with
  | spawn h => simp [Task.IsPanicked, Action.IsPanic]
  | serveReturns h | panic h | cut h ready | lower h | notify h | finish h =>
    exact countP_set (p := Task.IsPanicked) h _
  | _ => rfl

lemma panicked_run {s t : State E} {as : List (Action E)} (h : (system E life).Run s as t) :
    t.tasks.countP Task.IsPanicked = s.tasks.countP Task.IsPanicked + as.countP Action.IsPanic := by
  induction h with
  | nil => simp
  | @snoc t u as a _ hstep ih =>
    rw [Step.panicked hstep, ih, List.countP_append, List.countP_singleton]
    cases a.IsPanic <;> simp [Nat.add_assoc]

namespace State

/-- The loop has polled its `select!`. -/
def Waiting (s : State E) : Prop :=
  ∃ idle, s.loop = .selecting idle ∧ idle ≠ .unpolled

def Armed (s : State E) : Prop :=
  ∃ deadline, s.loop = .selecting (.armed deadline)

end State

/-- Once every task has ended, the counter is what the panics of the run have left on it. -/
lemma open_eq_panics {s₀ s : State E} {as : List (Action E)} (h₀ : Init s₀)
    (hrun : (system E life).Run s₀ as s) (hwaiting : s.Waiting) (hended : s.AllEnded) :
    s.openCount = as.countP Action.IsPanic := by
  have hi : Inv life s := inv_reachable ⟨s₀, as, h₀, hrun⟩
  obtain ⟨idle, hloop, -⟩ := hwaiting
  have hpanicked : s.tasks.countP Task.IsCounted = s.tasks.countP Task.IsPanicked := by
    refine List.countP_congr fun task htask => ?_
    have htask := hended task htask
    cases task with
    | serving a => cases htask
    | gone a o rest => cases rest <;> simp_all [Task.IsCounted, Task.IsPanicked, Task.HasEnded]
  have hcounted := hi.counted
  have hpanics := panicked_run hrun
  simp only [hloop, Loop.raised, h₀.2.2.2.2, List.countP_nil] at hcounted hpanics
  omega

/-- The counter is never below the connections still served. Where the loop waits, every task has
ended and no permit is stored, it is zero with the idle timer armed exactly when no connection
task of the run has panicked. -/
theorem open_iff_no_panic {s₀ s : State E} {as : List (Action E)} (h₀ : Init s₀)
    (hrun : (system E life).Run s₀ as s) :
    s.Serving ≤ s.openCount ∧ (s.Waiting → s.AllEnded → s.permit = false →
      ((s.openCount = 0 ∧ (life.idleTimeout ≠ 0 → s.Armed)) ↔ ∀ i, .panic i ∉ as)) := by
  have hi : Inv life s := inv_reachable ⟨s₀, as, h₀, hrun⟩
  constructor
  · have hcounted := hi.counted
    have hle : s.tasks.countP Task.IsServing ≤ s.tasks.countP Task.IsCounted := by
      refine List.countP_mono_left fun task _ h => ?_
      cases task with
      | serving a => rfl
      | gone a o rest => cases h
    unfold State.Serving
    omega
  · intro hwaiting hended hpermit
    have hopen := open_eq_panics h₀ hrun hwaiting hended
    have hzero : s.openCount = 0 ↔ ∀ i, .panic i ∉ as := by
      rw [hopen, List.countP_eq_zero]
      constructor
      · intro h i hmem
        exact h _ hmem rfl
      · intro h a hmem hpanic
        cases a <;> simp_all [Action.IsPanic]
    refine ⟨fun h => hzero.mp h.1, fun h => ⟨hzero.mpr h, fun hne => ?_⟩⟩
    obtain ⟨idle, hloop, hpolled⟩ := hwaiting
    cases idle with
    | unpolled => exact absurd rfl hpolled
    | armed d => exact ⟨d, hloop⟩
    | pending =>
      exfalso
      rcases hi.pending hloop hne with hopen | hp | ⟨a, o, hlowered⟩
      · exact hopen (hzero.mpr h)
      · simp [hpermit] at hp
      · simpa [Task.HasEnded] using hended _ hlowered

def tenMinutes : Lifecycle := ⟨600000, 5000⟩

def starting : State ℕ := ⟨.installing, 0, false, false, [], fun _ => false, 0⟩

lemma starting_init : Init starting :=
  ⟨rfl, rfl, rfl, rfl, rfl⟩

lemma starting_accepts : (system ℕ tenMinutes).Run starting [.install, .accept, .count, .spawn]
    ⟨.selecting .unpolled, 1, false, false, [.serving 0], fun _ => false, 0⟩ := by
  have h0 : (system ℕ tenMinutes).Run starting [] starting := .nil starting
  have h1 := h0.next .install (.install rfl)
  have h2 := h1.next .accept (.accept rfl)
  have h3 := h2.next .count (.count rfl)
  exact h3.next .spawn (.spawn rfl)

/-- The handler of the only connection panics: nothing lowers the counter and the idle timer is
never armed again. -/
theorem panic_leaks_open : ∃ s : State ℕ, (system ℕ tenMinutes).Reachable s ∧ s.Waiting ∧
    s.AllEnded ∧ s.permit = false ∧ s.openCount = 1 ∧ ¬s.Armed := by
  have h1 := starting_accepts.next (.panic 0) (.panic rfl)
  have h2 := h1.next .pollIdle (.pollIdle rfl)
  refine ⟨_, ⟨starting, _, starting_init, h2⟩, ⟨.pending, rfl, by decide⟩, ?_, rfl, rfl, ?_⟩
  · intro task htask
    obtain rfl : task = .gone 0 0 .panicked := by simpa [State.setTask, State.setLoop] using htask
    rfl
  · rintro ⟨d, hd⟩
    cases hd

/-- A connection that the server answers leaves the counter at zero and the timer armed. -/
theorem open_iff_no_panic_served : ∃ s : State ℕ, ∃ as, (system ℕ tenMinutes).Run starting as s ∧
    s.Serving ≤ s.openCount ∧ s.openCount = 0 ∧ s.Armed := by
  have h1 := starting_accepts.next (.serveReturns 0) (.serveReturns rfl)
  have h2 := h1.next (.lower 0) (.lower rfl)
  have h3 := h2.next (.notify 0) (.notify rfl)
  have h4 := h3.next (.finish 0) (.finish rfl)
  have h5 := h4.next .closed (.closed rfl rfl)
  have h6 := h5.next .pollIdle (.pollIdle rfl)
  have hclaim := open_iff_no_panic starting_init h6
  refine ⟨_, _, h6, hclaim.1, ?_⟩
  have hopen := (hclaim.2 ⟨_, rfl, by decide⟩ ?_ rfl).mpr (by simp)
  · exact ⟨hopen.1, hopen.2 (by decide)⟩
  · intro task htask
    obtain rfl : task = .gone 0 0 .ended := by simpa [State.setTask, State.setLoop] using htask
    rfl

/-- Every accepted connection has its task, or is in the loop's hands on the way to one. -/
lemma accepted_run {s t : State E} {as : List (Action E)} (h : (system E life).Run s as t) :
    s.tasks.length + s.loop.inHand + as.countP Action.IsAccept = t.tasks.length + t.loop.inHand := by
  induction h with
  | nil => rfl
  | @snoc t u as a _ hstep ih =>
    have hone : t.tasks.length + t.loop.inHand + a.IsAccept.toNat = u.tasks.length + u.loop.inHand := by
      cases hstep with
      | pollIdle h | accept h | acceptAborted h | closed h ready | idle h ready | signalled h ready
      | count h | spawn h | dropListener h | closeTracker h | startTimeout h | drainTimeout h ready =>
        simp [h, State.setLoop, State.leave, Loop.inHand, Action.IsAccept]
      | installFails error h | acceptFails error h | install h =>
        simp [h, State.setLoop, State.leave, Loop.inHand, Action.IsAccept]
      | drained h ready =>
        rcases h with ⟨d, h⟩ | h <;> simp [h, State.setLoop, Loop.inHand, Action.IsAccept]
      | tick n | raise signal => rfl
      | serveReturns h | panic h | cut h ready | lower h | notify h | finish h =>
        simp [State.setTask, Action.IsAccept]
    rw [List.countP_append, List.countP_singleton]
    cases ha : a.IsAccept <;> simp only [ha, Bool.toNat_false, Bool.toNat_true] at hone <;> simp <;> omega

/-- A loop that has ended neither accepts nor starts again. -/
lemma Step.left {s t : State E} {a : Action E} (h : Step life s a t) (hleft : s.loop.exit ≠ none) :
    a ≠ .accept ∧ t.loop.exit ≠ none := by
  cases h with
  | drained h ready =>
    exact ⟨by simp, by simp [State.setLoop, Loop.exit]⟩
  | accept h | acceptAborted h | closed h ready | pollIdle h | installFails error h | install h
  | count h | spawn h => simp [h, Loop.exit] at hleft
  | acceptFails error h | idle h ready | signalled h ready | dropListener h | closeTracker h
  | startTimeout h | drainTimeout h ready =>
    exact ⟨by simp, by simp [State.setLoop, State.leave, Loop.exit]⟩
  | tick n | raise signal | serveReturns h | panic h | cut h ready | lower h | notify h | finish h =>
    exact ⟨by simp, hleft⟩

lemma left_run {s t : State E} {as : List (Action E)} (h : (system E life).Run s as t)
    (hleft : s.loop.exit ≠ none) : .accept ∉ as ∧ t.loop.exit ≠ none := by
  induction h with
  | nil => exact ⟨by simp, hleft⟩
  | snoc _ hstep ih =>
    obtain ⟨hnone, hstill⟩ := ih
    obtain ⟨hne, hlast⟩ := Step.left hstep hstill
    refine ⟨fun hmem => ?_, hlast⟩
    rcases List.mem_append.mp hmem with hmem | hmem
    · exact hnone hmem
    · exact hne (List.mem_singleton.mp hmem).symm

/-- In every run: the idle branch ends the loop only when every connection accepted so far was over
for the whole idle timeout; every accepted connection has its task; an ended loop accepts none; no
connection is cut before the drain timeout has passed since the loop ended; and the function
returns only with every task ended. -/
theorem exit_safe {s₀ s : State E} {as : List (Action E)} (h₀ : Init s₀)
    (hrun : (system E life).Run s₀ as s) :
    (∀ t, Step life s .idle t →
      ∃ since, since + life.idleTimeout ≤ s.clock ∧ ∀ task ∈ s.tasks, task.OverBy since) ∧
    as.countP Action.IsAccept = s.tasks.length + s.loop.inHand ∧
    (∀ bs t, s.loop.exit ≠ none → (system E life).Run s bs t → .accept ∉ bs) ∧
    (∀ i t, Step life s (.cut i) t →
      ∃ exit, s.loop.exit = some exit ∧ exit.since + life.drainTimeout ≤ s.clock) ∧
    ∀ exit, s.loop = .returned exit → s.AllEnded := by
  have hi : Inv life s := inv_reachable ⟨s₀, as, h₀, hrun⟩
  refine ⟨?_, ?_, ?_, ?_, hi.returned⟩
  · intro t h
    cases h with
    | @idle d h ready =>
      obtain ⟨-, since, rfl, hall⟩ := hi.armed d h
      exact ⟨since, ready, hall⟩
  · have haccepted := accepted_run hrun
    simpa [h₀.1, h₀.2.2.2.2, Loop.inHand] using haccepted
  · intro bs t hleft hbs
    exact (left_run hbs hleft).1
  · intro i t h
    cases h with
    | cut h ready =>
      obtain ⟨exit, hloop, hle⟩ := hi.cut ready
      refine ⟨exit, ?_, hle⟩
      rcases hloop with hloop | hloop <;> simp [hloop, Loop.exit]

/-- A terminated server cuts the connection it still serves only after the drain timeout. -/
theorem exit_safe_terminated : ∃ s t : State ℕ, ∃ as, (system ℕ tenMinutes).Run starting as s ∧
    Step tenMinutes s (.cut 0) t ∧ ∃ exit, s.loop.exit = some exit ∧ exit.since + 5000 ≤ s.clock := by
  have h1 := starting_accepts.next (.raise .terminate) (.raise .terminate)
  have h2 := h1.next (.signalled .terminate) (.signalled rfl rfl)
  have h3 := h2.next .dropListener (.dropListener rfl)
  have h4 := h3.next .closeTracker (.closeTracker rfl)
  have h5 := h4.next .startTimeout (.startTimeout rfl)
  have h6 := h5.next (.tick 5000) (.tick 5000)
  have h7 := h6.next .drainTimeout (.drainTimeout rfl (by decide))
  refine ⟨_, _, _, h7, .cut rfl rfl, ?_⟩
  exact (exit_safe starting_init h7).2.2.2.1 0 _ (.cut rfl rfl)

end

end Unixd.Serve
