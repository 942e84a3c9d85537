import Mathlib.Logic.Function.Basic
import Mathlib.Tactic.Common
import Unixd.Lib.System

/-!
# Single flight

`SingleFlight.run` joins the flight of its key or starts one, under a map that is locked
only to look up, start and insert. The work runs in its own task, whose `Landed` guard
removes the key when the task ends, however it ends; the outcome reaches the callers
later. The steps below are the points at which callers, tasks and the runtime interleave.
-/

namespace Unixd.SingleFlight
set_option linter.unusedSectionVars false

open Unixd.Lib

/-- Why a shared run failed. -/
inductive FlightError (E : Type) where
  | failed (error : E)
  | panicked

/-- How the task of a flight ended. -/
inductive Ended (T E : Type) where
  | value (value : T)
  | error (error : E)
  | panicked
  | cancelled

/-- The result that the flight shares with its callers. -/
def Ended.outcome {T E : Type} : Ended T E → Except (FlightError E) T
  | .value v => .ok v
  | .error e => .error (.failed e)
  | .panicked | .cancelled => .error .panicked

/-- How far a flight is. Its `Landed` guard moves with the work into the task that the first
poll spawns; the guard's drop is what makes an ended flight landed. -/
inductive Stage (T E : Type) where
  | started
  | running
  | ended (how : Ended T E)
  | landed (how : Ended T E)
  | resolved (how : Ended T E)

namespace Stage

variable {T E : Type}

/-- The `Landed` guard of the flight is not yet dropped. -/
def Guarded : Stage T E → Prop
  | .started | .running | .ended _ => True
  | .landed _ | .resolved _ => False

def Unfinished : Stage T E → Prop
  | .started | .running => True
  | _ => False

lemma Unfinished.guarded {stage : Stage T E} (h : stage.Unfinished) : stage.Guarded := by
  cases stage <;> trivial

end Stage

structure Flight (K T E : Type) where
  key : K
  stage : Stage T E

/-- Where a call of `run` is. Flights are named by numbers, in the order they start. -/
inductive Caller (K T E : Type) where
  | idle
  | entering (key : K)
  | inside
  | waiting (flight : ℕ)
  | returned (flight : ℕ) (outcome : Except (FlightError E) T)
  | gone

/-- Who holds the lock of the map, and how far it is. -/
inductive Section (C K : Type) where
  | looking (c : C) (key : K)
  | building (c : C) (key : K)
  | started (c : C) (key : K) (flight : ℕ)
  | joined (c : C) (flight : ℕ)
  | landing (flight : ℕ)
  | removed (flight : ℕ)

structure State (C K T E : Type) where
  flights : K → Option ℕ
  flight : ℕ → Option (Flight K T E)
  next : ℕ
  callers : C → Caller K T E
  holder : Option (Section C K)

inductive Action (C K T E : Type) where
  | call (c : C) (key : K)
  | lock (c : C)
  | join (c : C)
  | miss (c : C)
  | workPanics (c : C)
  | start (c : C)
  | insert (c : C)
  | unlock (c : C)
  | spawn (c : C)
  | finish (flight : ℕ) (how : Ended T E)
  | landLock (flight : ℕ)
  | landRemove (flight : ℕ)
  | landUnlock (flight : ℕ)
  | resolve (c : C)
  | ret (c : C)
  | drop (c : C)

section

variable {C K T E : Type} [DecidableEq C] [DecidableEq K]

namespace State

def setCaller (s : State C K T E) (c : C) (caller : Caller K T E) : State C K T E :=
  { s with callers := Function.update s.callers c caller }

def setFlight (s : State C K T E) (f : ℕ) (flight : Flight K T E) : State C K T E :=
  { s with flight := Function.update s.flight f (some flight) }

def setMap (s : State C K T E) (key : K) (flight : Option ℕ) : State C K T E :=
  { s with flights := Function.update s.flights key flight }

def setHolder (s : State C K T E) (holder : Option (Section C K)) : State C K T E :=
  { s with holder := holder }

lemma callers_setCaller {s : State C K T E} {c c' : C} {caller caller' : Caller K T E}
    (h : (s.setCaller c caller).callers c' = caller') : caller = caller' ∨ s.callers c' = caller' := by
  by_cases hc : c' = c
  · subst hc
    exact Or.inl (by simpa [setCaller] using h)
  · exact Or.inr (by simpa [setCaller, hc] using h)

end State

/-- One step of a caller, of a task or of the runtime. `work` runs with the map locked and may
panic there, which releases the lock. A caller can be dropped wherever it waits. -/
inductive Step : State C K T E → Action C K T E → State C K T E → Prop where
  | call {s c key} (h : s.callers c = .idle) : Step s (.call c key) (s.setCaller c (.entering key))
  | lock {s c key} (h : s.callers c = .entering key) (free : s.holder = none) :
      Step s (.lock c) ((s.setCaller c .inside).setHolder (some (.looking c key)))
  | join {s c key f} (h : s.holder = some (.looking c key)) (found : s.flights key = some f) :
      Step s (.join c) (s.setHolder (some (.joined c f)))
  | miss {s c key} (h : s.holder = some (.looking c key)) (found : s.flights key = none) :
      Step s (.miss c) (s.setHolder (some (.building c key)))
  | workPanics {s c key} (h : s.holder = some (.building c key)) :
      Step s (.workPanics c) ((s.setCaller c .gone).setHolder none)
  | start {s c key} (h : s.holder = some (.building c key)) :
      Step s (.start c)
        { (s.setFlight s.next ⟨key, .started⟩).setHolder (some (.started c key s.next)) with
          next := s.next + 1 }
  | insert {s c key f} (h : s.holder = some (.started c key f)) :
      Step s (.insert c) ((s.setMap key (some f)).setHolder (some (.joined c f)))
  | unlock {s c f} (h : s.holder = some (.joined c f)) :
      Step s (.unlock c) ((s.setCaller c (.waiting f)).setHolder none)
  | spawn {s c f key} (h : s.callers c = .waiting f) (hf : s.flight f = some ⟨key, .started⟩) :
      Step s (.spawn c) (s.setFlight f ⟨key, .running⟩)
  | finish {s f key how} (hf : s.flight f = some ⟨key, .running⟩) :
      Step s (.finish f how) (s.setFlight f ⟨key, .ended how⟩)
  | landLock {s f key how} (hf : s.flight f = some ⟨key, .ended how⟩) (free : s.holder = none) :
      Step s (.landLock f) (s.setHolder (some (.landing f)))
  | landRemove {s f key how} (h : s.holder = some (.landing f))
      (hf : s.flight f = some ⟨key, .ended how⟩) :
      Step s (.landRemove f)
        (((s.setFlight f ⟨key, .landed how⟩).setMap key none).setHolder (some (.removed f)))
  | landUnlock {s f} (h : s.holder = some (.removed f)) : Step s (.landUnlock f) (s.setHolder none)
  | resolve {s c f key how} (h : s.callers c = .waiting f) (hf : s.flight f = some ⟨key, .landed how⟩)
      (done : s.holder ≠ some (.removed f)) :
      Step s (.resolve c) (s.setFlight f ⟨key, .resolved how⟩)
  | ret {s c f key how} (h : s.callers c = .waiting f)
      (hf : s.flight f = some ⟨key, .resolved how⟩) :
      Step s (.ret c) (s.setCaller c (.returned f how.outcome))
  | drop {s c} (h : (∃ key, s.callers c = .entering key) ∨ ∃ f, s.callers c = .waiting f) :
      Step s (.drop c) (s.setCaller c .gone)

/-- An empty map and no calls yet. -/
def Init (s : State C K T E) : Prop :=
  (∀ key, s.flights key = none) ∧ (∀ f, s.flight f = none) ∧ (∀ c, s.callers c = .idle) ∧
    s.holder = none

def system (C K T E : Type) [DecidableEq C] [DecidableEq K] : System (State C K T E) (Action C K T E) where
  init := Init
  step := Step

/-- What holds between the map, the flights, the callers and the holder of the lock. -/
structure Inv (s : State C K T E) : Prop where
  fresh : ∀ f, s.next ≤ f → s.flight f = none
  mapped : ∀ key f, s.flights key = some f →
    ∃ stage, s.flight f = some ⟨key, stage⟩ ∧ stage.Guarded
  guarded : ∀ f key stage, s.flight f = some ⟨key, stage⟩ → stage.Guarded →
    s.flights key = some f ∨ ∃ c, s.holder = some (.started c key f)
  newest : ∀ key f, (s.flights key = some f ∨ ∃ c, s.holder = some (.started c key f)) →
    ∀ f' stage, s.flight f' = some ⟨key, stage⟩ → f' ≤ f
  building : ∀ c key, s.holder = some (.building c key) → s.flights key = none
  started : ∀ c key f, s.holder = some (.started c key f) →
    s.flights key = none ∧ s.flight f = some ⟨key, .started⟩ ∧ ∀ c', s.callers c' ≠ .waiting f
  joined : ∀ c f, s.holder = some (.joined c f) → ∃ fl, s.flight f = some fl
  waiting : ∀ c f, s.callers c = .waiting f → ∃ fl, s.flight f = some fl
  returned : ∀ c f outcome, s.callers c = .returned f outcome →
    ∃ key how, s.flight f = some ⟨key, .resolved how⟩ ∧ outcome = how.outcome

theorem inv_init {s : State C K T E} (h : Init s) : Inv s := by
  obtain ⟨hmap, hflight, hcallers, hholder⟩ := h
  constructor <;> simp [hmap, hflight, hcallers, hholder]

/-- A step that leaves the map and the flights as they are. -/
lemma Inv.frame {s s' : State C K T E} (hi : Inv s) (hmap : s'.flights = s.flights)
    (hflight : s'.flight = s.flight) (hnext : s'.next = s.next)
    (hstarted : ∀ c key f, s'.holder = some (.started c key f) ↔ s.holder = some (.started c key f))
    (hbuilding : ∀ c key, s'.holder = some (.building c key) → s.flights key = none)
    (hjoined : ∀ c f, s'.holder = some (.joined c f) → ∃ fl, s.flight f = some fl)
    (hwaiting : ∀ c f, s'.callers c = .waiting f → (s.callers c = .waiting f) ∨ s.holder = some (.joined c f))
    (hreturned : ∀ c f outcome, s'.callers c = .returned f outcome →
      ∃ key how, s.flight f = some ⟨key, .resolved how⟩ ∧ outcome = how.outcome) : Inv s' := by
  refine ⟨?_, ?_, ?_, ?_, ?_, ?_, ?_, ?_, ?_⟩
  · rw [hflight, hnext]
    exact hi.fresh
  · rw [hmap, hflight]
    exact hi.mapped
  · intro f key stage
    rw [hmap, hflight]
    simp only [hstarted]
    exact hi.guarded f key stage
  · intro key f
    rw [hmap, hflight]
    simp only [hstarted]
    exact hi.newest key f
  · rwa [hmap]
  · intro c key f h
    rw [hstarted] at h
    obtain ⟨h1, h2, h3⟩ := hi.started c key f h
    refine ⟨by rwa [hmap], by rwa [hflight], fun c' hc' => ?_⟩
    rcases hwaiting c' f hc' with hw | hw
    · exact h3 c' hw
    · simp [hw] at h
  · rwa [hflight]
  · intro c f h
    rw [hflight]
    rcases hwaiting c f h with hw | hw
    · exact hi.waiting c f hw
    · exact hi.joined c f hw
  · rwa [hflight]

/-- A step that moves one flight on, with its guard kept or dropped as before. -/
lemma Inv.advance {s : State C K T E} (hi : Inv s) {f : ℕ} {key : K} {stage stage' : Stage T E}
    (hf : s.flight f = some ⟨key, stage⟩) (hguard : stage'.Guarded ↔ stage.Guarded)
    (hresolved : ∀ how, stage ≠ .resolved how) (hstarted : ∀ c key', s.holder ≠ some (.started c key' f)) :
    Inv (s.setFlight f ⟨key, stage'⟩) := by
  have hkey : ∀ {key' f' st'}, (s.setFlight f ⟨key, stage'⟩).flight f' = some ⟨key', st'⟩ →
      ∃ st, s.flight f' = some ⟨key', st⟩ ∧ (st'.Guarded ↔ st.Guarded) := by
    intro key' f' st' h
    by_cases hff : f' = f
    · subst hff
      obtain ⟨rfl, rfl⟩ : key = key' ∧ stage' = st' := by simpa [State.setFlight] using h
      exact ⟨stage, hf, hguard⟩
    · exact ⟨st', by simpa [State.setFlight, hff] using h, Iff.rfl⟩
  have hother : ∀ {f'}, f' ≠ f → (s.setFlight f ⟨key, stage'⟩).flight f' = s.flight f' := by
    intro f' hff
    simp [State.setFlight, hff]
  have hsome : ∀ {f' fl}, s.flight f' = some fl →
      ∃ fl, (s.setFlight f ⟨key, stage'⟩).flight f' = some fl := by
    intro f' fl h
    by_cases hff : f' = f
    · exact ⟨_, by simp [State.setFlight, hff]; rfl⟩
    · exact ⟨fl, by rwa [hother hff]⟩
  refine ⟨?_, ?_, ?_, ?_, hi.building, ?_, ?_, ?_, ?_⟩
  · intro f' hle
    have hnone := hi.fresh f' hle
    rw [hother (by rintro rfl; simp [hf] at hnone), hnone]
  · intro key' f' h
    obtain ⟨st, hst, hg⟩ := hi.mapped key' f' h
    by_cases hff : f' = f
    · subst hff
      obtain ⟨rfl, rfl⟩ : key = key' ∧ stage = st := by simpa [hf] using hst
      exact ⟨stage', by simp [State.setFlight], hguard.mpr hg⟩
    · exact ⟨st, by rwa [hother hff], hg⟩
  · intro f' key' st' h hg
    obtain ⟨st, hst, hiff⟩ := hkey h
    exact hi.guarded f' key' st hst (hiff.mp hg)
  · intro key' f' h f'' st' h''
    obtain ⟨st, hst, -⟩ := hkey h''
    exact hi.newest key' f' h f'' st hst
  · intro c key' f' h
    have hff : f' ≠ f := by
      rintro rfl
      exact hstarted c key' h
    rw [hother hff]
    exact hi.started c key' f' h
  · intro c f' h
    obtain ⟨fl, hfl⟩ := hi.joined c f' h
    exact hsome hfl
  · intro c f' h
    obtain ⟨fl, hfl⟩ := hi.waiting c f' h
    exact hsome hfl
  · intro c f' outcome h
    obtain ⟨key', how, hfl, ho⟩ := hi.returned c f' outcome h
    have hff : f' ≠ f := by
      rintro rfl
      rw [hf] at hfl
      simp only [Option.some.injEq, Flight.mk.injEq] at hfl
      exact hresolved how hfl.2
    exact ⟨key', how, by rwa [hother hff], ho⟩

/-- A step that moves one caller, and leaves the lock with nobody or at a look-up. -/
lemma Inv.move {s : State C K T E} (hi : Inv s) (c : C) (caller : Caller K T E)
    (holder : Option (Section C K))
    (hstarted : ∀ c key f, holder = some (.started c key f) ↔ s.holder = some (.started c key f))
    (hbuilding : ∀ c key, holder = some (.building c key) → s.flights key = none)
    (hjoined : ∀ c f, holder = some (.joined c f) → ∃ fl, s.flight f = some fl)
    (hwaiting : ∀ f, caller = .waiting f → s.holder = some (.joined c f))
    (hreturned : ∀ f outcome, caller = .returned f outcome →
      ∃ key how, s.flight f = some ⟨key, .resolved how⟩ ∧ outcome = how.outcome) :
    Inv ((s.setCaller c caller).setHolder holder) := by
  refine hi.frame rfl rfl rfl hstarted hbuilding hjoined (fun c' f h => ?_) (fun c' f outcome h => ?_)
  · by_cases hc : c' = c
    · subst hc
      exact Or.inr (hwaiting f (by simpa [State.setCaller, State.setHolder] using h))
    · exact Or.inl (by simpa [State.setCaller, State.setHolder, hc] using h)
  · rcases State.callers_setCaller h with h | h
    · exact hreturned f outcome h
    · exact hi.returned c' f outcome h

lemma Inv.start {s : State C K T E} (hi : Inv s) {c : C} {key : K} (h : s.holder = some (.building c key)) :
    Inv { (s.setFlight s.next ⟨key, .started⟩).setHolder (some (.started c key s.next)) with
      next := s.next + 1 } := by
  have hnew : s.flight s.next = none := hi.fresh s.next (Nat.le_refl _)
  have hold : ∀ {f fl}, s.flight f = some fl →
      Function.update s.flight s.next (some ⟨key, .started⟩) f = some fl := by
    intro f fl hf
    rw [Function.update_of_ne (by rintro rfl; simp [hnew] at hf), hf]
  have hlt : ∀ {f fl}, s.flight f = some fl → f < s.next := by
    intro f fl hf
    by_contra hle
    simp [hi.fresh f (by omega)] at hf
  have hinv : ∀ {f key' st}, Function.update s.flight s.next (some ⟨key, .started⟩) f = some ⟨key', st⟩ →
      (f = s.next ∧ key = key') ∨ s.flight f = some ⟨key', st⟩ := by
    intro f key' st hf
    by_cases hff : f = s.next
    · subst hff
      rw [Function.update_self, Option.some_inj, Flight.mk.injEq] at hf
      exact Or.inl ⟨rfl, hf.1⟩
    · exact Or.inr (by rwa [Function.update_of_ne hff] at hf)
  refine ⟨?_, ?_, ?_, ?_, ?_, ?_, ?_, ?_, ?_⟩
  · intro f hle
    change s.next + 1 ≤ f at hle
    change Function.update s.flight s.next _ f = none
    rw [Function.update_of_ne (by omega), hi.fresh f (by omega)]
  · intro key' f hf
    obtain ⟨st, hst, hg⟩ := hi.mapped key' f hf
    exact ⟨st, hold hst, hg⟩
  · intro f key' st hf hg
    rcases hinv hf with ⟨rfl, rfl⟩ | hf
    · exact Or.inr ⟨c, rfl⟩
    · rcases hi.guarded f key' st hf hg with hm | ⟨c', hc'⟩
      · exact Or.inl hm
      · simp [h] at hc'
  · rintro key' f hf f' st' hf'
    rcases hinv hf' with ⟨rfl, rfl⟩ | hf'
    · rcases hf with hm | ⟨c', hc'⟩
      · exact absurd hm (by simp [State.setFlight, State.setHolder, hi.building c key h])
      · simp only [State.setHolder, Option.some.injEq, Section.started.injEq] at hc'
        exact Nat.le_of_eq hc'.2.2
    · rcases hf with hm | ⟨c', hc'⟩
      · exact hi.newest key' f (Or.inl hm) f' st' hf'
      · simp only [State.setHolder, Option.some.injEq, Section.started.injEq] at hc'
        rw [← hc'.2.2]
        exact Nat.le_of_lt (hlt hf')
  · simp [State.setHolder]
  · intro c' key' f hf
    simp only [State.setHolder, Option.some.injEq, Section.started.injEq] at hf
    obtain ⟨rfl, rfl, rfl⟩ := hf
    refine ⟨hi.building c key h, by simp [State.setFlight, State.setHolder], fun c' hc' => ?_⟩
    obtain ⟨fl, hfl⟩ := hi.waiting c' _ hc'
    simp [hnew] at hfl
  · simp [State.setHolder]
  · intro c' f hf
    obtain ⟨fl, hfl⟩ := hi.waiting c' f hf
    exact ⟨fl, hold hfl⟩
  · intro c' f outcome hf
    obtain ⟨key', how, hfl, ho⟩ := hi.returned c' f outcome hf
    exact ⟨key', how, hold hfl, ho⟩

lemma Inv.insert {s : State C K T E} (hi : Inv s) {c : C} {key : K} {f : ℕ}
    (h : s.holder = some (.started c key f)) :
    Inv ((s.setMap key (some f)).setHolder (some (.joined c f))) := by
  obtain ⟨hnone, hf, hwaiting⟩ := hi.started c key f h
  have hmap : ∀ {key' f'}, Function.update s.flights key (some f) key' = some f' →
      (key' = key ∧ f' = f) ∨ s.flights key' = some f' := by
    intro key' f' hm
    by_cases hk : key' = key
    · subst hk
      rw [Function.update_self, Option.some_inj] at hm
      exact Or.inl ⟨rfl, hm.symm⟩
    · exact Or.inr (by rwa [Function.update_of_ne hk] at hm)
  refine ⟨hi.fresh, ?_, ?_, ?_, ?_, ?_, ?_, hi.waiting, hi.returned⟩
  · intro key' f' hm
    rcases hmap hm with ⟨rfl, rfl⟩ | hm
    · exact ⟨.started, hf, trivial⟩
    · exact hi.mapped key' f' hm
  · intro f' key' st hf' hg
    left
    change Function.update s.flights key (some f) key' = some f'
    rcases hi.guarded f' key' st hf' hg with hm | ⟨c', hc'⟩
    · by_cases hk : key' = key
      · simp [hk, hnone] at hm
      · rwa [Function.update_of_ne hk]
    · rw [h, Option.some_inj, Section.started.injEq] at hc'
      obtain ⟨-, rfl, rfl⟩ := hc'
      rw [Function.update_self]
  · rintro key' f' (hm | ⟨c', hc'⟩)
    · rcases hmap hm with ⟨rfl, rfl⟩ | hm
      · exact hi.newest key' f' (Or.inr ⟨c, h⟩)
      · exact hi.newest key' f' (Or.inl hm)
    · simp [State.setHolder] at hc'
  · simp [State.setHolder]
  · simp [State.setHolder]
  · intro c' f' hj
    simp only [State.setHolder, Option.some.injEq, Section.joined.injEq] at hj
    exact ⟨_, hj.2 ▸ hf⟩

/-- The unconditional removal in the guard's drop finds the guard's own flight in the map. -/
lemma Inv.own {s : State C K T E} (hi : Inv s) {f : ℕ} {key : K} {how : Ended T E}
    (h : s.holder = some (.landing f)) (hf : s.flight f = some ⟨key, .ended how⟩) :
    s.flights key = some f := by
  rcases hi.guarded f key _ hf trivial with hm | ⟨c, hc⟩
  · exact hm
  · simp [h] at hc

lemma Inv.remove {s : State C K T E} (hi : Inv s) {f : ℕ} {key : K} {how : Ended T E}
    (h : s.holder = some (.landing f)) (hf : s.flight f = some ⟨key, .ended how⟩) :
    Inv (((s.setFlight f ⟨key, .landed how⟩).setMap key none).setHolder (some (.removed f))) := by
  have hown := hi.own h hf
  have hother : ∀ {f' key' st}, Function.update s.flight f (some ⟨key, .landed how⟩) f' = some ⟨key', st⟩ →
      (f' = f ∧ key' = key ∧ ¬st.Guarded) ∨ (f' ≠ f ∧ s.flight f' = some ⟨key', st⟩) := by
    intro f' key' st hf'
    by_cases hff : f' = f
    · subst hff
      rw [Function.update_self, Option.some_inj, Flight.mk.injEq] at hf'
      exact Or.inl ⟨rfl, hf'.1.symm, by rw [← hf'.2]; exact id⟩
    · exact Or.inr ⟨hff, by rwa [Function.update_of_ne hff] at hf'⟩
  have hsome : ∀ {f' fl}, s.flight f' = some fl →
      ∃ fl, Function.update s.flight f (some ⟨key, .landed how⟩) f' = some fl := by
    intro f' fl h'
    by_cases hff : f' = f
    · exact ⟨⟨key, .landed how⟩, by rw [hff, Function.update_self]⟩
    · exact ⟨fl, by rwa [Function.update_of_ne hff]⟩
  refine ⟨?_, ?_, ?_, ?_, ?_, ?_, ?_, ?_, ?_⟩
  · intro f' hle
    have hnone := hi.fresh f' hle
    change Function.update s.flight f _ f' = none
    rw [Function.update_of_ne (by rintro rfl; simp [hf] at hnone), hnone]
  · intro key' f' hm
    change Function.update s.flights key none key' = some f' at hm
    by_cases hk : key' = key
    · rw [hk, Function.update_self] at hm
      cases hm
    · rw [Function.update_of_ne hk] at hm
      obtain ⟨st, hst, hg⟩ := hi.mapped key' f' hm
      have hff : f' ≠ f := by
        rintro rfl
        simp [hf, Ne.symm hk] at hst
      exact ⟨st, by simpa [State.setFlight, State.setMap, State.setHolder, hff] using hst, hg⟩
  · intro f' key' st hf' hg
    rcases hother hf' with ⟨-, -, hng⟩ | ⟨hff, hf'⟩
    · exact absurd hg hng
    · left
      rcases hi.guarded f' key' st hf' hg with hm | ⟨c, hc⟩
      · have hk : key' ≠ key := by
          rintro rfl
          rw [hown, Option.some_inj] at hm
          exact hff hm.symm
        simpa [State.setMap, State.setHolder, State.setFlight, hk] using hm
      · simp [h] at hc
  · rintro key' f' (hm | ⟨c, hc⟩) f'' st hf''
    · change Function.update s.flights key none key' = some f' at hm
      by_cases hk : key' = key
      · rw [hk, Function.update_self] at hm
        cases hm
      · rw [Function.update_of_ne hk] at hm
        rcases hother hf'' with ⟨-, hk', -⟩ | ⟨-, hf''⟩
        · exact absurd hk' hk
        · exact hi.newest key' f' (Or.inl hm) f'' st hf''
    · simp [State.setHolder] at hc
  · simp [State.setHolder]
  · simp [State.setHolder]
  · simp [State.setHolder]
  · intro c f' hw
    obtain ⟨fl, hfl⟩ := hi.waiting c f' hw
    exact hsome hfl
  · intro c f' outcome hr
    obtain ⟨key', how', hfl, ho⟩ := hi.returned c f' outcome hr
    have hff : f' ≠ f := by
      rintro rfl
      simp [hf] at hfl
    exact ⟨key', how', by simpa [State.setFlight, State.setMap, State.setHolder, hff] using hfl, ho⟩

theorem inv_step {s s' : State C K T E} {a : Action C K T E} (hi : Inv s) (h : Step s a s') :
    Inv s' := by
  cases h with
  | call h => exact hi.move _ _ s.holder (fun _ _ _ => Iff.rfl) hi.building hi.joined (by simp) (by simp)
  | lock h free => exact hi.move _ _ _ (by simp [free]) (by simp) (by simp) (by simp) (by simp)
  | @join c key f h found =>
    obtain ⟨st, hst, -⟩ := hi.mapped key f found
    refine hi.frame rfl rfl rfl (by simp [State.setHolder, h]) (by simp [State.setHolder]) ?_
      (fun _ _ => Or.inl) hi.returned
    rintro c' f' ⟨⟩
    exact ⟨_, hst⟩
  | @miss c key h found =>
    refine hi.frame rfl rfl rfl (by simp [State.setHolder, h]) ?_ (by simp [State.setHolder])
      (fun _ _ => Or.inl) hi.returned
    rintro c' key' ⟨⟩
    exact found
  | workPanics h => exact hi.move _ _ _ (by simp [h]) (by simp) (by simp) (by simp) (by simp)
  | start h => exact hi.start h
  | insert h => exact hi.insert h
  | @unlock c f h =>
    refine hi.move c (.waiting f) none (by simp [h]) (by simp) (by simp) ?_ (by simp)
    rintro f' ⟨⟩
    exact h
  | @spawn c f key h hf =>
    refine hi.advance hf Iff.rfl (by simp) (fun c' key' hc' => ?_)
    exact (hi.started c' key' f hc').2.2 c h
  | @finish f key how hf =>
    refine hi.advance hf Iff.rfl (by simp) (fun c' key' hc' => ?_)
    simpa [hf] using (hi.started c' key' f hc').2.1
  | landLock hf free =>
    exact hi.frame rfl rfl rfl (by simp [State.setHolder, free]) (by simp [State.setHolder])
      (by simp [State.setHolder]) (fun _ _ => Or.inl) hi.returned
  | landRemove h hf => exact hi.remove h hf
  | landUnlock h =>
    exact hi.frame rfl rfl rfl (by simp [State.setHolder, h]) (by simp [State.setHolder])
      (by simp [State.setHolder]) (fun _ _ => Or.inl) hi.returned
  | @resolve c f key how h hf done =>
    refine hi.advance hf Iff.rfl (by simp) (fun c' key' hc' => ?_)
    simpa [hf] using (hi.started c' key' f hc').2.1
  | @ret c f key how h hf =>
    refine hi.move c _ s.holder (fun _ _ _ => Iff.rfl) hi.building hi.joined (by simp) ?_
    rintro f' outcome ⟨⟩
    exact ⟨key, how, hf, rfl⟩
  | drop h => exact hi.move _ _ s.holder (fun _ _ _ => Iff.rfl) hi.building hi.joined (by simp) (by simp)

theorem inv_reachable {s : State C K T E} (h : (system C K T E).Reachable s) : Inv s :=
  h.invariant (fun _ => inv_init) (fun _ _ _ => inv_step)

/-- A flight whose guard is not dropped yet is the only one of its key. -/
lemma Inv.guarded_unique {s : State C K T E} (hi : Inv s) {key : K} {f g : ℕ} {stage stage' : Stage T E}
    (hf : s.flight f = some ⟨key, stage⟩) (hg : s.flight g = some ⟨key, stage'⟩)
    (hstage : stage.Guarded) (hstage' : stage'.Guarded) : f = g := by
  have hle : ∀ {f g : ℕ} {stage stage' : Stage T E}, s.flight f = some ⟨key, stage⟩ →
      s.flight g = some ⟨key, stage'⟩ → stage.Guarded → g ≤ f := by
    intro f g stage stage' hf hg hstage
    exact hi.newest key f (hi.guarded f key stage hf hstage) g stage' hg
  exact Nat.le_antisymm (hle hg hf hstage') (hle hf hg hstage)

/-- The flight that the call of `c` has started or joined, and the one whose outcome it gives. -/
def Gets (s : State C K T E) (c : C) (f : ℕ) : Prop :=
  (∃ key, s.holder = some (.started c key f)) ∨ s.holder = some (.joined c f) ∨
    s.callers c = .waiting f ∨ ∃ outcome, s.callers c = .returned f outcome

/-- The call of `c` for `key` has locked the map and flight `f` of `landed` has landed. -/
structure Passed (c : C) (key : K) (f : ℕ) (landed : K) (s : State C K T E) : Prop where
  inv : Inv s
  flight : ∃ stage, s.flight f = some ⟨landed, stage⟩ ∧ ¬stage.Guarded
  locked : s.callers c ≠ .idle ∧ ∀ key', s.callers c ≠ .entering key'
  looking : ∀ key', s.holder = some (.looking c key') ∨ s.holder = some (.building c key') → key' = key
  gets : ∀ g, Gets s c g → g ≠ f ∧ (key = landed → f < g)

lemma Step.landed {s t : State C K T E} {a : Action C K T E} {f : ℕ} {key : K}
    (h : Step s a t) (hi : Inv s) (hf : ∃ stage, s.flight f = some ⟨key, stage⟩ ∧ ¬stage.Guarded) :
    ∃ stage, t.flight f = some ⟨key, stage⟩ ∧ ¬stage.Guarded := by
  obtain ⟨stage, hf, hstage⟩ := hf
  have hother : ∀ {g key' stage'}, s.flight g = some ⟨key', stage'⟩ → stage'.Guarded → f ≠ g := by
    rintro g key' stage' hg hstage' rfl
    rw [hf, Option.some_inj, Flight.mk.injEq] at hg
    exact hstage (hg.2 ▸ hstage')
  cases h with
  | start h =>
    have hne : f ≠ s.next := by
      rintro rfl
      simp [hi.fresh s.next (Nat.le_refl _)] at hf
    exact ⟨stage, by simpa [State.setFlight, State.setHolder, hne] using hf, hstage⟩
  | spawn h hg | finish hg =>
    exact ⟨stage, by simpa [State.setFlight, hother hg trivial] using hf, hstage⟩
  | landRemove h hg =>
    refine ⟨stage, ?_, hstage⟩
    simpa [State.setFlight, State.setMap, State.setHolder, hother hg trivial] using hf
  | @resolve c g key' how h hg done =>
    by_cases hfg : f = g
    · subst hfg
      rw [hf, Option.some_inj, Flight.mk.injEq] at hg
      exact ⟨.resolved how, by simp [State.setFlight, hg.1], id⟩
    · exact ⟨stage, by simpa [State.setFlight, hfg] using hf, hstage⟩
  | _ => exact ⟨stage, hf, hstage⟩

/-- A call gets a flight by finding it in the map or by starting it. -/
lemma Step.gets {s t : State C K T E} {a : Action C K T E} {c : C} {g : ℕ} (h : Step s a t)
    (hg : Gets t c g) : Gets s c g ∨ (∃ key, s.holder = some (.looking c key) ∧ s.flights key = some g) ∨
      ∃ key, s.holder = some (.building c key) ∧ g = s.next := by
  have hcaller : ∀ {d caller}, (∀ f, caller ≠ .waiting f) → (∀ f o, caller ≠ .returned f o) →
      ((s.setCaller d caller).callers c = .waiting g ∨
        ∃ o, (s.setCaller d caller).callers c = .returned g o) → Gets s c g := by
    rintro d caller hwaiting hreturned (h | ⟨o, h⟩)
    · rcases State.callers_setCaller h with h | h
      · exact absurd h (hwaiting g)
      · exact Or.inr (Or.inr (Or.inl h))
    · rcases State.callers_setCaller h with h | h
      · exact absurd h (hreturned g o)
      · exact Or.inr (Or.inr (Or.inr ⟨o, h⟩))
  cases h with
  | call h | drop h =>
    rcases hg with hg | hg | hg
    · exact Or.inl (Or.inl hg)
    · exact Or.inl (Or.inr (Or.inl hg))
    · exact Or.inl (hcaller (by simp) (by simp) hg)
  | lock h free | workPanics h =>
    rcases hg with ⟨_, hg⟩ | hg | hg
    · simp [State.setHolder] at hg
    · simp [State.setHolder] at hg
    · exact Or.inl (hcaller (by simp) (by simp) hg)
  | @join d key f h found =>
    rcases hg with ⟨_, hg⟩ | hg | hg
    · simp [State.setHolder] at hg
    · simp only [State.setHolder, Option.some.injEq, Section.joined.injEq] at hg
      obtain ⟨rfl, rfl⟩ := hg
      exact Or.inr (Or.inl ⟨key, h, found⟩)
    · exact Or.inl (Or.inr (Or.inr hg))
  | @start d key h =>
    rcases hg with ⟨_, hg⟩ | hg | hg
    · simp only [State.setHolder, Option.some.injEq, Section.started.injEq] at hg
      obtain ⟨rfl, -, rfl⟩ := hg
      exact Or.inr (Or.inr ⟨key, h, rfl⟩)
    · simp [State.setHolder] at hg
    · exact Or.inl (Or.inr (Or.inr hg))
  | @insert d key f h =>
    rcases hg with ⟨_, hg⟩ | hg | hg
    · simp [State.setHolder] at hg
    · simp only [State.setHolder, Option.some.injEq, Section.joined.injEq] at hg
      obtain ⟨rfl, rfl⟩ := hg
      exact Or.inl (Or.inl ⟨key, h⟩)
    · exact Or.inl (Or.inr (Or.inr hg))
  | @unlock d f h =>
    rcases hg with ⟨_, hg⟩ | hg | hg | ⟨o, hg⟩
    · simp [State.setHolder] at hg
    · simp [State.setHolder] at hg
    · by_cases hcd : c = d
      · subst hcd
        obtain rfl : f = g := by simpa [State.setCaller, State.setHolder] using hg
        exact Or.inl (Or.inr (Or.inl h))
      · exact Or.inl (Or.inr (Or.inr (Or.inl (by simpa [State.setCaller, State.setHolder, hcd] using hg))))
    · rcases State.callers_setCaller hg with hg | hg
      · cases hg
      · exact Or.inl (Or.inr (Or.inr (Or.inr ⟨o, hg⟩)))
  | @ret d f key how h hf =>
    rcases hg with hg | hg | hg | ⟨o, hg⟩
    · exact Or.inl (Or.inl hg)
    · exact Or.inl (Or.inr (Or.inl hg))
    · rcases State.callers_setCaller hg with hg | hg
      · cases hg
      · exact Or.inl (Or.inr (Or.inr (Or.inl hg)))
    · by_cases hcd : c = d
      · subst hcd
        have hfg : f = g := by
          simp only [State.setCaller, Function.update_self, Caller.returned.injEq] at hg
          exact hg.1
        exact Or.inl (Or.inr (Or.inr (Or.inl (hfg ▸ h))))
      · exact Or.inl (Or.inr (Or.inr (Or.inr ⟨o, by simpa [State.setCaller, hcd] using hg⟩)))
  | spawn | finish | resolve => exact Or.inl hg
  | miss h | landLock h | landRemove h | landUnlock h =>
    rcases hg with ⟨_, hg⟩ | hg | hg
    · simp [State.setHolder] at hg
    · simp [State.setHolder] at hg
    · exact Or.inl (Or.inr (Or.inr hg))

/-- The key a call looks up is the one it was called with. -/
lemma Step.looking {s t : State C K T E} {a : Action C K T E} {c : C} {key : K} (h : Step s a t)
    (hl : t.holder = some (.looking c key) ∨ t.holder = some (.building c key)) :
    (s.holder = some (.looking c key) ∨ s.holder = some (.building c key)) ∨
      s.callers c = .entering key := by
  cases h with
  | lock h free =>
    simp only [State.setHolder, Option.some.injEq, Section.looking.injEq, reduceCtorEq, or_false] at hl
    obtain ⟨rfl, rfl⟩ := hl
    exact Or.inr h
  | miss h found =>
    simp only [State.setHolder, Option.some.injEq, Section.building.injEq, reduceCtorEq, false_or] at hl
    obtain ⟨rfl, rfl⟩ := hl
    exact Or.inl (Or.inl h)
  | call | spawn | finish | resolve | ret | drop => exact Or.inl hl
  | _ => simp [State.setHolder] at hl

/-- A call that has locked the map never waits for it again. -/
lemma Step.locked {s t : State C K T E} {a : Action C K T E} {c : C} (h : Step s a t)
    (hc : s.callers c ≠ .idle ∧ ∀ key, s.callers c ≠ .entering key) :
    t.callers c ≠ .idle ∧ ∀ key, t.callers c ≠ .entering key := by
  have hset : ∀ {d caller}, (c = d → caller ≠ .idle ∧ ∀ key, caller ≠ .entering key) →
      (s.setCaller d caller).callers c ≠ .idle ∧ ∀ key, (s.setCaller d caller).callers c ≠ .entering key := by
    intro d caller hcaller
    by_cases hcd : c = d
    · subst hcd
      simpa [State.setCaller] using hcaller rfl
    · simpa [State.setCaller, hcd] using hc
  cases h with
  | call h => exact hset fun hcd => absurd (hcd ▸ h) hc.1
  | lock | workPanics | unlock | ret | drop => exact hset fun _ => by simp
  | _ => exact hc

theorem Passed.step {s t : State C K T E} {c : C} {key : K} {f : ℕ} {landed : K}
    (hp : Passed c key f landed s) {a : Action C K T E} (h : Step s a t) : Passed c key f landed t := by
  obtain ⟨stage, hf, hstage⟩ := hp.flight
  refine ⟨inv_step hp.inv h, h.landed hp.inv hp.flight, h.locked hp.locked, fun key' hl => ?_, fun g hg => ?_⟩
  · rcases h.looking hl with hl | he
    · exact hp.looking key' hl
    · exact absurd he (hp.locked.2 key')
  · rcases h.gets hg with hg | ⟨key', hl, hfound⟩ | ⟨key', -, rfl⟩
    · exact hp.gets g hg
    · obtain rfl := hp.looking key' (Or.inl hl)
      obtain ⟨stage', hg', hstage'⟩ := hp.inv.mapped key' g hfound
      have hne : g ≠ f := by
        rintro rfl
        rw [hf, Option.some_inj, Flight.mk.injEq] at hg'
        exact hstage (hg'.2 ▸ hstage')
      refine ⟨hne, ?_⟩
      rintro rfl
      have hle := hp.inv.newest key' g (Or.inl hfound) f stage hf
      omega
    · have hlt : f < s.next := by
        by_contra hle
        simp [hp.inv.fresh f (by omega)] at hf
      exact ⟨by omega, fun _ => hlt⟩

lemma Passed.of_lock {s t : State C K T E} {c : C} {key : K} {f : ℕ} {landed : K} (hi : Inv s)
    (hf : ∃ stage, s.flight f = some ⟨landed, stage⟩ ∧ ¬stage.Guarded) (hc : s.callers c = .entering key)
    (h : Step s (.lock c) t) : Passed c key f landed t := by
  cases h with
  | @lock _ key' h free =>
    obtain rfl : key' = key := by simpa [h] using hc
    have hstep : Step s (.lock c) _ := .lock h free
    refine ⟨inv_step hi hstep, hstep.landed hi hf, ?_, ?_, fun g hg => ?_⟩
    · simp [State.setCaller, State.setHolder]
    · intro key hl
      simpa [State.setHolder, eq_comm] using hl
    · exfalso
      rcases hstep.gets hg with hg | ⟨_, hl, -⟩ | ⟨_, hl, -⟩
      · simp [Gets, free, h] at hg
      · simp [free] at hl
      · simp [free] at hl

/-- In every reachable state: with the map unlocked, its keys are those of the flights whose guard
is not dropped; a key has at most one unfinished work; a guard's drop removes its own flight; a
flight gives all its callers one outcome; a call that locks the map after a flight has landed gets
another, and for the same key a newer one. -/
theorem single_flight {s : State C K T E} (hs : (system C K T E).Reachable s) :
    (s.holder = none → ∀ key f, s.flights key = some f ↔
      ∃ stage, s.flight f = some ⟨key, stage⟩ ∧ stage.Guarded) ∧
    (∀ key f g stage stage', s.flight f = some ⟨key, stage⟩ → s.flight g = some ⟨key, stage'⟩ →
      stage.Unfinished → stage'.Unfinished → f = g) ∧
    (∀ f t, Step s (.landRemove f) t → ∃ key, s.flights key = some f ∧
      t.flights = Function.update s.flights key none) ∧
    (∀ c f outcome, s.callers c = .returned f outcome →
      ∃ key how, s.flight f = some ⟨key, .resolved how⟩ ∧ outcome = how.outcome) ∧
    ∀ c key f landed stage t ls u g, s.flight f = some ⟨landed, stage⟩ → ¬stage.Guarded →
      s.callers c = .entering key → Step s (.lock c) t → (system C K T E).Run t ls u → Gets u c g →
      g ≠ f ∧ (key = landed → f < g) := by
  have hi := inv_reachable hs
  refine ⟨fun hfree key f => ⟨hi.mapped key f, ?_⟩, ?_, ?_, hi.returned, ?_⟩
  · rintro ⟨stage, hf, hstage⟩
    rcases hi.guarded f key stage hf hstage with hm | ⟨c, hc⟩
    · exact hm
    · simp [hfree] at hc
  · intro key f g stage stage' hf hg hstage hstage'
    exact hi.guarded_unique hf hg hstage.guarded hstage'.guarded
  · intro f t h
    cases h with
    | landRemove h hf => exact ⟨_, hi.own h hf, rfl⟩
  · intro c key f landed stage t ls u g hf hstage hc hlock hrun hg
    have hp : Passed c key f landed t := Passed.of_lock hi ⟨stage, hf, hstage⟩ hc hlock
    exact (hrun.invariant (fun _ _ _ hp h => hp.step h) hp).gets g hg

/-- The flight that caller 0 starts lands after that caller is dropped; caller 1 joined it before,
and caller 2 locks the map after. -/
theorem single_flight_dropped_leader : ∃ s : State ℕ ℕ ℕ ℕ, (system ℕ ℕ ℕ ℕ).Reachable s ∧
    s.flight 0 = some ⟨5, .landed (.value 7)⟩ ∧ s.callers 1 = .waiting 0 ∧ s.flights 5 = none ∧
    (∃ t, Step s (.lock 2) t) ∧ ∀ t ls u g, Step s (.lock 2) t → (system ℕ ℕ ℕ ℕ).Run t ls u →
      Gets u 2 g → 0 < g := by
  let s₀ : State ℕ ℕ ℕ ℕ := ⟨fun _ => none, fun _ => none, 0, fun _ => .idle, none⟩
  have h₀ : Init s₀ := ⟨fun _ => rfl, fun _ => rfl, fun _ => rfl, rfl⟩
  have h0 : (system ℕ ℕ ℕ ℕ).Run s₀ [] s₀ := .nil s₀
  have h1 := h0.next (.call 0 5) (.call rfl)
  have h2 := h1.next (.lock 0) (.lock rfl rfl)
  have h3 := h2.next (.miss 0) (.miss rfl rfl)
  have h4 := h3.next (.start 0) (.start rfl)
  have h5 := h4.next (.insert 0) (.insert rfl)
  have h6 := h5.next (.unlock 0) (.unlock rfl)
  have h7 := h6.next (.spawn 0) (.spawn rfl rfl)
  have h8 := h7.next (.drop 0) (.drop (Or.inr ⟨0, rfl⟩))
  have h9 := h8.next (.call 1 5) (.call rfl)
  have h10 := h9.next (.lock 1) (.lock rfl rfl)
  have h11 := h10.next (.join 1) (.join rfl rfl)
  have h12 := h11.next (.unlock 1) (.unlock rfl)
  have h13 := h12.next (.finish 0 (.value 7)) (.finish rfl)
  have h14 := h13.next (.landLock 0) (.landLock rfl rfl)
  have h15 := h14.next (.landRemove 0) (.landRemove rfl rfl)
  have h16 := h15.next (.landUnlock 0) (.landUnlock rfl)
  have h17 := h16.next (.call 2 5) (.call rfl)
  have hs : (system ℕ ℕ ℕ ℕ).Reachable _ := ⟨s₀, _, h₀, h17⟩
  refine ⟨_, hs, rfl, rfl, rfl, ⟨_, .lock rfl rfl⟩, fun t ls u g hlock hrun hg => ?_⟩
  exact ((single_flight hs).2.2.2.2 2 5 0 5 (.landed (.value 7)) t ls u g rfl id rfl hlock hrun hg).2 rfl

end

end Unixd.SingleFlight
