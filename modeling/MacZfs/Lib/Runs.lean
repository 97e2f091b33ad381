import Mathlib

/-!
# Runs of a transition system

A system is a set of first states and a relation of steps. What holds in every first state and is
kept by every step holds in every state that a run reaches.
-/

namespace Runs

structure System (σ : Type) where
  init : σ → Prop
  step : σ → σ → Prop

variable {σ : Type} {system : System σ} {s s' : σ}

inductive System.Reachable (system : System σ) : σ → Prop
  | first {s : σ} (init : system.init s) : system.Reachable s
  | next {s s' : σ} (before : system.Reachable s) (step : system.step s s') : system.Reachable s'

theorem System.Reachable.invariant {inv : σ → Prop} (first : ∀ s, system.init s → inv s)
    (keeps : ∀ s s', inv s → system.step s s' → inv s') (reachable : system.Reachable s) : inv s := by
  induction reachable with
  | first init => exact first _ init
  | next _ step ih => exact keeps _ _ ih step

end Runs
