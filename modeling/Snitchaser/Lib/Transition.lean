import Mathlib.Logic.Relation
import Mathlib.Tactic.Common
/-!
# Transition systems and their invariants

A step relation with its start states, the states it reaches, and the rule that
every safety theorem below goes through: what holds at the start and is kept by
each step from a reachable state holds in every reachable state.
-/

namespace Snitchaser.Lib.Transition

/-- Start states and one step of a system. -/
structure System (σ : Type*) where
  init : σ → Prop
  step : σ → σ → Prop

variable {σ : Type*}

/-- Some run of the system ends in `s`. -/
def System.Reachable (S : System σ) (s : σ) : Prop :=
  ∃ s₀, S.init s₀ ∧ Relation.ReflTransGen S.step s₀ s

namespace System.Reachable

variable {S : System σ}

theorem start {s : σ} (h : S.init s) : S.Reachable s := ⟨s, h, .refl⟩

theorem next {s t : σ} (h : S.Reachable s) (hst : S.step s t) : S.Reachable t := by
  obtain ⟨s₀, hinit, hrun⟩ := h
  exact ⟨s₀, hinit, hrun.tail hst⟩

/-- The invariant rule.  The step case may use that the state it starts from is
reachable, so earlier invariants can support later ones. -/
theorem invariant {P : σ → Prop} (hinit : ∀ s, S.init s → P s)
    (hstep : ∀ s t, S.Reachable s → P s → S.step s t → P t) {s : σ}
    (h : S.Reachable s) : P s := by
  obtain ⟨s₀, hs₀, hrun⟩ := h
  induction hrun with
  | refl => exact hinit s₀ hs₀
  | tail hrun hst ih => exact hstep _ _ ⟨s₀, hs₀, hrun⟩ ih hst

end System.Reachable

end Snitchaser.Lib.Transition
