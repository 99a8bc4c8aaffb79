import Mathlib.Logic.Function.Iterate
import Mathlib.Tactic.Common
/-!
# Simulation with administrative steps

Two deterministic machines, given by their step functions.  A step of the first is
matched by a step of the second or is an administrative one that the second does not
see; a rank bounds the administrative steps in a row.  Then the first machine does
nothing that the second does not do, and does all of it.
-/

namespace Snitchaser.Lib.Simulation

variable {C A : Type*} {f : C → C} {g : A → A} {R : C → A → Prop} {rank : C → Nat}
  {P : A → Prop}

/-- `P` is what may be assumed about the states the second machine comes to. -/
structure Simulates (f : C → C) (g : A → A) (R : C → A → Prop) (rank : C → Nat)
    (P : A → Prop) : Prop where
  step : ∀ c a, R c a → P (g a) → R (f c) (g a) ∨ (R (f c) a ∧ rank (f c) < rank c)

/-! ## The schedule -/

open Classical in
/-- How far the second machine is when the first has made `n` steps. -/
noncomputable def schedule (f : C → C) (g : A → A) (R : C → A → Prop) (c : C) (a : A) : Nat → Nat
  | 0 => 0
  | n + 1 =>
      if R (f^[n + 1] c) (g^[schedule f g R c a n + 1] a) then schedule f g R c a n + 1
      else schedule f g R c a n

variable {c : C} {a : A}

theorem schedule_succ (f : C → C) (g : A → A) (R : C → A → Prop) (c : C) (a : A) (n : Nat) :
    schedule f g R c a (n + 1) = schedule f g R c a n ∨
      schedule f g R c a (n + 1) = schedule f g R c a n + 1 := by
  rw [schedule]
  split
  case isTrue => exact .inr rfl
  case isFalse => exact .inl rfl

namespace Simulates

/-- The machines keep to the schedule.  A step at which the second one waits lowers the
rank. -/
theorem step_schedule (h : Simulates f g R rank P) (hP : ∀ k, P (g^[k] a)) (n : Nat)
    (hR : R (f^[n] c) (g^[schedule f g R c a n] a)) :
    R (f^[n + 1] c) (g^[schedule f g R c a (n + 1)] a) ∧
      (schedule f g R c a (n + 1) = schedule f g R c a n → rank (f^[n + 1] c) < rank (f^[n] c)) := by
  have hnext := hP (schedule f g R c a n + 1)
  rw [Function.iterate_succ_apply'] at hnext
  have hstep := h.step _ _ hR hnext
  rw [← Function.iterate_succ_apply' f, ← Function.iterate_succ_apply' g] at hstep
  rw [schedule]
  split
  case isTrue hboth => exact ⟨hboth, fun heq => absurd heq (Nat.succ_ne_self _)⟩
  case isFalse hnot =>
    obtain ⟨hone, hlt⟩ := hstep.resolve_left hnot
    exact ⟨hone, fun _ => hlt⟩

theorem schedule_matches (h : Simulates f g R rank P) (hR : R c a) (hP : ∀ k, P (g^[k] a))
    (n : Nat) : R (f^[n] c) (g^[schedule f g R c a n] a) := by
  induction n with
  | zero => exact hR
  | succ n ih => exact (h.step_schedule hP n ih).1

/-- The second machine does not wait for ever. -/
theorem schedule_moves (h : Simulates f g R rank P) (hR : R c a) (hP : ∀ k, P (g^[k] a))
    (r n : Nat) (hr : rank (f^[n] c) ≤ r) :
    ∃ m, schedule f g R c a m = schedule f g R c a n + 1 := by
  induction r generalizing n with
  | zero =>
      have hlower := (h.step_schedule hP n (h.schedule_matches hR hP n)).2
      rcases schedule_succ f g R c a n with heq | hmoved
      · have := hlower heq
        omega
      · exact ⟨n + 1, hmoved⟩
  | succ r ih =>
      have hlower := (h.step_schedule hP n (h.schedule_matches hR hP n)).2
      rcases schedule_succ f g R c a n with heq | hmoved
      · have hlt := hlower heq
        rw [← heq]
        exact ih (n + 1) (by omega)
      · exact ⟨n + 1, hmoved⟩

/-- The first machine gets to all that the second one does. -/
theorem schedule_surjective (h : Simulates f g R rank P) (hR : R c a) (hP : ∀ k, P (g^[k] a)) :
    Function.Surjective (schedule f g R c a) := by
  intro k
  induction k with
  | zero => exact ⟨0, rfl⟩
  | succ k ih =>
      obtain ⟨n, hn⟩ := ih
      obtain ⟨m, hm⟩ := h.schedule_moves hR hP _ n (Nat.le_refl _)
      exact ⟨m, by rw [hm, hn]⟩

end Simulates

end Snitchaser.Lib.Simulation
