import Mathlib.Algebra.GroupWithZero.Nat
import Mathlib.Tactic.Common
/-!
# Blocks cut off a range

An allocator that only moves a pointer up cuts its blocks off the lower end of a
range, one after the other.  `Carved lo hi bs` says that `bs`, the newest block
first, are what was cut off when the pointer had moved from `lo` to `hi`.
-/

namespace Snitchaser.Lib.Carving

structure Block where
  start : Nat
  size : Nat
  deriving DecidableEq, Repr

/-- No address belongs to both. -/
def Block.Apart (a b : Block) : Prop :=
  a.start + a.size ≤ b.start ∨ b.start + b.size ≤ a.start

inductive Carved (lo : Nat) : Nat → List Block → Prop where
  | nil : Carved lo lo []
  | cons {hi : Nat} {bs : List Block} (size : Nat) (h : Carved lo hi bs) :
      Carved lo (hi + size) (⟨hi, size⟩ :: bs)

namespace Carved

variable {lo hi : Nat} {bs : List Block}

/-- Nothing between the ends is lost. -/
theorem sum_size (h : Carved lo hi bs) : lo + (bs.map Block.size).sum = hi := by
  induction h with
  | nil => rfl
  | cons size _ ih =>
      rw [List.map_cons, List.sum_cons, ← ih]
      exact Nat.add_left_comm _ _ _ |>.trans (Nat.add_comm _ _)

theorem inside (h : Carved lo hi bs) : ∀ b ∈ bs, lo ≤ b.start ∧ b.start + b.size ≤ hi := by
  induction h with
  | nil => simp
  | cons size hrest ih =>
      have hsum := hrest.sum_size
      rw [List.forall_mem_cons]
      refine ⟨⟨?_, Nat.le_refl _⟩, ?_⟩
      · rw [← hsum]
        exact Nat.le_add_right _ _
      · intro b hb
        have hin := ih b hb
        exact ⟨hin.1, Nat.le_trans hin.2 (Nat.le_add_right _ _)⟩

end Carved

end Snitchaser.Lib.Carving
