import Mathlib.Tactic.Common
/-!
# Extents

An extent of a partial function on the natural numbers is a half-open interval on which
the function has one value and which cannot be made longer.  Two extents with a common
point are the same.
-/

namespace Snitchaser.Lib.Extents

variable {κ : Type} {f g : Nat → Option κ} {lo hi lo' hi' a b c : Nat} {k k' : κ}

structure IsExtent (f : Nat → Option κ) (lo hi : Nat) (k : κ) : Prop where
  same : ∀ a, lo ≤ a → a < hi → f a = some k
  before : ∀ a, a + 1 = lo → f a ≠ some k
  after : f hi ≠ some k

namespace IsExtent

theorem reaches_up (h : IsExtent f lo hi k) (ha : a < hi)
    (hsame : ∀ x, a ≤ x → x ≤ c → f x = some k) : c < hi := by
  by_contra hout
  exact h.after (hsame hi (Nat.le_of_lt ha) (Nat.not_lt.mp hout))

theorem reaches_down (h : IsExtent f lo hi k) (ha : lo ≤ a)
    (hsame : ∀ x, c ≤ x → x ≤ a → f x = some k) : lo ≤ c := by
  by_contra hout
  exact h.before (lo - 1) (by omega) (hsame (lo - 1) (by omega) (by omega))

theorem le_of_common (h : IsExtent f lo hi k) (h' : IsExtent f lo' hi' k) (ha : lo ≤ a)
    (ha' : lo' ≤ a) (hlt : a < hi) (hlt' : a < hi') : lo ≤ lo' ∧ hi' ≤ hi := by
  constructor
  · apply h.reaches_down ha
    intro x hx hxa
    exact h'.same x hx (Nat.lt_of_le_of_lt hxa hlt')
  · have hreach : hi' - 1 < hi := by
      apply h.reaches_up hlt
      intro x hx hxa
      exact h'.same x (Nat.le_trans ha' hx) (by omega)
    omega

theorem eq_of_common (h : IsExtent f lo hi k) (h' : IsExtent f lo' hi' k') (ha : lo ≤ a)
    (ha' : lo' ≤ a) (hlt : a < hi) (hlt' : a < hi') : lo = lo' ∧ hi = hi' ∧ k = k' := by
  obtain rfl : k = k' := Option.some.inj ((h.same a ha hlt).symm.trans (h'.same a ha' hlt'))
  obtain ⟨hlo, hhi⟩ := h.le_of_common h' ha ha' hlt hlt'
  obtain ⟨hlo', hhi'⟩ := h'.le_of_common h ha' ha hlt' hlt
  exact ⟨Nat.le_antisymm hlo hlo', Nat.le_antisymm hhi' hhi, rfl⟩

/-- An extent apart from `[b, c)` is there without the values on `[b, c)`. -/
theorem of_apart (h : IsExtent g lo hi k) (hoff : ∀ a, a < b ∨ c ≤ a → g a = f a)
    (hnone : ∀ a, b ≤ a → a < c → f a = none) (hapart : hi ≤ b ∨ c ≤ lo) :
    IsExtent f lo hi k := by
  have hend : ∀ a, g a ≠ some k → f a ≠ some k := by
    intro a hne
    by_cases hin : b ≤ a ∧ a < c
    · rw [hnone a hin.1 hin.2]
      exact (Option.some_ne_none k).symm
    · rwa [← hoff a (by omega)]
  constructor
  · intro a ha hlt
    rw [← hoff a (by omega)]
    exact h.same a ha hlt
  · intro a ha
    exact hend a (h.before a ha)
  · exact hend hi h.after

end IsExtent

end Snitchaser.Lib.Extents
