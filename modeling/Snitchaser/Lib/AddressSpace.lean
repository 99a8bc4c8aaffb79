import Mathlib.Tactic.Common
/-!
# Address spaces

Memory that can be mapped and unmapped: an address has a cell, or an access to it
faults.  Mapping, unmapping and storing all replace the cells of one range, so
that one frame rule covers them: what a range replacement leaves outside of the
range is unchanged, and what a block holds outside of it, it still holds.
-/

namespace Snitchaser.Lib.AddressSpace

structure Cell where
  byte : UInt8
  writable : Bool
  deriving DecidableEq, Repr

abbrev Space := Nat → Option Cell

/-- Put the cells `f 0`, …, `f (n - 1)` at `a`. -/
def replace (s : Space) (a n : Nat) (f : Nat → Option Cell) : Space := fun x =>
  if a ≤ x ∧ x < a + n then f (x - a) else s x

/-- Every cell of the range can be written to. -/
def Writable (s : Space) (a n : Nat) : Prop := ∀ i < n, (s (a + i)).any Cell.writable = true

instance (s : Space) (a n : Nat) : Decidable (Writable s a n) :=
  inferInstanceAs (Decidable (∀ i < n, (s (a + i)).any Cell.writable = true))

/-- The bytes `f 0`, …, `f (n - 1)` are at `a`. -/
def Contains (s : Space) (a n : Nat) (f : Nat → UInt8) : Prop :=
  ∀ i < n, (s (a + i)).map Cell.byte = some (f i)

/-- The spaces are the same outside of the range from `lo` to `hi`. -/
def SameOutside (lo hi : Nat) (s t : Space) : Prop := ∀ x, x < lo ∨ hi ≤ x → t x = s x

variable {s t u : Space} {a n lo hi : Nat} {f : Nat → Option Cell} {g : Nat → UInt8}

theorem replace_inside {i : Nat} (h : i < n) : replace s a n f (a + i) = f i := by
  unfold replace
  rw [if_pos (by omega), Nat.add_sub_cancel_left]

theorem replace_outside {x : Nat} (h : x < a ∨ a + n ≤ x) : replace s a n f x = s x := by
  unfold replace
  rw [if_neg (by omega)]

namespace SameOutside

theorem refl (lo hi : Nat) (s : Space) : SameOutside lo hi s s := fun _ _ => rfl

theorem trans (hst : SameOutside lo hi s t) (htu : SameOutside lo hi t u) :
    SameOutside lo hi s u := by
  intro x hx
  rw [htu x hx, hst x hx]

theorem widen {lo' hi' : Nat} (h : SameOutside lo hi s t) (hlo : lo' ≤ lo) (hhi : hi ≤ hi') :
    SameOutside lo' hi' s t := by
  intro x hx
  apply h
  omega

theorem replace (hlo : lo ≤ a) (hhi : a + n ≤ hi) :
    SameOutside lo hi s (AddressSpace.replace s a n f) := by
  intro x hx
  apply replace_outside
  omega

end SameOutside

namespace Contains

/-- The frame rule: the block is not touched by a change elsewhere. -/
theorem frame (h : Contains s a n g) (hsame : SameOutside lo hi s t)
    (hdisjoint : ∀ i < n, a + i < lo ∨ hi ≤ a + i) : Contains t a n g := by
  intro i hi
  rw [hsame _ (hdisjoint i hi)]
  exact h i hi

/-- A block and the block behind it. -/
theorem append {m : Nat} (hleft : Contains s a n g)
    (hright : Contains s (a + n) m fun i => g (n + i)) : Contains s a (n + m) g := by
  intro i hi
  by_cases h : i < n
  · exact hleft i h
  · have hat : (s (a + n + (i - n))).map Cell.byte = some (g (n + (i - n))) :=
      hright (i - n) (by omega)
    rwa [show a + n + (i - n) = a + i by omega, show n + (i - n) = i by omega] at hat

theorem of_replace {b : Nat} (hlo : b ≤ a) (hhi : a + n ≤ b + m)
    (hcells : ∀ i < n, (f (a - b + i)).map Cell.byte = some (g i)) :
    Contains (AddressSpace.replace s b m f) a n g := by
  intro i hi
  rw [show a + i = b + (a - b + i) by omega, replace_inside (by omega)]
  exact hcells i hi

end Contains

end Snitchaser.Lib.AddressSpace
