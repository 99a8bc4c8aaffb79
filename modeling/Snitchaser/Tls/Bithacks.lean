import Mathlib.Data.Nat.Bitwise
import Mathlib.Tactic.Common
import Mathlib.Tactic.Ring
/-!
# The bit tricks behind the slot map

`bithacks.h` finds the lowest clear bit of a word by counting the ones of
`(x + 1) ^ x`.  The carry of `x + 1` runs through the trailing ones of `x` and
stops at its lowest clear bit `k`, so the exclusive or is `2 ^ (k + 1) - 1`; the
octal-mask population count is evaluated at those thirty-two values only.
-/

namespace Snitchaser.Tls.Bithacks

def count1s (c1 : BitVec 32) : Nat :=
  let c2 := (c1 >>> 1) &&& 0o33333333333#32
  let c2 := c1 - c2 - ((c2 >>> 1) &&& 0o33333333333#32)
  ((c2 + (c2 >>> 3)) &&& 0o30707070707#32).toNat % 0o77

def last0Pos (x : BitVec 32) : Int :=
  let tmp := (x + 1) ^^^ x
  (count1s tmp : Int) - 1

def setLast0 (x : BitVec 32) : BitVec 32 := x ||| (x + 1)

def unsetBitN (x : BitVec 32) (n : Nat) : BitVec 32 :=
  let mask := ~~~(1#32 <<< n)
  x &&& mask

/-! ## The lowest clear bit -/

/-- `k` is the lowest clear bit of `x`. -/
def LowestClear (x : BitVec 32) (k : Nat) : Prop :=
  k < 32 ∧ x.getLsbD k = false ∧ ∀ i < k, x.getLsbD i = true

theorem exists_lowestClear {x : BitVec 32} (h : x ≠ 0xffffffff#32) :
    ∃ k, LowestClear x k := by
  have hex : ∃ k, k < 32 ∧ x.getLsbD k = false := by
    by_contra hnone
    push Not at hnone
    apply h
    apply BitVec.eq_of_getLsbD_eq
    intro i hi
    have hbit : x.getLsbD i = true := by simpa using hnone i hi
    rw [hbit, show (0xffffffff#32) = BitVec.allOnes 32 by decide, BitVec.getLsbD_allOnes]
    simp [hi]
  refine ⟨Nat.find hex, (Nat.find_spec hex).1, (Nat.find_spec hex).2, ?_⟩
  intro i hi
  have hlt : i < 32 := hi.trans (Nat.find_spec hex).1
  have hmin := Nat.find_min hex hi
  simpa [hlt] using hmin

/-- The bits of a word up to its lowest clear bit `k`, as a number. -/
theorem toNat_mod_of_lowestClear {x : BitVec 32} {k : Nat} (h : LowestClear x k) :
    x.toNat % 2 ^ (k + 1) = 2 ^ k - 1 := by
  apply Nat.eq_of_testBit_eq
  intro i
  rw [Nat.testBit_mod_two_pow, Nat.testBit_two_pow_sub_one]
  change (decide (i < k + 1) && x.getLsbD i) = decide (i < k)
  rcases Nat.lt_trichotomy i k with hi | hi | hi
  · simp [hi, h.2.2 i hi, Nat.lt_succ_of_lt hi]
  · subst hi
    simp [h.2.1]
  · simp [show ¬ i < k + 1 by omega, show ¬ i < k by omega]

theorem testBit_add_one_of_lowestClear {x : BitVec 32} {k : Nat} (h : LowestClear x k)
    (i : Nat) : (x.toNat + 1).testBit i =
      if i < k then false else if i = k then true else x.getLsbD i := by
  have hmod := toNat_mod_of_lowestClear h
  have hpow : 0 < 2 ^ k := Nat.two_pow_pos k
  have hdm := Nat.div_add_mod x.toNat (2 ^ (k + 1))
  have hx : x.toNat = 2 ^ (k + 1) * (x.toNat / 2 ^ (k + 1)) + (2 ^ k - 1) := by
    rw [hmod] at hdm
    exact hdm.symm
  have hsucc : x.toNat + 1 = 2 ^ (k + 1) * (x.toNat / 2 ^ (k + 1)) + 2 ^ k := by omega
  have hlt : 2 ^ k < 2 ^ (k + 1) := Nat.pow_lt_pow_right (by omega) (by omega)
  rw [hsucc, Nat.testBit_two_pow_mul_add _ hlt]
  rcases Nat.lt_trichotomy i k with hi | hi | hi
  · rw [if_pos (by omega), if_pos hi, Nat.testBit_two_pow_of_ne (by omega)]
  · subst hi
    simp
  · rw [if_neg (by omega), if_neg (by omega), if_neg (by omega)]
    have hle : 2 ^ k - 1 < 2 ^ (k + 1) := by omega
    change _ = x.toNat.testBit i
    conv_rhs => rw [hx, Nat.testBit_two_pow_mul_add _ hle, if_neg (by omega)]

theorem getLsbD_add_one_of_lowestClear {x : BitVec 32} {k i : Nat} (h : LowestClear x k)
    (hi : i < 32) : (x + 1).getLsbD i =
      if i < k then false else if i = k then true else x.getLsbD i := by
  rw [← testBit_add_one_of_lowestClear h i]
  change ((x + 1).toNat).testBit i = _
  rw [BitVec.toNat_add, Nat.testBit_mod_two_pow]
  simp [hi]

/-- `set_last_0` sets the lowest clear bit and no other. -/
theorem getLsbD_setLast0 {x : BitVec 32} {k i : Nat} (h : LowestClear x k) (hi : i < 32) :
    (setLast0 x).getLsbD i = (x.getLsbD i || decide (i = k)) := by
  rw [setLast0, BitVec.getLsbD_or, getLsbD_add_one_of_lowestClear h hi]
  by_cases hlt : i < k
  · simp [hlt, h.2.2 i hlt]
  · by_cases heq : i = k
    · simp [heq]
    · simp [hlt, heq]

theorem count1s_ones : ∀ k : Fin 32, count1s (BitVec.ofNat 32 (2 ^ (k.val + 1) - 1)) = k + 1 := by
  decide

theorem last0Pos_eq {x : BitVec 32} {k : Nat} (h : LowestClear x k) : last0Pos x = k := by
  have hxor : (x + 1) ^^^ x = BitVec.ofNat 32 (2 ^ (k + 1) - 1) := by
    apply BitVec.eq_of_getLsbD_eq
    intro i hi
    rw [BitVec.getLsbD_xor, getLsbD_add_one_of_lowestClear h hi, BitVec.getLsbD_ofNat,
      Nat.testBit_two_pow_sub_one]
    rcases Nat.lt_trichotomy i k with hlt | heq | hgt
    · simp [hlt, h.2.2 i hlt, hi, Nat.lt_succ_of_lt hlt]
    · subst heq
      rw [h.2.1]
      simp [hi]
    · simp [show ¬ i < k by omega, show i ≠ k by omega, show ¬ i < k + 1 by omega]
  have hcount := count1s_ones ⟨k, h.1⟩
  simp only [last0Pos, hxor]
  simp only at hcount
  rw [hcount]
  push_cast
  ring

theorem getLsbD_unsetBitN {x : BitVec 32} {n i : Nat} (hi : i < 32) :
    (unsetBitN x n).getLsbD i = (x.getLsbD i && !decide (i = n)) := by
  simp only [unsetBitN, BitVec.getLsbD_and, BitVec.getLsbD_not, BitVec.getLsbD_shiftLeft,
    BitVec.getLsbD_one]
  by_cases heq : i = n
  · subst heq
    simp [hi]
  · simp [hi, heq]
    omega

end Snitchaser.Tls.Bithacks
