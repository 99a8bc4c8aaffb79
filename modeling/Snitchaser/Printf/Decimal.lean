import Mathlib.Data.Nat.Digits.Lemmas
import Snitchaser.Printf.Model
/-!
# The decimal digits of `put_dec`

`put_dec_trunc` and `put_dec_full` divide by ten with a multiplication and a shift.  Their
arguments have at most five digits, and for these the divisions are exact.
-/

namespace Snitchaser.Printf.Decimal

open Snitchaser.Printf.Model
open Snitchaser.Proc.Vsscanf (Str ch)

/-! ## Five digits -/

theorem mul_shift_eleven {x : Nat} (hx : x < 400) : (x * 0xcd) >>> 11 = x / 10 := by
  rw [Nat.shiftRight_eq_div_pow]
  omega

theorem mul_shift_seven {x : Nat} (hx : x < 64) : (x * 0xd) >>> 7 = x / 10 := by
  rw [Nat.shiftRight_eq_div_pow]
  omega

theorem and_fifteen (x : Nat) : x &&& 0xf = x % 16 := Nat.and_two_pow_sub_one_eq_mod x 4

/-- The values that the two functions compute from the four groups of bits. -/
structure Split (q a b c d : Nat) : Prop where
  low : a = 6 * (q / 4096 + q / 256 % 16 + q / 16 % 16) + q % 16
  tens : b = a / 10 + 9 * (q / 4096) + 5 * (q / 256 % 16) + q / 16 % 16
  hundreds : c = b / 10 + 2 * (q / 256 % 16)
  thousands : d = c / 10 + 4 * (q / 4096)

variable {q a b c d : Nat}

theorem Split.bounds (h : Split q a b c d) (hq : q < 100000) :
    a < 400 ∧ b < 400 ∧ c < 64 ∧ d < 400 := by
  have ha := h.low
  have hb := h.tens
  have hc := h.hundreds
  have hd := h.thousands
  omega

theorem Split.sum (h : Split q a b c d) (hq : q < 100000) :
    q = a % 10 + 10 * (b % 10) + 100 * (c % 10) + 1000 * d := by
  have ha := h.low
  have hb := h.tens
  have hc := h.hundreds
  have hd := h.thousands
  omega

theorem Split.digits (h : Split q a b c d) (hq : q < 100000) :
    a % 10 = q % 10 ∧ b % 10 = q / 10 % 10 ∧ c % 10 = q / 100 % 10 ∧ d % 10 = q / 1000 % 10 ∧
      d / 10 = q / 10000 := by
  have hsum := h.sum hq
  clear h
  omega

/-- Which of the values are zero. -/
theorem Split.zeros (h : Split q a b c d) (hq : q < 100000) :
    (b ≠ 0 ↔ 10 ≤ q) ∧ (c ≠ 0 ∨ q / 4096 ≠ 0 ↔ 100 ≤ q) ∧ (d ≠ 0 ↔ 1000 ≤ q) := by
  have ha := h.low
  have hb := h.tens
  have hc := h.hundreds
  have hd := h.thousands
  have hsum := h.sum hq
  refine ⟨?_, ?_, ?_⟩
  · omega
  · omega
  · omega

theorem split_exists (q : Nat) : ∃ a b c d, Split q a b c d := ⟨_, _, _, _, rfl, rfl, rfl, rfl⟩

theorem sub_ten_mul (x : Nat) : x - 10 * (x / 10) = x % 10 := by omega

theorem putDecFull_eq (hq : q < 100000) :
    putDecFull q = [digit (q % 10), digit (q / 10 % 10), digit (q / 100 % 10),
      digit (q / 1000 % 10), digit (q / 10000)] := by
  obtain ⟨a, b, c, d, h⟩ := split_exists q
  obtain ⟨hla, hlb, hlc, hld⟩ := h.bounds hq
  obtain ⟨ha, hb, hc, hd, he⟩ := h.digits hq
  unfold putDecFull
  simp only [Nat.shiftRight_eq_div_pow q, Nat.reducePow, and_fifteen]
  rw [← h.low, mul_shift_eleven hla, ← h.tens, mul_shift_eleven hlb, ← h.hundreds,
    mul_shift_seven hlc, ← h.thousands, mul_shift_eleven hld, sub_ten_mul, sub_ten_mul,
    sub_ten_mul, sub_ten_mul, ha, hb, hc, hd, he]

/-- The digits from the least significant one on, as far as there are any. -/
theorem putDecTrunc_eq (hpos : 0 < q) (hq : q < 100000) :
    putDecTrunc q = (Nat.digits 10 q).map digit := by
  obtain ⟨a, b, c, d, h⟩ := split_exists q
  obtain ⟨hla, hlb, hlc, hld⟩ := h.bounds hq
  obtain ⟨ha, hb, hc, hd, he⟩ := h.digits hq
  obtain ⟨hten, hhundred, hthousand⟩ := h.zeros hq
  unfold putDecTrunc
  simp only [Nat.shiftRight_eq_div_pow q, Nat.reducePow, and_fifteen]
  rw [← h.low, mul_shift_eleven hla, ← h.tens, mul_shift_eleven hlb, ← h.hundreds,
    mul_shift_seven hlc, ← h.thousands, mul_shift_eleven hld, sub_ten_mul, sub_ten_mul,
    sub_ten_mul, sub_ten_mul, ha, hb, hc, hd]
  simp only [hten, hhundred, hthousand, he]
  clear h ha hb hc hd he hten hhundred hthousand
  have hstep {n : Nat} (hn : n ≠ 0) : Nat.digits 10 n = n % 10 :: Nat.digits 10 (n / 10) :=
    Nat.digits_def' (by decide) (Nat.pos_of_ne_zero hn)
  rw [hstep hpos.ne', List.map_cons]
  congr 1
  by_cases h1 : 10 ≤ q
  · rw [if_pos h1, hstep (by omega), List.map_cons]
    congr 1
    rw [Nat.div_div_eq_div_mul]
    by_cases h2 : 100 ≤ q
    · rw [if_pos h2, hstep (by omega), List.map_cons]
      congr 1
      rw [Nat.div_div_eq_div_mul]
      by_cases h3 : 1000 ≤ q
      · rw [if_pos h3, hstep (by omega), List.map_cons]
        congr 1
        rw [Nat.div_div_eq_div_mul]
        by_cases h4 : q / 10000 ≠ 0
        · rw [if_pos h4, Nat.digits_of_lt 10 _ h4 (by omega)]
          rfl
        · rw [if_neg h4, Nat.div_eq_of_lt (by omega), Nat.digits_zero, List.map_nil]
      · rw [if_neg h3, Nat.div_eq_of_lt (by omega), Nat.digits_zero, List.map_nil]
    · rw [if_neg h2, Nat.div_eq_of_lt (by omega), Nat.digits_zero, List.map_nil]
  · rw [if_neg h1, Nat.div_eq_of_lt (by omega), Nat.digits_zero, List.map_nil]

/-! ## All digits -/

/-- Five digits and the ones above them. -/
theorem digits_add_five {n : Nat} (hn : 100000 ≤ n) :
    Nat.digits 10 n = [n % 100000 % 10, n % 100000 / 10 % 10, n % 100000 / 100 % 10,
      n % 100000 / 1000 % 10, n % 100000 / 10000] ++ Nat.digits 10 (n / 100000) := by
  have hstep {m : Nat} (hm : 0 < m) : Nat.digits 10 m = m % 10 :: Nat.digits 10 (m / 10) :=
    Nat.digits_def' (by decide) hm
  rw [hstep (by omega), hstep (by omega), hstep (by omega), hstep (by omega), hstep (by omega)]
  simp only [Nat.div_div_eq_div_mul, Nat.reduceMul, List.cons_append, List.nil_append,
    List.cons.injEq, and_true]
  omega

theorem putDecLoop_eq {fuel n : Nat} (hpos : 0 < n) (hn : n < 100000 ^ (fuel + 1)) :
    putDecLoop fuel n = (Nat.digits 10 n).map digit := by
  induction fuel generalizing n with
  | zero => exact putDecTrunc_eq hpos (by omega)
  | succ fuel ih =>
      unfold putDecLoop
      by_cases hsmall : n < 100000
      · rw [if_pos hsmall, putDecTrunc_eq hpos hsmall]
      · have hmod : n % 100000 < 100000 := Nat.mod_lt n (by decide)
        have hdiv : n / 100000 < 100000 ^ (fuel + 1) :=
          Nat.div_lt_of_lt_mul (by rwa [← Nat.pow_succ'])
        rw [if_neg hsmall, putDecFull_eq hmod, ih (by omega) hdiv,
          digits_add_five (Nat.not_lt.mp hsmall), List.map_append]
        rfl

theorem putDec_eq {n : Nat} (hpos : 0 < n) (hn : n < 2 ^ 64) :
    putDec n = (Nat.digits 10 n).map digit :=
  putDecLoop_eq hpos (by omega)

end Snitchaser.Printf.Decimal
