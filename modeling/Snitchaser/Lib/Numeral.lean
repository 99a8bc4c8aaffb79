import Mathlib.Data.Nat.Digits.Lemmas
/-!
# Numerals as they are written

Digits with the most significant first, padded with zeros to a least width, and
the value a reader computes from left to right.
-/

namespace Snitchaser.Lib.Numeral

/-- The digits of `n`, at least `width` of them. -/
def numeral (base width n : Nat) : List Nat := (Nat.digitsAppend base width n).reverse

/-- What a reader that has `acc` makes of further digits. -/
def valueFrom (base acc : Nat) (digits : List Nat) : Nat :=
  digits.foldl (fun acc d => acc * base + d) acc

variable {base width n : Nat}

theorem valueFrom_numeral : valueFrom base 0 (numeral base width n) = n := by
  have hcomm : (fun (d acc : Nat) => acc * base + d) = fun d acc => d + base * acc := by
    ext d acc
    rw [Nat.mul_comm, Nat.add_comm]
  calc valueFrom base 0 (numeral base width n)
      = (Nat.digitsAppend base width n).foldr (fun d acc => acc * base + d) 0 := by
        rw [valueFrom, numeral, List.foldl_reverse]
    _ = Nat.ofDigits base (Nat.digitsAppend base width n) := by
        rw [hcomm, Nat.ofDigits_eq_foldr]
        rfl
    _ = n := by
        rw [Nat.digitsAppend, Nat.ofDigits_append_replicate_zero, Nat.ofDigits_digits]

theorem lt_of_mem_numeral (hbase : 1 < base) {d : Nat} (hd : d ∈ numeral base width n) :
    d < base :=
  Nat.lt_of_mem_digitsAppend hbase width d (List.mem_reverse.mp hd)

theorem le_length_numeral : width ≤ (numeral base width n).length := by
  rw [numeral, List.length_reverse, Nat.digitsAppend, List.length_append, List.length_replicate]
  omega

theorem length_numeral (hbase : 1 < base) (hn : n < base ^ width) :
    (numeral base width n).length = width := by
  rw [numeral, List.length_reverse, Nat.length_digitsAppend hbase width hn]

end Snitchaser.Lib.Numeral
