import Snitchaser.Lib.Fields
import Snitchaser.Tls.Bithacks
/-!
# The population counts

`count_1s` replaces each octal digit of a word by the number of its ones, adds
neighbouring digits and takes the remainder by 63, which adds up the base-64 digits;
`count_1s_64` does the same with hexadecimal digits and 255.  A word of 32 bits has ten
octal digits and two bits; it is read as twelve digits here.
-/

namespace Snitchaser.Tls.Popcount

open Snitchaser.Lib.Fields
open Snitchaser.Tls.Bithacks

def count1s64 (c1 : BitVec 64) : Nat :=
  let c2 := (c1 >>> 1) &&& 0x7777777777777777#64
  let c3 := (c1 >>> 2) &&& 0x3333333333333333#64
  let c4 := (c1 >>> 3) &&& 0x1111111111111111#64
  let c1 := c1 - c2 - c3 - c4
  ((c1 + (c1 >>> 4)) &&& 0x0F0F0F0F0F0F0F0F#64).toNat % 0xFF

/-! ## Words as rows of digits -/

section Words

variable {v w n X : Nat} {f g : Nat → Nat}

/-- Shifting right under a mask, digit by digit. -/
theorem toNat_shift_and {c m : BitVec v} {j : Nat} (hj : j ≤ w)
    (hm : mask w (w - j) n % 2 ^ v = m.toNat) :
    ((c >>> j) &&& m).toNat = mapFields w (· / 2 ^ j) n c.toNat := by
  have hlt : c.toNat >>> j < 2 ^ v := (c >>> j).isLt
  calc ((c >>> j) &&& m).toNat
      = c.toNat >>> j &&& m.toNat := rfl
    _ = c.toNat >>> j &&& mask w (w - j) n := by rw [← hm, and_mod_of_lt hlt]
    _ = mapFields w (· / 2 ^ j) n c.toNat := shiftRight_and_mask hj

theorem toNat_sub_fields {a b : BitVec v} (ha : a.toNat = mapFields w f n X)
    (hb : b.toNat = mapFields w g n X) (h : ∀ d < 2 ^ w, g d ≤ f d) :
    (a - b).toNat = mapFields w (fun d => f d - g d) n X := by
  have hsum := mapFields_add_sub (n := n) (x := X) h
  rw [BitVec.toNat_sub_of_le (by rw [BitVec.le_def]; omega)]
  omega

/-- The end of both counts: `c` holds the number of ones of each digit of `X`. -/
theorem count_of_digits {c m : BitVec v} (hc : c.toNat = mapFields w (ones w) (2 * n) X)
    (hroom : c.toNat + c.toNat >>> w < 2 ^ v) (hm : mask (2 * w) w n % 2 ^ v = m.toNat)
    (hdigit : 2 * w < 2 ^ w) (htotal : w * (2 * n) < 2 ^ (2 * w) - 1) :
    ((c + (c >>> w)) &&& m).toNat % (2 ^ (2 * w) - 1) = ones (w * (2 * n)) X := by
  have hsum : (c + (c >>> w)).toNat = c.toNat + c.toNat >>> w := by
    rw [BitVec.toNat_add, BitVec.toNat_ushiftRight, Nat.mod_eq_of_lt hroom]
  rw [BitVec.toNat_and, hsum, ← hm, and_mod_of_lt hroom, hc]
  exact count_of_fields n X hdigit htotal

end Words

/-! ## The counts -/

theorem octal_ones : ∀ d < 2 ^ 3, d - d / 2 - d / 2 / 2 = ones 3 d := by decide

theorem hex_ones : ∀ d < 2 ^ 4, d - d / 2 - d / 2 ^ 2 - d / 2 ^ 3 = ones 4 d := by decide

/-- The two bits above the tenth digit have at most two ones. -/
theorem top_octal_ones : ∀ d < 4, mapFields 3 (ones 3) 2 d ≤ 2 := by decide

theorem octal_room {X : Nat} (hX : X < 2 ^ 32) :
    mapFields 3 (ones 3) 12 X + mapFields 3 (ones 3) 12 X >>> 3 < 2 ^ 32 := by
  have hlow : mapFields 3 (ones 3) 10 X < 2 ^ 30 :=
    mapFields_lt (fun d _ => Nat.lt_of_le_of_lt (ones_le 3 d) (by decide)) 10 X
  have htop := top_octal_ones (X / 2 ^ 30) (by omega)
  have hsplit : mapFields 3 (ones 3) 12 X =
      mapFields 3 (ones 3) 10 X + 2 ^ 30 * mapFields 3 (ones 3) 2 (X / 2 ^ 30) :=
    mapFields_add 10 2 X
  rw [Nat.shiftRight_eq_div_pow, hsplit]
  omega

theorem hex_room (X : Nat) :
    mapFields 4 (ones 4) 16 X + mapFields 4 (ones 4) 16 X >>> 4 < 2 ^ 64 := by
  have hlow : mapFields 4 (ones 4) 15 X < 2 ^ 60 :=
    mapFields_lt (fun d _ => Nat.lt_of_le_of_lt (ones_le 4 d) (by decide)) 15 X
  have htop : mapFields 4 (ones 4) 1 (X / 2 ^ 60) ≤ 4 := ones_le 4 _
  have hsplit : mapFields 4 (ones 4) 16 X =
      mapFields 4 (ones 4) 15 X + 2 ^ 60 * mapFields 4 (ones 4) 1 (X / 2 ^ 60) :=
    mapFields_add 15 1 X
  rw [Nat.shiftRight_eq_div_pow, hsplit]
  omega

theorem count1s_eq (x : BitVec 32) : count1s x = (List.range 32).countP x.getLsbD := by
  have hX : x.toNat < 2 ^ 32 := x.isLt
  have hself : x.toNat = mapFields 3 (fun d => d) 12 x.toNat :=
    (mapFields_id (Nat.lt_of_lt_of_le hX (by decide))).symm
  have hmask : mask 3 (3 - 1) 12 % 2 ^ 32 = (0o33333333333#32).toNat := by decide
  let c := (x >>> 1) &&& 0o33333333333#32
  have hc : c.toNat = mapFields 3 (· / 2) 12 x.toNat := toNat_shift_and (by omega) hmask
  have hd : ((c >>> 1) &&& 0o33333333333#32).toNat = mapFields 3 (· / 2 / 2) 12 x.toNat := by
    rw [toNat_shift_and (by omega) hmask, hc, mapFields_mapFields]
    · rfl
    · intro d hd
      omega
  have hdigits : (x - c - ((c >>> 1) &&& 0o33333333333#32)).toNat =
      mapFields 3 (ones 3) 12 x.toNat := by
    rw [toNat_sub_fields (toNat_sub_fields hself hc fun d _ => by omega) hd fun d _ => by omega]
    exact mapFields_congr octal_ones
  have hcount := count_of_digits (n := 6) (m := 0o30707070707#32) hdigits
    (by rw [hdigits]; exact octal_room hX) (by decide) (by decide) (by decide)
  calc count1s x
      = ones (3 * (2 * 6)) x.toNat := hcount
    _ = ones 32 x.toNat := ones_of_lt 4 hX

theorem count1s64_eq (y : BitVec 64) : count1s64 y = (List.range 64).countP y.getLsbD := by
  have hself : y.toNat = mapFields 4 (fun d => d) 16 y.toNat := (mapFields_id y.isLt).symm
  have hc2 : ((y >>> 1) &&& 0x7777777777777777#64).toNat = mapFields 4 (· / 2 ^ 1) 16 y.toNat :=
    toNat_shift_and (by omega) (by decide)
  have hc3 : ((y >>> 2) &&& 0x3333333333333333#64).toNat = mapFields 4 (· / 2 ^ 2) 16 y.toNat :=
    toNat_shift_and (by omega) (by decide)
  have hc4 : ((y >>> 3) &&& 0x1111111111111111#64).toNat = mapFields 4 (· / 2 ^ 3) 16 y.toNat :=
    toNat_shift_and (by omega) (by decide)
  have hdigits : (y - ((y >>> 1) &&& 0x7777777777777777#64) -
      ((y >>> 2) &&& 0x3333333333333333#64) - ((y >>> 3) &&& 0x1111111111111111#64)).toNat =
      mapFields 4 (ones 4) 16 y.toNat := by
    have h2 := toNat_sub_fields hself hc2 fun d _ => by omega
    have h3 := toNat_sub_fields h2 hc3 fun d _ => by omega
    rw [toNat_sub_fields h3 hc4 fun d _ => by omega]
    exact mapFields_congr hex_ones
  exact count_of_digits (n := 8) (m := 0x0F0F0F0F0F0F0F0F#64) hdigits
    (by rw [hdigits]; exact hex_room _) (by decide) (by decide) (by decide)

/-! ## The free bit -/

theorem unsetBitN_setLast0 {x : BitVec 32} {k : Nat} (h : LowestClear x k) :
    unsetBitN (setLast0 x) k = x := by
  apply BitVec.eq_of_getLsbD_eq
  intro i hi
  rw [getLsbD_unsetBitN hi, getLsbD_setLast0 h hi]
  by_cases heq : i = k
  · subst heq
    simp [h.2.1]
  · simp [heq]

/-- The lowest clear bit is found, set and cleared again, and the counts it rests on are
right for every word. -/
theorem free_bit_arithmetic :
    (∀ x : BitVec 32, x ≠ 0xffffffff#32 → ∃ n : Nat, last0Pos x = n ∧ n < 32 ∧
      x.getLsbD n = false ∧ (∀ i < n, x.getLsbD i = true) ∧
      (∀ i < 32, (setLast0 x).getLsbD i = (x.getLsbD i || decide (i = n))) ∧
      unsetBitN (setLast0 x) n = x) ∧
    (∀ x : BitVec 32, count1s x = (List.range 32).countP x.getLsbD) ∧
    ∀ y : BitVec 64, count1s64 y = (List.range 64).countP y.getLsbD := by
  refine ⟨?_, count1s_eq, count1s64_eq⟩
  intro x hx
  obtain ⟨n, hn⟩ := exists_lowestClear hx
  exact ⟨n, last0Pos_eq hn, hn.1, hn.2.1, hn.2.2, fun i => getLsbD_setLast0 hn,
    unsetBitN_setLast0 hn⟩

theorem free_bit_arithmetic_seven : (7#32 ≠ 0xffffffff#32) ∧ ∃ n : Nat, last0Pos 7#32 = n ∧
    n < 32 ∧ unsetBitN (setLast0 7#32) n = 7#32 := by
  have hne : 7#32 ≠ 0xffffffff#32 := by decide
  obtain ⟨n, hpos, hlt, -, -, -, hback⟩ := free_bit_arithmetic.1 7#32 hne
  exact ⟨hne, n, hpos, hlt, hback⟩

end Snitchaser.Tls.Popcount
