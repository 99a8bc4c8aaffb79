import Mathlib.Data.Nat.Bitwise
import Mathlib.Tactic.Common
import Mathlib.Tactic.Ring
/-!
# Numbers as rows of fields

A number is cut into `n` fields of `w` bits, lowest first, and a function is applied to
each of them.  Shifting under a mask, subtracting, and adding neighbours are such
functions as long as no field overflows; the remainder by `2 ^ w - 1` adds the fields up.
-/

namespace Snitchaser.Lib.Fields

/-- The number whose fields are `f` of the fields of `x`. -/
def mapFields (w : Nat) (f : Nat → Nat) : Nat → Nat → Nat
  | 0, _ => 0
  | n + 1, x => f (x % 2 ^ w) + 2 ^ w * mapFields w f n (x / 2 ^ w)

/-- The sum of `f` over the fields of `x`. -/
def sumFields (w : Nat) (f : Nat → Nat) : Nat → Nat → Nat
  | 0, _ => 0
  | n + 1, x => f (x % 2 ^ w) + sumFields w f n (x / 2 ^ w)

/-- `n` fields, each with its lowest `v` bits set. -/
def mask (w v : Nat) : Nat → Nat
  | 0 => 0
  | n + 1 => 2 ^ v - 1 + 2 ^ w * mask w v n

variable {w v n x c : Nat} {f g : Nat → Nat}

theorem mapFields_congr (h : ∀ d < 2 ^ w, f d = g d) :
    mapFields w f n x = mapFields w g n x := by
  induction n generalizing x with
  | zero => rfl
  | succ n ih => rw [mapFields, mapFields, ih, h _ (Nat.mod_lt _ (Nat.two_pow_pos w))]

/-- The fields make up the number. -/
theorem mapFields_id (h : x < 2 ^ (w * n)) : mapFields w (fun d => d) n x = x := by
  induction n generalizing x with
  | zero =>
      rw [Nat.mul_zero, Nat.pow_zero] at h
      rw [mapFields]
      omega
  | succ n ih =>
      have hrest : x / 2 ^ w < 2 ^ (w * n) := by
        rw [Nat.div_lt_iff_lt_mul (Nat.two_pow_pos w), ← Nat.pow_add]
        rwa [Nat.mul_succ] at h
      rw [mapFields, ih hrest, Nat.mod_add_div]

theorem mapFields_mapFields (hg : ∀ d < 2 ^ w, g d < 2 ^ w) :
    mapFields w f n (mapFields w g n x) = mapFields w (fun d => f (g d)) n x := by
  induction n generalizing x with
  | zero => rfl
  | succ n ih =>
      have hd := hg (x % 2 ^ w) (Nat.mod_lt _ (Nat.two_pow_pos w))
      rw [mapFields, mapFields, mapFields, Nat.add_mul_mod_self_left, Nat.mod_eq_of_lt hd,
        Nat.add_mul_div_left _ _ (Nat.two_pow_pos w), Nat.div_eq_of_lt hd, Nat.zero_add, ih]

/-- The lowest `m` fields, and those above them. -/
theorem mapFields_add (m n x : Nat) : mapFields w f (m + n) x =
    mapFields w f m x + 2 ^ (w * m) * mapFields w f n (x / 2 ^ (w * m)) := by
  induction m generalizing x with
  | zero => simp [mapFields]
  | succ m ih =>
      have hpow : 2 ^ (w * (m + 1)) = 2 ^ w * 2 ^ (w * m) := by
        rw [Nat.mul_succ, Nat.add_comm, Nat.pow_add]
      rw [Nat.succ_add, mapFields, ih, mapFields, hpow, Nat.div_div_eq_div_mul]
      ring

theorem mapFields_lt (hf : ∀ d < 2 ^ w, f d < 2 ^ w) (n x : Nat) :
    mapFields w f n x < 2 ^ (w * n) := by
  induction n generalizing x with
  | zero =>
      rw [mapFields]
      exact Nat.two_pow_pos _
  | succ n ih =>
      have hd := hf (x % 2 ^ w) (Nat.mod_lt _ (Nat.two_pow_pos w))
      rw [mapFields]
      calc f (x % 2 ^ w) + 2 ^ w * mapFields w f n (x / 2 ^ w)
          < 2 ^ w * (mapFields w f n (x / 2 ^ w) + 1) := by
            rw [Nat.mul_add, Nat.mul_one]
            omega
        _ ≤ 2 ^ w * 2 ^ (w * n) := Nat.mul_le_mul_left _ (ih _)
        _ = 2 ^ (w * (n + 1)) := by rw [← Nat.pow_add, Nat.mul_succ, Nat.add_comm]

/-! ## Subtraction -/

theorem mapFields_add_sub (h : ∀ d < 2 ^ w, g d ≤ f d) :
    mapFields w g n x + mapFields w (fun d => f d - g d) n x = mapFields w f n x := by
  induction n generalizing x with
  | zero => rfl
  | succ n ih =>
      have hd := h (x % 2 ^ w) (Nat.mod_lt _ (Nat.two_pow_pos w))
      rw [mapFields, mapFields, mapFields, ← ih, Nat.mul_add]
      omega

/-! ## Masks -/

/-- The lowest field of a mask, and the fields above it. -/
theorem and_add_mul (a m M : Nat) (hm : m < 2 ^ w) :
    a &&& (m + 2 ^ w * M) = (a &&& m) + 2 ^ w * (a / 2 ^ w &&& M) := by
  have hlow : (a &&& (m + 2 ^ w * M)) % 2 ^ w = a &&& m := by
    have hle : a &&& m < 2 ^ w := Nat.lt_of_le_of_lt Nat.and_le_right hm
    rw [Nat.and_mod_two_pow, Nat.add_mul_mod_self_left, Nat.mod_eq_of_lt hm,
      ← Nat.mod_eq_of_lt hle, Nat.and_mod_two_pow, Nat.mod_eq_of_lt hm]
  have hhigh : (a &&& (m + 2 ^ w * M)) / 2 ^ w = a / 2 ^ w &&& M := by
    rw [Nat.and_div_two_pow, Nat.add_mul_div_left _ _ (Nat.two_pow_pos w), Nat.div_eq_of_lt hm,
      Nat.zero_add]
  rw [← hlow, ← hhigh, Nat.mod_add_div]

/-- A mask may be cut to the width of what it is applied to. -/
theorem and_mod_of_lt {a b m : Nat} (ha : a < 2 ^ m) : a &&& (b % 2 ^ m) = a &&& b := by
  have hle : a &&& b < 2 ^ m := Nat.lt_of_le_of_lt Nat.and_le_left ha
  rw [← Nat.mod_eq_of_lt hle, Nat.and_mod_two_pow, Nat.mod_eq_of_lt ha]

/-- Shifting right by `j` within each field: the mask drops what comes down from the
field above. -/
theorem shiftRight_and_mask {j : Nat} (hj : j ≤ w) :
    (x >>> j) &&& mask w (w - j) n = mapFields w (· / 2 ^ j) n x := by
  induction n generalizing x with
  | zero => rw [mask, mapFields, Nat.and_zero]
  | succ n ih =>
      have hm : 2 ^ (w - j) - 1 < 2 ^ w := by
        have hle : 2 ^ (w - j) ≤ 2 ^ w := Nat.pow_le_pow_right (by omega) (by omega)
        have hpos := Nat.two_pow_pos (w - j)
        omega
      have hsplit : 2 ^ w = 2 ^ j * 2 ^ (w - j) := by rw [← Nat.pow_add, Nat.add_sub_cancel' hj]
      have hfield : x / 2 ^ j % 2 ^ (w - j) = x % 2 ^ w / 2 ^ j := by
        rw [hsplit, Nat.mod_mul_right_div_self]
      have hrest : x / 2 ^ j / 2 ^ w = (x / 2 ^ w) >>> j := by
        rw [Nat.shiftRight_eq_div_pow, Nat.div_div_eq_div_mul, Nat.div_div_eq_div_mul,
          Nat.mul_comm]
      rw [mask, mapFields, and_add_mul _ _ _ hm, Nat.shiftRight_eq_div_pow, hrest, ih,
        Nat.and_two_pow_sub_one_eq_mod, hfield]

/-! ## Adding neighbours -/

theorem mapFields_mod_le (hf : ∀ d < 2 ^ w, f d ≤ c) (hc : c < 2 ^ w) :
    mapFields w f n x % 2 ^ w ≤ c := by
  cases n with
  | zero =>
      rw [mapFields, Nat.zero_mod]
      exact Nat.zero_le c
  | succ n =>
      have hd := hf (x % 2 ^ w) (Nat.mod_lt _ (Nat.two_pow_pos w))
      rw [mapFields, Nat.add_mul_mod_self_left, Nat.mod_eq_of_lt (by omega)]
      exact hd

section Merge

variable {b low high R : Nat}

/-- Two fields and the rest, with each field taking on the one above it. -/
theorem merge_eq (hlow : low < b) :
    low + b * (high + b * R) + (low + b * (high + b * R)) / b =
      low + high + b * (high + R + b * R) := by
  rw [Nat.add_mul_div_left _ _ (by omega), Nat.div_eq_of_lt hlow]
  ring

theorem merge_mod (h : low + high < b) :
    (low + b * (high + b * R) + (low + b * (high + b * R)) / b) % b = low + high := by
  rw [merge_eq (by omega), Nat.add_mul_mod_self_left, Nat.mod_eq_of_lt h]

theorem merge_div (h : low + high < b) (hR : high + R % b < b) :
    (low + b * (high + b * R) + (low + b * (high + b * R)) / b) / (b * b) = R + R / b := by
  have hpos : 0 < b := by omega
  have hcarry : (high + R) / b = R / b :=
    calc (high + R) / b
        = (high + R % b + b * (R / b)) / b := by rw [Nat.add_assoc, Nat.mod_add_div]
      _ = R / b := by rw [Nat.add_mul_div_left _ _ hpos, Nat.div_eq_of_lt hR, Nat.zero_add]
  rw [merge_eq (by omega), ← Nat.div_div_eq_div_mul, Nat.add_mul_div_left _ _ hpos,
    Nat.div_eq_of_lt h, Nat.zero_add, Nat.add_mul_div_left _ _ hpos, hcarry, Nat.add_comm]

end Merge

/-- Each field takes on the field above it, and every other field is kept. -/
theorem add_shiftRight_and_mask (hf : ∀ d < 2 ^ w, f d ≤ c) (hc : 2 * c < 2 ^ w) :
    (mapFields w f (2 * n) x + mapFields w f (2 * n) x >>> w) &&& mask (2 * w) w n =
      mapFields (2 * w) (fun y => f (y % 2 ^ w) + f (y / 2 ^ w)) n x := by
  induction n generalizing x with
  | zero => rw [mask, Nat.and_zero, mapFields]
  | succ n ih =>
      have hpos := Nat.two_pow_pos w
      have hdouble : 2 ^ (2 * w) = 2 ^ w * 2 ^ w := by rw [Nat.two_mul, Nat.pow_add]
      have hm : 2 ^ w - 1 < 2 ^ (2 * w) := by
        have hle : 2 ^ w ≤ 2 ^ (2 * w) := Nat.pow_le_pow_right (by omega) (by omega)
        omega
      have hlow : f (x % 2 ^ w) ≤ c := hf _ (Nat.mod_lt _ hpos)
      have hhigh : f (x / 2 ^ w % 2 ^ w) ≤ c := hf _ (Nat.mod_lt _ hpos)
      have hrest := mapFields_mod_le (n := 2 * n) (x := x / 2 ^ (2 * w)) hf (by omega)
      have hquot : x / 2 ^ w / 2 ^ w = x / 2 ^ (2 * w) := by
        rw [Nat.div_div_eq_div_mul, hdouble]
      have hunfold : mapFields w f (2 * (n + 1)) x = f (x % 2 ^ w) +
          2 ^ w * (f (x / 2 ^ w % 2 ^ w) + 2 ^ w * mapFields w f (2 * n) (x / 2 ^ (2 * w))) := by
        rw [Nat.mul_succ, mapFields, mapFields, hquot]
      have hpair : f (x % 2 ^ (2 * w) % 2 ^ w) + f (x % 2 ^ (2 * w) / 2 ^ w) =
          f (x % 2 ^ w) + f (x / 2 ^ w % 2 ^ w) := by
        rw [hdouble, Nat.mod_mul_right_mod, Nat.mod_mul_right_div_self]
      rw [mask, and_add_mul _ _ _ hm, Nat.and_two_pow_sub_one_eq_mod, mapFields, hpair, ← ih,
        hunfold, Nat.shiftRight_eq_div_pow, Nat.shiftRight_eq_div_pow]
      generalize mapFields w f (2 * n) (x / 2 ^ (2 * w)) = R at hrest ⊢
      rw [merge_mod (by omega), hdouble, merge_div (by omega) (by omega)]

/-! ## Sums of fields -/

theorem sumFields_double (n x : Nat) :
    sumFields (2 * w) (fun y => f (y % 2 ^ w) + f (y / 2 ^ w)) n x = sumFields w f (2 * n) x := by
  induction n generalizing x with
  | zero => rfl
  | succ n ih =>
      have hdouble : 2 ^ (2 * w) = 2 ^ w * 2 ^ w := by rw [Nat.two_mul, Nat.pow_add]
      rw [sumFields, ih, Nat.mul_succ, sumFields, sumFields, Nat.div_div_eq_div_mul, hdouble,
        Nat.mod_mul_right_mod, Nat.mod_mul_right_div_self, Nat.add_assoc]

/-- The remainder by `2 ^ w - 1` adds the fields up. -/
theorem mapFields_mod (n x : Nat) :
    mapFields w f n x % (2 ^ w - 1) = sumFields w f n x % (2 ^ w - 1) := by
  induction n generalizing x with
  | zero => rfl
  | succ n ih =>
      have hone : 2 ^ w = 2 ^ w - 1 + 1 := by
        have hpos := Nat.two_pow_pos w
        omega
      have hshift : 2 ^ w * mapFields w f n (x / 2 ^ w) =
          (2 ^ w - 1) * mapFields w f n (x / 2 ^ w) + mapFields w f n (x / 2 ^ w) :=
        calc 2 ^ w * mapFields w f n (x / 2 ^ w)
            = (2 ^ w - 1 + 1) * mapFields w f n (x / 2 ^ w) := by rw [← hone]
          _ = _ := by rw [Nat.add_mul, Nat.one_mul]
      rw [mapFields, sumFields, hshift, ← Nat.add_assoc, Nat.add_right_comm,
        Nat.add_mul_mod_self_left, Nat.add_mod, ih, ← Nat.add_mod]

/-! ## Counting bits -/

/-- How many of the `n` lowest bits are set. -/
def ones (n x : Nat) : Nat := (List.range n).countP x.testBit

theorem ones_add (m n x : Nat) : ones (m + n) x = ones m (x % 2 ^ m) + ones n (x / 2 ^ m) := by
  have hlow : (List.range m).countP x.testBit = (List.range m).countP (x % 2 ^ m).testBit := by
    apply List.countP_congr
    intro i hi
    rw [Nat.testBit_mod_two_pow]
    simp [List.mem_range.mp hi]
  have hhigh : (List.range n).countP (x.testBit ∘ (m + ·)) =
      (List.range n).countP (x / 2 ^ m).testBit := by
    apply List.countP_congr
    intro i _
    rw [Function.comp_apply, Nat.testBit_div_two_pow, Nat.add_comm]
  rw [ones, List.range_add, List.countP_append, List.countP_map, hlow, hhigh, ones, ones]

theorem ones_le (n x : Nat) : ones n x ≤ n := by
  have hle : (List.range n).countP x.testBit ≤ (List.range n).length := List.countP_le_length
  rwa [List.length_range] at hle

/-- Counting field by field. -/
theorem sumFields_ones (w n x : Nat) : sumFields w (ones w) n x = ones (w * n) x := by
  induction n generalizing x with
  | zero => rfl
  | succ n ih => rw [sumFields, ih, Nat.mul_succ, Nat.add_comm (w * n), ones_add]

theorem ones_of_lt {m : Nat} (n : Nat) (h : x < 2 ^ m) : ones (m + n) x = ones m x := by
  have hzero : ones n 0 = 0 := by simp [ones]
  rw [ones_add, Nat.mod_eq_of_lt h, Nat.div_eq_of_lt h, hzero, Nat.add_zero]

/-- When every field holds the number of its own ones, adding neighbours and taking the
remainder counts them all. -/
theorem count_of_fields (n x : Nat) (hfield : 2 * w < 2 ^ w)
    (htotal : w * (2 * n) < 2 ^ (2 * w) - 1) :
    ((mapFields w (ones w) (2 * n) x + mapFields w (ones w) (2 * n) x >>> w) &&&
      mask (2 * w) w n) % (2 ^ (2 * w) - 1) = ones (w * (2 * n)) x := by
  rw [add_shiftRight_and_mask (fun d _ => ones_le w d) hfield, mapFields_mod, sumFields_double,
    sumFields_ones]
  exact Nat.mod_eq_of_lt (Nat.lt_of_le_of_lt (ones_le _ x) htotal)

end Snitchaser.Lib.Fields
