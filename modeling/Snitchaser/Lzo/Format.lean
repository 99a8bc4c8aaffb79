import Snitchaser.Lib.BackCopy
import Snitchaser.Lzo.Model
/-!
# The format

What a compressed stream says, apart from how it is written or read: literals, and matches
that repeat what has been produced, each followed by literals.  Up to three literals behind
a match are counted in the low bits of the last byte but one of its code.
-/

namespace Snitchaser.Lzo.Format

open Snitchaser.Defs
open Snitchaser.Lib.BackCopy
open Snitchaser.Lzo.Model

/-! ## Codes -/

/-- A length that is `most` at most stands in the first byte. -/
def lengthCode (marker most len : Nat) : List UInt8 :=
  if len ≤ most then [UInt8.ofNat (marker + (len - 2))]
  else UInt8.ofNat marker :: lengthBytes (len - most)

/-- The code of a match that `k` literals follow. -/
def matchBytes (off len k : Nat) : List UInt8 :=
  if off ≤ m2MaxOffset ∧ len ≤ m2MaxLen then
    [UInt8.ofNat ((len - 1) * 32 + (off - 1) % 8 * 4 + k), UInt8.ofNat ((off - 1) / 8)]
  else if off ≤ m3MaxOffset then
    lengthCode m3Marker 33 len ++
      [UInt8.ofNat ((off - 1) % 64 * 4 + k), UInt8.ofNat ((off - 1) / 64)]
  else
    lengthCode (m4Marker + (off - 0x4000) / 0x4000 * 8) m4MaxLen len ++
      [UInt8.ofNat ((off - 0x4000) % 64 * 4 + k), UInt8.ofNat ((off - 0x4000) / 64 % 256)]

/-- A run of four literals or more. -/
def runBytes (lits : List UInt8) : List UInt8 :=
  if lits.length ≤ 18 then UInt8.ofNat (lits.length - 3) :: lits
  else 0 :: lengthBytes (lits.length - 18) ++ lits

/-- A match and the literals behind it. -/
def groupBytes (off len : Nat) (lits : List UInt8) : List UInt8 :=
  if lits.length ≤ 3 then matchBytes off len lits.length ++ lits
  else matchBytes off len 0 ++ runBytes lits

/-- The end of a stream. -/
def eofBytes : List UInt8 := [17, 0, 0]

/-! ## Streams -/

/-- A match that can be written behind `before` bytes and is no longer than what it
stands for. -/
structure MatchOk (off len before : Nat) : Prop where
  off_pos : 0 < off
  off_le : off ≤ before
  off_max : off ≤ m4MaxOffset
  three_le : 3 ≤ len
  gain : m2MaxOffset < off → 4 ≤ len

/-- The bytes, up to the end mark, and what they stand for. -/
inductive Coded : List UInt8 → List UInt8 → Prop
  | empty : Coded [] []
  | short {lits : List UInt8} (hpos : 0 < lits.length) (hle : lits.length ≤ 238) :
      Coded (UInt8.ofNat (17 + lits.length) :: lits) lits
  | run {lits : List UInt8} (hfour : 4 ≤ lits.length) : Coded (runBytes lits) lits
  | group {bytes out lits : List UInt8} {off len : Nat} (hcoded : Coded bytes out)
      (hmatch : MatchOk off len out.length) :
      Coded (bytes ++ groupBytes off len lits) (copyBack off len out ++ lits)

/-! ## Sizes -/

theorem length_lengthBytes (n : Nat) : (lengthBytes n).length = (n - 1) / 255 + 1 := by
  fun_induction lengthBytes n with
  | case1 n h ih =>
      rw [List.length_cons, ih]
      omega
  | case2 n h =>
      rw [List.length_singleton]
      omega

theorem length_lengthCode (marker most len : Nat) :
    (lengthCode marker most len).length = if len ≤ most then 1 else (len - most - 1) / 255 + 2 := by
  unfold lengthCode
  split
  · rfl
  · rw [List.length_cons, length_lengthBytes]

theorem length_runBytes_le (lits : List UInt8) :
    (runBytes lits).length ≤ lits.length + 2 + (lits.length - 19) / 255 := by
  unfold runBytes
  split
  · rw [List.length_cons]
    omega
  · rw [List.length_append, List.length_cons, length_lengthBytes]
    omega

theorem length_matchBytes_lt {off len before : Nat} (h : MatchOk off len before) (k : Nat) :
    (matchBytes off len k).length < len := by
  have hthree := h.three_le
  unfold matchBytes
  split_ifs with h2 h3
  · exact hthree
  · have hfour : 4 ≤ len := by
      by_cases hoff : off ≤ m2MaxOffset
      · have : ¬ len ≤ m2MaxLen := fun hle => h2 ⟨hoff, hle⟩
        unfold m2MaxLen at this
        omega
      · exact h.gain (by omega)
    rw [List.length_append, length_lengthCode]
    simp only [List.length_cons, List.length_nil]
    split <;> omega
  · have hfour : 4 ≤ len := h.gain (by unfold m2MaxOffset; unfold m3MaxOffset at h3; omega)
    rw [List.length_append, length_lengthCode]
    have hmost : m4MaxLen = 9 := rfl
    simp only [List.length_cons, List.length_nil]
    split <;> omega

/-- Every match makes up for the length of the literals behind it, but for one byte in
sixteen. -/
theorem length_groupBytes_le {off len before : Nat} (h : MatchOk off len before)
    (lits : List UInt8) :
    16 * (groupBytes off len lits).length ≤ 17 * (len + lits.length) := by
  have hlt := length_matchBytes_lt h
  have hthree := h.three_le
  unfold groupBytes
  split
  · have := hlt lits.length
    rw [List.length_append]
    omega
  · have := hlt 0
    rw [List.length_append]
    unfold runBytes
    split
    · rw [List.length_cons]
      omega
    · rw [List.length_append, List.length_cons, length_lengthBytes]
      omega

theorem Coded.length_le {bytes out : List UInt8} (h : Coded bytes out) :
    16 * bytes.length ≤ 17 * out.length + 32 := by
  induction h with
  | empty => simp
  | short hpos hle =>
      rw [List.length_cons]
      omega
  | @run lits hfour =>
      have := length_runBytes_le lits
      omega
  | @group bytes out lits off len _ hmatch ih =>
      have := length_groupBytes_le hmatch lits
      rw [List.length_append, List.length_append, length_copyBack]
      omega

end Snitchaser.Lzo.Format
