import Mathlib.Data.List.GetD
import Mathlib.Tactic.Common
/-!
# Byte-addressed memory

A total map from addresses to bytes, with block reads and writes.  Ranges are
half open; the lemmas say which part of a read a write decides.
-/

namespace Snitchaser.Lib.ByteMemory

/-- The byte at every address. -/
abbrev Memory := Nat → UInt8

/-- The `n` bytes from `a` on. -/
def readBytes (m : Memory) (a n : Nat) : List UInt8 :=
  (List.range n).map fun i => m (a + i)

/-- Store `bs` from `a` on. -/
def writeBytes (m : Memory) (a : Nat) (bs : List UInt8) : Memory := fun x =>
  if a ≤ x ∧ x < a + bs.length then bs.getD (x - a) 0 else m x

@[simp] theorem length_readBytes (m : Memory) (a n : Nat) :
    (readBytes m a n).length = n := by
  simp [readBytes]

@[simp] theorem readBytes_zero (m : Memory) (a : Nat) : readBytes m a 0 = [] := rfl

theorem getElem?_readBytes {m : Memory} {a n i : Nat} (h : i < n) :
    (readBytes m a n)[i]? = some (m (a + i)) := by
  simp [readBytes, h]

theorem readBytes_add (m : Memory) (a n k : Nat) :
    readBytes m a (n + k) = readBytes m a n ++ readBytes m (a + n) k := by
  simp [readBytes, List.range_add, Function.comp_def, Nat.add_assoc]

theorem readBytes_succ (m : Memory) (a n : Nat) :
    readBytes m a (n + 1) = m a :: readBytes m (a + 1) n := by
  rw [Nat.add_comm n 1, readBytes_add]
  rfl

theorem readBytes_congr {m m' : Memory} {a n : Nat}
    (h : ∀ i < n, m (a + i) = m' (a + i)) : readBytes m a n = readBytes m' a n := by
  apply List.map_congr_left
  intro i hi
  exact h i (by simpa using hi)

theorem writeBytes_of_lt {m : Memory} {a x : Nat} {bs : List UInt8} (h : x < a) :
    writeBytes m a bs x = m x := by
  unfold writeBytes
  rw [if_neg (by omega)]

@[simp] theorem readBytes_writeBytes_same (m : Memory) (a : Nat) (bs : List UInt8) :
    readBytes (writeBytes m a bs) a bs.length = bs := by
  apply List.ext_getElem?
  intro i
  by_cases hi : i < bs.length
  · rw [getElem?_readBytes hi, List.getElem?_eq_getElem hi]
    unfold writeBytes
    rw [if_pos (by omega), Nat.add_sub_cancel_left, List.getD_eq_getElem _ _ hi]
  · rw [List.getElem?_eq_none (by simpa using hi), List.getElem?_eq_none (by simpa using hi)]

/-- A write at or past the end of the read does not show in it. -/
theorem readBytes_writeBytes_after {m : Memory} {a n b : Nat} {bs : List UInt8}
    (h : a + n ≤ b) : readBytes (writeBytes m b bs) a n = readBytes m a n := by
  apply readBytes_congr
  intro i hi
  exact writeBytes_of_lt (by omega)

/-- Storing right behind what a buffer already holds appends to its contents. -/
theorem readBytes_writeBytes_append (m : Memory) (a n : Nat) (bs : List UInt8) :
    readBytes (writeBytes m (a + n) bs) a (n + bs.length) = readBytes m a n ++ bs := by
  rw [readBytes_add, readBytes_writeBytes_after (Nat.le_refl _), readBytes_writeBytes_same]

@[simp] theorem writeBytes_nil (m : Memory) (a : Nat) : writeBytes m a [] = m := by
  ext x
  unfold writeBytes
  rw [if_neg (by simp)]

theorem writeBytes_append (m : Memory) (a : Nat) (xs ys : List UInt8) :
    writeBytes (writeBytes m a xs) (a + xs.length) ys = writeBytes m a (xs ++ ys) := by
  ext x
  unfold writeBytes
  rw [List.length_append]
  by_cases hlow : x < a + xs.length
  · rw [if_neg (by omega)]
    by_cases ha : a ≤ x
    · rw [if_pos ⟨ha, hlow⟩, if_pos (by omega), List.getD_append _ _ _ _ (by omega)]
    · rw [if_neg (by omega), if_neg (by omega)]
  · by_cases hhigh : x < a + xs.length + ys.length
    · rw [if_pos (by omega), if_pos (by omega), List.getD_append_right _ _ _ _ (by omega),
        Nat.sub_sub]
    · rw [if_neg (by omega), if_neg (by omega), if_neg (by omega)]

/-- The bytes `bs` are at `a`. -/
def BytesAt (m : Memory) (a : Nat) (bs : List UInt8) : Prop := readBytes m a bs.length = bs

instance (m : Memory) (a : Nat) (bs : List UInt8) : Decidable (BytesAt m a bs) :=
  inferInstanceAs (Decidable (readBytes m a bs.length = bs))

theorem bytesAt_append {m : Memory} {a : Nat} {xs ys : List UInt8} :
    BytesAt m a (xs ++ ys) ↔ BytesAt m a xs ∧ BytesAt m (a + xs.length) ys := by
  rw [BytesAt, List.length_append, readBytes_add]
  constructor
  · intro h
    exact List.append_inj h (length_readBytes m a xs.length)
  · rintro ⟨hxs, hys⟩
    rw [hxs, hys]

theorem bytesAt_cons {m : Memory} {a : Nat} {b : UInt8} {bs : List UInt8} :
    BytesAt m a (b :: bs) ↔ m a = b ∧ BytesAt m (a + 1) bs := by
  rw [BytesAt, List.length_cons, readBytes_succ, List.cons.injEq]
  exact Iff.rfl

end Snitchaser.Lib.ByteMemory
