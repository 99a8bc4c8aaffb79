import Snitchaser.Lib.ByteMemory
import Snitchaser.Lib.LittleEndian
/-!
# Words in byte memory

32-bit little-endian words, and lists of words one behind the other.
-/

namespace Snitchaser.Lib.Words

open Snitchaser.Lib.ByteMemory
open Snitchaser.Lib.LittleEndian

def word (m : Memory) (a : Nat) : Nat := leNat (readBytes m a 4)

def setWord (m : Memory) (a v : Nat) : Memory := writeBytes m a (leBytes 4 v)

/-- The words `ws` are at `a`, `a + 4`, … -/
def WordsAt (m : Memory) : Nat → List Nat → Prop
  | _, [] => True
  | a, w :: ws => word m a = w ∧ WordsAt m (a + 4) ws

instance decidableWordsAt (m : Memory) : (a : Nat) → (ws : List Nat) → Decidable (WordsAt m a ws)
  | _, [] => isTrue trivial
  | a, w :: ws =>
      have := decidableWordsAt m (a + 4) ws
      inferInstanceAs (Decidable (word m a = w ∧ WordsAt m (a + 4) ws))

variable {m m' : Memory} {a b v : Nat} {ws : List Nat}

theorem word_lt (m : Memory) (a : Nat) : word m a < 2 ^ 32 := by
  have hlt := leNat_lt (readBytes m a 4)
  rwa [length_readBytes] at hlt

theorem word_congr (h : ∀ i < 4, m' (a + i) = m (a + i)) : word m' a = word m a := by
  rw [word, word, readBytes_congr h]

theorem word_setWord_same (h : v < 2 ^ 32) : word (setWord m a v) a = v := by
  have hread := readBytes_writeBytes_same m a (leBytes 4 v)
  rw [length_leBytes] at hread
  rw [word, setWord, hread, leNat_leBytes h]

/-- Bytes outside of the word keep their value. -/
theorem setWord_outside {x : Nat} (h : x < a ∨ a + 4 ≤ x) : setWord m a v x = m x := by
  rw [setWord, writeBytes, length_leBytes, if_neg (by omega)]

theorem word_setWord_apart (h : b + 4 ≤ a ∨ a + 4 ≤ b) : word (setWord m a v) b = word m b := by
  apply word_congr
  intro i hi
  exact setWord_outside (by omega)

theorem wordsAt_append (xs ys : List Nat) :
    WordsAt m a (xs ++ ys) ↔ WordsAt m a xs ∧ WordsAt m (a + 4 * xs.length) ys := by
  induction xs generalizing a with
  | nil => simp [WordsAt]
  | cons x xs ih =>
      rw [List.cons_append, WordsAt, WordsAt, ih, and_assoc, List.length_cons,
        show a + 4 + 4 * xs.length = a + 4 * (xs.length + 1) by omega]

theorem WordsAt.word_eq (h : WordsAt m a ws) (i : Nat) (hi : i < ws.length) :
    word m (a + 4 * i) = ws[i] := by
  induction ws generalizing a i with
  | nil => cases hi
  | cons w ws ih =>
      cases i with
      | zero => exact h.1
      | succ i =>
          rw [show a + 4 * (i + 1) = a + 4 + 4 * i by omega]
          exact ih h.2 i (Nat.lt_of_succ_lt_succ hi)

/-- The frame rule: words that are not written to are still there. -/
theorem WordsAt.frame (h : WordsAt m a ws)
    (hsame : ∀ x, a ≤ x → x < a + 4 * ws.length → m' x = m x) : WordsAt m' a ws := by
  induction ws generalizing a with
  | nil => trivial
  | cons w ws ih =>
      rw [List.length_cons] at hsame
      constructor
      · rw [word_congr fun i hi => hsame (a + i) (by omega) (by omega)]
        exact h.1
      · exact ih h.2 fun x hlo hhi => hsame x (by omega) (by omega)

theorem WordsAt.setWord_outside (h : WordsAt m a ws) (hout : b + 4 ≤ a ∨ a + 4 * ws.length ≤ b) :
    WordsAt (setWord m b v) a ws :=
  h.frame fun _ _ _ => Words.setWord_outside (by omega)

/-! ## Tables of pairs -/

def pairWords (es : List (Nat × Nat)) : List Nat := es.flatMap fun e => [e.1, e.2]

theorem length_pairWords (es : List (Nat × Nat)) : (pairWords es).length = 2 * es.length := by
  induction es with
  | nil => rfl
  | cons e es ih =>
      change (pairWords es).length + 2 = 2 * (es.length + 1)
      omega

theorem wordsAt_pairWords_cons {e : Nat × Nat} {es : List (Nat × Nat)} :
    WordsAt m a (pairWords (e :: es) ++ ws) ↔
      word m a = e.1 ∧ word m (a + 4) = e.2 ∧ WordsAt m (a + 8) (pairWords es ++ ws) :=
  Iff.rfl

end Snitchaser.Lib.Words
