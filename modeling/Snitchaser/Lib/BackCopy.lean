import Mathlib.Data.List.GetD
import Mathlib.Tactic.Common
/-!
# Copies from further back

The second operation of a dictionary coder, besides literals: append `n` elements, each
the one that stands `off` places before the end at that moment.  With `n > off` the copy
reads what it has written itself.
-/

namespace Snitchaser.Lib.BackCopy

variable {α : Type} {n : Nat}

/-- The first `n` values of a sequence. -/
def upTo (f : Nat → α) (n : Nat) : List α := (List.range n).map f

@[simp] theorem length_upTo (f : Nat → α) : (upTo f n).length = n := by
  simp [upTo]

theorem upTo_succ (f : Nat → α) : upTo f (n + 1) = upTo f n ++ [f n] := by
  simp [upTo, List.range_succ]

theorem getD_upTo [Inhabited α] {f : Nat → α} {i : Nat} (hi : i < n) : (upTo f n).getD i default = f i := by
  rw [List.getD_eq_getElem _ _ (by simpa using hi)]
  simp [upTo]

section Copy

variable [Inhabited α] {off : Nat} {out : List α}

def copyOne (off : Nat) (out : List α) : List α :=
  out ++ [out.getD (out.length - off) default]

def copyBack (off : Nat) : Nat → List α → List α
  | 0, out => out
  | n + 1, out => copyBack off n (copyOne off out)

@[simp] theorem length_copyOne : (copyOne off out).length = out.length + 1 := by
  simp [copyOne]

@[simp] theorem length_copyBack : (copyBack off n out).length = out.length + n := by
  induction n generalizing out with
  | zero => rfl
  | succ n ih =>
      rw [copyBack, ih, length_copyOne]
      omega

theorem copyBack_add (m n : Nat) :
    copyBack off (m + n) out = copyBack off n (copyBack off m out) := by
  induction m generalizing out with
  | zero => rw [Nat.zero_add, copyBack]
  | succ m ih => rw [Nat.succ_add, copyBack, ih, copyBack]

theorem copyBack_succ : copyBack off (n + 1) out = copyOne off (copyBack off n out) :=
  copyBack_add n 1

/-- A copy that does not reach what it writes moves a block. -/
theorem copyBack_block (hn : n ≤ off) (hoff : off ≤ out.length) :
    copyBack off n out = out ++ upTo (fun i => out.getD (out.length - off + i) default) n := by
  induction n with
  | zero => simp [copyBack, upTo]
  | succ n ih =>
      have hbefore : out.length - off + n < out.length := by omega
      have hget : (copyBack off n out).getD ((copyBack off n out).length - off) default =
          out.getD (out.length - off + n) default := by
        rw [length_copyBack, ih (by omega), Nat.sub_add_comm hoff,
          List.getD_append _ _ _ _ hbefore]
      rw [copyBack_succ, copyOne, hget, ih (by omega), upTo_succ, List.append_assoc]

/-- A stretch of a sequence that repeats what stands `off` places before is a copy. -/
theorem copyBack_repeats {f : Nat → α} {p : Nat} (hpos : 0 < off) (hoff : off ≤ p)
    (hsame : ∀ i < n, f (p + i) = f (p + i - off)) :
    copyBack off n (upTo f p) = upTo f (p + n) := by
  induction n with
  | zero => rfl
  | succ n ih =>
      have hprev := ih fun i hi => hsame i (Nat.lt_succ_of_lt hi)
      rw [copyBack_succ, hprev, copyOne, length_upTo, getD_upTo (by omega),
        ← hsame n (Nat.lt_succ_self n), ← upTo_succ, Nat.add_assoc]

end Copy

end Snitchaser.Lib.BackCopy
