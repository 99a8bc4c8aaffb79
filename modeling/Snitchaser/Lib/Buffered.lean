import Mathlib.Tactic.Common
/-!
# A buffered log

A writer collects items in a buffer that has room for `room` of them.  A flush takes
what is pending as one segment.  Items that have to stay together go behind a flush if
there is no room for all of them; items that need not are put one by one.
-/

namespace Snitchaser.Lib.Buffered

variable {α : Type}

/-- The segments of the flushes so far, and what is pending. -/
@[ext] structure Log (α : Type) where
  segments : List (List α)
  pending : List α
  deriving DecidableEq, Repr

namespace Log

def empty : Log α := ⟨[], []⟩

def flush (l : Log α) : Log α := ⟨l.segments ++ [l.pending], []⟩

def push (l : Log α) (xs : List α) : Log α := { l with pending := l.pending ++ xs }

def put (room : Nat) (l : Log α) (xs : List α) : Log α :=
  if room < l.pending.length + xs.length then l.flush.push xs else l.push xs

def putAll (room : Nat) (l : Log α) (xs : List α) : Log α :=
  xs.foldl (fun l x => l.put room [x]) l

/-- All the log was given. -/
def contents (l : Log α) : List α := l.segments.flatten ++ l.pending

section Contents

variable {room : Nat} {l : Log α} {xs ys : List α}

@[simp] theorem contents_flush : l.flush.contents = l.contents := by
  simp [contents, flush]

@[simp] theorem contents_push : (l.push xs).contents = l.contents ++ xs := by
  simp [contents, push]

theorem contents_put : (l.put room xs).contents = l.contents ++ xs := by
  unfold put
  split_ifs
  · rw [contents_push, contents_flush]
  · exact contents_push

theorem contents_putAll : (l.putAll room xs).contents = l.contents ++ xs := by
  induction xs generalizing l with
  | nil => exact (List.append_nil _).symm
  | cons x xs ih =>
      calc ((l.put room [x]).putAll room xs).contents
          = (l.put room [x]).contents ++ xs := ih
        _ = l.contents ++ (x :: xs) := by rw [contents_put, List.append_assoc]; rfl

end Contents

/-! ## Putting many items at once -/

section Chunks

variable {room : Nat} {l : Log α} {xs ys : List α}

theorem putAll_append : l.putAll room (xs ++ ys) = (l.putAll room xs).putAll room ys :=
  List.foldl_append

theorem push_push : (l.push xs).push ys = l.push (xs ++ ys) := by
  ext1
  · rfl
  · exact List.append_assoc _ _ _

theorem push_nil : l.push [] = l := by
  ext1
  · rfl
  · exact List.append_nil _

/-- As long as there is room nothing is flushed. -/
theorem putAll_of_le (h : l.pending.length + xs.length ≤ room) : l.putAll room xs = l.push xs := by
  induction xs generalizing l with
  | nil => exact push_nil.symm
  | cons x xs ih =>
      rw [List.length_cons] at h
      have hput : l.put room [x] = l.push [x] := if_neg (by simp; omega)
      have hlen : (l.push [x]).pending.length = l.pending.length + 1 := by simp [push]
      calc (l.put room [x]).putAll room xs
          = (l.push [x]).putAll room xs := by rw [hput]
        _ = (l.push [x]).push xs := ih (by omega)
        _ = l.push (x :: xs) := push_push

/-- A full buffer is flushed before the next item. -/
theorem putAll_of_full (hroom : 0 < room) (hfull : l.pending.length = room) (hne : xs ≠ []) :
    l.putAll room xs = l.flush.putAll room xs := by
  cases xs with
  | nil => exact absurd rfl hne
  | cons x xs =>
      have hput : l.put room [x] = l.flush.push [x] := if_pos (by simp; omega)
      have hflushed : l.flush.put room [x] = l.flush.push [x] := if_neg (by simp [flush]; omega)
      calc (l.put room [x]).putAll room xs
          = (l.flush.put room [x]).putAll room xs := by rw [hput, hflushed]
        _ = l.flush.putAll room (x :: xs) := rfl

end Chunks

end Log

/-! ## Segments that were lost -/

/-- What is left of segments that are numbered from `n` on. -/
def kept (keep : Nat → Bool) : Nat → List (List α) → List α
  | _, [] => []
  | n, seg :: segs => (if keep n then seg else []) ++ kept keep (n + 1) segs

section Kept

variable {keep : Nat → Bool} {n : Nat} {seg : List α} {segs : List (List α)}

theorem kept_concat : kept keep n (segs ++ [seg]) =
    kept keep n segs ++ if keep (n + segs.length) then seg else [] := by
  induction segs generalizing n with
  | nil => simp [kept]
  | cons first segs ih =>
      rw [List.cons_append, kept, kept, ih, List.length_cons, List.append_assoc,
        show n + 1 + segs.length = n + (segs.length + 1) by omega]

theorem kept_eq_nil_iff :
    kept keep n segs = [] ↔ ∀ i seg, segs[i]? = some seg → keep (n + i) = true → seg = [] := by
  induction segs generalizing n with
  | nil => simp [kept]
  | cons first segs ih =>
      rw [kept, List.append_eq_nil_iff, ih]
      constructor
      · rintro ⟨hfirst, hrest⟩ i seg hget hkeep
        cases i with
        | zero =>
            obtain rfl : first = seg := by simpa using hget
            rwa [if_pos (by simpa using hkeep)] at hfirst
        | succ i =>
            exact hrest i seg (by simpa using hget) (by rwa [Nat.add_assoc, Nat.add_comm 1])
      · intro h
        constructor
        · split_ifs with hkeep
          · exact h 0 first rfl hkeep
          · rfl
        · intro i seg hget hkeep
          refine h (i + 1) seg (by simpa using hget) ?_
          rwa [Nat.add_comm i, ← Nat.add_assoc]

end Kept

end Snitchaser.Lib.Buffered
