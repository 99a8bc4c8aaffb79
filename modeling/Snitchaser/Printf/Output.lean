import Snitchaser.Printf.Buffer
/-!
# What `vsnprintf` leaves in the buffer and returns

The formatter produces a text that depends on the format and the arguments only.  The size
of the buffer decides how much of the text is stored, and never what is returned.  `%n`
stores through its argument, wherever that points, so the memory is described for formats
without it.
-/

namespace Snitchaser.Printf.Output

open Snitchaser.Defs (sub32_add32)
open Snitchaser.Lib.ByteMemory
open Snitchaser.Lib.Program
open Snitchaser.Printf.Buffer (actions printed isCount formatLeft_lt stored vsnprintfLoop_spec)
open Snitchaser.Printf.Model
open Snitchaser.Proc.Vsscanf (Str ch)

/-! ## The buffer -/

section Law

variable {rom : Rom} {describe : Str → Nat → Str} {va : Nat → Nat} {fmt text : Str}
variable {mem : Memory} {buf size : Nat}

/-- A store over the byte that was stored last. -/
theorem writeBytes_last (m : Memory) (a : Nat) (xs : Str) (c d : UInt8) :
    writeBytes (writeBytes m a (xs ++ [c])) (a + xs.length) [d] = writeBytes m a (xs ++ [d]) := by
  rw [← writeBytes_append, ← writeBytes_append]
  ext x
  unfold writeBytes
  simp only [List.length_singleton]
  split_ifs <;> rfl

/-- What the last two stores make of the text that was cut to the size of the buffer. -/
theorem terminated (hsize : 0 < size) :
    (if buf + text.length < buf + size then
        writeBytes (writeBytes mem buf (text.take size)) (buf + text.length) [0]
      else writeBytes (writeBytes mem buf (text.take size)) (buf + size - 1) [0]) =
      writeBytes mem buf (text.take (size - 1) ++ [0]) := by
  by_cases hfits : text.length < size
  · rw [if_pos (by omega), List.take_of_length_le (by omega), List.take_of_length_le (by omega),
      writeBytes_append]
  · have hlast : size - 1 < text.length := by omega
    have hcut : text.take size = text.take (size - 1) ++ [text[size - 1]] := by
      rw [← List.take_succ_eq_append_getElem hlast, Nat.sub_add_cancel hsize]
    have hlen : buf + size - 1 = buf + (text.take (size - 1)).length := by
      rw [List.length_take_of_le (by omega)]
      omega
    rw [if_neg (by omega), hcut, hlen, writeBytes_last]

section

variable (rom describe va fmt)

/-- What the rounds over a whole format do. -/
def formatActions : List Action := actions rom describe va (2 * fmt.length + 2) ⟨fmt, noSpec, 0⟩

/-- The text of a format. -/
def formatted : Str := (formatActions rom describe va fmt).flatMap printed

/-- No conversion of the format is `%n`. -/
def CountFree : Prop := ∀ a ∈ formatActions rom describe va fmt, isCount a = false

instance : Decidable (CountFree rom describe va fmt) :=
  inferInstanceAs (Decidable (∀ a ∈ formatActions rom describe va fmt, isCount a = false))

end

/-- The value returned is the length of the text, and what is stored is the text, unless it
takes `str` around. -/
theorem vsnprintf_spec (mem : Memory) (fmt : Str) (hsize : size < 2 ^ 31) (hbuf : buf < 2 ^ 32) :
    ∃ p, vsnprintf rom describe va mem buf size fmt = .ok p ∧
      p.ret = (formatted rom describe va fmt).length % 2 ^ 32 ∧
      (CountFree rom describe va fmt → buf + size < 2 ^ 32 →
        buf + (formatted rom describe va fmt).length < 2 ^ 32 →
        p.mem = if 0 < size then
          writeBytes mem buf ((formatted rom describe va fmt).take (size - 1) ++ [0]) else mem) := by
  obtain ⟨o, hloop, hstr, hmem⟩ := @vsnprintfLoop_spec rom describe va
    (if (buf + size) % 2 ^ 32 < buf then 2 ^ 32 - 1 else (buf + size) % 2 ^ 32) buf
    (2 * fmt.length + 2) ⟨fmt, noSpec, 0⟩ ⟨mem, buf⟩ (formatLeft_lt fmt noSpec) hbuf
  unfold vsnprintf
  rw [if_neg (by omega)]
  dsimp only
  rw [hloop, ok_bind]
  refine ⟨_, rfl, ?_, ?_⟩
  · dsimp only
    rw [hstr]
    exact sub32_add32 hbuf _
  · intro hcounts hend hwrap
    have hmod : (buf + size) % 2 ^ 32 = buf + size := Nat.mod_eq_of_lt hend
    have hnowrap : ¬ buf + size < buf := by omega
    rw [hmem hcounts hwrap]
    dsimp only [stored]
    rw [hmod, if_neg hnowrap, if_neg hnowrap, Nat.add_sub_cancel_left]
    by_cases hpos : 0 < size
    · rw [if_pos hpos, if_pos hpos, ← terminated hpos]
      rfl
    · have hzero : size = 0 := by omega
      rw [if_neg hpos, if_neg hpos, hzero, List.take_zero, writeBytes_nil]

theorem vsnprintf_eq (hcounts : CountFree rom describe va fmt) (hsize : size < 2 ^ 31)
    (hend : buf + size < 2 ^ 32) (hwrap : buf + (formatted rom describe va fmt).length < 2 ^ 32) :
    vsnprintf rom describe va mem buf size fmt =
      .ok ⟨if 0 < size then
          writeBytes mem buf ((formatted rom describe va fmt).take (size - 1) ++ [0]) else mem,
        (formatted rom describe va fmt).length⟩ := by
  obtain ⟨⟨mem', ret⟩, hrun, hret, hmem⟩ :=
    @vsnprintf_spec rom describe va buf size mem fmt hsize (by omega)
  have hmod : ret = (formatted rom describe va fmt).length :=
    hret.trans (Nat.mod_eq_of_lt (by omega))
  rw [hrun, hmod, ← hmem hcounts hend hwrap]

/-- `vsnprintf` returns the length of the text, whatever the buffer.  Without `%n`, and if
`str` does not go around, it stores the text, or the beginning of it that leaves room for the
zero byte, and no other byte changes. -/
theorem vsnprintf_law (fmt : Str) :
    (∀ mem buf size, size < 2 ^ 31 → buf < 2 ^ 32 →
      ∃ p, vsnprintf rom describe va mem buf size fmt = .ok p ∧
        p.ret = (formatted rom describe va fmt).length % 2 ^ 32) ∧
    (CountFree rom describe va fmt → ∀ mem buf size, size < 2 ^ 31 → buf + size < 2 ^ 32 →
      buf + (formatted rom describe va fmt).length < 2 ^ 32 →
      vsnprintf rom describe va mem buf size fmt =
        .ok ⟨if 0 < size then
            writeBytes mem buf ((formatted rom describe va fmt).take (size - 1) ++ [0]) else mem,
          (formatted rom describe va fmt).length⟩) := by
  constructor
  · intro mem buf size hsize hbuf
    obtain ⟨p, hrun, hret, -⟩ := @vsnprintf_spec rom describe va buf size mem fmt hsize hbuf
    exact ⟨p, hrun, hret⟩
  · exact fun hcounts _ _ _ hsize hend hwrap => vsnprintf_eq hcounts hsize hend hwrap

/-- `%d!`. -/
def decimalFormat : Str := [ch '%', ch 'd', ch '!']

/-- Arguments that point to no string. -/
def emptyRom : Rom := ⟨fun _ => 0, fun _ => ⟨0, by decide, rfl⟩⟩

theorem countFree_decimalFormat :
    CountFree emptyRom (fun _ _ => []) (fun _ => 42) decimalFormat := by
  decide

theorem vsnprintf_law_decimalFormat :
    vsnprintf emptyRom (fun _ _ => []) (fun _ => 42) (fun _ => 7) 0x1000 3 decimalFormat =
      .ok ⟨writeBytes (fun _ => 7) 0x1000 [ch '4', ch '2', 0], 3⟩ :=
  (vsnprintf_law decimalFormat).2 countFree_decimalFormat (fun _ => 7) 0x1000 3 (by decide)
    (by decide) (by decide)

/-! ## The descriptor -/

/-- The bytes that a buffer of `size` bytes lets through: a text that is cut ends in a zero
byte, which is written too. -/
theorem readBytes_terminated (hpos : 0 < size) :
    readBytes (writeBytes mem buf (text.take (size - 1) ++ [0])) buf
        (if size < text.length then size else text.length) =
      if text.length < size then text else text.take (size - 1) ++ [0] := by
  by_cases hfits : text.length < size
  · rw [if_pos hfits, if_neg (by omega), List.take_of_length_le (by omega), ← writeBytes_append,
      readBytes_writeBytes_after (Nat.le_refl _), readBytes_writeBytes_same]
  · have hlen : (if size < text.length then size else text.length) =
        (text.take (size - 1) ++ [0]).length := by
      rw [List.length_append, List.length_take_of_le (by omega), List.length_singleton]
      split <;> omega
    rw [if_neg hfits, hlen, readBytes_writeBytes_same]

/-- A line that is cut reaches the descriptor with the zero byte at its end. -/
theorem vfdbnprintf_writes (hcounts : CountFree rom describe va fmt) (hsize : size < 2 ^ 31)
    (hend : buf + size < 2 ^ 32) (hpos : 0 < size)
    (hlen : (formatted rom describe va fmt).length < 2 ^ 31)
    (hwrap : buf + (formatted rom describe va fmt).length < 2 ^ 32) :
    vfdbnprintf rom describe va mem buf size fmt =
      .ok (if formatted rom describe va fmt = [] then none
        else some (if (formatted rom describe va fmt).length < size then formatted rom describe va fmt
          else (formatted rom describe va fmt).take (size - 1) ++ [0])) := by
  unfold vfdbnprintf
  rw [vsnprintf_eq hcounts hsize hend hwrap, ok_bind]
  dsimp only
  rw [if_pos hpos, readBytes_terminated hpos]
  by_cases hnil : formatted rom describe va fmt = []
  · rw [if_pos hnil, if_neg (by rw [hnil, List.length_nil]; omega)]
    rfl
  · rw [if_neg hnil, if_pos ⟨List.length_pos_iff.mpr hnil, hlen⟩]
    rfl

theorem vfdbnprintf_writes_decimalFormat :
    vfdbnprintf emptyRom (fun _ _ => []) (fun _ => 42) (fun _ => 7) 0x1000 3 decimalFormat =
      .ok (some [ch '4', ch '2', 0]) :=
  vfdbnprintf_writes countFree_decimalFormat (by decide) (by decide) (by decide) (by decide)
    (by decide)

end Law

end Snitchaser.Printf.Output
