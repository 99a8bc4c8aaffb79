import Mathlib.Data.List.DropRight
import Snitchaser.Proc.Scanning
import Snitchaser.Proc.Text
/-!
# Scanning a line

What `sscanf` makes of a line of the map, of the beginning of one, and of what
follows the line: the blank before `%n` also matches the newline.
-/

namespace Snitchaser.Proc.Line

open Snitchaser.Lib.Program
open Snitchaser.Proc.Maps
open Snitchaser.Proc.Scanning
open Snitchaser.Proc.Text
open Snitchaser.Proc.Vsscanf

/-! ## The end of the format -/

/-- `" %n"`. -/
def countFormat : Str := [32, ch '%', ch 'n']

/-- `" %*d %n"`. -/
def inodeFormat : Str := 32 :: ch '%' :: ch '*' :: ch 'd' :: countFormat

/-- `"%*2x %*d %n"`. -/
def minorFormat : Str := ch '%' :: ch '*' :: ch '2' :: ch 'x' :: inodeFormat

/-- `" %*2x:%*2x %*d %n"`, the format from the device on. -/
def tailFormat : Str := 32 :: ch '%' :: ch '*' :: ch '2' :: ch 'x' :: ch ':' :: minorFormat

/-- Where `%n` is reached: behind the device, the inode and blanks. -/
def afterFields (rest : Str) : Str :=
  skipSpaces (skipWord (skipSpaces (skipWord (skipSpaces rest))))

/-- What `%n` stores: nothing at the end of the string. -/
def countAt (buf r : Str) : List Store := if peek r = 0 then [] else [.count (offsetOf buf r)]

section Tail

variable {buf rest : Str} {n fuel : Nat} {st : List Store}

theorem skipSpaces_nul (h : peek rest = 0) : skipSpaces rest = rest :=
  skipSpaces_of_peek (by rw [h]; rfl)

theorem skipWord_nul (h : peek rest = 0) : skipWord rest = rest := skipWord_of_peek (Or.inr h)

theorem countAt_nul (h : peek rest = 0) : countAt buf rest = [] := if_pos h

theorem loop_count (rest : Str) : vsscanfLoop buf (fuel + 2) ⟨countFormat, rest, n, st⟩ =
    .ok (n, st ++ countAt buf (skipSpaces rest)) := by
  by_cases hend : peek rest = 0
  · rw [loop_end (Or.inr hend), skipSpaces_nul hend, countAt_nul hend, List.append_nil]
    rfl
  · have hturn : scanItem buf (skipFmtSpaces ⟨countFormat, rest, n, st⟩) =
        directive buf ⟨[ch 'n'], skipSpaces rest, n, st⟩ := by
      rw [countFormat, skipFmtSpaces_space rfl]
      exact scanItem_percent
    have hfmt : peek countFormat ≠ 0 := by decide
    rw [directive_n] at hturn
    by_cases hstop : peek (skipSpaces rest) = 0
    · rw [if_pos hstop] at hturn
      rw [loop_leave hfmt hend hturn, countAt_nul hstop, List.append_nil]
      rfl
    · rw [if_neg hstop] at hturn
      rw [loop_again hfmt hend hturn, loop_end (Or.inl rfl), countAt, if_neg hstop]
      rfl

/-- A turn that only skips part of the string, in front of the turns that find `%n`. -/
theorem loop_skip {f g skipped r : Str} (hf : peek f ≠ 0)
    (hfinish : finish buf ⟨f, rest, n, st⟩ = (n, st))
    (hturn : scanItem buf (skipFmtSpaces ⟨f, rest, n, st⟩) = .again ⟨g, skipped, n, st⟩)
    (hnul : peek rest = 0 → r = rest)
    (hmore : vsscanfLoop buf fuel ⟨g, skipped, n, st⟩ = .ok (n, st ++ countAt buf r)) :
    vsscanfLoop buf (fuel + 1) ⟨f, rest, n, st⟩ = .ok (n, st ++ countAt buf r) := by
  by_cases hend : peek rest = 0
  · rw [loop_end (Or.inr hend), hfinish, hnul hend, countAt_nul hend, List.append_nil]
  · rw [loop_again hf hend hturn, hmore]

theorem loop_inode (rest : Str) : vsscanfLoop buf (fuel + 3) ⟨inodeFormat, rest, n, st⟩ =
    .ok (n, st ++ countAt buf (skipSpaces (skipWord (skipSpaces rest)))) := by
  have hturn : scanItem buf (skipFmtSpaces ⟨inodeFormat, rest, n, st⟩) =
      .again ⟨countFormat, skipWord (skipSpaces rest), n, st⟩ := by
    rw [inodeFormat, skipFmtSpaces_space rfl]
    exact scanItem_percent.trans directive_skip
  apply loop_skip (by decide) rfl hturn
  · intro hnul
    rw [skipSpaces_nul hnul, skipWord_nul hnul, skipSpaces_nul hnul]
  · exact loop_count _

theorem loop_minor (rest : Str) : vsscanfLoop buf (fuel + 4) ⟨minorFormat, rest, n, st⟩ =
    .ok (n, st ++ countAt buf (skipSpaces (skipWord (skipSpaces (skipWord rest))))) := by
  have hturn : scanItem buf (skipFmtSpaces ⟨minorFormat, rest, n, st⟩) =
      .again ⟨inodeFormat, skipWord rest, n, st⟩ := by
    rw [skipFmtSpaces_of_peek (by rfl)]
    exact scanItem_percent.trans directive_skip
  apply loop_skip (by decide) rfl hturn
  · intro hnul
    rw [skipWord_nul hnul, skipSpaces_nul hnul, skipWord_nul hnul, skipSpaces_nul hnul]
  · exact loop_inode _

theorem loop_tailFormat (rest : Str) : vsscanfLoop buf (fuel + 5) ⟨tailFormat, rest, n, st⟩ =
    .ok (n, st ++ countAt buf (afterFields rest)) := by
  have hword : skipWord (skipWord (skipSpaces rest)) = skipWord (skipSpaces rest) :=
    List.dropWhile_idempotent _ _
  have hturn : scanItem buf (skipFmtSpaces ⟨tailFormat, rest, n, st⟩) =
      .again ⟨minorFormat, skipWord (skipSpaces rest), n, st⟩ := by
    rw [tailFormat, skipFmtSpaces_space rfl]
    exact scanItem_percent.trans directive_skip
  rw [afterFields, ← hword]
  apply loop_skip (by decide) rfl hturn
  · intro hnul
    rw [skipSpaces_nul hnul, skipWord_nul hnul, skipWord_nul hnul, skipSpaces_nul hnul,
      skipWord_nul hnul, skipSpaces_nul hnul]
  · exact loop_minor _

end Tail

/-! ## The addresses -/

/-- `" %llx"` and the rest. -/
def offsetFormat : Str := 32 :: ch '%' :: ch 'l' :: ch 'l' :: ch 'x' :: tailFormat

/-- `" %4s"` and the rest. -/
def permsFormat : Str := 32 :: ch '%' :: ch '4' :: ch 's' :: offsetFormat

/-- `"%lx"` and the rest. -/
def endFormat : Str := ch '%' :: ch 'l' :: ch 'x' :: permsFormat

theorem mapsFormat_eq : mapsFormat = ch '%' :: ch 'l' :: ch 'x' :: ch '-' :: endFormat := by
  decide

section Addresses

variable {buf first last word digits rest : Str} {n fuel : Nat} {st : List Store}

theorem loop_start (h : HexDigits first rest) : vsscanf (first ++ rest) mapsFormat =
    vsscanfLoop (first ++ rest) 33
      ⟨ch '-' :: endFormat, rest, 1, [.int (hexValue first % 2 ^ 32)]⟩ := by
  rw [vsscanf, show mapsFormat.length + 1 = 33 + 1 by decide, mapsFormat_eq]
  apply loop_again (by simp [ch]) (ne_zero_of_isxdigit h.peek)
  rw [skipFmtSpaces_of_peek (by rfl)]
  exact scanItem_percent.trans (directive_lx h)

theorem loop_dash : vsscanfLoop buf (fuel + 1) ⟨ch '-' :: endFormat, ch '-' :: rest, n, st⟩ =
    vsscanfLoop buf fuel ⟨endFormat, rest, n, st⟩ := by
  apply loop_again (by simp [ch]) (by simp [ch])
  rw [skipFmtSpaces_of_peek (by rfl)]
  exact scanItem_literal (by decide) (by decide)

theorem loop_last (h : HexDigits last rest) :
    vsscanfLoop buf (fuel + 1) ⟨endFormat, last ++ rest, n, st⟩ =
      vsscanfLoop buf fuel ⟨permsFormat, rest, n + 1, st ++ [.int (hexValue last % 2 ^ 32)]⟩ := by
  apply loop_again (show peek endFormat ≠ 0 by decide) (ne_zero_of_isxdigit h.peek)
  rw [skipFmtSpaces_of_peek (by rfl)]
  exact scanItem_percent.trans (directive_lx h)

theorem loop_perms (hne : word ≠ []) (hword : ∀ c ∈ word, isspace c = false ∧ c ≠ 0)
    (hlen : word.length ≤ 4)
    (hrest : word.length = 4 ∨ isspace (peek rest) = true ∨ peek rest = 0) :
    vsscanfLoop buf (fuel + 1) ⟨permsFormat, 32 :: (word ++ rest), n, st⟩ =
      vsscanfLoop buf fuel ⟨offsetFormat, rest, n + 1, st ++ [.chars (word ++ [0])]⟩ := by
  apply loop_again (by simp [permsFormat]) (by simp)
  rw [permsFormat, skipFmtSpaces_space rfl, skipSpaces_blank hne hword]
  exact scanItem_percent.trans (directive_4s hne hword hlen hrest)

theorem loop_offset (h : HexDigits digits rest) :
    vsscanfLoop buf (fuel + 1) ⟨offsetFormat, 32 :: (digits ++ rest), n, st⟩ =
      vsscanfLoop buf fuel
        ⟨tailFormat, rest, n + 1, st ++ [.int (hexValue digits % 2 ^ 64)]⟩ := by
  have hblank : skipSpaces (32 :: (digits ++ rest)) = digits ++ rest := by
    rw [skipSpaces_cons rfl]
    exact skipSpaces_of_peek (isspace_of_isxdigit h.peek)
  apply loop_again (by simp [offsetFormat]) (by simp)
  rw [offsetFormat, skipFmtSpaces_space rfl, hblank]
  exact scanItem_percent.trans (directive_llx h)

theorem hexDigits_of (hne : digits ≠ []) (hall : ∀ c ∈ digits, isxdigit c = true)
    (hrest : peek rest = ch '-' ∨ peek rest = 32 ∨ peek rest = 0) : HexDigits digits rest := by
  rcases hrest with h | h | h
  · exact ⟨hne, hall, by rw [h]; decide, by rw [h]; decide⟩
  · exact ⟨hne, hall, by rw [h]; decide, by rw [h]; decide⟩
  · exact ⟨hne, hall, by rw [h]; decide, by rw [h]; decide⟩

theorem hexDigits_hex {width value : Nat} (hwidth : 0 < width)
    (hrest : peek rest = ch '-' ∨ peek rest = 32 ∨ peek rest = 0) :
    HexDigits (hex width value) rest :=
  hexDigits_of (hex_ne_nil hwidth) (fun _ hc => isxdigit_of_mem_hex hc) hrest

/-- The stores of the two addresses. -/
def addressStores (m : Mapping) : List Store := [.int m.start, .int m.end_]

theorem hexValue_mod {value : Nat} (h : value < 2 ^ 32) :
    hexValue (hex 8 value) % 2 ^ 32 = value := by
  rw [hexValue_hex, Nat.mod_eq_of_lt h]

theorem loop_addresses (m : Mapping) (hrest : peek rest = 32 ∨ peek rest = 0) :
    vsscanf (hex 8 m.start ++ ch '-' :: (hex 8 m.end_ ++ rest)) mapsFormat =
      vsscanfLoop (hex 8 m.start ++ ch '-' :: (hex 8 m.end_ ++ rest)) 31
        ⟨permsFormat, rest, 2, addressStores m⟩ := by
  have hend := m.end_lt
  have hstart := m.start_lt
  rw [loop_start (hexDigits_hex (by decide) (Or.inl rfl)), loop_dash,
    loop_last (hexDigits_hex (by decide) (Or.inr hrest)), hexValue_mod (by omega),
    hexValue_mod hend]
  rfl

theorem perms_ne_nil (m : Mapping) : m.perms ≠ [] := List.cons_ne_nil _ _

/-- A line from its first character into the offset, and whatever follows. -/
theorem vsscanf_offset (m : Mapping) (h : HexDigits digits rest)
    (hbuf : buf = m.addresses ++ (digits ++ rest)) :
    vsscanf buf mapsFormat = .ok (4, addressStores m ++ [.chars (m.perms ++ [0])] ++
      [.int (hexValue digits % 2 ^ 64)] ++ countAt buf (afterFields rest)) := by
  have hsplit : buf = hex 8 m.start ++ ch '-' ::
      (hex 8 m.end_ ++ 32 :: (m.perms ++ 32 :: (digits ++ rest))) := by
    rw [hbuf]
    simp [Mapping.addresses]
  rw [hsplit, loop_addresses m (Or.inl rfl),
    loop_perms (perms_ne_nil m) m.word_perms le_rfl (Or.inl rfl), loop_offset h, loop_tailFormat]

end Addresses

/-! ## A line that breaks off -/

section Truncated

variable {buf pre f str z : Str} {n fuel : Nat} {st : List Store}

theorem finish_num (s : Scan) : (finish buf s).1 = s.num := by
  unfold finish
  split_ifs <;> rfl

theorem loop_end_num (hstr : peek str = 0) :
    ∃ r, vsscanfLoop buf (fuel + 1) ⟨f, str, n, st⟩ = .ok r ∧ r.1 = n :=
  ⟨_, loop_end (Or.inr hstr), finish_num _⟩

theorem directive_end (hstr : peek str = 0) (hstar : peek f ≠ ch '*') :
    ∃ fmt, directive buf ⟨f, str, n, st⟩ = .leave ⟨fmt, str, n, st⟩ := by
  simp only [directive, if_neg hstar, hstr, or_true, if_true]
  exact ⟨_, rfl⟩

/-- A conversion finds the end of the string behind a blank. -/
theorem loop_blank_end (hstar : peek f ≠ ch '*') :
    ∃ r, vsscanfLoop buf (fuel + 1) ⟨32 :: ch '%' :: f, 32 :: 0 :: z, n, st⟩ = .ok r ∧
      r.1 = n := by
  have hblank : skipSpaces (32 :: 0 :: z) = 0 :: z := by
    rw [skipSpaces_cons rfl]
    exact skipSpaces_of_peek rfl
  have hturn : ∃ fmt, scanItem buf (skipFmtSpaces ⟨32 :: ch '%' :: f, 32 :: 0 :: z, n, st⟩) =
      .leave ⟨fmt, 0 :: z, n, st⟩ := by
    rw [skipFmtSpaces_space rfl, hblank, show skipSpaces (ch '%' :: f) = ch '%' :: f from
      skipSpaces_of_peek rfl, scanItem_percent]
    exact directive_end rfl hstar
  obtain ⟨fmt, hleave⟩ := hturn
  exact ⟨_, loop_leave (by simp) (by simp) hleave, finish_num _⟩

theorem prefix_append_cases {a b : Str} (h : pre <+: a ++ b) :
    pre <+: a ∨ ∃ t, pre = a ++ t ∧ t <+: b := by
  obtain ⟨r, hr⟩ := h
  rcases List.append_eq_append_iff.mp hr with ⟨as, ha, _⟩ | ⟨bs, hpre, hb⟩
  · exact Or.inl ⟨as, ha.symm⟩
  · exact Or.inr ⟨bs, hpre, r, hb.symm⟩

theorem hexDigits_of_isPrefix {width value : Nat} (hne : pre ≠ []) (h : pre <+: hex width value) :
    HexDigits pre (0 :: z) :=
  hexDigits_of hne (fun _ hc => isxdigit_of_mem_hex (h.subset hc)) (Or.inr (Or.inr rfl))

theorem truncated_start (hne : pre ≠ []) {value : Nat} (h : pre <+: hex 8 value) :
    ∃ r, vsscanf (pre ++ 0 :: z) mapsFormat = .ok r ∧ r.1 = 1 := by
  rw [loop_start (hexDigits_of_isPrefix hne h)]
  exact loop_end_num rfl

theorem truncated_end (m : Mapping) (h : pre <+: hex 8 m.end_) :
    ∃ r, vsscanf (hex 8 m.start ++ ch '-' :: (pre ++ 0 :: z)) mapsFormat = .ok r ∧ r.1 < 4 := by
  rw [loop_start (hexDigits_hex (by decide) (Or.inl rfl)), loop_dash]
  by_cases hne : pre = []
  · obtain ⟨r, hr, hnum⟩ := loop_end_num (show peek (0 :: z) = 0 from rfl)
    rw [hne]
    exact ⟨r, hr, by omega⟩
  · rw [loop_last (hexDigits_of_isPrefix hne h)]
    obtain ⟨r, hr, hnum⟩ := loop_end_num (show peek (0 :: z) = 0 from rfl)
    exact ⟨r, hr, by omega⟩

theorem truncated_perms (m : Mapping) (h : pre <+: m.perms ++ [32]) :
    ∃ r, vsscanf (hex 8 m.start ++ ch '-' :: (hex 8 m.end_ ++ 32 :: (pre ++ 0 :: z)))
      mapsFormat = .ok r ∧ r.1 < 4 := by
  rw [loop_addresses m (Or.inl rfl)]
  rcases prefix_append_cases h with hperms | ⟨t, rfl, ht⟩
  · by_cases hne : pre = []
    · rw [hne]
      obtain ⟨r, hr, hnum⟩ := loop_blank_end (f := ch '4' :: ch 's' :: offsetFormat) (by decide)
      exact ⟨r, hr, by omega⟩
    · have hword : ∀ c ∈ pre, isspace c = false ∧ c ≠ 0 :=
        fun c hc => m.word_perms c (hperms.subset hc)
      rw [loop_perms hne hword hperms.length_le (Or.inr (Or.inr rfl))]
      obtain ⟨r, hr, hnum⟩ := loop_end_num (show peek (0 :: z) = 0 from rfl)
      exact ⟨r, hr, by omega⟩
  · rw [List.append_assoc, loop_perms (perms_ne_nil m) m.word_perms le_rfl (Or.inl rfl)]
    rcases List.prefix_cons_iff.mp ht with rfl | ⟨u, rfl, hu⟩
    · obtain ⟨r, hr, hnum⟩ := loop_end_num (show peek (0 :: z) = 0 from rfl)
      exact ⟨r, hr, by omega⟩
    · rw [List.prefix_nil.mp hu]
      obtain ⟨r, hr, hnum⟩ := loop_blank_end (f := ch 'l' :: ch 'l' :: ch 'x' :: tailFormat)
        (by decide)
      exact ⟨r, hr, by omega⟩

/-- The text ends before the offset: fewer than four conversions. -/
theorem vsscanf_truncated (m : Mapping) (hne : pre ≠ []) (h : pre <+: m.addresses) :
    ∃ r, vsscanf (pre ++ 0 :: z) mapsFormat = .ok r ∧ r.1 < 4 := by
  rcases prefix_append_cases h with hstart | ⟨t, rfl, ht⟩
  · obtain ⟨r, hr, hnum⟩ := truncated_start hne hstart
    exact ⟨r, hr, by omega⟩
  · rcases List.prefix_cons_iff.mp ht with rfl | ⟨u, rfl, hu⟩
    · rw [List.append_nil] at hne ⊢
      obtain ⟨r, hr, hnum⟩ := truncated_start hne (List.prefix_refl _)
      exact ⟨r, hr, by omega⟩
    · rw [List.append_assoc, List.cons_append]
      rcases prefix_append_cases hu with hend | ⟨v, rfl, hv⟩
      · exact truncated_end m hend
      · rcases List.prefix_cons_iff.mp hv with rfl | ⟨w, rfl, hw⟩
        · rw [List.append_nil]
          exact truncated_end m (List.prefix_refl _)
        · rw [List.append_assoc, List.cons_append]
          exact truncated_perms m hw

end Truncated

end Snitchaser.Proc.Line
