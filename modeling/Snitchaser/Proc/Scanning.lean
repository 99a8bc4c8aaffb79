import Snitchaser.Proc.Vsscanf
/-!
# The turns of the scanner

What one turn of `vsscanf` does for each kind of directive, and that its loop ends
for every string and format.
-/

namespace Snitchaser.Proc.Scanning

open Snitchaser.Proc.Vsscanf

/-! ## One turn of the loop -/

section Turns

variable {buf : Str} {s t : Scan} {f str digits word rest : Str} {n fuel : Nat} {st : List Store}

theorem vsscanfLoop_succ : vsscanfLoop buf (fuel + 1) s =
    if peek s.fmt ≠ 0 ∧ peek s.str ≠ 0 then
      match scanItem buf (skipFmtSpaces s) with
      | .again t => vsscanfLoop buf fuel t
      | .leave t => .ok (finish buf t)
      | .done t => .ok (t.num, t.stored)
    else
      .ok (finish buf s) := rfl

theorem loop_again (hfmt : peek f ≠ 0) (hstr : peek str ≠ 0)
    (hturn : scanItem buf (skipFmtSpaces ⟨f, str, n, st⟩) = .again t) :
    vsscanfLoop buf (fuel + 1) ⟨f, str, n, st⟩ = vsscanfLoop buf fuel t := by
  rw [vsscanfLoop_succ, if_pos ⟨hfmt, hstr⟩, hturn]

theorem loop_leave (hfmt : peek f ≠ 0) (hstr : peek str ≠ 0)
    (hturn : scanItem buf (skipFmtSpaces ⟨f, str, n, st⟩) = .leave t) :
    vsscanfLoop buf (fuel + 1) ⟨f, str, n, st⟩ = .ok (finish buf t) := by
  rw [vsscanfLoop_succ, if_pos ⟨hfmt, hstr⟩, hturn]

theorem loop_end (hend : peek f = 0 ∨ peek str = 0) :
    vsscanfLoop buf (fuel + 1) ⟨f, str, n, st⟩ = .ok (finish buf ⟨f, str, n, st⟩) := by
  rw [vsscanfLoop_succ, if_neg]
  rintro ⟨hfmt, hstr⟩
  exact hend.elim hfmt hstr

theorem skipFmtSpaces_space {c : UInt8} (hc : isspace c = true) :
    skipFmtSpaces ⟨c :: f, str, n, st⟩ = ⟨skipSpaces f, skipSpaces str, n, st⟩ := by
  simp [skipFmtSpaces, hc]

theorem skipFmtSpaces_of_peek (h : isspace (peek s.fmt) = false) : skipFmtSpaces s = s := by
  simp [skipFmtSpaces, h]

theorem scanItem_literal {c : UInt8} (hpercent : c ≠ ch '%') (hzero : c ≠ 0) :
    scanItem buf ⟨c :: f, c :: str, n, st⟩ = .again ⟨f, str, n, st⟩ := by
  simp [scanItem, hpercent, hzero]

theorem scanItem_percent :
    scanItem buf ⟨ch '%' :: f, str, n, st⟩ = directive buf ⟨f, str, n, st⟩ := by
  rw [scanItem, if_neg (fun h => h.1 rfl), if_neg (by simp [ch])]
  rfl

/-- Digits of a hexadecimal number, up to a character that ends it. -/
structure HexDigits (digits rest : Str) : Prop where
  nonempty : digits ≠ []
  all : ∀ c ∈ digits, isxdigit c = true
  ended : isxdigit (peek rest) = false
  noX : tolower (peek rest) ≠ ch 'x'

theorem HexDigits.peek (h : HexDigits digits rest) :
    isxdigit (Vsscanf.peek (digits ++ rest)) = true := by
  rw [peek_append h.nonempty]
  exact h.all _ (List.head_mem h.nonempty)

theorem scanInt_hex {q : Qualifier} {value : Nat} (h : HexDigits digits rest)
    (hvalue : convertInt q false (digits ++ rest) 16 = (value, rest)) :
    scanInt q 16 false ⟨f, digits ++ rest, n, st⟩ =
      .again ⟨f, rest, n + 1, st ++ [.int value]⟩ := by
  have hx := h.peek
  have hzero := ne_zero_of_isxdigit hx
  simp [scanInt, skipSpaces_of_peek (isspace_of_isxdigit hx), hx, hzero, hvalue]

theorem directive_convert {q : Qualifier} {spec : UInt8} {g : Str} (hstar : peek f ≠ ch '*')
    (hdigit : isdigit (peek f) = false) (hqualifier : takeQualifier f = (q, spec :: g))
    (hspec : spec ≠ 0) (hstr : peek str ≠ 0) :
    directive buf ⟨f, str, n, st⟩ = convert buf (-1) q spec ⟨g, str, n, st⟩ := by
  simp [directive, hstar, hdigit, hqualifier, hspec, hstr]

theorem directive_lx (h : HexDigits digits rest) :
    directive buf ⟨ch 'l' :: ch 'x' :: f, digits ++ rest, n, st⟩ =
      .again ⟨f, rest, n + 1, st ++ [.int (hexValue digits % 2 ^ 32)]⟩ := by
  have hvalue : convertInt .long false (digits ++ rest) 16 = (hexValue digits % 2 ^ 32, rest) := by
    simp only [convertInt, simpleStrtoul, simpleStrtoull_append h.all h.ended h.noX,
      Bool.false_eq_true, if_false]
    rw [Nat.mod_mod_of_dvd _ (by decide)]
  rw [directive_convert (by simp [ch]) rfl rfl (by decide) (ne_zero_of_isxdigit h.peek)]
  exact scanInt_hex h hvalue

theorem directive_llx (h : HexDigits digits rest) :
    directive buf ⟨ch 'l' :: ch 'l' :: ch 'x' :: f, digits ++ rest, n, st⟩ =
      .again ⟨f, rest, n + 1, st ++ [.int (hexValue digits % 2 ^ 64)]⟩ := by
  have hvalue : convertInt .longLong false (digits ++ rest) 16 =
      (hexValue digits % 2 ^ 64, rest) := by
    simp only [convertInt, simpleStrtoull_append h.all h.ended h.noX, Bool.false_eq_true, if_false]
  rw [directive_convert (by simp [ch]) rfl rfl (by decide) (ne_zero_of_isxdigit h.peek)]
  exact scanInt_hex h hvalue

theorem takeWhile_take {p : UInt8 → Bool} {width : Nat} (hword : ∀ c ∈ word, p c = true)
    (hlen : word.length ≤ width) (hrest : word.length = width ∨ p (peek rest) = false) :
    ((word ++ rest).takeWhile p).take width = word := by
  rw [List.takeWhile_append_of_pos hword]
  rcases hrest with hfull | hstop
  · rw [List.take_append_of_le_length hfull.ge, ← hfull, List.take_length]
  · have hnone : rest.takeWhile p = [] := by
      cases rest with
      | nil => rfl
      | cons c rest => exact List.takeWhile_cons_of_neg (by simp [show p c = false from hstop])
    rw [hnone, List.append_nil, List.take_of_length_le hlen]

theorem takeQualifier_none {c : UInt8} (hh : c ≠ ch 'h') (hl : c ≠ ch 'l') (hL : c ≠ ch 'L')
    (hz : tolower c ≠ ch 'z') : takeQualifier (c :: f) = (.int, c :: f) := by
  simp [takeQualifier, hh, hl, hL, hz]

/-- `%4s` reads a word of at most four characters. -/
theorem directive_4s (hne : word ≠ []) (hword : ∀ c ∈ word, isspace c = false ∧ c ≠ 0)
    (hlen : word.length ≤ 4)
    (hrest : word.length = 4 ∨ isspace (peek rest) = true ∨ peek rest = 0) :
    directive buf ⟨ch '4' :: ch 's' :: f, word ++ rest, n, st⟩ =
      .again ⟨f, rest, n + 1, st ++ [.chars (word ++ [0])]⟩ := by
  have hhead : isspace (peek (word ++ rest)) = false ∧ peek (word ++ rest) ≠ 0 := by
    rw [peek_append hne]
    exact hword _ (List.head_mem hne)
  have hcopied : ((word ++ rest).takeWhile fun c => c != 0 && !isspace c).take 4 = word := by
    apply takeWhile_take
    · intro c hc
      simp [hword c hc]
    · exact hlen
    · rcases hrest with hfull | hspace | hzero
      · exact Or.inl hfull
      · exact Or.inr (by simp [hspace])
      · exact Or.inr (by simp [hzero])
  have hscan : scanString 4 ⟨f, word ++ rest, n, st⟩ =
      .again ⟨f, rest, n + 1, st ++ [.chars (word ++ [0])]⟩ := by
    simp [scanString, skipSpaces_of_peek hhead.1, hcopied]
  have hwidth : fieldWidth 4 = 4 := by decide
  have hqualifier : takeQualifier (115 :: f) = (.int, 115 :: f) :=
    takeQualifier_none (by decide) (by decide) (by decide) (by decide)
  rw [← hscan]
  simp [directive, skipAtoi, atoiLoop, isdigit, hqualifier, convert, ch, hhead.2, hwidth]

theorem directive_skip : directive buf ⟨ch '*' :: f, str, n, st⟩ =
    .again ⟨f.dropWhile fun c => !isspace c && c != ch '%' && c != 0, skipWord str, n, st⟩ := by
  have hstar : (!isspace (ch '*') && ch '*' != ch '%' && ch '*' != 0) = true := by decide
  simp only [directive, peek_cons, if_true, List.dropWhile_cons_of_pos, hstar]

/-- `%n` counts the characters up to here, but not at the end of the string. -/
theorem directive_n : directive buf ⟨ch 'n' :: f, str, n, st⟩ =
    if peek str = 0 then .leave ⟨ch 'n' :: f, str, n, st⟩
    else .again ⟨f, str, n, st ++ [.count (offsetOf buf str)]⟩ := by
  have hqualifier : takeQualifier (110 :: f) = (.int, 110 :: f) :=
    takeQualifier_none (by decide) (by decide) (by decide) (by decide)
  simp [directive, isdigit, hqualifier, convert, ch]

end Turns

/-! ## Termination -/

section Termination

variable {buf : Str} {s t : Scan}

theorem length_atoiLoop (i : Nat) (fmt : Str) : (atoiLoop i fmt).2.length ≤ fmt.length := by
  induction fmt generalizing i with
  | nil => exact le_rfl
  | cons c fmt ih =>
      rw [atoiLoop]
      split
      · exact (ih _).trans (Nat.le_succ _)
      · exact le_rfl

theorem length_takeQualifier (fmt : Str) : (takeQualifier fmt).2.length ≤ fmt.length := by
  unfold takeQualifier
  split_ifs <;> simp only [List.length_tail] <;> omega

/-- If the loop goes on, it is with the format of `s`. -/
def KeepsFmt (s : Scan) (r : Next) : Prop := ∀ t, r = .again t → t.fmt = s.fmt

theorem keepsFmt_ite {c : Prop} [Decidable c] {r r' : Next} (h : KeepsFmt s r)
    (h' : KeepsFmt s r') : KeepsFmt s (if c then r else r') := by
  split
  · exact h
  · exact h'

theorem keepsFmt_again (h : t.fmt = s.fmt) : KeepsFmt s (.again t) := by
  intro u hu
  cases hu
  exact h

theorem keepsFmt_scanInt {q : Qualifier} {base : Nat} {isSign : Bool} :
    KeepsFmt s (scanInt q base isSign s) := by
  apply keepsFmt_ite
  · intro t ht
    cases ht
  · exact keepsFmt_again rfl

theorem keepsFmt_convert {width : Int} {q : Qualifier} {spec : UInt8} :
    KeepsFmt s (convert buf width q spec s) := by
  apply keepsFmt_ite (keepsFmt_again rfl)
  apply keepsFmt_ite (keepsFmt_again rfl)
  apply keepsFmt_ite (keepsFmt_again rfl)
  apply keepsFmt_ite keepsFmt_scanInt
  apply keepsFmt_ite keepsFmt_scanInt
  apply keepsFmt_ite keepsFmt_scanInt
  apply keepsFmt_ite keepsFmt_scanInt
  apply keepsFmt_ite keepsFmt_scanInt
  apply keepsFmt_ite (keepsFmt_again rfl)
  intro t ht
  cases ht

theorem length_directive (h : directive buf s = .again t) : t.fmt.length ≤ s.fmt.length := by
  simp only [directive] at h
  split_ifs at h
  · cases h
    exact (List.dropWhile_sublist _).length_le
  · have hwidth : (skipAtoi s.fmt).2.length ≤ s.fmt.length := length_atoiLoop 0 s.fmt
    have hqualifier := length_takeQualifier (skipAtoi s.fmt).2
    simp only [keepsFmt_convert _ h, List.length_tail]
    omega
  · have hqualifier := length_takeQualifier s.fmt
    simp only [keepsFmt_convert _ h, List.length_tail]
    omega

theorem length_tail_lt {fmt : Str} (h : peek fmt ≠ 0) : fmt.tail.length < fmt.length := by
  cases fmt with
  | nil => exact absurd rfl h
  | cons c fmt => exact Nat.lt_succ_self _

theorem length_scanItem (h : scanItem buf s = .again t) : t.fmt.length < s.fmt.length := by
  unfold scanItem at h
  split_ifs at h with hliteral hdiffer hend
  · cases h
    exact length_tail_lt hliteral.2
  · exact (length_directive h).trans_lt (length_tail_lt hend)

theorem length_skipFmtSpaces (s : Scan) : (skipFmtSpaces s).fmt.length ≤ s.fmt.length := by
  unfold skipFmtSpaces
  split_ifs
  · exact ((List.dropWhile_sublist _).trans (List.tail_sublist _)).length_le
  · exact le_rfl

theorem vsscanfLoop_returns {fuel : Nat} (hfuel : s.fmt.length < fuel) :
    ∃ r, vsscanfLoop buf fuel s = .ok r := by
  induction fuel generalizing s with
  | zero => exact absurd hfuel (Nat.not_lt_zero _)
  | succ fuel ih =>
      rw [vsscanfLoop_succ]
      split_ifs
      · cases hturn : scanItem buf (skipFmtSpaces s) with
        | again t =>
            have hshorter := (length_scanItem hturn).trans_le (length_skipFmtSpaces s)
            exact ih (by omega)
        | leave t => exact ⟨_, rfl⟩
        | done t => exact ⟨_, rfl⟩
      · exact ⟨_, rfl⟩

/-- The fuel is enough for every string and every format. -/
theorem vsscanf_returns (buf fmt : Str) : ∃ r, vsscanf buf fmt = .ok r :=
  vsscanfLoop_returns (Nat.lt_succ_self _)

end Termination

end Snitchaser.Proc.Scanning
