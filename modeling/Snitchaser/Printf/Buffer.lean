import Snitchaser.Printf.Model
import Snitchaser.Proc.Scanning
/-!
# The loop of `vsnprintf`

Every round adds characters to the text and takes characters from the format.  `str` counts
the characters of the text, and as long as it does not go around, what is stored is the text
as far as there is room.
-/

namespace Snitchaser.Printf.Buffer

open Snitchaser.Defs (add32 add32_add32 add32_lt add32_of_lt add32_zero)
open Snitchaser.Lib.ByteMemory
open Snitchaser.Lib.Program
open Snitchaser.Printf.Model
open Snitchaser.Proc.Scanning (length_atoiLoop)
open Snitchaser.Proc.Vsscanf (Str ch peek isdigit tolower skipAtoi)

/-! ## Stores -/

section Stores

variable {endp : Nat} {o : Out} {text : Str}

/-- `text` from `o.str` on, as far as there is room. -/
def stored (endp : Nat) (o : Out) (text : Str) : Out :=
  ⟨writeBytes o.mem o.str (text.take (endp - o.str)), o.str + text.length⟩

theorem stored_append (text more : Str) :
    stored endp (stored endp o text) more = stored endp o (text ++ more) := by
  unfold stored
  dsimp only
  rw [List.length_append, Nat.add_assoc, List.take_append]
  by_cases hroom : text.length ≤ endp - o.str
  · rw [List.take_of_length_le hroom, writeBytes_append, Nat.sub_sub]
  · have hfull : endp - (o.str + text.length) = 0 := by omega
    have hnone : endp - o.str - text.length = 0 := by omega
    rw [hfull, hnone, List.take_zero, writeBytes_nil, List.append_nil]

theorem put_eq (hstr : o.str + 1 < 2 ^ 32) (c : UInt8) : put endp o c = stored endp o [c] := by
  unfold put stored
  rw [add32_of_lt hstr]
  by_cases hroom : o.str < endp
  · rw [if_pos hroom, List.take_of_length_le (by rw [List.length_singleton]; omega)]
    rfl
  · rw [if_neg hroom, Nat.sub_eq_zero_of_le (by omega), List.take_zero, writeBytes_nil]
    rfl

theorem putAll_eq (hstr : o.str + text.length < 2 ^ 32) :
    putAll endp o text = stored endp o text := by
  induction text generalizing o with
  | nil => simp [putAll, stored]
  | cons c text ih =>
      rw [List.length_cons] at hstr
      rw [putAll, List.foldl_cons, put_eq (by omega)]
      exact (ih (by dsimp only [stored]; rw [List.length_singleton]; omega)).trans
        (stored_append [c] text)

theorem putAll_str (hstr : o.str < 2 ^ 32) :
    (putAll endp o text).str = add32 o.str text.length := by
  induction text generalizing o with
  | nil => exact (add32_zero hstr).symm
  | cons c text ih =>
      have hput : (put endp o c).str = add32 o.str 1 := rfl
      rw [putAll, List.foldl_cons, List.length_cons, Nat.add_comm text.length, ← add32_add32,
        ← hput]
      exact ih (add32_lt _ _)

/-- The part of the format that is copied as a block. -/
theorem copyText_eq (hstr : o.str + text.length < 2 ^ 32) :
    copyText endp o text = stored endp o text := by
  unfold copyText stored
  rw [add32_of_lt hstr]
  by_cases hroom : o.str < endp
  · rw [if_pos hroom]
    by_cases hall : text.length ≤ endp - o.str
    · rw [Nat.min_eq_left hall, List.take_length, List.take_of_length_le hall]
    · rw [Nat.min_eq_right (by omega)]
  · rw [if_neg hroom, Nat.sub_eq_zero_of_le (by omega), List.take_zero, writeBytes_nil]

end Stores

/-! ## The text -/

section Text

variable (rom : Rom) (describe : Str → Nat → Str) (va : Nat → Nat)

/-- The characters a round adds to the text. -/
def printed : Action → Str
  | .chars text => text
  | .text text => text
  | .count _ => []

/-- What the rounds do, one after the other. -/
def actions : Nat → Cursor → List Action
  | 0, _ => []
  | fuel + 1, c =>
      if peek c.fmt ≠ 0 then
        (vsnprintfRound rom describe va c).1 :: actions fuel (vsnprintfRound rom describe va c).2
      else []

/-- `%n`. -/
def isCount : Action → Bool
  | .count _ => true
  | _ => false

end Text

/-! ## The format gets shorter -/

section Progress

variable {rom : Rom} {describe : Str → Nat → Str} {va : Nat → Nat} {fmt : Str} {spec : Spec}

theorem length_pos_of_peek {fmt : Str} (h : peek fmt ≠ 0) : 0 < fmt.length := by
  cases fmt with
  | nil => exact absurd rfl h
  | cons c fmt => exact Nat.succ_pos _

theorem length_skipAtoi (fmt : Str) : (skipAtoi fmt).2.length ≤ fmt.length := length_atoiLoop 0 fmt

theorem length_takeFlags (flags : Flags) (fmt : Str) :
    (takeFlags flags fmt).2.length ≤ fmt.length := by
  induction fmt generalizing flags with
  | nil => exact le_rfl
  | cons c fmt ih =>
      unfold takeFlags
      split_ifs
      all_goals first
        | exact (ih _).trans (Nat.le_succ _)
        | exact le_rfl

theorem length_takeQualifier (fmt : Str) : (takeQualifier fmt).2.length ≤ fmt.length := by
  unfold takeQualifier
  dsimp only
  split_ifs <;> simp only [List.length_tail] <;> omega

/-- Whether `format_decode` was left in the middle of a conversion. -/
def Unfinished (spec : Spec) : Prop := spec.type = .width ∨ spec.type = .precision

theorem integerType_finished (q : UInt8) (sign : Bool) :
    integerType q sign ≠ .width ∧ integerType q sign ≠ .precision := by
  unfold integerType
  split_ifs <;> exact ⟨by decide, by decide⟩

theorem decodeQualifier_shorter (spec : Spec) (fmt : Str) :
    (decodeQualifier spec fmt).2.length ≤ fmt.length ∧
      ¬ Unfinished (decodeQualifier spec fmt).1 := by
  have hq := length_takeQualifier fmt
  have htail : (takeQualifier fmt).2.tail.length ≤ fmt.length := by
    rw [List.length_tail]
    omega
  unfold decodeQualifier
  dsimp only
  -- one goal for each letter of the switch, and one for the others
  repeat'
    refine iteInduction
      (motive := fun r : Spec × Str => r.2.length ≤ fmt.length ∧ ¬ Unfinished r.1)
      (fun _ => ?_) fun _ => ?_
  all_goals first
    | exact ⟨htail, not_or.mpr (integerType_finished _ _)⟩
    | exact ⟨htail, by rintro (h | h) <;> cases h⟩
    | exact ⟨hq, by rintro (h | h) <;> cases h⟩

theorem decodePrecision_shorter (spec : Spec) (fmt : Str) :
    (decodePrecision spec fmt).2.length ≤ fmt.length ∧
      (Unfinished (decodePrecision spec fmt).1 →
        (decodePrecision spec fmt).2.length < fmt.length) := by
  unfold decodePrecision
  dsimp only
  split_ifs with hdot hdigit hstar
  · have hlen := length_skipAtoi fmt.tail
    have htail := fmt.length_tail
    obtain ⟨hle, hdone⟩ := decodeQualifier_shorter
      { spec with precision := max (s16 (skipAtoi fmt.tail).1) 0 } (skipAtoi fmt.tail).2
    exact ⟨by omega, fun h => absurd h hdone⟩
  · have htail := fmt.length_tail
    have hpos : 0 < fmt.length := length_pos_of_peek (by rw [hdot]; decide)
    have htail' := fmt.tail.length_tail
    exact ⟨by dsimp only; omega, fun _ => by dsimp only; omega⟩
  · obtain ⟨hle, hdone⟩ := decodeQualifier_shorter { spec with precision := -1 } fmt.tail
    have htail := fmt.length_tail
    exact ⟨by omega, fun h => absurd h hdone⟩
  · obtain ⟨hle, hdone⟩ := decodeQualifier_shorter { spec with precision := -1 } fmt
    exact ⟨hle, fun h => absurd h hdone⟩

/-- The format and one unit for a conversion that is not finished. -/
def formatLeft (fmt : Str) (spec : Spec) : Nat :=
  2 * fmt.length + if spec.type = .width ∨ spec.type = .precision then 1 else 0

theorem formatLeft_lt (fmt : Str) (spec : Spec) : formatLeft fmt spec < 2 * fmt.length + 2 := by
  unfold formatLeft
  split <;> omega

theorem formatLeft_lt_of_length {fmt fmt' : Str} {spec spec' : Spec} (h : fmt'.length < fmt.length) :
    formatLeft fmt' spec' < formatLeft fmt spec := by
  unfold formatLeft
  split <;> split <;> omega

theorem formatLeft_lt_of_unfinished {fmt fmt' : Str} {spec spec' : Spec}
    (hle : fmt'.length ≤ fmt.length) (hspec : Unfinished spec)
    (hlt : Unfinished spec' → fmt'.length < fmt.length) :
    formatLeft fmt' spec' < formatLeft fmt spec := by
  have hcond : spec.type = .width ∨ spec.type = .precision := hspec
  unfold formatLeft
  rw [if_pos hcond]
  split
  · rename_i hunfinished
    have := hlt hunfinished
    omega
  · omega

theorem formatDecode_formatLeft (hfmt : peek fmt ≠ 0) :
    formatLeft (formatDecode fmt spec).2 (formatDecode fmt spec).1 < formatLeft fmt spec := by
  unfold formatDecode
  dsimp only
  split_ifs with hwidth hneg hprec htext hdigit hstar
  · obtain ⟨hle, hlt⟩ := decodePrecision_shorter
      { spec with
        type := .none, fieldWidth := s16 (-spec.fieldWidth)
        flags := { spec.flags with left := true } } fmt
    exact formatLeft_lt_of_unfinished hle (.inl hwidth) hlt
  · obtain ⟨hle, hlt⟩ := decodePrecision_shorter { spec with type := .none } fmt
    exact formatLeft_lt_of_unfinished hle (.inl hwidth) hlt
  · obtain ⟨hle, hdone⟩ := decodeQualifier_shorter
      { spec with type := .none, precision := max spec.precision 0 } fmt
    exact formatLeft_lt_of_unfinished hle (.inr hprec) fun h => absurd h hdone
  · apply formatLeft_lt_of_length
    have htake : (fmt.takeWhile fun c => c != 0 && c != ch '%').length ≤ fmt.length :=
      (List.takeWhile_prefix _).length_le
    have hpos : 0 < (fmt.takeWhile fun c => c != 0 && c != ch '%').length := by
      rcases htext with hne | hzero
      · exact List.length_pos_iff.mpr hne
      · by_contra hnone
        rw [Nat.eq_zero_of_not_pos hnone, List.drop_zero] at hzero
        exact hfmt hzero
    dsimp only
    rw [List.length_drop]
    omega
  all_goals
    apply formatLeft_lt_of_length
    have htail : (fmt.drop (fmt.takeWhile fun c => c != 0 && c != ch '%').length).tail.length <
        fmt.length := by
      have hpos := length_pos_of_peek hfmt
      rw [List.length_tail, List.length_drop]
      omega
    have hflags := length_takeFlags noFlags
      (fmt.drop (fmt.takeWhile fun c => c != 0 && c != ch '%').length).tail
    revert hflags htail
    generalize (fmt.drop (fmt.takeWhile fun c => c != 0 && c != ch '%').length).tail = rest
    intro htail hflags
  · have hatoi := length_skipAtoi (takeFlags noFlags rest).2
    have hle := (decodePrecision_shorter
      { spec with
        type := .none, flags := (takeFlags noFlags rest).1
        fieldWidth := s16 (skipAtoi (takeFlags noFlags rest).2).1 }
      (skipAtoi (takeFlags noFlags rest).2).2).1
    omega
  · dsimp only
    rw [List.length_tail]
    omega
  · have hle := (decodePrecision_shorter
      { spec with type := .none, flags := (takeFlags noFlags rest).1, fieldWidth := -1 }
      (takeFlags noFlags rest).2).1
    omega

theorem vsnprintfSwitch_type (c : Cursor) (spec : Spec) (rest : Str) :
    (vsnprintfSwitch rom describe va c spec rest).2.spec.type = spec.type := by
  cases spec with
  | mk type flags base qualifier fieldWidth precision => cases type <;> rfl

/-- `%p` is followed by the letters of an extension, which are skipped. -/
theorem vsnprintfSwitch_fmt (c : Cursor) (spec : Spec) (rest : Str) :
    (vsnprintfSwitch rom describe va c spec rest).2.fmt <:+ rest := by
  cases spec with
  | mk type flags base qualifier fieldWidth precision =>
      cases type
      case ptr => exact List.dropWhile_suffix isalnum
      all_goals exact List.suffix_refl rest

theorem formatLeft_mono {fmt fmt' : Str} {spec spec' : Spec} (hfmt : fmt' <:+ fmt)
    (htype : spec'.type = spec.type) : formatLeft fmt' spec' ≤ formatLeft fmt spec := by
  have hle := hfmt.length_le
  unfold formatLeft
  rw [htype]
  omega

theorem vsnprintfRound_formatLeft {c : Cursor} (hfmt : peek c.fmt ≠ 0) :
    formatLeft (vsnprintfRound rom describe va c).2.fmt (vsnprintfRound rom describe va c).2.spec <
      formatLeft c.fmt c.spec :=
  calc formatLeft (vsnprintfRound rom describe va c).2.fmt (vsnprintfRound rom describe va c).2.spec
      ≤ formatLeft (formatDecode c.fmt c.spec).2 (formatDecode c.fmt c.spec).1 :=
        formatLeft_mono (vsnprintfSwitch_fmt c _ _) (vsnprintfSwitch_type c _ _)
    _ < formatLeft c.fmt c.spec := formatDecode_formatLeft hfmt

/-! ## The loop -/

theorem perform_str {endp buf : Nat} {a : Action} {o : Out} (hstr : o.str < 2 ^ 32) :
    (perform endp buf a o).str = add32 o.str (printed a).length := by
  cases a with
  | chars text => exact putAll_str hstr
  | text text => rfl
  | count addr => exact (add32_zero hstr).symm

theorem perform_eq {endp buf : Nat} {a : Action} {o : Out} (hcount : isCount a = false)
    (hstr : o.str + (printed a).length < 2 ^ 32) :
    perform endp buf a o = stored endp o (printed a) := by
  cases a with
  | chars text => exact putAll_eq hstr
  | text text => exact copyText_eq hstr
  | count addr => cases hcount

/-- The loop ends, and `str` has gone as far as the text is long.  Unless it goes around or
`%n` is used, the loop has stored the text. -/
theorem vsnprintfLoop_spec {endp buf fuel : Nat} {c : Cursor} {o : Out}
    (hfuel : formatLeft c.fmt c.spec < fuel) (hstr : o.str < 2 ^ 32) :
    ∃ o', vsnprintfLoop rom describe va endp buf fuel c o = .ok o' ∧
      o'.str = add32 o.str ((actions rom describe va fuel c).flatMap printed).length ∧
      ((∀ a ∈ actions rom describe va fuel c, isCount a = false) →
        o.str + ((actions rom describe va fuel c).flatMap printed).length < 2 ^ 32 →
        o' = stored endp o ((actions rom describe va fuel c).flatMap printed)) := by
  induction fuel generalizing c o with
  | zero => omega
  | succ fuel ih =>
      unfold vsnprintfLoop actions
      by_cases hfmt : peek c.fmt ≠ 0
      · have hless := @vsnprintfRound_formatLeft rom describe va c hfmt
        rw [if_pos hfmt, if_pos hfmt]
        generalize vsnprintfRound rom describe va c = r at hless ⊢
        have hnext : (perform endp buf r.1 o).str < 2 ^ 32 := by
          rw [perform_str hstr]
          exact add32_lt _ _
        obtain ⟨o', hloop, hend, hmem⟩ := ih (by omega : formatLeft r.2.fmt r.2.spec < fuel) hnext
        refine ⟨o', hloop, ?_, ?_⟩
        · rw [hend, perform_str hstr, add32_add32, List.flatMap_cons, List.length_append]
        · intro hcounts hwrap
          rw [List.forall_mem_cons] at hcounts
          rw [List.flatMap_cons, List.length_append] at hwrap
          have hone := @perform_eq endp buf r.1 o hcounts.1 (by omega)
          rw [hone] at hmem
          rw [hmem hcounts.2 (by dsimp only [stored]; omega), stored_append, List.flatMap_cons]
      · rw [if_neg hfmt, if_neg hfmt]
        refine ⟨o, rfl, (add32_zero hstr).symm, fun _ _ => ?_⟩
        simp [stored]

end Progress

end Snitchaser.Printf.Buffer
