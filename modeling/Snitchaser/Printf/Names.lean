import Snitchaser.Printf.Number
import Snitchaser.Printf.Output
/-!
# The names of the log and checkpoint files

`init_logger`, `fork_checkpoint` and `dead_checkpoint` name their files after the process,
the thread and the time, with one format and a suffix of their own.  The first two check the
length of the name, `dead_checkpoint` does not.
-/

namespace Snitchaser.Printf.Names

open Snitchaser.Defs (maxOutputFnLen pageSize)
open Snitchaser.Lib.ByteMemory
open Snitchaser.Lib.Program
open Snitchaser.Printf.Buffer (actions printed isCount Unfinished)
open Snitchaser.Printf.Model
open Snitchaser.Printf.Number
open Snitchaser.Printf.Output
open Snitchaser.Proc.Vsscanf (Str ch peek isdigit simpleStrtoull skipAtoi tolower)

variable {rom : Rom} {describe : Str → Nat → Str} {va : Nat → Nat} {spec : Spec} {fuel args : Nat}
variable {rest : Str} {c : UInt8}

/-! ## Rounds -/

theorem actions_step {c : Cursor} (h : peek c.fmt ≠ 0) :
    actions rom describe va (fuel + 1) c =
      (vsnprintfRound rom describe va c).1 ::
        actions rom describe va fuel (vsnprintfRound rom describe va c).2 := by
  rw [actions, if_pos h]

theorem actions_nil : actions rom describe va fuel ⟨[], spec, args⟩ = [] := by
  cases fuel <;> rfl

theorem takeQualifier_none
    (hc : ¬ (c = ch 'h' ∨ tolower c = ch 'l' ∨ tolower c = ch 'z' ∨ c = ch 't')) :
    takeQualifier (c :: rest) = (255, c :: rest) := by
  unfold takeQualifier
  exact if_neg hc

theorem decodeQualifier_string :
    decodeQualifier spec (ch 's' :: rest) =
      ({ spec with type := .str, qualifier := 255, base := 10 }, rest) := by
  unfold decodeQualifier
  rw [takeQualifier_none (by decide)]
  rfl

theorem decodeQualifier_int :
    decodeQualifier spec (ch 'd' :: rest) =
      ({ spec with
          type := .int, qualifier := 255, base := 10, flags := { spec.flags with sign := true } },
        rest) := by
  have htype : integerType 255 true = .int := by decide
  unfold decodeQualifier
  rw [takeQualifier_none (by decide)]
  dsimp only
  rw [htype]
  rfl

theorem decodeQualifier_unsigned (hsign : spec.flags.sign = false) :
    decodeQualifier spec (ch 'u' :: rest) =
      ({ spec with type := .uint, qualifier := 255, base := 10 }, rest) := by
  have htype : integerType 255 false = .uint := by decide
  unfold decodeQualifier
  rw [takeQualifier_none (by decide)]
  dsimp only
  rw [hsign, htype]
  rfl

theorem decodePrecision_none (hc : c ≠ ch '.') :
    decodePrecision spec (c :: rest) = decodeQualifier { spec with precision := -1 } (c :: rest) := by
  unfold decodePrecision
  exact if_neg hc

theorem formatDecode_percent {fmt : Str} (hspec : ¬ Unfinished spec) :
    formatDecode (ch '%' :: fmt) spec =
      let flags := takeFlags noFlags fmt
      let spec := { spec with type := .none, flags := flags.1, fieldWidth := -1 }
      if isdigit (peek flags.2) then
        decodePrecision { spec with fieldWidth := s16 (skipAtoi flags.2).1 } (skipAtoi flags.2).2
      else if peek flags.2 = ch '*' then ({ spec with type := .width }, flags.2.tail)
      else decodePrecision spec flags.2 := by
  unfold formatDecode
  rw [if_neg fun h => hspec (.inl h), if_neg fun h => hspec (.inr h)]
  rfl

/-- `%s`. -/
def stringSpec : Spec := ⟨.str, noFlags, 10, 255, -1, -1⟩

/-- `%d`. -/
def intSpec : Spec := ⟨.int, { noFlags with sign := true }, 10, 255, -1, -1⟩

/-- `%010u`. -/
def tenSpec : Spec := ⟨.uint, { noFlags with zeropad := true }, 10, 255, 10, -1⟩

theorem formatDecode_string (rest : Str) (hspec : ¬ Unfinished spec) :
    formatDecode (ch '%' :: ch 's' :: rest) spec = (stringSpec, rest) := by
  have hflags : takeFlags noFlags (ch 's' :: rest) = (noFlags, ch 's' :: rest) := rfl
  have hdigit : ¬ isdigit (peek (ch 's' :: rest)) = true := by
    change ¬ isdigit (ch 's') = true
    decide
  have hstar : ¬ peek (ch 's' :: rest) = ch '*' := by
    change ¬ ch 's' = ch '*'
    decide
  rw [formatDecode_percent hspec, hflags]
  dsimp only
  rw [if_neg hdigit, if_neg hstar, decodePrecision_none (by decide), decodeQualifier_string]
  rfl

theorem formatDecode_int (rest : Str) (hspec : ¬ Unfinished spec) :
    formatDecode (ch '%' :: ch 'd' :: rest) spec = (intSpec, rest) := by
  have hflags : takeFlags noFlags (ch 'd' :: rest) = (noFlags, ch 'd' :: rest) := rfl
  have hdigit : ¬ isdigit (peek (ch 'd' :: rest)) = true := by
    change ¬ isdigit (ch 'd') = true
    decide
  have hstar : ¬ peek (ch 'd' :: rest) = ch '*' := by
    change ¬ ch 'd' = ch '*'
    decide
  rw [formatDecode_percent hspec, hflags]
  dsimp only
  rw [if_neg hdigit, if_neg hstar, decodePrecision_none (by decide), decodeQualifier_int]
  rfl

theorem formatDecode_ten (rest : Str) (hspec : ¬ Unfinished spec) :
    formatDecode (ch '%' :: ch '0' :: ch '1' :: ch '0' :: ch 'u' :: rest) spec = (tenSpec, rest) := by
  have hflags : takeFlags noFlags (ch '0' :: ch '1' :: ch '0' :: ch 'u' :: rest) =
      ({ noFlags with zeropad := true }, ch '1' :: ch '0' :: ch 'u' :: rest) := rfl
  have hdigit : isdigit (peek (ch '1' :: ch '0' :: ch 'u' :: rest)) = true := by
    change isdigit (ch '1') = true
    decide
  have hwidth : skipAtoi (ch '1' :: ch '0' :: ch 'u' :: rest) = (10, ch 'u' :: rest) := rfl
  have hten : s16 ((10 : Nat) : Int) = 10 := by decide
  rw [formatDecode_percent hspec, hflags]
  dsimp only
  rw [if_pos hdigit, hwidth, decodePrecision_none (by decide), decodeQualifier_unsigned rfl]
  dsimp only
  rw [hten]
  rfl

/-- Characters that are copied. -/
def Literal (text : Str) : Prop := text ≠ [] ∧ ∀ c ∈ text, c ≠ 0 ∧ c ≠ ch '%'

theorem formatDecode_text {text rest : Str} (htext : Literal text)
    (hrest : peek rest = 0 ∨ peek rest = ch '%') (hspec : ¬ Unfinished spec) :
    formatDecode (text ++ rest) spec = ({ spec with type := .none }, rest) := by
  have hplain : ∀ c ∈ text, (c != 0 && c != ch '%') = true := by
    intro c hc
    simpa using htext.2 c hc
  have hstop : rest.takeWhile (fun c => c != 0 && c != ch '%') = [] := by
    cases rest with
    | nil => rfl
    | cons c rest =>
        apply List.takeWhile_cons_of_neg
        rcases hrest with h | h
        · have hc : c = 0 := h
          rw [hc]
          decide
        · have hc : c = ch '%' := h
          rw [hc]
          decide
  have htake : (text ++ rest).takeWhile (fun c => c != 0 && c != ch '%') = text := by
    rw [List.takeWhile_append_of_pos hplain, hstop, List.append_nil]
  unfold formatDecode
  rw [if_neg fun h => hspec (.inl h), if_neg fun h => hspec (.inr h)]
  dsimp only
  rw [htake, if_pos (.inl htext.1), List.drop_left]

theorem round_text {text rest : Str} (htext : Literal text)
    (hrest : peek rest = 0 ∨ peek rest = ch '%') (hspec : ¬ Unfinished spec) :
    vsnprintfRound rom describe va ⟨text ++ rest, spec, args⟩ =
      (.text text, ⟨rest, { spec with type := .none }, args⟩) := by
  have htake : (text ++ rest).take ((text ++ rest).length - rest.length) = text := by
    rw [List.length_append, Nat.add_sub_cancel, List.take_left]
  unfold vsnprintfRound
  dsimp only
  rw [formatDecode_text htext hrest hspec]
  unfold vsnprintfSwitch
  dsimp only
  rw [htake]

theorem round_string {rest : Str} (hspec : ¬ Unfinished spec) :
    vsnprintfRound rom describe va ⟨ch '%' :: ch 's' :: rest, spec, args⟩ =
      (.chars (string rom (va args % 2 ^ 32) stringSpec), ⟨rest, stringSpec, args + 1⟩) := by
  unfold vsnprintfRound
  dsimp only
  rw [formatDecode_string rest hspec]
  rfl

theorem round_int {rest : Str} (hspec : ¬ Unfinished spec) :
    vsnprintfRound rom describe va ⟨ch '%' :: ch 'd' :: rest, spec, args⟩ =
      (.chars (number (signExtend 32 (va args % 2 ^ 32)) intSpec), ⟨rest, intSpec, args + 1⟩) := by
  unfold vsnprintfRound
  dsimp only
  rw [formatDecode_int rest hspec]
  rfl

theorem round_ten {rest : Str} (hspec : ¬ Unfinished spec) :
    vsnprintfRound rom describe va
        ⟨ch '%' :: ch '0' :: ch '1' :: ch '0' :: ch 'u' :: rest, spec, args⟩ =
      (.chars (number (va args % 2 ^ 32) tenSpec), ⟨rest, tenSpec, args + 1⟩) := by
  unfold vsnprintfRound
  dsimp only
  rw [formatDecode_ten rest hspec]
  rfl

/-- One character between two conversions. -/
theorem round_char (hzero : c ≠ 0) (hpercent : c ≠ ch '%') (hspec : ¬ Unfinished spec) :
    vsnprintfRound rom describe va ⟨c :: ch '%' :: rest, spec, args⟩ =
      (.text [c], ⟨ch '%' :: rest, { spec with type := .none }, args⟩) := by
  have hliteral : Literal [c] := by
    refine ⟨List.cons_ne_nil c [], ?_⟩
    intro d hd
    rw [List.mem_singleton.mp hd]
    exact ⟨hzero, hpercent⟩
  exact round_text hliteral (.inr rfl) hspec

/-! ## Names -/

/-- `"%s/%d-%d-%010u-%010u"` and the suffix. -/
def nameFormat (suffix : Str) : Str :=
  ch '%' :: ch 's' :: ch '/' :: ch '%' :: ch 'd' :: ch '-' :: ch '%' :: ch 'd' :: ch '-' ::
    ch '%' :: ch '0' :: ch '1' :: ch '0' :: ch 'u' :: ch '-' ::
    ch '%' :: ch '0' :: ch '1' :: ch '0' :: ch 'u' :: suffix

/-- What a name is made of. -/
@[ext]
structure Key where
  pid : Nat
  tid : Nat
  sec : Nat
  usec : Nat
  pid_lt : pid < 2 ^ 31
  tid_lt : tid < 2 ^ 31
  sec_lt : sec < 2 ^ 32
  usec_lt : usec < 2 ^ 32

/-- The arguments behind the format. -/
def nameArgs (dir : Nat) (k : Key) : Nat → Nat
  | 0 => dir
  | 1 => k.pid
  | 2 => k.tid
  | 3 => k.sec
  | _ => k.usec

def keyText (k : Key) : Str :=
  number k.pid intSpec ++ ch '-' :: (number k.tid intSpec ++ ch '-' ::
    (number k.sec tenSpec ++ ch '-' :: number k.usec tenSpec))

theorem signExtend_eq {n : Nat} (hn : n < 2 ^ 31) : signExtend 32 (n % 2 ^ 32) = n := by
  rw [Nat.mod_eq_of_lt (by omega), signExtend, if_neg (by omega)]

theorem finished (h : spec.type ≠ .width ∧ spec.type ≠ .precision) : ¬ Unfinished spec := by
  rintro (hwidth | hprec)
  · exact h.1 hwidth
  · exact h.2 hprec

theorem formatActions_name {suffix : Str} {dir : Nat} {k : Key} (hsuffix : Literal suffix) :
    formatActions rom describe (nameArgs dir k) (nameFormat suffix) =
      [.chars (string rom (dir % 2 ^ 32) stringSpec), .text [ch '/'],
        .chars (number k.pid intSpec), .text [ch '-'],
        .chars (number k.tid intSpec), .text [ch '-'],
        .chars (number k.sec tenSpec), .text [ch '-'],
        .chars (number k.usec tenSpec), .text suffix] := by
  have hfuel : 2 * (nameFormat suffix).length + 2 =
      2 * suffix.length + 32 + 1 + 1 + 1 + 1 + 1 + 1 + 1 + 1 + 1 + 1 := by
    simp only [nameFormat, List.length_cons]
    omega
  have hlast : peek suffix ≠ 0 := by
    cases suffix with
    | nil => exact absurd rfl hsuffix.1
    | cons c suffix => exact (hsuffix.2 c List.mem_cons_self).1
  have hpercent (fmt : Str) : peek (ch '%' :: fmt) ≠ 0 := by
    change ch '%' ≠ 0
    decide
  have hslash (fmt : Str) : peek (ch '/' :: fmt) ≠ 0 := by
    change ch '/' ≠ 0
    decide
  have hdash (fmt : Str) : peek (ch '-' :: fmt) ≠ 0 := by
    change ch '-' ≠ 0
    decide
  have hend := @round_text rom describe (nameArgs dir k) tenSpec 5 suffix [] hsuffix (.inl rfl)
    (finished (by decide))
  rw [List.append_nil] at hend
  unfold formatActions
  rw [hfuel, nameFormat,
    actions_step (hpercent _), round_string (finished (by decide)),
    actions_step (hslash _), round_char (by decide) (by decide) (finished (by decide)),
    actions_step (hpercent _), round_int (finished (by decide)),
    actions_step (hdash _), round_char (by decide) (by decide) (finished (by decide)),
    actions_step (hpercent _), round_int (finished (by decide)),
    actions_step (hdash _), round_char (by decide) (by decide) (finished (by decide)),
    actions_step (hpercent _), round_ten (finished (by decide)),
    actions_step (hdash _), round_char (by decide) (by decide) (finished (by decide)),
    actions_step (hpercent _), round_ten (finished (by decide)),
    actions_step hlast, hend, actions_nil]
  simp only [nameArgs, signExtend_eq k.pid_lt, signExtend_eq k.tid_lt, Nat.mod_eq_of_lt k.sec_lt,
    Nat.mod_eq_of_lt k.usec_lt]

theorem formatted_name {suffix : Str} {dir : Nat} {k : Key} (hsuffix : Literal suffix) :
    formatted rom describe (nameArgs dir k) (nameFormat suffix) =
      string rom (dir % 2 ^ 32) stringSpec ++ ch '/' :: (keyText k ++ suffix) := by
  rw [formatted, formatActions_name hsuffix]
  simp only [List.flatMap_cons, List.flatMap_nil, printed, keyText, List.append_assoc,
    List.cons_append, List.nil_append, List.append_nil]

theorem countFree_name {suffix : Str} {dir : Nat} {k : Key} (hsuffix : Literal suffix) :
    CountFree rom describe (nameArgs dir k) (nameFormat suffix) := by
  rw [CountFree, formatActions_name hsuffix]
  simp only [List.forall_mem_cons, isCount, true_and]
  exact List.forall_mem_nil _

/-! ## Different keys have different names -/

/-- A numeral that ends can be taken off a text. -/
theorem number_inj {n n' : Nat} {rest' : Str} (h : Plain spec n) (h' : Plain spec n')
    (hleft : spec.flags.left = false) (hrest : Ends spec.base rest) (hrest' : Ends spec.base rest')
    (heq : number n spec ++ rest = number n' spec ++ rest') : n = n' ∧ rest = rest' := by
  have hread : simpleStrtoull ((number n spec ++ rest).dropWhile (· == ch ' ')) spec.base =
      simpleStrtoull ((number n' spec ++ rest').dropWhile (· == ch ' ')) spec.base := by rw [heq]
  rw [simpleStrtoull_number h hrest, simpleStrtoull_number h' hrest', hleft] at hread
  exact Prod.mk.inj hread

theorem plain_int {n : Nat} (hn : n < 2 ^ 31) : Plain intSpec n where
  base := .inr (.inl rfl)
  lt := by omega
  positive _ := ⟨by omega, rfl, rfl⟩
  unmarked := rfl
  precision_lt := by decide
  width_ge := by decide
  width_lt := by decide

theorem plain_ten {n : Nat} (hn : n < 2 ^ 32) : Plain tenSpec n where
  base := .inr (.inl rfl)
  lt := by omega
  positive h := absurd h (by decide)
  unmarked := rfl
  precision_lt := by decide
  width_ge := by decide
  width_lt := by decide

theorem ends_dash (rest : Str) : Ends 10 (ch '-' :: rest) where
  digit h := absurd h (by change ¬ Proc.Vsscanf.isxdigit (ch '-') = true; decide)
  mark h := absurd h (by decide)

theorem keyText_inj {k k' : Key} {s s' : Str} (hs : Ends 10 s) (hs' : Ends 10 s')
    (heq : keyText k ++ s = keyText k' ++ s') : k = k' := by
  simp only [keyText, List.append_assoc, List.cons_append] at heq
  obtain ⟨hpid, heq⟩ := number_inj (plain_int k.pid_lt) (plain_int k'.pid_lt) rfl
    (ends_dash _) (ends_dash _) heq
  obtain ⟨htid, heq⟩ := number_inj (plain_int k.tid_lt) (plain_int k'.tid_lt) rfl
    (ends_dash _) (ends_dash _) (List.cons.inj heq).2
  obtain ⟨hsec, heq⟩ := number_inj (plain_ten k.sec_lt) (plain_ten k'.sec_lt) rfl
    (ends_dash _) (ends_dash _) (List.cons.inj heq).2
  obtain ⟨husec, -⟩ := number_inj (plain_ten k.usec_lt) (plain_ten k'.usec_lt) rfl hs hs'
    (List.cons.inj heq).2
  exact Key.ext hpid htid hsec husec

/-- A suffix that starts with a point, or what is left of it. -/
theorem ends_take_point (suffix : Str) (n : Nat) : Ends 10 ((ch '.' :: suffix).take n) := by
  refine ⟨fun h => ?_, fun h => absurd h (by decide)⟩
  cases n with
  | zero => exact absurd h (by change ¬ Proc.Vsscanf.isxdigit 0 = true; decide)
  | succ n => exact absurd h (by change ¬ Proc.Vsscanf.isxdigit (ch '.') = true; decide)

/-- What comes behind the point of a name. -/
structure Suffix where
  text : Str
  literal : Literal (ch '.' :: text)
  length_lt : text.length < maxOutputFnLen

/-- The name that `snprintf` leaves in a buffer of `MAX_OUTPUT_FN_LEN - 1` bytes, and the
length that it returns. -/
def storedName (rom : Rom) (describe : Str → Nat → Str) (mem : Memory) (buf dir : Nat)
    (suffix : Suffix) (k : Key) : Except Stop (Nat × Str) := do
  let p ← vsnprintf rom describe (nameArgs dir k) mem buf (maxOutputFnLen - 1)
    (nameFormat (ch '.' :: suffix.text))
  pure (p.ret, readBytes p.mem buf (min p.ret (maxOutputFnLen - 2)))

/-- The text of a name, whatever its length. -/
def nameText (rom : Rom) (dir : Nat) (suffix : Suffix) (k : Key) : Str :=
  string rom (dir % 2 ^ 32) stringSpec ++ ch '/' :: (keyText k ++ ch '.' :: suffix.text)

theorem strnlen_le {mem : Memory} {s i : Nat} (hnul : mem (s + i) = 0) (count : Nat) :
    strnlen mem s count ≤ i := by
  induction count generalizing s i with
  | zero => exact Nat.zero_le i
  | succ count ih =>
      rw [strnlen]
      split
      · exact Nat.zero_le i
      · rename_i hchar
        cases i with
        | zero => exact absurd hnul hchar
        | succ i =>
            apply Nat.succ_le_succ
            apply ih
            rw [Nat.add_assoc, Nat.add_comm 1]
            exact hnul

/-- `%s` has neither a width nor a precision. -/
theorem padString_stringSpec (chars : Str) : padString chars stringSpec = chars := by
  have hlead : whileLt chars.length (-1) = (0, -2) := by
    rw [whileLt, if_neg (by omega)]
    rfl
  have htrail : whileLt chars.length (-2) = (0, -3) := by
    rw [whileLt, if_neg (by omega)]
    rfl
  simp [padString, stringSpec, noFlags, hlead, htrail]

theorem length_string {s i : Nat} (hs : pageSize ≤ s) (hnul : rom.mem (s + i) = 0) :
    (string rom s stringSpec).length ≤ i := by
  rw [string, padString_stringSpec, if_neg (by omega), length_readBytes]
  exact strnlen_le hnul _

theorem length_string_lt (rom : Rom) (s : Nat) : (string rom s stringSpec).length < 2 ^ 31 := by
  by_cases hs : s < pageSize
  · rw [string, padString_stringSpec, if_pos hs]
    decide
  · obtain ⟨i, hi, hnul⟩ := rom.ends s
    exact (length_string (by omega) hnul).trans_lt hi

theorem length_nameText (dir : Nat) (suffix : Suffix) (k : Key) :
    (nameText rom dir suffix k).length < 2 ^ 32 := by
  have hdir := length_string_lt rom (dir % 2 ^ 32)
  have hsuffix := suffix.length_lt
  have hpid := length_number (plain_int k.pid_lt)
  have htid := length_number (plain_int k.tid_lt)
  have hsec := length_number (plain_ten k.sec_lt)
  have husec := length_number (plain_ten k.usec_lt)
  have hint : (max intSpec.fieldWidth intSpec.precision).toNat = 0 := by decide
  have hten : (max tenSpec.fieldWidth tenSpec.precision).toNat = 10 := by decide
  have hmax : maxOutputFnLen = 128 := rfl
  simp only [nameText, keyText, List.length_append, List.length_cons]
  omega

theorem formatted_nameText {dir : Nat} {suffix : Suffix} {k : Key} :
    formatted rom describe (nameArgs dir k) (nameFormat (ch '.' :: suffix.text)) =
      nameText rom dir suffix k := formatted_name suffix.literal

section Stored

variable {mem : Memory} {buf dir len : Nat} {suffix : Suffix} {name : Str} {k : Key}

theorem storedName_eq (hbuf : buf + 127 < 2 ^ 32)
    (hlen : (nameText rom dir suffix k).length < maxOutputFnLen) :
    storedName rom describe mem buf dir suffix k =
      .ok ((nameText rom dir suffix k).length, (nameText rom dir suffix k).take 126) := by
  have hread (text : Str) : readBytes (writeBytes mem buf (text.take 126 ++ [0])) buf
      (min text.length 126) = text.take 126 := by
    have hmin : min text.length 126 = (text.take 126).length := by
      rw [List.length_take, Nat.min_comm]
    rw [hmin, ← writeBytes_append, readBytes_writeBytes_after (Nat.le_refl _),
      readBytes_writeBytes_same]
  have hwrap : buf + (formatted rom describe (nameArgs dir k)
      (nameFormat (ch '.' :: suffix.text))).length < 2 ^ 32 := by
    have hmax : maxOutputFnLen = 128 := rfl
    rw [formatted_nameText]
    omega
  unfold storedName
  rw [show maxOutputFnLen - 1 = 127 from rfl, show maxOutputFnLen - 2 = 126 from rfl,
    vsnprintf_eq (countFree_name suffix.literal) (by decide) hbuf hwrap, ok_bind, formatted_nameText]
  dsimp only
  rw [if_pos (by decide), hread]
  rfl

/-- The length that is returned tells whether the name is whole. -/
theorem storedName_length (hbuf : buf + 127 < 2 ^ 32)
    (h : storedName rom describe mem buf dir suffix k = .ok (len, name)) :
    len = (nameText rom dir suffix k).length := by
  obtain ⟨p, hrun, hret, -⟩ := @vsnprintf_spec rom describe (nameArgs dir k) buf
    (maxOutputFnLen - 1) mem (nameFormat (ch '.' :: suffix.text)) (by decide) (by omega)
  rw [formatted_nameText] at hret
  unfold storedName at h
  rw [hrun, ok_bind] at h
  obtain ⟨rfl, -⟩ := Prod.mk.inj (Except.ok.inj h)
  exact hret.trans (Nat.mod_eq_of_lt (length_nameText dir suffix k))

end Stored

theorem take_name {d key suffix : Str} (hlen : (d ++ ch '/' :: (key ++ suffix)).length < 128)
    (hsuffix : suffix ≠ []) :
    (d ++ ch '/' :: (key ++ suffix)).take 126 =
      d ++ ch '/' :: (key ++ suffix.take (126 - (d.length + 1 + key.length))) := by
  have hpos := List.length_pos_iff.mpr hsuffix
  have hassoc (s : Str) : d ++ ch '/' :: (key ++ s) = (d ++ ch '/' :: key) ++ s := by
    rw [List.append_assoc, List.cons_append]
  simp only [List.length_append, List.length_cons] at hlen
  rw [hassoc, hassoc, List.take_append, List.take_of_length_le]
  · rw [List.length_append, List.length_cons]
    congr 2
    omega
  · rw [List.length_append, List.length_cons]
    omega

/-- Files of different processes, threads or times have different names, also with suffixes
of their own and when the last character of a name that passes the assertion is lost. -/
theorem file_names_differ {mem mem' : Memory} {buf buf' dir len len' : Nat}
    {suffix suffix' : Suffix} {name : Str} {k k' : Key} (hbuf : buf + 127 < 2 ^ 32)
    (hbuf' : buf' + 127 < 2 ^ 32)
    (h : storedName rom describe mem buf dir suffix k = .ok (len, name))
    (h' : storedName rom describe mem' buf' dir suffix' k' = .ok (len', name))
    (hlen : len < maxOutputFnLen) (hlen' : len' < maxOutputFnLen) : k = k' := by
  rw [storedName_length hbuf h] at hlen
  rw [storedName_length hbuf' h'] at hlen'
  rw [storedName_eq hbuf hlen] at h
  rw [storedName_eq hbuf' hlen'] at h'
  have heq := (Prod.mk.inj (Except.ok.inj h)).2.trans (Prod.mk.inj (Except.ok.inj h')).2.symm
  rw [nameText, nameText, take_name hlen suffix.literal.1, take_name hlen' suffix'.literal.1] at heq
  have hkeys := (List.cons.inj (List.append_cancel_left heq)).2
  exact keyText_inj (ends_take_point _ _) (ends_take_point _ _) hkeys

/-- `LOG_DIR` as the build sets it. -/
def logDir : Str :=
  [ch '/', ch 't', ch 'm', ch 'p', ch '/', ch 's', ch 'n', ch 'i', ch 't', ch 'c', ch 'h', ch 'a',
    ch 's', ch 'e', ch 'r']

/-- The string from address 8192 on. -/
def dirRom : Rom where
  mem a := logDir.getD (a - 0x2000) 0
  ends s := by
    refine ⟨0x200F, by decide, ?_⟩
    apply List.getD_eq_default
    change 15 ≤ _
    omega

theorem literal_point {text : Str} (h : text.all (fun c => c != 0 && c != ch '%') = true) :
    Literal (ch '.' :: text) := by
  refine ⟨List.cons_ne_nil _ _, List.forall_mem_cons.mpr ⟨⟨by decide, by decide⟩, ?_⟩⟩
  intro c hc
  simpa using List.all_eq_true.mp h c hc

def logSuffix : Suffix := ⟨[ch 'l', ch 'o', ch 'g'], literal_point rfl, by decide⟩

def ckptSuffix : Suffix := ⟨[ch 'c', ch 'k', ch 'p', ch 't'], literal_point rfl, by decide⟩

def firstThread : Key := ⟨1234, 1234, 1287000000, 42, by decide, by decide, by decide, by decide⟩

def secondThread : Key := ⟨1234, 1235, 1287000000, 42, by decide, by decide, by decide, by decide⟩

theorem length_firstThread :
    (nameText dirRom 0x2000 logSuffix firstThread).length < maxOutputFnLen := by
  have hdir : (string dirRom (0x2000 % 2 ^ 32) stringSpec).length ≤ 15 :=
    length_string (by decide) (by decide)
  have hkey : (keyText firstThread).length = 31 := by decide
  have hmax : maxOutputFnLen = 128 := rfl
  rw [nameText, List.length_append, List.length_cons, List.length_append, hkey]
  change _ + (31 + 4 + 1) < _
  omega

/-- The log of one thread and the checkpoint of another, at the same time. -/
theorem file_names_differ_two_threads :
    storedName dirRom (fun _ _ => []) (fun _ => 7) 0x1000 0x2000 logSuffix firstThread ≠
      storedName dirRom (fun _ _ => []) (fun _ => 9) 0x3000 0x2000 ckptSuffix secondThread := by
  intro heq
  have hfirst := @storedName_eq dirRom (fun _ _ => []) (fun _ => 7) 0x1000 0x2000 logSuffix
    firstThread (by decide) length_firstThread
  have hsame := file_names_differ (by decide) (by decide) hfirst (heq ▸ hfirst) length_firstThread
    length_firstThread
  exact absurd (congrArg Key.tid hsame) (by decide)

end Snitchaser.Printf.Names
