import Snitchaser.Lib.Numeral
import Snitchaser.Printf.Decimal
/-!
# Numbers that are printed and read again

`number` prints the numeral of its argument in the base of the conversion, and
`simple_strtoull` reads that numeral back.
-/

namespace Snitchaser.Printf.Number

open Snitchaser.Lib.Numeral
open Snitchaser.Printf.Decimal
open Snitchaser.Printf.Model
open Snitchaser.Proc.Vsscanf (Str ch peek isxdigit tolower digitValue simpleStrtoull strtoullLoop)

/-! ## The digits -/

/-- The bases of the conversions. -/
def IsBase (base : Nat) : Prop := base = 8 ∨ base = 10 ∨ base = 16

variable {base n : Nat} {small : Bool}

theorem IsBase.bounds (h : IsBase base) : 1 < base ∧ base ≤ 16 := by
  rcases h with rfl | rfl | rfl <;> decide

theorem letter_eq_digit : ∀ small, ∀ d < 10, letter small d = digit d := by decide

theorem map_letter_eq_digit {ds : List Nat} (h : ∀ d ∈ ds, d < 10) :
    ds.map (letter small) = ds.map digit :=
  List.map_congr_left fun d hd => letter_eq_digit small d (h d hd)

theorem bitDigits_eq {shift fuel : Nat} (hshift : 0 < shift) (hle : shift ≤ 8) (hpos : 0 < n)
    (hn : n < (2 ^ shift) ^ fuel) :
    bitDigits (2 ^ shift - 1) shift small fuel n = (Nat.digits (2 ^ shift) n).map (letter small) := by
  have hbase : 1 < 2 ^ shift := Nat.one_lt_two_pow (by omega)
  have hdvd : 2 ^ shift ∣ 256 := pow_dvd_pow 2 hle
  induction fuel generalizing n with
  | zero =>
      rw [pow_zero] at hn
      omega
  | succ fuel ih =>
      unfold bitDigits
      rw [Nat.and_two_pow_sub_one_eq_mod, Nat.mod_mod_of_dvd n hdvd, Nat.shiftRight_eq_div_pow,
        Nat.digits_def' hbase hpos, List.map_cons]
      congr 1
      by_cases hlast : n / 2 ^ shift = 0
      · rw [if_pos hlast, hlast, Nat.digits_zero, List.map_nil]
      · rw [if_neg hlast]
        exact ih (Nat.pos_of_ne_zero hlast)
          (Nat.div_lt_of_lt_mul (by rwa [← Nat.pow_succ']))

theorem reverseDigits_eq (hbase : IsBase base) (hpos : 0 < n) (hn : n < 2 ^ 64) :
    reverseDigits base small n = (Nat.digits base n).map (letter small) := by
  unfold reverseDigits
  rw [if_neg hpos.ne']
  rcases hbase with rfl | rfl | rfl
  · exact @bitDigits_eq n small 3 22 (by decide) (by decide) hpos (by omega)
  · rw [if_neg (by decide), putDec_eq hpos hn]
    exact (map_letter_eq_digit fun d hd => Nat.digits_lt_base (by decide) hd).symm
  · exact @bitDigits_eq n small 4 22 (by decide) (by decide) hpos (by omega)

theorem reverse_reverseDigits (hbase : IsBase base) (hn : n < 2 ^ 64) :
    (reverseDigits base small n).reverse = (numeral base 1 n).map (letter small) := by
  rw [numeral, List.map_reverse, Nat.digitsAppend]
  congr 1
  by_cases hpos : 0 < n
  · have hlen : 1 - (Nat.digits base n).length = 0 := by
      have := List.length_pos_iff.mpr (Nat.digits_ne_nil_iff_ne_zero.mpr hpos.ne' : Nat.digits base n ≠ [])
      omega
    rw [reverseDigits_eq hbase hpos hn, hlen, List.replicate_zero, List.append_nil]
  · rw [Nat.eq_zero_of_not_pos hpos, Nat.digits_zero]
    cases small <;> rfl

theorem length_reverseDigits (hbase : IsBase base) (hn : n < 2 ^ 64) :
    0 < (reverseDigits base small n).length ∧ (reverseDigits base small n).length ≤ 22 := by
  by_cases hpos : 0 < n
  · have hne : Nat.digits base n ≠ [] := Nat.digits_ne_nil_iff_ne_zero.mpr hpos.ne'
    rw [reverseDigits_eq hbase hpos hn, List.length_map]
    refine ⟨List.length_pos_iff.mpr hne, (Nat.digits_length_le_iff hbase.bounds.1 n).mpr ?_⟩
    rcases hbase with rfl | rfl | rfl <;> omega
  · unfold reverseDigits
    rw [if_pos (Nat.eq_zero_of_not_pos hpos)]
    exact ⟨by decide, by decide⟩

/-! ## The width -/

theorem s16_eq {x : Int} (hlow : -2 ^ 15 ≤ x) (hhigh : x < 2 ^ 15) : s16 x = x := by
  unfold s16
  rw [Int.bmod_def]
  omega

theorem whileGe_eq {w : Int} (hlow : -2 ^ 15 < w) (hhigh : w < 2 ^ 15) :
    whileGe w = (w.toNat, if 0 < w then -1 else w - 1) := by
  unfold whileGe
  dsimp only
  rw [s16_eq (by omega) (by omega)]
  by_cases hpos : 0 < w
  · rw [if_pos (by omega), if_pos hpos]
    congr 1
    omega
  · rw [if_neg (by omega), if_neg hpos]
    congr 1
    omega

theorem whileGe_neg {w : Int} (hlow : -2 ^ 15 < w) (hneg : w ≤ 0) : whileGe w = (0, w - 1) := by
  rw [whileGe_eq hlow (by omega), if_neg (by omega), Int.toNat_of_nonpos hneg]

/-- A conversion of `n` that prints no sign and no mark of the base.  A precision close to
the largest `s16` takes the width around. -/
structure Plain (spec : Spec) (n : Nat) : Prop where
  base : IsBase spec.base
  lt : n < 2 ^ 64
  positive : spec.flags.sign = true →
    n < 2 ^ 63 ∧ spec.flags.plus = false ∧ spec.flags.space = false
  unmarked : needPfx spec = false
  precision_lt : spec.precision < 2 ^ 15 - 3
  width_ge : -1 ≤ spec.fieldWidth
  width_lt : spec.fieldWidth < 2 ^ 15

variable {spec : Spec}

/-- `number` from the values of its variables, where there is no sign. -/
theorem number_of_parts {flags : Flags} {tmp : Str} {precision width : Int} {lead pad : Nat × Int}
    (hflags : (if spec.flags.left then { spec.flags with zeropad := false } else spec.flags) = flags)
    (hsplit : splitSign flags n spec.fieldWidth = (none, n, spec.fieldWidth))
    (htmp : reverseDigits spec.base spec.flags.small n = tmp)
    (hprecision : (if spec.precision < tmp.length then (tmp.length : Int) else spec.precision) =
      precision)
    (hwidth : s16 (pfxWidth spec spec.fieldWidth - precision) = width)
    (hlead : (if !(flags.zeropad || flags.left) then whileGe width else (0, width)) = lead)
    (hpad : (if !flags.left then whileGe lead.2 else (0, lead.2)) = pad) :
    number n spec =
      List.replicate lead.1 (ch ' ') ++ pfxChars spec ++
        List.replicate pad.1 (if flags.zeropad then ch '0' else ch ' ') ++
        List.replicate (precision - tmp.length).toNat (ch '0') ++ tmp.reverse ++
        List.replicate (whileGe pad.2).1 (ch ' ') := by
  subst hpad hlead hwidth hprecision htmp hflags
  simp only [number, hsplit, Option.toList_none, List.append_nil]

theorem splitSign_plain (h : Plain spec n) (zeropad : Bool) :
    splitSign { spec.flags with zeropad := zeropad } n spec.fieldWidth =
      (none, n, spec.fieldWidth) := by
  unfold splitSign
  by_cases hsigned : spec.flags.sign = true
  · obtain ⟨hlt, hplus, hspace⟩ := h.positive hsigned
    simp only [hsigned, hplus, hspace]
    rw [if_pos trivial, if_neg (by omega)]
    rfl
  · simp only [hsigned]
    rfl

/-- The digits that are printed, at least. -/
def zeroWidth (spec : Spec) : Int :=
  if spec.flags.zeropad && !spec.flags.left then max spec.fieldWidth spec.precision
  else spec.precision

/-- What is left of the width behind `len` digits or the precision. -/
def blanks (spec : Spec) (len : Nat) : Nat := (spec.fieldWidth - max spec.precision len).toNat

theorem number_plain (h : Plain spec n) {tmp : Str}
    (htmp : reverseDigits spec.base spec.flags.small n = tmp) :
    number n spec =
      List.replicate (if spec.flags.zeropad || spec.flags.left then 0 else blanks spec tmp.length)
          (ch ' ') ++
        (List.replicate ((zeroWidth spec).toNat - tmp.length) (ch '0') ++ tmp.reverse) ++
        List.replicate (if spec.flags.left then blanks spec tmp.length else 0) (ch ' ') := by
  obtain ⟨hlen, hlen'⟩ := @length_reverseDigits spec.base n spec.flags.small h.base h.lt
  rw [htmp] at hlen hlen'
  have hlt := h.precision_lt
  have hge := h.width_ge
  have hwidth_lt := h.width_lt
  have hpfx : pfxChars spec = [] := by rw [pfxChars, h.unmarked, if_neg Bool.false_ne_true]
  have hprecision : (if spec.precision < (tmp.length : Int) then (tmp.length : Int)
      else spec.precision) = max spec.precision tmp.length := by omega
  have hwidth : s16 (pfxWidth spec spec.fieldWidth - max spec.precision tmp.length) =
      spec.fieldWidth - max spec.precision tmp.length := by
    rw [pfxWidth, h.unmarked, if_neg Bool.false_ne_true]
    exact s16_eq (by omega) (by omega)
  generalize hw : spec.fieldWidth - max spec.precision (tmp.length : Int) = w at hwidth
  have hloop : whileGe w = (w.toNat, if 0 < w then -1 else w - 1) :=
    whileGe_eq (by omega) (by omega)
  have hstop : whileGe (if 0 < w then -1 else w - 1) = (0, (if 0 < w then -1 else w - 1) - 1) :=
    whileGe_neg (by split <;> omega) (by split <;> omega)
  have hstop' : whileGe ((if 0 < w then -1 else w - 1) - 1) =
      (0, (if 0 < w then -1 else w - 1) - 1 - 1) :=
    whileGe_neg (by split <;> omega) (by split <;> omega)
  have hblanks : blanks spec tmp.length = w.toNat := congrArg Int.toNat hw
  -- the three places for the rest of the width: behind the number, as zeros, before it
  cases hleft : spec.flags.left with
  | true =>
      have hzeros : (max spec.precision (tmp.length : Int) - tmp.length).toNat =
          (zeroWidth spec).toNat - tmp.length := by
        rw [zeroWidth, hleft, Bool.not_true, Bool.and_false, if_neg Bool.false_ne_true]
        omega
      rw [number_of_parts (if_pos hleft) (splitSign_plain h false) htmp hprecision hwidth rfl rfl]
      simp [hleft, hpfx, hloop, hblanks, hzeros]
  | false =>
      have hflags : (if spec.flags.left then { spec.flags with zeropad := false } else spec.flags) =
          spec.flags := if_neg (ne_true_of_eq_false hleft)
      have hsplit := splitSign_plain h spec.flags.zeropad
      rw [number_of_parts hflags hsplit htmp hprecision hwidth rfl rfl]
      cases hzero : spec.flags.zeropad with
      | true =>
          have hzeros : w.toNat + (max spec.precision (tmp.length : Int) - tmp.length).toNat =
              (zeroWidth spec).toNat - tmp.length := by
            rw [zeroWidth, hleft, hzero, Bool.not_false, Bool.and_true, if_pos rfl]
            omega
          simp [hleft, hpfx, hloop, hstop, ← hzeros]
      | false =>
          have hzeros : (max spec.precision (tmp.length : Int) - tmp.length).toNat =
              (zeroWidth spec).toNat - tmp.length := by
            rw [zeroWidth, hzero, Bool.false_and, if_neg Bool.false_ne_true]
            omega
          simp [hleft, hpfx, hloop, hstop, hstop', hblanks, hzeros]

theorem length_number (h : Plain spec n) :
    (number n spec).length ≤ 22 + (max spec.fieldWidth spec.precision).toNat := by
  have hlen := (@length_reverseDigits spec.base n spec.flags.small h.base h.lt).2
  rw [number_plain h rfl]
  simp only [List.length_append, List.length_replicate, List.length_reverse, zeroWidth, blanks]
  cases spec.flags.left <;> cases spec.flags.zeropad <;> simp <;> omega

/-- Zeros in front of a numeral make a wider numeral. -/
theorem replicate_append_numeral {width : Nat} :
    List.replicate (width - (numeral base 1 n).length) 0 ++ numeral base 1 n =
      numeral base (max 1 width) n := by
  unfold numeral Nat.digitsAppend
  rw [← List.reverse_replicate, ← List.reverse_append, List.append_assoc,
    List.replicate_append_replicate]
  congr 3
  simp only [List.length_reverse, List.length_append, List.length_replicate]
  omega

theorem number_eq_numeral (h : Plain spec n) :
    number n spec =
      List.replicate (if spec.flags.zeropad || spec.flags.left then 0
          else blanks spec (numeral spec.base 1 n).length) (ch ' ') ++
        (numeral spec.base (max 1 (zeroWidth spec).toNat) n).map (letter spec.flags.small) ++
        List.replicate (if spec.flags.left then blanks spec (numeral spec.base 1 n).length else 0)
          (ch ' ') := by
  have htext := @reverse_reverseDigits spec.base n spec.flags.small h.base h.lt
  have hlen : (reverseDigits spec.base spec.flags.small n).length =
      (numeral spec.base 1 n).length := by
    rw [← List.length_reverse, htext, List.length_map]
  have hchar : letter spec.flags.small 0 = ch '0' := by cases spec.flags.small <;> rfl
  rw [number_plain h rfl, htext, ← replicate_append_numeral, List.map_append, List.map_replicate,
    hchar, hlen]

/-! ## Reading -/

theorem isxdigit_letter : ∀ small, ∀ d < 16, isxdigit (letter small d) = true := by decide

theorem digitValue_letter : ∀ small, ∀ d < 16, digitValue (letter small d) = d := by decide

/-- The character behind a numeral: no digit of the base, and in base 16 no mark. -/
structure Ends (base : Nat) (rest : Str) : Prop where
  digit : isxdigit (peek rest) = true → base ≤ digitValue (peek rest)
  mark : base = 16 → tolower (peek rest) ≠ ch 'x'

theorem strtoullLoop_letters {rest : Str} (hbase : base ≤ 16) (hrest : Ends base rest)
    {ds : List Nat} (hds : ∀ d ∈ ds, d < base) (acc : Nat) :
    strtoullLoop base (acc % 2 ^ 64) (ds.map (letter small) ++ rest) =
      (valueFrom base acc ds % 2 ^ 64, rest) := by
  induction ds generalizing acc with
  | nil =>
      cases rest with
      | nil => rfl
      | cons c rest =>
          rw [List.map_nil, List.nil_append, strtoullLoop]
          by_cases hc : isxdigit c = true
          · have hge : digitValue c ≥ base := hrest.digit hc
            rw [if_pos hc, if_pos hge]
            rfl
          · rw [if_neg hc]
            rfl
  | cons d ds ih =>
      have hd : d < base := hds d List.mem_cons_self
      have hmod : (acc % 2 ^ 64 * base + d) % 2 ^ 64 = (acc * base + d) % 2 ^ 64 := by
        rw [Nat.add_mod, Nat.mod_mul_mod, ← Nat.add_mod]
      rw [List.map_cons, List.cons_append, strtoullLoop,
        if_pos (isxdigit_letter small d (by omega)), digitValue_letter small d (by omega),
        if_neg (by omega), hmod]
      exact ih (fun e he => hds e (List.mem_cons_of_mem d he)) _

theorem tolower_letter : ∀ small, ∀ d < 16, tolower (letter small d) ≠ ch 'x' := by decide

/-- The second character is no mark of base 16. -/
theorem tail_not_mark {rest : Str} (hrest : Ends 16 rest) {ds : List Nat} (hne : ds ≠ [])
    (hds : ∀ d ∈ ds, d < 16) : tolower (peek (ds.map (letter small) ++ rest).tail) ≠ ch 'x' := by
  cases ds with
  | nil => exact absurd rfl hne
  | cons d ds =>
      cases ds with
      | nil => exact hrest.mark rfl
      | cons e ds => exact tolower_letter small e (hds e (List.mem_cons_of_mem d List.mem_cons_self))

theorem simpleStrtoull_numeral {rest : Str} {width : Nat} (hbase : IsBase base)
    (hrest : Ends base rest) (hn : n < 2 ^ 64) :
    simpleStrtoull ((numeral base (max 1 width) n).map (letter small) ++ rest) base = (n, rest) := by
  obtain ⟨hone, hle⟩ := hbase.bounds
  have hds : ∀ d ∈ numeral base (max 1 width) n, d < base := fun d hd => lt_of_mem_numeral hone hd
  have hne : numeral base (max 1 width) n ≠ [] := by
    have hlen := @le_length_numeral base (max 1 width) n
    exact List.length_pos_iff.mp (by omega)
  have hloop := @strtoullLoop_letters base small rest hle hrest _ hds 0
  have hmark : ¬ (base = 16 ∧
      peek ((numeral base (max 1 width) n).map (letter small) ++ rest) = ch '0' ∧
      tolower (peek ((numeral base (max 1 width) n).map (letter small) ++ rest).tail) = ch 'x') := by
    rintro ⟨rfl, -, hx⟩
    exact tail_not_mark hrest hne hds hx
  unfold simpleStrtoull
  dsimp only
  rw [if_neg (by omega), if_neg hmark]
  rw [valueFrom_numeral, Nat.mod_eq_of_lt hn] at hloop
  exact hloop

theorem letter_ne_blank : ∀ small, ∀ d < 16, letter small d ≠ ch ' ' := by decide

/-- The blanks before a numeral, and nothing else, are skipped. -/
theorem dropWhile_blanks {rest : Str} {k width : Nat} (hbase : IsBase base) :
    (List.replicate k (ch ' ') ++
        ((numeral base (max 1 width) n).map (letter small) ++ rest)).dropWhile (· == ch ' ') =
      (numeral base (max 1 width) n).map (letter small) ++ rest := by
  obtain ⟨hone, hle⟩ := hbase.bounds
  induction k with
  | zero =>
      have hlen := @le_length_numeral base (max 1 width) n
      obtain ⟨d, ds, hcons⟩ : ∃ d ds, numeral base (max 1 width) n = d :: ds :=
        List.exists_cons_of_ne_nil (List.length_pos_iff.mp (by omega))
      have hd : d < base := lt_of_mem_numeral hone (hcons ▸ List.mem_cons_self)
      rw [hcons, List.replicate_zero, List.nil_append, List.map_cons, List.cons_append,
        List.dropWhile_cons_of_neg]
      rw [beq_iff_eq]
      exact letter_ne_blank small d (by omega)
  | succ k ih =>
      rw [List.replicate_succ, List.cons_append, List.dropWhile_cons_of_pos, ih]
      exact beq_self_eq_true (ch ' ')

theorem ends_blanks {rest : Str} (hrest : Ends base rest) (k : Nat) :
    Ends base (List.replicate k (ch ' ') ++ rest) := by
  cases k with
  | zero => exact hrest
  | succ k =>
      constructor
      · intro hdigit
        exact absurd hdigit (by change ¬ isxdigit (ch ' ') = true; decide)
      · intro _
        change tolower (ch ' ') ≠ ch 'x'
        decide

theorem simpleStrtoull_number {rest : Str} (h : Plain spec n) (hrest : Ends spec.base rest) :
    simpleStrtoull ((number n spec ++ rest).dropWhile (· == ch ' ')) spec.base =
      (n, List.replicate (if spec.flags.left then blanks spec (numeral spec.base 1 n).length else 0)
        (ch ' ') ++ rest) := by
  rw [number_eq_numeral h, List.append_assoc, List.append_assoc, dropWhile_blanks h.base]
  exact simpleStrtoull_numeral h.base (ends_blanks hrest _) h.lt

/-- What `number` prints without a sign and a mark is read back by `simple_strtoull`, once the
blanks before it are skipped: whatever the width, the precision, the padding and the case of
the letters, up to the blanks that fill the width of a number aligned to the left. -/
theorem printed_number_reads_back {rest : Str} (h : Plain spec n) (hrest : Ends spec.base rest) :
    ∃ k, simpleStrtoull ((number n spec ++ rest).dropWhile (· == ch ' ')) spec.base =
        (n, List.replicate k (ch ' ') ++ rest) ∧
      (spec.flags.left = false → k = 0) :=
  ⟨_, simpleStrtoull_number h hrest, fun hleft => if_neg (ne_true_of_eq_false hleft)⟩

/-- `%12.8llx`. -/
def wideHex : Spec := ⟨.longLong, { noFlags with small := true }, 16, ch 'L', 12, 8⟩

theorem printed_number_reads_back_wideHex :
    simpleStrtoull ((number 0xFFE123 wideHex ++ [ch '-']).dropWhile (· == ch ' ')) 16 =
      (0xFFE123, [ch '-']) := by
  obtain ⟨k, hread, hk⟩ := @printed_number_reads_back 0xFFE123 wideHex [ch '-']
    ⟨.inr (.inr rfl), by decide, by decide, by decide, by decide, by decide, by decide⟩
    ⟨by decide, by decide⟩
  rw [hk rfl] at hread
  exact hread

end Snitchaser.Printf.Number
