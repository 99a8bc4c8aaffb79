import Mathlib.Data.Nat.Bitwise
import Snitchaser.Lzo.Format
import Snitchaser.Lzo.Safety
/-!
# The decompressor reads the format

The label `match` is where the decompressor stands between two groups: it has read the first
byte of a code.  From there it goes through the match and its literals to the first byte of
the next code.
-/

namespace Snitchaser.Lzo.Decoding

open Snitchaser.Defs
open Snitchaser.Lib.BackCopy
open Snitchaser.Lib.ByteMemory
open Snitchaser.Lib.Program
open Snitchaser.Lzo.Format
open Snitchaser.Lzo.Model
open Snitchaser.Lzo.Safety

variable {src : Source} {cap : Nat} {s : DState}

/-! ## Bits -/

theorem toNat_ofNat {n : Nat} (h : n < 256) : (UInt8.ofNat n).toNat = n :=
  UInt8.toNat_ofNat_of_lt' h

theorem and_three (x : Nat) : x &&& 3 = x % 4 := Nat.and_two_pow_sub_one_eq_mod x 2

theorem and_seven (x : Nat) : x &&& 7 = x % 8 := Nat.and_two_pow_sub_one_eq_mod x 3

theorem and_31 (x : Nat) : x &&& 31 = x % 32 := Nat.and_two_pow_sub_one_eq_mod x 5

theorem and_eight : ∀ t < 32, (t &&& 8) <<< 11 = t / 8 % 2 * 0x4000 := by decide

/-! ## Steps -/

/-- The sizes that the format needs: nothing behind the input is read. -/
structure Sizes (src : Source) (cap : Nat) : Prop where
  len_lt : src.len < 2 ^ 32
  limit_le : src.len ≤ src.limit
  cap_lt : cap < 2 ^ 32

def nextIp : Next → Nat
  | .goto _ s => s.ip
  | .done _ s => s.ip

/-- The run goes from `n` to `n'`, with no more steps than bytes that it reads. -/
def Reaches (src : Source) (cap : Nat) (n n' : Next) : Prop :=
  ∃ m, m + nextIp n ≤ nextIp n' ∧ ∀ fuel, run src cap (fuel + m) n = run src cap fuel n'

theorem Reaches.refl (n : Next) : Reaches src cap n n :=
  ⟨0, Nat.le_of_eq (Nat.zero_add _), fun _ => rfl⟩

theorem Reaches.trans {n n' n'' : Next} (h : Reaches src cap n n')
    (h' : Reaches src cap n' n'') : Reaches src cap n n'' := by
  obtain ⟨m, hm, hrun⟩ := h
  obtain ⟨m', hm', hrun'⟩ := h'
  refine ⟨m' + m, by omega, fun fuel => ?_⟩
  rw [← Nat.add_assoc, hrun, hrun']

theorem Reaches.of_step {l : Label} {n : Next} (hstep : step src cap l s = .ok n)
    (hip : s.ip < nextIp n) : Reaches src cap (.goto l s) n :=
  ⟨1, by change 1 + s.ip ≤ _; omega, fun fuel => by rw [run, hstep, ok_bind]⟩

theorem Reaches.run_done {n : Next} {c : Code} (h : Reaches src cap n (.done c s))
    (hip : s.ip ≤ src.len) : run src cap (src.len + 8) n = .ok (c, s.out) := by
  obtain ⟨m, hm, hrun⟩ := h
  change m + nextIp n ≤ s.ip at hm
  have hfuel : src.len + 8 = (src.len + 8 - m) + m := by omega
  rw [hfuel, hrun, run]

/-! ## Lengths -/

theorem lengthBytes_pos (n : Nat) : 0 < (lengthBytes n).length := by
  rw [length_lengthBytes]
  omega

theorem extendLoop_lengthBytes {base n t ip fuel : Nat} (hs : Sizes src cap) (hpos : 0 < n)
    (hbytes : BytesAt src.bytes ip (lengthBytes n))
    (hin : ip + (lengthBytes n).length ≤ src.len) (hfuel : (lengthBytes n).length ≤ fuel)
    (ht : t + base + n < 2 ^ 32) :
    extendLoop src base fuel t ip = .ok (some (t + base + n, ip + (lengthBytes n).length)) := by
  have hlen := hs.len_lt
  have hlimit := hs.limit_le
  induction n using lengthBytes.induct generalizing t ip fuel with
  | case1 n hlong ih =>
      rw [lengthBytes, if_pos hlong] at hbytes hin hfuel ⊢
      rw [List.length_cons] at hin hfuel ⊢
      obtain ⟨hzero, hrest⟩ := bytesAt_cons.mp hbytes
      have hmore := lengthBytes_pos (n - 255)
      have hend : haveIp src 1 (ip + 1) = false :=
        (haveIp_eq_false_iff hlen (by omega) (by omega)).mpr (by omega)
      have hsum : (t + 255) % 2 ^ 32 = t + 255 := Nat.mod_eq_of_lt (by omega)
      have hloop := @ih (t + 255) (ip + 1) (fuel - 1) (by omega) hrest (by omega) (by omega)
        (by omega)
      obtain ⟨fuel, rfl⟩ : ∃ f, fuel = f + 1 := ⟨fuel - 1, by omega⟩
      rw [extendLoop, read_ok (by omega), ok_bind, if_pos hzero, hend, if_neg Bool.false_ne_true,
        hsum]
      refine hloop.trans ?_
      rw [show t + 255 + base + (n - 255) = t + base + n by omega, Nat.add_assoc ip,
        Nat.add_comm 1]
  | case2 n hshort =>
      rw [lengthBytes, if_neg hshort] at hbytes hin hfuel ⊢
      rw [List.length_singleton] at hin hfuel ⊢
      have hbyte : src.bytes ip = UInt8.ofNat n := (bytesAt_cons.mp hbytes).1
      have hvalue : (UInt8.ofNat n).toNat = n := toNat_ofNat (by omega)
      have hzero : UInt8.ofNat n ≠ 0 := by
        intro h
        rw [h] at hvalue
        exact absurd hvalue.symm (by change n ≠ 0; omega)
      obtain ⟨fuel, rfl⟩ : ∃ f, fuel = f + 1 := ⟨fuel - 1, by omega⟩
      rw [extendLoop, read_ok (by omega), ok_bind, hbyte, if_neg hzero, hvalue,
        Nat.mod_eq_of_lt (by omega)]
      rfl

theorem extend_lengthBytes {base n ip : Nat} (hs : Sizes src cap) (hpos : 0 < n)
    (hbytes : BytesAt src.bytes ip (lengthBytes n))
    (hin : ip + (lengthBytes n).length ≤ src.len) (ht : base + n < 2 ^ 32) :
    extend src base 0 ip = .ok (some (base + n, ip + (lengthBytes n).length)) := by
  have hmore := lengthBytes_pos n
  have hend : haveIp src 1 ip = false :=
    (haveIp_eq_false_iff hs.len_lt (by omega) (by omega)).mpr (by omega)
  rw [extend, if_pos rfl, hend, if_neg Bool.false_ne_true,
    extendLoop_lengthBytes hs hpos hbytes hin (by omega) (by omega), Nat.zero_add]

/-- The first byte of a length code without its marker. -/
def lengthField (most len : Nat) : Nat := if len ≤ most then len - 2 else 0

theorem lengthField_le (most len : Nat) : lengthField most len ≤ most - 2 := by
  unfold lengthField
  split <;> omega

theorem lengthCode_head {marker most len p : Nat}
    (hbytes : BytesAt src.bytes p (lengthCode marker most len)) (hmost : 2 ≤ most)
    (hbyte : marker + most ≤ 257) : (src.bytes p).toNat = marker + lengthField most len := by
  unfold lengthCode at hbytes
  unfold lengthField
  split at hbytes
  · rename_i hle
    rw [(bytesAt_cons.mp hbytes).1, toNat_ofNat (by omega), if_pos hle]
  · rename_i hle
    rw [(bytesAt_cons.mp hbytes).1, toNat_ofNat (by omega), if_neg hle, Nat.add_zero]

theorem extend_lengthCode {marker most len p : Nat} (hs : Sizes src cap) (hthree : 3 ≤ len)
    (hmost : 2 ≤ most) (hlt : len < 2 ^ 32)
    (hbytes : BytesAt src.bytes p (lengthCode marker most len))
    (hin : p + (lengthCode marker most len).length ≤ src.len) :
    extend src (most - 2) (lengthField most len) (p + 1) =
      .ok (some (len - 2, p + (lengthCode marker most len).length)) := by
  unfold lengthCode at hbytes hin ⊢
  unfold lengthField
  split at hbytes
  · rename_i hle
    rw [if_pos hle, if_pos hle, extend, if_neg (by omega), List.length_singleton]
  · rename_i hle
    rw [if_neg hle] at hin
    rw [if_neg hle, if_neg hle]
    rw [List.length_cons] at hin ⊢
    rw [extend_lengthBytes hs (by omega) (bytesAt_cons.mp hbytes).2 (by omega) (by omega)]
    congr 3 <;> omega

/-! ## Matches -/

section Matches

variable {off len k p : Nat} {out : List UInt8}

def afterMatch (k : Nat) (s : DState) : Next :=
  if k = 0 then .goto .top s else .goto (.matchNext k) s

theorem matchDone_eq (hin : s.ip - 2 < src.limit) (hbyte : (src.bytes (s.ip - 2)).toNat % 4 = k) :
    matchDone src s = .ok (afterMatch k s) := by
  unfold matchDone afterMatch
  simp only [read_ok hin, ok_bind, and_three, hbyte]
  split <;> rfl

theorem copyMatch_eq (hm : MatchOk off len s.out.length) (hout : s.out.length + len ≤ cap) :
    copyMatch src cap off (len - 2) s = matchDone src { s with out := copyBack off len s.out } := by
  have hthree := hm.three_le
  have hcount : 2 + doWhile (len - 2) = len := by
    rw [doWhile, if_neg (by omega)]
    omega
  rw [copyMatch, hcount, backBytes_eq hm.off_pos hm.off_le hout, ok_bind]

/-- Copying four bytes at a time produces what copying one by one does. -/
theorem longCopy_eq (hcap : cap < 2 ^ 32) (hm : MatchOk off len s.out.length)
    (hout : s.out.length + len ≤ cap) :
    longCopy src cap off (len - 2) s = matchDone src { s with out := copyBack off len s.out } := by
  have hthree := hm.three_le
  have hlb : haveLb off s = false := haveLb_eq_false_iff.mpr ⟨hm.off_pos, hm.off_le⟩
  have hop : haveOp cap (len - 2 + 3 - 1) s = false :=
    (haveOp_eq_false_iff hcap (by omega) (by omega)).mpr (by omega)
  rw [longCopy, hlb, hop, if_neg Bool.false_ne_true, if_neg Bool.false_ne_true]
  split
  · rename_i hfour
    have hlen : (copyBack off 4 s.out).length = s.out.length + 4 := length_copyBack
    have hoff := hm.off_le
    have hrest : backRest cap off (len - 2 - (4 - (3 - 1))) ⟨s.ip, copyBack off 4 s.out⟩ =
        .ok ⟨s.ip, copyBack off (len - 4) (copyBack off 4 s.out)⟩ :=
      backRest_eq hfour.2 (by change off ≤ (copyBack off 4 s.out).length; omega)
        (by change (copyBack off 4 s.out).length + (len - 2 - 2) ≤ cap; omega)
    rw [backFour_eq hfour.2 hoff (by omega), ok_bind, hrest, ok_bind, ← copyBack_add,
      Nat.add_sub_cancel' (by omega)]
  · exact copyMatch_eq hm hout

/-- The state behind the code of a match. -/
def afterCode (p off len k : Nat) (out : List UInt8) : DState :=
  ⟨p + (matchBytes off len k).length, copyBack off len out⟩

/-- The last two bytes of the longer codes. -/
theorem offset_word {b0 b1 : UInt8} {o : Nat} (h0 : b0 = UInt8.ofNat (o % 64 * 4 + k))
    (h1 : b1 = UInt8.ofNat (o / 64 % 256)) (hk : k ≤ 3) :
    (b0.toNat + 256 * b1.toNat) >>> 2 = o % 0x4000 ∧ b0.toNat % 4 = k := by
  rw [h0, h1, toNat_ofNat (by omega), toNat_ofNat (by omega), Nat.shiftRight_eq_div_pow]
  omega

theorem matched_short (hs : Sizes src cap) (hm : MatchOk off len out.length) (hk : k ≤ 3)
    (hshort : off ≤ m2MaxOffset ∧ len ≤ m2MaxLen)
    (hbytes : BytesAt src.bytes p (matchBytes off len k))
    (hin : p + (matchBytes off len k).length ≤ src.len) (hout : out.length + len ≤ cap) :
    matched src cap (src.bytes p).toNat ⟨p + 1, out⟩ =
      .ok (afterMatch k (afterCode p off len k out)) := by
  have hlimit := hs.limit_le
  have hthree := hm.three_le
  have hpos := hm.off_pos
  have hle : off ≤ 0x800 ∧ len ≤ 8 := hshort
  rw [afterCode]
  rw [matchBytes, if_pos hshort] at hbytes hin ⊢
  rw [List.length_cons, List.length_singleton] at hin ⊢
  obtain ⟨hfirst, hrest⟩ := bytesAt_cons.mp hbytes
  have hsecond := (bytesAt_cons.mp hrest).1
  have ht : (src.bytes p).toNat = (len - 1) * 32 + (off - 1) % 8 * 4 + k := by
    rw [hfirst, toNat_ofNat (by omega)]
  have hoff : 1 + (((src.bytes p).toNat >>> 2) &&& 7) + ((src.bytes (p + 1)).toNat <<< 3) = off := by
    rw [ht, hsecond, toNat_ofNat (by omega), and_seven, Nat.shiftRight_eq_div_pow,
      Nat.shiftLeft_eq]
    omega
  have hlen : ((src.bytes p).toNat >>> 5) - 1 = len - 2 := by
    rw [ht, Nat.shiftRight_eq_div_pow]
    omega
  have hlb : haveLb off ⟨p + 1 + 1, out⟩ = false := haveLb_eq_false_iff.mpr ⟨hpos, hm.off_le⟩
  have hop : haveOp cap (len - 2 + 3 - 1) ⟨p + 1 + 1, out⟩ = false :=
    (haveOp_eq_false_iff hs.cap_lt (by change out.length ≤ _; omega) (by omega)).mpr
      (by change out.length + _ ≤ _; omega)
  have hread : src.read (p + 1) = .ok (src.bytes (p + 1)) := read_ok (by omega)
  rw [matched, if_pos (by omega)]
  simp only [hread, ok_bind, hoff, hlen, hlb, hop, Bool.false_eq_true, if_false]
  rw [copyMatch_eq hm hout]
  exact matchDone_eq (by change p + 2 - 2 < _; omega)
    (by change (src.bytes (p + 2 - 2)).toNat % 4 = k; rw [Nat.add_sub_cancel, ht]; omega)

theorem matched_middle (hs : Sizes src cap) (hm : MatchOk off len out.length) (hk : k ≤ 3)
    (hshort : ¬ (off ≤ m2MaxOffset ∧ len ≤ m2MaxLen)) (hmiddle : off ≤ m3MaxOffset)
    (hbytes : BytesAt src.bytes p (matchBytes off len k))
    (hin : p + (matchBytes off len k).length ≤ src.len) (hout : out.length + len ≤ cap) :
    matched src cap (src.bytes p).toNat ⟨p + 1, out⟩ =
      .ok (afterMatch k (afterCode p off len k out)) := by
  have hlimit := hs.limit_le
  have hcap := hs.cap_lt
  have hpos := hm.off_pos
  have hle : off ≤ 0x4000 := hmiddle
  rw [afterCode]
  rw [matchBytes, if_neg hshort, if_pos hmiddle] at hbytes hin ⊢
  rw [List.length_append] at hin ⊢
  obtain ⟨hcode, hoffset⟩ := bytesAt_append.mp hbytes
  have hext := extend_lengthCode hs hm.three_le (by omega) (by omega) hcode (by omega)
  generalize hn : (lengthCode m3Marker 33 len).length = n at hin hoffset hext ⊢
  obtain ⟨h0, hrest⟩ := bytesAt_cons.mp hoffset
  have h1 := (bytesAt_cons.mp hrest).1
  rw [show (off - 1) / 64 = (off - 1) / 64 % 256 by omega] at h1
  obtain ⟨hword, hlow⟩ := offset_word h0 h1 hk
  have hfield := lengthField_le 33 len
  have ht : (src.bytes p).toNat = 32 + lengthField 33 len :=
    lengthCode_head hcode (by omega) (by decide)
  have hand : (src.bytes p).toNat &&& 31 = lengthField 33 len := by
    rw [ht, and_31]
    omega
  change p + (n + 2) ≤ src.len at hin
  have hread := getUnalignedLe16_ok (by omega : p + n + 2 ≤ src.limit)
  rw [matched, if_neg (by omega), if_pos (by omega), hand, hext, ok_bind]
  simp only [hread, ok_bind, hword]
  rw [show 1 + (off - 1) % 0x4000 = off by omega, longCopy_eq hcap hm hout]
  exact matchDone_eq (by change p + n + 2 - 2 < _; omega) hlow

theorem matched_of_far {t t' ip word o : Nat} (hlow : 16 ≤ t) (hhigh : t < 32)
    (hext : extend src 7 (t &&& 7) s.ip = .ok (some (t', ip)))
    (hread : getUnalignedLe16 src ip = .ok word)
    (ho : ((t &&& 8) <<< 11) + (word >>> 2) = o) (hpos : o ≠ 0) :
    matched src cap t s = longCopy src cap (o + 0x4000) t' ⟨ip + 2, s.out⟩ := by
  rw [matched, if_neg (by omega), if_neg (by omega), if_pos (by omega)]
  simp only [hext, hread, ok_bind, ho, if_neg hpos]

theorem matched_far (hs : Sizes src cap) (hm : MatchOk off len out.length) (hk : k ≤ 3)
    (hfar : ¬ off ≤ m3MaxOffset)
    (hbytes : BytesAt src.bytes p (matchBytes off len k))
    (hin : p + (matchBytes off len k).length ≤ src.len) (hout : out.length + len ≤ cap) :
    matched src cap (src.bytes p).toNat ⟨p + 1, out⟩ =
      .ok (afterMatch k (afterCode p off len k out)) := by
  have hlimit := hs.limit_le
  have hcap := hs.cap_lt
  have hmax : off ≤ 0xBFFF := hm.off_max
  have hgt : ¬ off ≤ 0x4000 := hfar
  have hshort : ¬ (off ≤ m2MaxOffset ∧ len ≤ m2MaxLen) := fun h => by
    have : off ≤ 0x800 := h.1
    omega
  rw [afterCode]
  rw [matchBytes, if_neg hshort, if_neg hfar] at hbytes hin ⊢
  rw [List.length_append] at hin ⊢
  obtain ⟨o, rfl⟩ : ∃ o, off = o + 0x4000 := ⟨off - 0x4000, by omega⟩
  rw [Nat.add_sub_cancel] at hbytes hin ⊢
  obtain ⟨hcode, hoffset⟩ := bytesAt_append.mp hbytes
  have hext := extend_lengthCode hs hm.three_le (by decide) (by omega) hcode (by omega)
  generalize hn : (lengthCode (m4Marker + o / 0x4000 * 8) m4MaxLen len).length = n
    at hin hoffset hext ⊢
  obtain ⟨h0, hrest⟩ := bytesAt_cons.mp hoffset
  have h1 := (bytesAt_cons.mp hrest).1
  obtain ⟨hword, hlow⟩ := offset_word h0 h1 hk
  have hfield : lengthField m4MaxLen len ≤ 7 := lengthField_le m4MaxLen len
  have ht : (src.bytes p).toNat = 16 + o / 0x4000 * 8 + lengthField m4MaxLen len :=
    lengthCode_head hcode (by decide) (by change 16 + o / 0x4000 * 8 + 9 ≤ 257; omega)
  have hand : (src.bytes p).toNat &&& 7 = lengthField m4MaxLen len := by
    rw [ht, and_seven]
    omega
  have hhigh : ((src.bytes p).toNat &&& 8) <<< 11 = o / 0x4000 * 0x4000 := by
    rw [and_eight _ (by omega), ht]
    omega
  change p + (n + 2) ≤ src.len at hin
  have hread := getUnalignedLe16_ok (by omega : p + n + 2 ≤ src.limit)
  have hbase : extend src 7 (lengthField m4MaxLen len) (p + 1) = .ok (some (len - 2, p + n)) := hext
  rw [matched_of_far (by omega) (by omega) (by rw [hand]; exact hbase) hread
    (by rw [hword, hhigh]; omega : _ = o) (by omega),
    longCopy_eq hcap hm hout]
  exact matchDone_eq (by change p + n + 2 - 2 < _; omega) hlow

theorem matched_matchBytes (hs : Sizes src cap) (hm : MatchOk off len out.length) (hk : k ≤ 3)
    (hbytes : BytesAt src.bytes p (matchBytes off len k))
    (hin : p + (matchBytes off len k).length ≤ src.len) (hout : out.length + len ≤ cap) :
    matched src cap (src.bytes p).toNat ⟨p + 1, out⟩ =
      .ok (afterMatch k (afterCode p off len k out)) := by
  by_cases hfar : off ≤ m3MaxOffset
  · by_cases hshort : off ≤ m2MaxOffset ∧ len ≤ m2MaxLen
    · exact matched_short hs hm hk hshort hbytes hin hout
    · exact matched_middle hs hm hk hshort hfar hbytes hin hout
  · exact matched_far hs hm hk hfar hbytes hin hout

end Matches

/-! ## Literals -/

/-- The first byte of a code, at `p`, has been read. -/
def atMatch (src : Source) (p : Nat) (out : List UInt8) : Next :=
  .goto (.matched (src.bytes p).toNat) ⟨p + 1, out⟩

section Literals

variable {p q : Nat} {out lits : List UInt8}

theorem reaches_top (hs : Sizes src cap) (hin : p < src.len) (hcode : 16 ≤ (src.bytes p).toNat) :
    Reaches src cap (.goto .top ⟨p, out⟩) (atMatch src p out) := by
  have hlimit := hs.limit_le
  apply Reaches.of_step
  · change top src cap ⟨p, out⟩ = _
    have hread : src.read p = .ok (src.bytes p) := read_ok (by omega)
    unfold top
    simp only [if_pos hin, hread, ok_bind, if_pos hcode]
    rfl
  · exact Nat.lt_succ_self p

theorem reaches_firstLiteralRun (hs : Sizes src cap) (hin : p < src.len)
    (hcode : 16 ≤ (src.bytes p).toNat) :
    Reaches src cap (.goto .firstLiteralRun ⟨p, out⟩) (atMatch src p out) := by
  have hlimit := hs.limit_le
  apply Reaches.of_step
  · change firstLiteralRun src cap ⟨p, out⟩ = _
    have hread : src.read p = .ok (src.bytes p) := read_ok (by omega)
    unfold firstLiteralRun
    simp only [hread, ok_bind, if_pos hcode]
    rfl
  · exact Nat.lt_succ_self p

theorem literalRun_eq (hs : Sizes src cap) (hfour : 4 ≤ lits.length)
    (hbytes : BytesAt src.bytes p lits) (hin : p + lits.length < src.len)
    (hout : out.length + lits.length ≤ cap) :
    literalRun src cap (lits.length - 3) ⟨p, out⟩ =
      .ok (.goto .firstLiteralRun ⟨p + lits.length, out ++ lits⟩) := by
  have hlen := hs.len_lt
  have hlimit := hs.limit_le
  have hcap := hs.cap_lt
  have hop : haveOp cap (lits.length - 3 + 3) ⟨p, out⟩ = false :=
    (haveOp_eq_false_iff hcap (by change out.length ≤ _; omega) (by omega)).mpr
      (by change out.length + _ ≤ _; omega)
  have hend : haveIp src (lits.length - 3 + 4) p = false :=
    (haveIp_eq_false_iff hlen (by omega) (by omega)).mpr (by omega)
  have hcount : sub32 (lits.length - 3) 1 = lits.length - 4 := sub32_of_le (by omega) (by omega)
  have hfirst : copyFour src cap ⟨p, out⟩ = .ok ⟨p + 4, out ++ readBytes src.bytes p 4⟩ :=
    copyFour_eq (by change p + 4 ≤ _; omega) (by change out.length + 4 ≤ _; omega)
  have hrest : copyRest src cap (lits.length - 4) ⟨p + 4, out ++ readBytes src.bytes p 4⟩ = .ok _ :=
    copyRest_eq (by change p + 4 + _ ≤ _; omega)
      (by change (out ++ readBytes src.bytes p 4).length + _ ≤ _; simp; omega)
  have hall : readBytes src.bytes p 4 ++ readBytes src.bytes (p + 4) (lits.length - 4) = lits := by
    rw [← readBytes_add, Nat.add_sub_cancel' hfour]
    exact hbytes
  unfold literalRun
  simp only [hop, hend, Bool.false_eq_true, if_false, hfirst, ok_bind, hcount, hrest]
  rw [List.append_assoc, hall, Nat.add_assoc, Nat.add_sub_cancel' hfour]
  rfl

theorem top_of_run {t ip : Nat} (hin : s.ip < src.len) (hlimit : s.ip < src.limit)
    (hlow : (src.bytes s.ip).toNat < 16)
    (hext : extend src 15 (src.bytes s.ip).toNat (s.ip + 1) = .ok (some (t, ip))) :
    top src cap s = literalRun src cap t ⟨ip, s.out⟩ := by
  rw [top, if_pos hin, read_ok hlimit, ok_bind]
  dsimp only
  rw [if_neg (Nat.not_le.mpr hlow), hext, ok_bind]

theorem reaches_run (hs : Sizes src cap) (hfour : 4 ≤ lits.length)
    (hbytes : BytesAt src.bytes p (runBytes lits)) (hq : q = p + (runBytes lits).length)
    (hin : q < src.len) (hcode : 16 ≤ (src.bytes q).toNat)
    (hout : out.length + lits.length ≤ cap) :
    Reaches src cap (.goto .top ⟨p, out⟩) (atMatch src q (out ++ lits)) := by
  have hlimit := hs.limit_le
  have hcap := hs.cap_lt
  refine Reaches.trans (Reaches.of_step ?_ ?_) (reaches_firstLiteralRun hs hin hcode)
  · change top src cap ⟨p, out⟩ = _
    unfold runBytes at hbytes hq
    split at hbytes
    · rename_i hshort
      obtain ⟨hhead, hlits⟩ := bytesAt_cons.mp hbytes
      have ht : (src.bytes p).toNat = lits.length - 3 := by
        rw [hhead, toNat_ofNat (by omega)]
      have hext : extend src 15 (src.bytes p).toNat (p + 1) =
          .ok (some (lits.length - 3, p + 1)) := by
        rw [ht, extend, if_neg (by omega)]
      rw [if_pos hshort, List.length_cons] at hq
      rw [top_of_run (by change p < _; omega) (by change p < _; omega)
        (by change (src.bytes p).toNat < 16; omega) hext,
        literalRun_eq hs hfour hlits (by omega) hout, hq, Nat.add_assoc, Nat.add_comm 1]
    · rename_i hlong
      obtain ⟨hcodes, hlits⟩ := bytesAt_append.mp hbytes
      obtain ⟨hhead, hlength⟩ := bytesAt_cons.mp hcodes
      rw [if_neg hlong, List.length_append] at hq
      rw [List.length_cons] at hq hlits
      rw [Nat.add_comm _ 1, ← Nat.add_assoc] at hlits
      have ht : (src.bytes p).toNat = 0 := by
        rw [hhead]
        rfl
      have hext : extend src 15 (src.bytes p).toNat (p + 1) =
          .ok (some (lits.length - 3, p + 1 + (lengthBytes (lits.length - 18)).length)) := by
        rw [ht, extend_lengthBytes hs (by omega) hlength (by omega) (by omega),
          show 15 + (lits.length - 18) = lits.length - 3 by omega]
      rw [top_of_run (by change p < _; omega) (by change p < _; omega)
        (by change (src.bytes p).toNat < 16; omega) hext,
        literalRun_eq hs hfour hlits (by omega) hout,
        show p + 1 + (lengthBytes (lits.length - 18)).length + lits.length = q by omega]
  · change p < q
    unfold runBytes at hq
    split at hq
    · rw [hq, List.length_cons]
      omega
    · rw [hq, List.length_append, List.length_cons]
      omega

theorem reaches_matchNext (hs : Sizes src cap) (hpos : 0 < lits.length) (hthree : lits.length ≤ 3)
    (hbytes : BytesAt src.bytes p lits) (hin : p + lits.length + 1 < src.len)
    (hout : out.length + lits.length ≤ cap) :
    Reaches src cap (.goto (.matchNext lits.length) ⟨p, out⟩)
      (atMatch src (p + lits.length) (out ++ lits)) := by
  have hlimit := hs.limit_le
  have hop : haveOp cap lits.length ⟨p, out⟩ = false :=
    (haveOp_eq_false_iff hs.cap_lt (by change out.length ≤ _; omega) (by omega)).mpr hout
  have hend : haveIp src (lits.length + 1) p = false :=
    (haveIp_eq_false_iff hs.len_lt (by omega) (by omega)).mpr (by omega)
  have hcopy : copyBytes src cap lits.length ⟨p, out⟩ = .ok ⟨p + lits.length, out ++ lits⟩ := by
    refine (copyBytes_eq (by change p + _ ≤ _; omega) hout).trans ?_
    rw [show readBytes src.bytes p lits.length = lits from hbytes]
  have hread : src.read (p + lits.length) = .ok (src.bytes (p + lits.length)) := read_ok (by omega)
  have hcount : min (max lits.length 1) 3 = lits.length := by omega
  apply Reaches.of_step
  · change matchNext src cap lits.length ⟨p, out⟩ = _
    unfold matchNext
    simp only [hop, hend, Bool.false_eq_true, if_false, hcount, hcopy, ok_bind, hread, if_pos hin]
    rfl
  · change p < p + lits.length + 1
    omega

end Literals

/-! ## Streams -/

theorem lengthCode_cons (marker most len : Nat) :
    ∃ rest, lengthCode marker most len = UInt8.ofNat (marker + lengthField most len) :: rest := by
  unfold lengthCode lengthField
  split
  · exact ⟨[], rfl⟩
  · exact ⟨_, rfl⟩

theorem matchBytes_head {off len before k : Nat} (hm : MatchOk off len before) (hk : k ≤ 3) :
    ∃ b rest, matchBytes off len k = b :: rest ∧ rest ≠ [] ∧ 16 ≤ b.toNat := by
  have hthree := hm.three_le
  have hmax : off ≤ 0xBFFF := hm.off_max
  unfold matchBytes
  split_ifs with hshort hmiddle
  · have hlen : len ≤ 8 := hshort.2
    refine ⟨_, _, rfl, List.cons_ne_nil _ _, ?_⟩
    rw [toNat_ofNat (by omega)]
    omega
  · obtain ⟨rest, hrest⟩ := lengthCode_cons m3Marker 33 len
    have hfield := lengthField_le 33 len
    refine ⟨_, rest ++ _, by rw [hrest, List.cons_append], by simp, ?_⟩
    rw [toNat_ofNat (by change 32 + _ < 256; omega)]
    change 16 ≤ 32 + _
    omega
  · obtain ⟨rest, hrest⟩ := lengthCode_cons (m4Marker + (off - 0x4000) / 0x4000 * 8) m4MaxLen len
    have hfield : lengthField m4MaxLen len ≤ 7 := lengthField_le m4MaxLen len
    refine ⟨_, rest ++ _, by rw [hrest, List.cons_append], by simp, ?_⟩
    have hbyte : m4Marker + (off - 0x4000) / 0x4000 * 8 + lengthField m4MaxLen len < 256 := by
      change 16 + _ + _ < 256
      omega
    rw [toNat_ofNat hbyte]
    change 16 ≤ 16 + _ + _
    omega

theorem groupBytes_head {off len before : Nat} (hm : MatchOk off len before) (lits : List UInt8) :
    ∃ b rest, groupBytes off len lits = b :: rest ∧ 16 ≤ b.toNat := by
  unfold groupBytes
  split
  · rename_i hthree
    obtain ⟨b, rest, h, -, hb⟩ := matchBytes_head hm hthree
    exact ⟨b, rest ++ lits, by rw [h, List.cons_append], hb⟩
  · obtain ⟨b, rest, h, -, hb⟩ := matchBytes_head hm (Nat.zero_le 3)
    exact ⟨b, rest ++ runBytes lits, by rw [h, List.cons_append], hb⟩

theorem reaches_match {off len k p : Nat} {out : List UInt8} (hs : Sizes src cap)
    (hm : MatchOk off len out.length) (hk : k ≤ 3)
    (hbytes : BytesAt src.bytes p (matchBytes off len k))
    (hin : p + (matchBytes off len k).length ≤ src.len) (hout : out.length + len ≤ cap) :
    Reaches src cap (atMatch src p out) (afterMatch k (afterCode p off len k out)) := by
  have hstep : step src cap (.matched (src.bytes p).toNat) ⟨p + 1, out⟩ = .ok _ :=
    matched_matchBytes hs hm hk hbytes hin hout
  apply Reaches.of_step hstep
  have htwo : 1 < (matchBytes off len k).length := by
    obtain ⟨b, rest, h, hne, -⟩ := matchBytes_head hm hk
    have := List.length_pos_iff.mpr hne
    rw [h, List.length_cons]
    omega
  have hip : nextIp (afterMatch k (afterCode p off len k out)) =
      p + (matchBytes off len k).length := by
    unfold afterMatch
    split <;> rfl
  rw [hip]
  change p + 1 < _
  omega

theorem reaches_group {off len p q : Nat} {out lits : List UInt8} (hs : Sizes src cap)
    (hm : MatchOk off len out.length) (hbytes : BytesAt src.bytes p (groupBytes off len lits))
    (hq : q = p + (groupBytes off len lits).length) (hin : q + 1 < src.len)
    (hcode : 16 ≤ (src.bytes q).toNat) (hout : out.length + len + lits.length ≤ cap) :
    Reaches src cap (atMatch src p out) (atMatch src q (copyBack off len out ++ lits)) := by
  have hback : (copyBack off len out).length = out.length + len := length_copyBack
  unfold groupBytes at hbytes hq
  split at hbytes
  · rename_i hthree
    rw [if_pos hthree, List.length_append] at hq
    obtain ⟨hmatch, hlits⟩ := bytesAt_append.mp hbytes
    have hcont := reaches_match hs hm hthree hmatch (by omega) (by omega)
    by_cases hzero : lits.length = 0
    · rw [List.length_eq_zero_iff.mp hzero, List.append_nil]
      rw [hzero, Nat.add_zero] at hq
      rw [hzero, afterCode, ← hq] at hcont
      exact hcont.trans (reaches_top hs (by omega) hcode)
    · have hnext := reaches_matchNext hs (by omega) hthree hlits (by omega)
        (by omega : (copyBack off len out).length + lits.length ≤ cap)
      rw [Nat.add_assoc, ← hq] at hnext
      rw [afterMatch, if_neg hzero] at hcont
      exact hcont.trans hnext
  · rename_i hfour
    rw [if_neg hfour, List.length_append] at hq
    obtain ⟨hmatch, hlits⟩ := bytesAt_append.mp hbytes
    have hcont := reaches_match hs hm (Nat.zero_le 3) hmatch (by omega) (by omega)
    exact hcont.trans (reaches_run hs (by omega) hlits (by rw [hq, Nat.add_assoc]) (by omega) hcode
      (by omega))

theorem begin_top (hlimit : 0 < src.limit) (hlow : (src.bytes 0).toNat ≤ 17) :
    begin src cap = .ok (.goto .top ⟨0, []⟩) := by
  rw [begin, read_ok hlimit, ok_bind, if_neg (Nat.not_lt.mpr hlow)]
  rfl

theorem runBytes_head_le {lits : List UInt8} {p : Nat}
    (hbytes : BytesAt src.bytes p (runBytes lits)) : (src.bytes p).toNat ≤ 17 := by
  unfold runBytes at hbytes
  split at hbytes
  · rw [(bytesAt_cons.mp hbytes).1, toNat_ofNat (by omega)]
    omega
  · have hhead : src.bytes p = 0 := (bytesAt_cons.mp (bytesAt_append.mp hbytes).1).1
    rw [hhead]
    decide

/-- The form of the first literals that holds their number in one byte. -/
theorem begin_short {lits : List UInt8} (hs : Sizes src cap) (hpos : 0 < lits.length)
    (hle : lits.length ≤ 238)
    (hbytes : BytesAt src.bytes 0 (UInt8.ofNat (17 + lits.length) :: lits))
    (hin : lits.length + 2 < src.len) (hcode : 16 ≤ (src.bytes (lits.length + 1)).toNat)
    (hout : lits.length ≤ cap) :
    ∃ n, begin src cap = .ok n ∧ Reaches src cap n (atMatch src (lits.length + 1) lits) := by
  have hlimit := hs.limit_le
  obtain ⟨hhead, hlits⟩ := bytesAt_cons.mp hbytes
  have ht : (src.bytes 0).toNat = 17 + lits.length := by rw [hhead, toNat_ofNat (by omega)]
  have hbegin : begin src cap = if lits.length < 4 then .ok (.goto (.matchNext lits.length) ⟨1, []⟩)
      else .ok (.goto .firstLiteralRun ⟨lits.length + 1, lits⟩) := by
    have hop : haveOp cap lits.length ⟨1, []⟩ = false :=
      (haveOp_eq_false_iff hs.cap_lt (Nat.zero_le _) (by omega)).mpr
        (by rw [List.length_nil]; omega)
    have hend : haveIp src (lits.length + 1) 1 = false :=
      (haveIp_eq_false_iff hs.len_lt (by omega) (by omega)).mpr (by omega)
    have hcopy : copyBytes src cap lits.length ⟨1, []⟩ = .ok ⟨1 + lits.length, [] ++ lits⟩ := by
      refine (copyBytes_eq (by change 1 + _ ≤ _; omega) (by rw [List.length_nil]; omega)).trans ?_
      rw [show readBytes src.bytes 1 lits.length = lits from hlits]
    rw [begin, read_ok (by omega), ok_bind, if_pos (by omega), ht, Nat.add_sub_cancel_left]
    dsimp only
    split
    · rfl
    · rw [hop, hend, if_neg Bool.false_ne_true, if_neg Bool.false_ne_true, hcopy, ok_bind,
        Nat.add_comm 1, List.nil_append]
      rfl
  rw [hbegin]
  by_cases hfour : lits.length < 4
  · rw [if_pos hfour]
    have hnext := reaches_matchNext hs hpos (by omega) hlits (by omega)
      (by rw [List.length_nil]; omega : ([] : List UInt8).length + lits.length ≤ cap)
    rw [Nat.zero_add, Nat.add_comm 1, List.nil_append] at hnext
    exact ⟨_, rfl, hnext⟩
  · rw [if_neg hfour]
    exact ⟨_, rfl, reaches_firstLiteralRun hs (by omega) hcode⟩

/-- The decompressor gets through everything that stands before the end mark.  Before the
first literal a byte above 17 would be the number of literals. -/
theorem coded_reaches {bytes out : List UInt8} (hs : Sizes src cap) (h : Coded bytes out)
    (hbytes : BytesAt src.bytes 0 bytes) (hin : bytes.length + 1 < src.len)
    (hcode : 16 ≤ (src.bytes bytes.length).toNat)
    (hfirst : out = [] → (src.bytes bytes.length).toNat ≤ 17) (hout : out.length ≤ cap) :
    ∃ n, begin src cap = .ok n ∧ Reaches src cap n (atMatch src bytes.length out) := by
  have hlimit := hs.limit_le
  induction h with
  | empty => exact ⟨_, begin_top (by omega) (hfirst rfl), reaches_top hs (by omega) hcode⟩
  | short hpos hle => exact begin_short hs hpos hle hbytes hin hcode hout
  | @run lits hfour =>
      exact ⟨_, begin_top (by omega) (runBytes_head_le hbytes),
        reaches_run hs hfour hbytes (Nat.zero_add _).symm (by omega) hcode (by simpa using hout)⟩
  | @group bytes out lits off len hcoded hm ih =>
      obtain ⟨hbefore, hgroup⟩ := bytesAt_append.mp hbytes
      rw [Nat.zero_add] at hgroup
      rw [List.length_append] at hin hcode
      rw [List.length_append, length_copyBack] at hout
      obtain ⟨b, rest, hhead, hsmall⟩ := groupBytes_head hm lits
      rw [hhead] at hgroup
      have hb : src.bytes bytes.length = b := (bytesAt_cons.mp hgroup).1
      have hnil : out ≠ [] := by
        intro h
        have := hm.off_pos
        have := hm.off_le
        rw [h, List.length_nil] at this
        omega
      obtain ⟨n, hbegin, hreach⟩ := ih hbefore (by omega) (by rw [hb]; exact hsmall)
        (fun h => absurd h hnil) (by omega)
      rw [← hhead] at hgroup
      rw [List.length_append]
      exact ⟨n, hbegin, hreach.trans (reaches_group hs hm hgroup rfl hin hcode hout)⟩

theorem matched_eof {p : Nat} {out : List UInt8} (hs : Sizes src cap)
    (hbytes : BytesAt src.bytes p eofBytes) (hlen : src.len = p + 3) :
    matched src cap (src.bytes p).toNat ⟨p + 1, out⟩ = .ok (.done .ok ⟨p + 3, out⟩) := by
  have hlimit := hs.limit_le
  obtain ⟨h0, hrest⟩ := bytesAt_cons.mp hbytes
  obtain ⟨h1, hrest⟩ := bytesAt_cons.mp hrest
  have h2 := (bytesAt_cons.mp hrest).1
  have ht : (src.bytes p).toNat = 17 := by
    rw [h0]
    rfl
  have hword : getUnalignedLe16 src (p + 1) = .ok 0 := by
    rw [getUnalignedLe16_ok (by omega), h1, h2]
    rfl
  have hext : extend src 7 (17 &&& 7) (p + 1) = .ok (some (1, p + 1)) := rfl
  rw [ht, matched, if_neg (by omega), if_neg (by omega), if_pos (by omega)]
  dsimp only
  rw [hext, ok_bind]
  dsimp only
  rw [hword, ok_bind, hlen, if_pos rfl, if_pos (by decide)]
  rfl

/-- What the format says is what the decompressor produces, and it reads the input to its
end and no further. -/
theorem decompress_coded {bytes out : List UInt8} (hs : Sizes src cap) (h : Coded bytes out)
    (hbytes : BytesAt src.bytes 0 (bytes ++ eofBytes))
    (hlen : src.len = bytes.length + 3) (hout : out.length ≤ cap) :
    lzo1xDecompressSafe src cap = .ok (.ok, out) := by
  obtain ⟨hbefore, heof⟩ := bytesAt_append.mp hbytes
  rw [Nat.zero_add] at heof
  have ht : (src.bytes bytes.length).toNat = 17 := by
    rw [(bytesAt_cons.mp heof).1]
    rfl
  obtain ⟨n, hbegin, hreach⟩ := coded_reaches hs h hbefore (by omega) (by omega)
    (fun _ => by omega) hout
  have hstep : step src cap (.matched (src.bytes bytes.length).toNat) ⟨bytes.length + 1, out⟩ =
      .ok (.done .ok ⟨bytes.length + 3, out⟩) := matched_eof hs heof hlen
  have hend : Reaches src cap n (.done .ok ⟨bytes.length + 3, out⟩) :=
    hreach.trans (Reaches.of_step hstep (by change bytes.length + 1 < bytes.length + 3; omega))
  rw [lzo1xDecompressSafe, hbegin, ok_bind]
  exact hend.run_done (Nat.le_of_eq hlen.symm)

end Snitchaser.Lzo.Decoding
