import Snitchaser.Lib.BackCopy
import Snitchaser.Lzo.Model
/-!
# The decompressor stays in its buffers

`lzo1x_decompress_safe` tests the room in the output before every write.  The room in the
input it tests before literals and before the zeros of a length only: the bytes of an
offset are read without a test, and behind the end of the input the difference
`ip_end - ip` is a large number, so the next test passes too.  Six bytes more than there
are can be read in this way and no more, because the loops compare `ip` with `ip_end`.

A length that overflows makes the tests of the output worthless; that takes an input of
more than sixteen megabytes.
-/

namespace Snitchaser.Lzo.Safety

open Snitchaser.Defs
open Snitchaser.Lib.BackCopy
open Snitchaser.Lib.ByteMemory
open Snitchaser.Lib.Program
open Snitchaser.Lzo.Model

variable {src : Source} {cap : Nat} {s : DState}

/-! ## Copies -/

section Copies

variable {n off : Nat}

theorem read_ok {i : Nat} (h : i < src.limit) : src.read i = .ok (src.bytes i) := if_pos h

theorem put_ok {byte : UInt8} (h : s.out.length < cap) :
    put cap byte s = .ok { s with out := s.out ++ [byte] } := if_pos h

theorem put_four {b0 b1 b2 b3 : UInt8} (hout : s.out.length + 4 ≤ cap) :
    (do
      let s ← put cap b0 s
      let s ← put cap b1 s
      let s ← put cap b2 s
      put cap b3 s : Except Stop DState) = .ok { s with out := s.out ++ [b0, b1, b2, b3] } := by
  rw [put_ok (by omega)]
  change (do
    let s ← put cap b1 ⟨s.ip, s.out ++ [b0]⟩
    let s ← put cap b2 s
    put cap b3 s : Except Stop DState) = _
  rw [put_ok (by simp; omega)]
  change (do
    let s ← put cap b2 ⟨s.ip, s.out ++ [b0] ++ [b1]⟩
    put cap b3 s : Except Stop DState) = _
  rw [put_ok (by simp; omega)]
  change put cap b3 ⟨s.ip, s.out ++ [b0] ++ [b1] ++ [b2]⟩ = _
  rw [put_ok (by simp; omega)]
  simp

theorem copyByte_eq (hin : s.ip < src.limit) (hout : s.out.length < cap) :
    copyByte src cap s = .ok ⟨s.ip + 1, s.out ++ [src.bytes s.ip]⟩ := by
  rw [copyByte, read_ok hin]
  exact put_ok hout

theorem copyBytes_eq (hin : s.ip + n ≤ src.limit) (hout : s.out.length + n ≤ cap) :
    copyBytes src cap n s = .ok ⟨s.ip + n, s.out ++ readBytes src.bytes s.ip n⟩ := by
  induction n generalizing s with
  | zero => simp [copyBytes]
  | succ n ih =>
      rw [copyBytes, copyByte_eq (by omega) (by omega)]
      change copyBytes src cap n ⟨s.ip + 1, s.out ++ [src.bytes s.ip]⟩ = _
      rw [ih (by change s.ip + 1 + n ≤ _; omega)
        (by change (s.out ++ [src.bytes s.ip]).length + n ≤ _; simp; omega), readBytes_succ]
      simp only [List.append_assoc, List.singleton_append]
      rw [show s.ip + 1 + n = s.ip + (n + 1) by omega]

theorem copyFour_eq (hin : s.ip + 4 ≤ src.limit) (hout : s.out.length + 4 ≤ cap) :
    copyFour src cap s = .ok ⟨s.ip + 4, s.out ++ readBytes src.bytes s.ip 4⟩ := by
  rw [copyFour, read_ok (by omega), read_ok (by omega), read_ok (by omega), read_ok (by omega)]
  exact put_four hout

theorem copyRest_eq (hin : s.ip + n ≤ src.limit) (hout : s.out.length + n ≤ cap) :
    copyRest src cap n s = .ok ⟨s.ip + n, s.out ++ readBytes src.bytes s.ip n⟩ := by
  induction n using Nat.strongRecOn generalizing s with
  | ind n ih =>
      match n with
      | 0 | 1 | 2 | 3 => exact copyBytes_eq hin hout
      | n + 4 =>
          rw [copyRest, copyFour_eq (by omega) (by omega)]
          change copyRest src cap n ⟨s.ip + 4, s.out ++ readBytes src.bytes s.ip 4⟩ = _
          rw [ih n (by omega) (by change s.ip + 4 + n ≤ _; omega)
            (by change (s.out ++ readBytes src.bytes s.ip 4).length + n ≤ _; simp; omega)]
          change Except.ok (DState.mk (s.ip + 4 + n)
            (s.out ++ readBytes src.bytes s.ip 4 ++ readBytes src.bytes (s.ip + 4) n)) = _
          rw [List.append_assoc, ← readBytes_add, Nat.add_comm n 4, Nat.add_assoc]

theorem byteBack_ok (hpos : 0 < off) (hoff : off ≤ s.out.length) :
    byteBack off s = .ok (s.out.getD (s.out.length - off) default) := if_pos ⟨hpos, hoff⟩

theorem backByte_eq (hpos : 0 < off) (hoff : off ≤ s.out.length) (hout : s.out.length < cap) :
    backByte cap off s = .ok { s with out := copyOne off s.out } := by
  rw [backByte, byteBack_ok hpos hoff]
  exact put_ok hout

theorem backBytes_eq (hpos : 0 < off) (hoff : off ≤ s.out.length)
    (hout : s.out.length + n ≤ cap) :
    backBytes cap off n s = .ok { s with out := copyBack off n s.out } := by
  induction n generalizing s with
  | zero => rfl
  | succ n ih =>
      rw [backBytes, backByte_eq hpos hoff (by omega)]
      have hlen : (copyOne off s.out).length = s.out.length + 1 := length_copyOne
      change backBytes cap off n ⟨s.ip, copyOne off s.out⟩ = _
      rw [ih (by change off ≤ (copyOne off s.out).length; omega)
        (by change (copyOne off s.out).length + n ≤ cap; omega)]
      rfl

/-- Four bytes that are read first are the four that are copied one by one, since none of
them is written in between. -/
theorem backFour_eq (hoff : 4 ≤ off) (hle : off ≤ s.out.length)
    (hout : s.out.length + 4 ≤ cap) :
    backFour cap off s = .ok { s with out := copyBack off 4 s.out } := by
  rw [backFour, byteBack_ok (by omega) hle, byteBack_ok (by omega) (by omega),
    byteBack_ok (by omega) (by omega), byteBack_ok (by omega) (by omega)]
  refine (put_four hout).trans ?_
  rw [copyBack_block hoff hle]
  have hback (i : Nat) (hi : i < 4) : s.out.length - (off - i) = s.out.length - off + i := by
    omega
  rw [hback 1 (by omega), hback 2 (by omega), hback 3 (by omega)]
  rfl

theorem backRest_eq (hoff : 4 ≤ off) (hle : off ≤ s.out.length)
    (hout : s.out.length + n ≤ cap) :
    backRest cap off n s = .ok { s with out := copyBack off n s.out } := by
  induction n using Nat.strongRecOn generalizing s with
  | ind n ih =>
      match n with
      | 0 | 1 | 2 | 3 => exact backBytes_eq (by omega) hle hout
      | n + 4 =>
          rw [backRest, backFour_eq hoff hle (by omega)]
          have hlen : (copyBack off 4 s.out).length = s.out.length + 4 := length_copyBack
          change backRest cap off n ⟨s.ip, copyBack off 4 s.out⟩ = _
          rw [ih n (by omega) (by change off ≤ (copyBack off 4 s.out).length; omega)
            (by change (copyBack off 4 s.out).length + n ≤ cap; omega), Nat.add_comm n 4,
            copyBack_add]

end Copies

/-! ## The tests -/

theorem haveIp_eq_false_iff {x ip : Nat} (hlen : src.len < 2 ^ 32) (hip : ip ≤ src.len)
    (hx : x < 2 ^ 32) : haveIp src x ip = false ↔ ip + x ≤ src.len := by
  rw [haveIp, sub32_of_le hlen hip, Nat.mod_eq_of_lt hx, decide_eq_false_iff_not]
  omega

theorem haveOp_eq_false_iff {x : Nat} (hcap : cap < 2 ^ 32) (hout : s.out.length ≤ cap)
    (hx : x < 2 ^ 32) : haveOp cap x s = false ↔ s.out.length + x ≤ cap := by
  rw [haveOp, sub32_of_le hcap hout, Nat.mod_eq_of_lt hx, decide_eq_false_iff_not]
  omega

theorem haveLb_eq_false_iff {off : Nat} :
    haveLb off s = false ↔ 0 < off ∧ off ≤ s.out.length := by
  rw [haveLb, Bool.or_eq_false_iff, decide_eq_false_iff_not, beq_eq_false_iff_ne]
  omega

/-! ## Labels -/

/-- The sizes for which the tests mean what they say, and six readable bytes behind the
input. -/
structure Bounds (src : Source) (cap : Nat) : Prop where
  len_pos : 0 < src.len
  len_le : src.len ≤ 2 ^ 24
  limit_le : src.len + 6 ≤ src.limit
  cap_lt : cap < 2 ^ 32

/-- How far `ip` can have moved when a label is reached. -/
def InInput (src : Source) : Label → Nat → Prop
  | .top, ip => ip ≤ src.len + 6
  | .firstLiteralRun, ip => ip < src.len
  | .matched t, ip => ip ≤ src.len ∧ t < 256
  | .matchNext t, ip => 1 ≤ t ∧ t ≤ 3 ∧ ip ≤ src.len + 2

/-- What a label leads to when it is entered with `ip` bytes read. -/
def Follows (src : Source) (cap ip : Nat) : Next → Prop
  | .goto l s => s.out.length ≤ cap ∧ InInput src l s.ip ∧ ip < s.ip
  | .done _ s => s.out.length ≤ cap

section Steps

variable {ip : Nat}

/-- The two low bits of the last byte but one are the number of literals that follow. -/
theorem matchDone_follows (hb : Bounds src cap) (hip : ip < s.ip) (hle : s.ip ≤ src.len + 2)
    (hout : s.out.length ≤ cap) : ∃ n, matchDone src s = .ok n ∧ Follows src cap ip n := by
  have hlimit := hb.limit_le
  have hread : src.read (s.ip - 2) = .ok (src.bytes (s.ip - 2)) := read_ok (by omega)
  have hlow : (src.bytes (s.ip - 2)).toNat &&& 3 < 4 := Nat.and_lt_two_pow _ (by omega : 3 < 2 ^ 2)
  unfold matchDone
  rw [hread]
  by_cases hzero : (src.bytes (s.ip - 2)).toNat &&& 3 = 0
  · exact ⟨.goto .top s, if_pos hzero, hout, (by omega : s.ip ≤ src.len + 6), hip⟩
  · exact ⟨.goto (.matchNext _) s, if_neg hzero, hout, ⟨by omega, by omega, hle⟩, hip⟩

theorem copyMatch_follows {off t : Nat} (hb : Bounds src cap) (hip : ip < s.ip)
    (hle : s.ip ≤ src.len + 2) (hpos : 0 < off) (hoff : off ≤ s.out.length) (ht : 0 < t)
    (hout : s.out.length + (t + 2) ≤ cap) :
    ∃ n, copyMatch src cap off t s = .ok n ∧ Follows src cap ip n := by
  have hcount : doWhile t = t := if_neg (by omega)
  have hcopy : backBytes cap off (2 + doWhile t) s =
      .ok { s with out := copyBack off (2 + t) s.out } := by
    rw [hcount]
    exact backBytes_eq hpos hoff (by omega)
  unfold copyMatch
  rw [hcopy]
  exact matchDone_follows hb hip hle (by simp; omega)

theorem longCopy_follows {off t : Nat} (hb : Bounds src cap) (hip : ip < s.ip)
    (hle : s.ip ≤ src.len + 2) (ht : 0 < t) (hlt : t + 2 < 2 ^ 32)
    (hout : s.out.length ≤ cap) :
    ∃ n, longCopy src cap off t s = .ok n ∧ Follows src cap ip n := by
  unfold longCopy
  by_cases hlb : haveLb off s = true
  · exact ⟨_, if_pos hlb, hout⟩
  rw [if_neg hlb]
  obtain ⟨hpos, hoff⟩ := haveLb_eq_false_iff.mp (Bool.eq_false_of_not_eq_true hlb)
  by_cases hop : haveOp cap (t + 3 - 1) s = true
  · exact ⟨_, if_pos hop, hout⟩
  rw [if_neg hop]
  have hroom := (haveOp_eq_false_iff hb.cap_lt hout (by omega)).mp
    (Bool.eq_false_of_not_eq_true hop)
  split
  · rename_i hfour
    rw [backFour_eq hfour.2 hoff (by omega)]
    have hlen : (copyBack off 4 s.out).length = s.out.length + 4 := length_copyBack
    have hrest : backRest cap off (t - (4 - (3 - 1))) ⟨s.ip, copyBack off 4 s.out⟩ =
        .ok ⟨s.ip, copyBack off (t - 2) (copyBack off 4 s.out)⟩ :=
      backRest_eq hfour.2 (by change off ≤ (copyBack off 4 s.out).length; omega)
        (by change (copyBack off 4 s.out).length + (t - 2) ≤ cap; omega)
    change ∃ n, (backRest cap off (t - (4 - (3 - 1))) ⟨s.ip, copyBack off 4 s.out⟩ >>=
      fun s => matchDone src s) = .ok n ∧ _
    rw [hrest]
    exact matchDone_follows hb hip hle (by simp; omega)
  · exact copyMatch_follows hb hip hle hpos hoff ht (by omega)

/-- The two matches of fixed length: `n` bytes from `off` before. -/
theorem blockCopy_follows {off n : Nat} (hb : Bounds src cap) (hip : ip < s.ip)
    (hle : s.ip ≤ src.len + 2) (hout : s.out.length ≤ cap) (hn : n < 2 ^ 32) :
    ∃ r, (if haveLb off s then pure (.done .lookbehindOverrun s)
      else if haveOp cap n s then pure (.done .outputOverrun s)
      else do matchDone src (← backBytes cap off n s) : Except Stop Next) = .ok r ∧
      Follows src cap ip r := by
  by_cases hlb : haveLb off s = true
  · exact ⟨_, if_pos hlb, hout⟩
  rw [if_neg hlb]
  obtain ⟨hpos, hoff⟩ := haveLb_eq_false_iff.mp (Bool.eq_false_of_not_eq_true hlb)
  by_cases hop : haveOp cap n s = true
  · exact ⟨_, if_pos hop, hout⟩
  rw [if_neg hop]
  have hroom := (haveOp_eq_false_iff hb.cap_lt hout hn).mp (Bool.eq_false_of_not_eq_true hop)
  rw [backBytes_eq hpos hoff hroom]
  exact matchDone_follows hb hip hle (by simpa using hroom)

/-- A length that is written out is positive and too short to overflow. -/
theorem extendLoop_bound {base fuel t ip : Nat} (hb : Bounds src cap) (hip : ip < src.len)
    (hfuel : src.len - ip ≤ fuel) (ht : t ≤ 255 * ip) (hbase : base ≤ 31) :
    ∃ r, extendLoop src base fuel t ip = .ok r ∧
      ∀ t' ip', r = some (t', ip') → 0 < t' ∧ t' ≤ 255 * ip' + 31 ∧ ip < ip' ∧ ip' ≤ src.len := by
  have hlen := hb.len_le
  induction fuel generalizing t ip with
  | zero => omega
  | succ fuel ih =>
      have hlimit := hb.limit_le
      have hread : src.read ip = .ok (src.bytes ip) := read_ok (by omega)
      unfold extendLoop
      rw [hread]
      change ∃ r, (if src.bytes ip = 0 then
        if haveIp src 1 (ip + 1) then pure none
        else extendLoop src base fuel ((t + 255) % 2 ^ 32) (ip + 1)
        else pure (some ((t + base + (src.bytes ip).toNat) % 2 ^ 32, ip + 1))) = .ok r ∧ _
      have hbyte := (src.bytes ip).toNat_lt
      by_cases hzero : src.bytes ip = 0
      · rw [if_pos hzero]
        by_cases hend : haveIp src 1 (ip + 1) = true
        · rw [if_pos hend]
          exact ⟨none, rfl, by simp⟩
        · rw [if_neg hend]
          have hmore := (haveIp_eq_false_iff (by omega) (by omega) (by omega)).mp
            (Bool.eq_false_of_not_eq_true hend)
          obtain ⟨r, hr, hspec⟩ := @ih ((t + 255) % 2 ^ 32) (ip + 1) (by omega) (by omega) (by omega)
          refine ⟨r, hr, fun t' ip' h => ?_⟩
          have := hspec t' ip' h
          omega
      · rw [if_neg hzero]
        have hpos : (src.bytes ip).toNat ≠ 0 := fun h => hzero (UInt8.toNat_inj.mp h)
        refine ⟨_, rfl, fun t' ip' h => ?_⟩
        obtain ⟨rfl, rfl⟩ := Prod.mk.inj (Option.some.inj h)
        omega

theorem extend_bound {base t ip : Nat} (hb : Bounds src cap) (hip : ip ≤ src.len) (ht : t < 32)
    (hbase : base ≤ 31) :
    ∃ r, extend src base t ip = .ok r ∧
      ∀ t' ip', r = some (t', ip') → 0 < t' ∧ t' ≤ 255 * ip' + 31 ∧ ip ≤ ip' ∧ ip' ≤ src.len := by
  have hlen := hb.len_le
  unfold extend
  by_cases hzero : t = 0
  · rw [if_pos hzero]
    by_cases hend : haveIp src 1 ip = true
    · rw [if_pos hend]
      exact ⟨none, rfl, by simp⟩
    · rw [if_neg hend]
      have hmore := (haveIp_eq_false_iff (by omega) hip (by omega)).mp
        (Bool.eq_false_of_not_eq_true hend)
      have hfuel : src.len - ip ≤ src.len + 1 := by omega
      obtain ⟨r, hr, hspec⟩ := extendLoop_bound hb (by omega) hfuel (Nat.zero_le _) hbase
      refine ⟨r, hr, fun t' ip' h => ?_⟩
      have := hspec t' ip' h
      omega
  · rw [if_neg hzero]
    refine ⟨_, rfl, fun t' ip' h => ?_⟩
    obtain ⟨rfl, rfl⟩ := Prod.mk.inj (Option.some.inj h)
    omega

theorem getUnalignedLe16_ok {ip : Nat} (hip : ip + 2 ≤ src.limit) :
    getUnalignedLe16 src ip =
      .ok ((src.bytes ip).toNat + 256 * (src.bytes (ip + 1)).toNat) := by
  rw [getUnalignedLe16, read_ok (by omega), read_ok (by omega)]
  rfl

theorem matched_follows {t : Nat} (hb : Bounds src cap) (ht : t < 256) (hip : s.ip ≤ src.len)
    (hout : s.out.length ≤ cap) :
    ∃ n, matched src cap t s = .ok n ∧ Follows src cap s.ip n := by
  have hlimit := hb.limit_le
  have hlen := hb.len_le
  have hread : src.read s.ip = .ok (src.bytes s.ip) := read_ok (by omega)
  unfold matched
  split_ifs with h64 h32 h16
  · simp only [hread, ok_bind]
    generalize 1 + ((t >>> 2) &&& 7) + ((src.bytes s.ip).toNat <<< 3) = off
    have hfive : t >>> 5 = t / 32 := Nat.shiftRight_eq_div_pow t 5
    by_cases hlb : haveLb off ⟨s.ip + 1, s.out⟩ = true
    · exact ⟨_, if_pos hlb, hout⟩
    rw [if_neg hlb]
    by_cases hop : haveOp cap ((t >>> 5) - 1 + 3 - 1) ⟨s.ip + 1, s.out⟩ = true
    · exact ⟨_, if_pos hop, hout⟩
    rw [if_neg hop]
    obtain ⟨hpos, hoff⟩ := haveLb_eq_false_iff.mp (Bool.eq_false_of_not_eq_true hlb)
    have hroom := (haveOp_eq_false_iff hb.cap_lt hout (by omega)).mp
      (Bool.eq_false_of_not_eq_true hop)
    exact copyMatch_follows hb (Nat.lt_succ_self _) (by change s.ip + 1 ≤ _; omega) hpos hoff
      (by omega) (by change s.out.length + _ ≤ _ at hroom; change s.out.length + _ ≤ _; omega)
  · obtain ⟨r, hr, hspec⟩ := extend_bound hb hip
      (Nat.and_lt_two_pow t (by omega : 31 < 2 ^ 5)) (Nat.le_refl 31)
    rw [hr]
    cases r with
    | none => exact ⟨_, rfl, hout⟩
    | some p =>
        obtain ⟨t', ip'⟩ := p
        have hnext := hspec t' ip' rfl
        change ∃ n, (getUnalignedLe16 src ip' >>= fun word =>
          longCopy src cap (1 + (word >>> 2)) t' ⟨ip' + 2, s.out⟩) = .ok n ∧ _
        rw [getUnalignedLe16_ok (by omega)]
        exact longCopy_follows hb (by change s.ip < ip' + 2; omega)
          (by change ip' + 2 ≤ _; omega) hnext.1 (by omega) hout
  · obtain ⟨r, hr, hspec⟩ := extend_bound hb hip
      (Nat.lt_of_lt_of_le (Nat.and_lt_two_pow t (by omega : 7 < 2 ^ 3)) (by omega))
      (by omega : 7 ≤ 31)
    rw [hr]
    cases r with
    | none => exact ⟨_, rfl, hout⟩
    | some p =>
        obtain ⟨t', ip'⟩ := p
        have hnext := hspec t' ip' rfl
        have hword := getUnalignedLe16_ok (by omega : ip' + 2 ≤ src.limit)
        simp only [ok_bind, hword]
        split
        · exact ⟨_, rfl, hout⟩
        · exact longCopy_follows hb (by change s.ip < ip' + 2; omega)
            (by change ip' + 2 ≤ _; omega) hnext.1 (by omega) hout
  · simp only [hread, ok_bind]
    exact blockCopy_follows hb (Nat.lt_succ_self _) (by change s.ip + 1 ≤ _; omega) hout (by omega)

theorem matchNext_follows {t : Nat} (hb : Bounds src cap) (hpos : 1 ≤ t) (hthree : t ≤ 3)
    (hip : s.ip ≤ src.len + 2) (hout : s.out.length ≤ cap) :
    ∃ n, matchNext src cap t s = .ok n ∧ Follows src cap s.ip n := by
  have hlimit := hb.limit_le
  have hlen := hb.len_le
  unfold matchNext
  by_cases hop : haveOp cap t s = true
  · exact ⟨_, if_pos hop, hout⟩
  rw [if_neg hop]
  have hroom := (haveOp_eq_false_iff hb.cap_lt hout (by omega)).mp
    (Bool.eq_false_of_not_eq_true hop)
  by_cases hend : haveIp src (t + 1) s.ip = true
  · exact ⟨_, if_pos hend, hout⟩
  rw [if_neg hend]
  -- either the test says the truth, or `ip` is behind the end already
  have hcases : s.ip + (t + 1) ≤ src.len ∨ src.len < s.ip := by
    by_cases hpast : src.len < s.ip
    · exact .inr hpast
    · exact .inl ((haveIp_eq_false_iff (by omega) (by omega) (by omega)).mp
        (Bool.eq_false_of_not_eq_true hend))
  have hcount : min (max t 1) 3 = t := by omega
  rw [hcount, copyBytes_eq (by omega) hroom]
  change ∃ n, (src.read (s.ip + t) >>= fun byte => _) = .ok n ∧ _
  rw [read_ok (by omega)]
  have hout' : (s.out ++ readBytes src.bytes s.ip t).length ≤ cap := by
    simpa using hroom
  by_cases hmore : s.ip + t + 1 < src.len
  · exact ⟨.goto (.matched _) ⟨s.ip + t + 1, _⟩, if_pos hmore, hout',
      ⟨Nat.le_of_lt hmore, (src.bytes (s.ip + t)).toNat_lt⟩, by change s.ip < s.ip + t + 1; omega⟩
  · exact ⟨.goto .top ⟨s.ip + t + 1, _⟩, if_neg hmore, hout',
      (by omega : s.ip + t + 1 ≤ src.len + 6), by change s.ip < s.ip + t + 1; omega⟩

theorem firstLiteralRun_follows (hb : Bounds src cap) (hip : s.ip < src.len)
    (hout : s.out.length ≤ cap) :
    ∃ n, firstLiteralRun src cap s = .ok n ∧ Follows src cap s.ip n := by
  have hlimit := hb.limit_le
  have hread : src.read s.ip = .ok (src.bytes s.ip) := read_ok (by omega)
  have hread' : src.read (s.ip + 1) = .ok (src.bytes (s.ip + 1)) := read_ok (by omega)
  unfold firstLiteralRun
  simp only [hread, hread', ok_bind]
  by_cases hmatch : 16 ≤ (src.bytes s.ip).toNat
  · exact ⟨.goto (.matched _) ⟨s.ip + 1, s.out⟩, if_pos hmatch, hout,
      ⟨hip, (src.bytes s.ip).toNat_lt⟩, Nat.lt_succ_self _⟩
  rw [if_neg hmatch]
  exact blockCopy_follows hb (by change s.ip < s.ip + 1 + 1; omega)
    (by change s.ip + 1 + 1 ≤ _; omega) hout (by omega)

theorem literalRun_follows {t ip : Nat} (hb : Bounds src cap) (hpos : 0 < t)
    (hlt : t + 4 < 2 ^ 32) (hfrom : ip ≤ s.ip) (hip : s.ip ≤ src.len)
    (hout : s.out.length ≤ cap) :
    ∃ n, literalRun src cap t s = .ok n ∧ Follows src cap ip n := by
  have hlimit := hb.limit_le
  have hlen := hb.len_le
  unfold literalRun
  by_cases hop : haveOp cap (t + 3) s = true
  · exact ⟨_, if_pos hop, hout⟩
  rw [if_neg hop]
  have hroom := (haveOp_eq_false_iff hb.cap_lt hout (by omega)).mp
    (Bool.eq_false_of_not_eq_true hop)
  by_cases hend : haveIp src (t + 4) s.ip = true
  · exact ⟨_, if_pos hend, hout⟩
  rw [if_neg hend]
  have hmore := (haveIp_eq_false_iff (by omega) hip hlt).mp (Bool.eq_false_of_not_eq_true hend)
  have hfour : s.out.length + 4 = (s.out ++ readBytes src.bytes s.ip 4).length := by simp
  have hrest : copyRest src cap (t - 1) ⟨s.ip + 4, s.out ++ readBytes src.bytes s.ip 4⟩ = .ok _ :=
    copyRest_eq (by change s.ip + 4 + (t - 1) ≤ _; omega)
      (by change (s.out ++ readBytes src.bytes s.ip 4).length + (t - 1) ≤ _; omega)
  rw [copyFour_eq (by omega) (by omega), ok_bind, sub32_of_le (by omega) hpos, hrest]
  refine ⟨.goto .firstLiteralRun ⟨s.ip + 4 + (t - 1), _⟩, rfl, ?_, ?_, ?_⟩
  · simp
    omega
  · change s.ip + 4 + (t - 1) < src.len
    omega
  · change ip < s.ip + 4 + (t - 1)
    omega

theorem top_follows (hb : Bounds src cap) (hout : s.out.length ≤ cap) :
    ∃ n, top src cap s = .ok n ∧ Follows src cap s.ip n := by
  have hlimit := hb.limit_le
  have hlen := hb.len_le
  unfold top
  by_cases hip : s.ip < src.len
  · have hread : src.read s.ip = .ok (src.bytes s.ip) := read_ok (by omega)
    simp only [if_pos hip, hread, ok_bind]
    by_cases hmatch : 16 ≤ (src.bytes s.ip).toNat
    · exact ⟨.goto (.matched _) ⟨s.ip + 1, s.out⟩, if_pos hmatch, hout,
        ⟨hip, (src.bytes s.ip).toNat_lt⟩, Nat.lt_succ_self _⟩
    rw [if_neg hmatch]
    have hnext : s.ip + 1 ≤ src.len := hip
    obtain ⟨r, hr, hspec⟩ := extend_bound hb hnext
      (by omega : (src.bytes s.ip).toNat < 32) (by omega : 15 ≤ 31)
    rw [hr, ok_bind]
    cases r with
    | none => exact ⟨_, rfl, hout⟩
    | some p =>
        obtain ⟨t', ip'⟩ := p
        have hrun := hspec t' ip' rfl
        exact literalRun_follows hb hrun.1 (by omega) (by change s.ip ≤ ip'; omega)
          (by change ip' ≤ src.len; omega) hout
  · exact ⟨_, if_neg hip, hout⟩

theorem step_follows {l : Label} (hb : Bounds src cap) (hin : InInput src l s.ip)
    (hout : s.out.length ≤ cap) : ∃ n, step src cap l s = .ok n ∧ Follows src cap s.ip n := by
  cases l with
  | top => exact top_follows hb hout
  | firstLiteralRun => exact firstLiteralRun_follows hb hin hout
  | matched t => exact matched_follows hb hin.2 hin.1 hout
  | matchNext t => exact matchNext_follows hb hin.1 hin.2.1 hin.2.2 hout

end Steps

/-! ## Runs -/

/-- `ip` has no value above `src.len + 6`, and every label moves it on. -/
theorem run_returns {fuel : Nat} {l : Label} (hb : Bounds src cap) (hin : InInput src l s.ip)
    (hout : s.out.length ≤ cap) (hfuel : src.len + 6 < fuel + s.ip) :
    ∃ c out, run src cap fuel (.goto l s) = .ok (c, out) ∧ out.length ≤ cap := by
  induction fuel generalizing l s with
  | zero => cases l <;> simp only [InInput] at hin <;> omega
  | succ fuel ih =>
      obtain ⟨n, hstep, hnext⟩ := step_follows hb hin hout
      have hrun : run src cap (fuel + 1) (.goto l s) = run src cap fuel n := by
        rw [run, hstep, ok_bind]
      rw [hrun]
      cases n with
      | done c s' => exact ⟨c, s'.out, by rw [run], hnext⟩
      | goto l' s' => exact ih hnext.2.1 hnext.1 (by have := hnext.2.2; omega)

theorem begin_follows (hb : Bounds src cap) :
    (∃ c, begin src cap = .ok (.done c ⟨1, []⟩)) ∨
      ∃ l s, begin src cap = .ok (.goto l s) ∧ InInput src l s.ip ∧ s.out.length ≤ cap := by
  have hlen := hb.len_le
  have hpos := hb.len_pos
  have hlimit := hb.limit_le
  have hread : src.read 0 = .ok (src.bytes 0) := read_ok (by omega)
  have hbyte := (src.bytes 0).toNat_lt
  unfold begin
  simp only [hread, ok_bind]
  split_ifs with hrun hthree hop hend
  · exact .inr ⟨.matchNext _, ⟨1, []⟩, rfl, ⟨by omega, by omega, by change 1 ≤ _; omega⟩,
      Nat.zero_le _⟩
  · exact .inl ⟨_, rfl⟩
  · exact .inl ⟨_, rfl⟩
  · have hroom := (haveOp_eq_false_iff hb.cap_lt (Nat.zero_le _) (by omega)).mp
      (Bool.eq_false_of_not_eq_true hop)
    have hmore := (haveIp_eq_false_iff (by omega) hpos (by omega)).mp
      (Bool.eq_false_of_not_eq_true hend)
    rw [copyBytes_eq (by change 1 + _ ≤ _; omega) hroom]
    refine .inr ⟨.firstLiteralRun, ⟨1 + ((src.bytes 0).toNat - 17), _⟩, rfl, ?_, by simpa using hroom⟩
    change 1 + ((src.bytes 0).toNat - 17) < src.len
    omega
  · exact .inr ⟨.top, ⟨0, []⟩, rfl, Nat.zero_le _, Nat.zero_le _⟩

/-- Whatever the input holds, the decompressor returns, and without a read or a write
outside of the two buffers and the six bytes behind the first. -/
theorem lzo1xDecompressSafe_returns (hb : Bounds src cap) :
    ∃ c out, lzo1xDecompressSafe src cap = .ok (c, out) ∧ out.length ≤ cap := by
  unfold lzo1xDecompressSafe
  rcases begin_follows hb with ⟨c, h⟩ | ⟨l, s, h, hin, hout⟩
  · rw [h]
    exact ⟨c, [], rfl, Nat.zero_le _⟩
  · rw [h]
    exact run_returns hb hin hout (by omega)

/-- Five literals and the first byte of a match; what stands behind them has three more
literals follow it. -/
def cutSource (limit : Nat) : Source :=
  ⟨fun i => [22, 1, 2, 3, 4, 5, 33, 3].getD i 0, 7, limit⟩

theorem lzo1xDecompressSafe_returns_cutSource :
    ∃ c out, lzo1xDecompressSafe (cutSource 13) 16 = .ok (c, out) ∧ out.length ≤ 16 :=
  lzo1xDecompressSafe_returns ⟨by decide, by decide, by decide, by decide⟩

-- five readable bytes are not enough
example : lzo1xDecompressSafe (cutSource 12) 16 = .error .fault := rfl

end Snitchaser.Lzo.Safety
