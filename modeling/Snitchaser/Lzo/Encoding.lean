import Mathlib.Data.Nat.Bitwise
import Mathlib.Data.List.Basic
import Snitchaser.Lzo.Decoding
/-!
# The compressor writes the format

Nothing is known about the table at the beginning.  An entry is used after the bytes it
leads to have been compared, so a wrong one costs a match and nothing else; but it must lead
before `ip`, and that is tested by a difference of pointers that wraps.  The test is right
when the input does not lie in the lowest 48 KiB of the address space.
-/

namespace Snitchaser.Lzo.Encoding

open Snitchaser.Defs
open Snitchaser.Lib.BackCopy
open Snitchaser.Lib.ByteMemory
open Snitchaser.Lib.Program
open Snitchaser.Lzo.Decoding
open Snitchaser.Lzo.Format
open Snitchaser.Lzo.Model
open Snitchaser.Lzo.Safety

variable {b : Input} {ip mPos mOff : Nat}

/-! ## Matches that are found -/

/-- What has been compared when a match is taken. -/
structure Found (b : Input) (ip mPos mOff : Nat) : Prop where
  start_le : b.start ≤ mPos
  before : mPos < ip
  off_eq : mOff = ip - mPos
  off_le : mOff ≤ m4MaxOffset
  three : ∀ i < 3, b.mem (mPos + i) = b.mem (ip + i)
  far : m2MaxOffset < mOff → b.mem (mPos + 3) = b.mem (ip + 3)

/-- Where the input and the table can be. -/
structure Placed (b : Input) (dict : Nat → Nat) : Prop where
  start_ge : m4MaxOffset ≤ b.start
  end_le : b.inEnd ≤ 2 ^ 32
  dict_lt : ∀ i, dict i < 2 ^ 32

theorem probe_confirm (hstart : m4MaxOffset ≤ b.start) (hip : b.start ≤ ip) (hlt : ip < 2 ^ 32)
    (hpos : mPos < 2 ^ 32) (hprobe : probe b ip mPos = .tryMatch mOff) {m o : Nat}
    (hconfirm : confirm b ip mPos mOff = some (m, o)) : Found b ip m o := by
  have hmax : m4MaxOffset = 0xBFFF := rfl
  unfold confirm at hconfirm
  split at hconfirm
  · rename_i hthree
    obtain ⟨rfl, rfl⟩ := Prod.mk.inj (Option.some.inj hconfirm)
    unfold probe at hprobe
    split_ifs at hprobe with hlow hoff hnear
    obtain rfl := Probe.tryMatch.inj hprobe
    have hbefore : mPos < ip := by
      unfold sub32 at hoff
      omega
    refine ⟨by omega, hbefore, sub32_of_le hlt hbefore.le, by omega, ?_, fun hfar => ?_⟩
    · intro i hi
      match i, hi with
      | 0, _ => exact hthree.1
      | 1, _ => exact hthree.2.1
      | 2, _ => exact hthree.2.2
    · exact hnear.resolve_left (by omega)
  · cases hconfirm

theorem findMatch_found {dict : Nat → Nat} (hstart : m4MaxOffset ≤ b.start) (hip : b.start ≤ ip)
    (hlt : ip < 2 ^ 32) (hdict : ∀ i, dict i < 2 ^ 32)
    (h : (findMatch b dict ip).2 = some (mPos, mOff)) : Found b ip mPos mOff := by
  unfold findMatch at h
  dsimp only at h
  split at h
  · cases h
  · rename_i hprobe
    exact probe_confirm hstart hip hlt (hdict _) hprobe h
  · split at h
    · cases h
    · rename_i hprobe
      exact probe_confirm hstart hip hlt (hdict _) hprobe h
    · cases h

/-! ## Lengths of matches -/

theorem equalBytes_le (mem : Memory) (p q n : Nat) : equalBytes mem p q n ≤ n := by
  induction n generalizing p q with
  | zero => exact Nat.le_refl 0
  | succ n ih =>
      unfold equalBytes
      split
      · exact Nat.succ_le_succ (ih (p + 1) (q + 1))
      · exact Nat.zero_le _

theorem equalBytes_same {mem : Memory} {p q n i : Nat} (hi : i < equalBytes mem p q n) :
    mem (p + i) = mem (q + i) := by
  induction n generalizing p q i with
  | zero => exact absurd hi (Nat.not_lt_zero i)
  | succ n ih =>
      unfold equalBytes at hi
      split at hi
      · rename_i hsame
        cases i with
        | zero => exact hsame
        | succ i =>
            have := ih (Nat.lt_of_succ_lt_succ hi)
            rwa [Nat.add_assoc, Nat.add_assoc, Nat.add_comm 1] at this
      · exact absurd hi (Nat.not_lt_zero i)

theorem equalBytes_pos {mem : Memory} {p q n : Nat} (hn : 0 < n) (h : mem p = mem q) :
    0 < equalBytes mem p q n := by
  cases n with
  | zero => omega
  | succ n =>
      rw [equalBytes, if_pos h]
      exact Nat.succ_pos _

theorem same_add {mem : Memory} {p q m n : Nat} (h : ∀ i < m, mem (p + i) = mem (q + i))
    (h' : ∀ i < n, mem (p + m + i) = mem (q + m + i)) :
    ∀ i < m + n, mem (p + i) = mem (q + i) := by
  intro i hi
  by_cases him : i < m
  · exact h i him
  · have := h' (i - m) (by omega)
    rwa [Nat.add_assoc, Nat.add_assoc, Nat.add_sub_cancel' (by omega)] at this

/-! ## Codes -/

theorem shiftLeft_or {a x i : Nat} (h : x < 2 ^ i) : (a <<< i) ||| x = a * 2 ^ i + x := by
  rw [← Nat.shiftLeft_add_eq_or_of_lt h, Nat.shiftLeft_eq]

theorem m3Marker_or {x : Nat} (h : x < 32) : m3Marker ||| x = m3Marker + x :=
  @shiftLeft_or 1 x 5 h

theorem m4Marker_or : ∀ high < 2, ∀ x < 8, m4Marker ||| (high * 8) ||| x = m4Marker + high * 8 + x := by
  decide

theorem and_4000_shift {o : Nat} (h : o < 0x8000) : (o &&& 0x4000) >>> 11 = o / 0x4000 * 8 := by
  have hbit : o &&& 0x4000 = (o.testBit 14).toNat * 2 ^ 14 := Nat.and_two_pow o 14
  rw [hbit, Nat.testBit_eq_decide_div_mod_eq, Nat.shiftRight_eq_div_pow]
  by_cases hhigh : o / 2 ^ 14 % 2 = 1
  · rw [decide_eq_true hhigh]
    change 1 * 2 ^ 14 / 2 ^ 11 = _
    omega
  · rw [decide_eq_false hhigh]
    change 0 * 2 ^ 14 / 2 ^ 11 = _
    omega

theorem offsetBytes_eq (o : Nat) :
    offsetBytes o = [UInt8.ofNat (o % 64 * 4), UInt8.ofNat (o / 64)] := by
  rw [offsetBytes, show o &&& 63 = o % 64 from Nat.and_two_pow_sub_one_eq_mod o 6, Nat.shiftLeft_eq,
    Nat.shiftRight_eq_div_pow]

theorem ofNat_mod (n : Nat) : UInt8.ofNat (n % 256) = UInt8.ofNat n := by
  apply UInt8.toNat_inj.mp
  rw [UInt8.toNat_ofNat', UInt8.toNat_ofNat', Nat.mod_mod]

/-- The first byte and the lengths behind it, as the two functions write them. -/
theorem middle_eq {len : Nat} (hthree : 3 ≤ len) :
    (if len ≤ 33 then [UInt8.ofNat (m3Marker ||| (len - 2))]
      else UInt8.ofNat (m3Marker ||| 0) :: lengthBytes (len - 33)) = lengthCode m3Marker 33 len := by
  unfold lengthCode
  split
  · rw [m3Marker_or (by omega)]
  · rfl

theorem far_eq {len o : Nat} (ho : o < 0x8000) (hthree : 3 ≤ len) :
    (if len ≤ m4MaxLen then [UInt8.ofNat (m4Marker ||| ((o &&& 0x4000) >>> 11) ||| (len - 2))]
      else UInt8.ofNat (m4Marker ||| ((o &&& 0x4000) >>> 11)) :: lengthBytes (len - m4MaxLen)) =
      lengthCode (m4Marker + o / 0x4000 * 8) m4MaxLen len := by
  have hmost : m4MaxLen = 9 := rfl
  have hhigh : o / 0x4000 < 2 := by omega
  unfold lengthCode
  rw [and_4000_shift ho]
  split
  · rw [m4Marker_or _ hhigh _ (by omega)]
  · have := m4Marker_or _ hhigh 0 (by omega)
    rw [Nat.or_zero, Nat.add_zero] at this
    rw [this]

theorem longMatch_eq {off len : Nat} (hlen : 9 ≤ len) (hmax : off ≤ m4MaxOffset) :
    longMatch off len = matchBytes off len 0 := by
  have hshort : ¬ (off ≤ m2MaxOffset ∧ len ≤ m2MaxLen) := fun h => by
    have : len ≤ 8 := h.2
    omega
  have hbound : off ≤ 0xBFFF := hmax
  unfold longMatch matchBytes
  rw [if_neg hshort]
  dsimp only
  split
  · rw [← middle_eq (by omega), offsetBytes_eq, Nat.add_zero]
    split <;> rfl
  · rw [← far_eq (by omega) (by omega), offsetBytes_eq, Nat.add_zero, ofNat_mod]
    split <;> rfl

theorem shortMatch_eq {off len : Nat} (hpos : 0 < off) (hthree : 3 ≤ len) (hlen : len ≤ 8)
    (hmax : off ≤ m4MaxOffset) : shortMatch off len = matchBytes off len 0 := by
  have hbound : off ≤ 0xBFFF := hmax
  unfold shortMatch matchBytes
  dsimp only
  by_cases hnear : off ≤ m2MaxOffset
  · have hlow : ((off - 1) &&& 7) <<< 2 < 2 ^ 5 := by
      rw [and_seven, Nat.shiftLeft_eq]
      omega
    rw [if_pos hnear, if_pos ⟨hnear, hlen⟩, shiftLeft_or hlow, and_seven, Nat.shiftLeft_eq,
      Nat.shiftRight_eq_div_pow, Nat.add_zero]
    rfl
  · have hshort : ¬ (off ≤ m2MaxOffset ∧ len ≤ m2MaxLen) := fun h => hnear h.1
    rw [if_neg hnear, if_neg hshort]
    by_cases hmiddle : off ≤ m3MaxOffset
    · rw [if_pos hmiddle, if_pos hmiddle, ← middle_eq hthree, if_pos (by omega), offsetBytes_eq,
        Nat.add_zero]
      rfl
    · have hfew : len ≤ m4MaxLen := Nat.le_succ_of_le hlen
      rw [if_neg hmiddle, if_neg hmiddle, ← far_eq (by omega) hthree, if_pos hfew, offsetBytes_eq,
        Nat.add_zero, ofNat_mod]
      rfl

/-- The code is that of a match as long as the bytes that are the same. -/
theorem matchCode_spec (hf : Found b ip mPos mOff) (hip : ip + 9 ≤ b.inEnd) :
    ∃ len, matchCode b ip mPos mOff = (len, matchBytes mOff len 0) ∧ ip + len ≤ b.inEnd ∧
      MatchOk mOff len (ip - b.start) ∧ ∀ i < len, b.mem (mPos + i) = b.mem (ip + i) := by
  have hstart := hf.start_le
  have hbefore := hf.before
  have hoff := hf.off_eq
  unfold matchCode
  dsimp only
  split
  · rename_i hsix
    generalize hn : equalBytes b.mem (mPos + 3) (ip + 3) 6 = n at hsix
    refine ⟨3 + n, ?_, by omega, ⟨by omega, by omega, hf.off_le, by omega, fun hfar => ?_⟩, ?_⟩
    · rw [shortMatch_eq (by omega) (by omega) (by omega) hf.off_le]
    · have hone := equalBytes_pos (by omega : 0 < 6) (hf.far hfar)
      omega
    · exact same_add hf.three fun i hi => equalBytes_same (hn ▸ hi)
  · rename_i hsix
    have hall : equalBytes b.mem (mPos + 3) (ip + 3) 6 = 6 :=
      Nat.le_antisymm (equalBytes_le _ _ _ _) (Nat.not_lt.mp hsix)
    have hnine : ∀ i < 3 + 6, b.mem (mPos + i) = b.mem (ip + i) :=
      same_add hf.three fun i hi => equalBytes_same (hall.symm ▸ hi)
    have hle := equalBytes_le b.mem (mPos + m2MaxLen + 1) (ip + 9) (b.inEnd - (ip + 9))
    generalize hn : equalBytes b.mem (mPos + m2MaxLen + 1) (ip + 9) (b.inEnd - (ip + 9)) = n at hle
    refine ⟨9 + n, ?_, by omega, ⟨by omega, by omega, hf.off_le, by omega, fun _ => by omega⟩, ?_⟩
    · rw [longMatch_eq (by omega) hf.off_le]
    · exact same_add hnine fun i hi => equalBytes_same (hn ▸ hi)

/-! ## Literals behind a match -/

theorem or_low : ∀ a < 64, ∀ k < 4,
    UInt8.ofNat (a * 4) ||| UInt8.ofNat k = UInt8.ofNat (a * 4 + k) := by decide

/-- The number of literals stands in the low bits of the last byte but one. -/
theorem matchBytes_split {off len before : Nat} (hm : MatchOk off len before) :
    ∃ first last, ∃ a < 64, ∀ k,
      matchBytes off len k = first ++ [UInt8.ofNat (a * 4 + k), last] := by
  have hthree := hm.three_le
  unfold matchBytes
  split_ifs with hshort hmiddle
  · have hlen : len ≤ 8 := hshort.2
    refine ⟨[], UInt8.ofNat ((off - 1) / 8), (len - 1) * 8 + (off - 1) % 8, by omega, fun k => ?_⟩
    rw [show ((len - 1) * 8 + (off - 1) % 8) * 4 = (len - 1) * 32 + (off - 1) % 8 * 4 by omega]
    rfl
  · exact ⟨_, _, (off - 1) % 64, by omega, fun k => rfl⟩
  · exact ⟨_, _, (off - 0x4000) % 64, by omega, fun k => rfl⟩

theorem modify_append {α : Type} (f : α → α) (out : List α) (x : α) (rest : List α) :
    (out ++ x :: rest).modify out.length f = out ++ f x :: rest := by
  induction out with
  | nil => rfl
  | cons y out ih =>
      rw [List.cons_append, List.length_cons, List.modify_succ_cons, ih]
      rfl

theorem orBack_append (out : List UInt8) (x y : UInt8) (t : Nat) :
    orBack (out ++ [x, y]) t = .ok (out ++ [x ||| UInt8.ofNat t, y]) := by
  have hlen : (out ++ [x, y]).length = out.length + 2 := by simp
  rw [orBack, if_pos (by omega), hlen, Nat.add_sub_cancel, modify_append]

theorem orBack_matchBytes {off len before k : Nat} (hm : MatchOk off len before) (hk : k ≤ 3)
    (bytes : List UInt8) :
    orBack (bytes ++ matchBytes off len 0) k = .ok (bytes ++ matchBytes off len k) := by
  obtain ⟨first, last, a, ha, hsplit⟩ := matchBytes_split hm
  rw [hsplit, hsplit, Nat.add_zero, ← List.append_assoc, orBack_append, or_low a ha k (by omega),
    List.append_assoc]

theorem emitLiterals_run {ii n : Nat} (hfour : 4 ≤ n) (out : List UInt8) :
    emitLiterals b ii n out = .ok (out ++ runBytes (readBytes b.mem ii n)) := by
  unfold emitLiterals runHead runBytes
  rw [if_neg (by omega), length_readBytes]
  split
  · rw [ok_bind, List.append_assoc]
    rfl
  · rw [ok_bind, List.append_assoc]
    rfl

/-- Literals behind a match complete the group. -/
theorem emitLiterals_group {off len before ii n : Nat} (hm : MatchOk off len before)
    (bytes : List UInt8) :
    emitLiterals b ii n (bytes ++ matchBytes off len 0) =
      .ok (bytes ++ groupBytes off len (readBytes b.mem ii n)) := by
  unfold groupBytes
  rw [length_readBytes]
  by_cases hthree : n ≤ 3
  · rw [if_pos hthree, emitLiterals, runHead, if_pos hthree, orBack_matchBytes hm hthree, ok_bind,
      List.append_assoc]
    rfl
  · rw [if_neg hthree, emitLiterals_run (by omega), List.append_assoc]

/-! ## The loop -/

/-- The input from its beginning to `ip`. -/
def consumed (b : Input) (ip : Nat) : List UInt8 := readBytes b.mem b.start (ip - b.start)

theorem consumed_append {ii : Nat} (hii : b.start ≤ ii) (hle : ii ≤ ip) :
    consumed b ii ++ readBytes b.mem ii (ip - ii) = consumed b ip := by
  unfold consumed
  rw [show ip - b.start = (ii - b.start) + (ip - ii) by omega, readBytes_add,
    Nat.add_sub_cancel' hii]

theorem length_consumed : (consumed b ip).length = ip - b.start := length_readBytes _ _ _

/-- A match that was found stands for the bytes from `ip` on. -/
theorem copyBack_consumed (hf : Found b ip mPos mOff) {len : Nat}
    (hsame : ∀ i < len, b.mem (mPos + i) = b.mem (ip + i)) :
    copyBack mOff len (consumed b ip) = consumed b (ip + len) := by
  have hstart := hf.start_le
  have hbefore := hf.before
  have hoff := hf.off_eq
  have hrepeat : ∀ i < len, b.mem (b.start + (ip - b.start + i)) =
      b.mem (b.start + (ip - b.start + i - mOff)) := by
    intro i hi
    have := (hsame i hi).symm
    rwa [show b.start + (ip - b.start + i) = ip + i by omega,
      show b.start + (ip - b.start + i - mOff) = mPos + i by omega]
  have hlen : ip + len - b.start = ip - b.start + len := by omega
  unfold consumed
  rw [hlen]
  exact @copyBack_repeats _ len _ mOff (fun i => b.mem (b.start + i)) _ (by omega) (by omega) hrepeat

/-- What has been written when the input up to `ii` is: the last match has no literals yet. -/
def Pending (b : Input) (ii : Nat) (out : List UInt8) : Prop :=
  (out = [] ∧ ii = b.start) ∨
    ∃ bytes before off len, Coded bytes before ∧ MatchOk off len before.length ∧
      out = bytes ++ matchBytes off len 0 ∧ copyBack off len before = consumed b ii

theorem Pending.start_of_nil {ii : Nat} {out : List UInt8} (h : Pending b ii out) (hnil : out = []) :
    ii = b.start := by
  rcases h with ⟨-, hstart⟩ | ⟨bytes, before, off, len, -, hm, hout, -⟩
  · exact hstart
  · obtain ⟨first, rest, hhead, -⟩ := matchBytes_head hm (Nat.zero_le 3)
    rw [hnil, hhead] at hout
    exact absurd hout.symm (by simp)

theorem Pending.emit {ii : Nat} {out : List UInt8} (h : Pending b ii out) (hii : b.start ≤ ii)
    (hip : ii ≤ ip) (hfour : out = [] → ii = b.start → ii = ip ∨ 4 ≤ ip - ii) :
    ∃ bytes, emitPending b ii ip out = .ok bytes ∧ Coded bytes (consumed b ip) := by
  unfold emitPending
  by_cases hsame : ip = ii
  · rw [if_neg fun hne => hne hsame]
    refine ⟨out, rfl, ?_⟩
    rcases h with ⟨rfl, hstart⟩ | ⟨bytes, before, off, len, hcoded, hm, rfl, hback⟩
    · rw [hsame, hstart, consumed, Nat.sub_self]
      exact .empty
    · rw [hsame, ← hback]
      have hgroup := @Coded.group _ _ [] _ _ hcoded hm
      rwa [groupBytes, List.length_nil, if_pos (Nat.zero_le 3), List.append_nil, List.append_nil]
        at hgroup
  · rw [if_pos hsame]
    rcases h with ⟨rfl, hstart⟩ | ⟨bytes, before, off, len, hcoded, hm, rfl, hback⟩
    · have hmany : 4 ≤ ip - ii := (hfour rfl hstart).resolve_left fun h => hsame h.symm
      refine ⟨_, emitLiterals_run hmany [], ?_⟩
      rw [hstart] at hmany ⊢
      exact .run (by rwa [length_readBytes])
    · refine ⟨_, emitLiterals_group hm bytes, ?_⟩
      rw [← consumed_append hii hip, ← hback]
      exact hcoded.group hm

/-- What holds at the head of the loop. -/
structure Inv (b : Input) (s : CState) : Prop where
  dict_lt : ∀ i, s.dict i < 2 ^ 32
  four_le : b.start + 4 ≤ s.ip
  start_le : b.start ≤ s.ii
  ii_le : s.ii ≤ s.ip
  ip_le : s.ip ≤ b.inEnd
  pending : Pending b s.ii s.out

theorem compressStep_inv {s : CState} (hstart : m4MaxOffset ≤ b.start) (hend : b.inEnd ≤ 2 ^ 32)
    (h : Inv b s) (hip : s.ip + 9 ≤ b.inEnd) :
    ∃ s', compressStep b s = .ok s' ∧ Inv b s' ∧ s.ip < s'.ip := by
  have hfour := h.four_le
  have hdict : ∀ i, Function.update s.dict (findMatch b s.dict s.ip).1 s.ip i < 2 ^ 32 := by
    intro i
    rw [Function.update_apply]
    split
    · omega
    · exact h.dict_lt i
  unfold compressStep
  dsimp only
  split
  · refine ⟨_, rfl, ⟨hdict, ?_, h.start_le, ?_, ?_, h.pending⟩, Nat.lt_succ_self _⟩
    · exact Nat.le_succ_of_le hfour
    · exact Nat.le_succ_of_le h.ii_le
    · change s.ip + 1 ≤ b.inEnd
      omega
  · rename_i mPos mOff hfound
    have hf := findMatch_found hstart (by omega) (by omega) h.dict_lt hfound
    obtain ⟨len, hcode, hlen, hm, hsame⟩ := matchCode_spec hf hip
    obtain ⟨bytes, hemit, hcoded⟩ := h.pending.emit h.start_le h.ii_le fun _ hii => by omega
    have hthree := hm.three_le
    rw [hemit, ok_bind, hcode]
    refine ⟨_, rfl, ⟨hdict, ?_, ?_, Nat.le_refl _, hlen, .inr ?_⟩, ?_⟩
    · change b.start + 4 ≤ s.ip + len
      omega
    · change b.start ≤ s.ip + len
      omega
    · exact ⟨bytes, consumed b s.ip, mOff, len, hcoded, by rwa [length_consumed], rfl,
        copyBack_consumed hf hsame⟩
    · change s.ip < s.ip + len
      omega

theorem compressLoop_inv {fuel : Nat} {s : CState} (hstart : m4MaxOffset ≤ b.start)
    (hend : b.inEnd ≤ 2 ^ 32) (h : Inv b s) (hip : s.ip + 9 ≤ b.inEnd)
    (hfuel : b.inEnd ≤ fuel + s.ip) : ∃ s', compressLoop b fuel s = .ok s' ∧ Inv b s' := by
  induction fuel generalizing s with
  | zero => omega
  | succ fuel ih =>
      obtain ⟨s', hstep, hinv, hlt⟩ := compressStep_inv hstart hend h hip
      rw [compressLoop, hstep, ok_bind]
      split
      · exact ⟨s', rfl, hinv⟩
      · rename_i hmore
        have hnext : s'.ip < b.inEnd - 8 - 5 := Nat.not_le.mp hmore
        exact ih hinv (by omega) (by omega)

/-! ## The end of the stream -/

theorem finish_pending {ii : Nat} {out : List UInt8} (h : Pending b ii out) (hii : b.start ≤ ii)
    (hle : ii ≤ b.inEnd) :
    ∃ bytes, finish b out (b.inEnd - ii) = .ok (bytes ++ eofBytes) ∧
      Coded bytes (readBytes b.mem b.start b.inLen) := by
  have hinEnd : b.inEnd = b.start + b.inLen := rfl
  have hall : consumed b b.inEnd = readBytes b.mem b.start b.inLen := by
    rw [consumed, hinEnd, Nat.add_sub_cancel_left]
  have hback : b.start + b.inLen - (b.inEnd - ii) = ii := by omega
  rw [← hall, finish, hback]
  by_cases hshort : out.length = 0 ∧ 0 < b.inEnd - ii ∧ b.inEnd - ii ≤ 238
  · obtain ⟨hnil, hpos, hfew⟩ := hshort
    have hstart : ii = b.start := h.start_of_nil (List.length_eq_zero_iff.mp hnil)
    rw [lastLiterals, if_pos hpos, if_pos ⟨hnil, hfew⟩, ok_bind, List.length_eq_zero_iff.mp hnil,
      hstart]
    rw [hstart] at hpos hfew
    refine ⟨UInt8.ofNat (17 + (b.inEnd - b.start)) :: consumed b b.inEnd, rfl, ?_⟩
    have hcoded := @Coded.short (consumed b b.inEnd) (by rwa [length_consumed])
      (by rwa [length_consumed])
    rwa [length_consumed] at hcoded
  · have hlast : lastLiterals b ii (b.inEnd - ii) out = emitPending b ii b.inEnd out := by
      unfold lastLiterals emitPending
      by_cases hrest : ii = b.inEnd
      · rw [if_neg (by omega), if_neg fun hne => hne hrest.symm]
      · rw [if_pos (by omega), if_neg fun hfew => hshort ⟨hfew.1, by omega, hfew.2⟩,
          if_pos (Ne.symm hrest)]
    have hfour : out = [] → ii = b.start → ii = b.inEnd ∨ 4 ≤ b.inEnd - ii := by
      intro hnil _
      have hzero : out.length = 0 := List.length_eq_zero_iff.mpr hnil
      omega
    obtain ⟨bytes, hemit, hcoded⟩ := h.emit hii hle hfour
    rw [hlast, hemit, ok_bind]
    exact ⟨bytes, rfl, hcoded⟩

/-- Whatever the table holds, the compressor returns, and what it returns stands for the
input. -/
theorem compress_coded {dict : Nat → Nat} (hp : Placed b dict) :
    ∃ bytes, lzo1x1Compress b dict = .ok (bytes ++ eofBytes) ∧
      Coded bytes (readBytes b.mem b.start b.inLen) := by
  have hinEnd : b.inEnd = b.start + b.inLen := rfl
  have hnothing : Pending b b.start [] := .inl ⟨rfl, rfl⟩
  unfold lzo1x1Compress
  split
  · have hfinish := finish_pending hnothing (Nat.le_refl _) (by omega)
    rwa [hinEnd, Nat.add_sub_cancel_left] at hfinish
  · rename_i hlong
    have hlen : 13 < b.inLen := Nat.not_le.mp hlong
    have hinv : Inv b ⟨dict, b.start + 4, b.start, []⟩ :=
      ⟨hp.dict_lt, Nat.le_refl _, Nat.le_refl _, Nat.le_add_right _ _,
        (by omega : b.start + 4 ≤ b.inEnd), hnothing⟩
    obtain ⟨s, hloop, hs⟩ := compressLoop_inv hp.start_ge hp.end_le hinv
      (by change b.start + 4 + 9 ≤ b.inEnd; omega)
      (by change b.inEnd ≤ b.inLen + (b.start + 4); omega)
    rw [lzo1x1DoCompress, hloop, ok_bind]
    exact finish_pending hs.pending hs.start_le (Nat.le_trans hs.ii_le hs.ip_le)

end Snitchaser.Lzo.Encoding
