import Snitchaser.Lzo.Decoding
/-!
# Streams that are cut off

A run that ends with `LZO_E_OK` has read its input to the end and nothing behind it, so a
longer input that begins the same way is read in the same way up to that point, and
reported as not consumed.  Of two streams that are accepted, neither begins the other: a
block that lost its end is never taken for a whole one.
-/

namespace Snitchaser.Lzo.Truncation

open Snitchaser.Defs
open Snitchaser.Lib.ByteMemory
open Snitchaser.Lib.Program
open Snitchaser.Lzo.Decoding (Sizes literalRun_eq)
open Snitchaser.Lzo.Model
open Snitchaser.Lzo.Safety

variable {src src' : Source} {cap : Nat} {s : DState}

/-- `src'` begins with `src` and goes on. -/
structure Extends (src src' : Source) : Prop where
  bytes_eq : ∀ i < src.len, src'.bytes i = src.bytes i
  len_lt : src.len < src'.len
  small : src'.len < 2 ^ 32
  limit_le : src'.len ≤ src'.limit

/-- The results that can be part of a run that ends with `LZO_E_OK`. -/
def Good (src : Source) : Next → Prop
  | .goto _ s => s.ip < src.len
  | .done c _ => c = .ok

/-- What the longer input gives instead. -/
def lift : Next → Next
  | .done .ok s => .done .inputNotConsumed s
  | n => n

/-- A result that is good from `ip` on shows up with the longer input too. -/
def Carries (src : Source) (ip : Nat) (x x' : Except Stop Next) : Prop :=
  ∀ n, x = .ok n → Good src n → ip < src.len ∧ x' = .ok (lift n)

theorem Carries.bad {ip : Nat} {c : Code} {x' : Except Stop Next} (h : c ≠ .ok) :
    Carries src ip (.ok (.done c s)) x' := by
  rintro n hn hgood
  cases hn
  exact absurd hgood h

theorem Carries.goto {l : Label} {ip : Nat} (hip : ip ≤ s.ip) :
    Carries src ip (.ok (.goto l s)) (.ok (.goto l s)) := by
  rintro n hn hgood
  cases hn
  exact ⟨Nat.lt_of_le_of_lt hip hgood, rfl⟩

theorem Carries.mono {ip ip' : Nat} {x x' : Except Stop Next} (h : Carries src ip' x x')
    (hip : ip ≤ ip') : Carries src ip x x' := by
  intro n hn hgood
  obtain ⟨hlt, hx'⟩ := h n hn hgood
  exact ⟨Nat.lt_of_le_of_lt hip hlt, hx'⟩

theorem Carries.bind {α : Type} {ip : Nat} {x : Except Stop α} {f f' : α → Except Stop Next}
    (h : ∀ a, x = .ok a → Carries src ip (f a) (f' a)) :
    Carries src ip (x >>= f) (x >>= f') := by
  intro n hn hgood
  obtain ⟨a, ha, hfa⟩ := except_bind_ok_iff.mp hn
  rw [ha]
  exact h a ha n hfa hgood

theorem read_eq {i : Nat} (hx : Extends src src') (hi : i < src.len) {byte : UInt8}
    (h : src.read i = .ok byte) : src'.read i = .ok byte := by
  have hlen := hx.len_lt
  have hlimit := hx.limit_le
  unfold Source.read at h
  split at h
  · rw [read_ok (by omega), hx.bytes_eq i hi]
    exact h
  · cases h

/-- Both inputs are read at the same place; the place lies in the shorter one if the rest is
good from there on. -/
theorem Carries.read {ip i : Nat} {f f' : UInt8 → Except Stop Next} (hx : Extends src src')
    (hi : ∀ byte n, f byte = .ok n → Good src n → i < src.len)
    (h : ∀ byte, Carries src ip (f byte) (f' byte)) :
    Carries src ip (src.read i >>= f) (src'.read i >>= f') := by
  intro n hn hgood
  obtain ⟨byte, hread, hrest⟩ := except_bind_ok_iff.mp hn
  rw [read_eq hx (hi byte n hrest hgood) hread, ok_bind]
  exact h byte n hrest hgood

/-! ## Copies do not move `ip` -/

section Ip

variable {off n : Nat} {s' : DState}

theorem put_ip {byte : UInt8} (h : put cap byte s = .ok s') : s'.ip = s.ip := by
  unfold put at h
  split at h
  · rw [← Except.ok.inj h]
  · cases h

theorem backBytes_ip (h : backBytes cap off n s = .ok s') : s'.ip = s.ip := by
  induction n generalizing s with
  | zero => rw [← Except.ok.inj h]
  | succ n ih =>
      obtain ⟨u, hu, hrest⟩ := except_bind_ok_iff.mp h
      obtain ⟨byte, -, hput⟩ := except_bind_ok_iff.mp hu
      exact (ih hrest).trans (put_ip hput)

theorem backFour_ip (h : backFour cap off s = .ok s') : s'.ip = s.ip := by
  obtain ⟨b0, -, h⟩ := except_bind_ok_iff.mp h
  obtain ⟨b1, -, h⟩ := except_bind_ok_iff.mp h
  obtain ⟨b2, -, h⟩ := except_bind_ok_iff.mp h
  obtain ⟨b3, -, h⟩ := except_bind_ok_iff.mp h
  obtain ⟨s1, h1, h⟩ := except_bind_ok_iff.mp h
  obtain ⟨s2, h2, h⟩ := except_bind_ok_iff.mp h
  obtain ⟨s3, h3, h⟩ := except_bind_ok_iff.mp h
  rw [put_ip h, put_ip h3, put_ip h2, put_ip h1]

theorem backRest_ip (h : backRest cap off n s = .ok s') : s'.ip = s.ip := by
  induction n using Nat.strongRecOn generalizing s with
  | ind n ih =>
      match n with
      | 0 | 1 | 2 | 3 => exact backBytes_ip h
      | n + 4 =>
          obtain ⟨u, hu, hrest⟩ := except_bind_ok_iff.mp h
          exact (ih n (by omega) hrest).trans (backFour_ip hu)

end Ip

/-! ## Labels -/

section Steps

variable {ip off t : Nat}

theorem matchDone_carries (hx : Extends src src') (hip : ip ≤ s.ip) :
    Carries src ip (matchDone src s) (matchDone src' s) := by
  refine Carries.read hx ?_ fun byte => ?_
  · intro byte n hn hgood
    have hlt : s.ip < src.len := by
      dsimp only at hn
      split at hn <;> cases hn <;> exact hgood
    omega
  · dsimp only
    split
    · exact Carries.goto hip
    · exact Carries.goto hip

theorem copyMatch_carries (hx : Extends src src') (hip : ip ≤ s.ip) :
    Carries src ip (copyMatch src cap off t s) (copyMatch src' cap off t s) :=
  Carries.bind fun _ h => matchDone_carries hx (hip.trans (backBytes_ip h).ge)

theorem longCopy_carries (hx : Extends src src') (hip : ip ≤ s.ip) :
    Carries src ip (longCopy src cap off t s) (longCopy src' cap off t s) := by
  unfold longCopy
  split_ifs
  · exact Carries.bad (by decide)
  · exact Carries.bad (by decide)
  · refine Carries.bind fun u hu => Carries.bind fun v hv => matchDone_carries hx ?_
    rw [backRest_ip hv, backFour_ip hu]
    exact hip
  · exact copyMatch_carries hx hip

/-- The two matches of fixed length. -/
theorem blockCopy_carries {n : Nat} (hx : Extends src src') (hip : ip ≤ s.ip) :
    Carries src ip
      (if haveLb off s then pure (.done .lookbehindOverrun s)
      else if haveOp cap n s then pure (.done .outputOverrun s)
      else do matchDone src (← backBytes cap off n s))
      (if haveLb off s then pure (.done .lookbehindOverrun s)
      else if haveOp cap n s then pure (.done .outputOverrun s)
      else do matchDone src' (← backBytes cap off n s)) := by
  split_ifs
  · exact Carries.bad (by decide)
  · exact Carries.bad (by decide)
  · exact Carries.bind fun _ h => matchDone_carries hx (hip.trans (backBytes_ip h).ge)

/-- A length that is read in the shorter input is read in the longer one. -/
theorem extendLoop_carries {base fuel fuel' ip t' ip' : Nat} (hx : Extends src src')
    (hip : ip < src.len) (hfuel : fuel ≤ fuel')
    (h : extendLoop src base fuel t ip = .ok (some (t', ip'))) :
    ip < ip' ∧ ip' ≤ src.len ∧ extendLoop src' base fuel' t ip = .ok (some (t', ip')) := by
  have hlen := hx.len_lt
  have hsmall := hx.small
  have hlimit := hx.limit_le
  induction fuel generalizing fuel' t ip with
  | zero => cases h
  | succ fuel ih =>
      obtain ⟨fuel', rfl⟩ : ∃ f, fuel' = f + 1 := ⟨fuel' - 1, by omega⟩
      rw [extendLoop] at h ⊢
      obtain ⟨byte, hread, hrest⟩ := except_bind_ok_iff.mp h
      rw [read_eq hx hip hread, ok_bind]
      by_cases hzero : byte = 0
      · rw [if_pos hzero] at hrest ⊢
        by_cases hend : haveIp src 1 (ip + 1) = true
        · rw [if_pos hend] at hrest
          cases hrest
        · rw [if_neg hend] at hrest
          have hmore := (haveIp_eq_false_iff (by omega) (by omega) (by omega)).mp
            (Bool.eq_false_of_not_eq_true hend)
          have hend' : haveIp src' 1 (ip + 1) = false :=
            (haveIp_eq_false_iff hsmall (by omega) (by omega)).mpr (by omega)
          rw [hend', if_neg Bool.false_ne_true]
          obtain ⟨hlt, hle, hloop⟩ := ih hmore (Nat.le_of_succ_le_succ hfuel) hrest
          exact ⟨by omega, hle, hloop⟩
      · rw [if_neg hzero] at hrest ⊢
        obtain ⟨rfl, rfl⟩ := Prod.mk.inj (Option.some.inj (Except.ok.inj hrest))
        exact ⟨Nat.lt_succ_self ip, hip, rfl⟩

theorem extend_carries {base ip t' ip' : Nat} (hx : Extends src src') (hip : ip ≤ src.len)
    (h : extend src base t ip = .ok (some (t', ip'))) :
    ip ≤ ip' ∧ ip' ≤ src.len ∧ extend src' base t ip = .ok (some (t', ip')) := by
  have hlen := hx.len_lt
  have hsmall := hx.small
  unfold extend at h ⊢
  by_cases hzero : t = 0
  · rw [if_pos hzero] at h ⊢
    by_cases hend : haveIp src 1 ip = true
    · rw [if_pos hend] at h
      cases h
    · rw [if_neg hend] at h
      have hmore := (haveIp_eq_false_iff (by omega) hip (by omega)).mp
        (Bool.eq_false_of_not_eq_true hend)
      have hend' : haveIp src' 1 ip = false :=
        (haveIp_eq_false_iff hsmall (by omega) (by omega)).mpr (by omega)
      rw [hend', if_neg Bool.false_ne_true]
      obtain ⟨hlt, hle, hloop⟩ := extendLoop_carries hx (by omega)
        (by omega : src.len + 1 ≤ src'.len + 1) h
      exact ⟨hlt.le, hle, hloop⟩
  · rw [if_neg hzero] at h ⊢
    obtain ⟨rfl, rfl⟩ := Prod.mk.inj (Option.some.inj (Except.ok.inj h))
    exact ⟨Nat.le_refl _, hip, rfl⟩

theorem Carries.extend {base ip : Nat} {f f' : Option (Nat × Nat) → Except Stop Next}
    (hx : Extends src src') (hip : ip ≤ src.len)
    (hnone : ∀ n, f none = .ok n → ¬ Good src n)
    (hsome : ∀ t' ip', Model.extend src base t ip = .ok (some (t', ip')) → ip ≤ ip' → ip' ≤ src.len →
      Carries src ip (f (some (t', ip'))) (f' (some (t', ip')))) :
    Carries src ip (Model.extend src base t ip >>= f) (Model.extend src' base t ip >>= f') := by
  intro n hn hgood
  obtain ⟨r, hr, hrest⟩ := except_bind_ok_iff.mp hn
  cases r with
  | none => exact absurd hgood (hnone n hrest)
  | some p =>
      obtain ⟨t', ip'⟩ := p
      obtain ⟨hle, hle', hr'⟩ := extend_carries hx hip hr
      rw [hr', ok_bind]
      exact hsome t' ip' hr hle hle' n hrest hgood

theorem Carries.word {ip i : Nat} {f f' : Nat → Except Stop Next} (hx : Extends src src')
    (hi : ∀ word n, f word = .ok n → Good src n → i + 1 < src.len)
    (h : ∀ word, Carries src ip (f word) (f' word)) :
    Carries src ip (getUnalignedLe16 src i >>= f) (getUnalignedLe16 src' i >>= f') := by
  have hlen := hx.len_lt
  have hlimit := hx.limit_le
  intro n hn hgood
  obtain ⟨word, hword, hrest⟩ := except_bind_ok_iff.mp hn
  have hlt := hi word n hrest hgood
  have hword' : getUnalignedLe16 src' i = .ok word := by
    obtain ⟨b0, h0, hword⟩ := except_bind_ok_iff.mp hword
    obtain ⟨b1, h1, hword⟩ := except_bind_ok_iff.mp hword
    rw [getUnalignedLe16, read_eq hx (by omega) h0, ok_bind, read_eq hx hlt h1, ok_bind]
    exact hword
  rw [hword', ok_bind]
  exact h word n hrest hgood

/-- The end of the code for the farthest matches, where the offset 0 is the end mark. -/
def farOrEnd (src : Source) (cap off t : Nat) (s : DState) : Except Stop Next :=
  if off = 0 then
    .ok (.done (if s.ip = src.len then .ok
      else if s.ip < src.len then .inputNotConsumed else .inputOverrun) s)
  else longCopy src cap (off + 0x4000) t s

theorem farOrEnd_carries (hx : Extends src src') (hip : s.ip = ip + 1) :
    Carries src ip (farOrEnd src cap off t s) (farOrEnd src' cap off t s) := by
  have hlen := hx.len_lt
  unfold farOrEnd
  by_cases hoff : off = 0
  · rw [if_pos hoff, if_pos hoff]
    intro n hn hgood
    obtain rfl := Except.ok.inj hn
    have hend : s.ip = src.len := by
      by_contra hne
      change (if s.ip = src.len then Code.ok else _) = .ok at hgood
      rw [if_neg hne] at hgood
      split at hgood <;> cases hgood
    rw [if_pos hend, if_neg (by omega), if_pos (by omega)]
    exact ⟨by omega, rfl⟩
  · rw [if_neg hoff, if_neg hoff]
    exact longCopy_carries hx (by omega)

theorem matched_carries (hx : Extends src src') (hip : s.ip ≤ src.len) :
    Carries src s.ip (matched src cap t s) (matched src' cap t s) := by
  have hlen := hx.len_lt
  unfold matched
  split_ifs
  · have hcopy (off t : Nat) : Carries src (s.ip + 1)
        (if haveLb off ⟨s.ip + 1, s.out⟩ then pure (.done .lookbehindOverrun ⟨s.ip + 1, s.out⟩)
        else if haveOp cap (t + 3 - 1) ⟨s.ip + 1, s.out⟩ then
          pure (.done .outputOverrun ⟨s.ip + 1, s.out⟩)
        else copyMatch src cap off t ⟨s.ip + 1, s.out⟩)
        (if haveLb off ⟨s.ip + 1, s.out⟩ then pure (.done .lookbehindOverrun ⟨s.ip + 1, s.out⟩)
        else if haveOp cap (t + 3 - 1) ⟨s.ip + 1, s.out⟩ then
          pure (.done .outputOverrun ⟨s.ip + 1, s.out⟩)
        else copyMatch src' cap off t ⟨s.ip + 1, s.out⟩) := by
      split_ifs
      · exact Carries.bad (by decide)
      · exact Carries.bad (by decide)
      · exact copyMatch_carries hx (Nat.le_refl _)
    refine Carries.read hx ?_ fun byte => ?_
    · intro byte n hn hgood
      have := (hcopy _ _ n hn hgood).1
      omega
    · exact (hcopy _ _).mono (Nat.le_succ _)
  · refine Carries.extend hx hip ?_ fun t' ip' _ hle hle' => ?_
    · intro n hn hgood
      cases hn
      cases hgood
    · refine Carries.word hx ?_ fun word => longCopy_carries hx (by change s.ip ≤ ip' + 2; omega)
      intro word n hn hgood
      have := (longCopy_carries hx (Nat.le_refl (ip' + 2)) n hn hgood).1
      omega
  · refine Carries.extend hx hip ?_ fun t' ip' _ hle hle' => ?_
    · intro n hn hgood
      cases hn
      cases hgood
    · have hrest (off : Nat) : Carries src (ip' + 1) (farOrEnd src cap off t' ⟨ip' + 2, s.out⟩)
          (farOrEnd src' cap off t' ⟨ip' + 2, s.out⟩) := farOrEnd_carries hx rfl
      refine Carries.word hx ?_ fun word => (hrest _).mono (by omega)
      exact fun word n hn hgood => (hrest _ n hn hgood).1
  · refine Carries.read hx ?_ fun byte => ?_
    · intro byte n hn hgood
      have := (blockCopy_carries hx (Nat.le_refl (s.ip + 1)) n hn hgood).1
      omega
    · exact blockCopy_carries hx (Nat.le_succ _)

theorem readBytes_eq {n : Nat} (hx : Extends src src') (hn : ip + n ≤ src.len) :
    readBytes src'.bytes ip n = readBytes src.bytes ip n :=
  readBytes_congr fun i hi => hx.bytes_eq _ (by omega)

theorem matchNext_carries (hb : Bounds src cap) (hx : Extends src src') (hpos : 1 ≤ t)
    (hthree : t ≤ 3) (hip : s.ip ≤ src.len + 2) (hout : s.out.length ≤ cap) :
    Carries src s.ip (matchNext src cap t s) (matchNext src' cap t s) := by
  have hlen := hx.len_lt
  have hlimit := hb.limit_le
  have hlimit' := hx.limit_le
  unfold matchNext
  by_cases hop : haveOp cap t s = true
  · rw [if_pos hop, if_pos hop]
    exact Carries.bad (by decide)
  rw [if_neg hop, if_neg hop]
  have hroom := (haveOp_eq_false_iff hb.cap_lt hout (by omega)).mp
    (Bool.eq_false_of_not_eq_true hop)
  by_cases hend : haveIp src (t + 1) s.ip = true
  · rw [if_pos hend]
    exact Carries.bad (by decide)
  rw [if_neg hend]
  have hcount : min (max t 1) 3 = t := by omega
  rw [hcount, copyBytes_eq (by omega) hroom, ok_bind]
  by_cases hin : s.ip + t + 1 < src.len
  · have hend' : haveIp src' (t + 1) s.ip = false :=
      (haveIp_eq_false_iff hx.small (by omega) (by omega)).mpr (by omega)
    rw [hend', if_neg Bool.false_ne_true, copyBytes_eq (by omega) hroom, readBytes_eq hx (by omega),
      ok_bind]
    refine Carries.read hx (fun _ _ _ _ => (by omega : s.ip + t < src.len)) fun byte => ?_
    dsimp only
    rw [if_pos hin, if_pos (by omega)]
    exact Carries.goto (by change s.ip ≤ s.ip + t + 1; omega)
  · intro n hn hgood
    obtain ⟨byte, -, hrest⟩ := except_bind_ok_iff.mp hn
    dsimp only at hrest
    rw [if_neg hin] at hrest
    obtain rfl := Except.ok.inj hrest
    exact absurd hgood hin

theorem firstLiteralRun_carries (hx : Extends src src') (hip : s.ip < src.len) :
    Carries src s.ip (firstLiteralRun src cap s) (firstLiteralRun src' cap s) := by
  refine Carries.read hx (fun _ _ _ _ => hip) fun byte => ?_
  dsimp only
  by_cases hcode : 16 ≤ byte.toNat
  · rw [if_pos hcode, if_pos hcode]
    exact Carries.goto (Nat.le_succ _)
  · rw [if_neg hcode, if_neg hcode]
    have hcopy (off : Nat) := @blockCopy_carries src src' cap ⟨s.ip + 1 + 1, s.out⟩ _ off 3 hx
      (Nat.le_refl (s.ip + 1 + 1))
    refine Carries.read hx ?_ fun byte => (hcopy _).mono (by omega)
    intro byte n hn hgood
    have := (hcopy _ n hn hgood).1
    omega

theorem literalRun_carries (hb : Bounds src cap) (hx : Extends src src') (hpos : 0 < t)
    (hlt : t + 4 < 2 ^ 32) (hle : ip ≤ s.ip) (hip : s.ip ≤ src.len) (hout : s.out.length ≤ cap) :
    Carries src ip (literalRun src cap t s) (literalRun src' cap t s) := by
  have hlen := hx.len_lt
  have hsmall := hx.small
  have hlimit := hb.limit_le
  by_cases hop : haveOp cap (t + 3) s = true
  · rw [literalRun, if_pos hop]
    exact Carries.bad (by decide)
  by_cases hend : haveIp src (t + 4) s.ip = true
  · rw [literalRun, if_neg hop, if_pos hend]
    exact Carries.bad (by decide)
  have hroom := (haveOp_eq_false_iff hb.cap_lt hout (by omega)).mp
    (Bool.eq_false_of_not_eq_true hop)
  have hmore := (haveIp_eq_false_iff (by omega) hip hlt).mp (Bool.eq_false_of_not_eq_true hend)
  have hcount : (readBytes src.bytes s.ip (t + 3)).length = t + 3 := length_readBytes _ _ _
  -- the same literals in both inputs
  have hrun (u : Source) (hs : Sizes u cap) (hu : src.len ≤ u.len)
      (hbytes : readBytes u.bytes s.ip (t + 3) = readBytes src.bytes s.ip (t + 3)) :
      literalRun u cap t s = .ok (.goto .firstLiteralRun
        ⟨s.ip + (t + 3), s.out ++ readBytes src.bytes s.ip (t + 3)⟩) := by
    have h := @literalRun_eq u cap s.ip s.out (readBytes src.bytes s.ip (t + 3)) hs (by omega)
      (by rwa [BytesAt, hcount]) (by omega) (by omega)
    rwa [hcount, Nat.add_sub_cancel] at h
  rw [hrun src ⟨by omega, by omega, hb.cap_lt⟩ (Nat.le_refl _) rfl,
    hrun src' ⟨hsmall, hx.limit_le, hb.cap_lt⟩ hlen.le (readBytes_eq hx (by omega))]
  exact Carries.goto (by change ip ≤ s.ip + (t + 3); omega)

theorem top_carries (hb : Bounds src cap) (hx : Extends src src') (hout : s.out.length ≤ cap) :
    Carries src s.ip (top src cap s) (top src' cap s) := by
  have hlen := hx.len_lt
  unfold top
  by_cases hip : s.ip < src.len
  · rw [if_pos hip, if_pos (by omega)]
    refine Carries.read hx (fun _ _ _ _ => hip) fun byte => ?_
    dsimp only
    have hbyte := byte.toNat_lt
    by_cases hcode : 16 ≤ byte.toNat
    · rw [if_pos hcode, if_pos hcode]
      exact Carries.goto (Nat.le_succ _)
    · rw [if_neg hcode, if_neg hcode]
      refine (Carries.extend hx hip ?_ fun t' ip' hext hle hle' => ?_).mono (Nat.le_succ _)
      · intro n hn hgood
        cases hn
        cases hgood
      · obtain ⟨r, hr, hspec⟩ := extend_bound hb hip (by omega : byte.toNat < 32) (by omega : 15 ≤ 31)
        have hbound := hspec t' ip' (Except.ok.inj (hr.symm.trans hext))
        have hsmall := hb.len_le
        exact literalRun_carries hb hx hbound.1 (by omega) hle hle' hout
  · rw [if_neg hip]
    exact Carries.bad (by decide)

theorem step_carries {l : Label} (hb : Bounds src cap) (hx : Extends src src')
    (hin : InInput src l s.ip) (hout : s.out.length ≤ cap) :
    Carries src s.ip (step src cap l s) (step src' cap l s) := by
  cases l with
  | top => exact top_carries hb hx hout
  | firstLiteralRun => exact firstLiteralRun_carries hx hin
  | matched t => exact matched_carries hx hin.1
  | matchNext t => exact matchNext_carries hb hx hin.1 hin.2.1 hin.2.2 hout

end Steps

/-! ## Runs -/

theorem run_carries {fuel : Nat} {l : Label} {out : List UInt8} (hb : Bounds src cap)
    (hx : Extends src src') (hin : InInput src l s.ip) (hout : s.out.length ≤ cap)
    (h : run src cap fuel (.goto l s) = .ok (.ok, out)) :
    s.ip < src.len ∧ run src' cap fuel (.goto l s) = .ok (.inputNotConsumed, out) := by
  induction fuel generalizing l s with
  | zero => cases h
  | succ fuel ih =>
      rw [run] at h ⊢
      obtain ⟨n, hstep, hrest⟩ := except_bind_ok_iff.mp h
      obtain ⟨n', hstep', hnext⟩ := step_follows hb hin hout
      obtain rfl := Except.ok.inj (hstep.symm.trans hstep')
      have hcarries := step_carries hb hx hin hout n hstep
      cases n with
      | goto l' s' =>
          obtain ⟨hlt, hrun⟩ := ih hnext.2.1 hnext.1 hrest
          obtain ⟨hip, hstep'⟩ := hcarries hlt
          rw [hstep', ok_bind]
          exact ⟨hip, hrun⟩
      | done c s' =>
          rw [run] at hrest
          obtain ⟨rfl, rfl⟩ := Prod.mk.inj (Except.ok.inj hrest)
          obtain ⟨hip, hstep'⟩ := hcarries rfl
          rw [hstep', ok_bind]
          exact ⟨hip, by rw [lift, run]⟩

theorem run_more {fuel fuel' : Nat} {n : Next} {r : Code × List UInt8} (hle : fuel ≤ fuel')
    (h : run src cap fuel n = .ok r) : run src cap fuel' n = .ok r := by
  induction fuel generalizing n fuel' with
  | zero =>
      cases n with
      | done c s => rwa [run] at h ⊢
      | goto l s => cases h
  | succ fuel ih =>
      cases n with
      | done c s => rwa [run] at h ⊢
      | goto l s =>
          obtain ⟨fuel', rfl⟩ : ∃ f, fuel' = f + 1 := ⟨fuel' - 1, by omega⟩
          rw [run] at h ⊢
          obtain ⟨n, hstep, hrest⟩ := except_bind_ok_iff.mp h
          rw [hstep, ok_bind]
          exact ih (Nat.le_of_succ_le_succ hle) hrest

theorem begin_carries (hb : Bounds src cap) (hx : Extends src src') :
    Carries src 0 (begin src cap) (begin src' cap) := by
  have hlen := hx.len_lt
  have hpos := hb.len_pos
  have hlimit := hb.limit_le
  have hlimit' := hx.limit_le
  refine Carries.read hx (fun _ _ _ _ => hpos) fun byte => ?_
  have hbyte := byte.toNat_lt
  by_cases hrun : 17 < byte.toNat
  · rw [if_pos hrun, if_pos hrun]
    dsimp only
    by_cases hthree : byte.toNat - 17 < 4
    · rw [if_pos hthree, if_pos hthree]
      exact Carries.goto (Nat.zero_le _)
    rw [if_neg hthree, if_neg hthree]
    by_cases hop : haveOp cap (byte.toNat - 17) ⟨1, []⟩ = true
    · rw [if_pos hop]
      exact Carries.bad (by decide)
    by_cases hend : haveIp src (byte.toNat - 17 + 1) 1 = true
    · rw [if_neg hop, if_pos hend]
      exact Carries.bad (by decide)
    have hroom := (haveOp_eq_false_iff hb.cap_lt (Nat.zero_le _) (by omega)).mp
      (Bool.eq_false_of_not_eq_true hop)
    have hmore := (haveIp_eq_false_iff (by have := hx.small; omega) hpos (by omega)).mp
      (Bool.eq_false_of_not_eq_true hend)
    have hend' : haveIp src' (byte.toNat - 17 + 1) 1 = false :=
      (haveIp_eq_false_iff hx.small (by omega) (by omega)).mpr (by omega)
    rw [if_neg hop, if_neg hend, if_neg hop, hend', if_neg Bool.false_ne_true,
      copyBytes_eq (by change 1 + _ ≤ _; omega) hroom,
      copyBytes_eq (by change 1 + _ ≤ _; omega) hroom, readBytes_eq hx (by change 1 + _ ≤ _; omega)]
    exact Carries.goto (Nat.zero_le _)
  · rw [if_neg hrun, if_neg hrun]
    exact Carries.goto (Nat.zero_le _)

/-- An input that goes on behind an accepted one is not accepted, but decompresses to the
same bytes. -/
theorem longer_input_not_consumed {out : List UInt8} (hb : Bounds src cap) (hx : Extends src src')
    (h : lzo1xDecompressSafe src cap = .ok (.ok, out)) :
    lzo1xDecompressSafe src' cap = .ok (.inputNotConsumed, out) := by
  have hlen := hx.len_lt
  obtain ⟨n, hbegin, hrun⟩ := except_bind_ok_iff.mp h
  have hcarries := begin_carries hb hx n hbegin
  cases n with
  | done c s =>
      rw [run] at hrun
      obtain ⟨rfl, rfl⟩ := Prod.mk.inj (Except.ok.inj hrun)
      rw [lzo1xDecompressSafe, (hcarries rfl).2, ok_bind, lift, run]
  | goto l s =>
      have hready : InInput src l s.ip ∧ s.out.length ≤ cap := by
        rcases begin_follows hb with ⟨c, hdone⟩ | ⟨l', s', hgoto, hready⟩
        · cases hbegin.symm.trans hdone
        · cases hbegin.symm.trans hgoto
          exact hready
      obtain ⟨hip, hrun'⟩ := run_carries hb hx hready.1 hready.2 hrun
      rw [lzo1xDecompressSafe, (hcarries hip).2, ok_bind]
      exact run_more (by omega) hrun'

/-- One literal and the end mark, with `more` bytes behind them in the input. -/
def oneLiteral (more : Nat) : Source :=
  ⟨fun i => [18, 65, 17, 0, 0].getD i 7, 5 + more, 11 + more⟩

theorem longer_input_not_consumed_oneLiteral :
    lzo1xDecompressSafe (oneLiteral 2) 16 = .ok (.inputNotConsumed, [65]) :=
  @longer_input_not_consumed (oneLiteral 0) _ _ _ ⟨by decide, by decide, by decide, by decide⟩
    ⟨fun _ _ => rfl, by decide, by decide, by decide⟩ rfl

end Snitchaser.Lzo.Truncation
