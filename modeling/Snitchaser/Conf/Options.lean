import Snitchaser.Conf.Model
import Snitchaser.Lib.Numeral
/-!
# What the environment decides

Each option is decided by the last entry `KEY=value` for its key, so entries of
different keys may change places.  Numerals are read up to the first character that is
no digit: a minus sign is not a digit, and a negative numeral is read as 0.
-/

namespace Snitchaser.Conf.Options

open Snitchaser.Conf.Model
open Snitchaser.Lib.Numeral

/-! ## Entries -/

def equals : UInt8 := 61

/-- The key of an entry, up to its first `=`. -/
def keyOf (entry : CString) : List UInt8 := entry.chars.takeWhile (· ≠ equals)

/-- The value of an entry that begins with `key=`. -/
def valueOf (key : List UInt8) (entry : CString) : Option (List UInt8) :=
  if entry.chars.take (key.length + 1) = key ++ [equals] then
    some (entry.chars.drop (key.length + 1))
  else
    none

/-- The values given to a key, in order. -/
def values (key : List UInt8) (envs : List CString) : List (List UInt8) :=
  envs.filterMap (valueOf key)

def lastValue (key : List UInt8) (envs : List CString) : Option (List UInt8) :=
  (values key envs).getLast?

theorem strncmp_eq_take {a b : List UInt8} (ha : 0 ∉ a) :
    strncmp a b a.length = true ↔ b.take a.length = a := by
  induction a generalizing b with
  | nil => simp [strncmp]
  | cons x a ih =>
      cases b with
      | nil => simp [strncmp]
      | cons y b =>
          have hx : x ≠ 0 := fun h => ha (by simp [h])
          have hrest : 0 ∉ a := fun h => ha (List.mem_cons_of_mem _ h)
          rw [List.length_cons, List.take_succ_cons, List.cons.injEq, ← ih hrest]
          simp only [strncmp, Bool.and_eq_true, beq_iff_eq, Bool.or_eq_true, hx, false_or]
          exact and_congr_left' eq_comm

/-- No part of a string that ends before the terminator has it. -/
theorem take_memory_eq_iff {a : List UInt8} {entry : CString} (ha : 0 ∉ a) :
    entry.memory.take a.length = a ↔ entry.chars.take a.length = a := by
  rw [CString.memory]
  by_cases hle : a.length ≤ entry.chars.length
  · rw [List.take_append_of_le_length hle]
  · apply iff_of_false
    · intro h
      rw [List.take_of_length_le (by rw [List.length_append, List.length_singleton]; omega)] at h
      exact ha (h ▸ List.mem_append_right _ (List.mem_singleton.mpr rfl))
    · intro h
      have hlen := congrArg List.length h
      rw [List.length_take] at hlen
      omega

/-- The code's test of the key, on a string and its terminator. -/
theorem cmpGet_eq {key : List UInt8} (hkey : 0 ∉ key) (entry : CString) :
    cmpGet key entry.memory = (valueOf key entry).map (· ++ [0]) := by
  have hnul : 0 ∉ key ++ bytes "=" := by simpa [bytes] using hkey
  have hlen : (key ++ bytes "=").length = key.length + 1 := by simp [bytes]
  have hiff : strncmp (key ++ bytes "=") entry.memory (key.length + 1) = true ↔
      entry.chars.take (key.length + 1) = key ++ [equals] := by
    rw [← hlen, strncmp_eq_take hnul]
    exact take_memory_eq_iff hnul
  rw [cmpGet, valueOf]
  by_cases h : entry.chars.take (key.length + 1) = key ++ [equals]
  · have hle : key.length + 1 ≤ entry.chars.length := by
      have hcount := congrArg List.length h
      rw [List.length_take] at hcount
      simp at hcount
      omega
    rw [if_pos (hiff.mpr h), if_pos h, CString.memory, List.drop_append_of_le_length hle]
    rfl
  · rw [if_neg (fun hyes => h (hiff.mp hyes)), if_neg h]
    rfl

/-- The key of an entry that begins with `key=` is `key`. -/
theorem keyOf_of_valueOf {key v : List UInt8} {entry : CString} (hkey : equals ∉ key)
    (h : valueOf key entry = some v) : keyOf entry = key := by
  rw [valueOf] at h
  split at h
  case isTrue htake =>
    have hsplit : entry.chars = key ++ (equals :: entry.chars.drop (key.length + 1)) := by
      conv_lhs => rw [← List.take_append_drop (key.length + 1) entry.chars, htake]
      rw [List.append_assoc, List.singleton_append]
    have hall : ∀ c ∈ key, decide (c ≠ equals) = true := by
      intro c hc
      exact decide_eq_true fun heq => hkey (heq ▸ hc)
    rw [keyOf, hsplit, List.takeWhile_append_of_pos hall, List.takeWhile_cons_of_neg (by simp),
      List.append_nil]
  case isFalse => cases h

/-! ## The last entry decides -/

/-- What a step sets when it reads something and leaves alone otherwise is, after all
steps, the last thing read. -/
theorem get_foldl {κ ε α : Type} {get : κ → α} {step : ε → κ → κ} {read : ε → Option α}
    (h : ∀ e c, get (step e c) = (read e).getD (get c)) (es : List ε) (c : κ) :
    get (es.foldl (fun c e => step e c) c) = ((es.filterMap read).getLast?).getD (get c) := by
  induction es using List.reverseRecOn with
  | nil => rfl
  | append_singleton es e ih =>
      rw [List.foldl_append, List.foldl_cons, List.foldl_nil, h, ih, List.filterMap_append]
      cases hread : read e with
      | none => simp [hread]
      | some a => simp [hread]

/-- The value of a boolean option: anything but `0` is true. -/
def boolValue (v : List UInt8) : Bool := v ≠ bytes "0"

def intValue (v : List UInt8) : Int := atoi (some (v ++ [0]))

theorem noNul_key (o : BoolOption) : 0 ∉ o.key := by
  cases o <;> decide

theorem noNul_samplingKey : 0 ∉ samplingKey := by decide

theorem noNul_of_valueOf {key v : List UInt8} {entry : CString} (h : valueOf key entry = some v) :
    0 ∉ v := by
  rw [valueOf] at h
  split at h
  case isTrue =>
    cases h
    exact fun hmem => entry.noNul (List.mem_of_mem_drop hmem)
  case isFalse => cases h

theorem strncmp_zero {v : List UInt8} (hv : 0 ∉ v) :
    strncmp (v ++ [0]) (bytes "0" ++ [0]) 2 = !boolValue v := by
  have hzero : bytes "0" = [48] := by decide
  rw [boolValue, hzero]
  match v with
  | [] => rfl
  | [a] =>
      rw [Bool.eq_iff_iff]
      simp [strncmp]
  | a :: b :: v =>
      have hb : b ≠ 0 := fun h => hv (by simp [h])
      have ha : a ≠ 0 := fun h => hv (by simp [h])
      simp [strncmp, ha, hb]

/-! ## One entry -/

theorem BoolOption.get_put (o o' : BoolOption) (b : Bool) (c : EnvConf) :
    o.get (o'.put b c) = if o = o' then b else o.get c := by
  cases o <;> cases o' <;> rfl

theorem BoolOption.sampling_put (o : BoolOption) (b : Bool) (c : EnvConf) :
    (o.put b c).sampling = c.sampling := by
  cases o <;> rfl

theorem boolConf_eq (o : BoolOption) (entry : CString) (c : EnvConf) :
    boolConf o entry c = match valueOf o.key entry with
      | some v => o.put (boolValue v) c
      | none => c := by
  rw [boolConf, cmpGet_eq (noNul_key o)]
  cases hvalue : valueOf o.key entry with
  | none => rfl
  | some v =>
      simp only [Option.map_some, strncmp_zero (noNul_of_valueOf hvalue)]
      cases boolValue v with
      | true => rfl
      | false => rfl

theorem get_boolConf (o o' : BoolOption) (entry : CString) (c : EnvConf) :
    o.get (boolConf o' entry c) =
      if o = o' then ((valueOf o.key entry).map boolValue).getD (o.get c) else o.get c := by
  rw [boolConf_eq]
  by_cases ho : o = o'
  · subst ho
    cases valueOf o.key entry with
    | none => simp
    | some v => simp [BoolOption.get_put]
  · cases valueOf o'.key entry with
    | none => simp [ho]
    | some v => simp [BoolOption.get_put, ho]

theorem sampling_boolConf (o : BoolOption) (entry : CString) (c : EnvConf) :
    (boolConf o entry c).sampling = c.sampling := by
  rw [boolConf_eq]
  cases valueOf o.key entry with
  | none => rfl
  | some v => exact BoolOption.sampling_put o _ c

theorem get_intConf (o : BoolOption) (entry : CString) (c : EnvConf) :
    o.get (intConf entry c) = o.get c := by
  rw [intConf]
  cases cmpGet samplingKey entry.memory with
  | none => rfl
  | some v => cases o <;> rfl

theorem sampling_intConf (entry : CString) (c : EnvConf) :
    (intConf entry c).sampling =
      ((valueOf samplingKey entry).map intValue).getD c.sampling := by
  rw [intConf, cmpGet_eq noNul_samplingKey]
  cases valueOf samplingKey entry with
  | none => rfl
  | some v => rfl

theorem get_checkVar (o : BoolOption) (entry : CString) (c : EnvConf) :
    o.get (checkVar entry c) = ((valueOf o.key entry).map boolValue).getD (o.get c) := by
  simp only [checkVar, get_intConf, get_boolConf]
  cases o <;> rfl

theorem sampling_checkVar (entry : CString) (c : EnvConf) :
    (checkVar entry c).sampling =
      ((valueOf samplingKey entry).map intValue).getD c.sampling := by
  simp only [checkVar, sampling_intConf, sampling_boolConf]

/-! ## All entries -/

theorem getLast?_filterMap {α : Type} (f : List UInt8 → α) (key : List UInt8)
    (envs : List CString) :
    (envs.filterMap fun e => (valueOf key e).map f).getLast? = (lastValue key envs).map f := by
  rw [← List.map_filterMap, List.getLast?_map, lastValue, values]

theorem get_readEnvConf (o : BoolOption) (envs : List CString) :
    o.get (readEnvConf envs) = ((lastValue o.key envs).map boolValue).getD o.default := by
  rw [readEnvConf, get_foldl (get_checkVar o), getLast?_filterMap]
  cases o <;> rfl

theorem sampling_readEnvConf (envs : List CString) :
    (readEnvConf envs).sampling =
      ((lastValue samplingKey envs).map intValue).getD samplingDefault := by
  rw [readEnvConf, get_foldl sampling_checkVar, getLast?_filterMap]
  rfl

/-! ## Reordering -/

theorem noEquals_key (o : BoolOption) : equals ∉ o.key := by
  cases o <;> decide

theorem noEquals_samplingKey : equals ∉ samplingKey := by decide

/-- The same entries, those of each key in the same order. -/
structure Reordered (envs envs' : List CString) : Prop where
  perm : envs'.Perm envs
  perKey : ∀ key, envs'.filter (keyOf · = key) = envs.filter (keyOf · = key)

theorem values_filter {key : List UInt8} (hkey : equals ∉ key) (envs : List CString) :
    values key (envs.filter (keyOf · = key)) = values key envs := by
  rw [values, values, List.filterMap_filter]
  apply List.filterMap_congr
  intro e _
  cases hvalue : valueOf key e with
  | none => simp
  | some v => simp [keyOf_of_valueOf hkey hvalue]

theorem Reordered.lastValue_eq {envs envs' : List CString} (h : Reordered envs envs')
    {key : List UInt8} (hkey : equals ∉ key) : lastValue key envs' = lastValue key envs := by
  rw [lastValue, lastValue, ← values_filter hkey, h.perKey key, values_filter hkey]

theorem EnvConf.eq_of_get {c c' : EnvConf} (hget : ∀ o : BoolOption, o.get c = o.get c')
    (hsampling : c.sampling = c'.sampling) : c = c' := by
  have h₁ := hget .traceFork
  have h₂ := hget .untraceClone
  have h₃ := hget .useRebranch
  cases c
  cases c'
  simp_all [BoolOption.get]

theorem readEnvConf_reordered {envs envs' : List CString} (h : Reordered envs envs') :
    readEnvConf envs' = readEnvConf envs := by
  apply EnvConf.eq_of_get
  · intro o
    rw [get_readEnvConf, get_readEnvConf, h.lastValue_eq (noEquals_key o)]
  · rw [sampling_readEnvConf, sampling_readEnvConf, h.lastValue_eq noEquals_samplingKey]

/-! ## Numerals -/

def digit (d : Nat) : UInt8 := 48 + UInt8.ofNat d

/-- The decimal numeral of an integer. -/
def decimal (n : Int) : List UInt8 :=
  (if n < 0 then bytes "-" else []) ++ (numeral 10 1 n.natAbs).map digit

theorem digit_isDigit : ∀ d < 10, digit d ≤ 57 ∧ 48 ≤ digit d ∧ (digit d).toNat = 48 + d := by
  decide

theorem wrap_of_lt {x : Int} (hlow : 0 ≤ x) (hhigh : x < 2 ^ 31) : wrap x = x := by
  rw [wrap, Int.bmod_def]
  omega

theorem le_valueFrom (acc : Nat) (ds : List Nat) : acc ≤ valueFrom 10 acc ds := by
  induction ds generalizing acc with
  | nil => exact Nat.le_refl acc
  | cons d ds ih =>
      calc acc ≤ acc * 10 + d := by omega
        _ ≤ valueFrom 10 acc (d :: ds) := ih _

/-- The digits of a number in the range of `int` are read without overflow. -/
theorem atoiFrom_digits {acc : Nat} {ds : List Nat} (hds : ∀ d ∈ ds, d < 10)
    (hrange : valueFrom 10 acc ds < 2 ^ 31) :
    atoiFrom acc (ds.map digit ++ [0]) = valueFrom 10 acc ds := by
  induction ds generalizing acc with
  | nil => rfl
  | cons d ds ih =>
      have hd := digit_isDigit d (hds d List.mem_cons_self)
      have hnext : valueFrom 10 acc (d :: ds) = valueFrom 10 (acc * 10 + d) ds := rfl
      have hle := le_valueFrom (acc * 10 + d) ds
      have hstep : wrap (wrap ((acc : Int) * 10) + ((digit d).toNat - 48)) =
          ((acc * 10 + d : Nat) : Int) := by
        have htimes : wrap ((acc : Int) * 10) = acc * 10 := wrap_of_lt (by omega) (by omega)
        rw [htimes, hd.2.2, wrap_of_lt (by omega) (by omega)]
        push_cast
        omega
      rw [List.map_cons, List.cons_append, atoiFrom, if_pos ⟨hd.1, hd.2.1⟩, hstep, hnext]
      exact ih (fun x hx => hds x (List.mem_cons_of_mem _ hx)) (hnext ▸ hrange)

theorem intValue_decimal {n : Int} (hlow : 0 ≤ n) (hhigh : n < 2 ^ 31) :
    intValue (decimal n) = n := by
  have hdigits : ∀ d ∈ numeral 10 1 n.natAbs, d < 10 := fun d => lt_of_mem_numeral (by decide)
  have hvalue : valueFrom 10 0 (numeral 10 1 n.natAbs) = n.natAbs := valueFrom_numeral
  have hread := atoiFrom_digits hdigits (show valueFrom 10 0 _ < 2 ^ 31 by omega)
  rw [intValue, atoi, decimal, if_neg (by omega), List.nil_append]
  calc atoiFrom 0 ((numeral 10 1 n.natAbs).map digit ++ [0])
      = valueFrom 10 0 (numeral 10 1 n.natAbs) := hread
    _ = n := by omega

/-- A minus sign is no digit. -/
theorem intValue_negative {n : Int} (h : n < 0) : intValue (decimal n) = 0 := by
  rw [intValue, atoi, decimal, if_pos h]
  rfl

/-! ## What the environment should decide -/

/-- The last entry for a key decides: a boolean option is false on `0` and true
otherwise, an integer option is the number whose numeral it is given.  Without an entry
an option keeps its default.  The order of entries of different keys does not matter. -/
structure Configured (envs : List CString) : Prop where
  bool_iff : ∀ (o : BoolOption) v, lastValue o.key envs = some v →
    (o.get (readEnvConf envs) = false ↔ v = bytes "0")
  bool_default : ∀ o : BoolOption, lastValue o.key envs = none →
    o.get (readEnvConf envs) = o.default
  int_eq : ∀ n : Int, -2 ^ 31 ≤ n → n < 2 ^ 31 →
    lastValue samplingKey envs = some (decimal n) → (readEnvConf envs).sampling = n
  int_default : lastValue samplingKey envs = none →
    (readEnvConf envs).sampling = samplingDefault
  reordered : ∀ envs', Reordered envs envs' → readEnvConf envs' = readEnvConf envs

/-- Every environment is read as it should be, except one whose last entry for
`SNITCHASER_SAMPLING` is a negative number. -/
theorem configured_iff (envs : List CString) :
    Configured envs ↔
      ∀ n : Int, -2 ^ 31 ≤ n → n < 0 → lastValue samplingKey envs ≠ some (decimal n) := by
  constructor
  · intro h n hlow hneg hlast
    have hsampling := h.int_eq n hlow (by omega) hlast
    rw [sampling_readEnvConf, hlast, Option.map_some, Option.getD_some,
      intValue_negative hneg] at hsampling
    omega
  · intro h
    refine ⟨?_, ?_, ?_, ?_, fun _ => readEnvConf_reordered⟩
    · intro o v hlast
      rw [get_readEnvConf, hlast, Option.map_some, Option.getD_some, boolValue]
      simp
    · intro o hnone
      rw [get_readEnvConf, hnone]
      rfl
    · intro n hlow hhigh hlast
      have hpos : 0 ≤ n := by
        by_contra hneg
        exact h n hlow (by omega) hlast
      rw [sampling_readEnvConf, hlast, Option.map_some, Option.getD_some,
        intValue_decimal hpos hhigh]
    · intro hnone
      rw [sampling_readEnvConf, hnone]
      rfl

theorem noNul_minusOne : 0 ∉ bytes "SNITCHASER_SAMPLING=-1" := by decide

/-- `SNITCHASER_SAMPLING=-1`. -/
def samplingMinusOne : CString := ⟨bytes "SNITCHASER_SAMPLING=-1", noNul_minusOne⟩

/-- Sampling is set to the value it has by default, which selects every run; the run is
then never selected. -/
theorem negative_sampling_never_selects :
    lastValue samplingKey [samplingMinusOne] = some (decimal (-1)) ∧
    (readEnvConf [samplingMinusOne]).sampling = 0 ∧
    (∀ random, sampling (readEnvConf []) random = .snitchaser) ∧
    ∀ random, sampling (readEnvConf [samplingMinusOne]) random = .unselected := by
  have hzero : readEnvConf [samplingMinusOne] = ⟨false, false, true, 0⟩ := by decide
  refine ⟨by decide, by decide, fun random => rfl, fun random => ?_⟩
  have hnot : ¬ ((0 : Int) < 0 ∨ (random.toNat : Int) % 1000 < 0) := by omega
  rw [hzero, sampling]
  exact if_pos hnot

end Snitchaser.Conf.Options
