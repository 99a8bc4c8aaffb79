import Snitchaser.Lib.Numeral
import Snitchaser.Lib.Program
/-!
# `sscanf`

`vsscanf` of `vsprintf.c` with every conversion it knows.  A string is the memory
from its first byte on, and its NUL is one of the bytes.  What is written through
the arguments is returned as a list, in the order of the arguments.
-/

namespace Snitchaser.Proc.Vsscanf

open Snitchaser.Lib.Numeral
open Snitchaser.Lib.Program

/-! ## Characters -/

def ch (c : Char) : UInt8 := UInt8.ofNat c.toNat

abbrev Str := List UInt8

def peek (s : Str) : UInt8 := s.headD 0

def isspace (c : UInt8) : Bool := (9 ≤ c && c ≤ 13) || c == 32 || c == 160

def isdigit (c : UInt8) : Bool := ch '0' ≤ c && c ≤ ch '9'

def isxdigit (c : UInt8) : Bool :=
  isdigit c || (ch 'A' ≤ c && c ≤ ch 'F') || (ch 'a' ≤ c && c ≤ ch 'f')

def tolower (c : UInt8) : UInt8 := c ||| 0x20

/-- A decidable property of all bytes can be checked byte by byte. -/
theorem forall_byte {p : UInt8 → Prop} (h : ∀ n < 256, p (UInt8.ofNat n)) (c : UInt8) : p c := by
  have hc := h c.toNat c.toNat_lt
  rwa [UInt8.ofNat_toNat] at hc

theorem isspace_of_isxdigit {c : UInt8} (h : isxdigit c = true) : isspace c = false := by
  revert h
  apply forall_byte (p := fun c => isxdigit c = true → isspace c = false)
  decide +kernel

theorem ne_zero_of_isxdigit {c : UInt8} (h : isxdigit c = true) : c ≠ 0 := by
  rintro rfl
  cases h

theorem tolower_of_isxdigit {c : UInt8} (h : isxdigit c = true) : tolower c ≠ ch 'x' := by
  revert h
  apply forall_byte (p := fun c => isxdigit c = true → tolower c ≠ ch 'x')
  decide +kernel

@[simp] theorem peek_nil : peek [] = 0 := rfl

@[simp] theorem peek_cons (c : UInt8) (s : Str) : peek (c :: s) = c := rfl

theorem peek_append {word rest : Str} (hne : word ≠ []) :
    peek (word ++ rest) = word.head hne := by
  cases word with
  | nil => exact absurd rfl hne
  | cons c word => rfl

def skipSpaces (s : Str) : Str := s.dropWhile isspace

/-- `while (!isspace(*str) && *str) str++`. -/
def skipWord (s : Str) : Str := s.dropWhile fun c => !isspace c && c != 0

theorem skipSpaces_of_peek {s : Str} (h : isspace (peek s) = false) : skipSpaces s = s := by
  cases s with
  | nil => rfl
  | cons c s => exact List.dropWhile_cons_of_neg (Bool.not_eq_true _ ▸ h)

theorem skipSpaces_cons {c : UInt8} {s : Str} (h : isspace c = true) :
    skipSpaces (c :: s) = skipSpaces s := List.dropWhile_cons_of_pos h

theorem skipSpaces_blank {word rest : Str} (hne : word ≠ [])
    (hword : ∀ c ∈ word, isspace c = false ∧ c ≠ 0) :
    skipSpaces (32 :: (word ++ rest)) = word ++ rest := by
  rw [skipSpaces_cons rfl]
  apply skipSpaces_of_peek
  rw [peek_append hne]
  exact (hword _ (List.head_mem hne)).1

theorem isspace_peek_skipSpaces (s : Str) : isspace (peek (skipSpaces s)) = false := by
  induction s with
  | nil => rfl
  | cons c s ih =>
      cases hc : isspace c with
      | false =>
          have hs : isspace (peek (c :: s)) = false := hc
          rwa [skipSpaces_of_peek hs]
      | true => rwa [skipSpaces_cons hc]

theorem skipWord_of_peek {s : Str} (h : isspace (peek s) = true ∨ peek s = 0) :
    skipWord s = s := by
  cases s with
  | nil => rfl
  | cons c s =>
      apply List.dropWhile_cons_of_neg
      rcases h with h | h
      · simp [show isspace c = true from h]
      · simp [show c = 0 from h]

theorem skipWord_cons {c : UInt8} {s : Str} (hspace : isspace c = false) (hzero : c ≠ 0) :
    skipWord (c :: s) = skipWord s := by
  simp [skipWord, hspace, hzero]

theorem skipWord_append {word rest : Str} (hword : ∀ c ∈ word, isspace c = false ∧ c ≠ 0)
    (hrest : isspace (peek rest) = true ∨ peek rest = 0) : skipWord (word ++ rest) = rest := by
  induction word with
  | nil => exact skipWord_of_peek hrest
  | cons c word ih =>
      obtain ⟨hspace, hzero⟩ := hword c List.mem_cons_self
      rw [List.cons_append, skipWord_cons hspace hzero]
      exact ih fun x hx => hword x (List.mem_cons_of_mem c hx)

/-! ## Numbers -/

def simpleGuessBase (cp : Str) : Nat :=
  if peek cp = ch '0' then
    if tolower (peek cp.tail) = ch 'x' ∧ isxdigit (peek cp.tail.tail) then 16 else 8
  else
    10

def digitValue (c : UInt8) : Nat :=
  if isdigit c then c.toNat - (ch '0').toNat else (tolower c).toNat - (ch 'a').toNat + 10

def strtoullLoop (base : Nat) : Nat → Str → Nat × Str
  | result, [] => (result, [])
  | result, c :: cp =>
      if isxdigit c then
        if digitValue c ≥ base then (result, c :: cp)
        else strtoullLoop base ((result * base + digitValue c) % 2 ^ 64) cp
      else
        (result, c :: cp)

theorem digitValue_lt {c : UInt8} (h : isxdigit c = true) : digitValue c < 16 := by
  revert h
  apply forall_byte (p := fun c => isxdigit c = true → digitValue c < 16)
  decide +kernel

/-- The number hexadecimal digits stand for. -/
def hexValue (digits : Str) : Nat := valueFrom 16 0 (digits.map digitValue)

/-- The loop reads hexadecimal digits up to the first other character. -/
theorem strtoullLoop_append {digits rest : Str} (hdigits : ∀ c ∈ digits, isxdigit c = true)
    (hrest : isxdigit (peek rest) = false) (acc : Nat) :
    strtoullLoop 16 (acc % 2 ^ 64) (digits ++ rest) =
      (valueFrom 16 acc (digits.map digitValue) % 2 ^ 64, rest) := by
  induction digits generalizing acc with
  | nil =>
      cases rest with
      | nil => rfl
      | cons c rest => simp [strtoullLoop, show isxdigit c = false from hrest, valueFrom]
  | cons c digits ih =>
      have hc := hdigits c List.mem_cons_self
      have hlt : ¬ digitValue c ≥ 16 := Nat.not_le.mpr (digitValue_lt hc)
      have hmod : (acc % 2 ^ 64 * 16 + digitValue c) % 2 ^ 64 =
          (acc * 16 + digitValue c) % 2 ^ 64 := by omega
      rw [List.cons_append, strtoullLoop, if_pos hc, if_neg hlt, hmod]
      exact ih (fun x hx => hdigits x (List.mem_cons_of_mem c hx)) _

/-- The value and `*endp`. -/
def simpleStrtoull (cp : Str) (base : Nat) : Nat × Str :=
  let base := if base = 0 then simpleGuessBase cp else base
  let cp := if base = 16 ∧ peek cp = ch '0' ∧ tolower (peek cp.tail) = ch 'x' then cp.drop 2
    else cp
  strtoullLoop base 0 cp

theorem simpleStrtoull_append {digits rest : Str} (hdigits : ∀ c ∈ digits, isxdigit c = true)
    (hrest : isxdigit (peek rest) = false) (hx : tolower (peek rest) ≠ ch 'x') :
    simpleStrtoull (digits ++ rest) 16 = (hexValue digits % 2 ^ 64, rest) := by
  -- A leading "0x" is skipped, but no digit is an "x".
  have hplain : ¬ (peek (digits ++ rest) = ch '0' ∧
      tolower (peek (digits ++ rest).tail) = ch 'x') := by
    rintro ⟨hzero, hletter⟩
    cases digits with
    | nil =>
        rw [List.nil_append] at hzero
        rw [hzero] at hrest
        cases hrest
    | cons c digits =>
        cases digits with
        | nil => exact hx hletter
        | cons d digits => exact tolower_of_isxdigit (hdigits d (by simp)) hletter
  simp only [simpleStrtoull, if_neg (show ¬ 16 = 0 by decide), true_and, if_neg hplain]
  exact strtoullLoop_append hdigits hrest 0

def simpleStrtoul (cp : Str) (base : Nat) : Nat × Str :=
  let r := simpleStrtoull cp base
  (r.1 % 2 ^ 32, r.2)

def simpleStrtol (cp : Str) (base : Nat) : Nat × Str :=
  if peek cp = ch '-' then
    let r := simpleStrtoul cp.tail base
    ((2 ^ 32 - r.1) % 2 ^ 32, r.2)
  else
    simpleStrtoul cp base

def simpleStrtoll (cp : Str) (base : Nat) : Nat × Str :=
  if peek cp = ch '-' then
    let r := simpleStrtoull cp.tail base
    ((2 ^ 64 - r.1) % 2 ^ 64, r.2)
  else
    simpleStrtoull cp base

def atoiLoop : Nat → Str → Nat × Str
  | i, [] => (i, [])
  | i, c :: s => if isdigit c then atoiLoop (i * 10 + (c.toNat - (ch '0').toNat)) s
      else (i, c :: s)

def skipAtoi (s : Str) : Nat × Str := atoiLoop 0 s

/-! ## Conversions -/

/-- What is stored through one argument: the bits of a number, some characters, or
the number of characters read so far. -/
inductive Store where
  | int (value : Nat)
  | chars (bytes : List UInt8)
  | count (n : Nat)
  deriving DecidableEq, Repr

/-- The conversion qualifier: none, `hh`, `h`, `l`, `ll` or `L`, `z` or `Z`. -/
inductive Qualifier where
  | int | char | short | long | longLong | size
  deriving DecidableEq, Repr

def takeQualifier (fmt : Str) : Qualifier × Str :=
  if peek fmt = ch 'h' then
    if peek fmt.tail = ch 'h' then (.char, fmt.tail.tail) else (.short, fmt.tail)
  else if peek fmt = ch 'l' then
    if peek fmt.tail = ch 'l' then (.longLong, fmt.tail.tail) else (.long, fmt.tail)
  else if peek fmt = ch 'L' then
    (.longLong, fmt.tail)
  else if tolower (peek fmt) = ch 'z' then
    (.size, fmt.tail)
  else
    (.int, fmt)

/-- The number stored and where the scan goes on. -/
def convertInt (qualifier : Qualifier) (isSign : Bool) (str : Str) (base : Nat) : Nat × Str :=
  let long := if isSign then simpleStrtol str base else simpleStrtoul str base
  match qualifier with
  | .char => (long.1 % 2 ^ 8, long.2)
  | .short => (long.1 % 2 ^ 16, long.2)
  | .long => long
  | .longLong => if isSign then simpleStrtoll str base else simpleStrtoull str base
  | .size => simpleStrtoul str base
  | .int => long

structure Scan where
  fmt : Str
  str : Str
  num : Nat
  stored : List Store
  deriving DecidableEq, Repr

/-- How the body of the loop ends: `continue`, `break` or `return`. -/
inductive Next where
  | again (s : Scan)
  | leave (s : Scan)
  | done (s : Scan)
  deriving DecidableEq, Repr

/-- `field_width` is an `s16`. -/
def fieldWidth (n : Nat) : Int := Int.bmod n (2 ^ 16)

def scanInt (qualifier : Qualifier) (base : Nat) (isSign : Bool) (s : Scan) : Next :=
  let str := skipSpaces s.str
  let digit := if isSign ∧ peek str = ch '-' then peek str.tail else peek str
  if digit = 0 ∨ (base = 16 ∧ !isxdigit digit) ∨ (base = 10 ∧ !isdigit digit) ∨
      (base = 8 ∧ (!isdigit digit ∨ ch '7' < digit)) ∨ (base = 0 ∧ !isdigit digit) then
    .leave { s with str := str }
  else
    let r := convertInt qualifier isSign str base
    .again { s with str := r.2, num := s.num + 1, stored := s.stored ++ [.int r.1] }

/-- `case 'c'`: at least one character is copied. -/
def scanChars (width : Int) (s : Scan) : Next :=
  let width := if width = -1 then 1 else width
  let copied := (s.str.takeWhile (· != 0)).take (max 1 width.toNat)
  .again { s with
    str := s.str.drop copied.length, num := s.num + 1, stored := s.stored ++ [.chars copied] }

/-- `case 's'`: the width counts down through all 16-bit values. -/
def scanString (width : Int) (s : Scan) : Next :=
  let width := if width = -1 then 2 ^ 15 - 1 else width
  let str := skipSpaces s.str
  let copied := (str.takeWhile fun c => c != 0 && !isspace c).take (width % 2 ^ 16).toNat
  .again { s with
    str := str.drop copied.length, num := s.num + 1, stored := s.stored ++ [.chars (copied ++ [0])] }

section Vsscanf

variable (buf : Str)

/-- `str - buf`. -/
def offsetOf (str : Str) : Nat := buf.length - str.length

def convert (width : Int) (qualifier : Qualifier) (spec : UInt8) (s : Scan) : Next :=
  if spec = ch 'c' then scanChars width s
  else if spec = ch 's' then scanString width s
  else if spec = ch 'n' then .again { s with stored := s.stored ++ [.count (offsetOf buf s.str)] }
  else if spec = ch 'o' then scanInt qualifier 8 false s
  else if spec = ch 'x' ∨ spec = ch 'X' then scanInt qualifier 16 false s
  else if spec = ch 'i' then scanInt qualifier 0 true s
  else if spec = ch 'd' then scanInt qualifier 10 true s
  else if spec = ch 'u' then scanInt qualifier 10 false s
  else if spec = ch '%' ∧ peek s.str = ch '%' then .again { s with str := s.str.tail }
  else .done s

/-- What follows a `%`. -/
def directive (s : Scan) : Next :=
  if peek s.fmt = ch '*' then
    .again { s with
      fmt := s.fmt.dropWhile fun c => !isspace c && c != ch '%' && c != 0
      str := skipWord s.str }
  else
    let w := if isdigit (peek s.fmt) then (fieldWidth (skipAtoi s.fmt).1, (skipAtoi s.fmt).2)
      else (-1, s.fmt)
    let q := takeQualifier w.2
    if peek q.2 = 0 ∨ peek s.str = 0 then .leave { s with fmt := q.2 }
    else convert buf w.1 q.1 (peek q.2) { s with fmt := q.2.tail }

/-- White space in the format matches any amount of white space, also none. -/
def skipFmtSpaces (s : Scan) : Scan :=
  if isspace (peek s.fmt) then
    { s with fmt := skipSpaces s.fmt.tail, str := skipSpaces s.str }
  else
    s

/-- What the loop does after it has skipped white space. -/
def scanItem (s : Scan) : Next :=
  if peek s.fmt ≠ ch '%' ∧ peek s.fmt ≠ 0 then
    let s' := { s with fmt := s.fmt.tail, str := s.str.tail }
    if peek s.fmt ≠ peek s.str then .leave s' else .again s'
  else if peek s.fmt = 0 then
    .leave s
  else
    directive buf { s with fmt := s.fmt.tail }

/-- After the loop: a `%n` at the current position still gets its count.  The result
is the number of conversions and what they stored. -/
def finish (s : Scan) : Nat × List Store :=
  if peek s.fmt = ch '%' ∧ peek s.fmt.tail = ch 'n' then
    (s.num, s.stored ++ [.count (offsetOf buf s.str)])
  else
    (s.num, s.stored)

def vsscanfLoop : Nat → Scan → Except Stop (Nat × List Store)
  | 0, _ => .error .fuel
  | fuel + 1, s =>
      if peek s.fmt ≠ 0 ∧ peek s.str ≠ 0 then
        match scanItem buf (skipFmtSpaces s) with
        | .again t => vsscanfLoop fuel t
        | .leave t => .ok (finish buf t)
        | .done t => .ok (t.num, t.stored)
      else
        .ok (finish buf s)

/-- Each turn of the loop uses up some of the format. -/
def vsscanf (fmt : Str) : Except Stop (Nat × List Store) :=
  vsscanfLoop buf (fmt.length + 1) ⟨fmt, buf, 0, []⟩

end Vsscanf

end Snitchaser.Proc.Vsscanf
