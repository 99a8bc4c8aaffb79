import Snitchaser.Defs
import Snitchaser.Lib.ByteMemory
import Snitchaser.Lib.LittleEndian
import Snitchaser.Proc.Vsscanf
/-!
# `vsnprintf`

The formatter of `vsprintf.c`.  A format is the list of its bytes.  The arguments are the
words of the stack that `va_arg` takes one after the other, and the strings they point to
are in `rom`, which the output does not overlap.  `str` is a pointer of 32 bits, and a text
that is long enough takes it around.

What `number`, `string` and `pointer` store is given as the list of characters, in the order
in which they are stored: each of them is stored if there is room and counted in any case.
-/

namespace Snitchaser.Printf.Model

open Snitchaser.Defs (add32 pageSize sub32)
open Snitchaser.Lib.ByteMemory
open Snitchaser.Lib.LittleEndian
open Snitchaser.Lib.Program
open Snitchaser.Proc.Vsscanf (Str ch peek isdigit tolower skipAtoi)

/-! ## Stores into the buffer -/

/-- The memory and `str`. -/
structure Out where
  mem : Memory
  str : Nat

section Store

variable (endp : Nat)

/-- `if (str < end) *str = c; ++str;` -/
def put (o : Out) (c : UInt8) : Out :=
  ⟨if o.str < endp then writeBytes o.mem o.str [c] else o.mem, add32 o.str 1⟩

def putAll (o : Out) (chars : Str) : Out := chars.foldl (put endp) o

/-- `case FORMAT_TYPE_NONE`. -/
def copyText (o : Out) (text : Str) : Out :=
  ⟨if o.str < endp then writeBytes o.mem o.str (text.take (min text.length (endp - o.str)))
    else o.mem, add32 o.str text.length⟩

end Store

/-! ## Decimal digits, the least significant first -/

def digit (d : Nat) : UInt8 := UInt8.ofNat (d + (ch '0').toNat)

def putDecTrunc (q : Nat) : Str :=
  let d1 := (q >>> 4) &&& 0xf
  let d2 := (q >>> 8) &&& 0xf
  let d3 := q >>> 12
  let d0 := 6 * (d3 + d2 + d1) + (q &&& 0xf)
  let q := (d0 * 0xcd) >>> 11
  let d0 := d0 - 10 * q
  let d1 := q + 9 * d3 + 5 * d2 + d1
  digit d0 ::
    if d1 ≠ 0 then
      let q := (d1 * 0xcd) >>> 11
      let d1 := d1 - 10 * q
      let d2 := q + 2 * d2
      digit d1 ::
        if d2 ≠ 0 ∨ d3 ≠ 0 then
          let q := (d2 * 0xd) >>> 7
          let d2 := d2 - 10 * q
          let d3 := q + 4 * d3
          digit d2 ::
            if d3 ≠ 0 then
              let q := (d3 * 0xcd) >>> 11
              let d3 := d3 - 10 * q
              digit d3 :: if q ≠ 0 then [digit q] else []
            else []
        else []
    else []

def putDecFull (q : Nat) : Str :=
  let d1 := (q >>> 4) &&& 0xf
  let d2 := (q >>> 8) &&& 0xf
  let d3 := q >>> 12
  let d0 := 6 * (d3 + d2 + d1) + (q &&& 0xf)
  let q := (d0 * 0xcd) >>> 11
  let d0 := d0 - 10 * q
  let d1 := q + 9 * d3 + 5 * d2 + d1
  let q := (d1 * 0xcd) >>> 11
  let d1 := d1 - 10 * q
  let d2 := q + 2 * d2
  let q := (d2 * 0xd) >>> 7
  let d2 := d2 - 10 * q
  let d3 := q + 4 * d3
  let q := (d3 * 0xcd) >>> 11
  let d3 := d3 - 10 * q
  [digit d0, digit d1, digit d2, digit d3, digit q]

/-- A 64-bit number is below `100000 ^ 4`. -/
def putDecLoop : Nat → Nat → Str
  | 0, num => putDecTrunc num
  | fuel + 1, num =>
      if num < 100000 then putDecTrunc num
      else putDecFull (num % 100000) ++ putDecLoop fuel (num / 100000)

def putDec (num : Nat) : Str := putDecLoop 3 num

/-! ## Specifications -/

inductive FormatType where
  | none | width | precision | char | str | ptr | percentChar | invalid
  | longLong | ulong | long | ubyte | byte | ushort | short | uint | int
  | nrchars | sizeT | ptrdiff
  deriving DecidableEq, Repr

/-- The bits of `flags`. -/
structure Flags where
  zeropad : Bool
  sign : Bool
  plus : Bool
  space : Bool
  left : Bool
  small : Bool
  special : Bool
  deriving DecidableEq, Repr

def noFlags : Flags := ⟨false, false, false, false, false, false, false⟩

structure Spec where
  type : FormatType
  flags : Flags
  base : Nat
  qualifier : UInt8
  fieldWidth : Int
  precision : Int
  deriving DecidableEq, Repr

/-- `field_width` and `precision` are of type `s16`. -/
def s16 (x : Int) : Int := Int.bmod x (2 ^ 16)

/-- `while (--width >= 0)`: how often it runs, and `width` afterwards. -/
def whileGe (width : Int) : Nat × Int :=
  let width := s16 (width - 1)
  if 0 ≤ width then (width.toNat + 1, -1) else (0, width)

/-- `while (--width > 0)`. -/
def whileGt (width : Int) : Nat × Int :=
  let width := s16 (width - 1)
  if 0 < width then (width.toNat, 0) else (0, width)

/-- `while (len < width--)`. -/
def whileLt (len : Nat) (width : Int) : Nat × Int :=
  if len < width then ((width - len).toNat, len - 1) else (0, s16 (width - 1))

/-! ## `number` -/

/-- `digits[..] | locase`. -/
def letter (locase : Bool) (d : Nat) : UInt8 :=
  let c := if d < 10 then ch '0' + UInt8.ofNat d else ch 'A' + UInt8.ofNat (d - 10)
  if locase then c ||| 0x20 else c

/-- The loop for the bases 8 and 16.  A 64-bit number has 22 digits at most. -/
def bitDigits (mask shift : Nat) (locase : Bool) : Nat → Nat → Str
  | 0, _ => []
  | fuel + 1, num =>
      letter locase ((num % 256) &&& mask) ::
        if num >>> shift = 0 then [] else bitDigits mask shift locase fuel (num >>> shift)

/-- `tmp`: the digits in reverse order. -/
def reverseDigits (base : Nat) (locase : Bool) (num : Nat) : Str :=
  if num = 0 then [ch '0']
  else if base ≠ 10 then bitDigits (base - 1) (if base = 16 then 4 else 3) locase 22 num
  else putDec num

/-- The sign, the number without it, and the width that is left. -/
def splitSign (flags : Flags) (num : Nat) (width : Int) : Option UInt8 × Nat × Int :=
  if flags.sign then
    if 2 ^ 63 ≤ num then (some (ch '-'), (2 ^ 64 - num) % 2 ^ 64, s16 (width - 1))
    else if flags.plus then (some (ch '+'), num, s16 (width - 1))
    else if flags.space then (some (ch ' '), num, s16 (width - 1))
    else (none, num, width)
  else (none, num, width)

def needPfx (spec : Spec) : Bool := spec.flags.special && spec.base != 10

def pfxWidth (spec : Spec) (width : Int) : Int :=
  if needPfx spec then
    if spec.base = 16 then s16 (s16 (width - 1) - 1) else s16 (width - 1)
  else width

def pfxChars (spec : Spec) : Str :=
  if needPfx spec then
    if spec.base = 16 then [ch '0', if spec.flags.small then ch 'X' ||| 0x20 else ch 'X']
    else [ch '0']
  else []

def number (num : Nat) (spec : Spec) : Str :=
  let flags := if spec.flags.left then { spec.flags with zeropad := false } else spec.flags
  let split := splitSign flags num spec.fieldWidth
  let tmp := reverseDigits spec.base spec.flags.small split.2.1
  -- printing 100 using %2d gives "100", not "00"
  let precision : Int := if spec.precision < tmp.length then tmp.length else spec.precision
  let width := s16 (pfxWidth spec split.2.2 - precision)
  let lead := if !(flags.zeropad || flags.left) then whileGe width else (0, width)
  let pad := if !flags.left then whileGe lead.2 else (0, lead.2)
  let trail := whileGe pad.2
  List.replicate lead.1 (ch ' ') ++ split.1.toList ++ pfxChars spec ++
    List.replicate pad.1 (if flags.zeropad then ch '0' else ch ' ') ++
    List.replicate (precision - tmp.length).toNat (ch '0') ++ tmp.reverse ++
    List.replicate trail.1 (ch ' ')

/-! ## `string` and `pointer` -/

/-- What the arguments point to.  Every string ends before its length is no `int` any more:
`string` would pad a longer one without end. -/
structure Rom where
  mem : Memory
  ends : ∀ s, ∃ i < 2 ^ 31, mem (s + i) = 0

def strnlen (mem : Memory) (s : Nat) : Nat → Nat
  | 0 => 0
  | count + 1 => if mem s = 0 then 0 else strnlen mem (s + 1) count + 1

/-- `precision` as the second argument of `strnlen`. -/
def maxChars (spec : Spec) : Nat := (spec.precision % 2 ^ 32).toNat

/-- The part of `string` after the length is known. -/
def padString (chars : Str) (spec : Spec) : Str :=
  let lead := if !spec.flags.left then whileLt chars.length spec.fieldWidth
    else (0, spec.fieldWidth)
  let trail := whileLt chars.length lead.2
  List.replicate lead.1 (ch ' ') ++ chars ++ List.replicate trail.1 (ch ' ')

def nullText : Str := [ch '(', ch 'n', ch 'u', ch 'l', ch 'l', ch ')']

def string (rom : Rom) (s : Nat) (spec : Spec) : Str :=
  let chars := if s < pageSize then nullText.take (maxChars spec)
    else readBytes rom.mem s (strnlen rom.mem s (maxChars spec))
  padString chars spec

section Convert

variable (rom : Rom) (describe : Str → Nat → Str) (va : Nat → Nat)

/-- `pointer`: the extensions for symbols, resources, addresses and identifiers make a text
of their own, which is `describe`, and print it as a string. -/
def pointer (fmt : Str) (ptr : Nat) (spec : Spec) : Str :=
  if ptr = 0 then padString (nullText.take (maxChars spec)) spec
  else
    let c := peek fmt
    if c = ch 'F' ∨ c = ch 'f' ∨ c = ch 'S' ∨ c = ch 's' ∨ c = ch 'R' ∨ c = ch 'r' ∨
        c = ch 'M' ∨ c = ch 'm' ∨ c = ch 'U' ∨
        ((c = ch 'I' ∨ c = ch 'i') ∧ (peek fmt.tail = ch '6' ∨ peek fmt.tail = ch '4')) then
      padString ((describe fmt ptr).take (maxChars spec)) spec
    else if spec.fieldWidth = -1 then
      number ptr { spec with
        fieldWidth := 8, base := 16
        flags := { spec.flags with small := true, zeropad := true } }
    else number ptr { spec with base := 16, flags := { spec.flags with small := true } }

/-! ## `format_decode` -/

/-- The flags, and the format behind them. -/
def takeFlags : Flags → Str → Flags × Str
  | flags, [] => (flags, [])
  | flags, c :: fmt =>
      if c = ch '-' then takeFlags { flags with left := true } fmt
      else if c = ch '+' then takeFlags { flags with plus := true } fmt
      else if c = ch ' ' then takeFlags { flags with space := true } fmt
      else if c = ch '#' then takeFlags { flags with special := true } fmt
      else if c = ch '0' then takeFlags { flags with zeropad := true } fmt
      else (flags, c :: fmt)

def takeQualifier (fmt : Str) : UInt8 × Str :=
  let q := peek fmt
  if q = ch 'h' ∨ tolower q = ch 'l' ∨ tolower q = ch 'z' ∨ q = ch 't' then
    if q = peek fmt.tail then
      if q = ch 'l' then (ch 'L', fmt.tail.tail)
      else if q = ch 'h' then (ch 'H', fmt.tail.tail)
      else (q, fmt.tail)
    else (q, fmt.tail)
  else (255, fmt)

/-- The type of an integer conversion. -/
def integerType (qualifier : UInt8) (sign : Bool) : FormatType :=
  if qualifier = ch 'L' then .longLong
  else if qualifier = ch 'l' then if sign then .long else .ulong
  else if tolower qualifier = ch 'z' then .sizeT
  else if qualifier = ch 't' then .ptrdiff
  else if qualifier = ch 'H' then if sign then .byte else .ubyte
  else if qualifier = ch 'h' then if sign then .short else .ushort
  else if sign then .int else .uint

/-- From the label `qualifier` on. -/
def decodeQualifier (spec : Spec) (fmt : Str) : Spec × Str :=
  let q := takeQualifier fmt
  let spec := { spec with qualifier := q.1, base := 10 }
  let c := peek q.2
  let integer (spec : Spec) : Spec × Str :=
    ({ spec with type := integerType spec.qualifier spec.flags.sign }, q.2.tail)
  if c = ch 'c' then ({ spec with type := .char }, q.2.tail)
  else if c = ch 's' then ({ spec with type := .str }, q.2.tail)
  else if c = ch 'p' then ({ spec with type := .ptr }, q.2)
  else if c = ch 'n' then ({ spec with type := .nrchars }, q.2.tail)
  else if c = ch '%' then ({ spec with type := .percentChar }, q.2.tail)
  else if c = ch 'o' then integer { spec with base := 8 }
  else if c = ch 'x' then
    integer { spec with base := 16, flags := { spec.flags with small := true } }
  else if c = ch 'X' then integer { spec with base := 16 }
  else if c = ch 'd' ∨ c = ch 'i' then
    integer { spec with flags := { spec.flags with sign := true } }
  else if c = ch 'u' then integer spec
  else ({ spec with type := .invalid }, q.2)

/-- From the label `precision` on. -/
def decodePrecision (spec : Spec) (fmt : Str) : Spec × Str :=
  let spec := { spec with precision := -1 }
  if peek fmt = ch '.' then
    let fmt := fmt.tail
    if isdigit (peek fmt) then
      decodeQualifier { spec with precision := max (s16 (skipAtoi fmt).1) 0 } (skipAtoi fmt).2
    else if peek fmt = ch '*' then ({ spec with type := .precision }, fmt.tail)
    else decodeQualifier spec fmt
  else decodeQualifier spec fmt

/-- The specification and the format behind what was read. -/
def formatDecode (fmt : Str) (spec : Spec) : Spec × Str :=
  if spec.type = .width then
    let spec := if spec.fieldWidth < 0 then
        { spec with
          fieldWidth := s16 (-spec.fieldWidth), flags := { spec.flags with left := true } }
      else spec
    decodePrecision { spec with type := .none } fmt
  else if spec.type = .precision then
    decodeQualifier { spec with type := .none, precision := max spec.precision 0 } fmt
  else
    let spec := { spec with type := .none }
    let text := fmt.takeWhile fun c => c != 0 && c != ch '%'
    let rest := fmt.drop text.length
    if text ≠ [] ∨ peek rest = 0 then (spec, rest)
    else
      let flags := takeFlags noFlags rest.tail
      let spec := { spec with flags := flags.1, fieldWidth := -1 }
      if isdigit (peek flags.2) then
        decodePrecision { spec with fieldWidth := s16 (skipAtoi flags.2).1 } (skipAtoi flags.2).2
      else if peek flags.2 = ch '*' then ({ spec with type := .width }, flags.2.tail)
      else decodePrecision spec flags.2

/-! ## The loop of `vsnprintf` -/

/-- A number of `bits` bits as a `long long`. -/
def signExtend (bits n : Nat) : Nat :=
  if 2 ^ (bits - 1) ≤ n then n + (2 ^ 64 - 2 ^ bits) else n

def isalnum (c : UInt8) : Bool :=
  isdigit c || (ch 'A' ≤ c && c ≤ ch 'Z') || (ch 'a' ≤ c && c ≤ ch 'z') || (192 ≤ c && c != 215 && c != 247)

/-- Where the loop is: the format, the specification and the number of words taken. -/
structure Cursor where
  fmt : Str
  spec : Spec
  args : Nat

/-- What one round does: store characters, copy a part of the format, or store the number
of characters so far through an argument. -/
inductive Action where
  | chars (text : Str)
  | text (text : Str)
  | count (addr : Nat)
  deriving DecidableEq, Repr

/-- The number that a conversion takes from the arguments, and how many words that is. -/
def takeNumber (type : FormatType) (arg : Nat) : Nat × Nat :=
  match type with
  | .longLong => (va arg % 2 ^ 32 + 2 ^ 32 * (va (arg + 1) % 2 ^ 32), 2)
  | .long | .int | .ptrdiff => (signExtend 32 (va arg % 2 ^ 32), 1)
  | .ubyte => (va arg % 2 ^ 8, 1)
  | .byte => (signExtend 8 (va arg % 2 ^ 8), 1)
  | .ushort => (va arg % 2 ^ 16, 1)
  | .short => (signExtend 16 (va arg % 2 ^ 16), 1)
  | _ => (va arg % 2 ^ 32, 1)

/-- `case FORMAT_TYPE_CHAR`. -/
def charText (c : Nat) (spec : Spec) : Str :=
  let lead := if !spec.flags.left then whileGt spec.fieldWidth else (0, spec.fieldWidth)
  let trail := whileGt lead.2
  List.replicate lead.1 (ch ' ') ++ [UInt8.ofNat c] ++ List.replicate trail.1 (ch ' ')

/-- An argument of type `int` that is stored in a field of type `s16`. -/
def takeS16 (arg : Nat) : Int := s16 (va arg % 2 ^ 32 : Nat)

/-- `switch (spec.type)`, with the format `rest` behind the conversion. -/
def vsnprintfSwitch (c : Cursor) (spec : Spec) (rest : Str) : Action × Cursor :=
  match spec.type with
  | .none => (.text (c.fmt.take (c.fmt.length - rest.length)), ⟨rest, spec, c.args⟩)
  | .width =>
      (.chars [], ⟨rest, { spec with fieldWidth := takeS16 va c.args }, c.args + 1⟩)
  | .precision =>
      (.chars [], ⟨rest, { spec with precision := takeS16 va c.args }, c.args + 1⟩)
  | .char => (.chars (charText (va c.args) spec), ⟨rest, spec, c.args + 1⟩)
  | .str => (.chars (string rom (va c.args % 2 ^ 32) spec), ⟨rest, spec, c.args + 1⟩)
  | .ptr =>
      (.chars (pointer describe rest.tail (va c.args % 2 ^ 32) spec),
        ⟨rest.dropWhile isalnum, spec, c.args + 1⟩)
  | .percentChar => (.chars [ch '%'], ⟨rest, spec, c.args⟩)
  | .invalid => (.chars [ch '%'], ⟨rest, spec, c.args⟩)
  | .nrchars => (.count (va c.args % 2 ^ 32), ⟨rest, spec, c.args + 1⟩)
  | type =>
      let num := takeNumber va type c.args
      (.chars (number num.1 spec), ⟨rest, spec, c.args + num.2⟩)

def vsnprintfRound (c : Cursor) : Action × Cursor :=
  let decoded := formatDecode c.fmt c.spec
  vsnprintfSwitch rom describe va c decoded.1 decoded.2

/-- `%n` stores an `int`, a `long` or a `size_t`, all of four bytes. -/
def perform (endp buf : Nat) (a : Action) (o : Out) : Out :=
  match a with
  | .chars text => putAll endp o text
  | .text text => copyText endp o text
  | .count addr => { o with mem := writeBytes o.mem addr (leBytes 4 (sub32 o.str buf)) }

def vsnprintfLoop (endp buf : Nat) : Nat → Cursor → Out → Except Stop Out
  | 0, _, _ => .error .fuel
  | fuel + 1, c, o =>
      if peek c.fmt ≠ 0 then
        let r := vsnprintfRound rom describe va c
        vsnprintfLoop endp buf fuel r.2 (perform endp buf r.1 o)
      else .ok o

/-- The memory and the value returned, an `int` as a word. -/
structure Printed where
  mem : Memory
  ret : Nat

def noSpec : Spec := ⟨.none, noFlags, 0, 0, 0, 0⟩

/-- Two rounds take at least one character of the format. -/
def vsnprintf (mem : Memory) (buf size : Nat) (fmt : Str) : Except Stop Printed :=
  if 2 ^ 31 ≤ size then .ok ⟨mem, 0⟩
  else do
    let wraps := (buf + size) % 2 ^ 32 < buf
    let endp := if wraps then 2 ^ 32 - 1 else (buf + size) % 2 ^ 32
    let size := if wraps then endp - buf else size
    let o ← vsnprintfLoop rom describe va endp buf (2 * fmt.length + 2) ⟨fmt, noSpec, 0⟩ ⟨mem, buf⟩
    let mem :=
      if 0 < size then
        if o.str < endp then writeBytes o.mem o.str [0] else writeBytes o.mem (endp - 1) [0]
      else o.mem
    pure ⟨mem, sub32 o.str buf⟩

/-- `vfdbnprintf`: the bytes that are handed to `sys_write`. -/
def vfdbnprintf (mem : Memory) (buffer bufSz : Nat) (fmt : Str) :
    Except Stop (Option (List UInt8)) := do
  let p ← vsnprintf rom describe va mem buffer bufSz fmt
  let r := p.ret
  if 0 < r ∧ r < 2 ^ 31 then
    pure (some (readBytes p.mem buffer (if bufSz < r then bufSz else r)))
  else pure none

end Convert

end Snitchaser.Printf.Model
