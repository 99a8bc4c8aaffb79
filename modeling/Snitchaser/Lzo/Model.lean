import Snitchaser.Defs
import Snitchaser.Lib.ByteMemory
import Snitchaser.Lib.Program
/-!
# LZO1X

`lzo1x_compress.c` and `lzo1x_decompress.c`.  The compressor keeps the addresses of
earlier input bytes in a table indexed by a hash of four of them; nobody clears the
table before it is used.  The decompressor is a set of labels that jump to each other.

Addresses are numbers.  What the compressor has written is a list, since `op` only moves
forward; `op[-2]` is the last byte but one.
-/

namespace Snitchaser.Lzo.Model

open Snitchaser.Defs
open Snitchaser.Lib.ByteMemory
open Snitchaser.Lib.Program

/-! ## `lzodefs.h` -/

def m2MaxOffset : Nat := 0x0800

def m3MaxOffset : Nat := 0x4000

def m4MaxOffset : Nat := 0xBFFF

def m2MaxLen : Nat := 8

def m4MaxLen : Nat := 9

def m3Marker : Nat := 32

def m4Marker : Nat := 16

def dMask : Nat := 2 ^ 14 - 1

def dHigh : Nat := (dMask >>> 1) + 1

/-- `DX3(p, 5, 5, 6)`. -/
def dx3 (mem : Memory) (p : Nat) : Nat :=
  (((((((mem (p + 3)).toNat <<< 6) ^^^ (mem (p + 2)).toNat) <<< 5) ^^^ (mem (p + 1)).toNat) <<< 5)
    ^^^ (mem p).toNat)

/-! ## The compressor -/

/-- The input: `inLen` bytes from `start` on. -/
structure Input where
  mem : Memory
  start : Nat
  inLen : Nat

namespace Input

variable (b : Input)

def inEnd : Nat := b.start + b.inLen

def ipEnd : Nat := b.start + b.inLen - m2MaxLen - 5

end Input

structure CState where
  dict : Nat → Nat
  ip : Nat
  ii : Nat
  out : List UInt8

/-- Where the tests of a table entry lead. -/
inductive Probe where
  | literal
  | tryMatch (mOff : Nat)
  | next

section Compress

variable (b : Input)

/-- The difference of the pointers is taken in 32 bits. -/
def probe (ip mPos : Nat) : Probe :=
  if mPos < b.start then .literal
  else if ip = mPos ∨ m4MaxOffset < sub32 ip mPos then .literal
  else if sub32 ip mPos ≤ m2MaxOffset ∨ b.mem (mPos + 3) = b.mem (ip + 3) then
    .tryMatch (sub32 ip mPos)
  else .next

/-- The test behind `try_match`. -/
def confirm (ip mPos mOff : Nat) : Option (Nat × Nat) :=
  if b.mem mPos = b.mem ip ∧ b.mem (mPos + 1) = b.mem (ip + 1) ∧
      b.mem (mPos + 2) = b.mem (ip + 2) then
    some (mPos, mOff)
  else none

def firstIndex (ip : Nat) : Nat := ((0x21 * dx3 b.mem ip) >>> 5) &&& dMask

def secondIndex (dindex : Nat) : Nat := (dindex &&& (dMask &&& 0x7FF)) ^^^ (dHigh ||| 0x1F)

/-- The table index that is written next, and the match if there is one. -/
def findMatch (dict : Nat → Nat) (ip : Nat) : Nat × Option (Nat × Nat) :=
  let dindex := firstIndex b ip
  match probe b ip (dict dindex) with
  | .literal => (dindex, none)
  | .tryMatch mOff => (dindex, confirm b ip (dict dindex) mOff)
  | .next =>
      let dindex := secondIndex dindex
      match probe b ip (dict dindex) with
      | .literal => (dindex, none)
      | .tryMatch mOff => (dindex, confirm b ip (dict dindex) mOff)
      | .next => (dindex, none)

/-- A length in steps of 255. -/
def lengthBytes (n : Nat) : List UInt8 :=
  if 255 < n then 0 :: lengthBytes (n - 255) else [UInt8.ofNat n]
termination_by n
decreasing_by omega

/-- `op[-2] |= t`. -/
def orBack (out : List UInt8) (t : Nat) : Except Stop (List UInt8) :=
  if 2 ≤ out.length then .ok (out.modify (out.length - 2) (· ||| UInt8.ofNat t))
  else .error .fault

/-- The length of a run of `t` literals. -/
def runHead (out : List UInt8) (t : Nat) : Except Stop (List UInt8) :=
  if t ≤ 3 then orBack out t
  else if t ≤ 18 then .ok (out ++ [UInt8.ofNat (t - 3)])
  else .ok (out ++ 0 :: lengthBytes (t - 18))

def emitLiterals (ii t : Nat) (out : List UInt8) : Except Stop (List UInt8) := do
  let out ← runHead out t
  pure (out ++ readBytes b.mem ii t)

/-- The literals before a match. -/
def emitPending (ii ip : Nat) (out : List UInt8) : Except Stop (List UInt8) :=
  if ip ≠ ii then emitLiterals b ii (ip - ii) out else .ok out

/-- The number of bytes, `n` at most, that are the same from `p` and from `q` on. -/
def equalBytes (mem : Memory) (p q : Nat) : Nat → Nat
  | 0 => 0
  | n + 1 => if mem p = mem q then equalBytes mem (p + 1) (q + 1) n + 1 else 0

/-- The bytes from `m3_m4_offset` on. -/
def offsetBytes (mOff : Nat) : List UInt8 :=
  [UInt8.ofNat ((mOff &&& 63) <<< 2), UInt8.ofNat (mOff >>> 6)]

/-- The code of a match whose first nine bytes are not all the same. -/
def shortMatch (mOff mLen : Nat) : List UInt8 :=
  if mOff ≤ m2MaxOffset then
    let mOff := mOff - 1
    [UInt8.ofNat (((mLen - 1) <<< 5) ||| ((mOff &&& 7) <<< 2)), UInt8.ofNat (mOff >>> 3)]
  else if mOff ≤ m3MaxOffset then
    let mOff := mOff - 1
    UInt8.ofNat (m3Marker ||| (mLen - 2)) :: offsetBytes mOff
  else
    let mOff := mOff - 0x4000
    UInt8.ofNat (m4Marker ||| ((mOff &&& 0x4000) >>> 11) ||| (mLen - 2)) :: offsetBytes mOff

def longMatch (mOff mLen : Nat) : List UInt8 :=
  if mOff ≤ m3MaxOffset then
    let mOff := mOff - 1
    if mLen ≤ 33 then
      UInt8.ofNat (m3Marker ||| (mLen - 2)) :: offsetBytes mOff
    else
      UInt8.ofNat (m3Marker ||| 0) :: lengthBytes (mLen - 33) ++ offsetBytes mOff
  else
    let mOff := mOff - 0x4000
    if mLen ≤ m4MaxLen then
      UInt8.ofNat (m4Marker ||| ((mOff &&& 0x4000) >>> 11) ||| (mLen - 2)) :: offsetBytes mOff
    else
      UInt8.ofNat (m4Marker ||| ((mOff &&& 0x4000) >>> 11)) :: lengthBytes (mLen - m4MaxLen) ++
        offsetBytes mOff

/-- The length of the match at `ip`, of which three bytes are known, and its code. -/
def matchCode (ip mPos mOff : Nat) : Nat × List UInt8 :=
  let six := equalBytes b.mem (mPos + 3) (ip + 3) 6
  if six < 6 then
    (3 + six, shortMatch mOff (3 + six))
  else
    let more := equalBytes b.mem (mPos + m2MaxLen + 1) (ip + 9) (b.inEnd - (ip + 9))
    (9 + more, longMatch mOff (9 + more))

/-- One round of the loop. -/
def compressStep (s : CState) : Except Stop CState :=
  let found := findMatch b s.dict s.ip
  let dict := Function.update s.dict found.1 s.ip
  match found.2 with
  | none => .ok { s with dict := dict, ip := s.ip + 1 }
  | some (mPos, mOff) => do
      let out ← emitPending b s.ii s.ip s.out
      let code := matchCode b s.ip mPos mOff
      let ip := s.ip + code.1
      pure ⟨dict, ip, ip, out ++ code.2⟩

def compressLoop : Nat → CState → Except Stop CState
  | 0, _ => .error .fuel
  | fuel + 1, s => do
      let s ← compressStep b s
      if b.ipEnd ≤ s.ip then pure s else compressLoop fuel s

/-- The bytes written and the number of input bytes that are left.  Every round moves `ip`
on, so there are no more of them than input bytes. -/
def lzo1x1DoCompress (dict : Nat → Nat) : Except Stop (List UInt8 × Nat) := do
  let s ← compressLoop b b.inLen ⟨dict, b.start + 4, b.start, []⟩
  pure (s.out, b.inEnd - s.ii)

/-- The literals at the end of the input. -/
def lastLiterals (ii t : Nat) (out : List UInt8) : Except Stop (List UInt8) :=
  if 0 < t then
    if out.length = 0 ∧ t ≤ 238 then .ok (out ++ UInt8.ofNat (17 + t) :: readBytes b.mem ii t)
    else emitLiterals b ii t out
  else .ok out

/-- The second half of `lzo1x_1_compress`. -/
def finish (out : List UInt8) (t : Nat) : Except Stop (List UInt8) := do
  let out ← lastLiterals b (b.start + b.inLen - t) t out
  pure (out ++ [UInt8.ofNat (m4Marker ||| 1), 0, 0])

/-- `dict` is what `wrkmem` holds. -/
def lzo1x1Compress (dict : Nat → Nat) : Except Stop (List UInt8) :=
  if b.inLen ≤ m2MaxLen + 5 then finish b [] b.inLen
  else do
    let done ← lzo1x1DoCompress b dict
    finish b done.1 done.2

end Compress

/-! ## The decompressor -/

/-- The input: `len` is `in_len`, and the bytes up to `limit` can be read. -/
structure Source where
  bytes : Nat → UInt8
  len : Nat
  limit : Nat

def Source.read (src : Source) (i : Nat) : Except Stop UInt8 :=
  if i < src.limit then .ok (src.bytes i) else .error .fault

/-- `ip` is an index of the input, and `op` is the number of bytes written. -/
structure DState where
  ip : Nat
  out : List UInt8
  deriving DecidableEq, Repr

inductive Label where
  | top
  | firstLiteralRun
  | matched (t : Nat)
  | matchNext (t : Nat)
  deriving DecidableEq, Repr

/-- The results other than `LZO_E_OK` are negative numbers of `lzo.h`. -/
inductive Code where
  | ok
  | inputOverrun
  | outputOverrun
  | lookbehindOverrun
  | eofNotFound
  | inputNotConsumed
  deriving DecidableEq, Repr

inductive Next where
  | goto (l : Label) (s : DState)
  | done (c : Code) (s : DState)
  deriving DecidableEq, Repr

section Decompress

variable (src : Source) (cap : Nat)

/-- `HAVE_IP(x, ip_end, ip)`: there are fewer than `x` bytes left. -/
def haveIp (x ip : Nat) : Bool := sub32 src.len ip < x % 2 ^ 32

def haveOp (x : Nat) (s : DState) : Bool := sub32 cap s.out.length < x % 2 ^ 32

/-- `HAVE_LB(m_pos, out, op)` for `m_pos = op - off`: the position is not one that has been
written.  A difference below address 0 is not below `op`. -/
def haveLb (off : Nat) (s : DState) : Bool := s.out.length < off || off == 0

def put (byte : UInt8) (s : DState) : Except Stop DState :=
  if s.out.length < cap then .ok { s with out := s.out ++ [byte] } else .error .fault

/-- `*op++ = *ip++`. -/
def copyByte (s : DState) : Except Stop DState := do
  let byte ← src.read s.ip
  put cap byte { s with ip := s.ip + 1 }

/-- `COPY4(op, ip)` and the two increments. -/
def copyFour (s : DState) : Except Stop DState := do
  let b0 ← src.read s.ip
  let b1 ← src.read (s.ip + 1)
  let b2 ← src.read (s.ip + 2)
  let b3 ← src.read (s.ip + 3)
  let s ← put cap b0 { s with ip := s.ip + 4 }
  let s ← put cap b1 s
  let s ← put cap b2 s
  put cap b3 s

def copyBytes : Nat → DState → Except Stop DState
  | 0, s => .ok s
  | n + 1, s => do copyBytes n (← copyByte src cap s)

/-- Four at a time as long as there are four. -/
def copyRest : Nat → DState → Except Stop DState
  | n + 4, s => do copyRest n (← copyFour src cap s)
  | n, s => copyBytes src cap n s

/-- The byte `off` before `op`. -/
def byteBack (off : Nat) (s : DState) : Except Stop UInt8 :=
  if 0 < off ∧ off ≤ s.out.length then .ok (s.out.getD (s.out.length - off) default)
  else .error .fault

/-- `*op++ = *m_pos++`; the distance between the two stays the same. -/
def backByte (off : Nat) (s : DState) : Except Stop DState := do
  let byte ← byteBack off s
  put cap byte s

/-- `COPY4(op, m_pos)`: all four bytes are read before one is written. -/
def backFour (off : Nat) (s : DState) : Except Stop DState := do
  let b0 ← byteBack off s
  let b1 ← byteBack (off - 1) s
  let b2 ← byteBack (off - 2) s
  let b3 ← byteBack (off - 3) s
  let s ← put cap b0 s
  let s ← put cap b1 s
  let s ← put cap b2 s
  put cap b3 s

def backBytes (off : Nat) : Nat → DState → Except Stop DState
  | 0, s => .ok s
  | n + 1, s => do backBytes off n (← backByte cap off s)

def backRest (off : Nat) : Nat → DState → Except Stop DState
  | n + 4, s => do backRest off n (← backFour cap off s)
  | n, s => backBytes cap off n s

/-- How often `do … while (--t > 0)` runs. -/
def doWhile (t : Nat) : Nat := if t = 0 then 2 ^ 32 else t

def getUnalignedLe16 (ip : Nat) : Except Stop Nat := do
  let b0 ← src.read ip
  let b1 ← src.read (ip + 1)
  pure (b0.toNat + 256 * b1.toNat)

/-- The loop over the zeros of a length, from the test of `*ip` on.  Without a result the
input has come to its end. -/
def extendLoop (base : Nat) : Nat → Nat → Nat → Except Stop (Option (Nat × Nat))
  | 0, _, _ => .error .fuel
  | fuel + 1, t, ip => do
      let byte ← src.read ip
      if byte = 0 then
        if haveIp src 1 (ip + 1) then pure none
        else extendLoop base fuel ((t + 255) % 2 ^ 32) (ip + 1)
      else pure (some ((t + base + byte.toNat) % 2 ^ 32, ip + 1))

/-- The length that begins with `t`, where 0 stands for one that is written out. -/
def extend (base t ip : Nat) : Except Stop (Option (Nat × Nat)) :=
  if t = 0 then
    if haveIp src 1 ip then .ok none else extendLoop src base (src.len + 1) 0 ip
  else .ok (some (t, ip))

def matchDone (s : DState) : Except Stop Next := do
  let byte ← src.read (s.ip - 2)
  let t := byte.toNat &&& 3
  if t = 0 then pure (.goto .top s) else pure (.goto (.matchNext t) s)

/-- From `copy_match` on. -/
def copyMatch (off t : Nat) (s : DState) : Except Stop Next := do
  let s ← backBytes cap off (2 + doWhile t) s
  matchDone src s

/-- A match that is none of the short ones, with the position known. -/
def longCopy (off t : Nat) (s : DState) : Except Stop Next :=
  if haveLb off s then .ok (.done .lookbehindOverrun s)
  else if haveOp cap (t + 3 - 1) s then .ok (.done .outputOverrun s)
  else if 2 * 4 - (3 - 1) ≤ t ∧ 4 ≤ off then do
    let s ← backFour cap off s
    let s ← backRest cap off (t - (4 - (3 - 1))) s
    matchDone src s
  else copyMatch src cap off t s

/-- `match`. -/
def matched (t : Nat) (s : DState) : Except Stop Next :=
  if 64 ≤ t then do
    let byte ← src.read s.ip
    let off := 1 + ((t >>> 2) &&& 7) + (byte.toNat <<< 3)
    let s := { s with ip := s.ip + 1 }
    let t := (t >>> 5) - 1
    if haveLb off s then pure (.done .lookbehindOverrun s)
    else if haveOp cap (t + 3 - 1) s then pure (.done .outputOverrun s)
    else copyMatch src cap off t s
  else if 32 ≤ t then do
    match ← extend src 31 (t &&& 31) s.ip with
    | none => pure (.done .inputOverrun s)
    | some (t, ip) =>
        let word ← getUnalignedLe16 src ip
        longCopy src cap (1 + (word >>> 2)) t { s with ip := ip + 2 }
  else if 16 ≤ t then do
    let off := (t &&& 8) <<< 11
    match ← extend src 7 (t &&& 7) s.ip with
    | none => pure (.done .inputOverrun s)
    | some (t, ip) =>
        let word ← getUnalignedLe16 src ip
        let off := off + (word >>> 2)
        let s := { s with ip := ip + 2 }
        if off = 0 then
          pure (.done (if s.ip = src.len then .ok
            else if s.ip < src.len then .inputNotConsumed else .inputOverrun) s)
        else longCopy src cap (off + 0x4000) t s
  else do
    let byte ← src.read s.ip
    let off := 1 + (t >>> 2) + (byte.toNat <<< 2)
    let s := { s with ip := s.ip + 1 }
    if haveLb off s then pure (.done .lookbehindOverrun s)
    else if haveOp cap 2 s then pure (.done .outputOverrun s)
    else matchDone src (← backBytes cap off 2 s)

def matchNext (t : Nat) (s : DState) : Except Stop Next :=
  if haveOp cap t s then .ok (.done .outputOverrun s)
  else if haveIp src (t + 1) s.ip then .ok (.done .inputOverrun s)
  else do
    -- one byte, a second if `t > 1`, a third if `t > 2`
    let s ← copyBytes src cap (min (max t 1) 3) s
    let byte ← src.read s.ip
    let s := { s with ip := s.ip + 1 }
    if s.ip < src.len then pure (.goto (.matched byte.toNat) s) else pure (.goto .top s)

def firstLiteralRun (s : DState) : Except Stop Next := do
  let byte ← src.read s.ip
  let t := byte.toNat
  let s := { s with ip := s.ip + 1 }
  if 16 ≤ t then pure (.goto (.matched t) s)
  else
    let byte ← src.read s.ip
    let off := 1 + m2MaxOffset + (t >>> 2) + (byte.toNat <<< 2)
    let s := { s with ip := s.ip + 1 }
    if haveLb off s then pure (.done .lookbehindOverrun s)
    else if haveOp cap 3 s then pure (.done .outputOverrun s)
    else matchDone src (← backBytes cap off 3 s)

/-- The literals of a run of length `t + 3`. -/
def literalRun (t : Nat) (s : DState) : Except Stop Next :=
  if haveOp cap (t + 3) s then .ok (.done .outputOverrun s)
  else if haveIp src (t + 4) s.ip then .ok (.done .inputOverrun s)
  else do
    let s ← copyFour src cap s
    let s ← copyRest src cap (sub32 t 1) s
    pure (.goto .firstLiteralRun s)

/-- The head of the outer loop. -/
def top (s : DState) : Except Stop Next :=
  if s.ip < src.len then do
    let byte ← src.read s.ip
    let t := byte.toNat
    let s := { s with ip := s.ip + 1 }
    if 16 ≤ t then pure (.goto (.matched t) s)
    else
      match ← extend src 15 t s.ip with
      | none => pure (.done .inputOverrun s)
      | some (t, ip) => literalRun src cap t { s with ip := ip }
  else .ok (.done .eofNotFound s)

/-- From the label to the next. -/
def step : Label → DState → Except Stop Next
  | .top => top src cap
  | .firstLiteralRun => firstLiteralRun src cap
  | .matched t => matched src cap t
  | .matchNext t => matchNext src cap t

def run : Nat → Next → Except Stop (Code × List UInt8)
  | _, .done c s => .ok (c, s.out)
  | 0, .goto _ _ => .error .fuel
  | fuel + 1, .goto l s => do run fuel (← step src cap l s)

/-- What comes before the outer loop. -/
def begin : Except Stop Next := do
  let s : DState := ⟨0, []⟩
  let byte ← src.read 0
  if 17 < byte.toNat then
    let t := byte.toNat - 17
    let s := { s with ip := 1 }
    if t < 4 then pure (.goto (.matchNext t) s)
    else if haveOp cap t s then pure (.done .outputOverrun s)
    else if haveIp src (t + 1) s.ip then pure (.done .inputOverrun s)
    else pure (.goto .firstLiteralRun (← copyBytes src cap t s))
  else pure (.goto .top s)

/-- `cap` is what `*out_len` says before the call.  Every label reads at least one byte. -/
def lzo1xDecompressSafe : Except Stop (Code × List UInt8) := do
  run src cap (src.len + 8) (← begin src cap)

end Decompress

end Snitchaser.Lzo.Model
