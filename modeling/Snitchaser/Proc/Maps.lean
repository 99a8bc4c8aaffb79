import Snitchaser.Defs
import Snitchaser.Proc.Entry
import Snitchaser.Proc.Vsscanf
/-!
# Reading the memory map

The functions of `proc.c` that turn the text of `/proc/self/maps` into entries.
Pointers are offsets from `map_data`, and an access outside of the buffer faults.
The local `l` of `parse_line` has no initial value: what it holds when `sscanf`
does not store it is a parameter, one value for each line.
-/

namespace Snitchaser.Proc.Maps

open Snitchaser.Defs
open Snitchaser.Lib.Program
open Snitchaser.Proc.Entry
open Snitchaser.Proc.Vsscanf

/-! ## Walking over the text -/

def check (cond : Bool) (text : String) : Except Stop Unit :=
  if cond then .ok () else .error (.assertion text)

def nextPtr (ptr end_ : Nat) : Except Stop Nat := do
  check (ptr < end_) "ptr < end"
  pure (ptr + 1)

/-- The loops below walk along the memory from `ptr` on. -/
def skipSpacesAndEol (end_ : Nat) : Nat → Str → Except Stop Nat
  | _, [] => .error .fault
  | ptr, c :: mem =>
      if c = 9 ∨ c = 32 ∨ c = 10 then do
        let ptr ← nextPtr ptr end_
        skipSpacesAndEol end_ ptr mem
      else
        .ok ptr

def getEol (end_ : Nat) : Nat → Str → Except Stop Nat
  | _, [] => .error .fault
  | ptr, c :: mem =>
      if c ≠ 10 ∧ c ≠ 0 then do
        let ptr ← nextPtr ptr end_
        getEol end_ ptr mem
      else
        .ok ptr

/-! ## One line -/

def mapsFormat : Str := "%lx-%lx %4s %llx %*2x:%*2x %*d %n".toList.map ch

def protOf (strProt : List UInt8) : Nat :=
  (if strProt.getD 0 0 = ch 'r' then protRead else 0) |||
    (if strProt.getD 1 0 = ch 'w' then protWrite else 0) |||
    (if strProt.getD 2 0 = ch 'x' then protExec else 0)

def skipBlanks : Nat → Str → Except Stop Nat
  | _, [] => .error .fault
  | ptr, c :: mem => if c = 32 ∨ c = 9 then skipBlanks (ptr + 1) mem else .ok ptr

/-- The name from `fn_ptr` to the end of the line. -/
def nameFrom (data : Str) (lineEnd fnPtr : Nat) : Except Stop (Option (List UInt8)) :=
  if peek (data.drop fnPtr) = 10 then
    .ok none
  else do
    check (fnPtr < lineEnd) "ptr + len > fn_ptr"
    let fn := (data.drop fnPtr).take (lineEnd - fnPtr)
    if 92 ∈ fn then .error (.fatal "CKPT" "file %s contain special character at %d\n")
    else .ok (some fn)

/-- Behind an anonymous line `fn_ptr` is at the next one and has to go back. -/
def nameAt (data : Str) (lineEnd fnPtr : Nat) : Except Stop (Option (List UInt8)) :=
  let c := peek (data.drop fnPtr)
  if c ≠ ch '/' ∧ c ≠ ch '[' then
    if fnPtr = 0 then .error .fault else nameFrom data lineEnd (fnPtr - 1)
  else
    nameFrom data lineEnd fnPtr

/-- The file name part of `parse_line`, with `fn_ptr = ptr + l`. -/
def findName (data : Str) (lineEnd : Nat) (fnPtr : Int) : Except Stop (Option (List UInt8)) := do
  if fnPtr < 0 then
    .error .fault
  else
    let fnPtr ← skipBlanks fnPtr.toNat (data.drop fnPtr.toNat)
    nameAt data lineEnd fnPtr

/-- `uninit` is what `l` holds at first. -/
def countOr (uninit : Int) : List Store → Int
  | .count n :: _ => n
  | _ => uninit

def parseLine (uninit : Int) (data : Str) (ptr len : Nat) : Except Stop MapsEntry := do
  let scan ← vsscanf (data.drop ptr) mapsFormat
  check (scan.1 = 4) "err == 4"
  match scan.2 with
  | .int start :: .int end_ :: .chars strProt :: .int offset :: more =>
      let fn ← findName data (ptr + len) (ptr + countOr uninit more)
      pure ⟨true, start, end_, protOf strProt, offset, fn⟩
  | _ => .error .fault

/-! ## The handler -/

/-- `struct proc_mem_handler_t`, with the memory behind `map_data`. -/
structure Handler where
  data : Str
  mapEnd : Nat
  currPtr : Nat
  deriving DecidableEq, Repr

def initMapHandler (data : Str) (size : Nat) : Except Stop Handler := do
  check (0 < size) "size > 0"
  pure ⟨data, size, 0⟩

def readMapsLine (uninit : Nat → Int) (h : Handler) : Except Stop (MapsEntry × Handler) := do
  check (0 < h.mapEnd) "handler->map_end > handler->map_data"
  if h.mapEnd ≤ h.currPtr then
    pure (MapsEntry.invalid, h)
  else
    let ptr ← skipSpacesAndEol h.mapEnd h.currPtr (h.data.drop h.currPtr)
    let eol ← getEol h.mapEnd ptr (h.data.drop ptr)
    let entry ← parseLine (uninit ptr) h.data ptr (eol - ptr)
    pure (entry, { h with currPtr := eol + 1 })

/-- `/proc/self/maps`: what `open` returns, the text, and how many bytes of it the
first `read` returns. -/
structure ProcFile where
  fd : Int
  text : Str
  firstRead : Nat

/-- The buffer is zeroed before the text is read into it. -/
def readSelfProcmap (f : ProcFile) (ptr : Nat) : Except Stop Handler := do
  check (ptr ≠ 0) "ptr != NULL"
  if f.fd < 0 then
    .error (.fatal "CKPT" "open /proc/self/maps failed: %d\n")
  else if f.firstRead = 0 then
    .error (.fatal "CKPT" "read /proc/self/maps returns %d\n")
  else if maxProcMapsFileSize ≤ f.firstRead then
    .error (.fatal "CKPT" "/proc/self/maps too large, increase MAX_PROC_MAPS_FILE_SIZE\n")
  else
    initMapHandler
      (f.text.take f.firstRead ++ List.replicate (maxProcMapsFileSize - f.firstRead) 0)
      f.firstRead

def mapsReader (uninit : Nat → Int) (f : ProcFile) : MapsReader Handler where
  readSelfProcmap := readSelfProcmap f
  readMapsLine := readMapsLine uninit

end Snitchaser.Proc.Maps
