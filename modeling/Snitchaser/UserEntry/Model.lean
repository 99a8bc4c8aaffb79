import Snitchaser.Lib.ByteMemory
import Snitchaser.Lib.LittleEndian
import Snitchaser.Pages
import Snitchaser.Proc.Lookup
/-!
# Patching the entry of the program

`user_entry.c` and `arch_user_entry.c`: the loader writes a jump over the first bytes of
the program and lets it run into it; the code at the other end of the jump writes the
bytes back.  What that takes is in five static variables.

The state is the memory, what is mapped where, and the variables.  The text of the memory
map is in the handler that reads it, so the bytes of its buffer are no part of the memory
here; that the buffer is mapped is.
-/

namespace Snitchaser.UserEntry.Model

open Snitchaser.Defs
open Snitchaser.Lib.ByteMemory
open Snitchaser.Lib.LittleEndian
open Snitchaser.Lib.Program
open Snitchaser.Pages
open Snitchaser.Proc.Entry
open Snitchaser.Proc.Lookup
open Snitchaser.Proc.Maps

/-- What is known of a mapped byte; `owner` tells the mappings of files apart, and
anonymous memory has none. -/
structure Attr where
  prot : Nat
  owner : Option Nat
  deriving DecidableEq, Repr

structure State where
  mem : Memory
  attr : Nat → Option Attr
  reprotectAddrStart : Nat
  reprotectSz : Nat
  oldProt : Nat
  patchBegin : Nat
  savedPatchBytes : List UInt8

/-- What the run is given: the address behind `p_user_entry`, that of `arch_user_entry_e`,
the one the kernel picks for `mapdata`, the map as a file, and the stack that
`find_in_map_by_addr` finds. -/
structure Env where
  uentry : Nat
  archUserEntryE : Nat
  mapdata : Nat
  maps : (Nat → Option Attr) → ProcFile
  uninit : Nat → Int

def patchSz : Nat := 5

/-! ## The kernel -/

/-- `mmap` of private anonymous memory: the kernel has picked `p`, if the range is free;
otherwise it has no memory. -/
def sysMmap (p length prot : Nat) : Prog State Nat := do
  let s ← get
  if ∀ i < length, s.attr (p + i) = none then
    set { s with attr := fun a => if p ≤ a ∧ a < p + length then some ⟨prot, none⟩ else s.attr a }
    pure p
  else
    pure (2 ^ 32 - 12)

def sysMunmap (addr length : Nat) : Prog State Int := do
  if addr % pageSize ≠ 0 ∨ length = 0 then
    pure (-22)
  else
    modify fun s =>
      { s with attr := fun a => if addr ≤ a ∧ a < addr + length then none else s.attr a }
    pure 0

/-- How many of the `n` bytes from `a` on come before one that is not mapped. -/
def mappedFrom (attr : Nat → Option Attr) (a : Nat) : Nat → Nat
  | 0 => 0
  | n + 1 => if attr a = none then 0 else mappedFrom attr (a + 1) n + 1

def reprotect (attr : Nat → Option Attr) (start n prot : Nat) : Nat → Option Attr := fun a =>
  if start ≤ a ∧ a < start + n then (attr a).map fun k => { k with prot := prot } else attr a

/-- The protection changes up to the first page that is not mapped. -/
def sysMprotect (start len prot : Nat) : Prog State Int := do
  if start % pageSize ≠ 0 then
    pure (-22)
  else
    let s ← get
    let n := mappedFrom s.attr start len
    set { s with attr := reprotect s.attr start n prot }
    pure (if n = len then 0 else -12)

/-! ## Memory under protection -/

def allows (prot : Nat) (k : Option Attr) : Bool := k.any fun k => k.prot &&& prot == prot

def loadBytes (a n : Nat) : Prog State (List UInt8) := do
  let s ← get
  if ∀ i < n, allows protRead (s.attr (a + i)) then
    pure (readBytes s.mem a n)
  else
    throw .fault

def storeBytes (a : Nat) (bs : List UInt8) : Prog State Unit := do
  let s ← get
  if ∀ i < bs.length, allows protWrite (s.attr (a + i)) then
    set { s with mem := writeBytes s.mem a bs }
  else
    throw .fault

/-! ## `arch_user_entry.c` -/

/-- The difference of the pointers is taken in 32 bits. -/
def doPatch (inst target : Nat) : Prog State Unit := do
  let diff := sub32 target ((inst + patchSz) % 2 ^ 32)
  storeBytes inst [0xE9]
  storeBytes (inst + 1) (leBytes 4 diff)

def unpatchUserEntry : Prog State Unit := do
  let s ← get
  assertThat (s.patchBegin ≠ 0) "patch_begin != NULL"
  assertThat (s.reprotectAddrStart ≠ 0) "reprotect_addr_start != NULL"
  let err ← sysMprotect s.reprotectAddrStart s.reprotectSz (protRead ||| protWrite)
  assertThat (err = 0) "err == 0"
  storeBytes s.patchBegin s.savedPatchBytes
  let err ← sysMprotect s.reprotectAddrStart s.reprotectSz s.oldProt
  assertThat (err = 0) "err == 0"

def archPatchUserEntry (archUserEntryE uentry repStart repSz prot : Nat) : Prog State Unit := do
  modify fun s => { s with patchBegin := uentry }
  let saved ← loadBytes uentry patchSz
  modify fun s =>
    { s with savedPatchBytes := saved, reprotectAddrStart := repStart, reprotectSz := repSz,
             oldProt := prot }
  doPatch uentry archUserEntryE

/-! ## `user_entry.c` -/

def patchUserEntry (env : Env) : Prog State Unit := do
  let uentry := env.uentry
  let mapdata ← xallocPages (sysMmap env.mapdata) maxProcMapsFileSize false
  assertThat (mapdata ≠ 0) "mapdata != NULL"
  let s ← get
  let h ← ofExcept (readSelfProcmap (env.maps s.attr) mapdata)
  let found ← ofExcept (findInMapByAddr env.uninit h uentry)
  let r := found.1
  assertThat (r.start ≤ uentry) "(uintptr_t)(uentry) >= r.start"
  assertThat (uentry < r.end_) "(uintptr_t)(uentry) < r.end"
  if r.end_ ≤ (uentry + patchSz) % 2 ^ 32 then
    throw (.fatal "LOADER" ("You have a very strange executable: " ++
      "start address %p is at the end of its memory section\n"))
  let reprotectAddrStart := r.start
  let reprotectSz := sub32 r.end_ reprotectAddrStart
  let oldProt := r.prot
  xdeallocPages sysMunmap mapdata maxProcMapsFileSize
  let err ← sysMprotect reprotectAddrStart reprotectSz (protRead ||| protWrite)
  assertThat (err = 0) "err == 0"
  archPatchUserEntry env.archUserEntryE uentry reprotectAddrStart reprotectSz oldProt
  let err ← sysMprotect reprotectAddrStart reprotectSz oldProt
  assertThat (err = 0) "err == 0"

end Snitchaser.UserEntry.Model
