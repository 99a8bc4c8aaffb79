import Snitchaser.Defs
import Snitchaser.Lib.AddressSpace
import Snitchaser.Lib.LittleEndian
import Snitchaser.Lib.Program
import Snitchaser.Proc.Entry
/-!
# Loading an ELF image

`load_elf` of `elf.c` and the functions it is made of.  The state is the address
space of the process and what was asked of it; the loader's own stack and data are
not in it.  The kernel is a parameter: where it puts a mapping, or with which error
it refuses one.
-/

namespace Snitchaser.Elf.Model

open Snitchaser.Defs
open Snitchaser.Lib.AddressSpace
open Snitchaser.Lib.LittleEndian
open Snitchaser.Lib.Program
open Snitchaser.Proc.Entry (protRead protWrite protExec)

/-! ## The file -/

/-- The field of `width` bytes at `offset` in a structure. -/
def field (bs : List UInt8) (offset width : Nat) : Nat := leNat ((bs.drop offset).take width)

def ptLoad : Nat := 1

def ptInterp : Nat := 3

def etExec : Nat := 2

def etDyn : Nat := 3

def em386 : Nat := 3

def pfX : Nat := 1

def pfW : Nat := 2

def pfR : Nat := 4

structure ElfHdr where
  eIdent : List UInt8
  eType : Nat
  eMachine : Nat
  eEntry : Nat
  ePhoff : Nat
  ePhnum : Nat
  deriving DecidableEq, Repr

def sizeofElfHdr : Nat := 52

def ElfHdr.ofBytes (bs : List UInt8) : ElfHdr where
  eIdent := bs.take 16
  eType := field bs 16 2
  eMachine := field bs 18 2
  eEntry := field bs 24 4
  ePhoff := field bs 28 4
  ePhnum := field bs 44 2

structure ElfPhdr where
  pType : Nat
  pOffset : Nat
  pVaddr : Nat
  pFilesz : Nat
  pMemsz : Nat
  pFlags : Nat
  pAlign : Nat
  deriving DecidableEq, Repr

def sizeofElfPhdr : Nat := 32

def ElfPhdr.ofBytes (bs : List UInt8) : ElfPhdr where
  pType := field bs 0 4
  pOffset := field bs 4 4
  pVaddr := field bs 8 4
  pFilesz := field bs 16 4
  pMemsz := field bs 20 4
  pFlags := field bs 24 4
  pAlign := field bs 28 4

/-- What `sys_read` of `count` bytes at `offset` leaves in the buffer. -/
def readAt (file : List UInt8) (offset count : Nat) : List UInt8 := (file.drop offset).take count

/-- An array of `n` program headers. -/
def phdrsOf (bs : List UInt8) (n : Nat) : List ElfPhdr :=
  (List.range n).map fun i => ElfPhdr.ofBytes (readAt bs (i * sizeofElfPhdr) sizeofElfPhdr)

/-! ## The kernel -/

/-- What the loader does to the address space. -/
inductive Op where
  | mmap (addr len : Nat) (fixed : Bool)
  | munmap (addr len : Nat)
  | memset (addr len : Nat)
  deriving DecidableEq, Repr

structure State where
  space : Space
  ops : List Op

/-- Ask for `op`. -/
def record (op : Op) : Prog State Unit := modify fun s => { s with ops := s.ops ++ [op] }

/-- Put the cells `f 0`, …, `f (n - 1)` at `a`. -/
def setCells (a n : Nat) (f : Nat → Option Cell) : Prog State Unit :=
  modify fun s => { s with space := replace s.space a n f }

/-- An error number, as the kernel returns it in place of an address. -/
structure Errno where
  val : Nat
  pos : 0 < val
  lt : val < 4096

structure Kernel where
  openFile : Int
  place : (addr len : Nat) → (fixed : Bool) → Except Errno Nat
  unmaps : (addr len : Nat) → Bool

/-- What a private mapping shows at first. -/
inductive Backing where
  | file (offset : Nat)
  | anonymous

section Code

variable (k : Kernel) (file : List UInt8)

/-- The cells of a mapping.  Behind the end of the file its last page is zero, and
the pages after it cannot be accessed. -/
def Backing.cell (writable : Bool) (i : Nat) : Backing → Option Cell
  | .file offset =>
      let o := offset / pageSize * pageSize + i
      if o / pageSize * pageSize < file.length then some ⟨file.getD o 0, writable⟩ else none
  | .anonymous => some ⟨0, writable⟩

/-- `MAP_FIXED` is the flag that matters; the mappings are all private. -/
def sysUniformMmap (addr len prot : Nat) (fixed : Bool) (backing : Backing) :
    Prog State Nat := do
  record (.mmap addr len fixed)
  match k.place addr len fixed with
  | .error e => pure (sub32 0 e.val)
  | .ok a =>
      setCells a len fun i => backing.cell file (prot &&& protWrite != 0) i
      pure a

/-- Nobody looks at the result. -/
def sysMunmap (addr len : Nat) : Prog State Unit := do
  record (.munmap addr len)
  if k.unmaps addr len then setCells addr len fun _ => none else pure ()

def memsetZero (addr len : Nat) : Prog State Unit := do
  record (.memset addr len)
  let s ← get
  if Writable s.space addr len then setCells addr len fun _ => some ⟨0, true⟩ else throw .fault

/-! ## Reading the headers -/

def cassert (cond : Bool) (fmt : String) : Prog State Unit :=
  if cond then pure () else throw (.fatal "LOADER" fmt)

def elfMag : List UInt8 := [0x7F, 69, 76, 70]

def openElfFile : Prog State ElfHdr := do
  cassert (0 ≤ k.openFile) "open file %s failed: %d\n"
  let bs := readAt file 0 sizeofElfHdr
  cassert (bs.length = sizeofElfHdr) "read elf header error: %d\n"
  let hdr := ElfHdr.ofBytes bs
  cassert (hdr.eIdent.take 4 = elfMag) "magic check error\n"
  cassert (hdr.eType = etDyn ∨ hdr.eType = etExec) "doesn't support type %d\n"
  cassert (hdr.eMachine = em386) "doesn't support machine: %d\n"
  pure hdr

/-- The offset of `sys_lseek` is signed. -/
def loadPhdrs (hdr : ElfHdr) : Prog State (List ElfPhdr) := do
  assertThat (hdr.ePhoff < 2 ^ 31) "err >= 0"
  let bs := readAt file hdr.ePhoff (sizeofElfPhdr * hdr.ePhnum)
  assertThat (bs.length = sizeofElfPhdr * hdr.ePhnum)
    "err == (int)(sizeof(*dest) * h->e_phnum)"
  pure (phdrsOf bs hdr.ePhnum)

/-! ## The size of the image -/

/-- The variables of `get_total_map_sz`. -/
structure Extent where
  start : Nat
  end_ : Nat
  first : Nat
  deriving DecidableEq, Repr

def Extent.add (e : Extent) (i : Nat) (p : ElfPhdr) : Extent where
  start := if p.pVaddr < e.start then p.pVaddr else e.start
  end_ := max e.end_ ((p.pVaddr + p.pMemsz) % 2 ^ 32)
  first := if p.pVaddr < e.start then i else e.first

/-- The loop of `get_total_map_sz`, from the header with index `i` on. -/
def scanLoads : Nat → List ElfPhdr → Extent → Prog State Extent
  | _, [], e => pure e
  | i, p :: ps, e =>
      if p.pType ≠ ptLoad then
        scanLoads (i + 1) ps e
      else if p.pAlign = 0 then
        throw .fault
      else do
        assertThat (sub32 p.pVaddr p.pOffset % p.pAlign = 0)
          "( (uintptr_t)(p->p_vaddr) - (uintptr_t)(p->p_offset) ) % p->p_align == 0"
        scanLoads (i + 1) ps (e.add i p)

/-- The size, and the index of the lowest segment. -/
def getTotalMapSz (phdrs : List ElfPhdr) : Prog State (Nat × Nat) := do
  let e ← scanLoads 0 phdrs ⟨2 ^ 32 - 1, 0, 0⟩
  let start := alignDown e.start 0x1000
  let end_ := alignUp e.end_ 0x1000
  assertThat (0 < sub32 end_ start) "end - start > 0"
  pure (sub32 end_ start, e.first)

/-! ## Mapping -/

def getMapProt (flags : Nat) : Nat :=
  (if flags &&& pfR ≠ 0 then protRead else 0) ||| (if flags &&& pfW ≠ 0 then protWrite else 0) |||
    (if flags &&& pfX ≠ 0 then protExec else 0)

/-- Unmap the pages behind the first segment. -/
def unmapPadding (p : ElfPhdr) (startAddr endAddr : Nat) : Prog State Unit :=
  let unmapStart := alignUp (add32 startAddr p.pMemsz) 4096
  let unmapEnd := alignUp endAddr 4096
  if unmapStart < unmapEnd then sysMunmap k unmapStart (unmapEnd - unmapStart) else pure ()

/-- Clear what the first segment has behind its part of the file. -/
def padFirst (p : ElfPhdr) (startAddr : Nat) : Prog State Unit :=
  if p.pFilesz < p.pMemsz ∧ p.pFlags &&& pfW ≠ 0 then
    memsetZero (add32 startAddr p.pFilesz) (p.pMemsz - p.pFilesz)
  else
    pure ()

/-- The address of the image and the load bias. -/
def mapFirst (p : ElfPhdr) (totalMapSz : Nat) (fixed : Bool) : Prog State (Nat × Nat) := do
  let startAddr := alignDown p.pVaddr 0x1000
  let endAddr := alignUp (add32 p.pVaddr totalMapSz) 0x1000
  assertThat (p.pOffset = 0) "first_phdr->p_offset == 0"
  let mapAddr ← sysUniformMmap k file (if fixed then startAddr else 0) (sub32 endAddr startAddr)
    (getMapProt p.pFlags) fixed (.file p.pOffset)
  let loadBias := if fixed then 0 else sub32 mapAddr p.pVaddr
  let startAddr := if fixed then startAddr else add32 loadBias startAddr
  let endAddr := if fixed then endAddr else add32 loadBias endAddr
  unmapPadding k p startAddr endAddr
  padFirst p startAddr
  pure (startAddr, loadBias)

/-- The anonymous pages behind the pages of the file. -/
def mapAdditional (prot fEndAl mEndAl : Nat) : Prog State Unit :=
  if fEndAl < mEndAl then do
    let addr ← sysUniformMmap k file fEndAl (mEndAl - fEndAl) prot true .anonymous
    assertThat (addr = fEndAl) "addr == f_end_al"
  else
    pure ()

def mapRegion (p : ElfPhdr) (loadBias : Nat) : Prog State Unit := do
  let start := add32 loadBias p.pVaddr
  let fEnd := add32 start p.pFilesz
  let mEnd := add32 start p.pMemsz
  let startAl := alignDown start 0x1000
  let fEndAl := alignUp fEnd 0x1000
  let mEndAl := alignUp mEnd 0x1000
  let prot := getMapProt p.pFlags
  let addr ← sysUniformMmap k file startAl (sub32 fEndAl startAl) prot true (.file p.pOffset)
  assertThat (addr = startAl) "addr == start_al"
  mapAdditional k file prot fEndAl mEndAl
  memsetZero fEnd (sub32 mEndAl fEnd)

/-- The loop of `load_elf`, from the header with index `i` on. -/
def mapOthers (first loadBias : Nat) : Nat → List ElfPhdr → Bool → Prog State Bool
  | _, [], needInterp => pure needInterp
  | i, p :: ps, needInterp => do
      let needInterp := needInterp || p.pType == ptInterp
      if i = first ∨ p.pType ≠ ptLoad then
        mapOthers first loadBias (i + 1) ps needInterp
      else
        mapRegion k file p loadBias
        mapOthers first loadBias (i + 1) ps needInterp

/-- What `load_elf` returns and stores for its caller. -/
structure Loaded where
  entry : Nat
  loadBias : Nat
  phdrs : Nat
  nrPhdrs : Nat
  needInterp : Bool
  deriving DecidableEq, Repr

def loadElf : Prog State Loaded := do
  let hdr ← openElfFile k file
  let phdrs ← loadPhdrs file hdr
  let (totalMapSz, first) ← getTotalMapSz phdrs
  match phdrs[first]? with
  | none => throw .fault
  | some p =>
      let (mapAddr, loadBias) ← mapFirst k file p totalMapSz (hdr.eType == etExec)
      let needInterp ← mapOthers k file first loadBias 0 phdrs false
      pure ⟨add32 loadBias hdr.eEntry, loadBias, add32 mapAddr hdr.ePhoff, hdr.ePhnum, needInterp⟩

end Code

end Snitchaser.Elf.Model
