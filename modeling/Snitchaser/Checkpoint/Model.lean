import Snitchaser.Lib.ByteMemory
import Snitchaser.Lib.LittleEndian
import Snitchaser.Pages
import Snitchaser.Proc.Entry
import Snitchaser.Tls.Model
/-!
# Writing a checkpoint

`do_checkpoint` of `checkpoint.c`: a head, then sections made of a mark, a length
and a payload.  The state is the byte stream that `writeto` has written.  The memory
of the process does not change while it is written out.  Where the memory map comes
from is a parameter of `ckpt_meminfo`.
-/

namespace Snitchaser.Checkpoint.Model

open Snitchaser.Defs
open Snitchaser.Lib.ByteMemory
open Snitchaser.Lib.LittleEndian
open Snitchaser.Lib.Program
open Snitchaser.Pages
open Snitchaser.Proc.Entry
open Snitchaser.Tls.Model (getTlsDesc)

inductive CkptMark where
  | sectEnd | sectExec | sectArgs | sectEnvs | sectCpu | sectTls | sectMemseg
  | subsectFn | subsectFinfo | subsectFdata
  deriving DecidableEq, Repr

def CkptMark.val : CkptMark → Nat
  | .sectEnd => 0
  | .sectExec => 1
  | .sectArgs => 2
  | .sectEnvs => 3
  | .sectCpu => 4
  | .sectTls => 5
  | .sectMemseg => 6
  | .subsectFn => 7
  | .subsectFinfo => 8
  | .subsectFdata => 9

def ckptVersionString : List UInt8 :=
  "SNITCHASER-CKPT87".toList.map (fun c => UInt8.ofNat c.toNat) ++ [0]

structure CheckpointHead where
  pid : UInt32
  tid : UInt32
  tlsStart : UInt32
  tlsSize : UInt32
  brk : UInt32
  stackTop : UInt32
  deriving DecidableEq, Repr

/-- The layout of the head: two bytes of padding follow the magic string. -/
def CheckpointHead.bytes (h : CheckpointHead) : List UInt8 :=
  ckptVersionString ++ [0, 0] ++ leBytes 4 h.pid.toNat ++ leBytes 4 h.tid.toNat ++
    leBytes 4 h.tlsStart.toNat ++ leBytes 4 h.tlsSize.toNat ++ leBytes 4 h.brk.toNat ++
    leBytes 4 h.stackTop.toNat

structure MapFileInfo where
  prot : Nat
  offset : Nat
  spaceSz : Nat
  ckptSz : Nat
  start : Nat
  end_ : Nat
  deriving DecidableEq, Repr

def sizeofMapFileInfo : Nat := 28

def MapFileInfo.bytes (f : MapFileInfo) : List UInt8 :=
  leBytes 4 f.prot ++ leBytes 8 f.offset ++ leBytes 4 f.spaceSz ++ leBytes 4 f.ckptSz ++
    leBytes 4 f.start ++ leBytes 4 f.end_

structure State where
  stream : List UInt8
  deriving DecidableEq, Repr

/-- The kernel's answers, that of `write` by the size of the file and the number of
bytes: it is how many of them were written, or the negative number of an error. -/
structure Kernel where
  openFile : Int
  brk : UInt32
  write : Nat → Nat → Int
  mmap : Nat → Nat
  munmap : Nat → Nat → Int
  mprotect : Nat → Nat → Nat → Int
  stat64 : List UInt8 → Option Nat
  write_ge : ∀ pos n, -4095 ≤ write pos n
  write_le : ∀ pos n, write pos n ≤ n

/-- What a `struct sg` points to.  `finfo` is the local variable of
`ckpt_memseg`, which changes after its address is put on the list. -/
inductive Ptr where
  | null
  | user (addr : Nat)
  | buffer (bytes : List UInt8)
  | finfo
  deriving DecidableEq, Repr

def Ptr.isNull : Ptr → Bool
  | .null => true
  | .user addr => addr == 0
  | .buffer _ => false
  | .finfo => false

structure Sg where
  imark : Option CkptMark
  ptr : Ptr
  length : Nat
  deriving DecidableEq, Repr

section Code

variable (k : Kernel) (mem : Memory)

/-! ## Sections -/

/-- The bytes behind a pointer, given those of the local `finfo`. -/
def Ptr.load (finfo : List UInt8) (p : Ptr) (sz : Nat) : List UInt8 :=
  match p with
  | .null => []
  | .user addr => readBytes mem addr sz
  | .buffer bytes => bytes.take sz
  | .finfo => finfo.take sz

def sysWrite (finfo : List UInt8) (buffer : Ptr) (sz : Nat) : Prog State Int := do
  let s ← get
  let err := k.write s.stream.length sz
  set (⟨s.stream ++ buffer.load mem finfo err.toNat⟩ : State)
  pure err

def writeto (finfo : List UInt8) (buffer : Ptr) (sz : Nat) : Prog State Unit :=
  if sz = 0 then
    pure ()
  else do
    assertThat (!buffer.isNull) "buffer != NULL"
    let err ← sysWrite k mem finfo buffer sz
    -- the int is compared with a size_t
    if (err % 2 ^ 32).toNat ≠ sz then
      throw (.fatal "CKPT" "write to ckpt file failed: %d\n")

/-- `writeto(fd, &x, sizeof(x))` for a 32-bit variable. -/
def writeWord (x : Nat) : Prog State Unit := writeto k mem [] (.buffer (leBytes 4 x)) 4

/-- The sum in `write_section_sg`, a `size_t`. -/
def sgSize (sglist : List Sg) : Nat :=
  sglist.foldl (fun sz sg => (sz + (if sg.imark.isSome then 8 else 0) + sg.length) % 2 ^ 32) 0

def writeImark (sg : Sg) : Prog State Unit :=
  match sg.imark with
  | some imark => do
      writeWord k mem imark.val
      writeWord k mem sg.length
  | none => pure ()

/-- The body of the writing loop of `write_section_sg`. -/
def writeSg (finfo : List UInt8) (sg : Sg) : Prog State Unit := do
  writeImark k mem sg
  writeto k mem finfo sg.ptr sg.length

def writeSectionSg (finfo : List UInt8) (mark : CkptMark) (sglist : List Sg) :
    Prog State Unit := do
  writeWord k mem mark.val
  writeWord k mem (sgSize sglist)
  forM sglist (writeSg k mem finfo)

def writeSection (mark : CkptMark) (ptr : Ptr) (length : Nat) : Prog State Unit :=
  writeSectionSg k mem [] mark [⟨none, ptr, length⟩]

/-! ## The process -/

/-- The addresses `STACK_INFO` keeps. -/
structure StackInfo where
  bottomExecFn : Nat
  cmdlineArgbegin : Nat
  cmdlineArgend : Nat
  envbegin : Nat
  envend : Nat

/-- `strlen`, looking at `fuel` bytes at most. -/
def strlen (s : Nat) : Nat → Option Nat
  | 0 => none
  | fuel + 1 => if mem s = 0 then some 0 else (strlen (s + 1) fuel).map (· + 1)

def writeExec (execFn : Nat) : Prog State Unit :=
  match strlen mem execFn (2 ^ 32 - execFn) with
  | none => throw .fault
  | some len => writeSection k mem .sectExec (.user execFn) (len + 1)

def ckptBaseinfo (info : StackInfo) : Prog State Unit := do
  assertThat (info.bottomExecFn ≠ 0) "STACK_INFO(bottom_exec_fn) != NULL"
  writeExec k mem info.bottomExecFn
  assertThat (info.cmdlineArgbegin ≠ 0) "STACK_INFO(cmdline_argbegin) != NULL"
  assertThat (info.cmdlineArgend ≠ 0) "STACK_INFO(cmdline_argend) != NULL"
  assertThat (info.cmdlineArgbegin < info.cmdlineArgend)
    "STACK_INFO(cmdline_argend) > STACK_INFO(cmdline_argbegin)"
  writeSection k mem .sectArgs (.user info.cmdlineArgbegin)
    (info.cmdlineArgend - info.cmdlineArgbegin)
  assertThat (info.envbegin ≠ 0) "STACK_INFO(envbegin) != NULL"
  assertThat (info.envend ≠ 0) "STACK_INFO(envend) != NULL"
  assertThat (info.envbegin < info.envend) "STACK_INFO(envend) > STACK_INFO(envbegin)"
  writeSection k mem .sectEnvs (.user info.envbegin) (info.envend - info.envbegin)

/-- `cpuinfo` and `tlsinfo` are what `get_ckpt_cpuinfo` and `get_tls_info` leave
in the buffer. -/
def ckptArchinfo (cpuinfo tlsinfo : List UInt8) : Prog State Unit := do
  writeSection k mem .sectCpu (.buffer cpuinfo) cpuinfo.length
  writeSection k mem .sectTls (.buffer tlsinfo) tlsinfo.length

/-! ## Memory segments -/

/-- The name as it stands in `fn_buffer`, its NUL included. -/
def fnBuffer (r : MapsEntry) : List UInt8 := r.fn.getD [] ++ [0]

/-- `memcmp(r.fn, "/dev", 4) == 0`.  The byte after a name in the map's text is a
newline or a NUL, so a shorter name never matches. -/
def isDevFile (r : MapsEntry) : Bool := r.fn.any fun fn => fn.take 4 == [47, 100, 101, 118]

/-- `(r.fn == NULL) || (r.fn[0] == '[')`. -/
def isInternal (r : MapsEntry) : Bool := r.fn.all fun fn => fn.head? == some 91

/-- The size left in the file is computed into `retval` and not returned. -/
def getAvalSize (fn : List UInt8) (offset desireSize : Nat) : Nat :=
  let desireSize := alignUp desireSize pageSize
  if fn.head? = some 0 ∨ fn.head? = some 91 then
    desireSize
  else
    match k.stat64 fn with
    | none => desireSize
    | some stSize =>
        let _retval := if stSize < offset + desireSize then alignUp (stSize - offset) pageSize
          else desireSize
        desireSize

def mprotectChecked (r : MapsEntry) (prot : Nat) : Prog State Unit :=
  if r.prot &&& protRead = 0 then
    assertThat (k.mprotect r.start (sub32 r.end_ r.start) prot = 0) "err == 0"
  else
    pure ()

def sgFn (r : MapsEntry) : Sg := ⟨some .subsectFn, .buffer (fnBuffer r), (fnBuffer r).length⟩

def sgFinfo : Sg := ⟨some .subsectFinfo, .finfo, sizeofMapFileInfo⟩

def sgFdata (ptr : Ptr) (length : Nat) : Sg := ⟨some .subsectFdata, ptr, length⟩

/-- `finfo` as it is set up first. -/
def initialFinfo (r : MapsEntry) : MapFileInfo :=
  ⟨r.prot, r.offset, sub32 r.end_ r.start, 0, r.start, r.end_⟩

/-- Write the section with `length` bytes of the mapping, `ckpt_sz` set to match. -/
def writeMemseg (r : MapsEntry) (length : Nat) : Prog State Unit :=
  writeSectionSg k mem { initialFinfo r with ckptSz := length }.bytes .sectMemseg
    [sgFn r, sgFinfo, sgFdata (.user r.start) length]

/-- The two kinds of mapping whose contents are saved. -/
def ckptContents (r : MapsEntry) : Prog State Unit :=
  if isInternal r then
    writeMemseg k mem r (sub32 r.end_ r.start)
  else do
    let avalSz := getAvalSize k (fnBuffer r) r.offset (sub32 r.end_ r.start)
    assertThat (avalSz % pageSize = 0) "aval_sz % PAGE_SIZE == 0"
    writeMemseg k mem r avalSz

def ckptMemseg (r : MapsEntry) : Prog State Unit := do
  assertThat r.valid "r.valid"
  if isDevFile r then
    writeSectionSg k mem (initialFinfo r).bytes .sectMemseg [sgFn r, sgFinfo, sgFdata .null 0]
  else
    mprotectChecked k r (r.prot ||| protRead)
    ckptContents k mem r
    mprotectChecked k r r.prot

def procmapGuard : Nat := pageSize

section Meminfo

variable {ρ : Type} (m : MapsReader ρ)

/-- The loop of `ckpt_meminfo`, for at most `fuel` lines. -/
def ckptLoop (procmapPtr : Nat) : Nat → ρ → Prog State Unit
  | 0, _ => throw .fuel
  | fuel + 1, h => do
      let line ← ofExcept (m.readMapsLine h)
      if line.1.valid then
        if line.1.start = procmapPtr then
          ckptLoop procmapPtr fuel line.2
        else
          ckptMemseg k mem line.1
          ckptLoop procmapPtr fuel line.2
      else
        pure ()

def sysMmap (len _prot : Nat) : Prog State Nat := pure (k.mmap len)

def sysMunmap (addr len : Nat) : Prog State Int := pure (k.munmap addr len)

def ckptMeminfo (fuel : Nat) : Prog State Unit := do
  let g1 ← xallocPages (sysMmap k) (maxProcMapsFileSize + 2 * procmapGuard) false
  assertThat (g1 ≠ 0) "g1 != NULL"
  let procmapPtr := g1 + procmapGuard
  let g2 := procmapPtr + maxProcMapsFileSize
  xdeallocPages (sysMunmap k) g1 procmapGuard
  xdeallocPages (sysMunmap k) g2 procmapGuard
  let h ← ofExcept (m.readSelfProcmap procmapPtr)
  ckptLoop k mem m procmapPtr fuel h
  xdeallocPages (sysMunmap k) procmapPtr maxProcMapsFileSize
  writeWord k mem CkptMark.sectEnd.val
  writeWord k mem 0

/-- What `do_checkpoint` is given and what it asks the system for. -/
structure Process where
  pid : UInt32
  tid : UInt32
  tlsStart : UInt32
  tlsSize : UInt32
  stackTop : UInt32
  info : StackInfo
  cpuinfo : List UInt8
  tlsinfo : List UInt8

def checkpointHead (p : Process) : CheckpointHead :=
  ⟨p.pid, p.tid, p.tlsStart, p.tlsSize, k.brk, p.stackTop⟩

def doCheckpoint (p : Process) (fuel : Nat) : Prog State Unit := do
  if k.openFile < 0 then
    throw (.fatal "CKPT" "open ckpt file %s failed: %d\n")
  else
    assertThat (getTlsDesc p.tlsStart.toNat ≠ 0) "td != NULL"
    let head := (checkpointHead k p).bytes
    writeto k mem [] (.buffer head) head.length
    ckptBaseinfo k mem p.info
    ckptArchinfo k mem p.cpuinfo p.tlsinfo
    ckptMeminfo k mem m fuel

end Meminfo

end Code

end Snitchaser.Checkpoint.Model
