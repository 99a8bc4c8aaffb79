import Snitchaser.Lib.ByteMemory
import Snitchaser.Lib.Hoare
import Snitchaser.Lib.LittleEndian
/-!
# The system call log

`wrapped_syscall` of `wrapper.c` and the post handlers under `syscall/`.  Each
wrapped call writes its number, then its handler writes the result and copies of
the user memory the kernel filled in.  Nothing in the log says how long an entry
is.
-/

namespace Snitchaser.SyscallLog.Model

open Snitchaser.Lib.ByteMemory
open Snitchaser.Lib.LittleEndian
open Snitchaser.Lib.Program

structure Regs where
  eax : Int32
  ebx : Int32
  ecx : Int32
  edx : Int32
  esi : Int32
  edi : Int32
  ebp : Int32
  flags : Int32
  origEax : Int32
  eip : Int32
  esp : Int32
  deriving DecidableEq

/-- The log file and `logger_sz`, which counts in 32 bits. -/
structure State where
  log : List UInt8
  loggerSz : Nat

/-! ## Writing to the log

`write` is what `sys_write` answers, from the size of the log and the byte
count. -/

section Write

variable (write : Nat → Nat → Int)

def writeLogger (bytes : List UInt8) : Prog State Unit := do
  modify fun s => { s with loggerSz := (s.loggerSz + bytes.length) % 2 ^ 32 }
  let s ← get
  let err := write s.log.length bytes.length
  set { s with log := s.log ++ bytes.take err.toNat }
  if err = bytes.length then
    pure ()
  else
    throw (.fatal "LOG_SYSCALL" "write logger failed: %d != %d\n")

def int32Bytes (x : Int32) : List UInt8 := leBytes 4 x.toUInt32.toNat

def writeMem (mem : Memory) (addr : Int32) (sz : Nat) : Prog State Unit :=
  writeLogger write (readBytes mem addr.toUInt32.toNat sz)

/-- `if (c) write_mem(addr, sz)`. -/
def writeMemIf (c : Bool) (mem : Memory) (addr : Int32) (sz : Nat) : Prog State Unit :=
  if c then writeMem write mem addr sz else pure ()

def writeSyscallNr (nr : Int32) : Prog State Unit :=
  writeLogger write (leBytes 2 nr.toUInt32.toNat)

def writeRegs (r : Regs) : Prog State Unit :=
  writeLogger write ([r.eax, r.ebx, r.ecx, r.edx, r.esi, r.edi, r.ebp, r.flags, r.origEax,
    r.eip, r.esp].flatMap int32Bytes)

def writeEax (r : Regs) : Prog State Unit := writeLogger write (int32Bytes r.eax)

/-- `write_obj` of a 32-bit variable. -/
def writeObj (x : Int32) : Prog State Unit := writeLogger write (int32Bytes x)

/-! ## The post handlers -/

abbrev Handler := Regs → Memory → Prog State Unit

/-- The handlers that only write the result. -/
def postSimple : Handler := fun r _ => writeEax write r

def postBrk : Handler := postSimple write
def postMmap : Handler := postSimple write
def postMmap2 : Handler := postSimple write
def postClose : Handler := postSimple write
def postOpen : Handler := postSimple write
def postMprotect : Handler := postSimple write
def postMunmap : Handler := postSimple write
def postWrite : Handler := postSimple write
def postGetpid : Handler := postSimple write
def postRtSigprocmask : Handler := postSimple write
def postRtSigaction : Handler := postSimple write
def postSetTidAddress : Handler := postSimple write
def postSetRobustList : Handler := postSimple write
def postSetThreadArea : Handler := postSimple write
def postStatfs64 : Handler := postSimple write

/-- The handlers that copy one result structure of `sz` bytes when the result
passes `ok`. -/
def postStruct (ok : Int → Bool) (addr : Regs → Int32) (sz : Nat) : Handler := fun r mem => do
  writeEax write r
  writeMemIf write (ok r.eax.toInt) mem (addr r) sz

def sizeofStat64 : Nat := 96
def sizeofOldUtsname : Nat := 5 * 65
def sizeofRlimit : Nat := 8

def postFstat64 : Handler := postStruct write (fun eax => 0 ≤ eax) Regs.ecx sizeofStat64
def postStat64 : Handler := postStruct write (fun eax => 0 ≤ eax) Regs.ecx sizeofStat64
def postUname : Handler := postStruct write (fun eax => 0 ≤ eax) Regs.ebx sizeofOldUtsname
def postUgetrlimit : Handler := postStruct write (fun eax => eax = 0) Regs.ecx sizeofRlimit

def postRead : Handler := fun r mem => do
  writeEax write r
  writeMemIf write (0 < r.eax.toInt) mem r.ecx r.eax.toInt.toNat

def postIoctl : Handler := fun r _ => do
  writeRegs write r
  writeEax write r

def sizeofTimeval : Nat := 8
def sizeofTimezone : Nat := 8
def sizeofTimespec : Nat := 8

def postGettimeofday : Handler := fun r mem => do
  writeEax write r
  if 0 ≤ r.eax.toInt then
    let tp := r.ebx
    let tzp := r.ecx
    writeObj write tp
    writeObj write tzp
    writeMemIf write (tp ≠ 0) mem tp sizeofTimeval
    writeMemIf write (tzp ≠ 0) mem tzp sizeofTimezone
  else
    pure ()

def postNanosleep : Handler := fun r mem => do
  writeEax write r
  let o := r.ecx
  writeObj write o
  writeMemIf write (o ≠ 0) mem o sizeofTimespec

def futexRequeue : Int32 := 3
def futexCmpRequeue : Int32 := 4
def futexWakeOp : Int32 := 5
def futexPrivateFlag : Int32 := 128

/-- `op & FUTEX_CMD_MASK`. -/
def futexCmd (op : Int32) : Int32 := op &&& ~~~ futexPrivateFlag

/-- The commands that work on a second word. -/
def hasSecondWord (cmd : Int32) : Bool :=
  cmd = futexRequeue || cmd = futexCmpRequeue || cmd = futexWakeOp

def postFutex : Handler := fun r mem => do
  writeEax write r
  if r.eax.toInt < 0 then
    pure ()
  else
    let cmd := futexCmd r.ecx
    writeObj write cmd
    writeMem write mem r.ebx 4
    writeMemIf write (hasSecondWord cmd) mem r.edi 4

/-! ## The table -/

/-- The system calls that have an entry in `syscall_table`. -/
inductive Syscall where
  | brk | mmap | mmap2 | fstat64 | close | stat64 | read | open | mprotect | munmap | write
  | ioctl | gettimeofday | getpid | rtSigprocmask | rtSigaction | nanosleep | setTidAddress
  | setRobustList | setThreadArea | futex | ugetrlimit | uname | statfs64
  deriving DecidableEq, Repr

def Syscall.nr : Syscall → Nat
  | .brk => 45
  | .mmap => 90
  | .mmap2 => 192
  | .fstat64 => 197
  | .close => 6
  | .stat64 => 195
  | .read => 3
  | .open => 5
  | .mprotect => 125
  | .munmap => 91
  | .write => 4
  | .ioctl => 54
  | .gettimeofday => 78
  | .getpid => 20
  | .rtSigprocmask => 175
  | .rtSigaction => 174
  | .nanosleep => 162
  | .setTidAddress => 258
  | .setRobustList => 311
  | .setThreadArea => 243
  | .futex => 240
  | .ugetrlimit => 191
  | .uname => 122
  | .statfs64 => 268

def Syscall.all : List Syscall :=
  [.brk, .mmap, .mmap2, .fstat64, .close, .stat64, .read, .open, .mprotect, .munmap, .write,
    .ioctl, .gettimeofday, .getpid, .rtSigprocmask, .rtSigaction, .nanosleep, .setTidAddress,
    .setRobustList, .setThreadArea, .futex, .ugetrlimit, .uname, .statfs64]

def Syscall.post : Syscall → Handler
  | .brk => postBrk write
  | .mmap => postMmap write
  | .mmap2 => postMmap2 write
  | .fstat64 => postFstat64 write
  | .close => postClose write
  | .stat64 => postStat64 write
  | .read => postRead write
  | .open => postOpen write
  | .mprotect => postMprotect write
  | .munmap => postMunmap write
  | .write => postWrite write
  | .ioctl => postIoctl write
  | .gettimeofday => postGettimeofday write
  | .getpid => postGetpid write
  | .rtSigprocmask => postRtSigprocmask write
  | .rtSigaction => postRtSigaction write
  | .nanosleep => postNanosleep write
  | .setTidAddress => postSetTidAddress write
  | .setRobustList => postSetRobustList write
  | .setThreadArea => postSetThreadArea write
  | .futex => postFutex write
  | .ugetrlimit => postUgetrlimit write
  | .uname => postUname write
  | .statfs64 => postStatfs64 write

def Syscall.ofNr (n : Nat) : Option Syscall := Syscall.all.find? fun sc => sc.nr == n

def nrSyscalls : Nat := 327

/-- The post handler of `syscall_table[nr]`; every pre handler is `NULL`.  An
index outside the table is a fault. -/
def syscallTable (nr : Int32) : Prog State (Option Handler) :=
  if 0 ≤ nr.toInt ∧ nr.toInt ≤ nrSyscalls then
    pure ((Syscall.ofNr nr.toInt.toNat).map (Syscall.post write))
  else
    throw .fault

/-! ## A wrapped call -/

def syscallPreHandler (r : Regs) : Prog State Unit := do
  writeSyscallNr write r.origEax
  let _ ← syscallTable write r.origEax

def syscallPostHandler (r : Regs) (mem : Memory) : Prog State Unit := do
  match ← syscallTable write r.origEax with
  | none => throw (.fatal "LOG_SYSCALL" "no such syscall post-handler: %d\n")
  | some post => post r mem

/-- A completed call: the registers at entry, the result, and the user memory
once the kernel has returned. -/
structure Call where
  regs : Regs
  result : Int32
  mem : Memory

/-- The registers as the post handler sees them. -/
def Call.regsAfter (c : Call) : Regs := { c.regs with eax := c.result }

def wrappedSyscall (c : Call) : Prog State Unit := do
  syscallPreHandler write c.regs
  syscallPostHandler write c.regsAfter c.mem

end Write

end Snitchaser.SyscallLog.Model
