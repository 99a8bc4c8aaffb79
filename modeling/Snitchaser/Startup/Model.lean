import Mathlib.Logic.Function.Basic
import Snitchaser.Elf.Model
import Snitchaser.Lib.Words
/-!
# The startup stack

`scan_startup_stack` of `startup_stack.c` and the part of `xmain` that works on the
stack.  The loader has been started as a program: it replaces, in its own startup
stack, what describes the loader by what describes the program it has loaded, and
drops its own argument by letting the stack begin one word later.

The state has the stack's bytes, readable and writable from `low` to `high`; an
access elsewhere faults.  What `load_elf` returns is a parameter.  `reexec`, which
leaves the stack alone or does not return, is left out.
-/

namespace Snitchaser.Startup.Model

open Snitchaser.Elf.Model (Loaded sizeofElfPhdr)
open Snitchaser.Lib.ByteMemory
open Snitchaser.Lib.Program
open Snitchaser.Lib.Words

def atNull : Nat := 0

def atPhdr : Nat := 3

def atPhent : Nat := 4

def atPhnum : Nat := 5

def atBase : Nat := 7

def atEntry : Nat := 9

def atExecfn : Nat := 31

def atSysinfo : Nat := 32

def atSysinfoEhdr : Nat := 33

/-- The members of `struct auxv_info`: pointers to values of the auxiliary vector. -/
inductive AuxField where
  | userEntry
  | base
  | userPhdrs
  | nrUserPhdrs
  | execfn
  | sysinfo
  | sysinfoEhdr
  deriving DecidableEq, Repr

/-- The table of `set_auxvinfo`. -/
def AuxField.type : AuxField → Nat
  | userEntry => atEntry
  | base => atBase
  | userPhdrs => atPhdr
  | nrUserPhdrs => atPhnum
  | execfn => atExecfn
  | sysinfo => atSysinfo
  | sysinfoEhdr => atSysinfoEhdr

/-- The `switch` of `init_auxv_info`. -/
def AuxField.ofType (t : Nat) : Option AuxField :=
  if t = atEntry then some userEntry
  else if t = atBase then some base
  else if t = atPhdr then some userPhdrs
  else if t = atPhnum then some nrUserPhdrs
  else if t = atExecfn then some execfn
  else if t = atSysinfo then some sysinfo
  else if t = atSysinfoEhdr then some sysinfoEhdr
  else none

/-- `struct startup_stack_info`; a NULL pointer is 0. -/
structure StackInfo where
  pArgc : Nat
  pArgs : Nat
  pEnvs : Nat
  pAuxvs : Nat
  cmdlineArgbegin : Nat
  cmdlineArgend : Nat
  envbegin : Nat
  envend : Nat
  bottomExecFn : Nat
  auxvInfo : AuxField → Nat

structure State where
  mem : Memory
  low : Nat
  high : Nat
  /-- `startup_stack->stack_top`, kept below the stack. -/
  stackTop : Nat
  info : StackInfo
  vsyscallEntry : Nat

/-! ## Memory -/

def load (a : Nat) : Prog State Nat := do
  let s ← get
  if s.low ≤ a ∧ a + 4 ≤ s.high then pure (word s.mem a) else throw .fault

def loadByte (a : Nat) : Prog State UInt8 := do
  let s ← get
  if s.low ≤ a ∧ a < s.high then pure (s.mem a) else throw .fault

def store (a v : Nat) : Prog State Unit := do
  let s ← get
  if s.low ≤ a ∧ a + 4 ≤ s.high then
    set { s with mem := setWord s.mem a v }
  else
    throw .fault

def setInfo (f : StackInfo → StackInfo) : Prog State Unit :=
  modify fun s => { s with info := f s.info }

/-- An `int` in a word. -/
def asInt (w : Nat) : Int := if w < 2 ^ 31 then w else (w : Int) - 2 ^ 32

/-! ## Scanning

The bound of a loop is one more than the end of the stack.  A loop reads a higher
address in each round, so it ends or faults before it comes to the bound. -/

/-- The address of the first NULL pointer from `ptr` on. -/
def skipPointers : Nat → Nat → Prog State Nat
  | 0, _ => throw .fuel
  | fuel + 1, ptr => do
      let p ← load ptr
      if p ≠ 0 then skipPointers fuel (ptr + 4) else pure ptr

/-- `str + strlen(str)`. -/
def skipString : Nat → Nat → Prog State Nat
  | 0, _ => throw .fuel
  | fuel + 1, str => do
      let c ← loadByte str
      if c ≠ 0 then skipString fuel (str + 1) else pure str

/-- The address of the first byte other than 0 from `cptr` on. -/
def skipZeros : Nat → Nat → Prog State Nat
  | 0, _ => throw .fuel
  | fuel + 1, cptr => do
      let c ← loadByte cptr
      if c = 0 then skipZeros fuel (cptr + 1) else pure cptr

/-- One round of `init_auxv_info`. -/
def auxvEntry (t p : Nat) : Prog State Unit :=
  match AuxField.ofType t with
  | some f => setInfo fun i => { i with auxvInfo := Function.update i.auxvInfo f (p + 4) }
  | none =>
      if t = atPhent then do
        let v ← load (p + 4)
        assertThat (v = sizeofElfPhdr) "p[1] == sizeof(struct elf_phdr)"
      else
        pure ()

def initAuxvLoop : Nat → Nat → Prog State Unit
  | 0, _ => throw .fuel
  | fuel + 1, p => do
      let t ← load p
      if t ≠ atNull then do
        auxvEntry t p
        initAuxvLoop fuel (p + 8)
      else
        pure ()

def initAuxvInfo : Prog State Unit := do
  let s ← get
  assertThat (s.info.pAuxvs ≠ 0) "STACK_INFO(p_auxvs) != NULL"
  initAuxvLoop (s.high + 1) s.info.pAuxvs

/-- The end of `scan_startup_stack`: where the strings are. -/
def scanStrings (argc : Int) (firstenv lastenv : Nat) : Prog State Unit := do
  let s ← get
  let firstarg ← load s.info.pArgs
  let lastarg ← load (s.info.pArgs + 4 * (argc - 1)).toNat
  let argNul ← skipString (s.high + 1) lastarg
  let envNul ← skipString (s.high + 1) lastenv
  let cptr ← skipZeros (s.high + 1) (envNul + 1)
  setInfo fun i =>
    { i with
      cmdlineArgbegin := firstarg
      cmdlineArgend := argNul + 1
      envbegin := firstenv
      envend := envNul + 1
      bottomExecFn := cptr }

def scanStartupStack (stackTop : Nat) : Prog State Unit := do
  let fuel := (← get).high + 1
  let argc := asInt (← load stackTop)
  let pArgs := stackTop + 4
  setInfo fun i => { i with pArgc := stackTop, pArgs := pArgs }
  let argsEnd ← skipPointers fuel pArgs
  let pEnvs := argsEnd + 4
  setInfo fun i => { i with pEnvs := pEnvs }
  let firstenv ← load pEnvs
  let envsEnd ← skipPointers fuel pEnvs
  let lastenv ← load (envsEnd - 4)
  setInfo fun i => { i with pAuxvs := envsEnd + 4 }
  initAuxvInfo
  scanStrings argc firstenv lastenv

/-! ## The entry of the vsyscall -/

def setVsyscallLoop (newEntry : Nat) : Nat → Nat → Prog State Unit
  | 0, _ => throw .fuel
  | fuel + 1, auxv => do
      let t ← load auxv
      if t ≠ atNull then do
        if t = atSysinfo then store (auxv + 4) newEntry
        setVsyscallLoop newEntry fuel (auxv + 8)
      else
        pure ()

def setVsyscallEntry (envp newEntry : Nat) : Prog State Unit := do
  let fuel := (← get).high + 1
  let nul ← skipPointers fuel envp
  setVsyscallLoop newEntry fuel (nul + 4)

/-- Without an entry the process exits. -/
def getVsyscallLoop : Nat → Nat → Prog State Nat
  | 0, _ => throw .fuel
  | fuel + 1, auxv => do
      let t ← load auxv
      if t ≠ atNull then
        if t = atSysinfo then load (auxv + 4) else getVsyscallLoop fuel (auxv + 8)
      else
        throw (.exit 1)

def getVsyscallEntry (envp : Nat) : Prog State Nat := do
  let fuel := (← get).high + 1
  let nul ← skipPointers fuel envp
  getVsyscallLoop fuel (nul + 4)

/-! ## Loading the program -/

/-- What `load_elf` stores through its pointers. -/
def storeLoaded (exec : Loaded) (ppPhdrs pNrPhdrs : Nat) : Prog State Unit := do
  store ppPhdrs exec.phdrs
  store pNrPhdrs exec.nrPhdrs

/-- The stack without its first argument. -/
def dropArgument : Prog State Unit := do
  let i := (← get).info
  let argc := asInt (← load i.pArgc)
  assertThat (2 ≤ argc) "argc >= 2"
  store i.pArgs (argc - 1).toNat
  setInfo fun i => { i with pArgc := i.pArgs, pArgs := i.pArgs + 4 }
  modify fun s => { s with stackTop := s.info.pArgc }

/-- Whether an interpreter is needed, and the entry.  `start` is the address of the
loader's `_start`. -/
def loadExec (start : Nat) (exec : Loaded) : Prog State (Bool × Nat) := do
  let i := (← get).info
  assertThat (i.auxvInfo .userPhdrs ≠ 0) "STACK_AUXV_INFO(pp_user_phdrs) != NULL"
  assertThat (i.auxvInfo .nrUserPhdrs ≠ 0) "STACK_AUXV_INFO(p_nr_user_phdrs) != NULL"
  assertThat (i.auxvInfo .userEntry ≠ 0) "STACK_AUXV_INFO(p_user_entry) != NULL"
  let userEntry ← load (i.auxvInfo .userEntry)
  if start ≠ userEntry then
    pure (true, userEntry)
  else
    let fn ← load (i.pArgs + 4)
    if fn = 0 then
      throw (.fatal "SYSTEM" "Usage: %s EXECUTABLE-FILE [ARGS-FOR-PROGRAM...]\n")
    storeLoaded exec (i.auxvInfo .userPhdrs) (i.auxvInfo .nrUserPhdrs)
    assertThat (exec.entry ≠ 0) "entry != NULL"
    store (i.auxvInfo .execfn) fn
    store (i.auxvInfo .userEntry) exec.entry
    dropArgument
    pure (exec.needInterp, exec.entry)

def loadRealInterp (interp : Loaded) : Prog State Nat := do
  assertThat (interp.entry ≠ 0) "entry != NULL"
  pure interp.entry

def setInterpRetaddr (stktop addr : Nat) : Prog State Unit := store (stktop - 4) addr

/-- What two `VERBOSE` lines of `xmain` load for their arguments.  Unlike `DEBUG` and
`TRACE` they are there in every build. -/
def verboseVdso : Prog State Unit := do
  let i := (← get).info
  let _ ← load (i.auxvInfo .sysinfo)
  let _ ← load (i.auxvInfo .sysinfoEhdr)

/-- The part of `xmain` that works on the stack.  `exec` and `interp` are what
`load_elf` finds for the program and for the interpreter. -/
def xmain (start wrappedSyscallEntry : Nat) (exec interp : Loaded) : Prog State Unit := do
  scanStartupStack (← get).stackTop
  verboseVdso
  let vsyscallEntry ← getVsyscallEntry (← get).info.pEnvs
  modify fun s => { s with vsyscallEntry := vsyscallEntry }
  setVsyscallEntry (← get).info.pEnvs wrappedSyscallEntry
  verboseVdso
  let (needInterp, entry) ← loadExec start exec
  let entryAddr ← if needInterp then loadRealInterp interp else pure entry
  setInterpRetaddr (← get).stackTop entryAddr

/-! ## What a startup stack is -/

/-- The vectors the kernel leaves at the top of the stack of a new process. -/
structure Vectors where
  args : List Nat
  envs : List Nat
  auxv : List (Nat × Nat)

def auxWords (auxv : List (Nat × Nat)) : List Nat := auxv.flatMap fun e => [e.1, e.2]

/-- The words up to the type of the last entry, `AT_NULL`. -/
def Vectors.words (v : Vectors) : List Nat :=
  v.args.length :: ((v.args ++ [0]) ++ ((v.envs ++ [0]) ++ (auxWords v.auxv ++ [atNull])))

/-- A string of `n` bytes at `p`, and its NUL. -/
def StringAt (m : Memory) (p n : Nat) : Prop := (∀ i < n, m (p + i) ≠ 0) ∧ m (p + n) = 0

/-- A well-formed startup stack from `top` to `high`: the vectors, behind them the
strings of the arguments and of the environment, and behind those the name of the
executed file. -/
structure IsStartupStack (m : Memory) (top high : Nat) (v : Vectors) : Prop where
  words : WordsAt m top v.words
  args_ne : ∀ p ∈ v.args, p ≠ 0
  envs_ne : ∀ p ∈ v.envs, p ≠ 0
  types_ne : ∀ e ∈ v.auxv, e.1 ≠ atNull
  fits : top + 4 * v.words.length + 4 ≤ high
  high_le : high ≤ 2 ^ 32
  strings : ∀ p ∈ v.args ++ v.envs, ∃ n,
    top + 4 * v.words.length + 4 ≤ p ∧ p + n < high ∧ StringAt m p n
  fileName : ∀ p, v.envs.getLast? = some p → ∃ n x,
    StringAt m p n ∧ p + n < x ∧ x < high ∧ m x ≠ 0

end Snitchaser.Startup.Model
