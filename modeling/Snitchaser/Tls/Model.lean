import Snitchaser.Defs
import Snitchaser.Lib.Transition
import Snitchaser.Mutex.Model
import Snitchaser.Pages
import Snitchaser.Tls.Bithacks
import Mathlib.Logic.Function.Basic
/-!
# Thread-local areas and their descriptor slots

`alloc_tls_area` and `dealloc_tls_area` of `tls.c`.  Three records of a slot are kept side
by side: a bit of `thread_map`, the `nr` of a `tls_desc` on `tls_list`, and an entry of the
process's local descriptor table.  What the kernel answers is a parameter of each call.

`tls_list` is the list of descriptor addresses from the head on.  The page
protection of the lowest page of an area is no part of the state.
-/

namespace Snitchaser.Tls.Model

open Snitchaser.Defs
open Snitchaser.Lib.Hoare
open Snitchaser.Lib.Program
open Snitchaser.Lib.Transition
open Snitchaser.Mutex.Model (xmutexLock xmutexUnlock)
open Snitchaser.Pages
open Snitchaser.Tls.Bithacks

def ldtEntries : Nat := 8192

def maxThreads : Nat := ldtEntries

/-- `MAX_THREADS / sizeof(uint32_t)`, the number of words of `thread_map`. -/
def szMap : Nat := maxThreads / 4

structure UserDesc where
  entryNumber : Int
  baseAddr : Nat
  limit : Nat
  seg32bit : Nat
  contents : Nat
  readExecOnly : Nat
  limitInPages : Nat
  segNotPresent : Nat
  useable : Nat
  deriving DecidableEq, Repr

structure TlsDesc where
  fsVal : Nat
  nr : Int
  startAddr : Nat
  size : Nat
  deriving DecidableEq, Repr

structure State where
  threadMap : Nat → BitVec 32
  tlsLocked : Bool
  tlsList : List Nat
  tlsDesc : Nat → TlsDesc
  ldt : Int → Option UserDesc

/-- The kernel's answers to the calls one allocation or deallocation makes. -/
structure Kernel where
  mmap : Nat → Nat
  munmap : Nat → Nat → Int
  modifyLdt : UserDesc → Int

def getTlsDesc (a : Nat) : Nat := a + tlsAreaSize - sizeofTlsDesc

/-! ## Slots -/

def setWord (i : Nat) (w : BitVec 32) (s : State) : State :=
  { s with threadMap := Function.update s.threadMap i w }

def findSetFreeSlotFrom (i : Nat) : Nat → Prog State Int
  | 0 => throw (.fatal "TLS" "TLS slots is full\n")
  | left + 1 => do
      let s ← get
      if s.threadMap i ≠ 0xffffffff#32 then
        let n : Int := i * 32 + last0Pos (s.threadMap i)
        set (setWord i (setLast0 (s.threadMap i)) s)
        pure n
      else
        findSetFreeSlotFrom (i + 1) left

def findSetFreeSlot : Prog State Int := do
  let s ← get
  assertThat s.tlsLocked "xmutex_is_locked(&tls_lock)"
  findSetFreeSlotFrom 0 szMap

def clearSlot (tnr : Nat) : Prog State Unit := do
  let nr := tnr / 32
  let n := tnr % 32
  modify fun s => setWord nr (unsetBitN (s.threadMap nr) n) s

/-! ## The descriptor table -/

def writeLdt (k : Kernel) (desc : UserDesc) : Prog State Unit := do
  let err := k.modifyLdt desc
  if err = 0 then
    modify fun s => { s with ldt := Function.update s.ldt desc.entryNumber (some desc) }
  assertThat (err = 0) "err == 0"

def setDesc (td : Nat) (d : TlsDesc) (s : State) : State :=
  { s with tlsDesc := Function.update s.tlsDesc td d }

/-- The entry `setup_ldt` writes for slot `nr`. -/
def slotDesc (startAddr : Nat) (nr : Int) : UserDesc where
  entryNumber := nr
  baseAddr := startAddr
  limit := nrTlsPages
  seg32bit := 1
  contents := 0
  readExecOnly := 0
  limitInPages := 1
  segNotPresent := 0
  useable := 1

/-- `nr * 8 + 4 + 3` stored in a `uint16_t`. -/
def fsValOf (nr : Int) : Nat := ((nr * 8 + 4 + 3) % 65536).toNat

def setupLdt (k : Kernel) (td : Nat) (nr : Int) : Prog State Unit := do
  assertThat (td ≠ 0) "td != NULL"
  let s ← get
  writeLdt k (slotDesc (s.tlsDesc td).startAddr nr)
  modify fun s => setDesc td { s.tlsDesc td with nr := nr, fsVal := fsValOf nr } s

def emptyDesc (nr : Int) : UserDesc where
  entryNumber := nr
  baseAddr := 0
  limit := 0
  seg32bit := 0
  contents := 0
  readExecOnly := 1
  limitInPages := 0
  segNotPresent := 1
  useable := 0

def clearLdt (k : Kernel) (td : Nat) : Prog State Unit := do
  assertThat (td ≠ 0) "td != NULL"
  let s ← get
  let nr := (s.tlsDesc td).nr
  assertThat (nr * 8 + 4 + 3 = (s.tlsDesc td).fsVal) "nr * 8 + 4 + 3 == td->fs_val"
  writeLdt k (emptyDesc nr)

/-! ## Areas -/

def onTlsLock (p : Prog Bool Unit) : Prog State Unit :=
  zoom State.tlsLocked (fun taken s => { s with tlsLocked := taken }) p

def sysMmap (k : Kernel) (len _prot : Nat) : Prog State Nat := pure (k.mmap len)

def sysMunmap (k : Kernel) (addr len : Nat) : Prog State Int := pure (k.munmap addr len)

def allocTlsArea (k : Kernel) : Prog State Nat := do
  onTlsLock xmutexLock
  let pages ← xallocPages (sysMmap k) tlsAreaSize false
  let td := getTlsDesc pages
  modify fun s =>
    setDesc td { s.tlsDesc td with startAddr := pages, size := tlsAreaSize } s
  let nr ← findSetFreeSlot
  setupLdt k td nr
  modify fun s => { s with tlsList := td :: s.tlsList }
  onTlsLock xmutexUnlock
  pure td

def deallocTlsAreaNolock (k : Kernel) (td : Nat) : Prog State Unit := do
  assertThat (td ≠ 0) "td != NULL"
  let s ← get
  assertThat (getTlsDesc (s.tlsDesc td).startAddr = td)
    "get_tls_desc(td->start_addr) == td"
  assertThat ((s.tlsDesc td).size = tlsAreaSize) "td->size == TLS_AREA_SIZE"
  modify fun s => { s with tlsList := s.tlsList.erase td }
  clearLdt k td
  -- the int slot number becomes the unsigned argument of clear_slot
  clearSlot ((s.tlsDesc td).nr % 2 ^ 32).toNat
  xdeallocPages (sysMunmap k) (s.tlsDesc td).startAddr (s.tlsDesc td).size

def deallocTlsArea (k : Kernel) (td : Nat) : Prog State Unit := do
  onTlsLock xmutexLock
  deallocTlsAreaNolock k td
  onTlsLock xmutexUnlock

/-! ## Runs -/

/-- The program's state and the areas its callers hold: those an allocation has
returned and no deallocation has taken back. -/
structure Run where
  st : State
  live : List Nat

/-- The kernel's `mmap` returns a range that meets no live area. -/
def Fresh (r : Run) (pages : Nat) : Prop :=
  ∀ td ∈ r.live, pages + tlsAreaSize ≤ (r.st.tlsDesc td).startAddr ∨
    (r.st.tlsDesc td).startAddr + tlsAreaSize ≤ pages

/-- One returning call.  A deallocation is given a live area. -/
inductive Step : Run → Run → Prop where
  | alloc (r : Run) (k : Kernel) (td : Nat) (t : State)
      (hfresh : Fresh r (k.mmap (alignUp tlsAreaSize pageSize)))
      (h : allocTlsArea k r.st = .ok td t) : Step r ⟨t, td :: r.live⟩
  | dealloc (r : Run) (k : Kernel) (td : Nat) (t : State) (hlive : td ∈ r.live)
      (h : deallocTlsArea k td r.st = .ok () t) : Step r ⟨t, r.live.erase td⟩

/-- No slot in use, no area, the lock free; the words of unused descriptors and
the descriptor table are whatever the process starts with. -/
def system : System Run where
  init r := (∀ i, r.st.threadMap i = 0) ∧ r.st.tlsLocked = false ∧ r.st.tlsList = [] ∧
    r.live = []
  step := Step

/-- Bit `n` of `thread_map`. -/
def slotBit (map : Nat → BitVec 32) (n : Nat) : Bool := (map (n / 32)).getLsbD (n % 32)

end Snitchaser.Tls.Model
