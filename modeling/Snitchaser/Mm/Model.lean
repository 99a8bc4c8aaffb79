import Mathlib.Logic.Function.Basic
import Snitchaser.Lib.Carving
import Snitchaser.Lib.Transition
import Snitchaser.Pages
/-!
# The bucket allocator

`init_mm_obj`, `alloc_obj` and `clean_mm_obj` of `mm.c`.  A bucket is 32 MB of
pages with its header at the lower end; a block is cut off behind what the bucket
has given away before, and only the whole allocator is ever freed.

`buk_list` is the list of bucket addresses from the head on.  Pointers and sizes
are 32 bits wide, a NULL pointer is 0.  The system calls record in the state what
they have mapped and unmapped.
-/

namespace Snitchaser.Mm.Model

open Snitchaser.Defs
open Snitchaser.Lib.Carving
open Snitchaser.Lib.Program
open Snitchaser.Lib.Transition
open Snitchaser.Pages

def objBucketSize : Nat := 32 * (1 <<< 20)

/-- `sizeof(struct obj_buk_head)`: two list pointers and five words. -/
def sizeofObjBukHead : Nat := 28

def maxAvalObjSize : Nat := objBucketSize - sizeofObjBukHead

structure ObjBukHead where
  bukAddr : Nat
  bukEnd : Nat
  curPtr : Nat
  totalSize : Nat
  avalSize : Nat
  deriving DecidableEq, Repr

inductive SysCall where
  | mmap (addr len : Nat)
  | munmap (addr len : Nat)
  deriving DecidableEq, Repr

/-- `struct obj_mm_tpd_stub` and the bucket headers it leads to. -/
structure State where
  bukList : List Nat
  curBuk : Nat
  executable : Bool
  head : Nat → ObjBukHead
  sys : List SysCall

/-- The kernel's answers to the calls of one operation; a mapping is asked for by its
length and its protection. -/
structure Kernel where
  mmap : Nat → Nat → Nat
  munmap : Nat → Nat → Int

def setHead (buk : Nat) (h : ObjBukHead) (s : State) : State :=
  { s with head := Function.update s.head buk h }

def record (call : SysCall) (s : State) : State := { s with sys := s.sys ++ [call] }

/-- The negative number of an error is no page address. -/
def sysMmap (k : Kernel) (len prot : Nat) : Prog State Nat := do
  let addr := k.mmap len prot
  if isValidPage addr then modify (record (.mmap addr len))
  pure addr

def sysMunmap (k : Kernel) (addr len : Nat) : Prog State Int := do
  let err := k.munmap addr len
  if err = 0 then modify (record (.munmap addr len))
  pure err

/-- The header a pointer leads to. -/
def headOf (buk : Nat) : Prog State ObjBukHead := do
  if buk = 0 then throw .fault
  let s ← get
  pure (s.head buk)

/-! ## Buckets -/

/-- The header `alloc_obj_buk` writes. -/
def newHead (mem : Nat) : ObjBukHead :=
  let curPtr := (mem + sizeofObjBukHead) % 2 ^ 32
  let bukEnd := (mem + objBucketSize) % 2 ^ 32
  { bukAddr := mem
    bukEnd := bukEnd
    curPtr := curPtr
    totalSize := sub32 bukEnd curPtr
    avalSize := sub32 bukEnd curPtr }

def allocObjBuk (k : Kernel) (executable : Bool) : Prog State Nat := do
  let mem ← xallocPages (sysMmap k) objBucketSize executable
  assertThat (mem ≠ 0) "mem != NULL"
  modify (setHead mem (newHead mem))
  pure mem

def freeObjBuk (k : Kernel) (buk : Nat) : Prog State Unit := do
  assertThat (buk ≠ 0) "buk != NULL"
  let h ← headOf buk
  assertThat (h.bukAddr ≠ 0) "buk->buk_addr != NULL"
  xdeallocPages (sysMunmap k) h.bukAddr objBucketSize

def allocFromBuk (buk size : Nat) : Prog State Nat := do
  if buk = 0 then
    pure 0
  else
    let h ← headOf buk
    if h.avalSize < size then
      pure 0
    else
      let curPtr := (h.curPtr + size) % 2 ^ 32
      modify (setHead buk { h with curPtr := curPtr })
      assertThat (curPtr < h.bukEnd) "buk->cur_ptr < buk->buk_end"
      modify (setHead buk { h with curPtr := curPtr, avalSize := sub32 h.avalSize size })
      pure h.curPtr

/-! ## The allocator -/

def initMmObj (executable : Bool) : Prog State Unit :=
  modify fun s => { s with bukList := [], curBuk := 0, executable := executable }

/-- `list_for_each_entry_safe` visits the buckets that were on the list when it began.
The `memset` leaves no list at all, which is the same as an empty one to
`init_mm_obj`, the only function that may be called next. -/
def cleanMmObj (k : Kernel) : Prog State Unit := do
  let s ← get
  forM s.bukList fun buk => do
    modify fun s => { s with bukList := s.bukList.erase buk }
    freeObjBuk k buk
  modify fun s => { s with bukList := [], curBuk := 0, executable := false }

/-- The loop of `alloc_obj`: `max_buk` and `max_aval`. -/
def biggest (head : Nat → ObjBukHead) (bukList : List Nat) : Nat × Nat :=
  bukList.foldl
    (fun best buk =>
      if best.2 < (head buk).avalSize then (buk, (head buk).avalSize) else best)
    (0, 0)

/-- The second path: a bucket other than the current one that has more than enough. -/
def allocFromMax (curBuk maxBuk size : Nat) : Prog State Nat := do
  let ptr ← allocFromBuk maxBuk size
  assertThat (ptr ≠ 0) "ptr != NULL"
  let max ← headOf maxBuk
  let cur ← headOf curBuk
  if cur.avalSize < max.avalSize then
    modify fun s => { s with curBuk := maxBuk }
  pure ptr

/-- The third path: a new bucket. -/
def allocFromNew (k : Kernel) (maxBuk size : Nat) : Prog State Nat := do
  let s ← get
  let newBuk ← allocObjBuk k s.executable
  assertThat (newBuk ≠ 0) "new_buk != NULL"
  modify fun s => { s with bukList := newBuk :: s.bukList }
  let ptr ← allocFromBuk newBuk size
  assertThat (ptr ≠ 0) "ptr != NULL"
  let s ← get
  let maxBuk :=
    if maxBuk = 0 ∨ (s.head maxBuk).avalSize < (s.head newBuk).avalSize then newBuk else maxBuk
  assertThat (maxBuk ≠ 0) "max_buk != NULL"
  modify fun s => { s with curBuk := maxBuk }
  pure ptr

/-- `alloc_obj` behind the fast path, which has left the state as it was. -/
def allocSlow (k : Kernel) (size : Nat) : Prog State Nat := do
  let s ← get
  let max := (biggest s.head s.bukList).1
  if max ≠ 0 ∧ max ≠ s.curBuk ∧ size < (s.head max).avalSize then
    allocFromMax s.curBuk max size
  else
    allocFromNew k max size

def allocObj (k : Kernel) (size : Nat) : Prog State Nat := do
  if maxAvalObjSize ≤ size then
    throw (.fatal "MEM" "allocing object (%ld bytes) too large (limitation is %ld)\n")
  assertThat (0 < size) "size > 0"
  let s ← get
  let ptr ← allocFromBuk s.curBuk size
  if ptr ≠ 0 then
    pure ptr
  else
    allocSlow k size

/-! ## Runs -/

/-- The allocator and the blocks it has returned, the newest first. -/
structure Run where
  st : State
  blocks : List Block

/-- A bucket at `m` has 32-bit addresses and meets no other bucket. -/
structure Fresh (s : State) (m : Nat) : Prop where
  word : m + objBucketSize ≤ 2 ^ 32
  apart : ∀ buk ∈ s.bukList, m + objBucketSize ≤ buk ∨ buk + objBucketSize ≤ m

/-- One returning call.  If it has mapped a range, the range was fresh. -/
inductive Step : Run → Run → Prop where
  | alloc (r : Run) (k : Kernel) (size p : Nat) (t : State)
      (hfresh : ∀ m, t.sys = r.st.sys ++ [.mmap m objBucketSize] → Fresh r.st m)
      (h : allocObj k size r.st = .ok p t) : Step r ⟨t, ⟨p, size⟩ :: r.blocks⟩

/-- Calls of `alloc_obj` after one of `init_mm_obj`. -/
def system : System Run where
  init r := ∃ executable s, s.sys = [] ∧ initMmObj executable s = .ok () r.st ∧ r.blocks = []
  step := Step

end Snitchaser.Mm.Model
