import Snitchaser.Defs
import Snitchaser.Lib.AddressSpace
import Snitchaser.Lib.Program
/-!
# `xmalloc` and its family

The allocator of `snitchaser_main.c`: every block is a mapping of its own.  What the
kernel answers to `mmap` is part of each call; an error is the negated error number, as
an unsigned word.
-/

namespace Snitchaser.Xmalloc.Model

open Snitchaser.Defs
open Snitchaser.Lib.AddressSpace
open Snitchaser.Lib.Program

/-! ## The kernel -/

/-- The bytes of the pages that hold `n` bytes. -/
def pageUp (n : Nat) : Nat := (n + 4095) / 4096 * 4096

inductive Answer where
  | addr (a : Nat)
  | errno (e : Nat)
  deriving DecidableEq, Repr

/-- What the caller gets. -/
def Answer.value : Answer → Nat
  | addr a => a
  | errno e => 2 ^ 32 - e

/-- The address space, and the blocks that were handed out and not given back. -/
structure State where
  space : Space
  live : List (Nat × Nat)

def zeroCell : Option Cell := some ⟨0, true⟩

/-- `mmap` of private anonymous memory. -/
def sysMmap (ans : Answer) (length : Nat) : Prog State Nat := do
  match ans with
  | .addr a => modify fun s => { s with space := replace s.space a (pageUp length) fun _ => zeroCell }
  | .errno _ => pure ()
  pure ans.value

/-- `munmap`; -22 is `-EINVAL`. -/
def sysMunmap (addr length : Nat) : Prog State Int := do
  if addr % 4096 ≠ 0 ∨ length = 0 then
    pure (-22)
  else
    modify fun s => { s with space := replace s.space addr (pageUp length) fun _ => none }
    pure 0

/-- `mremap`: the cells move to the address in the answer. -/
def sysMremap (ans : Answer) (addr oldLen newLen : Nat) : Prog State Nat := do
  match ans with
  | .addr a => modify fun s =>
      { s with space :=
          replace (replace s.space addr (pageUp oldLen) fun _ => none) a (pageUp newLen) fun i =>
            if i < pageUp oldLen then s.space (addr + i) else zeroCell }
  | .errno _ => pure ()
  pure ans.value

/-! ## The code -/

def isValidPtr (p : Nat) : Bool := decide (0x1000 < p)

def xcalloc (ans : Answer) (nmenb size : Nat) : Prog State Nat := do
  assertThat (0 < nmenb) "nmenb > 0"
  assertThat (0 < size) "size > 0"
  let sz := alignUp (nmenb * size % 2 ^ 32) 4
  let ptr ← sysMmap ans sz
  assertThat (isValidPtr ptr) "is_valid_ptr(ptr)"
  pure ptr

def xmalloc (ans : Answer) (size : Nat) : Prog State Nat := do
  assertThat (0 < size) "size > 0"
  let sz := alignUp size 4
  let ptr ← sysMmap ans sz
  assertThat (isValidPtr ptr) "is_valid_ptr(ptr)"
  pure ptr

def xfree (ptr size : Nat) : Prog State Unit := do
  assertThat (isValidPtr ptr) "is_valid_ptr(ptr)"
  let sz := alignUp size 4
  let err ← sysMunmap ptr sz
  assertThat (err = 0) "err == 0"

/-- The local `ptr` is what the first test looks at. -/
def xrealloc (ans : Answer) (oldPtr oldSize size : Nat) : Prog State Nat := do
  let ptr := 0
  if ptr = 0 then
    xmalloc ans size
  else do
    if size = 0 ∧ ptr ≠ 0 then
      xfree oldPtr oldSize
    if oldSize < size then do
      let size := alignUp size 4
      let ptr ← sysMremap ans oldPtr oldSize size
      assertThat (isValidPtr ptr) "is_valid_ptr(ptr)"
      pure ptr
    else
      pure oldPtr

/-! ## Runs -/

/-- A call with the answer to the `mmap` in it. -/
inductive Call where
  | malloc (size : Nat) (ans : Answer)
  | calloc (nmenb size : Nat) (ans : Answer)
  | realloc (oldPtr oldSize size : Nat) (ans : Answer)
  | free (ptr size : Nat)
  deriving DecidableEq, Repr

def track (ptr size : Nat) : Prog State Unit :=
  modify fun s => { s with live := (ptr, size) :: s.live }

def untrack (ptr size : Nat) : Prog State Unit :=
  modify fun s => { s with live := s.live.erase (ptr, size) }

def call : Call → Prog State Nat
  | .malloc size ans => do
      let ptr ← xmalloc ans size
      track ptr size
      pure ptr
  | .calloc nmenb size ans => do
      let ptr ← xcalloc ans nmenb size
      track ptr (nmenb * size)
      pure ptr
  | .realloc oldPtr oldSize size ans => do
      let ptr ← xrealloc ans oldPtr oldSize size
      untrack oldPtr oldSize
      track ptr size
      pure ptr
  | .free ptr size => do
      xfree ptr size
      untrack ptr size
      pure 0

/-- What the kernel can answer to `mmap` of `length` bytes: an error number, or a free range
of pages below the addresses that stand for errors. -/
def Answer.Possible (s : State) (length : Nat) : Answer → Prop
  | .errno e => 1 ≤ e ∧ e ≤ 4095
  | .addr a => 0 < length ∧ a ≠ 0 ∧ a % 4096 = 0 ∧ a + pageUp length ≤ 2 ^ 32 - 4096 ∧
      ∀ i < pageUp length, s.space (a + i) = none

/-- The arguments are of type `size_t`, what is given back or resized is a live block (or
NULL), and the answer of the kernel is one it can give. -/
def Call.Possible (s : State) : Call → Prop
  | .malloc size ans => size < 2 ^ 32 ∧ (0 < size → ans.Possible s (alignUp size 4))
  | .calloc nmenb size ans => nmenb < 2 ^ 32 ∧ size < 2 ^ 32 ∧
      (0 < nmenb → 0 < size → ans.Possible s (alignUp (nmenb * size % 2 ^ 32) 4))
  | .realloc oldPtr oldSize size ans => size < 2 ^ 32 ∧
      (oldPtr = 0 ∨ (oldPtr, oldSize) ∈ s.live) ∧ (0 < size → ans.Possible s (alignUp size 4))
  | .free ptr size => (ptr, size) ∈ s.live

/-- Each call of the run is possible when it is its turn. -/
def Possible : List Call → State → Prop
  | [], _ => True
  | c :: cs, s => c.Possible s ∧ ∀ p t, call c s = .ok p t → Possible cs t

end Snitchaser.Xmalloc.Model
