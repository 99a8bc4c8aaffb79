import Snitchaser.Lib.Hoare
import Snitchaser.Lib.Transition
import Mathlib.Logic.Function.Basic
/-!
# The futex mutex, one atomic step at a time

`xmutex_lock` and `xmutex_unlock` of `mutex.c` over any number of threads that
share one lock word.  A step of the system is one atomic operation on the word,
one `futex` call, the call of one of the two functions, or the return of a
blocked `futex_wait`.  Signal masks and traces do not touch the word and are
left out.

The word is an `Int`: `Safety` shows that it stays in `0, 1, 2`, so the width of
`atomic_t` plays no part.
-/

namespace Snitchaser.Mutex.Model

open Snitchaser.Lib.Hoare
open Snitchaser.Lib.Program
open Snitchaser.Lib.Transition

/-- The place of a thread in the code of the mutex.  Each place inside a
function is named after the operation the thread makes next. -/
inductive Pc where
  | outside
  -- xmutex_lock: the fast path, the body of the loop, the loop test
  | lockCmpxchg
  | markCmpxchg
  | waitCall
  | blocked
  | retryCmpxchg
  | holding
  -- xmutex_unlock
  | unlockDec
  | unlockSet
  | unlockWake
  deriving DecidableEq, Repr

structure State (ι : Type*) where
  val : Int
  pc : ι → Pc

/-- The value `atomic_cmpxchg` returns, and the word it leaves. -/
def atomicCmpxchg (val old new : Int) : Int × Int :=
  (val, if val = old then new else val)

def atomicDecAndTest (val : Int) : Bool × Int :=
  (decide (val - 1 = 0), val - 1)

/-- The loop body with the local `c`: `c == 2` skips the marking exchange. -/
def loopBody (c : Int) : Pc :=
  if c = 2 then .waitCall else .markCmpxchg

/-- The atomic step of a thread at a given place, on a given word.  The places
without an entry move by a call, by the scheduler or by `futex_wake`. -/
def atomicStep (val : Int) : Pc → Option (Int × Pc)
  | .lockCmpxchg =>
      let r := atomicCmpxchg val 0 1
      some (r.2, if r.1 ≠ 0 then loopBody r.1 else .holding)
  | .markCmpxchg =>
      let r := atomicCmpxchg val 1 2
      some (r.2, if r.1 ≠ 0 then .waitCall else .retryCmpxchg)
  | .waitCall =>
      -- futex_wait(&lock->val, 2): the kernel compares and blocks in one step
      some (val, if val = 2 then .blocked else .retryCmpxchg)
  | .retryCmpxchg =>
      let r := atomicCmpxchg val 0 2
      some (r.2, if r.1 ≠ 0 then loopBody r.1 else .holding)
  | .unlockDec =>
      let r := atomicDecAndTest val
      some (r.2, if !r.1 then .unlockSet else .outside)
  | .unlockSet => some (0, .unlockWake)
  | .outside | .blocked | .holding | .unlockWake => none

section System

variable {ι : Type*} [DecidableEq ι]

def State.put (s : State ι) (i : ι) (val : Int) (p : Pc) : State ι :=
  ⟨val, Function.update s.pc i p⟩

/-- One step of the threads.  `futex_wait` may return without a wake;
`futex_wake(&lock->val, 1)` wakes one blocked thread if there is one. -/
inductive Step : State ι → State ι → Prop where
  | callLock (s : State ι) (i : ι) (h : s.pc i = .outside) :
      Step s (s.put i s.val .lockCmpxchg)
  | callUnlock (s : State ι) (i : ι) (h : s.pc i = .holding) :
      Step s (s.put i s.val .unlockDec)
  | atomic (s : State ι) (i : ι) (val : Int) (p : Pc)
      (h : atomicStep s.val (s.pc i) = some (val, p)) : Step s (s.put i val p)
  | spurious (s : State ι) (i : ι) (h : s.pc i = .blocked) :
      Step s (s.put i s.val .retryCmpxchg)
  | wakeOne (s : State ι) (i j : ι) (h : s.pc i = .unlockWake) (hj : s.pc j = .blocked) :
      Step s ((s.put j s.val .retryCmpxchg).put i s.val .outside)
  | wakeNone (s : State ι) (i : ι) (h : s.pc i = .unlockWake)
      (hnone : ∀ j, s.pc j ≠ .blocked) : Step s (s.put i s.val .outside)

/-- Any number of threads on one mutex that starts unlocked. -/
def system (ι : Type*) [DecidableEq ι] : System (State ι) where
  init s := s.val = 0 ∧ ∀ i, s.pc i = .outside
  step := Step

@[simp] theorem State.put_val (s : State ι) (i : ι) (val : Int) (p : Pc) :
    (s.put i val p).val = val := rfl

@[simp] theorem State.put_pc_same (s : State ι) (i : ι) (val : Int) (p : Pc) :
    (s.put i val p).pc i = p := by
  simp [State.put]

theorem State.put_pc_of_ne (s : State ι) {i j : ι} (val : Int) (p : Pc) (h : j ≠ i) :
    (s.put i val p).pc j = s.pc j := by
  simp [State.put, h]

end System

/-! ## Ranges of the program counter -/

/-- Between the return of `xmutex_lock` and the first atomic step of
`xmutex_unlock`. -/
def Pc.holds : Pc → Bool
  | .holding | .unlockDec => true
  | _ => false

def Pc.inUnlock : Pc → Bool
  | .unlockDec | .unlockSet | .unlockWake => true
  | _ => false

/-- Inside `xmutex_lock` and not in `futex_wait`, called or blocked. -/
def Pc.locksAwake : Pc → Bool
  | .lockCmpxchg | .markCmpxchg | .retryCmpxchg => true
  | _ => false

/-! ## What an atomic step can do -/

/-- The outcomes of `atomicStep`, one for each way a comparison can go.  The
invariants are proved over these and do not unfold the operations again. -/
inductive Effect : Int → Pc → Int → Pc → Prop where
  | lockFree : Effect 0 .lockCmpxchg 1 .holding
  | lockBusy {v : Int} (h : v ≠ 0) : Effect v .lockCmpxchg v (loopBody v)
  | markHeld : Effect 1 .markCmpxchg 2 .waitCall
  | markFree : Effect 0 .markCmpxchg 0 .retryCmpxchg
  | markMarked {v : Int} (h₀ : v ≠ 0) (h₁ : v ≠ 1) : Effect v .markCmpxchg v .waitCall
  | waitBlocks : Effect 2 .waitCall 2 .blocked
  | waitReturns {v : Int} (h : v ≠ 2) : Effect v .waitCall v .retryCmpxchg
  | retryFree : Effect 0 .retryCmpxchg 2 .holding
  | retryBusy {v : Int} (h : v ≠ 0) : Effect v .retryCmpxchg v (loopBody v)
  | decLast : Effect 1 .unlockDec 0 .outside
  | decMarked {v : Int} (h : v ≠ 1) : Effect v .unlockDec (v - 1) .unlockSet
  | clear {v : Int} : Effect v .unlockSet 0 .unlockWake

theorem effect_of_atomicStep {v v' : Int} {p p' : Pc}
    (h : atomicStep v p = some (v', p')) : Effect v p v' p' := by
  cases p <;> simp only [atomicStep, atomicCmpxchg, atomicDecAndTest, reduceCtorEq,
    Option.some.injEq, Prod.mk.injEq] at h <;> obtain ⟨rfl, rfl⟩ := h
  case lockCmpxchg =>
    by_cases hv : v = 0
    · subst hv; exact .lockFree
    · simpa [hv] using Effect.lockBusy hv
  case markCmpxchg =>
    by_cases h₀ : v = 0
    · subst h₀; exact .markFree
    · by_cases h₁ : v = 1
      · subst h₁; exact .markHeld
      · simpa [h₀, h₁] using Effect.markMarked h₀ h₁
  case waitCall =>
    by_cases hv : v = 2
    · subst hv; exact .waitBlocks
    · simpa [hv] using Effect.waitReturns hv
  case retryCmpxchg =>
    by_cases hv : v = 0
    · subst hv; exact .retryFree
    · simpa [hv] using Effect.retryBusy hv
  case unlockDec =>
    by_cases hv : v = 1
    · subst hv; exact .decLast
    · have hne : v - 1 ≠ 0 := by omega
      simpa [hne] using Effect.decMarked hv
  case unlockSet => exact .clear

/-! ## The mutex to one thread

Code that is modelled as the run of one thread needs only whether the mutex is taken: a
thread that locks it again waits for itself. -/

def xmutexLock : Prog Bool Unit := do
  if ← get then throw .blocked else set true

def xmutexUnlock : Prog Bool Unit := set false

section OneThread

variable {taken : Bool} {Q : Unit → Bool → Prop} {E : Stop → Prop}

@[simp] theorem ends_xmutexLock :
    Ends xmutexLock taken Q E ↔ (taken = false → Q () true) ∧ (taken = true → E .blocked) := by
  cases taken with
  | false => simp [xmutexLock]
  | true => simp [xmutexLock]

@[simp] theorem ends_xmutexUnlock : Ends xmutexUnlock taken Q E ↔ Q () false := Iff.rfl

@[simp] theorem xmutexLock_ok_iff {taken' : Bool} {u : Unit} :
    xmutexLock taken = .ok u taken' ↔ taken = false ∧ taken' = true := by
  cases taken with
  | false => simp [xmutexLock]
  | true => simp [xmutexLock]

@[simp] theorem xmutexUnlock_ok_iff {taken' : Bool} {u : Unit} :
    xmutexUnlock taken = .ok u taken' ↔ taken' = false := set_ok_iff

end OneThread

end Snitchaser.Mutex.Model
