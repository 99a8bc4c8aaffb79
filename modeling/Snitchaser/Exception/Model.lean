import Mathlib.Logic.Function.Basic
import Snitchaser.Lib.Program
/-!
# TRY, CATCH and THROW

`exception.c` and the macros of `exception.h`.  A `TRY` is a `while` loop whose
condition asks a state machine whether to run the body; `throw_exception` tells the
machine and jumps back to the place in front of the loop.

Programs are syntax trees, run by a machine with an explicit continuation: what is
left to do once the statement at hand is done.  The point `sigsetjmp` records is a
`TRY` with its continuation, and `siglongjmp` goes on from there, with the memory as
it is.  The catchers that `curr_catcher_p` leads to through `prev` are a list.  The
`timestamp` of an exception, which nothing sets, and the place of a throw, kept in
debug builds only, are left out.
-/

namespace Snitchaser.Exception.Model

open Snitchaser.Lib.Program

/-! ## Exceptions -/

/-- `enum exception_type`, with the types of `exception_types.h`. -/
inductive ExceptionType where
  | noException | wrongCkpt | ckptRegionNotFound | fileNotFound | fileReadError | fileWriteError
  | fileEnd | fileCorrupted | lzoInflate | outOfMemory | procMaps | procMapsRegionNotFound
  | ptrace | elf | elfSymbolNotFound | sockpairError | sockpairUnrecoverable | sockpairUnsync
  | sockpairTimeout | restoreChild | gdbserverExit | gdbserverUnderscoreExit
  | gdbserverTargetSignaled | gdbserverError | gdbserverDetach | logCorrupted | logEnd
  | syscallReplayer | unimplemented | io | chdir | fork | unmatchCkpt | wrongInst | childExit
  | uncatchable
  deriving DecidableEq, Repr

inductive ExceptionLevel where
  | none
  | lowest
  | tainted
  | fatal
  | uncatchable
  deriving DecidableEq, Repr

/-- `struct exception_t`; `msg` is the string in the buffer. -/
structure ExceptionT where
  type : ExceptionType
  msg : List UInt8
  xval : UInt32
  throwTimeErrno : Int
  level : ExceptionLevel
  deriving DecidableEq, Repr

/-- A variable of type `struct exception_t`. -/
abbrev Var := Nat

/-- What a program works on.  `user` is all of its own. -/
structure Mem (σ : Type) where
  user : σ
  errno : Int
  exps : Var → ExceptionT

def setExp (e : Var) (x : ExceptionT) {σ : Type} (m : Mem σ) : Mem σ :=
  { m with exps := Function.update m.exps e x }

/-- The arguments of a throw; `text` is what its format and arguments print. -/
structure ThrowArgs where
  type : ExceptionType
  val : UInt32
  level : ExceptionLevel
  text : List UInt8

/-- The string `vsnprintf` leaves in a buffer of `EXCEPTION_MSG_LEN_MAX` bytes. -/
def vsnprintf (text : List UInt8) : List UInt8 := (text.take 511).takeWhile (· ≠ 0)

/-- The exception `__throw_exception` builds. -/
def makeException (errno : Int) (a : ThrowArgs) : ExceptionT where
  type := if a.level = .uncatchable then .uncatchable else a.type
  msg := vsnprintf a.text
  xval := a.val
  throwTimeErrno := errno
  level := a.level

/-- An exception variable as `init_set_exception` leaves it. -/
def cleared : ExceptionT where
  type := .noException
  msg := []
  xval := 0
  throwTimeErrno := 0
  level := .none

/-! ## Programs -/

/-- Statements and conditions may read the exception variables, statements change the
program's own state and `errno`.  `break` and `continue` belong to the nearest `while`
or `TRY` body around them.  There is no `return`. -/
inductive Stmt (σ : Type) where
  | act (f : Mem σ → σ × Int)
  | seq (s t : Stmt σ)
  | ite (cond : Mem σ → Bool) (s t : Stmt σ)
  | loop (cond : Mem σ → Bool) (s : Stmt σ)
  | brk
  | cont
  | throw (args : Mem σ → ThrowArgs)
  | rethrow (e : Var)
  | tryCatch (e : Var) (body fin handler : Stmt σ)

/-- `TRY(exp) body FINALLY fin CATCH(exp) handler`. -/
structure Try (σ : Type) where
  exp : Var
  body : Stmt σ
  fin : Stmt σ
  handler : Stmt σ

/-- What is left to do around a statement. -/
inductive Frame (σ : Type) where
  | seq (t : Stmt σ)
  | loop (cond : Mem σ → Bool) (s : Stmt σ)
  /-- in the body of a `TRY` -/
  | tryBody (t : Try σ)
  /-- behind the `FINALLY` of a `TRY`, with its `CATCH` still to come -/
  | fin (e : Var) (handler : Stmt σ)

/-! ## Catchers -/

inductive CatcherState where
  | init
  | execBody
  | waitFinally
  | thrown
  deriving DecidableEq, Repr

inductive CatcherAction where
  | iter0
  | finally
  | throw
  deriving DecidableEq, Repr

/-- `struct catcher_t`.  `entered` is not in the source: it counts how often the body
was entered. -/
structure Catcher (σ : Type) where
  state : CatcherState
  currExp : Var
  buf : Try σ × List (Frame σ)
  entered : Nat

structure Machine (σ : Type) where
  mem : Mem σ
  currCatcher : List (Catcher σ)

variable {σ : Type}

/-- With the `sigsetjmp` that follows it. -/
def exceptionsStateMcInit (t : Try σ) (k : List (Frame σ)) (m : Machine σ) : Machine σ where
  mem := setExp t.exp cleared m.mem
  currCatcher := ⟨.init, t.exp, (t, k), 0⟩ :: m.currCatcher

def mcFault : Stop := .fatal "SYSTEM" "exp mc: stat=%d(act=%d)\n"

def exceptionsStateMc (action : CatcherAction) : Prog (Machine σ) Bool := do
  let m ← get
  match m.currCatcher with
  | [] => throw (.assertion "c != NULL")
  | c :: prev =>
      let goto (state : CatcherState) : Prog (Machine σ) Unit :=
        set { m with currCatcher := { c with state := state } :: prev }
      match c.state, action with
      | .init, .iter0 => do
          goto .execBody
          pure true
      | .execBody, .iter0 => do
          goto .waitFinally
          pure false
      | .execBody, .throw => do
          goto .thrown
          pure false
      | .execBody, .finally => do
          set { m with currCatcher := prev }
          pure true
      | .waitFinally, .finally => do
          set { m with currCatcher := prev }
          pure true
      | .thrown, .iter0 => do
          goto .waitFinally
          pure false
      | _, _ => throw mcFault

/-- What `print_exception` leaves behind; the text it prints is left out. -/
def printException : Prog (Machine σ) Unit :=
  modify fun m => { m with mem := { m.mem with errno := 0 } }

def outmostScope : Stop := .fatal "SYSTEM" "throw exception from outmost scope\n"

/-- `__throw_exception` up to the jump; it returns the point it jumps to. -/
def throwException (a : ThrowArgs) : Prog (Machine σ) (Try σ × List (Frame σ)) := do
  let m ← get
  match m.currCatcher with
  | [] => do
      printException
      throw outmostScope
  | c :: _ =>
      set { m with mem := setExp c.currExp (makeException m.mem.errno a) m.mem }
      let _ ← exceptionsStateMc .throw
      pure c.buf

/-- `RETHROW(e)`. -/
def rethrowException (e : Var) : Prog (Machine σ) (Try σ × List (Frame σ)) := do
  let x := (← get).mem.exps e
  modify fun m => { m with mem := { m.mem with errno := x.throwTimeErrno } }
  throwException ⟨x.type, x.xval, x.level, x.msg⟩

/-! ## Running a program -/

inductive Control (σ : Type) where
  | run (s : Stmt σ)
  /-- the statement at hand is done -/
  | ret
  /-- at the condition of the loop of a `TRY` -/
  | loopHead (t : Try σ)
  /-- behind the loop, at `FINALLY` -/
  | leave (t : Try σ)
  | finished
  | stop (why : Stop)

structure Config (σ : Type) where
  control : Control σ
  cont : List (Frame σ)
  m : Machine σ

/-- The frames a `break` or `continue` jumps out of. -/
def Frame.inner : Frame σ → Bool
  | seq _ => true
  | loop _ _ => false
  | tryBody _ => false
  | fin _ _ => true

/-- Go on at the point a throw has jumped to. -/
def jump (c : Config σ) (p : Prog (Machine σ) (Try σ × List (Frame σ))) : Config σ :=
  match p c.m with
  | .ok (t, k) m => ⟨.loopHead t, k, m⟩
  | .error e m => ⟨.stop e, c.cont, m⟩

def countEntry : List (Catcher σ) → List (Catcher σ)
  | [] => []
  | c :: prev => { c with entered := c.entered + 1 } :: prev

def runStmt (c : Config σ) : Stmt σ → Config σ
  | .act f =>
      let (user, errno) := f c.m.mem
      ⟨.ret, c.cont, { c.m with mem := { c.m.mem with user := user, errno := errno } }⟩
  | .seq s t => ⟨.run s, .seq t :: c.cont, c.m⟩
  | .ite cond s t => ⟨.run (if cond c.m.mem then s else t), c.cont, c.m⟩
  | .loop cond s =>
      if cond c.m.mem then ⟨.run s, .loop cond s :: c.cont, c.m⟩ else ⟨.ret, c.cont, c.m⟩
  | .brk =>
      match c.cont.dropWhile Frame.inner with
      | .loop _ _ :: k => ⟨.ret, k, c.m⟩
      | .tryBody t :: k => ⟨.leave t, k, c.m⟩
      | k => ⟨.finished, k, c.m⟩
  | .cont =>
      match c.cont.dropWhile Frame.inner with
      | .loop cond s :: k => ⟨.run (.loop cond s), k, c.m⟩
      | .tryBody t :: k => ⟨.loopHead t, k, c.m⟩
      | k => ⟨.finished, k, c.m⟩
  | .throw args => jump c (throwException (args c.m.mem))
  | .rethrow e => jump c (rethrowException e)
  | .tryCatch e body fin handler =>
      let t : Try σ := ⟨e, body, fin, handler⟩
      ⟨.loopHead t, c.cont, exceptionsStateMcInit t c.cont c.m⟩

def resume (c : Config σ) : Config σ :=
  match c.cont with
  | [] => ⟨.finished, [], c.m⟩
  | .seq t :: k => ⟨.run t, k, c.m⟩
  | .loop cond s :: k => ⟨.run (.loop cond s), k, c.m⟩
  | .tryBody t :: k => ⟨.loopHead t, k, c.m⟩
  | .fin e handler :: k =>
      if (c.m.mem.exps e).type ≠ .noException then ⟨.run handler, k, c.m⟩ else ⟨.ret, k, c.m⟩

def step (c : Config σ) : Config σ :=
  match c.control with
  | .run s => runStmt c s
  | .ret => resume c
  | .loopHead t =>
      match exceptionsStateMc .iter0 c.m with
      | .ok true m =>
          ⟨.run t.body, .tryBody t :: c.cont, { m with currCatcher := countEntry m.currCatcher }⟩
      | .ok false m => ⟨.leave t, c.cont, m⟩
      | .error e m => ⟨.stop e, c.cont, m⟩
  | .leave t =>
      match exceptionsStateMc .finally c.m with
      | .ok _ m => ⟨.run t.fin, .fin t.exp t.handler :: c.cont, m⟩
      | .error e m => ⟨.stop e, c.cont, m⟩
  | .finished => c
  | .stop _ => c

/-- A program that is started outside of every `TRY`. -/
def start (p : Stmt σ) (mem : Mem σ) : Config σ := ⟨.run p, [], ⟨mem, []⟩⟩

end Snitchaser.Exception.Model
