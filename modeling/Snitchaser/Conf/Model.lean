import Mathlib.Data.Nat.Bitwise
import Mathlib.Tactic.Common
/-!
# Options from the environment

`env_conf.c` with the entries of `env_conf_entries.h`, and `sampling` of
`interp_main.c`, which acts on two of the options.  A string is the bytes before its
terminator; what the code gets of it is those bytes and the terminator.
-/

namespace Snitchaser.Conf.Model

/-- A string of the environment. -/
structure CString where
  chars : List UInt8
  noNul : 0 ∉ chars
  deriving DecidableEq

/-- The bytes from the start of a string on. -/
def CString.memory (s : CString) : List UInt8 := s.chars ++ [0]

def bytes (s : String) : List UInt8 := s.toList.map fun c => UInt8.ofNat c.toNat

/-- Whether `strncmp` returns 0. -/
def strncmp : List UInt8 → List UInt8 → Nat → Bool
  | _, _, 0 => true
  | a :: as, b :: bs, n + 1 => a == b && (a == 0 || strncmp as bs n)
  | _, _, _ + 1 => false

/-- The result of an operation on `int`. -/
def wrap (x : Int) : Int := x.bmod (2 ^ 32)

def atoiFrom : Int → List UInt8 → Int
  | s, [] => s
  | s, c :: x =>
      if c ≤ 57 ∧ 48 ≤ c then atoiFrom (wrap (wrap (s * 10) + (c.toNat - 48))) x else s

/-- `_atoi`; nothing is a NULL pointer. -/
def atoi : Option (List UInt8) → Int
  | none => 0
  | some x => atoiFrom 0 x

/-! ## The options -/

structure EnvConf where
  traceFork : Bool
  untraceClone : Bool
  useRebranch : Bool
  sampling : Int
  deriving DecidableEq, Repr

/-- The entries declared with `bool_conf`. -/
inductive BoolOption where
  | traceFork
  | untraceClone
  | useRebranch
  deriving DecidableEq, Repr

namespace BoolOption

def key : BoolOption → List UInt8
  | traceFork => bytes "SNITCHASER_TRACE_FORK"
  | untraceClone => bytes "SNITCHASER_UNTRACE_CLONE"
  | useRebranch => bytes "SNITCHASER_USE"

def default : BoolOption → Bool
  | traceFork => false
  | untraceClone => false
  | useRebranch => true

def get : BoolOption → EnvConf → Bool
  | traceFork, c => c.traceFork
  | untraceClone, c => c.untraceClone
  | useRebranch, c => c.useRebranch

def put : BoolOption → Bool → EnvConf → EnvConf
  | traceFork, b, c => { c with traceFork := b }
  | untraceClone, b, c => { c with untraceClone := b }
  | useRebranch, b, c => { c with useRebranch := b }

end BoolOption

def samplingKey : List UInt8 := bytes "SNITCHASER_SAMPLING"

def samplingDefault : Int := -1

def envConf : EnvConf where
  traceFork := BoolOption.default .traceFork
  untraceClone := BoolOption.default .untraceClone
  useRebranch := BoolOption.default .useRebranch
  sampling := samplingDefault

/-- `cmp_get`: the value behind `key=`, or NULL. -/
def cmpGet (key str : List UInt8) : Option (List UInt8) :=
  if strncmp (key ++ bytes "=") str (key.length + 1) then some (str.drop (key.length + 1)) else none

def boolConf (o : BoolOption) (entry : CString) (c : EnvConf) : EnvConf :=
  match cmpGet o.key entry.memory with
  | some val => if strncmp val (bytes "0" ++ [0]) 2 then o.put false c else o.put true c
  | none => c

def intConf (entry : CString) (c : EnvConf) : EnvConf :=
  match cmpGet samplingKey entry.memory with
  | some val => { c with sampling := atoi (some val) }
  | none => c

def checkVar (entry : CString) (c : EnvConf) : EnvConf :=
  let c := boolConf .traceFork entry c
  let c := boolConf .untraceClone entry c
  let c := boolConf .useRebranch entry c
  intConf entry c

def readEnvConf (envs : List CString) : EnvConf :=
  envs.foldl (fun c entry => checkVar entry c) envConf

/-! ## Whether to record -/

inductive InterpRet where
  | unselected
  | snitchaser
  deriving DecidableEq, Repr

/-- `random` is what `random32` returns. -/
def sampling (c : EnvConf) (random : UInt32) : InterpRet :=
  let selection : Int := random.toNat % 1000
  let selected := c.sampling < 0 ∨ selection < c.sampling
  if ¬ selected then .unselected
  else if c.useRebranch then .snitchaser
  else .unselected

end Snitchaser.Conf.Model
