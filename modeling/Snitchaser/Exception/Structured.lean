import Mathlib.Data.List.TakeWhile
import Mathlib.Logic.Function.Iterate
import Snitchaser.Exception.Model
/-!
# Structured exceptions

What the macros are for, without catchers, states and jump buffers.  A `TRY` notes in
the scope around it that its body is running.  A throw leaves scopes until it comes to
such a note; it gives its exception to that `TRY`, and the code behind the `FINALLY`
runs.  Whether the `CATCH` block is to run after it is noted as well: it is if the body
was left by a throw.

To throw `EXP_NO_EXCEPTION` has no meaning here.
-/

namespace Snitchaser.Exception.Structured

open Snitchaser.Exception.Model

variable {σ : Type}

/-- What is left to do around a statement. -/
inductive Scope (σ : Type) where
  | seq (t : Stmt σ)
  | loop (cond : Mem σ → Bool) (s : Stmt σ)
  | body (e : Var) (fin handler : Stmt σ)
  | fin (e : Var) (handler : Stmt σ) (thrown : Bool)

inductive Phase (σ : Type) where
  | run (s : Stmt σ)
  | ret
  | finished
  | uncaught (x : ExceptionT)
  | invalid

structure State (σ : Type) where
  phase : Phase σ
  scopes : List (Scope σ)
  mem : Mem σ

/-- The scopes a `break` or `continue` leaves. -/
def Scope.inner : Scope σ → Bool
  | seq _ => true
  | loop _ _ => false
  | body _ _ _ => false
  | fin _ _ _ => true

/-- The scopes an exception leaves. -/
def Scope.transparent : Scope σ → Bool
  | seq _ => true
  | loop _ _ => true
  | body _ _ _ => false
  | fin _ _ _ => true

def raise (x : ExceptionT) (k : List (Scope σ)) (mem : Mem σ) : State σ :=
  if x.type = .noException then ⟨.invalid, k, mem⟩
  else
    match k.dropWhile Scope.transparent with
    | .body e fin handler :: k => ⟨.run fin, .fin e handler true :: k, setExp e x mem⟩
    | k => ⟨.uncaught x, k, mem⟩

def runStmt (a : State σ) : Stmt σ → State σ
  | .act f =>
      let (user, errno) := f a.mem
      ⟨.ret, a.scopes, { a.mem with user := user, errno := errno }⟩
  | .seq s t => ⟨.run s, .seq t :: a.scopes, a.mem⟩
  | .ite cond s t => ⟨.run (if cond a.mem then s else t), a.scopes, a.mem⟩
  | .loop cond s =>
      if cond a.mem then ⟨.run s, .loop cond s :: a.scopes, a.mem⟩ else ⟨.ret, a.scopes, a.mem⟩
  | .brk =>
      match a.scopes.dropWhile Scope.inner with
      | .loop _ _ :: k => ⟨.ret, k, a.mem⟩
      | .body e fin handler :: k => ⟨.run fin, .fin e handler false :: k, a.mem⟩
      | k => ⟨.finished, k, a.mem⟩
  | .cont =>
      match a.scopes.dropWhile Scope.inner with
      | .loop cond s :: k => ⟨.run (.loop cond s), k, a.mem⟩
      | .body e fin handler :: k => ⟨.run fin, .fin e handler false :: k, a.mem⟩
      | k => ⟨.finished, k, a.mem⟩
  | .throw args => raise (makeException a.mem.errno (args a.mem)) a.scopes a.mem
  -- the exception itself goes on, with the `errno` it was thrown with
  | .rethrow e =>
      raise (a.mem.exps e) a.scopes { a.mem with errno := (a.mem.exps e).throwTimeErrno }
  | .tryCatch e body fin handler =>
      ⟨.run body, .body e fin handler :: a.scopes, setExp e cleared a.mem⟩

def resume (a : State σ) : State σ :=
  match a.scopes with
  | [] => ⟨.finished, [], a.mem⟩
  | .seq t :: k => ⟨.run t, k, a.mem⟩
  | .loop cond s :: k => ⟨.run (.loop cond s), k, a.mem⟩
  | .body e fin handler :: k => ⟨.run fin, .fin e handler false :: k, a.mem⟩
  | .fin _ handler thrown :: k => ⟨if thrown then .run handler else .ret, k, a.mem⟩

def step (a : State σ) : State σ :=
  match a.phase with
  | .run s => runStmt a s
  | .ret => resume a
  | .finished => a
  | .uncaught _ => a
  | .invalid => a

def start (p : Stmt σ) (mem : Mem σ) : State σ := ⟨.run p, [], mem⟩

/-- No run of the program throws `EXP_NO_EXCEPTION`. -/
def Proper (p : Stmt σ) (mem : Mem σ) : Prop := ∀ n, (step^[n] (start p mem)).phase ≠ .invalid

theorem step_of_invalid {a : State σ} (h : a.phase = .invalid) : step a = a := by
  simp only [step, h]

theorem step_of_finished {a : State σ} (h : a.phase = .finished) : step a = a := by
  simp only [step, h]

/-- A run that comes to its end has thrown nothing of the kind: it would have stayed
there. -/
theorem proper_of_finished {p : Stmt σ} {mem : Mem σ} {n : Nat}
    (h : (step^[n] (start p mem)).phase = .finished) : Proper p mem := by
  intro m hm
  rcases Nat.le_total m n with hle | hle
  · obtain ⟨d, rfl⟩ := Nat.exists_eq_add_of_le' hle
    rw [Function.iterate_add_apply, Function.iterate_fixed (step_of_invalid hm), hm] at h
    cases h
  · obtain ⟨d, rfl⟩ := Nat.exists_eq_add_of_le' hle
    rw [Function.iterate_add_apply, Function.iterate_fixed (step_of_finished h), h] at hm
    cases hm

/-! ## Exception variables -/

/-- Some `TRY` in the statement has this exception variable. -/
def Uses (v : Var) : Stmt σ → Prop
  | .act _ => False
  | .seq s t => Uses v s ∨ Uses v t
  | .ite _ s t => Uses v s ∨ Uses v t
  | .loop _ s => Uses v s
  | .brk => False
  | .cont => False
  | .throw _ => False
  | .rethrow _ => False
  | .tryCatch e body fin handler => v = e ∨ Uses v body ∨ Uses v fin ∨ Uses v handler

/-- No `TRY` in the body of a `TRY` or behind its `FINALLY` has the same variable. -/
def Distinct : Stmt σ → Prop
  | .act _ => True
  | .seq s t => Distinct s ∧ Distinct t
  | .ite _ s t => Distinct s ∧ Distinct t
  | .loop _ s => Distinct s
  | .brk => True
  | .cont => True
  | .throw _ => True
  | .rethrow _ => True
  | .tryCatch e body fin handler =>
      ¬ Uses e body ∧ ¬ Uses e fin ∧ Distinct body ∧ Distinct fin ∧ Distinct handler

/-- An exception that thrown again is built again the same. -/
structure Settled (x : ExceptionT) : Prop where
  type_eq : x.level = .uncatchable → x.type = .uncatchable
  msg_eq : vsnprintf x.msg = x.msg

theorem vsnprintf_vsnprintf (text : List UInt8) :
    vsnprintf (vsnprintf text) = vsnprintf text := by
  have hlen : (vsnprintf text).length ≤ 511 :=
    calc (vsnprintf text).length
        ≤ (text.take 511).length := (List.takeWhile_prefix _).length_le
      _ ≤ 511 := List.length_take_le _ _
  rw [vsnprintf, List.take_of_length_le hlen, vsnprintf, List.takeWhile_idem]

theorem settled_makeException (errno : Int) (a : ThrowArgs) : Settled (makeException errno a) where
  type_eq h := if_pos h
  msg_eq := vsnprintf_vsnprintf a.text

theorem settled_cleared : Settled cleared where
  type_eq h := by simp [cleared] at h
  msg_eq := rfl

/-- An exception comes through `RETHROW` unchanged. -/
theorem Settled.makeException_eq {x : ExceptionT} (h : Settled x) :
    makeException x.throwTimeErrno ⟨x.type, x.xval, x.level, x.msg⟩ = x := by
  have htype : (if x.level = .uncatchable then ExceptionType.uncatchable else x.type) = x.type := by
    split
    case isTrue hlevel => exact (h.type_eq hlevel).symm
    case isFalse => rfl
  simp only [makeException, htype, h.msg_eq]

end Snitchaser.Exception.Structured
