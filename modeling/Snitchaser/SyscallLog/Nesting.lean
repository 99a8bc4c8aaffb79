import Snitchaser.SyscallLog.Decodable
/-!
# Calls made by signal handlers

Between `syscall_pre_handler` and `syscall_post_handler` of a call a signal handler
may run and make wrapped calls itself.  Their entries then stand in the log between
the number of the interrupted call and the rest of its entry.  Without such calls
the log determines the run; with one level of them it does not.
-/

namespace Snitchaser.SyscallLog.Nesting

open Snitchaser.Lib.Decode
open Snitchaser.Lib.Hoare
open Snitchaser.Lib.Program
open Snitchaser.SyscallLog.Decodable
open Snitchaser.SyscallLog.Model

/-! ## Runs -/

/-- The wrapped calls of a run: a call, those made while it was interrupted, and those
after it. -/
inductive Run where
  | done
  | call (c : Call) (inner rest : Run)

namespace Run

def exec (write : Nat → Nat → Int) : Run → Prog State Unit
  | .done => pure ()
  | .call c inner rest => do
      syscallPreHandler write c.regs
      exec write inner
      syscallPostHandler write c.regsAfter c.mem
      exec write rest

/-- How many calls are open at once, at most. -/
def levels : Run → Nat
  | .done => 0
  | .call _ inner rest => max (inner.levels + 1) rest.levels

/-- The calls that interrupt no other. -/
def calls : Run → List Call
  | .done => []
  | .call c _ rest => c :: rest.calls

end Run

/-- What there is to know of a run: the calls and their nesting, the results and the
memory to be saved. -/
inductive Trace where
  | done
  | call (e : Entry) (inner rest : Trace)
  deriving DecidableEq

def Run.trace : Run → Trace
  | .done => .done
  | .call c inner rest => .call (Call.entry c) inner.trace rest.trace

def Trace.flat : List Entry → Trace
  | [] => .done
  | e :: es => .call e .done (flat es)

/-! ## Without nesting -/

section Flat

variable {write : Nat → Nat → Int} {s t : State}

theorem hasEntry_of_syscallTable {nr : Int32} {post : Handler}
    (h : syscallTable write nr s = .ok (some post) t) : HasEntry nr := by
  unfold syscallTable at h
  split_ifs at h with hin
  · obtain ⟨hpost, _⟩ := pure_ok_iff.mp h
    obtain ⟨sc, hsc, _⟩ := Option.map_eq_some_iff.mp hpost.symm
    rw [Syscall.ofNr] at hsc
    have hnr := List.find?_some hsc
    exact ⟨sc, by rw [beq_iff_eq.mp hnr, Int.toNat_of_nonneg hin.1]⟩
  · exact (throw_ok_iff.mp h).elim

theorem hasEntry_of_postHandler {c : Call}
    (h : syscallPostHandler write c.regsAfter c.mem s = .ok () t) : HasEntry c.regs.origEax := by
  obtain ⟨handler, u, htable, hpost⟩ := bind_ok_iff.mp h
  cases handler with
  | none => exact (throw_ok_iff.mp hpost).elim
  | some post => exact hasEntry_of_syscallTable htable

theorem eq_done_of_levels {run : Run} (h : run.levels = 0) : run = .done := by
  cases run with
  | done => rfl
  | call c inner rest =>
      rw [Run.levels] at h
      omega

/-- A run without nesting is a sequence of wrapped calls. -/
theorem flat_of_levels (write : Nat → Nat → Int) {run : Run} (h : run.levels ≤ 1) :
    run.exec write = forM run.calls (wrappedSyscall write) ∧
      run.trace = Trace.flat (run.calls.map Call.entry) := by
  induction run with
  | done => exact ⟨rfl, rfl⟩
  | call c inner rest _ ih =>
      rw [Run.levels] at h
      obtain rfl := eq_done_of_levels (show inner.levels = 0 by omega)
      obtain ⟨hexec, htrace⟩ := ih (by omega)
      constructor
      · rw [Run.exec, hexec, Run.calls, List.forM_cons, wrappedSyscall, bind_assoc]
        rfl
      · rw [Run.trace, htrace]
        rfl

theorem hasEntry_of_exec {run : Run} (h : run.exec write s = .ok () t) :
    ∀ c ∈ run.calls, HasEntry c.regs.origEax := by
  induction run generalizing s with
  | done => nofun
  | call c inner rest _ ih =>
      simp only [Run.exec, bind_ok_iff] at h
      obtain ⟨_, _, _, _, _, _, _, _, hpost, hrest⟩ := h
      rw [Run.calls, List.forall_mem_cons]
      exact ⟨hasEntry_of_postHandler hpost, ih hrest⟩

/-- The decoder of the log finds the trace of a run without nesting. -/
theorem decode_of_levels {run : Run} (hlevels : run.levels ≤ 1)
    (h : run.exec write s = .ok () t) :
    ∃ bytes entries, t.log = s.log ++ bytes ∧ decodeStream takeEntry bytes = some entries ∧
      run.trace = Trace.flat entries := by
  obtain ⟨hexec, htrace⟩ := flat_of_levels write hlevels
  have hentry := hasEntry_of_exec h
  rw [hexec] at h
  obtain ⟨bytes, hlog, hdecode⟩ := ((ends_wrappedSyscalls hentry s).of_ok h).decode
  exact ⟨bytes, _, hlog, hdecode, htrace⟩

end Flat

/-! ## With nesting -/

/-- Two runs with at most `n` calls open at once that leave the same log are the same run. -/
def Determined (n : Nat) : Prop :=
  ∀ (a b : Run) write₁ write₂ s t u, a.levels ≤ n → b.levels ≤ n → a.exec write₁ s = .ok () t →
    b.exec write₂ s = .ok () u → t.log = u.log → a.trace = b.trace

theorem determined_flat {n : Nat} (hn : n ≤ 1) : Determined n := by
  intro a b write₁ write₂ s t u ha hb hruna hrunb hlog
  obtain ⟨bytes, entries, hbytes, hdecode, htrace⟩ := decode_of_levels (ha.trans hn) hruna
  obtain ⟨bytes', entries', hbytes', hdecode', htrace'⟩ := decode_of_levels (hb.trans hn) hrunb
  have hsame : bytes = bytes' := by
    rw [hbytes, hbytes'] at hlog
    exact List.append_cancel_left hlog
  rw [hsame, hdecode', Option.some.injEq] at hdecode
  rw [htrace, htrace', hdecode]

/-- `write`, with the result `n`. -/
def writeCall (n : Int32) : Call := ⟨⟨4, 1, 0, 0, 0, 0, 0, 0, 4, 0, 0⟩, n, fun _ => 0⟩

/-- A `write` that returns 1, interrupted by a handler that writes 262144 bytes. -/
def interrupted : Run := .call (writeCall 1) (.call (writeCall 262144) .done .done) .done

/-- A `write` that returns 4 and then one that returns 1. -/
def inSequence : Run := .call (writeCall 4) .done (.call (writeCall 1) .done .done)

/-- Both leave the same log. -/
theorem same_log_different_runs : interrupted.trace ≠ inSequence.trace ∧ ∃ t u,
    interrupted.exec (fun _ count => count) ⟨[], 0⟩ = .ok () t ∧
      inSequence.exec (fun _ count => count) ⟨[], 0⟩ = .ok () u ∧ t.log = u.log :=
  ⟨by decide, _, _, rfl, rfl, rfl⟩

/-- The log determines the run as long as no call is made while another is open, and not
beyond. -/
theorem log_determines_run_iff (n : Nat) : Determined n ↔ n ≤ 1 := by
  constructor
  · intro h
    by_contra hn
    have hinner : interrupted.levels ≤ n := by
      change 2 ≤ n
      omega
    have hflat : inSequence.levels ≤ n := by
      change 1 ≤ n
      omega
    have hsame := h interrupted inSequence (fun _ count => count) (fun _ count => count) ⟨[], 0⟩ _ _
      hinner hflat rfl rfl rfl
    exact absurd hsame (by decide)
  · exact determined_flat

end Snitchaser.SyscallLog.Nesting
