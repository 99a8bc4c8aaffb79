import Snitchaser.SyscallLog.Decodable
/-!
# Which numbers the wrapper dispatches

`syscall_pre_handler` and `syscall_post_handler` index `syscall_table` with whatever
the program has put into `orig_eax`.  For the numbers of the table that is sound;
every other number is looked up outside of it.
-/

namespace Snitchaser.SyscallLog.Dispatch

open Snitchaser.Lib.Hoare
open Snitchaser.Lib.LittleEndian
open Snitchaser.Lib.Program
open Snitchaser.SyscallLog.Decodable
open Snitchaser.SyscallLog.Model

/-- Every write to the log is complete. -/
def Accepts (write : Nat → Nat → Int) : Prop := ∀ pos count, write pos count = count

/-- The wrapper looks the number up in the table, logs it as it is if a post handler is
going to run, and refuses it if there is none. -/
structure Dispatches (nr : Int32) : Prop where
  inTable : ∀ write (c : Call) s t, c.regs.origEax = nr → wrappedSyscall write c s ≠ .error .fault t
  logged : ∀ write (c : Call) s t u post, c.regs.origEax = nr →
    syscallPreHandler write c.regs s = .ok () t → syscallTable write nr t = .ok (some post) u →
      ∃ bytes, t.log = s.log ++ bytes ∧ bytes.length = 2 ∧ (leNat bytes : Int) = nr.toInt
  refused : ∀ write (c : Call) s, c.regs.origEax = nr → Accepts write → ¬ HasEntry nr →
    ∃ t, wrappedSyscall write c s =
      .error (.fatal "LOG_SYSCALL" "no such syscall post-handler: %d\n") t

section Numbers

variable {write : Nat → Nat → Int} {nr : Int32} {c : Call} {s : State}

/-- A number of the table. -/
def InTable (nr : Int32) : Prop := 0 ≤ nr.toInt ∧ nr.toInt ≤ nrSyscalls

theorem syscallTable_of_not_hasEntry (h : InTable nr) (hnone : ¬ HasEntry nr) :
    syscallTable write nr = pure none := by
  have hfind : Syscall.ofNr nr.toInt.toNat = none := by
    rw [Syscall.ofNr, List.find?_eq_none]
    intro sc _ heq
    have hnr : sc.nr = nr.toInt.toNat := beq_iff_eq.mp heq
    exact hnone ⟨sc, by rw [hnr, Int.toNat_of_nonneg h.1]⟩
  unfold InTable at h
  rw [syscallTable, if_pos h, hfind]
  rfl

theorem syscallTable_of_outside (h : ¬ InTable nr) : syscallTable write nr = throw .fault :=
  if_neg h

theorem exists_writeSyscallNr (nr : Int32) (s : State) (hwrite : Accepts write) :
    ∃ t, writeSyscallNr write nr s = .ok () t := by
  have hends : Ends (writeSyscallNr write nr) s (fun _ _ => True) fun _ => False := by
    simp only [writeSyscallNr, writeLogger, ends_bind, ends_modify, ends_get, ends_set, hwrite _ _,
      if_true, ends_pure]
  obtain ⟨_, t, hrun, _⟩ := hends.returns
  exact ⟨t, hrun⟩

/-- A number outside of the table is used as an index all the same. -/
theorem wrappedSyscall_of_outside (hwrite : Accepts write) (h : ¬ InTable c.regs.origEax) :
    ∃ t, wrappedSyscall write c s = .error .fault t := by
  obtain ⟨t, hrun⟩ := exists_writeSyscallNr c.regs.origEax s hwrite
  refine ⟨t, ?_⟩
  rw [wrappedSyscall]
  apply bind_of_error
  rw [syscallPreHandler, bind_of_ok hrun, syscallTable_of_outside h]
  rfl

theorem ends_wrappedSyscall_of_not_hasEntry (h : InTable c.regs.origEax)
    (hnone : ¬ HasEntry c.regs.origEax) :
    Ends (wrappedSyscall write c) s (fun _ _ => False) fun e =>
      WriteFailed e ∨ e = .fatal "LOG_SYSCALL" "no such syscall post-handler: %d\n" := by
  rw [wrappedSyscall, syscallPreHandler, syscallPostHandler,
    show c.regsAfter.origEax = c.regs.origEax from rfl, syscallTable_of_not_hasEntry h hnone,
    pure_bind, ends_bind, ends_bind]
  refine ((outputs_writeLogger _).ends s).mono ?_ ?_
  · intro _ t _
    exact Or.inr rfl
  · intro e he
    exact Or.inl he

theorem wrappedSyscall_ne_fault (h : InTable c.regs.origEax) (t : State) :
    wrappedSyscall write c s ≠ .error .fault t := by
  have hends : Ends (wrappedSyscall write c) s (fun _ _ => True) fun e => e ≠ .fault := by
    by_cases hentry : HasEntry c.regs.origEax
    · obtain ⟨bs, _, hbs⟩ := logs_wrappedSyscall c hentry
      refine (hbs.ends s).mono (fun _ _ _ => trivial) ?_
      rintro e rfl
      nofun
    · refine (ends_wrappedSyscall_of_not_hasEntry h hentry).mono (fun _ _ => False.elim) ?_
      rintro e (rfl | rfl)
      · nofun
      · nofun
  intro hrun
  rw [Ends, hrun] at hends
  exact hends rfl

theorem logged_of_hasEntry {regs : Regs} {t : State} (hentry : HasEntry regs.origEax)
    (hrun : syscallPreHandler write regs s = .ok () t) :
    ∃ bytes, t.log = s.log ++ bytes ∧ bytes.length = 2 ∧
      (leNat bytes : Int) = regs.origEax.toInt := by
  obtain ⟨sc, hnr⟩ := hentry
  have hle : sc.nr ≤ 327 := nr_le sc
  rw [syscallPreHandler, syscallTable_of_nr hnr] at hrun
  obtain ⟨_, u, hwrite, hrest⟩ := bind_ok_iff.mp hrun
  obtain ⟨_, rfl⟩ := pure_ok_iff.mp hrest
  refine ⟨leBytes 2 sc.nr, ?_, length_leBytes 2 sc.nr, ?_⟩
  · rw [writeSyscallNr, toUInt32_of_nr hnr] at hwrite
    exact ((outputs_writeLogger _).ends s).of_ok hwrite
  · rw [leNat_leBytes (by omega), hnr]

theorem dispatches_of_inTable (h : InTable nr) : Dispatches nr where
  inTable := by
    rintro write c s t rfl
    exact wrappedSyscall_ne_fault h t
  logged := by
    rintro write c s t u post rfl hrun hpost
    by_cases hentry : HasEntry c.regs.origEax
    · exact logged_of_hasEntry hentry hrun
    · rw [syscallTable_of_not_hasEntry h hentry] at hpost
      cases (pure_ok_iff.mp hpost).1
  refused := by
    rintro write c s rfl hwrite hnone
    obtain ⟨t, hrun⟩ := exists_writeSyscallNr c.regs.origEax s hwrite
    refine ⟨t, ?_⟩
    rw [wrappedSyscall, syscallPreHandler, syscallPostHandler,
      show c.regsAfter.origEax = c.regs.origEax from rfl, syscallTable_of_not_hasEntry h hnone,
      pure_bind, bind_assoc, bind_of_ok hrun]
    rfl

end Numbers

/-- A call with the number `nr` and nothing else. -/
def bareCall (nr : Int32) : Call := ⟨⟨nr, 0, 0, 0, 0, 0, 0, 0, nr, 0, 0⟩, 0, fun _ => 0⟩

/-- The wrapper dispatches a 32-bit number as it should exactly if the number is one of
the table. -/
theorem dispatches_iff (nr : Int32) : Dispatches nr ↔ 0 ≤ nr.toInt ∧ nr.toInt ≤ nrSyscalls := by
  constructor
  · intro h
    by_contra hout
    obtain ⟨t, hrun⟩ := wrappedSyscall_of_outside (c := bareCall nr) (s := ⟨[], 0⟩)
      (fun _ count => rfl : Accepts fun _ count => count) hout
    exact h.inTable _ (bareCall nr) _ t rfl hrun
  · exact dispatches_of_inTable

/-- `eventfd2`, the first number behind the table. -/
theorem eventfd2_outside : ∃ t,
    wrappedSyscall (fun _ count => count) (bareCall 328) ⟨[], 0⟩ = .error .fault t := ⟨_, rfl⟩

end Snitchaser.SyscallLog.Dispatch
