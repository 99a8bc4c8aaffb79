import Snitchaser.Exception.Matching
import Snitchaser.Lib.Simulation
/-!
# The macros do what structured exceptions do

Each step of the macros' machine is a step of the structured one, or an entry or exit
of the loop of a `TRY`, which the structured machine does not see.  All that is said
about whole runs follows from that.
-/

namespace Snitchaser.Exception.Refinement

open Snitchaser.Exception.Model
open Snitchaser.Exception.Structured
  (Scope State Uses Distinct Settled Proper settled_cleared settled_makeException raise
    proper_of_finished)
open Snitchaser.Exception.Matching
open Snitchaser.Lib.Simulation

variable {σ : Type} {mem : Mem σ} {above : Var → Prop} {k : List (Frame σ)}
  {k' : List (Scope σ)}

theorem settled_setExp (h : ∀ v, Settled (mem.exps v)) {x : ExceptionT} (hx : Settled x)
    (e v : Var) : Settled ((setExp e x mem).exps v) := by
  by_cases hv : v = e
  · subst hv
    simpa [setExp] using hx
  · simpa [setExp, Function.update_of_ne hv] using h v

/-! ## Throwing -/

theorem matches_jump (mem : Mem σ) (control : Control σ) (a : ThrowArgs)
    (settled : ∀ v, Settled (mem.exps v)) (around : Around mem.exps above k k')
    (hx : (raise (makeException mem.errno a) k' mem).phase ≠ .invalid) :
    Matches (jump ⟨control, k, ⟨mem, catchers k⟩⟩ (throwException a))
      (raise (makeException mem.errno a) k' mem) := by
  have htype : (makeException mem.errno a).type ≠ .noException := by
    intro h
    simp [raise, h] at hx
  rw [raise, if_neg htype]
  cases around.target with
  | none catchers_eq scopes_eq =>
      rw [catchers_eq, scopes_eq]
      exact .uncaught
  | body t k₁ k₁' catchers_eq scopes_eq around =>
      rw [catchers_eq, scopes_eq]
      exact .again (settled_setExp settled (settled_makeException _ a) t.exp) (.inr rfl)
        (around.atFin_thrown htype)

/-- The machine throws a copy of what is in the variable, the structured machine the
thing itself. -/
theorem matches_rethrow (control : Control σ) (e : Var)
    (settled : ∀ v, Settled (mem.exps v)) (around : Around mem.exps above k k')
    (hx : (Structured.runStmt ⟨.run (.rethrow e), k', mem⟩ (.rethrow e)).phase ≠ .invalid) :
    Matches (jump ⟨control, k, ⟨mem, catchers k⟩⟩ (rethrowException e))
      (Structured.runStmt ⟨.run (.rethrow e), k', mem⟩ (.rethrow e)) := by
  let mem' : Mem σ := { mem with errno := (mem.exps e).throwTimeErrno }
  have hcopy := (settled e).makeException_eq
  have hjump := matches_jump mem' control
    ⟨(mem.exps e).type, (mem.exps e).xval, (mem.exps e).level, (mem.exps e).msg⟩ settled around
  rw [hcopy] at hjump
  exact hjump hx

/-! ## Single steps -/

theorem matches_brk (settled : ∀ v, Settled (mem.exps v)) (around : Around mem.exps above k k') :
    Matches (runStmt ⟨.run .brk, k, ⟨mem, catchers k⟩⟩ .brk)
      (Structured.runStmt ⟨.run .brk, k', mem⟩ .brk) := by
  have hland := around.landing
  rw [← catchers_dropInner k]
  simp only [runStmt, Structured.runStmt]
  generalize k.dropWhile Frame.inner = j, k'.dropWhile Scope.inner = j' at hland ⊢
  cases hland with
  | none => exact .finished
  | loop _ rest => exact .ret settled (rest.mono fun _ => False.elim)
  | body around => exact .leave settled (.inl rfl) around.atFin

theorem matches_cont (settled : ∀ v, Settled (mem.exps v)) (around : Around mem.exps above k k') :
    Matches (runStmt ⟨.run .cont, k, ⟨mem, catchers k⟩⟩ .cont)
      (Structured.runStmt ⟨.run .cont, k', mem⟩ .cont) := by
  have hland := around.landing
  rw [← catchers_dropInner k]
  simp only [runStmt, Structured.runStmt]
  generalize k.dropWhile Frame.inner = j, k'.dropWhile Scope.inner = j' at hland ⊢
  cases hland with
  | none => exact .finished
  | loop distinct rest => exact .run settled distinct rest
  | body around => exact .again settled (.inl rfl) around.atFin

theorem matches_tryCatch {e : Var} {body fin handler : Stmt σ}
    (settled : ∀ v, Settled (mem.exps v)) (distinct : Distinct (.tryCatch e body fin handler))
    (around : Around mem.exps (Uses · (.tryCatch e body fin handler)) k k') :
    Matches (runStmt ⟨.run (.tryCatch e body fin handler), k, ⟨mem, catchers k⟩⟩
        (.tryCatch e body fin handler))
      (Structured.runStmt ⟨.run (.tryCatch e body fin handler), k', mem⟩
        (.tryCatch e body fin handler)) := by
  obtain ⟨hbody, hfin, distinctBody, distinctFin, distinctHandler⟩ := distinct
  have hrest := around.assign (.inl rfl) cleared
  refine .enter (t := ⟨e, body, fin, handler⟩) (settled_setExp settled settled_cleared e)
    distinctBody (.body hbody ?_ hfin distinctFin distinctHandler (hrest.mono ?_))
  · simp [setExp, cleared]
  · rintro v (hv | rfl | hv | hv)
    · exact .inr (.inl hv)
    · exact .inl rfl
    · exact .inr (.inr (.inl hv))
    · exact .inr (.inr (.inr hv))

/-- A statement is begun. -/
theorem matches_runStmt {s : Stmt σ} (settled : ∀ v, Settled (mem.exps v)) (distinct : Distinct s)
    (around : Around mem.exps (Uses · s) k k')
    (hx : (Structured.runStmt ⟨.run s, k', mem⟩ s).phase ≠ .invalid) :
    Matches (runStmt ⟨.run s, k, ⟨mem, catchers k⟩⟩ s)
      (Structured.runStmt ⟨.run s, k', mem⟩ s) := by
  cases s with
  | act f => exact .ret settled (around.mono fun _ => False.elim)
  | seq s t => exact .run settled distinct.1 (.seq distinct.2 around)
  | ite cond s t =>
      simp only [runStmt, Structured.runStmt]
      split
      case isTrue => exact .run settled distinct.1 (around.mono fun _ => .inl)
      case isFalse => exact .run settled distinct.2 (around.mono fun _ => .inr)
  | loop cond s =>
      simp only [runStmt, Structured.runStmt]
      split
      case isTrue =>
        exact .run settled distinct (.loop distinct (around.mono fun _ => or_self_iff.mp))
      case isFalse => exact .ret settled (around.mono fun _ => False.elim)
  | brk => exact matches_brk settled around
  | cont => exact matches_cont settled around
  | throw args => exact matches_jump mem _ (args mem) settled around hx
  | rethrow e => exact matches_rethrow _ e settled around hx
  | tryCatch e body fin handler => exact matches_tryCatch settled distinct around

/-- A statement is done. -/
theorem matches_resume (settled : ∀ v, Settled (mem.exps v))
    (around : Around mem.exps (fun _ => False) k k') :
    Matches (resume ⟨.ret, k, ⟨mem, catchers k⟩⟩) (Structured.resume ⟨.ret, k', mem⟩) := by
  cases around with
  | nil => exact .finished
  | seq distinct rest => exact .run settled distinct (rest.mono fun _ => .inr)
  | loop distinct rest => exact .run settled distinct (rest.mono fun _ => .inr)
  | body kept clear keptFin distinctFin distinctHandler rest =>
      exact .again settled (.inl rfl)
        (Around.body kept clear keptFin distinctFin distinctHandler rest).atFin
  | @fin _ e handler thrown _ _ _ holds distinct rest =>
      -- the type in the variable against what was noted
      cases thrown with
      | true =>
          have htype : (mem.exps e).type ≠ .noException := holds.mpr rfl
          simp only [resume, Structured.resume, if_pos htype]
          exact .run settled distinct (rest.mono fun _ hv => .inr (.inr hv))
      | false =>
          have htype : ¬ (mem.exps e).type ≠ .noException := fun h => Bool.noConfusion (holds.mp h)
          simp only [resume, Structured.resume, if_neg htype]
          exact .ret settled (rest.mono fun _ => False.elim)

theorem simulates : Simulates (step (σ := σ)) Structured.step Matches rank (·.phase ≠ .invalid) where
  step c a h hx := by
    cases h with
    | run settled distinct around => exact .inl (matches_runStmt settled distinct around hx)
    | ret settled around => exact .inl (matches_resume settled around)
    | enter settled distinct around => exact .inr ⟨.run settled distinct around, Nat.zero_lt_two⟩
    | again settled left atFin =>
        rcases left with rfl | rfl
        · exact .inr ⟨.leave settled (.inr rfl) atFin, Nat.one_lt_two⟩
        · exact .inr ⟨.leave settled (.inr rfl) atFin, Nat.one_lt_two⟩
    | leave settled left atFin =>
        rcases left with rfl | rfl
        · exact .inr ⟨.run settled atFin.distinct atFin.around, Nat.zero_lt_one⟩
        · exact .inr ⟨.run settled atFin.distinct atFin.around, Nat.zero_lt_one⟩
    | finished => exact .inl .finished
    | uncaught => exact .inl .uncaught

/-! ## Whole runs -/

/-- A run of the macros' machine against a run of the structured one that is at
`sched n` when the first has made `n` steps. -/
structure Refines (conf : Nat → Config σ) (spec : Nat → State σ) (sched : Nat → Nat) : Prop where
  begins : sched 0 = 0
  advances : ∀ n, sched (n + 1) = sched n ∨ sched (n + 1) = sched n + 1
  complete : Function.Surjective sched
  /-- the same statements run, on the same memory -/
  runs : ∀ n s, (conf n).control = .run s →
    (spec (sched n)).phase = .run s ∧ (spec (sched n)).mem = (conf n).m.mem
  /-- of what is left to do, the `CATCH` block is done iff the body was left by a throw -/
  catches : ∀ n e handler k, (conf n).control = .ret → (conf n).cont = .fin e handler :: k →
    ∃ thrown k', spec (sched n) = ⟨.ret, .fin e handler thrown :: k', (conf n).m.mem⟩ ∧
      conf (n + 1) = ⟨if thrown then .run handler else .ret, k, (conf n).m⟩
  finishes : ∀ n, ((conf n).control = .finished ↔ (spec (sched n)).phase = .finished) ∧
    ((conf n).control = .finished → (spec (sched n)).mem = (conf n).m.mem)
  /-- nothing but an exception outside of every `TRY` stops the program, which it does -/
  stops : ∀ n why, (conf n).control = .stop why ↔
    why = outmostScope ∧ ∃ x, (spec (sched n)).phase = .uncaught x
  /-- a `TRY` that is done has put `curr_catcher_p` back -/
  restores : ∀ i j e body fin handler, (conf i).control = .run (.tryCatch e body fin handler) →
    (conf j).control = .ret → (conf j).cont = (conf i).cont →
    (conf j).m.currCatcher = (conf i).m.currCatcher
  entersOnce : ∀ n, ∀ c ∈ (conf n).m.currCatcher, c.entered ≤ 1

theorem step_at_catch {c : Config σ} {e : Var} {handler : Stmt σ} {thrown : Bool}
    (hret : c.control = .ret) (hcont : c.cont = .fin e handler :: k)
    (hthrown : (c.m.mem.exps e).type ≠ .noException ↔ thrown = true) :
    step c = ⟨if thrown then .run handler else .ret, k, c.m⟩ := by
  simp only [step, hret, resume, hcont, hthrown]
  cases thrown with
  | true => rfl
  | false => rfl

theorem refines_of_matches {conf : Nat → Config σ} {spec : Nat → State σ} {sched : Nat → Nat}
    (hstep : ∀ n, conf (n + 1) = step (conf n)) (begins : sched 0 = 0)
    (advances : ∀ n, sched (n + 1) = sched n ∨ sched (n + 1) = sched n + 1)
    (complete : Function.Surjective sched) (h : ∀ n, Matches (conf n) (spec (sched n))) :
    Refines conf spec sched where
  begins := begins
  advances := advances
  complete := complete
  runs n s hc := by
    refine ⟨(h n).phase_eq_run hc, ((h n).mem_eq fun why hstop => ?_).symm⟩
    rw [hc] at hstop
    cases hstop
  catches n e handler k hret hcont := by
    obtain ⟨thrown, k', hspec, hthrown⟩ := (h n).at_catch hret hcont
    refine ⟨thrown, k', hspec, ?_⟩
    rw [hstep, step_at_catch hret hcont hthrown]
  finishes n := by
    refine ⟨(h n).finished_iff, fun hc => ((h n).mem_eq fun why hstop => ?_).symm⟩
    rw [hc] at hstop
    cases hstop
  stops n why := (h n).stop_iff why
  restores i j e body fin handler hi hj hcont := by
    rw [(h i).currCatcher_eq (.inl ⟨_, hi⟩), (h j).currCatcher_eq (.inr hj), hcont]
  entersOnce n _ hc := (h n).entered_le hc

theorem macros_refine_structured_exceptions (p : Stmt σ) (mem : Mem σ) (hdistinct : Distinct p)
    (hsettled : ∀ v, Settled (mem.exps v)) (hproper : Proper p mem) :
    ∃ sched, Refines (fun n => step^[n] (start p mem))
      (fun k => Structured.step^[k] (Structured.start p mem)) sched := by
  have hstart : Matches (start p mem) (Structured.start p mem) := .run hsettled hdistinct .nil
  refine ⟨schedule step Structured.step Matches (start p mem) (Structured.start p mem), ?_⟩
  apply refines_of_matches
  · intro n
    exact Function.iterate_succ_apply' step n _
  · rfl
  · exact schedule_succ _ _ _ _ _
  · exact simulates.schedule_surjective hstart hproper
  · exact simulates.schedule_matches hstart hproper

/-! ## Two programs -/

/-- `THROW(EXP_FILE_END, "")`. -/
def throwFileEnd : Stmt Bool := .throw fun _ => ⟨.fileEnd, 0, .lowest, []⟩

def skip : Stmt Bool := .act fun m => (m.user, m.errno)

def mark : Stmt Bool := .act fun m => (true, m.errno)

/-- Nothing is marked yet, and no exception was thrown. -/
def unmarked : Mem Bool := ⟨false, 0, fun _ => cleared⟩

/-- A `TRY` in a `TRY`, on the variables `outer` and `inner`.  The inner one throws and
handles with `handler`, the outer `CATCH` marks. -/
def nested (outer inner : Var) (handler : Stmt Bool) : Stmt Bool :=
  .tryCatch outer (.tryCatch inner throwFileEnd skip handler) skip mark

theorem proper_nested_rethrow : Proper (nested 0 1 (.rethrow 1)) unmarked :=
  proper_of_finished (n := 11) rfl

/-- The outer `CATCH` gets what the inner one throws again. -/
theorem macros_refine_nested_rethrow :
    Distinct (nested 0 1 (.rethrow 1)) ∧ Proper (nested 0 1 (.rethrow 1)) unmarked ∧
      ∃ sched, Refines (fun n => step^[n] (start (nested 0 1 (.rethrow 1)) unmarked))
        (fun k => Structured.step^[k] (Structured.start (nested 0 1 (.rethrow 1)) unmarked))
        sched := by
  have hdistinct : Distinct (nested 0 1 (.rethrow 1)) := by
    simp [nested, throwFileEnd, skip, mark, Distinct, Uses]
  exact ⟨hdistinct, proper_nested_rethrow,
    macros_refine_structured_exceptions _ _ hdistinct (fun _ => settled_cleared)
      proper_nested_rethrow⟩

/-- With one variable for both, the exception that the inner `TRY` has caught is still
in it when the outer one is done: the outer `CATCH` block runs, and marks, though no
throw has left the outer body. -/
theorem outer_catch_runs_on_shared_variable :
    (∀ v, Settled (unmarked.exps v)) ∧ Proper (nested 0 0 skip) unmarked ∧
      (∃ n, (step^[n] (start (nested 0 0 skip) unmarked)).control = .finished ∧
        (step^[n] (start (nested 0 0 skip) unmarked)).m.mem.user = true) ∧
      ∃ k, (Structured.step^[k] (Structured.start (nested 0 0 skip) unmarked)).phase = .finished ∧
        (Structured.step^[k] (Structured.start (nested 0 0 skip) unmarked)).mem.user = false := by
  refine ⟨fun _ => settled_cleared, proper_of_finished (n := 11) rfl, ?_, ?_⟩
  · exact ⟨20, rfl, rfl⟩
  · exact ⟨11, rfl, rfl⟩

end Snitchaser.Exception.Refinement
