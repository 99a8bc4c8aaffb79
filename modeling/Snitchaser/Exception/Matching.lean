import Snitchaser.Exception.Structured
/-!
# Where the two machines stand

The machine of the macros and the structured one, related state by state.  Around a
statement both have the same left to do.  The catchers are those of the `TRY` bodies
that are running, innermost first; one more is there while the loop of a `TRY` is
entered or left, which the structured machine does not see.

The `CATCH` block is chosen by the type in the exception variable, so a variable must
keep what it holds while its `TRY` is running: no statement that is still to run inside
of it may be a `TRY` on the same variable.
-/

namespace Snitchaser.Exception.Matching

open Snitchaser.Exception.Model
open Snitchaser.Exception.Structured (Scope State Uses Distinct Settled)

variable {σ : Type} {exps : Var → ExceptionT} {above : Var → Prop}
  {k : List (Frame σ)} {k' : List (Scope σ)}

/-! ## What is left to do -/

/-- `above` are the variables of the statements that come before the rest. -/
inductive Around (exps : Var → ExceptionT) :
    (Var → Prop) → List (Frame σ) → List (Scope σ) → Prop where
  | nil {above : Var → Prop} : Around exps above [] []
  | seq {above : Var → Prop} {t : Stmt σ} {k : List (Frame σ)} {k' : List (Scope σ)}
      (distinct : Distinct t) (rest : Around exps (fun v => above v ∨ Uses v t) k k') :
      Around exps above (.seq t :: k) (.seq t :: k')
  | loop {above : Var → Prop} {cond : Mem σ → Bool} {s : Stmt σ} {k : List (Frame σ)}
      {k' : List (Scope σ)} (distinct : Distinct s)
      (rest : Around exps (fun v => above v ∨ Uses v s) k k') :
      Around exps above (.loop cond s :: k) (.loop cond s :: k')
  | body {above : Var → Prop} {t : Try σ} {k : List (Frame σ)} {k' : List (Scope σ)}
      (kept : ¬ above t.exp) (clear : (exps t.exp).type = .noException)
      (keptFin : ¬ Uses t.exp t.fin) (distinctFin : Distinct t.fin)
      (distinctHandler : Distinct t.handler)
      (rest : Around exps (fun v => above v ∨ v = t.exp ∨ Uses v t.fin ∨ Uses v t.handler) k k') :
      Around exps above (.tryBody t :: k) (.body t.exp t.fin t.handler :: k')
  | fin {above : Var → Prop} {e : Var} {handler : Stmt σ} {thrown : Bool} {k : List (Frame σ)}
      {k' : List (Scope σ)} (kept : ¬ above e)
      (holds : (exps e).type ≠ .noException ↔ thrown = true) (distinct : Distinct handler)
      (rest : Around exps (fun v => above v ∨ v = e ∨ Uses v handler) k k') :
      Around exps above (.fin e handler :: k) (.fin e handler thrown :: k')

namespace Around

theorem mono (h : Around exps above k k') {above' : Var → Prop}
    (hsub : ∀ v, above' v → above v) : Around exps above' k k' := by
  induction h generalizing above' with
  | nil => exact .nil
  | seq distinct _ ih => exact .seq distinct (ih fun v => Or.imp_left (hsub v))
  | loop distinct _ ih => exact .loop distinct (ih fun v => Or.imp_left (hsub v))
  | body kept clear keptFin distinctFin distinctHandler _ ih =>
      exact .body (fun h => kept (hsub _ h)) clear keptFin distinctFin distinctHandler
        (ih fun v => Or.imp_left (hsub v))
  | fin kept holds distinct _ ih =>
      exact .fin (fun h => kept (hsub _ h)) holds distinct (ih fun v => Or.imp_left (hsub v))

/-- A variable of what runs before the rest is none the rest depends on. -/
theorem assign (h : Around exps above k k') {e : Var} (he : above e) (x : ExceptionT) :
    Around (Function.update exps e x) above k k' := by
  induction h with
  | nil => exact .nil
  | seq distinct _ ih => exact .seq distinct (ih (.inl he))
  | loop distinct _ ih => exact .loop distinct (ih (.inl he))
  | @body _ t _ _ kept clear keptFin distinctFin distinctHandler _ ih =>
      have hne : t.exp ≠ e := fun heq => kept (heq ▸ he)
      refine .body kept ?_ keptFin distinctFin distinctHandler (ih (.inl he))
      rwa [Function.update_of_ne hne]
  | @fin _ e' _ _ _ _ kept holds distinct _ ih =>
      have hne : e' ≠ e := fun heq => kept (heq ▸ he)
      refine .fin kept ?_ distinct (ih (.inl he))
      rwa [Function.update_of_ne hne]

end Around

/-- Where a `break` or `continue` goes: to the innermost loop or running body. -/
inductive Landing (exps : Var → ExceptionT) (above : Var → Prop) :
    List (Frame σ) → List (Scope σ) → Prop where
  | none : Landing exps above [] []
  | loop {cond : Mem σ → Bool} {s : Stmt σ} {k : List (Frame σ)} {k' : List (Scope σ)}
      (distinct : Distinct s) (rest : Around exps (Uses · s) k k') :
      Landing exps above (.loop cond s :: k) (.loop cond s :: k')
  | body {t : Try σ} {k : List (Frame σ)} {k' : List (Scope σ)}
      (around : Around exps above (.tryBody t :: k) (.body t.exp t.fin t.handler :: k')) :
      Landing exps above (.tryBody t :: k) (.body t.exp t.fin t.handler :: k')

theorem Landing.mono (h : Landing exps above k k') {above' : Var → Prop}
    (hsub : ∀ v, above' v → above v) : Landing exps above' k k' := by
  cases h with
  | none => exact .none
  | loop distinct rest => exact .loop distinct rest
  | body around => exact .body (around.mono hsub)

theorem Around.landing (h : Around exps above k k') :
    Landing exps above (k.dropWhile Frame.inner) (k'.dropWhile Scope.inner) := by
  induction h with
  | nil => exact .none
  | seq _ _ ih => exact ih.mono fun _ => .inl
  | loop distinct rest => exact .loop distinct (rest.mono fun _ => .inr)
  | body kept clear keptFin distinctFin distinctHandler rest =>
      exact .body (.body kept clear keptFin distinctFin distinctHandler rest)
  | fin _ _ _ _ ih => exact ih.mono fun _ => .inl

/-! ## The catchers -/

/-- The catchers of the bodies that are running. -/
def catchers : List (Frame σ) → List (Catcher σ)
  | [] => []
  | .seq _ :: k => catchers k
  | .loop _ _ :: k => catchers k
  | .tryBody t :: k => ⟨.execBody, t.exp, (t, k), 1⟩ :: catchers k
  | .fin _ _ :: k => catchers k

theorem catchers_dropInner (k : List (Frame σ)) :
    catchers (k.dropWhile Frame.inner) = catchers k := by
  induction k with
  | nil => rfl
  | cons frame k ih =>
      cases frame with
      | seq t => exact ih
      | loop cond s => rfl
      | tryBody t => rfl
      | fin e handler => exact ih

theorem entered_of_mem_catchers {c : Catcher σ} (hc : c ∈ catchers k) : c.entered = 1 := by
  induction k with
  | nil => cases hc
  | cons frame k ih =>
      cases frame with
      | seq t => exact ih hc
      | loop cond s => exact ih hc
      | tryBody t =>
          rcases List.mem_cons.mp hc with rfl | hc
          · rfl
          · exact ih hc
      | fin e handler => exact ih hc

/-- Where an exception goes: to the innermost running body, which is the one of the
first catcher. -/
inductive Target (exps : Var → ExceptionT) (above : Var → Prop) (k : List (Frame σ))
    (k' : List (Scope σ)) : Prop where
  | none (catchers_eq : catchers k = []) (scopes_eq : k'.dropWhile Scope.transparent = [])
  | body (t : Try σ) (k₁ : List (Frame σ)) (k₁' : List (Scope σ))
      (catchers_eq : catchers k = ⟨.execBody, t.exp, (t, k₁), 1⟩ :: catchers k₁)
      (scopes_eq : k'.dropWhile Scope.transparent = .body t.exp t.fin t.handler :: k₁')
      (around : Around exps above (.tryBody t :: k₁) (.body t.exp t.fin t.handler :: k₁'))

theorem Target.mono (h : Target exps above k k') {above' : Var → Prop}
    (hsub : ∀ v, above' v → above v) : Target exps above' k k' := by
  cases h with
  | none catchers_eq scopes_eq => exact .none catchers_eq scopes_eq
  | body t k₁ k₁' catchers_eq scopes_eq around =>
      exact .body t k₁ k₁' catchers_eq scopes_eq (around.mono hsub)

theorem Target.left {frame : Frame σ} {scope : Scope σ} (hf : catchers (frame :: k) = catchers k)
    (hs : scope.transparent = true) (h : Target exps above k k') :
    Target exps above (frame :: k) (scope :: k') := by
  have hdrop : (scope :: k').dropWhile Scope.transparent = k'.dropWhile Scope.transparent :=
    List.dropWhile_cons_of_pos hs
  cases h with
  | none catchers_eq scopes_eq => exact .none (hf.trans catchers_eq) (hdrop.trans scopes_eq)
  | body t k₁ k₁' catchers_eq scopes_eq around =>
      exact .body t k₁ k₁' (hf.trans catchers_eq) (hdrop.trans scopes_eq) around

theorem Around.target (h : Around exps above k k') : Target exps above k k' := by
  induction h with
  | nil => exact .none rfl rfl
  | seq _ _ ih => exact (ih.mono fun _ => .inl).left rfl rfl
  | loop _ _ ih => exact (ih.mono fun _ => .inl).left rfl rfl
  | body kept clear keptFin distinctFin distinctHandler rest =>
      exact .body _ _ _ rfl rfl (.body kept clear keptFin distinctFin distinctHandler rest)
  | fin _ _ _ _ ih => exact (ih.mono fun _ => .inl).left rfl rfl

/-! ## The relation -/

/-- `fin` is about to run, with its `CATCH` to follow. -/
structure AtFin (exps : Var → ExceptionT) (t : Try σ) (thrown : Bool) (k : List (Frame σ))
    (k' : List (Scope σ)) : Prop where
  distinct : Distinct t.fin
  around : Around exps (Uses · t.fin) (.fin t.exp t.handler :: k)
    (.fin t.exp t.handler thrown :: k')

theorem Around.atFin {t : Try σ}
    (h : Around exps above (.tryBody t :: k) (.body t.exp t.fin t.handler :: k')) :
    AtFin exps t false k k' := by
  cases h with
  | body _ clear keptFin distinctFin distinctHandler rest =>
      refine ⟨distinctFin, .fin keptFin (by simp [clear]) distinctHandler (rest.mono ?_)⟩
      rintro v (hv | rfl | hv)
      · exact .inr (.inr (.inl hv))
      · exact .inr (.inl rfl)
      · exact .inr (.inr (.inr hv))

theorem Around.atFin_thrown {t : Try σ} {x : ExceptionT} (hx : x.type ≠ .noException)
    (h : Around exps above (.tryBody t :: k) (.body t.exp t.fin t.handler :: k')) :
    AtFin (Function.update exps t.exp x) t true k k' := by
  obtain ⟨distinct, around⟩ := h.atFin
  cases around with
  | fin kept _ distinctHandler rest =>
      refine ⟨distinct, .fin kept ?_ distinctHandler (rest.assign (.inr (.inl rfl)) x)⟩
      simpa using hx

inductive Matches : Config σ → State σ → Prop where
  | run {s : Stmt σ} {k : List (Frame σ)} {k' : List (Scope σ)} {mem : Mem σ}
      (settled : ∀ v, Settled (mem.exps v)) (distinct : Distinct s)
      (around : Around mem.exps (Uses · s) k k') :
      Matches ⟨.run s, k, ⟨mem, catchers k⟩⟩ ⟨.run s, k', mem⟩
  | ret {k : List (Frame σ)} {k' : List (Scope σ)} {mem : Mem σ}
      (settled : ∀ v, Settled (mem.exps v))
      (around : Around mem.exps (fun _ => False) k k') :
      Matches ⟨.ret, k, ⟨mem, catchers k⟩⟩ ⟨.ret, k', mem⟩
  /-- a body is about to be entered -/
  | enter {t : Try σ} {k : List (Frame σ)} {k' : List (Scope σ)} {mem : Mem σ}
      (settled : ∀ v, Settled (mem.exps v)) (distinct : Distinct t.body)
      (around : Around mem.exps (Uses · t.body) (.tryBody t :: k)
        (.body t.exp t.fin t.handler :: k')) :
      Matches ⟨.loopHead t, k, ⟨mem, ⟨.init, t.exp, (t, k), 0⟩ :: catchers k⟩⟩
        ⟨.run t.body, .body t.exp t.fin t.handler :: k', mem⟩
  /-- a body is done, or was left by `continue` or a throw -/
  | again {t : Try σ} {state : CatcherState} {thrown : Bool} {k : List (Frame σ)}
      {k' : List (Scope σ)} {mem : Mem σ} (settled : ∀ v, Settled (mem.exps v))
      (left : state = .execBody ∨ state = .thrown) (atFin : AtFin mem.exps t thrown k k') :
      Matches ⟨.loopHead t, k, ⟨mem, ⟨state, t.exp, (t, k), 1⟩ :: catchers k⟩⟩
        ⟨.run t.fin, .fin t.exp t.handler thrown :: k', mem⟩
  | leave {t : Try σ} {state : CatcherState} {thrown : Bool} {k : List (Frame σ)}
      {k' : List (Scope σ)} {mem : Mem σ} (settled : ∀ v, Settled (mem.exps v))
      (left : state = .execBody ∨ state = .waitFinally)
      (atFin : AtFin mem.exps t thrown k k') :
      Matches ⟨.leave t, k, ⟨mem, ⟨state, t.exp, (t, k), 1⟩ :: catchers k⟩⟩
        ⟨.run t.fin, .fin t.exp t.handler thrown :: k', mem⟩
  | finished {mem : Mem σ} : Matches ⟨.finished, [], ⟨mem, []⟩⟩ ⟨.finished, [], mem⟩
  /-- the program is stopped after `print_exception` -/
  | uncaught {x : ExceptionT} {k : List (Frame σ)} {mem : Mem σ} :
      Matches ⟨.stop outmostScope, k, ⟨{ mem with errno := 0 }, []⟩⟩ ⟨.uncaught x, [], mem⟩

namespace Matches

variable {c : Config σ} {a : State σ}

theorem mem_eq (h : Matches c a) (hc : ∀ why, c.control ≠ .stop why) : c.m.mem = a.mem := by
  cases h with
  | uncaught => exact absurd rfl (hc outmostScope)
  | _ => rfl

theorem phase_eq_run (h : Matches c a) {s : Stmt σ} (hc : c.control = .run s) :
    a.phase = .run s := by
  cases h with
  | run => cases hc; rfl
  | _ => cases hc

theorem finished_iff (h : Matches c a) : c.control = .finished ↔ a.phase = .finished := by
  cases h <;> simp

/-- The machine is stopped by an exception outside of every `TRY` only. -/
theorem stop_iff (h : Matches c a) (why : Snitchaser.Lib.Program.Stop) :
    c.control = .stop why ↔ why = outmostScope ∧ ∃ x, a.phase = .uncaught x := by
  cases h <;> simp [eq_comm]

theorem currCatcher_eq (h : Matches c a)
    (hc : (∃ s, c.control = .run s) ∨ c.control = .ret) :
    c.m.currCatcher = catchers c.cont := by
  cases h with
  | run => rfl
  | ret => rfl
  | _ => simp at hc

theorem entered_le (h : Matches c a) {x : Catcher σ} (hx : x ∈ c.m.currCatcher) :
    x.entered ≤ 1 := by
  cases h with
  | run => exact (entered_of_mem_catchers hx).le
  | ret => exact (entered_of_mem_catchers hx).le
  | finished => cases hx
  | uncaught => cases hx
  | _ =>
      rcases List.mem_cons.mp hx with rfl | hx
      · simp
      · exact (entered_of_mem_catchers hx).le

/-- At a `CATCH` the structured machine has noted whether the body was left by a throw,
and the type in the variable says the same. -/
theorem at_catch (h : Matches c a) {e : Var} {handler : Stmt σ} {k : List (Frame σ)}
    (hret : c.control = .ret) (hcont : c.cont = .fin e handler :: k) :
    ∃ thrown k', a = ⟨.ret, .fin e handler thrown :: k', c.m.mem⟩ ∧
      ((c.m.mem.exps e).type ≠ .noException ↔ thrown = true) := by
  cases h with
  | ret settled around =>
      subst hcont
      cases around with
      | fin kept holds => exact ⟨_, _, rfl, holds⟩
  | _ => cases hret

end Matches

/-- How many steps of the macros' machine may follow that the structured one does not
see. -/
def rank (c : Config σ) : Nat :=
  match c.control with
  | .loopHead _ => 2
  | .leave _ => 1
  | _ => 0

end Snitchaser.Exception.Matching
