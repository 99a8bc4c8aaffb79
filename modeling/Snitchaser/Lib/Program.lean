import Mathlib.Tactic.Common
/-!
# Programs that run to an end or stop

Sequential code over an explicit state.  A run either returns a value or stops
at an assertion, a fatal error or a fault; both outcomes carry the state the
code left behind.  The `_ok_iff` lemmas are a simp set that takes a finished run
apart into its steps; the `_of_ok` and `_of_error` lemmas run a program forward.
-/

namespace Snitchaser.Lib.Program

/-- Why a run does not return.  `exit` is a process that ends without a word; `blocked`
waits for something that never comes; `fuel` is the bound a model puts on the iterations
of a loop, not something the code does. -/
inductive Stop where
  | assertion (cond : String)
  | fatal (comp fmt : String)
  | exit (status : Int)
  | fault
  | blocked
  | fuel
  deriving DecidableEq, Repr

abbrev Prog (σ α : Type) := EStateM Stop σ α

variable {σ τ α β : Type}

def assertThat (cond : Bool) (text : String) : Prog σ Unit :=
  if cond then pure () else throw (.assertion text)

/-! ## Running forward -/

theorem bind_of_ok {p : Prog σ α} {f : α → Prog σ β} {s t : σ} {a : α}
    (h : p s = .ok a t) : (p >>= f) s = f a t := by
  change EStateM.bind p f s = f a t
  rw [EStateM.bind, h]

theorem bind_of_error {p : Prog σ α} {f : α → Prog σ β} {s t : σ} {e : Stop}
    (h : p s = .error e t) : (p >>= f) s = .error e t := by
  change EStateM.bind p f s = .error e t
  rw [EStateM.bind, h]

theorem get_apply (s : σ) : (get : Prog σ σ) s = .ok s s := rfl

theorem modify_apply (f : σ → σ) (s : σ) : (modify f : Prog σ PUnit) s = .ok () (f s) := rfl

theorem assertThat_of_true {cond : Bool} {text : String} {s : σ} (h : cond = true) :
    (assertThat cond text : Prog σ Unit) s = .ok () s := by
  subst h
  rfl

theorem assertThat_of_false {cond : Bool} {text : String} {s : σ} (h : cond = false) :
    (assertThat cond text : Prog σ Unit) s = .error (.assertion text) s := by
  subst h
  rfl

/-! ## Taking a finished run apart -/

@[simp] theorem bind_ok_iff {p : Prog σ α} {f : α → Prog σ β} {s u : σ} {b : β} :
    (p >>= f) s = .ok b u ↔ ∃ a t, p s = .ok a t ∧ f a t = .ok b u := by
  constructor
  · intro h
    cases hp : p s with
    | ok a t => exact ⟨a, t, rfl, by rwa [bind_of_ok hp] at h⟩
    | error e t =>
        rw [bind_of_error hp] at h
        cases h
  · intro h
    obtain ⟨a, t, hp, hf⟩ := h
    rw [bind_of_ok hp, hf]

@[simp] theorem pure_ok_iff {a b : α} {s t : σ} :
    (pure a : Prog σ α) s = .ok b t ↔ b = a ∧ t = s := by
  change EStateM.Result.ok a s = .ok b t ↔ _
  simp only [EStateM.Result.ok.injEq]
  exact ⟨fun h => ⟨h.1.symm, h.2.symm⟩, fun h => ⟨h.1.symm, h.2.symm⟩⟩

@[simp] theorem map_ok_iff {p : Prog σ α} {f : α → β} {s t : σ} {b : β} :
    (f <$> p) s = .ok b t ↔ ∃ a, p s = .ok a t ∧ b = f a := by
  change (p >>= fun a => pure (f a)) s = .ok b t ↔ _
  rw [bind_ok_iff]
  constructor
  · intro h
    obtain ⟨a, u, hp, hf⟩ := h
    obtain ⟨rfl, rfl⟩ := pure_ok_iff.mp hf
    exact ⟨a, hp, rfl⟩
  · intro h
    obtain ⟨a, hp, rfl⟩ := h
    exact ⟨a, t, hp, pure_ok_iff.mpr ⟨rfl, rfl⟩⟩

@[simp] theorem get_ok_iff {a s t : σ} :
    (get : Prog σ σ) s = .ok a t ↔ a = s ∧ t = s := by
  change EStateM.Result.ok s s = .ok a t ↔ _
  simp only [EStateM.Result.ok.injEq]
  exact ⟨fun h => ⟨h.1.symm, h.2.symm⟩, fun h => ⟨h.1.symm, h.2.symm⟩⟩

@[simp] theorem set_ok_iff {a s t : σ} {u : PUnit} :
    (set a : Prog σ PUnit) s = .ok u t ↔ t = a := by
  change EStateM.Result.ok PUnit.unit a = .ok u t ↔ _
  simp only [EStateM.Result.ok.injEq, true_and]
  exact eq_comm

@[simp] theorem modify_ok_iff {f : σ → σ} {s t : σ} {u : PUnit} :
    (modify f : Prog σ PUnit) s = .ok u t ↔ t = f s := by
  change EStateM.Result.ok PUnit.unit (f s) = .ok u t ↔ _
  simp only [EStateM.Result.ok.injEq, true_and]
  exact eq_comm

@[simp] theorem throw_ok_iff {e : Stop} {s t : σ} {a : α} :
    (throw e : Prog σ α) s = .ok a t ↔ False := by
  change EStateM.Result.error e s = .ok a t ↔ False
  simp only [reduceCtorEq]

@[simp] theorem assertThat_ok_iff {cond : Bool} {text : String} {s t : σ} {u : Unit} :
    (assertThat cond text : Prog σ Unit) s = .ok u t ↔ cond = true ∧ t = s := by
  cases cond with
  | false => simp [assertThat]
  | true => simp [assertThat]

@[simp] theorem ofExcept_ok_iff {r : Except Stop α} {s t : σ} {a : α} :
    (ofExcept r : Prog σ α) s = .ok a t ↔ r = .ok a ∧ t = s := by
  cases r with
  | error e => simp [ofExcept]
  | ok b =>
      change (pure b : Prog σ α) s = .ok a t ↔ _
      rw [pure_ok_iff, Except.ok.injEq]
      exact and_congr_left' eq_comm

theorem ok_bind {a : α} {f : α → Except Stop β} : (Except.ok a >>= f) = f a := rfl

theorem except_bind_ok_iff {x : Except Stop α} {f : α → Except Stop β} {b : β} :
    (x >>= f) = .ok b ↔ ∃ a, x = .ok a ∧ f a = .ok b := by
  cases x with
  | error e =>
      constructor
      · intro h
        cases h
      · rintro ⟨a, ha, _⟩
        cases ha
  | ok a =>
      constructor
      · intro h
        exact ⟨a, rfl, h⟩
      · rintro ⟨a', ha, h⟩
        cases ha
        exact h

end Snitchaser.Lib.Program
