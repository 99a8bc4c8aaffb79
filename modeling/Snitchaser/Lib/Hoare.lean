import Snitchaser.Lib.Program
/-!
# Pre- and postconditions of programs

`Ends p s Q E` covers both ways a run of `p` from `s` can end: a return
satisfies `Q`, a stop satisfies `E`.  With `E` false it is total correctness,
with `E` true it is partial correctness.  The rules are equivalences, so a
straight-line program is taken apart by `simp`.
-/

namespace Snitchaser.Lib.Hoare

open Snitchaser.Lib.Program

variable {σ τ α β : Type}

/-- A return of `p` from `s` satisfies `Q`, a stop satisfies `E`. -/
def Ends (p : Prog σ α) (s : σ) (Q : α → σ → Prop) (E : Stop → Prop) : Prop :=
  match p s with
  | .ok a t => Q a t
  | .error e _ => E e

section Rules

variable {Q : β → σ → Prop} {E : Stop → Prop} {s : σ}

@[simp] theorem ends_pure {b : β} : Ends (pure b) s Q E ↔ Q b s := Iff.rfl

@[simp] theorem ends_throw {e : Stop} : Ends (throw e : Prog σ β) s Q E ↔ E e := Iff.rfl

@[simp] theorem ends_bind {p : Prog σ α} {f : α → Prog σ β} :
    Ends (p >>= f) s Q E ↔ Ends p s (fun a t => Ends (f a) t Q E) E := by
  unfold Ends
  cases hp : p s with
  | ok a t => rw [bind_of_ok hp]
  | error e t => rw [bind_of_error hp]

@[simp] theorem ends_get {P : σ → σ → Prop} : Ends get s P E ↔ P s s := Iff.rfl

@[simp] theorem ends_set {a : σ} {P : PUnit → σ → Prop} : Ends (set a) s P E ↔ P () a := Iff.rfl

@[simp] theorem ends_modify {f : σ → σ} {P : PUnit → σ → Prop} :
    Ends (modify f) s P E ↔ P () (f s) := Iff.rfl

@[simp] theorem ends_assertThat {cond : Bool} {text : String} {P : Unit → σ → Prop} :
    Ends (assertThat cond text) s P E ↔
      (cond = true → P () s) ∧ (cond = false → E (.assertion text)) := by
  cases cond with
  | false => simp [assertThat]
  | true => simp [assertThat]

theorem ends_ofExcept {r : Except Stop β} :
    Ends (ofExcept r) s Q E ↔ match r with
      | .ok b => Q b s
      | .error e => E e := by
  cases r with
  | ok b => rfl
  | error e => rfl

theorem ends_ite {c : Prop} [Decidable c] {p q : Prog σ β} :
    Ends (if c then p else q) s Q E ↔ (c → Ends p s Q E) ∧ (¬ c → Ends q s Q E) := by
  by_cases hc : c
  · simp [hc]
  · simp [hc]

end Rules

namespace Ends

variable {p : Prog σ α} {s : σ} {Q Q' : α → σ → Prop} {E E' : Stop → Prop}

theorem mono (h : Ends p s Q E) (hQ : ∀ a t, Q a t → Q' a t) (hE : ∀ e, E e → E' e) :
    Ends p s Q' E' := by
  unfold Ends at h ⊢
  cases hp : p s with
  | ok a t =>
      rw [hp] at h
      exact hQ a t h
  | error e t =>
      rw [hp] at h
      exact hE e h

theorem intro_ok {a : α} {t : σ} (hp : p s = .ok a t) (hQ : Q a t) : Ends p s Q E := by
  unfold Ends
  rw [hp]
  exact hQ

theorem post (h : Ends p s Q E) (hQ : ∀ a t, Q a t → Q' a t) : Ends p s Q' E :=
  h.mono hQ fun _ => id

theorem of_ok {a : α} {t : σ} (h : Ends p s Q E) (hp : p s = .ok a t) : Q a t := by
  unfold Ends at h
  rwa [hp] at h

theorem returns (h : Ends p s Q fun _ => False) : ∃ a t, p s = .ok a t ∧ Q a t := by
  unfold Ends at h
  cases hp : p s with
  | ok a t =>
      rw [hp] at h
      exact ⟨a, t, rfl, h⟩
  | error e t =>
      rw [hp] at h
      exact h.elim

theorem stops (h : Ends p s (fun _ _ => False) E) : ∃ e t, p s = .error e t ∧ E e := by
  unfold Ends at h
  cases hp : p s with
  | ok a t =>
      rw [hp] at h
      exact h.elim
  | error e t =>
      rw [hp] at h
      exact ⟨e, t, rfl, h⟩

end Ends

/-! ## Runs that come to their end -/

/-- The run from `s` comes to its end. -/
structure Returns (p : Prog σ α) (s : σ) : Prop where
  exists_ok : ∃ a t, p s = .ok a t

theorem returns_iff_ends {p : Prog σ α} {s : σ} :
    Returns p s ↔ Ends p s (fun _ _ => True) fun _ => False := by
  constructor
  · intro h
    obtain ⟨a, t, hp⟩ := h.exists_ok
    exact Ends.intro_ok hp trivial
  · intro h
    obtain ⟨a, t, hp, _⟩ := h.returns
    exact ⟨a, t, hp⟩

instance (p : Prog σ α) (s : σ) : Decidable (Returns p s) :=
  match h : p s with
  | .ok a t => isTrue ⟨a, t, h⟩
  | .error e t => isFalse fun hret => by
      obtain ⟨_, _, hok⟩ := hret.exists_ok
      rw [h] at hok
      cases hok

/-- If the second part runs to its end from every state or from none, what the first
part leaves does not matter. -/
theorem returns_seq {p : Prog σ α} {q : Prog σ β} {s : σ} {c d : Prop} (hp : Returns p s ↔ c)
    (hq : ∀ t, Returns q t ↔ d) : Returns (p >>= fun _ => q) s ↔ c ∧ d := by
  rw [← hp]
  constructor
  · intro h
    obtain ⟨b, u, hrun⟩ := h.exists_ok
    obtain ⟨a, t, hfirst, hsecond⟩ := bind_ok_iff.mp hrun
    exact ⟨⟨a, t, hfirst⟩, (hq t).mp ⟨b, u, hsecond⟩⟩
  · intro h
    obtain ⟨a, t, hfirst⟩ := h.1.exists_ok
    obtain ⟨b, u, hsecond⟩ := ((hq t).mpr h.2).exists_ok
    exact ⟨b, u, bind_ok_iff.mpr ⟨a, t, hfirst, hsecond⟩⟩

theorem returns_bind_of_ok {p : Prog σ α} {f : α → Prog σ β} {s t : σ} {a : α}
    (h : p s = .ok a t) : Returns (p >>= f) s ↔ Returns (f a) t := by
  rw [returns_iff_ends, returns_iff_ends, Ends, bind_of_ok h, Ends]

theorem returns_bind_pure {p : Prog σ α} {f : α → β} {s : σ} :
    Returns (p >>= fun a => pure (f a)) s ↔ Returns p s := by
  rw [returns_iff_ends, returns_iff_ends, ends_bind]
  simp only [ends_pure]

/-! ## What holds however a run ends -/

/-- The state a run leaves behind. -/
def after (p : Prog σ α) (s : σ) : σ :=
  match p s with
  | .ok _ t => t
  | .error _ t => t

theorem after_bind {p : Prog σ α} {f : α → Prog σ β} {s : σ} {P : σ → Prop} (hp : P (after p s))
    (hf : ∀ a t, p s = .ok a t → P (after (f a) t)) : P (after (p >>= f) s) := by
  unfold after at hp ⊢
  cases hrun : p s with
  | ok a t =>
      rw [bind_of_ok hrun]
      exact hf a t hrun
  | error e t =>
      rw [hrun] at hp
      rw [bind_of_error hrun]
      exact hp

/-- A run from a state in `I` ends in `I`, whether it returns or stops. -/
structure Keeps (I : σ → Prop) (p : Prog σ α) : Prop where
  after : ∀ s, I s → I (after p s)

namespace Keeps

variable {I : σ → Prop} {p : Prog σ α} {f : α → Prog σ β}

theorem pure (a : α) : Keeps I (Pure.pure a : Prog σ α) := ⟨fun _ h => h⟩

theorem throw (e : Stop) : Keeps I (MonadExcept.throw e : Prog σ α) := ⟨fun _ h => h⟩

theorem get : Keeps I (MonadState.get : Prog σ σ) := ⟨fun _ h => h⟩

theorem modify {g : σ → σ} (h : ∀ s, I s → I (g s)) : Keeps I (modify g : Prog σ PUnit) := ⟨h⟩

theorem bind (hp : Keeps I p) (hf : ∀ a, Keeps I (f a)) : Keeps I (p >>= f) := by
  constructor
  intro s hs
  have hkept := hp.after s hs
  apply after_bind hkept
  intro a t hrun
  rw [Hoare.after, hrun] at hkept
  exact (hf a).after t hkept

theorem ite {c : Prop} [Decidable c] {q : Prog σ α} (hp : c → Keeps I p) (hq : ¬ c → Keeps I q) :
    Keeps I (if c then p else q) := by
  by_cases hc : c
  · rw [if_pos hc]
    exact hp hc
  · rw [if_neg hc]
    exact hq hc

theorem assertThat (cond : Bool) (text : String) :
    Keeps I (Program.assertThat cond text : Prog σ Unit) := by
  unfold Program.assertThat
  exact ite (fun _ => pure ()) fun _ => throw _

end Keeps

/-! ## Loops -/

/-- One call for each item.  The invariant is indexed by the items done, and a
call knows which item of which list it is. -/
theorem ends_forM {f : β → Prog σ PUnit} {I : List β → σ → Prop} {E : Stop → Prop}
    {xs : List β}
    (hstep : ∀ done x rest s, xs = done ++ x :: rest → I done s →
      Ends (f x) s (fun _ t => I (done ++ [x]) t) E)
    {s : σ} (h : I [] s) : Ends (forM xs f) s (fun _ t => I xs t) E := by
  suffices hfrom : ∀ rest done s, xs = done ++ rest → I done s →
      Ends (forM rest f) s (fun _ t => I xs t) E from hfrom xs [] s rfl h
  intro rest
  induction rest with
  | nil =>
      intro done s hxs hI
      rw [hxs, List.append_nil]
      simpa using hI
  | cons x rest ih =>
      intro done s hxs hI
      rw [List.forM_cons, ends_bind]
      refine (hstep done x rest s hxs hI).post fun _ t ht => ?_
      exact ih (done ++ [x]) t (by rw [hxs, List.append_assoc, List.singleton_append]) ht

/-- Run a program on a part of the state. -/
def zoom (view : σ → τ) (put : τ → σ → σ) (p : Prog τ α) : Prog σ α := fun s =>
  match p (view s) with
  | .ok a t => .ok a (put t s)
  | .error e t => .error e (put t s)

@[simp] theorem ends_zoom {view : σ → τ} {put : τ → σ → σ} {p : Prog τ α} {s : σ}
    {Q : α → σ → Prop} {E : Stop → Prop} :
    Ends (zoom view put p) s Q E ↔ Ends p (view s) (fun a t => Q a (put t s)) E := by
  unfold Ends zoom
  cases p (view s) with
  | ok a t => rfl
  | error e t => rfl

@[simp] theorem zoom_ok_iff {view : σ → τ} {put : τ → σ → σ} {p : Prog τ α} {s u : σ} {a : α} :
    zoom view put p s = .ok a u ↔ ∃ t, p (view s) = .ok a t ∧ u = put t s := by
  unfold zoom
  cases p (view s) with
  | ok b t =>
      simp only [EStateM.Result.ok.injEq]
      constructor
      · rintro ⟨rfl, rfl⟩
        exact ⟨t, ⟨rfl, rfl⟩, rfl⟩
      · rintro ⟨_, ⟨rfl, rfl⟩, rfl⟩
        exact ⟨rfl, rfl⟩
  | error e t => simp

/-! ## Programs that only write

`out` is the part of the state a program appends to. -/

/-- From every state `p` returns having appended `bs`, or stops as `E` says. -/
structure Outputs (out : σ → List β) (p : Prog σ Unit) (bs : List β) (E : Stop → Prop) :
    Prop where
  ends : ∀ s, Ends p s (fun _ t => out t = out s ++ bs) E

namespace Outputs

variable {out : σ → List β} {p q : Prog σ Unit} {bs cs : List β} {E E' : Stop → Prop}

theorem pure : Outputs out (Pure.pure ()) [] E := by
  constructor
  intro s
  simp

theorem seq (hp : Outputs out p bs E) (hq : Outputs out q cs E) :
    Outputs out (p >>= fun _ => q) (bs ++ cs) E := by
  constructor
  intro s
  rw [ends_bind]
  refine (hp.ends s).post fun _ t ht => ?_
  refine (hq.ends t).post fun _ u hu => ?_
  rw [hu, ht, List.append_assoc]

theorem mono (hp : Outputs out p bs E) (hE : ∀ e, E e → E' e) : Outputs out p bs E' :=
  ⟨fun s => (hp.ends s).mono (fun _ _ => id) hE⟩

/-- A check that writes nothing, before the rest. -/
theorem check {cond : Bool} {text : String} (hp : cond = true → Outputs out p bs E)
    (hE : cond = false → E (.assertion text)) :
    Outputs out (assertThat cond text >>= fun _ => p) bs E := by
  constructor
  intro s
  rw [ends_bind, ends_assertThat]
  exact ⟨fun hc => (hp hc).ends s, hE⟩

theorem passed {c : Prop} [Decidable c] {text : String} (hc : c) (hp : Outputs out p bs E) :
    Outputs out (assertThat (decide c) text >>= fun _ => p) bs E :=
  check (fun _ => hp) fun hno => absurd hc (of_decide_eq_false hno)

theorem forM {f : α → Prog σ PUnit} {g : α → List β} {xs : List α}
    (h : ∀ x ∈ xs, Outputs out (f x) (g x) E) :
    Outputs out (ForM.forM xs f) (xs.flatMap g) E := by
  induction xs with
  | nil => exact pure
  | cons x xs ih =>
      rw [List.forM_cons, List.flatMap_cons]
      exact (h x (by simp)).seq (ih fun y hy => h y (by simp [hy]))

end Outputs

end Snitchaser.Lib.Hoare
