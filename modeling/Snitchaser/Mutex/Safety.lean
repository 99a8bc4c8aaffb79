import Snitchaser.Mutex.Model
/-!
# Mutual exclusion and no lost wakeup

Two invariants of the mutex.  `Excl` ties the lock word to the one thread that
has it: a contended release keeps the lock until it clears the word, although
the thread no longer counts as a holder.  `Watched` says that whenever a thread
is blocked, either the word is marked as contended or some thread is on its way
to mark it or to wake another one.
-/

namespace Snitchaser.Mutex.Safety

open Snitchaser.Lib.Transition
open Snitchaser.Mutex.Model

variable {ι : Type*} [DecidableEq ι]

/-! ## Ownership of the lock word -/

/-- The thread keeps every other thread out: it holds the lock, or it has
decremented the word and not yet cleared it. -/
def owns : Pc → Bool
  | .holding | .unlockDec | .unlockSet => true
  | _ => false

structure Excl (s : State ι) : Prop where
  unique : ∀ i j, owns (s.pc i) → owns (s.pc j) → i = j
  range : s.val = 0 ∨ s.val = 1 ∨ s.val = 2
  free_iff : s.val = 0 ↔ ∀ i, owns (s.pc i) = false

theorem owns_put (s : State ι) (i j : ι) (v : Int) (p : Pc) :
    owns ((s.put i v p).pc j) = if j = i then owns p else owns (s.pc j) := by
  by_cases hj : j = i
  · subst hj; simp
  · rw [s.put_pc_of_ne v p hj, if_neg hj]

/-- A step that leaves the thread on the same side of ownership and the word on
the same side of zero. -/
theorem Excl.keep {s : State ι} {i : ι} {v : Int} {p : Pc} (h : Excl s)
    (hp : owns p = owns (s.pc i)) (hv : v = 0 ↔ s.val = 0)
    (hr : v = 0 ∨ v = 1 ∨ v = 2) : Excl (s.put i v p) := by
  have howns : ∀ j, owns ((s.put i v p).pc j) = owns (s.pc j) := by
    intro j
    rw [owns_put]
    split_ifs with hj
    · rw [hj, hp]
    · rfl
  refine ⟨fun j k hj hk => ?_, hr, ?_⟩
  · rw [howns] at hj hk
    exact h.unique j k hj hk
  · simp only [howns, State.put_val, hv]
    exact h.free_iff

theorem Excl.acquire {s : State ι} {i : ι} {v : Int} {p : Pc} (h : Excl s)
    (hfree : s.val = 0) (hp : owns p = true) (hv : v = 1 ∨ v = 2) :
    Excl (s.put i v p) := by
  have hnone := h.free_iff.mp hfree
  have honly : ∀ j, owns ((s.put i v p).pc j) → j = i := by
    intro j hj
    rw [owns_put] at hj
    split_ifs at hj with hji
    · exact hji
    · simp [hnone j] at hj
  refine ⟨fun j k hj hk => (honly j hj).trans (honly k hk).symm, Or.inr hv, ?_⟩
  constructor
  · intro h0
    simp only [State.put_val] at h0
    omega
  · intro hall
    have := hall i
    simp [hp] at this

theorem Excl.release {s : State ι} {i : ι} {p : Pc} (h : Excl s)
    (hi : owns (s.pc i) = true) (hp : owns p = false) : Excl (s.put i 0 p) := by
  have hnone : ∀ j, owns ((s.put i 0 p).pc j) = false := by
    intro j
    rw [owns_put]
    split_ifs with hj
    · exact hp
    · cases hown : owns (s.pc j) with
      | false => rfl
      | true => exact absurd (h.unique j i hown hi) hj
  refine ⟨fun j k hj _ => ?_, Or.inl rfl, ?_⟩
  · rw [hnone j] at hj
    cases hj
  · exact ⟨fun _ => hnone, fun _ => rfl⟩

omit [DecidableEq ι] in
theorem Excl.val_ne_zero {s : State ι} {i : ι} (h : Excl s) (hi : owns (s.pc i) = true) :
    s.val ≠ 0 := by
  intro h0
  rw [h.free_iff.mp h0 i] at hi
  cases hi

theorem owns_loopBody (c : Int) : owns (loopBody c) = false := by
  unfold loopBody
  split_ifs <;> rfl

theorem excl_atomic {s : State ι} {i : ι} {v : Int} {p : Pc} (h : Excl s)
    (hstep : Effect s.val (s.pc i) v p) : Excl (s.put i v p) := by
  have hr := h.range
  generalize hval : s.val = w at hstep
  generalize hpc : s.pc i = q at hstep
  cases hstep with
  | lockFree => exact h.acquire hval rfl (Or.inl rfl)
  | retryFree => exact h.acquire hval rfl (Or.inr rfl)
  | decLast => exact h.release (by rw [hpc]; rfl) rfl
  | clear => exact h.release (by rw [hpc]; rfl) rfl
  | decMarked hne =>
      have hpos := h.val_ne_zero (i := i) (by rw [hpc]; rfl)
      exact h.keep (by rw [hpc]; rfl) (by omega) (by omega)
  | markHeld => exact h.keep (by rw [hpc]; rfl) (by omega) (by omega)
  | lockBusy | retryBusy =>
      exact h.keep (by rw [hpc, owns_loopBody]; rfl) (by rw [hval]) (by rw [← hval]; exact hr)
  | markFree | markMarked | waitBlocks | waitReturns =>
      exact h.keep (by rw [hpc]; rfl) (by rw [hval]) (by omega)

theorem excl_step {s t : State ι} (h : Excl s) (hst : Step s t) : Excl t := by
  have hr := h.range
  cases hst with
  | callLock i hi => exact h.keep (by rw [hi]; rfl) Iff.rfl hr
  | callUnlock i hi => exact h.keep (by rw [hi]; rfl) Iff.rfl hr
  | atomic i v p hi => exact excl_atomic h (effect_of_atomicStep hi)
  | spurious i hi => exact h.keep (by rw [hi]; rfl) Iff.rfl hr
  | wakeOne i j hi hj =>
      have hmid : Excl (s.put j s.val .retryCmpxchg) := h.keep (by rw [hj]; rfl) Iff.rfl hr
      refine hmid.keep ?_ Iff.rfl hr
      have hij : i ≠ j := by
        rintro rfl
        rw [hi] at hj
        cases hj
      rw [State.put_pc_of_ne _ _ _ hij, hi]
      rfl
  | wakeNone i hi => exact h.keep (by rw [hi]; rfl) Iff.rfl hr

theorem excl_of_reachable {s : State ι} (h : (system ι).Reachable s) : Excl s := by
  refine System.Reachable.invariant (P := Excl) ?_ (fun _ _ _ => excl_step) h
  rintro s ⟨hval, hpc⟩
  have hnone : ∀ i, owns (s.pc i) = false := fun i => by rw [hpc i]; rfl
  refine ⟨fun i j hi _ => ?_, Or.inl hval, fun _ => hnone, fun _ => hval⟩
  rw [hnone i] at hi
  cases hi

theorem owns_of_holds {p : Pc} (h : p.holds) : owns p = true := by
  cases p <;> first | rfl | cases h

/-- At most one thread is between the return of `xmutex_lock` and the first
atomic step of `xmutex_unlock`; the word is `0`, `1` or `2`, and not `0` while
some thread is there. -/
theorem xmutex_mutual_exclusion {s : State ι} (h : (system ι).Reachable s) :
    (∀ i j, (s.pc i).holds → (s.pc j).holds → i = j) ∧
      (s.val = 0 ∨ s.val = 1 ∨ s.val = 2) ∧
      (∀ i, (s.pc i).holds → s.val ≠ 0) := by
  have hex := excl_of_reachable h
  refine ⟨fun i j hi hj => ?_, hex.range, fun i hi => ?_⟩
  · exact hex.unique i j (owns_of_holds hi) (owns_of_holds hj)
  · exact hex.val_ne_zero (owns_of_holds hi)

/-- Two threads: one takes the free lock, the other finds it taken, marks the
word and blocks. -/
def contended : State Bool :=
  let start : State Bool := ⟨0, fun _ => .outside⟩
  let held := (start.put false 0 .lockCmpxchg).put false 1 .holding
  ((held.put true 1 .lockCmpxchg).put true 1 .markCmpxchg).put true 2 .waitCall
    |>.put true 2 .blocked

theorem contended_reachable : (system Bool).Reachable contended := by
  have h₀ : (system Bool).Reachable ⟨0, fun _ => .outside⟩ :=
    System.Reachable.start ⟨rfl, fun _ => rfl⟩
  have h₁ := h₀.next (Step.callLock _ false rfl)
  have h₂ := h₁.next (Step.atomic _ false 1 .holding (by decide))
  have h₃ := h₂.next (Step.callLock _ true rfl)
  have h₄ := h₃.next (Step.atomic _ true 1 .markCmpxchg (by decide))
  have h₅ := h₄.next (Step.atomic _ true 2 .waitCall (by decide))
  exact h₅.next (Step.atomic _ true 2 .blocked (by decide))

theorem xmutex_mutual_exclusion_contended :
    (contended.pc false).holds ∧ contended.val ≠ 0 := by
  have hholds : (contended.pc false).holds := by decide
  exact ⟨hholds, (xmutex_mutual_exclusion contended_reachable).2.2 false hholds⟩

/-! ## Blocked threads are watched -/

/-- The thread will mark the word as contended before it blocks again, or it
will wake a blocked thread. -/
def watches : Pc → Bool
  | .markCmpxchg | .retryCmpxchg | .unlockSet | .unlockWake => true
  | _ => false

def Watched (s : State ι) : Prop :=
  (∃ i, s.pc i = .blocked) → s.val = 2 ∨ ∃ j, watches (s.pc j)

theorem watched_of_watches {s : State ι} {i : ι} {v : Int} {p : Pc}
    (hp : watches p = true) : Watched (s.put i v p) :=
  fun _ => Or.inr ⟨i, by simpa using hp⟩

theorem watched_of_marked {s : State ι} {i : ι} {v : Int} {p : Pc} (hv : v = 2) :
    Watched (s.put i v p) :=
  fun _ => Or.inl hv

/-- A step of a thread that does not watch, does not block and does not take the
mark away. -/
theorem Watched.keep {s : State ι} {i : ι} {v : Int} {p : Pc} (h : Watched s)
    (hp : p ≠ .blocked) (hi : watches (s.pc i) = false) (hv : s.val = 2 → v = 2) :
    Watched (s.put i v p) := by
  rintro ⟨k, hk⟩
  have hki : k ≠ i := by
    rintro rfl
    exact hp (by simpa using hk)
  rw [s.put_pc_of_ne v p hki] at hk
  rcases h ⟨k, hk⟩ with hmark | ⟨j, hj⟩
  · exact Or.inl (hv hmark)
  · have hji : j ≠ i := by
      rintro rfl
      rw [hi] at hj
      cases hj
    exact Or.inr ⟨j, by rwa [s.put_pc_of_ne v p hji]⟩

theorem watched_loopBody {s : State ι} {i : ι} {v : Int} : Watched (s.put i v (loopBody v)) := by
  by_cases hv : v = 2
  · exact watched_of_marked hv
  · exact watched_of_watches (by simp [loopBody, hv, watches])

theorem watched_atomic {s : State ι} {i : ι} {v : Int} {p : Pc} (hex : Excl s)
    (h : Watched s) (hstep : Effect s.val (s.pc i) v p) : Watched (s.put i v p) := by
  have hr := hex.range
  generalize hval : s.val = w at hstep
  generalize hpc : s.pc i = q at hstep
  cases hstep with
  | lockFree => exact h.keep (by simp) (by rw [hpc]; rfl) (by omega)
  | decLast => exact h.keep (by simp) (by rw [hpc]; rfl) (by omega)
  | lockBusy | retryBusy => exact watched_loopBody
  | markHeld | retryFree | waitBlocks => exact watched_of_marked rfl
  | markMarked => exact watched_of_marked (by omega)
  | markFree | waitReturns | decMarked | clear => exact watched_of_watches rfl

theorem watched_step {s t : State ι} (hex : Excl s) (h : Watched s) (hst : Step s t) :
    Watched t := by
  cases hst with
  | callLock i hi => exact h.keep (by simp) (by rw [hi]; rfl) id
  | callUnlock i hi => exact h.keep (by simp) (by rw [hi]; rfl) id
  | atomic i v p hi => exact watched_atomic hex h (effect_of_atomicStep hi)
  | spurious i hi => exact watched_of_watches rfl
  | wakeOne i j hi hj =>
      have hji : j ≠ i := by
        rintro rfl
        rw [hi] at hj
        cases hj
      refine fun _ => Or.inr ⟨j, ?_⟩
      rw [State.put_pc_of_ne _ _ _ hji, State.put_pc_same]
      rfl
  | wakeNone i hi hnone =>
      rintro ⟨k, hk⟩
      have hki : k ≠ i := by
        rintro rfl
        simp at hk
      rw [State.put_pc_of_ne _ _ _ hki] at hk
      exact absurd hk (hnone k)

theorem watched_of_reachable {s : State ι} (h : (system ι).Reachable s) : Watched s := by
  refine System.Reachable.invariant (P := Watched) ?_ ?_ h
  · rintro s ⟨-, hpc⟩ ⟨i, hi⟩
    rw [hpc i] at hi
    cases hi
  · exact fun s t hs => watched_step (excl_of_reachable hs)

/-- A marked word is held, or is being released. -/
theorem exists_owns_of_marked {s : State ι} (h : (system ι).Reachable s) (hv : s.val = 2) :
    ∃ i, owns (s.pc i) = true := by
  have hex := excl_of_reachable h
  by_contra hnone
  push Not at hnone
  have := hex.free_iff.mpr fun i => by simpa using hnone i
  omega

/-- No thread is left blocked in `futex_wait` while nobody holds the lock, is
inside `xmutex_unlock`, or is awake inside `xmutex_lock`. -/
theorem xmutex_no_lost_wakeup {s : State ι} (h : (system ι).Reachable s) :
    ¬ ∃ i, s.pc i = .blocked ∧ (∀ j, ¬ (s.pc j).holds) ∧ (∀ j, ¬ (s.pc j).inUnlock) ∧
      ∀ j, j ≠ i → ¬ (s.pc j).locksAwake := by
  rintro ⟨i, hi, hholds, hunlock, hawake⟩
  rcases watched_of_reachable h ⟨i, hi⟩ with hmark | ⟨j, hj⟩
  · obtain ⟨j, hj⟩ := exists_owns_of_marked h hmark
    have hh := hholds j
    have hu := hunlock j
    cases hpc : s.pc j <;> simp_all [owns, Pc.holds, Pc.inUnlock]
  · have hji : j ≠ i := by
      rintro rfl
      rw [hi] at hj
      cases hj
    have ha := hawake j hji
    have hu := hunlock j
    cases hpc : s.pc j <;> simp_all [watches, Pc.locksAwake, Pc.inUnlock]

theorem xmutex_no_lost_wakeup_contended :
    contended.pc true = .blocked ∧
      ¬ ∃ i, contended.pc i = .blocked ∧ (∀ j, ¬ (contended.pc j).holds) ∧
        (∀ j, ¬ (contended.pc j).inUnlock) ∧ ∀ j, j ≠ i → ¬ (contended.pc j).locksAwake :=
  ⟨by decide, xmutex_no_lost_wakeup contended_reachable⟩

end Snitchaser.Mutex.Safety
