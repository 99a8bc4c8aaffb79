import Snitchaser.Lib.Hoare
import Snitchaser.Startup.Model
/-!
# Scanning a startup stack

What each loop does on the vectors it runs over.
-/

namespace Snitchaser.Startup.Scan

open Snitchaser.Elf.Model (Loaded sizeofElfPhdr)
open Snitchaser.Lib.ByteMemory
open Snitchaser.Lib.Hoare
open Snitchaser.Lib.Program
open Snitchaser.Lib.Words
open Snitchaser.Startup.Model

/-! ## Memory -/

section Access

variable {s : State} {a v : Nat} {E : Stop → Prop}

theorem ends_load {Q : Nat → State → Prop} (hlow : s.low ≤ a) (hhigh : a + 4 ≤ s.high)
    (hQ : Q (word s.mem a) s) : Ends (load a) s Q E := by
  rw [load, ends_bind, ends_get, if_pos ⟨hlow, hhigh⟩, ends_pure]
  exact hQ

theorem ends_load_fault {Q : Nat → State → Prop} (hout : a < s.low) (hE : E .fault) :
    Ends (load a) s Q E := by
  rw [load, ends_bind, ends_get, if_neg (by omega), ends_throw]
  exact hE

theorem ends_loadByte {Q : UInt8 → State → Prop} (hlow : s.low ≤ a) (hhigh : a < s.high)
    (hQ : Q (s.mem a) s) : Ends (loadByte a) s Q E := by
  rw [loadByte, ends_bind, ends_get, if_pos ⟨hlow, hhigh⟩, ends_pure]
  exact hQ

theorem ends_loadByte_fault {Q : UInt8 → State → Prop} (hout : ¬ (s.low ≤ a ∧ a < s.high))
    (hE : E .fault) : Ends (loadByte a) s Q E := by
  rw [loadByte, ends_bind, ends_get, if_neg hout, ends_throw]
  exact hE

theorem ends_store {Q : Unit → State → Prop} (hlow : s.low ≤ a) (hhigh : a + 4 ≤ s.high)
    (hQ : Q () { s with mem := setWord s.mem a v }) : Ends (store a v) s Q E := by
  rw [store, ends_bind, ends_get, if_pos ⟨hlow, hhigh⟩, ends_set]
  exact hQ

end Access

/-! ## Pointers and strings -/

section Loops

variable {s : State} {E : Stop → Prop} {Q : Nat → State → Prop} {fuel : Nat}

theorem ends_skipPointers {ps : List Nat} {a : Nat} (hmem : WordsAt s.mem a (ps ++ [0]))
    (hne : ∀ p ∈ ps, p ≠ 0) (hlow : s.low ≤ a) (hhigh : a + 4 * ps.length + 4 ≤ s.high)
    (hfuel : ps.length < fuel) (hQ : Q (a + 4 * ps.length) s) :
    Ends (skipPointers fuel a) s Q E := by
  induction ps generalizing a fuel with
  | nil =>
      obtain ⟨fuel, rfl⟩ := Nat.exists_eq_succ_of_ne_zero (Nat.ne_zero_of_lt hfuel)
      rw [skipPointers, ends_bind]
      apply ends_load hlow hhigh
      rw [hmem.1, if_neg (not_not.mpr rfl), ends_pure]
      exact hQ
  | cons p ps ih =>
      obtain ⟨fuel, rfl⟩ := Nat.exists_eq_succ_of_ne_zero (Nat.ne_zero_of_lt hfuel)
      rw [List.length_cons] at hhigh hfuel hQ
      rw [skipPointers, ends_bind]
      apply ends_load hlow (by omega)
      rw [hmem.1, if_pos (hne p List.mem_cons_self)]
      apply ih hmem.2 (fun q hq => hne q (List.mem_cons_of_mem p hq)) (by omega) (by omega)
        (by omega)
      rwa [show a + 4 + 4 * ps.length = a + 4 * (ps.length + 1) by omega]

theorem ends_skipString {p n : Nat} (hstring : StringAt s.mem p n) (hlow : s.low ≤ p)
    (hhigh : p + n < s.high) (hfuel : n < fuel) (hQ : Q (p + n) s) :
    Ends (skipString fuel p) s Q E := by
  induction n generalizing p fuel with
  | zero =>
      obtain ⟨fuel, rfl⟩ := Nat.exists_eq_succ_of_ne_zero (Nat.ne_zero_of_lt hfuel)
      rw [skipString, ends_bind]
      have hnul : s.mem p = 0 := hstring.2
      apply ends_loadByte hlow hhigh
      rw [hnul, if_neg (not_not.mpr rfl), ends_pure]
      exact hQ
  | succ n ih =>
      obtain ⟨fuel, rfl⟩ := Nat.exists_eq_succ_of_ne_zero (Nat.ne_zero_of_lt hfuel)
      rw [skipString, ends_bind]
      have hfirst : s.mem p ≠ 0 := hstring.1 0 (by omega)
      apply ends_loadByte hlow (by omega)
      rw [if_pos hfirst]
      have hrest : StringAt s.mem (p + 1) n := by
        constructor
        · intro i hi
          rw [show p + 1 + i = p + (i + 1) by omega]
          exact hstring.1 (i + 1) (by omega)
        · rw [show p + 1 + n = p + (n + 1) by omega]
          exact hstring.2
      apply ih hrest (by omega) (by omega) (by omega)
      rwa [show p + 1 + n = p + (n + 1) by omega]

/-- There is no string at a pointer to nowhere. -/
theorem ends_skipString_fault {p : Nat} (hout : ¬ (s.low ≤ p ∧ p < s.high)) (hfuel : fuel ≠ 0)
    (hE : E .fault) : Ends (skipString fuel p) s Q E := by
  obtain ⟨fuel, rfl⟩ := Nat.exists_eq_succ_of_ne_zero hfuel
  rw [skipString, ends_bind]
  exact ends_loadByte_fault hout hE

/-- The loop over zeros ends at the first other byte, or runs out of the stack. -/
theorem ends_skipZeros {p : Nat} (hlow : s.low ≤ p) (hfuel : s.high - p < fuel)
    (hQ : ∀ q, p ≤ q → s.mem q ≠ 0 → (∀ x, p ≤ x → x < q → s.mem x = 0) → Q q s)
    (hE : (∀ x, p ≤ x → x < s.high → s.mem x = 0) → E .fault) :
    Ends (skipZeros fuel p) s Q E := by
  induction fuel generalizing p with
  | zero => omega
  | succ fuel ih =>
      rw [skipZeros, ends_bind]
      by_cases hhigh : p < s.high
      · apply ends_loadByte hlow hhigh
        have hstart : s.mem p = 0 → ∀ x, p ≤ x → ¬ p + 1 ≤ x → s.mem x = 0 := by
          intro hzero x hle hnot
          rwa [show x = p by omega]
        by_cases hzero : s.mem p = 0
        · rw [if_pos hzero]
          apply ih (by omega) (by omega)
          · intro q hle hq hzeros
            apply hQ q (by omega) hq
            intro x hx hlt
            by_cases hnext : p + 1 ≤ x
            · exact hzeros x hnext hlt
            · exact hstart hzero x hx hnext
          · intro hzeros
            apply hE
            intro x hx hlt
            by_cases hnext : p + 1 ≤ x
            · exact hzeros x hnext hlt
            · exact hstart hzero x hx hnext
        · rw [if_neg hzero, ends_pure]
          exact hQ p (Nat.le_refl p) hzero fun x hx hlt => absurd hx (by omega)
      · exact ends_loadByte_fault (by omega) (hE fun x hx hlt => absurd hx (by omega))

end Loops

/-! ## The auxiliary vector -/

section Auxv

variable {auxv : List (Nat × Nat)} {p t v : Nat} {m : Memory}

theorem wordsAt_auxv_cons {e : Nat × Nat} :
    WordsAt m p (auxWords (e :: auxv) ++ [atNull]) ↔
      word m p = e.1 ∧ word m (p + 4) = e.2 ∧ WordsAt m (p + 8) (auxWords auxv ++ [atNull]) :=
  Iff.rfl

theorem length_auxWords (auxv : List (Nat × Nat)) : (auxWords auxv).length = 2 * auxv.length := by
  induction auxv with
  | nil => rfl
  | cons e auxv ih =>
      change (auxWords auxv).length + 2 = 2 * (auxv.length + 1)
      omega

/-- The entry of type `t` is the only one of that type. -/
def Once (t : Nat) (auxv : List (Nat × Nat)) : Prop := (auxv.map Prod.fst).count t = 1

instance (t : Nat) (auxv : List (Nat × Nat)) : Decidable (Once t auxv) :=
  inferInstanceAs (Decidable ((auxv.map Prod.fst).count t = 1))

/-- The address of the value of the first entry of type `t`, in a vector at `p`. -/
def slotOf (t : Nat) : Nat → List (Nat × Nat) → Nat
  | _, [] => 0
  | p, e :: auxv => if e.1 = t then p + 4 else slotOf t (p + 8) auxv

/-- The vector with `v` as the value for type `t`. -/
def assign (t v : Nat) (e : Nat × Nat) : Nat × Nat := if e.1 = t then (t, v) else e

theorem fst_assign (e : Nat × Nat) : (assign t v e).1 = e.1 := by
  unfold assign
  split_ifs with h
  · exact h.symm
  · rfl

theorem map_fst_assign (auxv : List (Nat × Nat)) :
    (auxv.map (assign t v)).map Prod.fst = auxv.map Prod.fst := by
  rw [List.map_map]
  exact List.map_congr_left fun e _ => fst_assign e

theorem slotOf_congr {auxv' : List (Nat × Nat)} (h : auxv'.map Prod.fst = auxv.map Prod.fst) :
    slotOf t p auxv' = slotOf t p auxv := by
  induction auxv generalizing auxv' p with
  | nil =>
      rw [List.map_eq_nil_iff.mp h]
  | cons e auxv ih =>
      obtain ⟨e', auxv', rfl, hfst, hrest⟩ := List.map_eq_cons_iff.mp h
      rw [slotOf, slotOf, hfst, ih hrest]

theorem slotOf_mem (h : t ∈ auxv.map Prod.fst) :
    p + 4 ≤ slotOf t p auxv ∧ slotOf t p auxv + 4 ≤ p + 8 * auxv.length := by
  induction auxv generalizing p with
  | nil => cases h
  | cons e auxv ih =>
      rw [slotOf, List.length_cons]
      split_ifs with heq
      · omega
      · have hrest : t ∈ auxv.map Prod.fst := by
          rw [List.map_cons, List.mem_cons] at h
          exact h.resolve_left fun h => heq h.symm
        have hih := ih hrest (p := p + 8)
        omega

theorem Once.mem (h : Once t auxv) : t ∈ auxv.map Prod.fst :=
  List.count_pos_iff.mp (by rw [h]; exact Nat.one_pos)

theorem not_mem_of_once_cons {e : Nat × Nat} (h : Once t (e :: auxv)) (heq : e.1 = t) :
    t ∉ auxv.map Prod.fst := by
  rw [Once, List.map_cons, heq, List.count_cons_self] at h
  exact List.count_eq_zero.mp (by omega)

theorem once_of_cons_ne {e : Nat × Nat} (h : Once t (e :: auxv)) (hne : e.1 ≠ t) :
    Once t auxv := by
  rwa [Once, List.map_cons, List.count_cons_of_ne hne] at h

theorem map_assign_of_not_mem (h : t ∉ auxv.map Prod.fst) : auxv.map (assign t v) = auxv := by
  conv_rhs => rw [← List.map_id auxv]
  apply List.map_congr_left
  intro e he
  have hne : e.1 ≠ t := by
    intro heq
    rw [← heq] at h
    exact h (List.mem_map_of_mem he)
  rw [assign, if_neg hne, id]

/-- What is at the slot of a type. -/
theorem word_slotOf (hmem : WordsAt m p (auxWords auxv ++ [atNull])) (honce : Once t auxv)
    (he : (t, v) ∈ auxv) : word m (slotOf t p auxv) = v := by
  induction auxv generalizing p with
  | nil => cases he
  | cons e auxv ih =>
      obtain ⟨_, hval, hrest⟩ := wordsAt_auxv_cons.mp hmem
      rw [slotOf]
      split_ifs with heq
      · have hnot := not_mem_of_once_cons honce heq
        rcases List.mem_cons.mp he with rfl | hin
        · exact hval
        · exact absurd (List.mem_map_of_mem hin) hnot
      · refine ih hrest (once_of_cons_ne honce heq) ?_
        exact (List.mem_cons.mp he).resolve_left fun h => heq (by rw [← h])

/-- Writing to the slot of a type changes the value of its entry. -/
theorem wordsAt_set_slotOf (hmem : WordsAt m p (auxWords auxv ++ [atNull]))
    (honce : Once t auxv) (hv : v < 2 ^ 32) :
    WordsAt (setWord m (slotOf t p auxv) v) p (auxWords (auxv.map (assign t v)) ++ [atNull]) := by
  induction auxv generalizing p with
  | nil => cases honce
  | cons e auxv ih =>
      obtain ⟨htype, hval, hrest⟩ := wordsAt_auxv_cons.mp hmem
      rw [List.map_cons, wordsAt_auxv_cons, slotOf]
      split_ifs with heq
      · rw [assign, if_pos heq, map_assign_of_not_mem (not_mem_of_once_cons honce heq)]
        refine ⟨?_, word_setWord_same hv, hrest.setWord_outside (Or.inl le_rfl)⟩
        rw [word_setWord_apart (by omega), htype, heq]
      · have honce' := once_of_cons_ne honce heq
        have hslot := slotOf_mem honce'.mem (p := p + 8)
        rw [assign, if_neg heq]
        refine ⟨?_, ?_, ih hrest honce'⟩
        · rw [word_setWord_apart (by omega), htype]
        · rw [word_setWord_apart (by omega), hval]

/-! ## What `init_auxv_info` notes -/

theorem ofType_type (f : AuxField) : AuxField.ofType f.type = some f := by
  cases f <;> rfl

theorem type_of_ofType {f : AuxField} (h : AuxField.ofType t = some f) : f.type = t := by
  unfold AuxField.ofType at h
  split_ifs at h with h1 h2 h3 h4 h5 h6 h7 <;> cases h <;> exact Eq.symm ‹_›

/-- The pointers after a round of the loop. -/
def noteEntry (t p : Nat) (f : AuxField → Nat) : AuxField → Nat :=
  match AuxField.ofType t with
  | some g => Function.update f g (p + 4)
  | none => f

/-- The pointers after the loop. -/
def noted : List (Nat × Nat) → Nat → (AuxField → Nat) → AuxField → Nat
  | [], _, f => f
  | e :: auxv, p, f => noted auxv (p + 8) (noteEntry e.1 p f)

variable {f : AuxField → Nat} {g : AuxField}

theorem noteEntry_self : noteEntry g.type p f g = p + 4 := by
  rw [noteEntry, ofType_type]
  exact Function.update_self _ _ _

theorem noteEntry_of_ne (h : t ≠ g.type) : noteEntry t p f g = f g := by
  unfold noteEntry
  cases htype : AuxField.ofType t with
  | none => rfl
  | some g' =>
      apply Function.update_of_ne
      rintro rfl
      exact h (type_of_ofType htype).symm

theorem noted_of_not_mem (h : g.type ∉ auxv.map Prod.fst) : noted auxv p f g = f g := by
  induction auxv generalizing p f with
  | nil => rfl
  | cons e auxv ih =>
      rw [List.map_cons, List.mem_cons, not_or] at h
      rw [noted, ih h.2, noteEntry_of_ne (Ne.symm h.1)]

theorem noted_mem (h : g.type ∈ auxv.map Prod.fst) :
    p + 4 ≤ noted auxv p f g ∧ noted auxv p f g + 4 ≤ p + 8 * auxv.length := by
  induction auxv generalizing p f with
  | nil => cases h
  | cons e auxv ih =>
      rw [noted, List.length_cons]
      by_cases hrest : g.type ∈ auxv.map Prod.fst
      · have hih := ih hrest (p := p + 8) (f := noteEntry e.1 p f)
        omega
      · rw [List.map_cons, List.mem_cons] at h
        rw [noted_of_not_mem hrest, ← h.resolve_right hrest, noteEntry_self]
        omega

theorem noted_of_once (h : Once g.type auxv) : noted auxv p f g = slotOf g.type p auxv := by
  induction auxv generalizing p f with
  | nil => cases h
  | cons e auxv ih =>
      rw [noted, slotOf]
      split_ifs with heq
      · rw [noted_of_not_mem (not_mem_of_once_cons h heq), heq, noteEntry_self]
      · exact ih (once_of_cons_ne h heq)

end Auxv

/-! ## The loops over the auxiliary vector -/

section AuxvLoops

variable {s : State} {auxv : List (Nat × Nat)} {p fuel : Nat} {E : Stop → Prop}

theorem ends_auxvEntry {Q : Unit → State → Prop} {t v : Nat} (hval : word s.mem (p + 4) = v)
    (hlow : s.low ≤ p + 4) (hhigh : p + 8 ≤ s.high)
    (hQ : (t = atPhent → v = sizeofElfPhdr) →
      Q () { s with info := { s.info with auxvInfo := noteEntry t p s.info.auxvInfo } })
    (hE : t = atPhent → v ≠ sizeofElfPhdr → E (.assertion "p[1] == sizeof(struct elf_phdr)")) :
    Ends (auxvEntry t p) s Q E := by
  unfold auxvEntry
  unfold noteEntry at hQ
  cases htype : AuxField.ofType t with
  | some f =>
      rw [htype] at hQ
      apply hQ
      rintro rfl
      cases htype
  | none =>
      rw [htype] at hQ
      simp only
      rw [ends_ite]
      refine ⟨fun hphent => ?_, fun hother => hQ fun hphent => absurd hphent hother⟩
      rw [ends_bind]
      apply ends_load hlow hhigh
      rw [hval, ends_assertThat]
      exact ⟨fun heq => hQ fun _ => of_decide_eq_true heq,
        fun hne => hE hphent (of_decide_eq_false hne)⟩

theorem ends_initAuxvLoop {Q : Unit → State → Prop}
    (hmem : WordsAt s.mem p (auxWords auxv ++ [atNull])) (hne : ∀ e ∈ auxv, e.1 ≠ atNull)
    (hlow : s.low ≤ p) (hhigh : p + 8 * auxv.length + 4 ≤ s.high) (hfuel : auxv.length < fuel)
    (hQ : (∀ v, (atPhent, v) ∈ auxv → v = sizeofElfPhdr) →
      Q () { s with info := { s.info with auxvInfo := noted auxv p s.info.auxvInfo } })
    (hE : (∃ v, (atPhent, v) ∈ auxv ∧ v ≠ sizeofElfPhdr) →
      E (.assertion "p[1] == sizeof(struct elf_phdr)")) :
    Ends (initAuxvLoop fuel p) s Q E := by
  induction auxv generalizing s p fuel with
  | nil =>
      obtain ⟨fuel, rfl⟩ := Nat.exists_eq_succ_of_ne_zero (Nat.ne_zero_of_lt hfuel)
      rw [initAuxvLoop, ends_bind]
      apply ends_load hlow hhigh
      rw [hmem.1, if_neg (not_not.mpr rfl), ends_pure]
      apply hQ
      simp
  | cons e auxv ih =>
      obtain ⟨fuel, rfl⟩ := Nat.exists_eq_succ_of_ne_zero (Nat.ne_zero_of_lt hfuel)
      obtain ⟨htype, hval, hrest⟩ := wordsAt_auxv_cons.mp hmem
      rw [List.length_cons] at hhigh hfuel
      rw [initAuxvLoop, ends_bind]
      apply ends_load hlow (by omega)
      rw [htype, if_pos (hne e List.mem_cons_self), ends_bind]
      apply ends_auxvEntry hval (by omega) (by omega)
      · intro hfirst
        apply ih (s := { s with info := { s.info with
          auxvInfo := noteEntry e.1 p s.info.auxvInfo } }) hrest
        · exact fun e' he' => hne e' (List.mem_cons_of_mem e he')
        · exact hlow.trans (Nat.le_add_right p 8)
        · change p + 8 + 8 * auxv.length + 4 ≤ s.high
          omega
        · omega
        · intro hphent
          apply hQ
          intro v hv
          rcases List.mem_cons.mp hv with rfl | hv
          · exact hfirst rfl
          · exact hphent v hv
        · rintro ⟨v, hv, hbad⟩
          exact hE ⟨v, List.mem_cons_of_mem e hv, hbad⟩
      · intro hphent hbad
        exact hE ⟨e.2, by rw [← hphent]; exact List.mem_cons_self, hbad⟩

/-- `get_vsyscall_entry` finds an entry if there is one. -/
theorem ends_getVsyscallLoop {Q : Nat → State → Prop}
    (hmem : WordsAt s.mem p (auxWords auxv ++ [atNull])) (hne : ∀ e ∈ auxv, e.1 ≠ atNull)
    (hlow : s.low ≤ p) (hhigh : p + 8 * auxv.length + 4 ≤ s.high) (hfuel : auxv.length < fuel)
    (hfound : atSysinfo ∈ auxv.map Prod.fst) (hQ : ∀ v, Q v s) :
    Ends (getVsyscallLoop fuel p) s Q E := by
  induction auxv generalizing p fuel with
  | nil => cases hfound
  | cons e auxv ih =>
      obtain ⟨fuel, rfl⟩ := Nat.exists_eq_succ_of_ne_zero (Nat.ne_zero_of_lt hfuel)
      obtain ⟨htype, _, hrest⟩ := wordsAt_auxv_cons.mp hmem
      rw [List.length_cons] at hhigh hfuel
      rw [getVsyscallLoop, ends_bind]
      apply ends_load hlow (by omega)
      rw [htype, if_pos (hne e List.mem_cons_self), ends_ite]
      constructor
      · intro _
        exact ends_load (by omega) (by omega) (hQ _)
      · intro hother
        rw [List.map_cons, List.mem_cons] at hfound
        exact ih hrest (fun e' he' => hne e' (List.mem_cons_of_mem e he')) (by omega) (by omega)
          (by omega) (hfound.resolve_left fun h => hother h.symm)

/-- `set_vsyscall_entry` gives every entry of type `AT_SYSINFO` the new value, and
leaves the memory outside of the vector alone. -/
theorem ends_setVsyscallLoop {Q : Unit → State → Prop} {v : Nat} (hv : v < 2 ^ 32)
    (hmem : WordsAt s.mem p (auxWords auxv ++ [atNull])) (hne : ∀ e ∈ auxv, e.1 ≠ atNull)
    (hlow : s.low ≤ p) (hhigh : p + 8 * auxv.length + 4 ≤ s.high) (hfuel : auxv.length < fuel)
    (hQ : ∀ m, WordsAt m p (auxWords (auxv.map (assign atSysinfo v)) ++ [atNull]) →
      (∀ x, x < p ∨ p + 8 * auxv.length ≤ x → m x = s.mem x) → Q () { s with mem := m }) :
    Ends (setVsyscallLoop v fuel p) s Q E := by
  induction auxv generalizing s p fuel with
  | nil =>
      obtain ⟨fuel, rfl⟩ := Nat.exists_eq_succ_of_ne_zero (Nat.ne_zero_of_lt hfuel)
      rw [setVsyscallLoop, ends_bind]
      apply ends_load hlow hhigh
      rw [hmem.1, if_neg (not_not.mpr rfl), ends_pure]
      exact hQ s.mem hmem fun _ _ => rfl
  | cons e auxv ih =>
      obtain ⟨fuel, rfl⟩ := Nat.exists_eq_succ_of_ne_zero (Nat.ne_zero_of_lt hfuel)
      obtain ⟨htype, hval, hrest⟩ := wordsAt_auxv_cons.mp hmem
      rw [List.length_cons] at hhigh hfuel hQ
      have hne' : ∀ e' ∈ auxv, e'.1 ≠ atNull := fun e' he' => hne e' (List.mem_cons_of_mem e he')
      rw [setVsyscallLoop, ends_bind]
      apply ends_load hlow (by omega)
      rw [htype, if_pos (hne e List.mem_cons_self)]
      simp only [ends_ite, ends_bind]
      constructor
      · intro hsysinfo
        apply ends_store (by omega) (by omega)
        apply ih (s := { s with mem := setWord s.mem (p + 4) v })
          (hrest.setWord_outside (Or.inl le_rfl)) hne' (hlow.trans (Nat.le_add_right p 8))
        · change p + 8 + 8 * auxv.length + 4 ≤ s.high
          omega
        · omega
        · intro m hwords hsame
          apply hQ m
          · rw [List.map_cons, wordsAt_auxv_cons, assign, if_pos hsysinfo]
            refine ⟨?_, ?_, hwords⟩
            · rw [word_congr fun i hi => hsame (p + i) (by omega)]
              rw [word_setWord_apart (by omega), htype, hsysinfo]
            · rw [word_congr fun i hi => hsame (p + 4 + i) (by omega)]
              exact word_setWord_same hv
          · intro x hx
            rw [hsame x (by omega)]
            exact setWord_outside (by omega)
      · intro hother
        apply ih hrest hne' (hlow.trans (Nat.le_add_right p 8)) (by omega) (by omega)
        intro m hwords hsame
        apply hQ m
        · rw [List.map_cons, wordsAt_auxv_cons, assign, if_neg hother]
          refine ⟨?_, ?_, hwords⟩
          · rw [word_congr fun i hi => hsame (p + i) (by omega), htype]
          · rw [word_congr fun i hi => hsame (p + 4 + i) (by omega), hval]
        · intro x hx
          exact hsame x (by omega)

end AuxvLoops

end Snitchaser.Startup.Scan
