import Mathlib.Order.Interval.Set.Defs
import Snitchaser.Startup.Rewrite
/-!
# The areas of a startup stack

The kernel puts the strings of the arguments, those of the environment and the path of
the executed file one behind the other, and the vectors of pointers to them below.
`scan_startup_stack` finds the vectors by their terminators.  The end of a string area it
takes from the string that the last pointer in front of a terminator points to: without
arguments that is the count of arguments, without an environment it is the terminator of
the arguments, and both are NULL.
-/

namespace Snitchaser.Startup.Areas

open Snitchaser.Elf.Model (sizeofElfPhdr)
open Snitchaser.Lib.ByteMemory
open Snitchaser.Lib.Hoare
open Snitchaser.Lib.Program
open Snitchaser.Lib.Words
open Snitchaser.Startup.Model
open Snitchaser.Startup.Rewrite
open Snitchaser.Startup.Scan

/-! ## Strings one behind the other -/

/-- The strings with their terminators. -/
def area (strs : List (List UInt8)) : List UInt8 := strs.flatMap fun str => str ++ [0]

/-- Where each of them is, when the first is at `a`. -/
def starts : Nat → List (List UInt8) → List Nat
  | _, [] => []
  | a, str :: strs => a :: starts (a + str.length + 1) strs

section Strings

variable {a b : Nat} {m : Memory} {str : List UInt8} {strs front : List (List UInt8)}

theorem length_area_cons : (area (str :: strs)).length = str.length + 1 + (area strs).length := by
  simp only [area, List.flatMap_cons, List.length_append, List.length_singleton]

theorem area_concat : area (front ++ [str]) = area front ++ (str ++ [0]) := by
  simp only [area, List.flatMap_append, List.flatMap_cons, List.flatMap_nil, List.append_nil]

theorem length_starts (a : Nat) (strs : List (List UInt8)) :
    (starts a strs).length = strs.length := by
  induction strs generalizing a with
  | nil => rfl
  | cons str strs ih => rw [starts, List.length_cons, List.length_cons, ih]

theorem starts_concat : starts a (front ++ [str]) = starts a front ++ [a + (area front).length] := by
  induction front generalizing a with
  | nil => rfl
  | cons first front ih =>
      rw [List.cons_append, starts, starts, ih, length_area_cons, List.cons_append,
        show a + first.length + 1 + (area front).length =
          a + (first.length + 1 + (area front).length) by omega]

theorem le_of_mem_starts (h : b ∈ starts a strs) : a ≤ b := by
  induction strs generalizing a with
  | nil => cases h
  | cons str strs ih =>
      rcases List.mem_cons.mp h with rfl | h
      · exact Nat.le_refl b
      · have hle := ih h
        omega

theorem stringAt_of_bytesAt (h : BytesAt m a (str ++ [0])) (hnul : 0 ∉ str) :
    StringAt m a str.length := by
  obtain ⟨hstr, hend⟩ := bytesAt_append.mp h
  constructor
  · intro i hi hzero
    apply hnul
    have hget := getElem?_readBytes (m := m) (a := a) hi
    rw [hstr, hzero] at hget
    exact List.mem_of_getElem? hget
  · exact (bytesAt_cons.mp hend).1

/-- The last pointer of a vector and the end of the string area. -/
theorem last_string (hwords : WordsAt m b (starts a strs ++ [0])) (hbytes : BytesAt m a (area strs))
    (hnul : ∀ str ∈ strs, 0 ∉ str) (hne : strs ≠ []) :
    ∃ p n, word m (b + 4 * strs.length - 4) = p ∧ a ≤ p ∧ StringAt m p n ∧
      p + n + 1 = a + (area strs).length := by
  obtain ⟨front, str, hconcat⟩ := (List.eq_nil_or_concat strs).resolve_left hne
  rw [List.concat_eq_append] at hconcat
  subst hconcat
  rw [area_concat, bytesAt_append] at hbytes
  have hlast := word_last hwords (by simp [starts_concat])
  simp only [length_starts, starts_concat, List.getLast_concat, List.length_append,
    List.length_singleton, Nat.add_sub_cancel] at hlast
  refine ⟨a + (area front).length, str.length, ?_, Nat.le_add_right _ _, ?_, ?_⟩
  · rw [← hlast, List.length_append, List.length_singleton]
    congr 1
  · exact stringAt_of_bytesAt hbytes.2 (hnul str (by simp))
  · rw [area_concat, List.length_append, List.length_append, List.length_singleton]
    omega

theorem first_string (hwords : WordsAt m b (starts a strs ++ [0])) (hne : strs ≠ []) :
    word m b = a := by
  cases strs with
  | nil => exact absurd rfl hne
  | cons str strs => exact hwords.1

end Strings

/-! ## The layout -/

/-- What a process is started with: strings without a NUL in them, and entries of the
auxiliary vector before `AT_NULL`. -/
structure Exec where
  args : List (List UInt8)
  envs : List (List UInt8)
  path : List UInt8
  auxv : List (Nat × Nat)
  args_nul : ∀ str ∈ args, 0 ∉ str
  envs_nul : ∀ str ∈ envs, 0 ∉ str
  path_nul : 0 ∉ path
  types_ne : ∀ e ∈ auxv, e.1 ≠ atNull

namespace Exec

variable (x : Exec) (base : Nat)

def strings : List UInt8 := area x.args ++ (area x.envs ++ (x.path ++ [0]))

/-- Where the strings of the environment begin, when those of the arguments begin at
`base`. -/
def envArea : Nat := base + (area x.args).length

def pathAt : Nat := x.envArea base + (area x.envs).length

def vectors : Vectors where
  args := starts base x.args
  envs := starts (x.envArea base) x.envs
  auxv := x.auxv

end Exec

/-- The stack as the kernel has laid it out from `top` on; NULL is not in it. -/
structure LaidOut (x : Exec) (s : State) (top base : Nat) : Prop where
  words : WordsAt s.mem top (x.vectors base).words
  strings : BytesAt s.mem base x.strings
  below : top + 4 * (x.vectors base).words.length + 4 ≤ base
  fits : base + x.strings.length ≤ s.high
  high_le : s.high ≤ 2 ^ 32
  low_le : s.low ≤ top
  low_pos : 0 < s.low

/-- `p` is the address of the value of the last entry of type `t` in a vector at `a`, or
NULL without such an entry. -/
def IsLastSlot (t a : Nat) (auxv : List (Nat × Nat)) (p : Nat) : Prop :=
  (t ∉ auxv.map Prod.fst ∧ p = 0) ∨
    ∃ before v after, auxv = before ++ (t, v) :: after ∧ t ∉ after.map Prod.fst ∧
      p = a + 8 * before.length + 4

/-- What `startup_stack_info` has to say of the stack. -/
structure Located (x : Exec) (top base : Nat) (i : StackInfo) : Prop where
  pArgs : i.pArgs = top + 4
  pEnvs : i.pEnvs = top + 4 + 4 * (x.args.length + 1)
  pAuxvs : i.pAuxvs = top + 4 + 4 * (x.args.length + 1) + 4 * (x.envs.length + 1)
  args : Set.Ico i.cmdlineArgbegin i.cmdlineArgend = Set.Ico base (x.envArea base)
  envs : Set.Ico i.envbegin i.envend = Set.Ico (x.envArea base) (x.pathAt base)
  path : i.bottomExecFn = x.pathAt base
  auxvInfo : ∀ f, IsLastSlot f.type i.pAuxvs x.auxv (i.auxvInfo f)

/-! ## The auxiliary vector -/

theorem noted_cases (auxv : List (Nat × Nat)) (a : Nat) (f : AuxField → Nat) (g : AuxField) :
    (g.type ∉ auxv.map Prod.fst ∧ noted auxv a f g = f g) ∨
      ∃ before v after, auxv = before ++ (g.type, v) :: after ∧
        g.type ∉ after.map Prod.fst ∧ noted auxv a f g = a + 8 * before.length + 4 := by
  induction auxv generalizing a f with
  | nil => exact .inl ⟨List.not_mem_nil, rfl⟩
  | cons e auxv ih =>
      rcases ih (a + 8) (noteEntry e.1 a f) with
        ⟨hnone, hnoted⟩ | ⟨before, v, after, hsplit, hlast, hnoted⟩
      · by_cases htype : e.1 = g.type
        · refine .inr ⟨[], e.2, auxv, ?_, hnone, ?_⟩
          · rw [List.nil_append, ← htype]
          · rw [noted, hnoted, htype, noteEntry_self]
            rfl
        · left
          rw [noted, hnoted, noteEntry_of_ne htype, List.map_cons, List.mem_cons, not_or]
          exact ⟨⟨Ne.symm htype, hnone⟩, rfl⟩
      · refine .inr ⟨e :: before, v, after, ?_, hlast, ?_⟩
        · rw [hsplit, List.cons_append]
        · rw [noted, hnoted, List.length_cons]
          omega

/-! ## The scan -/

section Scan

variable {x : Exec} {s : State} {top base : Nat}

theorem LaidOut.hasVectors (h : LaidOut x s top base) :
    HasVectors s.mem top s.high (x.vectors base) where
  words := h.words
  args_ne := by
    intro p hp
    have hle := le_of_mem_starts hp
    have hbelow := h.below
    omega
  envs_ne := by
    intro p hp
    have hle : base + (area x.args).length ≤ p := le_of_mem_starts hp
    have hbelow := h.below
    omega
  types_ne := x.types_ne
  fits := h.below.trans ((Nat.le_add_right _ _).trans h.fits)
  high_le := h.high_le

/-- The stacks that the scan gets right. -/
def Scannable (x : Exec) : Prop :=
  x.args ≠ [] ∧ x.envs ≠ [] ∧ x.path ≠ [] ∧ ∀ n, (atPhent, n) ∈ x.auxv → n = sizeofElfPhdr

def stringInfo (x : Exec) (base path : Nat) (i : StackInfo) : StackInfo :=
  { i with
    cmdlineArgbegin := base
    cmdlineArgend := x.envArea base
    envbegin := x.envArea base
    envend := x.pathAt base
    bottomExecFn := path }

/-- Without an environment, the pointer in front of the terminator is the terminator of
the arguments. -/
theorem word_last_env_nil (h : Placed s.mem top (x.vectors base)) (hnil : x.envs = []) :
    word s.mem (envsAt top (x.vectors base) + 4 * (x.vectors base).envs.length - 4) = 0 := by
  have hend := ((wordsAt_append _ _).mp h.args).2.1
  rw [← hend, envsAt, Exec.vectors, hnil]
  congr 1

theorem word_last_arg_nil (h : Placed s.mem top (x.vectors base)) (hnil : x.args = []) :
    word s.mem top = 0 := by
  rw [h.argc, Exec.vectors, hnil]
  rfl

/-- The layout is one of memory. -/
theorem LaidOut.info (h : LaidOut x s top base) (i : StackInfo) :
    LaidOut x { s with info := i } top base where
  words := h.words
  strings := h.strings
  below := h.below
  fits := h.fits
  high_le := h.high_le
  low_le := h.low_le
  low_pos := h.low_pos

theorem LaidOut.path_first (h : LaidOut x s top base) :
    s.mem (x.pathAt base) = 0 ↔ x.path = [] := by
  have hpath : BytesAt s.mem (x.pathAt base) (x.path ++ [0]) :=
    (bytesAt_append.mp (bytesAt_append.mp h.strings).2).2
  cases hcases : x.path with
  | nil =>
      rw [hcases] at hpath
      exact ⟨fun _ => rfl, fun _ => (bytesAt_cons.mp hpath).1⟩
  | cons c path =>
      rw [hcases] at hpath
      constructor
      · intro hzero
        have hc : c = 0 := (bytesAt_cons.mp hpath).1.symm.trans hzero
        have hnul := x.path_nul
        rw [hcases, hc] at hnul
        exact absurd List.mem_cons_self hnul
      · intro hnil
        cases hnil

theorem ends_scanStrings_areas {Q : Unit → State → Prop} {E : Stop → Prop}
    (h : LaidOut x s top base) (hpArgs : s.info.pArgs = top + 4)
    (hQ : x.args ≠ [] → x.envs ≠ [] → ∀ q, x.pathAt base ≤ q → s.mem q ≠ 0 →
      (∀ y, x.pathAt base ≤ y → y < q → s.mem y = 0) →
      Q () { s with info := stringInfo x base q s.info })
    (hE : ¬ Scannable x → E .fault) :
    Ends (scanStrings (x.vectors base).args.length (word s.mem (envsAt top (x.vectors base)))
        (word s.mem (envsAt top (x.vectors base) + 4 * (x.vectors base).envs.length - 4))) s Q E := by
  have hplaced := wordsAt_words.mp h.words
  obtain ⟨hargBytes, hrest⟩ := bytesAt_append.mp h.strings
  obtain ⟨henvBytes, hpathBytes⟩ := bytesAt_append.mp hrest
  have hlow := h.low_le
  have hpos := h.low_pos
  have hfits := h.fits
  have hbelow := h.below
  have hargsLen : (x.vectors base).args.length = x.args.length := length_starts _ _
  have henvsLen : (x.vectors base).envs.length = x.envs.length := length_starts _ _
  rw [length_words, auxvAt, envsAt] at hbelow
  simp only [Exec.strings, List.length_append, List.length_singleton] at hfits
  have hnull : ¬ (s.low ≤ 0 ∧ 0 < s.high) := by omega
  simp only [scanStrings, setInfo, ends_bind, ends_get, ends_modify, hpArgs]
  apply ends_load (by omega) (by omega)
  by_cases hargs : x.args = []
  · -- `p_args[-1]` is the count of arguments
    have haddr : (((top + 4 : Nat) : Int) + 4 * (((x.vectors base).args.length : Int) - 1)).toNat =
        top := by
      rw [hargsLen, hargs, List.length_nil]
      omega
    rw [haddr]
    apply ends_load hlow (by omega)
    rw [word_last_arg_nil hplaced hargs]
    exact ends_skipString_fault hnull (Nat.succ_ne_zero _) (hE fun hx => hx.1 hargs)
  · have hargsPos := List.length_pos_iff.mpr hargs
    obtain ⟨p, n, hlast, hle, hstring, hend⟩ := last_string hplaced.args hargBytes x.args_nul hargs
    have haddr : (((top + 4 : Nat) : Int) + 4 * (((x.vectors base).args.length : Int) - 1)).toNat =
        top + 4 + 4 * x.args.length - 4 := by
      rw [hargsLen]
      omega
    rw [haddr]
    apply ends_load (by omega) (by omega)
    rw [hlast]
    apply ends_skipString hstring (by omega) (by omega) (by omega)
    by_cases henvs : x.envs = []
    · -- the terminator of the arguments is right in front of the one found
      rw [word_last_env_nil hplaced henvs]
      exact ends_skipString_fault hnull (Nat.succ_ne_zero _) (hE fun hx => hx.2.1 henvs)
    · obtain ⟨p', n', hlast', hle', hstring', hend'⟩ :=
        last_string hplaced.envs henvBytes x.envs_nul henvs
      have hargEnd : p + n + 1 = x.envArea base := hend
      have henvEnd : p' + n' + 1 = x.pathAt base := hend'
      have hpathAt : x.pathAt base = x.envArea base + (area x.envs).length := rfl
      rw [henvsLen, hlast', first_string hplaced.envs henvs, first_string hplaced.args hargs]
      apply ends_skipString hstring' (by omega) (by omega) (by omega)
      rw [henvEnd, hargEnd]
      apply ends_skipZeros (by omega) (by omega)
      · exact hQ hargs henvs
      · intro hzeros
        apply hE
        intro hx
        exact hx.2.2.1 (h.path_first.mp (hzeros _ (Nat.le_refl _) (by omega)))

/-- Everything the scan can do. -/
theorem ends_scan_areas {Q : Unit → State → Prop} {E : Stop → Prop} (h : LaidOut x s top base)
    (hQ : x.args ≠ [] → x.envs ≠ [] → (∀ n, (atPhent, n) ∈ x.auxv → n = sizeofElfPhdr) →
      ∀ q, x.pathAt base ≤ q → s.mem q ≠ 0 →
      (∀ y, x.pathAt base ≤ y → y < q → s.mem y = 0) →
      Q () { s with info := stringInfo x base q (vectorInfo top (x.vectors base) s.info) })
    (hfault : ¬ Scannable x → E .fault)
    (hassert : (∃ n, (atPhent, n) ∈ x.auxv ∧ n ≠ sizeofElfPhdr) →
      E (.assertion "p[1] == sizeof(struct elf_phdr)")) :
    Ends (scanStartupStack top) s Q E := by
  refine ends_scanVectors h.hasVectors h.low_le (fun hphent => ?_) hassert
  exact ends_scanStrings_areas (h.info _) rfl (fun hargs henvs => hQ hargs henvs hphent) hfault

theorem located_stringInfo {i : StackInfo} (hinit : i.auxvInfo = fun _ => 0) :
    Located x top base
      (stringInfo x base (x.pathAt base) (vectorInfo top (x.vectors base) i)) where
  pArgs := rfl
  pEnvs := by
    change top + 4 + 4 * (starts base x.args).length + 4 = _
    rw [length_starts]
    omega
  pAuxvs := by
    change top + 4 + 4 * (starts base x.args).length + 4 +
      4 * (starts (x.envArea base) x.envs).length + 4 = _
    rw [length_starts, length_starts]
    omega
  args := rfl
  envs := rfl
  path := rfl
  auxvInfo := by
    intro f
    change IsLastSlot f.type (auxvAt top (x.vectors base)) x.auxv
      (noted x.auxv (auxvAt top (x.vectors base)) i.auxvInfo f)
    rw [hinit]
    exact noted_cases _ _ _ f

/-- The scan of a startup stack, from statics that are still zero. -/
theorem startup_scan_iff (h : LaidOut x s top base) (hinit : s.info.auxvInfo = fun _ => 0) :
    (∃ t, scanStartupStack top s = .ok () t ∧ Located x top base t.info) ↔ Scannable x := by
  constructor
  · rintro ⟨t, hrun, hlocated⟩
    have hends : Ends (scanStartupStack top) s
        (fun _ t => x.args ≠ [] ∧ x.envs ≠ [] ∧ s.mem t.info.bottomExecFn ≠ 0 ∧
          ∀ n, (atPhent, n) ∈ x.auxv → n = sizeofElfPhdr) fun _ => True := by
      refine ends_scan_areas h ?_ (fun _ => trivial) fun _ => trivial
      intro hargs henvs hphent q _ hq _
      exact ⟨hargs, henvs, hq, hphent⟩
    obtain ⟨hargs, henvs, hq, hphent⟩ := hends.of_ok hrun
    rw [hlocated.path] at hq
    exact ⟨hargs, henvs, fun hnil => hq (h.path_first.mpr hnil), hphent⟩
  · intro hx
    have hends : Ends (scanStartupStack top) s (fun _ t => Located x top base t.info)
        fun _ => False := by
      refine ends_scan_areas h ?_ (fun hnot => hnot hx) ?_
      · intro _ _ _ q hle _ hzeros
        have hfirst : s.mem (x.pathAt base) ≠ 0 := fun hzero =>
          hx.2.2.1 (h.path_first.mp hzero)
        have hq : q = x.pathAt base := by
          by_contra hne
          exact hfirst (hzeros _ (Nat.le_refl _) (by omega))
        rw [hq]
        exact located_stringInfo hinit
      · rintro ⟨n, hn, hbad⟩
        exact hbad (hx.2.2.2 n hn)
    obtain ⟨_, t, hrun, hlocated⟩ := hends.returns
    exact ⟨t, hrun, hlocated⟩

/-- With no argument or no environment a NULL pointer is taken for a string. -/
theorem scan_faults_of_empty (h : LaidOut x s top base) (hempty : x.args = [] ∨ x.envs = [])
    (hphent : ∀ n, (atPhent, n) ∈ x.auxv → n = sizeofElfPhdr) :
    ∃ t, scanStartupStack top s = .error .fault t := by
  have hends : Ends (scanStartupStack top) s (fun _ _ => False) fun e => e = .fault := by
    refine ends_scan_areas h ?_ (fun _ => rfl) ?_
    · intro hargs henvs
      exact absurd hempty (not_or.mpr ⟨hargs, henvs⟩)
    · rintro ⟨n, hn, hbad⟩
      exact absurd (hphent n hn) hbad
  obtain ⟨_, t, hrun, rfl⟩ := hends.stops
  exact ⟨t, hrun⟩

end Scan

/-! A program `/a`, once with one variable in its environment and once with none. -/

def withVariable : Exec where
  args := [[47, 97]]
  envs := [[69, 61, 49]]
  path := [47, 97]
  auxv := [(atEntry, 0x08048100), (atPhent, 32), (atEntry, 0x08048200)]
  args_nul := by decide
  envs_nul := by decide
  path_nul := by decide
  types_ne := by decide

def withoutVariables : Exec where
  args := [[47, 97]]
  envs := []
  path := [47, 97]
  auxv := [(atPhent, 32)]
  args_nul := by decide
  envs_nul := by decide
  path_nul := by decide
  types_ne := by decide

/-- The stack of a new process at the top of the address space. -/
def stackOf (x : Exec) : State where
  mem := writeBytes (writeBytes (fun _ => 0) 0xBFFFF050 x.strings) 0xBFFFF000
    ((x.vectors 0xBFFFF050).words.flatMap (Lib.LittleEndian.leBytes 4))
  low := 0xBFFFE000
  high := 0xC0000000
  stackTop := 0xBFFFF000
  info := ⟨0, 0, 0, 0, 0, 0, 0, 0, 0, fun _ => 0⟩
  vsyscallEntry := 0

theorem laidOut_withVariable :
    LaidOut withVariable (stackOf withVariable) 0xBFFFF000 0xBFFFF050 where
  words := by decide +kernel
  strings := by decide +kernel
  below := by decide +kernel
  fits := by decide +kernel
  high_le := by decide
  low_le := by decide
  low_pos := by decide

theorem laidOut_withoutVariables :
    LaidOut withoutVariables (stackOf withoutVariables) 0xBFFFF000 0xBFFFF050 where
  words := by decide +kernel
  strings := by decide +kernel
  below := by decide +kernel
  fits := by decide +kernel
  high_le := by decide
  low_le := by decide
  low_pos := by decide

theorem startup_scan_withVariable :
    ∃ t, scanStartupStack 0xBFFFF000 (stackOf withVariable) = .ok () t ∧
      Located withVariable 0xBFFFF000 0xBFFFF050 t.info := by
  refine (startup_scan_iff laidOut_withVariable rfl).mpr ⟨by decide, by decide, by decide, ?_⟩
  intro n hn
  simp only [withVariable, List.mem_cons, Prod.mk.injEq, List.not_mem_nil, or_false] at hn
  rcases hn with ⟨htype, _⟩ | ⟨_, hn⟩ | ⟨htype, _⟩
  · cases htype
  · exact hn
  · cases htype

/-- `env -i /a`. -/
theorem empty_environment_faults :
    LaidOut withoutVariables (stackOf withoutVariables) 0xBFFFF000 0xBFFFF050 ∧
      ∃ t, scanStartupStack 0xBFFFF000 (stackOf withoutVariables) = .error .fault t := by
  refine ⟨laidOut_withoutVariables, scan_faults_of_empty laidOut_withoutVariables (.inr rfl) ?_⟩
  intro n hn
  simp only [withoutVariables, List.mem_singleton, Prod.mk.injEq] at hn
  exact hn.2

end Snitchaser.Startup.Areas
