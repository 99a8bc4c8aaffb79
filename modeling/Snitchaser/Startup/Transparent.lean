import Snitchaser.Startup.Rewrite
/-!
# The stack the program finds

After `xmain` has worked on it, the stack from the new `stack_top` on is a startup
stack again, and it describes the program instead of the loader.
-/

namespace Snitchaser.Startup.Transparent

open Snitchaser.Elf.Model (Loaded sizeofElfPhdr)
open Snitchaser.Lib.ByteMemory
open Snitchaser.Lib.Hoare
open Snitchaser.Lib.Program
open Snitchaser.Lib.Words
open Snitchaser.Startup.Model
open Snitchaser.Startup.Rewrite
open Snitchaser.Startup.Scan

/-- The value of an entry for a program that was loaded from the file named by `fn`. -/
def auxValue (wrapped : Nat) (exec : Loaded) (fn : Nat) (e : Nat × Nat) : Nat :=
  if e.1 = atEntry then exec.entry
  else if e.1 = atPhdr then exec.phdrs
  else if e.1 = atPhnum then exec.nrPhdrs
  else if e.1 = atExecfn then fn
  else if e.1 = atSysinfo then wrapped
  else e.2

/-- The vectors of the program that the loader was asked to run. -/
def forProgram (wrapped : Nat) (exec : Loaded) (v : Vectors) : Vectors where
  args := v.args.tail
  envs := v.envs
  auxv := v.auxv.map fun e => (e.1, auxValue wrapped exec (v.args.getD 1 0) e)

theorem assign_eq_auxValue (wrapped : Nat) (exec : Loaded) (fn : Nat) (e : Nat × Nat) :
    assign atEntry exec.entry (assign atExecfn fn (assign atPhnum exec.nrPhdrs
      (assign atPhdr exec.phdrs (assign atSysinfo wrapped e)))) =
        (e.1, auxValue wrapped exec fn e) := by
  obtain ⟨t, n⟩ := e
  by_cases hentry : t = atEntry
  · subst hentry
    rfl
  by_cases hphdr : t = atPhdr
  · subst hphdr
    rfl
  by_cases hphnum : t = atPhnum
  · subst hphnum
    rfl
  by_cases hexecfn : t = atExecfn
  · subst hexecfn
    rfl
  by_cases hsysinfo : t = atSysinfo
  · subst hsysinfo
    rfl
  · simp [assign, auxValue, hentry, hphdr, hphnum, hexecfn, hsysinfo]

theorem withProgram_eq (wrapped : Nat) (exec : Loaded) (fn : Nat) (v : Vectors) :
    (withProgram exec fn (Vectors.assign atSysinfo wrapped v)).auxv =
      v.auxv.map fun e => (e.1, auxValue wrapped exec fn e) := by
  simp only [withProgram, Vectors.assign, List.map_map]
  exact List.map_congr_left fun e _ => assign_eq_auxValue wrapped exec fn e

/-- A stack whose vectors were replaced by those of the program is a startup stack, if
the memory behind the vectors is as before. -/
theorem isStartupStack_forProgram {m m' : Memory} {top high wrapped : Nat} {v : Vectors}
    {exec : Loaded} (hs : IsStartupStack m top high v)
    (hv : Vectored m (top + 4 * v.words.length) m' (top + 4) (forProgram wrapped exec v)) :
    IsStartupStack m' (top + 4) high (forProgram wrapped exec v) := by
  have hlast : top + 4 + 4 * (forProgram wrapped exec v).words.length =
      top + 4 * v.words.length := by
    rw [length_words]
    exact hv.last_eq
  have hstring : ∀ p n, top + 4 * v.words.length ≤ p → StringAt m p n → StringAt m' p n := by
    intro p n hp hstr
    constructor
    · intro i hi
      rw [hv.above _ (by omega)]
      exact hstr.1 i hi
    · rw [hv.above _ (by omega)]
      exact hstr.2
  constructor
  · exact wordsAt_words.mpr hv.toPlaced
  · exact fun p hp => hs.args_ne p (List.mem_of_mem_tail hp)
  · exact hs.envs_ne
  · intro e he
    obtain ⟨e', he', rfl⟩ := List.mem_map.mp he
    exact hs.types_ne e' he'
  · rw [hlast]
    exact hs.fits
  · exact hs.high_le
  · intro p hp
    have hmem : p ∈ v.args ++ v.envs := by
      rcases List.mem_append.mp hp with hp | hp
      · exact List.mem_append_left _ (List.mem_of_mem_tail hp)
      · exact List.mem_append_right _ hp
    obtain ⟨n, hlow, hhigh, hstr⟩ := hs.strings p hmem
    exact ⟨n, by rw [hlast]; exact hlow, hhigh, hstring p n (by omega) hstr⟩
  · intro p hp
    obtain ⟨n, x, hstr, hlt, hx, hbyte⟩ := hs.fileName p hp
    obtain ⟨_, hlow, _, _⟩ := hs.strings p
      (List.mem_append_right _ (List.mem_of_getLast? hp))
    refine ⟨n, x, hstring p n (by omega) hstr, hlt, hx, ?_⟩
    rw [hv.above x (by omega)]
    exact hbyte

/-- In `t` the stack that had the vectors `v` in `s` describes the program: it begins
one word further up, and behind the vectors nothing has changed. -/
structure DescribesProgram (wrapped : Nat) (exec : Loaded) (v : Vectors) (s t : State) : Prop where
  stackTop : t.stackTop = s.stackTop + 4
  stack : IsStartupStack t.mem t.stackTop s.high (forProgram wrapped exec v)
  above : ∀ x, s.stackTop + 4 * v.words.length ≤ x → t.mem x = s.mem x

/-- The return address overwrites the old `argc`, which lies below the new top. -/
theorem ends_setInterpRetaddr {s u : State} {v w : Vectors} {wrapped addr : Nat} {exec : Loaded}
    {m : Memory} {E : Stop → Prop} (hs : IsStartupStack s.mem s.stackTop s.high v)
    (hm : Vectored s.mem (s.stackTop + 4 * v.words.length) m s.stackTop w)
    (hargs : 2 ≤ w.args.length) (hw : { w with args := w.args.tail } = forProgram wrapped exec v)
    (hmem : u.mem = setWord m (s.stackTop + 4) (w.args.length - 1))
    (htop : u.stackTop = s.stackTop + 4) (hlow : u.low ≤ s.stackTop)
    (hhigh : s.stackTop + 4 ≤ u.high) :
    Ends (setInterpRetaddr u.stackTop addr) u
      (fun _ t => DescribesProgram wrapped exec v s t) E := by
  have hfits := hs.fits
  have hword := hs.high_le
  have hdrop : Vectored s.mem (s.stackTop + 4 * v.words.length) (setWord u.mem s.stackTop addr)
      (s.stackTop + 4) (forProgram wrapped exec v) := by
    rw [hmem, ← hw]
    exact hm.drop hargs (by omega)
  rw [setInterpRetaddr, htop, Nat.add_sub_cancel]
  apply ends_store hlow hhigh
  constructor
  · exact htop
  · change IsStartupStack _ u.stackTop s.high _
    rw [htop]
    exact isStartupStack_forProgram hs hdrop
  · exact hdrop.above

/-- Why `xmain` may stop: at an `AT_PHENT` that is not the size of a program header, or
because `load_elf` has returned NULL. -/
def StopsFor (v : Vectors) (exec interp : Loaded) (e : Stop) : Prop :=
  (e = .assertion "p[1] == sizeof(struct elf_phdr)" ∧
    ∃ n, (atPhent, n) ∈ v.auxv ∧ n ≠ sizeofElfPhdr) ∨
  (e = .assertion "entry != NULL" ∧
    (exec.entry = 0 ∨ exec.needInterp = true ∧ interp.entry = 0))

section Xmain

variable {s : State} {v : Vectors} {start wrapped : Nat} {exec interp : Loaded}

theorem ends_xmain (hs : IsStartupStack s.mem s.stackTop s.high v)
    (hlow : s.low ≤ s.stackTop) (hargs : 2 ≤ v.args.length) (henvs : v.envs ≠ [])
    (honce : ∀ t ∈ [atEntry, atPhdr, atPhnum, atExecfn, atSysinfo], Once t v.auxv)
    (hentry : (atEntry, start) ∈ v.auxv) (hexec : IsWords exec) (hwrapped : wrapped < 2 ^ 32)
    (hvdso : (∀ n, (atPhent, n) ∈ v.auxv → n = sizeofElfPhdr) →
      atSysinfoEhdr ∈ v.auxv.map Prod.fst) :
    Ends (xmain start wrapped exec interp) s (fun _ t => DescribesProgram wrapped exec v s t)
      (StopsFor v exec interp) := by
  have hfits := hs.fits
  have hhigh := hs.high_le
  have hlen := length_words v s.stackTop
  have hargsNe : v.args ≠ [] := List.ne_nil_of_length_pos (by omega)
  have hshort : v.args.length < 2 ^ 31 := by
    rw [auxvAt, envsAt] at hlen
    omega
  have hend : s.stackTop + 4 * v.words.length ≤ s.high := by omega
  have hbelow : s.stackTop + 4 ≤ s.high := by omega
  have hsysinfo := honce atSysinfo (by simp)
  have honce' : ∀ t ∈ [atEntry, atPhdr, atPhnum, atExecfn],
      Once t (Vectors.assign atSysinfo wrapped v).auxv := by
    intro t ht
    apply once_assign
    exact honce t (List.mem_append_left [atSysinfo] ht)
  -- the stack before anything is written to it
  have hstart : Vectored s.mem (s.stackTop + 4 * v.words.length) s.mem s.stackTop v :=
    ⟨wordsAt_words.mp hs.words, hlen.symm, fun _ _ => rfl⟩
  simp only [xmain, ends_bind, ends_get, ends_modify]
  refine ends_scanStartupStack hs hlow hargsNe henvs ?_ fun hbad => .inl ⟨rfl, hbad⟩
  intro hphent info hpArgc hpArgs hpEnvs hinfo
  have hehdr := hvdso hphent
  refine ends_verboseVdso v hlow (hlen.symm.trans_le hend) hinfo hsysinfo.mem hehdr ?_
  simp only [hpEnvs]
  refine ends_getVsyscallEntry hstart hlow hend hs.envs_ne hs.types_ne hsysinfo.mem fun _ => ?_
  simp only [hpEnvs]
  refine ends_setVsyscallEntry hstart hlow hend hs.envs_ne hs.types_ne hwrapped fun m hm => ?_
  refine ends_verboseVdso v hlow (hlen.symm.trans_le hend) hinfo hsysinfo.mem hehdr ?_
  refine ends_loadExec hm hlow hend hargs hshort hs.args_ne honce' ?_ hexec hpArgc hpArgs ?_ ?_ ?_
  · exact List.mem_map.mpr ⟨(atEntry, start), hentry, rfl⟩
  · intro g hg
    rw [Once, Vectors.assign, map_fst_assign] at hg
    rw [slotOf_assign, hinfo]
    exact noted_of_once hg
  · intro m' info' hm'
    have hvectors : { withProgram exec (v.args.getD 1 0) (Vectors.assign atSysinfo wrapped v) with
        args := v.args.tail } = forProgram wrapped exec v := by
      rw [forProgram, ← withProgram_eq]
      rfl
    simp only [ends_ite, ends_bind, ends_get]
    constructor
    · intro hneed
      apply ends_loadRealInterp
      · exact ends_setInterpRetaddr hs hm' hargs hvectors rfl rfl hlow hbelow
      · exact fun hnull => .inr ⟨rfl, .inr ⟨hneed, hnull⟩⟩
    · intro _
      exact ends_setInterpRetaddr hs hm' hargs hvectors rfl rfl hlow hbelow
  · exact fun hnull => .inr ⟨rfl, .inl hnull⟩

/-- Without `AT_SYSINFO_EHDR` the first `VERBOSE` lines dereference NULL. -/
theorem ends_xmain_fault (hs : IsStartupStack s.mem s.stackTop s.high v)
    (hlow : s.low ≤ s.stackTop) (hnull : 0 < s.low) (hunset : s.info.auxvInfo .sysinfoEhdr = 0)
    (hargs : v.args ≠ []) (henvs : v.envs ≠ []) (hsysinfo : atSysinfo ∈ v.auxv.map Prod.fst)
    (hphent : ¬ ∃ n, (atPhent, n) ∈ v.auxv ∧ n ≠ sizeofElfPhdr)
    (hehdr : atSysinfoEhdr ∉ v.auxv.map Prod.fst) :
    Ends (xmain start wrapped exec interp) s (fun _ _ => False) fun e => e = .fault := by
  have hfits := hs.fits
  have hlen := length_words v s.stackTop
  simp only [xmain, ends_bind, ends_get, ends_modify]
  refine ends_scanStartupStack hs hlow hargs henvs ?_ fun hbad => absurd hbad hphent
  intro _ info hpArgc hpArgs hpEnvs hinfo
  refine ends_verboseVdso_fault v hlow ?_ hinfo hnull hsysinfo hehdr hunset rfl
  change auxvAt s.stackTop v + 8 * v.auxv.length + 4 ≤ s.high
  omega

end Xmain

/-! A loader that was asked to run `/b`. -/

/-- The last entry is that of the vDSO, or of something else. -/
def loaderVectors (last : Nat × Nat) : Vectors where
  args := [0xBFFFF058, 0xBFFFF05B]
  envs := [0xBFFFF05E]
  auxv := [(atPhdr, 0x40000034), (atPhent, 32), (atPhnum, 5), (atEntry, 0x40000800),
    (atExecfn, 0xBFFFF062), (atSysinfo, 0xFFFFE400), last]

def vdsoEntry : Nat × Nat := (atSysinfoEhdr, 0xFFFFE000)

/-- `AT_PAGESZ`. -/
def pageSizeEntry : Nat × Nat := (6, 4096)

/-- `/a`, `/b`, `E=1` and the file name `/a`, each with its NUL. -/
def loaderStrings : List UInt8 := [47, 97, 0, 47, 98, 0, 69, 61, 49, 0, 47, 97, 0]

def loaderState (last : Nat × Nat) : State where
  mem := writeBytes (fun _ => 0) 0xBFFFF000
    ((loaderVectors last).words.flatMap (Lib.LittleEndian.leBytes 4) ++ [0, 0, 0, 0] ++
      loaderStrings)
  low := 0xBFFFEFFC
  high := 0xC0000000
  stackTop := 0xBFFFF000
  info := ⟨0, 0, 0, 0, 0, 0, 0, 0, 0, fun _ => 0⟩
  vsyscallEntry := 0

def program : Loaded := ⟨0x08048100, 0, 0x08048034, 3, true⟩

def interpreter : Loaded := ⟨0xB7FE0810, 0xB7FE0000, 0xB7FE0034, 7, false⟩

instance (m : Memory) (p n : Nat) : Decidable (StringAt m p n) :=
  inferInstanceAs (Decidable ((∀ i < n, m (p + i) ≠ 0) ∧ m (p + n) = 0))

theorem isStartupStack_loader {last : Nat × Nat} (h : last ∈ [vdsoEntry, pageSizeEntry]) :
    IsStartupStack (loaderState last).mem (loaderState last).stackTop (loaderState last).high
      (loaderVectors last) where
  words := by
    revert last
    decide +kernel
  args_ne := by
    change ∀ p ∈ [0xBFFFF058, 0xBFFFF05B], p ≠ 0
    decide
  envs_ne := by
    change ∀ p ∈ [0xBFFFF05E], p ≠ 0
    decide
  types_ne := by
    revert last
    decide
  fits := by
    revert last
    decide
  high_le := by
    change 0xC0000000 ≤ 2 ^ 32
    decide
  strings := by
    have hstrings : ∀ last ∈ [vdsoEntry, pageSizeEntry],
        StringAt (loaderState last).mem 0xBFFFF058 2 ∧
        StringAt (loaderState last).mem 0xBFFFF05B 2 ∧
        StringAt (loaderState last).mem 0xBFFFF05E 3 := by
      decide +kernel
    obtain ⟨hfirst, hsecond, henv⟩ := hstrings last h
    intro p hp
    have hcases : p = 0xBFFFF058 ∨ p = 0xBFFFF05B ∨ p = 0xBFFFF05E := by
      simpa [loaderVectors] using hp
    rcases hcases with rfl | rfl | rfl
    · exact ⟨2, by revert last; decide, by change _ < 0xC0000000; decide, hfirst⟩
    · exact ⟨2, by revert last; decide, by change _ < 0xC0000000; decide, hsecond⟩
    · exact ⟨3, by revert last; decide, by change _ < 0xC0000000; decide, henv⟩
  fileName := by
    intro p hp
    cases hp
    refine ⟨3, 0xBFFFF062, ?_, by decide, by change _ < 0xC0000000; decide, ?_⟩
    · revert last
      decide +kernel
    · revert last
      decide +kernel

end Snitchaser.Startup.Transparent
