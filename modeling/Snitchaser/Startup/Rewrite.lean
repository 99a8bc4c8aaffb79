import Snitchaser.Startup.Scan
/-!
# Rewriting a startup stack

The scan notes where the values of the auxiliary vector are; each store through a
noted pointer changes one entry of the vector and nothing else; and the stack that
begins one word later has one argument less.
-/

namespace Snitchaser.Startup.Rewrite

open Snitchaser.Elf.Model (Loaded sizeofElfPhdr)
open Snitchaser.Lib.ByteMemory
open Snitchaser.Lib.Hoare
open Snitchaser.Lib.Program
open Snitchaser.Lib.Words
open Snitchaser.Startup.Model
open Snitchaser.Startup.Scan

/-! ## Where the vectors are -/

def envsAt (top : Nat) (v : Vectors) : Nat := top + 4 + 4 * v.args.length + 4

def auxvAt (top : Nat) (v : Vectors) : Nat := envsAt top v + 4 * v.envs.length + 4

structure Placed (m : Memory) (top : Nat) (v : Vectors) : Prop where
  argc : word m top = v.args.length
  args : WordsAt m (top + 4) (v.args ++ [0])
  envs : WordsAt m (envsAt top v) (v.envs ++ [0])
  auxv : WordsAt m (auxvAt top v) (auxWords v.auxv ++ [atNull])

theorem wordsAt_words {m : Memory} {top : Nat} {v : Vectors} :
    WordsAt m top v.words ↔ Placed m top v := by
  have henvs : top + 4 + 4 * (v.args ++ [0]).length = envsAt top v := by
    rw [List.length_append, List.length_singleton, envsAt]
    omega
  have hauxv : envsAt top v + 4 * (v.envs ++ [0]).length = auxvAt top v := by
    rw [List.length_append, List.length_singleton, auxvAt]
    omega
  rw [Vectors.words, WordsAt, wordsAt_append (v.args ++ [0]), wordsAt_append (v.envs ++ [0]),
    henvs, hauxv]
  exact ⟨fun h => ⟨h.1, h.2.1, h.2.2.1, h.2.2.2⟩, fun h => ⟨h.argc, h.args, h.envs, h.auxv⟩⟩

theorem length_words (v : Vectors) (top : Nat) :
    top + 4 * v.words.length = auxvAt top v + 8 * v.auxv.length + 4 := by
  simp only [Vectors.words, List.length_cons, List.length_append, length_auxWords,
    List.length_nil, auxvAt, envsAt]
  omega

theorem asInt_of_lt {w : Nat} (h : w < 2 ^ 31) : asInt w = w := if_pos h

/-! ## The scan -/

section ScanStack

variable {s : State} {top : Nat} {v : Vectors} {E : Stop → Prop}

theorem word_last {m : Memory} {a : Nat} {ps : List Nat} (h : WordsAt m a (ps ++ [0]))
    (hne : ps ≠ []) : word m (a + 4 * (ps.length - 1)) = ps.getLast hne := by
  have hpos := List.length_pos_iff.mpr hne
  have hlt : ps.length - 1 < (ps ++ [0]).length := by
    rw [List.length_append, List.length_singleton]
    omega
  rw [h.word_eq _ hlt, List.getElem_append_left (by omega), List.getLast_eq_getElem]

theorem ends_scanStrings (top : Nat) (v : Vectors) {Q : Unit → State → Prop}
    (hs : IsStartupStack s.mem top s.high v)
    (hlow : s.low ≤ top) (hargs : v.args ≠ []) (henvs : v.envs ≠ [])
    (hpArgs : s.info.pArgs = top + 4) (firstenv : Nat)
    (hQ : ∀ info : StackInfo, info.pArgc = s.info.pArgc → info.pArgs = s.info.pArgs →
      info.pEnvs = s.info.pEnvs → info.auxvInfo = s.info.auxvInfo → Q () { s with info := info }) :
    Ends (scanStrings v.args.length firstenv (v.envs.getLast henvs)) s Q E := by
  have hplaced := wordsAt_words.mp hs.words
  have hend := hs.fits
  rw [length_words, auxvAt, envsAt] at hend
  have hargsPos := List.length_pos_iff.mpr hargs
  have hlastArg : (((top + 4 : Nat) : Int) + 4 * ((v.args.length : Int) - 1)).toNat =
      top + 4 + 4 * (v.args.length - 1) := by omega
  obtain ⟨n, hargLow, hargHigh, hargString⟩ := hs.strings _
    (List.mem_append_left _ (List.getLast_mem hargs))
  obtain ⟨_, henvLow, _, _⟩ := hs.strings _
    (List.mem_append_right _ (List.getLast_mem henvs))
  obtain ⟨k, x, henvString, hkx, hx, hbyte⟩ :=
    hs.fileName _ (List.getLast?_eq_some_getLast henvs)
  simp only [scanStrings, setInfo, ends_bind, ends_get, ends_modify, hpArgs, hlastArg]
  apply ends_load (by omega) (by omega)
  apply ends_load (by omega) (by omega)
  rw [word_last hplaced.args hargs]
  apply ends_skipString hargString (by omega) hargHigh (by omega)
  apply ends_skipString henvString (by omega) (by omega) (by omega)
  apply ends_skipZeros (by omega) (by omega)
  · intro _ _ _ _
    apply hQ <;> rfl
  · intro hzeros
    exact absurd (hzeros x hkx hx) hbyte

/-- The vectors are there, whatever they point to. -/
structure HasVectors (m : Memory) (top high : Nat) (v : Vectors) : Prop where
  words : WordsAt m top v.words
  args_ne : ∀ p ∈ v.args, p ≠ 0
  envs_ne : ∀ p ∈ v.envs, p ≠ 0
  types_ne : ∀ e ∈ v.auxv, e.1 ≠ atNull
  fits : top + 4 * v.words.length + 4 ≤ high
  high_le : high ≤ 2 ^ 32

theorem hasVectors_of_isStartupStack {m : Memory} {high : Nat}
    (h : IsStartupStack m top high v) : HasVectors m top high v where
  words := h.words
  args_ne := h.args_ne
  envs_ne := h.envs_ne
  types_ne := h.types_ne
  fits := h.fits
  high_le := h.high_le

theorem ends_initAuxvInfo (top : Nat) (v : Vectors) {Q : Unit → State → Prop}
    (hs : HasVectors s.mem top s.high v)
    (hlow : s.low ≤ top) (hpAuxvs : s.info.pAuxvs = auxvAt top v)
    (hQ : (∀ n, (atPhent, n) ∈ v.auxv → n = sizeofElfPhdr) → Q () { s with info :=
      { s.info with auxvInfo := noted v.auxv (auxvAt top v) s.info.auxvInfo } })
    (hE : (∃ n, (atPhent, n) ∈ v.auxv ∧ n ≠ sizeofElfPhdr) →
      E (.assertion "p[1] == sizeof(struct elf_phdr)")) :
    Ends initAuxvInfo s Q E := by
  have hend := hs.fits
  rw [length_words] at hend
  have hpos : auxvAt top v ≠ 0 := Nat.succ_ne_zero _
  have hle : top ≤ auxvAt top v := by
    unfold auxvAt envsAt
    omega
  simp only [initAuxvInfo, ends_bind, ends_get, ends_assertThat, hpAuxvs]
  refine ⟨fun _ => ?_, fun hnull => absurd hpos (of_decide_eq_false hnull)⟩
  exact ends_initAuxvLoop (wordsAt_words.mp hs.words).auxv hs.types_ne (hlow.trans hle) (by omega)
    (by omega) hQ hE

/-- What is known of the stack when the strings are looked for. -/
def vectorInfo (top : Nat) (v : Vectors) (i : StackInfo) : StackInfo :=
  { i with
    pArgc := top
    pArgs := top + 4
    pEnvs := envsAt top v
    pAuxvs := auxvAt top v
    auxvInfo := noted v.auxv (auxvAt top v) i.auxvInfo }

/-- The scan up to the strings. -/
theorem ends_scanVectors {Q : Unit → State → Prop} (hs : HasVectors s.mem top s.high v)
    (hlow : s.low ≤ top)
    (hstrings : (∀ n, (atPhent, n) ∈ v.auxv → n = sizeofElfPhdr) →
      Ends (scanStrings v.args.length (word s.mem (envsAt top v))
        (word s.mem (envsAt top v + 4 * v.envs.length - 4)))
        { s with info := vectorInfo top v s.info } Q E)
    (hE : (∃ n, (atPhent, n) ∈ v.auxv ∧ n ≠ sizeofElfPhdr) →
      E (.assertion "p[1] == sizeof(struct elf_phdr)")) :
    Ends (scanStartupStack top) s Q E := by
  have hplaced := wordsAt_words.mp hs.words
  have hend := hs.fits
  rw [length_words] at hend
  have hauxv : envsAt top v + 4 * v.envs.length + 4 = auxvAt top v := rfl
  have henvsAt : top + 4 + 4 * v.args.length + 4 = envsAt top v := rfl
  have hhigh := hs.high_le
  have hargc : asInt (word s.mem top) = v.args.length := by
    rw [hplaced.argc]
    exact asInt_of_lt (by omega)
  simp only [scanStartupStack, setInfo, ends_bind, ends_get, ends_modify]
  apply ends_load hlow (by omega)
  rw [hargc]
  refine ends_skipPointers ?_ hs.args_ne ?_ ?_ ?_ ?_
  · exact hplaced.args
  · exact hlow.trans (by omega)
  · change top + 4 + 4 * v.args.length + 4 ≤ s.high
    omega
  · omega
  rw [henvsAt]
  apply ends_load
  · exact hlow.trans (by omega)
  · change envsAt top v + 4 ≤ s.high
    omega
  refine ends_skipPointers ?_ hs.envs_ne ?_ ?_ ?_ ?_
  · exact hplaced.envs
  · exact hlow.trans (by omega)
  · change envsAt top v + 4 * v.envs.length + 4 ≤ s.high
    omega
  · omega
  rw [hauxv]
  apply ends_load
  · exact hlow.trans (by omega)
  · change envsAt top v + 4 * v.envs.length - 4 + 4 ≤ s.high
    omega
  refine ends_initAuxvInfo top v ?_ ?_ ?_ ?_ hE
  · exact hs
  · exact hlow
  · rfl
  · exact hstrings

theorem ends_scanStartupStack {Q : Unit → State → Prop} (hs : IsStartupStack s.mem top s.high v)
    (hlow : s.low ≤ top) (hargs : v.args ≠ []) (henvs : v.envs ≠ [])
    (hQ : (∀ n, (atPhent, n) ∈ v.auxv → n = sizeofElfPhdr) → ∀ info : StackInfo,
      info.pArgc = top → info.pArgs = top + 4 → info.pEnvs = envsAt top v →
      info.auxvInfo = noted v.auxv (auxvAt top v) s.info.auxvInfo → Q () { s with info := info })
    (hE : (∃ n, (atPhent, n) ∈ v.auxv ∧ n ≠ sizeofElfPhdr) →
      E (.assertion "p[1] == sizeof(struct elf_phdr)")) :
    Ends (scanStartupStack top) s Q E := by
  have henvsPos := List.length_pos_iff.mpr henvs
  have hlastEnv : envsAt top v + 4 * v.envs.length - 4 =
      envsAt top v + 4 * (v.envs.length - 1) := by omega
  refine ends_scanVectors (hasVectors_of_isStartupStack hs) hlow (fun hphent => ?_) hE
  rw [hlastEnv, word_last (wordsAt_words.mp hs.words).envs henvs]
  refine ends_scanStrings top v ?_ ?_ hargs henvs ?_ _ ?_
  · exact hs
  · exact hlow
  · rfl
  intro info hpArgc hpArgs hpEnvs hinfo
  exact hQ hphent info hpArgc hpArgs hpEnvs hinfo

end ScanStack

/-! ## Changing entries -/

/-- The vectors `v` are at `top`, and the memory from `last` on is that of `base`. -/
structure Vectored (base : Memory) (last : Nat) (m : Memory) (top : Nat) (v : Vectors) : Prop
    extends Placed m top v where
  last_eq : auxvAt top v + 8 * v.auxv.length + 4 = last
  above : ∀ x, last ≤ x → m x = base x

/-- The vectors with `n` as the value for type `t`. -/
def Vectors.assign (t n : Nat) (v : Vectors) : Vectors :=
  { v with auxv := v.auxv.map (Scan.assign t n) }

section Changes

variable {base m : Memory} {last top t n : Nat} {v : Vectors}

theorem once_assign {t' : Nat} (h : Once t v.auxv) : Once t (Vectors.assign t' n v).auxv := by
  unfold Once Vectors.assign
  rw [map_fst_assign]
  exact h

theorem slotOf_assign {t' p : Nat} :
    slotOf t p (Vectors.assign t' n v).auxv = slotOf t p v.auxv :=
  slotOf_congr (map_fst_assign _)

theorem Vectored.slot (h : Vectored base last m top v) (hmem : t ∈ v.auxv.map Prod.fst) :
    auxvAt top v + 4 ≤ slotOf t (auxvAt top v) v.auxv ∧
      slotOf t (auxvAt top v) v.auxv + 8 ≤ last := by
  have hslot := slotOf_mem hmem (p := auxvAt top v)
  have hlast := h.last_eq
  omega

theorem Vectored.assign (h : Vectored base last m top v) (honce : Once t v.auxv)
    (hn : n < 2 ^ 32) :
    Vectored base last (setWord m (slotOf t (auxvAt top v) v.auxv) n) top
      (Vectors.assign t n v) := by
  have hslot := h.slot honce.mem
  have hauxv : auxvAt top v = envsAt top v + 4 * v.envs.length + 4 := rfl
  have henvs : envsAt top v = top + 4 + 4 * v.args.length + 4 := rfl
  constructor
  · constructor
    · rw [word_setWord_apart (by omega)]
      exact h.argc
    · exact h.args.setWord_outside (Or.inr (by simp; omega))
    · exact h.envs.setWord_outside (Or.inr (by simp [envsAt]; omega))
    · exact wordsAt_set_slotOf h.auxv honce hn
  · rw [← h.last_eq, Vectors.assign, List.length_map]
    rfl
  · intro x hx
    rw [setWord_outside (by omega)]
    exact h.above x hx

/-- The stack that begins one word later. -/
theorem Vectored.drop {ret : Nat} (h : Vectored base last m top v) (hargs : 2 ≤ v.args.length)
    (hlast : last ≤ 2 ^ 32) :
    Vectored base last (setWord (setWord m (top + 4) (v.args.length - 1)) top ret) (top + 4)
      { v with args := v.args.tail } := by
  have hend := h.last_eq
  have hlen : v.args.tail.length = v.args.length - 1 := List.length_tail
  have henvs : envsAt (top + 4) { v with args := v.args.tail } = envsAt top v := by
    simp only [envsAt, hlen]
    omega
  have hauxv : auxvAt (top + 4) { v with args := v.args.tail } = auxvAt top v := by
    rw [auxvAt, henvs, auxvAt]
  have henvsAt : envsAt top v = top + 4 + 4 * v.args.length + 4 := rfl
  have hauxvAt : auxvAt top v = envsAt top v + 4 * v.envs.length + 4 := rfl
  constructor
  · constructor
    · rw [word_setWord_apart (by omega), word_setWord_same (by omega), hlen]
    · obtain ⟨a, rest, hcons⟩ := List.exists_cons_of_length_pos (show 0 < v.args.length by omega)
      have hrest := h.args
      rw [hcons, List.cons_append] at hrest
      change WordsAt _ (top + 4 + 4) (v.args.tail ++ [0])
      rw [hcons, List.tail_cons]
      exact (hrest.2.setWord_outside (Or.inl le_rfl)).setWord_outside (Or.inl (by omega))
    · rw [henvs]
      exact (h.envs.setWord_outside (Or.inl (by omega))).setWord_outside (Or.inl (by omega))
    · rw [hauxv]
      exact (h.auxv.setWord_outside (Or.inl (by omega))).setWord_outside (Or.inl (by omega))
  · rw [hauxv]
    exact hend
  · intro x hx
    rw [setWord_outside (by omega), setWord_outside (by omega)]
    exact h.above x hx

end Changes

/-! ## Loading the program -/

/-- The vectors `load_exec` leaves when `load_elf` has returned `exec` for the file
named by `fn`. -/
def withProgram (exec : Loaded) (fn : Nat) (v : Vectors) : Vectors :=
  Vectors.assign atEntry exec.entry (Vectors.assign atExecfn fn
    (Vectors.assign atPhnum exec.nrPhdrs (Vectors.assign atPhdr exec.phdrs v)))

/-- The values `load_elf` returns are words. -/
structure IsWords (exec : Loaded) : Prop where
  entry : exec.entry < 2 ^ 32
  phdrs : exec.phdrs < 2 ^ 32
  nrPhdrs : exec.nrPhdrs < 2 ^ 32

section Loading

variable {s : State} {base : Memory} {last top start : Nat} {v : Vectors} {exec : Loaded}
  {E : Stop → Prop}

/-- A store through a noted pointer. -/
theorem ends_store_slot {Q : Unit → State → Prop} {t n slot : Nat}
    (h : Vectored base last s.mem top v) (hslot : slot = slotOf t (auxvAt top v) v.auxv)
    (honce : Once t v.auxv) (hn : n < 2 ^ 32) (hlow : s.low ≤ top) (hhigh : last ≤ s.high)
    (hQ : ∀ m, Vectored base last m top (Vectors.assign t n v) → Q () { s with mem := m }) :
    Ends (store slot n) s Q E := by
  have hbounds := h.slot honce.mem
  have hle : top ≤ auxvAt top v := by
    unfold auxvAt envsAt
    omega
  rw [hslot]
  exact ends_store (by omega) (by omega) (hQ _ (h.assign honce hn))

theorem ends_dropArgument {Q : Unit → State → Prop} (hp : Placed s.mem top v)
    (hlow : s.low ≤ top) (hhigh : top + 8 ≤ s.high) (hargs : 2 ≤ v.args.length)
    (hlt : v.args.length < 2 ^ 31) (hpArgc : s.info.pArgc = top)
    (hpArgs : s.info.pArgs = top + 4)
    (hQ : ∀ info, Q () { s with
      mem := setWord s.mem (top + 4) (v.args.length - 1), info := info, stackTop := top + 4 }) :
    Ends dropArgument s Q E := by
  have hargc : asInt (word s.mem top) = v.args.length := by
    rw [hp.argc]
    exact asInt_of_lt hlt
  have hpred : ((v.args.length : Int) - 1).toNat = v.args.length - 1 := by omega
  simp only [dropArgument, setInfo, ends_bind, ends_get, ends_assertThat, ends_modify, hpArgc,
    hpArgs]
  apply ends_load hlow (by omega)
  rw [hargc, hpred]
  refine ⟨fun _ => ?_, fun hnot => absurd (by omega) (of_decide_eq_false hnot)⟩
  apply ends_store (by omega) (by omega)
  simp only [hpArgs]
  exact hQ _

/-- The stores of `load_exec` into the auxiliary vector, with what follows them. -/
theorem ends_withProgram {α : Type} {Q : α → State → Prop} {rest : Prog State α} {fn : Nat}
    (slots : AuxField → Nat) (h : Vectored base last s.mem top v) (hlow : s.low ≤ top)
    (hhigh : last ≤ s.high)
    (honce : ∀ t ∈ [atEntry, atPhdr, atPhnum, atExecfn], Once t v.auxv)
    (hslots : ∀ g, Once g.type v.auxv → slots g = slotOf g.type (auxvAt top v) v.auxv)
    (hexec : IsWords exec) (hfn : fn < 2 ^ 32)
    (hrest : ∀ m, Vectored base last m top (withProgram exec fn v) →
      Ends rest { s with mem := m } Q E)
    (hE : exec.entry = 0 → E (.assertion "entry != NULL")) :
    Ends (do
      storeLoaded exec (slots .userPhdrs) (slots .nrUserPhdrs)
      assertThat (exec.entry ≠ 0) "entry != NULL"
      store (slots .execfn) fn
      store (slots .userEntry) exec.entry
      rest) s Q E := by
  have hphdr := honce atPhdr (by simp)
  have hphnum := honce atPhnum (by simp)
  have hexecfn := honce atExecfn (by simp)
  have hentry := honce atEntry (by simp)
  simp only [storeLoaded, ends_bind, ends_assertThat]
  refine ends_store_slot h (hslots .userPhdrs hphdr) hphdr hexec.phdrs hlow hhigh fun m₁ h₁ => ?_
  refine ends_store_slot h₁ ?_ (once_assign hphnum) hexec.nrPhdrs hlow hhigh fun m₂ h₂ => ?_
  · rw [slotOf_assign]
    exact hslots .nrUserPhdrs hphnum
  refine ⟨fun _ => ?_, fun hnull => hE (not_not.mp (of_decide_eq_false hnull))⟩
  refine ends_store_slot h₂ ?_ (once_assign (once_assign hexecfn)) hfn hlow hhigh fun m₃ h₃ => ?_
  · rw [slotOf_assign, slotOf_assign]
    exact hslots .execfn hexecfn
  refine ends_store_slot h₃ ?_ (once_assign (once_assign (once_assign hentry))) hexec.entry hlow
    hhigh fun m₄ h₄ => ?_
  · rw [slotOf_assign, slotOf_assign, slotOf_assign]
    exact hslots .userEntry hentry
  exact hrest m₄ h₄

theorem ends_loadExec {Q : Bool × Nat → State → Prop} (h : Vectored base last s.mem top v)
    (hlow : s.low ≤ top) (hhigh : last ≤ s.high) (hargs : 2 ≤ v.args.length)
    (hlt : v.args.length < 2 ^ 31) (hne : ∀ p ∈ v.args, p ≠ 0)
    (honce : ∀ t ∈ [atEntry, atPhdr, atPhnum, atExecfn], Once t v.auxv)
    (hentry : (atEntry, start) ∈ v.auxv) (hexec : IsWords exec)
    (hpArgc : s.info.pArgc = top) (hpArgs : s.info.pArgs = top + 4)
    (hinfo : ∀ g, Once g.type v.auxv → s.info.auxvInfo g = slotOf g.type (auxvAt top v) v.auxv)
    (hQ : ∀ m info, Vectored base last m top (withProgram exec (v.args.getD 1 0) v) →
      Q (exec.needInterp, exec.entry) { s with
        mem := setWord m (top + 4) (v.args.length - 1), info := info, stackTop := top + 4 })
    (hE : exec.entry = 0 → E (.assertion "entry != NULL")) :
    Ends (loadExec start exec) s Q E := by
  have hend := h.last_eq
  have hauxv : auxvAt top v = envsAt top v + 4 * v.envs.length + 4 := rfl
  have henvs : envsAt top v = top + 4 + 4 * v.args.length + 4 := rfl
  have honceEntry := honce atEntry (by simp)
  have hslot := h.slot honceEntry.mem
  have huser : s.info.auxvInfo .userEntry = slotOf atEntry (auxvAt top v) v.auxv :=
    hinfo .userEntry honceEntry
  rw [← huser] at hslot
  have hstart : word s.mem (s.info.auxvInfo .userEntry) = start := by
    rw [huser, word_slotOf h.auxv honceEntry hentry]
  -- a pointer that was noted is not NULL
  have hnonzero : ∀ g, Once g.type v.auxv → s.info.auxvInfo g ≠ 0 := by
    intro g hg
    have hbounds := h.slot hg.mem
    rw [hinfo g hg]
    omega
  have hfn : word s.mem (top + 4 + 4) = v.args.getD 1 0 := by
    rw [h.args.word_eq 1 (by simp; omega), List.getElem_append_left (by omega),
      List.getD_eq_getElem _ _ (by omega)]
  have hfnNe : v.args.getD 1 0 ≠ 0 := by
    rw [List.getD_eq_getElem _ _ (by omega)]
    exact hne _ (List.getElem_mem _)
  simp only [loadExec, ends_bind, ends_get, ends_assertThat]
  refine ⟨fun _ => ⟨fun _ => ⟨fun _ => ?_, fun hnull => ?_⟩, fun hnull => ?_⟩, fun hnull => ?_⟩
  · apply ends_load (by omega) (by omega)
    rw [hstart, if_neg (not_not.mpr rfl), ends_bind, hpArgs]
    apply ends_load (by omega) (by omega)
    rw [hfn, if_neg hfnNe]
    refine ends_withProgram s.info.auxvInfo h hlow hhigh honce hinfo hexec ?_ (fun m hm => ?_) hE
    · rw [← hfn]
      exact word_lt _ _
    · rw [ends_bind]
      refine ends_dropArgument hm.toPlaced ?_ ?_ hargs hlt ?_ ?_ fun info => ?_
      · exact hlow
      · change top + 8 ≤ s.high
        omega
      · exact hpArgc
      · exact hpArgs
      · exact hQ m info hm
  · exact absurd (hnonzero .userEntry honceEntry) (of_decide_eq_false hnull)
  · exact absurd (hnonzero .nrUserPhdrs (honce atPhnum (by simp))) (of_decide_eq_false hnull)
  · exact absurd (hnonzero .userPhdrs (honce atPhdr (by simp))) (of_decide_eq_false hnull)

theorem ends_loadRealInterp {Q : Nat → State → Prop} {interp : Loaded} (hQ : Q interp.entry s)
    (hE : interp.entry = 0 → E (.assertion "entry != NULL")) :
    Ends (loadRealInterp interp) s Q E := by
  simp only [loadRealInterp, ends_bind, ends_assertThat, ends_pure]
  exact ⟨fun _ => hQ, fun hnull => hE (not_not.mp (of_decide_eq_false hnull))⟩

/-! ## The entry of the vsyscall -/

theorem ends_verboseVdso {Q : Unit → State → Prop} {f : AuxField → Nat} (v : Vectors)
    (hlow : s.low ≤ top) (hhigh : auxvAt top v + 8 * v.auxv.length + 4 ≤ s.high)
    (hinfo : s.info.auxvInfo = noted v.auxv (auxvAt top v) f)
    (hsysinfo : atSysinfo ∈ v.auxv.map Prod.fst) (hehdr : atSysinfoEhdr ∈ v.auxv.map Prod.fst)
    (hQ : Q () s) : Ends verboseVdso s Q E := by
  have hle : top ≤ auxvAt top v := by
    unfold auxvAt envsAt
    omega
  have hnoted : ∀ g : AuxField, g.type ∈ v.auxv.map Prod.fst →
      s.low ≤ s.info.auxvInfo g ∧ s.info.auxvInfo g + 4 ≤ s.high := by
    intro g hg
    have hbounds := noted_mem hg (p := auxvAt top v) (f := f)
    rw [hinfo]
    omega
  have hfirst := hnoted .sysinfo hsysinfo
  have hsecond := hnoted .sysinfoEhdr hehdr
  simp only [verboseVdso, ends_bind, ends_get]
  exact ends_load hfirst.1 hfirst.2 (ends_load hsecond.1 hsecond.2 hQ)

/-- A pointer that was not noted is still NULL. -/
theorem ends_verboseVdso_fault {Q : Unit → State → Prop} {f : AuxField → Nat} (v : Vectors)
    (hlow : s.low ≤ top) (hhigh : auxvAt top v + 8 * v.auxv.length + 4 ≤ s.high)
    (hinfo : s.info.auxvInfo = noted v.auxv (auxvAt top v) f) (hnull : 0 < s.low)
    (hsysinfo : atSysinfo ∈ v.auxv.map Prod.fst) (hehdr : atSysinfoEhdr ∉ v.auxv.map Prod.fst)
    (hf : f .sysinfoEhdr = 0) (hE : E .fault) : Ends verboseVdso s Q E := by
  have hle : top ≤ auxvAt top v := by
    unfold auxvAt envsAt
    omega
  have hbounds := noted_mem (g := .sysinfo) hsysinfo (p := auxvAt top v) (f := f)
  have hzero : s.info.auxvInfo .sysinfoEhdr = 0 := by
    rw [hinfo, noted_of_not_mem (g := .sysinfoEhdr) hehdr, hf]
  rw [← hinfo] at hbounds
  simp only [verboseVdso, ends_bind, ends_get, hzero]
  exact ends_load (by omega) (by omega) (ends_load_fault hnull hE)

theorem ends_getVsyscallEntry {Q : Nat → State → Prop} (h : Vectored base last s.mem top v)
    (hlow : s.low ≤ top) (hhigh : last ≤ s.high) (henvs : ∀ p ∈ v.envs, p ≠ 0)
    (htypes : ∀ e ∈ v.auxv, e.1 ≠ atNull) (hfound : atSysinfo ∈ v.auxv.map Prod.fst)
    (hQ : ∀ n, Q n s) : Ends (getVsyscallEntry (envsAt top v)) s Q E := by
  have hend := h.last_eq
  have hauxv : auxvAt top v = envsAt top v + 4 * v.envs.length + 4 := rfl
  have henvsAt : envsAt top v = top + 4 + 4 * v.args.length + 4 := rfl
  simp only [getVsyscallEntry, ends_bind, ends_get]
  apply ends_skipPointers h.envs henvs (by omega) (by omega) (by omega)
  rw [← hauxv]
  exact ends_getVsyscallLoop h.auxv htypes (by omega) (by omega) (by omega) hfound hQ

theorem ends_setVsyscallEntry {Q : Unit → State → Prop} {n : Nat}
    (h : Vectored base last s.mem top v) (hlow : s.low ≤ top) (hhigh : last ≤ s.high)
    (henvs : ∀ p ∈ v.envs, p ≠ 0) (htypes : ∀ e ∈ v.auxv, e.1 ≠ atNull) (hn : n < 2 ^ 32)
    (hQ : ∀ m, Vectored base last m top (Vectors.assign atSysinfo n v) → Q () { s with mem := m }) :
    Ends (setVsyscallEntry (envsAt top v) n) s Q E := by
  have hend := h.last_eq
  have hauxv : auxvAt top v = envsAt top v + 4 * v.envs.length + 4 := rfl
  have henvsAt : envsAt top v = top + 4 + 4 * v.args.length + 4 := rfl
  simp only [setVsyscallEntry, ends_bind, ends_get]
  apply ends_skipPointers h.envs henvs (by omega) (by omega) (by omega)
  rw [← hauxv]
  apply ends_setVsyscallLoop hn h.auxv htypes (by omega) (by omega) (by omega)
  intro m hwords hsame
  refine hQ m ⟨⟨?_, ?_, ?_, hwords⟩, ?_, ?_⟩
  · rw [word_congr fun i hi => hsame (top + i) (by omega)]
    exact h.argc
  · exact h.args.frame fun x _ hx => hsame x (by simp at hx; omega)
  · exact h.envs.frame fun x _ hx => hsame x (by simp at hx; omega)
  · rw [← hend, Vectors.assign, List.length_map]
    rfl
  · intro x hx
    rw [hsame x (by omega)]
    exact h.above x hx

end Loading

end Snitchaser.Startup.Rewrite
