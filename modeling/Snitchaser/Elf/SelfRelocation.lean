import Snitchaser.Defs
import Snitchaser.Lib.Hoare
import Snitchaser.Lib.Words
/-!
# The loader relocates itself

`relocate_interp` of `elf.c`.  The loader is a shared object that the kernel has mapped
somewhere; before anything else it adds the distance to where it was linked to the words
its relocation table names.  It does so in the memory it runs in, which also holds the
table, the symbols and the dynamic section.

`int3` in `breakpoint` ends the process, as nothing handles the signal yet.
-/

namespace Snitchaser.Elf.SelfRelocation

open Snitchaser.Defs
open Snitchaser.Lib.ByteMemory
open Snitchaser.Lib.Hoare
open Snitchaser.Lib.Program
open Snitchaser.Lib.Words

/-! ## The code -/

def dtNull : Nat := 0

def dtSymtab : Nat := 6

def dtRela : Nat := 7

def dtRel : Nat := 17

def dtRelsz : Nat := 18

def dtRelent : Nat := 19

def r386GlobDat : Nat := 6

def r386Relative : Nat := 8

/-- Memory, with the bytes that are mapped.  NULL never is. -/
structure Image where
  mem : Memory
  mapped : Nat → Bool
  null : mapped 0 = false
  below : ∀ a, mapped a = true → a < 2 ^ 32

/-- The `n` bytes from `a` on are mapped. -/
def Image.Maps (s : Image) (a n : Nat) : Prop := ∀ i < n, s.mapped (a + i) = true

instance (s : Image) (a n : Nat) : Decidable (s.Maps a n) :=
  inferInstanceAs (Decidable (∀ i < n, s.mapped (a + i) = true))

def load (a : Nat) : Prog Image Nat := do
  let s ← get
  if s.Maps a 4 then pure (word s.mem a) else throw .fault

def store (a v : Nat) : Prog Image Unit := do
  let s ← get
  if s.Maps a 4 then set { s with mem := setWord s.mem a v } else throw .fault

/-- The locals that the dynamic section sets; `relsz` and `relent` are of type `int`. -/
structure Locals where
  reltab : Nat
  symtab : Nat
  relsz : Int
  relent : Int

/-- The `switch` over the tag of the entry at `dyn`. -/
def scanEntry (loadBias tag dyn : Nat) (l : Locals) : Prog Image Locals :=
  if tag = dtRelsz then do
    let v ← load (add32 dyn 4)
    pure { l with relsz := (v : Int).bmod (2 ^ 32) }
  else if tag = dtRel then do
    let v ← load (add32 dyn 4)
    pure { l with reltab := add32 v loadBias }
  else if tag = dtRelent then do
    let v ← load (add32 dyn 4)
    pure { l with relent := (v : Int).bmod (2 ^ 32) }
  else if tag = dtSymtab then do
    let v ← load (add32 dyn 4)
    pure { l with symtab := add32 v loadBias }
  else if tag = dtRela then
    throw (.assertion "breakpoint")
  else
    pure l

/-- Each round reads a higher address, so there are fewer rounds than addresses. -/
def scanDynamic (loadBias : Nat) : Nat → Nat → Locals → Prog Image Locals
  | 0, _, _ => throw .fuel
  | fuel + 1, dyn, l => do
      let tag ← load dyn
      if tag ≠ dtNull then do
        let l ← scanEntry loadBias tag dyn l
        scanDynamic loadBias fuel (add32 dyn 8) l
      else
        pure l

/-- One round of the loop over the relocation table, for the entry at `rel`. -/
def relocate (loadBias symtab rel : Nat) : Prog Image Unit := do
  let address := add32 (← load rel) loadBias
  let info ← load (add32 rel 4)
  let type := info &&& 0xff
  if type = r386Relative then do
    let oldVal ← load address
    store address (add32 oldVal loadBias)
  else if type = r386GlobDat then do
    assertThat (symtab ≠ 0) "symtab != NULL"
    let nsym := info >>> 8
    let symVal ← load (add32 symtab (16 * nsym + 4))
    store address (add32 symVal loadBias)
  else
    throw (.exit (-1))

/-- The rounds for `n` entries from `rel` on. -/
def relocateLoop (loadBias symtab : Nat) : Nat → Nat → Prog Image Unit
  | 0, _ => pure ()
  | n + 1, rel => do
      relocate loadBias symtab rel
      relocateLoop loadBias symtab n (add32 rel 8)

/-- The part of `relocate_interp` behind the scan of the dynamic section. -/
def applyTable (loadBias : Nat) (l : Locals) : Prog Image Unit :=
  if l.reltab = 0 then
    pure ()
  else do
    assertThat (l.relsz ≠ 0) "relsz != 0"
    assertThat (l.relent ≠ 0) "relent != 0"
    let nrRels := l.relsz.tdiv l.relent
    relocateLoop loadBias l.symtab nrRels.toNat l.reltab

/-- `dynamic` and `got` are the addresses of `_DYNAMIC` and `_GLOBAL_OFFSET_TABLE_`. -/
def relocateInterp (dynamic got : Nat) : Prog Image Unit := do
  let loadBias := sub32 dynamic (← load got)
  let l ← scanDynamic loadBias (2 ^ 32) dynamic ⟨0, 0, 0, 0⟩
  applyTable loadBias l

/-! ## Memory -/

section Access

variable {s : Image} {a n v : Nat} {E : Stop → Prop}

theorem ends_load {Q : Nat → Image → Prop} (hmaps : s.Maps a 4) (hQ : Q (word s.mem a) s) :
    Ends (load a) s Q E := by
  rw [load, ends_bind, ends_get, if_pos hmaps, ends_pure]
  exact hQ

theorem ends_store {Q : Unit → Image → Prop} (hmaps : s.Maps a 4)
    (hQ : Q () { s with mem := setWord s.mem a v }) : Ends (store a v) s Q E := by
  rw [store, ends_bind, ends_get, if_pos hmaps, ends_set]
  exact hQ

/-- Mapped bytes do not go round the end of the address space. -/
theorem Image.Maps.le (h : s.Maps a n) (hpos : 0 < n) : a + n ≤ 2 ^ 32 := by
  have hlast := s.below _ (h (n - 1) (by omega))
  omega

theorem Image.Maps.ne_null (h : s.Maps a n) (hpos : 0 < n) : a ≠ 0 := by
  rintro rfl
  have hfirst := h 0 hpos
  rw [Nat.add_zero, s.null] at hfirst
  cases hfirst

theorem Image.Maps.sub (h : s.Maps a n) {b k : Nat} (hle : a ≤ b) (hend : b + k ≤ a + n) :
    s.Maps b k := by
  intro i hi
  have hin := h (b - a + i) (by omega)
  rwa [show a + (b - a + i) = b + i by omega] at hin

end Access

/-! ## The dynamic section -/

section Dynamic

variable {s : Image} {b a fuel : Nat} {l : Locals} {dyn : List (Nat × Nat)} {E : Stop → Prop}

/-- The locals after an entry. -/
def note (b : Nat) (l : Locals) (e : Nat × Nat) : Locals :=
  if e.1 = dtRelsz then { l with relsz := (e.2 : Int).bmod (2 ^ 32) }
  else if e.1 = dtRel then { l with reltab := add32 e.2 b }
  else if e.1 = dtRelent then { l with relent := (e.2 : Int).bmod (2 ^ 32) }
  else if e.1 = dtSymtab then { l with symtab := add32 e.2 b }
  else l

theorem ends_scanEntry {Q : Locals → Image → Prop} {e : Nat × Nat} (hmaps : s.Maps a 8)
    (hword : word s.mem (a + 4) = e.2) (hrela : e.1 ≠ dtRela) (hQ : Q (note b l e) s) :
    Ends (scanEntry b e.1 a l) s Q E := by
  have haddr : add32 a 4 = a + 4 := add32_of_lt (by have := hmaps.le (by omega); omega)
  have hval : s.Maps (a + 4) 4 := hmaps.sub (by omega) (by omega)
  simp only [scanEntry, ends_ite, ends_bind, ends_pure, haddr]
  unfold note at hQ
  refine ⟨fun h1 => ?_, fun h1 => ⟨fun h2 => ?_, fun h2 => ⟨fun h3 => ?_, fun h3 =>
    ⟨fun h4 => ?_, fun h4 => ⟨fun h5 => absurd h5 hrela, fun _ => ?_⟩⟩⟩⟩⟩
  · rw [if_pos h1, ← hword] at hQ
    exact ends_load hval hQ
  · rw [if_neg h1, if_pos h2, ← hword] at hQ
    exact ends_load hval hQ
  · rw [if_neg h1, if_neg h2, if_pos h3, ← hword] at hQ
    exact ends_load hval hQ
  · rw [if_neg h1, if_neg h2, if_neg h3, if_pos h4, ← hword] at hQ
    exact ends_load hval hQ
  · rwa [if_neg h1, if_neg h2, if_neg h3, if_neg h4] at hQ

theorem ends_scanDynamic {Q : Locals → Image → Prop}
    (hwords : WordsAt s.mem a (pairWords dyn ++ [dtNull]))
    (hmaps : s.Maps a (8 * dyn.length + 4))
    (htags : ∀ e ∈ dyn, e.1 ≠ dtNull ∧ e.1 ≠ dtRela) (hfuel : dyn.length < fuel)
    (hQ : Q (dyn.foldl (note b) l) s) : Ends (scanDynamic b fuel a l) s Q E := by
  induction dyn generalizing a l fuel with
  | nil =>
      obtain ⟨fuel, rfl⟩ := Nat.exists_eq_succ_of_ne_zero (Nat.ne_zero_of_lt hfuel)
      rw [scanDynamic, ends_bind]
      apply ends_load hmaps
      rw [hwords.1, if_neg (not_not.mpr rfl), ends_pure]
      exact hQ
  | cons e dyn ih =>
      obtain ⟨fuel, rfl⟩ := Nat.exists_eq_succ_of_ne_zero (Nat.ne_zero_of_lt hfuel)
      obtain ⟨htag, hval, hrest⟩ := wordsAt_pairWords_cons.mp hwords
      obtain ⟨hnull, hrela⟩ := htags e List.mem_cons_self
      rw [List.length_cons] at hmaps hfuel
      have hend := hmaps.le (by omega)
      rw [scanDynamic, ends_bind]
      apply ends_load (hmaps.sub (Nat.le_refl a) (by omega))
      rw [htag, if_pos hnull, ends_bind, add32_of_lt (by omega)]
      apply ends_scanEntry (hmaps.sub (Nat.le_refl a) (by omega)) hval hrela
      apply ih hrest (hmaps.sub (by omega) (by omega))
        (fun e' he' => htags e' (List.mem_cons_of_mem e he')) (by omega)
      exact hQ

/-- The value of the last entry with a tag. -/
def lastVal (tag : Nat) (dyn : List (Nat × Nat)) : Option Nat :=
  dyn.foldl (fun v e => if e.1 = tag then some e.2 else v) none

/-- A local that the entries of one tag set holds what the last of them says. -/
theorem foldl_note {β : Type} {tag : Nat} (field : Locals → β) (g : Nat → β)
    (hfield : ∀ l e, field (note b l e) = if e.1 = tag then g e.2 else field l) {v : Nat}
    (hlast : lastVal tag dyn = some v) : field (dyn.foldl (note b) l) = g v := by
  have hfold : ∀ (l' : Locals) (acc : Option Nat), (∀ u, acc = some u → field l' = g u) →
      dyn.foldl (fun v e => if e.1 = tag then some e.2 else v) acc = some v →
      field (dyn.foldl (note b) l') = g v := by
    clear hlast
    induction dyn with
    | nil =>
        intro l' acc hacc hv
        exact hacc v hv
    | cons e dyn ih =>
        intro l' acc hacc hv
        refine ih (note b l' e) _ ?_ hv
        intro u hu
        change (if e.1 = tag then some e.2 else acc) = some u at hu
        by_cases htag : e.1 = tag
        · rw [if_pos htag, Option.some.injEq] at hu
          rw [hfield, if_pos htag, hu]
        · rw [if_neg htag] at hu
          rw [hfield, if_neg htag]
          exact hacc u hu
  exact hfold l none (fun u hu => nomatch hu) hlast

theorem note_relsz (l : Locals) (e : Nat × Nat) :
    (note b l e).relsz = if e.1 = dtRelsz then (e.2 : Int).bmod (2 ^ 32) else l.relsz := by
  unfold note
  split_ifs <;> simp_all

theorem note_reltab (l : Locals) (e : Nat × Nat) :
    (note b l e).reltab = if e.1 = dtRel then add32 e.2 b else l.reltab := by
  unfold note
  split_ifs <;> simp_all [dtRelsz, dtRel]

theorem note_relent (l : Locals) (e : Nat × Nat) :
    (note b l e).relent = if e.1 = dtRelent then (e.2 : Int).bmod (2 ^ 32) else l.relent := by
  unfold note
  split_ifs <;> simp_all [dtRelsz, dtRel, dtRelent]

theorem note_symtab (l : Locals) (e : Nat × Nat) :
    (note b l e).symtab = if e.1 = dtSymtab then add32 e.2 b else l.symtab := by
  unfold note
  split_ifs <;> simp_all [dtRelsz, dtRel, dtRelent, dtSymtab]

end Dynamic

/-! ## The relocation table -/

/-- Where an entry `(r_offset, r_info)` applies. -/
def target (b : Nat) (r : Nat × Nat) : Nat := add32 r.1 b

def Relative (r : Nat × Nat) : Prop := r.2 &&& 0xff = r386Relative

def GlobDat (r : Nat × Nat) : Prop := r.2 &&& 0xff = r386GlobDat

instance (r : Nat × Nat) : Decidable (Relative r) :=
  inferInstanceAs (Decidable (r.2 &&& 0xff = r386Relative))

instance (r : Nat × Nat) : Decidable (GlobDat r) :=
  inferInstanceAs (Decidable (r.2 &&& 0xff = r386GlobDat))

/-- `st_value` of the symbol of an entry. -/
def symbolValue (m : Memory) (symtab : Nat) (r : Nat × Nat) : Nat :=
  word m (symtab + 16 * (r.2 >>> 8) + 4)

/-- Two words that have no byte in common. -/
def Apart (a b : Nat) : Prop := a + 4 ≤ b ∨ b + 4 ≤ a

instance (a b : Nat) : Decidable (Apart a b) :=
  inferInstanceAs (Decidable (a + 4 ≤ b ∨ b + 4 ≤ a))

/-- What the words of the targets hold afterwards, and that the others are as before. -/
structure Relocated (b symtab : Nat) (rels : List (Nat × Nat)) (m m' : Memory) : Prop where
  relative : ∀ r ∈ rels, Relative r → word m' (target b r) = add32 (word m (target b r)) b
  globDat : ∀ r ∈ rels, GlobDat r → word m' (target b r) = add32 (symbolValue m symtab r) b
  frame : ∀ x, (∀ r ∈ rels, x < target b r ∨ target b r + 4 ≤ x) → m' x = m x

/-- A table at `a` with symbols at `symtab`, whose targets are words of their own. -/
structure Ready (s : Image) (b a symtab nsyms : Nat) (rels : List (Nat × Nat)) : Prop where
  words : WordsAt s.mem a (pairWords rels ++ [])
  maps : s.Maps a (8 * rels.length)
  mapsSyms : s.Maps symtab (16 * nsyms)
  syms : ∀ r ∈ rels, GlobDat r → r.2 >>> 8 < nsyms
  mapsTargets : ∀ r ∈ rels, s.Maps (target b r) 4
  outsideTable : ∀ r ∈ rels, target b r + 4 ≤ a ∨ a + 8 * rels.length ≤ target b r
  outsideSyms : ∀ r ∈ rels, target b r + 4 ≤ symtab ∨ symtab + 16 * nsyms ≤ target b r
  apart : rels.Pairwise fun r r' => Apart (target b r) (target b r')

section Table

variable {s : Image} {b a symtab nsyms : Nat} {r : Nat × Nat} {rels : List (Nat × Nat)}
  {E : Stop → Prop} {m m' : Memory}

/-- The value an entry gives to its target. -/
def newValue (b symtab : Nat) (m : Memory) (r : Nat × Nat) : Nat :=
  add32 (if Relative r then word m (target b r) else symbolValue m symtab r) b

theorem ends_relocate {Q : Unit → Image → Prop} (h : Ready s b a symtab nsyms (r :: rels))
    (hQ : Relative r ∨ GlobDat r →
      Q () { s with mem := setWord s.mem (target b r) (newValue b symtab s.mem r) })
    (hE : ¬ (Relative r ∨ GlobDat r) → E (.exit (-1))) :
    Ends (relocate b symtab a) s Q E := by
  obtain ⟨hoffset, hinfo, _⟩ := wordsAt_pairWords_cons.mp h.words
  have hmaps := h.maps
  rw [List.length_cons] at hmaps
  have hend := hmaps.le (by omega)
  have htarget := h.mapsTargets r List.mem_cons_self
  rw [relocate, ends_bind]
  apply ends_load (hmaps.sub (Nat.le_refl a) (by omega))
  rw [ends_bind, add32_of_lt (by omega)]
  apply ends_load (hmaps.sub (by omega) (by omega))
  rw [hoffset, hinfo]
  change Ends (if Relative r then _ else if GlobDat r then _ else _) s Q E
  simp only [ends_ite, ends_bind, ends_assertThat, ends_throw]
  refine ⟨fun hrel => ?_, fun hrel => ⟨fun hglob => ⟨fun _ => ?_, fun hnull => ?_⟩, fun hglob => ?_⟩⟩
  · apply ends_load htarget
    apply ends_store htarget
    have hval := hQ (.inl hrel)
    rwa [newValue, if_pos hrel] at hval
  · have hnsym := h.syms r List.mem_cons_self hglob
    have hsymEnd := h.mapsSyms.le (by omega)
    rw [add32_of_lt (by omega), ← Nat.add_assoc]
    apply ends_load (h.mapsSyms.sub (by omega) (by omega))
    apply ends_store htarget
    have hval := hQ (.inr hglob)
    rwa [newValue, if_neg hrel] at hval
  · have hnsym := h.syms r List.mem_cons_self hglob
    exact absurd (of_decide_eq_false hnull) (not_not.mpr (h.mapsSyms.ne_null (by omega)))
  · exact hE (not_or.mpr ⟨hrel, hglob⟩)

/-- The rest of the table after its first entry. -/
theorem Ready.tail (h : Ready s b a symtab nsyms (r :: rels)) (v : Nat) :
    Ready { s with mem := setWord s.mem (target b r) v } b (a + 8) symtab nsyms rels where
  words := by
    have houtside := h.outsideTable r List.mem_cons_self
    rw [List.length_cons] at houtside
    apply (wordsAt_pairWords_cons.mp h.words).2.2.setWord_outside
    rw [List.append_nil, length_pairWords]
    omega
  maps := h.maps.sub (by omega) (by rw [List.length_cons]; omega)
  mapsSyms := h.mapsSyms
  syms := fun r' hr' => h.syms r' (List.mem_cons_of_mem r hr')
  mapsTargets := fun r' hr' => h.mapsTargets r' (List.mem_cons_of_mem r hr')
  outsideTable := by
    intro r' hr'
    have houtside := h.outsideTable r' (List.mem_cons_of_mem r hr')
    rw [List.length_cons] at houtside
    omega
  outsideSyms := fun r' hr' => h.outsideSyms r' (List.mem_cons_of_mem r hr')
  apart := (List.pairwise_cons.mp h.apart).2

theorem newValue_lt (b symtab : Nat) (m : Memory) (r : Nat × Nat) :
    newValue b symtab m r < 2 ^ 32 := add32_lt _ _

/-- The first entry, and then the others. -/
theorem Relocated.cons (h : Ready s b a symtab nsyms (r :: rels))
    (hrest : Relocated b symtab rels
      (setWord s.mem (target b r) (newValue b symtab s.mem r)) m') :
    Relocated b symtab (r :: rels) s.mem m' := by
  have hapart := (List.pairwise_cons.mp h.apart).1
  -- the first target is not written to again
  have hfirst : word m' (target b r) = newValue b symtab s.mem r := by
    rw [← word_setWord_same (newValue_lt b symtab s.mem r)]
    apply word_congr
    intro i hi
    apply hrest.frame
    intro r' hr'
    have := hapart r' hr'
    unfold Apart at this
    omega
  constructor
  · intro r' hr' hrel
    rcases List.mem_cons.mp hr' with rfl | hr'
    · rw [hfirst, newValue, if_pos hrel]
    · rw [hrest.relative r' hr' hrel, word_setWord_apart (hapart r' hr').symm]
  · intro r' hr' hglob
    rcases List.mem_cons.mp hr' with rfl | hr'
    · rw [hfirst, newValue, if_neg]
      intro hrel
      exact absurd (hrel.symm.trans hglob) (by decide)
    · have hout := h.outsideSyms r List.mem_cons_self
      have hnsym := h.syms r' (List.mem_cons_of_mem r hr') hglob
      rw [hrest.globDat r' hr' hglob, symbolValue, symbolValue, word_setWord_apart (by omega)]
  · intro x hx
    rw [hrest.frame x fun r' hr' => hx r' (List.mem_cons_of_mem r hr')]
    exact setWord_outside (hx r List.mem_cons_self)

/-- The loop over the table: all of it, or up to the first entry of another type. -/
theorem ends_relocateLoop (h : Ready s b a symtab nsyms rels) :
    Ends (relocateLoop b symtab rels.length a) s
      (fun _ t => (∀ r ∈ rels, Relative r ∨ GlobDat r) ∧ Relocated b symtab rels s.mem t.mem ∧
        t.mapped = s.mapped)
      (fun e => e = .exit (-1) ∧ ∃ r ∈ rels, ¬ (Relative r ∨ GlobDat r)) := by
  induction rels generalizing s a with
  | nil =>
      rw [List.length_nil, relocateLoop, ends_pure]
      exact ⟨by simp, ⟨by simp, by simp, fun _ _ => rfl⟩, rfl⟩
  | cons r rels ih =>
      have hmaps := h.maps
      rw [List.length_cons] at hmaps
      have hend := hmaps.le (by omega)
      rw [List.length_cons, relocateLoop, ends_bind]
      apply ends_relocate h
      · intro hknown
        -- the end of the table may be the end of the address space
        have hnext : relocateLoop b symtab rels.length (add32 a 8) =
            relocateLoop b symtab rels.length (a + 8) := by
          cases rels with
          | nil => rfl
          | cons r' rels =>
              rw [List.length_cons] at hend
              rw [add32_of_lt (by omega)]
        rw [hnext]
        refine (ih (h.tail (newValue b symtab s.mem r))).mono ?_ ?_
        · rintro _ t ⟨hall, hrelocated, hmapped⟩
          refine ⟨?_, hrelocated.cons h, hmapped⟩
          intro r' hr'
          rcases List.mem_cons.mp hr' with rfl | hr'
          · exact hknown
          · exact hall r' hr'
        · rintro e ⟨rfl, r', hr', hother⟩
          exact ⟨rfl, r', List.mem_cons_of_mem r hr', hother⟩
      · intro hother
        exact ⟨rfl, r, List.mem_cons_self, hother⟩

end Table

/-! ## The whole -/

/-- A loader in memory: `b` is the distance to where it was linked. -/
structure IsLoader (s : Image) (dynamic got b : Nat) (dyn rels : List (Nat × Nat))
    (reltab symtab nsyms : Nat) : Prop where
  mapsGot : s.Maps got 4
  bias : sub32 dynamic (word s.mem got) = b
  words : WordsAt s.mem dynamic (pairWords dyn ++ [dtNull])
  maps : s.Maps dynamic (8 * dyn.length + 4)
  tags : ∀ e ∈ dyn, e.1 ≠ dtNull ∧ e.1 ≠ dtRela
  rel : (lastVal dtRel dyn).map (fun p => add32 p b) = some reltab
  relsz : lastVal dtRelsz dyn = some (8 * rels.length)
  relent : lastVal dtRelent dyn = some 8
  symbols : (lastVal dtSymtab dyn).map (fun p => add32 p b) = some symtab
  table : Ready s b reltab symtab nsyms rels

section Whole

variable {s : Image} {dynamic got b reltab symtab nsyms : Nat} {dyn rels : List (Nat × Nat)}
  {E : Stop → Prop}

/-- What the scan of the dynamic section leaves. -/
def found (reltab symtab n : Nat) : Locals :=
  ⟨reltab, symtab, ((8 * n : Nat) : Int).bmod (2 ^ 32), 8⟩

theorem IsLoader.locals (h : IsLoader s dynamic got b dyn rels reltab symtab nsyms)
    (l : Locals) : dyn.foldl (note b) l = found reltab symtab rels.length := by
  obtain ⟨p, hrel, hreltab⟩ := Option.map_eq_some_iff.mp h.rel
  obtain ⟨q, hsym, hsymtab⟩ := Option.map_eq_some_iff.mp h.symbols
  have h1 : (dyn.foldl (note b) l).reltab = add32 p b :=
    foldl_note Locals.reltab (fun p => add32 p b) note_reltab hrel
  have h2 : (dyn.foldl (note b) l).symtab = add32 q b :=
    foldl_note Locals.symtab (fun q => add32 q b) note_symtab hsym
  have h3 : (dyn.foldl (note b) l).relsz = ((8 * rels.length : Nat) : Int).bmod (2 ^ 32) :=
    foldl_note Locals.relsz (fun v => (v : Int).bmod (2 ^ 32)) note_relsz h.relsz
  have h4 : (dyn.foldl (note b) l).relent = ((8 : Nat) : Int).bmod (2 ^ 32) :=
    foldl_note Locals.relent (fun v => (v : Int).bmod (2 ^ 32)) note_relent h.relent
  calc dyn.foldl (note b) l
      = ⟨(dyn.foldl (note b) l).reltab, (dyn.foldl (note b) l).symtab,
          (dyn.foldl (note b) l).relsz, (dyn.foldl (note b) l).relent⟩ := rfl
    _ = found reltab symtab rels.length := by
        rw [h1, h2, h3, h4, hreltab, hsymtab]
        rfl

theorem ends_relocateInterp {Q : Unit → Image → Prop}
    (h : IsLoader s dynamic got b dyn rels reltab symtab nsyms)
    (hQ : Ends (applyTable b (found reltab symtab rels.length)) s Q E) :
    Ends (relocateInterp dynamic got) s Q E := by
  have hend := h.maps.le (by omega)
  rw [relocateInterp, ends_bind]
  apply ends_load h.mapsGot
  rw [h.bias, ends_bind]
  apply ends_scanDynamic h.words h.maps h.tags (by omega)
  rw [h.locals]
  exact hQ

theorem ends_applyTable {Q : Unit → Image → Prop} (hreltab : reltab ≠ 0) (hne : rels ≠ [])
    (hlt : rels.length < 2 ^ 28)
    (hQ : Ends (relocateLoop b symtab rels.length reltab) s Q E) :
    Ends (applyTable b (found reltab symtab rels.length)) s Q E := by
  have hpos := List.length_pos_iff.mpr hne
  have hrelsz : ((8 * rels.length : Nat) : Int).bmod (2 ^ 32) = 8 * rels.length := by
    rw [Int.bmod_def]
    omega
  have hnrRels : ((8 * rels.length : Int).tdiv 8).toNat = rels.length := by
    rw [Int.mul_tdiv_cancel_left _ (by decide), Int.toNat_natCast]
  simp only [applyTable, found, hrelsz, hnrRels, if_neg hreltab, ends_bind, ends_assertThat]
  refine ⟨fun _ => ⟨fun _ => hQ, fun hzero => ?_⟩, fun hzero => ?_⟩
  · exact absurd hzero (by decide)
  · have hnot := of_decide_eq_false hzero
    omega

/-- A loader with a table of at least one and fewer than 2 ^ 28 entries. -/
theorem self_relocation (h : IsLoader s dynamic got b dyn rels reltab symtab nsyms)
    (hne : rels ≠ []) (hlt : rels.length < 2 ^ 28) :
    ((∀ r ∈ rels, Relative r ∨ GlobDat r) → ∃ t, relocateInterp dynamic got s = .ok () t ∧
      Relocated b symtab rels s.mem t.mem ∧ t.mapped = s.mapped) ∧
    ((∃ r ∈ rels, ¬ (Relative r ∨ GlobDat r)) →
      ∃ t, relocateInterp dynamic got s = .error (.exit (-1)) t) := by
  have hpos := List.length_pos_iff.mpr hne
  have hreltab := h.table.maps.ne_null (by omega)
  have hends := ends_relocateInterp h
    (ends_applyTable hreltab hne hlt (ends_relocateLoop h.table))
  constructor
  · intro hall
    obtain ⟨_, t, hrun, _, hrelocated⟩ := (hends.mono (fun _ _ => id) fun e he => by
      obtain ⟨_, r, hr, hother⟩ := he
      exact hother (hall r hr)).returns
    exact ⟨t, hrun, hrelocated⟩
  · rintro ⟨r, hr, hother⟩
    have hstops : Ends (relocateInterp dynamic got) s (fun _ _ => False)
        fun e => e = .exit (-1) :=
      hends.mono (fun _ _ hall => hother (hall.1 r hr)) fun _ he => he.1
    obtain ⟨_, t, hrun, rfl⟩ := hstops.stops
    exact ⟨t, hrun⟩

/-- An empty table does not pass. -/
theorem relocateInterp_empty (h : IsLoader s dynamic got b dyn [] reltab symtab nsyms)
    (hreltab : reltab ≠ 0) :
    ∃ t, relocateInterp dynamic got s = .error (.assertion "relsz != 0") t := by
  have hends : Ends (relocateInterp dynamic got) s (fun _ _ => False)
      fun e => e = .assertion "relsz != 0" := by
    apply ends_relocateInterp h
    have hrelsz : ((8 * ([] : List (Nat × Nat)).length : Nat) : Int).bmod (2 ^ 32) = 0 := by decide
    simp only [applyTable, found, hrelsz, if_neg hreltab, ends_bind, ends_assertThat]
    refine ⟨fun hne => absurd hne (by decide), fun _ => trivial⟩
  obtain ⟨_, t, hrun, rfl⟩ := hends.stops
  exact ⟨t, hrun⟩

/-- From 2 ^ 28 entries on the size is negative as an `int`, and nothing is relocated. -/
theorem relocateInterp_large (h : IsLoader s dynamic got b dyn rels reltab symtab nsyms)
    (hlarge : 2 ^ 28 ≤ rels.length) : relocateInterp dynamic got s = .ok () s := by
  have hreltab := h.table.maps.ne_null (by omega)
  have hend := h.table.maps.le (by omega)
  have hrelsz : ((8 * rels.length : Nat) : Int).bmod (2 ^ 32) = -(2 ^ 32 - 8 * rels.length) := by
    rw [Int.bmod_def]
    omega
  have hnrRels : ((-(2 ^ 32 - 8 * rels.length : Int)).tdiv 8).toNat = 0 := by
    rw [Int.neg_tdiv, Int.toNat_eq_zero]
    have hnonneg := Int.tdiv_nonneg (a := 2 ^ 32 - 8 * rels.length) (b := 8) (by omega) (by omega)
    omega
  have hends : Ends (relocateInterp dynamic got) s (fun _ t => t = s) fun _ => False := by
    apply ends_relocateInterp h
    simp only [applyTable, found, hrelsz, hnrRels, if_neg hreltab, ends_bind, ends_assertThat]
    refine ⟨fun _ => ⟨fun _ => ?_, fun hzero => absurd hzero (by decide)⟩, fun hzero => ?_⟩
    · rw [relocateLoop, ends_pure]
    · have hnot := of_decide_eq_false hzero
      omega
  obtain ⟨_, t, hrun, rfl⟩ := hends.returns
  exact hrun

end Whole

/-! A loader linked at 0 and mapped at `0x40000000`. -/

def inLoader (a : Nat) : Bool := decide (0x40000000 ≤ a) && decide (a < 0x40004000)

def loaderDynamic (relsz : Nat) : List (Nat × Nat) :=
  [(dtSymtab, 0x2100), (dtRelent, 8), (dtRelsz, relsz), (5, 0x2200), (dtRel, 0x2000)]

/-- `*(0x3000)` holds the address of something, `*(0x3004)` gets the address of symbol 1. -/
def loaderRels : List (Nat × Nat) := [(0x3000, 8), (0x3004, 0x106)]

def wordBytes (ws : List Nat) : List UInt8 := ws.flatMap (Lib.LittleEndian.leBytes 4)

def loaderImage (rels : List (Nat × Nat)) : Image where
  mem := [(0x40001000, pairWords (loaderDynamic (8 * rels.length))), (0x40002000, pairWords rels),
      (0x40002114, [0x1234]), (0x40003000, [0x3456, 0, 0x1000])].foldl
    (fun m region => writeBytes m region.1 (wordBytes region.2)) fun _ => 0
  mapped := inLoader
  null := rfl
  below := by
    intro a h
    rw [inLoader, Bool.and_eq_true, decide_eq_true_eq, decide_eq_true_eq] at h
    omega

theorem ready_loader : Ready (loaderImage loaderRels) 0x40000000 0x40002000 0x40002100 2
    loaderRels where
  words := by decide +kernel
  maps := by decide +kernel
  mapsSyms := by decide +kernel
  syms := by decide
  mapsTargets := by decide +kernel
  outsideTable := by decide
  outsideSyms := by decide
  apart := by decide

theorem isLoader_loader : IsLoader (loaderImage loaderRels) 0x40001000 0x40003008 0x40000000
    (loaderDynamic 16) loaderRels 0x40002000 0x40002100 2 where
  mapsGot := by decide +kernel
  bias := by decide +kernel
  words := by decide +kernel
  maps := by decide +kernel
  tags := by decide
  rel := by decide
  relsz := by decide
  relent := by decide
  symbols := by decide
  table := ready_loader

theorem self_relocation_loader :
    ∃ t, relocateInterp 0x40001000 0x40003008 (loaderImage loaderRels) = .ok () t ∧
      word t.mem 0x40003000 = 0x40003456 ∧ word t.mem 0x40003004 = 0x40001234 := by
  obtain ⟨t, hrun, hrelocated, _⟩ :=
    (self_relocation isLoader_loader (List.cons_ne_nil _ _) (by decide)).1 (by decide)
  refine ⟨t, hrun, ?_, ?_⟩
  · have hword := hrelocated.relative (0x3000, 8) (by decide) (by decide)
    exact hword.trans (by decide +kernel)
  · have hword := hrelocated.globDat (0x3004, 0x106) (by decide) (by decide)
    exact hword.trans (by decide +kernel)

theorem isLoader_empty : IsLoader (loaderImage []) 0x40001000 0x40003008 0x40000000
    (loaderDynamic 0) [] 0x40002000 0x40002100 2 where
  mapsGot := by decide +kernel
  bias := by decide +kernel
  words := by decide +kernel
  maps := by decide +kernel
  tags := by decide
  rel := by decide
  relsz := by decide
  relent := by decide
  symbols := by decide
  table :=
    { words := trivial
      maps := by decide
      mapsSyms := by decide +kernel
      syms := by decide
      mapsTargets := by decide
      outsideTable := by decide
      outsideSyms := by decide
      apart := List.Pairwise.nil }

/-- A dynamic section that lists a table of no entries. -/
theorem empty_table_stops :
    IsLoader (loaderImage []) 0x40001000 0x40003008 0x40000000 (loaderDynamic 0) [] 0x40002000
        0x40002100 2 ∧
      ∃ t, relocateInterp 0x40001000 0x40003008 (loaderImage []) =
        .error (.assertion "relsz != 0") t :=
  ⟨isLoader_empty, relocateInterp_empty isLoader_empty (by decide)⟩

end Snitchaser.Elf.SelfRelocation
