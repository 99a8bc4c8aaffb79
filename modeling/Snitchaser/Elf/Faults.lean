import Mathlib.Data.Nat.ModEq
import Snitchaser.Elf.Image
/-!
# What stops `load_elf`

For a program header table that the ELF format allows, and a kernel that grants
every mapping with a length, whether `load_elf` comes to its end does not depend on
what was mapped before: each segment is cleared on pages it has just mapped.  So
there is a condition on the table and the file alone that decides it.
-/

namespace Snitchaser.Elf.Faults

open Snitchaser.Defs
open Snitchaser.Elf.Image
open Snitchaser.Elf.Mapping
open Snitchaser.Elf.Model
open Snitchaser.Lib.AddressSpace
open Snitchaser.Lib.Hoare
open Snitchaser.Lib.Program

/-- A kernel that refuses a mapping only if it has no length. -/
structure Willing (k : Kernel) : Prop where
  opens : 0 ≤ k.openFile
  empty : ∀ addr fixed, ∃ e, k.place addr 0 fixed = .error e
  fixed : ∀ addr len, 0 < len → k.place addr len true = .ok addr
  anywhere : ∀ len, 0 < len → len < 2 ^ 32 →
    ∃ a, k.place 0 len false = .ok a ∧ a % 4096 = 0 ∧ a + len < 2 ^ 32

/-! ## Steps -/

section Steps

variable {k : Kernel} {file : List UInt8} {s : State} {E : Stop → Prop}

theorem replace_zero (space : Space) (a : Nat) (f : Nat → Option Cell) :
    replace space a 0 f = space := by
  ext1 x
  exact replace_outside (by omega)

theorem ends_mmap_granted {addr len prot : Nat} {backing : Backing} {Q : Nat → State → Prop}
    (hk : Willing k) (hlen : 0 < len) :
    Ends (sysUniformMmap k file addr len prot true backing) s Q E ↔
      Q addr ⟨replace s.space addr len fun i =>
        backing.cell file (prot &&& Proc.Entry.protWrite != 0) i, s.ops ++ [.mmap addr len true]⟩ := by
  simp only [sysUniformMmap, ends_bind, ends_record, hk.fixed addr len hlen, ends_setCells,
    ends_pure]

/-- A mapping without a length is not where it was asked for. -/
theorem not_returns_mmap_empty {addr prot : Nat} {backing : Backing} {text : String}
    {Q : Unit → State → Prop} (hk : Willing k) (haligned : addr % 4096 = 0) :
    ¬ Ends (sysUniformMmap k file addr 0 prot true backing) s
      (fun a t => Ends (assertThat (a = addr) text) t Q fun _ => False) fun _ => False := by
  obtain ⟨e, he⟩ := hk.empty addr true
  have hpos := e.pos
  have hlt := e.lt
  have hne : sub32 0 e.val ≠ addr := by
    unfold sub32
    omega
  simp only [sysUniformMmap, ends_bind, ends_record, he, ends_pure, ends_assertThat]
  intro h
  exact h.2 (decide_eq_false hne)

/-- The anonymous pages are there afterwards, be there any or not. -/
theorem ends_mapAdditional_granted {prot lo hi : Nat} (hk : Willing k) (hle : lo ≤ hi) :
    ∃ ops, ∀ Q : Unit → State → Prop, Ends (mapAdditional k file prot lo hi) s Q E ↔
      Q () ⟨replace s.space lo (hi - lo) fun i =>
        Backing.anonymous.cell file (prot &&& Proc.Entry.protWrite != 0) i, ops⟩ := by
  unfold mapAdditional
  rcases hle.lt_or_eq with hlt | rfl
  · refine ⟨s.ops ++ [.mmap lo (hi - lo) true], fun Q => ?_⟩
    rw [if_pos hlt, ends_bind, ends_mmap_granted hk (by omega), ends_assertThat]
    simp only [decide_true, true_implies, Bool.true_eq_false, false_implies, and_true]
  · refine ⟨s.ops, fun Q => ?_⟩
    rw [if_neg (lt_irrefl _), ends_pure, Nat.sub_self, replace_zero]

theorem returns_memsetZero {a n : Nat} :
    Ends (memsetZero a n) s (fun _ _ => True) (fun _ => False) ↔ Writable s.space a n := by
  simp only [memsetZero, ends_bind, ends_record, ends_get, ends_ite, ends_setCells, ends_throw]
  exact ⟨fun h => Decidable.of_not_not h.2, fun h => ⟨fun _ => trivial, fun hnot => hnot h⟩⟩

theorem writableOf_iff (p : ElfPhdr) : writableOf p = true ↔ p.pFlags &&& pfW ≠ 0 := by
  unfold writableOf getMapProt
  split_ifs with hr hw hx
  all_goals simp_all [Proc.Entry.protRead, Proc.Entry.protWrite, Proc.Entry.protExec]

end Steps

/-! ## The segments after the first -/

section Region

variable {k : Kernel} {file : List UInt8} {p : ElfPhdr} {s : State} {a : Nat}

/-- What `map_region` needs at `a`: something to map, and pages that can be cleared
behind the part of the file. -/
def RegionOk (file : List UInt8) (p : ElfPhdr) (a : Nat) : Prop :=
  ¬ (p.pFilesz = 0 ∧ a % 4096 = 0) ∧
    (a + p.pFilesz ≠ pageCeil (a + p.pMemsz) → p.pFlags &&& pfW ≠ 0 ∧
      ((a + p.pFilesz) % 4096 ≠ 0 → (p.pOffset + p.pFilesz) / 4096 * 4096 < file.length))

/-- Only the place in the page matters. -/
theorem regionOk_congr {b : Nat} (h : a % 4096 = b % 4096) :
    RegionOk file p a ↔ RegionOk file p b := by
  have hrest : (a + p.pFilesz = pageCeil (a + p.pMemsz)) ↔
      (b + p.pFilesz = pageCeil (b + p.pMemsz)) := by
    unfold pageCeil
    omega
  have hmod : (a + p.pFilesz) % 4096 = (b + p.pFilesz) % 4096 := by omega
  unfold RegionOk
  rw [h, hmod, ne_eq, ne_eq, hrest]

/-- The pages of a segment, as `map_region` leaves them before it clears any. -/
def pagesAt (file : List UInt8) (p : ElfPhdr) (a : Nat) (space : Space) : Space :=
  replace (replace space (pageFloor a) (pageCeil (a + p.pFilesz) - pageFloor a) fun i =>
      (Backing.file p.pOffset).cell file (writableOf p) i)
    (pageCeil (a + p.pFilesz)) (pageCeil (a + p.pMemsz) - pageCeil (a + p.pFilesz)) fun i =>
      Backing.anonymous.cell file (writableOf p) i

/-- The rest of the last page of the file. -/
theorem pagesAt_file {x : Nat} {space : Space} (hcong : a % 4096 = p.pOffset % 4096)
    (hlo : a + p.pFilesz ≤ x) (hhi : x < pageCeil (a + p.pFilesz)) :
    (pagesAt file p a space x).any Cell.writable = true ↔
      writableOf p = true ∧ (p.pOffset + p.pFilesz) / 4096 * 4096 < file.length := by
  have hpage : pageSize = 4096 := rfl
  have hfloor := pageFloor_le a
  obtain ⟨i, rfl⟩ := Nat.exists_eq_add_of_le (hfloor.trans ((Nat.le_add_right _ _).trans hlo))
  have hsame : (p.pOffset / pageSize * pageSize + i) / pageSize * pageSize =
      (p.pOffset + p.pFilesz) / 4096 * 4096 := by
    rw [hpage]
    unfold pageFloor at hlo hhi
    unfold pageCeil at hhi
    omega
  rw [pagesAt, replace_outside (Or.inl hhi), replace_inside (by omega), Backing.cell]
  simp only [hsame]
  split_ifs with hin
  · simp [hin]
  · simp [hin]

theorem pagesAt_anonymous {x : Nat} {space : Space} (hlo : pageCeil (a + p.pFilesz) ≤ x)
    (hhi : x < pageCeil (a + p.pMemsz)) :
    (pagesAt file p a space x).any Cell.writable = true ↔ writableOf p = true := by
  obtain ⟨i, rfl⟩ := Nat.exists_eq_add_of_le hlo
  rw [pagesAt, replace_inside (by omega), Backing.cell]
  simp

theorem writable_pagesAt {space : Space} (hsizes : p.pFilesz ≤ p.pMemsz)
    (hcong : a % 4096 = p.pOffset % 4096) :
    Writable (pagesAt file p a space) (a + p.pFilesz)
        (pageCeil (a + p.pMemsz) - (a + p.pFilesz)) ↔
      (a + p.pFilesz ≠ pageCeil (a + p.pMemsz) → p.pFlags &&& pfW ≠ 0 ∧
        ((a + p.pFilesz) % 4096 ≠ 0 → (p.pOffset + p.pFilesz) / 4096 * 4096 < file.length)) := by
  obtain ⟨_, hfile, hpages, _⟩ := ordered_of_sizes hsizes a
  rw [← writableOf_iff]
  constructor
  · intro h hne
    have hfirst := h 0 (by omega)
    rw [Nat.add_zero] at hfirst
    by_cases hpart : (a + p.pFilesz) % 4096 = 0
    · have hwhole : pageCeil (a + p.pFilesz) ≤ a + p.pFilesz := by
        unfold pageCeil
        omega
      rw [pagesAt_anonymous hwhole (by omega)] at hfirst
      exact ⟨hfirst, fun hnot => absurd hpart hnot⟩
    · have hbefore : a + p.pFilesz < pageCeil (a + p.pFilesz) := by
        unfold pageCeil
        omega
      rw [pagesAt_file hcong le_rfl hbefore] at hfirst
      exact ⟨hfirst.1, fun _ => hfirst.2⟩
  · intro h i hi
    obtain ⟨hwritable, hlast⟩ := h (by omega)
    by_cases hpart : a + p.pFilesz + i < pageCeil (a + p.pFilesz)
    · have hmod : (a + p.pFilesz) % 4096 ≠ 0 := by
        intro hzero
        unfold pageCeil at hpart
        omega
      exact (pagesAt_file hcong (by omega) hpart).mpr ⟨hwritable, hlast hmod⟩
    · exact (pagesAt_anonymous (by omega) (by omega)).mpr hwritable

theorem returns_regionAt (hk : Willing k) (hsizes : p.pFilesz ≤ p.pMemsz)
    (hcong : a % 4096 = p.pOffset % 4096) :
    Returns (regionAt k file p a) s ↔ RegionOk file p a := by
  obtain ⟨hstart, hfile, hpages, _⟩ := ordered_of_sizes hsizes a
  rw [returns_iff_ends, regionAt, ends_bind]
  simp only [ends_bind]
  by_cases hempty : p.pFilesz = 0 ∧ a % 4096 = 0
  · have hlen : pageCeil (a + p.pFilesz) - pageFloor a = 0 := by
      unfold pageCeil pageFloor
      omega
    rw [hlen]
    exact iff_of_false (not_returns_mmap_empty hk (pageFloor_mod a)) fun h => h.1 hempty
  · have hlen : 0 < pageCeil (a + p.pFilesz) - pageFloor a := by
      unfold pageCeil pageFloor
      omega
    rw [ends_mmap_granted hk hlen, ends_assertThat]
    simp only [decide_true, true_implies, Bool.true_eq_false, false_implies, and_true]
    obtain ⟨ops, hadditional⟩ := ends_mapAdditional_granted hk hpages
    rw [hadditional, returns_memsetZero]
    exact (writable_pagesAt hsizes hcong).trans (and_iff_right hempty).symm

end Region

/-! ## The first segment -/

section First

variable {k : Kernel} {file : List UInt8} {p : ElfPhdr} {s : State} {fixed : Bool} {a size : Nat}

/-- What `map_first` needs: that the pages it clears are pages of the file. -/
def FirstOk (file : List UInt8) (p : ElfPhdr) : Prop :=
  p.pFilesz < p.pMemsz → p.pFlags &&& pfW ≠ 0 → (p.pMemsz - 1) / 4096 * 4096 < file.length

/-- The pages of the first segment stay when the ones behind it are unmapped. -/
theorem ends_unmapAt (k : Kernel) (p : ElfPhdr) (a size : Nat) {E : Stop → Prop} :
    ∃ t : State, (∀ x < pageCeil (a + p.pMemsz), t.space x = s.space x) ∧
      ∀ Q : Unit → State → Prop, Ends (unmapAt k p a size) s Q E ↔ Q () t := by
  have hkeep : ∀ x < pageCeil (a + p.pMemsz), replace s.space (pageCeil (a + p.pMemsz))
      (a + size - pageCeil (a + p.pMemsz)) (fun _ => none) x = s.space x :=
    fun x hx => replace_outside (Or.inl hx)
  unfold unmapAt sysMunmap
  split_ifs with hlt hunmaps
  · exact ⟨⟨_, s.ops ++ [.munmap _ _]⟩, hkeep, fun Q => Iff.rfl⟩
  · exact ⟨⟨s.space, s.ops ++ [.munmap _ _]⟩, fun _ _ => rfl, fun Q => Iff.rfl⟩
  · exact ⟨s, fun _ _ => rfl, fun Q => Iff.rfl⟩

theorem writable_first {space : Space} (hoffset : p.pOffset = 0) (hlt : p.pFilesz < p.pMemsz)
    (hsize : p.pMemsz ≤ size) (hflag : p.pFlags &&& pfW ≠ 0)
    (h : ∀ x < pageCeil (a + p.pMemsz), space x =
      replace s.space a size (fun i => (Backing.file p.pOffset).cell file (writableOf p) i) x) :
    Writable space (a + p.pFilesz) (p.pMemsz - p.pFilesz) ↔
      (p.pMemsz - 1) / 4096 * 4096 < file.length := by
  have hceil := le_pageCeil (a + p.pMemsz)
  have hcell : ∀ i < p.pMemsz, (space (a + i)).any Cell.writable = true ↔
      i / 4096 * 4096 < file.length := by
    intro i hi
    have hpage : (0 / pageSize * pageSize + i) / pageSize * pageSize = i / 4096 * 4096 := by
      rw [show pageSize = 4096 from rfl]
      omega
    rw [h _ (by omega), replace_inside (by omega), Backing.cell, hoffset]
    simp only [hpage, (writableOf_iff p).mpr hflag]
    split_ifs with hin
    · simp [hin]
    · simp [hin]
  constructor
  · intro hall
    have hlast := hall (p.pMemsz - 1 - p.pFilesz) (by omega)
    rw [show a + p.pFilesz + (p.pMemsz - 1 - p.pFilesz) = a + (p.pMemsz - 1) by omega,
      hcell (p.pMemsz - 1) (by omega)] at hlast
    exact hlast
  · intro hlast i hi
    have hle : (p.pFilesz + i) / 4096 ≤ (p.pMemsz - 1) / 4096 :=
      Nat.div_le_div_right (by omega)
    rw [Nat.add_assoc, hcell (p.pFilesz + i) (by omega)]
    exact (Nat.mul_le_mul_right _ hle).trans_lt hlast

theorem returns_firstAt {β : Type} {f : Nat × Nat → Prog State β} {d : Prop}
    (h : Spans p size) (hoffset : p.pOffset = 0)
    (hf : ∀ t, Returns (f (a, biasOf fixed a p.pVaddr)) t ↔ d) :
    Returns (firstAt k file p size fixed a >>= f) s ↔ FirstOk file p ∧ d := by
  have hsplit : firstAt k file p size fixed a >>= f =
      (do
        record (.mmap (if fixed then p.pVaddr else 0) size fixed)
        setCells a size fun i => (Backing.file p.pOffset).cell file (writableOf p) i
        unmapAt k p a size
        padAt p a) >>= fun _ => f (a, biasOf fixed a p.pVaddr) := by
    simp only [firstAt, bind_assoc, pure_bind]
  rw [hsplit]
  apply returns_seq _ hf
  rw [returns_iff_ends]
  simp only [ends_bind, ends_record, ends_setCells]
  obtain ⟨t, hsame, hunmap⟩ := ends_unmapAt k p a size
  rw [hunmap]
  unfold padAt FirstOk
  split_ifs with hcond
  · rw [returns_memsetZero, writable_first hoffset hcond.1 h.first hcond.2 hsame]
    exact ⟨fun hlast _ _ => hlast, fun hall => hall hcond.1 hcond.2⟩
  · exact iff_of_true trivial fun hlt hflag => absurd ⟨hlt, hflag⟩ hcond

end First

/-! ## The loop over the others -/

section Others

variable {k : Kernel} {file : List UInt8} {s : State}

theorem forall_getElem?_cons {α : Type} {x : α} {xs : List α} {P : Nat → α → Prop} :
    (∀ j y, (x :: xs)[j]? = some y → P j y) ↔
      P 0 x ∧ ∀ j y, xs[j]? = some y → P (j + 1) y := by
  constructor
  · intro h
    exact ⟨h 0 x rfl, fun j y hy => h (j + 1) y hy⟩
  · rintro ⟨hzero, hsucc⟩ j y hy
    cases j with
    | zero =>
        obtain rfl := Option.some.inj hy
        exact hzero
    | succ j => exact hsucc j y hy

theorem returns_mapOthers {first low a size loadBias i : Nat} {ps : List ElfPhdr}
    {needInterp : Bool} (hk : Willing k) (hinside : ∀ p ∈ loadsOf ps, Inside low a size p)
    (hsizes : ∀ p ∈ loadsOf ps, p.pFilesz ≤ p.pMemsz)
    (hcong : ∀ p ∈ loadsOf ps, p.pVaddr % 4096 = p.pOffset % 4096)
    (hbias : ∀ p ∈ loadsOf ps, add32 loadBias p.pVaddr = a + (p.pVaddr - low)) :
    Returns (mapOthers k file first loadBias i ps needInterp) s ↔
      ∀ j p, ps[j]? = some p → p.pType = ptLoad → i + j ≠ first → RegionOk file p p.pVaddr := by
  induction ps generalizing i needInterp s with
  | nil => exact iff_of_true ⟨_, _, rfl⟩ fun j p hj => by simp at hj
  | cons p ps ih =>
      have hsub : ∀ q ∈ loadsOf ps, q ∈ loadsOf (p :: ps) := by
        intro q hq
        rw [loadsOf, List.mem_filter] at hq ⊢
        exact ⟨List.mem_cons_of_mem p hq.1, hq.2⟩
      have hrest : ∀ b t, Returns (mapOthers k file first loadBias (i + 1) ps b) t ↔
          ∀ j q, ps[j]? = some q → q.pType = ptLoad → i + (j + 1) ≠ first →
            RegionOk file q q.pVaddr := by
        intro b t
        rw [ih (fun q hq => hinside q (hsub q hq)) (fun q hq => hsizes q (hsub q hq))
          (fun q hq => hcong q (hsub q hq)) fun q hq => hbias q (hsub q hq)]
        simp only [Nat.add_assoc, Nat.add_comm 1]
      rw [forall_getElem?_cons, mapOthers]
      split_ifs with hskip
      · rw [hrest]
        exact (and_iff_right fun hload hne => absurd hskip (by tauto)).symm
      · rw [not_or, not_not] at hskip
        have hmem : p ∈ loadsOf (p :: ps) := by simp [loadsOf, hskip.2]
        have hin := hinside p hmem
        have hsame : (a + (p.pVaddr - low)) % 4096 = p.pVaddr % 4096 := by
          have hbase := hin.base
          have haligned := hin.aligned
          have hlo := hin.lo
          omega
        have hregion : ∀ t, Returns (mapRegion k file p loadBias) t ↔
            RegionOk file p p.pVaddr := by
          intro t
          rw [mapRegion_eq (hbias p hmem) (hsizes p hmem) (hin.pageCeil_le.trans_lt hin.below),
            returns_regionAt hk (hsizes p hmem) (hsame.trans (hcong p hmem)), regionOk_congr hsame]
        rw [returns_seq (hregion s) (hrest _)]
        exact and_congr_left' ⟨fun h _ _ => h, fun h => h hskip.2 hskip.1⟩

end Others

/-! ## The whole -/

section Whole

variable {k : Kernel} {file : List UInt8} {phdrs : List ElfPhdr} {s : State}

/-- A file that `load_elf` recognises. -/
structure ValidHeader (file : List UInt8) : Prop where
  whole : sizeofElfHdr ≤ file.length
  magic : (hdrOf file).eIdent.take 4 = elfMag
  type : (hdrOf file).eType = etDyn ∨ (hdrOf file).eType = etExec
  machine : (hdrOf file).eMachine = em386
  offset : (hdrOf file).ePhoff < 2 ^ 31
  table : (tableBytes file).length = sizeofElfPhdr * (hdrOf file).ePhnum

/-- A table the ELF format allows. -/
structure ValidTable (phdrs : List ElfPhdr) : Prop where
  first : ∃ p, (loadsOf phdrs).head? = some p ∧ p.pOffset = 0
  ascending : (loadsOf phdrs).Pairwise fun p q => p.pVaddr ≤ q.pVaddr
  disjoint : (loadsOf phdrs).Pairwise PagesDisjoint
  sizes : ∀ p ∈ loadsOf phdrs, p.pFilesz ≤ p.pMemsz
  congruent : ∀ p ∈ loadsOf phdrs, p.pVaddr % 4096 = p.pOffset % 4096
  noWrap : ∀ p ∈ loadsOf phdrs, pageCeil (p.pVaddr + p.pMemsz) < 2 ^ 32
  align : ∀ p ∈ loadsOf phdrs, p.pAlign = 0 ∨
    (∃ n, p.pAlign = 2 ^ n) ∧ p.pVaddr % p.pAlign = p.pOffset % p.pAlign

/-- What `load_elf` needs of such a table. -/
structure Loadable (file : List UInt8) (phdrs : List ElfPhdr) : Prop where
  align : ∀ p ∈ loadsOf phdrs, p.pAlign ≠ 0
  pages : 0 < imageSize phdrs
  first : ∀ p, (loadsOf phdrs).head? = some p → FirstOk file p
  others : ∀ p ∈ (loadsOf phdrs).tail, RegionOk file p p.pVaddr

theorem openElfFile_eq (hk : Willing k) (h : ValidHeader file) :
    openElfFile k file = pure (hdrOf file) := by
  have hlen : (readAt file 0 sizeofElfHdr).length = sizeofElfHdr := by
    have hwhole := h.whole
    simp only [readAt, List.length_take, List.length_drop]
    omega
  have hpass : ∀ {c : Prop} [Decidable c] {fmt : String}, c → cassert (decide c) fmt = pure () := by
    intro c _ fmt hc
    rw [decide_eq_true hc]
    rfl
  unfold openElfFile
  simp only [hpass hk.opens, hpass hlen, pure_bind]
  change (do
    cassert (decide ((hdrOf file).eIdent.take 4 = elfMag)) _
    cassert (decide ((hdrOf file).eType = etDyn ∨ (hdrOf file).eType = etExec)) _
    cassert (decide ((hdrOf file).eMachine = em386)) _
    pure (hdrOf file)) = _
  simp only [hpass h.magic, hpass h.type, hpass h.machine, pure_bind]

theorem loadPhdrs_eq (h : ValidHeader file) : loadPhdrs file (hdrOf file) = pure (tableOf file) := by
  have hpass : ∀ {c : Prop} [Decidable c] {text : String}, c →
      (assertThat (decide c) text : Prog State Unit) = pure () := by
    intro c _ text hc
    rw [decide_eq_true hc]
    rfl
  unfold loadPhdrs
  simp only [hpass h.offset, pure_bind]
  change (do
    assertThat (decide ((tableBytes file).length = _)) _
    pure (tableOf file)) = _
  rw [hpass h.table, pure_bind]

/-- The check of the alignment passes for the alignments the format allows, but not
for zero. -/
theorem checked_iff {p : ElfPhdr} (hwords : Words p) (hlt : p.pAlign < 2 ^ 32)
    (h : p.pAlign = 0 ∨ (∃ n, p.pAlign = 2 ^ n) ∧ p.pVaddr % p.pAlign = p.pOffset % p.pAlign) :
    Checked p ↔ p.pAlign ≠ 0 := by
  constructor
  · intro hchecked
    exact hchecked.1
  · intro hne
    obtain ⟨⟨n, hn⟩, hcong⟩ := h.resolve_left hne
    refine ⟨hne, ?_⟩
    have hword : p.pAlign ∣ 2 ^ 32 := by
      rw [hn] at hlt ⊢
      exact Nat.pow_dvd_pow 2 (Nat.pow_lt_pow_iff_right (by decide) |>.mp hlt).le
    have hoffset := hwords.offset
    have hsame : p.pOffset ≡ p.pVaddr + 2 ^ 32 [MOD p.pAlign] := by
      calc p.pOffset ≡ p.pVaddr [MOD p.pAlign] := hcong.symm
        _ ≡ p.pVaddr + 2 ^ 32 [MOD p.pAlign] :=
          (Nat.ModEq.refl _).add (Nat.modEq_zero_iff_dvd.mpr hword).symm
    rw [sub32, ← Nat.dvd_iff_mod_eq_zero, Nat.dvd_mod_iff hword]
    exact (Nat.modEq_iff_dvd' (by omega)).mp hsame

theorem align_lt {p : ElfPhdr} (h : p ∈ tableOf file) : p.pAlign < 2 ^ 32 := by
  obtain ⟨i, _, rfl⟩ := List.mem_map.mp h
  exact field_lt _ 28 4

theorem pageCeil_imageEnd_lt (h : ∀ p ∈ loadsOf phdrs, pageCeil (p.pVaddr + p.pMemsz) < 2 ^ 32) :
    pageCeil (imageEnd phdrs) < 2 ^ 32 := by
  unfold imageEnd
  generalize loadsOf phdrs = qs at h
  induction qs with
  | nil => decide
  | cons q qs ih =>
      rw [List.forall_mem_cons] at h
      rw [List.foldr_cons]
      rcases max_choice (q.pVaddr + q.pMemsz) (qs.foldr (fun p high =>
        max (p.pVaddr + p.pMemsz) high) 0) with hleft | hright
      · rw [hleft]
        exact h.1
      · rw [hright]
        exact ih h.2

/-- The segments the loop maps are those after the first. -/
theorem forall_others_iff {j : Nat} {p : ElfPhdr} {P : ElfPhdr → Prop} (hlow : Lowest phdrs j p)
    (hascending : (loadsOf phdrs).Pairwise fun p q => p.pVaddr ≤ q.pVaddr) :
    (∀ i q, phdrs[i]? = some q → q.pType = ptLoad → 0 + i ≠ j → P q) ↔
      ∀ q ∈ (loadsOf phdrs).tail, P q := by
  rw [loadsOf_of_lowest hlow hascending, List.tail_cons]
  constructor
  · intro h q hq
    obtain ⟨hmem, hload⟩ := List.mem_filter.mp hq
    obtain ⟨i, hi⟩ := List.mem_iff_getElem?.mp hmem
    rw [List.getElem?_drop] at hi
    exact h (j + 1 + i) q hi (of_decide_eq_true hload) (by omega)
  · intro h i q hi hload hne
    have hafter : j < i := by
      by_contra hle
      exact hlow.none_before hascending (by omega) hi hload
    apply h
    refine List.mem_filter.mpr ⟨List.mem_iff_getElem?.mpr ⟨i - (j + 1), ?_⟩, decide_eq_true hload⟩
    rw [List.getElem?_drop, Nat.add_sub_of_le hafter, hi]

theorem mapsImage_of_willing {p : ElfPhdr} (fixed : Bool) (hk : Willing k)
    (hsize : 0 < imageSize phdrs) (hlow : p.pVaddr = imageStart phdrs)
    (haligned : p.pVaddr % 4096 = 0) (hend : pageCeil (imageEnd phdrs) < 2 ^ 32) :
    ∃ a, MapsImage k fixed p.pVaddr (imageSize phdrs) a := by
  have hfloor : pageFloor p.pVaddr = p.pVaddr :=
    Nat.div_mul_cancel (Nat.dvd_of_mod_eq_zero haligned)
  have heq : imageSize phdrs = pageCeil (imageEnd phdrs) - p.pVaddr := by
    rw [imageSize, ← hlow, hfloor]
  cases fixed with
  | true => exact ⟨p.pVaddr, hk.fixed _ _ hsize, fun _ => rfl, haligned, by omega⟩
  | false =>
      obtain ⟨a, hplace, ha, hbelow⟩ := hk.anywhere _ hsize (by omega)
      exact ⟨a, hplace, fun htrue => Bool.noConfusion htrue, ha, hbelow⟩

theorem totalOf_pos_iff {p : ElfPhdr} (hmem : p ∈ loadsOf phdrs)
    (h : ∀ p ∈ loadsOf phdrs, pageCeil (p.pVaddr + p.pMemsz) < 2 ^ 32) :
    0 < (totalOf phdrs).1 ↔ 0 < imageSize phdrs := by
  have hend := pageCeil_imageEnd_lt h
  have hstart := imageStart_le hmem
  have hstop := le_imageEnd hmem
  have hlt : imageSize phdrs < 2 ^ 32 := (Nat.sub_le _ _).trans_lt hend
  rw [totalOf_fst (fun q hq => (le_pageCeil _).trans_lt (h q hq)) (by omega),
    Nat.mod_eq_of_lt hlt]

/-- `load_elf` after it has found the size of the image. -/
theorem returns_mapImage {p : ElfPhdr} {j : Nat} {fixed : Bool} {β : Type}
    {f : Nat × Nat → Bool → β} (hk : Willing k) (hvalid : ValidTable phdrs)
    (hpos : 0 < (totalOf phdrs).1) (hlow : Lowest phdrs j p) (hp : p.pVaddr = imageStart phdrs) :
    Returns (mapFirst k file p (totalOf phdrs).1 fixed >>= fun r =>
      mapOthers k file j r.2 0 phdrs false >>= fun needInterp => pure (f r needInterp)) s ↔
        FirstOk file p ∧ ∀ q ∈ (loadsOf phdrs).tail, RegionOk file q q.pVaddr := by
  have hloads := loadsOf_of_lowest hlow hvalid.ascending
  have hmem : p ∈ loadsOf phdrs := by simp [hloads]
  have hnoWrap : ∀ q ∈ loadsOf phdrs, q.pVaddr + q.pMemsz < 2 ^ 32 :=
    fun q hq => (le_pageCeil _).trans_lt (hvalid.noWrap q hq)
  have hoffset : p.pOffset = 0 := by
    obtain ⟨q, hhead, hq⟩ := hvalid.first
    rw [hloads] at hhead
    rwa [← Option.some.inj hhead] at hq
  have haligned : p.pVaddr % 4096 = 0 := by rw [hvalid.congruent p hmem, hoffset]
  obtain ⟨hspans, htotal⟩ := spans_image hnoWrap hmem hp haligned hpos
  obtain ⟨a, hmaps⟩ := mapsImage_of_willing fixed hk hspans.pos hp haligned
    (pageCeil_imageEnd_lt hvalid.noWrap)
  rw [htotal, mapFirst_eq hmaps hspans hoffset]
  apply returns_firstAt hspans hoffset
  intro t
  rw [returns_bind_pure, returns_mapOthers hk (fun q hq => inside_image hmaps hspans hp hq)
    hvalid.sizes hvalid.congruent fun q hq => add32_image hmaps hspans hp (hnoWrap q hq) hq]
  exact forall_others_iff hlow hvalid.ascending

theorem returns_loadElf {p : ElfPhdr} (hk : Willing k) (hheader : ValidHeader file)
    (hvalid : ValidTable (tableOf file)) (hhead : (loadsOf (tableOf file)).head? = some p)
    (hchecked : ∀ q ∈ loadsOf (tableOf file), Checked q) (hpos : 0 < (totalOf (tableOf file)).1) :
    Returns (loadElf k file) s ↔
      FirstOk file p ∧ ∀ q ∈ (loadsOf (tableOf file)).tail, RegionOk file q q.pVaddr := by
  have htotal : getTotalMapSz (tableOf file) s = .ok (totalOf (tableOf file)) s :=
    getTotalMapSz_ok_iff.mpr ⟨hchecked, hpos, rfl, rfl⟩
  rw [loadElf, openElfFile_eq hk hheader, pure_bind, loadPhdrs_eq hheader, pure_bind,
    returns_bind_of_ok htotal]
  rcases lowest_or_empty (tableOf file) with ⟨q, hlow, hq⟩ | hempty
  · have hloads := loadsOf_of_lowest hlow hvalid.ascending
    rw [hloads] at hhead
    obtain rfl := Option.some.inj hhead
    simp only [hlow.get]
    exact returns_mapImage hk hvalid hpos hlow hq
  · have hmem := List.mem_of_mem_head? hhead
    have hge := hempty p hmem
    have hwrap := hvalid.noWrap p hmem
    unfold pageCeil at hwrap
    omega

/-- For an ELF file the format allows, `load_elf` divides by no zero, fails no
assertion and clears only bytes it can write to, exactly if the table is `Loadable`. -/
theorem load_elf_returns_iff (hk : Willing k) (hheader : ValidHeader file)
    (hvalid : ValidTable (tableOf file)) (s : State) :
    Returns (loadElf k file) s ↔ Loadable file (tableOf file) := by
  obtain ⟨p, hhead, _⟩ := hvalid.first
  have hmem := List.mem_of_mem_head? hhead
  have hchecked : ∀ q ∈ loadsOf (tableOf file), (Checked q ↔ q.pAlign ≠ 0) := by
    intro q hq
    have hq' := (List.mem_filter.mp hq).1
    exact checked_iff (words_of_mem hq') (align_lt hq') (hvalid.align q hq)
  have hpos := totalOf_pos_iff hmem hvalid.noWrap
  constructor
  · intro h
    obtain ⟨r, t, hrun⟩ := h.exists_ok
    have hfin := finished_of_loadElf hrun
    obtain ⟨hfirst, hothers⟩ :=
      (returns_loadElf hk hheader hvalid hhead hfin.checked hfin.pos).mp h
    refine ⟨fun q hq => (hchecked q hq).mp (hfin.checked q hq), hpos.mp hfin.pos, ?_, hothers⟩
    intro q hq
    rw [hhead] at hq
    rwa [← Option.some.inj hq]
  · intro h
    apply (returns_loadElf hk hheader hvalid hhead _ (hpos.mpr h.pages)).mpr
    · exact ⟨h.first p hhead, h.others⟩
    · intro q hq
      exact (hchecked q hq).mpr (h.align q hq)

end Whole

/-! ## Two shared objects -/

theorem willing_grantingKernel : Willing grantingKernel where
  opens := by decide
  empty := fun addr fixed => ⟨_, rfl⟩
  fixed := by
    intro addr len hlen
    simp [grantingKernel, hlen.ne']
  anywhere := by
    intro len hpos hlt
    refine ⟨if len ≤ 0x80000000 then 0x40000000 else 0, by simp [grantingKernel, hpos.ne'], ?_, ?_⟩
    · split_ifs <;> rfl
    · split_ifs <;> omega

theorem validTable_of_loads {phdrs : List ElfPhdr} {p q : ElfPhdr} (h : loadsOf phdrs = [p, q])
    (hfirst : p.pOffset = 0) (hdisjoint : pageCeil (p.pVaddr + p.pMemsz) ≤ pageFloor q.pVaddr)
    (hsizes : ∀ r ∈ [p, q], r.pFilesz ≤ r.pMemsz)
    (hcong : ∀ r ∈ [p, q], r.pVaddr % 4096 = r.pOffset % 4096)
    (hwrap : ∀ r ∈ [p, q], pageCeil (r.pVaddr + r.pMemsz) < 2 ^ 32)
    (halign : ∀ r ∈ [p, q], r.pAlign = 0x1000) : ValidTable phdrs := by
  have hle : p.pVaddr ≤ q.pVaddr := by
    have hceil := le_pageCeil (p.pVaddr + p.pMemsz)
    have hfloor := pageFloor_le q.pVaddr
    omega
  rw [← h] at hsizes hcong hwrap halign
  refine ⟨⟨p, by rw [h, List.head?_cons], hfirst⟩, ?_, ?_, hsizes, hcong, hwrap, ?_⟩
  · rw [h, List.pairwise_pair]
    exact hle
  · rw [h, List.pairwise_pair]
    intro x hx
    omega
  · intro r hr
    have hr' := hcong r hr
    rw [halign r hr]
    exact Or.inr ⟨⟨12, by norm_num⟩, hr'⟩

theorem validHeader_sharedObject : ValidHeader sharedObject := by
  constructor <;> decide +kernel

theorem validTable_sharedObject : ValidTable (tableOf sharedObject) := by
  rw [tableOf_sharedObject]
  apply validTable_of_loads (p := textPhdr) (q := constPhdr) <;> decide

theorem load_elf_returns_iff_sharedObject : Loadable sharedObject (tableOf sharedObject) :=
  (load_elf_returns_iff willing_grantingKernel validHeader_sharedObject validTable_sharedObject
    ⟨fun _ => none, []⟩).mp returns_sharedObject

/-- Constants that end inside of a page. -/
def partPhdr : ElfPhdr := ⟨ptLoad, 148, 0x1094, 4, 4, pfR, 0x1000⟩

def partObject : List UInt8 := fileWith etDyn 0x40 [textPhdr, interpPhdr, partPhdr] [1, 2, 3, 4]

/-- `map_region` clears the rest of a page that cannot be written to. -/
theorem load_elf_faults_on_constants : Willing grantingKernel ∧ ValidHeader partObject ∧
    ValidTable (tableOf partObject) ∧ ¬ Returns (loadElf grantingKernel partObject)
      ⟨fun _ => none, []⟩ := by
  have htable : tableOf partObject = [textPhdr, interpPhdr, partPhdr] := by decide +kernel
  have hloads : loadsOf (tableOf partObject) = [textPhdr, partPhdr] := by
    rw [htable]
    rfl
  have hheader : ValidHeader partObject := by constructor <;> decide +kernel
  have hvalid : ValidTable (tableOf partObject) := by
    apply validTable_of_loads hloads <;> decide
  refine ⟨willing_grantingKernel, hheader, hvalid, ?_⟩
  rw [returns_loadElf (p := textPhdr) willing_grantingKernel hheader hvalid]
  · intro h
    have hregion := h.2 partPhdr (by rw [hloads, List.tail_cons, List.mem_singleton])
    exact (hregion.2 (by decide)).1 (by decide)
  · rw [hloads, List.head?_cons]
  · rw [hloads]
    decide
  · decide +kernel

end Snitchaser.Elf.Faults
