import Snitchaser.Elf.Mapping
/-!
# The image of a file

`load_elf` maps the first segment over the whole image and puts the others on top
of it.  Segments that share no page do not damage each other, so that in the end
every one of them has its bytes.
-/

namespace Snitchaser.Elf.Image

open Snitchaser.Defs
open Snitchaser.Elf.Mapping
open Snitchaser.Elf.Model
open Snitchaser.Lib.AddressSpace
open Snitchaser.Lib.Hoare
open Snitchaser.Lib.LittleEndian
open Snitchaser.Lib.Program

/-! ## The headers -/

section Headers

variable {k : Kernel} {file : List UInt8} {s t : State}

def hdrOf (file : List UInt8) : ElfHdr := ElfHdr.ofBytes (readAt file 0 sizeofElfHdr)

/-- The bytes of the program header table. -/
def tableBytes (file : List UInt8) : List UInt8 :=
  readAt file (hdrOf file).ePhoff (sizeofElfPhdr * (hdrOf file).ePhnum)

def tableOf (file : List UInt8) : List ElfPhdr := phdrsOf (tableBytes file) (hdrOf file).ePhnum

/-- The segments to be loaded. -/
def loadsOf (phdrs : List ElfPhdr) : List ElfPhdr := phdrs.filter fun p => p.pType = ptLoad

theorem cassert_ok_iff {cond : Bool} {fmt : String} {u : Unit} :
    cassert cond fmt s = .ok u t ↔ cond = true ∧ t = s := by
  cases cond with
  | false => simp [cassert]
  | true => simp [cassert]

theorem openElfFile_ok {hdr : ElfHdr} (h : openElfFile k file s = .ok hdr t) :
    hdr = hdrOf file ∧ t = s := by
  simp only [openElfFile, bind_ok_iff, cassert_ok_iff, pure_ok_iff] at h
  obtain ⟨_, _, ⟨-, rfl⟩, _, _, ⟨-, rfl⟩, _, _, ⟨-, rfl⟩, _, _, ⟨-, rfl⟩, _, _, ⟨-, rfl⟩, rfl,
    rfl⟩ := h
  exact ⟨rfl, rfl⟩

theorem loadPhdrs_ok {phdrs : List ElfPhdr} (h : loadPhdrs file (hdrOf file) s = .ok phdrs t) :
    phdrs = tableOf file ∧ t = s := by
  simp only [loadPhdrs, bind_ok_iff, assertThat_ok_iff, pure_ok_iff] at h
  obtain ⟨_, _, ⟨-, rfl⟩, _, _, ⟨-, rfl⟩, rfl, rfl⟩ := h
  exact ⟨rfl, rfl⟩

theorem field_lt (bs : List UInt8) (offset width : Nat) : field bs offset width < 256 ^ width := by
  have hlen : ((bs.drop offset).take width).length ≤ width := List.length_take_le _ _
  exact (leNat_lt _).trans_le (Nat.pow_le_pow_right (by decide) hlen)

/-- The fields of a header are 32-bit words. -/
structure Words (p : ElfPhdr) : Prop where
  offset : p.pOffset < 2 ^ 32
  vaddr : p.pVaddr < 2 ^ 32

theorem words_of_mem {p : ElfPhdr} (h : p ∈ tableOf file) : Words p := by
  obtain ⟨i, _, rfl⟩ := List.mem_map.mp h
  exact ⟨field_lt _ 4 4, field_lt _ 8 4⟩

end Headers

/-! ## The extent of the image -/

section Extent

variable {s t : State} {phdrs : List ElfPhdr}

/-- The lowest address, or the value `start` has without any segment. -/
def imageStart (phdrs : List ElfPhdr) : Nat :=
  (loadsOf phdrs).foldr (fun p low => min p.pVaddr low) (2 ^ 32 - 1)

def imageEnd (phdrs : List ElfPhdr) : Nat :=
  (loadsOf phdrs).foldr (fun p high => max (p.pVaddr + p.pMemsz) high) 0

/-- The pages from the first segment to the end of the last one. -/
def imageSize (phdrs : List ElfPhdr) : Nat :=
  pageCeil (imageEnd phdrs) - pageFloor (imageStart phdrs)

/-- What `get_total_map_sz` checks of a segment. -/
def Checked (p : ElfPhdr) : Prop := p.pAlign ≠ 0 ∧ sub32 p.pVaddr p.pOffset % p.pAlign = 0

instance (p : ElfPhdr) : Decidable (Checked p) :=
  inferInstanceAs (Decidable (p.pAlign ≠ 0 ∧ sub32 p.pVaddr p.pOffset % p.pAlign = 0))

/-- The variables of the loop after the headers from index `i` on. -/
def extentFrom : Nat → List ElfPhdr → Extent → Extent
  | _, [], e => e
  | i, p :: ps, e => extentFrom (i + 1) ps (if p.pType = ptLoad then e.add i p else e)

theorem scanLoads_ok_iff {i : Nat} {ps : List ElfPhdr} {e e' : Extent} :
    scanLoads i ps e s = .ok e' t ↔
      (∀ p ∈ loadsOf ps, Checked p) ∧ e' = extentFrom i ps e ∧ t = s := by
  induction ps generalizing i e s with
  | nil => simp [scanLoads, loadsOf, extentFrom]
  | cons p ps ih =>
      by_cases hload : p.pType = ptLoad
      · by_cases halign : p.pAlign = 0
        · simp [scanLoads, loadsOf, hload, halign, Checked]
        · have hloads : loadsOf (p :: ps) = p :: loadsOf ps := by simp [loadsOf, hload]
          simp only [scanLoads, hloads, extentFrom, hload, ne_eq, not_true_eq_false, if_false,
            halign, if_true, bind_ok_iff, assertThat_ok_iff, decide_eq_true_eq, ih,
            List.forall_mem_cons, Checked, not_false_eq_true, true_and]
          constructor
          · rintro ⟨_, _, ⟨hmod, rfl⟩, hrest, hextent, rfl⟩
            exact ⟨⟨hmod, hrest⟩, hextent, rfl⟩
          · rintro ⟨⟨hmod, hrest⟩, hextent, rfl⟩
            exact ⟨(), _, ⟨hmod, rfl⟩, hrest, hextent, rfl⟩
      · simp [scanLoads, loadsOf, extentFrom, hload, ih]

theorem extentFrom_start {i : Nat} {ps : List ElfPhdr} {e : Extent} (h : e.start ≤ 2 ^ 32 - 1) :
    (extentFrom i ps e).start = min e.start (imageStart ps) := by
  induction ps generalizing i e with
  | nil => exact (min_eq_left h).symm
  | cons p ps ih =>
      by_cases hload : p.pType = ptLoad
      · have hstart : imageStart (p :: ps) = min p.pVaddr (imageStart ps) := by
          simp [imageStart, loadsOf, hload]
        rw [extentFrom, if_pos hload, ih, hstart]
        · simp only [Extent.add]
          split_ifs <;> omega
        · simp only [Extent.add]
          split_ifs <;> omega
      · have hstart : imageStart (p :: ps) = imageStart ps := by
          simp [imageStart, loadsOf, hload]
        rw [extentFrom, if_neg hload, ih h, hstart]

theorem extentFrom_end {i : Nat} {ps : List ElfPhdr} {e : Extent}
    (h : ∀ p ∈ loadsOf ps, p.pVaddr + p.pMemsz < 2 ^ 32) :
    (extentFrom i ps e).end_ = max e.end_ (imageEnd ps) := by
  induction ps generalizing i e with
  | nil => simp [extentFrom, imageEnd, loadsOf]
  | cons p ps ih =>
      by_cases hload : p.pType = ptLoad
      · have hloads : loadsOf (p :: ps) = p :: loadsOf ps := by simp [loadsOf, hload]
        rw [hloads, List.forall_mem_cons] at h
        have hend : imageEnd (p :: ps) = max (p.pVaddr + p.pMemsz) (imageEnd ps) := by
          rw [imageEnd, hloads]
          rfl
        rw [extentFrom, if_pos hload, ih h.2, hend, Extent.add, Nat.mod_eq_of_lt h.1, max_assoc]
      · have hloads : loadsOf (p :: ps) = loadsOf ps := by simp [loadsOf, hload]
        rw [hloads] at h
        rw [extentFrom, if_neg hload, ih h, imageEnd, imageEnd, hloads]

theorem imageStart_le {p : ElfPhdr} (h : p ∈ loadsOf phdrs) : imageStart phdrs ≤ p.pVaddr := by
  unfold imageStart
  generalize loadsOf phdrs = qs at h
  induction qs with
  | nil => cases h
  | cons q qs ih =>
      rw [List.foldr_cons]
      rcases List.mem_cons.mp h with rfl | hmem
      · exact min_le_left _ _
      · exact (min_le_right _ _).trans (ih hmem)

theorem le_imageEnd {p : ElfPhdr} (h : p ∈ loadsOf phdrs) :
    p.pVaddr + p.pMemsz ≤ imageEnd phdrs := by
  unfold imageEnd
  generalize loadsOf phdrs = qs at h
  induction qs with
  | nil => cases h
  | cons q qs ih =>
      rw [List.foldr_cons]
      rcases List.mem_cons.mp h with rfl | hmem
      · exact le_max_left _ _
      · exact (ih hmem).trans (le_max_right _ _)

theorem imageEnd_lt (h : ∀ p ∈ loadsOf phdrs, p.pVaddr + p.pMemsz < 2 ^ 32) :
    imageEnd phdrs < 2 ^ 32 := by
  unfold imageEnd
  generalize loadsOf phdrs = qs at h
  induction qs with
  | nil => decide
  | cons q qs ih =>
      rw [List.forall_mem_cons] at h
      rw [List.foldr_cons]
      exact max_lt h.1 (ih h.2)

/-- The header at index `j` is the first of the lowest segments. -/
structure Lowest (ps : List ElfPhdr) (j : Nat) (p : ElfPhdr) : Prop where
  get : ps[j]? = some p
  load : p.pType = ptLoad
  before : ∀ j' < j, ∀ q, ps[j']? = some q → q.pType = ptLoad → p.pVaddr < q.pVaddr

theorem Lowest.cons {ps : List ElfPhdr} {j : Nat} {p q : ElfPhdr} (h : Lowest ps j p)
    (hq : q.pType = ptLoad → p.pVaddr < q.pVaddr) : Lowest (q :: ps) (j + 1) p where
  get := h.get
  load := h.load
  before := by
    intro j' hj' r hr hload
    cases j' with
    | zero =>
        obtain rfl := Option.some.inj hr
        exact hq hload
    | succ j' => exact h.before j' (by omega) r hr hload

/-- Either the loop leaves `start` and `first` as they are, or it finds a lower segment. -/
theorem extentFrom_first (i : Nat) (ps : List ElfPhdr) (e : Extent) :
    ((extentFrom i ps e).start = e.start ∧ (extentFrom i ps e).first = e.first) ∨
      ∃ j p, Lowest ps j p ∧ p.pVaddr < e.start ∧
        (extentFrom i ps e).start = p.pVaddr ∧ (extentFrom i ps e).first = i + j := by
  induction ps generalizing i e with
  | nil => exact Or.inl ⟨rfl, rfl⟩
  | cons q ps ih =>
      by_cases hlower : q.pType = ptLoad ∧ q.pVaddr < e.start
      · obtain ⟨hload, hlt⟩ := hlower
        have hstart : (e.add i q).start = q.pVaddr := if_pos hlt
        have hfirst : (e.add i q).first = i := if_pos hlt
        rw [extentFrom, if_pos hload]
        rcases ih (i := i + 1) (e := e.add i q) with ⟨hs, hf⟩ | ⟨j, p, hlow, hp, hs, hf⟩
        · refine Or.inr ⟨0, q, ⟨rfl, hload, by omega⟩, hlt, ?_, ?_⟩
          · rw [hs, hstart]
          · rw [hf, hfirst]
            rfl
        · rw [hstart] at hp
          exact Or.inr ⟨j + 1, p, hlow.cons fun _ => hp, hp.trans hlt, hs, by omega⟩
      · have hkeep : ∀ e', e' = (if q.pType = ptLoad then e.add i q else e) →
            e'.start = e.start ∧ e'.first = e.first := by
          rintro e' rfl
          split_ifs with hload
          · have hge : ¬ q.pVaddr < e.start := fun hlt => hlower ⟨hload, hlt⟩
            exact ⟨if_neg hge, if_neg hge⟩
          · exact ⟨rfl, rfl⟩
        obtain ⟨hstart, hfirst⟩ := hkeep _ rfl
        rw [extentFrom]
        rcases ih (i := i + 1) (e := if q.pType = ptLoad then e.add i q else e) with
          ⟨hs, hf⟩ | ⟨j, p, hlow, hp, hs, hf⟩
        · exact Or.inl ⟨hs.trans hstart, hf.trans hfirst⟩
        · rw [hstart] at hp
          refine Or.inr ⟨j + 1, p, hlow.cons fun hload => ?_, hp, hs, by omega⟩
          have hge : ¬ q.pVaddr < e.start := fun hlt => hlower ⟨hload, hlt⟩
          omega

/-- What `get_total_map_sz` returns. -/
def totalOf (phdrs : List ElfPhdr) : Nat × Nat :=
  let e := extentFrom 0 phdrs ⟨2 ^ 32 - 1, 0, 0⟩
  (sub32 (alignUp e.end_ 0x1000) (alignDown e.start 0x1000), e.first)

theorem getTotalMapSz_ok_iff {r : Nat × Nat} :
    getTotalMapSz phdrs s = .ok r t ↔
      (∀ p ∈ loadsOf phdrs, Checked p) ∧ 0 < (totalOf phdrs).1 ∧ r = totalOf phdrs ∧ t = s := by
  simp only [getTotalMapSz, bind_ok_iff, scanLoads_ok_iff, assertThat_ok_iff, pure_ok_iff,
    decide_eq_true_eq]
  constructor
  · rintro ⟨_, _, ⟨hchecked, rfl, rfl⟩, _, _, ⟨hpos, rfl⟩, rfl, rfl⟩
    exact ⟨hchecked, hpos, rfl, rfl⟩
  · rintro ⟨hchecked, hpos, rfl, rfl⟩
    exact ⟨_, _, ⟨hchecked, rfl, rfl⟩, (), _, ⟨hpos, rfl⟩, rfl, rfl⟩

theorem alignUp_mod {x : Nat} (h : x < 2 ^ 32) : alignUp x 0x1000 = pageCeil x % 2 ^ 32 := by
  have hdown : alignUp x 0x1000 = alignDown ((x + 4095) % 2 ^ 32) 0x1000 := by
    rw [alignUp, show x + 0x1000 - 1 = x + 4095 by omega, alignDown, alignDown, Nat.mod_mod]
  rw [hdown, alignDown_eq (Nat.mod_lt _ (by decide))]
  unfold pageFloor pageCeil
  omega

/-- Without a wrap of the sizes the total is the size of the image, modulo `2 ^ 32`. -/
theorem totalOf_fst (h : ∀ p ∈ loadsOf phdrs, p.pVaddr + p.pMemsz < 2 ^ 32)
    (hle : imageStart phdrs ≤ imageEnd phdrs) :
    (totalOf phdrs).1 = imageSize phdrs % 2 ^ 32 := by
  have hend := imageEnd_lt h
  have hstart : (extentFrom 0 phdrs ⟨2 ^ 32 - 1, 0, 0⟩).start = imageStart phdrs := by
    rw [extentFrom_start le_rfl]
    change min (2 ^ 32 - 1) (imageStart phdrs) = _
    omega
  have hstop : (extentFrom 0 phdrs ⟨2 ^ 32 - 1, 0, 0⟩).end_ = imageEnd phdrs := by
    rw [extentFrom_end h]
    exact Nat.zero_max _
  have hfloor := (pageFloor_le (imageStart phdrs)).trans (hle.trans (le_pageCeil _))
  have hceil : pageCeil (imageEnd phdrs) ≤ 2 ^ 32 := by
    unfold pageCeil
    omega
  rw [totalOf, hstart, hstop, alignUp_mod hend, alignDown_eq (by omega), sub32, imageSize]
  have hlt : pageFloor (imageStart phdrs) < 2 ^ 32 := (pageFloor_le _).trans_lt (by omega)
  omega

/-- The segment `map_first` is given spans the image, if its address is a page. -/
theorem spans_image {p : ElfPhdr} (h : ∀ p ∈ loadsOf phdrs, p.pVaddr + p.pMemsz < 2 ^ 32)
    (hmem : p ∈ loadsOf phdrs) (hlow : p.pVaddr = imageStart phdrs)
    (haligned : p.pVaddr % 4096 = 0) (hpos : 0 < (totalOf phdrs).1) :
    Spans p (imageSize phdrs) ∧ (totalOf phdrs).1 = imageSize phdrs := by
  have hend := imageEnd_lt h
  have hle := le_imageEnd hmem
  have hfst := totalOf_fst h (by omega)
  have hsize : imageSize phdrs = pageCeil (imageEnd phdrs) - p.pVaddr := by
    rw [imageSize, ← hlow]
    unfold pageFloor
    omega
  have hceil := le_pageCeil (imageEnd phdrs)
  have hmod := pageCeil_mod (imageEnd phdrs)
  have htop : pageCeil (imageEnd phdrs) ≤ 2 ^ 32 := by
    unfold pageCeil
    omega
  have hlt : imageSize phdrs < 2 ^ 32 := by omega
  rw [Nat.mod_eq_of_lt hlt] at hfst
  refine ⟨⟨haligned, ?_, ?_, hlt, ?_, ?_⟩, hfst⟩
  · omega
  · omega
  · omega
  · omega

end Extent

/-! ## The other segments -/

section Others

variable {k : Kernel} {file : List UInt8} {phdrs : List ElfPhdr} {s : State}

/-- No page belongs to both segments. -/
def PagesDisjoint (p q : ElfPhdr) : Prop :=
  ∀ x, ¬ (pageFloor p.pVaddr ≤ x ∧ x < pageCeil (p.pVaddr + p.pMemsz) ∧
    pageFloor q.pVaddr ≤ x ∧ x < pageCeil (q.pVaddr + q.pMemsz))

theorem PagesDisjoint.symm {p q : ElfPhdr} (h : PagesDisjoint p q) : PagesDisjoint q p := by
  intro x hx
  exact h x ⟨hx.2.2.1, hx.2.2.2, hx.1, hx.2.1⟩

/-- Two headers at different places in the table share no page. -/
theorem disjoint_of_ne (h : (loadsOf phdrs).Pairwise PagesDisjoint) {i j : Nat} {p q : ElfPhdr}
    (hi : phdrs[i]? = some p) (hj : phdrs[j]? = some q) (hp : p.pType = ptLoad)
    (hq : q.pType = ptLoad) (hne : i ≠ j) : PagesDisjoint p q := by
  rw [loadsOf, List.pairwise_filter, List.pairwise_iff_getElem] at h
  obtain ⟨hilt, rfl⟩ := List.getElem?_eq_some_iff.mp hi
  obtain ⟨hjlt, rfl⟩ := List.getElem?_eq_some_iff.mp hj
  rcases Nat.lt_or_gt_of_ne hne with hlt | hgt
  · exact h i j hilt hjlt hlt (decide_eq_true hp) (decide_eq_true hq)
  · exact (h j i hjlt hilt hgt (decide_eq_true hq) (decide_eq_true hp)).symm

/-- The image from `low` on is at `a`, and the segment is a part of it. -/
structure Inside (low a : Nat) (size : Nat) (p : ElfPhdr) : Prop where
  base : low % 4096 = 0
  aligned : a % 4096 = 0
  lo : low ≤ p.pVaddr
  hi : p.pVaddr + p.pMemsz ≤ low + size
  pages : size % 4096 = 0
  below : a + size < 2 ^ 32

theorem inside_image {fixed : Bool} {a : Nat} {p q : ElfPhdr}
    (hmaps : MapsImage k fixed p.pVaddr (imageSize phdrs) a) (h : Spans p (imageSize phdrs))
    (hp : p.pVaddr = imageStart phdrs) (hq : q ∈ loadsOf phdrs) :
    Inside p.pVaddr a (imageSize phdrs) q := by
  have hlo := imageStart_le hq
  have hhi := (le_imageEnd hq).trans (le_pageCeil _)
  refine ⟨h.aligned, hmaps.aligned, by omega, ?_, h.pages, hmaps.below⟩
  have hfloor : pageFloor p.pVaddr = p.pVaddr :=
    Nat.div_mul_cancel (Nat.dvd_of_mod_eq_zero h.aligned)
  rw [imageSize, ← hp, hfloor]
  omega

/-- The bias moves every segment as it moves the first. -/
theorem add32_image {fixed : Bool} {a : Nat} {p q : ElfPhdr}
    (hmaps : MapsImage k fixed p.pVaddr (imageSize phdrs) a) (h : Spans p (imageSize phdrs))
    (hp : p.pVaddr = imageStart phdrs) (hwrap : q.pVaddr + q.pMemsz < 2 ^ 32)
    (hq : q ∈ loadsOf phdrs) :
    add32 (biasOf fixed a p.pVaddr) q.pVaddr = a + (q.pVaddr - p.pVaddr) := by
  have hinside := inside_image hmaps h hp hq
  have hadd := add32_biasOf hmaps hinside.lo ((Nat.le_add_right _ _).trans hinside.hi) h.top
  rwa [Nat.mod_eq_of_lt ((Nat.le_add_right _ _).trans_lt hwrap)] at hadd

theorem Inside.pageCeil_le {low a size : Nat} {p : ElfPhdr} (h : Inside low a size p) :
    pageCeil (a + (p.pVaddr - low) + p.pMemsz) ≤ a + size := by
  obtain ⟨hbase, haligned, hlo, hhi, hpages, hbelow⟩ := h
  unfold pageCeil
  omega

/-- A segment keeps its bytes when the pages of another are replaced. -/
theorem contains_other {low a size : Nat} {p q : ElfPhdr} {space space' : Space}
    (hp : Inside low a size p) (hq : Inside low a size q) (hdisjoint : PagesDisjoint p q)
    (hsame : SameOutside (pageFloor (a + (p.pVaddr - low)))
      (pageCeil (a + (p.pVaddr - low) + p.pMemsz)) space space') {f : Nat → UInt8}
    (h : Contains space (a + (q.pVaddr - low)) q.pMemsz f) :
    Contains space' (a + (q.pVaddr - low)) q.pMemsz f := by
  apply h.frame hsame
  intro i hi
  have hnot := hdisjoint (q.pVaddr + i)
  have hbase := hp.base
  have ha := hp.aligned
  have hplo := hp.lo
  have hqlo := hq.lo
  unfold pageFloor pageCeil at hnot ⊢
  omega

/-- The segments with index below `i`, and the first, have their bytes. -/
def LoadedUpTo (file : List UInt8) (phdrs : List ElfPhdr) (first low a i : Nat) (space : Space) :
    Prop :=
  ∀ j p, phdrs[j]? = some p → p.pType = ptLoad → j < i ∨ j = first →
    Contains space (a + (p.pVaddr - low)) p.pMemsz (segmentByte file p)

theorem ends_mapOthers {first low a size loadBias i : Nat} {ps : List ElfPhdr} {needInterp : Bool}
    (hdrop : phdrs.drop i = ps) (hdisjoint : (loadsOf phdrs).Pairwise PagesDisjoint)
    (hinside : ∀ p ∈ loadsOf phdrs, Inside low a size p)
    (hmappable : ∀ p ∈ loadsOf phdrs, Mappable file p (a + (p.pVaddr - low)))
    (hbias : ∀ p ∈ loadsOf phdrs, add32 loadBias p.pVaddr = a + (p.pVaddr - low))
    (h : LoadedUpTo file phdrs first low a i s.space) :
    Ends (mapOthers k file first loadBias i ps needInterp) s
      (fun _ t => LoadedUpTo file phdrs first low a phdrs.length t.space) fun _ => True := by
  induction ps generalizing i needInterp s with
  | nil =>
      have hlen : phdrs.length ≤ i := List.drop_eq_nil_iff.mp hdrop
      rw [mapOthers, ends_pure]
      intro j p hj hload hlt
      have hjlen := (List.getElem?_eq_some_iff.mp hj).1
      exact h j p hj hload (by omega)
  | cons p ps ih =>
      have hget : phdrs[i]? = some p := by
        rw [← List.head?_drop, hdrop]
        rfl
      have hnext : phdrs.drop (i + 1) = ps := by
        rw [← List.tail_drop, hdrop]
        rfl
      rw [mapOthers, ends_ite]
      constructor
      · intro hskip
        apply ih hnext
        intro j q hj hload hlt
        apply h j q hj hload
        by_cases hji : j = i
        · subst hji
          obtain rfl := Option.some.inj (hget.symm.trans hj)
          exact Or.inr (hskip.resolve_right (not_not.mpr hload))
        · omega
      · intro hmap
        rw [not_or, not_not] at hmap
        have hmem : p ∈ loadsOf phdrs :=
          List.mem_filter.mpr ⟨List.mem_of_getElem? hget, decide_eq_true hmap.2⟩
        have hbelow := (hinside p hmem).pageCeil_le.trans_lt (hinside p hmem).below
        rw [ends_bind, mapRegion_eq (hbias p hmem) (hmappable p hmem).sizes hbelow]
        apply (ends_regionAt (hmappable p hmem)).post
        intro _ t ht
        apply ih hnext
        intro j q hj hload hlt
        by_cases hji : j = i
        · subst hji
          obtain rfl := Option.some.inj (hget.symm.trans hj)
          exact ht.2
        · have hqmem : q ∈ loadsOf phdrs :=
            List.mem_filter.mpr ⟨List.mem_of_getElem? hj, decide_eq_true hload⟩
          have hne : i ≠ j := fun heq => hji heq.symm
          exact contains_other (hinside p hmem) (hinside q hqmem)
            (disjoint_of_ne hdisjoint hget hj hmap.2 hload hne) ht.1
            (h j q hj hload (by omega))

theorem mapOthers_ok {first loadBias i : Nat} {ps : List ElfPhdr} {needInterp b : Bool}
    {t : State} (h : mapOthers k file first loadBias i ps needInterp s = .ok b t) :
    b = (needInterp || ps.any fun p => p.pType == ptInterp) := by
  induction ps generalizing i needInterp s with
  | nil =>
      obtain ⟨rfl, _⟩ := pure_ok_iff.mp h
      rw [List.any_nil, Bool.or_false]
  | cons p ps ih =>
      rw [List.any_cons, ← Bool.or_assoc]
      rw [mapOthers] at h
      split_ifs at h
      · exact ih h
      · obtain ⟨_, _, _, hrest⟩ := bind_ok_iff.mp h
        exact ih hrest

end Others

/-! ## The whole image -/

section Whole

variable {k : Kernel} {file : List UInt8} {phdrs : List ElfPhdr} {s t : State} {r : Loaded}
  {a : Nat}

/-- Segments in ascending order that share no page and lie in the file, with room
behind their part of the file only if they can be written to. -/
structure WellFormed (file : List UInt8) (phdrs : List ElfPhdr) : Prop where
  ascending : (loadsOf phdrs).Pairwise fun p q => p.pVaddr ≤ q.pVaddr
  disjoint : (loadsOf phdrs).Pairwise PagesDisjoint
  sizes : ∀ p ∈ loadsOf phdrs, p.pFilesz ≤ p.pMemsz
  inFile : ∀ p ∈ loadsOf phdrs, p.pOffset + p.pFilesz ≤ file.length
  noWrap : ∀ p ∈ loadsOf phdrs, p.pVaddr + p.pMemsz < 2 ^ 32
  align : ∀ p ∈ loadsOf phdrs, p.pAlign % 0x1000 = 0
  writable : ∀ p ∈ loadsOf phdrs, p.pFilesz < p.pMemsz → p.pFlags &&& pfW ≠ 0

theorem congruent_of_checked {p : ElfPhdr} (hwords : Words p) (h : Checked p)
    (halign : p.pAlign % 0x1000 = 0) : p.pVaddr % 4096 = p.pOffset % 4096 := by
  have hvaddr := hwords.vaddr
  have hoffset := hwords.offset
  have hdvd : 4096 ∣ sub32 p.pVaddr p.pOffset :=
    (Nat.dvd_of_mod_eq_zero halign).trans (Nat.dvd_of_mod_eq_zero h.2)
  unfold sub32 at hdvd
  omega

/-- In an ascending table no segment stands before the lowest. -/
theorem Lowest.none_before {j : Nat} {p : ElfPhdr} (hlow : Lowest phdrs j p)
    (hascending : (loadsOf phdrs).Pairwise fun p q => p.pVaddr ≤ q.pVaddr) {i : Nat} (hij : i < j)
    {q : ElfPhdr} (hq : phdrs[i]? = some q) : q.pType ≠ ptLoad := by
  intro hload
  rw [loadsOf, List.pairwise_filter, List.pairwise_iff_getElem] at hascending
  obtain ⟨hi, rfl⟩ := List.getElem?_eq_some_iff.mp hq
  obtain ⟨hj, rfl⟩ := List.getElem?_eq_some_iff.mp hlow.get
  have hbefore := hlow.before i hij _ hq hload
  have hle := hascending i j hi hj hij (decide_eq_true hload) (decide_eq_true hlow.load)
  omega

theorem loadsOf_of_lowest {j : Nat} {p : ElfPhdr} (hlow : Lowest phdrs j p)
    (hascending : (loadsOf phdrs).Pairwise fun p q => p.pVaddr ≤ q.pVaddr) :
    loadsOf phdrs = p :: loadsOf (phdrs.drop (j + 1)) := by
  obtain ⟨hj, hp⟩ := List.getElem?_eq_some_iff.mp hlow.get
  have hnone : loadsOf (phdrs.take j) = [] := by
    rw [loadsOf, List.filter_eq_nil_iff]
    intro q hq hload
    obtain ⟨i, hi, hget⟩ := List.mem_take_iff_getElem.mp hq
    exact hlow.none_before hascending (by omega)
      (List.getElem?_eq_some_iff.mpr ⟨by omega, hget⟩) (of_decide_eq_true hload)
  calc loadsOf phdrs = loadsOf (phdrs.take j ++ p :: phdrs.drop (j + 1)) := by
        rw [← hp, List.getElem_cons_drop, List.take_append_drop]
    _ = loadsOf (phdrs.take j) ++ loadsOf (p :: phdrs.drop (j + 1)) := List.filter_append _ _
    _ = p :: loadsOf (phdrs.drop (j + 1)) := by
        rw [hnone, List.nil_append]
        exact List.filter_cons_of_pos (decide_eq_true hlow.load)

/-- A finished `load_elf`, taken apart. -/
structure Finished (k : Kernel) (file : List UInt8) (s t : State) (r : Loaded) : Prop where
  checked : ∀ p ∈ loadsOf (tableOf file), Checked p
  pos : 0 < (totalOf (tableOf file)).1
  mapped : ∃ p mapAddr u needInterp, (tableOf file)[(totalOf (tableOf file)).2]? = some p ∧
    mapFirst k file p (totalOf (tableOf file)).1 ((hdrOf file).eType == etExec) s =
      .ok (mapAddr, r.loadBias) u ∧
    mapOthers k file (totalOf (tableOf file)).2 r.loadBias 0 (tableOf file) false u =
      .ok needInterp t ∧
    r = ⟨add32 r.loadBias (hdrOf file).eEntry, r.loadBias, add32 mapAddr (hdrOf file).ePhoff,
      (hdrOf file).ePhnum, needInterp⟩

theorem finished_of_loadElf (h : loadElf k file s = .ok r t) : Finished k file s t r := by
  rw [loadElf, bind_ok_iff] at h
  obtain ⟨hdr, _, hopen, h⟩ := h
  obtain ⟨rfl, rfl⟩ := openElfFile_ok hopen
  rw [bind_ok_iff] at h
  obtain ⟨phdrs, _, hload, h⟩ := h
  obtain ⟨rfl, rfl⟩ := loadPhdrs_ok hload
  rw [bind_ok_iff] at h
  obtain ⟨_, _, htotal, h⟩ := h
  obtain ⟨hchecked, hpos, rfl, rfl⟩ := getTotalMapSz_ok_iff.mp htotal
  refine ⟨hchecked, hpos, ?_⟩
  cases hget : (tableOf file)[(totalOf (tableOf file)).2]? with
  | none => simp [hget] at h
  | some p =>
      simp only [hget, bind_ok_iff, pure_ok_iff] at h
      obtain ⟨⟨mapAddr, loadBias⟩, u, hfirst, needInterp, _, hothers, rfl, rfl⟩ := h
      exact ⟨p, mapAddr, u, needInterp, rfl, hfirst, hothers, rfl⟩

/-- Where a finished `load_elf` has put its segments. -/
theorem contains_of_finished {p : ElfPhdr} (hwf : WellFormed file (tableOf file))
    (hmaps : MapsImage k ((hdrOf file).eType == etExec) p.pVaddr (imageSize (tableOf file)) a)
    (h : Finished k file s t r) (hlow : Lowest (tableOf file) (totalOf (tableOf file)).2 p)
    (hp : p.pVaddr = imageStart (tableOf file)) :
    p.pOffset = 0 ∧ r.phdrs = add32 a (hdrOf file).ePhoff ∧ ∀ q ∈ loadsOf (tableOf file),
      Inside p.pVaddr a (imageSize (tableOf file)) q ∧
      add32 r.loadBias q.pVaddr = a + (q.pVaddr - p.pVaddr) ∧
      Contains t.space (a + (q.pVaddr - p.pVaddr)) q.pMemsz (segmentByte file q) := by
  obtain ⟨p', mapAddr, u, needInterp, hget, hfirst, hothers, hr⟩ := h.mapped
  obtain rfl := Option.some.inj (hlow.get.symm.trans hget)
  have hmem : p ∈ loadsOf (tableOf file) :=
    List.mem_filter.mpr ⟨List.mem_of_getElem? hget, decide_eq_true hlow.load⟩
  have hcongruent : ∀ q ∈ loadsOf (tableOf file), q.pVaddr % 4096 = q.pOffset % 4096 :=
    fun q hq => congruent_of_checked (words_of_mem (List.mem_filter.mp hq).1) (h.checked q hq)
      (hwf.align q hq)
  have hoffset : p.pOffset = 0 := by
    unfold mapFirst at hfirst
    obtain ⟨_, _, hassert, _⟩ := bind_ok_iff.mp hfirst
    exact of_decide_eq_true (assertThat_ok_iff.mp hassert).1
  have haligned : p.pVaddr % 4096 = 0 := by rw [hcongruent p hmem, hoffset]
  obtain ⟨hspans, htotal⟩ := spans_image hwf.noWrap hmem hp haligned h.pos
  have hinside : ∀ q ∈ loadsOf (tableOf file), Inside p.pVaddr a (imageSize (tableOf file)) q :=
    fun q hq => inside_image hmaps hspans hp hq
  have hmappable : ∀ q ∈ loadsOf (tableOf file),
      Mappable file q (a + (q.pVaddr - p.pVaddr)) := by
    intro q hq
    refine ⟨hwf.sizes q hq, hwf.inFile q hq, ?_⟩
    have hlo := (hinside q hq).lo
    have ha := hmaps.aligned
    rw [← hcongruent q hq]
    omega
  rw [htotal, mapFirst_eq hmaps hspans hoffset] at hfirst
  have hself : a + (p.pVaddr - p.pVaddr) = a := by omega
  have hatFirst : Mappable file p a := by
    have hm := hmappable p hmem
    rwa [hself] at hm
  obtain ⟨hpair, hcontains⟩ :=
    (ends_firstAt hmaps hspans hatFirst (hwf.writable p hmem)).of_ok hfirst
  obtain ⟨rfl, hbias⟩ := Prod.mk.inj hpair
  have hmoved : ∀ q ∈ loadsOf (tableOf file),
      add32 r.loadBias q.pVaddr = mapAddr + (q.pVaddr - p.pVaddr) := by
    intro q hq
    rw [hbias]
    exact add32_image hmaps hspans hp (hwf.noWrap q hq) hq
  refine ⟨hoffset, by rw [hr], fun q hq => ⟨hinside q hq, hmoved q hq, ?_⟩⟩
  have hloaded := (ends_mapOthers (i := 0) rfl hwf.disjoint hinside hmappable hmoved (by
    intro j q hj hload hor
    obtain rfl : j = (totalOf (tableOf file)).2 := by omega
    obtain rfl := Option.some.inj (hget.symm.trans hj)
    rw [hself]
    exact hcontains)).of_ok hothers
  obtain ⟨hqmem, hqload⟩ := List.mem_filter.mp hq
  obtain ⟨j, hj, hqj⟩ := List.getElem_of_mem hqmem
  exact hloaded j q (List.getElem?_eq_some_iff.mpr ⟨hj, hqj⟩) (of_decide_eq_true hqload)
    (Or.inl hj)

/-- Either there is a lowest segment, or nothing below the last address is to be loaded. -/
theorem lowest_or_empty (phdrs : List ElfPhdr) :
    (∃ p, Lowest phdrs (totalOf phdrs).2 p ∧ p.pVaddr = imageStart phdrs) ∨
      ∀ p ∈ loadsOf phdrs, 2 ^ 32 - 1 ≤ p.pVaddr := by
  have hstart : (extentFrom 0 phdrs ⟨2 ^ 32 - 1, 0, 0⟩).start =
      min (2 ^ 32 - 1) (imageStart phdrs) := extentFrom_start le_rfl
  rcases extentFrom_first 0 phdrs ⟨2 ^ 32 - 1, 0, 0⟩ with
    ⟨hs, _⟩ | ⟨j, p, hlow, hp, hs, hf⟩
  · right
    intro p hp
    have hle := imageStart_le hp
    have hs' : (extentFrom 0 phdrs ⟨2 ^ 32 - 1, 0, 0⟩).start = 2 ^ 32 - 1 := hs
    omega
  · left
    have hp' : p.pVaddr < 2 ^ 32 - 1 := hp
    refine ⟨p, ?_, by omega⟩
    have hindex : (totalOf phdrs).2 = j := by
      rw [Nat.zero_add] at hf
      exact hf
    rwa [hindex]

/-- A byte a finished `load_elf` leaves at `(load_bias + p_vaddr + i) mod 2 ^ 32`. -/
theorem byte_of_contains {low size loadBias i : Nat} {q : ElfPhdr} {space : Space}
    (hinside : Inside low a size q) (hmoved : add32 loadBias q.pVaddr = a + (q.pVaddr - low))
    (h : Contains space (a + (q.pVaddr - low)) q.pMemsz (segmentByte file q)) (hi : i < q.pMemsz)
    (hin : q.pOffset + q.pFilesz ≤ file.length) :
    (space ((loadBias + q.pVaddr + i) % 2 ^ 32)).map Cell.byte =
      if i < q.pFilesz then file[q.pOffset + i]? else some 0 := by
  have hbelow := hinside.below
  have hlo := hinside.lo
  have hhi := hinside.hi
  have haddr : (loadBias + q.pVaddr + i) % 2 ^ 32 = a + (q.pVaddr - low) + i := by
    rw [add32] at hmoved
    omega
  rw [haddr, h i hi, segmentByte]
  split_ifs with hfile
  · rw [List.getD_eq_getElem?_getD, List.getElem?_eq_getElem (by omega)]
    rfl
  · rfl

/-- If `load_elf` returns, every segment has its bytes and zeros behind them, and the
results describe the image. -/
theorem load_elf_image (hwf : WellFormed file (tableOf file))
    (hmaps : loadsOf (tableOf file) ≠ [] → MapsImage k ((hdrOf file).eType == etExec)
      (imageStart (tableOf file)) (imageSize (tableOf file)) a)
    (hrun : loadElf k file s = .ok r t) :
    (∀ p ∈ loadsOf (tableOf file), ∀ i < p.pMemsz,
      (t.space ((r.loadBias + p.pVaddr + i) % 2 ^ 32)).map Cell.byte =
        if i < p.pFilesz then file[p.pOffset + i]? else some 0) ∧
    r.entry = (r.loadBias + (hdrOf file).eEntry) % 2 ^ 32 ∧
    (r.needInterp = true ↔ ∃ p ∈ tableOf file, p.pType = ptInterp) ∧
    (∀ p, (loadsOf (tableOf file)).head? = some p →
      (hdrOf file).ePhoff + sizeofElfPhdr * (hdrOf file).ePhnum ≤ p.pFilesz →
      r.nrPhdrs = (hdrOf file).ePhnum ∧
      ∀ i < sizeofElfPhdr * (hdrOf file).ePhnum,
        (t.space ((r.phdrs + i) % 2 ^ 32)).map Cell.byte =
          file[(hdrOf file).ePhoff + i]?) := by
  have hfin := finished_of_loadElf hrun
  obtain ⟨p', mapAddr, u, needInterp, hget, hfirst, hothers, hr⟩ := hfin.mapped
  have hinterp : r.needInterp = true ↔ ∃ p ∈ tableOf file, p.pType = ptInterp := by
    rw [hr, mapOthers_ok hothers]
    simp
  have hentry : r.entry = (r.loadBias + (hdrOf file).eEntry) % 2 ^ 32 := congrArg Loaded.entry hr
  have hnr : r.nrPhdrs = (hdrOf file).ePhnum := congrArg Loaded.nrPhdrs hr
  rcases lowest_or_empty (tableOf file) with ⟨p, hlow, hp⟩ | hempty
  · have hmem : p ∈ loadsOf (tableOf file) :=
      List.mem_filter.mpr ⟨List.mem_of_getElem? hlow.get, decide_eq_true hlow.load⟩
    have hat := hmaps (List.ne_nil_of_mem hmem)
    rw [← hp] at hat
    obtain ⟨hoffset, hphdrs, hall⟩ := contains_of_finished hwf hat hfin hlow hp
    refine ⟨?_, hentry, hinterp, ?_⟩
    · intro q hq i hi
      obtain ⟨hinside, hmoved, hcontains⟩ := hall q hq
      exact byte_of_contains hinside hmoved hcontains hi (hwf.inFile q hq)
    · intro q hhead hcovers
      rw [loadsOf_of_lowest hlow hwf.ascending] at hhead
      obtain rfl := Option.some.inj hhead
      refine ⟨hnr, ?_⟩
      intro i hi
      obtain ⟨hinside, _, hcontains⟩ := hall p hmem
      have hsizes := hwf.sizes p hmem
      have hin := hwf.inFile p hmem
      have hbelow := hinside.below
      have hhi := hinside.hi
      -- the table stands in the first segment as it does in the file
      have haddr : (r.phdrs + i) % 2 ^ 32 =
          a + (p.pVaddr - p.pVaddr) + ((hdrOf file).ePhoff + i) := by
        rw [hphdrs, add32]
        omega
      rw [haddr, hcontains _ (by omega), segmentByte, if_pos (by omega), hoffset, Nat.zero_add,
        List.getD_eq_getElem?_getD, List.getElem?_eq_getElem (by omega)]
      rfl
  · have hnone : ∀ q ∈ loadsOf (tableOf file), q.pMemsz = 0 := by
      intro q hq
      have hwrap := hwf.noWrap q hq
      have hge := hempty q hq
      omega
    refine ⟨?_, hentry, hinterp, ?_⟩
    · intro q hq i hi
      have hzero := hnone q hq
      omega
    · intro q hhead hcovers
      refine ⟨hnr, ?_⟩
      have hq := List.mem_of_mem_head? hhead
      have hzero := hnone q hq
      have hsizes := hwf.sizes q hq
      intro i hi
      omega

end Whole

/-! ## A shared object -/

/-- The bytes of a program header. -/
def phdrBytes (p : ElfPhdr) : List UInt8 :=
  [p.pType, p.pOffset, p.pVaddr, 0, p.pFilesz, p.pMemsz, p.pFlags, p.pAlign].flatMap (leBytes 4)

/-- A file that begins with its header and its program headers. -/
def fileWith (eType eEntry : Nat) (phdrs : List ElfPhdr) (rest : List UInt8) : List UInt8 :=
  elfMag ++ [1, 1, 1] ++ List.replicate 9 0 ++ leBytes 2 eType ++ leBytes 2 em386 ++ leBytes 4 1 ++
    leBytes 4 eEntry ++ leBytes 4 sizeofElfHdr ++ leBytes 8 0 ++ leBytes 2 sizeofElfHdr ++
    leBytes 2 sizeofElfPhdr ++ leBytes 2 phdrs.length ++ leBytes 6 0 ++ phdrs.flatMap phdrBytes ++
    rest

/-- A kernel that grants every mapping with a length, and puts at `0x40000000`, if it
fits there, what may be anywhere. -/
def grantingKernel : Kernel where
  openFile := 3
  place := fun addr len fixed =>
    if len = 0 then .error ⟨22, by decide, by decide⟩
    else .ok (if fixed then addr else if len ≤ 0x80000000 then 0x40000000 else 0)
  unmaps := fun _ _ => true

/-- Text and data in one segment, with 12 bytes behind the part in the file. -/
def textPhdr : ElfPhdr := ⟨ptLoad, 0, 0, 148, 160, pfR ||| pfW ||| pfX, 0x1000⟩

def interpPhdr : ElfPhdr := ⟨ptInterp, 0, 0, 0, 0, 0, 1⟩

def constPhdr : ElfPhdr := ⟨ptLoad, 0xFFC, 0x1FFC, 4, 4, pfR, 0x1000⟩

def sharedObject : List UInt8 :=
  fileWith etDyn 0x40 [textPhdr, interpPhdr, constPhdr] (List.replicate 3944 0 ++ [1, 2, 3, 4])

theorem tableOf_sharedObject : tableOf sharedObject = [textPhdr, interpPhdr, constPhdr] := by
  decide +kernel

theorem wellFormed_sharedObject : WellFormed sharedObject (tableOf sharedObject) := by
  have hloads : loadsOf (tableOf sharedObject) = [textPhdr, constPhdr] := by
    rw [tableOf_sharedObject]
    rfl
  constructor
  · rw [hloads]
    decide
  · rw [hloads, List.pairwise_pair]
    intro x hx
    have htext : pageCeil (textPhdr.pVaddr + textPhdr.pMemsz) = 0x1000 := rfl
    have hconst : pageFloor constPhdr.pVaddr = 0x1000 := rfl
    omega
  · rw [hloads]
    decide
  · rw [hloads]
    decide +kernel
  · rw [hloads]
    decide
  · rw [hloads]
    decide
  · rw [hloads]
    decide

theorem returns_sharedObject :
    Returns (loadElf grantingKernel sharedObject) ⟨fun _ => none, []⟩ := by
  decide +kernel

theorem mapsImage_sharedObject :
    MapsImage grantingKernel ((hdrOf sharedObject).eType == etExec)
      (imageStart (tableOf sharedObject)) (imageSize (tableOf sharedObject)) 0x40000000 := by
  have htype : ((hdrOf sharedObject).eType == etExec) = false := by decide +kernel
  have hsize : imageSize [textPhdr, interpPhdr, constPhdr] = 0x2000 := by decide +kernel
  rw [htype, tableOf_sharedObject, hsize]
  constructor
  · rfl
  · nofun
  · rfl
  · decide

theorem load_elf_image_sharedObject :
    ∃ r t, loadElf grantingKernel sharedObject ⟨fun _ => none, []⟩ = .ok r t ∧
      (∀ p ∈ loadsOf (tableOf sharedObject), ∀ i < p.pMemsz,
        (t.space ((r.loadBias + p.pVaddr + i) % 2 ^ 32)).map Cell.byte =
          if i < p.pFilesz then sharedObject[p.pOffset + i]? else some 0) ∧
      r.needInterp = true := by
  obtain ⟨r, t, hrun⟩ := returns_sharedObject.exists_ok
  obtain ⟨hbytes, _, hinterp, _⟩ :=
    load_elf_image wellFormed_sharedObject (fun _ => mapsImage_sharedObject) hrun
  refine ⟨r, t, hrun, hbytes, hinterp.mpr ⟨interpPhdr, ?_, rfl⟩⟩
  rw [tableOf_sharedObject]
  decide

end Snitchaser.Elf.Image
