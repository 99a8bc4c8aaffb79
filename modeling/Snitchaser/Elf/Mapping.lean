import Snitchaser.Elf.Model
import Snitchaser.Lib.Hoare
/-!
# One segment

`map_region` and `map_first` with their address arithmetic done, and what they
leave in the address space when they return: the bytes of their segment, and
nothing changed outside of its pages.
-/

namespace Snitchaser.Elf.Mapping

open Snitchaser.Defs
open Snitchaser.Elf.Model
open Snitchaser.Lib.AddressSpace
open Snitchaser.Lib.Hoare
open Snitchaser.Lib.Program

/-! ## Pages -/

def pageFloor (x : Nat) : Nat := x / 4096 * 4096

def pageCeil (x : Nat) : Nat := (x + 4095) / 4096 * 4096

theorem alignDown_eq {x : Nat} (h : x < 2 ^ 32) : alignDown x 0x1000 = pageFloor x :=
  alignDown_page h

theorem alignUp_eq {x : Nat} (h : pageCeil x < 2 ^ 32) : alignUp x 0x1000 = pageCeil x := by
  unfold pageCeil at h
  exact alignUp_page (by omega)

theorem pageFloor_le (x : Nat) : pageFloor x ≤ x := Nat.div_mul_le_self x 4096

theorem le_pageCeil (x : Nat) : x ≤ pageCeil x := by
  unfold pageCeil
  omega

theorem pageCeil_mono {x y : Nat} (h : x ≤ y) : pageCeil x ≤ pageCeil y := by
  unfold pageCeil
  omega

theorem pageFloor_mod (x : Nat) : pageFloor x % 4096 = 0 := Nat.mul_mod_left _ _

theorem pageCeil_mod (x : Nat) : pageCeil x % 4096 = 0 := Nat.mul_mod_left _ _

/-- The byte a segment has at `i`. -/
def segmentByte (file : List UInt8) (p : ElfPhdr) (i : Nat) : UInt8 :=
  if i < p.pFilesz then file.getD (p.pOffset + i) 0 else 0

/-! ## Steps -/

section Steps

variable {k : Kernel} {file : List UInt8} {s : State}

theorem ends_setCells {a n : Nat} {f : Nat → Option Cell} {Q : Unit → State → Prop}
    {E : Stop → Prop} :
    Ends (setCells a n f) s Q E ↔ Q () { s with space := replace s.space a n f } := Iff.rfl

theorem ends_record {op : Op} {Q : Unit → State → Prop} {E : Stop → Prop} :
    Ends (record op) s Q E ↔ Q () { s with ops := s.ops ++ [op] } := Iff.rfl

theorem ends_memsetZero {a n : Nat} {Q : Unit → State → Prop}
    (h : ∀ t : State, t.space = (replace s.space a n fun _ => some ⟨0, true⟩) → Q () t) :
    Ends (memsetZero a n) s Q fun _ => True := by
  simp only [memsetZero, ends_bind, ends_record, ends_get, ends_ite, ends_setCells]
  exact ⟨fun _ => h _ rfl, fun _ => trivial⟩

/-- Whether the cells of a segment can be written to. -/
def writableOf (p : ElfPhdr) : Bool := getMapProt p.pFlags &&& Proc.Entry.protWrite != 0

/-- An error is no page address, so a checked mapping is where it was asked for. -/
theorem ends_mmap_checked {addr len prot : Nat} {backing : Backing} {text : String}
    {Q : Unit → State → Prop} (haligned : addr % 4096 = 0)
    (h : ∀ t : State, t.space = (replace s.space addr len fun i =>
      backing.cell file (prot &&& Proc.Entry.protWrite != 0) i) → Q () t) :
    Ends (sysUniformMmap k file addr len prot true backing) s
      (fun a t => Ends (assertThat (a = addr) text) t Q fun _ => True) fun _ => True := by
  rw [sysUniformMmap, ends_bind, ends_record]
  cases k.place addr len true with
  | error e =>
      have hpos := e.pos
      have hlt := e.lt
      have hne : sub32 0 e.val ≠ addr := by
        unfold sub32
        omega
      rw [ends_pure, ends_assertThat]
      exact ⟨fun heq => absurd (of_decide_eq_true heq) hne, fun _ => trivial⟩
  | ok a =>
      rw [ends_bind, ends_setCells, ends_pure, ends_assertThat]
      refine ⟨fun heq => ?_, fun _ => trivial⟩
      obtain rfl := of_decide_eq_true heq
      exact h _ rfl

end Steps

/-! ## The segments after the first -/

section Region

variable {k : Kernel} {file : List UInt8} {p : ElfPhdr} {s : State} {space : Space} {a : Nat}

/-- `map_region` for a segment at `a` whose pages end below `2 ^ 32`. -/
def regionAt (k : Kernel) (file : List UInt8) (p : ElfPhdr) (a : Nat) : Prog State Unit := do
  let addr ← sysUniformMmap k file (pageFloor a) (pageCeil (a + p.pFilesz) - pageFloor a)
    (getMapProt p.pFlags) true (.file p.pOffset)
  assertThat (addr = pageFloor a) "addr == start_al"
  mapAdditional k file (getMapProt p.pFlags) (pageCeil (a + p.pFilesz)) (pageCeil (a + p.pMemsz))
  memsetZero (a + p.pFilesz) (pageCeil (a + p.pMemsz) - (a + p.pFilesz))

/-- Where the pages of a segment are, one behind the other. -/
structure Ordered (p : ElfPhdr) (a : Nat) : Prop where
  start : pageFloor a ≤ a
  file : a + p.pFilesz ≤ pageCeil (a + p.pFilesz)
  pages : pageCeil (a + p.pFilesz) ≤ pageCeil (a + p.pMemsz)
  mem : a + p.pMemsz ≤ pageCeil (a + p.pMemsz)

theorem ordered_of_sizes (hsizes : p.pFilesz ≤ p.pMemsz) (a : Nat) : Ordered p a where
  start := pageFloor_le a
  file := le_pageCeil _
  pages := pageCeil_mono (by omega)
  mem := le_pageCeil _

theorem mapRegion_eq {loadBias : Nat} (ha : add32 loadBias p.pVaddr = a)
    (hsizes : p.pFilesz ≤ p.pMemsz) (hbelow : pageCeil (a + p.pMemsz) < 2 ^ 32) :
    mapRegion k file p loadBias = regionAt k file p a := by
  obtain ⟨hstart, hfile, hpages, hmem⟩ := ordered_of_sizes hsizes a
  have hfEnd : add32 a p.pFilesz = a + p.pFilesz := add32_of_lt (by omega)
  have hmEnd : add32 a p.pMemsz = a + p.pMemsz := add32_of_lt (by omega)
  have hstartAl : alignDown a 0x1000 = pageFloor a := alignDown_eq (by omega)
  have hfEndAl := alignUp_eq (hpages.trans_lt hbelow)
  have hmEndAl := alignUp_eq hbelow
  have hlen : sub32 (pageCeil (a + p.pFilesz)) (pageFloor a) = _ :=
    sub32_of_le (hpages.trans_lt hbelow) (by omega)
  have hrest := sub32_of_le hbelow (hfile.trans hpages)
  simp only [mapRegion, regionAt, ha, hfEnd, hmEnd, hstartAl, hfEndAl, hmEndAl, hlen, hrest]

/-- A segment that can be mapped to `a`. -/
structure Mappable (file : List UInt8) (p : ElfPhdr) (a : Nat) : Prop where
  sizes : p.pFilesz ≤ p.pMemsz
  inFile : p.pOffset + p.pFilesz ≤ file.length
  congruent : a % 4096 = p.pOffset % 4096

/-- The pages of the file under a segment have its bytes. -/
theorem contains_file_pages (space : Space) {n : Nat} {w : Bool} (h : Mappable file p a)
    (hn : a + p.pFilesz ≤ pageFloor a + n) :
    Contains (replace space (pageFloor a) n fun i => (Backing.file p.pOffset).cell file w i)
      a p.pFilesz (segmentByte file p) := by
  have hin := h.inFile
  have hcong := h.congruent
  have hpage : pageSize = 4096 := rfl
  apply Contains.of_replace
  · exact pageFloor_le a
  · exact hn
  · intro i hi
    have hoff : p.pOffset / pageSize * pageSize + (a - pageFloor a + i) = p.pOffset + i := by
      rw [hpage]
      unfold pageFloor
      omega
    have hlt : (p.pOffset + i) / pageSize * pageSize < file.length := by
      rw [hpage]
      omega
    simp only [Backing.cell, hoff, if_pos hlt, segmentByte, if_pos hi, Option.map_some]

/-- Zeros behind the part a segment has in the file complete it. -/
theorem contains_cleared {n : Nat} (h : Contains space a p.pFilesz (segmentByte file p))
    (hsizes : p.pFilesz ≤ p.pMemsz) (hn : p.pMemsz - p.pFilesz ≤ n) :
    Contains (replace space (a + p.pFilesz) n fun _ => some ⟨0, true⟩) a p.pMemsz
      (segmentByte file p) := by
  rw [← Nat.add_sub_of_le hsizes]
  apply Contains.append
  · apply h.frame (SameOutside.replace le_rfl le_rfl)
    intro i hi
    omega
  · apply Contains.of_replace le_rfl
    · omega
    · intro i _
      rw [segmentByte, if_neg (by omega)]
      rfl

theorem ends_mapAdditional {prot lo hi : Nat} (hlo : lo % 4096 = 0) :
    Ends (mapAdditional k file prot lo hi) s
      (fun _ t => SameOutside lo hi s.space t.space) fun _ => True := by
  unfold mapAdditional
  rw [ends_ite]
  constructor
  · intro hlt
    rw [ends_bind]
    apply ends_mmap_checked hlo
    intro t ht
    rw [ht]
    exact SameOutside.replace le_rfl (Nat.add_sub_of_le hlt.le).le
  · intro _
    exact SameOutside.refl _ _ _

theorem ends_regionAt (h : Mappable file p a) :
    Ends (regionAt k file p a) s
      (fun _ t => SameOutside (pageFloor a) (pageCeil (a + p.pMemsz)) s.space t.space ∧
        Contains t.space a p.pMemsz (segmentByte file p)) fun _ => True := by
  obtain ⟨hstart, hfile, hpages, hmem⟩ := ordered_of_sizes h.sizes a
  simp only [regionAt, ends_bind]
  apply ends_mmap_checked (pageFloor_mod a)
  intro s₁ hs₁
  apply (ends_mapAdditional (pageCeil_mod _)).post
  intro _ s₂ hadditional
  apply ends_memsetZero
  intro s₃ hs₃
  rw [hs₃]
  rw [hs₁] at hadditional
  constructor
  · have hmapped := SameOutside.replace (s := s.space) (f := fun i =>
      (Backing.file p.pOffset).cell file (writableOf p) i) (le_refl (pageFloor a))
      (show pageFloor a + (pageCeil (a + p.pFilesz) - pageFloor a) ≤ pageCeil (a + p.pMemsz) by omega)
    have hcleared := SameOutside.replace (s := s₂.space) (f := fun _ => some ⟨0, true⟩)
      (show pageFloor a ≤ a + p.pFilesz by omega)
      (Nat.add_sub_of_le (hfile.trans hpages)).le
    exact (hmapped.trans (hadditional.widen (by omega) le_rfl)).trans hcleared
  · have hbytes : Contains _ a p.pFilesz (segmentByte file p) :=
      contains_file_pages s.space (n := pageCeil (a + p.pFilesz) - pageFloor a)
        (w := writableOf p) h (by omega)
    have hkept := hbytes.frame hadditional fun i hi => Or.inl (by omega)
    exact contains_cleared hkept h.sizes (by omega)

end Region

/-! ## The first segment -/

section First

variable {k : Kernel} {file : List UInt8} {p : ElfPhdr} {s : State} {fixed : Bool} {a size : Nat}

/-- The kernel maps the image, the `size` bytes from `vaddr` on, to `a`: to `vaddr`
itself if that is fixed, to any pages if not. -/
structure MapsImage (k : Kernel) (fixed : Bool) (vaddr size a : Nat) : Prop where
  place : k.place (if fixed then vaddr else 0) size fixed = .ok a
  fixed : fixed = true → a = vaddr
  aligned : a % 4096 = 0
  below : a + size < 2 ^ 32

/-- What is added to the addresses of the image. -/
def biasOf (fixed : Bool) (a vaddr : Nat) : Nat := if fixed then 0 else sub32 a vaddr

/-- `unmapPadding` for an image at `a`. -/
def unmapAt (k : Kernel) (p : ElfPhdr) (a size : Nat) : Prog State Unit :=
  if pageCeil (a + p.pMemsz) < a + size then
    sysMunmap k (pageCeil (a + p.pMemsz)) (a + size - pageCeil (a + p.pMemsz))
  else
    pure ()

/-- `padFirst` for an image at `a`. -/
def padAt (p : ElfPhdr) (a : Nat) : Prog State Unit :=
  if p.pFilesz < p.pMemsz ∧ p.pFlags &&& pfW ≠ 0 then
    memsetZero (a + p.pFilesz) (p.pMemsz - p.pFilesz)
  else
    pure ()

/-- `map_first` for an image at `a`. -/
def firstAt (k : Kernel) (file : List UInt8) (p : ElfPhdr) (size : Nat) (fixed : Bool) (a : Nat) :
    Prog State (Nat × Nat) := do
  record (.mmap (if fixed then p.pVaddr else 0) size fixed)
  setCells a size fun i => (Backing.file p.pOffset).cell file (writableOf p) i
  unmapAt k p a size
  padAt p a
  pure (a, biasOf fixed a p.pVaddr)

/-- The image as a whole: some pages that start with the segment `p`. -/
structure Spans (p : ElfPhdr) (size : Nat) : Prop where
  aligned : p.pVaddr % 4096 = 0
  pages : size % 4096 = 0
  pos : 0 < size
  lt : size < 2 ^ 32
  top : p.pVaddr + size ≤ 2 ^ 32
  first : p.pMemsz ≤ size

/-- Adding the bias moves the first segment to `a` and the rest with it. -/
theorem add32_biasOf {x : Nat} (hmaps : MapsImage k fixed p.pVaddr size a) (hlo : p.pVaddr ≤ x)
    (hhi : x ≤ p.pVaddr + size) (htop : p.pVaddr + size ≤ 2 ^ 32) :
    add32 (biasOf fixed a p.pVaddr) (x % 2 ^ 32) = a + (x - p.pVaddr) := by
  have hbelow := hmaps.below
  cases fixed with
  | true =>
      have ha := hmaps.fixed rfl
      rw [biasOf, if_pos rfl, add32]
      omega
  | false =>
      rw [biasOf, if_neg Bool.false_ne_true, add32, sub32]
      omega

theorem unmapAt_range (hmaps : MapsImage k fixed p.pVaddr size a) (h : Spans p size) :
    pageCeil (a + p.pMemsz) ≤ a + size := by
  have ha := hmaps.aligned
  have hpages := h.pages
  have hfirst := h.first
  unfold pageCeil
  omega

theorem unmapPadding_eq (hmaps : MapsImage k fixed p.pVaddr size a) (h : Spans p size) :
    unmapPadding k p a (a + size) = unmapAt k p a size := by
  have hbelow := hmaps.below
  have ha := hmaps.aligned
  have hpages := h.pages
  have hfirst := h.first
  have hceil : pageCeil (a + size) = a + size := by
    unfold pageCeil
    omega
  have hmem := unmapAt_range hmaps h
  have hstart : alignUp (add32 a p.pMemsz) 4096 = pageCeil (a + p.pMemsz) := by
    rw [add32_of_lt (by omega)]
    exact alignUp_eq (by omega)
  have hstop : alignUp (a + size) 4096 = a + size := by
    rw [alignUp_eq (by omega), hceil]
  simp only [unmapPadding, unmapAt, hstart, hstop]

theorem mapFirst_eq (hmaps : MapsImage k fixed p.pVaddr size a) (h : Spans p size)
    (hoffset : p.pOffset = 0) :
    mapFirst k file p size fixed = firstAt k file p size fixed a := by
  obtain ⟨haligned, hpages, hpos, hlt, htop, hfirst⟩ := h
  have hbelow := hmaps.below
  have hstart : alignDown p.pVaddr 0x1000 = p.pVaddr := by
    rw [alignDown_eq (by omega)]
    exact Nat.div_mul_cancel (Nat.dvd_of_mod_eq_zero haligned)
  have hend : alignUp (add32 p.pVaddr size) 0x1000 = (p.pVaddr + size) % 2 ^ 32 := by
    have hceil : pageCeil ((p.pVaddr + size) % 2 ^ 32) = (p.pVaddr + size) % 2 ^ 32 := by
      unfold pageCeil
      omega
    rw [add32, alignUp_eq (by omega), hceil]
  have hlen : sub32 ((p.pVaddr + size) % 2 ^ 32) p.pVaddr = size := by
    unfold sub32
    omega
  have hat : (if fixed = true then p.pVaddr
      else add32 (biasOf fixed a p.pVaddr) p.pVaddr) = a := by
    have hbias := add32_biasOf hmaps le_rfl (by omega) htop
    rw [Nat.mod_eq_of_lt (by omega : p.pVaddr < 2 ^ 32)] at hbias
    rw [hbias]
    split_ifs with hfixed
    · exact (hmaps.fixed hfixed).symm
    · omega
  have hupto : (if fixed = true then (p.pVaddr + size) % 2 ^ 32
      else add32 (biasOf fixed a p.pVaddr) ((p.pVaddr + size) % 2 ^ 32)) = a + size := by
    rw [add32_biasOf hmaps (by omega) le_rfl htop]
    split_ifs with hfixed
    · have ha := hmaps.fixed hfixed
      omega
    · omega
  have hpad : padFirst p a = padAt p a := by
    unfold padFirst padAt
    split_ifs with hcond
    · rw [add32_of_lt (by omega)]
    · rfl
  have hassert : (assertThat (decide (p.pOffset = 0)) "first_phdr->p_offset == 0" :
      Prog State Unit) = pure () := by
    rw [decide_eq_true hoffset]
    rfl
  rw [biasOf] at hat hupto
  simp only [mapFirst, firstAt, hassert, hstart, hend, hlen, sysUniformMmap, hmaps.place, bind_assoc,
    pure_bind, hat, hupto, hpad, biasOf, writableOf,
    unmapPadding_eq hmaps ⟨haligned, hpages, hpos, hlt, htop, hfirst⟩]

theorem ends_firstAt (hmaps : MapsImage k fixed p.pVaddr size a) (h : Spans p size)
    (hmappable : Mappable file p a) (hwritable : p.pFilesz < p.pMemsz → p.pFlags &&& pfW ≠ 0) :
    Ends (firstAt k file p size fixed a) s
      (fun r t => r = (a, biasOf fixed a p.pVaddr) ∧
        Contains t.space a p.pMemsz (segmentByte file p)) fun _ => True := by
  have hsizes := hmappable.sizes
  have hfirst := h.first
  have hfloor : pageFloor a = a := Nat.div_mul_cancel (Nat.dvd_of_mod_eq_zero hmaps.aligned)
  have hbytes : Contains _ a p.pFilesz (segmentByte file p) :=
    contains_file_pages s.space (n := size) (w := writableOf p) hmappable (by omega)
  rw [hfloor] at hbytes
  simp only [firstAt, ends_bind, ends_record, ends_setCells, ends_pure]
  refine Ends.post (Q := fun _ t => Contains t.space a p.pFilesz (segmentByte file p)) ?_ ?_
  · simp only [unmapAt, sysMunmap, ends_ite, ends_bind, ends_record, ends_setCells, ends_pure]
    refine ⟨fun hlt => ⟨fun _ => ?_, fun _ => hbytes⟩, fun _ => hbytes⟩
    apply hbytes.frame (SameOutside.replace (le_pageCeil (a + p.pMemsz))
      (Nat.add_sub_of_le hlt.le).le)
    intro i hi
    omega
  · intro _ t hkept
    unfold padAt
    rw [ends_ite]
    constructor
    · intro _
      apply ends_memsetZero
      intro u hu
      rw [hu]
      exact ⟨trivial, contains_cleared hkept hsizes le_rfl⟩
    · intro hnone
      have hall : p.pFilesz = p.pMemsz := by
        by_contra hne
        have hlt : p.pFilesz < p.pMemsz := by omega
        exact hnone ⟨hlt, hwritable hlt⟩
      rw [ends_pure, ← hall]
      exact ⟨trivial, hkept⟩

end First

end Snitchaser.Elf.Mapping
