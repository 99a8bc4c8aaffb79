import Snitchaser.Elf.Image
/-!
# What a shared object cannot damage

The kernel chooses where the image of an `ET_DYN` file goes.  From then on
`load_elf` maps, unmaps and clears at fixed addresses.  However it ends, all of
them lie in the range the kernel has chosen.
-/

namespace Snitchaser.Elf.Containment

open Snitchaser.Defs
open Snitchaser.Elf.Image
open Snitchaser.Elf.Mapping
open Snitchaser.Elf.Model
open Snitchaser.Lib.AddressSpace
open Snitchaser.Lib.Hoare
open Snitchaser.Lib.Program

/-- An operation on the range from `lo` to `hi`, or one for which the kernel chooses the
address. -/
def Within (lo hi : Nat) : Op → Prop
  | .mmap _ _ false => True
  | .mmap addr len true => lo ≤ addr ∧ addr + len ≤ hi
  | .munmap addr len => lo ≤ addr ∧ addr + len ≤ hi
  | .memset addr len => lo ≤ addr ∧ addr + len ≤ hi

/-- What was done since `s₀` was done between `lo` and `hi`. -/
structure Contained (lo hi : Nat) (s₀ s : State) : Prop where
  ops : ∃ new, s.ops = s₀.ops ++ new ∧ ∀ op ∈ new, Within lo hi op
  same : SameOutside lo hi s₀.space s.space

/-- `MAP_FIXED` puts a mapping where it was asked for, if anywhere. -/
def Fixes (k : Kernel) : Prop := ∀ addr len a, k.place addr len true = .ok a → a = addr

section Steps

variable {k : Kernel} {file : List UInt8} {s₀ s : State} {lo hi : Nat}

theorem Contained.refl (lo hi : Nat) (s : State) : Contained lo hi s s where
  ops := ⟨[], (List.append_nil _).symm, nofun⟩
  same := SameOutside.refl _ _ _

theorem keeps_record {op : Op} (h : Within lo hi op) :
    Keeps (Contained lo hi s₀) (record op) := by
  apply Keeps.modify
  intro s hs
  obtain ⟨new, hnew, hall⟩ := hs.ops
  refine ⟨⟨new ++ [op], ?_, ?_⟩, hs.same⟩
  · rw [hnew, List.append_assoc]
  · intro op' hop
    rcases List.mem_append.mp hop with hold | hlast
    · exact hall op' hold
    · rwa [List.mem_singleton.mp hlast]

theorem keeps_setCells {a n : Nat} {f : Nat → Option Cell} (hlo : lo ≤ a) (hhi : a + n ≤ hi) :
    Keeps (Contained lo hi s₀) (setCells a n f) := by
  apply Keeps.modify
  intro s hs
  exact ⟨hs.ops, hs.same.trans (SameOutside.replace hlo hhi)⟩

theorem keeps_mmap {addr len prot : Nat} {backing : Backing} (hk : Fixes k) (hlo : lo ≤ addr)
    (hhi : addr + len ≤ hi) :
    Keeps (Contained lo hi s₀) (sysUniformMmap k file addr len prot true backing) := by
  have hwithin : Within lo hi (.mmap addr len true) := ⟨hlo, hhi⟩
  apply Keeps.bind (keeps_record hwithin)
  intro _
  cases hplace : k.place addr len true with
  | error e => exact Keeps.pure _
  | ok a =>
      obtain rfl := hk addr len a hplace
      exact Keeps.bind (keeps_setCells hlo hhi) fun _ => Keeps.pure _

theorem keeps_munmap {addr len : Nat} (hlo : lo ≤ addr) (hhi : addr + len ≤ hi) :
    Keeps (Contained lo hi s₀) (sysMunmap k addr len) := by
  have hwithin : Within lo hi (.munmap addr len) := ⟨hlo, hhi⟩
  apply Keeps.bind (keeps_record hwithin)
  intro _
  exact Keeps.ite (fun _ => keeps_setCells hlo hhi) fun _ => Keeps.pure _

theorem keeps_memset {addr len : Nat} (hlo : lo ≤ addr) (hhi : addr + len ≤ hi) :
    Keeps (Contained lo hi s₀) (memsetZero addr len) := by
  have hwithin : Within lo hi (.memset addr len) := ⟨hlo, hhi⟩
  apply Keeps.bind (keeps_record hwithin)
  intro _
  apply Keeps.bind Keeps.get
  intro _
  exact Keeps.ite (fun _ => keeps_setCells hlo hhi) fun _ => Keeps.throw _

end Steps

/-! ## The segments -/

section Segments

variable {k : Kernel} {file : List UInt8} {s₀ s : State} {p : ElfPhdr} {a size : Nat}

theorem keeps_regionAt {b : Nat} (hk : Fixes k) (hsizes : p.pFilesz ≤ p.pMemsz)
    (hlo : a ≤ pageFloor b) (hhi : pageCeil (b + p.pMemsz) ≤ a + size) :
    Keeps (Contained a (a + size) s₀) (regionAt k file p b) := by
  obtain ⟨hstart, hfile, hpages, hmem⟩ := ordered_of_sizes hsizes b
  apply Keeps.bind (keeps_mmap hk hlo (by omega))
  intro _
  apply Keeps.bind (Keeps.assertThat _ _)
  intro _
  apply Keeps.bind
  · apply Keeps.ite
    · intro hlt
      exact Keeps.bind (keeps_mmap hk (by omega) (by omega)) fun _ => Keeps.assertThat _ _
    · intro _
      exact Keeps.pure _
  · intro _
    exact keeps_memset (by omega) (by omega)

theorem keeps_firstAt (hmaps : MapsImage k false p.pVaddr size a) (h : Spans p size)
    (hsizes : p.pFilesz ≤ p.pMemsz) :
    Keeps (Contained a (a + size) s₀) (firstAt k file p size false a) := by
  have hfirst := h.first
  have hrange := unmapAt_range hmaps h
  have hceil := le_pageCeil (a + p.pMemsz)
  have hchosen : Within a (a + size) (.mmap 0 size false) := trivial
  apply Keeps.bind (keeps_record hchosen)
  intro _
  apply Keeps.bind (keeps_setCells le_rfl le_rfl)
  intro _
  apply Keeps.bind
  · exact Keeps.ite (fun _ => keeps_munmap (by omega) (by omega)) fun _ => Keeps.pure _
  · intro _
    apply Keeps.bind
    · exact Keeps.ite (fun _ => keeps_memset (by omega) (by omega)) fun _ => Keeps.pure _
    · intro _
      exact Keeps.pure _

theorem keeps_mapOthers {first low loadBias i : Nat} {ps : List ElfPhdr} {needInterp : Bool}
    (hk : Fixes k) (hinside : ∀ p ∈ loadsOf ps, Inside low a size p)
    (hsizes : ∀ p ∈ loadsOf ps, p.pFilesz ≤ p.pMemsz)
    (hbias : ∀ p ∈ loadsOf ps, add32 loadBias p.pVaddr = a + (p.pVaddr - low)) :
    Keeps (Contained a (a + size) s₀) (mapOthers k file first loadBias i ps needInterp) := by
  induction ps generalizing i needInterp with
  | nil => exact Keeps.pure _
  | cons p ps ih =>
      have hsub : ∀ q ∈ loadsOf ps, q ∈ loadsOf (p :: ps) := by
        intro q hq
        rw [loadsOf, List.mem_filter] at hq ⊢
        exact ⟨List.mem_cons_of_mem p hq.1, hq.2⟩
      have hrest : ∀ b, Keeps (Contained a (a + size) s₀)
          (mapOthers k file first loadBias (i + 1) ps b) := fun b =>
        ih (fun q hq => hinside q (hsub q hq)) (fun q hq => hsizes q (hsub q hq))
          fun q hq => hbias q (hsub q hq)
      rw [mapOthers]
      apply Keeps.ite
      · intro _
        exact hrest _
      · intro hmap
        rw [not_or, not_not] at hmap
        have hmem : p ∈ loadsOf (p :: ps) := by simp [loadsOf, hmap.2]
        have hin := hinside p hmem
        have haligned := hin.aligned
        rw [mapRegion_eq (hbias p hmem) (hsizes p hmem) (hin.pageCeil_le.trans_lt hin.below)]
        apply Keeps.bind (keeps_regionAt hk (hsizes p hmem) _ hin.pageCeil_le) fun _ => hrest _
        unfold pageFloor
        omega

end Segments

/-! ## The whole -/

section Whole

variable {k : Kernel} {file : List UInt8} {s : State} {a : Nat}

/-- Reading the headers and finding the size of the image change nothing. -/
theorem keeps_openElfFile (I : State → Prop) : Keeps I (openElfFile k file) := by
  have hcheck : ∀ cond fmt, Keeps I (cassert cond fmt) := fun cond fmt =>
    Keeps.ite (fun _ => Keeps.pure _) fun _ => Keeps.throw _
  exact Keeps.bind (hcheck _ _) fun _ => Keeps.bind (hcheck _ _) fun _ =>
    Keeps.bind (hcheck _ _) fun _ => Keeps.bind (hcheck _ _) fun _ =>
      Keeps.bind (hcheck _ _) fun _ => Keeps.pure _

theorem keeps_loadPhdrs (I : State → Prop) (hdr : ElfHdr) : Keeps I (loadPhdrs file hdr) :=
  Keeps.bind (Keeps.assertThat _ _) fun _ => Keeps.bind (Keeps.assertThat _ _) fun _ => Keeps.pure _

theorem keeps_scanLoads (I : State → Prop) (i : Nat) (ps : List ElfPhdr) (e : Extent) :
    Keeps I (scanLoads i ps e) := by
  induction ps generalizing i e with
  | nil => exact Keeps.pure _
  | cons p ps ih =>
      apply Keeps.ite
      · intro _
        exact ih _ _
      · intro _
        apply Keeps.ite
        · intro _
          exact Keeps.throw _
        · intro _
          exact Keeps.bind (Keeps.assertThat _ _) fun _ => ih _ _

theorem keeps_getTotalMapSz (I : State → Prop) (phdrs : List ElfPhdr) :
    Keeps I (getTotalMapSz phdrs) :=
  Keeps.bind (keeps_scanLoads I 0 phdrs _) fun _ =>
    Keeps.bind (Keeps.assertThat _ _) fun _ => Keeps.pure _

/-- What `load_elf` does once it knows the segment to map first. -/
theorem contained_mapImage {phdrs : List ElfPhdr} {p : ElfPhdr} {j : Nat} {β : Type}
    {f : Nat × Nat → Bool → β} (hk : Fixes k)
    (hmaps : MapsImage k false p.pVaddr (imageSize phdrs) a) (hspans : Spans p (imageSize phdrs))
    (hp : p.pVaddr = imageStart phdrs) (hmem : p ∈ loadsOf phdrs)
    (hsizes : ∀ q ∈ loadsOf phdrs, q.pFilesz ≤ q.pMemsz)
    (hnoWrap : ∀ q ∈ loadsOf phdrs, q.pVaddr + q.pMemsz < 2 ^ 32) (hoffset : p.pOffset = 0) :
    Contained a (a + imageSize phdrs) s (after (mapFirst k file p (imageSize phdrs) false >>= fun r =>
      mapOthers k file j r.2 0 phdrs false >>= fun needInterp => pure (f r needInterp)) s) := by
  rw [mapFirst_eq hmaps hspans hoffset]
  have hkeeps : Keeps (Contained a (a + imageSize phdrs) s)
      (firstAt k file p (imageSize phdrs) false a) := keeps_firstAt hmaps hspans (hsizes p hmem)
  have hkept := hkeeps.after s (Contained.refl _ _ s)
  apply after_bind hkept
  intro r t hrun
  rw [after, hrun] at hkept
  obtain rfl : r = (a, biasOf false a p.pVaddr) := by
    simp only [firstAt, bind_ok_iff, pure_ok_iff] at hrun
    obtain ⟨_, _, _, _, _, _, _, _, _, _, _, _, rfl, _⟩ := hrun
    rfl
  have hothers : Keeps (Contained a (a + imageSize phdrs) s)
      (mapOthers k file j (biasOf false a p.pVaddr) 0 phdrs false) :=
    keeps_mapOthers hk (fun q hq => inside_image hmaps hspans hp hq) hsizes
      fun q hq => add32_image hmaps hspans hp (hnoWrap q hq) hq
  exact (Keeps.bind hothers fun _ => Keeps.pure _).after t hkept

theorem contained_loadElf (hdyn : (hdrOf file).eType = etDyn)
    (hfirst : ∃ p ∈ loadsOf (tableOf file),
      p.pVaddr = imageStart (tableOf file) ∧ p.pOffset = 0)
    (hsizes : ∀ p ∈ loadsOf (tableOf file), p.pFilesz ≤ p.pMemsz)
    (hnoWrap : ∀ p ∈ loadsOf (tableOf file), p.pVaddr + p.pMemsz < 2 ^ 32)
    (halign : ∀ p ∈ loadsOf (tableOf file), p.pAlign % 0x1000 = 0) (hk : Fixes k)
    (hmaps : MapsImage k false (imageStart (tableOf file)) (imageSize (tableOf file)) a) :
    Contained a (a + imageSize (tableOf file)) s (after (loadElf k file) s) := by
  have hstart := Contained.refl a (a + imageSize (tableOf file)) s
  apply after_bind ((keeps_openElfFile _).after s hstart)
  intro hdr t hopen
  obtain ⟨rfl, rfl⟩ := openElfFile_ok hopen
  apply after_bind ((keeps_loadPhdrs _ _).after t hstart)
  intro phdrs u hload
  obtain ⟨rfl, rfl⟩ := loadPhdrs_ok hload
  apply after_bind ((keeps_getTotalMapSz _ _).after u hstart)
  intro total v htotal
  obtain ⟨hchecked, hpos, rfl, rfl⟩ := getTotalMapSz_ok_iff.mp htotal
  have haligned : ∀ q ∈ loadsOf (tableOf file), q.pOffset = 0 → q.pVaddr % 4096 = 0 := by
    intro q hq hzero
    rw [congruent_of_checked (words_of_mem (List.mem_filter.mp hq).1) (hchecked q hq) (halign q hq),
      hzero]
  obtain ⟨q, hq, hqlow, hqoffset⟩ := hfirst
  rcases lowest_or_empty (tableOf file) with ⟨p, hlow, hp⟩ | hempty
  · have hmem : p ∈ loadsOf (tableOf file) :=
      List.mem_filter.mpr ⟨List.mem_of_getElem? hlow.get, decide_eq_true hlow.load⟩
    obtain ⟨hspans, hsize⟩ := spans_image hnoWrap hmem hp
      (by rw [hp, ← hqlow]; exact haligned q hq hqoffset) hpos
    have hfixed : ((hdrOf file).eType == etExec) = false := by
      rw [hdyn]
      rfl
    simp only [hlow.get, hfixed, hsize]
    rw [← hp] at hmaps
    by_cases hoffset : p.pOffset = 0
    · exact contained_mapImage hk hmaps hspans hp hmem hsizes hnoWrap hoffset
    · have hstop : mapFirst k file p (imageSize (tableOf file)) false v =
          .error (.assertion "first_phdr->p_offset == 0") v := by
        rw [mapFirst, decide_eq_false hoffset]
        rfl
      rw [after, bind_of_error hstop]
      exact hstart
  · have hge := hempty q hq
    have hpage := haligned q hq hqoffset
    have hlt := hnoWrap q hq
    omega

/-- Every fixed mapping, every unmapping and every clearing of `load_elf` lies in the
range the kernel chose for the image, and what was mapped before is unchanged, even
if `load_elf` does not return. -/
theorem load_elf_contained (hdyn : (hdrOf file).eType = etDyn)
    (hfirst : ∃ p ∈ loadsOf (tableOf file),
      p.pVaddr = imageStart (tableOf file) ∧ p.pOffset = 0)
    (hsizes : ∀ p ∈ loadsOf (tableOf file), p.pFilesz ≤ p.pMemsz)
    (hnoWrap : ∀ p ∈ loadsOf (tableOf file), p.pVaddr + p.pMemsz < 2 ^ 32)
    (halign : ∀ p ∈ loadsOf (tableOf file), p.pAlign % 0x1000 = 0) (hk : Fixes k)
    (hmaps : MapsImage k false (imageStart (tableOf file)) (imageSize (tableOf file)) a)
    (hfree : ∀ x, a ≤ x → x < a + imageSize (tableOf file) → s.space x = none) :
    (∃ new, (after (loadElf k file) s).ops = s.ops ++ new ∧
      ∀ op ∈ new, Within a (a + imageSize (tableOf file)) op) ∧
    ∀ x c, s.space x = some c → (after (loadElf k file) s).space x = some c := by
  have h := contained_loadElf (s := s) hdyn hfirst hsizes hnoWrap halign hk hmaps
  refine ⟨h.ops, ?_⟩
  intro x c hx
  rw [h.same x, hx]
  by_contra hin
  have hnone := hfree x (by omega) (by omega)
  rw [hx] at hnone
  cases hnone

end Whole

/-- An address space with one byte in use. -/
def inUse (a : Nat) : Space := fun x => if x = a then some ⟨7, true⟩ else none

theorem fixes_grantingKernel : Fixes grantingKernel := by
  intro addr len a h
  by_cases hlen : len = 0
  · simp [grantingKernel, hlen] at h
  · simp [grantingKernel, hlen] at h
    exact h.symm

theorem load_elf_contained_sharedObject :
    (after (loadElf grantingKernel sharedObject) ⟨inUse 0x40002000, []⟩).space 0x40002000 =
      some ⟨7, true⟩ := by
  have hloads : loadsOf (tableOf sharedObject) = [textPhdr, constPhdr] := by
    rw [tableOf_sharedObject]
    rfl
  have hsize : imageSize (tableOf sharedObject) = 0x2000 := by
    rw [tableOf_sharedObject]
    decide +kernel
  have hdyn : (hdrOf sharedObject).eType = etDyn := by decide +kernel
  have hmaps : MapsImage grantingKernel false (imageStart (tableOf sharedObject))
      (imageSize (tableOf sharedObject)) 0x40000000 := by
    have hmapped := mapsImage_sharedObject
    rwa [hdyn] at hmapped
  refine (load_elf_contained hdyn ⟨textPhdr, ?_, ?_, rfl⟩ ?_ ?_ ?_ fixes_grantingKernel hmaps
    ?_).2 _ _ rfl
  · rw [hloads]
    decide
  · rw [tableOf_sharedObject]
    decide
  · rw [hloads]
    decide
  · rw [hloads]
    decide
  · rw [hloads]
    decide
  · intro x hlo hhi
    rw [hsize] at hhi
    exact if_neg (by omega)

end Snitchaser.Elf.Containment
