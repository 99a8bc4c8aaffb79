import Snitchaser.Checkpoint.RoundTrip
import Snitchaser.Lib.Regions
/-!
# The guard pages of the map's buffer

`ckpt_meminfo` reads the memory map into a buffer that is itself in the map, and leaves
out the entry that begins where the buffer does.  The kernel lists anonymous mappings
that touch and have the same protection as one, so the buffer is allocated with a page
more on each side, and these pages are given back before the map is read.

Here the state is the address space: what is mapped where.
-/

namespace Snitchaser.Checkpoint.Guard

open Snitchaser.Checkpoint.Model (procmapGuard)
open Snitchaser.Checkpoint.RoundTrip (segments)
open Snitchaser.Checkpoint.Sections (memseg)
open Snitchaser.Defs
open Snitchaser.Lib.ByteMemory
open Snitchaser.Lib.Hoare
open Snitchaser.Lib.Program
open Snitchaser.Lib.Regions
open Snitchaser.Pages
open Snitchaser.Proc.Entry

/-! ## The kernel -/

/-- What a mapping is of: nothing (`fn` is `none`), or a file or a name from `offset` on. -/
structure Kind where
  prot : Nat
  offset : Nat
  fn : Option (List UInt8)
  deriving DecidableEq, Repr

instance : Advance Kind where
  advance n k := { k with offset := if k.fn.isSome then k.offset + n else k.offset }
  advance_zero k := by simp

/-- Anonymous memory of equal protection. -/
def sameAnonymous (k k' : Kind) : Bool := k.fn.isNone && k'.fn.isNone && k.prot == k'.prot

structure Space where
  regions : List (Region Kind)
  ordered : Ordered regions

def entryOf (r : Region Kind) : MapsEntry :=
  ⟨true, r.lo, r.hi, r.kind.prot, r.kind.offset, r.kind.fn⟩

/-- The entries of `/proc/self/maps`. -/
def Space.listing (s : Space) : List MapsEntry := (merge sameAnonymous s.regions).map entryOf

def Space.map (s : Space) (r : Region Kind) (hfree : Free s.regions r.lo r.hi)
    (hr : r.lo < r.hi) : Space := ⟨place r s.regions, s.ordered.place hfree hr⟩

def Space.unmap (s : Space) (lo hi : Nat) (hlt : lo ≤ hi) : Space :=
  ⟨remove lo hi s.regions, s.ordered.remove hlt⟩

instance (s : Space) (lo hi : Nat) : Decidable (Free s.regions lo hi) :=
  inferInstanceAs (Decidable (∀ r ∈ s.regions, r.hi ≤ lo ∨ hi ≤ r.lo))

/-- `mmap` of private anonymous memory: the kernel has picked `p`, if the range is free;
otherwise it has no memory. -/
def sysMmap (p length prot : Nat) : Prog Space Nat := do
  let s ← get
  if h : Free s.regions p (p + length) ∧ p < p + length then
    set (s.map ⟨p, p + length, prot, 0, none⟩ h.1 h.2)
    pure p
  else
    pure (2 ^ 32 - 12)

def sysMunmap (addr length : Nat) : Prog Space Int := do
  if addr % pageSize ≠ 0 ∨ length = 0 then
    pure (-22)
  else
    modify fun s => s.unmap addr (addr + length) (Nat.le_add_right _ _)
    pure 0

/-! ## The code -/

/-- The beginning of `ckpt_meminfo`, up to the reading of the map.  The kernel has picked
`p` for the allocation. -/
def procmapBuffer (p : Nat) : Prog Space Nat := do
  let g1 ← xallocPages (sysMmap p) (maxProcMapsFileSize + 2 * procmapGuard) false
  assertThat (g1 ≠ 0) "g1 != NULL"
  let procmapPtr := g1 + procmapGuard
  let g2 := procmapPtr + maxProcMapsFileSize
  xdeallocPages sysMunmap g1 procmapGuard
  xdeallocPages sysMunmap g2 procmapGuard
  pure procmapPtr

/-! ## What the allocation leaves -/

section Buffer

variable {s : Space} {p lo hi : Nat} {E : Stop → Prop}

/-- What `p` is allocated for. -/
def guardedSize : Nat := maxProcMapsFileSize + 2 * procmapGuard

def writablePages : Kind := ⟨protRead ||| protWrite, 0, none⟩

/-- The buffer for the map, in the allocation at `p`. -/
def bufferRegion (p : Nat) : Region Kind :=
  ⟨p + procmapGuard, p + procmapGuard + maxProcMapsFileSize, writablePages⟩

theorem alignUp_guardedSize : alignUp guardedSize pageSize = guardedSize := by decide

theorem alignUp_procmapGuard : alignUp procmapGuard pageSize = procmapGuard := by decide

theorem ends_xallocPages_guarded {Q : Nat → Space → Prop}
    (hfree : Free s.regions p (p + guardedSize)) (hpage : isValidPage p = true)
    (hQ : ∀ t : Space, t.regions = place ⟨p, p + guardedSize, writablePages⟩ s.regions → Q p t) :
    Ends (xallocPages (sysMmap p) guardedSize false) s Q E := by
  have hpos : 0 < guardedSize := by decide
  have hroom : Free s.regions p (p + guardedSize) ∧ p < p + guardedSize := ⟨hfree, by omega⟩
  simp only [xallocPages, sysMmap, ends_bind, ends_assertThat, ends_get, alignUp_guardedSize,
    dif_pos hroom, ends_set, ends_pure]
  refine ⟨fun _ => ⟨fun _ => hQ _ rfl, fun hbad => ?_⟩, fun hzero => ?_⟩
  · rw [hpage] at hbad
    cases hbad
  · exact absurd hpos (of_decide_eq_false hzero)

theorem ends_xdeallocPages_guard {Q : Unit → Space → Prop} (hpage : isValidPage p = true)
    (hQ : ∀ t : Space, t.regions = remove p (p + procmapGuard) s.regions → Q () t) :
    Ends (xdeallocPages sysMunmap p procmapGuard) s Q E := by
  have hmod : p % pageSize = 0 := beq_iff_eq.mp hpage
  have hargs : ¬ (p % pageSize ≠ 0 ∨ procmapGuard = 0) := by
    rintro (h | h)
    · exact h hmod
    · exact absurd h (by decide)
  simp only [xdeallocPages, sysMunmap, ends_bind, ends_assertThat, alignUp_procmapGuard,
    if_neg hargs, ends_modify, ends_pure]
  refine ⟨fun _ => ⟨fun _ => hQ _ rfl, fun herr => absurd herr (by decide)⟩, fun hbad => ?_⟩
  rw [hpage] at hbad
  cases hbad

theorem cut_anonymous {hi' : Nat} (h : lo < hi) (hhi : hi < hi') :
    cut lo hi (⟨lo, hi', writablePages⟩ : Region Kind) = [⟨hi, hi', writablePages⟩] := by
  rw [cut, if_neg (Nat.lt_irrefl lo), if_pos hhi, Nat.max_eq_right h.le]
  rfl

theorem cut_anonymous_end {lo' : Nat} (h : lo' < lo) :
    cut lo hi (⟨lo', hi, writablePages⟩ : Region Kind) = [⟨lo', min hi lo, writablePages⟩] := by
  rw [cut, if_pos h, if_neg (Nat.lt_irrefl hi), List.append_nil]

/-- The buffer alone is left of the allocation. -/
theorem ends_procmapBuffer (hfree : Free s.regions p (p + guardedSize))
    (hpage : isValidPage p = true) (hnull : p ≠ 0) :
    Ends (procmapBuffer p) s
      (fun ptr t => ptr = p + procmapGuard ∧
        t.regions = below p s.regions ++ bufferRegion p :: above p s.regions) E := by
  have hG : procmapGuard = 4096 := rfl
  have hS : maxProcMapsFileSize = 1048576 := rfl
  have htotal : guardedSize = 1056768 := rfl
  have hmod : p % 4096 = 0 := beq_iff_eq.mp hpage
  have hxs : ∀ r ∈ below p s.regions, r.lo < r.hi := fun r hr =>
    s.ordered.sizes r (below_append_above p s.regions ▸ List.mem_append_left _ hr)
  have hys : ∀ r ∈ above p s.regions, r.lo < r.hi := fun r hr =>
    s.ordered.sizes r (below_append_above p s.regions ▸ List.mem_append_right _ hr)
  have hbelow : ∀ r ∈ below p s.regions, r.hi ≤ p := fun r hr => hi_le_of_mem_below hr
  have habove : ∀ r ∈ above p s.regions, p + guardedSize ≤ r.lo := fun r hr =>
    le_lo_of_mem_above s.ordered hfree hr
  obtain ⟨g2, hg2⟩ : ∃ g2, g2 = p + procmapGuard + maxProcMapsFileSize := ⟨_, rfl⟩
  have hpage2 : isValidPage g2 = true := by
    rw [isValidPage, beq_iff_eq]
    change g2 % 4096 = 0
    omega
  have hsize : maxProcMapsFileSize + 2 * procmapGuard = guardedSize := rfl
  simp only [procmapBuffer, hsize, ends_bind, ends_assertThat, ends_pure]
  apply ends_xallocPages_guarded hfree hpage
  intro t ht
  refine ⟨fun _ => ?_, fun hzero => ?_⟩
  · apply ends_xdeallocPages_guard hpage
    intro t' ht'
    rw [ht, place, remove_between hxs hys (by omega) (fun r hr => .inl (hbelow r hr))
      (fun r hr => .inr (by have := habove r hr; omega)), cut_anonymous (by omega) (by omega)] at ht'
    rw [← hg2]
    apply ends_xdeallocPages_guard hpage2
    intro t'' ht''
    refine ⟨rfl, ?_⟩
    have hend : g2 + procmapGuard = p + guardedSize := by omega
    rw [ht', List.singleton_append, hend, remove_between hxs hys (by omega)
      (fun r hr => .inl (by have := hbelow r hr; omega)) (fun r hr => .inr (habove r hr)),
      cut_anonymous_end (by omega), Nat.min_eq_right (by omega), hg2] at ht''
    exact ht''
  · exact absurd (of_decide_eq_false hzero) (not_not.mpr hnull)

/-- The buffer is listed between the entries that were listed before. -/
theorem listing_procmapBuffer {t : Space} (hfree : Free s.regions p (p + guardedSize))
    (ht : t.regions = below p s.regions ++ bufferRegion p :: above p s.regions) :
    ∃ front back : List MapsEntry, s.listing = front ++ back ∧
      t.listing = front ++ entryOf (bufferRegion p) :: back ∧
      ∀ e ∈ front ++ back, e.start ≠ p + procmapGuard := by
  have hG : procmapGuard = 4096 := rfl
  have htotal : guardedSize = 1056768 := rfl
  have hsplit : merge sameAnonymous s.regions = _ := merge_split s.ordered hfree (by omega)
  have hisolated : merge sameAnonymous (below p s.regions ++ bufferRegion p :: above p s.regions) =
      merge sameAnonymous (below p s.regions) ++
        bufferRegion p :: merge sameAnonymous (above p s.regions) := by
    apply merge_isolated s.ordered hfree
    · change p < p + procmapGuard
      omega
    · change p + procmapGuard < p + procmapGuard + 1048576
      omega
    · change p + procmapGuard + 1048576 < p + guardedSize
      omega
  refine ⟨(merge sameAnonymous (below p s.regions)).map entryOf,
    (merge sameAnonymous (above p s.regions)).map entryOf, ?_, ?_, ?_⟩
  · rw [Space.listing, hsplit, List.map_append]
  · rw [Space.listing, ht, hisolated, List.map_append, List.map_cons]
  · intro e he hstart
    rw [← List.map_append] at he
    obtain ⟨r, hr, rfl⟩ := List.mem_map.mp he
    change r.lo = p + procmapGuard at hstart
    rcases List.mem_append.mp hr with hr | hr
    · obtain ⟨⟨u, hu, hlo⟩, _⟩ := mem_merge hr
      have hsize := s.ordered.sizes u
        (below_append_above p s.regions ▸ List.mem_append_left _ hu)
      have hbelow := hi_le_of_mem_below hu
      omega
    · obtain ⟨⟨u, hu, hlo⟩, _⟩ := mem_merge hr
      have habove := le_lo_of_mem_above s.ordered hfree hu
      omega

/-- Wherever the kernel puts the allocation, the buffer is an entry of its own, the other
entries are those from before, and the checkpoint has a segment for each of them. -/
theorem procmap_buffer_isolated (mem : Memory) (hfree : Free s.regions p (p + guardedSize))
    (hpage : isValidPage p = true) (hnull : p ≠ 0) :
    ∃ t, procmapBuffer p s = .ok (p + procmapGuard) t ∧
      (∀ e ∈ t.listing, e.start = p + procmapGuard →
        e = ⟨true, p + procmapGuard, p + procmapGuard + maxProcMapsFileSize,
          protRead ||| protWrite, 0, none⟩) ∧
      (t.listing.countP fun e => e.start = p + procmapGuard) = 1 ∧
      (∀ e ∈ t.listing, e.start ≠ p + procmapGuard → e ∈ s.listing) ∧
      segments mem (p + procmapGuard) t.listing = s.listing.map (memseg mem) := by
  obtain ⟨_, t, hrun, rfl, ht⟩ := (ends_procmapBuffer hfree hpage hnull).returns
  obtain ⟨front, back, hbefore, hafter, hstarts⟩ := listing_procmapBuffer hfree ht
  have hfront : ∀ e ∈ front, e.start ≠ p + procmapGuard := fun e he =>
    hstarts e (List.mem_append_left back he)
  have hback : ∀ e ∈ back, e.start ≠ p + procmapGuard := fun e he =>
    hstarts e (List.mem_append_right front he)
  have hbuffer : (entryOf (bufferRegion p)).start = p + procmapGuard := rfl
  refine ⟨t, hrun, ?_, ?_, ?_, ?_⟩
  · intro e he hstart
    rw [hafter, List.mem_append, List.mem_cons] at he
    rcases he with he | rfl | he
    · exact absurd hstart (hfront e he)
    · rfl
    · exact absurd hstart (hback e he)
  · rw [hafter, List.countP_append, List.countP_cons_of_pos (by simpa using hbuffer),
      List.countP_eq_zero.mpr fun e he => by simpa using hfront e he,
      List.countP_eq_zero.mpr fun e he => by simpa using hback e he]
  · intro e he hstart
    rw [hafter, List.mem_append, List.mem_cons] at he
    rw [hbefore, List.mem_append]
    rcases he with he | rfl | he
    · exact .inl he
    · exact absurd hbuffer hstart
    · exact .inr he
  · rw [segments, hafter, hbefore, List.filter_append,
      List.filter_cons_of_neg (by simpa using hbuffer),
      List.filter_eq_self.mpr fun e he => by simpa using hfront e he,
      List.filter_eq_self.mpr fun e he => by simpa using hback e he]

end Buffer

/-! Anonymous memory on both sides of where the kernel puts the allocation. -/

def crowdedSpace : Space where
  regions := [⟨0x10000000, 0x10001000, writablePages⟩, ⟨0x10001000, 0x20000000, writablePages⟩,
    ⟨0x20000000 + guardedSize, 0x30000000, writablePages⟩]
  ordered := ⟨by decide, by decide⟩

theorem procmap_buffer_isolated_crowded :
    ∃ t, procmapBuffer 0x20000000 crowdedSpace = .ok (0x20000000 + procmapGuard) t ∧
      segments (fun _ => 0) (0x20000000 + procmapGuard) t.listing =
        crowdedSpace.listing.map (memseg fun _ => 0) := by
  have hfree : Free crowdedSpace.regions 0x20000000 (0x20000000 + guardedSize) := by decide
  obtain ⟨t, hrun, _, _, _, hsegments⟩ :=
    procmap_buffer_isolated (fun _ => 0) hfree (by decide) (by decide)
  exact ⟨t, hrun, hsegments⟩

end Snitchaser.Checkpoint.Guard
