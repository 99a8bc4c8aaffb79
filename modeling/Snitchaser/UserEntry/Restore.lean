import Snitchaser.Lib.Extents
import Snitchaser.UserEntry.Protection
/-!
# The patch of the entry is undone

The mapping that is made writable for the patch is the one that the map has for the
address of the entry.  When the map is read, the buffer for it is mapped too, and unlike
`ckpt_meminfo` the patch has no guard pages around the buffer: if the entry is in
anonymous memory of the buffer's protection that touches it, the kernel lists both as
one, and after the buffer is given back `mprotect` finds a hole.
-/

namespace Snitchaser.UserEntry.Restore

open Snitchaser.Defs
open Snitchaser.Lib.ByteMemory
open Snitchaser.Lib.Extents
open Snitchaser.Lib.LittleEndian
open Snitchaser.Lib.Program
open Snitchaser.Pages
open Snitchaser.Proc.Entry
open Snitchaser.Proc.Lookup
open Snitchaser.Proc.Maps
open Snitchaser.Proc.RoundTrip (anonymousMapping length_mapsText_pos stackMapping yields_mapsText)
open Snitchaser.Proc.Text
open Snitchaser.Proc.Vsscanf (Str ch)
open Snitchaser.UserEntry.Model
open Snitchaser.UserEntry.Protection

/-! ## The entry of the map -/

section Listing

variable {env : Env} {s : State} {r : MapsEntry} {attr : Nat → Option Attr} {k k' : Attr}
  {lo hi : Nat}

/-- Pages have one protection, and the topmost one is not mapped. -/
structure UserSpace (attr : Nat → Option Attr) : Prop where
  paged : ∀ a, attr a = attr (a / 4096 * 4096)
  below : ∀ a, 2 ^ 32 - 4096 ≤ a → attr a = none

theorem UserSpace.page_start (h : UserSpace attr) (hext : IsExtent attr lo hi k) (hlt : lo < hi) :
    lo % pageSize = 0 := by
  by_contra hmid
  rw [show pageSize = 4096 from rfl] at hmid
  have hsame : attr (lo - 1) = attr lo := by
    rw [h.paged (lo - 1), h.paged lo, show (lo - 1) / 4096 = lo / 4096 by omega]
  apply hext.before (lo - 1) (by omega)
  rw [hsame]
  exact hext.same lo (Nat.le_refl _) hlt

theorem UserSpace.end_le (h : UserSpace attr) (hext : IsExtent attr lo hi k) (hlt : lo < hi) :
    hi ≤ 2 ^ 32 - 4096 := by
  by_contra hout
  have hlast := hext.same (hi - 1) (by omega) (by omega)
  rw [h.below (hi - 1) (by omega)] at hlast
  cases hlast

theorem UserSpace.withBuffer (h : UserSpace s.attr) (hplaced : Placed env s) :
    UserSpace (withBuffer env s).attr := by
  have hsize : maxProcMapsFileSize = 1048576 := rfl
  have hpage : env.mapdata % 4096 = 0 := hplaced.page
  have hfits := hplaced.fits
  constructor
  · intro a
    have hiff : (env.mapdata ≤ a ∧ a < env.mapdata + maxProcMapsFileSize) ↔
        (env.mapdata ≤ a / 4096 * 4096 ∧ a / 4096 * 4096 < env.mapdata + maxProcMapsFileSize) := by
      omega
    change (if _ then _ else s.attr a) = if _ then _ else s.attr (a / 4096 * 4096)
    rw [← h.paged a]
    simp only [hiff]
  · intro a ha
    change (if _ then _ else s.attr a) = _
    rw [if_neg (by omega), h.below a ha]

theorem attr_withBuffer_in {a : Nat} (ha : env.mapdata ≤ a)
    (hlt : a < env.mapdata + maxProcMapsFileSize) :
    (withBuffer env s).attr a = some ⟨readWrite, none⟩ := if_pos ⟨ha, hlt⟩

theorem attr_withBuffer_out {a : Nat}
    (ha : a < env.mapdata ∨ env.mapdata + maxProcMapsFileSize ≤ a) :
    (withBuffer env s).attr a = s.attr a := if_neg (by omega)

theorem attr_withBuffer_of_mapped (hplaced : Placed env s) {a : Nat} (ha : s.attr a ≠ none) :
    (withBuffer env s).attr a = s.attr a := by
  apply attr_withBuffer_out
  by_contra hin
  exact ha (hplaced.free a (by omega) (by omega))

/-- No byte of the entry is in the buffer. -/
def Apart (env : Env) (lo hi : Nat) : Prop :=
  hi ≤ env.mapdata ∨ env.mapdata + maxProcMapsFileSize ≤ lo

/-- The kernel lists the mapping and the buffer as one. -/
def ListedWithBuffer (env : Env) (lo hi : Nat) (k : Attr) : Prop :=
  k = ⟨readWrite, none⟩ ∧ (hi = env.mapdata ∨ lo = env.mapdata + maxProcMapsFileSize)

theorem extent_of_apart (hplaced : Placed env s)
    (hext : IsExtent (withBuffer env s).attr lo hi k) (hapart : Apart env lo hi) :
    IsExtent s.attr lo hi k :=
  hext.of_apart (fun _ => attr_withBuffer_out) hplaced.free hapart

theorem kind_of_not_apart (hext : IsExtent (withBuffer env s).attr lo hi k) (hlt : lo < hi)
    (hmeets : ¬ Apart env lo hi) : k = ⟨readWrite, none⟩ := by
  have hsize : maxProcMapsFileSize = 1048576 := rfl
  unfold Apart at hmeets
  have hbyte := hext.same (max lo env.mapdata) (by omega) (by omega)
  rw [attr_withBuffer_in (by omega) (by omega)] at hbyte
  exact (Option.some.inj hbyte).symm

theorem apart_iff {u lo' hi' : Nat} (hplaced : Placed env s)
    (hext : IsExtent (withBuffer env s).attr lo' hi' k') (hlo' : lo' ≤ u) (hhi' : u < hi')
    (hrun : IsExtent s.attr lo hi k) (hlo : lo ≤ u) (hhi : u < hi) :
    Apart env lo' hi' ↔ ¬ ListedWithBuffer env lo hi k := by
  have hsize : maxProcMapsFileSize = 1048576 := rfl
  constructor
  · rintro hapart ⟨rfl, hend⟩
    obtain ⟨rfl, rfl, rfl⟩ :=
      (extent_of_apart hplaced hext hapart).eq_of_common hrun hlo' hlo hhi' hhi
    rcases hend with rfl | rfl
    · exact hext.after (attr_withBuffer_in (Nat.le_refl _) (by omega))
    · exact hext.before (env.mapdata + maxProcMapsFileSize - 1) (by omega)
        (attr_withBuffer_in (by omega) (by omega))
  · intro hnot
    by_contra hmeets
    apply hnot
    have hmapped : s.attr u ≠ none := by
      rw [hrun.same u hlo hhi]
      exact Option.some_ne_none k
    have hout : u < env.mapdata ∨ env.mapdata + maxProcMapsFileSize ≤ u := by
      by_contra hin
      exact hmapped (hplaced.free u (by omega) (by omega))
    have hk : k' = k := by
      have hsame := attr_withBuffer_of_mapped hplaced hmapped
      rw [hext.same u hlo' hhi', hrun.same u hlo hhi] at hsame
      exact Option.some.inj hsame
    subst hk
    refine ⟨kind_of_not_apart hext (by omega) hmeets, ?_⟩
    unfold Apart at hmeets
    -- Between the entry and the buffer there is nothing else, and the mapping ends there.
    rcases hout with hlt | hge
    · have hreach : env.mapdata - 1 < hi := by
        apply hrun.reaches_up hhi
        intro x hx hxb
        have hbelow : x < env.mapdata := by omega
        rw [← attr_withBuffer_out (Or.inl hbelow)]
        exact hext.same x (by omega) (by omega)
      have hstop : ¬ env.mapdata < hi := by
        intro hin
        have hbyte := hrun.same env.mapdata (by omega) hin
        rw [hplaced.free _ (Nat.le_refl _) (by omega)] at hbyte
        cases hbyte
      omega
    · have hreach : lo ≤ env.mapdata + maxProcMapsFileSize := by
        apply hrun.reaches_down hlo
        intro x hx hxb
        rw [← attr_withBuffer_out (Or.inr hx)]
        exact hext.same x (by omega) (by omega)
      have hstop : ¬ lo < env.mapdata + maxProcMapsFileSize := by
        intro hin
        have hbyte := hrun.same (env.mapdata + maxProcMapsFileSize - 1) (by omega) (by omega)
        rw [hplaced.free _ (by omega) (by omega)] at hbyte
        cases hbyte
      omega

/-- A run that has changed neither memory nor what was mapped before. -/
structure Unchanged (s t : State) : Prop where
  mem : t.mem = s.mem
  attr : ∀ a, s.attr a ≠ none → t.attr a = s.attr a

theorem unchanged_withBuffer (hplaced : Placed env s) : Unchanged s (withBuffer env s) :=
  ⟨rfl, fun _ => attr_withBuffer_of_mapped hplaced⟩

theorem whole_of_apart (hplaced : Placed env s)
    (hext : IsExtent (withBuffer env s).attr r.start r.end_ k) (hprot : r.prot = k.prot)
    (hapart : Apart env r.start r.end_) : Whole s.attr r.start (r.end_ - r.start) r.prot := by
  intro a ha hlt
  exact ⟨k, (extent_of_apart hplaced hext hapart).same a ha (by omega), hprot.symm⟩

variable (huser : UserSpace s.attr) (hplaced : Placed env s)
  (hext : IsExtent (withBuffer env s).attr r.start r.end_ k) (hlo : r.start ≤ env.uentry)
  (hhi : env.uentry < r.end_)

include huser hplaced hext hlo hhi

theorem sub32_entry : sub32 r.end_ r.start = r.end_ - r.start := by
  have hend := (huser.withBuffer hplaced).end_le hext (by omega)
  exact sub32_of_le (by omega) (by omega)

theorem uentry_no_wrap : (env.uentry + patchSz) % 2 ^ 32 = env.uentry + patchSz := by
  have hend := (huser.withBuffer hplaced).end_le hext (by omega)
  have hsize : patchSz = 5 := rfl
  exact Nat.mod_eq_of_lt (by omega)

/-- An entry with the buffer in it: the run stops at the end of the entry, or at the
first `mprotect`, which gives the rest of the entry the protection it has. -/
theorem patchFound_meets (hmeets : ¬ Apart env r.start r.end_) :
    ∃ e t, patchFound env r (withBuffer env s) = .error e t ∧ Unchanged s t := by
  by_cases hclose : r.end_ ≤ (env.uentry + patchSz) % 2 ^ 32
  · obtain ⟨e, hrun⟩ := patchFound_close (s := withBuffer env s) hlo hhi hclose
    exact ⟨e, _, hrun, unchanged_withBuffer hplaced⟩
  · have hsize : maxProcMapsFileSize = 1048576 := rfl
    have hk := kind_of_not_apart hext (by omega) hmeets
    have halign := (huser.withBuffer hplaced).page_start hext (by omega)
    unfold Apart at hmeets
    have hhole : s.attr (r.start + (max r.start env.mapdata - r.start)) = none :=
      hplaced.free _ (by omega) (by omega)
    have hmprotect : sysMprotect r.start (r.end_ - r.start) readWrite s = .ok (-12) s := by
      apply sysMprotect_hole halign (by omega) hhole
      intro a k' ha hlt hmapped
      have hsame := attr_withBuffer_of_mapped hplaced (hmapped ▸ Option.some_ne_none k')
      rw [hext.same a ha (by omega), hmapped, hk] at hsame
      rw [← Option.some.inj hsame]
    rw [patchFound_room hplaced hlo hhi hclose, sub32_entry huser hplaced hext hlo hhi,
      bind_of_ok hmprotect, bind_of_error (assertThat_of_false (by decide))]
    exact ⟨_, s, rfl, rfl, fun _ _ => rfl⟩

theorem patchFound_apart (hprot : r.prot = k.prot) (hapart : Apart env r.start r.end_)
    (hroom : env.uentry + patchSz < r.end_) :
    patchFound env r (withBuffer env s) =
      .ok () (patched env.archUserEntryE env.uentry r.start (r.end_ - r.start) r.prot s) := by
  have halign := (huser.withBuffer hplaced).page_start hext (by omega)
  have hwhole := whole_of_apart hplaced hext hprot hapart
  have hfar : ¬ r.end_ ≤ (env.uentry + patchSz) % 2 ^ 32 := by
    rw [uentry_no_wrap huser hplaced hext hlo hhi]
    omega
  rw [patchFound_room hplaced hlo hhi hfar, sub32_entry huser hplaced hext hlo hhi]
  exact writable_around halign hwhole
    (archPatchUserEntry_ok ((whole_reprotect hwhole).sub hlo (by omega))) rfl

/-- The second half takes the first back, unless the mapping is at address 0. -/
theorem unpatch_patched (hprot : r.prot = k.prot) (hapart : Apart env r.start r.end_)
    (hroom : env.uentry + patchSz < r.end_) (hzero : r.start ≠ 0) :
    ∃ u, unpatchUserEntry
        (patched env.archUserEntryE env.uentry r.start (r.end_ - r.start) r.prot s) = .ok () u ∧
      u.mem = s.mem ∧ u.attr = s.attr := by
  have halign := (huser.withBuffer hplaced).page_start hext (by omega)
  have hwhole := whole_of_apart hplaced hext hprot hapart
  refine ⟨_, unpatchUserEntry_ok ?_ hzero halign hwhole hlo ?_, withJump_undone, rfl⟩
  · change env.uentry ≠ 0
    omega
  · change env.uentry + (readBytes s.mem env.uentry patchSz).length ≤ r.start + (r.end_ - r.start)
    rw [length_readBytes]
    omega

end Listing

/-! ## The patch and its undoing -/

section Undo

variable {env : Env} {s t : State} {es : List MapsEntry} {ms : List Mapping}

/-- The entries are the extents of the map, and every mapped byte is in one. -/
structure Lists (attr : Nat → Option Attr) (es : List MapsEntry) : Prop where
  extent : ∀ e ∈ es, ∃ k, IsExtent attr e.start e.end_ k ∧ e.prot = k.prot
  complete : ∀ a, attr a ≠ none → ∃ e ∈ es, e.start ≤ a ∧ a < e.end_

/-- The first read gives the whole map, which leaves room in the buffer and whose last
mapping has a name; a last line without one is not read back. -/
structure MapServed (env : Env) (s : State) (ms : List Mapping) : Prop where
  maps : ∃ fd, 0 ≤ fd ∧ env.maps s.attr = ⟨fd, mapsText ms, (mapsText ms).length⟩
  short : (mapsText ms).length < maxProcMapsFileSize
  named : ∀ m, ms.getLast? = some m → ∃ name, m.name = some name
  lists : Lists s.attr (ms.map Mapping.entry)

theorem MapServed.served (hmap : MapServed env (withBuffer env s) ms) (hplaced : Placed env s) :
    Served env (withBuffer env s) (ms.map Mapping.entry) := by
  -- The buffer itself is mapped, so the map is not empty.
  have hbuffer : (withBuffer env s).attr env.mapdata ≠ none := by
    rw [attr_withBuffer_in (Nat.le_refl _) (Nat.lt_add_of_pos_right (by decide))]
    exact Option.some_ne_none _
  obtain ⟨e, he, _⟩ := hmap.lists.complete env.mapdata hbuffer
  have hpos : 0 < (mapsText ms).length := by
    apply length_mapsText_pos
    rintro rfl
    cases he
  obtain ⟨fd, hfd, hmaps⟩ := hmap.maps
  obtain ⟨z, hz⟩ := Checkpoint.Coverage.bufferOf_nul (mapsText ms) hmap.short
  rw [List.take_length] at hz
  refine ⟨_, hmaps ▸
    Checkpoint.Coverage.readSelfProcmap_eq hfd hplaced.ne_zero hpos hmap.short, ?_⟩
  have hyields : Yields (readMapsLine env.uninit)
      ⟨[] ++ (mapsText ms ++ 0 :: z), ([] ++ mapsText ms).length, ([] : Str).length⟩
      (ms.map Mapping.entry) := yields_mapsText hmap.named rfl hpos
  rw [hz]
  exact hyields

/-- The jump is there, and nothing else is new. -/
structure Patched (env : Env) (s t : State) : Prop where
  opcode : t.mem env.uentry = 0xE9
  target : (env.uentry + patchSz + leNat (readBytes t.mem (env.uentry + 1) 4)) % 2 ^ 32 =
    env.archUserEntryE % 2 ^ 32
  frame : ∀ a, a < env.uentry ∨ env.uentry + patchSz ≤ a → t.mem a = s.mem a
  attr : t.attr = s.attr

theorem patched_patched {repStart repSz prot : Nat} :
    Patched env s (patched env.archUserEntryE env.uentry repStart repSz prot s) where
  opcode := withJump_opcode
  target := withJump_target
  frame _ := withJump_frame
  attr := rfl

/-- The mapping `[lo, hi)` has the entry of the program, and room for the patch. -/
structure Roomy (env : Env) (s : State) (lo hi : Nat) (k : Attr) : Prop where
  extent : IsExtent s.attr lo hi k
  le : lo ≤ env.uentry
  room : env.uentry + patchSz < hi

/-- The entry of the program is in no mapping, or the mapping ends with the patch. -/
def Misplaced (env : Env) (s : State) : Prop :=
  s.attr env.uentry = none ∨
    ∃ lo hi k, IsExtent s.attr lo hi k ∧ lo ≤ env.uentry ∧ env.uentry < hi ∧
      hi ≤ env.uentry + patchSz

/-- The entry of the map that the search gives. -/
theorem Lists.found {attr : Nat → Option Attr} {r : MapsEntry} {u : Nat} (hlists : Lists attr es)
    (hfind : es.find? (fun e => e.start ≤ u ∧ u < e.end_) = some r) :
    ∃ k, IsExtent attr r.start r.end_ k ∧ r.prot = k.prot ∧ r.start ≤ u ∧ u < r.end_ := by
  obtain ⟨k, hext, hprot⟩ := hlists.extent r (List.mem_of_find?_eq_some hfind)
  have hin := List.find?_some hfind
  rw [decide_eq_true_eq] at hin
  exact ⟨k, hext, hprot, hin.1, hin.2⟩

theorem Lists.find_isSome {attr : Nat → Option Attr} {u : Nat} (hlists : Lists attr es)
    (hmapped : attr u ≠ none) :
    ∃ r, es.find? (fun e => e.start ≤ u ∧ u < e.end_) = some r := by
  obtain ⟨e, he, hin⟩ := hlists.complete u hmapped
  cases hfind : es.find? (fun e => e.start ≤ u ∧ u < e.end_) with
  | some r => exact ⟨r, rfl⟩
  | none => exact absurd (decide_eq_true hin) (List.find?_eq_none.mp hfind e he)

/-- A mapping with room: the entry found is the mapping, or the run stops. -/
theorem patch_roomy {lo hi : Nat} {k : Attr} (huser : UserSpace s.attr) (hplaced : Placed env s)
    (hmap : MapServed env (withBuffer env s) ms) (hroomy : Roomy env s lo hi k) :
    (ListedWithBuffer env lo hi k → ∃ e t, patchUserEntry env s = .error e t) ∧
      (¬ ListedWithBuffer env lo hi k →
        patchUserEntry env s =
            .ok () (patched env.archUserEntryE env.uentry lo (hi - lo) k.prot s) ∧
          (lo ≠ 0 → ∃ u, unpatchUserEntry
            (patched env.archUserEntryE env.uentry lo (hi - lo) k.prot s) = .ok () u ∧
            u.mem = s.mem ∧ u.attr = s.attr)) := by
  obtain ⟨hrun, hlo, hroom⟩ := hroomy
  have hhi : env.uentry < hi := Nat.lt_of_le_of_lt (Nat.le_add_right _ _) hroom
  have hmapped : s.attr env.uentry ≠ none := by
    rw [hrun.same _ hlo hhi]
    exact Option.some_ne_none k
  obtain ⟨r, hfind⟩ := hmap.lists.find_isSome
    ((attr_withBuffer_of_mapped hplaced hmapped).symm ▸ hmapped)
  obtain ⟨k', hext, hprot, hrlo, hrhi⟩ := hmap.lists.found hfind
  have hapart := apart_iff hplaced hext hrlo hrhi hrun hlo hhi
  rw [patchUserEntry_eq hplaced (hmap.served hplaced), hfind, Option.getD_some]
  constructor
  · intro hlisted
    have hmeets : ¬ Apart env r.start r.end_ := fun h => hapart.mp h hlisted
    obtain ⟨e, t, herr, _⟩ := patchFound_meets huser hplaced hext hrlo hrhi hmeets
    exact ⟨e, t, herr⟩
  · intro hnot
    have hsep := hapart.mpr hnot
    obtain ⟨rfl, rfl, rfl⟩ :=
      (extent_of_apart hplaced hext hsep).eq_of_common hrun hrlo hlo hrhi hhi
    rw [← hprot]
    exact ⟨patchFound_apart huser hplaced hext hrlo hrhi hprot hsep hroom,
      unpatch_patched huser hplaced hext hrlo hrhi hprot hsep hroom⟩

theorem patch_misplaced (huser : UserSpace s.attr) (hplaced : Placed env s)
    (hmap : MapServed env (withBuffer env s) ms) (hmisplaced : Misplaced env s) :
    ∃ e t, patchUserEntry env s = .error e t ∧ Unchanged s t := by
  rw [patchUserEntry_eq hplaced (hmap.served hplaced)]
  cases hfind : (ms.map Mapping.entry).find? (fun e => e.start ≤ env.uentry ∧ env.uentry < e.end_) with
  | none => exact ⟨_, _, patchFound_invalid, unchanged_withBuffer hplaced⟩
  | some r =>
      obtain ⟨k, hext, hprot, hlo, hhi⟩ := hmap.lists.found hfind
      by_cases hapart : Apart env r.start r.end_
      · have hrun := extent_of_apart hplaced hext hapart
        have hclose : r.end_ ≤ env.uentry + patchSz := by
          rcases hmisplaced with hnone | ⟨lo, hi, k', hrun', hlo', hhi', hclose⟩
          · rw [hrun.same _ hlo hhi] at hnone
            cases hnone
          · obtain ⟨_, hend, _⟩ := hrun.eq_of_common hrun' hlo hlo' hhi hhi'
            omega
        rw [← uentry_no_wrap huser hplaced hext hlo hhi] at hclose
        obtain ⟨e, herr⟩ := patchFound_close (s := withBuffer env s) hlo hhi hclose
        exact ⟨e, _, herr, unchanged_withBuffer hplaced⟩
      · exact patchFound_meets huser hplaced hext hlo hhi hapart

end Undo

/-! ## Two processes -/

section Processes

/-- Two mappings and nothing else. -/
def twoMapped (lo hi : Nat) (k : Attr) (lo' hi' : Nat) (k' : Attr) (a : Nat) : Option Attr :=
  if lo ≤ a ∧ a < hi then some k else if lo' ≤ a ∧ a < hi' then some k' else none

section Two

variable {lo hi lo' hi' : Nat} {k k' : Attr}

theorem userSpace_twoMapped (hlo : lo % 4096 = 0) (hhi : hi % 4096 = 0) (hlo' : lo' % 4096 = 0)
    (hhi' : hi' % 4096 = 0) (htop : hi ≤ 2 ^ 32 - 4096) (htop' : hi' ≤ 2 ^ 32 - 4096) :
    UserSpace (twoMapped lo hi k lo' hi' k') := by
  constructor
  · intro a
    have hiff : (lo ≤ a ∧ a < hi) ↔ (lo ≤ a / 4096 * 4096 ∧ a / 4096 * 4096 < hi) := by omega
    have hiff' : (lo' ≤ a ∧ a < hi') ↔ (lo' ≤ a / 4096 * 4096 ∧ a / 4096 * 4096 < hi') := by
      omega
    simp only [twoMapped, hiff, hiff']
  · intro a ha
    rw [twoMapped, if_neg (by omega), if_neg (by omega)]

theorem twoMapped_out {a : Nat} (h : ¬ (lo ≤ a ∧ a < hi)) (h' : ¬ (lo' ≤ a ∧ a < hi')) :
    twoMapped lo hi k lo' hi' k' a = none := by
  rw [twoMapped, if_neg h, if_neg h']

theorem twoMapped_ne {a : Nat} {x : Attr} (h : ¬ (lo ≤ a ∧ a < hi)) (h' : ¬ (lo' ≤ a ∧ a < hi')) :
    twoMapped lo hi k lo' hi' k' a ≠ some x := by
  rw [twoMapped_out h h']
  exact (Option.some_ne_none x).symm

theorem extent_first (hgap : hi < lo') (hle : lo ≤ hi) :
    IsExtent (twoMapped lo hi k lo' hi' k') lo hi k where
  same _ ha hlt := if_pos ⟨ha, hlt⟩
  before _ ha := twoMapped_ne (by omega) (by omega)
  after := twoMapped_ne (by omega) (by omega)

theorem extent_second (hgap : hi < lo') (hle' : lo' ≤ hi') :
    IsExtent (twoMapped lo hi k lo' hi' k') lo' hi' k' where
  same a ha hlt := by rw [twoMapped, if_neg (by omega), if_pos ⟨ha, hlt⟩]
  before _ ha := twoMapped_ne (by omega) (by omega)
  after := twoMapped_ne (by omega) (by omega)

theorem lists_twoMapped {e e' : MapsEntry} (hle : lo ≤ hi) (hgap : hi < lo') (hle' : lo' ≤ hi')
    (he : e.start = lo ∧ e.end_ = hi ∧ e.prot = k.prot)
    (he' : e'.start = lo' ∧ e'.end_ = hi' ∧ e'.prot = k'.prot) :
    Lists (twoMapped lo hi k lo' hi' k') [e, e'] := by
  obtain ⟨rfl, rfl, hprot⟩ := he
  obtain ⟨rfl, rfl, hprot'⟩ := he'
  constructor
  · intro x hx
    rcases List.mem_cons.mp hx with rfl | hx
    · exact ⟨k, extent_first hgap hle, hprot⟩
    · obtain rfl := List.mem_singleton.mp hx
      exact ⟨k', extent_second hgap hle', hprot'⟩
  · intro a ha
    by_cases hin : e.start ≤ a ∧ a < e.end_
    · exact ⟨e, List.mem_cons_self, hin⟩
    · by_cases hin' : e'.start ≤ a ∧ a < e'.end_
      · exact ⟨e', List.mem_cons_of_mem _ List.mem_cons_self, hin'⟩
      · exact absurd (twoMapped_out hin hin') ha

end Two

def bufferMapping : Mapping :=
  { anonymousMapping with
    start := 0xB7400000, end_ := 0xB7500000, start_lt := by decide, end_lt := by decide }

/-- The text segment of a program. -/
def programMapping : Mapping :=
  { stackMapping with
    start := 0xB7600000, end_ := 0xB7610000, write := false, exec := true
    start_lt := by decide, end_lt := by decide }

/-- The entry is in the text segment, and the buffer is elsewhere. -/
def programEnv : Env where
  uentry := 0xB7600100
  archUserEntryE := 0xB7700000
  mapdata := 0xB7400000
  maps _ := ⟨3, mapsText [bufferMapping, programMapping],
    (mapsText [bufferMapping, programMapping]).length⟩
  uninit _ := 0

def stateOf (attr : Nat → Option Attr) : State where
  mem a := UInt8.ofNat a
  attr := attr
  reprotectAddrStart := 0
  reprotectSz := 0
  oldProt := 0
  patchBegin := 0
  savedPatchBytes := []

abbrev programAttr : Nat → Option Attr :=
  twoMapped 0 0 ⟨0, none⟩ 0xB7600000 0xB7610000 ⟨5, some 0⟩

def programState : State := stateOf programAttr

theorem attr_programState : (withBuffer programEnv programState).attr =
    twoMapped 0xB7400000 0xB7500000 ⟨readWrite, none⟩ 0xB7600000 0xB7610000 ⟨5, some 0⟩ := by
  funext a
  change (if 0xB7400000 ≤ a ∧ a < 0xB7500000 then some ⟨readWrite, none⟩ else programAttr a) = _
  rw [programAttr, twoMapped, if_neg (by omega : ¬ (0 ≤ a ∧ a < 0))]
  rfl

theorem userSpace_programAttr : UserSpace programAttr :=
  userSpace_twoMapped (by decide) (by decide) (by decide) (by decide) (by decide) (by decide)

theorem placed_programState : Placed programEnv programState where
  page := by decide
  ne_zero := by decide
  fits := by decide
  free a ha hlt := by
    have hlo : 0xB7400000 ≤ a := ha
    have hhi : a < 0xB7500000 := hlt
    change programAttr a = none
    exact twoMapped_out (by omega) (by omega)

theorem lists_programState : Lists (withBuffer programEnv programState).attr
    ([bufferMapping, programMapping].map Mapping.entry) := by
  rw [attr_programState]
  exact lists_twoMapped (by decide) (by decide) (by decide) ⟨rfl, rfl, rfl⟩ ⟨rfl, rfl, rfl⟩

theorem mapServed_programState :
    MapServed programEnv (withBuffer programEnv programState) [bufferMapping, programMapping] where
  maps := ⟨3, by decide, rfl⟩
  short := by decide +kernel
  named := by
    rintro m ⟨⟩
    exact ⟨_, rfl⟩
  lists := lists_programState

theorem extent_programAttr : IsExtent programAttr 0xB7600000 0xB7610000 ⟨5, some 0⟩ :=
  extent_second (by decide) (by decide)

/-- Anonymous memory and the buffer right above it, as the kernel lists them. -/
def besideMapping : Mapping :=
  { anonymousMapping with
    start := 0xB73FF000, end_ := 0xB7500000, start_lt := by decide, end_lt := by decide }

def besideEnv : Env where
  uentry := 0xB73FF100
  archUserEntryE := 0xB7700000
  mapdata := 0xB7400000
  maps _ := ⟨3, mapsText [besideMapping, stackMapping],
    (mapsText [besideMapping, stackMapping]).length⟩
  uninit _ := 0

abbrev besideAttr : Nat → Option Attr :=
  twoMapped 0xB73FF000 0xB7400000 ⟨readWrite, none⟩ 0xBF8A1000 0xBF8B6000 ⟨readWrite, some 0⟩

def besideState : State := stateOf besideAttr

theorem placed_besideState : Placed besideEnv besideState where
  page := by decide
  ne_zero := by decide
  fits := by decide
  free a ha hlt := by
    have hlo : 0xB7400000 ≤ a := ha
    have hhi : a < 0xB7500000 := hlt
    change besideAttr a = none
    exact twoMapped_out (by omega) (by omega)

theorem attr_besideState : (withBuffer besideEnv besideState).attr =
    twoMapped 0xB73FF000 0xB7500000 ⟨readWrite, none⟩ 0xBF8A1000 0xBF8B6000 ⟨readWrite, some 0⟩ := by
  funext a
  change (if 0xB7400000 ≤ a ∧ a < 0xB7500000 then some ⟨readWrite, none⟩ else besideAttr a) = _
  by_cases hbuffer : 0xB7400000 ≤ a ∧ a < 0xB7500000
  · rw [if_pos hbuffer, twoMapped, if_pos (by omega)]
  · have hiff : (0xB73FF000 ≤ a ∧ a < 0xB7400000) ↔ (0xB73FF000 ≤ a ∧ a < 0xB7500000) := by omega
    rw [if_neg hbuffer]
    simp only [twoMapped, hiff]

theorem lists_besideState : Lists (withBuffer besideEnv besideState).attr
    ([besideMapping, stackMapping].map Mapping.entry) := by
  rw [attr_besideState]
  exact lists_twoMapped (by decide) (by decide) (by decide) ⟨rfl, rfl, rfl⟩ ⟨rfl, rfl, rfl⟩

theorem mapServed_besideState :
    MapServed besideEnv (withBuffer besideEnv besideState) [besideMapping, stackMapping] where
  maps := ⟨3, by decide, rfl⟩
  short := by decide +kernel
  named := by
    rintro m ⟨⟩
    exact ⟨_, rfl⟩
  lists := lists_besideState

end Processes

end Snitchaser.UserEntry.Restore
