import Snitchaser.Checkpoint.Coverage
import Snitchaser.UserEntry.Model
/-!
# The steps of the patch

What the system calls do to memory that is mapped throughout and to memory with a hole,
which bytes the jump changes, and the ways `patch_user_entry` can go on from the entry
that the map gives it.
-/

namespace Snitchaser.UserEntry.Protection

open Snitchaser.Defs
open Snitchaser.Lib.ByteMemory
open Snitchaser.Lib.LittleEndian
open Snitchaser.Lib.Program
open Snitchaser.Pages
open Snitchaser.Proc.Entry
open Snitchaser.Proc.Lookup
open Snitchaser.Proc.Maps
open Snitchaser.UserEntry.Model

/-! ## `mprotect` -/

section Mprotect

variable {attr : Nat → Option Attr} {s t : State} {start len prot prot' a n i : Nat}

def readWrite : Nat := protRead ||| protWrite

theorem mappedFrom_eq (h : ∀ i < n, attr (a + i) ≠ none) : mappedFrom attr a n = n := by
  induction n generalizing a with
  | zero => rfl
  | succ n ih =>
      have hfirst : attr a ≠ none := h 0 n.succ_pos
      rw [mappedFrom, if_neg hfirst, ih]
      intro i hi
      rw [Nat.add_assoc, Nat.add_comm 1]
      exact h (i + 1) (Nat.succ_lt_succ hi)

theorem mappedFrom_lt (hi : i < n) (hnone : attr (a + i) = none) : mappedFrom attr a n < n := by
  induction n generalizing a i with
  | zero => cases hi
  | succ n ih =>
      rw [mappedFrom]
      split
      · exact n.succ_pos
      · rename_i hmapped
        cases i with
        | zero => exact absurd hnone hmapped
        | succ i =>
            apply Nat.succ_lt_succ
            apply ih (Nat.lt_of_succ_lt_succ hi)
            rw [Nat.add_assoc, Nat.add_comm 1]
            exact hnone

/-- The bytes from `start` on are mapped and have the protection `prot`. -/
def Whole (attr : Nat → Option Attr) (start len prot : Nat) : Prop :=
  ∀ a, start ≤ a → a < start + len → ∃ k, attr a = some k ∧ k.prot = prot

theorem reprotect_eq_self
    (h : ∀ a k, start ≤ a → a < start + n → attr a = some k → k.prot = prot) :
    reprotect attr start n prot = attr := by
  funext a
  rw [reprotect]
  split
  case isFalse => rfl
  case isTrue hin =>
    cases hk : attr a with
    | none => rfl
    | some k => rw [Option.map_some, ← h a k hin.1 hin.2 hk]

theorem reprotect_back (h : Whole attr start len prot) :
    reprotect (reprotect attr start len prot') start len prot = attr := by
  funext a
  by_cases hin : start ≤ a ∧ a < start + len
  · obtain ⟨k, hk, rfl⟩ := h a hin.1 hin.2
    rw [reprotect, if_pos hin, reprotect, if_pos hin, hk]
    rfl
  · rw [reprotect, if_neg hin, reprotect, if_neg hin]

theorem whole_reprotect (h : Whole attr start len prot) :
    Whole (reprotect attr start len prot') start len prot' := by
  intro a ha hlt
  obtain ⟨k, hk, _⟩ := h a ha hlt
  refine ⟨{ k with prot := prot' }, ?_, rfl⟩
  rw [reprotect, if_pos ⟨ha, hlt⟩, hk]
  rfl

theorem sysMprotect_whole (halign : start % pageSize = 0) (h : Whole s.attr start len prot) :
    sysMprotect start len prot' s =
      .ok 0 { s with attr := reprotect s.attr start len prot' } := by
  have hn : mappedFrom s.attr start len = len := by
    apply mappedFrom_eq
    intro i hi hnone
    obtain ⟨k, hk, _⟩ := h (start + i) (Nat.le_add_right _ _) (Nat.add_lt_add_left hi start)
    rw [hk] at hnone
    cases hnone
  rw [sysMprotect, if_neg (not_not.mpr halign), bind_of_ok (get_apply s)]
  simp only [hn]
  rfl

/-- A hole in memory that has the protection already. -/
theorem sysMprotect_hole (halign : start % pageSize = 0) (hi : i < len)
    (hnone : s.attr (start + i) = none)
    (h : ∀ a k, start ≤ a → a < start + len → s.attr a = some k → k.prot = prot) :
    sysMprotect start len prot s = .ok (-12) s := by
  have hlt := mappedFrom_lt hi hnone
  have hself : reprotect s.attr start (mappedFrom s.attr start len) prot = s.attr :=
    reprotect_eq_self fun a k ha hin => h a k ha (by omega)
  rw [sysMprotect, if_neg (not_not.mpr halign), bind_of_ok (get_apply s)]
  simp only [hself, if_neg hlt.ne]
  rfl

/-- What both halves do: a change to memory with the mapping made writable around it. -/
theorem writable_around {body : Prog State Unit} (halign : start % pageSize = 0)
    (h : Whole s.attr start len prot)
    (hbody : body { s with attr := reprotect s.attr start len readWrite } = .ok () t)
    (hattr : t.attr = reprotect s.attr start len readWrite) :
    (do
      let err ← sysMprotect start len readWrite
      assertThat (err = 0) "err == 0"
      body
      let err ← sysMprotect start len prot
      assertThat (err = 0) "err == 0" : Prog State Unit) s = .ok () { t with attr := s.attr } := by
  have hwhole : Whole t.attr start len readWrite := by
    rw [hattr]
    exact whole_reprotect h
  rw [bind_of_ok (sysMprotect_whole halign h), bind_of_ok (assertThat_of_true (by decide)),
    bind_of_ok hbody, bind_of_ok (sysMprotect_whole halign hwhole), hattr, reprotect_back h]
  rfl

end Mprotect

/-! ## The bytes -/

section Bytes

variable {s : State} {m : Memory} {start len prot uentry target : Nat} {bs : List UInt8}

theorem allows_of_readWrite {k : Attr} {prot : Nat} (hk : k.prot = readWrite)
    (hprot : prot = protRead ∨ prot = protWrite) : allows prot (some k) = true := by
  change (k.prot &&& prot == prot) = true
  rw [hk]
  rcases hprot with rfl | rfl
  · rfl
  · rfl

theorem Whole.allows {attr : Nat → Option Attr} {a n prot : Nat} (h : Whole attr a n readWrite)
    (hprot : prot = protRead ∨ prot = protWrite) : ∀ i < n, allows prot (attr (a + i)) = true := by
  intro i hi
  obtain ⟨k, hk, hrw⟩ := h (a + i) (Nat.le_add_right _ _) (Nat.add_lt_add_left hi a)
  rw [hk]
  exact allows_of_readWrite hrw hprot

theorem loadBytes_ok {a n : Nat} (h : Whole s.attr a n readWrite) :
    loadBytes a n s = .ok (readBytes s.mem a n) s := by
  rw [loadBytes, bind_of_ok (get_apply s), if_pos (h.allows (.inl rfl))]
  rfl

theorem storeBytes_ok {a : Nat} (h : Whole s.attr a bs.length readWrite) :
    storeBytes a bs s = .ok () { s with mem := writeBytes s.mem a bs } := by
  rw [storeBytes, bind_of_ok (get_apply s), if_pos (h.allows (.inr rfl))]
  rfl

theorem Whole.sub {attr : Nat → Option Attr} {a n : Nat} (h : Whole attr start len prot)
    (ha : start ≤ a) (hn : a + n ≤ start + len) : Whole attr a n prot :=
  fun x hx hlt => h x (ha.trans hx) (hlt.trans_le hn)

/-- The memory with the jump at the entry. -/
def withJump (m : Memory) (uentry target : Nat) : Memory :=
  writeBytes (writeBytes m uentry [0xE9]) (uentry + 1)
    (leBytes 4 (sub32 target ((uentry + patchSz) % 2 ^ 32)))

theorem withJump_frame {a : Nat} (ha : a < uentry ∨ uentry + patchSz ≤ a) :
    withJump m uentry target a = m a := by
  have hsize : patchSz = 5 := rfl
  have hdisp : ¬ (uentry + 1 ≤ a ∧ a < uentry + 1 + 4) := by omega
  have hopcode : ¬ (uentry ≤ a ∧ a < uentry + 1) := by omega
  rw [withJump, writeBytes, length_leBytes, if_neg hdisp, writeBytes]
  exact if_neg hopcode

theorem withJump_opcode : withJump m uentry target uentry = 0xE9 := by
  rw [withJump, writeBytes_of_lt (Nat.lt_succ_self uentry), writeBytes, if_pos]
  · rw [Nat.sub_self]
    rfl
  · exact ⟨Nat.le_refl _, Nat.lt_succ_self _⟩

/-- Where the jump goes. -/
theorem withJump_target :
    (uentry + patchSz + leNat (readBytes (withJump m uentry target) (uentry + 1) 4)) % 2 ^ 32 =
      target % 2 ^ 32 := by
  have hread : readBytes (withJump m uentry target) (uentry + 1) 4 =
      leBytes 4 (sub32 target ((uentry + patchSz) % 2 ^ 32)) := by
    have hsame := readBytes_writeBytes_same (writeBytes m uentry [0xE9]) (uentry + 1)
      (leBytes 4 (sub32 target ((uentry + patchSz) % 2 ^ 32)))
    rwa [length_leBytes] at hsame
  have hlt : sub32 target ((uentry + patchSz) % 2 ^ 32) < 256 ^ 4 := Nat.mod_lt _ (by decide)
  rw [hread, leNat_leBytes hlt, sub32]
  omega

theorem withJump_undone :
    writeBytes (withJump m uentry target) uentry (readBytes m uentry patchSz) = m := by
  funext a
  rw [writeBytes, length_readBytes]
  split
  case isTrue hin =>
    have hlt : a - uentry < patchSz := by omega
    rw [List.getD_eq_getElem?_getD, getElem?_readBytes hlt, Option.getD_some,
      Nat.add_sub_cancel' hin.1]
  case isFalse hout =>
    exact withJump_frame (by omega)

theorem doPatch_ok (h : Whole s.attr uentry patchSz readWrite) :
    doPatch uentry target s = .ok () { s with mem := withJump s.mem uentry target } := by
  have hopcode : Whole s.attr uentry ([0xE9] : List UInt8).length readWrite :=
    h.sub (Nat.le_refl _) (Nat.add_le_add_left (by decide) uentry)
  have hdisp : Whole s.attr (uentry + 1)
      (leBytes 4 (sub32 target ((uentry + patchSz) % 2 ^ 32))).length readWrite := by
    rw [length_leBytes]
    exact h.sub (Nat.le_succ _) (Nat.le_refl _)
  rw [doPatch, bind_of_ok (storeBytes_ok hopcode)]
  exact storeBytes_ok hdisp

/-- The variables and the memory after the patch. -/
def patched (archUserEntryE uentry repStart repSz prot : Nat) (s : State) : State :=
  { s with
    mem := withJump s.mem uentry archUserEntryE
    patchBegin := uentry
    savedPatchBytes := readBytes s.mem uentry patchSz
    reprotectAddrStart := repStart
    reprotectSz := repSz
    oldProt := prot }

theorem archPatchUserEntry_ok {repStart repSz : Nat} (h : Whole s.attr uentry patchSz readWrite) :
    archPatchUserEntry target uentry repStart repSz prot s =
      .ok () (patched target uentry repStart repSz prot s) := by
  have hload : loadBytes uentry patchSz { s with patchBegin := uentry } =
      .ok (readBytes s.mem uentry patchSz) { s with patchBegin := uentry } := loadBytes_ok h
  rw [archPatchUserEntry, bind_of_ok (modify_apply _ s), bind_of_ok hload,
    bind_of_ok (modify_apply _ _)]
  exact doPatch_ok h

end Bytes

/-! ## The two runs -/

section Runs

variable {env : Env} {s t : State} {h : Handler} {r : MapsEntry} {start len : Nat}

theorem unpatchUserEntry_ok (hbegin : t.patchBegin ≠ 0) (hstart : t.reprotectAddrStart ≠ 0)
    (halign : t.reprotectAddrStart % pageSize = 0)
    (hwhole : Whole t.attr t.reprotectAddrStart t.reprotectSz t.oldProt)
    (hlo : t.reprotectAddrStart ≤ t.patchBegin)
    (hhi : t.patchBegin + t.savedPatchBytes.length ≤ t.reprotectAddrStart + t.reprotectSz) :
    unpatchUserEntry t =
      .ok () { t with mem := writeBytes t.mem t.patchBegin t.savedPatchBytes } := by
  rw [unpatchUserEntry, bind_of_ok (get_apply t),
    bind_of_ok (assertThat_of_true (decide_eq_true hbegin)),
    bind_of_ok (assertThat_of_true (decide_eq_true hstart))]
  exact writable_around halign hwhole
    (storeBytes_ok ((whole_reprotect hwhole).sub hlo hhi)) rfl

theorem unpatchUserEntry_null (hstart : t.reprotectAddrStart = 0) (u : State) :
    unpatchUserEntry t ≠ .ok () u := by
  intro hrun
  simp only [unpatchUserEntry, bind_ok_iff, get_ok_iff, assertThat_ok_iff] at hrun
  obtain ⟨_, _, ⟨rfl, rfl⟩, _, _, _, _, _, ⟨hne, _⟩, _⟩ := hrun
  exact of_decide_eq_true hne hstart

/-- The range that the kernel picks for the text of the map. -/
structure Placed (env : Env) (s : State) : Prop where
  page : env.mapdata % pageSize = 0
  ne_zero : env.mapdata ≠ 0
  fits : env.mapdata + maxProcMapsFileSize ≤ 2 ^ 32 - 4096
  free : ∀ a, env.mapdata ≤ a → a < env.mapdata + maxProcMapsFileSize → s.attr a = none

theorem Placed.valid (h : Placed env s) : isValidPage env.mapdata = true := beq_iff_eq.mpr h.page

/-- The state while the buffer is mapped. -/
def withBuffer (env : Env) (s : State) : State :=
  { s with attr := fun a =>
      if env.mapdata ≤ a ∧ a < env.mapdata + maxProcMapsFileSize then some ⟨readWrite, none⟩
      else s.attr a }

theorem alignUp_maxProcMapsFileSize :
    alignUp maxProcMapsFileSize pageSize = maxProcMapsFileSize := by decide

theorem xallocPages_buffer (hplaced : Placed env s) :
    xallocPages (sysMmap env.mapdata) maxProcMapsFileSize false s =
      .ok env.mapdata (withBuffer env s) := by
  have hfree : ∀ i < maxProcMapsFileSize, s.attr (env.mapdata + i) = none := fun i hi =>
    hplaced.free _ (Nat.le_add_right _ _) (Nat.add_lt_add_left hi _)
  have hmmap : sysMmap env.mapdata maxProcMapsFileSize readWrite s =
      .ok env.mapdata (withBuffer env s) := by
    rw [sysMmap, bind_of_ok (get_apply s), if_pos hfree]
    rfl
  rw [xallocPages, bind_of_ok (assertThat_of_true (by decide)), alignUp_maxProcMapsFileSize]
  exact (bind_of_ok hmmap).trans (bind_of_ok (assertThat_of_true hplaced.valid))

theorem xdeallocPages_buffer (hplaced : Placed env s) :
    xdeallocPages sysMunmap env.mapdata maxProcMapsFileSize (withBuffer env s) = .ok () s := by
  have hback : (fun a =>
      if env.mapdata ≤ a ∧ a < env.mapdata + maxProcMapsFileSize then none
      else (withBuffer env s).attr a) = s.attr := by
    funext a
    split
    case isTrue hin => exact (hplaced.free a hin.1 hin.2).symm
    case isFalse hout => exact if_neg hout
  have hmunmap : sysMunmap env.mapdata maxProcMapsFileSize (withBuffer env s) = .ok 0 s := by
    rw [sysMunmap, if_neg, bind_of_ok (modify_apply _ _)]
    · rw [hback]
      rfl
    · rintro (hpage | hzero)
      · exact hpage hplaced.page
      · exact absurd hzero (by decide)
  rw [xdeallocPages, bind_of_ok (assertThat_of_true hplaced.valid),
    alignUp_maxProcMapsFileSize, bind_of_ok hmunmap]
  rfl

/-- `patch_user_entry` from the entry of the map on. -/
def patchFound (env : Env) (r : MapsEntry) : Prog State Unit := do
  assertThat (r.start ≤ env.uentry) "(uintptr_t)(uentry) >= r.start"
  assertThat (env.uentry < r.end_) "(uintptr_t)(uentry) < r.end"
  if r.end_ ≤ (env.uentry + patchSz) % 2 ^ 32 then
    throw (.fatal "LOADER" ("You have a very strange executable: " ++
      "start address %p is at the end of its memory section\n"))
  xdeallocPages sysMunmap env.mapdata maxProcMapsFileSize
  let err ← sysMprotect r.start (sub32 r.end_ r.start) readWrite
  assertThat (err = 0) "err == 0"
  archPatchUserEntry env.archUserEntryE env.uentry r.start (sub32 r.end_ r.start) r.prot
  let err ← sysMprotect r.start (sub32 r.end_ r.start) r.prot
  assertThat (err = 0) "err == 0"

/-- The map is served, and its lines are the entries `es`. -/
structure Served (env : Env) (s : State) (es : List MapsEntry) : Prop where
  read : ∃ h, readSelfProcmap (env.maps s.attr) env.mapdata = .ok h ∧
    Yields (readMapsLine env.uninit) h es

theorem Served.find {es : List MapsEntry} (hserved : Served env s es) :
    ∃ h h', readSelfProcmap (env.maps s.attr) env.mapdata = .ok h ∧
      findInMapByAddr env.uninit h env.uentry =
        .ok ((es.find? fun e => e.start ≤ env.uentry ∧ env.uentry < e.end_).getD
          MapsEntry.invalid, h') := by
  obtain ⟨h, hread, hyields⟩ := hserved.read
  have hreset : resetMapHandler h = h := by
    rw [Checkpoint.Coverage.readSelfProcmap_ok hread]
    rfl
  obtain ⟨h', hfind⟩ := @findInMapByAddr_eq (fun _ => env.uninit) h es env.uentry
    (fun _ => hreset.symm ▸ hyields) 0
  exact ⟨h, h', hread, hfind⟩

theorem patchUserEntry_eq {es : List MapsEntry} (hplaced : Placed env s)
    (hserved : Served env (withBuffer env s) es) :
    patchUserEntry env s =
      patchFound env ((es.find? fun e => e.start ≤ env.uentry ∧ env.uentry < e.end_).getD
        MapsEntry.invalid) (withBuffer env s) := by
  obtain ⟨h, h', hread, hfind⟩ := hserved.find
  rw [patchUserEntry, bind_of_ok (xallocPages_buffer hplaced),
    bind_of_ok (assertThat_of_true (decide_eq_true hplaced.ne_zero)),
    bind_of_ok (get_apply _), bind_of_ok (ofExcept_ok_iff.mpr ⟨hread, rfl⟩),
    bind_of_ok (ofExcept_ok_iff.mpr ⟨hfind, rfl⟩)]
  rfl

theorem patchFound_invalid :
    patchFound env MapsEntry.invalid s = .error (.assertion "(uintptr_t)(uentry) < r.end") s := by
  have hstart : MapsEntry.invalid.start ≤ env.uentry := Nat.zero_le _
  have hend : ¬ env.uentry < MapsEntry.invalid.end_ := Nat.not_lt_zero _
  rw [patchFound, bind_of_ok (assertThat_of_true (decide_eq_true hstart))]
  exact bind_of_error (assertThat_of_false (decide_eq_false hend))

theorem patchFound_close (hlo : r.start ≤ env.uentry) (hhi : env.uentry < r.end_)
    (hclose : r.end_ ≤ (env.uentry + patchSz) % 2 ^ 32) :
    ∃ e, patchFound env r s = .error e s := by
  rw [patchFound, bind_of_ok (assertThat_of_true (decide_eq_true hlo)),
    bind_of_ok (assertThat_of_true (decide_eq_true hhi)), if_pos hclose]
  exact ⟨_, rfl⟩

theorem patchFound_room (hplaced : Placed env s) (hlo : r.start ≤ env.uentry)
    (hhi : env.uentry < r.end_) (hroom : ¬ r.end_ ≤ (env.uentry + patchSz) % 2 ^ 32) :
    patchFound env r (withBuffer env s) =
      (do
        let err ← sysMprotect r.start (sub32 r.end_ r.start) readWrite
        assertThat (err = 0) "err == 0"
        archPatchUserEntry env.archUserEntryE env.uentry r.start (sub32 r.end_ r.start) r.prot
        let err ← sysMprotect r.start (sub32 r.end_ r.start) r.prot
        assertThat (err = 0) "err == 0" : Prog State Unit) s := by
  rw [patchFound, bind_of_ok (assertThat_of_true (decide_eq_true hlo)),
    bind_of_ok (assertThat_of_true (decide_eq_true hhi)), if_neg hroom]
  exact bind_of_ok (xdeallocPages_buffer hplaced)

end Runs

end Snitchaser.UserEntry.Protection
