import Snitchaser.Checkpoint.RoundTrip
/-!
# How much of a mapping is saved

The contents of an unnamed mapping are saved as a whole, those of a device not at
all, and those of another file as far as the file goes: that is what `ckpt_memseg`
is to do.  `get_aval_size` computes how far the file goes and then returns the size
of the mapping, and a device is told by the first four bytes of its path.
-/

namespace Snitchaser.Checkpoint.Contents

open Snitchaser.Checkpoint.Model
open Snitchaser.Checkpoint.RoundTrip
open Snitchaser.Checkpoint.Sections
open Snitchaser.Defs
open Snitchaser.Lib.ByteMemory
open Snitchaser.Lib.Hoare
open Snitchaser.Lib.Program
open Snitchaser.Proc.Entry

/-! ## What is to be saved -/

/-- The path lies in the directory `/dev/`. -/
def InDev (r : MapsEntry) : Prop := ∃ name, r.fn = some ([47, 100, 101, 118, 47] ++ name)

/-- A mapping of the 3 GiB a process has for itself; a name is not empty. -/
structure ValidEntry (r : MapsEntry) : Prop where
  valid : r.valid = true
  nonempty : r.start < r.end_
  below : r.end_ ≤ 0xC0000000
  name : r.fn ≠ some []
  nameLength : (r.fn.getD []).length < 2 ^ 29

/-- The size of the rest of the file from `offset` on, in whole pages. -/
def pagesLeft (stSize offset : Nat) : Nat := (stSize - offset + 4095) / 4096 * 4096

/-- `n` bytes of a mapping are to be saved, if its file has `stSize` bytes. -/
structure RightSize (r : MapsEntry) (stSize n : Nat) : Prop where
  internal : isInternal r = true → n = r.end_ - r.start
  device : n = 0 ↔ InDev r
  file : isInternal r = false → ¬ InDev r → r.offset < stSize →
    n = min (r.end_ - r.start) (pagesLeft stSize r.offset)

/-- The record of a segment with `n` bytes of the mapping. -/
def segmentWith (mem : Memory) (r : MapsEntry) (finfo : MapFileInfo) (n : Nat) : Record :=
  ⟨CkptMark.sectMemseg.val, [⟨CkptMark.subsectFn.val, fnBuffer r⟩,
    ⟨CkptMark.subsectFinfo.val, finfo.bytes⟩,
    (⟨CkptMark.subsectFdata.val, readBytes mem r.start n⟩ : Record)].flatMap Record.bytes⟩

/-- No segment of the mapping is larger: the name and the other subsections, and the
mapping in whole pages. -/
def segmentBound (r : MapsEntry) : Nat := 53 + (r.fn.getD []).length + (r.end_ - r.start + pageSize)

/-- With a kernel that lets `ckpt_memseg` read the mapping and write it, the right part
of it is written. -/
def SavesRight (r : MapsEntry) (stSize : Nat) : Prop :=
  ∀ k mem s, (∀ addr len prot, k.mprotect addr len prot = 0) →
    k.stat64 (fnBuffer r) = some stSize → Complete k (segmentBound r) →
    ∃ t finfo n, ckptMemseg k mem r s = .ok () t ∧
      t.stream = s.stream ++ (segmentWith mem r finfo n).bytes ∧ RightSize r stSize n

/-! ## What is saved -/

section Saved

variable {k : Kernel} {mem : Memory} {r : MapsEntry} {s : State} {stSize : Nat}

theorem sub32_eq (h : ValidEntry r) : sub32 r.end_ r.start = r.end_ - r.start := by
  have hbelow := h.below
  exact sub32_of_le (by omega) h.nonempty.le

theorem ckptSzOf_file (h : ValidEntry r) (hdev : isDevFile r = false)
    (hinternal : isInternal r = false) :
    ckptSzOf r = (r.end_ - r.start + 4095) / 4096 * 4096 := by
  have hbelow := h.below
  have hnonempty := h.nonempty
  rw [ckptSzOf, if_neg (by simp [hdev]), if_neg (by simp [hinternal]), sub32_eq h]
  exact alignUp_page (by omega)

theorem length_le_segmentBound (mem : Memory) (h : ValidEntry r) :
    (memseg mem r).payload.length ≤ segmentBound r := by
  have hbelow := h.below
  have hsz := ckptSzOf_le h.nonempty.le (by omega : r.end_ < 2 ^ 32)
  rw [length_memseg_payload, segmentBound]
  omega

theorem allows_of_complete (h : ValidEntry r) (hwrite : Complete k (segmentBound r)) :
    Allows k (segmentBound r) fun _ => False := by
  have hbelow := h.below
  have hname := h.nameLength
  have hpage : pageSize = 4096 := rfl
  refine ⟨?_, ?_, Or.inl hwrite⟩
  · unfold segmentBound
    omega
  · unfold segmentBound
    omega

theorem memseg_eq : memseg mem r = segmentWith mem r (finfoOf r) (ckptSzOf r) := rfl

/-- The stream tells how many bytes were saved. -/
theorem eq_of_segmentWith {finfo finfo' : MapFileInfo} {n n' : Nat} {pre : List UInt8}
    (h : pre ++ (segmentWith mem r finfo n).bytes = pre ++ (segmentWith mem r finfo' n').bytes) :
    n = n' := by
  have hlen := congrArg List.length (List.append_cancel_left h)
  simp only [segmentWith, length_bytes, List.flatMap_cons, List.flatMap_nil, List.length_append,
    length_finfo, length_readBytes] at hlen
  omega

theorem exists_run (mem : Memory) (s : State) (h : ValidEntry r)
    (hstart : isDevFile r = false → r.start ≠ 0)
    (hk : ∀ addr len prot, k.mprotect addr len prot = 0) (hwrite : Complete k (segmentBound r)) :
    ∃ t, ckptMemseg k mem r s = .ok () t ∧ t.stream = s.stream ++ (memseg mem r).bytes := by
  have hsave : Saveable k r := by
    cases hdev : isDevFile r with
    | true => exact Or.inl hdev
    | false => exact Or.inr ⟨hstart hdev, fun _ => ⟨hk _ _ _, hk _ _ _⟩⟩
  have hout : Outputs State.stream (ckptMemseg k mem r) (memseg mem r).bytes fun _ => False :=
    outputs_ckptMemseg (allows_of_complete h hwrite) h.valid (length_le_segmentBound mem h)
      fun hnot => absurd hsave hnot
  obtain ⟨_, t, hrun, hstream⟩ := (hout.ends s).returns
  exact ⟨t, hrun, hstream⟩

/-- Nothing is written from a null pointer. -/
theorem writeMemseg_null {n : Nat} {t : State} (hstart : r.start = 0) (hn : n ≠ 0) :
    writeMemseg k mem r n s ≠ .ok () t := by
  intro hrun
  simp only [writeMemseg, writeSectionSg, List.forM_cons, bind_ok_iff] at hrun
  obtain ⟨_, _, _, _, _, _, _, _, _, _, _, _, _, u, hdata, _⟩ := hrun
  obtain ⟨_, _, _, hwrite⟩ := bind_ok_iff.mp hdata
  rw [sgFdata, writeto, if_neg hn, hstart] at hwrite
  obtain ⟨_, _, hassert, _⟩ := bind_ok_iff.mp hwrite
  exact absurd (assertThat_ok_iff.mp hassert).1 (by simp [Ptr.isNull])

theorem ckptMemseg_null {t : State} (h : ValidEntry r) (hdev : isDevFile r = false)
    (hstart : r.start = 0) : ckptMemseg k mem r s ≠ .ok () t := by
  intro hrun
  have hnonempty := h.nonempty
  obtain ⟨_, _, _, hrest⟩ := bind_ok_iff.mp hrun
  rw [if_neg (by simp [hdev])] at hrest
  obtain ⟨_, _, _, hrest⟩ := bind_ok_iff.mp hrest
  obtain ⟨_, _, hcontents, _⟩ := bind_ok_iff.mp hrest
  unfold ckptContents at hcontents
  split_ifs at hcontents with hinternal
  · refine writeMemseg_null hstart ?_ hcontents
    rw [sub32_eq h]
    omega
  · obtain ⟨_, _, _, hwrite⟩ := bind_ok_iff.mp hcontents
    have hsz := ckptSzOf_file h hdev (by simpa using hinternal)
    refine writeMemseg_null hstart ?_ hwrite
    rw [getAvalSize_eq]
    rw [ckptSzOf, if_neg (by simp [hdev]), if_neg hinternal] at hsz
    rw [hsz]
    omega

end Saved

/-! ## When they agree -/

section Agree

variable {r : MapsEntry} {stSize : Nat}

/-- A path that starts like that of a device is one, and another mapping does not start
at address zero and, if it is of a file, is whole pages none of which is behind the end
of the file. -/
def Sound (r : MapsEntry) (stSize : Nat) : Prop :=
  (isDevFile r = true → InDev r) ∧
    (isDevFile r = false → r.start ≠ 0 ∧ (isInternal r = false → r.offset < stSize →
      4096 ∣ r.end_ - r.start ∧ r.end_ - r.start ≤ pagesLeft stSize r.offset))

theorem isDevFile_of_inDev (h : InDev r) : isDevFile r = true := by
  obtain ⟨name, hname⟩ := h
  rw [isDevFile, hname]
  rfl

theorem not_internal_of_isDevFile (h : isDevFile r = true) : isInternal r = false := by
  unfold isDevFile at h
  cases hfn : r.fn with
  | none => simp [hfn] at h
  | some fn =>
      cases fn with
      | nil => simp [hfn] at h
      | cons c fn =>
          simp only [hfn, Option.any_some, List.take_succ_cons, beq_iff_eq, List.cons.injEq] at h
          simp [isInternal, hfn, h.1]

theorem rightSize_iff (h : ValidEntry r) :
    RightSize r stSize (ckptSzOf r) ↔ (isDevFile r = true → InDev r) ∧
      (isDevFile r = false → isInternal r = false → r.offset < stSize →
        4096 ∣ r.end_ - r.start ∧ r.end_ - r.start ≤ pagesLeft stSize r.offset) := by
  have hnonempty := h.nonempty
  -- rounded up to pages, a size is no more than itself only if it is whole pages
  have hpages : (r.end_ - r.start + 4095) / 4096 * 4096 =
      min (r.end_ - r.start) (pagesLeft stSize r.offset) ↔
        4096 ∣ r.end_ - r.start ∧ r.end_ - r.start ≤ pagesLeft stSize r.offset := by
    generalize r.end_ - r.start = size, pagesLeft stSize r.offset = left
    omega
  cases hdev : isDevFile r with
  | true =>
      have hsz : ckptSzOf r = 0 := if_pos hdev
      have hinternal := not_internal_of_isDevFile hdev
      constructor
      · intro hright
        exact ⟨fun _ => hright.device.mp hsz, fun hfalse => Bool.noConfusion hfalse⟩
      · intro hsound
        have hin := hsound.1 rfl
        refine ⟨fun htrue => ?_, iff_of_true hsz hin, fun _ hnot => absurd hin hnot⟩
        rw [hinternal] at htrue
        cases htrue
  | false =>
      have hnot : ¬ InDev r := by
        intro hin
        rw [isDevFile_of_inDev hin] at hdev
        cases hdev
      cases hinternal : isInternal r with
      | true =>
          have hsz : ckptSzOf r = r.end_ - r.start := by
            rw [ckptSzOf, if_neg (by simp [hdev]), if_pos hinternal, sub32_eq h]
          refine iff_of_true ⟨fun _ => hsz, iff_of_false (by omega) hnot, fun hfalse => ?_⟩
            ⟨fun htrue => Bool.noConfusion htrue, fun _ hfalse => Bool.noConfusion hfalse⟩
          rw [hinternal] at hfalse
          cases hfalse
      | false =>
          have hsz := ckptSzOf_file h hdev hinternal
          rw [hsz]
          constructor
          · intro hright
            exact ⟨fun htrue => Bool.noConfusion htrue, fun _ _ hoffset =>
              hpages.mp (hright.file hinternal hnot hoffset)⟩
          · intro hsound
            refine ⟨fun htrue => ?_, iff_of_false (by omega) hnot,
              fun _ _ hoffset => hpages.mpr (hsound.2 rfl rfl hoffset)⟩
            rw [hinternal] at htrue
            cases htrue

/-- A kernel that grants everything and knows the size of every file. -/
def sizedKernel (stSize : Nat) : Kernel := { grantingKernel with stat64 := fun _ => some stSize }

theorem sound_of_savesRight (h : ValidEntry r) (hsaves : SavesRight r stSize) :
    Sound r stSize := by
  obtain ⟨t, finfo, n, hrun, hstream, hright⟩ :=
    hsaves (sizedKernel stSize) (fun _ => 0) ⟨[]⟩ (fun _ _ _ => rfl) rfl (fun _ _ _ => rfl)
  have hstart : isDevFile r = false → r.start ≠ 0 := by
    intro hdev hzero
    exact ckptMemseg_null h hdev hzero hrun
  obtain ⟨t', hrun', hstream'⟩ := exists_run (fun _ => 0) ⟨[]⟩ h hstart
    (fun _ _ _ => (rfl : (sizedKernel stSize).mprotect _ _ _ = 0)) (fun _ _ _ => rfl)
  rw [hrun] at hrun'
  cases hrun'
  rw [hstream, memseg_eq] at hstream'
  obtain rfl := eq_of_segmentWith hstream'
  obtain ⟨hdev, hfile⟩ := (rightSize_iff h).mp hright
  exact ⟨hdev, fun hnot => ⟨hstart hnot, hfile hnot⟩⟩

theorem savesRight_of_sound (h : ValidEntry r) (hsound : Sound r stSize) :
    SavesRight r stSize := by
  intro k mem s hk _ hwrite
  obtain ⟨t, hrun, hstream⟩ := exists_run mem s h (fun hdev => (hsound.2 hdev).1) hk hwrite
  refine ⟨t, finfoOf r, ckptSzOf r, hrun, hstream, (rightSize_iff h).mpr ⟨hsound.1, ?_⟩⟩
  intro hdev
  exact (hsound.2 hdev).2

/-- `ckpt_memseg` saves what it is to save of a mapping exactly if the mapping is
`Sound`. -/
theorem saves_right_iff (h : ValidEntry r) (stSize : Nat) :
    SavesRight r stSize ↔ Sound r stSize :=
  ⟨sound_of_savesRight h, savesRight_of_sound h⟩

end Agree

/-- Two pages of the file `/a`. -/
def twoPages : MapsEntry := ⟨true, 0x10000, 0x12000, protRead, 0, some [47, 97]⟩

theorem validEntry_twoPages : ValidEntry twoPages :=
  ⟨rfl, by decide, by decide, by decide, by decide⟩

theorem saves_right_two_pages : SavesRight twoPages 0x1800 :=
  (saves_right_iff validEntry_twoPages 0x1800).mpr
    ⟨fun hdev => absurd hdev (by decide), fun _ => ⟨by decide, fun _ _ => by decide⟩⟩

/-- If the file ends in the first page, the second is saved all the same. -/
theorem second_page_behind_file : ValidEntry twoPages ∧ ¬ SavesRight twoPages 100 := by
  refine ⟨validEntry_twoPages, fun hsaves => ?_⟩
  obtain ⟨_, hfile⟩ := sound_of_savesRight validEntry_twoPages hsaves
  exact absurd ((hfile (by decide)).2 (by decide) (by decide)) (by decide)

end Snitchaser.Checkpoint.Contents
