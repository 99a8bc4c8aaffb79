import Snitchaser.Checkpoint.RoundTrip
import Snitchaser.Proc.Truncated
/-!
# Whether a checkpoint has every mapping

`ckpt_meminfo` on the text the kernel serves.  If the first `read` returns all of
it, a run that gets to the end mark has saved every mapping.  If it returns less,
`ckpt_meminfo` does not notice, unless the text breaks off so early in a line that
the line cannot be parsed.
-/

namespace Snitchaser.Checkpoint.Coverage

open Snitchaser.Checkpoint.Model
open Snitchaser.Checkpoint.RoundTrip
open Snitchaser.Checkpoint.Sections
open Snitchaser.Defs
open Snitchaser.Lib.ByteMemory
open Snitchaser.Lib.Decode
open Snitchaser.Lib.Hoare
open Snitchaser.Lib.Program
open Snitchaser.Pages
open Snitchaser.Proc.Entry
open Snitchaser.Proc.Maps
open Snitchaser.Proc.RoundTrip (mapsText_cons offset_zero_lt stackMapping yields_mapsText)
open Snitchaser.Proc.Text
open Snitchaser.Proc.Truncated
open Snitchaser.Proc.Vsscanf (Str ch)

/-! ## Finished runs -/

section Runs

variable {ρ : Type} {m : MapsReader ρ} {k : Kernel} {mem : Memory} {s t : State}

/-- The loop ends only after it has read entries up to an invalid one. -/
theorem yields_of_ckptLoop {procmapPtr fuel : Nat} {h : ρ}
    (hrun : ckptLoop k mem m procmapPtr fuel h s = .ok () t) :
    ∃ rs, Yields m.readMapsLine h rs ∧ rs.length < fuel := by
  induction fuel generalizing h s with
  | zero => cases hrun
  | succ fuel ih =>
      rw [ckptLoop, bind_ok_iff] at hrun
      obtain ⟨⟨r, h'⟩, _, hline, hrest⟩ := hrun
      obtain ⟨hread, rfl⟩ := ofExcept_ok_iff.mp hline
      cases hvalid : r.valid with
      | false => exact ⟨[], .done hread hvalid, Nat.succ_pos fuel⟩
      | true =>
          have hmore : ∃ s', ckptLoop k mem m procmapPtr fuel h' s' = .ok () t := by
            simp only [hvalid, if_true] at hrest
            by_cases hown : r.start = procmapPtr
            · rw [if_pos hown] at hrest
              exact ⟨_, hrest⟩
            · rw [if_neg hown, bind_ok_iff] at hrest
              obtain ⟨_, s', _, hloop⟩ := hrest
              exact ⟨s', hloop⟩
          obtain ⟨s', hloop⟩ := hmore
          obtain ⟨rs, hyields, hlen⟩ := ih hloop
          exact ⟨r :: rs, .next hread hvalid hyields, Nat.succ_lt_succ hlen⟩

theorem yields_of_ckptMeminfo {fuel : Nat} (hrun : ckptMeminfo k mem m fuel s = .ok () t) :
    ∃ h rs, m.readSelfProcmap (procmapPtrOf k) = .ok h ∧ Yields m.readMapsLine h rs ∧
      rs.length < fuel := by
  simp only [ckptMeminfo, bind_ok_iff, assertThat_ok_iff, ofExcept_ok_iff] at hrun
  obtain ⟨g1, _, halloc, _, _, _, _, _, _, _, _, _, h, _, ⟨hread, _⟩, _, _, hloop, _⟩ := hrun
  obtain ⟨rfl, _, _⟩ := xallocPages_ok halloc
  obtain ⟨rs, hyields, hlen⟩ := yields_of_ckptLoop hloop
  exact ⟨h, rs, hread, hyields, hlen⟩

end Runs

/-! ## The buffer -/

section Buffer

variable {fd : Int} {text : Str} {n ptr : Nat}

/-- The buffer behind the text it holds: zeros. -/
def bufferOf (text : Str) (n : Nat) : Str :=
  text.take n ++ List.replicate (maxProcMapsFileSize - n) 0

theorem bufferOf_nul (text : List UInt8) (hn : n < maxProcMapsFileSize) :
    ∃ z, bufferOf text n = text.take n ++ 0 :: z := by
  obtain ⟨k, hk⟩ : ∃ k, maxProcMapsFileSize - n = k + 1 := ⟨maxProcMapsFileSize - n - 1, by omega⟩
  exact ⟨List.replicate k 0, by rw [bufferOf, hk, List.replicate_succ]⟩

theorem length_bufferOf (hle : n ≤ text.length) (hn : n < maxProcMapsFileSize) :
    (bufferOf text n).length = maxProcMapsFileSize := by
  rw [bufferOf, List.length_append, List.length_take_of_le hle, List.length_replicate]
  omega

theorem readSelfProcmap_ok {h : Handler} (hread : readSelfProcmap ⟨fd, text, n⟩ ptr = .ok h) :
    h = ⟨bufferOf text n, n, 0⟩ := by
  unfold readSelfProcmap initMapHandler check at hread
  by_cases hptr : ptr ≠ 0
  · rw [if_pos (decide_eq_true hptr), ok_bind] at hread
    split_ifs at hread
    · cases hread
      rfl
    · cases hread
  · rw [if_neg (by simpa using hptr)] at hread
    cases hread

theorem readSelfProcmap_eq (hfd : 0 ≤ fd) (hptr : ptr ≠ 0) (hpos : 0 < n)
    (hn : n < maxProcMapsFileSize) :
    readSelfProcmap ⟨fd, text, n⟩ ptr = .ok ⟨bufferOf text n, n, 0⟩ := by
  rw [readSelfProcmap, check, if_pos (decide_eq_true hptr), if_neg (not_lt.mpr hfd),
    if_neg hpos.ne', if_neg (not_le.mpr hn), initMapHandler, check, if_pos (decide_eq_true hpos)]
  rfl

end Buffer

/-! ## Sizes -/

section Sizes

variable {mem : Memory} {m : Mapping} {r : MapsEntry} {size : Nat}

/-- A mapping of a user process: not at address 0, and no larger than the part of
the address space that is not the kernel's. -/
structure UserMapping (m : Mapping) : Prop where
  start : m.start ≠ 0
  size : m.end_ - m.start ≤ 0xC0000000

/-- The largest write whose size no error number can be taken for. -/
def largestWrite : Nat := 2 ^ 32 - 4096

theorem length_le_of_resembles (h : Resembles size m r) (hsize : size ≤ maxProcMapsFileSize)
    (huser : UserMapping m) : 53 + (r.fn.getD []).length + ckptSzOf r ≤ largestWrite := by
  obtain ⟨offset, fn, rfl, hlen⟩ := h
  have hsz := ckptSzOf_le (r := { m.entry with offset := offset, fn := fn }) m.start_lt.le
    m.end_lt
  have huserSize := huser.size
  have hpage : pageSize = 4096 := rfl
  have hmax : maxProcMapsFileSize = 1048576 := rfl
  change 53 + (fn.getD []).length + _ ≤ 2 ^ 32 - 4096
  change _ ≤ m.end_ - m.start + pageSize at hsz
  omega

theorem entryOk_of_agrees (h : Agrees size m r) (hsize : size ≤ maxProcMapsFileSize)
    (huser : UserMapping m) : EntryOk r := by
  have hwrap : 53 + (r.fn.getD []).length + ckptSzOf r < 2 ^ 32 :=
    (length_le_of_resembles h.resembles hsize huser).trans_lt (by decide)
  obtain ⟨fn, rfl, _⟩ := h
  refine ⟨rfl, m.start_lt, m.end_lt, ?_, m.offset_lt, hwrap⟩
  change m.prot < 2 ^ 32
  unfold Mapping.prot
  cases m.read <;> cases m.write <;> cases m.exec <;> decide

end Sizes

/-! ## Coverage -/

section Coverage

variable {k : Kernel} {mem : Memory} {ms : List Mapping} {rs : List MapsEntry} {size n : Nat}

/-- `record` is a memory segment that holds the mapping, under some name. -/
def SavesMapping (mem : Memory) (m : Mapping) (record : Record) : Prop :=
  ∃ fn, Saves mem { m.entry with fn := fn } record

/-- The stream is one segment for each mapping but the one at `procmapPtr`, and the end
record. -/
def Covers (mem : Memory) (procmapPtr : Nat) (ms : List Mapping) (stream : List UInt8) : Prop :=
  ∃ segs, decodeUntil isEndRecord takeRecord (stream.length + 1) stream = some (segs, []) ∧
    List.Forall₂ (SavesMapping mem) (ms.filter fun m => m.start ≠ procmapPtr) segs

theorem start_of_agrees {m : Mapping} {r : MapsEntry} (h : Agrees size m r) :
    r.start = m.start := by
  obtain ⟨fn, rfl, _⟩ := h
  rfl

theorem savesMapping_segments {procmapPtr : Nat} (h : List.Forall₂ (Agrees size) ms rs)
    (hsize : size ≤ maxProcMapsFileSize) (huser : ∀ m ∈ ms, UserMapping m) :
    List.Forall₂ (SavesMapping mem) (ms.filter fun m => m.start ≠ procmapPtr)
      (segments mem procmapPtr rs) := by
  have hboth : List.Forall₂ (fun m r => UserMapping m ∧ Agrees size m r) ms rs :=
    (List.forall₂_and_left ms rs).mpr ⟨huser, h⟩
  have hfilter := List.rel_filter (p := fun m => decide (m.start ≠ procmapPtr))
    (q := fun r => decide (r.start ≠ procmapPtr)) (fun m r hmr => by
      simp only [start_of_agrees hmr.2]) hboth
  rw [segments, List.forall₂_map_right_iff]
  refine hfilter.imp ?_
  intro m r hmr
  have hok := entryOk_of_agrees hmr.2 hsize hmr.1
  obtain ⟨fn, rfl, _⟩ := hmr.2
  exact ⟨fn, saves_memseg hok⟩

theorem length_segments_le (mem : Memory) (procmapPtr : Nat) (huser : ∀ m ∈ ms, UserMapping m)
    (h : ∀ r ∈ rs, ∃ m ∈ ms, Resembles maxProcMapsFileSize m r) :
    ∀ record ∈ segments mem procmapPtr rs, record.payload.length ≤ largestWrite := by
  intro record hrecord
  obtain ⟨r, hr, rfl⟩ := List.mem_map.mp hrecord
  obtain ⟨m, hm, hmr⟩ := h r (List.mem_filter.mp hr).1
  rw [length_memseg_payload]
  exact length_le_of_resembles hmr le_rfl (huser m hm)

/-- A run that was given the whole text has saved every mapping. -/
theorem covers_of_run {fd : Int} {uninit : Nat → Int} {fuel : Nat} {t : State}
    (hpos : 0 < (mapsText ms).length) (hsize : (mapsText ms).length < maxProcMapsFileSize)
    (huser : ∀ m ∈ ms, UserMapping m)
    (hrun : ckptMeminfo k mem (mapsReader uninit ⟨fd, mapsText ms, (mapsText ms).length⟩) fuel
      ⟨[]⟩ = .ok () t) : Covers mem (procmapPtrOf k) ms t.stream := by
  obtain ⟨h, rs, hread, hyields, hfuel⟩ := yields_of_ckptMeminfo hrun
  obtain ⟨z, hz⟩ := bufferOf_nul (mapsText ms) hsize
  have hlen := length_bufferOf le_rfl hsize
  rw [List.take_length] at hz
  have hagrees : List.Forall₂ (Agrees maxProcMapsFileSize) ms rs := by
    rw [readSelfProcmap_ok hread, hz] at hyields
    rw [← hlen, hz]
    exact agrees_of_yields hpos hyields
  have hentries : ∀ r ∈ rs, EntryOk r := by
    intro r hr
    obtain ⟨m, hm, hmr⟩ := exists_of_forall₂ hagrees hr
    exact entryOk_of_agrees hmr le_rfl (huser m hm)
  have hw : Allows k largestWrite fun _ => True :=
    ⟨by decide, by decide, Or.inr ⟨by decide, fun _ => trivial⟩⟩
  have hlen := length_segments_le mem (procmapPtrOf k) huser fun r hr => by
    obtain ⟨m, hm, hmr⟩ := exists_of_forall₂ hagrees hr
    exact ⟨m, hm, hmr.resembles⟩
  have hstream := ((outputs_ckptMeminfo hw hread hyields hfuel hlen
    fun _ _ => trivial).ends ⟨[]⟩).of_ok hrun
  refine ⟨segments mem (procmapPtrOf k) rs, ?_, savesMapping_segments hagrees le_rfl huser⟩
  rw [hstream, List.nil_append]
  exact decodeUntil_records (reads_segments hentries)

theorem not_run_of_cutEarly {fd : Int} {uninit : Nat → Int} {fuel : Nat} {t : State}
    (hle : n ≤ (mapsText ms).length) (hsize : (mapsText ms).length < maxProcMapsFileSize)
    (hcut : CutEarly ms n) :
    ckptMeminfo k mem (mapsReader uninit ⟨fd, mapsText ms, n⟩) fuel ⟨[]⟩ ≠ .ok () t := by
  intro hrun
  obtain ⟨h, rs, hread, hyields, _⟩ := yields_of_ckptMeminfo hrun
  obtain ⟨z, hz⟩ := bufferOf_nul (mapsText ms) (hle.trans_lt hsize)
  rw [readSelfProcmap_ok hread, hz] at hyields
  exact not_yields_cutEarly hle hcut hyields

theorem saveable_of_resembles {m : Mapping} {r : MapsEntry} (h : Resembles size m r)
    (huser : UserMapping m) : Saveable grantingKernel r := by
  obtain ⟨offset, fn, rfl, _⟩ := h
  exact Or.inr ⟨huser.start, fun _ => ⟨rfl, rfl⟩⟩

/-- A buffer that ends behind a line with a name holds the entries of its lines. -/
theorem yields_bufferOf (uninit : Nat → Int) (rest : Str)
    (hlast : ∀ m, ms.getLast? = some m → ∃ name, m.name = some name)
    (hpos : 0 < (mapsText ms).length) (hn : (mapsText ms).length < maxProcMapsFileSize) :
    Yields (readMapsLine uninit)
      ⟨bufferOf (mapsText ms ++ rest) (mapsText ms).length, (mapsText ms).length, 0⟩
      (ms.map Mapping.entry) := by
  obtain ⟨z, hz⟩ := bufferOf_nul (mapsText ms ++ rest) hn
  rw [hz, List.take_left]
  have hyields : Yields (readMapsLine uninit)
      ⟨[] ++ (mapsText ms ++ 0 :: z), (mapsText ms).length, ([] : Str).length⟩
      (ms.map Mapping.entry) := yields_mapsText hlast rfl hpos
  exact hyields

/-- Nothing stops a run on entries that resemble mappings. -/
theorem exists_run {uninit : Nat → Int} {fd : Int} (mem : Memory) (hfd : 0 ≤ fd)
    (hpos : 0 < n)
    (hle : n ≤ (mapsText ms).length) (hn : n < maxProcMapsFileSize)
    (huser : ∀ m ∈ ms, UserMapping m)
    (hyields : Yields (readMapsLine uninit) ⟨bufferOf (mapsText ms) n, n, 0⟩ rs)
    (hresembles : ∀ r ∈ rs, ∃ m ∈ ms, Resembles (bufferOf (mapsText ms) n).length m r) :
    ∃ t, ckptMeminfo grantingKernel mem (mapsReader uninit ⟨fd, mapsText ms, n⟩) (rs.length + 1)
        ⟨[]⟩ = .ok () t ∧
      t.stream = (segments mem (procmapPtrOf grantingKernel) rs ++ [endRecord]).flatMap
        Record.bytes := by
  rw [length_bufferOf hle hn] at hresembles
  have hread : readSelfProcmap ⟨fd, mapsText ms, n⟩ (procmapPtrOf grantingKernel) = _ :=
    readSelfProcmap_eq hfd (by decide) hpos hn
  have hw : Allows grantingKernel largestWrite fun _ => False :=
    ⟨by decide, by decide, Or.inl (complete_grantingKernel _)⟩
  have hnostop : ¬ (¬ PagesOk grantingKernel ∨
      Unsaveable grantingKernel (procmapPtrOf grantingKernel) rs) := by
    rintro (hnot | ⟨r, hr, _, hnot⟩)
    · exact hnot pagesOk_grantingKernel
    · obtain ⟨m, hm, hmr⟩ := hresembles r hr
      exact hnot (saveable_of_resembles hmr (huser m hm))
  have hout := outputs_ckptMeminfo (m := mapsReader uninit ⟨fd, mapsText ms, n⟩) hw hread hyields
    (Nat.lt_succ_self _) (length_segments_le mem _ huser hresembles)
    fun hstop => absurd hstop hnostop
  obtain ⟨_, t, hrun, hstream⟩ := (hout.ends ⟨[]⟩).returns
  exact ⟨t, hrun, hstream⟩

/-- Nor one that was given a part of the text, unless it breaks off early in a line. -/
theorem exists_run_of_cut (mem : Memory) (hpos : 0 < n) (hlt : n < (mapsText ms).length)
    (hsize : (mapsText ms).length < maxProcMapsFileSize) (huser : ∀ m ∈ ms, UserMapping m)
    (hcut : ¬ CutEarly ms n) :
    ∃ fuel t, ckptMeminfo grantingKernel mem
      (mapsReader (fun _ => 1) ⟨0, mapsText ms, n⟩) fuel ⟨[]⟩ = .ok () t := by
  have hn := hlt.trans hsize
  obtain ⟨z, hz⟩ := bufferOf_nul (mapsText ms) hn
  obtain ⟨rs, hyields, hresembles⟩ := exists_yields_cut (z := z) hpos hlt hcut
  rw [← hz] at hyields hresembles
  obtain ⟨t, hrun, _⟩ := exists_run mem le_rfl hpos hlt.le hn huser hyields hresembles
  exact ⟨_, t, hrun⟩

/-- When the first `read` returns `n` bytes of the map, every finished run has seen all
of it and saved every mapping, exactly if `n` is all of it or no run finishes. -/
theorem checkpoint_covers_every_mapping (hpos : 0 < n) (hle : n ≤ (mapsText ms).length)
    (hsize : (mapsText ms).length < maxProcMapsFileSize) (huser : ∀ m ∈ ms, UserMapping m) :
    (∀ k mem fd uninit fuel t,
      ckptMeminfo k mem (mapsReader uninit ⟨fd, mapsText ms, n⟩) fuel ⟨[]⟩ = .ok () t →
        n = (mapsText ms).length ∧ Covers mem (procmapPtrOf k) ms t.stream) ↔
      n = (mapsText ms).length ∨ CutEarly ms n := by
  constructor
  · intro hcovers
    by_contra hnot
    rw [not_or] at hnot
    obtain ⟨fuel, t, hrun⟩ :=
      exists_run_of_cut (fun _ => 0) hpos (hle.lt_of_ne hnot.1) hsize huser hnot.2
    exact hnot.1 (hcovers _ _ _ _ _ _ hrun).1
  · rintro (rfl | hcut) k mem fd uninit fuel t hrun
    · exact ⟨rfl, covers_of_run hpos hsize huser hrun⟩
    · exact absurd hrun (not_run_of_cutEarly hle hsize hcut)

/-- A page of a library. -/
def libraryMapping : Mapping where
  start := 0xB7000000
  end_ := 0xB7001000
  read := true
  write := false
  exec := true
  shared := false
  offset := 0
  major := 8
  minor := 1
  inode := 1234
  name := some (ch '/' :: "lib/libc.so".toList.map ch)
  start_lt := by decide
  end_lt := by decide
  offset_lt := offset_zero_lt
  name_ok := by
    intro str h
    cases h
    exact ⟨Or.inl rfl, by decide, by decide, by decide⟩

theorem userMapping_library_stack : ∀ m ∈ [libraryMapping, stackMapping], UserMapping m := by
  intro m hm
  simp only [List.mem_cons, List.not_mem_nil, or_false] at hm
  rcases hm with rfl | rfl
  · exact ⟨by decide, by decide⟩
  · exact ⟨by decide, by decide⟩

theorem agrees_entry_library_stack : ∀ m ∈ [libraryMapping, stackMapping],
    Agrees maxProcMapsFileSize m m.entry := by
  intro m hm
  simp only [List.mem_cons, List.not_mem_nil, or_false] at hm
  rcases hm with rfl | rfl
  · exact ⟨_, rfl, by decide⟩
  · exact ⟨_, rfl, by decide⟩

theorem checkpoint_covers_library_stack : ∃ t,
    ckptMeminfo grantingKernel (fun _ => 0) (mapsReader (fun _ => 0)
      ⟨3, mapsText [libraryMapping, stackMapping],
        (mapsText [libraryMapping, stackMapping]).length⟩) 3 ⟨[]⟩ = .ok () t ∧
    Covers (fun _ => 0) (procmapPtrOf grantingKernel) [libraryMapping, stackMapping]
      t.stream := by
  have hpos : 0 < (mapsText [libraryMapping, stackMapping]).length := by decide +kernel
  have hsize : (mapsText [libraryMapping, stackMapping]).length < maxProcMapsFileSize := by
    decide +kernel
  have hcovers := (checkpoint_covers_every_mapping hpos le_rfl hsize
    userMapping_library_stack).mpr (Or.inl rfl)
  have hlast : ∀ m, [libraryMapping, stackMapping].getLast? = some m →
      ∃ name, m.name = some name := by
    intro m hm
    cases hm
    exact ⟨_, rfl⟩
  have hyields := yields_bufferOf (fun _ => 0) [] hlast hpos hsize
  rw [List.append_nil] at hyields
  have hresembles : ∀ r ∈ [libraryMapping, stackMapping].map Mapping.entry,
      ∃ m ∈ [libraryMapping, stackMapping],
        Resembles (bufferOf (mapsText [libraryMapping, stackMapping])
          (mapsText [libraryMapping, stackMapping]).length).length m r := by
    intro r hr
    obtain ⟨m, hm, rfl⟩ := List.mem_map.mp hr
    rw [length_bufferOf le_rfl hsize]
    exact ⟨m, hm, (agrees_entry_library_stack m hm).resembles⟩
  obtain ⟨t, hrun, _⟩ := exists_run (fun _ => 0) (show (0 : Int) ≤ 3 by decide) hpos le_rfl hsize
    userMapping_library_stack hyields hresembles
  exact ⟨t, hrun, (hcovers _ _ _ _ _ t hrun).2⟩

/-- The first `read` returns the first of two lines: the run finishes with one
segment. -/
theorem second_mapping_lost : ∃ t,
    ckptMeminfo grantingKernel (fun _ => 0) (mapsReader (fun _ => 0)
      ⟨3, mapsText [libraryMapping, stackMapping], libraryMapping.line.length⟩) 2 ⟨[]⟩ =
        .ok () t ∧
    decodeUntil isEndRecord takeRecord (t.stream.length + 1) t.stream =
      some ([memseg (fun _ => 0) libraryMapping.entry], []) ∧
    ¬ Covers (fun _ => 0) (procmapPtrOf grantingKernel) [libraryMapping, stackMapping]
      t.stream := by
  have hline : mapsText [libraryMapping] = libraryMapping.line := List.flatMap_singleton _ _
  have hpos : 0 < libraryMapping.line.length := by decide +kernel
  have hn : libraryMapping.line.length < maxProcMapsFileSize := by decide +kernel
  have hle : libraryMapping.line.length ≤ (mapsText [libraryMapping, stackMapping]).length := by
    rw [mapsText_cons, List.length_append]
    exact Nat.le_add_right _ _
  have hyields : Yields (readMapsLine fun _ => 0)
      ⟨bufferOf (mapsText [libraryMapping, stackMapping]) libraryMapping.line.length,
        libraryMapping.line.length, 0⟩ [libraryMapping.entry] := by
    have hlast : ∀ m, [libraryMapping].getLast? = some m → ∃ name, m.name = some name := by
      intro m hm
      cases hm
      exact ⟨_, rfl⟩
    rw [mapsText_cons, ← hline]
    rw [← hline] at hpos hn
    exact yields_bufferOf _ _ hlast hpos hn
  have hagrees := agrees_entry_library_stack libraryMapping (by simp)
  have hresembles : ∀ r ∈ [libraryMapping.entry], ∃ m ∈ [libraryMapping, stackMapping],
      Resembles (bufferOf (mapsText [libraryMapping, stackMapping])
        libraryMapping.line.length).length m r := by
    intro r hr
    rw [List.mem_singleton.mp hr, length_bufferOf hle hn]
    exact ⟨libraryMapping, by simp, hagrees.resembles⟩
  obtain ⟨t, hrun, hstream⟩ := exists_run (fun _ => 0) (show (0 : Int) ≤ 3 by decide) hpos hle hn
    userMapping_library_stack hyields hresembles
  have hdecode : decodeUntil isEndRecord takeRecord (t.stream.length + 1) t.stream =
      some ([memseg (fun _ => 0) libraryMapping.entry], []) := by
    rw [hstream]
    apply decodeUntil_records
    apply reads_segments
    intro r hr
    rw [List.mem_singleton.mp hr]
    exact entryOk_of_agrees hagrees le_rfl (userMapping_library_stack _ (by simp))
  refine ⟨t, hrun, hdecode, ?_⟩
  rintro ⟨segs, hsegs, hforall⟩
  rw [hdecode] at hsegs
  cases hsegs
  exact absurd hforall.length_eq (by decide)

end Coverage

end Snitchaser.Checkpoint.Coverage
