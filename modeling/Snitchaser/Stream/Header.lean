import Snitchaser.Stream.Logger
/-!
# The header of a log file

`init_logger` writes the header and gives up if it cannot open the file;
`flush_logger` opens the file for itself, and creates it if need be.  A log whose first
open failed and whose later ones did not begins with a block.
-/

namespace Snitchaser.Stream.Header

open Snitchaser.Defs
open Snitchaser.Lib.Buffered
open Snitchaser.Lib.Decode
open Snitchaser.Lib.Hoare
open Snitchaser.Lib.LittleEndian
open Snitchaser.Lib.Program
open Snitchaser.Stream.Bigbuffer (decompressFile decompressFile_blocks)
open Snitchaser.Stream.Compression (Lzo IsSegment blocksOf compFileHeader literalLzo)
open Snitchaser.Stream.Logger

/-! ## Reading a log -/

/-- A decoder that checks the header first. -/
def decodeLog (lzo : Lzo) (file : List UInt8) : Option (List UInt8) :=
  if file.take compFileHeader.length = compFileHeader then
    decompressFile lzo (file.drop compFileHeader.length)
  else
    none

/-- The header, and blocks as `flush_small_buffer` makes them. -/
structure WellFormed (lzo : Lzo) (file : List UInt8) : Prop where
  blocks : ∃ segs, (∀ seg ∈ segs, IsSegment seg) ∧ file = compFileHeader ++ blocksOf lzo segs

theorem WellFormed.accepted {lzo : Lzo} {file : List UInt8} (h : WellFormed lzo file) :
    (decodeLog lzo file).isSome = true := by
  obtain ⟨segs, hsegs, rfl⟩ := h.blocks
  rw [decodeLog, List.take_left, if_pos rfl, List.drop_left, decompressFile_blocks hsegs]
  rfl

/-- A block does not look like the header. -/
theorem not_accepted_blocks (lzo : Lzo) (seg : List UInt8) (segs : List (List UInt8)) :
    decodeLog lzo (blocksOf lzo (seg :: segs)) = none := by
  have hfirst : (blocksOf lzo (seg :: segs)).head? = some 2 := rfl
  have hheader : compFileHeader.head? = some 83 := by decide
  apply if_neg
  intro htake
  have hhead := congrArg List.head? htake
  rw [List.head?_take, if_neg (by decide), hfirst, hheader] at hhead
  exact absurd hhead (by decide)

/-! ## A log without an open file -/

section Spec

variable {k : Kernel} {lzo : Lzo} {startAddr : Nat}

theorem ends_initLogger_failed {szFn : Nat} {s : State} (hfailed : k.openFile s.opens < 0) :
    Ends (initLogger k startAddr szFn) s
      (fun _ t => Logged k lzo startAddr s.bb.file (s.opens + 1) Log.empty t)
      fun _ => maxOutputFnLen ≤ szFn := by
  rw [initLogger, ends_bind, ends_assertThat]
  refine ⟨fun _ => ?_, fun hnull => absurd (getLoggerPtr_ne_zero startAddr) (by simpa using hnull)⟩
  rw [ends_bind, setBigbufferPtr, ends_modify, ends_bind, ends_assertThat]
  refine ⟨fun _ => ?_, fun hlong => not_lt.mp (of_decide_eq_false hlong)⟩
  simp only [sysOpen, ends_bind, ends_modify, ends_get, ends_set, ends_pure, hfailed, if_true]
  refine ⟨getThisBb_eq startAddr, rfl, le_refl asmBase, ?_, rfl, rfl, ?_, [], by simp, rfl, ?_⟩
  · have hsize := bigbufferSz_eq
    change asmBase ≤ asmBase + bigbufferSz - 32
    omega
  · simp [State.pending, pendingBytes, Log.empty]
  · simp [blocksOf]

end Spec

theorem flatten_eq_nil_iff_of_segments {segs : List (List UInt8)}
    (h : ∀ seg ∈ segs, IsSegment seg) : segs.flatten = [] ↔ segs = [] := by
  cases segs with
  | nil => simp
  | cons seg segs =>
      have hpos := (h seg (by simp)).1
      have hne : seg ≠ [] := List.length_pos_iff.mp hpos
      simp [hne]

/-- Every flush the calls make that finds something pending fails to open the file; the
flushes are numbered from `first` on. -/
def NothingWritten (k : Kernel) (first : Nat) (calls : List Call) : Prop :=
  ∀ i seg, (logOf calls).segments[i]? = some seg → 0 ≤ k.openFile (first + i) → seg = []

theorem kept_eq_nil_iff_nothingWritten {k : Kernel} {first : Nat} {calls : List Call} :
    kept k.opens first (logOf calls).segments = [] ↔ NothingWritten k first calls := by
  simp only [kept_eq_nil_iff, NothingWritten, Kernel.opens, decide_eq_true_eq]

/-- From a file that is not there yet, every sequence of appends and flushes leaves a
log that is empty or well formed, and accepted, exactly if the open of `init_logger`
succeeded or none of the later ones that succeed lets anything be written. -/
theorem log_header_iff {k : Kernel} {lzo : Lzo} {startAddr szFn : Nat} {s₀ s : State}
    (hk : Healthy k) (hfile : s₀.bb.file = [])
    (hinit : initLogger k startAddr szFn s₀ = .ok () s) (calls : List Call) :
    ∃ t, forM calls (Call.run k lzo startAddr) s = .ok () t ∧
      ((t.bb.file ≠ [] → WellFormed lzo t.bb.file ∧ (decodeLog lzo t.bb.file).isSome = true) ↔
        0 ≤ k.openFile s₀.opens ∨ NothingWritten k (s₀.opens + 1) calls) := by
  by_cases hopened : 0 ≤ k.openFile s₀.opens
  · have hstart : Logged k lzo startAddr compFileHeader (s₀.opens + 1) Log.empty s :=
      (ends_initLogger hk hopened).of_ok hinit
    obtain ⟨_, t, ht, hlogged⟩ := (ends_runs hk hstart calls).returns
    obtain ⟨segs, hsegs, _, hlog⟩ := hlogged.file
    have hform : WellFormed lzo t.bb.file := ⟨segs, hsegs, hlog⟩
    exact ⟨t, ht, iff_of_true (fun _ => ⟨hform, hform.accepted⟩) (Or.inl hopened)⟩
  · have hstart : Logged k lzo startAddr s₀.bb.file (s₀.opens + 1) Log.empty s :=
      (ends_initLogger_failed (by omega)).of_ok hinit
    rw [hfile] at hstart
    obtain ⟨_, t, ht, hlogged⟩ := (ends_runs hk hstart calls).returns
    obtain ⟨segs, hsegs, hflat, hlog⟩ := hlogged.file
    rw [List.nil_append] at hlog
    refine ⟨t, ht, ?_⟩
    rw [or_iff_right hopened, ← kept_eq_nil_iff_nothingWritten, ← hflat,
      flatten_eq_nil_iff_of_segments hsegs, hlog]
    cases segs with
    | nil => exact iff_of_true (fun hne => absurd rfl hne) rfl
    | cons seg segs =>
        apply iff_of_false
        · intro haccepted
          have hnone := not_accepted_blocks lzo seg segs
          have hne : blocksOf lzo (seg :: segs) ≠ [] := fun hnil => by cases hnil
          obtain ⟨-, hsome⟩ := haccepted hne
          rw [hnone] at hsome
          cases hsome
        · simp

/-! ## A first open that fails -/

/-- The first `n` opens fail, the later ones do not. -/
def lateKernel (n : Nat) : Kernel where
  file := ⟨fun _ count => count⟩
  openFile i := if i < n then -2 else 3
  closeFile _ := 0

theorem healthy_lateKernel (n : Nat) : Healthy (lateKernel n) := ⟨fun _ _ => rfl, fun _ => rfl⟩

theorem init_lateKernel {n : Nat} (hn : 0 < n) :
    ∃ s, initLogger (lateKernel n) 0x10000000 60 bootState = .ok () s := by
  have hfailed : (lateKernel n).openFile bootState.opens = -2 := if_pos hn
  have hinit : Ends (initLogger (lateKernel n) 0x10000000 60) bootState
      (fun _ t => Logged (lateKernel n) literalLzo 0x10000000 [] 1 Log.empty t) fun _ => False :=
    (ends_initLogger_failed (by omega)).mono (fun _ _ => id) fun _ hlong =>
      absurd hlong (by decide)
  obtain ⟨_, s, hs, -⟩ := hinit.returns
  exact ⟨s, hs⟩

/-- The first flush loses a byte, the second opens the file and finds nothing. -/
theorem log_header_late_open :
    ∃ s t, initLogger (lateKernel 2) 0x10000000 60 bootState = .ok () s ∧
      forM [.u8 7, .flush, .flush] (Call.run (lateKernel 2) literalLzo 0x10000000) s = .ok () t ∧
      (t.bb.file ≠ [] → WellFormed literalLzo t.bb.file ∧
        (decodeLog literalLzo t.bb.file).isSome = true) := by
  obtain ⟨s, hs⟩ := init_lateKernel Nat.two_pos
  obtain ⟨t, ht, hiff⟩ := log_header_iff (healthy_lateKernel 2) rfl hs [.u8 7, .flush, .flush]
  have hlog : (logOf [.u8 7, .flush, .flush]).segments = [[7], []] := by decide
  refine ⟨s, t, hs, ht, hiff.mpr (Or.inr fun i seg hseg hopened => ?_)⟩
  rw [hlog] at hseg
  match i with
  | 0 => exact absurd hopened (by decide)
  | 1 => exact (Option.some.inj hseg).symm
  | i + 2 => cases hseg

/-- One byte is appended and flushed. -/
theorem flushed_log_has_no_header :
    Healthy (lateKernel 1) ∧ bootState.bb.file = [] ∧
    ∃ s t, initLogger (lateKernel 1) 0x10000000 60 bootState = .ok () s ∧
      forM [.u8 7, .flush] (Call.run (lateKernel 1) literalLzo 0x10000000) s = .ok () t ∧
      t.bb.file ≠ [] ∧ ¬ WellFormed literalLzo t.bb.file ∧
      decodeLog literalLzo t.bb.file = none := by
  obtain ⟨s, hs⟩ := init_lateKernel Nat.one_pos
  have hstart : Logged (lateKernel 1) literalLzo 0x10000000 [] 1 Log.empty s :=
    (ends_initLogger_failed (by decide)).of_ok hs
  obtain ⟨_, t, ht, -⟩ := (ends_runs (healthy_lateKernel 1) hstart [.u8 7, .flush]).returns
  have hlog : t.bb.file = blocksOf literalLzo [[7]] :=
    calc t.bb.file
        = (after (initLogger (lateKernel 1) 0x10000000 60 >>= fun _ =>
            forM [.u8 7, .flush] (Call.run (lateKernel 1) literalLzo 0x10000000))
              bootState).bb.file := by
          rw [after, bind_of_ok hs, ht]
      _ = blocksOf literalLzo [[7]] := by decide +kernel
  have hnone := not_accepted_blocks literalLzo [7] []
  refine ⟨healthy_lateKernel 1, rfl, s, t, hs, ht, ?_⟩
  rw [hlog]
  have hne : blocksOf literalLzo [[7]] ≠ [] := by decide
  refine ⟨hne, fun hform => ?_, hnone⟩
  have haccepted := hform.accepted
  rw [hnone] at haccepted
  cases haccepted

end Snitchaser.Stream.Header
