import Snitchaser.Stream.Compression
/-!
# The big buffer

`bigbuffer.c`: bytes are collected in a buffer of `BIGBUFFER_SZ` bytes and go to
the file in compressed blocks whenever it is full, and once more at a flush.
-/

namespace Snitchaser.Stream.Bigbuffer

open Snitchaser.Defs
open Snitchaser.Lib.ByteMemory
open Snitchaser.Lib.Decode
open Snitchaser.Lib.Hoare
open Snitchaser.Lib.Program
open Snitchaser.Stream.Compression

section Code

variable (k : Kernel) (lzo : Lzo) (fd : Int) (bb : Nat)

def resetBigbufferPtr : Prog State Unit := modify fun s => { s with ptr := 0 }

def initBigbuffer : Prog State Unit := do
  assertThat (bb ≠ 0) "bb != NULL"
  resetBigbufferPtr

def flushBigbuffer : Prog State Unit := do
  assertThat (0 ≤ fd) "fd >= 0"
  let s ← get
  if s.ptr ≠ 0 then
    flushCompBuffer k lzo.compressAt fd bb s.ptr
  resetBigbufferPtr

/-- The loop of `append_bigbuffer` over the bytes still to be stored.  Each
iteration stores at least one, so a unit of fuel for each is enough. -/
def appendLoop : Nat → List UInt8 → Prog State Unit
  | 0, _ => throw .fuel
  | fuel + 1, buf => do
      let s ← get
      let cpSz := min (bigbufferSz - s.ptr) buf.length
      set { s with mem := writeBytes s.mem (bb + s.ptr) (buf.take cpSz), ptr := s.ptr + cpSz }
      if 0 < buf.length - cpSz then
        assertThat (s.ptr + cpSz = bigbufferSz) "bb->ptr == BIGBUFFER_SZ"
        flushBigbuffer k lzo fd bb
        appendLoop fuel (buf.drop cpSz)
      else
        pure ()

def appendBigbuffer (buf : List UInt8) : Prog State Unit := do
  assertThat (bb ≠ 0) "bb != NULL"
  let s ← get
  assertThat (s.ptr < bigbufferSz) "bb->ptr < BIGBUFFER_SZ"
  assertThat (0 ≤ fd) "fd >= 0"
  if buf.length = 0 then
    pure ()
  else
    appendLoop k lzo fd bb (buf.length + 1) buf

/-- Any number of appends between `init_bigbuffer` and a flush. -/
def writeStream (calls : List (List UInt8)) : Prog State Unit := do
  initBigbuffer bb
  forM calls (appendBigbuffer k lzo fd bb)
  flushBigbuffer k lzo fd bb

end Code

/-! ## What the buffer and the file hold together -/

/-- The file has grown from `start` by blocks which, followed by what is still
in the buffer, hold `data`. -/
def Holds (lzo : Lzo) (bb : Nat) (start data : List UInt8) (s : State) : Prop :=
  ∃ segs : List (List UInt8), (∀ seg ∈ segs, IsSegment seg) ∧
    s.file = start ++ blocksOf lzo segs ∧
    segs.flatten ++ readBytes s.mem bb s.ptr = data ∧ s.ptr ≤ bigbufferSz

section Holds

variable {lzo : Lzo} {bb : Nat} {start data : List UInt8} {s t : State}

theorem Holds.flush (h : Holds lzo bb start data s)
    (hgrew : Grew lzo s t (readBytes s.mem bb s.ptr)) :
    Holds lzo bb start data { t with ptr := 0 } := by
  obtain ⟨segs, hsegs, hfile, hdata, -⟩ := h
  obtain ⟨new, hnew, hflat, rfl⟩ := hgrew
  refine ⟨segs ++ new, ?_, ?_, ?_, Nat.zero_le _⟩
  · intro seg hseg
    rcases List.mem_append.mp hseg with hold | hadd
    · exact hsegs seg hold
    · exact hnew seg hadd
  · simp [hfile, blocksOf]
  · rw [List.flatten_append, hflat, hdata, readBytes_zero, List.append_nil]

theorem Holds.store {chunk : List UInt8} (h : Holds lzo bb start data s)
    (hroom : s.ptr + chunk.length ≤ bigbufferSz) :
    Holds lzo bb start (data ++ chunk)
      { s with mem := writeBytes s.mem (bb + s.ptr) chunk, ptr := s.ptr + chunk.length } := by
  obtain ⟨segs, hsegs, hfile, hdata, -⟩ := h
  refine ⟨segs, hsegs, hfile, ?_, hroom⟩
  rw [readBytes_writeBytes_append, ← List.append_assoc, hdata]

theorem Holds.written (h : Holds lzo bb start data s) (hptr : s.ptr = 0) :
    ∃ segs : List (List UInt8), (∀ seg ∈ segs, IsSegment seg) ∧
      s.file = start ++ blocksOf lzo segs ∧ segs.flatten = data := by
  obtain ⟨segs, hsegs, hfile, hdata, -⟩ := h
  rw [hptr, readBytes_zero, List.append_nil] at hdata
  exact ⟨segs, hsegs, hfile, hdata⟩

end Holds

section Spec

variable {k : Kernel} {lzo : Lzo} {fd : Int} {bb : Nat}

theorem ends_flushBigbuffer {s : State} :
    Ends (flushBigbuffer k lzo fd bb) s
      (fun _ t => ∃ u, Grew lzo s u (readBytes s.mem bb s.ptr) ∧ t = { u with ptr := 0 })
      (Refused k fd bb) := by
  rw [flushBigbuffer, ends_bind, ends_assertThat]
  constructor
  · intro _
    rw [ends_bind, ends_get]
    by_cases hptr : s.ptr = 0
    · simp only [hptr, ne_eq, not_true, if_false, resetBigbufferPtr, ends_modify]
      exact ⟨s, ⟨[], by simp, rfl, by simp [blocksOf]⟩, rfl⟩
    · simp only [hptr, ne_eq, not_false_eq_true, if_true, ends_bind, resetBigbufferPtr, ends_modify]
      exact ends_flushCompBuffer_lzo.post fun _ u hu => ⟨u, hu, rfl⟩
  · intro hfd
    exact ⟨Or.inr (Or.inl (by simpa using hfd)), _, rfl⟩

theorem bigbufferSz_pos : 0 < bigbufferSz := by decide

theorem ends_appendLoop {start data buf : List UInt8} {fuel : Nat} {s : State}
    (h : Holds lzo bb start data s) (hptr : s.ptr < bigbufferSz) (hfuel : buf.length < fuel) :
    Ends (appendLoop k lzo fd bb fuel buf) s
      (fun _ t => Holds lzo bb start (data ++ buf) t) (Refused k fd bb) := by
  induction fuel generalizing data buf s with
  | zero => omega
  | succ fuel ih =>
      rw [appendLoop, ends_bind, ends_get]
      generalize hcp : min (bigbufferSz - s.ptr) buf.length = cpSz
      have hlen : (buf.take cpSz).length = cpSz := by
        rw [List.length_take]
        omega
      have hstore := h.store (show s.ptr + (buf.take cpSz).length ≤ bigbufferSz by omega)
      rw [hlen] at hstore
      simp only [ends_bind, ends_set]
      by_cases hmore : 0 < buf.length - cpSz
      · rw [if_pos hmore, ends_bind, ends_assertThat]
        refine ⟨fun _ => ?_, fun hfull => absurd (of_decide_eq_false hfull) (by omega)⟩
        rw [ends_bind]
        refine ends_flushBigbuffer.post ?_
        intro _ t ht
        obtain ⟨u, hgrew, rfl⟩ := ht
        refine (ih (hstore.flush hgrew) bigbufferSz_pos (by rw [List.length_drop]; omega)).post ?_
        intro _ v hv
        rwa [List.append_assoc, List.take_append_drop] at hv
      · rw [if_neg hmore, ends_pure]
        rw [List.take_of_length_le (show buf.length ≤ cpSz by omega)] at hstore ⊢
        exact hstore

/-- An append stops on account of its arguments or of the kernel, or because
the appends before it, `len` bytes in all, filled the buffer to the last byte. -/
def AppendStop (k : Kernel) (fd : Int) (bb len : Nat) (e : Stop) : Prop :=
  Refused k fd bb e ∨ e = .assertion "bb->ptr < BIGBUFFER_SZ" ∧ bigbufferSz ≤ len

theorem Holds.ptr_le_length {start data : List UInt8} {s : State}
    (h : Holds lzo bb start data s) : s.ptr ≤ data.length := by
  obtain ⟨segs, -, -, hdata, -⟩ := h
  rw [← hdata, List.length_append, length_readBytes]
  omega

theorem ends_appendBigbuffer {start data buf : List UInt8} {s : State} {len : Nat}
    (h : Holds lzo bb start data s) (hlen : data.length ≤ len) :
    Ends (appendBigbuffer k lzo fd bb buf) s
      (fun _ t => Holds lzo bb start (data ++ buf) t) (AppendStop k fd bb len) := by
  have hle := h.ptr_le_length
  rw [appendBigbuffer, ends_bind, ends_assertThat]
  refine ⟨fun _ => ?_, fun hnull => Or.inl ⟨Or.inl (by simpa using hnull), _, rfl⟩⟩
  rw [ends_bind, ends_get, ends_bind, ends_assertThat]
  refine ⟨fun hptr => ?_, fun hptr => Or.inr ⟨rfl, ?_⟩⟩
  · rw [ends_bind, ends_assertThat]
    refine ⟨fun _ => ?_, fun hfd => Or.inl ⟨Or.inr (Or.inl (by simpa using hfd)), _, rfl⟩⟩
    by_cases hbuf : buf.length = 0
    · rw [if_pos hbuf, ends_pure, List.length_eq_zero_iff.mp hbuf, List.append_nil]
      exact h
    · rw [if_neg hbuf]
      exact (ends_appendLoop h (of_decide_eq_true hptr) (Nat.lt_succ_self _)).mono
        (fun _ _ => id) fun e => Or.inl
  · have hfull := of_decide_eq_false hptr
    omega

theorem ends_writeStream {calls : List (List UInt8)} {s : State} :
    Ends (writeStream k lzo fd bb calls) s
      (fun _ t => Holds lzo bb s.file calls.flatten t ∧ t.ptr = 0)
      (AppendStop k fd bb calls.flatten.length) := by
  rw [writeStream, ends_bind, initBigbuffer, ends_bind, ends_assertThat]
  refine ⟨fun _ => ?_, fun hnull => Or.inl ⟨Or.inl (by simpa using hnull), _, rfl⟩⟩
  rw [resetBigbufferPtr, ends_modify, ends_bind]
  have hstart : Holds lzo bb s.file [].flatten { s with ptr := 0 } :=
    ⟨[], by simp, by simp [blocksOf], rfl, Nat.zero_le _⟩
  refine (ends_forM (I := fun done t => Holds lzo bb s.file done.flatten t) ?_ hstart).post ?_
  · intro done buf rest t hcalls ht
    have hlen : done.flatten.length ≤ calls.flatten.length := by simp [hcalls]
    rw [List.flatten_append, List.flatten_singleton]
    exact ends_appendBigbuffer ht hlen
  · intro _ t ht
    refine ends_flushBigbuffer.mono ?_ fun e => Or.inl
    intro _ v hv
    obtain ⟨u, hgrew, rfl⟩ := hv
    exact ⟨ht.flush hgrew, rfl⟩

/-- With valid arguments and complete writes, appends that stay below the size
of the buffer return. -/
theorem writeStream_returns {calls : List (List UInt8)} {s : State} (hk : k.Complete)
    (hfd : 0 ≤ fd) (hbb : bb ≠ 0) (hlen : calls.flatten.length < bigbufferSz) :
    ∃ t, writeStream k lzo fd bb calls s = .ok () t := by
  have hnostop : ∀ e, AppendStop k fd bb calls.flatten.length e → False := by
    intro e he
    rcases he with ⟨hcause, -⟩ | ⟨-, hfull⟩
    · rcases hcause with hnull | hneg | hshort
      · exact hbb hnull
      · omega
      · exact hshort hk
    · omega
  obtain ⟨_, t, ht, -⟩ := (ends_writeStream.mono (fun _ _ => id) hnostop).returns
  exact ⟨t, ht⟩

end Spec

/-! ## Reading the file back -/

def decompressFile (lzo : Lzo) (bytes : List UInt8) : Option (List UInt8) :=
  readBlocks lzo.decompress bytes

theorem decompressFile_blocks {lzo : Lzo} {segs : List (List UInt8)}
    (h : ∀ seg ∈ segs, IsSegment seg) :
    decompressFile lzo (blocksOf lzo segs) = some segs.flatten := readBlocks_blocks h

/-- A run of appends and a final flush stops at an assertion, or it leaves
blocks that decompress to what was appended. -/
theorem compressed_stream_round_trip (k : Kernel) (lzo : Lzo) (fd : Int) (bb : Nat)
    (calls : List (List UInt8)) (s : State) :
    Ends (writeStream k lzo fd bb calls) s
      (fun _ t => ∃ written blocks, t.file = s.file ++ written ∧
        decodeStream takeBlock written = some blocks ∧
        (∀ b ∈ blocks, b.type = compLzoComp ∧ 0 < b.oriSz ∧ b.oriSz ≤ maxCompSz ∧
          b.data.length = b.compSz ∧
          ∃ out, lzo.decompress b.oriSz b.data = some out ∧ out.length = b.oriSz) ∧
        decompressFile lzo written = some calls.flatten)
      (fun e => ∃ text, e = .assertion text) := by
  refine ends_writeStream.mono ?_ ?_
  · intro _ t ht
    obtain ⟨segs, hsegs, hfile, hdata⟩ := ht.1.written ht.2
    refine ⟨blocksOf lzo segs, segs.map (blockOf lzo), hfile, decodeStream_blocks hsegs, ?_, ?_⟩
    · intro b hb
      obtain ⟨seg, hseg, rfl⟩ := List.mem_map.mp hb
      have hlen := hsegs seg hseg
      exact ⟨rfl, hlen.1, hlen.2, rfl, seg, lzo.decompress_compress seg hlen.1 hlen.2, rfl⟩
    · rw [decompressFile_blocks hsegs, hdata]
  · intro e he
    rcases he with ⟨-, htext⟩ | ⟨htext, -⟩
    · exact htext
    · exact ⟨_, htext⟩

end Snitchaser.Stream.Bigbuffer
