import Snitchaser.Defs
import Snitchaser.Lib.ByteMemory
import Snitchaser.Lib.Decode
import Snitchaser.Lib.Hoare
/-!
# Compressed blocks

`compression.c`: a buffer goes to a file as blocks of at most `MAX_COMP_SZ`
bytes, each a `comp_block_head` followed by the LZO-compressed bytes.  LZO itself
is vendored, and the compressor is a parameter here: the buffers and the logger use one
of which they know what the fields of `Lzo` say, and `Lzo.RoundTrip` the one of
`minilzo.c`.
-/

namespace Snitchaser.Stream.Compression

open Snitchaser.Defs
open Snitchaser.Lib.ByteMemory
open Snitchaser.Lib.Decode
open Snitchaser.Lib.Hoare
open Snitchaser.Lib.LittleEndian
open Snitchaser.Lib.Program

def maxCompSz : Nat := bigbufferSz

def compFileHeader : List UInt8 :=
  "SNITCHASER-LZO000".toList.map (fun c => UInt8.ofNat c.toNat) ++ [0]

/-- `COMP_LZO_COMP` of `enum comp_block_type`. -/
def compLzoComp : Nat := 2

def sizeofCompBlockHead : Nat := 12

/-- `lzo1x_1_compress` and `lzo1x_decompress_safe` with a destination of
`dstLen` bytes, on the lengths the code calls them with. -/
structure Lzo where
  compress : List UInt8 → List UInt8
  decompress (dstLen : Nat) (src : List UInt8) : Option (List UInt8)
  decompress_compress : ∀ data, 0 < data.length → data.length ≤ maxCompSz →
    decompress data.length (compress data) = some data
  length_compress : ∀ data, 0 < data.length → data.length ≤ maxCompSz →
    (compress data).length ≤ lzo1xWorstCompress data.length

/-- A compressor that only makes literal runs.  On short input its output is a
real LZO stream: a run length, the bytes, and the end mark. -/
def literalLzo : Lzo where
  compress data := UInt8.ofNat (17 + data.length) :: data ++ [17, 0, 0]
  decompress dstLen src :=
    if src.length = dstLen + 4 then some ((src.drop 1).take dstLen) else none
  decompress_compress data _ _ := by simp
  length_compress data _ _ := by
    simp [lzo1xWorstCompress]
    omega

/-- The memory of the process, the index of the next free byte of the buffer,
and the bytes of the file behind the descriptor. -/
structure State where
  mem : Memory
  ptr : Nat
  file : List UInt8

/-- What `sys_write` answers, from the size of the file and the byte count. -/
structure Kernel where
  write : Nat → Nat → Int

/-- Every write is carried out in full. -/
def Kernel.Complete (k : Kernel) : Prop := ∀ len count, k.write len count = count

def sysWrite (k : Kernel) (bytes : List UInt8) : Prog State Int := do
  let s ← get
  let err := k.write s.file.length bytes.length
  set { s with file := s.file ++ bytes.take err.toNat }
  pure err

def compBlockHead (type oriSz compSz : Nat) : List UInt8 :=
  leBytes 4 type ++ leBytes 4 oriSz ++ leBytes 4 compSz

/-- The compressor on `sz` bytes of the memory. -/
def Lzo.compressAt (lzo : Lzo) (buffer sz : Nat) : Prog State (List UInt8) := do
  let s ← get
  pure (lzo.compress (readBytes s.mem buffer sz))

section Flush

variable (k : Kernel) (compress : Nat → Nat → Prog State (List UInt8))

def flushSmallBuffer (buffer sz : Nat) : Prog State Unit := do
  assertThat (sz ≤ maxCompSz) "sz <= MAX_COMP_SZ"
  if sz = 0 then
    pure ()
  else
    let destbuffer ← compress buffer sz
    let err ← sysWrite k (compBlockHead compLzoComp sz destbuffer.length)
    assertThat (err = sizeofCompBlockHead) "err == sizeof(head)"
    let err ← sysWrite k destbuffer
    assertThat (err = destbuffer.length) "err == destlen"

theorem maxCompSz_pos : 0 < maxCompSz := by decide

def flushCompLoop (buffer sz : Nat) : Prog State Unit :=
  if 0 < sz then do
    let flushsz := if maxCompSz < sz then maxCompSz else sz
    flushSmallBuffer k compress buffer flushsz
    flushCompLoop (buffer + flushsz) (sz - flushsz)
  else
    pure ()
termination_by sz
decreasing_by
  have := maxCompSz_pos
  split <;> omega

def flushCompBuffer (fd : Int) (buffer sz : Nat) : Prog State Unit := do
  assertThat (buffer ≠ 0) "buffer != NULL"
  assertThat (0 ≤ fd) "fd >= 0"
  flushCompLoop k compress buffer sz

def writeCompFileHead (fd : Int) : Prog State Unit := do
  assertThat (0 ≤ fd) "fd >= 0"
  let err ← sysWrite k compFileHeader
  assertThat (err = compFileHeader.length) "err == COMP_FILE_HEADER_SZ"

end Flush

/-! ## The layout of a block -/

structure Block where
  type : Nat
  oriSz : Nat
  compSz : Nat
  data : List UInt8
  deriving DecidableEq, Repr

def takeBlock : Decoder Block := do
  let type ← takeLe 4
  let oriSz ← takeLe 4
  let compSz ← takeLe 4
  let data ← takeBytes compSz
  pure ⟨type, oriSz, compSz, data⟩

/-- The block `flush_small_buffer` makes of `seg`, which the compressor made `out`. -/
def blockWith (seg out : List UInt8) : Block := ⟨compLzoComp, seg.length, out.length, out⟩

def blockOf (lzo : Lzo) (seg : List UInt8) : Block := blockWith seg (lzo.compress seg)

def Block.bytes (b : Block) : List UInt8 := compBlockHead b.type b.oriSz b.compSz ++ b.data

/-- The lengths of a piece of data that goes into one block. -/
def IsSegment (seg : List UInt8) : Prop := 0 < seg.length ∧ seg.length ≤ maxCompSz

theorem length_compBlockHead (type oriSz compSz : Nat) :
    (compBlockHead type oriSz compSz).length = sizeofCompBlockHead := by
  simp [compBlockHead, sizeofCompBlockHead]

theorem reads_takeBlock {b : Block} (htype : b.type < 2 ^ 32) (hori : b.oriSz < 2 ^ 32)
    (hcomp : b.compSz < 2 ^ 32) (hdata : b.data.length = b.compSz) :
    Reads takeBlock b.bytes b := by
  have hbytes : b.bytes =
      leBytes 4 b.type ++ (leBytes 4 b.oriSz ++ (leBytes 4 b.compSz ++ b.data)) := by
    simp [Block.bytes, compBlockHead]
  rw [hbytes]
  exact (reads_takeLe htype).bind <| (reads_takeLe hori).bind <| (reads_takeLe hcomp).bind <|
    (reads_takeBytes hdata).bind_pure rfl

theorem length_compress_lt {lzo : Lzo} {seg : List UInt8} (h : IsSegment seg) :
    (lzo.compress seg).length < 2 ^ 32 := by
  have hmax : maxCompSz = 2097152 := by decide
  have hle := lzo.length_compress seg h.1 h.2
  have hseg := h.2
  unfold lzo1xWorstCompress at hle
  omega

theorem reads_blockWith {seg out : List UInt8} (h : IsSegment seg) (hout : out.length < 2 ^ 32) :
    Reads takeBlock (blockWith seg out).bytes (blockWith seg out) := by
  have hmax : maxCompSz = 2097152 := by decide
  have hseg := h.2
  refine reads_takeBlock ?_ ?_ hout rfl
  · change compLzoComp < 2 ^ 32
    decide
  · change seg.length < 2 ^ 32
    omega

/-- The bytes of the blocks of some segments, each with what the compressor made of it. -/
def partBytes (parts : List (List UInt8 × List UInt8)) : List UInt8 :=
  parts.flatMap fun p => (blockWith p.1 p.2).bytes

theorem decodeStream_parts {parts : List (List UInt8 × List UInt8)}
    (h : ∀ p ∈ parts, IsSegment p.1 ∧ p.2.length < 2 ^ 32) :
    decodeStream takeBlock (partBytes parts) = some (parts.map fun p => blockWith p.1 p.2) := by
  refine decodeStream_flatMap (fun p hp => reads_blockWith (h p hp).1 (h p hp).2) ?_
  intro p _ hnil
  have hlen := congrArg List.length hnil
  simp [Block.bytes, length_compBlockHead, sizeofCompBlockHead] at hlen

/-! ## Reading blocks back -/

/-- The blocks of a file, decompressed and concatenated. -/
def readBlocks (decompress : Nat → List UInt8 → Option (List UInt8)) (bytes : List UInt8) :
    Option (List UInt8) := do
  let blocks ← decodeStream takeBlock bytes
  let outs ← blocks.mapM fun b => decompress b.oriSz b.data
  pure outs.flatten

section ReadBack

variable {decompress : Nat → List UInt8 → Option (List UInt8)}

/-- The compressed bytes of a segment, as a block holds them. -/
structure Codes (decompress : Nat → List UInt8 → Option (List UInt8)) (seg out : List UInt8) :
    Prop where
  length_lt : out.length < 2 ^ 32
  decompress : decompress seg.length out = some seg

theorem mapM_decompress {parts : List (List UInt8 × List UInt8)}
    (h : ∀ p ∈ parts, Codes decompress p.1 p.2) :
    (parts.map fun p => blockWith p.1 p.2).mapM (fun b => decompress b.oriSz b.data) =
      some (parts.map Prod.fst) := by
  induction parts with
  | nil => rfl
  | cons p parts ih =>
      have hone : decompress (blockWith p.1 p.2).oriSz (blockWith p.1 p.2).data = some p.1 :=
        (h p (by simp)).decompress
      have hrest := ih fun q hq => h q (by simp [hq])
      rw [List.map_cons, List.mapM_cons, hone, hrest]
      rfl

theorem readBlocks_parts {parts : List (List UInt8 × List UInt8)}
    (h : ∀ p ∈ parts, IsSegment p.1 ∧ Codes decompress p.1 p.2) :
    readBlocks decompress (partBytes parts) = some (parts.map Prod.fst).flatten := by
  have hstream := decodeStream_parts fun p hp => ⟨(h p hp).1, (h p hp).2.length_lt⟩
  have houts := mapM_decompress fun p hp => (h p hp).2
  simp only [readBlocks, hstream, Option.bind_eq_bind, Option.bind_some, houts]
  rfl

end ReadBack

def blocksOf (lzo : Lzo) (segs : List (List UInt8)) : List UInt8 :=
  segs.flatMap fun seg => (blockOf lzo seg).bytes

/-- The segments with what a compressor of `Lzo` makes of them. -/
def Lzo.parts (lzo : Lzo) (segs : List (List UInt8)) : List (List UInt8 × List UInt8) :=
  segs.map fun seg => (seg, lzo.compress seg)

theorem Lzo.partBytes_parts {lzo : Lzo} {segs : List (List UInt8)} :
    partBytes (lzo.parts segs) = blocksOf lzo segs := List.flatMap_map ..

theorem Lzo.codes {lzo : Lzo} {seg : List UInt8} (h : IsSegment seg) :
    Codes lzo.decompress seg (lzo.compress seg) :=
  ⟨length_compress_lt h, lzo.decompress_compress seg h.1 h.2⟩

/-- A file made of the blocks of some segments decodes to those blocks. -/
theorem decodeStream_blocks {lzo : Lzo} {segs : List (List UInt8)}
    (h : ∀ seg ∈ segs, IsSegment seg) :
    decodeStream takeBlock (blocksOf lzo segs) = some (segs.map (blockOf lzo)) := by
  rw [← Lzo.partBytes_parts, decodeStream_parts]
  · rw [Lzo.parts, List.map_map]
    rfl
  · rw [Lzo.parts, List.forall_mem_map]
    exact fun seg hseg => ⟨h seg hseg, length_compress_lt (h seg hseg)⟩

theorem readBlocks_blocks {lzo : Lzo} {segs : List (List UInt8)}
    (h : ∀ seg ∈ segs, IsSegment seg) :
    readBlocks lzo.decompress (blocksOf lzo segs) = some segs.flatten := by
  rw [← Lzo.partBytes_parts, readBlocks_parts]
  · rw [Lzo.parts, List.map_map]
    exact congrArg (fun l => some (List.flatten l)) (List.map_id segs)
  · rw [Lzo.parts, List.forall_mem_map]
    exact fun seg hseg => ⟨h seg hseg, Lzo.codes (h seg hseg)⟩

/-! ## What a flush writes -/

/-- The file, and nothing else, has changed: it grew by the blocks of segments that
concatenate to `data`, with compressed bytes that are `good` for them. -/
def Flushed (good : List UInt8 → List UInt8 → Prop) (s t : State) (data : List UInt8) : Prop :=
  ∃ parts, (∀ p ∈ parts, IsSegment p.1 ∧ good p.1 p.2) ∧ (parts.map Prod.fst).flatten = data ∧
    t = { s with file := s.file ++ partBytes parts }

/-- With a compressor of `Lzo`. -/
def Grew (lzo : Lzo) (s t : State) (data : List UInt8) : Prop :=
  ∃ segs : List (List UInt8), (∀ seg ∈ segs, IsSegment seg) ∧ segs.flatten = data ∧
    t = { s with file := s.file ++ blocksOf lzo segs }

/-- An assertion fails, and the kernel is to blame. -/
def ShortWrite (k : Kernel) (e : Stop) : Prop := ¬ k.Complete ∧ ∃ text, e = .assertion text

/-- An assertion fails, on account of an argument or of the kernel. -/
def Refused (k : Kernel) (fd : Int) (bb : Nat) (e : Stop) : Prop :=
  (bb = 0 ∨ fd < 0 ∨ ¬ k.Complete) ∧ ∃ text, e = .assertion text

section FlushSpec

variable {k : Kernel} {compress : Nat → Nat → Prog State (List UInt8)}
  {good : List UInt8 → List UInt8 → Prop} {lzo : Lzo}

/-- A write whose length is checked is complete, or the check fails. -/
theorem ends_sysWrite_checked {bytes : List UInt8} {n : Nat} {text : String} {s : State}
    {Q : Unit → State → Prop} {E : Stop → Prop} (hn : bytes.length = n)
    (hok : Q () { s with file := s.file ++ bytes }) (hstop : ∀ e, ShortWrite k e → E e) :
    Ends (sysWrite k bytes) s
      (fun err t => Ends (assertThat (err = (n : Int)) text) t Q E) E := by
  subst hn
  simp only [sysWrite, ends_bind, ends_get, ends_set, ends_pure, ends_assertThat]
  constructor
  · intro h
    rw [of_decide_eq_true h]
    simpa using hok
  · intro h
    refine hstop _ ⟨fun hcomplete => ?_, text, rfl⟩
    rw [hcomplete] at h
    simp at h

theorem ends_writeCompFileHead {fd : Int} {s : State} (hfd : 0 ≤ fd) :
    Ends (writeCompFileHead k fd) s
      (fun _ t => t = { s with file := s.file ++ compFileHeader }) (ShortWrite k) := by
  rw [writeCompFileHead, ends_bind, ends_assertThat]
  refine ⟨fun _ => ?_, fun hneg => absurd hfd (of_decide_eq_false hneg)⟩
  rw [ends_bind]
  exact ends_sysWrite_checked rfl rfl fun _ => id

/-- On every piece of the buffer the compressor returns bytes that are good for it. -/
def CompressesOn (compress : Nat → Nat → Prog State (List UInt8))
    (good : List UInt8 → List UInt8 → Prop) (buffer sz : Nat) : Prop :=
  ∀ b n s, buffer ≤ b → b + n ≤ buffer + sz → n ≤ maxCompSz →
    Ends (compress b n) s (fun out t => good (readBytes s.mem b n) out ∧ t = s) fun _ => False

theorem CompressesOn.sub {buffer sz b n : Nat} (h : CompressesOn compress good buffer sz)
    (hlo : buffer ≤ b) (hhi : b + n ≤ buffer + sz) : CompressesOn compress good b n :=
  fun c m s hc hm => h c m s (by omega) (by omega)

theorem ends_flushSmallBuffer {buffer sz : Nat} {s : State} (hpos : 0 < sz)
    (hmax : sz ≤ maxCompSz) (hcompress : CompressesOn compress good buffer sz) :
    Ends (flushSmallBuffer k compress buffer sz) s
      (fun _ t => ∃ out, good (readBytes s.mem buffer sz) out ∧
        t = { s with file := s.file ++ (blockWith (readBytes s.mem buffer sz) out).bytes })
      (ShortWrite k) := by
  rw [flushSmallBuffer, ends_bind, ends_assertThat, if_neg (Nat.pos_iff_ne_zero.mp hpos)]
  refine ⟨fun _ => ?_, fun h => absurd hmax (of_decide_eq_false h)⟩
  rw [ends_bind]
  refine (hcompress buffer sz s (Nat.le_refl _) (Nat.le_refl _) hmax).mono ?_ fun _ => False.elim
  rintro out t ⟨hgood, rfl⟩
  simp only [ends_bind]
  apply ends_sysWrite_checked (length_compBlockHead _ _ _) _ fun _ => id
  apply ends_sysWrite_checked rfl _ fun _ => id
  exact ⟨out, hgood, by simp [Block.bytes, blockWith]⟩

theorem Flushed.cons {s t : State} {seg out data : List UInt8} (hseg : IsSegment seg)
    (hgood : good seg out)
    (h : Flushed good { s with file := s.file ++ (blockWith seg out).bytes } t data) :
    Flushed good s t (seg ++ data) := by
  obtain ⟨parts, hparts, hflat, rfl⟩ := h
  refine ⟨(seg, out) :: parts, List.forall_mem_cons.mpr ⟨⟨hseg, hgood⟩, hparts⟩, ?_, ?_⟩
  · rw [List.map_cons, List.flatten_cons, hflat]
  · rw [List.append_assoc]
    rfl

theorem ends_flushCompLoop {buffer sz : Nat} {s : State}
    (hcompress : CompressesOn compress good buffer sz) :
    Ends (flushCompLoop k compress buffer sz) s
      (fun _ t => Flushed good s t (readBytes s.mem buffer sz)) (ShortWrite k) := by
  induction sz using Nat.strong_induction_on generalizing buffer s with
  | _ sz ih =>
      have hmax := maxCompSz_pos
      rw [flushCompLoop]
      by_cases hpos : 0 < sz
      · rw [if_pos hpos]
        generalize hflush : (if maxCompSz < sz then maxCompSz else sz) = flushsz
        have hle : 0 < flushsz ∧ flushsz ≤ maxCompSz ∧ flushsz ≤ sz := by
          rw [← hflush]
          split <;> omega
        have hfirst := hcompress.sub (Nat.le_refl buffer) (show buffer + flushsz ≤ _ by omega)
        have hrest := hcompress.sub (Nat.le_add_right buffer flushsz)
          (show buffer + flushsz + (sz - flushsz) ≤ _ by omega)
        rw [ends_bind]
        refine (ends_flushSmallBuffer hle.1 hle.2.1 hfirst).post ?_
        rintro _ t ⟨out, hgood, rfl⟩
        refine (ih (sz - flushsz) (by omega) hrest).post ?_
        intro _ u hu
        have hsplit : readBytes s.mem buffer sz =
            readBytes s.mem buffer flushsz ++ readBytes s.mem (buffer + flushsz) (sz - flushsz) := by
          rw [← readBytes_add, Nat.add_sub_cancel' hle.2.2]
        rw [hsplit]
        refine Flushed.cons ?_ hgood hu
        simpa [IsSegment] using ⟨hle.1, hle.2.1⟩
      · rw [if_neg hpos, ends_pure, Nat.eq_zero_of_not_pos hpos]
        exact ⟨[], by simp, rfl, by simp [partBytes]⟩

theorem ends_flushCompBuffer {fd : Int} {buffer sz : Nat} {s : State}
    (hcompress : CompressesOn compress good buffer sz) :
    Ends (flushCompBuffer k compress fd buffer sz) s
      (fun _ t => Flushed good s t (readBytes s.mem buffer sz)) (Refused k fd buffer) := by
  simp only [flushCompBuffer, ends_bind, ends_assertThat, decide_eq_true_eq,
    decide_eq_false_iff_not]
  refine ⟨fun _ => ⟨fun _ => ?_, fun hfd => ?_⟩, fun hnull => ?_⟩
  · exact (ends_flushCompLoop hcompress).mono (fun _ _ => id)
      fun e he => ⟨Or.inr (Or.inr he.1), he.2⟩
  · exact ⟨Or.inr (Or.inl (by omega)), _, rfl⟩
  · exact ⟨Or.inl (by omega), _, rfl⟩

theorem Flushed.grew {s t : State} {data : List UInt8}
    (h : Flushed (fun seg out => out = lzo.compress seg) s t data) : Grew lzo s t data := by
  obtain ⟨parts, hparts, rfl, rfl⟩ := h
  have hself : lzo.parts (parts.map Prod.fst) = parts := by
    rw [Lzo.parts, List.map_map]
    conv_rhs => rw [← List.map_id parts]
    exact List.map_congr_left fun p hp => Prod.ext rfl (hparts p hp).2.symm
  refine ⟨parts.map Prod.fst, ?_, rfl, ?_⟩
  · rw [List.forall_mem_map]
    exact fun p hp => (hparts p hp).1
  · rw [← Lzo.partBytes_parts, hself]

theorem ends_flushCompBuffer_lzo {fd : Int} {buffer sz : Nat} {s : State} :
    Ends (flushCompBuffer k lzo.compressAt fd buffer sz) s
      (fun _ t => Grew lzo s t (readBytes s.mem buffer sz)) (Refused k fd buffer) := by
  refine (ends_flushCompBuffer ?_).post fun _ _ => Flushed.grew
  intro b n s _ _ _
  rw [Lzo.compressAt, ends_bind, ends_get, ends_pure]
  exact ⟨rfl, rfl⟩

end FlushSpec

end Snitchaser.Stream.Compression
