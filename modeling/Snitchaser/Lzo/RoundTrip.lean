import Snitchaser.Lzo.Encoding
import Snitchaser.Stream.Bigbuffer
/-!
# Compressed files

`compression.c` with the compressor and the decompressor that it calls.  The table of the
compressor is memory of the stack that nobody clears, so every block is made with another
one; `wrk` says what that memory holds, from the size of the file.
-/

namespace Snitchaser.Lzo.RoundTrip

open Snitchaser.Defs
open Snitchaser.Lib.ByteMemory
open Snitchaser.Lib.Hoare
open Snitchaser.Lib.Program
open Snitchaser.Lzo.Decoding
open Snitchaser.Lzo.Encoding
open Snitchaser.Lzo.Format
open Snitchaser.Lzo.Model
open Snitchaser.Lzo.Safety
open Snitchaser.Stream.Bigbuffer (AppendStop ends_writeStream writeStream)
open Snitchaser.Stream.Compression (State Kernel Lzo Codes CompressesOn Refused maxCompSz
  ends_flushCompBuffer flushCompBuffer readBlocks readBlocks_blocks readBlocks_parts)

/-! ## One block -/

section Block

variable {b : Input} {dict : Nat → Nat} {src : Source} {cap : Nat} {comp : List UInt8}

/-- What the compressor returns stands for the input, and is shorter than
`lzo1x_worst_compress` says. -/
theorem compress_spec (hp : Placed b dict) (hcomp : lzo1x1Compress b dict = .ok comp) :
    comp.length + 62 ≤ lzo1xWorstCompress b.inLen ∧
      ∃ bytes, comp = bytes ++ eofBytes ∧ Coded bytes (readBytes b.mem b.start b.inLen) := by
  obtain ⟨bytes, hcomp', hcoded⟩ := compress_coded hp
  obtain rfl := Except.ok.inj (hcomp.symm.trans hcomp')
  have hlen := hcoded.length_le
  rw [length_readBytes] at hlen
  refine ⟨?_, bytes, rfl, hcoded⟩
  rw [List.length_append]
  unfold lzo1xWorstCompress
  change bytes.length + 3 + 62 ≤ _
  omega

theorem decompress_spec (hp : Placed b dict) (hcomp : lzo1x1Compress b dict = .ok comp)
    (hsize : lzo1xWorstCompress b.inLen < 2 ^ 32) (hcap : b.inLen ≤ cap) (hlt : cap < 2 ^ 32)
    (hbytes : BytesAt src.bytes 0 comp) (hlen : src.len = comp.length)
    (hlimit : comp.length ≤ src.limit) :
    lzo1xDecompressSafe src cap = .ok (.ok, readBytes b.mem b.start b.inLen) := by
  obtain ⟨hfits, bytes, rfl, hcoded⟩ := compress_spec hp hcomp
  have hs : Sizes src cap := ⟨by omega, by omega, hlt⟩
  rw [List.length_append] at hlen
  exact decompress_coded hs hcoded hbytes hlen (by rwa [length_readBytes])

/-- Compressing and decompressing gives the input back, whatever the table of the
compressor held and whatever stands behind the compressed bytes. -/
theorem compressed_input_round_trip (hp : Placed b dict)
    (hsize : lzo1xWorstCompress b.inLen < 2 ^ 32)
    (hcap : b.inLen ≤ cap) (hlt : cap < 2 ^ 32) :
    ∃ comp, lzo1x1Compress b dict = .ok comp ∧
      ∀ src : Source, BytesAt src.bytes 0 comp → src.len = comp.length →
        comp.length ≤ src.limit →
        lzo1xDecompressSafe src cap = .ok (.ok, readBytes b.mem b.start b.inLen) := by
  obtain ⟨bytes, hcomp, -⟩ := compress_coded hp
  exact ⟨_, hcomp, fun src hbytes hlen hlimit =>
    decompress_spec hp hcomp hsize hcap hlt hbytes hlen hlimit⟩

/-- Forty bytes of period three, and a table that leads into them and past them. -/
def periodic : Input := ⟨fun a => UInt8.ofNat (a % 3), 0x10000, 40⟩

def staleTable (i : Nat) : Nat := 0x10000 + i % 64

theorem placed_periodic : Placed periodic staleTable :=
  ⟨by decide, by decide, fun i => by unfold staleTable; omega⟩

theorem compressed_input_round_trip_periodic :
    ∃ comp, lzo1x1Compress periodic staleTable = .ok comp ∧
      ∀ src : Source, BytesAt src.bytes 0 comp → src.len = comp.length →
        comp.length ≤ src.limit →
        lzo1xDecompressSafe src 40 = .ok (.ok, readBytes periodic.mem 0x10000 40) :=
  compressed_input_round_trip placed_periodic (by decide) (Nat.le_refl 40) (by decide)

end Block

/-! ## `compression.c` -/

/-- The input of the decompressor when nothing behind it can be read. -/
def sourceOf (bytes : List UInt8) : Source :=
  ⟨fun i => bytes.getD i 0, bytes.length, bytes.length⟩

theorem bytesAt_sourceOf (bytes : List UInt8) : BytesAt (sourceOf bytes).bytes 0 bytes := by
  apply List.ext_getElem
  · rw [length_readBytes]
  · intro i hi hi'
    have hget : bytes.getD i 0 = bytes[i] := List.getD_eq_getElem _ _ hi'
    simpa [readBytes, sourceOf] using hget

/-- `decompress`, with what it leaves in `dst`. -/
def decompress (src : List UInt8) (dstLen : Nat) : Except Stop (List UInt8) := do
  let r ← lzo1xDecompressSafe (sourceOf src) dstLen
  if r.1 = .ok then pure r.2 else .error (.assertion "err == LZO_E_OK")

/-- `decompress` as the reader of a file uses it: the size is that of the block's head. -/
def decompressBlock (oriSz : Nat) (data : List UInt8) : Option (List UInt8) :=
  (decompress data oriSz).toOption

theorem codes_compressed {b : Input} {dict : Nat → Nat} {comp : List UInt8} (hp : Placed b dict)
    (hsz : b.inLen ≤ maxCompSz) (hcomp : lzo1x1Compress b dict = .ok comp) :
    Codes decompressBlock (readBytes b.mem b.start b.inLen) comp := by
  have hmax : maxCompSz = 2097152 := by decide
  have hworst : lzo1xWorstCompress b.inLen < 2 ^ 32 := by
    unfold lzo1xWorstCompress
    omega
  have hfits := (compress_spec hp hcomp).1
  refine ⟨by omega, ?_⟩
  have hdone := decompress_spec hp hcomp hworst (Nat.le_refl _) (by omega)
    (bytesAt_sourceOf comp) rfl (Nat.le_refl _)
  rw [length_readBytes, decompressBlock, decompress, hdone]
  rfl

/-- The bytes `data` from `start` on. -/
def inputOf (start : Nat) (data : List UInt8) : Input :=
  ⟨fun a => data.getD (a - start) 0, start, data.length⟩

theorem readBytes_inputOf (start : Nat) (data : List UInt8) :
    readBytes (inputOf start data).mem (inputOf start data).start (inputOf start data).inLen =
      data := by
  apply List.ext_getElem
  · rw [length_readBytes]
    rfl
  · intro i hi hi'
    have hget : data.getD i 0 = data[i] := List.getD_eq_getElem _ _ hi'
    simpa [readBytes, inputOf] using hget

theorem placed_inputOf {start : Nat} {dict : Nat → Nat} {data : List UInt8}
    (hlow : m4MaxOffset ≤ start) (hhigh : start + maxCompSz ≤ 2 ^ 32)
    (hdict : ∀ i, dict i < 2 ^ 32) (hsz : data.length ≤ maxCompSz) :
    Placed (inputOf start data) dict :=
  ⟨hlow, (Nat.add_le_add_left hsz start).trans hhigh, hdict⟩

/-- The two functions keep what the buffers and the logger rely on, wherever the data lie
and whatever the table holds. -/
def lzo1x (start : Nat) (dict : Nat → Nat) (hlow : m4MaxOffset ≤ start)
    (hhigh : start + maxCompSz ≤ 2 ^ 32) (hdict : ∀ i, dict i < 2 ^ 32) : Lzo where
  compress data := (lzo1x1Compress (inputOf start data) dict).toOption.getD []
  decompress := decompressBlock
  decompress_compress data _ hsz := by
    have hp := placed_inputOf hlow hhigh hdict hsz
    obtain ⟨bytes, hcomp, -⟩ := compress_coded hp
    have hcodes := (codes_compressed hp hsz hcomp).decompress
    rw [readBytes_inputOf] at hcodes
    rw [hcomp]
    exact hcodes
  length_compress data _ hsz := by
    have hp := placed_inputOf hlow hhigh hdict hsz
    obtain ⟨bytes, hcomp, -⟩ := compress_coded hp
    have hfits := (compress_spec hp hcomp).1
    rw [hcomp]
    exact Nat.le_trans (Nat.le_add_right _ 62) hfits

/-- The stream of the big buffer over the two functions, with one address and one table
for all of its blocks. -/
theorem ends_writeStream_lzo1x {k : Kernel} {fd : Int} {bb start : Nat} {dict : Nat → Nat}
    {calls : List (List UInt8)} {s : State} (hlow : m4MaxOffset ≤ start)
    (hhigh : start + maxCompSz ≤ 2 ^ 32) (hdict : ∀ i, dict i < 2 ^ 32) :
    Ends (writeStream k (lzo1x start dict hlow hhigh hdict) fd bb calls) s
      (fun _ t => ∃ written, t.file = s.file ++ written ∧
        readBlocks decompressBlock written = some calls.flatten)
      (AppendStop k fd bb calls.flatten.length) := by
  refine ends_writeStream.post ?_
  rintro _ t ⟨hholds, hptr⟩
  obtain ⟨segs, hsegs, hfile, hdata⟩ := hholds.written hptr
  exact ⟨_, hfile, hdata ▸ readBlocks_blocks hsegs⟩

/-! ## What a flush leaves in the file -/

section Flush

variable {k : Kernel} {wrk : Nat → Nat → Nat}

/-- The compressor as `flush_small_buffer` calls it. -/
def compressBlock (wrk : Nat → Nat → Nat) (buffer sz : Nat) : Prog State (List UInt8) := do
  let s ← get
  ofExcept (lzo1x1Compress ⟨s.mem, buffer, sz⟩ (wrk s.file.length))

/-- Where the buffer can be, for the compressor to be right about its table. -/
structure Reachable (buffer sz : Nat) : Prop where
  low : m4MaxOffset ≤ buffer
  high : buffer + sz ≤ 2 ^ 32

theorem compressesOn_compressBlock {buffer sz : Nat} (hbuf : Reachable buffer sz)
    (hwrk : ∀ n i, wrk n i < 2 ^ 32) :
    CompressesOn (compressBlock wrk) (Codes decompressBlock) buffer sz := by
  intro b n s hlo hhi hmax
  have hp : Placed ⟨s.mem, b, n⟩ (wrk s.file.length) :=
    ⟨hbuf.low.trans hlo, hhi.trans hbuf.high, hwrk s.file.length⟩
  obtain ⟨bytes, hcomp, -⟩ := compress_coded hp
  rw [compressBlock, ends_bind, ends_get, hcomp, ends_ofExcept]
  exact ⟨codes_compressed hp hmax hcomp, rfl⟩

/-- Whatever the stack holds, a flush leaves blocks that decompress to the buffer, or an
assertion fails on account of an argument or of the kernel. -/
theorem flushed_buffer_reads_back {fd : Int} {buffer sz : Nat} {s : State}
    (hbuf : Reachable buffer sz) (hwrk : ∀ n i, wrk n i < 2 ^ 32) :
    Ends (flushCompBuffer k (compressBlock wrk) fd buffer sz) s
      (fun _ t => t.mem = s.mem ∧ ∃ written, t.file = s.file ++ written ∧
        readBlocks decompressBlock written = some (readBytes s.mem buffer sz))
      (Refused k fd buffer) := by
  refine (ends_flushCompBuffer (compressesOn_compressBlock hbuf hwrk)).post ?_
  rintro _ t ⟨parts, hparts, hdata, rfl⟩
  exact ⟨rfl, _, rfl, hdata ▸ readBlocks_parts hparts⟩

/-- A kernel that writes everything, and a stack that holds the same word everywhere. -/
theorem flushed_buffer_reads_back_complete :
    Ends (flushCompBuffer ⟨fun _ count => count⟩ (compressBlock fun _ _ => 0xBFFF) 3 0x10000 100)
      ⟨fun a => UInt8.ofNat (a % 7), 0, []⟩
      (fun _ t => t.mem = (fun a => UInt8.ofNat (a % 7)) ∧ ∃ written, t.file = [] ++ written ∧
        readBlocks decompressBlock written =
          some (readBytes (fun a => UInt8.ofNat (a % 7)) 0x10000 100))
      (Refused ⟨fun _ count => count⟩ 3 0x10000) :=
  flushed_buffer_reads_back ⟨by decide, by decide⟩ fun _ _ => by decide

end Flush

end Snitchaser.Lzo.RoundTrip
