import Mathlib.Data.List.Forall2
import Snitchaser.Checkpoint.Sections
/-!
# A checkpoint can be read back

The stream of `do_checkpoint` is a head, the records of the process, one record
for each mapping saved, and an end record.  The parser below recovers all of it.
-/

namespace Snitchaser.Checkpoint.RoundTrip

open Snitchaser.Checkpoint.Model
open Snitchaser.Checkpoint.Sections
open Snitchaser.Defs
open Snitchaser.Lib.ByteMemory
open Snitchaser.Lib.Decode
open Snitchaser.Lib.Hoare
open Snitchaser.Lib.LittleEndian
open Snitchaser.Lib.Program
open Snitchaser.Pages
open Snitchaser.Proc.Entry
open Snitchaser.Tls.Model (getTlsDesc)

/-! ## The memory map -/

section Maps

variable {ρ : Type} {m : MapsReader ρ} {k : Kernel} {mem : Memory} {max : Nat} {E : Stop → Prop}

/-- The segments written for a list of entries: all but the map's own buffer. -/
def segments (mem : Memory) (procmapPtr : Nat) (rs : List MapsEntry) : List Record :=
  (rs.filter fun r => r.start ≠ procmapPtr).map (memseg mem)

/-- An entry that has to be saved and cannot be. -/
def Unsaveable (k : Kernel) (procmapPtr : Nat) (rs : List MapsEntry) : Prop :=
  ∃ r ∈ rs, r.start ≠ procmapPtr ∧ ¬ Saveable k r

theorem outputs_ckptLoop {procmapPtr fuel : Nat} {h : ρ} {rs : List MapsEntry}
    (hw : Allows k max E) (hyields : Yields m.readMapsLine h rs) (hfuel : rs.length < fuel)
    (hlen : ∀ record ∈ segments mem procmapPtr rs, record.payload.length ≤ max)
    (hE : Unsaveable k procmapPtr rs → ∀ e, E e) :
    Outputs State.stream (ckptLoop k mem m procmapPtr fuel h)
      ((segments mem procmapPtr rs).flatMap Record.bytes) E := by
  induction hyields generalizing fuel with
  | done hread hinvalid =>
      obtain ⟨fuel, rfl⟩ : ∃ n, fuel = n + 1 := ⟨fuel - 1, by simp at hfuel; omega⟩
      constructor
      intro s
      simp [ckptLoop, ends_ofExcept, hread, hinvalid, segments]
  | @next h h' r rs hread hvalid hrest ih =>
      obtain ⟨fuel, rfl⟩ : ∃ n, fuel = n + 1 := ⟨fuel - 1, by omega⟩
      have hbad : Unsaveable k procmapPtr rs → ∀ e, E e := by
        rintro ⟨x, hx, hstart, hsave⟩
        exact hE ⟨x, by simp [hx], hstart, hsave⟩
      have hrec := fun hrest => ih (show rs.length < fuel by simpa using hfuel) hrest hbad
      constructor
      intro s
      rw [ckptLoop, ends_bind, ends_ofExcept, hread]
      simp only [hvalid, if_true]
      by_cases hown : r.start = procmapPtr
      · have hseg : segments mem procmapPtr (r :: rs) = segments mem procmapPtr rs := by
          simp [segments, hown]
        rw [hseg] at hlen
        rw [if_pos hown, hseg]
        exact (hrec hlen).ends s
      · have hseg : segments mem procmapPtr (r :: rs) =
            memseg mem r :: segments mem procmapPtr rs := by
          simp [segments, hown]
        rw [hseg, List.forall_mem_cons] at hlen
        rw [if_neg hown, hseg, List.flatMap_cons]
        refine (Outputs.seq ?_ (hrec hlen.2)).ends s
        exact outputs_ckptMemseg hw hvalid hlen.1 fun hsave => hE ⟨r, by simp, hown, hsave⟩

/-- The address `ckpt_meminfo` gets its buffer at, guard page included. -/
def guardedPages (k : Kernel) : Nat :=
  k.mmap (alignUp (maxProcMapsFileSize + 2 * procmapGuard) pageSize)

def procmapPtrOf (k : Kernel) : Nat := guardedPages k + procmapGuard

/-- The allocation of the map's buffer succeeds. -/
structure PagesOk (k : Kernel) : Prop where
  valid : isValidPage (guardedPages k) = true
  nonnull : guardedPages k ≠ 0
  munmap : ∀ ptr sz, k.munmap ptr sz = 0

def endRecord : Record := ⟨CkptMark.sectEnd.val, []⟩

/-- What `ckpt_meminfo` does once its buffer is allocated at `g1`. -/
theorem outputs_meminfo_rest {fuel : Nat} {h : ρ} {rs : List MapsEntry} (hw : Allows k max E)
    (hprocmap : m.readSelfProcmap (procmapPtrOf k) = .ok h) (hyields : Yields m.readMapsLine h rs)
    (hfuel : rs.length < fuel)
    (hlen : ∀ record ∈ segments mem (procmapPtrOf k) rs, record.payload.length ≤ max)
    (hE : ¬ PagesOk k ∨ Unsaveable k (procmapPtrOf k) rs → ∀ e, E e)
    (hvalid : isValidPage (guardedPages k) = true) :
    Outputs State.stream
      (do
        assertThat (guardedPages k ≠ 0) "g1 != NULL"
        xdeallocPages (sysMunmap k) (guardedPages k) procmapGuard
        xdeallocPages (sysMunmap k) (procmapPtrOf k + maxProcMapsFileSize) procmapGuard
        let h ← ofExcept (m.readSelfProcmap (procmapPtrOf k))
        ckptLoop k mem m (procmapPtrOf k) fuel h
        xdeallocPages (sysMunmap k) (procmapPtrOf k) maxProcMapsFileSize
        writeWord k mem CkptMark.sectEnd.val
        writeWord k mem 0)
      ((segments mem (procmapPtrOf k) rs ++ [endRecord]).flatMap Record.bytes) E := by
  have hpages : ∀ i, isValidPage (guardedPages k + i * pageSize) = true := by
    intro i
    simp only [isValidPage, beq_iff_eq] at hvalid ⊢
    rw [Nat.add_mul_mod_self_right, hvalid]
  have hfirst : isValidPage (procmapPtrOf k) = true := by
    rw [procmapPtrOf, show procmapGuard = 1 * pageSize by decide]
    exact hpages 1
  have hsecond : isValidPage (procmapPtrOf k + maxProcMapsFileSize) = true := by
    rw [procmapPtrOf, Nat.add_assoc,
      show procmapGuard + maxProcMapsFileSize = 257 * pageSize by decide]
    exact hpages 257
  have hread : (ofExcept (m.readSelfProcmap (procmapPtrOf k)) : Prog State ρ) = pure h := by
    rw [hprocmap]
    rfl
  have hfree : ∀ ptr sz, isValidPage ptr = true →
      Outputs State.stream (xdeallocPages (sysMunmap k) ptr sz) [] E :=
    fun ptr sz hptr => outputs_xdeallocPages hptr fun herr =>
      hE (Or.inl fun hok => herr (hok.munmap _ _))
  have hloop : Outputs State.stream (ckptLoop k mem m (procmapPtrOf k) fuel h)
      ((segments mem (procmapPtrOf k) rs).flatMap Record.bytes) E :=
    outputs_ckptLoop hw hyields hfuel hlen fun hbad => hE (Or.inr hbad)
  have hbytes : (segments mem (procmapPtrOf k) rs ++ [endRecord]).flatMap Record.bytes =
      [] ++ ([] ++ ((segments mem (procmapPtrOf k) rs).flatMap Record.bytes ++
        ([] ++ (leBytes 4 CkptMark.sectEnd.val ++ leBytes 4 0)))) := by
    rw [List.flatMap_append]
    rfl
  rw [hread, hbytes]
  refine Outputs.check (fun _ => ?_) fun hnull => hE (Or.inl fun hok => ?_) _
  on_goal 2 => exact of_decide_eq_false hnull hok.nonnull
  refine (hfree (guardedPages k) procmapGuard hvalid).seq ?_
  refine (hfree (procmapPtrOf k + maxProcMapsFileSize) procmapGuard hsecond).seq ?_
  rw [pure_bind]
  refine hloop.seq ?_
  refine (hfree (procmapPtrOf k) maxProcMapsFileSize hfirst).seq ?_
  exact (outputs_writeWord hw _).seq (outputs_writeWord hw _)

theorem outputs_ckptMeminfo {fuel : Nat} {h : ρ} {rs : List MapsEntry} (hw : Allows k max E)
    (hprocmap : m.readSelfProcmap (procmapPtrOf k) = .ok h) (hyields : Yields m.readMapsLine h rs)
    (hfuel : rs.length < fuel)
    (hlen : ∀ record ∈ segments mem (procmapPtrOf k) rs, record.payload.length ≤ max)
    (hE : ¬ PagesOk k ∨ Unsaveable k (procmapPtrOf k) rs → ∀ e, E e) :
    Outputs State.stream (ckptMeminfo k mem m fuel)
      ((segments mem (procmapPtrOf k) rs ++ [endRecord]).flatMap Record.bytes) E := by
  constructor
  intro s
  rw [ckptMeminfo, ends_bind]
  refine ends_xallocPages (by decide) ?_ ?_
  · intro hvalid
    exact (outputs_meminfo_rest hw hprocmap hyields hfuel hlen hE hvalid).ends s
  · intro hinvalid
    refine hE (Or.inl fun hok => ?_)
    have hvalid := hok.valid
    rw [guardedPages, hinvalid] at hvalid
    cases hvalid

end Maps

/-! ## The process -/

/-- `str` stands at `a` with its terminating NUL. -/
def CString (mem : Memory) (a : Nat) (str : List UInt8) : Prop :=
  readBytes mem a (str.length + 1) = str ++ [0] ∧ 0 ∉ str

theorem strlen_eq {mem : Memory} {a fuel : Nat} {str : List UInt8} (h : CString mem a str)
    (hfuel : str.length < fuel) : strlen mem a fuel = some str.length := by
  induction str generalizing a fuel with
  | nil =>
      obtain ⟨fuel, rfl⟩ : ∃ n, fuel = n + 1 := ⟨fuel - 1, by omega⟩
      have hread := h.1
      rw [List.length_nil, readBytes_succ] at hread
      have hzero : mem a = 0 := (List.cons.inj hread).1
      rw [strlen, if_pos hzero]
      rfl
  | cons b str ih =>
      obtain ⟨fuel, rfl⟩ : ∃ n, fuel = n + 1 := ⟨fuel - 1, by omega⟩
      have hread := h.1
      rw [List.length_cons, readBytes_succ] at hread
      obtain ⟨hb, hrest⟩ := List.cons.inj hread
      have hnonzero : mem a ≠ 0 := by
        rw [hb]
        intro hzero
        exact h.2 (by rw [hzero]; exact List.mem_cons_self)
      have htail : strlen mem (a + 1) fuel = some str.length :=
        ih ⟨hrest, fun hmem => h.2 (List.mem_cons_of_mem b hmem)⟩ (by simpa using hfuel)
      rw [strlen, if_neg hnonzero, htail]
      rfl

/-- The stack of the process is as the kernel sets it up, with some argument and
some environment string. -/
structure InfoOk (mem : Memory) (info : StackInfo) (path : List UInt8) : Prop where
  exec : info.bottomExecFn ≠ 0
  string : CString mem info.bottomExecFn path
  fits : info.bottomExecFn + path.length < 2 ^ 32
  args : info.cmdlineArgbegin ≠ 0
  argsBefore : info.cmdlineArgbegin < info.cmdlineArgend
  argsFit : info.cmdlineArgend < 2 ^ 32
  envs : info.envbegin ≠ 0
  envsBefore : info.envbegin < info.envend
  envsFit : info.envend < 2 ^ 32

def argsBlock (mem : Memory) (info : StackInfo) : List UInt8 :=
  readBytes mem info.cmdlineArgbegin (info.cmdlineArgend - info.cmdlineArgbegin)

def envsBlock (mem : Memory) (info : StackInfo) : List UInt8 :=
  readBytes mem info.envbegin (info.envend - info.envbegin)

/-- The records in front of the memory segments. -/
def processRecords (mem : Memory) (p : Process) (path : List UInt8) : List Record :=
  [⟨CkptMark.sectExec.val, path ++ [0]⟩, ⟨CkptMark.sectArgs.val, argsBlock mem p.info⟩,
    ⟨CkptMark.sectEnvs.val, envsBlock mem p.info⟩, ⟨CkptMark.sectCpu.val, p.cpuinfo⟩,
    ⟨CkptMark.sectTls.val, p.tlsinfo⟩]

section Process

variable {k : Kernel} {mem : Memory} {max : Nat} {E : Stop → Prop}

theorem outputs_userSection {mark : CkptMark} {addr n : Nat} (hw : Allows k max E)
    (haddr : addr ≠ 0) (hn : n ≤ max) :
    Outputs State.stream (writeSection k mem mark (.user addr) n)
      (Record.bytes ⟨mark.val, readBytes mem addr n⟩) E :=
  outputs_writeSection hw rfl (length_readBytes _ _ _) hn
    fun hnull => absurd (fun _ => beq_eq_false_iff_ne.mpr haddr) hnull

theorem outputs_bufferSection {mark : CkptMark} {bytes : List UInt8} (hw : Allows k max E)
    (hlen : bytes.length ≤ max) :
    Outputs State.stream (writeSection k mem mark (.buffer bytes) bytes.length)
      (Record.bytes ⟨mark.val, bytes⟩) E :=
  outputs_writeSection hw (load_buffer rfl) rfl hlen fun hnull => absurd (fun _ => rfl) hnull

theorem outputs_writeExec {a : Nat} {path : List UInt8} (hw : Allows k max E) (ha : a ≠ 0)
    (h : CString mem a path) (hfits : a + path.length < 2 ^ 32)
    (hlen : (path ++ [0]).length ≤ max) :
    Outputs State.stream (writeExec k mem a)
      (Record.bytes ⟨CkptMark.sectExec.val, path ++ [0]⟩) E := by
  rw [List.length_append, List.length_singleton] at hlen
  rw [writeExec, strlen_eq h (by omega), ← h.1]
  exact outputs_userSection hw ha hlen

theorem outputs_ckptBaseinfo {info : StackInfo} {path : List UInt8} (hw : Allows k max E)
    (h : InfoOk mem info path) (hpath : (path ++ [0]).length ≤ max)
    (hargs : (argsBlock mem info).length ≤ max) (henvs : (envsBlock mem info).length ≤ max) :
    Outputs State.stream (ckptBaseinfo k mem info)
      (Record.bytes ⟨CkptMark.sectExec.val, path ++ [0]⟩ ++
        (Record.bytes ⟨CkptMark.sectArgs.val, argsBlock mem info⟩ ++
          Record.bytes ⟨CkptMark.sectEnvs.val, envsBlock mem info⟩)) E := by
  have hargsBefore := h.argsBefore
  have henvsBefore := h.envsBefore
  rw [argsBlock, length_readBytes] at hargs
  rw [envsBlock, length_readBytes] at henvs
  refine Outputs.passed h.exec <| (outputs_writeExec hw h.exec h.string h.fits hpath).seq ?_
  refine Outputs.passed h.args <| Outputs.passed (by omega) <| Outputs.passed hargsBefore ?_
  refine (outputs_userSection hw h.args hargs).seq ?_
  refine Outputs.passed h.envs <| Outputs.passed (by omega) <| Outputs.passed henvsBefore ?_
  exact outputs_userSection hw h.envs henvs

theorem outputs_ckptArchinfo {cpuinfo tlsinfo : List UInt8} (hw : Allows k max E)
    (hcpu : cpuinfo.length ≤ max) (htls : tlsinfo.length ≤ max) :
    Outputs State.stream (ckptArchinfo k mem cpuinfo tlsinfo)
      (Record.bytes ⟨CkptMark.sectCpu.val, cpuinfo⟩ ++
        Record.bytes ⟨CkptMark.sectTls.val, tlsinfo⟩) E :=
  (outputs_bufferSection hw hcpu).seq (outputs_bufferSection hw htls)

theorem length_head (h : CheckpointHead) : h.bytes.length = 44 := by
  have hversion : ckptVersionString.length = 18 := by decide
  simp [CheckpointHead.bytes, hversion]

theorem outputs_doCheckpoint {ρ : Type} {m : MapsReader ρ} {h : ρ} {rs : List MapsEntry}
    {p : Process} {path : List UInt8} {fuel : Nat} (hw : Allows k max E) (hopen : 0 ≤ k.openFile)
    (hinfo : InfoOk mem p.info path)
    (hprocmap : m.readSelfProcmap (procmapPtrOf k) = .ok h) (hyields : Yields m.readMapsLine h rs)
    (hfuel : rs.length < fuel)
    (hlen : ∀ record ∈ processRecords mem p path ++ segments mem (procmapPtrOf k) rs,
      record.payload.length ≤ max)
    (hE : ¬ PagesOk k ∨ Unsaveable k (procmapPtrOf k) rs → ∀ e, E e) :
    Outputs State.stream (doCheckpoint k mem m p fuel)
      ((checkpointHead k p).bytes ++
        (processRecords mem p path ++ segments mem (procmapPtrOf k) rs ++
          [endRecord]).flatMap Record.bytes) E := by
  have htd : getTlsDesc p.tlsStart.toNat ≠ 0 := by
    have harea := tlsAreaSize_eq
    have hdesc : sizeofTlsDesc = 24 := rfl
    unfold getTlsDesc
    omega
  have hbytes : (processRecords mem p path ++ segments mem (procmapPtrOf k) rs ++
      [endRecord]).flatMap Record.bytes =
      Record.bytes ⟨CkptMark.sectExec.val, path ++ [0]⟩ ++
        (Record.bytes ⟨CkptMark.sectArgs.val, argsBlock mem p.info⟩ ++
          Record.bytes ⟨CkptMark.sectEnvs.val, envsBlock mem p.info⟩) ++
      (Record.bytes ⟨CkptMark.sectCpu.val, p.cpuinfo⟩ ++
        Record.bytes ⟨CkptMark.sectTls.val, p.tlsinfo⟩ ++
      (segments mem (procmapPtrOf k) rs ++ [endRecord]).flatMap Record.bytes) := by
    simp [processRecords]
  have hhead : (checkpointHead k p).bytes.length ≤ max := (length_head _).trans_le hw.max_ge
  obtain ⟨hprocess, hsegments⟩ := List.forall_mem_append.mp hlen
  simp only [processRecords, List.forall_mem_cons] at hprocess
  obtain ⟨hpath, hargs, henvs, hcpu, htls, _⟩ := hprocess
  rw [doCheckpoint, if_neg (not_lt.mpr hopen), hbytes]
  refine Outputs.passed htd ((outputs_buffer hw rfl hhead).seq ?_)
  apply (outputs_ckptBaseinfo hw hinfo hpath hargs henvs).seq
  apply (outputs_ckptArchinfo hw hcpu htls).seq
  exact outputs_ckptMeminfo hw hprocmap hyields hfuel hsegments hE

end Process

/-! ## Parsing -/

def takeHead : Decoder CheckpointHead := do
  let magic ← takeBytes 18
  if magic = ckptVersionString then
    let _ ← takeBytes 2
    let pid ← takeLe 4
    let tid ← takeLe 4
    let tlsStart ← takeLe 4
    let tlsSize ← takeLe 4
    let brk ← takeLe 4
    let stackTop ← takeLe 4
    pure ⟨UInt32.ofNat pid, UInt32.ofNat tid, UInt32.ofNat tlsStart, UInt32.ofNat tlsSize,
      UInt32.ofNat brk, UInt32.ofNat stackTop⟩
  else
    failure

def takeFinfo : Decoder MapFileInfo := do
  let prot ← takeLe 4
  let offset ← takeLe 8
  let spaceSz ← takeLe 4
  let ckptSz ← takeLe 4
  let start ← takeLe 4
  let end_ ← takeLe 4
  pure ⟨prot, offset, spaceSz, ckptSz, start, end_⟩

def isEndRecord (r : Record) : Bool := r.mark = CkptMark.sectEnd.val ∧ r.payload = []

/-- A head and the records up to the end record, and what follows it. -/
def parseCheckpoint (bytes : List UInt8) :
    Option (CheckpointHead × List Record × List UInt8) := do
  let (head, rest) ← takeHead bytes
  let (records, rest) ← decodeUntil isEndRecord takeRecord (rest.length + 1) rest
  pure (head, records, rest)

theorem reads_takeHead (h : CheckpointHead) : Reads takeHead h.bytes h := by
  have hbytes : h.bytes = ckptVersionString ++ ([0, 0] ++ (leBytes 4 h.pid.toNat ++
      (leBytes 4 h.tid.toNat ++ (leBytes 4 h.tlsStart.toNat ++ (leBytes 4 h.tlsSize.toNat ++
      (leBytes 4 h.brk.toNat ++ leBytes 4 h.stackTop.toNat)))))) := by
    simp [CheckpointHead.bytes]
  rw [hbytes]
  refine (reads_takeBytes (by decide)).bind ?_
  rw [if_pos rfl]
  apply (reads_takeBytes (show [0, 0].length = 2 by rfl)).bind
  apply (reads_takeLe h.pid.toNat_lt).bind
  apply (reads_takeLe h.tid.toNat_lt).bind
  apply (reads_takeLe h.tlsStart.toNat_lt).bind
  apply (reads_takeLe h.tlsSize.toNat_lt).bind
  apply (reads_takeLe h.brk.toNat_lt).bind
  apply (reads_takeLe h.stackTop.toNat_lt).bind_pure
  simp only [UInt32.ofNat_toNat]

theorem reads_takeFinfo {f : MapFileInfo} (hprot : f.prot < 2 ^ 32) (hoffset : f.offset < 2 ^ 64)
    (hspace : f.spaceSz < 2 ^ 32) (hckpt : f.ckptSz < 2 ^ 32) (hstart : f.start < 2 ^ 32)
    (hend : f.end_ < 2 ^ 32) : Reads takeFinfo f.bytes f := by
  have hbytes : f.bytes = leBytes 4 f.prot ++ (leBytes 8 f.offset ++ (leBytes 4 f.spaceSz ++
      (leBytes 4 f.ckptSz ++ (leBytes 4 f.start ++ leBytes 4 f.end_)))) := by
    simp [MapFileInfo.bytes]
  rw [hbytes]
  exact (reads_takeLe hprot).bind <| (reads_takeLe hoffset).bind <| (reads_takeLe hspace).bind <|
    (reads_takeLe hckpt).bind <| (reads_takeLe hstart).bind <| (reads_takeLe hend).bind_pure rfl

/-- Records that are not the end record, and the end record. -/
theorem decodeUntil_records {records : List Record}
    (h : ∀ r ∈ records, Reads takeRecord r.bytes r ∧ isEndRecord r = false) :
    decodeUntil isEndRecord takeRecord
        (((records ++ [endRecord]).flatMap Record.bytes).length + 1)
        ((records ++ [endRecord]).flatMap Record.bytes) = some (records, []) := by
  have hend : Reads takeRecord endRecord.bytes endRecord :=
    reads_mark (by decide)
  have hfuel : records.length <
      ((records ++ [endRecord]).flatMap Record.bytes).length + 1 := by
    have hle : (records ++ [endRecord]).length ≤
        ((records ++ [endRecord]).flatMap Record.bytes).length :=
      length_le_length_flatMap fun r _ => bytes_ne_nil r
    rw [List.length_append] at hle
    omega
  have huntil : decodeUntil isEndRecord takeRecord _
      (records.flatMap Record.bytes ++ endRecord.bytes ++ []) = some (records.map id, []) :=
    decodeUntil_flatMap (fun r hr => (h r hr).1) (fun r hr => (h r hr).2) hend (by decide) hfuel
  rw [List.map_id, List.append_nil] at huntil
  rw [List.flatMap_append, List.flatMap_singleton] at huntil ⊢
  exact huntil

theorem parseCheckpoint_eq {head : CheckpointHead} {records : List Record}
    (h : ∀ r ∈ records, Reads takeRecord r.bytes r ∧ isEndRecord r = false) :
    parseCheckpoint (head.bytes ++ (records ++ [endRecord]).flatMap Record.bytes) =
      some (head, records, []) := by
  simp only [parseCheckpoint, reads_takeHead head _, decodeUntil_records h, Option.bind_eq_bind,
    Option.bind_some]
  rfl

/-! ## The round trip -/

section RoundTrip

variable {k : Kernel} {mem : Memory} {r : MapsEntry}

/-- A mapping of the 32-bit address space, in a section whose length does not wrap. -/
structure EntryOk (r : MapsEntry) : Prop where
  valid : r.valid = true
  nonempty : r.start < r.end_
  below : r.end_ < 2 ^ 32
  prot : r.prot < 2 ^ 32
  offset : r.offset < 2 ^ 64
  noWrap : 53 + (r.fn.getD []).length + ckptSzOf r < 2 ^ 32

/-- `record` is a memory segment that holds the mapping `r`. -/
structure Saves (mem : Memory) (r : MapsEntry) (record : Record) : Prop where
  mark : record.mark = CkptMark.sectMemseg.val
  subsections : ∃ finfo fdata, decodeStream takeRecord record.payload =
      some [⟨CkptMark.subsectFn.val, r.fn.getD [] ++ [0]⟩, ⟨CkptMark.subsectFinfo.val, finfo⟩,
        ⟨CkptMark.subsectFdata.val, fdata⟩] ∧
    takeFinfo finfo =
      some (⟨r.prot, r.offset, r.end_ - r.start, fdata.length, r.start, r.end_⟩, []) ∧
    fdata = readBytes mem r.start (ckptSzOf r)

theorem length_memseg_payload :
    (memseg mem r).payload.length = 53 + (r.fn.getD []).length + ckptSzOf r := by
  simp only [memseg, memsegRecords, List.flatMap_cons, List.flatMap_nil, List.length_append,
    length_bytes, length_finfo, fnBuffer, fdataOf, length_readBytes, List.length_nil,
    List.length_singleton, sizeofMapFileInfo]
  omega

theorem ckptSzOf_le (hstart : r.start ≤ r.end_) (hend : r.end_ < 2 ^ 32) :
    ckptSzOf r ≤ r.end_ - r.start + pageSize := by
  have hsize : sub32 r.end_ r.start = r.end_ - r.start := sub32_of_le hend hstart
  have halign : alignUp (r.end_ - r.start) pageSize ≤ r.end_ - r.start + pageSize - 1 :=
    Nat.and_le_left.trans (Nat.mod_le _ _)
  unfold ckptSzOf
  rw [hsize]
  split_ifs
  · exact Nat.zero_le _
  · omega
  · omega

theorem takeFinfo_finfoOf (h : EntryOk r) : takeFinfo (finfoOf r).bytes =
    some (⟨r.prot, r.offset, r.end_ - r.start, ckptSzOf r, r.start, r.end_⟩, []) := by
  have hend := h.below
  have hspace : sub32 r.end_ r.start = r.end_ - r.start := sub32_of_le hend h.nonempty.le
  have hwrap := h.noWrap
  have hread : Reads takeFinfo (finfoOf r).bytes (finfoOf r) := by
    apply reads_takeFinfo h.prot h.offset
    · change sub32 r.end_ r.start < 2 ^ 32
      omega
    · change ckptSzOf r < 2 ^ 32
      omega
    · exact h.nonempty.trans hend
    · exact hend
  have hall := hread []
  rw [List.append_nil] at hall
  rw [hall, finfoOf, initialFinfo, hspace]

theorem reads_memsegRecords (h : EntryOk r) :
    ∀ sub ∈ memsegRecords mem r, Reads takeRecord sub.bytes sub := by
  have hwrap := h.noWrap
  intro sub hsub
  simp only [memsegRecords, List.mem_cons, List.not_mem_nil, or_false] at hsub
  rcases hsub with rfl | rfl | rfl
  · apply reads_mark
    rw [fnBuffer, List.length_append, List.length_singleton]
    omega
  · apply reads_mark
    rw [length_finfo]
    decide
  · apply reads_mark
    rw [fdataOf, length_readBytes]
    omega

theorem saves_memseg (h : EntryOk r) : Saves mem r (memseg mem r) := by
  have hsub : decodeStream takeRecord ((memsegRecords mem r).flatMap Record.bytes) =
      some ((memsegRecords mem r).map id) :=
    decodeStream_flatMap (reads_memsegRecords h) fun sub _ => bytes_ne_nil sub
  refine ⟨rfl, (finfoOf r).bytes, fdataOf mem r, ?_, ?_, rfl⟩
  · rw [List.map_id] at hsub
    exact hsub
  · rw [fdataOf, length_readBytes]
    exact takeFinfo_finfoOf h

theorem forall₂_saves {rs : List MapsEntry} (h : ∀ r ∈ rs, EntryOk r) (procmapPtr : Nat) :
    List.Forall₂ (Saves mem) (rs.filter fun r => r.start ≠ procmapPtr)
      (segments mem procmapPtr rs) := by
  rw [segments, List.forall₂_map_right_iff, List.forall₂_same]
  intro r hr
  exact saves_memseg (h r (List.mem_filter.mp hr).1)

theorem reads_segments {rs : List MapsEntry} (h : ∀ r ∈ rs, EntryOk r) {procmapPtr : Nat} :
    ∀ record ∈ segments mem procmapPtr rs,
      Reads takeRecord record.bytes record ∧ isEndRecord record = false := by
  intro record hrecord
  obtain ⟨r, hr, rfl⟩ := List.mem_map.mp hrecord
  constructor
  · have hwrap : (memseg mem r).payload.length < 2 ^ 32 := by
      rw [length_memseg_payload]
      exact (h r (List.mem_filter.mp hr).1).noWrap
    exact reads_mark hwrap
  · rfl

theorem reads_processRecords {p : Process} {path : List UInt8} :
    ∀ record ∈ processRecords mem p path, record.payload.length < 2 ^ 32 →
      Reads takeRecord record.bytes record ∧ isEndRecord record = false := by
  intro record hrecord hlen
  simp only [processRecords, List.mem_cons, List.not_mem_nil, or_false] at hrecord
  rcases hrecord with rfl | rfl | rfl | rfl | rfl
  · exact ⟨reads_mark hlen, rfl⟩
  · exact ⟨reads_mark hlen, rfl⟩
  · exact ⟨reads_mark hlen, rfl⟩
  · exact ⟨reads_mark hlen, rfl⟩
  · exact ⟨reads_mark hlen, rfl⟩

/-- The checkpoint of a process parses as its head, the five records of the process and
one segment for each mapping but the map's own buffer, with nothing after the end record. -/
theorem checkpoint_round_trip {ρ : Type} {m : MapsReader ρ} {h : ρ} {entries : List MapsEntry}
    {p : Process} {path : List UInt8} {max : Nat} (hopen : 0 ≤ k.openFile) (hpages : PagesOk k)
    (hinfo : InfoOk mem p.info path)
    (hprocmap : m.readSelfProcmap (procmapPtrOf k) = .ok h)
    (hyields : Yields m.readMapsLine h entries) (hentries : ∀ r ∈ entries, EntryOk r)
    (hsave : ∀ r ∈ entries, r.start ≠ procmapPtrOf k → Saveable k r)
    (hhead : 44 ≤ max) (hmax : max < 2 ^ 32) (hwrite : Complete k max)
    (hlen : ∀ record ∈ processRecords mem p path ++ segments mem (procmapPtrOf k) entries,
      record.payload.length ≤ max) :
    ∃ t segs, doCheckpoint k mem m p (entries.length + 1) ⟨[]⟩ = .ok () t ∧
      parseCheckpoint t.stream =
        some (checkpointHead k p, processRecords mem p path ++ segs, []) ∧
      List.Forall₂ (Saves mem) (entries.filter fun r => r.start ≠ procmapPtrOf k) segs := by
  have hw : Allows k max fun _ => False := ⟨hhead, hmax, Or.inl hwrite⟩
  have hnostop : ¬ (¬ PagesOk k ∨ Unsaveable k (procmapPtrOf k) entries) := by
    rintro (hnot | ⟨r, hr, hstart, hnot⟩)
    · exact hnot hpages
    · exact hnot (hsave r hr hstart)
  have hout := outputs_doCheckpoint hw hopen hinfo hprocmap hyields (Nat.lt_succ_self _) hlen
    fun hstop => absurd hstop hnostop
  obtain ⟨_, t, hrun, hstream⟩ := (hout.ends ⟨[]⟩).returns
  refine ⟨t, segments mem (procmapPtrOf k) entries, hrun, ?_, forall₂_saves hentries _⟩
  rw [hstream, List.nil_append]
  have hrecords : ∀ record ∈ processRecords mem p path ++ segments mem (procmapPtrOf k) entries,
      Reads takeRecord record.bytes record ∧ isEndRecord record = false := by
    intro record hrecord
    rcases List.mem_append.mp hrecord with hmem | hmem
    · exact reads_processRecords record hmem ((hlen record hrecord).trans_lt hmax)
    · exact reads_segments hentries record hmem
  exact parseCheckpoint_eq hrecords

/-- The map as a list of entries. -/
def listReader (entries : List MapsEntry) : MapsReader (List MapsEntry) where
  readSelfProcmap _ := .ok entries
  readMapsLine
    | [] => .ok (MapsEntry.invalid, [])
    | r :: rs => .ok (r, rs)

theorem yields_listReader {entries rs : List MapsEntry} (h : ∀ r ∈ rs, r.valid = true) :
    Yields (listReader entries).readMapsLine rs rs := by
  induction rs with
  | nil => exact .done rfl rfl
  | cons r rs ih =>
      have hrest := ih fun x hx => h x (List.mem_cons_of_mem r hx)
      exact .next rfl (h r List.mem_cons_self) hrest

/-- A kernel that grants every request, with its pages at `0x10000`. -/
def grantingKernel : Kernel where
  openFile := 3
  brk := 0x0804A000
  write _ n := n
  mmap _ := 0x10000
  munmap _ _ := 0
  mprotect _ _ _ := 0
  stat64 _ := none
  write_ge _ _ := by omega
  write_le _ _ := le_rfl

theorem complete_grantingKernel (max : Nat) : Complete grantingKernel max := fun _ _ _ => rfl

theorem pagesOk_grantingKernel : PagesOk grantingKernel := by
  constructor
  · decide
  · decide
  · intro _ _
    rfl

/-- A process with an argument block from `0x2000` up to `argend`. -/
def smallProcess (argend : Nat) : Process where
  pid := 100
  tid := 101
  tlsStart := 0xA0000000
  tlsSize := 0x4000
  stackTop := 0xBFFFF000
  info := ⟨0x1000, 0x2000, argend, 0x3000, 0x3001⟩
  cpuinfo := [1, 2, 3, 4]
  tlsinfo := []

/-- Unreadable anonymous memory, a device and the map's own buffer. -/
def threeMappings : List MapsEntry :=
  [⟨true, 0x8000, 0x9000, 0, 0, none⟩,
    ⟨true, 0xA000, 0xB000, 3, 0x100000000, some [47, 100, 101, 118, 47, 110]⟩,
    ⟨true, 0x11000, 0x111000, 3, 0, none⟩]

theorem checkpoint_round_trip_three_mappings : ∃ t segs,
    doCheckpoint grantingKernel (fun _ => 0) (listReader threeMappings) (smallProcess 0x2001) 4
      ⟨[]⟩ = .ok () t ∧
    parseCheckpoint t.stream = some (checkpointHead grantingKernel (smallProcess 0x2001),
      processRecords (fun _ => 0) (smallProcess 0x2001) [] ++ segs, []) ∧
    List.Forall₂ (Saves fun _ => 0) (threeMappings.take 2) segs := by
  have hinfo : InfoOk (fun _ => 0) (smallProcess 0x2001).info [] :=
    ⟨by decide, ⟨rfl, by decide⟩, by decide, by decide, by decide, by decide, by decide,
      by decide, by decide⟩
  have hentries : ∀ r ∈ threeMappings, EntryOk r := by
    intro r hr
    simp only [threeMappings, List.mem_cons, List.not_mem_nil, or_false] at hr
    rcases hr with rfl | rfl | rfl
    · exact ⟨rfl, by decide, by decide, by decide, by decide, by decide⟩
    · exact ⟨rfl, by decide, by decide, by decide, by decide, by decide⟩
    · exact ⟨rfl, by decide, by decide, by decide, by decide, by decide⟩
  have hsave : ∀ r ∈ threeMappings, r.start ≠ procmapPtrOf grantingKernel →
      Saveable grantingKernel r := by
    intro r hr _
    simp only [threeMappings, List.mem_cons, List.not_mem_nil, or_false] at hr
    rcases hr with rfl | rfl | rfl
    · exact Or.inr ⟨by decide, fun _ => ⟨rfl, rfl⟩⟩
    · exact Or.inl (by decide)
    · exact Or.inr ⟨by decide, fun _ => ⟨rfl, rfl⟩⟩
  have hyields : Yields (listReader threeMappings).readMapsLine threeMappings threeMappings :=
    yields_listReader fun r hr => (hentries r hr).valid
  have hothers : (threeMappings.filter fun r => r.start ≠ procmapPtrOf grantingKernel) =
      threeMappings.take 2 := by decide
  have hlen : ∀ record ∈ processRecords (fun _ => 0) (smallProcess 0x2001) [] ++
      segments (fun _ => 0) (procmapPtrOf grantingKernel) threeMappings,
      record.payload.length ≤ 0x2000 := by
    have hsizes : ∀ r ∈ threeMappings.take 2,
        53 + (r.fn.getD []).length + ckptSzOf r ≤ 0x2000 := by decide
    rw [segments, hothers, List.forall_mem_append]
    refine ⟨by decide, fun record hrecord => ?_⟩
    obtain ⟨r, hr, rfl⟩ := List.mem_map.mp hrecord
    rw [length_memseg_payload]
    exact hsizes r hr
  have htrip := checkpoint_round_trip (p := smallProcess 0x2001) (by decide)
    pagesOk_grantingKernel hinfo rfl hyields hentries hsave (by decide) (by decide)
    (complete_grantingKernel _) hlen
  rwa [hothers] at htrip

/-- Why a run stopped, if it did, and what the stream it leaves parses to. -/
def outcome : EStateM.Result Stop State Unit →
    Option Stop × Option (CheckpointHead × List Record × List UInt8)
  | .ok _ t => (none, parseCheckpoint t.stream)
  | .error e t => (some e, parseCheckpoint t.stream)

/-- A kernel that grants every request but those to write: the disk is full. -/
def fullDiskKernel : Kernel :=
  { grantingKernel with
    write := fun _ _ => -28
    write_ge := fun _ _ => by decide
    write_le := fun _ _ => by omega }

/-- The map's own buffer gets no segment.  An anonymous mapping at address 0 and an
empty argument block fail an assertion, a failed write is fatal, and what is written by
then does not parse. -/
theorem checkpoint_incomplete :
    outcome (doCheckpoint grantingKernel (fun _ => 0)
        (listReader [⟨true, 0x11000, 0x111000, 3, 0, none⟩]) (smallProcess 0x2001) 2 ⟨[]⟩) =
      (none, some (checkpointHead grantingKernel (smallProcess 0x2001),
        processRecords (fun _ => 0) (smallProcess 0x2001) [], [])) ∧
    outcome (doCheckpoint grantingKernel (fun _ => 0)
        (listReader [⟨true, 0, 0x1000, 3, 0, none⟩]) (smallProcess 0x2001) 2 ⟨[]⟩) =
      (some (.assertion "buffer != NULL"), none) ∧
    outcome (doCheckpoint grantingKernel (fun _ => 0) (listReader []) (smallProcess 0x2000) 1
        ⟨[]⟩) =
      (some (.assertion "STACK_INFO(cmdline_argend) > STACK_INFO(cmdline_argbegin)"), none) ∧
    outcome (doCheckpoint fullDiskKernel (fun _ => 0) (listReader []) (smallProcess 0x2001) 1
        ⟨[]⟩) =
      (some (.fatal "CKPT" "write to ckpt file failed: %d\n"), none) := by
  refine ⟨?_, ?_, ?_, ?_⟩
  · decide +kernel
  · decide +kernel
  · decide +kernel
  · decide +kernel

end RoundTrip

end Snitchaser.Checkpoint.RoundTrip
