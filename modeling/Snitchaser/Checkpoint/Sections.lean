import Snitchaser.Checkpoint.Model
import Snitchaser.Lib.Decode
import Snitchaser.Lib.Hoare
/-!
# What the section writers put into the stream

Lengths are summed up in one loop and bytes written in another.  Here both are
tied to one notion, a `Record` with its mark and payload, and each writer of
`checkpoint.c` is given the bytes it appends.  A writer can stop instead, for the
reasons that `Complete` and `Saveable` exclude.
-/

namespace Snitchaser.Checkpoint.Sections

open Snitchaser.Checkpoint.Model
open Snitchaser.Defs
open Snitchaser.Lib.ByteMemory
open Snitchaser.Lib.Decode
open Snitchaser.Lib.Hoare
open Snitchaser.Lib.LittleEndian
open Snitchaser.Lib.Program
open Snitchaser.Proc.Entry

/-! ## Records -/

/-- A section or subsection: a mark and a payload preceded by its length. -/
structure Record where
  mark : Nat
  payload : List UInt8
  deriving DecidableEq, Repr

def Record.bytes (r : Record) : List UInt8 :=
  leBytes 4 r.mark ++ leBytes 4 r.payload.length ++ r.payload

def takeRecord : Decoder Record := do
  let mark ← takeLe 4
  let length ← takeLe 4
  let payload ← takeBytes length
  pure ⟨mark, payload⟩

theorem reads_takeRecord {r : Record} (hmark : r.mark < 2 ^ 32)
    (hlen : r.payload.length < 2 ^ 32) : Reads takeRecord r.bytes r := by
  rw [Record.bytes, List.append_assoc]
  exact (reads_takeLe hmark).bind <| (reads_takeLe hlen).bind <|
    (reads_takeBytes rfl).bind_pure rfl

theorem mark_val_lt (mark : CkptMark) : mark.val < 2 ^ 32 := by
  cases mark <;> decide

theorem reads_mark {mark : CkptMark} {payload : List UInt8} (hlen : payload.length < 2 ^ 32) :
    Reads takeRecord (Record.bytes ⟨mark.val, payload⟩) ⟨mark.val, payload⟩ :=
  reads_takeRecord (mark_val_lt mark) hlen

theorem length_bytes (r : Record) : r.bytes.length = 8 + r.payload.length := by
  simp [Record.bytes]
  omega

theorem bytes_ne_nil (r : Record) : r.bytes ≠ [] := by
  intro hnil
  have hlen := length_bytes r
  rw [hnil, List.length_nil] at hlen
  omega

/-! ## The scatter list -/

section Writers

variable {k : Kernel} {mem : Memory} {finfo : List UInt8} {max : Nat} {E : Stop → Prop}

theorem load_zero (p : Ptr) : p.load mem finfo 0 = [] := by
  cases p <;> simp [Ptr.load]

/-- A non-null pointer, or nothing to copy from it. -/
def Readable (p : Ptr) (sz : Nat) : Prop := sz ≠ 0 → p.isNull = false

/-- Writes of up to `max` bytes are complete. -/
def Complete (k : Kernel) (max : Nat) : Prop := ∀ pos n, n ≤ max → k.write pos n = n

/-- Writes of up to `max` bytes, those of the head among them, are complete; or `E` allows
the stop at one that is not, and no error number can be taken for that many bytes. -/
structure Allows (k : Kernel) (max : Nat) (E : Stop → Prop) : Prop where
  max_ge : 44 ≤ max
  max_lt : max < 2 ^ 32
  answers : Complete k max ∨ max < 2 ^ 32 - 4095 ∧ ∀ e, E e

theorem Allows.write_eq {pos sz : Nat} (hw : Allows k max E) (hsz : sz ≤ max)
    (h : (k.write pos sz % 2 ^ 32).toNat = sz) : k.write pos sz = sz := by
  rcases hw.answers with hcomplete | ⟨hlt, _⟩
  · exact hcomplete pos sz hsz
  · have hge := k.write_ge pos sz
    have hle := k.write_le pos sz
    omega

theorem Allows.short {pos sz : Nat} (hw : Allows k max E) (hsz : sz ≤ max)
    (h : (k.write pos sz % 2 ^ 32).toNat ≠ sz) (e : Stop) : E e := by
  rcases hw.answers with hcomplete | ⟨_, hE⟩
  · have hlt := hw.max_lt
    rw [hcomplete pos sz hsz] at h
    omega
  · exact hE e

theorem outputs_writeto {p : Ptr} {sz : Nat} (hw : Allows k max E) (hsz : sz ≤ max)
    (hE : ¬ Readable p sz → ∀ e, E e) :
    Outputs State.stream (writeto k mem finfo p sz) (p.load mem finfo sz) E := by
  by_cases hzero : sz = 0
  · rw [writeto, if_pos hzero, hzero, load_zero]
    exact Outputs.pure
  · rw [writeto, if_neg hzero]
    refine Outputs.check (fun _ => ⟨fun s => ?_⟩) fun hnull => hE (fun hread => ?_) _
    · simp only [sysWrite, ends_bind, ends_get, ends_set, ends_pure, ends_ite, ends_throw]
      constructor
      · exact fun hne => hw.short hsz hne _
      · intro heq
        rw [hw.write_eq hsz (not_not.mp heq), Int.toNat_natCast]
    · rw [hread hzero] at hnull
      cases hnull

theorem load_buffer {bytes : List UInt8} {n : Nat} (h : bytes.length = n) :
    (Ptr.buffer bytes).load mem finfo n = bytes := by
  subst h
  exact List.take_length

theorem outputs_buffer {bytes : List UInt8} {n : Nat} (hw : Allows k max E) (h : bytes.length = n)
    (hn : n ≤ max) :
    Outputs State.stream (writeto k mem finfo (.buffer bytes) n) bytes E := by
  have hout : Outputs State.stream (writeto k mem finfo (.buffer bytes) n)
      ((Ptr.buffer bytes).load mem finfo n) E :=
    outputs_writeto hw hn fun hnull => absurd (fun _ => rfl) hnull
  rwa [load_buffer h] at hout

theorem outputs_writeWord (hw : Allows k max E) (x : Nat) :
    Outputs State.stream (writeWord k mem x) (leBytes 4 x) E :=
  outputs_buffer hw (length_leBytes 4 x) (le_trans (by decide) hw.max_ge)

/-- The bytes of one item of the list. -/
def sgBytes (mem : Memory) (finfo : List UInt8) (sg : Sg) : List UInt8 :=
  match sg.imark with
  | some imark => leBytes 4 imark.val ++ leBytes 4 sg.length ++ sg.ptr.load mem finfo sg.length
  | none => sg.ptr.load mem finfo sg.length

theorem outputs_writeSg {sg : Sg} (hw : Allows k max E) (hlen : sg.length ≤ max)
    (hE : ¬ Readable sg.ptr sg.length → ∀ e, E e) :
    Outputs State.stream (writeSg k mem finfo sg) (sgBytes mem finfo sg) E := by
  have hdata : Outputs State.stream (writeto k mem finfo sg.ptr sg.length)
      (sg.ptr.load mem finfo sg.length) E := outputs_writeto hw hlen hE
  unfold writeSg sgBytes writeImark
  cases sg.imark with
  | none => exact Outputs.pure.seq hdata
  | some imark =>
      exact ((outputs_writeWord hw imark.val).seq (outputs_writeWord hw sg.length)).seq hdata

theorem outputs_writeSectionSg {mark : CkptMark} {sglist : List Sg} (hw : Allows k max E)
    (hlen : ∀ sg ∈ sglist, sg.length ≤ max)
    (hE : ∀ sg ∈ sglist, ¬ Readable sg.ptr sg.length → ∀ e, E e) :
    Outputs State.stream (writeSectionSg k mem finfo mark sglist)
      (leBytes 4 mark.val ++ (leBytes 4 (sgSize sglist) ++
        sglist.flatMap (sgBytes mem finfo))) E :=
  (outputs_writeWord hw mark.val).seq <| (outputs_writeWord hw (sgSize sglist)).seq <|
    Outputs.forM fun sg hsg => outputs_writeSg hw (hlen sg hsg) (hE sg hsg)

/-- The pointer has as many bytes behind it as the item says. -/
def Sized (mem : Memory) (finfo : List UInt8) (sg : Sg) : Prop :=
  (sg.ptr.load mem finfo sg.length).length = sg.length

theorem length_sgBytes {sg : Sg} (h : Sized mem finfo sg) :
    (sgBytes mem finfo sg).length = (if sg.imark.isSome then 8 else 0) + sg.length := by
  unfold sgBytes
  cases sg.imark with
  | none =>
      rw [h]
      simp
  | some imark =>
      rw [List.length_append, List.length_append, length_leBytes, length_leBytes, h]
      rfl

theorem length_le_of_mem {sglist : List Sg} {sg : Sg} (h : Sized mem finfo sg)
    (hsg : sg ∈ sglist) : sg.length ≤ (sglist.flatMap (sgBytes mem finfo)).length := by
  obtain ⟨before, rest, rfl⟩ := List.append_of_mem hsg
  rw [List.flatMap_append, List.flatMap_cons, List.length_append, List.length_append,
    length_sgBytes h]
  omega

/-- The summing loop computes the length of what the writing loop writes. -/
theorem sgSize_eq {sglist : List Sg} (h : ∀ sg ∈ sglist, Sized mem finfo sg) :
    sgSize sglist = (sglist.flatMap (sgBytes mem finfo)).length % 2 ^ 32 := by
  suffices hfrom : ∀ l : List Sg, (∀ sg ∈ l, Sized mem finfo sg) → ∀ sz : Nat,
      l.foldl (fun sz sg => (sz + (if sg.imark.isSome then 8 else 0) + sg.length) % 2 ^ 32)
          (sz % 2 ^ 32) =
        (sz + (l.flatMap (sgBytes mem finfo)).length) % 2 ^ 32 by
    have hall := hfrom sglist h 0
    rwa [Nat.zero_add] at hall
  intro l
  induction l with
  | nil => simp
  | cons sg l ih =>
      intro hl sz
      have hlen := length_sgBytes (hl sg (by simp))
      have hstep : (sz % 2 ^ 32 + (if sg.imark.isSome then 8 else 0) + sg.length) % 2 ^ 32 =
          (sz + (sgBytes mem finfo sg).length) % 2 ^ 32 := by
        rw [hlen]
        omega
      rw [List.foldl_cons, hstep, ih (fun x hx => hl x (by simp [hx])), List.flatMap_cons,
        List.length_append]
      omega

/-- A section whose length does not wrap is a record. -/
theorem outputs_section {mark : CkptMark} {sglist : List Sg} (hw : Allows k max E)
    (hsized : ∀ sg ∈ sglist, Sized mem finfo sg)
    (hlen : (sglist.flatMap (sgBytes mem finfo)).length ≤ max)
    (hE : ∀ sg ∈ sglist, ¬ Readable sg.ptr sg.length → ∀ e, E e) :
    Outputs State.stream (writeSectionSg k mem finfo mark sglist)
      (Record.bytes ⟨mark.val, sglist.flatMap (sgBytes mem finfo)⟩) E := by
  have hsize : sgSize sglist = (sglist.flatMap (sgBytes mem finfo)).length := by
    have hlt := hw.max_lt
    rw [sgSize_eq hsized, Nat.mod_eq_of_lt (by omega)]
  rw [Record.bytes, List.append_assoc, ← hsize]
  exact outputs_writeSectionSg hw
    (fun sg hsg => (length_le_of_mem (hsized sg hsg) hsg).trans hlen) hE

theorem outputs_writeSection {mark : CkptMark} {p : Ptr} {n : Nat} {data : List UInt8}
    (hw : Allows k max E) (hload : p.load mem [] n = data) (hlen : data.length = n)
    (hmax : n ≤ max)
    (hE : ¬ Readable p n → ∀ e, E e) :
    Outputs State.stream (writeSection k mem mark p n) (Record.bytes ⟨mark.val, data⟩) E := by
  have hbytes : [(⟨none, p, n⟩ : Sg)].flatMap (sgBytes mem []) = data := by
    rw [List.flatMap_singleton]
    exact hload
  rw [← hbytes]
  refine outputs_section hw ?_ (by rw [hbytes, hlen]; exact hmax) ?_
  · intro sg hsg
    obtain rfl := List.mem_singleton.mp hsg
    rw [Sized, hload, hlen]
  · intro sg hsg
    obtain rfl := List.mem_singleton.mp hsg
    exact hE

theorem sgBytes_eq {sg : Sg} {imark : CkptMark} {data : List UInt8} (hmark : sg.imark = some imark)
    (hload : sg.ptr.load mem finfo sg.length = data) (hlen : data.length = sg.length) :
    sgBytes mem finfo sg = Record.bytes ⟨imark.val, data⟩ := by
  rw [sgBytes, hmark, hload, Record.bytes, hlen]

/-! ## Memory segments -/

/-- How many bytes of a mapping are saved. -/
def ckptSzOf (r : MapsEntry) : Nat :=
  if isDevFile r then 0
  else if isInternal r then sub32 r.end_ r.start
  else alignUp (sub32 r.end_ r.start) pageSize

def finfoOf (r : MapsEntry) : MapFileInfo := { initialFinfo r with ckptSz := ckptSzOf r }

def fdataOf (mem : Memory) (r : MapsEntry) : List UInt8 := readBytes mem r.start (ckptSzOf r)

/-- The three subsections of a segment. -/
def memsegRecords (mem : Memory) (r : MapsEntry) : List Record :=
  [⟨CkptMark.subsectFn.val, fnBuffer r⟩, ⟨CkptMark.subsectFinfo.val, (finfoOf r).bytes⟩,
    ⟨CkptMark.subsectFdata.val, fdataOf mem r⟩]

def memseg (mem : Memory) (r : MapsEntry) : Record :=
  ⟨CkptMark.sectMemseg.val, (memsegRecords mem r).flatMap Record.bytes⟩

theorem length_finfo (f : MapFileInfo) : f.bytes.length = sizeofMapFileInfo := by
  simp [MapFileInfo.bytes, sizeofMapFileInfo]

theorem getAvalSize_eq (k : Kernel) (fn : List UInt8) (offset sz : Nat) :
    getAvalSize k fn offset sz = alignUp sz pageSize := by
  unfold getAvalSize
  split
  · rfl
  · cases k.stat64 fn <;> rfl

/-- The list `ckpt_memseg` builds for a pointer with the saved bytes behind it. -/
theorem flatMap_sgBytes_memseg {r : MapsEntry} {p : Ptr}
    (hload : p.load mem (finfoOf r).bytes (ckptSzOf r) = fdataOf mem r) :
    [sgFn r, sgFinfo, sgFdata p (ckptSzOf r)].flatMap (sgBytes mem (finfoOf r).bytes) =
      (memsegRecords mem r).flatMap Record.bytes := by
  have hfn : sgBytes mem (finfoOf r).bytes (sgFn r) =
      Record.bytes ⟨CkptMark.subsectFn.val, fnBuffer r⟩ :=
    sgBytes_eq rfl (load_buffer rfl) rfl
  have hfinfo : sgBytes mem (finfoOf r).bytes sgFinfo =
      Record.bytes ⟨CkptMark.subsectFinfo.val, (finfoOf r).bytes⟩ :=
    sgBytes_eq rfl (List.take_of_length_le (length_finfo _).le) (length_finfo _)
  have hfdata : sgBytes mem (finfoOf r).bytes (sgFdata p (ckptSzOf r)) =
      Record.bytes ⟨CkptMark.subsectFdata.val, fdataOf mem r⟩ :=
    sgBytes_eq rfl hload (length_readBytes _ _ _)
  simp only [List.flatMap_cons, List.flatMap_nil, memsegRecords, hfn, hfinfo, hfdata]

theorem sized_memseg {r : MapsEntry} {p : Ptr}
    (hload : p.load mem (finfoOf r).bytes (ckptSzOf r) = fdataOf mem r) :
    ∀ sg ∈ [sgFn r, sgFinfo, sgFdata p (ckptSzOf r)], Sized mem (finfoOf r).bytes sg := by
  intro sg hsg
  simp only [List.mem_cons, List.not_mem_nil, or_false] at hsg
  rcases hsg with rfl | rfl | rfl
  · exact congrArg List.length (load_buffer rfl)
  · exact (congrArg List.length (List.take_of_length_le (length_finfo _).le)).trans
      (length_finfo _)
  · exact (congrArg List.length hload).trans (length_readBytes _ _ _)

/-- What `ckpt_memseg` relies on: the contents of a mapping can be read at a
non-null address, and `mprotect` makes it readable and back. -/
def Saveable (k : Kernel) (r : MapsEntry) : Prop :=
  isDevFile r = true ∨ r.start ≠ 0 ∧ (r.prot &&& protRead = 0 →
    k.mprotect r.start (sub32 r.end_ r.start) (r.prot ||| protRead) = 0 ∧
    k.mprotect r.start (sub32 r.end_ r.start) r.prot = 0)

theorem outputs_writeSectionSg_memseg {r : MapsEntry} {p : Ptr} (hw : Allows k max E)
    (hload : p.load mem (finfoOf r).bytes (ckptSzOf r) = fdataOf mem r)
    (hlen : (memseg mem r).payload.length ≤ max)
    (hE : ¬ Readable p (ckptSzOf r) → ∀ e, E e) :
    Outputs State.stream (writeSectionSg k mem (finfoOf r).bytes .sectMemseg
      [sgFn r, sgFinfo, sgFdata p (ckptSzOf r)]) (memseg mem r).bytes E := by
  have hbytes := flatMap_sgBytes_memseg hload
  rw [memseg, ← hbytes]
  refine outputs_section hw (sized_memseg hload) (by rwa [hbytes]) ?_
  intro sg hsg
  simp only [List.mem_cons, List.not_mem_nil, or_false] at hsg
  rcases hsg with rfl | rfl | rfl
  · exact fun hnull => absurd (fun _ => rfl) hnull
  · exact fun hnull => absurd (fun _ => rfl) hnull
  · exact hE

theorem outputs_mprotectChecked {r : MapsEntry} {prot : Nat}
    (hE : r.prot &&& protRead = 0 → k.mprotect r.start (sub32 r.end_ r.start) prot ≠ 0 →
      ∀ e, E e) :
    Outputs State.stream (mprotectChecked k r prot) [] E := by
  unfold mprotectChecked
  by_cases hread : r.prot &&& protRead = 0
  · rw [if_pos hread]
    constructor
    intro s
    rw [ends_assertThat]
    exact ⟨fun _ => (List.append_nil _).symm, fun herr => hE hread (of_decide_eq_false herr) _⟩
  · rw [if_neg hread]
    exact Outputs.pure

theorem outputs_writeMemseg {r : MapsEntry} (hw : Allows k max E)
    (hlen : (memseg mem r).payload.length ≤ max) (hE : r.start = 0 → ∀ e, E e) :
    Outputs State.stream (writeMemseg k mem r (ckptSzOf r)) (memseg mem r).bytes E := by
  refine outputs_writeSectionSg_memseg hw rfl hlen fun hnull => hE ?_
  by_contra hstart
  exact hnull fun _ => beq_eq_false_iff_ne.mpr hstart

theorem outputs_ckptContents {r : MapsEntry} (hw : Allows k max E) (hdev : isDevFile r = false)
    (hlen : (memseg mem r).payload.length ≤ max) (hE : r.start = 0 → ∀ e, E e) :
    Outputs State.stream (ckptContents k mem r) (memseg mem r).bytes E := by
  have hwrite := outputs_writeMemseg hw hlen hE
  unfold ckptContents
  by_cases hint : isInternal r = true
  · have hsz : ckptSzOf r = sub32 r.end_ r.start := by simp [ckptSzOf, hdev, hint]
    rw [if_pos hint, ← hsz]
    exact hwrite
  · have hsz : ckptSzOf r = alignUp (sub32 r.end_ r.start) pageSize := by
      simp [ckptSzOf, hdev, hint]
    rw [if_neg hint, getAvalSize_eq, ← hsz]
    refine Outputs.check (fun _ => hwrite) fun hmod => absurd ?_ (of_decide_eq_false hmod)
    rw [hsz]
    exact alignUp_page_mod _

theorem outputs_ckptMemseg_dev {r : MapsEntry} (hw : Allows k max E) (hdev : isDevFile r = true)
    (hlen : (memseg mem r).payload.length ≤ max) :
    Outputs State.stream (writeSectionSg k mem (initialFinfo r).bytes .sectMemseg
      [sgFn r, sgFinfo, sgFdata .null 0]) (memseg mem r).bytes E := by
  have hsz : ckptSzOf r = 0 := if_pos hdev
  have hfinfo : finfoOf r = initialFinfo r := by
    rw [finfoOf, hsz]
    rfl
  have hload : Ptr.null.load mem (finfoOf r).bytes (ckptSzOf r) = fdataOf mem r := by
    rw [fdataOf, hsz]
    rfl
  have hwrite := outputs_writeSectionSg_memseg hw hload hlen
    fun hnull => absurd (fun hne => absurd hsz hne) hnull
  rwa [hfinfo, hsz] at hwrite

/-- A segment is written as one record, or the entry could not be saved. -/
theorem outputs_ckptMemseg {r : MapsEntry} (hw : Allows k max E) (hvalid : r.valid = true)
    (hlen : (memseg mem r).payload.length ≤ max) (hE : ¬ Saveable k r → ∀ e, E e) :
    Outputs State.stream (ckptMemseg k mem r) (memseg mem r).bytes E := by
  refine Outputs.check (fun _ => ?_) fun hinvalid => by simp [hvalid] at hinvalid
  by_cases hdev : isDevFile r = true
  · rw [if_pos hdev]
    exact outputs_ckptMemseg_dev hw hdev hlen
  · have hbefore : Outputs State.stream (mprotectChecked k r (r.prot ||| protRead)) [] E :=
      outputs_mprotectChecked fun hread herr => hE fun hsave =>
        herr ((hsave.resolve_left hdev).2 hread).1
    have hafter : Outputs State.stream (mprotectChecked k r r.prot) [] E :=
      outputs_mprotectChecked fun hread herr => hE fun hsave =>
        herr ((hsave.resolve_left hdev).2 hread).2
    have hcontents : Outputs State.stream (ckptContents k mem r) (memseg mem r).bytes E :=
      outputs_ckptContents hw (by simpa using hdev) hlen fun hstart => hE fun hsave =>
        (hsave.resolve_left hdev).1 hstart
    have hall := hbefore.seq (hcontents.seq hafter)
    rw [List.nil_append, List.append_nil] at hall
    rw [if_neg hdev]
    exact hall

end Writers

end Snitchaser.Checkpoint.Sections
