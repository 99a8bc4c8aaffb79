import Snitchaser.Lib.Decode
import Snitchaser.SyscallLog.Model
/-!
# The log can be read back

A decoder for the log, and the proof that it recovers every wrapped call.  The
unit of the argument is `Logs p d x`: whatever the program `p` writes, the
decoder `d` reads as `x`.  It composes along the code of a handler, so each
handler is matched with its decoder once and no byte string is written down.
-/

namespace Snitchaser.SyscallLog.Decodable

open Snitchaser.Lib.ByteMemory
open Snitchaser.Lib.Decode
open Snitchaser.Lib.Hoare
open Snitchaser.Lib.LittleEndian
open Snitchaser.Lib.Program
open Snitchaser.SyscallLog.Model

/-! ## The decoder -/

def takeInt32 : Decoder Int32 := do
  let n ← takeLe 4
  pure (UInt32.ofNat n).toInt32

def takeIf (c : Bool) (sz : Nat) : Decoder (Option (List UInt8)) :=
  if c then do
    let bytes ← takeBytes sz
    pure (some bytes)
  else
    pure none

/-- A log entry: the number of the call, its result, and one item for each place
in user memory its handler may copy. -/
structure Entry where
  nr : Nat
  eax : Int32
  copied : List (Option (List UInt8))
  deriving DecidableEq

/-- What follows the number: the result and the copies. -/
abbrev Body := Int32 × List (Option (List UInt8))

def takeSimple : Decoder Body := do
  let eax ← takeInt32
  pure (eax, [])

def takeStruct (ok : Int → Bool) (sz : Nat) : Decoder Body := do
  let eax ← takeInt32
  let copy ← takeIf (ok eax.toInt) sz
  pure (eax, [copy])

def takeRead : Decoder Body := do
  let eax ← takeInt32
  let copy ← takeIf (0 < eax.toInt) eax.toInt.toNat
  pure (eax, [copy])

def takeIoctl : Decoder Body := do
  let _ ← takeBytes 44
  let eax ← takeInt32
  pure (eax, [])

def takeGettimeofday : Decoder Body := do
  let eax ← takeInt32
  if 0 ≤ eax.toInt then
    let tp ← takeInt32
    let tzp ← takeInt32
    let tv ← takeIf (tp ≠ 0) sizeofTimeval
    let tz ← takeIf (tzp ≠ 0) sizeofTimezone
    pure (eax, [tv, tz])
  else
    pure (eax, [none, none])

def takeNanosleep : Decoder Body := do
  let eax ← takeInt32
  let o ← takeInt32
  let ts ← takeIf (o ≠ 0) sizeofTimespec
  pure (eax, [ts])

def takeFutex : Decoder Body := do
  let eax ← takeInt32
  if eax.toInt < 0 then
    pure (eax, [none, none])
  else
    let cmd ← takeInt32
    let word ← takeBytes 4
    let second ← takeIf (hasSecondWord cmd) 4
    pure (eax, [some word, second])

def takeBody : Syscall → Decoder Body
  | .fstat64 => takeStruct (fun eax => 0 ≤ eax) sizeofStat64
  | .stat64 => takeStruct (fun eax => 0 ≤ eax) sizeofStat64
  | .uname => takeStruct (fun eax => 0 ≤ eax) sizeofOldUtsname
  | .ugetrlimit => takeStruct (fun eax => eax = 0) sizeofRlimit
  | .read => takeRead
  | .ioctl => takeIoctl
  | .gettimeofday => takeGettimeofday
  | .nanosleep => takeNanosleep
  | .futex => takeFutex
  | _ => takeSimple

def takeEntry : Decoder Entry := do
  let nr ← takeLe 2
  match Syscall.ofNr nr with
  | none => failure
  | some sc =>
      let body ← takeBody sc
      pure ⟨nr, body.1, body.2⟩

/-! ## What the handlers are to save -/

/-- The `sz` bytes the kernel left at `addr`, when there is something to save. -/
def savedIf (c : Bool) (mem : Memory) (addr : Int32) (sz : Nat) : Option (List UInt8) :=
  if c then some (readBytes mem addr.toUInt32.toNat sz) else none

/-- The user memory a call filled in, as far as it is to be saved. -/
def saved (sc : Syscall) (r : Regs) (mem : Memory) : List (Option (List UInt8)) :=
  match sc with
  | .read => [savedIf (0 < r.eax.toInt) mem r.ecx r.eax.toInt.toNat]
  | .fstat64 => [savedIf (0 ≤ r.eax.toInt) mem r.ecx sizeofStat64]
  | .stat64 => [savedIf (0 ≤ r.eax.toInt) mem r.ecx sizeofStat64]
  | .uname => [savedIf (0 ≤ r.eax.toInt) mem r.ebx sizeofOldUtsname]
  | .ugetrlimit => [savedIf (r.eax.toInt = 0) mem r.ecx sizeofRlimit]
  | .gettimeofday =>
      [savedIf (0 ≤ r.eax.toInt ∧ r.ebx ≠ 0) mem r.ebx sizeofTimeval,
        savedIf (0 ≤ r.eax.toInt ∧ r.ecx ≠ 0) mem r.ecx sizeofTimezone]
  | .nanosleep => [savedIf (r.ecx ≠ 0) mem r.ecx sizeofTimespec]
  | .futex =>
      [savedIf (0 ≤ r.eax.toInt) mem r.ebx 4,
        savedIf (0 ≤ r.eax.toInt ∧ hasSecondWord (futexCmd r.ecx)) mem r.edi 4]
  | _ => []

/-- The entry a completed call is to leave in the log. -/
def Call.entry (c : Call) : Entry :=
  ⟨c.regs.origEax.toInt.toNat, c.result,
    match Syscall.ofNr c.regs.origEax.toInt.toNat with
    | none => []
    | some sc => saved sc c.regsAfter c.mem⟩

/-! ## Programs and decoders side by side -/

/-- A write to the log came back short. -/
def WriteFailed (e : Stop) : Prop :=
  e = .fatal "LOG_SYSCALL" "write logger failed: %d != %d\n"

/-- Whatever `p` appends to the log, `d` reads as `x`. -/
def Logs {α : Type} (p : Prog State Unit) (d : Decoder α) (x : α) : Prop :=
  ∃ bs, Reads d bs x ∧ Outputs State.log p bs WriteFailed

section Logs

variable {α β : Type} {p q : Prog State Unit} {d : Decoder α} {f : α → Decoder β} {x : α} {y : β}

theorem Logs.pure (x : α) : Logs (Pure.pure ()) (Pure.pure x) x :=
  ⟨[], Reads.pure x, Outputs.pure⟩

theorem Logs.bind (hp : Logs p d x) (hq : Logs q (f x) y) :
    Logs (p >>= fun _ => q) (d >>= f) y := by
  obtain ⟨bs, hd, hbs⟩ := hp
  obtain ⟨cs, hf, hcs⟩ := hq
  exact ⟨bs ++ cs, hd.bind hf, hbs.seq hcs⟩

theorem Logs.bind_pure (hp : Logs p d x) (hf : f x = Pure.pure y) : Logs p (d >>= f) y := by
  obtain ⟨bs, hd, hbs⟩ := hp
  exact ⟨bs, hd.bind_pure hf, hbs⟩

end Logs

section Writes

variable {write : Nat → Nat → Int}

theorem outputs_writeLogger (bytes : List UInt8) :
    Outputs State.log (writeLogger write bytes) bytes WriteFailed := by
  constructor
  intro s
  simp only [writeLogger, ends_bind, ends_modify, ends_get, ends_set]
  by_cases herr : write s.log.length bytes.length = bytes.length
  · rw [if_pos herr, ends_pure, herr]
    simp
  · rw [if_neg herr, ends_throw]
    rfl

theorem logs_takeBytes {bytes : List UInt8} {n : Nat} (h : bytes.length = n) :
    Logs (writeLogger write bytes) (takeBytes n) bytes :=
  ⟨bytes, reads_takeBytes h, outputs_writeLogger bytes⟩

theorem logs_takeLe {width n : Nat} (h : n < 256 ^ width) :
    Logs (writeLogger write (leBytes width n)) (takeLe width) n :=
  ⟨_, reads_takeLe h, outputs_writeLogger _⟩

theorem logs_int32 (x : Int32) : Logs (writeLogger write (int32Bytes x)) takeInt32 x := by
  refine (logs_takeLe x.toUInt32.toNat_lt).bind_pure ?_
  rw [UInt32.ofNat_toNat]
  rfl

theorem logs_memIf (c : Bool) (mem : Memory) (addr : Int32) (sz : Nat) :
    Logs (writeMemIf write c mem addr sz) (takeIf c sz) (savedIf c mem addr sz) := by
  cases c with
  | false => exact Logs.pure none
  | true => exact (logs_takeBytes (length_readBytes _ _ _)).bind_pure rfl

/-! ## The handlers -/

theorem logs_postSimple (r : Regs) (mem : Memory) :
    Logs (postSimple write r mem) takeSimple (r.eax, []) :=
  (logs_int32 r.eax).bind_pure rfl

theorem logs_postStruct (ok : Int → Bool) (addr : Regs → Int32) (sz : Nat) (r : Regs)
    (mem : Memory) :
    Logs (postStruct write ok addr sz r mem) (takeStruct ok sz)
      (r.eax, [savedIf (ok r.eax.toInt) mem (addr r) sz]) :=
  (logs_int32 r.eax).bind ((logs_memIf _ mem (addr r) sz).bind_pure rfl)

theorem logs_postRead (r : Regs) (mem : Memory) :
    Logs (postRead write r mem) takeRead (r.eax, saved .read r mem) :=
  (logs_int32 r.eax).bind ((logs_memIf _ mem r.ecx _).bind_pure rfl)

theorem logs_postIoctl (r : Regs) (mem : Memory) :
    Logs (postIoctl write r mem) takeIoctl (r.eax, []) :=
  (logs_takeBytes (by simp [int32Bytes])).bind ((logs_int32 r.eax).bind_pure rfl)

theorem logs_postGettimeofday (r : Regs) (mem : Memory) :
    Logs (postGettimeofday write r mem) takeGettimeofday (r.eax, saved .gettimeofday r mem) := by
  refine (logs_int32 r.eax).bind ?_
  by_cases hok : 0 ≤ r.eax.toInt
  · simp only [hok, if_true, saved, true_and]
    exact (logs_int32 r.ebx).bind <| (logs_int32 r.ecx).bind <| (logs_memIf _ mem r.ebx _).bind <|
      (logs_memIf _ mem r.ecx _).bind_pure rfl
  · simp only [hok, if_false, saved, false_and, savedIf, decide_false, Bool.false_eq_true]
    exact Logs.pure _

theorem logs_postNanosleep (r : Regs) (mem : Memory) :
    Logs (postNanosleep write r mem) takeNanosleep (r.eax, saved .nanosleep r mem) :=
  (logs_int32 r.eax).bind <| (logs_int32 r.ecx).bind <| (logs_memIf _ mem r.ecx _).bind_pure rfl

theorem logs_postFutex (r : Regs) (mem : Memory) :
    Logs (postFutex write r mem) takeFutex (r.eax, saved .futex r mem) := by
  refine (logs_int32 r.eax).bind ?_
  by_cases hfail : r.eax.toInt < 0
  · have hneg : ¬ 0 ≤ r.eax.toInt := not_le.mpr hfail
    simp only [hfail, if_true, saved, hneg, false_and, savedIf, decide_false, Bool.false_eq_true,
      if_false]
    exact Logs.pure _
  · have hok : 0 ≤ r.eax.toInt := not_lt.mp hfail
    simp only [hfail, if_false, saved, hok, true_and, savedIf, decide_true, if_true]
    refine (logs_int32 (futexCmd r.ecx)).bind <|
      (logs_takeBytes (length_readBytes mem r.ebx.toUInt32.toNat 4)).bind <|
      (logs_memIf (hasSecondWord (futexCmd r.ecx)) mem r.edi 4).bind_pure ?_
    simp [savedIf]

theorem logs_post (sc : Syscall) (r : Regs) (mem : Memory) :
    Logs (sc.post write r mem) (takeBody sc) (r.eax, saved sc r mem) := by
  cases sc with
  | fstat64 => exact logs_postStruct (fun eax => 0 ≤ eax) Regs.ecx sizeofStat64 r mem
  | stat64 => exact logs_postStruct (fun eax => 0 ≤ eax) Regs.ecx sizeofStat64 r mem
  | uname => exact logs_postStruct (fun eax => 0 ≤ eax) Regs.ebx sizeofOldUtsname r mem
  | ugetrlimit => exact logs_postStruct (fun eax => eax = 0) Regs.ecx sizeofRlimit r mem
  | read => exact logs_postRead r mem
  | ioctl => exact logs_postIoctl r mem
  | gettimeofday => exact logs_postGettimeofday r mem
  | nanosleep => exact logs_postNanosleep r mem
  | futex => exact logs_postFutex r mem
  | _ => exact logs_postSimple r mem

/-! ## Wrapped calls -/

theorem ofNr_nr (sc : Syscall) : Syscall.ofNr sc.nr = some sc := by
  cases sc <;> rfl

theorem nr_le (sc : Syscall) : sc.nr ≤ nrSyscalls := by
  cases sc <;> decide

/-- The number has an entry in `syscall_table`. -/
def HasEntry (nr : Int32) : Prop := ∃ sc : Syscall, nr.toInt = sc.nr

theorem syscallTable_of_nr {nr : Int32} {sc : Syscall} (h : nr.toInt = sc.nr) :
    syscallTable write nr = pure (some (sc.post write)) := by
  have hle := nr_le sc
  rw [syscallTable, if_pos (by omega), h, Int.toNat_natCast, ofNr_nr]
  rfl

theorem toUInt32_of_nr {nr : Int32} {sc : Syscall} (h : nr.toInt = sc.nr) :
    nr.toUInt32.toNat = sc.nr := by
  have hle : sc.nr ≤ 327 := nr_le sc
  have hcond := BitVec.toInt_eq_toNat_cond nr.toBitVec
  have hlt := nr.toBitVec.isLt
  change nr.toBitVec.toInt = sc.nr at h
  change nr.toBitVec.toNat = sc.nr
  split at hcond <;> omega

theorem logs_wrappedSyscall (c : Call) (h : HasEntry c.regs.origEax) :
    Logs (wrappedSyscall write c) takeEntry (Call.entry c) := by
  obtain ⟨sc, hnr⟩ := h
  have hle : sc.nr ≤ 327 := nr_le sc
  have hentry : Call.entry c = ⟨sc.nr, c.result, saved sc c.regsAfter c.mem⟩ := by
    simp only [Call.entry, hnr, Int.toNat_natCast, ofNr_nr]
  have hpre : Logs (syscallPreHandler write c.regs) (takeLe 2) sc.nr := by
    have hwrite : Logs (writeSyscallNr write c.regs.origEax) (takeLe 2) sc.nr := by
      rw [writeSyscallNr, toUInt32_of_nr hnr]
      exact logs_takeLe (by omega)
    obtain ⟨bs, hreads, hbs⟩ := hwrite
    refine ⟨bs, hreads, ⟨fun s => ?_⟩⟩
    rw [syscallPreHandler, syscallTable_of_nr hnr, ends_bind]
    exact (hbs.ends s).post fun _ _ ht => ht
  rw [hentry, wrappedSyscall, syscallPostHandler, show c.regsAfter.origEax = c.regs.origEax from rfl,
    syscallTable_of_nr hnr, pure_bind]
  refine hpre.bind ?_
  rw [ofNr_nr]
  exact (logs_post sc c.regsAfter c.mem).bind_pure rfl

/-- The log has grown from `s` to `t` by items that read as `entries`. -/
def GrewBy (s t : State) (entries : List Entry) : Prop :=
  ∃ items : List (List UInt8 × Entry), (∀ i ∈ items, Reads takeEntry i.1 i.2) ∧
    items.map Prod.snd = entries ∧ t.log = s.log ++ items.flatMap Prod.fst

theorem GrewBy.snoc {s t u : State} {entries : List Entry} {bs : List UInt8} {e : Entry}
    (h : GrewBy s t entries) (hreads : Reads takeEntry bs e) (hlog : u.log = t.log ++ bs) :
    GrewBy s u (entries ++ [e]) := by
  obtain ⟨items, hitems, hentries, hgrew⟩ := h
  refine ⟨items ++ [(bs, e)], ?_, ?_, ?_⟩
  · intro i hi
    rcases List.mem_append.mp hi with hin | hin
    · exact hitems i hin
    · obtain rfl := List.mem_singleton.mp hin
      exact hreads
  · rw [List.map_append, hentries]
    rfl
  · rw [hlog, hgrew]
    simp

theorem ends_wrappedSyscalls {calls : List Call} (h : ∀ c ∈ calls, HasEntry c.regs.origEax)
    (s : State) :
    Ends (forM calls (wrappedSyscall write)) s
      (fun _ t => GrewBy s t (calls.map Call.entry)) WriteFailed := by
  refine ends_forM (I := fun done t => GrewBy s t (done.map Call.entry)) ?_ ⟨[], by simp⟩
  intro done c rest t hcalls hgrew
  have hmem : c ∈ calls := by simp [hcalls]
  obtain ⟨bs, hreads, hbs⟩ := logs_wrappedSyscall c (h c hmem)
  refine (hbs.ends t).post fun _ u hu => ?_
  rw [List.map_append]
  exact hgrew.snoc hreads hu

theorem ne_nil_of_reads_takeEntry {bs : List UInt8} {e : Entry} (h : Reads takeEntry bs e) :
    bs ≠ [] := by
  intro hnil
  have hread : takeEntry (bs ++ []) = some (e, []) := h []
  rw [hnil] at hread
  cases hread

theorem GrewBy.decode {s t : State} {entries : List Entry} (h : GrewBy s t entries) :
    ∃ bytes, t.log = s.log ++ bytes ∧ decodeStream takeEntry bytes = some entries := by
  obtain ⟨items, hitems, hentries, hgrew⟩ := h
  refine ⟨items.flatMap Prod.fst, hgrew, ?_⟩
  rw [← hentries]
  exact decodeStream_flatMap hitems fun i hi => ne_nil_of_reads_takeEntry (hitems i hi)

end Writes

/-- One decoder reads the log of every sequence of wrapped calls back: for each
call its number, its result, and the user memory its handler saved. -/
theorem syscall_log_decodable (write : Nat → Nat → Int) (calls : List Call)
    (h : ∀ c ∈ calls, HasEntry c.regs.origEax) (s : State) :
    Ends (forM calls (wrappedSyscall write)) s
      (fun _ t => ∃ bytes, t.log = s.log ++ bytes ∧
        decodeStream takeEntry bytes = some (calls.map Call.entry))
      (fun e => e = .fatal "LOG_SYSCALL" "write logger failed: %d != %d\n") :=
  (ends_wrappedSyscalls h s).post fun _ _ => GrewBy.decode

/-- A `read` of three bytes and a private `FUTEX_REQUEUE`. -/
def readThenRequeue : List Call :=
  [⟨⟨3, 0, 4096, 8, 0, 0, 0, 0, 3, 0, 0⟩, 3, fun a => UInt8.ofNat a⟩,
    ⟨⟨240, 16, 131, 0, 0, 32, 0, 0, 240, 0, 0⟩, 1, fun a => UInt8.ofNat a⟩]

theorem syscall_log_decodable_requeue :
    Ends (forM readThenRequeue (wrappedSyscall fun _ count => count)) ⟨[], 0⟩
      (fun _ t => decodeStream takeEntry t.log =
        some [⟨3, 3, [some [0, 1, 2]]⟩,
          ⟨240, 1, [some [16, 17, 18, 19], some [32, 33, 34, 35]]⟩])
      (fun _ => False) := by
  have hentries : ∀ c ∈ readThenRequeue, HasEntry c.regs.origEax := by
    intro c hc
    simp only [readThenRequeue, List.mem_cons, List.not_mem_nil, or_false] at hc
    rcases hc with rfl | rfl
    · exact ⟨.read, rfl⟩
    · exact ⟨.futex, rfl⟩
  have hreturns : ∃ t, forM readThenRequeue (wrappedSyscall fun _ count => count) ⟨[], 0⟩ =
      .ok () t := ⟨_, rfl⟩
  obtain ⟨t, ht⟩ := hreturns
  obtain ⟨bytes, hlog, hdecode⟩ :=
    (syscall_log_decodable (fun _ count => count) readThenRequeue hentries ⟨[], 0⟩).of_ok ht
  refine Ends.intro_ok ht ?_
  rw [hlog, List.nil_append, hdecode]
  rfl

end Snitchaser.SyscallLog.Decodable
