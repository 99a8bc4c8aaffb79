import Snitchaser.Lib.Buffered
import Snitchaser.Stream.Bigbuffer
import Snitchaser.Tls.Model
/-!
# The logger of a thread

`logger.c` and the typed appends of `logger.h`.  The logger fills the big buffer
of the thread's private data.  It addresses the buffer in two ways: the generic
append goes through `start_ptr`, the typed ones through the start of the
thread-local area, with `asm_curr_ptr` as an offset into the area.

What the logger is for is a buffered log: `logOf` says, from the calls alone, which
segments their flushes find and what is pending in the end.
-/

namespace Snitchaser.Stream.Logger

open Snitchaser.Defs
open Snitchaser.Lib.Buffered
open Snitchaser.Lib.ByteMemory
open Snitchaser.Lib.Hoare
open Snitchaser.Lib.LittleEndian
open Snitchaser.Lib.Program
open Snitchaser.Mutex.Model (xmutexLock xmutexUnlock ends_xmutexLock ends_xmutexUnlock)
open Snitchaser.Stream.Bigbuffer
open Snitchaser.Stream.Compression (Lzo blocksOf compFileHeader IsSegment literalLzo)
open Snitchaser.Tls.Model (getTlsDesc)

/-! ## The layout of the private data

`struct thread_private_data`: six words, the big buffer, and the stubs of the
allocator, the logger and the system call wrapper.  It lies right below the
descriptor at the top of the area. -/

def offsetofBb : Nat := 6 * 4

def sizeofThreadPrivateData : Nat := offsetofBb + (bigbufferSz + 4) + 16 + 152 + 48 + 4 + 8

/-- `sizeof(struct ___bottom_tls)`. -/
def sizeofBottomTls : Nat := sizeofThreadPrivateData + sizeofTlsDesc

def getTpd (startAddr : Nat) : Nat := getTlsDesc startAddr - sizeofThreadPrivateData

def getThisBb (startAddr : Nat) : Nat := getTpd startAddr + offsetofBb

/-- The address of the logger stub, `get_self_logger_ptr()`. -/
def getLoggerPtr (startAddr : Nat) : Nat := getThisBb startAddr + (bigbufferSz + 4) + 16

/-- `tpd_offset(bb.buffer[0])`.  Kept folded: no proof needs its digits. -/
@[irreducible] def asmBase : Nat := tlsAreaSize - sizeofBottomTls + offsetofBb

/-! ## The code -/

/-- The logger stub over the big buffer it fills.  `opens` counts the calls of
`sys_open`. -/
structure State where
  bb : Compression.State
  startPtr : Nat
  endPtr : Nat
  asmCurrPtr : Nat
  asmEndPtr : Nat
  logFlushMutex : Bool
  opens : Nat

/-- The kernel's answers, those of `sys_open` by the number of the call. -/
structure Kernel where
  file : Compression.Kernel
  openFile : Nat → Int
  closeFile : Int → Int

def onBigbuffer {α : Type} (p : Prog Compression.State α) : Prog State α :=
  zoom State.bb (fun bb s => { s with bb := bb }) p

def onFlushMutex (p : Prog Bool Unit) : Prog State Unit :=
  zoom State.logFlushMutex (fun taken s => { s with logFlushMutex := taken }) p

def sysOpen (k : Kernel) : Prog State Int := do
  let s ← get
  set { s with opens := s.opens + 1 }
  pure (k.openFile s.opens)

/-- The bytes from `start_ptr` up to the position `curr`. -/
def pendingBytes (mem : Memory) (startPtr curr : Nat) : List UInt8 :=
  readBytes mem startPtr (curr - asmBase)

def State.pending (s : State) : List UInt8 := pendingBytes s.bb.mem s.startPtr s.asmCurrPtr

/-- The state after `chunk` is stored at `addr` and the position moved past it. -/
def State.stored (s : State) (addr : Nat) (chunk : List UInt8) : State :=
  { s with
    bb := { s.bb with mem := writeBytes s.bb.mem addr chunk }
    asmCurrPtr := s.asmCurrPtr + chunk.length }

section Code

variable (k : Kernel) (lzo : Lzo) (startAddr : Nat)

def setBigbufferPtr (offset : Nat) : Prog State Unit :=
  modify fun s => { s with bb := { s.bb with ptr := offset } }

def resetAsmCurrPtr : Prog State Unit := modify fun s => { s with asmCurrPtr := asmBase }

/-- `szFn` is the length `snprintf` returns for the name of the log file. -/
def initLogger (szFn : Nat) : Prog State Unit := do
  assertThat (getLoggerPtr startAddr ≠ 0) "l != NULL"
  setBigbufferPtr 0
  assertThat (szFn < maxOutputFnLen) "sz_fn < MAX_OUTPUT_FN_LEN"
  modify fun s => { s with
    startPtr := getThisBb startAddr
    endPtr := getThisBb startAddr + bigbufferSz
    asmCurrPtr := asmBase
    asmEndPtr := asmBase + bigbufferSz - 32
    logFlushMutex := false }
  let fd ← sysOpen k
  if fd < 0 then
    pure ()
  else
    -- O_TRUNC
    modify fun s => { s with bb := { s.bb with file := [] } }
    onBigbuffer (Compression.writeCompFileHead k.file fd)

def flushLogger : Prog State Unit := do
  assertThat (getLoggerPtr startAddr ≠ 0) "l != NULL"
  onFlushMutex xmutexLock
  let s ← get
  let currOffset := sub32 s.asmCurrPtr asmBase
  setBigbufferPtr currOffset
  assertThat (currOffset < bigbufferSz) "curr_offset < sizeof(pbb->buffer)"
  let fd ← sysOpen k
  if fd < 0 then
    onFlushMutex xmutexUnlock
    setBigbufferPtr 0
    resetAsmCurrPtr
  else
    onBigbuffer (flushBigbuffer k.file lzo fd (getThisBb startAddr))
    setBigbufferPtr 0
    if k.closeFile fd ≠ 0 then
      onFlushMutex xmutexUnlock
      throw (.fatal "LOGGER" "close log file %d error: %d\n")
    else
      resetAsmCurrPtr
      onFlushMutex xmutexUnlock

def store (addr : Nat) (data : List UInt8) : Prog State Unit :=
  modify fun s => s.stored addr data

/-- The loop of `append_logger`.  Only the first iteration can find no room, so
one unit of fuel more than there are bytes is enough. -/
def appendLoop : Nat → List UInt8 → Prog State Unit
  | _, [] => pure ()
  | 0, _ :: _ => throw .fuel
  | fuel + 1, b :: bs => do
      let data := b :: bs
      let s ← get
      let aval := sub32 s.asmEndPtr s.asmCurrPtr
      let cpysz := if data.length < aval then data.length else aval
      store (s.startPtr + sub32 s.asmCurrPtr asmBase) (data.take cpysz)
      if 0 < data.length - cpysz then
        flushLogger k lzo startAddr
        appendLoop fuel (data.drop cpysz)
      else
        pure ()

def appendLogger (data : List UInt8) : Prog State Unit :=
  appendLoop k lzo startAddr (data.length + 1) data

/-- `append_logger_TYPE` for a value whose bytes are `x`. -/
def appendLoggerType (x : List UInt8) : Prog State Unit := do
  let s ← get
  if s.asmEndPtr < s.asmCurrPtr + x.length then
    flushLogger k lzo startAddr
  let s ← get
  store (startAddr + s.asmCurrPtr) x

def appendLoggerU32 (x : UInt32) : Prog State Unit :=
  appendLoggerType k lzo startAddr (leBytes 4 x.toNat)

def appendLoggerPtr (x : UInt32) : Prog State Unit :=
  appendLoggerType k lzo startAddr (leBytes 4 x.toNat)

def appendLoggerU16 (x : UInt16) : Prog State Unit :=
  appendLoggerType k lzo startAddr (leBytes 2 x.toNat)

def appendLoggerU8 (x : UInt8) : Prog State Unit :=
  appendLoggerType k lzo startAddr (leBytes 1 x.toNat)

def appendLoggerInt (x : Int32) : Prog State Unit :=
  appendLoggerType k lzo startAddr (leBytes 4 x.toUInt32.toNat)

/-- The calls a thread makes. -/
inductive Call where
  | append (data : List UInt8)
  | u32 (x : UInt32)
  | ptr (x : UInt32)
  | u16 (x : UInt16)
  | u8 (x : UInt8)
  | int (x : Int32)
  | flush

def Call.run : Call → Prog State Unit
  | .append data => appendLogger k lzo startAddr data
  | .u32 x => appendLoggerU32 k lzo startAddr x
  | .ptr x => appendLoggerPtr k lzo startAddr x
  | .u16 x => appendLoggerU16 k lzo startAddr x
  | .u8 x => appendLoggerU8 k lzo startAddr x
  | .int x => appendLoggerInt k lzo startAddr x
  | .flush => flushLogger k lzo startAddr

end Code

/-- The bytes a call appends. -/
def Call.bytes : Call → List UInt8
  | .append data => data
  | .u32 x => leBytes 4 x.toNat
  | .ptr x => leBytes 4 x.toNat
  | .u16 x => leBytes 2 x.toNat
  | .u8 x => leBytes 1 x.toNat
  | .int x => leBytes 4 x.toUInt32.toNat
  | .flush => []

/-! ## What the logger is for -/

/-- The last 32 bytes of the buffer are a reserve. -/
def loggerRoom : Nat := bigbufferSz - 32

/-- What a call does to the log: `append_logger` splits its data wherever the buffer is
full, the typed appends do not split a value. -/
def Call.log (l : Log UInt8) : Call → Log UInt8
  | .append data => l.putAll loggerRoom data
  | .flush => l.flush
  | c => l.put loggerRoom c.bytes

def logOf (calls : List Call) : Log UInt8 := calls.foldl Call.log Log.empty

/-- The flushes whose `sys_open` succeeds; those of a run are numbered on from the number
of opens before it. -/
def Kernel.opens (k : Kernel) (n : Nat) : Bool := 0 ≤ k.openFile n

theorem contents_log (l : Log UInt8) (c : Call) : (c.log l).contents = l.contents ++ c.bytes := by
  cases c with
  | append data => exact Log.contents_putAll
  | flush => rw [Call.log, Log.contents_flush, Call.bytes, List.append_nil]
  | u32 x => exact Log.contents_put
  | ptr x => exact Log.contents_put
  | u16 x => exact Log.contents_put
  | u8 x => exact Log.contents_put
  | int x => exact Log.contents_put

theorem contents_logOf (calls : List Call) :
    (logOf calls).contents = calls.flatMap Call.bytes := by
  suffices hfrom : ∀ l : Log UInt8,
      (calls.foldl Call.log l).contents = l.contents ++ calls.flatMap Call.bytes from
    hfrom Log.empty
  induction calls with
  | nil => exact fun l => (List.append_nil _).symm
  | cons c calls ih =>
      intro l
      rw [List.foldl_cons, ih, contents_log, List.flatMap_cons, List.append_assoc]

/-! ## The two ways to address the buffer agree -/

theorem getThisBb_eq (startAddr : Nat) : getThisBb startAddr = startAddr + asmBase := by
  have harea : tlsAreaSize = 4411392 := by decide
  have hdesc : sizeofTlsDesc = 24 := rfl
  have hprivate : sizeofThreadPrivateData = 2097408 := by decide
  unfold getThisBb getTpd getTlsDesc asmBase sizeofBottomTls
  omega

theorem asmBase_eq : asmBase = 2313984 := by
  unfold asmBase
  decide

theorem bigbufferSz_eq : bigbufferSz = 2097152 := by decide

theorem getLoggerPtr_ne_zero (startAddr : Nat) : getLoggerPtr startAddr ≠ 0 := by
  unfold getLoggerPtr
  omega

/-! ## The stream law -/

/-- The logger's invariant: `l` is the log, the file began with `head`, and the flushes
were numbered from `first` on. -/
structure Logged (k : Kernel) (lzo : Lzo) (startAddr : Nat) (head : List UInt8) (first : Nat)
    (l : Log UInt8) (s : State) : Prop where
  start : s.startPtr = startAddr + asmBase
  last : s.asmEndPtr = asmBase + bigbufferSz - 32
  low : asmBase ≤ s.asmCurrPtr
  high : s.asmCurrPtr ≤ s.asmEndPtr
  unlocked : s.logFlushMutex = false
  opens : s.opens = first + l.segments.length
  pending : s.pending = l.pending
  file : ∃ segs, (∀ seg ∈ segs, IsSegment seg) ∧ segs.flatten = kept k.opens first l.segments ∧
    s.bb.file = head ++ blocksOf lzo segs

theorem pending_stored {s : State} {chunk : List UInt8} (hlow : asmBase ≤ s.asmCurrPtr) :
    (s.stored (s.startPtr + (s.asmCurrPtr - asmBase)) chunk).pending = s.pending ++ chunk := by
  have hcount : s.asmCurrPtr + chunk.length - asmBase =
      s.asmCurrPtr - asmBase + chunk.length := by omega
  unfold State.pending State.stored pendingBytes
  rw [hcount, readBytes_writeBytes_append]

section Invariant

variable {k : Kernel} {lzo : Lzo} {startAddr first : Nat} {head : List UInt8} {l : Log UInt8}
  {s : State}

theorem Logged.addr_eq (h : Logged k lzo startAddr head first l s) :
    s.startPtr + (s.asmCurrPtr - asmBase) = startAddr + s.asmCurrPtr := by
  have hlow := h.low
  rw [h.start]
  omega

theorem Logged.length_pending (h : Logged k lzo startAddr head first l s) :
    l.pending.length = s.asmCurrPtr - asmBase := by
  rw [← h.pending, State.pending, pendingBytes, length_readBytes]

theorem Logged.store {chunk : List UInt8} (h : Logged k lzo startAddr head first l s)
    (hroom : s.asmCurrPtr + chunk.length ≤ s.asmEndPtr) :
    Logged k lzo startAddr head first (l.push chunk)
      (s.stored (startAddr + s.asmCurrPtr) chunk) := by
  have hlow := h.low
  refine ⟨h.start, h.last, ?_, hroom, h.unlocked, h.opens, ?_, h.file⟩
  · change asmBase ≤ s.asmCurrPtr + chunk.length
    omega
  · rw [← h.addr_eq, pending_stored hlow, h.pending]
    rfl

/-- The state after a flush: the position is back at the start, and the file may have
grown. -/
def State.flushed (s : State) (file : List UInt8) : State :=
  { s with
    bb := { s.bb with ptr := 0, file := file }
    asmCurrPtr := asmBase
    logFlushMutex := false
    opens := s.opens + 1 }

theorem Logged.flush {file : List UInt8} (h : Logged k lzo startAddr head first l s)
    (hfile : ∃ segs, (∀ seg ∈ segs, IsSegment seg) ∧
      segs.flatten = (if k.opens s.opens then s.pending else []) ∧
      file = s.bb.file ++ blocksOf lzo segs) :
    Logged k lzo startAddr head first l.flush (s.flushed file) := by
  obtain ⟨new, hnew, hflat, rfl⟩ := hfile
  obtain ⟨segs, hsegs, hkept, hold⟩ := h.file
  refine ⟨h.start, h.last, le_refl asmBase, h.low.trans h.high, rfl, ?_, ?_, segs ++ new, ?_, ?_,
    ?_⟩
  · rw [Log.flush, List.length_append, List.length_singleton, ← Nat.add_assoc, ← h.opens]
    rfl
  · change readBytes _ _ (asmBase - asmBase) = []
    rw [Nat.sub_self, readBytes_zero]
  · intro seg hseg
    rcases List.mem_append.mp hseg with hin | hin
    · exact hsegs seg hin
    · exact hnew seg hin
  · rw [List.flatten_append, hkept, hflat, Log.flush, kept_concat, ← h.opens, h.pending]
  · simp [State.flushed, hold, blocksOf]

end Invariant

/-- Writes and closes succeed; opens may fail. -/
structure Healthy (k : Kernel) : Prop where
  write : k.file.Complete
  close : ∀ fd, k.closeFile fd = 0

section Spec

variable {k : Kernel} {lzo : Lzo} {startAddr first : Nat} {head : List UInt8} {l : Log UInt8}
  {s : State}

theorem ends_flushLogger (hk : Healthy k) (h : Logged k lzo startAddr head first l s) :
    Ends (flushLogger k lzo startAddr) s
      (fun _ t => Logged k lzo startAddr head first l.flush t) fun _ => False := by
  have hlast := h.last
  have hlow := h.low
  have hhigh := h.high
  have hbase := asmBase_eq
  have hsize := bigbufferSz_eq
  have hoffset : sub32 s.asmCurrPtr asmBase = s.asmCurrPtr - asmBase :=
    sub32_of_le (by omega) hlow
  have hroom : s.asmCurrPtr - asmBase < bigbufferSz := by omega
  obtain ⟨off, hoff⟩ : ∃ off, off = s.asmCurrPtr - asmBase := ⟨_, rfl⟩
  rw [← hoff] at hoffset hroom
  rw [flushLogger, ends_bind, ends_assertThat]
  refine ⟨fun _ => ?_, fun hnull => absurd (getLoggerPtr_ne_zero startAddr) (by simpa using hnull)⟩
  simp only [onFlushMutex, setBigbufferPtr, sysOpen, resetAsmCurrPtr, ends_bind, ends_zoom,
    ends_xmutexLock, ends_get, h.unlocked, ends_set, ends_modify, ends_pure]
  refine ⟨fun _ => ?_, fun htaken => absurd htaken Bool.false_ne_true⟩
  rw [ends_assertThat, hoffset]
  refine ⟨fun _ => ?_, fun hfull => of_decide_eq_false hfull hroom⟩
  by_cases hfd : k.openFile s.opens < 0
  · have hopens : k.opens s.opens = false := decide_eq_false (not_le.mpr hfd)
    rw [if_pos hfd]
    exact h.flush ⟨[], by simp, by simp [hopens], by simp [blocksOf]⟩
  · have hopens : k.opens s.opens = true := decide_eq_true (not_lt.mp hfd)
    have hbb : getThisBb startAddr ≠ 0 := by
      rw [getThisBb_eq]
      omega
    have hpending : s.pending = readBytes s.bb.mem (getThisBb startAddr) off := by
      rw [hoff, getThisBb_eq, ← h.start]
      rfl
    rw [if_neg hfd]
    simp only [ends_bind, onBigbuffer, ends_zoom, ends_modify, ends_xmutexUnlock, hk.close, ne_eq,
      not_true, if_false]
    refine ends_flushBigbuffer.mono ?_ ?_
    · intro _ bb hgrew
      obtain ⟨u, ⟨segs, hsegs, hflat, rfl⟩, rfl⟩ := hgrew
      exact h.flush ⟨segs, hsegs, by rw [hflat, hopens, if_pos rfl, hpending], rfl⟩
    · intro e he
      rcases he.1 with hnull | hneg | hshort
      · exact hbb hnull
      · exact hfd hneg
      · exact hshort hk.write

theorem ends_appendLoop {chunk : List UInt8} {fuel : Nat} (hk : Healthy k)
    (h : Logged k lzo startAddr head first l s)
    (hfuel : chunk.length < fuel ∨ s.asmCurrPtr < s.asmEndPtr ∧ chunk.length ≤ fuel) :
    Ends (appendLoop k lzo startAddr fuel chunk) s
      (fun _ t => Logged k lzo startAddr head first (l.putAll loggerRoom chunk) t)
      fun _ => False := by
  induction fuel generalizing l chunk s with
  | zero =>
      have hnil : chunk = [] := List.length_eq_zero_iff.mp (by omega)
      subst hnil
      rw [appendLoop, ends_pure]
      exact h
  | succ fuel ih =>
      cases chunk with
      | nil =>
          rw [appendLoop, ends_pure]
          exact h
      | cons b bs =>
          have hlast := h.last
          have hlow := h.low
          have hhigh := h.high
          have hbase := asmBase_eq
          have hsize := bigbufferSz_eq
          have hpending := h.length_pending
          have hroom : loggerRoom = bigbufferSz - 32 := rfl
          have haval : sub32 s.asmEndPtr s.asmCurrPtr = s.asmEndPtr - s.asmCurrPtr :=
            sub32_of_le (by omega) hhigh
          have hoffset : sub32 s.asmCurrPtr asmBase = s.asmCurrPtr - asmBase :=
            sub32_of_le (by omega) hlow
          rw [appendLoop, ends_bind, ends_get, haval, hoffset, h.addr_eq]
          generalize hchunk : b :: bs = chunk at hfuel ⊢
          have hpos : 0 < chunk.length := by simp [← hchunk]
          generalize hav : s.asmEndPtr - s.asmCurrPtr = aval
          simp only [ends_bind, store, ends_modify]
          by_cases hmore : aval < chunk.length
          · -- the chunk fills the buffer, a flush makes room for the rest of it
            have htake : (chunk.take aval).length = aval := List.length_take_of_le hmore.le
            have hdrop : (chunk.drop aval).length = chunk.length - aval := List.length_drop
            have hstore := h.store
              (show s.asmCurrPtr + (chunk.take aval).length ≤ s.asmEndPtr by omega)
            have hfull : (l.push (chunk.take aval)).pending.length = loggerRoom := by
              rw [Log.push, List.length_append]
              omega
            have hpush : l.putAll loggerRoom (chunk.take aval) = l.push (chunk.take aval) :=
              Log.putAll_of_le (by omega)
            have hne : chunk.drop aval ≠ [] := List.ne_nil_of_length_pos (by omega)
            have hlog : l.putAll loggerRoom chunk =
                (l.push (chunk.take aval)).flush.putAll loggerRoom (chunk.drop aval) :=
              calc l.putAll loggerRoom chunk
                  = (l.putAll loggerRoom (chunk.take aval)).putAll loggerRoom (chunk.drop aval) := by
                    rw [← Log.putAll_append, List.take_append_drop]
                _ = (l.push (chunk.take aval)).putAll loggerRoom (chunk.drop aval) := by
                    rw [hpush]
                _ = _ := Log.putAll_of_full (by omega) hfull hne
            rw [if_neg hmore.not_gt, if_pos (by omega), ends_bind]
            refine (ends_flushLogger hk hstore).post ?_
            intro _ t ht
            have htlast := ht.last
            have htpending := ht.length_pending
            rw [Log.flush, List.length_nil] at htpending
            have htlow := ht.low
            rw [hlog]
            exact ih ht (Or.inr ⟨by omega, by omega⟩)
          · have hstore := h.store (show s.asmCurrPtr + chunk.length ≤ s.asmEndPtr by omega)
            have hcpysz : (if chunk.length < aval then chunk.length else aval) = chunk.length := by
              split_ifs <;> omega
            rw [hcpysz, Nat.sub_self, if_neg (Nat.lt_irrefl 0), ends_pure, List.take_length,
              Log.putAll_of_le (by omega)]
            exact hstore

theorem ends_appendLogger {chunk : List UInt8} (hk : Healthy k)
    (h : Logged k lzo startAddr head first l s) :
    Ends (appendLogger k lzo startAddr chunk) s
      (fun _ t => Logged k lzo startAddr head first (l.putAll loggerRoom chunk) t)
      fun _ => False :=
  ends_appendLoop hk h (Or.inl (Nat.lt_succ_self _))

/-- A value no wider than the reserve fits after at most one flush. -/
theorem ends_appendLoggerType {x : List UInt8} (hk : Healthy k)
    (h : Logged k lzo startAddr head first l s) (hx : x.length ≤ 32) :
    Ends (appendLoggerType k lzo startAddr x) s
      (fun _ t => Logged k lzo startAddr head first (l.put loggerRoom x) t) fun _ => False := by
  have hbase := asmBase_eq
  have hsize := bigbufferSz_eq
  have hlast := h.last
  have hlow := h.low
  have hpending := h.length_pending
  have hroom : loggerRoom = bigbufferSz - 32 := rfl
  rw [appendLoggerType, ends_bind, ends_get, Log.put]
  by_cases hfull : s.asmEndPtr < s.asmCurrPtr + x.length
  · rw [if_pos (by omega : loggerRoom < l.pending.length + x.length)]
    simp only [hfull, if_true, ends_bind]
    refine (ends_flushLogger hk h).post ?_
    intro _ t ht
    have htlast := ht.last
    have htlow := ht.low
    have htpending := ht.length_pending
    rw [Log.flush, List.length_nil] at htpending
    rw [ends_get, Logger.store, ends_modify]
    exact ht.store (by omega)
  · rw [if_neg (by omega : ¬ loggerRoom < l.pending.length + x.length)]
    simp only [hfull, if_false, ends_bind, ends_get, Logger.store, ends_modify]
    exact h.store (by omega)

theorem ends_run (hk : Healthy k) (c : Call) (h : Logged k lzo startAddr head first l s) :
    Ends (c.run k lzo startAddr) s
      (fun _ t => Logged k lzo startAddr head first (c.log l) t) fun _ => False := by
  cases c with
  | append chunk => exact ends_appendLogger hk h
  | u32 x => exact ends_appendLoggerType hk h (by simp)
  | ptr x => exact ends_appendLoggerType hk h (by simp)
  | u16 x => exact ends_appendLoggerType hk h (by simp)
  | u8 x => exact ends_appendLoggerType hk h (by simp)
  | int x => exact ends_appendLoggerType hk h (by simp)
  | flush => exact ends_flushLogger hk h

/-- An init whose file opens leaves an empty log behind the file header. -/
theorem ends_initLogger {szFn : Nat} (hk : Healthy k) (hopened : 0 ≤ k.openFile s.opens) :
    Ends (initLogger k startAddr szFn) s
      (fun _ t => Logged k lzo startAddr compFileHeader (s.opens + 1) Log.empty t)
      fun _ => maxOutputFnLen ≤ szFn := by
  rw [initLogger, ends_bind, ends_assertThat]
  refine ⟨fun _ => ?_, fun hnull => absurd (getLoggerPtr_ne_zero startAddr) (by simpa using hnull)⟩
  rw [ends_bind, setBigbufferPtr, ends_modify, ends_bind, ends_assertThat]
  refine ⟨fun _ => ?_, fun hlong => not_lt.mp (of_decide_eq_false hlong)⟩
  simp only [sysOpen, ends_bind, ends_modify, ends_get, ends_set, ends_pure, not_lt.mpr hopened,
    if_false, onBigbuffer, ends_zoom]
  refine (Compression.ends_writeCompFileHead hopened).mono ?_ ?_
  · intro _ bb hbb
    subst hbb
    refine ⟨getThisBb_eq startAddr, rfl, le_refl asmBase, ?_, rfl, rfl, ?_, [], by simp, rfl, ?_⟩
    · have hsize := bigbufferSz_eq
      change asmBase ≤ asmBase + bigbufferSz - 32
      omega
    · simp [State.pending, pendingBytes, Log.empty]
    · simp [blocksOf]
  · intro e he
    exact absurd hk.write he.1

theorem ends_runs (hk : Healthy k) (h : Logged k lzo startAddr head first Log.empty s)
    (calls : List Call) :
    Ends (forM calls (Call.run k lzo startAddr)) s
      (fun _ t => Logged k lzo startAddr head first (logOf calls) t) fun _ => False := by
  refine ends_forM (I := fun done t => Logged k lzo startAddr head first (logOf done) t) ?_ h
  intro done c rest t _ ht
  rw [logOf, List.foldl_append]
  exact ends_run hk c ht

end Spec

/-- After an init whose log file opened, every sequence of appends and flushes returns,
with one open for each flush.  The segments its flushes find, followed by what is
pending, are the bytes appended; the file holds the segments of the flushes whose open
succeeded; and both ways of addressing the buffer name the same next byte. -/
theorem logger_stream_law {k : Kernel} {lzo : Lzo} {startAddr szFn : Nat} {s₀ s : State}
    (hk : Healthy k) (hinit : initLogger k startAddr szFn s₀ = .ok () s)
    (hopened : 0 ≤ k.openFile s₀.opens) (calls : List Call) :
    ∃ t body, forM calls (Call.run k lzo startAddr) s = .ok () t ∧
      asmBase ≤ t.asmCurrPtr ∧ t.asmCurrPtr ≤ t.asmEndPtr ∧
      t.opens = s₀.opens + 1 + (logOf calls).segments.length ∧
      t.pending = (logOf calls).pending ∧
      (logOf calls).segments.flatten ++ t.pending = calls.flatMap Call.bytes ∧
      t.bb.file = compFileHeader ++ body ∧
      decompressFile lzo body = some (kept k.opens (s₀.opens + 1) (logOf calls).segments) ∧
      t.startPtr + (t.asmCurrPtr - asmBase) = startAddr + t.asmCurrPtr := by
  have hstart : Logged k lzo startAddr compFileHeader (s₀.opens + 1) Log.empty s :=
    (ends_initLogger hk hopened).of_ok hinit
  obtain ⟨_, t, ht, hlogged⟩ := (ends_runs hk hstart calls).returns
  obtain ⟨segs, hsegs, hflat, hfile⟩ := hlogged.file
  refine ⟨t, blocksOf lzo segs, ht, hlogged.low, hlogged.high, hlogged.opens, hlogged.pending, ?_,
    hfile, ?_, hlogged.addr_eq⟩
  · rw [hlogged.pending]
    exact contents_logOf calls
  · rw [decompressFile_blocks hsegs, hflat]

/-- The second open fails. -/
def flakyKernel : Kernel where
  file := ⟨fun _ count => count⟩
  openFile n := if n = 1 then -2 else 3
  closeFile _ := 0

def bootState : State := ⟨⟨fun _ => 0, 0, []⟩, 0, 0, 0, 0, false, 0⟩

/-- The segment of the first flush is lost, that of the second is in the file. -/
theorem logger_stream_law_failed_open :
    ∃ s t body, initLogger flakyKernel 0x10000000 60 bootState = .ok () s ∧
      forM [.u8 7, .flush, .u16 513, .flush, .append [1, 2, 3]]
        (Call.run flakyKernel literalLzo 0x10000000) s = .ok () t ∧
      t.opens = 3 ∧ t.pending = [1, 2, 3] ∧ t.bb.file = compFileHeader ++ body ∧
      decompressFile literalLzo body = some [1, 2] := by
  have hk : Healthy flakyKernel := ⟨fun _ _ => rfl, fun _ => rfl⟩
  have hinit : Ends (initLogger flakyKernel 0x10000000 60) bootState
      (fun _ t => Logged flakyKernel literalLzo 0x10000000 compFileHeader 1 Log.empty t)
      fun _ => False :=
    (ends_initLogger hk (by decide)).mono (fun _ _ => id) fun _ hlong => absurd hlong (by decide)
  obtain ⟨_, s, hs, -⟩ := hinit.returns
  obtain ⟨t, body, ht, -, -, hopens, hpending, -, hfile, hdecomp, -⟩ :=
    logger_stream_law hk hs (by decide) [.u8 7, .flush, .u16 513, .flush, .append [1, 2, 3]]
  have hlog : logOf [.u8 7, .flush, .u16 513, .flush, .append [1, 2, 3]] =
      ⟨[[7], [1, 2]], [1, 2, 3]⟩ := by decide
  rw [hlog] at hopens hpending hdecomp
  exact ⟨s, t, body, hs, ht, hopens, hpending, hfile, hdecomp⟩

end Snitchaser.Stream.Logger
