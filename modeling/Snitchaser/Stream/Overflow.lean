import Snitchaser.Stream.Bigbuffer
/-!
# When an append finds the buffer full

`append_bigbuffer` empties a full buffer only if there are more bytes to store.  An
append that ends on the last byte of the buffer leaves it full, and the next append,
even of nothing, fails the assertion at its entry.  Between two flushes that happens
when the sizes so far add up to a multiple of `BIGBUFFER_SZ`.
-/

namespace Snitchaser.Stream.Overflow

open Snitchaser.Defs
open Snitchaser.Lib.ByteMemory
open Snitchaser.Lib.Hoare
open Snitchaser.Lib.Program
open Snitchaser.Stream.Bigbuffer
open Snitchaser.Stream.Compression (Kernel Lzo State Refused)

inductive Op where
  | append (buf : List UInt8)
  | flush

section Code

variable (k : Kernel) (lzo : Lzo) (fd : Int) (bb : Nat)

def Op.run : Op → Prog State Unit
  | .append buf => appendBigbuffer k lzo fd bb buf
  | .flush => flushBigbuffer k lzo fd bb

def session (ops : List Op) : Prog State Unit := do
  initBigbuffer bb
  forM ops (Op.run k lzo fd bb)

end Code

/-! ## The fill level -/

/-- The bytes appended since the last flush, `n` of them before `op`. -/
def Op.total (n : Nat) : Op → Nat
  | .append buf => n + buf.length
  | .flush => 0

/-- The bytes appended since the last flush of `ops`, or since the start. -/
def unflushed (ops : List Op) : Nat := ops.foldl Op.total 0

/-- `n` bytes have filled the buffer to its last byte. -/
def Full (n : Nat) : Prop := 0 < n ∧ bigbufferSz ∣ n

/-- `bb->ptr` after `n` bytes. -/
def level (n : Nat) : Nat := if n = 0 then 0 else (n - 1) % bigbufferSz + 1

theorem level_lt_iff (n : Nat) : level n < bigbufferSz ↔ ¬ Full n := by
  have hsize : bigbufferSz = 2097152 := by decide
  unfold level Full
  rw [hsize]
  split
  case isTrue hzero => omega
  case isFalse hpos => omega

theorem level_add {n m : Nat} (hm : 0 < m) :
    (level n + m - 1) % bigbufferSz + 1 = level (n + m) := by
  have hsize : bigbufferSz = 2097152 := by decide
  unfold level
  rw [hsize, if_neg (show n + m ≠ 0 by omega)]
  split
  case isTrue hzero => omega
  case isFalse hpos => omega

section Spec

variable {k : Kernel} {lzo : Lzo} {fd : Int} {bb : Nat} {s : State}

/-- The kernel writes all it is given, and the arguments are valid. -/
structure Valid (k : Kernel) (fd : Int) (bb : Nat) : Prop where
  complete : k.Complete
  fd : 0 ≤ fd
  bb : bb ≠ 0

theorem Valid.not_refused (h : Valid k fd bb) (e : Stop) : ¬ Refused k fd bb e := by
  rintro ⟨hnull | hneg | hshort, _⟩
  · exact h.bb hnull
  · exact absurd h.fd (by omega)
  · exact hshort h.complete

theorem ends_flush_level (h : Valid k fd bb) :
    Ends (flushBigbuffer k lzo fd bb) s (fun _ t => t.ptr = 0) fun _ => False := by
  refine ends_flushBigbuffer.mono ?_ h.not_refused
  rintro _ t ⟨u, _, rfl⟩
  rfl

/-- The loop of an append: every flush in it finds the buffer full. -/
theorem ends_appendLoop_level {fuel : Nat} {buf : List UInt8} (h : Valid k fd bb)
    (hptr : s.ptr < bigbufferSz) (hpos : 0 < buf.length) (hfuel : buf.length < fuel) :
    Ends (appendLoop k lzo fd bb fuel buf) s
      (fun _ t => t.ptr = (s.ptr + buf.length - 1) % bigbufferSz + 1) fun _ => False := by
  induction fuel generalizing buf s with
  | zero => omega
  | succ fuel ih =>
      rw [appendLoop, ends_bind, ends_get]
      generalize hcp : min (bigbufferSz - s.ptr) buf.length = cpSz
      simp only [ends_bind, ends_set]
      by_cases hmore : 0 < buf.length - cpSz
      · rw [if_pos hmore, ends_bind, ends_assertThat]
        refine ⟨fun _ => ?_, fun hfull => absurd (of_decide_eq_false hfull) (by omega)⟩
        rw [ends_bind]
        refine (ends_flush_level h).post ?_
        intro _ t ht
        have hlen : (buf.drop cpSz).length = buf.length - cpSz := List.length_drop
        refine (ih (by omega) (by omega) (by omega)).post ?_
        intro _ u hu
        -- the bytes stored so far fill the buffer, so they do not count
        have hround : s.ptr + buf.length - 1 =
            t.ptr + (buf.drop cpSz).length - 1 + bigbufferSz := by omega
        rw [hu, hround, Nat.add_mod_right]
      · rw [if_neg hmore, ends_pure]
        change s.ptr + cpSz = (s.ptr + buf.length - 1) % bigbufferSz + 1
        rw [Nat.mod_eq_of_lt (by omega)]
        omega

/-- An append at level `n` comes to its end if the buffer is not full, and fails the
first assertion about it if it is. -/
theorem ends_append_level {n : Nat} {buf : List UInt8} (h : Valid k fd bb)
    (hn : s.ptr = level n) :
    Ends (appendBigbuffer k lzo fd bb buf) s
      (fun _ t => ¬ Full n ∧ t.ptr = level (n + buf.length))
      fun e => Full n ∧ e = .assertion "bb->ptr < BIGBUFFER_SZ" := by
  rw [appendBigbuffer, ends_bind, ends_assertThat]
  refine ⟨fun _ => ?_, fun hnull => absurd h.bb (by simpa using hnull)⟩
  rw [ends_bind, ends_get, ends_bind, ends_assertThat, hn]
  refine ⟨fun hlt => ?_, fun hge => ?_⟩
  · have hroom : level n < bigbufferSz := of_decide_eq_true hlt
    have hfull : ¬ Full n := (level_lt_iff n).mp hroom
    rw [ends_bind, ends_assertThat]
    refine ⟨fun _ => ?_, fun hneg => absurd h.fd (of_decide_eq_false hneg)⟩
    by_cases hbuf : buf.length = 0
    · rw [if_pos hbuf, ends_pure, hbuf]
      exact ⟨hfull, hn⟩
    · rw [if_neg hbuf]
      refine (ends_appendLoop_level h (by omega) (by omega) (Nat.lt_succ_self _)).mono ?_
        fun _ => False.elim
      intro _ t ht
      rw [ht, hn]
      exact ⟨hfull, level_add (by omega)⟩
  · have hroom : ¬ level n < bigbufferSz := of_decide_eq_false hge
    rw [level_lt_iff, not_not] at hroom
    exact ⟨hroom, rfl⟩

theorem ends_run_level {n : Nat} (op : Op) (h : Valid k fd bb) (hn : s.ptr = level n) :
    Ends (op.run k lzo fd bb) s
      (fun _ t => (∀ buf, op = .append buf → ¬ Full n) ∧ t.ptr = level (op.total n))
      fun e => (∃ buf, op = .append buf) ∧ Full n ∧ e = .assertion "bb->ptr < BIGBUFFER_SZ" := by
  cases op with
  | append buf =>
      refine (ends_append_level h hn).mono ?_ ?_
      · intro _ t ht
        exact ⟨fun _ _ => ht.1, ht.2⟩
      · intro e he
        exact ⟨⟨buf, rfl⟩, he⟩
  | flush =>
      refine (ends_flush_level h).mono ?_ fun _ => False.elim
      intro _ t ht
      refine ⟨fun buf hop => ?_, ht⟩
      cases hop

/-- No append of `ops` finds the buffer full. -/
def NeverFull (ops : List Op) : Prop :=
  ∀ done buf rest, ops = done ++ .append buf :: rest → ¬ Full (unflushed done)

theorem unflushed_concat (done : List Op) (op : Op) :
    unflushed (done ++ [op]) = op.total (unflushed done) := by
  rw [unflushed, List.foldl_append, List.foldl_cons, List.foldl_nil, unflushed]

theorem NeverFull.concat {done : List Op} (h : NeverFull done) (op : Op)
    (hop : ∀ buf, op = .append buf → ¬ Full (unflushed done)) : NeverFull (done ++ [op]) := by
  intro before buf after hsplit
  rcases List.eq_nil_or_concat after with rfl | ⟨after, last, rfl⟩
  · obtain ⟨rfl, hlast⟩ := List.append_inj' hsplit rfl
    exact hop buf (List.singleton_inj.mp hlast)
  · have hcut : done ++ [op] = (before ++ .append buf :: after) ++ [last] := by simpa using hsplit
    exact h before buf after (List.append_inj' hcut rfl).1

theorem ends_session (k : Kernel) (lzo : Lzo) (fd : Int) (bb : Nat) (s : State) (ops : List Op)
    (h : Valid k fd bb) :
    Ends (session k lzo fd bb ops) s (fun _ _ => NeverFull ops)
      fun e => ¬ NeverFull ops ∧ e = .assertion "bb->ptr < BIGBUFFER_SZ" := by
  rw [session, ends_bind, initBigbuffer, ends_bind, ends_assertThat]
  refine ⟨fun _ => ?_, fun hnull => absurd h.bb (by simpa using hnull)⟩
  rw [resetBigbufferPtr, ends_modify]
  refine (ends_forM (I := fun done t => NeverFull done ∧ t.ptr = level (unflushed done)) ?_ ?_).post
    fun _ _ => And.left
  · intro done op rest t hops ht
    refine (ends_run_level op h ht.2).mono ?_ ?_
    · intro _ u hu
      exact ⟨ht.1.concat op hu.1, by rw [hu.2, unflushed_concat]⟩
    · rintro e ⟨⟨buf, rfl⟩, hfull, rfl⟩
      exact ⟨fun hnever => hnever done buf rest hops hfull, rfl⟩
  · refine ⟨?_, rfl⟩
    intro before buf after hnil
    simp at hnil

/-- A session of appends and flushes comes to its end exactly if no append is made when
the sizes since the last flush add up to a positive multiple of the buffer's size; and
only the assertion on entry can fail, never the one inside the loop. -/
theorem appends_pass_iff (ops : List Op) (s : State) (h : Valid k fd bb) :
    (Returns (session k lzo fd bb ops) s ↔
      ∀ done buf rest, ops = done ++ .append buf :: rest →
        ¬ (0 < unflushed done ∧ bigbufferSz ∣ unflushed done)) ∧
    Ends (session k lzo fd bb ops) s (fun _ _ => True)
      fun e => e = .assertion "bb->ptr < BIGBUFFER_SZ" := by
  have hends := ends_session k lzo fd bb s ops h
  refine ⟨⟨fun hret => ?_, fun hnever => ?_⟩, hends.mono (fun _ _ _ => trivial) fun _ => And.right⟩
  · obtain ⟨_, t, hrun⟩ := hret.exists_ok
    exact hends.of_ok hrun
  · rw [returns_iff_ends]
    exact hends.mono (fun _ _ _ => trivial) fun _ he => he.1 hnever

end Spec

/-- Every write is complete. -/
def writingKernel : Kernel := ⟨fun _ count => count⟩

def emptyState : State := ⟨fun _ => 0, 0, []⟩

def fullBuffer : List UInt8 := List.replicate bigbufferSz 0

theorem length_fullBuffer : fullBuffer.length = bigbufferSz := List.length_replicate

theorem valid_writingKernel : Valid writingKernel 3 0x1000 := ⟨fun _ _ => rfl, by decide, by decide⟩

theorem neverFull_flushed (buf : List UInt8) : NeverFull [.append buf, .flush, .append [1]] := by
  have hstart : NeverFull [] := by
    intro before buf after hnil
    simp at hnil
  have hfirst := hstart.concat (.append buf) fun _ _ hfull => Nat.lt_irrefl 0 hfull.1
  have hsecond := hfirst.concat .flush fun _ hop => by cases hop
  exact hsecond.concat (.append [1]) fun _ _ hfull => Nat.lt_irrefl 0 hfull.1

/-- The buffer is filled to its last byte, but flushed before the next append. -/
theorem appends_pass_flushed :
    Returns (session writingKernel Compression.literalLzo 3 0x1000
      [.append fullBuffer, .flush, .append [1]]) emptyState :=
  (appends_pass_iff _ emptyState valid_writingKernel).1.mpr (neverFull_flushed _)

theorem second_append_stops {buf : List UInt8} (hbuf : buf.length = bigbufferSz) :
    ∃ t, session writingKernel Compression.literalLzo 3 0x1000 [.append buf, .append [1]]
      emptyState = .error (.assertion "bb->ptr < BIGBUFFER_SZ") t := by
  have htotal : unflushed [.append buf] = bigbufferSz := (Nat.zero_add _).trans hbuf
  have hfull : ¬ NeverFull [.append buf, .append [1]] := by
    intro hnever
    refine hnever [.append buf] [1] [] rfl ?_
    rw [htotal]
    exact ⟨bigbufferSz_pos, dvd_rfl⟩
  have hends := ends_session writingKernel Compression.literalLzo 3 0x1000 emptyState
    [.append buf, .append [1]] valid_writingKernel
  obtain ⟨e, t, hrun, _, rfl⟩ := (hends.post fun _ _ => hfull).stops
  exact ⟨t, hrun⟩

/-- An append of `BIGBUFFER_SZ` bytes and one of a single byte. -/
theorem second_append_finds_buffer_full :
    Valid writingKernel 3 0x1000 ∧
    ∃ t, session writingKernel Compression.literalLzo 3 0x1000 [.append fullBuffer, .append [1]]
      emptyState = .error (.assertion "bb->ptr < BIGBUFFER_SZ") t :=
  ⟨valid_writingKernel, second_append_stops length_fullBuffer⟩

end Snitchaser.Stream.Overflow
