import Snitchaser.Lib.Hoare
import Snitchaser.Xmalloc.Model
/-!
# The law of `xmalloc` and its family

What the comment above `xrealloc` promises, along a run.  It is kept up to the first call
that breaks it, and which call does is seen from the calls and the answers of the kernel
alone: an error number passes for a pointer, the product of `xcalloc` may wrap, and
`xrealloc` allocates whatever block it is given.
-/

namespace Snitchaser.Xmalloc.Runs

open Snitchaser.Defs
open Snitchaser.Lib.AddressSpace
open Snitchaser.Lib.Hoare
open Snitchaser.Lib.Program
open Snitchaser.Xmalloc.Model

/-! ## The law -/

/-- `p` is no error code, and `n` bytes are mapped there. -/
def IsBlock (s : State) (p n : Nat) : Prop :=
  p < 2 ^ 32 - 4095 ∧ ∀ i < n, s.space (p + i) ≠ none

def Unmapped (s : State) (p n : Nat) : Prop := ∀ i < n, s.space (p + i) = none

/-- What a call that returns `p` has to have done. -/
def Lawful (s : State) (p : Nat) (t : State) : Call → Prop
  | .malloc size _ => IsBlock t p size
  | .calloc nmenb size _ => IsBlock t p (nmenb * size)
  | .realloc oldPtr oldSize size _ =>
      if oldPtr = 0 then IsBlock t p size
      else if size = 0 then Unmapped t oldPtr oldSize
      else IsBlock t p size ∧
        (∀ i < min oldSize size,
          (t.space (p + i)).map Cell.byte = (s.space (oldPtr + i)).map Cell.byte) ∧
        (p ≠ oldPtr → Unmapped t oldPtr oldSize)
  | .free ptr size => Unmapped t ptr size

/-- A live block is resized to nothing. -/
def ResizesToZero : Call → Prop
  | .realloc oldPtr _ size _ => oldPtr ≠ 0 ∧ size = 0
  | _ => False

/-- A failed assertion returns nothing that could break the law; but a block has to be
freed. -/
def Obeys (c : Call) (s : State) : Prop :=
  Ends (call c) s (fun p t => Lawful s p t c) fun _ => ¬ ResizesToZero c

/-- The law along a run. -/
def Law : List Call → State → Prop
  | [], _ => True
  | c :: cs, s => Obeys c s ∧ ∀ p t, call c s = .ok p t → Law cs t

/-! ## What is seen from the calls -/

def IsAddr : Answer → Prop
  | .addr _ => True
  | .errno _ => False

/-- An assertion of the call fails. -/
def Stops : Call → Prop
  | .malloc size ans => size = 0 ∨ ans.value ≤ 0x1000
  | .calloc nmenb size ans => nmenb = 0 ∨ size = 0 ∨ ans.value ≤ 0x1000
  | .realloc _ _ size ans => size = 0 ∨ ans.value ≤ 0x1000
  | .free _ _ => False

instance : DecidablePred Stops
  | .malloc size ans => inferInstanceAs (Decidable (size = 0 ∨ ans.value ≤ 0x1000))
  | .calloc nmenb size ans =>
      inferInstanceAs (Decidable (nmenb = 0 ∨ size = 0 ∨ ans.value ≤ 0x1000))
  | .realloc _ _ size ans => inferInstanceAs (Decidable (size = 0 ∨ ans.value ≤ 0x1000))
  | .free _ _ => inferInstanceAs (Decidable False)

/-- The calls up to the one that stops the process. -/
def executed : List Call → List Call
  | [] => []
  | c :: cs => c :: if Stops c then [] else executed cs

/-- The kernel has memory, the product fits, and no live block is resized. -/
def Sound : Call → Prop
  | .malloc _ ans => IsAddr ans
  | .calloc nmenb size ans => IsAddr ans ∧ nmenb * size < 2 ^ 32
  | .realloc oldPtr _ _ ans => IsAddr ans ∧ oldPtr = 0
  | .free _ _ => True

def Kept (c : Call) : Prop := if Stops c then ¬ ResizesToZero c else Sound c

/-! ## Sizes -/

theorem alignUp_four {n : Nat} (h : n < 2 ^ 32) :
    alignUp n 4 = if n + 3 < 2 ^ 32 then (n + 3) / 4 * 4 else 0 := by
  have hdown : alignUp n 4 = alignDown ((n + 3) % 2 ^ 32) (2 ^ 2) := by
    rw [alignUp, show n + 4 - 1 = n + 3 by omega, alignDown, alignDown, Nat.mod_mod]
    rfl
  rw [hdown, alignDown_two_pow (by decide) (Nat.mod_lt _ (by decide))]
  split_ifs with hlt
  · rw [Nat.mod_eq_of_lt hlt]
    rfl
  · omega

/-- A length that the kernel accepts holds what was asked for, in as many pages. -/
theorem alignUp_four_fits {n : Nat} (h : n < 2 ^ 32) (hpos : 0 < alignUp n 4) :
    n ≤ alignUp n 4 ∧ pageUp (alignUp n 4) = pageUp n := by
  rw [alignUp_four h] at hpos ⊢
  unfold pageUp
  split_ifs at hpos ⊢ with hlt
  · omega
  · omega

theorem le_pageUp (n : Nat) : n ≤ pageUp n := by
  unfold pageUp
  omega

/-! ## Mapping -/

/-- The state after `mmap`. -/
def mmapped (ans : Answer) (length : Nat) (s : State) : State :=
  match ans with
  | .addr a => { s with space := replace s.space a (pageUp length) fun _ => zeroCell }
  | .errno _ => s

theorem sysMmap_eq (ans : Answer) (length : Nat) (s : State) :
    sysMmap ans length s = .ok ans.value (mmapped ans length s) := by
  cases ans with
  | addr a => rfl
  | errno e => rfl

theorem ends_sysMmap {ans : Answer} {length : Nat} {s : State} {Q : Nat → State → Prop}
    {E : Stop → Prop} : Ends (sysMmap ans length) s Q E ↔ Q ans.value (mmapped ans length s) := by
  rw [Ends, sysMmap_eq]

/-- Two blocks without a common page. -/
def Apart (b c : Nat × Nat) : Prop := b.1 + pageUp b.2 ≤ c.1 ∨ c.1 + pageUp c.2 ≤ b.1

/-- What all runs keep: the address space ends, and the live blocks are mappings of their
own. -/
structure Good (s : State) : Prop where
  below : ∀ x, 2 ^ 32 ≤ x → s.space x = none
  pos : ∀ b ∈ s.live, 0 < b.2
  valid : ∀ b ∈ s.live, 0x1000 < b.1 ∧ b.1 % 4096 = 0
  fits : ∀ b ∈ s.live, b.1 + pageUp b.2 ≤ 2 ^ 32 - 4096
  mapped : ∀ b ∈ s.live, ∀ i < pageUp b.2, s.space (b.1 + i) ≠ none
  apart : s.live.Pairwise Apart

section Mapping

variable {s : State} {ans : Answer} {a length n : Nat}

theorem below_mmapped (h : Good s) (hpossible : ans.Possible s length) :
    ∀ x, 2 ^ 32 ≤ x → (mmapped ans length s).space x = none := by
  intro x hx
  cases ans with
  | errno e => exact h.below x hx
  | addr a =>
      obtain ⟨_, _, _, hfits, _⟩ := hpossible
      change replace s.space a (pageUp length) (fun _ => zeroCell) x = none
      rw [replace_outside (by omega)]
      exact h.below x hx

/-- Nothing is unmapped. -/
theorem mmapped_ne_none {x : Nat} (hx : s.space x ≠ none) :
    (mmapped ans length s).space x ≠ none := by
  cases ans with
  | errno e => exact hx
  | addr a =>
      change replace s.space a (pageUp length) (fun _ => zeroCell) x ≠ none
      unfold replace
      split_ifs
      · exact Option.some_ne_none _
      · exact hx

theorem mmapped_inside {i : Nat} (hi : i < pageUp length) :
    (mmapped (.addr a) length s).space (a + i) ≠ none := by
  change replace s.space a (pageUp length) (fun _ => zeroCell) (a + i) ≠ none
  rw [replace_inside hi]
  exact Option.some_ne_none _

/-- A block that the kernel has found room for. -/
theorem isBlock_of_addr {t : State} (hpossible : (Answer.addr a).Possible s length)
    (hn : n ≤ length) (ht : t.space = (mmapped (.addr a) length s).space) : IsBlock t a n := by
  obtain ⟨hpos, _, _, hfits, _⟩ := hpossible
  have hle := le_pageUp length
  refine ⟨by omega, ?_⟩
  intro i hi
  rw [ht]
  exact mmapped_inside (by omega)

/-- An error number is no block. -/
theorem not_isBlock_of_errno {t : State} {e : Nat} (hpossible : (Answer.errno e).Possible s length) :
    ¬ IsBlock t (Answer.errno e).value n := by
  rintro ⟨hvalue, _⟩
  obtain ⟨hlow, hhigh⟩ := hpossible
  change 2 ^ 32 - e < 2 ^ 32 - 4095 at hvalue
  omega

/-- A new block next to the others. -/
theorem Good.handOut (h : Good s) (hpossible : (Answer.addr a).Possible s length)
    (hvalid : 0x1000 < a) (hn : 0 < n) (hpages : pageUp length = pageUp n) :
    Good { mmapped (.addr a) length s with live := (a, n) :: s.live } := by
  have hbelow := below_mmapped h hpossible
  obtain ⟨_, _, hpage, hfits, hfree⟩ := hpossible
  rw [hpages] at hfits hfree
  constructor
  · exact hbelow
  · exact List.forall_mem_cons.mpr ⟨hn, h.pos⟩
  · exact List.forall_mem_cons.mpr ⟨⟨hvalid, hpage⟩, h.valid⟩
  · exact List.forall_mem_cons.mpr ⟨hfits, h.fits⟩
  · refine List.forall_mem_cons.mpr ⟨?_, ?_⟩
    · intro i hi
      exact mmapped_inside (by rwa [hpages])
    · intro b hb i hi
      change (mmapped (.addr a) length s).space (b.1 + i) ≠ none
      exact mmapped_ne_none (h.mapped b hb i hi)
  · refine List.pairwise_cons.mpr ⟨?_, h.apart⟩
    intro b hb
    -- a byte that both have would be mapped and free
    by_contra hoverlap
    have hb0 : 0 < pageUp b.2 := Nat.lt_of_lt_of_le (h.pos b hb) (le_pageUp _)
    have hn0 : 0 < pageUp n := Nat.lt_of_lt_of_le hn (le_pageUp _)
    obtain ⟨hleft, hright⟩ : ¬ a + pageUp n ≤ b.1 ∧ ¬ b.1 + pageUp b.2 ≤ a := not_or.mp hoverlap
    by_cases hle : a ≤ b.1
    · have hnone := hfree (b.1 - a) (by omega)
      rw [show a + (b.1 - a) = b.1 + 0 by omega] at hnone
      exact h.mapped b hb 0 hb0 hnone
    · have hnone := hfree 0 hn0
      rw [show a + 0 = b.1 + (a - b.1) by omega] at hnone
      exact h.mapped b hb (a - b.1) (by omega) hnone

/-- A block less. -/
theorem Good.giveBack {p : Nat} (h : Good s) (hlive : (p, n) ∈ s.live) :
    Good ⟨replace s.space p (pageUp n) fun _ => none, s.live.erase (p, n)⟩ := by
  have hmem : ∀ b ∈ s.live.erase (p, n), b ∈ s.live := fun b hb => List.mem_of_mem_erase hb
  obtain ⟨hothers, hrest⟩ := List.pairwise_cons.mp
    (((List.perm_cons_erase hlive).pairwise_iff Or.symm).mp h.apart)
  have hfits : p + pageUp n ≤ 2 ^ 32 - 4096 := h.fits _ hlive
  constructor
  · intro x hx
    change replace s.space p (pageUp n) (fun _ => none) x = none
    rw [replace_outside (by omega)]
    exact h.below x hx
  · exact fun b hb => h.pos b (hmem b hb)
  · exact fun b hb => h.valid b (hmem b hb)
  · exact fun b hb => h.fits b (hmem b hb)
  · intro b hb i hi
    have hapart : p + pageUp n ≤ b.1 ∨ b.1 + pageUp b.2 ≤ p := hothers b hb
    have hout : b.1 + i < p ∨ p + pageUp n ≤ b.1 + i := by omega
    change replace s.space p (pageUp n) (fun _ => none) (b.1 + i) ≠ none
    rw [replace_outside hout]
    exact h.mapped b (hmem b hb) i hi
  · exact hrest

end Mapping

/-! ## The calls -/

/-- The pointer a call returns, and the state it leaves. -/
def ptrOf : Call → Nat
  | .malloc _ ans | .calloc _ _ ans | .realloc _ _ _ ans => ans.value
  | .free _ _ => 0

def next (s : State) : Call → State
  | .malloc size ans =>
      { mmapped ans (alignUp size 4) s with live := (ans.value, size) :: s.live }
  | .calloc nmenb size ans =>
      { mmapped ans (alignUp (nmenb * size % 2 ^ 32) 4) s with
        live := (ans.value, nmenb * size) :: s.live }
  | .realloc oldPtr oldSize size ans =>
      { mmapped ans (alignUp size 4) s with
        live := (ans.value, size) :: s.live.erase (oldPtr, oldSize) }
  | .free ptr size =>
      ⟨replace s.space ptr (pageUp size) fun _ => none, s.live.erase (ptr, size)⟩

section Calls

variable {s : State} {ans : Answer} {size : Nat} {Q : Nat → State → Prop} {E : Stop → Prop}

theorem live_mmapped (ans : Answer) (length : Nat) (s : State) :
    (mmapped ans length s).live = s.live := by
  cases ans with
  | addr a => rfl
  | errno e => rfl

theorem ends_xmalloc (hQ : size ≠ 0 → 0x1000 < ans.value →
      Q ans.value (mmapped ans (alignUp size 4) s))
    (hE : size = 0 ∨ ans.value ≤ 0x1000 → ∀ e, E e) : Ends (xmalloc ans size) s Q E := by
  simp only [xmalloc, ends_bind, ends_assertThat, ends_sysMmap, ends_pure, isValidPtr,
    decide_eq_true_eq, decide_eq_false_iff_not]
  refine ⟨fun hsize => ⟨fun hvalid => hQ (by omega) hvalid, fun hbad => hE (.inr ?_) _⟩,
    fun hzero => hE (.inl ?_) _⟩
  · omega
  · omega

theorem ends_xcalloc {nmenb : Nat} (hQ : nmenb ≠ 0 → size ≠ 0 → 0x1000 < ans.value →
      Q ans.value (mmapped ans (alignUp (nmenb * size % 2 ^ 32) 4) s))
    (hE : nmenb = 0 ∨ size = 0 ∨ ans.value ≤ 0x1000 → ∀ e, E e) :
    Ends (xcalloc ans nmenb size) s Q E := by
  simp only [xcalloc, ends_bind, ends_assertThat, ends_sysMmap, ends_pure, isValidPtr,
    decide_eq_true_eq, decide_eq_false_iff_not]
  refine ⟨fun hnmenb => ⟨fun hsize => ⟨fun hvalid => hQ (by omega) (by omega) hvalid,
    fun hbad => hE (.inr (.inr ?_)) _⟩, fun hzero => hE (.inr (.inl ?_)) _⟩,
    fun hzero => hE (.inl ?_) _⟩
  · omega
  · omega
  · omega

theorem ends_xfree {ptr : Nat} {P : Unit → State → Prop} (hvalid : 0x1000 < ptr)
    (hpage : ptr % 4096 = 0) (hsize : 0 < size) (hfits : pageUp size ≤ 2 ^ 32 - 4096)
    (hP : P () { s with space := replace s.space ptr (pageUp size) fun _ => none }) :
    Ends (xfree ptr size) s P E := by
  have hle := le_pageUp size
  have hpos : 0 < alignUp size 4 := by
    rw [alignUp_four (by omega), if_pos (by omega)]
    omega
  have hpages := (alignUp_four_fits (by omega) hpos).2
  have hargs : ¬ (ptr % 4096 ≠ 0 ∨ alignUp size 4 = 0) := by omega
  simp only [xfree, sysMunmap, ends_bind, ends_assertThat, if_neg hargs, ends_pure, ends_modify,
    isValidPtr, hpages]
  refine ⟨fun _ => ⟨fun _ => hP, fun herr => absurd herr (by decide)⟩, fun hbad => ?_⟩
  exact absurd hvalid (of_decide_eq_false hbad)

/-- What a call does: it stops at an assertion, or returns. -/
theorem ends_call {c : Call} (h : Good s) (hpossible : c.Possible s)
    (hQ : ¬ Stops c → Q (ptrOf c) (next s c)) (hE : Stops c → ∀ e, E e) :
    Ends (call c) s Q E := by
  cases c with
  | malloc size ans =>
      simp only [call, track, ends_bind, ends_modify, ends_pure]
      refine ends_xmalloc ?_ hE
      intro hsize hvalid
      rw [live_mmapped]
      exact hQ (not_or.mpr ⟨hsize, by omega⟩)
  | calloc nmenb size ans =>
      simp only [call, track, ends_bind, ends_modify, ends_pure]
      refine ends_xcalloc ?_ hE
      intro hnmenb hsize hvalid
      rw [live_mmapped]
      exact hQ (not_or.mpr ⟨hnmenb, not_or.mpr ⟨hsize, by omega⟩⟩)
  | realloc oldPtr oldSize size ans =>
      simp only [call, track, untrack, xrealloc, ends_bind, ends_modify, ends_pure, if_true]
      refine ends_xmalloc ?_ hE
      intro hsize hvalid
      rw [live_mmapped]
      exact hQ (not_or.mpr ⟨hsize, by omega⟩)
  | free ptr size =>
      obtain ⟨hvalid, hpage⟩ : 0x1000 < ptr ∧ ptr % 4096 = 0 := h.valid _ hpossible
      have hpos : 0 < size := h.pos _ hpossible
      have hfits : ptr + pageUp size ≤ 2 ^ 32 - 4096 := h.fits _ hpossible
      simp only [call, untrack, ends_bind, ends_modify, ends_pure]
      exact ends_xfree hvalid hpage hpos (by omega) (hQ id)

theorem call_eq {c : Call} (h : Good s) (hpossible : c.Possible s) (hstops : ¬ Stops c) :
    call c s = .ok (ptrOf c) (next s c) := by
  have hends : Ends (call c) s (fun p t => p = ptrOf c ∧ t = next s c) fun _ => False :=
    ends_call h hpossible (fun _ => ⟨rfl, rfl⟩) fun hs => absurd hs hstops
  obtain ⟨p, t, hrun, rfl, rfl⟩ := hends.returns
  exact hrun

theorem call_stops {c : Call} (h : Good s) (hpossible : c.Possible s) (hstops : Stops c) :
    ∃ e t, call c s = .error e t := by
  have hends : Ends (call c) s (fun _ _ => False) fun _ => True :=
    ends_call h hpossible (fun hs => hs hstops) fun _ _ => trivial
  obtain ⟨e, t, hrun, _⟩ := hends.stops
  exact ⟨e, t, hrun⟩

/-! ## One call -/

/-- A block of the live list cannot be where the kernel has found room. -/
theorem addr_ne_of_live {a length p n : Nat} (h : Good s)
    (hpossible : (Answer.addr a).Possible s length) (hlive : (p, n) ∈ s.live) : a ≠ p := by
  rintro rfl
  have hn0 : 0 < pageUp n := Nat.lt_of_lt_of_le (h.pos _ hlive) (le_pageUp _)
  have hlen0 : 0 < pageUp length := Nat.lt_of_lt_of_le hpossible.1 (le_pageUp _)
  exact h.mapped _ hlive 0 hn0 (hpossible.2.2.2.2 0 hlen0)

/-- A block that was allocated is what was asked for, just in case the kernel had room. -/
theorem isBlock_iff {t : State} {length n : Nat} (hpossible : ans.Possible s length)
    (hn : n ≤ length ∨ ¬ IsAddr ans) (ht : t.space = (mmapped ans length s).space) :
    IsBlock t ans.value n ↔ IsAddr ans := by
  cases ans with
  | addr a =>
      refine ⟨fun _ => trivial, fun haddr => isBlock_of_addr hpossible ?_ ht⟩
      exact hn.resolve_right (not_not.mpr haddr)
  | errno e => exact ⟨fun hblock => absurd hblock (not_isBlock_of_errno hpossible), False.elim⟩

theorem length_pos_of_addr {length : Nat} (hpossible : ans.Possible s length) (haddr : IsAddr ans) :
    0 < length := by
  cases ans with
  | addr a => exact hpossible.1
  | errno e => exact haddr.elim

theorem isBlock_alignUp {t : State} {n : Nat} (hn : n < 2 ^ 32)
    (hpossible : ans.Possible s (alignUp n 4))
    (ht : t.space = (mmapped ans (alignUp n 4) s).space) :
    IsBlock t ans.value n ↔ IsAddr ans := by
  refine isBlock_iff hpossible ?_ ht
  by_cases haddr : IsAddr ans
  · exact .inl (alignUp_four_fits hn (length_pos_of_addr hpossible haddr)).1
  · exact .inr haddr

/-- No block is as large as the address space. -/
theorem not_isBlock_of_large {t : State} {length n : Nat} (h : Good s)
    (hpossible : ans.Possible s length) (hn : 2 ^ 32 ≤ n)
    (ht : t.space = (mmapped ans length s).space) : ¬ IsBlock t ans.value n := by
  cases ans with
  | errno e => exact not_isBlock_of_errno hpossible
  | addr a =>
      rintro ⟨_, hmapped⟩
      have hpos : a ≠ 0 := hpossible.2.1
      have hnone := below_mmapped h hpossible (a + (2 ^ 32 - 1)) (by omega)
      rw [← ht] at hnone
      exact hmapped (2 ^ 32 - 1) (by omega) hnone

/-- The old block is still there when `xrealloc` returns, and the new one is elsewhere. -/
theorem not_lawful_realloc {oldPtr oldSize : Nat} (h : Good s)
    (hlive : (oldPtr, oldSize) ∈ s.live) (hsize : size ≠ 0)
    (hpossible : ans.Possible s (alignUp size 4)) :
    ¬ Lawful s ans.value (next s (.realloc oldPtr oldSize size ans))
      (.realloc oldPtr oldSize size ans) := by
  have hold : 0x1000 < oldPtr := (h.valid _ hlive).1
  rw [Lawful, if_neg (by omega), if_neg hsize]
  rintro ⟨hblock, _, hfreed⟩
  cases ans with
  | errno e => exact not_isBlock_of_errno hpossible hblock
  | addr a =>
      have hn0 : 0 < oldSize := h.pos _ hlive
      have hnone : (mmapped (.addr a) (alignUp size 4) s).space (oldPtr + 0) = none :=
        hfreed (addr_ne_of_live h hpossible hlive) 0 hn0
      have hmapped : s.space (oldPtr + 0) ≠ none :=
        h.mapped _ hlive 0 (Nat.lt_of_lt_of_le hn0 (le_pageUp _))
      exact mmapped_ne_none hmapped hnone

theorem lawful_iff {c : Call} (h : Good s) (hpossible : c.Possible s) (hstops : ¬ Stops c) :
    Lawful s (ptrOf c) (next s c) c ↔ Sound c := by
  cases c with
  | malloc size ans =>
      obtain ⟨hsize, _⟩ := not_or.mp hstops
      exact isBlock_alignUp hpossible.1 (hpossible.2 (Nat.pos_of_ne_zero hsize)) rfl
  | calloc nmenb size ans =>
      obtain ⟨hnmenb, hrest⟩ := not_or.mp hstops
      obtain ⟨hsize, _⟩ := not_or.mp hrest
      have hans := hpossible.2.2 (Nat.pos_of_ne_zero hnmenb) (Nat.pos_of_ne_zero hsize)
      by_cases hfits : nmenb * size < 2 ^ 32
      · rw [Nat.mod_eq_of_lt hfits] at hans
        have hiff : IsBlock (next s (.calloc nmenb size ans)) ans.value (nmenb * size) ↔
            IsAddr ans := by
          refine isBlock_alignUp hfits hans ?_
          rw [next, Nat.mod_eq_of_lt hfits]
        exact hiff.trans ⟨fun haddr => ⟨haddr, hfits⟩, And.left⟩
      · refine ⟨fun hblock => absurd hblock ?_, fun hsound => absurd hsound.2 hfits⟩
        exact not_isBlock_of_large h hans (Nat.le_of_not_lt hfits) rfl
  | realloc oldPtr oldSize size ans =>
      obtain ⟨hsize, _⟩ := not_or.mp hstops
      obtain ⟨hlt, hold, hans⟩ := hpossible
      have hans := hans (Nat.pos_of_ne_zero hsize)
      by_cases hnull : oldPtr = 0
      · rw [Lawful, if_pos hnull]
        exact (isBlock_alignUp hlt hans rfl).trans ⟨fun haddr => ⟨haddr, hnull⟩, And.left⟩
      · refine ⟨fun hlaw => absurd hlaw ?_, fun hsound => absurd hsound.2 hnull⟩
        exact not_lawful_realloc h (hold.resolve_left hnull) hsize hans
  | free ptr size =>
      refine ⟨fun _ => trivial, fun _ i hi => ?_⟩
      change replace s.space ptr (pageUp size) (fun _ => none) (ptr + i) = none
      exact replace_inside (Nat.lt_of_lt_of_le hi (le_pageUp size))

theorem obeys_iff {c : Call} (h : Good s) (hpossible : c.Possible s) : Obeys c s ↔ Kept c := by
  by_cases hstops : Stops c
  · obtain ⟨e, t, hrun⟩ := call_stops h hpossible hstops
    rw [Obeys, Ends, hrun, Kept, if_pos hstops]
  · rw [Obeys, Ends, call_eq h hpossible hstops, Kept, if_neg hstops]
    exact lawful_iff h hpossible hstops

theorem good_handOut {n : Nat} (h : Good s) (hlt : n < 2 ^ 32) (hn : n ≠ 0)
    (hpossible : ans.Possible s (alignUp n 4)) (haddr : IsAddr ans) (hvalid : 0x1000 < ans.value) :
    Good { mmapped ans (alignUp n 4) s with live := (ans.value, n) :: s.live } := by
  have hpages := (alignUp_four_fits hlt (length_pos_of_addr hpossible haddr)).2
  cases ans with
  | addr a => exact h.handOut hpossible hvalid (Nat.pos_of_ne_zero hn) hpages
  | errno e => exact haddr.elim

/-- A call that keeps the law and returns leaves a state to go on from. -/
theorem good_next {c : Call} (h : Good s) (hpossible : c.Possible s) (hstops : ¬ Stops c)
    (hsound : Sound c) : Good (next s c) := by
  cases c with
  | malloc size ans =>
      obtain ⟨hsize, hvalid⟩ := not_or.mp hstops
      exact good_handOut h hpossible.1 hsize (hpossible.2 (Nat.pos_of_ne_zero hsize)) hsound
        (Nat.lt_of_not_le hvalid)
  | calloc nmenb size ans =>
      obtain ⟨hnmenb, hrest⟩ := not_or.mp hstops
      obtain ⟨hsize, hvalid⟩ := not_or.mp hrest
      have hans := hpossible.2.2 (Nat.pos_of_ne_zero hnmenb) (Nat.pos_of_ne_zero hsize)
      rw [Nat.mod_eq_of_lt hsound.2] at hans
      rw [next, Nat.mod_eq_of_lt hsound.2]
      exact good_handOut h hsound.2 (Nat.mul_ne_zero hnmenb hsize) hans hsound.1
        (Nat.lt_of_not_le hvalid)
  | realloc oldPtr oldSize size ans =>
      obtain ⟨hsize, hvalid⟩ := not_or.mp hstops
      have hnot : (oldPtr, oldSize) ∉ s.live := by
        intro hlive
        have hold : 0x1000 < oldPtr := (h.valid _ hlive).1
        have hnull := hsound.2
        omega
      rw [next, List.erase_of_not_mem hnot]
      exact good_handOut h hpossible.1 hsize (hpossible.2.2 (Nat.pos_of_ne_zero hsize)) hsound.1
        (Nat.lt_of_not_le hvalid)
  | free ptr size => exact h.giveBack hpossible

end Calls

/-! ## Whole runs -/

/-- The law holds along a run just in case each call that is executed keeps it. -/
theorem law_iff_kept {cs : List Call} {s : State} (h : Good s) (hpossible : Possible cs s) :
    Law cs s ↔ ∀ c ∈ executed cs, Kept c := by
  induction cs generalizing s with
  | nil => simp [Law, executed]
  | cons c cs ih =>
      obtain ⟨hfirst, hrest⟩ := hpossible
      rw [Law, executed, List.forall_mem_cons, obeys_iff h hfirst]
      refine and_congr_right fun hkept => ?_
      by_cases hstops : Stops c
      · obtain ⟨e, t, hrun⟩ := call_stops h hfirst hstops
        simp [hrun, hstops]
      · have hrun := call_eq h hfirst hstops
        rw [Kept, if_neg hstops] at hkept
        rw [if_neg hstops, ← ih (good_next h hfirst hstops hkept) (hrest _ _ hrun), hrun]
        constructor
        · intro hlaw
          exact hlaw _ _ rfl
        · rintro hlaw p t ⟨⟩
          exact hlaw

theorem good_nil {space : Space} (hbelow : ∀ x, 2 ^ 32 ≤ x → space x = none) :
    Good ⟨space, []⟩ := by
  refine ⟨hbelow, ?_, ?_, ?_, ?_, List.Pairwise.nil⟩
  all_goals exact fun b hb => absurd hb List.not_mem_nil

/-- The law along every run that begins with no block handed out. -/
theorem xmalloc_family_law {cs : List Call} {space : Space}
    (hbelow : ∀ x, 2 ^ 32 ≤ x → space x = none) (hpossible : Possible cs ⟨space, []⟩) :
    Law cs ⟨space, []⟩ ↔ ∀ c ∈ executed cs, Kept c :=
  law_iff_kept (good_nil hbelow) hpossible

theorem possible_cons {c : Call} {cs : List Call} {s : State} (h : Good s)
    (hfirst : c.Possible s) (hstops : ¬ Stops c) (hrest : Possible cs (next s c)) :
    Possible (c :: cs) s := by
  refine ⟨hfirst, ?_⟩
  intro p t hrun
  rw [call_eq h hfirst hstops] at hrun
  cases hrun
  exact hrest

/-! Runs in an empty address space. -/

def emptySpace : Space := fun _ => none

theorem good_emptySpace : Good ⟨emptySpace, []⟩ := good_nil fun _ _ => rfl

def eightBytes : Call := .malloc 8 (.addr 0x10000)

theorem possible_eightBytes : eightBytes.Possible ⟨emptySpace, []⟩ :=
  ⟨by decide, fun _ => ⟨by decide, by decide, by decide, by decide, fun _ _ => rfl⟩⟩

theorem stops_eightBytes : ¬ Stops eightBytes := by decide

theorem possible_free : Possible [eightBytes, .free 0x10000 8] ⟨emptySpace, []⟩ := by
  refine possible_cons good_emptySpace possible_eightBytes stops_eightBytes ⟨?_, ?_⟩
  · exact List.mem_cons_self
  · exact fun _ _ _ => trivial

theorem xmalloc_family_law_free : Law [eightBytes, .free 0x10000 8] ⟨emptySpace, []⟩ := by
  have hexecuted : executed [eightBytes, .free 0x10000 8] = [eightBytes, .free 0x10000 8] := by
    decide
  rw [xmalloc_family_law good_emptySpace.below possible_free, hexecuted]
  refine List.forall_mem_cons.mpr ⟨?_, List.forall_mem_singleton.mpr ?_⟩
  · rw [Kept, if_neg stops_eightBytes]
    trivial
  · rw [Kept, if_neg (by decide)]
    trivial

theorem possible_realloc :
    Possible [eightBytes, .realloc 0x10000 8 16 (.addr 0x20000)] ⟨emptySpace, []⟩ := by
  refine possible_cons good_emptySpace possible_eightBytes stops_eightBytes ⟨?_, ?_⟩
  · refine ⟨by decide, .inr List.mem_cons_self, fun _ => ?_⟩
    refine ⟨by decide, by decide, by decide, by decide, ?_⟩
    intro i _
    change replace emptySpace 0x10000 (pageUp (alignUp 8 4)) (fun _ => zeroCell) (0x20000 + i) = none
    rw [replace_outside]
    · rfl
    · have hpages : pageUp (alignUp 8 4) = 4096 := by decide
      omega
  · exact fun _ _ _ => trivial

/-- A live block is resized: the old one stays, with its bytes.  And without memory the
error number is the pointer. -/
theorem xrealloc_keeps_old_block :
    (Possible [eightBytes, .realloc 0x10000 8 16 (.addr 0x20000)] ⟨emptySpace, []⟩ ∧
      ¬ Law [eightBytes, .realloc 0x10000 8 16 (.addr 0x20000)] ⟨emptySpace, []⟩) ∧
    (Possible [.malloc 8 (.errno 12)] ⟨emptySpace, []⟩ ∧
      ¬ Law [.malloc 8 (.errno 12)] ⟨emptySpace, []⟩) := by
  have hpossible : Possible [.malloc 8 (.errno 12)] ⟨emptySpace, []⟩ :=
    ⟨⟨by decide, fun _ => ⟨by decide, by decide⟩⟩, fun _ _ _ => trivial⟩
  refine ⟨⟨possible_realloc, ?_⟩, hpossible, ?_⟩
  · rw [law_iff_kept good_emptySpace possible_realloc]
    intro hkept
    have hlast := hkept (.realloc 0x10000 8 16 (.addr 0x20000)) (by decide)
    rw [Kept, if_neg (by decide)] at hlast
    exact absurd hlast.2 (by decide)
  · rw [law_iff_kept good_emptySpace hpossible]
    intro hkept
    have hlast := hkept (.malloc 8 (.errno 12)) (by decide)
    rw [Kept, if_neg (by decide)] at hlast
    exact hlast

end Snitchaser.Xmalloc.Runs
