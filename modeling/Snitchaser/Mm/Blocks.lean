import Mathlib.Data.List.Count
import Mathlib.Data.List.Nodup
import Snitchaser.Mm.Buckets
/-!
# The blocks of the allocator over whole runs

In every bucket the returned blocks lie one behind the other from the header up to
`cur_ptr`.  From that follow where they are, that they do not meet, and what is left.
-/

namespace Snitchaser.Mm.Blocks

open Snitchaser.Defs
open Snitchaser.Lib.Carving
open Snitchaser.Lib.Hoare
open Snitchaser.Lib.Program
open Snitchaser.Lib.Transition
open Snitchaser.Mm.Buckets
open Snitchaser.Mm.Model
open Snitchaser.Pages

def inBucket (buk : Nat) (b : Block) : Bool :=
  decide (buk ≤ b.start ∧ b.start < buk + objBucketSize)

/-- The buckets below their `cur_ptr` are cut into the returned blocks. -/
structure Tiled (s : State) (blocks : List Block) : Prop where
  carved : ∀ buk ∈ s.bukList, Carved (buk + sizeofObjBukHead) (s.head buk).curPtr
    (blocks.filter (inBucket buk))
  inside : ∀ b ∈ blocks, ∃ buk ∈ s.bukList, inBucket buk b = true
  apart : blocks.Pairwise Block.Apart

section Steps

variable {s : State} {blocks : List Block} {buk size m : Nat}

theorem not_inBucket {a b : Nat} {x : Block} (hsep : Separate a b) (hin : inBucket a x = true) :
    inBucket b x = false := by
  have hin := of_decide_eq_true hin
  apply decide_eq_false
  unfold Separate at hsep
  omega

theorem Tiled.grow (h : Tiled s blocks) (hword : m + objBucketSize ≤ 2 ^ 32)
    (hfresh : ∀ buk ∈ s.bukList, Separate m buk) : Tiled (grow m s) blocks where
  carved := by
    intro buk hbuk
    rcases List.mem_cons.mp hbuk with rfl | hbuk
    · have hnone : blocks.filter (inBucket buk) = [] := by
        rw [List.filter_eq_nil_iff]
        intro b hb
        obtain ⟨a, ha, hin⟩ := h.inside b hb
        rw [not_inBucket (hfresh a ha).symm hin]
        exact Bool.false_ne_true
      rw [hnone, grow_head_self, newHead_curPtr hword]
      exact Carved.nil
    · rw [grow_head_of_ne (hfresh buk hbuk).ne.symm]
      exact h.carved buk hbuk
  inside := by
    intro b hb
    obtain ⟨buk, hbuk, hin⟩ := h.inside b hb
    exact ⟨buk, List.mem_cons_of_mem _ hbuk, hin⟩
  apart := h.apart

theorem inBucket_curPtr (hok : BucketOk buk (s.head buk)) (hroom : 0 < (s.head buk).avalSize)
    (size : Nat) : inBucket buk ⟨(s.head buk).curPtr, size⟩ = true := by
  have hstart := hok.start
  have hend := hok.end_
  have hsum := hok.room
  apply decide_eq_true
  change buk ≤ (s.head buk).curPtr ∧ (s.head buk).curPtr < buk + objBucketSize
  omega

/-- The block a bucket gives next meets none that was given before. -/
theorem Tiled.apart_next (h : Tiled s blocks) (hs : BucketsOk s) (hbuk : buk ∈ s.bukList)
    (hsize : size ≤ (s.head buk).avalSize) (b : Block) (hb : b ∈ blocks) :
    Block.Apart ⟨(s.head buk).curPtr, size⟩ b := by
  obtain ⟨a, ha, hin⟩ := h.inside b hb
  have hinside := (h.carved a ha).inside b (List.mem_filter.mpr ⟨hb, hin⟩)
  have hroom := (hs.ok buk hbuk).room
  have hend := (hs.ok buk hbuk).end_
  have hstart := (hs.ok buk hbuk).start
  have hroomA := (hs.ok a ha).room
  have hendA := (hs.ok a ha).end_
  by_cases hne : a = buk
  · subst hne
    exact Or.inr hinside.2
  · rcases hs.separate.forall ha hbuk hne with hsep | hsep
    · refine Or.inr (hinside.2.trans ?_)
      change (s.head a).curPtr ≤ (s.head buk).curPtr
      omega
    · refine Or.inl (le_trans ?_ hinside.1)
      change (s.head buk).curPtr + size ≤ _
      omega

theorem Tiled.cut (h : Tiled s blocks) (hs : BucketsOk s) (hbuk : buk ∈ s.bukList)
    (hsize : size ≤ (s.head buk).avalSize) (hroom : 0 < (s.head buk).avalSize) :
    Tiled (cut buk size s) (⟨(s.head buk).curPtr, size⟩ :: blocks) where
  carved := by
    intro a ha
    have hin := inBucket_curPtr (hs.ok buk hbuk) hroom size
    by_cases hne : a = buk
    · subst hne
      rw [List.filter_cons_of_pos hin, cut_head_self]
      exact (h.carved a ha).cons size
    · have hnot := not_inBucket (hs.separate.forall hbuk ha (Ne.symm hne)) hin
      rw [List.filter_cons_of_neg (by rw [hnot]; exact Bool.false_ne_true), cut_head_of_ne hne]
      exact h.carved a ha
  inside := by
    rw [List.forall_mem_cons]
    exact ⟨⟨buk, hbuk, inBucket_curPtr (hs.ok buk hbuk) hroom size⟩, h.inside⟩
  apart := List.pairwise_cons.mpr ⟨h.apart_next hs hbuk hsize, h.apart⟩

end Steps

/-! ## Runs -/

/-- The kernel calls so far: one `mmap` for each bucket on the list. -/
def Mapped (s : State) : Prop :=
  s.sys = (s.bukList.map fun buk => SysCall.mmap buk objBucketSize).reverse

structure Good (r : Run) : Prop extends Sound r.st, Tiled r.st r.blocks where
  mapped : Mapped r.st

theorem Good.cut {s : State} {blocks : List Block} {buk size cur : Nat} (hs : BucketsOk s)
    (ht : Tiled s blocks) (hmapped : Mapped s) (hbuk : buk ∈ s.bukList) (hcur : cur ∈ s.bukList)
    (hroom : size < (s.head buk).avalSize) :
    Good ⟨{ cut buk size s with curBuk := cur }, ⟨(s.head buk).curPtr, size⟩ :: blocks⟩ := by
  have hok := hs.cut hbuk hroom.le
  have htiled := ht.cut hs hbuk hroom.le (Nat.zero_lt_of_lt hroom)
  constructor
  · exact ⟨⟨hok.ok, hok.separate⟩, Or.inr hcur⟩
  · exact ⟨htiled.carved, htiled.inside, htiled.apart⟩
  · exact hmapped

theorem mapped_grow {s : State} {m : Nat} (h : Mapped s) : Mapped (grow m s) := by
  unfold Mapped grow
  rw [List.map_cons, List.reverse_cons, h]

/-- One call: it does not dereference a NULL pointer, and if it returns, and has mapped
only fresh ranges, the state is good again. -/
theorem ends_allocObj_good {r : Run} (h : Good r) (k : Kernel) (size : Nat) :
    Ends (allocObj k size) r.st
      (fun p t => (∀ m, t.sys = r.st.sys ++ [.mmap m objBucketSize] → Fresh r.st m) →
        Good ⟨t, ⟨p, size⟩ :: r.blocks⟩)
      (fun e => e ≠ .fault) := by
  by_cases hsize : 0 < size ∧ size < maxAvalObjSize
  · refine ends_allocObj h.toSound hsize.1 hsize.2 (fun _ => Stop.noConfusion) ?_ ?_
    · intro _ buk hbuk cur hcur hroom _
      exact Good.cut h.toBucketsOk h.toTiled h.mapped hbuk hcur hroom
    · intro _ max hmax
      generalize hm : k.mmap objBucketSize (pagesProt r.st.executable) = m
      by_cases hword : m + objBucketSize ≤ 2 ^ 32
      · refine ends_allocFromNew hm hword hsize.2 hmax ?_ fun _ _ => Stop.noConfusion
        intro hgiven cur hcur hfresh
        have hsep := (hfresh m rfl).apart
        have hhead : (grow m r.st).head m = newHead m := grow_head_self
        have hroom : size < ((grow m r.st).head m).avalSize := by
          rw [hhead, newHead_avalSize]
          exact hsize.2
        have hgood := Good.cut (h.toBucketsOk.grow hgiven hsep) (h.toTiled.grow hword hsep)
          (mapped_grow h.mapped) List.mem_cons_self hcur hroom
        rwa [hhead, newHead_curPtr hword] at hgood
      · refine (ends_allocFromNew_sys hm).post fun _ t ht hfresh => ?_
        exact absurd (hfresh m ht).word hword
  · exact ends_allocObj_refused hsize

theorem good_of_reachable {r : Run} (h : system.Reachable r) : Good r := by
  refine h.invariant ?_ ?_
  · rintro ⟨t, blocks⟩ ⟨executable, s, hsys, hinit, rfl⟩
    simp only [initMmObj, modify_ok_iff] at hinit
    subst hinit
    exact ⟨⟨⟨by simp, List.Pairwise.nil⟩, Or.inl ⟨rfl, rfl⟩⟩, ⟨by simp, by simp, .nil⟩, hsys⟩
  · intro r r' _ hgood hstep
    cases hstep with
    | alloc k size p t hfresh hrun => exact (ends_allocObj_good hgood k size).of_ok hrun hfresh

/-! ## New buckets and the end -/

/-- Only a call that finds no bucket with more room than asked for maps one. -/
theorem mapped_of_needsBucket {s t : State} {k : Kernel} {size p : Nat} (hs : Sound s)
    (hrun : allocObj k size s = .ok p t) (hsys : t.sys ≠ s.sys) : NeedsBucket s size := by
  have hends : Ends (allocObj k size) s (fun _ t => t.sys ≠ s.sys → NeedsBucket s size)
      (fun _ => True) := by
    by_cases hsize : 0 < size ∧ size < maxAvalObjSize
    · refine ends_allocObj hs hsize.1 hsize.2 (fun _ => trivial) ?_ ?_
      · intro _ buk _ cur _ _ hsys
        exact absurd rfl hsys
      · intro hneeds max _
        exact (ends_allocFromNew_sys rfl).mono (fun _ _ _ _ => hneeds) fun _ _ => trivial
    · exact (ends_allocObj_refused hsize).mono (fun _ _ => id) fun _ _ => trivial
  exact hends.of_ok hrun hsys

theorem ends_freeObjBuk {s : State} {k : Kernel} {buk : Nat} {E : Stop → Prop}
    {Q : Unit → State → Prop} (hok : BucketOk buk (s.head buk))
    (hunmap : k.munmap buk objBucketSize = 0)
    (hQ : Q () (record (.munmap buk objBucketSize) s)) : Ends (freeObjBuk k buk) s Q E := by
  simp only [freeObjBuk, headOf, if_neg hok.nonzero, xdeallocPages, sysMunmap, ends_bind,
    ends_assertThat, ends_get, ends_pure, ends_modify, ends_ite, hok.addr, hok.page,
    alignUp_objBucketSize, hunmap]
  have hnonzero := decide_eq_true hok.nonzero
  simp [hnonzero, hQ]

/-- `clean_mm_obj` unmaps the buckets of the list in their order. -/
theorem ends_cleanMmObj {s : State} {k : Kernel} (hs : Sound s)
    (hunmap : ∀ buk ∈ s.bukList, k.munmap buk objBucketSize = 0) :
    Ends (cleanMmObj k) s
      (fun _ t => t.sys = s.sys ++ s.bukList.map fun buk => .munmap buk objBucketSize)
      (fun _ => False) := by
  let I : List Nat → State → Prop := fun done t =>
    t.head = s.head ∧ t.sys = s.sys ++ done.map fun buk => .munmap buk objBucketSize
  have hloop : Ends (forM s.bukList fun buk => do
      modify fun s => { s with bukList := s.bukList.erase buk }
      freeObjBuk k buk) s (fun _ t => I s.bukList t) (fun _ => False) := by
    refine ends_forM ?_ ⟨rfl, (List.append_nil _).symm⟩
    intro done buk rest t hlist ht
    have hbuk : buk ∈ s.bukList := by simp [hlist]
    rw [ends_bind, ends_modify]
    apply ends_freeObjBuk _ (hunmap buk hbuk)
    · refine ⟨ht.1, ?_⟩
      change t.sys ++ [SysCall.munmap buk objBucketSize] = _
      rw [ht.2, List.map_append, List.append_assoc]
      rfl
    · rw [ht.1]
      exact hs.ok buk hbuk
  simp only [cleanMmObj, ends_bind, ends_get, ends_modify]
  exact hloop.post fun _ t ht => ht.2

theorem count_map_call {f : Nat → Nat → SysCall}
    (hf : ∀ a b m n, f a m = f b n → a = b ∧ m = n) (l : List Nat) (addr len : Nat) :
    (l.map fun buk => f buk objBucketSize).count (f addr len) =
      if len = objBucketSize then l.count addr else 0 := by
  split_ifs with hlen
  · subst hlen
    exact List.count_map_of_injective l _ (fun a b hab => (hf a b _ _ hab).1) addr
  · rw [List.count_eq_zero, List.mem_map]
    rintro ⟨buk, _, heq⟩
    exact hlen (hf _ _ _ _ heq).2.symm

/-- Each bucket is mapped once and unmapped once. -/
theorem count_unmapped {s t : State} (hs : Sound s) (hmapped : Mapped s)
    (hsys : t.sys = s.sys ++ s.bukList.map fun buk => .munmap buk objBucketSize)
    (addr len : Nat) :
    t.sys.count (.munmap addr len) = t.sys.count (.mmap addr len) ∧
      t.sys.count (.mmap addr len) ≤ 1 := by
  have hmaps := count_map_call (f := .mmap) (fun a b m n h => by simpa using h) s.bukList addr len
  have hunmaps := count_map_call (f := .munmap) (fun a b m n h => by simpa using h) s.bukList addr
    len
  have hnone : (s.bukList.map fun buk => SysCall.mmap buk objBucketSize).count
      (.munmap addr len) = 0 := by
    simp [List.count_eq_zero]
  have hnone' : (s.bukList.map fun buk => SysCall.munmap buk objBucketSize).count
      (.mmap addr len) = 0 := by
    simp [List.count_eq_zero]
  rw [hsys, hmapped, List.count_append, List.count_append, List.count_reverse, List.count_reverse,
    hmaps, hunmaps, hnone, hnone', Nat.zero_add, Nat.add_zero]
  refine ⟨rfl, ?_⟩
  have hnodup : s.bukList.Nodup := hs.separate.imp Separate.ne
  split_ifs
  · exact List.nodup_iff_count_le_one.mp hnodup addr
  · exact Nat.zero_le 1

/-! ## The invariant -/

structure Consistent (r : Run) : Prop where
  room : ∀ buk ∈ r.st.bukList,
    (r.st.head buk).curPtr + (r.st.head buk).avalSize = (r.st.head buk).bukEnd
  cur_null : r.st.curBuk = 0 ↔ r.st.bukList = []
  cur_mem : r.st.bukList ≠ [] → r.st.curBuk ∈ r.st.bukList
  inside : ∀ b ∈ r.blocks, ∃ buk ∈ r.st.bukList,
    buk + sizeofObjBukHead ≤ b.start ∧ b.start + b.size ≤ buk + objBucketSize
  disjoint : r.blocks.Pairwise Block.Apart
  sizes : ∀ buk ∈ r.st.bukList,
    ((r.blocks.filter (inBucket buk)).map Block.size).sum + (r.st.head buk).avalSize =
      (r.st.head buk).totalSize

theorem Good.consistent {r : Run} (h : Good r) : Consistent r where
  room buk hbuk := (h.ok buk hbuk).room
  cur_null := by
    rcases h.cur with ⟨hnull, hempty⟩ | hmem
    · exact iff_of_true hnull hempty
    · exact iff_of_false (h.ok _ hmem).nonzero (List.ne_nil_of_mem hmem)
  cur_mem hne := h.cur.resolve_left fun hnone => hne hnone.2
  inside := by
    intro b hb
    obtain ⟨buk, hbuk, hin⟩ := h.inside b hb
    have hinside := (h.carved buk hbuk).inside b (List.mem_filter.mpr ⟨hb, hin⟩)
    have hroom := (h.ok buk hbuk).room
    have hend := (h.ok buk hbuk).end_
    exact ⟨buk, hbuk, hinside.1, by omega⟩
  disjoint := h.apart
  sizes := by
    intro buk hbuk
    have hsum := (h.carved buk hbuk).sum_size
    have hroom := (h.ok buk hbuk).room
    have hend := (h.ok buk hbuk).end_
    have hsize := objBucketSize_eq
    have hhead : sizeofObjBukHead = 28 := rfl
    rw [(h.ok buk hbuk).total, maxAvalObjSize_eq]
    omega

/-- In every state of a run the allocator is consistent; the next call dereferences no
NULL pointer and maps a bucket only if none has more room than asked for; and
`clean_mm_obj` unmaps exactly what was mapped. -/
theorem bucket_allocator_invariant {r : Run} (h : system.Reachable r) :
    Consistent r ∧
    (∀ k size e t, allocObj k size r.st = .error e t → e ≠ .fault) ∧
    (∀ k size p t, allocObj k size r.st = .ok p t → t.sys ≠ r.st.sys →
      ∀ buk ∈ r.st.bukList, ¬ size < (r.st.head buk).avalSize) ∧
    (∀ k, (∀ buk ∈ r.st.bukList, k.munmap buk objBucketSize = 0) →
      ∃ t, cleanMmObj k r.st = .ok () t ∧ ∀ addr len,
        t.sys.count (.munmap addr len) = t.sys.count (.mmap addr len) ∧
          t.sys.count (.mmap addr len) ≤ 1) := by
  have hgood := good_of_reachable h
  refine ⟨hgood.consistent, ?_, ?_, ?_⟩
  · intro k size e t hrun
    have hends := ends_allocObj_good hgood k size
    rwa [Ends, hrun] at hends
  · intro k size p t hrun hsys buk hbuk
    exact not_lt.mpr ((mapped_of_needsBucket hgood.toSound hrun hsys).2 buk hbuk)
  · intro k hunmap
    obtain ⟨_, t, hrun, hsys⟩ := (ends_cleanMmObj hgood.toSound hunmap).returns
    exact ⟨t, hrun, count_unmapped hgood.toSound hgood.mapped hsys⟩

/-! A run with two buckets: the second block does not fit behind the first. -/

/-- A kernel that maps every bucket at `m`. -/
def kernelAt (m : Nat) : Kernel where
  mmap _ _ := m
  munmap _ _ := 0

def freshState : State where
  bukList := []
  curBuk := 0
  executable := false
  head _ := ⟨0, 0, 0, 0, 0⟩
  sys := []

def firstAlloc : State := after (allocObj (kernelAt 0x40000000) 16) freshState

def secondAlloc : State := after (allocObj (kernelAt 0x50000000) 33554400) firstAlloc

theorem firstAlloc_ok :
    allocObj (kernelAt 0x40000000) 16 freshState = .ok 0x4000001C firstAlloc := by
  rfl

theorem secondAlloc_ok :
    allocObj (kernelAt 0x50000000) 33554400 firstAlloc = .ok 0x5000001C secondAlloc := by
  rfl

def twoBlocks : Run := ⟨secondAlloc, [⟨0x5000001C, 33554400⟩, ⟨0x4000001C, 16⟩]⟩

theorem fresh_of_sys {s t : State} {m : Nat} (hsys : t.sys = s.sys ++ [.mmap m objBucketSize])
    (hfresh : Fresh s m) (a : Nat) (ha : t.sys = s.sys ++ [.mmap a objBucketSize]) :
    Fresh s a := by
  have heq := List.append_cancel_left (ha.symm.trans hsys)
  simp only [List.cons.injEq, SysCall.mmap.injEq, and_true] at heq
  exact heq ▸ hfresh

theorem reachable_twoBlocks : system.Reachable twoBlocks := by
  have hstart : system.Reachable ⟨freshState, []⟩ :=
    .start ⟨false, freshState, rfl, rfl, rfl⟩
  have hfirst := hstart.next (.alloc _ _ _ _ _
    (fresh_of_sys (m := 0x40000000) rfl ⟨by decide, by simp [freshState]⟩) firstAlloc_ok)
  refine hfirst.next (.alloc _ _ _ _ _
    (fresh_of_sys (m := 0x50000000) rfl ⟨by decide, ?_⟩) secondAlloc_ok)
  change ∀ buk ∈ [0x40000000], _
  simp [objBucketSize_eq]

theorem bucket_allocator_invariant_two_blocks :
    secondAlloc.bukList = [0x50000000, 0x40000000] ∧ secondAlloc.curBuk = 0x40000000 ∧
      Consistent twoBlocks :=
  ⟨rfl, rfl, (bucket_allocator_invariant reachable_twoBlocks).1⟩

end Snitchaser.Mm.Blocks
