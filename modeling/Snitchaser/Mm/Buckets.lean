import Mathlib.Data.List.Pairwise
import Snitchaser.Mm.Model
/-!
# What one call of the allocator does

A call that returns has perhaps mapped a bucket, has cut one block off a bucket with
more room than asked for, and has chosen the current bucket.  Where it stops is said
as well: the only ways out of the three paths are a current bucket with exactly the
room asked for, and a kernel that gives no bucket.
-/

namespace Snitchaser.Mm.Buckets

open Snitchaser.Defs
open Snitchaser.Lib.Hoare
open Snitchaser.Lib.Program
open Snitchaser.Mm.Model
open Snitchaser.Pages

theorem objBucketSize_eq : objBucketSize = 33554432 := by decide

theorem maxAvalObjSize_eq : maxAvalObjSize = 33554404 := by decide

theorem alignUp_objBucketSize : alignUp objBucketSize pageSize = objBucketSize := by decide

/-! ## Well-formed states -/

/-- The header of a bucket at `buk` that ends below the end of the address space. -/
structure BucketOk (buk : Nat) (h : ObjBukHead) : Prop where
  nonzero : buk ≠ 0
  page : isValidPage buk = true
  below : buk + objBucketSize < 2 ^ 32
  addr : h.bukAddr = buk
  end_ : h.bukEnd = buk + objBucketSize
  start : buk + sizeofObjBukHead ≤ h.curPtr
  room : h.curPtr + h.avalSize = h.bukEnd
  total : h.totalSize = maxAvalObjSize

def Separate (a b : Nat) : Prop := a + objBucketSize ≤ b ∨ b + objBucketSize ≤ a

instance : Std.Symm Separate := ⟨fun _ _ h => h.symm⟩

theorem Separate.ne {a b : Nat} (h : Separate a b) : a ≠ b := by
  have hsize := objBucketSize_eq
  unfold Separate at h
  omega

structure BucketsOk (s : State) : Prop where
  ok : ∀ buk ∈ s.bukList, BucketOk buk (s.head buk)
  separate : s.bukList.Pairwise Separate

/-- The current bucket is on the list, unless there is none. -/
structure Sound (s : State) : Prop extends BucketsOk s where
  cur : (s.curBuk = 0 ∧ s.bukList = []) ∨ s.curBuk ∈ s.bukList

/-! ## The two ways the state changes -/

/-- A block of `size` bytes cut off `buk`. -/
def cut (buk size : Nat) (s : State) : State :=
  setHead buk { s.head buk with
    curPtr := (s.head buk).curPtr + size, avalSize := (s.head buk).avalSize - size } s

/-- A new bucket at `m`, at the head of the list. -/
def grow (m : Nat) (s : State) : State :=
  { s with bukList := m :: s.bukList, head := Function.update s.head m (newHead m),
           sys := s.sys ++ [.mmap m objBucketSize] }

section Changes

variable {s : State} {buk size m : Nat}

theorem cut_head_self : (cut buk size s).head buk = { s.head buk with
    curPtr := (s.head buk).curPtr + size, avalSize := (s.head buk).avalSize - size } :=
  Function.update_self _ _ _

theorem cut_head_of_ne {b : Nat} (h : b ≠ buk) : (cut buk size s).head b = s.head b :=
  Function.update_of_ne h _ _

theorem grow_head_self : (grow m s).head m = newHead m := Function.update_self _ _ _

theorem grow_head_of_ne {b : Nat} (h : b ≠ m) : (grow m s).head b = s.head b :=
  Function.update_of_ne h _ _

end Changes

theorem BucketOk.cut {buk size : Nat} {h : ObjBukHead} (hok : BucketOk buk h)
    (hsize : size ≤ h.avalSize) :
    BucketOk buk { h with curPtr := h.curPtr + size, avalSize := h.avalSize - size } where
  nonzero := hok.nonzero
  page := hok.page
  below := hok.below
  addr := hok.addr
  end_ := hok.end_
  start := hok.start.trans (Nat.le_add_right _ _)
  room := by
    have hroom := hok.room
    change h.curPtr + size + (h.avalSize - size) = h.bukEnd
    omega
  total := hok.total

theorem BucketsOk.cut {s : State} {buk size : Nat} (h : BucketsOk s) (hbuk : buk ∈ s.bukList)
    (hsize : size ≤ (s.head buk).avalSize) : BucketsOk (cut buk size s) where
  ok := by
    intro b hb
    by_cases hne : b = buk
    · subst hne
      rw [cut_head_self]
      exact (h.ok b hb).cut hsize
    · rw [cut_head_of_ne hne]
      exact h.ok b hb
  separate := h.separate

/-- What the kernel has to give for a bucket: pages, not at address 0, not the last of
the address space. -/
structure Given (m : Nat) : Prop where
  nonzero : m ≠ 0
  page : isValidPage m = true
  below : m + objBucketSize < 2 ^ 32

theorem newHead_avalSize (m : Nat) : (newHead m).avalSize = maxAvalObjSize := by
  have hsize := objBucketSize_eq
  have hmax := maxAvalObjSize_eq
  unfold newHead sub32 sizeofObjBukHead
  simp only
  omega

theorem newHead_curPtr {m : Nat} (h : m + objBucketSize ≤ 2 ^ 32) :
    (newHead m).curPtr = m + sizeofObjBukHead := by
  have hsize := objBucketSize_eq
  have hhead : sizeofObjBukHead = 28 := rfl
  exact Nat.mod_eq_of_lt (by omega)

theorem BucketOk.newHead {m : Nat} (h : Given m) : BucketOk m (newHead m) where
  nonzero := h.nonzero
  page := h.page
  below := h.below
  addr := rfl
  end_ := Nat.mod_eq_of_lt h.below
  start := (newHead_curPtr h.below.le).ge
  room := by
    have hsize := objBucketSize_eq
    have hmax := maxAvalObjSize_eq
    have hhead : sizeofObjBukHead = 28 := rfl
    have hend : (Model.newHead m).bukEnd = m + objBucketSize := Nat.mod_eq_of_lt h.below
    rw [newHead_curPtr h.below.le, newHead_avalSize, hend]
    omega
  total := newHead_avalSize m

theorem BucketsOk.grow {s : State} {m : Nat} (h : BucketsOk s) (hgiven : Given m)
    (hfresh : ∀ buk ∈ s.bukList, Separate m buk) : BucketsOk (grow m s) where
  ok := by
    intro buk hbuk
    rcases List.mem_cons.mp hbuk with rfl | hbuk
    · rw [grow_head_self]
      exact BucketOk.newHead hgiven
    · rw [grow_head_of_ne (hfresh buk hbuk).ne.symm]
      exact h.ok buk hbuk
  separate := List.pairwise_cons.mpr ⟨hfresh, h.separate⟩

/-! ## Taking a block from one bucket -/

section Rules

variable {s : State} {k : Kernel} {buk size m : Nat} {Q : Nat → State → Prop} {E : Stop → Prop}

theorem BucketOk.curPtr_ne_zero {h : ObjBukHead} (hok : BucketOk buk h) : h.curPtr ≠ 0 := by
  have hstart := hok.start
  have hhead : sizeofObjBukHead = 28 := rfl
  omega

/-- The test lets an exact fit through, the assertion does not. -/
theorem ends_allocFromBuk (hok : BucketOk buk (s.head buk))
    (hsmall : (s.head buk).avalSize < size → Q 0 s)
    (hfits : size < (s.head buk).avalSize → Q (s.head buk).curPtr (cut buk size s))
    (hexact : (s.head buk).avalSize = size → E (.assertion "buk->cur_ptr < buk->buk_end")) :
    Ends (allocFromBuk buk size) s Q E := by
  have hroom := hok.room
  have hend := hok.end_
  have hbelow := hok.below
  simp only [allocFromBuk, headOf, if_neg hok.nonzero, ends_bind, ends_pure, ends_get, ends_ite,
    ends_modify, ends_assertThat]
  refine ⟨hsmall, fun hnot => ⟨fun hlt => ?_, fun hge => ?_⟩⟩
  · have hlt := of_decide_eq_true hlt
    rw [Nat.mod_eq_of_lt (by omega)] at hlt ⊢
    have hsub : sub32 (s.head buk).avalSize size = (s.head buk).avalSize - size :=
      sub32_of_le (by omega) (by omega)
    have hresult := hfits (by omega)
    rw [hsub]
    simpa [cut, setHead] using hresult
  · have hge := of_decide_eq_false hge
    rw [Nat.mod_eq_of_lt (by omega)] at hge
    exact hexact (by omega)

/-- The end of the last range of the address space is address 0. -/
theorem ends_allocFromBuk_wrapped (hbuk : buk ≠ 0) (hend : (s.head buk).bukEnd = 0)
    (hsize : size ≤ (s.head buk).avalSize)
    (hE : E (.assertion "buk->cur_ptr < buk->buk_end")) :
    Ends (allocFromBuk buk size) s Q E := by
  simp only [allocFromBuk, headOf, if_neg hbuk, ends_bind, ends_pure, ends_get, ends_ite,
    ends_modify, ends_assertThat, hend]
  exact ⟨fun hlt => absurd hsize (not_le.mpr hlt), fun _ => ⟨fun hlt => by simp at hlt, fun _ => hE⟩⟩

/-- Whatever the header of a bucket holds, only headers change. -/
theorem ends_allocFromBuk_sys (hbuk : buk ≠ 0) :
    Ends (allocFromBuk buk size) s (fun _ t => t.sys = s.sys) (fun e => e ≠ .fault) := by
  simp only [allocFromBuk, headOf, if_neg hbuk, ends_bind, ends_pure, ends_get, ends_ite,
    ends_modify, ends_assertThat]
  exact ⟨fun _ => trivial, fun _ => ⟨fun _ => rfl, fun _ => Stop.noConfusion⟩⟩

/-! ## The loop -/

/-- A pair that the loop may hold after the buckets `done`. -/
structure Best (head : Nat → ObjBukHead) (done : List Nat) (best : Nat × Nat) : Prop where
  found : best = (0, 0) ∨ (best.1 ∈ done ∧ (head best.1).avalSize = best.2)
  max : ∀ buk ∈ done, (head buk).avalSize ≤ best.2

theorem Best.step {head : Nat → ObjBukHead} {done : List Nat} {best : Nat × Nat}
    (h : Best head done best) (buk : Nat) :
    Best head (done ++ [buk])
      (if best.2 < (head buk).avalSize then (buk, (head buk).avalSize) else best) := by
  by_cases hlt : best.2 < (head buk).avalSize
  · rw [if_pos hlt]
    refine ⟨Or.inr ⟨by simp, rfl⟩, ?_⟩
    simp only [List.mem_append, List.mem_singleton]
    rintro b (hb | rfl)
    · exact (h.max b hb).trans hlt.le
    · exact le_rfl
  · rw [if_neg hlt]
    refine ⟨h.found.imp_right fun hmem => ⟨List.mem_append_left _ hmem.1, hmem.2⟩, ?_⟩
    simp only [List.mem_append, List.mem_singleton]
    rintro b (hb | rfl)
    · exact h.max b hb
    · exact not_lt.mp hlt

theorem best_biggest (head : Nat → ObjBukHead) (bukList : List Nat) :
    Best head bukList (biggest head bukList) := by
  suffices hfrom : ∀ rest done best, Best head done best →
      Best head (done ++ rest) (rest.foldl (fun best buk =>
        if best.2 < (head buk).avalSize then (buk, (head buk).avalSize) else best) best) from
    hfrom bukList [] (0, 0) ⟨Or.inl rfl, by simp⟩
  intro rest
  induction rest with
  | nil =>
      intro done best h
      rwa [List.append_nil]
  | cons buk rest ih =>
      intro done best h
      rw [List.foldl_cons, List.append_cons]
      exact ih _ _ (h.step buk)

/-- The loop finds a bucket with the most room, or no bucket has any. -/
theorem biggest_spec (head : Nat → ObjBukHead) (bukList : List Nat) :
    ((biggest head bukList).1 = 0 ∧ ∀ buk ∈ bukList, (head buk).avalSize = 0) ∨
      ((biggest head bukList).1 ∈ bukList ∧ ∀ buk ∈ bukList,
        (head buk).avalSize ≤ (head (biggest head bukList).1).avalSize) := by
  have hbest := best_biggest head bukList
  rcases hbest.found with hzero | ⟨hmem, hval⟩
  · refine Or.inl ⟨by rw [hzero], fun buk hbuk => ?_⟩
    have hle := hbest.max buk hbuk
    rw [hzero] at hle
    exact Nat.le_zero.mp hle
  · exact Or.inr ⟨hmem, fun buk hbuk => hval ▸ hbest.max buk hbuk⟩

/-! ## The three paths -/

/-- The current bucket has exactly `size` bytes left. -/
def ExactFit (s : State) (size : Nat) : Prop :=
  s.curBuk ≠ 0 ∧ (s.head s.curBuk).avalSize = size

/-- The current bucket has less than `size` bytes left and none has more. -/
def NeedsBucket (s : State) (size : Nat) : Prop :=
  (s.curBuk = 0 ∨ (s.head s.curBuk).avalSize < size) ∧
    ∀ buk ∈ s.bukList, (s.head buk).avalSize ≤ size

theorem ends_allocFromMax {max : Nat} (hs : Sound s) (hmax : max ∈ s.bukList)
    (hroom : size < (s.head max).avalSize)
    (hcut : ∀ cur ∈ s.bukList,
      Q (s.head max).curPtr { cut max size s with curBuk := cur }) :
    Ends (allocFromMax s.curBuk max size) s Q E := by
  have hok := hs.ok max hmax
  have hcur : s.curBuk ∈ s.bukList := by
    rcases hs.cur with ⟨_, hempty⟩ | hcur
    · rw [hempty] at hmax
      cases hmax
    · exact hcur
  rw [allocFromMax, ends_bind]
  refine ends_allocFromBuk hok (fun hlt => ?_) (fun _ => ?_) (fun heq => ?_)
  · omega
  · simp only [ends_bind, ends_assertThat, headOf, if_neg hok.nonzero,
      if_neg (hs.ok _ hcur).nonzero, ends_get, ends_pure, ends_ite, ends_modify]
    refine ⟨fun _ => ⟨fun _ => hcut max hmax, fun _ => hcut s.curBuk hcur⟩, fun hzero => ?_⟩
    exact absurd hok.curPtr_ne_zero (of_decide_eq_false hzero)
  · omega

theorem ends_allocObjBuk (executable : Bool) (hm : k.mmap objBucketSize (pagesProt executable) = m)
    (hgiven : isValidPage m = true → m ≠ 0 →
      Q m (setHead m (newHead m) (record (.mmap m objBucketSize) s)))
    (hrefused : ¬ (isValidPage m = true ∧ m ≠ 0) → ∀ text, E (.assertion text)) :
    Ends (allocObjBuk k executable) s Q E := by
  subst hm
  have hpos : 0 < objBucketSize := by decide
  simp only [allocObjBuk, xallocPages, sysMmap, ends_bind, ends_assertThat, ends_pure, ends_modify,
    ends_ite, alignUp_objBucketSize]
  refine ⟨fun _ => ⟨fun hpage => ⟨fun _ => ⟨fun hne => ?_, fun hzero => ?_⟩, fun hbad => ?_⟩,
    fun hpage => ⟨fun hgood => absurd hgood hpage, fun _ => ?_⟩⟩,
    fun hzero => absurd hpos (of_decide_eq_false hzero)⟩
  · exact hgiven hpage (of_decide_eq_true hne)
  · exact hrefused (fun h => of_decide_eq_false hzero h.2) _
  · rw [hpage] at hbad
    cases hbad
  · exact hrefused (fun h => hpage h.1) _

/-- With an answer of the kernel that is no range of addresses, nothing is known but
that the call has mapped it. -/
theorem ends_allocFromNew_sys {max : Nat} (hm : k.mmap objBucketSize (pagesProt s.executable) = m) :
    Ends (allocFromNew k max size) s
      (fun _ t => t.sys = s.sys ++ [.mmap m objBucketSize]) (fun e => e ≠ .fault) := by
  rw [allocFromNew, ends_bind, ends_get, ends_bind]
  refine ends_allocObjBuk _ hm (fun _ hne => ?_) (fun _ _ => Stop.noConfusion)
  simp only [ends_bind, ends_assertThat, ends_modify, ends_get, ends_pure]
  refine ⟨fun _ => ?_, fun _ => Stop.noConfusion⟩
  refine (ends_allocFromBuk_sys hne).post fun _ t ht => ?_
  exact ⟨fun _ => ⟨fun _ => ht, fun _ => Stop.noConfusion⟩, fun _ => Stop.noConfusion⟩

theorem ends_allocFromNew {max : Nat} (hm : k.mmap objBucketSize (pagesProt s.executable) = m)
    (hword : m + objBucketSize ≤ 2 ^ 32) (hsize : size < maxAvalObjSize)
    (hmax : max = 0 ∨ max ∈ s.bukList)
    (hgiven : Given m → ∀ cur ∈ m :: s.bukList,
      Q (m + sizeofObjBukHead) { cut m size (grow m s) with curBuk := cur })
    (hrefused : ¬ Given m → ∀ text, E (.assertion text)) :
    Ends (allocFromNew k max size) s Q E := by
  rw [allocFromNew, ends_bind, ends_get, ends_bind]
  refine ends_allocObjBuk _ hm (fun hpage hne => ?_) (fun hnot => ?_)
  · simp only [ends_bind, ends_assertThat, ends_modify, ends_get, ends_pure]
    refine ⟨fun _ => ?_, fun hzero => absurd hne (of_decide_eq_false hzero)⟩
    change Ends (allocFromBuk m size) (grow m s) _ E
    have hhead : (grow m s).head m = newHead m := grow_head_self
    have haval : size < ((grow m s).head m).avalSize := by rwa [hhead, newHead_avalSize]
    rcases hword.lt_or_eq with hbelow | htop
    · have hm' : Given m := ⟨hne, hpage, hbelow⟩
      have hptr : ((grow m s).head m).curPtr = m + sizeofObjBukHead := by
        rw [hhead, newHead_curPtr hword]
      refine ends_allocFromBuk (hhead ▸ BucketOk.newHead hm') (fun hlt => ?_) (fun _ => ?_)
        (fun heq => ?_)
      · omega
      · rw [hptr]
        refine ⟨fun _ => ⟨fun _ => hgiven hm' _ ?_, fun hzero => ?_⟩, fun hzero => ?_⟩
        · split_ifs with hbest
          · exact List.mem_cons_self
          · exact List.mem_cons_of_mem _ (hmax.resolve_left fun h => hbest (Or.inl h))
        · have hnonzero := of_decide_eq_false hzero
          split_ifs at hnonzero with hbest
          · exact absurd hne hnonzero
          · exact absurd (fun h => hbest (Or.inl h)) hnonzero
        · have hnonzero := of_decide_eq_false hzero
          have hhead : sizeofObjBukHead = 28 := rfl
          omega
      · omega
    · have hend : ((grow m s).head m).bukEnd = 0 := by
        rw [hhead, newHead, htop, Nat.mod_self]
      exact ends_allocFromBuk_wrapped hne hend haval.le
        (hrefused (fun hgiven => hgiven.below.ne htop) _)
  · exact hrefused fun hgiven => hnot ⟨hgiven.page, hgiven.nonzero⟩

theorem ends_allocSlow (hs : Sound s)
    (hcur : s.curBuk = 0 ∨ (s.head s.curBuk).avalSize < size)
    (hcut : ∀ buk ∈ s.bukList, ∀ cur ∈ s.bukList, size < (s.head buk).avalSize →
      Q (s.head buk).curPtr { cut buk size s with curBuk := cur })
    (hnew : NeedsBucket s size → ∀ max, max = 0 ∨ max ∈ s.bukList →
      Ends (allocFromNew k max size) s Q E) :
    Ends (allocSlow k size) s Q E := by
  have hbig := biggest_spec s.head s.bukList
  simp only [allocSlow, ends_bind, ends_get, ends_ite]
  constructor
  · intro hmax
    have hmem := (hbig.resolve_left fun hnone => hmax.1 hnone.1).1
    exact ends_allocFromMax hs hmem hmax.2.2 fun cur hcur => hcut _ hmem cur hcur hmax.2.2
  · intro hnot
    refine hnew ⟨hcur, fun buk hbuk => ?_⟩ _ (hbig.imp And.left And.left)
    rcases hbig with ⟨_, hnone⟩ | ⟨hmem, hmost⟩
    · rw [hnone buk hbuk]
      exact Nat.zero_le _
    · -- the bucket with the most room is the current one, or has not enough
      refine (hmost buk hbuk).trans (not_lt.mp fun hlt => ?_)
      refine hnot ⟨(hs.ok _ hmem).nonzero, fun heq => ?_, hlt⟩
      rw [heq] at hlt hmem
      rcases hcur with hnull | hless
      · exact (hs.ok _ hmem).nonzero hnull
      · omega

theorem ends_allocObj (hs : Sound s) (hsize : 0 < size) (hlarge : size < maxAvalObjSize)
    (hexact : ExactFit s size → E (.assertion "buk->cur_ptr < buk->buk_end"))
    (hcut : ¬ ExactFit s size → ∀ buk ∈ s.bukList, ∀ cur ∈ s.bukList,
      size < (s.head buk).avalSize → Q (s.head buk).curPtr { cut buk size s with curBuk := cur })
    (hnew : NeedsBucket s size → ∀ max, max = 0 ∨ max ∈ s.bukList →
      Ends (allocFromNew k max size) s Q E) :
    Ends (allocObj k size) s Q E := by
  have hslow : s.curBuk = 0 ∨ (s.head s.curBuk).avalSize < size →
      Ends (allocSlow k size) s Q E := by
    intro hcur
    refine ends_allocSlow hs hcur (hcut fun hfit => ?_) hnew
    rcases hcur with hnull | hlt
    · exact hfit.1 hnull
    · exact hlt.ne hfit.2
  simp only [allocObj, if_neg (not_le.mpr hlarge), ends_bind, ends_assertThat, ends_get]
  refine ⟨fun _ => ?_, fun hzero => absurd hsize (of_decide_eq_false hzero)⟩
  rcases hs.cur with ⟨hnull, _⟩ | hmem
  · simp only [allocFromBuk, if_pos hnull, ends_pure]
    exact hslow (Or.inl hnull)
  · have hok := hs.ok _ hmem
    refine ends_allocFromBuk hok (fun hlt => ?_) (fun hlt => ?_) (fun heq => ?_)
    · exact hslow (Or.inr hlt)
    · rw [if_pos hok.curPtr_ne_zero, ends_pure]
      exact hcut (fun hfit => hlt.ne' hfit.2) _ hmem _ hmem hlt
    · exact hexact ⟨hok.nonzero, heq⟩

theorem ends_allocObj_refused (h : ¬ (0 < size ∧ size < maxAvalObjSize)) :
    Ends (allocObj k size) s Q (fun e => e ≠ .fault) := by
  simp only [allocObj, ends_bind, ends_ite, ends_throw, ends_assertThat, ends_pure]
  refine ⟨fun _ => Stop.noConfusion, fun hlarge => ⟨fun hpos => ?_, fun _ => Stop.noConfusion⟩⟩
  exact absurd ⟨of_decide_eq_true hpos, not_le.mp hlarge⟩ h

end Rules

end Snitchaser.Mm.Buckets
