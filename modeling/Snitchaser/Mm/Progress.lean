import Snitchaser.Mm.Blocks
/-!
# When an allocation fails

With sizes in range and a kernel that gives buckets, a sequence of calls comes to its
end exactly if no call asks for all that is left in the current bucket.  The test of
`alloc_from_buk` lets such a call through, its assertion does not; the other two
paths compare strictly.
-/

namespace Snitchaser.Mm.Progress

open Snitchaser.Lib.Hoare
open Snitchaser.Lib.Program
open Snitchaser.Mm.Blocks (firstAlloc firstAlloc_ok freshState kernelAt)
open Snitchaser.Mm.Buckets
open Snitchaser.Mm.Model
open Snitchaser.Pages

/-- Calls of `alloc_obj` with their sizes, each with the kernel's answers to it. -/
def allocAll : List (Kernel × Nat) → Prog State (List Nat)
  | [] => pure []
  | (k, size) :: calls => do
      let p ← allocObj k size
      let ps ← allocAll calls
      pure (p :: ps)

/-- `P` holds of each call that is made. -/
def Along (P : Kernel → Nat → State → Prop) : List (Kernel × Nat) → State → Prop
  | [], _ => True
  | (k, size) :: calls, s =>
      P k size s ∧ ∀ p t, allocObj k size s = .ok p t → Along P calls t

/-- A call that needs a bucket is given one that meets no other. -/
def Granted (k : Kernel) (size : Nat) (s : State) : Prop :=
  NeedsBucket s size → Given (k.mmap objBucketSize (pagesProt s.executable)) ∧
    ∀ buk ∈ s.bukList, Separate (k.mmap objBucketSize (pagesProt s.executable)) buk

section Calls

variable {s : State} {k : Kernel} {size : Nat}

theorem exists_alloc (hs : Sound s) (hsize : 0 < size ∧ size < maxAvalObjSize)
    (hgranted : Granted k size s) (hfit : ¬ ExactFit s size) :
    ∃ p t, allocObj k size s = .ok p t ∧ p ≠ 0 ∧ Sound t := by
  apply Ends.returns
  refine ends_allocObj hs hsize.1 hsize.2 hfit ?_ ?_
  · intro _ buk hbuk cur hcur hroom
    have hok := hs.toBucketsOk.cut hbuk hroom.le
    exact ⟨(hs.ok buk hbuk).curPtr_ne_zero, ⟨⟨hok.ok, hok.separate⟩, Or.inr hcur⟩⟩
  · intro hneeds max hmax
    obtain ⟨hgiven, hsep⟩ := hgranted hneeds
    generalize hm : k.mmap objBucketSize (pagesProt s.executable) = m at hgiven hsep
    refine ends_allocFromNew hm hgiven.below.le hsize.2 hmax ?_ fun hnot => absurd hgiven hnot
    intro _ cur hcur
    have hroom : size ≤ ((grow m s).head m).avalSize := by
      rw [grow_head_self, newHead_avalSize]
      exact hsize.2.le
    have hok := (hs.toBucketsOk.grow hgiven hsep).cut List.mem_cons_self hroom
    have hnonzero := hgiven.nonzero
    exact ⟨by omega, ⟨⟨hok.ok, hok.separate⟩, Or.inr hcur⟩⟩

theorem not_alloc_of_exactFit (hs : Sound s) (hsize : 0 < size ∧ size < maxAvalObjSize)
    (hfit : ExactFit s size) (p : Nat) (t : State) : allocObj k size s ≠ .ok p t := by
  have hends : Ends (allocObj k size) s (fun _ _ => False) fun _ => True := by
    refine ends_allocObj hs hsize.1 hsize.2 (fun _ => trivial) (fun hnot => absurd hfit hnot) ?_
    intro hneeds
    rcases hneeds.1 with hnull | hlt
    · exact absurd hnull hfit.1
    · exact absurd hfit.2 hlt.ne
  exact fun hrun => hends.of_ok hrun

theorem allocAll_iff {calls : List (Kernel × Nat)} (hs : Sound s)
    (hsizes : ∀ c ∈ calls, 0 < c.2 ∧ c.2 < maxAvalObjSize) (hgranted : Along Granted calls s) :
    (∃ ps t, allocAll calls s = .ok ps t ∧ ∀ p ∈ ps, p ≠ 0) ↔
      Along (fun _ size s => ¬ ExactFit s size) calls s := by
  induction calls generalizing s with
  | nil => exact iff_of_true ⟨[], s, rfl, by simp⟩ trivial
  | cons call calls ih =>
      obtain ⟨k, size⟩ := call
      have hsize := hsizes (k, size) List.mem_cons_self
      by_cases hfit : ExactFit s size
      · apply iff_of_false
        · rintro ⟨ps, t, hrun, _⟩
          obtain ⟨p, u, hcall, _⟩ := bind_ok_iff.mp hrun
          exact not_alloc_of_exactFit hs hsize hfit p u hcall
        · exact fun halong => halong.1 hfit
      · obtain ⟨p, t, hcall, hp, ht⟩ := exists_alloc hs hsize hgranted.1 hfit
        have hrest := ih ht (fun c hc => hsizes c (List.mem_cons_of_mem _ hc))
          (hgranted.2 p t hcall)
        constructor
        · rintro ⟨ps, u, hrun, hps⟩
          rw [allocAll, bind_of_ok hcall] at hrun
          simp only [bind_ok_iff, pure_ok_iff] at hrun
          obtain ⟨qs, v, hqs, rfl, rfl⟩ := hrun
          refine ⟨hfit, fun p' t' hcall' => ?_⟩
          obtain ⟨rfl, rfl⟩ : p' = p ∧ t' = t := by
            rw [hcall] at hcall'
            cases hcall'
            exact ⟨rfl, rfl⟩
          exact hrest.mp ⟨qs, _, hqs, fun q hq => hps q (List.mem_cons_of_mem _ hq)⟩
        · intro halong
          obtain ⟨ps, u, hps, hnonzero⟩ := hrest.mpr (halong.2 p t hcall)
          refine ⟨p :: ps, u, ?_, List.forall_mem_cons.mpr ⟨hp, hnonzero⟩⟩
          rw [allocAll, bind_of_ok hcall, bind_of_ok hps]
          rfl

end Calls

theorem sound_initMmObj (executable : Bool) (s : State) :
    Sound (after (initMmObj executable) s) := by
  have hempty : (after (initMmObj executable) s).bukList = [] := rfl
  constructor
  · constructor
    · simp [hempty]
    · rw [hempty]
      exact List.Pairwise.nil
  · exact Or.inl ⟨rfl, rfl⟩

/-- After `init_mm_obj` every call of a sequence returns a block, exactly if none asks
for all that the current bucket has left. -/
theorem allocations_return_iff (executable : Bool) (s : State) (calls : List (Kernel × Nat))
    (hsizes : ∀ c ∈ calls, 0 < c.2 ∧ c.2 < maxAvalObjSize)
    (hgranted : Along Granted calls (after (initMmObj executable) s)) :
    (∃ ps t, (initMmObj executable >>= fun _ => allocAll calls) s = .ok ps t ∧
      ∀ p ∈ ps, p ≠ 0) ↔
      Along (fun _ size s => ¬ ExactFit s size) calls (after (initMmObj executable) s) :=
  allocAll_iff (sound_initMmObj executable s) hsizes hgranted

theorem granted_freshState (size : Nat) : Granted (kernelAt 0x40000000) size freshState := by
  intro _
  exact ⟨⟨by decide, by decide, by decide⟩, by simp [freshState]⟩

theorem granted_firstAlloc {k : Kernel} {size : Nat} (hsize : size ≤ 33554388) :
    Granted k size firstAlloc := by
  intro hneeds
  have haval : (firstAlloc.head firstAlloc.curBuk).avalSize = 33554388 := by rfl
  rcases hneeds.1 with hnull | hlt
  · cases hnull
  · omega

/-- Two calls, the second for at most what the first has left. -/
theorem along_granted {size : Nat} (hsize : size ≤ 33554388) :
    Along Granted [(kernelAt 0x40000000, 16), (kernelAt 0, size)] freshState := by
  refine ⟨granted_freshState 16, fun p t hrun => ?_⟩
  rw [firstAlloc_ok] at hrun
  cases hrun
  exact ⟨granted_firstAlloc hsize, fun _ _ _ => trivial⟩

theorem allocations_return_iff_two :
    ∃ ps t, (initMmObj false >>= fun _ => allocAll
      [(kernelAt 0x40000000, 16), (kernelAt 0, 33554387)]) freshState = .ok ps t ∧
        ∀ p ∈ ps, p ≠ 0 := by
  refine (allocations_return_iff false freshState _ (by decide)
    (along_granted (by decide))).mpr ⟨fun hfit => hfit.1 rfl, fun p t hrun => ?_⟩
  have hfirst : allocObj (kernelAt 0x40000000) 16 (after (initMmObj false) freshState) =
      .ok 0x4000001C firstAlloc := firstAlloc_ok
  rw [hfirst] at hrun
  cases hrun
  refine ⟨fun hfit => ?_, fun _ _ _ => trivial⟩
  exact absurd hfit.2 (by decide +kernel)

/-- The second of two blocks is to fill the bucket. -/
theorem second_block_fills_bucket :
    (0 < 33554388 ∧ 33554388 < maxAvalObjSize) ∧
    Along Granted [(kernelAt 0x40000000, 16), (kernelAt 0, 33554388)] freshState ∧
    Ends (initMmObj false >>= fun _ => allocAll
      [(kernelAt 0x40000000, 16), (kernelAt 0, 33554388)]) freshState (fun _ _ => False)
        fun e => e = .assertion "buk->cur_ptr < buk->buk_end" :=
  ⟨by decide, along_granted le_rfl, rfl⟩

end Snitchaser.Mm.Progress
