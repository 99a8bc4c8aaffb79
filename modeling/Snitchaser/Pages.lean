import Snitchaser.Defs
import Snitchaser.Lib.Hoare
import Snitchaser.Proc.Entry
/-!
# Page allocation

`xalloc_pages` and `xdealloc_pages` of `mm.c`, over system calls that are parameters.
Where what is mapped is no part of the state, a system call is only its answer.
-/

namespace Snitchaser.Pages

open Snitchaser.Defs
open Snitchaser.Lib.Hoare
open Snitchaser.Lib.Program
open Snitchaser.Proc.Entry (protRead protWrite protExec)

variable {σ : Type}

/-- The protection `xalloc_pages` asks for. -/
def pagesProt (executable : Bool) : Nat :=
  let prot := protRead ||| protWrite
  if executable then prot ||| protExec else prot

/-- The arguments of `mmap` are the length and the protection. -/
def xallocPages (mmap : Nat → Nat → Prog σ Nat) (sz : Nat) (executable : Bool) : Prog σ Nat := do
  assertThat (0 < sz) "sz > 0"
  let ptr ← mmap (alignUp sz pageSize) (pagesProt executable)
  assertThat (isValidPage ptr) "is_valid_page(ptr)"
  pure ptr

def xdeallocPages (munmap : Nat → Nat → Prog σ Int) (ptr sz : Nat) : Prog σ Unit := do
  assertThat (isValidPage ptr) "is_valid_page(ptr)"
  let err ← munmap ptr (alignUp sz pageSize)
  assertThat (err = 0) "err == 0"

/-! ## Calls that are only their answers -/

section Answers

variable {mmap : Nat → Nat} {munmap : Nat → Nat → Int} {sz ptr : Nat} {executable : Bool}

theorem xallocPages_ok {p : Nat} {s t : σ}
    (h : xallocPages (fun len _ => pure (mmap len)) sz executable s = .ok p t) :
    p = mmap (alignUp sz pageSize) ∧ isValidPage p = true ∧ t = s := by
  simp only [xallocPages, bind_ok_iff, assertThat_ok_iff, pure_ok_iff] at h
  obtain ⟨_, _, ⟨-, rfl⟩, _, _, ⟨rfl, rfl⟩, _, _, ⟨hpage, rfl⟩, rfl, rfl⟩ := h
  exact ⟨rfl, hpage, rfl⟩

theorem xdeallocPages_ok {s t : σ} {u : Unit}
    (h : xdeallocPages (fun a len => pure (munmap a len)) ptr sz s = .ok u t) : t = s := by
  simp only [xdeallocPages, bind_ok_iff, assertThat_ok_iff, pure_ok_iff] at h
  obtain ⟨_, _, ⟨-, rfl⟩, _, _, ⟨-, rfl⟩, -, rfl⟩ := h
  rfl

theorem ends_xallocPages {s : σ} {Q : Nat → σ → Prop} {E : Stop → Prop} (hsz : 0 < sz)
    (hok : isValidPage (mmap (alignUp sz pageSize)) = true → Q (mmap (alignUp sz pageSize)) s)
    (hE : isValidPage (mmap (alignUp sz pageSize)) = false → ∀ e, E e) :
    Ends (xallocPages (fun len _ => pure (mmap len)) sz executable) s Q E := by
  simp only [xallocPages, ends_bind, ends_assertThat, ends_pure]
  exact ⟨fun _ => ⟨hok, fun hpage => hE hpage _⟩,
    fun hzero => absurd hsz (of_decide_eq_false hzero)⟩

theorem ends_xdeallocPages {s : σ} {Q : Unit → σ → Prop} {E : Stop → Prop}
    (hpage : isValidPage ptr = true) (hok : munmap ptr (alignUp sz pageSize) = 0 → Q () s)
    (hE : munmap ptr (alignUp sz pageSize) ≠ 0 → ∀ e, E e) :
    Ends (xdeallocPages (fun a len => pure (munmap a len)) ptr sz) s Q E := by
  simp only [xdeallocPages, ends_bind, ends_assertThat, ends_pure, decide_eq_true_eq,
    decide_eq_false_iff_not]
  refine ⟨fun _ => ⟨hok, fun herr => hE herr _⟩, fun hbad => ?_⟩
  rw [hpage] at hbad
  cases hbad

theorem outputs_xdeallocPages {β : Type} {out : σ → List β} {E : Stop → Prop}
    (hpage : isValidPage ptr = true) (hE : munmap ptr (alignUp sz pageSize) ≠ 0 → ∀ e, E e) :
    Outputs out (xdeallocPages (fun a len => pure (munmap a len)) ptr sz) [] E :=
  ⟨fun _ => ends_xdeallocPages hpage (fun _ => (List.append_nil _).symm) hE⟩

end Answers

end Snitchaser.Pages
