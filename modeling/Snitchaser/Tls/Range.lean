import Mathlib.Algebra.BigOperators.Ring.Finset
import Mathlib.Order.Interval.Finset.Nat
import Snitchaser.Tls.Slots
/-!
# The slots stay inside the descriptor table

`thread_map` has `32 * SZ_MAP` bits, eight times as many as the table has entries,
so it is not the map that keeps a slot below `LDT_ENTRIES`.  It is the size of an
area: an allocation takes the smallest free slot, so its number is at most the
number of live areas, and of those not a thousand fit into 32-bit addresses.
-/

namespace Snitchaser.Tls.Range

open Snitchaser.Defs
open Snitchaser.Lib.Hoare
open Snitchaser.Lib.Program
open Snitchaser.Lib.Transition
open Snitchaser.Mutex.Model (ends_xmutexLock ends_xmutexUnlock xmutexLock xmutexUnlock
  xmutexLock_ok_iff)
open Snitchaser.Pages
open Snitchaser.Tls.Bithacks
open Snitchaser.Tls.Model
open Snitchaser.Tls.Slots

/-! ## Packing -/

/-- Blocks of one size that do not meet and lie below `bound` are together at most as
long as `bound`. -/
theorem card_mul_le_of_separated {ι : Type} [DecidableEq ι] {s : Finset ι} {size bound : Nat}
    (start : ι → Nat) (hbelow : ∀ i ∈ s, start i + size ≤ bound)
    (hsep : ∀ i ∈ s, ∀ j ∈ s, i ≠ j → start i + size ≤ start j ∨ start j + size ≤ start i) :
    s.card * size ≤ bound := by
  have hsub : s.biUnion (fun i => Finset.Ico (start i) (start i + size)) ⊆ Finset.range bound := by
    intro x hx
    obtain ⟨i, hi, hx⟩ := Finset.mem_biUnion.mp hx
    have hin := Finset.mem_Ico.mp hx
    have hle := hbelow i hi
    exact Finset.mem_range.mpr (by omega)
  have hdisjoint : ∀ i ∈ s, ∀ j ∈ s, i ≠ j →
      Disjoint (Finset.Ico (start i) (start i + size)) (Finset.Ico (start j) (start j + size)) := by
    intro i hi j hj hne
    rw [Finset.disjoint_left]
    intro x hx hx'
    rw [Finset.mem_Ico] at hx hx'
    have hij := hsep i hi j hj hne
    omega
  calc s.card * size = ∑ i ∈ s, (Finset.Ico (start i) (start i + size)).card := by simp
    _ = (s.biUnion fun i => Finset.Ico (start i) (start i + size)).card :=
        (Finset.card_biUnion hdisjoint).symm
    _ ≤ (Finset.range bound).card := Finset.card_le_card hsub
    _ = bound := Finset.card_range bound

/-! ## Runs in a 32-bit address space -/

/-- A returning call; the range of a new area has 32-bit addresses. -/
inductive Step32 : Run → Run → Prop where
  | alloc (r : Run) (k : Kernel) (td : Nat) (t : State)
      (hfresh : Fresh r (k.mmap (alignUp tlsAreaSize pageSize)))
      (hword : k.mmap (alignUp tlsAreaSize pageSize) + tlsAreaSize ≤ 2 ^ 32)
      (h : allocTlsArea k r.st = .ok td t) : Step32 r ⟨t, td :: r.live⟩
  | dealloc (r : Run) (k : Kernel) (td : Nat) (t : State) (hlive : td ∈ r.live)
      (h : deallocTlsArea k td r.st = .ok () t) : Step32 r ⟨t, r.live.erase td⟩

def system32 : System Run where
  init := system.init
  step := Step32

theorem Step32.step {r r' : Run} (h : Step32 r r') : Step r r' := by
  cases h with
  | alloc k td t hfresh _ hrun => exact Step.alloc r k td t hfresh hrun
  | dealloc k td t hlive hrun => exact Step.dealloc r k td t hlive hrun

/-- The live areas have 32-bit addresses and do not meet; their selectors are those of
their slots. -/
structure Placed (r : Run) : Prop where
  below : ∀ td ∈ r.live, (r.st.tlsDesc td).startAddr + tlsAreaSize ≤ 2 ^ 32
  apart : ∀ a ∈ r.live, ∀ b ∈ r.live, a ≠ b →
    (r.st.tlsDesc a).startAddr + tlsAreaSize ≤ (r.st.tlsDesc b).startAddr ∨
      (r.st.tlsDesc b).startAddr + tlsAreaSize ≤ (r.st.tlsDesc a).startAddr
  selector : ∀ td ∈ r.live, (r.st.tlsDesc td).fsVal = fsValOf (r.st.tlsDesc td).nr

theorem Placed.alloc {r : Run} {t : State} {td pages n : Nat} (h : Placed r) (hagree : Agree r)
    (hfresh : Fresh r pages) (hword : pages + tlsAreaSize ≤ 2 ^ 32)
    (ha : Allocated r.st t td pages n) : Placed ⟨t, td :: r.live⟩ := by
  have hnew : td ∉ r.live := ha.td_eq ▸ getTlsDesc_notMem_of_fresh hagree hfresh
  have hdesc := ha.desc_self
  have hold : ∀ a ∈ r.live, t.tlsDesc a = r.st.tlsDesc a := fun a hmem =>
    ha.desc_other (ne_of_mem_of_not_mem hmem hnew)
  constructor
  · rw [List.forall_mem_cons, hdesc]
    refine ⟨hword, fun a hmem => ?_⟩
    rw [hold a hmem]
    exact h.below a hmem
  · intro a hmema b hmemb hne
    rcases List.mem_cons.mp hmema with rfl | ha'
    · have hb' := List.mem_of_ne_of_mem hne.symm hmemb
      rw [hdesc, hold b hb']
      exact hfresh b hb'
    · rcases List.mem_cons.mp hmemb with rfl | hb'
      · rw [hdesc, hold a ha']
        exact (hfresh a ha').symm
      · rw [hold a ha', hold b hb']
        exact h.apart a ha' b hb' hne
  · rw [List.forall_mem_cons, hdesc]
    refine ⟨rfl, fun a hmem => ?_⟩
    rw [hold a hmem]
    exact h.selector a hmem

theorem Placed.dealloc {r : Run} {t : State} {td n : Nat} (h : Placed r)
    (hd : Deallocated r.st t td n) : Placed ⟨t, r.live.erase td⟩ := by
  have hsub : ∀ a ∈ r.live.erase td, a ∈ r.live := fun a => List.mem_of_mem_erase
  constructor
  · intro a ha
    rw [hd.desc]
    exact h.below a (hsub a ha)
  · intro a ha b hb hne
    rw [hd.desc]
    exact h.apart a (hsub a ha) b (hsub b hb) hne
  · intro a ha
    rw [hd.desc]
    exact h.selector a (hsub a ha)

theorem agree_of_reachable32 {r : Run} (h : system32.Reachable r) : Agree r := by
  refine h.invariant ?_ ?_
  · intro r hinit
    exact agree_of_init hinit
  · intro r r' _ hagree hstep
    exact agree_step hagree (Step32.step hstep)

theorem placed_of_reachable32 {r : Run} (h : system32.Reachable r) : Placed r := by
  refine h.invariant ?_ ?_
  · intro r hinit
    obtain ⟨_, _, _, hlive⟩ := hinit
    constructor <;> simp [hlive]
  · intro r r' hreach hplaced hstep
    have hagree := agree_of_reachable32 hreach
    cases hstep with
    | alloc k td t hfresh hword hrun =>
        obtain ⟨n, ha⟩ := allocTlsArea_ok hrun
        exact hplaced.alloc hagree hfresh hword ha
    | dealloc k td t hlive hrun =>
        obtain ⟨n, hnr, hbound⟩ := hagree.slot td hlive
        exact hplaced.dealloc (deallocTlsArea_ok hnr hbound hrun)

theorem length_live_mul_le {r : Run} (h : system32.Reachable r) :
    r.live.length * tlsAreaSize ≤ 2 ^ 32 := by
  have hplaced := placed_of_reachable32 h
  have hcard := List.toFinset_card_of_nodup (agree_of_reachable32 h).nodup
  rw [← hcard]
  apply card_mul_le_of_separated fun td => (r.st.tlsDesc td).startAddr
  · intro td hmem
    exact hplaced.below td (List.mem_toFinset.mp hmem)
  · intro a ha b hb hne
    exact hplaced.apart a (List.mem_toFinset.mp ha) b (List.mem_toFinset.mp hb) hne

/-- Far fewer areas are live than the table has entries. -/
theorem length_live_lt {r : Run} (h : system32.Reachable r) : r.live.length < maxThreads := by
  have hle := length_live_mul_le h
  have hthreads : maxThreads = 8192 := rfl
  rw [tlsAreaSize_eq] at hle
  omega

/-! ## The slot of an allocation -/

/-- `alloc_tls_area` up to `setup_ldt`: the area and the slot it hands over. -/
def findArea (k : Kernel) : Prog State (Nat × Int) := do
  onTlsLock xmutexLock
  let pages ← xallocPages (sysMmap k) tlsAreaSize false
  let td := getTlsDesc pages
  modify fun s =>
    setDesc td { s.tlsDesc td with startAddr := pages, size := tlsAreaSize } s
  let nr ← findSetFreeSlot
  pure (td, nr)

theorem allocTlsArea_eq (k : Kernel) : allocTlsArea k = (do
    let area ← findArea k
    setupLdt k area.1 area.2
    modify fun s => { s with tlsList := area.1 :: s.tlsList }
    onTlsLock xmutexUnlock
    pure area.1) := by
  simp only [allocTlsArea, findArea, bind_assoc, pure_bind]

theorem findArea_ok {k : Kernel} {s t : State} {td : Nat} {nr : Int}
    (h : findArea k s = .ok (td, nr) t) :
    ∃ n : Nat, nr = n ∧ ∀ m < n, slotBit s.threadMap m = true := by
  simp only [findArea, onTlsLock, findSetFreeSlot, bind_ok_iff, zoom_ok_iff, xmutexLock_ok_iff,
    assertThat_ok_iff, get_ok_iff, modify_ok_iff, pure_ok_iff] at h
  obtain ⟨_, _, ⟨_, ⟨-, rfl⟩, rfl⟩, pages, _, hpages, _, _, rfl, _, _,
    ⟨_, _, ⟨rfl, rfl⟩, _, _, ⟨-, rfl⟩, hslot⟩, hpair, rfl⟩ := h
  obtain ⟨-, -, rfl⟩ := xallocPages_ok hpages
  obtain ⟨-, rfl⟩ := Prod.mk.inj hpair
  obtain ⟨n, rfl, -, -, hbelow, -⟩ := findSetFreeSlotFrom_ok hslot
  exact ⟨n, rfl, fun m hm => hbelow m (by omega) hm⟩

/-- The slots below a number are all in use only by as many areas. -/
theorem le_length_live {r : Run} {n : Nat} (h : Agree r)
    (hbelow : ∀ m < n, slotBit r.st.threadMap m = true) : n ≤ r.live.length := by
  have hsub : Finset.range n ⊆ (r.live.map fun td => (r.st.tlsDesc td).nr.toNat).toFinset := by
    intro m hm
    obtain ⟨td, hmem, hnr⟩ := (h.bit m).mp (hbelow m (Finset.mem_range.mp hm))
    refine List.mem_toFinset.mpr (List.mem_map.mpr ⟨td, hmem, ?_⟩)
    rw [hnr, Int.toNat_natCast]
  calc n = (Finset.range n).card := (Finset.card_range n).symm
    _ ≤ _ := Finset.card_le_card hsub
    _ ≤ (r.live.map fun td => (r.st.tlsDesc td).nr.toNat).length := List.toFinset_card_le _
    _ = r.live.length := List.length_map _

theorem fsValOf_eq {n : Nat} (h : n < ldtEntries) : (fsValOf n : Int) = n * 8 + 7 := by
  have hentries : ldtEntries = 8192 := rfl
  unfold fsValOf
  omega

/-- The slots of the live areas are in the table. -/
def InTable (r : Run) : Prop := ∀ td ∈ r.live, ∃ n : Nat, (r.st.tlsDesc td).nr = n ∧ n < ldtEntries

/-- A slot is at most the number of areas that were live when it was handed out. -/
theorem inTable_of_reachable32 {r : Run} (h : system32.Reachable r) : InTable r := by
  refine h.invariant ?_ ?_
  · intro r hinit
    obtain ⟨_, _, _, hlive⟩ := hinit
    simp [InTable, hlive]
  · intro r r' hreach hbelow hstep
    have hagree := agree_of_reachable32 hreach
    cases hstep with
    | alloc k td t hfresh hword hrun =>
        obtain ⟨n, ha⟩ := allocTlsArea_ok hrun
        have hnew : td ∉ r.live := ha.td_eq ▸ getTlsDesc_notMem_of_fresh hagree hfresh
        unfold InTable
        rw [List.forall_mem_cons]
        constructor
        · refine ⟨n, by rw [ha.desc_self], ?_⟩
          exact (le_length_live hagree ha.below).trans_lt (length_live_lt hreach)
        · intro a hmem
          rw [ha.desc_other (ne_of_mem_of_not_mem hmem hnew)]
          exact hbelow a hmem
    | dealloc k td t hlive hrun =>
        obtain ⟨n, hnr, hbound⟩ := hagree.slot td hlive
        intro a hmem
        rw [(deallocTlsArea_ok hnr hbound hrun).desc]
        exact hbelow a (List.mem_of_mem_erase hmem)

/-- Over every run: the slot an allocation hands to `setup_ldt` is in the table and its
selector is not truncated, and so for every live area; and no allocation made with
`MAX_THREADS` live areas goes on, as there never are that many. -/
theorem tls_slots_in_range {r : Run} (h : system32.Reachable r) :
    (∀ k td nr t, findArea k r.st = .ok (td, nr) t →
      0 ≤ nr ∧ nr < ldtEntries ∧ fsValOf nr = nr * 8 + 7) ∧
    (∀ td ∈ r.live, 0 ≤ (r.st.tlsDesc td).nr ∧ (r.st.tlsDesc td).nr < ldtEntries ∧
      (r.st.tlsDesc td).fsVal = (r.st.tlsDesc td).nr * 8 + 7) ∧
    r.live.length < maxThreads ∧
    ∀ k, maxThreads ≤ r.live.length →
      ∃ t, allocTlsArea k r.st = .error (.fatal "TLS" "TLS slots is full\n") t := by
  have hagree := agree_of_reachable32 h
  have hfew := length_live_lt h
  refine ⟨?_, ?_, hfew, fun k hmany => absurd hmany (by omega)⟩
  · intro k td nr t hrun
    obtain ⟨n, rfl, hbelow⟩ := findArea_ok hrun
    have hlt : n < ldtEntries := (le_length_live hagree hbelow).trans_lt hfew
    exact ⟨by omega, by omega, fsValOf_eq hlt⟩
  · intro td hmem
    obtain ⟨n, hnr, hlt⟩ := inTable_of_reachable32 h td hmem
    rw [(placed_of_reachable32 h).selector td hmem, hnr]
    exact ⟨by omega, by omega, fsValOf_eq hlt⟩

/-- The map itself does not stop at the end of the table: were all slots of the table in
use, the next one would be handed out. -/
theorem slot_beyond_table {s : State} (hfull : ∀ m < ldtEntries, slotBit s.threadMap m = true)
    (hfree : slotBit s.threadMap ldtEntries = false) :
    ∃ t, findSetFreeSlotFrom 0 szMap s = .ok ldtEntries t := by
  obtain ⟨nr, t, hrun⟩ := findSetFreeSlotFrom_returns (Nat.zero_le (ldtEntries / 32))
    (show ldtEntries / 32 < 0 + szMap by decide) (word_ne_allOnes hfree)
  obtain ⟨n, rfl, -, hclear, hbelow, -⟩ := findSetFreeSlotFrom_ok hrun
  have hn : n = ldtEntries := by
    rcases Nat.lt_trichotomy n ldtEntries with hlt | heq | hgt
    · rw [hfull n hlt] at hclear
      cases hclear
    · exact heq
    · rw [hbelow ldtEntries (by omega) hgt] at hfree
      cases hfree
  exact ⟨t, by rw [hrun, hn]⟩

theorem deallocTlsArea_returns {k : Kernel} {s : State} {td pages n : Nat}
    (hlock : s.tlsLocked = false) (htd : td = getTlsDesc pages)
    (hdesc : s.tlsDesc td = ⟨fsValOf n, n, pages, tlsAreaSize⟩) (hn : n < ldtEntries)
    (hpage : isValidPage pages = true) (hldt : ∀ d, k.modifyLdt d = 0)
    (hmunmap : ∀ a len, k.munmap a len = 0) :
    ∃ t, deallocTlsArea k td s = .ok () t ∧ t.tlsLocked = false := by
  have hne : td ≠ 0 := by
    have harea : tlsAreaSize = 4411392 := by decide
    have hsize : sizeofTlsDesc = 24 := rfl
    rw [htd, getTlsDesc]
    omega
  have hselector : (n : Int) * 8 + 4 + 3 = fsValOf n := by
    rw [fsValOf_eq hn]
    omega
  have hends : Ends (deallocTlsArea k td) s (fun _ t => t.tlsLocked = false) fun _ => False := by
    simp only [deallocTlsArea, deallocTlsAreaNolock, clearLdt, clearSlot, writeLdt, onTlsLock,
      ends_bind, ends_zoom, ends_xmutexLock, ends_xmutexUnlock, ends_modify, ends_get,
      ends_assertThat, hlock, hldt, hdesc, hselector, ← htd, hne, decide_true, reduceCtorEq,
      IsEmpty.forall_iff, and_true, forall_const, ne_eq, not_false_eq_true, if_true]
    apply ends_xdeallocPages hpage
    · exact fun _ => trivial
    · exact fun herr => absurd (hmunmap _ _) herr
  obtain ⟨_, t, hrun, hfree⟩ := hends.returns
  exact ⟨t, hrun, hfree⟩

/-- An area above another one is fresh for it. -/
theorem fresh_above {r : Run} {pages i : Nat}
    (h : ∀ td ∈ r.live, ∃ j < i, (r.st.tlsDesc td).startAddr =
      (stackedAreas j).mmap (alignUp tlsAreaSize pageSize))
    (hpages : pages = (stackedAreas i).mmap (alignUp tlsAreaSize pageSize)) : Fresh r pages := by
  have harea : alignUp tlsAreaSize pageSize = tlsAreaSize := by decide
  intro td hmem
  obtain ⟨j, hj, hstart⟩ := h td hmem
  have hle : (j + 1) * tlsAreaSize ≤ i * tlsAreaSize := Nat.mul_le_mul_right _ hj
  rw [hstart, hpages, harea]
  simp only [stackedAreas]
  rw [Nat.add_one_mul] at hle
  omega

/-- Two areas are made, the first is given back and a third is made: it has the slot of
the first. -/
theorem tls_slots_in_range_reused_slot : ∃ (r : Run) (b c : Nat), r.live = [c, b] ∧
    (r.st.tlsDesc c).nr = 0 ∧ (r.st.tlsDesc b).nr = 1 ∧
    ∀ td ∈ r.live, (r.st.tlsDesc td).fsVal = (r.st.tlsDesc td).nr * 8 + 7 := by
  have h₀ : system32.Reachable ⟨bootState, []⟩ := .start ⟨fun _ => rfl, rfl, rfl, rfl⟩
  obtain ⟨a, s₁, hrun₁, ha⟩ := allocTlsArea_lowest (k := stackedAreas 0) (s := bootState) (n := 0)
    rfl (by decide) (fun _ => rfl) (by decide) (by decide) (by decide)
  have h₁ := h₀.next (Step32.alloc _ _ _ _ (by simp [Fresh]) (by decide) hrun₁)
  obtain ⟨b, s₂, hrun₂, hb⟩ := allocTlsArea_lowest (k := stackedAreas 1) (s := s₁) (n := 1)
    ha.unlocked (by decide) (fun _ => rfl) (by decide) (by rw [ha.bits]; decide)
    (by simp [ha.bits])
  have hfresh₂ : Fresh ⟨s₁, [a]⟩ ((stackedAreas 1).mmap (alignUp tlsAreaSize pageSize)) := by
    apply fresh_above _ rfl
    rw [List.forall_mem_singleton, ha.desc_self]
    exact ⟨0, by decide, rfl⟩
  have h₂ := h₁.next (Step32.alloc _ _ _ _ hfresh₂ (by decide) hrun₂)
  have hab : a ≠ b := by
    rw [ha.td_eq, hb.td_eq]
    decide
  have hdesc : s₂.tlsDesc a = _ := (hb.desc_other hab).trans ha.desc_self
  obtain ⟨s₃, hrun₃, hlock⟩ := deallocTlsArea_returns (k := stackedAreas 0) hb.unlocked ha.td_eq
    hdesc (by decide) (by decide) (fun _ => rfl) fun _ _ => rfl
  have hd := deallocTlsArea_ok (n := 0) (by rw [hdesc]) (by decide) hrun₃
  have h₃ := h₂.next (Step32.dealloc _ _ a s₃ (by simp) hrun₃)
  rw [show [b, a].erase a = [b] by simp [hab.symm]] at h₃
  obtain ⟨c, s₄, hrun₄, hc⟩ := allocTlsArea_lowest (k := stackedAreas 2) (s := s₃) (n := 0)
    hlock (by decide) (fun _ => rfl) (by decide) (by simp [hd.bits])
    fun m hm => absurd hm m.not_lt_zero
  have hfresh₄ : Fresh ⟨s₃, [b]⟩ ((stackedAreas 2).mmap (alignUp tlsAreaSize pageSize)) := by
    apply fresh_above _ rfl
    rw [List.forall_mem_singleton, hd.desc, hb.desc_self]
    exact ⟨1, by decide, rfl⟩
  have h₄ := h₃.next (Step32.alloc _ _ _ _ hfresh₄ (by decide) hrun₄)
  have hbc : b ≠ c := by
    rw [hb.td_eq, hc.td_eq]
    decide
  refine ⟨_, b, c, rfl, ?_, ?_, fun td hmem => ((tls_slots_in_range h₄).2.1 td hmem).2.2⟩
  · rw [hc.desc_self]
    rfl
  · rw [hc.desc_other hbc, hd.desc, hb.desc_self]
    rfl

end Snitchaser.Tls.Range
