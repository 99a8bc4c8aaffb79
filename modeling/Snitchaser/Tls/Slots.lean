import Snitchaser.Tls.Model
import Mathlib.Data.List.Nodup
import Mathlib.Order.Bounds.Basic
/-!
# The three records of a slot agree

What a returning `alloc_tls_area` or `dealloc_tls_area` does to the state is
said once, in `Allocated` and `Deallocated`; the invariant `Agree` is kept by
both and never looks at the code again.
-/

namespace Snitchaser.Tls.Slots

open Snitchaser.Defs
open Snitchaser.Lib.Hoare
open Snitchaser.Lib.Program
open Snitchaser.Lib.Transition
open Snitchaser.Mutex.Model (xmutexLock_ok_iff xmutexUnlock_ok_iff ends_xmutexLock
  ends_xmutexUnlock)
open Snitchaser.Pages
open Snitchaser.Tls.Bithacks
open Snitchaser.Tls.Model

/-! ## The slot map -/

theorem slotBit_setWord_setLast0 {s : State} {i k : Nat}
    (h : LowestClear (s.threadMap i) k) (m : Nat) :
    slotBit (setWord i (setLast0 (s.threadMap i)) s).threadMap m =
      (slotBit s.threadMap m || decide (m = i * 32 + k)) := by
  have hk : k < 32 := h.1
  have hm : m % 32 < 32 := Nat.mod_lt m (by omega)
  by_cases hi : m / 32 = i
  · have hiff : m % 32 = k ↔ m = i * 32 + k := by omega
    simp only [slotBit, setWord, hi, Function.update_self]
    rw [getLsbD_setLast0 h hm]
    simp only [hiff]
  · have hne : m ≠ i * 32 + k := by omega
    simp [slotBit, setWord, hi, hne]

theorem slotBit_setWord_unsetBitN {s : State} {n : Nat} (m : Nat) :
    slotBit (setWord (n / 32) (unsetBitN (s.threadMap (n / 32)) (n % 32)) s).threadMap m =
      (slotBit s.threadMap m && !decide (m = n)) := by
  have hm : m % 32 < 32 := Nat.mod_lt m (by omega)
  by_cases hi : m / 32 = n / 32
  · have hiff : m % 32 = n % 32 ↔ m = n := by omega
    simp only [slotBit, setWord, hi, Function.update_self]
    rw [getLsbD_unsetBitN hm]
    simp only [hiff]
  · have hne : m ≠ n := by
      intro heq
      exact hi (by rw [heq])
    simp [slotBit, setWord, hi, hne]

theorem findSetFreeSlotFrom_ok {left i : Nat} {s t : State} {nr : Int}
    (h : findSetFreeSlotFrom i left s = .ok nr t) :
    ∃ n : Nat, nr = n ∧ n < (i + left) * 32 ∧ slotBit s.threadMap n = false ∧
      (∀ m, i * 32 ≤ m → m < n → slotBit s.threadMap m = true) ∧
      ∃ map, t = { s with threadMap := map } ∧
        ∀ m, slotBit map m = (slotBit s.threadMap m || decide (m = n)) := by
  induction left generalizing i with
  | zero => simp [findSetFreeSlotFrom] at h
  | succ left ih =>
      by_cases hword : s.threadMap i = 0xffffffff#32
      · simp only [findSetFreeSlotFrom, bind_ok_iff, get_ok_iff] at h
        obtain ⟨_, _, ⟨rfl, rfl⟩, h⟩ := h
        rw [if_neg (by simpa using hword)] at h
        obtain ⟨n, hnr, hbound, hfree, hbelow, hmap⟩ := ih h
        refine ⟨n, hnr, by omega, hfree, ?_, hmap⟩
        intro m hlow hm
        by_cases hi : m / 32 = i
        · rw [slotBit, hi, hword, show (0xffffffff#32) = BitVec.allOnes 32 by decide,
            BitVec.getLsbD_allOnes]
          simp only [decide_eq_true_eq]
          omega
        · exact hbelow m (by omega) hm
      · obtain ⟨k, hk⟩ := exists_lowestClear hword
        have hlt : k < 32 := hk.1
        simp only [findSetFreeSlotFrom, bind_ok_iff, get_ok_iff] at h
        obtain ⟨_, _, ⟨rfl, rfl⟩, h⟩ := h
        rw [if_pos hword] at h
        simp only [bind_ok_iff, set_ok_iff, pure_ok_iff] at h
        obtain ⟨_, _, rfl, rfl, rfl⟩ := h
        refine ⟨i * 32 + k, ?_, by omega, ?_, ?_, _, rfl, slotBit_setWord_setLast0 hk⟩
        · rw [last0Pos_eq hk]
          push_cast
          rfl
        · have hdiv : (i * 32 + k) / 32 = i := by omega
          have hmod : (i * 32 + k) % 32 = k := by omega
          rw [slotBit, hdiv, hmod]
          exact hk.2.1
        · intro m hlow hm
          have hdiv : m / 32 = i := by omega
          rw [slotBit, hdiv]
          exact hk.2.2 _ (by omega)

/-! ## What the two calls do -/

/-- A returning allocation: the lowest clear bit of the map is set, and the new
area's descriptor, its list entry and its table entry all carry that slot. -/
structure Allocated (s t : State) (td pages n : Nat) : Prop where
  td_eq : td = getTlsDesc pages
  bound : n < szMap * 32
  free : slotBit s.threadMap n = false
  below : ∀ m < n, slotBit s.threadMap m = true
  bits : ∀ m, slotBit t.threadMap m = (slotBit s.threadMap m || decide (m = n))
  list : t.tlsList = td :: s.tlsList
  desc : t.tlsDesc = Function.update s.tlsDesc td ⟨fsValOf n, n, pages, tlsAreaSize⟩
  table : t.ldt = Function.update s.ldt n (some (slotDesc pages n))
  unlocked : t.tlsLocked = false

theorem Allocated.desc_self {s t : State} {td pages n : Nat} (h : Allocated s t td pages n) :
    t.tlsDesc td = ⟨fsValOf n, n, pages, tlsAreaSize⟩ := by
  rw [h.desc, Function.update_self]

theorem Allocated.desc_other {s t : State} {td pages n a : Nat} (h : Allocated s t td pages n)
    (hne : a ≠ td) : t.tlsDesc a = s.tlsDesc a := by
  rw [h.desc, Function.update_of_ne hne]

theorem writeLdt_ok {k : Kernel} {d : UserDesc} {s t : State} {u : Unit}
    (h : writeLdt k d s = .ok u t) :
    t = { s with ldt := Function.update s.ldt d.entryNumber (some d) } := by
  by_cases herr : k.modifyLdt d = 0
  · simp [writeLdt, herr] at h
    exact h
  · simp [writeLdt, herr] at h

theorem setupLdt_ok {k : Kernel} {td : Nat} {nr : Int} {s t : State} {u : Unit}
    (h : setupLdt k td nr s = .ok u t) :
    t = setDesc td { s.tlsDesc td with nr := nr, fsVal := fsValOf nr }
      { s with ldt :=
          Function.update s.ldt nr (some (slotDesc (s.tlsDesc td).startAddr nr)) } := by
  simp only [setupLdt, bind_ok_iff, assertThat_ok_iff, get_ok_iff, modify_ok_iff] at h
  obtain ⟨_, _, ⟨-, rfl⟩, _, _, ⟨rfl, rfl⟩, _, _, hldt, rfl⟩ := h
  rw [writeLdt_ok hldt]
  rfl

theorem allocTlsArea_ok {k : Kernel} {s t : State} {td : Nat}
    (h : allocTlsArea k s = .ok td t) :
    ∃ n, Allocated s t td (k.mmap (alignUp tlsAreaSize pageSize)) n := by
  simp only [allocTlsArea, onTlsLock, findSetFreeSlot, bind_ok_iff, zoom_ok_iff,
    xmutexLock_ok_iff, xmutexUnlock_ok_iff, assertThat_ok_iff, get_ok_iff, modify_ok_iff,
    pure_ok_iff] at h
  obtain ⟨_, _, ⟨_, ⟨-, rfl⟩, rfl⟩, pages, _, hpages, _, _, rfl, nr, _, ⟨_, _, ⟨rfl, rfl⟩, _, _,
    ⟨-, rfl⟩, hslot⟩, _, _, hsetup, _, _, rfl, _, _, ⟨_, rfl, rfl⟩, rfl, rfl⟩ := h
  obtain ⟨hmmap, -, rfl⟩ := xallocPages_ok hpages
  obtain ⟨n, rfl, hbound, hfree, hbelow, map, rfl, hbits⟩ := findSetFreeSlotFrom_ok hslot
  rw [setupLdt_ok hsetup, ← hmmap]
  refine ⟨n, rfl, by simpa using hbound, hfree, fun m hm => hbelow m (by omega) hm, hbits,
    rfl, ?_, ?_, rfl⟩
  · simp [setDesc]
  · simp [setDesc]

/-- A returning deallocation of an area in slot `n`. -/
structure Deallocated (s t : State) (td n : Nat) : Prop where
  bits : ∀ m, slotBit t.threadMap m = (slotBit s.threadMap m && !decide (m = n))
  list : t.tlsList = s.tlsList.erase td
  desc : t.tlsDesc = s.tlsDesc
  table : t.ldt = Function.update s.ldt n (some (emptyDesc n))

theorem clearLdt_ok {k : Kernel} {td : Nat} {s t : State} {u : Unit}
    (h : clearLdt k td s = .ok u t) :
    t = { s with ldt :=
      Function.update s.ldt (s.tlsDesc td).nr (some (emptyDesc (s.tlsDesc td).nr)) } := by
  simp only [clearLdt, bind_ok_iff, assertThat_ok_iff, get_ok_iff] at h
  obtain ⟨_, _, ⟨-, rfl⟩, _, _, ⟨rfl, rfl⟩, _, _, ⟨-, rfl⟩, hldt⟩ := h
  exact writeLdt_ok hldt

theorem deallocTlsAreaNolock_ok {k : Kernel} {s t : State} {td n : Nat} {u : Unit}
    (hnr : (s.tlsDesc td).nr = n) (hbound : n < szMap * 32)
    (h : deallocTlsAreaNolock k td s = .ok u t) : Deallocated s t td n := by
  have hcast : ((n : Int) % 2 ^ 32).toNat = n := by
    have hsmall : szMap * 32 = 65536 := by decide
    omega
  simp only [deallocTlsAreaNolock, clearSlot, bind_ok_iff, assertThat_ok_iff, get_ok_iff,
    modify_ok_iff] at h
  obtain ⟨_, _, ⟨-, rfl⟩, _, _, ⟨rfl, rfl⟩, _, _, ⟨-, rfl⟩, _, _, ⟨-, rfl⟩, _, _, hlist, _, _, hldt,
    _, _, hslot, hpages⟩ := h
  rw [xdeallocPages_ok hpages, hslot, clearLdt_ok hldt, hlist]
  simp only [hnr, hcast]
  exact ⟨fun m => slotBit_setWord_unsetBitN m, rfl, rfl, rfl⟩

theorem deallocTlsArea_ok {k : Kernel} {s t : State} {td n : Nat} {u : Unit}
    (hnr : (s.tlsDesc td).nr = n) (hbound : n < szMap * 32)
    (h : deallocTlsArea k td s = .ok u t) : Deallocated s t td n := by
  simp only [deallocTlsArea, onTlsLock, bind_ok_iff, zoom_ok_iff, xmutexLock_ok_iff,
    xmutexUnlock_ok_iff] at h
  obtain ⟨_, s', ⟨_, ⟨-, rfl⟩, hlock⟩, _, t', hdealloc, ⟨_, rfl, hunlock⟩⟩ := h
  have hnr' : (s'.tlsDesc td).nr = n := by
    rw [hlock]
    exact hnr
  obtain ⟨hbits, hlist, hdesc, htable⟩ := deallocTlsAreaNolock_ok hnr' hbound hdealloc
  subst hlock hunlock
  exact ⟨hbits, hlist, hdesc, htable⟩

/-! ## The invariant -/

/-- The slot map, the list of areas and the descriptor table say the same. -/
structure Agree (r : Run) : Prop where
  list : r.st.tlsList = r.live
  nodup : r.live.Nodup
  self : ∀ td ∈ r.live, td = getTlsDesc (r.st.tlsDesc td).startAddr
  slot : ∀ td ∈ r.live, ∃ n : Nat, (r.st.tlsDesc td).nr = n ∧ n < szMap * 32
  inj : ∀ a ∈ r.live, ∀ b ∈ r.live, (r.st.tlsDesc a).nr = (r.st.tlsDesc b).nr → a = b
  bit : ∀ n, slotBit r.st.threadMap n = true ↔ ∃ td ∈ r.live, (r.st.tlsDesc td).nr = n
  entry : ∀ td ∈ r.live, r.st.ldt (r.st.tlsDesc td).nr =
    some (slotDesc (r.st.tlsDesc td).startAddr (r.st.tlsDesc td).nr)

theorem getTlsDesc_inj {a b : Nat} (h : getTlsDesc a = getTlsDesc b) : a = b := by
  have harea : tlsAreaSize = 4411392 := by decide
  have hdesc : sizeofTlsDesc = 24 := rfl
  unfold getTlsDesc at h
  omega

/-- A fresh range holds no live descriptor. -/
theorem getTlsDesc_notMem_of_fresh {r : Run} {pages : Nat} (h : Agree r)
    (hfresh : Fresh r pages) : getTlsDesc pages ∉ r.live := by
  intro hmem
  have hpages := getTlsDesc_inj (h.self _ hmem)
  have harea : 0 < tlsAreaSize := by decide
  rcases hfresh _ hmem with hlow | hhigh
  · omega
  · omega

theorem Agree.alloc {r : Run} {t : State} {td pages n : Nat} (h : Agree r)
    (hfresh : Fresh r pages) (ha : Allocated r.st t td pages n) :
    Agree ⟨t, td :: r.live⟩ := by
  have hnew : td ∉ r.live := ha.td_eq ▸ getTlsDesc_notMem_of_fresh h hfresh
  have hdesc := ha.desc_self
  have hold : ∀ a ∈ r.live, t.tlsDesc a = r.st.tlsDesc a := fun a hmem =>
    ha.desc_other (ne_of_mem_of_not_mem hmem hnew)
  have hunused : ∀ a ∈ r.live, (r.st.tlsDesc a).nr ≠ n := by
    intro a hmem hnr
    have hbit := (h.bit n).mpr ⟨a, hmem, hnr⟩
    rw [ha.free] at hbit
    cases hbit
  refine ⟨by rw [ha.list, h.list], List.nodup_cons.mpr ⟨hnew, h.nodup⟩, ?_, ?_, ?_, ?_, ?_⟩
  · intro a hmem
    rcases List.mem_cons.mp hmem with rfl | hmem
    · rw [hdesc]
      exact ha.td_eq
    · rw [hold a hmem]
      exact h.self a hmem
  · intro a hmem
    rcases List.mem_cons.mp hmem with rfl | hmem
    · exact ⟨n, by rw [hdesc], ha.bound⟩
    · rw [hold a hmem]
      exact h.slot a hmem
  · intro a hmema b hmemb hnr
    rcases List.mem_cons.mp hmema with rfl | ha'
    · rcases List.mem_cons.mp hmemb with rfl | hb'
      · rfl
      · rw [hdesc, hold b hb'] at hnr
        exact absurd hnr.symm (hunused b hb')
    · rcases List.mem_cons.mp hmemb with rfl | hb'
      · rw [hdesc, hold a ha'] at hnr
        exact absurd hnr (hunused a ha')
      · rw [hold a ha', hold b hb'] at hnr
        exact h.inj a ha' b hb' hnr
  · intro m
    have hlive : (∃ a ∈ r.live, (t.tlsDesc a).nr = m) ↔ slotBit r.st.threadMap m = true := by
      rw [h.bit m]
      refine exists_congr fun a => and_congr_right fun hmem => ?_
      rw [hold a hmem]
    rw [ha.bits m, List.exists_mem_cons_iff, hlive, hdesc, Bool.or_eq_true, decide_eq_true_eq,
      Nat.cast_inj, or_comm, eq_comm]
  · intro a hmem
    rcases List.mem_cons.mp hmem with rfl | hmem
    · rw [hdesc, ha.table, Function.update_self]
    · rw [hold a hmem, ha.table, Function.update_of_ne (hunused a hmem)]
      exact h.entry a hmem

theorem Agree.dealloc {r : Run} {t : State} {td n : Nat} (h : Agree r) (hlive : td ∈ r.live)
    (hnr : (r.st.tlsDesc td).nr = n) (hd : Deallocated r.st t td n) :
    Agree ⟨t, r.live.erase td⟩ := by
  have hsub : ∀ a ∈ r.live.erase td, a ∈ r.live := fun a => List.mem_of_mem_erase
  have hother : ∀ a ∈ r.live.erase td, (r.st.tlsDesc a).nr ≠ n := by
    intro a hmem hsame
    have heq := h.inj a (hsub a hmem) td hlive (by rw [hsame, hnr])
    rw [heq] at hmem
    exact h.nodup.not_mem_erase hmem
  refine ⟨by rw [hd.list, h.list], h.nodup.erase td, ?_, ?_, ?_, ?_, ?_⟩
  · intro a hmem
    rw [hd.desc]
    exact h.self a (hsub a hmem)
  · intro a hmem
    rw [hd.desc]
    exact h.slot a (hsub a hmem)
  · intro a hmema b hmemb hsame
    rw [hd.desc] at hsame
    exact h.inj a (hsub a hmema) b (hsub b hmemb) hsame
  · intro m
    rw [hd.bits m, hd.desc, Bool.and_eq_true, h.bit m, Bool.not_eq_true', decide_eq_false_iff_not]
    constructor
    · intro hbit
      obtain ⟨⟨a, hmem, ham⟩, hne⟩ := hbit
      refine ⟨a, (List.mem_erase_of_ne ?_).mpr hmem, ham⟩
      intro heq
      rw [heq, hnr, Nat.cast_inj] at ham
      exact hne ham.symm
    · intro hbit
      obtain ⟨a, hmem, ham⟩ := hbit
      refine ⟨⟨a, hsub a hmem, ham⟩, ?_⟩
      intro hmn
      exact hother a hmem (by rw [ham, hmn])
  · intro a hmem
    rw [hd.desc, hd.table, Function.update_of_ne (hother a hmem)]
    exact h.entry a (hsub a hmem)

theorem agree_of_init {r : Run} (h : system.init r) : Agree r := by
  obtain ⟨hmap, -, hlist, hlive⟩ := h
  refine ⟨by rw [hlist, hlive], by simp [hlive], ?_, ?_, ?_, ?_, ?_⟩
  all_goals simp [hlive, slotBit, hmap]

theorem agree_step {r r' : Run} (h : Agree r) (hstep : Step r r') : Agree r' := by
  cases hstep with
  | alloc k td t hfresh hrun =>
      obtain ⟨n, ha⟩ := allocTlsArea_ok hrun
      exact h.alloc hfresh ha
  | dealloc k td t hlive hrun =>
      obtain ⟨n, hnr, hbound⟩ := h.slot td hlive
      exact h.dealloc hlive hnr (deallocTlsArea_ok hnr hbound hrun)

theorem agree_of_reachable {r : Run} (h : system.Reachable r) : Agree r :=
  h.invariant (fun _ => agree_of_init) fun _ _ _ => agree_step

/-- An area is the only one on the list with its slot number. -/
theorem countP_nr_eq_one_iff {r : Run} (h : Agree r) (n : Int) :
    r.st.tlsList.countP (fun td => (r.st.tlsDesc td).nr = n) = 1 ↔
      ∃ td ∈ r.live, (r.st.tlsDesc td).nr = n := by
  rw [h.list]
  constructor
  · intro hcount
    have hpos : 0 < r.live.countP fun td => (r.st.tlsDesc td).nr = n := by omega
    simpa using List.countP_pos_iff.mp hpos
  · intro hused
    obtain ⟨td, hmem, rfl⟩ := hused
    have hone : r.live.count td = 1 := List.count_eq_one_of_mem h.nodup hmem
    rw [← hone, List.count]
    refine List.countP_congr fun a ha => ?_
    simp only [decide_eq_true_eq, beq_iff_eq]
    exact ⟨h.inj a ha td hmem, fun heq => by rw [heq]⟩

/-- Over every run of allocations and deallocations: a bit of the map is set
exactly when one area of the list has that slot, live areas have different
slots, the table entry of a live area's slot has its start address, and an
allocation takes the smallest slot no live area has. -/
theorem tls_slots_agree {r : Run} (h : system.Reachable r) :
    (∀ n : Nat, slotBit r.st.threadMap n = true ↔
      r.st.tlsList.countP (fun td => (r.st.tlsDesc td).nr = n) = 1) ∧
    r.live.Pairwise (fun a b => (r.st.tlsDesc a).nr ≠ (r.st.tlsDesc b).nr) ∧
    (∀ td ∈ r.live, ∃ d, r.st.ldt (r.st.tlsDesc td).nr = some d ∧
      d.entryNumber = (r.st.tlsDesc td).nr ∧ d.baseAddr = (r.st.tlsDesc td).startAddr) ∧
    ∀ k td t, Fresh r (k.mmap (alignUp tlsAreaSize pageSize)) →
      allocTlsArea k r.st = .ok td t →
      ∃ n : Nat, (t.tlsDesc td).nr = n ∧
        IsLeast {m : Nat | ∀ a ∈ r.live, (r.st.tlsDesc a).nr ≠ m} n := by
  have hagree := agree_of_reachable h
  refine ⟨?_, ?_, ?_, ?_⟩
  · intro n
    rw [hagree.bit n, countP_nr_eq_one_iff hagree]
  · refine hagree.nodup.pairwise_of_forall_ne ?_
    intro a ha b hb hne hsame
    exact hne (hagree.inj a ha b hb hsame)
  · intro td hmem
    exact ⟨_, hagree.entry td hmem, rfl, rfl⟩
  · intro k td t hfresh hrun
    obtain ⟨n, ha⟩ := allocTlsArea_ok hrun
    refine ⟨n, by rw [ha.desc_self], ?_, ?_⟩
    · intro a hmem hnr
      have hbit := (hagree.bit n).mpr ⟨a, hmem, hnr⟩
      rw [ha.free] at hbit
      cases hbit
    · intro m hm
      by_contra hlt
      obtain ⟨a, hmem, hnr⟩ := (hagree.bit m).mp (ha.below m (by omega))
      exact hm a hmem hnr

/-! ## Calls that return -/

theorem findSetFreeSlotFrom_returns {left i j : Nat} {s : State} (hij : i ≤ j)
    (hj : j < i + left) (hword : s.threadMap j ≠ 0xffffffff#32) :
    ∃ nr t, findSetFreeSlotFrom i left s = .ok nr t := by
  induction left generalizing i with
  | zero => omega
  | succ left ih =>
      by_cases hi : s.threadMap i = 0xffffffff#32
      · have hne : i ≠ j := by
          intro heq
          exact hword (heq ▸ hi)
        obtain ⟨nr, t, hrun⟩ := ih (i := i + 1) (by omega) (by omega)
        refine ⟨nr, t, ?_⟩
        simp [findSetFreeSlotFrom, hi, hrun]
      · simp [findSetFreeSlotFrom, hi]

theorem word_ne_allOnes {s : State} {n : Nat} (h : slotBit s.threadMap n = false) :
    s.threadMap (n / 32) ≠ 0xffffffff#32 := by
  intro hfull
  rw [slotBit, hfull, show (0xffffffff#32) = BitVec.allOnes 32 by decide,
    BitVec.getLsbD_allOnes, decide_eq_false_iff_not] at h
  omega

theorem ends_findSetFreeSlot {s : State} {n : Nat} {Q : Int → State → Prop} {E : Stop → Prop}
    (hlocked : s.tlsLocked = true) (hn : n < szMap * 32) (hfree : slotBit s.threadMap n = false)
    (hQ : ∀ nr t, Q nr t) : Ends findSetFreeSlot s Q E := by
  obtain ⟨nr, t, hslot⟩ := findSetFreeSlotFrom_returns (Nat.zero_le (n / 32))
    (show n / 32 < 0 + szMap by omega) (word_ne_allOnes hfree)
  simp only [findSetFreeSlot, ends_bind, ends_get, ends_assertThat, hlocked]
  exact ⟨fun _ => Ends.intro_ok hslot (hQ nr t), fun h => absurd h (by decide)⟩

theorem ends_setupLdt {k : Kernel} {s : State} {td : Nat} {nr : Int} {Q : Unit → State → Prop}
    {E : Stop → Prop} (htd : td ≠ 0) (hldt : ∀ d, k.modifyLdt d = 0) (hQ : ∀ t, Q () t) :
    Ends (setupLdt k td nr) s Q E := by
  simp only [setupLdt, writeLdt, hldt, ends_bind, ends_assertThat, ends_get, ends_modify, if_true,
    decide_true]
  exact ⟨fun _ => ⟨fun _ => hQ _, fun h => absurd h (by decide)⟩,
    fun h => absurd htd (of_decide_eq_false h)⟩

theorem allocTlsArea_returns {k : Kernel} {s : State} {n : Nat} (hlock : s.tlsLocked = false)
    (hpage : isValidPage (k.mmap (alignUp tlsAreaSize pageSize)) = true)
    (hldt : ∀ d, k.modifyLdt d = 0) (hn : n < szMap * 32)
    (hfree : slotBit s.threadMap n = false) :
    ∃ td t, allocTlsArea k s = .ok td t := by
  have htd : getTlsDesc (k.mmap (alignUp tlsAreaSize pageSize)) ≠ 0 := by
    have harea : tlsAreaSize = 4411392 := by decide
    have hdesc : sizeofTlsDesc = 24 := rfl
    unfold getTlsDesc
    omega
  have hends : Ends (allocTlsArea k) s (fun _ _ => True) fun _ => False := by
    simp only [allocTlsArea, onTlsLock, ends_bind, ends_zoom, ends_xmutexLock,
      ends_xmutexUnlock, ends_modify, ends_pure, hlock]
    refine ⟨fun _ => ?_, fun htaken => absurd htaken Bool.false_ne_true⟩
    apply ends_xallocPages (by decide)
    · intro _
      apply ends_findSetFreeSlot
      · rfl
      · exact hn
      · exact hfree
      · intro nr t
        exact ends_setupLdt htd hldt fun _ => trivial
    · intro hinvalid
      rw [hpage] at hinvalid
      cases hinvalid
  obtain ⟨td, t, hrun, _⟩ := hends.returns
  exact ⟨td, t, hrun⟩

/-- The slot is the lowest free one. -/
theorem allocTlsArea_lowest {k : Kernel} {s : State} {n : Nat} (hlock : s.tlsLocked = false)
    (hpage : isValidPage (k.mmap (alignUp tlsAreaSize pageSize)) = true)
    (hldt : ∀ d, k.modifyLdt d = 0) (hn : n < szMap * 32)
    (hfree : slotBit s.threadMap n = false) (hbelow : ∀ m < n, slotBit s.threadMap m = true) :
    ∃ td t, allocTlsArea k s = .ok td t ∧
      Allocated s t td (k.mmap (alignUp tlsAreaSize pageSize)) n := by
  obtain ⟨td, t, hrun⟩ := allocTlsArea_returns hlock hpage hldt hn hfree
  obtain ⟨n', ha⟩ := allocTlsArea_ok hrun
  rcases Nat.lt_trichotomy n' n with hlt | rfl | hgt
  · exact absurd (ha.free.symm.trans (hbelow n' hlt)) Bool.false_ne_true
  · exact ⟨td, t, hrun, ha⟩
  · exact absurd (hfree.symm.trans (ha.below n hgt)) Bool.false_ne_true

def bootState : State where
  threadMap _ := 0
  tlsLocked := false
  tlsList := []
  tlsDesc _ := ⟨0, 0, 0, 0⟩
  ldt _ := none

/-- The kernel places area `i` right above area `i - 1`. -/
def stackedAreas (i : Nat) : Kernel where
  mmap sz := 0x10000000 + i * sz
  munmap _ _ := 0
  modifyLdt _ := 0

theorem tls_slots_agree_two_areas : ∃ r : Run, r.live.length = 2 ∧
    (∀ n : Nat, slotBit r.st.threadMap n = true ↔
      r.st.tlsList.countP (fun td => (r.st.tlsDesc td).nr = n) = 1) := by
  have h₀ : system.Reachable ⟨bootState, []⟩ := .start ⟨fun _ => rfl, rfl, rfl, rfl⟩
  obtain ⟨a, s, hs, ha⟩ := allocTlsArea_lowest (k := stackedAreas 0) (s := bootState) (n := 0)
    rfl (by decide) (fun _ => rfl) (by decide) (by decide) (by decide)
  have h₁ := h₀.next (Step.alloc _ _ _ _ (by simp [Fresh]) hs)
  obtain ⟨b, t, ht⟩ := allocTlsArea_returns (k := stackedAreas 1) (s := s) (n := 1)
    ha.unlocked (by decide) (fun _ => rfl) (by decide) (by rw [ha.bits]; decide)
  have hfresh : Fresh ⟨s, [a]⟩ ((stackedAreas 1).mmap (alignUp tlsAreaSize pageSize)) := by
    intro td hmem
    obtain rfl := List.mem_singleton.mp hmem
    rw [ha.desc_self]
    decide
  exact ⟨_, rfl, (tls_slots_agree (h₁.next (Step.alloc _ _ _ _ hfresh ht))).1⟩

end Snitchaser.Tls.Slots
