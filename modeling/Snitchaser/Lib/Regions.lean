import Mathlib.Tactic.Common
/-!
# Regions of an address space

Half-open ranges of addresses, each of some kind, one above the other.  Mapping puts a
region into a free range, unmapping cuts a range out of all regions.  What is listed of
them is coarser: regions that touch are listed as one where `same` says so of their kinds.

A region that touches no other is listed as it is, and does not change how the others
are listed.
-/

namespace Snitchaser.Lib.Regions

structure Region (κ : Type) where
  lo : Nat
  hi : Nat
  kind : κ
  deriving DecidableEq, Repr

variable {κ : Type}

/-- Regions that are not empty, in the order of their addresses. -/
structure Ordered (rs : List (Region κ)) : Prop where
  sizes : ∀ r ∈ rs, r.lo < r.hi
  apart : rs.Pairwise fun r s => r.hi ≤ s.lo

/-- No region has an address from `lo` to `hi`. -/
def Free (rs : List (Region κ)) (lo hi : Nat) : Prop := ∀ r ∈ rs, r.hi ≤ lo ∨ hi ≤ r.lo

/-- The regions that end at `lo` or below, and the others. -/
def below (lo : Nat) (rs : List (Region κ)) : List (Region κ) := rs.takeWhile fun r => r.hi ≤ lo

def above (lo : Nat) (rs : List (Region κ)) : List (Region κ) := rs.dropWhile fun r => r.hi ≤ lo

def place (r : Region κ) (rs : List (Region κ)) : List (Region κ) :=
  below r.lo rs ++ r :: above r.lo rs

section Split

variable {rs : List (Region κ)} {lo hi : Nat} {r : Region κ}

theorem below_append_above (lo : Nat) (rs : List (Region κ)) : below lo rs ++ above lo rs = rs :=
  List.takeWhile_append_dropWhile

theorem hi_le_of_mem_below (h : r ∈ below lo rs) : r.hi ≤ lo := by
  induction rs with
  | nil => cases h
  | cons s rs ih =>
      rw [below, List.takeWhile_cons] at h
      split_ifs at h with hs
      · rcases List.mem_cons.mp h with rfl | h
        · exact of_decide_eq_true hs
        · exact ih h
      · cases h

theorem Ordered.tail {s : Region κ} (h : Ordered (s :: rs)) : Ordered rs where
  sizes := fun r hr => h.sizes r (List.mem_cons_of_mem s hr)
  apart := (List.pairwise_cons.mp h.apart).2

theorem le_lo_of_mem_above (hordered : Ordered rs) (hfree : Free rs lo hi)
    (h : r ∈ above lo rs) : hi ≤ r.lo := by
  induction rs with
  | nil => cases h
  | cons s rs ih =>
      rw [above, List.dropWhile_cons] at h
      split_ifs at h with hs
      · exact ih hordered.tail (fun r hr => hfree r (List.mem_cons_of_mem s hr)) h
      · have hfirst : hi ≤ s.lo := by
          refine (hfree s List.mem_cons_self).resolve_left fun hle => hs ?_
          exact decide_eq_true hle
        rcases List.mem_cons.mp h with rfl | h
        · exact hfirst
        · have hsize := hordered.sizes s List.mem_cons_self
          have hnext := (List.pairwise_cons.mp hordered.apart).1 r h
          omega

/-- Mapping keeps the order. -/
theorem Ordered.place (hordered : Ordered rs) (hfree : Free rs r.lo r.hi) (hr : r.lo < r.hi) :
    Ordered (place r rs) := by
  have hsplit := below_append_above r.lo rs
  have hapart := hordered.apart
  rw [← hsplit, List.pairwise_append] at hapart
  have habove : ∀ s ∈ above r.lo rs, r.hi ≤ s.lo := fun s hs =>
    le_lo_of_mem_above hordered hfree hs
  constructor
  · intro s hs
    rcases List.mem_append.mp hs with hs | hs
    · exact hordered.sizes s (hsplit ▸ List.mem_append_left _ hs)
    · rcases List.mem_cons.mp hs with rfl | hs
      · exact hr
      · exact hordered.sizes s (hsplit ▸ List.mem_append_right _ hs)
  · refine List.pairwise_append.mpr ⟨hapart.1, List.pairwise_cons.mpr ⟨habove, hapart.2.1⟩, ?_⟩
    intro s hs t ht
    have hbelow := hi_le_of_mem_below hs
    rcases List.mem_cons.mp ht with rfl | ht
    · exact hbelow
    · have := habove t ht
      omega

end Split

/-! ## Unmapping -/

/-- The kind of the part of a region that begins some bytes behind its start. -/
class Advance (κ : Type) where
  advance : Nat → κ → κ
  advance_zero : ∀ k, advance 0 k = k

section Cut

variable [Advance κ]

/-- What is left of a region without the addresses from `lo` to `hi`. -/
def cut (lo hi : Nat) (r : Region κ) : List (Region κ) :=
  (if r.lo < lo then [{ r with hi := min r.hi lo }] else []) ++
    if hi < r.hi then
      [⟨max r.lo hi, r.hi, Advance.advance (max r.lo hi - r.lo) r.kind⟩]
    else []

def remove (lo hi : Nat) (rs : List (Region κ)) : List (Region κ) := rs.flatMap (cut lo hi)

variable {rs : List (Region κ)} {lo hi : Nat} {r : Region κ}

theorem cut_outside (hr : r.lo < r.hi) (hlt : lo < hi) (hout : r.hi ≤ lo ∨ hi ≤ r.lo) :
    cut lo hi r = [r] := by
  rcases hout with hbelow | habove
  · rw [cut, if_pos (by omega), if_neg (by omega), Nat.min_eq_left hbelow, List.append_nil]
  · rw [cut, if_neg (by omega), if_pos (by omega), Nat.max_eq_left habove, Nat.sub_self,
      Advance.advance_zero, List.nil_append]

theorem remove_outside (hordered : ∀ r ∈ rs, r.lo < r.hi) (hlt : lo < hi)
    (hfree : Free rs lo hi) : remove lo hi rs = rs := by
  induction rs with
  | nil => rfl
  | cons r rs ih =>
      have hrest := ih (fun s hs => hordered s (List.mem_cons_of_mem r hs))
        fun s hs => hfree s (List.mem_cons_of_mem r hs)
      rw [remove, List.flatMap_cons, cut_outside (hordered r List.mem_cons_self) hlt
        (hfree r List.mem_cons_self)]
      exact congrArg (r :: ·) hrest

/-- Unmapping in one region. -/
theorem remove_between {xs ys : List (Region κ)} (hxs : ∀ s ∈ xs, s.lo < s.hi)
    (hys : ∀ s ∈ ys, s.lo < s.hi) (hlt : lo < hi) (hbelow : Free xs lo hi) (habove : Free ys lo hi) :
    remove lo hi (xs ++ r :: ys) = xs ++ (cut lo hi r ++ ys) := by
  have hleft := remove_outside hxs hlt hbelow
  have hright := remove_outside hys hlt habove
  unfold remove at *
  rw [List.flatMap_append, List.flatMap_cons, hleft, hright]

/-- What is left of a region lies in it. -/
theorem mem_cut {s : Region κ} (hs : s ∈ cut lo hi r) (hr : r.lo < r.hi) :
    r.lo ≤ s.lo ∧ s.lo < s.hi ∧ s.hi ≤ r.hi := by
  rw [cut, List.mem_append] at hs
  rcases hs with hs | hs
  · split_ifs at hs with h
    · rw [List.mem_singleton.mp hs]
      change r.lo ≤ r.lo ∧ r.lo < min r.hi lo ∧ min r.hi lo ≤ r.hi
      omega
    · cases hs
  · split_ifs at hs with h
    · rw [List.mem_singleton.mp hs]
      change r.lo ≤ max r.lo hi ∧ max r.lo hi < r.hi ∧ r.hi ≤ r.hi
      omega
    · cases hs

theorem pairwise_cut (hlt : lo ≤ hi) : (cut lo hi r).Pairwise fun s t => s.hi ≤ t.lo := by
  rw [cut, List.pairwise_append]
  refine ⟨?_, ?_, ?_⟩
  · split_ifs
    · exact List.pairwise_singleton _ _
    · exact List.Pairwise.nil
  · split_ifs
    · exact List.pairwise_singleton _ _
    · exact List.Pairwise.nil
  · intro s hs t ht
    split_ifs at hs ht with h1 h2
    · rw [List.mem_singleton.mp hs, List.mem_singleton.mp ht]
      change min r.hi lo ≤ max r.lo hi
      omega
    · cases ht
    · cases hs
    · cases hs

/-- Unmapping keeps the order. -/
theorem Ordered.remove (hordered : Ordered rs) (hlt : lo ≤ hi) : Ordered (remove lo hi rs) := by
  induction rs with
  | nil => exact ⟨fun _ h => absurd h List.not_mem_nil, List.Pairwise.nil⟩
  | cons r rs ih =>
      have hr := hordered.sizes r List.mem_cons_self
      obtain ⟨hsizes, hapart⟩ := ih hordered.tail
      have hfirst := (List.pairwise_cons.mp hordered.apart).1
      rw [Regions.remove, List.flatMap_cons]
      constructor
      · intro s hs
        rcases List.mem_append.mp hs with hs | hs
        · exact (mem_cut hs hr).2.1
        · exact hsizes s hs
      · refine List.pairwise_append.mpr ⟨pairwise_cut hlt, hapart, ?_⟩
        intro s hs t ht
        obtain ⟨u, hu, htu⟩ := List.mem_flatMap.mp ht
        have hin := mem_cut hs hr
        have hin' := mem_cut htu (hordered.sizes u (List.mem_cons_of_mem r hu))
        have := hfirst u hu
        omega

end Cut

/-! ## Listing -/

section Listing

variable (same : κ → κ → Bool)

/-- A region in front of a list. -/
def join (r : Region κ) : List (Region κ) → List (Region κ)
  | [] => [r]
  | s :: rs =>
      if r.hi = s.lo ∧ same r.kind s.kind = true then { r with hi := s.hi } :: rs else r :: s :: rs

/-- The regions as they are listed. -/
def merge : List (Region κ) → List (Region κ)
  | [] => []
  | r :: rs => join same r (merge rs)

variable {same : κ → κ → Bool} {r s : Region κ} {rs xs ys : List (Region κ)} {lo hi : Nat}

/-- Listed regions begin and end where regions do. -/
theorem mem_join (h : s ∈ join same r rs) :
    (s.lo = r.lo ∨ ∃ t ∈ rs, s.lo = t.lo) ∧ (s.hi = r.hi ∨ ∃ t ∈ rs, s.hi = t.hi) := by
  cases rs with
  | nil =>
      rw [List.mem_singleton.mp h]
      exact ⟨.inl rfl, .inl rfl⟩
  | cons t rs =>
      rw [join] at h
      split_ifs at h
      · rcases List.mem_cons.mp h with rfl | h
        · exact ⟨.inl rfl, .inr ⟨t, List.mem_cons_self, rfl⟩⟩
        · have hmem := List.mem_cons_of_mem t h
          exact ⟨.inr ⟨s, hmem, rfl⟩, .inr ⟨s, hmem, rfl⟩⟩
      · rcases List.mem_cons.mp h with rfl | h
        · exact ⟨.inl rfl, .inl rfl⟩
        · exact ⟨.inr ⟨s, h, rfl⟩, .inr ⟨s, h, rfl⟩⟩

theorem mem_merge (h : s ∈ merge same rs) :
    (∃ t ∈ rs, s.lo = t.lo) ∧ ∃ t ∈ rs, s.hi = t.hi := by
  induction rs generalizing s with
  | nil => cases h
  | cons r rs ih =>
      have hcons : ∀ {P : Region κ → Prop}, (∃ t ∈ rs, P t) → ∃ t ∈ r :: rs, P t := by
        rintro P ⟨t, ht, hP⟩
        exact ⟨t, List.mem_cons_of_mem r ht, hP⟩
      obtain ⟨hlo, hhi⟩ := mem_join h
      constructor
      · rcases hlo with hlo | ⟨t, ht, hlo⟩
        · exact ⟨r, List.mem_cons_self, hlo⟩
        · rw [hlo]
          exact hcons (ih ht).1
      · rcases hhi with hhi | ⟨t, ht, hhi⟩
        · exact ⟨r, List.mem_cons_self, hhi⟩
        · rw [hhi]
          exact hcons (ih ht).2

/-- Nothing is listed as one across a gap. -/
theorem merge_append (hgap : ∀ r ∈ xs, ∀ s ∈ ys, r.hi < s.lo) :
    merge same (xs ++ ys) = merge same xs ++ merge same ys := by
  induction xs with
  | nil => rfl
  | cons r xs ih =>
      have hrest := ih fun t ht => hgap t (List.mem_cons_of_mem r ht)
      rw [List.cons_append, merge, merge, hrest]
      cases hxs : merge same xs with
      | cons s rest =>
          rw [List.cons_append, join, join]
          split_ifs
          · rfl
          · rfl
      | nil =>
          rw [List.nil_append]
          cases hys : merge same ys with
          | nil => rfl
          | cons s rest =>
              have hs : s ∈ merge same ys := hys ▸ List.mem_cons_self
              obtain ⟨⟨t, ht, hlo⟩, _⟩ := mem_merge hs
              have hlt := hgap r List.mem_cons_self t ht
              rw [join, join, if_neg (by omega)]
              rfl

theorem merge_split (hordered : Ordered rs) (hfree : Free rs lo hi) (hlt : lo < hi) :
    merge same rs = merge same (below lo rs) ++ merge same (above lo rs) := by
  conv_lhs => rw [← below_append_above lo rs]
  apply merge_append
  intro r hr s hs
  have hbelow := hi_le_of_mem_below hr
  have habove := le_lo_of_mem_above hordered hfree hs
  omega

/-- A region with a gap on both sides is listed as it is, between the others. -/
theorem merge_isolated (hordered : Ordered rs) (hfree : Free rs lo hi) (hlo : lo < r.lo)
    (hr : r.lo < r.hi) (hhi : r.hi < hi) :
    merge same (below lo rs ++ r :: above lo rs) =
      merge same (below lo rs) ++ r :: merge same (above lo rs) := by
  have hright : merge same ([r] ++ above lo rs) = [r] ++ merge same (above lo rs) := by
    apply merge_append
    intro r' hr' s hs
    rw [List.mem_singleton.mp hr']
    have habove := le_lo_of_mem_above hordered hfree hs
    omega
  have hall : merge same (below lo rs ++ ([r] ++ above lo rs)) =
      merge same (below lo rs) ++ merge same ([r] ++ above lo rs) := by
    apply merge_append
    intro s hs t ht
    have hbelow := hi_le_of_mem_below hs
    rcases List.mem_cons.mp ht with rfl | ht
    · omega
    · have habove := le_lo_of_mem_above hordered hfree ht
      omega
  rw [hright] at hall
  exact hall

end Listing

end Snitchaser.Lib.Regions
