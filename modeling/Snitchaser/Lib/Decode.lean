import Snitchaser.Lib.LittleEndian
/-!
# Prefix decoders

A decoder takes a value off the front of a byte string.  `Reads d bs x` says
that `d` recovers `x` from the bytes `bs` whatever follows them; it composes
along `>>=`, so the round trip of a layout is assembled from the round trips of
its fields.  Two iterations are provided: `decodeStream` consumes a whole
stream, `decodeUntil` stops at the first item that ends it.
-/

namespace Snitchaser.Lib.Decode

open Snitchaser.Lib.LittleEndian

/-- Take a value off the front of a byte string, or fail. -/
abbrev Decoder (α : Type) := StateT (List UInt8) Option α

/-- The next `n` bytes. -/
def takeBytes (n : Nat) : Decoder (List UInt8) := fun bs =>
  if n ≤ bs.length then some (bs.take n, bs.drop n) else none

/-- The next `width` bytes as a little-endian number. -/
def takeLe (width : Nat) : Decoder Nat := do
  let bs ← takeBytes width
  pure (leNat bs)

/-- `d` recovers `x` from `bs`, and leaves what follows alone. -/
def Reads {α : Type} (d : Decoder α) (bs : List UInt8) (x : α) : Prop :=
  ∀ rest, d (bs ++ rest) = some (x, rest)

section Reads

variable {α β : Type}

theorem Reads.pure (x : α) : Reads (Pure.pure x) [] x := fun _ => rfl

theorem Reads.bind {d : Decoder α} {f : α → Decoder β} {bs cs : List UInt8}
    {x : α} {y : β} (hd : Reads d bs x) (hf : Reads (f x) cs y) :
    Reads (d >>= f) (bs ++ cs) y := by
  intro rest
  change (d (bs ++ cs ++ rest) >>= fun p => f p.1 p.2) = some (y, rest)
  rw [List.append_assoc, hd (cs ++ rest)]
  exact hf rest

/-- The last field of a layout: nothing is read after it. -/
theorem Reads.bind_pure {d : Decoder α} {f : α → Decoder β} {bs : List UInt8}
    {x : α} {y : β} (hd : Reads d bs x) (hf : f x = Pure.pure y) :
    Reads (d >>= f) bs y := by
  have h : Reads (f x) [] y := hf ▸ Reads.pure y
  simpa using hd.bind h

theorem reads_takeBytes {bs : List UInt8} {n : Nat} (h : bs.length = n) :
    Reads (takeBytes n) bs bs := by
  intro rest
  subst h
  simp [takeBytes]

theorem reads_takeLe {width n : Nat} (h : n < 256 ^ width) :
    Reads (takeLe width) (leBytes width n) n := by
  refine (reads_takeBytes (length_leBytes width n)).bind_pure ?_
  rw [leNat_leBytes h]

end Reads

/-! ## Iterated decoding -/

/-- Decode items until the bytes are used up.  Each item uses one unit of
`fuel`; `decodeStream` provides one for each byte. -/
def decodeMany {α : Type} (d : Decoder α) : Nat → List UInt8 → Option (List α)
  | _, [] => some []
  | 0, _ :: _ => none
  | fuel + 1, b :: bs =>
      match d (b :: bs) with
      | none => none
      | some (x, rest) => (decodeMany d fuel rest).map (x :: ·)

/-- Decode a whole byte string as a sequence of items. -/
def decodeStream {α : Type} (d : Decoder α) (bs : List UInt8) : Option (List α) :=
  decodeMany d bs.length bs

/-- Decode items up to the first one that satisfies `stop`; the result is the
items before it and the bytes after it. -/
def decodeUntil {α : Type} (stop : α → Bool) (d : Decoder α) :
    Nat → List UInt8 → Option (List α × List UInt8)
  | 0, _ => none
  | fuel + 1, bs =>
      match d bs with
      | none => none
      | some (x, rest) =>
          if stop x then some ([], rest)
          else (decodeUntil stop d fuel rest).map fun r => (x :: r.1, r.2)

section Iterated

variable {α β : Type} {d : Decoder β} {enc : α → List UInt8} {val : α → β}

theorem length_le_length_flatMap {items : List α}
    (hne : ∀ a ∈ items, enc a ≠ []) : items.length ≤ (items.flatMap enc).length := by
  induction items with
  | nil => simp
  | cons a items ih =>
      have ha : 0 < (enc a).length := List.length_pos_iff.mpr (hne a (by simp))
      have := ih fun b hb => hne b (by simp [hb])
      simp only [List.length_cons, List.flatMap_cons, List.length_append]
      omega

theorem decodeMany_flatMap {items : List α} {fuel : Nat}
    (hreads : ∀ a ∈ items, Reads d (enc a) (val a))
    (hne : ∀ a ∈ items, enc a ≠ []) (hfuel : items.length ≤ fuel) :
    decodeMany d fuel (items.flatMap enc) = some (items.map val) := by
  induction items generalizing fuel with
  | nil => cases fuel <;> rfl
  | cons a items ih =>
      obtain ⟨b, bs, hb⟩ := List.exists_cons_of_ne_nil (hne a (by simp))
      cases fuel with
      | zero => simp at hfuel
      | succ fuel =>
          have hread := hreads a (by simp) (items.flatMap enc)
          have htail : decodeMany d fuel (items.flatMap enc) = some (items.map val) :=
            ih (fun x hx => hreads x (by simp [hx])) (fun x hx => hne x (by simp [hx]))
              (by simpa using hfuel)
          rw [hb, List.cons_append] at hread
          rw [List.flatMap_cons, hb, List.cons_append, decodeMany, hread]
          simp [htail]

/-- A concatenation of encoded items decodes to the items, when every item
takes up at least one byte. -/
theorem decodeStream_flatMap {items : List α}
    (hreads : ∀ a ∈ items, Reads d (enc a) (val a))
    (hne : ∀ a ∈ items, enc a ≠ []) :
    decodeStream d (items.flatMap enc) = some (items.map val) :=
  decodeMany_flatMap hreads hne (length_le_length_flatMap hne)

/-- Items none of which ends the stream, then one that does. -/
theorem decodeUntil_flatMap {stop : β → Bool} {items : List α}
    {lastBytes rest : List UInt8} {last : β} {fuel : Nat}
    (hreads : ∀ a ∈ items, Reads d (enc a) (val a))
    (hgo : ∀ a ∈ items, stop (val a) = false)
    (hlast : Reads d lastBytes last) (hstop : stop last = true)
    (hfuel : items.length < fuel) :
    decodeUntil stop d fuel (items.flatMap enc ++ lastBytes ++ rest) =
      some (items.map val, rest) := by
  induction items generalizing fuel with
  | nil =>
      obtain ⟨fuel, rfl⟩ : ∃ k, fuel = k + 1 := ⟨fuel - 1, by simp at hfuel; omega⟩
      have h := hlast rest
      simp [decodeUntil, h, hstop]
  | cons a items ih =>
      obtain ⟨fuel, rfl⟩ : ∃ k, fuel = k + 1 := ⟨fuel - 1, by omega⟩
      have hread := hreads a (by simp) (items.flatMap enc ++ lastBytes ++ rest)
      have htail : decodeUntil stop d fuel (items.flatMap enc ++ lastBytes ++ rest) =
          some (items.map val, rest) :=
        ih (fun x hx => hreads x (by simp [hx])) (fun x hx => hgo x (by simp [hx]))
          (by simpa using hfuel)
      rw [List.flatMap_cons, List.append_assoc, List.append_assoc,
        ← List.append_assoc (items.flatMap enc), decodeUntil, hread]
      simp only [hgo a (by simp), Bool.false_eq_true, if_false, htail]
      rfl

end Iterated

end Snitchaser.Lib.Decode
