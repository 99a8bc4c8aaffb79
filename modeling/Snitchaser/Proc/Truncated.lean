import Mathlib.Data.List.Forall2
import Snitchaser.Proc.RoundTrip
/-!
# Reading a text that breaks off

`read_self_procmap` reads once and takes what it gets for the whole text.  What
`read_maps_line` makes of a beginning of the text depends on where it breaks off:
within the first 23 characters of a line `parse_line` fails its assertion, anywhere
else the lines that are there are read and the rest is not missed.
-/

namespace Snitchaser.Proc.Truncated

open Snitchaser.Lib.Program
open Snitchaser.Proc.Entry
open Snitchaser.Proc.Line
open Snitchaser.Proc.Maps
open Snitchaser.Proc.RoundTrip
open Snitchaser.Proc.Scanning
open Snitchaser.Proc.Text
open Snitchaser.Proc.Vsscanf

/-! ## Names of any kind -/

section Names

variable {data : Str} {lineEnd fnPtr : Nat} {fn : Option Str}

/-- A name is a part of the buffer. -/
theorem length_nameFrom (h : nameFrom data lineEnd fnPtr = .ok fn) :
    (fn.getD []).length ≤ data.length := by
  by_cases hnewline : peek (data.drop fnPtr) = 10
  · rw [nameFrom, if_pos hnewline] at h
    cases h
    exact Nat.zero_le _
  · rw [nameFrom, if_neg hnewline] at h
    cases hcheck : check (fnPtr < lineEnd) "ptr + len > fn_ptr" with
    | error e =>
        rw [hcheck] at h
        cases h
    | ok _ =>
        simp only [hcheck, ok_bind] at h
        split_ifs at h
        cases h
        simp only [Option.getD_some, List.length_take, List.length_drop]
        omega

theorem length_nameAt (h : nameAt data lineEnd fnPtr = .ok fn) :
    (fn.getD []).length ≤ data.length := by
  simp only [nameAt] at h
  split_ifs at h
  · exact length_nameFrom h
  · exact length_nameFrom h

theorem length_findName {pos : Int} (h : findName data lineEnd pos = .ok fn) :
    (fn.getD []).length ≤ data.length := by
  rw [findName] at h
  split_ifs at h
  cases hskip : skipBlanks pos.toNat (data.drop pos.toNat) with
  | error e =>
      rw [hskip] at h
      cases h
  | ok ptr =>
      rw [hskip] at h
      exact length_nameAt h

end Names

/-! ## Whole lines -/

section Lines

variable {uninit : Nat → Int} {before after data : Str} {mapEnd : Nat}

/-- The entry is that of the mapping, but for its name, which is no longer than `size`. -/
def Agrees (size : Nat) (m : Mapping) (r : MapsEntry) : Prop :=
  ∃ fn, r = { m.entry with fn := fn } ∧ (fn.getD []).length ≤ size

theorem readMapsLine_agrees {m : Mapping} {r : MapsEntry} {h : Handler}
    (hdata : data = before ++ (m.line ++ after)) (hend : before.length + m.line.length ≤ mapEnd)
    (hread : readMapsLine uninit ⟨data, mapEnd, before.length⟩ = .ok (r, h)) :
    Agrees data.length m r ∧ h = ⟨data, mapEnd, (before ++ m.line).length⟩ := by
  subst hdata
  rw [readMapsLine_line m hend] at hread
  cases hfind : findName _ _ _ with
  | error e =>
      rw [hfind] at hread
      cases hread
  | ok fn =>
      rw [hfind] at hread
      cases hread
      exact ⟨⟨fn, rfl, length_findName hfind⟩, rfl⟩

/-- Reading a text with whole lines in front reads these lines. -/
theorem yields_lines {ms : List Mapping} {rs : List MapsEntry}
    (hdata : data = before ++ (mapsText ms ++ after))
    (hend : (before ++ mapsText ms).length ≤ mapEnd)
    (hyields : Yields (readMapsLine uninit) ⟨data, mapEnd, before.length⟩ rs) :
    ∃ rs₁ rs₂, rs = rs₁ ++ rs₂ ∧ List.Forall₂ (Agrees data.length) ms rs₁ ∧
      Yields (readMapsLine uninit) ⟨data, mapEnd, (before ++ mapsText ms).length⟩ rs₂ := by
  induction ms generalizing before rs with
  | nil =>
      refine ⟨[], rs, rfl, .nil, ?_⟩
      rw [mapsText, List.flatMap_nil, List.append_nil]
      exact hyields
  | cons m ms ih =>
      rw [mapsText_cons] at hdata hend ⊢
      rw [List.append_assoc] at hdata
      have hline : before.length + m.line.length ≤ mapEnd := by
        simp only [List.length_append] at hend
        omega
      cases hyields with
      | done hread hinvalid =>
          obtain ⟨⟨fn, rfl, _⟩, _⟩ := readMapsLine_agrees hdata hline hread
          cases hinvalid
      | @next _ h' r rs hread hvalid hrest =>
          obtain ⟨hagrees, rfl⟩ := readMapsLine_agrees hdata hline hread
          rw [← List.append_assoc] at hdata hend ⊢
          obtain ⟨rs₁, rs₂, rfl, hforall, hyields⟩ := ih hdata hend hrest
          exact ⟨r :: rs₁, rs₂, rfl, .cons hagrees hforall, hyields⟩

theorem eq_nil_of_yields_end {rs : List MapsEntry} (hpos : 0 < mapEnd)
    (hyields : Yields (readMapsLine uninit) ⟨data, mapEnd, mapEnd⟩ rs) : rs = [] := by
  have hend : readMapsLine uninit ⟨data, mapEnd, mapEnd⟩ = .ok (MapsEntry.invalid, _) :=
    readMapsLine_end hpos le_rfl
  cases hyields with
  | done hread hinvalid => rfl
  | next hread hvalid hrest =>
      rw [hend] at hread
      cases hread
      cases hvalid

end Lines

/-! ## A line that breaks off -/

section Partial

variable {before p q t z : Str} {mapEnd : Nat} {m : Mapping}

/-- No skipping goes past the end of a string. -/
theorem dropWhile_nul (skip : UInt8 → Bool) (hnul : skip 0 = false) (p z : Str) :
    (p ++ 0 :: z).dropWhile skip = p.dropWhile skip ++ 0 :: z := by
  induction p with
  | nil => exact List.dropWhile_cons_of_neg (by simp [hnul])
  | cons c p ih =>
      by_cases hc : skip c = true
      · rw [List.cons_append, List.dropWhile_cons_of_pos hc, List.dropWhile_cons_of_pos hc, ih]
      · rw [List.cons_append, List.dropWhile_cons_of_neg hc, List.dropWhile_cons_of_neg hc]
        rfl

theorem afterFields_nul (t z : Str) : afterFields (t ++ 0 :: z) = afterFields t ++ 0 :: z := by
  simp only [afterFields, skipSpaces, skipWord, dropWhile_nul isspace rfl,
    dropWhile_nul (fun c => !isspace c && c != 0) rfl]

theorem afterFields_suffix (t : Str) : afterFields t <:+ t := by
  unfold afterFields skipSpaces skipWord
  exact (List.dropWhile_suffix _).trans <| (List.dropWhile_suffix _).trans <|
    (List.dropWhile_suffix _).trans <| (List.dropWhile_suffix _).trans (List.dropWhile_suffix _)

/-- A character of the line that is neither blank nor its first. -/
theorem nameAt_partial {c : UInt8} {pre u : Str} (hp : p = pre ++ c :: u) (hpre : pre ≠ [])
    (hplain : ∀ x ∈ p, Plain x) :
    ∃ fn, nameAt (before ++ (p ++ 0 :: z)) (before.length + p.length) (before ++ pre).length =
      .ok fn := by
  have htake : ∀ {a b : Str}, p = a ++ b →
      92 ∉ (b ++ 0 :: z).take (before.length + p.length - (before ++ a).length) := by
    intro a b hab hmem
    have hlen : before.length + p.length - (before ++ a).length = b.length := by
      rw [hab]
      simp only [List.length_append]
      omega
    rw [hlen, List.take_left] at hmem
    exact (hplain 92 (by rw [hab]; exact List.mem_append_right a hmem)).2.2 rfl
  have hdata : ∀ {a b : Str}, p = a ++ b →
      before ++ (p ++ 0 :: z) = before ++ a ++ (b ++ 0 :: z) := by
    intro a b hab
    rw [hab]
    simp
  have hlong : (before ++ pre).length < before.length + p.length := by
    rw [hp]
    simp only [List.length_append, List.length_cons]
    omega
  by_cases hfirst : c = ch '/' ∨ c = ch '['
  · exact ⟨_, nameAt_first (hdata hp) hfirst hlong (htake hp)⟩
  · rw [not_or] at hfirst
    -- The character in front of it is on the same line, so there is no newline.
    obtain ⟨pre, x, rfl⟩ : ∃ l x, pre = l ++ [x] :=
      ⟨_, _, (List.dropLast_append_getLast hpre).symm⟩
    have hp' : p = pre ++ x :: c :: u := by rw [hp]; simp
    have hx : Plain x := hplain x (by rw [hp']; simp)
    have hshort : (before ++ pre).length < before.length + p.length := by
      simp only [List.length_append] at hlong ⊢
      omega
    have hpos : (before ++ (pre ++ [x])).length = (before ++ pre).length + 1 := by
      simp only [List.length_append, List.length_singleton]
      omega
    rw [hpos, nameAt_back (hdata hp') hfirst.1 hfirst.2]
    exact ⟨_, nameFrom_some (hdata hp') hx.1 hshort (htake hp')⟩

/-- The digits of the offset that are there, and what is left of the line. -/
theorem partial_digits (hq : q ≠ [])
    (hfront : q <+: hex 8 m.offset ++ (m.attributes ++ m.nameField)) (z : Str) :
    ∃ digits t, q = digits ++ t ∧ HexDigits digits (t ++ 0 :: z) := by
  rcases prefix_append_cases hfront with hpart | ⟨t, rfl, ht⟩
  · exact ⟨q, [], (List.append_nil q).symm, hexDigits_of_isPrefix hq hpart⟩
  · refine ⟨hex 8 m.offset, t, rfl, hexDigits_hex (by decide) (Or.inr ?_)⟩
    cases t with
    | nil => exact Or.inr rfl
    | cons c t =>
        obtain ⟨r, hr⟩ := ht
        exact Or.inl (List.cons.inj hr).1

theorem findName_partial (hp : p = m.addresses ++ q) (ht : t <:+ q)
    (hplain : ∀ x ∈ p, Plain x) :
    ∃ fn, findName (before ++ (p ++ 0 :: z)) (before.length + p.length)
      (before.length + countOr 1 (countAt (p ++ 0 :: z) (afterFields (t ++ 0 :: z)))) =
        .ok fn := by
  obtain ⟨x, y, b, haddresses, hx, hy⟩ := m.addresses_cons
  rw [afterFields_nul]
  cases hu : afterFields t with
  | nil =>
      have hcons : p = x :: y :: (b ++ q) := by rw [hp, haddresses]; rfl
      rw [List.nil_append, countAt_nul rfl, hcons]
      exact ⟨_, findName_one hx hy (hcons ▸ hplain)⟩
  | cons c u =>
      obtain ⟨t₀, ht₀⟩ := (afterFields_suffix t).trans ht
      rw [hu] at ht₀
      have hsplit : p = m.addresses ++ t₀ ++ c :: u := by rw [hp, ← ht₀, List.append_assoc]
      have hne : m.addresses ++ t₀ ≠ [] := by
        rw [haddresses]
        exact List.cons_ne_nil _ _
      have hc : Plain c := hplain c (by rw [hsplit]; simp)
      have hspace : isspace c = false := by
        have hpeek := isspace_peek_skipSpaces (skipWord (skipSpaces (skipWord (skipSpaces t))))
        rwa [← afterFields, hu] at hpeek
      have hblank : ¬ (c = 32 ∨ c = 9) := by
        rintro (rfl | rfl)
        · cases hspace
        · cases hspace
      have hbuf : p ++ 0 :: z = m.addresses ++ t₀ ++ c :: (u ++ 0 :: z) := by
        rw [hsplit]
        simp
      rw [List.cons_append, findName_count hbuf hc.2.1 hblank]
      exact nameAt_partial hsplit hne hplain

/-- A line that breaks off in or behind its offset is read as if it were whole. -/
theorem readMapsLine_partial (hp : p = m.addresses ++ q) (hq : q ≠ [])
    (hfront : q <+: hex 8 m.offset ++ (m.attributes ++ m.nameField))
    (hend : before.length + p.length ≤ mapEnd) :
    ∃ offset fn, readMapsLine (fun _ => 1) ⟨before ++ (p ++ 0 :: z), mapEnd, before.length⟩ =
        .ok ({ m.entry with offset := offset, fn := fn },
          ⟨before ++ (p ++ 0 :: z), mapEnd, before.length + p.length + 1⟩) ∧
      (fn.getD []).length ≤ (before ++ (p ++ 0 :: z)).length := by
  obtain ⟨digits, t, hdigits, hhex⟩ := partial_digits hq hfront z
  have hbody : p <+: m.body := by
    rw [hp, m.body_eq]
    exact (List.prefix_append_right_inj _).mpr hfront
  have hplain : ∀ x ∈ p, Plain x := fun x hx => m.plain_body x (hbody.subset hx)
  have hfirst : isxdigit (peek p) = true := by
    obtain ⟨x, y, b, haddresses, hx, hy⟩ := m.addresses_cons
    rw [hp, haddresses]
    exact hx
  have hbuf : (before ++ (p ++ 0 :: z)).drop before.length =
      m.addresses ++ (digits ++ (t ++ 0 :: z)) := by
    rw [drop_length_append, hp, hdigits]
    simp
  have hfound : ∃ fn, findName (before ++ (p ++ 0 :: z)) (before.length + p.length)
      (before.length + countOr 1 (countAt (p ++ 0 :: z) (afterFields (t ++ 0 :: z)))) = .ok fn :=
    findName_partial hp ⟨digits, hdigits.symm⟩ hplain
  obtain ⟨fn, hfind⟩ := hfound
  refine ⟨hexValue digits % 2 ^ 64, fn, ?_, length_findName hfind⟩
  rw [readMapsLine_eq hfirst hplain (Or.inr rfl) hend, parseLine_offset m hhex hbuf,
    drop_length_append, hfind]
  rfl

/-- A line that breaks off before its offset fails the assertion on `err`. -/
theorem readMapsLine_early {uninit : Nat → Int} (hp : p ≠ []) (hfront : p <+: m.addresses)
    (hend : before.length + p.length ≤ mapEnd) :
    readMapsLine uninit ⟨before ++ (p ++ 0 :: z), mapEnd, before.length⟩ =
      .error (.assertion "err == 4") := by
  have hbody : p <+: m.body := by
    rw [m.body_eq]
    exact hfront.trans (List.prefix_append _ _)
  have hplain : ∀ x ∈ p, Plain x := fun x hx => m.plain_body x (hbody.subset hx)
  have hfirst : isxdigit (peek p) = true := by
    obtain ⟨x, y, b, haddresses, hx, hy⟩ := m.addresses_cons
    cases p with
    | nil => exact absurd rfl hp
    | cons c p =>
        obtain ⟨r, hr⟩ := hfront
        rw [haddresses] at hr
        rw [peek_cons, (List.cons.inj hr).1]
        exact hx
  obtain ⟨r, hscan, hnum⟩ := vsscanf_truncated (z := z) m hp hfront
  have hfew : check (decide (r.1 = 4)) "err == 4" = .error (.assertion "err == 4") :=
    if_neg (by simpa using (show r.1 ≠ 4 by omega))
  rw [readMapsLine_eq hfirst hplain (Or.inr rfl) hend, parseLine, drop_length_append, hscan,
    ok_bind, hfew]
  rfl

end Partial

/-! ## Where the text breaks off -/

section Cut

variable {ms : List Mapping} {before after data z : Str} {n mapEnd : Nat}

/-- The entry is that of the mapping, but for its name and its offset. -/
def Resembles (size : Nat) (m : Mapping) (r : MapsEntry) : Prop :=
  ∃ offset fn, r = { m.entry with offset := offset, fn := fn } ∧ (fn.getD []).length ≤ size

/-- The first `n` characters end within the first 23 characters of a line. -/
def CutEarly (ms : List Mapping) (n : Nat) : Prop :=
  ∃ done m rest p, ms = done ++ m :: rest ∧ (mapsText ms).take n = mapsText done ++ p ∧
    p ≠ [] ∧ p <+: m.addresses

/-- A beginning of the text is some lines and a beginning of the next. -/
theorem take_mapsText (hlt : n < (mapsText ms).length) :
    ∃ done m rest p, ms = done ++ m :: rest ∧ (mapsText ms).take n = mapsText done ++ p ∧
      p <+: m.body := by
  induction ms generalizing n with
  | nil => exact absurd hlt (Nat.not_lt_zero n)
  | cons m ms ih =>
      rw [mapsText_cons] at hlt ⊢
      have hline : m.line.length = m.body.length + 1 := by simp [Mapping.line]
      by_cases hn : n < m.line.length
      · refine ⟨[], m, ms, m.body.take n, rfl, ?_, List.take_prefix _ _⟩
        rw [List.take_append_of_le_length hn.le, Mapping.line,
          List.take_append_of_le_length (by omega)]
        rfl
      · have hrest : n - m.line.length < (mapsText ms).length := by
          rw [List.length_append] at hlt
          omega
        obtain ⟨done, m', rest, p, rfl, htake, hp⟩ := ih hrest
        refine ⟨m :: done, m', rest, p, rfl, ?_, hp⟩
        rw [List.take_append, List.take_of_length_le (by omega), htake, mapsText_cons,
          List.append_assoc]

/-- With 1 left in `l` every line can be read. -/
theorem readMapsLine_one (m : Mapping) (hafter : isxdigit (peek after) = true ∨ ∃ z, after = 0 :: z)
    (hend : before.length + m.line.length ≤ mapEnd) :
    ∃ r h, readMapsLine (fun _ => 1) ⟨before ++ (m.line ++ after), mapEnd, before.length⟩ =
      .ok (r, h) := by
  cases hname : m.name with
  | some name => exact ⟨_, _, readMapsLine_entry m (Or.inl ⟨name, hname⟩) hend⟩
  | none =>
      rcases hafter with hdigit | ⟨z, rfl⟩
      · exact ⟨_, _, readMapsLine_entry m (Or.inr hdigit) hend⟩
      · exact ⟨_, _, readMapsLine_last m hname hend⟩

theorem exists_yields_lines {rs₂ : List MapsEntry}
    (hafter : isxdigit (peek after) = true ∨ ∃ z, after = 0 :: z)
    (hdata : data = before ++ (mapsText ms ++ after))
    (hend : (before ++ mapsText ms).length ≤ mapEnd)
    (hrest : Yields (readMapsLine fun _ => 1) ⟨data, mapEnd, (before ++ mapsText ms).length⟩ rs₂) :
    ∃ rs₁, Yields (readMapsLine fun _ => 1) ⟨data, mapEnd, before.length⟩ (rs₁ ++ rs₂) ∧
      List.Forall₂ (Agrees data.length) ms rs₁ := by
  induction ms generalizing before with
  | nil =>
      rw [mapsText, List.flatMap_nil, List.append_nil] at hrest
      exact ⟨[], hrest, .nil⟩
  | cons m ms ih =>
      rw [mapsText_cons] at hdata hend hrest
      rw [List.append_assoc] at hdata
      have hline : before.length + m.line.length ≤ mapEnd := by
        simp only [List.length_append] at hend
        omega
      have hnext : isxdigit (peek (mapsText ms ++ after)) = true ∨
          ∃ z, mapsText ms ++ after = 0 :: z := by
        cases ms with
        | nil => exact hafter
        | cons m' ms => exact Or.inl isxdigit_mapsText
      have hone : ∃ r h, readMapsLine (fun _ => 1) ⟨data, mapEnd, before.length⟩ =
          .ok (r, h) := by
        rw [hdata]
        exact readMapsLine_one m hnext hline
      obtain ⟨r, h, hread⟩ := hone
      obtain ⟨hagrees, rfl⟩ := readMapsLine_agrees hdata hline hread
      rw [← List.append_assoc] at hdata hend hrest
      obtain ⟨rs₁, hyields, hforall⟩ := ih hdata hend hrest
      have hvalid : r.valid = true := by
        obtain ⟨fn, rfl, _⟩ := hagrees
        rfl
      exact ⟨r :: rs₁, .next hread hvalid hyields, .cons hagrees hforall⟩

theorem exists_of_forall₂ {α β : Type} {R : α → β → Prop} {as : List α} {bs : List β}
    (h : List.Forall₂ R as bs) {b : β} (hb : b ∈ bs) : ∃ a ∈ as, R a b := by
  induction h with
  | nil => cases hb
  | cons hab _ ih =>
      rcases List.mem_cons.mp hb with rfl | hb
      · exact ⟨_, List.mem_cons_self, hab⟩
      · obtain ⟨a, ha, hR⟩ := ih hb
        exact ⟨a, List.mem_cons_of_mem _ ha, hR⟩

theorem Agrees.resembles {size : Nat} {m : Mapping} {r : MapsEntry} (h : Agrees size m r) :
    Resembles size m r := by
  obtain ⟨fn, rfl, hlen⟩ := h
  exact ⟨m.offset, fn, rfl, hlen⟩

/-- Whatever `l` holds, the whole text gives all mappings or no result. -/
theorem agrees_of_yields {uninit : Nat → Int} {rs : List MapsEntry}
    (hpos : 0 < (mapsText ms).length)
    (hyields : Yields (readMapsLine uninit) ⟨mapsText ms ++ 0 :: z, (mapsText ms).length, 0⟩ rs) :
    List.Forall₂ (Agrees (mapsText ms ++ 0 :: z).length) ms rs := by
  obtain ⟨rs₁, rs₂, rfl, hforall, hend⟩ :=
    yields_lines (List.nil_append _).symm le_rfl hyields
  rw [eq_nil_of_yields_end hpos hend, List.append_nil]
  exact hforall

theorem not_yields_cutEarly {uninit : Nat → Int} {rs : List MapsEntry}
    (hle : n ≤ (mapsText ms).length) (hcut : CutEarly ms n) :
    ¬ Yields (readMapsLine uninit) ⟨(mapsText ms).take n ++ 0 :: z, n, 0⟩ rs := by
  intro hyields
  obtain ⟨done, m, rest, p, rfl, htake, hp, hfront⟩ := hcut
  have hlen : n = (mapsText done).length + p.length := by
    rw [← List.length_append, ← htake, List.length_take_of_le hle]
  have hdata : (mapsText (done ++ m :: rest)).take n ++ 0 :: z =
      mapsText done ++ (p ++ 0 :: z) := by
    rw [htake, List.append_assoc]
  rw [hdata] at hyields
  obtain ⟨rs₁, rs₂, rfl, _, hyields⟩ :=
    yields_lines (List.nil_append _).symm (by rw [List.nil_append]; omega) hyields
  have herror : readMapsLine uninit ⟨mapsText done ++ (p ++ 0 :: z), n, (mapsText done).length⟩ =
      .error (.assertion "err == 4") := readMapsLine_early hp hfront hlen.ge
  cases hyields with
  | done hread hinvalid =>
      rw [List.nil_append, herror] at hread
      cases hread
  | next hread hvalid hrest =>
      rw [List.nil_append, herror] at hread
      cases hread

/-- What follows the whole lines of a text that does not break off early. -/
theorem exists_yields_rest {p : Str} {m : Mapping} (hmapEnd : mapEnd = before.length + p.length)
    (hpos : 0 < mapEnd)
    (hp : p = [] ∨ ∃ q, q ≠ [] ∧ p = m.addresses ++ q ∧
      q <+: hex 8 m.offset ++ (m.attributes ++ m.nameField)) :
    ∃ rs, Yields (readMapsLine fun _ => 1) ⟨before ++ (p ++ 0 :: z), mapEnd, before.length⟩ rs ∧
      ∀ r ∈ rs, Resembles (before ++ (p ++ 0 :: z)).length m r := by
  rcases hp with rfl | ⟨q, hq, hp, hfront⟩
  · refine ⟨[], .done (readMapsLine_end hpos hmapEnd.le) rfl, ?_⟩
    intro r hr
    cases hr
  · obtain ⟨offset, fn, hread, hlen⟩ := readMapsLine_partial (z := z) hp hq hfront hmapEnd.ge
    have hdone : mapEnd ≤ before.length + p.length + 1 := by omega
    refine ⟨_, .next hread rfl (.done (readMapsLine_end hpos hdone) rfl), ?_⟩
    intro r hr
    obtain rfl := List.mem_singleton.mp hr
    exact ⟨offset, fn, rfl, hlen⟩

theorem partial_of_not_cutEarly {done rest : List Mapping} {m : Mapping} {p : Str}
    (hms : ms = done ++ m :: rest) (htake : (mapsText ms).take n = mapsText done ++ p)
    (hp : p <+: m.body) (hcut : ¬ CutEarly ms n) :
    p = [] ∨ ∃ q, q ≠ [] ∧ p = m.addresses ++ q ∧
      q <+: hex 8 m.offset ++ (m.attributes ++ m.nameField) := by
  by_cases hnil : p = []
  · exact Or.inl hnil
  · right
    rw [m.body_eq] at hp
    rcases prefix_append_cases hp with hearly | ⟨q, hq, hfront⟩
    · exact absurd ⟨done, m, rest, p, hms, htake, hnil, hearly⟩ hcut
    · refine ⟨q, ?_, hq, hfront⟩
      rintro rfl
      rw [List.append_nil] at hq
      exact hcut ⟨done, m, rest, p, hms, htake, hnil, hq ▸ List.prefix_refl _⟩

/-- A beginning of the text that does not break off early is read to its end. -/
theorem exists_yields_cut (hpos : 0 < n) (hlt : n < (mapsText ms).length)
    (hcut : ¬ CutEarly ms n) :
    ∃ rs, Yields (readMapsLine fun _ => 1) ⟨(mapsText ms).take n ++ 0 :: z, n, 0⟩ rs ∧
      ∀ r ∈ rs, ∃ m ∈ ms, Resembles ((mapsText ms).take n ++ 0 :: z).length m r := by
  obtain ⟨done, m, rest, p, hms, htake, hp⟩ := take_mapsText hlt
  have hpartial := partial_of_not_cutEarly hms htake hp hcut
  have hlen : n = (mapsText done).length + p.length := by
    rw [← List.length_append, ← htake, List.length_take_of_le hlt.le]
  have hafter : isxdigit (peek (p ++ 0 :: z)) = true ∨ ∃ z', p ++ 0 :: z = 0 :: z' := by
    rcases hpartial with rfl | ⟨q, _, rfl, _⟩
    · exact Or.inr ⟨z, rfl⟩
    · obtain ⟨x, y, b, haddresses, hx, _⟩ := m.addresses_cons
      rw [haddresses]
      exact Or.inl hx
  obtain ⟨rs₂, hrest, hresembles⟩ := exists_yields_rest (z := z) hlen hpos hpartial
  have hdata : (mapsText ms).take n ++ 0 :: z = mapsText done ++ (p ++ 0 :: z) := by
    rw [htake, List.append_assoc]
  rw [hdata]
  obtain ⟨rs₁, hyields, hforall⟩ := exists_yields_lines hafter
    (List.nil_append _).symm (by rw [List.nil_append]; omega) hrest
  refine ⟨rs₁ ++ rs₂, hyields, ?_⟩
  intro r hr
  rcases List.mem_append.mp hr with hr | hr
  · obtain ⟨m', hm', hagrees⟩ := exists_of_forall₂ hforall hr
    exact ⟨m', by rw [hms]; exact List.mem_append_left _ hm', hagrees.resembles⟩
  · exact ⟨m, by rw [hms]; simp, hresembles r hr⟩

end Cut

end Snitchaser.Proc.Truncated
