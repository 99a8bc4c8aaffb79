import Snitchaser.Proc.Line
/-!
# The map is read back from its text

`read_maps_line` gives the mappings of a text one after another, provided that the
last of them has a name.  Behind an anonymous last line `%n` finds the end of the
string and `l` keeps whatever it held before.
-/

namespace Snitchaser.Proc.RoundTrip

open Snitchaser.Lib.Program
open Snitchaser.Proc.Entry
open Snitchaser.Proc.Line
open Snitchaser.Proc.Maps
open Snitchaser.Proc.Scanning
open Snitchaser.Proc.Text
open Snitchaser.Proc.Vsscanf

/-! ## Walking over a line -/

section Walk

variable {ptr end_ : Nat} {c : UInt8} {body mem data pre r : Str} {lineEnd : Nat}

theorem skipSpacesAndEol_word (hc : ¬ (c = 9 ∨ c = 32 ∨ c = 10)) :
    skipSpacesAndEol end_ ptr (c :: mem) = .ok ptr := by
  rw [skipSpacesAndEol, if_neg hc]

theorem nextPtr_ok (h : ptr < end_) : nextPtr ptr end_ = .ok (ptr + 1) := by
  simp [nextPtr, check, h]

theorem getEol_append (hbody : ∀ x ∈ body, Plain x) (hc : c = 10 ∨ c = 0)
    (hend : ptr + body.length ≤ end_) :
    getEol end_ ptr (body ++ c :: mem) = .ok (ptr + body.length) := by
  induction body generalizing ptr with
  | nil =>
      rw [List.nil_append, getEol, if_neg]
      · rfl
      · rintro ⟨hnewline, hnul⟩
        exact hc.elim hnewline hnul
  | cons x body ih =>
      have hx := hbody x List.mem_cons_self
      rw [List.length_cons] at hend ⊢
      have hrest : getEol end_ (ptr + 1) (body ++ c :: mem) = .ok (ptr + 1 + body.length) :=
        ih (fun y hy => hbody y (List.mem_cons_of_mem x hy)) (by omega)
      rw [List.cons_append, getEol, if_pos ⟨hx.1, hx.2.1⟩, nextPtr_ok (by omega)]
      exact hrest.trans (congrArg Except.ok (by omega))

/-! ## The name -/

theorem drop_length_append : (pre ++ r).drop pre.length = r := List.drop_left

theorem findName_word (hdata : data = pre ++ c :: r) (hblank : ¬ (c = 32 ∨ c = 9)) :
    findName data lineEnd (pre.length : Int) = nameAt data lineEnd pre.length := by
  have hskip : skipBlanks pre.length (data.drop pre.length) = .ok pre.length := by
    rw [hdata, drop_length_append, skipBlanks, if_neg hblank]
  rw [findName, if_neg (by omega), Int.toNat_natCast, hskip]
  rfl

theorem nameFrom_some (hdata : data = pre ++ r) (hnewline : peek r ≠ 10)
    (hend : pre.length < lineEnd) (hplain : 92 ∉ r.take (lineEnd - pre.length)) :
    nameFrom data lineEnd pre.length = .ok (some (r.take (lineEnd - pre.length))) := by
  rw [nameFrom, hdata, drop_length_append, if_neg hnewline, if_neg hplain, check,
    if_pos (decide_eq_true hend)]
  rfl

/-- `fn_ptr` is at the name. -/
theorem nameAt_first (hdata : data = pre ++ r) (hfirst : peek r = ch '/' ∨ peek r = ch '[')
    (hend : pre.length < lineEnd) (hplain : 92 ∉ r.take (lineEnd - pre.length)) :
    nameAt data lineEnd pre.length = .ok (some (r.take (lineEnd - pre.length))) := by
  have hnewline : peek r ≠ 10 := by
    rcases hfirst with h | h
    · rw [h]
      decide
    · rw [h]
      decide
  have hstay : ¬ (peek (data.drop pre.length) ≠ ch '/' ∧ peek (data.drop pre.length) ≠ ch '[') := by
    rw [hdata, drop_length_append]
    rintro ⟨hslash, hbracket⟩
    exact hfirst.elim hslash hbracket
  simp only [nameAt, if_neg hstay]
  exact nameFrom_some hdata hnewline hend hplain

/-- `fn_ptr` is at no name and goes back by one. -/
theorem nameAt_back (hdata : data = pre ++ c :: r) (hslash : peek r ≠ ch '/')
    (hbracket : peek r ≠ ch '[') :
    nameAt data lineEnd (pre.length + 1) = nameFrom data lineEnd pre.length := by
  have hdrop : data.drop (pre.length + 1) = r := by
    rw [hdata, ← List.drop_drop, drop_length_append]
    rfl
  have hback : ¬ pre.length + 1 = 0 := by omega
  simp only [nameAt, hdrop, if_pos (And.intro hslash hbracket), if_neg hback,
    Nat.add_sub_cancel]

end Walk

/-! ## One line -/

section OneLine

variable {uninit : Nat → Int} {before b mem digits rest data : Str} {c : UInt8}
  {mapEnd ptr len : Nat}

theorem bind_pure_map {α β : Type} (x : Except Stop α) (f : α → β) :
    (x >>= fun a => pure (f a)) = x.map f := by
  cases x <;> rfl

theorem other_of_isxdigit (h : isxdigit c = true) :
    ¬ (c = 32 ∨ c = 9) ∧ c ≠ ch '/' ∧ c ≠ ch '[' := by
  revert h
  apply forall_byte
    (p := fun c => isxdigit c = true → ¬ (c = 32 ∨ c = 9) ∧ c ≠ ch '/' ∧ c ≠ ch '[')
  decide +kernel

theorem blank_of_isxdigit (h : isxdigit c = true) : ¬ (c = 9 ∨ c = 32 ∨ c = 10) := by
  rintro (rfl | rfl | rfl)
  · cases h
  · cases h
  · cases h

/-- `read_maps_line` parses what is between `curr_ptr` and the end of the line. -/
theorem readMapsLine_eq (hfirst : isxdigit (peek b) = true) (hplain : ∀ x ∈ b, Plain x)
    (hc : c = 10 ∨ c = 0) (hend : before.length + b.length ≤ mapEnd) :
    readMapsLine uninit ⟨before ++ (b ++ c :: mem), mapEnd, before.length⟩ =
      (parseLine (uninit before.length) (before ++ (b ++ c :: mem)) before.length b.length).map
        fun entry =>
          (entry, ⟨before ++ (b ++ c :: mem), mapEnd, before.length + b.length + 1⟩) := by
  cases b with
  | nil => cases hfirst
  | cons x b =>
      have hlen : 0 < (x :: b).length := Nat.succ_pos _
      have hskip : skipSpacesAndEol mapEnd before.length (x :: b ++ c :: mem) =
          .ok before.length := skipSpacesAndEol_word (blank_of_isxdigit hfirst)
      have heol : getEol mapEnd before.length (x :: b ++ c :: mem) =
          .ok (before.length + (x :: b).length) := getEol_append hplain hc hend
      have hpos : check (decide (0 < mapEnd)) "handler->map_end > handler->map_data" = .ok () :=
        if_pos (decide_eq_true (by omega))
      simp only [readMapsLine, hpos, drop_length_append, hskip, ok_bind, heol,
        if_neg (show ¬ mapEnd ≤ before.length by omega), Nat.add_sub_cancel_left]
      exact bind_pure_map _ _

/-- A line whose offset is there, in full or in part. -/
theorem parseLine_offset {l : Int} (m : Mapping) (h : HexDigits digits rest)
    (hbuf : data.drop ptr = m.addresses ++ (digits ++ rest)) :
    parseLine l data ptr len =
      (findName data (ptr + len)
        (ptr + countOr l (countAt (data.drop ptr) (afterFields rest)))).map fun fn =>
          ⟨true, m.start, m.end_, m.prot, hexValue digits % 2 ^ 64, fn⟩ := by
  rw [parseLine, vsscanf_offset m h hbuf, ← m.protOf_perms]
  exact bind_pure_map _ _

/-- `%n` comes behind the blank after the inode. -/
theorem afterFields_attributes (m : Mapping) (x : Str) :
    afterFields (m.attributes ++ x) = skipSpaces x := by
  have hinode : decimal m.inode ≠ [] := decimal_ne_nil
  have hword : ∀ c ∈ decimal m.inode, isspace c = false ∧ c ≠ 0 :=
    fun _ hc => word_of_isxdigit (isxdigit_of_mem_decimal hc)
  have hsplit : m.attributes ++ x = 32 :: (m.device ++ 32 :: (decimal m.inode ++ 32 :: x)) := by
    simp [Mapping.attributes]
  rw [hsplit, afterFields, skipSpaces_blank m.device_ne_nil m.word_device,
    skipWord_append m.word_device (Or.inl rfl), skipSpaces_blank hinode hword,
    skipWord_append hword (Or.inl rfl), skipSpaces_cons rfl]

/-- A whole line of the text: the addresses, the protection and the offset are those
of the mapping, whatever happens to the name. -/
theorem readMapsLine_line (m : Mapping) {after : Str}
    (hend : before.length + m.line.length ≤ mapEnd) :
    readMapsLine uninit ⟨before ++ (m.line ++ after), mapEnd, before.length⟩ =
      (findName (before ++ (m.line ++ after)) (before.length + m.body.length)
        (before.length + countOr (uninit before.length)
          (countAt (m.line ++ after) (skipSpaces (m.nameField ++ 10 :: after))))).map
        fun fn => ({ m.entry with fn := fn },
          ⟨before ++ (m.line ++ after), mapEnd, (before ++ m.line).length⟩) := by
  have hline : m.line ++ after = m.body ++ 10 :: after := by simp [Mapping.line]
  have hlen : m.line.length = m.body.length + 1 := by simp [Mapping.line]
  have hfields : m.body ++ 10 :: after =
      m.addresses ++ (hex 8 m.offset ++ (m.attributes ++ (m.nameField ++ 10 :: after))) := by
    simp [Mapping.body, Mapping.fields]
  have hdigits : HexDigits (hex 8 m.offset) (m.attributes ++ (m.nameField ++ 10 :: after)) :=
    hexDigits_hex (by decide) (Or.inr (Or.inl rfl))
  have hbuf : (before ++ (m.body ++ 10 :: after)).drop before.length =
      m.addresses ++ (hex 8 m.offset ++ (m.attributes ++ (m.nameField ++ 10 :: after))) := by
    rw [drop_length_append, hfields]
  have hvalue : hexValue (hex 8 m.offset) % 2 ^ 64 = m.offset := by
    rw [hexValue_hex, Nat.mod_eq_of_lt m.offset_lt]
  rw [hline, readMapsLine_eq m.isxdigit_body m.plain_body (Or.inl rfl) (by omega),
    parseLine_offset m hdigits hbuf, hvalue, afterFields_attributes, drop_length_append,
    List.length_append, hlen, ← Nat.add_assoc]
  cases findName _ _ _ <;> rfl

/-- `%n` was stored, and counts up to `c`. -/
theorem findName_count {l : Int} {pre r t : Str} {lineEnd : Nat} (ht : t = pre ++ c :: r)
    (hzero : c ≠ 0) (hblank : ¬ (c = 32 ∨ c = 9)) :
    findName (before ++ t) lineEnd (before.length + countOr l (countAt t (c :: r))) =
      nameAt (before ++ t) lineEnd (before ++ pre).length := by
  have hcount : countAt t (c :: r) = [.count pre.length] := by
    rw [countAt, peek_cons, if_neg hzero, offsetOf, ht, List.length_append, Nat.add_sub_cancel]
  have hpos : (before.length : Int) + countOr l (countAt t (c :: r)) =
      ((before ++ pre).length : Nat) := by
    rw [hcount, List.length_append]
    rfl
  rw [hpos]
  apply findName_word (c := c) (r := r) _ hblank
  rw [ht, List.append_assoc]

theorem skipSpaces_replicate (k : Nat) (x : Str) :
    skipSpaces (List.replicate k 32 ++ x) = skipSpaces x := by
  induction k with
  | zero => rfl
  | succ k ih =>
      rw [List.replicate_succ, List.cons_append, skipSpaces_cons rfl]
      exact ih

/-- The first character of a name. -/
theorem NameOk.cons {name : Str} (h : NameOk name) : ∃ x str, name = x :: str ∧
    (x = ch '/' ∨ x = ch '[') := by
  cases name with
  | nil => exact absurd h.first (by decide)
  | cons x str => exact ⟨x, str, rfl, h.first⟩

/-- A line with a name. -/
theorem findName_named (m : Mapping) {name after : Str} {l : Int} (hname : m.name = some name) :
    findName (before ++ (m.line ++ after)) (before.length + m.body.length)
      (before.length + countOr l (countAt (m.line ++ after)
        (skipSpaces (m.nameField ++ 10 :: after)))) = .ok (some name) := by
  have hok := m.name_ok name hname
  obtain ⟨x, str, hstr, hx⟩ := NameOk.cons hok
  have hword : isspace x = false ∧ x ≠ 0 ∧ ¬ (x = 32 ∨ x = 9) := by
    rcases hx with rfl | rfl <;> decide
  have hbody : m.body = m.fields ++ m.padding ++ name := by
    simp [Mapping.body, Mapping.nameField, hname]
  have hline : m.line ++ after = m.fields ++ m.padding ++ x :: (str ++ 10 :: after) := by
    simp [Mapping.line, hbody, hstr]
  have hskip : skipSpaces (m.nameField ++ 10 :: after) = x :: (str ++ 10 :: after) := by
    have hfield : m.nameField ++ 10 :: after = m.padding ++ x :: (str ++ 10 :: after) := by
      simp [Mapping.nameField, hname, hstr]
    rw [hfield, Mapping.padding, skipSpaces_replicate]
    exact skipSpaces_of_peek hword.1
  have htake : (x :: (str ++ 10 :: after)).take
      (before.length + m.body.length - (before ++ (m.fields ++ m.padding)).length) = name := by
    have hrest : before.length + m.body.length - (before ++ (m.fields ++ m.padding)).length =
        name.length := by
      rw [hbody]
      simp only [List.length_append]
      omega
    rw [hrest, ← List.cons_append, ← hstr, List.take_left]
  have hlong : (before ++ (m.fields ++ m.padding)).length < before.length + m.body.length := by
    rw [hbody, hstr]
    simp only [List.length_append, List.length_cons]
    omega
  have hdata : before ++ (m.line ++ after) =
      before ++ (m.fields ++ m.padding) ++ x :: (str ++ 10 :: after) := by
    rw [hline, ← List.append_assoc]
  have hplain : 92 ∉ (x :: (str ++ 10 :: after)).take
      (before.length + m.body.length - (before ++ (m.fields ++ m.padding)).length) := by
    rw [htake]
    exact hok.noBackslash
  rw [hskip, findName_count hline hword.2.1 hword.2.2, nameAt_first hdata hx hlong hplain, htake]

/-- An anonymous line with a line behind it. -/
theorem findName_anonymous (m : Mapping) {y : UInt8} {after : Str} {l : Int}
    (hname : m.name = none) (hy : isxdigit y = true) :
    findName (before ++ (m.line ++ y :: after)) (before.length + m.body.length)
      (before.length + countOr l (countAt (m.line ++ y :: after)
        (skipSpaces (m.nameField ++ 10 :: y :: after)))) = .ok none := by
  have hskip : skipSpaces (m.nameField ++ 10 :: y :: after) = y :: after := by
    rw [Mapping.nameField, hname, List.nil_append, skipSpaces_cons rfl]
    exact skipSpaces_of_peek (isspace_of_isxdigit hy)
  have hdata : before ++ (m.line ++ y :: after) = before ++ m.body ++ 10 :: y :: after := by
    simp [Mapping.line]
  have hlen : (before ++ m.line).length = (before ++ m.body).length + 1 := by
    simp [Mapping.line]
    omega
  have hother : ¬ (y = 32 ∨ y = 9) ∧ y ≠ ch '/' ∧ y ≠ ch '[' := other_of_isxdigit hy
  rw [hskip, findName_count rfl (ne_zero_of_isxdigit hy) hother.1, hlen,
    nameAt_back hdata hother.2.1 hother.2.2, nameFrom, hdata, drop_length_append]
  rfl

/-- With 1 left in `l` the line itself is taken for its name. -/
theorem findName_one {x y : UInt8} {after : Str} (hx : isxdigit x = true) (hy : isxdigit y = true)
    (hplain : ∀ d ∈ x :: y :: b, Plain d) :
    findName (before ++ (x :: y :: b ++ after)) (before.length + (x :: y :: b).length)
      (before.length + 1) = .ok (some (x :: y :: b)) := by
  have hother := other_of_isxdigit hy
  have hdata : before ++ (x :: y :: b ++ after) = before ++ [x] ++ y :: (b ++ after) := by simp
  have hback : before ++ (x :: y :: b ++ after) = before ++ x :: y :: (b ++ after) := by simp
  have hpos : (before.length : Int) + 1 = ((before ++ [x]).length : Nat) := by simp
  have htake : (x :: y :: (b ++ after)).take
      (before.length + (x :: y :: b).length - before.length) = x :: y :: b := by
    rw [Nat.add_sub_cancel_left, ← List.cons_append, ← List.cons_append, List.take_left]
  have hnone : 92 ∉ (x :: y :: (b ++ after)).take
      (before.length + (x :: y :: b).length - before.length) := by
    rw [htake]
    exact fun hmem => (hplain 92 hmem).2.2 rfl
  have hlong : before.length < before.length + (x :: y :: b).length := by
    rw [List.length_cons]
    omega
  rw [hpos, findName_word hdata hother.1, List.length_append, List.length_singleton,
    nameAt_back hback hother.2.1 hother.2.2,
    nameFrom_some hback (plain_of_isxdigit hx).1 hlong hnone, htake]

/-- A line with a name, or with another line behind it. -/
theorem readMapsLine_entry (m : Mapping) {after : Str}
    (h : (∃ name, m.name = some name) ∨ isxdigit (peek after) = true)
    (hend : before.length + m.line.length ≤ mapEnd) :
    readMapsLine uninit ⟨before ++ (m.line ++ after), mapEnd, before.length⟩ =
      .ok (m.entry, ⟨before ++ (m.line ++ after), mapEnd, (before ++ m.line).length⟩) := by
  rw [readMapsLine_line m hend]
  cases hname : m.name with
  | some name =>
      rw [findName_named m hname, ← hname]
      rfl
  | none =>
      rw [hname] at h
      cases after with
      | nil => simp [isxdigit, isdigit, ch] at h
      | cons y after =>
          rw [findName_anonymous m hname (by simpa using h), ← hname]
          rfl

theorem readMapsLine_end {h : Handler} (hpos : 0 < h.mapEnd) (hend : h.mapEnd ≤ h.currPtr) :
    readMapsLine uninit h = .ok (MapsEntry.invalid, h) := by
  rw [readMapsLine, check, if_pos (decide_eq_true hpos), if_pos hend]
  rfl

/-- An anonymous last line, with 1 left in `l`. -/
theorem readMapsLine_last (m : Mapping) {z : Str} (hname : m.name = none)
    (hend : before.length + m.line.length ≤ mapEnd) :
    readMapsLine (fun _ => 1) ⟨before ++ (m.line ++ 0 :: z), mapEnd, before.length⟩ =
      .ok ({ m.entry with fn := some m.body },
        ⟨before ++ (m.line ++ 0 :: z), mapEnd, (before ++ m.line).length⟩) := by
  have hcount : countAt (m.line ++ 0 :: z) (skipSpaces (m.nameField ++ 10 :: 0 :: z)) = [] := by
    rw [Mapping.nameField, hname, List.nil_append, skipSpaces_cons rfl, skipSpaces_nul rfl]
    rfl
  obtain ⟨x, y, b, hbody, hx, hy⟩ := m.body_cons
  have hplain := m.plain_body
  have hline : m.line ++ 0 :: z = m.body ++ 10 :: 0 :: z := by simp [Mapping.line]
  have hfind : findName (before ++ (m.line ++ 0 :: z)) (before.length + m.body.length)
      (before.length + 1) = .ok (some m.body) := by
    rw [hline, hbody]
    exact findName_one hx hy (hbody ▸ hplain)
  rw [readMapsLine_line m hend, hcount]
  exact congrArg _ hfind

end OneLine

/-! ## The whole text -/

section Text

variable {ms : List Mapping} {uninit : Nat → Int} {before z : Str} {mapEnd : Nat}

theorem mapsText_cons (m : Mapping) : mapsText (m :: ms) = m.line ++ mapsText ms :=
  List.flatMap_cons

theorem length_mapsText_pos (hms : ms ≠ []) : 0 < (mapsText ms).length := by
  obtain ⟨m, ms, rfl⟩ := List.exists_cons_of_ne_nil hms
  rw [mapsText_cons, Mapping.line, List.append_assoc, List.length_append, List.length_append]
  exact Nat.add_pos_right _ (Nat.add_pos_left Nat.one_pos _)

theorem isxdigit_mapsText {m : Mapping} : isxdigit (peek (mapsText (m :: ms) ++ z)) = true := by
  obtain ⟨x, y, b, hbody, hx, _⟩ := m.body_cons
  rw [mapsText_cons, Mapping.line, hbody]
  exact hx

theorem yields_mapsText (hlast : ∀ m, ms.getLast? = some m → ∃ name, m.name = some name)
    (hend : mapEnd = (before ++ mapsText ms).length) (hpos : 0 < mapEnd) :
    Yields (readMapsLine uninit) ⟨before ++ (mapsText ms ++ 0 :: z), mapEnd, before.length⟩
      (ms.map Mapping.entry) := by
  induction ms generalizing before with
  | nil =>
      have hdone : mapEnd ≤ before.length := by simp [hend, mapsText]
      exact .done (readMapsLine_end hpos hdone) rfl
  | cons m ms ih =>
      have hline : before.length + m.line.length ≤ mapEnd := by
        rw [hend, mapsText_cons]
        simp only [List.length_append]
        omega
      have hnext : (∃ name, m.name = some name) ∨
          isxdigit (peek (mapsText ms ++ 0 :: z)) = true := by
        cases ms with
        | nil => exact Or.inl (hlast m rfl)
        | cons m' ms => exact Or.inr isxdigit_mapsText
      have hmore : Yields (readMapsLine uninit)
          ⟨before ++ m.line ++ (mapsText ms ++ 0 :: z), mapEnd, (before ++ m.line).length⟩
          (ms.map Mapping.entry) := by
        apply ih
        · intro m' hm'
          apply hlast m'
          rw [List.getLast?_cons, hm']
          rfl
        · rw [hend, mapsText_cons, List.append_assoc]
      rw [List.append_assoc] at hmore
      rw [mapsText_cons, List.append_assoc]
      exact .next (readMapsLine_entry m hnext hline) rfl hmore

/-- With an anonymous last mapping the entries depend on what `l` held. -/
theorem not_yields_mapsText {m : Mapping} (hlast : ms.getLast? = some m) (hname : m.name = none)
    (hend : mapEnd = (before ++ mapsText ms).length) :
    ¬ Yields (readMapsLine fun _ => 1)
      ⟨before ++ (mapsText ms ++ 0 :: z), mapEnd, before.length⟩ (ms.map Mapping.entry) := by
  induction ms generalizing before with
  | nil => cases hlast
  | cons m' ms ih =>
      intro hyields
      have hline : before.length + m'.line.length ≤ mapEnd := by
        rw [hend, mapsText_cons]
        simp only [List.length_append]
        omega
      rw [mapsText_cons, List.append_assoc] at hyields
      cases ms with
      | nil =>
          obtain rfl : m' = m := by simpa using hlast
          cases hyields with
          | next hread hvalid hrest =>
              rw [mapsText, List.flatMap_nil, List.nil_append,
                readMapsLine_last m' hname hline] at hread
              injection hread with hpair
              have hfn : some m'.body = m'.name := congrArg (fun p => p.1.fn) hpair
              rw [hname] at hfn
              cases hfn
      | cons m'' ms =>
          cases hyields with
          | next hread hvalid hrest =>
              rw [readMapsLine_entry m' (Or.inr isxdigit_mapsText) hline] at hread
              injection hread with hpair
              have hstate := congrArg Prod.snd hpair
              subst hstate
              rw [← List.append_assoc] at hrest
              refine ih ?_ ?_ hrest
              · rw [← hlast, List.getLast?_cons_cons]
              · rw [hend, mapsText_cons m', List.append_assoc]

/-- The text of the maps is read back, whatever `l` holds at first, just in case the
last mapping has a name. -/
theorem maps_text_round_trip (hne : ms ≠ []) (z : Str) :
    (∀ uninit, ∃ h, initMapHandler (mapsText ms ++ 0 :: z) (mapsText ms).length = .ok h ∧
      Yields (readMapsLine uninit) h (ms.map Mapping.entry)) ↔
      ∃ name, (ms.getLast hne).name = some name := by
  have hpos : 0 < (mapsText ms).length := by
    cases ms with
    | nil => exact absurd rfl hne
    | cons m ms => simp [mapsText_cons, Mapping.line]
  have hinit : initMapHandler (mapsText ms ++ 0 :: z) (mapsText ms).length =
      .ok ⟨[] ++ (mapsText ms ++ 0 :: z), (mapsText ms).length, ([] : Str).length⟩ := by
    rw [initMapHandler, check, if_pos (decide_eq_true hpos)]
    rfl
  have hlast : ms.getLast? = some (ms.getLast hne) := List.getLast?_eq_some_getLast hne
  constructor
  · intro hread
    obtain ⟨h, hh, hyields⟩ := hread fun _ => 1
    rw [hinit] at hh
    injection hh with hh
    subst hh
    cases hname : (ms.getLast hne).name with
    | some name => exact ⟨name, rfl⟩
    | none => exact absurd hyields (not_yields_mapsText hlast hname rfl)
  · intro hname uninit
    refine ⟨_, hinit, yields_mapsText ?_ rfl hpos⟩
    intro m hm
    rw [hlast] at hm
    injection hm with hm
    rw [← hm]
    exact hname

theorem offset_zero_lt : 0 < 2 ^ 64 := by decide

def anonymousMapping : Mapping where
  start := 0xB78D5000
  end_ := 0xB78D7000
  read := true
  write := true
  exec := false
  shared := false
  offset := 0
  major := 0
  minor := 0
  inode := 0
  name := none
  start_lt := by decide
  end_lt := by decide
  offset_lt := offset_zero_lt
  name_ok := by intro str h; cases h

def stackMapping : Mapping where
  start := 0xBF8A1000
  end_ := 0xBF8B6000
  read := true
  write := true
  exec := false
  shared := false
  offset := 0xFFFFFFFF00000000
  major := 0
  minor := 0
  inode := 0
  name := some (ch '[' :: "stack of 1]".toList.map ch)
  start_lt := by decide
  end_lt := by decide
  offset_lt := by decide
  name_ok := by
    intro str h
    cases h
    exact ⟨Or.inr rfl, by decide, by decide, by decide⟩

theorem maps_text_round_trip_two :
    ∃ h, initMapHandler (mapsText [anonymousMapping, stackMapping] ++ [0])
        (mapsText [anonymousMapping, stackMapping]).length = .ok h ∧
      Yields (readMapsLine fun _ => 0) h [anonymousMapping.entry, stackMapping.entry] :=
  (maps_text_round_trip (List.cons_ne_nil _ _) []).mpr ⟨_, rfl⟩ fun _ => 0

/-- The text of one anonymous mapping: its line becomes the name, or the name is
looked for in front of the buffer. -/
theorem anonymous_last_misread :
    ((readMapsLine (fun _ => 1) ⟨mapsText [anonymousMapping] ++ [0],
        (mapsText [anonymousMapping]).length, 0⟩).toOption.map fun r => r.1) =
      some { anonymousMapping.entry with fn := some anonymousMapping.body } ∧
    (readMapsLine (fun _ => 0) ⟨mapsText [anonymousMapping] ++ [0],
        (mapsText [anonymousMapping]).length, 0⟩).toOption = none := by
  decide +kernel

end Text

end Snitchaser.Proc.RoundTrip
