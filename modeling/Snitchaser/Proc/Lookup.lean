import Snitchaser.Proc.RoundTrip
/-!
# Searching the memory map

`find_in_map_by_addr` and `find_in_map_by_fn` read lines until one fits.  The first
always begins at the start of the text, the second there or where the last search has
stopped: right behind a hit, or at the end.

Each call has its own stack, so what the local `l` of `parse_line` holds at first may
differ from call to call.
-/

namespace Snitchaser.Proc.Lookup

open Snitchaser.Lib.Program
open Snitchaser.Proc.Entry
open Snitchaser.Proc.Maps
open Snitchaser.Proc.RoundTrip
open Snitchaser.Proc.Text
open Snitchaser.Proc.Vsscanf

/-! ## The code -/

def resetMapHandler (h : Handler) : Handler := { h with currPtr := 0 }

/-- The loop of both searches.  Each line takes up some of the text, so a unit of fuel
more than it has bytes is enough. -/
def searchLoop (uninit : Nat → Int) (test : MapsEntry → Except Stop Bool) :
    Nat → Handler → Except Stop (MapsEntry × Handler)
  | 0, _ => .error .fuel
  | fuel + 1, h => do
      let line ← readMapsLine uninit h
      if line.1.valid then
        let hit ← test line.1
        if hit then pure line else searchLoop uninit test fuel line.2
      else
        pure (MapsEntry.invalid, line.2)

/-- The test of `find_in_map_by_fn`: the lengths, then `memcmp`. -/
def fnTest (fn : List UInt8) (entry : MapsEntry) : Except Stop Bool :=
  match entry.fn with
  | none => .ok false
  | some name => do
      check (name.length ≠ 0) "entry.fn_len != 0"
      pure (name.length == fn.length && name == fn)

def addrTest (p : Nat) (entry : MapsEntry) : Except Stop Bool :=
  .ok (decide (entry.start ≤ p) && decide (p < entry.end_))

def findInMapByFn (uninit : Nat → Int) (h : Handler) (fn : List UInt8) (reset : Bool) :
    Except Stop (MapsEntry × Handler) :=
  let h := if reset then resetMapHandler h else h
  searchLoop uninit (fnTest fn) (h.mapEnd + 1) h

def findInMapByAddr (uninit : Nat → Int) (h : Handler) (addr : Nat) :
    Except Stop (MapsEntry × Handler) :=
  searchLoop uninit (addrTest addr) (h.mapEnd + 1) (resetMapHandler h)

/-! ## One line -/

section OneLine

variable {uninit uninit' : Nat → Int} {h h' h'' : Handler} {r r' : MapsEntry}

theorem le_of_skipSpacesAndEol {end_ ptr p : Nat} {mem : Str}
    (hskip : skipSpacesAndEol end_ ptr mem = .ok p) : ptr ≤ p := by
  induction mem generalizing ptr with
  | nil => cases hskip
  | cons c mem ih =>
      rw [skipSpacesAndEol] at hskip
      split at hskip
      case isTrue =>
        obtain ⟨q, hq, hrest⟩ := except_bind_ok_iff.mp hskip
        obtain ⟨_, _, hpure⟩ := except_bind_ok_iff.mp hq
        cases hpure
        have hle := ih hrest
        omega
      case isFalse =>
        cases hskip
        exact Nat.le_refl _

theorem le_of_getEol {end_ ptr p : Nat} {mem : Str} (heol : getEol end_ ptr mem = .ok p) :
    ptr ≤ p := by
  induction mem generalizing ptr with
  | nil => cases heol
  | cons c mem ih =>
      rw [getEol] at heol
      split at heol
      case isTrue =>
        obtain ⟨q, hq, hrest⟩ := except_bind_ok_iff.mp heol
        obtain ⟨_, _, hpure⟩ := except_bind_ok_iff.mp hq
        cases hpure
        have hle := ih hrest
        omega
      case isFalse =>
        cases heol
        exact Nat.le_refl _

theorem nonempty_nameFrom {data name : Str} {lineEnd fnPtr : Nat} (hin : fnPtr < data.length)
    (hname : nameFrom data lineEnd fnPtr = .ok (some name)) : name.length ≠ 0 := by
  rw [nameFrom] at hname
  split at hname
  case isTrue => cases hname
  case isFalse =>
    obtain ⟨_, hcheck, hrest⟩ := except_bind_ok_iff.mp hname
    rw [check] at hcheck
    split at hcheck
    case isFalse => cases hcheck
    case isTrue hlt =>
      have hend : fnPtr < lineEnd := of_decide_eq_true hlt
      simp only at hrest
      split at hrest
      case isTrue => cases hrest
      case isFalse =>
        cases hrest
        rw [List.length_take, List.length_drop]
        omega

theorem lt_of_skipBlanks {ptr p : Nat} {mem : Str} (hskip : skipBlanks ptr mem = .ok p) :
    p < ptr + mem.length := by
  induction mem generalizing ptr with
  | nil => cases hskip
  | cons c mem ih =>
      rw [skipBlanks] at hskip
      split at hskip
      case isTrue =>
        have hlt := ih hskip
        rw [List.length_cons]
        omega
      case isFalse =>
        cases hskip
        rw [List.length_cons]
        omega

theorem nonempty_findName {data name : Str} {lineEnd : Nat} {fnPtr : Int}
    (hname : findName data lineEnd fnPtr = .ok (some name)) : name.length ≠ 0 := by
  rw [findName] at hname
  split at hname
  case isTrue => cases hname
  case isFalse =>
    obtain ⟨p, hskip, hat⟩ := except_bind_ok_iff.mp hname
    have hlt : p < data.length := by
      have hin := lt_of_skipBlanks hskip
      have hpos : (data.drop fnPtr.toNat).length ≠ 0 := by
        intro hzero
        rw [List.length_eq_zero_iff.mp hzero] at hskip
        cases hskip
      rw [List.length_drop] at hin hpos
      omega
    rw [nameAt] at hat
    split at hat
    case isTrue =>
      split at hat
      case isTrue => cases hat
      case isFalse => exact nonempty_nameFrom (by omega) hat
    case isFalse => exact nonempty_nameFrom hlt hat

theorem parseLine_ok {l : Int} {data : Str} {ptr len : Nat}
    (hparse : parseLine l data ptr len = .ok r) :
    r.valid = true ∧ ∀ name, r.fn = some name → name.length ≠ 0 := by
  rw [parseLine] at hparse
  obtain ⟨scan, _, hrest⟩ := except_bind_ok_iff.mp hparse
  obtain ⟨_, _, hrest⟩ := except_bind_ok_iff.mp hrest
  split at hrest
  case h_1 =>
    obtain ⟨fn, hfn, hpure⟩ := except_bind_ok_iff.mp hrest
    cases hpure
    refine ⟨rfl, ?_⟩
    rintro name rfl
    exact nonempty_findName hfn
  case h_2 => cases hrest

/-- All that reading a line can do. -/
theorem readMapsLine_cases (hread : readMapsLine uninit h = .ok (r, h')) :
    (h.mapEnd ≤ h.currPtr ∧ r = MapsEntry.invalid ∧ h' = h) ∨
      h.currPtr < h.mapEnd ∧ r.valid = true ∧ (∀ name, r.fn = some name → name.length ≠ 0) ∧
        ∃ ptr eol, skipSpacesAndEol h.mapEnd h.currPtr (h.data.drop h.currPtr) = .ok ptr ∧
          getEol h.mapEnd ptr (h.data.drop ptr) = .ok eol ∧
          h' = { h with currPtr := eol + 1 } := by
  rw [readMapsLine] at hread
  obtain ⟨_, _, hrest⟩ := except_bind_ok_iff.mp hread
  split at hrest
  case isTrue hend =>
    cases hrest
    exact .inl ⟨hend, rfl, rfl⟩
  case isFalse hmore =>
    obtain ⟨ptr, hskip, hrest⟩ := except_bind_ok_iff.mp hrest
    obtain ⟨eol, heol, hrest⟩ := except_bind_ok_iff.mp hrest
    obtain ⟨entry, hparse, hpure⟩ := except_bind_ok_iff.mp hrest
    cases hpure
    obtain ⟨hvalid, hname⟩ := parseLine_ok hparse
    exact .inr ⟨by omega, hvalid, hname, ptr, eol, hskip, heol, rfl⟩

/-- Where a line ends does not depend on `l`. -/
theorem readMapsLine_next (hread : readMapsLine uninit h = .ok (r, h'))
    (hread' : readMapsLine uninit' h = .ok (r', h'')) : h' = h'' := by
  rcases readMapsLine_cases hread with ⟨hend, _, rfl⟩ | ⟨hlt, _, _, ptr, eol, hskip, heol, rfl⟩
  · rcases readMapsLine_cases hread' with ⟨_, _, rfl⟩ | ⟨hlt, _⟩
    · rfl
    · omega
  · rcases readMapsLine_cases hread' with ⟨hend, _⟩ | ⟨_, _, _, ptr', eol', hskip', heol', rfl⟩
    · omega
    · rw [hskip] at hskip'
      cases hskip'
      rw [heol] at heol'
      cases heol'
      rfl

theorem readMapsLine_advances (hread : readMapsLine uninit h = .ok (r, h'))
    (hvalid : r.valid = true) :
    h.currPtr < h.mapEnd ∧ h.currPtr < h'.currPtr ∧ h'.mapEnd = h.mapEnd := by
  rcases readMapsLine_cases hread with ⟨_, rfl, _⟩ | ⟨hlt, _, _, ptr, eol, hskip, heol, rfl⟩
  · cases hvalid
  · have hle := le_of_skipSpacesAndEol hskip
    have hle' := le_of_getEol heol
    exact ⟨hlt, by change h.currPtr < eol + 1; omega, rfl⟩

end OneLine

/-! ## One search -/

section Search

variable {us : Nat → Nat → Int} {h : Handler} {e : MapsEntry} {es : List MapsEntry}
  {test : MapsEntry → Except Stop Bool} {p : MapsEntry → Bool} {fuel : Nat}

/-- What the parser says of the entries it makes. -/
def Parsed (e : MapsEntry) : Prop := e.valid = true ∧ ∀ name, e.fn = some name → name.length ≠ 0

theorem yields_next (hyields : ∀ j, Yields (readMapsLine (us j)) h (e :: es)) (i : Nat) :
    ∃ h', readMapsLine (us i) h = .ok (e, h') ∧ Parsed e ∧
      ∀ j, Yields (readMapsLine (us j)) h' es := by
  cases hyields i with
  | next hread hvalid _ =>
      refine ⟨_, hread, ?_, ?_⟩
      · rcases readMapsLine_cases hread with ⟨_, rfl, _⟩ | ⟨_, _, hname, _⟩
        · cases hvalid
        · exact ⟨hvalid, hname⟩
      · intro j
        cases hyields j with
        | next hread' _ hrest =>
            rw [readMapsLine_next hread hread']
            exact hrest

/-- Reading at the end of the text stays there. -/
theorem readMapsLine_done {uninit : Nat → Int} (hyields : Yields (readMapsLine uninit) h []) :
    ∃ r, readMapsLine uninit h = .ok (r, h) ∧ r.valid = false := by
  cases hyields with
  | done hread hinvalid =>
      rcases readMapsLine_cases hread with ⟨_, _, rfl⟩ | ⟨_, hvalid, _⟩
      · exact ⟨_, hread, hinvalid⟩
      · rw [hinvalid] at hvalid
        cases hvalid

theorem searchLoop_line {uninit : Nat → Int} {h' : Handler} {hit : Bool}
    (hread : readMapsLine uninit h = .ok (e, h')) (hvalid : e.valid = true)
    (htest : test e = .ok hit) :
    searchLoop uninit test (fuel + 1) h =
      if hit then .ok (e, h') else searchLoop uninit test fuel h' := by
  simp only [searchLoop, hread, bind, Except.bind, hvalid, htest]
  rfl

/-- A search gives the first entry that fits, and stops where the others that fit are
still to come. -/
theorem searchLoop_eq (htest : ∀ e, Parsed e → test e = .ok (p e))
    (hyields : ∀ j, Yields (readMapsLine (us j)) h es) (hfuel : h.mapEnd - h.currPtr < fuel)
    (i : Nat) :
    ∃ h' rest, searchLoop (us i) test fuel h =
        .ok ((es.filter p).head?.getD MapsEntry.invalid, h') ∧
      (∀ j, Yields (readMapsLine (us j)) h' rest) ∧ rest.filter p = (es.filter p).tail := by
  induction es generalizing h fuel with
  | nil =>
      obtain ⟨r, hread, hinvalid⟩ := readMapsLine_done (hyields i)
      cases fuel with
      | zero => cases hfuel
      | succ fuel =>
          refine ⟨h, [], ?_, hyields, rfl⟩
          simp only [searchLoop, hread, bind, Except.bind, hinvalid]
          rfl
  | cons e es ih =>
      obtain ⟨h', hread, hparsed, hrest⟩ := yields_next hyields i
      cases fuel with
      | zero => cases hfuel
      | succ fuel =>
          rw [searchLoop_line hread hparsed.1 (htest e hparsed)]
          cases hit : p e with
          | true =>
              rw [List.filter_cons_of_pos hit]
              exact ⟨h', es, rfl, hrest, rfl⟩
          | false =>
              rw [List.filter_cons_of_neg (by simp [hit])]
              obtain ⟨hlt, hnext, hend⟩ := readMapsLine_advances hread hparsed.1
              exact ih hrest (by omega)

theorem addrTest_eq (addr : Nat) (e : MapsEntry) :
    addrTest addr e = .ok (decide (e.start ≤ addr ∧ addr < e.end_)) := by
  rw [addrTest, Bool.decide_and]

theorem fnTest_eq {fn : List UInt8} (hparsed : Parsed e) :
    fnTest fn e = .ok (decide (e.fn = some fn)) := by
  cases hname : e.fn with
  | none => simp [fnTest, hname]
  | some name =>
      have hpos : check (decide (name.length ≠ 0)) "entry.fn_len != 0" = .ok () :=
        if_pos (decide_eq_true (hparsed.2 name hname))
      have hsame : (name.length == fn.length && name == fn) = decide (some name = some fn) := by
        rw [Bool.eq_iff_iff]
        simp only [Bool.and_eq_true, beq_iff_eq, decide_eq_true_eq, Option.some.injEq]
        constructor
        · exact And.right
        · rintro rfl
          exact ⟨rfl, rfl⟩
      simp only [fnTest, hname]
      rw [hpos, ← hsame]
      rfl

end Search

/-! ## The lookups -/

section Lookups

variable {us : Nat → Nat → Int} {h h₀ : Handler} {es : List MapsEntry} {fn : List UInt8}

/-- The first entry with the address. -/
theorem findInMapByAddr_eq (addr : Nat)
    (hyields : ∀ j, Yields (readMapsLine (us j)) (resetMapHandler h) es) (i : Nat) :
    ∃ h', findInMapByAddr (us i) h addr =
      .ok ((es.find? fun e => e.start ≤ addr ∧ addr < e.end_).getD MapsEntry.invalid, h') := by
  obtain ⟨h', _, hcall, _⟩ :=
    searchLoop_eq (fun e _ => addrTest_eq addr e) hyields (Nat.lt_succ_of_le (Nat.sub_le _ _)) i
  rw [List.head?_filter] at hcall
  exact ⟨h', hcall⟩

theorem findInMapByFn_eq (h : Handler) (fn : List UInt8) (reset : Bool)
    (hyields : ∀ j, Yields (readMapsLine (us j)) (if reset then resetMapHandler h else h) es)
    (i : Nat) :
    ∃ h' rest, findInMapByFn (us i) h fn reset =
        .ok ((es.filter fun e => e.fn = some fn).head?.getD MapsEntry.invalid, h') ∧
      (∀ j, Yields (readMapsLine (us j)) h' rest) ∧
      (rest.filter fun e => e.fn = some fn) = (es.filter fun e => e.fn = some fn).tail :=
  searchLoop_eq (fun _ => fnTest_eq) hyields (by omega) i

/-- A search for a name from the start and then on from where the last one stopped; the
`i`-th call has `us i` on its stack. -/
def fnCalls (us : Nat → Nat → Int) (h : Handler) (fn : List UInt8) :
    Nat → Except Stop (MapsEntry × Handler)
  | 0 => findInMapByFn (us 0) h fn true
  | i + 1 => do
      let last ← fnCalls us h fn i
      findInMapByFn (us (i + 1)) last.2 fn false

theorem fnCalls_eq (hyields : ∀ j, Yields (readMapsLine (us j)) (resetMapHandler h₀) es)
    (i : Nat) :
    ∃ h rest, fnCalls us h₀ fn i =
        .ok (((es.filter fun e => e.fn = some fn)[i]?).getD MapsEntry.invalid, h) ∧
      (∀ j, Yields (readMapsLine (us j)) h rest) ∧
      (rest.filter fun e => e.fn = some fn) = (es.filter fun e => e.fn = some fn).drop (i + 1) := by
  induction i with
  | zero =>
      obtain ⟨h, rest, hcall, hrest, hleft⟩ := findInMapByFn_eq h₀ fn true hyields 0
      rw [List.head?_eq_getElem?] at hcall
      exact ⟨h, rest, hcall, hrest, hleft.trans (List.drop_one).symm⟩
  | succ i ih =>
      obtain ⟨h, rest, hlast, hrest, hleft⟩ := ih
      obtain ⟨h', rest', hcall, hrest', hleft'⟩ := findInMapByFn_eq h fn false hrest (i + 1)
      rw [hleft, List.head?_drop] at hcall
      rw [hleft, List.tail_drop] at hleft'
      refine ⟨h', rest', ?_, hrest', hleft'⟩
      rw [fnCalls, hlast]
      exact hcall

theorem valid_of_yields {uninit : Nat → Int} (hyields : Yields (readMapsLine uninit) h es) :
    ∀ e ∈ es, e.valid = true := by
  induction hyields with
  | done => simp
  | next _ hvalid _ ih =>
      intro e he
      rcases List.mem_cons.mp he with rfl | he
      · exact hvalid
      · exact ih e he

theorem invalid_find_iff {p : MapsEntry → Bool} (hvalid : ∀ e ∈ es, e.valid = true) :
    ((es.find? p).getD MapsEntry.invalid).valid = false ↔ ∀ e ∈ es, ¬ p e = true := by
  cases hfind : es.find? p with
  | none =>
      rw [List.find?_eq_none] at hfind
      exact ⟨fun _ => hfind, fun _ => rfl⟩
  | some e =>
      have he := List.mem_of_find?_eq_some hfind
      constructor
      · intro hinvalid
        rw [Option.getD_some, hvalid e he] at hinvalid
        cases hinvalid
      · intro hnone
        exact absurd (List.find?_some hfind) (hnone e he)

/-- The lookups agree with the list of the entries that the text holds, wherever the
cursor is and whatever the stacks of the calls hold. -/
theorem map_lookups (hyields : ∀ i, Yields (readMapsLine (us i)) (resetMapHandler h₀) es) :
    (∀ i addr, ∃ r h, findInMapByAddr (us i) h₀ addr = .ok (r, h) ∧
      r = (es.find? fun e => e.start ≤ addr ∧ addr < e.end_).getD MapsEntry.invalid ∧
      (r.valid = false ↔ ∀ e ∈ es, ¬ (e.start ≤ addr ∧ addr < e.end_))) ∧
    ∀ fn i, ∃ h, fnCalls us h₀ fn i =
      .ok (((es.filter fun e => e.fn = some fn)[i]?).getD MapsEntry.invalid, h) := by
  constructor
  · intro i addr
    obtain ⟨h, hcall⟩ := findInMapByAddr_eq addr hyields i
    have hiff := invalid_find_iff (p := fun e => decide (e.start ≤ addr ∧ addr < e.end_))
      (valid_of_yields (hyields i))
    simp only [decide_eq_true_eq] at hiff
    exact ⟨_, h, hcall, rfl, hiff⟩
  · intro fn i
    obtain ⟨h, _, hcall, _⟩ := fnCalls_eq hyields i
    exact ⟨h, hcall⟩

/-- The two mappings in a text, with the cursor in the second line. -/
def twoMappings : Handler :=
  ⟨mapsText [anonymousMapping, stackMapping] ++ [0],
    (mapsText [anonymousMapping, stackMapping]).length, 60⟩

theorem yields_twoMappings (uninit : Nat → Int) :
    Yields (readMapsLine uninit) (resetMapHandler twoMappings)
      [anonymousMapping.entry, stackMapping.entry] := by
  have hlast : ∀ m, [anonymousMapping, stackMapping].getLast? = some m →
      ∃ name, m.name = some name := by
    rintro m ⟨⟩
    exact ⟨_, rfl⟩
  have hpos : 0 < (mapsText [anonymousMapping, stackMapping]).length := by decide +kernel
  have hread : Yields (readMapsLine uninit)
      ⟨[] ++ (mapsText [anonymousMapping, stackMapping] ++ 0 :: []),
        ([] ++ mapsText [anonymousMapping, stackMapping]).length, ([] : Str).length⟩
      [anonymousMapping.entry, stackMapping.entry] := yields_mapsText hlast rfl hpos
  exact hread

theorem map_lookups_twoMappings :
    (∃ h, findInMapByAddr (fun _ => 1) twoMappings 0xBF8A1000 = .ok (stackMapping.entry, h)) ∧
      (∃ h, fnCalls (fun i _ => i) twoMappings (ch '[' :: "stack of 1]".toList.map ch) 0 =
        .ok (stackMapping.entry, h)) ∧
      ∃ h, fnCalls (fun i _ => i) twoMappings (ch '[' :: "stack of 1]".toList.map ch) 1 =
        .ok (MapsEntry.invalid, h) := by
  have hall := @map_lookups (fun i _ => i) twoMappings _ fun i => yields_twoMappings fun _ => i
  obtain ⟨r, h, hcall, hr, _⟩ := hall.1 1 0xBF8A1000
  have hfirst : r = stackMapping.entry := hr.trans (by decide +kernel)
  rw [hfirst] at hcall
  exact ⟨⟨h, hcall⟩, hall.2 _ 0, hall.2 _ 1⟩

end Lookups

end Snitchaser.Proc.Lookup
