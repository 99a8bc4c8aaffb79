import Snitchaser.Proc.Maps
/-!
# The text of a memory map

What the kernel prints for a list of mappings, one line for each, on a machine with
32-bit addresses.  Nothing here comes from `proc.c`: this is the text it reads.
-/

namespace Snitchaser.Proc.Text

open Snitchaser.Lib.Numeral
open Snitchaser.Proc.Entry
open Snitchaser.Proc.Vsscanf

/-! ## Numbers -/

def digitChar (d : Nat) : UInt8 := if d < 10 then ch '0' + UInt8.ofNat d else
  ch 'a' + UInt8.ofNat (d - 10)

/-- `%0*llx`. -/
def hex (width n : Nat) : Str := (numeral 16 width n).map digitChar

/-- `%lu`. -/
def decimal (n : Nat) : Str := (numeral 10 1 n).map digitChar

theorem isxdigit_digitChar : ∀ d < 16, isxdigit (digitChar d) = true := by decide

theorem digitValue_digitChar : ∀ d < 16, digitValue (digitChar d) = d := by decide

variable {width n : Nat} {c : UInt8}

theorem isxdigit_of_mem_hex (h : c ∈ hex width n) : isxdigit c = true := by
  obtain ⟨d, hd, rfl⟩ := List.mem_map.mp h
  exact isxdigit_digitChar d (lt_of_mem_numeral (by decide) hd)

theorem isxdigit_of_mem_decimal (h : c ∈ decimal n) : isxdigit c = true := by
  obtain ⟨d, hd, rfl⟩ := List.mem_map.mp h
  have hten : d < 10 := lt_of_mem_numeral (by decide) hd
  exact isxdigit_digitChar d (by omega)

theorem hexValue_hex : hexValue (hex width n) = n := by
  have hdigits : (numeral 16 width n).map (digitValue ∘ digitChar) = numeral 16 width n := by
    conv_rhs => rw [← List.map_id (numeral 16 width n)]
    apply List.map_congr_left
    intro d hd
    exact digitValue_digitChar d (lt_of_mem_numeral (by decide) hd)
  rw [hexValue, hex, List.map_map, hdigits, valueFrom_numeral]

theorem hex_ne_nil (hwidth : 0 < width) : hex width n ≠ [] := by
  intro hnil
  have hlen : width ≤ (hex width n).length := by
    rw [hex, List.length_map]
    exact le_length_numeral
  rw [hnil, List.length_nil] at hlen
  omega

theorem decimal_ne_nil : decimal n ≠ [] := by
  intro hnil
  have hlen : 1 ≤ (decimal n).length := by
    rw [decimal, List.length_map]
    exact le_length_numeral
  rw [hnil, List.length_nil] at hlen
  omega

theorem length_hex (hn : n < 16 ^ width) : (hex width n).length = width := by
  rw [hex, List.length_map, length_numeral (by decide) hn]

/-! ## Lines -/

/-- Names of mappings: of a file, or in brackets. -/
structure NameOk (name : Str) : Prop where
  first : peek name = ch '/' ∨ peek name = ch '['
  noNewline : 10 ∉ name
  noBackslash : 92 ∉ name
  noNul : 0 ∉ name

structure Mapping where
  start : Nat
  end_ : Nat
  read : Bool
  write : Bool
  exec : Bool
  shared : Bool
  offset : Nat
  major : Nat
  minor : Nat
  inode : Nat
  name : Option Str
  start_lt : start < end_
  end_lt : end_ < 2 ^ 32
  offset_lt : offset < 2 ^ 64
  name_ok : ∀ str, name = some str → NameOk str

namespace Mapping

variable (m : Mapping)

def perms : Str :=
  [if m.read then ch 'r' else ch '-', if m.write then ch 'w' else ch '-',
    if m.exec then ch 'x' else ch '-', if m.shared then ch 's' else ch 'p']

def prot : Nat :=
  (if m.read then protRead else 0) ||| (if m.write then protWrite else 0) |||
    (if m.exec then protExec else 0)

def device : Str := hex 2 m.major ++ ch ':' :: hex 2 m.minor

/-- Device and inode, with the blanks around them. -/
def attributes : Str := 32 :: (device m ++ 32 :: (decimal m.inode ++ [32]))

/-- Everything up to the offset. -/
def addresses : Str := hex 8 m.start ++ ch '-' :: (hex 8 m.end_ ++ 32 :: (perms m ++ [32]))

def fields : Str := addresses m ++ (hex 8 m.offset ++ attributes m)

/-- Names begin in one column where the fields leave room for that. -/
def padding : Str := List.replicate (max 1 (49 - (fields m).length)) 32

def nameField : Str :=
  match m.name with
  | none => []
  | some name => padding m ++ name

/-- A line without its newline. -/
def body : Str := fields m ++ nameField m

def line : Str := body m ++ [10]

/-- The entry the mapping should be read as. -/
def entry : MapsEntry := ⟨true, m.start, m.end_, prot m, m.offset, m.name⟩

end Mapping

def mapsText (ms : List Mapping) : Str := ms.flatMap Mapping.line

/-! ## Characters of a line -/

/-- No character that ends a line or a string, and no backslash. -/
def Plain (c : UInt8) : Prop := c ≠ 10 ∧ c ≠ 0 ∧ c ≠ 92

instance : DecidablePred Plain := fun _ => inferInstanceAs (Decidable (_ ∧ _))

theorem plain_of_isxdigit (h : isxdigit c = true) : Plain c := by
  revert h
  apply forall_byte (p := fun c => isxdigit c = true → Plain c)
  decide +kernel

theorem word_of_isxdigit (h : isxdigit c = true) : isspace c = false ∧ c ≠ 0 :=
  ⟨isspace_of_isxdigit h, ne_zero_of_isxdigit h⟩

namespace Mapping

variable (m : Mapping)

theorem plain_hex : ∀ c ∈ hex width n, Plain c :=
  fun _ hc => plain_of_isxdigit (isxdigit_of_mem_hex hc)

theorem plain_perms : ∀ c ∈ m.perms, Plain c := by
  intro c hc
  simp only [perms, List.mem_cons, List.not_mem_nil, or_false] at hc
  rcases hc with rfl | rfl | rfl | rfl <;> split_ifs <;> decide

theorem plain_fields : ∀ c ∈ m.fields, Plain c := by
  have hblank : Plain 32 := by decide
  have hdecimal : ∀ c ∈ decimal m.inode, Plain c :=
    fun _ hc => plain_of_isxdigit (isxdigit_of_mem_decimal hc)
  simp only [fields, addresses, attributes, device, List.forall_mem_append, List.forall_mem_cons,
    List.not_mem_nil, false_implies, implies_true, and_true]
  exact ⟨⟨plain_hex, by decide, plain_hex, hblank, plain_perms m, hblank⟩, plain_hex, hblank,
    ⟨plain_hex, by decide, plain_hex⟩, hblank, hdecimal, hblank⟩

theorem plain_name {name : Str} (h : NameOk name) : ∀ c ∈ name, Plain c := by
  intro c hc
  refine ⟨?_, ?_, ?_⟩
  · rintro rfl
    exact h.noNewline hc
  · rintro rfl
    exact h.noNul hc
  · rintro rfl
    exact h.noBackslash hc

theorem plain_body : ∀ c ∈ m.body, Plain c := by
  intro c hc
  rcases List.mem_append.mp hc with hc | hc
  · exact plain_fields m c hc
  · cases hname : m.name with
    | none =>
        rw [nameField, hname] at hc
        cases hc
    | some name =>
        simp only [nameField, hname] at hc
        rcases List.mem_append.mp hc with hc | hc
        · rw [List.eq_of_mem_replicate hc]
          decide
        · exact plain_name (m.name_ok name hname) c hc

theorem word_device : ∀ c ∈ m.device, isspace c = false ∧ c ≠ 0 := by
  have hhex : ∀ {width n : Nat}, ∀ c ∈ hex width n, isspace c = false ∧ c ≠ 0 :=
    fun _ hc => word_of_isxdigit (isxdigit_of_mem_hex hc)
  simp only [device, List.forall_mem_append, List.forall_mem_cons]
  exact ⟨hhex, by decide, hhex⟩

theorem device_ne_nil : m.device ≠ [] := List.append_ne_nil_of_left_ne_nil (hex_ne_nil (by decide)) _

theorem addresses_cons :
    ∃ x y b, m.addresses = x :: y :: b ∧ isxdigit x = true ∧ isxdigit y = true := by
  have hlen : (hex 8 m.start).length = 8 := by
    have hstart := m.start_lt
    have hend := m.end_lt
    exact length_hex (by omega)
  match hdigits : hex 8 m.start with
  | [] => simp [hdigits] at hlen
  | [x] => simp [hdigits] at hlen
  | x :: y :: ds =>
      have hall : ∀ c ∈ x :: y :: ds, isxdigit c = true :=
        fun c hc => isxdigit_of_mem_hex (hdigits ▸ hc)
      have hcons : m.addresses = x :: y :: (ds ++ ch '-' :: (hex 8 m.end_ ++ 32 ::
          (m.perms ++ [32]))) := by
        rw [addresses, hdigits]
        rfl
      exact ⟨x, y, _, hcons, hall x (by simp), hall y (by simp)⟩

theorem body_eq : m.body =
    m.addresses ++ (hex 8 m.offset ++ (m.attributes ++ m.nameField)) := by
  simp only [body, fields, List.append_assoc]

theorem body_cons : ∃ x y b, m.body = x :: y :: b ∧ isxdigit x = true ∧ isxdigit y = true := by
  obtain ⟨x, y, b, haddresses, hx, hy⟩ := m.addresses_cons
  have hcons : m.body = x :: y :: (b ++ (hex 8 m.offset ++ (m.attributes ++ m.nameField))) := by
    rw [body_eq, haddresses]
    rfl
  exact ⟨x, y, _, hcons, hx, hy⟩

theorem isxdigit_body : isxdigit (peek m.body) = true := by
  obtain ⟨x, y, b, hbody, hx, _⟩ := m.body_cons
  rw [hbody]
  exact hx

theorem word_perms : ∀ c ∈ m.perms, isspace c = false ∧ c ≠ 0 := by
  intro c hc
  simp only [perms, List.mem_cons, List.not_mem_nil, or_false] at hc
  rcases hc with rfl | rfl | rfl | rfl <;> split_ifs <;> decide

theorem protOf_perms : Maps.protOf (m.perms ++ [0]) = m.prot := by
  unfold Maps.protOf perms prot
  cases m.read <;> cases m.write <;> cases m.exec <;> rfl

end Mapping

end Snitchaser.Proc.Text
