import Snitchaser.Lib.Program
/-!
# Entries of the memory map

`struct proc_maps_entry_t` of `proc.h`, the protection bits it carries and the two
functions entries come from.  The device and inode fields are never set and never
read.
-/

namespace Snitchaser.Proc.Entry

open Snitchaser.Lib.Program

/-- One mapping.  `fn` and `fn_len` are one field: the name, or nothing for a
`NULL` pointer. -/
structure MapsEntry where
  valid : Bool
  start : Nat
  end_ : Nat
  prot : Nat
  offset : Nat
  fn : Option (List UInt8)
  deriving DecidableEq, Repr

def MapsEntry.invalid : MapsEntry := ⟨false, 0, 0, 0, 0, none⟩

def protRead : Nat := 1
def protWrite : Nat := 2
def protExec : Nat := 4

/-- A source of entries: `read_self_procmap` into the buffer at an address, and
`read_maps_line`. -/
structure MapsReader (ρ : Type) where
  readSelfProcmap : Nat → Except Stop ρ
  readMapsLine : ρ → Except Stop (MapsEntry × ρ)

/-- Reading lines from `h` on gives these entries and then an invalid one. -/
inductive Yields {ρ : Type} (read : ρ → Except Stop (MapsEntry × ρ)) : ρ → List MapsEntry → Prop
    where
  | done {h h' : ρ} {r : MapsEntry} (hread : read h = .ok (r, h')) (hinvalid : r.valid = false) :
      Yields read h []
  | next {h h' : ρ} {r : MapsEntry} {rs : List MapsEntry} (hread : read h = .ok (r, h'))
      (hvalid : r.valid = true) (hrest : Yields read h' rs) : Yields read h (r :: rs)

end Snitchaser.Proc.Entry
