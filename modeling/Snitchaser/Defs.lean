import Mathlib.Data.Nat.Bitwise
import Mathlib.Tactic.Common
/-!
# Constants and alignment macros

`defs.h`, `asm/page.h`, `linux/lzo.h` and the sizes the headers derive from
them, for the i386 build: `size_t` and pointers are 32 bits wide.
-/

namespace Snitchaser.Defs

def pageSize : Nat := 4096

def bigbufferSz : Nat := 2048 * 1024

def maxProcMapsFileSize : Nat := 1024 * 1024

def maxOutputFnLen : Nat := 128

/-- `(uint32_t)(v) & ~((a) - 1)`. -/
def alignDown (v a : Nat) : Nat := (v % 2 ^ 32) &&& (2 ^ 32 - a)

/-- `ALIGN_DOWN((uint32_t)(v) + (uint32_t)(a) - 1, (a))`, the sum in 32 bits. -/
def alignUp (v a : Nat) : Nat := alignDown (v + a - 1) a

def isValidPage (p : Nat) : Bool := p % pageSize == 0

/-- Addition of `uint32_t`, `size_t` or `uintptr_t`, or to a pointer. -/
def add32 (a b : Nat) : Nat := (a + b) % 2 ^ 32

theorem add32_of_lt {a b : Nat} (h : a + b < 2 ^ 32) : add32 a b = a + b := Nat.mod_eq_of_lt h

theorem add32_zero {a : Nat} (ha : a < 2 ^ 32) : add32 a 0 = a := add32_of_lt ha

theorem add32_add32 (a b c : Nat) : add32 (add32 a b) c = add32 a (b + c) := by
  rw [add32, add32, Nat.mod_add_mod, Nat.add_assoc, add32]

theorem add32_lt (a b : Nat) : add32 a b < 2 ^ 32 := Nat.mod_lt _ (Nat.two_pow_pos 32)

/-- Subtraction of `uint32_t`, `size_t` or `uintptr_t`. -/
def sub32 (a b : Nat) : Nat := (a + 2 ^ 32 - b) % 2 ^ 32

theorem sub32_add32 {a : Nat} (ha : a < 2 ^ 32) (b : Nat) : sub32 (add32 a b) a = b % 2 ^ 32 := by
  unfold sub32 add32
  omega

theorem sub32_of_le {a b : Nat} (ha : a < 2 ^ 32) (hle : b ≤ a) : sub32 a b = a - b := by
  unfold sub32
  omega

theorem testBit_mask {k : Nat} (hk : k ≤ 32) (i : Nat) :
    (2 ^ 32 - 2 ^ k).testBit i = (decide (k ≤ i) && decide (i < 32)) := by
  have hpow : 2 ^ 32 - 2 ^ k = (2 ^ (32 - k) - 1) <<< k := by
    rw [Nat.shiftLeft_eq, Nat.sub_mul, ← Nat.pow_add, Nat.sub_add_cancel hk, Nat.one_mul]
  rw [hpow, Nat.testBit_shiftLeft, Nat.testBit_two_pow_sub_one]
  by_cases h : k ≤ i
  · simp [h, show i - k < 32 - k ↔ i < 32 by omega]
  · simp [h]

theorem alignDown_two_pow {v k : Nat} (hk : k ≤ 32) (h : v < 2 ^ 32) :
    alignDown v (2 ^ k) = v / 2 ^ k * 2 ^ k := by
  rw [alignDown, Nat.mod_eq_of_lt h]
  apply Nat.eq_of_testBit_eq
  intro i
  rw [Nat.testBit_and, testBit_mask hk, show v / 2 ^ k * 2 ^ k = (v >>> k) <<< k by
    rw [Nat.shiftLeft_eq, Nat.shiftRight_eq_div_pow], Nat.testBit_shiftLeft,
    Nat.testBit_shiftRight]
  by_cases hki : k ≤ i
  · rw [show k + (i - k) = i by omega]
    by_cases h32 : i < 32
    · simp [hki, h32]
    · have hzero : v.testBit i = false :=
        Nat.testBit_lt_two_pow (h.trans_le (Nat.pow_le_pow_right (by omega) (by omega)))
      simp [hzero]
  · simp [hki]

theorem alignDown_page {v : Nat} (h : v < 2 ^ 32) :
    alignDown v 4096 = v / 4096 * 4096 := alignDown_two_pow (by decide : 12 ≤ 32) h

theorem alignUp_page {v : Nat} (h : v + 4095 < 2 ^ 32) :
    alignUp v 4096 = (v + 4095) / 4096 * 4096 := by
  rw [alignUp, show v + 4096 - 1 = v + 4095 by omega, alignDown_page h]

theorem alignUp_page_mod (v : Nat) : alignUp v pageSize % pageSize = 0 := by
  have hpage : pageSize = 4096 := rfl
  have hdown : alignUp v 4096 = alignDown ((v + 4096 - 1) % 2 ^ 32) 4096 := by
    rw [alignUp, alignDown, alignDown, Nat.mod_mod]
  rw [hpage, hdown, alignDown_page (Nat.mod_lt _ (by decide)), Nat.mul_mod_left]

/-! ## The thread-local area

`bigbuffer.h` and `tls.h`: the area holds the logger's buffer, the room LZO
needs to compress it, four more pages, and at its top the thread's private data
and its descriptor. -/

def lzo1xWorstCompress (x : Nat) : Nat := x + x / 16 + 64 + 3

/-- `16384 * sizeof(unsigned char *)`. -/
def lzo1xMemCompress : Nat := 16384 * 4

def bigbufferPages : Nat := (bigbufferSz + pageSize - 1) / pageSize

def bigbufferExtraSz : Nat := lzo1xWorstCompress bigbufferSz + lzo1xMemCompress

def bigbufferExtraPages : Nat := (bigbufferExtraSz + (pageSize - 1)) / pageSize

def nrTlsPages : Nat := bigbufferPages + bigbufferExtraPages + 4

def tlsAreaSize : Nat := nrTlsPages * pageSize

/-- `sizeof(struct tls_desc)`: the 16-bit selector is padded to a word. -/
def sizeofTlsDesc : Nat := 24

theorem tlsAreaSize_eq : tlsAreaSize = 4411392 := by decide

end Snitchaser.Defs
