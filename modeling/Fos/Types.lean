import Mathlib.Tactic.Ring
import Mathlib.Data.Nat.Basic

/-! The arithmetic of the machine (`inc/types.h`, `inc/mmu.h`): a `uint32` is a natural number below `2^32`, an `int` is an
    integer, and every operation that can wrap says so. -/

namespace Fos

def u32 (n : Nat) : Nat := n % 4294967296

/-- Subtraction of two `uint32`. -/
def sub32 (a b : Nat) : Nat := (a + 4294967296 - b) % 4294967296

def u16 (n : Nat) : Nat := n % 65536

/-- The value a C `int` holds after an operation with result `z`. -/
def int32 (z : Int) : Int := Int.bmod z 4294967296

def pageSize : Nat := 4096

/-- `ROUNDDOWN(a, n)` -/
def roundDown (a n : Nat) : Nat := a - a % n

/-- `ROUNDUP(a, n)` -/
def roundUp (a n : Nat) : Nat := roundDown (u32 (a + n - 1)) n

/-- A bound for the loops over linked lists: more nodes than the address space can hold. -/
def walkFuel : Nat := 4294967296

theorem u32_of_lt {n : Nat} (h : n < 4294967296) : u32 n = n := Nat.mod_eq_of_lt h

theorem u32_lt (n : Nat) : u32 n < 4294967296 := Nat.mod_lt _ (by decide)

theorem sub32_of_le {a b : Nat} (h : b ≤ a) (ha : a < 4294967296) : sub32 a b = a - b := by
  unfold sub32
  omega

theorem u16_of_lt {n : Nat} (h : n < 65536) : u16 n = n := Nat.mod_eq_of_lt h

theorem int32_eq {z : Int} (hl : -2147483648 ≤ z) (hu : z < 2147483648) : int32 z = z :=
  Int.bmod_eq_of_le (by omega) (by omega)

theorem int32_range (z : Int) : -2147483648 ≤ int32 z ∧ int32 z < 2147483648 :=
  ⟨Int.le_bmod (by decide), Int.bmod_lt (by decide)⟩

theorem roundUp_aligned (size : Nat) : roundUp size pageSize % 4096 = 0 := by
  unfold roundUp roundDown pageSize
  omega

/-- Rounding up to pages, for a size that does not wrap. -/
theorem roundUp_page {n : Nat} (hn : n ≤ 4294963200) :
    roundUp n pageSize % 4096 = 0 ∧ n ≤ roundUp n pageSize ∧ roundUp n pageSize < n + 4096 := by
  have h : u32 (n + 4096 - 1) = n + 4095 := u32_of_lt (by omega)
  simp only [roundUp, roundDown, pageSize, h]
  omega

end Fos
