import Fos.Cpu.Sched
import Mathlib.Order.Bounds.Basic

/-! `nearest_pow2_ceil` and `log2_ceil` (`kern/tests/utilities.c`), from which the mask and the shift of the environment ids are
    made (`inc/environment_definitions.h`). -/

namespace Fos.Utilities

theorem ushiftRight_one_eq_zero {x : BitVec 32} : x >>> 1 = 0#32 ↔ x.toNat < 2 := by
  rw [BitVec.toNat_eq, BitVec.toNat_ushiftRight, Nat.shiftRight_one, BitVec.toNat_ofNat, Nat.zero_mod]
  omega

/-- `while (x >>= 1) a = f(a)` -/
def shiftLoop {α : Type} (f : α → α) (x : BitVec 32) (a : α) : α :=
  if x >>> 1 = 0#32 then a else shiftLoop f (x >>> 1) (f a)
termination_by x.toNat
decreasing_by
  next hne =>
    rw [ushiftRight_one_eq_zero] at hne
    rw [BitVec.toNat_ushiftRight, Nat.shiftRight_one]
    omega

/-- `nearest_pow2_ceil(x)` -/
def nearestPow2Ceil (x : BitVec 32) : BitVec 32 := if x ≤ 1#32 then 1#32 else shiftLoop (· <<< 1) (x - 1#32) 2#32

/-- `log2_ceil(x)` -/
def log2Ceil (x : BitVec 32) : BitVec 32 := if x ≤ 1#32 then 1#32 else shiftLoop (· + 1#32) (x - 1#32) 2#32

/-- `nearest_pow2_ceil` is the least power of two that is not below `x`, and `log2_ceil` its exponent; the mask of the index
    and the shift of the generation are of the same number of bits. -/
structure PowersAgree (x : BitVec 32) : Prop where
  least : IsLeast {p | (∃ k, p = 2 ^ k) ∧ x.toNat ≤ p} (nearestPow2Ceil x).toNat
  power : (nearestPow2Ceil x).toNat = 2 ^ (log2Ceil x).toNat
  mask : nearestPow2Ceil x - 1#32 = 1#32 <<< (log2Ceil x).toNat - 1#32

variable {α : Type} {x : BitVec 32} {n : Nat}

/-! ### The loops -/

/-- The loop turns once for each bit of `x` after the first. -/
theorem shiftLoop_eq (f : α → α) (x : BitVec 32) (a : α) : shiftLoop f x a = f^[x.toNat.log2] a := by
  induction x, a using shiftLoop.induct f with
  | case1 x a hx =>
    have hlog : x.toNat.log2 = 0 := by
      rw [Nat.log2_def, if_neg (by rw [ushiftRight_one_eq_zero] at hx; omega)]
    rw [shiftLoop, if_pos hx, hlog]
    rfl
  | case2 x a hx ih =>
    have hlog : x.toNat.log2 = (x >>> 1).toNat.log2 + 1 := by
      rw [Nat.log2_def, if_pos (by rw [ushiftRight_one_eq_zero] at hx; omega), BitVec.toNat_ushiftRight, Nat.shiftRight_one]
    rw [shiftLoop, if_neg hx, ih, hlog, Function.iterate_succ_apply]

theorem iterate_shiftLeft (n : Nat) (p : BitVec 32) : (fun q : BitVec 32 => q <<< 1)^[n] p = p <<< n := by
  induction n generalizing p with
  | zero => exact (BitVec.shiftLeft_zero p).symm
  | succ n ih => rw [Function.iterate_succ_apply, ih, ← BitVec.shiftLeft_add, Nat.add_comm]

theorem iterate_add_one (n : Nat) (c : BitVec 32) : (· + 1#32)^[n] c = c + BitVec.ofNat 32 n := by
  induction n generalizing c with
  | zero => exact (BitVec.add_zero c).symm
  | succ n ih => rw [Function.iterate_succ_apply, ih, BitVec.add_assoc, Nat.add_comm n, BitVec.ofNat_add]

theorem le_one_iff : x ≤ 1#32 ↔ x.toNat ≤ 1 := Iff.rfl

theorem toNat_sub_one (hx : ¬ x.toNat ≤ 1) : (x - 1#32).toNat = x.toNat - 1 := by
  have hlt := x.isLt
  rw [BitVec.toNat_sub, BitVec.toNat_ofNat]
  omega

/-- The functions as they are in the model of the ids -/
theorem toNat_nearestPow2Ceil (hx : x.toNat ≤ 2147483648) : (nearestPow2Ceil x).toNat = Cpu.nearestPow2Ceil x.toNat := by
  unfold nearestPow2Ceil Cpu.nearestPow2Ceil
  by_cases hone : x.toNat ≤ 1
  · rw [if_pos (le_one_iff.mpr hone), if_pos hone]
    rfl
  · have hlog : (x.toNat - 1).log2 < 31 := (Nat.log2_lt (by omega)).mpr (by omega)
    have hpow : 2 ^ (x.toNat - 1).log2 ≤ 2 ^ 30 := Nat.pow_le_pow_right (by decide) (by omega)
    rw [if_neg (le_one_iff.not.mpr hone), if_neg hone, shiftLoop_eq, iterate_shiftLeft, toNat_sub_one hone,
      BitVec.toNat_shiftLeft, Nat.shiftLeft_eq]
    exact Nat.mod_eq_of_lt (Nat.lt_of_le_of_lt (Nat.mul_le_mul_left _ hpow) (by decide))

theorem toNat_log2Ceil (x : BitVec 32) : (log2Ceil x).toNat = Cpu.log2Ceil x.toNat := by
  unfold log2Ceil Cpu.log2Ceil
  by_cases hone : x.toNat ≤ 1
  · rw [if_pos (le_one_iff.mpr hone), if_pos hone]
    rfl
  · have hlt := x.isLt
    have hlog : (x.toNat - 1).log2 < 32 := (Nat.log2_lt (by omega)).mpr (by omega)
    rw [if_neg (le_one_iff.not.mpr hone), if_neg hone, shiftLoop_eq, iterate_add_one, toNat_sub_one hone, BitVec.toNat_add,
      BitVec.toNat_ofNat, BitVec.toNat_ofNat]
    omega

/-! ### The powers -/

theorem isLeast_nearestPow2Ceil (n : Nat) : IsLeast {p | (∃ k, p = 2 ^ k) ∧ n ≤ p} (Cpu.nearestPow2Ceil n) := by
  unfold Cpu.nearestPow2Ceil
  split
  · next hn =>
    refine ⟨⟨⟨0, rfl⟩, hn⟩, ?_⟩
    rintro p ⟨⟨k, rfl⟩, -⟩
    exact Nat.one_le_two_pow
  · next hn =>
    have hupper : n - 1 < 2 ^ ((n - 1).log2 + 1) := Nat.lt_log2_self
    rw [← Nat.pow_succ']
    refine ⟨⟨⟨_, rfl⟩, by omega⟩, ?_⟩
    rintro p ⟨⟨k, rfl⟩, hk⟩
    refine Nat.pow_le_pow_right (by decide) (Nat.succ_le_of_lt ?_)
    exact (Nat.log2_lt (by omega)).mpr (by omega)

/-- The count of `log2_ceil` starts at the power with which the other loop starts, and not at its exponent. -/
theorem two_pow_log2Ceil (n : Nat) : 2 ^ Cpu.log2Ceil n = 2 * Cpu.nearestPow2Ceil n := by
  unfold Cpu.log2Ceil Cpu.nearestPow2Ceil
  split
  · rfl
  · rw [Nat.pow_add, ← Nat.mul_assoc]

/-- The exponent that `log2_ceil` gives is by one too large for every table size, so that the shift is one bit wider than the
    mask. -/
theorem powers_disagree (hx : 1 ≤ x.toNat) (hmax : x.toNat ≤ 2 ^ 30) :
    IsLeast {p | (∃ k, p = 2 ^ k) ∧ x.toNat ≤ p} (nearestPow2Ceil x).toNat ∧
      2 ^ (log2Ceil x).toNat = 2 * (nearestPow2Ceil x).toNat ∧ ¬ PowersAgree x := by
  have hleast := isLeast_nearestPow2Ceil x.toNat
  have hdouble := two_pow_log2Ceil x.toNat
  rw [← toNat_nearestPow2Ceil (by omega)] at hleast hdouble
  rw [← toNat_log2Ceil] at hdouble
  refine ⟨hleast, hdouble, fun hagree => ?_⟩
  have hpower := hagree.power
  have hpos : x.toNat ≤ (nearestPow2Ceil x).toNat := hleast.1.2
  omega

theorem powers_disagree_five : IsLeast {p | (∃ k, p = 2 ^ k) ∧ (5#32).toNat ≤ p} (nearestPow2Ceil 5#32).toNat ∧
    2 ^ (log2Ceil 5#32).toNat = 2 * (nearestPow2Ceil 5#32).toNat ∧ ¬ PowersAgree 5#32 :=
  powers_disagree (by decide) (by decide)

/-- The least power of two for a table of five is 8, and 3 its exponent. -/
theorem log2Ceil_five : nearestPow2Ceil 5 = 8 ∧ log2Ceil 5 = 4 ∧ ¬ PowersAgree 5 := by
  have hpow : nearestPow2Ceil 5 = 8 := by
    rw [nearestPow2Ceil, if_neg (by decide), shiftLoop_eq, iterate_shiftLeft]
    decide
  have hlog : log2Ceil 5 = 4 := by
    rw [log2Ceil, if_neg (by decide), shiftLoop_eq, iterate_add_one]
    decide
  refine ⟨hpow, hlog, fun hagree => ?_⟩
  have hpower := hagree.power
  rw [hpow, hlog] at hpower
  exact absurd hpower (by decide)

end Fos.Utilities
