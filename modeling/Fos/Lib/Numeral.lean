import Mathlib.Algebra.Group.Nat.Defs
import Mathlib.Data.List.Basic

/-! Numerals as texts of bytes, with the most significant digit first. -/

namespace Fos.Lib

/-- The digit with the value `d`, below 16 -/
def digit (d : Nat) : UInt8 := (Nat.digitChar d).toUInt8

/-- The numeral of `n` in base `b` -/
def numeral (b n : Nat) : List UInt8 := (Nat.toDigits b n).map Char.toUInt8

def IsDigit (c : UInt8) : Prop := 48 ≤ c ∧ c ≤ 57

instance : DecidablePred IsDigit := fun _ => inferInstanceAs (Decidable (_ ∧ _))

/-- A text of decimal digits without leading zeros. -/
structure IsNumeral (l : List UInt8) : Prop where
  nonempty : l ≠ []
  digits : ∀ c ∈ l, IsDigit c
  leading : l.head? = some 48 → l = [48]

variable {b n d k : Nat}

theorem numeral_of_lt (h : n < b) : numeral b n = [digit n] := by
  rw [numeral, Nat.toDigits_of_lt_base h]
  rfl

theorem numeral_of_le (hb : 1 < b) (h : b ≤ n) : numeral b n = numeral b (n / b) ++ [digit (n % b)] := by
  rw [numeral, Nat.toDigits_of_base_le hb h, List.map_append]
  rfl

/-- Induction over the digits of a numeral, from the most significant one on. -/
theorem numeral_induction {P : Nat → Prop} (hb : 1 < b) (first : ∀ n, n < b → P n) (next : ∀ n, b ≤ n → P (n / b) → P n)
    (n : Nat) : P n := by
  induction n using Nat.strongRecOn with
  | ind n ih =>
    by_cases h : n < b
    · exact first n h
    · exact next n (Nat.le_of_not_lt h) (ih _ (Nat.div_lt_self (by omega) hb))

@[simp] theorem numeral_ne_nil : numeral b n ≠ [] := by
  unfold numeral
  simp

theorem numeral_length_pos : 0 < (numeral b n).length := List.length_pos_iff.mpr numeral_ne_nil

theorem numeral_length_le_iff (hb : 1 < b) (hk : 0 < k) : (numeral b n).length ≤ k ↔ n < b ^ k := by
  rw [numeral, List.length_map, Nat.length_toDigits_le_iff hb hk]

theorem toNat_digit : ∀ d, d < 10 → (digit d).toNat = 48 + d := by decide

theorem isDigit_digit : ∀ d, d < 10 → IsDigit (digit d) := by decide

theorem digit_ne_zero : ∀ d, d < 10 → 0 < d → digit d ≠ 48 := by decide

theorem numeral_isDigit : ∀ c ∈ numeral 10 n, IsDigit c := by
  induction n using numeral_induction (b := 10) (by decide) with
  | first n h =>
    rw [numeral_of_lt h]
    simpa using isDigit_digit n h
  | next n h ih =>
    rw [numeral_of_le (by decide) h]
    intro c hc
    rcases List.mem_append.mp hc with hc | hc
    · exact ih c hc
    · rw [List.mem_singleton.mp hc]
      exact isDigit_digit _ (Nat.mod_lt _ (by decide))

/-- The first digit is zero for zero only. -/
theorem numeral_head (h : 0 < n) : (numeral 10 n).head? ≠ some 48 := by
  induction n using numeral_induction (b := 10) (by decide) with
  | first n hn =>
    rw [numeral_of_lt hn, List.head?_cons]
    exact fun heq => digit_ne_zero n hn h (Option.some.inj heq)
  | next n hn ih =>
    rw [numeral_of_le (by decide) hn, List.head?_append_of_ne_nil _ numeral_ne_nil]
    exact ih (Nat.div_pos hn (by decide))

theorem isNumeral_numeral (n : Nat) : IsNumeral (numeral 10 n) where
  nonempty := numeral_ne_nil
  digits := numeral_isDigit
  leading h := by
    rcases Nat.eq_zero_or_pos n with rfl | hn
    · rfl
    · exact absurd h (numeral_head hn)

/-- The digits of a numeral, read one after the other, give its value. -/
theorem numeral_foldl (n : Nat) : (numeral 10 n).foldl (fun v c => v * 10 + (c.toNat - 48)) 0 = n := by
  induction n using numeral_induction (b := 10) (by decide) with
  | first n h =>
    rw [numeral_of_lt h, List.foldl_cons, List.foldl_nil, toNat_digit n h]
    omega
  | next n h ih =>
    have hmod : n % 10 < 10 := Nat.mod_lt _ (by decide)
    rw [numeral_of_le (by decide) h, List.foldl_append, ih, List.foldl_cons, List.foldl_nil, toNat_digit _ hmod]
    omega

end Fos.Lib
