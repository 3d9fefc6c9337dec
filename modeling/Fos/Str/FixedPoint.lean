import Fos.Str.Number
import Fos.Str.Text

/-! `fixedPt2Str` (`kern/tests/utilities.c`), with the functions of `inc/fixed_point.h` that it calls. A fixed-point number is
    the integer that represents it, in units of `2^-14`. -/

namespace Fos.Str
open Lib

/-! ### The functions -/

/-- The arrays of `fixedPt2Str`, its string constants `"0"` and `"."`, and what its caller passes for the output -/
inductive FixArray where
  | intPart
  | fractPart
  | zeros
  | fractPart2
  | zero
  | point
  | output
  deriving DecidableEq, Repr

def FixArray.ptr (x : FixArray) : Ptr FixArray := ⟨x, 0⟩

/-- `fix_round(x)` -/
def fixRound (f : Int) : Int := if f ≥ 0 then (int32 (f + 8192)).tdiv 16384 else (int32 (f - 8192)).tdiv 16384

/-- `fix_scale(x, n)`; `none` if its assertion fails -/
def fixScale (f n : Int) : Option Int := if n ≥ 0 then some (int32 (f * n)) else none

/-- `mulFactor` after the first loop of `fixedPt2Str` -/
def mulFactor : Nat → Int
  | 0 => 1
  | d + 1 => int32 (mulFactor d * 10)

/-- The second loop of `fixedPt2Str`; `none` too if it does not end within `turns`. -/
def addZeros (fraction : Int) : Nat → Blocks FixArray → Int → Option (Blocks FixArray)
  | 0, _, _ => none
  | turns + 1, m, tmp =>
    if fraction < tmp then
      (strcconcat m FixArray.zero.ptr FixArray.zeros.ptr FixArray.zeros.ptr).bind fun m => addZeros fraction turns m (tmp.tdiv 10)
    else some m

/-- `fixedPt2Str(f, num_dec_digits, output)`; a division by zero does not go through. -/
def fixedPt2Str (turns : Nat) (m : Blocks FixArray) (f : Int) (numDecDigits : Nat) : Option (Blocks FixArray) :=
  (fixScale f (mulFactor numDecDigits)).bind fun scaled =>
    if mulFactor numDecDigits = 0 then none else
      let integer := (fixRound scaled).tdiv (mulFactor numDecDigits)
      let fraction := (fixRound scaled).tmod (mulFactor numDecDigits)
      (ltostr m integer FixArray.intPart.ptr).bind fun m =>
        (ltostr m fraction FixArray.fractPart.ptr).bind fun m =>
          (addZeros fraction turns (m.put FixArray.zeros.ptr (List.replicate 10 0)) ((mulFactor numDecDigits).tdiv 10)).bind fun m =>
            (strcconcat m FixArray.zeros.ptr FixArray.fractPart.ptr FixArray.fractPart2.ptr).bind fun m =>
              (strcconcat m FixArray.intPart.ptr FixArray.point.ptr FixArray.intPart.ptr).bind fun m =>
                strcconcat m FixArray.intPart.ptr FixArray.fractPart2.ptr FixArray.output.ptr

/-! ### What it should write -/

/-- The memory when `fixedPt2Str` is called -/
structure FixFrame (m : Blocks FixArray) : Prop where
  intPart : m.size .intPart = 20
  fractPart : m.size .fractPart = 20
  zeros : m.size .zeros = 10
  fractPart2 : m.size .fractPart2 = 20
  zero : m.IsString FixArray.zero.ptr [48]
  point : m.IsString FixArray.point.ptr [46]
  output : 32 ≤ m.size .output

/-- The magnitude of `f * 10^d`, rounded to the nearest integer -/
def scaledMagnitude (f : Int) (d : Nat) : Nat := (f.natAbs * 10 ^ d + 8192) / 16384

/-- The decimal numeral of `f`, rounded to `d` digits behind the point -/
def fixedText (f : Int) (d : Nat) : List UInt8 :=
  let r := scaledMagnitude f d
  let fract := numeral 10 (r % 10 ^ d)
  (if f < 0 ∧ r ≠ 0 then [45] else []) ++ numeral 10 (r / 10 ^ d) ++ [46] ++ (List.replicate (d - fract.length) 48 ++ fract)

/-- `fixedPt2Str` ends, and the output is the numeral of `f`. -/
def PrintsFixed (m : Blocks FixArray) (f : Int) (d : Nat) : Prop :=
  ∃ turns t, fixedPt2Str turns m f d = some t ∧ t.IsString FixArray.output.ptr (fixedText f d)

variable {m t : Blocks FixArray} {f v tmp fraction : Int} {c c' d k n q z turns turns' : Nat}
  {held : FixArray → Option (List UInt8)}

/-! ### The zeros behind the point -/

/-- The turns that the second loop takes -/
def zeroTurns (fraction : Int) : Nat → Int → Option Nat
  | 0, _ => none
  | turns + 1, tmp => if fraction < tmp then (zeroTurns fraction turns (tmp.tdiv 10)).map Nat.succ else some 0

theorem addZeros_none (h : zeroTurns fraction turns tmp = none) : addZeros fraction turns m tmp = none := by
  induction turns generalizing m tmp with
  | zero => rfl
  | succ turns ih =>
    unfold zeroTurns at h
    split at h
    · next hlt =>
      rw [addZeros, if_pos hlt]
      cases hm : strcconcat m FixArray.zero.ptr FixArray.zeros.ptr FixArray.zeros.ptr with
      | none => rfl
      | some t => exact ih (Option.map_eq_none_iff.mp h)
    · cases h

theorem addZeros_eq (hzero : m.IsString FixArray.zero.ptr [48]) (hzeros : m.IsString FixArray.zeros.ptr (List.replicate z 48))
    (hsize : m.size .zeros = 10) (h : zeroTurns fraction turns tmp = some c) (hfits : z + c ≤ 9) :
    addZeros fraction turns m tmp = some (m.put FixArray.zeros.ptr (List.replicate (z + c) 48 ++ [0])) := by
  induction turns generalizing m tmp z c with
  | zero => cases h
  | succ turns ih =>
    unfold zeroTurns at h
    unfold addZeros
    split at h
    · next hlt =>
      obtain ⟨c, hc, rfl⟩ := Option.map_eq_some_iff.mp h
      have hroom : FixArray.zeros.ptr.offset + z + 1 < m.size FixArray.zeros.ptr.block := by
        have : m.size FixArray.zeros.ptr.block = 10 := hsize
        rw [this]
        dsimp only [FixArray.ptr]
        omega
      have hput := strcconcat_repeat hzero hzeros (by decide) hroom
      have hstring : (m.put FixArray.zeros.ptr (List.replicate (z + 1) 48 ++ [0])).IsString FixArray.zeros.ptr
          (List.replicate (z + 1) 48) := Blocks.isString_put (by rw [List.length_replicate]; omega) (by simp)
      rw [if_pos hlt, hput, Option.bind_some, ih (hzero.put_other (by decide)) hstring hsize hc (by omega), Blocks.put_put]
      · congr 4
        omega
      · simp
    · next hlt =>
      cases h
      rw [if_neg hlt, Nat.add_zero, hzeros.holds.put_eq]

theorem zeroTurns_unique (h : zeroTurns fraction turns tmp = some c) (h' : zeroTurns fraction turns' tmp = some c') : c = c' := by
  induction turns generalizing turns' tmp c c' with
  | zero => cases h
  | succ turns ih =>
    cases turns' with
    | zero => cases h'
    | succ turns' =>
      unfold zeroTurns at h h'
      split at h
      · next hlt =>
        rw [if_pos hlt] at h'
        obtain ⟨x, hx, rfl⟩ := Option.map_eq_some_iff.mp h
        obtain ⟨y, hy, rfl⟩ := Option.map_eq_some_iff.mp h'
        exact congrArg Nat.succ (ih hx hy)
      · next hlt =>
        rw [if_neg hlt] at h'
        rw [← Option.some.inj h, ← Option.some.inj h']

/-- A negative fraction is below every power of ten and below zero, so that the loop goes on. -/
theorem zeroTurns_neg (hf : fraction < 0) (ht : 0 ≤ tmp) (turns : Nat) : zeroTurns fraction turns tmp = none := by
  induction turns generalizing tmp with
  | zero => rfl
  | succ turns ih =>
    rw [zeroTurns, if_pos (by omega), ih (Int.tdiv_nonneg ht (by decide))]
    rfl

theorem tdiv_pow (k : Nat) : ((10 : Int) ^ (k + 1)).tdiv 10 = 10 ^ k := by
  rw [Int.pow_succ, Int.mul_tdiv_cancel _ (by decide)]

/-- A positive fraction is filled up with zeros to its digits. -/
theorem zeroTurns_pos (hq : 0 < q) (hlt : q < 10 ^ (k + 1)) :
    zeroTurns q (k + 2) (10 ^ k) = some (k + 1 - (numeral 10 q).length) := by
  induction k with
  | zero =>
    have hone : ¬ (q : Int) < 10 ^ 0 := by omega
    rw [zeroTurns, if_neg hone, numeral_of_lt (b := 10) (by omega)]
    rfl
  | succ k ih =>
    have hlength := numeral_length_le_iff (b := 10) (n := q) (k := k + 1) (by decide) (Nat.succ_pos k)
    by_cases hk : q < 10 ^ (k + 1)
    · have hk' : (q : Int) < 10 ^ (k + 1) := by exact_mod_cast hk
      rw [zeroTurns, if_pos hk', tdiv_pow, ih hk, Option.map_some]
      have hle := hlength.mpr hk
      congr 1
      omega
    · have hk' : ¬ (q : Int) < 10 ^ (k + 1) := by exact_mod_cast hk
      have hgt : ¬ (numeral 10 q).length ≤ k + 1 := fun hle => hk (hlength.mp hle)
      rw [zeroTurns, if_neg hk']
      congr 1
      omega

/-- The fraction zero gets one digit more than there should be. -/
theorem zeroTurns_zero (k : Nat) : zeroTurns 0 (k + 2) (10 ^ k) = some (k + 1) := by
  induction k with
  | zero => decide
  | succ k ih => rw [zeroTurns, if_pos (Int.pow_pos (by decide)), tdiv_pow, ih, Option.map_some]

theorem zeroTurns_zero_le (h : n < 10 ^ k) : ∃ c, c ≤ k ∧ zeroTurns 0 (k + 1) n = some c := by
  induction k generalizing n with
  | zero =>
    have hn : n = 0 := by omega
    exact ⟨0, Nat.le_refl 0, by rw [hn]; rfl⟩
  | succ k ih =>
    obtain ⟨c, hc, hturns⟩ := ih (n := n / 10) (Nat.div_lt_of_lt_mul (by rwa [Nat.pow_succ, Nat.mul_comm] at h))
    have hdiv : (n : Int).tdiv 10 = (n / 10 : Nat) := rfl
    by_cases hn : (0 : Int) < n
    · exact ⟨c + 1, Nat.succ_le_succ hc, by rw [zeroTurns, if_pos hn, hdiv, hturns]; rfl⟩
    · exact ⟨0, Nat.zero_le _, if_neg hn⟩

/-! ### The output -/

/-- What `fixedPt2Str` puts together -/
def fixOutput (integer : Int) (c : Nat) (fraction : Int) : List UInt8 :=
  decimal integer ++ [46] ++ (List.replicate c 48 ++ decimal fraction)

theorem decimal_length_le (h : v.natAbs < 1000000) : (decimal v).length ≤ 7 := by
  have hlength : (numeral 10 v.natAbs).length ≤ 6 := (numeral_length_le_iff (by decide) (by decide)).mpr h
  unfold decimal
  split
  · exact Nat.succ_le_succ hlength
  · exact Nat.le_succ_of_le hlength

theorem fixRound_range (f : Int) : (fixRound f).natAbs ≤ 131072 := by
  have hpos := int32_range (f + 8192)
  have hneg := int32_range (f - 8192)
  unfold fixRound
  split
  · rw [Int.natAbs_tdiv]
    exact Nat.div_le_of_le_mul (by omega)
  · rw [Int.natAbs_tdiv]
    exact Nat.div_le_of_le_mul (by omega)

/-- The frame, with texts that arrays hold -/
structure FixTexts (m : Blocks FixArray) (held : FixArray → Option (List UInt8)) : Prop where
  frame : FixFrame m
  texts : ∀ x l, held x = some l → m.IsString x.ptr l

/-- Writing to an array that is no constant changes its text only. -/
theorem FixTexts.write {x : FixArray} {l r : List UInt8} (h : FixTexts m held) (hl : (m.put x.ptr r).IsString x.ptr l)
    (hzero : FixArray.zero ≠ x) (hpoint : FixArray.point ≠ x) :
    FixTexts (m.put x.ptr r) (Function.update held x (some l)) where
  frame := ⟨h.frame.intPart, h.frame.fractPart, h.frame.zeros, h.frame.fractPart2, h.frame.zero.put_other hzero,
    h.frame.point.put_other hpoint, h.frame.output⟩
  texts y l' hy := by
    by_cases hyx : y = x
    · subst hyx
      rw [Function.update_self, Option.some.injEq] at hy
      exact hy ▸ hl
    · rw [Function.update_of_ne hyx] at hy
      exact (h.texts y l' hy).put_other hyx

theorem isString_array {x : FixArray} {l : List UInt8} (hsize : l.length < m.size x) (hl : 0 ∉ l) :
    (m.put x.ptr (l ++ [0])).IsString x.ptr l :=
  Blocks.isString_put ((Nat.zero_add l.length).symm ▸ hsize) hl

/-- A number is written to one of the arrays of twenty bytes. -/
theorem ltostr_writes {x : FixArray} (h : FixTexts m held) (hsize : m.size x = 20) (hv : v.natAbs ≤ 131072)
    (hzero : FixArray.zero ≠ x) (hpoint : FixArray.point ≠ x) :
    ∃ t, ltostr m v x.ptr = some t ∧ FixTexts t (Function.update held x (some (decimal v))) := by
  have hlength := decimal_length_le (v := v) (by omega)
  have hsize' : m.size x.ptr.block = 20 := hsize
  have hoffset : x.ptr.offset = 0 := rfl
  have hwrite : ltostr m v x.ptr = some (m.put x.ptr (decimal v ++ [0])) := by
    rw [ltostr_eq (by omega) (by omega) (by omega), written_eq (by omega) (by omega)]
  exact ⟨_, hwrite, h.write (isString_array (by omega) zero_notMem_decimal) hzero hpoint⟩

theorem zero_notMem_append {x y : FixArray} {l l' : List UInt8} (h : m.IsString x.ptr l) (h' : m.IsString y.ptr l') :
    0 ∉ l ++ l' := fun hmem => (List.mem_append.mp hmem).elim h.nonzero h'.nonzero

/-- Two texts are written behind each other to a third array. -/
theorem strcconcat_writes {x y w : FixArray} {l l' : List UInt8} (h : FixTexts m held) (hl : held x = some l)
    (hl' : held y = some l') (hx : x ≠ w) (hy : y ≠ w) (hzero : FixArray.zero ≠ w) (hpoint : FixArray.point ≠ w)
    (hfits : l.length + l'.length < m.size w) :
    ∃ t, strcconcat m x.ptr y.ptr w.ptr = some t ∧ FixTexts t (Function.update held w (some (l ++ l'))) := by
  have hleft := h.texts x l hl
  have hright := h.texts y l' hl'
  have hwrite : strcconcat m x.ptr y.ptr w.ptr = some (m.put w.ptr (l ++ l' ++ [0])) :=
    strcconcat_eq hleft hright hx hy ((Nat.zero_add l.length).symm ▸ hfits)
  have hstring : (m.put w.ptr (l ++ l' ++ [0])).IsString w.ptr (l ++ l') :=
    isString_array (by rw [List.length_append]; exact hfits) (zero_notMem_append hleft hright)
  exact ⟨_, hwrite, h.write hstring hzero hpoint⟩

/-- The point is written behind the text of an array. -/
theorem strcconcat_point {x : FixArray} {l : List UInt8} (h : FixTexts m held) (hl : held x = some l)
    (hzero : FixArray.zero ≠ x) (hpoint : FixArray.point ≠ x) (hfits : l.length + 1 < m.size x) :
    ∃ t, strcconcat m x.ptr FixArray.point.ptr x.ptr = some t ∧ FixTexts t (Function.update held x (some (l ++ [46]))) := by
  have hleft := h.texts x l hl
  have hwrite := strcconcat_left hleft h.frame.point hpoint ((Nat.zero_add l.length).symm ▸ hfits)
  have hstring : (m.put x.ptr (l ++ [46] ++ [0])).IsString x.ptr (l ++ [46]) :=
    isString_array (by rw [List.length_append]; exact hfits) (zero_notMem_append hleft h.frame.point)
  exact ⟨_, hwrite, h.write hstring hzero hpoint⟩

/-- `memset` empties the array of the zeros, and the loop fills it. -/
theorem addZeros_writes (h : FixTexts m held) (hturns : zeroTurns fraction turns tmp = some c) (hc : c ≤ 9) :
    ∃ t, addZeros fraction turns (m.put FixArray.zeros.ptr (List.replicate 10 0)) tmp = some t ∧
      FixTexts t (Function.update held .zeros (some (List.replicate c 48))) := by
  have hsize : m.size FixArray.zeros.ptr.block = 10 := h.frame.zeros
  have hholds : (m.put FixArray.zeros.ptr (List.replicate 10 0)).Holds FixArray.zeros.ptr ([0] ++ List.replicate 9 0) :=
    Blocks.holds_put (by rw [hsize]; decide)
  have hempty : (m.put FixArray.zeros.ptr (List.replicate 10 0)).IsString FixArray.zeros.ptr [] :=
    ⟨hholds.left, List.not_mem_nil⟩
  have hcleared := h.write hempty (by decide) (by decide)
  have hwrite := addZeros_eq (z := 0) hcleared.frame.zero hempty hcleared.frame.zeros hturns (by omega)
  rw [Nat.zero_add] at hwrite
  have hfilled := hcleared.write (x := .zeros) (l := List.replicate c 48)
    (isString_array (by rw [hcleared.frame.zeros, List.length_replicate]; omega) (by simp)) (by decide) (by decide)
  rw [Function.update_idem] at hfilled
  exact ⟨_, hwrite, hfilled⟩

theorem fixedPt2Str_none {S : Int} (hS : fixScale f (mulFactor d) = some S)
    (h : zeroTurns ((fixRound S).tmod (mulFactor d)) turns ((mulFactor d).tdiv 10) = none) : fixedPt2Str turns m f d = none := by
  unfold fixedPt2Str
  rw [hS, Option.bind_some]
  split
  · rfl
  · dsimp only
    cases ltostr m ((fixRound S).tdiv (mulFactor d)) FixArray.intPart.ptr with
    | none => rfl
    | some m =>
      rw [Option.bind_some]
      cases ltostr m ((fixRound S).tmod (mulFactor d)) FixArray.fractPart.ptr with
      | none => rfl
      | some m => rw [Option.bind_some, addZeros_none h, Option.bind_none]

theorem fixedPt2Str_eq (hm : FixFrame m) {S : Int} (hS : fixScale f (mulFactor d) = some S) (hM : mulFactor d ≠ 0)
    (h : zeroTurns ((fixRound S).tmod (mulFactor d)) turns ((mulFactor d).tdiv 10) = some c) (hc : c ≤ 9) :
    ∃ t, fixedPt2Str turns m f d = some t ∧ t.IsString FixArray.output.ptr
      (fixOutput ((fixRound S).tdiv (mulFactor d)) c ((fixRound S).tmod (mulFactor d))) := by
  have hV := fixRound_range S
  have hinteger : ((fixRound S).tdiv (mulFactor d)).natAbs ≤ 131072 := by
    rw [Int.natAbs_tdiv]
    exact Nat.le_trans (Nat.div_le_self ..) hV
  have hfraction : ((fixRound S).tmod (mulFactor d)).natAbs ≤ 131072 := by
    rw [Int.natAbs_tmod]
    exact Nat.le_trans (Nat.mod_le ..) hV
  unfold fixedPt2Str
  rw [hS, Option.bind_some, if_neg hM]
  dsimp only
  generalize (fixRound S).tdiv (mulFactor d) = integer at hinteger ⊢
  generalize (fixRound S).tmod (mulFactor d) = fraction at hfraction h ⊢
  have hlenI := decimal_length_le (v := integer) (by omega)
  have hlenF := decimal_length_le (v := fraction) (by omega)
  have hlenZF : (List.replicate c (48 : UInt8)).length + (decimal fraction).length ≤ 16 := by
    rw [List.length_replicate]
    omega
  have htexts : FixTexts m fun _ => none := ⟨hm, nofun⟩
  -- The two numbers
  obtain ⟨m₁, h₁, htexts₁⟩ := ltostr_writes htexts (x := .intPart) hm.intPart hinteger (by decide) (by decide)
  rw [h₁, Option.bind_some]
  obtain ⟨m₂, h₂, htexts₂⟩ := ltostr_writes htexts₁ (x := .fractPart) htexts₁.frame.fractPart hfraction (by decide) (by decide)
  rw [h₂, Option.bind_some]
  -- The fraction behind its zeros
  obtain ⟨m₃, h₃, htexts₃⟩ := addZeros_writes htexts₂ h hc
  rw [h₃, Option.bind_some]
  obtain ⟨m₄, h₄, htexts₄⟩ := strcconcat_writes htexts₃ (x := .zeros) (y := .fractPart) (w := .fractPart2) rfl rfl (by decide)
    (by decide) (by decide) (by decide) (by rw [htexts₃.frame.fractPart2]; omega)
  rw [h₄, Option.bind_some]
  -- The integer part with the point
  obtain ⟨m₅, h₅, htexts₅⟩ := strcconcat_point htexts₄ (x := .intPart) rfl (by decide) (by decide)
    (by rw [htexts₄.frame.intPart]; omega)
  rw [h₅, Option.bind_some]
  -- The output
  have hroom := htexts₅.frame.output
  obtain ⟨t, ht, htexts₆⟩ := strcconcat_writes htexts₅ (x := .intPart) (y := .fractPart2) (w := .output) rfl rfl (by decide)
    (by decide) (by decide) (by decide) (by simp only [List.length_append, List.length_singleton]; omega)
  exact ⟨t, ht, htexts₆.texts .output _ rfl⟩

/-- The output is determined by the turns of the loop. -/
theorem printsFixed_iff (hm : FixFrame m) {S : Int} (hS : fixScale f (mulFactor d) = some S) (hM : mulFactor d ≠ 0)
    (h : zeroTurns ((fixRound S).tmod (mulFactor d)) turns ((mulFactor d).tdiv 10) = some c) (hc : c ≤ 9) :
    PrintsFixed m f d ↔ fixOutput ((fixRound S).tdiv (mulFactor d)) c ((fixRound S).tmod (mulFactor d)) = fixedText f d := by
  constructor
  · rintro ⟨turns', t, ht, htext⟩
    cases h' : zeroTurns ((fixRound S).tmod (mulFactor d)) turns' ((mulFactor d).tdiv 10) with
    | none =>
      rw [fixedPt2Str_none hS h'] at ht
      cases ht
    | some c' =>
      obtain rfl := zeroTurns_unique h h'
      obtain ⟨t', ht', htext'⟩ := fixedPt2Str_eq hm hS hM h' hc
      rw [ht, Option.some.injEq] at ht'
      exact isString_unique (ht' ▸ htext') htext
  · intro heq
    obtain ⟨t, ht, htext⟩ := fixedPt2Str_eq hm hS hM h hc
    exact ⟨turns, t, ht, heq ▸ htext⟩

theorem not_printsFixed_neg {S : Int} (hS : fixScale f (mulFactor d) = some S) (hM : 0 ≤ mulFactor d)
    (hneg : (fixRound S).tmod (mulFactor d) < 0) : ¬ PrintsFixed m f d := by
  rintro ⟨turns, t, ht, -⟩
  rw [fixedPt2Str_none hS (zeroTurns_neg hneg (Int.tdiv_nonneg hM (by decide)) turns)] at ht
  cases ht

/-! ### Rounding -/

theorem mulFactor_pow : ∀ d, d ≤ 9 → mulFactor d = 10 ^ d := by decide

theorem fixRound_nonneg (h : 0 ≤ v) (hu : v + 8192 < 2147483648) : fixRound v = ((v.natAbs + 8192) / 16384 : Nat) := by
  have hv : v + 8192 = ((v.natAbs + 8192 : Nat) : Int) := by omega
  rw [fixRound, if_pos h, int32_eq (by omega) hu, hv]
  rfl

theorem fixRound_neg (h : v < 0) (hl : -2147483648 ≤ v - 8192) : fixRound v = -((v.natAbs + 8192) / 16384 : Nat) := by
  have hv : v - 8192 = -((v.natAbs + 8192 : Nat) : Int) := by omega
  rw [fixRound, if_neg (by omega), int32_eq hl (by omega), hv, Int.neg_tdiv]
  rfl

/-- Rounding a number that is too large gives a negative one. -/
theorem fixRound_overflow (hl : 2147483648 ≤ v + 8192) (hu : v < 2147483648) :
    fixRound v = -(131072 : Nat) ∨ fixRound v = -(131071 : Nat) := by
  have hwrap : int32 (v + 8192) = -((4294967296 - (v.natAbs + 8192) : Nat) : Int) := by
    rw [int32, Int.bmod_def]
    split <;> omega
  have hdiv : fixRound v = -(((4294967296 - (v.natAbs + 8192)) / 16384 : Nat) : Int) := by
    rw [fixRound, if_pos (by omega), hwrap, Int.neg_tdiv]
    rfl
  rw [hdiv]
  omega

theorem fixRound_underflow (hl : -2147483648 ≤ v) (hu : v - 8192 < -2147483648) : fixRound v = (131071 : Nat) := by
  have hwrap : int32 (v - 8192) = ((4294967296 - (v.natAbs + 8192) : Nat) : Int) := by
    rw [int32, Int.bmod_def]
    split <;> omega
  have hdiv : fixRound v = (((4294967296 - (v.natAbs + 8192)) / 16384 : Nat) : Int) := by
    rw [fixRound, if_neg (by omega), hwrap]
    rfl
  rw [hdiv]
  omega

theorem decimal_natCast (n : Nat) : decimal n = numeral 10 n := by
  rw [decimal, if_neg (by omega), Int.natAbs_natCast]

theorem decimal_neg_natCast (n : Nat) : decimal (-n) = (if n ≠ 0 then [45] else []) ++ numeral 10 n := by
  unfold decimal
  rw [Int.natAbs_neg, Int.natAbs_natCast]
  by_cases hn : n = 0
  · rw [if_neg (by omega), if_neg (not_not.mpr hn), List.nil_append]
  · rw [if_pos (by omega), if_pos hn, List.singleton_append]

/-- The fraction zero is written with a digit too much. -/
theorem fixOutput_zero_ne {i : Int} {k : Nat} (hi : (decimal i).length =
      ((if f < 0 ∧ scaledMagnitude f (k + 1) ≠ 0 then [45] else []) ++ numeral 10 (scaledMagnitude f (k + 1) / 10 ^ (k + 1))).length)
    (hr : scaledMagnitude f (k + 1) % 10 ^ (k + 1) = 0) : fixOutput i (k + 1) 0 ≠ fixedText f (k + 1) := by
  intro heq
  have hlength := congrArg List.length heq
  have hzero : decimal 0 = [48] := by decide
  have hzero' : numeral 10 0 = [48] := by decide
  simp only [fixOutput, fixedText, hr, hzero, hzero', List.length_append, List.length_replicate, List.length_cons,
    List.length_nil] at hlength hi
  omega

/-- What the arguments must be: the fraction is positive after rounding, or `10^d` is out of range and the digits come out
    right by chance. -/
def FixPrintable (f : Int) (d : Nat) : Prop :=
  (f * 10 ^ d + 8192 < 2147483648 ∧ 0 < (f * 10 ^ d + 8192) / 16384 ∧ ¬ (10 : Int) ^ d ∣ (f * 10 ^ d + 8192) / 16384) ∨
    (f = 0 ∧ d = 10)

theorem printsFixed_zero (hm : FixFrame m) (hd : 1 ≤ d) : PrintsFixed m 0 d ↔ d = 10 := by
  obtain ⟨k, rfl⟩ := Nat.exists_eq_add_one_of_ne_zero (Nat.ne_of_gt hd)
  by_cases hM : 0 < mulFactor (k + 1)
  · have hS : fixScale 0 (mulFactor (k + 1)) = some 0 := by
      rw [fixScale, if_pos (Int.le_of_lt hM), Int.zero_mul]
      rfl
    have hround : fixRound 0 = 0 := by decide
    obtain ⟨p, hp⟩ := Int.eq_ofNat_of_zero_le (Int.le_of_lt hM)
    have hrange := int32_range (mulFactor k * 10)
    have hlt : p / 10 < 10 ^ 9 := by
      have heq : mulFactor (k + 1) = int32 (mulFactor k * 10) := rfl
      omega
    obtain ⟨c, hc, hturns⟩ := zeroTurns_zero_le hlt
    have hturns' : zeroTurns ((fixRound 0).tmod (mulFactor (k + 1))) 10 ((mulFactor (k + 1)).tdiv 10) = some c := by
      rw [hround, Int.zero_tmod, hp]
      exact hturns
    have htext : fixOutput 0 c 0 = fixedText 0 (k + 1) ↔ c = k := by
      have hzero : decimal 0 = [48] := by decide
      have hzero' : numeral 10 0 = [48] := by decide
      have hmagnitude : scaledMagnitude 0 (k + 1) = 0 := by simp [scaledMagnitude]
      have hfixed : fixedText 0 (k + 1) = [48] ++ [46] ++ (List.replicate k 48 ++ [48]) := by
        simp [fixedText, hmagnitude, hzero']
      rw [fixOutput, hzero, hfixed, List.append_cancel_left_eq, List.append_left_inj, List.replicate_left_inj]
    rw [printsFixed_iff hm hS (Int.ne_of_gt hM) hturns' hc, hround, Int.zero_tdiv, Int.zero_tmod, htext]
    rw [hround, Int.zero_tmod] at hturns'
    constructor
    · rintro rfl
      by_contra hne
      -- Up to nine digits the factor is the power of ten, and there is a zero too many.
      rw [mulFactor_pow _ (by omega), tdiv_pow] at hturns'
      exact absurd (zeroTurns_unique hturns' (zeroTurns_zero c)) (Nat.ne_of_lt (Nat.lt_succ_self c))
    · intro hk
      obtain rfl : k = 9 := by omega
      exact zeroTurns_unique hturns' (show zeroTurns 0 10 ((mulFactor 10).tdiv 10) = some 9 by decide)
  · -- The factor is out of range, and the function does not get through.
    have hnone : ¬ PrintsFixed m 0 (k + 1) := by
      rintro ⟨turns, t, ht, -⟩
      unfold fixedPt2Str at ht
      by_cases hzero : mulFactor (k + 1) = 0
      · rw [hzero] at ht
        cases ht
      · rw [fixScale, if_neg (by omega)] at ht
        cases ht
    refine iff_of_false hnone fun hk => hM ?_
    obtain rfl : k = 9 := by omega
    decide

/-- A number other than zero whose scaled value is in range -/
theorem scaled_eq (hl : -2147483648 ≤ f * 10 ^ d) (hu : f * 10 ^ d < 2147483648) (hf : f ≠ 0) :
    mulFactor d = (10 ^ d : Nat) ∧ d ≤ 9 ∧ fixScale f (mulFactor d) = some (f * 10 ^ d) ∧
      scaledMagnitude f d = ((f * 10 ^ d).natAbs + 8192) / 16384 := by
  have habs : (f * 10 ^ d).natAbs = f.natAbs * 10 ^ d := by
    rw [Int.natAbs_mul, Int.natAbs_pow]
    rfl
  have hle : d ≤ 9 := by
    by_contra hgt
    have hpow : 10 ^ 10 ≤ 10 ^ d := Nat.pow_le_pow_right (by decide) (by omega)
    have hmul : 1 * 10 ^ d ≤ f.natAbs * 10 ^ d := Nat.mul_le_mul_right _ (by omega)
    omega
  refine ⟨?_, hle, ?_, ?_⟩
  · rw [mulFactor_pow d hle]
    push_cast
    rfl
  · rw [fixScale, mulFactor_pow d hle, if_pos (Int.le_of_lt (Int.pow_pos (by decide))), int32_eq hl hu]
  · rw [scaledMagnitude, habs]

/-- A fraction that is zero after rounding -/
theorem not_printsFixed_whole (hm : FixFrame m) {S : Int} {r : Nat} (hM : mulFactor (k + 1) = (10 ^ (k + 1) : Nat)) (hk : k ≤ 8)
    (hS : fixScale f (mulFactor (k + 1)) = some S) (hr : scaledMagnitude f (k + 1) = r) (hzero : r % 10 ^ (k + 1) = 0)
    (hround : fixRound S = if f < 0 then -(r : Int) else r) : ¬ PrintsFixed m f (k + 1) := by
  have hpos : 0 < 10 ^ (k + 1) := Nat.pow_pos (by decide)
  have hdivM : (mulFactor (k + 1)).tdiv 10 = 10 ^ k := by
    rw [hM]
    push_cast
    exact tdiv_pow k
  have hfraction : (fixRound S).tmod (mulFactor (k + 1)) = 0 := by
    have hmod : (r : Int).tmod (10 ^ (k + 1) : Nat) = (r % 10 ^ (k + 1) : Nat) := rfl
    rw [hround, hM]
    split
    · rw [Int.neg_tmod, hmod, hzero]
      rfl
    · rw [hmod, hzero]
      rfl
  have hturns : zeroTurns ((fixRound S).tmod (mulFactor (k + 1))) (k + 2) ((mulFactor (k + 1)).tdiv 10) = some (k + 1) := by
    rw [hfraction, hdivM, zeroTurns_zero]
  rw [printsFixed_iff hm hS (by omega) hturns (by omega), hfraction]
  refine fixOutput_zero_ne ?_ (hr ▸ hzero)
  have hdiv : (r : Int).tdiv (10 ^ (k + 1) : Nat) = (r / 10 ^ (k + 1) : Nat) := rfl
  rw [hround, hM, hr]
  by_cases hf : f < 0
  · have hne : r / 10 ^ (k + 1) ≠ 0 ↔ r ≠ 0 := by
      rw [Ne, Ne, not_iff_not, Nat.div_eq_zero_iff_lt hpos]
      constructor
      · intro hlt
        rwa [Nat.mod_eq_of_lt hlt] at hzero
      · rintro rfl
        exact hpos
    rw [if_pos hf, Int.neg_tdiv, hdiv, decimal_neg_natCast]
    simp only [hf, true_and, hne]
  · rw [if_neg hf, hdiv, decimal_natCast]
    simp [hf]

/-- A fraction that is positive after rounding -/
theorem printsFixed_fraction (hm : FixFrame m) {S : Int} {r : Nat} (hM : mulFactor (k + 1) = (10 ^ (k + 1) : Nat)) (hk : k ≤ 8)
    (hS : fixScale f (mulFactor (k + 1)) = some S) (hround : fixRound S = (r : Int)) (hr : r % 10 ^ (k + 1) ≠ 0) :
    PrintsFixed m f (k + 1) ↔
      fixOutput (r / 10 ^ (k + 1) : Nat) (k + 1 - (numeral 10 (r % 10 ^ (k + 1))).length) (r % 10 ^ (k + 1) : Nat) =
        fixedText f (k + 1) := by
  have hpos : 0 < 10 ^ (k + 1) := Nat.pow_pos (by decide)
  have hdivM : (mulFactor (k + 1)).tdiv 10 = 10 ^ k := by
    rw [hM]
    push_cast
    exact tdiv_pow k
  have hfraction : (fixRound S).tmod (mulFactor (k + 1)) = (r % 10 ^ (k + 1) : Nat) := by
    rw [hround, hM]
    rfl
  have hinteger : (fixRound S).tdiv (mulFactor (k + 1)) = (r / 10 ^ (k + 1) : Nat) := by
    rw [hround, hM]
    rfl
  have hturns := zeroTurns_pos (Nat.pos_of_ne_zero hr) (Nat.mod_lt r hpos)
  rw [← hfraction, ← hdivM] at hturns
  rw [printsFixed_iff hm hS (by omega) hturns (by omega), hinteger, hfraction]

/-- A rounded value that is negative does not end in a fraction of zero when it is no multiple of ten. -/
theorem tmod_neg {r : Nat} (hM : mulFactor d = (10 ^ d : Nat)) (hr : r % 10 ^ d ≠ 0) : (-(r : Int)).tmod (mulFactor d) < 0 := by
  have hmod : (r : Int).tmod (10 ^ d : Nat) = (r % 10 ^ d : Nat) := rfl
  rw [hM, Int.neg_tmod, hmod]
  omega

theorem mod_pow_ne_zero {r : Nat} (hr : r % 10 ≠ 0) : r % 10 ^ (k + 1) ≠ 0 := by
  intro hzero
  have hdvd : 10 ∣ 10 ^ (k + 1) := Dvd.intro_left (10 ^ k) rfl
  exact hr (Nat.mod_eq_zero_of_dvd (hdvd.trans (Nat.dvd_of_mod_eq_zero hzero)))

theorem printsFixed_pos (hm : FixFrame m) (hd : 1 ≤ d) (hl : -2147483648 ≤ f * 10 ^ d) (hu : f * 10 ^ d < 2147483648)
    (hf : 0 < f) : PrintsFixed m f d ↔ FixPrintable f d := by
  obtain ⟨k, rfl⟩ := Nat.exists_eq_add_one_of_ne_zero (Nat.ne_of_gt hd)
  obtain ⟨hM, hk, hS, hmag⟩ := scaled_eq hl hu (Int.ne_of_gt hf)
  have hN : 0 < f * 10 ^ (k + 1) := Int.mul_pos hf (Int.pow_pos (by decide))
  unfold FixPrintable
  generalize f * 10 ^ (k + 1) = v at hl hu hS hmag hN ⊢
  by_cases hover : v + 8192 < 2147483648
  · have hround := fixRound_nonneg (Int.le_of_lt hN) hover
    have hquot : (v + 8192) / 16384 = ((v.natAbs + 8192) / 16384 : Nat) := by omega
    rw [hquot]
    generalize (v.natAbs + 8192) / 16384 = r at hround hmag ⊢
    have hdvd : (10 : Int) ^ (k + 1) ∣ r ↔ r % 10 ^ (k + 1) = 0 := by
      rw [← Nat.dvd_iff_mod_eq_zero, ← Int.natCast_dvd_natCast]
      push_cast
      rfl
    by_cases hr : r % 10 ^ (k + 1) = 0
    · refine iff_of_false (not_printsFixed_whole hm hM (by omega) hS hmag hr (by rw [hround, if_neg (by omega)])) ?_
      rintro (⟨-, -, hnot⟩ | ⟨rfl, -⟩)
      · exact hnot (hdvd.mpr hr)
      · omega
    · have hrpos : r ≠ 0 := by
        rintro rfl
        exact hr (Nat.zero_mod _)
      refine iff_of_true ((printsFixed_fraction hm hM (by omega) hS hround hr).mpr ?_) (Or.inl ⟨hover, by omega, ?_⟩)
      · rw [fixOutput, fixedText, hmag, decimal_natCast, decimal_natCast, if_neg (by omega), List.nil_append]
      · exact fun hd => hr (hdvd.mp hd)
  · have hneg : (fixRound v).tmod (mulFactor (k + 1)) < 0 := by
      rcases fixRound_overflow (by omega) hu with hround | hround
      · exact hround ▸ tmod_neg hM (mod_pow_ne_zero (by decide))
      · exact hround ▸ tmod_neg hM (mod_pow_ne_zero (by decide))
    refine iff_of_false (not_printsFixed_neg hS (hM ▸ Int.natCast_nonneg _) hneg) ?_
    rintro (⟨hlt, -⟩ | ⟨rfl, -⟩)
    · exact hover hlt
    · omega

theorem not_printsFixed_of_neg (hm : FixFrame m) (hd : 1 ≤ d) (hl : -2147483648 ≤ f * 10 ^ d) (hu : f * 10 ^ d < 2147483648)
    (hf : f < 0) : ¬ PrintsFixed m f d := by
  obtain ⟨k, rfl⟩ := Nat.exists_eq_add_one_of_ne_zero (Nat.ne_of_gt hd)
  obtain ⟨hM, hk, hS, hmag⟩ := scaled_eq hl hu (Int.ne_of_lt hf)
  have hN : f * 10 ^ (k + 1) < 0 := Int.mul_neg_of_neg_of_pos hf (Int.pow_pos (by decide))
  generalize f * 10 ^ (k + 1) = v at hl hu hS hmag hN
  by_cases hunder : -2147483648 ≤ v - 8192
  · have hround := fixRound_neg hN hunder
    generalize (v.natAbs + 8192) / 16384 = r at hround hmag
    by_cases hr : r % 10 ^ (k + 1) = 0
    · exact not_printsFixed_whole hm hM (by omega) hS hmag hr (by rw [hround, if_pos hf])
    · exact not_printsFixed_neg hS (hM ▸ Int.natCast_nonneg _) (hround ▸ tmod_neg hM hr)
  · -- The rounded value is positive, and the sign is missing.
    have hround := fixRound_underflow hl (by omega)
    have hne : scaledMagnitude f (k + 1) ≠ 0 := by omega
    rw [printsFixed_fraction hm hM (by omega) hS hround (mod_pow_ne_zero (by decide))]
    intro heq
    rw [fixOutput, fixedText, decimal_natCast, if_pos ⟨hf, hne⟩] at heq
    obtain ⟨c, l, hcons⟩ := List.exists_cons_of_ne_nil (numeral_ne_nil (b := 10) (n := 131071 / 10 ^ (k + 1)))
    have hdigit : IsDigit c := numeral_isDigit c (hcons ▸ List.mem_cons_self)
    rw [hcons] at heq
    simp only [List.cons_append, List.cons.injEq] at heq
    exact absurd (heq.1 ▸ hdigit) (by decide)

/-- `fixedPt2Str` ends and writes the numeral of `f` for exactly these arguments. -/
theorem fixedPt2Str_iff (hm : FixFrame m) (hd : 1 ≤ d) (hl : -2147483648 ≤ f * 10 ^ d) (hu : f * 10 ^ d < 2147483648) :
    PrintsFixed m f d ↔ FixPrintable f d := by
  rcases lt_trichotomy f 0 with hf | rfl | hf
  · refine iff_of_false (not_printsFixed_of_neg hm hd hl hu hf) ?_
    have hN : f * 10 ^ d < 0 := Int.mul_neg_of_neg_of_pos hf (Int.pow_pos (by decide))
    rintro (⟨-, hpos, -⟩ | ⟨rfl, -⟩)
    · omega
    · exact absurd hf (by decide)
  · rw [printsFixed_zero hm hd]
    simp [FixPrintable]
  · exact printsFixed_pos hm hd hl hu hf

/-- The memory of a call with an output of 32 bytes -/
def fixMemory : Blocks FixArray where
  size
    | .zeros => 10
    | .zero | .point => 2
    | .output => 32
    | _ => 20
  data
    | .zero, 0 => 48
    | .point, 0 => 46
    | _, _ => 0

theorem fixMemory_frame : FixFrame fixMemory where
  intPart := rfl
  fractPart := rfl
  zeros := rfl
  fractPart2 := rfl
  zero := ⟨⟨by decide, by decide⟩, by decide⟩
  point := ⟨⟨by decide, by decide⟩, by decide⟩
  output := by decide

theorem fixedPt2Str_iff_half : PrintsFixed fixMemory 8192 1 ↔ FixPrintable 8192 1 :=
  fixedPt2Str_iff fixMemory_frame (by decide) (by decide) (by decide)

/-- One is written as `1.00` when one digit is asked for, and for `-0.5` the loop does not end. -/
theorem fixedPt2Str_wrong : fixedText 16384 1 = [49, 46, 48] ∧
    (∃ t, fixedPt2Str 3 fixMemory 16384 1 = some t ∧ t.IsString FixArray.output.ptr [49, 46, 48, 48]) ∧
    ∀ turns, fixedPt2Str turns fixMemory (-8192) 1 = none := by
  refine ⟨by decide, ?_, fun turns => ?_⟩
  · have hS : fixScale 16384 (mulFactor 1) = some 163840 := by decide
    have hturns : zeroTurns ((fixRound 163840).tmod (mulFactor 1)) 3 ((mulFactor 1).tdiv 10) = some 1 := by decide
    exact fixedPt2Str_eq fixMemory_frame hS (by decide) hturns (by decide)
  · have hS : fixScale (-8192) (mulFactor 1) = some (-81920) := by decide
    exact fixedPt2Str_none hS (zeroTurns_neg (by decide) (by decide) turns)

end Fos.Str
