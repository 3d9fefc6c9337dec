import Fos.Lib.Blocks
import Fos.Lib.Numeral
import Fos.Types
import Mathlib.Data.List.Induction

/-! Numbers as strings: `ltostr` and `strtol` (`lib/string.c`). -/

namespace Fos.Str
open Lib

variable {β : Type} [DecidableEq β]

/-! ### The functions -/

/-- The first loop of `ltostr`, with the length of what it has written; `none`, here and below, if an access is outside its
    block. Every turn goes one byte further, so that the size of the block bounds the turns. -/
def ltostrDigits (str : Ptr β) : Nat → Blocks β → Nat → Int → Option (Blocks β × Nat)
  | 0, _, _, _ => none
  | fuel + 1, m, s, value =>
    (m.store (str + s) (UInt8.ofInt (value.tmod 10 + 48))).bind fun m =>
      if value.tdiv 10 ≠ 0 then ltostrDigits str fuel m (s + 1) (value.tdiv 10) else some (m, s + 1)

/-- The loop of `ltostr` that reverses the digits -/
def ltostrReverse (str : Ptr β) : Nat → Blocks β → Nat → Nat → Option (Blocks β)
  | 0, _, _, _ => none
  | fuel + 1, m, start, end_ =>
    if start < end_ then
      (m.load (str + start)).bind fun tmp =>
        (m.load (str + end_)).bind fun c =>
          (m.store (str + start) c).bind fun m =>
            (m.store (str + end_) tmp).bind fun m => ltostrReverse str fuel m (start + 1) (end_ - 1)
    else some m

/-- `ltostr(value, str)` -/
def ltostr (m : Blocks β) (value : Int) (str : Ptr β) : Option (Blocks β) :=
  let sign : Option (Blocks β × Nat × Int) :=
    if value < 0 then (m.store (str + 0) 45).map fun m => (m, 1, int32 (value * -1)) else some (m, 0, value)
  sign.bind fun (m, neg, value) =>
    (ltostrDigits str (m.size str.block) m neg value).bind fun (m, s) =>
      (ltostrReverse str (m.size str.block) m neg (s - 1)).bind fun m => m.store (str + s) 0

omit [DecidableEq β] in
/-- The loop of `strtol` over the whitespace -/
def skipBlanks (m : Blocks β) : Nat → Ptr β → Option (Ptr β)
  | 0, _ => none
  | fuel + 1, s => (m.load s).bind fun c => if c = 32 ∨ c = 9 then skipBlanks m fuel (s + 1) else some s

/-- The value of a digit in `strtol` -/
def dig (c : UInt8) : Option Int :=
  if 48 ≤ c ∧ c ≤ 57 then some (c.toNat - 48)
  else if 97 ≤ c ∧ c ≤ 122 then some (c.toNat - 97 + 10)
  else if 65 ≤ c ∧ c ≤ 90 then some (c.toNat - 65 + 10)
  else none

/-- The loop of `strtol` over the digits -/
def strtolDigits (m : Blocks β) (base : Int) : Nat → Ptr β → Int → Option (Int × Ptr β)
  | 0, _, _ => none
  | fuel + 1, s, val =>
    (m.load s).bind fun c =>
      match dig c with
      | some d => if d ≥ base then some (val, s) else strtolDigits m base fuel (s + 1) (int32 (int32 (val * base) + d))
      | none => some (val, s)

/-- The prefix of a hexadecimal or octal number in `strtol` -/
def basePrefix (m : Blocks β) (s : Ptr β) (base : Int) : Option (Ptr β × Int) :=
  if base = 0 ∨ base = 16 then
    (m.load s).bind fun c =>
      if c = 48 then
        (m.load (s + 1)).bind fun x => some (if x = 120 then (s + 2, 16) else if base = 0 then (s + 1, 8) else (s, base))
      else some (s, if base = 0 then 10 else base)
  else some (s, base)

/-- `strtol(s, endptr, base)`, with the end -/
def strtol (m : Blocks β) (s : Ptr β) (base : Int) : Option (Int × Ptr β) :=
  (skipBlanks m (m.size s.block) s).bind fun s =>
    (m.load s).bind fun c =>
      let (s, neg) := if c = 43 then (s + 1, false) else if c = 45 then (s + 1, true) else (s, false)
      (basePrefix m s base).bind fun (s, base) =>
        (strtolDigits m base (m.size s.block) s 0).map fun (val, s) => (if neg then int32 (-val) else val, s)

/-! ### What is written -/

/-- The decimal numeral of an integer -/
def decimal (v : Int) : List UInt8 := if v < 0 then 45 :: numeral 10 v.natAbs else numeral 10 v.natAbs

/-- An optional sign, and decimal digits without leading zeros. -/
def IsDecimal (l : List UInt8) : Prop := IsNumeral l ∨ ∃ l', l = 45 :: l' ∧ IsNumeral l'

variable {m t : Blocks β} {p str : Ptr β} {l l₁ l₂ : List UInt8} {v : Int} {n s fuel : Nat}

theorem isDecimal_decimal (v : Int) : IsDecimal (decimal v) := by
  unfold decimal
  split
  · exact Or.inr ⟨_, rfl, isNumeral_numeral _⟩
  · exact Or.inl (isNumeral_numeral _)

theorem ofInt_digit : ∀ d : Nat, d < 10 → UInt8.ofInt (d + 48) = digit d := by decide

/-- The characters that the first loop of `ltostr` writes for a value of at most `k + 1` digits -/
def emitted : Nat → Int → List UInt8
  | 0, value => [UInt8.ofInt (value.tmod 10 + 48)]
  | k + 1, value =>
    UInt8.ofInt (value.tmod 10 + 48) :: if value.tdiv 10 ≠ 0 then emitted k (value.tdiv 10) else []

theorem natAbs_tdiv_lt (h : v.natAbs < 10 ^ (n + 1)) : (v.tdiv 10).natAbs < 10 ^ n := by
  rw [Int.natAbs_tdiv]
  exact Nat.div_lt_of_lt_mul (by rwa [Nat.pow_succ, Nat.mul_comm] at h)

theorem emitted_natCast (n k : Nat) (h : n < 10 ^ (k + 1)) : emitted k n = (numeral 10 n).reverse := by
  induction k generalizing n with
  | zero =>
    have hmod : (n : Int).tmod 10 = (n % 10 : Nat) := (Int.natCast_mod n 10).symm
    rw [emitted, hmod, ofInt_digit _ (Nat.mod_lt _ (by decide)), numeral_of_lt (by omega), Nat.mod_eq_of_lt (by omega)]
    rfl
  | succ k ih =>
    have hmod : (n : Int).tmod 10 = (n % 10 : Nat) := (Int.natCast_mod n 10).symm
    have hdiv : (n : Int).tdiv 10 = (n / 10 : Nat) := rfl
    rw [emitted, hmod, hdiv, ofInt_digit _ (Nat.mod_lt _ (by decide))]
    by_cases hn : n < 10
    · rw [numeral_of_lt hn, Nat.mod_eq_of_lt hn, Nat.div_eq_of_lt hn]
      rfl
    · have hne : ((n / 10 : Nat) : Int) ≠ 0 := by omega
      have hlt : n / 10 < 10 ^ (k + 1) := Nat.div_lt_of_lt_mul (by rwa [Nat.pow_succ, Nat.mul_comm] at h)
      rw [if_pos hne, ih _ hlt, numeral_of_le (by decide) (Nat.le_of_not_lt hn), List.reverse_append]
      rfl

theorem ltostrDigits_eq (m : Blocks β) (str : Ptr β) (s k : Nat) (v : Int) (hv : v.natAbs < 10 ^ (k + 1)) (hfuel : k < fuel)
    (hfits : str.offset + s + (emitted k v).length ≤ m.size str.block) :
    ltostrDigits str fuel m s v = some (m.put (str + s) (emitted k v), s + (emitted k v).length) := by
  induction k generalizing m s v fuel with
  | zero =>
    obtain ⟨fuel, rfl⟩ := Nat.exists_eq_succ_of_ne_zero (Nat.ne_of_gt hfuel)
    have hdiv : v.tdiv 10 = 0 := Int.natAbs_eq_zero.mp (Nat.lt_one_iff.mp (natAbs_tdiv_lt hv))
    have hstore := Blocks.store_eq (m := m) (p := str + s) (c := UInt8.ofInt (v.tmod 10 + 48)) hfits
    rw [ltostrDigits, hstore, Option.bind_some, if_neg (not_not.mpr hdiv)]
    rfl
  | succ k ih =>
    obtain ⟨fuel, rfl⟩ := Nat.exists_eq_succ_of_ne_zero (Nat.ne_of_gt (Nat.zero_lt_of_lt hfuel))
    have hlength : 0 < (emitted (k + 1) v).length := Nat.succ_pos _
    have hstore := Blocks.store_eq (m := m) (p := str + s) (c := UInt8.ofInt (v.tmod 10 + 48)) (by dsimp; omega)
    rw [ltostrDigits, hstore, Option.bind_some]
    unfold emitted at hfits ⊢
    by_cases hdiv : v.tdiv 10 ≠ 0
    · rw [if_pos hdiv] at hfits ⊢
      rw [List.length_cons] at hfits
      rw [if_pos hdiv, ih _ _ (v.tdiv 10) (natAbs_tdiv_lt hv) (by omega) (by rw [Blocks.size_put]; omega), List.length_cons]
      refine congrArg some (Prod.ext ?_ (by dsimp; omega))
      exact (Blocks.put_append m (str + s) [_] _).symm
    · rw [if_neg hdiv, if_neg hdiv]
      rfl

/-- The digits from `start` up to `end` are reversed in place. -/
theorem ltostrReverse_eq (m : Blocks β) (str : Ptr β) (l₁ l l₂ : List UInt8) (hfuel : l.length < fuel)
    (hfits : str.offset + (l₁ ++ l ++ l₂).length ≤ m.size str.block) :
    ltostrReverse str fuel (m.put str (l₁ ++ l ++ l₂)) l₁.length (l₁.length + l.length - 1) =
      some (m.put str (l₁ ++ l.reverse ++ l₂)) := by
  obtain ⟨fuel, rfl⟩ := Nat.exists_eq_succ_of_ne_zero (Nat.ne_of_gt (Nat.zero_lt_of_lt hfuel))
  induction l using List.bidirectionalRec generalizing l₁ l₂ fuel with
  | nil => exact if_neg (by simp)
  | singleton a => exact if_neg (by simp)
  | cons_append a mid z ih =>
    -- The two ends are exchanged; the digits between them are left.
    obtain ⟨fuel, rfl⟩ := Nat.exists_eq_succ_of_ne_zero (n := fuel) (by simp at hfuel; omega)
    have hsplit : l₁ ++ a :: (mid ++ [z]) ++ l₂ = l₁ ++ a :: (mid ++ z :: l₂) := by simp
    have hsplit' : l₁ ++ a :: (mid ++ z :: l₂) = l₁ ++ a :: mid ++ z :: l₂ := by simp
    have hend : l₁.length + (a :: (mid ++ [z])).length - 1 = (l₁ ++ a :: mid).length := by simp
    have hlength : (l₁ ++ a :: (mid ++ [z]) ++ l₂).length = l₁.length + mid.length + l₂.length + 2 := by simp; omega
    rw [hlength] at hfits
    have hholds : (m.put str (l₁ ++ a :: (mid ++ z :: l₂))).Holds str (l₁ ++ a :: (mid ++ z :: l₂)) :=
      Blocks.holds_put (by rw [← hsplit, hlength]; exact hfits)
    have hlast : (m.put str (l₁ ++ a :: (mid ++ z :: l₂))).load (str + (l₁ ++ a :: mid).length) = some z := by
      rw [hsplit']
      exact Blocks.Holds.load_middle (hsplit' ▸ hholds)
    have hfirst : (m.put str (l₁ ++ a :: (mid ++ z :: l₂))).store (str + l₁.length) z =
        some (m.put str (l₁ ++ z :: mid ++ z :: l₂)) := by
      rw [Blocks.store_middle (by omega)]
      simp
    have hstore : (m.put str (l₁ ++ z :: mid ++ z :: l₂)).store (str + (l₁ ++ a :: mid).length) a =
        some (m.put str (l₁ ++ [z] ++ mid ++ a :: l₂)) := by
      have heq : (l₁ ++ a :: mid).length = (l₁ ++ z :: mid).length := by simp
      rw [heq, Blocks.store_middle (by simp; omega)]
      simp
    have hlt : l₁.length < (l₁ ++ a :: mid).length := by simp
    rw [hsplit, hend, ltostrReverse, if_pos hlt, hholds.load_middle, Option.bind_some, hlast, Option.bind_some, hfirst,
      Option.bind_some, hstore, Option.bind_some]
    have hih := ih (l₁ ++ [z]) (a :: l₂) (by simp; omega) fuel (by simp at hfuel; omega)
    have hend' : (l₁ ++ a :: mid).length - 1 = (l₁ ++ [z]).length + mid.length - 1 := by simp
    have hstart : l₁.length + 1 = (l₁ ++ [z]).length := by simp
    rw [hend', hstart]
    refine hih.trans (congrArg some ?_)
    simp

theorem emitted_length_le (k : Nat) (v : Int) : (emitted k v).length ≤ k + 1 := by
  induction k generalizing v with
  | zero => exact Nat.le_refl 1
  | succ k ih =>
    unfold emitted
    rw [List.length_cons]
    split
    · exact Nat.succ_le_succ (ih _)
    · exact Nat.succ_le_succ (Nat.zero_le _)

/-- The text that `ltostr` writes -/
def written (v : Int) : List UInt8 :=
  if v < 0 then [45] ++ (emitted 9 (int32 (v * -1))).reverse else [] ++ (emitted 9 v).reverse

theorem written_length_le (v : Int) : (written v).length ≤ 11 := by
  have hneg := emitted_length_le 9 (int32 (v * -1))
  have hpos := emitted_length_le 9 v
  unfold written
  split <;> simp only [List.length_append, List.length_reverse, List.length_cons, List.length_nil] <;> omega

/-- What `ltostr` does behind the sign `l₁` -/
theorem ltostr_unsigned (m : Blocks β) (str : Ptr β) (l₁ : List UInt8) (v : Int) (hv : v.natAbs < 10 ^ 10) (hsize : 10 < m.size str.block)
    (hfits : str.offset + (l₁ ++ (emitted 9 v).reverse).length + 1 ≤ m.size str.block) :
    ((ltostrDigits str (m.size str.block) (m.put str l₁) l₁.length v).bind fun (t, s) =>
      (ltostrReverse str (t.size str.block) t l₁.length (s - 1)).bind fun t => t.store (str + s) 0) =
      some (m.put str (l₁ ++ (emitted 9 v).reverse ++ [0])) := by
  have hlength : (emitted 9 v).length ≤ 10 := emitted_length_le 9 v
  simp only [List.length_append, List.length_reverse] at hfits
  have hdigits := ltostrDigits_eq (m.put str l₁) str l₁.length 9 v hv (Nat.lt_of_succ_lt hsize) (by rw [Blocks.size_put]; omega)
  have hreverse : ltostrReverse str (m.size str.block) (m.put str (l₁ ++ emitted 9 v)) l₁.length
      (l₁.length + (emitted 9 v).length - 1) = some (m.put str (l₁ ++ (emitted 9 v).reverse)) := by
    have heq := ltostrReverse_eq m str l₁ (emitted 9 v) [] (Nat.lt_of_le_of_lt hlength hsize) (by
      simp only [List.length_append, List.length_nil]
      omega)
    rwa [List.append_nil, List.append_nil] at heq
  have hstore : (m.put str (l₁ ++ (emitted 9 v).reverse)).store (str + (l₁.length + (emitted 9 v).length)) 0 =
      some (m.put str (l₁ ++ (emitted 9 v).reverse ++ [0])) := by
    have hlen : l₁.length + (emitted 9 v).length = (l₁ ++ (emitted 9 v).reverse).length := by simp
    rw [hlen]
    refine Blocks.store_snoc ?_
    simp only [List.length_append, List.length_reverse]
    omega
  rw [← Blocks.put_append] at hdigits
  rw [hdigits, Option.bind_some]
  dsimp only
  rw [Blocks.size_put, hreverse, Option.bind_some, hstore]

/-- `ltostr` writes a text of at most eleven characters. -/
theorem ltostr_eq (hl : -2147483648 ≤ v) (hu : v < 2147483648) (hfits : str.offset + 12 ≤ m.size str.block) :
    ltostr m v str = some (m.put str (written v ++ [0])) := by
  have hlength := written_length_le v
  unfold ltostr written at *
  by_cases hneg : v < 0
  · have habs := int32_range (v * -1)
    rw [if_pos hneg] at hlength ⊢
    rw [if_pos hneg, Blocks.store_eq (m := m) (p := str + 0) (by dsimp; omega), Option.map_some, Option.bind_some]
    exact ltostr_unsigned m str [45] (int32 (v * -1)) (by omega) (by omega) (by omega)
  · rw [if_neg hneg] at hlength ⊢
    have heq := ltostr_unsigned m str [] v (by omega) (by omega) (by omega)
    rw [Blocks.put_nil] at heq
    rw [if_neg hneg, Option.bind_some]
    exact heq

theorem written_eq (hl : -2147483648 < v) (hu : v < 2147483648) : written v = decimal v := by
  have hlt : v.natAbs < 10 ^ (9 + 1) := by omega
  unfold written decimal
  by_cases hneg : v < 0
  · have habs : int32 (v * -1) = (v.natAbs : Int) := by
      rw [int32_eq (by omega) (by omega)]
      omega
    rw [if_pos hneg, if_pos hneg, habs, emitted_natCast _ 9 hlt, List.reverse_reverse]
    rfl
  · have habs : v = (v.natAbs : Int) := by omega
    rw [if_neg hneg, if_neg hneg, List.nil_append]
    nth_rewrite 1 [habs]
    rw [emitted_natCast _ 9 hlt, List.reverse_reverse]

/-! ### Reading back -/

theorem not_mem_zero_numeral : ∀ c ∈ numeral 10 n, c ≠ 0 := by
  rintro c hc rfl
  exact absurd (numeral_isDigit 0 hc) (by decide)

theorem zero_notMem_decimal : 0 ∉ decimal v := by
  unfold decimal
  split
  · intro h
    rcases List.mem_cons.mp h with h | h
    · exact absurd h (by decide)
    · exact not_mem_zero_numeral 0 h rfl
  · exact fun h => not_mem_zero_numeral 0 h rfl

theorem dig_isDigit {c : UInt8} (h : IsDigit c) : dig c = some ((c.toNat - 48 : Nat) : Int) ∧ (c.toNat - 48 : Nat) < 10 := by
  have hl : 48 ≤ c.toNat := h.1
  have hu : c.toNat ≤ 57 := h.2
  unfold dig
  rw [if_pos (show 48 ≤ c ∧ c ≤ 57 from h), Int.ofNat_sub hl]
  exact ⟨rfl, by omega⟩

theorem int32_step (n : Int) (d : Int) : int32 (int32 (int32 n * 10) + d) = int32 (n * 10 + d) := by
  unfold int32
  rw [Int.bmod_add_bmod, Int.add_bmod, Int.bmod_mul_bmod, ← Int.add_bmod]

omit [DecidableEq β] in
/-- The digits of a text are read up to its end. -/
theorem strtolDigits_eq (l : List UInt8) (hl : ∀ c ∈ l, IsDigit c) (h : m.Holds p (l ++ [0])) (hfuel : l.length < fuel) (n : Nat) :
    strtolDigits m 10 fuel p (int32 n) = some (int32 (l.foldl (fun v c => v * 10 + (c.toNat - 48)) n : Nat), p + l.length) := by
  obtain ⟨fuel, rfl⟩ := Nat.exists_eq_succ_of_ne_zero (Nat.ne_of_gt (Nat.zero_lt_of_lt hfuel))
  induction l generalizing p n fuel with
  | nil =>
    rw [strtolDigits, h.load_zero]
    rfl
  | cons c l ih =>
    obtain ⟨fuel, rfl⟩ := Nat.exists_eq_succ_of_ne_zero (Nat.ne_of_gt (Nat.lt_of_succ_lt_succ hfuel |> Nat.zero_lt_of_lt))
    obtain ⟨hdig, hlt⟩ := dig_isDigit (hl c List.mem_cons_self)
    have hih := ih (fun d hd => hl d (List.mem_cons_of_mem c hd)) h.tail (n * 10 + (c.toNat - 48)) fuel
      (Nat.lt_of_succ_lt_succ hfuel)
    have hval : int32 (int32 (int32 n * 10) + ((c.toNat - 48 : Nat) : Int)) = int32 ((n * 10 + (c.toNat - 48) : Nat) : Int) := by
      rw [int32_step]
      push_cast
      rfl
    rw [strtolDigits, h.load_zero, Option.bind_some, hdig]
    dsimp only
    rw [if_neg (by omega), hval, hih, List.foldl_cons, Ptr.add_add, List.length_cons, Nat.add_comm 1]

omit [DecidableEq β] in
/-- A numeral behind its sign is read in base 10. -/
theorem strtolDigits_numeral (h : m.Holds p (numeral 10 n ++ [0])) :
    strtolDigits m 10 (m.size p.block) p 0 = some (int32 n, p + (numeral 10 n).length) := by
  have hfits := h.fits
  rw [List.length_append, List.length_singleton] at hfits
  have heq := strtolDigits_eq (numeral 10 n) numeral_isDigit h (by omega : _ < m.size p.block) 0
  rwa [numeral_foldl] at heq

omit [DecidableEq β] in
theorem basePrefix_ten (s : Ptr β) : basePrefix m s 10 = some (s, 10) := if_neg (by decide)

omit [DecidableEq β] in
theorem strtol_decimal (hl : -2147483648 ≤ v) (hu : v < 2147483648) (h : m.IsString p (decimal v)) :
    strtol m p 10 = some (v, p + (decimal v).length) := by
  have hfits := h.holds.fits
  have hholds := h.holds
  rw [List.length_append, List.length_singleton] at hfits
  obtain ⟨fuel, hfuel⟩ := Nat.exists_eq_succ_of_ne_zero (show m.size p.block ≠ 0 by omega)
  unfold decimal at hholds ⊢
  unfold strtol
  by_cases hneg : v < 0
  · rw [if_pos hneg] at hholds ⊢
    have hload : m.load p = some 45 := hholds.load_zero
    have hblanks : skipBlanks m (m.size p.block) p = some p := by
      rw [hfuel, skipBlanks, hload]
      rfl
    have hval : int32 (-int32 (v.natAbs : Int)) = v := by
      have habs : (v.natAbs : Int) = -v := by omega
      have hback : int32 (-int32 (-v)) = int32 (- -v) := Int.bmod_neg_bmod
      rw [habs, hback, Int.neg_neg, int32_eq hl hu]
    have hdigits : strtolDigits m 10 (m.size p.block) (p + 1) 0 = some (int32 v.natAbs, p + 1 + (numeral 10 v.natAbs).length) :=
      strtolDigits_numeral hholds.tail
    rw [hblanks, Option.bind_some, hload, Option.bind_some, if_neg (by decide), if_pos rfl]
    dsimp only
    rw [basePrefix_ten, Option.bind_some]
    dsimp only [Ptr.block_add]
    rw [hdigits, Option.map_some, if_pos rfl, hval, Ptr.add_add, List.length_cons, Nat.add_comm 1]
  · rw [if_neg hneg] at hholds ⊢
    obtain ⟨c, l, hcons⟩ := List.exists_cons_of_ne_nil (numeral_ne_nil (b := 10) (n := v.natAbs))
    have hc : IsDigit c := numeral_isDigit c (hcons ▸ List.mem_cons_self)
    have hload : m.load p = some c := by
      rw [hcons] at hholds
      exact hholds.load_zero
    have hblanks : skipBlanks m (m.size p.block) p = some p := by
      rw [hfuel, skipBlanks, hload]
      exact if_neg (by rintro (rfl | rfl) <;> exact absurd hc (by decide))
    have hval : int32 (v.natAbs : Int) = v := by
      have habs : (v.natAbs : Int) = v := by omega
      rw [habs, int32_eq hl hu]
    have hplus : c ≠ 43 := by rintro rfl; exact absurd hc (by decide)
    have hminus : c ≠ 45 := by rintro rfl; exact absurd hc (by decide)
    rw [hblanks, Option.bind_some, hload, Option.bind_some, if_neg hplus, if_neg hminus]
    dsimp only
    rw [basePrefix_ten, Option.bind_some]
    dsimp only
    rw [strtolDigits_numeral hholds, Option.map_some, if_neg Bool.false_ne_true, hval]

/-- `ltostr` writes a decimal numeral at `str`, and `strtol` reads the value `v` back. -/
def RoundTrips (m : Blocks β) (str : Ptr β) (v : Int) : Prop :=
  ∃ t l, ltostr m v str = some t ∧ t.IsString str l ∧ IsDecimal l ∧ ∃ e, strtol t str 10 = some (v, e)

/-- The value `-2^31` stays negative when its sign is taken away, and its digits are written with negative values. -/
theorem written_min : written (-2147483648) = [45, 46, 47, 44, 41, 44, 40, 45, 42, 44, 40] := by decide

theorem ltostr_min (hfits : str.offset + 12 ≤ m.size str.block) :
    ∃ t, ltostr m (-2147483648) str = some t ∧ t.IsString str [45, 46, 47, 44, 41, 44, 40, 45, 42, 44, 40] ∧
      strtol t str 10 = some (0, str + 1) := by
  have hstring := Blocks.isString_put (m := m) (p := str) (l := written (-2147483648))
    (by have := written_length_le (-2147483648); omega) (by decide)
  refine ⟨_, ltostr_eq (by decide) (by decide) hfits, written_min ▸ hstring, ?_⟩
  have hholds := hstring.holds
  rw [written_min] at hholds ⊢
  generalize m.put str _ = t at hholds ⊢
  obtain ⟨fuel, hfuel⟩ := Nat.exists_eq_succ_of_ne_zero (Nat.ne_of_gt (Nat.lt_of_lt_of_le (by simp) hholds.fits))
  unfold strtol
  simp [hfuel, skipBlanks, basePrefix, strtolDigits, hholds.load_zero, hholds.tail.load_zero, dig, int32]

theorem ltostr_strtol_iff (hl : -2147483648 ≤ v) (hu : v < 2147483648) (hfits : str.offset + 12 ≤ m.size str.block) :
    RoundTrips m str v ↔ v ≠ -2147483648 := by
  constructor
  · rintro ⟨t, -, ht, -, -, e, he⟩ rfl
    obtain ⟨t', ht', -, hzero⟩ := ltostr_min hfits
    rw [ht', Option.some.injEq] at ht
    rw [ht, he, Option.some.injEq] at hzero
    have hval : (-2147483648 : Int) = 0 := congrArg Prod.fst hzero
    exact absurd hval (by decide)
  · intro hne
    have hlength := written_length_le v
    have hwritten := written_eq (by omega) hu
    rw [hwritten] at hlength
    have hstring := Blocks.isString_put (m := m) (p := str) (l := decimal v) (by omega) zero_notMem_decimal
    have hltostr := ltostr_eq hl hu hfits
    rw [hwritten] at hltostr
    exact ⟨_, decimal v, hltostr, hstring, isDecimal_decimal v, _, strtol_decimal hl hu hstring⟩

theorem ltostr_strtol_iff_one : RoundTrips (⟨fun _ => 12, fun _ _ => 0⟩ : Blocks Unit) ⟨(), 0⟩ (-1) ↔ (-1 : Int) ≠ -2147483648 :=
  ltostr_strtol_iff (by decide) (by decide) (by decide)

/-- The characters behind the sign are no digits, and zero is read back. -/
theorem ltostr_strtol_min : ∃ t, ltostr (⟨fun _ => 12, fun _ _ => 0⟩ : Blocks Unit) (-2147483648) ⟨(), 0⟩ = some t ∧
    t.IsString ⟨(), 0⟩ [45, 46, 47, 44, 41, 44, 40, 45, 42, 44, 40] ∧ strtol t ⟨(), 0⟩ 10 = some (0, ⟨(), 1⟩) :=
  ltostr_min (by decide)

end Fos.Str
