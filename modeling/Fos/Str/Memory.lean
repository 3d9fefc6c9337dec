import Fos.Lib.Memory

/-! `memset`, `memcpy` and `memmove` (`lib/string.c`). The first two work on words of eight bytes as long as so many are left;
    the pointers are those of the machine and wrap. -/

namespace Fos.Str
open Lib

/-! ### The functions -/

/-- The pattern `data_block` of eight bytes; `c` is an `int`, whose sign is extended. -/
def dataBlock (c : BitVec 32) : BitVec 64 :=
  let block := c.signExtend 64
  let block := block ||| block <<< 8
  let block := block ||| block <<< 16
  block ||| block <<< 32

/-- The loop of `memset` over the words; what it leaves are the pointer and the rest of `n`. -/
def memsetWords (block : BitVec 64) : Memory 32 → BitVec 32 → Nat → Memory 32 × BitVec 32 × Nat
  | m, p64, n + 8 => memsetWords block (m.store p64 block) (p64 + 8) n
  | m, p64, n => (m, p64, n)

/-- The loop of `memset` over the bytes that are left. -/
def memsetBytes (c : BitVec 8) : Memory 32 → BitVec 32 → Nat → Memory 32
  | m, _, 0 => m
  | m, p8, n + 1 => memsetBytes c (m.store p8 c) (p8 + 1) n

/-- `memset(v, c, n)` -/
def memset (m : Memory 32) (v c n : BitVec 32) : Memory 32 :=
  match memsetWords (dataBlock c) m v n.toNat with
  | (m, p64, n) => memsetBytes (c.setWidth 8) m p64 n

/-- The loop of `memcpy` over the words. -/
def memcpyWords : Memory 32 → BitVec 32 → BitVec 32 → Nat → Memory 32 × BitVec 32 × BitVec 32 × Nat
  | m, d64, s64, n + 8 => memcpyWords (m.store d64 (m.load 64 s64)) (d64 + 8) (s64 + 8) n
  | m, d64, s64, n => (m, d64, s64, n)

/-- `while (n-- > 0) *d++ = *s++` -/
def copyUp : Memory 32 → BitVec 32 → BitVec 32 → Nat → Memory 32
  | m, _, _, 0 => m
  | m, d, s, n + 1 => copyUp (m.store d (m.load 8 s)) (d + 1) (s + 1) n

/-- `while (n-- > 0) *--d = *--s` -/
def copyDown : Memory 32 → BitVec 32 → BitVec 32 → Nat → Memory 32
  | m, _, _, 0 => m
  | m, d, s, n + 1 => copyDown (m.store (d - 1) (m.load 8 (s - 1))) (d - 1) (s - 1) n

/-- `memcpy(dst, src, n)` -/
def memcpy (m : Memory 32) (dst src n : BitVec 32) : Memory 32 :=
  match memcpyWords m dst src n.toNat with
  | (m, d64, s64, n) => copyUp m d64 s64 n

/-- `memmove(dst, src, n)` -/
def memmove (m : Memory 32) (dst src n : BitVec 32) : Memory 32 :=
  if src < dst ∧ dst < src + n then copyDown m (dst + n) (src + n) n.toNat else copyUp m dst src n.toNat

/-! ### What they should do -/

/-- The `n` bytes from `v` on are `c`, and the others are as before. -/
structure Filled (m t : Memory 32) (v : BitVec 32) (n : Nat) (c : UInt8) : Prop where
  inside : ∀ i, i < n → t (v + BitVec.ofNat 32 i) = c
  outside : ∀ a, (∀ i, i < n → a ≠ v + BitVec.ofNat 32 i) → t a = m a

/-- The `n` bytes from `dst` on are those that were at `src`, and the others are as before. -/
structure Copied (m t : Memory 32) (dst src : BitVec 32) (n : Nat) : Prop where
  inside : ∀ i, i < n → t (dst + BitVec.ofNat 32 i) = m (src + BitVec.ofNat 32 i)
  outside : ∀ a, ¬(dst.toNat ≤ a.toNat ∧ a.toNat < dst.toNat + n) → t a = m a

/-- No byte of the sign-extended `c` has a bit that its low byte does not have. -/
def Uniform (c : BitVec 32) : Prop := ∀ k, k < 8 → byte (c.signExtend 64) k ||| byte c 0 = byte c 0

instance (c : BitVec 32) : Decidable (Uniform c) := inferInstanceAs (Decidable (∀ k, k < 8 → _))

variable {m t : Memory 32} {p dst src : BitVec 32} {n i k : Nat}

/-! ### `memset` -/

theorem memsetWords_of_lt (block : BitVec 64) (hn : n < 8) : memsetWords block m p n = (m, p, n) :=
  memsetWords.eq_2 _ _ _ _ fun k hk => by omega

theorem memsetWords_eq (block : BitVec 64) (hn : n < 2 ^ 32) : memsetWords block m p n =
    (m.overwrite p (n / 8 * 8) fun i => byte block (i % 8), p + BitVec.ofNat 32 (n / 8 * 8), n % 8) := by
  induction n using Nat.strong_induction_on generalizing m p with
  | h n ih =>
    rcases Nat.lt_or_ge n 8 with hlt | hge
    · rw [memsetWords_of_lt block hlt, Nat.div_eq_of_lt hlt, Nat.mod_eq_of_lt hlt, Nat.zero_mul, Memory.overwrite_zero]
      exact congrArg (fun q => (m, q, n)) (BitVec.add_zero p).symm
    · obtain ⟨n, rfl⟩ := Nat.exists_eq_add_of_le' hge
      have hword : m.store p block = m.overwrite p 8 fun i => byte block (i % 8) :=
        Memory.overwrite_congr fun i hi => by rw [Nat.mod_eq_of_lt hi]
      rw [memsetWords, ih n (by omega) (by omega), hword, show p + 8 = p + BitVec.ofNat 32 8 from rfl,
        Memory.overwrite_overwrite (by omega), Memory.add_ofNat_add, Nat.add_mod_right,
        show (n + 8) / 8 * 8 = 8 + n / 8 * 8 by omega]
      congr 1
      refine Memory.overwrite_congr fun i _ => ?_
      split
      · rfl
      · rw [show (i - 8) % 8 = i % 8 by omega]

theorem memsetBytes_eq (c : BitVec 8) (hn : n < 2 ^ 32) : memsetBytes c m p n = m.overwrite p n fun _ => byte c 0 := by
  induction n generalizing m p with
  | zero => exact Memory.overwrite_zero.symm
  | succ n ih =>
    have hbyte : m.store p c = m.overwrite p 1 fun _ => byte c 0 :=
      Memory.overwrite_congr fun i hi => by rw [Nat.lt_one_iff.mp hi]
    rw [memsetBytes, ih (by omega), hbyte, show p + 1 = p + BitVec.ofNat 32 1 from rfl, Memory.overwrite_overwrite (by omega),
      Nat.add_comm 1 n]
    exact Memory.overwrite_congr fun i _ => ite_self _

theorem memset_eq (m : Memory 32) (v c n : BitVec 32) : memset m v c n =
    m.overwrite v n.toNat fun i => if i < n.toNat / 8 * 8 then byte (dataBlock c) (i % 8) else byte (c.setWidth 8) 0 := by
  have hn := n.isLt
  unfold memset
  rw [memsetWords_eq _ hn]
  dsimp only
  rw [memsetBytes_eq _ (by omega), Memory.overwrite_overwrite (by omega), Nat.div_add_mod']

theorem memset_zero (m : Memory 32) (v n : BitVec 32) : memset m v 0 n = m.overwrite v n.toNat fun _ => 0 := by
  have hblock : ∀ i < 8, byte (dataBlock 0) i = 0 := by decide
  rw [memset_eq]
  refine Memory.overwrite_congr fun i _ => ?_
  rw [hblock (i % 8) (Nat.mod_lt _ (by decide))]
  exact ite_self _

theorem filled_overwrite (hn : n ≤ 2 ^ 32) (f : Nat → UInt8) (c : UInt8) :
    Filled m (m.overwrite p n f) p n c ↔ ∀ i, i < n → f i = c := by
  constructor
  · intro h i hi
    rw [← h.inside i hi, Memory.overwrite_at hi hn]
  · refine fun h => ⟨fun i hi => ?_, fun a ha => Memory.overwrite_of_le (Nat.not_lt.mp fun hlt => ?_)⟩
    · rw [Memory.overwrite_at hi hn, h i hi]
    · refine ha _ hlt ?_
      rw [BitVec.ofNat_toNat, BitVec.setWidth_eq, BitVec.add_comm, BitVec.sub_add_cancel]

/-- Byte `k` of `y` is the union of the bytes of `x` from `k - r` to `k`. -/
def Spread (x y : BitVec 64) (r : Nat) : Prop :=
  ∀ k i, k < 8 → i < 8 → (y.getLsbD (8 * k + i) = true ↔ ∃ j, j ≤ k ∧ k ≤ j + r ∧ x.getLsbD (8 * j + i) = true)

theorem Spread.refl (x : BitVec 64) : Spread x x 0 := by
  refine fun k i _ _ => ⟨fun h => ⟨k, le_rfl, le_rfl, h⟩, ?_⟩
  rintro ⟨j, hle, hge, h⟩
  rwa [show k = j by omega]

theorem Spread.shift {x y : BitVec 64} {r s : Nat} (h : Spread x y r) (hs : s ≤ r + 1) : Spread x (y ||| y <<< (8 * s)) (r + s) := by
  intro k i hk hi
  rw [BitVec.getLsbD_or, BitVec.getLsbD_shiftLeft, Bool.or_eq_true, h k i hk hi]
  rcases Nat.lt_or_ge k s with hlt | hge
  · have hnone : ¬(8 * k + i < 64 ∧ ¬8 * k + i < 8 * s) := by omega
    constructor
    · rintro (⟨j, hj, hkj, hbit⟩ | hbit)
      · exact ⟨j, hj, by omega, hbit⟩
      · simp only [Bool.and_eq_true, decide_eq_true_eq, Bool.not_eq_true', decide_eq_false_iff_not] at hbit
        exact absurd hbit.1 hnone
    · rintro ⟨j, hj, hkj, hbit⟩
      exact .inl ⟨j, hj, by omega, hbit⟩
  · have hin : 8 * k + i < 64 := by omega
    have hout : ¬8 * k + i < 8 * s := by omega
    rw [show 8 * k + i - 8 * s = 8 * (k - s) + i by omega]
    simp only [hin, hout, decide_true, decide_false, Bool.not_false, Bool.and_true, Bool.true_and, h (k - s) i (by omega) hi]
    constructor
    · rintro (⟨j, hj, hkj, hbit⟩ | ⟨j, hj, hkj, hbit⟩) <;> exact ⟨j, by omega, by omega, hbit⟩
    · rintro ⟨j, hj, hkj, hbit⟩
      rcases Nat.lt_or_ge (k - s) j with hjs | hjs
      · exact .inl ⟨j, hj, by omega, hbit⟩
      · exact .inr ⟨j, hjs, by omega, hbit⟩

theorem spread_dataBlock (c : BitVec 32) : Spread (c.signExtend 64) (dataBlock c) 7 :=
  ((((Spread.refl _).shift (s := 1) (by omega)).shift (s := 2) (by omega)).shift (s := 4) (by omega))

theorem getLsbD_byte {v : Nat} (x : BitVec v) (hi : i < 8) : (byte x k).toBitVec.getLsbD i = x.getLsbD (8 * k + i) := by
  simp [byte, hi]

theorem byte_signExtend_zero (c : BitVec 32) : byte (c.signExtend 64) 0 = byte c 0 := by
  apply UInt8.toBitVec_inj.mp
  refine BitVec.eq_of_getLsbD_eq fun i hi => ?_
  rw [getLsbD_byte _ hi, getLsbD_byte _ hi, BitVec.getLsbD_signExtend]
  simp [show i < 64 by omega, show i < 32 by omega]

/-- All bytes of `data_block` are the low byte of `c` exactly when the bytes of the sign-extended `c` add no bit to it. -/
theorem dataBlock_uniform (c : BitVec 32) : (∀ k, k < 8 → byte (dataBlock c) k = byte c 0) ↔ Uniform c := by
  have hbits : ∀ x y : UInt8, x = y ↔ ∀ i, i < 8 → x.toBitVec.getLsbD i = y.toBitVec.getLsbD i := fun x y => by
    rw [← UInt8.toBitVec_inj, BitVec.eq_of_getLsbD_eq_iff]
  have hlow : ∀ i, i < 8 → (byte c 0).toBitVec.getLsbD i = (c.signExtend 64).getLsbD i := fun i hi => by
    rw [← byte_signExtend_zero, getLsbD_byte _ hi, Nat.mul_zero, Nat.zero_add]
  have hspread := spread_dataBlock c
  constructor
  · intro h k hk
    refine (hbits _ _).mpr fun i hi => ?_
    rw [UInt8.toBitVec_or, BitVec.getLsbD_or, Bool.or_eq_right_iff_imp]
    intro hbit
    rw [← h k hk, getLsbD_byte _ hi, hspread k i hk hi]
    exact ⟨k, le_rfl, by omega, by rwa [getLsbD_byte _ hi] at hbit⟩
  · intro h k hk
    refine (hbits _ _).mpr fun i hi => ?_
    rw [getLsbD_byte _ hi, Bool.eq_iff_iff, hspread k i hk hi]
    constructor
    · rintro ⟨j, hj, -, hbit⟩
      rw [← h j (by omega), UInt8.toBitVec_or, BitVec.getLsbD_or, getLsbD_byte _ hi, hbit, Bool.true_or]
    · intro hbit
      exact ⟨0, Nat.zero_le k, by omega, by rwa [hlow i hi, ← Nat.zero_add i, ← Nat.mul_zero 8] at hbit⟩

/-- The values of a byte are such values. -/
theorem uniform_of_lt {c : BitVec 32} (hc : c.toNat < 256) : Uniform c := by
  intro k hk
  apply UInt8.toBitVec_inj.mp
  refine BitVec.eq_of_getLsbD_eq fun i hi => ?_
  rw [UInt8.toBitVec_or, BitVec.getLsbD_or, Bool.or_eq_right_iff_imp, getLsbD_byte _ hi, getLsbD_byte _ hi]
  have hhigh : ∀ b, 8 ≤ b → c.getLsbD b = false := fun b hb =>
    Nat.testBit_lt_two_pow (Nat.lt_of_lt_of_le hc (Nat.pow_le_pow_right (Nat.zero_lt_two) hb))
  rcases Nat.eq_zero_or_pos k with rfl | hpos
  · rw [BitVec.getLsbD_signExtend]
    simp [show i < 64 by omega, show i < 32 by omega]
  · have hmsb : c.msb = false := (BitVec.msb_eq_getLsbD_last c).trans (hhigh 31 (by decide))
    rw [BitVec.getLsbD_signExtend, hhigh _ (by omega), hmsb]
    simp

theorem byte_setWidth_zero (c : BitVec 32) : byte (c.setWidth 8) 0 = byte c 0 := by
  apply UInt8.toBitVec_inj.mp
  refine BitVec.eq_of_getLsbD_eq fun i hi => ?_
  rw [getLsbD_byte _ hi, getLsbD_byte _ hi, BitVec.getLsbD_setWidth]
  simp [hi]

/-- `memset` sets each of the `n` bytes to the low byte of `c`, and no other, exactly when fewer than eight are set or the bytes of
    the sign-extended `c` add no bit to the low one. -/
theorem memset_fills_iff (m : Memory 32) (v c n : BitVec 32) :
    Filled m (memset m v c n) v n.toNat (byte c 0) ↔ n.toNat < 8 ∨ Uniform c := by
  rw [memset_eq, filled_overwrite (by omega), byte_setWidth_zero]
  constructor
  · intro h
    refine or_iff_not_imp_left.mpr fun hn => (dataBlock_uniform c).mp fun k hk => ?_
    have hword := h k (by omega)
    rwa [if_pos (by omega), Nat.mod_eq_of_lt hk] at hword
  · rintro (hn | hc) i hi
    · rw [if_neg (by omega)]
    · split
      · exact (dataBlock_uniform c).mpr hc _ (by omega)
      · rfl

/-- Eight bytes are set to 256, whose low byte is 0: the second byte becomes 1. -/
theorem memset_spreads : ¬ Filled (fun _ => 0) (memset (fun _ => 0) 0 256 8) 0 8 (byte (256 : BitVec 32) 0) :=
  fun h => absurd (h.inside 1 (by decide)) (by decide)

/-! ### `memcpy` and `memmove` -/

theorem memcpyWords_of_lt (hn : n < 8) : memcpyWords m dst src n = (m, dst, src, n) :=
  memcpyWords.eq_2 _ _ _ _ fun k hk => by omega

/-- Both pointers go on by the same distance. -/
theorem distance_add (k : Nat) : src + BitVec.ofNat 32 k - (dst + BitVec.ofNat 32 k) = src - dst := add_sub_add_right_eq_sub ..

theorem memcpyWords_eq (hn : (src - dst).toNat + n ≤ 2 ^ 32) : memcpyWords m dst src n =
    (m.move dst src (n / 8 * 8), dst + BitVec.ofNat 32 (n / 8 * 8), src + BitVec.ofNat 32 (n / 8 * 8), n % 8) := by
  induction n using Nat.strong_induction_on generalizing m dst src with
  | h n ih =>
    rcases Nat.lt_or_ge n 8 with hlt | hge
    · rw [memcpyWords_of_lt hlt, Nat.div_eq_of_lt hlt, Nat.mod_eq_of_lt hlt, Nat.zero_mul, Memory.move_zero]
      exact congrArg₂ (fun d s => (m, d, s, n)) (BitVec.add_zero dst).symm (BitVec.add_zero src).symm
    · obtain ⟨n, rfl⟩ := Nat.exists_eq_add_of_le' hge
      have hdistance : (src + 8 - (dst + 8)).toNat + n ≤ 2 ^ 32 := by
        rw [show src + 8 - (dst + 8) = src - dst from distance_add 8]
        omega
      rw [memcpyWords, ih n (by omega) hdistance, Memory.store_load, show (n + 8) / 8 * 8 = 8 + n / 8 * 8 by omega,
        Memory.move_front (by omega), Nat.add_mod_right, ← Memory.add_ofNat_add dst, ← Memory.add_ofNat_add src]
      rfl

theorem copyUp_eq (hn : (src - dst).toNat + n ≤ 2 ^ 32) : copyUp m dst src n = m.move dst src n := by
  induction n generalizing m dst src with
  | zero => exact Memory.move_zero.symm
  | succ n ih =>
    have hdistance : (src + 1 - (dst + 1)).toNat + n ≤ 2 ^ 32 := by
      rw [show src + 1 - (dst + 1) = src - dst from distance_add 1]
      omega
    rw [copyUp, ih hdistance, Memory.store_load, Nat.add_comm n 1, Memory.move_front (by omega)]
    rfl

theorem copyDown_eq (hn : (dst - src).toNat + n ≤ 2 ^ 32) :
    copyDown m (dst + BitVec.ofNat 32 n) (src + BitVec.ofNat 32 n) n = m.move dst src n := by
  induction n generalizing m with
  | zero => exact Memory.move_zero.symm
  | succ n ih =>
    have hback : ∀ p : BitVec 32, p + BitVec.ofNat 32 (n + 1) - 1 = p + BitVec.ofNat 32 n := fun p => by
      rw [BitVec.ofNat_add, ← BitVec.add_assoc]
      exact BitVec.add_sub_cancel ..
    rw [copyDown, hback, hback, ih (by omega), Memory.store_load, Memory.move_back (by omega)]

/-- What is copied word by word and then byte by byte is moved, if `dst` does not come behind the part of the source that is
    still to be read. -/
theorem memcpy_eq {n : BitVec 32} (hn : (src - dst).toNat + n.toNat ≤ 2 ^ 32) : memcpy m dst src n = m.move dst src n.toNat := by
  unfold memcpy
  rw [memcpyWords_eq hn]
  dsimp only
  rw [copyUp_eq (by rw [distance_add]; omega), ← Memory.move_front (by omega), Nat.div_add_mod']

/-- The ranges do not wrap, and `dst` does not lie within the source. -/
theorem distance_up (hsrc : src.toNat + n ≤ 2 ^ 32) (h : dst.toNat ≤ src.toNat ∨ src.toNat + n ≤ dst.toNat) :
    (src - dst).toNat + n ≤ 2 ^ 32 := by
  have hdst := dst.isLt
  rw [BitVec.toNat_sub]
  omega

/-- `memmove` compares the pointers to choose the direction. -/
theorem memmove_eq {n : BitVec 32} (hdst : dst.toNat + n.toNat ≤ 2 ^ 32) (hsrc : src.toNat + n.toNat ≤ 2 ^ 32) :
    memmove m dst src n = m.move dst src n.toNat := by
  have hdown : src.toNat < dst.toNat → (dst - src).toNat + n.toNat ≤ 2 ^ 32 := fun hlt => by
    rw [BitVec.toNat_sub]
    omega
  unfold memmove
  split
  case isTrue hbehind =>
    have heq : ∀ p : BitVec 32, p + n = p + BitVec.ofNat 32 n.toNat := fun p => by
      rw [BitVec.ofNat_toNat, BitVec.setWidth_eq]
    rw [heq dst, heq src]
    exact copyDown_eq (hdown (BitVec.lt_def.mp hbehind.1))
  case isFalse hnot =>
    refine copyUp_eq (distance_up hsrc ?_)
    rcases Nat.lt_or_ge src.toNat dst.toNat with hlt | hge
    · refine .inr (Nat.not_lt.mp fun hin => hnot ⟨BitVec.lt_def.mpr hlt, BitVec.lt_def.mpr ?_⟩)
      rw [BitVec.toNat_add, Nat.mod_eq_of_lt (by omega)]
      exact hin
    · exact .inl hge

theorem copied_move (hdst : dst.toNat + n ≤ 2 ^ 32) : Copied m (m.move dst src n) dst src n := by
  refine ⟨fun i hi => Memory.overwrite_at hi (by omega), fun a ha => Memory.overwrite_of_le (Nat.not_lt.mp fun hlt => ha ?_)⟩
  have hsub := BitVec.toNat_sub a dst
  have ha := a.isLt
  omega

/-- For ranges that do not wrap, `memmove` copies the bytes that were at `src` whatever the overlap, and `memcpy` does so when
    `dst` is not above `src` or the ranges do not overlap. -/
theorem copies_source (m : Memory 32) (dst src n : BitVec 32) (hdst : dst.toNat + n.toNat ≤ 2 ^ 32)
    (hsrc : src.toNat + n.toNat ≤ 2 ^ 32) :
    (dst.toNat ≤ src.toNat ∨ dst.toNat + n.toNat ≤ src.toNat ∨ src.toNat + n.toNat ≤ dst.toNat →
      Copied m (memcpy m dst src n) dst src n.toNat) ∧ Copied m (memmove m dst src n) dst src n.toNat := by
  constructor
  · intro h
    rw [memcpy_eq (distance_up hsrc (by omega))]
    exact copied_move hdst
  · rw [memmove_eq hdst hsrc]
    exact copied_move hdst

/-- The screen is scrolled: all lines but the first are copied one line up. -/
theorem copies_source_scroll : let screen : Memory 32 := fun a => .ofBitVec (a.setWidth 8)
    Copied screen (memcpy screen 0xf00b8000 0xf00b80a0 3840) 0xf00b8000 0xf00b80a0 3840 :=
  (copies_source _ 0xf00b8000 0xf00b80a0 3840 (by decide) (by decide)).1 (.inl (by decide))

end Fos.Str
