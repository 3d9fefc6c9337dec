import Mathlib.Data.BitVec
import Mathlib.Tactic.Ring

/-! Memories of bytes with addresses of `w` bits, which wrap: ranges that are overwritten, words that are loaded and stored
    with their low byte first, and ranges that are moved, which may overlap. -/

namespace Fos.Lib

/-- The byte `k` of a word, counted from its low end. -/
def byte {v : Nat} (x : BitVec v) (k : Nat) : UInt8 := .ofBitVec (x.extractLsb' (8 * k) 8)

abbrev Memory (w : Nat) := BitVec w → UInt8

namespace Memory

variable {w v : Nat} {m : Memory w} {p a dst src : BitVec w} {n i j k : Nat} {f g : Nat → UInt8}

/-- The `n` bytes from `p` on become those of `f`. -/
def overwrite (m : Memory w) (p : BitVec w) (n : Nat) (f : Nat → UInt8) : Memory w := fun a =>
  if (a - p).toNat < n then f (a - p).toNat else m a

/-- A word of `v` bits is stored. -/
def store (m : Memory w) (p : BitVec w) (x : BitVec v) : Memory w := m.overwrite p (v / 8) (byte x)

/-- The first `k` bytes of a word. -/
def loadBytes (v : Nat) (m : Memory w) (p : BitVec w) : Nat → BitVec v
  | 0 => 0
  | k + 1 => loadBytes v m p k ||| (m (p + BitVec.ofNat w k)).toBitVec.setWidth v <<< (8 * k)

/-- A word of `v` bits is loaded. -/
def load (v : Nat) (m : Memory w) (p : BitVec w) : BitVec v := m.loadBytes v p (v / 8)

/-- The `n` bytes from `dst` on become those that are at `src`. -/
def move (m : Memory w) (dst src : BitVec w) (n : Nat) : Memory w := m.overwrite dst n fun i => m (src + BitVec.ofNat w i)

/-! ### Offsets -/

theorem add_ofNat_add (p : BitVec w) (i j : Nat) : p + BitVec.ofNat w i + BitVec.ofNat w j = p + BitVec.ofNat w (i + j) := by
  rw [BitVec.ofNat_add, BitVec.add_assoc]

/-- How far an address is behind `p`, and how far behind a later address. -/
theorem offset_add (hk : k ≤ 2 ^ w) :
    (a - (p + BitVec.ofNat w k)).toNat = if k ≤ (a - p).toNat then (a - p).toNat - k else (a - p).toNat + 2 ^ w - k := by
  have hx := (a - p).isLt
  rw [← BitVec.sub_sub, BitVec.toNat_sub, BitVec.toNat_ofNat]
  generalize (a - p).toNat = x at hx
  rcases Nat.eq_or_lt_of_le hk with rfl | hlt
  · rw [Nat.mod_self, if_neg (by omega), Nat.sub_zero, Nat.add_mod_left, Nat.mod_eq_of_lt hx, Nat.add_sub_cancel]
  · rw [Nat.mod_eq_of_lt hlt]
    split
    · rw [show 2 ^ w - k + x = x - k + 2 ^ w by omega, Nat.add_mod_right, Nat.mod_eq_of_lt (by omega)]
    · rw [Nat.mod_eq_of_lt (by omega)]
      omega

theorem offset_ofNat (hi : i < 2 ^ w) : (p + BitVec.ofNat w i - p).toNat = i := by
  rw [BitVec.add_comm, BitVec.add_sub_cancel, BitVec.toNat_ofNat, Nat.mod_eq_of_lt hi]

/-- The offset of an address of another range. -/
theorem offset_of (hi : (src - dst).toNat + i < 2 ^ w) : (src + BitVec.ofNat w i - dst).toNat = (src - dst).toNat + i := by
  have heq : src + BitVec.ofNat w i - dst = src - dst + BitVec.ofNat w i := by
    rw [BitVec.sub_eq_add_neg, BitVec.sub_eq_add_neg, add_right_comm]
  rw [heq, BitVec.toNat_add, BitVec.toNat_ofNat, Nat.add_mod_mod, Nat.mod_eq_of_lt hi]

/-! ### Overwriting -/

theorem overwrite_of_lt (h : (a - p).toNat < n) : m.overwrite p n f a = f (a - p).toNat := if_pos h

theorem overwrite_of_le (h : n ≤ (a - p).toNat) : m.overwrite p n f a = m a := if_neg (Nat.not_lt.mpr h)

theorem overwrite_at (hi : i < n) (hn : n ≤ 2 ^ w) : m.overwrite p n f (p + BitVec.ofNat w i) = f i := by
  have hoff := offset_ofNat (p := p) (Nat.lt_of_lt_of_le hi hn)
  rw [overwrite_of_lt (by rwa [hoff]), hoff]

@[simp] theorem overwrite_zero : m.overwrite p 0 f = m := funext fun _ => overwrite_of_le (Nat.zero_le _)

theorem overwrite_congr (h : ∀ i, i < n → f i = g i) : m.overwrite p n f = m.overwrite p n g := by
  funext a
  unfold overwrite
  split
  · exact h _ ‹_›
  · rfl

/-- Overwriting, where the addresses are numbers and the range does not wrap. -/
theorem overwrite_ofNat {x y : Nat} (hx : x < 2 ^ w) (hy : y + n ≤ 2 ^ w) : m.overwrite (BitVec.ofNat w y) n f (BitVec.ofNat w x) =
    if y ≤ x ∧ x < y + n then f (x - y) else m (BitVec.ofNat w x) := by
  by_cases hle : y ≤ x
  · have hoff : (BitVec.ofNat w x - BitVec.ofNat w y).toNat = x - y := by
      rw [← Nat.add_sub_cancel' hle, BitVec.ofNat_add, BitVec.add_comm, BitVec.add_sub_cancel, BitVec.toNat_ofNat,
        Nat.mod_eq_of_lt (by omega), Nat.add_sub_cancel_left]
    unfold overwrite
    rw [hoff]
    exact if_congr (by omega) rfl rfl
  · rw [if_neg fun h => hle h.1]
    have hoff : (BitVec.ofNat w x - BitVec.ofNat w y).toNat = x + 2 ^ w - y := by
      rcases Nat.lt_or_ge y (2 ^ w) with hlt | hge
      · rw [BitVec.toNat_sub, BitVec.toNat_ofNat, BitVec.toNat_ofNat, Nat.mod_eq_of_lt hlt, Nat.mod_eq_of_lt hx,
          Nat.mod_eq_of_lt (by omega)]
        omega
      · have hn : y = 2 ^ w := by omega
        rw [hn, BitVec.toNat_sub, BitVec.toNat_ofNat, BitVec.toNat_ofNat, Nat.mod_self, Nat.sub_zero, Nat.add_mod_mod,
          Nat.add_mod_left, Nat.mod_eq_of_lt hx, Nat.add_sub_cancel]
    exact overwrite_of_le (by omega)

/-- Two ranges that adjoin. -/
theorem overwrite_overwrite (h : k + j ≤ 2 ^ w) : (m.overwrite p k f).overwrite (p + BitVec.ofNat w k) j g =
    m.overwrite p (k + j) fun i => if i < k then f i else g (i - k) := by
  funext a
  have hoff := offset_add (a := a) (p := p) (show k ≤ 2 ^ w by omega)
  unfold overwrite
  dsimp only
  rw [hoff]
  by_cases hx : k ≤ (a - p).toNat
  · rw [if_pos hx]
    by_cases hj : (a - p).toNat < k + j
    · rw [if_pos (by omega), if_pos hj, if_neg (by omega)]
    · rw [if_neg (by omega), if_neg (by omega), if_neg hj]
  · rw [if_neg hx, if_neg (by omega), if_pos (by omega), if_pos (by omega), if_pos (by omega)]

/-! ### Words -/

theorem getLsbD_loadBytes (hi : i < v) :
    (m.loadBytes v p k).getLsbD i = (decide (i < 8 * k) && (m (p + BitVec.ofNat w (i / 8))).toBitVec.getLsbD (i % 8)) := by
  induction k with
  | zero => simp [loadBytes]
  | succ k ih =>
    rw [loadBytes, BitVec.getLsbD_or, ih, BitVec.getLsbD_shiftLeft, BitVec.getLsbD_setWidth]
    rcases Nat.lt_trichotomy (i / 8) k with hlt | rfl | hgt
    · have hold : i < 8 * k := by omega
      simp [hold, show i < 8 * (k + 1) by omega]
    · have hnew : ¬ i < 8 * (i / 8) := by omega
      simp [hnew, hi, show i < 8 * (i / 8 + 1) by omega, show i - 8 * (i / 8) = i % 8 by omega, show i % 8 < v by omega]
    · have hbeyond : 8 ≤ i - 8 * k := by omega
      simp [show ¬ i < 8 * k by omega, show ¬ i < 8 * (k + 1) by omega, BitVec.getLsbD_of_ge _ _ hbeyond]

theorem byte_load (hk : k < v / 8) : byte (m.load v p) k = m (p + BitVec.ofNat w k) := by
  apply UInt8.toBitVec_inj.mp
  apply BitVec.eq_of_getLsbD_eq
  intro i hi
  unfold byte load
  rw [UInt8.toBitVec_ofBitVec, BitVec.getLsbD_extractLsb', getLsbD_loadBytes (by omega), show (8 * k + i) / 8 = k by omega,
    show (8 * k + i) % 8 = i by omega]
  simp [hi, show 8 * k + i < 8 * (v / 8) by omega]

/-- A word is what its bytes are. -/
theorem load_eq_load {m' : Memory w} {q : BitVec w} (h : ∀ i, i < v / 8 → m' (q + BitVec.ofNat w i) = m (p + BitVec.ofNat w i)) :
    m'.load v q = m.load v p := by
  apply BitVec.eq_of_getLsbD_eq
  intro i hi
  unfold load
  rw [getLsbD_loadBytes hi, getLsbD_loadBytes hi]
  by_cases hbyte : i < 8 * (v / 8)
  · rw [h (i / 8) (by omega)]
  · simp [hbyte]

theorem load_congr {m' : Memory w} (h : ∀ i, i < v / 8 → m' (p + BitVec.ofNat w i) = m (p + BitVec.ofNat w i)) :
    m'.load v p = m.load v p :=
  load_eq_load h

theorem load_overwrite (h : ∀ i, i < v / 8 → n ≤ (p + BitVec.ofNat w i - dst).toNat) :
    (m.overwrite dst n f).load v p = m.load v p := load_congr fun i hi => overwrite_of_le (h i hi)

theorem load_store (hv : v % 8 = 0) (hw : v / 8 ≤ 2 ^ w) (x : BitVec v) : (m.store p x).load v p = x := by
  apply BitVec.eq_of_getLsbD_eq
  intro i hi
  unfold load store
  rw [getLsbD_loadBytes hi, overwrite_at (by omega) hw]
  have hbyte : i < 8 * (v / 8) := by omega
  simp only [hbyte, decide_true, Bool.true_and, byte]
  rw [BitVec.getLsbD_extractLsb', show 8 * (i / 8) + i % 8 = i by omega]
  simp [show i % 8 < 8 by omega]

theorem load_eq_zero (h : ∀ i, i < v / 8 → m (p + BitVec.ofNat w i) = 0) : m.load v p = 0 := by
  apply BitVec.eq_of_getLsbD_eq
  intro i hi
  unfold load
  rw [getLsbD_loadBytes hi]
  by_cases hbyte : i < 8 * (v / 8)
  · rw [h (i / 8) (by omega)]
    simp
  · simp [hbyte]

/-- A word that is loaded and stored moves its bytes. -/
theorem store_load : m.store dst (m.load v src) = m.move dst src (v / 8) := overwrite_congr fun _ => byte_load

/-! ### Moving -/

@[simp] theorem move_zero : m.move dst src 0 = m := overwrite_zero

/-- A move from the front: what is moved first is not behind `dst`, where it would be read again. -/
theorem move_front (h : (src - dst).toNat + (k + j) ≤ 2 ^ w) : m.move dst src (k + j) =
    (m.move dst src k).move (dst + BitVec.ofNat w k) (src + BitVec.ofNat w k) j := by
  refine Eq.trans ?_ (overwrite_overwrite (by omega)).symm
  refine overwrite_congr fun i hi => ?_
  split
  case isTrue => rfl
  case isFalse hk =>
    rw [add_ofNat_add, Nat.add_sub_cancel' (Nat.not_lt.mp hk)]
    have hoff := offset_of (show (src - dst).toNat + i < 2 ^ w by omega)
    exact (overwrite_of_le (by omega)).symm

/-- A move from the back. -/
theorem move_back (h : (dst - src).toNat + (k + j) ≤ 2 ^ w) : m.move dst src (k + j) =
    (m.move (dst + BitVec.ofNat w k) (src + BitVec.ofNat w k) j).move dst src k := by
  funext a
  have hoff := offset_add (a := a) (p := dst) (show k ≤ 2 ^ w by omega)
  unfold move overwrite
  dsimp only
  rw [hoff]
  by_cases hx : (a - dst).toNat < k
  · -- The byte that is read for `a` is before the range that was moved.
    have hbehind : j ≤ (src + BitVec.ofNat w (a - dst).toNat - (dst + BitVec.ofNat w k)).toNat := by
      have hneg : src + BitVec.ofNat w (a - dst).toNat - (dst + BitVec.ofNat w k) =
          src - (src + BitVec.ofNat w ((dst - src).toNat + (k - (a - dst).toNat))) := by
        have hk : BitVec.ofNat w k = BitVec.ofNat w (a - dst).toNat + BitVec.ofNat w (k - (a - dst).toNat) := by
          rw [← BitVec.ofNat_add, Nat.add_sub_cancel' (by omega)]
        have hd : BitVec.ofNat w (dst - src).toNat = dst - src := by
          rw [BitVec.ofNat_toNat, BitVec.setWidth_eq]
        rw [hk, BitVec.ofNat_add, hd]
        ring
      rw [hneg, offset_add (by omega), BitVec.sub_self, BitVec.toNat_zero]
      split <;> omega
    rw [if_pos hx, if_pos (by omega), if_neg (Nat.not_lt.mpr hbehind)]
  · rw [if_neg hx, if_pos (Nat.not_lt.mp hx), add_ofNat_add]
    by_cases hj : (a - dst).toNat < k + j
    · rw [if_pos hj, if_pos (by omega), Nat.add_sub_cancel' (Nat.not_lt.mp hx)]
    · rw [if_neg hj, if_neg (by omega)]

end Memory

end Fos.Lib
