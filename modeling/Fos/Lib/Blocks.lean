import Mathlib.Data.List.Basic
import Mathlib.Logic.Function.Basic

/-! Memories of separate blocks of bytes. A pointer is a block with an offset, and an access outside its block does not go
    through; texts are written to a block and found in it. -/

namespace Fos.Lib

@[ext] structure Blocks (β : Type) where
  size : β → Nat
  data : β → Nat → UInt8

structure Ptr (β : Type) where
  block : β
  offset : Nat
  deriving DecidableEq, Repr

namespace Ptr

variable {β : Type} {p : Ptr β} {i j : Nat}

instance : HAdd (Ptr β) Nat (Ptr β) := ⟨fun p i => ⟨p.block, p.offset + i⟩⟩

@[simp] theorem block_add (p : Ptr β) (i : Nat) : (p + i).block = p.block := rfl

@[simp] theorem offset_add (p : Ptr β) (i : Nat) : (p + i).offset = p.offset + i := rfl

@[simp] theorem add_zero (p : Ptr β) : p + 0 = p := rfl

theorem add_add (p : Ptr β) (i j : Nat) : p + i + j = p + (i + j) := congrArg (Ptr.mk p.block) (Nat.add_assoc ..)

end Ptr

namespace Blocks

variable {β : Type} [DecidableEq β] {m t : Blocks β} {p q : Ptr β} {b : β} {c d : UInt8} {l l₁ l₂ l₃ : List UInt8} {i k n : Nat}

omit [DecidableEq β] in
/-- `*p` -/
def load (m : Blocks β) (p : Ptr β) : Option UInt8 :=
  if p.offset < m.size p.block then some (m.data p.block p.offset) else none

/-- The bytes of `l` are written from `p` on. -/
def put (m : Blocks β) (p : Ptr β) (l : List UInt8) : Blocks β where
  size := m.size
  data b k := if b = p.block ∧ p.offset ≤ k then l[k - p.offset]?.getD (m.data b k) else m.data b k

/-- `*p = c` -/
def store (m : Blocks β) (p : Ptr β) (c : UInt8) : Option (Blocks β) :=
  if p.offset < m.size p.block then some (m.put p [c]) else none

/-- The bytes from `p` on are those of `l`. -/
structure Holds (m : Blocks β) (p : Ptr β) (l : List UInt8) : Prop where
  fits : p.offset + l.length ≤ m.size p.block
  bytes : ∀ i (_ : i < l.length), m.data p.block (p.offset + i) = l[i]

omit [DecidableEq β] in
/-- The `n` bytes from `p` on. -/
def bytes (m : Blocks β) (p : Ptr β) (n : Nat) : List UInt8 := (List.range n).map fun i => m.data p.block (p.offset + i)

/-- At `p` is the text `l` with its terminating zero. -/
structure IsString (m : Blocks β) (p : Ptr β) (l : List UInt8) : Prop where
  holds : m.Holds p (l ++ [0])
  nonzero : 0 ∉ l

/-! ### Writing -/

@[simp] theorem size_put : (m.put p l).size = m.size := rfl

theorem data_put (b : β) (k : Nat) :
    (m.put p l).data b k = if b = p.block ∧ p.offset ≤ k then l[k - p.offset]?.getD (m.data b k) else m.data b k := rfl

theorem data_put_other (h : b ≠ p.block) : (m.put p l).data b = m.data b := funext fun _ => if_neg fun hb => h hb.1

theorem data_put_at (hk : k < l.length) : (m.put p l).data p.block (p.offset + k) = l[k] := by
  rw [data_put, if_pos ⟨rfl, Nat.le_add_right ..⟩, Nat.add_sub_cancel_left, List.getElem?_eq_getElem hk, Option.getD_some]

@[simp] theorem put_nil : m.put p [] = m := by
  refine Blocks.ext rfl (funext₂ fun b k => ?_)
  rw [data_put]
  split <;> rfl

theorem put_append (m : Blocks β) (p : Ptr β) (l₁ l₂ : List UInt8) :
    m.put p (l₁ ++ l₂) = (m.put p l₁).put (p + l₁.length) l₂ := by
  refine Blocks.ext rfl (funext₂ fun b k => ?_)
  simp only [data_put, Ptr.block_add, Ptr.offset_add, List.getElem?_append]
  by_cases hb : b = p.block ∧ p.offset ≤ k
  · by_cases hk : k - p.offset < l₁.length
    · rw [if_pos hb, if_pos hk, if_neg (by omega), if_pos hb]
    · have hnone : l₁[k - p.offset]? = none := List.getElem?_eq_none (Nat.le_of_not_lt hk)
      rw [if_pos hb, if_neg hk, if_pos ⟨hb.1, by omega⟩, if_pos hb, hnone, Option.getD_none, Nat.sub_sub]
  · rw [if_neg hb, if_neg fun h => hb ⟨h.1, by omega⟩, if_neg hb]

/-- A text is written over a text that is not longer. -/
theorem put_put (h : l₁.length ≤ l₂.length) : (m.put p l₁).put p l₂ = m.put p l₂ := by
  refine Blocks.ext rfl (funext₂ fun b k => ?_)
  simp only [data_put]
  split
  · by_cases hk : k - p.offset < l₂.length
    · rw [List.getElem?_eq_getElem hk, Option.getD_some, Option.getD_some]
    · rw [List.getElem?_eq_none (Nat.le_of_not_lt hk), List.getElem?_eq_none (by omega)]
      rfl
  · rfl

/-- The middle of a text is replaced. -/
theorem put_middle (m : Blocks β) (p : Ptr β) (l₁ l₃ : List UInt8) (h : l.length = l₂.length) :
    (m.put p (l₁ ++ l₂ ++ l₃)).put (p + l₁.length) l = m.put p (l₁ ++ l ++ l₃) := by
  refine Blocks.ext rfl (funext₂ fun b k => ?_)
  simp only [data_put, Ptr.block_add, Ptr.offset_add, List.getElem?_append, List.length_append]
  by_cases hb : b = p.block ∧ p.offset ≤ k
  · rw [if_pos hb]
    by_cases h₁ : k - p.offset < l₁.length
    · rw [if_neg (by omega), if_pos hb, if_pos (by omega), if_pos h₁, if_pos (by omega), if_pos h₁]
    · rw [if_pos ⟨hb.1, by omega⟩, if_pos hb, ← Nat.sub_sub, h]
      by_cases h₂ : k - p.offset < l₁.length + l₂.length
      · have hk : k - p.offset - l₁.length < l.length := by omega
        rw [if_pos h₂, if_neg h₁, if_pos h₂, if_neg h₁, List.getElem?_eq_getElem hk, Option.getD_some, Option.getD_some]
      · have hk : l[k - p.offset - l₁.length]? = none := List.getElem?_eq_none (by omega)
        rw [if_neg h₂, if_neg h₂, hk, Option.getD_none]
  · rw [if_neg fun hlt => hb ⟨hlt.1, by omega⟩, if_neg hb, if_neg hb]

theorem store_eq (h : p.offset < m.size p.block) : m.store p c = some (m.put p [c]) := if_pos h

/-- A byte is stored behind the text that is written. -/
theorem store_snoc (h : p.offset + l.length < m.size p.block) :
    (m.put p l).store (p + l.length) c = some (m.put p (l ++ [c])) := by
  rw [put_append]
  exact if_pos h

/-- A byte of the text that is written is replaced. -/
theorem store_middle (h : p.offset + l₁.length < m.size p.block) :
    (m.put p (l₁ ++ d :: l₂)).store (p + l₁.length) c = some (m.put p (l₁ ++ c :: l₂)) := by
  have hput := put_middle m p l₁ l₂ (l := [c]) (List.length_singleton (a := d)).symm
  rw [List.append_assoc, List.append_assoc] at hput
  rw [store_eq h]
  exact congrArg some hput

/-! ### Texts -/

omit [DecidableEq β] in
theorem Holds.load (h : m.Holds p l) (hi : i < l.length) : m.load (p + i) = some l[i] := by
  have hfits := h.fits
  rw [← h.bytes i hi]
  exact if_pos (by dsimp; omega)

omit [DecidableEq β] in
theorem Holds.load_zero (h : m.Holds p (c :: l)) : m.load p = some c := h.load (i := 0) (Nat.succ_pos _)

omit [DecidableEq β] in
theorem Holds.left (h : m.Holds p (l₁ ++ l₂)) : m.Holds p l₁ where
  fits := by
    have hfits := h.fits
    rw [List.length_append] at hfits
    omega
  bytes i hi := by
    have hbyte := h.bytes i (by rw [List.length_append]; omega)
    rwa [List.getElem_append_left hi] at hbyte

omit [DecidableEq β] in
theorem Holds.right (h : m.Holds p (l₁ ++ l₂)) : m.Holds (p + l₁.length) l₂ where
  fits := by
    have hfits := h.fits
    rw [List.length_append] at hfits
    dsimp
    omega
  bytes i hi := by
    have hbyte := h.bytes (l₁.length + i) (by rw [List.length_append]; omega)
    rw [List.getElem_append_right (Nat.le_add_right ..)] at hbyte
    simp only [Nat.add_sub_cancel_left] at hbyte
    rw [← hbyte, ← Nat.add_assoc]
    rfl

omit [DecidableEq β] in
theorem Holds.tail (h : m.Holds p (c :: l)) : m.Holds (p + 1) l :=
  Holds.right (show m.Holds p ([c] ++ l) from h)

omit [DecidableEq β] in
theorem Holds.load_middle (h : m.Holds p (l₁ ++ c :: l₂)) : m.load (p + l₁.length) = some c := h.right.load_zero

theorem holds_put (h : p.offset + l.length ≤ m.size p.block) : (m.put p l).Holds p l := ⟨h, fun _ hi => data_put_at hi⟩

theorem Holds.put_other (h : m.Holds q l) (hne : q.block ≠ p.block) : (m.put p l₁).Holds q l :=
  ⟨h.fits, fun i hi => by rw [data_put_other hne, h.bytes i hi]⟩

/-- What is there already is written. -/
theorem Holds.put_eq (h : m.Holds p l) : m.put p l = m := by
  refine Blocks.ext rfl (funext₂ fun b k => ?_)
  rw [data_put]
  split
  · next hb =>
    by_cases hk : k - p.offset < l.length
    · rw [List.getElem?_eq_getElem hk, Option.getD_some, ← h.bytes _ hk, hb.1, Nat.add_sub_cancel' hb.2]
    · rw [List.getElem?_eq_none (Nat.le_of_not_lt hk), Option.getD_none]
  · rfl

theorem isString_put (h : p.offset + l.length < m.size p.block) (hl : 0 ∉ l) : (m.put p (l ++ [0])).IsString p l :=
  ⟨holds_put (by rw [List.length_append]; exact h), hl⟩

omit [DecidableEq β] in
theorem Holds.cons (h : m.Holds (p + 1) l) (hc : m.data p.block p.offset = c) : m.Holds p (c :: l) where
  fits := by
    have hfits := h.fits
    rw [List.length_cons]
    dsimp at hfits
    omega
  bytes i hi := by
    cases i with
    | zero => exact hc
    | succ i =>
      have hbyte := h.bytes i (Nat.lt_of_succ_lt_succ hi)
      rw [Ptr.block_add, Ptr.offset_add, Nat.add_assoc, Nat.add_comm 1] at hbyte
      exact hbyte

omit [DecidableEq β] in
theorem IsString.tail (h : m.IsString p (c :: l)) : m.IsString (p + 1) l :=
  ⟨h.holds.tail, fun hl => h.nonzero (List.mem_cons_of_mem c hl)⟩

omit [DecidableEq β] in
theorem IsString.cons (h : m.IsString (p + 1) l) (hc : m.data p.block p.offset ≠ 0) :
    m.IsString p (m.data p.block p.offset :: l) :=
  ⟨h.holds.cons rfl, fun hmem => (List.mem_cons.mp hmem).elim (fun heq => hc heq.symm) h.nonzero⟩

omit [DecidableEq β] in
theorem isString_nil (hfits : p.offset < m.size p.block) (hzero : m.data p.block p.offset = 0) : m.IsString p [] where
  holds := ⟨hfits, fun i hi => by
    obtain rfl : i = 0 := Nat.lt_one_iff.mp hi
    exact hzero⟩
  nonzero := List.not_mem_nil

omit [DecidableEq β] in
/-- Where a zero follows there is a text. -/
theorem exists_isString (k : Nat) (hk : p.offset + k < m.size p.block) (hzero : m.data p.block (p.offset + k) = 0) :
    ∃ l, l.length ≤ k ∧ m.IsString p l := by
  induction k generalizing p with
  | zero => exact ⟨[], Nat.le_refl 0, isString_nil hk hzero⟩
  | succ k ih =>
    by_cases hc : m.data p.block p.offset = 0
    · exact ⟨[], Nat.zero_le _, isString_nil (Nat.lt_of_le_of_lt (Nat.le_add_right ..) hk) hc⟩
    · have hoffset : (p + 1).offset + k = p.offset + (k + 1) := by
        dsimp
        omega
      obtain ⟨l, hlength, hl⟩ := ih (p := p + 1) (by rw [hoffset]; exact hk) (by rw [hoffset]; exact hzero)
      exact ⟨m.data p.block p.offset :: l, Nat.succ_le_succ hlength, hl.cons hc⟩

omit [DecidableEq β] in
@[simp] theorem length_bytes : (m.bytes p n).length = n := by rw [bytes, List.length_map, List.length_range]

omit [DecidableEq β] in
theorem getElem_bytes (h : i < (m.bytes p n).length) : (m.bytes p n)[i] = m.data p.block (p.offset + i) := by
  simp [bytes]

theorem IsString.put_other (h : m.IsString q l) (hne : q.block ≠ p.block) : (m.put p l₁).IsString q l :=
  ⟨h.holds.put_other hne, h.nonzero⟩

end Blocks

end Fos.Lib
