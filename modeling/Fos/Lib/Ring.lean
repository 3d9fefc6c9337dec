import Mathlib.Data.Nat.ModEq
import Mathlib.Logic.Function.Basic

/-! Ring buffers without a count. A read and a write position run around `n` cells, and equal positions mean that the ring is
    empty: it holds a queue of at most `n - 1` elements. -/

namespace Fos.Lib

variable {α : Type} {cells : Nat → α} {n r w i : Nat} {q : List α} {c : α}

/-- The position behind `i` -/
def ringNext (n i : Nat) : Nat := if i + 1 = n then 0 else i + 1

/-- The cells from the read position `r` up to the write position `w` hold the queue `q`. -/
structure RingHolds (n : Nat) (cells : Nat → α) (r w : Nat) (q : List α) : Prop where
  read_lt : r < n
  length_lt : q.length < n
  write_eq : w = (r + q.length) % n
  cell : ∀ i (hi : i < q.length), cells ((r + i) % n) = q[i]

theorem ringNext_eq (hi : i < n) : ringNext n i = (i + 1) % n := by
  unfold ringNext
  split
  · next heq => rw [heq, Nat.mod_self]
  · exact (Nat.mod_eq_of_lt (by omega)).symm

theorem RingHolds.write_lt (h : RingHolds n cells r w q) : w < n := by
  rw [h.write_eq]
  exact Nat.mod_lt _ (by have := h.read_lt; omega)

theorem ringHolds_nil (hr : r < n) : RingHolds n cells r r [] where
  read_lt := hr
  length_lt := Nat.zero_lt_of_lt hr
  write_eq := (Nat.mod_eq_of_lt hr).symm
  cell := nofun

/-- Two cells of a ring differ when their distances from the read position do. -/
theorem ring_index_ne {j : Nat} (hi : i < n) (hj : j < n) (hij : i ≠ j) : (r + i) % n ≠ (r + j) % n := by
  intro heq
  have hmod : Nat.ModEq n i j := Nat.ModEq.add_left_cancel' r heq
  exact hij (hmod.eq_of_lt_of_lt hi hj)

/-- An element is put at the write position; there is room for it while the positions stay apart. -/
theorem RingHolds.put (h : RingHolds n cells r w q) (hroom : q.length + 1 < n) (c : α) :
    RingHolds n (Function.update cells w c) r (ringNext n w) (q ++ [c]) where
  read_lt := h.read_lt
  length_lt := by
    rw [List.length_append]
    exact hroom
  write_eq := by
    rw [ringNext_eq h.write_lt, h.write_eq, Nat.mod_add_mod, List.length_append]
    rfl
  cell := fun i hi => by
    rw [List.length_append, List.length_singleton] at hi
    rw [h.write_eq]
    rcases Nat.lt_succ_iff_lt_or_eq.mp hi with hlt | rfl
    · rw [Function.update_of_ne (ring_index_ne (by omega) (by omega) (by omega)), h.cell i hlt, List.getElem_append_left hlt]
    · rw [Function.update_self]
      simp

/-- The positions are equal if and only if nothing is held. -/
theorem RingHolds.eq_iff (h : RingHolds n cells r w q) : r = w ↔ q = [] := by
  constructor
  · intro heq
    by_contra hne
    have hpos := List.length_pos_iff.mpr hne
    have hlength := h.length_lt
    refine ring_index_ne (r := r) (Nat.zero_lt_of_lt hlength) hlength (Nat.ne_of_lt hpos) ?_
    rw [← h.write_eq, ← heq]
    exact Nat.mod_eq_of_lt h.read_lt
  · rintro rfl
    rw [h.write_eq]
    exact (Nat.mod_eq_of_lt h.read_lt).symm

/-- The oldest element is at the read position. -/
theorem RingHolds.get (h : RingHolds n cells r w (c :: q)) : cells r = c ∧ RingHolds n cells (ringNext n r) w q := by
  have hr := h.read_lt
  have hlength := h.length_lt
  rw [List.length_cons] at hlength
  have hfirst := h.cell 0 (Nat.succ_pos _)
  rw [Nat.add_zero, Nat.mod_eq_of_lt hr] at hfirst
  refine ⟨hfirst, ?_, by omega, ?_, fun i hi => ?_⟩
  · rw [ringNext_eq hr]
    exact Nat.mod_lt _ (by omega)
  · rw [ringNext_eq hr, Nat.mod_add_mod, h.write_eq, List.length_cons]
    congr 1
    omega
  · have hcell := h.cell (i + 1) (Nat.succ_lt_succ hi)
    rw [ringNext_eq hr, Nat.mod_add_mod, Nat.add_assoc, Nat.add_comm 1 i]
    exact hcell

end Fos.Lib
