import Mathlib.Data.Set.Card
import Mathlib.Logic.Function.Basic

/-! Cells that each hold at most one resource, and the number of cells that hold a resource. -/

namespace Fos.Lib

variable {C F : Type} {hold : C → Option F} {c : C} {f g : F}

/-- The cells that hold `f`. -/
def holders (hold : C → Option F) (f : F) : Set C := {c | hold c = some f}

theorem mem_holders : c ∈ holders hold f ↔ hold c = some f := Iff.rfl

theorem holders_eq_empty : holders hold f = ∅ ↔ ∀ c, hold c ≠ some f := Set.eq_empty_iff_forall_notMem

theorem ncard_holders_eq_zero [Finite C] : (holders hold f).ncard = 0 ↔ ∀ c, hold c ≠ some f := by
  rw [Set.ncard_eq_zero, holders_eq_empty]

variable [DecidableEq C]

theorem holders_attach : holders (Function.update hold c (some f)) f = insert c (holders hold f) := by
  ext x
  by_cases hx : x = c
  · simp [holders, hx]
  · simp [holders, hx]

theorem holders_attach_of_ne (hc : hold c = none) (hne : g ≠ f) :
    holders (Function.update hold c (some f)) g = holders hold g := by
  ext x
  by_cases hx : x = c
  · simp [holders, hx, hc, hne.symm]
  · simp [holders, hx]

theorem holders_detach : holders (Function.update hold c none) f = holders hold f \ {c} := by
  ext x
  by_cases hx : x = c
  · simp [holders, hx]
  · simp [holders, hx]

theorem holders_detach_of_ne (hc : hold c = some f) (hne : g ≠ f) :
    holders (Function.update hold c none) g = holders hold g := by
  rw [holders_detach]
  refine Set.sdiff_singleton_eq_self ?_
  rw [mem_holders, hc]
  exact fun h => hne (Option.some.inj h).symm

/-- A free cell takes `f`. -/
theorem ncard_holders_attach [Finite C] (hc : hold c = none) :
    (holders (Function.update hold c (some f)) f).ncard = (holders hold f).ncard + 1 := by
  rw [holders_attach]
  refine Set.ncard_insert_of_notMem ?_
  rw [mem_holders, hc]
  exact nofun

/-- A cell gives `f` up. -/
theorem ncard_holders_detach [Finite C] (hc : hold c = some f) :
    (holders (Function.update hold c none) f).ncard + 1 = (holders hold f).ncard := by
  rw [holders_detach]
  exact Set.ncard_sdiff_singleton_add_one (mem_holders.mpr hc)

end Fos.Lib
