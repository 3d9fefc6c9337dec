import Mathlib.Data.Nat.Basic
import Mathlib.Data.List.Basic

/-! The maximal runs of the positions below a bound at which a predicate holds, in their order, and the same list as a scan from
    the left meets it. -/

namespace Fos.Lib

variable {word : Nat → Prop} {len i k : Nat} {r : Nat × Nat} {ts : List (Nat × Nat)}

/-- The positions from `r.1` up to `r.2`, which is excluded, are a maximal run. -/
structure IsRun (word : Nat → Prop) (len : Nat) (r : Nat × Nat) : Prop where
  nonempty : r.1 < r.2
  bounded : r.2 ≤ len
  inside : ∀ k, r.1 ≤ k → k < r.2 → word k
  left : ∀ k, k + 1 = r.1 → ¬ word k
  right : r.2 < len → ¬ word r.2

/-- All maximal runs, in their order. -/
structure MaximalRuns (word : Nat → Prop) (len : Nat) (ts : List (Nat × Nat)) : Prop where
  mem_iff : ∀ r, r ∈ ts ↔ IsRun word len r
  ordered : ts.Pairwise fun r r' => r.1 < r'.1

/-- What a scan meets from position `i` on: it passes what is outside the runs, then the next run up to its end. -/
inductive RunsFrom (word : Nat → Prop) (len : Nat) : Nat → List (Nat × Nat) → Prop
  | done {i : Nat} (hi : i ≤ len) (hgap : ∀ k, i ≤ k → k < len → ¬ word k) : RunsFrom word len i []
  | run {i : Nat} {r : Nat × Nat} {ts : List (Nat × Nat)} (hi : i ≤ r.1) (hgap : ∀ k, i ≤ k → k < r.1 → ¬ word k)
      (hrun : IsRun word len r) (hts : RunsFrom word len r.2 ts) : RunsFrom word len i (r :: ts)

theorem exists_left (hword : word k) : ∃ a, a ≤ k ∧ (∀ j, a ≤ j → j ≤ k → word j) ∧ ∀ j, j + 1 = a → ¬ word j := by
  induction k with
  | zero => exact ⟨0, Nat.le_refl 0, fun j _ hj => Nat.le_zero.mp hj ▸ hword, fun j hj => absurd hj (Nat.succ_ne_zero j)⟩
  | succ k ih =>
    by_cases hprev : word k
    · obtain ⟨a, ha, hall, hleft⟩ := ih hprev
      refine ⟨a, by omega, fun j hj hjk => ?_, hleft⟩
      rcases Nat.eq_or_lt_of_le hjk with rfl | hlt
      · exact hword
      · exact hall j hj (by omega)
    · refine ⟨k + 1, Nat.le_refl _, fun j hj hjk => ?_, fun j hj => ?_⟩
      · rwa [Nat.le_antisymm hjk hj]
      · rwa [Nat.succ_injective hj]

theorem exists_right (k : Nat) (hk : k < len) (hword : word k) :
    ∃ b, k < b ∧ b ≤ len ∧ (∀ j, k ≤ j → j < b → word j) ∧ (b < len → ¬ word b) := by
  by_cases hnext : k + 1 < len ∧ word (k + 1)
  · obtain ⟨b, hb, hlen, hall, hright⟩ := exists_right (k + 1) hnext.1 hnext.2
    refine ⟨b, by omega, hlen, fun j hj hjb => ?_, hright⟩
    rcases Nat.eq_or_lt_of_le hj with rfl | hlt
    · exact hword
    · exact hall j hlt hjb
  · refine ⟨k + 1, Nat.lt_succ_self k, hk, fun j hj hjb => ?_, fun hlt hw => hnext ⟨hlt, hw⟩⟩
    rwa [← Nat.le_antisymm hj (Nat.le_of_lt_succ hjb)]
termination_by len - k

/-- The run that a position is in. -/
theorem exists_run (hk : k < len) (hword : word k) : ∃ r, IsRun word len r ∧ r.1 ≤ k ∧ k < r.2 := by
  obtain ⟨a, ha, hbefore, hleft⟩ := exists_left hword
  obtain ⟨b, hb, hlen, hafter, hright⟩ := exists_right k hk hword
  refine ⟨(a, b), ⟨Nat.lt_of_le_of_lt ha hb, hlen, fun j hj hjb => ?_, hleft, hright⟩, ha, hb⟩
  rcases Nat.le_total j k with hjk | hkj
  · exact hbefore j hj hjk
  · exact hafter j hkj hjb

/-- A run that starts behind the start of another one starts behind its end. -/
theorem IsRun.lt_of_lt {r' : Nat × Nat} (h : IsRun word len r) (h' : IsRun word len r') (hlt : r.1 < r'.1) : r.2 < r'.1 := by
  by_contra hle
  have hinside := h.inside (r'.1 - 1) (by omega) (by omega)
  exact h'.left (r'.1 - 1) (by omega) hinside

/-- A word behind a place that is not inside a run is in a run behind it. -/
theorem exists_run_from (hfresh : i = 0 ∨ (i < len → ¬ word i)) (hik : i ≤ k) (hk : k < len) (hword : word k) :
    ∃ r, IsRun word len r ∧ i ≤ r.1 ∧ r.1 ≤ k := by
  obtain ⟨r, hrun, hr, hkr⟩ := exists_run hk hword
  refine ⟨r, hrun, Nat.not_lt.mp fun hlt => ?_, hr⟩
  rcases hfresh with rfl | hfresh
  · exact Nat.not_lt_zero _ hlt
  · exact hfresh (by omega) (hrun.inside i (by omega) (by omega))

theorem runsFrom_of_mem (hi : i ≤ len) (hfresh : i = 0 ∨ (i < len → ¬ word i))
    (hmem : ∀ r, r ∈ ts ↔ IsRun word len r ∧ i ≤ r.1) (hordered : ts.Pairwise fun r r' => r.1 < r'.1) :
    RunsFrom word len i ts := by
  induction ts generalizing i with
  | nil =>
    refine .done hi fun k hik hk hword => ?_
    obtain ⟨r, hrun, hir, -⟩ := exists_run_from hfresh hik hk hword
    exact List.not_mem_nil ((hmem r).mpr ⟨hrun, hir⟩)
  | cons r ts ih =>
    obtain ⟨hrun, hir⟩ := (hmem r).mp List.mem_cons_self
    have hafter : ∀ r' ∈ ts, r.1 < r'.1 := fun r' hr' => List.rel_of_pairwise_cons hordered hr'
    have hbounded := hrun.bounded
    have hnonempty := hrun.nonempty
    refine .run hir (fun k hik hk hword => ?_) hrun (ih hbounded (.inr hrun.right) (fun r' => ?_) hordered.of_cons)
    · obtain ⟨r', hrun', hir', hle⟩ := exists_run_from hfresh hik (by omega) hword
      rcases List.mem_cons.mp ((hmem r').mpr ⟨hrun', hir'⟩) with rfl | htail
      · omega
      · exact absurd (hafter r' htail) (by omega)
    · constructor
      · intro hr'
        obtain ⟨hrun', -⟩ := (hmem r').mp (List.mem_cons_of_mem r hr')
        exact ⟨hrun', Nat.le_of_lt (hrun.lt_of_lt hrun' (hafter r' hr'))⟩
      · rintro ⟨hrun', hle⟩
        rcases List.mem_cons.mp ((hmem r').mpr ⟨hrun', by omega⟩) with rfl | htail
        · omega
        · exact htail

/-- A scan from the start meets all maximal runs. -/
theorem MaximalRuns.runsFrom (h : MaximalRuns word len ts) : RunsFrom word len 0 ts :=
  runsFrom_of_mem (Nat.zero_le len) (.inl rfl) (fun r => by rw [h.mem_iff, and_iff_left (Nat.zero_le _)]) h.ordered

end Fos.Lib
