import Mathlib.Data.Set.Card
import Mathlib.Logic.Function.Basic

/-! Resources with one owner each: a resource is in the free list, or exactly one cell holds it. -/

namespace Fos.Lib

variable {C R : Type} {all : Set R} {free : List R} {hold hold' : C → Option R} {c : C} {r : R}

/-- The resources `all` are split between the list `free` and the cells. -/
structure Ledger (all : Set R) (free : List R) (hold : C → Option R) : Prop where
  nodup : free.Nodup
  free_mem : ∀ r ∈ free, r ∈ all
  held_mem : ∀ c r, hold c = some r → r ∈ all
  unique : ∀ c d r, hold c = some r → hold d = some r → c = d
  apart : ∀ c r, hold c = some r → r ∉ free
  cover : ∀ r ∈ all, r ∈ free ∨ ∃ c, hold c = some r

namespace Ledger

/-- Before anything is taken. -/
theorem init (h : free.Nodup) : Ledger {r | r ∈ free} free fun _ : C => none where
  nodup := h
  free_mem := fun _ hr => hr
  held_mem := nofun
  unique := nofun
  apart := nofun
  cover := fun _ hr => .inl hr

variable [DecidableEq C]

/-- A cell that holds nothing takes the first free resource. -/
theorem take (h : Ledger all (r :: free) hold) (hc : hold c = none) :
    Ledger all free (Function.update hold c (some r)) := by
  obtain ⟨hr, hnodup⟩ := List.nodup_cons.mp h.nodup
  have hcases : ∀ d q, Function.update hold c (some r) d = some q → d = c ∧ q = r ∨ d ≠ c ∧ hold d = some q := by
    intro d q hd
    by_cases hdc : d = c
    · rw [hdc, Function.update_self] at hd
      exact .inl ⟨hdc, (Option.some.inj hd).symm⟩
    · rw [Function.update_of_ne hdc] at hd
      exact .inr ⟨hdc, hd⟩
  refine ⟨hnodup, fun q hq => h.free_mem q (List.mem_cons_of_mem _ hq), fun d q hd => ?_, fun d e q hd he => ?_,
    fun d q hd hq => ?_, fun q hq => ?_⟩
  · rcases hcases d q hd with ⟨-, rfl⟩ | ⟨-, hd⟩
    · exact h.free_mem q (List.mem_cons_self ..)
    · exact h.held_mem d q hd
  · rcases hcases d q hd with ⟨rfl, rfl⟩ | ⟨-, hd⟩
    · rcases hcases e q he with ⟨rfl, -⟩ | ⟨-, he⟩
      · rfl
      · exact absurd (List.mem_cons_self ..) (h.apart e q he)
    · rcases hcases e q he with ⟨-, rfl⟩ | ⟨-, he⟩
      · exact absurd (List.mem_cons_self ..) (h.apart d q ‹_›)
      · exact h.unique d e q hd he
  · rcases hcases d q hd with ⟨-, rfl⟩ | ⟨-, hd⟩
    · exact hr hq
    · exact h.apart d q hd (List.mem_cons_of_mem _ hq)
  · rcases h.cover q hq with hq | ⟨d, hd⟩
    · rcases List.mem_cons.mp hq with rfl | hq
      · exact .inr ⟨c, Function.update_self ..⟩
      · exact .inl hq
    · have hdc : d ≠ c := by
        rintro rfl
        rw [hc] at hd
        exact nomatch hd
      exact .inr ⟨d, by rw [Function.update_of_ne hdc, hd]⟩

/-- A cell gives its resource back. -/
theorem give (h : Ledger all free hold) (hc : hold c = some r) :
    Ledger all (r :: free) (Function.update hold c none) := by
  have hother : ∀ d q, Function.update hold c none d = some q → d ≠ c ∧ hold d = some q := by
    intro d q hd
    by_cases hdc : d = c
    · rw [hdc, Function.update_self] at hd
      exact nomatch hd
    · rw [Function.update_of_ne hdc] at hd
      exact ⟨hdc, hd⟩
  refine ⟨List.nodup_cons.mpr ⟨h.apart c r hc, h.nodup⟩, fun q hq => ?_, fun d q hd => h.held_mem d q (hother d q hd).2,
    fun d e q hd he => h.unique d e q (hother d q hd).2 (hother e q he).2, fun d q hd hq => ?_, fun q hq => ?_⟩
  · rcases List.mem_cons.mp hq with rfl | hq
    · exact h.held_mem c q hc
    · exact h.free_mem q hq
  · obtain ⟨hdc, hd⟩ := hother d q hd
    rcases List.mem_cons.mp hq with rfl | hq
    · exact hdc (h.unique d c q hd hc)
    · exact h.apart d q hd hq
  · rcases h.cover q hq with hq | ⟨d, hd⟩
    · exact .inl (List.mem_cons_of_mem _ hq)
    · by_cases hdc : d = c
      · rw [hdc, hc] at hd
        exact .inl (Option.some.inj hd ▸ List.mem_cons_self ..)
      · exact .inr ⟨d, by rw [Function.update_of_ne hdc, hd]⟩

omit [DecidableEq C] in
theorem mem_free_iff (h : Ledger all free hold) : r ∈ free ↔ r ∈ all ∧ ∀ c, hold c ≠ some r := by
  refine ⟨fun hr => ⟨h.free_mem r hr, fun c hc => h.apart c r hc hr⟩, ?_⟩
  rintro ⟨hr, hnone⟩
  exact (h.cover r hr).resolve_right fun ⟨c, hc⟩ => hnone c hc

/-- A cell that held nothing has got one of the free resources. -/
theorem taken {free' : List R} (h : Ledger all free hold) (h' : Ledger all free' (Function.update hold c (some r)))
    (hc : hold c = none) : free.Perm (r :: free') := by
  have hself : Function.update hold c (some r) c = some r := Function.update_self ..
  refine (List.perm_ext_iff_of_nodup h.nodup (List.nodup_cons.mpr ⟨h'.apart c r hself, h'.nodup⟩)).mpr fun q => ?_
  rw [List.mem_cons, h.mem_free_iff, h'.mem_free_iff]
  constructor
  · rintro ⟨hq, hnone⟩
    refine or_iff_not_imp_left.mpr fun hne => ⟨hq, fun d hd => ?_⟩
    by_cases hdc : d = c
    · rw [hdc, hself] at hd
      exact hne (Option.some.inj hd).symm
    · rw [Function.update_of_ne hdc] at hd
      exact hnone d hd
  · rintro (rfl | ⟨hq, hnone⟩)
    · refine ⟨h'.held_mem c q hself, fun d hd => ?_⟩
      by_cases hdc : d = c
      · rw [hdc, hc] at hd
        exact Option.some_ne_none q hd.symm
      · exact hdc (h'.unique d c q (by rw [Function.update_of_ne hdc, hd]) hself)
    · refine ⟨hq, fun d hd => ?_⟩
      by_cases hdc : d = c
      · rw [hdc, hc] at hd
        exact Option.some_ne_none q hd.symm
      · exact hnone d (by rw [Function.update_of_ne hdc, hd])

omit [DecidableEq C] in
/-- The free resources and the cells that hold one are as many as there are resources. -/
theorem count (h : Ledger all free hold) (hfin : all.Finite) : free.length + {c | hold c ≠ none}.ncard = all.ncard := by
  classical
  let held : Set R := {r | ∃ c, hold c = some r}
  have hcells : {c | hold c ≠ none}.ncard = held.ncard := by
    have himage : hold '' {c | hold c ≠ none} = some '' held := by
      ext x
      cases x with
      | none => simp
      | some r =>
        constructor
        · rintro ⟨c, -, hc⟩
          exact ⟨r, ⟨c, hc⟩, rfl⟩
        · rintro ⟨q, ⟨c, hc⟩, hq⟩
          rw [← hq, ← hc]
          exact ⟨c, by simp [hc], rfl⟩
    rw [← Set.ncard_image_of_injective held (Option.some_injective R), ← himage]
    refine (Set.InjOn.ncard_image fun c hc d _ heq => ?_).symm
    obtain ⟨r, hr⟩ := Option.ne_none_iff_exists'.mp hc
    exact h.unique c d r hr (heq ▸ hr)
  have hall : all = ↑free.toFinset ∪ held := by
    ext r
    rw [List.coe_toFinset]
    constructor
    · exact h.cover r
    · rintro (hr | ⟨c, hc⟩)
      · exact h.free_mem r hr
      · exact h.held_mem c r hc
  have hdisj : Disjoint (↑free.toFinset : Set R) held := by
    refine Set.disjoint_left.mpr fun r hr => ?_
    rintro ⟨c, hc⟩
    exact h.apart c r hc (by simpa using hr)
  have hheld : held.Finite := hfin.subset fun r ⟨c, hc⟩ => h.held_mem c r hc
  rw [hcells, hall, Set.ncard_union_eq hdisj (Finset.finite_toSet _) hheld, Set.ncard_coe_finset,
    List.toFinset_card_of_nodup h.nodup]

end Ledger

end Fos.Lib
