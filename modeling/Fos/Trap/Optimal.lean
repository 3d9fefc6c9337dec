import Fos.Lib.Caching
import Fos.Mem.UserMem

/-! `get_optimal_num_faults` (`kern/trap/fault_handler.c`): the number of faults that the optimal replacement has on a recorded
    stream of references. -/

namespace Fos.Trap
open Lib Mem

/-- The arguments and variables of `get_optimal_num_faults`. A reference is its virtual address, and `working_set_beta3ty` is the
    block that `kmalloc` returned. -/
structure OptimalFaults where
  initWorkingSet : List WorkingSetElement
  maxWSSize : Nat
  pageReferences : List Nat
  workingSetBeta3ty : List Nat
  currentSize : Nat := 0
  faults : Nat := 0
  deriving DecidableEq

/-- The page of a reference. -/
def pageOf (va : Nat) : Nat := roundDown va pageSize

/-- The loop over the stream that counts the distance, with `mawgood_2odam`. -/
def distanceLoop (page : Nat) : Nat → List Nat → Nat × Bool
  | distance, [] => (distance, false)
  | distance, va :: refs => if pageOf va = page then (distance + 1, true) else distanceLoop page (distance + 1) refs

/-- `distance` after the loop. -/
def distance (page : Nat) (refs : List Nat) : Nat :=
  match distanceLoop page 0 refs with
  | (distance, mawgood2odam) => if mawgood2odam then distance else 2147483647

namespace OptimalFaults

/-- `working_set_beta3ty[i]`, which must be in the block -/
def cell (s : OptimalFaults) (i : Nat) : Option Nat := s.workingSetBeta3ty[i]?

/-- `working_set_beta3ty[i] = page` -/
def setCell (s : OptimalFaults) (i page : Nat) : Option OptimalFaults :=
  if i < s.workingSetBeta3ty.length then some { s with workingSetBeta3ty := s.workingSetBeta3ty.set i page } else none

/-- `working_set_beta3ty[current_size++] = page` -/
def push (s : OptimalFaults) (page : Nat) : Option OptimalFaults :=
  (s.setCell s.currentSize page).map fun t => { t with currentSize := s.currentSize + 1 }

/-- One round of the loop that copies the working set. -/
def copyElement (s : OptimalFaults) (iterator : WorkingSetElement) : Option OptimalFaults :=
  if s.currentSize < s.maxWSSize then s.push iterator.virtualAddress else some s

/-- The loop that searches the page in the cells. -/
def mawgood (s : OptimalFaults) (page : Nat) : List Nat → Option Bool
  | [] => some false
  | i :: is => (s.cell i).bind fun c => if c = page then some true else s.mawgood page is

/-- The loop that searches the victim, with `victim_index` and `ab3ad_masafa`. -/
def victimLoop (s : OptimalFaults) (refs : List Nat) : List Nat → Nat → Nat → Option Nat
  | [], victimIndex, _ => some victimIndex
  | i :: is, victimIndex, ab3adMasafa =>
    (s.cell i).bind fun page =>
      let (victimIndex, ab3adMasafa) :=
        if ab3adMasafa < distance page refs then (i, distance page refs) else (victimIndex, ab3adMasafa)
      if ab3adMasafa = 2147483647 then some victimIndex else s.victimLoop refs is victimIndex ab3adMasafa

/-- The placement or the replacement after a miss. -/
def miss (s : OptimalFaults) (page : Nat) (refs : List Nat) : Option OptimalFaults :=
  if s.currentSize < s.maxWSSize then s.push page
  else (s.victimLoop refs (List.range s.currentSize) 0 0).bind fun victimIndex => s.setCell victimIndex page

/-- One round of the main loop, with the references `refs` after this one. -/
def reference (s : OptimalFaults) (va : Nat) (refs : List Nat) : Option OptimalFaults :=
  (s.mawgood (pageOf va) (List.range s.currentSize)).bind fun mawgood =>
    if mawgood then some s else { s with faults := s.faults + 1 }.miss (pageOf va) refs

/-- The main loop. -/
def references (s : OptimalFaults) : List Nat → Option OptimalFaults
  | [] => some s
  | va :: refs => (s.reference va refs).bind fun t => t.references refs

end OptimalFaults

/-- `get_optimal_num_faults(initWorkingSet, maxWSSize, pageReferences)`, where `kmalloc(maxWSSize * sizeof(uint32))`, whose argument
    does not wrap, returns the block `block`. It returns `faults`. -/
def getOptimalNumFaults (initWorkingSet : List WorkingSetElement) (maxWSSize : Nat) (pageReferences block : List Nat) :
    Option OptimalFaults :=
  (exec OptimalFaults.copyElement ⟨initWorkingSet, maxWSSize, pageReferences, block, 0, 0⟩ initWorkingSet).bind fun s =>
    s.references s.pageReferences

/-! ### Distances -/

theorem distanceLoop_eq (page d : Nat) (refs : List Nat) :
    distanceLoop page d refs =
      if page ∈ refs.map pageOf then (d + (refs.map pageOf).idxOf page + 1, true) else (d + refs.length, false) := by
  induction refs generalizing d with
  | nil => rfl
  | cons va refs ih =>
    unfold distanceLoop
    rw [List.map_cons, List.idxOf_cons]
    by_cases hpage : pageOf va = page
    · rw [if_pos hpage, if_pos (List.mem_cons.mpr (.inl hpage.symm)), beq_iff_eq.mpr hpage]
      rfl
    · rw [if_neg hpage, ih, beq_eq_false_iff_ne.mpr hpage, List.length_cons]
      simp only [List.mem_cons, Ne.symm hpage, false_or, cond_false]
      grind

theorem distance_eq (page : Nat) (refs : List Nat) :
    distance page refs = if page ∈ refs.map pageOf then (refs.map pageOf).idxOf page + 1 else 2147483647 := by
  unfold distance
  rw [distanceLoop_eq]
  by_cases hmem : page ∈ refs.map pageOf
  · rw [if_pos hmem, if_pos hmem]
    simp
  · rw [if_neg hmem, if_neg hmem]
    simp

variable {refs : List Nat} {page : Nat}

theorem distance_le (hlen : refs.length < 2147483647) : distance page refs ≤ 2147483647 := by
  rw [distance_eq]
  split
  case isTrue hmem =>
    have hlt := List.idxOf_lt_length_of_mem hmem
    rw [List.length_map] at hlt
    omega
  case isFalse => exact Nat.le_refl _

/-- The page with the greatest distance is used farthest away. -/
theorem farthest_of_distance {D : Finset Nat} {v : Nat} (hlen : refs.length < 2147483647) (hmem : v ∈ D)
    (hv : ∀ x ∈ D, distance x refs ≤ distance v refs) : Farthest D (refs.map pageOf) v := by
  refine ⟨hmem, fun x hx t hused => ?_⟩
  have hin : v ∈ refs.map pageOf := List.mem_of_mem_take hused
  have hdist := hv x hx
  have hlt := List.idxOf_lt_length_of_mem hin
  rw [List.mem_take_iff_idxOf_lt hin] at hused
  rw [List.length_map] at hlt
  rw [distance_eq, distance_eq, if_pos hin] at hdist
  by_cases hin' : x ∈ refs.map pageOf
  · rw [if_pos hin'] at hdist
    rw [List.mem_take_iff_idxOf_lt hin']
    omega
  · rw [if_neg hin'] at hdist
    omega

end Fos.Trap
