import Fos.Disk.PageFileMap
import Mathlib.Algebra.BigOperators.Fin

/-! The numbers that the kernel reports of the page file: the pages of one environment, which are counted, and the free disk
    frames, which are the size of the free list. -/

namespace Fos.Disk.PageFile
open Lib Mem Heap

variable {E : Type} {s : PageFile E} {e : E}

/-- One round of the inner loop of `pf_calculate_allocated_pages`. -/
def countDiskEntry (t : DiskTable) (counter : Nat) (j : Fin 1024) : Nat := if t j ≠ 0 then u32 (counter + 1) else counter

/-- One round of the outer loop. -/
def countDiskTable (dir : Fin 1024 → Option DiskTable) (counter : Nat) (i : Fin 1024) : Nat :=
  match dir i with
  | none => counter
  | some t => (List.finRange 1024).foldl (countDiskEntry t) counter

/-- `pf_calculate_allocated_pages(ptr_env)`; `none` stands for a null directory, which the loop reads. -/
def pfCalculateAllocatedPages (s : PageFile E) (e : E) : Option Nat :=
  (s.pgdir e).map fun dir => ((List.finRange 1024).filter (· < pdx userTop)).foldl (countDiskTable dir) 0

/-- `pf_calculate_free_frames()` -/
def pfCalculateFreeFrames (s : PageFile E) : Nat := (s.diskFreeFrameList.head ()).size.toNat

/-- 1 for a page that is in the page file -/
def present (s : PageFile E) (e : E) (i j : Fin 1024) : Nat := if s.hold (e, i, j) ≠ none then 1 else 0

theorem present_le (s : PageFile E) (e : E) (i j : Fin 1024) : s.present e i j ≤ 1 := by
  unfold present
  split <;> decide

/-! ### The loops -/

/-- A loop that adds to a counter at most `b` in each round, which does not wrap. -/
theorem foldl_count {α : Type} {body : Nat → α → Nat} {f : α → Nat} {b : Nat} (hf : ∀ a, f a ≤ b)
    (hbody : ∀ c a, c + b < 4294967296 → body c a = c + f a) (l : List α) (c : Nat) (hc : c + l.length * b < 4294967296) :
    l.foldl body c = c + (l.map f).sum := by
  induction l generalizing c with
  | nil => rfl
  | cons a l ih =>
    have hlen : (a :: l).length * b = l.length * b + b := Nat.succ_mul ..
    have ha := hf a
    rw [List.foldl_cons, hbody c a (by omega), ih (c + f a) (by omega), List.map_cons, List.sum_cons]
    omega

theorem sum_le_of_forall {α : Type} {f : α → Nat} {b : Nat} (hf : ∀ a, f a ≤ b) (l : List α) : (l.map f).sum ≤ l.length * b := by
  induction l with
  | nil => exact Nat.zero_le _
  | cons a l ih =>
    have hlen : (a :: l).length * b = l.length * b + b := Nat.succ_mul ..
    have ha := hf a
    rw [List.map_cons, List.sum_cons]
    omega

/-- The elements that are left out add nothing. -/
theorem sum_filter_of_zero {α : Type} {f : α → Nat} {p : α → Bool} (hp : ∀ a, p a = false → f a = 0) (l : List α) :
    ((l.filter p).map f).sum = (l.map f).sum := by
  induction l with
  | nil => rfl
  | cons a l ih =>
    cases ha : p a with
    | true => rw [List.filter_cons_of_pos ha, List.map_cons, List.map_cons, List.sum_cons, List.sum_cons, ih]
    | false =>
      rw [List.filter_cons_of_neg (by rw [ha]; decide), ih, List.map_cons, List.sum_cons, hp a ha, Nat.zero_add]

theorem countDiskTable_eq {dir : Fin 1024 → Option DiskTable} (hdir : s.pgdir e = some dir) (i : Fin 1024) (c : Nat)
    (hc : c + 1024 < 4294967296) : countDiskTable dir c i = c + ∑ j, s.present e i j := by
  have htable : s.table e i = dir i := by rw [table, hdir, Option.bind_some]
  unfold countDiskTable
  cases ht : dir i with
  | none =>
    have hzero : ∀ j, s.present e i j = 0 := by
      intro j
      rw [present, hold, htable, ht]
      rfl
    rw [Finset.sum_eq_zero fun j _ => hzero j]
    rfl
  | some t =>
    have hhold : ∀ j, s.present e i j = if t j ≠ 0 then 1 else 0 := by
      intro j
      rw [present, hold_eq (htable.trans ht)]
      by_cases hz : t j = 0
      · rw [if_pos hz, if_neg (not_not_intro rfl), if_neg (not_not_intro hz)]
      · rw [if_neg hz, if_pos (Option.some_ne_none _), if_pos hz]
    have hbody : ∀ c j, c + 1 < 4294967296 → countDiskEntry t c j = c + s.present e i j := by
      intro c j hc
      rw [countDiskEntry, hhold, u32_of_lt hc]
      split <;> rfl
    dsimp only
    rw [foldl_count (present_le s e i) hbody _ _ (by rw [List.length_finRange]; omega), Fin.sum_univ_def]

/-- The pages of an environment are counted, because its tables are below `USER_TOP`. -/
theorem Inv.pfCalculateAllocatedPages_eq (hi : Inv s) {dir : Fin 1024 → Option DiskTable} (hdir : s.pgdir e = some dir) :
    s.pfCalculateAllocatedPages e = some (∑ i, ∑ j, s.present e i j) := by
  have hrow : ∀ i, ∑ j, s.present e i j ≤ 1024 := by
    intro i
    have := sum_le_of_forall (present_le s e i) (List.finRange 1024)
    rwa [← Fin.sum_univ_def, List.length_finRange] at this
  have habove : ∀ i : Fin 1024, decide (i < pdx userTop) = false → ∑ j, s.present e i j = 0 := by
    intro i hi'
    have hnone := hi.below e i (not_lt.mp (of_decide_eq_false hi'))
    refine Finset.sum_eq_zero fun j _ => ?_
    rw [present, hold, hnone]
    rfl
  have hlen : ((List.finRange 1024).filter (· < pdx userTop)).length ≤ 1024 :=
    (List.length_filter_le ..).trans (by rw [List.length_finRange])
  unfold pfCalculateAllocatedPages
  rw [hdir, Option.map_some, foldl_count hrow (fun c i hc => countDiskTable_eq hdir i c hc) _ _ (by omega), Nat.zero_add,
    sum_filter_of_zero habove, ← Fin.sum_univ_def]

theorem Inv.pfCalculateFreeFrames_eq (hi : Inv s) :
    s.pfCalculateFreeFrames + (mapKeys s.contents).ncard = pagesPerFile - 1 := by
  obtain ⟨F, hF, hcount⟩ := hi.free_length
  have hsize : (s.diskFreeFrameList.head ()).size.toNat = F.length := by
    rw [hF.size (), UInt32.toNat_ofNat', Nat.mod_eq_of_lt]
    rw [pagesPerFile] at hcount
    omega
  rw [pfCalculateFreeFrames, hsize, hcount]

/-- An environment without a directory has no pages. -/
theorem present_of_none (hdir : s.pgdir e = none) : ∑ i, ∑ j, s.present e i j = 0 := by
  refine Finset.sum_eq_zero fun i _ => Finset.sum_eq_zero fun j _ => ?_
  rw [present, hold, table, hdir]
  rfl

theorem Inv.getD_eq (hi : Inv s) (e : E) : (s.pfCalculateAllocatedPages e).getD 0 = ∑ i, ∑ j, s.present e i j := by
  cases hdir : s.pgdir e with
  | none =>
    rw [present_of_none hdir, pfCalculateAllocatedPages, hdir]
    rfl
  | some dir => rw [hi.pfCalculateAllocatedPages_eq hdir, Option.getD_some]

/-! ### What is counted -/

variable [DecidableEq E]

theorem sum_present_eq (s : PageFile E) (e : E) : ∑ i, ∑ j, s.present e i j = {x | x.1 = e ∧ s.contents x ≠ none}.ncard := by
  have hset : {x | x.1 = e ∧ s.contents x ≠ none} =
      ↑((Finset.univ.filter fun y : Fin 1024 × Fin 1024 => s.hold (e, y) ≠ none).image fun y => (e, y)) := by
    ext ⟨d, y⟩
    simp only [Set.mem_ofPred_eq, ne_eq, contents_eq_none, Finset.coe_image, Finset.coe_filter, Finset.mem_univ, true_and,
      Set.mem_image, Prod.mk.injEq]
    constructor
    · rintro ⟨rfl, h⟩
      exact ⟨y, h, rfl, rfl⟩
    · rintro ⟨z, h, rfl, rfl⟩
      exact ⟨rfl, h⟩
  rw [hset, Set.ncard_coe_finset, Finset.card_image_of_injective _ fun y z h => (Prod.mk.inj h).2, Finset.card_filter,
    Fintype.sum_prod_type]
  rfl

omit [DecidableEq E] in
theorem sum_present_all [Fintype E] (s : PageFile E) : ∑ e, ∑ i, ∑ j, s.present e i j = (mapKeys s.contents).ncard := by
  have hset : mapKeys s.contents = ↑(Finset.univ.filter fun x => s.hold x ≠ none) := by
    rw [mapKeys_contents, Finset.coe_filter]
    simp only [Finset.mem_univ, true_and]
  rw [hset, Set.ncard_coe_finset, Finset.card_filter, Fintype.sum_prod_type]
  refine Finset.sum_congr rfl fun e _ => ?_
  rw [Fintype.sum_prod_type]
  rfl

/-- In every run of the page file from the boot, `pf_calculate_allocated_pages` is the number of the pages that an environment
    with a directory has in the page file, and these numbers and that of `pf_calculate_free_frames` always add up to
    `PAGES_PER_FILE - 1`. -/
theorem pageFile_accounting [Fintype E] {s₀ : PageFile E} (h₀ : ∀ e, s₀.pgdir e = none)
    (hr : Reach PageFile.step (fun _ ev => Allowed ev) s₀.initializeDiskPageFile s) :
    (∀ e, (s.pgdir e).isSome → s.pfCalculateAllocatedPages e = some {x | x.1 = e ∧ s.contents x ≠ none}.ncard) ∧
      ∑ e, (s.pfCalculateAllocatedPages e).getD 0 + s.pfCalculateFreeFrames = pagesPerFile - 1 := by
  have hi := inv_of_reach h₀ hr
  refine ⟨fun e hdir => ?_, ?_⟩
  · obtain ⟨dir, hdir⟩ := Option.isSome_iff_exists.mp hdir
    rw [hi.pfCalculateAllocatedPages_eq hdir, sum_present_eq]
  · rw [Finset.sum_congr rfl fun e _ => hi.getD_eq e, sum_present_all, Nat.add_comm]
    exact hi.pfCalculateFreeFrames_eq

/-- One page of one of two environments. -/
theorem pageFile_accounting_two : ∃ s : PageFile Bool,
    ({} : PageFile Bool).initializeDiskPageFile.step (.add true 8388608 fun _ => 1) = some s ∧
      (∀ e, (s.pgdir e).isSome → s.pfCalculateAllocatedPages e = some {x | x.1 = e ∧ s.contents x ≠ none}.ncard) ∧
      ∑ e, (s.pfCalculateAllocatedPages e).getD 0 + s.pfCalculateFreeFrames = pagesPerFile - 1 := by
  have hva : 8388608 < userTop := by decide
  obtain ⟨⟨s₁, r⟩, hs₁⟩ := Option.isSome_iff_exists.mp
    (diskFrameOf_isSome ({} : PageFile Bool).initializeDiskPageFile true (show 8388608 < kernelBase by decide))
  obtain ⟨s₂, hs₂⟩ : ∃ s₂, ({} : PageFile Bool).initializeDiskPageFile.step (.add true 8388608 fun _ => 1) = some s₂ := by
    simp only [step, call, pfAddEnvPage, hs₁, Option.map_some]
    exact ⟨_, rfl⟩
  exact ⟨s₂, hs₂, pageFile_accounting (fun _ => rfl) (.step (.add true 8388608 fun _ => 1) .init hva hs₂)⟩

end Fos.Disk.PageFile
