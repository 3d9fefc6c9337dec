import Fos.Heap.UHeapLimits
import Fos.Mem.UserMemInv

/-! `free` of an address that is not the start of an allocation. The library looks up the size by the page of the address, so
    every address of the first page of an allocation is taken for its start, and the kernel rounds the region to pages its
    own way. -/

namespace Fos.Heap.UHeap
open Lib Mem

variable {E : Type} [DecidableEq E]

/-- How a call of the library ends: it returns, or the kernel terminates the process. -/
inductive Ends (E : Type) where
  | returns (s : UHeap (UserMem E))
  | exits

/-- The heap after a call that returns. -/
def Ends.heap? : Ends E → Option (UHeap (UserMem E))
  | .returns s => some s
  | .exits => none

omit [DecidableEq E] in
theorem Ends.heap?_eq_some {y : Ends E} {s : UHeap (UserMem E)} : y.heap? = some s ↔ y = .returns s := by
  cases y with
  | returns t => simp [heap?]
  | exits => exact iff_of_false nofun nofun

/-- `sys_free_user_mem(virtual_address, size)` -/
def sysFreeUserMem (e : E) (s : UHeap (UserMem E)) (virtualAddress size : Nat) : Option (Ends E) :=
  if inUserRange virtualAddress size then
    (s.world.freeUserMem e virtualAddress size).map fun w => .returns { s with world := w }
  else some .exits

/-- `sys_allocate_user_mem(virtual_address, size)` -/
def sysAllocateUserMem (e : E) (s : UHeap (UserMem E)) (virtualAddress size : Nat) : Option (Ends E) :=
  if inUserRange virtualAddress size then
    (s.world.allocateUserMem e virtualAddress size).map fun w => .returns { s with world := w }
  else some .exits

/-- `free(virtual_address)` with its system call, which is reached when the page allocator knows a size. -/
def freeWithCall (ops : PageOps (UserMem E)) (e : E) (s : UHeap (UserMem E)) (va : Nat) : Option (Ends E) :=
  (s.free ops va).bind fun t =>
    let size := s.allocationSizes (sizeIndex va)
    if userHeapStart ≤ va ∧ va < userHeapMax ∧ s.uheapPageAllocStart ≤ va ∧ size ≠ 0 then t.sysFreeUserMem e va size
    else some (.returns t)

/-- `malloc(size)` with its system call, which is reached when the page allocator finds a region. -/
def mallocWithCall (ops : PageOps (UserMem E)) (e : E) (s : UHeap (UserMem E)) (size : Nat) : Option (Ends E × Nat) :=
  (s.malloc ops size).bind fun (t, va) =>
    if size ≤ dynAllocMaxBlockSize ∨ va = 0 then some (.returns t, va)
    else (t.sysAllocateUserMem e va (roundUp size pageSize)).map (·, va)

/-- The library keeps its sizes, its free regions and its break, and the process keeps its page table entries. -/
structure Untouched (e : E) (s t : UHeap (UserMem E)) : Prop where
  sizes : t.allocationSizes = s.allocationSizes
  bulks : t.bulks = s.bulks
  page_break : t.uheapPageAllocBreak = s.uheapPageAllocBreak
  pages : ∀ va, t.world.run.paging.page e va = s.world.run.paging.page e va

/-- `free(va)` returns and leaves everything as it was. -/
def NoOp (ops : PageOps (UserMem E)) (e : E) (s : UHeap (UserMem E)) (va : Nat) : Prop :=
  ∃ t, s.freeWithCall ops e va = some (.returns t) ∧ Untouched e s t

/-- The library has recorded an allocation that starts at `a`. -/
def Recorded {σ : Type} (s : UHeap σ) (a : Nat) : Prop :=
  userHeapStart ≤ a ∧ a < userHeapMax ∧ a % 4096 = 0 ∧ s.allocationSizes (sizeIndex a) ≠ 0

variable {ops : PageOps (UserMem E)} {e : E} {s t : UHeap (UserMem E)} {va : Nat}

/-- An address and its page share the element of `allocation_sizes`. -/
theorem sizeIndex_page (hlow : userHeapStart ≤ va) (hhigh : va < userHeapMax) : sizeIndex (va / 4096 * 4096) = sizeIndex va := by
  simp only [userHeapStart, userHeapMax] at hlow hhigh
  rw [sizeIndex_eq (by omega) (by omega), sizeIndex_eq (by omega) (by omega)]
  omega

omit [DecidableEq E] in
/-- The addresses whose size is not 0 are those of the first pages of the recorded allocations. -/
theorem size_ne_zero_iff (hlow : userHeapStart ≤ va) (hhigh : va < userHeapMax) :
    s.allocationSizes (sizeIndex va) ≠ 0 ↔ ∃ a, s.Recorded a ∧ a ≤ va ∧ va < a + 4096 := by
  have hmin : userHeapStart = 2147483648 := rfl
  constructor
  · intro hsize
    refine ⟨va / 4096 * 4096, ⟨by omega, by omega, by omega, ?_⟩, by omega, by omega⟩
    rwa [sizeIndex_page hlow hhigh]
  · rintro ⟨a, ⟨-, -, ha, hsize⟩, hle, hlt⟩
    obtain rfl : a = va / 4096 * 4096 := by omega
    rwa [sizeIndex_page hlow hhigh] at hsize

/-- `merge_bulks` only edits the free regions. -/
theorem mergeBulks_eq {σ : Type} {s t : UHeap σ} {size : Nat} (hs : s.mergeBulks va size = some t) :
    ∃ bulks idx, t = { s with bulks := bulks, freeNodesIndex := idx } := by
  obtain ⟨⟨before, after⟩, -, hs⟩ := Option.bind_eq_some_iff.mp hs
  cases before with
  | some b =>
    cases after <;> (obtain ⟨_, -, rfl⟩ := Option.map_eq_some_iff.mp hs; exact ⟨_, _, rfl⟩)
  | none =>
    cases after with
    | some a =>
      obtain ⟨_, -, rfl⟩ := Option.map_eq_some_iff.mp hs
      exact ⟨_, _, rfl⟩
    | none =>
      obtain ⟨-, hs⟩ := Option.ite_none_left_eq_some.mp hs
      obtain ⟨_, -, rfl⟩ := Option.map_eq_some_iff.mp hs
      exact ⟨_, _, rfl⟩

/-- `free` of an address with a size forgets the size. -/
theorem free_forgets {σ : Type} {ops : PageOps σ} {s t : UHeap σ} (hlow : userHeapStart ≤ va) (hhigh : va < userHeapMax)
    (hpage : s.uheapPageAllocStart ≤ va) (hsize : s.allocationSizes (sizeIndex va) ≠ 0) (hs : s.free ops va = some t) :
    t.allocationSizes (sizeIndex va) = 0 := by
  have hmin : userHeapStart = 2147483648 := rfl
  unfold UHeap.free at hs
  rw [if_neg (by omega), if_neg (by omega)] at hs
  dsimp only at hs
  rw [if_neg hsize] at hs
  obtain ⟨u, hu, rfl⟩ := Option.map_eq_some_iff.mp hs
  obtain ⟨bulks, idx, rfl⟩ := mergeBulks_eq hu
  exact Function.update_self ..

/-- A call that is not made for a recorded allocation does nothing. -/
theorem free_of_size_zero {σ : Type} {ops : PageOps σ} {s : UHeap σ} (hpage : s.uheapPageAllocStart ≤ va)
    (hsize : s.allocationSizes (sizeIndex va) = 0) : s.free ops va = some s := by
  unfold UHeap.free
  split
  case isTrue => rfl
  case isFalse =>
    rw [if_neg (by omega)]
    exact if_pos hsize

theorem sysFreeUserMem_sizes {size : Nat} (hs : t.sysFreeUserMem e va size = some (.returns s)) :
    s.allocationSizes = t.allocationSizes := by
  unfold sysFreeUserMem at hs
  split at hs
  case isTrue =>
    obtain ⟨w, -, heq⟩ := Option.map_eq_some_iff.mp hs
    cases heq
    rfl
  case isFalse => exact nomatch hs

theorem NoOp.size_zero (h : NoOp ops e s va) (hlow : userHeapStart ≤ va) (hhigh : va < userHeapMax)
    (hpage : s.uheapPageAllocStart ≤ va) : s.allocationSizes (sizeIndex va) = 0 := by
  obtain ⟨t, ht, hsame⟩ := h
  obtain ⟨u, hu, ht⟩ := Option.bind_eq_some_iff.mp ht
  by_contra hsize
  dsimp only at ht
  rw [if_pos ⟨hlow, hhigh, hpage, hsize⟩] at ht
  have hforgot := free_forgets hlow hhigh hpage hsize hu
  rw [← sysFreeUserMem_sizes ht, hsame.sizes] at hforgot
  exact hsize hforgot

/-- In every state, and for every address of the page allocator's part of the heap, `free` is a no-op exactly when the address
    is not in the first page of a recorded allocation. -/
theorem stray_free_iff (ops : PageOps (UserMem E)) (e : E) (s : UHeap (UserMem E)) {va : Nat}
    (hpage : s.uheapPageAllocStart ≤ va) (hhigh : va < userHeapMax) :
    NoOp ops e s va ↔ ∀ a, s.Recorded a → ¬(a ≤ va ∧ va < a + 4096) := by
  have hnothing : s.freeWithCall ops e va = some (.returns s) → NoOp ops e s va := fun hs =>
    ⟨s, hs, rfl, rfl, rfl, fun _ => rfl⟩
  by_cases hlow : userHeapStart ≤ va
  · have hsize : s.allocationSizes (sizeIndex va) = 0 ↔ ∀ a, s.Recorded a → ¬(a ≤ va ∧ va < a + 4096) := by
      rw [← not_iff_not, ← ne_eq, size_ne_zero_iff hlow hhigh]
      simp only [not_forall, not_not, exists_prop]
    rw [← hsize]
    refine ⟨fun h => h.size_zero hlow hhigh hpage, fun hzero => hnothing ?_⟩
    unfold freeWithCall
    rw [free_of_size_zero hpage hzero, Option.bind_some]
    exact if_neg fun h => h.2.2.2 hzero
  · refine iff_of_true (hnothing ?_) ?_
    · unfold freeWithCall UHeap.free
      rw [if_pos (.inr (.inl (Nat.not_le.mp hlow))), Option.bind_some]
      exact if_neg fun h => hlow h.1
    · rintro a ⟨ha, -⟩ ⟨hle, -⟩
      exact hlow (ha.trans hle)

/-- The block allocator's pages are always there. -/
def residentBlocks : PageOps (UserMem Unit) := ⟨fun w m _ => some (w, m), fun w m _ => some (w, m)⟩

/-- An address in the second page of an allocation is not taken for its start. -/
theorem stray_free_second_page : ∃ (r₀ : PagingRun Unit) (s : UHeap (UserMem Unit)), PagingRun.afterBoot Unit 1024 768 = some r₀ ∧
    mallocWithCall residentBlocks () (UProcess.initialHeap { run := r₀, disk := {} }) 8192 = some (.returns s, 2181042176) ∧
      NoOp residentBlocks () s 2181046273 := by
  have hrun : ((PagingRun.afterBoot Unit 1024 768).bind fun r₀ =>
      (mallocWithCall residentBlocks () (UProcess.initialHeap { run := r₀, disk := {} }) 8192).bind fun x =>
        x.1.heap?.map fun s => (x.2, s.uheapPageAllocStart, s.allocationSizes 8194)) = some (2181042176, 2181042176, 0) := by
    rw [PagingRun.afterBoot_eq]
    decide +kernel
  obtain ⟨r₀, hboot, hrun⟩ := Option.bind_eq_some_iff.mp hrun
  obtain ⟨⟨y, va⟩, hs, hrun⟩ := Option.bind_eq_some_iff.mp hrun
  obtain ⟨s, hy, hresult⟩ := Option.map_eq_some_iff.mp hrun
  simp only [Prod.mk.injEq] at hresult
  obtain ⟨rfl, hstart, hsize⟩ := hresult
  cases Ends.heap?_eq_some.mp hy
  refine ⟨r₀, s, hboot, hs, (stray_free_iff residentBlocks () s (by omega) (by decide)).mpr fun a ha hin => ?_⟩
  exact (size_ne_zero_iff (by decide) (by decide)).mpr ⟨a, ha, hin⟩ hsize

/-- The second byte of an allocation is freed: the library takes it for the start, its free region is not one of pages, and the
    kernel takes the mark from the next allocation's page too. -/
theorem stray_free_second_byte : ∃ (r₀ : PagingRun Unit) (s₁ s t : UHeap (UserMem Unit)), PagingRun.afterBoot Unit 1024 768 = some r₀ ∧
    mallocWithCall residentBlocks () (UProcess.initialHeap { run := r₀, disk := {} }) 4096 = some (.returns s₁, 2181042176) ∧
    s₁.mallocWithCall residentBlocks () 4096 = some (.returns s, 2181046272) ∧
    s.freeWithCall residentBlocks () 2181042177 = some (.returns t) ∧ t.allocationSizes (sizeIndex 2181042176) = 0 ∧
    t.bulks.regions [0] = [⟨2181042177, 4096⟩] ∧ (s.world.run.paging.page () 2181046272).perm = permUhpage ∧
    (t.world.run.paging.page () 2181046272).perm = 0 ∧ ¬ NoOp residentBlocks () s 2181042177 := by
  have hrun : ((PagingRun.afterBoot Unit 1024 768).bind fun r₀ =>
      (mallocWithCall residentBlocks () (UProcess.initialHeap { run := r₀, disk := {} }) 4096).bind fun x₁ =>
        x₁.1.heap?.bind fun s₁ => (s₁.mallocWithCall residentBlocks () 4096).bind fun x₂ => x₂.1.heap?.bind fun s =>
          (s.freeWithCall residentBlocks () 2181042177).bind fun y => y.heap?.map fun t =>
            ((x₁.2, x₂.2, s.uheapPageAllocStart), (s.allocationSizes 8193, t.allocationSizes 8193), t.bulks.regions [0],
              ((s.world.run.paging.page () 2181046272).perm, (t.world.run.paging.page () 2181046272).perm))) =
      some ((2181042176, 2181046272, 2181042176), (4096, 0), [⟨2181042177, 4096⟩], (permUhpage, 0)) := by
    rw [PagingRun.afterBoot_eq]
    decide +kernel
  obtain ⟨r₀, hboot, hrun⟩ := Option.bind_eq_some_iff.mp hrun
  obtain ⟨⟨y₁, va₁⟩, hs₁, hrun⟩ := Option.bind_eq_some_iff.mp hrun
  obtain ⟨s₁, hy₁, hrun⟩ := Option.bind_eq_some_iff.mp hrun
  obtain ⟨⟨y₂, va₂⟩, hs, hrun⟩ := Option.bind_eq_some_iff.mp hrun
  obtain ⟨s, hy₂, hrun⟩ := Option.bind_eq_some_iff.mp hrun
  obtain ⟨y, ht, hrun⟩ := Option.bind_eq_some_iff.mp hrun
  obtain ⟨t, hy, hresult⟩ := Option.map_eq_some_iff.mp hrun
  simp only [Prod.mk.injEq] at hresult
  obtain ⟨⟨rfl, rfl, hstart⟩, ⟨hbefore, hafter⟩, hregion, hmarked, hunmarked⟩ := hresult
  cases Ends.heap?_eq_some.mp hy₁
  cases Ends.heap?_eq_some.mp hy₂
  cases Ends.heap?_eq_some.mp hy
  refine ⟨r₀, s₁, s, t, hboot, hs₁, hs, ht, hafter, hregion, hmarked, hunmarked, fun h => ?_⟩
  have hzero := h.size_zero (by decide) (by decide) (by omega)
  exact absurd (hbefore.symm.trans hzero) (by decide)

end Fos.Heap.UHeap
