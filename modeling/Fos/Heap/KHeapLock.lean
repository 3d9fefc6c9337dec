import Fos.Mem.Walk
import Fos.Heap.KHeapFail

/-! `kheap_lock` in the functions that take it. Each releases it before every `return` that it has; `kfree` also ends
    behind its last test. -/

namespace Fos.Heap
open Lib Mem

variable {C : Type} [DecidableEq C]

/-- The addresses between the block region and the page region -/
def KHeap.InGap (s : KHeap) (va : Nat) : Prop :=
  u32 (kernelHeapStart + dynAllocMaxSize) ≤ va ∧ va < s.kheapPageAllocStart ∧ va < kernelHeapMax

/-- A call of the kernel heap. -/
inductive KHeapCall where
  | kmalloc (size : Nat)
  | kfree (va : Nat)
  | kheapVirtualAddress (pa : Nat)
  | kheapPhysicalAddress (va : Nat)
  deriving DecidableEq, Repr

namespace LockedHeap

/-- `kfree(virtual_address)` on the CPU `cpu` -/
def kfree (s : LockedHeap C) (cpu : C) (va : Nat) : Option (LockedHeap C) :=
  (s.acquire cpu).bind fun s =>
  if va = 0 then s.release cpu
  else if va < kernelHeapStart ∨ kernelHeapMax ≤ va then none
  else if kernelHeapStart ≤ va ∧ va < u32 (kernelHeapStart + dynAllocMaxSize) then
    (s.heap.freeBlock va).bind fun heap => { s with heap := heap }.release cpu
  else if s.heap.kheapPageAllocStart ≤ va ∧ va < kernelHeapMax then
    (s.heap.freeRegion va).bind fun heap => { s with heap := heap }.release cpu
  else some s

/-- `kheap_virtual_address(physical_address)` on the CPU `cpu` -/
def kheapVirtualAddress (s : LockedHeap C) (cpu : C) (pa : Nat) : Option (LockedHeap C × Nat) :=
  (s.acquire cpu).bind fun s =>
  if (pageNo pa).val < s.heap.mem.numberOfFrames then
    let vaBase := s.heap.mem.va (pageNo pa)
    if vaBase = 0 then (s.release cpu).map (·, 0)
    else if s.heap.inRegion vaBase then (s.release cpu).map (·, u32 (vaBase + pa % pageSize))
    else (s.release cpu).map (·, 0)
  else none

/-- `kheap_physical_address(virtual_address)` on the CPU `cpu`; `hasTable` says which tables `get_page_table` finds. -/
def kheapPhysicalAddress (hasTable : Nat → Bool) (s : LockedHeap C) (cpu : C) (va : Nat) : Option (LockedHeap C × Nat) :=
  (s.acquire cpu).bind fun s =>
  if s.heap.inRegion va then
    if hasTable va then
      let entry := s.heap.mem.pte (.kernel (pageNo va))
      if entry.present then (s.release cpu).map (·, entry.frame.val * pageSize + va % pageSize)
      else (s.release cpu).map (·, 0)
    else (s.release cpu).map (·, 0)
  else (s.release cpu).map (·, 0)

/-- The state in which a call returns. -/
def call (hasTable : Nat → Bool) (s : LockedHeap C) (cpu : C) : KHeapCall → Option (LockedHeap C)
  | .kmalloc size => (s.kmalloc cpu size).map (·.1)
  | .kfree va => s.kfree cpu va
  | .kheapVirtualAddress pa => (s.kheapVirtualAddress cpu pa).map (·.1)
  | .kheapPhysicalAddress va => (s.kheapPhysicalAddress hasTable cpu va).map (·.1)

variable {hasTable : Nat → Bool} {s t : LockedHeap C} {cpu : C} {va pa ret size : Nat} {c : KHeapCall}

theorem release_unlocks (hs : s.release cpu = some t) : t.kheapLock = none := by
  obtain ⟨-, heq⟩ := Option.ite_none_right_eq_some.mp hs
  cases heq
  rfl

theorem map_release_unlocks {r : LockedHeap C × Nat} (hs : (s.release cpu).map (·, ret) = some r) : r.1.kheapLock = none := by
  obtain ⟨u, hu, rfl⟩ := Option.map_eq_some_iff.mp hs
  exact release_unlocks hu

omit [DecidableEq C] in
theorem acquire_eq (hs : s.acquire cpu = some t) : s.kheapLock = none ∧ t = { s with kheapLock := some cpu } := by
  obtain ⟨hfree, heq⟩ := Option.ite_none_right_eq_some.mp hs
  exact ⟨hfree, (Option.some.inj heq).symm⟩

omit [DecidableEq C] in
theorem acquire_free (hfree : s.kheapLock = none) : s.acquire cpu = some { s with kheapLock := some cpu } := if_pos hfree

/-- The call returns behind the last test. -/
theorem kfree_gap (hfree : s.kheapLock = none) (hgap : s.heap.InGap va) :
    s.kfree cpu va = some { s with kheapLock := some cpu } := by
  obtain ⟨hstart, hpage, hmax⟩ := hgap
  have hblocks : u32 (kernelHeapStart + dynAllocMaxSize) = 4160749568 := by decide
  rw [hblocks] at hstart
  simp only [kernelHeapMax] at hmax
  unfold kfree
  rw [acquire_free hfree, Option.bind_some, hblocks, if_neg (by omega), if_neg (by simp only [kernelHeapStart, kernelHeapMax]; omega),
    if_neg (by omega)]
  exact if_neg (by dsimp only; omega)

theorem kfree_unlocks (hgap : ¬ s.heap.InGap va) (hs : s.kfree cpu va = some t) : t.kheapLock = none := by
  obtain ⟨u, hacq, hs⟩ := Option.bind_eq_some_iff.mp hs
  obtain ⟨-, rfl⟩ := acquire_eq hacq
  split at hs
  case isTrue => exact release_unlocks hs
  case isFalse =>
    split at hs
    case isTrue => exact nomatch hs
    case isFalse hbounds =>
      split at hs
      case isTrue =>
        obtain ⟨heap, -, hs⟩ := Option.bind_eq_some_iff.mp hs
        exact release_unlocks hs
      case isFalse hblock =>
        split at hs
        case isTrue =>
          obtain ⟨heap, -, hs⟩ := Option.bind_eq_some_iff.mp hs
          exact release_unlocks hs
        case isFalse hpage =>
          refine absurd ?_ hgap
          dsimp only at hpage
          unfold KHeap.InGap
          omega

theorem kheapVirtualAddress_unlocks {r : LockedHeap C × Nat} (hs : s.kheapVirtualAddress cpu pa = some r) :
    r.1.kheapLock = none := by
  obtain ⟨u, -, hs⟩ := Option.bind_eq_some_iff.mp hs
  obtain ⟨-, hs⟩ := Option.ite_none_right_eq_some.mp hs
  dsimp only at hs
  split at hs
  case isTrue => exact map_release_unlocks hs
  case isFalse =>
    split at hs
    case isTrue => exact map_release_unlocks hs
    case isFalse => exact map_release_unlocks hs

theorem kheapPhysicalAddress_unlocks {r : LockedHeap C × Nat} (hs : s.kheapPhysicalAddress hasTable cpu va = some r) :
    r.1.kheapLock = none := by
  obtain ⟨u, -, hs⟩ := Option.bind_eq_some_iff.mp hs
  split at hs
  case isFalse => exact map_release_unlocks hs
  case isTrue =>
    split at hs
    case isFalse => exact map_release_unlocks hs
    case isTrue =>
      dsimp only at hs
      split at hs
      case isTrue => exact map_release_unlocks hs
      case isFalse => exact map_release_unlocks hs

/-- In every state in which `kheap_lock` is free, a call that returns leaves it free if and only if it is not `kfree` of an
    address between the two regions. -/
theorem kheap_lock_released_iff (hfree : s.kheapLock = none) (hasTable : Nat → Bool) (cpu : C) (c : KHeapCall) :
    (∀ t, s.call hasTable cpu c = some t → t.kheapLock = none) ↔ ∀ va, c = .kfree va → ¬ s.heap.InGap va := by
  constructor
  · rintro hreleases va rfl hgap
    exact nomatch hreleases _ (kfree_gap hfree hgap)
  · intro hgap t ht
    cases c with
    | kmalloc size =>
      obtain ⟨r, hr, rfl⟩ := Option.map_eq_some_iff.mp ht
      exact (kmalloc_eq hr).2.2
    | kfree va => exact kfree_unlocks (hgap va rfl) ht
    | kheapVirtualAddress pa =>
      obtain ⟨r, hr, rfl⟩ := Option.map_eq_some_iff.mp ht
      exact kheapVirtualAddress_unlocks hr
    | kheapPhysicalAddress va =>
      obtain ⟨r, hr, rfl⟩ := Option.map_eq_some_iff.mp ht
      exact kheapPhysicalAddress_unlocks hr

/-- A block that was allocated after the boot is freed. -/
theorem kheap_lock_released_block : ∃ (s₀ : KClient) (s t : LockedHeap Unit), KClient.afterBoot 1024 768 = some s₀ ∧
    (⟨s₀.heap, none⟩ : LockedHeap Unit).kmalloc () 16 = some (s, 4127195136) ∧ s.kfree () 4127195136 = some t ∧
    ((∀ t, s.call (fun _ => true) () (.kfree 4127195136) = some t → t.kheapLock = none) ↔
      ∀ va, KHeapCall.kfree 4127195136 = .kfree va → ¬ s.heap.InGap va) := by
  have hrun : ((KClient.afterBoot 1024 768).bind fun s₀ => ((⟨s₀.heap, none⟩ : LockedHeap Unit).kmalloc () 16).bind fun r =>
      (r.1.kfree () r.2).map fun _ => r.2) = some 4127195136 := by
    rw [KClient.afterBoot_eq]
    decide +kernel
  obtain ⟨s₀, hboot, hrun⟩ := Option.bind_eq_some_iff.mp hrun
  obtain ⟨⟨s, va⟩, hs, hrun⟩ := Option.bind_eq_some_iff.mp hrun
  obtain ⟨t, ht, rfl⟩ := Option.map_eq_some_iff.mp hrun
  exact ⟨s₀, s, t, hboot, hs, ht, kheap_lock_released_iff (kmalloc_eq hs).2.2 _ () _⟩

/-- After the boot `kfree` of the page between the regions returns, and the next `kmalloc` finds the lock held. -/
theorem kheap_lock_kept : ∃ s₀, KClient.afterBoot 1024 768 = some s₀ ∧ ∃ t : LockedHeap Unit,
    call (fun _ => true) ⟨s₀.heap, none⟩ () (.kfree 4160749568) = some t ∧ t.kheapLock = some () ∧ t.kmalloc () 16 = none := by
  have hboot := KClient.afterBoot_eq 1024 768
  refine ⟨_, hboot, _, kfree_gap rfl ?_, rfl, rfl⟩
  unfold KHeap.InGap
  decide +kernel

end LockedHeap

end Fos.Heap
