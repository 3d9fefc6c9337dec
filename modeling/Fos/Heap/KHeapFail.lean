import Fos.Heap.KHeapRun

/-! A `kmalloc` that returns null. The allocation is written out here with `kheap_lock`, with the codes that
    `allocate_frame` and `map_frame` return and with the exits that test them: two of these exits come after a region
    has left the free list and frames have been mapped, but no code ever is `E_NO_MEM`. -/

namespace Fos.Heap
open Lib Mem

def eNoMem : Int := -4

/-- `allocate_frame(&fi)`, which panics or returns 0. -/
def allocateFrameRet (m : Frames) : Option (Int × Frames × PageNo) := m.allocateFrame.map fun (m, f) => (0, m, f)

/-- `map_frame(ptr_page_directory, fi, va, PERM_WRITEABLE)` -/
def mapFrameRet (m : Frames) (f : PageNo) (va : Nat) : Option (Int × Frames) :=
  (m.mapFrame (.kernel (pageNo va)) f va permWriteable).map (0, ·)

/-- `map_frame_range`, from the page `va` to `stop` -/
def mapFrameRangeRet (m : Frames) (va stop : Nat) : Nat → Option (Int × Frames)
  | 0 => none
  | fuel + 1 =>
    if va < stop then
      (allocateFrameRet m).bind fun (ret, m, f) =>
      if ret ≠ eNoMem then
        (mapFrameRet m f va).bind fun (ret, m) =>
        if ret = eNoMem then some (eNoMem, m.freeFrame f)
        else mapFrameRangeRet m (u32 (va + pageSize)) stop fuel
      else some (eNoMem, m)
    else some (0, m)

namespace KHeap

/-- The end of a branch of `page_alloc_custom_fit`, and whether it did not give up. -/
def allocRegionRet (s : KHeap) (va size : Nat) : Option (KHeap × Bool) :=
  (mapFrameRangeRet s.mem va (u32 (va + size)) walkFuel).bind fun (ret, m) =>
  if ret = eNoMem then some ({ s with mem := m }, false)
  else
    (allocBlock { s with mem := m } sizeofBulk).map fun (s, node) =>
      ({ s with bulks := s.bulks.pushAllocated node va size }, true)

/-- The last part of `page_alloc_custom_fit`, which raises the break. -/
def extendBreakRet (s : KHeap) (neededBytes : Nat) : Option (KHeap × Nat) :=
  if s.kheapPageAllocBreak < s.kheapPageAllocStart then some (s, 0)
  else if neededBytes > sub32 kernelHeapMax s.kheapPageAllocBreak then some (s, 0)
  else if u32 (s.kheapPageAllocBreak + neededBytes) > kernelHeapMax then some (s, 0)
  else
    let va := s.kheapPageAllocBreak
    (s.allocRegionRet va neededBytes).map fun
    | (s, true) => ({ s with kheapPageAllocBreak := u32 (s.kheapPageAllocBreak + neededBytes) }, va)
    | (s, false) => (s, 0)

/-- `page_alloc_custom_fit(needed_bytes)` -/
def pageAllocCustomFitRet (s : KHeap) (neededBytes : Nat) : Option (KHeap × Nat) :=
  (s.exactFit neededBytes).bind fun
  | some b =>
    let va := s.bulks.start b
    ({ s with bulks := s.bulks.removeBulk b }.allocRegionRet va neededBytes).map fun
    | (s, true) => (s, va)
    | (s, false) => (s, 0)
  | none =>
    match s.bulks.first .free with
    | some bb =>
      if s.bulks.size bb > neededBytes then
        let va := s.bulks.start bb
        (s.bulks.takeFront bb neededBytes).bind fun bulks =>
          ({ s with bulks := bulks }.allocRegionRet va neededBytes).map fun
          | (s, true) => (s, va)
          | (s, false) => (s, 0)
      else s.extendBreakRet neededBytes
    | none => s.extendBreakRet neededBytes

end KHeap

variable {C : Type} [DecidableEq C]

/-- The kernel heap and `kheap_lock`: the CPU that holds it. -/
structure LockedHeap (C : Type) where
  heap : KHeap
  kheapLock : Option C := none

namespace LockedHeap

/-- `acquire_kspinlock(&kheap_lock)`, possible only when the lock is free. -/
def acquire (s : LockedHeap C) (cpu : C) : Option (LockedHeap C) :=
  if s.kheapLock = none then some { s with kheapLock := some cpu } else none

/-- `release_kspinlock(&kheap_lock)` -/
def release (s : LockedHeap C) (cpu : C) : Option (LockedHeap C) :=
  if s.kheapLock = some cpu then some { s with kheapLock := none } else none

/-- `kmalloc(size)` on the CPU `cpu` -/
def kmalloc (s : LockedHeap C) (cpu : C) (size : Nat) : Option (LockedHeap C × Nat) :=
  (s.acquire cpu).bind fun s =>
  if size = 0 then (s.release cpu).map (·, 0)
  else
    (if size ≤ dynAllocMaxBlockSize then s.heap.allocBlock size
      else s.heap.pageAllocCustomFitRet (roundUp size pageSize)).bind fun (heap, ptr) =>
    ({ s with heap := heap }.release cpu).map (·, ptr)

end LockedHeap

/-! ### The exits that are never taken -/

theorem mapFrameRangeRet_eq (m : Frames) (va stop fuel : Nat) :
    mapFrameRangeRet m va stop fuel = (mapFrameRange m va stop fuel).map (0, ·) := by
  induction fuel generalizing m va with
  | zero => rfl
  | succ fuel ih =>
    unfold mapFrameRangeRet mapFrameRange
    split
    case isTrue =>
      unfold allocateFrameRet mapFrameRet Frames.mapNewFrame
      cases m.allocateFrame with
      | none => rfl
      | some r =>
        obtain ⟨m₁, f⟩ := r
        simp only [Option.map_some, Option.bind_some, eNoMem]
        cases m₁.mapFrame (.kernel (pageNo va)) f va permWriteable with
        | none => rfl
        | some m₂ => exact ih m₂ (u32 (va + pageSize))
    case isFalse => rfl

namespace KHeap

theorem allocRegionRet_eq (s : KHeap) (va size : Nat) : s.allocRegionRet va size = (s.allocRegion va size).map (·, true) := by
  unfold allocRegionRet allocRegion
  rw [mapFrameRangeRet_eq]
  cases mapFrameRange s.mem va (u32 (va + size)) walkFuel with
  | none => rfl
  | some m =>
    simp only [Option.map_some, Option.bind_some, eNoMem, Option.map_map]
    rfl

theorem extendBreakRet_eq (s : KHeap) (n : Nat) : s.extendBreakRet n = s.extendBreak n := by
  unfold extendBreakRet extendBreak
  simp only [allocRegionRet_eq, Option.map_map]
  rfl

theorem pageAllocCustomFitRet_eq (s : KHeap) (n : Nat) : s.pageAllocCustomFitRet n = s.pageAllocCustomFit n := by
  unfold pageAllocCustomFitRet pageAllocCustomFit
  simp only [allocRegionRet_eq, extendBreakRet_eq, Option.map_map]
  rfl

end KHeap

/-- A call that holds the lock returns what `kmalloc` returns, and the lock is free again. -/
theorem LockedHeap.kmalloc_eq {s t : LockedHeap C} {cpu : C} {size ptr : Nat} (hs : s.kmalloc cpu size = some (t, ptr)) :
    s.kheapLock = none ∧ s.heap.kmalloc size = some (t.heap, ptr) ∧ t.kheapLock = none := by
  obtain ⟨s₁, hacq, hs⟩ := Option.bind_eq_some_iff.mp hs
  obtain ⟨hfree, heq⟩ := Option.ite_none_right_eq_some.mp hacq
  cases heq
  refine ⟨hfree, ?_⟩
  unfold KHeap.kmalloc
  split at hs
  case isTrue hzero =>
    obtain ⟨u, hrel, heq⟩ := Option.map_eq_some_iff.mp hs
    obtain ⟨-, hu⟩ := Option.ite_none_right_eq_some.mp hrel
    cases hu
    cases heq
    rw [if_pos hzero]
    exact ⟨rfl, rfl⟩
  case isFalse hne =>
    obtain ⟨⟨h, p⟩, hcall, hs⟩ := Option.bind_eq_some_iff.mp hs
    obtain ⟨u, hrel, heq⟩ := Option.map_eq_some_iff.mp hs
    obtain ⟨-, hu⟩ := Option.ite_none_right_eq_some.mp hrel
    cases hu
    cases heq
    rw [if_neg hne, ← KHeap.pageAllocCustomFitRet_eq]
    exact ⟨hcall, rfl⟩

/-! ### The exits that are left -/

namespace KHeap

variable {all F handed : List PageNo} {boot : PageNo → Nat} {s s' : KHeap} {L : BulkList → List Nat} {client lost : List Nat}
  {n size : Nat}

theorem Inv.extendBreak_null (hi : Inv all boot handed F s L client lost) (hs : s.extendBreak n = some (s', 0)) : s' = s := by
  have hge := hi.break_ge
  unfold extendBreak at hs
  split at hs
  · cases hs
    rfl
  · split at hs
    · cases hs
      rfl
    · split at hs
      · cases hs
        rfl
      · obtain ⟨s₁, -, heq⟩ := Option.map_eq_some_iff.mp hs
        simp only [Prod.mk.injEq] at heq
        omega

/-- The page allocator returns null only from the tests of the break, before it has changed anything. -/
theorem Inv.pageAllocCustomFit_null (hi : Inv all boot handed F s L client lost)
    (hs : s.pageAllocCustomFit n = some (s', 0)) : s' = s := by
  have hstart : ∀ b ∈ L .free, s.bulks.start b ≠ 0 := fun b hb => by
    have := (hi.bounds_free hb).2.1
    omega
  unfold KHeap.pageAllocCustomFit at hs
  rcases hi.exactFit_cases n with ⟨b, hb, -, hfit⟩ | ⟨-, hfit⟩
  · rw [hfit, Option.bind_some] at hs
    obtain ⟨s₁, -, heq⟩ := Option.map_eq_some_iff.mp hs
    exact absurd (congrArg Prod.snd heq) (hstart b hb)
  · rw [hfit, Option.bind_some] at hs
    cases hfirst : s.bulks.first .free with
    | none =>
      simp only [hfirst] at hs
      exact hi.extendBreak_null hs
    | some bb =>
      simp only [hfirst] at hs
      split at hs
      case isTrue =>
        obtain ⟨t, -, hs⟩ := Option.bind_eq_some_iff.mp hs
        obtain ⟨s₁, -, heq⟩ := Option.map_eq_some_iff.mp hs
        exact absurd (congrArg Prod.snd heq) (hstart bb (hi.spells.mem_of_first hfirst))
      case isFalse => exact hi.extendBreak_null hs

theorem Inv.kmalloc_null (hi : Inv all boot handed F s L client lost) (hs : s.kmalloc size = some (s', 0)) : s' = s := by
  unfold KHeap.kmalloc at hs
  split at hs
  case isTrue =>
    cases hs
    rfl
  case isFalse hne =>
    split at hs
    case isTrue =>
      obtain ⟨m, d, -, -, hblocks, -⟩ := hi.blocks.allocBlock hi.accounts (Nat.pos_of_ne_zero hne) hs
      have hbounds := (hblocks.bounds (List.mem_cons_self ..)).1
      simp only [kernelHeapStart] at hbounds
      omega
    case isFalse => exact hi.pageAllocCustomFit_null hs

end KHeap

namespace KClient

variable {n k size : Nat} {s₀ s : KClient} {cpu : C} {t : LockedHeap C}

/-- In every state that a run of `kmalloc` and `kfree` from the boot reaches, a call of `kmalloc` that returns null, for
    any size, leaves the whole heap as it is and releases `kheap_lock`. -/
theorem failed_kmalloc_no_effect (hmin : 160 ≤ n) (hn : n ≤ 1048576) (hk : 256 ≤ k) (hboot : afterBoot n k = some s₀)
    (hr : Reach KClient.step (fun _ _ => True) s₀ s) {lock : Option C}
    (hs : LockedHeap.kmalloc ⟨s.heap, lock⟩ cpu size = some (t, 0)) : t.heap = s.heap ∧ t.kheapLock = none := by
  obtain ⟨-, hcall, hlock⟩ := LockedHeap.kmalloc_eq hs
  obtain ⟨lost, ⟨F, L, hinv, -⟩, -⟩ := inv_reach hmin hn hk hboot hr
  exact ⟨hinv.kmalloc_null hcall, hlock⟩

/-- A region is allocated and freed; then 200000000 bytes do not fit. -/
theorem failed_kmalloc_no_effect_large : ∃ s₀ s, ∃ t : LockedHeap Unit, afterBoot 1024 768 = some s₀ ∧
    exec KClient.step s₀ [.kmalloc 4096, .kmalloc 4096, .kfree 4160753664] = some s ∧
    LockedHeap.kmalloc ⟨s.heap, none⟩ () 200000000 = some (t, 0) ∧ t.heap = s.heap ∧ t.kheapLock = none := by
  have hrun : ((afterBoot 1024 768).bind fun s₀ =>
      (exec KClient.step s₀ [.kmalloc 4096, .kmalloc 4096, .kfree 4160753664]).bind fun s =>
        (LockedHeap.kmalloc ⟨s.heap, none⟩ () 200000000).map Prod.snd) = some 0 := by
    rw [KClient.afterBoot_eq]
    decide +kernel
  obtain ⟨s₀, hs₀, hrun⟩ := Option.bind_eq_some_iff.mp hrun
  obtain ⟨s, hs, hrun⟩ := Option.bind_eq_some_iff.mp hrun
  obtain ⟨⟨t, p⟩, ht, rfl⟩ := Option.map_eq_some_iff.mp hrun
  have hr := Reach.of_exec_any hs
  exact ⟨s₀, s, t, hs₀, hs, ht, failed_kmalloc_no_effect (by decide) (by decide) (by decide) hs₀ hr ht⟩

end KClient

end Fos.Heap
