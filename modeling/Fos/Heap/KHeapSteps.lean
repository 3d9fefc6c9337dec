import Fos.Mem.Rooted

/-! `kmalloc` and `kfree` touch the frames only by mapping new frames at pages of the heap and by unmapping pages. -/

namespace Fos.Heap
open Lib Mem Frames

namespace DynAlloc

variable {σ : Type} {ops : PageOps σ} {w w' : σ} {d d' : DynAlloc} {size va : Nat}

/-- `alloc_block` asks for one page at most. -/
theorem allocBlock_world (hs : allocBlock ops w d size = some (w', d', va)) :
    w' = w ∨ ∃ link pageVa link', pageVa < 4294967296 ∧ ops.getPage w link pageVa = some (w', link') := by
  have hlarger : ∀ cs, allocLarger w d cs = some (w', d', va) → w' = w := by
    intro cs
    induction cs with
    | nil => exact nofun
    | cons c cs ih =>
      intro hs
      unfold allocLarger at hs
      split at hs
      · cases hs
        rfl
      · exact ih hs
  unfold allocBlock at hs
  split at hs
  · split at hs
    · cases hs
      exact .inl rfl
    · dsimp only at hs
      split at hs
      · cases hs
        exact .inl rfl
      · split at hs
        · obtain ⟨pageVa, hpage, hs⟩ := Option.bind_eq_some_iff.mp hs
          simp only [toPageVa, Option.ite_none_right_eq_some, Option.some.injEq] at hpage
          obtain ⟨⟨w₁, link'⟩, hget, hs⟩ := Option.bind_eq_some_iff.mp hs
          obtain ⟨d₁, -, hs⟩ := Option.bind_eq_some_iff.mp hs
          obtain ⟨blk, -, heq⟩ := Option.map_eq_some_iff.mp hs
          simp only [Prod.mk.injEq] at heq
          rw [← heq.1]
          exact .inr ⟨_, pageVa, link', hpage.2 ▸ u32_lt _, hget⟩
        · exact .inl (hlarger _ hs)
  · cases hs

/-- `free_block` gives one page back at most. -/
theorem freeBlock_world (hs : freeBlock ops w d va = some (w', d')) :
    w' = w ∨ ∃ link pageVa link', ops.returnPage w link pageVa = some (w', link') := by
  unfold freeBlock at hs
  split at hs
  · dsimp only at hs
    split at hs
    · cases hs
    · split at hs
      · obtain ⟨pageVa, -, hs⟩ := Option.bind_eq_some_iff.mp hs
        obtain ⟨d₁, -, hs⟩ := Option.bind_eq_some_iff.mp hs
        obtain ⟨⟨w₁, link'⟩, hret, heq⟩ := Option.map_eq_some_iff.mp hs
        simp only [Prod.mk.injEq] at heq
        rw [← heq.1]
        exact .inr ⟨_, pageVa, link', hret⟩
      · cases hs
        exact .inl rfl
  · cases hs

end DynAlloc

variable {m m' : Frames} {va stop size : Nat}

theorem getPage_steps {link link' : Nat → Link Nat} (hva : va < 4294967296)
    (hs : kernelPages.getPage m link va = some (m', link')) : HeapSteps m m' := by
  obtain ⟨⟨m₁, fresh⟩, halloc, heq⟩ := Option.map_eq_some_iff.mp hs
  simp only [Prod.mk.injEq] at heq
  obtain ⟨rfl, -⟩ := heq
  have hround : roundDown va pageSize % 4096 = 0 ∧ roundDown va pageSize < 4294967296 := by
    simp only [roundDown, pageSize]
    omega
  obtain ⟨r, -, halloc⟩ := Option.bind_eq_some_iff.mp halloc
  cases r with
  | some g =>
    cases halloc
    exact .refl
  | none =>
    obtain ⟨m₂, hm₂, heq⟩ := Option.map_eq_some_iff.mp halloc
    cases heq
    exact .mapNewFrame .refl hround.1 hround.2 hm₂

theorem returnPage_steps {link link' : Nat → Link Nat} (hs : kernelPages.returnPage m link va = some (m', link')) :
    HeapSteps m m' := by
  obtain ⟨m₁, hunmap, heq⟩ := Option.map_eq_some_iff.mp hs
  simp only [Prod.mk.injEq] at heq
  obtain ⟨rfl, -⟩ := heq
  exact .unmapFrame _ .refl hunmap

theorem mapFrameRange_steps {fuel : Nat} (hva : va % 4096 = 0) (hlt : va < 4294967296)
    (hs : mapFrameRange m va stop fuel = some m') : HeapSteps m m' := by
  induction fuel generalizing m va with
  | zero => cases hs
  | succ fuel ih =>
    unfold mapFrameRange at hs
    split at hs
    · obtain ⟨m₁, hm₁, hs⟩ := Option.bind_eq_some_iff.mp hs
      have hnext : u32 (va + pageSize) % 4096 = 0 := by
        simp only [u32, pageSize]
        omega
      exact (HeapSteps.refl.mapNewFrame hva hlt hm₁).trans (ih hnext (u32_lt _) hs)
    · cases hs
      exact .refl

theorem unmapFrameRange_steps {fuel : Nat} (hs : unmapFrameRange m va stop fuel = some m') : HeapSteps m m' := by
  induction fuel generalizing m va with
  | zero => cases hs
  | succ fuel ih =>
    unfold unmapFrameRange at hs
    split at hs
    · obtain ⟨m₁, hm₁, hs⟩ := Option.bind_eq_some_iff.mp hs
      exact (HeapSteps.refl.unmapFrame _ hm₁).trans (ih hs)
    · cases hs
      exact .refl

namespace KHeap

variable {s s' : KHeap} {n : Nat}

theorem allocBlock_steps (hs : s.allocBlock size = some (s', va)) : HeapSteps s.mem s'.mem := by
  obtain ⟨⟨m, d, va'⟩, halloc, heq⟩ := Option.map_eq_some_iff.mp hs
  simp only [Prod.mk.injEq] at heq
  obtain ⟨rfl, -⟩ := heq
  rcases DynAlloc.allocBlock_world halloc with rfl | ⟨link, pageVa, link', hlt, hget⟩
  · exact .refl
  · exact getPage_steps hlt hget

theorem freeBlock_steps (hs : s.freeBlock va = some s') : HeapSteps s.mem s'.mem := by
  obtain ⟨⟨m, d⟩, hfree, rfl⟩ := Option.map_eq_some_iff.mp hs
  rcases DynAlloc.freeBlock_world hfree with rfl | ⟨link, pageVa, link', hret⟩
  · exact .refl
  · exact returnPage_steps hret

theorem allocRegion_steps (hva : va % 4096 = 0) (hlt : va < 4294967296) (hs : s.allocRegion va n = some s') :
    HeapSteps s.mem s'.mem := by
  obtain ⟨m₁, hm₁, hs⟩ := Option.bind_eq_some_iff.mp hs
  obtain ⟨⟨s₂, node⟩, halloc, rfl⟩ := Option.map_eq_some_iff.mp hs
  exact (mapFrameRange_steps hva hlt hm₁).trans (allocBlock_steps halloc)

theorem extendBreak_steps (h : va ≠ 0 → va % 4096 = 0 ∧ va < 4294967296) (hs : s.extendBreak n = some (s', va)) :
    HeapSteps s.mem s'.mem := by
  unfold extendBreak at hs
  split at hs
  · cases hs
    exact .refl
  · split at hs
    · cases hs
      exact .refl
    · split at hs
      · cases hs
        exact .refl
      · obtain ⟨s₁, hs₁, heq⟩ := Option.map_eq_some_iff.mp hs
        simp only [Prod.mk.injEq] at heq
        obtain ⟨rfl, rfl⟩ := heq
        by_cases hz : s.kheapPageAllocBreak = 0
        · rw [hz] at hs₁
          exact (allocRegion_steps rfl (by decide) hs₁ : HeapSteps s.mem s₁.mem)
        · exact (allocRegion_steps (h hz).1 (h hz).2 hs₁ : HeapSteps s.mem s₁.mem)

/-- `kmalloc`, when the region that it returns is aligned -/
theorem kmalloc_steps (h : va ≠ 0 → 2048 < size → va % 4096 = 0 ∧ va < 4294967296) (hs : s.kmalloc size = some (s', va)) :
    HeapSteps s.mem s'.mem := by
  unfold kmalloc at hs
  split at hs
  · cases hs
    exact .refl
  · split at hs
    · exact allocBlock_steps hs
    · rename_i hsize
      have hlarge : 2048 < size := Nat.lt_of_not_le hsize
      have h : va ≠ 0 → va % 4096 = 0 ∧ va < 4294967296 := fun hne => h hne hlarge
      have hregion : ∀ {t : KHeap}, t.allocRegion va (roundUp size pageSize) = some s' → HeapSteps t.mem s'.mem := by
        intro t ht
        by_cases hz : va = 0
        · rw [hz] at ht
          exact allocRegion_steps rfl (by decide) ht
        · exact allocRegion_steps (h hz).1 (h hz).2 ht
      obtain ⟨r, -, hs⟩ := Option.bind_eq_some_iff.mp hs
      cases r with
      | some b =>
        obtain ⟨s₁, hs₁, heq⟩ := Option.map_eq_some_iff.mp hs
        simp only [Prod.mk.injEq] at heq
        obtain ⟨rfl, rfl⟩ := heq
        exact hregion (t := { s with bulks := s.bulks.removeBulk b }) hs₁
      | none =>
        dsimp only at hs
        split at hs
        · split at hs
          · obtain ⟨t, -, hs⟩ := Option.bind_eq_some_iff.mp hs
            obtain ⟨s₁, hs₁, heq⟩ := Option.map_eq_some_iff.mp hs
            simp only [Prod.mk.injEq] at heq
            obtain ⟨rfl, rfl⟩ := heq
            exact hregion (t := { s with bulks := t }) hs₁
          · exact extendBreak_steps h hs
        · exact extendBreak_steps h hs

theorem mergeBulks_steps {start : Nat} (hs : s.mergeBulks start n = some s') : HeapSteps s.mem s'.mem := by
  obtain ⟨⟨before, after⟩, -, hs⟩ := Option.bind_eq_some_iff.mp hs
  cases before with
  | some before =>
    cases after with
    | some after =>
      obtain ⟨t, -, hs⟩ := Option.bind_eq_some_iff.mp hs
      exact freeBlock_steps (s := { s with bulks := t }) hs
    | none =>
      obtain ⟨t, -, rfl⟩ := Option.map_eq_some_iff.mp hs
      exact .refl
  | none =>
    cases after with
    | some after =>
      obtain ⟨t, -, rfl⟩ := Option.map_eq_some_iff.mp hs
      exact .refl
    | none =>
      obtain ⟨⟨s₁, node⟩, halloc, hs⟩ := Option.bind_eq_some_iff.mp hs
      simp only [Option.ite_none_left_eq_some] at hs
      obtain ⟨t, -, rfl⟩ := Option.map_eq_some_iff.mp hs.2
      have hsteps := allocBlock_steps halloc
      exact hsteps

theorem lowerBreak_steps {fuel : Nat} (hs : s.lowerBreak fuel = some s') : HeapSteps s.mem s'.mem := by
  induction fuel generalizing s with
  | zero => cases hs
  | succ fuel ih =>
    obtain ⟨top, -, hs⟩ := Option.bind_eq_some_iff.mp hs
    cases top with
    | none =>
      cases hs
      exact .refl
    | some top =>
      obtain ⟨s₁, hs₁, hs⟩ := Option.bind_eq_some_iff.mp hs
      exact (freeBlock_steps (s := { s with bulks := _, kheapPageAllocBreak := _ }) hs₁).trans (ih hs)

theorem kfree_steps (hs : s.kfree va = some s') : HeapSteps s.mem s'.mem := by
  unfold kfree at hs
  split at hs
  · cases hs
    exact .refl
  · split at hs
    · cases hs
    · split at hs
      · exact freeBlock_steps hs
      · split at hs
        · obtain ⟨b, -, hs⟩ := Option.bind_eq_some_iff.mp hs
          cases b with
          | none => cases hs
          | some b =>
            obtain ⟨m, hm, hs⟩ := Option.bind_eq_some_iff.mp hs
            obtain ⟨s₁, hs₁, hs⟩ := Option.bind_eq_some_iff.mp hs
            obtain ⟨s₂, hs₂, hs⟩ := Option.bind_eq_some_iff.mp hs
            have hfree := freeBlock_steps (s := { s with mem := m, bulks := _ }) hs₁
            exact (((unmapFrameRange_steps hm).trans hfree).trans (mergeBulks_steps hs₂)).trans (lowerBreak_steps hs)
        · cases hs
          exact .refl

end KHeap

end Fos.Heap
