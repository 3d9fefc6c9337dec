import Fos.Heap.KHeapRun
import Fos.Heap.UHeapInv

/-! What a pointer of `kmalloc` or `malloc` denotes: at least the bytes asked for, inside the heap and apart from the
    other allocations. It fails exactly for the sizes that wrap to 0 when they are rounded up to pages. -/

namespace Fos.Heap
open Lib Mem

/-- The bytes from `p` to `p + size` lie between `lo` and `hi`, in the region `extent p` that the heap has recorded for `p`,
    and this region is apart from those of the pointers `live`. -/
structure Denotes (lo hi : Nat) (extent : Nat → Region) (live : List Nat) (p size : Nat) : Prop where
  inside : lo ≤ p ∧ p + size ≤ hi
  fits : (extent p).start = p ∧ size ≤ (extent p).size
  alone : ∀ q ∈ live, (extent p).Apart (extent q)

theorem pairwise_apart {lo hi : Nat} {R : List Region} {r q : Region} (h : Tiles lo hi R) (hr : r ∈ R) (hq : q ∈ R) (hne : r ≠ q) :
    r.Apart q := by
  by_contra hover
  exact hne (h.eq_of_overlap hr hq hover)

/-- The block that the block allocator has handed out at `p`. -/
def DynAlloc.blockAt (d : DynAlloc) (p : Nat) : Region := ⟨p, d.getBlockSize p⟩

namespace DynAlloc

variable {d : DynAlloc} {cls : Nat → Option SizeClass} {free : SizeClass → List Nat} {freePages out : List Nat} {p q : Nat}

theorem Inv.blocks_apart (h : Inv d cls free freePages out) (hp : p ∈ out) (hq : q ∈ out) (hne : p ≠ q) :
    (d.blockAt p).Apart (d.blockAt q) := by
  obtain ⟨c, hcls, hslot⟩ := h.tiled.cls_of_handed hp
  obtain ⟨c', hcls', hslot'⟩ := h.tiled.cls_of_handed hq
  simp only [Region.Apart, Region.stop, blockAt, h.toRep.getBlockSize_eq hcls hslot, h.toRep.getBlockSize_eq hcls' hslot']
  exact Tiled.blocks_apart hcls hcls' hslot hslot' hne

theorem Inv.block_bounds (h : Inv d cls free freePages out) (hp : p ∈ out) :
    d.dynAllocStart ≤ p ∧ (d.blockAt p).stop ≤ d.dynAllocEnd := by
  obtain ⟨c, hcls, hslot⟩ := h.tiled.cls_of_handed hp
  simp only [Region.stop, blockAt, h.toRep.getBlockSize_eq hcls hslot]
  exact h.toRep.slot_bounds hcls hslot

end DynAlloc

/-! ### The kernel heap -/

namespace KHeap

/-- What the kernel heap has recorded for a pointer: its block, or the region that `kfree` finds for it. -/
def extent (s : KHeap) (p : Nat) : Region :=
  if p < s.da.dynAllocEnd then s.da.blockAt p
  else ⟨p, ((s.bulks.find .allocated (s.bulks.start · = p)).join.map s.bulks.size).getD 0⟩

variable {s s' : KHeap} {all F handed : List PageNo} {boot : PageNo → Nat} {L : BulkList → List Nat} {client lost ptrs : List Nat}
  {n p q va size b : Nat}

theorem Inv.extent_region (hi : Inv all boot handed F s L client lost) (hb : b ∈ L .allocated) :
    s.extent (s.bulks.start b) = s.bulks.region b := by
  have hbounds := hi.bounds_allocated hb
  unfold extent
  rw [if_neg (by rw [hi.blocks.dyn_end]; omega)]
  rcases Bulks.find_spec hi.spells .allocated (hi.length_lt .allocated) (s.bulks.start · = s.bulks.start b) with
    ⟨x, hx, hstart, hfind⟩ | ⟨hnone, -⟩
  · have heq : s.bulks.region x = s.bulks.region b :=
      hi.tiles.eq_of_start (List.mem_append_right _ (List.mem_map_of_mem hx)) (List.mem_append_right _ (List.mem_map_of_mem hb))
        (of_decide_eq_true hstart)
    rw [hfind]
    exact congrArg (Region.mk (s.bulks.start b)) (congrArg Region.size heq)
  · exact absurd rfl (of_decide_eq_false (hnone b hb))

theorem Inv.extent_block (hi : Inv all boot handed F s L client lost) (hp : p < 4160749568) : s.extent p = s.da.blockAt p := by
  unfold extent
  rw [if_pos (hi.blocks.dyn_end ▸ hp)]

/-- The regions of two pointers that are out do not overlap. -/
theorem Owned.extents_apart (h : Owned all boot handed F s ptrs lost) (hp : p ∈ ptrs) (hq : q ∈ ptrs) (hne : p ≠ q) :
    (s.extent p).Apart (s.extent q) := by
  obtain ⟨L, hinv, hstarts⟩ := h
  obtain ⟨cls, free, freePages, hda, -⟩ := hinv.blocks.inv
  have hblock : ∀ x ∈ ptrs, x < 4160749568 →
      s.extent x = s.da.blockAt x ∧ x ∈ L .free ++ (L .allocated ++ (ptrs.filter (· < 4160749568) ++ lost)) := fun x hx hlt =>
    ⟨hinv.extent_block hlt, by simp [hx, hlt]⟩
  have hregion : ∀ x ∈ ptrs, ¬ x < 4160749568 → ∃ b ∈ L .allocated, s.bulks.start b = x ∧ s.extent x = s.bulks.region b := by
    intro x hx hge
    obtain ⟨b, hb, rfl⟩ := List.mem_map.mp (hstarts.mem_iff.mpr (List.mem_filter.mpr ⟨hx, by simpa using hge⟩))
    exact ⟨b, hb, rfl, hinv.extent_region hb⟩
  have hbelow : ∀ x, x ∈ L .free ++ (L .allocated ++ (ptrs.filter (· < 4160749568) ++ lost)) → ∀ b ∈ L .allocated,
      (s.da.blockAt x).stop ≤ (s.bulks.region b).start := by
    intro x hx b hb
    have hx' := (hda.block_bounds hx).2
    rw [hinv.blocks.dyn_end] at hx'
    exact hx'.trans (le_trans (by decide) (hinv.bounds_allocated hb).2.1)
  by_cases hlt : p < 4160749568 <;> by_cases hlt' : q < 4160749568
  · obtain ⟨hep, hp'⟩ := hblock p hp hlt
    obtain ⟨heq, hq'⟩ := hblock q hq hlt'
    rw [hep, heq]
    exact hda.blocks_apart hp' hq' hne
  · obtain ⟨hep, hp'⟩ := hblock p hp hlt
    obtain ⟨b, hb, -, heq⟩ := hregion q hq hlt'
    rw [hep, heq]
    exact .inl (hbelow p hp' b hb)
  · obtain ⟨b, hb, -, hep⟩ := hregion p hp hlt
    obtain ⟨heq, hq'⟩ := hblock q hq hlt'
    rw [hep, heq]
    exact .inr (hbelow q hq' b hb)
  · obtain ⟨b, hb, hstart, hep⟩ := hregion p hp hlt
    obtain ⟨b', hb', hstart', heq⟩ := hregion q hq hlt'
    rw [hep, heq]
    refine pairwise_apart hinv.tiles (List.mem_append_right _ (List.mem_map_of_mem hb))
      (List.mem_append_right _ (List.mem_map_of_mem hb')) fun h => hne ?_
    rw [← hstart, ← hstart']
    exact congrArg Region.start h

/-- The new node is the head of `bulks_allocated`. -/
theorem allocRegion_head (hs : s.allocRegion va n = some s') :
    ∃ node, s'.bulks.first .allocated = some node ∧ s'.bulks.region node = ⟨va, n⟩ := by
  obtain ⟨m, -, hs⟩ := Option.bind_eq_some_iff.mp hs
  obtain ⟨⟨s₂, node⟩, -, rfl⟩ := Option.map_eq_some_iff.mp hs
  obtain ⟨hstart, hsize⟩ := Bulks.pushAllocated_fields s₂.bulks node va n
  refine ⟨node, by simp [Bulks.pushAllocated], ?_⟩
  rw [Bulks.region, hstart, hsize, Function.update_self, Function.update_self]

theorem pageAllocCustomFit_head (hs : s.pageAllocCustomFit n = some (s', va)) (hva : va ≠ 0) :
    ∃ node, s'.bulks.first .allocated = some node ∧ s'.bulks.region node = ⟨va, n⟩ := by
  have hextend : s.extendBreak n = some (s', va) → ∃ node, s'.bulks.first .allocated = some node ∧ s'.bulks.region node = ⟨va, n⟩ := by
    intro hs
    unfold extendBreak at hs
    split at hs
    · cases hs
      exact absurd rfl hva
    · split at hs
      · cases hs
        exact absurd rfl hva
      · split at hs
        · cases hs
          exact absurd rfl hva
        · obtain ⟨s₁, hs₁, heq⟩ := Option.map_eq_some_iff.mp hs
          simp only [Prod.mk.injEq] at heq
          obtain ⟨rfl, rfl⟩ := heq
          obtain ⟨node, hfirst, hregion⟩ := allocRegion_head hs₁
          exact ⟨node, hfirst, hregion⟩
  obtain ⟨r, -, hs⟩ := Option.bind_eq_some_iff.mp hs
  cases r with
  | some b =>
    obtain ⟨s₁, hs₁, heq⟩ := Option.map_eq_some_iff.mp hs
    cases heq
    exact allocRegion_head hs₁
  | none =>
    cases hfirst : s.bulks.first .free with
    | none =>
      simp only [hfirst] at hs
      exact hextend hs
    | some bb =>
      simp only [hfirst] at hs
      split at hs
      · obtain ⟨t, -, hs⟩ := Option.bind_eq_some_iff.mp hs
        obtain ⟨s₁, hs₁, heq⟩ := Option.map_eq_some_iff.mp hs
        cases heq
        exact allocRegion_head hs₁
      · exact hextend hs

/-- What `kmalloc` returns for a size that does not wrap. -/
theorem Owned.kmalloc_denotes (h : Owned all boot handed F s ptrs lost) (hpos : 0 < size) (hsize : size ≤ 4294963200)
    (hs : s.kmalloc size = some (s', p)) (hp : p ≠ 0) : Denotes kernelHeapStart kernelHeapMax s'.extent ptrs p size := by
  obtain ⟨lost', hdone⟩ := h.kmalloc hsize hs
  obtain ⟨F', howned⟩ := hdone.owned
  rw [if_neg hp] at howned
  have hfresh : ∀ q ∈ ptrs, p ≠ q := by
    rintro q hq rfl
    exact (List.nodup_cons.mp howned.nodup).1 hq
  have halone : ∀ q ∈ ptrs, (s'.extent p).Apart (s'.extent q) := fun q hq =>
    howned.extents_apart (List.mem_cons_self ..) (List.mem_cons_of_mem _ hq) (hfresh q hq)
  obtain ⟨L, hinv, -⟩ := h
  obtain ⟨L', hinv', -⟩ := howned
  by_cases hsmall : size ≤ 2048
  · have hlt := hdone.block hsmall
    unfold KHeap.kmalloc dynAllocMaxBlockSize at hs
    rw [if_neg (by omega), if_pos hsmall] at hs
    obtain ⟨⟨m, d, va⟩, halloc, heq⟩ := Option.map_eq_some_iff.mp hs
    simp only [Prod.mk.injEq] at heq
    obtain ⟨rfl, rfl⟩ := heq
    obtain ⟨cls, free, freePages, hda, -⟩ := hinv.blocks.inv
    have hfits := (hda.allocBlock kernelPages_local hpos halloc).fits
    obtain ⟨cls', free', freePages', hda', -⟩ := hinv'.blocks.inv
    have hbounds := hda'.block_bounds (p := va) (by simp [hlt])
    have hend := hinv'.blocks.dyn_end
    have hstart := hinv'.blocks.dyn_start
    refine ⟨?_, ?_, halone⟩
    · simp only [Region.stop, DynAlloc.blockAt, kernelHeapMax] at *
      omega
    · rw [hinv'.extent_block hlt]
      exact ⟨rfl, hfits⟩
  · have hround := (roundUp_page hsize).2.1
    unfold KHeap.kmalloc dynAllocMaxBlockSize at hs
    rw [if_neg (by omega), if_neg hsmall] at hs
    obtain ⟨node, hfirst, hregion⟩ := pageAllocCustomFit_head hs hp
    have hnode := hinv'.spells.mem_of_first hfirst
    have hbounds := hinv'.bounds (List.mem_append_right _ (List.mem_append_right _ (List.mem_map_of_mem hnode)))
    have hextent := hinv'.extent_region hnode
    have hstart : s'.bulks.start node = p := congrArg Region.start hregion
    rw [hstart, hregion] at hextent
    rw [hregion] at hbounds
    simp only at hbounds
    refine ⟨?_, ?_, halone⟩
    · simp only [kernelHeapStart, kernelHeapMax]
      omega
    · rw [hextent]
      exact ⟨rfl, hround⟩

end KHeap

/-! ### The user heap -/

namespace UHeap

variable {σ : Type} {ops : PageOps σ} {h h' : UHeap σ} {L : BulkList → List Nat} {A out : List Nat} {n p q va size : Nat}

/-- What the user heap has recorded for a pointer: its block, or the region that `free` gives back for it. -/
def extent (h : UHeap σ) (p : Nat) : Region := if p < h.uheapPageAllocStart then h.da.blockAt p else h.region p

theorem extendBreak_size (hs : h.extendBreak n = (h', va)) (hva : va ≠ 0) : h'.allocationSizes (sizeIndex va) = n := by
  unfold UHeap.extendBreak at hs
  split at hs
  · cases hs
    exact absurd rfl hva
  · split at hs
    · cases hs
      exact absurd rfl hva
    · split at hs
      · cases hs
        exact absurd rfl hva
      · cases hs
        exact Function.update_self ..

theorem userPageAllocCustomFit_size (hs : h.userPageAllocCustomFit n = some (h', va)) (hva : va ≠ 0) :
    h'.allocationSizes (sizeIndex va) = n := by
  obtain ⟨⟨_, r⟩, -, hs⟩ := Option.bind_eq_some_iff.mp hs
  cases r with
  | some b =>
    cases hs
    exact Function.update_self ..
  | none =>
    cases hfirst : h.bulks.first .free with
    | none =>
      simp only [hfirst, Option.some.injEq] at hs
      exact extendBreak_size hs hva
    | some bb =>
      simp only [hfirst] at hs
      split at hs
      · obtain ⟨t, -, heq⟩ := Option.map_eq_some_iff.mp hs
        cases heq
        exact Function.update_self ..
      · exact extendBreak_size (Option.some.inj hs) hva

end UHeap

namespace UProcess

variable {σ : Type} {ops : PageOps σ} {s : UProcess σ} {h : UHeap σ} {p q size : Nat}

theorem Inv.extents_apart (hi : Inv s) (hp : p ∈ s.live) (hq : q ∈ s.live) (hne : p ≠ q) :
    (s.heap.extent p).Apart (s.heap.extent q) := by
  obtain ⟨L, A, hinv, hlive, -⟩ := hi
  obtain ⟨cls, free, freePages, hda⟩ := hinv.blocks
  have hblock : ∀ x ∈ s.live, x < 2181042176 →
      s.heap.extent x = s.heap.da.blockAt x ∧ x ∈ s.live.filter (· < 2181042176) := fun x hx hlt =>
    ⟨if_pos (hinv.page_start ▸ hlt), List.mem_filter.mpr ⟨hx, by simpa using hlt⟩⟩
  have hregion : ∀ x ∈ s.live, ¬ x < 2181042176 → s.heap.extent x = s.heap.region x ∧ x ∈ A := fun x hx hge =>
    ⟨if_neg (hinv.page_start ▸ hge), hlive x hx (Nat.le_of_not_lt hge)⟩
  have hbelow : ∀ x, x ∈ s.live.filter (· < 2181042176) → ∀ a ∈ A, (s.heap.da.blockAt x).stop ≤ (s.heap.region a).start := by
    intro x hx a ha
    have hx' := (hda.block_bounds hx).2
    rw [hinv.dyn_end] at hx'
    exact hx'.trans (le_trans (by decide) (hinv.bounds_alloc ha).2.1)
  by_cases hlt : p < 2181042176 <;> by_cases hlt' : q < 2181042176
  · obtain ⟨hep, hp'⟩ := hblock p hp hlt
    obtain ⟨heq, hq'⟩ := hblock q hq hlt'
    rw [hep, heq]
    exact hda.blocks_apart hp' hq' hne
  · obtain ⟨hep, hp'⟩ := hblock p hp hlt
    obtain ⟨heq, hq'⟩ := hregion q hq hlt'
    rw [hep, heq]
    exact .inl (hbelow p hp' q hq')
  · obtain ⟨hep, hp'⟩ := hregion p hp hlt
    obtain ⟨heq, hq'⟩ := hblock q hq hlt'
    rw [hep, heq]
    exact .inr (hbelow q hq' p hp')
  · obtain ⟨hep, hp'⟩ := hregion p hp hlt
    obtain ⟨heq, hq'⟩ := hregion q hq hlt'
    rw [hep, heq]
    exact pairwise_apart hinv.tiles (List.mem_append_right _ (List.mem_map_of_mem hp'))
      (List.mem_append_right _ (List.mem_map_of_mem hq')) fun h => hne (congrArg Region.start h)

/-- What `malloc` returns for a size that does not wrap. -/
theorem Inv.malloc_denotes (hops : ops.Local) (hi : Inv s) (hpos : 0 < size) (hsize : size ≤ 4294963200)
    (hs : s.heap.malloc ops size = some (h, p)) (hp : p ≠ 0) : Denotes userHeapStart userHeapMax h.extent s.live p size := by
  have hi' : Inv (s.keep (h, p)) := hi.step (e := .malloc size) hops hsize (congrArg (Option.map s.keep) hs)
  have hlive : (s.keep (h, p)).live = p :: s.live := if_neg hp
  have hnodup : (p :: s.live).Nodup := by
    obtain ⟨_, _, _, _, hnodup⟩ := hi'
    exact hlive ▸ hnodup
  have halone : ∀ q ∈ s.live, (h.extent p).Apart (h.extent q) := by
    intro q hq
    refine hi'.extents_apart (p := p) (q := q) (by simp [hlive]) (by simp [hlive, hq]) ?_
    rintro rfl
    exact (List.nodup_cons.mp hnodup).1 hq
  obtain ⟨L, A, hinv, -⟩ := hi
  obtain ⟨L', A', hinv', hlive', -⟩ := hi'
  rw [hlive] at hlive' hinv'
  have hpage := hinv'.page_start
  unfold UHeap.malloc dynAllocMaxBlockSize at hs
  rw [hinv.uheapInit, Option.bind_some, if_neg (by omega)] at hs
  split at hs
  case isTrue hsmall =>
    obtain ⟨⟨w, d, va⟩, halloc, heq⟩ := Option.map_eq_some_iff.mp hs
    simp only [Prod.mk.injEq] at heq
    obtain ⟨rfl, rfl⟩ := heq
    obtain ⟨-, hlt, -⟩ := hinv.alloc_block hops hpos halloc
    obtain ⟨cls, free, freePages, hda⟩ := hinv.blocks
    have hfits := (hda.allocBlock hops hpos halloc).fits
    obtain ⟨cls', free', freePages', hda'⟩ := hinv'.blocks
    have hbounds := hda'.block_bounds (p := va) (by simp [hlt])
    have hstart := hinv'.dyn_start
    have hend := hinv'.dyn_end
    have hextent : UHeap.extent { s.heap with world := w, da := d } va = d.blockAt va := if_pos (hpage ▸ hlt)
    refine ⟨?_, ?_, halone⟩
    · simp only [keep, Region.stop, DynAlloc.blockAt, userHeapMax] at *
      omega
    · rw [hextent]
      exact ⟨rfl, hfits⟩
  case isFalse hlarge =>
    have hround := (roundUp_page hsize).2.1
    have hstored := UHeap.userPageAllocCustomFit_size hs hp
    rcases hinv.customFit (by omega) (roundUp_page hsize).1 hs with ⟨rfl, -⟩ | ⟨-, L₁, hinv₁⟩
    · exact absurd rfl hp
    · have hbounds := hinv₁.bounds_alloc (List.mem_cons_self ..)
      have hextent : h.extent p = ⟨p, roundUp size pageSize⟩ := by
        rw [UHeap.extent, if_neg (by rw [hinv₁.page_start]; omega), UHeap.region, hstored]
      simp only [UHeap.region, hstored] at hbounds
      refine ⟨?_, ?_, halone⟩
      · simp only [userHeapStart, userHeapMax]
        omega
      · rw [hextent]
        exact ⟨rfl, hround⟩

/-- The same for any state that a run of safe steps reaches, also before the first call has initialised the heap. -/
theorem malloc_denotes (hops : ops.Local) {w : σ} (hr : Reach (step ops) Safe ⟨{ world := w }, []⟩ s) (hpos : 0 < size)
    (hsize : size ≤ 4294963200) (hs : s.heap.malloc ops size = some (h, p)) (hp : p ≠ 0) :
    Denotes userHeapStart userHeapMax h.extent s.live p size := by
  rcases inv_reach hops hr with rfl | hi
  · obtain ⟨h₀, hh₀, hs⟩ := Option.bind_eq_some_iff.mp hs
    have hinv := UHeap.uheapInit_inv hh₀
    have hcall : h₀.malloc ops size = some (h, p) := by
      unfold UHeap.malloc
      rw [hinv.uheapInit]
      exact hs
    exact Inv.malloc_denotes (s := ⟨h₀, []⟩) hops ⟨_, _, hinv, nofun, List.nodup_nil⟩ hpos hsize hcall hp
  · exact hi.malloc_denotes hops hpos hsize hs hp

end UProcess

/-! ### Both heaps -/

/-- A size that wraps to 0 when it is rounded up is larger than what lies above the start of either heap. -/
theorem Denotes.size_le {lo hi : Nat} {extent : Nat → Region} {live : List Nat} {p size : Nat}
    (h : Denotes lo hi extent live p size) (hlo : hi ≤ lo + 4294963200) : size ≤ 4294963200 := by
  have := h.inside
  omega

/-- In every run of the kernel heap without a size that wraps, and in every run of a user heap that moreover frees no
    region that ends at the break, a pointer that the next call returns for a size above 0 denotes that many bytes of
    its own if and only if this size does not wrap either. -/
theorem allocation_sound {size p : Nat} (hpos : 0 < size) (hp : p ≠ 0) :
    (∀ {n k : Nat} {s₀ s : KClient} {h : KHeap}, 160 ≤ n → n ≤ 1048576 → 256 ≤ k → KClient.afterBoot n k = some s₀ →
      Reach KClient.step (fun _ _ => True) s₀ s → s.heap.kmalloc size = some (h, p) →
        (Denotes kernelHeapStart kernelHeapMax h.extent s.live p size ↔ size ≤ 4294963200)) ∧
    ∀ {σ : Type} {ops : PageOps σ} {w : σ} {s : UProcess σ} {h : UHeap σ}, ops.Local →
      Reach (UProcess.step ops) UProcess.Safe ⟨{ world := w }, []⟩ s → s.heap.malloc ops size = some (h, p) →
        (Denotes userHeapStart userHeapMax h.extent s.live p size ↔ size ≤ 4294963200) := by
  refine ⟨fun hmin hn hk hboot hr hs => ⟨fun h => h.size_le (by decide), fun hsize => ?_⟩,
    fun hops hr hs => ⟨fun h => h.size_le (by decide), fun hsize => UProcess.malloc_denotes hops hr hpos hsize hs hp⟩⟩
  obtain ⟨lost, ⟨F, howned⟩, -⟩ := KClient.inv_reach hmin hn hk hboot hr
  exact howned.kmalloc_denotes hpos hsize hs hp

/-- A second region in either heap. -/
theorem allocation_sound_second :
    (∃ s₀ s h, KClient.afterBoot 1024 768 = some s₀ ∧ exec KClient.step s₀ [.kmalloc 4096] = some s ∧
      s.heap.kmalloc 5000 = some (h, 4160757760) ∧
      Denotes kernelHeapStart kernelHeapMax h.extent s.live 4160757760 5000) ∧
    ∃ (s : UProcess Unit) (h : UHeap Unit), s.live = [2181042176] ∧
      s.heap.malloc BlockClient.residentPages 5000 = some (h, 2181046272) ∧
      Denotes userHeapStart userHeapMax h.extent s.live 2181046272 5000 := by
  have hrun : ((KClient.afterBoot 1024 768).bind fun s₀ => (exec KClient.step s₀ [.kmalloc 4096]).bind fun s =>
      (s.heap.kmalloc 5000).map Prod.snd) = some 4160757760 := by
    rw [KClient.afterBoot_eq]
    decide +kernel
  obtain ⟨s₀, hs₀, hrun⟩ := Option.bind_eq_some_iff.mp hrun
  obtain ⟨s, hs, hrun⟩ := Option.bind_eq_some_iff.mp hrun
  obtain ⟨⟨h, p⟩, hk, rfl⟩ := Option.map_eq_some_iff.mp hrun
  have hr := Reach.of_exec_any hs
  have hkernel := ((allocation_sound (by omega) (by omega)).1 (by decide) (by decide) (by decide) hs₀ hr hk).mpr (by omega)
  have hrun' : ((UProcess.step BlockClient.residentPages ⟨{ world := () }, []⟩ (.malloc 4096)).bind fun t =>
      (t.heap.malloc BlockClient.residentPages 5000).map fun r => (t.live, r.2)) = some ([2181042176], 2181046272) := by
    decide +kernel
  obtain ⟨t, ht, hrun'⟩ := Option.bind_eq_some_iff.mp hrun'
  obtain ⟨⟨h', p⟩, hm, heq⟩ := Option.map_eq_some_iff.mp hrun'
  simp only [Prod.mk.injEq] at heq
  obtain ⟨hlive, rfl⟩ := heq
  have ht' : Reach (UProcess.step BlockClient.residentPages) UProcess.Safe ⟨{ world := () }, []⟩ t :=
    .step (.malloc 4096) .init (Nat.le_of_ble_eq_true rfl) ht
  have huser := ((allocation_sound (by omega) (by omega)).2 BlockClient.residentPages_local ht' hm).mpr (by omega)
  exact ⟨⟨s₀, s, h, hs₀, hs, hk, hkernel⟩, t, h', hlive, hm, huser⟩

/-- The first `kmalloc(0xFFFFFFFF)` returns the break although 0 bytes are allocated there; and without a size that wraps,
    a `malloc` of a process that freed the region at the break returns a pointer that is live. -/
theorem allocation_unsound :
    (∃ s₀ h, KClient.afterBoot 1024 768 = some s₀ ∧ s₀.heap.kmalloc 4294967295 = some (h, 4160753664) ∧
      ¬ Denotes kernelHeapStart kernelHeapMax h.extent s₀.live 4160753664 4294967295) ∧
    ∃ (s : UProcess Unit) (h : UHeap Unit),
      Reach (UProcess.step BlockClient.residentPages) (fun _ _ => True) ⟨{ world := () }, []⟩ s ∧
      s.live = [2181046272, 2181042176] ∧ s.heap.malloc BlockClient.residentPages 8192 = some (h, 2181046272) ∧
      ¬ Denotes userHeapStart userHeapMax h.extent s.live 2181046272 8192 := by
  have hrun : ((KClient.afterBoot 1024 768).bind fun s₀ => (s₀.heap.kmalloc 4294967295).map Prod.snd) = some 4160753664 := by
    rw [KClient.afterBoot_eq]
    decide +kernel
  obtain ⟨s₀, hs₀, hrun⟩ := Option.bind_eq_some_iff.mp hrun
  obtain ⟨⟨h, p⟩, hk, rfl⟩ := Option.map_eq_some_iff.mp hrun
  have hrun' : ((exec (UProcess.step BlockClient.residentPages) ⟨{ world := () }, []⟩
      [.malloc 4096, .malloc 8192, .free 2181046272, .malloc 12288]).bind fun t =>
        (t.heap.malloc BlockClient.residentPages 8192).map fun r => (t.live, r.2)) =
      some ([2181046272, 2181042176], 2181046272) := by
    decide +kernel
  obtain ⟨t, ht, hrun'⟩ := Option.bind_eq_some_iff.mp hrun'
  obtain ⟨⟨h', p⟩, hm, heq⟩ := Option.map_eq_some_iff.mp hrun'
  simp only [Prod.mk.injEq] at heq
  obtain ⟨hlive, rfl⟩ := heq
  refine ⟨⟨s₀, h, hs₀, hk, fun hd => absurd (hd.size_le (by decide)) (by omega)⟩, t, h',
    Reach.of_exec_any ht, hlive, hm, fun hd => ?_⟩
  have hapart := hd.alone 2181046272 (by rw [hlive]; exact List.mem_cons_self ..)
  have hsize := hd.fits.2
  simp only [Region.Apart, Region.stop] at hapart
  omega

end Fos.Heap
