import Fos.Heap.KHeapInv
import Fos.Lib.Reach

/-! Runs of `kmalloc` and `kfree` from the boot: the two lists partition the page area, and when every pointer has
    been freed the heap has returned everything, unless an allocation took a free region that fits exactly. -/

namespace Fos.Heap.KClient
open Lib Mem

/-- A call that takes a free region which fits exactly. -/
def ExactFit (s : KClient) : KHeapEvent → Prop
  | .kmalloc size => s.heap.ExactFit size
  | .kfree _ => False

/-- The live pointers are out, and what is not of the heap is as in `m₀`. -/
def Inv (all : List PageNo) (boot : PageNo → Nat) (m₀ : Frames) (s : KClient) (lost : List Nat) : Prop :=
  (∃ F, s.heap.Owned all boot [] F s.live lost) ∧ ∀ c, ¬ KHeap.HeapArea c → s.heap.mem.hold c = m₀.hold c

variable {all : List PageNo} {boot : PageNo → Nat} {m₀ : Frames} {s t : KClient} {lost : List Nat}

/-- Whether a call loses a node. -/
def Loses (s : KClient) (e : KHeapEvent) (lost lost' : List Nat) : Prop :=
  ¬ s.ExactFit e ∧ lost' = lost ∨ s.ExactFit e ∧ ∃ b, lost' = b :: lost

/-- One call keeps the invariant. -/
theorem Inv.step {e : KHeapEvent} (hi : Inv all boot m₀ s lost) (hs : s.step e = some t) :
    ∃ lost', Loses s e lost lost' ∧ Inv all boot m₀ t lost' := by
  cases e with
  | kmalloc size =>
    simp only [KClient.step, Option.ite_none_right_eq_some] at hs
    obtain ⟨hsize, hs⟩ := hs
    obtain ⟨⟨h, va⟩, hk, rfl⟩ := Option.map_eq_some_iff.mp hs
    obtain ⟨⟨F, howned⟩, hframe⟩ := hi
    obtain ⟨lost', hdone⟩ := howned.kmalloc hsize hk
    exact ⟨lost', hdone.loses, hdone.owned, fun c hc => (hdone.mapped.outside c hc).trans (hframe c hc)⟩
  | kfree va =>
    simp only [KClient.step, Option.ite_none_right_eq_some] at hs
    obtain ⟨hva, hs⟩ := hs
    obtain ⟨h, hk, rfl⟩ := Option.map_eq_some_iff.mp hs
    obtain ⟨⟨F, howned⟩, hframe⟩ := hi
    obtain ⟨howned', hhold, -⟩ := howned.kfree hva hk
    exact ⟨lost, .inl ⟨id, rfl⟩, howned', fun c hc => (hhold c hc).trans (hframe c hc)⟩

/-- A run keeps the invariant, and it loses a node exactly when one of its allocations fits exactly. -/
theorem Inv.exec {es : List KHeapEvent} (hi : Inv all boot m₀ s lost) (he : exec KClient.step s es = some t) :
    ∃ lost', Inv all boot m₀ t lost' ∧ (lost' = [] ↔ lost = [] ∧
      ∀ fs e gs u, es = fs ++ e :: gs → Lib.exec KClient.step s fs = some u → ¬ u.ExactFit e) := by
  induction es generalizing s lost with
  | nil =>
    cases he
    exact ⟨lost, hi, by simp⟩
  | cons e es ih =>
    obtain ⟨u, hu, he⟩ := exec_cons.mp he
    obtain ⟨lost₁, hloses, hi₁⟩ := hi.step hu
    obtain ⟨lost', hi', hiff⟩ := ih hi₁ he
    refine ⟨lost', hi', hiff.trans ?_⟩
    constructor
    · rintro ⟨rfl, hrest⟩
      obtain ⟨hnot, hlost⟩ : ¬ s.ExactFit e ∧ [] = lost := by
        rcases hloses with h | ⟨-, b, hb⟩
        · exact h
        · exact nomatch hb
      refine ⟨hlost.symm, fun fs f gs v hsplit hv => ?_⟩
      cases fs with
      | nil =>
        cases hsplit
        cases hv
        exact hnot
      | cons f' fs =>
        simp only [List.cons_append, List.cons.injEq] at hsplit
        obtain ⟨rfl, hsplit⟩ := hsplit
        obtain ⟨w, hw, hv⟩ := exec_cons.mp hv
        cases hu.symm.trans hw
        exact hrest fs f gs v hsplit hv
    · rintro ⟨rfl, hall⟩
      have hnot := hall [] e es s rfl rfl
      refine ⟨?_, fun fs f gs v hsplit hv => hall (e :: fs) f gs v (by rw [hsplit]; rfl) (exec_cons.mpr ⟨u, hu, hv⟩)⟩
      rcases hloses with ⟨-, h⟩ | ⟨hfit, -⟩
      · exact h
      · exact absurd hfit hnot

section
variable {n k : Nat} {s₀ : KClient}

theorem inv_boot (hmin : 160 ≤ n) (hn : n ≤ 1048576) (hk : 256 ≤ k) (hboot : afterBoot n k = some s₀) :
    Inv (Frames.bootFree n k) (Frames.bootReferences k) s₀.heap.mem s₀ [] ∧ ∀ c, s₀.heap.mem.hold c = none := by
  obtain ⟨h, hh, rfl⟩ := Option.map_eq_some_iff.mp hboot
  obtain ⟨⟨F, ha⟩, hnone⟩ := Frames.initializePaging_accounts hmin hn hk
  obtain ⟨hinv, hmem⟩ := KHeap.kheapInit_inv ha (fun p => hnone _) hh
  refine ⟨⟨⟨F, _, hinv, List.Perm.refl _⟩, fun _ _ => rfl⟩, ?_⟩
  rw [hmem]
  exact hnone

/-! ### The partition of the page area -/

/-- The lists `L` of the heap partition its page area, the free regions are in order of size and as large as they can
    be, and the allocated ones are mapped. -/
structure Partition (h : KHeap) (L : BulkList → List Nat) : Prop where
  links : h.bulks.Spells L
  sorted : h.bulks.Sorted (L .free)
  aligned : ∀ r ∈ h.bulks.regions (L .free) ++ h.bulks.regions (L .allocated),
    0 < r.size ∧ r.start % 4096 = 0 ∧ r.size % 4096 = 0
  tiles : Tiles h.kheapPageAllocStart h.kheapPageAllocBreak (h.bulks.regions (L .free) ++ h.bulks.regions (L .allocated))
  break_le : h.kheapPageAllocBreak ≤ kernelHeapMax
  coalesced : Coalesced (h.bulks.regions (L .free))
  top : ∀ r ∈ h.bulks.regions (L .free), r.stop ≠ h.kheapPageAllocBreak
  present : ∀ p : PageNo, h.kheapPageAllocStart ≤ p.val * 4096 → p.val * 4096 < kernelHeapMax →
    ((h.mem.pte (.kernel p)).present ↔
      ∃ r ∈ h.bulks.regions (L .allocated), r.start ≤ p.val * 4096 ∧ p.val * 4096 < r.stop)

theorem partition_of_inv {F handed : List PageNo} {h : KHeap} {L : BulkList → List Nat} {client : List Nat}
    (hinv : KHeap.Inv all boot handed F h L client lost) : Partition h L := by
  refine ⟨hinv.spells, hinv.sorted, fun r hr => ⟨(hinv.tiles.inside r hr).1, hinv.aligned r hr⟩, hinv.tiles, hinv.break_le,
    hinv.coalesced, hinv.top, fun p hle hlt => ?_⟩
  rw [hinv.page_start] at hle
  have hmapped := hinv.mapped (.kernel p) ⟨p, rfl, hle, hlt⟩
  have hhold : h.mem.hold (.kernel p) ≠ none ↔ (h.mem.pte (.kernel p)).present := by
    rw [ne_eq, Frames.hold_eq_none, Bool.not_eq_false]
  rw [← hhold, hmapped]
  refine exists_congr fun r => and_congr_right fun _ => ⟨?_, fun h => ⟨p, rfl, h⟩⟩
  rintro ⟨q, hq, h⟩
  cases hq
  exact h

theorem inv_reach (hmin : 160 ≤ n) (hn : n ≤ 1048576) (hk : 256 ≤ k) (hboot : afterBoot n k = some s₀)
    (hr : Reach KClient.step (fun _ _ => True) s₀ s) :
    ∃ lost, Inv (Frames.bootFree n k) (Frames.bootReferences k) s₀.heap.mem s lost := by
  refine hr.invariant (I := fun s => ∃ lost, Inv _ _ s₀.heap.mem s lost) ⟨[], (inv_boot hmin hn hk hboot).1⟩ ?_
  rintro s e t ⟨lost, hi⟩ - hs
  obtain ⟨lost', -, hi'⟩ := hi.step hs
  exact ⟨lost', hi'⟩

/-- In every run of `kmalloc` and `kfree` from the boot the two lists partition the page area. -/
theorem kheap_partition (hmin : 160 ≤ n) (hn : n ≤ 1048576) (hk : 256 ≤ k) (hboot : afterBoot n k = some s₀)
    (hr : Reach KClient.step (fun _ _ => True) s₀ s) : ∃ L, Partition s.heap L := by
  obtain ⟨lost, ⟨F, L, hinv, -⟩, -⟩ := inv_reach hmin hn hk hboot hr
  exact ⟨L, partition_of_inv hinv⟩

/-- Two regions are allocated and the lower one is freed. -/
theorem kheap_partition_free_lower : ∃ s₀ s, afterBoot 1024 768 = some s₀ ∧
    Reach KClient.step (fun _ _ => True) s₀ s ∧ s.live = [4160757760] ∧ ∃ L, Partition s.heap L := by
  have hrun : ((afterBoot 1024 768).bind fun s₀ =>
      (exec KClient.step s₀ [.kmalloc 4096, .kmalloc 8192, .kfree 4160753664]).map (·.live)) = some [4160757760] := by
    rw [KClient.afterBoot_eq]
    decide +kernel
  obtain ⟨s₀, hs₀, hrun⟩ := Option.bind_eq_some_iff.mp hrun
  obtain ⟨s, hs, hlive⟩ := Option.map_eq_some_iff.mp hrun
  have hr := Reach.of_exec (.init) hs fun _ _ _ _ _ _ => trivial
  exact ⟨s₀, s, hs₀, hr, hlive, kheap_partition (by decide) (by decide) (by decide) hs₀ hr⟩

/-! ### Nothing is lost -/

/-- The heap has given back all that it took since it was `h₀`: its lists are empty, the break is at the start, the
    pages of the block allocator are free, and there are as many free frames as before. -/
structure Returned (h₀ h : KHeap) : Prop where
  free : h.bulks.first .free = none
  allocated : h.bulks.first .allocated = none
  break_eq : h.kheapPageAllocBreak = h.kheapPageAllocStart
  pages : ∃ freePages, (h.da.pages.Spells fun _ => freePages) ∧ ∀ i < (h.da.dynAllocEnd - h.da.dynAllocStart) / 4096, i ∈ freePages
  frames : ∃ F F₀, (h.mem.freeFrameList.Spells fun _ => F) ∧ (h₀.mem.freeFrameList.Spells fun _ => F₀) ∧ F.length = F₀.length

theorem Inv.blockSize_of_returned {h₀ : KHeap} (hi : Inv all boot m₀ s lost) (hret : Returned h₀ s.heap) {i : Nat}
    (hlt : i < 8192) : s.heap.da.blockSize i = 0 := by
  obtain ⟨⟨F, L, hinv, -⟩, -⟩ := hi
  obtain ⟨cls, free, freePages, hda, -⟩ := hinv.blocks.inv
  obtain ⟨freePages', hspells, hall⟩ := hret.pages
  have hlt' : i < s.heap.da.totalPages := hinv.blocks.totalPages ▸ hlt
  have hmem : i ∈ freePages := by
    rw [hda.pages.toThreads.unique hspells.toThreads ()]
    exact hall i hlt'
  rw [hda.blockSize i hlt', ((hda.free_page i).mp hmem).2]
  rfl

theorem Inv.lost_of_returned {h₀ : KHeap} (hi : Inv all boot m₀ s lost) (hret : Returned h₀ s.heap) : lost = [] := by
  have hzero : ∀ i < 8192, _ := fun i => hi.blockSize_of_returned hret (i := i)
  obtain ⟨⟨F, L, hinv, -⟩, -⟩ := hi
  obtain ⟨cls, free, freePages, hda, -⟩ := hinv.blocks.inv
  refine List.eq_nil_iff_forall_not_mem.mpr fun b hb => ?_
  obtain ⟨c, hcls, -⟩ := hda.tiled.cls_of_handed (b := b) (by simp [hb])
  have hlt := hda.used_page _ c hcls
  have hsize := hda.blockSize _ hlt
  rw [hzero _ (hinv.blocks.totalPages ▸ hlt), hcls] at hsize
  have := (blockSize_le c).1
  simp only [Option.elim_some] at hsize
  omega

theorem blockArea_eq {c : Slot} (h : BlockArea c) : ∃ i < 8192, c = blockSlot i := by
  obtain ⟨p, rfl, hle, hlt⟩ := h
  refine ⟨p.val - 1007616, by omega, ?_⟩
  simp only [blockSlot, kernelHeapStart, Slot.kernel.injEq, Fin.ext_iff]
  rw [pageNo_val (by omega)]
  omega

/-- With no live pointer and no lost node the page area is empty, so no block is out and no page is mapped. -/
theorem Inv.returned {h₀ : KHeap} (hi : Inv all boot h₀.mem s []) (hlive : s.live = [])
    (ha₀ : ∃ F₀, h₀.mem.Accounts all boot F₀ []) (hnone : ∀ c, h₀.mem.hold c = none) : Returned h₀ s.heap := by
  obtain ⟨⟨F, L, hinv, hperm⟩, hframe⟩ := hi
  rw [hlive] at hperm hinv
  have halloc : L .allocated = [] := List.map_eq_nil_iff.mp hperm.eq_nil
  have hbreak : s.heap.kheapPageAllocBreak = s.heap.kheapPageAllocStart := by
    by_contra hne
    obtain ⟨r, hr, htop⟩ := hinv.tiles.exists_top (lt_of_le_of_ne hinv.tiles.le (Ne.symm hne))
    rw [halloc] at hr
    exact hinv.top r (by simpa [Bulks.regions] using hr) htop
  have hfree : L .free = [] := by
    refine List.eq_nil_iff_forall_not_mem.mpr fun b hb => ?_
    have hin := hinv.tiles.inside _ (List.mem_append_left _ (List.mem_map_of_mem hb))
    have := hinv.bounds_free hb
    rw [hbreak] at hin
    simp only [Region.stop, Bulks.region] at hin
    omega
  have hblocks := hinv.blocks
  rw [hfree, halloc] at hblocks
  obtain ⟨cls, free, freePages, hda, hmapped⟩ := hblocks.inv
  have hcls : ∀ i, cls i = none := by
    intro i
    cases hc : cls i with
    | none => rfl
    | some c =>
      obtain ⟨b, hb, -⟩ := hda.busy i c hc
      cases hb
  -- So no entry of the heap holds a frame, and the free frames are those of the beginning.
  have hhold : ∀ c, s.heap.mem.hold c = none := by
    intro c
    by_cases hblock : BlockArea c
    · obtain ⟨i, hi, rfl⟩ := blockArea_eq hblock
      exact (hmapped i hi).mpr (hcls i)
    · by_cases hpage : KHeap.PageArea c
      · by_contra hne
        obtain ⟨r, hr, -⟩ := (hinv.mapped c hpage).mp hne
        rw [halloc] at hr
        cases hr
      · rw [hframe c (not_or.mpr ⟨hblock, hpage⟩), hnone c]
  obtain ⟨F₀, ha₀⟩ := ha₀
  refine ⟨?_, ?_, hbreak, ⟨freePages, hda.pages, fun i hi => (hda.free_page i).mpr ⟨hi, hcls i⟩⟩,
    F, F₀, hinv.accounts.free, ha₀.free, ?_⟩
  · rw [hinv.spells.first .free, hfree]
    rfl
  · rw [hinv.spells.first .allocated, halloc]
    rfl
  · refine List.Perm.length_eq ((List.perm_ext_iff_of_nodup hinv.accounts.nodup ha₀.nodup).mpr fun f => ?_)
    rw [hinv.accounts.mem f, ha₀.mem f]
    simp [hhold, hnone]

/-- A run from the boot after which every pointer has been freed gives back everything exactly when none of its
    allocations takes a free region that fits exactly: the node of such a region is never freed. -/
theorem kheap_returned_iff (hmin : 160 ≤ n) (hn : n ≤ 1048576) (hk : 256 ≤ k) (hboot : afterBoot n k = some s₀)
    {es : List KHeapEvent} (hexec : exec KClient.step s₀ es = some s) (hlive : s.live = []) :
    Returned s₀.heap s.heap ↔
      ∀ fs e gs u, es = fs ++ e :: gs → exec KClient.step s₀ fs = some u → ¬ u.ExactFit e := by
  obtain ⟨hi₀, hnone⟩ := inv_boot hmin hn hk hboot
  obtain ⟨lost, hi, hiff⟩ := hi₀.exec hexec
  have hcond : lost = [] ↔ ∀ fs e gs u, es = fs ++ e :: gs → exec KClient.step s₀ fs = some u → ¬ u.ExactFit e :=
    hiff.trans (and_iff_right rfl)
  rw [← hcond]
  refine ⟨hi.lost_of_returned, ?_⟩
  rintro rfl
  obtain ⟨⟨F₀, L₀, hinv₀, -⟩, -⟩ := hi₀
  exact hi.returned hlive ⟨F₀, hinv₀.accounts⟩ hnone

/-- Two blocks of different sizes are allocated and freed. -/
theorem kheap_returned_iff_blocks : ∃ s₀ s, afterBoot 1024 768 = some s₀ ∧
    exec KClient.step s₀ [.kmalloc 2048, .kmalloc 1000, .kfree 4127195136, .kfree 4127199232] = some s ∧
      Returned s₀.heap s.heap := by
  have hrun : ((afterBoot 1024 768).bind fun s₀ =>
      (exec KClient.step s₀ [.kmalloc 2048, .kmalloc 1000, .kfree 4127195136, .kfree 4127199232]).map (·.live)) = some [] := by
    rw [KClient.afterBoot_eq]
    decide +kernel
  obtain ⟨s₀, hs₀, hrun⟩ := Option.bind_eq_some_iff.mp hrun
  obtain ⟨s, hs, hlive⟩ := Option.map_eq_some_iff.mp hrun
  refine ⟨s₀, s, hs₀, hs, (kheap_returned_iff (by decide) (by decide) (by decide) hs₀ hs hlive).mpr ?_⟩
  intro fs e gs u hsplit _
  have he : e ∈ [KHeapEvent.kmalloc 2048, .kmalloc 1000, .kfree 4127195136, .kfree 4127199232] := by
    rw [hsplit]
    simp
  simp only [List.mem_cons, List.not_mem_nil, or_false] at he
  rcases he with rfl | rfl | rfl | rfl
  · exact fun hfit => absurd hfit.1 (by decide)
  · exact fun hfit => absurd hfit.1 (by decide)
  · exact id
  · exact id

/-- Two regions are allocated, the lower one is freed and allocated again, and both are freed. The node of the region
    that was free in between is still out, and so is the page of the block allocator that it is on. -/
theorem kheap_leak : ∃ s₀ s, afterBoot 1024 768 = some s₀ ∧
    exec KClient.step s₀ [.kmalloc 4096, .kmalloc 4096, .kfree 4160753664, .kmalloc 4096, .kfree 4160757760, .kfree 4160753664] =
      some s ∧ s.live = [] ∧ ¬ Returned s₀.heap s.heap := by
  have hrun : ((afterBoot 1024 768).bind fun s₀ =>
      (exec KClient.step s₀ [.kmalloc 4096, .kmalloc 4096, .kfree 4160753664, .kmalloc 4096, .kfree 4160757760,
        .kfree 4160753664]).map fun s => (s.live, s.heap.da.blockSize 0)) = some ([], 16) := by
    rw [KClient.afterBoot_eq]
    decide +kernel
  obtain ⟨s₀, hs₀, hrun⟩ := Option.bind_eq_some_iff.mp hrun
  obtain ⟨s, hs, hres⟩ := Option.map_eq_some_iff.mp hrun
  simp only [Prod.mk.injEq] at hres
  obtain ⟨lost, hi, -⟩ := (inv_boot (by decide) (by decide) (by decide) hs₀).1.exec hs
  refine ⟨s₀, s, hs₀, hs, hres.1, fun hret => ?_⟩
  rw [hi.blockSize_of_returned hret (by decide)] at hres
  exact nomatch hres.2

end

end Fos.Heap.KClient
