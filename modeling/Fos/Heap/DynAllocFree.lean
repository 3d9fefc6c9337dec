import Fos.Heap.DynAllocChoice
import Fos.Heap.KHeapRun

/-! Freeing all blocks that are out, in any order. Every `free_block` keeps the invariant of the allocator, and when no
    block is out the invariant leaves no page in use. -/

namespace Fos.Heap
open Lib Mem

variable {σ : Type} {ops : PageOps σ} {ok : σ → Prop}

/-- `return_page` does not panic in the states `ok`, and leads to one of them. -/
structure PageOps.Returns (ops : PageOps σ) (ok : σ → Prop) : Prop where
  returnPage : ∀ {w}, ok w → ∀ m va, ∃ w' m', ops.returnPage w m va = some (w', m') ∧ ok w'

/-- The same operations with the addresses of the pages given back, the last one first. -/
def PageOps.logged (ops : PageOps σ) : PageOps (σ × List Nat) where
  getPage w m va := (ops.getPage w.1 m va).map fun (w', m') => ((w', w.2), m')
  returnPage w m va := (ops.returnPage w.1 m va).map fun (w', m') => ((w', va :: w.2), m')

theorem PageOps.Local.logged (h : ops.Local) : ops.logged.Local where
  getPage := by
    intro w m va w' m' hs a ha
    obtain ⟨⟨w₁, m₁⟩, hget, heq⟩ := Option.map_eq_some_iff.mp hs
    cases heq
    exact h.getPage hget a ha
  returnPage := by
    intro w m va w' m' hs a ha
    obtain ⟨⟨w₁, m₁⟩, hret, heq⟩ := Option.map_eq_some_iff.mp hs
    cases heq
    exact h.returnPage hret a ha

namespace DynAlloc

/-- `free_block` of one block after the other. -/
def freeAll (ops : PageOps σ) (w : σ) (d : DynAlloc) : List Nat → Option (σ × DynAlloc)
  | [] => some (w, d)
  | va :: vas => (freeBlock ops w d va).bind fun (w, d) => freeAll ops w d vas

/-- Every page is in `freePagesList` once, with both counters 0, and all lists of free blocks are empty. -/
structure AllFree (d : DynAlloc) : Prop where
  pages : ∃ freePages, (d.pages.Spells fun _ => freePages) ∧ freePages.Nodup ∧ ∀ i, i ∈ freePages ↔ i < d.totalPages
  blockSize : ∀ i, i < d.totalPages → d.blockSize i = 0
  numOfFreeBlocks : ∀ i, i < d.totalPages → d.numOfFreeBlocks i = 0
  blocks : d.blocks.Spells fun _ => []

variable {d d' : DynAlloc} {cls : Nat → Option SizeClass} {free : SizeClass → List Nat} {freePages out order : List Nat}
  {w w' : σ} {log : List Nat} {va : Nat}

/-- The log is not read. -/
theorem freeBlock_logged (w : σ) (log : List Nat) (d : DynAlloc) (va : Nat) :
    freeBlock ops w d va = (freeBlock ops.logged (w, log) d va).map fun r => (r.1.1, r.2) := by
  unfold freeBlock
  split
  case isFalse => rfl
  case isTrue =>
    dsimp only
    split
    case isTrue => rfl
    case isFalse =>
      split
      case isFalse => rfl
      case isTrue =>
        simp only [PageOps.logged, Option.map_bind, Option.map_map, Function.comp_def]

theorem freeAll_logged (w : σ) (log : List Nat) (d : DynAlloc) (order : List Nat) :
    freeAll ops w d order = (freeAll ops.logged (w, log) d order).map fun r => (r.1.1, r.2) := by
  induction order generalizing w log d with
  | nil => rfl
  | cons va vas ih =>
    unfold freeAll
    rw [freeBlock_logged w log d va]
    cases freeBlock ops.logged (w, log) d va with
    | none => rfl
    | some r => exact ih r.1.1 r.1.2 r.2

/-- With no block out no page is in use. -/
theorem Inv.unused (h : Inv d cls free freePages []) (i : Nat) : cls i = none := by
  cases hi : cls i with
  | none => rfl
  | some c =>
    obtain ⟨b, hb, -⟩ := h.busy i c hi
    exact nomatch hb

theorem Inv.allFree (h : Inv d cls free freePages []) : AllFree d where
  pages := ⟨freePages, h.pages, h.pages.nodup (), fun i => (h.free_page i).trans (and_iff_left (h.unused i))⟩
  blockSize := fun i hi => by
    rw [h.blockSize i hi, h.unused i]
    rfl
  numOfFreeBlocks := fun i hi => by
    rw [h.numFree i hi, h.unused i]
    rfl
  blocks := by
    have hempty : free = fun _ => [] := by
      funext c
      refine List.eq_nil_iff_forall_not_mem.mpr fun b hb => ?_
      have hcls := (h.tiled.cls_of_listed hb).1
      rw [h.unused] at hcls
      exact nomatch hcls
    exact hempty ▸ h.blocks

/-- A page in use has a block size. -/
theorem Inv.inUse_iff (h : Inv d cls free freePages out) (i : Nat) :
    (∃ c, cls i = some c) ↔ i < d.totalPages ∧ d.blockSize i ≠ 0 := by
  constructor
  · rintro ⟨c, hc⟩
    have hlt := h.used_page i c hc
    refine ⟨hlt, ?_⟩
    rw [h.blockSize i hlt, hc]
    have := (blockSize_le c).1
    show c.blockSize ≠ 0
    omega
  · rintro ⟨hlt, hsize⟩
    rw [h.blockSize i hlt] at hsize
    cases hc : cls i with
    | none => exact absurd (by rw [hc]; rfl) hsize
    | some c => exact ⟨c, rfl⟩

theorem base_inj {start i j : Nat} (h : (slabs start).base i = (slabs start).base j) : i = j := by
  simp only [Slabs.base, slabs, pageSize] at h
  omega

/-- One block: either no page is given back, or the page of the block, which leaves its class. -/
theorem Inv.freeBlock_step (hops : ops.Local) (hret : ops.Returns ok) (h : Inv d cls free freePages out)
    (hpos : 0 < d.dynAllocStart) (hva : va ∈ out) (hw : ok w) (log : List Nat) :
    ∃ w' d' cls' free' freePages' log', DynAlloc.freeBlock ops.logged (w, log) d va = some ((w', log'), d') ∧ ok w' ∧
      d'.dynAllocStart = d.dynAllocStart ∧ Inv d' cls' free' freePages' (out.erase va) ∧
      (log' = log ∧ cls' = cls ∨
        ∃ i c, cls i = some c ∧ cls' = Function.update cls i none ∧ log' = (slabs d.dynAllocStart).base i :: log) := by
  obtain ⟨⟨⟨w', log'⟩, d'⟩, hfree⟩ : ∃ r, DynAlloc.freeBlock ops.logged (w, log) d va = some r := by
    refine h.freeBlock_some hva hpos fun link i c _ => ?_
    obtain ⟨w', m', hs, -⟩ := hret.returnPage hw link ((slabs d.dynAllocStart).base i)
    exact ⟨_, congrArg (Option.map _) hs⟩
  have hdone := h.freeBlock hops.logged hva hfree
  obtain ⟨cls', free', freePages', hinv, ⟨hsame, hcls⟩ | ⟨i, c, hi, hcls, m, m', hpage⟩⟩ := hdone.inv
  · cases hsame
    exact ⟨w, d', cls', free', freePages', log, hfree, hw, hdone.start_eq, hinv, .inl ⟨rfl, hcls⟩⟩
  · obtain ⟨⟨w₁, m₁⟩, hpage, heq⟩ := Option.map_eq_some_iff.mp hpage
    obtain ⟨w₂, m₂, hpage', hok⟩ := hret.returnPage hw m ((slabs d.dynAllocStart).base i)
    cases hpage.symm.trans hpage'
    cases heq
    exact ⟨w', d', cls', free', freePages', _, hfree, hok, hdone.start_eq, hinv, .inr ⟨i, c, hi, hcls, rfl⟩⟩

/-- The blocks are freed one after the other. The induction is on the blocks still out; the pages given back so far are those
    that were in use and are not any more. -/
theorem Inv.freeAll (hops : ops.Local) (hret : ops.Returns ok) (h : Inv d cls free freePages out) (hpos : 0 < d.dynAllocStart)
    (hp : out.Perm order) (hw : ok w) (log : List Nat) :
    ∃ w' d' log', DynAlloc.freeAll ops.logged (w, log) d order = some ((w', log' ++ log), d') ∧ AllFree d' ∧ log'.Nodup ∧
      ∀ va, va ∈ log' ↔ ∃ i, (∃ c, cls i = some c) ∧ va = (slabs d.dynAllocStart).base i := by
  induction order generalizing w d cls free freePages out log with
  | nil =>
    cases hp.eq_nil
    refine ⟨w, d, [], rfl, h.allFree, List.nodup_nil, fun va => ⟨nofun, ?_⟩⟩
    rintro ⟨i, ⟨c, hc⟩, -⟩
    exact nomatch (h.unused i).symm.trans hc
  | cons b order ih =>
    have hb : b ∈ out := hp.mem_iff.mpr (List.mem_cons_self ..)
    obtain ⟨w₁, d₁, cls₁, free₁, freePages₁, log₁, hfree, hok, hstart, hinv, hpages⟩ := h.freeBlock_step hops hret hpos hb hw log
    have hp' : (out.erase b).Perm order := by
      have := hp.erase b
      rwa [List.erase_cons_head] at this
    obtain ⟨w', d', log', hrest, hall, hnodup, hlog⟩ := ih hinv (hstart ▸ hpos) hp' hok log₁
    rw [hstart] at hlog
    unfold DynAlloc.freeAll
    rw [hfree, Option.bind_some]
    rcases hpages with ⟨rfl, rfl⟩ | ⟨i, c, hi, rfl, rfl⟩
    · exact ⟨w', d', log', hrest, hall, hnodup, hlog⟩
    · have hother : ∀ j, (∃ c, Function.update cls i none j = some c) ↔ j ≠ i ∧ ∃ c, cls j = some c := by
        intro j
        rcases eq_or_ne j i with rfl | hne
        · simp
        · simp [hne]
      have hnot : (slabs d.dynAllocStart).base i ∉ log' := by
        rw [hlog]
        rintro ⟨j, hj, heq⟩
        exact ((hother j).mp hj).1 (base_inj heq.symm)
      refine ⟨w', d', log' ++ [(slabs d.dynAllocStart).base i], by simpa using hrest, hall, ?_, fun va => ?_⟩
      · exact hnodup.append (List.nodup_singleton _) (List.disjoint_singleton.mpr hnot)
      · rw [List.mem_append, List.mem_singleton, hlog]
        constructor
        · rintro (⟨j, hj, rfl⟩ | rfl)
          · exact ⟨j, ((hother j).mp hj).2, rfl⟩
          · exact ⟨i, ⟨c, hi⟩, rfl⟩
        · rintro ⟨j, hj, rfl⟩
          rcases eq_or_ne j i with rfl | hne
          · exact .inr rfl
          · exact .inl ⟨j, (hother j).mpr ⟨hne, hj⟩, rfl⟩

end DynAlloc

/-- The kernel's `return_page` only unmaps a page of the kernel, which never panics. -/
theorem kernelPages_returns {all : List PageNo} {boot : PageNo → Nat} :
    kernelPages.Returns fun m => ∃ F out, Frames.Accounts m all boot F out where
  returnPage := by
    rintro m ⟨F, out, h⟩ link va
    obtain ⟨m', F', hm', h', -⟩ := h.unmapFrame (.kernel (pageNo (roundDown va pageSize)))
    exact ⟨m', link, congrArg (Option.map _) hm', F', out, h'⟩

namespace BlockClient

variable {s : BlockClient σ}

/-- In every run from `initialize_dynamic_allocator` on an area that does not start at the null pointer, freeing each of
    the client's blocks once, in any order, leaves the allocator with all pages free and no free block, and gives back each
    page that was in use exactly once and no other page. -/
theorem free_all_restores (hops : ops.Local) (hret : ops.Returns ok) {d d₀ : DynAlloc} {w : σ} {daStart daEnd : Nat}
    (hnull : 0 < daStart) (hstart : daStart % 4096 = 0) (hend : daEnd % 4096 = 0) (hle : daStart ≤ daEnd)
    (hlt : daEnd < 4294967296) (hmax : daEnd ≤ daStart + dynAllocMaxSize)
    (hd : d.initializeDynamicAllocator daStart daEnd = some d₀)
    (hr : Reach (sharedStep ops) (fun _ _ => True) ⟨w, d₀, []⟩ s) (hok : ok s.world) {order : List Nat}
    (horder : s.blocks.Perm order) :
    ∃ w' d' given, DynAlloc.freeAll ops s.world s.da order = some (w', d') ∧
      DynAlloc.freeAll ops.logged (s.world, []) s.da order = some ((w', given), d') ∧ d'.AllFree ∧ given.Nodup ∧
      ∀ va, va ∈ given ↔ ∃ i < s.da.totalPages, s.da.blockSize i ≠ 0 ∧ va = s.da.dynAllocStart + i * 4096 := by
  obtain ⟨hinit, hstart₀, -⟩ := DynAlloc.initializeDynamicAllocator_inv hstart hend hle hlt hmax hd
  have hinit' : @Inv σ ⟨w, d₀, []⟩ := ⟨⟨_, _, _, hinit⟩, nofun⟩
  obtain ⟨⟨⟨cls, free, freePages, h⟩, -⟩, hpos⟩ := hr.invariant (I := fun s => Inv s ∧ 0 < s.da.dynAllocStart)
    ⟨hinit', hnull.trans_eq hstart₀.symm⟩ fun _ _ _ hi _ hs => hi.1.sharedStep hops hi.2 hs
  obtain ⟨w', d', given, hfree, hall, hnodup, hgiven⟩ := h.freeAll hops hret hpos horder hok []
  rw [List.append_nil] at hfree
  refine ⟨w', d', given, ?_, hfree, hall, hnodup, fun va => (hgiven va).trans ?_⟩
  · rw [DynAlloc.freeAll_logged s.world [], hfree]
    rfl
  · simp only [h.inUse_iff, and_assoc]
    rfl

/-- `alloc_block` in the kernel keeps the accounts of its frames. -/
theorem kernel_alloc {s t : BlockClient Frames} {all F handed : List PageNo} {boot : PageNo → Nat} {size : Nat}
    (hb : KHeap.Blocks { mem := s.world, da := s.da } s.blocks) (ha : s.world.Accounts all boot F handed)
    (hs : sharedStep kernelPages s (.client (.alloc size)) = some t) :
    KHeap.Blocks { mem := t.world, da := t.da } t.blocks ∧ ∃ F', t.world.Accounts all boot F' handed := by
  simp only [BlockClient.sharedStep, BlockClient.step, Option.ite_none_right_eq_some, Option.map_eq_some_iff] at hs
  obtain ⟨⟨hpos, -⟩, ⟨m, d, va⟩, halloc, rfl⟩ := hs
  have halloc' : KHeap.allocBlock { mem := s.world, da := s.da } size = some ({ mem := m, da := d }, va) :=
    congrArg (Option.map _) halloc
  obtain ⟨m', d', heq, hF', hb', -⟩ := hb.allocBlock ha hpos halloc'
  cases heq
  exact ⟨hb', hF'⟩

/-- The block allocator after `kheap_init`. -/
theorem kheapInit_blocks {m : Frames} {all F handed : List PageNo} {boot : PageNo → Nat} {h : KHeap}
    (ha : m.Accounts all boot F handed) (hnone : ∀ p, m.hold (.kernel p) = none) (hh : KHeap.kheapInit { mem := m } = some h) :
    DynAlloc.initializeDynamicAllocator {} kernelHeapStart 4160749568 = some h.da ∧ h.mem.Accounts all boot F handed ∧
      KHeap.Blocks { mem := h.mem, da := h.da } [] := by
  obtain ⟨hinv, hmem⟩ := KHeap.kheapInit_inv ha hnone hh
  obtain ⟨d₀, hd, rfl⟩ := Option.map_eq_some_iff.mp hh
  exact ⟨hd, ha, hinv.blocks.congr rfl fun _ _ => rfl⟩

/-- The kernel allocates a block of 2048 bytes and one of 8 bytes and frees the older one first. -/
theorem free_all_restores_kernel : ∃ s₀ s w' d', KClient.afterBoot 1024 768 = some s₀ ∧
    exec (sharedStep kernelPages) ⟨s₀.heap.mem, s₀.heap.da, []⟩ [.client (.alloc 2000), .client (.alloc 8)] = some s ∧
    DynAlloc.freeAll kernelPages s.world s.da [4127195136, 4127199232] = some (w', d') ∧ d'.AllFree := by
  have hrun : ((KClient.afterBoot 1024 768).bind fun s₀ =>
      (exec (sharedStep kernelPages) ⟨s₀.heap.mem, s₀.heap.da, []⟩ [.client (.alloc 2000), .client (.alloc 8)]).map
        BlockClient.blocks) = some [4127199232, 4127195136] := by
    rw [KClient.afterBoot_eq]
    decide +kernel
  obtain ⟨s₀, hboot, hrun⟩ := Option.bind_eq_some_iff.mp hrun
  obtain ⟨s, hs, hblocks⟩ := Option.map_eq_some_iff.mp hrun
  obtain ⟨⟨F, ha⟩, hnone⟩ := Frames.initializePaging_accounts (show 160 ≤ 1024 by decide) (by decide) (show 256 ≤ 768 by decide)
  obtain ⟨h, hh, rfl⟩ := Option.map_eq_some_iff.mp hboot
  obtain ⟨hd, ha₀, hblocks₀⟩ := kheapInit_blocks ha (fun p => hnone _) hh
  obtain ⟨s₁, hs₁, hrest⟩ := exec_cons.mp hs
  obtain ⟨s₂, hs₂, heq⟩ := exec_cons.mp hrest
  cases heq
  obtain ⟨hblocks₁, F₁, ha₁⟩ := kernel_alloc hblocks₀ ha₀ hs₁
  obtain ⟨-, F₂, ha₂⟩ := kernel_alloc hblocks₁ ha₁ hs₂
  have horder : s.blocks.Perm [4127195136, 4127199232] := hblocks ▸ List.Perm.swap ..
  obtain ⟨w', d', given, hfree, -, hall, -⟩ := free_all_restores kernelPages_local kernelPages_returns (by decide) (by decide)
    (by decide) (by decide) (by decide) (by decide) hd (.of_exec_any hs) ⟨F₂, _, ha₂⟩ horder
  exact ⟨_, s, w', d', hboot, hs, hfree, hall⟩

end BlockClient

end Fos.Heap
