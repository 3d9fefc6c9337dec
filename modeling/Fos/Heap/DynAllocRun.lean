import Fos.Heap.DynAllocInv

/-! Runs of the block allocator by a client that frees only blocks it holds and writes only inside them. -/

namespace Fos.Heap
open Lib

/-- The allocator, the state behind `get_page` and `return_page`, and what the code does not store: the blocks
    that the client holds, each with the size it asked for. -/
structure BlockClient (σ : Type) where
  world : σ
  da : DynAlloc
  held : List (Nat × Nat) := []

inductive BlockEvent where
  | alloc (size : Nat)
  | free (va : Nat)
  /-- The client writes into the cell at `a`. -/
  | store (a : Nat) (link : Link Nat)

namespace BlockClient

variable {σ : Type}

def blocks (s : BlockClient σ) : List Nat := s.held.map Prod.fst

def step (ops : PageOps σ) (s : BlockClient σ) : BlockEvent → Option (BlockClient σ)
  | .alloc size =>
    if 0 < size ∧ size ≤ 2048 then
      (DynAlloc.allocBlock ops s.world s.da size).map fun (w, d, va) =>
        { world := w, da := d, held := (va, size) :: s.held }
    else none
  | .free va =>
    if va ∈ s.blocks then
      (DynAlloc.freeBlock ops s.world s.da va).map fun (w, d) =>
        { world := w, da := d, held := s.held.filter (·.1 ≠ va) }
    else none
  | .store a link =>
    if ∃ b ∈ s.blocks, b ≤ a ∧ a < b + s.da.getBlockSize b then
      some { s with da := { s.da with blocks := { s.da.blocks with link := Function.update s.da.blocks.link a link } } }
    else none

/-- The allocator represents some free lists, with the client's blocks out and large enough. -/
def Inv (s : BlockClient σ) : Prop :=
  (∃ cls free freePages, s.da.Inv cls free freePages s.blocks) ∧ ∀ p ∈ s.held, p.2 ≤ s.da.getBlockSize p.1

variable {ops : PageOps σ} {s t : BlockClient σ}

theorem Inv.step {e : BlockEvent} (hops : ops.Local) (h : Inv s) (hs : s.step ops e = some t) : Inv t := by
  obtain ⟨⟨cls, free, freePages, hinv⟩, hfits⟩ := h
  cases e with
  | alloc size =>
    simp only [BlockClient.step, Option.ite_none_right_eq_some, Option.map_eq_some_iff] at hs
    obtain ⟨⟨hpos, -⟩, ⟨w, d, va⟩, halloc, rfl⟩ := hs
    have hdone := hinv.allocBlock hops hpos halloc
    obtain ⟨cls', free', freePages', hinv', -⟩ := hdone.inv
    refine ⟨⟨cls', free', freePages', hinv'⟩, fun p hp => ?_⟩
    rcases List.mem_cons.mp hp with rfl | hp
    · exact hdone.fits
    · rw [hdone.kept p.1 (List.mem_map_of_mem hp)]
      exact hfits p hp
  | free va =>
    simp only [BlockClient.step, Option.ite_none_right_eq_some, Option.map_eq_some_iff] at hs
    obtain ⟨hva, ⟨w, d⟩, hfree, rfl⟩ := hs
    have hdone := hinv.freeBlock hops hva hfree
    obtain ⟨cls', free', freePages', hinv', -⟩ := hdone.inv
    have hblocks : s.blocks.erase va = (s.held.filter (·.1 ≠ va)).map Prod.fst := by
      rw [hinv.tiled.out_nodup.erase_eq_filter, blocks, List.filter_map]
      congr 2
      funext p
      simp [bne, Bool.beq_eq_decide_eq]
    rw [hblocks] at hinv'
    refine ⟨⟨cls', free', freePages', hinv'⟩, fun p hp => ?_⟩
    obtain ⟨hp, hne⟩ := List.mem_filter.mp hp
    rw [hdone.kept p.1 (List.mem_map_of_mem hp) (by simpa using hne)]
    exact hfits p hp
  | store a link =>
    simp only [BlockClient.step, Option.ite_none_right_eq_some] at hs
    obtain ⟨⟨b, hb, hle, hlt⟩, hs⟩ := hs
    cases hs
    obtain ⟨c, hcls, hslot⟩ := hinv.tiled.cls_of_handed hb
    rw [hinv.toRep.getBlockSize_eq hcls hslot] at hlt
    refine ⟨⟨cls, free, freePages, ⟨hinv.toRep.congr_link fun c' x hx => ?_, hinv.busy⟩⟩, hfits⟩
    rw [Function.update_of_ne]
    rintro rfl
    exact hinv.toRep.not_inside hb hcls hslot hx ⟨hle, hlt⟩

/-! ### What holds in every state -/

/-- Page `i` of the area is in use for blocks of class `c`: its counter is the number of its free blocks, and its
    free blocks and the blocks of it that are out lie in it and cover each address of it exactly once. -/
structure PageInUse (d : DynAlloc) (free : SizeClass → List Nat) (out : List Nat) (i : Nat) (c : SizeClass) : Prop where
  blockSize : d.blockSize i = c.blockSize
  numFree : d.numOfFreeBlocks i = ((free c).filter fun b => (b - d.dynAllocStart) / 4096 = i).length
  inside : ∀ b, b ∈ free c ∨ b ∈ out → (b - d.dynAllocStart) / 4096 = i →
    d.dynAllocStart + i * 4096 ≤ b ∧ b + c.blockSize ≤ d.dynAllocStart + i * 4096 + 4096
  tile : ∀ a, d.dynAllocStart + i * 4096 ≤ a → a < d.dynAllocStart + i * 4096 + 4096 →
    ∃! b, (b ∈ free c ∨ b ∈ out) ∧ (b - d.dynAllocStart) / 4096 = i ∧ b ≤ a ∧ a < b + c.blockSize
  apart : ∀ b ∈ free c, b ∉ out

theorem pageInUse {d : DynAlloc} {cls : Nat → Option SizeClass} {free : SizeClass → List Nat}
    {freePages out : List Nat} {i : Nat} {c : SizeClass} (h : d.Inv cls free freePages out) (hi : cls i = some c) :
    PageInUse d free out i c := by
  have hlt := h.used_page i c hi
  have hslot : ∀ b, b ∈ free c ∨ b ∈ out → (slabs d.dynAllocStart).pageOf b = i →
      b ∈ (slabs d.dynAllocStart).slots c i := by
    rintro b (hb | hb) rfl
    · exact (h.tiled.cls_of_listed hb).2
    · obtain ⟨c', hc', hslot⟩ := h.tiled.cls_of_handed hb
      exact Option.some.inj (hc'.symm.trans hi) ▸ hslot
  refine ⟨by rw [h.blockSize i hlt, hi]; rfl, ?_, fun b hb hpage => Slabs.slot_bounds (hslot b hb hpage),
    fun a hle hlt => ?_, fun b hb => h.tiled.apart c b hb⟩
  · rw [h.numFree i hlt, hi]
    exact List.countP_eq_length_filter ..
  · obtain ⟨b, hb, hba, hab⟩ := Slabs.exists_slot (S := slabs d.dynAllocStart) (i := i) hle hlt c
    refine ⟨b, ⟨h.tiled.cover i c b hi hb, Slabs.pageOf_slot hb, hba, hab⟩, ?_⟩
    rintro b' ⟨hb', hpage, hba', hab'⟩
    by_contra hne
    have hapart := Slabs.slots_apart (hslot b' hb' hpage) hb hne
    simp only [slabs_size] at hapart hab
    omega

/-- In every run from `initialize_dynamic_allocator`, the lists of the allocator spell lists of free pages and
    free blocks such that every page is free or tiled by its blocks, every list holds only blocks of its size, and
    the blocks that the client holds do not overlap, lie in the area and are as large as it asked for. -/
theorem dynAlloc_representation (hops : ops.Local) {d d₀ : DynAlloc} {w : σ} {daStart daEnd : Nat}
    (hstart : daStart % 4096 = 0) (hend : daEnd % 4096 = 0) (hle : daStart ≤ daEnd) (hlt : daEnd < 4294967296)
    (hmax : daEnd ≤ daStart + dynAllocMaxSize) (hd : d.initializeDynamicAllocator daStart daEnd = some d₀)
    (hr : Reach (BlockClient.step ops) (fun _ _ => True) ⟨w, d₀, []⟩ s) :
    ∃ (freePages : List Nat) (free : SizeClass → List Nat),
      (s.da.pages.Spells fun _ => freePages) ∧ s.da.blocks.Spells free ∧
      (∀ i < (s.da.dynAllocEnd - s.da.dynAllocStart) / 4096,
        freePages.count i = 1 ∧ s.da.blockSize i = 0 ∧ s.da.numOfFreeBlocks i = 0 ∨
          i ∉ freePages ∧ ∃ c, PageInUse s.da free s.blocks i c) ∧
      (∀ c, (free c).Nodup ∧ ∀ b ∈ free c, s.da.getBlockSize b = c.blockSize) ∧
      s.held.Pairwise (fun p q =>
        p.1 + s.da.getBlockSize p.1 ≤ q.1 ∨ q.1 + s.da.getBlockSize q.1 ≤ p.1) ∧
      ∀ p ∈ s.held, s.da.dynAllocStart ≤ p.1 ∧ p.1 + s.da.getBlockSize p.1 ≤ s.da.dynAllocEnd ∧
        p.2 ≤ s.da.getBlockSize p.1 := by
  have hinit : @Inv σ ⟨w, d₀, []⟩ :=
    ⟨⟨_, _, _, (DynAlloc.initializeDynamicAllocator_inv hstart hend hle hlt hmax hd).1⟩, nofun⟩
  obtain ⟨⟨cls, free, freePages, h⟩, hfits⟩ := hr.invariant (I := Inv) hinit fun _ _ _ hi _ hs => hi.step hops hs
  refine ⟨freePages, free, h.pages, h.blocks, fun i hi => ?_, fun c => ⟨h.tiled.free_nodup c, fun b hb => ?_⟩, ?_,
    fun p hp => ?_⟩
  · cases hcls : cls i with
    | none =>
      have hmem : i ∈ freePages := (h.free_page i).mpr ⟨hi, hcls⟩
      refine .inl ⟨List.count_eq_one_of_mem (h.pages.nodup ()) hmem, ?_, ?_⟩
      · rw [h.blockSize i hi, hcls]
        rfl
      · rw [h.numFree i hi, hcls]
        rfl
    | some c =>
      refine .inr ⟨fun hmem => ?_, c, pageInUse h hcls⟩
      rw [((h.free_page i).mp hmem).2] at hcls
      cases hcls
  · obtain ⟨hcls, hslot⟩ := h.tiled.cls_of_listed hb
    exact h.toRep.getBlockSize_eq hcls hslot
  · have hne : s.held.Pairwise (fun p q => p.1 ≠ q.1) := List.pairwise_map.mp h.tiled.out_nodup
    refine hne.imp_of_mem fun {p q} hp hq hpq => ?_
    obtain ⟨c, hcls, hslot⟩ := h.tiled.cls_of_handed (List.mem_map_of_mem hp)
    obtain ⟨c', hcls', hslot'⟩ := h.tiled.cls_of_handed (List.mem_map_of_mem hq)
    rw [h.toRep.getBlockSize_eq hcls hslot, h.toRep.getBlockSize_eq hcls' hslot']
    exact Tiled.blocks_apart hcls hcls' hslot hslot' hpq
  · obtain ⟨c, hcls, hslot⟩ := h.tiled.cls_of_handed (List.mem_map_of_mem hp)
    have hbounds := h.toRep.slot_bounds hcls hslot
    have := hfits p hp
    rw [h.toRep.getBlockSize_eq hcls hslot] at this ⊢
    exact ⟨hbounds.1, hbounds.2, this⟩

/-- An area whose pages are always there. -/
def residentPages : PageOps Unit := ⟨fun w m _ => some (w, m), fun w m _ => some (w, m)⟩

theorem residentPages_local : residentPages.Local :=
  ⟨fun h a _ => by cases h; rfl, fun h a _ => by cases h; rfl⟩

/-- An area of two pages. -/
def twoPages : DynAlloc := (DynAlloc.initializeDynamicAllocator {} 2147483648 2147491840).getD {}

/-- A client of an area of two pages asks for 2000 bytes and gets a block of 2048. -/
theorem dynAlloc_representation_alloc : ∃ s : BlockClient Unit, s.held = [(2147483648, 2000)] ∧
    s.da.dynAllocStart ≤ 2147483648 ∧ 2147483648 + s.da.getBlockSize 2147483648 ≤ s.da.dynAllocEnd := by
  have hd : DynAlloc.initializeDynamicAllocator {} 2147483648 2147491840 = some twoPages := rfl
  have hr : Reach (BlockClient.step residentPages) (fun _ _ => True) ⟨(), twoPages, []⟩ _ :=
    .step (.alloc 2000) .init trivial rfl
  obtain ⟨_, _, _, _, _, _, _, hheld⟩ := dynAlloc_representation residentPages_local (by decide) (by decide)
    (by decide) (by decide) (by decide) hd hr
  exact ⟨_, rfl, (hheld (2147483648, 2000) (by decide)).1, (hheld (2147483648, 2000) (by decide)).2.1⟩

end BlockClient

end Fos.Heap
