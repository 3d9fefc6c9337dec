import Fos.Heap.KHeapFit

/-! `kfree` of a pointer that is out does not panic: the node of the region that is freed leaves room for the node that the
    free region may need. The nodes in the lists are blocks that have room for a `struct Bulk`. -/

namespace Fos.Heap
open Lib Mem

/-- A block for a node that is freed leaves room for a node. -/
theorem DynAlloc.Inv.room_after_free {σ : Type} {ops : PageOps σ} (hops : ops.Local) {w w' : σ} {d d' : DynAlloc}
    {cls : Nat → Option SizeClass} {free : SizeClass → List Nat} {freePages out : List Nat} {b : Nat}
    (h : Inv d cls free freePages out) (hb : b ∈ out) (hfit : sizeofBulk ≤ d.getBlockSize b)
    (hs : DynAlloc.freeBlock ops w d b = some (w', d')) :
    (∃ c : SizeClass, 1 ≤ c ∧ (d'.blocks.head c).first ≠ none) ∨ (d'.pages.head ()).first ≠ none := by
  have hdone := h.freeBlock hops hb hs
  obtain ⟨c, hcls, hslot⟩ := h.tiled.cls_of_handed hb
  rw [h.toRep.getBlockSize_eq hcls hslot] at hfit
  obtain ⟨cls', free', freePages', hinv', ⟨-, rfl⟩ | ⟨i, c', hi, rfl, -⟩⟩ := hdone.inv
  · -- The page stays in use, and the block is in the list of its class.
    have hone : ∀ c : SizeClass, sizeofBulk ≤ c.blockSize → 1 ≤ c := by decide
    refine .inl ⟨c, hone c hfit, fun hnone => ?_⟩
    have hempty := hinv'.toRep.first_none.mp hnone
    rw [← hdone.start_eq] at hcls hslot
    rcases hinv'.tiled.cover _ c b hcls hslot with hlisted | hout
    · rw [hempty] at hlisted
      exact List.not_mem_nil hlisted
    · exact h.tiled.out_nodup.not_mem_erase hout
  · refine .inr fun hnone => ?_
    have hpage : i ∈ freePages' := by
      refine (hinv'.free_page i).mpr ⟨?_, Function.update_self ..⟩
      have hlt := h.used_page i c' hi
      unfold DynAlloc.totalPages at hlt ⊢
      rwa [hdone.start_eq, hdone.end_eq]
    rw [hinv'.pages.eq_nil_of_first hnone] at hpage
    exact List.not_mem_nil hpage

namespace KHeap

variable {m m' : Frames} {all F handed : List PageNo} {boot : PageNo → Nat} {s s' : KHeap} {L L' : BulkList → List Nat}
  {client lost out ptrs : List Nat} {R : List Region} {r : Region} {b n va stop size fuel : Nat}

/-- The nodes `L` have room for a `struct Bulk`. -/
def Fits (s : KHeap) (L : BulkList → List Nat) : Prop := ∀ j, ∀ x ∈ L j, sizeofBulk ≤ s.da.getBlockSize x

/-- The nodes in the lists have room for a `struct Bulk`. -/
def NodesFit (s : KHeap) : Prop := ∀ L, s.bulks.Spells L → s.Fits L

theorem Fits.nodesFit (h : s.Fits L) (hspells : s.bulks.Spells L) : s.NodesFit := fun _ hspells' j x hx =>
  h j x (hspells.unique hspells' j ▸ hx)

theorem NodesFit.congr (h : s.NodesFit) (hda : s'.da = s.da) (hbulks : s'.bulks = s.bulks) : s'.NodesFit := by
  unfold NodesFit Fits
  rw [hda, hbulks]
  exact h

theorem Fits.update (h : s.Fits L) {l : List Nat} {i : BulkList} (hl : ∀ x ∈ l, sizeofBulk ≤ s.da.getBlockSize x) :
    s.Fits (Function.update L i l) := by
  intro j x hx
  by_cases hj : j = i
  · subst hj
    rw [Function.update_self] at hx
    exact hl x hx
  · rw [Function.update_of_ne hj] at hx
    exact h j x hx

/-! ### Blocks -/

theorem Blocks.freeBlock_kept (h : Blocks s out) (hb : b ∈ out) (hs : s.freeBlock b = some s') :
    s'.bulks = s.bulks ∧ ∀ x ∈ out, x ≠ b → s'.da.getBlockSize x = s.da.getBlockSize x := by
  obtain ⟨⟨m, d⟩, hfree, rfl⟩ := Option.map_eq_some_iff.mp hs
  obtain ⟨cls, free, freePages, hinv, -⟩ := h.inv
  exact ⟨rfl, (hinv.freeBlock kernelPages_local hb hfree).kept⟩

theorem Blocks.allocBlock_kept (h : Blocks s out) (hpos : 0 < size) (hs : s.allocBlock size = some (s', va)) :
    s'.bulks = s.bulks ∧ size ≤ s'.da.getBlockSize va ∧ ∀ x ∈ out, s'.da.getBlockSize x = s.da.getBlockSize x := by
  obtain ⟨⟨m, d, va'⟩, halloc, heq⟩ := Option.map_eq_some_iff.mp hs
  obtain ⟨rfl, rfl⟩ := Prod.mk.inj heq
  obtain ⟨cls, free, freePages, hinv, -⟩ := h.inv
  have hdone := hinv.allocBlock kernelPages_local hpos halloc
  exact ⟨rfl, hdone.fits, hdone.kept⟩

/-- The nodes are blocks that are out. -/
theorem Core.node_out (_ : Core all boot handed F s L client lost R) {j : BulkList} {x : Nat} (hx : x ∈ L j) :
    x ∈ L .free ++ (L .allocated ++ (client ++ lost)) := by
  cases j with
  | free => exact List.mem_append_left _ hx
  | allocated => exact List.mem_append_right _ (List.mem_append_left _ hx)

theorem Core.mem_erase_free (h : Core all boot handed F s L client lost R) (hb : b ∈ L .free) {j : BulkList} {x : Nat}
    (hx : x ∈ Function.update L .free ((L .free).erase b) j) : x ∈ L j ∧ x ≠ b := by
  cases j with
  | free =>
    rw [Function.update_self] at hx
    exact ⟨List.mem_of_mem_erase hx, fun heq => (h.spells.nodup .free).not_mem_erase (heq ▸ hx)⟩
  | allocated => exact ⟨hx, h.free_ne_allocated hb hx⟩

/-- When a node is freed, a node can be allocated, if some frame is not in use. -/
theorem Blocks.alloc_after_free (h : Blocks s out) (ha : s.mem.Accounts all boot F handed) (hb : b ∈ out)
    (hfit : sizeofBulk ≤ s.da.getBlockSize b) (hs : s.freeBlock b = some s') {f : PageNo} (hf : f ∈ F) :
    ∃ r, s'.allocBlock sizeofBulk = some r := by
  obtain ⟨m, d, rfl, ⟨F', ha'⟩, hblocks, -, hsub⟩ := h.freeBlock ha hb hs
  obtain ⟨⟨m₁, d₁⟩, hfree, heq⟩ := Option.map_eq_some_iff.mp hs
  obtain rfl : d₁ = d := congrArg KHeap.da heq
  obtain ⟨cls, free, freePages, hinv, -⟩ := h.inv
  have hroom := hinv.room_after_free kernelPages_local hb hfit hfree
  refine hblocks.allocBlock_some ha' hroom fun _ hnil => ?_
  obtain ⟨hall, hout, hunheld⟩ := (ha.mem f).mp hf
  have hmem := (ha'.mem f).mpr ⟨hall, hout, fun c hc => hunheld c (hsub c f hc)⟩
  rw [hnil] at hmem
  exact List.not_mem_nil hmem

/-! ### The parts of `kfree` -/

theorem unmapFrameRange_some (stop fuel : Nat) (h : m.Accounts all boot F handed) (hva : va % 4096 = 0) (hstop : stop % 4096 = 0)
    (hmax : stop ≤ kernelHeapMax) (hfuel : (stop - va) / 4096 < fuel) : ∃ m', unmapFrameRange m va stop fuel = some m' := by
  simp only [kernelHeapMax] at hmax
  induction fuel generalizing m F va with
  | zero => omega
  | succ fuel ih =>
    unfold unmapFrameRange
    by_cases hlt : va < stop
    · obtain ⟨m₁, F₁, hm₁, h₁, -⟩ := h.unmapFrame (.kernel (pageNo va))
      rw [if_pos hlt, hm₁, Option.bind_some, pageSize, u32_of_lt (by omega)]
      exact ih h₁ (by omega) (by omega)
    · exact ⟨m, if_neg hlt⟩

theorem Core.mergeBulks_some (h : Core all boot handed F s L client lost [r]) (hfits : s.Fits L)
    (hnode : ∃ x, s.allocBlock sizeofBulk = some x) : ∃ s', s.mergeBulks r.start r.size = some s' ∧ s'.NodesFit := by
  rcases h.mergeBulks_cases with ⟨t, l, b, -, ht, hperm, hspells, -⟩ | ⟨t, l, b, a, -, ha, ht, hperm, hspells, -⟩ |
    ⟨ht, hbefore, hafter⟩
  · refine ⟨_, ht, Fits.nodesFit (L := Function.update L .free l) ?_ hspells⟩
    exact hfits.update fun x hx => hfits .free x (hperm.mem_iff.mp hx)
  · rw [ht]
    have hblocks : Blocks { s with bulks := t } (L .free ++ (L .allocated ++ (client ++ lost))) :=
      h.blocks.congr rfl fun _ _ => rfl
    obtain ⟨s', hs'⟩ := hblocks.freeBlock_some h.accounts (h.node_out ha)
    obtain ⟨hbulks, hkept⟩ := hblocks.freeBlock_kept (h.node_out ha) hs'
    have hlists : ∀ j x, x ∈ Function.update L .free l j → x ∈ Function.update L .free ((L .free).erase a) j := by
      rintro (_ | _) x hx
      · rw [Function.update_self] at hx ⊢
        exact hperm.mem_iff.mp hx
      · exact hx
    refine ⟨s', hs', Fits.nodesFit (L := Function.update L .free l) (fun j x hx => ?_) (hbulks ▸ hspells)⟩
    obtain ⟨hx', hne⟩ := h.mem_erase_free ha (hlists j x hx)
    rw [hkept x (h.node_out hx') hne]
    exact hfits j x hx'
  · obtain ⟨⟨s₁, node⟩, halloc⟩ := hnode
    obtain ⟨hbulks, hfit, hkept⟩ := h.blocks.allocBlock_kept (by decide) halloc
    obtain ⟨m, d, heq, -, hblocks, -⟩ := h.blocks.allocBlock h.accounts (by decide) halloc
    have hnew := (List.nodup_cons.mp hblocks.nodup).1
    have hnull : node ≠ 0 := by
      have := (hblocks.bounds (List.mem_cons_self ..)).1
      simp only [kernelHeapStart] at this
      omega
    have hnot : ∀ j, node ∉ L j := fun j hj => hnew (h.node_out hj)
    obtain ⟨t, l, hadd, hperm, hspells, -⟩ := Bulks.addBulk_spec (r := r) h.spells hnot (h.length_lt .free) hbefore hafter
    refine ⟨{ s₁ with bulks := t }, ?_, Fits.nodesFit (L := Function.update L .free l) (fun j x hx => ?_) hspells⟩
    · rw [ht, halloc, Option.bind_some]
      simp only [hnull, if_false, hbulks, hadd, Option.map_some]
    · have hx' : x = node ∨ x ∈ L j := by
        cases j with
        | free =>
          rw [Function.update_self] at hx
          exact List.mem_cons.mp (hperm.mem_iff.mp hx)
        | allocated => exact .inr hx
      rcases hx' with rfl | hx'
      · exact hfit
      · exact (hkept x (h.node_out hx')).symm ▸ hfits j x hx'

theorem Core.lowerBreak_some (fuel : Nat) (h : Core all boot handed F s L client lost []) (hfits : s.Fits L)
    (hfuel : (L .free).length < fuel) : ∃ s', s.lowerBreak fuel = some s' ∧ s'.NodesFit := by
  induction fuel generalizing s F L with
  | zero => omega
  | succ fuel ih =>
    unfold KHeap.lowerBreak
    rcases Bulks.find_spec h.spells .free (h.length_lt .free)
      (fun b => u32 (s.bulks.start b + s.bulks.size b) = s.kheapPageAllocBreak) with ⟨b, hb, htop, hfind⟩ | ⟨-, hfind⟩
    · have hbounds := h.bounds_free hb
      have htop := of_decide_eq_true htop
      rw [u32_of_lt (by omega)] at htop
      rw [hfind, Option.bind_some]
      simp only [(Bulks.removeBulk_fields s.bulks b).1]
      have hblocks : Blocks { s with bulks := s.bulks.removeBulk b, kheapPageAllocBreak := s.bulks.start b }
          (L .free ++ (L .allocated ++ (client ++ lost))) := h.blocks.congr rfl fun _ _ => rfl
      obtain ⟨s₁, hs₁⟩ := hblocks.freeBlock_some h.accounts (h.node_out hb)
      obtain ⟨hbulks, hkept⟩ := hblocks.freeBlock_kept (h.node_out hb) hs₁
      obtain ⟨F₁, L₁, h₁, -⟩ := h.lower hb htop hs₁
      have hspells := Bulks.removeBulk_spells h.spells hb
      have hL : ∀ j, L₁ j = Function.update L .free ((L .free).erase b) j := fun j => by
        refine h₁.spells.unique ?_ j
        rw [hbulks]
        exact hspells
      rw [hs₁, Option.bind_some]
      refine ih h₁ (fun j x hx => ?_) ?_
      · rw [hL j] at hx
        obtain ⟨hx', hne⟩ := h.mem_erase_free hb hx
        rw [hkept x (h.node_out hx') hne]
        exact hfits j x hx'
      · rw [hL, Function.update_self, List.length_erase_of_mem hb]
        have := List.length_pos_of_mem hb
        omega
    · rw [hfind, Option.bind_some]
      exact ⟨s, rfl, hfits.nodesFit h.spells⟩

/-- A region can be freed, if its frames are mapped nowhere else. -/
theorem Inv.freeRegion_some (hi : Inv all boot handed F s L client lost) (hfits : s.Fits L)
    (hown : ∀ p f, s.mem.hold (.kernel p) = some f → ∀ c, s.mem.hold c = some f → c = .kernel p)
    (hva : va ∈ (L .allocated).map s.bulks.start) : ∃ s', s.freeRegion va = some s' ∧ s'.NodesFit := by
  obtain ⟨b₀, hb₀, hstart₀⟩ := List.mem_map.mp hva
  unfold KHeap.freeRegion
  rcases Bulks.find_spec hi.spells .allocated (hi.length_lt .allocated) (s.bulks.start · = va) with
    ⟨b, hb, -, hfind⟩ | ⟨hnone, -⟩
  · have hbounds := hi.bounds_allocated hb
    obtain ⟨m, hm⟩ := unmapFrameRange_some (s.bulks.start b + s.bulks.size b) walkFuel hi.accounts
      hbounds.2.2.2.1 (by omega) (by simp only [kernelHeapMax]; omega) (by simp only [walkFuel]; omega)
    have hrange : unmapFrameRange s.mem (s.bulks.start b) (u32 (s.bulks.start b + s.bulks.size b)) walkFuel = some m := by
      rwa [u32_of_lt (by omega)]
    obtain ⟨F₁, ha₁, hin, hout⟩ :=
      unmapFrameRange_spec hi.accounts hbounds.2.2.2.1 (by omega) (by simp only [kernelHeapMax]; omega) hm
    -- The frame of the first page is free now.
    have hfirst : Within (s.bulks.start b) (s.bulks.start b + s.bulks.size b) (.kernel (pageNo (s.bulks.start b))) :=
      (within_pageNo (by omega) hbounds.2.2.2.1).mpr (by omega)
    have harea : PageArea (.kernel (pageNo (s.bulks.start b))) := (within_pageNo (by omega) hbounds.2.2.2.1).mpr (by omega)
    obtain ⟨f, hf⟩ := Option.ne_none_iff_exists'.mp ((hi.mapped _ harea).mpr ⟨_, List.mem_map_of_mem hb, hfirst⟩)
    have hfree : f ∈ F₁ := by
      refine (ha₁.mem f).mpr ⟨hi.accounts.held _ f hf, fun hhanded => (hi.accounts.out_mem f hhanded).2 _ hf, fun c hc => ?_⟩
      by_cases hwithin : Within (s.bulks.start b) (s.bulks.start b + s.bulks.size b) c
      · cases (hin c hwithin).symm.trans hc
      · rw [hout c hwithin] at hc
        exact hwithin (hown _ f hf c hc ▸ hfirst)
    have hblocks₁ : Blocks { s with mem := m, bulks := s.bulks.unlinkAllocated b }
        (L .free ++ (L .allocated ++ (client ++ lost))) := by
      refine hi.blocks.congr rfl fun c hc => hout c ?_
      rintro ⟨p, rfl, hle, -⟩
      obtain ⟨q, hq, -, hlt⟩ := hc
      cases hq
      omega
    have hnode := hi.toCore.node_out hb
    obtain ⟨s₁, hs₁⟩ := hblocks₁.freeBlock_some ha₁ hnode
    obtain ⟨hbulks, hkept⟩ := hblocks₁.freeBlock_kept hnode hs₁
    obtain ⟨⟨F₂, h₁⟩, -, -⟩ := hi.unlink hb hrange hs₁
    have hfits₁ : s₁.Fits (Function.update L .allocated ((L .allocated).erase b)) := by
      intro j x hx
      have hx' : x ∈ L j ∧ x ≠ b := by
        cases j with
        | allocated =>
          rw [Function.update_self] at hx
          exact ⟨List.mem_of_mem_erase hx, fun heq => (hi.spells.nodup .allocated).not_mem_erase (heq ▸ hx)⟩
        | free => exact ⟨hx, fun heq => hi.toCore.free_ne_allocated (heq ▸ hx) hb rfl⟩
      rw [hkept x (hi.toCore.node_out hx'.1) hx'.2]
      exact hfits j x hx'.1
    obtain ⟨s₂, hs₂, hfits₂⟩ := h₁.mergeBulks_some (r := s.bulks.region b) hfits₁
      (hblocks₁.alloc_after_free ha₁ hnode (hfits .allocated b hb) hs₁ hfree)
    obtain ⟨F₃, L₂, h₂, -⟩ := h₁.mergeBulks (r := s.bulks.region b) hs₂
    obtain ⟨s', hs', hfits'⟩ := h₂.lowerBreak_some walkFuel (hfits₂ L₂ h₂.spells) (h₂.length_lt .free)
    refine ⟨s', ?_, hfits'⟩
    simp only [hfind, Option.bind_some, hrange, (Bulks.unlinkAllocated_fields s.bulks b).1,
      (Bulks.unlinkAllocated_fields s.bulks b).2, hs₁]
    exact Option.bind_eq_some_iff.mpr ⟨s₂, hs₂, hs'⟩
  · have := of_decide_eq_false (hnone b₀ hb₀)
    exact absurd hstart₀ this

/-! ### The calls -/

/-- `kfree` of a pointer that is out returns, and the nodes fit after it. -/
theorem Owned.kfree_returns (h : Owned all boot handed F s ptrs lost) (hnodes : s.NodesFit)
    (hown : ∀ p f, s.mem.hold (.kernel p) = some f → ∀ c, s.mem.hold c = some f → c = .kernel p) (hva : va ∈ ptrs) :
    ∃ s', s.kfree va = some s' ∧ s'.NodesFit := by
  obtain ⟨L, hinv, hstarts⟩ := h
  by_cases hblock : va < 4160749568
  · have hmem : va ∈ ptrs.filter (· < 4160749568) := List.mem_filter.mpr ⟨hva, by simpa using hblock⟩
    obtain ⟨s', hs'⟩ := hinv.kfree_block_some hmem
    have hfree := hinv.kfree_eq_freeBlock hmem ▸ hs'
    have hout : va ∈ L .free ++ (L .allocated ++ (ptrs.filter (· < 4160749568) ++ lost)) := by simp [hmem]
    obtain ⟨hbulks, hkept⟩ := hinv.blocks.freeBlock_kept hout hfree
    have hne : ∀ j, va ∉ L j := by
      have hnodup := hinv.blocks.nodup
      rintro (_ | _) hva
      · exact ne_of_nodup_append hnodup hva (by simp [hmem])
      · exact ne_of_nodup_append (List.nodup_append.mp hnodup).2.1 hva (by simp [hmem])
    refine ⟨s', hs', Fits.nodesFit (L := L) (fun j x hx => ?_) (hbulks ▸ hinv.spells)⟩
    rw [hkept x (hinv.toCore.node_out hx) fun heq => hne j (heq ▸ hx)]
    exact hnodes L hinv.spells j x hx
  · have hmem : va ∈ (L .allocated).map s.bulks.start :=
      hstarts.mem_iff.mpr (List.mem_filter.mpr ⟨hva, by simp; omega⟩)
    rw [hinv.kfree_region hmem]
    exact hinv.freeRegion_some (hnodes L hinv.spells) hown hmem

/-- The node of a new region has room. -/
theorem Inv.allocRegion_fits (hi : Inv all boot handed F s L client lost) (hfits : s.Fits L) {t : Bulks} {l : List Nat}
    (hspells : t.Spells (Function.update L .free l)) (hl : ∀ x ∈ l, x ∈ L .free)
    (hs : allocRegion { s with bulks := t } va n = some s') : s'.NodesFit := by
  obtain ⟨m, -, hs⟩ := Option.bind_eq_some_iff.mp hs
  obtain ⟨⟨s₁, x⟩, halloc, rfl⟩ := Option.map_eq_some_iff.mp hs
  obtain ⟨⟨m₁, d, node⟩, hd, heq⟩ := Option.map_eq_some_iff.mp halloc
  obtain ⟨rfl, rfl⟩ := Prod.mk.inj heq
  obtain ⟨cls, free, freePages, hinv, -⟩ := hi.blocks.inv
  have hdone := hinv.allocBlock kernelPages_local (show 0 < sizeofBulk by decide) hd
  obtain ⟨cls', free', freePages', hinv', -⟩ := hdone.inv
  have hnew := (List.nodup_cons.mp hinv'.tiled.out_nodup).1
  have hlists : ∀ j x, x ∈ Function.update L .free l j → x ∈ L j := by
    rintro (_ | _) x hx
    · rw [Function.update_self] at hx
      exact hl x hx
    · exact hx
  have hnot : ∀ j, node ∉ Function.update L .free l j := fun j hj => hnew (hi.toCore.node_out (hlists j _ hj))
  refine Fits.nodesFit ?_ (Bulks.pushAllocated_spells hspells hnot va n)
  have hkept : Fits { s with mem := m₁, da := d, bulks := t.pushAllocated node va n } (Function.update L .free l) :=
    fun j x hx => (hdone.kept x (hi.toCore.node_out (hlists j x hx))).symm ▸ hfits j x (hlists j x hx)
  refine hkept.update fun x hx => ?_
  rcases List.mem_cons.mp hx with rfl | hx
  · exact hdone.fits
  · exact hkept .allocated x hx

theorem Inv.extendBreak_fits (hi : Inv all boot handed F s L client lost) (hfits : s.Fits L)
    (hs : s.extendBreak n = some (s', va)) : s'.NodesFit := by
  have hspells : s.bulks.Spells (Function.update L .free (L .free)) := by
    rw [Function.update_eq_self]
    exact hi.spells
  unfold extendBreak at hs
  split at hs
  · cases hs
    exact hfits.nodesFit hi.spells
  split at hs
  · cases hs
    exact hfits.nodesFit hi.spells
  split at hs
  · cases hs
    exact hfits.nodesFit hi.spells
  · obtain ⟨s₁, hs₁, heq⟩ := Option.map_eq_some_iff.mp hs
    obtain ⟨rfl, rfl⟩ := Prod.mk.inj heq
    exact (hi.allocRegion_fits hfits hspells (fun _ hx => hx) hs₁).congr rfl rfl

theorem Inv.pageAllocCustomFit_fits (hi : Inv all boot handed F s L client lost) (hfits : s.Fits L)
    (hs : s.pageAllocCustomFit n = some (s', va)) : s'.NodesFit := by
  unfold KHeap.pageAllocCustomFit at hs
  rcases hi.exactFit_cases n with ⟨b, hb, -, hfit⟩ | ⟨-, hfit⟩
  · rw [hfit, Option.bind_some] at hs
    obtain ⟨s₁, hs₁, heq⟩ := Option.map_eq_some_iff.mp hs
    obtain ⟨rfl, rfl⟩ := Prod.mk.inj heq
    exact hi.allocRegion_fits hfits (Bulks.removeBulk_spells hi.spells hb) (fun _ hx => List.mem_of_mem_erase hx) hs₁
  · rw [hfit, Option.bind_some] at hs
    cases hfirst : s.bulks.first .free with
    | none =>
      simp only [hfirst] at hs
      exact hi.extendBreak_fits hfits hs
    | some bb =>
      simp only [hfirst] at hs
      split at hs
      case isTrue hlt =>
        have hbb := hi.spells.mem_of_first hfirst
        have hbounds := hi.bounds_free hbb
        obtain ⟨t, ht, hs⟩ := Option.bind_eq_some_iff.mp hs
        obtain ⟨s₁, hs₁, heq⟩ := Option.map_eq_some_iff.mp hs
        obtain ⟨rfl, rfl⟩ := Prod.mk.inj heq
        obtain ⟨t', l, ht', hperm, hspells, -⟩ :=
          Bulks.takeFront_spec hi.spells hbb (hi.length_lt .free) (Nat.le_of_lt hlt) (by omega)
        cases ht.symm.trans ht'
        exact hi.allocRegion_fits hfits hspells (fun x hx => hperm.mem_iff.mp hx) hs₁
      case isFalse => exact hi.extendBreak_fits hfits hs

/-- `kmalloc` keeps the nodes in order. -/
theorem Owned.kmalloc_fits (h : Owned all boot handed F s ptrs lost) (hnodes : s.NodesFit)
    (hs : s.kmalloc size = some (s', va)) : s'.NodesFit := by
  obtain ⟨L, hinv, -⟩ := h
  have hfits := hnodes L hinv.spells
  unfold KHeap.kmalloc at hs
  split at hs
  case isTrue =>
    cases hs
    exact hnodes
  case isFalse hpos =>
    split at hs
    case isTrue =>
      obtain ⟨hbulks, -, hkept⟩ := hinv.blocks.allocBlock_kept (Nat.pos_of_ne_zero hpos) hs
      exact Fits.nodesFit (fun j x hx => (hkept x (hinv.toCore.node_out hx)).symm ▸ hfits j x hx) (hbulks ▸ hinv.spells)
    case isFalse => exact hinv.pageAllocCustomFit_fits hfits hs

end KHeap

end Fos.Heap
