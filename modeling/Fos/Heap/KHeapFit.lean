import Fos.Heap.KHeapRun
import Fos.Heap.DynAllocChoice

/-! Where `page_alloc_custom_fit` places a region: in a free region of exactly the size, else at the front of a largest
    one, else at the break. With a block for the node and enough free frames the call returns. -/

namespace Fos.Mem.Frames

variable {m m' : Frames} {all F F' out : List PageNo} {boot : PageNo → Nat} {c : Slot} {f : PageNo} {va : Nat} {perm : BitVec 12}

theorem Accounts.allocateFrame_some (h : Accounts m all boot F out) (hF : F ≠ []) : ∃ r, m.allocateFrame = some r := by
  obtain ⟨f, hf⟩ := Option.ne_none_iff_exists'.mp (mt List.head?_eq_none_iff.mp hF)
  exact ⟨_, congrArg _ ((h.free.first ()).trans hf)⟩

/-- An empty entry can be mapped when a frame is free. -/
theorem Accounts.mapNewFrame_some (h : Accounts m all boot F out) (hc : m.hold c = none) (hF : F ≠ []) (va : Nat)
    (perm : BitVec 12) : ∃ m', m.mapNewFrame c va perm = some m' := by
  obtain ⟨⟨m₁, f⟩, halloc⟩ := h.allocateFrame_some hF
  obtain ⟨-, -, hpte, -⟩ := h.allocateFrame halloc
  have hpresent : (m₁.pte c).present = false := hpte ▸ hold_eq_none.mp hc
  refine ⟨m₁.install c f va perm, ?_⟩
  simp only [Frames.mapNewFrame, halloc, Option.bind_some, Frames.mapFrame, hpresent, Bool.false_eq_true, if_false]

/-- The mapping of an empty entry takes one frame from the free list. -/
theorem Accounts.length_attach (h : Accounts m all boot F out) (h' : Accounts m' all boot F' out) (hc : m.hold c = none)
    (hf : f ∈ F) (hhold : m'.hold = Function.update m.hold c (some f)) : F'.length + 1 = F.length := by
  have hperm : F'.Perm (F.erase f) := by
    refine (List.perm_ext_iff_of_nodup h'.nodup (h.nodup.erase f)).mpr fun g => ?_
    rw [h.nodup.mem_erase_iff, h'.mem g, h.mem g, hhold]
    constructor
    · rintro ⟨hall, hout, hnone⟩
      refine ⟨?_, hall, hout, fun x hx => hnone x ?_⟩
      · rintro rfl
        exact hnone c (Function.update_self ..)
      · have hxc : x ≠ c := by
          rintro rfl
          rw [hc] at hx
          exact nomatch hx
        rw [Function.update_of_ne hxc, hx]
    · rintro ⟨hgf, hall, hout, hnone⟩
      refine ⟨hall, hout, fun x hx => ?_⟩
      by_cases hxc : x = c
      · rw [hxc, Function.update_self] at hx
        exact hgf (Option.some.inj hx).symm
      · rw [Function.update_of_ne hxc] at hx
        exact hnone x hx
  rw [hperm.length_eq, List.length_erase_of_mem hf]
  have := List.length_pos_of_mem hf
  omega

end Fos.Mem.Frames

namespace Fos.Heap
open Lib Mem

variable {m m' : Frames} {all F F' handed : List PageNo} {boot : PageNo → Nat} {va stop : Nat}

/-- A range of empty entries can be mapped when there are as many free frames, and it takes so many. -/
theorem mapFrameRange_some {fuel : Nat} (h : m.Accounts all boot F handed) (hva : va % 4096 = 0)
    (hstop : stop % 4096 = 0) (hmax : stop ≤ kernelHeapMax) (hle : va ≤ stop) (hfree : ∀ c, Within va stop c → m.hold c = none)
    (hfuel : (stop - va) / 4096 < fuel) (hframes : (stop - va) / 4096 ≤ F.length) :
    ∃ m' F', mapFrameRange m va stop fuel = some m' ∧ m'.Accounts all boot F' handed ∧
      F'.length + (stop - va) / 4096 = F.length := by
  simp only [kernelHeapMax] at hmax
  induction fuel generalizing m va F with
  | zero => exact absurd hfuel (Nat.not_lt_zero _)
  | succ fuel ih =>
    unfold mapFrameRange
    rcases Nat.eq_or_lt_of_le hle with rfl | hlt
    · rw [if_neg (Nat.lt_irrefl _)]
      exact ⟨m, F, rfl, h, by omega⟩
    · have hwithin := fun c => @within_cons va stop c hlt hmax hva
      have hnone : m.hold (.kernel (pageNo va)) = none := hfree _ ((hwithin _).mpr (.inl rfl))
      have hF : F ≠ [] := by
        rintro rfl
        simp only [List.length_nil] at hframes
        omega
      obtain ⟨m₁, hm₁⟩ := h.mapNewFrame_some hnone hF va permWriteable
      obtain ⟨f, hf, F₁, h₁, hhold⟩ := h.mapNewFrame (by decide) (fun _ => rfl) hm₁
      have hlen := h.length_attach h₁ hnone hf hhold
      have hfree₁ : ∀ c, Within (va + 4096) stop c → m₁.hold c = none := by
        intro c hc
        have hne : c ≠ .kernel (pageNo va) := by
          rintro rfl
          rw [within_pageNo (by omega) hva] at hc
          omega
        rw [hhold, Function.update_of_ne hne]
        exact hfree c ((hwithin c).mpr (.inr hc))
      obtain ⟨m', F', hm', h', hcount⟩ := ih h₁ (by omega) (by omega) hfree₁ (by omega) (by omega)
      rw [if_pos hlt, hm₁, Option.bind_some, pageSize, u32_of_lt (by omega)]
      exact ⟨m', F', hm', h', by omega⟩

namespace KHeap

variable {s s' : KHeap} {out : List Nat} {L : BulkList → List Nat} {client lost : List Nat} {r : Region} {n size b : Nat}

/-! ### Room for a region -/

/-- The node of a region needs a page of its own: there is no free block of 16 bytes, but a free page. -/
def NodeNeedsPage (s : KHeap) : Prop := (s.da.blocks.head 1).first = none ∧ (s.da.pages.head ()).first ≠ none

instance (s : KHeap) : Decidable s.NodeNeedsPage := inferInstanceAs (Decidable (_ ∧ _))

/-- A block for the node and the frames of a region of `n` bytes are available. -/
structure Room (s : KHeap) (n : Nat) : Prop where
  node : (∃ c : SizeClass, 1 ≤ c ∧ (s.da.blocks.head c).first ≠ none) ∨ (s.da.pages.head ()).first ≠ none
  frames : ∃ F, (s.mem.freeFrameList.Spells fun _ => F) ∧ n / 4096 + (if s.NodeNeedsPage then 1 else 0) ≤ F.length

theorem getPage_some {i : Nat} (ha : m.Accounts all boot F handed) (hF : F ≠ []) (hnone : m.hold (blockSlot i) = none)
    (link : Nat → Link Nat) : ∃ r, kernelPages.getPage m link (kernelHeapStart + i * 4096) = some r := by
  have hround : roundDown (kernelHeapStart + i * 4096) pageSize = kernelHeapStart + i * 4096 :=
    roundDown_self (by simp only [kernelHeapStart]; omega)
  obtain ⟨m', hm'⟩ := ha.mapNewFrame_some hnone hF (kernelHeapStart + i * 4096) permWriteable
  have halloc : m.allocPage (blockSlot i) (kernelHeapStart + i * 4096) permWriteable = some (m', true) := by
    unfold Frames.allocPage
    rw [ha.getFrameInfo, hnone, Option.bind_some]
    exact congrArg (Option.map (·, true)) hm'
  simp only [kernelPages, hround]
  exact ⟨_, congrArg _ halloc⟩

/-- `alloc_block` finds a block for a node. -/
theorem Blocks.allocBlock_some (h : Blocks s out) (ha : s.mem.Accounts all boot F handed)
    (hnode : (∃ c : SizeClass, 1 ≤ c ∧ (s.da.blocks.head c).first ≠ none) ∨ (s.da.pages.head ()).first ≠ none)
    (hpage : s.NodeNeedsPage → F ≠ []) : ∃ r, s.allocBlock sizeofBulk = some r := by
  obtain ⟨cls, free, freePages, hinv, hmapped⟩ := h.inv
  obtain ⟨c, hc, hchooses⟩ := hinv.toRep.allocBlock_chooses (w := s.mem) kernelPages_local (by rw [h.dyn_start]; decide)
    (show 0 < sizeofBulk by decide) (by decide)
  have hone : IsLeast {c : SizeClass | sizeofBulk ≤ c.blockSize} 1 := ⟨by decide, fun c => by revert c; decide⟩
  obtain rfl : c = 1 := hc.unique hone
  have hsome : DynAlloc.allocBlock kernelPages s.mem s.da sizeofBulk ≠ none := by
    rw [ne_eq, hchooses.panics]
    rintro (⟨hempty, hpages⟩ | ⟨hempty, i, hi, hget⟩)
    · rcases hnode with ⟨c, hle, hne⟩ | hne
      · exact hne (hinv.toRep.first_none.mpr (hempty c hle))
      · rw [hinv.pages.first (), hpages] at hne
        exact hne rfl
    · have hneeds : s.NodeNeedsPage := by
        refine ⟨hinv.toRep.first_none.mpr hempty, ?_⟩
        rw [hinv.pages.first ()]
        exact ne_of_eq_of_ne hi (Option.some_ne_none i)
      obtain ⟨hlt, hnone⟩ := (hinv.free_page i).mp (List.mem_of_head? hi)
      rw [h.totalPages] at hlt
      obtain ⟨r, hr⟩ := getPage_some ha (hpage hneeds) ((hmapped i hlt).mpr hnone) s.da.blocks.link
      rw [h.dyn_start, hr] at hget
      exact nomatch hget
  obtain ⟨r, hr⟩ := Option.ne_none_iff_exists'.mp hsome
  exact ⟨_, congrArg _ hr⟩

theorem allocRegion_some (ha : s.mem.Accounts all boot F handed) (hblocks : Blocks s out) (hva : va % 4096 = 0)
    (hn : n % 4096 = 0) (hmin : 4160753664 ≤ va) (hmax : va + n ≤ 4294963200)
    (hfree : ∀ c, Within va (va + n) c → s.mem.hold c = none) (hroom : s.Room n) (t : Bulks) :
    ∃ s', allocRegion { s with bulks := t } va n = some s' := by
  obtain ⟨F₀, hF₀, hlen⟩ := hroom.frames
  obtain rfl : F = F₀ := by
    refine Spelled.eq_of_head (a := []) (b := []) (ha.free.spelled ()) (hF₀.spelled ()) ?_
    rw [← ha.free.first (), ← hF₀.first ()]
  obtain ⟨m₁, F₁, hm₁, ha₁, hcount⟩ := mapFrameRange_some ha hva (by omega) hmax (by omega) hfree
    (show (va + n - va) / 4096 < walkFuel by simp only [walkFuel]; omega) (by omega)
  obtain ⟨-, -, hmap, -⟩ := mapFrameRange_spec ha hva (by omega) hmax hfree hm₁
  have hblocks₁ : Blocks { s with bulks := t, mem := m₁ } out := by
    refine hblocks.congr rfl fun c hc => hmap.outside c fun hin => ?_
    obtain ⟨p, rfl, hle, -⟩ := hin
    obtain ⟨q, hq, -, hlt⟩ := hc
    cases hq
    omega
  have hpage : s.NodeNeedsPage → F₁ ≠ [] := by
    intro hneeds
    rw [if_pos hneeds] at hlen
    rintro rfl
    simp only [List.length_nil] at hcount
    omega
  obtain ⟨⟨s₂, node⟩, hs₂⟩ := hblocks₁.allocBlock_some ha₁ hroom.node hpage
  unfold allocRegion
  rw [u32_of_lt (by omega), hm₁, Option.bind_some, hs₂]
  exact ⟨_, rfl⟩

/-! ### The policy -/

/-- Where a region of `n` bytes is placed when `R` are the free regions and `brk` is the break: its address, the free
    regions afterwards and the break afterwards. -/
inductive Placed (R : List Region) (brk n : Nat) : Nat → List Region → Nat → Prop
  | exact {r : Region} : r ∈ R → r.size = n → Placed R brk n r.start (R.erase r) brk
  | largest {r : Region} : (∀ q ∈ R, q.size ≠ n) → r ∈ R → (∀ q ∈ R, q.size ≤ r.size) → n < r.size →
      Placed R brk n r.start (⟨r.start + n, r.size - n⟩ :: R.erase r) brk
  | atBreak : (∀ q ∈ R, q.size < n) → n ≤ kernelHeapMax - brk → Placed R brk n brk R (brk + n)
  | null : (∀ q ∈ R, q.size < n) → kernelHeapMax - brk < n → Placed R brk n 0 R brk

/-- The entries of a region that overlaps no allocated one are empty. -/
theorem Core.unmapped {R : List Region} (h : Core all boot handed F s L client lost R) (hmin : 4160753664 ≤ r.start)
    (hmax : r.stop ≤ 4294963200) (hapart : ∀ q ∈ s.bulks.regions (L .allocated), r.Apart q) :
    ∀ c, Within r.start r.stop c → s.mem.hold c = none := by
  intro c hc
  have harea : PageArea c := by
    obtain ⟨p, rfl, hle, hlt⟩ := hc
    exact ⟨p, rfl, by omega, by omega⟩
  by_contra hne
  obtain ⟨q, hq, hqc⟩ := (h.mapped c harea).mp hne
  exact within_overlap hc hqc (hapart q hq)

theorem Inv.unmapped_free (hi : Inv all boot handed F s L client lost) (hb : b ∈ L .free) (hn : n ≤ s.bulks.size b) :
    ∀ c, Within (s.bulks.start b) (s.bulks.start b + n) c → s.mem.hold c = none := by
  have hbounds := hi.bounds_free hb
  have hall := hi.unmapped (r := s.bulks.region b) hbounds.2.1 hbounds.2.2.1 fun q hq =>
    (List.pairwise_append.mp hi.tiles.apart).2.2 _ (List.mem_map_of_mem hb) q hq
  rintro c ⟨p, rfl, hle, hlt⟩
  exact hall _ ⟨p, rfl, hle, hlt.trans_le (Nat.add_le_add_left hn _)⟩

theorem Inv.unmapped_above (hi : Inv all boot handed F s L client lost) (hfits : s.kheapPageAllocBreak + n ≤ 4294963200) :
    ∀ c, Within s.kheapPageAllocBreak (s.kheapPageAllocBreak + n) c → s.mem.hold c = none :=
  hi.unmapped (r := ⟨s.kheapPageAllocBreak, n⟩) hi.break_ge hfits fun q hq =>
    .inr (hi.tiles.inside q (List.mem_append_right _ hq)).2.2

/-- The new node leaves the free list as it is. -/
theorem allocRegion_free (ha : s.mem.Accounts all boot F handed) (hblocks : Blocks s out) (hva : va % 4096 = 0)
    (hn : n % 4096 = 0) (hmin : 4160753664 ≤ va) (hmax : va + n ≤ 4294963200)
    (hfree : ∀ c, Within va (va + n) c → s.mem.hold c = none) {t : Bulks} (hspells : t.Spells L)
    (hout : ∀ j, ∀ x ∈ L j, x ∈ out) (hs : allocRegion { s with bulks := t } va n = some s') :
    ∃ L', s'.bulks.Spells L' ∧ s'.bulks.regions (L' .free) = t.regions (L .free) := by
  obtain ⟨m, d, node, rfl, -, hblocks', -, -⟩ := allocRegion_spec ha hblocks hva hn hmin hmax hfree hs
  have hnode := (List.nodup_cons.mp hblocks'.nodup).1
  have hnot : ∀ j, node ∉ L j := fun j hmem => hnode (hout j node hmem)
  obtain ⟨hstart, hsize⟩ := Bulks.pushAllocated_fields t node va n
  refine ⟨_, Bulks.pushAllocated_spells hspells hnot va n, ?_⟩
  rw [Function.update_of_ne (by decide)]
  refine Bulks.regions_congr fun x hx => ?_
  have hne : x ≠ node := fun heq => hnot .free (heq ▸ hx)
  rw [hstart, hsize, Function.update_of_ne hne, Function.update_of_ne hne]
  exact ⟨rfl, rfl⟩

/-- What a call returned, and where it placed the region. -/
def Places (s : KHeap) (L : BulkList → List Nat) (n : Nat) (s' : KHeap) (va : Nat) : Prop :=
  ∃ L' R, s'.bulks.Spells L' ∧ (s'.bulks.regions (L' .free)).Perm R ∧
    Placed (s.bulks.regions (L .free)) s.kheapPageAllocBreak n va R s'.kheapPageAllocBreak

theorem update_subset {l : List Nat} (hl : l ⊆ L .free) (j : BulkList) : Function.update L .free l j ⊆ L j := by
  cases j with
  | free => simpa using hl
  | allocated => simp

theorem regions_erase {l : List Nat} (hb : b ∈ l) :
    (s.bulks.regions (l.erase b)).Perm ((s.bulks.regions l).erase (s.bulks.region b)) := by
  have hperm := (Bulks.regions_erase_perm (s := s.bulks) hb).erase (s.bulks.region b)
  rw [List.erase_cons_head] at hperm
  exact hperm.symm

theorem Inv.node_out (_ : Inv all boot handed F s L client lost) (j : BulkList) {x : Nat} (hx : x ∈ L j) :
    x ∈ L .free ++ (L .allocated ++ (client ++ lost)) := by
  cases j with
  | free => exact List.mem_append_left _ hx
  | allocated => exact List.mem_append_right _ (List.mem_append_left _ hx)

theorem Inv.places_exact (hi : Inv all boot handed F s L client lost) (hb : b ∈ L .free)
    (hs : allocRegion { s with bulks := s.bulks.removeBulk b } (s.bulks.start b) (s.bulks.size b) = some s') :
    Places s L (s.bulks.size b) s' (s.bulks.start b) := by
  have hbounds := hi.bounds_free hb
  obtain ⟨hstart, hsize⟩ := Bulks.removeBulk_fields s.bulks b
  have hspells := Bulks.removeBulk_spells hi.spells hb
  have hout := fun j x hx => hi.node_out j (update_subset (L := L) (List.erase_subset (l := L .free) (a := b)) j (a := x) hx)
  obtain ⟨L', hspells', hfree⟩ := allocRegion_free hi.accounts hi.blocks hbounds.2.2.2.1 hbounds.2.2.2.2 hbounds.2.1 hbounds.2.2.1
    (hi.unmapped_free hb le_rfl) hspells hout hs
  have hregions : (s.bulks.removeBulk b).regions ((L .free).erase b) = s.bulks.regions ((L .free).erase b) :=
    Bulks.regions_congr fun x _ => by rw [hstart, hsize]; exact ⟨rfl, rfl⟩
  rw [← allocRegion_break hs]
  refine ⟨L', _, hspells', ?_, Placed.exact (List.mem_map_of_mem hb) rfl⟩
  rw [hfree, Function.update_self, hregions]
  exact regions_erase hb

theorem Inv.places_largest (hi : Inv all boot handed F s L client lost) (hb : b ∈ L .free) (hn : n % 4096 = 0)
    (hnone : ∀ b ∈ L .free, s.bulks.size b ≠ n) (hmax : ∀ x ∈ L .free, s.bulks.size x ≤ s.bulks.size b)
    (hlt : n < s.bulks.size b) {t : Bulks} (ht : s.bulks.takeFront b n = some t)
    (hs : allocRegion { s with bulks := t } (s.bulks.start b) n = some s') : Places s L n s' (s.bulks.start b) := by
  have hbounds := hi.bounds_free hb
  obtain ⟨t', l, ht', hperm, hspells, -, hregions, -⟩ :=
    Bulks.takeFront_spec hi.spells hb (hi.length_lt .free) hlt.le (by omega)
  obtain rfl : t' = t := Option.some.inj (ht'.symm.trans ht)
  have hout := fun j x hx => hi.node_out j (update_subset (L := L) hperm.subset j (a := x) hx)
  obtain ⟨L', hspells', hfree⟩ := allocRegion_free hi.accounts hi.blocks hbounds.2.2.2.1 hn hbounds.2.1 (by omega)
    (hi.unmapped_free hb hlt.le) hspells hout hs
  rw [← allocRegion_break hs]
  refine ⟨L', _, hspells', ?_, Placed.largest (r := s.bulks.region b) ?_ (List.mem_map_of_mem hb) ?_ hlt⟩
  · rw [hfree, Function.update_self]
    exact hregions.trans ((regions_erase hb).cons _)
  · rintro q hq
    obtain ⟨x, hx, rfl⟩ := List.mem_map.mp hq
    exact hnone x hx
  · rintro q hq
    obtain ⟨x, hx, rfl⟩ := List.mem_map.mp hq
    exact hmax x hx

theorem Inv.extendBreak_places (hi : Inv all boot handed F s L client lost) (hn : n % 4096 = 0)
    (hsmall : ∀ x ∈ L .free, s.bulks.size x < n) (hs : s.extendBreak n = some (s', va)) : Places s L n s' va := by
  have hge := hi.break_ge
  have hle := hi.break_le
  have hsmall' : ∀ q ∈ s.bulks.regions (L .free), q.size < n := by
    rintro q hq
    obtain ⟨x, hx, rfl⟩ := List.mem_map.mp hq
    exact hsmall x hx
  unfold extendBreak at hs
  rw [if_neg (by rw [hi.page_start]; omega), kernelHeapMax, sub32_of_le hle (by omega)] at hs
  split at hs
  case isTrue hfull =>
    cases hs
    exact ⟨L, _, hi.spells, .refl _, .null hsmall' hfull⟩
  case isFalse hfits =>
    rw [u32_of_lt (by omega), if_neg (by omega)] at hs
    obtain ⟨s₁, hs₁, heq⟩ := Option.map_eq_some_iff.mp hs
    simp only [Prod.mk.injEq] at heq
    obtain ⟨rfl, rfl⟩ := heq
    have hbreak : s₁.kheapPageAllocBreak = s.kheapPageAllocBreak :=
      (congrArg KHeap.kheapPageAllocBreak (allocRegion_break hs₁)).symm
    obtain ⟨L', hspells', hfree⟩ := allocRegion_free hi.accounts hi.blocks hi.break_aligned hn hge (by omega)
      (hi.unmapped_above (by omega)) hi.spells (fun j _ => hi.node_out j) hs₁
    have hplaced : Placed (s.bulks.regions (L .free)) s.kheapPageAllocBreak n _ _ _ :=
      .atBreak hsmall' (by simp only [kernelHeapMax]; omega)
    refine ⟨L', s.bulks.regions (L .free), hspells', .of_eq hfree, ?_⟩
    show Placed _ _ n _ _ (u32 (s₁.kheapPageAllocBreak + n))
    rw [hbreak, u32_of_lt (by omega)]
    exact hplaced

/-- The list is in order of size. -/
theorem Inv.head_largest (hi : Inv all boot handed F s L client lost) (hfirst : s.bulks.first .free = some b) :
    b ∈ L .free ∧ ∀ x ∈ L .free, s.bulks.size x ≤ s.bulks.size b := by
  have hhead := (hi.spells.first .free).symm.trans hfirst
  obtain ⟨l, hl⟩ := List.head?_eq_some_iff.mp hhead
  have hsorted := hi.sorted
  rw [hl] at hsorted ⊢
  refine ⟨List.mem_cons_self .., fun x hx => ?_⟩
  rcases List.mem_cons.mp hx with rfl | hx
  · exact le_rfl
  · exact (List.pairwise_cons.mp hsorted).1 x hx

theorem Inv.pageAllocCustomFit_places (hi : Inv all boot handed F s L client lost) (hn : n % 4096 = 0)
    (hs : s.pageAllocCustomFit n = some (s', va)) : Places s L n s' va := by
  unfold KHeap.pageAllocCustomFit at hs
  rcases hi.exactFit_cases n with ⟨b, hb, rfl, hfit⟩ | ⟨hnone, hfit⟩
  · rw [hfit, Option.bind_some] at hs
    obtain ⟨s₁, hs₁, heq⟩ := Option.map_eq_some_iff.mp hs
    simp only [Prod.mk.injEq] at heq
    obtain ⟨rfl, rfl⟩ := heq
    exact hi.places_exact hb hs₁
  · rw [hfit, Option.bind_some] at hs
    cases hfirst : s.bulks.first .free with
    | none =>
      simp only [hfirst] at hs
      refine hi.extendBreak_places hn ?_ hs
      simp [hi.spells.eq_nil_of_first hfirst]
    | some bb =>
      simp only [hfirst] at hs
      obtain ⟨hbb, hmax⟩ := hi.head_largest hfirst
      split at hs
      case isTrue hlt =>
        obtain ⟨t, ht, hs⟩ := Option.bind_eq_some_iff.mp hs
        obtain ⟨s₁, hs₁, heq⟩ := Option.map_eq_some_iff.mp hs
        simp only [Prod.mk.injEq] at heq
        obtain ⟨rfl, rfl⟩ := heq
        exact hi.places_largest hbb hn hnone hmax hlt ht hs₁
      case isFalse hge =>
        refine hi.extendBreak_places hn (fun x hx => ?_) hs
        exact lt_of_le_of_ne ((hmax x hx).trans (Nat.le_of_not_lt hge)) (hnone x hx)

/-- The call returns when there is room for the region, or when no place is found for it. -/
theorem Inv.pageAllocCustomFit_some (hi : Inv all boot handed F s L client lost) (hn : n % 4096 = 0)
    (h : s.Room n ∨ (∀ b ∈ L .free, s.bulks.size b < n) ∧ kernelHeapMax - s.kheapPageAllocBreak < n) :
    ∃ s' va, s.pageAllocCustomFit n = some (s', va) := by
  have hge := hi.break_ge
  have hle := hi.break_le
  have hextend : ∃ s' va, s.extendBreak n = some (s', va) := by
    unfold extendBreak
    rw [if_neg (by rw [hi.page_start]; omega)]
    rw [kernelHeapMax] at h ⊢
    rw [sub32_of_le hle (by omega)]
    split
    case isTrue => exact ⟨_, _, rfl⟩
    case isFalse hfits =>
      rw [u32_of_lt (by omega), if_neg (by omega)]
      rcases h with hroom | ⟨-, hfull⟩
      · obtain ⟨s₁, hs₁⟩ := allocRegion_some hi.accounts hi.blocks hi.break_aligned hn hge (by omega)
          (hi.unmapped_above (by omega)) hroom s.bulks
        simp only [hs₁, Option.map_some]
        exact ⟨_, _, rfl⟩
      · exact absurd hfull hfits
  have hfront : ∀ b ∈ L .free, n ≤ s.bulks.size b → ∀ t, ∃ s₁, allocRegion { s with bulks := t } (s.bulks.start b) n = some s₁ := by
    intro b hb hfit t
    have hbounds := hi.bounds_free hb
    rcases h with hroom | ⟨hsmall, -⟩
    · exact allocRegion_some hi.accounts hi.blocks hbounds.2.2.2.1 hn hbounds.2.1 (by omega) (hi.unmapped_free hb hfit) hroom t
    · exact absurd (hsmall b hb) (Nat.not_lt.mpr hfit)
  unfold KHeap.pageAllocCustomFit
  rcases hi.exactFit_cases n with ⟨b, hb, hsize, hfit⟩ | ⟨-, hfit⟩
  · rw [hfit, Option.bind_some]
    obtain ⟨s₁, hs₁⟩ := hfront b hb hsize.ge (s.bulks.removeBulk b)
    simp only [hs₁, Option.map_some]
    exact ⟨_, _, rfl⟩
  · rw [hfit, Option.bind_some]
    cases hfirst : s.bulks.first .free with
    | none => exact hextend
    | some bb =>
      obtain ⟨hbb, -⟩ := hi.head_largest hfirst
      simp only
      split
      case isTrue hlt =>
        have hbounds := hi.bounds_free hbb
        obtain ⟨t, l, ht, -⟩ := Bulks.takeFront_spec hi.spells hbb (hi.length_lt .free) (n := n) (le_of_lt hlt) (by omega)
        obtain ⟨s₁, hs₁⟩ := hfront bb hbb (le_of_lt hlt) t
        simp only [ht, Option.bind_some, hs₁, Option.map_some]
        exact ⟨_, _, rfl⟩
      case isFalse => exact hextend

/-! ### One page -/

end KHeap

namespace KClient

variable {n k size : Nat} {s₀ s : KClient}

/-- In every run of `kmalloc` and `kfree` from the boot, `page_alloc_custom_fit` of a positive multiple of the page size
    places the region as `Placed` says, where the free regions are those of the partition of the page area. The call
    returns when a node and the frames are available, and also when it returns null. -/
theorem custom_fit_policy (hmin : 160 ≤ n) (hn : n ≤ 1048576) (hk : 256 ≤ k) (hboot : afterBoot n k = some s₀)
    (hr : Reach KClient.step (fun _ _ => True) s₀ s) (hsize : size % 4096 = 0) :
    ∃ L, Partition s.heap L ∧
      (∀ h va, s.heap.pageAllocCustomFit size = some (h, va) → ∃ L' R, h.bulks.Spells L' ∧
        (h.bulks.regions (L' .free)).Perm R ∧
        KHeap.Placed (s.heap.bulks.regions (L .free)) s.heap.kheapPageAllocBreak size va R h.kheapPageAllocBreak) ∧
      (s.heap.Room size ∨ (∀ q ∈ s.heap.bulks.regions (L .free), q.size < size) ∧
          kernelHeapMax - s.heap.kheapPageAllocBreak < size →
        ∃ h va, s.heap.pageAllocCustomFit size = some (h, va)) := by
  obtain ⟨lost, ⟨F, L, hinv, -⟩, -⟩ := inv_reach hmin hn hk hboot hr
  refine ⟨L, partition_of_inv hinv, fun h va hs => hinv.pageAllocCustomFit_places hsize hs, fun hroom => ?_⟩
  refine hinv.pageAllocCustomFit_some hsize (hroom.imp_right fun hnull => ⟨fun b hb => ?_, hnull.2⟩)
  exact hnull.1 _ (List.mem_map_of_mem hb)

/-- Three regions are allocated and the one in the middle is freed: a page goes to the front of it. -/
theorem custom_fit_policy_front : ∃ s₀ s h, afterBoot 1024 768 = some s₀ ∧
    exec KClient.step s₀ [.kmalloc 4096, .kmalloc 8192, .kmalloc 4096, .kfree 4160757760] = some s ∧
    s.heap.pageAllocCustomFit 4096 = some (h, 4160757760) ∧ ∃ L L' R, Partition s.heap L ∧ h.bulks.Spells L' ∧
      (h.bulks.regions (L' .free)).Perm R ∧
      KHeap.Placed (s.heap.bulks.regions (L .free)) s.heap.kheapPageAllocBreak 4096 4160757760 R h.kheapPageAllocBreak := by
  have hrun : ((afterBoot 1024 768).bind fun s₀ =>
      (exec KClient.step s₀ [.kmalloc 4096, .kmalloc 8192, .kmalloc 4096, .kfree 4160757760]).bind fun s =>
        (s.heap.pageAllocCustomFit 4096).map Prod.snd) = some 4160757760 := by
    rw [KClient.afterBoot_eq]
    decide +kernel
  obtain ⟨s₀, hs₀, hrun⟩ := Option.bind_eq_some_iff.mp hrun
  obtain ⟨s, hs, hrun⟩ := Option.bind_eq_some_iff.mp hrun
  obtain ⟨⟨h, va⟩, hfit, rfl⟩ := Option.map_eq_some_iff.mp hrun
  have hr := Reach.of_exec_any hs
  obtain ⟨L, hpart, hplaces, -⟩ := custom_fit_policy (by decide) (by decide) (by decide) hs₀ hr (show 4096 % 4096 = 0 by decide)
  obtain ⟨L', R, hspells, hperm, hplaced⟩ := hplaces h _ hfit
  exact ⟨s₀, s, h, hs₀, hs, hfit, L, L', R, hpart, hspells, hperm, hplaced⟩

end KClient

end Fos.Heap
