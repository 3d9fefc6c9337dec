import Fos.Heap.KHeapFit
import Fos.Lib.Lockstep
import Mathlib.Data.Multiset.Lattice
import Mathlib.Order.Lattice.Nat

/-! What is left of the memory, in numbers: the free frames, the free blocks and pages of the block allocator, the sizes of
    the free regions of the kernel heap and the room above its break. `kmalloc` goes through exactly when the numbers
    suffice, and then what is left is what the numbers say. -/

namespace Fos.Heap
open Lib Mem

/-- What `allocate_frame` and `alloc_block` take from. -/
structure Pool where
  frames : Nat
  blocks : SizeClass → Nat
  blockPages : Nat

namespace Pool

def takeFrames (p : Pool) (n : Nat) : Option Pool := if n ≤ p.frames then some { p with frames := p.frames - n } else none

def takeFree (p : Pool) (c : SizeClass) : Pool := { p with blocks := Function.update p.blocks c (p.blocks c - 1) }

/-- A page gets a frame and is cut into blocks, and the first block is taken. -/
def openPage (p : Pool) (c : SizeClass) : Option Pool :=
  (p.takeFrames 1).map fun p =>
    { p with blockPages := p.blockPages - 1
             blocks := Function.update p.blocks c (4096 / c.blockSize - 1) }

/-- A free block of the class, a block of a fresh page, or a free block of the smallest larger class. -/
def takeBlock (p : Pool) (c : SizeClass) : Option Pool :=
  if 0 < p.blocks c then some (p.takeFree c)
  else if 0 < p.blockPages then p.openPage c
  else ((List.finRange 9).find? fun d => c < d ∧ 0 < p.blocks d).map p.takeFree

end Pool

/-- The sizes of the free regions and the bytes above the break. -/
structure Space where
  regions : Multiset Nat
  room : Nat

/-- A region of exactly the size, the front of a largest one, or the room above the break. -/
def Space.take (r : Space) (n : Nat) : Option Space :=
  if n ∈ r.regions then some { r with regions := r.regions.erase n }
  else if n < r.regions.sup then some { r with regions := (r.regions.sup - n) ::ₘ r.regions.erase r.regions.sup }
  else if n ≤ r.room then some { r with room := r.room - n }
  else none

structure Stock where
  pool : Pool
  space : Space

/-- The class of the blocks that `alloc_block(size)` looks for. -/
def sizeClass (size : Nat) : SizeClass := Fin.ofNat 9 (DynAlloc.ceilLog2 size 9 log2MinSize - log2MinSize)

namespace Stock

def allocateFrame (st : Stock) : Option Stock := (st.pool.takeFrames 1).map ({ st with pool := · })

/-- A region has its frames and a node of 16 bytes. -/
def takeRegion (st : Stock) (n : Nat) : Option Stock :=
  ((st.pool.takeFrames (n / 4096)).bind (·.takeBlock (sizeClass sizeofBulk))).bind fun pool => (st.space.take n).map (⟨pool, ·⟩)

/-- What `kmalloc` takes when it does not return null. -/
def kmalloc (st : Stock) (size : Nat) : Option Stock :=
  if size ≤ dynAllocMaxBlockSize then (st.pool.takeBlock (sizeClass size)).map ({ st with pool := · })
  else st.takeRegion (roundUp size pageSize)

end Stock

namespace KHeap

structure Pooled (s : KHeap) (p : Pool) : Prop where
  frames : ∃ F, (s.mem.freeFrameList.Spells fun _ => F) ∧ F.length = p.frames
  blocks : ∃ free, s.da.blocks.Spells free ∧ ∀ c, (free c).length = p.blocks c
  blockPages : ∃ P, (s.da.pages.Spells fun _ => P) ∧ P.length = p.blockPages

structure Spaced (s : KHeap) (r : Space) : Prop where
  regions : ∃ L, s.bulks.Spells L ∧ ((s.bulks.regions (L .free)).map Region.size : Multiset Nat) = r.regions
  room : kernelHeapMax - s.kheapPageAllocBreak = r.room

/-- What is left is the stock `st`. -/
structure Stocked (s : KHeap) (st : Stock) : Prop where
  pool : Pooled s st.pool
  space : Spaced s st.space

variable {s s' : KHeap} {st : Stock} {p : Pool} {r : Space} {all F handed : List PageNo} {boot : PageNo → Nat} {out : List Nat}
  {L : BulkList → List Nat} {client lost free : List Nat} {n size va stop : Nat} {m m' : Frames} {c : SizeClass} {f : PageNo}

/-! ### Frames -/

theorem Pooled.length (h : Pooled s p) (hF : s.mem.freeFrameList.Spells fun _ => F) : F.length = p.frames := by
  obtain ⟨F', hF', hlen⟩ := h.frames
  rw [hF.toThreads.unique hF'.toThreads ()]
  exact hlen

theorem allocateFrame_eq_none (ha : m.Accounts all boot F handed) : m.allocateFrame = none ↔ F = [] := by
  constructor
  · intro hnone
    by_contra hF
    obtain ⟨r, hr⟩ := ha.allocateFrame_some hF
    exact Option.some_ne_none r (hr.symm.trans hnone)
  · intro hF
    unfold Frames.allocateFrame
    rw [ha.free.first (), hF]
    rfl

/-- The list of free frames loses its first. -/
theorem Pooled.allocateFrame (h : Pooled s p) (ha : s.mem.Accounts all boot F handed) :
    Option.Rel (fun r p' => Pooled { s with mem := r.1 } p') s.mem.allocateFrame (p.takeFrames 1) := by
  have hlen := h.length ha.free
  unfold Pool.takeFrames
  by_cases hF : F = []
  · rw [hF] at hlen
    rw [(allocateFrame_eq_none ha).mpr hF, if_neg (by simp only [List.length_nil] at hlen; omega)]
    exact .none
  · obtain ⟨⟨m, f⟩, hm⟩ := ha.allocateFrame_some hF
    obtain ⟨hf, ha', -, -⟩ := ha.allocateFrame hm
    have hpos := List.length_pos_of_mem hf
    rw [hm, if_pos (by omega)]
    refine .some ⟨⟨_, ha'.free, ?_⟩, h.blocks, h.blockPages⟩
    rw [List.length_erase_of_mem hf, hlen]

/-- Every page that is mapped takes a free frame. -/
theorem mapFrameRange_length {fuel : Nat} (h : m.Accounts all boot F handed) (hva : va % 4096 = 0) (hstop : stop % 4096 = 0)
    (hmax : stop ≤ kernelHeapMax) (hle : va ≤ stop) (hfree : ∀ c, Within va stop c → m.hold c = none)
    (hs : mapFrameRange m va stop fuel = some m') : (stop - va) / 4096 ≤ F.length := by
  simp only [kernelHeapMax] at hmax
  induction fuel generalizing m va F with
  | zero => exact absurd hs.symm (Option.some_ne_none _)
  | succ fuel ih =>
    unfold mapFrameRange at hs
    rcases Nat.eq_or_lt_of_le hle with rfl | hlt
    · omega
    · rw [if_pos hlt] at hs
      obtain ⟨m₁, hm₁, hs⟩ := Option.bind_eq_some_iff.mp hs
      rw [pageSize, u32_of_lt (by omega)] at hs
      have hwithin := fun c => @within_cons va stop c hlt hmax hva
      have hnone : m.hold (.kernel (pageNo va)) = none := hfree _ ((hwithin _).mpr (.inl rfl))
      obtain ⟨f, hf, F₁, h₁, hhold⟩ := h.mapNewFrame (by decide) (fun _ => rfl) hm₁
      have hlen := h.length_attach h₁ hnone hf hhold
      have hfree₁ : ∀ c, Within (va + 4096) stop c → m₁.hold c = none := by
        intro c hc
        have hne : c ≠ .kernel (pageNo va) := by
          rintro rfl
          rw [within_pageNo (by omega) hva] at hc
          omega
        rw [hhold, Function.update_of_ne hne]
        exact hfree c ((hwithin c).mpr (.inr hc))
      have hrest := ih h₁ (by omega) (by omega) hfree₁ hs
      omega

/-! ### Blocks -/

theorem sizeClass_least (hsize : size ≤ 2048) : IsLeast {c : SizeClass | size ≤ c.blockSize} (sizeClass size) :=
  DynAlloc.classOf_least hsize

theorem Pooled.length_blocks {free : SizeClass → List Nat} (h : Pooled s p) (hfree : s.da.blocks.Spells free) (c : SizeClass) :
    (free c).length = p.blocks c := by
  obtain ⟨free', hfree', hlen⟩ := h.blocks
  rw [hfree.toThreads.unique hfree'.toThreads c]
  exact hlen c

theorem Pooled.blocks_nil {free : SizeClass → List Nat} (h : Pooled s p) (hfree : s.da.blocks.Spells free) (c : SizeClass) :
    free c = [] ↔ ¬ 0 < p.blocks c := by
  rw [← h.length_blocks hfree, List.length_pos_iff, not_not]

theorem Pooled.length_pages {freePages : List Nat} (h : Pooled s p) (hpages : s.da.pages.Spells fun _ => freePages) :
    freePages.length = p.blockPages := by
  obtain ⟨P, hP, hlen⟩ := h.blockPages
  rw [hpages.toThreads.unique hP.toThreads ()]
  exact hlen

/-- The head of a list is taken. -/
theorem Pooled.tookHead {d : DynAlloc} {free : SizeClass → List Nat} (h : Pooled s p) (hfree : s.da.blocks.Spells free)
    (ht : DynAlloc.TookHead s.da d free c va) : Pooled { s with da := d } (p.takeFree c) := by
  have hlen := h.length_blocks hfree
  refine ⟨h.frames, ⟨_, ht.lists, fun c' => ?_⟩, ?_⟩
  · show _ = Function.update p.blocks c (p.blocks c - 1) c'
    by_cases hc : c' = c
    · rw [hc, Function.update_self, Function.update_self, List.length_tail, hlen]
    · rw [Function.update_of_ne hc, Function.update_of_ne hc, hlen]
  · obtain ⟨P, hP, hcount⟩ := h.blockPages
    refine ⟨P, ?_, hcount⟩
    rw [ht.others]
    exact hP

/-- A page of the block allocator is opened. -/
theorem Pooled.openedPage {d : DynAlloc} {free : SizeClass → List Nat} {freePages : List Nat} {i : Nat} (h : Pooled s p)
    (hfree : s.da.blocks.Spells free) (hpages : s.da.pages.Spells fun _ => freePages)
    (ht : DynAlloc.OpenedPage s.da d free freePages c i) {F' : List PageNo} (hm : m.freeFrameList.Spells fun _ => F')
    (hframes : F'.length + 1 = p.frames) : ∃ p', p.openPage c = some p' ∧ Pooled { s with mem := m, da := d } p' := by
  have hlen := h.length_blocks hfree
  have hcount := h.length_pages hpages
  unfold Pool.openPage Pool.takeFrames
  rw [if_pos (by omega)]
  refine ⟨_, rfl, ⟨F', hm, ?_⟩, ⟨_, ht.lists, fun c' => ?_⟩, ⟨_, ht.pages, ?_⟩⟩
  · show F'.length = p.frames - 1
    omega
  · by_cases hc : c' = c
    · rw [hc, Function.update_self]
      show _ = Function.update p.blocks c _ c
      rw [Function.update_self, List.length_tail, Slabs.length_slots]
      rfl
    · rw [Function.update_of_ne hc]
      show _ = Function.update p.blocks c _ c'
      rw [Function.update_of_ne hc, hlen]
  · show freePages.tail.length = p.blockPages - 1
    rw [List.length_tail, hcount]

/-- The class that is found is the smallest one. -/
theorem find_least {q : SizeClass → Prop} [DecidablePred q] {d : SizeClass} (h : (List.finRange 9).find? q = some d) :
    q d ∧ ∀ x, q x → d ≤ x := by
  obtain ⟨hd, as, bs, happ, has⟩ := List.find?_eq_some_iff_append.mp h
  refine ⟨of_decide_eq_true hd, fun x hx => ?_⟩
  have hmem : x ∈ as ++ d :: bs := happ ▸ List.mem_finRange x
  have hsorted : (as ++ d :: bs).Pairwise (· < ·) := happ ▸ List.pairwise_lt_finRange 9
  rcases List.mem_append.mp hmem with hxas | hxbs
  · have hnot := has x hxas
    rw [decide_eq_true hx] at hnot
    exact absurd hnot (by decide)
  · rcases List.mem_cons.mp hxbs with rfl | hxbs
    · exact le_rfl
    · exact ((List.pairwise_cons.mp (List.pairwise_append.mp hsorted).2.1).1 x hxbs).le

/-- `get_page` on a page that is not mapped takes a frame. -/
theorem getPage_frames {i : Nat} (ha : m.Accounts all boot F handed) (hnone : m.hold (blockSlot i) = none)
    (link : Nat → Link Nat) : (kernelPages.getPage m link (kernelHeapStart + i * 4096) = none ↔ F = []) ∧
      ∀ r, kernelPages.getPage m link (kernelHeapStart + i * 4096) = some r →
        ∃ F', (r.1.freeFrameList.Spells fun _ => F') ∧ F'.length + 1 = F.length := by
  have hround : roundDown (kernelHeapStart + i * 4096) pageSize = kernelHeapStart + i * 4096 :=
    roundDown_self (by simp only [kernelHeapStart]; omega)
  have hget : kernelPages.getPage m link (kernelHeapStart + i * 4096) =
      (m.mapNewFrame (blockSlot i) (kernelHeapStart + i * 4096) permWriteable).map fun m =>
        (m, fun a => if kernelHeapStart + i * 4096 ≤ a ∧ a < kernelHeapStart + i * 4096 + pageSize then {} else link a) := by
    have halloc : m.allocPage (blockSlot i) (kernelHeapStart + i * 4096) permWriteable =
        (m.mapNewFrame (blockSlot i) (kernelHeapStart + i * 4096) permWriteable).map (·, true) := by
      unfold Frames.allocPage
      rw [ha.getFrameInfo, hnone, Option.bind_some]
    simp only [kernelPages, hround]
    refine (congrArg _ halloc).trans ?_
    rw [Option.map_map]
    rfl
  rw [hget]
  refine ⟨⟨fun h => ?_, fun h => ?_⟩, fun r hr => ?_⟩
  · by_contra hF
    obtain ⟨m', hm'⟩ := ha.mapNewFrame_some hnone hF (kernelHeapStart + i * 4096) permWriteable
    rw [hm'] at h
    exact Option.some_ne_none _ h
  · unfold Frames.mapNewFrame
    rw [(allocateFrame_eq_none ha).mpr h]
    rfl
  · obtain ⟨m', hm', rfl⟩ := Option.map_eq_some_iff.mp hr
    obtain ⟨f, hf, F', ha', hhold⟩ := ha.mapNewFrame (by decide) (fun _ => rfl) hm'
    exact ⟨F', ha'.free, ha.length_attach ha' hnone hf hhold⟩

section Choice

variable {r : Option (Frames × DynAlloc × Nat)} {cls : Nat → Option SizeClass} {free : SizeClass → List Nat}
  {freePages blocks : List Nat}

/-- There is no free block of the class, and the first free page is opened. -/
theorem Pooled.fresh {i : Nat} (h : Pooled s p) (hchooses : DynAlloc.Chooses kernelPages s.mem s.da free freePages c r)
    (hrep : s.da.Rep cls free freePages blocks) (ha : s.mem.Accounts all boot F handed) (hstart : s.da.dynAllocStart = kernelHeapStart)
    (hfree : free c = []) (hhead : freePages.head? = some i) (hnone : s.mem.hold (blockSlot i) = none) :
    Option.Rel (fun r p' => Pooled r.1 p') (r.map fun (m, d, va) => ({ s with mem := m, da := d }, va)) (p.openPage c) := by
  obtain ⟨hpanics, hframes⟩ := getPage_frames ha hnone s.da.blocks.link
  rw [← hstart] at hpanics hframes
  have hlen := h.length ha.free
  cases hget : kernelPages.getPage s.mem s.da.blocks.link (s.da.dynAllocStart + i * 4096) with
  | none =>
    rw [hchooses.panics.mpr (.inr ⟨hfree, i, hhead, hget⟩)]
    rw [hpanics.mp hget] at hlen
    unfold Pool.openPage Pool.takeFrames
    rw [if_neg (by simp only [List.length_nil] at hlen; omega)]
    exact .none
  | some w =>
    obtain ⟨m', link⟩ := w
    obtain ⟨F', hF', hlenF⟩ := hframes _ hget
    obtain ⟨d', hd', hopened⟩ := hchooses.fresh hfree i hhead _ _ hget
    obtain ⟨p', hp', hpooled⟩ := h.openedPage hrep.blocks hrep.pages hopened hF' (hlenF.trans hlen)
    rw [hd', hp']
    exact .some hpooled

/-- There is neither a free block of the class nor a free page, and a larger block is taken. -/
theorem Pooled.larger (h : Pooled s p) (hchooses : DynAlloc.Chooses kernelPages s.mem s.da free freePages c r)
    (hrep : s.da.Rep cls free freePages blocks) (hfree : free c = []) (hnil : freePages = []) :
    Option.Rel (fun r p' => Pooled r.1 p') (r.map fun (m, d, va) => ({ s with mem := m, da := d }, va))
      (((List.finRange 9).find? fun d => c < d ∧ 0 < p.blocks d).map p.takeFree) := by
  have hempty := h.blocks_nil hrep.blocks
  cases hfind : (List.finRange 9).find? fun d => c < d ∧ 0 < p.blocks d with
  | none =>
    have hall : ∀ d, c ≤ d → free d = [] := by
      intro d hd
      rcases eq_or_lt_of_le hd with rfl | hlt
      · exact hfree
      · have hnot := List.find?_eq_none.mp hfind d (List.mem_finRange d)
        exact (hempty d).mpr fun hpos => hnot (decide_eq_true ⟨hlt, hpos⟩)
    rw [hchooses.panics.mpr (.inl ⟨hall, hnil⟩)]
    exact .none
  | some d =>
    obtain ⟨⟨hlt, hpos⟩, hleast⟩ := find_least hfind
    have hne : free d ≠ [] := fun hnone => (hempty d).mp hnone hpos
    have hd : IsLeast {x | c < x ∧ free x ≠ []} d :=
      ⟨⟨hlt, hne⟩, fun x hx => hleast x ⟨hx.1, by_contra fun h => hx.2 ((hempty x).mpr h)⟩⟩
    obtain ⟨va, hva⟩ := Option.ne_none_iff_exists'.mp (mt List.head?_eq_none_iff.mp hne)
    obtain ⟨d', hd', ht⟩ := hchooses.larger hfree hnil d hd va hva
    rw [hd']
    exact .some (h.tookHead hrep.blocks ht)

end Choice

/-- `alloc_block` goes through exactly when the pool has a block, and takes what the pool says. -/
theorem Pooled.allocBlock (h : Pooled s p) (hblocks : Blocks s out) (ha : s.mem.Accounts all boot F handed) (hpos : 0 < size)
    (hsize : size ≤ 2048) :
    Option.Rel (fun r p' => Pooled r.1 p') (s.allocBlock size) (p.takeBlock (sizeClass size)) := by
  obtain ⟨cls, free, freePages, hinv, hmapped⟩ := hblocks.inv
  obtain ⟨c, hc, hchooses⟩ := hinv.toRep.allocBlock_chooses (w := s.mem) kernelPages_local
    (by rw [hblocks.dyn_start]; decide) hpos hsize
  obtain rfl : c = sizeClass size := hc.unique (sizeClass_least hsize)
  generalize sizeClass size = c at hchooses
  have hempty := h.blocks_nil hinv.blocks c
  have hpages := h.length_pages hinv.pages
  unfold KHeap.allocBlock Pool.takeBlock
  by_cases hfree : free c = []
  · rw [if_neg (hempty.mp hfree)]
    cases hhead : freePages.head? with
    | some i =>
      have hi : i ∈ freePages := List.mem_of_head? hhead
      have hlen := List.length_pos_of_mem hi
      obtain ⟨hlt, hnone⟩ := (hinv.free_page i).mp hi
      rw [hblocks.totalPages] at hlt
      rw [if_pos (by omega)]
      exact h.fresh hchooses hinv.toRep ha hblocks.dyn_start hfree hhead ((hmapped i hlt).mpr hnone)
    | none =>
      have hnil := List.head?_eq_none_iff.mp hhead
      rw [if_neg (by rw [← hpages, hnil]; exact Nat.lt_irrefl 0)]
      exact h.larger hchooses hinv.toRep hfree hnil
  · obtain ⟨va, hva⟩ := Option.ne_none_iff_exists'.mp (mt List.head?_eq_none_iff.mp hfree)
    obtain ⟨d', hd', ht⟩ := hchooses.listed va hva
    rw [hd', if_pos (not_not.mp (mt hempty.mpr hfree))]
    exact .some (h.tookHead hinv.blocks ht)

/-! ### Regions -/

theorem Pooled.congr (h : Pooled s p) (hmem : s'.mem.freeFrameList = s.mem.freeFrameList) (hda : s'.da = s.da) : Pooled s' p :=
  ⟨hmem ▸ h.frames, hda ▸ h.blocks, hda ▸ h.blockPages⟩

/-- What the entries, the counts of the frames and their addresses are does not matter. -/
theorem Stocked.congr (h : Stocked s st) (hmem : s'.mem.freeFrameList = s.mem.freeFrameList) (hda : s'.da = s.da)
    (hbulks : s'.bulks = s.bulks) (hbreak : s'.kheapPageAllocBreak = s.kheapPageAllocBreak) : Stocked s' st :=
  ⟨h.pool.congr hmem hda, hbulks ▸ h.space.regions, hbreak ▸ h.space.room⟩

/-- The end of a branch of `page_alloc_custom_fit`: the frames of the region, and the node. -/
theorem Pooled.allocRegion (h : Pooled s p) (ha : s.mem.Accounts all boot F handed) (hblocks : Blocks s out) (hva : va % 4096 = 0)
    (hn : n % 4096 = 0) (hmin : 4160753664 ≤ va) (hmax : va + n ≤ 4294963200)
    (hfree : ∀ c, Within va (va + n) c → s.mem.hold c = none) (t : Bulks) :
    Option.Rel Pooled (KHeap.allocRegion { s with bulks := t } va n)
      ((p.takeFrames (n / 4096)).bind (·.takeBlock (sizeClass sizeofBulk))) := by
  have hlen := h.length ha.free
  unfold KHeap.allocRegion
  rw [u32_of_lt (by omega)]
  by_cases hframes : n / 4096 ≤ p.frames
  · obtain ⟨m₁, F₁, hm₁, ha₁, hcount⟩ := mapFrameRange_some ha hva (by omega) hmax (by omega) hfree
      (show (va + n - va) / 4096 < walkFuel by simp only [walkFuel]; omega) (by omega)
    obtain ⟨-, -, hmap, -⟩ := mapFrameRange_spec ha hva (by omega) hmax hfree hm₁
    have hblocks₁ : Blocks { s with bulks := t, mem := m₁ } out := by
      refine hblocks.congr rfl fun c hc => hmap.outside c fun hin => ?_
      obtain ⟨p, rfl, hle, -⟩ := hin
      obtain ⟨q, hq, -, hlt⟩ := hc
      cases hq
      omega
    have htake : p.takeFrames (n / 4096) = some { p with frames := p.frames - n / 4096 } := if_pos hframes
    have hpooled : Pooled { s with bulks := t, mem := m₁ } { p with frames := p.frames - n / 4096 } := by
      refine ⟨⟨F₁, ha₁.free, ?_⟩, h.blocks, h.blockPages⟩
      show F₁.length = p.frames - n / 4096
      omega
    rw [hm₁, htake, Option.bind_some, Option.bind_some]
    have hnode : 0 < sizeofBulk ∧ sizeofBulk ≤ 2048 := by decide
    have hrel := rel_map_left (Q := Pooled) (hpooled.allocBlock hblocks₁ ha₁ hnode.1 hnode.2)
      (f := fun r => { r.1 with bulks := r.1.bulks.pushAllocated r.2 va n }) fun _ _ _ h => h.congr rfl rfl
    exact hrel
  · have hnone : mapFrameRange s.mem va (va + n) walkFuel = none := by
      refine Option.eq_none_iff_forall_ne_some.mpr fun m' hm' => hframes ?_
      have hle := mapFrameRange_length ha hva (by omega) hmax (by omega) hfree hm'
      omega
    have htake : p.takeFrames (n / 4096) = none := if_neg hframes
    rw [hnone, htake]
    exact .none

/-- The break stays where it is. -/
theorem allocRegion_map {t : Bulks} : (KHeap.allocRegion { s with bulks := t } va n).map (·, va) =
    (KHeap.allocRegion { s with bulks := t } va n).map fun s' => ({ s' with kheapPageAllocBreak := s.kheapPageAllocBreak }, va) :=
  Option.map_congr fun _ hs => congrArg (·, va) (allocRegion_break hs).symm

/-- `page_alloc_custom_fit` returns null, or it makes a region at a free place. -/
theorem Inv.pageAllocCustomFit_cases (hi : Inv all boot handed F s L client lost) (hn : n % 4096 = 0) :
    s.pageAllocCustomFit n = some (s, 0) ∨
      ∃ va t brk, va % 4096 = 0 ∧ 4160753664 ≤ va ∧ va + n ≤ 4294963200 ∧
        (∀ c, Within va (va + n) c → s.mem.hold c = none) ∧
        s.pageAllocCustomFit n =
          (KHeap.allocRegion { s with bulks := t } va n).map fun s => ({ s with kheapPageAllocBreak := brk }, va) := by
  have hge := hi.break_ge
  have hle := hi.break_le
  have hextend : s.extendBreak n = some (s, 0) ∨
      ∃ va t brk, va % 4096 = 0 ∧ 4160753664 ≤ va ∧ va + n ≤ 4294963200 ∧
        (∀ c, Within va (va + n) c → s.mem.hold c = none) ∧
        s.extendBreak n =
          (KHeap.allocRegion { s with bulks := t } va n).map fun s => ({ s with kheapPageAllocBreak := brk }, va) := by
    unfold extendBreak
    rw [if_neg (by rw [hi.page_start]; omega), kernelHeapMax, sub32_of_le hle (by omega)]
    split
    case isTrue => exact .inl rfl
    case isFalse hfits =>
      rw [u32_of_lt (by omega), if_neg (by omega)]
      refine .inr ⟨s.kheapPageAllocBreak, s.bulks, u32 (s.kheapPageAllocBreak + n), hi.break_aligned, hge, by omega,
        hi.unmapped_above (by omega), Option.map_congr fun s' hs => ?_⟩
      rw [← allocRegion_break hs]
  have hfront : ∀ b ∈ L .free, n ≤ s.bulks.size b → s.bulks.start b % 4096 = 0 ∧ 4160753664 ≤ s.bulks.start b ∧
      s.bulks.start b + n ≤ 4294963200 ∧ ∀ c, Within (s.bulks.start b) (s.bulks.start b + n) c → s.mem.hold c = none := by
    intro b hb hfit
    have hbounds := hi.bounds_free hb
    exact ⟨hbounds.2.2.2.1, hbounds.2.1, by omega, hi.unmapped_free hb hfit⟩
  unfold KHeap.pageAllocCustomFit
  rcases hi.exactFit_cases n with ⟨b, hb, hsize, hfit⟩ | ⟨-, hfit⟩
  · obtain ⟨halign, hmin, hmax, hfree⟩ := hfront b hb hsize.ge
    rw [hfit, Option.bind_some]
    exact .inr ⟨_, _, _, halign, hmin, hmax, hfree, allocRegion_map⟩
  · rw [hfit, Option.bind_some]
    cases hfirst : s.bulks.first .free with
    | none => exact hextend
    | some bb =>
      obtain ⟨hbb, -⟩ := hi.head_largest hfirst
      simp only
      split
      case isTrue hlt =>
        obtain ⟨halign, hmin, hmax, hfree⟩ := hfront bb hbb (le_of_lt hlt)
        have hbounds := hi.bounds_free hbb
        obtain ⟨t, l, ht, -⟩ := Bulks.takeFront_spec hi.spells hbb (hi.length_lt .free) (n := n) (le_of_lt hlt) (by omega)
        rw [ht, Option.bind_some]
        exact .inr ⟨_, _, _, halign, hmin, hmax, hfree, allocRegion_map⟩
      case isFalse => exact hextend

/-- The free regions and the break, in numbers. -/
def spaceOf (R : List Region) (brk : Nat) : Space := ⟨R.map Region.size, kernelHeapMax - brk⟩

/-- A region is placed where the space has one, and null is returned when it has none. -/
theorem Placed.take {R R' : List Region} {brk brk' : Nat} (h : Placed R brk n va R' brk') :
    (spaceOf R brk).take n = some (spaceOf R' brk') ∧ (va = brk ∨ ∃ r ∈ R, r.start = va) ∨
      va = 0 ∧ (spaceOf R brk).take n = none := by
  have hmem : ∀ {q}, q ∈ (spaceOf R brk).regions ↔ ∃ r ∈ R, r.size = q := fun {q} => by
    unfold spaceOf
    rw [Multiset.mem_coe, List.mem_map]
  have herase : ∀ {r}, r ∈ R → ((R.erase r).map Region.size : Multiset Nat) = (spaceOf R brk).regions.erase r.size := fun {r} hr => by
    have := Multiset.map_erase_of_mem Region.size (R : Multiset Region) hr
    rwa [Multiset.coe_erase, Multiset.map_coe, Multiset.map_coe] at this
  have hbelow : (∀ q ∈ R, q.size < n) → n ∉ (spaceOf R brk).regions ∧ ¬ n < (spaceOf R brk).regions.sup := by
    refine fun hsmall => ⟨fun hn => ?_, Nat.not_lt.mpr (Multiset.sup_le.mpr fun q hq => ?_)⟩
    · obtain ⟨q, hq, heq⟩ := hmem.mp hn
      exact absurd (hsmall q hq) (by omega)
    · obtain ⟨q', hq', rfl⟩ := hmem.mp hq
      exact (hsmall q' hq').le
  unfold Space.take
  cases h with
  | @exact r hr hsize =>
    rw [if_pos (hmem.mpr ⟨r, hr, hsize⟩), ← hsize, ← herase hr]
    exact .inl ⟨rfl, .inr ⟨r, hr, rfl⟩⟩
  | @largest r hne hr hmax hlt =>
    have hsup : (spaceOf R brk).regions.sup = r.size := by
      refine le_antisymm (Multiset.sup_le.mpr fun q hq => ?_) (Multiset.le_sup (hmem.mpr ⟨r, hr, rfl⟩))
      obtain ⟨q', hq', rfl⟩ := hmem.mp hq
      exact hmax q' hq'
    rw [if_neg fun hn => ?_, hsup, if_pos hlt, ← herase hr]
    · exact .inl ⟨rfl, .inr ⟨r, hr, rfl⟩⟩
    · obtain ⟨q, hq, heq⟩ := hmem.mp hn
      exact hne q hq heq
  | atBreak hsmall hroom =>
    obtain ⟨hnot, hsup⟩ := hbelow hsmall
    rw [if_neg hnot, if_neg hsup, if_pos (show n ≤ (spaceOf R va).room from hroom)]
    exact .inl ⟨congrArg (fun x => some (⟨_, x⟩ : Space)) (Nat.sub_sub ..), .inl rfl⟩
  | null hsmall hroom =>
    obtain ⟨hnot, hsup⟩ := hbelow hsmall
    rw [if_neg hnot, if_neg hsup, if_neg (show ¬ n ≤ (spaceOf R brk).room from Nat.not_le.mpr hroom)]
    exact .inr ⟨rfl, rfl⟩

/-- `page_alloc_custom_fit` returns a region exactly when the stock has one, with its frames and a node. -/
theorem Stocked.pageAllocCustomFit (h : Stocked s st) (hi : Inv all boot handed F s L client lost) (hn : n % 4096 = 0) :
    Option.Rel (fun r st' => Stocked r.1 st')
      ((s.pageAllocCustomFit n).bind fun r => if r.2 = 0 then none else some r) (st.takeRegion n) := by
  have hspace : st.space = spaceOf (s.bulks.regions (L .free)) s.kheapPageAllocBreak := by
    obtain ⟨L', hL', hregions⟩ := h.space.regions
    have hroom := h.space.room
    rw [hL'.unique hi.spells .free] at hregions
    exact congrArg₂ Space.mk hregions.symm hroom.symm
  unfold Stock.takeRegion
  rw [hspace]
  rcases hi.pageAllocCustomFit_cases hn with hnull | ⟨va, t, brk, halign, hmin, hmax, hfree, hcall⟩
  · obtain ⟨L', R, -, -, hplaced⟩ := hi.pageAllocCustomFit_places hn hnull
    have hnone : (spaceOf (s.bulks.regions (L .free)) s.kheapPageAllocBreak).take n = none := by
      rcases hplaced.take with ⟨-, hbreak | ⟨r, hr, hstart⟩⟩ | ⟨-, hnone⟩
      · have hge := hi.break_ge
        omega
      · have hbounds := hi.bounds (List.mem_append_left _ hr)
        omega
      · exact hnone
    rw [hnull, hnone]
    simp only [Option.bind_some, if_true, Option.map_none, Option.bind_fun_none]
    exact .none
  · have hrel := h.pool.allocRegion hi.accounts hi.blocks halign hn hmin hmax hfree t
    cases halloc : KHeap.allocRegion { s with bulks := t } va n with
    | none =>
      rw [halloc] at hrel hcall
      cases hpool : (st.pool.takeFrames (n / 4096)).bind (·.takeBlock (sizeClass sizeofBulk)) with
      | none =>
        rw [hcall]
        exact .none
      | some p =>
        rw [hpool] at hrel
        cases hrel
    | some s' =>
      rw [halloc] at hrel hcall
      obtain ⟨p, hp, hpooled⟩ := rel_of_some hrel rfl
      have hcall : s.pageAllocCustomFit n = some ({ s' with kheapPageAllocBreak := brk }, va) := hcall
      obtain ⟨L', R, hspells, hperm, hplaced⟩ := hi.pageAllocCustomFit_places hn hcall
      obtain ⟨htake, -⟩ | ⟨hzero, -⟩ := hplaced.take
      · rw [hcall, hp, htake, Option.bind_some, if_neg (by omega), Option.bind_some]
        refine .some ⟨hpooled.congr rfl rfl, ⟨L', hspells, ?_⟩, rfl⟩
        exact Multiset.coe_eq_coe.mpr (hperm.map _)
      · omega

/-- There is always some stock. -/
theorem Inv.stocked (hi : Inv all boot handed F s L client lost) : ∃ st, Stocked s st := by
  obtain ⟨cls, free, freePages, hinv, -⟩ := hi.blocks.inv
  let pool : Pool := ⟨F.length, fun c => (free c).length, freePages.length⟩
  have hpool : Pooled s pool :=
    ⟨⟨F, hi.accounts.free, rfl⟩, ⟨free, hinv.blocks, fun _ => rfl⟩, ⟨freePages, hinv.pages, rfl⟩⟩
  exact ⟨⟨pool, spaceOf (s.bulks.regions (L .free)) s.kheapPageAllocBreak⟩, hpool, ⟨⟨L, hi.spells, rfl⟩, rfl⟩⟩

/-- `kmalloc` returns a pointer exactly when the stock suffices, and takes what the stock says. -/
theorem Stocked.kmalloc (h : Stocked s st) (hi : Inv all boot handed F s L client lost) (hpos : 0 < size) :
    Option.Rel (fun r st' => Stocked r.1 st')
      ((s.kmalloc size).bind fun r => if r.2 = 0 then none else some r) (st.kmalloc size) := by
  unfold KHeap.kmalloc Stock.kmalloc
  rw [if_neg (Nat.ne_of_gt hpos)]
  split
  case isTrue hsize =>
    have hblock : (s.allocBlock size).bind (fun r => if r.2 = 0 then none else some r) = s.allocBlock size := by
      refine (Option.bind_congr fun r hr => ?_).trans (Option.bind_fun_some _)
      obtain ⟨m, d, -, -, hblocks, -⟩ := hi.blocks.allocBlock hi.accounts hpos hr
      have hbounds := hblocks.bounds (List.mem_cons_self ..)
      simp only [kernelHeapStart] at hbounds
      exact if_neg (by omega)
    have hkept : ∀ r, s.allocBlock size = some r → r.1.bulks = s.bulks ∧ r.1.kheapPageAllocBreak = s.kheapPageAllocBreak := by
      intro r hr
      obtain ⟨m, d, heq, -⟩ := hi.blocks.allocBlock hi.accounts hpos hr
      rw [heq]
      exact ⟨rfl, rfl⟩
    have hpool : Option.Rel (fun r p => Stocked r.1 { st with pool := p }) (s.allocBlock size) (st.pool.takeBlock (sizeClass size)) := by
      refine rel_imp (h.pool.allocBlock hi.blocks hi.accounts hpos hsize) fun r p hr _ hpooled => ?_
      obtain ⟨hbulks, hbreak⟩ := hkept r hr
      exact ⟨hpooled, hbulks ▸ h.space.regions, hbreak ▸ h.space.room⟩
    rw [hblock]
    have hrel := rel_map (f := id) (Q := fun r st' => Stocked r.1 st') hpool fun _ _ _ h => h
    rwa [Option.map_id] at hrel
  case isFalse => exact h.pageAllocCustomFit hi (roundUp_aligned size)

end KHeap

end Fos.Heap
