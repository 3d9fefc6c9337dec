import Fos.Heap.DynAlloc
import Fos.Lib.Slab
import Mathlib.Tactic.FinCases

/-! The invariant of the block allocator: its lists spell free lists that, with the blocks handed out, tile the
    pages in use. `alloc_block` and `free_block` keep it. -/

namespace Fos.Heap
open Lib

/-- The pages and block sizes of the area from `start` on. -/
def slabs (start : Nat) : Slabs SizeClass where
  start := start
  page := pageSize
  size := SizeClass.blockSize
  size_pos := fun c => Nat.two_pow_pos _
  page_pos := by decide
  size_dvd := by decide

@[simp] theorem slabs_page (start : Nat) : (slabs start).page = 4096 := rfl

@[simp] theorem slabs_size (start : Nat) (c : SizeClass) : (slabs start).size c = c.blockSize := rfl

theorem blockSize_le (c : SizeClass) : 8 ≤ c.blockSize ∧ c.blockSize ≤ 2048 := by
  revert c
  decide

theorem perPage_le (start : Nat) (c : SizeClass) : (slabs start).perPage c ≤ 512 := by
  revert c
  show ∀ c : SizeClass, pageSize / c.blockSize ≤ 512
  decide

namespace DynAlloc

def totalPages (d : DynAlloc) : Nat := (d.dynAllocEnd - d.dynAllocStart) / pageSize

/-- The allocator represents the free lists `free`, the list `freePages` of free pages and the blocks `out` handed
    out, where `cls` is the class of each page in use. -/
structure Rep (d : DynAlloc) (cls : Nat → Option SizeClass) (free : SizeClass → List Nat) (freePages out : List Nat) :
    Prop where
  start_aligned : d.dynAllocStart % 4096 = 0
  end_aligned : d.dynAllocEnd % 4096 = 0
  start_le : d.dynAllocStart ≤ d.dynAllocEnd
  end_lt : d.dynAllocEnd < 4294967296
  max_size : d.dynAllocEnd ≤ d.dynAllocStart + dynAllocMaxSize
  blocks : d.blocks.Spells free
  pages : d.pages.Spells fun _ => freePages
  tiled : Tiled (slabs d.dynAllocStart) cls free out
  free_page : ∀ i, i ∈ freePages ↔ i < d.totalPages ∧ cls i = none
  used_page : ∀ i c, cls i = some c → i < d.totalPages
  blockSize : ∀ i, i < d.totalPages → d.blockSize i = (cls i).elim 0 SizeClass.blockSize
  numFree : ∀ i, i < d.totalPages →
    d.numOfFreeBlocks i = (cls i).elim 0 fun c => (slabs d.dynAllocStart).freeIn free c i

/-- Between calls a page whose blocks are all free has been returned. -/
structure Inv (d : DynAlloc) (cls : Nat → Option SizeClass) (free : SizeClass → List Nat) (freePages out : List Nat) : Prop
    extends Rep d cls free freePages out where
  busy : ∀ i c, cls i = some c → ∃ b ∈ out, b ∈ (slabs d.dynAllocStart).slots c i

variable {d d' : DynAlloc} {cls : Nat → Option SizeClass} {free : SizeClass → List Nat} {freePages out : List Nat}
  {c : SizeClass} {i b : Nat}

/-- The order in which the blocks that are out are listed does not matter. -/
theorem Inv.perm (h : Inv d cls free freePages out) {out' : List Nat} (hp : out.Perm out') :
    Inv d cls free freePages out' where
  toRep := { h.toRep with tiled := h.tiled.perm hp }
  busy := fun i c hi => by
    obtain ⟨b, hb, hslot⟩ := h.busy i c hi
    exact ⟨b, hp.mem_iff.mp hb, hslot⟩

theorem Rep.base_le (h : Rep d cls free freePages out) (hi : i < d.totalPages) :
    (slabs d.dynAllocStart).base i + 4096 ≤ d.dynAllocEnd := by
  have := h.start_aligned
  have := h.end_aligned
  have := h.start_le
  simp only [totalPages, pageSize] at hi
  simp only [Slabs.base, slabs, pageSize]
  omega

/-- An address in the page of the memory that page `i` of the area is. -/
theorem Rep.pageOf_of_div {a : Nat} (h : Rep d cls free freePages out)
    (ha : a / 4096 = (slabs d.dynAllocStart).base i / 4096) : (slabs d.dynAllocStart).pageOf a = i := by
  have hstart := h.start_aligned
  have hbase : (slabs d.dynAllocStart).base i = d.dynAllocStart + i * 4096 := rfl
  exact Slabs.pageOf_eq (by omega) (by rw [slabs_page]; omega)

theorem Rep.totalPages_le (h : Rep d cls free freePages out) : d.totalPages ≤ 8192 := by
  have := h.max_size
  simp only [dynAllocMaxSize] at this
  simp only [totalPages, pageSize]
  omega

theorem Rep.slot_bounds (h : Rep d cls free freePages out) (hi : cls i = some c)
    (hb : b ∈ (slabs d.dynAllocStart).slots c i) : d.dynAllocStart ≤ b ∧ b + c.blockSize ≤ d.dynAllocEnd := by
  have hle := h.base_le (h.used_page i c hi)
  have hslot := Slabs.slot_bounds hb
  simp only [slabs_size, slabs_page] at hslot
  have hstart : d.dynAllocStart ≤ (slabs d.dynAllocStart).base i := Nat.le_add_right _ _
  omega

/-- The index that the code computes for the page of a block. -/
theorem pageIndex_eq (hle : d.dynAllocStart ≤ b) (hlt : b < 4294967296) :
    sub32 b d.dynAllocStart / pageSize = (slabs d.dynAllocStart).pageOf b := by
  rw [sub32_of_le hle hlt]
  rfl

theorem Rep.pageIndex_slot (h : Rep d cls free freePages out) (hi : cls i = some c)
    (hb : b ∈ (slabs d.dynAllocStart).slots c i) : sub32 b d.dynAllocStart / pageSize = i := by
  have hbounds := h.slot_bounds hi hb
  have := h.end_lt
  have := (blockSize_le c).1
  rw [pageIndex_eq hbounds.1 (by omega), Slabs.pageOf_slot hb]

/-- `get_block_size` of a block that is out. -/
theorem Rep.getBlockSize_eq (h : Rep d cls free freePages out) (hi : cls i = some c)
    (hb : b ∈ (slabs d.dynAllocStart).slots c i) : d.getBlockSize b = c.blockSize := by
  have hbounds := h.slot_bounds hi hb
  have := (blockSize_le c).1
  rw [getBlockSize, if_neg (by omega), h.pageIndex_slot hi hb, h.blockSize i (h.used_page i c hi), hi]
  rfl

theorem Rep.numFree_le (h : Rep d cls free freePages out) (hi : cls i = some c) :
    d.numOfFreeBlocks i ≤ 512 := by
  rw [h.numFree i (h.used_page i c hi), hi, Option.elim_some]
  exact h.tiled.freeIn_le.trans (perPage_le _ _)

/-! ### `alloc_block` -/

/-- The free list of a class loses a block, which is handed out. -/
theorem Rep.takeBlock (h : Rep d cls free freePages out) (hb : b ∈ free c) :
    Rep (d.takeBlock c b) cls (Function.update free c ((free c).erase b)) freePages (b :: out) := by
  obtain ⟨hcls, hslot⟩ := h.tiled.cls_of_listed hb
  have hindex := h.pageIndex_slot hcls hslot
  have hle := h.numFree_le hcls
  refine ⟨h.start_aligned, h.end_aligned, h.start_le, h.end_lt, h.max_size, h.blocks.remove hb, h.pages,
    h.tiled.take hb, h.free_page, h.used_page, h.blockSize, fun i hi => ?_⟩
  have hold := h.numFree i hi
  show Function.update d.numOfFreeBlocks _ _ i = (cls i).elim 0 fun c' => (slabs d.dynAllocStart).freeIn _ c' i
  rw [hindex]
  by_cases hpage : i = (slabs d.dynAllocStart).pageOf b
  · subst hpage
    have htake := Slabs.freeIn_take (S := slabs d.dynAllocStart) hb
    rw [hcls, Option.elim_some] at hold
    rw [Function.update_self, hcls, Option.elim_some, u16]
    omega
  · rw [Function.update_of_ne hpage, hold]
    simp only [Slabs.freeIn_take_of_ne hpage]

theorem insertBlocks_spec {bs : List Nat} (hs : d.insertBlocks c bs = some d') (h : d.blocks.Spells free)
    (hnew : ∀ b ∈ bs, ∀ c', b ∉ free c') (hn : bs.Nodup) :
    ∃ B, d' = { d with blocks := B } ∧ B.Spells (Function.update free c (free c ++ bs)) ∧
      ∀ a, a ∉ bs → a ∉ free c → B.link a = d.blocks.link a := by
  induction bs generalizing d free with
  | nil =>
    cases hs
    exact ⟨_, rfl, by simpa using h, fun _ _ _ => rfl⟩
  | cons b bs ih =>
    simp only [insertBlocks, Option.ite_none_left_eq_some] at hs
    obtain ⟨hb, hbs⟩ := List.nodup_cons.mp hn
    have hins := h.insertTail (i := c) (hnew b (by simp))
    have hnew' : ∀ x ∈ bs, ∀ c', x ∉ Function.update free c (free c ++ [b]) c' := by
      intro x hx c'
      have hx' := hnew x (List.mem_cons_of_mem _ hx)
      by_cases hc : c' = c
      · subst hc
        have hxb : x ≠ b := fun hxb => hb (hxb ▸ hx)
        simp [hx', hxb]
      · rw [Function.update_of_ne hc]
        exact hx' c'
    obtain ⟨B, rfl, hB, hmem⟩ := ih hs.2 hins hnew' hbs
    refine ⟨B, rfl, by simpa using hB, fun a ha hac => ?_⟩
    obtain ⟨hab, ha⟩ := not_or.mp (fun h => ha (List.mem_cons.mpr h))
    have hrest := hmem a ha (by simp [hac, hab])
    exact hrest.trans (h.link_insertTail hab hac)

theorem insertBlocks_some {bs : List Nat} (h : ∀ b ∈ bs, b ≠ 0) : ∃ d', d.insertBlocks c bs = some d' := by
  induction bs generalizing d with
  | nil => exact ⟨d, rfl⟩
  | cons b bs ih =>
    unfold insertBlocks
    rw [if_neg (h b (List.mem_cons_self ..))]
    exact ih fun x hx => h x (List.mem_cons_of_mem _ hx)

theorem removeBlocks_spec {bs : List Nat} (hs : d.removeBlocks c bs = some d') (h : d.blocks.Spells free)
    (hmem : ∀ b ∈ bs, b ∈ free c) (hn : bs.Nodup) :
    ∃ B, d' = { d with blocks := B } ∧ B.Spells (Function.update free c ((free c).diff bs)) := by
  induction bs generalizing d free with
  | nil =>
    cases hs
    exact ⟨_, rfl, by simpa using h⟩
  | cons b bs ih =>
    simp only [removeBlocks, Option.ite_none_left_eq_some] at hs
    obtain ⟨hb, hbs⟩ := List.nodup_cons.mp hn
    have hrem := h.remove (hmem b (by simp))
    have hmem' : ∀ x ∈ bs, x ∈ Function.update free c ((free c).erase b) c := by
      intro x hx
      have hxb : x ≠ b := fun hxb => hb (hxb ▸ hx)
      rw [Function.update_self, List.mem_erase_of_ne hxb]
      exact hmem x (List.mem_cons_of_mem _ hx)
    obtain ⟨B, rfl, hB⟩ := ih hs.2 hrem hmem' hbs
    exact ⟨B, rfl, by simpa using hB⟩

/-- The addresses that the code computes for the blocks of a page do not wrap. -/
theorem Rep.blocksOfPage_eq (h : Rep d cls free freePages out) (hi : i < d.totalPages) (c : SizeClass) :
    blocksOfPage ((slabs d.dynAllocStart).base i) c.blockSize (pageSize / c.blockSize) =
      (slabs d.dynAllocStart).slots c i := by
  have hle := h.base_le hi
  have hlt := h.end_lt
  refine List.map_congr_left fun j hj => ?_
  have hslot := Slabs.slot_bounds (S := slabs d.dynAllocStart) (c := c) (i := i)
    (Slabs.mem_slots.mpr ⟨j, List.mem_range.mp hj, rfl⟩)
  have := (blockSize_le c).1
  simp only [slabs_size, slabs_page] at hslot
  exact u32_of_lt (by omega)

theorem Rep.toPageVa_eq (h : Rep d cls free freePages out) (hi : i < d.totalPages) :
    d.toPageVa i = some ((slabs d.dynAllocStart).base i) := by
  have hle := h.base_le hi
  have hlt := h.end_lt
  have := h.totalPages_le
  rw [toPageVa, if_pos (by simp only [dynAllocMaxSize, pageSize]; omega)]
  exact congrArg some (u32_of_lt (by simp only [Slabs.base, slabs, pageSize] at hle ⊢; omega))

/-- What is written outside the free blocks does not matter. -/
theorem Rep.congr_link (h : Rep d cls free freePages out) {link : Nat → Link Nat}
    (hl : ∀ c, ∀ x ∈ free c, link x = d.blocks.link x) :
    Rep { d with blocks := { d.blocks with link := link } } cls free freePages out :=
  ⟨h.start_aligned, h.end_aligned, h.start_le, h.end_lt, h.max_size, h.blocks.congr_link hl, h.pages, h.tiled,
    h.free_page, h.used_page, h.blockSize, h.numFree⟩

/-- A free block is not inside a block that is out. -/
theorem Rep.not_inside (h : Rep d cls free freePages out) {c' : SizeClass} {x : Nat} (hb : b ∈ out)
    (hi : cls i = some c) (hslot : b ∈ (slabs d.dynAllocStart).slots c i) (hx : x ∈ free c') :
    ¬ (b ≤ x ∧ x < b + c.blockSize) := by
  obtain ⟨hx_cls, hx_slot⟩ := h.tiled.cls_of_listed hx
  have hne : b ≠ x := fun hbx => h.tiled.apart c' x hx (hbx ▸ hb)
  have := (blockSize_le c').1
  have hapart := Tiled.blocks_apart hi hx_cls hslot hx_slot hne
  simp only [slabs_size] at hapart
  omega

theorem Rep.memset (h : Rep d cls free freePages out) (hb : b ∈ out) (hi : cls i = some c)
    (hslot : b ∈ (slabs d.dynAllocStart).slots c i) :
    Rep (d.memset b c.blockSize) cls free freePages out :=
  h.congr_link fun _ _ hx => if_neg (h.not_inside hb hi hslot hx)

/-- A free page is taken, cut into blocks of class `c` and all its blocks are put in the list. -/
theorem Rep.cutPage {B : Lists SizeClass Nat} (h : Rep d cls free freePages out)
    (hi : i ∈ freePages)
    (hB : B.Spells (Function.update free c (free c ++ (slabs d.dynAllocStart).slots c i))) :
    Rep { d with pages := d.pages.remove () i
                 blocks := B
                 blockSize := Function.update d.blockSize i (u16 c.blockSize)
                 numOfFreeBlocks := Function.update d.numOfFreeBlocks i (u16 (pageSize / c.blockSize)) }
      (Function.update cls i (some c)) (Function.update free c (free c ++ (slabs d.dynAllocStart).slots c i))
      (freePages.erase i) out := by
  obtain ⟨hlt, hnone⟩ := (h.free_page i).mp hi
  have hnodup : freePages.Nodup := h.pages.nodup ()
  have hpages : (d.pages.remove () i).Spells fun _ => freePages.erase i := by
    have := h.pages.remove (i := ()) hi
    simpa only [Lists.update_unit] using this
  have hfresh : ∀ b ∈ free c, (slabs d.dynAllocStart).pageOf b ≠ i := by
    rintro b hb rfl
    rw [(h.tiled.cls_of_listed hb).1] at hnone
    cases hnone
  refine ⟨h.start_aligned, h.end_aligned, h.start_le, h.end_lt, h.max_size, hB, hpages, h.tiled.opened hnone,
    fun j => ?_, fun j c' hj => ?_, fun j hj => ?_, fun j hj => ?_⟩
  · rw [hnodup.mem_erase_iff, h.free_page j]
    by_cases hji : j = i
    · simp [hji]
    · simp [hji, totalPages]
  · by_cases hji : j = i
    · exact hji ▸ hlt
    · rw [Function.update_of_ne hji] at hj
      exact h.used_page j c' hj
  · by_cases hji : j = i
    · subst hji
      have := (blockSize_le c).2
      simp only [Function.update_self, Option.elim_some]
      exact u16_of_lt (by omega)
    · simp only [Function.update_of_ne hji]
      exact h.blockSize j hj
  · by_cases hji : j = i
    · subst hji
      have hle := perPage_le d.dynAllocStart c
      simp only [Function.update_self, Option.elim_some]
      rw [Slabs.freeIn_opened hfresh]
      exact u16_of_lt (by simp only [Slabs.perPage, slabs] at hle; omega)
    · simp only [Function.update_of_ne hji, Slabs.freeIn_opened_of_ne hji]
      exact h.numFree j hj

variable {σ : Type} {ops : PageOps σ} {w w' : σ} {va : Nat}

/-- The page `i` that the allocator asked for, on the way from `w` to `w'`. -/
def GotPage (ops : PageOps σ) (start : Nat) (w w' : σ) (i : Nat) : Prop :=
  ∃ m m', ops.getPage w m ((slabs start).base i) = some (w', m')

theorem Rep.openPage (hops : ops.Local) (h : Rep d cls free freePages out) (hi : i ∈ freePages)
    (hempty : free c = []) (hs : openPage ops w d c c.blockSize i = some (w', d', va)) :
    Rep d' (Function.update cls i (some c)) (Function.update free c (((slabs d.dynAllocStart).slots c i).erase va))
        (freePages.erase i) (va :: out) ∧
      va ∈ (slabs d.dynAllocStart).slots c i ∧ d'.dynAllocStart = d.dynAllocStart ∧ d'.dynAllocEnd = d.dynAllocEnd ∧
      GotPage ops d.dynAllocStart w w' i := by
  obtain ⟨hlt, hnone⟩ := (h.free_page i).mp hi
  have hva : toPageVa { d with pages := d.pages.remove () i } i = some ((slabs d.dynAllocStart).base i) :=
    h.toPageVa_eq hlt
  simp only [DynAlloc.openPage, hva, Option.bind_some, Option.bind_eq_some_iff, Option.map_eq_some_iff] at hs
  obtain ⟨⟨w₁, link⟩, hget, d₁, hins, blk, hfirst, hres⟩ := hs
  obtain ⟨rfl, rfl, rfl⟩ := hres
  -- The new page held no free block, so whatever `get_page` wrote there leaves the lists as they were.
  have houtside : ∀ c', ∀ x ∈ free c', link x = d.blocks.link x := by
    intro c' x hx
    obtain ⟨hcls, hslot⟩ := h.tiled.cls_of_listed hx
    refine hops.getPage hget x fun hin => ?_
    rw [h.pageOf_of_div hin, hnone] at hcls
    cases hcls
  have hcount : Function.update d.numOfFreeBlocks i (u16 (pageSize / c.blockSize)) i = pageSize / c.blockSize := by
    have hle := perPage_le d.dynAllocStart c
    rw [Function.update_self]
    exact u16_of_lt (by simp only [Slabs.perPage, slabs] at hle; omega)
  rw [hcount, h.blocksOfPage_eq hlt c] at hins
  have hnew : ∀ b ∈ (slabs d.dynAllocStart).slots c i, ∀ c', b ∉ free c' := by
    intro b hb c' hb'
    have hcls := (h.tiled.cls_of_listed hb').1
    rw [Slabs.pageOf_slot hb, hnone] at hcls
    cases hcls
  obtain ⟨B, rfl, hB, -⟩ := insertBlocks_spec hins (h.blocks.congr_link houtside) hnew Slabs.nodup_slots
  have hcut := h.cutPage hi hB
  have hmem : va ∈ (slabs d.dynAllocStart).slots c i := by
    have := hB.mem_of_first hfirst
    simpa [hempty] using this
  have hcls : Function.update cls i (some c) i = some c := Function.update_self ..
  have htake := hcut.takeBlock (c := c) (b := va) (by simpa [hempty] using hmem)
  have hset := htake.memset (List.mem_cons_self ..) hcls hmem
  refine ⟨?_, hmem, rfl, rfl, _, _, hget⟩
  have hindex := hcut.pageIndex_slot hcls hmem
  simp only [DynAlloc.takeBlock, hindex, hempty] at hset
  simpa using hset

theorem ceilLog2_spec {size : Nat} (fuel log2 : Nat) (hfuel : 12 ≤ log2 + fuel) (hle : log2 ≤ 11)
    (hsize : size ≤ 2048) :
    log2 ≤ ceilLog2 size fuel log2 ∧ ceilLog2 size fuel log2 ≤ 11 ∧ size ≤ 2 ^ ceilLog2 size fuel log2 := by
  induction fuel generalizing log2 with
  | zero => omega
  | succ fuel ih =>
    unfold ceilLog2
    split
    case isTrue hlt =>
      have hne : log2 ≠ 11 := by
        rintro rfl
        have := hlt.1
        omega
      have := ih (log2 + 1) (by omega) (by omega)
      omega
    case isFalse hge =>
      refine ⟨Nat.le_refl _, hle, ?_⟩
      by_contra hlt
      exact hge ⟨by omega, hle⟩

/-- The class that `alloc_block` searches first. -/
theorem classOf_spec {size : Nat} (hsize : size ≤ 2048) {log2 : Nat} (hlog2 : log2 = ceilLog2 size 9 log2MinSize) :
    SizeClass.blockSize (Fin.ofNat 9 (log2 - log2MinSize)) = 2 ^ log2 ∧ size ≤ 2 ^ log2 ∧ log2 ≤ log2MaxSize := by
  obtain ⟨hmin, hmax, hle⟩ := ceilLog2_spec 9 3 (by decide) (by decide) hsize
  subst hlog2
  refine ⟨?_, hle, hmax⟩
  simp only [log2MinSize, SizeClass.blockSize, Fin.ofNat]
  rw [Nat.mod_eq_of_lt (by omega), Nat.sub_add_cancel hmin]

theorem Inv.take (h : Inv d cls free freePages out) (hb : b ∈ free c) :
    Inv (d.takeBlock c b) cls (Function.update free c ((free c).erase b)) freePages (b :: out) := by
  refine ⟨h.toRep.takeBlock hb, fun i c' hi => ?_⟩
  obtain ⟨x, hx, hslot⟩ := h.busy i c' hi
  exact ⟨x, List.mem_cons_of_mem _ hx, hslot⟩

/-- What a successful `alloc_block` did: it handed out `va`, of a block at least as large as asked for, and the
    blocks that were out kept their sizes. Either no page changed its class or a free page was taken. -/
structure Allocated (ops : PageOps σ) (d d' : DynAlloc) (w w' : σ) (cls : Nat → Option SizeClass) (out : List Nat)
    (size va : Nat) : Prop where
  start_eq : d'.dynAllocStart = d.dynAllocStart
  end_eq : d'.dynAllocEnd = d.dynAllocEnd
  fits : size ≤ d'.getBlockSize va
  kept : ∀ b ∈ out, d'.getBlockSize b = d.getBlockSize b
  inv : ∃ cls' free' freePages', Inv d' cls' free' freePages' (va :: out) ∧
    (w' = w ∧ cls' = cls ∨
      ∃ i c, i < d.totalPages ∧ cls i = none ∧ cls' = Function.update cls i (some c) ∧
        GotPage ops d.dynAllocStart w w' i)

theorem Inv.allocated_take {size : Nat} (h : Inv d cls free freePages out) (hb : b ∈ free c)
    (hsize : size ≤ c.blockSize) : Allocated ops d (d.takeBlock c b) w w cls out size b := by
  have htake := h.take hb
  obtain ⟨hcls, hslot⟩ := h.tiled.cls_of_listed hb
  refine ⟨rfl, rfl, ?_, fun b' hb' => rfl, _, _, _, htake, .inl ⟨rfl, rfl⟩⟩
  rw [htake.toRep.getBlockSize_eq hcls hslot]
  exact hsize

theorem Inv.allocated_open {size : Nat} (hops : ops.Local) (h : Inv d cls free freePages out) (hi : i ∈ freePages)
    (hempty : free c = []) (hsize : size ≤ c.blockSize)
    (hs : openPage ops w d c c.blockSize i = some (w', d', va)) : Allocated ops d d' w w' cls out size va := by
  obtain ⟨hlt, hnone⟩ := (h.free_page i).mp hi
  obtain ⟨hrep, hmem, hstart, hend, hgot⟩ := h.toRep.openPage hops hi hempty hs
  have hcls : ∀ {j c'}, cls j = some c' → Function.update cls i (some c) j = some c' := by
    intro j c' hj
    rw [Function.update_of_ne, hj]
    rintro rfl
    rw [hnone] at hj
    cases hj
  have hopened : Function.update cls i (some c) i = some c := Function.update_self ..
  refine ⟨hstart, hend, ?_, fun b hb => ?_, _, _, _, ⟨hrep, fun j c' hj => ?_⟩, .inr ⟨i, c, hlt, hnone, rfl, hgot⟩⟩
  · rw [hrep.getBlockSize_eq hopened (hstart ▸ hmem)]
    exact hsize
  · obtain ⟨c', hc', hslot⟩ := h.tiled.cls_of_handed hb
    rw [hrep.getBlockSize_eq (hcls hc') (hstart ▸ hslot), h.toRep.getBlockSize_eq hc' hslot]
  · by_cases hji : j = i
    · subst hji
      rw [hopened, Option.some.injEq] at hj
      subst hj
      exact ⟨va, by simp, hstart ▸ hmem⟩
    · rw [Function.update_of_ne hji] at hj
      obtain ⟨x, hx, hslot⟩ := h.busy j c' hj
      exact ⟨x, List.mem_cons_of_mem _ hx, hstart ▸ hslot⟩

theorem allocLarger_spec {cs : List SizeClass} (hs : allocLarger w d cs = some (w', d', va)) :
    ∃ c ∈ cs, (d.blocks.head c).first = some va ∧ d' = d.takeBlock c va ∧ w' = w := by
  induction cs with
  | nil => cases hs
  | cons c cs ih =>
    unfold allocLarger at hs
    split at hs
    case h_1 blk hblk =>
      cases hs
      exact ⟨c, by simp, hblk, rfl, rfl⟩
    case h_2 =>
      obtain ⟨c', hc', hrest⟩ := ih hs
      exact ⟨c', List.mem_cons_of_mem _ hc', hrest⟩

theorem blockSize_mono {c c' : SizeClass} (h : c < c') : c.blockSize ≤ c'.blockSize :=
  Nat.pow_le_pow_right (by decide) (by have : c.val < c'.val := h; omega)

theorem Inv.allocBlock {size : Nat} (hops : ops.Local) (h : Inv d cls free freePages out) (hpos : 0 < size)
    (hs : allocBlock ops w d size = some (w', d', va)) : Allocated ops d d' w w' cls out size va := by
  simp only [DynAlloc.allocBlock, dynAllocMaxBlockSize, Nat.ne_of_gt hpos, if_false,
    Option.ite_none_right_eq_some] at hs
  obtain ⟨hsize, hs⟩ := hs
  obtain ⟨hclass, hfits, hmax⟩ := classOf_spec hsize rfl
  rw [if_neg (by omega)] at hs
  generalize hc : Fin.ofNat 9 (ceilLog2 size 9 log2MinSize - log2MinSize) = c at hs hclass
  rw [← hclass] at hfits hs
  split at hs
  case h_1 blk hblk =>
    cases hs
    exact h.allocated_take (h.blocks.mem_of_first hblk) hfits
  case h_2 hnone =>
    have hempty := h.blocks.eq_nil_of_first hnone
    split at hs
    case h_1 page hpage => exact h.allocated_open hops (h.pages.mem_of_first hpage) hempty hfits hs
    case h_2 =>
      obtain ⟨c', hc', hfirst, rfl, rfl⟩ := allocLarger_spec hs
      have hlt : c < c' := by simpa using (List.mem_filter.mp hc').2
      exact h.allocated_take (h.blocks.mem_of_first hfirst) (hfits.trans (blockSize_mono hlt))

/-! ### `free_block` -/

/-- A block that was out is put at the head of the list of its class. -/
theorem Rep.putBlock (h : Rep d cls free freePages out) (hb : b ∈ out) (hi : cls i = some c)
    (hslot : b ∈ (slabs d.dynAllocStart).slots c i) :
    Rep { d with blocks := d.blocks.insertHead c b
                 numOfFreeBlocks := Function.update d.numOfFreeBlocks i (u16 (d.numOfFreeBlocks i + 1)) }
      cls (Function.update free c (b :: free c)) freePages (out.erase b) := by
  obtain rfl := Slabs.pageOf_slot hslot
  have hle := h.numFree_le hi
  have hnew : ∀ c', b ∉ free c' := fun c' hb' => h.tiled.apart c' b hb' hb
  refine ⟨h.start_aligned, h.end_aligned, h.start_le, h.end_lt, h.max_size, h.blocks.insertHead hnew, h.pages,
    h.tiled.give hb hi, h.free_page, h.used_page, h.blockSize, fun j hj => ?_⟩
  have hold := h.numFree j hj
  by_cases hji : j = (slabs d.dynAllocStart).pageOf b
  · subst hji
    rw [hi, Option.elim_some] at hold
    rw [hi]
    simp only [Function.update_self, Option.elim_some, Slabs.freeIn_give]
    rw [hold]
    exact u16_of_lt (by omega)
  · simp only [Function.update_of_ne hji, Slabs.freeIn_give_of_ne hji]
    exact hold

/-- A page whose blocks are all free leaves its class and becomes a free page. -/
theorem Rep.closePage {B : Lists SizeClass Nat} (h : Rep d cls free freePages out) (hi : cls i = some c)
    (hall : ∀ b ∈ (slabs d.dynAllocStart).slots c i, b ∈ free c)
    (hB : B.Spells (Function.update free c ((free c).diff ((slabs d.dynAllocStart).slots c i)))) :
    Rep { d with blocks := B
                 blockSize := Function.update d.blockSize i 0
                 numOfFreeBlocks := Function.update d.numOfFreeBlocks i 0
                 pages := d.pages.insertTail () i }
      (Function.update cls i none) (Function.update free c ((free c).diff ((slabs d.dynAllocStart).slots c i)))
      (freePages ++ [i]) out := by
  have hnot : i ∉ freePages := fun hmem => by
    rw [((h.free_page i).mp hmem).2] at hi
    cases hi
  have hlt := h.used_page i c hi
  have hpages : (d.pages.insertTail () i).Spells fun _ => freePages ++ [i] := by
    have := h.pages.insertTail (i := ()) fun _ => hnot
    simpa only [Lists.update_unit] using this
  refine ⟨h.start_aligned, h.end_aligned, h.start_le, h.end_lt, h.max_size, hB, hpages, h.tiled.closed hi hall,
    fun j => ?_, fun j c' hj => ?_, fun j hj => ?_, fun j hj => ?_⟩
  · rw [List.mem_append, h.free_page j, List.mem_singleton]
    by_cases hji : j = i
    · subst hji
      simpa [totalPages] using hlt
    · simp [hji, totalPages]
  · by_cases hji : j = i
    · exact hji ▸ hlt
    · rw [Function.update_of_ne hji] at hj
      exact h.used_page j c' hj
  · by_cases hji : j = i
    · simp [hji]
    · simp only [Function.update_of_ne hji]
      exact h.blockSize j hj
  · by_cases hji : j = i
    · simp [hji]
    · simp only [Function.update_of_ne hji, Slabs.freeIn_closed_of_ne hji (h.tiled.free_nodup c)]
      exact h.numFree j hj

/-- The page `i` that the allocator gave back, on the way from `w` to `w'`. -/
def ReturnedPage (ops : PageOps σ) (start : Nat) (w w' : σ) (i : Nat) : Prop :=
  ∃ m m', ops.returnPage w m ((slabs start).base i) = some (w', m')

/-- The part of `free_block` that gives a page back. -/
theorem Rep.retirePage (hops : ops.Local) {d₁ : DynAlloc} {link : Nat → Link Nat} (h : Rep d cls free freePages out)
    (hi : cls i = some c) (hall : ∀ b ∈ (slabs d.dynAllocStart).slots c i, b ∈ free c)
    (hrem : d.removeBlocks c ((slabs d.dynAllocStart).slots c i) = some d₁)
    (hret : ops.returnPage w d₁.blocks.link ((slabs d.dynAllocStart).base i) = some (w', link)) :
    Rep { d₁ with blocks := { d₁.blocks with link := link }
                  blockSize := Function.update d₁.blockSize i 0
                  numOfFreeBlocks := Function.update d₁.numOfFreeBlocks i 0
                  pages := d₁.pages.insertTail () i }
      (Function.update cls i none) (Function.update free c ((free c).diff ((slabs d.dynAllocStart).slots c i)))
      (freePages ++ [i]) out ∧ d₁.dynAllocStart = d.dynAllocStart ∧ d₁.dynAllocEnd = d.dynAllocEnd := by
  obtain ⟨B, rfl, hB⟩ := removeBlocks_spec hrem h.blocks hall Slabs.nodup_slots
  refine ⟨h.closePage hi hall (hB.congr_link fun c' x hx => ?_), rfl, rfl⟩
  -- No free block is left in the page, so whatever `return_page` does there leaves the lists as they are.
  have hx_cls := ((h.tiled.closed hi hall).cls_of_listed hx).1
  refine hops.returnPage hret x fun hin => ?_
  rw [h.pageOf_of_div hin, Function.update_self] at hx_cls
  cases hx_cls

/-- What a successful `free_block` of a block that was out did. -/
structure Freed (ops : PageOps σ) (d d' : DynAlloc) (w w' : σ) (cls : Nat → Option SizeClass) (out : List Nat)
    (va : Nat) : Prop where
  start_eq : d'.dynAllocStart = d.dynAllocStart
  end_eq : d'.dynAllocEnd = d.dynAllocEnd
  kept : ∀ b ∈ out, b ≠ va → d'.getBlockSize b = d.getBlockSize b
  inv : ∃ cls' free' freePages', Inv d' cls' free' freePages' (out.erase va) ∧
    (w' = w ∧ cls' = cls ∨
      ∃ i c, cls i = some c ∧ cls' = Function.update cls i none ∧ ReturnedPage ops d.dynAllocStart w w' i)

theorem log2_blockSize (c : SizeClass) :
    Nat.log2 c.blockSize = c.val + 3 ∧ Fin.ofNat 9 (Nat.log2 c.blockSize - log2MinSize) = c := by
  revert c
  decide

theorem Inv.freeBlock (hops : ops.Local) (h : Inv d cls free freePages out) (hva : va ∈ out)
    (hs : freeBlock ops w d va = some (w', d')) : Freed ops d d' w w' cls out va := by
  obtain ⟨c, hcls, hslot⟩ := h.tiled.cls_of_handed hva
  generalize hi : (slabs d.dynAllocStart).pageOf va = i at hcls hslot
  have hlt := h.used_page i c hcls
  have hindex := h.toRep.pageIndex_slot hcls hslot
  have hsize : d.blockSize i = c.blockSize := by rw [h.blockSize i hlt, hcls]; rfl
  obtain ⟨hlog2, hclass⟩ := log2_blockSize c
  simp only [DynAlloc.freeBlock, hindex, hsize, hclass, Option.ite_none_right_eq_some,
    Option.ite_none_left_eq_some] at hs
  obtain ⟨-, -, hs⟩ := hs
  have hput := h.toRep.putBlock hva hcls hslot
  have hcount := hput.numFree i hlt
  simp only [hcls, Option.elim_some] at hcount
  have hnodup := h.tiled.out_nodup
  split at hs
  case isFalse hne =>
    cases hs
    refine ⟨rfl, rfl, fun b _ _ => rfl, _, _, _, ⟨hput, fun j c' hj => ?_⟩, .inl ⟨rfl, rfl⟩⟩
    by_cases hji : j = i
    · subst hji
      obtain rfl : c = c' := Option.some.inj (hcls.symm.trans hj)
      refine hput.tiled.exists_out hj ?_
      rw [← hcount]
      exact hne
    · obtain ⟨x, hx, hx_slot⟩ := h.busy j c' hj
      have hxva : x ≠ va := by
        rintro rfl
        exact hji (by rw [← Slabs.pageOf_slot hx_slot, hi])
      exact ⟨x, (List.mem_erase_of_ne hxva).mpr hx, hx_slot⟩
  case isTrue hfull =>
    rw [hput.toPageVa_eq hlt] at hs
    simp only [Option.bind_some, Option.bind_eq_some_iff, Option.map_eq_some_iff] at hs
    obtain ⟨d₁, hrem, ⟨w₁, link⟩, hret, hres⟩ := hs
    obtain ⟨rfl, rfl⟩ := hres
    have hall : ∀ b ∈ (slabs d.dynAllocStart).slots c i, b ∈ Function.update free c (va :: free c) c :=
      fun b hb => hput.tiled.all_free (by rw [← hcount]; exact hfull) hb
    rw [hput.blocksOfPage_eq hlt c] at hrem
    obtain ⟨hclose, hstart, hend⟩ := hput.retirePage hops hcls hall hrem hret
    have hslabs : slabs d₁.dynAllocStart = slabs d.dynAllocStart := congrArg slabs hstart
    have hkeep : ∀ b ∈ out.erase va, (slabs d.dynAllocStart).pageOf b ≠ i := by
      rintro b hb rfl
      obtain ⟨c', hc', -⟩ := hclose.tiled.cls_of_handed hb
      simp only [hslabs, Function.update_self] at hc'
      cases hc'
    refine ⟨hstart, hend, fun b hb hne => ?_, _, _, _, ⟨hclose, fun j c' hj => ?_⟩,
      .inr ⟨i, c, hcls, rfl, _, _, hret⟩⟩
    · obtain ⟨c', hc', hb_slot⟩ := h.tiled.cls_of_handed hb
      have hpage := hkeep b ((List.mem_erase_of_ne hne).mpr hb)
      have hc'' : Function.update cls i none ((slabs d.dynAllocStart).pageOf b) = some c' := by
        rw [Function.update_of_ne hpage, hc']
      rw [h.toRep.getBlockSize_eq hc' hb_slot]
      exact hclose.getBlockSize_eq hc'' (hslabs ▸ hb_slot)
    · by_cases hji : j = i
      · subst hji
        rw [Function.update_self] at hj
        cases hj
      · rw [Function.update_of_ne hji] at hj
        obtain ⟨x, hx, hx_slot⟩ := h.busy j c' hj
        have hxva : x ≠ va := by
          rintro rfl
          exact hji (by rw [← Slabs.pageOf_slot hx_slot, hi])
        exact ⟨x, (List.mem_erase_of_ne hxva).mpr hx, hslabs ▸ hx_slot⟩

theorem removeBlocks_some {bs : List Nat} (h : ∀ b ∈ bs, b ≠ 0) : ∃ d', d.removeBlocks c bs = some d' := by
  induction bs generalizing d with
  | nil => exact ⟨d, rfl⟩
  | cons b bs ih =>
    unfold removeBlocks
    rw [if_neg (h b (List.mem_cons_self ..))]
    exact ih fun x hx => h x (List.mem_cons_of_mem _ hx)

/-- A block that is out can be freed when its page can be given back. -/
theorem Inv.freeBlock_some (h : Inv d cls free freePages out) (hva : va ∈ out) (hpos : 0 < d.dynAllocStart)
    (hret : ∀ link i c, cls i = some c → ∃ r, ops.returnPage w link ((slabs d.dynAllocStart).base i) = some r) :
    ∃ r, DynAlloc.freeBlock ops w d va = some r := by
  obtain ⟨c, hcls, hslot⟩ := h.tiled.cls_of_handed hva
  generalize (slabs d.dynAllocStart).pageOf va = i at hcls hslot
  have hlt := h.used_page i c hcls
  have hbounds := h.toRep.slot_bounds hcls hslot
  have hblock := (blockSize_le c).1
  have hindex := h.toRep.pageIndex_slot hcls hslot
  have hsize : d.blockSize i = c.blockSize := by rw [h.blockSize i hlt, hcls]; rfl
  obtain ⟨hlog2, hclass⟩ := log2_blockSize c
  have hput := h.toRep.putBlock hva hcls hslot
  simp only [DynAlloc.freeBlock, hindex, hsize, hclass]
  rw [if_pos (by omega), if_neg (by simp only [hlog2, log2MinSize, log2MaxSize]; omega)]
  split
  case isFalse => exact ⟨_, rfl⟩
  case isTrue =>
    have hne : ∀ b ∈ (slabs d.dynAllocStart).slots c i, b ≠ 0 := by
      intro b hb
      have := h.toRep.slot_bounds hcls hb
      omega
    rw [hput.toPageVa_eq hlt, Option.bind_some, hput.blocksOfPage_eq hlt c]
    obtain ⟨d₁, hrem⟩ := removeBlocks_some hne
    rw [hrem, Option.bind_some]
    obtain ⟨r, hr⟩ := hret d₁.blocks.link i c hcls
    exact ⟨_, congrArg _ hr⟩

/-! ### `initialize_dynamic_allocator` -/

theorem foldl_init {ι α : Type} [DecidableEq ι] (l : List ι) (s : Lists ι α) (j : ι) (hj : j ∈ l ∨ s.head j = {}) :
    (l.foldl Lists.init s).head j = {} := by
  induction l generalizing s with
  | nil => simpa using hj
  | cons i l ih =>
    refine ih _ ?_
    by_cases hji : j = i
    · simp [hji, Lists.init]
    · simpa [hji, Lists.init] using hj

/-- The pages that the loop has initialised are the free pages, in order. -/
theorem foldl_initPage (h : d.pages.Spells fun _ => []) (n : Nat) :
    ∃ d', (List.range n).foldl initPage d = d' ∧ (d'.pages.Spells fun _ => List.range n) ∧
      (∀ i < n, d'.blockSize i = 0 ∧ d'.numOfFreeBlocks i = 0) ∧ d'.dynAllocStart = d.dynAllocStart ∧
      d'.dynAllocEnd = d.dynAllocEnd ∧ d'.blocks = d.blocks := by
  induction n with
  | zero => exact ⟨d, rfl, by simpa using h, by simp, rfl, rfl, rfl⟩
  | succ n ih =>
    obtain ⟨d₁, hd₁, hpages, hzero, hstart, hend, hblocks⟩ := ih
    refine ⟨d₁.initPage n, by rw [List.range_succ, List.foldl_append, hd₁]; rfl, ?_, fun i hi => ?_, hstart, hend, hblocks⟩
    · have hcleared : ((d₁.pages.setNext n none).setPrev n none).Spells fun _ => List.range n := by
        have hlink : ∀ u : Unit, ∀ x ∈ List.range n,
            ((d₁.pages.setNext n none).setPrev n none).link x = d₁.pages.link x := fun _ x hx => by
          have hxn : x ≠ n := (List.mem_range.mp hx).ne
          simp [hxn]
        exact hpages.congr_link hlink
      have hins := hcleared.insertTail (i := ()) (e := n) fun _ => by simp
      rw [Lists.update_unit, ← List.range_succ] at hins
      exact hins
    · by_cases hin : i = n
      · simp [initPage, hin]
      · simpa [initPage, hin] using hzero i (by omega)

theorem initializeDynamicAllocator_inv {daStart daEnd : Nat} (hs : daStart % 4096 = 0) (he : daEnd % 4096 = 0)
    (hle : daStart ≤ daEnd) (hlt : daEnd < 4294967296) (hmax : daEnd ≤ daStart + dynAllocMaxSize)
    (hd : d.initializeDynamicAllocator daStart daEnd = some d') :
    Inv d' (fun _ => none) (fun _ => []) (List.range ((daEnd - daStart) / pageSize)) [] ∧
      d'.dynAllocStart = daStart ∧ d'.dynAllocEnd = daEnd := by
  simp only [initializeDynamicAllocator, Option.ite_none_right_eq_some, sub32_of_le hle hlt] at hd
  obtain ⟨-, -, hd⟩ := hd
  cases hd
  obtain ⟨d₁, hd₁, hpages, hzero, hstart, hend, hblocks⟩ := foldl_initPage
    (d := { d with dynAllocStart := daStart
                   dynAllocEnd := daEnd
                   blocks := (List.finRange 9).foldl Lists.init d.blocks
                   pages := d.pages.init () })
    (Lists.spells_nil fun _ => by simp [Lists.init]) ((daEnd - daStart) / pageSize)
  rw [hd₁]
  have htotal : d₁.totalPages = (daEnd - daStart) / pageSize := by rw [totalPages, hstart, hend]
  refine ⟨⟨⟨?_, ?_, ?_, ?_, ?_, ?_, hpages, ?_, ?_, nofun, ?_, ?_⟩, nofun⟩, hstart, hend⟩
  · rwa [hstart]
  · rwa [hend]
  · rwa [hstart, hend]
  · rwa [hend]
  · rwa [hstart, hend]
  · rw [hblocks]
    exact Lists.spells_nil fun c => foldl_init _ _ c (.inl (List.mem_finRange c))
  · exact ⟨nofun, nofun, nofun, nofun, fun _ => List.nodup_nil, List.nodup_nil⟩
  · simp [htotal]
  · exact fun i hi => (hzero i (htotal ▸ hi)).1
  · exact fun i hi => (hzero i (htotal ▸ hi)).2

end DynAlloc

end Fos.Heap
