import Fos.Heap.DynAlloc
import Fos.Heap.Bulk
import Fos.Mem.Frame

/-! The kernel heap (`kern/mem/kheap.c`): `kmalloc` and `kfree`. Small sizes go to the block allocator, the others
    to a page allocator that keeps a break and two lists of regions, the free ones and the allocated ones. The nodes
    of these lists are blocks of the block allocator: a node is named by the address of its block, and the code
    writes every field of a new node before it reads one. -/

namespace Fos.Heap
open Lib Mem

/-- `sizeof(struct Bulk)` -/
def sizeofBulk : Nat := 16

/-- `get_page` and `return_page` of the kernel. A new frame is filled with zeros. -/
def kernelPages : PageOps Frames where
  getPage m link va :=
    let va := roundDown va pageSize
    (m.allocPage (.kernel (pageNo va)) va permWriteable).map fun (m, fresh) =>
      (m, if fresh then fun a => if va ≤ a ∧ a < va + pageSize then {} else link a else link)
  returnPage m link va := (m.unmapFrame (.kernel (pageNo (roundDown va pageSize)))).map (·, link)

/-- `map_frame_range`, from the page `va` to `stop`. `allocate_frame` panics and does not return `E_NO_MEM`, and
    `map_frame` returns 0, so the branches that give up are not taken. -/
def mapFrameRange (m : Frames) (va stop : Nat) : Nat → Option Frames
  | 0 => none
  | fuel + 1 =>
    if va < stop then
      (m.mapNewFrame (.kernel (pageNo va)) va permWriteable).bind fun m =>
        mapFrameRange m (u32 (va + pageSize)) stop fuel
    else some m

/-- The loop of `kfree` that unmaps the pages from `va` to `stop`. -/
def unmapFrameRange (m : Frames) (va stop : Nat) : Nat → Option Frames
  | 0 => none
  | fuel + 1 =>
    if va < stop then
      (m.unmapFrame (.kernel (pageNo va))).bind fun m => unmapFrameRange m (u32 (va + pageSize)) stop fuel
    else some m

namespace Bulks

/-- A node gets its fields and is put at the head of `bulks_allocated`. -/
def pushAllocated (s : Bulks) (b start size : Nat) : Bulks :=
  let s := (s.setStart b start).setSize b size
  let s := (s.setNext b (s.first .allocated)).setPrev b none
  let s := match s.first .allocated with
    | some c => s.setPrev c (some b)
    | none => s
  s.setFirst .allocated (some b)

/-- The lines of `kfree` that take a node out of `bulks_allocated`. -/
def unlinkAllocated (s : Bulks) (b : Nat) : Bulks :=
  let s := match (s.link b).prev with
    | some p => s.setNext p (s.link b).next
    | none => s
  let s := match (s.link b).next with
    | some n => s.setPrev n (s.link b).prev
    | none => s
  if s.first .allocated = some b then s.setFirst .allocated (s.link b).next else s

/-- The first node of a list that meets `p`. -/
def find (s : Bulks) (i : BulkList) (p : Nat → Bool) : Option (Option Nat) :=
  (walk s.next p walkFuel none (s.first i)).map Prod.snd

end Bulks

/-- The frames and the data of the heap. -/
structure KHeap where
  mem : Frames
  da : DynAlloc := {}
  kheapPageAllocStart : Nat := 0
  kheapPageAllocBreak : Nat := 0
  bulks : Bulks := {}

namespace KHeap

/-- `kheap_init()` -/
def kheapInit (s : KHeap) : Option KHeap :=
  (s.da.initializeDynamicAllocator kernelHeapStart (u32 (kernelHeapStart + dynAllocMaxSize))).map fun d =>
    { s with da := d
             kheapPageAllocStart := u32 (d.dynAllocEnd + pageSize)
             kheapPageAllocBreak := u32 (d.dynAllocEnd + pageSize) }

/-- The kernel heap after `kheap_init`, without the loop over the pages. -/
def initialized (s : KHeap) : KHeap :=
  { s with
    da := DynAlloc.initialized
      { s.da with dynAllocStart := kernelHeapStart
                  dynAllocEnd := u32 (kernelHeapStart + dynAllocMaxSize)
                  blocks := (List.finRange 9).foldl Lists.init s.da.blocks
                  pages := s.da.pages.init () } (dynAllocMaxSize / pageSize)
    kheapPageAllocStart := u32 (u32 (kernelHeapStart + dynAllocMaxSize) + pageSize)
    kheapPageAllocBreak := u32 (u32 (kernelHeapStart + dynAllocMaxSize) + pageSize) }

theorem kheapInit_eq (s : KHeap) : s.kheapInit = some s.initialized := by
  have hempty : (s.da.pages.init ()).head () = {} := by simp [Lists.init]
  unfold kheapInit DynAlloc.initializeDynamicAllocator
  rw [if_pos (Nat.le_refl _)]
  dsimp only
  rw [if_pos (by decide), DynAlloc.foldl_initPage_eq]
  · rfl
  · exact hempty

/-- `alloc_block(size)` -/
def allocBlock (s : KHeap) (size : Nat) : Option (KHeap × Nat) :=
  (DynAlloc.allocBlock kernelPages s.mem s.da size).map fun (m, d, va) => ({ s with mem := m, da := d }, va)

/-- `free_block(va)` -/
def freeBlock (s : KHeap) (va : Nat) : Option KHeap :=
  (DynAlloc.freeBlock kernelPages s.mem s.da va).map fun (m, d) => { s with mem := m, da := d }

/-- The end of every branch of `page_alloc_custom_fit`: the pages of the region are mapped, and a new node of
    `bulks_allocated` describes it. -/
def allocRegion (s : KHeap) (va size : Nat) : Option KHeap :=
  (mapFrameRange s.mem va (u32 (va + size)) walkFuel).bind fun m =>
    (allocBlock { s with mem := m } sizeofBulk).map fun (s, node) =>
      { s with bulks := s.bulks.pushAllocated node va size }

/-- The last part of `page_alloc_custom_fit`, which raises the break. -/
def extendBreak (s : KHeap) (neededBytes : Nat) : Option (KHeap × Nat) :=
  if s.kheapPageAllocBreak < s.kheapPageAllocStart then some (s, 0)
  else if neededBytes > sub32 kernelHeapMax s.kheapPageAllocBreak then some (s, 0)
  else if u32 (s.kheapPageAllocBreak + neededBytes) > kernelHeapMax then some (s, 0)
  else
    let va := s.kheapPageAllocBreak
    (s.allocRegion va neededBytes).map fun s =>
      ({ s with kheapPageAllocBreak := u32 (s.kheapPageAllocBreak + neededBytes) }, va)

/-- The free region that the first part of `page_alloc_custom_fit` finds. -/
def exactFit (s : KHeap) (neededBytes : Nat) : Option (Option Nat) :=
  match s.bulks.first .free with
  | some b => if s.bulks.size b ≥ neededBytes then s.bulks.find .free (s.bulks.size · = neededBytes) else some none
  | none => some none

/-- `page_alloc_custom_fit(needed_bytes)` -/
def pageAllocCustomFit (s : KHeap) (neededBytes : Nat) : Option (KHeap × Nat) :=
  (s.exactFit neededBytes).bind fun
  | some b =>
    let va := s.bulks.start b
    ({ s with bulks := s.bulks.removeBulk b }.allocRegion va neededBytes).map (·, va)
  | none =>
    match s.bulks.first .free with
    | some bb =>
      if s.bulks.size bb > neededBytes then
        let va := s.bulks.start bb
        (s.bulks.takeFront bb neededBytes).bind fun bulks => ({ s with bulks := bulks }.allocRegion va neededBytes).map (·, va)
      else s.extendBreak neededBytes
    | none => s.extendBreak neededBytes

/-- `merge_bulks(start, size)` -/
def mergeBulks (s : KHeap) (start size : Nat) : Option KHeap :=
  (s.bulks.findNeighbours start size).bind fun
  | (some before, some after) =>
    (s.bulks.mergeBoth before after size).bind fun bulks => { s with bulks := bulks }.freeBlock after
  | (some before, none) => (s.bulks.mergeBefore before size).map ({ s with bulks := · })
  | (none, some after) => (s.bulks.mergeAfter after start size).map ({ s with bulks := · })
  | (none, none) =>
    (s.allocBlock sizeofBulk).bind fun (s, node) =>
    if node = 0 then none else (s.bulks.addBulk node start size).map ({ s with bulks := · })

/-- `kmalloc(size)` -/
def kmalloc (s : KHeap) (size : Nat) : Option (KHeap × Nat) :=
  if size = 0 then some (s, 0)
  else if size ≤ dynAllocMaxBlockSize then s.allocBlock size
  else s.pageAllocCustomFit (roundUp size pageSize)

/-- The loop of `kfree` that lowers the break while a free region ends at it. -/
def lowerBreak (s : KHeap) : Nat → Option KHeap
  | 0 => none
  | fuel + 1 =>
    (s.bulks.find .free fun b => u32 (s.bulks.start b + s.bulks.size b) = s.kheapPageAllocBreak).bind fun
    | some top =>
      let s := { s with bulks := s.bulks.removeBulk top }
      let s := { s with kheapPageAllocBreak := s.bulks.start top }
      (s.freeBlock top).bind fun s => s.lowerBreak fuel
    | none => some s

/-- `kfree` of a region of the page allocator -/
def freeRegion (s : KHeap) (va : Nat) : Option KHeap :=
  (s.bulks.find .allocated (s.bulks.start · = va)).bind fun
  | none => none
  | some b =>
    (unmapFrameRange s.mem (s.bulks.start b) (u32 (s.bulks.start b + s.bulks.size b)) walkFuel).bind fun m =>
    let s := { s with mem := m, bulks := s.bulks.unlinkAllocated b }
    let freedStart := s.bulks.start b
    let freedSize := s.bulks.size b
    (s.freeBlock b).bind fun s =>
    (s.mergeBulks freedStart freedSize).bind fun s =>
    s.lowerBreak walkFuel

/-- `kfree(virtual_address)` -/
def kfree (s : KHeap) (va : Nat) : Option KHeap :=
  if va = 0 then some s
  else if va < kernelHeapStart ∨ kernelHeapMax ≤ va then none
  else if kernelHeapStart ≤ va ∧ va < u32 (kernelHeapStart + dynAllocMaxSize) then s.freeBlock va
  else if s.kheapPageAllocStart ≤ va ∧ va < kernelHeapMax then s.freeRegion va
  else some s

end KHeap

/-! ### Runs -/

/-- The heap and what it does not store: the pointers that `kmalloc` returned and that are not freed. -/
structure KClient where
  heap : KHeap
  live : List Nat := []

inductive KHeapEvent where
  | kmalloc (size : Nat)
  | kfree (va : Nat)
  deriving DecidableEq, Repr

/-- A call by the kernel, which frees only live pointers and asks for no size that wraps when it is rounded up. -/
def KClient.step (s : KClient) : KHeapEvent → Option KClient
  | .kmalloc size =>
    if size ≤ 4294963200 then
      (s.heap.kmalloc size).map fun (h, va) => { heap := h, live := if va = 0 then s.live else va :: s.live }
    else none
  | .kfree va => if va ∈ s.live then (s.heap.kfree va).map ({ heap := ·, live := s.live.erase va }) else none

/-- The heap after the boot: `initialize_paging` and `kheap_init`. -/
def KClient.afterBoot (numberOfFrames kernelEnd : Nat) : Option KClient :=
  (KHeap.kheapInit { mem := Frames.initializePaging numberOfFrames kernelEnd }).map ({ heap := · })

theorem KClient.afterBoot_eq (numberOfFrames kernelEnd : Nat) : afterBoot numberOfFrames kernelEnd =
    some { heap := KHeap.initialized { mem := Frames.initializePaging numberOfFrames kernelEnd } } :=
  congrArg (Option.map _) (KHeap.kheapInit_eq _)

end Fos.Heap
