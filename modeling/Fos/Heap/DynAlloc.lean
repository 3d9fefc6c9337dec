import Fos.Lib.Reach
import Fos.Queue
import Fos.Types

/-! The block allocator (`lib/dynamic_allocator.c`). A page of the area is free or is cut into blocks of one of
    nine sizes; the free blocks of a size are in a list whose links stand in the blocks themselves, so the
    memory of the area is modelled by the link that a block at an address would hold. Blocks are at multiples
    of 8, so two such cells never overlap. -/

namespace Fos.Heap
open Lib

def log2MinSize : Nat := 3
def log2MaxSize : Nat := 11

/-- `DYN_ALLOC_MAX_SIZE` -/
def dynAllocMaxSize : Nat := 33554432

/-- `DYN_ALLOC_MAX_BLOCK_SIZE` -/
def dynAllocMaxBlockSize : Nat := 2048

/-- The index of a list of `freeBlockLists`. -/
abbrev SizeClass := Fin 9

instance neZeroClasses : NeZero 9 := ⟨by decide⟩

/-- The block size of a list. -/
def SizeClass.blockSize (c : SizeClass) : Nat := 2 ^ (c.val + 3)

/-- The globals of the allocator. `pageBlockInfoArr` is split into the links (`pages.link`) and the two
    counters of an element; the element of page `i` has index `i`. -/
structure DynAlloc where
  dynAllocStart : Nat := 0
  dynAllocEnd : Nat := 0
  /-- `freeBlockLists` and the memory of the area. -/
  blocks : Lists SizeClass Nat := {}
  /-- `freePagesList` -/
  pages : Lists Unit Nat := {}
  blockSize : Nat → Nat := fun _ => 0
  numOfFreeBlocks : Nat → Nat := fun _ => 0

/-- `get_page` and `return_page`, which the kernel and the user library implement: they act on a state of their
    own and on the memory of the area, at the page of the address given; `none` is a panic. -/
structure PageOps (σ : Type) where
  getPage : σ → (Nat → Link Nat) → Nat → Option (σ × (Nat → Link Nat))
  returnPage : σ → (Nat → Link Nat) → Nat → Option (σ × (Nat → Link Nat))

/-- `get_page` and `return_page` touch only the page of the address given. -/
structure PageOps.Local {σ : Type} (ops : PageOps σ) : Prop where
  getPage : ∀ {w m va w' m'}, ops.getPage w m va = some (w', m') → ∀ a, a / 4096 ≠ va / 4096 → m' a = m a
  returnPage : ∀ {w m va w' m'}, ops.returnPage w m va = some (w', m') → ∀ a, a / 4096 ≠ va / 4096 → m' a = m a

namespace DynAlloc

/-- `to_page_va(ptrPageInfo)` -/
def toPageVa (d : DynAlloc) (page : Nat) : Option Nat :=
  if page < dynAllocMaxSize / pageSize then some (u32 (d.dynAllocStart + page * pageSize)) else none

/-- The body of the loop of `initialize_dynamic_allocator`. -/
def initPage (d : DynAlloc) (i : Nat) : DynAlloc :=
  { d with blockSize := Function.update d.blockSize i 0
           numOfFreeBlocks := Function.update d.numOfFreeBlocks i 0
           pages := ((d.pages.setNext i none).setPrev i none).insertTail () i }

/-- `initialize_dynamic_allocator(daStart, daEnd)`. More pages than `pageBlockInfoArr` has elements would be
    written past its end. -/
def initializeDynamicAllocator (d : DynAlloc) (daStart daEnd : Nat) : Option DynAlloc :=
  if daEnd ≤ u32 (daStart + dynAllocMaxSize) then
    let d := { d with dynAllocStart := daStart
                      dynAllocEnd := daEnd
                      blocks := (List.finRange 9).foldl Lists.init d.blocks
                      pages := d.pages.init () }
    let totalPages := sub32 daEnd daStart / pageSize
    if totalPages ≤ dynAllocMaxSize / pageSize then some ((List.range totalPages).foldl initPage d) else none
  else none

/-- What the loop leaves after `n` pages. -/
def initialized (d : DynAlloc) (n : Nat) : DynAlloc :=
  { d with blockSize := fun i => if i < n then 0 else d.blockSize i
           numOfFreeBlocks := fun i => if i < n then 0 else d.numOfFreeBlocks i
           pages :=
             { head := fun _ =>
                 { first := if n = 0 then none else some 0
                   last := if n = 0 then none else some (n - 1)
                   size := UInt32.ofNat n }
               link := fun i =>
                 if i < n then ⟨if i + 1 = n then none else some (i + 1), if i = 0 then none else some (i - 1)⟩
                 else d.pages.link i } }

theorem update_below {f : Nat → Nat} {n : Nat} :
    Function.update (fun i => if i < n then 0 else f i) n 0 = fun i => if i < n + 1 then 0 else f i := by
  funext i
  grind [Function.update_apply]

theorem initPage_initialized {d : DynAlloc} {n : Nat} : (d.initialized n).initPage n = d.initialized (n + 1) := by
  unfold initPage initialized
  rw [update_below, update_below]
  congr 1
  -- the first page also becomes the first of the list
  cases n with
  | zero =>
    simp only [Lists.insertTail, Lists.setNext, Lists.setPrev, Lists.setFirst, Lists.setLast, Lists.setSize, Lists.mk.injEq]
    refine ⟨rfl, funext fun i => ?_⟩
    grind [Function.update_apply]
  | succ n =>
    simp only [Lists.insertTail, Lists.setNext, Lists.setPrev, Lists.setLast, Lists.setSize, Lists.mk.injEq]
    refine ⟨funext fun _ => ?_, funext fun i => ?_⟩
    · simp
    · grind [Function.update_apply]

theorem foldl_initPage_eq {d : DynAlloc} (h : d.pages.head () = {}) (n : Nat) :
    (List.range n).foldl initPage d = d.initialized n := by
  induction n with
  | zero =>
    have hhead : d.pages.head = fun _ => {} := funext fun _ => h
    obtain ⟨start, stop, blocks, ⟨head, link⟩, blockSize, numOfFreeBlocks⟩ := d
    cases hhead
    rfl
  | succ n ih =>
    rw [List.range_succ, List.foldl_append, ih]
    exact initPage_initialized

/-- `get_block_size(va)` -/
def getBlockSize (d : DynAlloc) (va : Nat) : Nat :=
  if va < d.dynAllocStart ∨ d.dynAllocEnd ≤ va then 0
  else d.blockSize (sub32 va d.dynAllocStart / pageSize)

/-- The loop of `alloc_block` that finds the block size, from `log2` on. -/
def ceilLog2 (size : Nat) : Nat → Nat → Nat
  | 0, log2 => log2
  | fuel + 1, log2 => if 2 ^ log2 < size ∧ log2 ≤ log2MaxSize then ceilLog2 size fuel (log2 + 1) else log2

/-- `LIST_REMOVE` of a free block, and its page has one free block less. -/
def takeBlock (d : DynAlloc) (c : SizeClass) (blk : Nat) : DynAlloc :=
  let page := sub32 blk d.dynAllocStart / pageSize
  { d with blocks := d.blocks.remove c blk
           numOfFreeBlocks := Function.update d.numOfFreeBlocks page (u16 (d.numOfFreeBlocks page + 65535)) }

/-- `LIST_INSERT_TAIL` of the blocks of a page in turn; the macro panics on a null block. -/
def insertBlocks (d : DynAlloc) (c : SizeClass) : List Nat → Option DynAlloc
  | [] => some d
  | b :: bs => if b = 0 then none else insertBlocks { d with blocks := d.blocks.insertTail c b } c bs

/-- `LIST_REMOVE` of the blocks of a page in turn. -/
def removeBlocks (d : DynAlloc) (c : SizeClass) : List Nat → Option DynAlloc
  | [] => some d
  | b :: bs => if b = 0 then none else removeBlocks { d with blocks := d.blocks.remove c b } c bs

/-- The addresses of the blocks of a page. -/
def blocksOfPage (pageVa blockSize count : Nat) : List Nat :=
  (List.range count).map fun i => u32 (pageVa + i * blockSize)

/-- `memset(blk, 0, size)` -/
def memset (d : DynAlloc) (blk size : Nat) : DynAlloc :=
  { d with blocks := { d.blocks with link := fun a => if blk ≤ a ∧ a < blk + size then {} else d.blocks.link a } }

variable {σ : Type} (ops : PageOps σ)

/-- The part of `alloc_block` that cuts a free page into blocks. -/
def openPage (w : σ) (d : DynAlloc) (c : SizeClass) (blockSize page : Nat) : Option (σ × DynAlloc × Nat) :=
  let d := { d with pages := d.pages.remove () page }
  (d.toPageVa page).bind fun pageVa =>
  (ops.getPage w d.blocks.link pageVa).bind fun (w, link) =>
  let d := { d with blocks := { d.blocks with link := link }
                    blockSize := Function.update d.blockSize page (u16 blockSize)
                    numOfFreeBlocks := Function.update d.numOfFreeBlocks page (u16 (pageSize / blockSize)) }
  (d.insertBlocks c (blocksOfPage pageVa blockSize (d.numOfFreeBlocks page))).bind fun d =>
  (d.blocks.head c).first.map fun blk =>
  let d := { d with blocks := d.blocks.remove c blk
                    numOfFreeBlocks := Function.update d.numOfFreeBlocks page (u16 (d.numOfFreeBlocks page + 65535)) }
  (w, d.memset blk blockSize, blk)

/-- The last loop of `alloc_block`, over the lists of larger blocks; it panics when all are empty. -/
def allocLarger (w : σ) (d : DynAlloc) : List SizeClass → Option (σ × DynAlloc × Nat)
  | [] => none
  | c :: cs =>
    match (d.blocks.head c).first with
    | some blk => some (w, d.takeBlock c blk, blk)
    | none => allocLarger w d cs

/-- `alloc_block(size)`; the address 0 is the null pointer. -/
def allocBlock (w : σ) (d : DynAlloc) (size : Nat) : Option (σ × DynAlloc × Nat) :=
  if size ≤ dynAllocMaxBlockSize then
    if size = 0 then some (w, d, 0)
    else
      let log2 := ceilLog2 size 9 log2MinSize
      let blockSize := 2 ^ log2
      let log2 := if log2 > log2MaxSize then log2MaxSize else log2
      let c : SizeClass := Fin.ofNat 9 (log2 - log2MinSize)
      match (d.blocks.head c).first with
      | some blk => some (w, d.takeBlock c blk, blk)
      | none =>
        match (d.pages.head ()).first with
        | some page => openPage ops w d c blockSize page
        | none => allocLarger w d ((List.finRange 9).filter (c < ·))
  else none

/-- `free_block(va)`. For a page that is not in use the index of the list would be negative. -/
def freeBlock (w : σ) (d : DynAlloc) (va : Nat) : Option (σ × DynAlloc) :=
  if d.dynAllocStart ≤ va ∧ va < d.dynAllocEnd then
    let page := sub32 va d.dynAllocStart / pageSize
    let blockSize := d.blockSize page
    let log2 := Nat.log2 blockSize
    if va = 0 ∨ log2 < log2MinSize ∨ log2MaxSize < log2 then none
    else
      let c : SizeClass := Fin.ofNat 9 (log2 - log2MinSize)
      let d := { d with blocks := d.blocks.insertHead c va
                        numOfFreeBlocks := Function.update d.numOfFreeBlocks page (u16 (d.numOfFreeBlocks page + 1)) }
      let blocksPerPage := pageSize / blockSize
      if d.numOfFreeBlocks page = blocksPerPage then
        (d.toPageVa page).bind fun pageVa =>
        (d.removeBlocks c (blocksOfPage pageVa blockSize blocksPerPage)).bind fun d =>
        (ops.returnPage w d.blocks.link pageVa).map fun (w, link) =>
        (w, { d with blocks := { d.blocks with link := link }
                     blockSize := Function.update d.blockSize page 0
                     numOfFreeBlocks := Function.update d.numOfFreeBlocks page 0
                     pages := d.pages.insertTail () page })
      else some (w, d)
  else none

end DynAlloc

end Fos.Heap
