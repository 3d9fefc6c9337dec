import Fos.Heap.DynAlloc
import Fos.Heap.Bulk

/-! The user heap (`lib/uheap.c`): `malloc`, `free`, `smalloc` and `sget` of one process. Small sizes go to the
    block allocator, the others to a page allocator that keeps a break, the size of the allocation at each page
    and a list of free regions whose nodes come from a static array. -/

namespace Fos.Heap
open Lib

def userHeapStart : Nat := 2147483648
def userHeapMax : Nat := 2684354560

/-- The static data of the library, and the state `world` that `get_page` and `return_page` act on. -/
structure UHeap (σ : Type) where
  world : σ
  firstTimeFlag : Bool := true
  da : DynAlloc := {}
  uheapPageAllocStart : Nat := 0
  uheapPageAllocBreak : Nat := 0
  /-- `allocation_sizes` -/
  allocationSizes : Nat → Nat := fun _ => 0
  bulks : Bulks := {}
  /-- `free_nodes_index`; the nodes of `bulks` are indices of `free_nodes`. -/
  freeNodesIndex : Nat := 0

namespace UHeap

variable {σ : Type} (ops : PageOps σ)

/-- `uheap_init()` -/
def uheapInit (s : UHeap σ) : Option (UHeap σ) :=
  if s.firstTimeFlag then
    (s.da.initializeDynamicAllocator userHeapStart (u32 (userHeapStart + dynAllocMaxSize))).map fun d =>
      { s with da := d
               uheapPageAllocStart := u32 (d.dynAllocEnd + pageSize)
               uheapPageAllocBreak := u32 (d.dynAllocEnd + pageSize)
               firstTimeFlag := false }
  else some s

/-- The element of `allocation_sizes` for an address. -/
def sizeIndex (va : Nat) : Nat := sub32 va userHeapStart / pageSize

/-- `allocation_sizes[index] = needed_bytes` -/
def storeSize (s : UHeap σ) (va size : Nat) : UHeap σ :=
  { s with allocationSizes := Function.update s.allocationSizes (sizeIndex va) size }

/-- The last part of `user_page_alloc_custom_fit`, which extends the break. -/
def extendBreak (s : UHeap σ) (neededBytes : Nat) : UHeap σ × Nat :=
  if s.uheapPageAllocBreak < s.uheapPageAllocStart then (s, 0)
  else if neededBytes > sub32 userHeapMax s.uheapPageAllocBreak then (s, 0)
  else if u32 (s.uheapPageAllocBreak + neededBytes) > userHeapMax then (s, 0)
  else
    let va := s.uheapPageAllocBreak
    ({ s.storeSize va neededBytes with uheapPageAllocBreak := u32 (va + neededBytes) }, va)

/-- `user_page_alloc_custom_fit(needed_bytes)` -/
def userPageAllocCustomFit (s : UHeap σ) (neededBytes : Nat) : Option (UHeap σ × Nat) :=
  (walk s.bulks.next (fun b => s.bulks.size b = neededBytes) walkFuel none (s.bulks.first .free)).bind fun
  | (_, some b) =>
    let va := s.bulks.start b
    some ({ s with bulks := s.bulks.removeBulk b }.storeSize va neededBytes, va)
  | (_, none) =>
    match s.bulks.first .free with
    | some bb =>
      if neededBytes < s.bulks.size bb then
        let va := s.bulks.start bb
        (s.bulks.takeFront bb neededBytes).map fun b => ({ s with bulks := b }.storeSize va neededBytes, va)
      else some (s.extendBreak neededBytes)
    | none => some (s.extendBreak neededBytes)

/-- `malloc(size)` -/
def malloc (s : UHeap σ) (size : Nat) : Option (UHeap σ × Nat) :=
  s.uheapInit.bind fun s =>
    if size = 0 then some (s, 0)
    else if size ≤ dynAllocMaxBlockSize then
      (DynAlloc.allocBlock ops s.world s.da size).map fun (w, d, va) => ({ s with world := w, da := d }, va)
    else s.userPageAllocCustomFit (roundUp size pageSize)

/-- `smalloc(sharedVarName, size, isWritable)`: `notExists` says that `sys_size_of_shared_object` returned
    `E_SHARED_MEM_NOT_EXISTS`, and `objID` is the result of `sys_create_shared_object`. -/
def smalloc (s : UHeap σ) (size : Nat) (notExists : Bool) (objID : Int) : Option (UHeap σ × Nat) :=
  s.uheapInit.bind fun s =>
    if size = 0 ∨ notExists = false then some (s, 0)
    else
      (s.userPageAllocCustomFit (roundUp size pageSize)).map fun (s, va) =>
        if va = 0 ∨ objID < 0 then (s, 0) else (s, va)

/-- `sget(ownerEnvID, sharedVarName)`: `size` and `ret` are the results of `sys_size_of_shared_object` and
    `sys_get_shared_object`. -/
def sget (s : UHeap σ) (size ret : Int) : Option (UHeap σ × Nat) :=
  s.uheapInit.bind fun s =>
    if size ≤ 0 then some (s, 0)
    else
      (s.userPageAllocCustomFit (roundUp size.toNat pageSize)).map fun (s, va) =>
        if va = 0 ∨ ret < 0 then (s, 0) else (s, va)

/-- `merge_bulks(start, size)` -/
def mergeBulks (s : UHeap σ) (start size : Nat) : Option (UHeap σ) :=
  (s.bulks.findNeighbours start size).bind fun
  | (some before, some after) => (s.bulks.mergeBoth before after size).map ({ s with bulks := · })
  | (some before, none) => (s.bulks.mergeBefore before size).map ({ s with bulks := · })
  | (none, some after) => (s.bulks.mergeAfter after start size).map ({ s with bulks := · })
  | (none, none) =>
    if 2048 ≤ s.freeNodesIndex then none
    else
      (s.bulks.addBulk s.freeNodesIndex start size).map
        ({ s with bulks := ·, freeNodesIndex := s.freeNodesIndex + 1 })

/-- The loop of `free` that looks for the highest allocation below index `i`. -/
def scanBreak (s : UHeap σ) : Nat → Nat
  | 0 => s.uheapPageAllocStart
  | i + 1 =>
    if s.allocationSizes i ≠ 0 then u32 (userHeapStart + i * pageSize + s.allocationSizes i) else s.scanBreak i

/-- `free(virtual_address)` -/
def free (s : UHeap σ) (va : Nat) : Option (UHeap σ) :=
  if va = 0 ∨ va < userHeapStart ∨ userHeapMax ≤ va then some s
  else if va < s.uheapPageAllocStart then
    (DynAlloc.freeBlock ops s.world s.da va).map fun (w, d) => { s with world := w, da := d }
  else
    let size := s.allocationSizes (sizeIndex va)
    if size = 0 then some s
    else
      ((s.storeSize va 0).mergeBulks va size).map fun s =>
        { s with uheapPageAllocBreak := s.scanBreak (sizeIndex s.uheapPageAllocBreak) }

end UHeap

/-! ### Runs of one process -/

/-- The heap and what the library does not store: the pointers that the process was given and has not freed. -/
structure UProcess (σ : Type) where
  heap : UHeap σ
  live : List Nat := []

inductive UHeapEvent where
  | malloc (size : Nat)
  | smalloc (size : Nat) (notExists : Bool) (objID : Int)
  | sget (size ret : Int)
  | free (va : Nat)
  deriving DecidableEq, Repr

namespace UProcess

variable {σ : Type} (ops : PageOps σ)

/-- The process keeps a pointer that is not null. -/
def keep (s : UProcess σ) (r : UHeap σ × Nat) : UProcess σ :=
  { heap := r.1, live := if r.2 = 0 then s.live else r.2 :: s.live }

/-- A step of the process, which frees only what it was given and has not freed. -/
def step (s : UProcess σ) : UHeapEvent → Option (UProcess σ)
  | .malloc size => (s.heap.malloc ops size).map s.keep
  | .smalloc size notExists objID => (s.heap.smalloc size notExists objID).map s.keep
  -- `sys_size_of_shared_object` returns an `int`.
  | .sget size ret => if size < 2147483648 then (s.heap.sget size ret).map s.keep else none
  | .free va => if va ∈ s.live then (s.heap.free ops va).map ({ heap := ·, live := s.live.erase va }) else none

/-- The region that the heap records for a pointer of the page allocator. -/
def region (s : UProcess σ) (va : Nat) : Region := ⟨va, s.heap.allocationSizes (UHeap.sizeIndex va)⟩

/-- The live pointers of the page allocator. -/
def pagePointers (s : UProcess σ) : List Nat := s.live.filter (s.heap.uheapPageAllocStart ≤ ·)

end UProcess

end Fos.Heap
