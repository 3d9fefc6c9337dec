import Fos.Heap.KHeap

/-! User page tables (`kern/mem/memory_manager.c`, `kern/mem/paging_helpers.c`): `map_frame`, `unmap_frame` and
    `alloc_page` on the directories `D`, below `USER_TOP`. A table is a page of the kernel heap; the code finds its
    kernel address through the `va` field of its frame and reads it through the kernel's own mapping. -/

namespace Fos.Mem
open Lib Heap

def userTop : Nat := 4005560320

/-- `PDX(va)` -/
def pdx (va : Nat) : Fin 1024 := Fin.ofNat 1024 (va / 4194304)

/-- `PTX(va)` -/
def ptx (va : Nat) : Fin 1024 := Fin.ofNat 1024 (va / 4096)

/-- What `get_page_table` says about the table of an address. -/
inductive PageTable where
  | notExist
  /-- The table is there, but its address came out as null. -/
  | null
  /-- The table that is read at the address that was found. -/
  | inMemory (table : PageNo)
  deriving DecidableEq, Repr

/-- The kernel heap with all frames and tables, and the directory entries below `USER_TOP`. -/
structure Paging (D : Type) where
  heap : KHeap
  pde : D → Fin 1024 → Option PageNo := fun _ _ => none

namespace Paging

variable {D : Type} [DecidableEq D]

/-- `kheap_virtual_address` of the start of a frame; 0 is the null pointer. -/
def kheapVirtualAddress (h : KHeap) (f : PageNo) : Option Nat :=
  if f.val < h.mem.numberOfFrames then
    let vaBase := h.mem.va f
    if h.da.dynAllocStart ≤ vaBase ∧ vaBase < h.da.dynAllocEnd ∨ h.kheapPageAllocStart ≤ vaBase ∧ vaBase < kernelHeapMax then
      some vaBase
    else some 0
  else none

/-- The frame that the kernel accesses at an address of its heap; `none` is a page fault in the kernel. -/
def frameAt (h : KHeap) (va : Nat) : Option PageNo := h.mem.hold (.kernel (pageNo va))

/-- `get_page_table(ptr_page_directory, virtual_address, &ptr_page_table)` for a user address -/
def getPageTable (s : Paging D) (dir : D) (va : Nat) : Option PageTable :=
  match s.pde dir (pdx va) with
  | none => some .notExist
  | some t =>
    (kheapVirtualAddress s.heap t).bind fun ptr => if ptr = 0 then some .null else (frameAt s.heap ptr).map .inMemory

/-- `memset(ptr_page_table, 0, PAGE_SIZE)` -/
def clearTable (m : Frames) (table : PageNo) : Frames :=
  { m with pte := fun
      | .user t i => if t = table then {} else m.pte (.user t i)
      | c => m.pte c }

/-- `create_page_table(ptr_directory, virtual_address)`, with the new table -/
def createPageTable (s : Paging D) (dir : D) (va : Nat) : Option (Paging D × PageNo) :=
  (s.heap.kmalloc pageSize).bind fun (h, ptr) =>
  if ptr = 0 then none
  else
    (frameAt h ptr).map fun table =>
      ({ heap := { h with mem := clearTable h.mem table }
         pde := Function.update s.pde dir (Function.update (s.pde dir) (pdx va) (some table)) }, table)

/-- `map_frame` in the table `table` -/
def mapFrameIn (s : Paging D) (table f : PageNo) (va : Nat) (perm : BitVec 12) : Option (Paging D) :=
  (s.heap.mem.mapFrame (.user table (ptx va)) f va perm).map fun m => { s with heap := { s.heap with mem := m } }

/-- `map_frame(ptr_page_directory, ptr_frame_info, virtual_address, perm)`; a null table is dereferenced. -/
def mapFrame (s : Paging D) (dir : D) (f : PageNo) (va : Nat) (perm : BitVec 12) : Option (Paging D) :=
  (s.getPageTable dir va).bind fun
  | .notExist => (s.createPageTable dir va).bind fun (s, table) => s.mapFrameIn table f va perm
  | .null => none
  | .inMemory table => s.mapFrameIn table f va perm

/-- `get_frame_info(ptr_page_directory, virtual_address, &ptr_page_table)`: the frame, or `some none` for null -/
def getFrameInfo (s : Paging D) (dir : D) (va : Nat) : Option (Option PageNo) :=
  (s.getPageTable dir va).bind fun
  | .inMemory table => s.heap.mem.getFrameInfo (.user table (ptx va))
  | _ => some none

/-- `unmap_frame(ptr_page_directory, virtual_address)` -/
def unmapFrame (s : Paging D) (dir : D) (va : Nat) : Option (Paging D) :=
  (s.getPageTable dir va).bind fun
  | .inMemory table =>
    (s.heap.mem.unmapFrame (.user table (ptx va))).map fun m => { s with heap := { s.heap with mem := m } }
  | _ => some s

/-- `allocate_frame(&ptr_frame_info)` -/
def allocateFrame (s : Paging D) : Option (Paging D × PageNo) :=
  s.heap.mem.allocateFrame.map fun (m, f) => ({ s with heap := { s.heap with mem := m } }, f)

/-- `alloc_page(directory, va, perms, set_to_zero)` -/
def allocPage (s : Paging D) (dir : D) (va : Nat) (perms : BitVec 12) : Option (Paging D) :=
  (s.getFrameInfo dir va).bind fun
  | some _ => some s
  | none => s.allocateFrame.bind fun (s, f) => s.mapFrame dir f va perms

end Paging

/-! ### Runs -/

/-- The memory and what it does not store: the frames that `allocate_frame` handed out and that are not mapped yet,
    and the live pointers of the kernel heap, without those of the page tables. -/
structure PagingRun (D : Type) where
  paging : Paging D
  handed : List PageNo := []
  live : List Nat := []

inductive PagingEvent (D : Type) where
  | allocateFrame
  | mapFrame (dir : D) (f : PageNo) (va : Nat) (perm : BitVec 12)
  | unmapFrame (dir : D) (va : Nat)
  | allocPage (dir : D) (va : Nat) (perms : BitVec 12)
  | kmalloc (size : Nat)
  | kfree (va : Nat)

namespace PagingRun

variable {D : Type} [DecidableEq D]

def step (s : PagingRun D) : PagingEvent D → Option (PagingRun D)
  | .allocateFrame => s.paging.allocateFrame.map fun (p, f) => { s with paging := p, handed := f :: s.handed }
  | .mapFrame dir f va perm =>
    (s.paging.mapFrame dir f va perm).map fun p => { s with paging := p, handed := s.handed.erase f }
  | .unmapFrame dir va => (s.paging.unmapFrame dir va).map fun p => { s with paging := p }
  | .allocPage dir va perms => (s.paging.allocPage dir va perms).map fun p => { s with paging := p }
  | .kmalloc size =>
    (s.paging.heap.kmalloc size).map fun (h, va) =>
      { s with paging := { s.paging with heap := h }, live := if va = 0 then s.live else va :: s.live }
  | .kfree va =>
    (s.paging.heap.kfree va).map fun h => { s with paging := { s.paging with heap := h }, live := s.live.erase va }

/-- The memory after the boot. -/
def afterBoot (D : Type) (numberOfFrames kernelEnd : Nat) : Option (PagingRun D) :=
  (KHeap.kheapInit { mem := Frames.initializePaging numberOfFrames kernelEnd }).map ({ paging := { heap := · } })

omit [DecidableEq D] in
theorem afterBoot_eq (numberOfFrames kernelEnd : Nat) : afterBoot D numberOfFrames kernelEnd =
    some { paging := { heap := KHeap.initialized { mem := Frames.initializePaging numberOfFrames kernelEnd } } } :=
  congrArg (Option.map _) (KHeap.kheapInit_eq _)

end PagingRun

end Fos.Mem
