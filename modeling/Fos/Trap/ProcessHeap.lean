import Fos.Heap.UHeapStray
import Fos.Trap.KernelHalf
import Fos.Trap.LastWritten

/-! A process and its heap: `malloc` and `free` with their system calls (`lib/uheap.c`, `kern/trap/syscall.c`), and between them
    the accesses of the process and what the others do. -/

namespace Fos.Mem.UserMem
open Lib Heap Disk

variable {E : Type} [DecidableEq E]

/-- `alloc_page(directory, va, perms, 1)`, and whether a new frame is mapped. The frame is cleared at its user address. -/
def allocPage (s : UserMem E) (e : E) (va : Nat) (perms : BitVec 12) : Option (UserMem E × Bool) :=
  (s.run.paging.getFrameInfo e va).bind fun
  | some _ => some (s, false)
  | none => s.run.allocateFrame.bind fun (r, f) => (r.mapFrame e f va perms).bind fun r =>
    ((s.setRun r).writeUserPage e va fun _ _ => 0).map (·, true)

/-- `get_page(va)` and `return_page(va)` of the library with `sys_allocate_page` and `sys_unmap_frame`; the library panics at an
    address that these refuse. -/
def heapPages (e : E) : PageOps (UserMem E) where
  getPage s link va :=
    let va := roundDown va pageSize
    if va < userTop then
      (s.allocPage e va (permUser ||| permWriteable ||| permUhpage)).map fun (s, fresh) =>
        (s, if fresh then fun a => if va ≤ a ∧ a < va + pageSize then {} else link a else link)
    else none
  returnPage s link va :=
    let va := roundDown va pageSize
    if va < userTop then (s.run.unmapFrame e va).map fun r => (s.setRun r, link) else none

/-- The page is neither mapped nor marked. -/
structure Clean (s : UserMem E) (e : E) (va : Nat) : Prop where
  unmapped : (s.run.paging.page e va).present = false
  unmarked : (s.run.paging.page e va).perm.getLsbD 10 = false

end Fos.Mem.UserMem

namespace Fos.Heap
open Lib Mem

namespace DynAlloc

/-- The block is the last one of its page that is out, and `free_block` gives the page back. -/
def lastOfPage (d : DynAlloc) (va : Nat) : Bool :=
  let page := sub32 va d.dynAllocStart / pageSize
  u16 (d.numOfFreeBlocks page + 1) = pageSize / d.blockSize page

end DynAlloc

namespace UHeap

variable {σ : Type}

/-- The pages that are allocated when `malloc(size)` returns `va`. -/
def takenPages (va size : Nat) : List Nat :=
  if va = 0 then [] else if size ≤ dynAllocMaxBlockSize then [roundDown va pageSize] else pagesOf va (roundUp size pageSize)

/-- The pages that `free(va)` gives back. -/
def givenBack (s : UHeap σ) (va : Nat) : List Nat :=
  if va < s.uheapPageAllocStart then if s.da.lastOfPage va then [roundDown va pageSize] else []
  else pagesOf va (s.allocationSizes (sizeIndex va))

end UHeap

end Fos.Heap

namespace Fos.Trap
open Lib Heap Disk Mem

/-- No access of the process to the page goes through in user mode, and no fault there is served: the handler ends the environment,
    or it panics at the fourth fault in a row at one address. The clock may tick before the handler runs. -/
structure Kernel.Closed {E : Type} [DecidableEq E] (s : Kernel E) (e : E) (va : Nat) : Prop where
  read : s.mem.readByte e va = none
  write : ∀ b, s.mem.writeByte e va b = none
  exits : ¬ s.Third e va → ∃ t, s.faultHandler e true va = some (t, .exit)
  only : ∀ t o, s.pageFaultTrap e true va = some (t, o) → o = .exit

/-- The kernel, the heap of one process, the pointers that the process was given and has not freed, and the pages that `free` has
    given back and that have not been allocated since. -/
structure HeapRun (E : Type) where
  kernel : KernelRun E
  heap : UHeap (UserMem E)
  live : List Nat := []
  returned : List Nat := []

inductive HeapEvent (E : Type) where
  | malloc (size : Nat)
  | free (va : Nat)
  | user (ev : UserEvent E)

namespace HeapRun

variable {E : Type} [DecidableEq E]

/-- The library finds the memory as the kernel has it. -/
def library (s : HeapRun E) : UHeap (UserMem E) := { s.heap with world := s.kernel.mem }

/-- The kernel has ended the environment. -/
def ended (s : HeapRun E) (e : E) : HeapRun E :=
  { s with kernel := { s.kernel with running := Function.update s.kernel.running e false } }

/-- The process `e` calls the library, or a step is taken between its calls. Only live pointers are freed. -/
def step (e : E) (s : HeapRun E) : HeapEvent E → Option (HeapRun E)
  | .malloc size =>
    (s.library.mallocWithCall (UserMem.heapPages e) e size).map fun
    | (.returns h, va) =>
      { kernel := s.kernel.setMem h.world, heap := h, live := if va = 0 then s.live else va :: s.live
        returned := s.returned.filter (· ∉ UHeap.takenPages va size) }
    | (.exits, _) => s.ended e
  | .free va =>
    if va ∈ s.live then
      (s.library.freeWithCall (UserMem.heapPages e) e va).map fun
      | .returns h =>
        { kernel := s.kernel.setMem h.world, heap := h, live := s.live.erase va, returned := s.heap.givenBack va ++ s.returned }
      | .exits => s.ended e
    else none
  | .user ev => (s.kernel.userStep ev).map fun k => { s with kernel := k }

/-- The process `d` accesses its memory or has a page fault, in user mode if it is `e`; its time stamps are updated; or it asks
    the kernel for its heap, which for `e` the library does. -/
def Between (e : E) (s : KernelRun E) : UserEvent E → Prop
  | .read d va => s.running d ∧ va < userTop
  | .write d va _ => s.running d ∧ va < userTop
  | .kernel (.fault d userTrap va) => s.Accepted (.fault d userTrap va) ∧ (d = e → userTrap = true)
  | .kernel (.updateTimeStamps _) => True
  | .kernel (.allocateUserMem d va size) => s.Accepted (.allocateUserMem d va size) ∧ d ≠ e
  | .kernel (.freeUserMem d va size) => s.Accepted (.freeUserMem d va size) ∧ d ≠ e
  | .kernel (.envPageWsInvalidate d _) => d ≠ e
  | .kernel (.envCreate ..) => False
  | .kernel (.memory _) => False

/-- The steps of the runs that are considered. -/
def Allowed (e : E) (s : HeapRun E) (ev : HeapEvent E) : Prop :=
  s.kernel.running e ∧ match ev with
    | .malloc size => size < 4294967296
    | .free _ => True
    | .user ev => Between e s.kernel ev

/-- `free` gives back no page of a block. -/
def KeepsBlockPages (s : HeapRun E) : HeapEvent E → Prop
  | .free va => va < s.heap.uheapPageAllocStart → s.heap.da.lastOfPage va = false
  | _ => True

/-- The process has just started: its heap is not used yet. -/
structure Started (e : E) (s : HeapRun E) : Prop where
  running : s.kernel.running e
  heap : s.heap = { world := s.kernel.mem }
  live : s.live = []
  returned : s.returned = []
  unused : ∀ q, userHeapStart ≤ q → q < userHeapMax → (s.kernel.mem.run.paging.page e q).present = false

end HeapRun

end Fos.Trap
