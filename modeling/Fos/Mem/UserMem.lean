import Fos.Disk.PageFile
import Fos.Lib.Reach

/-! The memory of the processes: permission bits and marks in the page tables (`kern/mem/paging_helpers.c`), working sets
    (`kern/mem/working_set_manager.c`) and the regions of the user heap (`kern/mem/chunk_operations.c`). -/

namespace Fos.Mem
open Lib Heap Disk

namespace Paging

variable {D : Type} [DecidableEq D]

/-- `ptr_page_table[i] = e` -/
def writeEntry (s : Paging D) (table : PageNo) (i : Fin 1024) (e : Pte) : Paging D :=
  { s with heap := { s.heap with mem := { s.heap.mem with pte := Function.update s.heap.mem.pte (.user table i) e } } }

/-- `pt_set_page_permissions(directory, virtual_address, permissions_to_set, permissions_to_clear)`, which panics without
    a table -/
def ptSetPagePermissions (s : Paging D) (dir : D) (va : Nat) (permissionsToSet permissionsToClear : BitVec 12) :
    Option (Paging D) :=
  (s.getPageTable dir va).bind fun
  | .inMemory table =>
    let e := s.heap.mem.pte (.user table (ptx va))
    some (s.writeEntry table (ptx va) ⟨e.frame, (e.perm ||| permissionsToSet) &&& ~~~ permissionsToClear⟩)
  | _ => none

/-- `pt_get_page_permissions(directory, virtual_address)`; `some none` is -1. -/
def ptGetPagePermissions (s : Paging D) (dir : D) (va : Nat) : Option (Option (BitVec 12)) :=
  (s.getPageTable dir va).map fun
  | .inMemory table => some (s.heap.mem.pte (.user table (ptx va))).perm
  | _ => none

/-- One round of `allocate_user_mem`: the table is created when there is none, and the entry is overwritten. -/
def markPage (dir : D) (s : Paging D) (va : Nat) : Option (Paging D) :=
  (s.getPageTable dir va).bind fun
  | .inMemory table => some (s.writeEntry table (ptx va) ⟨0, permUhpage⟩)
  | _ => (s.createPageTable dir va).map fun (s, table) => s.writeEntry table (ptx va) ⟨0, permUhpage⟩

end Paging

/-- The addresses of `n` pages. -/
def pagesFrom (va n : Nat) : List Nat := (List.range n).map fun i => u32 (va + i * pageSize)

/-- The pages that a region covers. -/
def pagesOf (va size : Nat) : List Nat :=
  pagesFrom (roundDown va pageSize) ((roundUp (u32 (va + size)) pageSize - roundDown va pageSize) / pageSize)

/-! ### Working sets -/

/-- `struct WorkingSetElement`, without the list pointers -/
structure WorkingSetElement where
  virtualAddress : Nat := 0
  timeStamp : Nat := 0
  sweepsCounter : Nat := 0
  deriving DecidableEq, Repr

/-- The working set of an environment: `page_WS_list`, the elements by their addresses, `page_last_WS_element` and
    `page_WS_max_size`. -/
structure WorkingSet where
  list : List Nat := []
  element : Nat → WorkingSetElement := fun _ => {}
  last : Option Nat := none
  maxSize : Nat := 1

namespace WorkingSet

/-- `LIST_NEXT(wse)` of an element of the list -/
def next (w : WorkingSet) (wse : Nat) : Option Nat := (w.list.dropWhile (· ≠ wse))[1]?

/-- The page of an element. -/
def page (w : WorkingSet) (wse : Nat) : Nat := roundDown (w.element wse).virtualAddress pageSize

/-- The element that the loop of `env_page_ws_invalidate` finds. -/
def find (w : WorkingSet) (va : Nat) : Option Nat := w.list.find? (w.page · = roundDown va pageSize)

/-- The list and the hand after the element was removed. -/
def remove (w : WorkingSet) (wse : Nat) : WorkingSet :=
  { w with list := w.list.erase wse, last := if w.last = some wse then w.next wse else w.last }

end WorkingSet

namespace PagingRun

variable {D : Type} [DecidableEq D]

/-- `kmalloc(size)` -/
def kmalloc (s : PagingRun D) (size : Nat) : Option (PagingRun D × Nat) :=
  (s.paging.heap.kmalloc size).map fun (h, va) =>
    ({ s with paging := { s.paging with heap := h }, live := if va = 0 then s.live else va :: s.live }, va)

/-- `kfree(va)` -/
def kfree (s : PagingRun D) (va : Nat) : Option (PagingRun D) := s.step (.kfree va)

/-- `allocate_frame(&ptr_frame_info)` -/
def allocateFrame (s : PagingRun D) : Option (PagingRun D × PageNo) :=
  s.paging.allocateFrame.map fun (p, f) => ({ s with paging := p, handed := f :: s.handed }, f)

/-- `map_frame(ptr_page_directory, ptr_frame_info, virtual_address, perm)` -/
def mapFrame (s : PagingRun D) (dir : D) (f : PageNo) (va : Nat) (perm : BitVec 12) : Option (PagingRun D) :=
  s.step (.mapFrame dir f va perm)

/-- `unmap_frame(ptr_page_directory, virtual_address)` -/
def unmapFrame (s : PagingRun D) (dir : D) (va : Nat) : Option (PagingRun D) := s.step (.unmapFrame dir va)

/-- `pt_set_page_permissions` -/
def ptSetPagePermissions (s : PagingRun D) (dir : D) (va : Nat) (permissionsToSet permissionsToClear : BitVec 12) :
    Option (PagingRun D) :=
  (s.paging.ptSetPagePermissions dir va permissionsToSet permissionsToClear).map fun p => { s with paging := p }

end PagingRun

/-- The memory, the working sets of the environments `E`, the page file and what is in the frames. -/
structure UserMem (E : Type) where
  run : PagingRun E
  ws : E → WorkingSet := fun _ => {}
  disk : PageFile E
  data : PageNo → Page := fun _ _ => 0

namespace UserMem

variable {E : Type} [DecidableEq E]

/-- `env_page_ws_invalidate(e, virtual_address)`, for the algorithms that use `page_WS_list` -/
def envPageWsInvalidate (s : UserMem E) (e : E) (va : Nat) : Option (UserMem E) :=
  match (s.ws e).find va with
  | none => some s
  | some wse =>
    (s.run.unmapFrame e ((s.ws e).element wse).virtualAddress).bind fun r =>
      (r.kfree wse).map fun r => { s with run := r, ws := Function.update s.ws e ((s.ws e).remove wse) }

/-- `allocate_user_mem(e, virtual_address, size)` -/
def allocateUserMem (s : UserMem E) (e : E) (va size : Nat) : Option (UserMem E) :=
  (exec (Paging.markPage e) s.run.paging (pagesOf va size)).map fun p => { s with run := { s.run with paging := p } }

/-- One round of `free_user_mem`. -/
def freePage (e : E) (s : UserMem E) (va : Nat) : Option (UserMem E) :=
  (s.run.ptSetPagePermissions e va 0 permUhpage).bind fun r =>
    ({ s with run := r, disk := s.disk.pfRemoveEnvPage e va }.envPageWsInvalidate e va).bind fun s =>
      (s.run.unmapFrame e va).map fun r => { s with run := r }

/-- `free_user_mem(e, virtual_address, size)` -/
def freeUserMem (s : UserMem E) (e : E) (va size : Nat) : Option (UserMem E) := exec (freePage e) s (pagesOf va size)

end UserMem

end Fos.Mem
