import Fos.Heap.UHeap
import Fos.Mem.Paging

/-! The page file (`kern/disk/pagefile_manager.c`). Its disk frames are in a free list or are recorded in the disk page
    tables of the environments, which are made when they are first needed. The directories and tables are pages of the
    kernel heap, of which there are enough; they are modelled by what they contain. The disk is an array of pages. -/

namespace Fos.Disk
open Lib Mem Heap

/-- `PAGES_PER_FILE` -/
def pagesPerFile : Nat := 133120

def kernelBase : Nat := 4026531840

/-- `USTACKTOP` -/
def ustacktop : Nat := userTop - 2 * pageSize

/-- `sizeof(struct WorkingSetElement)` -/
def sizeofWorkingSetElement : Nat := 24

/-- `USTACKBOTTOM`; the product in `USER_PAGES_WS_MAX` wraps. -/
def ustackbottom : Nat := roundUp (u32 (userHeapMax + u32 (sizeofWorkingSetElement * userTop) / pageSize)) pageSize

/-- The addresses of the user heap and of the user stack. -/
def inHeapOrStack (va : Nat) : Bool := userHeapStart ≤ va ∧ va < userHeapMax ∨ ustackbottom ≤ va ∧ va < ustacktop

abbrev Page := Fin 4096 → UInt8

/-- A disk page table: the disk frame of each page, or 0. -/
abbrev DiskTable := Fin 1024 → Nat

/-- What `pf_add_env_page` and `pf_add_empty_env_page` return. -/
inductive PfResult where
  | success
  /-- `E_NO_PAGE_FILE_SPACE` -/
  | noPageFileSpace
  deriving DecidableEq, Repr

structure PageFile (E : Type) where
  diskFreeFrameList : Lists Unit Nat := {}
  /-- The content of the disk frames. -/
  data : Nat → Page := fun _ _ => 0
  /-- `disk_env_pgdir` of the environments -/
  pgdir : E → Option (Fin 1024 → Option DiskTable) := fun _ => none
  /-- The page at `ptr_zero_page`. -/
  zeroPage : Page := fun _ => 0

namespace PageFile

variable {E : Type} [DecidableEq E]

/-- One round of `initialize_disk_page_file`. -/
def initDiskFrame (l : Lists Unit Nat) (i : Nat) : Lists Unit Nat :=
  { l with link := Function.update l.link i {} }.insertHead () i

/-- `initialize_disk_page_file()` -/
def initializeDiskPageFile (s : PageFile E) : PageFile E :=
  { s with diskFreeFrameList := (List.range' 1 (pagesPerFile - 1)).foldl initDiskFrame (s.diskFreeFrameList.init ()) }

/-- `allocate_disk_frame(&dfn)`; `none` is `E_NO_PAGE_FILE_SPACE`. -/
def allocateDiskFrame (s : PageFile E) : Option (PageFile E × Nat) :=
  (s.diskFreeFrameList.head ()).first.map fun dfn =>
    let l := s.diskFreeFrameList.remove () dfn
    ({ s with diskFreeFrameList := { l with link := Function.update l.link dfn {} } }, dfn)

/-- `free_disk_frame(dfn)` -/
def freeDiskFrame (s : PageFile E) (dfn : Nat) : PageFile E :=
  if dfn = 0 then s else { s with diskFreeFrameList := s.diskFreeFrameList.insertHead () dfn }

/-- The table of a directory entry. -/
def table (s : PageFile E) (e : E) (i : Fin 1024) : Option DiskTable := (s.pgdir e).bind (· i)

/-- A directory entry is written. -/
def setTable (s : PageFile E) (e : E) (i : Fin 1024) (t : Option DiskTable) : PageFile E :=
  { s with pgdir := Function.update s.pgdir e ((s.pgdir e).map (Function.update · i t)) }

/-- `get_disk_page_directory(ptr_env, &(ptr_env->disk_env_pgdir))`, when `kmalloc` has a page for the directory -/
def getDiskPageDirectory (s : PageFile E) (e : E) : PageFile E :=
  match s.pgdir e with
  | some _ => s
  | none => { s with pgdir := Function.update s.pgdir e (some fun _ => none) }

/-- `get_disk_page_table(ptr_disk_page_directory, virtual_address, create, &ptr_disk_page_table)` on the directory of an
    environment, for a user address, when `kmalloc` has a page for the table -/
def getDiskPageTable (s : PageFile E) (e : E) (va : Nat) (create : Bool) : PageFile E × Option DiskTable :=
  match s.table e (pdx va) with
  | some t => (s, some t)
  | none => if create then (s.setTable e (pdx va) (some fun _ => 0), some fun _ => 0) else (s, none)

/-- The lines that `pf_add_empty_env_page` and `pf_add_env_page` share: the disk frame of the page, or `none` for
    `E_NO_PAGE_FILE_SPACE`. -/
def diskFrameOf (s : PageFile E) (e : E) (va : Nat) : Option (PageFile E × Option Nat) :=
  if va < kernelBase then
    match (s.getDiskPageDirectory e).getDiskPageTable e va true with
    | (s, some t) =>
      if t (ptx va) = 0 then
        match s.allocateDiskFrame with
        | none => some (s, none)
        | some (s, dfn) => some (s.setTable e (pdx va) (some (Function.update t (ptx va) dfn)), some dfn)
      else some (s, some (t (ptx va)))
    | (_, none) => none
  else none

/-- `write_disk_page(dfn, va)` -/
def writeDiskPage (s : PageFile E) (dfn : Nat) (page : Page) : PageFile E :=
  { s with data := Function.update s.data dfn page }

/-- `pf_add_env_page(ptr_env, virtual_address, dataSrc)` -/
def pfAddEnvPage (s : PageFile E) (e : E) (va : Nat) (dataSrc : Page) : Option (PageFile E × PfResult) :=
  (s.diskFrameOf e va).map fun
  | (s, some dfn) => (s.writeDiskPage dfn dataSrc, .success)
  | (s, none) => (s, .noPageFileSpace)

/-- `pf_add_empty_env_page(ptr_env, virtual_address, initializeByZero)` -/
def pfAddEmptyEnvPage (s : PageFile E) (e : E) (va : Nat) (initializeByZero : Bool) : Option (PageFile E × PfResult) :=
  if initializeByZero then s.pfAddEnvPage e va s.zeroPage
  else
    (s.diskFrameOf e va).map fun
    | (s, some _) => (s, .success)
    | (s, none) => (s, .noPageFileSpace)

/-- The part of `pf_update_env_page` that adds a page which is not in the page file; it panics when there is no space
    and when the address is of neither the heap nor the stack. -/
def addIfAbsent (s : PageFile E) (e : E) (va : Nat) : Option (PageFile E) :=
  match (s.getDiskPageTable e va false).2 with
  | some t => if t (ptx va) = 0 then addEmpty else some s
  | none => addEmpty
where
  addEmpty : Option (PageFile E) :=
    if inHeapOrStack va then
      (s.pfAddEmptyEnvPage e va false).bind fun
      | (s, .success) => some s
      | (_, .noPageFileSpace) => none
    else none

/-- `pf_update_env_page(ptr_env, virtual_address, modified_page_frame_info)`, where `page` is what is at the page of the
    address -/
def pfUpdateEnvPage (s : PageFile E) (e : E) (va : Nat) (page : Page) : Option (PageFile E) :=
  if va < kernelBase then
    ((s.getDiskPageDirectory e).addIfAbsent e va).bind fun s =>
      (s.table e (pdx va)).map fun t => s.writeDiskPage (t (ptx va)) page
  else none

/-- The disk frame that `pf_read_env_page(ptr_env, virtual_address)` reads; `none` is `E_PAGE_NOT_EXIST_IN_PF`. -/
def pfReadEnvPage (s : PageFile E) (e : E) (va : Nat) : Option Page :=
  (s.table e (pdx va)).bind fun t => if t (ptx va) = 0 then none else some (s.data (t (ptx va)))

/-- `pf_remove_env_page(ptr_env, virtual_address)` -/
def pfRemoveEnvPage (s : PageFile E) (e : E) (va : Nat) : PageFile E :=
  match s.table e (pdx va) with
  | none => s
  | some t => (s.setTable e (pdx va) (some (Function.update t (ptx va) 0))).freeDiskFrame (t (ptx va))

/-- One round of the inner loop of `pf_free_env`. -/
def freeDiskEntry (e : E) (i : Fin 1024) (s : PageFile E) (j : Fin 1024) : PageFile E :=
  match s.table e i with
  | none => s
  | some t => (s.setTable e i (some (Function.update t j 0))).freeDiskFrame (t j)

/-- One round of the outer loop of `pf_free_env`. -/
def freeDiskTable (e : E) (s : PageFile E) (i : Fin 1024) : PageFile E :=
  match s.table e i with
  | none => s
  | some _ => ((List.finRange 1024).foldl (freeDiskEntry e i) s).setTable e i none

/-- `pf_free_env(ptr_env)`, for an environment without a table directory (`disk_env_tabledir`) -/
def pfFreeEnv (s : PageFile E) (e : E) : Option (PageFile E) :=
  if (s.pgdir e).isSome then
    let s := ((List.finRange 1024).filter (· < pdx userTop)).foldl (freeDiskTable e) s
    some { s with pgdir := Function.update s.pgdir e none }
  else none

end PageFile

/-! ### Runs -/

inductive PfEvent (E : Type) where
  | addEmpty (e : E) (va : Nat) (initializeByZero : Bool)
  | add (e : E) (va : Nat) (dataSrc : Page)
  | update (e : E) (va : Nat) (page : Page)
  | remove (e : E) (va : Nat)
  | freeEnv (e : E)

namespace PageFile

variable {E : Type} [DecidableEq E]

/-- A call and what it returns. -/
def call (s : PageFile E) : PfEvent E → Option (PageFile E × PfResult)
  | .addEmpty e va initializeByZero => s.pfAddEmptyEnvPage e va initializeByZero
  | .add e va dataSrc => s.pfAddEnvPage e va dataSrc
  | .update e va page => (s.pfUpdateEnvPage e va page).map (·, .success)
  | .remove e va => some (s.pfRemoveEnvPage e va, .success)
  | .freeEnv e => (s.pfFreeEnv e).map (·, .success)

def step (s : PageFile E) (ev : PfEvent E) : Option (PageFile E) := (s.call ev).map Prod.fst

end PageFile

end Fos.Disk
