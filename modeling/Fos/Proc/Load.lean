import Fos.Trap.Fault

/-! The loader of `env_create` (`kern/proc/user_environment.c`): the segments of a program are put into the page file and
    some of their pages are mapped, and the stack gets its page. The table working set is left out. -/

namespace Fos.Mem
open Lib Heap Disk

namespace Paging

variable {D : Type} [DecidableEq D]

/-- The last lines of `loadtime_map_frame`, which overwrite the entry. -/
def loadtimeMapFrameIn (s : Paging D) (table f : PageNo) (va : Nat) (perm : BitVec 12) : Paging D :=
  { s with heap := { s.heap with mem := { s.heap.mem with
      references := Function.update s.heap.mem.references f (u16 (s.heap.mem.references f + 1))
      pte := Function.update s.heap.mem.pte (.user table (ptx va)) ⟨f, perm ||| permPresent⟩ } } }

/-- `loadtime_map_frame(ptr_page_directory, ptr_frame_info, virtual_address, perm)` -/
def loadtimeMapFrame (s : Paging D) (dir : D) (f : PageNo) (va : Nat) (perm : BitVec 12) : Option (Paging D) :=
  (s.getPageTable dir va).bind fun
  | .notExist => (s.createPageTable dir va).map fun (s, table) => s.loadtimeMapFrameIn table f va perm
  | .null => none
  | .inMemory table => some (s.loadtimeMapFrameIn table f va perm)

end Paging

/-- `struct ProgramSegment`, with what is in memory from `ptr_start` on -/
structure Segment where
  source : Nat → UInt8
  sizeInFile : Nat
  sizeInMemory : Nat
  virtualAddress : Nat

namespace Segment

/-- How many pages of the segment may be mapped, of the `remaining_ws_pages` left. -/
def limit (seg : Segment) (progName : String) (remaining : Nat) : Nat :=
  let iVA := roundDown seg.virtualAddress pageSize
  let remaining := if iVA = 0x200000 then 0 else remaining
  if iVA = 0x803000 ∧ progName ∈ ["tpp", "tia", "tia_slave1", "tia_slave2", "tia_slave3", "tia_slave4"] then min remaining 9
  else remaining

/-- The pages of the segment that are mapped. -/
def prepaged (seg : Segment) (progName : String) (remaining : Nat) : List Nat :=
  let iVA := roundDown seg.virtualAddress pageSize
  let endVaddr := roundUp (u32 (seg.virtualAddress + seg.sizeInMemory)) pageSize
  pagesFrom iVA (min (seg.limit progName remaining) ((endVaddr - iVA) / pageSize))

/-- What is in the mapped page `va` when the bytes of the file and the zeros behind them have been copied; `old` is what
    was in the frame. -/
def copied (seg : Segment) (va : Nat) (old : Page) : Page := fun k =>
  if va + k.val < seg.virtualAddress then old k
  else if va + k.val < u32 (seg.virtualAddress + seg.sizeInFile) then seg.source (va + k.val - seg.virtualAddress)
  else 0

/-! The page file gets the first page, if it is cut off, the full pages, the last page and the pages of zeros. -/

def startFirst (seg : Segment) : Nat := roundDown seg.virtualAddress pageSize

def endFirst (seg : Segment) : Nat := roundUp seg.virtualAddress pageSize

def offset (seg : Segment) : Nat := seg.virtualAddress - seg.startFirst

/-- The page at `ptr_temp_page` that is written as the first page. -/
def firstPage (seg : Segment) : Page := fun k => if k.val < seg.offset then 0 else seg.source (k.val - seg.offset)

/-- How far `src_ptr` is behind the first page. -/
def afterFirst (seg : Segment) : Nat := if seg.offset ≠ 0 then seg.endFirst - seg.virtualAddress else 0

def endLast (seg : Segment) : Nat := u32 (seg.virtualAddress + seg.sizeInFile)

def startLast (seg : Segment) : Nat := roundDown seg.endLast pageSize

/-- The number of rounds of the loop over the full pages. -/
def fullPages (seg : Segment) : Nat := (seg.startLast - seg.endFirst) / pageSize

def fullPage (seg : Segment) (j : Nat) : Page := fun k => seg.source (seg.afterFirst + j * pageSize + k.val)

/-- The page at `ptr_temp_page` that is written as the last page. -/
def lastPage (seg : Segment) : Page := fun k =>
  if seg.startLast + k.val < seg.endLast then seg.source (seg.afterFirst + seg.fullPages * pageSize + k.val) else 0

def startRemaining (seg : Segment) : Nat := roundUp seg.endLast pageSize

/-- `remainingLength` -/
def remainingLength (seg : Segment) : Nat := u32 (seg.virtualAddress + seg.sizeInMemory + 4294967296 - seg.startRemaining)

/-- The pages of zeros. -/
def zeroPages (seg : Segment) : List Nat := pagesFrom seg.startRemaining (roundUp seg.remainingLength pageSize / pageSize)

end Segment

namespace WorkingSet

/-- An element is put at the end while the program is loaded. -/
def insertLoaded (w : WorkingSet) (wse : Nat) : WorkingSet :=
  let w := w.insertTail wse
  { w with last := if w.list.length = w.maxSize then w.list.head? else none }

end WorkingSet

namespace UserMem

variable {E : Type} [DecidableEq E]

/-- A new frame is mapped at `va`, and the page gets an element of the working set. -/
def mapSegmentPage (e : E) (s : UserMem E) (va : Nat) : Option (UserMem E) :=
  s.run.allocateFrame.bind fun (r, f) =>
    (r.paging.loadtimeMapFrame e f va (permUser ||| permWriteable)).bind fun p =>
      ((s.setRun { r with paging := p, handed := r.handed.erase f }).createElement e va).map fun (s, wse) =>
        s.setWs e ((s.ws e).insertLoaded wse)

/-- The kernel writes a page at its user address; the processor sets the bits. -/
def writeUserPage (s : UserMem E) (e : E) (va : Nat) (content : Page → Page) : Option (UserMem E) :=
  let p := s.run.paging.page e va
  if p.present then
    (s.run.ptSetPagePermissions e va (permUsed ||| permModified) 0).map fun r =>
      { s with run := r, data := Function.update s.data p.frame (content (s.data p.frame)) }
  else none

/-- `program_segment_alloc_map_copy_workingset(e, seg, allocated_pages, remaining_ws_pages, lastTableNumber)` -/
def programSegmentAllocMapCopyWorkingset (s : UserMem E) (e : E) (progName : String) (seg : Segment) (remaining : Nat) :
    Option (UserMem E × Nat) :=
  let pages := seg.prepaged progName remaining
  (exec (mapSegmentPage e) s pages).bind fun s =>
    (exec (fun s va => s.writeUserPage e va (seg.copied va)) s pages).map (·, pages.length)

/-- A page is added to the page file; the loader panics when there is no space. -/
def addPage (s : UserMem E) (e : E) (va : Nat) (content : Page) : Option (UserMem E) :=
  (s.disk.pfAddEnvPage e va content).bind fun
  | (disk, .success) => some { s with disk := disk }
  | (_, .noPageFileSpace) => none

/-- Steps 7.2 to 7.5 of `env_create`. -/
def writeSegment (s : UserMem E) (e : E) (seg : Segment) : Option (UserMem E) :=
  (if seg.offset ≠ 0 then s.addPage e seg.startFirst seg.firstPage else some s).bind fun s =>
    (exec (fun s j => s.addPage e (seg.endFirst + j * pageSize) (seg.fullPage j)) s (List.range seg.fullPages)).bind fun s =>
      (s.addPage e seg.startLast seg.lastPage).bind fun s =>
        exec (fun s va => s.addPage e va s.disk.zeroPage) s seg.zeroPages

/-- Step 7 of `env_create`. -/
def loadSegments (e : E) (progName : String) : UserMem E → Nat → List Segment → Option (UserMem E)
  | s, _, [] => some s
  | s, remaining, seg :: segs =>
    (s.programSegmentAllocMapCopyWorkingset e progName seg remaining).bind fun (s, allocated) =>
      (s.writeSegment e seg).bind fun s => loadSegments e progName s (remaining - allocated) segs

/-- The initial page of the stack. -/
def stackVa : Nat := ustacktop - pageSize

/-- Step 10 of `env_create`; what `pf_add_empty_env_page` returns is ignored. -/
def mapStackPage (s : UserMem E) (e : E) : Option (UserMem E) :=
  s.run.allocateFrame.bind fun (r, f) =>
    (r.paging.loadtimeMapFrame e f stackVa (permUser ||| permWriteable)).bind fun p =>
      ((s.setRun { r with paging := p, handed := r.handed.erase f }).writeUserPage e stackVa fun _ _ => 0).bind fun s =>
        (s.createElement e stackVa).bind fun (s, wse) =>
          let s := s.setWs e ((s.ws e).insertLoaded wse)
          (s.disk.pfAddEmptyEnvPage e stackVa true).map fun (disk, _) => { s with disk := disk }

/-- What `initialize_environment` sets up for the memory of `e`. -/
def initializeEnvironment (s : UserMem E) (e : E) (pageWsSize : Nat) : UserMem E :=
  { s with
    run := { s.run with paging := { s.run.paging with pde := Function.update s.run.paging.pde e fun _ => none } }
    ws := Function.update s.ws e { s.ws e with list := [], maxSize := pageWsSize }
    disk := { s.disk with pgdir := Function.update s.disk.pgdir e none } }

/-- The array `prepagedVAs` -/
def allocPrepagedVAs (s : UserMem E) (e : E) : Option (UserMem E) :=
  (s.run.kmalloc (u32 (4 * (s.ws e).list.length))).bind fun (r, p) => if p = 0 then none else some (s.setRun r)

/-- `env_create(user_program_name, page_WS_size, ..)` from `initialize_environment` on, for a program with the segments
    `segs` -/
def envCreate (s : UserMem E) (e : E) (pageWsSize : Nat) (progName : String) (segs : List Segment) : Option (UserMem E) :=
  let s := s.initializeEnvironment e pageWsSize
  (loadSegments e progName s (u32 (pageWsSize + 4294967295)) segs).bind fun s =>
    (exec (fun s wse => s.clearPermissions e (s.elementVa e wse) permModified) s (s.ws e).list).bind fun s =>
      (s.mapStackPage e).bind fun s => s.allocPrepagedVAs e

end UserMem

end Fos.Mem
