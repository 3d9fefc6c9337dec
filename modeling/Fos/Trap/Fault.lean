import Fos.Mem.UserMem
import Fos.Mem.Walk

/-! Page faults (`kern/trap/fault_handler.c`, `kern/cpu/sched.c`): placement in the working set, the replacement
    algorithms that keep the pages in `page_WS_list`, and the checks of `fault_handler`. -/

namespace Fos.Mem
open Lib Heap Disk

namespace WorkingSet

/-- `LIST_INSERT_TAIL(&(e->page_WS_list), wse)` -/
def insertTail (w : WorkingSet) (wse : Nat) : WorkingSet := { w with list := w.list ++ [wse] }

/-- `LIST_INSERT_BEFORE(&(e->page_WS_list), at_, wse)` -/
def insertBefore (w : WorkingSet) (at_ wse : Nat) : WorkingSet :=
  { w with list := w.list.takeWhile (· ≠ at_) ++ wse :: w.list.dropWhile (· ≠ at_) }

/-- The element after `wse`, and the first one after the last. -/
def nextCircular (w : WorkingSet) (wse : Nat) : Option Nat :=
  match w.next wse with
  | some n => some n
  | none => w.list.head?

/-- An element is written. -/
def setElement (w : WorkingSet) (wse : Nat) (x : WorkingSetElement) : WorkingSet :=
  { w with element := Function.update w.element wse x }

/-- The victim of LRU: the first element with the least time stamp below the maximum. -/
def lruVictim (w : WorkingSet) : Option Nat :=
  (w.list.foldl (fun (min, victim) wse =>
    if (w.element wse).timeStamp < min then ((w.element wse).timeStamp, some wse) else (min, victim)) (4294967295, none)).2

end WorkingSet

/-- How a fault ends. -/
inductive Outcome where
  | served
  /-- `env_exit()` -/
  | exit
  /-- The kernel faults at an address of its own half, which is not followed. -/
  | kernelFault
  deriving DecidableEq, Repr

/-- The settings `PG_REP_CLOCK`, `PG_REP_LRU_TIME_APPROX` and `PG_REP_MODIFIEDCLOCK` -/
inductive Algorithm where
  | clock
  | lruTimeApprox
  | modifiedClock
  deriving DecidableEq, Repr

namespace UserMem

variable {E : Type} [DecidableEq E]

def setWs (s : UserMem E) (e : E) (w : WorkingSet) : UserMem E := { s with ws := Function.update s.ws e w }

def setRun (s : UserMem E) (r : PagingRun E) : UserMem E := { s with run := r }

/-- The page of an element of the working set. -/
def elementVa (s : UserMem E) (e : E) (wse : Nat) : Nat := ((s.ws e).element wse).virtualAddress

/-- The bits of what `pt_get_page_permissions` returns; those of -1 are all set. -/
def permissions (s : UserMem E) (e : E) (va : Nat) : Option (BitVec 12) :=
  (s.run.paging.ptGetPagePermissions e va).map fun o => o.getD (BitVec.allOnes 12)

/-- `pt_set_page_permissions(e->env_page_directory, virtual_address, 0, permissions_to_clear)` -/
def clearPermissions (s : UserMem E) (e : E) (va : Nat) (permissionsToClear : BitVec 12) : Option (UserMem E) :=
  (s.run.ptSetPagePermissions e va 0 permissionsToClear).map s.setRun

/-- `env_page_ws_list_create_element(e, virtual_address)` -/
def createElement (s : UserMem E) (e : E) (va : Nat) : Option (UserMem E × Nat) :=
  if va < userTop then
    (s.run.kmalloc sizeofWorkingSetElement).bind fun (r, wse) =>
      if wse = 0 then none
      else some ((s.setRun r).setWs e ((s.ws e).setElement wse { virtualAddress := roundDown va pageSize }), wse)
  else none

/-! ### The page file and the memory -/

/-- `pf_read_env_page(ptr_env, virtual_address)`, and whether the page was in the page file. The page is written at its
    user address, where it is mapped. -/
def pfReadEnvPage (s : UserMem E) (e : E) (va : Nat) : Option (UserMem E × Bool) :=
  match s.disk.pfReadEnvPage e va with
  | none => some (s, false)
  | some page =>
    if (s.run.paging.page e va).present then
      ({ s with data := Function.update s.data (s.run.paging.page e va).frame page }.clearPermissions e va permModified).map
        (·, true)
    else none

/-- `pf_update_env_page(ptr_env, virtual_address, frame)`; the page is read at its user address, with its present bit set. -/
def pfUpdateEnvPage (s : UserMem E) (e : E) (va : Nat) : Option (UserMem E) :=
  (s.disk.pfUpdateEnvPage e va (s.data (s.run.paging.page e va).frame)).bind fun disk =>
    { s with disk := disk }.clearPermissions e va permModified

/-- The lines from `allocate_frame` to the test of the read that placement and replacement share. -/
def loadPage (s : UserMem E) (e : E) (va : Nat) : Option (UserMem E × Outcome) :=
  s.run.allocateFrame.bind fun (r, f) =>
    (r.mapFrame e f va (permPresent ||| permWriteable ||| permUser ||| permUsed)).bind fun r =>
      ((s.setRun r).pfReadEnvPage e va).map fun (s, found) => (s, if found ∨ inHeapOrStack va then .served else .exit)

/-- The lines that write the victim back and unmap it. -/
def evictPage (s : UserMem E) (e : E) (va : Nat) : Option (UserMem E) :=
  (s.permissions e va).bind fun perms =>
    (if perms &&& permModified ≠ 0 then s.pfUpdateEnvPage e va else some s).bind fun s =>
      (s.run.unmapFrame e va).map s.setRun

/-- The victim's element gets the page of the fault; where the victim's frame is tested, a null one panics. -/
def replaceVictim (s : UserMem E) (e : E) (wse va : Nat) (tested : Bool) : Option (UserMem E × Outcome) :=
  (s.run.paging.getFrameInfo e (s.elementVa e wse)).bind fun victimFrameInfo =>
    if tested ∧ victimFrameInfo = none then none
    else (s.evictPage e (s.elementVa e wse)).bind fun s =>
      (s.loadPage e va).map fun
      | (s, .served) =>
        (s.setWs e ((s.ws e).setElement wse { (s.ws e).element wse with virtualAddress := va }), .served)
      | r => r

/-! ### The algorithms -/

/-- Placement in a working set that is not full. -/
def place (s : UserMem E) (e : E) (va : Nat) : Option (UserMem E × Outcome) :=
  (s.loadPage e va).bind fun
  | (s, .served) =>
    (s.createElement e va).map fun (s, wse) =>
      let w := match (s.ws e).last with
        | none => (s.ws e).insertTail wse
        | some hand => (s.ws e).insertBefore hand wse
      let w := if w.list.length = w.maxSize ∧ w.last = none then { w with last := w.list.head? } else w
      (s.setWs e w, .served)
  | r => some r

/-- The loop of CLOCK. -/
def clockVictim (e : E) : Nat → UserMem E → Option (UserMem E × Nat)
  | 0, _ => none
  | n + 1, s =>
    match (s.ws e).last with
    | none => none
    | some wse =>
      (s.permissions e (s.elementVa e wse)).bind fun perms =>
        if perms &&& permUsed = 0 then some (s, wse)
        else (s.clearPermissions e (s.elementVa e wse) permUsed).bind fun s =>
          clockVictim e n (s.setWs e { s.ws e with last := (s.ws e).nextCircular wse })

/-- CLOCK; the loop ends in the second round at the latest. -/
def replaceClock (s : UserMem E) (e : E) (va : Nat) : Option (UserMem E × Outcome) :=
  (clockVictim e ((s.ws e).list.length + 1) s).bind fun (s, wse) =>
    (s.replaceVictim e wse va false).map fun
    | (s, .served) => (s.setWs e { s.ws e with last := (s.ws e).nextCircular wse }, .served)
    | r => r

/-- LRU by time stamps -/
def replaceLru (s : UserMem E) (e : E) (va : Nat) : Option (UserMem E × Outcome) :=
  match (s.ws e).lruVictim with
  | none => none
  | some wse =>
    (s.replaceVictim e wse va true).bind fun
    | (s, .served) =>
      let w := (s.ws e).setElement wse { (s.ws e).element wse with timeStamp := 2147483648 }
      let w := { w with list := w.list.erase wse ++ [wse] }
      let w := { w with last := if w.list.length = w.maxSize then w.list.head? else none }
      (s.run.ptSetPagePermissions e va permUsed 0).map fun r => ((s.setRun r).setWs e w, .served)
    | r => some r

/-- One of the three rounds of Modified CLOCK: the victim, or `none` when the round came back to the start. -/
def modifiedClockPass (e : E) (start : Nat) (isVictim : BitVec 12 → Bool) (clearUsed : Bool) :
    Nat → UserMem E → Nat → Option (UserMem E × Option Nat)
  | 0, _, _ => none
  | n + 1, s, current =>
    (s.permissions e (s.elementVa e current)).bind fun perms =>
      if isVictim perms then some (s, some current)
      else (if clearUsed then s.clearPermissions e (s.elementVa e current) permUsed else some s).bind fun s =>
        ((s.ws e).nextCircular current).bind fun next =>
          if next = start then some (s, none) else modifiedClockPass e start isVictim clearUsed n s next

/-- The page is neither used nor modified. -/
def isClean (perms : BitVec 12) : Bool := perms &&& permUsed = 0 ∧ perms &&& permModified = 0

/-- The page is not used. -/
def isUnused (perms : BitVec 12) : Bool := perms &&& permUsed = 0

/-- The victim of Modified CLOCK -/
def modifiedClockVictim (s : UserMem E) (e : E) : Option (UserMem E × Nat) :=
  ((s.ws e).last.or (s.ws e).list.head?).bind fun start =>
    let n := (s.ws e).list.length
    (modifiedClockPass e start isClean false n s start).bind fun
    | (s, some wse) => some (s, wse)
    | (s, none) => (modifiedClockPass e start isUnused true n s start).bind fun
      | (s, some wse) => some (s, wse)
      | (s, none) => (modifiedClockPass e start isClean false n s start).map fun (s, o) => (s, o.getD start)

/-- Modified CLOCK -/
def replaceModifiedClock (s : UserMem E) (e : E) (va : Nat) : Option (UserMem E × Outcome) :=
  (s.modifiedClockVictim e).bind fun (s, wse) =>
    (s.replaceVictim e wse va true).bind fun
    | (s, .served) =>
      (s.run.ptSetPagePermissions e va permUsed 0).map fun r =>
        ((s.setRun r).setWs e { s.ws e with last := (s.ws e).nextCircular wse }, .served)
    | r => some r

/-- `page_fault_handler(faulted_env, fault_va)` for a user address -/
def pageFaultHandler (algorithm : Algorithm) (s : UserMem E) (e : E) (va : Nat) : Option (UserMem E × Outcome) :=
  if (s.ws e).list.length < (s.ws e).maxSize then s.place e (roundDown va pageSize)
  else match algorithm with
    | .clock => s.replaceClock e (roundDown va pageSize)
    | .lruTimeApprox => s.replaceLru e (roundDown va pageSize)
    | .modifiedClock => s.replaceModifiedClock e (roundDown va pageSize)

/-- One round of `update_WS_time_stamps`. -/
def updateTimeStamp (e : E) (s : UserMem E) (wse : Nat) : Option (UserMem E) :=
  let x := (s.ws e).element wse
  (s.permissions e x.virtualAddress).bind fun perms =>
    let timeStamp := if perms &&& permUsed ≠ 0 then x.timeStamp / 2 ||| 2147483648 else x.timeStamp / 2
    (s.setWs e ((s.ws e).setElement wse { x with timeStamp := timeStamp })).clearPermissions e x.virtualAddress permUsed

/-- `update_WS_time_stamps()`, while `e` runs -/
def updateTimeStamps (s : UserMem E) (e : E) : Option (UserMem E) := exec (updateTimeStamp e) s (s.ws e).list

end UserMem

end Fos.Mem

namespace Fos.Trap
open Lib Heap Disk Mem

/-- The memory with the directory entries from `USER_TOP` on, and what `fault_handler` remembers of the last fault. -/
structure Kernel (E : Type) where
  mem : UserMem E
  algorithm : Algorithm := .clock
  /-- The tables of the kernel half of the directories. -/
  kernelPde : E → Fin 1024 → Option PageNo := fun _ _ => none
  /-- The boot mapped the frames below this one at `KERNEL_BASE`. -/
  staticEnd : Nat := 0
  /-- `kstack` of the environments -/
  kstack : E → Nat := fun _ => kernelHeapStart
  /-- `stack` of the CPU -/
  cpuStack : Nat := 0
  lastFaultVa : Nat := 0
  lastFaultedEnv : Option E := none
  numRepeatedFault : Nat := 0

namespace Kernel

variable {E : Type} [DecidableEq E]

def setMem (s : Kernel E) (m : UserMem E) : Kernel E := { s with mem := m }

/-- `env_page_directory[i]` -/
def entry (s : Kernel E) (e : E) (i : Fin 1024) : Option PageNo :=
  if i < pdx userTop then s.mem.run.paging.pde e i else s.kernelPde e i

/-- A page of the current address space is mapped. -/
def mapped (s : Kernel E) (e : E) (va : Nat) : Bool :=
  if va < userTop then (s.mem.run.paging.page e va).present
  else (s.mem.run.hold (.kernel (pageNo va))).isSome

/-- `STATIC_KERNEL_VIRTUAL_ADDRESS` of a table can be read. -/
def staticReadable (s : Kernel E) (e : E) (table : PageNo) : Bool :=
  table.val < s.staticEnd ∨ s.mapped e (u32 (kernelBase + table.val * pageSize))

/-- `table_fault_handler(curenv, fault_va)` -/
def tableFaultHandler (s : Kernel E) (e : E) (va : Nat) : Option (Kernel E) :=
  if va < userTop then
    (s.mem.run.paging.createPageTable e va).map fun (p, _) => s.setMem (s.mem.setRun { s.mem.run with paging := p })
  else
    (s.mem.run.kmalloc pageSize).bind fun (r, ptr) =>
      if ptr = 0 then none
      else (Paging.frameAt r.paging.heap ptr).map fun table =>
        { s with
          mem := s.mem.setRun
            { r with paging := { r.paging with heap := { r.paging.heap with mem := Paging.clearTable r.paging.heap.mem table } } }
          kernelPde := Function.update s.kernelPde e (Function.update (s.kernelPde e) (pdx va) (some table)) }

/-- The checks for a fault in user mode: unmarked pages of the user heap, the kernel, pages that are read only. -/
def invalidPointer (perms : BitVec 12) (va : Nat) : Bool :=
  userHeapStart ≤ va ∧ va < userHeapMax ∧ perms &&& permUhpage = 0 ∨ ustacktop ≤ va ∨
    perms &&& permPresent ≠ 0 ∧ perms &&& permWriteable = 0

/-- The part of `fault_handler` for an address whose table exists. -/
def pageFault (s : Kernel E) (e : E) (userTrap : Bool) (va : Nat) : Option (Kernel E × Outcome) :=
  (s.mem.permissions e va).bind fun perms =>
    if userTrap ∧ invalidPointer perms va then some (s, .exit)
    else if perms &&& permPresent ≠ 0 then none
    else (s.mem.pageFaultHandler s.algorithm e va).map fun (m, outcome) => (s.setMem m, outcome)

/-- The same for an address of the kernel half. `get_page_table` takes the table at its static address; in user mode the
    check for kernel addresses follows. -/
def kernelPageFault (s : Kernel E) (e : E) (userTrap : Bool) (table : PageNo) : Option (Kernel E × Outcome) :=
  if table.val < s.mem.run.paging.heap.mem.numberOfFrames then
    some (s, if userTrap ∧ s.staticReadable e table then .exit else .kernelFault)
  else none

/-- The fault is at the address of the last fault and of the same environment. -/
def repeats (s : Kernel E) (e : E) (va : Nat) : Bool := s.lastFaultVa = va ∧ s.lastFaultedEnv = some e

/-- The stack checks at the beginning of `fault_handler`, which panics. -/
def stackFault (s : Kernel E) (e : E) (userTrap : Bool) (va : Nat) : Bool :=
  if userTrap then ustacktop ≤ va ∧ va < userTop
  else s.kstack e ≤ va ∧ va < s.kstack e + pageSize ∨ s.cpuStack ≤ va ∧ va < s.cpuStack + pageSize ∨ kernelHeapMax ≤ va

/-- `fault_handler(tf)` for a fault of `e` at `va` -/
def faultHandler (s : Kernel E) (e : E) (userTrap : Bool) (va : Nat) : Option (Kernel E × Outcome) :=
  let n := if s.repeats e va then s.numRepeatedFault + 1 else 0
  if n = 3 ∨ s.stackFault e userTrap va then none
  else
    let s := { s with lastFaultVa := va, lastFaultedEnv := some e, numRepeatedFault := n }
    match s.entry e (pdx va) with
    | none => (s.tableFaultHandler e va).map (·, .served)
    | some table => if va < userTop then s.pageFault e userTrap va else s.kernelPageFault e userTrap table

/-- `trap_dispatch(tf)` for a page fault, when no instruction is bypassed -/
def pageFaultTrap (s : Kernel E) (e : E) (userTrap : Bool) (va : Nat) : Option (Kernel E × Outcome) :=
  (if s.algorithm = .lruTimeApprox then (s.mem.updateTimeStamps e).map s.setMem else some s).bind fun s =>
    s.faultHandler e userTrap va

end Kernel

end Fos.Trap
