import Fos.Proc.Access
import Fos.Trap.Fault
import Fos.Trap.Optimal

/-! The OPTIMAL setting (`kern/trap/fault_handler.c`). The fault handler records the reference and sets the present bit of the page.
    The pages with this bit are in `ActiveList`; when it is full, it is emptied and the bits are cleared, so that the next
    references fault again. -/

namespace Fos.Trap
open Lib Heap Disk Mem

/-- `sizeof(struct PageRefElement)` -/
def sizeofPageRefElement : Nat := 12

/-- An element of `referenceStreamList` or `ActiveList`: its address and its `virtual_address`. -/
structure ListElement where
  address : Nat
  virtualAddress : Nat
  deriving DecidableEq, Repr

/-- The kernel, and the fields of the environments that belong to the OPTIMAL setting. -/
structure OptimalRun (E : Type) where
  kernel : Kernel E
  referenceStreamList : E → List ListElement := fun _ => []
  activeList : E → List ListElement := fun _ => []
  prepagedVAs : E → List Nat := fun _ => []

namespace OptimalRun

variable {E : Type} [DecidableEq E]

def mem (s : OptimalRun E) : UserMem E := s.kernel.mem

def setMem (s : OptimalRun E) (m : UserMem E) : OptimalRun E := { s with kernel := s.kernel.setMem m }

def setActiveList (s : OptimalRun E) (e : E) (l : List ListElement) : OptimalRun E :=
  { s with activeList := Function.update s.activeList e l }

/-- The elements of `page_WS_list` -/
def pageWsList (s : OptimalRun E) (e : E) : List WorkingSetElement := (s.mem.ws e).list.map (s.mem.ws e).element

/-- `pt_set_page_permissions(e->env_page_directory, virtual_address, permissions_to_set, permissions_to_clear)` -/
def setPermissions (s : OptimalRun E) (e : E) (va : Nat) (permissionsToSet permissionsToClear : BitVec 12) :
    Option (OptimalRun E) :=
  (s.mem.run.ptSetPagePermissions e va permissionsToSet permissionsToClear).map fun r => s.setMem (s.mem.setRun r)

/-- `kmalloc(size)`, where a null pointer is dereferenced next -/
def kmalloc (s : OptimalRun E) (size : Nat) : Option (OptimalRun E × Nat) :=
  (s.mem.run.kmalloc size).bind fun (r, ptr) => if ptr = 0 then none else some (s.setMem (s.mem.setRun r), ptr)

/-- `kfree(va)` -/
def kfree (s : OptimalRun E) (va : Nat) : Option (OptimalRun E) := (s.mem.run.kfree va).map fun r => s.setMem (s.mem.setRun r)

/-! ### `page_fault_handler` -/

/-- The reference is put at the end of the stream. -/
def recordReference (s : OptimalRun E) (e : E) (va : Nat) : Option (OptimalRun E) :=
  (s.kmalloc sizeofPageRefElement).map fun (s, refGeded) =>
    let l := s.referenceStreamList e ++ [⟨refGeded, roundDown va pageSize⟩]
    { s with referenceStreamList := Function.update s.referenceStreamList e l }

/-- The present bits of the working set are cleared while no page is active. -/
def clearWorkingSet (s : OptimalRun E) (e : E) : Option (OptimalRun E) :=
  if s.activeList e = [] ∧ (s.mem.ws e).maxSize < 1000 then
    exec (fun s (iterator : WorkingSetElement) => s.setPermissions e iterator.virtualAddress 0 permPresent) s (s.pageWsList e)
  else some s

/-- A page without a frame is loaded. -/
def loadPage (s : OptimalRun E) (e : E) (va : Nat) : Option (OptimalRun E × Outcome) :=
  (s.mem.run.paging.getFrameInfo e va).bind fun
  | some _ => some (s, .served)
  | none =>
    s.mem.run.allocateFrame.bind fun (r, frameInfo) =>
      (r.mapFrame e frameInfo va (permUser ||| permWriteable ||| permPresent)).bind fun r =>
        ((s.mem.setRun r).pfReadEnvPage e va).map fun (m, found) =>
          (s.setMem m, if found ∨ inHeapOrStack va then .served else .exit)

/-- The loop over `ActiveList` that searches the page. -/
def isActive (s : OptimalRun E) (e : E) (va : Nat) : Bool :=
  (s.activeList e).any fun iterator2 => roundDown iterator2.virtualAddress pageSize = roundDown va pageSize

/-- One round of the loop that empties `ActiveList`. -/
def removeActive (e : E) (s : OptimalRun E) (kararEzala : ListElement) : Option (OptimalRun E) :=
  (s.setPermissions e kararEzala.virtualAddress 0 permPresent).bind fun s =>
    (s.setActiveList e ((s.activeList e).erase kararEzala)).kfree kararEzala.address

/-- `env_page_ws_list_create_element(e, virtual_address)` for `ActiveList` -/
def createElement (s : OptimalRun E) (va : Nat) : Option (OptimalRun E × ListElement) :=
  if va < userTop then
    (s.kmalloc sizeofWorkingSetElement).map fun (s, wse) => (s, ⟨wse, roundDown va pageSize⟩)
  else none

/-- The page gets active. -/
def addActive (s : OptimalRun E) (e : E) (va : Nat) : Option (OptimalRun E) :=
  (if (s.mem.ws e).maxSize ≤ (s.activeList e).length then exec (removeActive e) s (s.activeList e) else some s).bind fun s =>
    (s.createElement va).bind fun (s, elementGeded) =>
      (s.setActiveList e (s.activeList e ++ [elementGeded])).setPermissions e va permPresent 0

/-- The last part of the handler. -/
def activate (s : OptimalRun E) (e : E) (va : Nat) : Option (OptimalRun E) :=
  if s.isActive e va then s.setPermissions e va permPresent 0 else s.addActive e va

/-- `page_fault_handler(faulted_env, fault_va)` under the OPTIMAL setting -/
def pageFaultHandler (s : OptimalRun E) (e : E) (va : Nat) : Option (OptimalRun E × Outcome) :=
  (s.recordReference e va).bind fun s =>
    (s.clearWorkingSet e).bind fun s =>
      (s.loadPage e va).bind fun
      | (s, .served) => (s.activate e va).map (·, .served)
      | r => some r

/-! ### References of the processes -/

/-- The part of `fault_handler` for a user address whose table exists. -/
def pageFault (s : OptimalRun E) (e : E) (va : Nat) : Option (OptimalRun E × Outcome) :=
  (s.mem.permissions e va).bind fun perms =>
    if Kernel.invalidPointer perms va then some (s, .exit)
    else if perms &&& permPresent ≠ 0 then none
    else s.pageFaultHandler e va

/-- `fault_handler(tf)` for a fault of the process `e` at the user address `va` -/
def faultHandler (s : OptimalRun E) (e : E) (va : Nat) : Option (OptimalRun E × Outcome) :=
  let n := if s.kernel.repeats e va then s.kernel.numRepeatedFault + 1 else 0
  if n = 3 ∨ s.kernel.stackFault e true va then none
  else
    let s := { s with kernel := { s.kernel with lastFaultVa := va, lastFaultedEnv := some e, numRepeatedFault := n } }
    match s.mem.run.paging.pde e (pdx va) with
    | none => (s.kernel.tableFaultHandler e va).map fun k => ({ s with kernel := k }, .served)
    | some _ => s.pageFault e va

/-- The instruction is tried, and again after each fault; the fourth fault at the same address panics. -/
def referenceLoop (e : E) (va : Nat) (write : Bool) : Nat → OptimalRun E → Option (OptimalRun E)
  | 0, _ => none
  | n + 1, s =>
    match s.mem.run.paging.access e va write with
    | some (p, _) => some (s.setMem (s.mem.setRun { s.mem.run with paging := p }))
    | none => (s.faultHandler e va).bind fun
      | (s, .served) => referenceLoop e va write n s
      | _ => none

/-- The process `e` refers to a user address; `none` when the kernel panics or ends the process. -/
def reference (s : OptimalRun E) (e : E) (va : Nat) (write : Bool) : Option (OptimalRun E) :=
  if va < userTop then referenceLoop e va write 4 s else none

/-- `sys_get_optimal_num_faults()` of `e`, where `kmalloc` returns the block `block`; it panics when the pages of the working set
    are not those at the start. -/
def sysGetOptimalNumFaults (s : OptimalRun E) (e : E) (block : List Nat) : Option Nat :=
  if (s.pageWsList e).map (pageOf ·.virtualAddress) <+: (s.prepagedVAs e).map pageOf then
    (getOptimalNumFaults (s.pageWsList e) (s.mem.ws e).maxSize ((s.referenceStreamList e).map (·.virtualAddress)) block).map
      (·.faults)
  else none

end OptimalRun

end Fos.Trap
