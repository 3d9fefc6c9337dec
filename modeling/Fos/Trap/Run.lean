import Fos.Heap.UHeapLimits
import Fos.Proc.EnvInv

/-! Runs of the kernel: environments are created, run into page faults and exit; their heaps are marked and freed. -/

namespace Fos.Trap
open Lib Heap Disk Mem

inductive KernelEvent (E : Type) where
  | memory (ev : TableEvent E)
  | envCreate (e : E) (pageWsSize : Nat) (progName : String) (segs : List Segment)
  | allocateUserMem (e : E) (va size : Nat)
  | freeUserMem (e : E) (va size : Nat)
  | envPageWsInvalidate (e : E) (va : Nat)
  | updateTimeStamps (e : E)
  | fault (e : E) (userTrap : Bool) (va : Nat)

/-- The kernel and the environments that were created and have not exited. -/
structure KernelRun (E : Type) where
  kernel : Kernel E
  running : E → Bool := fun _ => false

namespace KernelRun

variable {E : Type} [DecidableEq E]

def mem (s : KernelRun E) : UserMem E := s.kernel.mem

def setMem (s : KernelRun E) (m : UserMem E) : KernelRun E := { s with kernel := s.kernel.setMem m }

def step (s : KernelRun E) : KernelEvent E → Option (KernelRun E)
  | .memory ev => (s.mem.run.tableStep ev).map fun r => s.setMem (s.mem.setRun r)
  | .envCreate e pageWsSize progName segs =>
    (s.mem.envCreate e pageWsSize progName segs).map fun m =>
      { s.setMem m with running := Function.update s.running e true }
  | .allocateUserMem e va size => (s.mem.allocateUserMem e va size).map s.setMem
  | .freeUserMem e va size => (s.mem.freeUserMem e va size).map s.setMem
  | .envPageWsInvalidate e va => (s.mem.envPageWsInvalidate e va).map s.setMem
  | .updateTimeStamps e => (s.mem.updateTimeStamps e).map s.setMem
  | .fault e userTrap va => (s.kernel.pageFaultTrap e userTrap va).bind fun
    | (k, .served) => some { s with kernel := k }
    | (k, .exit) => some { kernel := k, running := Function.update s.running e false }
    | (_, .kernelFault) => none

/-- The region is in the user heap. -/
def InUserHeap (va size : Nat) : Prop := userHeapStart ≤ va ∧ va + size < userHeapMax

/-- The steps that are considered. Elements of working sets are freed only by the handlers, an environment is new when it is
    created, and a region that is marked has no page with a frame that is also mapped elsewhere. -/
def Allowed (s : KernelRun E) : KernelEvent E → Prop
  | .memory ev => s.mem.run.TableAllowed ev ∧ s.mem.run.UserFrame ev ∧ s.mem.run.TablePlain ev ∧
      ∀ e, ∀ x ∈ (s.mem.ws e).list, ev ≠ .paging (.kfree x)
  | .envCreate e pageWsSize _ segs => s.mem.Unused e ∧ 1 ≤ pageWsSize ∧ pageWsSize < 4294967296 ∧ UserMem.Loadable segs
  | .allocateUserMem e va size => InUserHeap va size ∧ ∀ p ∈ pagesOf va size, s.mem.run.paging.Sole e p
  | .freeUserMem _ va size => InUserHeap va size
  | .envPageWsInvalidate .. => True
  | .updateTimeStamps _ => True
  | .fault e _ va => s.running e ∧ va < 4294967296

/-- The steps with every region that `sys_allocate_user_mem` and `sys_free_user_mem` accept, also those whose end wraps. -/
def Accepted (s : KernelRun E) : KernelEvent E → Prop
  | .allocateUserMem e va size => inUserRange va size ∧ ∀ p ∈ pagesOf va size, s.mem.run.paging.Sole e p
  | .freeUserMem _ va size => inUserRange va size
  | ev => s.Allowed ev

/-- The state after the boot: no environment has run. -/
structure Booted (numberOfFrames kernelEnd : Nat) (s : KernelRun E) : Prop where
  run : PagingRun.afterBoot E numberOfFrames kernelEnd = some s.mem.run
  list : ∀ e, (s.mem.ws e).list = []
  last : ∀ e, (s.mem.ws e).last = none
  running : ∀ e, s.running e = false

end KernelRun

end Fos.Trap
