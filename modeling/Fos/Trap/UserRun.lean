import Fos.Proc.Access
import Fos.Trap.KernelCalls
import Fos.Trap.MarkRequest

/-! Runs of the kernel and of the processes, which read and write their pages between the steps of the kernel. -/

namespace Fos.Mem
open Lib Heap Disk Frames

namespace Paging

variable {D : Type} [DecidableEq D] {s : Paging D} {f : PageNo} {va : Nat} {dir : D}

/-- The address of an entry. -/
def entryVa (j i : Fin 1024) : Nat := j.val * 4194304 + i.val * 4096

theorem pdx_entryVa (j i : Fin 1024) : pdx (entryVa j i) = j := by
  refine Fin.ext ?_
  simp only [pdx, entryVa, Fin.val_ofNat]
  omega

theorem ptx_entryVa (j i : Fin 1024) : ptx (entryVa j i) = i := by
  refine Fin.ext ?_
  simp only [ptx, entryVa, Fin.val_ofNat]
  omega

omit [DecidableEq D] in
/-- Every frame that a user table holds is mapped at a page. -/
theorem Attached.maps {x : PageNo} {i : Fin 1024} {f : PageNo} (h : s.Attached) (hx : s.heap.mem.hold (.user x i) = some f) :
    ∃ d j, s.pde d j = some x ∧ s.Maps d (entryVa j i) f := by
  obtain ⟨d, j, hj⟩ := h x i (by rw [hx]; exact nofun)
  refine ⟨d, j, hj, ?_⟩
  unfold Maps
  rw [page_of_some (t := x) (by rw [pdx_entryVa]; exact hj), ptx_entryVa]
  exact hold_eq_some.mp hx

omit [DecidableEq D] in
/-- A frame that is mapped at one page only is held by one entry. -/
theorem Attached.ncard_holders (h : s.Attached) (hnot : NotKernel s.heap.mem f) (hm : s.Maps dir va f)
    (halone : ∀ d q, s.Maps d q f → d = dir ∧ SamePage q va) : (holders s.heap.mem.hold f).ncard = 1 := by
  obtain ⟨y, hy⟩ := hm.hold
  rw [Set.ncard_eq_one]
  refine ⟨.user y (ptx va), Set.eq_singleton_iff_unique_mem.mpr ⟨hy, fun c hc => ?_⟩⟩
  have hsole : ∀ {z i}, s.heap.mem.hold (.user z i) = some f → s.pde dir (pdx va) = some z ∧ i = ptx va := by
    intro z i hz
    obtain ⟨d, j, hj, hmaps⟩ := h.maps hz
    obtain ⟨rfl, hpdx, hptx⟩ := halone d _ hmaps
    rw [pdx_entryVa] at hpdx
    rw [ptx_entryVa] at hptx
    exact ⟨hpdx ▸ hj, hptx⟩
  cases c with
  | kernel p => exact absurd hc (hnot p)
  | user z i =>
    obtain ⟨hz, rfl⟩ := hsole hc
    cases hz.symm.trans (hsole hy).1
    rfl

end Paging

namespace UserMem

variable {E : Type} [DecidableEq E] {all : List PageNo} {boot : PageNo → Nat} {s : UserMem E} {e : E} {l : List Nat} {x : Nat}
  {f : PageNo}

omit [DecidableEq E] in
/-- One entry holds the frame of an element. -/
theorem Resident.ncard_holders (h : Resident s e l) (hwalk : s.run.WalkInv all boot) (hattached : s.run.paging.Attached)
    (hx : x ∈ l) (hm : s.run.paging.Maps e (s.elementVa e x) f) : (holders s.run.hold f).ncard = 1 :=
  hattached.ncard_holders (hm.notKernel hwalk.2) hm fun d _ => h.alone x hx f d _ hm

end UserMem

end Fos.Mem

namespace Fos.Trap
open Lib Heap Disk Mem

inductive UserEvent (E : Type) where
  | kernel (ev : KernelEvent E)
  | read (e : E) (va : Nat)
  | write (e : E) (va : Nat) (b : UInt8)

namespace KernelRun

variable {E : Type} [DecidableEq E] {s₀ s t : KernelRun E} {ev : UserEvent E} {n k : Nat}

def userStep (s : KernelRun E) : UserEvent E → Option (KernelRun E)
  | .kernel ev => s.step ev
  | .read e va => (s.mem.readByte e va).map fun (m, _) => s.setMem m
  | .write e va b => (s.mem.writeByte e va b).map s.setMem

/-- The steps of the kernel leave the pages of the working sets to the handlers, and the environments that run access their
    part of the memory. -/
def UserAccepted (s : KernelRun E) : UserEvent E → Prop
  | .kernel ev => s.Accepted ev ∧ s.Respects ev ∧ s.NewTable ev
  | .read e va => s.running e ∧ va < userTop
  | .write e va _ => s.running e ∧ va < userTop

/-- The accounts and the working sets, and every entry that holds a frame is in a table of a directory. -/
structure UserInv (n k : Nat) (s : KernelRun E) : Prop extends Sound n k s where
  attached : s.mem.run.paging.Attached

theorem UserInv.accessed {m : UserMem E} (h : UserInv n k s) (ha : UserMem.Accessed s.mem m)
    (hwalk : m.run.WalkInv (Frames.bootFree n k) (Frames.bootReferences k)) (hc : PagingRun.Call s.mem.run m.run) :
    UserInv n k (s.setMem m) where
  mem := h.mem.sameWs hwalk ha.toSameWs
  hand d hd := (h.hand d hd).congr (congrFun ha.ws d)
  ws d hd := (h.ws d hd).accessed ha
  attached := h.attached.grows (hc.grows h.mem.walk)

theorem UserInv.step (h : UserInv n k s) (hok : s.UserAccepted ev) (hs : s.userStep ev = some t) : UserInv n k t := by
  cases ev with
  | kernel ev =>
    obtain ⟨haccepted, hrespects, hnew⟩ := hok
    have hmade := step_made h.mem h.hand haccepted hnew (fun e va size hev => by subst hev; exact hrespects) hs
    exact ⟨h.toSound.step haccepted hrespects hs, hmade.attached h.attached⟩
  | read e va =>
    obtain ⟨⟨m, b⟩, hm, rfl⟩ := Option.map_eq_some_iff.mp hs
    obtain ⟨⟨p, f⟩, hp, heq⟩ := Option.map_eq_some_iff.mp hm
    cases heq
    obtain ⟨-, hwalk, ha, hc⟩ := UserMem.access_spec h.mem.walk hp
    exact h.accessed ha hwalk hc
  | write e va b =>
    obtain ⟨m, hm, rfl⟩ := Option.map_eq_some_iff.mp hs
    obtain ⟨⟨p, f⟩, hp, rfl⟩ := Option.map_eq_some_iff.mp hm
    obtain ⟨-, hwalk, ha, hc⟩ := UserMem.access_spec h.mem.walk hp
    exact h.accessed ⟨⟨rfl, ha.handed, ha.live⟩, ha.page, ha.hold, ha.disk⟩ hwalk hc

theorem UserInv.of_booted (hmin : 160 ≤ n) (hn : n ≤ 1048576) (hk : 256 ≤ k) (hboot : Booted n k s) : UserInv n k s := by
  refine ⟨⟨hboot.memInv hmin hn hk, fun e he => absurd he (hboot.not_running e), fun e he => absurd he (hboot.not_running e)⟩,
    fun x i hne => absurd ((PagingRun.boot_empty hmin hn hk hboot.run).1 _) hne⟩

theorem UserInv.reach (hmin : 160 ≤ n) (hn : n ≤ 1048576) (hk : 256 ≤ k) (hboot : Booted n k s₀)
    (hr : Reach userStep UserAccepted s₀ s) : UserInv n k s :=
  hr.invariant (.of_booted hmin hn hk hboot) fun _ _ _ h hok hs => h.step hok hs

end KernelRun

end Fos.Trap
