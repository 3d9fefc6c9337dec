import Fos.Trap.LruVictim
import Fos.Trap.RefStream

/-! What a reference records under the OPTIMAL setting: a reference that faults is recorded once, and a reference to a page whose
    present bit is set is not recorded. -/

namespace Fos.Mem
open Lib Heap Disk

namespace Paging

variable {D : Type} [DecidableEq D] {s t : Paging D} {table x : PageNo} {dir : D} {va : Nat} {i : Fin 1024} {entry : Pte}
  {permissionsToSet permissionsToClear perms : BitVec 12} {write : Bool}

omit [DecidableEq D] in
/-- The permissions that `pt_set_page_permissions` leaves. -/
theorem ptGetPagePermissions_set (hs : s.ptSetPagePermissions dir va permissionsToSet permissionsToClear = some t) :
    ∃ perms, t.ptGetPagePermissions dir va = some (some ((perms ||| permissionsToSet) &&& ~~~ permissionsToClear)) := by
  obtain ⟨r, hr, hs⟩ := Option.bind_eq_some_iff.mp hs
  cases r with
  | notExist => exact nomatch hs
  | null => exact nomatch hs
  | inMemory table =>
    cases hs
    refine ⟨(s.heap.mem.pte (.user table (ptx va))).perm, ?_⟩
    have hself : ∀ entry, (s.writeEntry table (ptx va) entry).heap.mem.pte (.user table (ptx va)) = entry := fun entry =>
      Function.update_self ..
    unfold ptGetPagePermissions
    rw [getPageTable_writeEntry, hr, Option.map_some]
    dsimp only
    rw [hself]

/-- A new table has no page. -/
theorem access_createPageTable (hs : s.createPageTable dir va = some (t, x)) : t.access dir va write = none := by
  obtain ⟨h, ptr, -, -, -, rfl⟩ := createPageTable_eq_some.mp hs
  unfold access
  dsimp only
  rw [Function.update_self, Function.update_self, Option.bind_some, pte_clearTable, if_pos rfl]
  rfl

end Paging

end Fos.Mem

namespace Fos.Trap
open Lib Heap Disk Mem

namespace OptimalRun

variable {E : Type} [DecidableEq E] {s t u : OptimalRun E} {e d : E} {va n size ptr : Nat} {write : Bool} {o : Outcome}
  {permissionsToSet permissionsToClear perms : BitVec 12} {x : ListElement} {m : UserMem E}

/-- The working sets and the stream are left as they are. -/
structure SameStream (s t : OptimalRun E) : Prop where
  ws : t.mem.ws = s.mem.ws
  prepagedVAs : t.prepagedVAs = s.prepagedVAs
  referenceStreamList : t.referenceStreamList = s.referenceStreamList

omit [DecidableEq E] in
theorem SameStream.refl (s : OptimalRun E) : SameStream s s := ⟨rfl, rfl, rfl⟩

omit [DecidableEq E] in
theorem SameStream.trans (h : SameStream s t) (h' : SameStream t u) : SameStream s u :=
  ⟨h'.ws.trans h.ws, h'.prepagedVAs.trans h.prepagedVAs, h'.referenceStreamList.trans h.referenceStreamList⟩

omit [DecidableEq E] in
theorem sameStream_setMem (hws : m.ws = s.mem.ws) : SameStream s (s.setMem m) := ⟨hws, rfl, rfl⟩

omit [DecidableEq E] in
theorem setPermissions_same (hs : s.setPermissions e va permissionsToSet permissionsToClear = some t) : SameStream s t := by
  obtain ⟨r, -, rfl⟩ := Option.map_eq_some_iff.mp hs
  exact sameStream_setMem rfl

omit [DecidableEq E] in
theorem kmalloc_same (hs : s.kmalloc size = some (t, ptr)) : SameStream s t := by
  obtain ⟨⟨r, p⟩, -, hs⟩ := Option.bind_eq_some_iff.mp hs
  obtain ⟨-, heq⟩ := Option.ite_none_left_eq_some.mp hs
  cases heq
  exact sameStream_setMem rfl

theorem kfree_same (hs : s.kfree va = some t) : SameStream s t := by
  obtain ⟨r, -, rfl⟩ := Option.map_eq_some_iff.mp hs
  exact sameStream_setMem rfl

theorem setActiveList_same (s : OptimalRun E) (e : E) (l : List ListElement) : SameStream s (s.setActiveList e l) := ⟨rfl, rfl, rfl⟩

/-! ### The handler -/

omit [DecidableEq E] in
theorem clearWorkingSet_same (hs : s.clearWorkingSet e = some t) : SameStream s t := by
  unfold clearWorkingSet at hs
  split at hs
  · exact exec_keeps hs (fun u x v h hv => h.trans (setPermissions_same hv)) (.refl s)
  · cases hs
    exact .refl s

theorem loadPage_same (hs : s.loadPage e va = some (t, o)) : SameStream s t := by
  obtain ⟨info, -, hs⟩ := Option.bind_eq_some_iff.mp hs
  cases info with
  | some f =>
    cases hs
    exact .refl s
  | none =>
    obtain ⟨⟨r, f⟩, -, hs⟩ := Option.bind_eq_some_iff.mp hs
    obtain ⟨r', -, hs⟩ := Option.bind_eq_some_iff.mp hs
    obtain ⟨⟨v, found⟩, hread, heq⟩ := Option.map_eq_some_iff.mp hs
    cases heq
    exact sameStream_setMem ((UserMem.pfReadEnvPage_ws hread).trans rfl)

theorem removeActive_same (hs : removeActive e s x = some t) : SameStream s t := by
  obtain ⟨u, hu, hs⟩ := Option.bind_eq_some_iff.mp hs
  exact ((setPermissions_same hu).trans (setActiveList_same u e _)).trans (kfree_same hs)

theorem addActive_same (hs : s.addActive e va = some t) :
    SameStream s t ∧ ∃ u : OptimalRun E, u.setPermissions e va permPresent 0 = some t := by
  obtain ⟨u, hu, hs⟩ := Option.bind_eq_some_iff.mp hs
  obtain ⟨⟨v, x⟩, hv, hs⟩ := Option.bind_eq_some_iff.mp hs
  have hu : SameStream s u := by
    split at hu
    · exact exec_keeps hu (fun v x w h hw => h.trans (removeActive_same hw)) (.refl s)
    · cases hu
      exact .refl s
  have hv : SameStream u v := by
    obtain ⟨-, hv⟩ := Option.ite_none_right_eq_some.mp hv
    obtain ⟨⟨w, wse⟩, hw, heq⟩ := Option.map_eq_some_iff.mp hv
    cases heq
    exact kmalloc_same hw
  exact ⟨((hu.trans hv).trans (setActiveList_same v e _)).trans (setPermissions_same hs), _, hs⟩

/-- At its end the handler has set the present bit. -/
theorem activate_same (hs : s.activate e va = some t) :
    SameStream s t ∧ ∃ u : OptimalRun E, u.setPermissions e va permPresent 0 = some t := by
  unfold activate at hs
  split at hs
  · exact ⟨setPermissions_same hs, s, hs⟩
  · exact addActive_same hs

/-- A reference to the page of `va` was put at the end of the stream of `e`. -/
structure Recorded (e : E) (va : Nat) (s t : OptimalRun E) : Prop where
  ws : t.mem.ws = s.mem.ws
  prepagedVAs : t.prepagedVAs = s.prepagedVAs
  stream : ∃ x : ListElement, x.virtualAddress = pageOf va ∧
    t.referenceStreamList = Function.update s.referenceStreamList e (s.referenceStreamList e ++ [x])

theorem Recorded.trans (h : Recorded e va s t) (h' : SameStream t u) : Recorded e va s u := by
  obtain ⟨x, hx, hstream⟩ := h.stream
  exact ⟨h'.ws.trans h.ws, h'.prepagedVAs.trans h.prepagedVAs, x, hx, h'.referenceStreamList.trans hstream⟩

theorem SameStream.recorded (h : SameStream s t) (h' : Recorded e va t u) : Recorded e va s u := by
  obtain ⟨x, hx, hstream⟩ := h'.stream
  exact ⟨h'.ws.trans h.ws, h'.prepagedVAs.trans h.prepagedVAs, x, hx, h.referenceStreamList ▸ hstream⟩

theorem recordReference_spec (hs : s.recordReference e va = some t) : Recorded e va s t := by
  obtain ⟨⟨u, ptr⟩, hu, rfl⟩ := Option.map_eq_some_iff.mp hs
  have hsame := kmalloc_same hu
  refine hsame.recorded ⟨rfl, rfl, _, ?_, rfl⟩
  rfl

/-- The present bit of the page is set. -/
def Present (s : OptimalRun E) (e : E) (va : Nat) : Prop :=
  ∃ perms, s.mem.run.paging.ptGetPagePermissions e va = some (some perms) ∧ perms &&& permPresent ≠ 0

omit [DecidableEq E] in
theorem setPermissions_present (hs : s.setPermissions e va permPresent 0 = some t) : t.Present e va := by
  obtain ⟨r, hr, rfl⟩ := Option.map_eq_some_iff.mp hs
  obtain ⟨p, hp, rfl⟩ := Option.map_eq_some_iff.mp hr
  obtain ⟨perms, hperms⟩ := Paging.ptGetPagePermissions_set hp
  refine ⟨_, hperms, fun hzero => ?_⟩
  have hbit := congrArg (·.getLsbD 0) hzero
  simp [permPresent] at hbit

/-- A fault that is served was recorded, and the page is present. -/
theorem pageFaultHandler_spec (hs : s.pageFaultHandler e va = some (t, .served)) : Recorded e va s t ∧ t.Present e va := by
  obtain ⟨s₁, hs₁, hs⟩ := Option.bind_eq_some_iff.mp hs
  obtain ⟨s₂, hs₂, hs⟩ := Option.bind_eq_some_iff.mp hs
  obtain ⟨⟨s₃, o⟩, hs₃, hs⟩ := Option.bind_eq_some_iff.mp hs
  have hrecorded := ((recordReference_spec hs₁).trans (clearWorkingSet_same hs₂)).trans (loadPage_same hs₃)
  cases o with
  | exit => cases hs
  | kernelFault => cases hs
  | served =>
    obtain ⟨v, hv, heq⟩ := Option.map_eq_some_iff.mp hs
    cases heq
    obtain ⟨hsame, u, hset⟩ := activate_same hv
    exact ⟨hrecorded.trans hsame, setPermissions_present hset⟩

/-! ### References -/

/-- The page is not accessible: the reference faults. -/
def Faults (s : OptimalRun E) (e : E) (va : Nat) (write : Bool) : Prop := s.mem.run.paging.access e va write = none

/-- A fault of a present page is not served. -/
theorem pageFault_spec (hs : s.pageFault e va = some (t, .served)) :
    ¬ s.Present e va ∧ s.pageFaultHandler e va = some (t, .served) := by
  obtain ⟨perms, hperms, hs⟩ := Option.bind_eq_some_iff.mp hs
  split at hs
  · cases hs
  · obtain ⟨habsent, hs⟩ := Option.ite_none_left_eq_some.mp hs
    refine ⟨fun ⟨perms', hget, hpresent⟩ => ?_, hs⟩
    obtain ⟨o, ho, rfl⟩ := Option.map_eq_some_iff.mp hperms
    obtain rfl := Option.some.inj (ho.symm.trans hget)
    exact habsent hpresent

omit [DecidableEq E] in
theorem not_present_of_pde (h : s.mem.run.paging.pde e (pdx va) = none) : ¬ s.Present e va := by
  rintro ⟨perms, hget, -⟩
  unfold Paging.ptGetPagePermissions Paging.getPageTable at hget
  rw [h] at hget
  cases hget

/-- A fault that is served: the page was not present, and either its table was made or the fault was recorded. -/
theorem faultHandler_spec (hs : s.faultHandler e va = some (t, .served)) (hva : va < userTop) :
    ¬ s.Present e va ∧
      (SameStream s t ∧ (∀ write, t.Faults e va write) ∨ Recorded e va s t ∧ t.Present e va) := by
  obtain ⟨-, hs⟩ := Option.ite_none_left_eq_some.mp hs
  dsimp only at hs
  split at hs
  · rename_i hpde
    obtain ⟨k, hk, heq⟩ := Option.map_eq_some_iff.mp hs
    cases heq
    refine ⟨not_present_of_pde (s := s) hpde, .inl ⟨⟨(Kernel.tableFaultHandler_ws hk).trans rfl, rfl, rfl⟩, fun write => ?_⟩⟩
    unfold Kernel.tableFaultHandler at hk
    rw [if_pos hva] at hk
    obtain ⟨⟨p, x⟩, hp, rfl⟩ := Option.map_eq_some_iff.mp hk
    exact Paging.access_createPageTable hp
  · obtain ⟨habsent, hs⟩ := pageFault_spec hs
    obtain ⟨hrecorded, hpresent⟩ := pageFaultHandler_spec hs
    exact ⟨habsent, .inr ⟨⟨hrecorded.ws, hrecorded.prepagedVAs, hrecorded.stream⟩, hpresent⟩⟩

/-- What the loop records: nothing if the page can be accessed or is present at least, and otherwise one reference. -/
theorem referenceLoop_spec (hs : referenceLoop e va write n s = some t) (hva : va < userTop) :
    (¬ s.Faults e va write ∨ s.Present e va → SameStream s t) ∧ (s.Faults e va write → Recorded e va s t) := by
  induction n generalizing s with
  | zero => exact nomatch hs
  | succ n ih =>
    unfold referenceLoop at hs
    cases haccess : s.mem.run.paging.access e va write with
    | some r =>
      rw [haccess] at hs
      cases hs
      exact ⟨fun _ => sameStream_setMem rfl, fun h => nomatch h.symm.trans haccess⟩
    | none =>
      rw [haccess] at hs
      obtain ⟨⟨u, o⟩, hu, hs⟩ := Option.bind_eq_some_iff.mp hs
      cases o with
      | exit => cases hs
      | kernelFault => cases hs
      | served =>
        obtain ⟨habsent, hfault⟩ := faultHandler_spec hu hva
        refine ⟨fun h => absurd (h.resolve_left (not_not_intro haccess)) habsent, fun _ => ?_⟩
        rcases hfault with ⟨hsame, hfaults⟩ | ⟨hrecorded, hpresent⟩
        · exact hsame.recorded ((ih hs).2 (hfaults write))
        · exact hrecorded.trans ((ih hs).1 (.inr hpresent))

theorem reference_hit (hs : s.reference e va write = some t) (h : ¬ s.Faults e va write) : SameStream s t := by
  obtain ⟨hva, hs⟩ := Option.ite_none_right_eq_some.mp hs
  exact (referenceLoop_spec hs hva).1 (.inl h)

theorem reference_fault (hs : s.reference e va write = some t) (h : s.Faults e va write) : Recorded e va s t := by
  obtain ⟨hva, hs⟩ := Option.ite_none_right_eq_some.mp hs
  exact (referenceLoop_spec hs hva).2 h

end OptimalRun

end Fos.Trap
