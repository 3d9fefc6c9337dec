import Fos.Disk.PageFileRead
import Fos.Trap.RunInv

/-! The fault handlers and the contents of the frames. Besides the pages of the working set that go to the page file, nothing
    that a frame contains has an influence on what they do. -/

namespace Fos.Mem
open Lib Heap Disk Frames

namespace UserMem

variable {E : Type} [DecidableEq E] {all : List PageNo} {boot : PageNo → Nat} {s t : UserMem E} {e : E} {va n wse x : Nat}
  {d : PageNo → Page}

/-- The same memory with other contents of the frames. -/
def withData (s : UserMem E) (d : PageNo → Page) : UserMem E := { s with data := d }

omit [DecidableEq E] in
theorem withData_ws (s : UserMem E) (d : PageNo → Page) : (s.withData d).ws = s.ws := rfl

/-- The same for what a handler returns. -/
def mapData {α : Type} (d : PageNo → Page) : UserMem E × α → UserMem E × α := Prod.map (·.withData d) id

/-! ### Bits, hand and time stamps -/

omit [DecidableEq E] in
theorem clearPermissions_withData {bits : BitVec 12} :
    (s.withData d).clearPermissions e va bits = (s.clearPermissions e va bits).map (·.withData d) := by
  unfold clearPermissions
  rw [Option.map_map]
  rfl

theorem createElement_withData : (s.withData d).createElement e va = (s.createElement e va).map (mapData d) := by
  unfold createElement
  split
  case isTrue =>
    show (s.run.kmalloc _).bind _ = ((s.run.kmalloc _).bind _).map _
    rw [Option.map_bind]
    refine Option.bind_congr fun ⟨r, wse⟩ _ => ?_
    dsimp only [Function.comp]
    split <;> rfl
  case isFalse => rfl

theorem clockVictim_withData : clockVictim e n (s.withData d) = (clockVictim e n s).map (mapData d) := by
  induction n generalizing s with
  | zero => rfl
  | succ n ih =>
    unfold clockVictim
    rw [withData_ws]
    cases (s.ws e).last with
    | none => rfl
    | some wse =>
      dsimp only
      rw [Option.map_bind]
      refine Option.bind_congr fun perms _ => ?_
      dsimp only [Function.comp]
      split
      case isTrue => rfl
      case isFalse =>
        show ((s.withData d).clearPermissions e (s.elementVa e wse) permUsed).bind _ = _
        rw [clearPermissions_withData, Option.bind_map, Option.map_bind]
        exact Option.bind_congr fun t _ => ih (s := t.setWs e { t.ws e with last := (t.ws e).nextCircular wse })

omit [DecidableEq E] in
theorem modifiedClockPass_withData {start current : Nat} {isVictim : BitVec 12 → Bool} {clearUsed : Bool} :
    modifiedClockPass e start isVictim clearUsed n (s.withData d) current =
      (modifiedClockPass e start isVictim clearUsed n s current).map (mapData d) := by
  induction n generalizing s current with
  | zero => rfl
  | succ n ih =>
    unfold modifiedClockPass
    rw [Option.map_bind]
    refine Option.bind_congr fun perms _ => ?_
    dsimp only [Function.comp]
    split
    case isTrue => rfl
    case isFalse =>
      have hclear : (if clearUsed then (s.withData d).clearPermissions e ((s.withData d).elementVa e current) permUsed
          else some (s.withData d)) = (if clearUsed then s.clearPermissions e (s.elementVa e current) permUsed
          else some s).map (·.withData d) := by
        cases clearUsed with
        | true => exact clearPermissions_withData
        | false => rfl
      rw [hclear, Option.bind_map, Option.map_bind]
      refine Option.bind_congr fun t _ => ?_
      dsimp only [Function.comp]
      rw [Option.map_bind]
      refine Option.bind_congr fun next _ => ?_
      dsimp only [Function.comp]
      split
      case isTrue => rfl
      case isFalse => exact ih

omit [DecidableEq E] in
theorem modifiedClockVictim_withData : (s.withData d).modifiedClockVictim e = (s.modifiedClockVictim e).map (mapData d) := by
  unfold modifiedClockVictim
  rw [Option.map_bind]
  refine Option.bind_congr fun start _ => ?_
  dsimp only [Function.comp]
  rw [modifiedClockPass_withData, Option.bind_map, Option.map_bind]
  refine Option.bind_congr fun ⟨s₁, o₁⟩ _ => ?_
  cases o₁ with
  | some x => rfl
  | none =>
    dsimp only [Function.comp, mapData, Prod.map, id]
    rw [modifiedClockPass_withData, Option.bind_map, Option.map_bind]
    refine Option.bind_congr fun ⟨s₂, o₂⟩ _ => ?_
    cases o₂ with
    | some x => rfl
    | none =>
      dsimp only [Function.comp, mapData, Prod.map, id]
      rw [modifiedClockPass_withData, Option.map_map, Option.map_map]
      rfl

theorem updateTimeStamps_withData : (s.withData d).updateTimeStamps e = (s.updateTimeStamps e).map (·.withData d) := by
  refine exec_map (φ := (·.withData d)) (fun s wse => ?_) s (s.ws e).list
  unfold updateTimeStamp
  dsimp only
  rw [Option.map_bind]
  exact Option.bind_congr fun perms _ => clearPermissions_withData (s := s.setWs e _)

theorem envPageWsInvalidate_withData : (s.withData d).envPageWsInvalidate e va = (s.envPageWsInvalidate e va).map (·.withData d) := by
  unfold envPageWsInvalidate
  rw [withData_ws]
  cases (s.ws e).find va with
  | none => rfl
  | some wse =>
    dsimp only
    rw [Option.map_bind]
    refine Option.bind_congr fun r _ => ?_
    dsimp only [Function.comp]
    rw [Option.map_map]
    rfl

theorem freeUserMem_withData {size : Nat} : (s.withData d).freeUserMem e va size = (s.freeUserMem e va size).map (·.withData d) := by
  refine exec_map (φ := (·.withData d)) (fun s p => ?_) s (pagesOf va size)
  unfold freePage
  rw [Option.map_bind]
  refine Option.bind_congr fun r _ => ?_
  dsimp only [Function.comp]
  rw [show ({ s.withData d with run := r, disk := (s.withData d).disk.pfRemoveEnvPage e p } : UserMem E).envPageWsInvalidate e p = _ from
    envPageWsInvalidate_withData (s := { s with run := r, disk := s.disk.pfRemoveEnvPage e p }), Option.bind_map, Option.map_bind]
  refine Option.bind_congr fun t _ => ?_
  dsimp only [Function.comp]
  rw [Option.map_map]
  rfl

/-! ### Pages that are evicted and loaded -/

/-- Nothing of a page is loaded that is not in the page file. -/
theorem loadPage_withData (hnone : s.disk.pfReadEnvPage e va = none) :
    (s.withData d).loadPage e va = (s.loadPage e va).map (mapData d) := by
  unfold loadPage
  rw [Option.map_bind]
  refine Option.bind_congr fun ⟨r₁, f⟩ _ => ?_
  dsimp only [Function.comp]
  rw [Option.map_bind]
  refine Option.bind_congr fun r _ => ?_
  have hread : ∀ u : UserMem E, u.disk = s.disk → u.pfReadEnvPage e va = some (u, false) := by
    intro u hu
    unfold pfReadEnvPage
    rw [hu, hnone]
  dsimp only [Function.comp]
  rw [hread ((s.withData d).setRun r) rfl, hread (s.setRun r) rfl]
  rfl

/-- The content of the page that is evicted is the same. -/
theorem evictPage_withData (hsame : d (s.run.paging.page e va).frame = s.data (s.run.paging.page e va).frame) :
    (s.withData d).evictPage e va = (s.evictPage e va).map (·.withData d) := by
  unfold evictPage
  rw [Option.map_bind]
  refine Option.bind_congr fun perms _ => ?_
  have hupdate : (s.withData d).pfUpdateEnvPage e va = (s.pfUpdateEnvPage e va).map (·.withData d) := by
    unfold pfUpdateEnvPage
    show (s.disk.pfUpdateEnvPage e va (d (s.run.paging.page e va).frame)).bind _ = _
    rw [hsame, Option.map_bind]
    exact Option.bind_congr fun disk _ => clearPermissions_withData (s := { s with disk := disk })
  have hwrite : (if perms &&& permModified ≠ 0 then (s.withData d).pfUpdateEnvPage e va else some (s.withData d)) =
      (if perms &&& permModified ≠ 0 then s.pfUpdateEnvPage e va else some s).map (·.withData d) := by
    rw [hupdate]
    split <;> rfl
  dsimp only [Function.comp]
  rw [hwrite, Option.bind_map, Option.map_bind]
  refine Option.bind_congr fun t _ => ?_
  dsimp only [Function.comp]
  rw [Option.map_map]
  rfl

/-- The contents of the pages in the working set are the same, and the page of the fault is not among them and not in the page
    file. -/
structure Unread (d : PageNo → Page) (e : E) (va : Nat) (s : UserMem E) : Prop where
  same : ∀ x ∈ (s.ws e).list, d (s.run.paging.page e (s.elementVa e x)).frame = s.data (s.run.paging.page e (s.elementVa e x)).frame
  other : ∀ x ∈ (s.ws e).list, ¬ Paging.SamePage va (s.elementVa e x)
  absent : s.disk.pfReadEnvPage e va = none

omit [DecidableEq E] in
theorem Unread.aged (h : Unread d e va s) (ha : Aged all boot e s t) : Unread d e va t := by
  refine ⟨fun x hx => ?_, fun x hx => ?_, by rw [ha.disk]; exact h.absent⟩
  · rw [ha.elementVa, (ha.page e _).1, ha.data]
    exact h.same x (ha.list ▸ hx)
  · rw [ha.elementVa]
    exact h.other x (ha.list ▸ hx)

theorem evictPage_absent {v : Nat} (h : s.run.WalkInv all boot) (hne : ¬ Paging.SamePage va v)
    (hnone : s.disk.pfReadEnvPage e va = none) (hs : s.evictPage e v = some t) : t.disk.pfReadEnvPage e va = none := by
  obtain ⟨-, hevicted⟩ := evictPage_spec h hs
  rcases hevicted.disk with ⟨heq, -⟩ | hupdate
  · rw [heq]
    exact hnone
  · exact PageFile.pfUpdateEnvPage_absent hupdate (fun hsame => hne hsame.2) hnone

theorem replaceVictim_withData {tested : Bool} (h : s.run.WalkInv all boot) (hu : Unread d e va s) (hx : wse ∈ (s.ws e).list) :
    (s.withData d).replaceVictim e wse va tested = (s.replaceVictim e wse va tested).map (mapData d) := by
  unfold replaceVictim
  rw [Option.map_bind]
  refine Option.bind_congr fun info _ => ?_
  dsimp only [Function.comp]
  split
  case isTrue => rfl
  case isFalse =>
    have hevict : (s.withData d).evictPage e ((s.withData d).elementVa e wse) = _ := evictPage_withData (hu.same wse hx)
    rw [hevict, Option.bind_map, Option.map_bind]
    refine Option.bind_congr fun t ht => ?_
    dsimp only [Function.comp]
    rw [loadPage_withData (evictPage_absent h (hu.other wse hx) hu.absent ht), Option.map_map, Option.map_map]
    refine congrArg (Option.map · _) (funext fun ⟨u, o⟩ => ?_)
    cases o <;> rfl

theorem place_withData (hnone : s.disk.pfReadEnvPage e va = none) :
    (s.withData d).place e va = (s.place e va).map (mapData d) := by
  unfold place
  rw [loadPage_withData hnone, Option.bind_map, Option.map_bind]
  refine Option.bind_congr fun ⟨u, o⟩ _ => ?_
  cases o with
  | served =>
    dsimp only [Function.comp, mapData, Prod.map, id]
    rw [createElement_withData, Option.map_map, Option.map_map]
    rfl
  | exit => rfl
  | kernelFault => rfl

theorem replaceClock_withData (h : s.run.WalkInv all boot) (hhand : s.HandIn e) (hu : Unread d e va s) :
    (s.withData d).replaceClock e va = (s.replaceClock e va).map (mapData d) := by
  unfold replaceClock
  rw [show clockVictim e (((s.withData d).ws e).list.length + 1) (s.withData d) = _ from clockVictim_withData, Option.bind_map,
    Option.map_bind]
  refine Option.bind_congr fun ⟨t, wse⟩ ht => ?_
  obtain ⟨haged, hx, -⟩ := clockVictim_spec h hhand ht
  dsimp only [Function.comp, mapData, Prod.map, id]
  rw [replaceVictim_withData (haged.walk h) (hu.aged haged) (haged.list ▸ hx), Option.map_map, Option.map_map]
  refine congrArg (Option.map · _) (funext fun ⟨u, o⟩ => ?_)
  cases o <;> rfl

theorem replaceLru_withData (h : s.run.WalkInv all boot) (hu : Unread d e va s) :
    (s.withData d).replaceLru e va = (s.replaceLru e va).map (mapData d) := by
  unfold replaceLru
  rw [withData_ws]
  cases hvictim : (s.ws e).lruVictim with
  | none => rfl
  | some wse =>
    dsimp only
    rw [replaceVictim_withData h hu (WorkingSet.lruVictim_mem hvictim), Option.bind_map, Option.map_bind]
    refine Option.bind_congr fun r _ => ?_
    obtain ⟨u, o⟩ := r
    cases o with
    | served =>
      dsimp only [Function.comp, mapData, Prod.map, id]
      rw [Option.map_map]
      rfl
    | exit => rfl
    | kernelFault => rfl

theorem replaceModifiedClock_withData (h : s.run.WalkInv all boot) (hhand : s.HandIn e) (hu : Unread d e va s) :
    (s.withData d).replaceModifiedClock e va = (s.replaceModifiedClock e va).map (mapData d) := by
  unfold replaceModifiedClock
  rw [modifiedClockVictim_withData, Option.bind_map, Option.map_bind]
  refine Option.bind_congr fun ⟨t, wse⟩ ht => ?_
  obtain ⟨haged, hx⟩ := modifiedClockVictim_spec h hhand ht
  dsimp only [Function.comp, mapData, Prod.map, id]
  rw [replaceVictim_withData (haged.walk h) (hu.aged haged) (haged.list ▸ hx), Option.bind_map, Option.map_bind]
  refine Option.bind_congr fun ⟨u, o⟩ _ => ?_
  cases o with
  | served =>
    dsimp only [Function.comp, mapData, Prod.map, id]
    rw [Option.map_map]
    rfl
  | exit => rfl
  | kernelFault => rfl

/-- `page_fault_handler` -/
theorem pageFaultHandler_withData {algorithm : Algorithm} (h : s.run.WalkInv all boot) (hhand : s.HandIn e)
    (hu : Unread d e (roundDown va pageSize) s) :
    (s.withData d).pageFaultHandler algorithm e va = (s.pageFaultHandler algorithm e va).map (mapData d) := by
  unfold pageFaultHandler
  show (if (s.ws e).list.length < (s.ws e).maxSize then _ else _) = _
  split
  case isTrue => exact place_withData hu.absent
  case isFalse =>
    cases algorithm with
    | clock => exact replaceClock_withData h hhand hu
    | lruTimeApprox => exact replaceLru_withData h hu
    | modifiedClock => exact replaceModifiedClock_withData h hhand hu

end UserMem

end Fos.Mem

namespace Fos.Trap
open Lib Heap Disk Mem

namespace Kernel

variable {E : Type} [DecidableEq E] {all : List PageNo} {boot : PageNo → Nat} {s : Kernel E} {e : E} {va : Nat} {userTrap : Bool}
  {d : PageNo → Page}

def withData (s : Kernel E) (d : PageNo → Page) : Kernel E := s.setMem (s.mem.withData d)

def mapData {α : Type} (d : PageNo → Page) : Kernel E × α → Kernel E × α := Prod.map (·.withData d) id

theorem tableFaultHandler_withData : (s.withData d).tableFaultHandler e va = (s.tableFaultHandler e va).map (·.withData d) := by
  unfold tableFaultHandler
  split
  case isTrue =>
    rw [Option.map_map]
    rfl
  case isFalse =>
    rw [Option.map_bind]
    refine Option.bind_congr fun ⟨r, ptr⟩ _ => ?_
    dsimp only [Function.comp]
    split
    case isTrue => rfl
    case isFalse =>
      rw [Option.map_map]
      rfl

theorem pageFault_withData (h : s.mem.run.WalkInv all boot) (hhand : s.mem.HandIn e) (ht : s.mem.run.paging.pde e (pdx va) ≠ none)
    (hu : (s.mem.run.paging.page e va).present = false → UserMem.Unread d e (roundDown va pageSize) s.mem) :
    (s.withData d).pageFault e userTrap va = (s.pageFault e userTrap va).map (mapData d) := by
  unfold pageFault
  rw [Option.map_bind]
  refine Option.bind_congr fun perms hperms => ?_
  dsimp only [Function.comp]
  split
  case isTrue => rfl
  case isFalse =>
    split
    case isTrue => rfl
    case isFalse hpresent =>
      obtain rfl := Option.some.inj ((UserMem.permissions_of_table h ht).symm.trans hperms)
      have hunmapped : (s.mem.run.paging.page e va).present = false :=
        decide_eq_false (by rw [not_ne_iff.mp hpresent]; decide)
      have hhandler : (s.withData d).mem.pageFaultHandler (s.withData d).algorithm e va = _ :=
        UserMem.pageFaultHandler_withData h hhand (hu hunmapped)
      rw [hhandler, Option.map_map, Option.map_map]
      rfl

/-- The part of `fault_handler` behind the checks. -/
theorem handled_withData (h : s.mem.run.WalkInv all boot) (hhand : s.mem.HandIn e)
    (hu : (s.mem.run.paging.page e va).present = false → UserMem.Unread d e (roundDown va pageSize) s.mem) :
    (match (s.withData d).entry e (pdx va) with
      | none => ((s.withData d).tableFaultHandler e va).map (·, Outcome.served)
      | some table =>
        if va < userTop then (s.withData d).pageFault e userTrap va else (s.withData d).kernelPageFault e userTrap table) =
      (match s.entry e (pdx va) with
        | none => (s.tableFaultHandler e va).map (·, Outcome.served)
        | some table =>
          if va < userTop then s.pageFault e userTrap va else s.kernelPageFault e userTrap table).map (mapData d) := by
  show (match s.entry e (pdx va) with | none => _ | some table => _) = _
  cases hentry : s.entry e (pdx va) with
  | none =>
    dsimp only
    rw [tableFaultHandler_withData, Option.map_map, Option.map_map]
    rfl
  | some table =>
    dsimp only
    split
    case isTrue huser => exact pageFault_withData h hhand (fun hnone => nomatch ((entry_user huser).trans hnone).symm.trans hentry) hu
    case isFalse =>
      unfold kernelPageFault
      show (if table.val < s.mem.run.paging.heap.mem.numberOfFrames then _ else none) = _
      split <;> rfl

/-- `fault_handler` -/
theorem faultHandler_withData (h : s.mem.run.WalkInv all boot) (hhand : s.mem.HandIn e)
    (hu : (s.mem.run.paging.page e va).present = false → UserMem.Unread d e (roundDown va pageSize) s.mem) :
    (s.withData d).faultHandler e userTrap va = (s.faultHandler e userTrap va).map (mapData d) := by
  unfold faultHandler
  dsimp only
  show (if (if s.repeats e va then s.numRepeatedFault + 1 else 0) = 3 ∨ s.stackFault e userTrap va then none else _) = _
  rcases Classical.em ((if s.repeats e va then s.numRepeatedFault + 1 else 0) = 3 ∨ s.stackFault e userTrap va) with hstop | hgo
  · rw [if_pos hstop, if_pos hstop]
    rfl
  · rw [if_neg hgo, if_neg hgo]
    exact handled_withData (s := { s with
      lastFaultVa := va, lastFaultedEnv := some e
      numRepeatedFault := if s.repeats e va then s.numRepeatedFault + 1 else 0 }) h hhand hu

/-- A page fault with the clock tick before it. -/
theorem pageFaultTrap_withData (h : s.mem.run.WalkInv all boot) (hhand : s.mem.HandIn e)
    (hu : (s.mem.run.paging.page e va).present = false → UserMem.Unread d e (roundDown va pageSize) s.mem) :
    (s.withData d).pageFaultTrap e userTrap va = (s.pageFaultTrap e userTrap va).map (mapData d) := by
  unfold pageFaultTrap
  rw [Option.map_bind]
  show (if s.algorithm = .lruTimeApprox then ((s.mem.withData d).updateTimeStamps e).map (s.withData d).setMem
    else some (s.withData d)).bind _ = _
  split
  case isTrue =>
    rw [UserMem.updateTimeStamps_withData, Option.map_map, Option.bind_map, Option.bind_map]
    refine Option.bind_congr fun m hm => ?_
    obtain ⟨haged, -⟩ := UserMem.updateTimeStamps_spec h hm
    refine faultHandler_withData (s := s.setMem m) (haged.walk h) (hhand.updateTimeStamps h hm) fun hunmapped => ?_
    exact (hu ((haged.page e va).present.symm.trans hunmapped)).aged haged
  case isFalse => exact faultHandler_withData h hhand hu

end Kernel

end Fos.Trap
