import Mathlib.Data.List.MinMax
import Fos.Trap.UserRun

/-! Which element LRU by time stamps evicts. Time stamps are 32 bits wide in every run, and the search starts from the greatest
    of them, so that it finds the oldest element unless all elements have this one. -/

namespace Fos.Mem
open Lib Heap Disk Frames

namespace WorkingSet

variable {w w' : WorkingSet} {x y m : Nat} {v : Option Nat} {z : WorkingSetElement}

def timeStamp (w : WorkingSet) (wse : Nat) : Nat := (w.element wse).timeStamp

/-- The first of the elements with the least time stamp. -/
structure Oldest (w : WorkingSet) (x : Nat) : Prop where
  mem : x ∈ w.list
  least : ∀ y ∈ w.list, w.timeStamp x ≤ w.timeStamp y
  first : ∀ y ∈ w.list, w.timeStamp y ≤ w.timeStamp x → w.list.idxOf x ≤ w.list.idxOf y

theorem argmin_eq_some : w.list.argmin w.timeStamp = some x ↔ w.Oldest x := by
  rw [← Option.mem_def, List.mem_argmin_iff]
  exact ⟨fun ⟨hmem, hleast, hfirst⟩ => ⟨hmem, hleast, hfirst⟩, fun h => ⟨h.mem, h.least, h.first⟩⟩

/-- The search through `l` from the bound `m`: it ends with the first minimum of `l` when this is below `m`. -/
theorem foldl_lru (w : WorkingSet) (l : List Nat) :
    (l.foldl (fun (min, victim) wse =>
      if (w.element wse).timeStamp < min then ((w.element wse).timeStamp, some wse) else (min, victim)) (m, v)).2 =
      match l.argmin w.timeStamp with
      | none => v
      | some x => if w.timeStamp x < m then some x else v := by
  induction l generalizing m v with
  | nil => rfl
  | cons y l ih =>
    have hstep : ∀ r : Option Nat, l.argmin w.timeStamp = r → (y :: l).argmin w.timeStamp =
        match r with
        | none => some y
        | some c => if w.timeStamp c < w.timeStamp y then some c else some y := by
      intro r hr
      rw [List.argmin_cons, hr]
      cases r <;> rfl
    rw [List.foldl_cons]
    change (l.foldl _ (if w.timeStamp y < m then (w.timeStamp y, some y) else (m, v))).2 = _
    cases hl : l.argmin w.timeStamp with
    | none =>
      rw [hstep none hl, List.argmin_eq_none.mp hl]
      dsimp only
      split <;> rfl
    | some c =>
      rw [hstep _ hl]
      dsimp only
      rcases lt_or_ge (w.timeStamp y) m with hm | hm
      · rw [if_pos hm, ih, hl]
        dsimp only
        rcases lt_or_ge (w.timeStamp c) (w.timeStamp y) with hc | hc
        · rw [if_pos hc]
          dsimp only
          rw [if_pos (hc.trans hm)]
        · rw [if_neg (not_lt.mpr hc)]
          dsimp only
          rw [if_pos hm]
      · rw [if_neg (not_lt.mpr hm), ih, hl]
        dsimp only
        rcases lt_or_ge (w.timeStamp c) (w.timeStamp y) with hc | hc
        · rw [if_pos hc]
        · rw [if_neg (not_lt.mpr (hm.trans hc)), if_neg (not_lt.mpr hc)]
          dsimp only
          rw [if_neg (not_lt.mpr hm)]

/-- The time stamps of the elements are 32 bits wide. -/
def Stamped (w : WorkingSet) : Prop := ∀ x ∈ w.list, w.timeStamp x < 4294967296

/-- The victim is the oldest element, provided that some time stamp is not the greatest one. -/
theorem lruVictim_oldest (h : w.Stamped) :
    (∃ x, w.lruVictim = some x ∧ w.Oldest x) ↔ ∃ x ∈ w.list, w.timeStamp x ≠ 4294967295 := by
  have hvictim : w.lruVictim = match w.list.argmin w.timeStamp with
      | none => none
      | some x => if w.timeStamp x < 4294967295 then some x else none := foldl_lru w w.list
  constructor
  · rintro ⟨x, hx, hold⟩
    rw [hvictim, argmin_eq_some.mpr hold] at hx
    obtain ⟨hlt, -⟩ := Option.ite_none_right_eq_some.mp hx
    exact ⟨x, hold.mem, hlt.ne⟩
  · rintro ⟨y, hy, hne⟩
    obtain ⟨x, hx⟩ : ∃ x, w.list.argmin w.timeStamp = some x :=
      Option.ne_none_iff_exists'.mp (mt List.argmin_eq_none.mp (List.ne_nil_of_mem hy))
    have hold := argmin_eq_some.mp hx
    have hlt : w.timeStamp x < 4294967295 :=
      lt_of_le_of_lt (hold.least y hy) (lt_of_le_of_ne (Nat.le_of_lt_succ (h y hy)) hne)
    refine ⟨x, ?_, hold⟩
    rw [hvictim, hx]
    exact if_pos hlt

theorem Stamped.sub (h : w.Stamped) (helement : w'.element = w.element) (hlist : ∀ x ∈ w'.list, x ∈ w.list) : w'.Stamped := by
  intro x hx
  unfold timeStamp
  rw [helement]
  exact h x (hlist x hx)

theorem timeStamp_setElement : (w.setElement x z).timeStamp y = if y = x then z.timeStamp else w.timeStamp y := by
  unfold timeStamp setElement
  dsimp only
  rw [Function.update_apply]
  split <;> rfl

/-- An element is written; the list may get it. -/
theorem Stamped.setElement (h : w.Stamped) (hz : z.timeStamp < 4294967296) (helement : w'.element = (w.setElement x z).element)
    (hlist : ∀ y ∈ w'.list, y = x ∨ y ∈ w.list) : w'.Stamped := by
  intro y hy
  have htime : w'.timeStamp y = (w.setElement x z).timeStamp y := by
    unfold timeStamp
    rw [helement]
  rw [htime, timeStamp_setElement]
  split
  case isTrue => exact hz
  case isFalse hne => exact h y ((hlist y hy).resolve_left hne)

end WorkingSet

namespace UserMem

variable {E : Type} [DecidableEq E] {s t : UserMem E} {e : E} {va wse n start current : Nat} {o : Outcome}

/-! ### What leaves the working sets alone -/

theorem evictPage_ws (hs : s.evictPage e va = some t) : t.ws = s.ws := by
  obtain ⟨perms, -, hs⟩ := Option.bind_eq_some_iff.mp hs
  obtain ⟨u, hu, hs⟩ := Option.bind_eq_some_iff.mp hs
  obtain ⟨r, -, rfl⟩ := Option.map_eq_some_iff.mp hs
  change u.ws = s.ws
  split at hu
  case isTrue =>
    obtain ⟨disk, -, hclear⟩ := Option.bind_eq_some_iff.mp hu
    exact clearPermissions_ws (s := { s with disk := disk }) hclear
  case isFalse =>
    cases hu
    rfl

omit [DecidableEq E] in
theorem pfReadEnvPage_ws {found : Bool} (hs : s.pfReadEnvPage e va = some (t, found)) : t.ws = s.ws := by
  unfold pfReadEnvPage at hs
  split at hs
  · cases hs
    rfl
  · obtain ⟨-, hs⟩ := Option.ite_none_right_eq_some.mp hs
    obtain ⟨u, hclear, heq⟩ := Option.map_eq_some_iff.mp hs
    cases heq
    obtain ⟨r, -, rfl⟩ := Option.map_eq_some_iff.mp hclear
    rfl

theorem loadPage_ws (hs : s.loadPage e va = some (t, o)) : t.ws = s.ws := by
  obtain ⟨⟨r, f⟩, -, hs⟩ := Option.bind_eq_some_iff.mp hs
  obtain ⟨r', -, hs⟩ := Option.bind_eq_some_iff.mp hs
  obtain ⟨⟨u, found⟩, hread, heq⟩ := Option.map_eq_some_iff.mp hs
  cases heq
  exact (pfReadEnvPage_ws hread).trans rfl

/-! ### Time stamps -/

/-- The time stamps of all working sets are 32 bits wide. -/
def Stamped (s : UserMem E) : Prop := ∀ e, (s.ws e).Stamped

omit [DecidableEq E] in
theorem Stamped.of_ws (h : s.Stamped) (hws : t.ws = s.ws) : t.Stamped := by
  intro d
  rw [hws]
  exact h d

theorem Stamped.setWs {w : WorkingSet} (h : s.Stamped) (hw : w.Stamped) : (s.setWs e w).Stamped := by
  intro d
  rcases eq_or_ne d e with rfl | hne
  · rw [setWs_self]
    exact hw
  · rw [setWs_of_ne hne]
    exact h d

/-- A new element has the time stamp 0. -/
theorem Stamped.createElement (h : s.Stamped) (hs : s.createElement e va = some (t, wse)) :
    t.Stamped ∧ (t.ws e).timeStamp wse = 0 := by
  obtain ⟨-, hs⟩ := Option.ite_none_right_eq_some.mp hs
  obtain ⟨⟨r, x⟩, -, hs⟩ := Option.bind_eq_some_iff.mp hs
  obtain ⟨-, heq⟩ := Option.ite_none_left_eq_some.mp hs
  cases heq
  refine ⟨Stamped.setWs (s := s.setRun r) h ((h e).setElement (show 0 < 4294967296 by decide) rfl fun _ => .inr), ?_⟩
  rw [setWs_self, WorkingSet.timeStamp_setElement, if_pos rfl]

/-- A new element is put into the list. -/
theorem Stamped.insert {w : WorkingSet} (h : s.Stamped) (hnew : (s.ws e).timeStamp wse = 0) (helement : w.element = (s.ws e).element)
    (hlist : ∀ x ∈ w.list, x = wse ∨ x ∈ (s.ws e).list) : (s.setWs e w).Stamped := by
  refine h.setWs fun x hx => ?_
  unfold WorkingSet.timeStamp
  rw [helement]
  rcases hlist x hx with rfl | hx
  · exact lt_of_eq_of_lt hnew (by decide)
  · exact h e x hx

theorem Stamped.place (h : s.Stamped) (hs : s.place e va = some (t, o)) : t.Stamped := by
  obtain ⟨⟨u, o'⟩, hu, hs⟩ := Option.bind_eq_some_iff.mp hs
  have hstamped := h.of_ws (loadPage_ws hu)
  cases o' with
  | exit => cases hs; exact hstamped
  | kernelFault => cases hs; exact hstamped
  | served =>
    obtain ⟨⟨v, wse⟩, hv, heq⟩ := Option.map_eq_some_iff.mp hs
    obtain ⟨hstamped, hnew⟩ := hstamped.createElement hv
    have heq : (v.setWs e (placed (v.ws e) wse), Outcome.served) = (t, o) := heq
    cases heq
    obtain ⟨⟨l₁, l₂, hlist, hlist'⟩, -, helement, -⟩ := placed_spec (v.ws e) wse
    refine hstamped.insert hnew helement fun x hx => ?_
    rw [hlist', List.mem_append, List.mem_cons] at hx
    rw [hlist, List.mem_append]
    tauto

theorem Stamped.replaceVictim {tested : Bool} (h : s.Stamped) (hs : s.replaceVictim e wse va tested = some (t, o)) :
    t.Stamped := by
  obtain ⟨info, -, hs⟩ := Option.bind_eq_some_iff.mp hs
  obtain ⟨-, hs⟩ := Option.ite_none_left_eq_some.mp hs
  obtain ⟨u, hu, hs⟩ := Option.bind_eq_some_iff.mp hs
  obtain ⟨⟨v, o'⟩, hv, heq⟩ := Option.map_eq_some_iff.mp hs
  have hstamped := h.of_ws ((loadPage_ws hv).trans (evictPage_ws hu))
  cases o' with
  | exit => cases heq; exact hstamped
  | kernelFault => cases heq; exact hstamped
  | served =>
    cases heq
    refine hstamped.setWs fun x hx => ?_
    rw [WorkingSet.timeStamp_setElement]
    split
    case isTrue heq => exact heq ▸ hstamped e x hx
    case isFalse => exact hstamped e x hx

/-- CLOCK writes no time stamp. -/
theorem Stamped.clockVictim (h : s.Stamped) (hs : clockVictim e n s = some (t, wse)) : t.Stamped := by
  induction n generalizing s with
  | zero => exact nomatch hs
  | succ n ih =>
    unfold UserMem.clockVictim at hs
    split at hs
    · exact nomatch hs
    · obtain ⟨perms, -, hs⟩ := Option.bind_eq_some_iff.mp hs
      split at hs
      · cases hs
        exact h
      · obtain ⟨u, hu, hs⟩ := Option.bind_eq_some_iff.mp hs
        have hu := h.of_ws (clearPermissions_ws hu)
        exact ih (hu.setWs (w := { u.ws e with last := (u.ws e).nextCircular _ }) (hu e)) hs

omit [DecidableEq E] in
theorem modifiedClockPass_ws {isVictim : BitVec 12 → Bool} {clearUsed : Bool} {found : Option Nat}
    (hs : modifiedClockPass e start isVictim clearUsed n s current = some (t, found)) : t.ws = s.ws := by
  induction n generalizing s current with
  | zero => exact nomatch hs
  | succ n ih =>
    obtain ⟨perms, -, hs⟩ := Option.bind_eq_some_iff.mp hs
    split at hs
    · cases hs
      rfl
    · obtain ⟨u, hu, hs⟩ := Option.bind_eq_some_iff.mp hs
      have hu : u.ws = s.ws := by
        cases clearUsed with
        | true => exact clearPermissions_ws hu
        | false => cases hu; rfl
      obtain ⟨next, -, hs⟩ := Option.bind_eq_some_iff.mp hs
      split at hs
      · cases hs
        exact hu
      · exact (ih hs).trans hu

omit [DecidableEq E] in
theorem modifiedClockVictim_ws (hs : s.modifiedClockVictim e = some (t, wse)) : t.ws = s.ws := by
  obtain ⟨start, -, hs⟩ := Option.bind_eq_some_iff.mp hs
  obtain ⟨⟨s₁, o₁⟩, hs₁, hs⟩ := Option.bind_eq_some_iff.mp hs
  have hws₁ := modifiedClockPass_ws hs₁
  cases o₁ with
  | some x => cases hs; exact hws₁
  | none =>
    obtain ⟨⟨s₂, o₂⟩, hs₂, hs⟩ := Option.bind_eq_some_iff.mp hs
    have hws₂ := (modifiedClockPass_ws hs₂).trans hws₁
    cases o₂ with
    | some x => cases hs; exact hws₂
    | none =>
      obtain ⟨⟨s₃, o₃⟩, hs₃, heq⟩ := Option.map_eq_some_iff.mp hs
      cases heq
      exact (modifiedClockPass_ws hs₃).trans hws₂

theorem Stamped.replaceClock (h : s.Stamped) (hs : s.replaceClock e va = some (t, o)) : t.Stamped := by
  obtain ⟨⟨u, wse⟩, hu, hs⟩ := Option.bind_eq_some_iff.mp hs
  obtain ⟨⟨v, o'⟩, hv, heq⟩ := Option.map_eq_some_iff.mp hs
  have hstamped := (h.clockVictim hu).replaceVictim hv
  cases o' with
  | exit => cases heq; exact hstamped
  | kernelFault => cases heq; exact hstamped
  | served => cases heq; exact hstamped.setWs (hstamped e)

/-- The element of the new page gets the time stamp of one tick. -/
theorem Stamped.replaceLru (h : s.Stamped) (hs : s.replaceLru e va = some (t, o)) : t.Stamped := by
  unfold UserMem.replaceLru at hs
  split at hs
  · exact nomatch hs
  · obtain ⟨⟨v, o'⟩, hv, hs⟩ := Option.bind_eq_some_iff.mp hs
    have hstamped := h.replaceVictim hv
    cases o' with
    | exit => cases hs; exact hstamped
    | kernelFault => cases hs; exact hstamped
    | served =>
      obtain ⟨r, -, heq⟩ := Option.map_eq_some_iff.mp hs
      cases heq
      refine Stamped.setWs (s := v.setRun r) hstamped ((hstamped e).setElement (show 2147483648 < 4294967296 by omega) rfl fun x hx => ?_)
      rw [List.mem_append, List.mem_singleton] at hx
      exact hx.symm.imp_right List.mem_of_mem_erase

theorem Stamped.replaceModifiedClock (h : s.Stamped) (hs : s.replaceModifiedClock e va = some (t, o)) : t.Stamped := by
  obtain ⟨⟨u, wse⟩, hu, hs⟩ := Option.bind_eq_some_iff.mp hs
  obtain ⟨⟨v, o'⟩, hv, hs⟩ := Option.bind_eq_some_iff.mp hs
  have hstamped := (h.of_ws (modifiedClockVictim_ws hu)).replaceVictim hv
  cases o' with
  | exit => cases hs; exact hstamped
  | kernelFault => cases hs; exact hstamped
  | served =>
    obtain ⟨r, -, heq⟩ := Option.map_eq_some_iff.mp hs
    cases heq
    exact Stamped.setWs (s := v.setRun r) hstamped (hstamped e)

theorem Stamped.pageFaultHandler {algorithm : Algorithm} (h : s.Stamped)
    (hs : pageFaultHandler algorithm s e va = some (t, o)) : t.Stamped := by
  unfold UserMem.pageFaultHandler at hs
  split at hs
  · exact h.place hs
  · cases algorithm with
    | clock => exact h.replaceClock hs
    | lruTimeApprox => exact h.replaceLru hs
    | modifiedClock => exact h.replaceModifiedClock hs

/-- A tick: the time stamp is shifted, and gets its first bit from the `USED` bit. -/
theorem Stamped.updateTimeStamps (h : s.Stamped) (hs : s.updateTimeStamps e = some t) : t.Stamped := by
  refine exec_keeps hs (fun u x v hu hv => ?_) h
  obtain ⟨perms, -, hv⟩ := Option.bind_eq_some_iff.mp hv
  refine Stamped.of_ws (hu.setWs fun y hy => ?_) (clearPermissions_ws hv)
  rw [WorkingSet.timeStamp_setElement]
  split
  case isTrue heq =>
    subst heq
    have hshift : ((u.ws e).element y).timeStamp / 2 < 2 ^ 32 := lt_of_le_of_lt (Nat.div_le_self ..) (hu e y hy)
    dsimp only
    split
    · exact Nat.or_lt_two_pow hshift (by omega)
    · exact hshift
  case isFalse => exact hu e y hy

/-! ### The user heap and the loader -/

theorem Stamped.envPageWsInvalidate (h : s.Stamped) (hs : s.envPageWsInvalidate e va = some t) : t.Stamped := by
  unfold UserMem.envPageWsInvalidate at hs
  split at hs
  · cases hs
    exact h
  · obtain ⟨r, -, hs⟩ := Option.bind_eq_some_iff.mp hs
    obtain ⟨r', -, rfl⟩ := Option.map_eq_some_iff.mp hs
    exact Stamped.setWs (s := s.setRun r') h ((h e).sub rfl fun x => List.mem_of_mem_erase)

theorem Stamped.freeUserMem {size : Nat} (h : s.Stamped) (hs : s.freeUserMem e va size = some t) : t.Stamped := by
  refine exec_keeps hs (fun u va v hu hv => ?_) h
  obtain ⟨r, -, hv⟩ := Option.bind_eq_some_iff.mp hv
  obtain ⟨u', hu', hv⟩ := Option.bind_eq_some_iff.mp hv
  obtain ⟨r', -, rfl⟩ := Option.map_eq_some_iff.mp hv
  exact Stamped.of_ws (Stamped.envPageWsInvalidate (s := { u with run := r, disk := u.disk.pfRemoveEnvPage e va }) hu hu') rfl

/-- The loader puts a new element at the end. -/
theorem Stamped.insertLoaded (h : s.Stamped) (hs : s.createElement e va = some (t, wse)) :
    (t.setWs e ((t.ws e).insertLoaded wse)).Stamped := by
  obtain ⟨hstamped, hnew⟩ := h.createElement hs
  exact hstamped.insert hnew rfl fun x hx => (List.mem_append.mp hx).symm.imp_left List.mem_singleton.mp

theorem Stamped.mapSegmentPage (h : s.Stamped) (hs : mapSegmentPage e s va = some t) : t.Stamped := by
  obtain ⟨⟨r, f⟩, -, hs⟩ := Option.bind_eq_some_iff.mp hs
  obtain ⟨p, -, hs⟩ := Option.bind_eq_some_iff.mp hs
  obtain ⟨⟨u, wse⟩, hu, rfl⟩ := Option.map_eq_some_iff.mp hs
  exact Stamped.insertLoaded (s := s.setRun { r with paging := p, handed := r.handed.erase f }) h hu

theorem Stamped.loadSegments {progName : String} {segs : List Segment} {remaining : Nat} (h : s.Stamped)
    (hs : loadSegments e progName s remaining segs = some t) : t.Stamped := by
  induction segs generalizing s remaining with
  | nil =>
    cases hs
    exact h
  | cons seg segs ih =>
    obtain ⟨⟨u, allocated⟩, hu, hs⟩ := Option.bind_eq_some_iff.mp hs
    obtain ⟨v, hv, hs⟩ := Option.bind_eq_some_iff.mp hs
    obtain ⟨s₁, hs₁, hu⟩ := Option.bind_eq_some_iff.mp hu
    obtain ⟨s₂, hs₂, heq⟩ := Option.map_eq_some_iff.mp hu
    cases heq
    have h₁ := exec_keeps hs₁ (fun _ _ _ hx hy => Stamped.mapSegmentPage hx hy) h
    have h₂ : u.ws = s₁.ws := exec_ws (fun _ _ _ hs => writeUserPage_ws hs) hs₂
    obtain ⟨disk, rfl⟩ := writeSegment_eq hv
    exact ih (Stamped.of_ws (t := { u with disk := disk }) h₁ h₂) hs

theorem Stamped.mapStackPage (h : s.Stamped) (hs : s.mapStackPage e = some t) : t.Stamped := by
  obtain ⟨⟨r, f⟩, -, hs⟩ := Option.bind_eq_some_iff.mp hs
  obtain ⟨p, -, hs⟩ := Option.bind_eq_some_iff.mp hs
  obtain ⟨s₁, hs₁, hs⟩ := Option.bind_eq_some_iff.mp hs
  obtain ⟨⟨s₂, wse⟩, hs₂, hs⟩ := Option.bind_eq_some_iff.mp hs
  obtain ⟨⟨disk, o⟩, -, rfl⟩ := Option.map_eq_some_iff.mp hs
  have h₁ : s₁.ws = s.ws := writeUserPage_ws (s := s.setRun { r with paging := p, handed := r.handed.erase f }) hs₁
  exact Stamped.of_ws ((h.of_ws h₁).insertLoaded hs₂) rfl

theorem Stamped.envCreate {pageWsSize : Nat} {progName : String} {segs : List Segment} (h : s.Stamped)
    (hs : s.envCreate e pageWsSize progName segs = some t) : t.Stamped := by
  have h₀ : (s.initializeEnvironment e pageWsSize).Stamped :=
    Stamped.setWs (w := { s.ws e with list := [], maxSize := pageWsSize }) h nofun
  obtain ⟨s₁, hs₁, hs⟩ := Option.bind_eq_some_iff.mp hs
  obtain ⟨s₂, hs₂, hs⟩ := Option.bind_eq_some_iff.mp hs
  obtain ⟨s₃, hs₃, hs⟩ := Option.bind_eq_some_iff.mp hs
  obtain ⟨⟨r, p⟩, -, hs⟩ := Option.bind_eq_some_iff.mp hs
  obtain ⟨-, heq⟩ := Option.ite_none_left_eq_some.mp hs
  cases heq
  have h₂ : s₂.ws = s₁.ws := exec_ws (fun _ _ _ hs => clearPermissions_ws hs) hs₂
  exact Stamped.of_ws (((h₀.loadSegments hs₁).of_ws h₂).mapStackPage hs₃) rfl

end UserMem

end Fos.Mem

namespace Fos.Trap
open Lib Heap Disk Mem

namespace Kernel

variable {E : Type} [DecidableEq E] {s t : Kernel E} {e : E} {va : Nat} {userTrap : Bool} {o : Outcome}

theorem tableFaultHandler_ws (hs : s.tableFaultHandler e va = some t) : t.mem.ws = s.mem.ws := by
  unfold tableFaultHandler at hs
  split at hs
  · obtain ⟨⟨p, x⟩, -, rfl⟩ := Option.map_eq_some_iff.mp hs
    rfl
  · obtain ⟨⟨r, ptr⟩, -, hs⟩ := Option.bind_eq_some_iff.mp hs
    obtain ⟨-, hs⟩ := Option.ite_none_left_eq_some.mp hs
    obtain ⟨x, -, rfl⟩ := Option.map_eq_some_iff.mp hs
    rfl

theorem stamped_pageFaultTrap (h : s.mem.Stamped) (hs : s.pageFaultTrap e userTrap va = some (t, o)) : t.mem.Stamped := by
  obtain ⟨u, hu, hs⟩ := Option.bind_eq_some_iff.mp hs
  have hu : u.mem.Stamped := by
    split at hu
    · obtain ⟨m, hm, rfl⟩ := Option.map_eq_some_iff.mp hu
      exact h.updateTimeStamps hm
    · cases hu
      exact h
  rcases faultHandler_cases hs with ⟨⟨-, v, hv, htable⟩, -⟩ | ⟨heq, -⟩ | hserved
  · exact hu.of_ws ((tableFaultHandler_ws htable).trans (congrArg UserMem.ws hv))
  · rw [heq]
    exact hu
  · exact hu.pageFaultHandler hserved.handler

end Kernel

namespace KernelRun

variable {E : Type} [DecidableEq E] {s₀ s t : KernelRun E} {ev : UserEvent E} {e : E} {n k : Nat}

/-- Every step keeps the time stamps 32 bits wide. -/
theorem stamped_userStep (h : s.mem.Stamped) (hs : s.userStep ev = some t) : t.mem.Stamped := by
  cases ev with
  | read e va =>
    obtain ⟨⟨m, b⟩, hm, rfl⟩ := Option.map_eq_some_iff.mp hs
    obtain ⟨r, -, heq⟩ := Option.map_eq_some_iff.mp hm
    cases heq
    exact h
  | write e va b =>
    obtain ⟨m, hm, rfl⟩ := Option.map_eq_some_iff.mp hs
    obtain ⟨r, -, rfl⟩ := Option.map_eq_some_iff.mp hm
    exact h
  | kernel ev =>
    cases ev with
    | memory ev =>
      obtain ⟨r, -, rfl⟩ := Option.map_eq_some_iff.mp hs
      exact h
    | envCreate e pageWsSize progName segs =>
      obtain ⟨m, hm, rfl⟩ := Option.map_eq_some_iff.mp hs
      exact h.envCreate hm
    | allocateUserMem e va size =>
      obtain ⟨m, hm, rfl⟩ := Option.map_eq_some_iff.mp hs
      obtain ⟨p, -, rfl⟩ := Option.map_eq_some_iff.mp hm
      exact h
    | freeUserMem e va size =>
      obtain ⟨m, hm, rfl⟩ := Option.map_eq_some_iff.mp hs
      exact h.freeUserMem hm
    | envPageWsInvalidate e va =>
      obtain ⟨m, hm, rfl⟩ := Option.map_eq_some_iff.mp hs
      exact h.envPageWsInvalidate hm
    | updateTimeStamps e =>
      obtain ⟨m, hm, rfl⟩ := Option.map_eq_some_iff.mp hs
      exact h.updateTimeStamps hm
    | fault e userTrap va =>
      obtain ⟨⟨u, o⟩, hu, hs⟩ := Option.bind_eq_some_iff.mp hs
      have hstamped := Kernel.stamped_pageFaultTrap h hu
      cases o with
      | served => cases hs; exact hstamped
      | exit => cases hs; exact hstamped
      | kernelFault => exact nomatch hs

/-- In every state of a run, the search of LRU ends with the first element that has the least time stamp if and only if some
    time stamp is not the greatest one. A fault searches after the tick that belongs to it, which is a step of a run too. -/
theorem lru_victim_oldest (hboot : Booted n k s₀) (hr : Reach userStep (fun _ _ => True) s₀ s) :
    (∃ x, (s.mem.ws e).lruVictim = some x ∧ (s.mem.ws e).Oldest x) ↔
      ∃ x ∈ (s.mem.ws e).list, (s.mem.ws e).timeStamp x ≠ 4294967295 := by
  have hempty : s₀.mem.Stamped := fun d x hx => by
    rw [hboot.list d] at hx
    exact nomatch hx
  exact WorkingSet.lruVictim_oldest
    (hr.invariant (I := fun s => s.mem.Stamped) hempty (fun _ _ _ h _ hs => stamped_userStep h hs) e)

/-- The page of the stack is used in two quanta and the page of the heap only in the first one. -/
theorem lru_victim_oldest_second : ∃ s₀ s : KernelRun Unit, Booted 1024 768 s₀ ∧ s₀.kernel.algorithm = .lruTimeApprox ∧
    exec userStep s₀ [.kernel (.envCreate () 2 "prog" []), .kernel (.allocateUserMem () 2147483648 4096),
      .kernel (.fault () true 2147483648), .read () 2147483648, .kernel (.updateTimeStamps ()), .read () UserMem.stackVa,
      .kernel (.updateTimeStamps ())] = some s ∧
    (s.mem.ws ()).list.map (s.mem.ws ()).timeStamp = [2684354560, 1073741824] ∧
      ∃ x, (s.mem.ws ()).lruVictim = some x ∧ (s.mem.ws ()).Oldest x := by
  have hrun : ((PagingRun.afterBoot Unit 1024 768).bind fun r₀ =>
      (exec userStep { kernel := { (start r₀ {}).kernel with algorithm := .lruTimeApprox } }
        [.kernel (.envCreate () 2 "prog" []), .kernel (.allocateUserMem () 2147483648 4096), .kernel (.fault () true 2147483648),
          .read () 2147483648, .kernel (.updateTimeStamps ()), .read () UserMem.stackVa, .kernel (.updateTimeStamps ())]).map
        fun s => (s.mem.ws ()).list.map (s.mem.ws ()).timeStamp) = some [2684354560, 1073741824] := by
    rw [PagingRun.afterBoot_eq]
    decide +kernel
  obtain ⟨r₀, hboot, hrun⟩ := Option.bind_eq_some_iff.mp hrun
  obtain ⟨s, hs, hstamps⟩ := Option.map_eq_some_iff.mp hrun
  have hbooted : Booted 1024 768 ({ kernel := { (start r₀ {}).kernel with algorithm := .lruTimeApprox } } : KernelRun Unit) :=
    ⟨hboot, fun _ => rfl, fun _ => rfl, fun _ => rfl⟩
  have hmem : 1073741824 ∈ (s.mem.ws ()).list.map (s.mem.ws ()).timeStamp := hstamps ▸ List.mem_cons_of_mem _ List.mem_cons_self
  obtain ⟨x, hx, hstamp⟩ := List.mem_map.mp hmem
  exact ⟨_, s, hbooted, rfl, hs, hstamps, (lru_victim_oldest hbooted (.of_exec_any hs)).mpr ⟨x, hx, by rw [hstamp]; decide⟩⟩

/-- An environment that runs reads its pages and is interrupted by the clock. -/
theorem reach_ticks {es : List (UserEvent E)} (hr : Reach userStep UserAccepted s₀ s) (hrunning : s.running e)
    (hes : ∀ ev ∈ es, (∃ va < userTop, ev = .read e va) ∨ ev = .kernel (.updateTimeStamps e))
    (he : exec userStep s es = some t) : Reach userStep UserAccepted s₀ t ∧ t.running e := by
  induction es generalizing s with
  | nil =>
    cases he
    exact ⟨hr, hrunning⟩
  | cons ev es ih =>
    obtain ⟨u, hu, he⟩ := exec_cons.mp he
    have hstep : s.UserAccepted ev ∧ u.running = s.running := by
      rcases hes ev (List.mem_cons_self ..) with ⟨va, hva, rfl⟩ | rfl
      · obtain ⟨⟨m, b⟩, -, rfl⟩ := Option.map_eq_some_iff.mp hu
        exact ⟨⟨hrunning, hva⟩, rfl⟩
      · obtain ⟨m, -, rfl⟩ := Option.map_eq_some_iff.mp hu
        exact ⟨⟨trivial, trivial, trivial⟩, rfl⟩
    exact ih (hr.step ev hstep.1 hu) (by rw [hstep.2]; exact hrunning) (fun ev hev => hes ev (List.mem_cons_of_mem _ hev)) he

/-- The only page of an environment is read in each of 32 quanta: no victim is found at the next fault, which panics. -/
theorem lru_victim_missing : ∃ s₀ s : KernelRun Unit, ∃ m, Booted 1024 768 s₀ ∧ s₀.kernel.algorithm = .lruTimeApprox ∧
    Reach userStep UserAccepted s₀ s ∧ s.running () ∧ (s.mem.ws ()).list.length = 1 ∧ (s.mem.ws ()).maxSize = 1 ∧
      s.mem.updateTimeStamps () = some m ∧ (m.ws ()).lruVictim = none ∧ s.step (.fault () true 2147483648) = none := by
  have hrun : ((PagingRun.afterBoot Unit 1024 768).bind fun r₀ =>
      (userStep { kernel := { (start r₀ {}).kernel with algorithm := .lruTimeApprox } }
        (.kernel (.envCreate () 1 "prog" []))).bind fun s₁ =>
      (userStep s₁ (.kernel (.allocateUserMem () 2147483648 4096))).bind fun s₂ =>
      (exec userStep s₂ ((List.replicate 32 [.read () UserMem.stackVa, .kernel (.updateTimeStamps ())]).flatten ++
        [.read () UserMem.stackVa])).bind fun s =>
      (s.mem.updateTimeStamps ()).map fun m => ((s₁.mem.run.paging.page () 2147483648).present, s₂.running (),
        (s.mem.ws ()).list.length, (s.mem.ws ()).maxSize, (m.ws ()).lruVictim.isNone,
        (s.step (.fault () true 2147483648)).isNone)) = some (false, true, 1, 1, true, true) := by
    rw [PagingRun.afterBoot_eq]
    decide +kernel
  obtain ⟨r₀, hboot, hrun⟩ := Option.bind_eq_some_iff.mp hrun
  obtain ⟨s₁, hs₁, hrun⟩ := Option.bind_eq_some_iff.mp hrun
  obtain ⟨s₂, hs₂, hrun⟩ := Option.bind_eq_some_iff.mp hrun
  obtain ⟨s, hs, hrun⟩ := Option.bind_eq_some_iff.mp hrun
  obtain ⟨m, hm, hres⟩ := Option.map_eq_some_iff.mp hrun
  simp only [Prod.mk.injEq] at hres
  obtain ⟨hunmapped, hrunning, hlength, hmax, hvictim, hpanic⟩ := hres
  have hbooted : Booted 1024 768 ({ kernel := { (start r₀ {}).kernel with algorithm := .lruTimeApprox } } : KernelRun Unit) :=
    ⟨hboot, fun _ => rfl, fun _ => rfl, fun _ => rfl⟩
  have hcreate : KernelRun.Allowed _ (.envCreate () 1 "prog" []) :=
    hbooted.allowed_envCreate (by decide) (by decide) (by decide) (by decide) (by decide) ⟨nofun, .nil⟩
  have hnone : ∀ p ∈ pagesOf 2147483648 4096, (s₁.mem.run.paging.page () p).present = false := by
    intro p hp
    obtain rfl : p = 2147483648 := List.mem_singleton.mp hp
    exact hunmapped
  have hr₂ : Reach userStep UserAccepted _ s₂ :=
    .step (.kernel (.allocateUserMem () 2147483648 4096))
      (.step (.kernel (.envCreate () 1 "prog" [])) .init ⟨hcreate, trivial, trivial⟩ hs₁)
      ⟨⟨by decide, fun p hp hpresent => (nomatch (hnone p hp).symm.trans hpresent)⟩, hnone, trivial⟩ hs₂
  have hes : ∀ ev ∈ (List.replicate 32 [UserEvent.read () UserMem.stackVa, .kernel (.updateTimeStamps ())]).flatten ++
      [.read () UserMem.stackVa], (∃ va < userTop, ev = .read () va) ∨ ev = .kernel (.updateTimeStamps ()) := by
    intro ev hev
    rw [List.mem_append, List.mem_flatten, List.mem_singleton] at hev
    rcases hev with ⟨l, hl, hev⟩ | rfl
    · rw [List.eq_of_mem_replicate hl] at hev
      rcases List.mem_pair.mp hev with rfl | rfl
      · exact .inl ⟨_, by decide, rfl⟩
      · exact .inr rfl
    · exact .inl ⟨_, by decide, rfl⟩
  obtain ⟨hr, hrunning⟩ := reach_ticks hr₂ hrunning hes hs
  exact ⟨_, s, m, hbooted, rfl, hr, hrunning, hlength, hmax, hm, Option.isNone_iff_eq_none.mp hvictim,
    Option.isNone_iff_eq_none.mp hpanic⟩

end KernelRun

end Fos.Trap
