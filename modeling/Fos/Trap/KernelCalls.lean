import Fos.Mem.Calls
import Fos.Trap.RunInv

/-! Every step of the kernel is a sequence of calls into the memory manager. -/

namespace Fos.Mem
open Lib Heap Disk Frames

namespace UserMem

variable {E : Type} [DecidableEq E] {all : List PageNo} {boot : PageNo → Nat} {s s₀ t u : UserMem E} {d e : E} {va size n wse : Nat}
  {o : Outcome} {algorithm : Algorithm}

/-- The memory of `t` is made from the one of `s` by calls. -/
def Made (all : List PageNo) (boot : PageNo → Nat) (s t : UserMem E) : Prop := PagingRun.Calls all boot s.run t.run

theorem Made.refl (s : UserMem E) : Made all boot s s := PagingRun.Calls.refl s.run

theorem Made.of_run (h : t.run = s.run) : Made all boot s t := by
  unfold Made
  rw [h]
  exact PagingRun.Calls.refl _

theorem Made.trans (h : Made all boot s t) (h' : Made all boot t u) : Made all boot s u := PagingRun.Calls.trans h h'

/-- A loop whose rounds are made of calls; `I` is what holds before the rounds that are still to come. -/
theorem exec_made {α : Type} {step : UserMem E → α → Option (UserMem E)} {I : UserMem E → List α → Prop} {l : List α}
    (hstep : ∀ s x l t, I s (x :: l) → step s x = some t → Made all boot s t ∧ I t l) (h : I s l) (hs : exec step s l = some t) :
    Made all boot s t := by
  induction l generalizing s with
  | nil =>
    cases hs
    exact .refl _
  | cons x l ih =>
    obtain ⟨s₁, hs₁, hs⟩ := exec_cons.mp hs
    obtain ⟨hmade, h₁⟩ := hstep s x l s₁ h hs₁
    exact hmade.trans (ih h₁ hs)

/-! ### Pages that are loaded and evicted -/

theorem clearPermissions_made {permissionsToClear : BitVec 12} (h : s.run.WalkInv all boot)
    (hs : s.clearPermissions e va permissionsToClear = some t) : Made all boot s t := by
  obtain ⟨r, hr, rfl⟩ := Option.map_eq_some_iff.mp hs
  exact .single h (.ptSetPagePermissions hr)

theorem createElement_made (h : s.run.WalkInv all boot) (hs : s.createElement e va = some (t, wse)) : Made all boot s t := by
  obtain ⟨-, hs⟩ := Option.ite_none_right_eq_some.mp hs
  obtain ⟨⟨r, x⟩, hr, hs⟩ := Option.bind_eq_some_iff.mp hs
  obtain ⟨-, heq⟩ := Option.ite_none_left_eq_some.mp hs
  cases heq
  exact .single h (.kmalloc (by decide) hr)

/-- The frame that `allocate_frame` returns is mapped. -/
theorem mapAllocated_walk {r r' : PagingRun E} {f : PageNo} {perm : BitVec 12} (h : s.run.WalkInv all boot) (hva : va < userTop)
    (hperm : perm &&& permBuffered = 0) (hr : s.run.allocateFrame = some (r, f)) (hr' : r.mapFrame e f va perm = some r') :
    r.WalkInv all boot ∧ r'.WalkInv all boot := by
  obtain ⟨h₁, -, hhanded, hfree, hhold⟩ := h.allocateFrame hr
  have hnone : holders r.hold f = ∅ := holders_eq_empty.mpr hfree
  have hroom : (holders r.hold f).ncard < 65535 := by
    rw [hnone, Set.ncard_empty]
    decide
  exact ⟨h₁, (h₁.mapFrame hva (.inl (hhanded ▸ List.mem_cons_self ..)) (fun p => hfree (.kernel p)) hroom hperm hr').1⟩

theorem loadPage_made (h : s.run.WalkInv all boot) (hva : va < userTop) (hs : s.loadPage e va = some (t, o)) :
    Made all boot s t := by
  obtain ⟨⟨r₁, f⟩, hr₁, hs⟩ := Option.bind_eq_some_iff.mp hs
  obtain ⟨r₂, hr₂, hs⟩ := Option.bind_eq_some_iff.mp hs
  obtain ⟨⟨s₁, found⟩, hread, heq⟩ := Option.map_eq_some_iff.mp hs
  cases heq
  obtain ⟨h₁, h₂⟩ := mapAllocated_walk h hva (by decide) hr₁ hr₂
  have hmapped : Made all boot s (s.setRun r₂) := .tail (.single h (.allocateFrame hr₁)) h₁ (.mapFrame hva hr₂)
  unfold pfReadEnvPage at hread
  split at hread
  · cases hread
    exact hmapped
  · obtain ⟨-, hread⟩ := Option.ite_none_right_eq_some.mp hread
    obtain ⟨s₂, hclear, heq⟩ := Option.map_eq_some_iff.mp hread
    cases heq
    obtain ⟨r₃, hr₃, rfl⟩ := Option.map_eq_some_iff.mp hclear
    exact hmapped.trans (.single h₂ (.ptSetPagePermissions hr₃))

theorem evictPage_made (h : s.run.WalkInv all boot) (hs : s.evictPage e va = some t) : Made all boot s t := by
  obtain ⟨perms, -, hs⟩ := Option.bind_eq_some_iff.mp hs
  obtain ⟨s₁, hs₁, hs⟩ := Option.bind_eq_some_iff.mp hs
  obtain ⟨r, hr, rfl⟩ := Option.map_eq_some_iff.mp hs
  split at hs₁
  case isTrue =>
    obtain ⟨disk, -, hclear⟩ := Option.bind_eq_some_iff.mp hs₁
    have hcleared := clearPermissions_made (s := { s with disk := disk }) h hclear
    obtain ⟨h₁, -⟩ := clearModified_spec (s := { s with disk := disk }) h hclear
    exact hcleared.trans (.single h₁ (.unmapFrame hr))
  case isFalse =>
    cases hs₁
    exact .single h (.unmapFrame hr)

theorem replaceVictim_made {tested : Bool} (h : s.run.WalkInv all boot) (hva : va < userTop)
    (hs : s.replaceVictim e wse va tested = some (t, o)) : Made all boot s t := by
  obtain ⟨info, -, hs⟩ := Option.bind_eq_some_iff.mp hs
  obtain ⟨-, hs⟩ := Option.ite_none_left_eq_some.mp hs
  obtain ⟨s₂, hs₂, hs⟩ := Option.bind_eq_some_iff.mp hs
  obtain ⟨⟨s₃, o'⟩, hs₃, heq⟩ := Option.map_eq_some_iff.mp hs
  obtain ⟨h₂, -⟩ := evictPage_spec h hs₂
  have hmade : Made all boot s s₃ := (evictPage_made h hs₂).trans (loadPage_made h₂ hva hs₃)
  cases o' with
  | served =>
    cases heq
    exact hmade
  | exit =>
    cases heq
    exact hmade
  | kernelFault =>
    cases heq
    exact hmade

/-! ### Faults -/

theorem place_made (h : s.run.WalkInv all boot) (hva : va < userTop) (hunmapped : (s.run.paging.page e va).present = false)
    (hs : s.place e va = some (t, o)) : Made all boot s t := by
  obtain ⟨⟨u, o'⟩, hu, hs⟩ := Option.bind_eq_some_iff.mp hs
  have hloaded := loadPage_made h hva hu
  obtain ⟨hwalk, -⟩ := loadPage_spec h hva hunmapped hu
  cases o' with
  | served =>
    obtain ⟨⟨v, wse⟩, hv, heq⟩ := Option.map_eq_some_iff.mp hs
    cases heq
    have hcreated : Made all boot u v := createElement_made hwalk hv
    exact hloaded.trans hcreated
  | exit =>
    cases hs
    exact hloaded
  | kernelFault =>
    cases hs
    exact hloaded

theorem clockVictim_made (h : s.run.WalkInv all boot) (hs : clockVictim e n s = some (t, wse)) : Made all boot s t := by
  induction n generalizing s with
  | zero => exact nomatch hs
  | succ n ih =>
    unfold clockVictim at hs
    split at hs
    · exact nomatch hs
    · obtain ⟨perms, -, hs⟩ := Option.bind_eq_some_iff.mp hs
      split at hs
      · cases hs
        exact .refl _
      · obtain ⟨s₁, hs₁, hs⟩ := Option.bind_eq_some_iff.mp hs
        have h₁ : s₁.run.WalkInv all boot := (aged_clearUsed h hs₁).walk h
        exact (clearPermissions_made h hs₁).trans (ih (s := s₁.setWs e _) h₁ hs)

theorem modifiedClockPass_made {start current : Nat} {isVictim : BitVec 12 → Bool} {clearUsed : Bool} {r : Option Nat}
    (h : s.run.WalkInv all boot) (hs : modifiedClockPass e start isVictim clearUsed n s current = some (t, r)) :
    Made all boot s t ∧ t.run.WalkInv all boot := by
  induction n generalizing s current with
  | zero => exact nomatch hs
  | succ n ih =>
    obtain ⟨perms, -, hs⟩ := Option.bind_eq_some_iff.mp hs
    split at hs
    · cases hs
      exact ⟨.refl _, h⟩
    · obtain ⟨s₁, hs₁, hs⟩ := Option.bind_eq_some_iff.mp hs
      have hmade₁ : Made all boot s s₁ ∧ s₁.run.WalkInv all boot := by
        cases clearUsed with
        | true => exact ⟨clearPermissions_made h hs₁, (aged_clearUsed h hs₁).walk h⟩
        | false =>
          cases hs₁
          exact ⟨.refl _, h⟩
      obtain ⟨next, -, hs⟩ := Option.bind_eq_some_iff.mp hs
      split at hs
      · cases hs
        exact hmade₁
      · obtain ⟨hmade, hwalk⟩ := ih hmade₁.2 hs
        exact ⟨hmade₁.1.trans hmade, hwalk⟩

theorem modifiedClockVictim_made (h : s.run.WalkInv all boot) (hs : s.modifiedClockVictim e = some (t, wse)) :
    Made all boot s t ∧ t.run.WalkInv all boot := by
  obtain ⟨start, -, hs⟩ := Option.bind_eq_some_iff.mp hs
  obtain ⟨⟨s₁, o₁⟩, hs₁, hs⟩ := Option.bind_eq_some_iff.mp hs
  obtain ⟨hmade₁, h₁⟩ := modifiedClockPass_made h hs₁
  cases o₁ with
  | some x =>
    cases hs
    exact ⟨hmade₁, h₁⟩
  | none =>
    obtain ⟨⟨s₂, o₂⟩, hs₂, hs⟩ := Option.bind_eq_some_iff.mp hs
    obtain ⟨hmade₂, h₂⟩ := modifiedClockPass_made h₁ hs₂
    cases o₂ with
    | some x =>
      cases hs
      exact ⟨hmade₁.trans hmade₂, h₂⟩
    | none =>
      obtain ⟨⟨s₃, o₃⟩, hs₃, heq⟩ := Option.map_eq_some_iff.mp hs
      cases heq
      obtain ⟨hmade₃, h₃⟩ := modifiedClockPass_made h₂ hs₃
      exact ⟨(hmade₁.trans hmade₂).trans hmade₃, h₃⟩

theorem replaceClock_made (h : s.run.WalkInv all boot) (hhand : HandIn s e) (hva : va < userTop)
    (hs : s.replaceClock e va = some (t, o)) : Made all boot s t := by
  obtain ⟨⟨s₁, wse⟩, hs₁, hs⟩ := Option.bind_eq_some_iff.mp hs
  obtain ⟨haged, -⟩ := clockVictim_spec h hhand hs₁
  obtain ⟨⟨v, o'⟩, hv, heq⟩ := Option.map_eq_some_iff.mp hs
  have hmade := (clockVictim_made h hs₁).trans (replaceVictim_made (haged.walk h) hva hv)
  cases o' with
  | served =>
    cases heq
    exact hmade
  | exit =>
    cases heq
    exact hmade
  | kernelFault =>
    cases heq
    exact hmade

/-- Replacement that sets the `USED` bit of the page at the end. -/
theorem replaced_made {tested : Bool} {w : UserMem E → WorkingSet} (h : s.run.WalkInv all boot) (hva : va < userTop)
    (hunmapped : (s.run.paging.page e va).present = false)
    (hs : ((s.replaceVictim e wse va tested).bind fun
      | (s, .served) => (s.run.ptSetPagePermissions e va permUsed 0).map fun r => ((s.setRun r).setWs e (w s), .served)
      | r => some r) = some (t, o)) : Made all boot s t := by
  obtain ⟨⟨v, o'⟩, hv, hs⟩ := Option.bind_eq_some_iff.mp hs
  obtain ⟨s₂, s₃, f, -, -, -, h₃, hcases⟩ := replaceVictim_spec h hva hunmapped hv
  have hmade := replaceVictim_made h hva hv
  rcases hcases with ⟨rfl, rfl⟩ | ⟨rfl, rfl⟩
  · cases hs
    exact hmade
  · obtain ⟨r, hr, heq⟩ := Option.map_eq_some_iff.mp hs
    cases heq
    exact hmade.trans (.single h₃ (.ptSetPagePermissions hr))

theorem pageFaultHandler_made (h : s.run.WalkInv all boot) (hhand : HandIn s e) (hva : va < userTop)
    (hunmapped : (s.run.paging.page e (roundDown va pageSize)).present = false)
    (hs : pageFaultHandler algorithm s e va = some (t, o)) : Made all boot s t := by
  have hround : roundDown va pageSize < userTop := lt_of_le_of_lt (Nat.sub_le ..) hva
  unfold pageFaultHandler at hs
  split at hs
  case isTrue => exact place_made h hround hunmapped hs
  case isFalse =>
    cases algorithm with
    | clock => exact replaceClock_made h hhand hround hs
    | lruTimeApprox =>
      unfold replaceLru at hs
      dsimp only at hs
      split at hs
      · exact nomatch hs
      · exact replaced_made h hround hunmapped hs
    | modifiedClock =>
      obtain ⟨⟨s₁, wse⟩, hs₁, hs⟩ := Option.bind_eq_some_iff.mp hs
      obtain ⟨haged, -⟩ := modifiedClockVictim_spec h hhand hs₁
      obtain ⟨hmade, h₁⟩ := modifiedClockVictim_made h hs₁
      exact hmade.trans (replaced_made h₁ hround ((haged.page e _).present.trans hunmapped) hs)

theorem updateTimeStamps_made (h : s.run.WalkInv all boot) (hs : s.updateTimeStamps e = some t) : Made all boot s t := by
  refine exec_made (I := fun s _ => s.run.WalkInv all boot) (fun s x _ t h hs => ?_) h hs
  obtain ⟨perms, -, hs⟩ := Option.bind_eq_some_iff.mp hs
  exact ⟨clearPermissions_made (s := s.setWs e _) h hs, (aged_clearUsed (s := s.setWs e _) h hs).walk h⟩

/-! ### Regions -/

/-- `env_page_ws_invalidate` -/
theorem envPageWsInvalidate_made (h : MemInv all boot s) (hs : s.envPageWsInvalidate e va = some t) : Made all boot s t := by
  unfold envPageWsInvalidate at hs
  split at hs
  · cases hs
    exact .refl _
  · obtain ⟨r₁, hr₁, hs⟩ := Option.bind_eq_some_iff.mp hs
    obtain ⟨r₂, hr₂, rfl⟩ := Option.map_eq_some_iff.mp hs
    obtain ⟨hmem, -⟩ := WorkingSet.find_spec (by assumption)
    obtain ⟨h₁, -, -, hlive₁⟩ := h.walk.unmapFrame hr₁
    exact .tail (.single h.walk (.unmapFrame hr₁)) h₁ (.kfree (hlive₁ ▸ h.live e _ hmem) hr₂)

theorem freeUserMem_made (h : MemInv all boot s) (hs : s.freeUserMem e va size = some t) : Made all boot s t := by
  refine exec_made (I := fun s _ => MemInv all boot s) (fun s p _ t h hs => ⟨?_, (freePage_spec h hs).1⟩) h hs
  obtain ⟨r₁, hr₁, hs⟩ := Option.bind_eq_some_iff.mp hs
  obtain ⟨s₂, hs₂, hs⟩ := Option.bind_eq_some_iff.mp hs
  obtain ⟨r₃, hr₃, rfl⟩ := Option.map_eq_some_iff.mp hs
  obtain ⟨hwalk₁, -, -, -, hlive₁⟩ := unmark_spec h.walk hr₁
  have h₁ : MemInv all boot { s with run := r₁, disk := s.disk.pfRemoveEnvPage e p } :=
    h.keep hwalk₁ (fun _ => .refl _) fun d x hx => by rw [hlive₁]; exact h.live d x hx
  obtain ⟨h₂, -⟩ := invalidate_page h₁ hs₂
  have hunmarked : Made all boot s { s with run := r₁, disk := s.disk.pfRemoveEnvPage e p } :=
    .single h.walk (.ptSetPagePermissions hr₁)
  exact (hunmarked.trans (envPageWsInvalidate_made h₁ hs₂)).trans (.single h₂.walk (.unmapFrame hr₃))

/-- `allocate_user_mem` of a region that is not mapped -/
theorem allocateUserMem_made (h : s.run.WalkInv all boot) (hrange : ∀ p ∈ pagesOf va size, p < userTop)
    (hunmapped : ∀ p ∈ pagesOf va size, (s.run.paging.page e p).present = false) (hs : s.allocateUserMem e va size = some t) :
    Made all boot s t := by
  obtain ⟨p, hp, rfl⟩ := Option.map_eq_some_iff.mp hs
  have hmarks : ∀ (l : List Nat) (r : PagingRun E), r.WalkInv all boot → (∀ q ∈ l, q < userTop) →
      (∀ q ∈ l, (r.paging.page e q).present = false) → ∀ p, exec (Paging.markPage e) r.paging l = some p →
        PagingRun.Calls all boot r { r with paging := p } := by
    intro l
    induction l with
    | nil =>
      intro r _ _ _ p hp
      cases hp
      exact .refl _
    | cons q l ih =>
      intro r h hrange hunmapped p hp
      obtain ⟨p₁, hp₁, hp⟩ := exec_cons.mp hp
      obtain ⟨⟨tables, hi⟩, hl⟩ := h
      obtain ⟨hi₁, hl₁, hwrites, -⟩ := hi.markPage hl (hunmapped q (List.mem_cons_self ..)) hp₁
      have hcall : PagingRun.Call r { r with paging := p₁ } := .markPage (hrange q (List.mem_cons_self ..)) hp₁
      refine (PagingRun.Calls.single ⟨⟨tables, hi⟩, hl⟩ hcall).trans
        (ih { r with paging := p₁ } ⟨hi₁, hl₁⟩ (fun x hx => hrange x (List.mem_cons_of_mem _ hx)) (fun x hx => ?_) p hp)
      show (p₁.page e x).present = false
      by_cases hsame : Paging.SamePage x q
      · rw [Paging.page_samePage hsame, hwrites.self]
        decide
      · rw [hwrites.others e x fun hx => hsame hx.2]
        exact hunmapped x (List.mem_cons_of_mem _ hx)
  exact hmarks _ s.run h hrange hunmapped p hp

/-! ### `env_create` -/

theorem mapSegmentPage_made (h : s.run.WalkInv all boot) (hva : va < userTop) (hempty : s.run.paging.page e va = {})
    (hs : mapSegmentPage e s va = some t) : Made all boot s t := by
  obtain ⟨⟨r, f⟩, hr, hs⟩ := Option.bind_eq_some_iff.mp hs
  obtain ⟨p, hp, hs⟩ := Option.bind_eq_some_iff.mp hs
  obtain ⟨⟨u, wse⟩, hu, rfl⟩ := Option.map_eq_some_iff.mp hs
  obtain ⟨h₁, -⟩ := h.allocateFrame hr
  obtain ⟨h₂, -⟩ := loadtime_spec h hempty (by decide) hr hp
  have hmapped : Made all boot s (s.setRun { r with paging := p, handed := r.handed.erase f }) :=
    .tail (.single h (.allocateFrame hr)) h₁ (.loadtimeMapFrame hva hp)
  have hcreated : Made all boot (s.setRun { r with paging := p, handed := r.handed.erase f }) u := createElement_made h₂ hu
  exact hmapped.trans hcreated

theorem writeUserPage_made {content : Page → Page} (h : s.run.WalkInv all boot) (hs : s.writeUserPage e va content = some t) :
    Made all boot s t := by
  obtain ⟨-, hs⟩ := Option.ite_none_right_eq_some.mp hs
  obtain ⟨r, hr, rfl⟩ := Option.map_eq_some_iff.mp hs
  exact .single h (.ptSetPagePermissions hr)

/-- The pages of a segment. -/
theorem Loading.segment_made {ps : List Nat} {pageWsSize remaining n : Nat} {seg : Segment} {progName : String}
    (h : Loading all boot e pageWsSize ps s₀ s) (hbelow : seg.Below) (hnew : ∀ q, seg.Has q → ∀ p ∈ ps, ¬ Paging.SamePage q p)
    (hs : s.programSegmentAllocMapCopyWorkingset e progName seg remaining = some (t, n)) : Made all boot s t := by
  obtain ⟨s₁, hs₁, hs⟩ := Option.bind_eq_some_iff.mp hs
  obtain ⟨s₂, hs₂, heq⟩ := Option.map_eq_some_iff.mp hs
  cases heq
  obtain ⟨hhas, hapart⟩ := Segment.prepaged_spec hbelow progName remaining
  obtain ⟨-, hround⟩ := hbelow.bounds
  have hlt : ∀ q ∈ seg.prepaged progName remaining, q < userTop := fun q hq => lt_of_lt_of_le (hhas q hq).2.2 (hround.trans (by decide))
  obtain ⟨h₁, -⟩ := h.mapSegmentPages (fun q hq => ⟨(hhas q hq).1, hlt q hq⟩) hapart (fun q hq => hnew q (hhas q hq)) hs₁
  have hmapped : Made all boot s s₁ := by
    refine exec_made
      (I := fun s l => (∀ q ∈ l, q % 4096 = 0 ∧ q < userTop) ∧ Apart l ∧
        ∃ ps, Loading all boot e pageWsSize ps s₀ s ∧ ∀ q ∈ l, ∀ p ∈ ps, ¬ Paging.SamePage q p)
      (fun s q l t h hs => ?_) ⟨fun q hq => ⟨(hhas q hq).1, hlt q hq⟩, hapart, ps, h, fun q hq => hnew q (hhas q hq)⟩ hs₁
    obtain ⟨hl, hapart, ps, h, hnew⟩ := h
    obtain ⟨hq, hapart⟩ := List.pairwise_cons.mp hapart
    obtain ⟨halign, hlt⟩ := hl q (List.mem_cons_self ..)
    have hfirst := hnew q (List.mem_cons_self ..)
    have hone : exec (mapSegmentPage e) s [q] = some t := exec_cons.mpr ⟨t, hs, rfl⟩
    obtain ⟨h', -⟩ := h.mapSegmentPages (fun x hx => List.mem_singleton.mp hx ▸ ⟨halign, hlt⟩) (List.pairwise_singleton ..)
      (fun x hx => List.mem_singleton.mp hx ▸ hfirst) hone
    refine ⟨mapSegmentPage_made h.mem.walk hlt (h.empty q hfirst) hs, fun x hx => hl x (List.mem_cons_of_mem _ hx), hapart, q :: ps,
      h', fun x hx p hp => ?_⟩
    rcases List.mem_cons.mp hp with rfl | hp
    · exact fun hsame => hq x hx hsame.symm
    · exact hnew x (List.mem_cons_of_mem _ hx) p hp
  have hwritten : Made all boot s₁ t := by
    exact exec_made (I := fun s _ => s.run.WalkInv all boot)
      (fun s p _ t h hs => ⟨writeUserPage_made h hs, (writeUserPage_touched h hs).1⟩) h₁.mem.walk hs₂
  exact hmapped.trans hwritten

theorem Loading.loadSegments_made {ps : List Nat} {pageWsSize remaining : Nat} {segs : List Segment} {progName : String}
    (h : Loading all boot e pageWsSize ps s₀ s) (hload : Loadable segs)
    (hnew : ∀ seg ∈ segs, ∀ q, seg.Has q → ∀ p ∈ ps, ¬ Paging.SamePage q p)
    (hs : UserMem.loadSegments e progName s remaining segs = some t) : Made all boot s t := by
  induction segs generalizing s remaining ps with
  | nil =>
    cases hs
    exact .refl _
  | cons seg segs ih =>
    obtain ⟨⟨s₁, n⟩, hs₁, hs⟩ := Option.bind_eq_some_iff.mp hs
    obtain ⟨s₂, hs₂, hs⟩ := Option.bind_eq_some_iff.mp hs
    obtain ⟨hbelow, hapart⟩ := hload
    have hseg := hbelow seg (List.mem_cons_self ..)
    obtain ⟨hfirst, hrest⟩ := List.pairwise_cons.mp hapart
    have hmade := h.segment_made hseg (hnew seg (List.mem_cons_self ..)) hs₁
    obtain ⟨rfl, h₁⟩ := h.segment hseg (hnew seg (List.mem_cons_self ..)) hs₁
    obtain ⟨disk, rfl⟩ := writeSegment_eq hs₂
    have h₂ := h₁.touched (t := { s₁ with disk := disk }) h₁.mem.walk (touched_disk s₁ disk)
    obtain ⟨hhas, -⟩ := Segment.prepaged_spec hseg progName remaining
    refine hmade.trans (ih (s := { s₁ with disk := disk }) h₂
      ⟨fun seg' hseg' => hbelow seg' (List.mem_cons_of_mem _ hseg'), hrest⟩ (fun seg' hseg' q hq p hp => ?_) hs)
    rcases List.mem_append.mp hp with hp | hp
    · have hnot := Segment.Has.not_samePage hseg (hbelow seg' (List.mem_cons_of_mem _ hseg')) (hfirst seg' hseg')
        (hhas p (List.mem_reverse.mp hp)) hq
      exact fun hsame => hnot hsame.symm
    · exact hnew seg' (List.mem_cons_of_mem _ hseg') q hq p hp

theorem mapStackPage_made (h : s.run.WalkInv all boot) (hempty : s.run.paging.page e stackVa = {})
    (hs : s.mapStackPage e = some t) : Made all boot s t := by
  obtain ⟨⟨r, f⟩, hr, hs⟩ := Option.bind_eq_some_iff.mp hs
  obtain ⟨p, hp, hs⟩ := Option.bind_eq_some_iff.mp hs
  obtain ⟨s₁, hs₁, hs⟩ := Option.bind_eq_some_iff.mp hs
  obtain ⟨⟨s₂, wse⟩, hs₂, hs⟩ := Option.bind_eq_some_iff.mp hs
  obtain ⟨⟨disk, -⟩, -, rfl⟩ := Option.map_eq_some_iff.mp hs
  obtain ⟨h₁, -⟩ := h.allocateFrame hr
  obtain ⟨h₂, -⟩ := loadtime_spec h hempty (by decide) hr hp
  obtain ⟨h₃, -⟩ := writeUserPage_spec (s := s.setRun _) h₂ hs₁
  have hmapped : Made all boot s (s.setRun { r with paging := p, handed := r.handed.erase f }) :=
    .tail (.single h (.allocateFrame hr)) h₁ (.loadtimeMapFrame (by decide) hp)
  have hcreated : Made all boot s₁ s₂ := createElement_made h₃ hs₂
  exact (hmapped.trans (writeUserPage_made (s := s.setRun _) h₂ hs₁)).trans hcreated

/-- `env_create` for a program whose segments occupy disjoint pages below the stack -/
theorem envCreate_made {pageWsSize : Nat} {progName : String} {segs : List Segment} (h : MemInv all boot s) (hunused : Unused s e)
    (hpos : 1 ≤ pageWsSize) (hlt : pageWsSize < 4294967296) (hload : Loadable segs)
    (hs : s.envCreate e pageWsSize progName segs = some t) : Made all boot s t := by
  obtain ⟨s₁, hs₁, hs⟩ := Option.bind_eq_some_iff.mp hs
  obtain ⟨s₂, hs₂, hs⟩ := Option.bind_eq_some_iff.mp hs
  obtain ⟨s₃, hs₃, hs⟩ := Option.bind_eq_some_iff.mp hs
  obtain ⟨⟨r, p⟩, hr, hs⟩ := Option.bind_eq_some_iff.mp hs
  obtain ⟨hp, heq⟩ := Option.ite_none_left_eq_some.mp hs
  cases heq
  have hremaining : u32 (pageWsSize + 4294967295) = pageWsSize - 1 := by
    unfold u32
    omega
  rw [hremaining] at hs₁
  have hinit : Loading all boot e pageWsSize [] s _ := loading_init h hunused
  have hmade₀ : Made all boot s (s.initializeEnvironment e pageWsSize) := .of_run (initializeEnvironment_run hunused)
  have hmade₁ := hinit.loadSegments_made hload (fun _ _ _ _ => nofun) hs₁
  obtain ⟨ps, h₁, -, hstack⟩ := hinit.loadSegments hload (by simp only [List.length_nil]; omega) (fun _ _ _ _ => nofun) nofun hs₁
  obtain ⟨hwalk₂, ht₂⟩ := exec_touched (fun s x t h hs => ⟨(clearModified_touched h hs).1, (clearModified_touched h hs).2.1⟩)
    h₁.mem.walk hs₂
  have hmade₂ : Made all boot s₁ s₂ := exec_made (I := fun s _ => s.run.WalkInv all boot)
    (fun s x _ t h hs => ⟨clearPermissions_made h hs, (clearModified_touched h hs).1⟩) h₁.mem.walk hs₂
  have h₂ := h₁.touched hwalk₂ ht₂
  have hmade₃ := mapStackPage_made hwalk₂ (h₂.empty _ hstack) hs₃
  have h₃ := h₂.mapStackPage hstack hs₃
  have hsize : u32 (4 * (s₃.ws e).list.length) ≤ 4294963200 := by
    have hle := h₃.resident.length_le (h₃.mem.nodup e)
    rw [u32_of_lt (by omega)]
    omega
  exact (((hmade₀.trans hmade₁).trans hmade₂).trans hmade₃).trans (.single h₃.mem.walk (.kmalloc hsize hr))

end UserMem

end Fos.Mem

namespace Fos.Trap
open Lib Heap Disk Mem

namespace Kernel

variable {E : Type} [DecidableEq E] {all : List PageNo} {boot : PageNo → Nat} {s t : Kernel E} {e : E} {va : Nat} {userTrap : Bool}
  {o : Outcome}

theorem tableFaultHandler_made (h : s.mem.run.WalkInv all boot)
    (hnone : va < userTop → s.mem.run.paging.pde e (pdx va) = none) (hs : s.tableFaultHandler e va = some t) : UserMem.Made all boot s.mem t.mem := by
  unfold tableFaultHandler at hs
  split at hs
  case isTrue huser =>
    obtain ⟨⟨p, x⟩, hp, rfl⟩ := Option.map_eq_some_iff.mp hs
    exact .single h (.createPageTable huser (hnone huser) hp)
  case isFalse =>
    obtain ⟨⟨r, ptr⟩, hr, hs⟩ := Option.bind_eq_some_iff.mp hs
    obtain ⟨-, hs⟩ := Option.ite_none_left_eq_some.mp hs
    obtain ⟨x, hx, rfl⟩ := Option.map_eq_some_iff.mp hs
    exact .single h (.kernelTable hr hx)

theorem faultHandler_made (h : s.mem.run.WalkInv all boot) (hhand : s.mem.HandIn e)
    (hs : s.faultHandler e userTrap va = some (t, o)) : UserMem.Made all boot s.mem t.mem := by
  rcases faultHandler_cases hs with ⟨⟨hentry, s₁, hs₁, ht⟩, -⟩ | ⟨heq, -⟩ | hserved
  · have hnone : va < userTop → s.mem.run.paging.pde e (pdx va) = none := fun huser => (entry_user huser).symm.trans hentry
    rw [← hs₁] at h hnone ⊢
    exact tableFaultHandler_made h hnone ht
  · rw [heq]
    exact .refl _
  · obtain ⟨hunmapped, -⟩ := hserved.spec h hhand
    exact UserMem.pageFaultHandler_made h hhand hserved.user hunmapped hserved.handler

theorem pageFaultTrap_made (h : s.mem.MemInv all boot) (hhand : s.mem.HandIn e) (hs : s.pageFaultTrap e userTrap va = some (t, o)) :
    UserMem.Made all boot s.mem t.mem := by
  obtain ⟨u, hu, hs⟩ := Option.bind_eq_some_iff.mp hs
  split at hu
  case isTrue =>
    obtain ⟨m, hm, rfl⟩ := Option.map_eq_some_iff.mp hu
    obtain ⟨haged, -⟩ := UserMem.updateTimeStamps_spec h.walk hm
    exact (UserMem.updateTimeStamps_made h.walk hm).trans
      (faultHandler_made (s := s.setMem m) (haged.walk h.walk) (hhand.updateTimeStamps h.walk hm) hs)
  case isFalse =>
    cases hu
    exact faultHandler_made h.walk hhand hs

end Kernel

namespace KernelRun

variable {E : Type} [DecidableEq E] {s t : KernelRun E} {ev : KernelEvent E} {e : E} {va size : Nat} {all : List PageNo} {boot : PageNo → Nat}

/-- `create_page_table` is called where there is no table. -/
def NewTable (s : KernelRun E) : KernelEvent E → Prop
  | .memory (.createPageTable dir va) => s.mem.run.paging.pde dir (pdx va) = none
  | _ => True

omit [DecidableEq E] in
theorem lt_userTop_of_mem_pagesOf {p : Nat} (h : inUserRange va size) (hp : p ∈ pagesOf va size) : p < userTop := by
  unfold inUserRange at h
  simp only [not_or, not_le, not_lt] at h
  obtain ⟨-, hlt, hge, hend, -⟩ := h
  obtain ⟨i, hi, rfl⟩ := List.mem_map.mp hp
  have hi := List.mem_range.mp hi
  simp only [userHeapMax, userHeapStart, userTop, roundUp, roundDown, pageSize, u32] at *
  omega

/-- Every step is a sequence of calls. -/
theorem step_made (hmem : s.mem.MemInv all boot) (hhand : ∀ e, s.running e → s.mem.HandIn e) (hok : s.Accepted ev)
    (hnew : s.NewTable ev)
    (hmark : ∀ e va size, ev = .allocateUserMem e va size → ∀ p ∈ pagesOf va size, (s.mem.run.paging.page e p).present = false)
    (hs : s.step ev = some t) : UserMem.Made all boot s.mem t.mem := by
  cases ev with
  | memory ev =>
    obtain ⟨r, hr, rfl⟩ := Option.map_eq_some_iff.mp hs
    obtain ⟨hallowed, -, hplain, -⟩ : s.Allowed (.memory ev) := hok
    refine .single hmem.walk ?_
    cases ev with
    | createPageTable dir va =>
      obtain ⟨⟨p, ptr⟩, hp, rfl⟩ := Option.map_eq_some_iff.mp hr
      obtain ⟨x, h, hp, -⟩ := Paging.createPageTableAt_eq_some.mp hp
      exact .createPageTable hallowed hnew hp
    | paging ev =>
      cases ev with
      | kmalloc size =>
        obtain ⟨⟨k, va⟩, hk, rfl⟩ := Option.map_eq_some_iff.mp hr
        exact .kmalloc hplain.2 (congrArg (Option.map _) hk)
      | kfree va => exact .kfree hallowed hr
      | allocateFrame =>
        obtain ⟨⟨p, f⟩, hp, rfl⟩ := Option.map_eq_some_iff.mp hr
        exact .allocateFrame (congrArg (Option.map _) hp)
      | mapFrame dir f va perm => exact .mapFrame hallowed.1 hr
      | unmapFrame dir va => exact .unmapFrame hr
      | allocPage dir va perms => exact .allocPage hallowed hr
  | envCreate e pageWsSize progName segs =>
    obtain ⟨m, hm, rfl⟩ := Option.map_eq_some_iff.mp hs
    obtain ⟨hunused, hpos, hlt, hload⟩ : s.Allowed (.envCreate e pageWsSize progName segs) := hok
    exact UserMem.envCreate_made hmem hunused hpos hlt hload hm
  | allocateUserMem e va size =>
    obtain ⟨m, hm, rfl⟩ := Option.map_eq_some_iff.mp hs
    obtain ⟨hrange, -⟩ := hok
    exact UserMem.allocateUserMem_made hmem.walk (fun p hp => lt_userTop_of_mem_pagesOf hrange hp) (hmark e va size rfl) hm
  | freeUserMem e va size =>
    obtain ⟨m, hm, rfl⟩ := Option.map_eq_some_iff.mp hs
    exact UserMem.freeUserMem_made hmem hm
  | envPageWsInvalidate e va =>
    obtain ⟨m, hm, rfl⟩ := Option.map_eq_some_iff.mp hs
    exact UserMem.envPageWsInvalidate_made hmem hm
  | updateTimeStamps e =>
    obtain ⟨m, hm, rfl⟩ := Option.map_eq_some_iff.mp hs
    exact UserMem.updateTimeStamps_made hmem.walk hm
  | fault e userTrap va =>
    obtain ⟨⟨u, o⟩, hu, hs⟩ := Option.bind_eq_some_iff.mp hs
    obtain ⟨hrunning, -⟩ : s.Allowed (.fault e userTrap va) := hok
    have hmade := Kernel.pageFaultTrap_made hmem (hhand e hrunning) hu
    cases o with
    | kernelFault => exact nomatch hs
    | served =>
      cases hs
      exact hmade
    | exit =>
      cases hs
      exact hmade

end KernelRun

end Fos.Trap
