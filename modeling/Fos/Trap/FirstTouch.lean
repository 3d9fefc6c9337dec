import Fos.Trap.FrameData
import Fos.Trap.UserRun

/-! What a process finds in a page of its heap or stack that is not in the page file. A page that is placed is mapped to a frame
    of the free list, as it was left there; a page that replaces another one is mapped to the frame of that page. -/

namespace Fos.Mem
open Lib Heap Disk Frames

namespace Frames

variable {m m' : Frames} {all F out : List PageNo} {boot : PageNo → Nat} {c : Slot} {f : PageNo}

/-- The last mapping of a frame is removed: the frame is the first one of the free list. -/
theorem Accounts.unmapFrame_first (h : Accounts m all boot F out) (hc : m.hold c = some f) (hone : (holders m.hold f).ncard = 1)
    (hs : m.unmapFrame c = some m') : (m'.freeFrameList.head ()).first = some f := by
  have href : m.references f = 1 := (h.references f (h.held c f hc)).trans hone
  unfold Frames.unmapFrame at hs
  rw [h.getFrameInfo c, hc] at hs
  cases hs
  have hzero : (m.decrementReferences f) = ({ m with references := Function.update m.references f 0 } : Frames).freeFrame f := by
    unfold decrementReferences
    simp only [href, Function.update_self]
    rfl
  show ((m.decrementReferences f).freeFrameList.head ()).first = some f
  rw [hzero]
  exact Lists.insertHead_first ..

end Frames

namespace PagingRun

variable {D : Type} [DecidableEq D] {all : List PageNo} {boot : PageNo → Nat} {s t : PagingRun D} {f g : PageNo} {va : Nat} {dir : D}

theorem WalkInv.unmapFrame_first (h : s.WalkInv all boot) (hm : s.paging.Maps dir va f) (hone : (holders s.hold f).ncard = 1)
    (hs : s.unmapFrame dir va = some t) : (t.paging.heap.mem.freeFrameList.head ()).first = some f := by
  obtain ⟨⟨tables, hi⟩, hl⟩ := h
  obtain ⟨F, ha⟩ := hi.accounts
  obtain ⟨p, hp, rfl⟩ := Option.map_eq_some_iff.mp hs
  obtain ⟨r, hr, hp⟩ := Option.bind_eq_some_iff.mp hp
  obtain ⟨hpresent, hframe⟩ := hm
  rcases hi.found hl hr with ⟨x, rfl, hx⟩ | ⟨-, hnone⟩
  · obtain ⟨m, hm, rfl⟩ := Option.map_eq_some_iff.mp hp
    rw [Paging.page_of_some hx] at hpresent hframe
    exact ha.unmapFrame_first (hold_eq_some.mpr ⟨hpresent, hframe⟩) hone hm
  · rw [Paging.page_of_none hnone] at hpresent
    exact nomatch hpresent

end PagingRun

namespace UserMem

variable {E : Type} [DecidableEq E] {all : List PageNo} {boot : PageNo → Nat} {s t u : UserMem E} {e : E} {va v wse : Nat}
  {f : PageNo} {o : Outcome}

theorem evictPage_first (h : s.run.WalkInv all boot) (hm : s.run.paging.Maps e v f) (hone : (holders s.run.hold f).ncard = 1)
    (hs : s.evictPage e v = some t) : (t.run.paging.heap.mem.freeFrameList.head ()).first = some f := by
  obtain ⟨perms, -, hs⟩ := Option.bind_eq_some_iff.mp hs
  obtain ⟨s₁, hs₁, hs⟩ := Option.bind_eq_some_iff.mp hs
  obtain ⟨r, hr, rfl⟩ := Option.map_eq_some_iff.mp hs
  split at hs₁
  case isTrue =>
    obtain ⟨disk, -, hclear⟩ := Option.bind_eq_some_iff.mp hs₁
    obtain ⟨h₁, -, -, -, hhold, hwrites⟩ := clearModified_spec (s := { s with disk := disk }) h hclear
    obtain ⟨hpresent, hframe⟩ := hm
    have hbit : permModified.getLsbD 0 = false := rfl
    refine h₁.unmapFrame_first ⟨?_, ?_⟩ (by rw [hhold]; exact hone) hr
    · rw [hwrites.self, present_iff, BitVec.getLsbD_and, BitVec.getLsbD_not, hbit]
      exact Bool.and_eq_true_iff.mpr ⟨present_iff ▸ hpresent, rfl⟩
    · rw [hwrites.self]
      exact hframe
  case isFalse =>
    cases hs₁
    exact h.unmapFrame_first hm hone hr

theorem loadPage_first (h : s.run.WalkInv all boot) (hva : va < userTop)
    (hnone : s.disk.pfReadEnvPage e va = none) (hs : s.loadPage e va = some (t, o)) :
    (s.run.paging.heap.mem.freeFrameList.head ()).first = some (t.run.paging.page e va).frame := by
  obtain ⟨⟨r₁, f⟩, hr₁, hs⟩ := Option.bind_eq_some_iff.mp hs
  obtain ⟨r₂, hr₂, hs⟩ := Option.bind_eq_some_iff.mp hs
  obtain ⟨⟨s₁, found⟩, hread, heq⟩ := Option.map_eq_some_iff.mp hs
  cases heq
  obtain ⟨h₁, -, hhanded, hfree, -⟩ := h.allocateFrame hr₁
  obtain ⟨-, hwrites, -⟩ := h₁.mapFrame hva (.inl (by rw [hhanded]; exact List.mem_cons_self ..)) (fun p => hfree (.kernel p))
    (by rw [holders_eq_empty.mpr hfree, Set.ncard_empty]; decide) (by decide) hr₂
  unfold pfReadEnvPage at hread
  rw [show ((s.setRun r₂).disk.pfReadEnvPage e va) = none from hnone] at hread
  cases hread
  rw [PagingRun.allocateFrame_first hr₁]
  show some f = some (r₂.paging.page e va).frame
  rw [hwrites.self, (Paging.mappedPte_present ..).2]

/-- The page takes the frame of the victim. -/
theorem replaceVictim_frame {tested : Bool} (h : s.run.WalkInv all boot) (hva : va < userTop)
    (hne : ¬ Paging.SamePage va (s.elementVa e wse)) (hnone : s.disk.pfReadEnvPage e va = none) (hm : s.run.paging.Maps e (s.elementVa e wse) f)
    (hone : (holders s.run.hold f).ncard = 1) (hs : s.replaceVictim e wse va tested = some (t, o)) :
    (t.run.paging.page e va).frame = f := by
  obtain ⟨info, -, hs⟩ := Option.bind_eq_some_iff.mp hs
  obtain ⟨-, hs⟩ := Option.ite_none_left_eq_some.mp hs
  obtain ⟨s₂, hs₂, hs⟩ := Option.bind_eq_some_iff.mp hs
  obtain ⟨h₂, -⟩ := evictPage_spec h hs₂
  obtain ⟨⟨s₃, o'⟩, hs₃, heq⟩ := Option.map_eq_some_iff.mp hs
  have hfirst := loadPage_first h₂ hva (evictPage_absent h hne hnone hs₂) hs₃
  rw [evictPage_first h hm hone hs₂] at hfirst
  have hpage : t.run = s₃.run := by
    cases o' <;> cases heq <;> rfl
  rw [hpage]
  exact (Option.some.inj hfirst).symm

omit [DecidableEq E] in
/-- Two writes of the same byte differ in the content of the frame of its page. -/
theorem writeByte_data {b b' : UInt8} (hs : s.writeByte e va b = some t) (hs' : s.writeByte e va b' = some u) :
    u = t.withData u.data ∧ ∀ f, f ≠ (s.run.paging.page e va).frame → u.data f = t.data f := by
  obtain ⟨⟨p, f⟩, hp, rfl⟩ := Option.map_eq_some_iff.mp hs
  unfold writeByte at hs'
  rw [hp] at hs'
  cases hs'
  refine ⟨rfl, fun g hg => ?_⟩
  have hframe : (s.run.paging.page e va).frame = f := by
    obtain ⟨x, hx, hp⟩ := Option.bind_eq_some_iff.mp hp
    obtain ⟨-, heq⟩ := Option.ite_none_right_eq_some.mp hp
    cases heq
    rw [Paging.page_of_some hx]
  rw [hframe] at hg
  exact (Function.update_of_ne hg ..).trans (Function.update_of_ne hg ..).symm

theorem freeUserMem_data {size : Nat} (hs : s.freeUserMem e va size = some t) : t.data = s.data := by
  have heq : s.freeUserMem e va size = (s.freeUserMem e va size).map (·.withData s.data) := freeUserMem_withData (s := s)
  rw [hs, Option.map_some] at heq
  have hsame : t = t.withData s.data := Option.some.inj heq
  rw [hsame]
  rfl

/-- Replacement takes the frame of a victim, and the rest leaves the frames of the pages as they are. -/
theorem pageFaultHandler_replaces {algorithm : Algorithm} (h : s.run.WalkInv all boot) (hhand : s.HandIn e) (hva : va < userTop)
    (hunmapped : (s.run.paging.page e (roundDown va pageSize)).present = false) (hfull : (s.ws e).maxSize ≤ (s.ws e).list.length)
    (hs : s.pageFaultHandler algorithm e va = some (t, o)) :
    ∃ s₁ wse u tested, Aged all boot e s s₁ ∧ wse ∈ (s.ws e).list ∧
      s₁.replaceVictim e wse (roundDown va pageSize) tested = some (u, o) ∧
        ∀ d q, (t.run.paging.page d q).frame = (u.run.paging.page d q).frame := by
  have hround : roundDown va pageSize < userTop := lt_of_le_of_lt (Nat.sub_le ..) hva
  have hused : ∀ {s₁ u : UserMem E} {o' : Outcome} {wse tested r}, Aged all boot e s s₁ →
      s₁.replaceVictim e wse (roundDown va pageSize) tested = some (u, o') →
        u.run.ptSetPagePermissions e (roundDown va pageSize) permUsed 0 = some r → ∀ d q,
          (r.paging.page d q).frame = (u.run.paging.page d q).frame := by
    intro s₁ u o' wse tested r haged hu hr
    obtain ⟨s₂, s₃, f, -, -, -, h₃, hcases⟩ :=
      replaceVictim_spec (haged.walk h) hround ((haged.page e _).present.trans hunmapped) hu
    have hrun : u.run = s₃.run := by rcases hcases with ⟨-, rfl⟩ | ⟨-, rfl⟩ <;> rfl
    exact fun d q => ((aged_setUsed (s := u) (by rw [hrun]; exact h₃) hr).page d q).1
  unfold pageFaultHandler at hs
  rw [if_neg (not_lt.mpr hfull)] at hs
  cases algorithm with
  | clock =>
    obtain ⟨⟨s₁, wse⟩, hs₁, hs⟩ := Option.bind_eq_some_iff.mp hs
    obtain ⟨haged, hmem, -⟩ := clockVictim_spec h hhand hs₁
    obtain ⟨⟨u, o'⟩, hu, heq⟩ := Option.map_eq_some_iff.mp hs
    cases o' <;> cases heq <;> exact ⟨s₁, wse, _, false, haged, hmem, hu, fun _ _ => rfl⟩
  | lruTimeApprox =>
    have hs : s.replaceLru e (roundDown va pageSize) = some (t, o) := hs
    unfold replaceLru at hs
    split at hs
    case h_1 => exact nomatch hs
    case h_2 wse hvictim =>
      obtain ⟨⟨u, o'⟩, hu, hs⟩ := Option.bind_eq_some_iff.mp hs
      refine ⟨s, wse, u, true, .refl s, WorkingSet.lruVictim_mem hvictim, ?_⟩
      cases o' with
      | served =>
        obtain ⟨r, hr, heq⟩ := Option.map_eq_some_iff.mp hs
        cases heq
        exact ⟨hu, hused (.refl s) hu hr⟩
      | exit =>
        cases hs
        exact ⟨hu, fun _ _ => rfl⟩
      | kernelFault =>
        cases hs
        exact ⟨hu, fun _ _ => rfl⟩
  | modifiedClock =>
    obtain ⟨⟨s₁, wse⟩, hs₁, hs⟩ := Option.bind_eq_some_iff.mp hs
    obtain ⟨haged, hmem⟩ := modifiedClockVictim_spec h hhand hs₁
    obtain ⟨⟨u, o'⟩, hu, hs⟩ := Option.bind_eq_some_iff.mp hs
    refine ⟨s₁, wse, u, true, haged, hmem, ?_⟩
    cases o' with
    | served =>
      obtain ⟨r, hr, heq⟩ := Option.map_eq_some_iff.mp hs
      cases heq
      exact ⟨hu, hused haged hu hr⟩
    | exit =>
      cases hs
      exact ⟨hu, fun _ _ => rfl⟩
    | kernelFault =>
      cases hs
      exact ⟨hu, fun _ _ => rfl⟩

/-- A page that is not in the page file has been mapped for the process, and the contents of the frames are as before. -/
structure FirstMapped (e : E) (va : Nat) (s t : UserMem E) : Prop where
  user : (t.run.paging.page e va).perm.getLsbD 2
  data : t.data = s.data

omit [DecidableEq E] in
theorem Loaded.firstMapped (h : Loaded e va f s t o) (hnone : s.disk.pfReadEnvPage e va = none) : FirstMapped e va s t := by
  refine ⟨?_, ?_⟩
  · rw [h.page.self, BitVec.getLsbD_or]
    exact Bool.or_eq_true_iff.mpr (.inr rfl)
  · rcases h.content with ⟨-, hdata, -⟩ | ⟨content, hcontent, -⟩
    · exact hdata
    · exact nomatch hnone.symm.trans hcontent

omit [DecidableEq E] in
theorem Placed.firstMapped (h : Placed all boot e va s t o) (hnone : s.disk.pfReadEnvPage e va = none) : FirstMapped e va s t := by
  obtain ⟨u, f, hloaded, ⟨-, rfl⟩ | ⟨-, wse, hadded⟩⟩ := h
  · exact hloaded.firstMapped hnone
  · obtain ⟨huser, hdata⟩ := hloaded.firstMapped hnone
    exact ⟨hadded.page ▸ huser, hadded.data.trans hdata⟩

theorem Replaced.firstMapped (hr : Replaced all boot e va s t o) (hother : ∀ x ∈ (s.ws e).list, ¬ Paging.SamePage va (s.elementVa e x))
    (hnone : s.disk.pfReadEnvPage e va = none) : FirstMapped e va s t := by
  obtain ⟨wse, hmem, s₁, s₂, s₃, f, haged, -, hevicted, -, hloaded, -, hcases⟩ := hr
  have hnone₂ : s₂.disk.pfReadEnvPage e va = none := by
    rcases hevicted.disk with ⟨hdisk, -⟩ | hupdate
    · rw [hdisk, haged.disk]
      exact hnone
    · exact PageFile.pfUpdateEnvPage_absent hupdate (fun hsame => hother wse hmem hsame.2) (by rw [haged.disk]; exact hnone)
  obtain ⟨huser, hdata⟩ := hloaded.firstMapped hnone₂
  have hdata : s₃.data = s.data := hdata.trans (hevicted.data.trans haged.data)
  obtain ⟨-, rfl⟩ | ⟨-, hrenamed⟩ := hcases
  · exact ⟨huser, hdata⟩
  · exact ⟨((hrenamed.page e va).2 2 (by decide)).trans huser, hrenamed.data.trans hdata⟩

omit [DecidableEq E] in
/-- Placement takes a frame of the free list. -/
theorem Placed.free {F : List PageNo} (hp : Placed all boot e va s t o) (h : s.run.WalkInv all boot) (ht : t.run.WalkInv all boot)
    (hF : s.run.paging.heap.mem.freeFrameList.Spells fun _ => F) : (t.run.paging.page e va).frame ∈ F := by
  obtain ⟨u, f, hloaded, hcases⟩ := hp
  have hsame : t.run.paging.page = u.run.paging.page ∧ t.run.handed = u.run.handed := by
    rcases hcases with ⟨-, rfl⟩ | ⟨-, wse, hadded⟩
    · exact ⟨rfl, rfl⟩
    · exact ⟨hadded.page, hadded.handed⟩
  obtain ⟨hpage, hhanded⟩ := hsame
  have hmaps : t.run.paging.Maps e va f := by
    unfold Paging.Maps
    rw [hpage, hloaded.page.self]
    exact ⟨loaded_present .., rfl⟩
  obtain ⟨x, hx⟩ := hmaps.hold
  obtain ⟨⟨tables, hi⟩, -⟩ := h
  obtain ⟨⟨tables', hi'⟩, -⟩ := ht
  obtain ⟨F₀, ha⟩ := hi.accounts
  obtain ⟨F', ha'⟩ := hi'.accounts
  rw [hF.toThreads.unique ha.free.toThreads (), hmaps.2]
  refine (ha.mem f).mpr ⟨ha'.held _ f hx, fun hout => ?_, hloaded.fresh⟩
  exact (ha'.out_mem f ((hhanded.trans hloaded.handed).symm ▸ hout)).2 _ hx

end UserMem

end Fos.Mem

namespace Fos.Trap
open Lib Heap Disk Mem

namespace Kernel

variable {E : Type} [DecidableEq E] {all : List PageNo} {boot : PageNo → Nat} {s t : Kernel E} {e : E} {va : Nat} {userTrap : Bool}
  {o : Outcome} {d : PageNo → Page}

/-- Where the frame of a page comes from that a fault has mapped: from a page of the working set when that was full, and else
    from the free list. -/
structure TakesFrame (e : E) (va : Nat) (s t : UserMem E) : Prop extends UserMem.FirstMapped e va s t where
  full : (s.ws e).maxSize ≤ (s.ws e).list.length →
    ∃ x ∈ (s.ws e).list, (t.run.paging.page e va).frame = (s.run.paging.page e (s.elementVa e x)).frame
  free : (s.ws e).list.length < (s.ws e).maxSize →
    ∀ F, (s.run.paging.heap.mem.freeFrameList.Spells fun _ => F) → (t.run.paging.page e va).frame ∈ F

omit [DecidableEq E] in
/-- The page of a fault is not in the working set. -/
theorem not_samePage (hws : s.mem.WsInv e) (hunmapped : (s.mem.run.paging.page e va).present = false) {x : Nat}
    (hx : x ∈ (s.mem.ws e).list) : ¬ Paging.SamePage (roundDown va pageSize) (s.mem.elementVa e x) := by
  intro hsame
  obtain ⟨f, hpresent, -⟩ := hws.resident.mapped x hx
  rw [← Paging.page_samePage hsame, Paging.page_samePage (samePage_roundDown va), hunmapped] at hpresent
  exact nomatch hpresent

omit [DecidableEq E] in
theorem absent_roundDown (hnone : s.mem.disk.pfReadEnvPage e va = none) :
    s.mem.disk.pfReadEnvPage e (roundDown va pageSize) = none := by
  obtain ⟨hpdx, hptx⟩ := samePage_roundDown va
  unfold PageFile.pfReadEnvPage at hnone ⊢
  rw [hpdx, hptx]
  exact hnone

theorem faultHandler_takes (h : s.mem.MemInv all boot) (hhand : s.mem.HandIn e) (hws : s.mem.WsInv e)
    (hattached : s.mem.run.paging.Attached) (hunmapped : (s.mem.run.paging.page e va).present = false)
    (hnone : s.mem.disk.pfReadEnvPage e va = none) (hs : s.faultHandler e userTrap va = some (t, o))
    (hmapped : (t.mem.run.paging.page e va).present) : TakesFrame e va s.mem t.mem := by
  have hpage : ∀ m : UserMem E, m.run.paging.page e va = m.run.paging.page e (roundDown va pageSize) :=
    fun m => (Paging.page_samePage (samePage_roundDown va) e).symm
  have hother : ∀ x ∈ (s.mem.ws e).list, ¬ Paging.SamePage (roundDown va pageSize) (s.mem.elementVa e x) :=
    fun x hx => not_samePage hws hunmapped hx
  rcases faultHandler_cases hs with ⟨hmade, -⟩ | ⟨heq, -⟩ | hserved
  · obtain ⟨-, -, hsame, -, -⟩ := hmade.spec h
    rw [hsame, hunmapped] at hmapped
    exact nomatch hmapped
  · rw [heq, hunmapped] at hmapped
    exact nomatch hmapped
  · obtain ⟨hunmapped', hround, -, hcases⟩ := hserved.spec h.walk hhand
    have hfirst : UserMem.FirstMapped e (roundDown va pageSize) s.mem t.mem := by
      rcases hcases with ⟨-, hplaced, -⟩ | hreplaced
      · exact hplaced.firstMapped (absent_roundDown hnone)
      · exact hreplaced.firstMapped hother (absent_roundDown hnone)
    refine ⟨⟨hpage t.mem ▸ hfirst.user, hfirst.data⟩, fun hfull => ?_, fun hroom F hF => ?_⟩
    · obtain ⟨s₁, wse, u, tested, haged, hmem, hu, hframe⟩ :=
        UserMem.pageFaultHandler_replaces h.walk hhand hserved.user hunmapped' hfull hserved.handler
      obtain ⟨f, hf⟩ := hws.resident.mapped wse hmem
      have hone := hws.resident.ncard_holders h.walk hattached hmem hf
      refine ⟨wse, hmem, ?_⟩
      rw [hpage, hframe, hf.2]
      refine UserMem.replaceVictim_frame (haged.walk h.walk) hround (haged.elementVa wse ▸ hother wse hmem)
        (haged.disk ▸ absent_roundDown hnone) ?_ (haged.hold ▸ hone) hu
      rw [haged.elementVa, haged.maps]
      exact hf
    · rcases UserMem.pageFaultHandler_spec h.walk hhand hserved.user hunmapped' hserved.handler with ⟨-, hplaced, hwalk⟩ | ⟨hnot, -⟩
      · rw [hpage]
        exact hplaced.free h.walk hwalk hF
      · exact absurd hroom hnot

omit [DecidableEq E] in
/-- The time stamps and the `USED` bits have no influence on where the frame comes from. -/
theorem TakesFrame.aged {s t u : UserMem E} (h : TakesFrame e va t u) (ha : UserMem.Aged all boot e s t)
    (hwalk : s.run.WalkInv all boot) : TakesFrame e va s u := by
  refine ⟨⟨h.user, h.data.trans ha.data⟩, fun hfull => ?_, fun hroom F hF => ?_⟩
  · obtain ⟨x, hx, hframe⟩ := h.full (by rw [ha.maxSize, ha.list]; exact hfull)
    exact ⟨x, ha.list ▸ hx, by rw [hframe, ha.elementVa, (ha.page e _).1]⟩
  · obtain ⟨⟨tables', hi'⟩, -⟩ := ha.walk hwalk
    obtain ⟨⟨tables, hi⟩, -⟩ := hwalk
    obtain ⟨F₀, hs⟩ := hi.accounts
    obtain ⟨F', ht⟩ := hi'.accounts
    obtain ⟨hall, hout, hnone⟩ := (ht.mem _).mp (h.free (by rw [ha.maxSize, ha.list]; exact hroom) F' ht.free)
    rw [hF.toThreads.unique hs.free.toThreads ()]
    exact (hs.mem _).mpr ⟨hall, ha.handed ▸ hout, fun c hc => hnone c ((congrFun ha.hold c).trans hc)⟩

theorem pageFaultTrap_takes (h : s.mem.MemInv all boot) (hhand : s.mem.HandIn e) (hws : s.mem.WsInv e)
    (hattached : s.mem.run.paging.Attached) (hunmapped : (s.mem.run.paging.page e va).present = false)
    (hnone : s.mem.disk.pfReadEnvPage e va = none) (hs : s.pageFaultTrap e userTrap va = some (t, o))
    (hmapped : (t.mem.run.paging.page e va).present) : TakesFrame e va s.mem t.mem := by
  obtain ⟨u, hu, hs⟩ := Option.bind_eq_some_iff.mp hs
  split at hu
  case isTrue =>
    obtain ⟨m, hm, rfl⟩ := Option.map_eq_some_iff.mp hu
    obtain ⟨haged, -⟩ := UserMem.updateTimeStamps_spec h.walk hm
    have htakes := faultHandler_takes (s := s.setMem m) (h.aged haged) (hhand.updateTimeStamps h.walk hm)
      (hws.updateTimeStamps h.walk hm) ((UserMem.updateTimeStamps_made h.walk hm).attached hattached)
      ((haged.page e va).present.trans hunmapped) (haged.disk ▸ hnone) hs hmapped
    exact htakes.aged haged h.walk
  case isFalse =>
    cases hu
    exact faultHandler_takes h hhand hws hattached hunmapped hnone hs hmapped

end Kernel

namespace KernelRun

variable {E : Type} [DecidableEq E] {s₀ s t : KernelRun E} {e : E} {va : Nat} {userTrap : Bool} {n k : Nat} {d : PageNo → Page}

def withData (s : KernelRun E) (d : PageNo → Page) : KernelRun E := s.setMem (s.mem.withData d)

/-- The contents are others in frames of the free list only. -/
def OtherContents (s : KernelRun E) (d : PageNo → Page) : Prop :=
  ∃ F, (s.mem.run.paging.heap.mem.freeFrameList.Spells fun _ => F) ∧ ∀ f, f ∉ F → d f = s.mem.data f

/-- The byte that `e` reads after its fault was served. -/
def firstRead (s : KernelRun E) (e : E) (userTrap : Bool) (va va' : Nat) : Option UInt8 :=
  (s.step (.fault e userTrap va)).bind fun t => (t.mem.readByte e va').map Prod.snd

/-- What `e` reads from the page after its fault does not depend on what is in the free frames. -/
def ReadsSame (s : KernelRun E) (e : E) (userTrap : Bool) (va : Nat) : Prop :=
  ∀ d, s.OtherContents d → ∀ va', Paging.SamePage va' va → (s.withData d).firstRead e userTrap va va' = s.firstRead e userTrap va va'

/-- A fault of `e` in its heap or on its stack maps a page that is not in the page file. -/
structure FirstTouch (e : E) (userTrap : Bool) (va : Nat) (s t : KernelRun E) : Prop where
  allowed : s.Allowed (.fault e userTrap va)
  step : s.step (.fault e userTrap va) = some t
  region : inHeapOrStack va
  unmapped : (s.mem.run.paging.page e va).present = false
  absent : s.mem.disk.pfReadEnvPage e va = none
  mapped : (t.mem.run.paging.page e va).present

theorem FirstTouch.takes (h : FirstTouch e userTrap va s t) (hi : UserInv n k s) : Kernel.TakesFrame e va s.mem t.mem := by
  obtain ⟨⟨u, o⟩, hu, hs⟩ := Option.bind_eq_some_iff.mp h.step
  obtain ⟨hrunning, -⟩ := h.allowed
  have hmapped := h.mapped
  cases o with
  | kernelFault => exact nomatch hs
  | served =>
    cases hs
    exact Kernel.pageFaultTrap_takes hi.mem (hi.hand e hrunning) (hi.ws e hrunning) hi.attached h.unmapped h.absent hu hmapped
  | exit =>
    cases hs
    exact Kernel.pageFaultTrap_takes hi.mem (hi.hand e hrunning) (hi.ws e hrunning) hi.attached h.unmapped h.absent hu hmapped

/-- The fault does the same with other contents in the free frames. -/
theorem FirstTouch.withData (h : FirstTouch e userTrap va s t) (hi : UserInv n k s) (hd : s.OtherContents d) :
    (s.withData d).step (.fault e userTrap va) = some (t.withData d) := by
  obtain ⟨hrunning, -⟩ := h.allowed
  obtain ⟨F, hF, hd⟩ := hd
  have hws := hi.ws e hrunning
  have hu : UserMem.Unread d e (roundDown va pageSize) s.mem := by
    refine ⟨fun x hx => hd _ fun hfree => ?_, fun x hx => Kernel.not_samePage hws h.unmapped hx, Kernel.absent_roundDown h.absent⟩
    obtain ⟨f, hf⟩ := hws.resident.mapped x hx
    obtain ⟨-, hnot, -⟩ := hi.mem.walk.maps_live hf
    exact hnot F hF (hf.2 ▸ hfree)
  have hstep := h.step
  unfold KernelRun.step at hstep ⊢
  have htrap : (s.withData d).kernel.pageFaultTrap e userTrap va = _ :=
    Kernel.pageFaultTrap_withData hi.mem.walk (hi.hand e hrunning) fun _ => hu
  dsimp only at hstep ⊢
  rw [htrap, Option.bind_map]
  obtain ⟨⟨u, o⟩, hu, hs⟩ := Option.bind_eq_some_iff.mp hstep
  rw [hu]
  cases o with
  | kernelFault => exact nomatch hs
  | served =>
    cases hs
    rfl
  | exit =>
    cases hs
    rfl

/-- In every state of a run, what a process finds in a page that is not in the page file is independent of what was left in the
    free frames if and only if its working set is full, so that the page replaces another one of its pages. -/
theorem first_touch_reads_same (hmin : 160 ≤ n) (hn : n ≤ 1048576) (hk : 256 ≤ k) (hboot : Booted n k s₀)
    (hr : Reach userStep UserAccepted s₀ s) (h : FirstTouch e userTrap va s t) :
    ReadsSame s e userTrap va ↔ (s.mem.ws e).maxSize ≤ (s.mem.ws e).list.length := by
  have hi := UserInv.reach hmin hn hk hboot hr
  have htakes := h.takes hi
  have hfirst : s.firstRead e userTrap va = fun va' => (t.mem.readByte e va').map Prod.snd := by
    funext va'
    unfold firstRead
    rw [h.step, Option.bind_some]
  have hfirst' : ∀ d, s.OtherContents d →
      (s.withData d).firstRead e userTrap va = fun va' => ((t.mem.withData d).readByte e va').map Prod.snd := by
    intro d hd
    funext va'
    unfold firstRead
    rw [h.withData hi hd, Option.bind_some]
    rfl
  have hread : ∀ (m : UserMem E) va', m.run = t.mem.run → Paging.SamePage va' va →
      (m.readByte e va').map Prod.snd = some (m.data (t.mem.run.paging.page e va).frame (UserMem.pageOffset va')) := by
    intro m va' hm hsame
    have hpage : m.run.paging.page e va' = t.mem.run.paging.page e va := by rw [hm, Paging.page_samePage hsame]
    have hpresent : (m.run.paging.page e va').present := by rw [hpage]; exact h.mapped
    have huser : (m.run.paging.page e va').perm.getLsbD 2 := by rw [hpage]; exact htakes.user
    rw [UserMem.readByte_eq hpresent huser, hpage]
  constructor
  · intro hsame
    refine not_lt.mp fun hroom => ?_
    obtain ⟨⟨tables, hinv⟩, -⟩ := hi.mem.walk
    obtain ⟨F, ha⟩ := hinv.accounts
    have hfree := htakes.free hroom F ha.free
    generalize hf : (t.mem.run.paging.page e va).frame = f at hfree hread
    -- the byte at the address of the fault is another one in the new contents
    let d := Function.update s.mem.data f fun i => s.mem.data f i + 1
    have hd : s.OtherContents d := ⟨F, ha.free, fun g hg => Function.update_of_ne (fun heq : g = f => hg (heq ▸ hfree)) ..⟩
    have hbyte := hsame d hd va ⟨rfl, rfl⟩
    rw [hfirst' d hd, hfirst] at hbyte
    dsimp only at hbyte
    rw [hread (t.mem.withData d) va rfl ⟨rfl, rfl⟩, hread t.mem va rfl ⟨rfl, rfl⟩, htakes.data] at hbyte
    have hd' : (t.mem.withData d).data f = fun i => s.mem.data f i + 1 := Function.update_self ..
    have hother : ∀ b : UInt8, b + 1 ≠ b := fun b => by simp
    rw [hd'] at hbyte
    exact hother _ (Option.some.inj hbyte)
  · intro hfull d hd va' hsame
    obtain ⟨x, hx, hframe⟩ := htakes.full hfull
    rw [hfirst' d hd, hfirst]
    dsimp only
    rw [hread (t.mem.withData d) va' rfl hsame, hread t.mem va' rfl hsame, htakes.data]
    obtain ⟨hrunning, -⟩ := h.allowed
    obtain ⟨F, hF, hd⟩ := hd
    obtain ⟨f, hf⟩ := (hi.ws e hrunning).resident.mapped x hx
    obtain ⟨-, hnot, -⟩ := hi.mem.walk.maps_live hf
    rw [hframe, hf.2]
    show some (d f _) = _
    rw [hd f (hnot F hF)]

/-- The working set of a new environment is full of its stack page and one page of the heap; the next page of the heap replaces
    one of them. -/
theorem first_touch_reads_same_replaced : ∃ s₀ s t : KernelRun Unit, Booted 1024 768 s₀ ∧ exec userStep s₀
    [.kernel (.envCreate () 2 "prog" []), .kernel (.allocateUserMem () 2147483648 8192), .kernel (.fault () true 2147483648)] = some s ∧
      FirstTouch () true 2147487744 s t ∧ ReadsSame s () true 2147487744 := by
  have hrun : ((PagingRun.afterBoot Unit 1024 768).bind fun r₀ =>
      (step (start r₀ (smallDisk 3)) (.envCreate () 2 "prog" [])).bind fun s₁ =>
      (step s₁ (.allocateUserMem () 2147483648 8192)).bind fun s₂ => (step s₂ (.fault () true 2147483648)).bind fun s =>
      (step s (.fault () true 2147487744)).map fun t => decide ((s₁.mem.run.paging.page () 2147483648).present = false ∧
        (s₁.mem.run.paging.page () 2147487744).present = false ∧ s₂.running () ∧ s.running () ∧
          (s.mem.run.paging.page () 2147487744).present = false ∧ (s.mem.disk.pfReadEnvPage () 2147487744).isNone ∧
            (t.mem.run.paging.page () 2147487744).present ∧ (s.mem.ws ()).maxSize ≤ (s.mem.ws ()).list.length)) = some true := by
    rw [PagingRun.afterBoot_eq]
    decide +kernel
  obtain ⟨r₀, hboot, hrun⟩ := Option.bind_eq_some_iff.mp hrun
  obtain ⟨s₁, hs₁, hrun⟩ := Option.bind_eq_some_iff.mp hrun
  obtain ⟨s₂, hs₂, hrun⟩ := Option.bind_eq_some_iff.mp hrun
  obtain ⟨s, hs, hrun⟩ := Option.bind_eq_some_iff.mp hrun
  obtain ⟨t, ht, hresult⟩ := Option.map_eq_some_iff.mp hrun
  obtain ⟨hfirst, hsecond, hrunning₂, hrunning, hunmapped, habsent, hmapped, hfull⟩ := of_decide_eq_true hresult
  have hboot := booted_start hboot (smallDisk 3)
  have hnone : ∀ p ∈ pagesOf 2147483648 8192, (s₁.mem.run.paging.page () p).present = false := by
    intro p hp
    have hp : p ∈ [2147483648, 2147487744] := hp
    simp only [List.mem_cons, List.not_mem_nil, or_false] at hp
    rcases hp with rfl | rfl
    · exact hfirst
    · exact hsecond
  have hcreate : (start r₀ (smallDisk 3)).Allowed (.envCreate () 2 "prog" []) :=
    hboot.allowed_envCreate (by decide) (by decide) (by decide) (by decide) (by decide) ⟨nofun, .nil⟩
  have hr : Reach userStep UserAccepted (start r₀ (smallDisk 3)) s :=
    .step (.kernel (.fault () true 2147483648)) (.step (.kernel (.allocateUserMem () 2147483648 8192))
      (.step (.kernel (.envCreate () 2 "prog" [])) .init ⟨hcreate, trivial, trivial⟩ hs₁)
      ⟨⟨by decide, fun p hp hpresent => (nomatch (hnone p hp).symm.trans hpresent)⟩, hnone, trivial⟩ hs₂)
      ⟨⟨hrunning₂, by decide⟩, trivial, trivial⟩ hs
  have htouch : FirstTouch () true 2147487744 s t :=
    ⟨⟨hrunning, by decide⟩, ht, by decide, hunmapped, Option.isNone_iff_eq_none.mp habsent, hmapped⟩
  exact ⟨start r₀ (smallDisk 3), s, t, hboot, exec_cons.mpr ⟨s₁, hs₁, exec_cons.mpr ⟨s₂, hs₂, exec_cons.mpr ⟨s, hs, rfl⟩⟩⟩, htouch,
    (first_touch_reads_same (by decide) (by decide) (by decide) hboot hr htouch).mpr hfull⟩

/-- Two runs differ in the byte that one environment writes to its heap before it frees the page. Another environment then
    reads this byte from a new page of its own heap. -/
theorem first_touch_reads_other : ∃ s₀ s s' t : KernelRun Bool, Booted 1024 768 s₀ ∧ Reach userStep UserAccepted s₀ s ∧
    Reach userStep UserAccepted s₀ s' ∧ s.OtherContents s'.mem.data ∧ s' = s.withData s'.mem.data ∧
      FirstTouch true true 2147483648 s t ∧ s.firstRead true true 2147483648 2147483648 = some 7 ∧
        s'.firstRead true true 2147483648 2147483648 = some 8 := by
  have hrun : ((PagingRun.afterBoot Bool 1024 768).bind fun r₀ => (step (start r₀ {}) (.envCreate false 5 "prog" [])).bind fun s₁ =>
      (step s₁ (.envCreate true 5 "prog" [])).bind fun s₂ => (step s₂ (.allocateUserMem true 2147483648 4096)).bind fun s₃ =>
      (step s₃ (.allocateUserMem false 2147483648 4096)).bind fun s₄ => (step s₄ (.fault false true 2147483648)).bind fun u =>
      (u.mem.writeByte false 2147483648 7).bind fun m => (m.freeUserMem false 2147483648 4096).bind fun m₁ =>
      (u.mem.writeByte false 2147483648 8).bind fun m' => (m'.freeUserMem false 2147483648 4096).bind fun m₁' =>
      (step (u.setMem m₁) (.fault true true 2147483648)).map fun t => decide (
        ((List.finRange 1024).all fun j => (s₁.mem.run.paging.pde true j).isNone) ∧ (s₁.mem.ws true).list = [] ∧
          (s₁.mem.ws true).last = none ∧ (s₂.mem.run.paging.page true 2147483648).present = false ∧
            (s₃.mem.run.paging.page false 2147483648).present = false ∧ s₄.running false ∧ u.running false ∧ u.running true ∧
              (m₁.run.paging.page true 2147483648).present = false ∧ (m₁.disk.pfReadEnvPage true 2147483648).isNone ∧
                (t.mem.run.paging.page true 2147483648).present ∧ (m₁.run.paging.heap.mem.freeFrameList.head ()).first =
                  some (u.mem.run.paging.page false 2147483648).frame ∧
                    (u.setMem m₁).firstRead true true 2147483648 2147483648 = some 7 ∧
                      (u.setMem m₁').firstRead true true 2147483648 2147483648 = some 8)) = some true := by
    rw [PagingRun.afterBoot_eq]
    decide +kernel
  obtain ⟨r₀, hboot, hrun⟩ := Option.bind_eq_some_iff.mp hrun
  obtain ⟨s₁, hs₁, hrun⟩ := Option.bind_eq_some_iff.mp hrun
  obtain ⟨s₂, hs₂, hrun⟩ := Option.bind_eq_some_iff.mp hrun
  obtain ⟨s₃, hs₃, hrun⟩ := Option.bind_eq_some_iff.mp hrun
  obtain ⟨s₄, hs₄, hrun⟩ := Option.bind_eq_some_iff.mp hrun
  obtain ⟨u, hu, hrun⟩ := Option.bind_eq_some_iff.mp hrun
  obtain ⟨m, hm, hrun⟩ := Option.bind_eq_some_iff.mp hrun
  obtain ⟨m₁, hm₁, hrun⟩ := Option.bind_eq_some_iff.mp hrun
  obtain ⟨m', hm', hrun⟩ := Option.bind_eq_some_iff.mp hrun
  obtain ⟨m₁', hm₁', hrun⟩ := Option.bind_eq_some_iff.mp hrun
  obtain ⟨t, ht, hresult⟩ := Option.map_eq_some_iff.mp hrun
  obtain ⟨hpde, hlist, hlast, hunmapped₂, hunmapped₃, hrunning₄, hrunning, hrunning', hunmapped, habsent, hmapped, hfree, h₇, h₈⟩ :=
    of_decide_eq_true hresult
  have hboot := booted_start hboot {}
  have hcreate : (start r₀ {}).Allowed (.envCreate false 5 "prog" []) :=
    hboot.allowed_envCreate (by decide) (by decide) (by decide) (by decide) (by decide) ⟨nofun, .nil⟩
  have hcreate' : s₁.Allowed (.envCreate true 5 "prog" []) :=
    ⟨⟨fun j => Option.isNone_iff_eq_none.mp (List.all_eq_true.mp hpde j (List.mem_finRange j)), hlist, hlast⟩, by decide, by decide,
      nofun, .nil⟩
  have hmark : ∀ {v : KernelRun Bool} {e}, (v.mem.run.paging.page e 2147483648).present = false →
      v.UserAccepted (.kernel (.allocateUserMem e 2147483648 4096)) := by
    intro v e hv
    have hnone : ∀ p ∈ pagesOf 2147483648 4096, (v.mem.run.paging.page e p).present = false := by
      intro p hp
      obtain rfl : p = 2147483648 := List.mem_singleton.mp hp
      exact hv
    exact ⟨⟨by decide, fun p hp hpresent => (nomatch (hnone p hp).symm.trans hpresent)⟩, hnone, trivial⟩
  have hr : Reach userStep UserAccepted (start r₀ {}) u :=
    .step (.kernel (.fault false true 2147483648)) (.step (.kernel (.allocateUserMem false 2147483648 4096))
      (.step (.kernel (.allocateUserMem true 2147483648 4096)) (.step (.kernel (.envCreate true 5 "prog" []))
        (.step (.kernel (.envCreate false 5 "prog" [])) .init ⟨hcreate, trivial, trivial⟩ hs₁) ⟨hcreate', trivial, trivial⟩ hs₂)
        (hmark hunmapped₂) hs₃) (hmark hunmapped₃) hs₄) ⟨⟨hrunning₄, by decide⟩, trivial, trivial⟩ hu
  have hrange : inUserRange 2147483648 4096 := by decide
  have hfreed : ∀ {b v v₁}, u.mem.writeByte false 2147483648 b = some v → v.freeUserMem false 2147483648 4096 = some v₁ →
      Reach userStep UserAccepted (start r₀ {}) (u.setMem v₁) := by
    intro b v v₁ hv hv₁
    exact .step (s := u.setMem v) (.kernel (.freeUserMem false 2147483648 4096))
      (.step (.write false 2147483648 b) hr ⟨hrunning, by decide⟩ (congrArg (Option.map u.setMem) hv)) ⟨hrange, trivial, trivial⟩
      (congrArg (Option.map (u.setMem v).setMem) hv₁)
  obtain ⟨heq, hothers⟩ := UserMem.writeByte_data hm hm'
  have hdata : m₁.data = m.data := UserMem.freeUserMem_data hm₁
  have hcopy : m₁' = m₁.withData m'.data := by
    rw [heq, UserMem.freeUserMem_withData, hm₁] at hm₁'
    exact (Option.some.inj hm₁').symm
  have hdata' : m₁'.data = m'.data := by rw [hcopy]; rfl
  have hi := UserInv.reach (by decide) (by decide) (by decide) hboot (hfreed hm hm₁)
  obtain ⟨⟨tables, hinv⟩, -⟩ := hi.mem.walk
  obtain ⟨F, ha⟩ := hinv.accounts
  have hhead : F.head? = some (u.mem.run.paging.page false 2147483648).frame := (ha.free.first ()).symm.trans hfree
  refine ⟨start r₀ {}, u.setMem m₁, u.setMem m₁', t, hboot, hfreed hm hm₁, hfreed hm' hm₁', ⟨F, ha.free, fun f hf => ?_⟩, ?_,
    ⟨⟨hrunning', by decide⟩, ht, by decide, hunmapped, Option.isNone_iff_eq_none.mp habsent, hmapped⟩, h₇, h₈⟩
  · show m₁'.data f = m₁.data f
    rw [hdata, hdata', hothers f fun heq => hf (heq ▸ List.mem_of_mem_head? hhead)]
  · exact congrArg u.setMem (hcopy.trans (congrArg m₁.withData hdata'.symm))

end KernelRun

end Fos.Trap
