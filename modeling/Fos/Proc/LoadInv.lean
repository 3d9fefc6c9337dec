import Fos.Proc.Load
import Fos.Trap.FaultInv

/-! What the loader changes: every page of a segment that is mapped gets a new frame and an element of the working set. -/

namespace Fos.Mem
open Lib Heap Disk Frames

namespace Paging

variable {D : Type} [DecidableEq D] {all : List PageNo} {boot : PageNo → Nat} {handed : List PageNo} {live tables : List Nat}
  {s s' : Paging D} {f t : PageNo} {va : Nat} {perm : BitVec 12} {dir : D}

omit [DecidableEq D] in
/-- On an empty entry `loadtime_map_frame` differs from `map_frame` only in the `va` field of the frame, which it leaves. -/
theorem loadtimeMapFrameIn_eq (h : s.heap.mem.pte (.user t (ptx va)) = {}) : s.loadtimeMapFrameIn t f va perm =
    { s with heap := { s.heap with mem := s.heap.mem.install (.user t (ptx va)) f (s.heap.mem.va f) perm } } := by
  unfold loadtimeMapFrameIn install
  rw [h, Function.update_eq_self]
  have hperm : ({} : Pte).perm &&& permAvailable ||| perm = perm := by
    show (0#12 &&& permAvailable) ||| perm = perm
    rw [BitVec.zero_and, BitVec.zero_or]
  rw [hperm]

omit [DecidableEq D] in
theorem Inv.loadtimeMapFrameIn (hi : Inv all boot handed live tables s) (hl : s.Linked) (ht : s.pde dir (pdx va) = some t)
    (hempty : s.heap.mem.pte (.user t (ptx va)) = {}) (hf : f ∈ handed) (hperm : perm.getLsbD 9 = false) :
    Inv all boot (handed.erase f) live tables (s.loadtimeMapFrameIn t f va perm) ∧ (s.loadtimeMapFrameIn t f va perm).Linked ∧
      Writes s (s.loadtimeMapFrameIn t f va perm) dir va ⟨f, perm ||| permPresent⟩ := by
  obtain ⟨F, ha⟩ := hi.accounts
  obtain ⟨hall, hnone⟩ := ha.out_mem f hf
  have hfree : f ∉ F := fun hmem => ((ha.mem f).mp hmem).2.1 hf
  have hc : s.heap.mem.hold (.user t (ptx va)) = none := by
    rw [hold_eq_none, hempty]
    rfl
  have hva : kernelHeapStart ≤ s.heap.mem.va f → Slot.user t (ptx va) = .kernel (pageNo (s.heap.mem.va f)) :=
    fun hle => absurd (ha.located f hle) (hnone _)
  have hnocount : (holders s.heap.mem.hold f).ncard < 65535 := by
    rw [holders_eq_empty.mpr hnone, Set.ncard_empty]
    decide
  have ha' := ha.install hc hall hfree hnocount hperm hva
  have hpte : s.heap.mem.install (.user t (ptx va)) f (s.heap.mem.va f) perm = (s.loadtimeMapFrameIn t f va perm).heap.mem := by
    rw [loadtimeMapFrameIn_eq hempty]
  rw [loadtimeMapFrameIn_eq hempty]
  refine ⟨hi.setMem ha' (fun p => ?_) fun x i hne => ?_, hl.of_mem (hl.rooted.install_user fun p => hnone _), ?_⟩
  · rw [hold_install, Function.update_of_ne (show Slot.kernel p ≠ .user t (ptx va) from nofun)]
  · by_cases hx : Slot.user x i = .user t (ptx va)
    · cases hx
      exact hi.table _ _ _ ht
    · rw [hold_install, Function.update_of_ne hx] at hne
      exact hi.entry x i hne
  · have hwrites := writes_of_pte (m := s.heap.mem.install (.user t (ptx va)) f (s.heap.mem.va f) perm) hl ht
      fun x hx => Function.update_of_ne hx ..
    have hself : (s.heap.mem.install (.user t (ptx va)) f (s.heap.mem.va f) perm).pte (.user t (ptx va)) =
        ⟨f, perm ||| permPresent⟩ := by
      rw [hpte]
      exact Function.update_self ..
    rw [hself] at hwrites
    exact hwrites

end Paging

namespace PagingRun

variable {D : Type} [DecidableEq D] {all : List PageNo} {boot : PageNo → Nat} {r : PagingRun D} {p : Paging D} {f : PageNo}
  {va : Nat} {perm : BitVec 12} {dir : D}

/-- `loadtime_map_frame` of a frame that was handed out, on an empty page -/
theorem WalkInv.loadtimeMapFrame (h : r.WalkInv all boot) (hf : f ∈ r.handed) (hempty : r.paging.page dir va = {})
    (hperm : perm.getLsbD 9 = false) (hs : r.paging.loadtimeMapFrame dir f va perm = some p) :
    WalkInv all boot { r with paging := p, handed := r.handed.erase f } ∧
      Paging.Writes r.paging p dir va ⟨f, perm ||| permPresent⟩ := by
  obtain ⟨⟨tables, hi⟩, hl⟩ := h
  unfold Paging.loadtimeMapFrame at hs
  rw [hi.getPageTable_eq hl, Option.bind_some] at hs
  cases ht : r.paging.pde dir (pdx va) with
  | some t =>
    rw [ht] at hs
    cases hs
    rw [Paging.page_of_some ht] at hempty
    obtain ⟨hi', hl', hwrites⟩ := hi.loadtimeMapFrameIn hl ht hempty hf hperm
    exact ⟨⟨⟨tables, hi'⟩, hl'⟩, hwrites⟩
  | none =>
    rw [ht] at hs
    obtain ⟨⟨s₁, t⟩, hs₁, rfl⟩ := Option.map_eq_some_iff.mp hs
    obtain ⟨hcreated, hl₁⟩ := hi.created hl hs₁
    obtain ⟨ptr, hi₁, ht₁, -⟩ := hi.createPageTable hs₁
    obtain ⟨hi', hl', hwrites⟩ := hi₁.loadtimeMapFrameIn hl₁ ht₁ (hcreated.clear _) hf hperm
    refine ⟨⟨⟨_, hi'⟩, hl'⟩, hwrites.self, fun d q hne => ?_⟩
    rw [hwrites.others d q hne, hcreated.page ht]

end PagingRun

namespace UserMem

variable {E : Type} [DecidableEq E] {all : List PageNo} {boot : PageNo → Nat} {s t u : UserMem E} {e : E} {va wse : Nat}

/-- A page of `e` was mapped to the new frame `f` and got the element `wse`. -/
structure Prepaged (all : List PageNo) (boot : PageNo → Nat) (e : E) (va : Nat) (f : PageNo) (wse : Nat) (entry : Pte)
    (s t : UserMem E) : Prop where
  walk : t.run.WalkInv all boot
  fresh : ∀ c, s.run.hold c ≠ some f
  page : Paging.Writes s.run.paging t.run.paging e va entry
  handed : t.run.handed = s.run.handed
  live : t.run.live = wse :: s.run.live
  block : wse < 4160749568
  ws : t.ws = Function.update s.ws e (((s.ws e).setElement wse { virtualAddress := va }).insertLoaded wse)

/-- The frame that `allocate_frame` and `loadtime_map_frame` map at an empty page. -/
theorem loadtime_spec {r : PagingRun E} {p : Paging E} {f : PageNo} {perm : BitVec 12} (h : s.run.WalkInv all boot)
    (hempty : s.run.paging.page e va = {}) (hperm : perm.getLsbD 9 = false) (hr : s.run.allocateFrame = some (r, f))
    (hp : r.paging.loadtimeMapFrame e f va perm = some p) :
    PagingRun.WalkInv all boot { r with paging := p, handed := r.handed.erase f } ∧ (∀ c, s.run.hold c ≠ some f) ∧
      Paging.Writes s.run.paging p e va ⟨f, perm ||| permPresent⟩ ∧ r.handed.erase f = s.run.handed ∧ r.live = s.run.live := by
  obtain ⟨h₁, hpage, hhanded, hfree, hhold⟩ := h.allocateFrame hr
  obtain ⟨h₂, hwrites⟩ := h₁.loadtimeMapFrame (hhanded ▸ List.mem_cons_self ..) (hpage ▸ hempty) hperm hp
  have hlive : r.live = s.run.live := by
    obtain ⟨x, -, hx⟩ := Option.map_eq_some_iff.mp hr
    cases hx
    rfl
  refine ⟨h₂, hhold ▸ hfree, ⟨hwrites.self, fun d q hne => ?_⟩, ?_, hlive⟩
  · rw [hwrites.others d q hne, hpage]
  · rw [hhanded, List.erase_cons_head]

theorem mapSegmentPage_spec (h : s.run.WalkInv all boot) (halign : va % 4096 = 0) (hempty : s.run.paging.page e va = {})
    (hs : mapSegmentPage e s va = some t) :
    (∃ f wse, Prepaged all boot e va f wse ⟨f, permUser ||| permWriteable ||| permPresent⟩ s t) ∧ t.disk = s.disk ∧
      t.data = s.data := by
  obtain ⟨⟨r, f⟩, hr, hs⟩ := Option.bind_eq_some_iff.mp hs
  obtain ⟨p, hp, hs⟩ := Option.bind_eq_some_iff.mp hs
  obtain ⟨⟨u, wse⟩, hu, rfl⟩ := Option.map_eq_some_iff.mp hs
  obtain ⟨h₁, hfresh, hwrites, hhanded, hlive⟩ := loadtime_spec h hempty (by decide) hr hp
  obtain ⟨r', h₂, hpage, hhanded₂, hlive₂, hblock, rfl⟩ := createElement_spec (s := s.setRun _) h₁ halign hu
  refine ⟨⟨f, wse, h₂, hfresh, ⟨?_, fun d q hne => ?_⟩, hhanded₂.trans hhanded, ?_, hblock, ?_⟩, rfl, rfl⟩
  · show r'.paging.page e va = _
    rw [hpage]
    exact hwrites.self
  · show r'.paging.page d q = _
    rw [hpage]
    exact hwrites.others d q hne
  · show r'.live = _
    rw [hlive₂]
    exact congrArg (wse :: ·) hlive
  · unfold setWs
    dsimp only
    rw [Function.update_self, Function.update_idem]
    rfl

omit [DecidableEq E] in
/-- The kernel writes a page that is mapped. -/
theorem writeUserPage_spec {content : Page → Page} (h : s.run.WalkInv all boot) (hs : s.writeUserPage e va content = some t) :
    t.run.WalkInv all boot ∧ SameWs s t ∧ t.run.hold = s.run.hold ∧ t.disk = s.disk ∧ (s.run.paging.page e va).present ∧
      Paging.Writes s.run.paging t.run.paging e va
        ⟨(s.run.paging.page e va).frame, (s.run.paging.page e va).perm ||| (permUsed ||| permModified)⟩ ∧
      t.data = Function.update s.data (s.run.paging.page e va).frame (content (s.data (s.run.paging.page e va).frame)) := by
  obtain ⟨hpresent, hs⟩ := Option.ite_none_right_eq_some.mp hs
  obtain ⟨r, hr, rfl⟩ := Option.map_eq_some_iff.mp hs
  obtain ⟨hwalk, hwrites, hhold, hhanded, hlive⟩ := h.ptSetPagePermissions ⟨by decide, by decide⟩ (by decide) hr
  refine ⟨hwalk, ⟨rfl, hhanded, hlive⟩, hhold, rfl, hpresent, ?_, rfl⟩
  have hones : ∀ x : BitVec 12, x &&& ~~~ (0 : BitVec 12) = x := fun x => by
    show x &&& BitVec.allOnes 12 = x
    exact BitVec.and_allOnes
  rw [hones] at hwrites
  exact hwrites

/-! ### What leaves the working sets alone -/

omit [DecidableEq E] in
theorem clearPermissions_ws {perm : BitVec 12} (hs : s.clearPermissions e va perm = some t) : t.ws = s.ws := by
  obtain ⟨r, -, rfl⟩ := Option.map_eq_some_iff.mp hs
  rfl

omit [DecidableEq E] in
theorem writeUserPage_ws {content : Page → Page} (hs : s.writeUserPage e va content = some t) : t.ws = s.ws := by
  obtain ⟨-, hs⟩ := Option.ite_none_right_eq_some.mp hs
  obtain ⟨r, -, rfl⟩ := Option.map_eq_some_iff.mp hs
  rfl

omit [DecidableEq E] in
/-- A loop whose rounds leave the working sets alone. -/
theorem exec_ws {α : Type} {step : UserMem E → α → Option (UserMem E)} {l : List α} (hstep : ∀ s x t, step s x = some t → t.ws = s.ws)
    (hs : exec step s l = some t) : t.ws = s.ws :=
  exec_keeps (I := fun t => t.ws = s.ws) hs (fun _ _ _ h hs => (hstep _ _ _ hs).trans h) rfl

end UserMem

end Fos.Mem
