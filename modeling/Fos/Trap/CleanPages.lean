import Fos.Trap.ProcessHeap

/-! Pages of a process that are neither mapped nor marked. The process cannot get at them: the fault handler ends it, and what
    others do leaves them as they are. -/

namespace Fos.Mem
open Lib Heap Disk Frames

/-! ### Regions of the page allocator -/

/-- The part of the user heap where the page allocator works. -/
def InPageHeap (q : Nat) : Prop := 2181042176 ≤ q ∧ q < userHeapMax

theorem mem_pagesOf {va n p : Nat} (ha : va % 4096 = 0) (hn : n % 4096 = 0) (hend : va + n ≤ userHeapMax) :
    p ∈ pagesOf va n ↔ ∃ i < n / 4096, p = va + i * 4096 := by
  simp only [userHeapMax] at hend
  have hdown : roundDown va pageSize = va := by
    simp only [roundDown, pageSize]
    omega
  have hlength : (roundUp (u32 (va + n)) pageSize - va) / pageSize = n / 4096 := by
    rw [u32_of_lt (by omega)]
    simp only [roundUp, roundDown, pageSize, u32]
    omega
  unfold pagesOf
  rw [hdown, hlength, mem_pagesFrom (by omega)]

/-- The pages of a region of the page allocator. -/
theorem InPageHeap.of_mem {va n p : Nat} (hlow : 2181042176 ≤ va) (ha : va % 4096 = 0) (hn : n % 4096 = 0) (hend : va + n ≤ userHeapMax)
    (hp : p ∈ pagesOf va n) : InPageHeap p := by
  obtain ⟨i, hi, rfl⟩ := (mem_pagesOf ha hn hend).mp hp
  exact ⟨by omega, by omega⟩

theorem InPageHeap.lt {q : Nat} (h : InPageHeap q) : q < 2684354560 := h.2

theorem InPageHeap.lt_userTop {q : Nat} (h : InPageHeap q) : q < userTop := lt_trans h.2 (by decide)

/-- Two pages of the heap are the same one when one number is that of both. -/
theorem InPageHeap.of_samePage {q va : Nat} (h : InPageHeap q) (hva : va < 4294967296) (hsame : Paging.SamePage va q) : InPageHeap va := by
  have hlt := h.lt
  rw [samePage_iff hva (by omega)] at hsame
  obtain ⟨hlow, -⟩ := h
  exact ⟨by omega, by simp only [userHeapMax]; omega⟩

namespace Paging

variable {D : Type} [DecidableEq D] {all : List PageNo} {boot : PageNo → Nat} {handed : List PageNo} {live tables : List Nat}
  {s s' : Paging D} {va : Nat} {dir : D}

omit [DecidableEq D] in
/-- `get_frame_info` finds the frame of a page that is mapped. -/
theorem Inv.getFrameInfo_eq (hi : Inv all boot handed live tables s) (hl : s.Linked) (dir : D) (va : Nat) :
    s.getFrameInfo dir va = some (if (s.page dir va).present then some (s.page dir va).frame else none) := by
  unfold Paging.getFrameInfo
  rw [hi.getPageTable_eq hl, Option.bind_some]
  cases ht : s.pde dir (pdx va) with
  | none =>
    rw [page_of_none ht]
    rfl
  | some t =>
    obtain ⟨F, ha⟩ := hi.accounts
    rw [page_of_some ht]
    exact ha.getFrameInfo _

/-- The loop of `allocate_user_mem` maps no frame in a table that no directory entry names. -/
theorem Inv.overwritePages_grows {ps : List Nat} (hi : ∃ all boot tables, Inv all boot handed live tables s) (hl : s.Linked)
    (hsole : ∀ p ∈ ps, s.Sole dir p) (hrange : ∀ p ∈ ps, p < userTop) (hs : exec (Paging.markPage dir) s ps = some s') :
    Grows s s' := by
  induction ps generalizing s with
  | nil =>
    cases hs
    exact .refl _
  | cons p ps ih =>
    obtain ⟨s₁, hs₁, hs⟩ := exec_cons.mp hs
    obtain ⟨all, boot, tables, hi⟩ := hi
    obtain ⟨hi₁, hl₁, hwrites, hsub⟩ := hi.overwritePage hl (hsole p (List.mem_cons_self ..)) hs₁
    have hcall : PagingRun.Call (D := D) { paging := s, handed := handed, live := live } { paging := s₁, handed := handed, live := live } :=
      .markPage (hrange p (List.mem_cons_self ..)) hs₁
    exact (hcall.grows ⟨⟨tables, hi⟩, hl⟩).trans (ih hi₁ hl₁ (fun q hq => hwrites.sole hsub (hsole q (List.mem_cons_of_mem _ hq)))
      (fun q hq => hrange q (List.mem_cons_of_mem _ hq)) hs)

end Paging

namespace UserMem

variable {E : Type} [DecidableEq E] {all : List PageNo} {boot : PageNo → Nat} {s t u : UserMem E} {d e : E} {va v q : Nat} {f : PageNo}
  {o : Outcome}

/-! ### What leaves a page alone -/

/-- A page that is clean stays so, and a frame that is mapped at one page only is not mapped at another one. -/
structure Leaves (e : E) (q : Nat) (s t : UserMem E) : Prop where
  clean : s.Clean e q → t.Clean e q
  alone : s.Alone e q → t.Alone e q

omit [DecidableEq E] in
theorem Leaves.refl (s : UserMem E) : Leaves e q s s := ⟨id, id⟩

omit [DecidableEq E] in
theorem Leaves.trans (h : Leaves e q s t) (h' : Leaves e q t u) : Leaves e q s u := ⟨h'.clean ∘ h.clean, h'.alone ∘ h.alone⟩

omit [DecidableEq E] in
theorem Clean.of_page (h : s.Clean e q) (hpage : t.run.paging.page e q = s.run.paging.page e q) : t.Clean e q :=
  ⟨by rw [hpage]; exact h.unmapped, by rw [hpage]; exact h.unmarked⟩

omit [DecidableEq E] in
theorem Alone.mono (h : s.Alone e q) (hsub : ∀ d x f, t.run.paging.Maps d x f → s.run.paging.Maps d x f) : t.Alone e q :=
  fun f d x hm hm' => h f d x (hsub _ _ _ hm) (hsub _ _ _ hm')

omit [DecidableEq E] in
/-- The mappings and the marks are as before. -/
theorem leaves_of_bits (h : ∀ d x, (t.run.paging.page d x).frame = (s.run.paging.page d x).frame ∧
    (t.run.paging.page d x).perm.getLsbD 0 = (s.run.paging.page d x).perm.getLsbD 0 ∧
    (t.run.paging.page d x).perm.getLsbD 10 = (s.run.paging.page d x).perm.getLsbD 10) : Leaves e q s t := by
  have hpresent : ∀ d x, (t.run.paging.page d x).present = (s.run.paging.page d x).present := by
    intro d x
    rw [Bool.eq_iff_iff, present_iff, present_iff, (h d x).2.1]
  exact ⟨fun hc => ⟨(hpresent e q).trans hc.unmapped, (h e q).2.2.trans hc.unmarked⟩,
    fun ha => ha.congr (maps_congr fun d x => ⟨hpresent d x, (h d x).1⟩)⟩

omit [DecidableEq E] in
theorem Aged.leaves (h : Aged all boot d s t) : Leaves e q s t :=
  leaves_of_bits fun x y => ⟨(h.page x y).1, (h.page x y).2 0 (by decide), (h.page x y).2 10 (by decide)⟩

omit [DecidableEq E] in
theorem Renamed.leaves {wse : Nat} (h : Renamed all boot d va wse s t) : Leaves e q s t :=
  leaves_of_bits fun x y => ⟨(h.page x y).1, (h.page x y).2 0 (by decide), (h.page x y).2 10 (by decide)⟩

omit [DecidableEq E] in
theorem Accessed.leaves (h : Accessed s t) : Leaves e q s t :=
  leaves_of_bits fun x y =>
    ⟨(h.page x y).1, (h.page x y).2 0 (by decide) (by decide), (h.page x y).2 10 (by decide) (by decide)⟩

omit [DecidableEq E] in
theorem leaves_of_page (h : t.run.paging.page = s.run.paging.page) : Leaves e q s t :=
  leaves_of_bits fun _ _ => by rw [h]; exact ⟨rfl, rfl, rfl⟩

theorem Evicted.leaves (h : Evicted d va s t) : Leaves e q s t := by
  refine ⟨fun hc => ?_, fun ha => ha.drops h.drops⟩
  obtain ⟨p, hp, hbits, hwrites⟩ := h.page
  by_cases hsame : e = d ∧ Paging.SamePage q va
  · obtain ⟨rfl, hpage⟩ := hsame
    refine ⟨?_, ?_⟩
    · rw [Paging.page_samePage hpage, hwrites.self]
      exact hp
    · rw [Paging.page_samePage hpage, hwrites.self, hbits 10 (by decide), ← Paging.page_samePage hpage]
      exact hc.unmarked
  · exact hc.of_page (hwrites.others e q hsame)

omit [DecidableEq E] in
theorem Loaded.leaves (h : Loaded d va f s t o) (hunmapped : (s.run.paging.page d va).present = false)
    (hne : ¬ (e = d ∧ Paging.SamePage q va)) : Leaves e q s t :=
  ⟨fun hc => hc.of_page (h.page.others e q hne), fun ha => ha.gains (h.gains hunmapped) (fresh_maps h.fresh)⟩

/-! ### Faults -/

omit [DecidableEq E] in
theorem Placed.leaves (h : Placed all boot d va s t o) (hunmapped : (s.run.paging.page d va).present = false)
    (hne : ¬ (e = d ∧ Paging.SamePage q va)) : Leaves e q s t := by
  obtain ⟨u, f, hloaded, ⟨-, rfl⟩ | ⟨-, wse, hadded⟩⟩ := h
  · exact hloaded.leaves hunmapped hne
  · exact (hloaded.leaves hunmapped hne).trans (leaves_of_page hadded.page)

/-- The page of the fault is mapped to a new frame. -/
theorem Replaced.alone (h : Replaced all boot d va s t o) (hunmapped : (s.run.paging.page d va).present = false)
    (ha : s.Alone e q) : t.Alone e q := by
  obtain ⟨wse, -, s₁, s₂, s₃, f, haged, -, hevicted, -, hloaded, -, hcases⟩ := h
  have hunmapped₂ : (s₂.run.paging.page d va).present = false := hevicted.unmapped ((haged.page d va).present.trans hunmapped)
  have h₃ : s₃.Alone e q := (hevicted.leaves.alone (haged.leaves.alone ha)).gains (hloaded.gains hunmapped₂) (fresh_maps hloaded.fresh)
  obtain ⟨-, rfl⟩ | ⟨-, hrenamed⟩ := hcases
  · exact h₃
  · exact hrenamed.leaves.alone h₃

theorem Replaced.leaves (h : Replaced all boot d va s t o) (hunmapped : (s.run.paging.page d va).present = false)
    (hne : ¬ (e = d ∧ Paging.SamePage q va)) : Leaves e q s t := by
  refine ⟨fun hc => ?_, h.alone hunmapped⟩
  obtain ⟨wse, -, s₁, s₂, s₃, f, haged, -, hevicted, -, hloaded, -, hcases⟩ := h
  have hunmapped₂ : (s₂.run.paging.page d va).present = false := hevicted.unmapped ((haged.page d va).present.trans hunmapped)
  have h₃ : s₃.Clean e q := (hloaded.leaves hunmapped₂ hne).clean (hevicted.leaves.clean (haged.leaves.clean hc))
  obtain ⟨-, rfl⟩ | ⟨-, hrenamed⟩ := hcases
  · exact h₃
  · exact hrenamed.leaves.clean h₃

/-! ### Regions of others -/

omit [DecidableEq E] in
/-- Pages that are not in `ps` are as before, and those in `ps` are not mapped. -/
theorem Alone.of_pages {ps : List Nat} (ha : s.Alone e q) (hgone : ∀ p ∈ ps, (t.run.paging.page d p).present = false)
    (hothers : ∀ x y, (∀ p ∈ ps, ¬ (x = d ∧ Paging.SamePage y p)) → t.run.paging.page x y = s.run.paging.page x y) : t.Alone e q := by
  refine ha.mono fun x y f hm => ?_
  by_cases hin : ∃ p ∈ ps, x = d ∧ Paging.SamePage y p
  · obtain ⟨p, hp, rfl, hsame⟩ := hin
    unfold Paging.Maps at hm
    rw [Paging.page_samePage hsame, hgone p hp] at hm
    exact absurd hm.1 (by decide)
  · unfold Paging.Maps
    rw [← hothers x y fun p hp h => hin ⟨p, hp, h⟩]
    exact hm

omit [DecidableEq E] in
theorem leaves_of_pages {ps : List Nat} (hgone : ∀ p ∈ ps, (t.run.paging.page d p).present = false)
    (hothers : ∀ x y, (∀ p ∈ ps, ¬ (x = d ∧ Paging.SamePage y p)) → t.run.paging.page x y = s.run.paging.page x y)
    (hne : e ≠ d) : Leaves e q s t :=
  ⟨fun hc => hc.of_page (hothers e q fun _ _ h => hne h.1), fun ha => ha.of_pages hgone hothers⟩

theorem envPageWsInvalidate_leaves (h : MemInv all boot s) (hne : e ≠ d) (hs : s.envPageWsInvalidate d va = some t) : Leaves e q s t := by
  obtain ⟨-, rfl⟩ | ⟨wse, hsame, hinv⟩ := envPageWsInvalidate_spec h hs
  · exact .refl _
  · exact ⟨fun hc => hc.of_page (hinv.page.others e q fun hx => hne hx.1), fun ha => ha.drops hinv.drops⟩

/-! ### Requests of the library -/

omit [DecidableEq E] in
/-- One entry holds a frame that is mapped at one page. -/
theorem Alone.sole (h : s.Alone e q) (hwalk : s.run.WalkInv all boot) (hattached : s.run.paging.Attached) : s.run.paging.Sole e q := by
  intro hpresent
  have hm : s.run.paging.Maps e q (s.run.paging.page e q).frame := ⟨hpresent, rfl⟩
  exact (hattached.ncard_holders (hm.notKernel hwalk.2) hm fun d x => h _ d x hm).le

/-- `allocate_user_mem` of pages whose frames are mapped nowhere else. -/
theorem allocateUserMem_grows {size : Nat} (h : s.run.WalkInv all boot) (hsole : ∀ p ∈ pagesOf va size, s.run.paging.Sole e p)
    (hrange : ∀ p ∈ pagesOf va size, p < userTop) (hs : s.allocateUserMem e va size = some t) :
    Paging.Grows s.run.paging t.run.paging := by
  obtain ⟨p, hp, rfl⟩ := Option.map_eq_some_iff.mp hs
  obtain ⟨⟨tables, hi⟩, hl⟩ := h
  exact Paging.Inv.overwritePages_grows ⟨all, boot, tables, hi⟩ hl hsole hrange hp

/-- What `alloc_page` does to the memory. -/
structure PageAllocated (all : List PageNo) (boot : PageNo → Nat) (e : E) (va : Nat) (s t : UserMem E) : Prop where
  mem : MemInv all boot t
  ws : t.ws = s.ws
  made : Made all boot s t
  others : ∀ d q, ¬ (d = e ∧ Paging.SamePage q va) → t.run.paging.page d q = s.run.paging.page d q
  alone : ∀ d q, s.Alone d q → t.Alone d q

theorem allocPage_spec {perms : BitVec 12} {fresh : Bool} (h : MemInv all boot s) (hva : va < userTop)
    (hperm : perms &&& permBuffered = 0) (hs : s.allocPage e va perms = some (t, fresh)) : PageAllocated all boot e va s t := by
  obtain ⟨⟨tables, hi⟩, hl⟩ := h.walk
  obtain ⟨r, hr, hs⟩ := Option.bind_eq_some_iff.mp hs
  rw [hi.getFrameInfo_eq hl] at hr
  cases r with
  | some f =>
    cases hs
    exact ⟨h, rfl, .refl _, fun _ _ _ => rfl, fun _ _ => id⟩
  | none =>
    have hunmapped : (s.run.paging.page e va).present = false := by
      by_contra hpresent
      rw [if_pos (eq_true_of_ne_false hpresent)] at hr
      cases hr
    obtain ⟨⟨r₁, f⟩, hr₁, hs⟩ := Option.bind_eq_some_iff.mp hs
    obtain ⟨r₂, hr₂, hs⟩ := Option.bind_eq_some_iff.mp hs
    obtain ⟨u, hu, heq⟩ := Option.map_eq_some_iff.mp hs
    cases heq
    obtain ⟨h₁, hpage, hhanded, hfree, hhold⟩ := h.walk.allocateFrame hr₁
    obtain ⟨h₂, hwrites, hhanded₂, hlive₂⟩ := h₁.mapFrame hva (.inl (hhanded ▸ List.mem_cons_self ..)) (fun p => hfree (.kernel p))
      (by rw [holders_eq_empty.mpr hfree, Set.ncard_empty]; decide) hperm hr₂
    have hlive₁ : r₁.live = s.run.live := by
      obtain ⟨x, -, hx⟩ := Option.map_eq_some_iff.mp hr₁
      cases hx
      rfl
    have hws : SameWs s (s.setRun r₂) := by
      refine ⟨rfl, ?_, hlive₂.trans hlive₁⟩
      show r₂.handed = _
      rw [hhanded₂, hhanded, List.erase_cons_head]
    obtain ⟨h₃, htouched, -⟩ := writeUserPage_touched (s := s.setRun r₂) h₂ hu
    obtain ⟨-, -, -, -, -, hwrites₃, -⟩ := writeUserPage_spec (s := s.setRun r₂) h₂ hu
    have hgains : Gains e va f s (s.setRun r₂) := by
      obtain ⟨hpresent, hframe⟩ := Paging.mappedPte_present (r₁.paging.page e va) f perms
      have hwrites₀ : Paging.Writes s.run.paging r₂.paging e va (Paging.mappedPte (r₁.paging.page e va) f perms) :=
        ⟨hwrites.self, fun d x hne => by rw [hwrites.others d x hne, hpage]⟩
      have hgains := gains_of_writes (s := s) (t := s.setRun r₂) hwrites₀ hpresent hunmapped
      rwa [hframe] at hgains
    refine ⟨h.sameWs h₃ ⟨htouched.ws.trans hws.ws, htouched.handed.trans hws.handed, htouched.live.trans hws.live⟩,
      htouched.ws, ?_, fun d q hne => ?_, fun d q ha => ?_⟩
    · have hmapped : Made all boot s (s.setRun r₂) := .tail (.single h.walk (.allocateFrame hr₁)) h₁ (.mapFrame hva hr₂)
      exact hmapped.trans (writeUserPage_made (s := s.setRun r₂) h₂ hu)
    · exact (hwrites₃.others d q hne).trans ((hwrites.others d q hne).trans (by rw [hpage]))
    · exact (ha.gains hgains (fresh_maps fun c => hhold ▸ hfree c)).congr htouched.maps

/-- `get_page` and `return_page` change only the page that they are called for. -/
theorem heapPages_local (e : E) : (heapPages e).Local where
  getPage := by
    intro w m va w' m' hs a ha
    obtain ⟨-, hs⟩ := Option.ite_none_right_eq_some.mp hs
    obtain ⟨⟨u, fresh⟩, -, heq⟩ := Option.map_eq_some_iff.mp hs
    cases heq
    split
    case isTrue =>
      refine if_neg ?_
      simp only [roundDown, pageSize]
      omega
    case isFalse => rfl
  returnPage := by
    intro w m va w' m' hs a _
    obtain ⟨-, hs⟩ := Option.ite_none_right_eq_some.mp hs
    obtain ⟨r, -, heq⟩ := Option.map_eq_some_iff.mp hs
    cases heq
    rfl

end UserMem

end Fos.Mem

namespace Fos.Trap
open Lib Heap Disk Mem

namespace Kernel

variable {E : Type} [DecidableEq E] {all : List PageNo} {boot : PageNo → Nat} {s t : Kernel E} {d e : E} {q va : Nat} {userTrap : Bool}
  {o : Outcome}

omit [DecidableEq E] in
/-- A fault in user mode at a clean page of the heap is at an invalid pointer. -/
theorem invalidPointer_of_clean (hclean : s.mem.Clean e va) (hva : InPageHeap va) :
    invalidPointer (s.mem.run.paging.page e va).perm va = true := by
  refine decide_eq_true (.inl ⟨?_, hva.2, ?_⟩)
  · have hlow := hva.1
    simp only [userHeapStart]
    omega
  · by_contra hmark
    have hbit := (Paging.and_twoPow_ne_zero _ 10 (by decide)).mp hmark
    exact Bool.false_ne_true (hclean.unmarked.symm.trans hbit)

theorem faultHandler_leaves (h : s.mem.MemInv all boot) (hhand : s.mem.HandIn d) (hva : va < 4294967296) (hq : InPageHeap q)
    (huser : d = e → userTrap = true) (hs : s.faultHandler d userTrap va = some (t, o)) : UserMem.Leaves e q s.mem t.mem := by
  rcases faultHandler_cases hs with ⟨hmade, -⟩ | ⟨heq, -⟩ | hserved
  · obtain ⟨-, -, hpage, -, -⟩ := hmade.spec h
    exact UserMem.leaves_of_page hpage
  · rw [heq]
    exact .refl _
  · obtain ⟨hunmapped, -, -, hcases⟩ := hserved.spec h.walk hhand
    -- The page of a fault that is served is not clean.
    have hne : s.mem.Clean e q → ¬ (e = d ∧ Paging.SamePage q (roundDown va pageSize)) := by
      rintro hclean ⟨rfl, hsame⟩
      have hpage : Paging.SamePage va q := (hsame.trans (samePage_roundDown va)).symm
      have hclean : s.mem.Clean e va := by
        refine ⟨?_, ?_⟩
        · rw [Paging.page_samePage hpage]
          exact hclean.unmapped
        · rw [Paging.page_samePage hpage]
          exact hclean.unmarked
      obtain ⟨perms, hperms, hvalid, -⟩ := hserved.perms
      rw [UserMem.permissions_of_table h.walk hserved.table] at hperms
      cases hperms
      exact hvalid ⟨huser rfl, invalidPointer_of_clean hclean (hq.of_samePage hva hpage)⟩
    rcases hcases with ⟨-, hplaced, -⟩ | hreplaced
    · exact ⟨fun hclean => (hplaced.leaves hunmapped (hne hclean)).clean hclean, (hplaced.caches hunmapped).alone e q⟩
    · exact ⟨fun hclean => (hreplaced.leaves hunmapped (hne hclean)).clean hclean, hreplaced.alone hunmapped⟩

/-- A page fault with the clock tick before it. -/
theorem pageFaultTrap_leaves (h : s.mem.MemInv all boot) (hhand : s.mem.HandIn d) (hva : va < 4294967296) (hq : InPageHeap q)
    (huser : d = e → userTrap = true) (hs : s.pageFaultTrap d userTrap va = some (t, o)) : UserMem.Leaves e q s.mem t.mem := by
  obtain ⟨u, hu, hs⟩ := Option.bind_eq_some_iff.mp hs
  split at hu
  case isTrue =>
    obtain ⟨m, hm, rfl⟩ := Option.map_eq_some_iff.mp hu
    obtain ⟨haged, -⟩ := UserMem.updateTimeStamps_spec h.walk hm
    exact haged.leaves.trans
      (faultHandler_leaves (s := s.setMem m) (h.aged haged) (hhand.updateTimeStamps h.walk hm) hva hq huser hs)
  case isFalse =>
    cases hu
    exact faultHandler_leaves h hhand hva hq huser hs

/-- A user fault at a clean page of the heap that has a table ends the environment. -/
theorem faultHandler_clean (h : s.mem.run.WalkInv all boot) (hclean : s.mem.Clean e va) (hva : InPageHeap va)
    (htable : s.mem.run.paging.pde e (pdx va) ≠ none) (hthird : ¬ s.Third e va) : ∃ t, s.faultHandler e true va = some (t, .exit) := by
  obtain ⟨table, hx⟩ := Option.ne_none_iff_exists'.mp htable
  have hstack : s.stackFault e true va = false := by
    have hlt : va < ustacktop := lt_trans hva.lt (by decide)
    exact decide_eq_false fun hin => absurd hin.1 (not_le.mpr hlt)
  have hcount : (if s.repeats e va then s.numRepeatedFault + 1 else 0) ≠ 3 := by
    split
    case isTrue hrepeats => exact fun heq => hthird ⟨hrepeats, by omega⟩
    case isFalse => exact Nat.zero_ne_add_one 2
  have hentry : s.entry e (pdx va) = some table := (entry_user hva.lt_userTop).trans hx
  have hinvalid := invalidPointer_of_clean hclean hva
  unfold faultHandler
  rw [if_neg (by rw [hstack]; simpa using hcount)]
  generalize (if s.repeats e va then s.numRepeatedFault + 1 else 0) = n
  refine ⟨{ s with lastFaultVa := va, lastFaultedEnv := some e, numRepeatedFault := n }, ?_⟩
  have hperms : UserMem.permissions s.mem e va = some (s.mem.run.paging.page e va).perm := UserMem.permissions_of_table h htable
  dsimp only
  rw [show ({ s with lastFaultVa := va, lastFaultedEnv := some e, numRepeatedFault := n } : Kernel E).entry e (pdx va) =
    s.entry e (pdx va) from rfl, hentry]
  dsimp only
  rw [if_pos hva.lt_userTop]
  unfold pageFault
  dsimp only
  rw [hperms, Option.bind_some, if_pos ⟨rfl, hinvalid⟩]

/-- A clean page of the heap that has a table is closed to its process. -/
theorem closed_of_clean (h : s.mem.run.WalkInv all boot) (hclean : s.mem.Clean e va) (hva : InPageHeap va)
    (htable : s.mem.run.paging.pde e (pdx va) ≠ none) : s.Closed e va := by
  have haccess : ∀ write, s.mem.run.paging.access e va write = none := by
    intro write
    by_contra hsome
    obtain ⟨⟨p, f⟩, hp⟩ := Option.ne_none_iff_exists'.mp hsome
    obtain ⟨⟨hpresent, -⟩, -⟩ := UserMem.access_spec h hp
    exact Bool.false_ne_true (hclean.unmapped.symm.trans hpresent)
  have hexits : ∀ {s : Kernel E}, s.mem.run.WalkInv all boot → s.mem.Clean e va → s.mem.run.paging.pde e (pdx va) ≠ none →
      ∀ t o, s.faultHandler e true va = some (t, o) → o = .exit := by
    intro s h hclean htable t o ht
    by_cases hthird : s.Third e va
    · rw [faultHandler_third hthird] at ht
      exact absurd ht.symm (Option.some_ne_none _)
    · obtain ⟨u, hu⟩ := faultHandler_clean h hclean hva htable hthird
      cases ht.symm.trans hu
      rfl
  refine ⟨?_, fun b => ?_, faultHandler_clean h hclean hva htable, fun t o ht => ?_⟩
  · unfold UserMem.readByte
    rw [haccess, Option.map_none]
  · unfold UserMem.writeByte
    rw [haccess, Option.map_none]
  · obtain ⟨u, hu, ht⟩ := Option.bind_eq_some_iff.mp ht
    split at hu
    case isTrue =>
      obtain ⟨m, hm, rfl⟩ := Option.map_eq_some_iff.mp hu
      obtain ⟨haged, -⟩ := UserMem.updateTimeStamps_spec h hm
      have hmade : PagingRun.Calls all boot s.mem.run m.run := UserMem.updateTimeStamps_made h hm
      exact hexits (s := s.setMem m) (haged.walk h) (haged.leaves.clean hclean) (hmade.pde_ne_none htable) t o ht
    case isFalse =>
      cases hu
      exact hexits h hclean htable t o ht

end Kernel

end Fos.Trap
