import Fos.Heap.UHeapNodes
import Fos.Trap.CleanPages
import Fos.Trap.FreeRequest

/-! The pages that `free` has given back. A page of the page allocator is clean then, and stays so until it is allocated again. -/

namespace Fos.Heap
open Lib Mem

variable {σ : Type} {ops : PageOps σ} {w w' : σ} {d d' : DynAlloc} {out : List Nat} {n va : Nat}

/-- `alloc_block` asks for a page of the block area, or for none. -/
theorem BlocksOut.alloc_page (hops : ops.Local) (h : BlocksOut d out) (hpos : 0 < n)
    (hs : DynAlloc.allocBlock ops w d n = some (w', d', va)) :
    w' = w ∨ ∃ m page m', page + 4096 ≤ 2181038080 ∧ ops.getPage w m page = some (w', m') := by
  obtain ⟨cls, free, freePages, hinv⟩ := h.inv
  obtain ⟨-, -, -, -, ⟨-, -, -, -, ⟨heq, -⟩ | ⟨i, c, hi, -, -, m, m', hgot⟩⟩⟩ := hinv.allocBlock hops hpos hs
  · exact .inl heq
  · exact .inr ⟨m, _, m', h.dyn_end ▸ hinv.base_le hi, hgot⟩

/-- As long as another block of its page is out, a block is only put into the list. -/
theorem DynAlloc.freeBlock_stays (h : d.lastOfPage va = false) (hs : freeBlock ops w d va = some (w', d')) : w' = w := by
  obtain ⟨-, hs⟩ := Option.ite_none_right_eq_some.mp hs
  obtain ⟨-, hs⟩ := Option.ite_none_left_eq_some.mp hs
  have hne := of_decide_eq_false h
  dsimp only at hs hne
  split at hs
  case isTrue hlast =>
    rw [Function.update_self] at hlast
    exact absurd hlast hne
  case isFalse =>
    cases hs
    rfl

namespace UHeap

variable {h : UHeap σ} {L : BulkList → List Nat}

theorem Placement.world {r : UHeap σ × Nat} (h' : Placement h L n r) : r.1.world = h.world := by
  cases h' with
  | whole => rfl
  | front => rfl
  | above => exact (extendBreak_kept h n).2.2

end UHeap

namespace UProcess

variable {s : UProcess σ}

/-- The heap that a call of the library finds. -/
theorem LimitedOrNew.init (hl : LimitedOrNew w s) (hw : s.heap.world = w) :
    ∃ h, s.heap.uheapInit = some h ∧ Limited ⟨h, s.live⟩ ∧ h.world = w := by
  rcases hl with rfl | hl
  · exact ⟨_, uheapInit_eq w, Limited.initial w, rfl⟩
  · obtain ⟨L, hheap, hlive⟩ := id hl
    exact ⟨s.heap, hheap.uheapInit, hl, hw⟩

/-- The limits do not depend on the memory. -/
theorem Limited.elsewhere {h : UHeap σ} {live : List Nat} (hl : Limited ⟨h, live⟩) (w : σ) : Limited ⟨{ h with world := w }, live⟩ := by
  obtain ⟨L, hheap, hlive⟩ := hl
  exact ⟨L, hheap.with_blocks hheap.blocks, hlive⟩

theorem LimitedOrNew.elsewhere {h : UHeap σ} {live : List Nat} (hl : LimitedOrNew w ⟨h, live⟩) (w' : σ) :
    LimitedOrNew w' ⟨{ h with world := w' }, live⟩ := by
  rcases hl with hnew | hl
  · cases hnew
    exact .inl rfl
  · exact .inr (hl.elsewhere w')

end UProcess

end Fos.Heap

namespace Fos.Trap
open Lib Heap Disk Mem

namespace HeapRun

variable {E : Type} [DecidableEq E] {e d : E}

/-! ### What a step of the kernel keeps -/

section Kept

variable {s t u : KernelRun E} {ev : UserEvent E} {m : UserMem E} {all : List PageNo} {boot : PageNo → Nat} {ps : List Nat}
  {va size : Nat}

/-- Clean pages of the heap stay clean, but for the pages `ps`, and frames that are mapped at one of them stay there alone. -/
structure Kept (e : E) (ps : List Nat) (s t : KernelRun E) : Prop where
  inv : t.Inv
  grows : Paging.Grows s.mem.run.paging t.mem.run.paging
  clean : ∀ q, InPageHeap q → (∀ p ∈ ps, ¬ Paging.SamePage q p) → s.mem.Clean e q → t.mem.Clean e q
  alone : ∀ q, InPageHeap q → s.mem.Alone e q → t.mem.Alone e q

omit [DecidableEq E] in
theorem Kept.refl (h : s.Inv) : Kept e [] s s := ⟨h, .refl _, fun _ _ _ => id, fun _ _ => id⟩

omit [DecidableEq E] in
theorem kept_of_leaves (hinv : t.Inv) (hgrows : Paging.Grows s.mem.run.paging t.mem.run.paging)
    (hleaves : ∀ q, InPageHeap q → UserMem.Leaves e q s.mem t.mem) : Kept e [] s t :=
  ⟨hinv, hgrows, fun q hq _ => (hleaves q hq).clean, fun q hq => (hleaves q hq).alone⟩

theorem kept_of_accessed (hmem : s.mem.MemInv all boot) (hhand : ∀ d, s.running d → s.mem.HandIn d) (ha : UserMem.Accessed s.mem m)
    (hwalk : m.run.WalkInv all boot) (hc : PagingRun.Call s.mem.run m.run) : Kept e [] s (s.setMem m) :=
  kept_of_leaves ⟨⟨all, boot, hmem.sameWs hwalk ha.toSameWs⟩, fun d hd => (hhand d hd).congr (congrFun ha.ws d)⟩
    (hc.grows hmem.walk) fun _ _ => ha.leaves

/-- A step between the calls of the library. -/
theorem Between.kept (hok : Between e s ev) (h : s.Inv) (hs : s.userStep ev = some t) : Kept e [] s t := by
  obtain ⟨⟨all, boot, hmem⟩, hhand⟩ := id h
  cases ev with
  | read d va =>
    obtain ⟨⟨m, b⟩, hm, rfl⟩ := Option.map_eq_some_iff.mp hs
    obtain ⟨⟨p, f⟩, hp, heq⟩ := Option.map_eq_some_iff.mp hm
    cases heq
    obtain ⟨-, hwalk, ha, hc⟩ := UserMem.access_spec hmem.walk hp
    exact kept_of_accessed hmem hhand ha hwalk hc
  | write d va b =>
    obtain ⟨m, hm, rfl⟩ := Option.map_eq_some_iff.mp hs
    obtain ⟨⟨p, f⟩, hp, rfl⟩ := Option.map_eq_some_iff.mp hm
    obtain ⟨-, hwalk, ha, hc⟩ := UserMem.access_spec hmem.walk hp
    exact kept_of_accessed hmem hhand ⟨⟨rfl, ha.handed, ha.live⟩, ha.page, ha.hold, ha.disk⟩ hwalk hc
  | kernel ev =>
    cases ev with
    | memory ev => exact hok.elim
    | envCreate d n name segs => exact hok.elim
    | updateTimeStamps d =>
      have haccepted : s.Accepted (.updateTimeStamps d) := trivial
      have hgrows := (KernelRun.step_made hmem hhand haccepted trivial nofun hs).grows
      have hinv := h.accepted haccepted hs
      obtain ⟨m, hm, rfl⟩ := Option.map_eq_some_iff.mp hs
      obtain ⟨haged, -⟩ := UserMem.updateTimeStamps_spec hmem.walk hm
      exact kept_of_leaves hinv hgrows fun _ _ => haged.leaves
    | fault d userTrap va =>
      obtain ⟨haccepted, huser⟩ := hok
      have hgrows := (KernelRun.step_made hmem hhand haccepted trivial nofun hs).grows
      have hinv := h.accepted haccepted hs
      obtain ⟨hrunning, hva⟩ : s.Allowed (.fault d userTrap va) := haccepted
      obtain ⟨⟨u, o⟩, hu, hs⟩ := Option.bind_eq_some_iff.mp hs
      have hleaves := fun q (hq : InPageHeap q) => Kernel.pageFaultTrap_leaves hmem (hhand d hrunning) hva hq huser hu
      cases o with
      | kernelFault => exact absurd hs.symm (Option.some_ne_none _)
      | served =>
        cases hs
        exact kept_of_leaves hinv hgrows hleaves
      | exit =>
        cases hs
        exact kept_of_leaves hinv hgrows hleaves
    | allocateUserMem d va size =>
      obtain ⟨haccepted, hne⟩ := hok
      have hinv := h.accepted haccepted hs
      obtain ⟨hrange, hsole⟩ := haccepted
      obtain ⟨m, hm, rfl⟩ := Option.map_eq_some_iff.mp hs
      have hgrows := UserMem.allocateUserMem_grows hmem.walk hsole (fun p hp => KernelRun.lt_userTop_of_mem_pagesOf hrange hp) hm
      obtain ⟨-, hself, hothers⟩ := UserMem.allocateUserMem_marks hmem.walk hsole hm
      exact kept_of_leaves hinv hgrows fun _ _ =>
        UserMem.leaves_of_pages (fun p hp => congrArg Pte.present (hself p hp)) hothers hne.symm
    | freeUserMem d va size =>
      obtain ⟨haccepted, hne⟩ := hok
      have hgrows := (KernelRun.step_made hmem hhand haccepted trivial nofun hs).grows
      have hinv := h.accepted haccepted hs
      obtain ⟨m, hm, rfl⟩ := Option.map_eq_some_iff.mp hs
      obtain ⟨-, hall, -⟩ := UserMem.freeUserMem_spec hmem hm
      exact kept_of_leaves hinv hgrows fun _ _ => UserMem.leaves_of_pages hall.unmapped hall.others hne.symm
    | envPageWsInvalidate d va =>
      have haccepted : s.Accepted (.envPageWsInvalidate d va) := trivial
      have hgrows := (KernelRun.step_made hmem hhand haccepted trivial nofun hs).grows
      have hinv := h.accepted haccepted hs
      obtain ⟨m, hm, rfl⟩ := Option.map_eq_some_iff.mp hs
      exact kept_of_leaves hinv hgrows fun _ _ => UserMem.envPageWsInvalidate_leaves hmem (Ne.symm hok) hm

/-! ### The requests of the library -/

/-- `get_page` of a page of the block area. -/
theorem kept_of_getPage {link link' : Nat → Link Nat} (h : s.Inv) (hlow : va + 4096 ≤ 2181038080)
    (hs : (UserMem.heapPages e).getPage s.mem link va = some (m, link')) : Kept e [] s (s.setMem m) := by
  obtain ⟨⟨all, boot, hmem⟩, hhand⟩ := id h
  obtain ⟨hva, hs⟩ := Option.ite_none_right_eq_some.mp hs
  obtain ⟨⟨u, fresh⟩, hu, heq⟩ := Option.map_eq_some_iff.mp hs
  cases heq
  have hdone := UserMem.allocPage_spec hmem hva (by decide) hu
  refine ⟨⟨⟨all, boot, hdone.mem⟩, fun d hd => (hhand d hd).congr (congrFun hdone.ws d)⟩, PagingRun.Calls.grows hdone.made,
    fun q hq _ hclean => hclean.of_page (hdone.others e q ?_), fun q _ => hdone.alone e q⟩
  rintro ⟨-, hsame⟩
  have hlt := hq.lt
  rw [samePage_iff (by omega) (by simp only [roundDown, pageSize]; omega)] at hsame
  obtain ⟨hge, -⟩ := hq
  simp only [roundDown, pageSize] at hsame
  omega

/-- `sys_allocate_user_mem` for a region of the page allocator. -/
theorem kept_of_allocate (h : s.Inv) (hattached : s.mem.run.paging.Attached) (halone : ∀ q, InPageHeap q → s.mem.Alone e q)
    (hin : ∀ p ∈ pagesOf va size, InPageHeap p) (hs : s.mem.allocateUserMem e va size = some m) :
    Kept e (pagesOf va size) s (s.setMem m) := by
  obtain ⟨⟨all, boot, hmem⟩, hhand⟩ := id h
  have hsole : ∀ p ∈ pagesOf va size, s.mem.run.paging.Sole e p := fun p hp => (halone p (hin p hp)).sole hmem.walk hattached
  obtain ⟨hmem', hws⟩ := hmem.allocateUserMem hsole hs
  obtain ⟨-, hself, hothers⟩ := UserMem.allocateUserMem_marks hmem.walk hsole hs
  have hgrows := UserMem.allocateUserMem_grows hmem.walk hsole (fun p hp => (hin p hp).lt_userTop) hs
  refine ⟨⟨hmem', fun d hd => (hhand d hd).congr (congrFun hws d)⟩, hgrows,
    fun q _ hnot hclean => hclean.of_page (hothers e q fun p hp hsame => hnot p hp hsame.2), fun q _ ha => ?_⟩
  exact ha.of_pages (fun p hp => congrArg Pte.present (hself p hp)) hothers

/-- `sys_free_user_mem` leaves the pages of the region clean. -/
theorem kept_of_free (h : s.Inv) (hs : s.mem.freeUserMem e va size = some m) : Kept e [] s (s.setMem m) ∧
    ∀ p ∈ pagesOf va size, m.Clean e p ∧ m.run.paging.pde e (pdx p) ≠ none := by
  obtain ⟨⟨all, boot, hmem⟩, hhand⟩ := id h
  obtain ⟨hmem', hall, -, hhand', -⟩ := UserMem.freeUserMem_spec hmem hs
  have hmade := UserMem.freeUserMem_made hmem hs
  have htables := hmem.freePages_iff.mp (fun hnone => absurd (hnone.symm.trans hs) nofun)
  have hclean : ∀ p ∈ pagesOf va size, m.Clean e p := fun p hp => ⟨hall.unmapped p hp, hall.unmarked p hp⟩
  refine ⟨⟨⟨⟨all, boot, hmem'⟩, fun d hd => hhand' d (hhand d hd)⟩, PagingRun.Calls.grows hmade, fun q _ _ hq => ?_, fun q _ ha => ?_⟩,
    fun p hp => ⟨hclean p hp, PagingRun.Calls.pde_ne_none hmade (htables p hp)⟩⟩
  · by_cases hin : ∃ p ∈ pagesOf va size, Paging.SamePage q p
    · obtain ⟨p, hp, hsame⟩ := hin
      have hp := hclean p hp
      refine ⟨?_, ?_⟩
      · show (m.run.paging.page e q).present = false
        rw [Paging.page_samePage hsame]
        exact hp.unmapped
      · show (m.run.paging.page e q).perm.getLsbD 10 = false
        rw [Paging.page_samePage hsame]
        exact hp.unmarked
    · exact hq.of_page (hall.others e q fun p hp hsame => hin ⟨p, hp, hsame.2⟩)
  · exact ha.of_pages hall.unmapped hall.others

end Kept

end HeapRun

end Fos.Trap
