import Fos.Mem.Paging
import Fos.Heap.KHeapInv
import Fos.Lib.Reach

/-! Every frame that the boot left free is accounted for: its count is the number of entries that hold it, and it is in
    the free list when no entry holds it and no caller of `allocate_frame` has it. The entries are those of the kernel
    heap and of the user tables; the kernel maps its own image and data at the boot, where no frame is counted. -/

namespace Fos.Mem
open Lib Heap

namespace Paging

variable {D : Type} [DecidableEq D]

/-- The memory with the frames `handed` handed out and the kernel heap pointers `live` and `tables` out, where `tables`
    are those of the page tables. Every directory entry names a table, which is still mapped in the heap, and entries
    of frames that are no tables hold nothing. -/
structure Inv (all : List PageNo) (boot : PageNo → Nat) (handed : List PageNo) (live tables : List Nat) (s : Paging D) :
    Prop where
  owned : ∃ F lost, s.heap.Owned all boot handed F (live ++ tables) lost
  tables_ge : ∀ p ∈ tables, 4160753664 ≤ p
  table : ∀ d j t, s.pde d j = some t → ∃ p ∈ tables, s.heap.mem.hold (.kernel (pageNo p)) = some t
  entry : ∀ t i, s.heap.mem.hold (.user t i) ≠ none → ∃ p ∈ tables, s.heap.mem.hold (.kernel (pageNo p)) = some t

variable {all : List PageNo} {boot : PageNo → Nat} {handed : List PageNo} {live tables : List Nat} {s s' : Paging D}
  {m : Frames} {f t : PageNo} {va : Nat} {perm : BitVec 12} {dir : D}

omit [DecidableEq D] in
theorem Inv.accounts (hi : Inv all boot handed live tables s) : ∃ F, s.heap.mem.Accounts all boot F handed := by
  obtain ⟨F, lost, L, hinv, -⟩ := hi.owned
  exact ⟨F, hinv.accounts⟩

omit [DecidableEq D] in
/-- The frames and the user entries change, and the kernel heap does not. -/
theorem Inv.setMem (hi : Inv all boot handed live tables s) {all' F' handed' : List PageNo} {boot' : PageNo → Nat}
    (ha : m.Accounts all' boot' F' handed') (hkernel : ∀ p, m.hold (.kernel p) = s.heap.mem.hold (.kernel p))
    (hentry : ∀ t i, m.hold (.user t i) ≠ none → ∃ p ∈ tables, s.heap.mem.hold (.kernel (pageNo p)) = some t) :
    Inv all' boot' handed' live tables { s with heap := { s.heap with mem := m } } := by
  obtain ⟨F, lost, L, hinv, hstarts⟩ := hi.owned
  refine ⟨⟨F', lost, L, hinv.congr_mem ha hkernel, hstarts⟩, hi.tables_ge, fun d j t ht => ?_, fun t i hne => ?_⟩
  · obtain ⟨p, hp, hhold⟩ := hi.table d j t ht
    exact ⟨p, hp, (hkernel (pageNo p)).trans hhold⟩
  · obtain ⟨p, hp, hhold⟩ := hentry t i hne
    exact ⟨p, hp, (hkernel (pageNo p)).trans hhold⟩

omit [DecidableEq D] in
/-- A table that is found is the one of the directory entry. -/
theorem Inv.getPageTable_spec {r : PageTable} (hi : Inv all boot handed live tables s) (hs : s.getPageTable dir va = some r) :
    r = .notExist ∧ s.pde dir (pdx va) = none ∨ r = .null ∨ ∃ t, r = .inMemory t ∧ s.pde dir (pdx va) = some t := by
  obtain ⟨F, lost, L, hinv, -⟩ := hi.owned
  unfold getPageTable at hs
  cases ht : s.pde dir (pdx va) with
  | none =>
    rw [ht] at hs
    cases hs
    exact .inl ⟨rfl, rfl⟩
  | some t =>
    rw [ht] at hs
    obtain ⟨ptr, hptr, hs⟩ := Option.bind_eq_some_iff.mp hs
    by_cases hnull : ptr = 0
    · rw [if_pos hnull] at hs
      cases hs
      exact .inr (.inl rfl)
    · rw [if_neg hnull] at hs
      obtain ⟨g, hg, rfl⟩ := Option.map_eq_some_iff.mp hs
      unfold kheapVirtualAddress at hptr
      simp only [Option.ite_none_right_eq_some] at hptr
      obtain ⟨-, hptr⟩ := hptr
      split at hptr
      case isTrue hregion =>
        cases hptr
        -- The address of the frame is in the heap, so the heap maps the frame there.
        have hge : kernelHeapStart ≤ s.heap.mem.va t := by
          rw [hinv.blocks.dyn_start, hinv.page_start] at hregion
          simp only [kernelHeapStart] at hregion ⊢
          omega
        have hat := hinv.accounts.located t hge
        rw [frameAt, hat] at hg
        cases hg
        exact .inr (.inr ⟨_, rfl, rfl⟩)
      case isFalse =>
        cases hptr
        exact absurd rfl hnull

omit [DecidableEq D] in
theorem Inv.allocateFrame (hi : Inv all boot handed live tables s) (hs : s.allocateFrame = some (s', f)) :
    Inv all boot (f :: handed) live tables s' ∧ s'.heap.mem.hold = s.heap.mem.hold ∧
      (∀ F, s.heap.mem.freeFrameList.Spells (fun _ => F) → f ∈ F) ∧ s'.pde = s.pde := by
  obtain ⟨F, ha⟩ := hi.accounts
  obtain ⟨⟨m, g⟩, hm, heq⟩ := Option.map_eq_some_iff.mp hs
  simp only [Prod.mk.injEq] at heq
  obtain ⟨rfl, rfl⟩ := heq
  obtain ⟨hf, ha', hpte, -⟩ := ha.allocateFrame hm
  have hhold : m.hold = s.heap.mem.hold := by
    funext c
    simp only [Frames.hold, hpte]
  refine ⟨hi.setMem ha' (fun p => by rw [hhold]) (fun t i hne => hi.entry t i (hhold ▸ hne)), hhold, fun F' hF' => ?_, rfl⟩
  rw [hF'.toThreads.unique ha.free.toThreads ()]
  exact hf

/-- The caller may map the frame: it was handed out, or it is mapped. -/
def Mappable (s : Paging D) (handed : List PageNo) (f : PageNo) : Prop := f ∈ handed ∨ ∃ c, s.heap.mem.hold c = some f

omit [DecidableEq D] in
/-- `map_frame` in a table of a directory -/
theorem Inv.mapFrameIn (hi : Inv all boot handed live tables s) (htable : ∃ d j, s.pde d j = some t)
    (hf : s.Mappable handed f) (hmax : ∀ g, (holders s'.heap.mem.hold g).ncard < 65536) (hperm : perm.getLsbD 9 = false)
    (hva : va < userTop) (hs : s.mapFrameIn t f va perm = some s') :
    Inv all boot (handed.erase f) live tables s' ∧ ∃ c, s'.heap.mem.hold c = some f := by
  obtain ⟨F, ha⟩ := hi.accounts
  obtain ⟨m, hm, rfl⟩ := Option.map_eq_some_iff.mp hs
  have hhold := ha.hold_mapFrame hm
  have hall : f ∈ all ∧ f ∉ F := by
    rcases hf with hf | ⟨c, hc⟩
    · exact ⟨(ha.out_mem f hf).1, fun hmem => ((ha.mem f).mp hmem).2.1 hf⟩
    · exact ⟨ha.held c f hc, fun hmem => ((ha.mem f).mp hmem).2.2 c hc⟩
  have hge : kernelHeapStart ≤ va → Slot.user t (ptx va) = .kernel (pageNo va) := by
    intro hle
    simp only [kernelHeapStart, userTop] at hle hva
    omega
  obtain ⟨m', F', hm', ha'⟩ := ha.mapFrame (c := .user t (ptx va)) hall.1 hall.2 (by rw [← hhold]; exact hmax f) hperm hge
  cases hm'.symm.trans hm
  refine ⟨hi.setMem ha' (fun p => by rw [hhold, Function.update_of_ne (show Slot.kernel p ≠ .user t (ptx va) from fun h => by cases h)]) (fun x i hne => ?_),
    _, by rw [hhold, Function.update_self]⟩
  by_cases hx : Slot.user x i = .user t (ptx va)
  · cases hx
    obtain ⟨d, j, hj⟩ := htable
    exact hi.table d j t hj
  · rw [hhold, Function.update_of_ne hx] at hne
    exact hi.entry x i hne

/-- Clearing the entries of a frame that hold nothing. -/
theorem clearTable_accounts {F : List PageNo} (ha : m.Accounts all boot F handed) (hempty : ∀ i, m.hold (.user t i) = none) :
    (clearTable m t).Accounts all boot F handed ∧ (clearTable m t).hold = m.hold := by
  have hpte : ∀ c, (clearTable m t).pte c = m.pte c ∨ (∃ i, c = .user t i) ∧ (clearTable m t).pte c = {} := by
    intro c
    cases c with
    | kernel p => exact .inl rfl
    | user x i =>
      by_cases hx : x = t
      · exact .inr ⟨⟨i, by rw [hx]⟩, if_pos hx⟩
      · exact .inl (if_neg hx)
  have hhold : (clearTable m t).hold = m.hold := by
    funext c
    rcases hpte c with h | ⟨⟨i, rfl⟩, h⟩
    · simp only [Frames.hold, h]
    · rw [hempty i, Frames.hold_eq_none, h, Frames.present_iff]
      exact BitVec.getLsbD_zero
  refine ⟨⟨ha.free, by rw [hhold]; exact ha.mem, by rw [hhold]; exact ha.out_mem, ha.out_nodup, by rw [hhold]; exact ha.held,
    by rw [hhold]; exact ha.references, ha.uint16, ha.boot, ha.valid, fun c => ?_, fun c hc => ?_, by rw [hhold]; exact ha.located⟩,
    hhold⟩
  · rcases hpte c with h | ⟨-, h⟩
    · rw [h]
      exact ha.plain c
    · rw [h]
      exact BitVec.getLsbD_zero
  · rcases hpte c with h | ⟨-, h⟩
    · rw [h]
      exact ha.clean c (hhold ▸ hc)
    · rw [h]

/-- One entry of one directory is written. -/
theorem pde_update (pde : D → Fin 1024 → Option PageNo) (d : D) (i j : Fin 1024) (x : Option PageNo) :
    Function.update pde dir (Function.update (pde dir) i x) d j = if d = dir ∧ j = i then x else pde d j := by
  by_cases hd : d = dir
  · subst hd
    simp [Function.update_apply]
  · simp [hd]

omit [DecidableEq D] in
/-- A page of the heap that was not mapped gets a frame that was free, so no entry held it, and no table was in it. -/
theorem Inv.fresh_page (hi : Inv all boot handed live tables s) {h : KHeap} {ptr : Nat}
    (hk : s.heap.kmalloc pageSize = some (h, ptr)) (hptr : ptr ≠ 0) (hframe : frameAt h ptr = some t) :
    (∀ c, s.heap.mem.hold c ≠ some t) ∧ (∀ d j, s.pde d j ≠ some t) ∧ ∀ i, s.heap.mem.hold (.user t i) = none := by
  obtain ⟨F, lost, howned⟩ := hi.owned
  obtain ⟨lost', hdone⟩ := howned.kmalloc (by decide) hk
  obtain ⟨-, hempty, -⟩ := hdone.page (by decide) hptr
  obtain ⟨L, hinv, -⟩ := id howned
  have hfree : t ∈ F := by
    refine (hdone.mapped.fresh _ _ hframe).resolve_left fun hold => ?_
    rw [hempty] at hold
    exact nomatch hold
  have hunheld : ∀ c, s.heap.mem.hold c ≠ some t := ((hinv.accounts.mem t).mp hfree).2.2
  refine ⟨hunheld, fun d j hj => ?_, fun i => ?_⟩
  · obtain ⟨p, -, hp⟩ := hi.table d j t hj
    exact hunheld _ hp
  · by_contra hne
    obtain ⟨p, -, hp⟩ := hi.entry t i hne
    exact hunheld _ hp

/-- A new table is an empty page of the heap, which only its directory entry names. -/
theorem Inv.createPageTable (hi : Inv all boot handed live tables s)
    (hs : s.createPageTable dir va = some (s', t)) :
    ∃ ptr, Inv all boot handed live (ptr :: tables) s' ∧ s'.pde dir (pdx va) = some t ∧
      (∀ c f, s.heap.mem.hold c = some f → s'.heap.mem.hold c = some f) ∧
      ∀ c, ¬ KHeap.HeapArea c → s'.heap.mem.hold c = s.heap.mem.hold c := by
  obtain ⟨F, lost, howned⟩ := hi.owned
  obtain ⟨⟨h, ptr⟩, hk, hs⟩ := Option.bind_eq_some_iff.mp hs
  simp only [Option.ite_none_left_eq_some, Option.map_eq_some_iff, Prod.mk.injEq] at hs
  obtain ⟨hptr, table, hframe, rfl, rfl⟩ := hs
  obtain ⟨-, -, hclear⟩ := hi.fresh_page hk hptr hframe
  obtain ⟨lost', hdone⟩ := howned.kmalloc (by decide) hk
  obtain ⟨hge, -⟩ := hdone.page (by decide) hptr
  have huser : ∀ x i, h.mem.hold (.user x i) = s.heap.mem.hold (.user x i) := by
    intro x i
    refine hdone.mapped.outside _ ?_
    rintro (⟨p, hp, -⟩ | ⟨p, hp, -⟩) <;> cases hp
  obtain ⟨F', L', hinv', hstarts'⟩ := hdone.owned
  rw [if_neg hptr] at hinv' hstarts'
  obtain ⟨ha', hhold⟩ := clearTable_accounts hinv'.accounts fun i => (huser table i).trans (hclear i)
  have howned' : (KHeap.Owned all boot handed F' { h with mem := clearTable h.mem table } (live ++ ptr :: tables) lost') :=
    KHeap.Owned.perm ⟨L', hinv'.congr_mem ha' fun p => by rw [hhold], hstarts'⟩ List.perm_middle.symm
  refine ⟨ptr, ⟨⟨F', lost', howned'⟩, ?_, fun d j x hx => ?_, fun x i hne => ?_⟩, by simp, fun c f hc => ?_, fun c hc => ?_⟩
  · intro p hp
    rcases List.mem_cons.mp hp with rfl | hp
    · exact hge
    · exact hi.tables_ge p hp
  · show ∃ p ∈ ptr :: tables, (clearTable h.mem table).hold (.kernel (pageNo p)) = some x
    rw [hhold]
    have hx := (pde_update s.pde d (pdx va) j (some table)).symm.trans hx
    split at hx
    case isTrue =>
      cases hx
      exact ⟨ptr, List.mem_cons_self .., hframe⟩
    case isFalse =>
      obtain ⟨p, hp, hpx⟩ := hi.table d j x hx
      exact ⟨p, List.mem_cons_of_mem _ hp, hdone.mapped.kept _ _ hpx⟩
  · have hne : (clearTable h.mem table).hold (.user x i) ≠ none := hne
    rw [hhold, huser] at hne
    obtain ⟨p, hp, hpx⟩ := hi.entry x i hne
    refine ⟨p, List.mem_cons_of_mem _ hp, ?_⟩
    show (clearTable h.mem table).hold (.kernel (pageNo p)) = some x
    rw [hhold]
    exact hdone.mapped.kept _ _ hpx
  · show (clearTable h.mem table).hold c = some f
    rw [hhold]
    exact hdone.mapped.kept c f hc
  · show (clearTable h.mem table).hold c = s.heap.mem.hold c
    rw [hhold]
    exact hdone.mapped.outside c hc

theorem Inv.mapFrame (hi : Inv all boot handed live tables s) (hf : s.Mappable handed f)
    (hmax : ∀ g, (holders s'.heap.mem.hold g).ncard < 65536) (hperm : perm.getLsbD 9 = false) (hva : va < userTop)
    (hs : s.mapFrame dir f va perm = some s') :
    (∃ tables', Inv all boot (handed.erase f) live tables' s') ∧ ∃ c, s'.heap.mem.hold c = some f := by
  obtain ⟨r, hr, hs⟩ := Option.bind_eq_some_iff.mp hs
  rcases hi.getPageTable_spec hr with ⟨rfl, hnone⟩ | rfl | ⟨t, rfl, ht⟩
  · obtain ⟨⟨s₁, t⟩, hs₁, hs⟩ := Option.bind_eq_some_iff.mp hs
    obtain ⟨ptr, hi₁, ht, hkept, -⟩ := hi.createPageTable hs₁
    have hf₁ : s₁.Mappable handed f := hf.imp_right fun ⟨c, hc⟩ => ⟨c, hkept c f hc⟩
    obtain ⟨hi', hheld⟩ := hi₁.mapFrameIn ⟨_, _, ht⟩ hf₁ hmax hperm hva hs
    exact ⟨⟨_, hi'⟩, hheld⟩
  · exact nomatch hs
  · obtain ⟨hi', hheld⟩ := hi.mapFrameIn ⟨_, _, ht⟩ hf hmax hperm hva hs
    exact ⟨⟨_, hi'⟩, hheld⟩

omit [DecidableEq D] in
theorem Inv.unmapFrame (hi : Inv all boot handed live tables s) (hs : s.unmapFrame dir va = some s') :
    Inv all boot handed live tables s' := by
  obtain ⟨r, hr, hs⟩ := Option.bind_eq_some_iff.mp hs
  rcases hi.getPageTable_spec hr with ⟨rfl, -⟩ | rfl | ⟨t, rfl, ht⟩
  · cases hs
    exact hi
  · cases hs
    exact hi
  · obtain ⟨F, ha⟩ := hi.accounts
    obtain ⟨m, hm, rfl⟩ := Option.map_eq_some_iff.mp hs
    obtain ⟨m', F', hm', ha', hhold⟩ := ha.unmapFrame (.user t (ptx va))
    cases hm'.symm.trans hm
    refine hi.setMem ha' (fun p => by rw [hhold, Function.update_of_ne (show Slot.kernel p ≠ .user t (ptx va) from nofun)])
      fun x i hne => hi.entry x i ?_
    by_cases hx : Slot.user x i = .user t (ptx va)
    · rw [hhold, hx, Function.update_self] at hne
      exact absurd rfl hne
    · rwa [hhold, Function.update_of_ne hx] at hne

/-- `alloc_page` maps a frame that it takes from the free list, or does nothing. -/
theorem Inv.allocPage (hi : Inv all boot handed live tables s) (hmax : ∀ g, (holders s'.heap.mem.hold g).ncard < 65536)
    (hperm : perm.getLsbD 9 = false) (hva : va < userTop) (hs : s.allocPage dir va perm = some s') :
    ∃ tables', Inv all boot handed live tables' s' := by
  obtain ⟨r, -, hs⟩ := Option.bind_eq_some_iff.mp hs
  cases r with
  | some g =>
    cases hs
    exact ⟨tables, hi⟩
  | none =>
    obtain ⟨⟨s₁, f⟩, hs₁, hs⟩ := Option.bind_eq_some_iff.mp hs
    obtain ⟨hi₁, -⟩ := hi.allocateFrame hs₁
    obtain ⟨⟨tables', hi'⟩, -⟩ := hi₁.mapFrame (.inl (List.mem_cons_self ..)) hmax hperm hva hs
    rw [List.erase_cons_head] at hi'
    exact ⟨tables', hi'⟩

omit [DecidableEq D] in
theorem Inv.kmalloc {size : Nat} {h : KHeap} (hi : Inv all boot handed live tables s) (hsize : size ≤ 4294963200)
    (hs : s.heap.kmalloc size = some (h, va)) :
    Inv all boot handed (if va = 0 then live else va :: live) tables { s with heap := h } := by
  obtain ⟨F, lost, howned⟩ := hi.owned
  obtain ⟨lost', hdone⟩ := howned.kmalloc hsize hs
  obtain ⟨F', howned'⟩ := hdone.owned
  refine ⟨⟨F', lost', ?_⟩, hi.tables_ge, fun d j t ht => ?_, fun t i hne => ?_⟩
  · split
    case isTrue hz => rwa [if_pos hz] at howned'
    case isFalse hz => rwa [if_neg hz] at howned'
  · obtain ⟨p, hp, hpt⟩ := hi.table d j t ht
    exact ⟨p, hp, hdone.mapped.kept _ _ hpt⟩
  · have hsame : h.mem.hold (.user t i) = s.heap.mem.hold (.user t i) := by
      refine hdone.mapped.outside _ ?_
      rintro (⟨p, hp, -⟩ | ⟨p, hp, -⟩) <;> cases hp
    obtain ⟨p, hp, hpt⟩ := hi.entry t i (hsame ▸ hne)
    exact ⟨p, hp, hdone.mapped.kept _ _ hpt⟩

omit [DecidableEq D] in
/-- The pointers of the tables are out as well, so a live pointer is none of them. -/
theorem Inv.kfree_table {h : KHeap} (hi : Inv all boot handed live tables s) (hlive : va ∈ live)
    (hs : s.heap.kfree va = some h) :
    ∀ p ∈ tables, h.mem.hold (.kernel (pageNo p)) = s.heap.mem.hold (.kernel (pageNo p)) := by
  obtain ⟨F, lost, howned⟩ := hi.owned
  obtain ⟨-, -, hother⟩ := howned.kfree (List.mem_append_left _ hlive) hs
  intro p hp
  refine hother p (List.mem_append_right _ hp) ?_ (hi.tables_ge p hp)
  rintro rfl
  exact ne_of_nodup_append howned.nodup hlive hp

omit [DecidableEq D] in
theorem Inv.kfree {h : KHeap} (hi : Inv all boot handed live tables s) (hlive : va ∈ live)
    (hs : s.heap.kfree va = some h) : Inv all boot handed (live.erase va) tables { s with heap := h } := by
  have hkept := hi.kfree_table hlive hs
  obtain ⟨F, lost, howned⟩ := hi.owned
  obtain ⟨⟨F', howned'⟩, hhold, -⟩ := howned.kfree (List.mem_append_left _ hlive) hs
  rw [List.erase_append_left _ hlive] at howned'
  refine ⟨⟨F', lost, howned'⟩, hi.tables_ge, fun d j t ht => ?_, fun t i hne => ?_⟩
  · obtain ⟨p, hp, hpt⟩ := hi.table d j t ht
    exact ⟨p, hp, (hkept p hp).trans hpt⟩
  · have hsame : h.mem.hold (.user t i) = s.heap.mem.hold (.user t i) := by
      refine hhold _ ?_
      rintro (⟨p, hp, -⟩ | ⟨p, hp, -⟩) <;> cases hp
    obtain ⟨p, hp, hpt⟩ := hi.entry t i (hsame ▸ hne)
    exact ⟨p, hp, (hkept p hp).trans hpt⟩

end Paging

namespace PagingRun

variable {D : Type} [DecidableEq D]

/-- The frame that an entry holds. -/
def hold (s : PagingRun D) : Slot → Option PageNo := s.paging.heap.mem.hold

/-- The steps that are considered: addresses are below `USER_TOP`, a frame that is mapped was handed out or is mapped,
    and only live pointers are freed. -/
def Allowed (s : PagingRun D) : PagingEvent D → Prop
  | .allocateFrame => True
  | .mapFrame _ f va _ => va < userTop ∧ (f ∈ s.handed ∨ ∃ c, s.hold c = some f)
  | .unmapFrame _ va => va < userTop
  | .allocPage _ va _ => va < userTop
  | .kmalloc _ => True
  | .kfree va => va ∈ s.live

/-- No frame has 65536 mappings after the step. -/
def Few (s : PagingRun D) (e : PagingEvent D) : Prop := ∀ t, s.step e = some t → ∀ f, (holders t.hold f).ncard < 65536

/-- `PERM_BUFFERED` is not set when a frame is mapped, and no size wraps when it is rounded up to pages. -/
def Plain : PagingEvent D → Prop
  | .mapFrame _ _ _ perm => perm &&& permBuffered = 0
  | .allocPage _ _ perms => perms &&& permBuffered = 0
  | .kmalloc size => size ≤ 4294963200
  | _ => True

/-- The frames `all` that the boot left free are accounted for, and the others are as the boot left them. -/
structure Accounted (all : List PageNo) (boot : PageNo → Nat) (s : PagingRun D) : Prop where
  references : ∀ f ∈ all, s.paging.heap.mem.references f = (holders s.hold f).ncard
  reserved : ∀ f, f ∉ all → s.paging.heap.mem.references f = boot f ∧ ∀ c, s.hold c ≠ some f
  free : ∃ F, (s.paging.heap.mem.freeFrameList.Spells fun _ => F) ∧ F.Nodup ∧
    ∀ f, f ∈ F ↔ f ∈ all ∧ f ∉ s.handed ∧ ∀ c, s.hold c ≠ some f

/-- The frames that enter the free list between two states are those whose last mapping was removed. -/
def EntersFree (s t : PagingRun D) : Prop :=
  ∀ F F', (s.paging.heap.mem.freeFrameList.Spells fun _ => F) → (t.paging.heap.mem.freeFrameList.Spells fun _ => F') →
    ∀ f, (f ∉ F ∧ f ∈ F') ↔ (∃ c, s.hold c = some f) ∧ ∀ c, t.hold c ≠ some f

def Inv (all : List PageNo) (boot : PageNo → Nat) (s : PagingRun D) : Prop :=
  ∃ tables, s.paging.Inv all boot s.handed s.live tables

variable {all : List PageNo} {boot : PageNo → Nat} {s t : PagingRun D} {e : PagingEvent D}

omit [DecidableEq D] in
theorem Inv.accounted (hi : Inv all boot s) : Accounted all boot s := by
  obtain ⟨tables, hi⟩ := hi
  obtain ⟨F, ha⟩ := hi.accounts
  exact ⟨ha.references, fun f hf => ⟨ha.boot f hf, fun c hc => hf (ha.held c f hc)⟩, F, ha.free, ha.nodup, ha.mem⟩

theorem getLsbD_of_plain {perm : BitVec 12} (h : perm &&& permBuffered = 0) : perm.getLsbD 9 = false := by
  have hone : BitVec.twoPow 12 9 ≠ 0#12 := by decide
  rw [show permBuffered = BitVec.twoPow 12 9 from rfl, BitVec.and_twoPow] at h
  split at h
  case isTrue => exact absurd h hone
  case isFalse hne => simpa using hne

/-- One step keeps the accounts; a frame that is handed out was free, and one that is not handed out any more is
    mapped. -/
theorem Inv.step (hi : Inv all boot s) (hallowed : s.Allowed e) (hfew : s.Few e) (hplain : Plain e)
    (hs : s.step e = some t) : Inv all boot t ∧
      (∀ f ∈ t.handed, f ∈ s.handed ∨ ∀ F, s.paging.heap.mem.freeFrameList.Spells (fun _ => F) → f ∈ F) ∧
      ∀ f ∈ s.handed, f ∈ t.handed ∨ ∃ c, t.hold c = some f := by
  obtain ⟨tables, hi⟩ := hi
  have hfew := hfew t hs
  cases e with
  | allocateFrame =>
    obtain ⟨⟨p, f⟩, hp, rfl⟩ := Option.map_eq_some_iff.mp hs
    obtain ⟨hi', -, hfree, -⟩ := hi.allocateFrame hp
    refine ⟨⟨tables, hi'⟩, fun g hg => ?_, fun g hg => .inl (List.mem_cons_of_mem _ hg)⟩
    rcases List.mem_cons.mp hg with rfl | hg
    · exact .inr hfree
    · exact .inl hg
  | mapFrame dir f va perm =>
    obtain ⟨p, hp, rfl⟩ := Option.map_eq_some_iff.mp hs
    obtain ⟨hi', hheld⟩ := hi.mapFrame hallowed.2 hfew (getLsbD_of_plain hplain) hallowed.1 hp
    refine ⟨hi', fun g hg => .inl (List.mem_of_mem_erase hg), fun g hg => ?_⟩
    by_cases hgf : g = f
    · exact .inr (hgf ▸ hheld)
    · exact .inl ((List.mem_erase_of_ne hgf).mpr hg)
  | unmapFrame dir va =>
    obtain ⟨p, hp, rfl⟩ := Option.map_eq_some_iff.mp hs
    exact ⟨⟨tables, hi.unmapFrame hp⟩, fun g hg => .inl hg, fun g hg => .inl hg⟩
  | allocPage dir va perms =>
    obtain ⟨p, hp, rfl⟩ := Option.map_eq_some_iff.mp hs
    exact ⟨hi.allocPage hfew (getLsbD_of_plain hplain) hallowed hp, fun g hg => .inl hg, fun g hg => .inl hg⟩
  | kmalloc size =>
    obtain ⟨⟨h, va⟩, hk, rfl⟩ := Option.map_eq_some_iff.mp hs
    exact ⟨⟨tables, hi.kmalloc hplain hk⟩, fun g hg => .inl hg, fun g hg => .inl hg⟩
  | kfree va =>
    obtain ⟨h, hk, rfl⟩ := Option.map_eq_some_iff.mp hs
    exact ⟨⟨tables, hi.kfree hallowed hk⟩, fun g hg => .inl hg, fun g hg => .inl hg⟩

theorem Inv.entersFree (hi : Inv all boot s) (hallowed : s.Allowed e) (hfew : s.Few e) (hplain : Plain e)
    (hs : s.step e = some t) : EntersFree s t := by
  obtain ⟨⟨tables', hi'⟩, hnew, hold⟩ := hi.step hallowed hfew hplain hs
  obtain ⟨tables, hi⟩ := hi
  obtain ⟨F₀, ha⟩ := hi.accounts
  obtain ⟨F₁, ha'⟩ := hi'.accounts
  intro F F' hF hF' f
  rw [hF.toThreads.unique ha.free.toThreads (), hF'.toThreads.unique ha'.free.toThreads ()]
  constructor
  · rintro ⟨hnot, hmem⟩
    obtain ⟨hall, hout, hnone⟩ := (ha'.mem f).mp hmem
    refine ⟨?_, hnone⟩
    by_contra hunheld
    refine hnot ((ha.mem f).mpr ⟨hall, fun hf => ?_, fun c hc => hunheld ⟨c, hc⟩⟩)
    rcases hold f hf with hf | ⟨c, hc⟩
    · exact hout hf
    · exact hnone c hc
  · rintro ⟨⟨c, hc⟩, hnone⟩
    have hnot : f ∉ F₀ := fun hf => ((ha.mem f).mp hf).2.2 c hc
    refine ⟨hnot, (ha'.mem f).mpr ⟨ha.held c f hc, fun hf => ?_, hnone⟩⟩
    rcases hnew f hf with hf | hf
    · exact (ha.out_mem f hf).2 c hc
    · exact hnot (hf F₀ ha.free)

omit [DecidableEq D] in
theorem inv_boot {n k : Nat} (hmin : 160 ≤ n) (hn : n ≤ 1048576) (hk : 256 ≤ k) (hboot : afterBoot D n k = some s) :
    Inv (Frames.bootFree n k) (Frames.bootReferences k) s := by
  obtain ⟨h, hh, rfl⟩ := Option.map_eq_some_iff.mp hboot
  obtain ⟨⟨F, ha⟩, hnone⟩ := Frames.initializePaging_accounts hmin hn hk
  obtain ⟨hinv, hmem⟩ := KHeap.kheapInit_inv ha (fun p => hnone _) hh
  refine ⟨[], ⟨F, [], _, hinv, List.Perm.refl _⟩, nofun, nofun, fun t i hne => ?_⟩
  have hne : h.mem.hold (.user t i) ≠ none := hne
  rw [hmem] at hne
  exact absurd (hnone _) hne

/-- A frame that only entries of the heap and one other entry hold has few mappings. -/
theorem holders_lt {hold : Slot → Option PageNo} {x : Slot} (h : ∀ c, hold c ≠ none → KHeap.HeapArea c ∨ c = x)
    (f : PageNo) : (holders hold f).ncard < 65536 := by
  have hsub : holders hold f ⊆ insert x ((fun i => Slot.kernel (Fin.ofNat 1048576 (1007616 + i))) '' ↑(Finset.range 40960)) := by
    intro c hc
    rcases h c (by rw [mem_holders.mp hc]; exact nofun) with harea | rfl
    · refine Set.mem_insert_of_mem _ ?_
      obtain ⟨p, rfl, hlo, hhi⟩ | ⟨p, rfl, hlo, hhi⟩ := harea
      all_goals
        refine ⟨p.val - 1007616, ?_, ?_⟩
        · simp only [Finset.coe_range, Set.mem_Iio]
          omega
        · simp only [Slot.kernel.injEq, Fin.ext_iff, Fin.ofNat]
          omega
    · exact Set.mem_insert ..
  calc (holders hold f).ncard
      ≤ _ := Set.ncard_le_ncard hsub
    _ ≤ _ := Set.ncard_insert_le _ _
    _ ≤ (↑(Finset.range 40960) : Set Nat).ncard + 1 := Nat.add_le_add_right (Set.ncard_image_le (Finset.finite_toSet _)) 1
    _ < 65536 := by rw [Set.ncard_coe_finset, Finset.card_range]; decide

/-- `unmap_frame` adds no mapping. -/
theorem few_unmapFrame {dir : D} {va : Nat} (hfew : ∀ f, (holders s.hold f).ncard < 65536) :
    s.Few (.unmapFrame dir va) := by
  intro t hs f
  refine lt_of_le_of_lt (Set.ncard_le_ncard fun c hc => ?_) (hfew f)
  obtain ⟨p, hp, rfl⟩ := Option.map_eq_some_iff.mp hs
  have hc : p.heap.mem.hold c = some f := hc
  show s.paging.heap.mem.hold c = some f
  obtain ⟨r, -, hp⟩ := Option.bind_eq_some_iff.mp hp
  cases r with
  | inMemory table =>
    obtain ⟨m, hm, rfl⟩ := Option.map_eq_some_iff.mp hp
    obtain ⟨g, -, rfl⟩ := Option.map_eq_some_iff.mp hm
    cases g with
    | none => exact hc
    | some g =>
      simp only [Frames.hold_release] at hc
      by_cases hcs : c = .user table (ptx va)
      · rw [hcs, Function.update_self] at hc
        exact nomatch hc
      · rwa [Function.update_of_ne hcs] at hc
  | notExist =>
    rw [Option.some.inj hp]
    exact hc
  | null =>
    rw [Option.some.inj hp]
    exact hc

/-- Where nothing is mapped, `alloc_page` maps pages of the heap and one user page. -/
theorem few_allocPage {dir : D} {va : Nat} {perms : BitVec 12} (hi : Inv all boot s) (hnone : ∀ c, s.hold c = none)
    (hpde : ∀ d j, s.paging.pde d j = none) : s.Few (.allocPage dir va perms) := by
  intro t hs f
  obtain ⟨tables, hi⟩ := hi
  obtain ⟨p, hp, rfl⟩ := Option.map_eq_some_iff.mp hs
  have hframe : s.paging.getFrameInfo dir va = some none := by
    simp only [Paging.getFrameInfo, Paging.getPageTable, hpde, Option.bind_some]
  rw [Paging.allocPage, hframe, Option.bind_some] at hp
  obtain ⟨⟨s₁, g⟩, hs₁, hp⟩ := Option.bind_eq_some_iff.mp hp
  obtain ⟨hi₁, hhold₁, -, hpde₁⟩ := hi.allocateFrame hs₁
  have htable : s₁.getPageTable dir va = some .notExist := by
    simp only [Paging.getPageTable, hpde₁, hpde]
  simp only [Paging.mapFrame, htable, Option.bind_some] at hp
  obtain ⟨⟨s₂, table⟩, hs₂, hp⟩ := Option.bind_eq_some_iff.mp hp
  obtain ⟨ptr, hi₂, -, -, hout⟩ := hi₁.createPageTable hs₂
  obtain ⟨F, ha⟩ := hi₂.accounts
  obtain ⟨m, hm, rfl⟩ := Option.map_eq_some_iff.mp hp
  refine holders_lt (x := .user table (ptx va)) (fun c hc => ?_) f
  have hc : m.hold c ≠ none := hc
  rw [ha.hold_mapFrame hm] at hc
  by_cases heq : c = .user table (ptx va)
  · exact .inr heq
  · rw [Function.update_of_ne heq] at hc
    refine .inl (by_contra fun harea => hc ?_)
    rw [hout c harea, hhold₁]
    exact hnone c

omit [DecidableEq D] in
theorem boot_empty {n k : Nat} (hmin : 160 ≤ n) (hn : n ≤ 1048576) (hk : 256 ≤ k) (hboot : afterBoot D n k = some s) :
    (∀ c, s.hold c = none) ∧ ∀ d j, s.paging.pde d j = none := by
  obtain ⟨h, hh, rfl⟩ := Option.map_eq_some_iff.mp hboot
  obtain ⟨⟨F, ha⟩, hnone⟩ := Frames.initializePaging_accounts hmin hn hk
  obtain ⟨-, hmem⟩ := KHeap.kheapInit_inv ha (fun p => hnone _) hh
  refine ⟨fun c => ?_, fun d j => rfl⟩
  show h.mem.hold c = none
  rw [hmem]
  exact hnone c

/-- In every run from the boot whose steps set no `PERM_BUFFERED` and round up no size that wraps, every frame that the
    boot left free is accounted for, and frames enter the free list when their last mapping is removed. -/
theorem frame_accounts {n k : Nat} {s₀ : PagingRun D} (hmin : 160 ≤ n) (hn : n ≤ 1048576) (hk : 256 ≤ k)
    (hboot : afterBoot D n k = some s₀)
    (hr : Reach PagingRun.step (fun s e => s.Allowed e ∧ s.Few e ∧ Plain e) s₀ s) :
    Accounted (Frames.bootFree n k) (Frames.bootReferences k) s ∧
      ∀ e t, s.Allowed e → s.Few e → Plain e → s.step e = some t → EntersFree s t := by
  have hi : Inv (Frames.bootFree n k) (Frames.bootReferences k) s :=
    hr.invariant (I := Inv _ _) (inv_boot hmin hn hk hboot) fun s e t hi hok hs => (hi.step hok.1 hok.2.1 hok.2.2 hs).1
  exact ⟨hi.accounted, fun e t hallowed hfew hplain hs => hi.entersFree hallowed hfew hplain hs⟩

/-- A page is allocated and unmapped, and its frame is back. -/
theorem frame_accounts_page : ∃ s₀ s : PagingRun Unit, afterBoot Unit 1024 768 = some s₀ ∧
    exec PagingRun.step s₀ [.allocPage () 8388608 permUser, .unmapFrame () 8388608] = some s ∧
      Accounted (Frames.bootFree 1024 768) (Frames.bootReferences 768) s := by
  have hrun : ((afterBoot Unit 1024 768).bind fun s₀ =>
      exec PagingRun.step s₀ [.allocPage () 8388608 permUser, .unmapFrame () 8388608]).isSome := by
    rw [PagingRun.afterBoot_eq]
    decide +kernel
  obtain ⟨s, hrun⟩ := Option.isSome_iff_exists.mp hrun
  obtain ⟨s₀, hboot, hexec⟩ := Option.bind_eq_some_iff.mp hrun
  obtain ⟨s₁, hs₁, hexec'⟩ := exec_cons.mp hexec
  obtain ⟨s₂, hs₂, h⟩ := exec_cons.mp hexec'
  cases h
  obtain ⟨hnone, hpde⟩ := boot_empty (by decide) (by decide) (by decide) hboot
  have hva : 8388608 < userTop := by decide
  have hfew₁ : s₀.Few (.allocPage () 8388608 permUser) :=
    few_allocPage (inv_boot (by decide) (by decide) (by decide) hboot) hnone hpde
  have hfew₂ : s₁.Few (.unmapFrame () 8388608) := few_unmapFrame (hfew₁ s₁ hs₁)
  have hr₁ : Reach PagingRun.step (fun s e => s.Allowed e ∧ s.Few e ∧ Plain e) s₀ s₁ :=
    .step (.allocPage () 8388608 permUser) .init ⟨hva, hfew₁, show permUser &&& permBuffered = 0 by decide⟩ hs₁
  have hr₂ : Reach PagingRun.step (fun s e => s.Allowed e ∧ s.Few e ∧ Plain e) s₀ s :=
    .step (.unmapFrame () 8388608) hr₁ ⟨hva, hfew₂, trivial⟩ hs₂
  exact ⟨s₀, s, hboot, hexec, (frame_accounts (by decide) (by decide) (by decide) hboot hr₂).1⟩

/-- A page is allocated with `PERM_BUFFERED` and unmapped twice. `unmap_frame` keeps the bit, so the entry still has a
    frame for `get_frame_info`, the frame 0, and the second call frees that reserved frame. -/
theorem frame_zero_freed : ∃ s₀ s : PagingRun Unit, afterBoot Unit 1024 768 = some s₀ ∧
    Reach PagingRun.step (fun s e => s.Allowed e ∧ s.Few e) s₀ s ∧ (s.paging.heap.mem.freeFrameList.head ()).first = some 0 ∧
      0 ∉ Frames.bootFree 1024 768 ∧ ¬ Accounted (Frames.bootFree 1024 768) (Frames.bootReferences 768) s := by
  have hrun : ((afterBoot Unit 1024 768).bind fun s₀ =>
      (exec PagingRun.step s₀ [.allocPage () 8388608 0x204#12, .unmapFrame () 8388608, .unmapFrame () 8388608]).map
        fun s => (s.paging.heap.mem.freeFrameList.head ()).first) = some (some 0) := by
    rw [PagingRun.afterBoot_eq]
    decide +kernel
  have hzero : (0 : PageNo) ∉ Frames.bootFree 1024 768 := by
    decide +kernel
  obtain ⟨s₀, hboot, hrun⟩ := Option.bind_eq_some_iff.mp hrun
  obtain ⟨s, hexec, hfirst⟩ := Option.map_eq_some_iff.mp hrun
  obtain ⟨s₁, hs₁, hexec⟩ := exec_cons.mp hexec
  obtain ⟨s₂, hs₂, hexec⟩ := exec_cons.mp hexec
  obtain ⟨s₃, hs₃, hexec⟩ := exec_cons.mp hexec
  cases hexec
  have hi := inv_boot (by decide) (by decide) (by decide) hboot
  obtain ⟨hnone, hpde⟩ := boot_empty (by decide) (by decide) (by decide) hboot
  have hfew₁ : s₀.Few (.allocPage () 8388608 0x204#12) := few_allocPage hi hnone hpde
  have hva : 8388608 < userTop := by decide
  have hfew₂ : s₁.Few (.unmapFrame () 8388608) := few_unmapFrame (hfew₁ s₁ hs₁)
  have hfew₃ : s₂.Few (.unmapFrame () 8388608) := few_unmapFrame (hfew₂ s₂ hs₂)
  refine ⟨s₀, s, hboot, ?_, hfirst, hzero, fun hacc => ?_⟩
  · have hr₁ : Reach PagingRun.step (fun s e => s.Allowed e ∧ s.Few e) s₀ s₁ :=
      .step (.allocPage () 8388608 0x204#12) .init ⟨hva, hfew₁⟩ hs₁
    have hr₂ : Reach PagingRun.step (fun s e => s.Allowed e ∧ s.Few e) s₀ s₂ :=
      .step (.unmapFrame () 8388608) hr₁ ⟨hva, hfew₂⟩ hs₂
    exact .step (.unmapFrame () 8388608) hr₂ ⟨hva, hfew₃⟩ hs₃
  · obtain ⟨F, hF, -, hmem⟩ := hacc.free
    refine hzero ((hmem 0).mp ?_).1
    rw [hF.first ()] at hfirst
    exact List.mem_of_mem_head? hfirst

end PagingRun

end Fos.Mem
