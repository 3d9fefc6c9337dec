import Fos.Trap.ReturnedPages

/-! Runs of a process that calls `malloc` and `free`. A page that `free` has given back is closed to the process until it is
    allocated again, as long as `free` gives back no page of a block: `return_page` leaves the mark of the page, which
    `free_user_mem` takes away. -/

namespace Fos.Heap
open Lib Mem

namespace UHeap

/-- The heap after `uheap_init`, without the loop over the pages. -/
def initialized {σ : Type} (w : σ) : UHeap σ :=
  { world := w
    firstTimeFlag := false
    da := DynAlloc.initialized
      { dynAllocStart := userHeapStart
        dynAllocEnd := u32 (userHeapStart + dynAllocMaxSize)
        blocks := (List.finRange 9).foldl Lists.init {}
        pages := Lists.init {} () } (dynAllocMaxSize / pageSize)
    uheapPageAllocStart := u32 (u32 (userHeapStart + dynAllocMaxSize) + pageSize)
    uheapPageAllocBreak := u32 (u32 (userHeapStart + dynAllocMaxSize) + pageSize) }

theorem uheapInit_initialized {σ : Type} (w : σ) : UHeap.uheapInit { world := w } = some (initialized w) := by
  have hempty : (Lists.init ({} : Lists Unit Nat) ()).head () = {} := by simp [Lists.init]
  unfold uheapInit DynAlloc.initializeDynamicAllocator
  rw [if_pos rfl, if_pos (Nat.le_refl _)]
  dsimp only
  rw [if_pos (by decide), DynAlloc.foldl_initPage_eq hempty]
  rfl

section Calls

variable {E : Type} [DecidableEq E] {ops : PageOps (UserMem E)} {e : E} {s h t : UHeap (UserMem E)} {L : BulkList → List Nat}
  {out : List Nat} {y : Ends E} {n va size : Nat}

/-- How `malloc` ends. -/
inductive Malloced (ops : PageOps (UserMem E)) (e : E) (h : UHeap (UserMem E)) (size : Nat) : Ends E × Nat → Prop
  | null : Malloced ops e h size (.returns h, 0)
  | block {w : UserMem E} {d : DynAlloc} {va : Nat} : 0 < size → size ≤ dynAllocMaxBlockSize →
      DynAlloc.allocBlock ops h.world h.da size = some (w, d, va) →
      Malloced ops e h size (.returns { h with world := w, da := d }, va)
  | full {t : UHeap (UserMem E)} : h.userPageAllocCustomFit (roundUp size pageSize) = some (t, 0) →
      Malloced ops e h size (.returns t, 0)
  | region {t : UHeap (UserMem E)} {va : Nat} {y : Ends E} : ¬size ≤ dynAllocMaxBlockSize →
      h.userPageAllocCustomFit (roundUp size pageSize) = some (t, va) → va ≠ 0 →
      t.sysAllocateUserMem e va (roundUp size pageSize) = some y → Malloced ops e h size (y, va)

theorem malloced {r : Ends E × Nat} (hinit : s.uheapInit = some h) (hs : s.mallocWithCall ops e size = some r) :
    Malloced ops e h size r := by
  obtain ⟨⟨t, va⟩, hmalloc, hs⟩ := Option.bind_eq_some_iff.mp hs
  unfold UHeap.malloc at hmalloc
  rw [hinit, Option.bind_some] at hmalloc
  split at hmalloc
  case isTrue =>
    cases hmalloc
    dsimp only at hs
    rw [if_pos (.inr rfl)] at hs
    cases hs
    exact .null
  case isFalse hpos =>
    split at hmalloc
    case isTrue hsmall =>
      obtain ⟨⟨w, d, va'⟩, halloc, heq⟩ := Option.map_eq_some_iff.mp hmalloc
      cases heq
      dsimp only at hs
      rw [if_pos (.inl hsmall)] at hs
      cases hs
      exact .block (Nat.pos_of_ne_zero hpos) hsmall halloc
    case isFalse hlarge =>
      dsimp only at hs
      split at hs
      case isTrue hnull =>
        obtain rfl := hnull.resolve_left hlarge
        cases hs
        exact .full hmalloc
      case isFalse hfound =>
        obtain ⟨y, hy, rfl⟩ := Option.map_eq_some_iff.mp hs
        exact .region hlarge hmalloc (fun hzero => hfound (.inr hzero)) hy

/-- Where a region of the page allocator lies. -/
theorem Limited.fit_bounds {σ : Type} {h t : UHeap σ} (hl : Limited h L out) (hn : n % 4096 = 0)
    (hs : h.userPageAllocCustomFit n = some (t, va)) (hva : va ≠ 0) :
    2181042176 ≤ va ∧ va % 4096 = 0 ∧ va + n ≤ userHeapMax := by
  obtain ⟨r, hr, hfit⟩ := hl.customFit hn
  cases hs.symm.trans hr
  cases hfit with
  | null => exact absurd rfl hva
  | free _ hlow ha hroom => exact ⟨hlow, ha, hroom.le⟩
  | raised _ hroom =>
    obtain ⟨hlow, -, ha⟩ := hl.break_range
    exact ⟨hlow, ha, hroom⟩

theorem Limited.fit_world {σ : Type} {h t : UHeap σ} (hl : Limited h L out) (hs : h.userPageAllocCustomFit n = some (t, va)) :
    t.world = h.world := by
  obtain ⟨r, hr, hplace⟩ := hl.placement n
  cases hs.symm.trans hr
  exact hplace.world

theorem sysAllocateUserMem_cases (hs : t.sysAllocateUserMem e va size = some y) :
    y = .exits ∨ inUserRange va size ∧ ∃ w, t.world.allocateUserMem e va size = some w ∧ y = .returns { t with world := w } := by
  unfold sysAllocateUserMem at hs
  split at hs
  case isTrue hrange =>
    obtain ⟨w, hw, rfl⟩ := Option.map_eq_some_iff.mp hs
    exact .inr ⟨hrange, w, hw, rfl⟩
  case isFalse =>
    cases hs
    exact .inl rfl

theorem sysFreeUserMem_cases (hs : t.sysFreeUserMem e va size = some y) :
    y = .exits ∨ ∃ w, t.world.freeUserMem e va size = some w ∧ y = .returns { t with world := w } := by
  unfold sysFreeUserMem at hs
  split at hs
  case isTrue =>
    obtain ⟨w, hw, rfl⟩ := Option.map_eq_some_iff.mp hs
    exact .inr ⟨w, hw, rfl⟩
  case isFalse =>
    cases hs
    exact .inl rfl

/-- `free` of a region: the library knows no size, or it merges the region into the free ones and asks the kernel. -/
theorem Limited.freeWithCall_region (hl : Limited s L out) (hlow : 2181042176 ≤ va) (hhigh : va < userHeapMax)
    (hs : s.freeWithCall ops e va = some y) :
    s.allocationSizes (sizeIndex va) = 0 ∧ s.free ops va = some s ∧ y = .returns s ∨
      s.allocationSizes (sizeIndex va) ≠ 0 ∧ ∃ t, s.free ops va = some t ∧ t.world = s.world ∧
        t.sysFreeUserMem e va (s.allocationSizes (sizeIndex va)) = some y := by
  have hmin : userHeapStart = 2147483648 := rfl
  have hstart := hl.page_start
  have hfree : s.free ops va = _ := hl.free_page_eq hlow hhigh
  obtain ⟨t, ht, hs⟩ := Option.bind_eq_some_iff.mp hs
  dsimp only at hs
  by_cases hzero : s.allocationSizes (sizeIndex va) = 0
  · rw [if_pos hzero, ht] at hfree
    cases hfree
    rw [if_neg fun h => h.2.2.2 hzero] at hs
    cases hs
    exact .inl ⟨hzero, ht, rfl⟩
  · rw [if_neg hzero, ht] at hfree
    rw [if_pos ⟨by omega, hhigh, by omega, hzero⟩] at hs
    obtain ⟨u, hu, heq⟩ := Option.map_eq_some_iff.mp hfree.symm
    obtain ⟨bulks, idx, rfl⟩ := mergeBulks_eq hu
    exact .inr ⟨hzero, t, ht, heq ▸ rfl, hs⟩

/-- `free` of a block that is not the last one of its page. -/
theorem freeWithCall_block (hstart : s.uheapPageAllocStart = 2181042176) (hlow : 2147483648 ≤ va) (hblock : va < 2181042176)
    (hkeeps : s.da.lastOfPage va = false) (hs : s.freeWithCall ops e va = some y) :
    ∃ t, s.free ops va = some t ∧ t.world = s.world ∧ y = .returns t := by
  have hmin : userHeapStart = 2147483648 := rfl
  have hmax : userHeapMax = 2684354560 := rfl
  obtain ⟨t, ht, hs⟩ := Option.bind_eq_some_iff.mp hs
  dsimp only at hs
  rw [if_neg (by omega)] at hs
  cases hs
  refine ⟨t, ht, ?_, rfl⟩
  have hfree : s.free ops va = _ := UProcess.free_block_eq (s := ⟨s, []⟩) hstart hlow hblock
  rw [ht] at hfree
  obtain ⟨⟨w, d⟩, hd, rfl⟩ := Option.map_eq_some_iff.mp hfree.symm
  exact DynAlloc.freeBlock_stays hkeeps hd

end Calls

end UHeap

end Fos.Heap

namespace Fos.Trap
open Lib Heap Disk Mem

namespace HeapRun

variable {E : Type} [DecidableEq E] {e : E} {s t : HeapRun E} {ev : HeapEvent E} {ps : List Nat} {p n k : Nat}

/-- The page is one of the page allocator that is not allocated, and it was. -/
structure Gone (e : E) (s : KernelRun E) (p : Nat) : Prop where
  inHeap : InPageHeap p
  aligned : p % 4096 = 0
  table : s.mem.run.paging.pde e (pdx p) ≠ none
  clean : s.mem.Clean e p

omit [DecidableEq E] in
theorem Gone.kept {k k' : KernelRun E} (h : Gone e k p) (hk : Kept e ps k k') (hnot : ∀ x ∈ ps, ¬ Paging.SamePage p x) : Gone e k' p := by
  obtain ⟨x, hx⟩ := Option.ne_none_iff_exists'.mp h.table
  refine ⟨h.inHeap, h.aligned, ?_, hk.clean p h.inHeap hnot h.clean⟩
  rw [hk.grows.pde _ _ _ hx]
  exact Option.some_ne_none x

omit [DecidableEq E] in
theorem Gone.stays {k k' : KernelRun E} (h : Gone e k p) (hk : Kept e [] k k') : Gone e k' p :=
  h.kept hk fun _ hx => absurd hx List.not_mem_nil

/-- What every run keeps. -/
structure Inv (e : E) (s : HeapRun E) : Prop where
  kernel : s.kernel.Inv
  attached : s.kernel.mem.run.paging.Attached
  heap : UProcess.LimitedOrNew s.kernel.mem ⟨s.library, s.live⟩
  alone : ∀ q, InPageHeap q → s.kernel.mem.Alone e q
  returned : ∀ p ∈ s.returned, Gone e s.kernel p

omit [DecidableEq E] in
theorem Inv.kept (h : Inv e s) (hk : Kept e ps s.kernel t.kernel) (hheap : UProcess.LimitedOrNew t.kernel.mem ⟨t.library, t.live⟩)
    (hreturned : ∀ p ∈ t.returned, Gone e t.kernel p) : Inv e t :=
  ⟨hk.inv, h.attached.grows hk.grows, hheap, fun q hq => hk.alone q hq (h.alone q hq), hreturned⟩

theorem Inv.ended (h : Inv e s) : Inv e (s.ended e) :=
  ⟨⟨h.kernel.mem, fun d hd => h.kernel.hand d (KernelRun.running_of_update hd).2⟩, h.attached, h.heap, h.alone,
    fun p hp => have hgone := h.returned p hp; ⟨hgone.inHeap, hgone.aligned, hgone.table, hgone.clean⟩⟩

theorem Inv.user {ev : UserEvent E} (h : Inv e s) (hok : Between e s.kernel ev) (hs : s.step e (.user ev) = some t) : Inv e t := by
  obtain ⟨k, hk, rfl⟩ := Option.map_eq_some_iff.mp hs
  have hkept := hok.kept h.kernel hk
  exact h.kept hkept (h.heap.elsewhere k.mem) fun p hp => (h.returned p hp).stays hkept

omit [DecidableEq E] in
/-- The library returns with the heap `u`. -/
theorem Inv.returns {u : UHeap (UserMem E)} {live returned : List Nat} (h : Inv e s)
    (hk : Kept e ps s.kernel (s.kernel.setMem u.world)) (hheap : UProcess.Limited ⟨u, live⟩)
    (hreturned : ∀ p ∈ returned, Gone e (s.kernel.setMem u.world) p) :
    Inv e { kernel := s.kernel.setMem u.world, heap := u, live := live, returned := returned } :=
  h.kept hk (.inr hheap) hreturned

omit [DecidableEq E] in
/-- Pages of the heap that are different numbers are different ones. -/
theorem Gone.not_samePage {k : KernelRun E} {va size : Nat} (h : Gone e k p) (hlow : 2181042176 ≤ va) (ha : va % 4096 = 0)
    (hn : size % 4096 = 0) (hend : va + size ≤ userHeapMax) (hp : p ∉ pagesOf va size) : ∀ x ∈ pagesOf va size, ¬ Paging.SamePage p x := by
  intro x hx hsame
  have hin := InPageHeap.of_mem hlow ha hn hend hx
  have hlt := h.inHeap.lt
  have hlt' := hin.lt
  have haligned := h.aligned
  rw [samePage_iff (by omega) (by omega)] at hsame
  obtain ⟨i, -, hi⟩ := (mem_pagesOf ha hn hend).mp hx
  obtain rfl : p = x := by omega
  exact hp hx

theorem Inv.malloc {size : Nat} (h : Inv e s) (hs : s.step e (.malloc size) = some t) : Inv e t := by
  obtain ⟨⟨y, va⟩, hcall, rfl⟩ := Option.map_eq_some_iff.mp hs
  obtain ⟨u, hinit, hlimited, hworld⟩ := h.heap.init rfl
  have hworld : u.world = s.kernel.mem := hworld
  have hsame : Kept e [] s.kernel (s.kernel.setMem u.world) := by
    rw [hworld]
    exact .refl h.kernel
  have hgone : ∀ {k} {l : List Nat}, Kept e [] s.kernel k → ∀ p ∈ s.returned.filter (· ∉ l), Gone e k p := fun hk p hp =>
    (h.returned p (List.mem_filter.mp hp).1).stays hk
  obtain ⟨L, hheap, -⟩ := id hlimited
  cases UHeap.malloced hinit hcall with
  | null => exact h.returns hsame hlimited (hgone hsame)
  | @block w d va hpos hsmall halloc =>
    have hk : Kept e [] s.kernel (s.kernel.setMem w) := by
      rcases hheap.blocks.alloc_page (UserMem.heapPages_local e) hpos halloc with rfl | ⟨m, page, m', hlow, hgot⟩
      · exact hsame
      · rw [hworld] at hgot
        exact kept_of_getPage h.kernel hlow hgot
    exact h.returns (u := { u with world := w, da := d }) hk
      (UProcess.Limited.keep_block (s := ⟨u, s.live⟩) (UserMem.heapPages_local e) hlimited hpos halloc) (hgone hk)
  | @full v hfit =>
    have hk : Kept e [] s.kernel (s.kernel.setMem v.world) := by
      rw [hheap.fit_world hfit]
      exact hsame
    exact h.returns hk (UProcess.Limited.keep_fit (s := ⟨u, s.live⟩) hlimited (roundUp_aligned size) hfit (fun hne => absurd rfl hne)
      (.inl rfl)) (hgone hk)
  | @region v va y hlarge hfit hne hy =>
    have hn := roundUp_aligned size
    obtain ⟨hlow, ha, hend⟩ := hheap.fit_bounds hn hfit hne
    rcases UHeap.sysAllocateUserMem_cases hy with rfl | ⟨hrange, w, hw, rfl⟩
    · exact h.ended
    · rw [hheap.fit_world hfit, hworld] at hw
      have hk := kept_of_allocate h.kernel h.attached h.alone (fun p hp => .of_mem hlow ha hn hend hp) hw
      have hlimited' : UProcess.Limited (UProcess.keep ⟨u, s.live⟩ (v, va)) :=
        UProcess.Limited.keep_fit (s := ⟨u, s.live⟩) hlimited hn hfit (fun _ => hrange) (.inl rfl)
      refine h.returns (u := { v with world := w }) hk (UProcess.Limited.elsewhere hlimited' w) fun p hp => ?_
      obtain ⟨hp, htaken⟩ := List.mem_filter.mp hp
      have hp := h.returned p hp
      refine hp.kept hk (hp.not_samePage hlow ha hn hend ?_)
      have htaken := of_decide_eq_true htaken
      unfold UHeap.takenPages at htaken
      rwa [if_neg hne, if_neg hlarge] at htaken

theorem Inv.free {va : Nat} (h : Inv e s) (hkeeps : KeepsBlockPages s (.free va)) (hs : s.step e (.free va) = some t) : Inv e t := by
  obtain ⟨hva, hs⟩ := Option.ite_none_right_eq_some.mp hs
  obtain ⟨y, hcall, rfl⟩ := Option.map_eq_some_iff.mp hs
  have hsame : Kept e [] s.kernel (s.kernel.setMem s.kernel.mem) := .refl h.kernel
  obtain hnew | hlimited := h.heap
  · rw [(UProcess.mk.inj hnew).2] at hva
    exact absurd hva List.not_mem_nil
  obtain ⟨L, hheap, hlive⟩ := id hlimited
  have hstart : s.heap.uheapPageAllocStart = 2181042176 := hheap.page_start
  rcases Nat.lt_or_ge va 2181042176 with hblock | hpage
  · have hout : va ∈ s.live.filter (· < 2181042176) := List.mem_filter.mpr ⟨hva, decide_eq_true hblock⟩
    have hlast : s.heap.da.lastOfPage va = false := hkeeps (hstart ▸ hblock)
    obtain ⟨u, hu, hworld, rfl⟩ := UHeap.freeWithCall_block (s := s.library) hstart (hheap.blocks.bounds hout).1 hblock hlast hcall
    have hk : Kept e [] s.kernel (s.kernel.setMem u.world) := by
      rw [hworld]
      exact hsame
    refine h.returns hk (hlimited.free (UserMem.heapPages_local e) hva hu) fun p hp => (h.returned p ?_).stays hk
    unfold UHeap.givenBack at hp
    rw [hstart, if_pos hblock, hlast] at hp
    exact hp
  · obtain ⟨hhigh, ha⟩ := hlive va hva hpage
    have hpages : s.heap.givenBack va = pagesOf va (s.heap.allocationSizes (UHeap.sizeIndex va)) := by
      unfold UHeap.givenBack
      rw [hstart, if_neg (Nat.not_lt.mpr hpage)]
    rcases hheap.freeWithCall_region hpage hhigh hcall with ⟨hzero, hfree, rfl⟩ | ⟨hne, u, hu, hworld, hy⟩
    · refine h.returns hsame (hlimited.free (UserMem.heapPages_local e) hva hfree) fun p hp => ?_
      have hzero : s.heap.allocationSizes (UHeap.sizeIndex va) = 0 := hzero
      rw [hpages, hzero] at hp
      rcases List.mem_append.mp hp with hp | hp
      · obtain ⟨i, hi, -⟩ := (mem_pagesOf ha rfl hhigh.le).mp hp
        exact absurd hi (Nat.not_lt_zero i)
      · exact (h.returned p hp).stays hsame
    · rcases UHeap.sysFreeUserMem_cases hy with rfl | ⟨w, hw, rfl⟩
      · exact h.ended
      · rw [hworld] at hw
        have hbelow := hheap.sizes _ hne
        rw [UHeap.sizeIndex_address hpage hhigh ha] at hbelow
        obtain ⟨hk, hclean⟩ := kept_of_free h.kernel hw
        have hlimited' := UProcess.Limited.elsewhere (hlimited.free (UserMem.heapPages_local e) hva hu) w
        refine h.returns (u := { u with world := w }) hk hlimited' fun p hp => ?_
        rw [hpages] at hp
        rcases List.mem_append.mp hp with hp | hp
        · obtain ⟨hp', htable⟩ := hclean p hp
          obtain ⟨i, -, hi⟩ := (mem_pagesOf ha hbelow.aligned.2 hbelow.high.le).mp hp
          exact ⟨.of_mem hpage ha hbelow.aligned.2 hbelow.high.le hp, by omega, htable, hp'⟩
        · exact (h.returned p hp).stays hk

theorem Inv.step (h : Inv e s) (hok : Allowed e s ev) (hkeeps : KeepsBlockPages s ev) (hs : s.step e ev = some t) : Inv e t := by
  cases ev with
  | malloc size => exact h.malloc hs
  | free va => exact h.free hkeeps hs
  | user ev => exact h.user hok.2 hs

omit [DecidableEq E] in
/-- A process whose heap is not used yet. -/
theorem Inv.of_started (hk : s.kernel.UserInv n k) (hstart : Started e s) : Inv e s := by
  refine ⟨⟨⟨_, _, hk.mem⟩, hk.hand⟩, hk.attached, ?_, fun q hq f d x hm _ => ?_, ?_⟩
  · unfold library
    rw [hstart.heap, hstart.live]
    exact .inl rfl
  · have hunused := hstart.unused q (le_trans (by decide) hq.1) hq.2
    exact absurd (hunused.symm.trans hm.1) Bool.false_ne_true
  · rw [hstart.returned]
    exact nofun

/-- In every run in which `free` gives back no page of a block, a page that was given back and is not allocated again is closed to
    the process: a user access faults, and the fault ends the environment. -/
theorem returned_page_closed {k₀ : KernelRun E} {s₀ : HeapRun E} (hmin : 160 ≤ n) (hn : n ≤ 1048576) (hk : 256 ≤ k)
    (hboot : k₀.Booted n k) (hr₀ : Reach KernelRun.userStep KernelRun.UserAccepted k₀ s₀.kernel) (hstart : Started e s₀)
    (hr : Reach (HeapRun.step e) (fun s ev => Allowed e s ev ∧ KeepsBlockPages s ev) s₀ s) :
    ∀ p ∈ s.returned, ∀ va < 4294967296, Paging.SamePage va p → s.kernel.kernel.Closed e va := by
  have hi : Inv e s := hr.invariant (.of_started (.reach hmin hn hk hboot hr₀) hstart) fun _ _ _ h hok hs => h.step hok.1 hok.2 hs
  intro p hp va hva hsame
  obtain ⟨hin, -, htable, hclean⟩ := hi.returned p hp
  obtain ⟨⟨all, boot, hmem⟩, -⟩ := hi.kernel
  refine Kernel.closed_of_clean hmem.walk ⟨?_, ?_⟩ (hin.of_samePage hva hsame) ?_
  · show (s.kernel.mem.run.paging.page e va).present = false
    rw [Paging.page_samePage hsame]
    exact hclean.unmapped
  · show (s.kernel.mem.run.paging.page e va).perm.getLsbD 10 = false
    rw [Paging.page_samePage hsame]
    exact hclean.unmarked
  · rw [hsame.1]
    exact htable

/-- The first call of `malloc` prepares the heap. -/
theorem step_first {kernel : KernelRun E} {size : Nat}
    (hs : step e { kernel := kernel, heap := UHeap.initialized kernel.mem } (.malloc size) = some s) (hrunning : s.kernel.running e) :
    step e { kernel := kernel, heap := { world := kernel.mem } } (.malloc size) = some s := by
  have hinit : (library { kernel := kernel, heap := UHeap.initialized kernel.mem }).uheapInit = some (UHeap.initialized kernel.mem) := rfl
  obtain ⟨⟨y, va⟩, hcall, rfl⟩ := Option.map_eq_some_iff.mp hs
  have hcall' : UHeap.mallocWithCall (UserMem.heapPages e) e { world := kernel.mem } size = some (y, va) := by
    rw [← hcall]
    unfold UHeap.mallocWithCall UHeap.malloc
    rw [UHeap.uheapInit_initialized, hinit]
  refine Option.map_eq_some_iff.mpr ⟨_, hcall', ?_⟩
  cases y with
  | returns u => rfl
  | exits => exact absurd rfl (KernelRun.running_of_update hrunning).1

/-- A process without segments that was created behind the boot has not used its heap. -/
theorem started_created {r₀ : PagingRun Unit} (hboot : PagingRun.afterBoot Unit 1024 768 = some r₀) {k : KernelRun Unit}
    (hs : (KernelRun.start r₀ {}).step (.envCreate () 5 "prog" []) = some k) (hrunning : k.running ()) :
    Reach KernelRun.userStep KernelRun.UserAccepted (KernelRun.start r₀ {}) k ∧
      Started () { kernel := k, heap := { world := k.mem } } := by
  have hbooted := KernelRun.booted_start hboot {}
  have hcreate : (KernelRun.start r₀ {}).Allowed (.envCreate () 5 "prog" []) :=
    hbooted.allowed_envCreate (by decide) (by decide) (by decide) (by decide) (by decide) ⟨nofun, .nil⟩
  refine ⟨.step (.kernel (.envCreate () 5 "prog" [])) .init ⟨hcreate, trivial, trivial⟩ hs, hrunning, rfl, rfl, rfl, fun q _ hhigh => ?_⟩
  obtain ⟨m, hm, rfl⟩ := Option.map_eq_some_iff.mp hs
  have hmem := hbooted.memInv (by decide) (by decide) (by decide)
  have hstack : ¬ Paging.SamePage q UserMem.stackVa := by
    simp only [userHeapMax] at hhigh
    rw [samePage_iff (by omega) (by decide)]
    simp only [UserMem.stackVa, ustacktop, userTop, pageSize]
    omega
  exact congrArg Pte.present (UserMem.envCreate_stack hmem hcreate.1 hm hstack)

/-- Two pages of the page allocator are given back, and the second one is closed. -/
theorem returned_page_closed_region : ∃ (k₀ : KernelRun Unit) (s₀ s : HeapRun Unit), k₀.Booted 1024 768 ∧ Started () s₀ ∧
    exec (step ()) s₀ [.malloc 5000, .free 2181042176] = some s ∧ s.returned = [2181042176, 2181046272] ∧
      s.kernel.kernel.Closed () 2181046276 := by
  have hrun : ((PagingRun.afterBoot Unit 1024 768).bind fun r₀ => ((KernelRun.start r₀ {}).step (.envCreate () 5 "prog" [])).bind fun k =>
      (step () { kernel := k, heap := UHeap.initialized k.mem } (.malloc 5000)).bind fun s₁ =>
      (s₁.step () (.free 2181042176)).map fun s => ((k.running (), s₁.kernel.running ()), s₁.heap.uheapPageAllocStart, s.returned)) =
      some ((true, true), 2181042176, [2181042176, 2181046272]) := by
    rw [PagingRun.afterBoot_eq]
    decide +kernel
  obtain ⟨r₀, hboot, hrun⟩ := Option.bind_eq_some_iff.mp hrun
  obtain ⟨k, hk, hrun⟩ := Option.bind_eq_some_iff.mp hrun
  obtain ⟨s₁, hs₁, hrun⟩ := Option.bind_eq_some_iff.mp hrun
  obtain ⟨s, hs, hresult⟩ := Option.map_eq_some_iff.mp hrun
  simp only [Prod.mk.injEq] at hresult
  obtain ⟨⟨hrunning, hrunning₁⟩, hblocks, hreturned⟩ := hresult
  obtain ⟨hr₀, hstart⟩ := started_created hboot hk hrunning
  have hs₁ := step_first hs₁ hrunning₁
  refine ⟨KernelRun.start r₀ {}, _, s, KernelRun.booted_start hboot {}, hstart, exec_cons.mpr ⟨s₁, hs₁, exec_cons.mpr ⟨s, hs, rfl⟩⟩,
    hreturned, ?_⟩
  have hr : Reach (step ()) (fun s ev => Allowed () s ev ∧ KeepsBlockPages s ev) { kernel := k, heap := { world := k.mem } } s := by
    refine .step (.free 2181042176) (.step (.malloc 5000) .init ⟨⟨hrunning, (by decide : 5000 < 4294967296)⟩, trivial⟩ hs₁)
      ⟨⟨hrunning₁, trivial⟩, fun hblock => ?_⟩ hs
    rw [hblocks] at hblock
    exact absurd hblock (lt_irrefl _)
  exact returned_page_closed (by decide) (by decide) (by decide) (KernelRun.booted_start hboot {}) hr₀ hstart hr 2181046272
    (by rw [hreturned]; decide) 2181046276 (by decide) (by decide)

/-- The only block of a page is freed. The page is given back, but it is still marked, and a user fault there is served. -/
theorem returned_block_page_served : ∃ (k₀ : KernelRun Unit) (s₀ s : HeapRun Unit) (t : Kernel Unit), k₀.Booted 1024 768 ∧
    Reach KernelRun.userStep KernelRun.UserAccepted k₀ s₀.kernel ∧ Started () s₀ ∧ Reach (step ()) (Allowed ()) s₀ s ∧
    exec (step ()) s₀ [.malloc 100, .free 2147483648] = some s ∧ 2147483648 ∈ s.returned ∧
    s.kernel.kernel.pageFaultTrap () true 2147483648 = some (t, .served) ∧ ¬ s.kernel.kernel.Closed () 2147483648 := by
  have hrun : ((PagingRun.afterBoot Unit 1024 768).bind fun r₀ => ((KernelRun.start r₀ {}).step (.envCreate () 5 "prog" [])).bind fun k =>
      (step () { kernel := k, heap := UHeap.initialized k.mem } (.malloc 100)).bind fun s₁ =>
      (s₁.step () (.free 2147483648)).bind fun s => (s.kernel.kernel.pageFaultTrap () true 2147483648).map fun x =>
        ((k.running (), s₁.kernel.running ()), s.returned, x.2)) = some ((true, true), [2147483648], .served) := by
    rw [PagingRun.afterBoot_eq]
    decide +kernel
  obtain ⟨r₀, hboot, hrun⟩ := Option.bind_eq_some_iff.mp hrun
  obtain ⟨k, hk, hrun⟩ := Option.bind_eq_some_iff.mp hrun
  obtain ⟨s₁, hs₁, hrun⟩ := Option.bind_eq_some_iff.mp hrun
  obtain ⟨s, hs, hrun⟩ := Option.bind_eq_some_iff.mp hrun
  obtain ⟨⟨t, o⟩, ht, hresult⟩ := Option.map_eq_some_iff.mp hrun
  simp only [Prod.mk.injEq] at hresult
  obtain ⟨⟨hrunning, hrunning₁⟩, hreturned, rfl⟩ := hresult
  obtain ⟨hr₀, hstart⟩ := started_created hboot hk hrunning
  have hs₁ := step_first hs₁ hrunning₁
  have hr : Reach (step ()) (Allowed ()) { kernel := k, heap := { world := k.mem } } s :=
    .step (.free 2147483648) (.step (.malloc 100) .init ⟨hrunning, (by decide : 100 < 4294967296)⟩ hs₁) ⟨hrunning₁, trivial⟩ hs
  refine ⟨KernelRun.start r₀ {}, _, s, t, KernelRun.booted_start hboot {}, hr₀, hstart, hr,
    exec_cons.mpr ⟨s₁, hs₁, exec_cons.mpr ⟨s, hs, rfl⟩⟩, by rw [hreturned]; decide, ht, fun hclosed => ?_⟩
  exact absurd (hclosed.only t .served ht) nofun

end HeapRun

end Fos.Trap
