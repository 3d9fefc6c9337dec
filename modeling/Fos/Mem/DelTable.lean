import Fos.Heap.KHeapTotal
import Fos.Mem.WalkRun
import Fos.Disk.PageFile

/-! `del_page_table` (`kern/mem/paging_helpers.c`). It has a directory as its argument, but it reads and clears the entry of
    the kernel's directory, the global `ptr_page_directory`. -/

namespace Fos.Mem
open Lib Heap Frames

/-! ### The nodes of the kernel heap along the runs -/

namespace Paging

variable {D : Type} [DecidableEq D] {all : List PageNo} {boot : PageNo → Nat} {handed : List PageNo} {live tables : List Nat}
  {s s' : Paging D} {dir : D} {f t : PageNo} {va : Nat} {perm : BitVec 12}

omit [DecidableEq D] in
theorem mapFrameIn_fits (h : s.heap.NodesFit) (hs : s.mapFrameIn t f va perm = some s') : s'.heap.NodesFit := by
  obtain ⟨m, -, rfl⟩ := Option.map_eq_some_iff.mp hs
  exact h.congr rfl rfl

theorem Inv.createPageTable_fits (hi : Inv all boot handed live tables s) (h : s.heap.NodesFit)
    (hs : s.createPageTable dir va = some (s', t)) : s'.heap.NodesFit := by
  obtain ⟨F, lost, howned⟩ := hi.owned
  obtain ⟨k, ptr, hk, -, -, rfl⟩ := createPageTable_eq_some.mp hs
  exact (howned.kmalloc_fits h hk).congr rfl rfl

theorem Inv.mapFrame_fits (hi : Inv all boot handed live tables s) (h : s.heap.NodesFit)
    (hs : s.mapFrame dir f va perm = some s') : s'.heap.NodesFit := by
  obtain ⟨r, -, hs⟩ := Option.bind_eq_some_iff.mp hs
  cases r with
  | notExist =>
    obtain ⟨⟨s₁, x⟩, hs₁, hs⟩ := Option.bind_eq_some_iff.mp hs
    exact mapFrameIn_fits (hi.createPageTable_fits h hs₁) hs
  | null => exact nomatch hs
  | inMemory x => exact mapFrameIn_fits h hs

end Paging

namespace PagingRun

variable {D : Type} [DecidableEq D] {all : List PageNo} {boot : PageNo → Nat} {s t : PagingRun D} {e : TableEvent D}

theorem WalkInv.step_fits (h : WalkInv all boot s) (hfits : s.paging.heap.NodesFit) (hallowed : s.TableAllowed e)
    (hs : s.tableStep e = some t) : t.paging.heap.NodesFit := by
  obtain ⟨⟨tables, hi⟩, hl⟩ := h
  cases e with
  | createPageTable dir va =>
    obtain ⟨⟨p, ptr⟩, hp, rfl⟩ := Option.map_eq_some_iff.mp hs
    obtain ⟨x, _, hx, -⟩ := Paging.createPageTableAt_eq_some.mp hp
    exact hi.createPageTable_fits hfits hx
  | paging e =>
    cases e with
    | allocateFrame =>
      obtain ⟨⟨p, f⟩, hp, rfl⟩ := Option.map_eq_some_iff.mp hs
      obtain ⟨⟨m, g⟩, -, heq⟩ := Option.map_eq_some_iff.mp hp
      obtain ⟨rfl, -⟩ := Prod.mk.inj heq
      exact hfits.congr rfl rfl
    | mapFrame dir f va perm =>
      obtain ⟨p, hp, rfl⟩ := Option.map_eq_some_iff.mp hs
      exact hi.mapFrame_fits hfits hp
    | unmapFrame dir va =>
      obtain ⟨p, hp, rfl⟩ := Option.map_eq_some_iff.mp hs
      obtain ⟨r, -, hp⟩ := Option.bind_eq_some_iff.mp hp
      cases r with
      | inMemory x =>
        obtain ⟨m, -, rfl⟩ := Option.map_eq_some_iff.mp hp
        exact hfits.congr rfl rfl
      | _ =>
        cases hp
        exact hfits
    | allocPage dir va perms =>
      obtain ⟨p, hp, rfl⟩ := Option.map_eq_some_iff.mp hs
      obtain ⟨r, -, hp⟩ := Option.bind_eq_some_iff.mp hp
      cases r with
      | some g =>
        cases hp
        exact hfits
      | none =>
        obtain ⟨⟨p₁, f⟩, hp₁, hp⟩ := Option.bind_eq_some_iff.mp hp
        obtain ⟨hi₁, -⟩ := hi.allocateFrame hp₁
        obtain ⟨⟨m, g⟩, -, heq⟩ := Option.map_eq_some_iff.mp hp₁
        obtain ⟨rfl, -⟩ := Prod.mk.inj heq
        exact hi₁.mapFrame_fits (hfits.congr rfl rfl) hp
    | kmalloc size =>
      obtain ⟨⟨k, va⟩, hk, rfl⟩ := Option.map_eq_some_iff.mp hs
      obtain ⟨F, lost, howned⟩ := hi.owned
      exact howned.kmalloc_fits hfits hk
    | kfree va =>
      obtain ⟨k, hk, rfl⟩ := Option.map_eq_some_iff.mp hs
      obtain ⟨F, lost, howned⟩ := hi.owned
      obtain ⟨k', hk', hfits'⟩ := howned.kfree_returns hfits (fun p f hf => (hl.rooted p f hf).2) (List.mem_append_left _ hallowed)
      cases hk.symm.trans hk'
      exact hfits'

theorem nodesFit_reach {n k : Nat} {s₀ : PagingRun D} (hmin : 160 ≤ n) (hn : n ≤ 1048576) (hk : 256 ≤ k)
    (hboot : afterBoot D n k = some s₀)
    (hr : Reach tableStep (fun s e => s.TableAllowed e ∧ s.UserFrame e ∧ s.TablePlain e) s₀ s) :
    WalkInv (bootFree n k) (bootReferences k) s ∧ s.paging.heap.NodesFit := by
  refine hr.invariant (I := fun s => WalkInv (bootFree n k) (bootReferences k) s ∧ s.paging.heap.NodesFit)
    ⟨WalkInv.reach hmin hn hk hboot .init, ?_⟩ fun s e t hi hok hs =>
      ⟨(hi.1.step hok.1 hok.2.1 hok.2.2 hs).1, hi.1.step_fits hi.2 hok.1 hs⟩
  rw [afterBoot_eq] at hboot
  cases hboot
  intro L hspells j x hx
  rw [hspells.eq_nil_of_first rfl] at hx
  exact nomatch hx

end PagingRun

/-! ### The directories -/

/-- The page directories with the kernel's own. From `USER_TOP` on the entries name tables that are not in the kernel heap. -/
structure Directories (D : Type) where
  paging : Paging D
  /-- The global directory of the kernel -/
  ptrPageDirectory : D
  kernelPde : D → Fin 1024 → Option PageNo := fun _ _ => none
  /-- The boot took the kernel's tables from the memory that is mapped below the heap. -/
  static : ∀ j t, kernelPde ptrPageDirectory j = some t → t.val < 24576

namespace Directories
open Disk

variable {D : Type} [DecidableEq D]

/-- `page_dir[j]`; `none` is an entry that is 0. -/
def entry (s : Directories D) (d : D) (j : Fin 1024) : Option PageNo :=
  if j.val < userTop / 4194304 then s.paging.pde d j else s.kernelPde d j

/-- `get_page_table(page_dir, va, &ptr_page_table)`: the address of the table, 0 for null. -/
def getPageTable (s : Directories D) (d : D) (va : Nat) : Option Nat :=
  if va < userTop then (s.paging.getPageTableAt d va).map (·.2)
  else
    match s.kernelPde d (pdx va) with
    | none => some 0
    | some t => if t.val < s.paging.heap.mem.numberOfFrames then some (u32 (t.val * pageSize + kernelBase)) else none

theorem static_update {f : D → Fin 1024 → Option PageNo} {d m : D} {i : Fin 1024}
    (h : ∀ j t, f m j = some t → t.val < 24576) (j : Fin 1024) (t : PageNo)
    (ht : Function.update f d (Function.update (f d) i none) m j = some t) : t.val < 24576 := by
  rw [Paging.pde_update] at ht
  split at ht
  · exact nomatch ht
  · exact h j t ht

/-- `page_dir[j] = 0` -/
def clearEntry (s : Directories D) (d : D) (j : Fin 1024) : Directories D :=
  if j.val < userTop / 4194304 then
    { s with paging := { s.paging with pde := Function.update s.paging.pde d (Function.update (s.paging.pde d) j none) } }
  else
    { s with kernelPde := Function.update s.kernelPde d (Function.update (s.kernelPde d) j none), static := static_update s.static }

/-- `del_page_table(page_dir, va)`. It does not use `page_dir`. -/
def delPageTable (s : Directories D) (_pageDir : D) (va : Nat) : Option (Directories D) :=
  (s.getPageTable s.ptrPageDirectory va).bind fun ptr =>
  if ptr = 0 then some s
  else
    (s.paging.heap.kfree ptr).map fun h =>
      clearEntry { s with paging := { s.paging with heap := h } } s.ptrPageDirectory (pdx va)

/-- The table `table` of the directory `d` is deleted: its page is freed and its entry is 0. All other entries are as they
    were, and the other tables are mapped where they were, with the same entries. -/
structure Deletes (s : Directories D) (d : D) (va : Nat) (table : PageNo) (t : Directories D) : Prop where
  freed : ∃ ptr, s.paging.heap.mem.hold (.kernel (pageNo ptr)) = some table ∧ s.paging.heap.kfree ptr = some t.paging.heap
  entry : ∀ d' j, t.entry d' j = if d' = d ∧ j = pdx va then none else s.entry d' j
  others : ∀ d' j x p, ¬ (d' = d ∧ j = pdx va) → s.paging.pde d' j = some x →
    s.paging.heap.mem.hold (.kernel p) = some x → t.paging.heap.mem.hold (.kernel p) = some x
  pages : ∀ x i, t.paging.heap.mem.pte (.user x i) = s.paging.heap.mem.pte (.user x i)

variable {all : List PageNo} {boot : PageNo → Nat} {handed : List PageNo} {live tables : List Nat} {s t : Directories D} {d : D}
  {va : Nat} {table : PageNo}

theorem entry_clearEntry (s : Directories D) (d d' : D) (i j : Fin 1024) :
    (s.clearEntry d i).entry d' j = if d' = d ∧ j = i then none else s.entry d' j := by
  unfold clearEntry
  by_cases hi : i.val < userTop / 4194304
  · rw [if_pos hi]
    unfold entry
    dsimp only
    rw [Paging.pde_update]
    by_cases h : d' = d ∧ j = i
    · obtain ⟨rfl, rfl⟩ := h
      simp only [and_self, if_true, hi]
    · rw [if_neg h, if_neg h]
  · rw [if_neg hi]
    unfold entry
    dsimp only
    rw [Paging.pde_update]
    by_cases h : d' = d ∧ j = i
    · obtain ⟨rfl, rfl⟩ := h
      simp only [and_self, if_true, hi, if_false]
    · rw [if_neg h, if_neg h]

theorem heap_clearEntry (s : Directories D) (d : D) (j : Fin 1024) : (s.clearEntry d j).paging.heap = s.paging.heap := by
  unfold clearEntry
  split <;> rfl

/-- Only entries of the kernel's directory change. -/
theorem entry_delPageTable (hs : s.delPageTable d va = some t) {d' : D} (hd : d' ≠ s.ptrPageDirectory) (j : Fin 1024) :
    t.entry d' j = s.entry d' j := by
  obtain ⟨ptr, -, hs⟩ := Option.bind_eq_some_iff.mp hs
  split at hs
  · cases hs
    rfl
  · obtain ⟨h, -, rfl⟩ := Option.map_eq_some_iff.mp hs
    rw [entry_clearEntry, if_neg fun heq => hd heq.1]
    rfl

theorem pdx_lt_iff (hva : va < 4294967296) : (pdx va).val < userTop / 4194304 ↔ va < userTop := by
  show va / 4194304 % 1024 < 955 ↔ va < 4005560320
  omega

/-- A table of the boot is not in the kernel heap, and `kfree` panics. -/
theorem delPageTable_kernel (hva : ¬ va < userTop) (htable : s.kernelPde s.ptrPageDirectory (pdx va) = some table) :
    s.delPageTable d va = none := by
  have hstatic := s.static _ _ htable
  have hptr : u32 (table.val * pageSize + kernelBase) = table.val * pageSize + kernelBase := by
    rw [u32_of_lt]
    simp only [pageSize, kernelBase]
    omega
  unfold delPageTable getPageTable
  rw [if_neg hva, htable]
  dsimp only
  split
  · rw [Option.bind_some, hptr, if_neg (by simp only [kernelBase]; omega)]
    unfold KHeap.kfree
    rw [if_neg (by simp only [kernelBase]; omega), if_pos (by simp only [kernelBase, kernelHeapStart, pageSize]; omega)]
    rfl
  · rfl

/-- `del_page_table` deletes a user table of the kernel's directory. -/
theorem delPageTable_master (hi : Paging.Inv all boot handed live tables s.paging) (hl : s.paging.Linked)
    (hfits : s.paging.heap.NodesFit) (hva : va < userTop) (htable : s.paging.pde s.ptrPageDirectory (pdx va) = some table) :
    ∃ t, s.delPageTable d va = some t ∧ Deletes s s.ptrPageDirectory va table t := by
  obtain ⟨ptr, hptr, hhold, -, -, haddr, hne⟩ := hi.table_address hl htable
  obtain ⟨F, lost, howned⟩ := hi.owned
  obtain ⟨h, hh, -⟩ := howned.kfree_returns hfits (fun p f hf => (hl.rooted p f hf).2) (List.mem_append_right _ hptr)
  obtain ⟨-, -, hkept⟩ := howned.kfree (List.mem_append_right _ hptr) hh
  refine ⟨clearEntry { s with paging := { s.paging with heap := h } } s.ptrPageDirectory (pdx va), ?_, ?_⟩
  · unfold delPageTable getPageTable
    rw [if_pos hva]
    simp only [Paging.getPageTableAt, htable, haddr, Option.map_some, Option.bind_some, if_neg hne, hh]
  refine ⟨⟨ptr, hhold, by rw [heap_clearEntry]; exact hh⟩, fun d' j => entry_clearEntry .., ?_, fun x i => ?_⟩
  · intro d' j x p hother hx hp
    obtain ⟨q, hq, hqx⟩ := hi.table d' j x hx
    cases (hl.rooted _ x hqx).2 _ hp
    rw [heap_clearEntry]
    refine (hkept q (List.mem_append_right _ hq) ?_ (hi.tables_ge q hq)).trans hqx
    rintro rfl
    -- One page of the heap holds one table, and a table is in one entry.
    cases hhold.symm.trans hqx
    exact hother (hl.unique _ _ _ _ _ hx htable)
  · rw [heap_clearEntry]
    exact (KHeap.kfree_steps hh).pte_user x i

/-- In every state of a run, `del_page_table` deletes a table of `page_dir` exactly when `page_dir` is the kernel's own
    directory and the address is below `USER_TOP`. -/
theorem del_page_table_iff {n k : Nat} {s₀ r : PagingRun D} (hmin : 160 ≤ n) (hn : n ≤ 1048576) (hk : 256 ≤ k)
    (hboot : PagingRun.afterBoot D n k = some s₀)
    (hr : Reach PagingRun.tableStep (fun s e => s.TableAllowed e ∧ s.UserFrame e ∧ s.TablePlain e) s₀ r)
    (hs : s.paging = r.paging) (hva : va < 4294967296) (htable : s.entry d (pdx va) = some table) :
    (∃ t, s.delPageTable d va = some t ∧ Deletes s d va table t) ↔ d = s.ptrPageDirectory ∧ va < userTop := by
  obtain ⟨⟨⟨tables, hi⟩, hl⟩, hfits⟩ := PagingRun.nodesFit_reach hmin hn hk hboot hr
  rw [← hs] at hi hl hfits
  constructor
  · rintro ⟨t, ht, hdel⟩
    have hd : d = s.ptrPageDirectory := by
      by_contra hd
      have hentry := (entry_delPageTable ht hd (pdx va)).symm.trans (hdel.entry d (pdx va))
      rw [htable, if_pos ⟨rfl, rfl⟩] at hentry
      exact nomatch hentry
    refine ⟨hd, ?_⟩
    by_contra hkernel
    rw [entry, if_neg (mt (pdx_lt_iff hva).mp hkernel), hd] at htable
    rw [delPageTable_kernel hkernel htable] at ht
    exact nomatch ht
  · rintro ⟨rfl, huser⟩
    rw [entry, if_pos ((pdx_lt_iff hva).mpr huser)] at htable
    exact delPageTable_master hi hl hfits huser htable

/-- The directories before the kernel's tables are entered -/
def ofPaging (p : Paging D) (ptrPageDirectory : D) : Directories D :=
  { paging := p, ptrPageDirectory, static := fun _ t h => absurd h.symm (Option.some_ne_none t) }

/-- Two directories have a table at address 0, and the one of the kernel is deleted. -/
theorem del_page_table_iff_master : ∃ (s₀ r : PagingRun Bool) (table : PageNo), PagingRun.afterBoot Bool 1024 768 = some s₀ ∧
    exec PagingRun.tableStep s₀ [.createPageTable true 0, .createPageTable false 0] = some r ∧
      let s := ofPaging r.paging true
      s.entry true (pdx 0) = some table ∧
        ((∃ t, s.delPageTable true 0 = some t ∧ Deletes s true 0 table t) ↔ true = s.ptrPageDirectory ∧ 0 < userTop) := by
  have hrun : ((PagingRun.afterBoot Bool 1024 768).bind fun s₀ => (exec PagingRun.tableStep s₀
      [.createPageTable true 0, .createPageTable false 0]).bind fun r => r.paging.pde true (pdx 0)).isSome := by
    rw [PagingRun.afterBoot_eq]
    decide +kernel
  obtain ⟨table, hrun⟩ := Option.isSome_iff_exists.mp hrun
  obtain ⟨s₀, hboot, hrun⟩ := Option.bind_eq_some_iff.mp hrun
  obtain ⟨r, hexec, htable⟩ := Option.bind_eq_some_iff.mp hrun
  have hreach : Reach PagingRun.tableStep (fun s e => s.TableAllowed e ∧ s.UserFrame e ∧ s.TablePlain e) s₀ r := by
    refine .of_exec_all hexec fun e he u => ?_
    simp only [List.mem_cons, List.not_mem_nil, or_false] at he
    rcases he with rfl | rfl <;> exact ⟨show 0 < userTop by decide, trivial, trivial⟩
  exact ⟨s₀, r, table, hboot, hexec, htable, del_page_table_iff (s := ofPaging r.paging true)
    (by decide) (by decide) (by decide) hboot hreach rfl (by decide) htable⟩

/-- Two directories have a table at address 0. `del_page_table` of the one that is not the kernel's clears the entry of the
    kernel's directory and leaves the one that it was given. -/
theorem del_page_table_wrong : ∃ (s₀ r : PagingRun Bool) (table : PageNo), PagingRun.afterBoot Bool 1024 768 = some s₀ ∧
    Reach PagingRun.tableStep (fun s e => s.TableAllowed e ∧ s.UserFrame e ∧ s.TablePlain e) s₀ r ∧
      let s := ofPaging r.paging true
      s.entry false (pdx 0) = some table ∧ s.entry true (pdx 0) ≠ none ∧
        ∃ t, s.delPageTable false 0 = some t ∧ t.entry false (pdx 0) = some table ∧ t.entry true (pdx 0) = none ∧
          ¬ Deletes s false 0 table t := by
  have hrun : ((PagingRun.afterBoot Bool 1024 768).bind fun s₀ => (exec PagingRun.tableStep s₀
      [.createPageTable true 0, .createPageTable false 0]).bind fun r =>
        ((ofPaging r.paging true).delPageTable false 0).map fun t =>
          ((r.paging.pde false (pdx 0)).isSome && (r.paging.pde true (pdx 0)).isSome, t.entry true (pdx 0))) = some (true, none) := by
    rw [PagingRun.afterBoot_eq]
    decide +kernel
  obtain ⟨s₀, hboot, hrun⟩ := Option.bind_eq_some_iff.mp hrun
  obtain ⟨r, hexec, hrun⟩ := Option.bind_eq_some_iff.mp hrun
  obtain ⟨t, ht, hresult⟩ := Option.map_eq_some_iff.mp hrun
  simp only [Prod.mk.injEq, Bool.and_eq_true] at hresult
  obtain ⟨⟨hfalse, htrue⟩, hcleared⟩ := hresult
  obtain ⟨table, htable⟩ := Option.isSome_iff_exists.mp hfalse
  have hreach : Reach PagingRun.tableStep (fun s e => s.TableAllowed e ∧ s.UserFrame e ∧ s.TablePlain e) s₀ r := by
    refine .of_exec_all hexec fun e he u => ?_
    simp only [List.mem_cons, List.not_mem_nil, or_false] at he
    rcases he with rfl | rfl <;> exact ⟨show 0 < userTop by decide, trivial, trivial⟩
  have hstays : t.entry false (pdx 0) = some table := (entry_delPageTable ht (show false ≠ true by decide) (pdx 0)).trans htable
  refine ⟨s₀, r, table, hboot, hreach, htable, Option.isSome_iff_ne_none.mp htrue, t, ht, hstays, hcleared, fun hdel => ?_⟩
  have hentry := hdel.entry false (pdx 0)
  rw [hstays, if_pos ⟨rfl, rfl⟩] at hentry
  exact nomatch hentry

end Directories

end Fos.Mem
