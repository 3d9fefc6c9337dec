import Fos.Mem.Walk

/-! Runs that also create page tables. In every state the kernel heap translates its addresses, and a table that was
    created is found at its address from then on. -/

namespace Fos.Mem
open Lib Heap Frames

namespace Paging

variable {D : Type}

/-- `ptr_page_table[i]`, read by the kernel at an address of its heap; `none` is a page fault. -/
def entryAt (h : KHeap) (ptr : Nat) (i : Fin 1024) : Option Pte := (frameAt h ptr).map fun t => h.mem.pte (.user t i)

variable {all : List PageNo} {boot : PageNo → Nat} {handed : List PageNo} {live tables : List Nat} {s s' : Paging D}
  {t : PageNo} {va ptr : Nat} {dir : D}

/-- The address that the walk stores is the page at which the table is mapped. -/
theorem Inv.getPageTableAt_iff (hi : Inv all boot handed live tables s) (hl : s.Linked) {d : D} :
    s.getPageTableAt d va = some (.inMemory, ptr) ↔ ∃ x, s.pde d (pdx va) = some x ∧
      s.heap.mem.hold (.kernel (pageNo ptr)) = some x ∧ (pageNo ptr).val * 4096 = ptr := by
  unfold getPageTableAt
  cases hd : s.pde d (pdx va) with
  | none => simp
  | some x =>
    obtain ⟨p, -, hhold, hva, -, haddr, -⟩ := hi.table_address hl hd
    have hpage := (hl.rooted _ x hhold).1
    simp only [haddr, Option.map_some, Option.some.injEq, Prod.mk.injEq, true_and]
    constructor
    · rintro rfl
      exact ⟨x, rfl, hhold, by omega⟩
    · rintro ⟨y, rfl, hy, hptr⟩
      rw [← hva, (hl.rooted _ _ hy).1, hptr]

theorem Inv.getPageTableAt_stays {s₁ : Paging D} {handed₁ : List PageNo} {live₁ tables₁ : List Nat} {d : D}
    (hi : Inv all boot handed live tables s) (hl : s.Linked) (hi₁ : Inv all boot handed₁ live₁ tables₁ s₁) (hl₁ : s₁.Linked)
    (hkept : ∀ x p, s.pde d (pdx va) = some x → s.heap.mem.hold (.kernel p) = some x →
      s₁.pde d (pdx va) = some x ∧ s₁.heap.mem.hold (.kernel p) = some x)
    (h : s.getPageTableAt d va = some (.inMemory, ptr)) : s₁.getPageTableAt d va = some (.inMemory, ptr) := by
  obtain ⟨x, hx, hhold, hptr⟩ := (hi.getPageTableAt_iff hl).mp h
  obtain ⟨hx₁, hhold₁⟩ := hkept x _ hx hhold
  exact (hi₁.getPageTableAt_iff hl₁).mpr ⟨x, hx₁, hhold₁, hptr⟩

theorem Inv.getPageTableAt_none (h : s.pde dir (pdx va) = none) : s.getPageTableAt dir va = some (.notExist, 0) := by
  simp only [getPageTableAt, h]

variable [DecidableEq D]

theorem createPageTableAt_eq_some : s.createPageTableAt dir va = some (s', ptr) ↔ ∃ t h, s.createPageTable dir va = some (s', t) ∧
    s.heap.kmalloc pageSize = some (h, ptr) := by
  unfold createPageTableAt
  simp only [Option.bind_eq_some_iff, Option.map_eq_some_iff, Prod.exists, Prod.mk.injEq]
  constructor
  · rintro ⟨_, t, hs, h, _, hk, rfl, rfl⟩
    exact ⟨t, h, hs, hk⟩
  · rintro ⟨t, h, hs, hk⟩
    exact ⟨s', t, hs, h, ptr, hk, rfl, rfl⟩

end Paging

/-! ### The runs -/

inductive TableEvent (D : Type) where
  | paging (e : PagingEvent D)
  | createPageTable (dir : D) (va : Nat)

namespace PagingRun

variable {D : Type} [DecidableEq D]

def tableStep (s : PagingRun D) : TableEvent D → Option (PagingRun D)
  | .paging e => s.step e
  | .createPageTable dir va => (s.paging.createPageTableAt dir va).map fun (p, _) => { s with paging := p }

/-- The steps that are considered, with tables below `USER_TOP`. -/
def TableAllowed (s : PagingRun D) : TableEvent D → Prop
  | .paging e => s.Allowed e
  | .createPageTable _ va => va < userTop

/-- A frame that is mapped is not one of the kernel heap. -/
def UserFrame (s : PagingRun D) : TableEvent D → Prop
  | .paging (.mapFrame _ f _ _) => NotKernel s.paging.heap.mem f
  | _ => True

/-- No frame has 65536 mappings after the step, `PERM_BUFFERED` is not set when a frame is mapped, and no size wraps
    when it is rounded up to pages. -/
def TablePlain (s : PagingRun D) : TableEvent D → Prop
  | .paging e => s.Few e ∧ Plain e
  | .createPageTable .. => True

/-- The event creates the table of the directory entry. -/
def Creates (dir : D) (j : Fin 1024) : TableEvent D → Prop
  | .createPageTable d va => d = dir ∧ pdx va = j
  | .paging _ => False

/-- The accounts, and what the walk relies on. -/
def WalkInv (all : List PageNo) (boot : PageNo → Nat) (s : PagingRun D) : Prop := s.Inv all boot ∧ s.paging.Linked

variable {all : List PageNo} {boot : PageNo → Nat} {s t : PagingRun D} {e : TableEvent D}

theorem WalkInv.step_linked {e : PagingEvent D} (h : WalkInv all boot s) (hallowed : s.Allowed e)
    (huser : s.UserFrame (.paging e)) (hplain : Plain e) (hs : s.step e = some t) :
    t.paging.Linked ∧ Paging.Stays s.paging t.paging := by
  obtain ⟨⟨tables, hi⟩, hl⟩ := h
  cases e with
  | allocateFrame =>
    obtain ⟨⟨p, f⟩, hp, rfl⟩ := Option.map_eq_some_iff.mp hs
    obtain ⟨hl', -, hstays, -⟩ := hi.allocateFrame_linked hl hp
    exact ⟨hl', hstays⟩
  | mapFrame dir f va perm =>
    obtain ⟨p, hp, rfl⟩ := Option.map_eq_some_iff.mp hs
    obtain ⟨hl', -, hstays⟩ := hi.mapFrame_linked hl hallowed.2 huser hp
    exact ⟨hl', hstays⟩
  | unmapFrame dir va =>
    obtain ⟨p, hp, rfl⟩ := Option.map_eq_some_iff.mp hs
    obtain ⟨hl', -, hstays⟩ := hi.unmapFrame_linked hl hp
    exact ⟨hl', hstays⟩
  | allocPage dir va perms =>
    obtain ⟨p, hp, rfl⟩ := Option.map_eq_some_iff.mp hs
    obtain ⟨hl', -, hstays⟩ := hi.allocPage_linked hl hp
    exact ⟨hl', hstays⟩
  | kmalloc size =>
    obtain ⟨⟨h, va⟩, hk, rfl⟩ := Option.map_eq_some_iff.mp hs
    obtain ⟨hl', -, hstays⟩ := hi.kmalloc_linked hl hplain hk
    exact ⟨hl', hstays⟩
  | kfree va =>
    obtain ⟨h, hk, rfl⟩ := Option.map_eq_some_iff.mp hs
    obtain ⟨hl', -, hstays⟩ := hi.kfree_linked hl hallowed hk
    exact ⟨hl', hstays⟩

/-- What one step keeps: the invariant, and the address of every table that the step does not replace. -/
theorem WalkInv.step (h : WalkInv all boot s) (hallowed : s.TableAllowed e) (huser : s.UserFrame e) (hplain : s.TablePlain e)
    (hs : s.tableStep e = some t) : WalkInv all boot t ∧ ∀ dir va ptr, ¬ Creates dir (pdx va) e →
      s.paging.getPageTableAt dir va = some (.inMemory, ptr) → t.paging.getPageTableAt dir va = some (.inMemory, ptr) := by
  cases e with
  | paging e =>
    obtain ⟨hl', hstays⟩ := h.step_linked hallowed huser hplain.2 hs
    obtain ⟨hi', -⟩ := h.1.step hallowed hplain.1 hplain.2 hs
    refine ⟨⟨hi', hl'⟩, fun dir va ptr _ hptr => ?_⟩
    obtain ⟨⟨tables, hi⟩, hl⟩ := h
    obtain ⟨tables', hi'⟩ := hi'
    exact hi.getPageTableAt_stays hl hi' hl' (fun x p hx hp => hstays dir (pdx va) x p hx hp) hptr
  | createPageTable dir va =>
    obtain ⟨⟨p, ptr⟩, hp, rfl⟩ := Option.map_eq_some_iff.mp hs
    obtain ⟨x, _, hx, -⟩ := Paging.createPageTableAt_eq_some.mp hp
    obtain ⟨⟨tables, hi⟩, hl⟩ := h
    obtain ⟨hcreated, hl'⟩ := hi.created hl hx
    obtain ⟨_, hi', -, hkept, -⟩ := hi.createPageTable hx
    refine ⟨⟨⟨_, hi'⟩, hl'⟩, fun d va' ptr' hother hptr => ?_⟩
    refine hi.getPageTableAt_stays hl hi' hl' (fun y q hy hq => ⟨?_, hkept _ _ hq⟩) hptr
    rw [hcreated.pde, if_neg, hy]
    rintro ⟨rfl, heq⟩
    exact hother ⟨rfl, heq.symm⟩

theorem WalkInv.reach {n k : Nat} {s₀ : PagingRun D} (hmin : 160 ≤ n) (hn : n ≤ 1048576) (hk : 256 ≤ k)
    (hboot : afterBoot D n k = some s₀)
    (hr : Reach tableStep (fun s e => s.TableAllowed e ∧ s.UserFrame e ∧ s.TablePlain e) s₀ s) :
    WalkInv (bootFree n k) (bootReferences k) s := by
  refine hr.invariant (I := WalkInv _ _) ⟨inv_boot hmin hn hk hboot, ?_, ?_⟩ fun s e t hi hok hs =>
    (hi.step hok.1 hok.2.1 hok.2.2 hs).1
  · intro p f hp
    exact nomatch ((boot_empty hmin hn hk hboot).1 (.kernel p)).symm.trans hp
  · intro d j d' j' x hx
    rw [(boot_empty hmin hn hk hboot).2] at hx
    exact nomatch hx

/-- In every state of a run the kernel heap translates its addresses. -/
theorem kheap_translates {n k : Nat} {s₀ : PagingRun D} (hmin : 160 ≤ n) (hn : n ≤ 1048576) (hk : 256 ≤ k)
    (hboot : afterBoot D n k = some s₀)
    (hr : Reach tableStep (fun s e => s.TableAllowed e ∧ s.UserFrame e ∧ s.TablePlain e) s₀ s) :
    s.paging.heap.Translates := by
  obtain ⟨⟨tables, hi⟩, hl⟩ := WalkInv.reach hmin hn hk hboot hr
  obtain ⟨F, lost, howned⟩ := hi.owned
  exact howned.translates hl.rooted

/-- A page is allocated and unmapped and a table is created, and the heap still translates its addresses. -/
theorem kheap_translates_page : ∃ s₀ s : PagingRun Unit, afterBoot Unit 1024 768 = some s₀ ∧
    exec tableStep s₀ [.paging (.allocPage () 8388608 permUser), .paging (.unmapFrame () 8388608), .createPageTable () 0] = some s ∧
      s.paging.heap.Translates := by
  have hrun : ((afterBoot Unit 1024 768).bind fun s₀ => exec tableStep s₀
      [.paging (.allocPage () 8388608 permUser), .paging (.unmapFrame () 8388608), .createPageTable () 0]).isSome := by
    rw [PagingRun.afterBoot_eq]
    decide +kernel
  obtain ⟨s, hrun⟩ := Option.isSome_iff_exists.mp hrun
  obtain ⟨s₀, hboot, hexec⟩ := Option.bind_eq_some_iff.mp hrun
  obtain ⟨s₁, hs₁, hexec₁⟩ := exec_cons.mp hexec
  obtain ⟨s₂, hs₂, hexec₂⟩ := exec_cons.mp hexec₁
  obtain ⟨s₃, hs₃, h⟩ := exec_cons.mp hexec₂
  cases h
  obtain ⟨hnone, hpde⟩ := boot_empty (by decide) (by decide) (by decide) hboot
  have hva : 8388608 < userTop := by decide
  have hfew₁ : s₀.Few (.allocPage () 8388608 permUser) :=
    few_allocPage (inv_boot (by decide) (by decide) (by decide) hboot) hnone hpde
  have hfew₂ : s₁.Few (.unmapFrame () 8388608) := few_unmapFrame (hfew₁ s₁ hs₁)
  have hr₁ : Reach tableStep (fun s e => s.TableAllowed e ∧ s.UserFrame e ∧ s.TablePlain e) s₀ s₁ :=
    .step (.paging (.allocPage () 8388608 permUser)) .init
      ⟨hva, trivial, hfew₁, show permUser &&& permBuffered = 0 by decide⟩ hs₁
  have hr₂ : Reach tableStep (fun s e => s.TableAllowed e ∧ s.UserFrame e ∧ s.TablePlain e) s₀ s₂ :=
    .step (.paging (.unmapFrame () 8388608)) hr₁ ⟨hva, trivial, hfew₂, trivial⟩ hs₂
  have hr₃ : Reach tableStep (fun s e => s.TableAllowed e ∧ s.UserFrame e ∧ s.TablePlain e) s₀ s :=
    .step (.createPageTable () 0) hr₂ ⟨show 0 < userTop by decide, trivial, trivial⟩ hs₃
  exact ⟨s₀, s, hboot, hexec, kheap_translates (by decide) (by decide) (by decide) hboot hr₃⟩

/-- A page is allocated with `PERM_BUFFERED` and unmapped twice, which frees frame 0. `kmalloc` maps that frame, and the
    next `unmap_frame` of the same page clears its `va` field. -/
theorem kheap_address_lost : ∃ s₀ s : PagingRun Unit, afterBoot Unit 1024 768 = some s₀ ∧
    Reach tableStep (fun s e => s.TableAllowed e ∧ s.UserFrame e) s₀ s ∧ s.paging.heap.inRegion 4160757760 = true ∧
      (s.paging.heap.mem.pte (.kernel (pageNo 4160757760))).present = true ∧
      s.paging.heap.kheapVirtualAddress (s.paging.heap.kheapPhysicalAddress 4160757760) = some 0 ∧
      ¬ s.paging.heap.Translates := by
  have hrun : ((afterBoot Unit 1024 768).bind fun s₀ => (exec tableStep s₀
      [.paging (.allocPage () 8388608 0x204#12), .paging (.unmapFrame () 8388608), .paging (.unmapFrame () 8388608),
        .paging (.kmalloc 4096), .paging (.unmapFrame () 8388608)]).map fun s => (s.paging.heap.inRegion 4160757760,
          (s.paging.heap.mem.pte (.kernel (pageNo 4160757760))).present,
          s.paging.heap.kheapVirtualAddress (s.paging.heap.kheapPhysicalAddress 4160757760))) = some (true, true, some 0) := by
    rw [PagingRun.afterBoot_eq]
    decide +kernel
  obtain ⟨s₀, hboot, hrun⟩ := Option.bind_eq_some_iff.mp hrun
  obtain ⟨s, hexec, hresult⟩ := Option.map_eq_some_iff.mp hrun
  simp only [Prod.mk.injEq] at hresult
  obtain ⟨hregion, hpresent, hzero⟩ := hresult
  have hva : 8388608 < userTop := by decide
  have hreach : Reach tableStep (fun s e => s.TableAllowed e ∧ s.UserFrame e) s₀ s := by
    refine .of_exec_all hexec fun e he u => ?_
    simp only [List.mem_cons, List.not_mem_nil, or_false] at he
    rcases he with rfl | rfl | rfl | rfl | rfl
    · exact ⟨hva, trivial⟩
    · exact ⟨hva, trivial⟩
    · exact ⟨hva, trivial⟩
    · exact ⟨trivial, trivial⟩
    · exact ⟨hva, trivial⟩
  refine ⟨s₀, s, hboot, hreach, hregion, hpresent, hzero, fun htranslates => ?_⟩
  have hback := htranslates.inverse _ (by decide) hregion hpresent
  rw [hzero] at hback
  exact nomatch hback

/-! ### The walk after the creation of a table -/

/-- What a creation of a table promises, for every table that is created in the state `s`: it starts empty, the other
    tables are found where they were with the entries that they had, no mapping of the kernel heap is lost, and as long
    as the entry of the directory is not given another table, the walk finds the address that was returned. -/
structure WalkAgrees (ok : PagingRun D → TableEvent D → Prop) (s : PagingRun D) (dir : D) (va : Nat) (p : Paging D)
    (ptr : Nat) : Prop where
  zero : ∀ i, Paging.entryAt p.heap ptr i = some {}
  others : ∀ d va', ¬ (d = dir ∧ pdx va' = pdx va) → p.getPageTableAt d va' = s.paging.getPageTableAt d va' ∧
    ∀ q i, s.paging.getPageTableAt d va' = some (.inMemory, q) → Paging.entryAt p.heap q i = Paging.entryAt s.paging.heap q i
  kernel : ∀ q f, s.hold (.kernel q) = some f → p.heap.mem.hold (.kernel q) = some f
  found : ∀ t, Reach tableStep (fun u e => ok u e ∧ ¬ Creates dir (pdx va) e) { s with paging := p } t →
    ∀ va', pdx va' = pdx va → t.paging.getPageTableAt dir va' = some (.inMemory, ptr)

theorem WalkInv.walkAgrees {dir : D} {va ptr : Nat} {p : Paging D} {ok : PagingRun D → TableEvent D → Prop}
    (h : WalkInv all boot s) (hok : ∀ u e, ok u e → u.TableAllowed e ∧ u.UserFrame e ∧ u.TablePlain e)
    (hva : va < userTop) (hp : s.paging.createPageTableAt dir va = some (p, ptr)) : WalkAgrees ok s dir va p ptr := by
  have hstep : s.tableStep (.createPageTable dir va) = some { s with paging := p } :=
    Option.map_eq_some_iff.mpr ⟨(p, ptr), hp, rfl⟩
  obtain ⟨h', hkeeps⟩ := h.step (e := .createPageTable dir va) hva trivial trivial hstep
  obtain ⟨x, h₁, hx, hk⟩ := Paging.createPageTableAt_eq_some.mp hp
  obtain ⟨⟨tables, hi⟩, hl⟩ := h
  obtain ⟨hcreated, -⟩ := hi.created hl hx
  obtain ⟨_, -, -, hkept, -⟩ := hi.createPageTable hx
  have hframe : Paging.frameAt p.heap ptr = some x := by
    obtain ⟨h₂, ptr₂, hk₂, -, hframe, rfl⟩ := Paging.createPageTable_eq_some.mp hx
    rw [hk] at hk₂
    cases hk₂
    exact hframe
  have hptr : (pageNo ptr).val * 4096 = ptr := by
    obtain ⟨h₂, ptr₂, hk₂, hne, -⟩ := Paging.createPageTable_eq_some.mp hx
    rw [hk] at hk₂
    cases hk₂
    obtain ⟨F, lost, howned⟩ := hi.owned
    obtain ⟨lost', hdone⟩ := howned.kmalloc (by decide) hk
    obtain ⟨hge, -⟩ := hdone.page (by decide) hne
    obtain ⟨F', howned'⟩ := hdone.owned
    rw [if_neg hne] at howned'
    obtain ⟨-, hlt, halign⟩ := howned'.region_bounds (List.mem_cons_self ..) (by omega)
    rw [pageNo_val (by omega)]
    omega
  refine ⟨fun i => ?_, fun d va' hother => ?_, fun q f => hkept _ f, fun t hr => ?_⟩
  · rw [Paging.entryAt, hframe, Option.map_some, hcreated.clear]
  · have hpde : p.pde d (pdx va') = s.paging.pde d (pdx va') := (hcreated.pde d (pdx va')).trans (if_neg hother)
    have hnot : ¬ Creates d (pdx va') (.createPageTable dir va) := fun hc => hother ⟨hc.1.symm, hc.2.symm⟩
    cases hd : s.paging.pde d (pdx va') with
    | none =>
      rw [Paging.Inv.getPageTableAt_none (hpde.trans hd), Paging.Inv.getPageTableAt_none hd]
      exact ⟨rfl, nofun⟩
    | some y =>
      obtain ⟨q, -, hhold, -, -, haddr, -⟩ := hi.table_address hl hd
      have hq : s.paging.getPageTableAt d va' = some (.inMemory, q) := by
        simp only [Paging.getPageTableAt, hd, haddr, Option.map_some]
      have hq' : p.getPageTableAt d va' = some (.inMemory, q) := hkeeps d va' q hnot hq
      refine ⟨hq'.trans hq.symm, fun q' i hq₁ => ?_⟩
      rw [hq] at hq₁
      cases hq₁
      have hne : y ≠ x := by
        rintro rfl
        exact hcreated.fresh d (pdx va') hd
      have hframe₀ : Paging.frameAt s.paging.heap q = some y := hhold
      have hframe₁ : Paging.frameAt p.heap q = some y := hkept _ _ hhold
      rw [Paging.entryAt, Paging.entryAt, hframe₀, hframe₁, Option.map_some, Option.map_some, hcreated.others y i hne]
  · refine (hr.invariant (I := fun u => WalkInv all boot u ∧
      ∀ va', pdx va' = pdx va → u.paging.getPageTableAt dir va' = some (.inMemory, ptr)) ⟨h', fun va' hva' => ?_⟩ ?_).2
    · obtain ⟨⟨tables', hi'⟩, hl'⟩ := h'
      refine (hi'.getPageTableAt_iff hl').mpr ⟨x, ?_, hframe, hptr⟩
      rw [hva']
      exact (hcreated.pde dir (pdx va)).trans (if_pos ⟨rfl, rfl⟩)
    · rintro u e v ⟨hu, hfound⟩ ⟨hue, hnot⟩ hs
      obtain ⟨hallowed, huser, hplain⟩ := hok u e hue
      obtain ⟨hv, hkeeps⟩ := hu.step hallowed huser hplain hs
      refine ⟨hv, fun va' hva' => hkeeps dir va' ptr ?_ (hfound va' hva')⟩
      rwa [hva']

/-- Whenever a table is created in a run, the walk agrees with the creation. -/
theorem walk_agrees {n k : Nat} {s₀ : PagingRun D} (hmin : 160 ≤ n) (hn : n ≤ 1048576) (hk : 256 ≤ k)
    (hboot : afterBoot D n k = some s₀)
    (hr : Reach tableStep (fun s e => s.TableAllowed e ∧ s.UserFrame e ∧ s.TablePlain e) s₀ s) {dir : D} {va ptr : Nat}
    {p : Paging D} (hva : va < userTop) (hp : s.paging.createPageTableAt dir va = some (p, ptr)) :
    WalkAgrees (fun s e => s.TableAllowed e ∧ s.UserFrame e ∧ s.TablePlain e) s dir va p ptr :=
  (WalkInv.reach hmin hn hk hboot hr).walkAgrees (fun _ _ h => h) hva hp

/-- A table is created after a page was allocated, and the walk finds it. -/
theorem walk_agrees_page : ∃ (s₀ s : PagingRun Unit) (p : Paging Unit) (ptr : Nat), afterBoot Unit 1024 768 = some s₀ ∧
    exec tableStep s₀ [.paging (.allocPage () 8388608 permUser)] = some s ∧ s.paging.createPageTableAt () 4194304 = some (p, ptr) ∧
      WalkAgrees (fun s e => s.TableAllowed e ∧ s.UserFrame e ∧ s.TablePlain e) s () 4194304 p ptr := by
  have hrun : ((afterBoot Unit 1024 768).bind fun s₀ => (exec tableStep s₀ [.paging (.allocPage () 8388608 permUser)]).bind fun s =>
      s.paging.createPageTableAt () 4194304).isSome := by
    rw [PagingRun.afterBoot_eq]
    decide +kernel
  obtain ⟨⟨p, ptr⟩, hrun⟩ := Option.isSome_iff_exists.mp hrun
  obtain ⟨s₀, hboot, hrun⟩ := Option.bind_eq_some_iff.mp hrun
  obtain ⟨s, hexec, hp⟩ := Option.bind_eq_some_iff.mp hrun
  obtain ⟨s₁, hs₁, h⟩ := exec_cons.mp hexec
  cases h
  obtain ⟨hnone, hpde⟩ := boot_empty (by decide) (by decide) (by decide) hboot
  have hfew : s₀.Few (.allocPage () 8388608 permUser) :=
    few_allocPage (inv_boot (by decide) (by decide) (by decide) hboot) hnone hpde
  have hr : Reach tableStep (fun s e => s.TableAllowed e ∧ s.UserFrame e ∧ s.TablePlain e) s₀ s :=
    .step (.paging (.allocPage () 8388608 permUser)) .init
      ⟨show 8388608 < userTop by decide, trivial, hfew, show permUser &&& permBuffered = 0 by decide⟩ hs₁
  exact ⟨s₀, s, p, ptr, hboot, hexec, hp,
    walk_agrees (by decide) (by decide) (by decide) hboot hr (show 4194304 < userTop by decide) hp⟩

/-- A page is allocated with `PERM_BUFFERED` and unmapped twice, which frees frame 0. The table that is created next is
    in that frame, and the next `unmap_frame` of the page clears its `va` field: the walk returns a null pointer. -/
theorem walk_null : ∃ (s₀ s : PagingRun Unit) (p : Paging Unit), afterBoot Unit 1024 768 = some s₀ ∧
    Reach tableStep (fun s e => s.TableAllowed e ∧ s.UserFrame e) s₀ s ∧ s.paging.createPageTableAt () 0 = some (p, 4160757760) ∧
      (({ s with paging := p } : PagingRun Unit).step (.unmapFrame () 8388608)).bind (·.paging.getPageTableAt () 0) =
        some (.inMemory, 0) ∧
      ¬ WalkAgrees (fun s e => s.TableAllowed e ∧ s.UserFrame e) s () 0 p 4160757760 := by
  have hrun : ((afterBoot Unit 1024 768).bind fun s₀ => (exec tableStep s₀
      [.paging (.allocPage () 8388608 0x204#12), .paging (.unmapFrame () 8388608), .paging (.unmapFrame () 8388608)]).bind
        fun s => (s.paging.createPageTableAt () 0).map fun r => (r.2,
          (({ s with paging := r.1 } : PagingRun Unit).step (.unmapFrame () 8388608)).bind (·.paging.getPageTableAt () 0))) =
            some (4160757760, some (.inMemory, 0)) := by
    rw [PagingRun.afterBoot_eq]
    decide +kernel
  obtain ⟨s₀, hboot, hrun⟩ := Option.bind_eq_some_iff.mp hrun
  obtain ⟨s, hexec, hrun⟩ := Option.bind_eq_some_iff.mp hrun
  obtain ⟨⟨p, ptr⟩, hp, hresult⟩ := Option.map_eq_some_iff.mp hrun
  simp only [Prod.mk.injEq] at hresult
  obtain ⟨rfl, hnull⟩ := hresult
  have hva : 8388608 < userTop := by decide
  have hreach : Reach tableStep (fun s e => s.TableAllowed e ∧ s.UserFrame e) s₀ s := by
    refine .of_exec_all hexec fun e he u => ?_
    simp only [List.mem_cons, List.not_mem_nil, or_false] at he
    rcases he with rfl | rfl | rfl <;> exact ⟨hva, trivial⟩
  refine ⟨s₀, s, p, hboot, hreach, hp, hnull, fun hagrees => ?_⟩
  obtain ⟨t, ht, hnull⟩ := Option.bind_eq_some_iff.mp hnull
  have hfound := hagrees.found t (.step (.paging (.unmapFrame () 8388608)) .init ⟨⟨hva, trivial⟩, id⟩ ht) 0 rfl
  rw [hnull] at hfound
  exact nomatch hfound

end PagingRun

end Fos.Mem
