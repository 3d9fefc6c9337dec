import Fos.Mem.PagingInv
import Fos.Heap.KHeapSteps

/-! The translation of kernel heap addresses and the walk to a page table. `get_page_table` finds a table through the
    `va` field of its frame; it finds the right one as long as no frame of the kernel heap is mapped at a user
    address. -/

namespace Fos.Heap.KHeap
open Lib Mem Frames

/-- The address is in the block region or in the page region. -/
def inRegion (s : KHeap) (va : Nat) : Bool :=
  s.da.dynAllocStart ≤ va ∧ va < s.da.dynAllocEnd ∨ s.kheapPageAllocStart ≤ va ∧ va < kernelHeapMax

/-- `kheap_virtual_address(physical_address)`; `to_frame_info` panics on a frame that does not exist. -/
def kheapVirtualAddress (s : KHeap) (pa : Nat) : Option Nat :=
  if (pageNo pa).val < s.mem.numberOfFrames then
    let vaBase := s.mem.va (pageNo pa)
    if vaBase = 0 then some 0
    else if s.inRegion vaBase then some (u32 (vaBase + pa % pageSize))
    else some 0
  else none

/-- `kheap_physical_address(virtual_address)`; the tables of the kernel heap exist. -/
def kheapPhysicalAddress (s : KHeap) (va : Nat) : Nat :=
  if s.inRegion va then
    let entry := s.mem.pte (.kernel (pageNo va))
    if entry.present then entry.frame.val * pageSize + va % pageSize else 0
  else 0

variable {all F handed : List PageNo} {boot : PageNo → Nat} {s s' : KHeap} {ptrs lost : List Nat} {va size : Nat}

/-- A region starts at a page of the page area. -/
theorem Owned.region_bounds (h : Owned all boot handed F s ptrs lost) (hva : va ∈ ptrs) (hle : 4160749568 ≤ va) :
    4160753664 ≤ va ∧ va < 4294963200 ∧ va % 4096 = 0 := by
  obtain ⟨L, hinv, hstarts⟩ := h
  have hmem : va ∈ (L .allocated).map s.bulks.start := hstarts.mem_iff.mpr (List.mem_filter.mpr ⟨hva, by simpa using hle⟩)
  obtain ⟨b, hb, rfl⟩ := List.mem_map.mp hmem
  obtain ⟨-, hge, hlt, halign, -⟩ := hinv.bounds_allocated hb
  have := (hinv.bounds_allocated hb).1
  exact ⟨hge, by omega, halign⟩

theorem Owned.kmalloc_steps (h : Owned all boot handed F s ptrs lost) (hsize : size ≤ 4294963200)
    (hs : s.kmalloc size = some (s', va)) : HeapSteps s.mem s'.mem := by
  obtain ⟨lost', hdone⟩ := h.kmalloc hsize hs
  refine KHeap.kmalloc_steps (fun hne hlarge => ?_) hs
  obtain ⟨hge, -⟩ := hdone.page hlarge hne
  obtain ⟨F', howned⟩ := hdone.owned
  rw [if_neg hne] at howned
  obtain ⟨-, hlt, halign⟩ := howned.region_bounds (List.mem_cons_self ..) (by omega)
  exact ⟨halign, by omega⟩

theorem Owned.inRegion_iff (h : Owned all boot handed F s ptrs lost) (va : Nat) :
    s.inRegion va = true ↔ 4127195136 ≤ va ∧ va < 4160749568 ∨ 4160753664 ≤ va ∧ va < 4294963200 := by
  obtain ⟨L, hinv, -⟩ := h
  simp only [inRegion, hinv.blocks.dyn_start, hinv.blocks.dyn_end, hinv.page_start, kernelHeapStart, kernelHeapMax,
    decide_eq_true_eq]

/-- The translation and its inverse, and that no two addresses share a physical address. -/
structure Translates (s : KHeap) : Prop where
  inverse : ∀ va, va < 4294967296 → s.inRegion va → (s.mem.pte (.kernel (pageNo va))).present →
    s.kheapVirtualAddress (s.kheapPhysicalAddress va) = some va
  injective : ∀ va va', va < 4294967296 → va' < 4294967296 → s.inRegion va → s.inRegion va' →
    (s.mem.pte (.kernel (pageNo va))).present → (s.mem.pte (.kernel (pageNo va'))).present →
      s.kheapPhysicalAddress va = s.kheapPhysicalAddress va' → va = va'
  unmapped : ∀ pa, pa < 4294967296 → pa < s.mem.numberOfFrames * 4096 → NotKernel s.mem (pageNo pa) →
    s.kheapVirtualAddress pa = some 0

theorem pageNo_frame (f : PageNo) (n : Nat) : pageNo (f.val * 4096 + n % 4096) = f := by
  apply Fin.ext
  show (f.val * 4096 + n % 4096) / 4096 % 1048576 = f.val
  have := f.isLt
  omega

theorem Owned.translates (h : Owned all boot handed F s ptrs lost) (hr : Rooted s.mem) : Translates s := by
  have hregion := h.inRegion_iff
  obtain ⟨L, hinv, -⟩ := h
  have ha := hinv.accounts
  have hphys : ∀ va, s.inRegion va = true → (s.mem.pte (.kernel (pageNo va))).present = true →
      ∃ f, s.mem.hold (.kernel (pageNo va)) = some f ∧ s.kheapPhysicalAddress va = f.val * 4096 + va % 4096 := by
    intro va hin hpresent
    refine ⟨_, hold_eq_some.mpr ⟨hpresent, rfl⟩, ?_⟩
    unfold kheapPhysicalAddress
    rw [if_pos hin]
    exact if_pos hpresent
  refine ⟨fun va hva hin hpresent => ?_, fun va va' hva hva' hin hin' hpresent hpresent' heq => ?_, fun pa hlt hpa hnot => ?_⟩
  · obtain ⟨f, hf, hpa⟩ := hphys va hin hpresent
    obtain ⟨hvaf, -⟩ := hr _ f hf
    have hval := pageNo_val hva
    have hin := (hregion va).mp hin
    have hbase : s.inRegion (s.mem.va f) = true := (hregion _).mpr (by omega)
    unfold kheapVirtualAddress
    rw [hpa, pageNo_frame, if_pos (ha.valid f (ha.held _ f hf))]
    dsimp only
    rw [if_neg (by omega), if_pos hbase, u32_of_lt (by simp only [pageSize]; omega)]
    simp only [pageSize, Option.some.injEq]
    omega
  · obtain ⟨f, hf, hpa⟩ := hphys va hin hpresent
    obtain ⟨g, hg, hpa'⟩ := hphys va' hin' hpresent'
    rw [hpa, hpa'] at heq
    have hfg : f = g := by
      rw [← pageNo_frame f va, heq, pageNo_frame]
    subst hfg
    have hslot := (hr _ f hg).2 _ hf
    have hpage := congrArg Fin.val (Slot.kernel.inj hslot)
    rw [pageNo_val hva, pageNo_val hva'] at hpage
    omega
  · have hval := pageNo_val hlt
    unfold kheapVirtualAddress
    rw [if_pos (by omega)]
    dsimp only
    split
    case isTrue => rfl
    case isFalse hne =>
      rw [if_neg]
      intro hin
      have hge : kernelHeapStart ≤ s.mem.va (pageNo pa) := by
        have := (hregion _).mp hin
        simp only [kernelHeapStart]
        omega
      exact hnot _ (ha.located (pageNo pa) hge)

end Fos.Heap.KHeap

namespace Fos.Mem
open Lib Heap Frames

namespace Paging

variable {D : Type} [DecidableEq D]

/-- What `get_page_table` returns. -/
inductive TableStatus where
  /-- `TABLE_IN_MEMORY` -/
  | inMemory
  /-- `TABLE_NOT_EXIST` -/
  | notExist
  deriving DecidableEq, Repr

/-- `get_page_table(ptr_page_directory, virtual_address, &ptr_page_table)` for a user address: what it returns and the
    address that it stores -/
def getPageTableAt (s : Paging D) (dir : D) (va : Nat) : Option (TableStatus × Nat) :=
  match s.pde dir (pdx va) with
  | none => some (.notExist, 0)
  | some t => (s.heap.kheapVirtualAddress (t.val * pageSize)).map (.inMemory, ·)

/-- `create_page_table(ptr_directory, virtual_address)`, with the address that it returns -/
def createPageTableAt (s : Paging D) (dir : D) (va : Nat) : Option (Paging D × Nat) :=
  (s.createPageTable dir va).bind fun (s', _) => (s.heap.kmalloc pageSize).map fun (_, ptr) => (s', ptr)

/-- The entry of an address; without a table it is empty. -/
def page (s : Paging D) (dir : D) (va : Nat) : Pte :=
  match s.pde dir (pdx va) with
  | some t => s.heap.mem.pte (.user t (ptx va))
  | none => {}

/-- Frames of the kernel heap are mapped only there, and a table belongs to one directory entry. -/
structure Linked (s : Paging D) : Prop where
  rooted : Rooted s.heap.mem
  unique : ∀ d j d' j' t, s.pde d j = some t → s.pde d' j' = some t → d = d' ∧ j = j'

variable {all : List PageNo} {boot : PageNo → Nat} {handed : List PageNo} {live tables : List Nat} {s s' : Paging D}
  {m : Frames} {f t : PageNo} {va : Nat} {perm : BitVec 12} {dir : D}

omit [DecidableEq D] in
/-- The address of a table. -/
theorem Inv.table_address (hi : Inv all boot handed live tables s) (hl : s.Linked) {d : D} {j : Fin 1024}
    (ht : s.pde d j = some t) : ∃ p ∈ tables, s.heap.mem.hold (.kernel (pageNo p)) = some t ∧ s.heap.mem.va t = p ∧
      kheapVirtualAddress s.heap t = some p ∧ s.heap.kheapVirtualAddress (t.val * pageSize) = some p ∧ p ≠ 0 := by
  obtain ⟨p, hp, hhold⟩ := hi.table d j t ht
  have hge := hi.tables_ge p hp
  obtain ⟨F, lost, howned⟩ := hi.owned
  obtain ⟨-, hlt, halign⟩ := howned.region_bounds (List.mem_append_right _ hp) (by omega)
  have hregion := (howned.inRegion_iff p).mpr (by omega)
  obtain ⟨F', ha⟩ := hi.accounts
  have hvalid := ha.valid t (ha.held _ t hhold)
  have hva : s.heap.mem.va t = p := by
    rw [(hl.rooted _ t hhold).1, pageNo_val (by omega)]
    omega
  have hpage : pageNo (t.val * pageSize) = t := by simpa [pageSize] using KHeap.pageNo_frame t 0
  have hpos : p ≠ 0 := by omega
  refine ⟨p, hp, hhold, hva, ?_, ?_, hpos⟩
  · unfold kheapVirtualAddress
    rw [if_pos hvalid]
    dsimp only
    rw [hva, if_pos (by simpa [KHeap.inRegion] using hregion)]
  · unfold KHeap.kheapVirtualAddress
    rw [hpage, if_pos hvalid]
    dsimp only
    have hmod : t.val * pageSize % pageSize = 0 := Nat.mul_mod_left ..
    rw [hva, if_neg hpos, if_pos hregion, hmod, Nat.add_zero, u32_of_lt (by omega)]

omit [DecidableEq D] in
/-- The walk finds the table of the directory entry. -/
theorem Inv.getPageTable_eq (hi : Inv all boot handed live tables s) (hl : s.Linked) (dir : D) (va : Nat) :
    s.getPageTable dir va = some (match s.pde dir (pdx va) with
      | some t => .inMemory t
      | none => .notExist) := by
  unfold getPageTable
  cases ht : s.pde dir (pdx va) with
  | none => rfl
  | some t =>
    obtain ⟨p, -, hhold, -, hp, -, hpos⟩ := hi.table_address hl ht
    simp only [hp, Option.bind_some, if_neg hpos, frameAt, hhold, Option.map_some]

theorem createPageTable_eq_some : s.createPageTable dir va = some (s', t) ↔ ∃ h ptr, s.heap.kmalloc pageSize = some (h, ptr) ∧
    ptr ≠ 0 ∧ frameAt h ptr = some t ∧
    s' = { heap := { h with mem := clearTable h.mem t }
           pde := Function.update s.pde dir (Function.update (s.pde dir) (pdx va) (some t)) } := by
  unfold createPageTable
  simp only [Option.bind_eq_some_iff, Option.ite_none_left_eq_some, Option.map_eq_some_iff, Prod.exists, Prod.mk.injEq]
  constructor
  · rintro ⟨h, ptr, hk, hne, t', ht, rfl, rfl⟩
    exact ⟨h, ptr, hk, hne, ht, rfl⟩
  · rintro ⟨h, ptr, hk, hne, ht, rfl⟩
    exact ⟨h, ptr, hk, hne, t, ht, rfl, rfl⟩

theorem pte_clearTable (m : Frames) (x : PageNo) (i : Fin 1024) :
    (clearTable m t).pte (.user x i) = if x = t then {} else m.pte (.user x i) := rfl

/-- What the creation of a table does: the table is empty, it is linked to its directory entry only, and everything
    else is as before. -/
structure Created (s s' : Paging D) (dir : D) (j : Fin 1024) (t : PageNo) : Prop where
  pde : ∀ d i, s'.pde d i = if d = dir ∧ i = j then some t else s.pde d i
  fresh : ∀ d i, s.pde d i ≠ some t
  clear : ∀ i, s'.heap.mem.pte (.user t i) = {}
  others : ∀ x i, x ≠ t → s'.heap.mem.pte (.user x i) = s.heap.mem.pte (.user x i)

theorem Inv.created (hi : Inv all boot handed live tables s) (hl : s.Linked) (hs : s.createPageTable dir va = some (s', t)) :
    Created s s' dir (pdx va) t ∧ s'.Linked := by
  obtain ⟨h, ptr, hk, hptr, hframe, rfl⟩ := createPageTable_eq_some.mp hs
  obtain ⟨hunheld, hfresh, hclear⟩ := hi.fresh_page hk hptr hframe
  obtain ⟨F, lost, howned⟩ := hi.owned
  have hsteps := howned.kmalloc_steps (by decide) hk
  obtain ⟨F₀, ha⟩ := hi.accounts
  obtain ⟨⟨F₁, ha₁⟩, hrooted⟩ := hsteps.rooted ha hl.rooted
  have hempty : ∀ i, h.mem.hold (.user t i) = none := fun i => by
    simp only [Frames.hold, hsteps.pte_user]
    exact hclear i
  obtain ⟨-, hhold⟩ := clearTable_accounts ha₁ hempty
  have hpde := fun d i => @pde_update D _ dir s.pde d (pdx va) i (some t)
  refine ⟨⟨hpde, hfresh, fun i => (pte_clearTable ..).trans (if_pos rfl), fun x i hx => ?_⟩, ?_, fun d j d' j' x hx hx' => ?_⟩
  · exact ((pte_clearTable ..).trans (if_neg hx)).trans (hsteps.pte_user x i)
  · intro p f hp
    have hp : (clearTable h.mem t).hold (.kernel p) = some f := hp
    rw [hhold] at hp
    obtain ⟨hva, honly⟩ := hrooted p f hp
    refine ⟨hva, fun c hc => honly c ?_⟩
    have hc : (clearTable h.mem t).hold c = some f := hc
    rwa [hhold] at hc
  · have hx : (if d = dir ∧ j = pdx va then some t else s.pde d j) = some x := (hpde d j).symm.trans hx
    have hx' : (if d' = dir ∧ j' = pdx va then some t else s.pde d' j') = some x := (hpde d' j').symm.trans hx'
    split at hx
    case isTrue h₁ =>
      split at hx'
      case isTrue h₂ => exact ⟨h₁.1.trans h₂.1.symm, h₁.2.trans h₂.2.symm⟩
      case isFalse =>
        cases hx
        exact absurd hx' (hfresh d' j')
    case isFalse =>
      split at hx'
      case isTrue =>
        cases hx'
        exact absurd hx (hfresh d j)
      case isFalse => exact hl.unique d j d' j' x hx hx'

/-! ### What the operations do to the entries -/

/-- The two addresses have the same entry. -/
def SamePage (va va' : Nat) : Prop := pdx va = pdx va' ∧ ptx va = ptx va'

instance (va va' : Nat) : Decidable (SamePage va va') := inferInstanceAs (Decidable (_ ∧ _))

/-- The entry after `map_frame`. -/
def mappedPte (e : Pte) (f : PageNo) (perm : BitVec 12) : Pte :=
  if e.present ∧ e.frame = f then e else ⟨f, e.perm &&& permAvailable ||| perm ||| permPresent⟩

/-- The entry after `unmap_frame`. -/
def unmappedPte (e : Pte) : Pte := if e.present then ⟨0, e.perm &&& permAvailable⟩ else e

/-- One entry changed to `e`, and every other is as before. -/
structure Writes (s s' : Paging D) (dir : D) (va : Nat) (e : Pte) : Prop where
  self : s'.page dir va = e
  others : ∀ d va', ¬ (d = dir ∧ SamePage va' va) → s'.page d va' = s.page d va'

/-- The tables stay where they are. -/
def Stays (s s' : Paging D) : Prop :=
  ∀ d j x p, s.pde d j = some x → s.heap.mem.hold (.kernel p) = some x → s'.pde d j = some x ∧ s'.heap.mem.hold (.kernel p) = some x

omit [DecidableEq D] in
theorem Stays.of_pte (hpde : s'.pde = s.pde) (hpte : ∀ p, s'.heap.mem.pte (.kernel p) = s.heap.mem.pte (.kernel p)) :
    Stays s s' := by
  intro d j x p hx hp
  refine ⟨hpde ▸ hx, ?_⟩
  simpa only [hold, hpte] using hp

omit [DecidableEq D] in
theorem Stays.trans {s₁ : Paging D} (h : Stays s s₁) (h' : Stays s₁ s') : Stays s s' := by
  intro d j x p hx hp
  obtain ⟨hx₁, hp₁⟩ := h d j x p hx hp
  exact h' d j x p hx₁ hp₁

omit [DecidableEq D] in
theorem page_of_some {d : D} (h : s.pde d (pdx va) = some t) : s.page d va = s.heap.mem.pte (.user t (ptx va)) := by
  simp only [page, h]

omit [DecidableEq D] in
theorem page_of_none {d : D} (h : s.pde d (pdx va) = none) : s.page d va = {} := by
  simp only [page, h]

omit [DecidableEq D] in
/-- The directories and the user tables are as before. -/
theorem page_congr (hpde : s'.pde = s.pde) (hpte : ∀ t i, s'.heap.mem.pte (.user t i) = s.heap.mem.pte (.user t i)) :
    s'.page = s.page := by
  funext d va
  simp only [page, hpde, hpte]

omit [DecidableEq D] in
/-- An entry of a table is written. -/
theorem writes_of_pte (hl : s.Linked) (ht : s.pde dir (pdx va) = some t)
    (hpte : ∀ x, x ≠ .user t (ptx va) → m.pte x = s.heap.mem.pte x) :
    Writes s { s with heap := { s.heap with mem := m } } dir va (m.pte (.user t (ptx va))) := by
  refine ⟨page_of_some (s := { s with heap := { s.heap with mem := m } }) ht, fun d va' hne => ?_⟩
  cases hd : s.pde d (pdx va') with
  | none => rw [page_of_none hd, page_of_none (s := { s with heap := { s.heap with mem := m } }) hd]
  | some x =>
    rw [page_of_some hd, page_of_some (s := { s with heap := { s.heap with mem := m } }) hd]
    refine hpte _ fun heq => hne ?_
    obtain ⟨rfl, hptx⟩ := Slot.user.inj heq
    obtain ⟨rfl, hpdx⟩ := hl.unique d (pdx va') dir (pdx va) x hd ht
    exact ⟨rfl, hpdx, hptx⟩

theorem mapFrame_pte {F out : List PageNo} {m' : Frames} {c : Slot} (ha : m.Accounts all boot F out)
    (hs : m.mapFrame c f va perm = some m') : m'.pte c = mappedPte (m.pte c) f perm := by
  rcases ha.mapFrame_cases hs with ⟨hc, rfl⟩ | ⟨hc, rfl⟩ | ⟨g, hgf, hc, rfl⟩
  · exact (if_pos (hold_eq_some.mp hc)).symm
  · rw [mappedPte, if_neg]
    · exact Function.update_self ..
    · rw [hold_eq_none.mp hc]
      exact fun h => nomatch h.1
  · obtain ⟨-, hg⟩ := hold_eq_some.mp hc
    rw [mappedPte, if_neg fun h => hgf (hg.symm.trans h.2)]
    refine (Function.update_self ..).trans ?_
    rw [pte_release, Function.update_self, BitVec.and_assoc, BitVec.and_self]

theorem unmapFrame_pte {F out : List PageNo} {m' : Frames} {c : Slot} (ha : m.Accounts all boot F out)
    (hs : m.unmapFrame c = some m') : m'.pte c = unmappedPte (m.pte c) := by
  rw [ha.unmapFrame_eq c] at hs
  cases hc : m.hold c with
  | none =>
    rw [hc] at hs
    cases hs
    exact (if_neg (by rw [hold_eq_none.mp hc]; exact nofun)).symm
  | some g =>
    rw [hc] at hs
    cases hs
    rw [unmappedPte, if_pos (hold_eq_some.mp hc).1, pte_release, Function.update_self]

omit [DecidableEq D] in
/-- The user entries are as before, and the frames of the heap still know their addresses. -/
theorem Linked.of_mem (hl : s.Linked) {h : KHeap} (hrooted : Rooted h.mem) : Linked { s with heap := h } := ⟨hrooted, hl.unique⟩

omit [DecidableEq D] in
theorem Inv.mapFrameIn_linked (hi : Inv all boot handed live tables s) (hl : s.Linked) (ht : s.pde dir (pdx va) = some t)
    (hf : NotKernel s.heap.mem f) (hs : s.mapFrameIn t f va perm = some s') :
    s'.Linked ∧ Writes s s' dir va (mappedPte (s.page dir va) f perm) ∧ Stays s s' := by
  obtain ⟨F, ha⟩ := hi.accounts
  obtain ⟨m, hm, rfl⟩ := Option.map_eq_some_iff.mp hs
  have hwrites := writes_of_pte hl ht fun x hx => pte_mapFrame hm hx
  rw [mapFrame_pte ha hm, ← page_of_some ht] at hwrites
  exact ⟨hl.of_mem (hl.rooted.mapFrame_user ha hf hm), hwrites, .of_pte rfl fun p => pte_mapFrame hm nofun⟩

/-- A table that is created does not change the entries of addresses that had none. -/
theorem Created.page (h : Created s s' dir (pdx va) t) (hnone : s.pde dir (pdx va) = none) : s'.page = s.page := by
  funext d va'
  by_cases hd : d = dir ∧ pdx va' = pdx va
  · obtain ⟨rfl, hpdx⟩ := hd
    rw [page_of_some (s := s') ((h.pde d (pdx va')).trans (if_pos ⟨rfl, hpdx⟩)), page_of_none (s := s) (hpdx ▸ hnone)]
    exact h.clear _
  · have hpde := (h.pde d (pdx va')).trans (if_neg hd)
    cases hx : s.pde d (pdx va') with
    | none => rw [page_of_none hx, page_of_none (hpde.trans hx)]
    | some x =>
      rw [page_of_some hx, page_of_some (hpde.trans hx)]
      refine h.others x _ ?_
      rintro rfl
      exact h.fresh d (pdx va') hx

/-- A table is created in frames that were free, so a frame that can be mapped gets no new mapping. -/
theorem Inv.createPageTable_fresh (hi : Inv all boot handed live tables s) (hs : s.createPageTable dir va = some (s', t))
    (hf : s.Mappable handed f) {c : Slot} (hc : s'.heap.mem.hold c = some f) : s.heap.mem.hold c = some f := by
  obtain ⟨h, ptr, hk, hptr, hframe, rfl⟩ := createPageTable_eq_some.mp hs
  obtain ⟨-, -, hclear⟩ := hi.fresh_page hk hptr hframe
  obtain ⟨F, lost, howned⟩ := hi.owned
  obtain ⟨lost', hdone⟩ := howned.kmalloc (by decide) hk
  have hsteps := howned.kmalloc_steps (by decide) hk
  obtain ⟨F₁, L₁, hinv₁, -⟩ := hdone.owned
  obtain ⟨-, hhold⟩ := clearTable_accounts hinv₁.accounts fun i => by
    simp only [Frames.hold, hsteps.pte_user]
    exact hclear i
  have hc : (clearTable h.mem t).hold c = some f := hc
  rw [hhold] at hc
  refine (hdone.mapped.fresh c f hc).resolve_right fun hfree => ?_
  obtain ⟨L, hinv, -⟩ := howned
  obtain ⟨-, hout, hnone⟩ := (hinv.accounts.mem f).mp hfree
  rcases hf with hf | ⟨c', hc'⟩
  · exact hout hf
  · exact hnone c' hc'

/-- `map_frame` of a frame that is not one of the kernel heap -/
theorem Inv.mapFrame_linked (hi : Inv all boot handed live tables s) (hl : s.Linked) (hf : s.Mappable handed f)
    (hnot : NotKernel s.heap.mem f) (hs : s.mapFrame dir f va perm = some s') :
    s'.Linked ∧ Writes s s' dir va (mappedPte (s.page dir va) f perm) ∧ Stays s s' := by
  unfold Paging.mapFrame at hs
  rw [hi.getPageTable_eq hl, Option.bind_some] at hs
  cases ht : s.pde dir (pdx va) with
  | some t =>
    rw [ht] at hs
    exact hi.mapFrameIn_linked hl ht hnot hs
  | none =>
    rw [ht] at hs
    obtain ⟨⟨s₁, t⟩, hs₁, hs⟩ := Option.bind_eq_some_iff.mp hs
    obtain ⟨hcreated, hl₁⟩ := hi.created hl hs₁
    obtain ⟨ptr, hi₁, ht₁, hkept, -⟩ := hi.createPageTable hs₁
    have hnot₁ : NotKernel s₁.heap.mem f := fun p hp => hnot p (hi.createPageTable_fresh hs₁ hf hp)
    obtain ⟨hl', hwrites, hstays⟩ := hi₁.mapFrameIn_linked hl₁ ht₁ hnot₁ hs
    rw [hcreated.page ht] at hwrites
    refine ⟨hl', ⟨hwrites.self, fun d va' hne => ?_⟩, fun d j x p hx hp => hstays d j x p ?_ (hkept _ _ hp)⟩
    · rw [hwrites.others d va' hne, hcreated.page ht]
    · rw [hcreated.pde, if_neg, hx]
      rintro ⟨rfl, rfl⟩
      rw [ht] at hx
      exact nomatch hx

omit [DecidableEq D] in
theorem Inv.unmapFrame_linked (hi : Inv all boot handed live tables s) (hl : s.Linked) (hs : s.unmapFrame dir va = some s') :
    s'.Linked ∧ Writes s s' dir va (unmappedPte (s.page dir va)) ∧ Stays s s' := by
  unfold Paging.unmapFrame at hs
  rw [hi.getPageTable_eq hl, Option.bind_some] at hs
  cases ht : s.pde dir (pdx va) with
  | some t =>
    rw [ht] at hs
    obtain ⟨F, ha⟩ := hi.accounts
    obtain ⟨m, hm, rfl⟩ := Option.map_eq_some_iff.mp hs
    have hwrites := writes_of_pte hl ht fun x hx => pte_unmapFrame hm hx
    rw [unmapFrame_pte ha hm, ← page_of_some ht] at hwrites
    exact ⟨hl.of_mem (hl.rooted.unmapFrame ha hm), hwrites, .of_pte rfl fun p => pte_unmapFrame hm nofun⟩
  | none =>
    rw [ht] at hs
    cases hs
    refine ⟨hl, ⟨?_, fun _ _ _ => rfl⟩, .of_pte rfl fun _ => rfl⟩
    rw [page_of_none ht]
    rfl

omit [DecidableEq D] in
theorem Inv.allocateFrame_linked (hi : Inv all boot handed live tables s) (hl : s.Linked)
    (hs : s.allocateFrame = some (s', f)) : s'.Linked ∧ s'.page = s.page ∧ Stays s s' ∧
      (∀ c, s.heap.mem.hold c ≠ some f) ∧ NotKernel s'.heap.mem f := by
  obtain ⟨F, ha⟩ := hi.accounts
  obtain ⟨⟨m, g⟩, hm, heq⟩ := Option.map_eq_some_iff.mp hs
  simp only [Prod.mk.injEq] at heq
  obtain ⟨rfl, rfl⟩ := heq
  obtain ⟨hf, ha', hpte, -⟩ := ha.allocateFrame hm
  refine ⟨hl.of_mem (hl.rooted.allocateFrame ha hm), page_congr rfl fun t i => by rw [hpte], .of_pte rfl fun p => by rw [hpte],
    ((ha.mem g).mp hf).2.2, fun p => (ha'.out_mem g (List.mem_cons_self ..)).2 _⟩

omit [DecidableEq D] in
theorem Inv.kmalloc_linked {size : Nat} {h : KHeap} (hi : Inv all boot handed live tables s) (hl : s.Linked)
    (hsize : size ≤ 4294963200) (hs : s.heap.kmalloc size = some (h, va)) :
    Linked { s with heap := h } ∧ page { s with heap := h } = s.page ∧ Stays s { s with heap := h } := by
  obtain ⟨F, lost, howned⟩ := hi.owned
  obtain ⟨F', ha⟩ := hi.accounts
  have hsteps := howned.kmalloc_steps hsize hs
  obtain ⟨lost', hdone⟩ := howned.kmalloc hsize hs
  exact ⟨hl.of_mem (hsteps.rooted ha hl.rooted).2, page_congr rfl hsteps.pte_user,
    fun d j x p hx hp => ⟨hx, hdone.mapped.kept _ _ hp⟩⟩

omit [DecidableEq D] in
theorem Inv.kfree_linked {h : KHeap} (hi : Inv all boot handed live tables s) (hl : s.Linked) (hlive : va ∈ live)
    (hs : s.heap.kfree va = some h) :
    Linked { s with heap := h } ∧ page { s with heap := h } = s.page ∧ Stays s { s with heap := h } := by
  obtain ⟨F', ha⟩ := hi.accounts
  have hsteps := KHeap.kfree_steps hs
  refine ⟨hl.of_mem (hsteps.rooted ha hl.rooted).2, page_congr rfl hsteps.pte_user, fun d j x p hx hp => ⟨hx, ?_⟩⟩
  obtain ⟨q, hq, hqx⟩ := hi.table d j x hx
  cases (hl.rooted _ x hqx).2 _ hp
  exact (hi.kfree_table hlive hs q hq).trans hqx

/-- `alloc_page` does nothing when a frame is mapped, and else maps a new one. -/
theorem Inv.allocPage_linked (hi : Inv all boot handed live tables s) (hl : s.Linked)
    (hs : s.allocPage dir va perm = some s') : s'.Linked ∧
      (((s.page dir va).present ∧ s' = s) ∨ ∃ f, (∀ c, s.heap.mem.hold c ≠ some f) ∧
        Writes s s' dir va (mappedPte (s.page dir va) f perm)) ∧ Stays s s' := by
  obtain ⟨r, hr, hs⟩ := Option.bind_eq_some_iff.mp hs
  cases r with
  | some g =>
    cases hs
    refine ⟨hl, .inl ⟨?_, rfl⟩, .of_pte rfl fun _ => rfl⟩
    unfold Paging.getFrameInfo at hr
    rw [hi.getPageTable_eq hl, Option.bind_some] at hr
    cases ht : s.pde dir (pdx va) with
    | none =>
      rw [ht] at hr
      exact nomatch hr
    | some t =>
      rw [ht] at hr
      obtain ⟨F, ha⟩ := hi.accounts
      rw [page_of_some ht]
      have hhold := (ha.getFrameInfo (.user t (ptx va))).symm.trans hr
      exact (hold_eq_some.mp (Option.some.inj hhold)).1
  | none =>
    obtain ⟨⟨s₁, f⟩, hs₁, hs⟩ := Option.bind_eq_some_iff.mp hs
    obtain ⟨hi₁, -⟩ := hi.allocateFrame hs₁
    obtain ⟨hl₁, hpage, hstays₁, hunheld, hnot⟩ := hi.allocateFrame_linked hl hs₁
    obtain ⟨hl', hwrites, hstays⟩ := hi₁.mapFrame_linked hl₁ (.inl (List.mem_cons_self ..)) hnot hs
    rw [hpage] at hwrites
    refine ⟨hl', .inr ⟨f, hunheld, hwrites.self, fun d va' hne => ?_⟩, hstays₁.trans hstays⟩
    rw [hwrites.others d va' hne, hpage]

end Paging

end Fos.Mem
