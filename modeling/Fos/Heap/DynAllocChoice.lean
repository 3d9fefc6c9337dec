import Fos.Heap.DynAllocRun
import Fos.Heap.KHeap
import Mathlib.Order.Bounds.Basic

/-! Which block `alloc_block` chooses: the head of the list of the smallest class that fits, the first block of a
    fresh page, or the head of the list of the smallest larger class; what it leaves alone; and when it panics. -/

namespace Fos.Heap
open Lib

namespace DynAlloc

variable {d d' : DynAlloc} {cls : Nat → Option SizeClass} {free : SizeClass → List Nat} {freePages out : List Nat}
  {c : SizeClass} {i b : Nat}

/-! ### The class that is searched first -/

/-- The loop stops at the first power of two that fits. -/
theorem ceilLog2_min {size k : Nat} (fuel log2 : Nat) (hle : log2 ≤ k) (hlt : k < ceilLog2 size fuel log2) : 2 ^ k < size := by
  induction fuel generalizing log2 with
  | zero => exact absurd hlt (Nat.not_lt.mpr hle)
  | succ fuel ih =>
    unfold ceilLog2 at hlt
    split at hlt
    case isTrue h =>
      rcases Nat.eq_or_lt_of_le hle with rfl | hgt
      · exact h.1
      · exact ih (log2 + 1) hgt hlt
    case isFalse => exact absurd hlt (Nat.not_lt.mpr hle)

theorem classOf_least {size : Nat} (hsize : size ≤ 2048) :
    IsLeast {c : SizeClass | size ≤ c.blockSize} (Fin.ofNat 9 (ceilLog2 size 9 log2MinSize - log2MinSize)) := by
  obtain ⟨hclass, hfits, hmax⟩ := classOf_spec hsize rfl
  refine ⟨hfits.trans hclass.ge, fun c hc => ?_⟩
  by_contra hlt
  rw [not_le, Fin.lt_def, Fin.val_ofNat] at hlt
  have hmod := Nat.mod_le (ceilLog2 size 9 log2MinSize - log2MinSize) 9
  have hsmall : 2 ^ (c.val + 3) < size := ceilLog2_min 9 log2MinSize (Nat.le_add_left 3 _) (by simp only [log2MinSize] at *; omega)
  exact absurd hc (Nat.not_le.mpr hsmall)

/-! ### The three levels -/

/-- The head `va` of the list of class `c` was taken: its list lost it, its page counts one free block less, and the
    memory outside the blocks of the list, the free pages and the other pages are as they were. -/
structure TookHead (d d' : DynAlloc) (free : SizeClass → List Nat) (c : SizeClass) (va : Nat) : Prop where
  lists : d'.blocks.Spells (Function.update free c (free c).tail)
  memory : ∀ a ∉ free c, d'.blocks.link a = d.blocks.link a
  counted : d'.numOfFreeBlocks ((va - d.dynAllocStart) / 4096) + 1 = d.numOfFreeBlocks ((va - d.dynAllocStart) / 4096)
  others : d' = { d with blocks := d'.blocks
                         numOfFreeBlocks := Function.update d.numOfFreeBlocks ((va - d.dynAllocStart) / 4096)
                           (d'.numOfFreeBlocks ((va - d.dynAllocStart) / 4096)) }

/-- The free page `i` was cut into blocks of class `c`, whose list was empty, and its first block was taken: the other
    blocks of the page are the list, and the memory outside the page, the other lists and pages are as they were. -/
structure OpenedPage (d d' : DynAlloc) (free : SizeClass → List Nat) (freePages : List Nat) (c : SizeClass) (i : Nat) :
    Prop where
  lists : d'.blocks.Spells (Function.update free c ((slabs d.dynAllocStart).slots c i).tail)
  pages : d'.pages.Spells fun _ => freePages.tail
  memory : ∀ a, a / 4096 ≠ (d.dynAllocStart + i * 4096) / 4096 → d'.blocks.link a = d.blocks.link a
  others : d' = { d with blocks := d'.blocks
                         pages := d'.pages
                         blockSize := Function.update d.blockSize i c.blockSize
                         numOfFreeBlocks := Function.update d.numOfFreeBlocks i (4096 / c.blockSize - 1) }

theorem erase_of_head? {α : Type} [DecidableEq α] {l : List α} {x : α} (h : l.head? = some x) : l.erase x = l.tail := by
  obtain ⟨rest, rfl⟩ := List.head?_eq_some_iff.mp h
  rw [List.erase_cons_head, List.tail_cons]

theorem Rep.tookHead (h : Rep d cls free freePages out) {va : Nat} (hva : (free c).head? = some va) :
    TookHead d (d.takeBlock c va) free c va := by
  have hmem : va ∈ free c := List.mem_of_head? hva
  obtain ⟨hcls, hslot⟩ := h.tiled.cls_of_listed hmem
  have hindex : (va - d.dynAllocStart) / 4096 = sub32 va d.dynAllocStart / pageSize := (h.pageIndex_slot hcls hslot).symm
  have hlt := h.used_page _ c hcls
  have hcount := h.numFree _ hlt
  have htake := (h.takeBlock hmem).numFree _ hlt
  have hrem := h.blocks.remove hmem
  rw [erase_of_head? hva] at hrem
  refine ⟨hrem, fun a ha => h.blocks.link_remove hmem ha, ?_, ?_⟩
  · have hone := Slabs.freeIn_take (S := slabs d.dynAllocStart) hmem
    rw [hcls, Option.elim_some] at hcount htake
    exact (congrArg (· + 1) htake).trans (hone.trans hcount.symm)
  · simp only [hindex, DynAlloc.takeBlock, Function.update_self]

variable {σ : Type} {ops : PageOps σ} {w w' : σ}

theorem Rep.slot_div (h : Rep d cls free freePages out) {c' : SizeClass} (hb : b ∈ (slabs d.dynAllocStart).slots c' i) :
    b / 4096 = (d.dynAllocStart + i * 4096) / 4096 := by
  have hslot := Slabs.slot_bounds hb
  have := (blockSize_le c').1
  have := h.start_aligned
  simp only [Slabs.base, slabs, pageSize] at hslot
  omega

/-- The area does not start at the null pointer. Cutting a page then fails only in `get_page`. -/
theorem Rep.openPage_some (hops : ops.Local) (h : Rep d cls free freePages out) (hstart : 0 < d.dynAllocStart)
    (hi : freePages.head? = some i) (hempty : free c = []) {m : Nat → Link Nat}
    (hget : ops.getPage w d.blocks.link (d.dynAllocStart + i * 4096) = some (w', m)) :
    ∃ d', DynAlloc.openPage ops w d c c.blockSize i = some (w', d', d.dynAllocStart + i * 4096) ∧
      OpenedPage d d' free freePages c i := by
  have hmem : i ∈ freePages := List.mem_of_head? hi
  obtain ⟨hlt, hnone⟩ := (h.free_page i).mp hmem
  have hva : toPageVa { d with pages := d.pages.remove () i } i = some ((slabs d.dynAllocStart).base i) := h.toPageVa_eq hlt
  have hbase : (slabs d.dynAllocStart).base i = d.dynAllocStart + i * 4096 := rfl
  have hper : pageSize / c.blockSize ≤ 512 := perPage_le d.dynAllocStart c
  have hcount : Function.update d.numOfFreeBlocks i (u16 (pageSize / c.blockSize)) i = pageSize / c.blockSize := by
    rw [Function.update_self]
    exact u16_of_lt (by omega)
  have hnew : ∀ b ∈ (slabs d.dynAllocStart).slots c i, ∀ c', b ∉ free c' := by
    intro b hb c' hb'
    have hcls := (h.tiled.cls_of_listed hb').1
    rw [Slabs.pageOf_slot hb, hnone] at hcls
    cases hcls
  have houtside : ∀ c', ∀ x ∈ free c', m x = d.blocks.link x := by
    intro c' x hx
    refine hops.getPage hget x fun hin => ?_
    rw [← hbase] at hin
    obtain ⟨hcls, -⟩ := h.tiled.cls_of_listed hx
    rw [h.pageOf_of_div hin, hnone] at hcls
    cases hcls
  have hnonzero : ∀ b ∈ (slabs d.dynAllocStart).slots c i, b ≠ 0 := by
    intro b hb
    have hle := (Slabs.slot_bounds hb).1
    rw [hbase] at hle
    omega
  obtain ⟨d₁, hins⟩ := insertBlocks_some (c := c)
    (d := { d with pages := d.pages.remove () i
                   blocks := { d.blocks with link := m }
                   blockSize := Function.update d.blockSize i (u16 c.blockSize)
                   numOfFreeBlocks := Function.update d.numOfFreeBlocks i (u16 (pageSize / c.blockSize)) }) hnonzero
  obtain ⟨B, rfl, hB, hlink⟩ := insertBlocks_spec hins (h.blocks.congr_link houtside) hnew Slabs.nodup_slots
  rw [hempty, List.nil_append] at hB
  have hfirst : (B.head c).first = some ((slabs d.dynAllocStart).base i) := by
    rw [hB.first c, Function.update_self, Slabs.slots_head]
  have hopen : DynAlloc.openPage ops w d c c.blockSize i = some (w', DynAlloc.memset
      { d with pages := d.pages.remove () i
               blocks := B.remove c ((slabs d.dynAllocStart).base i)
               blockSize := Function.update d.blockSize i (u16 c.blockSize)
               numOfFreeBlocks := Function.update (Function.update d.numOfFreeBlocks i (u16 (pageSize / c.blockSize))) i
                 (u16 (pageSize / c.blockSize + 65535)) }
      ((slabs d.dynAllocStart).base i) c.blockSize, (slabs d.dynAllocStart).base i) := by
    rw [← hbase] at hget
    simp only [DynAlloc.openPage, hva, Option.bind_some, hget, hcount]
    rw [h.blocksOfPage_eq hlt c, hins]
    simp only [Option.bind_some, hfirst, Option.map_some, hcount]
  obtain ⟨hrep, -⟩ := h.openPage hops hmem hempty hopen
  have hbase_div : (slabs d.dynAllocStart).base i % 4096 = 0 := by
    have := h.start_aligned
    omega
  have hsize := blockSize_le c
  refine ⟨_, hopen, ?_, ?_, fun a ha => ?_, ?_⟩
  · rw [← erase_of_head? Slabs.slots_head]
    exact hrep.blocks
  · rw [← erase_of_head? hi]
    exact hrep.pages
  · have hslots : a ∉ (slabs d.dynAllocStart).slots c i := fun hslot => ha (h.slot_div hslot)
    have hset : ¬ ((slabs d.dynAllocStart).base i ≤ a ∧ a < (slabs d.dynAllocStart).base i + c.blockSize) := by omega
    have hrem : (B.remove c ((slabs d.dynAllocStart).base i)).link a = B.link a :=
      hB.link_remove (by rw [Function.update_self]; exact List.mem_of_head? Slabs.slots_head)
        (by rw [Function.update_self]; exact hslots)
    calc
      _ = (B.remove c ((slabs d.dynAllocStart).base i)).link a := if_neg hset
      _ = B.link a := hrem
      _ = m a := hlink a hslots (by rw [hempty]; exact List.not_mem_nil)
      _ = d.blocks.link a := hops.getPage hget a ha
  · have hpos : 0 < pageSize / c.blockSize := Slabs.perPage_pos (S := slabs d.dynAllocStart) (c := c)
    have hsub : u16 (pageSize / c.blockSize + 65535) = 4096 / c.blockSize - 1 := by
      unfold u16
      simp only [pageSize] at *
      omega
    simp only [DynAlloc.memset, Function.update_idem, u16_of_lt (show c.blockSize < 65536 by omega), hsub]

theorem Rep.openPage_none (h : Rep d cls free freePages out) (hi : i ∈ freePages)
    (hget : ops.getPage w d.blocks.link (d.dynAllocStart + i * 4096) = none) :
    DynAlloc.openPage ops w d c c.blockSize i = none := by
  obtain ⟨hlt, -⟩ := (h.free_page i).mp hi
  have hva : toPageVa { d with pages := d.pages.remove () i } i = some (d.dynAllocStart + i * 4096) := h.toPageVa_eq hlt
  simp only [DynAlloc.openPage, hva, Option.bind_some, hget, Option.bind_none]

theorem allocLarger_none {cs : List SizeClass} (h : ∀ c ∈ cs, (d.blocks.head c).first = none) : allocLarger w d cs = none := by
  induction cs with
  | nil => rfl
  | cons c cs ih =>
    unfold allocLarger
    rw [h c (List.mem_cons_self ..)]
    exact ih fun c' hc' => h c' (List.mem_cons_of_mem _ hc')

/-- The loop takes a block of the first class that has one. -/
theorem allocLarger_first {cs : List SizeClass} {va : Nat} (hsorted : cs.Pairwise (· < ·)) (hc : c ∈ cs)
    (hva : (d.blocks.head c).first = some va) (hempty : ∀ c' ∈ cs, c' < c → (d.blocks.head c').first = none) :
    allocLarger w d cs = some (w, d.takeBlock c va, va) := by
  induction cs with
  | nil => exact nomatch hc
  | cons c' cs ih =>
    obtain ⟨hlt, hsorted⟩ := List.pairwise_cons.mp hsorted
    unfold allocLarger
    rcases List.mem_cons.mp hc with rfl | hc
    · rw [hva]
    · rw [hempty c' (List.mem_cons_self ..) (hlt c hc)]
      exact ih hsorted hc fun x hx => hempty x (List.mem_cons_of_mem _ hx)

/-- The result `r` of a call that may take a block of class `c` at least, from the free lists `free` and the free pages
    `freePages`: the head of the list of class `c`, else the first block of the first free page, else the head of the
    list of the smallest larger class that has one. The call panics when there is none of the three, or when `get_page`
    does. -/
structure Chooses (ops : PageOps σ) (w : σ) (d : DynAlloc) (free : SizeClass → List Nat) (freePages : List Nat)
    (c : SizeClass) (r : Option (σ × DynAlloc × Nat)) : Prop where
  listed : ∀ va ∈ (free c).head?, ∃ d', r = some (w, d', va) ∧ TookHead d d' free c va
  fresh : free c = [] → ∀ i ∈ freePages.head?, ∀ w' m,
    ops.getPage w d.blocks.link (d.dynAllocStart + i * 4096) = some (w', m) →
      ∃ d', r = some (w', d', d.dynAllocStart + i * 4096) ∧ OpenedPage d d' free freePages c i
  larger : free c = [] → freePages = [] → ∀ c', IsLeast {c' | c < c' ∧ free c' ≠ []} c' → ∀ va ∈ (free c').head?,
    ∃ d', r = some (w, d', va) ∧ TookHead d d' free c' va
  panics : r = none ↔
    (∀ c', c ≤ c' → free c' = []) ∧ freePages = [] ∨
      free c = [] ∧ ∃ i ∈ freePages.head?, ops.getPage w d.blocks.link (d.dynAllocStart + i * 4096) = none

theorem Rep.first_none (h : Rep d cls free freePages out) : (d.blocks.head c).first = none ↔ free c = [] := by
  rw [h.blocks.first c, List.head?_eq_none_iff]

theorem Rep.allocLarger_chooses (h : Rep d cls free freePages out) (hc : free c = []) (hpages : freePages = []) :
    Chooses ops w d free freePages c (allocLarger w d ((List.finRange 9).filter (c < ·))) := by
  have hmem : ∀ c', c' ∈ (List.finRange 9).filter (c < ·) ↔ c < c' := by simp
  have hsorted : ((List.finRange 9).filter (c < ·)).Pairwise (· < ·) := (List.pairwise_lt_finRange 9).filter _
  have hno_fresh : ∀ i, i ∉ freePages.head? := by simp [hpages]
  have htake : ∀ c', IsLeast {c' | c < c' ∧ free c' ≠ []} c' → ∀ va ∈ (free c').head?,
      allocLarger w d ((List.finRange 9).filter (c < ·)) = some (w, d.takeBlock c' va, va) := by
    intro c' hleast va hva
    refine allocLarger_first hsorted ((hmem c').mpr hleast.1.1) ((h.blocks.first c').trans hva) fun x hx hlt => ?_
    refine h.first_none.mpr ?_
    by_contra hne
    exact absurd (hleast.2 ⟨(hmem x).mp hx, hne⟩) (not_le.mpr hlt)
  refine ⟨fun va hva => by simp [hc] at hva, fun _ i hi => absurd hi (hno_fresh i),
    fun _ _ c' hleast va hva => ⟨_, htake c' hleast va hva, h.tookHead hva⟩, ?_⟩
  constructor
  · intro hnone
    refine .inl ⟨fun c' hle => ?_, hpages⟩
    rcases eq_or_lt_of_le hle with rfl | hlt
    · exact hc
    · by_contra hne
      obtain ⟨x, hx⟩ : ∃ x, IsLeast {c' | c < c' ∧ free c' ≠ []} x :=
        ⟨_, WellFounded.min_mem wellFounded_lt {c' | c < c' ∧ free c' ≠ []} ⟨c', hlt, hne⟩,
          fun y hy => WellFounded.min_le wellFounded_lt hy⟩
      obtain ⟨va, hva⟩ := Option.ne_none_iff_exists'.mp (mt List.head?_eq_none_iff.mp hx.1.2)
      rw [htake x hx va hva] at hnone
      exact nomatch hnone
  · rintro (⟨hempty, -⟩ | ⟨-, i, hi, -⟩)
    · exact allocLarger_none fun c' hc' => h.first_none.mpr (hempty c' ((hmem c').mp hc').le)
    · exact absurd hi (hno_fresh i)

theorem Rep.allocBlock_chooses (hops : ops.Local) (h : Rep d cls free freePages out) (hstart : 0 < d.dynAllocStart)
    {size : Nat} (hpos : 0 < size) (hsize : size ≤ 2048) :
    ∃ c : SizeClass, IsLeast {c : SizeClass | size ≤ c.blockSize} c ∧
      Chooses ops w d free freePages c (allocBlock ops w d size) := by
  obtain ⟨hclass, -, hmax⟩ := classOf_spec hsize rfl
  refine ⟨_, classOf_least hsize, ?_⟩
  simp only [DynAlloc.allocBlock, dynAllocMaxBlockSize, Nat.ne_of_gt hpos, if_false, if_pos hsize]
  rw [if_neg (Nat.not_lt.mpr hmax), ← hclass]
  generalize Fin.ofNat 9 (ceilLog2 size 9 log2MinSize - log2MinSize) = c
  split
  case h_1 va hva =>
    rw [h.blocks.first c] at hva
    have hne : free c ≠ [] := by
      rintro heq
      rw [heq] at hva
      cases hva
    refine ⟨fun va' hva' => ?_, fun hempty => absurd hempty hne, fun hempty => absurd hempty hne, ?_⟩
    · obtain rfl : va = va' := Option.some.inj (hva.symm.trans hva')
      exact ⟨_, rfl, h.tookHead hva⟩
    · refine iff_of_false (Option.some_ne_none _) ?_
      rintro (⟨hempty, -⟩ | ⟨hempty, -⟩)
      · exact hne (hempty c le_rfl)
      · exact hne hempty
  case h_2 hnone =>
    have hempty := h.first_none.mp hnone
    split
    case h_1 i hi =>
      rw [h.pages.first ()] at hi
      have hne : freePages ≠ [] := by
        rintro rfl
        cases hi
      refine ⟨fun va hva => by simp [hempty] at hva, fun _ j hj w' m hget => ?_, fun _ hnil => absurd hnil hne, ?_⟩
      · obtain rfl : i = j := Option.some.inj (hi.symm.trans hj)
        exact h.openPage_some hops hstart hi hempty hget
      · constructor
        · intro hfail
          refine .inr ⟨hempty, i, hi, ?_⟩
          by_contra hsome
          obtain ⟨⟨w', m⟩, hget⟩ := Option.ne_none_iff_exists'.mp hsome
          obtain ⟨d', hd', -⟩ := h.openPage_some hops hstart hi hempty hget
          rw [hfail] at hd'
          cases hd'
        · rintro (⟨-, hnil⟩ | ⟨-, j, hj, hget⟩)
          · exact absurd hnil hne
          · obtain rfl : i = j := Option.some.inj (hi.symm.trans hj)
            exact h.openPage_none (List.mem_of_head? hi) hget
    case h_2 hpages =>
      exact h.allocLarger_chooses hempty (h.pages.eq_nil_of_first (i := ()) hpages)

end DynAlloc

/-! ### Runs -/

/-- A call or a write of the client, or a step of other code, which moves the state behind `get_page` on. -/
inductive SharedEvent (σ : Type) where
  | client (e : BlockEvent)
  | others (w : σ)

namespace BlockClient

variable {σ : Type} {ops : PageOps σ} {s t : BlockClient σ}

def sharedStep (ops : PageOps σ) (s : BlockClient σ) : SharedEvent σ → Option (BlockClient σ)
  | .client e => s.step ops e
  | .others w => some { s with world := w }

theorem Inv.start_step {e : BlockEvent} (hops : ops.Local) (h : Inv s) (hs : s.step ops e = some t) :
    t.da.dynAllocStart = s.da.dynAllocStart := by
  obtain ⟨⟨cls, free, freePages, hinv⟩, -⟩ := h
  cases e with
  | alloc size =>
    simp only [BlockClient.step, Option.ite_none_right_eq_some, Option.map_eq_some_iff] at hs
    obtain ⟨⟨hpos, -⟩, ⟨w, d, va⟩, halloc, rfl⟩ := hs
    exact (hinv.allocBlock hops hpos halloc).start_eq
  | free va =>
    simp only [BlockClient.step, Option.ite_none_right_eq_some, Option.map_eq_some_iff] at hs
    obtain ⟨hva, ⟨w, d⟩, hfree, rfl⟩ := hs
    exact (hinv.freeBlock hops hva hfree).start_eq
  | store a link =>
    simp only [BlockClient.step, Option.ite_none_right_eq_some] at hs
    obtain ⟨-, hs⟩ := hs
    cases hs
    rfl

theorem Inv.sharedStep {e : SharedEvent σ} (hops : ops.Local) (hinv : Inv s) (hpos : 0 < s.da.dynAllocStart)
    (hs : s.sharedStep ops e = some t) : Inv t ∧ 0 < t.da.dynAllocStart := by
  cases e with
  | client e =>
    have hstart := hinv.start_step hops hs
    exact ⟨hinv.step hops hs, by omega⟩
  | others w =>
    cases hs
    exact ⟨hinv, hpos⟩

/-- In every run from `initialize_dynamic_allocator` on an area that does not start at the null pointer, `alloc_block`
    chooses as `Chooses` says: with `c` the smallest class that fits, a block of the list of class `c`, of a fresh page
    or of the smallest larger class, in this order, and it panics when there is none or when `get_page` panics. -/
theorem alloc_block_choice (hops : ops.Local) {d d₀ : DynAlloc} {w : σ} {daStart daEnd size : Nat} (hnull : 0 < daStart)
    (hstart : daStart % 4096 = 0) (hend : daEnd % 4096 = 0) (hle : daStart ≤ daEnd) (hlt : daEnd < 4294967296)
    (hmax : daEnd ≤ daStart + dynAllocMaxSize) (hd : d.initializeDynamicAllocator daStart daEnd = some d₀)
    (hr : Reach (sharedStep ops) (fun _ _ => True) ⟨w, d₀, []⟩ s) (hpos : 0 < size) (hsize : size ≤ 2048) :
    ∃ (c : SizeClass) (free : SizeClass → List Nat) (freePages : List Nat),
      IsLeast {c : SizeClass | size ≤ c.blockSize} c ∧ s.da.blocks.Spells free ∧ (s.da.pages.Spells fun _ => freePages) ∧
      DynAlloc.Chooses ops s.world s.da free freePages c (DynAlloc.allocBlock ops s.world s.da size) := by
  obtain ⟨hinit, hstart₀, -⟩ := DynAlloc.initializeDynamicAllocator_inv hstart hend hle hlt hmax hd
  have hinit' : @Inv σ ⟨w, d₀, []⟩ := ⟨⟨_, _, _, hinit⟩, nofun⟩
  obtain ⟨⟨⟨cls, free, freePages, h⟩, -⟩, hpos'⟩ := hr.invariant (I := fun s => Inv s ∧ 0 < s.da.dynAllocStart)
    ⟨hinit', hnull.trans_eq hstart₀.symm⟩ fun _ _ _ hi _ hs => hi.1.sharedStep hops hi.2 hs
  obtain ⟨c, hc, hchooses⟩ := h.toRep.allocBlock_chooses hops hpos' hpos hsize
  exact ⟨c, free, freePages, hc, h.blocks, h.pages, hchooses⟩

/-- After a block of 2048 bytes was taken from an area of two pages, the next one is the other half of its page. -/
theorem alloc_block_choice_half : ∃ s : BlockClient Unit, ∃ d',
    Reach (sharedStep residentPages) (fun _ _ => True) ⟨(), twoPages, []⟩ s ∧
      DynAlloc.allocBlock residentPages s.world s.da 1025 = some ((), d', 2147485696) := by
  have hd : DynAlloc.initializeDynamicAllocator {} 2147483648 2147491840 = some twoPages := rfl
  have hr : Reach (sharedStep residentPages) (fun _ _ => True) ⟨(), twoPages, []⟩ _ :=
    .step (.client (.alloc 2000)) .init trivial rfl
  obtain ⟨c, free, freePages, hc, hfree, -, hchooses⟩ := alloc_block_choice residentPages_local (by decide)
    (by decide) (by decide) (by decide) (by decide) (by decide) hd hr (show 0 < 1025 by decide) (by decide)
  have hlast : IsLeast {c : SizeClass | 1025 ≤ c.blockSize} 8 := ⟨by decide, fun c => by revert c; decide⟩
  obtain rfl : c = 8 := hc.unique hlast
  have hfirst : (free 8).head? = some 2147485696 := (hfree.first 8).symm.trans rfl
  obtain ⟨d', hd', -⟩ := hchooses.listed _ hfirst
  exact ⟨_, d', hr, hd'⟩

end BlockClient

/-- The kernel has 157 free frames; a region of 156 pages and the node for it take them all. A block of 8 bytes then needs a
    fresh page: page 1 of the area is the first of the free pages, but `get_page` panics. -/
theorem alloc_block_no_frame : ∃ s₀ s, KClient.afterBoot 160 256 = some s₀ ∧
    exec KClient.step s₀ [.kmalloc 638976] = some s ∧ (s.heap.da.pages.head ()).first = some 1 ∧ s.heap.allocBlock 8 = none := by
  have hrun : ((KClient.afterBoot 160 256).bind fun s₀ => (exec KClient.step s₀ [.kmalloc 638976]).map fun s =>
      ((s.heap.da.pages.head ()).first, (s.heap.allocBlock 8).isNone)) = some (some 1, true) := by
    rw [KClient.afterBoot_eq]
    decide +kernel
  obtain ⟨s₀, hs₀, hrun⟩ := Option.bind_eq_some_iff.mp hrun
  obtain ⟨s, hs, hres⟩ := Option.map_eq_some_iff.mp hrun
  simp only [Prod.mk.injEq] at hres
  exact ⟨s₀, s, hs₀, hs, hres.1, Option.isNone_iff_eq_none.mp hres.2⟩

end Fos.Heap
