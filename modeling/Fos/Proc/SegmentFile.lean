import Fos.Proc.LoadSupply

/-! What `env_create` leaves in the page file for a segment: the last page that is written at an address stays. -/

namespace Fos.Mem
open Lib Heap Disk

/-! ### Pages that are written one after the other -/

section
variable {E : Type} [DecidableEq E] {c : E × Fin 1024 × Fin 1024 → Option Page} {e d : E} {k : E × Fin 1024 × Fin 1024}
  {l l' : List (Nat × Page)} {page : Page}

/-- The pages in the page file when those of the list have been added. -/
def addedPages (e : E) (c : E × Fin 1024 × Fin 1024 → Option Page) (l : List (Nat × Page)) : E × Fin 1024 × Fin 1024 → Option Page :=
  l.foldl (fun c page => Function.update c (PageFile.key e page.1) (some page.2)) c

theorem addedPages_cons (x : Nat × Page) :
    addedPages e c (x :: l) = addedPages e (Function.update c (PageFile.key e x.1) (some x.2)) l := rfl

theorem addedPages_append : addedPages e c (l ++ l') = addedPages e (addedPages e c l) l' := List.foldl_append

theorem addedPages_of_not_mem (h : ∀ x ∈ l, PageFile.key e x.1 ≠ k) : addedPages e c l k = c k := by
  induction l generalizing c with
  | nil => rfl
  | cons x l ih =>
    rw [addedPages_cons, ih fun y hy => h y (List.mem_cons_of_mem _ hy)]
    exact Function.update_of_ne (h x (List.mem_cons_self ..)).symm ..

/-- All that is written at a page is the same, and something is. -/
theorem addedPages_of_mem (h : ∀ x ∈ l, PageFile.key e x.1 = k → x.2 = page) (hmem : ∃ x ∈ l, PageFile.key e x.1 = k) :
    addedPages e c l k = some page := by
  induction l generalizing c with
  | nil =>
    obtain ⟨x, hx, -⟩ := hmem
    exact absurd hx List.not_mem_nil
  | cons x l ih =>
    rw [addedPages_cons]
    by_cases hlater : ∃ y ∈ l, PageFile.key e y.1 = k
    · exact ih (fun y hy => h y (List.mem_cons_of_mem _ hy)) hlater
    · rw [addedPages_of_not_mem fun y hy heq => hlater ⟨y, hy, heq⟩]
      obtain ⟨y, hy, hkey⟩ := hmem
      rcases List.mem_cons.mp hy with rfl | hy
      · rw [hkey, Function.update_self, h y (List.mem_cons_self ..) hkey]
      · exact absurd ⟨y, hy, hkey⟩ hlater

end

/-! ### The pages of a segment -/

namespace Segment

variable {seg : Segment} {zero : Page} {p q k : Nat}

/-- The part of the file ends in the first page, which is cut off in front: step 7.4 writes that page again, with `src_ptr`
    already behind it. -/
def Overwritten (seg : Segment) : Prop := seg.offset ≠ 0 ∧ seg.offset + seg.sizeInFile < pageSize

instance (seg : Segment) : Decidable seg.Overwritten := inferInstanceAs (Decidable (_ ∧ _))

/-- What is written for the page `p`. -/
def filed (seg : Segment) (zero : Page) (p : Nat) : Page :=
  if seg.startRemaining ≤ p then zero
  else if p = seg.startLast then seg.lastPage
  else if p < seg.endFirst then seg.firstPage
  else seg.fullPage ((p - seg.endFirst) / pageSize)

/-- What the page file gets in front of the segment. -/
def front (seg : Segment) (k : Nat) : UInt8 := if seg.Overwritten then seg.source (pageSize - seg.offset + k) else 0

/-- The parts of a segment below the stack. -/
theorem Below.layout (h : Below seg) (hfits : seg.Fits) :
    seg.startFirst = seg.virtualAddress - seg.virtualAddress % 4096 ∧ seg.offset = seg.virtualAddress % 4096 ∧
      seg.endFirst = (seg.virtualAddress + 4095) / 4096 * 4096 ∧ seg.endLast = seg.virtualAddress + seg.sizeInFile ∧
      seg.startLast = (seg.virtualAddress + seg.sizeInFile) / 4096 * 4096 ∧
      seg.startRemaining = (seg.virtualAddress + seg.sizeInFile + 4095) / 4096 * 4096 ∧
      roundUp (seg.virtualAddress + seg.sizeInMemory) pageSize = (seg.virtualAddress + seg.sizeInMemory + 4095) / 4096 * 4096 := by
  obtain ⟨hle, -⟩ := h.bounds
  have hlast := h.endLast hfits
  unfold Fits at hfits
  have hround : ∀ n, n ≤ 4294963200 → roundUp n pageSize = (n + 4095) / 4096 * 4096 := by
    intro n hn
    obtain ⟨hpage, hge, hlt⟩ := roundUp_page hn
    omega
  have hdown : ∀ n, roundDown n pageSize = n / 4096 * 4096 := by
    intro n
    simp only [roundDown, pageSize]
    omega
  have hfirst : seg.startFirst = seg.virtualAddress - seg.virtualAddress % 4096 := rfl
  refine ⟨hfirst, ?_, hround _ (by omega), hlast, ?_, ?_, hround _ (by omega)⟩
  · unfold offset
    omega
  · unfold startLast
    rw [hlast, hdown]
  · unfold startRemaining
    rw [hlast, hround _ (by omega)]

/-- The pages of zeros are those of the segment behind the file. -/
theorem Below.mem_zeroPages (h : Below seg) (hfits : seg.Fits) : p ∈ seg.zeroPages ↔ seg.startRemaining ≤ p ∧ Has seg p := by
  obtain ⟨hfirst, -, -, -, -, hremaining, hstop⟩ := h.layout hfits
  obtain ⟨hle, -⟩ := h.bounds
  unfold Fits at hfits
  have hlength : roundUp seg.remainingLength pageSize / pageSize =
      ((seg.virtualAddress + seg.sizeInMemory + 4095) / 4096 * 4096 - seg.startRemaining) / 4096 := by
    unfold remainingLength
    simp only [roundUp, roundDown, u32, pageSize]
    omega
  unfold zeroPages Has
  rw [hlength, mem_pagesFrom (by omega), hstop]
  have hdown : roundDown seg.virtualAddress pageSize = seg.virtualAddress - seg.virtualAddress % 4096 := rfl
  constructor
  · rintro ⟨i, hi, rfl⟩
    omega
  · rintro ⟨hge, halign, -, hlt⟩
    exact ⟨(p - seg.startRemaining) / 4096, by omega, by omega⟩

variable {E : Type} [DecidableEq E] {c : E × Fin 1024 × Fin 1024 → Option Page} {e : E}

omit [DecidableEq E] in
theorem key_eq_iff (hp : p % 4096 = 0 ∧ p < 4294967296) (hq : q % 4096 = 0 ∧ q < 4294967296) :
    PageFile.key e p = PageFile.key e q ↔ p = q := by
  have hsame := samePage_iff hp.2 hq.2
  constructor
  · intro heq
    have hkey := (Prod.mk.inj heq).2
    obtain ⟨hpdx, hptx⟩ := Prod.mk.inj hkey
    have := hsame.mp ⟨hpdx, hptx⟩
    omega
  · rintro rfl
    rfl

/-- Where the pages of the file are written. -/
theorem Below.aligned (h : Below seg) (hfits : seg.Fits) : ∀ va ∈ seg.fileAddresses, va % 4096 = 0 ∧ va < 4294967296 := by
  obtain ⟨hfirst, -, hend, -, hlast, -, -⟩ := h.layout hfits
  intro va hva
  refine ⟨?_, (fileAddresses_lt h hfits va hva).trans (by decide)⟩
  rcases List.mem_append.mp hva with hva | hva
  · rcases List.mem_append.mp hva with hva | hva
    · split at hva
      · rw [List.mem_singleton.mp hva, hfirst]
        omega
      · exact absurd hva List.not_mem_nil
    · obtain ⟨j, -, rfl⟩ := List.mem_map.mp hva
      simp only [pageSize]
      omega
  · rcases List.mem_cons.mp hva with rfl | hva
    · omega
    · exact ((h.mem_zeroPages hfits).mp hva).2.1

/-- Every page of the segment is written, the last time as `filed` says. -/
theorem Below.addedPages_filed (h : Below seg) (hfits : seg.Fits) (zero : Page) (hp : Has seg p) :
    addedPages e c (seg.filePages zero) (PageFile.key e p) = some (seg.filed zero p) := by
  obtain ⟨hfirst, hoffset, hend, -, hlast, hremaining, hstop⟩ := h.layout hfits
  obtain ⟨-, htop⟩ := h.bounds
  have haligned := h.aligned hfits
  obtain ⟨halign, hge, hlt⟩ := id hp
  have hdown : roundDown seg.virtualAddress pageSize = seg.startFirst := rfl
  have hkey : ∀ va ∈ seg.fileAddresses, PageFile.key e va = PageFile.key e p ↔ va = p := fun va hva =>
    key_eq_iff (haligned va hva) ⟨halign, by omega⟩
  have hzero : ∀ va ∈ seg.zeroPages, va ∈ seg.fileAddresses := fun va hva => List.mem_append_right _ (List.mem_cons_of_mem _ hva)
  have hlastIn : seg.startLast ∈ seg.fileAddresses := List.mem_append_right _ (List.mem_cons_self ..)
  have hfull : ∀ j ∈ List.range seg.fullPages, seg.endFirst + j * pageSize ∈ seg.fileAddresses := fun j hj =>
    List.mem_append_left _ (List.mem_append_right _ (List.mem_map_of_mem hj))
  unfold filePages
  rw [addedPages_append, addedPages_cons]
  by_cases hbehind : seg.startRemaining ≤ p
  · rw [filed, if_pos hbehind]
    refine addedPages_of_mem (fun x hx _ => ?_) ⟨(p, zero), List.mem_map_of_mem ((h.mem_zeroPages hfits).mpr ⟨hbehind, hp⟩), rfl⟩
    obtain ⟨va, -, rfl⟩ := List.mem_map.mp hx
    rfl
  have hnotZero : ∀ x ∈ seg.zeroPages.map (·, zero), PageFile.key e x.1 ≠ PageFile.key e p := by
    intro x hx heq
    obtain ⟨va, hva, rfl⟩ := List.mem_map.mp hx
    obtain rfl := (hkey va (hzero va hva)).mp heq
    exact hbehind ((h.mem_zeroPages hfits).mp hva).1
  rw [filed, if_neg hbehind, addedPages_of_not_mem hnotZero]
  by_cases hend' : p = seg.startLast
  · rw [if_pos hend', hend', Function.update_self]
  rw [if_neg hend', Function.update_of_ne fun heq => hend' ((hkey _ hlastIn).mp heq.symm).symm, addedPages_append]
  by_cases hcut : p < seg.endFirst
  · have hoff : seg.offset ≠ 0 := by omega
    obtain rfl : p = seg.startFirst := by omega
    have hnotFull : ∀ x ∈ (List.range seg.fullPages).map (fun j => (seg.endFirst + j * pageSize, seg.fullPage j)),
        PageFile.key e x.1 ≠ PageFile.key e seg.startFirst := by
      intro x hx heq
      obtain ⟨j, hj, rfl⟩ := List.mem_map.mp hx
      have heq := (hkey _ (hfull j hj)).mp heq
      simp only [pageSize] at heq
      omega
    rw [addedPages_of_not_mem hnotFull, if_pos hoff, if_pos hcut]
    exact addedPages_of_mem (fun x hx _ => by rw [List.mem_singleton.mp hx]) ⟨_, List.mem_singleton_self _, rfl⟩
  · have hround : seg.endFirst + (p - seg.endFirst) / pageSize * pageSize = p := by
      simp only [pageSize]
      omega
    rw [if_neg hcut]
    refine addedPages_of_mem (fun x hx heq => ?_) ?_
    · obtain ⟨j, hj, rfl⟩ := List.mem_map.mp hx
      have heq : seg.endFirst + j * pageSize = p := (hkey _ (hfull j hj)).mp heq
      have hj : j = (p - seg.endFirst) / pageSize := by
        simp only [pageSize] at heq ⊢
        omega
      rw [← hj]
    · refine ⟨_, List.mem_map_of_mem (List.mem_range.mpr (?_ : (p - seg.endFirst) / pageSize < _)), congrArg _ hround⟩
      unfold fullPages
      simp only [pageSize] at hround ⊢
      omega

theorem filed_behind (seg : Segment) (hp : seg.startRemaining ≤ p) : seg.filed zero p = zero := if_pos hp

/-- The bytes that are written for a page with a part of the file. -/
theorem Below.filed_byte (h : Below seg) (hfits : seg.Fits) (zero : Page) (hp : Has seg p) (hbefore : p < seg.startRemaining)
    (k : Fin 4096) : seg.filed zero p k =
      if p + k.val < seg.virtualAddress then seg.front k.val
      else if p + k.val < seg.virtualAddress + seg.sizeInFile then
        seg.source ((if seg.Overwritten then pageSize else 0) + (p + k.val - seg.virtualAddress))
      else 0 := by
  obtain ⟨hfirst, hoffset, hend, hendLast, hlast, hremaining, -⟩ := h.layout hfits
  obtain ⟨halign, hge, -⟩ := hp
  have hdown : roundDown seg.virtualAddress pageSize = seg.startFirst := rfl
  have hk := k.isLt
  have hround : ∀ n, n % 4096 = 0 → (n - seg.endFirst) / pageSize * pageSize = n - seg.endFirst := by
    intro n hn
    simp only [pageSize]
    omega
  have hfull : seg.fullPages * pageSize = seg.startLast - seg.endFirst := hround _ (by omega)
  have hsize : pageSize = 4096 := rfl
  rw [filed, if_neg (by omega)]
  by_cases hover : seg.Overwritten
  · obtain ⟨hoff, hsmall⟩ := id hover
    have hafter : seg.afterFirst = pageSize - seg.offset := by
      unfold afterFirst
      rw [if_pos hoff]
      omega
    obtain rfl : p = seg.startLast := by omega
    rw [if_pos rfl, lastPage, hendLast, hafter, if_pos hover, front, if_pos hover]
    by_cases hin : seg.startLast + k.val < seg.virtualAddress + seg.sizeInFile
    · rw [if_pos hin, if_pos hin]
      split
      · exact congrArg seg.source (by omega)
      · exact congrArg seg.source (by omega)
    · rw [if_neg hin, if_neg hin, if_neg (by omega)]
  · have hafter : seg.afterFirst = seg.endFirst - seg.virtualAddress := by
      unfold afterFirst
      split <;> omega
    have hwhole : seg.offset = 0 ∨ seg.endFirst ≤ seg.startLast := by
      by_cases hoff : seg.offset = 0
      · exact .inl hoff
      · have hlarge : ¬ seg.offset + seg.sizeInFile < pageSize := fun hsmall => hover ⟨hoff, hsmall⟩
        exact .inr (by omega)
    rw [if_neg hover, front, if_neg hover, Nat.zero_add]
    by_cases hp : p = seg.startLast
    · have hbehind : ¬ p + k.val < seg.virtualAddress := by omega
      rw [if_pos hp, lastPage, hendLast, hafter, ← hp, if_neg hbehind]
      by_cases hin : p + k.val < seg.virtualAddress + seg.sizeInFile
      · rw [if_pos hin, if_pos hin]
        exact congrArg seg.source (by omega)
      · rw [if_neg hin, if_neg hin]
    have hin : p + k.val < seg.virtualAddress + seg.sizeInFile := by omega
    rw [if_neg hp, if_pos hin]
    by_cases hcut : p < seg.endFirst
    · rw [if_pos hcut, firstPage]
      obtain rfl : p = seg.startFirst := by omega
      by_cases hfront : k.val < seg.offset
      · rw [if_pos hfront, if_pos (by omega)]
      · rw [if_neg hfront, if_neg (by omega)]
        exact congrArg seg.source (by omega)
    · have hbehind : ¬ p + k.val < seg.virtualAddress := by omega
      rw [if_neg hcut, fullPage, hafter, if_neg hbehind, hround p halign]
      exact congrArg seg.source (by omega)

/-- The bytes of a page that is mapped. -/
theorem Below.copied_byte (h : Below seg) (hfits : seg.Fits) (p : Nat) (old : Page) (k : Fin 4096) : seg.copied p old k =
    if p + k.val < seg.virtualAddress then old k
    else if p + k.val < seg.virtualAddress + seg.sizeInFile then seg.source (p + k.val - seg.virtualAddress)
    else 0 := by
  obtain ⟨-, -, -, hendLast, -⟩ := h.layout hfits
  unfold Segment.endLast at hendLast
  unfold copied
  rw [hendLast]

/-! ### When it is loaded as it should be -/

/-- What the contents of the segment depend on, before it is loaded into `m` with the mapped pages `pages`. -/
structure LoadsRight (seg : Segment) (m : UserMem E) (pages : List Nat) : Prop where
  /-- The first page is not written a second time with other bytes. -/
  once : seg.Overwritten → ∀ j < seg.sizeInFile, seg.source (pageSize + j) = seg.source j
  /-- The frame that the first page gets has in front of the segment what the page file gets there. -/
  front : seg.offset ≠ 0 → pages ≠ [] → ∀ f, (m.run.paging.heap.mem.freeFrameList.head ()).first = some f →
    ∀ k : Fin 4096, k.val < seg.offset → m.data f k = seg.front k.val
  /-- The page at `ptr_zero_page` is clear where it is used. -/
  zeros : ∀ p ∈ seg.zeroPages, ∀ k : Fin 4096, p + k.val < seg.virtualAddress + seg.sizeInMemory ∨ p ∈ pages →
    m.disk.zeroPage k = 0

end Segment

namespace UserMem

variable {E : Type} {e : E} {seg : Segment} {m t : UserMem E} {pages : List Nat} {p : Nat}

/-- The page file has the bytes of the file at the addresses of the segment and zeros behind them, and the pages `pages` have the
    same contents in memory as in the page file. -/
structure HasSegment (t : UserMem E) (e : E) (seg : Segment) (pages : List Nat) : Prop where
  file : ∀ j < seg.sizeInMemory, (t.disk.pfReadEnvPage e (seg.virtualAddress + j)).map (· (pageOffset (seg.virtualAddress + j))) =
    some (if j < seg.sizeInFile then seg.source j else 0)
  memory : ∀ p ∈ pages, t.disk.pfReadEnvPage e p = some (t.data (t.run.paging.page e p).frame)

/-- The pages of the segment are in the page file and in memory as the loader writes them. -/
structure Wrote (m t : UserMem E) (e : E) (seg : Segment) (pages : List Nat) : Prop where
  read : ∀ p, seg.Has p → t.disk.pfReadEnvPage e p = some (seg.filed m.disk.zeroPage p)
  data : ∀ p ∈ pages, ∃ old, t.data (t.run.paging.page e p).frame = seg.copied p old ∧
    (p = seg.startFirst → ∃ f, (m.run.paging.heap.mem.freeFrameList.head ()).first = some f ∧ old = m.data f)

theorem pageOffset_val (va : Nat) : (pageOffset va).val = va % 4096 := rfl

theorem Wrote.byte (h : Wrote m t e seg pages) (hbelow : seg.Below) (hfits : seg.Fits) {j : Nat} (hj : j < seg.sizeInMemory) :
    seg.Has (roundDown (seg.virtualAddress + j) pageSize) ∧
      (t.disk.pfReadEnvPage e (seg.virtualAddress + j)).map (· (pageOffset (seg.virtualAddress + j))) =
        some (seg.filed m.disk.zeroPage (roundDown (seg.virtualAddress + j) pageSize) (pageOffset (seg.virtualAddress + j))) := by
  obtain ⟨-, -, -, -, -, -, hstop⟩ := hbelow.layout hfits
  have hhas : seg.Has (roundDown (seg.virtualAddress + j) pageSize) := by
    unfold Segment.Has
    rw [hstop]
    simp only [roundDown, pageSize]
    omega
  refine ⟨hhas, ?_⟩
  rw [← pfRead_samePage (Trap.Kernel.samePage_roundDown _), h.read _ hhas, Option.map_some]

/-! Each condition is needed. -/

theorem Wrote.once (h : Wrote m t e seg pages) (hbelow : seg.Below) (hfits : seg.Fits) (hseg : t.HasSegment e seg pages)
    (hover : seg.Overwritten) {j : Nat} (hj : j < seg.sizeInFile) : seg.source (pageSize + j) = seg.source j := by
  obtain ⟨hstart, hoffset, -, -, -, hremaining, -⟩ := hbelow.layout hfits
  obtain ⟨hoff, hsmall⟩ := id hover
  have hsize : pageSize = 4096 := rfl
  have hfit : seg.sizeInFile ≤ seg.sizeInMemory := hfits
  obtain ⟨hhas, hbyte⟩ := h.byte hbelow hfits (j := j) (by omega)
  rw [hseg.file j (by omega), if_pos hj] at hbyte
  have hpage : roundDown (seg.virtualAddress + j) pageSize = seg.startFirst := by
    simp only [roundDown, pageSize]
    omega
  rw [hpage] at hhas hbyte
  rw [hbelow.filed_byte hfits _ hhas (by omega), pageOffset_val, if_neg (by omega), if_pos (by omega), if_pos hover] at hbyte
  rw [Option.some.inj hbyte]
  exact congrArg seg.source (by omega)

theorem Wrote.front {f : PageNo} {k : Fin 4096} (h : Wrote m t e seg pages) (hbelow : seg.Below) (hfits : seg.Fits)
    (hseg : t.HasSegment e seg pages) (hhas : seg.Has seg.startFirst) (hin : seg.startFirst ∈ pages)
    (hf : (m.run.paging.heap.mem.freeFrameList.head ()).first = some f) (hk : k.val < seg.offset) : m.data f k = seg.front k.val := by
  obtain ⟨hstart, hoffset, -, -, -, hremaining, -⟩ := hbelow.layout hfits
  obtain ⟨old, hold, hframe⟩ := h.data _ hin
  obtain ⟨f', hf', rfl⟩ := hframe rfl
  obtain rfl : f = f' := Option.some.inj (hf.symm.trans hf')
  have hcontent := (h.read _ hhas).symm.trans (hseg.memory _ hin)
  rw [hold, Option.some.injEq] at hcontent
  have hbyte := congrFun hcontent k
  rw [hbelow.filed_byte hfits _ hhas (by omega), hbelow.copied_byte hfits, if_pos (by omega), if_pos (by omega)] at hbyte
  exact hbyte.symm

theorem Wrote.zeros {k : Fin 4096} (h : Wrote m t e seg pages) (hbelow : seg.Below) (hfits : seg.Fits)
    (hseg : t.HasSegment e seg pages) (hp : p ∈ seg.zeroPages)
    (hk : p + k.val < seg.virtualAddress + seg.sizeInMemory ∨ p ∈ pages) : m.disk.zeroPage k = 0 := by
  obtain ⟨hstart, -, -, -, -, hremaining, -⟩ := hbelow.layout hfits
  obtain ⟨hge, hhas⟩ := (hbelow.mem_zeroPages hfits).mp hp
  obtain ⟨halign, -, -⟩ := id hhas
  have hklt := k.isLt
  rcases hk with hk | hk
  · obtain ⟨-, hbyte⟩ := h.byte hbelow hfits (j := p + k.val - seg.virtualAddress) (by omega)
    have hsum : seg.virtualAddress + (p + k.val - seg.virtualAddress) = p + k.val := by omega
    have hpage : roundDown (p + k.val) pageSize = p := by
      simp only [roundDown, pageSize]
      omega
    have hoff : pageOffset (p + k.val) = k := Fin.ext (by rw [pageOffset_val]; omega)
    rw [hseg.file _ (by omega), if_neg (by omega), hsum, hpage, hoff, seg.filed_behind hge] at hbyte
    exact (Option.some.inj hbyte).symm
  · obtain ⟨old, hold, -⟩ := h.data p hk
    have hcontent := (h.read p hhas).symm.trans (hseg.memory p hk)
    rw [hold, Option.some.injEq, seg.filed_behind hge] at hcontent
    rw [hcontent, hbelow.copied_byte hfits, if_neg (by omega), if_neg (by omega)]

/-! Together they are enough. -/

theorem Wrote.file {j : Nat} (h : Wrote m t e seg pages) (hbelow : seg.Below) (hfits : seg.Fits) (hright : seg.LoadsRight m pages)
    (hj : j < seg.sizeInMemory) : (t.disk.pfReadEnvPage e (seg.virtualAddress + j)).map (· (pageOffset (seg.virtualAddress + j))) =
      some (if j < seg.sizeInFile then seg.source j else 0) := by
  obtain ⟨-, -, -, -, -, hremaining, -⟩ := hbelow.layout hfits
  obtain ⟨hhas, hbyte⟩ := h.byte hbelow hfits hj
  rw [hbyte, Option.some.injEq]
  generalize hp : roundDown (seg.virtualAddress + j) pageSize = p at hhas
  have hp : p + (seg.virtualAddress + j) % 4096 = seg.virtualAddress + j := by
    rw [← hp]
    simp only [roundDown, pageSize]
    omega
  by_cases hge : seg.startRemaining ≤ p
  · rw [seg.filed_behind hge, if_neg (by omega)]
    refine hright.zeros p ((hbelow.mem_zeroPages hfits).mpr ⟨hge, hhas⟩) _ (.inl ?_)
    rw [pageOffset_val]
    omega
  · rw [hbelow.filed_byte hfits _ hhas (by omega), pageOffset_val, hp, if_neg (by omega), Nat.add_sub_cancel_left]
    by_cases hj : j < seg.sizeInFile
    · rw [if_pos (by omega), if_pos hj]
      split
      case isTrue hover => exact hright.once hover j hj
      case isFalse => rw [Nat.zero_add]
    · rw [if_neg (by omega), if_neg hj]

theorem Wrote.memory (h : Wrote m t e seg pages) (hbelow : seg.Below) (hfits : seg.Fits) (hright : seg.LoadsRight m pages)
    (hhas : seg.Has p) (hp : p ∈ pages) : t.disk.pfReadEnvPage e p = some (t.data (t.run.paging.page e p).frame) := by
  obtain ⟨hstart, hoffset, -, -, -, hremaining, -⟩ := hbelow.layout hfits
  obtain ⟨halign, hfirst, -⟩ := id hhas
  have hdown : roundDown seg.virtualAddress pageSize = seg.startFirst := rfl
  obtain ⟨old, hold, hframe⟩ := h.data p hp
  rw [h.read p hhas, hold, Option.some.injEq]
  funext k
  have hklt := k.isLt
  rw [hbelow.copied_byte hfits]
  by_cases hge : seg.startRemaining ≤ p
  · rw [seg.filed_behind hge, if_neg (by omega), if_neg (by omega)]
    exact hright.zeros p ((hbelow.mem_zeroPages hfits).mpr ⟨hge, hhas⟩) k (.inr hp)
  rw [hbelow.filed_byte hfits _ hhas (by omega)]
  by_cases hk : p + k.val < seg.virtualAddress
  · rw [if_pos hk, if_pos hk]
    obtain rfl : p = seg.startFirst := by omega
    obtain ⟨f, hf, rfl⟩ := hframe rfl
    exact (hright.front (by omega) (List.ne_nil_of_mem hp) f hf k (by omega)).symm
  rw [if_neg hk, if_neg hk]
  by_cases hin : p + k.val < seg.virtualAddress + seg.sizeInFile
  · rw [if_pos hin, if_pos hin]
    split
    case isTrue hover => exact hright.once hover _ (by omega)
    case isFalse => rw [Nat.zero_add]
  · rw [if_neg hin, if_neg hin]

theorem Wrote.hasSegment_iff (h : Wrote m t e seg pages) (hbelow : seg.Below) (hfits : seg.Fits) (hpages : ∀ p ∈ pages, seg.Has p)
    (hfirst : pages ≠ [] → seg.startFirst ∈ pages) : t.HasSegment e seg pages ↔ seg.LoadsRight m pages := by
  constructor
  · intro hseg
    refine ⟨fun hover j hj => h.once hbelow hfits hseg hover hj, fun _ hne f hf k hk => ?_, fun p hp k hk =>
      h.zeros hbelow hfits hseg hp hk⟩
    exact h.front hbelow hfits hseg (hpages _ (hfirst hne)) (hfirst hne) hf hk
  · intro hright
    exact ⟨fun j hj => h.file hbelow hfits hright hj, fun p hp => h.memory hbelow hfits hright (hpages p hp) hp⟩

end UserMem

end Fos.Mem
