import Fos.Heap.UHeapInv

/-! The limits of the user heap, as the library and the kernel see them. The library hands out regions up to `USER_HEAP_MAX`,
    and `sys_allocate_user_mem` takes only those that end below it. The regions may overlap here: whatever a living process
    frees, what the heap records of each region keeps it below the limit. -/

namespace Fos.Heap
open Lib

/-- The range check of `sys_allocate_user_mem`: outside the range the process is terminated. -/
def inUserRange (virtualAddress size : Nat) : Prop :=
  ¬(virtualAddress = 0 ∨ userHeapMax ≤ virtualAddress ∨ virtualAddress < userHeapStart ∨
    userHeapMax ≤ u32 (virtualAddress + size) ∨ u32 (virtualAddress + size) < userHeapStart)

instance (va n : Nat) : Decidable (inUserRange va n) := inferInstanceAs (Decidable (¬_))

theorem inUserRange_iff {va n : Nat} (hlow : userHeapStart ≤ va) (hhigh : va + n ≤ userHeapMax) :
    inUserRange va n ↔ va + n ≠ userHeapMax := by
  unfold inUserRange
  simp only [userHeapStart, userHeapMax] at *
  rw [u32_of_lt (by omega)]
  omega

/-- A region of whole pages of the page allocator that ends below the limit. -/
structure Below (r : Region) : Prop where
  pos : 0 < r.size
  low : 2181042176 ≤ r.start
  high : r.stop < userHeapMax
  aligned : r.start % 4096 = 0 ∧ r.size % 4096 = 0

theorem Below.merge {r : Region} {F F' : List Region} (hr : Below r) (hF : ∀ x ∈ F, Below x) (h : Merge r F F') :
    ∀ x ∈ F', Below x := by
  have hjoin : ∀ {a b : Region}, Below a → Below b → a.stop = b.start → ∀ n, n = a.size + b.size → Below ⟨a.start, n⟩ := by
    intro a b ha hb hab n hn
    have hpos := ha.pos
    have hhigh := hb.high
    have haligned := ha.aligned
    have haligned' := hb.aligned
    simp only [Region.stop] at hab hhigh
    exact ⟨by dsimp only; omega, ha.low, by simp only [Region.stop]; omega, haligned.1, by dsimp only; omega⟩
  intro x hx
  cases h with
  | both b a G hperm hba hra hperm' =>
    have hb := hF b (hperm.mem_iff.mpr (by simp))
    have ha := hF a (hperm.mem_iff.mpr (by simp))
    rcases List.mem_cons.mp (hperm'.mem_iff.mp hx) with rfl | hx
    · have hra' := hjoin hr ha hra _ rfl
      exact hjoin (b := ⟨r.start, r.size + a.size⟩) hb hra' hba _ rfl
    · exact hF x (hperm.mem_iff.mpr (by simp [hx]))
  | before b G hperm hb hnone hperm' =>
    rcases List.mem_cons.mp (hperm'.mem_iff.mp hx) with rfl | hx
    · exact hjoin (hF b (hperm.mem_iff.mpr (by simp))) hr hb _ rfl
    · exact hF x (hperm.mem_iff.mpr (by simp [hx]))
  | after a G hperm ha hnone hperm' =>
    rcases List.mem_cons.mp (hperm'.mem_iff.mp hx) with rfl | hx
    · exact hjoin hr (hF a (hperm.mem_iff.mpr (by simp))) ha _ (Nat.add_comm ..)
    · exact hF x (hperm.mem_iff.mpr (by simp [hx]))
  | alone _ _ hperm' =>
    rcases List.mem_cons.mp (hperm'.mem_iff.mp hx) with rfl | hx
    · exact hr
    · exact hF x hx

namespace UHeap

variable {σ : Type} {h h' : UHeap σ} {L : BulkList → List Nat} {out : List Nat} {b n va : Nat}

/-- What the heap of a living process keeps, with the nodes `L` of its lists and the blocks `out` that are out. -/
structure Limited (h : UHeap σ) (L : BulkList → List Nat) (out : List Nat) : Prop where
  initialized : h.firstTimeFlag = false
  blocks : BlocksOut h.da out
  page_start : h.uheapPageAllocStart = 2181042176
  break_range : 2181042176 ≤ h.uheapPageAllocBreak ∧ h.uheapPageAllocBreak < userHeapMax ∧ h.uheapPageAllocBreak % 4096 = 0
  spells : h.bulks.Spells L
  nodes : ∀ b ∈ L .free, b < h.freeNodesIndex
  nodes_le : h.freeNodesIndex ≤ 2048
  unused : L .allocated = []
  free : ∀ r ∈ h.bulks.regions (L .free), Below r
  sizes : ∀ i, h.allocationSizes i ≠ 0 → Below ⟨userHeapStart + i * pageSize, h.allocationSizes i⟩

/-- No free region serves a request of `n` bytes: none has this size, and the first one, which is the largest, is not larger. -/
def NoFit (h : UHeap σ) (L : BulkList → List Nat) (n : Nat) : Prop :=
  (∀ b ∈ L .free, h.bulks.size b ≠ n) ∧ ∀ bb, h.bulks.first .free = some bb → h.bulks.size bb ≤ n

theorem Limited.below (hl : Limited h L out) (hb : b ∈ L .free) : Below ⟨h.bulks.start b, h.bulks.size b⟩ :=
  hl.free _ (List.mem_map_of_mem hb)

theorem Limited.length_lt (hl : Limited h L out) : (L .free).length < walkFuel := by
  have hsub : (L .free).Subperm (List.range 2048) :=
    (hl.spells.nodup .free).subperm fun x hx => List.mem_range.mpr (lt_of_lt_of_le (hl.nodes x hx) hl.nodes_le)
  have hle := hsub.length_le
  rw [List.length_range] at hle
  exact lt_of_le_of_lt hle (by decide)

/-- The address of an element of `allocation_sizes`. -/
theorem sizeIndex_address (hlow : 2181042176 ≤ va) (hhigh : va < userHeapMax) (ha : va % 4096 = 0) :
    userHeapStart + sizeIndex va * pageSize = va := by
  simp only [userHeapMax] at hhigh
  rw [sizeIndex_eq (by omega) (by omega)]
  simp only [userHeapStart, pageSize]
  omega

/-- Other free regions, another break, and a size recorded for `va`. -/
theorem Limited.place (hl : Limited h L out) {t : Bulks} {l : List Nat} {brk idx : Nat} (hsize : n ≠ 0 → Below ⟨va, n⟩)
    (hlow : 2181042176 ≤ va) (hhigh : va < userHeapMax) (ha : va % 4096 = 0) (hspells : t.Spells (Function.update L .free l))
    (hnodes : ∀ b ∈ l, b < idx) (hidx : idx ≤ 2048) (hfree : ∀ r ∈ t.regions l, Below r)
    (hbrk : 2181042176 ≤ brk ∧ brk < userHeapMax ∧ brk % 4096 = 0) :
    Limited { h.storeSize va n with bulks := t, uheapPageAllocBreak := brk, freeNodesIndex := idx } (Function.update L .free l) out := by
  refine ⟨hl.initialized, hl.blocks, hl.page_start, hbrk, hspells, ?_, hidx, ?_, ?_, fun i hne => ?_⟩
  · rw [Function.update_self]
    exact hnodes
  · rw [Function.update_of_ne (by decide)]
    exact hl.unused
  · rw [Function.update_self]
    exact hfree
  · show Below ⟨_, (h.storeSize va n).allocationSizes i⟩
    rcases eq_or_ne i (sizeIndex va) with rfl | hiv
    · simp only [storeSize, Function.update_self] at hne ⊢
      rw [sizeIndex_address hlow hhigh ha]
      exact hsize hne
    · simp only [storeSize, Function.update_of_ne hiv] at hne ⊢
      exact hl.sizes i hne

/-! ### `user_page_alloc_custom_fit` -/

/-- What becomes of a request of `n` bytes. -/
inductive Fit (h : UHeap σ) (L : BulkList → List Nat) (out : List Nat) (n : Nat) : UHeap σ × Nat → Prop
  | null : NoFit h L n → userHeapMax < h.uheapPageAllocBreak + n → Fit h L out n (h, 0)
  | free {h' : UHeap σ} {va : Nat} : ¬NoFit h L n → 2181042176 ≤ va → va % 4096 = 0 → va + n < userHeapMax →
      (∃ L', Limited h' L' out) → Fit h L out n (h', va)
  | raised {h' : UHeap σ} : NoFit h L n → h.uheapPageAllocBreak + n ≤ userHeapMax →
      (h.uheapPageAllocBreak + n < userHeapMax → ∃ L', Limited h' L' out) → Fit h L out n (h', h.uheapPageAllocBreak)

theorem Limited.extendBreak (hl : Limited h L out) (hn : n % 4096 = 0) (hno : NoFit h L n) : Fit h L out n (h.extendBreak n) := by
  obtain ⟨hge, hlt, hal⟩ := hl.break_range
  have hstart := hl.page_start
  have hmax : userHeapMax = 2684354560 := rfl
  unfold UHeap.extendBreak
  rw [if_neg (by omega), sub32_of_le hlt.le (by omega)]
  split
  case isTrue => exact .null hno (by omega)
  case isFalse =>
    have hwrap : u32 (h.uheapPageAllocBreak + n) = h.uheapPageAllocBreak + n := u32_of_lt (by omega)
    rw [hwrap, if_neg (by omega)]
    simp only [hwrap]
    refine .raised hno (by omega) fun hroom => ⟨_, hl.place (t := h.bulks) (l := L .free) (fun hne => ?_) hge hlt hal ?_ hl.nodes
      hl.nodes_le hl.free ⟨by omega, hroom, by omega⟩⟩
    · exact ⟨Nat.pos_of_ne_zero hne, hge, hroom, hal, hn⟩
    · rw [Function.update_eq_self]
      exact hl.spells

/-- Where a request of `n` bytes is placed: a free region of this size, the front of the largest one, or above the break. -/
inductive Placement (h : UHeap σ) (L : BulkList → List Nat) (n : Nat) : UHeap σ × Nat → Prop
  | whole {b : Nat} : b ∈ L .free → h.bulks.size b = n →
      Placement h L n ({ h with bulks := h.bulks.removeBulk b }.storeSize (h.bulks.start b) n, h.bulks.start b)
  | front {bb : Nat} {t : Bulks} : (∀ b ∈ L .free, h.bulks.size b ≠ n) → h.bulks.first .free = some bb → n < h.bulks.size bb →
      h.bulks.takeFront bb n = some t →
      Placement h L n ({ h with bulks := t }.storeSize (h.bulks.start bb) n, h.bulks.start bb)
  | above : NoFit h L n → Placement h L n (h.extendBreak n)

/-- The front of the first free region can be taken. -/
theorem Limited.takeFront (hl : Limited h L out) {bb : Nat} (hbb : bb ∈ L .free) (hlt : n < h.bulks.size bb) :
    ∃ t l, h.bulks.takeFront bb n = some t ∧ l.Perm (L .free) ∧ t.Spells (Function.update L .free l) ∧
      (t.regions l).Perm (⟨h.bulks.start bb + n, h.bulks.size bb - n⟩ :: h.bulks.regions ((L .free).erase bb)) := by
  have hhigh := (hl.below hbb).high
  have hmax : userHeapMax = 2684354560 := rfl
  simp only [Region.stop] at hhigh
  obtain ⟨t, l, ht, hperm, hspells, -, hregions, -⟩ := Bulks.takeFront_spec hl.spells hbb hl.length_lt hlt.le (by omega)
  exact ⟨t, l, ht, hperm, hspells, hregions⟩

theorem Limited.placement (hl : Limited h L out) (n : Nat) : ∃ r, h.userPageAllocCustomFit n = some r ∧ Placement h L n r := by
  obtain ⟨m, r, hL, hm, hstop, hwalk⟩ := walk_spelled (a := []) (fun b => h.bulks.size b = n) (hl.spells.spelled .free)
    hl.length_lt
  rw [← hl.spells.first .free] at hwalk
  unfold userPageAllocCustomFit
  rw [show walk h.bulks.next _ walkFuel none _ = _ from hwalk, Option.bind_some]
  cases hr : r.head? with
  | some b =>
    have hb : b ∈ L .free := by
      rw [hL]
      exact List.mem_append_right _ (List.mem_of_head? hr)
    exact ⟨_, rfl, .whole hb (by simpa using hstop b hr)⟩
  | none =>
    have hmiss : ∀ b ∈ L .free, h.bulks.size b ≠ n := by
      intro b hb
      rw [hL, List.head?_eq_none_iff.mp hr, List.append_nil] at hb
      simpa using hm b hb
    cases hf : h.bulks.first .free with
    | none => exact ⟨_, rfl, .above ⟨hmiss, fun bb hbb => nomatch hf.symm.trans hbb⟩⟩
    | some bb =>
      dsimp only
      split
      case isTrue hlt =>
        obtain ⟨t, l, ht, -⟩ := hl.takeFront (hl.spells.mem_of_first hf) hlt
        rw [ht, Option.map_some]
        exact ⟨_, rfl, .front hmiss hf hlt ht⟩
      case isFalse hle =>
        refine ⟨_, rfl, .above ⟨hmiss, fun b hb => ?_⟩⟩
        cases hf.symm.trans hb
        omega

theorem Limited.customFit (hl : Limited h L out) (hn : n % 4096 = 0) :
    ∃ r, h.userPageAllocCustomFit n = some r ∧ Fit h L out n r := by
  obtain ⟨r, hr, hplace⟩ := hl.placement n
  refine ⟨r, hr, ?_⟩
  have hmax : userHeapMax = 2684354560 := rfl
  cases hplace with
  | @whole b hb hsize =>
    have hbelow := hl.below hb
    have hlt : h.bulks.start b < userHeapMax := lt_of_le_of_lt (Nat.le_add_right ..) hbelow.high
    have hregions : (h.bulks.removeBulk b).regions ((L .free).erase b) = h.bulks.regions ((L .free).erase b) :=
      Bulks.regions_congr fun x _ => by simp [Bulks.removeBulk_fields]
    refine .free (fun hno => hno.1 b hb hsize) hbelow.low hbelow.aligned.1 (hsize ▸ hbelow.high)
      ⟨_, hl.place (fun _ => hsize ▸ hbelow) hbelow.low hlt hbelow.aligned.1 (Bulks.removeBulk_spells hl.spells hb)
        (fun x hx => hl.nodes x (List.mem_of_mem_erase hx)) hl.nodes_le (fun x hx => ?_) hl.break_range⟩
    rw [hregions] at hx
    exact hl.free x ((List.erase_sublist.map _).subset hx)
  | @front bb t _ hf hlt ht =>
    have hbb : bb ∈ L .free := hl.spells.mem_of_first hf
    have hbelow := hl.below hbb
    have hhigh := hbelow.high
    simp only [Region.stop] at hhigh
    obtain ⟨t', l, ht', hperm, hspells, hregions⟩ := hl.takeFront hbb hlt
    cases ht.symm.trans ht'
    have hlow := hbelow.low
    have haligned := hbelow.aligned
    dsimp only at hlow haligned
    refine .free (fun hno => absurd (hno.2 bb hf) (by omega)) hlow haligned.1 (by omega)
      ⟨_, hl.place (fun hne => ⟨Nat.pos_of_ne_zero hne, hlow, by simp only [Region.stop]; omega, haligned.1, hn⟩) hlow
        (by omega) haligned.1 hspells (fun x hx => hl.nodes x (hperm.mem_iff.mp hx)) hl.nodes_le (fun x hx => ?_)
        hl.break_range⟩
    rcases List.mem_cons.mp (hregions.mem_iff.mp hx) with rfl | hx
    · exact ⟨by dsimp only; omega, by dsimp only; omega, by simp only [Region.stop]; omega, by dsimp only; omega, by dsimp only; omega⟩
    · exact hl.free x ((List.erase_sublist.map _).subset hx)
  | above hno => exact hl.extendBreak hn hno

/-! ### `free` -/

theorem Limited.scanBreak (hl : Limited h L out) (k : Nat) :
    2181042176 ≤ h.scanBreak k ∧ h.scanBreak k < userHeapMax ∧ h.scanBreak k % 4096 = 0 := by
  induction k with
  | zero =>
    show 2181042176 ≤ h.uheapPageAllocStart ∧ h.uheapPageAllocStart < userHeapMax ∧ h.uheapPageAllocStart % 4096 = 0
    rw [hl.page_start]
    exact ⟨Nat.le_refl _, by decide, rfl⟩
  | succ i ih =>
    unfold UHeap.scanBreak
    split
    case isTrue hne =>
      have hbelow := hl.sizes i hne
      have hlow := hbelow.low
      have hhigh := hbelow.high
      have haligned := hbelow.aligned
      have hmax : userHeapMax = 2684354560 := rfl
      simp only [Region.stop] at hlow hhigh haligned
      rw [u32_of_lt (by omega)]
      exact ⟨by omega, hhigh, by omega⟩
    case isFalse => exact ih

/-- No free region adjoins the region of `n` bytes at `va`. -/
def Isolated (h : UHeap σ) (L : BulkList → List Nat) (va n : Nat) : Prop :=
  ∀ x ∈ L .free, h.bulks.start x + h.bulks.size x ≠ va ∧ h.bulks.start x ≠ va + n

/-- The loop of `merge_bulks` finds a free region on either side. -/
def between (h : UHeap σ) (va n : Nat) : Bool := (h.bulks.findNeighbours va n).any fun p => p.1.isSome && p.2.isSome

/-- What becomes of the region of `n` bytes at `va`: no node is left for it, or it is free. Between two free regions one node
    leaves the list and is not used again. -/
inductive Merged (h : UHeap σ) (L : BulkList → List Nat) (out : List Nat) (va n : Nat) : Option (UHeap σ) → Prop
  | full : Isolated h L va n → 2048 ≤ h.freeNodesIndex → Merged h L out va n none
  | done {h' : UHeap σ} {L' : BulkList → List Nat} : Limited h' L' out → (Isolated h L va n → h.freeNodesIndex < 2048) →
      h'.freeNodesIndex + (L .free).length = h.freeNodesIndex + (L' .free).length + (h.between va n).toNat →
      Merged h L out va n (some h')

theorem Limited.mergeBulks (hl : Limited h L out) (hbelow : Below ⟨va, n⟩) :
    Merged h L out va n ((h.storeSize va 0).mergeBulks va n) := by
  have hlen := hl.length_lt
  have hmax : userHeapMax = 2684354560 := rfl
  have hlow := hbelow.low
  have hhigh := hbelow.high
  have hpos := hbelow.pos
  simp only [Region.stop] at hlow hhigh hpos
  have hplace : ∀ {t : Bulks} {l : List Nat} {idx : Nat}, t.Spells (Function.update L .free l) → (∀ b ∈ l, b < idx) → idx ≤ 2048 →
      Merge ⟨va, n⟩ (h.bulks.regions (L .free)) (t.regions l) →
      Limited { h.storeSize va 0 with bulks := t, freeNodesIndex := idx } (Function.update L .free l) out :=
    fun hspells hnodes hidx hmerge => hl.place (fun hne => absurd rfl hne) hlow (by omega) hbelow.aligned.1 hspells hnodes hidx
      (hbelow.merge hl.free hmerge) hl.break_range
  obtain ⟨before, after, hfind, hb, hnb, haf, hna⟩ := Bulks.findNeighbours_spec hl.spells hlen va n
  have hend : ∀ x ∈ L .free, h.bulks.start x + h.bulks.size x < userHeapMax := fun x hx => (hl.below hx).high
  have hwrap : ∀ x ∈ L .free, u32 (h.bulks.start x + h.bulks.size x) = h.bulks.start x + h.bulks.size x := fun x hx => by
    have := hend x hx
    exact u32_of_lt (by omega)
  rw [u32_of_lt (by omega)] at haf hna
  have hbetween : h.between va n = (before.isSome && after.isSome) := by
    unfold between
    rw [hfind]
    rfl
  unfold UHeap.mergeBulks
  rw [show (h.storeSize va 0).bulks = h.bulks from rfl, hfind, Option.bind_some]
  cases before with
  | some b =>
    obtain ⟨hb, hbstop⟩ := hb b rfl
    rw [hwrap b hb] at hbstop
    have hnot : ¬Isolated h L va n := fun hall => (hall b hb).1 hbstop
    cases after with
    | some x =>
      obtain ⟨hx, hxstart⟩ := haf x rfl
      have hxend := hend x hx
      have hbpos := (hl.below hb).pos
      dsimp only at hbpos
      have hxb : x ≠ b := by
        rintro rfl
        omega
      obtain ⟨t, l, ht, hperm, hspells, -, hmerge, -⟩ :=
        Bulks.mergeBoth_spec (r := ⟨va, n⟩) hl.spells hb hx hxb hlen hbstop hxstart (by omega)
      have hcount : l.length + 1 = (L .free).length := by
        rw [hperm.length_eq, List.length_erase_of_mem hx]
        have := List.length_pos_of_mem hx
        omega
      dsimp only at ht ⊢
      rw [ht]
      refine .done (hplace hspells (fun y hy => hl.nodes y (List.mem_of_mem_erase (hperm.mem_iff.mp hy))) hl.nodes_le hmerge)
        (fun hall => absurd hall hnot) ?_
      rw [hbetween, Function.update_self]
      show h.freeNodesIndex + _ = h.freeNodesIndex + l.length + 1
      omega
    | none =>
      obtain ⟨t, l, ht, hperm, hspells, -, hmerge, -⟩ :=
        Bulks.mergeBefore_spec (r := ⟨va, n⟩) hl.spells hb hlen hbstop (by simp only [Region.stop]; omega) (hna rfl)
      dsimp only at ht ⊢
      rw [ht]
      refine .done (hplace hspells (fun y hy => hl.nodes y (hperm.mem_iff.mp hy)) hl.nodes_le hmerge)
        (fun hall => absurd hall hnot) ?_
      rw [hbetween, Function.update_self, hperm.length_eq]
      rfl
  | none =>
    have hnb' : ∀ x ∈ L .free, h.bulks.start x + h.bulks.size x ≠ va := fun x hx => hwrap x hx ▸ hnb rfl x hx
    cases after with
    | some x =>
      obtain ⟨hx, hxstart⟩ := haf x rfl
      have hxend := hend x hx
      obtain ⟨t, l, ht, hperm, hspells, -, hmerge, -⟩ :=
        Bulks.mergeAfter_spec (r := ⟨va, n⟩) hl.spells hx hlen hxstart (by omega) hnb'
      dsimp only at ht ⊢
      rw [ht]
      refine .done (hplace hspells (fun y hy => hl.nodes y (hperm.mem_iff.mp hy)) hl.nodes_le hmerge)
        (fun hall => absurd hxstart (hall x hx).2) ?_
      rw [hbetween, Function.update_self, hperm.length_eq]
      rfl
    | none =>
      have hall : Isolated h L va n := fun x hx => ⟨hnb' x hx, hna rfl x hx⟩
      dsimp only
      split
      case isTrue hfull => exact .full hall hfull
      case isFalse hroom =>
        have hidx : h.freeNodesIndex < 2048 := Nat.not_le.mp hroom
        have hnew : ∀ j, h.freeNodesIndex ∉ L j := by
          intro j hj
          cases j with
          | free => exact absurd (hl.nodes _ hj) (Nat.lt_irrefl _)
          | allocated => simp [hl.unused] at hj
        obtain ⟨t, l, ht, hperm, hspells, -, hmerge, -⟩ :=
          Bulks.addBulk_spec (r := ⟨va, n⟩) hl.spells hnew hlen hnb' (hna rfl)
        have ht : h.bulks.addBulk (h.storeSize va 0).freeNodesIndex va n = some t := ht
        rw [ht]
        refine .done (hplace hspells (fun y hy => ?_) hidx hmerge) (fun _ => hidx) ?_
        · rcases List.mem_cons.mp (hperm.mem_iff.mp hy) with rfl | hy
          · exact Nat.lt_succ_self _
          · exact Nat.lt_succ_of_lt (hl.nodes y hy)
        · rw [hbetween, Function.update_self, hperm.length_eq]
          show h.freeNodesIndex + 1 + _ = h.freeNodesIndex + ((L .free).length + 1) + 0
          omega

variable {ops : PageOps σ}

/-- `free` of an address of the page allocator. -/
theorem Limited.free_page_eq (hl : Limited h L out) (hlow : 2181042176 ≤ va) (hhigh : va < userHeapMax) :
    h.free ops va = if h.allocationSizes (sizeIndex va) = 0 then some h
      else ((h.storeSize va 0).mergeBulks va (h.allocationSizes (sizeIndex va))).map fun h =>
        { h with uheapPageAllocBreak := h.scanBreak (sizeIndex h.uheapPageAllocBreak) } := by
  have hmin : userHeapStart = 2147483648 := rfl
  have hstart := hl.page_start
  unfold UHeap.free
  rw [if_neg (by omega), if_neg (by omega)]

/-- The break is lowered. -/
theorem Limited.lower (hl : Limited h L out) (k : Nat) : Limited { h with uheapPageAllocBreak := h.scanBreak k } L out :=
  ⟨hl.initialized, hl.blocks, hl.page_start, hl.scanBreak k, hl.spells, hl.nodes, hl.nodes_le, hl.unused, hl.free, hl.sizes⟩

theorem Limited.free_pages (hl : Limited h L out) (hlow : 2181042176 ≤ va) (hhigh : va < userHeapMax) (ha : va % 4096 = 0)
    (hs : h.free ops va = some h') : ∃ L', Limited h' L' out := by
  rw [hl.free_page_eq hlow hhigh] at hs
  split at hs
  case isTrue =>
    cases hs
    exact ⟨L, hl⟩
  case isFalse hne =>
    obtain ⟨h₁, hm, rfl⟩ := Option.map_eq_some_iff.mp hs
    have hbelow := hl.sizes _ hne
    rw [sizeIndex_address hlow hhigh ha] at hbelow
    cases hm ▸ hl.mergeBulks hbelow with
    | done hl' => exact ⟨_, hl'.lower _⟩

theorem Limited.with_blocks (hl : Limited h L out) {w : σ} {d : DynAlloc} {out' : List Nat} (hd : BlocksOut d out') :
    Limited { h with world := w, da := d } L out' :=
  ⟨hl.initialized, hd, hl.page_start, hl.break_range, hl.spells, hl.nodes, hl.nodes_le, hl.unused, hl.free, hl.sizes⟩

theorem Limited.free_block (hops : ops.Local) (hl : Limited h L out) (ha : va ∈ out) (hs : h.free ops va = some h') :
    Limited h' L (out.erase va) := by
  have hbounds := hl.blocks.bounds ha
  have hmax : userHeapMax = 2684354560 := rfl
  have hmin : userHeapStart = 2147483648 := rfl
  have hstart := hl.page_start
  unfold UHeap.free at hs
  rw [if_neg (by omega), if_pos (by omega)] at hs
  obtain ⟨⟨w, d⟩, hfree, rfl⟩ := Option.map_eq_some_iff.mp hs
  exact hl.with_blocks (hl.blocks.free hops ha hfree)

theorem Limited.uheapInit (hl : Limited h L out) : h.uheapInit = some h := by
  rw [UHeap.uheapInit, if_neg (by simp [hl.initialized])]

/-- The heap after the first call. -/
theorem Inv.limited (hi : Inv h (fun _ => []) [] []) (hbrk : h.uheapPageAllocBreak < userHeapMax) :
    Limited h (fun _ => []) [] :=
  ⟨hi.initialized, hi.blocksOut, hi.page_start, ⟨hi.break_ge, hbrk, hi.break_aligned⟩, hi.spells, nofun, hi.nodes_le, rfl, nofun,
    fun i hne => by obtain ⟨a, ha, -⟩ := hi.sizes i hne; exact nomatch ha⟩

/-- A request of `n` bytes is served: one that fits above the break gets a region, and the kernel takes every region that
    is handed out. -/
def Served (h : UHeap σ) (n : Nat) : Prop :=
  ∃ h' va, h.userPageAllocCustomFit n = some (h', va) ∧ (h.uheapPageAllocBreak + n ≤ userHeapMax → va ≠ 0) ∧
    (va ≠ 0 → inUserRange va n)

theorem Limited.served_iff (hl : Limited h L out) (hn : n % 4096 = 0) :
    Served h n ↔ ¬(NoFit h L n ∧ h.uheapPageAllocBreak + n = userHeapMax) := by
  obtain ⟨⟨h', va⟩, hs, hfit⟩ := hl.customFit hn
  have hmax : userHeapMax = 2684354560 := rfl
  have hmin : userHeapStart = 2147483648 := rfl
  have hresult : Served h n ↔ (h.uheapPageAllocBreak + n ≤ userHeapMax → va ≠ 0) ∧ (va ≠ 0 → inUserRange va n) := by
    constructor
    · rintro ⟨h₁, va₁, hs₁, hserved⟩
      cases hs.symm.trans hs₁
      exact hserved
    · exact fun hserved => ⟨h', va, hs, hserved⟩
  rw [hresult]
  cases hfit with
  | null hno hfull => exact ⟨fun _ hend => by omega, fun _ => ⟨fun hle => by omega, fun hne => absurd rfl hne⟩⟩
  | free hfits hlow ha hroom _ =>
    refine ⟨fun _ hend => hfits hend.1, fun _ => ⟨fun _ => by omega, fun _ => ?_⟩⟩
    exact (inUserRange_iff (by omega) hroom.le).mpr hroom.ne
  | raised hno hle _ =>
    have hge := hl.break_range.1
    rw [inUserRange_iff (by omega) hle]
    exact ⟨fun hserved hend => hserved.2 (by omega) hend.2, fun hne => ⟨fun _ => by omega, fun _ heq => hne ⟨hno, heq⟩⟩⟩

end UHeap

/-! ### Runs of a living process -/

namespace UProcess

variable {σ : Type} {s t : UProcess σ} {ops : PageOps σ} {h h' : UHeap σ}

/-- The kernel does not terminate the process: it takes the region that is handed out. -/
def Survives (s : UProcess σ) (e : UHeapEvent) : Prop :=
  ∀ n h h' va, pageRequest e = some n → s.heap.uheapInit = some h → h.userPageAllocCustomFit n = some (h', va) → va ≠ 0 →
    inUserRange va n

theorem survives_of_fit {e : UHeapEvent} {n va : Nat} (hrange : inUserRange va n) (hreq : pageRequest e = some n)
    (hinit : s.heap.uheapInit = some h) (hfit : (h.userPageAllocCustomFit n).map Prod.snd = some va) : Survives s e := by
  intro n' h₁ h₂ va₁ hn hinit₁ hfit₁ _
  cases hreq.symm.trans hn
  cases hinit.symm.trans hinit₁
  cases hfit.symm.trans (congrArg (Option.map Prod.snd) hfit₁)
  exact hrange

/-- The heap is within its limits, and the live pointers of the page allocator are addresses of pages. -/
def Limited (s : UProcess σ) : Prop :=
  ∃ L, s.heap.Limited L (s.live.filter (· < 2181042176)) ∧ ∀ a ∈ s.live, 2181042176 ≤ a → a < userHeapMax ∧ a % 4096 = 0

theorem Limited.keep_fit {n va kept : Nat} (hl : Limited ⟨h, s.live⟩) (hn : n % 4096 = 0)
    (hs : h.userPageAllocCustomFit n = some (h', va)) (halive : va ≠ 0 → inUserRange va n) (hkept : kept = va ∨ kept = 0) :
    Limited (s.keep (h', kept)) := by
  obtain ⟨L, hheap, hlive⟩ := hl
  obtain ⟨r, hr, hfit⟩ := hheap.customFit hn
  cases hs.symm.trans hr
  have hmax : userHeapMax = 2684354560 := rfl
  have hmin : userHeapStart = 2147483648 := rfl
  have hplaced : ∀ (hlow : 2181042176 ≤ va) (hhigh : va < userHeapMax) (ha : va % 4096 = 0),
      (∃ L', h'.Limited L' (s.live.filter (· < 2181042176))) → Limited (s.keep (h', kept)) := by
    rintro hlow hhigh ha ⟨L', hheap'⟩
    rcases hkept with rfl | rfl
    · have hne : kept ≠ 0 := by omega
      have hnot : ¬kept < 2181042176 := Nat.not_lt.mpr hlow
      unfold keep
      refine ⟨L', by simpa [hne, hnot] using hheap', ?_⟩
      simp only [hne, if_false]
      intro a ha' hle
      rcases List.mem_cons.mp ha' with rfl | ha'
      · exact ⟨hhigh, ha⟩
      · exact hlive a ha' hle
    · exact ⟨L', by simpa [keep] using hheap', by simpa [keep] using hlive⟩
  cases hfit with
  | null =>
    have hzero : kept = 0 := by rcases hkept with rfl | rfl <;> rfl
    exact ⟨L, by simpa [keep, hzero] using hheap, by simpa [keep, hzero] using hlive⟩
  | free hfits hlow ha hroom hheap' => exact hplaced hlow (by omega) ha hheap'
  | raised hno hle hheap' =>
    obtain ⟨hge, hlt, ha⟩ := hheap.break_range
    have hne := (inUserRange_iff (by omega) hle).mp (halive (by omega))
    exact hplaced hge hlt ha (hheap' (by omega))

theorem Limited.keep_block {size va : Nat} {w : σ} {d : DynAlloc} (hops : ops.Local) (hl : Limited ⟨h, s.live⟩) (hpos : 0 < size)
    (halloc : DynAlloc.allocBlock ops h.world h.da size = some (w, d, va)) :
    Limited (s.keep ({ h with world := w, da := d }, va)) := by
  obtain ⟨L, hheap, hlive⟩ := hl
  have hd := hheap.blocks.alloc hops hpos halloc
  obtain ⟨hlow, hhigh⟩ := hd.bounds (List.mem_cons_self ..)
  have hva : va ≠ 0 := by omega
  unfold keep
  refine ⟨L, by simpa [hva, hhigh] using hheap.with_blocks (w := w) hd, ?_⟩
  simp only [hva, if_false]
  intro a ha hle
  rcases List.mem_cons.mp ha with rfl | ha
  · omega
  · exact hlive a ha hle

theorem Limited.call {e : UHeapEvent} (hops : ops.Local) (hl : Limited ⟨h, s.live⟩) (hinit : s.heap.uheapInit = some h)
    (halive : Survives s e) (hcall : ∀ va, e ≠ .free va) (hs : s.step ops e = some t) : Limited t := by
  cases step_called hinit hcall hs with
  | null => simpa [keep] using hl
  | block _ hpos halloc => exact hl.keep_block hops hpos halloc
  | pages hreq hfit hkept => exact hl.keep_fit (pageRequest_aligned hreq) hfit (halive _ h _ _ hreq hinit hfit) hkept

theorem Limited.free {va : Nat} (hops : ops.Local) (hl : Limited s) (hva : va ∈ s.live) (hs : s.heap.free ops va = some h') :
    Limited ⟨h', s.live.erase va⟩ := by
  obtain ⟨L, hheap, hlive⟩ := hl
  have hlive' : ∀ a ∈ s.live.erase va, 2181042176 ≤ a → a < userHeapMax ∧ a % 4096 = 0 := fun a ha =>
    hlive a (List.mem_of_mem_erase ha)
  rcases Nat.lt_or_ge va 2181042176 with hblock | hpage
  · refine ⟨L, ?_, hlive'⟩
    show h'.Limited L ((s.live.erase va).filter _)
    rw [← List.erase_filter]
    exact hheap.free_block hops (List.mem_filter.mpr ⟨hva, decide_eq_true hblock⟩) hs
  · obtain ⟨hhigh, ha⟩ := hlive va hva hpage
    obtain ⟨L', hheap'⟩ := hheap.free_pages hpage hhigh ha hs
    refine ⟨L', ?_, hlive'⟩
    show h'.Limited L' ((s.live.erase va).filter _)
    rw [← List.erase_filter, List.erase_of_not_mem]
    · exact hheap'
    · exact fun hmem => absurd (of_decide_eq_true (List.mem_filter.mp hmem).2) (Nat.not_lt.mpr hpage)

theorem Limited.step {e : UHeapEvent} (hops : ops.Local) (hl : Limited s) (halive : Survives s e) (hs : s.step ops e = some t) :
    Limited t := by
  cases e with
  | free va =>
    obtain ⟨hva, hs⟩ := Option.ite_none_right_eq_some.mp hs
    obtain ⟨h', hfree, rfl⟩ := Option.map_eq_some_iff.mp hs
    exact hl.free hops hva hfree
  | _ =>
    obtain ⟨L, hheap, -⟩ := id hl
    exact hl.call hops hheap.uheapInit halive nofun hs

theorem Limited.initial (w : σ) : Limited ⟨initialHeap w, []⟩ :=
  ⟨_, (UHeap.uheapInit_inv (uheapInit_eq w)).limited (by decide : (2181042176 : Nat) < userHeapMax), nofun⟩

/-- The heap of a process that has made no call yet, or that keeps the limits. -/
def LimitedOrNew (w : σ) (s : UProcess σ) : Prop := s = ⟨{ world := w }, []⟩ ∨ Limited s

theorem LimitedOrNew.step {w : σ} {e : UHeapEvent} (hops : ops.Local) (hl : LimitedOrNew w s) (halive : Survives s e)
    (hs : s.step ops e = some t) : LimitedOrNew w t := by
  rcases hl with rfl | hl
  · cases e with
    | free va => simp [UProcess.step] at hs
    | _ => exact .inr ((Limited.initial w).call hops (uheapInit_eq w) halive (fun _ h => by cases h) hs)
  · exact .inr (hl.step hops halive hs)

/-- In every state of a living process a request of the page allocator is served, unless no free region has room for it and it
    ends exactly at `USER_HEAP_MAX` when the break is raised. -/
theorem uheap_limits (hops : ops.Local) {w : σ} (hr : Reach (step ops) Survives ⟨{ world := w }, []⟩ s) :
    ∃ h L, s.heap.uheapInit = some h ∧ h.bulks.Spells L ∧
      ∀ n, n % 4096 = 0 → (h.Served n ↔ ¬(h.NoFit L n ∧ h.uheapPageAllocBreak + n = userHeapMax)) := by
  have hl : LimitedOrNew w s := hr.invariant (I := LimitedOrNew w) (.inl rfl) fun _ _ _ h hok hs => h.step hops hok hs
  rcases hl with rfl | ⟨L, hheap, -⟩
  · obtain ⟨L, hheap, -⟩ := Limited.initial w
    exact ⟨_, L, uheapInit_eq w, hheap.spells, fun n hn => hheap.served_iff hn⟩
  · exact ⟨_, L, hheap.uheapInit, hheap.spells, fun n hn => hheap.served_iff hn⟩

/-- After one allocation a page more is served. -/
theorem uheap_limits_page : ∃ (s : UProcess Unit) (h : UHeap Unit), Reach (step BlockClient.residentPages) Survives ⟨{ world := () }, []⟩ s ∧
    s.live = [2181042176] ∧ s.heap.uheapInit = some h ∧ h.Served 4096 := by
  obtain ⟨s, hs, hlive, hbrk, hflag⟩ : ∃ s, step BlockClient.residentPages ⟨initialHeap (), []⟩ (.malloc 8192) = some s ∧
      s.live = [2181042176] ∧ s.heap.uheapPageAllocBreak = 2181050368 ∧ s.heap.firstTimeFlag = false := ⟨_, rfl, rfl, rfl, rfl⟩
  have halive : Survives ⟨{ world := () }, []⟩ (.malloc 8192) :=
    survives_of_fit (by decide : inUserRange 2181042176 8192) rfl (uheapInit_eq ()) rfl
  have hr : Reach (step BlockClient.residentPages) Survives ⟨{ world := () }, []⟩ s :=
    .step (.malloc 8192) .init halive ((malloc_first _ () 8192).trans hs)
  obtain ⟨h, L, hinit, -, hserved⟩ := uheap_limits BlockClient.residentPages_local hr
  have heq : h = s.heap := by
    rw [UHeap.uheapInit, if_neg (by simp [hflag])] at hinit
    exact (Option.some.inj hinit).symm
  refine ⟨s, h, hr, hlive, hinit, (hserved 4096 rfl).mpr fun hend => ?_⟩
  have hbreak := hend.2
  rw [heq, hbrk] at hbreak
  exact absurd hbreak (by decide)

/-- The whole part of the heap above the break is asked for: the library hands it out, and the kernel does not take it. -/
theorem uheap_limits_end : ∃ h : UHeap Unit, UHeap.uheapInit { world := () } = some h ∧
    h.uheapPageAllocBreak + 503312384 = userHeapMax ∧
    (h.userPageAllocCustomFit 503312384).map Prod.snd = some 2181042176 ∧ ¬ inUserRange 2181042176 503312384 ∧
    ¬ Survives ⟨{ world := () }, []⟩ (.malloc 503312384) ∧ ¬ h.Served 503312384 := by
  have hva : (UHeap.userPageAllocCustomFit (initialHeap ()) 503312384).map Prod.snd = some 2181042176 := by decide +kernel
  obtain ⟨⟨h', va⟩, hfit, rfl⟩ := Option.map_eq_some_iff.mp hva
  have hrefused : ¬ inUserRange 2181042176 503312384 := by decide
  refine ⟨initialHeap (), uheapInit_eq (), by decide, hva, hrefused, fun halive => ?_, fun hserved => ?_⟩
  · exact hrefused (halive _ _ _ _ rfl (uheapInit_eq ()) hfit (by decide))
  · obtain ⟨h₁, va, hs, -, htaken⟩ := hserved
    cases hfit.symm.trans hs
    exact hrefused (htaken (by decide))

end UProcess

end Fos.Heap
