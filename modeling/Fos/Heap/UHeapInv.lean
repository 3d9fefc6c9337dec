import Fos.Heap.UHeap
import Fos.Heap.DynAllocRun

/-! The regions of the user heap do not overlap, as long as the region that ends at the break is not freed: the
    free regions and the allocated ones then tile the part of the heap below the break. -/

namespace Fos.Heap
open Lib

variable {σ : Type}

/-! ### The block allocator of the user heap -/

/-- The block allocator works in its part of the user heap and has handed out the blocks `out`. -/
structure BlocksOut (d : DynAlloc) (out : List Nat) : Prop where
  inv : ∃ cls free freePages, d.Inv cls free freePages out
  dyn_start : d.dynAllocStart = userHeapStart
  dyn_end : d.dynAllocEnd = 2181038080

theorem BlocksOut.bounds {d : DynAlloc} {out : List Nat} {a : Nat} (h : BlocksOut d out) (ha : a ∈ out) :
    2147483648 ≤ a ∧ a < 2181042176 := by
  obtain ⟨cls, free, freePages, hinv⟩ := h.inv
  obtain ⟨c, hcls, hslot⟩ := hinv.tiled.cls_of_handed ha
  have hbounds := hinv.toRep.slot_bounds hcls hslot
  have hsize := (blockSize_le c).1
  rw [h.dyn_start, h.dyn_end, userHeapStart] at hbounds
  exact ⟨hbounds.1, by omega⟩

theorem BlocksOut.free {ops : PageOps σ} {w w' : σ} {d d' : DynAlloc} {out : List Nat} {a : Nat} (hops : ops.Local)
    (h : BlocksOut d out) (ha : a ∈ out) (hs : DynAlloc.freeBlock ops w d a = some (w', d')) : BlocksOut d' (out.erase a) := by
  obtain ⟨cls, free, freePages, hinv⟩ := h.inv
  have hdone := hinv.freeBlock hops ha hs
  obtain ⟨cls', free', freePages', hinv', -⟩ := hdone.inv
  exact ⟨⟨cls', free', freePages', hinv'⟩, hdone.start_eq.trans h.dyn_start, hdone.end_eq.trans h.dyn_end⟩

theorem BlocksOut.alloc {ops : PageOps σ} {w w' : σ} {d d' : DynAlloc} {out : List Nat} {n va : Nat} (hops : ops.Local)
    (h : BlocksOut d out) (hpos : 0 < n) (hs : DynAlloc.allocBlock ops w d n = some (w', d', va)) : BlocksOut d' (va :: out) := by
  obtain ⟨cls, free, freePages, hinv⟩ := h.inv
  have hdone := hinv.allocBlock hops hpos hs
  obtain ⟨cls', free', freePages', hinv', -⟩ := hdone.inv
  exact ⟨⟨cls', free', freePages', hinv'⟩, hdone.start_eq.trans h.dyn_start, hdone.end_eq.trans h.dyn_end⟩

namespace UHeap

/-- The region that is recorded for an allocation at `a`. -/
def region (h : UHeap σ) (a : Nat) : Region := ⟨a, h.allocationSizes (sizeIndex a)⟩

/-- What the heap keeps, with the nodes `L` of its lists, the starts `A` of its allocated regions and the blocks
    `out` of the block allocator that are out. -/
structure Inv (h : UHeap σ) (L : BulkList → List Nat) (A out : List Nat) : Prop where
  initialized : h.firstTimeFlag = false
  blocks : ∃ cls free freePages, h.da.Inv cls free freePages out
  dyn_start : h.da.dynAllocStart = userHeapStart
  dyn_end : h.da.dynAllocEnd = 2181038080
  page_start : h.uheapPageAllocStart = 2181042176
  break_le : h.uheapPageAllocBreak ≤ userHeapMax
  break_aligned : h.uheapPageAllocBreak % 4096 = 0
  spells : h.bulks.Spells L
  nodes : ∀ b ∈ L .free, b < h.freeNodesIndex
  nodes_le : h.freeNodesIndex ≤ 2048
  unused : L .allocated = []
  tiles : Tiles h.uheapPageAllocStart h.uheapPageAllocBreak (h.bulks.regions (L .free) ++ A.map h.region)
  aligned : ∀ r ∈ h.bulks.regions (L .free) ++ A.map h.region, r.start % 4096 = 0 ∧ r.size % 4096 = 0
  sizes : ∀ i, h.allocationSizes i ≠ 0 → ∃ a ∈ A, sizeIndex a = i
  top : ∀ r ∈ h.bulks.regions (L .free), r.stop ≠ h.uheapPageAllocBreak

variable {h h' : UHeap σ} {L : BulkList → List Nat} {A out : List Nat} {a b n va : Nat}

theorem sizeIndex_eq (ha : 2147483648 ≤ a) (ha' : a < 4294967296) : sizeIndex a = (a - 2147483648) / 4096 := by
  rw [sizeIndex, userHeapStart, sub32_of_le ha ha', pageSize]

theorem sizeIndex_inj (ha : 2147483648 ≤ a ∧ a < 4294967296 ∧ a % 4096 = 0)
    (hb : 2147483648 ≤ b ∧ b < 4294967296 ∧ b % 4096 = 0) (h : sizeIndex a = sizeIndex b) : a = b := by
  rw [sizeIndex_eq ha.1 ha.2.1, sizeIndex_eq hb.1 hb.2.1] at h
  omega

theorem Inv.break_ge (hi : Inv h L A out) : 2181042176 ≤ h.uheapPageAllocBreak := hi.page_start ▸ hi.tiles.le

/-- Where the regions of the heap lie. -/
theorem Inv.bounds (hi : Inv h L A out) {r : Region} (hr : r ∈ h.bulks.regions (L .free) ++ A.map h.region) :
    0 < r.size ∧ 2181042176 ≤ r.start ∧ r.start + r.size ≤ 2684354560 ∧ r.start % 4096 = 0 ∧ r.size % 4096 = 0 := by
  have hin := hi.tiles.inside r hr
  have := hi.break_le
  rw [hi.page_start] at hin
  simp only [Region.stop, userHeapMax] at *
  exact ⟨hin.1, hin.2.1, by omega, hi.aligned r hr⟩

theorem Inv.bounds_free (hi : Inv h L A out) (hb : b ∈ L .free) :
    0 < h.bulks.size b ∧ 2181042176 ≤ h.bulks.start b ∧ h.bulks.start b + h.bulks.size b ≤ 2684354560 ∧
      h.bulks.start b % 4096 = 0 ∧ h.bulks.size b % 4096 = 0 :=
  hi.bounds (List.mem_append_left _ (List.mem_map_of_mem hb))

theorem Inv.bounds_alloc (hi : Inv h L A out) (ha : a ∈ A) :
    0 < (h.region a).size ∧ 2181042176 ≤ a ∧ a + (h.region a).size ≤ 2684354560 ∧ a % 4096 = 0 ∧
      (h.region a).size % 4096 = 0 :=
  hi.bounds (r := h.region a) (List.mem_append_right _ (List.mem_map_of_mem ha))

theorem Inv.length_lt (hi : Inv h L A out) : (L .free).length < walkFuel := by
  have hsub : (L .free).Subperm (List.range 2048) := by
    refine (hi.spells.nodup .free).subperm fun x hx => ?_
    have := hi.nodes x hx
    have := hi.nodes_le
    exact List.mem_range.mpr (by omega)
  have := hsub.length_le
  rw [List.length_range] at this
  simp only [walkFuel]
  omega

/-- A size stored at an address where nothing is allocated leaves the allocated regions. -/
theorem Inv.regions_store (hi : Inv h L A out) (hva : 2181042176 ≤ va ∧ va < 2684354560 ∧ va % 4096 = 0)
    (hnot : va ∉ A) (n : Nat) : A.map (h.storeSize va n).region = A.map h.region := by
  refine List.map_congr_left fun a ha => ?_
  have hb := hi.bounds_alloc ha
  have hne : sizeIndex a ≠ sizeIndex va := fun heq =>
    hnot (sizeIndex_inj (a := a) (b := va) ⟨by omega, by omega, hb.2.2.2.1⟩ ⟨by omega, by omega, hva.2.2⟩ heq ▸ ha)
  simp only [region, storeSize, Function.update_of_ne hne]

/-- A region of `n` bytes at `va` is allocated: the free regions lose it, or the break was raised. -/
theorem Inv.allocate (hi : Inv h L A out) {t : Bulks} {l : List Nat} {brk : Nat}
    (hva : 2181042176 ≤ va ∧ va < 2684354560 ∧ va % 4096 = 0) (hn : n % 4096 = 0) (hnot : va ∉ A)
    (hspells : t.Spells (Function.update L .free l)) (hnodes : ∀ b ∈ l, b ∈ L .free)
    (htiles : Tiles h.uheapPageAllocStart brk (t.regions l ++ ⟨va, n⟩ :: A.map h.region))
    (hbrk : brk ≤ userHeapMax ∧ brk % 4096 = 0)
    (haligned : ∀ r ∈ t.regions l, r.start % 4096 = 0 ∧ r.size % 4096 = 0) (htop : ∀ r ∈ t.regions l, r.stop ≠ brk) :
    Inv { h.storeSize va n with bulks := t, uheapPageAllocBreak := brk } (Function.update L .free l) (va :: A) out := by
  have hregions : (va :: A).map (h.storeSize va n).region = ⟨va, n⟩ :: A.map h.region := by
    rw [List.map_cons, hi.regions_store hva hnot n]
    simp [region, storeSize]
  refine ⟨hi.initialized, hi.blocks, hi.dyn_start, hi.dyn_end, hi.page_start, hbrk.1, hbrk.2, hspells, ?_, hi.nodes_le,
    ?_, ?_, ?_, fun i hne => ?_, ?_⟩
  · rw [Function.update_self]
    exact fun b hb => hi.nodes b (hnodes b hb)
  · rw [Function.update_of_ne (by decide)]
    exact hi.unused
  · rw [Function.update_self]
    show Tiles _ _ (t.regions l ++ (va :: A).map (h.storeSize va n).region)
    rw [hregions]
    exact htiles
  · rw [Function.update_self]
    show ∀ r ∈ t.regions l ++ (va :: A).map (h.storeSize va n).region, _
    rw [hregions]
    intro r hr
    rcases List.mem_append.mp hr with hr | hr
    · exact haligned r hr
    · rcases List.mem_cons.mp hr with rfl | hr
      · exact ⟨hva.2.2, hn⟩
      · exact hi.aligned r (List.mem_append_right _ hr)
  · by_cases hiv : i = sizeIndex va
    · exact ⟨va, by simp, hiv.symm⟩
    · simp only [storeSize, Function.update_of_ne hiv] at hne
      obtain ⟨a, ha, hai⟩ := hi.sizes i hne
      exact ⟨a, List.mem_cons_of_mem _ ha, hai⟩
  · rw [Function.update_self]
    exact htop

/-- No allocated region starts where a free one does. -/
theorem Inv.not_alloc (hi : Inv h L A out) (hb : b ∈ L .free) : h.bulks.start b ∉ A := by
  intro ha
  have hmem : h.bulks.region b ∈ h.bulks.regions (L .free) := List.mem_map_of_mem hb
  have hmem' : h.region (h.bulks.start b) ∈ A.map h.region := List.mem_map_of_mem ha
  obtain ⟨-, -, hapart⟩ := List.pairwise_append.mp hi.tiles.apart
  have hb' := (hi.bounds_free hb).1
  have ha' := (hi.bounds_alloc ha).1
  rcases hapart _ hmem _ hmem' with h | h <;> simp only [Region.stop, Bulks.region, region] at h hb' ha' <;> omega

/-! ### `user_page_alloc_custom_fit` -/

theorem Inv.exactFit (hi : Inv h L A out) (hb : b ∈ L .free) :
    Inv ({ h with bulks := h.bulks.removeBulk b }.storeSize (h.bulks.start b) (h.bulks.size b))
      (Function.update L .free ((L .free).erase b)) (h.bulks.start b :: A) out := by
  have hbounds := hi.bounds_free hb
  have hregions : (h.bulks.removeBulk b).regions ((L .free).erase b) = h.bulks.regions ((L .free).erase b) :=
    Bulks.regions_congr fun x _ => by simp [Bulks.removeBulk_fields]
  have hmem : ∀ r ∈ h.bulks.regions ((L .free).erase b), r ∈ h.bulks.regions (L .free) := fun r hr =>
    ((List.erase_sublist ..).map _).subset hr
  refine hi.allocate ⟨by omega, by omega, hbounds.2.2.2.1⟩ hbounds.2.2.2.2 (hi.not_alloc hb)
    (Bulks.removeBulk_spells hi.spells hb) (fun x => List.mem_of_mem_erase) ?_ ⟨hi.break_le, hi.break_aligned⟩ ?_ ?_
  · rw [hregions]
    refine hi.tiles.perm (((Bulks.regions_erase_perm hb).append_right _).trans ?_)
    exact List.perm_middle.symm
  · rw [hregions]
    exact fun r hr => hi.aligned r (List.mem_append_left _ (hmem r hr))
  · rw [hregions]
    exact fun r hr => hi.top r (hmem r hr)

theorem Inv.worstFit (hi : Inv h L A out) (hb : b ∈ L .free) (hpos : 0 < n) (hn : n % 4096 = 0)
    (hlt : n < h.bulks.size b) {t : Bulks} (ht : h.bulks.takeFront b n = some t) :
    ∃ l, Inv ({ h with bulks := t }.storeSize (h.bulks.start b) n) (Function.update L .free l)
      (h.bulks.start b :: A) out := by
  have hbounds := hi.bounds_free hb
  obtain ⟨t', l, ht', hperm, hspells, -, hregions, -⟩ :=
    Bulks.takeFront_spec hi.spells hb hi.length_lt hlt.le (by omega)
  obtain rfl : t' = t := Option.some.inj (ht'.symm.trans ht)
  have hmem : ∀ r ∈ t'.regions l, r = ⟨h.bulks.start b + n, h.bulks.size b - n⟩ ∨ r ∈ h.bulks.regions (L .free) := by
    intro r hr
    refine (List.mem_cons.mp (hregions.mem_iff.mp hr)).imp_right fun hr => ?_
    exact ((List.erase_sublist ..).map _).subset hr
  refine ⟨l, hi.allocate ⟨by omega, by omega, hbounds.2.2.2.1⟩ hn (hi.not_alloc hb) hspells
    (fun x hx => hperm.mem_iff.mp hx) ?_ ⟨hi.break_le, hi.break_aligned⟩ (fun r hr => ?_) (fun r hr => ?_)⟩
  · have hold := hi.tiles.perm ((Bulks.regions_erase_perm hb).append_right _)
    have hcut := Tiles.split hold hpos hlt
    refine hcut.perm (List.Perm.trans ?_ (hregions.append_right _).symm)
    exact (@List.perm_middle _ _ (_ :: _) _).symm
  · rcases hmem r hr with rfl | hr
    · simp only
      omega
    · exact hi.aligned r (List.mem_append_left _ hr)
  · rcases hmem r hr with rfl | hr
    · have := hi.top _ (List.mem_map_of_mem hb)
      simp only [Region.stop, Bulks.region] at this ⊢
      omega
    · exact hi.top r hr

theorem Inv.extendBreak (hi : Inv h L A out) (hpos : 0 < n) (hn : n % 4096 = 0) :
    h.extendBreak n = (h, 0) ∨ ∃ va, va ≠ 0 ∧ (h.extendBreak n).2 = va ∧ Inv (h.extendBreak n).1 L (va :: A) out := by
  have hge := hi.break_ge
  have hle := hi.break_le
  have hal := hi.break_aligned
  simp only [userHeapMax] at hle
  unfold UHeap.extendBreak
  rw [if_neg (by rw [hi.page_start]; omega), userHeapMax, sub32_of_le hle (by omega)]
  split
  case isTrue => exact .inl rfl
  case isFalse hfits =>
    have hwrap : u32 (h.uheapPageAllocBreak + n) = h.uheapPageAllocBreak + n := u32_of_lt (by omega)
    rw [hwrap, if_neg (by omega)]
    have hinside : ∀ r ∈ h.bulks.regions (L .free) ++ A.map h.region, r.stop ≤ h.uheapPageAllocBreak :=
      fun r hr => (hi.tiles.inside r hr).2.2
    have hnot : h.uheapPageAllocBreak ∉ A := fun ha => by
      have := hinside _ (List.mem_append_right _ (List.mem_map_of_mem ha))
      have := (hi.bounds_alloc ha).1
      simp only [Region.stop, region] at *
      omega
    have htiles : Tiles h.uheapPageAllocStart (h.uheapPageAllocBreak + n)
        (h.bulks.regions (L .free) ++ ⟨h.uheapPageAllocBreak, n⟩ :: A.map h.region) :=
      (hi.tiles.extend hpos).perm List.perm_middle.symm
    have halloc := hi.allocate ⟨hge, by omega, hal⟩ hn hnot (by rw [Function.update_eq_self]; exact hi.spells)
      (fun _ => id) htiles (by simp only [userHeapMax]; omega) (fun r hr => hi.aligned r (List.mem_append_left _ hr)) (fun r hr => by
        have := hinside r (List.mem_append_left _ hr)
        omega)
    rw [Function.update_eq_self] at halloc
    simp only [hwrap]
    exact .inr ⟨_, by omega, rfl, halloc⟩

/-- The page allocator returns null and changes nothing, or it allocates a region. -/
theorem Inv.customFit (hi : Inv h L A out) (hpos : 0 < n) (hn : n % 4096 = 0)
    (hs : h.userPageAllocCustomFit n = some (h', va)) :
    va = 0 ∧ h' = h ∨ va ≠ 0 ∧ ∃ L', Inv h' L' (va :: A) out := by
  have hextend : ∀ r, some (h.extendBreak n) = some r → r = (h', va) → va = 0 ∧ h' = h ∨
      va ≠ 0 ∧ ∃ L', Inv h' L' (va :: A) out := by
    rintro r hr rfl
    rcases hi.extendBreak hpos hn with heq | ⟨va', hne, hva', hinv⟩
    · rw [heq] at hr
      cases hr
      exact .inl ⟨rfl, rfl⟩
    · rw [Option.some.injEq] at hr
      rw [hr] at hinv hva'
      obtain rfl : va = va' := hva'
      exact .inr ⟨hne, L, hinv⟩
  obtain ⟨m, r, hL, -, hstop, hwalk⟩ := walk_spelled (a := []) (fun b => h.bulks.size b = n) (hi.spells.spelled .free)
    hi.length_lt
  rw [← hi.spells.first .free] at hwalk
  unfold userPageAllocCustomFit at hs
  rw [show walk h.bulks.next _ walkFuel none _ = _ from hwalk, Option.bind_some] at hs
  cases hr : r.head? with
  | some b =>
    rw [hr] at hs
    have hb : b ∈ L .free := by
      rw [hL]
      exact List.mem_append_right _ (List.mem_of_head? hr)
    have hsize : h.bulks.size b = n := by simpa using hstop b hr
    have hbounds := hi.bounds_free hb
    cases hs
    rw [← hsize]
    exact .inr ⟨by omega, _, hi.exactFit hb⟩
  | none =>
    rw [hr] at hs
    cases hf : h.bulks.first .free with
    | none =>
      simp only [hf] at hs
      exact hextend _ hs rfl
    | some bb =>
      simp only [hf] at hs
      have hbb : bb ∈ L .free := hi.spells.mem_of_first hf
      have hbounds := hi.bounds_free hbb
      split at hs
      case isTrue hlt =>
        obtain ⟨t, ht, hres⟩ := Option.map_eq_some_iff.mp hs
        cases hres
        obtain ⟨l, hinv⟩ := hi.worstFit hbb hpos hn hlt ht
        exact .inr ⟨by omega, _, hinv⟩
      case isFalse => exact hextend _ hs rfl

/-! ### `free` -/

theorem scanBreak_eq {i k : Nat} (hik : i < k) (hi : h.allocationSizes i ≠ 0)
    (hzero : ∀ j, i < j → j < k → h.allocationSizes j = 0) :
    h.scanBreak k = u32 (userHeapStart + i * pageSize + h.allocationSizes i) := by
  induction k with
  | zero => omega
  | succ k ih =>
    unfold scanBreak
    by_cases hk : k = i
    · subst hk
      rw [if_pos hi]
    · rw [if_neg (by simp [hzero k (by omega) (by omega)])]
      exact ih (by omega) fun j hij hjk => hzero j hij (by omega)

/-- The break that `free` computes, when an allocated region ends at the break. -/
theorem Inv.scanBreak_of_top (hi : Inv h L A out) (hlt : h.uheapPageAllocStart < h.uheapPageAllocBreak) :
    h.scanBreak (sizeIndex h.uheapPageAllocBreak) = h.uheapPageAllocBreak := by
  obtain ⟨r, hr, hstop⟩ := hi.tiles.exists_top hlt
  have hra : r ∈ A.map h.region := (List.mem_append.mp hr).resolve_left fun hr => hi.top r hr hstop
  obtain ⟨x, hx, rfl⟩ := List.mem_map.mp hra
  have hbx := hi.bounds_alloc hx
  have hle := hi.break_le
  have hge := hi.break_ge
  have hsize : h.allocationSizes (sizeIndex x) = (h.region x).size := rfl
  simp only [Region.stop, userHeapMax] at hstop hle
  have hstart : (h.region x).start = x := rfl
  have hix := sizeIndex_eq (a := x) (by omega) (by omega)
  have hib := sizeIndex_eq (a := h.uheapPageAllocBreak) (by omega) (by omega)
  rw [scanBreak_eq (i := sizeIndex x) (by omega) (by omega), hsize]
  · have hback : userHeapStart + sizeIndex x * pageSize = x := by
      rw [hix]
      simp only [userHeapStart, pageSize]
      omega
    rw [hback, u32_of_lt (by omega)]
    omega
  · -- An allocation above `x` would overlap the region that ends at the break.
    intro j hxj hjb
    by_contra hne
    obtain ⟨y, hy, rfl⟩ := hi.sizes j hne
    have hby := hi.bounds_alloc hy
    have hiy := sizeIndex_eq (a := y) (by omega) (by omega)
    have hxy : h.region x = h.region y := by
      refine hi.tiles.eq_of_overlap hr (List.mem_append_right _ (List.mem_map_of_mem hy)) ?_
      have : (h.region y).start = y := rfl
      simp only [Region.Apart, Region.stop]
      omega
    have : x = y := congrArg Region.start hxy
    omega

/-- The allocated region at `a`, which does not end at the break, becomes free. -/
theorem Inv.deallocate (hi : Inv h L A out) {t : Bulks} {l : List Nat} {idx : Nat} (ha : a ∈ A)
    (hspells : t.Spells (Function.update L .free l)) (hnodes : ∀ b ∈ l, b < idx) (hidx : idx ≤ 2048)
    (hmerge : Merge (h.region a) (h.bulks.regions (L .free)) (t.regions l))
    (htop : (h.region a).stop ≠ h.uheapPageAllocBreak) :
    Inv { h.storeSize a 0 with bulks := t, freeNodesIndex := idx } (Function.update L .free l) (A.erase a) out := by
  have hba := hi.bounds_alloc ha
  have hmap : (A.map h.region).Perm (h.region a :: (A.erase a).map h.region) := (List.perm_cons_erase ha).map _
  have hAnodup : A.Nodup := (List.nodup_append.mp hi.tiles.nodup).2.1.of_map _
  have hne : ∀ x ∈ A.erase a, sizeIndex x ≠ sizeIndex a := by
    intro x hx heq
    have hbx := hi.bounds_alloc (List.mem_of_mem_erase hx)
    have := sizeIndex_inj (a := x) (b := a) ⟨by omega, by omega, hbx.2.2.2.1⟩ ⟨by omega, by omega, hba.2.2.2.1⟩ heq
    exact hAnodup.not_mem_erase (this ▸ hx)
  have hregions : (A.erase a).map (h.storeSize a 0).region = (A.erase a).map h.region :=
    List.map_congr_left fun x hx => by simp only [region, storeSize, Function.update_of_ne (hne x hx)]
  have htiles : Tiles h.uheapPageAllocStart h.uheapPageAllocBreak (t.regions l ++ (A.erase a).map h.region) := by
    refine hmerge.tiles (hi.tiles.perm ?_)
    exact (hmap.append_left _).trans List.perm_middle
  have hfree : ∀ r ∈ t.regions l, r.start % 4096 = 0 ∧ r.size % 4096 = 0 ∧ r.stop ≠ h.uheapPageAllocBreak := by
    intro r hr
    obtain ⟨hstart, hstop⟩ := hmerge.start_stop hr
    have hal := hi.aligned (h.region a) (List.mem_append_right _ (List.mem_map_of_mem ha))
    have hstart' : r.start % 4096 = 0 := by
      rcases hstart with h | ⟨b, hb, h⟩
      · rw [h]
        exact hal.1
      · rw [h]
        exact (hi.aligned b (List.mem_append_left _ hb)).1
    have hstop' : r.stop % 4096 = 0 ∧ r.stop ≠ h.uheapPageAllocBreak := by
      rcases hstop with h | ⟨b, hb, h⟩
      · rw [h]
        simp only [Region.stop] at htop ⊢
        exact ⟨by omega, htop⟩
      · rw [h]
        have := hi.aligned b (List.mem_append_left _ hb)
        refine ⟨?_, hi.top b hb⟩
        simp only [Region.stop]
        omega
    simp only [Region.stop] at hstop' ⊢
    exact ⟨hstart', by omega, hstop'.2⟩
  refine ⟨hi.initialized, hi.blocks, hi.dyn_start, hi.dyn_end, hi.page_start, hi.break_le, hi.break_aligned, hspells, ?_,
    hidx, ?_, ?_, ?_, fun i hne => ?_, ?_⟩
  · rw [Function.update_self]
    exact hnodes
  · rw [Function.update_of_ne (by decide)]
    exact hi.unused
  · rw [Function.update_self]
    show Tiles _ _ (t.regions l ++ (A.erase a).map (h.storeSize a 0).region)
    rw [hregions]
    exact htiles
  · rw [Function.update_self]
    show ∀ r ∈ t.regions l ++ (A.erase a).map (h.storeSize a 0).region, _
    rw [hregions]
    intro r hr
    rcases List.mem_append.mp hr with hr | hr
    · exact ⟨(hfree r hr).1, (hfree r hr).2.1⟩
    · exact hi.aligned r (List.mem_append_right _ (((List.erase_sublist ..).map _).subset hr))
  · by_cases hia : i = sizeIndex a
    · simp [storeSize, hia] at hne
    · simp only [storeSize, Function.update_of_ne hia] at hne
      obtain ⟨x, hx, rfl⟩ := hi.sizes i hne
      exact ⟨x, (List.mem_erase_of_ne fun hxa => hia (by rw [hxa])).mpr hx, rfl⟩
  · rw [Function.update_self]
    exact fun r hr => (hfree r hr).2.2

theorem Inv.mergeBulks (hi : Inv h L A out) (ha : a ∈ A) (htop : (h.region a).stop ≠ h.uheapPageAllocBreak)
    (hs : (h.storeSize a 0).mergeBulks a (h.region a).size = some h') :
    (∃ L', Inv h' L' (A.erase a) out) ∧ h'.uheapPageAllocStart = h.uheapPageAllocStart ∧
      h'.uheapPageAllocBreak = h.uheapPageAllocBreak := by
  have hba := hi.bounds_alloc ha
  have hlen := hi.length_lt
  have hstop : (h.region a).stop = a + (h.region a).size := rfl
  obtain ⟨before, after, hfind, hb, hnb, haf, hna⟩ :=
    Bulks.findNeighbours_spec hi.spells hlen a (h.region a).size
  rw [u32_of_lt (by omega), ← hstop] at haf hna
  have hend : ∀ x ∈ L .free, u32 (h.bulks.start x + h.bulks.size x) = h.bulks.start x + h.bulks.size x :=
    fun x hx => u32_of_lt (by have := hi.bounds_free hx; omega)
  unfold UHeap.mergeBulks at hs
  rw [show (h.storeSize a 0).bulks = h.bulks from rfl, hfind, Option.bind_some] at hs
  cases before with
  | some b =>
    obtain ⟨hb, hbstop⟩ := hb b rfl
    rw [hend b hb] at hbstop
    have hbb := hi.bounds_free hb
    cases after with
    | some x =>
      obtain ⟨hx, hxstart⟩ := haf x rfl
      have hbx := hi.bounds_free hx
      have hxb : x ≠ b := by
        rintro rfl
        omega
      obtain ⟨t, l, ht, hperm, hspells, -, hmerge, -⟩ :=
        Bulks.mergeBoth_spec (r := h.region a) hi.spells hb hx hxb hlen hbstop hxstart (by omega)
      simp only [ht, Option.map_some] at hs
      cases hs
      refine ⟨⟨_, hi.deallocate ha hspells (fun y hy => ?_) hi.nodes_le hmerge htop⟩, rfl, rfl⟩
      exact hi.nodes y (List.mem_of_mem_erase (hperm.mem_iff.mp hy))
    | none =>
      obtain ⟨t, l, ht, hperm, hspells, -, hmerge, -⟩ :=
        Bulks.mergeBefore_spec (r := h.region a) hi.spells hb hlen hbstop (by omega) (hna rfl)
      simp only [ht, Option.map_some] at hs
      cases hs
      exact ⟨⟨_, hi.deallocate ha hspells (fun y hy => hi.nodes y (hperm.mem_iff.mp hy)) hi.nodes_le hmerge htop⟩,
        rfl, rfl⟩
  | none =>
    have hnb' : ∀ x ∈ L .free, h.bulks.start x + h.bulks.size x ≠ a := fun x hx => hend x hx ▸ hnb rfl x hx
    cases after with
    | some x =>
      obtain ⟨hx, hxstart⟩ := haf x rfl
      have hbx := hi.bounds_free hx
      obtain ⟨t, l, ht, hperm, hspells, -, hmerge, -⟩ :=
        Bulks.mergeAfter_spec (r := h.region a) hi.spells hx hlen hxstart (by omega) hnb'
      rw [show (h.region a).start = a from rfl] at ht
      simp only [ht, Option.map_some] at hs
      cases hs
      exact ⟨⟨_, hi.deallocate ha hspells (fun y hy => hi.nodes y (hperm.mem_iff.mp hy)) hi.nodes_le hmerge htop⟩,
        rfl, rfl⟩
    | none =>
      simp only [Option.ite_none_left_eq_some, Option.map_eq_some_iff] at hs
      obtain ⟨hidx, t', ht', rfl⟩ := hs
      have hidx : h.freeNodesIndex < 2048 := by
        have : ¬ 2048 ≤ h.freeNodesIndex := hidx
        omega
      have hnew : ∀ j, h.freeNodesIndex ∉ L j := by
        intro j hj
        cases j with
        | free => exact absurd (hi.nodes _ hj) (Nat.lt_irrefl _)
        | allocated => simp [hi.unused] at hj
      obtain ⟨t, l, ht, hperm, hspells, -, hmerge, -⟩ :=
        Bulks.addBulk_spec (r := h.region a) hi.spells hnew hlen hnb' (hna rfl)
      obtain rfl : t = t' := Option.some.inj (ht.symm.trans ht')
      refine ⟨⟨_, hi.deallocate ha hspells (fun y hy => ?_) hidx hmerge htop⟩, rfl, rfl⟩
      show y < h.freeNodesIndex + 1
      rcases List.mem_cons.mp (hperm.mem_iff.mp hy) with rfl | hy
      · omega
      · have := hi.nodes y hy
        omega

variable {ops : PageOps σ}

/-- `free` of an allocated region that does not end at the break. -/
theorem Inv.free_region (hi : Inv h L A out) (ha : a ∈ A) (htop : (h.region a).stop ≠ h.uheapPageAllocBreak)
    (hs : h.free ops a = some h') : ∃ L', Inv h' L' (A.erase a) out := by
  have hba := hi.bounds_alloc ha
  have hstart := hi.page_start
  have hlt : h.uheapPageAllocStart < h.uheapPageAllocBreak := by
    have := (hi.tiles.inside _ (List.mem_append_right _ (List.mem_map_of_mem ha))).2
    have hstop : (h.region a).stop = a + (h.region a).size := rfl
    have : (h.region a).start = a := rfl
    omega
  unfold UHeap.free at hs
  rw [if_neg (by simp only [userHeapStart, userHeapMax]; omega), if_neg (by omega), if_neg (by simp only [region] at hba; omega)] at hs
  obtain ⟨h₁, hm, rfl⟩ := Option.map_eq_some_iff.mp hs
  obtain ⟨⟨L', hi'⟩, hst, hbr⟩ := hi.mergeBulks ha htop hm
  refine ⟨L', ?_⟩
  rw [hi'.scanBreak_of_top (by rw [hst, hbr]; exact hlt)]
  exact hi'

theorem Inv.blocksOut (hi : Inv h L A out) : BlocksOut h.da out := ⟨hi.blocks, hi.dyn_start, hi.dyn_end⟩

theorem Inv.with_blocks (hi : Inv h L A out) {w : σ} {d : DynAlloc} {out' : List Nat} (hd : BlocksOut d out') :
    Inv { h with world := w, da := d } L A out' :=
  ⟨hi.initialized, hd.inv, hd.dyn_start, hd.dyn_end, hi.page_start, hi.break_le, hi.break_aligned, hi.spells, hi.nodes,
    hi.nodes_le, hi.unused, hi.tiles, hi.aligned, hi.sizes, hi.top⟩

/-- `free` of a block. -/
theorem Inv.free_block (hops : ops.Local) (hi : Inv h L A out) (ha : a ∈ out) (hs : h.free ops a = some h') :
    Inv h' L A (out.erase a) := by
  have hbounds := hi.blocksOut.bounds ha
  have hstart := hi.page_start
  unfold UHeap.free at hs
  rw [if_neg (by simp only [userHeapStart, userHeapMax]; omega), if_pos (by omega)] at hs
  obtain ⟨⟨w, d⟩, hfree, rfl⟩ := Option.map_eq_some_iff.mp hs
  exact hi.with_blocks (hi.blocksOut.free hops ha hfree)

/-! ### `uheap_init` and `malloc` -/

theorem Inv.uheapInit (hi : Inv h L A out) : h.uheapInit = some h := by
  rw [UHeap.uheapInit, if_neg (by simp [hi.initialized])]

theorem uheapInit_inv {w : σ} (hs : uheapInit { world := w } = some h') : Inv h' (fun _ => []) [] [] := by
  simp only [UHeap.uheapInit, if_true, Option.map_eq_some_iff] at hs
  obtain ⟨d, hd, rfl⟩ := hs
  have hend : u32 (userHeapStart + dynAllocMaxSize) = 2181038080 := rfl
  rw [hend] at hd
  obtain ⟨hinv, hds, hde⟩ := DynAlloc.initializeDynamicAllocator_inv (by decide) (by decide) (by decide) (by decide)
    (by decide) hd
  have hps : u32 (d.dynAllocEnd + pageSize) = 2181042176 := by
    rw [hde]
    rfl
  refine ⟨rfl, ⟨_, _, _, hinv⟩, hds, hde, hps, ?_, ?_, ⟨fun _ => spelled_nil, fun _ => rfl, fun _ => List.nodup_nil, nofun⟩,
    nofun, Nat.zero_le _, rfl, ?_, nofun, fun i hne => absurd rfl hne, nofun⟩
  · simp only [hps, userHeapMax]
    decide
  · simp only [hps]
  · exact Tiles.nil _

/-- `malloc` of a size that the block allocator serves. -/
theorem Inv.alloc_block (hops : ops.Local) (hi : Inv h L A out) (hpos : 0 < n) {w : σ} {d : DynAlloc}
    (hs : DynAlloc.allocBlock ops h.world h.da n = some (w, d, va)) :
    2147483648 ≤ va ∧ va < 2181042176 ∧ Inv { h with world := w, da := d } L A (va :: out) := by
  have hd := hi.blocksOut.alloc hops hpos hs
  have hbounds := hd.bounds (List.mem_cons_self ..)
  exact ⟨hbounds.1, hbounds.2, hi.with_blocks hd⟩

end UHeap

/-! ### Runs -/

namespace UProcess

/-- The live regions of the page allocator are disjoint and lie between its start and the break, which is at most
    the end of the heap; the free regions lie below the break and are disjoint from them and from each other. -/
structure NoOverlap (s : UProcess σ) : Prop where
  live_apart : s.pagePointers.Pairwise fun a b => (s.region a).Apart (s.region b)
  live_inside : ∀ a ∈ s.pagePointers, s.heap.uheapPageAllocStart ≤ a ∧ (s.region a).stop ≤ s.heap.uheapPageAllocBreak
  break_le : s.heap.uheapPageAllocBreak ≤ userHeapMax
  free : ∃ L, s.heap.bulks.Spells L ∧ (s.heap.bulks.regions (L .free)).Pairwise Region.Apart ∧
    ∀ r ∈ s.heap.bulks.regions (L .free), r.stop ≤ s.heap.uheapPageAllocBreak ∧
      ∀ a ∈ s.pagePointers, r.Apart (s.region a)

/-- The steps that keep the regions apart: no size wraps when it is rounded up to pages, and the region that ends
    at the break is not freed. -/
def Safe (s : UProcess σ) : UHeapEvent → Prop
  | .malloc size => size ≤ 4294963200
  | .smalloc size _ _ => size ≤ 4294963200
  | .sget _ _ => True
  | .free va => s.heap.uheapPageAllocStart ≤ va → (s.region va).stop ≠ s.heap.uheapPageAllocBreak

/-- Every live pointer is a block that is out or the start of an allocated region. -/
def Inv (s : UProcess σ) : Prop :=
  ∃ L A, s.heap.Inv L A (s.live.filter (· < 2181042176)) ∧ (∀ a ∈ s.live, 2181042176 ≤ a → a ∈ A) ∧ s.live.Nodup

variable {s t : UProcess σ} {ops : PageOps σ}

theorem Inv.noOverlap (hi : Inv s) : NoOverlap s := by
  obtain ⟨L, A, hinv, hlive, hnodup⟩ := hi
  have hpage : ∀ a ∈ s.pagePointers, a ∈ A := fun a ha => by
    obtain ⟨ha, hle⟩ := List.mem_filter.mp ha
    rw [hinv.page_start] at hle
    exact hlive a ha (of_decide_eq_true hle)
  have hmem : ∀ a ∈ s.pagePointers, s.region a ∈ A.map s.heap.region := fun a ha => List.mem_map_of_mem (hpage a ha)
  obtain ⟨hfree, halloc, hboth⟩ := List.pairwise_append.mp hinv.tiles.apart
  refine ⟨?_, fun a ha => ⟨?_, ?_⟩, hinv.break_le, L, hinv.spells, hfree, fun r hr => ⟨?_, fun a ha => ?_⟩⟩
  · refine (hnodup.filter _).imp_of_mem fun {a b} ha hb hab => ?_
    exact halloc.forall (hmem a ha) (hmem b hb) fun heq => hab (congrArg Region.start heq)
  · exact of_decide_eq_true (List.mem_filter.mp ha).2
  · exact (hinv.tiles.inside _ (List.mem_append_right _ (hmem a ha))).2.2
  · exact (hinv.tiles.inside r (List.mem_append_left _ hr)).2.2
  · exact hboth r hr _ (hmem a ha)

/-- The bytes that a call asks of the page allocator. -/
def pageRequest : UHeapEvent → Option Nat
  | .malloc size => if size = 0 ∨ size ≤ dynAllocMaxBlockSize then none else some (roundUp size pageSize)
  | .smalloc size notExists _ => if size = 0 ∨ notExists = false then none else some (roundUp size pageSize)
  | .sget size _ => if size ≤ 0 then none else some (roundUp size.toNat pageSize)
  | .free _ => none

theorem pageRequest_aligned {e : UHeapEvent} {n : Nat} (hreq : pageRequest e = some n) : n % 4096 = 0 := by
  cases e with
  | malloc size =>
    obtain ⟨-, heq⟩ := Option.ite_none_left_eq_some.mp hreq
    exact Option.some.inj heq ▸ roundUp_aligned size
  | smalloc size notExists objID =>
    obtain ⟨-, heq⟩ := Option.ite_none_left_eq_some.mp hreq
    exact Option.some.inj heq ▸ roundUp_aligned size
  | sget size ret =>
    obtain ⟨-, heq⟩ := Option.ite_none_left_eq_some.mp hreq
    exact Option.some.inj heq ▸ roundUp_aligned _
  | free va => exact nomatch hreq

theorem pageRequest_pos {e : UHeapEvent} {n : Nat} (hsafe : Safe s e) (hs : s.step ops e = some t) (hreq : pageRequest e = some n) :
    0 < n := by
  cases e with
  | malloc size =>
    obtain ⟨hgo, heq⟩ := Option.ite_none_left_eq_some.mp hreq
    obtain rfl := Option.some.inj heq
    have hle := (roundUp_page (n := size) hsafe).2.1
    omega
  | smalloc size notExists objID =>
    obtain ⟨hgo, heq⟩ := Option.ite_none_left_eq_some.mp hreq
    obtain rfl := Option.some.inj heq
    have hle := (roundUp_page (n := size) hsafe).2.1
    exact Nat.lt_of_lt_of_le (Nat.pos_of_ne_zero fun h0 => hgo (.inl h0)) hle
  | sget size ret =>
    obtain ⟨hsize, -⟩ := Option.ite_none_right_eq_some.mp hs
    obtain ⟨hgo, heq⟩ := Option.ite_none_left_eq_some.mp hreq
    obtain rfl := Option.some.inj heq
    have hle := (roundUp_page (n := size.toNat) (by omega)).2.1
    omega
  | free va => exact nomatch hreq

/-- What a call other than `free` leaves of the heap `h` it finds. -/
inductive Called (ops : PageOps σ) (s : UProcess σ) (h : UHeap σ) (e : UHeapEvent) : UProcess σ → Prop where
  | null (hreq : pageRequest e = none) : Called ops s h e (s.keep (h, 0))
  | block {size va : Nat} {w : σ} {d : DynAlloc} (hreq : pageRequest e = none) (hpos : 0 < size)
      (halloc : DynAlloc.allocBlock ops h.world h.da size = some (w, d, va)) :
      Called ops s h e (s.keep ({ h with world := w, da := d }, va))
  -- The kernel's answer decides whether the address is returned.
  | pages {n va kept : Nat} {h' : UHeap σ} (hreq : pageRequest e = some n)
      (hfit : h.userPageAllocCustomFit n = some (h', va)) (hkept : kept = va ∨ kept = 0) : Called ops s h e (s.keep (h', kept))

theorem Called.of_answer {h : UHeap σ} {e : UHeapEvent} {n : Nat} {refused : Prop} [Decidable refused]
    {r : UHeap σ × Nat} (hreq : pageRequest e = some n)
    (hr : (h.userPageAllocCustomFit n).map (fun (h', va) => if va = 0 ∨ refused then (h', 0) else (h', va)) = some r) :
    Called ops s h e (s.keep r) := by
  obtain ⟨⟨h', va⟩, hfit, rfl⟩ := Option.map_eq_some_iff.mp hr
  dsimp only
  split
  · exact .pages hreq hfit (.inr rfl)
  · exact .pages hreq hfit (.inl rfl)

theorem step_called {h : UHeap σ} {e : UHeapEvent} (hinit : s.heap.uheapInit = some h) (hcall : ∀ va, e ≠ .free va)
    (hs : s.step ops e = some t) : Called ops s h e t := by
  cases e with
  | free va => exact absurd rfl (hcall va)
  | malloc size =>
    obtain ⟨r, hr, rfl⟩ := Option.map_eq_some_iff.mp hs
    unfold UHeap.malloc at hr
    rw [hinit, Option.bind_some] at hr
    split at hr
    case isTrue hzero =>
      cases hr
      exact .null (if_pos (.inl hzero))
    case isFalse hne =>
      split at hr
      case isTrue hsmall =>
        obtain ⟨⟨w, d, va⟩, halloc, rfl⟩ := Option.map_eq_some_iff.mp hr
        exact .block (if_pos (.inr hsmall)) (Nat.pos_of_ne_zero hne) halloc
      case isFalse hbig => exact .pages (if_neg (not_or.mpr ⟨hne, hbig⟩)) hr (.inl rfl)
  | smalloc size notExists objID =>
    obtain ⟨r, hr, rfl⟩ := Option.map_eq_some_iff.mp hs
    unfold UHeap.smalloc at hr
    rw [hinit, Option.bind_some] at hr
    split at hr
    case isTrue hnot =>
      cases hr
      exact .null (if_pos hnot)
    case isFalse hgo => exact .of_answer (if_neg hgo) hr
  | sget size ret =>
    obtain ⟨-, hs⟩ := Option.ite_none_right_eq_some.mp hs
    obtain ⟨r, hr, rfl⟩ := Option.map_eq_some_iff.mp hs
    unfold UHeap.sget at hr
    rw [hinit, Option.bind_some] at hr
    split at hr
    case isTrue hnot =>
      cases hr
      exact .null (if_pos hnot)
    case isFalse hgo => exact .of_answer (if_neg hgo) hr

/-- The page allocator's result is kept, or was null, or was given up because a syscall failed. -/
theorem Inv.customFit (hi : Inv s) {n va kept : Nat} {h' : UHeap σ} (hpos : 0 < n) (hn : n % 4096 = 0)
    (hs : s.heap.userPageAllocCustomFit n = some (h', va)) (hkept : kept = va ∨ kept = 0) :
    Inv (s.keep (h', kept)) := by
  obtain ⟨L, A, hinv, hlive, hnodup⟩ := hi
  rcases hinv.customFit hpos hn hs with ⟨rfl, rfl⟩ | ⟨hne, L', hinv'⟩
  · have hzero : kept = 0 := by rcases hkept with rfl | rfl <;> rfl
    subst hzero
    exact ⟨L, A, by simpa [keep] using hinv, by simpa [keep] using hlive, by simpa [keep] using hnodup⟩
  · have hva := (hinv'.bounds_alloc (List.mem_cons_self ..)).2.1
    have hAnodup : (va :: A).Nodup := (List.nodup_append.mp hinv'.tiles.nodup).2.1.of_map _
    by_cases hzero : kept = 0
    · subst hzero
      exact ⟨L', va :: A, by simpa [keep] using hinv', by simpa [keep] using fun a ha hle => .inr (hlive a ha hle),
        by simpa [keep] using hnodup⟩
    · obtain rfl : kept = va := hkept.resolve_right hzero
      refine ⟨L', kept :: A, ?_, ?_, ?_⟩
      · have : ¬ kept < 2181042176 := by omega
        simpa [keep, hzero, this] using hinv'
      · simp only [keep, hzero, if_false]
        intro a ha hle
        rcases List.mem_cons.mp ha with rfl | ha
        · exact List.mem_cons_self ..
        · exact List.mem_cons_of_mem _ (hlive a ha hle)
      · simp only [keep, hzero, if_false]
        exact List.nodup_cons.mpr ⟨fun hmem => (List.nodup_cons.mp hAnodup).1 (hlive kept hmem hva), hnodup⟩

theorem Inv.keep_block (hops : ops.Local) (hi : Inv s) {size va : Nat} {w : σ} {d : DynAlloc} (hpos : 0 < size)
    (halloc : DynAlloc.allocBlock ops s.heap.world s.heap.da size = some (w, d, va)) :
    Inv (s.keep ({ s.heap with world := w, da := d }, va)) := by
  obtain ⟨L, A, hinv, hlive, hnodup⟩ := hi
  obtain ⟨hge, hlt, hinv'⟩ := hinv.alloc_block hops hpos halloc
  have hva : va ≠ 0 := by omega
  obtain ⟨_, _, _, hda⟩ := hinv'.blocks
  have hfresh : va ∉ s.live := fun hmem =>
    (List.nodup_cons.mp hda.tiled.out_nodup).1 (List.mem_filter.mpr ⟨hmem, by simpa using hlt⟩)
  refine ⟨L, A, by simpa [keep, hva, hlt] using hinv', ?_, by simpa [keep, hva] using ⟨hfresh, hnodup⟩⟩
  simp only [keep, hva, if_false]
  intro a ha hle
  rcases List.mem_cons.mp ha with rfl | ha
  · omega
  · exact hlive a ha hle

theorem Inv.call {h : UHeap σ} {e : UHeapEvent} (hops : ops.Local) (hi : Inv ⟨h, s.live⟩) (hinit : s.heap.uheapInit = some h)
    (hsafe : Safe s e) (hcall : ∀ va, e ≠ .free va) (hs : s.step ops e = some t) : Inv t := by
  cases step_called hinit hcall hs with
  | null => simpa [keep] using hi
  | block _ hpos halloc => exact hi.keep_block hops hpos halloc
  | pages hreq hfit hkept => exact hi.customFit (pageRequest_pos hsafe hs hreq) (pageRequest_aligned hreq) hfit hkept

theorem Inv.free (hops : ops.Local) (hi : Inv s) {va : Nat} (hva : va ∈ s.live) (hsafe : Safe s (.free va))
    {h' : UHeap σ} (hs : s.heap.free ops va = some h') : Inv ⟨h', s.live.erase va⟩ := by
  obtain ⟨L, A, hinv, hlive, hnodup⟩ := hi
  have herase : (s.live.erase va).filter (· < 2181042176) = (s.live.filter (· < 2181042176)).erase va := by
    rw [hnodup.erase_eq_filter, (hnodup.filter _).erase_eq_filter, List.filter_filter, List.filter_filter]
    refine List.filter_congr fun x _ => Bool.and_comm ..
  by_cases hle : 2181042176 ≤ va
  · have htop : (s.heap.region va).stop ≠ s.heap.uheapPageAllocBreak := hsafe (hinv.page_start ▸ hle)
    have hnotblock : va ∉ s.live.filter (· < 2181042176) := fun hmem => by
      have := of_decide_eq_true (List.mem_filter.mp hmem).2
      omega
    have hAnodup : A.Nodup := (List.nodup_append.mp hinv.tiles.nodup).2.1.of_map _
    obtain ⟨L', hinv'⟩ := hinv.free_region (hlive va hva hle) htop hs
    refine ⟨L', A.erase va, ?_, fun a ha hle' => ?_, hnodup.erase va⟩
    · show h'.Inv L' (A.erase va) ((s.live.erase va).filter _)
      rw [herase, List.erase_of_not_mem hnotblock]
      exact hinv'
    · obtain ⟨hne, ha⟩ := hnodup.mem_erase_iff.mp ha
      exact (List.mem_erase_of_ne hne).mpr (hlive a ha hle')
  · have hblock : va ∈ s.live.filter (· < 2181042176) := List.mem_filter.mpr ⟨hva, by simpa using hle⟩
    refine ⟨L, A, ?_, fun a ha hle' => hlive a (List.mem_of_mem_erase ha) hle', hnodup.erase va⟩
    show h'.Inv L A ((s.live.erase va).filter _)
    rw [herase]
    exact hinv.free_block hops hblock hs

theorem Inv.step {e : UHeapEvent} (hops : ops.Local) (hi : Inv s) (hsafe : Safe s e) (hs : s.step ops e = some t) :
    Inv t := by
  cases e with
  | free va =>
    obtain ⟨hva, hs⟩ := Option.ite_none_right_eq_some.mp hs
    obtain ⟨h', hfree, rfl⟩ := Option.map_eq_some_iff.mp hs
    exact hi.free hops hva hsafe hfree
  | _ =>
    obtain ⟨L, A, hinv, -⟩ := id hi
    exact hi.call hops hinv.uheapInit hsafe nofun hs

/-- The block allocator after `uheap_init`. -/
def initialBlocks : DynAlloc :=
  (DynAlloc.initializeDynamicAllocator {} userHeapStart (u32 (userHeapStart + dynAllocMaxSize))).getD {}

/-- The heap after `uheap_init`. -/
def initialHeap (w : σ) : UHeap σ :=
  { world := w, firstTimeFlag := false, da := initialBlocks, uheapPageAllocStart := 2181042176,
    uheapPageAllocBreak := 2181042176 }

theorem uheapInit_eq (w : σ) : UHeap.uheapInit { world := w } = some (initialHeap w) := by
  have hd : DynAlloc.initializeDynamicAllocator {} userHeapStart (u32 (userHeapStart + dynAllocMaxSize)) =
      some initialBlocks := by
    obtain ⟨d, hd⟩ : ∃ d, DynAlloc.initializeDynamicAllocator {} userHeapStart (u32 (userHeapStart + dynAllocMaxSize)) =
      some d := ⟨_, rfl⟩
    rw [initialBlocks, hd, Option.getD_some]
  have hend := (DynAlloc.initializeDynamicAllocator_inv (by decide) (by decide) (by decide) (by decide) (by decide) hd).2.2
  rw [UHeap.uheapInit, if_pos rfl]
  show Option.map _ (DynAlloc.initializeDynamicAllocator {} _ _) = _
  rw [hd, Option.map_some, hend]
  rfl

/-- The first call initialises the heap and then behaves as on an initialised one. -/
theorem Inv.first_step {w : σ} {e : UHeapEvent} (hops : ops.Local) (hsafe : Safe ⟨{ world := w }, []⟩ e)
    (hs : UProcess.step ops ⟨{ world := w }, []⟩ e = some t) : Inv t := by
  have hinv : Inv ⟨initialHeap w, []⟩ := ⟨_, _, UHeap.uheapInit_inv (uheapInit_eq w), nofun, List.nodup_nil⟩
  cases e with
  | free va => simp [UProcess.step] at hs
  | _ => exact hinv.call hops (uheapInit_eq w) hsafe nofun hs

theorem noOverlap_init (w : σ) : NoOverlap ⟨{ world := w }, []⟩ where
  live_apart := List.Pairwise.nil
  live_inside := nofun
  break_le := Nat.zero_le _
  free := ⟨fun _ => [], ⟨fun _ => spelled_nil, fun _ => rfl, fun _ => List.nodup_nil, nofun⟩, List.Pairwise.nil, nofun⟩

theorem inv_reach (hops : ops.Local) {w : σ} (hr : Reach (step ops) Safe ⟨{ world := w }, []⟩ s) :
    s = ⟨{ world := w }, []⟩ ∨ Inv s := by
  refine hr.invariant (I := fun s => s = ⟨{ world := w }, []⟩ ∨ Inv s) (.inl rfl) ?_
  rintro s e t (rfl | hi) hsafe hs
  · exact .inr (Inv.first_step hops hsafe hs)
  · exact .inr (hi.step hops hsafe hs)

/-- In every run whose steps are safe the regions of the heap do not overlap. -/
theorem uheap_noOverlap (hops : ops.Local) {w : σ} (hr : Reach (step ops) Safe ⟨{ world := w }, []⟩ s) : NoOverlap s := by
  rcases inv_reach hops hr with rfl | hi
  · exact noOverlap_init w
  · exact hi.noOverlap

/-- The first `malloc` of a run. -/
theorem malloc_first (ops : PageOps σ) (w : σ) (size : Nat) :
    step ops ⟨{ world := w }, []⟩ (.malloc size) = step ops ⟨initialHeap w, []⟩ (.malloc size) := by
  simp only [step, UHeap.malloc, uheapInit_eq]
  rfl

/-- Two regions are allocated and the lower one is freed. -/
theorem uheap_noOverlap_free_lower : ∃ s : UProcess Unit,
    Reach (step BlockClient.residentPages) Safe ⟨{ world := () }, []⟩ s ∧ s.live = [2181050368] ∧ NoOverlap s := by
  have h₁ : Reach (step BlockClient.residentPages) Safe ⟨{ world := () }, []⟩ _ :=
    .step (.malloc 8192) .init (Nat.le_of_ble_eq_true rfl) ((malloc_first _ () 8192).trans rfl)
  have h₂ := h₁.step (.malloc 4096) (Nat.le_of_ble_eq_true rfl) rfl
  have h₃ := h₂.step (UHeapEvent.free 2181042176) (fun _ => by decide) rfl
  exact ⟨_, h₃, rfl, uheap_noOverlap BlockClient.residentPages_local h₃⟩

/-- A region is freed that ends at the break: the break is lowered but the region stays in the free list, where it
    is found again after the break has been raised over it. Two live pointers are then the same address. -/
theorem uheap_overlap : ∃ s : UProcess Unit,
    Reach (step BlockClient.residentPages) (fun _ _ => True) ⟨{ world := () }, []⟩ s ∧
      s.live = [2181046272, 2181046272, 2181042176] ∧ ¬ NoOverlap s := by
  have h₁ : Reach (step BlockClient.residentPages) (fun _ _ => True) ⟨{ world := () }, []⟩ _ :=
    .step (.malloc 4096) .init trivial ((malloc_first _ () 4096).trans rfl)
  have h₂ := h₁.step (.malloc 8192) trivial rfl
  have h₃ := h₂.step (.free 2181046272) trivial rfl
  have h₄ := h₃.step (.malloc 12288) trivial rfl
  have hr := h₄.step (.malloc 8192) trivial rfl
  refine ⟨_, hr, by decide +kernel, fun hno => absurd hno.live_apart (by decide +kernel)⟩

end UProcess

end Fos.Heap
