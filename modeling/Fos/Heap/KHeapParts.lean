import Fos.Heap.KHeap
import Fos.Heap.DynAllocInv

/-! The parts of the kernel heap: the list of the allocated regions, the mapping of the pages of a region, and the
    block allocator on pages that are mapped when it needs them. -/

namespace Fos.Heap
open Lib Mem

namespace Bulks

variable {s : Bulks} {L : BulkList → List Nat} {b : Nat}

theorem pushAllocated_spells (h : s.Spells L) (hb : ∀ j, b ∉ L j) (start size : Nat) :
    (s.pushAllocated b start size).Spells (Function.update L .allocated (b :: L .allocated)) := by
  have hfirst := h.first .allocated
  cases hl : L .allocated with
  | nil =>
    rw [hl] at hfirst
    refine h.insert (a := []) (b := []) hl hb ?_ (fun j hj => ?_) ?_ fun x hx => ?_ <;>
      simp_all [pushAllocated, setStart, setSize]
  | cons c r =>
    rw [hl] at hfirst
    have hcb : c ≠ b := fun hcb => hb .allocated (by simp [hl, hcb])
    refine h.insert (a := []) (b := c :: r) hl hb ?_ (fun j hj => ?_) ?_ fun x hx => ?_
    · simp [pushAllocated, setStart, setSize, hfirst]
    · simp [pushAllocated, setStart, setSize, hfirst, hj]
    · simp [pushAllocated, setStart, setSize, hfirst, hcb.symm]
    · by_cases hxc : x = c
      · simp [pushAllocated, setStart, setSize, hfirst, hxc, hcb]
      · simp [pushAllocated, setStart, setSize, hfirst, hx, hxc, Ne.symm hxc]

theorem pushAllocated_fields (s : Bulks) (b start size : Nat) :
    (s.pushAllocated b start size).start = Function.update s.start b start ∧
      (s.pushAllocated b start size).size = Function.update s.size b size := by
  unfold pushAllocated
  simp only
  split <;> exact ⟨rfl, rfl⟩

theorem unlinkAllocated_spells (h : s.Spells L) (hb : b ∈ L .allocated) :
    (s.unlinkAllocated b).Spells (Function.update L .allocated ((L .allocated).erase b)) := by
  obtain ⟨m, r, -, hL, herase⟩ := List.exists_erase_eq hb
  rw [herase]
  have hnext := (hL ▸ h.spelled .allocated).next_of_split
  have hprev := (hL ▸ h.spelled .allocated).prev_of_split
  have hnodup : (m ++ b :: r).Nodup := hL ▸ h.nodup .allocated
  have hmb : ∀ p ∈ m, p ≠ b := fun p hp hpb => ne_of_nodup_append (b := b :: r) hnodup hp (by simp [hpb])
  have hrb : ∀ p ∈ r, p ≠ b := by
    rintro p hp rfl
    exact (List.nodup_cons.mp (List.nodup_append.mp hnodup).2.1).1 hp
  have hmr : ∀ p ∈ m, p ∉ r := fun p hp hp' => ne_of_nodup_append (b := b :: r) hnodup hp (by simp [hp'])
  have hfirst := h.first .allocated
  rw [hL] at hfirst
  rcases List.eq_nil_or_concat m with rfl | ⟨m', p, rfl⟩
  · cases r with
    | nil => refine h.unlink hL ?_ (fun j hj => ?_) fun x hx => ?_ <;> simp_all [unlinkAllocated]
    | cons c r =>
      have hcb := hrb c (by simp)
      refine h.unlink hL ?_ (fun j hj => ?_) fun x hx => ?_
      · simp [unlinkAllocated, hnext, hprev, hfirst, hcb.symm]
      · simp [unlinkAllocated, hnext, hprev, hfirst, hj]
      · by_cases hxc : x = c
        · simp [unlinkAllocated, hnext, hprev, hfirst, hxc]
        · simp [unlinkAllocated, hnext, hprev, hfirst, hxc, Ne.symm hxc]
  · rw [List.concat_eq_append] at *
    have hpb := hmb p (by simp)
    have hfirst' : s.first .allocated = (m' ++ [p]).head? ∧ (m' ++ [p]).head? ≠ some b := by
      refine ⟨?_, fun hb => hmb b (List.mem_of_head? hb) rfl⟩
      rw [hfirst]
      cases m' <;> rfl
    have hhead : ∀ r : List Nat, (m' ++ [p] ++ r).head? = (m' ++ [p]).head? := by
      intro r
      cases m' <;> rfl
    rw [List.getLast?_concat] at hprev
    cases r with
    | nil =>
      refine h.unlink hL ?_ (fun j hj => ?_) fun x hx => ?_
      · simp only [unlinkAllocated, hprev, link_setNext, if_neg hpb.symm, hnext, List.head?_nil, first_setNext]
        rw [if_neg (hfirst'.1 ▸ hfirst'.2), hhead]
        exact hfirst'.1
      · simp only [unlinkAllocated, hprev, link_setNext, if_neg hpb.symm, hnext, List.head?_nil, first_setNext]
        rw [if_neg (hfirst'.1 ▸ hfirst'.2)]
        rfl
      · simp only [unlinkAllocated, hprev, link_setNext, if_neg hpb.symm, hnext, List.head?_nil, first_setNext]
        rw [if_neg (hfirst'.1 ▸ hfirst'.2)]
        by_cases hxp : x = p
        · simp [hxp]
        · simp [hxp, Ne.symm hxp]
    | cons c r =>
      have hpc : p ≠ c := fun hpc => hmr p (by simp) (by simp [hpc])
      refine h.unlink hL ?_ (fun j hj => ?_) fun x hx => ?_
      · simp only [unlinkAllocated, hprev, link_setNext, if_neg hpb.symm, hnext, List.head?_cons, first_setNext,
          first_setPrev]
        rw [if_neg (hfirst'.1 ▸ hfirst'.2), hhead]
        exact hfirst'.1
      · simp only [unlinkAllocated, hprev, link_setNext, if_neg hpb.symm, hnext, List.head?_cons, first_setNext,
          first_setPrev]
        rw [if_neg (hfirst'.1 ▸ hfirst'.2)]
        rfl
      · simp only [unlinkAllocated, hprev, link_setNext, if_neg hpb.symm, hnext, List.head?_cons, first_setNext,
          first_setPrev]
        rw [if_neg (hfirst'.1 ▸ hfirst'.2)]
        by_cases hxp : x = p
        · simp [hxp, hpc, hpc.symm]
        · by_cases hxc : x = c
          · simp [hxc, hpc, hpc.symm]
          · simp [hxp, hxc, Ne.symm hxp, Ne.symm hxc]

theorem unlinkAllocated_fields (s : Bulks) (b : Nat) :
    (s.unlinkAllocated b).start = s.start ∧ (s.unlinkAllocated b).size = s.size := by
  unfold unlinkAllocated
  simp only
  cases (s.link b).prev <;> simp only <;> split <;> split <;> exact ⟨rfl, rfl⟩

/-- The search along a list ends at a node that meets `p`, or no node does. -/
theorem find_spec (h : s.Spells L) (i : BulkList) (hlen : (L i).length < walkFuel) (p : Nat → Bool) :
    (∃ b ∈ L i, p b = true ∧ s.find i p = some (some b)) ∨ (∀ b ∈ L i, p b = false) ∧ s.find i p = some none := by
  obtain ⟨m, r, hL, hm, hr, hwalk⟩ := walk_spelled (a := []) p (h.spelled i) hlen
  rw [← h.first i] at hwalk
  have hfind : s.find i p = some r.head? := congrArg (Option.map Prod.snd) hwalk
  cases r with
  | nil => exact .inr ⟨by simpa [hL] using hm, hfind⟩
  | cons b r => exact .inl ⟨b, by simp [hL], hr b rfl, hfind⟩

end Bulks

/-! ### Mapping and unmapping the pages of a region -/

/-- The entry maps a page of the kernel heap that lies between `lo` and `hi`. -/
def Within (lo hi : Nat) (c : Slot) : Prop := ∃ p : PageNo, c = .kernel p ∧ lo ≤ p.val * 4096 ∧ p.val * 4096 < hi

variable {m m' : Frames} {all F handed : List PageNo} {boot : PageNo → Nat} {va stop lo hi : Nat}

theorem pageNo_val (h : va < 4294967296) : (pageNo va).val = va / 4096 := by
  show va / 4096 % 1048576 = _
  exact Nat.mod_eq_of_lt (by omega)

theorem within_pageNo (h : va < 4294967296) (ha : va % 4096 = 0) :
    Within lo hi (.kernel (pageNo va)) ↔ lo ≤ va ∧ va < hi := by
  have hval := pageNo_val h
  constructor
  · rintro ⟨p, hp, hle, hlt⟩
    cases hp
    omega
  · exact fun hin => ⟨_, rfl, by omega, by omega⟩

/-- The first page of an interval, or one of the others. -/
theorem within_cons {c : Slot} (h : va < stop) (hstop : stop ≤ 4294963200) (ha : va % 4096 = 0) :
    Within va stop c ↔ c = .kernel (pageNo va) ∨ Within (va + 4096) stop c := by
  have hval : (pageNo va).val = va / 4096 := pageNo_val (by omega)
  constructor
  · rintro ⟨p, rfl, hle, hlt⟩
    by_cases hp : p = pageNo va
    · exact .inl (by rw [hp])
    · refine .inr ⟨p, rfl, ?_, hlt⟩
      have hne : p.val ≠ (pageNo va).val := fun h => hp (Fin.ext h)
      omega
  · rintro (rfl | ⟨p, rfl, hle, hlt⟩)
    · exact ⟨_, rfl, by omega, by omega⟩
    · exact ⟨p, rfl, by omega, hlt⟩

/-- What an operation did that maps frames of the list `F`: only entries of `S` changed, which were empty. -/
structure Mapped (m m' : Frames) (F : List PageNo) (S : Slot → Prop) : Prop where
  outside : ∀ c, ¬ S c → m'.hold c = m.hold c
  kept : ∀ c f, m.hold c = some f → m'.hold c = some f
  fresh : ∀ c f, m'.hold c = some f → m.hold c = some f ∨ f ∈ F

namespace Mapped

variable {m₁ : Frames} {F' F₁ : List PageNo} {S S' : Slot → Prop}

theorem refl (m : Frames) (F : List PageNo) (S : Slot → Prop) : Mapped m m F S :=
  ⟨fun _ _ => rfl, fun _ _ h => h, fun _ _ h => .inl h⟩

/-- What is free after frames were mapped was free before. -/
theorem subset (h : Mapped m m' F S) (ha : m.Accounts all boot F handed) (ha' : m'.Accounts all boot F' handed) :
    F' ⊆ F := by
  intro f hf
  obtain ⟨hall, hout, hnone⟩ := (ha'.mem f).mp hf
  exact (ha.mem f).mpr ⟨hall, hout, fun c hc => hnone c (h.kept c f hc)⟩

theorem trans (h : Mapped m m₁ F S) (h' : Mapped m₁ m' F₁ S') (hsub : F₁ ⊆ F) :
    Mapped m m' F fun c => S c ∨ S' c where
  outside := fun c hc => by
    rw [not_or] at hc
    rw [h'.outside c hc.2, h.outside c hc.1]
  kept := fun c f hc => h'.kept c f (h.kept c f hc)
  fresh := fun c f hc => by
    rcases h'.fresh c f hc with hc | hf
    · exact h.fresh c f hc
    · exact .inr (hsub hf)

theorem mono (h : Mapped m m' F S) (hS : ∀ c, S c → S' c) : Mapped m m' F S' :=
  ⟨fun c hc => h.outside c fun hS' => hc (hS c hS'), h.kept, h.fresh⟩

/-- One empty entry takes a free frame. -/
theorem single {c : Slot} {f : PageNo} (hc : m.hold c = none) (hf : f ∈ F)
    (hhold : m'.hold = Function.update m.hold c (some f)) : Mapped m m' F (· = c) := by
  have hother : ∀ x, x ≠ c → m'.hold x = m.hold x := fun x hx => by rw [hhold, Function.update_of_ne hx]
  refine ⟨hother, fun x g hx => ?_, fun x g hx => ?_⟩
  · rwa [hother x (fun heq => by rw [heq, hc] at hx; exact nomatch hx)]
  · by_cases hxc : x = c
    · rw [hxc, hhold, Function.update_self] at hx
      exact .inr (Option.some.inj hx ▸ hf)
    · exact .inl (hother x hxc ▸ hx)

end Mapped

theorem mapFrameRange_spec {fuel : Nat} (h : m.Accounts all boot F handed) (hva : va % 4096 = 0)
    (hstop : stop % 4096 = 0) (hmax : stop ≤ kernelHeapMax) (hfree : ∀ c, Within va stop c → m.hold c = none)
    (hs : mapFrameRange m va stop fuel = some m') :
    ∃ F', m'.Accounts all boot F' handed ∧ Mapped m m' F (Within va stop) ∧ ∀ c, Within va stop c → m'.hold c ≠ none := by
  simp only [kernelHeapMax] at hmax
  induction fuel generalizing m va F with
  | zero => cases hs
  | succ fuel ih =>
    unfold mapFrameRange at hs
    split at hs
    case isTrue hlt =>
      obtain ⟨m₁, hm₁, hs⟩ := Option.bind_eq_some_iff.mp hs
      have hwithin := fun c => @within_cons va stop c hlt hmax hva
      have hnone : m.hold (.kernel (pageNo va)) = none := hfree _ ((hwithin _).mpr (.inl rfl))
      obtain ⟨f, hf, F₁, h₁, hhold⟩ := h.mapNewFrame (by decide) (fun _ => rfl) hm₁
      have hone := Mapped.single hnone hf hhold
      rw [pageSize, u32_of_lt (by omega)] at hs
      have hfirst : ∀ c, Within (va + 4096) stop c → c ≠ .kernel (pageNo va) := by
        rintro c hc rfl
        rw [within_pageNo (by omega) hva] at hc
        omega
      have hfree₁ : ∀ c, Within (va + 4096) stop c → m₁.hold c = none := fun c hc => by
        rw [hone.outside c (hfirst c hc)]
        exact hfree c ((hwithin c).mpr (.inr hc))
      obtain ⟨F', h', hmapped, hall⟩ := ih h₁ (by omega) hfree₁ hs
      refine ⟨F', h', (hone.trans hmapped (hone.subset h h₁)).mono fun c => (hwithin c).mpr, fun c hc => ?_⟩
      rcases (hwithin c).mp hc with rfl | hc
      · rw [hmapped.kept _ f (by rw [hhold, Function.update_self])]
        exact Option.some_ne_none f
      · exact hall c hc
    case isFalse hle =>
      cases hs
      refine ⟨F, h, .refl _ _ _, ?_⟩
      rintro c ⟨p, -, hle', hlt⟩
      omega

theorem unmapFrameRange_spec {fuel : Nat} (h : m.Accounts all boot F handed) (hva : va % 4096 = 0)
    (hstop : stop % 4096 = 0) (hmax : stop ≤ kernelHeapMax) (hs : unmapFrameRange m va stop fuel = some m') :
    ∃ F', m'.Accounts all boot F' handed ∧ (∀ c, Within va stop c → m'.hold c = none) ∧
      ∀ c, ¬ Within va stop c → m'.hold c = m.hold c := by
  simp only [kernelHeapMax] at hmax
  induction fuel generalizing m va F with
  | zero => cases hs
  | succ fuel ih =>
    unfold unmapFrameRange at hs
    split at hs
    case isTrue hlt =>
      obtain ⟨m₁, F₁, hm₁, h₁, hhold⟩ := h.unmapFrame (.kernel (pageNo va))
      rw [hm₁, Option.bind_some, pageSize, u32_of_lt (by omega)] at hs
      have hwithin := fun c => @within_cons va stop c hlt hmax hva
      have hfirst : ¬ Within (va + 4096) stop (.kernel (pageNo va)) := by
        rw [within_pageNo (by omega) hva]
        omega
      obtain ⟨F', h', hin, hout⟩ := ih h₁ (by omega) hs
      refine ⟨F', h', fun c hc => ?_, fun c hc => ?_⟩
      · rcases (hwithin c).mp hc with rfl | hc
        · rw [hout _ hfirst, hhold, Function.update_self]
        · exact hin c hc
      · rw [hwithin, not_or] at hc
        rw [hout c hc.2, hhold, Function.update_of_ne hc.1]
    case isFalse hle =>
      cases hs
      refine ⟨F, h, ?_, fun _ _ => rfl⟩
      rintro c ⟨p, -, hle', hlt⟩
      omega

/-! ### The block allocator of the kernel -/

theorem roundDown_self (h : va % 4096 = 0) : roundDown va pageSize = va := by
  simp only [roundDown, pageSize]
  omega

theorem kernelPages_local : kernelPages.Local where
  getPage := by
    intro w link va w' link' hget a ha
    obtain ⟨⟨w₁, fresh⟩, -, heq⟩ := Option.map_eq_some_iff.mp hget
    simp only [Prod.mk.injEq] at heq
    have hne : ¬ (roundDown va pageSize ≤ a ∧ a < roundDown va pageSize + pageSize) := by
      simp only [roundDown, pageSize]
      omega
    rw [← heq.2]
    cases fresh
    · rfl
    · exact if_neg hne
  returnPage := by
    intro w link va w' link' hret a _
    obtain ⟨w₁, -, heq⟩ := Option.map_eq_some_iff.mp hret
    simp only [Prod.mk.injEq] at heq
    rw [heq.2]

/-- The pages of the block allocator. -/
abbrev BlockArea : Slot → Prop := Within 4127195136 4160749568

/-- The entry of page `i` of the block allocator. -/
def blockSlot (i : Nat) : Slot := .kernel (pageNo (kernelHeapStart + i * 4096))

theorem blockSlot_within {i : Nat} (hi : i < 8192) : BlockArea (blockSlot i) := by
  simp only [BlockArea, blockSlot, kernelHeapStart]
  rw [within_pageNo (by omega) (by omega)]
  omega

theorem blockSlot_inj {i j : Nat} (hi : i < 8192) (hj : j < 8192) (h : blockSlot i = blockSlot j) : i = j := by
  simp only [blockSlot, kernelHeapStart, Slot.kernel.injEq, Fin.ext_iff] at h
  rw [pageNo_val (by omega), pageNo_val (by omega)] at h
  omega

namespace KHeap

/-- The block allocator with the blocks `out` handed out. Its pages in use are those that are mapped. -/
structure Blocks (s : KHeap) (out : List Nat) : Prop where
  dyn_start : s.da.dynAllocStart = kernelHeapStart
  dyn_end : s.da.dynAllocEnd = 4160749568
  inv : ∃ cls free freePages, s.da.Inv cls free freePages out ∧ ∀ i < 8192, s.mem.hold (blockSlot i) = none ↔ cls i = none

variable {s s' : KHeap} {out : List Nat} {size b : Nat}

theorem Blocks.perm {out' : List Nat} (h : Blocks s out) (hp : out.Perm out') : Blocks s out' := by
  obtain ⟨cls, free, freePages, hinv, hmapped⟩ := h.inv
  exact ⟨h.dyn_start, h.dyn_end, cls, free, freePages, hinv.perm hp, hmapped⟩

/-- What happens outside the pages of the block allocator does not matter. -/
theorem Blocks.congr (h : Blocks s out) (hda : s'.da = s.da) (hhold : ∀ c, BlockArea c → s'.mem.hold c = s.mem.hold c) :
    Blocks s' out := by
  obtain ⟨cls, free, freePages, hinv, hmapped⟩ := h.inv
  refine ⟨hda ▸ h.dyn_start, hda ▸ h.dyn_end, cls, free, freePages, hda ▸ hinv, fun i hi => ?_⟩
  rw [hhold _ (blockSlot_within hi)]
  exact hmapped i hi

theorem Blocks.nodup (h : Blocks s out) : out.Nodup := by
  obtain ⟨cls, free, freePages, hinv, -⟩ := h.inv
  exact hinv.tiled.out_nodup

theorem Blocks.bounds (h : Blocks s out) (hb : b ∈ out) : kernelHeapStart ≤ b ∧ b < 4160749568 := by
  obtain ⟨cls, free, freePages, hinv, -⟩ := h.inv
  obtain ⟨c, hcls, hslot⟩ := hinv.tiled.cls_of_handed hb
  have hbounds := hinv.toRep.slot_bounds hcls hslot
  have := (blockSize_le c).1
  rw [h.dyn_start, h.dyn_end] at hbounds
  exact ⟨hbounds.1, by omega⟩

theorem Blocks.length_lt (h : Blocks s out) : out.length < walkFuel := by
  have hsub : out.Subperm (List.range 4160749568) :=
    h.nodup.subperm fun x hx => List.mem_range.mpr (h.bounds hx).2
  have := hsub.length_le
  rw [List.length_range] at this
  simp only [walkFuel]
  omega

theorem Blocks.totalPages (h : Blocks s out) : s.da.totalPages = 8192 := by
  rw [DynAlloc.totalPages, h.dyn_start, h.dyn_end]
  rfl

/-- A page of the block allocator that was not mapped gets a frame. -/
theorem gotPage_spec {i : Nat} (ha : m.Accounts all boot F handed) (hnone : m.hold (blockSlot i) = none)
    (hgot : DynAlloc.GotPage kernelPages kernelHeapStart m m' i) :
    (∃ F', m'.Accounts all boot F' handed) ∧ ∃ f ∈ F, m'.hold = Function.update m.hold (blockSlot i) (some f) := by
  obtain ⟨link, link', hget⟩ := hgot
  obtain ⟨⟨m₁, fresh⟩, halloc, heq⟩ := Option.map_eq_some_iff.mp hget
  simp only [Prod.mk.injEq] at heq
  obtain ⟨rfl, -⟩ := heq
  have hbase : roundDown ((slabs kernelHeapStart).base i) pageSize = kernelHeapStart + i * 4096 :=
    roundDown_self (by show (kernelHeapStart + i * 4096) % 4096 = 0; simp only [kernelHeapStart]; omega)
  rw [hbase] at halloc
  rcases ha.allocPage (by decide) (fun _ => rfl) halloc with ⟨rfl, hhold⟩ | ⟨-, f, hf, F', ha', hhold⟩
  · exact absurd hnone hhold
  · exact ⟨⟨F', ha'⟩, f, hf, hhold⟩

theorem returnedPage_spec {i : Nat} (ha : m.Accounts all boot F handed)
    (hret : DynAlloc.ReturnedPage kernelPages kernelHeapStart m m' i) :
    (∃ F', m'.Accounts all boot F' handed) ∧ m'.hold = Function.update m.hold (blockSlot i) none := by
  obtain ⟨link, link', hret⟩ := hret
  obtain ⟨m₁, hunmap, heq⟩ := Option.map_eq_some_iff.mp hret
  simp only [Prod.mk.injEq] at heq
  obtain ⟨rfl, -⟩ := heq
  have hbase : roundDown ((slabs kernelHeapStart).base i) pageSize = kernelHeapStart + i * 4096 :=
    roundDown_self (by show (kernelHeapStart + i * 4096) % 4096 = 0; simp only [kernelHeapStart]; omega)
  rw [hbase] at hunmap
  obtain ⟨m₂, F', hm₂, ha', hhold⟩ := ha.unmapFrame (.kernel (pageNo (kernelHeapStart + i * 4096)))
  cases hm₂.symm.trans hunmap
  exact ⟨⟨F', ha'⟩, hhold⟩

theorem Blocks.allocBlock (h : Blocks s out) (ha : s.mem.Accounts all boot F handed) (hpos : 0 < size)
    (hs : s.allocBlock size = some (s', va)) : ∃ m d, s' = { s with mem := m, da := d } ∧
      (∃ F', m.Accounts all boot F' handed) ∧ Blocks s' (va :: out) ∧ Mapped s.mem m F BlockArea := by
  obtain ⟨⟨m, d, va'⟩, halloc, heq⟩ := Option.map_eq_some_iff.mp hs
  simp only [Prod.mk.injEq] at heq
  obtain ⟨rfl, rfl⟩ := heq
  obtain ⟨cls, free, freePages, hinv, hmapped⟩ := h.inv
  have hdone := hinv.allocBlock kernelPages_local hpos halloc
  have hstart := hdone.start_eq.trans h.dyn_start
  have hend := hdone.end_eq.trans h.dyn_end
  obtain ⟨cls', free', freePages', hinv', ⟨rfl, rfl⟩ | ⟨i, c, hi, hnone, rfl, hgot⟩⟩ := hdone.inv
  · exact ⟨_, d, rfl, ⟨F, ha⟩, ⟨hstart, hend, cls', free', freePages', hinv', hmapped⟩, .refl _ _ _⟩
  · rw [h.totalPages] at hi
    rw [h.dyn_start] at hgot
    have hempty := (hmapped i hi).mpr hnone
    obtain ⟨hF', f, hf, hhold⟩ := gotPage_spec ha hempty hgot
    refine ⟨m, d, rfl, hF', ⟨hstart, hend, _, free', freePages', hinv', fun j hj => ?_⟩, ?_⟩
    · show m.hold (blockSlot j) = none ↔ _
      rw [hhold]
      by_cases hji : j = i
      · simp [hji]
      · rw [Function.update_of_ne hji, Function.update_of_ne fun heq => hji (blockSlot_inj hj hi heq)]
        exact hmapped j hj
    · exact (Mapped.single hempty hf hhold).mono fun c hc => hc ▸ blockSlot_within hi

theorem Blocks.freeBlock (h : Blocks s out) (ha : s.mem.Accounts all boot F handed) (hb : b ∈ out)
    (hs : s.freeBlock b = some s') : ∃ m d, s' = { s with mem := m, da := d } ∧
      (∃ F', m.Accounts all boot F' handed) ∧ Blocks s' (out.erase b) ∧
      (∀ c, ¬ BlockArea c → m.hold c = s.mem.hold c) ∧ ∀ c f, m.hold c = some f → s.mem.hold c = some f := by
  obtain ⟨⟨m, d⟩, hfree, rfl⟩ := Option.map_eq_some_iff.mp hs
  obtain ⟨cls, free, freePages, hinv, hmapped⟩ := h.inv
  have hdone := hinv.freeBlock kernelPages_local hb hfree
  have hstart := hdone.start_eq.trans h.dyn_start
  have hend := hdone.end_eq.trans h.dyn_end
  obtain ⟨cls', free', freePages', hinv', ⟨rfl, rfl⟩ | ⟨i, c, hcls, rfl, hret⟩⟩ := hdone.inv
  · exact ⟨_, d, rfl, ⟨F, ha⟩, ⟨hstart, hend, cls', free', freePages', hinv', hmapped⟩, fun _ _ => rfl, fun _ _ h => h⟩
  · have hi : i < 8192 := h.totalPages ▸ hinv.used_page i c hcls
    rw [h.dyn_start] at hret
    obtain ⟨hF', hhold⟩ := returnedPage_spec ha hret
    refine ⟨m, d, rfl, hF', ⟨hstart, hend, _, free', freePages', hinv', fun j hj => ?_⟩, fun x hx => ?_, fun x f hx => ?_⟩
    · show m.hold (blockSlot j) = none ↔ _
      rw [hhold]
      by_cases hji : j = i
      · simp [hji]
      · rw [Function.update_of_ne hji, Function.update_of_ne fun heq => hji (blockSlot_inj hj hi heq)]
        exact hmapped j hj
    · have hne : x ≠ blockSlot i := fun heq => hx (heq ▸ blockSlot_within hi)
      rw [hhold, Function.update_of_ne hne]
    · rw [hhold] at hx
      by_cases hne : x = blockSlot i
      · rw [hne, Function.update_self] at hx
        exact nomatch hx
      · rwa [Function.update_of_ne hne] at hx

/-- A block that is out can always be freed. -/
theorem Blocks.freeBlock_some (h : Blocks s out) (ha : s.mem.Accounts all boot F handed) (hb : b ∈ out) :
    ∃ s', s.freeBlock b = some s' := by
  obtain ⟨cls, free, freePages, hinv, -⟩ := h.inv
  have hret : ∀ link i c, cls i = some c → ∃ r, kernelPages.returnPage s.mem link ((slabs s.da.dynAllocStart).base i) = some r := by
    intro link i c _
    obtain ⟨m, -, hm, -⟩ := ha.unmapFrame (.kernel (pageNo (roundDown ((slabs s.da.dynAllocStart).base i) pageSize)))
    exact ⟨(m, link), congrArg (Option.map (·, link)) hm⟩
  obtain ⟨r, hr⟩ := hinv.freeBlock_some hb (by rw [h.dyn_start]; decide) hret
  exact ⟨_, congrArg (Option.map _) hr⟩

end KHeap

end Fos.Heap
