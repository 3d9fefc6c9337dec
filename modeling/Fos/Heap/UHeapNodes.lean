import Fos.Heap.UHeapLimits

/-! The nodes of the free regions. `merge_bulks` takes a node of `free_nodes` for a region that adjoins no free region, and
    a node that leaves the list is never taken again: an allocation that fits exactly loses one, and so does a region that
    is freed between two free ones. The nodes taken are therefore those in the list and the lost ones. -/

namespace Fos.Heap
open Lib

namespace UHeap

variable {σ : Type} {h h' : UHeap σ} {L : BulkList → List Nat} {out : List Nat} {n va : Nat}

/-- The first loop of `user_page_alloc_custom_fit` finds a free region of `n` bytes. -/
def takesWhole (h : UHeap σ) (n : Nat) : Bool :=
  (walk h.bulks.next (fun b => h.bulks.size b = n) walkFuel none (h.bulks.first .free)).any (·.2.isSome)

theorem Limited.takesWhole_iff (hl : Limited h L out) : h.takesWhole n = true ↔ ∃ b ∈ L .free, h.bulks.size b = n := by
  obtain ⟨m, r, hL, hm, hstop, hwalk⟩ := walk_spelled (a := []) (fun b => h.bulks.size b = n) (hl.spells.spelled .free)
    hl.length_lt
  rw [← hl.spells.first .free] at hwalk
  unfold takesWhole
  rw [show walk h.bulks.next _ walkFuel none _ = _ from hwalk, hL]
  cases r with
  | nil =>
    refine iff_of_false nofun ?_
    rintro ⟨b, hb, hsize⟩
    rw [List.append_nil] at hb
    simpa [hsize] using hm b hb
  | cons b r => exact iff_of_true rfl ⟨b, List.mem_append_right _ (List.mem_cons_self ..), by simpa using hstop b rfl⟩

theorem extendBreak_kept (h : UHeap σ) (n : Nat) : (h.extendBreak n).1.bulks = h.bulks ∧
    (h.extendBreak n).1.freeNodesIndex = h.freeNodesIndex ∧ (h.extendBreak n).1.world = h.world := by
  unfold UHeap.extendBreak
  split
  · exact ⟨rfl, rfl, rfl⟩
  · split
    · exact ⟨rfl, rfl, rfl⟩
    · split <;> exact ⟨rfl, rfl, rfl⟩

/-- A request takes no node, and one leaves the list when a region is taken whole. -/
theorem Limited.placement_nodes (hl : Limited h L out) {r : UHeap σ × Nat} (hplace : Placement h L n r) :
    ∃ L', r.1.bulks.Spells L' ∧ r.1.freeNodesIndex = h.freeNodesIndex ∧
      (L' .free).length + (h.takesWhole n).toNat = (L .free).length := by
  have hkeeps : (∀ b ∈ L .free, h.bulks.size b ≠ n) → h.takesWhole n = false := fun hmiss =>
    Bool.eq_false_iff.mpr fun htrue => by
      obtain ⟨b, hb, hsize⟩ := hl.takesWhole_iff.mp htrue
      exact hmiss b hb hsize
  cases hplace with
  | @whole b hb hsize =>
    refine ⟨_, Bulks.removeBulk_spells hl.spells hb, rfl, ?_⟩
    rw [hl.takesWhole_iff.mpr ⟨b, hb, hsize⟩, Function.update_self, List.length_erase_of_mem hb]
    exact Nat.sub_add_cancel (List.length_pos_of_mem hb)
  | front hmiss hf hlt ht =>
    obtain ⟨t, l, ht', hperm, hspells, -⟩ := hl.takeFront (hl.spells.mem_of_first hf) hlt
    cases ht.symm.trans ht'
    refine ⟨_, hspells, rfl, ?_⟩
    rw [hkeeps hmiss, Function.update_self, hperm.length_eq]
    rfl
  | above hno =>
    obtain ⟨hbulks, hidx, -⟩ := extendBreak_kept h n
    refine ⟨L, hbulks ▸ hl.spells, hidx, ?_⟩
    rw [hkeeps hno.1]
    rfl

/-- Every node taken is in the list or lost. -/
def Balanced (h : UHeap σ) (lost : Nat) : Prop := ∃ L, h.bulks.Spells L ∧ h.freeNodesIndex = (L .free).length + lost

theorem Balanced.congr {lost : Nat} (hb : h.Balanced lost) (hbulks : h'.bulks = h.bulks)
    (hidx : h'.freeNodesIndex = h.freeNodesIndex) : h'.Balanced lost := by
  unfold Balanced
  rw [hbulks, hidx]
  exact hb

theorem Limited.balanced_iff {lost : Nat} (hl : Limited h L out) :
    h.Balanced lost ↔ h.freeNodesIndex = (L .free).length + lost := by
  constructor
  · rintro ⟨L', hspells, hidx⟩
    rw [hidx, hspells.unique hl.spells]
  · exact fun hidx => ⟨L, hl.spells, hidx⟩

theorem Limited.balanced_request {lost : Nat} (hl : Limited h L out) (hb : h.Balanced lost)
    (hs : h.userPageAllocCustomFit n = some (h', va)) : h'.Balanced (lost + (h.takesWhole n).toNat) := by
  obtain ⟨r, hr, hplace⟩ := hl.placement n
  cases hs.symm.trans hr
  obtain ⟨L', hspells, hidx, hlength⟩ := hl.placement_nodes hplace
  have hidx' := hl.balanced_iff.mp hb
  exact ⟨L', hspells, by dsimp only at hidx; omega⟩

theorem Limited.balanced_merge {lost : Nat} (hl : Limited h L out) (hb : h.Balanced lost) (hm : Merged h L out va n (some h')) :
    h'.Balanced (lost + (h.between va n).toNat) := by
  cases hm with
  | done hl' _ hcount =>
    have hidx := hl.balanced_iff.mp hb
    exact hl'.balanced_iff.mpr (by omega)

end UHeap

namespace UProcess

variable {σ : Type} {s t : UProcess σ} {ops : PageOps σ} {h : UHeap σ}

/-- The calls after which a node is never used again. -/
def losesNode (s : UProcess σ) : UHeapEvent → Bool
  | .free va =>
    let size := s.heap.allocationSizes (UHeap.sizeIndex va)
    s.heap.uheapPageAllocStart ≤ va && size ≠ 0 && s.heap.between va size
  | e => (pageRequest e).any s.heap.takesWhole

/-- A process and the number of calls so far that lost a node. -/
structure Counted (σ : Type) where
  proc : UProcess σ
  lost : Nat := 0

def Counted.step (ops : PageOps σ) (c : Counted σ) (e : UHeapEvent) : Option (Counted σ) :=
  (c.proc.step ops e).map fun p => ⟨p, c.lost + (c.proc.losesNode e).toNat⟩

theorem uheapInit_bulks (hinit : s.heap.uheapInit = some h) :
    h.bulks = s.heap.bulks ∧ h.freeNodesIndex = s.heap.freeNodesIndex := by
  unfold UHeap.uheapInit at hinit
  split at hinit
  case isTrue =>
    obtain ⟨d, -, rfl⟩ := Option.map_eq_some_iff.mp hinit
    exact ⟨rfl, rfl⟩
  case isFalse =>
    cases hinit
    exact ⟨rfl, rfl⟩

/-- What a call other than `free` does to the regions: nothing, or what the page allocator does. -/
theorem call_request {e : UHeapEvent} (hinit : s.heap.uheapInit = some h) (hcall : ∀ va, e ≠ .free va)
    (hs : s.step ops e = some t) :
    pageRequest e = none ∧ t.heap.bulks = h.bulks ∧ t.heap.freeNodesIndex = h.freeNodesIndex ∨
      ∃ n va, pageRequest e = some n ∧ h.userPageAllocCustomFit n = some (t.heap, va) := by
  cases step_called hinit hcall hs with
  | null hreq => exact .inl ⟨hreq, rfl, rfl⟩
  | block hreq => exact .inl ⟨hreq, rfl, rfl⟩
  | pages hreq hfit => exact .inr ⟨_, _, hreq, hfit⟩

theorem free_block_eq {va : Nat} (hstart : s.heap.uheapPageAllocStart = 2181042176) (hlow : 2147483648 ≤ va)
    (hblock : va < 2181042176) :
    s.heap.free ops va = (DynAlloc.freeBlock ops s.heap.world s.heap.da va).map fun (w, d) =>
      { s.heap with world := w, da := d } := by
  have hmax : userHeapMax = 2684354560 := rfl
  have hmin : userHeapStart = 2147483648 := rfl
  unfold UHeap.free
  rw [if_neg (by omega), if_pos (by omega)]

/-- A step loses a node or none, and the ledger says so. -/
theorem Limited.balanced_free {va lost : Nat} (hl : Limited s) (hva : va ∈ s.live) (hb : s.heap.Balanced lost) {h' : UHeap σ}
    (hs : s.heap.free ops va = some h') : h'.Balanced (lost + (s.losesNode (.free va)).toNat) := by
  obtain ⟨L, hheap, hlive⟩ := hl
  have hstart := hheap.page_start
  rcases Nat.lt_or_ge va 2181042176 with hblock | hpage
  · have hout : va ∈ s.live.filter (· < 2181042176) := List.mem_filter.mpr ⟨hva, decide_eq_true hblock⟩
    rw [free_block_eq hstart (hheap.blocks.bounds hout).1 hblock] at hs
    obtain ⟨r, -, rfl⟩ := Option.map_eq_some_iff.mp hs
    have hnone : s.losesNode (.free va) = false := by
      have hnot : ¬s.heap.uheapPageAllocStart ≤ va := by omega
      simp [losesNode, hnot]
    rw [hnone]
    exact hb.congr rfl rfl
  · obtain ⟨hhigh, ha⟩ := hlive va hva hpage
    have hle : s.heap.uheapPageAllocStart ≤ va := by omega
    rw [hheap.free_page_eq hpage hhigh] at hs
    split at hs
    case isTrue hzero =>
      cases hs
      have hnone : s.losesNode (.free va) = false := by simp [losesNode, hzero]
      rw [hnone]
      exact hb
    case isFalse hne =>
      obtain ⟨h₁, hm, rfl⟩ := Option.map_eq_some_iff.mp hs
      have hbelow := hheap.sizes _ hne
      rw [UHeap.sizeIndex_address hpage hhigh ha] at hbelow
      have hsome : s.losesNode (.free va) = s.heap.between va (s.heap.allocationSizes (UHeap.sizeIndex va)) := by
        simp [losesNode, hle, hne]
      rw [hsome]
      have hmerged := hheap.mergeBulks hbelow
      rw [hm] at hmerged
      exact (hheap.balanced_merge hb hmerged).congr rfl rfl

theorem Limited.balanced_call {e : UHeapEvent} {lost : Nat} (hl : Limited ⟨h, s.live⟩) (hinit : s.heap.uheapInit = some h)
    (hcall : ∀ va, e ≠ .free va) (hb : s.heap.Balanced lost) (hs : s.step ops e = some t) :
    t.heap.Balanced (lost + (s.losesNode e).toNat) := by
  obtain ⟨hbulks, hidx⟩ := uheapInit_bulks hinit
  have hwhole : ∀ n, s.heap.takesWhole n = h.takesWhole n := fun n => by
    unfold UHeap.takesWhole
    rw [hbulks]
  have hb' : h.Balanced lost := hb.congr hbulks hidx
  have hloses : s.losesNode e = (pageRequest e).any h.takesWhole := by
    rw [← funext hwhole]
    cases e with
    | free va => exact absurd rfl (hcall va)
    | _ => rfl
  rw [hloses]
  obtain ⟨L, hheap, -⟩ := hl
  rcases call_request hinit hcall hs with ⟨hreq, hbulks', hidx'⟩ | ⟨n, va, hreq, hfit⟩
  · rw [hreq]
    exact hb'.congr hbulks' hidx'
  · rw [hreq]
    exact hheap.balanced_request hb' hfit

theorem Counted.balanced_step {w : σ} {c c' : Counted σ} {e : UHeapEvent} (hl : LimitedOrNew w c.proc)
    (hb : c.proc.heap.Balanced c.lost) (hs : c.step ops e = some c') : c'.proc.heap.Balanced c'.lost := by
  obtain ⟨p, hp, rfl⟩ := Option.map_eq_some_iff.mp hs
  obtain ⟨s, lost⟩ := c
  rcases hl with rfl | hl
  · cases e with
    | free va => simp [UProcess.step] at hp
    | _ => exact (Limited.initial w).balanced_call (uheapInit_eq w) (fun _ h => by cases h) hb hp
  · cases e with
    | free va =>
      obtain ⟨hva, hp⟩ := Option.ite_none_right_eq_some.mp hp
      obtain ⟨h', hfree, rfl⟩ := Option.map_eq_some_iff.mp hp
      exact hl.balanced_free hva hb hfree
    | _ =>
      obtain ⟨L, hheap, -⟩ := id hl
      exact hl.balanced_call hheap.uheapInit (fun _ h => by cases h) hb hp

theorem Limited.free_some_iff {va : Nat} (hl : Limited s) (ops : PageOps σ) (hva : va ∈ s.pagePointers) :
    ∃ L, s.heap.bulks.Spells L ∧ (s.heap.free ops va ≠ none ↔ (s.heap.allocationSizes (UHeap.sizeIndex va) ≠ 0 →
      s.heap.Isolated L va (s.heap.allocationSizes (UHeap.sizeIndex va)) → s.heap.freeNodesIndex < 2048)) := by
  obtain ⟨L, hheap, hlive⟩ := hl
  obtain ⟨hva, hle⟩ := List.mem_filter.mp hva
  have hpage : 2181042176 ≤ va := hheap.page_start ▸ of_decide_eq_true hle
  obtain ⟨hhigh, ha⟩ := hlive va hva hpage
  refine ⟨L, hheap.spells, ?_⟩
  rw [hheap.free_page_eq hpage hhigh]
  split
  case isTrue hzero => exact iff_of_true nofun fun hne => absurd hzero hne
  case isFalse hne =>
    have hbelow := hheap.sizes _ hne
    rw [UHeap.sizeIndex_address hpage hhigh ha] at hbelow
    rw [ne_eq, Option.map_eq_none_iff, imp_iff_right hne]
    generalize hm : (s.heap.storeSize va 0).mergeBulks va (s.heap.allocationSizes (UHeap.sizeIndex va)) = m
    cases hm ▸ hheap.mergeBulks hbelow with
    | full hall hfull => exact iff_of_false (fun hnone => hnone rfl) fun hroom => absurd (hroom hall) (Nat.not_lt.mpr hfull)
    | done _ hroom => exact iff_of_true nofun hroom

/-- In every run of a living process, freeing a region fails exactly when no free region adjoins it and the free regions and
    the nodes lost so far are 2048 or more. A node is lost by each allocation that takes a free region whole and by each
    region that is freed between two free ones. -/
theorem free_nodes_suffice_iff (hops : ops.Local) {w : σ} {c : Counted σ} {va : Nat}
    (hr : Reach (Counted.step ops) (fun c e => Survives c.proc e) ⟨⟨{ world := w }, []⟩, 0⟩ c) (hva : va ∈ c.proc.pagePointers) :
    ∃ L, c.proc.heap.bulks.Spells L ∧ (c.proc.heap.free ops va ≠ none ↔
      (c.proc.heap.allocationSizes (UHeap.sizeIndex va) ≠ 0 →
        c.proc.heap.Isolated L va (c.proc.heap.allocationSizes (UHeap.sizeIndex va)) → (L .free).length + c.lost < 2048)) := by
  obtain ⟨hl, L₀, hspells₀, hidx⟩ : LimitedOrNew w c.proc ∧ c.proc.heap.Balanced c.lost := by
    refine hr.invariant (I := fun c => LimitedOrNew w c.proc ∧ c.proc.heap.Balanced c.lost) ⟨.inl rfl, ?_⟩ ?_
    · exact ⟨fun _ => [], ⟨fun _ => spelled_nil, fun _ => rfl, fun _ => List.nodup_nil, nofun⟩, rfl⟩
    · rintro c e c' ⟨hl, hb⟩ halive hs
      obtain ⟨p, hp, rfl⟩ := Option.map_eq_some_iff.mp hs
      exact ⟨hl.step hops halive hp, Counted.balanced_step hl hb hs⟩
  rcases hl with hnew | hl
  · rw [hnew] at hva
    exact nomatch hva
  · obtain ⟨L, hspells, hiff⟩ := hl.free_some_iff ops hva
    have hlen : (L .free).length + c.lost = c.proc.heap.freeNodesIndex := by rw [hidx, hspells.unique hspells₀]
    exact ⟨L, hspells, hlen ▸ hiff⟩

/-- Nothing was freed yet, so the lower of two regions can be freed. -/
theorem free_nodes_suffice_two : ∃ c : Counted Unit, c.proc.live = [2181046272, 2181042176] ∧
    c.proc.heap.free BlockClient.residentPages 2181042176 ≠ none := by
  have h₁ : Survives (⟨{ world := () }, []⟩ : UProcess Unit) (.malloc 4096) :=
    survives_of_fit (by decide : inUserRange 2181042176 4096) rfl (uheapInit_eq ()) rfl
  have hr₁ : Reach (Counted.step BlockClient.residentPages) (fun c e => Survives c.proc e) ⟨⟨{ world := () }, []⟩, 0⟩ _ :=
    .step (.malloc 4096) .init h₁ ((congrArg (Option.map _) (malloc_first _ () 4096)).trans rfl)
  have hr₂ := hr₁.step (.malloc 4096) (survives_of_fit (by decide : inUserRange 2181046272 4096) rfl rfl rfl) rfl
  obtain ⟨L, hspells, hiff⟩ := free_nodes_suffice_iff BlockClient.residentPages_local hr₂
    (by decide : 2181042176 ∈ _)
  refine ⟨_, rfl, hiff.mpr fun _ _ => ?_⟩
  rw [hspells.eq_nil_of_first (i := .free) rfl]
  decide

/-! ### A run that loses all nodes -/

/-- The list of free regions is short. -/
def FreeRegions (s : UProcess σ) (n : Nat) : Prop := ∃ L, s.heap.bulks.Spells L ∧ (L .free).length ≤ n

/-- Two regions of a page are allocated and no region is free; `k` nodes were taken. -/
structure NoneFree (s : UProcess Unit) (k : Nat) : Prop where
  initialized : s.heap.firstTimeFlag = false
  page_start : s.heap.uheapPageAllocStart = 2181042176
  page_break : s.heap.uheapPageAllocBreak = 2181050368
  first : ∀ i, s.heap.bulks.first i = none
  index : s.heap.freeNodesIndex = k
  lower : s.heap.allocationSizes 8193 = 4096
  upper : s.heap.allocationSizes 8194 = 4096
  live : 2181042176 ∈ s.live

/-- The lower region is free, in the last of `k` nodes. -/
structure LowerFree (s : UProcess Unit) (k : Nat) : Prop where
  initialized : s.heap.firstTimeFlag = false
  page_start : s.heap.uheapPageAllocStart = 2181042176
  page_break : s.heap.uheapPageAllocBreak = 2181050368
  first : s.heap.bulks.first .free = some k ∧ s.heap.bulks.first .allocated = none
  link : s.heap.bulks.link k = {}
  region : s.heap.bulks.region k = ⟨2181042176, 4096⟩
  index : s.heap.freeNodesIndex = k + 1
  upper : s.heap.allocationSizes 8194 = 4096

variable {s t : UProcess Unit} {k : Nat}

theorem NoneFree.few (h : NoneFree s k) : FreeRegions s 1 :=
  ⟨fun _ => [], ⟨fun _ => spelled_nil, h.first, fun _ => List.nodup_nil, nofun⟩, Nat.zero_le _⟩

theorem spelled_singleton {link : Nat → Link Nat} {b : Nat} (h : link b = {}) : Spelled link [b] := by
  intro l₁ x l₂ hsplit
  cases l₁ with
  | nil =>
    cases hsplit
    exact h
  | cons y l₁ => simp at hsplit

theorem LowerFree.few (h : LowerFree s k) : FreeRegions s 1 := by
  refine ⟨fun i => if i = .free then [k] else [], ⟨fun i => ?_, fun i => ?_, fun i => ?_, ?_⟩, Nat.le_refl _⟩
  · cases i
    · exact spelled_singleton h.link
    · exact spelled_nil
  · cases i
    · exact h.first.1
    · exact h.first.2
  · cases i
    · exact List.nodup_singleton k
    · exact List.nodup_nil
  · intro i j x hi hj
    cases i <;> cases j <;> simp at hi hj ⊢

/-- A node becomes the only one of the list. -/
theorem addBulk_of_empty {b : Bulks} (hfirst : b.first .free = none) (node start size : Nat) :
    ∃ t, b.addBulk node start size = some t ∧ t.first = Function.update b.first .free (some node) ∧ t.link node = {} ∧
      t.region node = ⟨start, size⟩ := by
  refine ⟨((((b.setStart node start).setSize node size).setNext node none).setPrev node none).linkBetween node none none, ?_,
    rfl, ?_, ?_⟩
  · unfold Bulks.addBulk Bulks.insertBulkDesc
    simp only [Bulks.first_setPrev, Bulks.first_setNext]
    rw [show ((b.setStart node start).setSize node size).first .free = none from hfirst]
    rfl
  · simp [Bulks.linkBetween]
  · simp [Bulks.linkBetween, Bulks.region, Bulks.setStart, Bulks.setSize, Bulks.setNext, Bulks.setPrev, Bulks.setFirst]

/-- The only node leaves the list. -/
theorem removeBulk_of_single {b : Bulks} {node : Nat} (hlink : b.link node = {}) :
    (b.removeBulk node).first = Function.update b.first .free none := by
  simp [Bulks.removeBulk, hlink, Bulks.setFirst]

/-- The scan finds the upper region, which ends at the break. -/
theorem scanBreak_of_upper {h : UHeap Unit} (hbreak : h.uheapPageAllocBreak = 2181050368) (hupper : h.allocationSizes 8194 = 4096) :
    { h with uheapPageAllocBreak := h.scanBreak (UHeap.sizeIndex h.uheapPageAllocBreak) } = h := by
  have hindex : UHeap.sizeIndex h.uheapPageAllocBreak = 8194 + 1 := by
    rw [hbreak]
    rfl
  have hscan : h.scanBreak (UHeap.sizeIndex h.uheapPageAllocBreak) = h.uheapPageAllocBreak := by
    rw [hindex, UHeap.scanBreak, if_pos (by rw [hupper]; decide), hupper, hbreak]
    rfl
  rw [hscan]

theorem NoneFree.free (h : NoneFree s k) : s.heap.free BlockClient.residentPages 2181042176 =
    if 2048 ≤ k then none
    else (s.heap.bulks.addBulk k 2181042176 4096).map fun b =>
      { s.heap.storeSize 2181042176 0 with bulks := b, freeNodesIndex := k + 1 } := by
  have hindex : UHeap.sizeIndex 2181042176 = 8193 := rfl
  have hstart := h.page_start
  have hmerge : (s.heap.storeSize 2181042176 0).mergeBulks 2181042176 4096 = if 2048 ≤ k then none
      else (s.heap.bulks.addBulk k 2181042176 4096).map fun b =>
        { s.heap.storeSize 2181042176 0 with bulks := b, freeNodesIndex := k + 1 } := by
    unfold UHeap.mergeBulks Bulks.findNeighbours
    rw [show (s.heap.storeSize 2181042176 0).bulks.first .free = none from h.first .free, ← h.index]
    rfl
  unfold UHeap.free
  rw [if_neg (by decide), if_neg (by omega)]
  dsimp only
  rw [hindex, h.lower, if_neg (by decide), hmerge]
  split
  case isTrue => rfl
  case isFalse =>
    cases s.heap.bulks.addBulk k 2181042176 4096 with
    | none => rfl
    | some b =>
      refine congrArg some (scanBreak_of_upper h.page_break ?_)
      show Function.update s.heap.allocationSizes 8193 0 8194 = 4096
      rw [Function.update_of_ne (by decide), h.upper]

theorem NoneFree.step_free (h : NoneFree s k) (hk : k < 2048) :
    ∃ t, s.step BlockClient.residentPages (.free 2181042176) = some t ∧ LowerFree t k := by
  obtain ⟨b, hb, hfirst, hlink, hregion⟩ := addBulk_of_empty (h.first .free) k 2181042176 4096
  have hfree := h.free
  rw [if_neg (Nat.not_le.mpr hk), hb, Option.map_some] at hfree
  refine ⟨_, (if_pos h.live).trans (congrArg (Option.map _) hfree), h.initialized, h.page_start, h.page_break, ⟨?_, ?_⟩, hlink,
    hregion, rfl, ?_⟩
  · show b.first .free = some k
    rw [hfirst, Function.update_self]
  · show b.first .allocated = none
    rw [hfirst, Function.update_of_ne (by decide), h.first]
  · show Function.update s.heap.allocationSizes 8193 0 8194 = 4096
    rw [Function.update_of_ne (by decide), h.upper]

theorem LowerFree.fit (h : LowerFree s k) : s.heap.userPageAllocCustomFit 4096 =
    some ({ s.heap with bulks := s.heap.bulks.removeBulk k }.storeSize 2181042176 4096, 2181042176) := by
  have hsize : s.heap.bulks.size k = 4096 := congrArg Region.size h.region
  have hstart : s.heap.bulks.start k = 2181042176 := congrArg Region.start h.region
  have hwalk : walk s.heap.bulks.next (fun b => s.heap.bulks.size b = 4096) walkFuel none (some k) = some (none, some k) :=
    if_pos (by simpa using hsize)
  unfold UHeap.userPageAllocCustomFit
  rw [h.first.1, hwalk, Option.bind_some, ← hstart]

theorem LowerFree.step_malloc (h : LowerFree s k) :
    ∃ t, s.step BlockClient.residentPages (.malloc 4096) = some t ∧ NoneFree t (k + 1) := by
  have hinit : s.heap.uheapInit = some s.heap := by rw [UHeap.uheapInit, if_neg (by simp [h.initialized])]
  have hmalloc : s.heap.malloc BlockClient.residentPages 4096 =
      some ({ s.heap with bulks := s.heap.bulks.removeBulk k }.storeSize 2181042176 4096, 2181042176) := by
    unfold UHeap.malloc
    rw [hinit, Option.bind_some, if_neg (by decide), if_neg (by decide)]
    exact h.fit
  refine ⟨_, congrArg (Option.map _) hmalloc, h.initialized, h.page_start, h.page_break, fun i => ?_, h.index, ?_, ?_,
    List.mem_cons_self ..⟩
  · show (s.heap.bulks.removeBulk k).first i = none
    rw [removeBulk_of_single h.link]
    cases i
    · exact Function.update_self ..
    · rw [Function.update_of_ne (by decide)]
      exact h.first.2
  · show Function.update s.heap.allocationSizes 8193 4096 8193 = 4096
    exact Function.update_self ..
  · show Function.update s.heap.allocationSizes 8193 4096 8194 = 4096
    rw [Function.update_of_ne (by decide), h.upper]

/-- The calls of the page allocator that do not share memory. -/
def MallocOrFree : UHeapEvent → Prop
  | .malloc _ => True
  | .free _ => True
  | _ => False

/-- Runs of `malloc` and `free` in which at most one region is free. -/
def Modest (s : UProcess Unit) (e : UHeapEvent) : Prop := Survives s e ∧ MallocOrFree e ∧ FreeRegions s 1

theorem noneFree_two : ∃ s, Reach (step BlockClient.residentPages) Modest ⟨{ world := () }, []⟩ s ∧ NoneFree s 0 := by
  have hempty : ∀ {s : UProcess Unit}, (∀ i, s.heap.bulks.first i = none) → FreeRegions s 1 := fun hfirst =>
    ⟨fun _ => [], ⟨fun _ => spelled_nil, hfirst, fun _ => List.nodup_nil, nofun⟩, Nat.zero_le _⟩
  have h₁ : Modest ⟨{ world := () }, []⟩ (.malloc 4096) :=
    ⟨survives_of_fit (by decide : inUserRange 2181042176 4096) rfl (uheapInit_eq ()) rfl, trivial, hempty fun _ => rfl⟩
  obtain ⟨s, hs, hinit, hfit, hfirst, t, ht, hnone⟩ : ∃ s, step BlockClient.residentPages ⟨initialHeap (), []⟩ (.malloc 4096) = some s ∧
      s.heap.uheapInit = some s.heap ∧ (s.heap.userPageAllocCustomFit 4096).map Prod.snd = some 2181046272 ∧
      (∀ i, s.heap.bulks.first i = none) ∧ ∃ t, step BlockClient.residentPages s (.malloc 4096) = some t ∧ NoneFree t 0 :=
    ⟨_, rfl, rfl, rfl, fun _ => rfl, _, rfl, rfl, rfl, rfl, fun _ => rfl, rfl, by decide +kernel, by decide +kernel, .tail _ (.head _)⟩
  have h₂ : Modest s (.malloc 4096) :=
    ⟨survives_of_fit (by decide : inUserRange 2181046272 4096) rfl hinit hfit, trivial, hempty hfirst⟩
  have hr : Reach (step BlockClient.residentPages) Modest ⟨{ world := () }, []⟩ s :=
    .step (.malloc 4096) .init h₁ ((malloc_first _ () 4096).trans hs)
  exact ⟨t, hr.step (.malloc 4096) h₂ ht, hnone⟩

theorem noneFree_reach (hk : k ≤ 2048) :
    ∃ s, Reach (step BlockClient.residentPages) Modest ⟨{ world := () }, []⟩ s ∧ NoneFree s k := by
  induction k with
  | zero => exact noneFree_two
  | succ k ih =>
    obtain ⟨s, hr, hs⟩ := ih (by omega)
    obtain ⟨t, ht, hlower⟩ := hs.step_free (by omega)
    obtain ⟨u, hu, hnone⟩ := hlower.step_malloc
    have hinit : t.heap.uheapInit = some t.heap := by rw [UHeap.uheapInit, if_neg (by simp [hlower.initialized])]
    have h₁ : Modest s (.free 2181042176) := ⟨fun _ _ _ _ hn => (by cases hn), trivial, hs.few⟩
    have h₂ : Modest t (.malloc 4096) := by
      refine ⟨survives_of_fit (by decide : inUserRange 2181042176 4096) rfl hinit ?_, trivial, hlower.few⟩
      exact congrArg (Option.map Prod.snd) hlower.fit
    exact ⟨u, (hr.step (.free 2181042176) h₁ ht).step (.malloc 4096) h₂ hu, hnone⟩

/-- Of two allocated regions the lower one is freed and allocated again, 2048 times. Never more than one region is free, and
    the next `free` finds no node. -/
theorem free_nodes_lost : ∃ s : UProcess Unit, Reach (step BlockClient.residentPages) Modest ⟨{ world := () }, []⟩ s ∧
    FreeRegions s 1 ∧ 2181042176 ∈ s.live ∧ s.heap.free BlockClient.residentPages 2181042176 = none := by
  obtain ⟨s, hr, hs⟩ := noneFree_reach (Nat.le_refl 2048)
  exact ⟨s, hr, hs.few, hs.live, hs.free.trans (if_pos (Nat.le_refl _))⟩

end UProcess

end Fos.Heap
