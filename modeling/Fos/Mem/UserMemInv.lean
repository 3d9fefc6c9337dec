import Fos.Mem.WalkRun
import Fos.Mem.UserMem

/-! What the operations on the memory of the processes do to the accounts of the frames and to the entries. -/

namespace Fos.Mem
open Lib Heap Frames

/-! ### Lists of pages -/

theorem samePage_iff {va va' : Nat} (h : va < 4294967296) (h' : va' < 4294967296) :
    Paging.SamePage va va' ↔ va / 4096 = va' / 4096 := by
  unfold Paging.SamePage pdx ptx
  simp only [Fin.ext_iff, Fin.ofNat]
  omega

theorem mem_pagesFrom {va n p : Nat} (h : va + n * 4096 ≤ 4294967296) : p ∈ pagesFrom va n ↔ ∃ i < n, p = va + i * 4096 := by
  have hwrap : ∀ i < n, u32 (va + i * pageSize) = va + i * 4096 := fun i hi => u32_of_lt (by simp only [pageSize]; omega)
  simp only [pagesFrom, List.mem_map, List.mem_range]
  constructor
  · rintro ⟨i, hi, rfl⟩
    exact ⟨i, hi, hwrap i hi⟩
  · rintro ⟨i, hi, rfl⟩
    exact ⟨i, hi, hwrap i hi⟩

/-- The pages of a list are different ones. -/
def Apart (ps : List Nat) : Prop := ps.Pairwise fun p q => ¬ Paging.SamePage p q

theorem pagesFrom_apart {va n : Nat} (h : va + n * 4096 ≤ 4294967296) : Apart (pagesFrom va n) := by
  unfold Apart pagesFrom
  rw [List.pairwise_map]
  refine List.pairwise_lt_range.imp_of_mem fun {i j} hi hj hij => ?_
  simp only [List.mem_range] at hi hj
  rw [u32_of_lt (by simp only [pageSize]; omega), u32_of_lt (by simp only [pageSize]; omega),
    samePage_iff (by simp only [pageSize]; omega) (by simp only [pageSize]; omega)]
  simp only [pageSize]
  omega

namespace Paging

variable {D : Type} [DecidableEq D] {all : List PageNo} {boot : PageNo → Nat} {handed : List PageNo} {live tables : List Nat}
  {s s' : Paging D} {f t : PageNo} {va : Nat} {perm : BitVec 12} {dir : D}

/-! ### How often a frame is mapped -/

omit [DecidableEq D] in
/-- The counts are `uint16`. -/
theorem Inv.few (hi : Inv all boot handed live tables s) (f : PageNo) : (holders s.heap.mem.hold f).ncard < 65536 := by
  obtain ⟨F, ha⟩ := hi.accounts
  by_cases hf : f ∈ all
  · rw [← ha.references f hf]
    exact ha.uint16 f
  · have hempty : holders s.heap.mem.hold f = ∅ := by
      ext c
      simp only [mem_holders, Set.mem_empty_iff_false, iff_false]
      exact fun hc => hf (ha.held c f hc)
    rw [hempty, Set.ncard_empty]
    decide

/-- One entry more holds the frame. -/
theorem few_update {hold : Slot → Option PageNo} {c : Slot} (hfew : ∀ g, (holders hold g).ncard < 65536)
    (hroom : (holders hold f).ncard < 65535) (g : PageNo) : (holders (Function.update hold c (some f)) g).ncard < 65536 := by
  by_cases hg : g = f
  · subst hg
    have hsub : holders (Function.update hold c (some g)) g ⊆ insert c (holders hold g) := by
      intro x hx
      by_cases hxc : x = c
      · exact .inl hxc
      · rw [mem_holders, Function.update_of_ne hxc] at hx
        exact .inr hx
    calc (holders (Function.update hold c (some g)) g).ncard
        ≤ _ := Set.ncard_le_ncard hsub
      _ ≤ _ := Set.ncard_insert_le _ _
      _ < 65536 := by omega
  · refine lt_of_le_of_lt (Set.ncard_le_ncard fun x hx => ?_) (hfew g)
    by_cases hxc : x = c
    · rw [mem_holders, hxc, Function.update_self] at hx
      exact absurd (Option.some.inj hx).symm hg
    · rwa [mem_holders, Function.update_of_ne hxc] at hx

/-- A frame with fewer than 65535 mappings can get one more. -/
theorem Inv.mapFrame_few (hi : Inv all boot handed live tables s) (hf : s.Mappable handed f)
    (hroom : (holders s.heap.mem.hold f).ncard < 65535) (hs : s.mapFrame dir f va perm = some s') (g : PageNo) :
    (holders s'.heap.mem.hold g).ncard < 65536 := by
  have hin : ∀ {u : Paging D} {tables' : List Nat} {x : PageNo}, Inv all boot handed live tables' u →
      (holders u.heap.mem.hold f).ncard < 65535 → u.mapFrameIn x f va perm = some s' →
        (holders s'.heap.mem.hold g).ncard < 65536 := by
    intro u tables' x hu hroom hs
    obtain ⟨F, ha⟩ := hu.accounts
    obtain ⟨m, hm, rfl⟩ := Option.map_eq_some_iff.mp hs
    show (holders m.hold g).ncard < 65536
    rw [ha.hold_mapFrame hm]
    exact few_update hu.few hroom g
  obtain ⟨r, hr, hs⟩ := Option.bind_eq_some_iff.mp hs
  cases r with
  | notExist =>
    obtain ⟨⟨s₁, x⟩, hs₁, hs⟩ := Option.bind_eq_some_iff.mp hs
    obtain ⟨ptr, hi₁, -⟩ := hi.createPageTable hs₁
    refine hin hi₁ (lt_of_le_of_lt (Set.ncard_le_ncard fun c hc => ?_) hroom) hs
    exact hi.createPageTable_fresh hs₁ hf hc
  | null => exact nomatch hs
  | inMemory x => exact hin hi hroom hs

/-- `map_frame` gives no mapping to the other frames. -/
theorem Inv.mapFrame_holders {g : PageNo} (hi : Inv all boot handed live tables s) (hg : s.Mappable handed g) (hne : g ≠ f)
    (hs : s.mapFrame dir f va perm = some s') : holders s'.heap.mem.hold g ⊆ holders s.heap.mem.hold g := by
  have hin : ∀ {u : Paging D} {tables' : List Nat} {x : PageNo}, Inv all boot handed live tables' u →
      u.mapFrameIn x f va perm = some s' → holders s'.heap.mem.hold g ⊆ holders u.heap.mem.hold g := by
    intro u tables' x hu hs c hc
    obtain ⟨F, ha⟩ := hu.accounts
    obtain ⟨m, hm, rfl⟩ := Option.map_eq_some_iff.mp hs
    have hc : m.hold c = some g := hc
    rw [ha.hold_mapFrame hm] at hc
    by_cases hx : c = .user x (ptx va)
    · rw [hx, Function.update_self] at hc
      exact absurd (Option.some.inj hc).symm hne
    · rwa [Function.update_of_ne hx] at hc
  obtain ⟨r, hr, hs⟩ := Option.bind_eq_some_iff.mp hs
  cases r with
  | notExist =>
    obtain ⟨⟨s₁, x⟩, hs₁, hs⟩ := Option.bind_eq_some_iff.mp hs
    obtain ⟨ptr, hi₁, -⟩ := hi.createPageTable hs₁
    exact fun c hc => hi.createPageTable_fresh hs₁ hg (hin hi₁ hs hc)
  | null => exact nomatch hs
  | inMemory x => exact hin hi hs

/-! ### Entries that are written -/

/-- An entry is written and holds what it held. -/
theorem writeEntry_accounts {m : Frames} {F : List PageNo} {c : Slot} {e : Pte} (ha : m.Accounts all boot F handed)
    (hpresent : e.present = (m.pte c).present) (hframe : e.frame = (m.pte c).frame) (hplain : e.perm.getLsbD 9 = false) :
    ({ m with pte := Function.update m.pte c e } : Frames).Accounts all boot F handed ∧
      ({ m with pte := Function.update m.pte c e } : Frames).hold = m.hold := by
  have hhold : ({ m with pte := Function.update m.pte c e } : Frames).hold = m.hold := by
    funext x
    unfold Frames.hold
    by_cases hx : x = c
    · subst hx
      simp only [Function.update_self, hpresent, hframe]
    · simp only [Function.update_of_ne hx]
  refine ⟨⟨ha.free, by rw [hhold]; exact ha.mem, by rw [hhold]; exact ha.out_mem, ha.out_nodup, by rw [hhold]; exact ha.held,
    by rw [hhold]; exact ha.references, ha.uint16, ha.boot, ha.valid, fun x => ?_, fun x hx => ?_, by rw [hhold]; exact ha.located⟩,
    hhold⟩
  · by_cases hxc : x = c
    · simpa only [hxc, Function.update_self] using hplain
    · simpa only [Function.update_of_ne hxc] using ha.plain x
  · rw [hhold] at hx
    by_cases hxc : x = c
    · subst hxc
      simpa only [Function.update_self, hframe] using ha.clean x hx
    · simpa only [Function.update_of_ne hxc] using ha.clean x hx

omit [DecidableEq D] in
/-- The tables are found where they were when an entry is written. -/
theorem getPageTable_writeEntry (s : Paging D) (table : PageNo) (i : Fin 1024) (x : Pte) :
    (s.writeEntry table i x).getPageTable = s.getPageTable := by
  funext d va
  have hhold : ∀ ptr, frameAt (s.writeEntry table i x).heap ptr = frameAt s.heap ptr := by
    intro ptr
    have hne : Slot.kernel (pageNo ptr) ≠ .user table i := by
      intro h
      cases h
    have hsame : (s.writeEntry table i x).heap.mem.pte (.kernel (pageNo ptr)) = s.heap.mem.pte (.kernel (pageNo ptr)) :=
      Function.update_of_ne hne x s.heap.mem.pte
    unfold frameAt Frames.hold
    rw [hsame]
  unfold getPageTable
  simp only [hhold]
  rfl

omit [DecidableEq D] in
theorem Inv.writeEntry {e : Pte} (hi : Inv all boot handed live tables s) (hl : s.Linked) (ht : s.pde dir (pdx va) = some t)
    (hpresent : e.present = (s.page dir va).present) (hframe : e.frame = (s.page dir va).frame)
    (hplain : e.perm.getLsbD 9 = false) : Inv all boot handed live tables (s.writeEntry t (ptx va) e) ∧
      (s.writeEntry t (ptx va) e).Linked ∧ Writes s (s.writeEntry t (ptx va) e) dir va e ∧
      (s.writeEntry t (ptx va) e).heap.mem.hold = s.heap.mem.hold := by
  rw [page_of_some ht] at hpresent hframe
  obtain ⟨F, ha⟩ := hi.accounts
  obtain ⟨ha', hhold⟩ := writeEntry_accounts ha hpresent hframe hplain
  have hwrites := writes_of_pte (m := { s.heap.mem with pte := Function.update s.heap.mem.pte (.user t (ptx va)) e }) hl ht
    fun x hx => Function.update_of_ne hx ..
  simp only [Function.update_self] at hwrites
  refine ⟨hi.setMem ha' (fun p => by rw [hhold]) (fun x i hne => ?_), hl.of_mem ?_, hwrites, hhold⟩
  · rw [hhold] at hne
    exact hi.entry x i hne
  · intro p f hp
    have hp : ({ s.heap.mem with pte := Function.update s.heap.mem.pte (.user t (ptx va)) e } : Frames).hold (.kernel p) = some f := hp
    show _ ∧ ∀ c, ({ s.heap.mem with pte := Function.update s.heap.mem.pte (.user t (ptx va)) e } : Frames).hold c = some f → _
    rw [hhold] at hp ⊢
    exact hl.rooted p f hp

omit [DecidableEq D] in
/-- `pt_set_page_permissions`, for bits that say nothing about the frame -/
theorem Inv.ptSetPagePermissions {toSet toClear : BitVec 12} (hi : Inv all boot handed live tables s) (hl : s.Linked)
    (hset : toSet.getLsbD 0 = false ∧ toSet.getLsbD 9 = false) (hclear : toClear.getLsbD 0 = false)
    (hs : s.ptSetPagePermissions dir va toSet toClear = some s') : Inv all boot handed live tables s' ∧ s'.Linked ∧
      Writes s s' dir va ⟨(s.page dir va).frame, ((s.page dir va).perm ||| toSet) &&& ~~~ toClear⟩ ∧
      s'.heap.mem.hold = s.heap.mem.hold := by
  unfold Paging.ptSetPagePermissions at hs
  rw [hi.getPageTable_eq hl, Option.bind_some] at hs
  cases ht : s.pde dir (pdx va) with
  | none =>
    rw [ht] at hs
    exact nomatch hs
  | some t =>
    rw [ht] at hs
    dsimp only at hs
    rw [← page_of_some ht] at hs
    cases hs
    obtain ⟨F, ha⟩ := hi.accounts
    refine hi.writeEntry hl ht ?_ rfl ?_
    · simp only [present_iff, BitVec.getLsbD_and, BitVec.getLsbD_or, BitVec.getLsbD_not, hset.1, hclear, Bool.or_false,
        Bool.not_false, Bool.and_true, Nat.zero_lt_succ, decide_true]
    · have hplain := ha.plain (.user t (ptx va))
      rw [← page_of_some ht] at hplain
      simp only [BitVec.getLsbD_and, BitVec.getLsbD_or, hset.2, hplain, Bool.or_false, Bool.false_and]

/-- A page that is not mapped is marked. -/
theorem Inv.markPage (hi : Inv all boot handed live tables s) (hl : s.Linked) (hunmapped : (s.page dir va).present = false)
    (hs : s.markPage dir va = some s') : (∃ tables', Inv all boot handed live tables' s') ∧ s'.Linked ∧
      Writes s s' dir va ⟨0, permUhpage⟩ ∧
      ∀ g, (∃ c, s.heap.mem.hold c = some g) → holders s'.heap.mem.hold g ⊆ holders s.heap.mem.hold g := by
  have hmark : (⟨0, permUhpage⟩ : Pte).present = false ∧ (⟨0, permUhpage⟩ : Pte).perm.getLsbD 9 = false := by decide
  unfold Paging.markPage at hs
  rw [hi.getPageTable_eq hl, Option.bind_some] at hs
  cases ht : s.pde dir (pdx va) with
  | some t =>
    rw [ht] at hs
    cases hs
    obtain ⟨F, ha⟩ := hi.accounts
    have hframe : (s.page dir va).frame = 0 := by
      rw [page_of_some ht] at hunmapped ⊢
      exact ha.clean _ (hold_eq_none.mpr hunmapped)
    obtain ⟨hi', hl', hwrites, hhold⟩ := hi.writeEntry hl ht (hmark.1.trans hunmapped.symm) hframe.symm hmark.2
    exact ⟨⟨tables, hi'⟩, hl', hwrites, fun g _ => by rw [hhold]⟩
  | none =>
    rw [ht] at hs
    obtain ⟨⟨s₁, t⟩, hs₁, rfl⟩ := Option.map_eq_some_iff.mp hs
    obtain ⟨hcreated, hl₁⟩ := hi.created hl hs₁
    obtain ⟨ptr, hi₁, ht₁, -⟩ := hi.createPageTable hs₁
    have hpage : s₁.page dir va = {} := (page_of_some ht₁).trans (hcreated.clear _)
    obtain ⟨hi', hl', hwrites, hhold⟩ := hi₁.writeEntry (e := ⟨0, permUhpage⟩) hl₁ ht₁ (by rw [hpage]; decide) (by rw [hpage])
      hmark.2
    refine ⟨⟨_, hi'⟩, hl', ⟨hwrites.self, fun d va' hne => ?_⟩, fun g hg c hc => ?_⟩
    · rw [hwrites.others d va' hne, hcreated.page ht]
    · rw [hhold] at hc
      exact hi.createPageTable_fresh hs₁ (.inr hg) hc

omit [DecidableEq D] in
theorem page_samePage {va' : Nat} (h : SamePage va va') (d : D) : s.page d va = s.page d va' := by
  simp only [page, h.1, h.2]

/-- The loop of `allocate_user_mem` over pages that are not mapped. -/
theorem Inv.markPages {ps : List Nat} (hi : ∃ tables, Inv all boot handed live tables s) (hl : s.Linked)
    (hunmapped : ∀ p ∈ ps, (s.page dir p).present = false) (hs : exec (Paging.markPage dir) s ps = some s') :
    (∃ tables, Inv all boot handed live tables s') ∧ s'.Linked ∧
      (∀ p ∈ ps, s'.page dir p = ⟨0, permUhpage⟩) ∧
      ∀ d va, (∀ p ∈ ps, ¬ (d = dir ∧ SamePage va p)) → s'.page d va = s.page d va := by
  induction ps generalizing s with
  | nil =>
    cases hs
    exact ⟨hi, hl, nofun, fun _ _ _ => rfl⟩
  | cons p ps ih =>
    obtain ⟨s₁, hstep, hs⟩ := exec_cons.mp hs
    obtain ⟨tables, hi⟩ := hi
    obtain ⟨hi₁, hl₁, hwrites, -⟩ := hi.markPage hl (hunmapped p (List.mem_cons_self ..)) hstep
    have hunmapped₁ : ∀ q ∈ ps, (s₁.page dir q).present = false := by
      intro q hq
      by_cases hsame : SamePage q p
      · rw [page_samePage hsame, hwrites.self]
        decide
      · rw [hwrites.others dir q fun h => hsame h.2]
        exact hunmapped q (List.mem_cons_of_mem _ hq)
    obtain ⟨hi', hl', hself, hothers⟩ := ih hi₁ hl₁ hunmapped₁ hs
    refine ⟨hi', hl', fun q hq => ?_, fun d va hva => ?_⟩
    · by_cases hlater : ∃ x ∈ ps, SamePage q x
      · obtain ⟨x, hx, hsame⟩ := hlater
        rw [page_samePage hsame, hself x hx]
      · rw [hothers dir q fun x hx h => hlater ⟨x, hx, h.2⟩]
        rcases List.mem_cons.mp hq with rfl | hq
        · exact hwrites.self
        · exact absurd ⟨q, hq, rfl, rfl⟩ hlater
    · rw [hothers d va fun x hx => hva x (List.mem_cons_of_mem _ hx), hwrites.others d va (hva p (List.mem_cons_self ..))]

/-- The page is mapped to the frame. -/
def Maps (s : Paging D) (d : D) (va : Nat) (f : PageNo) : Prop := (s.page d va).present ∧ (s.page d va).frame = f

omit [DecidableEq D] in
theorem Maps.hold {d : D} (h : Maps s d va f) : ∃ t, s.heap.mem.hold (.user t (ptx va)) = some f := by
  obtain ⟨hpresent, hframe⟩ := h
  cases ht : s.pde d (pdx va) with
  | none =>
    rw [page_of_none ht] at hpresent
    exact absurd hpresent (by decide)
  | some t =>
    rw [page_of_some ht] at hpresent hframe
    exact ⟨t, hold_eq_some.mpr ⟨hpresent, hframe⟩⟩

omit [DecidableEq D] in
/-- A frame that is mapped at a user address is none of the kernel heap. -/
theorem Maps.notKernel {d : D} (h : Maps s d va f) (hl : s.Linked) : NotKernel s.heap.mem f := by
  intro p hp
  obtain ⟨t, ht⟩ := h.hold
  exact nomatch (hl.rooted p f hp).2 _ ht

omit [DecidableEq D] in
theorem Maps.unique {d : D} {g : PageNo} (h : Maps s d va f) (h' : Maps s d va g) : f = g := h.2.symm.trans h'.2

/-- An entry of a frame that has no other mapping is overwritten: the frame is lost, so the accounts go on without it. -/
theorem lose_accounts {m : Frames} {F : List PageNo} {c : Slot} {e : Pte} (ha : m.Accounts all boot F handed)
    (hc : m.hold c = some f) (hsole : (holders m.hold f).ncard ≤ 1) (hkernel : ∀ p, c ≠ .kernel p) (hpresent : e.present = false)
    (hframe : e.frame = 0) (hplain : e.perm.getLsbD 9 = false) :
    ({ m with pte := Function.update m.pte c e } : Frames).Accounts (all.filter (· ≠ f)) (Function.update boot f (m.references f)) F
        handed ∧
      ({ m with pte := Function.update m.pte c e } : Frames).hold = Function.update m.hold c none := by
  have honly : ∀ x, m.hold x = some f → x = c := fun x hx => Set.ncard_le_one_iff_subsingleton.mp hsole hx hc
  have hhold : ({ m with pte := Function.update m.pte c e } : Frames).hold = Function.update m.hold c none := by
    funext x
    by_cases hx : x = c
    · rw [hx, Function.update_self]
      refine hold_eq_none.mpr ?_
      dsimp only
      rw [Function.update_self]
      exact hpresent
    · unfold Frames.hold
      simp only [Function.update_of_ne hx]
  have hiff : ∀ x g, Function.update m.hold c none x = some g ↔ m.hold x = some g ∧ g ≠ f := by
    intro x g
    by_cases hx : x = c
    · rw [hx, Function.update_self, hc]
      exact iff_of_false nofun fun h => h.2 (Option.some.inj h.1).symm
    · rw [Function.update_of_ne hx]
      refine ⟨fun h => ⟨h, ?_⟩, And.left⟩
      rintro rfl
      exact hx (honly x h)
  have hmem : ∀ g, g ∈ all.filter (· ≠ f) ↔ g ∈ all ∧ g ≠ f := fun g => by simp [List.mem_filter]
  refine ⟨⟨ha.free, fun g => ?_, fun g hg => ?_, ha.out_nodup, fun x g hx => ?_, fun g hg => ?_, ha.uint16, fun g hg => ?_,
    fun g hg => ha.valid g ((hmem g).mp hg).1, fun x => ?_, fun x hx => ?_, fun g hg => ?_⟩, hhold⟩
  · rw [hhold, ha.mem g, hmem]
    simp only [ne_eq, hiff]
    constructor
    · rintro ⟨hall, hout, hnone⟩
      refine ⟨⟨hall, ?_⟩, hout, fun x hx => hnone x hx.1⟩
      rintro rfl
      exact hnone c hc
    · rintro ⟨⟨hall, hne⟩, hout, hnone⟩
      exact ⟨hall, hout, fun x hx => hnone x ⟨hx, hne⟩⟩
  · obtain ⟨hall, hnone⟩ := ha.out_mem g hg
    refine ⟨(hmem g).mpr ⟨hall, ?_⟩, fun x hx => ?_⟩
    · rintro rfl
      exact hnone c hc
    · rw [hhold, hiff] at hx
      exact hnone x hx.1
  · rw [hhold, hiff] at hx
    exact (hmem g).mpr ⟨ha.held x g hx.1, hx.2⟩
  · obtain ⟨hall, hne⟩ := (hmem g).mp hg
    rw [hhold, show holders (Function.update m.hold c none) g = holders m.hold g from holders_detach_of_ne hc hne]
    exact ha.references g hall
  · by_cases hgf : g = f
    · rw [hgf, Function.update_self]
    · rw [Function.update_of_ne hgf]
      exact ha.boot g fun hall => hg ((hmem g).mpr ⟨hall, hgf⟩)
  · by_cases hx : x = c
    · simpa only [hx, Function.update_self] using hplain
    · simpa only [Function.update_of_ne hx] using ha.plain x
  · by_cases hxc : x = c
    · simpa only [hxc, Function.update_self] using hframe
    · rw [hhold, Function.update_of_ne hxc] at hx
      simpa only [Function.update_of_ne hxc] using ha.clean x hx
  · rw [hhold, Function.update_of_ne (hkernel _).symm]
    exact ha.located g hg

/-- No page but this one is mapped to its frame. -/
def Sole (s : Paging D) (d : D) (va : Nat) : Prop :=
  (s.page d va).present → (holders s.heap.mem.hold (s.page d va).frame).ncard ≤ 1

/-- A page whose frame no other page is mapped to is marked; a frame that was mapped there is lost. -/
theorem Inv.overwritePage (hi : Inv all boot handed live tables s) (hl : s.Linked) (hsole : s.Sole dir va)
    (hs : s.markPage dir va = some s') : (∃ all' boot' tables', Inv all' boot' handed live tables' s') ∧ s'.Linked ∧
      Writes s s' dir va ⟨0, permUhpage⟩ ∧
      ∀ g, (∃ c, s.heap.mem.hold c = some g) → holders s'.heap.mem.hold g ⊆ holders s.heap.mem.hold g := by
  by_cases hpresent : (s.page dir va).present
  · cases ht : s.pde dir (pdx va) with
    | none =>
      rw [page_of_none ht] at hpresent
      exact nomatch hpresent
    | some t =>
      obtain ⟨F, ha⟩ := hi.accounts
      unfold Paging.markPage at hs
      rw [hi.getPageTable_eq hl, Option.bind_some, ht] at hs
      cases hs
      have hc : s.heap.mem.hold (.user t (ptx va)) = some (s.page dir va).frame := by
        rw [page_of_some ht] at hpresent ⊢
        exact hold_eq_some.mpr ⟨hpresent, rfl⟩
      obtain ⟨ha', hhold⟩ := lose_accounts (e := ⟨0, permUhpage⟩) ha hc (hsole hpresent) nofun (by decide) rfl (by decide)
      have hsub : ∀ c g, ({ s.heap.mem with pte := Function.update s.heap.mem.pte (.user t (ptx va)) ⟨0, permUhpage⟩ } :
          Frames).hold c = some g → s.heap.mem.hold c = some g := by
        intro c g hcg
        rw [hhold] at hcg
        by_cases hx : c = .user t (ptx va)
        · rw [hx, Function.update_self] at hcg
          exact nomatch hcg
        · rwa [Function.update_of_ne hx] at hcg
      have hwrites := writes_of_pte (m := { s.heap.mem with pte := Function.update s.heap.mem.pte (.user t (ptx va)) ⟨0, permUhpage⟩ })
        hl ht fun x hx => Function.update_of_ne hx ..
      simp only [Function.update_self] at hwrites
      refine ⟨⟨_, _, tables, hi.setMem ha' (fun p => ?_) fun x i hne => ?_⟩, hl.of_mem fun p f hp => ?_, hwrites, fun g _ c hcg => hsub c g hcg⟩
      · rw [hhold, Function.update_of_ne (show Slot.kernel p ≠ .user t (ptx va) from nofun)]
      · obtain ⟨g, hg⟩ := Option.ne_none_iff_exists'.mp hne
        exact hi.entry x i (by rw [hsub _ g hg]; exact nofun)
      · obtain ⟨hva, honly⟩ := hl.rooted p f (hsub _ f hp)
        exact ⟨hva, fun c hcf => honly c (hsub c f hcf)⟩
  · obtain ⟨⟨tables', hi'⟩, hl', hwrites, hsub⟩ := hi.markPage hl (Bool.eq_false_iff.mpr hpresent) hs
    exact ⟨⟨all, boot, tables', hi'⟩, hl', hwrites, hsub⟩

omit [DecidableEq D] in
/-- When a page is marked over, the frames that other pages are mapped to are still mapped nowhere else. -/
theorem Writes.sole {q : Nat} (hwrites : Writes s s' dir va ⟨0, permUhpage⟩)
    (hsub : ∀ g, (∃ c, s.heap.mem.hold c = some g) → holders s'.heap.mem.hold g ⊆ holders s.heap.mem.hold g) (h : s.Sole dir q) :
    s'.Sole dir q := by
  intro hpresent
  by_cases hsame : SamePage q va
  · rw [page_samePage hsame, hwrites.self] at hpresent
    exact absurd hpresent (by decide)
  · rw [hwrites.others dir q fun h => hsame h.2] at hpresent ⊢
    have hmaps : s.Maps dir q (s.page dir q).frame := ⟨hpresent, rfl⟩
    obtain ⟨x, hx⟩ := hmaps.hold
    exact (Set.ncard_le_ncard (hsub _ ⟨_, hx⟩)).trans (h hpresent)

/-- The loop of `allocate_user_mem` over pages whose frames are not mapped elsewhere. -/
theorem Inv.overwritePages {ps : List Nat} (hi : ∃ all boot tables, Inv all boot handed live tables s) (hl : s.Linked)
    (hsole : ∀ p ∈ ps, s.Sole dir p) (hs : exec (Paging.markPage dir) s ps = some s') :
    (∃ all boot tables, Inv all boot handed live tables s') ∧ s'.Linked ∧ (∀ p ∈ ps, s'.page dir p = ⟨0, permUhpage⟩) ∧
      ∀ d va, (∀ p ∈ ps, ¬ (d = dir ∧ SamePage va p)) → s'.page d va = s.page d va := by
  induction ps generalizing s with
  | nil =>
    cases hs
    exact ⟨hi, hl, nofun, fun _ _ _ => rfl⟩
  | cons p ps ih =>
    obtain ⟨s₁, hstep, hs⟩ := exec_cons.mp hs
    obtain ⟨all, boot, tables, hi⟩ := hi
    obtain ⟨hi₁, hl₁, hwrites, hsub⟩ := hi.overwritePage hl (hsole p (List.mem_cons_self ..)) hstep
    have hsole₁ : ∀ q ∈ ps, s₁.Sole dir q := fun q hq => hwrites.sole hsub (hsole q (List.mem_cons_of_mem _ hq))
    obtain ⟨hi', hl', hself, hothers⟩ := ih hi₁ hl₁ hsole₁ hs
    refine ⟨hi', hl', fun q hq => ?_, fun d va hva => ?_⟩
    · by_cases hlater : ∃ x ∈ ps, SamePage q x
      · obtain ⟨x, hx, hsame⟩ := hlater
        rw [page_samePage hsame, hself x hx]
      · rw [hothers dir q fun x hx h => hlater ⟨x, hx, h.2⟩]
        rcases List.mem_cons.mp hq with rfl | hq
        · exact hwrites.self
        · exact absurd ⟨q, hq, rfl, rfl⟩ hlater
    · rw [hothers d va fun x hx => hva x (List.mem_cons_of_mem _ hx), hwrites.others d va (hva p (List.mem_cons_self ..))]

omit [DecidableEq D] in
theorem Writes.maps_of_ne {d : D} {va' : Nat} {e : Pte} (h : Writes s s' dir va e) (hne : ¬ (d = dir ∧ SamePage va' va)) :
    Maps s' d va' f ↔ Maps s d va' f := by
  simp only [Maps, h.others d va' hne]

/-- A permission bit is set. -/
theorem and_twoPow_ne_zero (x : BitVec 12) (i : Nat) (hi : i < 12) : x &&& BitVec.twoPow 12 i ≠ 0 ↔ x.getLsbD i = true := by
  rw [BitVec.and_twoPow]
  split
  case isTrue h =>
    refine iff_of_true (fun hzero => ?_) h
    have hbit := congrArg (BitVec.getLsbD · i) hzero
    simp [hi] at hbit
  case isFalse h => exact iff_of_false (fun hne => hne rfl) h

theorem mappedPte_present (e : Pte) (f : PageNo) (perm : BitVec 12) : (mappedPte e f perm).present ∧ (mappedPte e f perm).frame = f := by
  unfold mappedPte
  split
  case isTrue h => exact h
  case isFalse =>
    refine ⟨?_, rfl⟩
    simp only [present_iff, BitVec.getLsbD_or, show permPresent.getLsbD 0 = true from rfl, Bool.or_true]

theorem unmappedPte_present (e : Pte) : (unmappedPte e).present = false := by
  unfold unmappedPte
  split
  case isTrue =>
    simp only [present_iff, BitVec.getLsbD_and, show permAvailable.getLsbD 0 = false from rfl, Bool.and_false]
  case isFalse h => exact Bool.not_eq_true _ ▸ h

end Paging

namespace PagingRun

variable {D : Type} [DecidableEq D] {all : List PageNo} {boot : PageNo → Nat} {s t : PagingRun D} {f : PageNo} {va size : Nat}
  {perm : BitVec 12} {dir : D}

omit [DecidableEq D] in
theorem WalkInv.live_nodup (h : WalkInv all boot s) : s.live.Nodup := by
  obtain ⟨⟨tables, hi⟩, -⟩ := h
  obtain ⟨F, lost, howned⟩ := hi.owned
  exact (List.nodup_append.mp howned.nodup).1

omit [DecidableEq D] in
theorem WalkInv.kmalloc (h : WalkInv all boot s) (hsize : size ≤ 4294963200) (hs : s.kmalloc size = some (t, va)) :
    WalkInv all boot t ∧ t.paging.page = s.paging.page ∧ t.handed = s.handed ∧ t.live = if va = 0 then s.live else va :: s.live := by
  obtain ⟨⟨tables, hi⟩, hl⟩ := h
  obtain ⟨⟨k, va'⟩, hk, heq⟩ := Option.map_eq_some_iff.mp hs
  simp only [Prod.mk.injEq] at heq
  obtain ⟨rfl, rfl⟩ := heq
  obtain ⟨hl', hpage, -⟩ := hi.kmalloc_linked hl hsize hk
  exact ⟨⟨⟨tables, hi.kmalloc hsize hk⟩, hl'⟩, hpage, rfl, rfl⟩

omit [DecidableEq D] in
/-- Small sizes are served with blocks. -/
theorem WalkInv.kmalloc_block (h : WalkInv all boot s) (hsize : size ≤ 2048) (hs : s.kmalloc size = some (t, va)) :
    va < 4160749568 := by
  obtain ⟨⟨tables, hi⟩, -⟩ := h
  obtain ⟨⟨k, va'⟩, hk, heq⟩ := Option.map_eq_some_iff.mp hs
  cases heq
  obtain ⟨F, lost, howned⟩ := hi.owned
  obtain ⟨lost', hdone⟩ := howned.kmalloc (by omega) hk
  exact hdone.block hsize

theorem WalkInv.kfree (h : WalkInv all boot s) (hlive : va ∈ s.live) (hs : s.kfree va = some t) :
    WalkInv all boot t ∧ t.paging.page = s.paging.page ∧ t.handed = s.handed ∧ t.live = s.live.erase va := by
  obtain ⟨⟨tables, hi⟩, hl⟩ := h
  obtain ⟨k, hk, rfl⟩ := Option.map_eq_some_iff.mp hs
  obtain ⟨hl', hpage, -⟩ := hi.kfree_linked hl hlive hk
  exact ⟨⟨⟨tables, hi.kfree hlive hk⟩, hl'⟩, hpage, rfl, rfl⟩

omit [DecidableEq D] in
/-- A new frame is not mapped anywhere. -/
theorem WalkInv.allocateFrame (h : WalkInv all boot s) (hs : s.allocateFrame = some (t, f)) :
    WalkInv all boot t ∧ t.paging.page = s.paging.page ∧ t.handed = f :: s.handed ∧ (∀ c, t.hold c ≠ some f) ∧
      t.hold = s.hold := by
  obtain ⟨⟨tables, hi⟩, hl⟩ := h
  obtain ⟨⟨p, g⟩, hp, heq⟩ := Option.map_eq_some_iff.mp hs
  simp only [Prod.mk.injEq] at heq
  obtain ⟨rfl, rfl⟩ := heq
  obtain ⟨hi', hhold, -⟩ := hi.allocateFrame hp
  obtain ⟨hl', hpage, -, hunheld, -⟩ := hi.allocateFrame_linked hl hp
  refine ⟨⟨⟨tables, hi'⟩, hl'⟩, hpage, rfl, fun c hc => hunheld c ?_, ?_⟩
  · rw [← hhold]
    exact hc
  · exact hhold

omit [DecidableEq D] in
/-- A frame is handed out that is in the free list. -/
theorem allocateFrame_first (hs : s.allocateFrame = some (t, f)) : (s.paging.heap.mem.freeFrameList.head ()).first = some f := by
  obtain ⟨⟨p, g⟩, hp, heq⟩ := Option.map_eq_some_iff.mp hs
  obtain ⟨⟨m, x⟩, hm, heq'⟩ := Option.map_eq_some_iff.mp hp
  obtain ⟨y, hy, heq''⟩ := Option.map_eq_some_iff.mp hm
  cases heq''
  cases heq'
  cases heq
  exact hy

theorem WalkInv.mapFrame (h : WalkInv all boot s) (hva : va < userTop) (hf : f ∈ s.handed ∨ ∃ c, s.hold c = some f)
    (hnot : NotKernel s.paging.heap.mem f) (hroom : (holders s.hold f).ncard < 65535) (hperm : perm &&& permBuffered = 0)
    (hs : s.mapFrame dir f va perm = some t) : WalkInv all boot t ∧
      Paging.Writes s.paging t.paging dir va (Paging.mappedPte (s.paging.page dir va) f perm) ∧ t.handed = s.handed.erase f ∧
      t.live = s.live := by
  obtain ⟨⟨tables, hi⟩, hl⟩ := h
  obtain ⟨p, hp, rfl⟩ := Option.map_eq_some_iff.mp hs
  obtain ⟨hi', -⟩ := hi.mapFrame hf (hi.mapFrame_few hf hroom hp) (getLsbD_of_plain hperm) hva hp
  obtain ⟨hl', hwrites, -⟩ := hi.mapFrame_linked hl hf hnot hp
  exact ⟨⟨hi', hl'⟩, hwrites, rfl, rfl⟩

theorem WalkInv.mapFrame_holders {g : PageNo} (h : WalkInv all boot s) (hg : ∃ c, s.hold c = some g) (hne : g ≠ f)
    (hs : s.mapFrame dir f va perm = some t) : holders t.hold g ⊆ holders s.hold g := by
  obtain ⟨⟨tables, hi⟩, -⟩ := h
  obtain ⟨p, hp, rfl⟩ := Option.map_eq_some_iff.mp hs
  exact hi.mapFrame_holders (.inr hg) hne hp

theorem WalkInv.unmapFrame (h : WalkInv all boot s) (hs : s.unmapFrame dir va = some t) : WalkInv all boot t ∧
    Paging.Writes s.paging t.paging dir va (Paging.unmappedPte (s.paging.page dir va)) ∧ t.handed = s.handed ∧ t.live = s.live := by
  obtain ⟨⟨tables, hi⟩, hl⟩ := h
  obtain ⟨p, hp, rfl⟩ := Option.map_eq_some_iff.mp hs
  obtain ⟨hl', hwrites, -⟩ := hi.unmapFrame_linked hl hp
  exact ⟨⟨⟨tables, hi.unmapFrame hp⟩, hl'⟩, hwrites, rfl, rfl⟩

omit [DecidableEq D] in
theorem WalkInv.ptSetPagePermissions {toSet toClear : BitVec 12} (h : WalkInv all boot s)
    (hset : toSet.getLsbD 0 = false ∧ toSet.getLsbD 9 = false) (hclear : toClear.getLsbD 0 = false)
    (hs : s.ptSetPagePermissions dir va toSet toClear = some t) : WalkInv all boot t ∧
      Paging.Writes s.paging t.paging dir va
        ⟨(s.paging.page dir va).frame, ((s.paging.page dir va).perm ||| toSet) &&& ~~~ toClear⟩ ∧
      t.hold = s.hold ∧ t.handed = s.handed ∧ t.live = s.live := by
  obtain ⟨⟨tables, hi⟩, hl⟩ := h
  obtain ⟨p, hp, rfl⟩ := Option.map_eq_some_iff.mp hs
  obtain ⟨hi', hl', hwrites, hhold⟩ := hi.ptSetPagePermissions hl hset hclear hp
  exact ⟨⟨⟨tables, hi'⟩, hl'⟩, hwrites, hhold, rfl, rfl⟩

omit [DecidableEq D] in
/-- A mapped frame is not free and not handed out, so `allocate_frame` does not return it. -/
theorem WalkInv.maps_live {d : D} (h : WalkInv all boot s) (hm : s.paging.Maps d va f) :
    f ∉ s.handed ∧ (∀ F, s.paging.heap.mem.freeFrameList.Spells (fun _ => F) → f ∉ F) ∧ NotKernel s.paging.heap.mem f ∧
      ∃ c, s.hold c = some f := by
  obtain ⟨⟨tables, hi⟩, hl⟩ := h
  obtain ⟨F, ha⟩ := hi.accounts
  obtain ⟨x, hx⟩ := hm.hold
  refine ⟨fun hf => (ha.out_mem f hf).2 _ hx, fun F' hF' hf => ?_, hm.notKernel hl, _, hx⟩
  rw [hF'.toThreads.unique ha.free.toThreads ()] at hf
  exact ((ha.mem f).mp hf).2.2 _ hx

end PagingRun

namespace UserMem

variable {E : Type} [DecidableEq E] {all : List PageNo} {boot : PageNo → Nat} {m m' : UserMem E} {e : E} {va size : Nat}

/-- `allocate_user_mem` of a region that is not mapped marks its pages. -/
theorem allocateUserMem_spec (h : m.run.WalkInv all boot)
    (hunmapped : ∀ p ∈ pagesOf va size, (m.run.paging.page e p).present = false) (hs : m.allocateUserMem e va size = some m') :
    m'.run.WalkInv all boot ∧ (∀ p ∈ pagesOf va size, m'.run.paging.page e p = ⟨0, permUhpage⟩) ∧
      ∀ d va', (∀ p ∈ pagesOf va size, ¬ (d = e ∧ Paging.SamePage va' p)) →
        m'.run.paging.page d va' = m.run.paging.page d va' := by
  obtain ⟨p, hp, rfl⟩ := Option.map_eq_some_iff.mp hs
  obtain ⟨hi, hl, hself, hothers⟩ := Paging.Inv.markPages h.1 h.2 hunmapped hp
  exact ⟨⟨hi, hl⟩, hself, hothers⟩

/-- `allocate_user_mem` of a region whose frames are not mapped elsewhere marks its pages. -/
theorem allocateUserMem_marks (h : m.run.WalkInv all boot) (hsole : ∀ p ∈ pagesOf va size, m.run.paging.Sole e p)
    (hs : m.allocateUserMem e va size = some m') : (∃ all boot, m'.run.WalkInv all boot) ∧
      (∀ p ∈ pagesOf va size, m'.run.paging.page e p = ⟨0, permUhpage⟩) ∧
      ∀ d va', (∀ p ∈ pagesOf va size, ¬ (d = e ∧ Paging.SamePage va' p)) →
        m'.run.paging.page d va' = m.run.paging.page d va' := by
  obtain ⟨p, hp, rfl⟩ := Option.map_eq_some_iff.mp hs
  obtain ⟨⟨tables, hi⟩, hl⟩ := h
  obtain ⟨⟨all', boot', tables', hi'⟩, hl', hself, hothers⟩ := Paging.Inv.overwritePages ⟨all, boot, tables, hi⟩ hl hsole hp
  exact ⟨⟨all', boot', ⟨tables', hi'⟩, hl'⟩, hself, hothers⟩

end UserMem

end Fos.Mem
