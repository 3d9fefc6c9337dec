import Fos.Heap.UHeapLimits

/-! `smalloc` and `sget` when the system call fails. The range was reserved before the call, and the failure path only tells
    the kernel to give up its pages: the size, the free regions and the break stay as the reservation left them. -/

namespace Fos.Heap
open Lib

namespace UHeap

variable {σ : Type} {h h' t : UHeap σ} {L : BulkList → List Nat} {out : List Nat} {n va : Nat}

/-- The sizes, the free regions and the break are the same. -/
structure Same (h t : UHeap σ) : Prop where
  sizes : t.allocationSizes = h.allocationSizes
  free : ∃ L L', h.bulks.Spells L ∧ t.bulks.Spells L' ∧ (t.bulks.regions (L' .free)).Perm (h.bulks.regions (L .free))
  page_break : t.uheapPageAllocBreak = h.uheapPageAllocBreak

theorem Limited.same_self (hl : Limited h L out) : Same h h := ⟨rfl, ⟨L, L, hl.spells, hl.spells, .refl _⟩, rfl⟩

/-- Where a request of no bytes is placed. -/
def emptyPlace (h : UHeap σ) : Nat :=
  match h.bulks.first .free with
  | some bb => h.bulks.start bb
  | none => h.uheapPageAllocBreak

/-- A request of `n` bytes changes nothing: no free region serves it and it does not end below the limit when the break is
    raised, or its size wrapped to 0 and the size that is stored was 0. -/
def ReservesNothing (h : UHeap σ) (L : BulkList → List Nat) (n : Nat) : Prop :=
  NoFit h L n ∧ userHeapMax ≤ h.uheapPageAllocBreak + n ∨ n = 0 ∧ h.allocationSizes (sizeIndex h.emptyPlace) = 0

theorem storeSize_zero (h : UHeap σ) (va : Nat) :
    (h.storeSize va 0).allocationSizes = h.allocationSizes ↔ h.allocationSizes (sizeIndex va) = 0 := by
  constructor
  · intro heq
    rw [← heq]
    exact Function.update_self ..
  · intro hzero
    show Function.update h.allocationSizes (sizeIndex va) 0 = h.allocationSizes
    rw [← hzero, Function.update_eq_self]

theorem sum_sizes {l l' : List Region} {r r' : Region} {G : List Region} (hl : l.Perm (r :: G)) (hl' : l'.Perm (r' :: G))
    (hperm : l'.Perm l) : r'.size = r.size := by
  have hsum : ∀ {a b : List Region}, a.Perm b → (a.map Region.size).sum = (b.map Region.size).sum := fun h => (h.map _).sum_nat
  have h₁ := hsum hl
  have h₂ := hsum hl'
  have h₃ := hsum hperm
  simp only [List.map_cons, List.sum_cons] at h₁ h₂
  omega

/-- A region that a placement takes is lost to the heap, unless it has no bytes. -/
theorem Limited.same_iff (hl : Limited h L out) {r : UHeap σ × Nat} (hplace : Placement h L n r)
    (hfit : ¬(NoFit h L n ∧ userHeapMax ≤ h.uheapPageAllocBreak + n)) :
    Same h r.1 ↔ n = 0 ∧ h.allocationSizes (sizeIndex h.emptyPlace) = 0 := by
  have hfree : ∀ {t : Bulks} {l : List Nat}, t.Spells (Function.update L .free l) →
      (∃ L₁ L₂, h.bulks.Spells L₁ ∧ t.Spells L₂ ∧ (t.regions (L₂ .free)).Perm (h.bulks.regions (L₁ .free))) →
      (t.regions l).Perm (h.bulks.regions (L .free)) := by
    rintro t l hspells ⟨L₁, L₂, h₁, h₂, hperm⟩
    rw [h₁.unique hl.spells, h₂.unique hspells, Function.update_self] at hperm
    exact hperm
  cases hplace with
  | @whole b hb hsize =>
    have hpos := (hl.below hb).pos
    dsimp only at hpos
    refine iff_of_false (fun hsame => ?_) fun hzero => by omega
    have hperm := hfree (Bulks.removeBulk_spells hl.spells hb) hsame.free
    have hlength := hperm.length_eq
    simp only [Bulks.regions, List.length_map, List.length_erase_of_mem hb] at hlength
    have := List.length_pos_of_mem hb
    omega
  | @front bb t _ hfirst hlt ht =>
    have hbb := hl.spells.mem_of_first hfirst
    obtain ⟨t', l, ht', -, hspells, hregions⟩ := hl.takeFront hbb hlt
    cases ht.symm.trans ht'
    have hplace : h.emptyPlace = h.bulks.start bb := by
      unfold emptyPlace
      rw [hfirst]
    have herase : (h.bulks.regions (L .free)).Perm (⟨h.bulks.start bb, h.bulks.size bb⟩ :: h.bulks.regions ((L .free).erase bb)) :=
      Bulks.regions_erase_perm hbb
    constructor
    · intro hsame
      have hsize := sum_sizes herase hregions (hfree hspells hsame.free)
      have hzero : n = 0 := by
        dsimp only at hsize
        omega
      subst hzero
      exact ⟨rfl, hplace ▸ (storeSize_zero h _).mp hsame.sizes⟩
    · rintro ⟨rfl, hzero⟩
      refine ⟨(storeSize_zero h _).mpr (hplace ▸ hzero), ⟨L, _, hl.spells, hspells, ?_⟩, rfl⟩
      rw [Function.update_self]
      exact hregions.trans herase.symm
  | above hno =>
    obtain ⟨hge, hlt, -⟩ := hl.break_range
    have hstart := hl.page_start
    have hmax : userHeapMax = 2684354560 := rfl
    have hroom : h.uheapPageAllocBreak + n < userHeapMax := by
      by_contra hend
      exact hfit ⟨hno, by omega⟩
    have hwrap : u32 (h.uheapPageAllocBreak + n) = h.uheapPageAllocBreak + n := u32_of_lt (by omega)
    have hextend : h.extendBreak n =
        ({ h.storeSize h.uheapPageAllocBreak n with uheapPageAllocBreak := h.uheapPageAllocBreak + n }, h.uheapPageAllocBreak) := by
      unfold UHeap.extendBreak
      rw [if_neg (by omega), sub32_of_le hlt.le (by omega), if_neg (by omega), hwrap, if_neg (by omega)]
      simp only [hwrap]
    rw [hextend]
    have hzero : n = 0 → h.emptyPlace = h.uheapPageAllocBreak := by
      rintro rfl
      unfold emptyPlace
      cases hfirst : h.bulks.first .free with
      | none => rfl
      | some bb =>
        have hpos := (hl.below (hl.spells.mem_of_first hfirst)).pos
        have hle := hno.2 bb hfirst
        dsimp only at hpos
        omega
    constructor
    · intro hsame
      have hbreak : h.uheapPageAllocBreak + n = h.uheapPageAllocBreak := hsame.page_break
      have hn : n = 0 := by omega
      subst hn
      exact ⟨rfl, hzero rfl ▸ (storeSize_zero h _).mp hsame.sizes⟩
    · rintro ⟨rfl, hstored⟩
      rw [hzero rfl] at hstored
      exact ⟨(storeSize_zero h _).mpr hstored, ⟨L, L, hl.spells, hl.spells, .refl _⟩, rfl⟩

end UHeap

namespace UProcess

variable {σ : Type} {s : UProcess σ} {ops : PageOps σ} {h : UHeap σ} {e : UHeapEvent} {n : Nat}

def IsShare : UHeapEvent → Prop
  | .smalloc _ _ _ => True
  | .sget _ _ => True
  | _ => False

/-- The call and its result. -/
def share (h : UHeap σ) : UHeapEvent → Option (UHeap σ × Nat)
  | .smalloc size notExists objID => h.smalloc size notExists objID
  | .sget size ret => h.sget size ret
  | _ => none

/-- The system call that shares the memory returns an error. -/
def Refused : UHeapEvent → Prop
  | .smalloc _ _ objID => objID < 0
  | .sget _ ret => ret < 0
  | _ => False

instance : DecidablePred Refused
  | .smalloc _ _ objID => inferInstanceAs (Decidable (objID < 0))
  | .sget _ ret => inferInstanceAs (Decidable (ret < 0))
  | .malloc _ => inferInstanceAs (Decidable False)
  | .free _ => inferInstanceAs (Decidable False)

/-- If the call returns null, the heap is as it was before the range was reserved. -/
def FailsClean (s : UProcess σ) (h : UHeap σ) (e : UHeapEvent) : Prop :=
  Survives s e → ∀ t, share s.heap e = some (t, 0) → h.Same t

theorem share_none (he : IsShare e) (hinit : s.heap.uheapInit = some h) (hreq : pageRequest e = none) :
    share s.heap e = some (h, 0) := by
  cases e with
  | smalloc size notExists objID =>
    have hnot : size = 0 ∨ notExists = false := by
      by_contra hgo
      exact nomatch hreq.symm.trans (if_neg hgo)
    show s.heap.smalloc size notExists objID = _
    unfold UHeap.smalloc
    rw [hinit, Option.bind_some, if_pos hnot]
  | sget size ret =>
    have hnot : size ≤ 0 := by
      by_contra hgo
      exact nomatch hreq.symm.trans (if_neg hgo)
    show s.heap.sget size ret = _
    unfold UHeap.sget
    rw [hinit, Option.bind_some, if_pos hnot]
  | malloc size => exact absurd he id
  | free va => exact absurd he id

theorem share_some (he : IsShare e) (hinit : s.heap.uheapInit = some h) (hreq : pageRequest e = some n) :
    share s.heap e = (h.userPageAllocCustomFit n).map fun r => if r.2 = 0 ∨ Refused e then (r.1, 0) else r := by
  cases e with
  | smalloc size notExists objID =>
    obtain ⟨hgo, heq⟩ := Option.ite_none_left_eq_some.mp hreq
    obtain rfl := Option.some.inj heq
    show s.heap.smalloc size notExists objID = _
    unfold UHeap.smalloc
    rw [hinit, Option.bind_some, if_neg hgo]
    exact Option.map_congr fun r _ => rfl
  | sget size ret =>
    obtain ⟨hgo, heq⟩ := Option.ite_none_left_eq_some.mp hreq
    obtain rfl := Option.some.inj heq
    show s.heap.sget size ret = _
    unfold UHeap.sget
    rw [hinit, Option.bind_some, if_neg hgo]
    exact Option.map_congr fun r _ => rfl
  | malloc size => exact absurd he id
  | free va => exact absurd he id

/-- What is left behind by a call of a heap that is within its limits. -/
theorem failsClean_iff {L : BulkList → List Nat} {out : List Nat} (hl : h.Limited L out) (he : IsShare e)
    (hinit : s.heap.uheapInit = some h) :
    FailsClean s h e ↔ (Refused e → ∀ n, pageRequest e = some n → h.ReservesNothing L n) := by
  have hmax : userHeapMax = 2684354560 := rfl
  have hmin : userHeapStart = 2147483648 := rfl
  cases hreq : pageRequest e with
  | none =>
    refine iff_of_true (fun _ t ht => ?_) fun _ n hn => nomatch hn
    rw [share_none he hinit hreq] at ht
    cases ht
    exact hl.same_self
  | some n =>
    obtain ⟨r, hr, hfits⟩ := hl.customFit (pageRequest_aligned hreq)
    have hshare := share_some he hinit hreq
    rw [hr, Option.map_some] at hshare
    have hsurvives : Survives s e ↔ (r.2 ≠ 0 → inUserRange r.2 n) := by
      constructor
      · exact fun halive => halive n h r.1 r.2 hreq hinit hr
      · rintro hrange n' h₁ h₂ va hreq' hinit' hfit
        cases hreq.symm.trans hreq'
        cases hinit.symm.trans hinit'
        cases hr.symm.trans hfit
        exact hrange
    have hreserve : (Refused e → ∀ m, some n = some m → h.ReservesNothing L m) ↔ (Refused e → h.ReservesNothing L n) :=
      imp_congr_right fun _ => ⟨fun hall => hall n rfl, fun hn m hm => by cases hm; exact hn⟩
    have hclean : FailsClean s h e ↔ ((r.2 ≠ 0 → inUserRange r.2 n) → r.2 = 0 ∨ Refused e → h.Same r.1) := by
      unfold FailsClean
      rw [hsurvives, hshare]
      refine imp_congr_right fun _ => ?_
      split
      case isTrue hnull => exact ⟨fun hall _ => hall r.1 rfl, fun hsame t ht => by cases ht; exact hsame hnull⟩
      case isFalse hptr => exact iff_of_true (fun t ht => by cases ht; exact absurd (.inl rfl) hptr) fun hnull => absurd hnull hptr
    rw [hreserve, hclean]
    by_cases hfull : UHeap.NoFit h L n ∧ userHeapMax ≤ h.uheapPageAllocBreak + n
    · refine iff_of_true (fun hrange _ => ?_) fun _ => .inl hfull
      cases hfits with
      | null => exact hl.same_self
      | free hfits => exact absurd hfull.1 hfits
      | raised _ hle =>
        -- The range ends at the limit, and the kernel terminates the process.
        have hge := hl.break_range.1
        have hend := (inUserRange_iff (by omega) hle).mp (hrange (by dsimp only; omega))
        omega
    · have hrange : r.2 ≠ 0 ∧ inUserRange r.2 n := by
        cases hfits with
        | null hno hlt => exact absurd ⟨hno, hlt.le⟩ hfull
        | free _ hlow _ hroom => exact ⟨by dsimp only; omega, (inUserRange_iff (by omega) hroom.le).mpr hroom.ne⟩
        | raised hno hle =>
          have hge := hl.break_range.1
          exact ⟨by dsimp only; omega, (inUserRange_iff (by omega) hle).mpr fun hend => hfull ⟨hno, hend.ge⟩⟩
      have hplace : UHeap.Placement h L n r := by
        obtain ⟨r', hr', hplace⟩ := hl.placement n
        exact Option.some.inj (hr'.symm.trans hr) ▸ hplace
      rw [imp_iff_right fun _ => hrange.2, or_iff_right hrange.1, hl.same_iff hplace hfull]
      exact imp_congr_right fun _ => (or_iff_right hfull).symm

/-- In every run of a living process, a call of `smalloc` or `sget` that returns null leaves the heap as it was exactly when
    the system call did not refuse it or no range was reserved for it. On the first call the heap is the one that
    `uheap_init` sets up. -/
theorem failed_share_clean_iff (hops : ops.Local) {w : σ} (hr : Reach (step ops) Survives ⟨{ world := w }, []⟩ s) (he : IsShare e) :
    ∃ h L, s.heap.uheapInit = some h ∧ h.bulks.Spells L ∧
      (FailsClean s h e ↔ (Refused e → ∀ n, pageRequest e = some n → h.ReservesNothing L n)) := by
  have hl : LimitedOrNew w s := hr.invariant (I := LimitedOrNew w) (.inl rfl) fun _ _ _ h hok hs => h.step hops hok hs
  rcases hl with rfl | ⟨L, hheap, -⟩
  · obtain ⟨L, hheap, -⟩ := Limited.initial w
    exact ⟨_, L, uheapInit_eq w, hheap.spells, failsClean_iff hheap he (uheapInit_eq w)⟩
  · exact ⟨_, L, hheap.uheapInit, hheap.spells, failsClean_iff hheap he hheap.uheapInit⟩

/-- A refused request that is larger than the heap reserves nothing. -/
theorem failed_share_clean_large : ∃ h : UHeap Unit, UHeap.uheapInit { world := () } = some h ∧
    FailsClean ⟨{ world := () }, []⟩ h (.smalloc 1073741824 true (-14)) := by
  obtain ⟨h, L, hinit, hspells, hiff⟩ :=
    failed_share_clean_iff (e := .smalloc 1073741824 true (-14)) BlockClient.residentPages_local (Reach.init) trivial
  refine ⟨h, hinit, hiff.mpr fun _ n hn => .inl ?_⟩
  obtain rfl := Option.some.inj hn
  cases hinit.symm.trans (uheapInit_eq ())
  have hnone : L .free = [] := hspells.eq_nil_of_first rfl
  refine ⟨⟨fun b hb => ?_, nofun⟩, by decide⟩
  rw [hnone] at hb
  exact nomatch hb

/-- A page is allocated, and the kernel refuses a shared object of one page: the break stays raised over the page, and its size
    stays recorded. -/
theorem failed_share_keeps_range : ∃ (s : UProcess Unit) (t : UHeap Unit),
    Reach (step BlockClient.residentPages) Survives ⟨{ world := () }, []⟩ s ∧ s.heap.uheapInit = some s.heap ∧
      share s.heap (.smalloc 4096 true (-14)) = some (t, 0) ∧ s.heap.uheapPageAllocBreak = 2181046272 ∧
      t.uheapPageAllocBreak = 2181050368 ∧ t.allocationSizes 8194 = 4096 ∧ ¬ FailsClean s s.heap (.smalloc 4096 true (-14)) := by
  obtain ⟨s, hs, hinit, hfit, hbreak, t, ht, hbreak', hsize⟩ : ∃ s, step BlockClient.residentPages ⟨initialHeap (), []⟩ (.malloc 4096) = some s ∧
      s.heap.uheapInit = some s.heap ∧ (s.heap.userPageAllocCustomFit 4096).map Prod.snd = some 2181046272 ∧
      s.heap.uheapPageAllocBreak = 2181046272 ∧ ∃ t, share s.heap (.smalloc 4096 true (-14)) = some (t, 0) ∧
      t.uheapPageAllocBreak = 2181050368 ∧ t.allocationSizes 8194 = 4096 :=
    ⟨_, rfl, rfl, rfl, rfl, _, rfl, rfl, by decide +kernel⟩
  have halive : Survives (⟨{ world := () }, []⟩ : UProcess Unit) (.malloc 4096) :=
    survives_of_fit (by decide : inUserRange 2181042176 4096) rfl (uheapInit_eq ()) rfl
  have hr : Reach (step BlockClient.residentPages) Survives ⟨{ world := () }, []⟩ s :=
    .step (.malloc 4096) .init halive ((malloc_first _ () 4096).trans hs)
  refine ⟨s, t, hr, hinit, ht, hbreak, hbreak', hsize, fun hclean => ?_⟩
  have hsame := hclean (survives_of_fit (by decide : inUserRange 2181046272 4096) rfl hinit hfit) t ht
  exact absurd (hbreak'.symm.trans (hsame.page_break.trans hbreak)) (by decide)

end UProcess

end Fos.Heap
