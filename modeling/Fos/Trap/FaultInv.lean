import Fos.Trap.FaultSteps

/-! What `page_fault_handler` does as a whole: it places the page of the fault, or it evicts the page of an element and puts
    the page of the fault in its place. -/

namespace Fos.Mem
open Lib Heap Disk Frames

namespace UserMem

variable {E : Type} [DecidableEq E] {all : List PageNo} {boot : PageNo → Nat} {s t u : UserMem E} {e : E} {va n wse : Nat}
  {o : Outcome} {algorithm : Algorithm}

/-- A new element is put into the working set of `e`. -/
structure Added (all : List PageNo) (boot : PageNo → Nat) (e : E) (va wse : Nat) (s t : UserMem E) : Prop where
  walk : t.run.WalkInv all boot
  page : t.run.paging.page = s.run.paging.page
  handed : t.run.handed = s.run.handed
  live : t.run.live = wse :: s.run.live
  block : wse < 4160749568
  others : ∀ d, d ≠ e → t.ws d = s.ws d
  list : ∃ l₁ l₂, (s.ws e).list = l₁ ++ l₂ ∧ (t.ws e).list = l₁ ++ wse :: l₂
  maxSize : (t.ws e).maxSize = (s.ws e).maxSize
  elementVa : ∀ x, t.elementVa e x = if x = wse then va else s.elementVa e x
  hand : ∀ x, (t.ws e).last = some x → (s.ws e).last = some x ∨ x ∈ (t.ws e).list
  full : (t.ws e).list.length = (t.ws e).maxSize → (t.ws e).last ≠ none
  disk : t.disk = s.disk
  data : t.data = s.data

/-- The element `wse` gets the page `va`; the order of the elements, the hand, `USED` bits and time stamps may change. -/
structure Renamed (all : List PageNo) (boot : PageNo → Nat) (e : E) (va wse : Nat) (s t : UserMem E) : Prop where
  walk : t.run.WalkInv all boot
  page : ∀ d q, SameButUsed (t.run.paging.page d q) (s.run.paging.page d q)
  handed : t.run.handed = s.run.handed
  live : t.run.live = s.run.live
  others : ∀ d, d ≠ e → t.ws d = s.ws d
  list : (t.ws e).list.Perm (s.ws e).list
  maxSize : (t.ws e).maxSize = (s.ws e).maxSize
  elementVa : ∀ x, t.elementVa e x = if x = wse then va else s.elementVa e x
  hand : ∀ x, (t.ws e).last = some x → x ∈ (t.ws e).list
  full : (t.ws e).list.length = (t.ws e).maxSize → (t.ws e).last ≠ none
  disk : t.disk = s.disk
  data : t.data = s.data

/-- Placement of the page `va`. -/
def Placed (all : List PageNo) (boot : PageNo → Nat) (e : E) (va : Nat) (s t : UserMem E) (o : Outcome) : Prop :=
  ∃ u f, Loaded e va f s u o ∧ (o = .exit ∧ t = u ∨ o = .served ∧ ∃ wse, Added all boot e va wse u t)

/-- Replacement by the page `va`. -/
def Replaced (all : List PageNo) (boot : PageNo → Nat) (e : E) (va : Nat) (s t : UserMem E) (o : Outcome) : Prop :=
  ∃ wse ∈ (s.ws e).list, ∃ s₁ s₂ s₃ f, Aged all boot e s s₁ ∧ s₁.run.WalkInv all boot ∧
    Evicted e (s.elementVa e wse) s₁ s₂ ∧ s₂.run.WalkInv all boot ∧ Loaded e va f s₂ s₃ o ∧ s₃.run.WalkInv all boot ∧
    (o = .exit ∧ t = s₃ ∨ o = .served ∧ Renamed all boot e va wse s₃ t)

theorem setElement_va (w : WorkingSet) (x y : Nat) (z : WorkingSetElement) :
    ((w.setElement x z).element y).virtualAddress = if y = x then z.virtualAddress else (w.element y).virtualAddress := by
  unfold WorkingSet.setElement
  dsimp only
  rw [Function.update_apply]
  split <;> rfl

theorem createElement_spec (h : s.run.WalkInv all boot) (halign : va % 4096 = 0) (hs : s.createElement e va = some (t, wse)) :
    ∃ r, r.WalkInv all boot ∧ r.paging.page = s.run.paging.page ∧ r.handed = s.run.handed ∧ r.live = wse :: s.run.live ∧
      wse < 4160749568 ∧ t = (s.setRun r).setWs e ((s.ws e).setElement wse { virtualAddress := va }) := by
  obtain ⟨-, hs⟩ := Option.ite_none_right_eq_some.mp hs
  obtain ⟨⟨r, x⟩, hr, hs⟩ := Option.bind_eq_some_iff.mp hs
  obtain ⟨hx, heq⟩ := Option.ite_none_left_eq_some.mp hs
  obtain ⟨h', hpage, hhanded, hlive⟩ := h.kmalloc (by decide) hr
  have hblock := h.kmalloc_block (by decide) hr
  rw [if_neg hx] at hlive
  have hround : roundDown va pageSize = va := by
    simp only [roundDown, pageSize]
    omega
  rw [hround] at heq
  cases heq
  exact ⟨r, h', hpage, hhanded, hlive, hblock, rfl⟩

/-- Where placement puts a new element. -/
def placed (w : WorkingSet) (wse : Nat) : WorkingSet :=
  let w := match w.last with
    | none => w.insertTail wse
    | some hand => w.insertBefore hand wse
  if w.list.length = w.maxSize ∧ w.last = none then { w with last := w.list.head? } else w

theorem placed_spec (w : WorkingSet) (wse : Nat) : (∃ l₁ l₂, w.list = l₁ ++ l₂ ∧ (placed w wse).list = l₁ ++ wse :: l₂) ∧
    (placed w wse).maxSize = w.maxSize ∧ (placed w wse).element = w.element ∧
    (∀ x, (placed w wse).last = some x → w.last = some x ∨ x ∈ (placed w wse).list) ∧
    ((placed w wse).list.length = (placed w wse).maxSize → (placed w wse).last ≠ none) := by
  unfold placed
  cases hlast : w.last with
  | none =>
    have hlist : (w.insertTail wse).list = w.list ++ wse :: [] := rfl
    have hnone : (w.insertTail wse).last = none := hlast
    dsimp only
    split
    case isTrue =>
      refine ⟨⟨w.list, [], (List.append_nil _).symm, hlist⟩, rfl, rfl, fun x hx => .inr (List.mem_of_mem_head? hx), fun _ => ?_⟩
      show (w.insertTail wse).list.head? ≠ none
      rw [hlist]
      cases w.list <;> exact nofun
    case isFalse hnot =>
      exact ⟨⟨w.list, [], (List.append_nil _).symm, hlist⟩, rfl, rfl, fun x hx => (nomatch hnone.symm.trans hx),
        fun hfull => absurd ⟨hfull, hnone⟩ hnot⟩
  | some hand =>
    have hsome : (w.insertBefore hand wse).last = some hand := hlast
    dsimp only
    rw [if_neg fun h => nomatch h.2.symm.trans hsome]
    exact ⟨⟨_, _, (List.takeWhile_append_dropWhile ..).symm, rfl⟩, rfl, rfl, fun x hx => .inl (hsome.symm.trans hx),
      fun _ hnone => nomatch hnone.symm.trans hsome⟩

omit [DecidableEq E] in
theorem loaded_outcome {f : PageNo} (h : Loaded e va f s t o) : o = .served ∨ o = .exit := by
  rcases h.content with ⟨-, -, ho⟩ | ⟨-, -, -, ho⟩
  · rw [ho]
    split
    · exact .inl rfl
    · exact .inr rfl
  · exact .inl ho

theorem place_spec (h : s.run.WalkInv all boot) (hva : va < userTop) (halign : va % 4096 = 0)
    (hunmapped : (s.run.paging.page e va).present = false) (hs : s.place e va = some (t, o)) :
    Placed all boot e va s t o ∧ t.run.WalkInv all boot := by
  obtain ⟨⟨u, o'⟩, hu, hs⟩ := Option.bind_eq_some_iff.mp hs
  obtain ⟨hu', f, hloaded⟩ := loadPage_spec h hva hunmapped hu
  have hexit : o' ≠ .served → t = u ∧ o = o' := by
    intro hne
    cases o' with
    | served => exact absurd rfl hne
    | exit => cases hs; exact ⟨rfl, rfl⟩
    | kernelFault => cases hs; exact ⟨rfl, rfl⟩
  rcases loaded_outcome hloaded with rfl | rfl
  · obtain ⟨⟨v, wse⟩, hv, heq⟩ := Option.map_eq_some_iff.mp hs
    obtain ⟨r, hr, hpage, hhanded, hlive, hblock, rfl⟩ := createElement_spec hu' halign hv
    generalize hw : (u.ws e).setElement wse { virtualAddress := va } = w at heq hv
    have heq : (((u.setRun r).setWs e w).setWs e (placed (((u.setRun r).setWs e w).ws e) wse), Outcome.served) = (t, o) := heq
    obtain ⟨rfl, rfl⟩ := Prod.ext_iff.mp heq
    rw [setWs_self]
    obtain ⟨hlist, hmax, helement, hhand, hfull⟩ := placed_spec w wse
    have hwlist : w.list = (u.ws e).list := hw ▸ rfl
    have hwmax : w.maxSize = (u.ws e).maxSize := hw ▸ rfl
    have hwlast : w.last = (u.ws e).last := hw ▸ rfl
    refine ⟨⟨u, f, hloaded, .inr ⟨rfl, wse, ?_⟩⟩, hr⟩
    refine ⟨hr, hpage, hhanded, hlive, hblock, fun d hd => ?_, ?_, ?_, fun x => ?_, ?_, ?_, rfl, rfl⟩
    · dsimp only
      rw [setWs_of_ne hd, setWs_of_ne hd]
      rfl
    · dsimp only
      rw [setWs_self, ← hwlist]
      exact hlist
    · dsimp only
      rw [setWs_self, hmax, hwmax]
    · dsimp only
      unfold elementVa
      rw [setWs_self, helement, ← hw]
      exact setElement_va ..
    · dsimp only
      rw [setWs_self, ← hwlast]
      exact hhand
    · dsimp only
      rw [setWs_self]
      exact hfull
  · obtain ⟨rfl, rfl⟩ := hexit nofun
    exact ⟨⟨t, f, hloaded, .inl ⟨rfl, rfl⟩⟩, hu'⟩

/-- A page that is not mapped is not mapped after an eviction. -/
theorem Evicted.unmapped {q : Nat} {d : E} (h : Evicted e va s t) (hq : (s.run.paging.page d q).present = false) :
    (t.run.paging.page d q).present = false := by
  obtain ⟨p, hp, -, hwrites⟩ := h.page
  by_cases hsame : d = e ∧ Paging.SamePage q va
  · obtain ⟨rfl, hpage⟩ := hsame
    rw [Paging.page_samePage hpage, hwrites.self]
    exact hp
  · rw [hwrites.others d q hsame]
    exact hq

theorem replaceVictim_spec {tested : Bool} (h : s.run.WalkInv all boot) (hva : va < userTop)
    (hunmapped : (s.run.paging.page e va).present = false) (hs : s.replaceVictim e wse va tested = some (t, o)) :
    ∃ s₂ s₃ f, Evicted e (s.elementVa e wse) s s₂ ∧ s₂.run.WalkInv all boot ∧ Loaded e va f s₂ s₃ o ∧ s₃.run.WalkInv all boot ∧
      (o = .exit ∧ t = s₃ ∨ o = .served ∧
        t = s₃.setWs e ((s₃.ws e).setElement wse { (s₃.ws e).element wse with virtualAddress := va })) := by
  obtain ⟨info, -, hs⟩ := Option.bind_eq_some_iff.mp hs
  obtain ⟨-, hs⟩ := Option.ite_none_left_eq_some.mp hs
  obtain ⟨s₂, hs₂, hs⟩ := Option.bind_eq_some_iff.mp hs
  obtain ⟨h₂, hevicted⟩ := evictPage_spec h hs₂
  obtain ⟨⟨s₃, o'⟩, hs₃, heq⟩ := Option.map_eq_some_iff.mp hs
  obtain ⟨h₃, f, hloaded⟩ := loadPage_spec h₂ hva (hevicted.unmapped hunmapped) hs₃
  rcases loaded_outcome hloaded with rfl | rfl
  · cases heq
    exact ⟨s₂, s₃, f, hevicted, h₂, hloaded, h₃, .inr ⟨rfl, rfl⟩⟩
  · cases heq
    exact ⟨s₂, _, f, hevicted, h₂, hloaded, h₃, .inl ⟨rfl, rfl⟩⟩

theorem setWs_setWs (w w' : WorkingSet) : (s.setWs e w).setWs e w' = s.setWs e w' := by
  unfold setWs
  dsimp only
  rw [Function.update_idem]

theorem renamed_of {r : PagingRun E} {w : WorkingSet} (hr : r.WalkInv all boot)
    (hpage : ∀ d q, SameButUsed (r.paging.page d q) (s.run.paging.page d q)) (hhanded : r.handed = s.run.handed)
    (hlive : r.live = s.run.live) (hlist : w.list.Perm (s.ws e).list) (hmax : w.maxSize = (s.ws e).maxSize)
    (hva : ∀ x, (w.element x).virtualAddress = if x = wse then va else s.elementVa e x)
    (hhand : ∀ x, w.last = some x → x ∈ w.list) (hfull : w.list.length = w.maxSize → w.last ≠ none) :
    Renamed all boot e va wse s ((s.setRun r).setWs e w) := by
  have hself : ((s.setRun r).setWs e w).ws e = w := setWs_self
  refine ⟨hr, hpage, hhanded, hlive, fun d hd => setWs_of_ne hd, ?_, ?_, fun x => ?_, ?_, ?_, rfl, rfl⟩
  · rw [hself]
    exact hlist
  · rw [hself]
    exact hmax
  · unfold elementVa
    rw [hself]
    exact hva x
  · rw [hself]
    exact hhand
  · rw [hself]
    exact hfull

theorem replaceClock_spec (h : s.run.WalkInv all boot) (hhand : ∀ x, (s.ws e).last = some x → x ∈ (s.ws e).list)
    (hva : va < userTop) (hunmapped : (s.run.paging.page e va).present = false) (hs : s.replaceClock e va = some (t, o)) :
    Replaced all boot e va s t o := by
  obtain ⟨⟨s₁, wse⟩, hs₁, hs⟩ := Option.bind_eq_some_iff.mp hs
  obtain ⟨haged, hmem, -⟩ := clockVictim_spec h hhand hs₁
  have h₁ := haged.walk h
  obtain ⟨⟨v, o'⟩, hv, heq⟩ := Option.map_eq_some_iff.mp hs
  obtain ⟨s₂, s₃, f, hevicted, h₂, hloaded, h₃, hcases⟩ :=
    replaceVictim_spec h₁ hva ((haged.page e va).present.trans hunmapped) hv
  rw [haged.elementVa] at hevicted
  refine ⟨wse, hmem, s₁, s₂, s₃, f, haged, h₁, hevicted, h₂, ?_⟩
  rcases hcases with ⟨rfl, rfl⟩ | ⟨rfl, rfl⟩
  · cases heq
    exact ⟨hloaded, h₃, .inl ⟨rfl, rfl⟩⟩
  · obtain ⟨rfl, rfl⟩ := Prod.ext_iff.mp heq
    refine ⟨hloaded, h₃, .inr ⟨rfl, ?_⟩⟩
    dsimp only
    rw [setWs_self, setWs_setWs]
    have hlist : (s₃.ws e).list = (s.ws e).list := by
      rw [hloaded.ws, hevicted.ws, haged.list]
    refine renamed_of (s := s₃) (r := s₃.run) h₃ (fun _ _ => ⟨rfl, fun _ _ => rfl⟩) rfl rfl (.refl _) rfl (fun x => setElement_va ..)
      (fun x hx => WorkingSet.mem_of_nextCircular hx) fun _ => ?_
    obtain ⟨x, hx⟩ := Option.isSome_iff_exists.mp
      (WorkingSet.nextCircular_isSome (w := (s₃.ws e).setElement wse { (s₃.ws e).element wse with virtualAddress := va })
        (x := wse) (hlist ▸ hmem))
    exact fun hnone => nomatch hnone.symm.trans hx

theorem replaceModifiedClock_spec (h : s.run.WalkInv all boot) (hhand : ∀ x, (s.ws e).last = some x → x ∈ (s.ws e).list)
    (hva : va < userTop) (hunmapped : (s.run.paging.page e va).present = false)
    (hs : s.replaceModifiedClock e va = some (t, o)) : Replaced all boot e va s t o := by
  obtain ⟨⟨s₁, wse⟩, hs₁, hs⟩ := Option.bind_eq_some_iff.mp hs
  obtain ⟨haged, hmem⟩ := modifiedClockVictim_spec h hhand hs₁
  have h₁ := haged.walk h
  obtain ⟨⟨v, o'⟩, hv, hs⟩ := Option.bind_eq_some_iff.mp hs
  obtain ⟨s₂, s₃, f, hevicted, h₂, hloaded, h₃, hcases⟩ :=
    replaceVictim_spec h₁ hva ((haged.page e va).present.trans hunmapped) hv
  rw [haged.elementVa] at hevicted
  refine ⟨wse, hmem, s₁, s₂, s₃, f, haged, h₁, hevicted, h₂, ?_⟩
  rcases hcases with ⟨rfl, rfl⟩ | ⟨rfl, rfl⟩
  · cases hs
    exact ⟨hloaded, h₃, .inl ⟨rfl, rfl⟩⟩
  · obtain ⟨r, hr, heq⟩ := Option.map_eq_some_iff.mp hs
    obtain ⟨rfl, rfl⟩ := Prod.ext_iff.mp heq
    refine ⟨hloaded, h₃, .inr ⟨rfl, ?_⟩⟩
    have hused := aged_setUsed (s := s₃) h₃ hr
    dsimp only
    rw [setWs_self]
    have hlist : (s₃.ws e).list = (s.ws e).list := by
      rw [hloaded.ws, hevicted.ws, haged.list]
    generalize hw : (s₃.ws e).setElement wse { (s₃.ws e).element wse with virtualAddress := va } = w
    have hwlist : w.list = (s₃.ws e).list := hw ▸ rfl
    have hreach : ∀ x, w.nextCircular wse = some x → x ∈ w.list := fun x hx => WorkingSet.mem_of_nextCircular hx
    obtain ⟨x, hx⟩ := Option.isSome_iff_exists.mp (WorkingSet.nextCircular_isSome (w := w) (x := wse) (hwlist ▸ hlist ▸ hmem))
    have heq : ((s₃.setWs e w).setRun r).setWs e { w with last := w.nextCircular wse } =
        (s₃.setRun r).setWs e { w with last := w.nextCircular wse } := setWs_setWs (s := s₃.setRun r) w _
    rw [heq]
    refine renamed_of (hused.walk h₃) hused.page hused.handed hused.live (hwlist ▸ .refl _) (hw ▸ rfl) (fun y => ?_) hreach
      fun _ hnone => nomatch hnone.symm.trans hx
    rw [← hw]
    exact setElement_va ..

theorem replaceLru_spec (h : s.run.WalkInv all boot) (hva : va < userTop) (hunmapped : (s.run.paging.page e va).present = false)
    (hs : s.replaceLru e va = some (t, o)) : Replaced all boot e va s t o := by
  unfold replaceLru at hs
  split at hs
  · exact nomatch hs
  · rename_i wse hvictim
    have hmem := WorkingSet.lruVictim_mem hvictim
    obtain ⟨⟨v, o'⟩, hv, hs⟩ := Option.bind_eq_some_iff.mp hs
    obtain ⟨s₂, s₃, f, hevicted, h₂, hloaded, h₃, hcases⟩ := replaceVictim_spec h hva hunmapped hv
    refine ⟨wse, hmem, s, s₂, s₃, f, .refl s, h, hevicted, h₂, ?_⟩
    rcases hcases with ⟨rfl, rfl⟩ | ⟨rfl, rfl⟩
    · cases hs
      exact ⟨hloaded, h₃, .inl ⟨rfl, rfl⟩⟩
    · obtain ⟨r, hr, heq⟩ := Option.map_eq_some_iff.mp hs
      obtain ⟨rfl, rfl⟩ := Prod.ext_iff.mp heq
      refine ⟨hloaded, h₃, .inr ⟨rfl, ?_⟩⟩
      have hused := aged_setUsed (s := s₃) h₃ hr
      have hlist : (s₃.ws e).list = (s.ws e).list := by
        rw [hloaded.ws, hevicted.ws]
      rw [setWs_self]
      generalize hw : ((s₃.ws e).setElement wse { (s₃.ws e).element wse with virtualAddress := va }) = w
      generalize hw' : w.setElement wse { w.element wse with timeStamp := 2147483648 } = w'
      have hwlist : w'.list = (s₃.ws e).list := hw' ▸ hw ▸ rfl
      have heq : ((s₃.setWs e w).setRun r).setWs e
          { w' with list := w'.list.erase wse ++ [wse]
                    last := if (w'.list.erase wse ++ [wse]).length = w'.maxSize then (w'.list.erase wse ++ [wse]).head? else none } =
          (s₃.setRun r).setWs e
          { w' with list := w'.list.erase wse ++ [wse]
                    last := if (w'.list.erase wse ++ [wse]).length = w'.maxSize then (w'.list.erase wse ++ [wse]).head? else none } :=
        setWs_setWs (s := s₃.setRun r) w _
      dsimp only
      rw [heq]
      refine renamed_of (hused.walk h₃) hused.page hused.handed hused.live ?_ (hw' ▸ hw ▸ rfl) (fun y => ?_) (fun x hx => ?_) fun hfull => ?_
      · dsimp only
        rw [hwlist]
        exact List.perm_append_comm.trans (List.perm_cons_erase (hlist ▸ hmem)).symm
      · dsimp only
        rw [← hw', setElement_va]
        split
        case isTrue heq =>
          rw [← hw, setElement_va, if_pos rfl]
        case isFalse hne =>
          rw [← hw, setElement_va, if_neg hne]
          rfl
      · dsimp only at hx
        split at hx
        · exact List.mem_of_mem_head? hx
        · exact nomatch hx
      · dsimp only at hfull ⊢
        rw [if_pos hfull]
        cases w'.list.erase wse <;> exact nofun

/-- `page_fault_handler` for a page that is not mapped. -/
theorem pageFaultHandler_spec (h : s.run.WalkInv all boot) (hhand : ∀ x, (s.ws e).last = some x → x ∈ (s.ws e).list)
    (hva : va < userTop) (hunmapped : (s.run.paging.page e (roundDown va pageSize)).present = false)
    (hs : pageFaultHandler algorithm s e va = some (t, o)) :
    (s.ws e).list.length < (s.ws e).maxSize ∧ Placed all boot e (roundDown va pageSize) s t o ∧ t.run.WalkInv all boot ∨
      ¬ (s.ws e).list.length < (s.ws e).maxSize ∧ Replaced all boot e (roundDown va pageSize) s t o := by
  have hround : roundDown va pageSize < userTop := lt_of_le_of_lt (Nat.sub_le ..) hva
  have halign : roundDown va pageSize % 4096 = 0 := by
    simp only [roundDown, pageSize]
    omega
  unfold pageFaultHandler at hs
  split at hs
  case isTrue hlt => exact .inl ⟨hlt, place_spec h hround halign hunmapped hs⟩
  case isFalse hge =>
    refine .inr ⟨hge, ?_⟩
    cases algorithm with
    | clock => exact replaceClock_spec h hhand hround hunmapped hs
    | lruTimeApprox => exact replaceLru_spec h hround hunmapped hs
    | modifiedClock => exact replaceModifiedClock_spec h hhand hround hunmapped hs

end UserMem

end Fos.Mem
