import Fos.Trap.WsInv

/-! What the operations on regions of the user heap do to the entries and to the working sets. -/

namespace Fos.Mem
open Lib Heap Disk Frames

namespace WorkingSet

variable {w : WorkingSet} {x y va : Nat}

/-- The element after another one is a different one. -/
theorem next_ne (hnodup : w.list.Nodup) (h : w.next x = some y) : y ≠ x := by
  unfold next at h
  have hdrop : (w.list.dropWhile (· ≠ x)).Nodup := hnodup.sublist (List.dropWhile_sublist _)
  cases hl : w.list.dropWhile (· ≠ x) with
  | nil =>
    rw [hl] at h
    exact nomatch h
  | cons z l =>
    have hz : z = x := by
      have hhead := List.head?_dropWhile_not (· ≠ x) w.list
      rw [hl] at hhead
      simpa using hhead
    rw [hl] at h hdrop
    rintro rfl
    rw [hz] at hdrop
    exact (List.nodup_cons.mp hdrop).1 (List.mem_of_getElem? (i := 0) (by simpa using h))

theorem remove_hand (hnodup : w.list.Nodup) (hhand : ∀ y, w.last = some y → y ∈ w.list) (h : (w.remove x).last = some y) :
    y ∈ (w.remove x).list := by
  unfold remove at h ⊢
  dsimp only at h ⊢
  split at h
  case isTrue => exact (List.mem_erase_of_ne (next_ne hnodup h)).mpr (mem_of_next h)
  case isFalse hne =>
    refine (List.mem_erase_of_ne ?_).mpr (hhand y h)
    rintro rfl
    exact hne h

/-- What the loop of `env_page_ws_invalidate` finds. -/
theorem find_spec (h : w.find va = some x) : x ∈ w.list ∧ (w.element x).virtualAddress / 4096 = va / 4096 := by
  refine ⟨List.mem_of_find?_eq_some h, ?_⟩
  have hpage : w.page x = roundDown va pageSize := by simpa using List.find?_some h
  simp only [page, roundDown, pageSize] at hpage
  omega

end WorkingSet

theorem samePage_of_div {q va : Nat} (h : q / 4096 = va / 4096) : Paging.SamePage q va := by
  unfold Paging.SamePage pdx ptx
  simp only [Fin.ext_iff, Fin.ofNat]
  omega

namespace Paging.SamePage

variable {p q r : Nat}

theorem symm (h : SamePage p q) : SamePage q p := ⟨h.1.symm, h.2.symm⟩

theorem trans (h : SamePage p q) (h' : SamePage q r) : SamePage p r := ⟨h.1.trans h'.1, h.2.trans h'.2⟩

end Paging.SamePage

namespace UserMem

variable {E : Type} [DecidableEq E] {all : List PageNo} {boot : PageNo → Nat} {s t u : UserMem E} {d e : E} {va size wse : Nat}

/-! ### `env_page_ws_invalidate` -/

/-- The element `wse` of `e` was freed and its page unmapped. -/
structure Invalidated (all : List PageNo) (boot : PageNo → Nat) (e : E) (wse : Nat) (s t : UserMem E) : Prop where
  walk : t.run.WalkInv all boot
  mem : wse ∈ (s.ws e).list
  page : Paging.Writes s.run.paging t.run.paging e (s.elementVa e wse)
    (Paging.unmappedPte (s.run.paging.page e (s.elementVa e wse)))
  handed : t.run.handed = s.run.handed
  live : t.run.live = s.run.live.erase wse
  ws : t.ws = Function.update s.ws e ((s.ws e).remove wse)
  disk : t.disk = s.disk
  data : t.data = s.data

theorem envPageWsInvalidate_spec (h : MemInv all boot s) (hs : s.envPageWsInvalidate e va = some t) :
    (s.ws e).find va = none ∧ t = s ∨
      ∃ wse, Paging.SamePage (s.elementVa e wse) va ∧ Invalidated all boot e wse s t := by
  unfold envPageWsInvalidate at hs
  split at hs
  · rename_i hnone
    cases hs
    exact .inl ⟨hnone, rfl⟩
  · rename_i wse hfind
    obtain ⟨hmem, hva⟩ := WorkingSet.find_spec hfind
    obtain ⟨r₁, hr₁, hs⟩ := Option.bind_eq_some_iff.mp hs
    obtain ⟨r₂, hr₂, rfl⟩ := Option.map_eq_some_iff.mp hs
    obtain ⟨h₁, hwrites, hhanded₁, hlive₁⟩ := h.walk.unmapFrame hr₁
    obtain ⟨h₂, hpage, hhanded₂, hlive₂⟩ := h₁.kfree (by rw [hlive₁]; exact h.live e wse hmem) hr₂
    refine .inr ⟨wse, samePage_of_div hva, h₂, hmem, ⟨?_, fun d q hne => ?_⟩, hhanded₂.trans hhanded₁, ?_, rfl, rfl, rfl⟩
    · rw [hpage]
      exact hwrites.self
    · rw [hpage]
      exact hwrites.others d q hne
    · rw [hlive₂, hlive₁]

theorem Invalidated.drops (h : Invalidated all boot e wse s t) : Drops e (s.elementVa e wse) s t :=
  drops_of_writes h.page (Paging.unmappedPte_present _)

theorem Invalidated.self (h : Invalidated all boot e wse s t) : t.ws e = (s.ws e).remove wse := by
  rw [h.ws, Function.update_self]

theorem Invalidated.others (h : Invalidated all boot e wse s t) (hne : d ≠ e) : t.ws d = s.ws d := by
  rw [h.ws, Function.update_of_ne hne]

theorem MemInv.invalidated (h : MemInv all boot s) (hi : Invalidated all boot e wse s t) : MemInv all boot t :=
  h.drop hi.walk (fun d hne => by rw [hi.others hne]) hi.mem (by rw [hi.self]; rfl) hi.live

theorem HandIn.invalidated (h : HandIn s e) (hnodup : (s.ws e).list.Nodup) (hi : Invalidated all boot e wse s t) : HandIn t e := by
  intro x hx
  rw [hi.self] at hx ⊢
  exact WorkingSet.remove_hand hnodup h hx

theorem WsInv.invalidated (h : WsInv s e) (hnodup : (s.ws e).list.Nodup) (hi : Invalidated all boot e wse s t) : WsInv t e := by
  have hlist : (t.ws e).list = (s.ws e).list.erase wse := by rw [hi.self]; rfl
  have hmax : (t.ws e).maxSize = (s.ws e).maxSize := by rw [hi.self]; rfl
  have hlength : (t.ws e).list.length < (s.ws e).maxSize := by
    have hlt := List.length_erase_of_mem hi.mem
    have hpos := List.length_pos_of_mem hi.mem
    have hle := h.size
    rw [hlist]
    omega
  refine ⟨hmax ▸ hlength.le, h.hand.invalidated hnodup hi, fun hfull => absurd (hfull.trans hmax) hlength.ne, ?_⟩
  refine h.resident.drop hi.drops hi.mem (fun x hx => ?_) fun x _ => ?_
  · rw [hlist] at hx
    exact ⟨List.mem_of_mem_erase hx, (hnodup.mem_erase_iff.mp hx).1⟩
  · unfold elementVa
    rw [hi.self]
    rfl

theorem WsInv.invalidated_other (h : WsInv s d) (hne : d ≠ e) (hi : Invalidated all boot e wse s t) : WsInv t d :=
  h.keep (.of_drops hi.drops (fun x _ => elementVa_congr (hi.others hne) x) fun _ _ hx => hne hx.1) (hi.others hne)

/-! ### `free_user_mem` -/

/-- A page of `e` is neither marked nor mapped any more, and the other pages are as before. -/
structure Freed (e : E) (va : Nat) (s t : UserMem E) : Prop where
  unmapped : (t.run.paging.page e va).present = false
  unmarked : (t.run.paging.page e va).perm.getLsbD 10 = false
  others : ∀ d q, ¬ (d = e ∧ Paging.SamePage q va) → t.run.paging.page d q = s.run.paging.page d q

theorem unmark_perm (x : BitVec 12) : ((x ||| 0) &&& ~~~ permUhpage).getLsbD 0 = x.getLsbD 0 ∧
    ((x ||| 0) &&& ~~~ permUhpage).getLsbD 10 = false := by
  have hzero : x ||| 0 = x := BitVec.or_zero
  rw [hzero, BitVec.getLsbD_and, BitVec.getLsbD_and, BitVec.getLsbD_not, BitVec.getLsbD_not]
  exact ⟨Bool.and_true _, Bool.and_false _⟩

omit [DecidableEq E] in
/-- The page `va` is not marked any more. -/
theorem unmark_spec {r : PagingRun E} (h : s.run.WalkInv all boot) (hr : s.run.ptSetPagePermissions e va 0 permUhpage = some r) :
    r.WalkInv all boot ∧ (r.paging.page e va).perm.getLsbD 10 = false ∧ (∀ d q, ¬ (d = e ∧ Paging.SamePage q va) →
      r.paging.page d q = s.run.paging.page d q) ∧ r.paging.Maps = s.run.paging.Maps ∧ r.live = s.run.live := by
  obtain ⟨h₁, hwrites, -, -, hlive⟩ := h.ptSetPagePermissions ⟨rfl, rfl⟩ rfl hr
  refine ⟨h₁, ?_, hwrites.others, maps_congr (s := s) (t := s.setRun r) fun d q => ?_, hlive⟩
  · rw [hwrites.self]
    exact (unmark_perm _).2
  · show (r.paging.page d q).present = _ ∧ (r.paging.page d q).frame = _
    by_cases hsame : d = e ∧ Paging.SamePage q va
    · obtain ⟨rfl, hpage⟩ := hsame
      rw [Paging.page_samePage hpage, Paging.page_samePage hpage, hwrites.self, Bool.eq_iff_iff, present_iff, present_iff]
      exact ⟨by rw [(unmark_perm _).1], rfl⟩
    · rw [hwrites.others d q hsame]
      exact ⟨rfl, rfl⟩

theorem Invalidated.entry (h : Invalidated all boot e wse s t) (hsame : Paging.SamePage (s.elementVa e wse) va) :
    t.run.paging.page e va = Paging.unmappedPte (s.run.paging.page e va) ∧
      ∀ d q, ¬ (d = e ∧ Paging.SamePage q va) → t.run.paging.page d q = s.run.paging.page d q := by
  have hself := h.page.self
  rw [Paging.page_samePage hsame, Paging.page_samePage hsame] at hself
  exact ⟨hself, fun d q hne => h.page.others d q fun hq => hne ⟨hq.1, hq.2.trans hsame⟩⟩

/-- What `env_page_ws_invalidate` does before the page is unmapped: no element is left for the page. -/
theorem invalidate_page (h : MemInv all boot s) (hs : s.envPageWsInvalidate e va = some t) : MemInv all boot t ∧
    (∀ i, 9 ≤ i → (t.run.paging.page e va).perm.getLsbD i = (s.run.paging.page e va).perm.getLsbD i) ∧
    (∀ d q, ¬ (d = e ∧ Paging.SamePage q va) → t.run.paging.page d q = s.run.paging.page d q) ∧
    (∀ d, d ≠ e → t.ws d = s.ws d) ∧ t.disk = s.disk ∧ t.data = s.data ∧ (HandIn s e → HandIn t e) ∧
    (va < 4294967296 → WsInv s e → WsInv t e ∧ ∀ x ∈ (t.ws e).list, ¬ Paging.SamePage (t.elementVa e x) va) := by
  obtain ⟨hfind, rfl⟩ | ⟨wse, hsame, hinv⟩ := envPageWsInvalidate_spec h hs
  · refine ⟨h, fun _ _ => rfl, fun _ _ _ => rfl, fun _ _ => rfl, rfl, rfl, id, fun hva hw => ⟨hw, fun x hx hsame => ?_⟩⟩
    obtain ⟨halign, hlt⟩ := hw.resident.aligned x hx
    simp only [userTop] at hlt
    rw [samePage_iff (by omega) hva] at hsame
    have hfound := List.find?_eq_none.mp hfind x hx
    refine hfound (decide_eq_true ?_)
    unfold elementVa at hsame halign
    simp only [WorkingSet.page, roundDown, pageSize]
    omega
  · obtain ⟨hself, hothers⟩ := hinv.entry hsame
    refine ⟨h.invalidated hinv, fun i hi => ?_, hothers, fun d hd => hinv.others hd, hinv.disk, hinv.data,
      fun hh => hh.invalidated (h.nodup e) hinv, fun _ hw => ⟨hw.invalidated (h.nodup e) hinv, fun x hx hx' => ?_⟩⟩
    · rw [hself, unmappedPte_available _ hi]
    · have hva : t.elementVa e x = s.elementVa e x := by
        unfold elementVa
        rw [hinv.self]
        rfl
      rw [hinv.self] at hx
      rw [hva] at hx'
      obtain ⟨hne, hmem⟩ := (h.nodup e).mem_erase_iff.mp hx
      exact hne (hw.resident.samePage hmem hinv.mem (hx'.trans hsame.symm))

/-- One round of `free_user_mem`. -/
theorem freePage_spec (h : MemInv all boot s) (hs : freePage e s va = some t) : MemInv all boot t ∧ Freed e va s t ∧
    (∀ d, d ≠ e → t.ws d = s.ws d) ∧ t.disk = s.disk.pfRemoveEnvPage e va ∧ t.data = s.data ∧ (HandIn s e → HandIn t e) ∧
      (va < 4294967296 → WsInv s e → WsInv t e) := by
  obtain ⟨r₁, hr₁, hs⟩ := Option.bind_eq_some_iff.mp hs
  obtain ⟨s₂, hs₂, hs⟩ := Option.bind_eq_some_iff.mp hs
  obtain ⟨r₃, hr₃, rfl⟩ := Option.map_eq_some_iff.mp hs
  obtain ⟨hwalk₁, hmark₁, hothers₁, hmaps₁, hlive₁⟩ := unmark_spec h.walk hr₁
  have h₁ : MemInv all boot { s with run := r₁, disk := s.disk.pfRemoveEnvPage e va } :=
    h.keep hwalk₁ (fun _ => .refl _) fun d x hx => by rw [hlive₁]; exact h.live d x hx
  have hw₁ : WsInv s e → WsInv { s with run := r₁, disk := s.disk.pfRemoveEnvPage e va } e := fun hw =>
    hw.keep (.of_maps hmaps₁ fun _ _ => rfl) rfl
  obtain ⟨h₂, hbits₂, hothers₂, hws₂, hdisk₂, hdata₂, hh₂, hw₂⟩ := invalidate_page h₁ hs₂
  obtain ⟨hwalk, hwrites, -, hlive⟩ := h₂.walk.unmapFrame hr₃
  refine ⟨h₂.keep hwalk (fun _ => .refl _) fun d x hx => by rw [hlive]; exact h₂.live d x hx, ⟨?_, ?_, fun d q hne => ?_⟩,
    hws₂, hdisk₂, hdata₂, hh₂, fun hva hw => ?_⟩
  · rw [hwrites.self]
    exact Paging.unmappedPte_present _
  · rw [hwrites.self, unmappedPte_available _ (by decide), hbits₂ 10 (by decide)]
    exact hmark₁
  · rw [hwrites.others d q hne, hothers₂ d q hne]
    exact hothers₁ d q hne
  · obtain ⟨hw₂, hnot⟩ := hw₂ hva (hw₁ hw)
    have hdrops : Drops e va s₂ { s₂ with run := r₃ } := drops_of_writes hwrites (Paging.unmappedPte_present _)
    exact hw₂.keep (.of_drops hdrops (fun _ _ => rfl) fun x hx hx' => hnot x hx hx'.2) rfl

omit [DecidableEq E] in
theorem Freed.drops (h : Freed e va s t) : Drops e va s t := by
  intro d q f
  by_cases hsame : d = e ∧ Paging.SamePage q va
  · obtain ⟨rfl, hpage⟩ := hsame
    refine iff_of_false (fun hm => ?_) fun hm => hm.2 ⟨rfl, hpage⟩
    rw [Paging.Maps, Paging.page_samePage hpage, h.unmapped] at hm
    cases hm.1
  · unfold Paging.Maps
    rw [h.others d q hsame]
    exact (and_iff_left hsame).symm

/-- What `free_user_mem` does to the pages. -/
structure FreedAll (e : E) (ps : List Nat) (s t : UserMem E) : Prop where
  unmapped : ∀ p ∈ ps, (t.run.paging.page e p).present = false
  unmarked : ∀ p ∈ ps, (t.run.paging.page e p).perm.getLsbD 10 = false
  others : ∀ d q, (∀ p ∈ ps, ¬ (d = e ∧ Paging.SamePage q p)) → t.run.paging.page d q = s.run.paging.page d q

theorem freePages_spec {ps : List Nat} (h : MemInv all boot s) (hs : exec (freePage e) s ps = some t) : MemInv all boot t ∧
    FreedAll e ps s t ∧ (∀ d, d ≠ e → t.ws d = s.ws d) ∧ t.data = s.data ∧ (HandIn s e → HandIn t e) ∧
      ((∀ p ∈ ps, p < 4294967296) → ∀ d, WsInv s d → WsInv t d) := by
  induction ps generalizing s with
  | nil =>
    cases hs
    exact ⟨h, ⟨nofun, nofun, fun _ _ _ => rfl⟩, fun _ _ => rfl, rfl, id, fun _ _ hw => hw⟩
  | cons p ps ih =>
    obtain ⟨s₁, hs₁, hs⟩ := exec_cons.mp hs
    obtain ⟨h₁, hfreed, hws₁, -, hdata₁, hh₁, hw₁⟩ := freePage_spec h hs₁
    obtain ⟨h', hall, hws, hdata, hh, hw⟩ := ih h₁ hs
    -- A page that is freed again later, and one that is not.
    have hlater : ∀ q, (∃ x ∈ ps, Paging.SamePage q x ∧ t.run.paging.page e q = t.run.paging.page e x) ∨
        t.run.paging.page e q = s₁.run.paging.page e q := by
      intro q
      by_cases hx : ∃ x ∈ ps, Paging.SamePage q x
      · obtain ⟨x, hx, hsame⟩ := hx
        exact .inl ⟨x, hx, hsame, Paging.page_samePage hsame e⟩
      · exact .inr (hall.others e q fun x hmem hsame => hx ⟨x, hmem, hsame.2⟩)
    refine ⟨h', ⟨fun q hq => ?_, fun q hq => ?_, fun d q hq => ?_⟩, fun d hd => (hws d hd).trans (hws₁ d hd), hdata.trans hdata₁,
      hh ∘ hh₁, fun hlt d hd => hw (fun x hx => hlt x (List.mem_cons_of_mem _ hx)) d ?_⟩
    · rcases List.mem_cons.mp hq with rfl | hq
      · rcases hlater q with ⟨x, hx, -, heq⟩ | heq
        · rw [heq]
          exact hall.unmapped x hx
        · rw [heq]
          exact hfreed.unmapped
      · exact hall.unmapped q hq
    · rcases List.mem_cons.mp hq with rfl | hq
      · rcases hlater q with ⟨x, hx, -, heq⟩ | heq
        · rw [heq]
          exact hall.unmarked x hx
        · rw [heq]
          exact hfreed.unmarked
      · exact hall.unmarked q hq
    · rw [hall.others d q fun x hx => hq x (List.mem_cons_of_mem _ hx), hfreed.others d q (hq p (List.mem_cons_self ..))]
    · rcases eq_or_ne d e with rfl | hne
      · exact hw₁ (hlt p (List.mem_cons_self ..)) hd
      · exact hd.keep (.of_drops hfreed.drops (fun x _ => elementVa_congr (hws₁ d hne) x) fun _ _ hx => hne hx.1) (hws₁ d hne)

omit [DecidableEq E] in
theorem lt_of_mem_pagesOf {p : Nat} (hp : p ∈ pagesOf va size) : p < 4294967296 := by
  obtain ⟨i, -, rfl⟩ := List.mem_map.mp hp
  exact u32_lt _

/-- `free_user_mem` -/
theorem freeUserMem_spec (h : MemInv all boot s) (hs : s.freeUserMem e va size = some t) : MemInv all boot t ∧
    FreedAll e (pagesOf va size) s t ∧ t.data = s.data ∧ (∀ d, HandIn s d → HandIn t d) ∧ ∀ d, WsInv s d → WsInv t d := by
  obtain ⟨h', hall, hws, hdata, hh, hw⟩ := freePages_spec h hs
  refine ⟨h', hall, hdata, fun d hd => ?_, hw fun _ => lt_of_mem_pagesOf⟩
  rcases eq_or_ne d e with rfl | hne
  · exact hh hd
  · exact hd.congr (hws d hne)

/-! ### `allocate_user_mem` and clock ticks -/

theorem MemInv.allocateUserMem (h : MemInv all boot s) (hsole : ∀ p ∈ pagesOf va size, s.run.paging.Sole e p)
    (hs : s.allocateUserMem e va size = some t) : (∃ all boot, MemInv all boot t) ∧ t.ws = s.ws := by
  obtain ⟨⟨all', boot', hwalk⟩, -⟩ := allocateUserMem_marks h.walk hsole hs
  obtain ⟨p, -, rfl⟩ := Option.map_eq_some_iff.mp hs
  exact ⟨⟨all', boot', h.keep hwalk (fun _ => .refl _) h.live⟩, rfl⟩

/-- A region that is not mapped is marked: the accounts stay. -/
theorem MemInv.allocateUnmapped (h : MemInv all boot s)
    (hunmapped : ∀ p ∈ pagesOf va size, (s.run.paging.page e p).present = false) (hs : s.allocateUserMem e va size = some t) :
    MemInv all boot t ∧ t.ws = s.ws := by
  obtain ⟨hwalk, -⟩ := allocateUserMem_spec h.walk hunmapped hs
  obtain ⟨p, -, rfl⟩ := Option.map_eq_some_iff.mp hs
  exact ⟨h.keep hwalk (fun _ => .refl _) h.live, rfl⟩

theorem WsInv.allocateUserMem (h : s.run.WalkInv all boot) (hunmapped : ∀ p ∈ pagesOf va size, (s.run.paging.page e p).present = false)
    (hw : WsInv s d) (hs : s.allocateUserMem e va size = some t) : WsInv t d := by
  obtain ⟨-, hself, hothers⟩ := allocateUserMem_spec h hunmapped hs
  obtain ⟨p, -, rfl⟩ := Option.map_eq_some_iff.mp hs
  refine hw.keep (.of_maps ?_ fun _ _ => rfl) rfl
  funext d q f
  by_cases hq : ∃ x ∈ pagesOf va size, d = e ∧ Paging.SamePage q x
  · obtain ⟨x, hx, rfl, hsame⟩ := hq
    unfold Paging.Maps
    rw [Paging.page_samePage hsame, Paging.page_samePage hsame, hunmapped x hx, hself x hx]
    exact propext (iff_of_false (fun h => nomatch h.1) fun h => nomatch h.1)
  · unfold Paging.Maps
    rw [hothers d q fun x hx h => hq ⟨x, hx, h⟩]

theorem HandIn.updateTimeStamps (h : s.run.WalkInv all boot) (hh : HandIn s d) (hs : s.updateTimeStamps e = some t) : HandIn t d := by
  obtain ⟨haged, hlast⟩ := updateTimeStamps_spec h hs
  rcases eq_or_ne d e with rfl | hne
  · intro x hx
    rw [haged.list]
    exact hh x (hlast ▸ hx)
  · exact hh.congr (haged.others d hne)

/-- A clock tick, where the hand stays. -/
theorem WsInv.updateTimeStamps (h : s.run.WalkInv all boot) (hw : WsInv s d) (hs : s.updateTimeStamps e = some t) : WsInv t d := by
  obtain ⟨haged, hlast⟩ := updateTimeStamps_spec h hs
  rcases eq_or_ne d e with rfl | hne
  · refine ⟨?_, hw.hand.updateTimeStamps h hs, fun hfull => ?_, ?_⟩
    · rw [haged.list, haged.maxSize]
      exact hw.size
    · rw [hlast]
      rw [haged.list, haged.maxSize] at hfull
      exact hw.full hfull
    · rw [haged.list]
      exact hw.resident.keep (.of_maps haged.maps fun x _ => haged.elementVa x)
  · exact hw.keep (.of_maps haged.maps fun x _ => elementVa_congr (haged.others d hne) x) (haged.others d hne)

end UserMem

end Fos.Mem
