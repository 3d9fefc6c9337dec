import Fos.Mem.UserMemInv
import Fos.Trap.Fault

/-! What the parts of the fault handler change: the algorithms clear `USED` bits and turn the hand until they have a victim,
    the victim's page is unmapped, the page of the fault is mapped to a new frame. -/

namespace Fos.Mem
open Lib Heap Disk Frames

namespace WorkingSet

variable {w : WorkingSet} {x y : Nat}

theorem mem_of_next (h : w.next x = some y) : y ∈ w.list :=
  (List.dropWhile_sublist _).subset (List.mem_of_getElem? h)

theorem mem_of_nextCircular (h : w.nextCircular x = some y) : y ∈ w.list := by
  unfold nextCircular at h
  split at h
  · rename_i n hn
    cases h
    exact mem_of_next hn
  · exact List.mem_of_mem_head? h

/-- A list with elements has a next element everywhere. -/
theorem nextCircular_isSome (hx : x ∈ w.list) : (w.nextCircular x).isSome := by
  unfold nextCircular
  split
  · rfl
  · cases hl : w.list with
    | nil => exact absurd hx (hl ▸ List.not_mem_nil)
    | cons => rfl

/-- What a fold picks out of `l` is in `l`, when each turn picks the element of the turn or leaves what was picked. -/
theorem foldl_pick_mem {α β : Type} {f : β × Option α → α → β × Option α} {l : List α}
    (hf : ∀ best y v, (f best y).2 = some v → v = y ∨ best.2 = some v) (l' : List α) (best : β × Option α)
    (hbest : ∀ v, best.2 = some v → v ∈ l) (hl' : ∀ v ∈ l', v ∈ l) : ∀ v, (l'.foldl f best).2 = some v → v ∈ l := by
  induction l' generalizing best with
  | nil => exact hbest
  | cons y l' ih =>
    refine ih _ (fun v hv => ?_) fun v hv => hl' v (List.mem_cons_of_mem _ hv)
    rcases hf best y v hv with rfl | hv
    · exact hl' v (List.mem_cons_self ..)
    · exact hbest v hv

/-- The minimum is at an element of the list. -/
theorem lruVictim_mem (h : w.lruVictim = some x) : x ∈ w.list := by
  refine foldl_pick_mem (fun best y v hv => ?_) w.list _ (fun _ hv => by cases hv) (fun _ => id) x h
  obtain ⟨min, victim⟩ := best
  dsimp only at hv
  split at hv
  · exact .inl (Option.some.inj hv).symm
  · exact .inr hv

end WorkingSet

namespace UserMem

variable {E : Type} [DecidableEq E] {all : List PageNo} {boot : PageNo → Nat} {s t u : UserMem E} {e : E} {va n wse : Nat}

/-! ### Bits, hand and time stamps -/

/-- The entries differ at most in the `USED` bit. -/
def SameButUsed (p q : Pte) : Prop := p.frame = q.frame ∧ ∀ i, i ≠ 5 → p.perm.getLsbD i = q.perm.getLsbD i

theorem SameButUsed.present {p q : Pte} (h : SameButUsed p q) : p.present = q.present := by
  rw [Bool.eq_iff_iff, present_iff, present_iff, h.2 0 (by decide)]

/-- `USED` bits, the hand of `e` and time stamps have changed, and nothing else. -/
structure Aged (all : List PageNo) (boot : PageNo → Nat) (e : E) (s t : UserMem E) : Prop where
  walk : s.run.WalkInv all boot → t.run.WalkInv all boot
  page : ∀ d q, SameButUsed (t.run.paging.page d q) (s.run.paging.page d q)
  hold : t.run.hold = s.run.hold
  handed : t.run.handed = s.run.handed
  live : t.run.live = s.run.live
  others : ∀ d, d ≠ e → t.ws d = s.ws d
  list : (t.ws e).list = (s.ws e).list
  maxSize : (t.ws e).maxSize = (s.ws e).maxSize
  elementVa : ∀ x, t.elementVa e x = s.elementVa e x
  disk : t.disk = s.disk
  data : t.data = s.data

omit [DecidableEq E] in
theorem Aged.refl (s : UserMem E) : Aged all boot e s s :=
  ⟨id, fun _ _ => ⟨rfl, fun _ _ => rfl⟩, rfl, rfl, rfl, fun _ _ => rfl, rfl, rfl, fun _ => rfl, rfl, rfl⟩

omit [DecidableEq E] in
theorem Aged.trans (h : Aged all boot e s t) (h' : Aged all boot e t u) : Aged all boot e s u where
  walk := h'.walk ∘ h.walk
  page d q := ⟨(h'.page d q).1.trans (h.page d q).1, fun i hi => ((h'.page d q).2 i hi).trans ((h.page d q).2 i hi)⟩
  hold := h'.hold.trans h.hold
  handed := h'.handed.trans h.handed
  live := h'.live.trans h.live
  others d hd := (h'.others d hd).trans (h.others d hd)
  list := h'.list.trans h.list
  maxSize := h'.maxSize.trans h.maxSize
  elementVa x := (h'.elementVa x).trans (h.elementVa x)
  disk := h'.disk.trans h.disk
  data := h'.data.trans h.data

/-- The hand of `e` turns, or a time stamp is written. -/
theorem aged_setWs {w : WorkingSet} (hlist : w.list = (s.ws e).list) (hmax : w.maxSize = (s.ws e).maxSize)
    (hva : ∀ x, (w.element x).virtualAddress = ((s.ws e).element x).virtualAddress) : Aged all boot e s (s.setWs e w) := by
  have hself : (s.setWs e w).ws e = w := Function.update_self ..
  refine ⟨id, fun _ _ => ⟨rfl, fun _ _ => rfl⟩, rfl, rfl, rfl, fun d hd => Function.update_of_ne hd .., ?_, ?_, fun x => ?_, rfl, rfl⟩
  · rw [hself, hlist]
  · rw [hself, hmax]
  · unfold UserMem.elementVa
    rw [hself, hva]

theorem setWs_self {w : WorkingSet} : (s.setWs e w).ws e = w := Function.update_self ..

theorem setWs_of_ne {w : WorkingSet} {d : E} (h : d ≠ e) : (s.setWs e w).ws d = s.ws d := Function.update_of_ne h ..

omit [DecidableEq E] in
/-- One write of an entry that leaves all but the `USED` bit. -/
theorem sameButUsed_of_writes {r : PagingRun E} {p : Pte} (hwrites : Paging.Writes s.run.paging r.paging e va p)
    (hp : SameButUsed p (s.run.paging.page e va)) (d : E) (q : Nat) :
    SameButUsed (r.paging.page d q) (s.run.paging.page d q) := by
  by_cases hsame : d = e ∧ Paging.SamePage q va
  · obtain ⟨rfl, hpage⟩ := hsame
    rw [Paging.page_samePage hpage, Paging.page_samePage hpage, hwrites.self]
    exact hp
  · rw [hwrites.others d q hsame]
    exact ⟨rfl, fun _ _ => rfl⟩

omit [DecidableEq E] in
theorem aged_setRun {toSet toClear : BitVec 12} {r : PagingRun E} (h : s.run.WalkInv all boot)
    (hset : ∀ i, i ≠ 5 → toSet.getLsbD i = false) (hclear : ∀ i, i ≠ 5 → toClear.getLsbD i = false)
    (hr : s.run.ptSetPagePermissions e va toSet toClear = some r) : Aged all boot e s (s.setRun r) := by
  obtain ⟨hwalk, hwrites, hhold, hhanded, hlive⟩ :=
    h.ptSetPagePermissions ⟨hset 0 (by decide), hset 9 (by decide)⟩ (hclear 0 (by decide)) hr
  refine ⟨fun _ => hwalk, fun d q => ?_, hhold, hhanded, hlive, fun _ _ => rfl, rfl, rfl, fun _ => rfl, rfl, rfl⟩
  refine sameButUsed_of_writes hwrites ⟨rfl, fun i hi => ?_⟩ d q
  rw [BitVec.getLsbD_and, BitVec.getLsbD_or, BitVec.getLsbD_not, hset i hi, hclear i hi]
  by_cases hlt : i < 12
  · simp [hlt]
  · simp [BitVec.getLsbD_of_ge _ _ (Nat.le_of_not_lt hlt)]

theorem permUsed_bit {i : Nat} (hi : i ≠ 5) : permUsed.getLsbD i = false := by
  show (BitVec.twoPow 12 5).getLsbD i = false
  rw [BitVec.getLsbD_twoPow, decide_eq_false hi.symm, Bool.and_false]

omit [DecidableEq E] in
theorem aged_clearUsed (h : s.run.WalkInv all boot) (hs : s.clearPermissions e va permUsed = some t) : Aged all boot e s t := by
  obtain ⟨r, hr, rfl⟩ := Option.map_eq_some_iff.mp hs
  exact aged_setRun h (fun _ _ => BitVec.getLsbD_zero) (fun _ hi => permUsed_bit hi) hr

omit [DecidableEq E] in
theorem aged_setUsed {r : PagingRun E} (h : s.run.WalkInv all boot) (hr : s.run.ptSetPagePermissions e va permUsed 0 = some r) :
    Aged all boot e s (s.setRun r) :=
  aged_setRun h (fun _ hi => permUsed_bit hi) (fun _ _ => BitVec.getLsbD_zero) hr

theorem permModified_bit {i : Nat} (hi : i ≠ 6) : permModified.getLsbD i = false := by
  show (BitVec.twoPow 12 6).getLsbD i = false
  rw [BitVec.getLsbD_twoPow, decide_eq_false hi.symm, Bool.and_false]

theorem permAvailable_bit {i : Nat} (hi : 9 ≤ i) : permAvailable.getLsbD i = decide (i < 12) := by
  rcases Nat.lt_or_ge i 12 with hlt | hge
  · obtain rfl | rfl | rfl : i = 9 ∨ i = 10 ∨ i = 11 := by omega
    all_goals rfl
  · rw [BitVec.getLsbD_of_ge _ _ hge, decide_eq_false (Nat.not_lt.mpr hge)]

/-- The loop of CLOCK ends at an element, where the hand then is. -/
theorem clockVictim_spec (h : s.run.WalkInv all boot) (hhand : ∀ x, (s.ws e).last = some x → x ∈ (s.ws e).list)
    (hs : clockVictim e n s = some (t, wse)) : Aged all boot e s t ∧ wse ∈ (s.ws e).list ∧ (t.ws e).last = some wse := by
  induction n generalizing s with
  | zero => exact nomatch hs
  | succ n ih =>
    unfold clockVictim at hs
    split at hs
    · exact nomatch hs
    · rename_i x hx
      obtain ⟨perms, -, hs⟩ := Option.bind_eq_some_iff.mp hs
      split at hs
      · cases hs
        exact ⟨.refl _, hhand wse hx, hx⟩
      · obtain ⟨s₁, hs₁, hs⟩ := Option.bind_eq_some_iff.mp hs
        have haged := aged_clearUsed h hs₁
        have hturned : Aged all boot e s (s₁.setWs e { s₁.ws e with last := (s₁.ws e).nextCircular x }) :=
          haged.trans (aged_setWs rfl rfl fun _ => rfl)
        have hhand₁ : ∀ y, ((s₁.setWs e { s₁.ws e with last := (s₁.ws e).nextCircular x }).ws e).last = some y →
            y ∈ ((s₁.setWs e { s₁.ws e with last := (s₁.ws e).nextCircular x }).ws e).list := by
          intro y hy
          rw [setWs_self] at hy ⊢
          exact WorkingSet.mem_of_nextCircular hy
        obtain ⟨haged', hmem, hlast⟩ := ih (hturned.walk h) hhand₁ hs
        rw [hturned.list] at hmem
        exact ⟨hturned.trans haged', hmem, hlast⟩

omit [DecidableEq E] in
/-- A round of Modified CLOCK stays in the list. -/
theorem modifiedClockPass_spec {start current : Nat} {isVictim : BitVec 12 → Bool} {clearUsed : Bool} {o : Option Nat}
    (h : s.run.WalkInv all boot) (hcurrent : current ∈ (s.ws e).list)
    (hs : modifiedClockPass e start isVictim clearUsed n s current = some (t, o)) :
    Aged all boot e s t ∧ (t.ws e).last = (s.ws e).last ∧ ∀ x, o = some x → x ∈ (s.ws e).list := by
  induction n generalizing s current with
  | zero => exact nomatch hs
  | succ n ih =>
    obtain ⟨perms, -, hs⟩ := Option.bind_eq_some_iff.mp hs
    split at hs
    · cases hs
      exact ⟨.refl _, rfl, fun x hx => by cases hx; exact hcurrent⟩
    · obtain ⟨s₁, hs₁, hs⟩ := Option.bind_eq_some_iff.mp hs
      have haged : Aged all boot e s s₁ ∧ (s₁.ws e).last = (s.ws e).last := by
        cases clearUsed with
        | true =>
          have haged := aged_clearUsed h hs₁
          obtain ⟨r, -, rfl⟩ := Option.map_eq_some_iff.mp hs₁
          exact ⟨haged, rfl⟩
        | false =>
          cases hs₁
          exact ⟨.refl _, rfl⟩
      obtain ⟨next, hnext, hs⟩ := Option.bind_eq_some_iff.mp hs
      split at hs
      · cases hs
        exact ⟨haged.1, haged.2, nofun⟩
      · obtain ⟨haged', hlast, hmem⟩ := ih (haged.1.walk h) (WorkingSet.mem_of_nextCircular hnext) hs
        rw [haged.1.list] at hmem
        exact ⟨haged.1.trans haged', hlast.trans haged.2, hmem⟩

omit [DecidableEq E] in
/-- Modified CLOCK finds an element. -/
theorem modifiedClockVictim_spec (h : s.run.WalkInv all boot) (hhand : ∀ x, (s.ws e).last = some x → x ∈ (s.ws e).list)
    (hs : s.modifiedClockVictim e = some (t, wse)) : Aged all boot e s t ∧ wse ∈ (s.ws e).list := by
  obtain ⟨start, hstart, hs⟩ := Option.bind_eq_some_iff.mp hs
  have hmem : start ∈ (s.ws e).list := by
    rcases Option.or_eq_some_iff.mp hstart with hlast | ⟨-, hfirst⟩
    · exact hhand start hlast
    · exact List.mem_of_mem_head? hfirst
  obtain ⟨⟨s₁, o₁⟩, hs₁, hs⟩ := Option.bind_eq_some_iff.mp hs
  obtain ⟨haged₁, -, hmem₁⟩ := modifiedClockPass_spec h hmem hs₁
  cases o₁ with
  | some x =>
    cases hs
    exact ⟨haged₁, hmem₁ wse rfl⟩
  | none =>
    obtain ⟨⟨s₂, o₂⟩, hs₂, hs⟩ := Option.bind_eq_some_iff.mp hs
    obtain ⟨haged₂, -, hmem₂⟩ := modifiedClockPass_spec (haged₁.walk h) (by rw [haged₁.list]; exact hmem) hs₂
    have haged₂ := haged₁.trans haged₂
    cases o₂ with
    | some x =>
      cases hs
      exact ⟨haged₂, haged₁.list ▸ hmem₂ wse rfl⟩
    | none =>
      obtain ⟨⟨s₃, o₃⟩, hs₃, hs⟩ := Option.map_eq_some_iff.mp hs
      obtain ⟨haged₃, -, hmem₃⟩ := modifiedClockPass_spec (haged₂.walk h) (by rw [haged₂.list]; exact hmem) hs₃
      cases hs
      refine ⟨haged₂.trans haged₃, ?_⟩
      cases o₃ with
      | some x => exact haged₂.list ▸ hmem₃ x rfl
      | none => exact hmem

/-- `update_WS_time_stamps` -/
theorem updateTimeStamps_spec (h : s.run.WalkInv all boot) (hs : s.updateTimeStamps e = some t) :
    Aged all boot e s t ∧ (t.ws e).last = (s.ws e).last := by
  have hexec : ∀ (l : List Nat) (s : UserMem E), s.run.WalkInv all boot → exec (updateTimeStamp e) s l = some t →
      Aged all boot e s t ∧ (t.ws e).last = (s.ws e).last := by
    intro l
    induction l with
    | nil =>
      intro s _ hs
      cases hs
      exact ⟨.refl _, rfl⟩
    | cons x l ih =>
      intro s h hs
      obtain ⟨s₁, hs₁, hs⟩ := exec_cons.mp hs
      obtain ⟨perms, -, hs₁⟩ := Option.bind_eq_some_iff.mp hs₁
      have hstamped : ∀ ts, Aged all boot e s
          (s.setWs e ((s.ws e).setElement x { (s.ws e).element x with timeStamp := ts })) := by
        refine fun ts => aged_setWs rfl rfl fun y => ?_
        unfold WorkingSet.setElement
        dsimp only
        rw [Function.update_apply]
        split
        case isTrue heq => rw [heq]
        case isFalse => rfl
      dsimp only at hs₁
      generalize hts : (if perms &&& permUsed ≠ 0 then ((s.ws e).element x).timeStamp / 2 ||| 2147483648
        else ((s.ws e).element x).timeStamp / 2) = ts at hs₁
      have haged₁ := (hstamped ts).trans (aged_clearUsed ((hstamped ts).walk h) hs₁)
      have hlast₁ : (s₁.ws e).last = (s.ws e).last := by
        obtain ⟨r, -, rfl⟩ := Option.map_eq_some_iff.mp hs₁
        show ((s.setWs e _).ws e).last = _
        rw [setWs_self]
        rfl
      obtain ⟨haged, hlast⟩ := ih s₁ (haged₁.walk h) hs
      exact ⟨haged₁.trans haged, hlast.trans hlast₁⟩
  exact hexec _ s h hs

/-! ### Pages that are evicted and loaded -/

omit [DecidableEq E] in
/-- The permissions of a page that has a table. -/
theorem permissions_of_table (h : s.run.WalkInv all boot) (ht : s.run.paging.pde e (pdx va) ≠ none) :
    s.permissions e va = some (s.run.paging.page e va).perm := by
  obtain ⟨⟨tables, hi⟩, hl⟩ := h
  obtain ⟨x, hx⟩ := Option.ne_none_iff_exists'.mp ht
  unfold permissions Paging.ptGetPagePermissions
  rw [hi.getPageTable_eq hl, Paging.page_of_some hx, hx]
  rfl

omit [DecidableEq E] in
/-- Without a table all bits are set. -/
theorem permissions_of_none (h : s.run.WalkInv all boot) (ht : s.run.paging.pde e (pdx va) = none) :
    s.permissions e va = some (BitVec.allOnes 12) := by
  obtain ⟨⟨tables, hi⟩, hl⟩ := h
  unfold permissions Paging.ptGetPagePermissions
  rw [hi.getPageTable_eq hl, ht]
  rfl

omit [DecidableEq E] in
theorem pde_of_present (h : (s.run.paging.page e va).present) : s.run.paging.pde e (pdx va) ≠ none := by
  intro hnone
  rw [Paging.page_of_none hnone] at h
  exact absurd h (by decide)

/-- The working sets and the pointers are as before. -/
structure SameWs (s t : UserMem E) : Prop where
  ws : t.ws = s.ws
  handed : t.run.handed = s.run.handed
  live : t.run.live = s.run.live

/-- The page of `e` is not mapped any more; when it was modified it has been written to the page file. -/
structure Evicted (e : E) (va : Nat) (s t : UserMem E) : Prop extends SameWs s t where
  page : ∃ p : Pte, p.present = false ∧ (∀ i, 9 ≤ i → p.perm.getLsbD i = (s.run.paging.page e va).perm.getLsbD i) ∧
    Paging.Writes s.run.paging t.run.paging e va p
  data : t.data = s.data
  disk : t.disk = s.disk ∧ (s.run.paging.page e va).perm.getLsbD 6 = false ∨
    s.disk.pfUpdateEnvPage e va (s.data (s.run.paging.page e va).frame) = some t.disk

omit [DecidableEq E] in
theorem writes_trans {p p₁ p₂ : Paging E} {q q' : Pte} (h : Paging.Writes p p₁ e va q) (h' : Paging.Writes p₁ p₂ e va q') :
    Paging.Writes p p₂ e va q' :=
  ⟨h'.self, fun d x hne => (h'.others d x hne).trans (h.others d x hne)⟩

/-- The bits that are available for software stay when a page is unmapped. -/
theorem unmappedPte_available (p : Pte) {i : Nat} (hi : 9 ≤ i) : (Paging.unmappedPte p).perm.getLsbD i = p.perm.getLsbD i := by
  unfold Paging.unmappedPte
  split
  case isFalse => rfl
  case isTrue =>
    dsimp only
    rw [BitVec.getLsbD_and, permAvailable_bit hi]
    rcases Nat.lt_or_ge i 12 with hlt | hge
    · rw [decide_eq_true hlt, Bool.and_true]
    · rw [BitVec.getLsbD_of_ge _ _ hge, Bool.false_and]

omit [DecidableEq E] in
theorem clearModified_spec (h : s.run.WalkInv all boot) (hs : s.clearPermissions e va permModified = some t) :
    t.run.WalkInv all boot ∧ SameWs s t ∧ t.disk = s.disk ∧ t.data = s.data ∧ t.run.hold = s.run.hold ∧
      Paging.Writes s.run.paging t.run.paging e va
        ⟨(s.run.paging.page e va).frame, (s.run.paging.page e va).perm &&& ~~~ permModified⟩ := by
  obtain ⟨r, hr, rfl⟩ := Option.map_eq_some_iff.mp hs
  obtain ⟨hwalk, hwrites, hhold, hhanded, hlive⟩ := h.ptSetPagePermissions ⟨rfl, rfl⟩ rfl hr
  rw [show (s.run.paging.page e va).perm ||| 0 = (s.run.paging.page e va).perm from BitVec.or_zero] at hwrites
  exact ⟨hwalk, ⟨rfl, hhanded, hlive⟩, rfl, rfl, hhold, hwrites⟩

theorem evictPage_spec (h : s.run.WalkInv all boot) (hs : s.evictPage e va = some t) :
    t.run.WalkInv all boot ∧ Evicted e va s t := by
  obtain ⟨perms, hperms, hs⟩ := Option.bind_eq_some_iff.mp hs
  obtain ⟨s₁, hs₁, hs⟩ := Option.bind_eq_some_iff.mp hs
  obtain ⟨r, hr, rfl⟩ := Option.map_eq_some_iff.mp hs
  split at hs₁
  case isTrue =>
    obtain ⟨disk, hdisk, hclear⟩ := Option.bind_eq_some_iff.mp hs₁
    obtain ⟨h₁, hws, hdisk₁, hdata, -, hwrites⟩ := clearModified_spec (s := { s with disk := disk }) h hclear
    obtain ⟨h₂, hunmap, hhanded, hlive⟩ := h₁.unmapFrame hr
    refine ⟨h₂, ⟨hws.ws, hhanded.trans hws.handed, hlive.trans hws.live⟩,
      ⟨_, Paging.unmappedPte_present _, fun i hi => ?_, writes_trans hwrites hunmap⟩, hdata, .inr ?_⟩
    · rw [unmappedPte_available _ hi, hwrites.self, BitVec.getLsbD_and, BitVec.getLsbD_not, permModified_bit (by omega)]
      rcases Nat.lt_or_ge i 12 with hlt | hge
      · rw [decide_eq_true hlt, Bool.not_false, Bool.and_self, Bool.and_true]
      · rw [BitVec.getLsbD_of_ge _ _ hge, Bool.false_and]
    · exact hdisk.trans (congrArg some hdisk₁.symm)
  case isFalse hclean =>
    cases hs₁
    obtain ⟨h₂, hunmap, hhanded, hlive⟩ := h.unmapFrame hr
    refine ⟨h₂, ⟨rfl, hhanded, hlive⟩, ⟨_, Paging.unmappedPte_present _, fun i hi => unmappedPte_available _ hi, hunmap⟩, rfl,
      .inl ⟨rfl, ?_⟩⟩
    have hnot : perms.getLsbD 6 = false :=
      Bool.eq_false_iff.mpr fun hbit => hclean ((Paging.and_twoPow_ne_zero _ 6 (by decide)).mpr hbit)
    cases ht : s.run.paging.pde e (pdx va) with
    | none =>
      rw [permissions_of_none h ht] at hperms
      cases hperms
      exact nomatch hnot
    | some x =>
      rw [permissions_of_table h (by rw [ht]; exact nofun)] at hperms
      cases hperms
      exact hnot

/-- The page of `e` is mapped to the new frame `f`, with the page of the page file in it when there is one. -/
structure Loaded (e : E) (va : Nat) (f : PageNo) (s t : UserMem E) (o : Outcome) : Prop extends SameWs s t where
  fresh : ∀ c, s.run.hold c ≠ some f
  page : Paging.Writes s.run.paging t.run.paging e va
    ⟨f, (s.run.paging.page e va).perm &&& permAvailable ||| (permPresent ||| permWriteable ||| permUser ||| permUsed)⟩
  disk : t.disk = s.disk
  content : s.disk.pfReadEnvPage e va = none ∧ t.data = s.data ∧ o = (if inHeapOrStack va then .served else .exit) ∨
    ∃ content, s.disk.pfReadEnvPage e va = some content ∧ t.data = Function.update s.data f content ∧ o = .served

/-- The new entry is not modified. -/
theorem loaded_perm (x : BitVec 12) :
    (x &&& permAvailable ||| (permPresent ||| permWriteable ||| permUser ||| permUsed)) &&& ~~~ permModified =
      x &&& permAvailable ||| (permPresent ||| permWriteable ||| permUser ||| permUsed) := by
  revert x
  decide +kernel

theorem loadPage_spec {o : Outcome} (h : s.run.WalkInv all boot) (hva : va < userTop)
    (hunmapped : (s.run.paging.page e va).present = false) (hs : s.loadPage e va = some (t, o)) :
    t.run.WalkInv all boot ∧ ∃ f, Loaded e va f s t o := by
  obtain ⟨⟨r₁, f⟩, hr₁, hs⟩ := Option.bind_eq_some_iff.mp hs
  obtain ⟨r₂, hr₂, hs⟩ := Option.bind_eq_some_iff.mp hs
  obtain ⟨⟨s₁, found⟩, hread, heq⟩ := Option.map_eq_some_iff.mp hs
  obtain ⟨rfl, rfl⟩ := Prod.ext_iff.mp heq
  obtain ⟨h₁, hpage, hhanded, hfree, hhold⟩ := h.allocateFrame hr₁
  have hnone : holders r₁.hold f = ∅ := holders_eq_empty.mpr hfree
  obtain ⟨h₂, hwrites, hhanded₂, hlive₂⟩ := h₁.mapFrame hva (.inl (by rw [hhanded]; exact List.mem_cons_self ..))
    (fun p => hfree (.kernel p)) (by rw [hnone, Set.ncard_empty]; decide) (by decide) hr₂
  have hlive₁ : r₁.live = s.run.live := by
    obtain ⟨x, -, hx⟩ := Option.map_eq_some_iff.mp hr₁
    cases hx
    rfl
  have hmapped : Paging.mappedPte (r₁.paging.page e va) f (permPresent ||| permWriteable ||| permUser ||| permUsed) =
      ⟨f, (s.run.paging.page e va).perm &&& permAvailable |||
        (permPresent ||| permWriteable ||| permUser ||| permUsed)⟩ := by
    unfold Paging.mappedPte
    rw [hpage, if_neg (by rw [hunmapped]; exact fun h => nomatch h.1), BitVec.or_assoc]
    rfl
  rw [hmapped] at hwrites
  have hwrites₀ : Paging.Writes s.run.paging r₂.paging e va _ :=
    ⟨hwrites.self, fun d x hne => by rw [hwrites.others d x hne, hpage]⟩
  have hws : SameWs s (s.setRun r₂) := by
    refine ⟨rfl, ?_, hlive₂.trans hlive₁⟩
    show r₂.handed = _
    rw [hhanded₂, hhanded, List.erase_cons_head]
  have hfresh : ∀ c, s.run.hold c ≠ some f := hhold ▸ hfree
  unfold pfReadEnvPage at hread
  split at hread
  · rename_i hcontent
    cases hread
    exact ⟨h₂, f, hws, hfresh, hwrites₀, rfl, .inl ⟨hcontent, rfl, by simp⟩⟩
  · rename_i content hcontent
    obtain ⟨-, hread⟩ := Option.ite_none_right_eq_some.mp hread
    obtain ⟨s₂, hclear, heq⟩ := Option.map_eq_some_iff.mp hread
    cases heq
    obtain ⟨h₃, hws₃, hdisk, hdata, -, hwrites₃⟩ := clearModified_spec
      (s := { s.setRun r₂ with data := Function.update s.data (r₂.paging.page e va).frame content }) h₂ hclear
    have hself : (r₂.paging.page e va).frame = f := by rw [hwrites₀.self]
    refine ⟨h₃, f, ⟨hws₃.ws, hws₃.handed.trans hws.handed, hws₃.live.trans hws.live⟩, hfresh, ?_, hdisk, .inr ⟨content, hcontent, ?_, by simp⟩⟩
    · refine writes_trans hwrites₀ ?_
      have hentry := hwrites₃
      rw [show (({ s.setRun r₂ with data := Function.update s.data (r₂.paging.page e va).frame content } : UserMem E).run.paging.page e va) =
        r₂.paging.page e va from rfl, hwrites₀.self, loaded_perm] at hentry
      exact hentry
    · rw [hdata]
      exact hself ▸ rfl

end UserMem

end Fos.Mem
