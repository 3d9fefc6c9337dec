import Fos.Trap.FaultInv

/-! What faults, clock ticks and the operations on the user heap keep: every element of a working set is a block of its own,
    and in the working set of a running environment no page is twice and every page is mapped, to a frame of its own. -/

namespace Fos.Mem
open Lib Heap Disk Frames

namespace UserMem

variable {E : Type} [DecidableEq E] {all all' : List PageNo} {boot boot' : PageNo → Nat} {s t u : UserMem E} {d e : E}
  {va n wse : Nat} {f : PageNo} {o : Outcome} {algorithm : Algorithm}

/-! ### The mappings -/

omit [DecidableEq E] in
theorem maps_congr (hpage : ∀ d q, (t.run.paging.page d q).present = (s.run.paging.page d q).present ∧
    (t.run.paging.page d q).frame = (s.run.paging.page d q).frame) : t.run.paging.Maps = s.run.paging.Maps := by
  funext d q f
  unfold Paging.Maps
  rw [(hpage d q).1, (hpage d q).2]

omit [DecidableEq E] in
theorem Aged.maps (h : Aged all boot e s t) : t.run.paging.Maps = s.run.paging.Maps :=
  maps_congr fun d q => ⟨(h.page d q).present, (h.page d q).1⟩

omit [DecidableEq E] in
theorem fresh_maps (hfresh : ∀ c, s.run.hold c ≠ some f) (d : E) (q : Nat) : ¬ s.run.paging.Maps d q f := by
  intro h
  obtain ⟨x, hx⟩ := h.hold
  exact hfresh _ hx

/-- The mapping of a page is gone, and the others are as before. -/
def Drops (e : E) (va : Nat) (s t : UserMem E) : Prop :=
  ∀ d q f, t.run.paging.Maps d q f ↔ s.run.paging.Maps d q f ∧ ¬ (d = e ∧ Paging.SamePage q va)

/-- A page that was not mapped is mapped to `f`, and the others are as before. -/
def Gains (e : E) (va : Nat) (f : PageNo) (s t : UserMem E) : Prop :=
  ∀ d q g, t.run.paging.Maps d q g ↔ s.run.paging.Maps d q g ∨ (d = e ∧ Paging.SamePage q va) ∧ g = f

omit [DecidableEq E] in
theorem drops_of_writes {p : Pte} (hwrites : Paging.Writes s.run.paging t.run.paging e va p) (hp : p.present = false) :
    Drops e va s t := by
  intro d q f
  by_cases hsame : d = e ∧ Paging.SamePage q va
  · obtain ⟨rfl, hpage⟩ := hsame
    unfold Paging.Maps
    rw [Paging.page_samePage hpage, hwrites.self, hp]
    exact iff_of_false (fun h => nomatch h.1) fun h => h.2 ⟨rfl, hpage⟩
  · rw [hwrites.maps_of_ne hsame]
    exact ⟨fun h => ⟨h, hsame⟩, And.left⟩

omit [DecidableEq E] in
theorem gains_of_writes {p : Pte} (hwrites : Paging.Writes s.run.paging t.run.paging e va p) (hp : p.present)
    (hunmapped : (s.run.paging.page e va).present = false) : Gains e va p.frame s t := by
  intro d q f
  by_cases hsame : d = e ∧ Paging.SamePage q va
  · obtain ⟨rfl, hpage⟩ := hsame
    unfold Paging.Maps
    rw [Paging.page_samePage hpage, Paging.page_samePage hpage, hwrites.self, hunmapped]
    exact ⟨fun h => .inr ⟨⟨rfl, hpage⟩, h.2.symm⟩, fun h => h.elim (fun h => nomatch h.1) fun h => ⟨hp, h.2.symm⟩⟩
  · rw [hwrites.maps_of_ne hsame]
    exact ⟨.inl, fun h => h.resolve_right fun h => hsame h.1⟩

theorem Evicted.drops (h : Evicted e va s t) : Drops e va s t := by
  obtain ⟨p, hp, -, hwrites⟩ := h.page
  exact drops_of_writes hwrites hp

theorem loaded_present (x : BitVec 12) (f : PageNo) :
    (⟨f, x &&& permAvailable ||| (permPresent ||| permWriteable ||| permUser ||| permUsed)⟩ : Pte).present := by
  rw [present_iff, BitVec.getLsbD_or]
  exact Bool.or_eq_true_iff.mpr (.inr rfl)

omit [DecidableEq E] in
theorem Loaded.gains (h : Loaded e va f s t o) (hunmapped : (s.run.paging.page e va).present = false) : Gains e va f s t :=
  gains_of_writes h.page (loaded_present ..) hunmapped

/-! ### The elements -/

/-- The elements of the working sets are live blocks of the kernel heap, in one list each and there once. -/
structure MemInv (all : List PageNo) (boot : PageNo → Nat) (s : UserMem E) : Prop where
  walk : s.run.WalkInv all boot
  live : ∀ e, ∀ x ∈ (s.ws e).list, x ∈ s.run.live
  block : ∀ e, ∀ x ∈ (s.ws e).list, x < 4160749568
  nodup : ∀ e, (s.ws e).list.Nodup
  apart : ∀ d e x, x ∈ (s.ws d).list → x ∈ (s.ws e).list → d = e

omit [DecidableEq E] in
/-- The lists keep their elements. -/
theorem MemInv.keep (h : MemInv all boot s) (hwalk : t.run.WalkInv all' boot') (hlist : ∀ d, (t.ws d).list.Perm (s.ws d).list)
    (hlive : ∀ d, ∀ x ∈ (s.ws d).list, x ∈ t.run.live) : MemInv all' boot' t where
  walk := hwalk
  live d x hx := hlive d x ((hlist d).mem_iff.mp hx)
  block d x hx := h.block d x ((hlist d).mem_iff.mp hx)
  nodup d := (hlist d).nodup_iff.mpr (h.nodup d)
  apart d e x hd he := h.apart d e x ((hlist d).mem_iff.mp hd) ((hlist e).mem_iff.mp he)

omit [DecidableEq E] in
/-- A new block is put into the list of `e`. -/
theorem MemInv.add (h : MemInv all boot s) (hwalk : t.run.WalkInv all' boot') (hothers : ∀ d, d ≠ e → (t.ws d).list = (s.ws d).list)
    (hlist : (t.ws e).list.Perm (wse :: (s.ws e).list)) (hlive : t.run.live = wse :: s.run.live) (hblock : wse < 4160749568) :
    MemInv all' boot' t := by
  have hnew : wse ∉ s.run.live := by
    have hnodup := hwalk.live_nodup
    rw [hlive] at hnodup
    exact (List.nodup_cons.mp hnodup).1
  have hmem : ∀ d x, x ∈ (t.ws d).list → d = e ∧ x = wse ∨ x ∈ (s.ws d).list := by
    intro d x hx
    rcases eq_or_ne d e with rfl | hne
    · rcases List.mem_cons.mp (hlist.mem_iff.mp hx) with rfl | hx
      · exact .inl ⟨rfl, rfl⟩
      · exact .inr hx
    · exact .inr (hothers d hne ▸ hx)
  refine ⟨hwalk, fun d x hx => ?_, fun d x hx => ?_, fun d => ?_, fun d d' x hx hx' => ?_⟩
  · rw [hlive]
    rcases hmem d x hx with ⟨-, rfl⟩ | hx
    · exact List.mem_cons_self ..
    · exact List.mem_cons_of_mem _ (h.live d x hx)
  · rcases hmem d x hx with ⟨-, rfl⟩ | hx
    · exact hblock
    · exact h.block d x hx
  · rcases eq_or_ne d e with rfl | hne
    · exact hlist.nodup_iff.mpr (List.nodup_cons.mpr ⟨fun hx => hnew (h.live d wse hx), h.nodup d⟩)
    · rw [hothers d hne]
      exact h.nodup d
  · rcases hmem d x hx with ⟨rfl, rfl⟩ | hold
    · rcases hmem d' x hx' with ⟨rfl, -⟩ | hold
      · rfl
      · exact absurd (h.live d' x hold) hnew
    · rcases hmem d' x hx' with ⟨-, rfl⟩ | hold'
      · exact absurd (h.live d x hold) hnew
      · exact h.apart d d' x hold hold'

omit [DecidableEq E] in
/-- A block is taken from the list of `e` and freed. -/
theorem MemInv.drop (h : MemInv all boot s) (hwalk : t.run.WalkInv all' boot') (hothers : ∀ d, d ≠ e → (t.ws d).list = (s.ws d).list)
    (hmem : wse ∈ (s.ws e).list) (hlist : (t.ws e).list = (s.ws e).list.erase wse) (hlive : t.run.live = s.run.live.erase wse) :
    MemInv all' boot' t := by
  have hsub : ∀ d, (t.ws d).list.Sublist (s.ws d).list := by
    intro d
    rcases eq_or_ne d e with rfl | hne
    · rw [hlist]
      exact List.erase_sublist
    · rw [hothers d hne]
  refine ⟨hwalk, fun d x hx => ?_, fun d x hx => h.block d x ((hsub d).subset hx), fun d => (h.nodup d).sublist (hsub d),
    fun d d' x hd hd' => h.apart d d' x ((hsub d).subset hd) ((hsub d').subset hd')⟩
  have hne : x ≠ wse := by
    rintro rfl
    rcases eq_or_ne d e with rfl | hne
    · rw [hlist] at hx
      exact (h.nodup d).not_mem_erase hx
    · exact hne (h.apart d e x ((hsub d).subset hx) hmem)
  rw [hlive]
  exact (List.mem_erase_of_ne hne).mpr (h.live d x ((hsub d).subset hx))

omit [DecidableEq E] in
theorem MemInv.aged (h : MemInv all boot s) (ha : Aged all boot e s t) : MemInv all boot t := by
  refine h.keep (ha.walk h.walk) (fun d => ?_) fun d x hx => by rw [ha.live]; exact h.live d x hx
  rcases eq_or_ne d e with rfl | hne
  · rw [ha.list]
  · rw [ha.others d hne]

omit [DecidableEq E] in
theorem MemInv.sameWs (h : MemInv all boot s) (hwalk : t.run.WalkInv all' boot') (hws : SameWs s t) : MemInv all' boot' t :=
  h.keep hwalk (fun d => by rw [hws.ws]) fun d x hx => by rw [hws.live]; exact h.live d x hx

omit [DecidableEq E] in
theorem MemInv.placed (h : MemInv all boot s) (hwalk : t.run.WalkInv all boot) (hp : Placed all boot e va s t o) :
    MemInv all boot t := by
  obtain ⟨u, f, hloaded, ⟨-, rfl⟩ | ⟨-, wse, hadded⟩⟩ := hp
  · exact h.sameWs hwalk hloaded.toSameWs
  · obtain ⟨l₁, l₂, hlist, hlist'⟩ := hadded.list
    refine h.add hwalk (fun d hd => by rw [hadded.others d hd, hloaded.ws]) ?_ (by rw [hadded.live, hloaded.live]) hadded.block
    rw [hlist', ← hloaded.ws, hlist]
    exact List.perm_middle

theorem MemInv.replaced (h : MemInv all boot s) (hr : Replaced all boot e va s t o) : MemInv all boot t := by
  obtain ⟨wse, -, s₁, s₂, s₃, f, haged, h₁, hevicted, h₂, hloaded, h₃, hcases⟩ := hr
  have hi₃ := ((h.aged haged).sameWs h₂ hevicted.toSameWs).sameWs h₃ hloaded.toSameWs
  obtain ⟨-, rfl⟩ | ⟨-, hrenamed⟩ := hcases
  · exact hi₃
  · refine hi₃.keep hrenamed.walk (fun d => ?_) fun d x hx => by rw [hrenamed.live]; exact hi₃.live d x hx
    rcases eq_or_ne d e with rfl | hne
    · exact hrenamed.list
    · rw [hrenamed.others d hne]

/-- The hand is at an element. -/
def HandIn (s : UserMem E) (e : E) : Prop := ∀ x, (s.ws e).last = some x → x ∈ (s.ws e).list

omit [DecidableEq E] in
theorem HandIn.congr (h : HandIn s e) (hws : t.ws e = s.ws e) : HandIn t e := by
  unfold HandIn
  rw [hws]
  exact h

omit [DecidableEq E] in
theorem Placed.others (h : Placed all boot e va s t o) (hne : d ≠ e) : t.ws d = s.ws d := by
  obtain ⟨u, f, hloaded, ⟨-, rfl⟩ | ⟨-, wse, hadded⟩⟩ := h
  · rw [hloaded.ws]
  · rw [hadded.others d hne, hloaded.ws]

omit [DecidableEq E] in
theorem HandIn.placed (h : HandIn s e) (hp : Placed all boot e va s t o) : HandIn t e := by
  obtain ⟨u, f, hloaded, ⟨-, rfl⟩ | ⟨-, wse, hadded⟩⟩ := hp
  · exact h.congr (by rw [hloaded.ws])
  · intro x hx
    obtain ⟨l₁, l₂, hlist, hlist'⟩ := hadded.list
    rcases hadded.hand x hx with hhand | hmem
    · have hu := h.congr (t := u) (by rw [hloaded.ws]) x hhand
      rw [hlist] at hu
      rw [hlist']
      exact List.perm_middle.mem_iff.mpr (List.mem_cons_of_mem _ hu)
    · exact hmem

theorem Replaced.others (h : Replaced all boot e va s t o) (hne : d ≠ e) : t.ws d = s.ws d := by
  obtain ⟨wse, -, s₁, s₂, s₃, f, haged, -, hevicted, -, hloaded, -, hcases⟩ := h
  have h₃ : s₃.ws d = s.ws d := by rw [hloaded.ws, hevicted.ws, haged.others d hne]
  obtain ⟨-, rfl⟩ | ⟨-, hrenamed⟩ := hcases
  · exact h₃
  · exact (hrenamed.others d hne).trans h₃

theorem Replaced.handIn (h : Replaced all boot e va s t .served) : HandIn t e := by
  obtain ⟨wse, -, s₁, s₂, s₃, f, -, -, -, -, -, -, hcases⟩ := h
  exact (hcases.elim (fun h => nomatch h.1) And.right : Renamed all boot e va wse s₃ t).hand

/-! ### The pages of a working set -/

/-- The elements `l` have different pages, each mapped to a frame that is mapped nowhere else. -/
structure Resident (s : UserMem E) (e : E) (l : List Nat) : Prop where
  aligned : ∀ x ∈ l, s.elementVa e x % 4096 = 0 ∧ s.elementVa e x < userTop
  pages : ∀ x ∈ l, ∀ y ∈ l, s.elementVa e x = s.elementVa e y → x = y
  mapped : ∀ x ∈ l, ∃ f, s.run.paging.Maps e (s.elementVa e x) f
  alone : ∀ x ∈ l, ∀ f d q, s.run.paging.Maps e (s.elementVa e x) f → s.run.paging.Maps d q f →
    d = e ∧ Paging.SamePage q (s.elementVa e x)

/-- The working set of a running environment: it is not longer than it may be, its pages are resident, and the hand is at an
    element, at least when the list is full. -/
structure WsInv (s : UserMem E) (e : E) : Prop where
  size : (s.ws e).list.length ≤ (s.ws e).maxSize
  hand : HandIn s e
  full : (s.ws e).list.length = (s.ws e).maxSize → (s.ws e).last ≠ none
  resident : Resident s e (s.ws e).list

/-- The mappings of the elements `l` are kept, and no other page is mapped to one of their frames. -/
structure KeepsPages (e : E) (l : List Nat) (s t : UserMem E) : Prop where
  va : ∀ x ∈ l, t.elementVa e x = s.elementVa e x
  kept : ∀ x ∈ l, ∀ f, s.run.paging.Maps e (s.elementVa e x) f → t.run.paging.Maps e (s.elementVa e x) f
  new : ∀ d q f, t.run.paging.Maps d q f → s.run.paging.Maps d q f ∨ ∀ x ∈ l, ¬ s.run.paging.Maps e (s.elementVa e x) f

variable {l l' : List Nat}

omit [DecidableEq E] in
theorem KeepsPages.of_maps (h : t.run.paging.Maps = s.run.paging.Maps) (hva : ∀ x ∈ l, t.elementVa e x = s.elementVa e x) :
    KeepsPages e l s t :=
  ⟨hva, fun _ _ _ hm => h ▸ hm, fun _ _ _ hm => .inl (h ▸ hm)⟩

omit [DecidableEq E] in
theorem KeepsPages.of_drops (h : Drops d va s t) (hva : ∀ x ∈ l, t.elementVa e x = s.elementVa e x)
    (hnot : ∀ x ∈ l, ¬ (e = d ∧ Paging.SamePage (s.elementVa e x) va)) : KeepsPages e l s t :=
  ⟨hva, fun x hx _ hm => (h ..).mpr ⟨hm, hnot x hx⟩, fun _ _ _ hm => .inl ((h ..).mp hm).1⟩

omit [DecidableEq E] in
theorem KeepsPages.of_gains (h : Gains d va f s t) (hfresh : ∀ d q, ¬ s.run.paging.Maps d q f)
    (hva : ∀ x ∈ l, t.elementVa e x = s.elementVa e x) : KeepsPages e l s t := by
  refine ⟨hva, fun x _ g hm => (h ..).mpr (.inl hm), fun d' q g hm => ?_⟩
  rcases (h ..).mp hm with hm | ⟨-, rfl⟩
  · exact .inl hm
  · exact .inr fun x _ => hfresh _ _

omit [DecidableEq E] in
theorem Resident.mono (h : Resident s e l) (hsub : ∀ x ∈ l', x ∈ l) : Resident s e l' :=
  ⟨fun x hx => h.aligned x (hsub x hx), fun x hx y hy => h.pages x (hsub x hx) y (hsub y hy), fun x hx => h.mapped x (hsub x hx),
    fun x hx => h.alone x (hsub x hx)⟩

omit [DecidableEq E] in
theorem Resident.keep (h : Resident s e l) (hk : KeepsPages e l s t) : Resident t e l := by
  refine ⟨fun x hx => ?_, fun x hx y hy heq => ?_, fun x hx => ?_, fun x hx f d q hm hm' => ?_⟩
  · rw [hk.va x hx]
    exact h.aligned x hx
  · rw [hk.va x hx, hk.va y hy] at heq
    exact h.pages x hx y hy heq
  · obtain ⟨f, hf⟩ := h.mapped x hx
    rw [hk.va x hx]
    exact ⟨f, hk.kept x hx f hf⟩
  · rw [hk.va x hx] at hm ⊢
    obtain ⟨g, hg⟩ := h.mapped x hx
    obtain rfl := (hk.kept x hx g hg).unique hm
    rcases hk.new d q g hm' with hm' | hnot
    · exact h.alone x hx g d q hg hm'
    · exact absurd hg (hnot x hx)

omit [DecidableEq E] in
/-- Two elements are of different pages. -/
theorem Resident.samePage {x y : Nat} (h : Resident s e l) (hx : x ∈ l) (hy : y ∈ l)
    (hsame : Paging.SamePage (s.elementVa e x) (s.elementVa e y)) : x = y := by
  refine h.pages x hx y hy ?_
  obtain ⟨halign, hlt⟩ := h.aligned x hx
  obtain ⟨halign', hlt'⟩ := h.aligned y hy
  simp only [userTop] at hlt hlt'
  rw [samePage_iff (by omega) (by omega)] at hsame
  omega

omit [DecidableEq E] in
/-- The page of an element is not mapped any more. -/
theorem Resident.drop (h : Resident s e l) (hdrops : Drops e (s.elementVa e wse) s t) (hwse : wse ∈ l)
    (hsub : ∀ x ∈ l', x ∈ l ∧ x ≠ wse) (hva : ∀ x ∈ l', t.elementVa e x = s.elementVa e x) : Resident t e l' := by
  refine (h.mono fun x hx => (hsub x hx).1).keep (.of_drops hdrops hva fun x hx ⟨_, hsame⟩ => ?_)
  exact (hsub x hx).2 (h.samePage (hsub x hx).1 hwse hsame)

omit [DecidableEq E] in
/-- A page that was not mapped gets an element and a frame. -/
theorem Resident.gain (h : Resident s e l) (hgains : Gains e va f s t) (hfresh : ∀ d q, ¬ s.run.paging.Maps d q f)
    (halign : va % 4096 = 0) (hlt : va < userTop) (hunmapped : (s.run.paging.page e va).present = false)
    (hwse : t.elementVa e wse = va) (hva : ∀ x ∈ l, t.elementVa e x = s.elementVa e x) (hl : ∀ x ∈ l', x = wse ∨ x ∈ l) :
    Resident t e l' := by
  have hold := h.keep (.of_gains hgains hfresh hva)
  have hnot : ∀ x ∈ l, t.elementVa e x ≠ va := by
    intro x hx heq
    obtain ⟨g, hg, -⟩ := h.mapped x hx
    rw [← hva x hx, heq, hunmapped] at hg
    exact nomatch hg
  have hself : t.run.paging.Maps e va f := (hgains ..).mpr (.inr ⟨⟨rfl, rfl, rfl⟩, rfl⟩)
  refine ⟨fun x hx => ?_, fun x hx y hy heq => ?_, fun x hx => ?_, fun x hx g d q hm hm' => ?_⟩
  · rcases hl x hx with rfl | hx
    · exact hwse ▸ ⟨halign, hlt⟩
    · exact hold.aligned x hx
  · rcases hl x hx with rfl | hx
    · rcases hl y hy with rfl | hy
      · rfl
      · exact absurd (heq.symm.trans hwse) (hnot y hy)
    · rcases hl y hy with rfl | hy
      · exact absurd (heq.trans hwse) (hnot x hx)
      · exact hold.pages x hx y hy heq
  · rcases hl x hx with rfl | hx
    · exact ⟨f, hwse ▸ hself⟩
    · exact hold.mapped x hx
  · rcases hl x hx with rfl | hx
    · rw [hwse] at hm ⊢
      obtain rfl := hself.unique hm
      exact ((hgains ..).mp hm').elim (fun hm' => absurd hm' (hfresh d q)) And.left
    · exact hold.alone x hx g d q hm hm'

omit [DecidableEq E] in
/-- The working set is as it was, and so are the mappings of its pages. -/
theorem WsInv.keep (h : WsInv s e) (hk : KeepsPages e (s.ws e).list s t) (hws : t.ws e = s.ws e) : WsInv t e :=
  ⟨hws ▸ h.size, h.hand.congr hws, hws ▸ h.full, hws ▸ h.resident.keep hk⟩

omit [DecidableEq E] in
theorem elementVa_congr (h : t.ws e = s.ws e) (x : Nat) : t.elementVa e x = s.elementVa e x := by
  unfold elementVa
  rw [h]

/-! ### Faults -/

omit [DecidableEq E] in
/-- The page of a fault gets an element. -/
theorem WsInv.placed (h : WsInv s e) (hnodup : (t.ws e).list.Nodup) (hva : va < userTop) (halign : va % 4096 = 0)
    (hunmapped : (s.run.paging.page e va).present = false) (hlt : (s.ws e).list.length < (s.ws e).maxSize)
    (hp : Placed all boot e va s t .served) : WsInv t e := by
  obtain ⟨u, f, hloaded, hcases⟩ := hp
  obtain ⟨wse, hadded⟩ : ∃ wse, Added all boot e va wse u t := hcases.elim (fun h => nomatch h.1) And.right
  obtain ⟨l₁, l₂, hlist, hlist'⟩ := hadded.list
  have hws := hloaded.ws
  have hperm : (t.ws e).list.Perm (wse :: (s.ws e).list) := by
    rw [hlist', ← hws, hlist]
    exact List.perm_middle
  have hnew : wse ∉ (s.ws e).list := (List.nodup_cons.mp (hperm.nodup_iff.mp hnodup)).1
  have hgains : Gains e va f s t := by
    intro d q g
    rw [maps_congr (s := u) fun d q => by rw [hadded.page]; exact ⟨rfl, rfl⟩]
    exact hloaded.gains hunmapped d q g
  have helem : ∀ x ∈ (s.ws e).list, t.elementVa e x = s.elementVa e x := by
    intro x hx
    have hne : x ≠ wse := by
      rintro rfl
      exact hnew hx
    rw [hadded.elementVa, if_neg hne]
    exact elementVa_congr (by rw [hws]) x
  refine ⟨?_, h.hand.placed ⟨u, f, hloaded, .inr ⟨rfl, wse, hadded⟩⟩, hadded.full, h.resident.gain hgains (fresh_maps hloaded.fresh)
    halign hva hunmapped ((hadded.elementVa wse).trans (if_pos rfl)) helem fun x hx => List.mem_cons.mp (hperm.mem_iff.mp hx)⟩
  rw [hperm.length_eq, hadded.maxSize, hws]
  exact hlt

/-- The page of a fault replaces the page of an element. -/
theorem WsInv.replaced (h : WsInv s e) (hva : va < userTop) (halign : va % 4096 = 0)
    (hunmapped : (s.run.paging.page e va).present = false) (hr : Replaced all boot e va s t .served) : WsInv t e := by
  obtain ⟨wse, hmem, s₁, s₂, s₃, f, haged, -, hevicted, -, hloaded, -, hcases⟩ := hr
  have hrenamed : Renamed all boot e va wse s₃ t := hcases.elim (fun h => nomatch h.1) And.right
  have hws₂ : (s₂.ws e).list = (s.ws e).list := by rw [hevicted.ws, haged.list]
  have hunmapped₂ : (s₂.run.paging.page e va).present = false :=
    hevicted.unmapped ((haged.page e va).present.trans hunmapped)
  have hres₁ : Resident s₁ e (s.ws e).list := h.resident.keep (.of_maps haged.maps fun x _ => haged.elementVa x)
  rw [← haged.elementVa] at hevicted
  have hva₂ : ∀ x, s₂.elementVa e x = s₁.elementVa e x := elementVa_congr (by rw [hevicted.ws])
  have hres₂ : Resident s₂ e ((s.ws e).list.filter (· ≠ wse)) :=
    hres₁.drop hevicted.drops hmem (fun x hx => by simpa using hx) fun x _ => hva₂ x
  have hgains : Gains e va f s₂ t := by
    intro d q g
    rw [maps_congr (s := s₃) fun d q => ⟨(hrenamed.page d q).present, (hrenamed.page d q).1⟩]
    exact hloaded.gains hunmapped₂ d q g
  have hres : Resident t e (s.ws e).list := by
    refine hres₂.gain hgains (fresh_maps hloaded.fresh) halign hva hunmapped₂ ((hrenamed.elementVa wse).trans (if_pos rfl))
      (fun x hx => ?_) fun x hx => ?_
    · have hne : x ≠ wse := by simpa using (List.mem_filter.mp hx).2
      rw [hrenamed.elementVa, if_neg hne]
      exact elementVa_congr (by rw [hloaded.ws]) x
    · rcases eq_or_ne x wse with heq | hne
      · exact .inl heq
      · exact .inr (List.mem_filter.mpr ⟨hx, by simpa using hne⟩)
  have hperm : (t.ws e).list.Perm (s.ws e).list := by
    have hperm := hrenamed.list
    rwa [hloaded.ws, hws₂] at hperm
  refine ⟨?_, hrenamed.hand, hrenamed.full, hres.mono fun x => hperm.mem_iff.mp⟩
  rw [hperm.length_eq, hrenamed.maxSize, hloaded.ws, hevicted.ws, haged.maxSize]
  exact h.size

omit [DecidableEq E] in
/-- A fault of `e` changes only mappings of `e` and maps only new frames. -/
theorem WsInv.placed_other (h : WsInv s d) (hne : d ≠ e) (hunmapped : (s.run.paging.page e va).present = false)
    (hp : Placed all boot e va s t o) : WsInv t d := by
  obtain ⟨u, f, hloaded, hcases⟩ := hp
  have hu : WsInv u d := by
    refine h.keep (.of_gains (hloaded.gains hunmapped) (fresh_maps hloaded.fresh) fun x _ => ?_) (by rw [hloaded.ws])
    exact elementVa_congr (by rw [hloaded.ws]) x
  obtain ⟨-, rfl⟩ | ⟨-, wse, hadded⟩ := hcases
  · exact hu
  · refine hu.keep (.of_maps (maps_congr fun d q => ?_) fun x _ => ?_) (hadded.others d hne)
    · rw [hadded.page]
      exact ⟨rfl, rfl⟩
    · exact elementVa_congr (hadded.others d hne) x

theorem WsInv.replaced_other (h : WsInv s d) (hne : d ≠ e) (hunmapped : (s.run.paging.page e va).present = false)
    (hr : Replaced all boot e va s t o) : WsInv t d := by
  obtain ⟨wse, -, s₁, s₂, s₃, f, haged, -, hevicted, -, hloaded, -, hcases⟩ := hr
  have h₁ : WsInv s₁ d := h.keep (.of_maps haged.maps fun x _ => elementVa_congr (haged.others d hne) x) (haged.others d hne)
  have h₂ : WsInv s₂ d := by
    refine h₁.keep (.of_drops hevicted.drops (fun x _ => ?_) fun x _ hx => hne hx.1) (by rw [hevicted.ws])
    exact elementVa_congr (by rw [hevicted.ws]) x
  have hunmapped₂ : (s₂.run.paging.page e va).present = false :=
    hevicted.unmapped ((haged.page e va).present.trans hunmapped)
  have h₃ : WsInv s₃ d := by
    refine h₂.keep (.of_gains (hloaded.gains hunmapped₂) (fresh_maps hloaded.fresh) fun x _ => ?_) (by rw [hloaded.ws])
    exact elementVa_congr (by rw [hloaded.ws]) x
  obtain ⟨-, rfl⟩ | ⟨-, hrenamed⟩ := hcases
  · exact h₃
  · refine h₃.keep (.of_maps (maps_congr fun d q => ?_) fun x _ => ?_) (hrenamed.others d hne)
    · exact ⟨(hrenamed.page d q).present, (hrenamed.page d q).1⟩
    · exact elementVa_congr (hrenamed.others d hne) x

end UserMem

end Fos.Mem
