import Fos.Proc.LoadInv
import Fos.Trap.RegionInv

/-! The working set that `env_create` leaves: the pages of the segments that were mapped, as many as there is room for, and the
    page of the stack. -/

namespace Fos.Mem
open Lib Heap Disk Frames

namespace Segment

/-- The segment is below the stack. -/
def Below (seg : Segment) : Prop := seg.virtualAddress + seg.sizeInMemory ≤ UserMem.stackVa

/-- The first segment ends before the page where the second one starts, or the other way round. -/
def PagesApart (seg seg' : Segment) : Prop :=
  roundUp (seg.virtualAddress + seg.sizeInMemory) pageSize ≤ roundDown seg'.virtualAddress pageSize ∨
    roundUp (seg'.virtualAddress + seg'.sizeInMemory) pageSize ≤ roundDown seg.virtualAddress pageSize

/-- The page is one of the segment. -/
def Has (seg : Segment) (p : Nat) : Prop :=
  p % 4096 = 0 ∧ roundDown seg.virtualAddress pageSize ≤ p ∧ p < roundUp (seg.virtualAddress + seg.sizeInMemory) pageSize

variable {seg seg' : Segment} {progName : String} {remaining p q : Nat}

theorem Below.bounds (h : Below seg) : seg.virtualAddress + seg.sizeInMemory ≤ 4005548032 ∧
    roundUp (seg.virtualAddress + seg.sizeInMemory) pageSize ≤ 4005548032 := by
  have hstack : UserMem.stackVa = 4005548032 := by decide
  have hle : seg.virtualAddress + seg.sizeInMemory ≤ 4005548032 := hstack ▸ h
  have hround := roundUp_page (n := seg.virtualAddress + seg.sizeInMemory) (by omega)
  exact ⟨hle, by omega⟩

theorem limit_le (seg : Segment) (progName : String) (remaining : Nat) : seg.limit progName remaining ≤ remaining := by
  unfold limit
  dsimp only
  split <;> split <;> omega

theorem prepaged_length (seg : Segment) (progName : String) (remaining : Nat) :
    (seg.prepaged progName remaining).length ≤ remaining := by
  unfold prepaged pagesFrom
  rw [List.length_map, List.length_range]
  exact (Nat.min_le_left ..).trans (limit_le ..)

/-- The pages that are mapped are different ones of the segment. -/
theorem prepaged_spec (h : Below seg) (progName : String) (remaining : Nat) :
    (∀ p ∈ seg.prepaged progName remaining, Has seg p) ∧ Apart (seg.prepaged progName remaining) := by
  obtain ⟨hle, hround⟩ := h.bounds
  unfold prepaged Has
  dsimp only
  rw [u32_of_lt (show seg.virtualAddress + seg.sizeInMemory < 4294967296 by omega)]
  have hend := roundUp_page (n := seg.virtualAddress + seg.sizeInMemory) (by omega)
  generalize roundUp (seg.virtualAddress + seg.sizeInMemory) pageSize = stop at hround hend
  generalize hn : min (seg.limit progName remaining) ((stop - roundDown seg.virtualAddress pageSize) / pageSize) = n
  have hstart : roundDown seg.virtualAddress pageSize = seg.virtualAddress - seg.virtualAddress % 4096 := rfl
  have hbound : n * 4096 ≤ stop - roundDown seg.virtualAddress pageSize := by
    have hmin : n ≤ (stop - roundDown seg.virtualAddress pageSize) / pageSize := hn ▸ Nat.min_le_right ..
    calc n * 4096 ≤ (stop - roundDown seg.virtualAddress pageSize) / 4096 * 4096 := Nat.mul_le_mul_right _ hmin
      _ ≤ _ := Nat.div_mul_le_self ..
  have hwrap : roundDown seg.virtualAddress pageSize + n * 4096 ≤ 4294967296 := by omega
  refine ⟨fun p hp => ?_, pagesFrom_apart hwrap⟩
  obtain ⟨i, hi, rfl⟩ := (mem_pagesFrom hwrap).mp hp
  omega

/-- Segments that are apart have no page in common. -/
theorem Has.not_samePage (h : Below seg) (h' : Below seg') (hapart : PagesApart seg seg') (hp : Has seg p) (hq : Has seg' q) :
    ¬ Paging.SamePage p q := by
  obtain ⟨-, hround⟩ := h.bounds
  obtain ⟨-, hround'⟩ := h'.bounds
  obtain ⟨halign, hge, hlt⟩ := hp
  obtain ⟨halign', hge', hlt'⟩ := hq
  rw [samePage_iff (by omega) (by omega)]
  rcases hapart with hapart | hapart <;> omega

/-- The page of the stack is of no segment. -/
theorem Has.not_stack (h : Below seg) (hp : Has seg p) : ¬ Paging.SamePage p UserMem.stackVa := by
  obtain ⟨-, hround⟩ := h.bounds
  obtain ⟨halign, hge, hlt⟩ := hp
  rw [show UserMem.stackVa = 4005548032 by decide, samePage_iff (by omega) (by decide)]
  omega

end Segment

namespace UserMem

variable {E : Type} [DecidableEq E] {all : List PageNo} {boot : PageNo → Nat} {s₀ s t u : UserMem E} {d e : E} {va size wse : Nat}
  {ps : List Nat}

/-! ### The pages that are mapped -/

/-- The state while `e` is loaded: its pages `ps` are mapped, each with an element, the others are empty, and the working sets of
    the other environments are as they were in the state `s₀`. -/
structure Loading (all : List PageNo) (boot : PageNo → Nat) (e : E) (pageWsSize : Nat) (ps : List Nat) (s₀ s : UserMem E) :
    Prop where
  mem : MemInv all boot s
  maxSize : (s.ws e).maxSize = pageWsSize
  length : (s.ws e).list.length = ps.length
  hand : HandIn s e
  full : (s.ws e).list.length = (s.ws e).maxSize → (s.ws e).list ≠ [] → (s.ws e).last ≠ none
  resident : Resident s e (s.ws e).list
  loaded : ∀ x ∈ (s.ws e).list, s.elementVa e x ∈ ps
  empty : ∀ q, (∀ p ∈ ps, ¬ Paging.SamePage q p) → s.run.paging.page e q = {}
  others : ∀ d, d ≠ e → s.ws d = s₀.ws d ∧ (WsInv s₀ d → WsInv s d)

/-- The entries have changed, but not what they map, and entries that are not mapped are as before. -/
structure Touched (s t : UserMem E) : Prop extends SameWs s t where
  maps : t.run.paging.Maps = s.run.paging.Maps
  empty : ∀ d q, s.run.paging.page d q = {} → t.run.paging.page d q = {}

omit [DecidableEq E] in
theorem Loading.touched {pageWsSize : Nat} (h : Loading all boot e pageWsSize ps s₀ s) (hwalk : t.run.WalkInv all boot)
    (ht : Touched s t) : Loading all boot e pageWsSize ps s₀ t := by
  have hva : ∀ d x, t.elementVa d x = s.elementVa d x := fun d => elementVa_congr (by rw [ht.ws])
  refine ⟨h.mem.sameWs hwalk ht.toSameWs, ?_, ?_, ?_, ?_, ?_, fun x hx => ?_, fun q hq => ht.empty e q (h.empty q hq),
    fun d hd => ⟨by rw [ht.ws, (h.others d hd).1],
      fun hw => ((h.others d hd).2 hw).keep (.of_maps ht.maps fun x _ => hva d x) (by rw [ht.ws])⟩⟩
  · rw [ht.ws]
    exact h.maxSize
  · rw [ht.ws]
    exact h.length
  · exact h.hand.congr (by rw [ht.ws])
  · rw [ht.ws]
    exact h.full
  · rw [ht.ws]
    exact h.resident.keep (.of_maps ht.maps fun x _ => hva e x)
  · rw [hva]
    exact h.loaded x (ht.ws ▸ hx)

/-- A page that is not mapped yet gets a frame and an element. -/
theorem Loading.prepaged {pageWsSize : Nat} {f : PageNo} {entry : Pte} (h : Loading all boot e pageWsSize ps s₀ s)
    (hp : Prepaged all boot e va f wse entry s t) (hentry : entry.present ∧ entry.frame = f) (halign : va % 4096 = 0)
    (hva : va < userTop) (hnew : ∀ p ∈ ps, ¬ Paging.SamePage va p) : Loading all boot e pageWsSize (va :: ps) s₀ t := by
  have hself : t.ws e = ((s.ws e).setElement wse { virtualAddress := va }).insertLoaded wse := by rw [hp.ws, Function.update_self]
  have hlist : (t.ws e).list = (s.ws e).list ++ [wse] := by rw [hself]; rfl
  have hothers : ∀ d, d ≠ e → t.ws d = s.ws d := fun d hd => by rw [hp.ws, Function.update_of_ne hd]
  have hmem : MemInv all boot t :=
    h.mem.add hp.walk (fun d hd => by rw [hothers d hd]) (hlist ▸ List.perm_append_singleton ..) hp.live hp.block
  have hfresh : wse ∉ (s.ws e).list := by
    have hnodup := hmem.nodup e
    rw [hlist] at hnodup
    exact fun hx => (List.nodup_append.mp hnodup).2.2 wse hx wse (List.mem_singleton_self _) rfl
  have helem : ∀ x, t.elementVa e x = if x = wse then va else s.elementVa e x := by
    intro x
    unfold elementVa
    rw [hself]
    exact setElement_va ..
  have hold : ∀ x ∈ (s.ws e).list, t.elementVa e x = s.elementVa e x := by
    intro x hx
    rw [helem, if_neg]
    rintro rfl
    exact hfresh hx
  have hunmapped : (s.run.paging.page e va).present = false := by
    rw [h.empty va hnew]
    rfl
  have hgains : Gains e va f s t := hentry.2 ▸ gains_of_writes hp.page hentry.1 hunmapped
  have hlast : (t.ws e).last = if (t.ws e).list.length = (t.ws e).maxSize then (t.ws e).list.head? else none := by rw [hself]; rfl
  refine ⟨hmem, ?_, ?_, fun x hx => ?_, fun hfull _ => ?_, ?_, fun x hx => ?_, fun q hq => ?_, fun d hd => ⟨(hothers d hd).trans (h.others d hd).1, fun hw => ?_⟩⟩
  · rw [hself]
    exact h.maxSize
  · rw [hlist, List.length_append, h.length]
    rfl
  · rw [hlast] at hx
    split at hx
    · exact List.mem_of_mem_head? hx
    · exact nomatch hx
  · rw [hlast, if_pos hfull, hlist]
    cases (s.ws e).list <;> exact nofun
  · refine h.resident.gain hgains (fresh_maps hp.fresh) halign hva hunmapped ((helem wse).trans (if_pos rfl)) hold fun x hx => ?_
    rw [hlist, List.mem_append, List.mem_singleton] at hx
    exact hx.symm
  · rw [hlist, List.mem_append, List.mem_singleton] at hx
    rcases hx with hx | rfl
    · rw [hold x hx]
      exact List.mem_cons_of_mem _ (h.loaded x hx)
    · rw [helem, if_pos rfl]
      exact List.mem_cons_self ..
  · rw [hp.page.others e q fun hsame => hq va (List.mem_cons_self ..) hsame.2]
    exact h.empty q fun p hp => hq p (List.mem_cons_of_mem _ hp)
  · refine ((h.others d hd).2 hw).keep ?_ (hothers d hd)
    exact .of_gains hgains (fresh_maps hp.fresh) fun x _ => elementVa_congr (hothers d hd) x

theorem loadtime_present (f : PageNo) : (⟨f, permUser ||| permWriteable ||| permPresent⟩ : Pte).present := by
  rw [present_iff]
  exact show (permUser ||| permWriteable ||| permPresent).getLsbD 0 = true by decide

/-- The loop that maps pages of a segment. -/
theorem Loading.mapSegmentPages {pageWsSize : Nat} {qs : List Nat} (h : Loading all boot e pageWsSize ps s₀ s)
    (halign : ∀ q ∈ qs, q % 4096 = 0 ∧ q < userTop) (hapart : Apart qs)
    (hnew : ∀ q ∈ qs, ∀ p ∈ ps, ¬ Paging.SamePage q p) (hs : exec (mapSegmentPage e) s qs = some t) :
    Loading all boot e pageWsSize (qs.reverse ++ ps) s₀ t ∧ t.disk = s.disk ∧ t.data = s.data := by
  induction qs generalizing s ps with
  | nil =>
    cases hs
    exact ⟨h, rfl, rfl⟩
  | cons q qs ih =>
    obtain ⟨s₁, hs₁, hs⟩ := exec_cons.mp hs
    obtain ⟨hq, hqs⟩ := List.pairwise_cons.mp hapart
    have hfirst := hnew q (List.mem_cons_self ..)
    obtain ⟨hqalign, hqlt⟩ := halign q (List.mem_cons_self ..)
    obtain ⟨⟨f, wse, hprepaged⟩, hdisk₁, hdata₁⟩ := mapSegmentPage_spec h.mem.walk hqalign (h.empty q hfirst) hs₁
    have h₁ := h.prepaged hprepaged ⟨loadtime_present f, rfl⟩ hqalign hqlt hfirst
    have hnew₁ : ∀ x ∈ qs, ∀ p ∈ q :: ps, ¬ Paging.SamePage x p := by
      intro x hx p hp
      rcases List.mem_cons.mp hp with rfl | hp
      · exact fun hsame => hq x hx hsame.symm
      · exact hnew x (List.mem_cons_of_mem _ hx) p hp
    obtain ⟨h', hdisk, hdata⟩ := ih h₁ (fun x hx => halign x (List.mem_cons_of_mem _ hx)) hqs hnew₁ hs
    refine ⟨?_, hdisk.trans hdisk₁, hdata.trans hdata₁⟩
    rw [List.reverse_cons, List.append_assoc]
    exact h'

/-! ### What the loader writes -/

omit [DecidableEq E] in
/-- The permissions of one page have changed. -/
theorem touched_of_writes {perm : BitVec 12} (hws : SameWs s t)
    (hwrites : Paging.Writes s.run.paging t.run.paging e va ⟨(s.run.paging.page e va).frame, perm⟩)
    (hpresent : perm.getLsbD 0 = (s.run.paging.page e va).perm.getLsbD 0)
    (hempty : s.run.paging.page e va = {} → perm = 0) : Touched s t := by
  refine ⟨hws, maps_congr fun d q => ?_, fun d q hq => ?_⟩
  · by_cases hsame : d = e ∧ Paging.SamePage q va
    · obtain ⟨rfl, hpage⟩ := hsame
      rw [Paging.page_samePage hpage, Paging.page_samePage hpage, hwrites.self, Bool.eq_iff_iff, present_iff, present_iff]
      exact ⟨by rw [hpresent], rfl⟩
    · rw [hwrites.others d q hsame]
      exact ⟨rfl, rfl⟩
  · by_cases hsame : d = e ∧ Paging.SamePage q va
    · obtain ⟨rfl, hpage⟩ := hsame
      rw [Paging.page_samePage hpage] at hq ⊢
      rw [hwrites.self, hempty hq, hq]
    · rw [hwrites.others d q hsame]
      exact hq

omit [DecidableEq E] in
theorem writeUserPage_touched {content : Page → Page} (h : s.run.WalkInv all boot) (hs : s.writeUserPage e va content = some t) :
    t.run.WalkInv all boot ∧ Touched s t ∧ t.disk = s.disk := by
  obtain ⟨hwalk, hws, -, hdisk, hpresent, hwrites, -⟩ := writeUserPage_spec h hs
  refine ⟨hwalk, touched_of_writes hws hwrites ?_ fun hempty => ?_, hdisk⟩
  · rw [BitVec.getLsbD_or, show (permUsed ||| permModified).getLsbD 0 = false from rfl, Bool.or_false]
  · rw [hempty] at hpresent
    exact nomatch hpresent

omit [DecidableEq E] in
theorem clearModified_touched (h : s.run.WalkInv all boot) (hs : s.clearPermissions e va permModified = some t) :
    t.run.WalkInv all boot ∧ Touched s t ∧ t.disk = s.disk ∧ t.data = s.data := by
  obtain ⟨hwalk, hws, hdisk, hdata, -, hwrites⟩ := clearModified_spec h hs
  refine ⟨hwalk, touched_of_writes hws hwrites ?_ fun hempty => ?_, hdisk, hdata⟩
  · rw [BitVec.getLsbD_and, BitVec.getLsbD_not, permModified_bit (by decide)]
    exact Bool.and_true _
  · rw [hempty]
    exact BitVec.zero_and

omit [DecidableEq E] in
theorem Touched.refl (s : UserMem E) : Touched s s := ⟨⟨rfl, rfl, rfl⟩, rfl, fun _ _ h => h⟩

omit [DecidableEq E] in
theorem Touched.trans (h : Touched s t) (h' : Touched t u) : Touched s u :=
  ⟨⟨h'.ws.trans h.ws, h'.handed.trans h.handed, h'.live.trans h.live⟩, h'.maps.trans h.maps,
    fun d q hq => h'.empty d q (h.empty d q hq)⟩

omit [DecidableEq E] in
theorem touched_disk (s : UserMem E) (disk : PageFile E) : Touched s { s with disk := disk } :=
  ⟨⟨rfl, rfl, rfl⟩, rfl, fun _ _ h => h⟩

omit [DecidableEq E] in
/-- A loop whose rounds touch entries. -/
theorem exec_touched {α : Type} {step : UserMem E → α → Option (UserMem E)} {l : List α}
    (hstep : ∀ s x t, s.run.WalkInv all boot → step s x = some t → t.run.WalkInv all boot ∧ Touched s t)
    (h : s.run.WalkInv all boot) (hs : exec step s l = some t) : t.run.WalkInv all boot ∧ Touched s t := by
  induction l generalizing s with
  | nil =>
    cases hs
    exact ⟨h, .refl _⟩
  | cons x l ih =>
    obtain ⟨s₁, hs₁, hs⟩ := exec_cons.mp hs
    obtain ⟨h₁, ht₁⟩ := hstep s x s₁ h hs₁
    obtain ⟨h', ht'⟩ := ih h₁ hs
    exact ⟨h', ht₁.trans ht'⟩

theorem addPage_eq {content : Page} (hs : s.addPage e va content = some t) : ∃ disk, t = { s with disk := disk } := by
  obtain ⟨⟨disk, r⟩, -, hs⟩ := Option.bind_eq_some_iff.mp hs
  cases r with
  | success =>
    cases hs
    exact ⟨_, rfl⟩
  | noPageFileSpace => exact nomatch hs

theorem addPages_eq {α : Type} {l : List α} {va : α → Nat} {content : UserMem E → α → Page}
    (hs : exec (fun s x => s.addPage e (va x) (content s x)) s l = some t) : ∃ disk, t = { s with disk := disk } := by
  induction l generalizing s with
  | nil =>
    cases hs
    exact ⟨_, rfl⟩
  | cons x l ih =>
    obtain ⟨s₁, hs₁, hs⟩ := exec_cons.mp hs
    obtain ⟨disk₁, rfl⟩ := addPage_eq hs₁
    obtain ⟨disk, ht⟩ := ih hs
    exact ⟨disk, ht⟩

/-- The page file is written. -/
theorem writeSegment_eq {seg : Segment} (hs : s.writeSegment e seg = some t) : ∃ disk, t = { s with disk := disk } := by
  obtain ⟨s₁, hs₁, hs⟩ := Option.bind_eq_some_iff.mp hs
  obtain ⟨s₂, hs₂, hs⟩ := Option.bind_eq_some_iff.mp hs
  obtain ⟨s₃, hs₃, hs⟩ := Option.bind_eq_some_iff.mp hs
  obtain ⟨disk₁, rfl⟩ : ∃ disk, s₁ = { s with disk := disk } := by
    split at hs₁
    · exact addPage_eq hs₁
    · cases hs₁
      exact ⟨_, rfl⟩
  obtain ⟨disk₂, rfl⟩ := addPages_eq hs₂
  obtain ⟨disk₃, rfl⟩ := addPage_eq hs₃
  have hzero : exec (fun (s : UserMem E) va => s.addPage e (id va) ((fun s _ => s.disk.zeroPage : UserMem E → Nat → Page) s va)) _ _ =
      some t := hs
  obtain ⟨disk, ht⟩ := addPages_eq hzero
  exact ⟨disk, ht⟩

/-! ### `env_create` -/

/-- Step 7: one segment. -/
theorem Loading.segment {pageWsSize remaining n : Nat} {seg : Segment} {progName : String}
    (h : Loading all boot e pageWsSize ps s₀ s) (hbelow : seg.Below) (hnew : ∀ q, seg.Has q → ∀ p ∈ ps, ¬ Paging.SamePage q p)
    (hs : s.programSegmentAllocMapCopyWorkingset e progName seg remaining = some (t, n)) :
    n = (seg.prepaged progName remaining).length ∧
      Loading all boot e pageWsSize ((seg.prepaged progName remaining).reverse ++ ps) s₀ t := by
  obtain ⟨s₁, hs₁, hs⟩ := Option.bind_eq_some_iff.mp hs
  obtain ⟨s₂, hs₂, heq⟩ := Option.map_eq_some_iff.mp hs
  cases heq
  obtain ⟨hhas, hapart⟩ := Segment.prepaged_spec hbelow progName remaining
  obtain ⟨-, hround⟩ := hbelow.bounds
  obtain ⟨h₁, -⟩ := h.mapSegmentPages (fun q hq => ⟨(hhas q hq).1, lt_of_lt_of_le (hhas q hq).2.2 (hround.trans (by decide))⟩) hapart
    (fun q hq => hnew q (hhas q hq)) hs₁
  obtain ⟨hwalk, ht⟩ := exec_touched (fun s x t h hs => ⟨(writeUserPage_touched h hs).1, (writeUserPage_touched h hs).2.1⟩)
    h₁.mem.walk hs₂
  exact ⟨rfl, h₁.touched hwalk ht⟩

/-- The segments are below the stack and occupy disjoint pages. -/
def Loadable (segs : List Segment) : Prop := (∀ seg ∈ segs, seg.Below) ∧ segs.Pairwise Segment.PagesApart

/-- Step 7, as long as there is room for one page more. -/
theorem Loading.loadSegments {pageWsSize remaining : Nat} {segs : List Segment} {progName : String}
    (h : Loading all boot e pageWsSize ps s₀ s) (hload : Loadable segs) (hroom : ps.length + remaining < pageWsSize)
    (hnew : ∀ seg ∈ segs, ∀ q, seg.Has q → ∀ p ∈ ps, ¬ Paging.SamePage q p)
    (hstack : ∀ p ∈ ps, ¬ Paging.SamePage stackVa p) (hs : loadSegments e progName s remaining segs = some t) :
    ∃ ps', Loading all boot e pageWsSize ps' s₀ t ∧ ps'.length < pageWsSize ∧ ∀ p ∈ ps', ¬ Paging.SamePage stackVa p := by
  induction segs generalizing s remaining ps with
  | nil =>
    cases hs
    exact ⟨ps, h, by omega, hstack⟩
  | cons seg segs ih =>
    obtain ⟨⟨s₁, n⟩, hs₁, hs⟩ := Option.bind_eq_some_iff.mp hs
    obtain ⟨s₂, hs₂, hs⟩ := Option.bind_eq_some_iff.mp hs
    obtain ⟨hbelow, hapart⟩ := hload
    have hseg := hbelow seg (List.mem_cons_self ..)
    obtain ⟨hfirst, hrest⟩ := List.pairwise_cons.mp hapart
    obtain ⟨rfl, h₁⟩ := h.segment hseg (hnew seg (List.mem_cons_self ..)) hs₁
    obtain ⟨disk, rfl⟩ := writeSegment_eq hs₂
    have h₂ := h₁.touched (t := { s₁ with disk := disk }) h₁.mem.walk (touched_disk s₁ disk)
    obtain ⟨hhas, -⟩ := Segment.prepaged_spec hseg progName remaining
    have hle := Segment.prepaged_length seg progName remaining
    refine ih h₂ ⟨fun seg' hseg' => hbelow seg' (List.mem_cons_of_mem _ hseg'), hrest⟩ ?_ (fun seg' hseg' q hq p hp => ?_)
      (fun p hp => ?_) hs
    · rw [List.length_append, List.length_reverse]
      omega
    · rcases List.mem_append.mp hp with hp | hp
      · have hnot := Segment.Has.not_samePage hseg (hbelow seg' (List.mem_cons_of_mem _ hseg')) (hfirst seg' hseg')
          (hhas p (List.mem_reverse.mp hp)) hq
        exact fun hsame => hnot hsame.symm
      · exact hnew seg' (List.mem_cons_of_mem _ hseg') q hq p hp
    · rcases List.mem_append.mp hp with hp | hp
      · exact fun hsame => Segment.Has.not_stack hseg (hhas p (List.mem_reverse.mp hp)) hsame.symm
      · exact hstack p hp

/-- The page of the stack is mapped and filled with zeros before it gets its element. -/
theorem mapStackPage_spec (h : s.run.WalkInv all boot) (hempty : s.run.paging.page e stackVa = {})
    (hs : s.mapStackPage e = some t) : ∃ f wse entry u disk, Prepaged all boot e stackVa f wse entry s u ∧ entry.present ∧
      entry.frame = f ∧ t = { u with disk := disk } := by
  obtain ⟨⟨r, f⟩, hr, hs⟩ := Option.bind_eq_some_iff.mp hs
  obtain ⟨p, hp, hs⟩ := Option.bind_eq_some_iff.mp hs
  obtain ⟨s₁, hs₁, hs⟩ := Option.bind_eq_some_iff.mp hs
  obtain ⟨⟨s₂, wse⟩, hs₂, hs⟩ := Option.bind_eq_some_iff.mp hs
  obtain ⟨⟨disk, -⟩, -, rfl⟩ := Option.map_eq_some_iff.mp hs
  obtain ⟨h₁, hfresh, hwrites, hhanded, hlive⟩ := loadtime_spec h hempty (by decide) hr hp
  obtain ⟨h₂, hws, -, -, hpresent, hwrites₂, -⟩ := writeUserPage_spec (s := s.setRun _) h₁ hs₁
  obtain ⟨r', h₃, hpage, hhanded₃, hlive₃, hblock, rfl⟩ := createElement_spec h₂ (by decide) hs₂
  have hmapped : p.page e stackVa = ⟨f, permUser ||| permWriteable ||| permPresent⟩ := hwrites.self
  refine ⟨f, wse, ⟨(p.page e stackVa).frame, (p.page e stackVa).perm ||| (permUsed ||| permModified)⟩, _, _,
    ⟨h₃, hfresh, ⟨?_, fun d q hne => ?_⟩, ?_, ?_, hblock, ?_⟩, ?_, ?_, rfl⟩
  · show r'.paging.page e stackVa = _
    rw [hpage]
    exact hwrites₂.self
  · show r'.paging.page d q = _
    rw [hpage]
    exact (hwrites₂.others d q hne).trans (hwrites.others d q hne)
  · exact hhanded₃.trans (hws.handed.trans hhanded)
  · show r'.live = _
    rw [hlive₃, hws.live]
    exact congrArg (wse :: ·) hlive
  · have hws₁ : s₁.ws = s.ws := hws.ws
    unfold setWs setRun
    dsimp only
    rw [Function.update_self, Function.update_idem, hws₁]
  · rw [present_iff, BitVec.getLsbD_or, hmapped]
    exact Bool.or_eq_true_iff.mpr (.inl (show (permUser ||| permWriteable ||| permPresent).getLsbD 0 = true by decide))
  · rw [hmapped]

/-- Step 10 -/
theorem Loading.mapStackPage {pageWsSize : Nat} (h : Loading all boot e pageWsSize ps s₀ s)
    (hstack : ∀ p ∈ ps, ¬ Paging.SamePage stackVa p) (hs : s.mapStackPage e = some t) :
    Loading all boot e pageWsSize (stackVa :: ps) s₀ t := by
  obtain ⟨f, wse, entry, u, disk, hprepaged, hpresent, hframe, rfl⟩ := mapStackPage_spec h.mem.walk (h.empty _ hstack) hs
  have hu := h.prepaged hprepaged ⟨hpresent, hframe⟩ (by decide) (by decide) hstack
  exact hu.touched hu.mem.walk (touched_disk u disk)

/-- The environment has not been created before. -/
structure Unused (s : UserMem E) (e : E) : Prop where
  pde : ∀ i, s.run.paging.pde e i = none
  list : (s.ws e).list = []
  last : (s.ws e).last = none

/-- The directory of a new environment is empty anyway. -/
theorem initializeEnvironment_run {pageWsSize : Nat} (h : Unused s e) : (s.initializeEnvironment e pageWsSize).run = s.run := by
  have hpde : Function.update s.run.paging.pde e (fun _ => none) = s.run.paging.pde := by
    funext d i
    rcases eq_or_ne d e with rfl | hne
    · rw [Function.update_self, h.pde i]
    · rw [Function.update_of_ne hne]
  unfold initializeEnvironment
  dsimp only
  rw [hpde]

theorem loading_init {pageWsSize : Nat} (h : MemInv all boot s) (hunused : Unused s e) :
    Loading all boot e pageWsSize [] s (s.initializeEnvironment e pageWsSize) := by
  have hrun : (s.initializeEnvironment e pageWsSize).run = s.run := initializeEnvironment_run hunused
  have hself : (s.initializeEnvironment e pageWsSize).ws e = { s.ws e with list := [], maxSize := pageWsSize } :=
    Function.update_self ..
  have hothers : ∀ d, d ≠ e → (s.initializeEnvironment e pageWsSize).ws d = s.ws d := fun d hd => Function.update_of_ne hd ..
  have hlist : ((s.initializeEnvironment e pageWsSize).ws e).list = [] := by rw [hself]
  have hlast : ((s.initializeEnvironment e pageWsSize).ws e).last = none := by rw [hself]; exact hunused.last
  have hmaps : (s.initializeEnvironment e pageWsSize).run.paging.Maps = s.run.paging.Maps := by rw [hrun]
  refine ⟨h.keep (hrun ▸ h.walk) (fun d => ?_) fun d x hx => by rw [hrun]; exact h.live d x hx, by rw [hself], by rw [hlist],
    fun x hx => (nomatch hlast.symm.trans hx), fun _ hne => absurd hlist hne, ?_, fun x hx => ?_, fun q _ => ?_,
    fun d hd => ⟨hothers d hd, fun hw => hw.keep (.of_maps hmaps fun x _ => elementVa_congr (hothers d hd) x) (hothers d hd)⟩⟩
  · rcases eq_or_ne d e with rfl | hne
    · rw [hlist, hunused.list]
    · rw [hothers d hne]
  · rw [hlist]
    exact ⟨nofun, nofun, nofun, nofun⟩
  · rw [hlist] at hx
    exact nomatch hx
  · rw [hrun]
    exact Paging.page_of_none (hunused.pde _)

omit [DecidableEq E] in
/-- There are not more elements than pages below `USER_TOP`. -/
theorem Resident.length_le {l : List Nat} (h : Resident s e l) (hnodup : l.Nodup) : l.length ≤ 977920 := by
  have hmap : (l.map fun x => s.elementVa e x / 4096).Nodup := by
    refine (List.nodup_map_iff_inj_on hnodup).mpr fun x hx y hy heq => h.pages x hx y hy ?_
    have halign := (h.aligned x hx).1
    have halign' := (h.aligned y hy).1
    omega
  have hsub : (l.map fun x => s.elementVa e x / 4096).Subperm (List.range 977920) := by
    refine hmap.subperm fun v hv => ?_
    obtain ⟨x, hx, rfl⟩ := List.mem_map.mp hv
    have hlt := (h.aligned x hx).2
    simp only [userTop] at hlt
    exact List.mem_range.mpr (by omega)
  have hle := hsub.length_le
  rwa [List.length_map, List.length_range] at hle

/-- What `env_create` leaves for a program whose segments occupy disjoint pages below the stack. -/
theorem envCreate_spec {pageWsSize : Nat} {progName : String} {segs : List Segment} (h : MemInv all boot s) (hunused : Unused s e)
    (hpos : 1 ≤ pageWsSize) (hlt : pageWsSize < 4294967296) (hload : Loadable segs)
    (hs : s.envCreate e pageWsSize progName segs = some t) :
    MemInv all boot t ∧ WsInv t e ∧ ∀ d, d ≠ e → t.ws d = s.ws d ∧ (WsInv s d → WsInv t d) := by
  obtain ⟨s₁, hs₁, hs⟩ := Option.bind_eq_some_iff.mp hs
  obtain ⟨s₂, hs₂, hs⟩ := Option.bind_eq_some_iff.mp hs
  obtain ⟨s₃, hs₃, hs⟩ := Option.bind_eq_some_iff.mp hs
  obtain ⟨⟨r, p⟩, hr, hs⟩ := Option.bind_eq_some_iff.mp hs
  obtain ⟨hp, heq⟩ := Option.ite_none_left_eq_some.mp hs
  cases heq
  have hremaining : u32 (pageWsSize + 4294967295) = pageWsSize - 1 := by
    unfold u32
    omega
  rw [hremaining] at hs₁
  obtain ⟨ps, h₁, hlength, hstack⟩ := (loading_init h hunused).loadSegments hload
    (by simp only [List.length_nil]; omega) (fun _ _ _ _ => nofun) nofun hs₁
  obtain ⟨hwalk₂, ht₂⟩ := exec_touched (fun s x t h hs => ⟨(clearModified_touched h hs).1, (clearModified_touched h hs).2.1⟩)
    h₁.mem.walk hs₂
  have h₃ := (h₁.touched hwalk₂ ht₂).mapStackPage hstack hs₃
  have hsize : u32 (4 * (s₃.ws e).list.length) ≤ 4294963200 := by
    have hle := h₃.resident.length_le (h₃.mem.nodup e)
    rw [u32_of_lt (by omega)]
    omega
  obtain ⟨hwalk, hpage, -, hlive⟩ := h₃.mem.walk.kmalloc hsize hr
  have hmaps : r.paging.Maps = s₃.run.paging.Maps :=
    maps_congr (s := s₃) (t := s₃.setRun r) fun d q => ⟨congrArg Pte.present (congrFun (congrFun hpage d) q),
      congrArg Pte.frame (congrFun (congrFun hpage d) q)⟩
  have hlist : (s₃.ws e).list ≠ [] := by
    intro hnil
    have hlen := h₃.length
    rw [hnil] at hlen
    exact nomatch hlen
  refine ⟨h₃.mem.keep hwalk (fun _ => .refl _) fun d x hx => ?_, ⟨?_, h₃.hand, fun hfull => h₃.full hfull hlist, ?_⟩,
    fun d hd => ⟨(h₃.others d hd).1, fun hw => ((h₃.others d hd).2 hw).keep (.of_maps hmaps fun _ _ => rfl) rfl⟩⟩
  · show x ∈ r.live
    rw [hlive, if_neg hp]
    exact List.mem_cons_of_mem _ (h₃.mem.live d x hx)
  · show (s₃.ws e).list.length ≤ (s₃.ws e).maxSize
    rw [h₃.length, h₃.maxSize]
    exact hlength
  · exact h₃.resident.keep (.of_maps hmaps fun _ _ => rfl)

end UserMem

end Fos.Mem
