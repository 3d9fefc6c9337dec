import Fos.Trap.CellCalls

/-! The loader of `env_create` leaves the bytes of the other environments alone: it writes to frames that were free and to pages
    of the new environment in the page file. -/

namespace Fos.Mem
open Lib Heap Disk Frames

namespace Segment

variable {seg : Segment}

/-- Not more bytes of the segment are in the file than in memory. -/
def Fits (seg : Segment) : Prop := seg.sizeInFile ≤ seg.sizeInMemory

theorem Below.endLast (h : Below seg) (hfits : seg.Fits) : seg.endLast = seg.virtualAddress + seg.sizeInFile := by
  obtain ⟨hle, -⟩ := h.bounds
  unfold Fits at hfits
  exact u32_of_lt (by omega)

/-- The pages that are written to the page file are below `USER_TOP`. -/
theorem Below.written (h : Below seg) (hfits : seg.Fits) : seg.startFirst < userTop ∧ seg.startLast < userTop ∧
    (∀ j, j < seg.fullPages → seg.endFirst + j * pageSize < userTop) ∧ ∀ va ∈ seg.zeroPages, va < userTop := by
  obtain ⟨hle, hround⟩ := h.bounds
  have hlast := h.endLast hfits
  unfold Fits at hfits
  have hdown : seg.startFirst ≤ seg.virtualAddress := Nat.sub_le ..
  have hstart : seg.startLast ≤ seg.endLast := Nat.sub_le ..
  have htop : userTop = 4005560320 := rfl
  refine ⟨by omega, by omega, fun j hj => ?_, fun va hva => ?_⟩
  · unfold fullPages pageSize at hj
    simp only [pageSize]
    omega
  · obtain ⟨hpage, hge, hlt⟩ := roundUp_page (n := seg.endLast) (by omega)
    have hremaining : seg.startRemaining = roundUp seg.endLast pageSize := rfl
    obtain ⟨i, hi, rfl⟩ := List.mem_map.mp hva
    have hi := List.mem_range.mp hi
    -- Past the last page there is a rest of the segment, or the length wraps and its pages are none.
    have hlength : roundUp seg.remainingLength pageSize / pageSize * pageSize ≤ seg.virtualAddress + seg.sizeInMemory + 4096 - seg.startRemaining ∧
        seg.startRemaining ≤ seg.virtualAddress + seg.sizeInMemory + 4096 := by
      refine ⟨?_, by omega⟩
      unfold remainingLength
      simp only [roundUp, roundDown, u32, pageSize]
      omega
    have hle' : u32 (seg.startRemaining + i * pageSize) ≤ seg.startRemaining + i * pageSize := Nat.mod_le ..
    simp only [pageSize] at *
    omega

end Segment

namespace UserMem

variable {E : Type} [DecidableEq E] {all : List PageNo} {boot : PageNo → Nat} {s₀ s t u : UserMem E} {d e : E} {va : Nat} {ps : List Nat}

/-- While `d` is loaded: the pages of the others are as in `s₀`, with the same contents, also in the page file, and no frame of `d`
    is one of theirs. -/
structure Aside (d : E) (s₀ s : UserMem E) : Prop where
  page : ∀ e q, e ≠ d → s.run.paging.page e q = s₀.run.paging.page e q
  apart : ∀ q f e q', e ≠ d → s.run.paging.Maps d q f → ¬ s.run.paging.Maps e q' f
  data : ∀ e q f, e ≠ d → s₀.run.paging.Maps e q f → s.data f = s₀.data f
  inv : s.disk.Inv
  contents : ∀ x, x.1 ≠ d → s.disk.contents x = s₀.disk.contents x

/-- The content of a frame has changed that is none of the others. -/
def OtherData (d : E) (s t : UserMem E) : Prop := ∀ e q f, e ≠ d → s.run.paging.Maps e q f → t.data f = s.data f

/-- The page file has changed for `d` only. -/
def OtherDisk (d : E) (s t : UserMem E) : Prop := s.disk.Inv → t.disk.Inv ∧ ∀ x, x.1 ≠ d → t.disk.contents x = s.disk.contents x

omit [DecidableEq E] in
theorem otherDisk_of_eq (h : t.disk = s.disk) : OtherDisk d s t := fun hi => by
  rw [h]
  exact ⟨hi, fun _ _ => rfl⟩

omit [DecidableEq E] in
theorem Aside.step (h : Aside d s₀ s) (hpage : ∀ e q, e ≠ d → t.run.paging.page e q = s.run.paging.page e q)
    (hmaps : ∀ q f, t.run.paging.Maps d q f → s.run.paging.Maps d q f ∨ ∀ c, s.run.hold c ≠ some f) (hdata : OtherData d s t)
    (hdisk : OtherDisk d s t) : Aside d s₀ t := by
  obtain ⟨hi, hcontents⟩ := hdisk h.inv
  have hothers : ∀ e q f, e ≠ d → (t.run.paging.Maps e q f ↔ s.run.paging.Maps e q f) := by
    intro e q f he
    unfold Paging.Maps
    rw [hpage e q he]
  refine ⟨fun e q he => (hpage e q he).trans (h.page e q he), fun q f e q' he hm hm' => ?_, fun e q f he hm => ?_, hi,
    fun x hx => (hcontents x hx).trans (h.contents x hx)⟩
  · have hm' := (hothers e q' f he).mp hm'
    rcases hmaps q f hm with hm | hfresh
    · exact h.apart q f e q' he hm hm'
    · exact fresh_maps hfresh e q' hm'
  · have hs : s.run.paging.Maps e q f := by
      unfold Paging.Maps
      rw [h.page e q he]
      exact hm
    exact (hdata e q f he hs).trans (h.data e q f he hm)

omit [DecidableEq E] in
/-- The permissions of a page of `d` have changed. -/
theorem Aside.touched {entry : Pte} (h : Aside d s₀ s) (hwrites : Paging.Writes s.run.paging t.run.paging d va entry)
    (hmaps : t.run.paging.Maps = s.run.paging.Maps) (hdata : OtherData d s t) (hdisk : t.disk = s.disk) : Aside d s₀ t :=
  h.step (fun e q he => hwrites.others e q fun hsame => he hsame.1) (fun _ _ hm => .inl (hmaps ▸ hm)) hdata (otherDisk_of_eq hdisk)

omit [DecidableEq E] in
/-- A page of `d` is mapped to a new frame. -/
theorem Aside.fresh {entry : Pte} (h : Aside d s₀ s) (hwrites : Paging.Writes s.run.paging t.run.paging d va entry)
    (hfresh : ∀ c, s.run.hold c ≠ some entry.frame) (hdata : OtherData d s t) (hdisk : OtherDisk d s t) : Aside d s₀ t := by
  refine h.step (fun e q he => hwrites.others e q fun hsame => he hsame.1) (fun q f hm => ?_) hdata hdisk
  by_cases hsame : Paging.SamePage q va
  · unfold Paging.Maps at hm
    rw [Paging.page_samePage hsame, hwrites.self] at hm
    exact .inr (hm.2 ▸ hfresh)
  · exact .inl ((hwrites.maps_of_ne fun hx => hsame hx.2).mp hm)

omit [DecidableEq E] in
theorem Aside.writeUserPage {content : Page → Page} (h : Aside d s₀ s) (hwalk : s.run.WalkInv all boot)
    (hs : s.writeUserPage d va content = some t) : Aside d s₀ t := by
  obtain ⟨-, htouched, -⟩ := writeUserPage_touched hwalk hs
  obtain ⟨-, -, -, hdisk, hpresent, hwrites, hdata⟩ := writeUserPage_spec hwalk hs
  refine h.touched hwrites htouched.maps (fun e q f he hm => ?_) hdisk
  rw [hdata]
  refine Function.update_of_ne ?_ ..
  rintro rfl
  exact h.apart va _ e q he ⟨hpresent, rfl⟩ hm

omit [DecidableEq E] in
theorem Aside.clearModified (h : Aside d s₀ s) (hwalk : s.run.WalkInv all boot)
    (hs : s.clearPermissions d va permModified = some t) : Aside d s₀ t := by
  obtain ⟨-, htouched, -⟩ := clearModified_touched hwalk hs
  obtain ⟨-, -, hdisk, hdata, -, hwrites⟩ := clearModified_spec hwalk hs
  exact h.touched hwrites htouched.maps (fun _ _ _ _ _ => by rw [hdata]) hdisk

theorem Aside.mapSegmentPage (h : Aside d s₀ s) (hwalk : s.run.WalkInv all boot) (halign : va % 4096 = 0)
    (hempty : s.run.paging.page d va = {}) (hs : mapSegmentPage d s va = some t) : Aside d s₀ t := by
  obtain ⟨⟨f, wse, hprepaged⟩, hdisk, hdata⟩ := mapSegmentPage_spec hwalk halign hempty hs
  exact h.fresh hprepaged.page hprepaged.fresh (fun _ _ _ _ _ => by rw [hdata]) (otherDisk_of_eq hdisk)

/-- What is added to the page file for `d`. -/
theorem pfAdd_others {disk disk' : PageFile E} {page : Page} {r : PfResult} (hi : disk.Inv) (hva : va < userTop)
    (hs : disk.pfAddEnvPage d va page = some (disk', r)) :
    disk'.Inv ∧ ∀ x, x.1 ≠ d → disk'.contents x = disk.contents x := by
  refine ⟨(hi.pfAddEnvPage hva hs).1, fun x hx => ?_⟩
  have hnext := hi.pfAddEnvPage_next hva hs
  generalize disk'.contents = m at hnext
  generalize r.served = served at hnext
  cases hnext with
  | put _ => exact Function.update_of_ne (fun heq => hx (congrArg Prod.fst heq)) ..
  | putFull _ _ => rfl

theorem addPage_others {content : Page} (hva : va < userTop) (hs : s.addPage d va content = some t) :
    t.run = s.run ∧ t.data = s.data ∧ OtherDisk d s t := by
  obtain ⟨⟨disk, r⟩, hadd, hs⟩ := Option.bind_eq_some_iff.mp hs
  cases r with
  | success =>
    cases hs
    exact ⟨rfl, rfl, fun hi => pfAdd_others hi hva hadd⟩
  | noPageFileSpace => exact absurd hs.symm (Option.some_ne_none _)

theorem Aside.addPage {content : Page} (h : Aside d s₀ s) (hva : va < userTop) (hs : s.addPage d va content = some t) : Aside d s₀ t := by
  obtain ⟨hrun, hdata, hdisk⟩ := addPage_others hva hs
  exact h.step (fun _ _ _ => by rw [hrun]) (fun _ _ hm => .inl (hrun ▸ hm)) (fun _ _ _ _ _ => by rw [hdata]) hdisk

theorem Aside.addPages {α : Type} {l : List α} {va : α → Nat} {content : UserMem E → α → Page} (h : Aside d s₀ s)
    (hva : ∀ x ∈ l, va x < userTop) (hs : exec (fun s x => s.addPage d (va x) (content s x)) s l = some t) : Aside d s₀ t := by
  induction l generalizing s with
  | nil =>
    cases hs
    exact h
  | cons x l ih =>
    obtain ⟨s₁, hs₁, hs⟩ := exec_cons.mp hs
    exact ih (h.addPage (hva x (List.mem_cons_self ..)) hs₁) (fun y hy => hva y (List.mem_cons_of_mem _ hy)) hs

/-- The segment is written to the page file. -/
theorem Aside.writeSegment {seg : Segment} (h : Aside d s₀ s) (hbelow : seg.Below) (hfits : seg.Fits)
    (hs : s.writeSegment d seg = some t) : Aside d s₀ t := by
  obtain ⟨hfirst, hlast, hfull, hzero⟩ := hbelow.written hfits
  obtain ⟨s₁, hs₁, hs⟩ := Option.bind_eq_some_iff.mp hs
  obtain ⟨s₂, hs₂, hs⟩ := Option.bind_eq_some_iff.mp hs
  obtain ⟨s₃, hs₃, hs⟩ := Option.bind_eq_some_iff.mp hs
  have h₁ : Aside d s₀ s₁ := by
    split at hs₁
    · exact h.addPage hfirst hs₁
    · cases hs₁
      exact h
  have h₂ : Aside d s₀ s₂ := h₁.addPages (fun j hj => hfull j (List.mem_range.mp hj)) hs₂
  have hs : exec (fun (s : UserMem E) va => s.addPage d (id va) ((fun s _ => s.disk.zeroPage : UserMem E → Nat → Page) s va)) s₃
      seg.zeroPages = some t := hs
  exact (h₂.addPage hlast hs₃).addPages hzero hs

/-- The loop that maps pages of a segment. -/
theorem Aside.mapSegmentPages {pageWsSize : Nat} {qs : List Nat} (ha : Aside d s₀ s) (h : Loading all boot d pageWsSize ps s₀ s)
    (halign : ∀ q ∈ qs, q % 4096 = 0 ∧ q < userTop) (hapart : Apart qs)
    (hnew : ∀ q ∈ qs, ∀ p ∈ ps, ¬ Paging.SamePage q p) (hs : exec (UserMem.mapSegmentPage d) s qs = some t) : Aside d s₀ t := by
  induction qs generalizing s ps with
  | nil =>
    cases hs
    exact ha
  | cons q qs ih =>
    obtain ⟨s₁, hs₁, hs⟩ := exec_cons.mp hs
    obtain ⟨hq, hqs⟩ := List.pairwise_cons.mp hapart
    have hfirst := hnew q (List.mem_cons_self ..)
    obtain ⟨hqalign, hqlt⟩ := halign q (List.mem_cons_self ..)
    obtain ⟨⟨f, wse, hprepaged⟩, -, -⟩ := mapSegmentPage_spec h.mem.walk hqalign (h.empty q hfirst) hs₁
    have h₁ := h.prepaged hprepaged ⟨loadtime_present f, rfl⟩ hqalign hqlt hfirst
    refine ih (ha.mapSegmentPage h.mem.walk hqalign (h.empty q hfirst) hs₁) h₁ (fun x hx => halign x (List.mem_cons_of_mem _ hx)) hqs
      (fun x hx p hp => ?_) hs
    rcases List.mem_cons.mp hp with rfl | hp
    · exact fun hsame => hq x hx hsame.symm
    · exact hnew x (List.mem_cons_of_mem _ hx) p hp

omit [DecidableEq E] in
/-- A loop whose rounds leave the others aside. -/
theorem Aside.exec {α : Type} {step : UserMem E → α → Option (UserMem E)} {l : List α} (ha : Aside d s₀ s)
    (hstep : ∀ s x t, s.run.WalkInv all boot → Aside d s₀ s → step s x = some t → t.run.WalkInv all boot ∧ Aside d s₀ t)
    (h : s.run.WalkInv all boot) (hs : Lib.exec step s l = some t) : Aside d s₀ t := by
  induction l generalizing s with
  | nil =>
    cases hs
    exact ha
  | cons x l ih =>
    obtain ⟨s₁, hs₁, hs⟩ := exec_cons.mp hs
    obtain ⟨h₁, ha₁⟩ := hstep s x s₁ h ha hs₁
    exact ih ha₁ h₁ hs

theorem Aside.segment {pageWsSize remaining n : Nat} {seg : Segment} {progName : String} (ha : Aside d s₀ s)
    (h : Loading all boot d pageWsSize ps s₀ s) (hbelow : seg.Below) (hnew : ∀ q, seg.Has q → ∀ p ∈ ps, ¬ Paging.SamePage q p)
    (hs : s.programSegmentAllocMapCopyWorkingset d progName seg remaining = some (t, n)) : Aside d s₀ t := by
  obtain ⟨s₁, hs₁, hs⟩ := Option.bind_eq_some_iff.mp hs
  obtain ⟨s₂, hs₂, heq⟩ := Option.map_eq_some_iff.mp hs
  cases heq
  obtain ⟨hhas, hapart⟩ := Segment.prepaged_spec hbelow progName remaining
  obtain ⟨-, hround⟩ := hbelow.bounds
  have halign : ∀ q ∈ seg.prepaged progName remaining, q % 4096 = 0 ∧ q < userTop :=
    fun q hq => ⟨(hhas q hq).1, lt_of_lt_of_le (hhas q hq).2.2 (hround.trans (by decide))⟩
  obtain ⟨h₁, -⟩ := h.mapSegmentPages halign hapart (fun q hq => hnew q (hhas q hq)) hs₁
  have ha₁ := ha.mapSegmentPages h halign hapart (fun q hq => hnew q (hhas q hq)) hs₁
  exact ha₁.exec (fun s x t h ha hs => ⟨(writeUserPage_touched h hs).1, ha.writeUserPage h hs⟩) h₁.mem.walk hs₂

/-- Step 7 of `env_create`. -/
theorem Aside.loadSegments {pageWsSize remaining : Nat} {segs : List Segment} {progName : String} (ha : Aside d s₀ s)
    (h : Loading all boot d pageWsSize ps s₀ s) (hload : Loadable segs) (hfits : ∀ seg ∈ segs, seg.Fits)
    (hnew : ∀ seg ∈ segs, ∀ q, seg.Has q → ∀ p ∈ ps, ¬ Paging.SamePage q p)
    (hs : UserMem.loadSegments d progName s remaining segs = some t) : Aside d s₀ t := by
  induction segs generalizing s remaining ps with
  | nil =>
    cases hs
    exact ha
  | cons seg segs ih =>
    obtain ⟨⟨s₁, n⟩, hs₁, hs⟩ := Option.bind_eq_some_iff.mp hs
    obtain ⟨s₂, hs₂, hs⟩ := Option.bind_eq_some_iff.mp hs
    obtain ⟨hbelow, hapart⟩ := hload
    have hseg := hbelow seg (List.mem_cons_self ..)
    obtain ⟨hfirst, hrest⟩ := List.pairwise_cons.mp hapart
    have ha₁ := ha.segment h hseg (hnew seg (List.mem_cons_self ..)) hs₁
    have ha₂ := ha₁.writeSegment hseg (hfits seg (List.mem_cons_self ..)) hs₂
    obtain ⟨rfl, h₁⟩ := h.segment hseg (hnew seg (List.mem_cons_self ..)) hs₁
    obtain ⟨disk, rfl⟩ := writeSegment_eq hs₂
    have h₂ := h₁.touched (t := { s₁ with disk := disk }) h₁.mem.walk (touched_disk s₁ disk)
    obtain ⟨hhas, -⟩ := Segment.prepaged_spec hseg progName remaining
    refine ih ha₂ h₂ ⟨fun seg' hseg' => hbelow seg' (List.mem_cons_of_mem _ hseg'), hrest⟩
      (fun seg' hseg' => hfits seg' (List.mem_cons_of_mem _ hseg')) (fun seg' hseg' q hq p hp => ?_) hs
    rcases List.mem_append.mp hp with hp | hp
    · have hnot := Segment.Has.not_samePage hseg (hbelow seg' (List.mem_cons_of_mem _ hseg')) (hfirst seg' hseg')
        (hhas p (List.mem_reverse.mp hp)) hq
      exact fun hsame => hnot hsame.symm
    · exact hnew seg' (List.mem_cons_of_mem _ hseg') q hq p hp

/-- Step 10: the frame of the stack is new when it is filled with zeros. -/
theorem Aside.mapStackPage (ha : Aside d s₀ s) (h : s.run.WalkInv all boot) (hempty : s.run.paging.page d stackVa = {})
    (hs : s.mapStackPage d = some t) : Aside d s₀ t := by
  obtain ⟨⟨r, f⟩, hr, hs⟩ := Option.bind_eq_some_iff.mp hs
  obtain ⟨p, hp, hs⟩ := Option.bind_eq_some_iff.mp hs
  obtain ⟨s₁, hs₁, hs⟩ := Option.bind_eq_some_iff.mp hs
  obtain ⟨⟨s₂, wse⟩, hs₂, hs⟩ := Option.bind_eq_some_iff.mp hs
  obtain ⟨⟨disk, result⟩, hadd, rfl⟩ := Option.map_eq_some_iff.mp hs
  obtain ⟨h₁, hfresh, hwrites, -⟩ := loadtime_spec h hempty (by decide) hr hp
  have ha₁ : Aside d s₀ (s.setRun { r with paging := p, handed := r.handed.erase f }) :=
    ha.fresh hwrites hfresh (fun _ _ _ _ _ => rfl) (otherDisk_of_eq rfl)
  obtain ⟨h₂, -⟩ := writeUserPage_spec (s := s.setRun _) h₁ hs₁
  have ha₂ := ha₁.writeUserPage h₁ hs₁
  obtain ⟨r', -, hpage, -, -, -, rfl⟩ := createElement_spec h₂ (by decide) hs₂
  refine ha₂.step (fun e q _ => congrFun (congrFun hpage e) q) (fun q g hm => .inl ?_) (fun _ _ _ _ _ => rfl) fun hi =>
    pfAdd_others hi (by decide) hadd
  have hm : r'.paging.Maps d q g := hm
  unfold Paging.Maps at hm
  rw [hpage] at hm
  exact hm

/-- Nothing of `d` is in the page file, so that no disk frame is forgotten with its directory. -/
theorem aside_init {pageWsSize : Nat} (hunused : Unused s d) (hi : s.disk.Inv) (hnone : ∀ x, x.1 = d → s.disk.hold x = none) :
    Aside d s (s.initializeEnvironment d pageWsSize) := by
  have hrun : (s.initializeEnvironment d pageWsSize).run = s.run := initializeEnvironment_run hunused
  have hhold : (s.initializeEnvironment d pageWsSize).disk.hold = s.disk.hold := by
    funext x
    by_cases hx : x.1 = d
    · rw [hnone x hx]
      show (((Function.update s.disk.pgdir d none) x.1).bind (· x.2.1)).bind _ = none
      rw [hx, Function.update_self]
      rfl
    · show (((Function.update s.disk.pgdir d none) x.1).bind (· x.2.1)).bind _ = _
      rw [Function.update_of_ne hx]
      rfl
  refine ⟨fun _ _ _ => by rw [hrun], fun q f e q' _ hm => ?_, fun _ _ _ _ _ => rfl, ⟨?_, fun e i hle => ?_⟩, fun x _ =>
    congrFun (PageFile.contents_congr hhold rfl) x⟩
  · rw [hrun] at hm
    obtain ⟨hpresent, -⟩ := hm
    rw [Paging.page_of_none (hunused.pde _)] at hpresent
    exact absurd hpresent (by decide)
  · rw [hhold]
    exact hi.ledger
  · show ((Function.update s.disk.pgdir d none) e).bind (· i) = none
    rw [Function.update_apply]
    split
    · rfl
    · exact hi.below e i hle

/-- `env_create` leaves the others aside, and the new environment has a table, the one of its stack. -/
theorem envCreate_aside {pageWsSize : Nat} {progName : String} {segs : List Segment} (h : MemInv all boot s) (hunused : Unused s d)
    (hpos : 1 ≤ pageWsSize) (hlt : pageWsSize < 4294967296) (hload : Loadable segs) (hfits : ∀ seg ∈ segs, seg.Fits)
    (hi : s.disk.Inv) (hnone : ∀ x, x.1 = d → s.disk.hold x = none)
    (hs : s.envCreate d pageWsSize progName segs = some t) : Aside d s t ∧ ∃ i, t.run.paging.pde d i ≠ none := by
  obtain ⟨s₁, hs₁, hs⟩ := Option.bind_eq_some_iff.mp hs
  obtain ⟨s₂, hs₂, hs⟩ := Option.bind_eq_some_iff.mp hs
  obtain ⟨s₃, hs₃, hs⟩ := Option.bind_eq_some_iff.mp hs
  obtain ⟨⟨r, p⟩, hr, hs⟩ := Option.bind_eq_some_iff.mp hs
  obtain ⟨-, heq⟩ := Option.ite_none_left_eq_some.mp hs
  cases heq
  have hremaining : u32 (pageWsSize + 4294967295) = pageWsSize - 1 := by
    unfold u32
    omega
  rw [hremaining] at hs₁
  have hinit : Loading all boot d pageWsSize [] s _ := loading_init h hunused
  have ha₁ := (aside_init hunused hi hnone).loadSegments hinit hload hfits (fun _ _ _ _ p hp => absurd hp List.not_mem_nil) hs₁
  obtain ⟨ps, h₁, -, hstack⟩ := hinit.loadSegments hload (by simp only [List.length_nil]; omega)
    (fun _ _ _ _ p hp => absurd hp List.not_mem_nil) (fun p hp => absurd hp List.not_mem_nil) hs₁
  obtain ⟨hwalk₂, ht₂⟩ := exec_touched (fun s x t h hs => ⟨(clearModified_touched h hs).1, (clearModified_touched h hs).2.1⟩)
    h₁.mem.walk hs₂
  have ha₂ := ha₁.exec (fun s x t h ha hs => ⟨(clearModified_touched h hs).1, ha.clearModified h hs⟩) h₁.mem.walk hs₂
  have h₂ := h₁.touched hwalk₂ ht₂
  have ha₃ := ha₂.mapStackPage hwalk₂ (h₂.empty _ hstack) hs₃
  have h₃ := h₂.mapStackPage hstack hs₃
  have hsize : u32 (4 * (s₃.ws d).list.length) ≤ 4294963200 := by
    have hle := h₃.resident.length_le (h₃.mem.nodup d)
    rw [u32_of_lt (by omega)]
    omega
  obtain ⟨-, hpage, -⟩ := h₃.mem.walk.kmalloc hsize hr
  have htable : ∃ i, r.paging.pde d i ≠ none := by
    cases hlist : (s₃.ws d).list with
    | nil =>
      have hlength := h₃.length
      rw [hlist] at hlength
      exact absurd hlength.symm (Nat.succ_ne_zero _)
    | cons x l =>
      obtain ⟨f, hpresent, -⟩ := h₃.resident.mapped x (hlist ▸ List.mem_cons_self ..)
      rw [← hpage] at hpresent
      exact ⟨_, pde_of_present (s := s₃.setRun r) hpresent⟩
  refine ⟨ha₃.step (fun e q _ => congrFun (congrFun hpage e) q) (fun q g hm => .inl ?_) (fun _ _ _ _ _ => rfl) (otherDisk_of_eq rfl),
    htable⟩
  have hm : r.paging.Maps d q g := hm
  unfold Paging.Maps at hm
  rw [hpage] at hm
  exact hm

omit [DecidableEq E] in
theorem Aside.spares (h : Aside d s t) (hne : e ≠ d) : Spares e va s t := by
  refine spares_of_page (h.page e va hne) (fun ha f x q hm hm' => ?_) (fun f _ hm => h.data e va f hne hm) ?_
  · by_cases hx : x = d
    · subst hx
      exact absurd hm (h.apart q f e va hne hm')
    · unfold Paging.Maps at hm hm'
      rw [h.page e va hne] at hm
      rw [h.page x q hx] at hm'
      exact ha f x q hm hm'
  · exact pfRead_congr (h.contents (PageFile.key e va) hne)

end UserMem

end Fos.Mem
