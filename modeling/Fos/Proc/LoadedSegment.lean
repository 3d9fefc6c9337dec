import Fos.Proc.SegmentFile

/-! The loader of `env_create` on the bytes: the pages of a segment are mapped to frames of their own and filled, and they are
    written to the page file. What comes after a segment leaves both alone. -/

namespace Fos.Mem
open Lib Heap Disk Frames

variable {E : Type} [DecidableEq E] {all : List PageNo} {boot : PageNo → Nat} {e : E} {ps qs : List Nat} {m m' : UserMem E}
  {s t : UserMem E × LruLists} {lists : Bool} {progName : String} {seg : Segment} {segs : List Segment} {va remaining : Nat}

/-- The pages `ps` of `e` are mapped to different frames, and no others are. -/
structure Laid (all : List PageNo) (boot : PageNo → Nat) (e : E) (ps : List Nat) (m : UserMem E) : Prop where
  walk : m.run.WalkInv all boot
  inv : m.disk.Inv
  present : ∀ q ∈ ps, (m.run.paging.page e q).present
  apart : ∀ q ∈ ps, ∀ q' ∈ ps, (m.run.paging.page e q).frame = (m.run.paging.page e q').frame → Paging.SamePage q q'
  empty : ∀ q, (∀ x ∈ ps, ¬ Paging.SamePage q x) → m.run.paging.page e q = {}

/-- The pages `ps` have the frames that they had, with the same contents. -/
structure Kept (e : E) (ps : List Nat) (m m' : UserMem E) : Prop where
  frame : ∀ q ∈ ps, (m'.run.paging.page e q).frame = (m.run.paging.page e q).frame
  data : ∀ q ∈ ps, m'.data (m.run.paging.page e q).frame = m.data (m.run.paging.page e q).frame

omit [DecidableEq E] in
theorem Kept.trans {m'' : UserMem E} (h : Kept e ps m m') (h' : Kept e ps m' m'') : Kept e ps m m'' :=
  ⟨fun q hq => (h'.frame q hq).trans (h.frame q hq), fun q hq => by rw [← h.frame q hq, h'.data q hq, h.frame q hq, h.data q hq]⟩

omit [DecidableEq E] in
theorem Kept.mono (h : Kept e ps m m') (hsub : ∀ q ∈ qs, q ∈ ps) : Kept e qs m m' :=
  ⟨fun q hq => h.frame q (hsub q hq), fun q hq => h.data q (hsub q hq)⟩

omit [DecidableEq E] in
theorem kept_of_page (hpage : m'.run.paging.page = m.run.paging.page) (hdata : m'.data = m.data) : Kept e ps m m' :=
  ⟨fun q _ => by rw [hpage], fun q _ => by rw [hdata]⟩

/-! ### The steps -/

omit [DecidableEq E] in
theorem Laid.of_page (h : Laid all boot e ps m) (hwalk : m'.run.WalkInv all boot) (hinv : m'.disk.Inv)
    (hpage : m'.run.paging.page = m.run.paging.page) : Laid all boot e ps m' :=
  ⟨hwalk, hinv, hpage ▸ h.present, hpage ▸ h.apart, hpage ▸ h.empty⟩

/-- The pages `qs` have got frames besides `ps`, the first one the first frame that was free. -/
structure Mapped (all : List PageNo) (boot : PageNo → Nat) (e : E) (ps qs : List Nat) (m m' : UserMem E) : Prop where
  laid : Laid all boot e (ps ++ qs) m'
  kept : Kept e ps m m'
  data : m'.data = m.data
  disk : m'.disk = m.disk
  first : ∀ q ∈ qs.head?, (m.run.paging.heap.mem.freeFrameList.head ()).first = some (m'.run.paging.page e q).frame

theorem Laid.mapNewFrame (h : Laid all boot e ps m) (hnew : ∀ q ∈ ps, ¬ Paging.SamePage va q) (hs : Loader.mapNewFrame e m va = some m') :
    Mapped all boot e ps [va] m m' := by
  obtain ⟨⟨r, f⟩, hr, hs⟩ := Option.bind_eq_some_iff.mp hs
  obtain ⟨p, hp, rfl⟩ := Option.map_eq_some_iff.mp hs
  have hempty := h.empty va hnew
  obtain ⟨hwalk, hfresh, hwrites, -⟩ := UserMem.loadtime_spec h.walk hempty (by decide) hr hp
  have hothers : ∀ q ∈ ps, p.page e q = m.run.paging.page e q := fun q hq =>
    hwrites.others e q fun heq => hnew q hq heq.2.symm
  have hfresh' : ∀ q ∈ ps, (m.run.paging.page e q).frame ≠ f := fun q hq hf =>
    UserMem.fresh_maps hfresh e q ⟨h.present q hq, hf⟩
  refine ⟨⟨hwalk, h.inv, fun q hq => ?_, fun q hq q' hq' heq => ?_, fun q hq => ?_⟩, ⟨fun q hq => ?_, fun _ _ => rfl⟩, rfl, rfl,
    fun q hq => ?_⟩
  · show (p.page e q).present
    rcases List.mem_append.mp hq with hq | hq
    · rw [hothers q hq]
      exact h.present q hq
    · rw [List.mem_singleton.mp hq, hwrites.self]
      exact UserMem.loadtime_present f
  · have heq : (p.page e q).frame = (p.page e q').frame := heq
    rcases List.mem_append.mp hq with hq | hq <;> rcases List.mem_append.mp hq' with hq' | hq'
    · rw [hothers q hq, hothers q' hq'] at heq
      exact h.apart q hq q' hq' heq
    · rw [List.mem_singleton.mp hq', hothers q hq, hwrites.self] at heq
      exact absurd heq (hfresh' q hq)
    · rw [List.mem_singleton.mp hq, hothers q' hq', hwrites.self] at heq
      exact absurd heq.symm (hfresh' q' hq')
    · rw [List.mem_singleton.mp hq, List.mem_singleton.mp hq']
      exact ⟨rfl, rfl⟩
  · show p.page e q = {}
    rw [hwrites.others e q fun heq => hq va (List.mem_append_right _ (List.mem_singleton_self _)) heq.2]
    exact h.empty q fun x hx => hq x (List.mem_append_left _ hx)
  · show (p.page e q).frame = _
    rw [hothers q hq]
  · obtain rfl := Option.some.inj hq
    show _ = some (p.page e va).frame
    rw [hwrites.self]
    exact PagingRun.allocateFrame_first hr

omit [DecidableEq E] in
/-- The permissions of entries change, but not what they map. -/
theorem Laid.touched (h : Laid all boot e ps m) (hwalk : m'.run.WalkInv all boot) (hinv : m'.disk.Inv) (ht : UserMem.Touched m m') :
    Laid all boot e ps m' ∧ ∀ q ∈ ps, (m'.run.paging.page e q).frame = (m.run.paging.page e q).frame := by
  have hmaps : ∀ q ∈ ps, m'.run.paging.Maps e q (m.run.paging.page e q).frame := fun q hq => by
    rw [ht.maps]
    exact ⟨h.present q hq, rfl⟩
  refine ⟨⟨hwalk, hinv, fun q hq => (hmaps q hq).1, fun q hq q' hq' heq => ?_, fun q hq => ht.empty e q (h.empty q hq)⟩,
    fun q hq => (hmaps q hq).2⟩
  rw [(hmaps q hq).2, (hmaps q' hq').2] at heq
  exact h.apart q hq q' hq' heq

omit [DecidableEq E] in
/-- The bytes of a page are written. -/
theorem Laid.writeUserPage {content : Page → Page} (h : Laid all boot e ps m) (hs : m.writeUserPage e va content = some m') :
    Laid all boot e ps m' ∧ (∀ q ∈ ps, (m'.run.paging.page e q).frame = (m.run.paging.page e q).frame) ∧ m'.disk = m.disk ∧
      m'.data = Function.update m.data (m.run.paging.page e va).frame (content (m.data (m.run.paging.page e va).frame)) := by
  obtain ⟨hwalk, ht, hdisk⟩ := UserMem.writeUserPage_touched h.walk hs
  obtain ⟨-, -, -, -, -, -, hdata⟩ := UserMem.writeUserPage_spec h.walk hs
  obtain ⟨hlaid, hframe⟩ := h.touched hwalk (hdisk ▸ h.inv) ht
  exact ⟨hlaid, hframe, hdisk, hdata⟩

theorem Laid.createElement {wse : Nat} (h : Laid all boot e ps m) (halign : va % 4096 = 0) (hs : m.createElement e va = some (m', wse)) :
    Laid all boot e ps m' ∧ m'.run.paging.page = m.run.paging.page ∧ m'.data = m.data ∧ m'.disk = m.disk := by
  obtain ⟨r, hwalk, hpage, -, -, -, rfl⟩ := UserMem.createElement_spec h.walk halign hs
  exact ⟨h.of_page hwalk h.inv hpage, hpage, rfl, rfl⟩

/-! ### The pages of a segment in memory -/

theorem insertElement_mem (lists : Bool) (e : E) (s : UserMem E × LruLists) (wse : Nat) :
    (Loader.insertElement lists e s wse).1.run = s.1.run ∧ (Loader.insertElement lists e s wse).1.disk = s.1.disk ∧
      (Loader.insertElement lists e s wse).1.data = s.1.data := by
  cases lists <;> exact ⟨rfl, rfl, rfl⟩

theorem Laid.mapSegmentPage (h : Laid all boot e ps s.1) (halign : va % 4096 = 0) (hnew : ∀ q ∈ ps, ¬ Paging.SamePage va q)
    (hs : Loader.mapSegmentPage lists e s va = some t) : Mapped all boot e ps [va] s.1 t.1 := by
  obtain ⟨m, hm, hs⟩ := Option.bind_eq_some_iff.mp hs
  obtain ⟨⟨m', wse⟩, hm', rfl⟩ := Option.map_eq_some_iff.mp hs
  have hmapped := h.mapNewFrame hnew hm
  obtain ⟨hlaid, hpage, hdata, hdisk⟩ := hmapped.laid.createElement halign hm'
  obtain ⟨hrun, hdisk', hdata'⟩ := insertElement_mem lists e (m', s.2) wse
  have hpage' : (Loader.insertElement lists e (m', s.2) wse).1.run.paging.page = m.run.paging.page := by
    rw [hrun]
    exact hpage
  have hdata' := hdata'.trans hdata
  have hdisk' := hdisk'.trans hdisk
  refine ⟨hmapped.laid.of_page (hrun ▸ hlaid.walk) (hdisk' ▸ hmapped.laid.inv) hpage', hmapped.kept.trans (kept_of_page hpage' hdata'),
    hdata'.trans hmapped.data, hdisk'.trans hmapped.disk, ?_⟩
  rw [hpage']
  exact hmapped.first

/-- The loop that maps pages of a segment. -/
theorem Laid.mapSegmentPages (h : Laid all boot e ps s.1) (halign : ∀ q ∈ qs, q % 4096 = 0) (hapart : Apart (ps ++ qs))
    (hs : exec (Loader.mapSegmentPage lists e) s qs = some t) : Mapped all boot e ps qs s.1 t.1 := by
  induction qs generalizing s ps with
  | nil =>
    cases hs
    refine ⟨?_, kept_of_page rfl rfl, rfl, rfl, nofun⟩
    rw [List.append_nil]
    exact h
  | cons q qs ih =>
    obtain ⟨s₁, hs₁, hs⟩ := exec_cons.mp hs
    have hnew : ∀ x ∈ ps, ¬ Paging.SamePage q x := fun x hx hsame =>
      (List.pairwise_append.mp hapart).2.2 x hx q (List.mem_cons_self ..) hsame.symm
    have h₁ := h.mapSegmentPage (halign q (List.mem_cons_self ..)) hnew hs₁
    rw [List.append_cons] at hapart
    have h' := ih h₁.laid (fun x hx => halign x (List.mem_cons_of_mem _ hx)) hapart hs
    refine ⟨?_, h₁.kept.trans (h'.kept.mono fun x hx => List.mem_append_left _ hx), h'.data.trans h₁.data, h'.disk.trans h₁.disk, ?_⟩
    · rw [List.append_cons]
      exact h'.laid
    · intro x hx
      obtain rfl := Option.some.inj hx
      rw [h'.kept.frame q (List.mem_append_right _ (List.mem_singleton_self _))]
      exact h₁.first q rfl

omit [DecidableEq E] in
/-- The loop that fills them. -/
theorem Laid.copyPages {content : Nat → Page → Page} (h : Laid all boot e ps m) (hqs : ∀ q ∈ qs, q ∈ ps) (hapart : Apart qs)
    (hs : exec (fun m va => m.writeUserPage e va (content va)) m qs = some m') :
    Laid all boot e ps m' ∧ (∀ q ∈ ps, (m'.run.paging.page e q).frame = (m.run.paging.page e q).frame) ∧ m'.disk = m.disk ∧
      (∀ q ∈ qs, m'.data (m.run.paging.page e q).frame = content q (m.data (m.run.paging.page e q).frame)) ∧
      ∀ q ∈ ps, (∀ x ∈ qs, ¬ Paging.SamePage q x) → m'.data (m.run.paging.page e q).frame = m.data (m.run.paging.page e q).frame := by
  induction qs generalizing m with
  | nil =>
    cases hs
    exact ⟨h, fun _ _ => rfl, rfl, fun _ hq => absurd hq List.not_mem_nil, fun _ _ _ => rfl⟩
  | cons x qs ih =>
    obtain ⟨m₁, hm₁, hs⟩ := exec_cons.mp hs
    obtain ⟨hx, hrest⟩ := List.pairwise_cons.mp hapart
    have hxin := hqs x (List.mem_cons_self ..)
    obtain ⟨h₁, hframe₁, hdisk₁, hdata₁⟩ := h.writeUserPage hm₁
    obtain ⟨h', hframe, hdisk, hfilled, hothers⟩ := ih h₁ (fun q hq => hqs q (List.mem_cons_of_mem _ hq)) hrest hs
    have hkept : ∀ q ∈ ps, ¬ Paging.SamePage q x → m₁.data (m.run.paging.page e q).frame = m.data (m.run.paging.page e q).frame := by
      intro q hq hne
      rw [hdata₁, Function.update_of_ne fun heq => hne (h.apart q hq x hxin heq)]
    refine ⟨h', fun q hq => (hframe q hq).trans (hframe₁ q hq), hdisk.trans hdisk₁, fun q hq => ?_, fun q hq hne => ?_⟩
    · rw [← hframe₁ q (hqs q hq)]
      rcases List.mem_cons.mp hq with rfl | hq
      · rw [hothers q hxin hx, hframe₁ q hxin, hdata₁, Function.update_self]
      · have hin := hqs q (List.mem_cons_of_mem _ hq)
        rw [hfilled q hq, hframe₁ q hin, hkept q hin fun hsame => hx q hq hsame.symm]
    · rw [← hkept q hq (hne x (List.mem_cons_self ..)), ← hframe₁ q hq]
      exact hothers q hq fun y hy => hne y (List.mem_cons_of_mem _ hy)

/-- The first page that is mapped is the first page of the segment. -/
theorem Segment.prepaged_head (seg : Segment) (progName : String) (remaining : Nat) (hbelow : seg.Below)
    (hne : seg.prepaged progName remaining ≠ []) : (seg.prepaged progName remaining).head? = some seg.startFirst := by
  obtain ⟨hle, -⟩ := hbelow.bounds
  have hdown : seg.startFirst ≤ seg.virtualAddress := Nat.sub_le ..
  unfold prepaged pagesFrom at hne ⊢
  dsimp only at hne ⊢
  generalize min (seg.limit progName remaining) _ = n at hne
  cases n with
  | zero => exact absurd rfl hne
  | succ n =>
    rw [List.range_succ_eq_map, List.map_cons, List.head?_cons, Nat.zero_mul, Nat.add_zero]
    exact congrArg some (u32_of_lt (show seg.startFirst < _ by omega))

/-- `program_segment_alloc_map_copy_workingset` -/
theorem Laid.segment {n : Nat} (h : Laid all boot e ps s.1) (hbelow : seg.Below) (hapart : Apart (ps ++ seg.prepaged progName remaining))
    (hs : Loader.programSegmentAllocMapCopyWorkingset lists e s progName seg remaining = some (t, n)) :
    Laid all boot e (ps ++ seg.prepaged progName remaining) t.1 ∧ Kept e ps s.1 t.1 ∧ t.1.disk = s.1.disk ∧
      n = (seg.prepaged progName remaining).length ∧
      ∀ p ∈ seg.prepaged progName remaining, ∃ old, t.1.data (t.1.run.paging.page e p).frame = seg.copied p old ∧
        (p = seg.startFirst → ∃ f, (s.1.run.paging.heap.mem.freeFrameList.head ()).first = some f ∧ old = s.1.data f) := by
  obtain ⟨⟨m₁, l₁⟩, hm₁, hs⟩ := Option.bind_eq_some_iff.mp hs
  obtain ⟨m₂, hm₂, heq⟩ := Option.map_eq_some_iff.mp hs
  cases heq
  obtain ⟨hhas, hpages⟩ := Segment.prepaged_spec hbelow progName remaining
  have hmapped := h.mapSegmentPages (fun q hq => (hhas q hq).1) hapart hm₁
  obtain ⟨hlaid, hframe, hdisk, hfilled, hothers⟩ := hmapped.laid.copyPages (fun q hq => List.mem_append_right _ hq) hpages hm₂
  have hkept : Kept e ps m₁ m₂ := ⟨fun q hq => hframe q (List.mem_append_left _ hq), fun q hq => hothers q (List.mem_append_left _ hq) fun x hx =>
    (List.pairwise_append.mp hapart).2.2 q hq x hx⟩
  refine ⟨hlaid, hmapped.kept.trans hkept, hdisk.trans hmapped.disk, rfl, fun p hp =>
    ⟨m₁.data (m₁.run.paging.page e p).frame, ?_, fun hfirst => ?_⟩⟩
  · dsimp only
    rw [hframe p (List.mem_append_right _ hp)]
    exact hfilled p hp
  · subst hfirst
    have hhead := seg.prepaged_head progName remaining hbelow (List.ne_nil_of_mem hp)
    exact ⟨_, hmapped.first _ hhead, congrFun hmapped.data _⟩

/-! ### The pages of a segment in the page file -/

/-- The pages `ps` stay as they are, in the state `m'` that differs in the kernel heap and the page file. -/
structure Filed (all : List PageNo) (boot : PageNo → Nat) (e : E) (ps : List Nat) (m m' : UserMem E) : Prop where
  laid : Laid all boot e ps m'
  page : m'.run.paging.page = m.run.paging.page
  data : m'.data = m.data

omit [DecidableEq E] in
theorem Filed.trans {m'' : UserMem E} (h : Filed all boot e ps m m') (h' : Filed all boot e ps m' m'') : Filed all boot e ps m m'' :=
  ⟨h'.laid, h'.page.trans h.page, h'.data.trans h.data⟩

omit [DecidableEq E] in
theorem Filed.kept (h : Filed all boot e ps m m') : Kept e ps m m' := kept_of_page h.page h.data

omit [DecidableEq E] in
theorem Laid.kmalloc {r : PagingRun E} {size v : Nat} (h : Laid all boot e ps m) (hsize : size ≤ 4294963200)
    (hs : m.run.kmalloc size = some (r, v)) : Filed all boot e ps m (m.setRun r) := by
  obtain ⟨hwalk, hpage, -⟩ := h.walk.kmalloc hsize hs
  exact ⟨h.of_page hwalk h.inv hpage, hpage, rfl⟩

theorem Laid.getDiskPageDirectory (h : Laid all boot e ps m) (hs : m.getDiskPageDirectory e = some m') :
    Filed all boot e ps m m' ∧ m'.disk.contents = m.disk.contents ∧ (m'.disk.pgdir e).isSome := by
  unfold UserMem.getDiskPageDirectory at hs
  split at hs
  case isTrue hdir =>
    cases hs
    exact ⟨⟨h, rfl, rfl⟩, rfl, hdir⟩
  case isFalse =>
    obtain ⟨⟨r, p⟩, hr, hs⟩ := Option.bind_eq_some_iff.mp hs
    obtain ⟨-, heq⟩ := Option.ite_none_left_eq_some.mp hs
    cases heq
    have hfiled := h.kmalloc (by decide) hr
    exact ⟨⟨hfiled.laid.of_page hfiled.laid.walk h.inv.getDiskPageDirectory rfl, hfiled.page, rfl⟩,
      m.disk.contents_getDiskPageDirectory e, (PageFile.getDiskPageDirectory_spec m.disk e).2.1⟩

theorem Laid.getDiskPageTable (h : Laid all boot e ps m) (hva : va < userTop) (hdir : (m.disk.pgdir e).isSome)
    (hs : m.getDiskPageTable e va = some m') : Filed all boot e ps m m' ∧ m'.disk.contents = m.disk.contents := by
  unfold UserMem.getDiskPageTable at hs
  split at hs
  case isTrue =>
    cases hs
    exact ⟨⟨h, rfl, rfl⟩, rfl⟩
  case isFalse hnone =>
    obtain ⟨⟨r, p⟩, hr, hs⟩ := Option.bind_eq_some_iff.mp hs
    obtain ⟨-, heq⟩ := Option.ite_none_left_eq_some.mp hs
    cases heq
    have hfiled := h.kmalloc (by decide) hr
    obtain ⟨hmade, hinv, hhold⟩ := getDiskPageTable_made h.inv hva hdir (Option.not_isSome_iff_eq_none.mp hnone)
    refine ⟨⟨hfiled.laid.of_page hfiled.laid.walk hinv rfl, hfiled.page, rfl⟩, PageFile.contents_congr hhold ?_⟩
    show (m.disk.getDiskPageTable e va true).1.data = _
    rw [hmade]
    rfl

theorem Laid.pfAddEnvPage {page : Page} {r : UserMem E × PfResult} (h : Laid all boot e ps m) (hva : va < userTop)
    (hs : m.pfAddEnvPage e va page = some r) : Filed all boot e ps m r.1 ∧
      r.1.disk.contents = if r.2 = .success then Function.update m.disk.contents (PageFile.key e va) (some page)
        else m.disk.contents := by
  obtain ⟨m₁, hm₁, hs⟩ := Option.bind_eq_some_iff.mp hs
  obtain ⟨m₂, hm₂, hs⟩ := Option.bind_eq_some_iff.mp hs
  obtain ⟨⟨disk, result⟩, hadd, rfl⟩ := Option.map_eq_some_iff.mp hs
  obtain ⟨hfiled₁, hcontents₁, hdir⟩ := h.getDiskPageDirectory hm₁
  obtain ⟨hfiled₂, hcontents₂⟩ := hfiled₁.laid.getDiskPageTable hva hdir hm₂
  have hinv := hfiled₂.laid.inv
  have hnext := hinv.pfAddEnvPage_next hva hadd
  refine ⟨(hfiled₁.trans hfiled₂).trans ⟨hfiled₂.laid.of_page hfiled₂.laid.walk (hinv.pfAddEnvPage hva hadd).1 rfl, rfl, rfl⟩, ?_⟩
  rw [hcontents₂, hcontents₁] at hnext
  dsimp only
  generalize disk.contents = c at hnext
  cases result with
  | success =>
    cases hnext
    rfl
  | noPageFileSpace =>
    cases hnext
    rfl

/-- The loop that adds pages. -/
theorem Laid.addProgramPages {l : List (Nat × Page)} (h : Laid all boot e ps m) (hva : ∀ x ∈ l, x.1 < userTop)
    (hs : exec (UserMem.addProgramPage e) m l = some m') :
    Filed all boot e ps m m' ∧ m'.disk.contents = addedPages e m.disk.contents l := by
  induction l generalizing m with
  | nil =>
    cases hs
    exact ⟨⟨h, rfl, rfl⟩, rfl⟩
  | cons x l ih =>
    obtain ⟨m₁, hm₁, hs⟩ := exec_cons.mp hs
    obtain ⟨⟨m₂, result⟩, hadd, hm₁⟩ := Option.bind_eq_some_iff.mp hm₁
    obtain ⟨hfiled, hcontents⟩ := h.pfAddEnvPage (hva x (List.mem_cons_self ..)) hadd
    cases result with
    | success =>
      cases hm₁
      obtain ⟨hfiled', hcontents'⟩ := ih hfiled.laid (fun y hy => hva y (List.mem_cons_of_mem _ hy)) hs
      refine ⟨hfiled.trans hfiled', ?_⟩
      rw [hcontents', hcontents, if_pos rfl, addedPages_cons]
    | noPageFileSpace => exact absurd hm₁.symm (Option.some_ne_none m₁)

/-- Steps 7.2 to 7.5 -/
theorem Laid.writeSegment (h : Laid all boot e ps m) (hbelow : seg.Below) (hfits : seg.Fits)
    (hs : Loader.writeSegment e m seg = some m') :
    Filed all boot e ps m m' ∧ m'.disk.contents = addedPages e m.disk.contents (seg.filePages m.disk.zeroPage) := by
  refine h.addProgramPages (fun x hx => Segment.fileAddresses_lt hbelow hfits x.1 ?_) hs
  rw [← seg.filePages_fst m.disk.zeroPage]
  exact List.mem_map_of_mem hx

end Fos.Mem
