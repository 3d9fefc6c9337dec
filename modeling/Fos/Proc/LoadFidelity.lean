import Fos.Proc.LoadedSegment

/-! Whether a segment is in the page file and in memory as it is in the program's file, when `env_create` has loaded it. -/

namespace Fos.Mem
open Lib Heap Disk Frames

variable {E : Type} [DecidableEq E] {all : List PageNo} {boot : PageNo → Nat} {e : E} {ps : List Nat} {m m' : UserMem E}
  {s t u : UserMem E × LruLists} {lists : Bool} {progName : String} {seg : Segment} {segs pre post : List Segment} {remaining : Nat}

/-! ### The loop over the segments -/

namespace Loader

/-- The state in which the loop over the segments begins. -/
def start (lists : Bool) (e : E) (s : UserMem E × LruLists) (pageWsSize secondListSize : Nat) : UserMem E × LruLists :=
  (s.1.initializeEnvironment e pageWsSize,
    if lists then s.2.setSizes (u32 (pageWsSize + 4294967296 - secondListSize)) secondListSize else s.2)

/-- `remaining_ws_pages` behind the segments `segs` -/
def remainingAfter (progName : String) (pageWsSize : Nat) (segs : List Segment) : Nat :=
  u32 (pageWsSize + 4294967295) - (UserMem.mappedPages progName (u32 (pageWsSize + 4294967295)) segs).length

theorem allocated_eq {n : Nat} (hs : programSegmentAllocMapCopyWorkingset lists e s progName seg remaining = some (t, n)) :
    n = (seg.prepaged progName remaining).length := by
  obtain ⟨⟨m₁, l₁⟩, -, hs⟩ := Option.bind_eq_some_iff.mp hs
  obtain ⟨m₂, -, heq⟩ := Option.map_eq_some_iff.mp hs
  cases heq
  rfl

theorem loadSegments_append : loadSegments lists e progName s remaining (pre ++ segs) =
    (loadSegments lists e progName s remaining pre).bind fun s =>
      loadSegments lists e progName s (remaining - (UserMem.mappedPages progName remaining pre).length) segs := by
  induction pre generalizing s remaining with
  | nil => rfl
  | cons seg pre ih =>
    rw [List.cons_append, loadSegments, loadSegments, Option.bind_assoc]
    refine Option.bind_congr fun r hr => ?_
    obtain ⟨⟨m, l⟩, n⟩ := r
    dsimp only
    rw [Option.bind_assoc]
    refine Option.bind_congr fun m' _ => ?_
    rw [ih, allocated_eq hr, UserMem.mappedPages, List.length_append, Nat.sub_sub]

end Loader

/-- A segment is loaded. -/
structure SegmentLoaded (all : List PageNo) (boot : PageNo → Nat) (e : E) (ps pages : List Nat) (seg : Segment) (m m' : UserMem E) :
    Prop where
  laid : Laid all boot e (ps ++ pages) m'
  kept : Kept e ps m m'
  wrote : m.Wrote m' e seg pages
  contents : m'.disk.contents = addedPages e m.disk.contents (seg.filePages m.disk.zeroPage)

theorem Laid.loadSegment {n : Nat} (h : Laid all boot e ps s.1) (hbelow : seg.Below) (hfits : seg.Fits)
    (hapart : Apart (ps ++ seg.prepaged progName remaining))
    (hs : Loader.programSegmentAllocMapCopyWorkingset lists e s progName seg remaining = some (t, n))
    (hm : Loader.writeSegment e t.1 seg = some m) :
    SegmentLoaded all boot e ps (seg.prepaged progName remaining) seg s.1 m := by
  obtain ⟨hlaid, hkept, hdisk, -, hcopied⟩ := h.segment hbelow hapart hs
  obtain ⟨hfiled, hcontents⟩ := hlaid.writeSegment hbelow hfits hm
  rw [hdisk] at hcontents
  refine ⟨hfiled.laid, hkept.trans (hfiled.kept.mono fun q hq => List.mem_append_left _ hq), ⟨fun p hp => ?_, fun p hp => ?_⟩,
    hcontents⟩
  · rw [← PageFile.contents_key, hcontents]
    exact hbelow.addedPages_filed hfits _ hp
  · rw [hfiled.page, hfiled.data]
    exact hcopied p hp

/-- The loop maps the pages of the segments and writes to the page file at their addresses only. -/
theorem Laid.loadSegments (h : Laid all boot e ps s.1) (hbelow : ∀ seg ∈ segs, seg.Below) (hfits : ∀ seg ∈ segs, seg.Fits)
    (hapart : Apart (ps ++ UserMem.mappedPages progName remaining segs))
    (hs : Loader.loadSegments lists e progName s remaining segs = some t) :
    Laid all boot e (ps ++ UserMem.mappedPages progName remaining segs) t.1 ∧ Kept e ps s.1 t.1 ∧
      ∀ k, (∀ seg ∈ segs, ∀ va ∈ seg.fileAddresses, PageFile.key e va ≠ k) → t.1.disk.contents k = s.1.disk.contents k := by
  induction segs generalizing s remaining ps with
  | nil =>
    cases hs
    rw [UserMem.mappedPages, List.append_nil]
    exact ⟨h, kept_of_page rfl rfl, fun _ _ => rfl⟩
  | cons seg segs ih =>
    obtain ⟨⟨⟨m₁, l₁⟩, n⟩, hs₁, hs⟩ := Option.bind_eq_some_iff.mp hs
    obtain ⟨m₂, hm₂, hs⟩ := Option.bind_eq_some_iff.mp hs
    unfold UserMem.mappedPages at hapart ⊢
    dsimp only at hapart ⊢
    rw [← List.append_assoc] at hapart ⊢
    have hseg := h.loadSegment (hbelow seg (List.mem_cons_self ..)) (hfits seg (List.mem_cons_self ..))
      (List.pairwise_append.mp hapart).1 hs₁ hm₂
    obtain rfl := Loader.allocated_eq hs₁
    obtain ⟨hlaid, hkept, hothers⟩ := ih (s := (m₂, l₁)) hseg.laid (fun x hx => hbelow x (List.mem_cons_of_mem _ hx))
      (fun x hx => hfits x (List.mem_cons_of_mem _ hx)) hapart hs
    refine ⟨hlaid, hseg.kept.trans (hkept.mono fun q hq => List.mem_append_left _ hq), fun k hk => ?_⟩
    rw [hothers k fun x hx => hk x (List.mem_cons_of_mem _ hx), hseg.contents]
    refine addedPages_of_not_mem fun x hx => hk seg (List.mem_cons_self ..) x.1 ?_
    rw [← seg.filePages_fst s.1.disk.zeroPage]
    exact List.mem_map_of_mem hx

/-- `initialize_environment` -/
theorem Fresh.laid {n secondListSize : Nat} (hfresh : Fresh e s) (hwalk : s.1.run.WalkInv all boot) (hinv : s.1.disk.Inv) :
    Laid all boot e [] (Loader.start lists e s n secondListSize).1 := by
  have hrun : (s.1.initializeEnvironment e n).run = s.1.run := UserMem.initializeEnvironment_run hfresh.unused
  have hdisk : (s.1.initializeEnvironment e n).disk = s.1.disk := by
    show { s.1.disk with pgdir := Function.update s.1.disk.pgdir e none } = s.1.disk
    rw [← hfresh.directory, Function.update_eq_self]
  show Laid all boot e [] (s.1.initializeEnvironment e n)
  refine ⟨hrun ▸ hwalk, hdisk ▸ hinv, fun q hq => absurd hq List.not_mem_nil, fun q hq => absurd hq List.not_mem_nil, fun q _ => ?_⟩
  rw [hrun]
  exact Paging.page_of_none (hfresh.unused.pde _)

/-! ### What comes behind the segments -/

omit [DecidableEq E] in
theorem clearPermissions_frames {perm : BitVec 12} {va : Nat} (hs : m.clearPermissions e va perm = some m') :
    (∀ d q, (m'.run.paging.page d q).frame = (m.run.paging.page d q).frame) ∧ m'.data = m.data ∧ m'.disk = m.disk := by
  obtain ⟨r, hr, rfl⟩ := Option.map_eq_some_iff.mp hs
  obtain ⟨p, hp, rfl⟩ := Option.map_eq_some_iff.mp hr
  refine ⟨fun d q => ?_, rfl, rfl⟩
  obtain ⟨x, -, hp⟩ := Option.bind_eq_some_iff.mp hp
  cases x with
  | inMemory table =>
    cases hp
    show (Paging.page (Paging.writeEntry ..) d q).frame = (Paging.page m.run.paging d q).frame
    generalize hpage : m.run.paging.page d q = entry
    cases ht : m.run.paging.pde d (pdx q) with
    | none =>
      rw [Paging.page_of_none ht] at hpage
      rw [Paging.page_of_none (s := Paging.writeEntry ..) ht, ← hpage]
    | some t =>
      rw [Paging.page_of_some ht] at hpage
      rw [Paging.page_of_some (s := Paging.writeEntry ..) ht]
      show (Function.update m.run.paging.heap.mem.pte (.user table (ptx va)) _ (.user t (ptx q))).frame = entry.frame
      rw [Function.update_apply, ← hpage]
      split
      case isTrue heq => rw [heq]
      case isFalse => rfl
  | notExist => exact absurd hp.symm (Option.some_ne_none p)
  | null => exact absurd hp.symm (Option.some_ne_none p)

omit [DecidableEq E] in
/-- A loop that clears bits in entries. -/
theorem clearBits_frames {perm : BitVec 12} {l : List Nat} (hs : exec (fun m wse => m.clearPermissions e (m.elementVa e wse) perm) m l = some m') :
    (∀ d q, (m'.run.paging.page d q).frame = (m.run.paging.page d q).frame) ∧ m'.data = m.data ∧ m'.disk = m.disk := by
  refine exec_keeps (I := fun m' : UserMem E => (∀ d q, (m'.run.paging.page d q).frame = (m.run.paging.page d q).frame) ∧
    m'.data = m.data ∧ m'.disk = m.disk) hs (fun m₁ _ m₂ h hm₂ => ?_) ⟨fun _ _ => rfl, rfl, rfl⟩
  obtain ⟨hframe, hdata, hdisk⟩ := clearPermissions_frames hm₂
  exact ⟨fun d q => (hframe d q).trans (h.1 d q), hdata.trans h.2.1, hdisk.trans h.2.2⟩

omit [DecidableEq E] in
/-- Step 8 -/
theorem Laid.clearModified {l : List Nat} (h : Laid all boot e ps m)
    (hs : exec (fun m wse => m.clearPermissions e (m.elementVa e wse) permModified) m l = some m') :
    Laid all boot e ps m' ∧ Kept e ps m m' ∧ m'.disk = m.disk := by
  obtain ⟨hwalk, ht⟩ := UserMem.exec_touched (fun m x m' h hs =>
    ⟨(UserMem.clearModified_touched h hs).1, (UserMem.clearModified_touched h hs).2.1⟩) h.walk hs
  obtain ⟨hframe, hdata, hdisk⟩ := clearBits_frames hs
  exact ⟨(h.touched hwalk (hdisk ▸ h.inv) ht).1, ⟨fun q _ => hframe e q, fun _ _ => by rw [hdata]⟩, hdisk⟩

theorem insertStackElement_mem (lists : Bool) (e : E) (s : UserMem E × LruLists) (wse : Nat) :
    (Loader.insertStackElement lists e s wse).1.run = s.1.run ∧ (Loader.insertStackElement lists e s wse).1.disk = s.1.disk ∧
      (Loader.insertStackElement lists e s wse).1.data = s.1.data := by
  cases lists <;> exact ⟨rfl, rfl, rfl⟩

/-- Step 10 -/
theorem Laid.mapStackPage (h : Laid all boot e ps s.1) (hnew : ∀ q ∈ ps, ¬ Paging.SamePage UserMem.stackVa q)
    (hs : Loader.mapStackPage lists e s = some t) :
    Laid all boot e (ps ++ [UserMem.stackVa]) t.1 ∧ Kept e ps s.1 t.1 ∧
      ∀ k, PageFile.key e UserMem.stackVa ≠ k → t.1.disk.contents k = s.1.disk.contents k := by
  obtain ⟨m₁, hm₁, hs⟩ := Option.bind_eq_some_iff.mp hs
  obtain ⟨m₂, hm₂, hs⟩ := Option.bind_eq_some_iff.mp hs
  obtain ⟨⟨m₃, wse⟩, hm₃, hs⟩ := Option.bind_eq_some_iff.mp hs
  obtain ⟨⟨m₅, result⟩, hadd, rfl⟩ := Option.map_eq_some_iff.mp hs
  have hmapped := h.mapNewFrame hnew hm₁
  obtain ⟨h₂, hframe₂, hdisk₂, hdata₂⟩ := hmapped.laid.writeUserPage hm₂
  obtain ⟨h₃, hpage₃, hdata₃, hdisk₃⟩ := h₂.createElement (by decide) hm₃
  obtain ⟨hrun₄, hdisk₄, hdata₄⟩ := insertStackElement_mem lists e (m₃, s.2) wse
  generalize (Loader.insertStackElement lists e (m₃, s.2) wse).1 = m₄ at hrun₄ hdisk₄ hdata₄ hadd
  have h₄ : Laid all boot e (ps ++ [UserMem.stackVa]) m₄ := h₃.of_page (hrun₄ ▸ h₃.walk) (hdisk₄ ▸ h₃.inv) (by rw [hrun₄])
  obtain ⟨hfiled, hcontents⟩ := h₄.pfAddEnvPage (by decide) hadd
  have hstack : UserMem.stackVa ∈ ps ++ [UserMem.stackVa] := List.mem_append_right _ (List.mem_singleton_self _)
  have hin : ∀ q ∈ ps, q ∈ ps ++ [UserMem.stackVa] := fun q hq => List.mem_append_left _ hq
  have hwritten : Kept e ps m₁ m₂ := by
    refine ⟨fun q hq => hframe₂ q (hin q hq), fun q hq => ?_⟩
    rw [hdata₂, Function.update_of_ne fun heq => hnew q hq (hmapped.laid.apart q (hin q hq) _ hstack heq).symm]
  have hinserted : Kept e ps m₂ m₄ :=
    kept_of_page (by rw [hrun₄]; exact hpage₃) (hdata₄.trans hdata₃)
  refine ⟨hfiled.laid, ((hmapped.kept.trans hwritten).trans hinserted).trans (hfiled.kept.mono hin), fun k hk => ?_⟩
  have hdisk : m₄.disk = s.1.disk := hdisk₄.trans (hdisk₃.trans (hdisk₂.trans hmapped.disk))
  dsimp only
  rw [hcontents, hdisk]
  split
  · exact Function.update_of_ne hk.symm ..
  · rfl

omit [DecidableEq E] in
/-- The pages of `SecondList` and the array `prepagedVAs`; a working set in the lists has no array. -/
theorem Laid.finish {n : Nat} (h : Laid all boot e ps s.1) (hs : Loader.resetSecondList lists e s = some m)
    (hm : Loader.allocPrepagedVAs e m = some m') (hlength : (m.ws e).list.length = Loader.listed lists n) (hle : n ≤ 977919) :
    Kept e ps s.1 m' ∧ m'.disk = s.1.disk := by
  obtain ⟨⟨r, p⟩, hr, hm⟩ := Option.bind_eq_some_iff.mp hm
  obtain ⟨-, heq⟩ := Option.ite_none_left_eq_some.mp hm
  cases heq
  cases lists with
  | true =>
    obtain ⟨hframe, hdata, hdisk⟩ := clearBits_frames hs
    have hnil : (m.ws e).list = [] := List.eq_nil_of_length_eq_zero hlength
    rw [hnil] at hr
    cases hr
    exact ⟨⟨fun q _ => hframe e q, fun _ _ => congrFun hdata _⟩, hdisk⟩
  | false =>
    cases hs
    have hlength : (s.1.ws e).list.length = n := hlength
    rw [hlength, u32_of_lt (by omega)] at hr
    have hfiled := h.kmalloc (by omega) hr
    exact ⟨hfiled.kept, rfl⟩

/-! ### The segment in the end -/

namespace Segment

/-- The pages that are written are those of the segment, but the last one can be the page behind it. -/
theorem Below.fileAddresses_has (h : Below seg) (hfits : seg.Fits) {va : Nat} (hva : va ∈ seg.fileAddresses) :
    Has seg va ∨ va = seg.startLast ∧ va = roundUp (seg.virtualAddress + seg.sizeInMemory) pageSize := by
  obtain ⟨hfirst, hoffset, hend, -, hlast, -, hstop⟩ := h.layout hfits
  have hdown : roundDown seg.virtualAddress pageSize = seg.startFirst := rfl
  have hfit : seg.sizeInFile ≤ seg.sizeInMemory := hfits
  rcases List.mem_append.mp hva with hva | hva
  · left
    rcases List.mem_append.mp hva with hva | hva
    · split at hva
      case isTrue hoff =>
        rw [List.mem_singleton.mp hva, Has, hstop, hdown]
        omega
      case isFalse => exact absurd hva List.not_mem_nil
    · obtain ⟨j, hj, rfl⟩ := List.mem_map.mp hva
      have hj := List.mem_range.mp hj
      unfold fullPages at hj
      rw [Has, hstop, hdown]
      simp only [pageSize] at hj ⊢
      omega
  · rcases List.mem_cons.mp hva with rfl | hva
    · by_cases hin : seg.startLast < roundUp (seg.virtualAddress + seg.sizeInMemory) pageSize
      · left
        rw [Has, hdown]
        omega
      · right
        omega
    · exact .inl ((h.mem_zeroPages hfits).mp hva).2

omit [DecidableEq E] in
/-- A segment whose file does not end where the other one starts is not written over it. -/
theorem Below.fileAddresses_apart {seg' : Segment} {va p : Nat} (h : Below seg) (h' : Below seg') (hfits : seg'.Fits)
    (hapart : PagesApart seg seg') (hends : seg'.startLast ≠ seg.startFirst) (hva : va ∈ seg'.fileAddresses) (hp : Has seg p) :
    PageFile.key e va ≠ PageFile.key e p := by
  obtain ⟨-, htop⟩ := h.bounds
  intro heq
  have hlt := (h'.aligned hfits va hva)
  obtain rfl := (key_eq_iff hlt ⟨hp.1, hp.2.2.trans_le (htop.trans (by decide))⟩).mp heq
  rcases h'.fileAddresses_has hfits hva with hhas | ⟨hlast, hstop⟩
  · exact Has.not_samePage h h' hapart hp hhas ⟨rfl, rfl⟩
  · obtain ⟨-, hge, hlt⟩ := hp
    have hdown : roundDown seg.virtualAddress pageSize = seg.startFirst := rfl
    have hdown' : roundDown seg'.virtualAddress pageSize ≤ seg'.virtualAddress := Nat.sub_le ..
    obtain ⟨-, -, -, -, hlast', -, hstop'⟩ := h'.layout hfits
    have hfit : seg'.sizeInFile ≤ seg'.sizeInMemory := hfits
    rcases hapart with hapart | hapart <;> omega

end Segment

omit [DecidableEq E] in
/-- What the contents of a segment are read from has not changed. -/
theorem UserMem.hasSegment_congr {pages : List Nat} (hread : ∀ p, seg.Has p → m'.disk.pfReadEnvPage e p = m.disk.pfReadEnvPage e p)
    (hkept : Kept e pages m m') (hbelow : seg.Below) (hpages : ∀ p ∈ pages, seg.Has p) :
    m'.HasSegment e seg pages ↔ m.HasSegment e seg pages := by
  have hfile : ∀ j < seg.sizeInMemory,
      m'.disk.pfReadEnvPage e (seg.virtualAddress + j) = m.disk.pfReadEnvPage e (seg.virtualAddress + j) := by
    intro j hj
    rw [← pfRead_samePage (Trap.Kernel.samePage_roundDown _), hread _ ?_, pfRead_samePage (Trap.Kernel.samePage_roundDown _)]
    obtain ⟨hle, -⟩ := hbelow.bounds
    obtain ⟨hpage, hge, hlt⟩ := roundUp_page (n := seg.virtualAddress + seg.sizeInMemory) (by omega)
    unfold Segment.Has
    simp only [roundDown, pageSize] at *
    omega
  have hmemory : ∀ p ∈ pages, m'.data (m'.run.paging.page e p).frame = m.data (m.run.paging.page e p).frame := fun p hp => by
    rw [hkept.frame p hp, hkept.data p hp]
  constructor
  · intro h
    exact ⟨fun j hj => hfile j hj ▸ h.file j hj, fun p hp => by rw [← hread p (hpages p hp), ← hmemory p hp]; exact h.memory p hp⟩
  · intro h
    exact ⟨fun j hj => (hfile j hj).symm ▸ h.file j hj, fun p hp => by rw [hread p (hpages p hp), hmemory p hp]; exact h.memory p hp⟩

theorem mappedPages_cons : UserMem.mappedPages progName remaining (seg :: segs) = seg.prepaged progName remaining ++
    UserMem.mappedPages progName (remaining - (seg.prepaged progName remaining).length) segs := rfl

theorem mappedPages_append : UserMem.mappedPages progName remaining (pre ++ segs) = UserMem.mappedPages progName remaining pre ++
    UserMem.mappedPages progName (remaining - (UserMem.mappedPages progName remaining pre).length) segs := by
  induction pre generalizing remaining with
  | nil => rfl
  | cons seg pre ih =>
    rw [List.cons_append, mappedPages_cons, mappedPages_cons, ih, List.append_assoc, List.length_append, Nat.sub_sub]

/-- What comes behind the loop leaves the pages below the stack alone. -/
theorem Laid.envCreate {n secondListSize : Nat} {s₀ : UserMem E × LruLists} (hload : UserMem.Loadable segs)
    (h : Laid all boot e (UserMem.mappedPages progName (u32 (n + 4294967295)) segs) t.1)
    (ht : Loader.loadSegments lists e progName (Loader.start lists e s₀ n secondListSize) (u32 (n + 4294967295)) segs = some t)
    (hu : Loader.envCreate lists e s₀ n secondListSize progName segs = some u) :
    Kept e (UserMem.mappedPages progName (u32 (n + 4294967295)) segs) t.1 u.1 ∧
      ∀ k, PageFile.key e UserMem.stackVa ≠ k → u.1.disk.contents k = t.1.disk.contents k := by
  obtain ⟨w, wse, hloaded, -, hlength⟩ := Loader.envCreate_loaded hu
  have hle := mappedPages_le hload progName (u32 (n + 4294967295))
  obtain ⟨-, -, hstack⟩ := List.pairwise_append.mp (mappedPages_apart hload progName (u32 (n + 4294967295)))
  have hu : (Loader.loadSegments lists e progName (Loader.start lists e s₀ n secondListSize) (u32 (n + 4294967295)) segs).bind _ =
    some u := hu
  rw [ht, Option.bind_some] at hu
  obtain ⟨m₂, hs₂, hu⟩ := Option.bind_eq_some_iff.mp hu
  obtain ⟨⟨m₃, l₃⟩, hs₃, hu⟩ := Option.bind_eq_some_iff.mp hu
  obtain ⟨m₄, hs₄, hu⟩ := Option.bind_eq_some_iff.mp hu
  obtain ⟨m₅, hs₅, rfl⟩ := Option.map_eq_some_iff.mp hu
  obtain ⟨h₂, hkept₂, hdisk₂⟩ := h.clearModified hs₂
  obtain ⟨h₃, hkept₃, hcontents₃⟩ := Laid.mapStackPage (s := (m₂, t.2)) h₂
    (fun q hq hsame => hstack q hq _ (List.mem_singleton_self _) hsame.symm) hs₃
  have hws : (m₄.ws e).list = (m₅.ws e).list := by
    obtain ⟨⟨r, p⟩, -, hs₅⟩ := Option.bind_eq_some_iff.mp hs₅
    obtain ⟨-, heq⟩ := Option.ite_none_left_eq_some.mp hs₅
    cases heq
    rfl
  have hlist : (m₄.ws e).list.length = Loader.listed lists ((UserMem.mappedPages progName (u32 (n + 4294967295)) segs).length + 1) := by
    have hself := congrArg WorkingSet.list hloaded.ws
    rw [hws, hself]
    cases lists with
    | true => exact hlength
    | false =>
      show (w.list ++ [wse]).length = _
      rw [List.length_append, hlength]
      rfl
  obtain ⟨hkept₅, hdisk₅⟩ := Laid.finish (s := (m₃, l₃)) h₃ hs₄ hs₅ hlist (by omega)
  refine ⟨(hkept₂.trans hkept₃).trans (hkept₅.mono fun q hq => List.mem_append_left _ hq), fun k hk => ?_⟩
  dsimp only at hdisk₅ ⊢
  rw [hdisk₅, hcontents₃ k hk, hdisk₂]

section
variable {n secondListSize : Nat} {s₀ : UserMem E × LruLists}

/-- The pages of the segment come behind those of the segments before it. -/
theorem mappedPages_concat : UserMem.mappedPages progName (u32 (n + 4294967295)) (pre ++ [seg]) =
    UserMem.mappedPages progName (u32 (n + 4294967295)) pre ++ seg.prepaged progName (Loader.remainingAfter progName n pre) := by
  rw [mappedPages_append]
  exact congrArg _ (List.append_nil _)

theorem loadable_concat {P : Segment → Prop} (h : ∀ x ∈ pre ++ seg :: post, P x) :
    (∀ x ∈ pre, P x) ∧ P seg ∧ ∀ x ∈ post, P x :=
  ⟨fun x hx => h x (List.mem_append_left _ hx), h seg (List.mem_append_right _ (List.mem_cons_self ..)),
    fun x hx => h x (List.mem_append_right _ (List.mem_cons_of_mem _ hx))⟩

/-- The segments before it have mapped pages of their own. -/
theorem Fresh.segmentLoaded (hfresh : Fresh e s₀) (hwalk : s₀.1.run.WalkInv all boot) (hinv : s₀.1.disk.Inv)
    (hload : UserMem.Loadable (pre ++ seg :: post)) (hfits : ∀ x ∈ pre ++ seg :: post, x.Fits)
    (hs : Loader.loadSegments lists e progName (Loader.start lists e s₀ n secondListSize) (u32 (n + 4294967295)) pre = some s)
    (ht : Loader.loadSegments lists e progName (Loader.start lists e s₀ n secondListSize) (u32 (n + 4294967295)) (pre ++ [seg]) =
      some t) : SegmentLoaded all boot e (UserMem.mappedPages progName (u32 (n + 4294967295)) pre)
        (seg.prepaged progName (Loader.remainingAfter progName n pre)) seg s.1 t.1 := by
  obtain ⟨hpre, hseg, -⟩ := loadable_concat hload.1
  obtain ⟨hfitsPre, hfit, -⟩ := loadable_concat hfits
  obtain ⟨hpages, -⟩ := List.pairwise_append.mp (mappedPages_apart hload progName (u32 (n + 4294967295)))
  rw [List.append_cons, mappedPages_append, mappedPages_concat] at hpages
  have hprefix := (List.pairwise_append.mp hpages).1
  have hstart : Laid all boot e [] (Loader.start lists e s₀ n secondListSize).1 := hfresh.laid hwalk hinv
  obtain ⟨hlaid, -, -⟩ := hstart.loadSegments hpre hfitsPre (List.pairwise_append.mp hprefix).1 hs
  rw [Loader.loadSegments_append, hs, Option.bind_some] at ht
  obtain ⟨⟨⟨m₁, l₁⟩, k⟩, hs₁, ht⟩ := Option.bind_eq_some_iff.mp ht
  obtain ⟨m₂, hm₂, ht⟩ := Option.bind_eq_some_iff.mp ht
  cases ht
  exact hlaid.loadSegment hseg hfit hprefix hs₁ hm₂

/-- The segments behind it and the stack get other frames and other pages of the page file. -/
theorem SegmentLoaded.stays (h : SegmentLoaded all boot e (UserMem.mappedPages progName (u32 (n + 4294967295)) pre)
      (seg.prepaged progName (Loader.remainingAfter progName n pre)) seg m t.1)
    (hload : UserMem.Loadable (pre ++ seg :: post)) (hfits : ∀ x ∈ pre ++ seg :: post, x.Fits)
    (hends : ∀ x ∈ post, x.startLast ≠ seg.startFirst)
    (ht : Loader.loadSegments lists e progName (Loader.start lists e s₀ n secondListSize) (u32 (n + 4294967295)) (pre ++ [seg]) =
      some t) (hu : Loader.envCreate lists e s₀ n secondListSize progName (pre ++ seg :: post) = some u) :
    Kept e (seg.prepaged progName (Loader.remainingAfter progName n pre)) t.1 u.1 ∧
      ∀ p, seg.Has p → u.1.disk.pfReadEnvPage e p = t.1.disk.pfReadEnvPage e p := by
  obtain ⟨-, hseg, hpost⟩ := loadable_concat hload.1
  obtain ⟨-, -, hfitsPost⟩ := loadable_concat hfits
  obtain ⟨hpages, -⟩ := List.pairwise_append.mp (mappedPages_apart hload progName (u32 (n + 4294967295)))
  have hlaid := h.laid
  rw [← mappedPages_concat] at hlaid
  obtain ⟨v, hv, -⟩ := Option.bind_eq_some_iff.mp hu
  have hv' : Loader.loadSegments lists e progName (Loader.start lists e s₀ n secondListSize) (u32 (n + 4294967295))
    (pre ++ seg :: post) = some v := hv
  have hrest := hv'
  rw [List.append_cons, Loader.loadSegments_append, ht, Option.bind_some] at hrest
  rw [List.append_cons, mappedPages_append] at hpages
  obtain ⟨hlaid', hkept, hothers⟩ := hlaid.loadSegments hpost hfitsPost hpages hrest
  rw [← mappedPages_append, ← List.append_cons] at hlaid'
  obtain ⟨hkept', hothers'⟩ := hlaid'.envCreate hload hv' hu
  have hsub : ∀ q ∈ seg.prepaged progName (Loader.remainingAfter progName n pre),
      q ∈ UserMem.mappedPages progName (u32 (n + 4294967295)) (pre ++ [seg]) := fun q hq => by
    rw [mappedPages_concat]
    exact List.mem_append_right _ hq
  refine ⟨(hkept.mono hsub).trans (hkept'.mono fun q hq => ?_), fun p hp => ?_⟩
  · rw [List.append_cons, mappedPages_append]
    exact List.mem_append_left _ (hsub q hq)
  · rw [← PageFile.contents_key, ← PageFile.contents_key, hothers' _ fun heq => ?_, hothers _ fun x hx va hva => ?_]
    · have hapart := (List.pairwise_cons.mp (List.pairwise_append.mp hload.2).2.1).1 x hx
      exact hseg.fileAddresses_apart (hpost x hx) (hfitsPost x hx) hapart (hends x hx) hva hp
    · obtain ⟨hpdx, hptx⟩ := Prod.mk.inj (Prod.mk.inj heq).2
      exact Segment.Has.not_stack hseg hp ⟨hpdx.symm, hptx.symm⟩

/-- When `env_create` has loaded a segment, the page file has the bytes of the file followed by zeros, and the mapped pages have
    what is in the page file, if and only if the segment loads right in the state before it; and this is so until `env_create`
    returns, unless the file of a later segment ends where this one starts. -/
theorem segment_loaded_iff (hfresh : Fresh e s₀) (hwalk : s₀.1.run.WalkInv all boot) (hinv : s₀.1.disk.Inv)
    (hload : UserMem.Loadable (pre ++ seg :: post)) (hfits : ∀ x ∈ pre ++ seg :: post, x.Fits)
    (hs : Loader.loadSegments lists e progName (Loader.start lists e s₀ n secondListSize) (u32 (n + 4294967295)) pre = some s)
    (ht : Loader.loadSegments lists e progName (Loader.start lists e s₀ n secondListSize) (u32 (n + 4294967295)) (pre ++ [seg]) =
      some t) :
    (t.1.HasSegment e seg (seg.prepaged progName (Loader.remainingAfter progName n pre)) ↔
        seg.LoadsRight s.1 (seg.prepaged progName (Loader.remainingAfter progName n pre))) ∧
      ∀ u, Loader.envCreate lists e s₀ n secondListSize progName (pre ++ seg :: post) = some u →
        (∀ x ∈ post, x.startLast ≠ seg.startFirst) →
        (u.1.HasSegment e seg (seg.prepaged progName (Loader.remainingAfter progName n pre)) ↔
          t.1.HasSegment e seg (seg.prepaged progName (Loader.remainingAfter progName n pre))) := by
  obtain ⟨-, hseg, -⟩ := loadable_concat hload.1
  obtain ⟨-, hfit, -⟩ := loadable_concat hfits
  obtain ⟨hhas, -⟩ := Segment.prepaged_spec hseg progName (Loader.remainingAfter progName n pre)
  have hloaded := hfresh.segmentLoaded hwalk hinv hload hfits hs ht
  refine ⟨hloaded.wrote.hasSegment_iff hseg hfit hhas fun hne => ?_, fun u hu hends => ?_⟩
  · exact List.mem_of_mem_head? (seg.prepaged_head progName _ hseg hne)
  · obtain ⟨hkept, hread⟩ := hloaded.stays hload hfits hends ht hu
    exact UserMem.hasSegment_congr hread hkept hseg hhas

end

/-- The memory after the boot, with `byte` in all frames -/
def bootMemory (byte : UInt8) (r : PagingRun Unit) : UserMem Unit × LruLists :=
  ({ run := r, disk := ({} : PageFile Unit).initializeDiskPageFile, data := fun _ _ => byte }, {})

theorem bootMemory_fresh {byte : UInt8} {r : PagingRun Unit} (hboot : PagingRun.afterBoot Unit 1024 768 = some r) :
    Fresh () (bootMemory byte r) ∧ r.WalkInv (Frames.bootFree 1024 768) (Frames.bootReferences 768) ∧
      (({} : PageFile Unit).initializeDiskPageFile).Inv := by
  obtain ⟨-, hpde⟩ := PagingRun.boot_empty (by decide) (by decide) (by decide) hboot
  exact ⟨⟨⟨hpde (), rfl, rfl⟩, rfl, rfl, rfl⟩, PagingRun.WalkInv.reach (by decide) (by decide) (by decide) hboot .init,
    PageFile.inv_init fun _ => rfl⟩

/-- A segment that starts inside a page -/
def dataSegment : Segment := ⟨fun k => UInt8.ofNat k, 5000, 9000, 8405008⟩

/-- Its three pages are the rest of the first one, one with the end of the file and one of zeros; two of them are mapped, and
    another segment follows. -/
theorem segment_loaded_zeros : ∃ r t u, PagingRun.afterBoot Unit 1024 768 = some r ∧
    Loader.loadSegments false () "prog" (Loader.start false () (bootMemory 0 r) 3 0) 2 [dataSegment] = some t ∧
    Loader.envCreate false () (bootMemory 0 r) 3 0 "prog" [dataSegment, ⟨fun _ => 1, 10, 20, 8454144⟩] = some u ∧
    t.1.HasSegment () dataSegment [8404992, 8409088] ∧ u.1.HasSegment () dataSegment [8404992, 8409088] := by
  have hrun : ((PagingRun.afterBoot Unit 1024 768).bind fun r =>
      (Loader.loadSegments false () "prog" (Loader.start false () (bootMemory 0 r) 3 0) 2 [dataSegment]).bind fun _ =>
        (Loader.envCreate false () (bootMemory 0 r) 3 0 "prog" [dataSegment, ⟨fun _ => 1, 10, 20, 8454144⟩]).map fun _ => ()) =
          some () := by
    unfold bootMemory
    rw [PagingRun.afterBoot_eq, PageFile.initializeDiskPageFile_eq]
    decide +kernel
  obtain ⟨r, hboot, hrun⟩ := Option.bind_eq_some_iff.mp hrun
  obtain ⟨t, ht, hrun⟩ := Option.bind_eq_some_iff.mp hrun
  obtain ⟨u, hu, -⟩ := Option.map_eq_some_iff.mp hrun
  obtain ⟨hfresh, hwalk, hinv⟩ : Fresh () (bootMemory 0 r) ∧ _ ∧ _ := bootMemory_fresh hboot
  have hload : UserMem.Loadable ([] ++ dataSegment :: [⟨fun _ => 1, 10, 20, 8454144⟩]) := by
    refine ⟨fun x hx => ?_, .cons (fun x hx => ?_) (List.pairwise_singleton ..)⟩
    · rcases List.mem_cons.mp hx with rfl | hx
      · exact show (8405008 + 9000 : Nat) ≤ UserMem.stackVa by decide
      · rw [List.mem_singleton.mp hx]
        exact show (8454144 + 20 : Nat) ≤ UserMem.stackVa by decide
    · rw [List.mem_singleton.mp hx]
      exact .inl (show roundUp (8405008 + 9000) pageSize ≤ roundDown 8454144 pageSize by decide)
  have hfits : ∀ x ∈ [] ++ dataSegment :: [⟨fun _ => 1, 10, 20, 8454144⟩], x.Fits := by
    intro x hx
    rcases List.mem_cons.mp hx with rfl | hx
    · exact show (5000 : Nat) ≤ 9000 by decide
    · rw [List.mem_singleton.mp hx]
      exact show (10 : Nat) ≤ 20 by decide
  have ht' : Loader.loadSegments false () "prog" (Loader.start false () (bootMemory 0 r) 3 0) (u32 (3 + 4294967295))
    ([] ++ [dataSegment]) = some t := ht
  obtain ⟨hiff, hend⟩ := segment_loaded_iff hfresh hwalk hinv hload hfits rfl ht'
  have hpages : dataSegment.prepaged "prog" (Loader.remainingAfter "prog" 3 []) = [8404992, 8409088] := by decide
  rw [hpages] at hiff hend
  have hnot : ¬ dataSegment.Overwritten := by decide
  have hright : t.1.HasSegment () dataSegment [8404992, 8409088] :=
    hiff.mpr ⟨fun h => absurd h hnot, fun _ _ _ _ _ _ => (if_neg hnot).symm, fun _ _ _ _ => rfl⟩
  refine ⟨r, t, u, hboot, ht, hu, hright, (hend u hu fun x hx => ?_).mpr hright⟩
  rw [List.mem_singleton.mp hx]
  exact show (8454144 : Nat) ≠ 8404992 by decide

/-- The first segment ends in the page in which it starts, whose first byte in the page file is another byte of the program; the
    second one is longer, and its first page begins in memory with what was in the frame. -/
theorem segment_loaded_differs :
    (∃ r t, PagingRun.afterBoot Unit 1024 768 = some r ∧
      Loader.loadSegments false () "prog" (Loader.start false () (bootMemory 0 r) 10 0) 9
        [⟨fun k => if k < 32 then 1 else 0, 32, 64, 8388640⟩] = some t ∧
      (t.1.disk.pfReadEnvPage () 8388640).map (· (UserMem.pageOffset 8388640)) = some 0 ∧
      ¬ t.1.HasSegment () ⟨fun k => if k < 32 then 1 else 0, 32, 64, 8388640⟩ [8388608]) ∧
    ∃ r t, PagingRun.afterBoot Unit 1024 768 = some r ∧
      Loader.loadSegments false () "prog" (Loader.start false () (bootMemory 7 r) 10 0) 9
        [⟨fun _ => 1, 8000, 8000, 8388640⟩] = some t ∧
      (t.1.disk.pfReadEnvPage () 8388608).map (· 0) = some 0 ∧ t.1.data (t.1.run.paging.page () 8388608).frame 0 = 7 ∧
      ¬ t.1.HasSegment () ⟨fun _ => 1, 8000, 8000, 8388640⟩ [8388608, 8392704] := by
  constructor
  · have hrun : ((PagingRun.afterBoot Unit 1024 768).bind fun r =>
        (Loader.loadSegments false () "prog" (Loader.start false () (bootMemory 0 r) 10 0) 9
          [⟨fun k => if k < 32 then 1 else 0, 32, 64, 8388640⟩]).map fun t =>
            decide ((t.1.disk.pfReadEnvPage () 8388640).map (· (UserMem.pageOffset 8388640)) = some 0)) = some true := by
      unfold bootMemory
      rw [PagingRun.afterBoot_eq, PageFile.initializeDiskPageFile_eq]
      decide +kernel
    obtain ⟨r, hboot, hrun⟩ := Option.bind_eq_some_iff.mp hrun
    obtain ⟨t, ht, hbyte⟩ := Option.map_eq_some_iff.mp hrun
    have hbyte := of_decide_eq_true hbyte
    refine ⟨r, t, hboot, ht, hbyte, fun h => ?_⟩
    have hfile := hbyte.symm.trans (h.file 0 (show 0 < 64 by decide))
    exact absurd (Option.some.inj hfile) (by decide)
  · have hrun : ((PagingRun.afterBoot Unit 1024 768).bind fun r =>
        (Loader.loadSegments false () "prog" (Loader.start false () (bootMemory 7 r) 10 0) 9
          [⟨fun _ => 1, 8000, 8000, 8388640⟩]).map fun t =>
            decide ((t.1.disk.pfReadEnvPage () 8388608).map (· 0) = some 0 ∧
              t.1.data (t.1.run.paging.page () 8388608).frame 0 = 7)) = some true := by
      unfold bootMemory
      rw [PagingRun.afterBoot_eq, PageFile.initializeDiskPageFile_eq]
      decide +kernel
    obtain ⟨r, hboot, hrun⟩ := Option.bind_eq_some_iff.mp hrun
    obtain ⟨t, ht, hbytes⟩ := Option.map_eq_some_iff.mp hrun
    obtain ⟨hfile, hmemory⟩ := of_decide_eq_true hbytes
    refine ⟨r, t, hboot, ht, hfile, hmemory, fun h => ?_⟩
    rw [h.memory 8388608 (List.mem_cons_self ..), Option.map_some, hmemory] at hfile
    exact absurd (Option.some.inj hfile) (by decide)

end Fos.Mem
