import Fos.Proc.EnvInv

/-! The loader of `env_create` with all the memory that it takes: the directory and the tables of the page file are pages of
    the kernel heap here. Under `PG_REP_LRU_LISTS_APPROX` the elements of the pages are put into `ActiveList` and `SecondList`. -/

namespace Fos.Mem
open Lib Heap Disk

/-- `ActiveList` and `SecondList` of an environment, and how many elements they may have. -/
structure LruLists where
  activeList : List Nat := []
  secondList : List Nat := []
  activeListSize : Nat := 0
  secondListSize : Nat := 0

/-- An element is put at the head of `ActiveList` while that has fewer than `room` elements, and else of `SecondList`. -/
def LruLists.insertHead (l : LruLists) (room wse : Nat) : LruLists :=
  if l.activeList.length < room then { l with activeList := wse :: l.activeList }
  else { l with secondList := wse :: l.secondList }

def LruLists.setSizes (l : LruLists) (activeListSize secondListSize : Nat) : LruLists :=
  { l with activeListSize := activeListSize, secondListSize := secondListSize }

@[simp] theorem LruLists.setSizes_activeList (l : LruLists) (n k : Nat) : (l.setSizes n k).activeList = l.activeList := rfl

@[simp] theorem LruLists.setSizes_secondList (l : LruLists) (n k : Nat) : (l.setSizes n k).secondList = l.secondList := rfl

theorem LruLists.mem_insertHead (l : LruLists) (room wse : Nat) :
    wse ∈ (l.insertHead room wse).activeList ++ (l.insertHead room wse).secondList := by
  unfold LruLists.insertHead
  split
  · exact List.mem_append_left _ (List.mem_cons_self ..)
  · exact List.mem_append_right _ (List.mem_cons_self ..)

namespace UserMem

/-! ### The table working set -/

/-- `__TWS_MAX_SIZE` -/
def twsMaxSize : Nat := 50

/-- The pages of the segments that are mapped, in their order. -/
def mappedPages (progName : String) : Nat → List Segment → List Nat
  | _, [] => []
  | remaining, seg :: segs =>
    let pages := seg.prepaged progName remaining
    pages ++ mappedPages progName (remaining - pages.length) segs

/-- How often a page has another table than the one before it; `last` is `lastTableNumber`. -/
def newTables : Option (Fin 1024) → List Nat → Nat
  | _, [] => 0
  | last, va :: vas => (if last = some (pdx va) then 0 else 1) + newTables (some (pdx va)) vas

/-- `table_last_WS_index` does not come back to 0, at which the loader panics. -/
def TablesFit (progName : String) (pageWsSize : Nat) (segs : List Segment) : Prop :=
  newTables none (mappedPages progName (u32 (pageWsSize + 4294967295)) segs) < twsMaxSize

instance (progName : String) (pageWsSize : Nat) (segs : List Segment) : Decidable (TablesFit progName pageWsSize segs) :=
  inferInstanceAs (Decidable (_ < _))

variable {E : Type} [DecidableEq E]

/-! ### The page file -/

/-- `get_disk_page_directory(ptr_env, &(ptr_env->disk_env_pgdir))`. The callers ignore `E_NO_VM` and follow the null pointer. -/
def getDiskPageDirectory (s : UserMem E) (e : E) : Option (UserMem E) :=
  if (s.disk.pgdir e).isSome then some s
  else (s.run.kmalloc pageSize).bind fun (r, p) =>
    if p = 0 then none else some { s.setRun r with disk := s.disk.getDiskPageDirectory e }

/-- `get_disk_page_table(ptr_env->disk_env_pgdir, virtual_address, 1, &ptr_disk_page_table)`, with the same null pointer -/
def getDiskPageTable (s : UserMem E) (e : E) (va : Nat) : Option (UserMem E) :=
  if (s.disk.table e (pdx va)).isSome then some s
  else (s.run.kmalloc pageSize).bind fun (r, p) =>
    if p = 0 then none else some { s.setRun r with disk := (s.disk.getDiskPageTable e va true).1 }

/-- `pf_add_env_page(ptr_env, virtual_address, dataSrc)` -/
def pfAddEnvPage (s : UserMem E) (e : E) (va : Nat) (dataSrc : Page) : Option (UserMem E × PfResult) :=
  (s.getDiskPageDirectory e).bind fun s => (s.getDiskPageTable e va).bind fun s =>
    (s.disk.pfAddEnvPage e va dataSrc).map fun (disk, result) => ({ s with disk := disk }, result)

/-- The loader panics when there is no space. -/
def addProgramPage (e : E) (s : UserMem E) (page : Nat × Page) : Option (UserMem E) :=
  (s.pfAddEnvPage e page.1 page.2).bind fun
  | (s, .success) => some s
  | (_, .noPageFileSpace) => none

end UserMem

/-- The pages that steps 7.2 to 7.5 of `env_create` write to the page file, with what is written; `zero` is at
    `ptr_zero_page`. -/
def Segment.filePages (seg : Segment) (zero : Page) : List (Nat × Page) :=
  (if seg.offset ≠ 0 then [(seg.startFirst, seg.firstPage)] else []) ++
    (List.range seg.fullPages).map (fun j => (seg.endFirst + j * pageSize, seg.fullPage j)) ++
    (seg.startLast, seg.lastPage) :: seg.zeroPages.map (·, zero)

/-! ### The loader

`lists` says that the algorithm is `PG_REP_LRU_LISTS_APPROX`. A null pointer that is followed ends in the fault handler, which
panics since no process runs; both are `none`. -/

namespace Loader

variable {E : Type} [DecidableEq E]

/-- `allocate_frame` and `loadtime_map_frame` -/
def mapNewFrame (e : E) (s : UserMem E) (va : Nat) : Option (UserMem E) :=
  s.run.allocateFrame.bind fun (r, f) =>
    (r.paging.loadtimeMapFrame e f va (permUser ||| permWriteable)).map fun p =>
      s.setRun { r with paging := p, handed := r.handed.erase f }

/-- The element of a page of a segment. One place of `ActiveList` is left for the stack. -/
def insertElement (lists : Bool) (e : E) (s : UserMem E × LruLists) (wse : Nat) : UserMem E × LruLists :=
  let w := s.1.ws e
  if lists then
    (s.1.setWs e { w with last := if w.list.length = w.maxSize then w.list.head? else none },
      s.2.insertHead (u32 (s.2.activeListSize + 4294967295)) wse)
  else (s.1.setWs e (w.insertLoaded wse), s.2)

/-- The element of the page of the stack, which is in `page_WS_list` when `page_last_WS_element` is set. -/
def insertStackElement (lists : Bool) (e : E) (s : UserMem E × LruLists) (wse : Nat) : UserMem E × LruLists :=
  let w := s.1.ws e
  if lists then (s.1.setWs e { w.insertLoaded wse with list := w.list }, s.2.insertHead s.2.activeListSize wse)
  else (s.1.setWs e (w.insertLoaded wse), s.2)

/-- One round of the loop that maps the pages of a segment. -/
def mapSegmentPage (lists : Bool) (e : E) (s : UserMem E × LruLists) (va : Nat) : Option (UserMem E × LruLists) :=
  (mapNewFrame e s.1 va).bind fun m => (m.createElement e va).map fun (m, wse) => insertElement lists e (m, s.2) wse

/-- `program_segment_alloc_map_copy_workingset(e, seg, allocated_pages, remaining_ws_pages, lastTableNumber)` -/
def programSegmentAllocMapCopyWorkingset (lists : Bool) (e : E) (s : UserMem E × LruLists) (progName : String) (seg : Segment)
    (remaining : Nat) : Option ((UserMem E × LruLists) × Nat) :=
  let pages := seg.prepaged progName remaining
  (exec (mapSegmentPage lists e) s pages).bind fun (m, l) =>
    (exec (fun m va => m.writeUserPage e va (seg.copied va)) m pages).map fun m => ((m, l), pages.length)

/-- Steps 7.2 to 7.5 of `env_create`. -/
def writeSegment (e : E) (m : UserMem E) (seg : Segment) : Option (UserMem E) :=
  exec (UserMem.addProgramPage e) m (seg.filePages m.disk.zeroPage)

/-- Step 7 of `env_create`. -/
def loadSegments (lists : Bool) (e : E) (progName : String) :
    UserMem E × LruLists → Nat → List Segment → Option (UserMem E × LruLists)
  | s, _, [] => some s
  | s, remaining, seg :: segs =>
    (programSegmentAllocMapCopyWorkingset lists e s progName seg remaining).bind fun ((m, l), allocated) =>
      (writeSegment e m seg).bind fun m => loadSegments lists e progName (m, l) (remaining - allocated) segs

/-- Step 10 of `env_create`; what `pf_add_empty_env_page` returns is ignored. -/
def mapStackPage (lists : Bool) (e : E) (s : UserMem E × LruLists) : Option (UserMem E × LruLists) :=
  (mapNewFrame e s.1 UserMem.stackVa).bind fun m =>
    (m.writeUserPage e UserMem.stackVa fun _ _ => 0).bind fun m =>
      (m.createElement e UserMem.stackVa).bind fun (m, wse) =>
        let s := insertStackElement lists e (m, s.2) wse
        (s.1.pfAddEnvPage e UserMem.stackVa s.1.disk.zeroPage).map fun (m, _) => (m, s.2)

/-- The pages of `SecondList` lose their present bits. -/
def resetSecondList (lists : Bool) (e : E) (s : UserMem E × LruLists) : Option (UserMem E) :=
  if lists then exec (fun m wse => m.clearPermissions e (m.elementVa e wse) permPresent) s.1 s.2.secondList else some s.1

/-- The array `prepagedVAs`, which is not written when `page_WS_list` is empty. -/
def allocPrepagedVAs (e : E) (m : UserMem E) : Option (UserMem E) :=
  (m.run.kmalloc (u32 (4 * (m.ws e).list.length))).bind fun (r, p) =>
    if p = 0 ∧ (m.ws e).list ≠ [] then none else some (m.setRun r)

/-- `env_create(user_program_name, page_WS_size, LRU_second_list_size, ..)` from `initialize_environment` on, for a program
    with the segments `segs` -/
def envCreate (lists : Bool) (e : E) (s : UserMem E × LruLists) (pageWsSize secondListSize : Nat) (progName : String)
    (segs : List Segment) : Option (UserMem E × LruLists) :=
  let l := if lists then s.2.setSizes (u32 (pageWsSize + 4294967296 - secondListSize)) secondListSize else s.2
  (loadSegments lists e progName (s.1.initializeEnvironment e pageWsSize, l) (u32 (pageWsSize + 4294967295)) segs).bind
    fun (m, l) =>
      (exec (fun m wse => m.clearPermissions e (m.elementVa e wse) permModified) m (m.ws e).list).bind fun m =>
        (mapStackPage lists e (m, l)).bind fun (m, l) =>
          (resetSecondList lists e (m, l)).bind fun m => (allocPrepagedVAs e m).map (·, l)

end Loader

/-! ### The working set that is left -/

namespace UserMem

variable {E : Type} [DecidableEq E] {s t : UserMem E} {e : E} {va wse n : Nat}

/-- The working set of `e` has its size, and an element for the page of the stack among `elements`. -/
structure Stacked (m : UserMem E) (e : E) (pageWsSize : Nat) (elements : List Nat) : Prop where
  maxSize : (m.ws e).maxSize = pageWsSize
  stack : ∃ wse ∈ elements, m.elementVa e wse = stackVa

theorem createElement_ws (hs : s.createElement e va = some (t, wse)) :
    t.ws = Function.update s.ws e ((s.ws e).setElement wse { virtualAddress := roundDown va pageSize }) := by
  obtain ⟨-, hs⟩ := Option.ite_none_right_eq_some.mp hs
  obtain ⟨⟨r, x⟩, -, hs⟩ := Option.bind_eq_some_iff.mp hs
  obtain ⟨-, heq⟩ := Option.ite_none_left_eq_some.mp hs
  cases heq
  rfl

theorem initializeEnvironment_self (s : UserMem E) (e : E) (n : Nat) :
    (s.initializeEnvironment e n).ws e = { s.ws e with list := [], maxSize := n } := by
  unfold initializeEnvironment
  dsimp only
  rw [Function.update_self]

theorem createElement_self (hs : s.createElement e va = some (t, wse)) :
    t.ws e = (s.ws e).setElement wse { virtualAddress := roundDown va pageSize } := by
  rw [createElement_ws hs, Function.update_self]

/-- The new element is that of the page. -/
theorem createElement_va (hs : s.createElement e va = some (t, wse)) : t.elementVa e wse = roundDown va pageSize := by
  unfold elementVa
  rw [createElement_self hs, WorkingSet.setElement]
  dsimp only
  rw [Function.update_self]

theorem createElement_kept (hs : s.createElement e va = some (t, wse)) :
    (t.ws e).list = (s.ws e).list ∧ (t.ws e).maxSize = (s.ws e).maxSize := by
  rw [createElement_self hs]
  exact ⟨rfl, rfl⟩

theorem getDiskPageDirectory_ws (hs : s.getDiskPageDirectory e = some t) : t.ws = s.ws := by
  unfold getDiskPageDirectory at hs
  split at hs
  · cases hs
    rfl
  · obtain ⟨r, -, hs⟩ := Option.bind_eq_some_iff.mp hs
    obtain ⟨-, heq⟩ := Option.ite_none_left_eq_some.mp hs
    cases heq
    rfl

theorem getDiskPageTable_ws (hs : s.getDiskPageTable e va = some t) : t.ws = s.ws := by
  unfold getDiskPageTable at hs
  split at hs
  · cases hs
    rfl
  · obtain ⟨r, -, hs⟩ := Option.bind_eq_some_iff.mp hs
    obtain ⟨-, heq⟩ := Option.ite_none_left_eq_some.mp hs
    cases heq
    rfl

theorem pfAddEnvPage_ws {page : Page} {r : UserMem E × PfResult} (hs : s.pfAddEnvPage e va page = some r) : r.1.ws = s.ws := by
  obtain ⟨s₁, hs₁, hs⟩ := Option.bind_eq_some_iff.mp hs
  obtain ⟨s₂, hs₂, hs⟩ := Option.bind_eq_some_iff.mp hs
  obtain ⟨x, -, rfl⟩ := Option.map_eq_some_iff.mp hs
  exact (getDiskPageTable_ws hs₂).trans (getDiskPageDirectory_ws hs₁)

theorem addProgramPage_ws {page : Nat × Page} (hs : addProgramPage e s page = some t) : t.ws = s.ws := by
  obtain ⟨⟨u, r⟩, hu, hs⟩ := Option.bind_eq_some_iff.mp hs
  cases r with
  | success =>
    cases hs
    exact pfAddEnvPage_ws hu
  | noPageFileSpace => exact absurd hs.symm (Option.some_ne_none t)

end UserMem

namespace Loader

open UserMem

variable {E : Type} [DecidableEq E] {m m' : UserMem E} {s t : UserMem E × LruLists} {lists : Bool} {e : E} {va wse n : Nat}
  {progName : String} {segs : List Segment}

/-- How many elements of `n` pages are put into `page_WS_list`. -/
def listed (lists : Bool) (n : Nat) : Nat := if lists then 0 else n

theorem mapNewFrame_ws (hs : mapNewFrame e m va = some m') : m'.ws = m.ws := by
  obtain ⟨⟨r, f⟩, -, hs⟩ := Option.bind_eq_some_iff.mp hs
  obtain ⟨p, -, rfl⟩ := Option.map_eq_some_iff.mp hs
  rfl

theorem insertElement_ws (lists : Bool) (e : E) (s : UserMem E × LruLists) (wse : Nat) :
    ((insertElement lists e s wse).1.ws e).maxSize = (s.1.ws e).maxSize ∧
      ((insertElement lists e s wse).1.ws e).list.length = (s.1.ws e).list.length + listed lists 1 := by
  cases lists with
  | true =>
    show ((s.1.setWs e _).ws e).maxSize = _ ∧ ((s.1.setWs e _).ws e).list.length = _
    rw [setWs_self]
    exact ⟨rfl, rfl⟩
  | false =>
    show ((s.1.setWs e _).ws e).maxSize = _ ∧ ((s.1.setWs e _).ws e).list.length = _
    rw [setWs_self]
    exact ⟨rfl, List.length_append⟩

theorem mapSegmentPage_ws (hs : mapSegmentPage lists e s va = some t) : (t.1.ws e).maxSize = (s.1.ws e).maxSize ∧
    (t.1.ws e).list.length = (s.1.ws e).list.length + listed lists 1 := by
  obtain ⟨m, hm, hs⟩ := Option.bind_eq_some_iff.mp hs
  obtain ⟨⟨m', wse⟩, hm', rfl⟩ := Option.map_eq_some_iff.mp hs
  obtain ⟨hlist, hmax⟩ := createElement_kept hm'
  obtain ⟨hmax', hlength⟩ := insertElement_ws lists e (m', s.2) wse
  rw [mapNewFrame_ws hm] at hlist hmax
  rw [hmax', hlength, hlist, hmax]
  exact ⟨rfl, rfl⟩

/-- The pages of a segment have one element each. -/
theorem mapSegmentPages_ws {pages : List Nat} (hs : exec (mapSegmentPage lists e) s pages = some t) :
    (t.1.ws e).maxSize = (s.1.ws e).maxSize ∧
      (t.1.ws e).list.length = (s.1.ws e).list.length + listed lists pages.length := by
  induction pages generalizing s with
  | nil =>
    cases hs
    refine ⟨rfl, ?_⟩
    cases lists <;> rfl
  | cons va pages ih =>
    obtain ⟨u, hu, hs⟩ := exec_cons.mp hs
    obtain ⟨hmax, hlength⟩ := ih hs
    obtain ⟨hmax', hlength'⟩ := mapSegmentPage_ws hu
    refine ⟨hmax.trans hmax', ?_⟩
    rw [hlength, hlength', List.length_cons]
    unfold listed
    split <;> omega

theorem writeSegment_ws {seg : Segment} (hs : writeSegment e m seg = some m') : m'.ws = m.ws :=
  exec_ws (fun _ _ _ hs => addProgramPage_ws hs) hs

/-- The segments get one element for each page that is mapped. -/
theorem loadSegments_ws (hs : loadSegments lists e progName s n segs = some t) : (t.1.ws e).maxSize = (s.1.ws e).maxSize ∧
    (t.1.ws e).list.length = (s.1.ws e).list.length + listed lists (mappedPages progName n segs).length := by
  induction segs generalizing s n with
  | nil =>
    cases hs
    refine ⟨rfl, ?_⟩
    cases lists <;> rfl
  | cons seg segs ih =>
    obtain ⟨⟨⟨m, l⟩, k⟩, hm, hs⟩ := Option.bind_eq_some_iff.mp hs
    obtain ⟨m₂, hm₂, hs⟩ := Option.bind_eq_some_iff.mp hs
    obtain ⟨⟨m₁, l₁⟩, hmap, hm⟩ := Option.bind_eq_some_iff.mp hm
    obtain ⟨m', hcopy, heq⟩ := Option.map_eq_some_iff.mp hm
    cases heq
    obtain ⟨hmax, hlength⟩ := mapSegmentPages_ws hmap
    obtain ⟨hmax', hlength'⟩ := ih hs
    have hsame : m₂.ws = m₁.ws := (writeSegment_ws hm₂).trans (exec_ws (fun _ _ _ hs => writeUserPage_ws hs) hcopy)
    dsimp only at hmax' hlength' hmax hlength
    rw [hsame] at hmax' hlength'
    refine ⟨hmax'.trans hmax, ?_⟩
    rw [hlength', hlength, mappedPages, List.length_append]
    unfold listed
    split <;> omega

theorem mappedPages_length (progName : String) (n : Nat) (segs : List Segment) : (mappedPages progName n segs).length ≤ n := by
  induction segs generalizing n with
  | nil => exact Nat.zero_le n
  | cons seg segs ih =>
    have hle := Segment.prepaged_length seg progName n
    have hrest := ih (n - (seg.prepaged progName n).length)
    rw [mappedPages, List.length_append]
    omega

/-- The element of the stack is there; it is the last of `page_WS_list`, or it was taken out of it again. -/
structure StackLoaded (lists : Bool) (e : E) (w : WorkingSet) (wse : Nat) (t : UserMem E × LruLists) : Prop where
  ws : t.1.ws e = if lists then { w.insertLoaded wse with list := w.list } else w.insertLoaded wse
  element : (w.element wse).virtualAddress = stackVa
  listed : wse ∈ if lists then t.2.activeList ++ t.2.secondList else (t.1.ws e).list

theorem mapStackPage_loaded (hs : mapStackPage lists e s = some t) : ∃ w wse, StackLoaded lists e w wse t ∧
    w.list = (s.1.ws e).list ∧ w.maxSize = (s.1.ws e).maxSize := by
  obtain ⟨m₁, hm₁, hs⟩ := Option.bind_eq_some_iff.mp hs
  obtain ⟨m₂, hm₂, hs⟩ := Option.bind_eq_some_iff.mp hs
  obtain ⟨⟨m₃, wse⟩, hm₃, hs⟩ := Option.bind_eq_some_iff.mp hs
  obtain ⟨⟨m₄, r⟩, hm₄, rfl⟩ := Option.map_eq_some_iff.mp hs
  obtain ⟨hlist, hmax⟩ := createElement_kept hm₃
  have hva := (createElement_va hm₃).trans (show roundDown stackVa pageSize = stackVa by decide)
  rw [writeUserPage_ws hm₂, mapNewFrame_ws hm₁] at hlist hmax
  have hws : m₄.ws = (insertStackElement lists e (m₃, s.2) wse).1.ws := pfAddEnvPage_ws hm₄
  refine ⟨m₃.ws e, wse, ⟨?_, hva, ?_⟩, hlist, hmax⟩
  · show m₄.ws e = _
    rw [hws]
    cases lists with
    | true => exact setWs_self ..
    | false => exact setWs_self ..
  · cases lists with
    | true => exact LruLists.mem_insertHead s.2 s.2.activeListSize wse
    | false =>
      show wse ∈ (m₄.ws e).list
      rw [hws]
      show wse ∈ ((m₃.setWs e _).ws e).list
      rw [setWs_self]
      exact List.mem_append_right _ (List.mem_singleton_self _)

omit [DecidableEq E] in
theorem resetSecondList_ws (hs : resetSecondList lists e s = some m) : m.ws = s.1.ws := by
  unfold resetSecondList at hs
  split at hs
  · exact exec_ws (fun _ _ _ hs => clearPermissions_ws hs) hs
  · cases hs
    rfl

/-- The page of the stack is loaded last. -/
theorem envCreate_loaded {secondListSize : Nat} (hs : envCreate lists e s n secondListSize progName segs = some t) :
    ∃ w wse, StackLoaded lists e w wse t ∧ w.maxSize = n ∧
      w.list.length = listed lists (mappedPages progName (u32 (n + 4294967295)) segs).length := by
  obtain ⟨⟨m₁, l₁⟩, hs₁, hs⟩ := Option.bind_eq_some_iff.mp hs
  obtain ⟨m₂, hs₂, hs⟩ := Option.bind_eq_some_iff.mp hs
  obtain ⟨⟨m₃, l₃⟩, hs₃, hs⟩ := Option.bind_eq_some_iff.mp hs
  obtain ⟨m₄, hs₄, hs⟩ := Option.bind_eq_some_iff.mp hs
  obtain ⟨m₅, hs₅, rfl⟩ := Option.map_eq_some_iff.mp hs
  obtain ⟨⟨r, p⟩, -, hs₅⟩ := Option.bind_eq_some_iff.mp hs₅
  obtain ⟨-, heq⟩ := Option.ite_none_left_eq_some.mp hs₅
  cases heq
  obtain ⟨hmax, hlength⟩ := loadSegments_ws hs₁
  have hcleared : m₂.ws = m₁.ws := exec_ws (fun _ _ _ hs => clearPermissions_ws hs) hs₂
  obtain ⟨w, wse, hloaded, hlist, hmax'⟩ := mapStackPage_loaded hs₃
  have hreset : m₄.ws = m₃.ws := resetSecondList_ws hs₄
  dsimp only at hmax hlength hlist hmax'
  rw [initializeEnvironment_self] at hmax hlength
  rw [hcleared] at hlist hmax'
  have hsame : (m₄.setRun r).ws e = m₃.ws e := congrFun hreset e
  refine ⟨w, wse, ⟨hsame.trans hloaded.ws, hloaded.element, ?_⟩, hmax'.trans hmax, ?_⟩
  · have hmem := hloaded.listed
    show wse ∈ if lists then l₃.activeList ++ l₃.secondList else ((m₄.setRun r).ws e).list
    rw [hsame]
    exact hmem
  · rw [hlist, hlength]
    exact Nat.zero_add _

end Loader

end Fos.Mem
