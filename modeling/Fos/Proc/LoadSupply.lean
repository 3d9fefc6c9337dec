import Fos.Heap.Stock
import Fos.Proc.LoadCells
import Fos.Proc.LoadProgram
import Fos.Trap.FreeRequest

/-! What `env_create` takes of the memory for a program: the requests follow from the arguments and the segments alone, and the
    loader goes through exactly when they can be served in turn from what is left. -/

namespace Fos.Mem
open Lib Heap Disk Frames

/-! ### Requests -/

inductive Request where
  /-- `allocate_frame` -/
  | frame
  /-- `kmalloc(size)`, which must not return null -/
  | heap (size : Nat)
  /-- The page table of an address, unless the environment has it. -/
  | table (va : Nat)
  /-- The disk page directory, unless the environment has it. -/
  | diskDirectory
  /-- The disk page table of an address, unless the environment has it. -/
  | diskTable (va : Nat)
  /-- A disk frame for the page of an address, unless it has one. -/
  | diskPage (va : Nat)
  deriving DecidableEq, Repr

/-- The disk frames that are left, and what the new environment has in the page file. -/
structure FileSupply where
  frames : Nat
  directory : Bool := false
  tables : Finset (Fin 1024) := ∅
  pages : Finset (Fin 1024 × Fin 1024) := ∅

/-- What is left of the memory and of the disk, and what the new environment has of it. -/
structure Supply where
  stock : Stock
  tables : Finset (Fin 1024) := ∅
  file : FileSupply

namespace Supply

/-- A page of the kernel heap, unless it is there. -/
def pageUnless (there : Prop) [Decidable there] (st : Stock) : Option Stock := if there then some st else st.kmalloc pageSize

/-- A request is served, or there is too little left for it. -/
def serve (p : Supply) : Request → Option Supply
  | .frame => p.stock.allocateFrame.map ({ p with stock := · })
  | .heap size => (p.stock.kmalloc size).map ({ p with stock := · })
  | .table va =>
    (pageUnless (pdx va ∈ p.tables) p.stock).map ({ p with stock := ·, tables := insert (pdx va) p.tables })
  | .diskDirectory =>
    (pageUnless p.file.directory p.stock).map ({ p with stock := ·, file := { p.file with directory := true } })
  | .diskTable va =>
    (pageUnless (pdx va ∈ p.file.tables) p.stock).map
      ({ p with stock := ·, file := { p.file with tables := insert (pdx va) p.file.tables } })
  | .diskPage va =>
    if (pdx va, ptx va) ∈ p.file.pages then some p
    else if 0 < p.file.frames then
      some { p with file := { p.file with frames := p.file.frames - 1, pages := insert (pdx va, ptx va) p.file.pages } }
    else none

/-- The requests can be served one after the other. -/
def Serves (p : Supply) (rs : List Request) : Prop := (exec serve p rs).isSome

instance instDecidableServes (p : Supply) (rs : List Request) : Decidable (p.Serves rs) := inferInstanceAs (Decidable (_ = true))

end Supply

/-- A page that is mapped gets a frame, a page table and an element of the working set. -/
def pageRequests (va : Nat) : List Request := [.frame, .table va, .heap sizeofWorkingSetElement]

/-- The tables that a page needs in the page file. -/
def diskTableRequests (va : Nat) : List Request := [.diskDirectory, .diskTable va]

def fileRequests (va : Nat) : List Request := diskTableRequests va ++ [.diskPage va]

/-- The addresses of the pages that are written to the page file. -/
def Segment.fileAddresses (seg : Segment) : List Nat :=
  (if seg.offset ≠ 0 then [seg.startFirst] else []) ++
    (List.range seg.fullPages).map (fun j => seg.endFirst + j * pageSize) ++ seg.startLast :: seg.zeroPages

/-- Step 7 -/
def segmentRequests (progName : String) : Nat → List Segment → List Request
  | _, [] => []
  | remaining, seg :: segs =>
    let pages := seg.prepaged progName remaining
    pages.flatMap pageRequests ++ seg.fileAddresses.flatMap fileRequests ++
      segmentRequests progName (remaining - pages.length) segs

/-- The array `prepagedVAs` has an entry for each page of `page_WS_list`. -/
def prepagedRequests (lists : Bool) (pages : Nat) : List Request := if lists then [] else [.heap (u32 (4 * pages))]

/-- What is requested from `initialize_environment` on. The page of the stack need not get a disk frame. -/
def programRequests (lists : Bool) (pageWsSize : Nat) (progName : String) (segs : List Segment) : List Request :=
  let remaining := u32 (pageWsSize + 4294967295)
  segmentRequests progName remaining segs ++ (pageRequests UserMem.stackVa ++ diskTableRequests UserMem.stackVa) ++
    prepagedRequests lists ((UserMem.mappedPages progName remaining segs).length + 1)

/-! ### The stock -/

namespace Paging

variable {D : Type} [DecidableEq D] {all : List PageNo} {boot : PageNo → Nat} {handed : List PageNo} {live tables : List Nat}
  {s : Paging D} {st : Stock} {dir : D} {va : Nat}

/-- A new page table is a page of the kernel heap. -/
theorem Inv.createPageTable_stock (hi : Inv all boot handed live tables s) (hst : s.heap.Stocked st) :
    Option.Rel (fun x st' => x.1.heap.Stocked st' ∧ ∀ i, x.1.pde dir i ≠ none ↔ i = pdx va ∨ s.pde dir i ≠ none)
      (s.createPageTable dir va) (st.kmalloc pageSize) := by
  obtain ⟨F, lost, howned⟩ := hi.owned
  obtain ⟨L, hinv, -⟩ := id howned
  unfold Paging.createPageTable
  refine (bind_unless (p := fun x : KHeap × Nat => x.2 = 0) (s.heap.kmalloc pageSize) _).symm ▸ ?_
  refine rel_bind_left (hst.kmalloc hinv (by decide)) fun x st' hx hst' => ?_
  obtain ⟨h, ptr⟩ := x
  obtain ⟨hk, hptr⟩ := unless_eq_some.mp hx
  obtain ⟨lost', hdone⟩ := howned.kmalloc (by decide) hk
  obtain ⟨-, -, hframe⟩ := hdone.page (by decide) hptr
  obtain ⟨t, ht⟩ := Option.ne_none_iff_exists'.mp hframe
  refine ⟨_, congrArg (Option.map _) ht, ⟨hst'.pool.congr rfl rfl, hst'.space.regions, hst'.space.room⟩, fun i => ?_⟩
  show Function.update s.pde dir (Function.update (s.pde dir) (pdx va) (some t)) dir i ≠ none ↔ _
  rw [@pde_update D _ dir s.pde dir (pdx va) i (some t)]
  split
  case isTrue heq => exact iff_of_true (Option.some_ne_none t) (.inl heq.2)
  case isFalse hne => exact (or_iff_right fun heq => hne ⟨rfl, heq⟩).symm

end Paging

namespace PagingRun

variable {D : Type} [DecidableEq D] {all : List PageNo} {boot : PageNo → Nat} {r : PagingRun D} {st : Stock} {size : Nat}

omit [DecidableEq D] in
theorem WalkInv.kmalloc_stock (h : r.WalkInv all boot) (hst : r.paging.heap.Stocked st) (hpos : 0 < size) :
    Option.Rel (fun x st' => x.1.paging.heap.Stocked st' ∧ x.1.paging.pde = r.paging.pde)
      ((r.kmalloc size).bind fun x => if x.2 = 0 then none else some x) (st.kmalloc size) := by
  obtain ⟨⟨tables, hi⟩, -⟩ := h
  obtain ⟨F, lost, L, hinv, -⟩ := hi.owned
  unfold PagingRun.kmalloc
  rw [Option.bind_map]
  refine (bind_unless (p := fun x : KHeap × Nat => x.2 = 0) (r.paging.heap.kmalloc size) _).symm ▸ ?_
  exact rel_bind_left (hst.kmalloc hinv hpos) fun x st' _ hst' => ⟨_, rfl, hst', rfl⟩

omit [DecidableEq D] in
theorem WalkInv.allocateFrame_stock (h : r.WalkInv all boot) (hst : r.paging.heap.Stocked st) :
    Option.Rel (fun x st' => x.1.paging.heap.Stocked st' ∧ x.1.paging.pde = r.paging.pde) r.allocateFrame st.allocateFrame := by
  obtain ⟨⟨tables, hi⟩, -⟩ := h
  obtain ⟨F, ha⟩ := hi.accounts
  unfold PagingRun.allocateFrame Paging.allocateFrame Stock.allocateFrame
  rw [Option.map_map]
  exact rel_map (hst.pool.allocateFrame ha) fun _ _ _ hpool => ⟨⟨hpool, hst.space.regions, hst.space.room⟩, rfl⟩

/-- `loadtime_map_frame` fails only when it needs a table. -/
theorem WalkInv.loadtimeMapFrame_stock (h : r.WalkInv all boot) (hst : r.paging.heap.Stocked st) (dir : D) (f : PageNo) (va : Nat)
    (perm : BitVec 12) :
    Option.Rel (fun q st' => q.heap.Stocked st' ∧ ∀ i, q.pde dir i ≠ none ↔ i = pdx va ∨ r.paging.pde dir i ≠ none)
      (r.paging.loadtimeMapFrame dir f va perm) (Supply.pageUnless (r.paging.pde dir (pdx va) ≠ none) st) := by
  obtain ⟨⟨tables, hi⟩, hl⟩ := h
  unfold Paging.loadtimeMapFrame Supply.pageUnless
  rw [hi.getPageTable_eq hl, Option.bind_some]
  cases ht : r.paging.pde dir (pdx va) with
  | some t =>
    rw [if_pos (Option.some_ne_none t)]
    refine .some ⟨hst.congr rfl rfl rfl rfl, fun i => ⟨.inr, ?_⟩⟩
    rintro (rfl | hi)
    · exact ne_of_eq_of_ne ht (Option.some_ne_none t)
    · exact hi
  | none =>
    rw [if_neg (not_not_intro rfl)]
    exact rel_map_left (hi.createPageTable_stock hst) fun x st' _ hx =>
      ⟨hx.1.congr rfl rfl rfl rfl, hx.2⟩

end PagingRun

namespace Paging

variable {D : Type} {all : List PageNo} {boot : PageNo → Nat} {handed : List PageNo} {live tables : List Nat} {s s' : Paging D}
  {dir : D} {va : Nat}

/-- A page with a table has its permission bits changed. -/
theorem ptSetPagePermissions_found {table : PageNo} (h : s.getPageTable dir va = some (.inMemory table)) (toSet toClear : BitVec 12) :
    ∃ s', s.ptSetPagePermissions dir va toSet toClear = some s' ∧ s'.getPageTable = s.getPageTable := by
  unfold Paging.ptSetPagePermissions
  rw [h]
  exact ⟨_, rfl, getPageTable_writeEntry ..⟩

end Paging

/-! ### The page file -/

/-- What is left of the page file and what `e` has of it. -/
structure FileSupplied {E : Type} (e : E) (d : PageFile E) (p : FileSupply) : Prop where
  inv : d.Inv
  frames : ∃ F, (d.diskFreeFrameList.Spells fun _ => F) ∧ F.length = p.frames
  directory : (d.pgdir e).isSome = p.directory
  tables : ∀ i, i ∈ p.tables ↔ d.table e i ≠ none
  pages : ∀ i j, (i, j) ∈ p.pages ↔ d.hold (e, i, j) ≠ none

section
variable {E : Type} [DecidableEq E] {e : E} {d d' : PageFile E} {p : FileSupply} {va : Nat}

theorem FileSupplied.getDiskPageDirectory (h : FileSupplied e d p) :
    FileSupplied e (d.getDiskPageDirectory e) { p with directory := true } := by
  obtain ⟨htable, hdir, hfree, -⟩ := PageFile.getDiskPageDirectory_spec d e
  exact ⟨h.inv.getDiskPageDirectory, hfree ▸ h.frames, hdir, htable ▸ h.tables, PageFile.hold_of_table htable ▸ h.pages⟩

/-- The directory is there, and an empty table is made. -/
theorem getDiskPageTable_made (hi : d.Inv) (hva : va < userTop) (hdir : (d.pgdir e).isSome) (hnone : d.table e (pdx va) = none) :
    (d.getDiskPageTable e va true).1 = d.setTable e (pdx va) (some fun _ => 0) ∧ (d.getDiskPageTable e va true).1.Inv ∧
      (d.getDiskPageTable e va true).1.hold = d.hold := by
  have hset := PageFile.table_setTable (i := pdx va) (.inr hdir) (some fun _ => 0)
  have hmade : (d.getDiskPageTable e va true).1 = d.setTable e (pdx va) (some fun _ => 0) := by
    simp only [PageFile.getDiskPageTable, hnone, if_true]
  have hhold : (d.setTable e (pdx va) (some fun _ => 0)).hold = d.hold := by
    funext x
    obtain ⟨e', i, j⟩ := x
    by_cases hx : e' = e ∧ i = pdx va
    · obtain ⟨rfl, rfl⟩ := hx
      simp [PageFile.hold, hset, hnone]
    · simp only [PageFile.hold, hset, if_neg hx]
  obtain ⟨F, hF, hled⟩ := hi.ledger
  rw [hmade]
  refine ⟨rfl, ⟨⟨F, hF, hhold ▸ hled⟩, fun e' i hle => ?_⟩, hhold⟩
  rw [hset, if_neg]
  · exact hi.below e' i hle
  · rintro ⟨-, rfl⟩
    exact PageFile.pdx_lt hva hle

theorem FileSupplied.getDiskPageTable (h : FileSupplied e d p) (hva : va < userTop) (hdir : (d.pgdir e).isSome)
    (hnone : d.table e (pdx va) = none) :
    FileSupplied e (d.getDiskPageTable e va true).1 { p with tables := insert (pdx va) p.tables } := by
  have hset := PageFile.table_setTable (i := pdx va) (.inr hdir) (some fun _ => 0)
  obtain ⟨hmade, hinv, hhold⟩ := getDiskPageTable_made h.inv hva hdir hnone
  rw [hmade] at hinv hhold ⊢
  refine ⟨hinv, h.frames, ?_, fun i => ?_, hhold ▸ h.pages⟩
  · rw [← h.directory]
    show (Function.update d.pgdir e _ e).isSome = _
    rw [Function.update_self, Option.isSome_map]
  · rw [hset, Finset.mem_insert, h.tables]
    by_cases hi : i = pdx va
    · rw [if_pos ⟨rfl, hi⟩]
      exact iff_of_true (.inl hi) (Option.some_ne_none _)
    · rw [if_neg fun hx => hi hx.2]
      exact or_iff_right hi

/-- With its table there, a page changes no directory and no other table. -/
theorem diskFrameOf_tables {r : Option Nat} (ht : d.table e (pdx va) ≠ none) (hs : d.diskFrameOf e va = some (d', r)) :
    (d'.pgdir e).isSome = (d.pgdir e).isSome ∧ ∀ i, d'.table e i ≠ none ↔ d.table e i ≠ none := by
  obtain ⟨t, ht⟩ := Option.ne_none_iff_exists'.mp ht
  obtain ⟨dir, hdir, -⟩ := Option.bind_eq_some_iff.mp ht
  have hopen : (d.getDiskPageDirectory e).getDiskPageTable e va true = (d, some t) := by
    simp only [PageFile.getDiskPageDirectory, hdir, PageFile.getDiskPageTable, ht]
  unfold PageFile.diskFrameOf at hs
  obtain ⟨-, hs⟩ := Option.ite_none_right_eq_some.mp hs
  rw [hopen] at hs
  dsimp only at hs
  split at hs
  · cases halloc : d.allocateDiskFrame with
    | none =>
      rw [halloc] at hs
      cases hs
      exact ⟨rfl, fun _ => Iff.rfl⟩
    | some q =>
      obtain ⟨d₁, dfn⟩ := q
      rw [halloc] at hs
      cases hs
      obtain ⟨f, -, heq⟩ := Option.map_eq_some_iff.mp halloc
      cases heq
      refine ⟨?_, fun i => ?_⟩
      · show (Function.update d.pgdir e _ e).isSome = _
        rw [Function.update_self, Option.isSome_map]
      · rw [PageFile.table_setTable (.inr (by rw [hdir]; rfl))]
        split
        case isTrue hx =>
          rw [hx.2, ht]
          exact iff_of_true (Option.some_ne_none _) (Option.some_ne_none _)
        case isFalse => exact Iff.rfl
  · cases hs
    exact ⟨rfl, fun _ => Iff.rfl⟩

omit [DecidableEq E] in
theorem FileSupplied.length {F : List Nat} (h : FileSupplied e d p) (hF : d.diskFreeFrameList.Spells fun _ => F) :
    F.length = p.frames := by
  obtain ⟨F', hF', hlen⟩ := h.frames
  rw [hF.toThreads.unique hF'.toThreads ()]
  exact hlen

omit [DecidableEq E] in
/-- Every page has the disk frame that it had. -/
theorem FileSupplied.kept (h : FileSupplied e d p) (hinv : d'.Inv) (hhold : d'.hold = d.hold)
    (hdir : (d'.pgdir e).isSome = (d.pgdir e).isSome) (htables : ∀ i, d'.table e i ≠ none ↔ d.table e i ≠ none) :
    FileSupplied e d' p := by
  obtain ⟨F, hF, hled⟩ := h.inv.ledger
  obtain ⟨F', hF', hled'⟩ := hinv.ledger
  rw [hhold] at hled'
  have hperm : F'.Perm F := (List.perm_ext_iff_of_nodup hled'.nodup hled.nodup).mpr fun q => by
    rw [hled'.mem_free_iff, hled.mem_free_iff]
  exact ⟨hinv, ⟨F', hF', hperm.length_eq.trans (h.length hF)⟩, hdir.trans h.directory, fun i => (h.tables i).trans (htables i).symm,
    hhold ▸ h.pages⟩

/-- A page without a disk frame has got one. -/
theorem FileSupplied.added {dfn : Nat} (h : FileSupplied e d p) (hinv : d'.Inv)
    (hhold : d'.hold = Function.update d.hold (e, pdx va, ptx va) (some dfn)) (hwas : d.hold (e, pdx va, ptx va) = none)
    (hdir : (d'.pgdir e).isSome = (d.pgdir e).isSome) (htables : ∀ i, d'.table e i ≠ none ↔ d.table e i ≠ none) :
    0 < p.frames ∧ FileSupplied e d' { p with frames := p.frames - 1, pages := insert (pdx va, ptx va) p.pages } := by
  obtain ⟨F, hF, hled⟩ := h.inv.ledger
  obtain ⟨F', hF', hled'⟩ := hinv.ledger
  have htaken := (hled.taken (hhold ▸ hled') hwas).length_eq
  rw [List.length_cons, h.length hF] at htaken
  refine ⟨by omega, hinv, ⟨F', hF', ?_⟩, hdir.trans h.directory, fun i => (h.tables i).trans (htables i).symm, fun i j => ?_⟩
  · show F'.length = p.frames - 1
    omega
  · rw [hhold, Finset.mem_insert, h.pages, Prod.mk.injEq]
    by_cases hx : i = pdx va ∧ j = ptx va
    · obtain ⟨rfl, rfl⟩ := hx
      rw [Function.update_self]
      exact iff_of_true (.inl ⟨rfl, rfl⟩) (Option.some_ne_none dfn)
    · rw [Function.update_of_ne fun heq => hx (by cases heq; exact ⟨rfl, rfl⟩)]
      exact or_iff_right hx

omit [DecidableEq E] in
theorem FileSupplied.writeDiskPage (h : FileSupplied e d p) (dfn : Nat) (page : Page) : FileSupplied e (d.writeDiskPage dfn page) p :=
  ⟨h.inv.writeDiskPage, h.frames, h.directory, h.tables, h.pages⟩

/-- A page that is written to the page file takes a disk frame, unless it has one. -/
theorem FileSupplied.pfAddEnvPage (h : FileSupplied e d p) (hva : va < userTop) (ht : d.table e (pdx va) ≠ none) (page : Page) :
    ∃ d' r, d.pfAddEnvPage e va page = some (d', r) ∧
      ((pdx va, ptx va) ∈ p.pages ∧ r = .success ∧ FileSupplied e d' p ∨
        (pdx va, ptx va) ∉ p.pages ∧ 0 < p.frames ∧ r = .success ∧
          FileSupplied e d' { p with frames := p.frames - 1, pages := insert (pdx va, ptx va) p.pages } ∨
        (pdx va, ptx va) ∉ p.pages ∧ ¬ 0 < p.frames ∧ r = .noPageFileSpace) := by
  have hbase : va < kernelBase := lt_trans hva (by decide)
  obtain ⟨⟨d₁, r⟩, hd₁⟩ := Option.isSome_iff_exists.mp (PageFile.diskFrameOf_isSome d e hbase)
  obtain ⟨hdir, htables⟩ := diskFrameOf_tables ht hd₁
  obtain ⟨hinv, -, hcases⟩ := h.inv.diskFrameOf hva hd₁
  have hpage := h.pages (pdx va) (ptx va)
  rcases hcases with ⟨dfn, rfl, hhold, hwas | hwas⟩ | ⟨rfl, -, -⟩
  · obtain ⟨hpos, hadded⟩ := h.added hinv hhold hwas hdir htables
    exact ⟨_, _, congrArg (Option.map _) hd₁, .inr (.inl ⟨fun hin => hpage.mp hin hwas, hpos, rfl, hadded.writeDiskPage dfn page⟩)⟩
  · have hsame : d₁.hold = d.hold := by rw [hhold, ← hwas, Function.update_eq_self]
    exact ⟨_, _, congrArg (Option.map _) hd₁, .inl ⟨hpage.mpr (ne_of_eq_of_ne hwas (Option.some_ne_none dfn)), rfl,
      (h.kept hinv hsame hdir htables).writeDiskPage dfn page⟩⟩
  · obtain ⟨hwas, hempty⟩ := (PageFile.diskFrameOf_none_iff hd₁).mp rfl
    obtain ⟨F, hF, hlen⟩ := h.frames
    rw [hF.first (), List.head?_eq_none_iff] at hempty
    rw [hempty, List.length_nil] at hlen
    exact ⟨_, _, congrArg (Option.map _) hd₁, .inr (.inr ⟨fun hin => hpage.mp hin hwas, by omega, rfl⟩)⟩

end

/-! ### The loader -/

section
variable {E : Type} [DecidableEq E]

/-- The pages `ps` of `e` are mapped, and no others, and `st` is left of the memory. -/
structure RunSupplied (all : List PageNo) (boot : PageNo → Nat) (e : E) (ps : List Nat) (r : PagingRun E) (st : Stock)
    (tables : Finset (Fin 1024)) : Prop where
  walk : r.WalkInv all boot
  present : ∀ q ∈ ps, (r.paging.page e q).present
  empty : ∀ q, (∀ x ∈ ps, ¬ Paging.SamePage q x) → r.paging.page e q = {}
  stock : r.paging.heap.Stocked st
  tables : ∀ i, i ∈ tables ↔ r.paging.pde e i ≠ none

/-- Between two steps of the loader: `p` is left. -/
structure Supplied (all : List PageNo) (boot : PageNo → Nat) (e : E) (ps : List Nat) (m : UserMem E) (p : Supply) : Prop where
  run : RunSupplied all boot e ps m.run p.stock p.tables
  file : FileSupplied e m.disk p.file

variable {all : List PageNo} {boot : PageNo → Nat} {e : E} {ps : List Nat} {r : PagingRun E} {st : Stock}
  {tables : Finset (Fin 1024)} {m : UserMem E} {p : Supply} {va size : Nat}

omit [DecidableEq E] in
theorem RunSupplied.kmalloc (h : RunSupplied all boot e ps r st tables) (hpos : 0 < size) (hsize : size ≤ 4294963200) :
    Option.Rel (fun x st' => RunSupplied all boot e ps x.1 st' tables)
      ((r.kmalloc size).bind fun x => if x.2 = 0 then none else some x) (st.kmalloc size) := by
  refine rel_imp (h.walk.kmalloc_stock h.stock hpos) fun x st' hx _ hst' => ?_
  obtain ⟨hwalk, hpage, -⟩ := h.walk.kmalloc hsize (unless_eq_some.mp hx).1
  exact ⟨hwalk, hpage ▸ h.present, hpage ▸ h.empty, hst'.1, hst'.2 ▸ h.tables⟩

omit [DecidableEq E] in
/-- The permission bits of a mapped page can be changed. -/
theorem RunSupplied.ptSetPagePermissions (h : RunSupplied all boot e ps r st tables) (hva : va ∈ ps) (toSet toClear : BitVec 12)
    (hset : toSet.getLsbD 0 = false ∧ toSet.getLsbD 9 = false) (hclear : toClear.getLsbD 0 = false) :
    ∃ r', r.ptSetPagePermissions e va toSet toClear = some r' ∧ RunSupplied all boot e ps r' st tables := by
  have hpresent := h.present va hva
  obtain ⟨⟨tables', hi⟩, hl⟩ := id h.walk
  have htable : r.paging.pde e (pdx va) ≠ none := UserMem.pde_of_present (s := { run := r, disk := {} }) hpresent
  have hsome : r.paging.ptSetPagePermissions e va toSet toClear ≠ none := (hi.ptSetPagePermissions_iff hl).mpr htable
  obtain ⟨q, hq⟩ := Option.ne_none_iff_exists'.mp hsome
  have hr' : r.ptSetPagePermissions e va toSet toClear = some { r with paging := q } := congrArg (Option.map _) hq
  obtain ⟨hwalk, hwrites, -⟩ := h.walk.ptSetPagePermissions hset hclear hr'
  refine ⟨_, hr', hwalk, fun x hx => ?_, fun x hx => ?_, ?_, ?_⟩
  · by_cases hsame : Paging.SamePage x va
    · show (q.page e x).present
      rw [Paging.page_samePage hsame, hwrites.self, present_iff, BitVec.getLsbD_and, BitVec.getLsbD_or, BitVec.getLsbD_not,
        hset.1, hclear, ← present_iff]
      simpa using hpresent
    · show (q.page e x).present
      rw [hwrites.others e x fun heq => hsame heq.2]
      exact h.present x hx
  · show q.page e x = {}
    rw [hwrites.others e x fun heq => hx va hva heq.2]
    exact h.empty x hx
  · obtain ⟨x, -, hq⟩ := Option.bind_eq_some_iff.mp hq
    cases x with
    | inMemory table =>
      cases hq
      exact h.stock.congr rfl rfl rfl rfl
    | notExist => exact absurd hq.symm (Option.some_ne_none q)
    | null => exact absurd hq.symm (Option.some_ne_none q)
  · show ∀ i, i ∈ tables ↔ q.pde e i ≠ none
    rw [Paging.ptSetPagePermissions_pde hq]
    exact h.tables

/-- A new frame is mapped at a page that is not mapped. -/
theorem Supplied.mapNewFrame (h : Supplied all boot e ps m p) (hnew : ∀ q ∈ ps, ¬ Paging.SamePage va q) :
    Option.Rel (Supplied all boot e (ps ++ [va])) (Loader.mapNewFrame e m va) (exec Supply.serve p [.frame, .table va]) := by
  have hserve : exec Supply.serve p [.frame, .table va] = p.stock.allocateFrame.bind fun st =>
      (Supply.pageUnless (m.run.paging.pde e (pdx va) ≠ none) st).map
        ({ p with stock := ·, tables := insert (pdx va) p.tables }) := by
    show (Option.map _ _).bind _ = _
    rw [Option.bind_map]
    refine Option.bind_congr fun st _ => (exec_single _ _ _).trans ?_
    simp only [Supply.serve, h.run.tables]
  rw [hserve]
  refine rel_bind (h.run.walk.allocateFrame_stock h.run.stock) fun x st' hx hst' => ?_
  obtain ⟨r, f⟩ := x
  obtain ⟨hwalk, hpage, -⟩ := h.run.walk.allocateFrame hx
  have hrel := hwalk.loadtimeMapFrame_stock hst'.1 e f va (permUser ||| permWriteable)
  rw [hst'.2] at hrel
  refine rel_map hrel fun q st'' hq hst'' => ?_
  have hempty := h.run.empty va hnew
  obtain ⟨hwalk', -, hwrites, -⟩ := UserMem.loadtime_spec h.run.walk hempty (by decide) hx hq
  refine ⟨⟨hwalk', fun x hx => ?_, fun x hx => ?_, hst''.1, fun i => ?_⟩, h.file⟩
  · by_cases hsame : Paging.SamePage x va
    · show (q.page e x).present
      rw [Paging.page_samePage hsame, hwrites.self]
      exact UserMem.loadtime_present f
    · have hx : x ∈ ps := (List.mem_append.mp hx).resolve_right fun hx => hsame (List.mem_singleton.mp hx ▸ ⟨rfl, rfl⟩)
      show (q.page e x).present
      rw [hwrites.others e x fun heq => hsame heq.2]
      exact h.run.present x hx
  · show q.page e x = {}
    rw [hwrites.others e x fun heq => hx va (List.mem_append_right _ (List.mem_singleton_self _)) heq.2]
    exact h.run.empty x fun y hy => hx y (List.mem_append_left _ hy)
  · show i ∈ insert (pdx va) p.tables ↔ q.pde e i ≠ none
    rw [Finset.mem_insert, hst''.2, h.run.tables]

/-! #### The page file -/

/-- The directory in the page file is a page of the kernel heap. -/
theorem Supplied.getDiskPageDirectory (h : Supplied all boot e ps m p) :
    Option.Rel (fun m' p' => Supplied all boot e ps m' p' ∧ (m'.disk.pgdir e).isSome) (m.getDiskPageDirectory e)
      (p.serve .diskDirectory) := by
  have hdir := h.file.directory
  unfold UserMem.getDiskPageDirectory Supply.serve Supply.pageUnless
  rw [← hdir]
  split
  case isTrue hsome =>
    refine .some ⟨⟨h.run, ?_⟩, hsome⟩
    show FileSupplied e m.disk { p.file with directory := true }
    rw [← hsome, hdir]
    exact h.file
  case isFalse =>
    rw [map_unless (p := fun x : PagingRun E × Nat => x.2 = 0)]
    exact rel_map (h.run.kmalloc (by decide) (by decide)) fun x st' _ hrun =>
      ⟨⟨hrun, h.file.getDiskPageDirectory⟩, (PageFile.getDiskPageDirectory_spec m.disk e).2.1⟩

theorem Supplied.getDiskPageTable (h : Supplied all boot e ps m p) (hva : va < userTop) (hdir : (m.disk.pgdir e).isSome) :
    Option.Rel (fun m' p' => Supplied all boot e ps m' p' ∧ m'.disk.table e (pdx va) ≠ none) (m.getDiskPageTable e va)
      (p.serve (.diskTable va)) := by
  have htable := h.file.tables (pdx va)
  rw [← Option.isSome_iff_ne_none] at htable
  unfold UserMem.getDiskPageTable Supply.serve Supply.pageUnless
  simp only [← htable]
  split
  case isTrue hin =>
    refine .some ⟨⟨h.run, ?_⟩, (h.file.tables _).mp hin⟩
    show FileSupplied e m.disk { p.file with tables := insert (pdx va) p.file.tables }
    rw [Finset.insert_eq_of_mem hin]
    exact h.file
  case isFalse hnot =>
    have hnone := not_not.mp (mt (h.file.tables _).mpr hnot)
    have hmade := h.file.getDiskPageTable hva hdir hnone
    rw [map_unless (p := fun x : PagingRun E × Nat => x.2 = 0)]
    exact rel_map (h.run.kmalloc (by decide) (by decide)) fun x st' _ hrun =>
      ⟨⟨hrun, hmade⟩, (hmade.tables _).mp (Finset.mem_insert_self ..)⟩

/-- The directory and the table are there for a page. -/
theorem Supplied.openTable (h : Supplied all boot e ps m p) (hva : va < userTop) :
    Option.Rel (fun m' p' => Supplied all boot e ps m' p' ∧ m'.disk.table e (pdx va) ≠ none)
      ((m.getDiskPageDirectory e).bind (·.getDiskPageTable e va)) (exec Supply.serve p (diskTableRequests va)) := by
  refine rel_bind h.getDiskPageDirectory fun m' p' _ h' => ?_
  rw [exec_single]
  exact h'.1.getDiskPageTable hva h'.2

theorem pfAddEnvPage_eq (m : UserMem E) (e : E) (va : Nat) (page : Page) : m.pfAddEnvPage e va page =
    ((m.getDiskPageDirectory e).bind (·.getDiskPageTable e va)).bind fun m =>
      (m.disk.pfAddEnvPage e va page).map fun r => ({ m with disk := r.1 }, r.2) :=
  (Option.bind_assoc ..).symm

/-- A page is added to the page file. -/
theorem Supplied.addProgramPage {page : Nat × Page} (h : Supplied all boot e ps m p) (hva : page.1 < userTop) :
    Option.Rel (Supplied all boot e ps) (UserMem.addProgramPage e m page) (exec Supply.serve p (fileRequests page.1)) := by
  unfold fileRequests UserMem.addProgramPage
  rw [exec_append, pfAddEnvPage_eq, Option.bind_assoc]
  refine rel_bind (h.openTable hva) fun m' p' _ h' => ?_
  obtain ⟨d, r, hd, hcases⟩ := h'.1.file.pfAddEnvPage hva h'.2 page.2
  rw [hd, exec_single]
  rcases hcases with ⟨hin, rfl, hfile⟩ | ⟨hnot, hpos, rfl, hfile⟩ | ⟨hnot, hzero, rfl⟩
  · simp only [Supply.serve, if_pos hin]
    exact .some ⟨h'.1.run, hfile⟩
  · simp only [Supply.serve, if_neg hnot, if_pos hpos]
    exact .some ⟨h'.1.run, hfile⟩
  · simp only [Supply.serve, if_neg hnot, if_neg hzero]
    exact .none

/-! #### The elements -/

/-- The elements of `e` are for pages of `ps`. -/
def Elements (e : E) (ps : List Nat) (s : UserMem E × LruLists) : Prop :=
  ∀ x ∈ (s.1.ws e).list ++ (s.2.activeList ++ s.2.secondList), s.1.elementVa e x ∈ ps

/-- `Supplied`, with the elements -/
structure Filled (all : List PageNo) (boot : PageNo → Nat) (e : E) (ps : List Nat) (s : UserMem E × LruLists) (p : Supply) :
    Prop where
  supplied : Supplied all boot e ps s.1 p
  elements : Elements e ps s

variable {m' : UserMem E} {s : UserMem E × LruLists} {l : LruLists} {lists : Bool} {wse remaining : Nat} {qs : List Nat}
  {progName : String} {seg : Segment} {segs : List Segment}

omit [DecidableEq E] in
theorem Elements.congr (h : Elements e ps (m, l)) (hws : m'.ws = m.ws) : Elements e ps (m', l) := by
  unfold Elements UserMem.elementVa at h ⊢
  dsimp only at h ⊢
  rw [hws]
  exact h

/-- A new element is for the page. -/
theorem Elements.createElement (h : Elements e ps (m, l)) (halign : va % 4096 = 0) (hs : m.createElement e va = some (m', wse)) :
    Elements e (ps ++ [va]) (m', l) ∧ m'.elementVa e wse ∈ ps ++ [va] := by
  have hself := UserMem.createElement_self hs
  have hva : ∀ x, m'.elementVa e x = if x = wse then va else m.elementVa e x := by
    intro x
    have hround : roundDown va pageSize = va := by
      simp only [roundDown, pageSize]
      omega
    unfold UserMem.elementVa
    rw [hself, UserMem.setElement_va, hround]
  have hnew : va ∈ ps ++ [va] := List.mem_append_right _ (List.mem_singleton_self _)
  refine ⟨fun x hx => ?_, by rw [hva, if_pos rfl]; exact hnew⟩
  rw [hva]
  split
  · exact hnew
  · refine List.mem_append_left _ (h x ?_)
    have hlist : (m'.ws e).list = (m.ws e).list := by rw [hself]; rfl
    exact hlist ▸ hx

/-- An element is put into one of the lists. -/
theorem Elements.insert {w : WorkingSet} {l' : LruLists} (h : Elements e ps (m, l)) (hwse : m.elementVa e wse ∈ ps)
    (helement : w.element = (m.ws e).element)
    (hin : ∀ x ∈ w.list ++ (l'.activeList ++ l'.secondList), x = wse ∨ x ∈ (m.ws e).list ++ (l.activeList ++ l.secondList)) :
    Elements e ps (m.setWs e w, l') := by
  intro x hx
  dsimp only at hx
  rw [UserMem.setWs_self] at hx
  have hva : (m.setWs e w).elementVa e x = m.elementVa e x := by
    unfold UserMem.elementVa
    rw [UserMem.setWs_self, helement]
  dsimp only
  rw [hva]
  rcases hin x hx with rfl | hx
  · exact hwse
  · exact h x hx

theorem LruLists.of_mem_insertHead {room x : Nat}
    (hx : x ∈ (l.insertHead room wse).activeList ++ (l.insertHead room wse).secondList) :
    x = wse ∨ x ∈ l.activeList ++ l.secondList := by
  unfold LruLists.insertHead at hx
  split at hx
  · exact (List.mem_cons.mp hx)
  · dsimp only at hx
    rw [List.mem_append, List.mem_cons] at hx
    rw [List.mem_append]
    rcases hx with hx | rfl | hx
    · exact .inr (.inl hx)
    · exact .inl rfl
    · exact .inr (.inr hx)

theorem Elements.insertElement (h : Elements e ps (m, l)) (hwse : m.elementVa e wse ∈ ps) (lists : Bool) :
    Elements e ps (Loader.insertElement lists e (m, l) wse) := by
  cases lists with
  | true =>
    refine h.insert hwse rfl fun x hx => ?_
    rcases List.mem_append.mp hx with hx | hx
    · exact .inr (List.mem_append_left _ hx)
    · exact (LruLists.of_mem_insertHead hx).imp_right (List.mem_append_right _)
  | false =>
    refine h.insert hwse rfl fun x hx => ?_
    rcases List.mem_append.mp hx with hx | hx
    · rcases List.mem_append.mp hx with hx | hx
      · exact .inr (List.mem_append_left _ hx)
      · exact .inl (List.mem_singleton.mp hx)
    · exact .inr (List.mem_append_right _ hx)

theorem Elements.insertStackElement (h : Elements e ps (m, l)) (hwse : m.elementVa e wse ∈ ps) (lists : Bool) :
    Elements e ps (Loader.insertStackElement lists e (m, l) wse) := by
  cases lists with
  | true =>
    refine h.insert hwse rfl fun x hx => ?_
    rcases List.mem_append.mp hx with hx | hx
    · exact .inr (List.mem_append_left _ hx)
    · exact (LruLists.of_mem_insertHead hx).imp_right (List.mem_append_right _)
  | false => exact h.insertElement hwse false

theorem Supplied.createElement (h : Supplied all boot e ps m p) (hva : va < userTop) :
    Option.Rel (fun x p' => Supplied all boot e ps x.1 p') (m.createElement e va)
      (exec Supply.serve p [.heap sizeofWorkingSetElement]) := by
  unfold UserMem.createElement
  rw [if_pos hva, exec_single, map_unless (p := fun x : PagingRun E × Nat => x.2 = 0)]
  exact rel_map (h.run.kmalloc (by decide) (by decide)) fun x st' _ hrun => ⟨hrun, h.file⟩

theorem Supplied.insertElement (h : Supplied all boot e ps m p) (lists : Bool) (l : LruLists) (wse : Nat) :
    Supplied all boot e ps (Loader.insertElement lists e (m, l) wse).1 p := by
  cases lists with
  | true => exact ⟨h.run, h.file⟩
  | false => exact ⟨h.run, h.file⟩

/-! #### The segments -/

/-- A page of a segment gets a frame and an element. -/
theorem Filled.mapSegmentPage (h : Filled all boot e ps s p) (halign : va % 4096 = 0) (hva : va < userTop)
    (hnew : ∀ q ∈ ps, ¬ Paging.SamePage va q) :
    Option.Rel (Filled all boot e (ps ++ [va])) (Loader.mapSegmentPage lists e s va) (exec Supply.serve p (pageRequests va)) := by
  unfold Loader.mapSegmentPage
  rw [show pageRequests va = [.frame, .table va] ++ [.heap sizeofWorkingSetElement] from rfl, exec_append]
  refine rel_bind (h.supplied.mapNewFrame hnew) fun m p₁ hm h₁ => rel_map_left (h₁.createElement hva) fun x p₂ hx h₂ => ?_
  obtain ⟨m', wse⟩ := x
  obtain ⟨helements, hwse⟩ := (h.elements.congr (Loader.mapNewFrame_ws hm)).createElement halign hx
  exact ⟨h₂.insertElement lists s.2 wse, helements.insertElement hwse lists⟩

theorem Filled.mapSegmentPages (h : Filled all boot e ps s p) (halign : ∀ q ∈ qs, q % 4096 = 0 ∧ q < userTop)
    (hapart : Apart (ps ++ qs)) :
    Option.Rel (Filled all boot e (ps ++ qs)) (exec (Loader.mapSegmentPage lists e) s qs)
      (exec Supply.serve p (qs.flatMap pageRequests)) := by
  induction qs generalizing s p ps with
  | nil =>
    rw [List.append_nil]
    exact .some h
  | cons q qs ih =>
    obtain ⟨hq, hlt⟩ := halign q (List.mem_cons_self ..)
    have hnew : ∀ x ∈ ps, ¬ Paging.SamePage q x := fun x hx hsame =>
      (List.pairwise_append.mp hapart).2.2 x hx q (List.mem_cons_self ..) hsame.symm
    rw [List.append_cons] at hapart ⊢
    rw [List.flatMap_cons, exec_append]
    exact rel_bind (h.mapSegmentPage hq hlt hnew) fun s' p' _ h' => ih h' (fun x hx => halign x (List.mem_cons_of_mem _ hx)) hapart

omit [DecidableEq E] in
/-- The bytes of pages that are mapped can be written. -/
theorem Supplied.copyPages (h : Supplied all boot e ps m p) (hqs : ∀ q ∈ qs, q ∈ ps) (content : Nat → Page → Page) :
    ∃ m', exec (fun m va => m.writeUserPage e va (content va)) m qs = some m' ∧ Supplied all boot e ps m' p := by
  refine exec_total (I := fun m => Supplied all boot e ps m p) h fun m q h hq => ?_
  obtain ⟨r, hr, hrun⟩ := h.run.ptSetPagePermissions (hqs q hq) (permUsed ||| permModified) 0 ⟨by decide, by decide⟩ (by decide)
  refine ⟨_, (if_pos (h.run.present q (hqs q hq))).trans (congrArg (Option.map _) hr), hrun, h.file⟩

/-- `program_segment_alloc_map_copy_workingset` -/
theorem Filled.segment (h : Filled all boot e ps s p) (hbelow : seg.Below) (hapart : Apart (ps ++ seg.prepaged progName remaining)) :
    Option.Rel (fun x p' => Filled all boot e (ps ++ seg.prepaged progName remaining) x.1 p' ∧
        x.2 = (seg.prepaged progName remaining).length)
      (Loader.programSegmentAllocMapCopyWorkingset lists e s progName seg remaining)
      (exec Supply.serve p ((seg.prepaged progName remaining).flatMap pageRequests)) := by
  obtain ⟨hhas, -⟩ := Segment.prepaged_spec hbelow progName remaining
  obtain ⟨-, hround⟩ := hbelow.bounds
  have halign : ∀ q ∈ seg.prepaged progName remaining, q % 4096 = 0 ∧ q < userTop := fun q hq =>
    ⟨(hhas q hq).1, lt_of_lt_of_le (hhas q hq).2.2 (hround.trans (by decide))⟩
  refine rel_bind_left (h.mapSegmentPages halign hapart) fun x p' _ h' => ?_
  obtain ⟨m', hm', hsupplied⟩ := h'.supplied.copyPages (fun q hq => List.mem_append_right _ hq) seg.copied
  exact ⟨_, congrArg (Option.map _) hm', ⟨hsupplied, h'.elements.congr
    (UserMem.exec_ws (fun _ _ _ hs => UserMem.writeUserPage_ws hs) hm')⟩, rfl⟩

theorem Segment.filePages_fst (seg : Segment) (zero : Page) : (seg.filePages zero).map Prod.fst = seg.fileAddresses := by
  unfold filePages fileAddresses
  rw [List.map_append, List.map_append, List.map_cons, List.map_map, List.map_map]
  congr 1
  · congr 1
    split
    · rfl
    · rfl
  · exact congrArg (seg.startLast :: ·) (List.map_id _)

theorem Segment.fileAddresses_lt (hbelow : seg.Below) (hfits : seg.Fits) : ∀ va ∈ seg.fileAddresses, va < userTop := by
  obtain ⟨hfirst, hlast, hfull, hzero⟩ := hbelow.written hfits
  intro va hva
  rcases List.mem_append.mp hva with hva | hva
  · rcases List.mem_append.mp hva with hva | hva
    · split at hva
      · exact List.mem_singleton.mp hva ▸ hfirst
      · exact absurd hva List.not_mem_nil
    · obtain ⟨j, hj, rfl⟩ := List.mem_map.mp hva
      exact hfull j (List.mem_range.mp hj)
  · rcases List.mem_cons.mp hva with rfl | hva
    · exact hlast
    · exact hzero va hva

/-- The pages of a segment are written to the page file. -/
theorem Filled.writeSegment (h : Filled all boot e ps (m, l) p) (hbelow : seg.Below) (hfits : seg.Fits) :
    Option.Rel (fun m' p' => Filled all boot e ps (m', l) p') (Loader.writeSegment e m seg)
      (exec Supply.serve p (seg.fileAddresses.flatMap fileRequests)) := by
  have hlt := Segment.fileAddresses_lt hbelow hfits
  unfold Loader.writeSegment
  rw [← seg.filePages_fst m.disk.zeroPage] at hlt ⊢
  rw [List.flatMap_map]
  refine rel_exec h fun m' p' page hpage h' => ?_
  refine rel_imp (h'.supplied.addProgramPage (hlt _ (List.mem_map_of_mem hpage))) fun m₁ p₁ hm₁ _ h₁ => ?_
  exact ⟨h₁, h'.elements.congr (UserMem.addProgramPage_ws hm₁)⟩

/-- Step 7 -/
theorem Filled.loadSegments (h : Filled all boot e ps s p) (hbelow : ∀ seg ∈ segs, seg.Below) (hfits : ∀ seg ∈ segs, seg.Fits)
    (hapart : Apart (ps ++ UserMem.mappedPages progName remaining segs)) :
    Option.Rel (Filled all boot e (ps ++ UserMem.mappedPages progName remaining segs))
      (Loader.loadSegments lists e progName s remaining segs)
      (exec Supply.serve p (segmentRequests progName remaining segs)) := by
  induction segs generalizing s p ps remaining with
  | nil =>
    rw [UserMem.mappedPages, List.append_nil]
    exact .some h
  | cons seg segs ih =>
    have hseg := hbelow seg (List.mem_cons_self ..)
    unfold UserMem.mappedPages at hapart ⊢
    unfold segmentRequests Loader.loadSegments
    dsimp only at hapart ⊢
    rw [← List.append_assoc] at hapart ⊢
    rw [exec_append, exec_append, Option.bind_assoc]
    refine rel_bind (h.segment hseg (List.pairwise_append.mp hapart).1) fun x p₁ _ h₁ => ?_
    obtain ⟨⟨m, l⟩, n⟩ := x
    obtain ⟨h₁, rfl⟩ := h₁
    refine rel_bind (h₁.writeSegment hseg (hfits seg (List.mem_cons_self ..))) fun m₂ p₂ _ h₂ => ?_
    exact ih h₂ (fun x hx => hbelow x (List.mem_cons_of_mem _ hx)) (fun x hx => hfits x (List.mem_cons_of_mem _ hx)) hapart

/-! #### All pages -/

theorem has_of_mem_mappedPages {q : Nat} (hbelow : ∀ seg ∈ segs, seg.Below) (hq : q ∈ UserMem.mappedPages progName remaining segs) :
    ∃ seg ∈ segs, seg.Has q := by
  induction segs generalizing remaining with
  | nil => exact absurd hq List.not_mem_nil
  | cons seg segs ih =>
    have hseg := hbelow seg (List.mem_cons_self ..)
    rcases List.mem_append.mp hq with hq | hq
    · exact ⟨seg, List.mem_cons_self .., (Segment.prepaged_spec hseg progName remaining).1 q hq⟩
    · obtain ⟨seg', hseg', hhas⟩ := ih (fun x hx => hbelow x (List.mem_cons_of_mem _ hx)) hq
      exact ⟨seg', List.mem_cons_of_mem _ hseg', hhas⟩

/-- The pages that are mapped are different ones, below the page of the stack. -/
theorem mappedPages_apart (hload : UserMem.Loadable segs) (progName : String) (remaining : Nat) :
    Apart (UserMem.mappedPages progName remaining segs ++ [UserMem.stackVa]) := by
  obtain ⟨hbelow, hapart⟩ := hload
  refine List.pairwise_append.mpr ⟨?_, List.pairwise_singleton .., fun q hq x hx => ?_⟩
  · induction segs generalizing remaining with
    | nil => exact List.Pairwise.nil
    | cons seg segs ih =>
      have hseg := hbelow seg (List.mem_cons_self ..)
      have hrest : ∀ x ∈ segs, x.Below := fun x hx => hbelow x (List.mem_cons_of_mem _ hx)
      obtain ⟨hfirst, htail⟩ := List.pairwise_cons.mp hapart
      obtain ⟨hhas, hpages⟩ := Segment.prepaged_spec hseg progName remaining
      refine List.pairwise_append.mpr ⟨hpages, ih _ hrest htail, fun q hq x hx => ?_⟩
      obtain ⟨seg', hseg', hhas'⟩ := has_of_mem_mappedPages hrest hx
      exact Segment.Has.not_samePage hseg (hrest seg' hseg') (hfirst seg' hseg') (hhas q hq) hhas'
  · obtain ⟨seg, hseg, hhas⟩ := has_of_mem_mappedPages hbelow hq
    rw [List.mem_singleton.mp hx]
    exact Segment.Has.not_stack (hbelow seg hseg) hhas

/-- There are not more pages than addresses of pages. -/
theorem mappedPages_le (hload : UserMem.Loadable segs) (progName : String) (remaining : Nat) :
    (UserMem.mappedPages progName remaining segs).length ≤ 977917 := by
  have hapart := (List.pairwise_append.mp (mappedPages_apart hload progName remaining)).1
  have hbound : ∀ q ∈ UserMem.mappedPages progName remaining segs, q % 4096 = 0 ∧ q < 4005548032 := by
    intro q hq
    obtain ⟨seg, hseg, halign, -, hlt⟩ := has_of_mem_mappedPages hload.1 hq
    obtain ⟨-, hround⟩ := (hload.1 seg hseg).bounds
    exact ⟨halign, by omega⟩
  have hmap : ((UserMem.mappedPages progName remaining segs).map (· / 4096)).Nodup := by
    refine List.pairwise_map.mpr (hapart.imp_of_mem fun {q x} hq hx hne heq => hne ?_)
    obtain ⟨hq, hqlt⟩ := hbound q hq
    obtain ⟨hx, hxlt⟩ := hbound x hx
    rw [samePage_iff (by omega) (by omega)]
    omega
  have hsub : ((UserMem.mappedPages progName remaining segs).map (· / 4096)).Subperm (List.range 977917) := by
    refine hmap.subperm fun v hv => ?_
    obtain ⟨q, hq, rfl⟩ := List.mem_map.mp hv
    obtain ⟨-, hlt⟩ := hbound q hq
    exact List.mem_range.mpr (by omega)
  have hle := hsub.length_le
  rwa [List.length_map, List.length_range] at hle

/-! #### After the segments -/

omit [DecidableEq E] in
/-- The modified bits of the pages of the elements are cleared. -/
theorem Filled.clearModified (h : Filled all boot e ps (m, l) p) :
    ∃ m', exec (fun m wse => m.clearPermissions e (m.elementVa e wse) permModified) m (m.ws e).list = some m' ∧
      Filled all boot e ps (m', l) p ∧ m'.ws = m.ws := by
  refine exec_total (I := fun m' => Filled all boot e ps (m', l) p ∧ m'.ws = m.ws) ⟨h, rfl⟩ fun m' x h' hx => ?_
  obtain ⟨hfilled, hws⟩ := h'
  have hin : m'.elementVa e x ∈ ps := hfilled.elements x (List.mem_append_left _ (by dsimp only; rw [hws]; exact hx))
  obtain ⟨r, hr, hrun⟩ := hfilled.supplied.run.ptSetPagePermissions hin 0 permModified ⟨rfl, rfl⟩ rfl
  exact ⟨m'.setRun r, congrArg (Option.map _) hr, ⟨⟨hrun, hfilled.supplied.file⟩, hfilled.elements.congr rfl⟩, hws⟩

/-- What the rest of the loader needs: the page file is not written any more. -/
structure StackFilled (all : List PageNo) (boot : PageNo → Nat) (e : E) (ps : List Nat) (s : UserMem E × LruLists) (p : Supply) :
    Prop where
  run : RunSupplied all boot e ps s.1.run p.stock p.tables
  elements : Elements e ps s

theorem Supplied.insertStackElement (h : Supplied all boot e ps m p) (lists : Bool) (l : LruLists) (wse : Nat) :
    Supplied all boot e ps (Loader.insertStackElement lists e (m, l) wse).1 p := by
  cases lists with
  | true => exact ⟨h.run, h.file⟩
  | false => exact ⟨h.run, h.file⟩

/-- Step 10 -/
theorem Filled.mapStackPage (h : Filled all boot e ps s p) (hnew : ∀ q ∈ ps, ¬ Paging.SamePage UserMem.stackVa q) :
    Option.Rel (StackFilled all boot e (ps ++ [UserMem.stackVa])) (Loader.mapStackPage lists e s)
      (exec Supply.serve p (pageRequests UserMem.stackVa ++ diskTableRequests UserMem.stackVa)) := by
  have hstack : UserMem.stackVa < userTop ∧ UserMem.stackVa % 4096 = 0 := by decide
  unfold Loader.mapStackPage
  rw [show pageRequests UserMem.stackVa = [.frame, .table UserMem.stackVa] ++ [.heap sizeofWorkingSetElement] from rfl, exec_append,
    exec_append, Option.bind_assoc]
  refine rel_bind (h.supplied.mapNewFrame hnew) fun m₁ p₁ hm₁ h₁ => ?_
  obtain ⟨m₂, hm₂, h₂⟩ := h₁.copyPages (fun q hq => List.mem_append_right _ hq) fun _ _ _ => 0
  rw [exec_single] at hm₂
  rw [hm₂, Option.bind_some]
  refine rel_bind (h₂.createElement hstack.1) fun x p₃ hx h₃ => ?_
  obtain ⟨m₃, wse⟩ := x
  have hsame : m₂.ws = s.1.ws := (UserMem.writeUserPage_ws hm₂).trans (Loader.mapNewFrame_ws hm₁)
  obtain ⟨helements, hwse⟩ := (h.elements.congr hsame).createElement hstack.2 hx
  have h₄ := h₃.insertStackElement lists s.2 wse
  have hfilled := helements.insertStackElement hwse lists
  dsimp only
  generalize Loader.insertStackElement lists e (m₃, s.2) wse = s₄ at h₄ hfilled
  rw [pfAddEnvPage_eq, Option.map_bind]
  refine rel_bind_left (h₄.openTable hstack.1) fun m₅ p₅ hm₅ h₅ => ?_
  obtain ⟨d, r, hd, -⟩ := h₅.1.file.pfAddEnvPage hstack.1 h₅.2 s₄.1.disk.zeroPage
  obtain ⟨m₄, hm₄, hm₅⟩ := Option.bind_eq_some_iff.mp hm₅
  refine ⟨_, congrArg (Option.map _) (congrArg (Option.map _) hd), h₅.1.run, Elements.congr hfilled ?_⟩
  exact (UserMem.getDiskPageTable_ws hm₅).trans (UserMem.getDiskPageDirectory_ws hm₄)

omit [DecidableEq E] in
/-- The present bits can be cleared, after which the entries account for nothing any more. -/
theorem StackFilled.resetSecondList (h : StackFilled all boot e ps s p) (lists : Bool) :
    ∃ m', Loader.resetSecondList lists e s = some m' ∧ m'.ws = s.1.ws ∧ (lists = false → m' = s.1) := by
  cases lists with
  | false => exact ⟨_, rfl, rfl, fun _ => rfl⟩
  | true =>
    obtain ⟨⟨tables', hi⟩, hl⟩ := h.run.walk
    suffices hloop : ∃ m', Loader.resetSecondList true e s = some m' ∧ m'.ws = s.1.ws ∧
        m'.run.paging.getPageTable = s.1.run.paging.getPageTable by
      obtain ⟨m', hm', hws, -⟩ := hloop
      exact ⟨m', hm', hws, fun h => absurd h.symm Bool.false_ne_true⟩
    refine exec_total (I := fun m' : UserMem E => m'.ws = s.1.ws ∧ m'.run.paging.getPageTable = s.1.run.paging.getPageTable) 
      ⟨rfl, rfl⟩ fun m' x h' hx => ?_
    obtain ⟨hws, hfound⟩ := h'
    have hva : m'.elementVa e x = s.1.elementVa e x := by
      unfold UserMem.elementVa
      rw [hws]
    have hin := h.elements x (List.mem_append_right _ (List.mem_append_right _ hx))
    obtain ⟨t, ht⟩ := Option.ne_none_iff_exists'.mp (UserMem.pde_of_present (h.run.present _ hin))
    have htable : m'.run.paging.getPageTable e (m'.elementVa e x) = some (.inMemory t) := by
      rw [hfound, hva, hi.getPageTable_eq hl, ht]
    obtain ⟨q, hq, hsame⟩ := Paging.ptSetPagePermissions_found htable 0 permPresent
    exact ⟨_, congrArg (Option.map _) (congrArg (Option.map _) hq), hws, hsame.trans hfound⟩

omit [DecidableEq E] in
/-- The pages of `SecondList` and the array `prepagedVAs`; a working set in the lists has no array. -/
theorem StackFilled.finish {n : Nat} (h : StackFilled all boot e ps s p) (hlength : (s.1.ws e).list.length = Loader.listed lists n)
    (hpos : 0 < n) (hle : n ≤ 977918) :
    Option.Rel (fun _ _ => True) ((Loader.resetSecondList lists e s).bind fun m => (Loader.allocPrepagedVAs e m).map (·, s.2))
      (exec Supply.serve p (prepagedRequests lists n)) := by
  obtain ⟨m', hm', hws, hsame⟩ := h.resetSecondList lists
  rw [hm', Option.bind_some]
  unfold Loader.allocPrepagedVAs
  rw [hws]
  cases lists with
  | true =>
    have hnil : (s.1.ws e).list = [] := List.eq_nil_of_length_eq_zero hlength
    rw [hnil]
    exact .some trivial
  | false =>
    obtain rfl := hsame rfl
    have hne : (s.1.ws e).list ≠ [] := List.ne_nil_of_length_pos (hlength ▸ hpos)
    have hlength : (s.1.ws e).list.length = n := hlength
    have hsize : u32 (4 * n) = 4 * n := u32_of_lt (by omega)
    simp only [ne_eq, hne, not_false_eq_true, and_true, hlength]
    rw [map_unless (p := fun x : PagingRun E × Nat => x.2 = 0), Option.map_map]
    show Option.Rel _ _ (exec Supply.serve p [.heap (u32 (4 * n))])
    rw [exec_single, hsize]
    exact rel_map (h.run.kmalloc (by omega) (by omega)) fun _ _ _ _ => trivial

/-! ### `env_create` -/

/-- An environment of the free list has no tables, no elements and no page in the page file. -/
structure Fresh (e : E) (s : UserMem E × LruLists) : Prop where
  unused : UserMem.Unused s.1 e
  directory : s.1.disk.pgdir e = none
  activeList : s.2.activeList = []
  secondList : s.2.secondList = []

/-- What is left before an environment is created. -/
structure Left (m : UserMem E) (st : Stock) (diskFrames : Nat) : Prop where
  stock : m.run.paging.heap.Stocked st
  diskFrames : ∃ F, (m.disk.diskFreeFrameList.Spells fun _ => F) ∧ F.length = diskFrames

omit [DecidableEq E] in
theorem exists_left (hwalk : m.run.WalkInv all boot) (hinv : m.disk.Inv) : ∃ st k, Left m st k := by
  obtain ⟨⟨tables, hi⟩, -⟩ := hwalk
  obtain ⟨F, lost, L, hheap, -⟩ := hi.owned
  obtain ⟨st, hst⟩ := hheap.stocked
  obtain ⟨F', hF', -⟩ := hinv.ledger
  exact ⟨st, F'.length, hst, F', hF', rfl⟩

omit [DecidableEq E] in
/-- What is left after `kmalloc`, before the environment has anything. -/
theorem Left.kmalloc {k : Nat} (h : Left m st k) (hwalk : m.run.WalkInv all boot) (hpos : 0 < size) (hsize : size ≤ 4294963200) :
    Option.Rel (fun x st' => Left (m.setRun x.1) st' k ∧ x.1.WalkInv all boot ∧ x.1.paging.pde = m.run.paging.pde)
      ((m.run.kmalloc size).bind fun x => if x.2 = 0 then none else some x) (st.kmalloc size) := by
  refine rel_imp (hwalk.kmalloc_stock h.stock hpos) fun x st' hx _ hst' => ?_
  exact ⟨⟨hst'.1, h.diskFrames⟩, (hwalk.kmalloc hsize (unless_eq_some.mp hx).1).1, hst'.2⟩

omit [DecidableEq E] in
theorem Fresh.setRun (h : Fresh e (m, l)) (hpde : r.paging.pde = m.run.paging.pde) : Fresh e (m.setRun r, l) := by
  refine ⟨⟨fun i => ?_, h.unused.list, h.unused.last⟩, h.directory, h.activeList, h.secondList⟩
  exact (congrFun (congrFun hpde e) i).trans (h.unused.pde i)

/-- `initialize_environment` finds nothing to clear. -/
theorem Fresh.filled {n diskFrames : Nat} (hfresh : Fresh e s) (hwalk : s.1.run.WalkInv all boot) (hinv : s.1.disk.Inv)
    (h : Left s.1 st diskFrames) (hlists : l.activeList = [] ∧ l.secondList = []) :
    Filled all boot e [] (s.1.initializeEnvironment e n, l) { stock := st, file := { frames := diskFrames } } := by
  have hrun : (s.1.initializeEnvironment e n).run = s.1.run := UserMem.initializeEnvironment_run hfresh.unused
  have hdisk : (s.1.initializeEnvironment e n).disk = s.1.disk := by
    show { s.1.disk with pgdir := Function.update s.1.disk.pgdir e none } = s.1.disk
    rw [← hfresh.directory, Function.update_eq_self]
  have htable : ∀ i, s.1.disk.table e i = none := by
    intro i
    rw [PageFile.table, hfresh.directory]
    rfl
  refine ⟨⟨?_, ?_⟩, fun x hx => ?_⟩
  · dsimp only
    rw [hrun]
    refine ⟨hwalk, fun q hq => absurd hq List.not_mem_nil, fun q _ => Paging.page_of_none (hfresh.unused.pde _), h.stock, fun i => ?_⟩
    exact iff_of_false (Finset.notMem_empty i) (not_not_intro (hfresh.unused.pde i))
  · dsimp only
    rw [hdisk]
    refine ⟨hinv, h.diskFrames, ?_, fun i => ?_, fun i j => ?_⟩
    · rw [hfresh.directory]
      rfl
    · exact iff_of_false (Finset.notMem_empty i) (not_not_intro (htable i))
    · refine iff_of_false (Finset.notMem_empty _) (not_not_intro ?_)
      rw [PageFile.hold, htable]
      rfl
  · dsimp only at hx
    rw [UserMem.initializeEnvironment_self, hlists.1, hlists.2] at hx
    exact absurd hx List.not_mem_nil

/-- The loader behind `initialize_environment`. -/
theorem Filled.load (h : Filled all boot e [] s p) (hempty : (s.1.ws e).list = []) (hload : UserMem.Loadable segs)
    (hfits : ∀ seg ∈ segs, seg.Fits) (lists : Bool) (progName : String) (remaining : Nat) :
    Option.Rel (fun _ _ => True)
      ((Loader.loadSegments lists e progName s remaining segs).bind fun x =>
        (exec (fun m wse => m.clearPermissions e (m.elementVa e wse) permModified) x.1 (x.1.ws e).list).bind fun m =>
          (Loader.mapStackPage lists e (m, x.2)).bind fun y =>
            (Loader.resetSecondList lists e y).bind fun m => (Loader.allocPrepagedVAs e m).map (·, y.2))
      (exec Supply.serve p (segmentRequests progName remaining segs ++
        (pageRequests UserMem.stackVa ++ diskTableRequests UserMem.stackVa) ++
        prepagedRequests lists ((UserMem.mappedPages progName remaining segs).length + 1))) := by
  have hle := mappedPages_le hload progName remaining
  obtain ⟨hpages, -, hstack⟩ := List.pairwise_append.mp (mappedPages_apart hload progName remaining)
  rw [exec_append, exec_append, Option.bind_assoc]
  refine rel_bind (h.loadSegments hload.1 hfits hpages) fun x p₁ hx h₁ => ?_
  obtain ⟨m₁, l₁⟩ := x
  obtain ⟨m₂, hm₂, h₂, hws⟩ := h₁.clearModified
  dsimp only
  rw [hm₂, Option.bind_some]
  refine rel_bind (h₂.mapStackPage fun q hq hsame => hstack q hq _ (List.mem_singleton_self _) hsame.symm) fun y p₂ hy h₃ => ?_
  obtain ⟨-, hlength⟩ := Loader.loadSegments_ws hx
  obtain ⟨w, wse, hloaded, hlist, -⟩ := Loader.mapStackPage_loaded hy
  refine h₃.finish ?_ (Nat.succ_pos _) (by omega)
  rw [hloaded.ws]
  dsimp only at hlist hlength
  rw [hws] at hlist
  rw [hempty] at hlength
  cases lists with
  | true =>
    show w.list.length = 0
    rw [hlist, hlength]
    rfl
  | false =>
    show (w.list ++ [wse]).length = _
    rw [List.length_append, hlist, hlength]
    exact congrArg (· + 1) (Nat.zero_add _)

/-- The loader of `env_create` goes through exactly when what is left serves its requests. -/
theorem envCreate_isSome_iff {n secondListSize diskFrames : Nat} (hfresh : Fresh e s) (hwalk : s.1.run.WalkInv all boot)
    (hinv : s.1.disk.Inv) (h : Left s.1 st diskFrames) (hload : UserMem.Loadable segs) (hfits : ∀ seg ∈ segs, seg.Fits)
    (lists : Bool) (progName : String) :
    (Loader.envCreate lists e s n secondListSize progName segs).isSome ↔
      Supply.Serves { stock := st, file := { frames := diskFrames } } (programRequests lists n progName segs) := by
  have hlists : ∀ k, (if lists then s.2.setSizes k secondListSize else s.2).activeList = [] ∧
      (if lists then s.2.setSizes k secondListSize else s.2).secondList = [] := by
    intro k
    cases lists with
    | true => exact ⟨(s.2.setSizes_activeList ..).trans hfresh.activeList, (s.2.setSizes_secondList ..).trans hfresh.secondList⟩
    | false => exact ⟨hfresh.activeList, hfresh.secondList⟩
  have hempty : ((s.1.initializeEnvironment e n).ws e).list = [] := by rw [UserMem.initializeEnvironment_self]
  exact rel_isSome_iff ((hfresh.filled hwalk hinv h (hlists _)).load hempty hload hfits lists progName (u32 (n + 4294967295)))

end

end Fos.Mem
