import Fos.Disk.PageFileRead
import Fos.Boot.BootMemory

/-! `initialize_paging` (`kern/mem/memory_manager.c`): which frames the boot puts into the free list, and the two pages that it
    clears in the memory of the kernel. -/

namespace Fos.Boot
open Lib Mem Disk

/-- The lists of `MemFrameLists` -/
inductive FrameList where
  | free
  | modified
  deriving DecidableEq, Repr

/-- `struct FrameInfo` without its link; the null pointer of `proc` is 0. -/
structure FrameInfo where
  references : Nat := 0
  proc : Nat := 0
  isBuffered : Nat := 0
  va : Nat := 0
  deriving DecidableEq, Repr

/-- `frames_info` and `MemFrameLists` -/
structure FramesInfo where
  lists : Lists FrameList Nat
  info : Nat → FrameInfo

/-- `PHYS_IO_MEM` -/
def physIoMem : Nat := 0x0A0000

/-- `PHYS_EXTENDED_MEM` -/
def physExtendedMem : Nat := 0x100000

/-- `for (i = start; i < stop; i++)` -/
def forRange {σ : Type} (body : σ → Nat → σ) (start stop : Nat) (s : σ) : σ := (List.range' start (stop - start)).foldl body s

namespace FramesInfo

/-- `initialize_frame_info(&(frames_info[i]))` -/
def initializeFrameInfo (s : FramesInfo) (i : Nat) : FramesInfo where
  lists := { s.lists with link := Function.update s.lists.link i {} }
  info := Function.update s.info i {}

/-- `frames_info[i].references = 1` -/
def reserve (s : FramesInfo) (i : Nat) : FramesInfo :=
  { s with info := Function.update s.info i { s.info i with references := 1 } }

/-- One round of the loops that fill `free_frame_list` -/
def listFree (s : FramesInfo) (i : Nat) : FramesInfo :=
  let s := s.initializeFrameInfo i
  { s with lists := s.lists.insertHead .free i }

/-- The part of `initialize_paging` that is about frames; `rangeEnd` is the end of the data of the kernel. -/
def initializeFrames (s : FramesInfo) (numberOfFrames rangeEnd : Nat) : FramesInfo :=
  let s := { s with lists := (s.lists.init .free).init .modified }
  let s := ((s.reserve 0).reserve 1).reserve 2
  let s := forRange listFree 3 (roundUp physIoMem pageSize / pageSize) s
  let s := forRange reserve (physIoMem / pageSize) (physExtendedMem / pageSize) s
  let s := forRange reserve (physExtendedMem / pageSize) (rangeEnd / pageSize) s
  forRange listFree (rangeEnd / pageSize) numberOfFrames s

end FramesInfo

/-- `ptr_zero_page` -/
def ptrZeroPage : BitVec 32 := BitVec.ofNat 32 (kernelBase + pageSize)

/-- `ptr_temp_page` -/
def ptrTempPage : BitVec 32 := BitVec.ofNat 32 (kernelBase + 2 * pageSize)

/-- One round of the loop over `ptr_zero_page` and `ptr_temp_page` -/
def clearBytes (m : Memory 32) (i : Nat) : Memory 32 :=
  Function.update (Function.update m (ptrZeroPage + BitVec.ofNat 32 i) 0) (ptrTempPage + BitVec.ofNat 32 i) 0

/-- What `initialize_paging` writes: the memory of the kernel, the frames, and the page file. -/
structure Machine (E : Type) where
  mem : Memory 32
  frames : FramesInfo
  pageFile : PageFile E

namespace Machine

variable {E : Type}

/-- `initialize_paging()` -/
def initializePaging (s : Machine E) (numberOfFrames ptrFreeMem : Nat) : Option (Machine E) :=
  (staticKernelPhysicalAddress ptrFreeMem).map fun pa =>
    { mem := forRange clearBytes 0 1024 s.mem
      frames := s.frames.initializeFrames numberOfFrames (roundUp pa pageSize)
      pageFile := s.pageFile.initializeDiskPageFile }

/-- The page file with the page that is at `ptr_zero_page`. -/
def file (s : Machine E) : PageFile E := { s.pageFile with zeroPage := fun i => s.mem (ptrZeroPage + BitVec.ofNat 32 i) }

end Machine

/-! ### The frames -/

namespace FramesInfo

variable {s : FramesInfo} {L : FrameList → List Nat} {l : List Nat}

/-- The frames `l` are put into the free list. -/
theorem foldl_listFree (h : s.lists.Spells L) (hl : l.Nodup) (hnew : ∀ f ∈ l, ∀ j, f ∉ L j) :
    (l.foldl listFree s).lists.Spells (Function.update L .free (l.reverse ++ L .free)) ∧
      ∀ f, (l.foldl listFree s).info f = if f ∈ l then {} else s.info f := by
  induction l generalizing s L with
  | nil =>
    refine ⟨?_, fun f => rfl⟩
    rw [List.reverse_nil, List.nil_append, Function.update_eq_self]
    exact h
  | cons f l ih =>
    obtain ⟨hf, hl⟩ := List.nodup_cons.mp hl
    have hfree := hnew f (List.mem_cons_self ..)
    have hlink : ∀ j, ∀ x ∈ L j, Function.update s.lists.link f {} x = s.lists.link x := fun j x hx =>
      Function.update_of_ne (show x ≠ f from fun heq => hfree j (heq ▸ hx)) ..
    have hspells : (s.listFree f).lists.Spells (Function.update L .free (f :: L .free)) :=
      (h.congr_link hlink).insertHead hfree
    obtain ⟨hspells', hinfo⟩ := ih hspells hl fun g hg j hmem => by
      by_cases hj : j = .free
      · subst hj
        rw [Function.update_self] at hmem
        rcases List.mem_cons.mp hmem with rfl | hmem
        · exact hf hg
        · exact hnew g (List.mem_cons_of_mem _ hg) _ hmem
      · rw [Function.update_of_ne hj] at hmem
        exact hnew g (List.mem_cons_of_mem _ hg) _ hmem
    rw [Function.update_self, Function.update_idem] at hspells'
    refine ⟨by simpa using hspells', fun g => ?_⟩
    rw [List.foldl_cons, hinfo]
    show (if g ∈ l then {} else Function.update s.info f {} g) = _
    by_cases hgf : g = f
    · subst hgf
      simp
    · simp [hgf]

/-- The frames `l` are marked as used. -/
theorem foldl_reserve (s : FramesInfo) (l : List Nat) : (l.foldl reserve s).lists = s.lists ∧
    ∀ f, ((l.foldl reserve s).info f).references = if f ∈ l then 1 else (s.info f).references := by
  induction l generalizing s with
  | nil => exact ⟨rfl, fun f => rfl⟩
  | cons f l ih =>
    obtain ⟨hlists, hinfo⟩ := ih (s.reserve f)
    refine ⟨hlists, fun g => ?_⟩
    rw [List.foldl_cons, hinfo]
    show (if g ∈ l then 1 else (Function.update s.info f { s.info f with references := 1 } g).references) = _
    by_cases hgf : g = f
    · subst hgf
      simp
    · simp [hgf]

theorem mem_range {a b f : Nat} : f ∈ List.range' a (b - a) ↔ a ≤ f ∧ f < b := by
  rw [List.mem_range'_1]
  omega

variable {a b n k rangeEnd : Nat}

theorem spells_listFree (h : s.lists.Spells L) (hnew : ∀ f, a ≤ f → f < b → ∀ j, f ∉ L j) :
    (forRange listFree a b s).lists.Spells (Function.update L .free ((List.range' a (b - a)).reverse ++ L .free)) :=
  (foldl_listFree h List.nodup_range' fun f hf => hnew f (mem_range.mp hf).1 (mem_range.mp hf).2).1

theorem references_listFree (h : s.lists.Spells L) (hnew : ∀ f, a ≤ f → f < b → ∀ j, f ∉ L j) (f : Nat) :
    ((forRange listFree a b s).info f).references = if a ≤ f ∧ f < b then 0 else (s.info f).references := by
  have hinfo := (foldl_listFree h List.nodup_range' fun f hf => hnew f (mem_range.mp hf).1 (mem_range.mp hf).2).2 f
  unfold forRange
  rw [hinfo, apply_ite FrameInfo.references]
  exact if_congr mem_range rfl rfl

theorem lists_reserve (s : FramesInfo) (a b : Nat) : (forRange reserve a b s).lists = s.lists := (foldl_reserve s _).1

theorem references_reserve (s : FramesInfo) (a b f : Nat) :
    ((forRange reserve a b s).info f).references = if a ≤ f ∧ f < b then 1 else (s.info f).references :=
  ((foldl_reserve s _).2 f).trans (if_congr mem_range rfl rfl)

/-- The frames that the boot leaves free: base memory behind the first three frames, and what is behind the frame `k`. -/
def bootFrames (n k : Nat) : List Nat := List.range' 3 (160 - 3) ++ List.range' k (n - k)

theorem mem_bootFrames (hk : 256 ≤ k) (hkn : k ≤ n) {f : Nat} : f ∈ bootFrames n k ↔
    f < n ∧ ¬ (f < 3 ∨ (160 ≤ f ∧ f < 256) ∨ (256 ≤ f ∧ f < k)) := by
  unfold bootFrames
  rw [List.mem_append, mem_range, mem_range]
  omega

theorem bootFrames_nodup (hk : 256 ≤ k) : (bootFrames n k).Nodup := by
  refine List.nodup_append.mpr ⟨List.nodup_range', List.nodup_range', fun a ha b hb hab => ?_⟩
  rw [mem_range] at ha hb
  omega

/-- The lists of the boot -/
def bootLists (n k : Nat) : FrameList → List Nat
  | .free => (bootFrames n k).reverse
  | .modified => []

/-- The base memory is in the list. -/
def baseLists : FrameList → List Nat := Function.update (fun _ => []) .free ((List.range' 3 (160 - 3)).reverse ++ [])

theorem bootLists_eq (n k : Nat) :
    bootLists n k = Function.update baseLists .free ((List.range' k (n - k)).reverse ++ baseLists .free) := by
  funext j
  cases j with
  | free => simp [bootLists, bootFrames, baseLists]
  | modified => rfl

theorem mem_baseLists {j : FrameList} {f : Nat} (hf : f ∈ baseLists j) : f < 160 := by
  cases j with
  | free =>
    rw [baseLists, Function.update_self, List.append_nil, List.mem_reverse, mem_range] at hf
    exact hf.2
  | modified => exact absurd hf List.not_mem_nil

/-- What `initialize_paging` makes of the frames, whatever was there before. -/
theorem initializeFrames_spec (s : FramesInfo) (n : Nat) (hend : rangeEnd / pageSize = k) (hk : 256 ≤ k) :
    (s.initializeFrames n rangeEnd).lists.Spells (bootLists n k) ∧
      ∀ f < n, ((s.initializeFrames n rangeEnd).info f).references =
        if f < 3 ∨ (160 ≤ f ∧ f < 256) ∨ (256 ≤ f ∧ f < k) then 1 else 0 := by
  unfold initializeFrames
  rw [hend, show roundUp physIoMem pageSize / pageSize = 160 by decide, show physIoMem / pageSize = 160 by decide,
    show physExtendedMem / pageSize = 256 by decide]
  dsimp only
  have hempty : ((s.lists.init .free).init .modified).Spells fun _ => [] := Lists.spells_nil fun j => by
    cases j <;> rfl
  generalize hs₀ : ({ s with lists := (s.lists.init .free).init .modified } : FramesInfo) = s₀
  replace hempty : s₀.lists.Spells fun _ => [] := hs₀ ▸ hempty
  rw [show ((s₀.reserve 0).reserve 1).reserve 2 = forRange reserve 0 3 s₀ from rfl]
  rw [← lists_reserve s₀ 0 3] at hempty
  have hbase : (forRange listFree 3 160 (forRange reserve 0 3 s₀)).lists.Spells baseLists := spells_listFree hempty nofun
  have hrefs₁ := references_listFree (a := 3) (b := 160) hempty nofun
  generalize forRange listFree 3 160 (forRange reserve 0 3 s₀) = s₁ at hbase hrefs₁
  rw [← lists_reserve s₁ 160 256, ← lists_reserve _ 256 k] at hbase
  have hnew : ∀ f, k ≤ f → f < n → ∀ j, f ∉ baseLists j := fun f hf _ j hmem => by
    have := mem_baseLists hmem
    omega
  refine ⟨bootLists_eq n k ▸ spells_listFree hbase hnew, fun f hf => ?_⟩
  rw [references_listFree hbase hnew, references_reserve, references_reserve, hrefs₁, references_reserve]
  split_ifs <;> omega

/-- The state of the frames in which the runs after the boot start. -/
theorem initializeFrames_frames (s : FramesInfo) (hend : rangeEnd / pageSize = k) (hk : 256 ≤ k) (hkn : k ≤ n) (hn : n ≤ 1048576) :
    ((Frames.initializePaging n k).freeFrameList.Spells fun _ => (bootLists n k .free).map (Fin.ofNat 1048576)) ∧
      ∀ f < n, (Frames.initializePaging n k).references (Fin.ofNat 1048576 f) =
        ((s.initializeFrames n rangeEnd).info f).references := by
  have hnil : ({ numberOfFrames := n, references := Frames.bootReferences k } : Frames).freeFrameList.Spells fun _ => [] :=
    Lists.spells_nil fun _ => rfl
  obtain ⟨m, hm, hspells, -, -, hzero, hkeep⟩ := Frames.foldl_freeFrame hnil (Frames.bootFree_nodup hn hk) nofun
  have hfree : Frames.bootFree n k = (bootFrames n k).map (Fin.ofNat 1048576) := rfl
  unfold Frames.initializePaging
  rw [hm]
  refine ⟨?_, fun f hf => ?_⟩
  · rw [List.append_nil, hfree, ← List.map_reverse] at hspells
    exact hspells
  · rw [(s.initializeFrames_spec n hend hk).2 f hf]
    have hval : (Fin.ofNat 1048576 f).val = f := Nat.mod_eq_of_lt (by omega)
    have hmem : Fin.ofNat 1048576 f ∈ Frames.bootFree n k ↔ f ∈ bootFrames n k := by
      rw [hfree, List.mem_map]
      constructor
      · rintro ⟨g, hg, heq⟩
        have hlt := ((mem_bootFrames hk hkn).mp hg).1
        have hgval := congrArg Fin.val heq
        rw [hval, show (Fin.ofNat 1048576 g).val = g from Nat.mod_eq_of_lt (by omega)] at hgval
        exact hgval ▸ hg
      · exact fun hf => ⟨f, hf, rfl⟩
    by_cases hlisted : f ∈ bootFrames n k
    · rw [(hzero _ (hmem.mpr hlisted)).1, if_neg ((mem_bootFrames hk hkn).mp hlisted).2]
    · rw [(hkeep _ (mt hmem.mp hlisted)).1]
      show Frames.bootReferences k (Fin.ofNat 1048576 f) = _
      unfold Frames.bootReferences
      rw [hval]
      refine if_congr ?_ rfl rfl
      omega

end FramesInfo

namespace Machine
open FramesInfo

variable {E : Type} {s t : Machine E} {n ptrFreeMem pa : Nat}

/-- Every frame below `n` is in the free list once and has no reference, or is not in the list and has one. Those that are not
    in the list are the frames 0 to 2, the hole for I/O, and what is behind it below `rangeEnd`. -/
structure Classified (t : FramesInfo) (n rangeEnd : Nat) (F : List Nat) : Prop where
  spells : t.lists.Spells fun | .free => F | .modified => []
  below : ∀ f ∈ F, f < n
  once : ∀ f < n, F.count f = 1 ∧ (t.info f).references = 0 ∨ F.count f = 0 ∧ (t.info f).references = 1
  listed : ∀ f < n, f ∈ F ↔ ¬ (f < 3 ∨ (physIoMem ≤ f * pageSize ∧ f * pageSize < physExtendedMem) ∨
    (physExtendedMem ≤ f * pageSize ∧ f * pageSize < rangeEnd))

theorem classified (s : FramesInfo) {rangeEnd : Nat} (halign : rangeEnd % pageSize = 0) (hlow : physExtendedMem ≤ rangeEnd)
    (hhigh : rangeEnd ≤ n * pageSize) :
    Classified (s.initializeFrames n rangeEnd) n rangeEnd (bootFrames n (rangeEnd / pageSize)).reverse := by
  simp only [pageSize, physExtendedMem] at halign hlow hhigh
  have hk : 256 ≤ rangeEnd / pageSize := by
    simp only [pageSize]
    omega
  have hkn : rangeEnd / pageSize ≤ n := by
    simp only [pageSize]
    omega
  obtain ⟨hspells, hrefs⟩ := s.initializeFrames_spec n rfl hk
  have hmem : ∀ f, f ∈ (bootFrames n (rangeEnd / pageSize)).reverse ↔ _ := fun f =>
    List.mem_reverse.trans (mem_bootFrames hk hkn)
  refine ⟨hspells, fun f hf => ((hmem f).mp hf).1, fun f hf => ?_, fun f hf => (hmem f).trans ?_⟩
  · rw [hrefs f hf]
    by_cases hused : f < 3 ∨ (160 ≤ f ∧ f < 256) ∨ (256 ≤ f ∧ f < rangeEnd / pageSize)
    · rw [if_pos hused]
      exact .inr ⟨List.count_eq_zero.mpr fun h => ((hmem f).mp h).2 hused, rfl⟩
    · rw [if_neg hused]
      exact .inl ⟨List.count_eq_one_of_mem (List.nodup_reverse.mpr (bootFrames_nodup hk)) ((hmem f).mpr ⟨hf, hused⟩), rfl⟩
  · simp only [pageSize, physIoMem, physExtendedMem]
    omega

/-- `initialize_paging` returns and classifies every frame. -/
theorem initialize_paging_classifies (hpa : staticKernelPhysicalAddress ptrFreeMem = some pa) (hptr : ptrFreeMem < 4294967296)
    (hlow : physExtendedMem ≤ pa) (hhigh : pa ≤ n * pageSize) :
    ∃ t F, s.initializePaging n ptrFreeMem = some t ∧ Classified t.frames n (roundUp pa pageSize) F := by
  obtain ⟨-, hsub⟩ := Option.ite_none_left_eq_some.mp hpa
  obtain rfl := Option.some.inj hsub
  have hround := roundUp_page (n := ptrFreeMem - kernelBase) (by simp only [kernelBase]; omega)
  refine ⟨_, _, Option.map_eq_some_iff.mpr ⟨_, hpa, rfl⟩, classified s.frames hround.1 ?_ ?_⟩
  · exact hlow.trans hround.2.1
  · simp only [pageSize] at hhigh hround ⊢
    omega

/-- The memory before the boot, all zero. -/
def blank (E : Type) : Machine E := ⟨fun _ => 0, ⟨{}, fun _ => {}⟩, {}⟩

/-- The kernel ends at 3 MB, in a memory of 4 MB. -/
theorem initialize_paging_classifies_small : ∃ t F, (blank Unit).initializePaging 1024 (kernelBase + 3145728) = some t ∧
    Classified t.frames 1024 (roundUp 3145728 pageSize) F :=
  initialize_paging_classifies rfl (by decide) (by decide) (by decide)

/-- The frame 3 is below the end of the kernel's data, and it is in the list: the base memory is left free. -/
theorem base_memory_listed : ∃ t F, (blank Unit).initializePaging 1024 (kernelBase + 3145728) = some t ∧
    (t.frames.lists.Spells fun | .free => F | .modified => []) ∧ 3 ∈ F ∧ 3 * pageSize < roundUp 3145728 pageSize ∧
      ¬ ∀ f < 1024, f * pageSize < roundUp 3145728 pageSize → f ∉ F := by
  have hclassified : Classified ((blank Unit).frames.initializeFrames 1024 (roundUp 3145728 pageSize)) 1024 _ _ :=
    classified (blank Unit).frames (by decide) (by decide) (by decide)
  have hlisted := (hclassified.listed 3 (by decide)).mpr (by decide)
  exact ⟨_, _, rfl, hclassified.spells, hlisted, by decide, fun hall => hall 3 (by decide) (by decide) hlisted⟩

end Machine

end Fos.Boot
