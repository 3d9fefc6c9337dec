import Fos.Boot.InitPaging

/-! The page at `ptr_zero_page`, which `pf_add_empty_env_page` copies to the disk. The loop of `initialize_paging` has 1024
    rounds over bytes: the rest of the page is what the memory contained at the boot. -/

namespace Fos.Disk.PageFile
open Lib Mem

variable {E : Type} [DecidableEq E] {s s' : PageFile E} {e : E} {va : Nat}

/-! ### The zero page stays -/

theorem zeroPage_getDiskPageDirectory (s : PageFile E) (e : E) : (s.getDiskPageDirectory e).zeroPage = s.zeroPage := by
  unfold getDiskPageDirectory
  split <;> rfl

theorem zeroPage_diskFrameOf {r : Option Nat} (hs : s.diskFrameOf e va = some (s', r)) : s'.zeroPage = s.zeroPage := by
  have htable : ((s.getDiskPageDirectory e).getDiskPageTable e va true).1.zeroPage = s.zeroPage := by
    unfold getDiskPageTable
    split <;> exact zeroPage_getDiskPageDirectory s e
  obtain ⟨-, hs⟩ := Option.ite_none_right_eq_some.mp hs
  generalize (s.getDiskPageDirectory e).getDiskPageTable e va true = q at htable hs
  obtain ⟨s₁, _ | t⟩ := q
  · exact nomatch hs
  dsimp only at hs
  split at hs
  · cases halloc : s₁.allocateDiskFrame with
    | none =>
      rw [halloc] at hs
      cases hs
      exact htable
    | some q =>
      rw [halloc] at hs
      cases hs
      obtain ⟨_, -, rfl⟩ := Option.map_eq_some_iff.mp halloc
      exact htable
  · cases hs
    exact htable

theorem zeroPage_pfAddEnvPage {page : Page} {r : PfResult} (hs : s.pfAddEnvPage e va page = some (s', r)) :
    s'.zeroPage = s.zeroPage := by
  obtain ⟨⟨s₁, q⟩, hq, heq⟩ := Option.map_eq_some_iff.mp hs
  have h₁ := zeroPage_diskFrameOf hq
  cases q <;> cases heq <;> exact h₁

theorem zeroPage_pfAddEmptyEnvPage {zero : Bool} {r : PfResult} (hs : s.pfAddEmptyEnvPage e va zero = some (s', r)) :
    s'.zeroPage = s.zeroPage := by
  cases zero with
  | true => exact zeroPage_pfAddEnvPage hs
  | false =>
    obtain ⟨⟨s₁, q⟩, hq, heq⟩ := Option.map_eq_some_iff.mp hs
    have h₁ := zeroPage_diskFrameOf hq
    cases q <;> cases heq <;> exact h₁

theorem zeroPage_addIfAbsent (hs : s.addIfAbsent e va = some s') : s'.zeroPage = s.zeroPage := by
  have hadd : addIfAbsent.addEmpty s e va = some s' → s'.zeroPage = s.zeroPage := by
    intro hs
    obtain ⟨-, hs⟩ := Option.ite_none_right_eq_some.mp hs
    obtain ⟨⟨s₁, r⟩, hs₁, hs⟩ := Option.bind_eq_some_iff.mp hs
    cases r with
    | success =>
      cases hs
      exact zeroPage_pfAddEmptyEnvPage hs₁
    | noPageFileSpace => exact nomatch hs
  unfold addIfAbsent at hs
  split at hs
  · split at hs
    · exact hadd hs
    · cases hs
      rfl
  · exact hadd hs

omit [DecidableEq E] in
theorem zeroPage_freeDiskFrame (s : PageFile E) (n : Nat) : (s.freeDiskFrame n).zeroPage = s.zeroPage := by
  unfold freeDiskFrame
  split <;> rfl

omit [DecidableEq E] in
theorem zeroPage_foldl {α : Type} {body : PageFile E → α → PageFile E} (hbody : ∀ s a, (body s a).zeroPage = s.zeroPage)
    (l : List α) (s : PageFile E) : (l.foldl body s).zeroPage = s.zeroPage := by
  induction l generalizing s with
  | nil => rfl
  | cons a l ih => exact (ih (body s a)).trans (hbody s a)

theorem zeroPage_freeDiskEntry (i : Fin 1024) (s : PageFile E) (j : Fin 1024) : (freeDiskEntry e i s j).zeroPage = s.zeroPage := by
  unfold freeDiskEntry
  split
  · rfl
  · exact zeroPage_freeDiskFrame ..

theorem zeroPage_freeDiskTable (s : PageFile E) (i : Fin 1024) : (freeDiskTable e s i).zeroPage = s.zeroPage := by
  unfold freeDiskTable
  split
  · rfl
  · have h := zeroPage_foldl (zeroPage_freeDiskEntry (e := e) i) (List.finRange 1024) s
    generalize (List.finRange 1024).foldl (freeDiskEntry e i) s = s₁ at h
    exact h

/-- No call writes to the zero page. -/
theorem zeroPage_step {ev : PfEvent E} (hs : s.step ev = some s') : s'.zeroPage = s.zeroPage := by
  obtain ⟨⟨t, r⟩, hcall, rfl⟩ := Option.map_eq_some_iff.mp hs
  cases ev with
  | addEmpty e va zero => exact zeroPage_pfAddEmptyEnvPage hcall
  | add e va page => exact zeroPage_pfAddEnvPage hcall
  | update e va page =>
    obtain ⟨u, hu, heq⟩ := Option.map_eq_some_iff.mp hcall
    cases heq
    obtain ⟨-, hu⟩ := Option.ite_none_right_eq_some.mp hu
    obtain ⟨s₁, hs₁, hu⟩ := Option.bind_eq_some_iff.mp hu
    obtain ⟨_, -, rfl⟩ := Option.map_eq_some_iff.mp hu
    exact (zeroPage_addIfAbsent hs₁).trans (zeroPage_getDiskPageDirectory s e)
  | remove e va =>
    cases hcall
    unfold pfRemoveEnvPage
    split
    · rfl
    · exact zeroPage_freeDiskFrame ..
  | freeEnv e =>
    obtain ⟨u, hu, heq⟩ := Option.map_eq_some_iff.mp hcall
    cases heq
    simp only [PageFile.pfFreeEnv, Option.ite_none_right_eq_some, Option.some.injEq] at hu
    obtain ⟨-, rfl⟩ := hu
    have h := zeroPage_foldl (zeroPage_freeDiskTable (e := e)) ((List.finRange 1024).filter (· < pdx userTop)) s
    generalize ((List.finRange 1024).filter (· < pdx userTop)).foldl (freeDiskTable e) s = s₁ at h
    exact h

/-! ### A zeroed page -/

/-- The page that a run reads back, if it left the page alone. -/
theorem Inv.read_empty {f g : PageFile E} (hi : Inv s) (hva : va < userTop)
    (hadd : s.pfAddEmptyEnvPage e va true = some (f, .success))
    (hr : Reach PageFile.step (fun _ ev => Allowed ev ∧ ¬ Touches (key e va) ev) f g) : g.pfReadEnvPage e va = some s.zeroPage := by
  obtain ⟨⟨s₁, q⟩, hq, heq⟩ := Option.map_eq_some_iff.mp hadd
  obtain ⟨hi₁, -, ⟨dfn, rfl, hhold, -⟩ | ⟨rfl, -⟩⟩ := hi.diskFrameOf hva hq
  · cases heq
    have hstays : Inv g ∧ g.hold (key e va) = some dfn ∧ g.data dfn = s.zeroPage := by
      refine hr.invariant (I := fun g => Inv g ∧ g.hold (key e va) = some dfn ∧ g.data dfn = s.zeroPage)
        ⟨hi₁.writeDiskPage, ?_, Function.update_self ..⟩ ?_
      · show s₁.hold (key e va) = some dfn
        rw [hhold]
        exact Function.update_self ..
      · rintro u ev v ⟨hu, hheld, hdata⟩ ⟨hallowed, hnot⟩ hs
        obtain ⟨hheld', hdata'⟩ := hu.step_kept hallowed hnot hs hheld
        obtain ⟨⟨v', r⟩, hcall, rfl⟩ := Option.map_eq_some_iff.mp hs
        exact ⟨(hu.call hallowed hcall).1, hheld', hdata'.trans hdata⟩
    rw [pfReadEnvPage_eq, hstays.2.1, Option.map_some, hstays.2.2]
  · cases heq

theorem diskFrameOf_free (hva : va < kernelBase) (hfree : (s.diskFreeFrameList.head ()).first ≠ none) :
    ∃ s' dfn, s.diskFrameOf e va = some (s', some dfn) := by
  obtain ⟨s₁, t, hopen, -, -, hlist, -⟩ := opened s e va
  unfold diskFrameOf
  rw [if_pos hva, hopen]
  dsimp only
  split
  · obtain ⟨dfn, hfirst⟩ := Option.ne_none_iff_exists'.mp (hlist ▸ hfree)
    unfold allocateDiskFrame
    rw [hfirst]
    exact ⟨_, _, rfl⟩
  · exact ⟨_, _, rfl⟩

theorem first_initDiskFrames {l : Lists Unit Nat} {n : Nat} (h : l.Spells fun _ => []) (hn : n ≠ 0) :
    (((List.range' 1 n).foldl initDiskFrame l).head ()).first ≠ none := by
  have hspells := initDiskFrames_spells h 1 n nofun
  rw [hspells.first (), List.append_nil]
  intro hnone
  have hnil := List.head?_eq_none_iff.mp hnone
  rw [List.reverse_eq_nil_iff, List.range'_eq_nil_iff] at hnil
  exact hn hnil

/-- There is space for the first page. -/
theorem add_first {t : PageFile E} (hlist : t.diskFreeFrameList = s.initializeDiskPageFile.diskFreeFrameList) (hva : va < kernelBase) :
    ∃ f, t.pfAddEmptyEnvPage e va true = some (f, .success) := by
  have hinit : (s.diskFreeFrameList.init ()).Spells fun _ => [] := by
    refine Lists.spells_nil fun u => ?_
    cases u
    exact Function.update_self () {} s.diskFreeFrameList.head
  have hfree := first_initDiskFrames hinit (show pagesPerFile - 1 ≠ 0 by decide)
  simp only [initializeDiskPageFile] at hlist
  rw [← hlist] at hfree
  obtain ⟨t', dfn, ht'⟩ := diskFrameOf_free (e := e) hva hfree
  exact ⟨t'.writeDiskPage dfn t.zeroPage, Option.map_eq_some_iff.mpr ⟨_, ht', rfl⟩⟩

end Fos.Disk.PageFile

namespace Fos.Boot
open Lib Mem Disk PageFile

/-! ### The loop over the two pages -/

/-- The first `k` bytes of both pages are cleared. -/
theorem clearBytes_spec (m : Memory 32) {k : Nat} (hk : k < 4294967296) (a : BitVec 32) : (forRange clearBytes 0 k m) a =
    if (a - ptrZeroPage).toNat < k ∨ (a - ptrTempPage).toNat < k then 0 else m a := by
  induction k with
  | zero => rfl
  | succ k ih =>
    have hround : forRange clearBytes 0 (k + 1) m = clearBytes (forRange clearBytes 0 k m) k := by
      unfold forRange
      rw [Nat.sub_zero, List.range'_1_concat, List.foldl_append, Nat.sub_zero, Nat.zero_add]
      rfl
    have hat : ∀ p : BitVec 32, a = p + BitVec.ofNat 32 k ↔ (a - p).toNat = k := fun p => by
      constructor
      · rintro rfl
        exact Memory.offset_ofNat (by omega)
      · intro h
        rw [← h, BitVec.ofNat_toNat, BitVec.setWidth_eq, BitVec.add_comm, BitVec.sub_add_cancel]
    rw [hround, clearBytes, Function.update_apply, Function.update_apply, ih (by omega)]
    simp only [hat]
    split_ifs <;> first | rfl | omega

theorem Machine.initializePaging_parts {E : Type} {s t : Machine E} {n ptrFreeMem : Nat}
    (hboot : s.initializePaging n ptrFreeMem = some t) :
    t.mem = forRange clearBytes 0 1024 s.mem ∧ t.pageFile = s.pageFile.initializeDiskPageFile := by
  obtain ⟨pa, -, heq⟩ := Option.map_eq_some_iff.mp hboot
  constructor
  · rw [← heq]
  · rw [← heq]

/-- The page at `ptr_zero_page` after the boot: only its first 1024 bytes were cleared. -/
theorem Machine.zeroPage_initialized {E : Type} {s t : Machine E} {n ptrFreeMem : Nat}
    (hboot : s.initializePaging n ptrFreeMem = some t) (i : Fin 4096) :
    t.file.zeroPage i = if i.val < 1024 then 0 else s.mem (ptrZeroPage + BitVec.ofNat 32 i.val) := by
  show t.mem (ptrZeroPage + BitVec.ofNat 32 i.val) = _
  have hoff : (ptrZeroPage + BitVec.ofNat 32 i.val - ptrZeroPage).toNat = i.val := Memory.offset_ofNat (by omega)
  have htemp : ¬ (ptrZeroPage + BitVec.ofNat 32 i.val - ptrTempPage).toNat < 1024 := by
    rw [BitVec.toNat_sub, BitVec.toNat_add, BitVec.toNat_ofNat]
    have := i.isLt
    rw [show ptrZeroPage.toNat = 4026535936 by decide, show ptrTempPage.toNat = 4026540032 by decide]
    omega
  rw [(initializePaging_parts hboot).1, clearBytes_spec s.mem (by decide), hoff]
  simp only [htemp, or_false]

variable {E : Type} [DecidableEq E] {s t : Machine E} {f g h : PageFile E} {n ptrFreeMem va : Nat} {e : E}

/-- The runs after the boot keep the accounts of the page file and the zero page. -/
theorem Machine.file_reach (hnew : ∀ e, s.pageFile.pgdir e = none) (hboot : s.initializePaging n ptrFreeMem = some t)
    (hf : Reach PageFile.step (fun _ ev => Allowed ev) t.file f) : Inv f ∧ f.zeroPage = t.file.zeroPage := by
  refine hf.invariant (I := fun f => Inv f ∧ f.zeroPage = t.file.zeroPage) ⟨?_, rfl⟩ ?_
  · have hinv := inv_init hnew
    rw [← (initializePaging_parts hboot).2] at hinv
    exact ⟨hinv.ledger, hinv.below⟩
  · rintro u ev v ⟨hu, hzero⟩ hallowed hs
    obtain ⟨⟨v', r⟩, hcall, rfl⟩ := Option.map_eq_some_iff.mp hs
    exact ⟨(hu.call hallowed hcall).1, (zeroPage_step hs).trans hzero⟩

/-- A page that was added as zeros is read back as zeros exactly when the part of the zero page that the boot does not clear was
    zero before the boot. -/
theorem zero_page_reads_zero_iff (hnew : ∀ e, s.pageFile.pgdir e = none) (hboot : s.initializePaging n ptrFreeMem = some t)
    (hf : Reach PageFile.step (fun _ ev => Allowed ev) t.file f) (hva : va < userTop)
    (hadd : f.pfAddEmptyEnvPage e va true = some (g, .success))
    (hg : Reach PageFile.step (fun _ ev => Allowed ev ∧ ¬ Touches (key e va) ev) g h) :
    (h.pfReadEnvPage e va = some fun _ => 0) ↔
      ∀ i : Fin 4096, 1024 ≤ i.val → s.mem (ptrZeroPage + BitVec.ofNat 32 i.val) = 0 := by
  obtain ⟨hinv, hzero⟩ := Machine.file_reach hnew hboot hf
  rw [hinv.read_empty hva hadd hg, hzero, Option.some.injEq]
  constructor
  · intro heq i hi
    rw [← congrFun heq i, Machine.zeroPage_initialized hboot, if_neg (Nat.not_lt.mpr hi)]
  · intro hrest
    funext i
    rw [Machine.zeroPage_initialized hboot]
    split
    · rfl
    · exact hrest i (by omega)

/-- A page is added after the boot of a memory that is all zero. -/
theorem zero_page_reads_zero_iff_blank : ∃ t g, (Machine.blank Unit).initializePaging 1024 (kernelBase + 3145728) = some t ∧
    t.file.pfAddEmptyEnvPage () 8388608 true = some (g, .success) ∧ ((g.pfReadEnvPage () 8388608 = some fun _ => 0) ↔
      ∀ i : Fin 4096, 1024 ≤ i.val → (Machine.blank Unit).mem (ptrZeroPage + BitVec.ofNat 32 i.val) = 0) := by
  obtain ⟨t, ht⟩ : ∃ t, (Machine.blank Unit).initializePaging 1024 (kernelBase + 3145728) = some t := ⟨_, rfl⟩
  have hlist : t.file.diskFreeFrameList = t.pageFile.diskFreeFrameList := rfl
  rw [(Machine.initializePaging_parts ht).2] at hlist
  obtain ⟨g, hg⟩ := add_first (e := ()) hlist (show 8388608 < kernelBase by decide)
  exact ⟨t, g, ht, hg, zero_page_reads_zero_iff (fun _ => rfl) ht .init (by decide) hg .init⟩

/-- Every byte of the memory is 1 at the boot. The page that is added as zeros is read back with a 1. -/
theorem zero_page_dirty : ∃ t g page, ({ Machine.blank Unit with mem := fun _ => 1 }).initializePaging 1024 (kernelBase + 3145728) = some t ∧
    t.file.pfAddEmptyEnvPage () 8388608 true = some (g, .success) ∧ g.pfReadEnvPage () 8388608 = some page ∧
      page 1023 = 0 ∧ page 1024 = 1 ∧ g.pfReadEnvPage () 8388608 ≠ some fun _ => 0 := by
  obtain ⟨t, ht⟩ : ∃ t, ({ Machine.blank Unit with mem := fun _ => 1 }).initializePaging 1024 (kernelBase + 3145728) = some t := ⟨_, rfl⟩
  have hlist : t.file.diskFreeFrameList = t.pageFile.diskFreeFrameList := rfl
  rw [(Machine.initializePaging_parts ht).2] at hlist
  obtain ⟨g, hg⟩ := add_first (e := ()) hlist (show 8388608 < kernelBase by decide)
  obtain ⟨hinv, -⟩ := Machine.file_reach (fun _ => rfl) ht .init
  have hread := hinv.read_empty (show 8388608 < userTop by decide) hg .init
  have hbyte := Machine.zeroPage_initialized ht 1024
  refine ⟨t, g, _, ht, hg, hread, Machine.zeroPage_initialized ht 1023, hbyte, fun hzero => ?_⟩
  have heq := congrFun (Option.some.inj (hread.symm.trans hzero)) 1024
  rw [hbyte] at heq
  exact absurd heq (by decide)

end Fos.Boot
