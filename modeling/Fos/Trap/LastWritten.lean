import Fos.Trap.FlatMemory

/-! A process that runs alone: what it reads from a byte is what it has written there last, or what was there in the beginning. -/

namespace Fos.Mem
open Lib Heap Disk Frames

namespace UserMem

variable {E : Type} {s t : UserMem E} {e : E} {va : Nat} {b : UInt8}

/-- Every resident page with `MODIFIED` = 0 that has a copy in the page file agrees with the copy. -/
def Coherent (s : UserMem E) (e : E) : Prop :=
  ∀ va < userTop, (s.run.paging.page e va).present → (s.run.paging.page e va).perm.getLsbD 6 = false →
    ∀ content, s.disk.pfReadEnvPage e va = some content → s.data (s.run.paging.page e va).frame = content

/-- What the byte has before it is written: the value in the frame of a page with `MODIFIED` = 1, and that of the page file else. -/
def storedByte (s : UserMem E) (e : E) (va : Nat) : Option UInt8 :=
  let p := s.run.paging.page e va
  if p.present ∧ p.perm.getLsbD 6 then some (s.data p.frame (pageOffset va))
  else (s.disk.pfReadEnvPage e va).map (· (pageOffset va))

/-- When the page is resident, it is in the working set, or its frame is mapped at no other page. -/
def Pageable (s : UserMem E) (e : E) (va : Nat) : Prop :=
  (s.run.paging.page e va).present → (∃ i ∈ (s.ws e).list, Paging.SamePage va (s.elementVa e i)) ∨ s.Alone e va

theorem Coherent.holds (h : s.Coherent e) (hva : va < userTop) (hb : s.storedByte e va = some b) : (s.cell e va).Holds b := by
  unfold storedByte at hb
  dsimp only at hb
  by_cases hpresent : (s.run.paging.page e va).present
  · rw [cell_present hpresent]
    cases hmodified : (s.run.paging.page e va).perm.getLsbD 6 with
    | true =>
      rw [if_pos ⟨hpresent, hmodified⟩] at hb
      rw [Option.some.inj hb]
      exact Cell.holds_modified ..
    | false =>
      rw [if_neg fun hx => Bool.false_ne_true (hmodified.symm.trans hx.2)] at hb
      obtain ⟨content, hcontent, rfl⟩ := Option.map_eq_some_iff.mp hb
      rw [hcontent, h va hva hpresent hmodified content hcontent]
      refine ⟨fun w modified hw => ?_, fun _ => rfl⟩
      cases hw
      rfl
  · rw [if_neg fun hx => hpresent hx.1] at hb
    rw [cell_unmapped (Bool.eq_false_iff.mpr hpresent), hb]
    exact ⟨fun _ _ hw => absurd hw.symm (Option.some_ne_none _), fun _ => rfl⟩

theorem Pageable.alone (h : s.Pageable e va) (hws : WsInv s e) : s.Alone e va := by
  intro f d q hm hm'
  rcases h hm.1 with ⟨i, hi, hsame⟩ | halone
  · exact hws.alone hi hsame f d q hm hm'
  · exact halone f d q hm hm'

variable [DecidableEq E] {all : List PageNo} {boot : PageNo → Nat}

/-- A program without segments has the page of its stack. -/
theorem envCreate_stack {pageWsSize : Nat} {progName : String} {q : Nat} (h : MemInv all boot s) (hunused : Unused s e)
    (hs : s.envCreate e pageWsSize progName [] = some t) (hq : ¬ Paging.SamePage q stackVa) : t.run.paging.page e q = {} := by
  obtain ⟨s₂, hs₂, hs⟩ := Option.bind_eq_some_iff.mp hs
  obtain ⟨s₃, hs₃, hs⟩ := Option.bind_eq_some_iff.mp hs
  obtain ⟨⟨r, p⟩, hr, hs⟩ := Option.bind_eq_some_iff.mp hs
  obtain ⟨-, heq⟩ := Option.ite_none_left_eq_some.mp hs
  cases heq
  have hinit : Loading all boot e pageWsSize [] s (s.initializeEnvironment e pageWsSize) := loading_init h hunused
  have hlist : ((s.initializeEnvironment e pageWsSize).ws e).list = [] := List.eq_nil_of_length_eq_zero hinit.length
  rw [hlist] at hs₂
  cases hs₂
  have h₃ := hinit.mapStackPage (fun p hp => absurd hp List.not_mem_nil) hs₃
  have hlength : (s₃.ws e).list.length = 1 := h₃.length
  rw [hlength] at hr
  obtain ⟨-, hpage, -⟩ := h₃.mem.walk.kmalloc (by decide) hr
  show r.paging.page e q = {}
  rw [hpage]
  exact h₃.empty q fun p hp => List.mem_singleton.mp hp ▸ hq

end UserMem

end Fos.Mem

namespace Fos.Trap
open Lib Heap Disk Mem

namespace KernelRun

variable {E : Type} [DecidableEq E] {s t : KernelRun E} {ev : UserEvent E} {evs : List (UserEvent E)} {e : E} {va n k : Nat}
  {x : Option UInt8}

/-- What a process does: it accesses its bytes, and its page faults are handled; the clock counts the time stamps of its pages. -/
def Own (e : E) : UserEvent E → Prop
  | .read d va => d = e ∧ va < userTop
  | .write d va _ => d = e ∧ va < userTop
  | .kernel (.fault d _ va) => d = e ∧ va < 4294967296
  | .kernel (.updateTimeStamps d) => d = e
  | _ => False

/-- The value that the byte at `va` gets. -/
def written (va : Nat) (x : Option UInt8) : UserEvent E → Option UInt8
  | .write _ v b => if v = va then some b else x
  | _ => x

/-- The value that was written last, or `x` when none was. -/
def lastWritten (va : Nat) (x : Option UInt8) (evs : List (UserEvent E)) : Option UInt8 := evs.foldl (written va) x

/-- A process that has exited does not come back. -/
theorem Own.running (hown : Own e ev) (hs : s.userStep ev = some t) (he : t.running e) : s.running e := by
  cases ev with
  | read d v =>
    obtain ⟨r, -, rfl⟩ := Option.map_eq_some_iff.mp hs
    exact he
  | write d v b =>
    obtain ⟨m, -, rfl⟩ := Option.map_eq_some_iff.mp hs
    exact he
  | kernel ev =>
    cases ev with
    | fault d userTrap v =>
      obtain ⟨⟨u, o⟩, -, hs⟩ := Option.bind_eq_some_iff.mp hs
      cases o with
      | kernelFault => exact absurd hs.symm (Option.some_ne_none _)
      | served =>
        cases hs
        exact he
      | exit =>
        cases hs
        exact (running_of_update he).2
    | updateTimeStamps d =>
      obtain ⟨m, -, rfl⟩ := Option.map_eq_some_iff.mp hs
      exact he
    | memory _ => exact hown.elim
    | envCreate _ _ _ _ => exact hown.elim
    | allocateUserMem _ _ _ => exact hown.elim
    | freeUserMem _ _ _ => exact hown.elim
    | envPageWsInvalidate _ _ => exact hown.elim

theorem Own.running_exec (hown : ∀ ev ∈ evs, Own e ev) (hs : exec userStep s evs = some t) (he : t.running e) : s.running e := by
  induction evs generalizing s with
  | nil =>
    cases hs
    exact he
  | cons ev evs ih =>
    obtain ⟨u, hu, hs⟩ := exec_cons.mp hs
    exact (hown ev (List.mem_cons_self ..)).running hu (ih (fun x hx => hown x (List.mem_cons_of_mem _ hx)) hs)

theorem Own.accepted (hown : Own e ev) (he : s.running e) : s.PagedAccepted ev := by
  cases ev with
  | read d v =>
    obtain ⟨rfl, hv⟩ := hown
    exact ⟨⟨he, hv⟩, fun _ _ _ _ heq => by cases heq⟩
  | write d v b =>
    obtain ⟨rfl, hv⟩ := hown
    exact ⟨⟨he, hv⟩, fun _ _ _ _ heq => by cases heq⟩
  | kernel ev =>
    cases ev with
    | fault d userTrap v =>
      obtain ⟨rfl, hv⟩ := hown
      exact ⟨⟨⟨he, hv⟩, trivial, trivial⟩, fun _ _ _ _ heq => by cases heq⟩
    | updateTimeStamps d => exact ⟨⟨trivial, trivial, trivial⟩, fun _ _ _ _ heq => by cases heq⟩
    | memory _ => exact hown.elim
    | envCreate _ _ _ _ => exact hown.elim
    | allocateUserMem _ _ _ => exact hown.elim
    | freeUserMem _ _ _ => exact hown.elim
    | envPageWsInvalidate _ _ => exact hown.elim

omit [DecidableEq E] in
theorem Own.not_takes {d : E} (hown : Own e ev) : ¬ s.Takes d va ev := by
  cases ev with
  | read _ _ => exact id
  | write _ _ _ => exact id
  | kernel ev =>
    cases ev with
    | fault _ _ _ => exact id
    | updateTimeStamps _ => exact id
    | memory _ => exact hown.elim
    | envCreate _ _ _ _ => exact hown.elim
    | allocateUserMem _ _ _ => exact hown.elim
    | freeUserMem _ _ _ => exact hown.elim
    | envPageWsInvalidate _ _ => exact hown.elim

/-- One step of the process. -/
theorem Own.holds (hown : Own e ev) (he : s.running e) (h : PagedInv n k s) (hs : s.userStep ev = some t) (hva : va < userTop)
    (halone : s.mem.Alone e va) (hx : ∀ b, x = some b → (s.mem.cell e va).Holds b) :
    t.mem.Alone e va ∧ ∀ b, written va x ev = some b → (t.mem.cell e va).Holds b := by
  have hpaged := h.paged (hown.accepted he) hs
  by_cases hwrite : ∃ b, ev = .write e va b
  · obtain ⟨b, rfl⟩ := hwrite
    obtain ⟨u, hu, rfl⟩ := Option.map_eq_some_iff.mp hs
    refine ⟨halone.congr (UserMem.writeByte_spec h.mem.walk hu).maps, fun c hc => ?_⟩
    obtain rfl := Option.some.inj ((if_pos rfl).symm.trans hc)
    exact UserMem.writeByte_holds h.mem.walk hu
  · have hne : ∀ b, ev ≠ .write e va b := fun b heq => hwrite ⟨b, heq⟩
    have hspares := hpaged.spares e va hva hown.not_takes hne
    have hkept : written va x ev = x := by
      cases ev with
      | write d v b =>
        obtain ⟨rfl, -⟩ := hown
        exact if_neg fun heq => hne b (by rw [heq])
      | read _ _ => rfl
      | kernel _ => rfl
    refine ⟨hspares.alone halone, fun b hb => ?_⟩
    rw [hkept] at hb
    exact (hspares.steps h.disk halone).holds (hx b hb)

/-- A run of the process. -/
theorem Own.holds_exec (hown : ∀ ev ∈ evs, Own e ev) (h : PagedInv n k s) (hs : exec userStep s evs = some t) (he : t.running e)
    (hva : va < userTop) (halone : s.mem.Alone e va) (hx : ∀ b, x = some b → (s.mem.cell e va).Holds b) :
    PagedInv n k t ∧ ∀ b, lastWritten va x evs = some b → (t.mem.cell e va).Holds b := by
  induction evs generalizing s x with
  | nil =>
    cases hs
    exact ⟨h, hx⟩
  | cons ev evs ih =>
    have hrunning := Own.running_exec hown hs he
    have hfirst := hown ev (List.mem_cons_self ..)
    obtain ⟨u, hu, hs⟩ := exec_cons.mp hs
    obtain ⟨halone', hx'⟩ := hfirst.holds hrunning h hu hva halone hx
    exact ih (fun y hy => hown y (List.mem_cons_of_mem _ hy)) (h.step (hfirst.accepted hrunning) hu) hs halone' hx'

/-- Whichever algorithm is set: a process that accesses its pages reads from a byte what it has written there last. A byte that it
    has not written has the value that was in the frame, when the page was modified in the beginning, and that of the page file
    when it was not. -/
theorem process_reads_last_written (h : PagedInv n k s) (hcoherent : s.mem.Coherent e) (hown : ∀ ev ∈ evs, Own e ev)
    (hs : exec userStep s evs = some t) (he : t.running e) (hva : va < userTop) (hpage : s.mem.Pageable e va)
    {r : UserMem E × UInt8} (hread : t.mem.readByte e va = some r) :
    ∀ b, lastWritten va (s.mem.storedByte e va) evs = some b → r.2 = b := by
  intro b hb
  have hws := h.ws e (Own.running_exec hown hs he)
  obtain ⟨hinv, hholds⟩ := Own.holds_exec hown h hs he hva (hpage.alone hws) fun b hb => hcoherent.holds hva hb
  obtain ⟨modified, hline⟩ := UserMem.readByte_line hinv.mem.walk hread
  exact (hholds b hb).line r.2 modified hline

omit [DecidableEq E] in
/-- A process that has only the page of its stack, which is modified. -/
theorem coherent_stack (hempty : ∀ q, ¬ Paging.SamePage q UserMem.stackVa → s.mem.run.paging.page e q = {})
    (hmodified : (s.mem.run.paging.page e UserMem.stackVa).perm.getLsbD 6 = true) : s.mem.Coherent e := by
  intro va _ hpresent hclean
  by_cases hsame : Paging.SamePage va UserMem.stackVa
  · rw [Paging.page_samePage hsame, hmodified] at hclean
    exact absurd hclean.symm Bool.false_ne_true
  · rw [hempty va hsame] at hpresent
    exact absurd hpresent (by decide)

/-- A process with a working set of two pages, behind the boot. -/
theorem stack_created {r : PagingRun Unit} (hboot : PagingRun.afterBoot Unit 1024 768 = some r) {s : KernelRun Unit}
    (hs : step (start r ({} : PageFile Unit).initializeDiskPageFile) (.envCreate () 2 "prog" []) = some s) :
    PagedInv 1024 768 s ∧ ∀ q, ¬ Paging.SamePage q UserMem.stackVa → s.mem.run.paging.page () q = {} := by
  have hbooted := booted_start hboot ({} : PageFile Unit).initializeDiskPageFile
  have hnew : ∀ e, ({} : PageFile Unit).pgdir e = none := fun _ => rfl
  have hinv := PagedInv.of_booted (by decide) (by decide) (by decide) hbooted hnew rfl
  have hcreate : KernelRun.Allowed (start r ({} : PageFile Unit).initializeDiskPageFile) (.envCreate () 2 "prog" []) :=
    hbooted.allowed_envCreate (by decide) (by decide) (by decide) (by decide) (by decide) ⟨by simp, .nil⟩
  have hok : KernelRun.PagedAccepted (start r ({} : PageFile Unit).initializeDiskPageFile) (.kernel (.envCreate () 2 "prog" [])) := by
    refine ⟨⟨hcreate, trivial, trivial⟩, fun e n name segs heq => ?_⟩
    cases heq
    exact fun _ hmem => absurd hmem List.not_mem_nil
  refine ⟨hinv.step hok hs, fun q hq => ?_⟩
  obtain ⟨m, hm, rfl⟩ := Option.map_eq_some_iff.mp hs
  exact UserMem.envCreate_stack hinv.mem hcreate.1 hm hq

/-- The byte is written to the page of the stack, which two more pages of the stack drive out, and is read when it is loaded again. -/
theorem process_reads_last_written_reloaded : ∃ (s u t : KernelRun Unit) (m : UserMem Unit) (b : UInt8), s.mem.Coherent () ∧
    exec userStep s [.write () 4005548032 7, .kernel (.fault () true 4005543936), .kernel (.fault () true 4005539840)] = some u ∧
    (u.mem.run.paging.page () 4005548032).present = false ∧
    exec userStep s [.write () 4005548032 7, .kernel (.fault () true 4005543936), .kernel (.fault () true 4005539840),
      .kernel (.fault () true 4005548032)] = some t ∧ t.mem.readByte () 4005548032 = some (m, b) ∧ b = 7 := by
  have hrun : ((PagingRun.afterBoot Unit 1024 768).bind fun r =>
      (step (start r { diskFreeFrameList := PageFile.frameList (pagesPerFile - 1) }) (.envCreate () 2 "prog" [])).bind fun s =>
      (exec userStep s [.write () 4005548032 7, .kernel (.fault () true 4005543936), .kernel (.fault () true 4005539840)]).bind fun u =>
      (exec userStep s [.write () 4005548032 7, .kernel (.fault () true 4005543936), .kernel (.fault () true 4005539840),
        .kernel (.fault () true 4005548032)]).bind fun t =>
      (t.mem.readByte () 4005548032).map fun _ => decide (t.running () ∧
        (s.mem.run.paging.page () UserMem.stackVa).perm.getLsbD 6 = true ∧
        (∃ i ∈ (s.mem.ws ()).list, s.mem.elementVa () i = 4005548032) ∧
        (u.mem.run.paging.page () 4005548032).present = false)) = some true := by
    rw [PagingRun.afterBoot_eq]
    decide +kernel
  obtain ⟨r, hboot, hrun⟩ := Option.bind_eq_some_iff.mp hrun
  obtain ⟨s, hs, hrun⟩ := Option.bind_eq_some_iff.mp hrun
  obtain ⟨u, hu, hrun⟩ := Option.bind_eq_some_iff.mp hrun
  obtain ⟨t, ht, hrun⟩ := Option.bind_eq_some_iff.mp hrun
  obtain ⟨⟨m, b⟩, hb, hresult⟩ := Option.map_eq_some_iff.mp hrun
  obtain ⟨hrunning, hmodified, ⟨i, hi, hva⟩, hgone⟩ := of_decide_eq_true hresult
  rw [← PageFile.initializeDiskPageFile_eq] at hs
  obtain ⟨hinv, hempty⟩ := stack_created hboot hs
  have hcoherent := coherent_stack hempty hmodified
  refine ⟨s, u, t, m, b, hcoherent, hu, hgone, ht, hb, ?_⟩
  refine process_reads_last_written hinv hcoherent (fun ev hev => ?_) ht hrunning (by decide)
    (fun _ => .inl ⟨i, hi, by rw [hva]; exact ⟨rfl, rfl⟩⟩) hb 7 rfl
  simp only [List.mem_cons, List.not_mem_nil, or_false] at hev
  rcases hev with rfl | rfl | rfl | rfl
  · exact ⟨rfl, by decide⟩
  · exact ⟨rfl, by decide⟩
  · exact ⟨rfl, by decide⟩
  · exact ⟨rfl, by decide⟩

/-- The process writes to a page of its stack; from then on, it reads without writing what is not in the page file. -/
theorem process_reads_modified : ∃ (s : KernelRun Unit) (m : UserMem Unit) (b : UInt8), PagedInv 1024 768 s ∧ s.running () ∧
    s.mem.Coherent () ∧ (∃ i ∈ (s.mem.ws ()).list, s.mem.elementVa () i = 4005548032) ∧
    (s.mem.disk.pfReadEnvPage () 4005548032).map (· (UserMem.pageOffset 4005548032)) = some 0 ∧
    s.mem.readByte () 4005548032 = some (m, b) ∧ b = 7 := by
  have hrun : ((PagingRun.afterBoot Unit 1024 768).bind fun r =>
      (step (start r { diskFreeFrameList := PageFile.frameList (pagesPerFile - 1) }) (.envCreate () 2 "prog" [])).bind fun s₁ =>
      (userStep s₁ (.write () 4005548032 7)).bind fun s => (s.mem.readByte () 4005548032).map fun r => decide (s.running () ∧
        (s.mem.run.paging.page () UserMem.stackVa).perm.getLsbD 6 = true ∧
        (∃ i ∈ (s.mem.ws ()).list, s.mem.elementVa () i = 4005548032) ∧
        (s.mem.disk.pfReadEnvPage () 4005548032).map (· (UserMem.pageOffset 4005548032)) = some 0 ∧ r.2 = 7)) = some true := by
    rw [PagingRun.afterBoot_eq]
    decide +kernel
  obtain ⟨r, hboot, hrun⟩ := Option.bind_eq_some_iff.mp hrun
  obtain ⟨s₁, hs₁, hrun⟩ := Option.bind_eq_some_iff.mp hrun
  obtain ⟨s, hs, hrun⟩ := Option.bind_eq_some_iff.mp hrun
  obtain ⟨⟨m, b⟩, hb, hresult⟩ := Option.map_eq_some_iff.mp hrun
  obtain ⟨hrunning, hmodified, hi, hfile, hread⟩ := of_decide_eq_true hresult
  rw [← PageFile.initializeDiskPageFile_eq] at hs₁
  obtain ⟨hinv, hempty⟩ := stack_created hboot hs₁
  have hown : Own () (.write () 4005548032 7) := ⟨rfl, by decide⟩
  refine ⟨s, m, b, hinv.step (hown.accepted (hown.running hs hrunning)) hs, hrunning, coherent_stack (fun q hq => ?_) hmodified, hi,
    hfile, hb, hread⟩
  obtain ⟨w, hw, rfl⟩ := Option.map_eq_some_iff.mp hs
  exact ((UserMem.writeByte_spec hinv.mem.walk hw).page.others () q fun hsame => hq hsame.2).trans (hempty q hq)

end KernelRun

end Fos.Trap
