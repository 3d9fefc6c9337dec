import Fos.Proc.LoadCells
import Fos.Trap.UserRun

/-! Demand paging and flat memory: whatever is evicted and loaded, a process reads from a byte what it has written there last. -/

namespace Fos.Mem
open Lib Heap Disk Frames

namespace PagingRun

variable {D : Type} [DecidableEq D] {all : List PageNo} {boot : PageNo → Nat} {s t : PagingRun D} {d : D} {i : Fin 1024}

/-- Calls keep the tables of a directory. -/
theorem Calls.pde_ne_none (h : Calls all boot s t) (hs : s.paging.pde d i ≠ none) : t.paging.pde d i ≠ none := by
  obtain ⟨x, hx⟩ := Option.ne_none_iff_exists'.mp hs
  rw [h.grows.pde d i x hx]
  exact Option.some_ne_none x

end PagingRun

end Fos.Mem

namespace Fos.Trap
open Lib Heap Disk Mem

/-- The bytes of flat memory of each process, as far as they are known. -/
def Flat (E : Type) : Type := E → Nat → Option UInt8

namespace KernelRun

variable {E : Type} [DecidableEq E] {s₀ s t : KernelRun E} {ev : UserEvent E} {d e : E} {va n k : Nat} {b : UInt8} {m : Flat E}

/-- The step takes the page of the byte from the process: the page is freed, invalidated or written in the table by others than
    the fault handler, or the process is new. -/
def Takes (s : KernelRun E) (e : E) (va : Nat) : UserEvent E → Prop
  | .kernel (.memory ev) => ev.Touches e va ∨ ∃ f, s.mem.run.paging.Maps e va f ∧ ev.MapsFrame f
  | .kernel (.envCreate d _ _ _) => d = e
  | .kernel (.freeUserMem d v size) => d = e ∧ ∃ p ∈ pagesOf v size, Paging.SamePage va p
  | .kernel (.envPageWsInvalidate d v) => d = e ∧ Paging.SamePage va v
  | _ => False

open Classical in
/-- Flat memory after a step. A byte of a frame that is mapped at several pages is not followed. -/
noncomputable def flatAfter (s : KernelRun E) (m : Flat E) : UserEvent E → Flat E
  | .write d v b => fun e va => if e = d ∧ va = v then if s.mem.Alone d v then some b else none else m e va
  | ev => fun e va => if s.Takes e va ev then none else m e va

/-- What is known after a step was just written, or was known before. -/
theorem flatAfter_eq_some (h : s.flatAfter m ev e va = some b) : ev = .write e va b ∧ s.mem.Alone e va ∨
    m e va = some b ∧ ¬ s.Takes e va ev ∧ ∀ c, ev ≠ .write e va c := by
  cases ev with
  | write d v c =>
    unfold flatAfter at h
    dsimp only at h
    split at h
    case isTrue heq =>
      obtain ⟨rfl, rfl⟩ := heq
      obtain ⟨halone, hbyte⟩ := Option.ite_none_right_eq_some.mp h
      exact .inl ⟨by rw [Option.some.inj hbyte], halone⟩
    case isFalse hne =>
      refine .inr ⟨h, id, fun c' heq => hne ?_⟩
      cases heq
      exact ⟨rfl, rfl⟩
  | read d v =>
    obtain ⟨htakes, hold⟩ := Option.ite_none_left_eq_some.mp h
    exact .inr ⟨hold, htakes, fun c heq => by cases heq⟩
  | kernel ev =>
    obtain ⟨htakes, hold⟩ := Option.ite_none_left_eq_some.mp h
    exact .inr ⟨hold, htakes, fun c heq => by cases heq⟩

/-- The kernel and the processes beside flat memory. -/
noncomputable def flatStep (x : KernelRun E × Flat E) (ev : UserEvent E) : Option (KernelRun E × Flat E) :=
  (x.1.userStep ev).map fun t => (t, x.1.flatAfter x.2 ev)

theorem flatAfter_write (h : s.mem.Alone e va) : s.flatAfter m (.write e va b) e va = some b := by
  unfold flatAfter
  dsimp only
  rw [if_pos ⟨rfl, rfl⟩, if_pos h]

theorem flatStep_of (h : s.userStep ev = some t) : flatStep (s, m) ev = some (t, s.flatAfter m ev) := by
  unfold flatStep
  dsimp only
  rw [h, Option.map_some]

/-- Faults take nothing from a process. -/
theorem flatStep_fault {userTrap : Bool} (h : s.userStep (.kernel (.fault e userTrap va)) = some t) :
    flatStep (s, m) (.kernel (.fault e userTrap va)) = some (t, m) := by
  rw [flatStep_of h]
  congr 2
  funext d v
  exact if_neg id

/-- The programs have no segment with more bytes in the file than in memory. -/
def PagedAccepted (s : KernelRun E) (ev : UserEvent E) : Prop :=
  s.UserAccepted ev ∧ ∀ e n name segs, ev = .kernel (.envCreate e n name segs) → ∀ seg ∈ segs, seg.Fits

/-- What is known of flat memory is not lost: the byte is in its frame, and if this is not modified also in the page file. -/
def Follows (m : Flat E) (s : KernelRun E) : Prop :=
  ∀ e va b, s.running e → m e va = some b → va < userTop ∧ s.mem.Alone e va ∧ (s.mem.cell e va).Holds b

/-- The page file is in order, and what has pages there has tables. -/
structure PagedInv (n k : Nat) (s : KernelRun E) : Prop extends UserInv n k s where
  disk : s.mem.disk.Inv
  known : ∀ x, s.mem.disk.hold x ≠ none → ∃ i, s.mem.run.paging.pde x.1 i ≠ none
  tables : ∀ e, s.running e → ∃ i, s.mem.run.paging.pde e i ≠ none

omit [DecidableEq E] in
/-- An environment that is not in use has no page in the page file. -/
theorem PagedInv.unknown (h : PagedInv n k s) (hunused : s.mem.Unused e) : ∀ x, x.1 = e → s.mem.disk.hold x = none := by
  rintro x rfl
  by_contra hx
  obtain ⟨i, hi⟩ := h.known x hx
  exact hi (hunused.pde i)

/-- What a step does to the bytes of the processes that run. -/
structure Paged (ev : UserEvent E) (s t : KernelRun E) : Prop where
  disk : t.mem.disk.Inv
  held : ∀ x, t.mem.disk.hold x ≠ none → s.mem.disk.hold x ≠ none ∨ ∃ i, t.mem.run.paging.pde x.1 i ≠ none
  tables : ∀ e, t.running e → s.running e ∨ ∃ i, t.mem.run.paging.pde e i ≠ none
  running : ∀ e va, t.running e → ¬ s.Takes e va ev → s.running e
  spares : ∀ e va, va < userTop → ¬ s.Takes e va ev → (∀ b, ev ≠ .write e va b) → UserMem.Spares e va s.mem t.mem

theorem PagedInv.made (h : PagedInv n k s) (hok : s.UserAccepted ev) (hs : s.userStep ev = some t) {i : Fin 1024}
    (hd : s.mem.run.paging.pde d i ≠ none) : t.mem.run.paging.pde d i ≠ none := by
  have haccess : ∀ {e va write p f}, s.mem.run.paging.access e va write = some (p, f) → p.pde d i ≠ none := by
    intro e va write p f hp
    obtain ⟨-, -, -, hc⟩ := UserMem.access_spec h.mem.walk hp
    exact (PagingRun.Calls.single h.mem.walk hc).pde_ne_none hd
  cases ev with
  | kernel ev =>
    obtain ⟨haccepted, hrespects, hnew⟩ := hok
    exact (step_made h.mem h.hand haccepted hnew (fun e va size hev => by subst hev; exact hrespects) hs).pde_ne_none hd
  | read e va =>
    obtain ⟨⟨m, b⟩, hm, rfl⟩ := Option.map_eq_some_iff.mp hs
    obtain ⟨⟨p, f⟩, hp, heq⟩ := Option.map_eq_some_iff.mp hm
    cases heq
    exact haccess hp
  | write e va b =>
    obtain ⟨m, hm, rfl⟩ := Option.map_eq_some_iff.mp hs
    obtain ⟨⟨p, f⟩, hp, rfl⟩ := Option.map_eq_some_iff.mp hm
    exact haccess hp

omit [DecidableEq E] in
/-- A step that leaves the page file as it is and starts no environment. -/
theorem paged_of_disk {m : UserMem E} (h : PagedInv n k s) (hdisk : m.disk = s.mem.disk)
    (hspares : ∀ e va, va < userTop → ¬ s.Takes e va ev → (∀ b, ev ≠ .write e va b) → UserMem.Spares e va s.mem m) :
    Paged ev s (s.setMem m) where
  disk := by
    show m.disk.Inv
    rw [hdisk]
    exact h.disk
  held x hx := .inl (hdisk ▸ hx)
  tables e he := .inl he
  running _ _ he _ := he
  spares := hspares

omit [DecidableEq E] in
/-- A fault of `e`, after which fewer environments run. -/
theorem paged_of_fault {u : Kernel E} {running : E → Bool} {userTrap : Bool} (h : PagedInv n k s) (he : s.running e)
    (hcaches : UserMem.Caches e s.mem u.mem) (hrunning : ∀ d, running d → s.running d)
    (hkept : ∀ i, s.mem.run.paging.pde e i ≠ none → u.mem.run.paging.pde e i ≠ none) :
    Paged (.kernel (.fault e userTrap va)) s { kernel := u, running := running } where
  disk := hcaches.disk h.disk
  held x hx := by
    rcases hcaches.held h.disk x hx with hold | rfl
    · exact .inl hold
    · obtain ⟨i, hi⟩ := h.tables x.1 he
      exact .inr ⟨i, hkept i hi⟩
  tables d hd := .inl (hrunning d hd)
  running d _ hd _ := hrunning d hd
  spares _ _ _ _ _ := hcaches.spares

/-- One step, with a case for each event. -/
theorem PagedInv.paged (h : PagedInv n k s) (hok : s.PagedAccepted ev) (hs : s.userStep ev = some t) : Paged ev s t := by
  have hmade := fun (d : E) (i : Fin 1024) => h.made (d := d) (i := i) hok.1 hs
  obtain ⟨hok, hsegs⟩ := hok
  cases ev with
  | read e va =>
    obtain ⟨⟨m, b⟩, hm, rfl⟩ := Option.map_eq_some_iff.mp hs
    refine paged_of_disk h ?_ fun d v _ _ _ => UserMem.readByte_spares h.mem.walk hm
    obtain ⟨⟨p, f⟩, -, heq⟩ := Option.map_eq_some_iff.mp hm
    cases heq
    rfl
  | write e va b =>
    obtain ⟨m, hm, rfl⟩ := Option.map_eq_some_iff.mp hs
    refine paged_of_disk h (UserMem.writeByte_spec h.mem.walk hm).disk fun d v hv _ hne => ?_
    refine UserMem.writeByte_spares h.mem.walk hv hok.2 (fun heq => ?_) hm
    obtain ⟨rfl, rfl⟩ := heq
    exact hne b rfl
  | kernel ev =>
    obtain ⟨haccepted, hrespects, -⟩ := hok
    cases ev with
    | memory ev =>
      obtain ⟨r, hr, rfl⟩ := Option.map_eq_some_iff.mp hs
      obtain ⟨hallowed, huser, hplain, -⟩ : s.Allowed (.memory ev) := haccepted
      refine paged_of_disk h rfl fun d v _ hnot _ => ?_
      exact UserMem.memory_spares h.mem.walk hallowed huser hplain hr (fun ht => hnot (.inl ht))
        fun f hm hf => hnot (.inr ⟨f, hm, hf⟩)
    | envCreate e pageWsSize progName segs =>
      obtain ⟨m, hm, rfl⟩ := Option.map_eq_some_iff.mp hs
      obtain ⟨hunused, hpos, hlt, hload⟩ : s.Allowed (.envCreate e pageWsSize progName segs) := haccepted
      obtain ⟨haside, htable⟩ := UserMem.envCreate_aside h.mem hunused hpos hlt hload (hsegs e _ _ segs rfl) h.disk (h.unknown hunused) hm
      have hothers : ∀ d, d ≠ e → Function.update s.running e true d = s.running d := fun d hd => Function.update_of_ne hd ..
      refine ⟨haside.inv, fun x hx => ?_, fun d hd => ?_, fun d v hd hnot => ?_, fun d v _ hnot _ => ?_⟩
      · by_cases hxe : x.1 = e
        · exact .inr (hxe ▸ htable)
        · refine .inl fun hnone => hx ?_
          rw [← PageFile.contents_eq_none]
          exact (haside.contents x hxe).trans (PageFile.contents_eq_none.mpr hnone)
      · by_cases hde : d = e
        · exact .inr (hde ▸ htable)
        · exact .inl ((hothers d hde).symm.trans hd)
      · exact (hothers d fun heq => hnot heq.symm).symm.trans hd
      · exact haside.spares fun heq => hnot heq.symm
    | allocateUserMem e va size =>
      obtain ⟨m, hm, rfl⟩ := Option.map_eq_some_iff.mp hs
      refine paged_of_disk h ?_ fun d v _ _ _ => UserMem.allocateUserMem_spares h.mem.walk hrespects hm
      obtain ⟨p, -, rfl⟩ := Option.map_eq_some_iff.mp hm
      rfl
    | freeUserMem e va size =>
      obtain ⟨m, hm, rfl⟩ := Option.map_eq_some_iff.mp hs
      have hfree := UserMem.freePages_spares h.mem h.disk hm
      refine ⟨(hfree e va).1, fun x hx => .inl ((hfree e va).2.1 x hx), fun d hd => .inl hd, fun _ _ hd _ => hd,
        fun d v _ hnot _ => ?_⟩
      refine (hfree d v).2.2 fun p hp heq => hnot ?_
      obtain ⟨rfl, hsame⟩ := heq
      exact ⟨rfl, p, hp, hsame⟩
    | envPageWsInvalidate e va =>
      obtain ⟨m, hm, rfl⟩ := Option.map_eq_some_iff.mp hs
      refine paged_of_disk h ?_ fun d v _ hnot _ => UserMem.envPageWsInvalidate_spares h.mem (fun heq => hnot ?_) hm
      · obtain ⟨-, rfl⟩ | ⟨wse, -, hinv⟩ := UserMem.envPageWsInvalidate_spec h.mem hm
        · rfl
        · exact hinv.disk
      · obtain ⟨rfl, hsame⟩ := heq
        exact ⟨rfl, hsame⟩
    | updateTimeStamps e =>
      obtain ⟨m, hm, rfl⟩ := Option.map_eq_some_iff.mp hs
      obtain ⟨haged, -⟩ := UserMem.updateTimeStamps_spec h.mem.walk hm
      exact paged_of_disk h haged.disk fun d v _ _ _ => (UserMem.updateTimeStamps_caches h.mem.walk hm).spares
    | fault e userTrap va =>
      obtain ⟨⟨u, o⟩, hu, hs⟩ := Option.bind_eq_some_iff.mp hs
      obtain ⟨hrunning, -⟩ : s.Allowed (.fault e userTrap va) := haccepted
      have hcaches := Kernel.pageFaultTrap_caches h.mem (h.hand e hrunning) (h.ws e hrunning) hu
      cases o with
      | kernelFault => exact absurd hs.symm (Option.some_ne_none _)
      | served =>
        cases hs
        exact paged_of_fault h hrunning hcaches (fun _ => id) (hmade e)
      | exit =>
        cases hs
        exact paged_of_fault h hrunning hcaches (fun d hd => (running_of_update hd).2) (hmade e)

theorem PagedInv.step (h : PagedInv n k s) (hok : s.PagedAccepted ev) (hs : s.userStep ev = some t) : PagedInv n k t := by
  have hpaged := h.paged hok hs
  have hmade := fun (d : E) (i : Fin 1024) => h.made (d := d) (i := i) hok.1 hs
  refine ⟨h.toUserInv.step hok.1 hs, hpaged.disk, fun x hx => ?_, fun e he => ?_⟩
  · rcases hpaged.held x hx with hold | htable
    · obtain ⟨i, hi⟩ := h.known x hold
      exact ⟨i, hmade _ i hi⟩
    · exact htable
  · rcases hpaged.tables e he with hold | htable
    · obtain ⟨i, hi⟩ := h.tables e hold
      exact ⟨i, hmade _ i hi⟩
    · exact htable

theorem PagedInv.of_booted (hmin : 160 ≤ n) (hn : n ≤ 1048576) (hk : 256 ≤ k) (hboot : Booted n k s) {disk : PageFile E}
    (hnew : ∀ e, disk.pgdir e = none) (hdisk : s.mem.disk = disk.initializeDiskPageFile) : PagedInv n k s := by
  refine ⟨.of_booted hmin hn hk hboot, ?_, fun x hx => ?_, fun e he => absurd he (hboot.not_running e)⟩
  · rw [hdisk]
    exact PageFile.inv_init hnew
  · refine absurd ?_ hx
    rw [hdisk]
    show ((disk.pgdir x.1).bind _).bind _ = none
    rw [hnew, Option.bind_none, Option.bind_none]

/-- One step of flat memory. -/
theorem Follows.step (hm : Follows m s) (h : PagedInv n k s) (hok : s.PagedAccepted ev) (hs : s.userStep ev = some t) :
    Follows (s.flatAfter m ev) t := by
  have hpaged := h.paged hok hs
  intro e va b he hb
  rcases flatAfter_eq_some hb with ⟨rfl, halone⟩ | ⟨hold, hnot, hne⟩
  · obtain ⟨u, hu, rfl⟩ := Option.map_eq_some_iff.mp hs
    exact ⟨hok.1.2, halone.congr (UserMem.writeByte_spec h.mem.walk hu).maps, UserMem.writeByte_holds h.mem.walk hu⟩
  · obtain ⟨hlt, halone, hholds⟩ := hm e va b (hpaged.running e va he hnot) hold
    have hspares := hpaged.spares e va hlt hnot hne
    exact ⟨hlt, hspares.alone halone, (hspares.steps h.disk halone).holds hholds⟩

/-- In every run from the boot, whichever algorithm is set and however the processes are interleaved: from any state on, every
    byte that a process reads has the value of flat memory, which starts with what is in the page file or in modified frames. What
    is written to a page of the working set is in flat memory from then on. -/
theorem demand_paging_loses_no_write (hmin : 160 ≤ n) (hn : n ≤ 1048576) (hk : 256 ≤ k) (hboot : Booted n k s₀) {disk : PageFile E}
    (hnew : ∀ e, disk.pgdir e = none) (hdisk : s₀.mem.disk = disk.initializeDiskPageFile)
    (hr : Reach userStep PagedAccepted s₀ s) (hm : Follows m s) {x : KernelRun E × Flat E}
    (hrun : Reach flatStep (fun x ev => x.1.PagedAccepted ev) (s, m) x) :
    Follows x.2 x.1 ∧ (∀ e va b r, x.1.running e → x.2 e va = some b → x.1.mem.readByte e va = some r → r.2 = b) ∧
      ∀ e va b, x.1.running e → (∃ i ∈ (x.1.mem.ws e).list, Paging.SamePage va (x.1.mem.elementVa e i)) →
        x.1.flatAfter x.2 (.write e va b) e va = some b := by
  have hs : PagedInv n k s := hr.invariant (.of_booted hmin hn hk hboot hnew hdisk) fun _ _ _ h hok hs => h.step hok hs
  obtain ⟨hinv, hfollows⟩ := hrun.invariant (I := fun x => PagedInv n k x.1 ∧ Follows x.2 x.1) ⟨hs, hm⟩ fun x ev y h hok hy => by
    obtain ⟨t, ht, rfl⟩ := Option.map_eq_some_iff.mp hy
    exact ⟨h.1.step hok ht, h.2.step h.1 hok ht⟩
  refine ⟨hfollows, fun e va b r he hb hread => ?_, fun e va b he hw => ?_⟩
  · obtain ⟨-, -, hholds⟩ := hfollows e va b he hb
    obtain ⟨modified, hline⟩ := UserMem.readByte_line hinv.mem.walk hread
    exact hholds.line r.2 modified hline
  · obtain ⟨i, hi, hsame⟩ := hw
    exact flatAfter_write ((hinv.ws e he).alone hi hsame)

/-- Of three pages of the heap only one fits into the working set beside the page of the stack: the byte that is written to the first
    goes to the page file and comes back. -/
theorem demand_paging_loses_no_write_reloaded : ∃ (s₀ s u t : KernelRun Unit) (m : UserMem Unit) (b : UInt8), Booted 1024 768 s₀ ∧
    exec userStep s₀ [.kernel (.envCreate () 2 "prog" []), .kernel (.allocateUserMem () 2147483648 12288),
      .kernel (.fault () true 2147483648)] = some s ∧
    exec userStep s [.write () 2147483648 7, .kernel (.fault () true 2147487744), .kernel (.fault () true 2147491840)] = some u ∧
    (u.mem.run.paging.page () 2147483648).present = false ∧ u.userStep (.kernel (.fault () true 2147483648)) = some t ∧
    t.mem.readByte () 2147483648 = some (m, b) ∧ b = 7 := by
  have hrun : ((PagingRun.afterBoot Unit 1024 768).bind fun r₀ =>
      (step (start r₀ { diskFreeFrameList := PageFile.frameList (pagesPerFile - 1) }) (.envCreate () 2 "prog" [])).bind fun s₁ =>
      (step s₁ (.allocateUserMem () 2147483648 12288)).bind fun s₂ => (step s₂ (.fault () true 2147483648)).bind fun s =>
      (userStep s (.write () 2147483648 7)).bind fun u₁ => (step u₁ (.fault () true 2147487744)).bind fun u₂ =>
      (step u₂ (.fault () true 2147491840)).bind fun u => (step u (.fault () true 2147483648)).bind fun t =>
      (t.mem.readByte () 2147483648).map fun _ => decide (
        ((s₁.mem.run.paging.page () 2147483648).present = false ∧ (s₁.mem.run.paging.page () 2147487744).present = false ∧
          (s₁.mem.run.paging.page () 2147491840).present = false) ∧ (s₂.running () ∧ s.running () ∧ u₁.running () ∧ u₂.running () ∧
            u.running () ∧ t.running ()) ∧ (∃ i ∈ (s.mem.ws ()).list, s.mem.elementVa () i = 2147483648) ∧
              (u.mem.run.paging.page () 2147483648).present = false)) = some true := by
    rw [PagingRun.afterBoot_eq]
    decide +kernel
  obtain ⟨r₀, hboot, hrun⟩ := Option.bind_eq_some_iff.mp hrun
  obtain ⟨s₁, hs₁, hrun⟩ := Option.bind_eq_some_iff.mp hrun
  obtain ⟨s₂, hs₂, hrun⟩ := Option.bind_eq_some_iff.mp hrun
  obtain ⟨s, hs, hrun⟩ := Option.bind_eq_some_iff.mp hrun
  obtain ⟨u₁, hu₁, hrun⟩ := Option.bind_eq_some_iff.mp hrun
  obtain ⟨u₂, hu₂, hrun⟩ := Option.bind_eq_some_iff.mp hrun
  obtain ⟨u, hu, hrun⟩ := Option.bind_eq_some_iff.mp hrun
  obtain ⟨t, ht, hrun⟩ := Option.bind_eq_some_iff.mp hrun
  obtain ⟨⟨m, b⟩, hb, hresult⟩ := Option.map_eq_some_iff.mp hrun
  obtain ⟨⟨hfirst, hsecond, hthird⟩, ⟨h₂, h, hr₁, hr₂, hr, hrt⟩, ⟨i, hi, hva⟩, hgone⟩ := of_decide_eq_true hresult
  rw [← PageFile.initializeDiskPageFile_eq] at hs₁
  have hboot := booted_start hboot ({} : PageFile Unit).initializeDiskPageFile
  have hnone : ∀ p ∈ pagesOf 2147483648 12288, (s₁.mem.run.paging.page () p).present = false := by
    intro p hp
    have hp : p ∈ [2147483648, 2147487744, 2147491840] := hp
    simp only [List.mem_cons, List.not_mem_nil, or_false] at hp
    rcases hp with rfl | rfl | rfl
    · exact hfirst
    · exact hsecond
    · exact hthird
  have hcreate : KernelRun.Allowed (start r₀ ({} : PageFile Unit).initializeDiskPageFile) (.envCreate () 2 "prog" []) :=
    hboot.allowed_envCreate (by decide) (by decide) (by decide) (by decide) (by decide) ⟨by simp, .nil⟩
  have hfault : ∀ (s : KernelRun Unit) va, s.running () → va < 4294967296 → s.PagedAccepted (.kernel (.fault () true va)) :=
    fun s va hs hva => ⟨⟨⟨hs, hva⟩, trivial, trivial⟩, fun _ _ _ _ heq => by cases heq⟩
  have hreach : Reach userStep PagedAccepted (start r₀ ({} : PageFile Unit).initializeDiskPageFile) s := by
    refine .step (.kernel (.fault () true 2147483648)) (.step (.kernel (.allocateUserMem () 2147483648 12288))
      (.step (.kernel (.envCreate () 2 "prog" [])) .init ⟨⟨hcreate, trivial, trivial⟩, fun e n name segs heq => ?_⟩ hs₁)
      ⟨⟨⟨by decide, fun p hp hpresent => ?_⟩, hnone, trivial⟩, fun _ _ _ _ heq => by cases heq⟩ hs₂) (hfault _ _ h₂ (by decide)) hs
    · cases heq
      exact fun _ hmem => absurd hmem List.not_mem_nil
    · exact absurd (hnone p hp) (by simp [hpresent])
  have hempty : Follows (fun _ _ => none) s := fun _ _ _ _ hb => absurd hb.symm (Option.some_ne_none _)
  -- the first page is in the working set, so what is written there is followed
  obtain ⟨-, -, hwritten⟩ := demand_paging_loses_no_write (by decide) (by decide) (by decide) hboot (fun _ => rfl) rfl hreach hempty .init
  have hwritten := hwritten () 2147483648 7 h ⟨i, hi, by rw [hva]; exact ⟨rfl, rfl⟩⟩
  have hflat : Reach flatStep (fun x ev => x.1.PagedAccepted ev) (s, fun _ _ => none)
      (t, s.flatAfter (fun _ _ => none) (.write () 2147483648 7)) :=
    .step (.kernel (.fault () true 2147483648)) (.step (.kernel (.fault () true 2147491840))
      (.step (.kernel (.fault () true 2147487744)) (.step (.write () 2147483648 7) .init
        ⟨⟨h, by decide⟩, fun _ _ _ _ heq => by cases heq⟩ (flatStep_of hu₁))
        (hfault _ _ hr₁ (by decide)) (flatStep_fault hu₂)) (hfault _ _ hr₂ (by decide)) (flatStep_fault hu))
      (hfault _ _ hr (by decide)) (flatStep_fault ht)
  obtain ⟨-, hread, -⟩ := demand_paging_loses_no_write (by decide) (by decide) (by decide) hboot (fun _ => rfl) rfl hreach hempty hflat
  exact ⟨_, s, u, t, m, b, hboot, exec_cons.mpr ⟨s₁, hs₁, exec_cons.mpr ⟨s₂, hs₂, exec_cons.mpr ⟨s, hs, rfl⟩⟩⟩,
    exec_cons.mpr ⟨u₁, hu₁, exec_cons.mpr ⟨u₂, hu₂, exec_cons.mpr ⟨u, hu, rfl⟩⟩⟩, hgone, ht, hb, hread () _ 7 (m, b) hrt hwritten hb⟩

end KernelRun

end Fos.Trap
