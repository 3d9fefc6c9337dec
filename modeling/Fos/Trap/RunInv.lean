import Fos.Trap.Run
import Fos.Disk.PageFileInv

/-! What a fault does to the memory as a whole, and what every run of the kernel keeps. -/

namespace Fos.Mem.PagingRun
open Lib Heap Disk Frames

variable {D : Type} [DecidableEq D] {all : List PageNo} {boot : PageNo → Nat} {r r' : PagingRun D} {va ptr : Nat} {t : PageNo} {d : D}

omit [DecidableEq D] in
/-- A table of the kernel half: a page of the heap that is no table of a user directory is cleared. -/
theorem WalkInv.kernelTable (h : r.WalkInv all boot) (hr : r.kmalloc pageSize = some (r', ptr)) (hptr : ptr ≠ 0)
    (hframe : Paging.frameAt r'.paging.heap ptr = some t) :
    WalkInv all boot { r' with paging := { r'.paging with heap := { r'.paging.heap with
      mem := Paging.clearTable r'.paging.heap.mem t } } } ∧
    (∀ d va, Paging.page { r'.paging with heap := { r'.paging.heap with mem := Paging.clearTable r'.paging.heap.mem t } } d va =
      r.paging.page d va) ∧ r'.live = ptr :: r.live := by
  obtain ⟨h', hpage, -, hlive⟩ := h.kmalloc (by decide) hr
  obtain ⟨⟨tables, hi⟩, hl⟩ := h
  obtain ⟨⟨tables', hi'⟩, hl'⟩ := h'
  obtain ⟨hk, hpde⟩ : r.paging.heap.kmalloc pageSize = some (r'.paging.heap, ptr) ∧ r'.paging.pde = r.paging.pde := by
    obtain ⟨⟨k, p⟩, hk, heq⟩ := Option.map_eq_some_iff.mp hr
    cases heq
    exact ⟨hk, rfl⟩
  obtain ⟨-, hfresh, hclear⟩ := hi.fresh_page hk hptr hframe
  obtain ⟨F, lost, howned⟩ := hi.owned
  have hsteps := howned.kmalloc_steps (by decide) hk
  obtain ⟨F', ha'⟩ := hi'.accounts
  have hempty : ∀ i, r'.paging.heap.mem.hold (.user t i) = none := by
    intro i
    simp only [Frames.hold, hsteps.pte_user]
    exact hclear i
  obtain ⟨ha, hhold⟩ := Paging.clearTable_accounts ha' hempty
  refine ⟨⟨⟨tables', hi'.setMem ha (fun p => by rw [hhold]) fun x i hne => ?_⟩, hl'.of_mem fun p f hp => ?_⟩, fun d va => ?_, ?_⟩
  · rw [hhold] at hne
    exact hi'.entry x i hne
  · rw [hhold] at hp ⊢
    exact hl'.rooted p f hp
  · unfold Paging.page
    dsimp only
    rw [hpde]
    cases hd : r.paging.pde d (pdx va) with
    | none => rfl
    | some x =>
      dsimp only
      rw [Paging.pte_clearTable, if_neg, hsteps.pte_user]
      rintro rfl
      exact hfresh d _ hd
  · rw [hlive, if_neg hptr]

/-- Pointers of the kernel heap stay live until they are freed. -/
theorem tableStep_live {ev : TableEvent D} {x : Nat} (hs : r.tableStep ev = some r') (hx : x ∈ r.live)
    (hne : ev ≠ .paging (.kfree x)) : x ∈ r'.live := by
  cases ev with
  | createPageTable dir va =>
    obtain ⟨p, -, rfl⟩ := Option.map_eq_some_iff.mp hs
    exact hx
  | paging ev =>
    cases ev with
    | kmalloc size =>
      obtain ⟨⟨k, va⟩, -, rfl⟩ := Option.map_eq_some_iff.mp hs
      dsimp only
      split
      · exact hx
      · exact List.mem_cons_of_mem _ hx
    | kfree va =>
      obtain ⟨k, -, rfl⟩ := Option.map_eq_some_iff.mp hs
      refine (List.mem_erase_of_ne ?_).mpr hx
      rintro rfl
      exact hne rfl
    | allocateFrame =>
      obtain ⟨p, -, rfl⟩ := Option.map_eq_some_iff.mp hs
      exact hx
    | mapFrame dir f va perm =>
      obtain ⟨p, -, rfl⟩ := Option.map_eq_some_iff.mp hs
      exact hx
    | unmapFrame dir va =>
      obtain ⟨p, -, rfl⟩ := Option.map_eq_some_iff.mp hs
      exact hx
    | allocPage dir va perms =>
      obtain ⟨p, -, rfl⟩ := Option.map_eq_some_iff.mp hs
      exact hx

end Fos.Mem.PagingRun

namespace Fos.Trap
open Lib Heap Disk Mem

namespace Kernel

variable {E : Type} [DecidableEq E] {all : List PageNo} {boot : PageNo → Nat} {s t : Kernel E} {e : E} {va : Nat} {userTrap : Bool}
  {o : Outcome}

omit [DecidableEq E] in
theorem entry_user (hva : va < userTop) : s.entry e (pdx va) = s.mem.run.paging.pde e (pdx va) :=
  if_pos (not_le.mp (PageFile.pdx_lt hva))

/-- The fault was for the page: the checks were passed, and the page was placed or replaced another one. -/
structure Served (s : Kernel E) (e : E) (userTrap : Bool) (va : Nat) (t : Kernel E) (o : Outcome) : Prop where
  user : va < userTop
  table : s.mem.run.paging.pde e (pdx va) ≠ none
  perms : ∃ perms, s.mem.permissions e va = some perms ∧ ¬ (userTrap ∧ invalidPointer perms va) ∧ perms &&& permPresent = 0
  handler : UserMem.pageFaultHandler s.algorithm s.mem e va = some (t.mem, o)

/-- A table was made for the address of the fault. -/
def TableMade (s : Kernel E) (e : E) (va : Nat) (t : Kernel E) : Prop :=
  s.entry e (pdx va) = none ∧ ∃ s₁ : Kernel E, s₁.mem = s.mem ∧ s₁.tableFaultHandler e va = some t

/-- What `fault_handler` does: it makes a table, it leaves the memory as it is, or it serves the page. -/
theorem faultHandler_cases (hs : s.faultHandler e userTrap va = some (t, o)) :
    TableMade s e va t ∧ o = .served ∨ t.mem = s.mem ∧ o ≠ .served ∨ Served s e userTrap va t o := by
  unfold faultHandler at hs
  generalize (if s.repeats e va then s.numRepeatedFault + 1 else 0) = n at hs
  obtain ⟨-, hs⟩ := Option.ite_none_left_eq_some.mp hs
  generalize hs₁ : ({ s with lastFaultVa := va, lastFaultedEnv := some e, numRepeatedFault := n } : Kernel E) = s₁ at hs
  have hmem : s₁.mem = s.mem := by rw [← hs₁]
  have halgorithm : s₁.algorithm = s.algorithm := by rw [← hs₁]
  have hentry : s₁.entry e (pdx va) = s.entry e (pdx va) := by rw [← hs₁]; rfl
  dsimp only at hs
  rw [hentry] at hs
  cases htable : s.entry e (pdx va) with
  | none =>
    rw [htable] at hs
    obtain ⟨t', ht', heq⟩ := Option.map_eq_some_iff.mp hs
    cases heq
    exact .inl ⟨⟨htable, s₁, hmem, ht'⟩, rfl⟩
  | some table =>
    rw [htable] at hs
    dsimp only at hs
    split at hs
    case isTrue huser =>
      obtain ⟨perms, hperms, hs⟩ := Option.bind_eq_some_iff.mp hs
      rw [hmem] at hperms
      split at hs
      case isTrue =>
        cases hs
        exact .inr (.inl ⟨hmem, nofun⟩)
      case isFalse hvalid =>
        obtain ⟨hpresent, hs⟩ := Option.ite_none_left_eq_some.mp hs
        obtain ⟨⟨m, o'⟩, hm, heq⟩ := Option.map_eq_some_iff.mp hs
        cases heq
        rw [halgorithm, hmem] at hm
        refine .inr (.inr ⟨huser, fun hnone => ?_, ⟨perms, hperms, hvalid, not_ne_iff.mp hpresent⟩, hm⟩)
        rw [entry_user huser, hnone] at htable
        exact nomatch htable
    case isFalse =>
      obtain ⟨-, hs⟩ := Option.ite_none_right_eq_some.mp hs
      cases hs
      refine .inr (.inl ⟨hmem, ?_⟩)
      split <;> exact nofun

/-- The page of a fault that is served is not mapped. -/
theorem Served.unmapped (h : Served s e userTrap va t o) (hwalk : s.mem.run.WalkInv all boot) :
    (s.mem.run.paging.page e va).present = false := by
  obtain ⟨perms, hperms, -, hpresent⟩ := h.perms
  rw [UserMem.permissions_of_table hwalk h.table] at hperms
  cases hperms
  exact decide_eq_false (by rw [hpresent]; decide)

theorem samePage_roundDown (va : Nat) : Paging.SamePage (roundDown va pageSize) va :=
  samePage_of_div (by simp only [roundDown, pageSize]; omega)

/-- How the page of a fault is served. -/
theorem Served.spec (h : Served s e userTrap va t o) (hwalk : s.mem.run.WalkInv all boot) (hhand : s.mem.HandIn e) :
    (s.mem.run.paging.page e (roundDown va pageSize)).present = false ∧ roundDown va pageSize < userTop ∧
      roundDown va pageSize % 4096 = 0 ∧
      ((s.mem.ws e).list.length < (s.mem.ws e).maxSize ∧ UserMem.Placed all boot e (roundDown va pageSize) s.mem t.mem o ∧
          t.mem.run.WalkInv all boot ∨
        UserMem.Replaced all boot e (roundDown va pageSize) s.mem t.mem o) := by
  have hunmapped : (s.mem.run.paging.page e (roundDown va pageSize)).present = false := by
    rw [Paging.page_samePage (samePage_roundDown va)]
    exact h.unmapped hwalk
  refine ⟨hunmapped, lt_of_le_of_lt (Nat.sub_le ..) h.user, by simp only [roundDown, pageSize]; omega, ?_⟩
  rcases UserMem.pageFaultHandler_spec hwalk hhand h.user hunmapped h.handler with hplaced | ⟨-, hreplaced⟩
  · exact .inl hplaced
  · exact .inr hreplaced

/-- A table that is made changes no entry. -/
theorem TableMade.spec (h : TableMade s e va t) (hmem : s.mem.MemInv all boot) :
    t.mem.MemInv all boot ∧ t.mem.ws = s.mem.ws ∧ t.mem.run.paging.page = s.mem.run.paging.page ∧ t.mem.disk = s.mem.disk ∧
      t.mem.data = s.mem.data := by
  obtain ⟨hentry, s₁, hs₁, ht⟩ := h
  unfold tableFaultHandler at ht
  rw [hs₁] at ht
  split at ht
  case isTrue huser =>
    obtain ⟨⟨p, x⟩, hp, rfl⟩ := Option.map_eq_some_iff.mp ht
    rw [entry_user huser] at hentry
    obtain ⟨⟨tables, hi⟩, hl⟩ := hmem.walk
    obtain ⟨hcreated, hl'⟩ := hi.created hl hp
    obtain ⟨ptr, hi', -⟩ := hi.createPageTable hp
    exact ⟨hmem.keep ⟨⟨_, hi'⟩, hl'⟩ (fun _ => .refl _) hmem.live, rfl, hcreated.page hentry, rfl, rfl⟩
  case isFalse =>
    obtain ⟨⟨r, ptr⟩, hr, ht⟩ := Option.bind_eq_some_iff.mp ht
    obtain ⟨hptr, ht⟩ := Option.ite_none_left_eq_some.mp ht
    obtain ⟨x, hx, rfl⟩ := Option.map_eq_some_iff.mp ht
    obtain ⟨hwalk, hpage, hlive⟩ := hmem.walk.kernelTable hr hptr hx
    refine ⟨hmem.keep hwalk (fun _ => .refl _) fun d y hy => ?_, rfl, funext fun d => funext (hpage d), rfl, rfl⟩
    show y ∈ r.live
    rw [hlive]
    exact List.mem_cons_of_mem _ (hmem.live d y hy)

/-- What a fault of `e` keeps: as long as `e` is not ended, the working sets stay sound. -/
structure Faulted (e : E) (o : Outcome) (s t : UserMem E) : Prop where
  others : ∀ d, d ≠ e → t.ws d = s.ws d
  hand : s.HandIn e → o = .served → t.HandIn e
  sound : ∀ d, (d = e → o = .served) → s.WsInv d → t.WsInv d

omit [DecidableEq E] in
theorem Faulted.of_eq {m m' : UserMem E} (hws : m'.ws = m.ws) (hmaps : m'.run.paging.Maps = m.run.paging.Maps) : Faulted e o m m' :=
  ⟨fun d _ => by rw [hws], fun h _ => h.congr (by rw [hws]),
    fun d _ h => h.keep (.of_maps hmaps fun x _ => UserMem.elementVa_congr (by rw [hws]) x) (by rw [hws])⟩

/-- `fault_handler` -/
theorem faultHandler_spec (h : s.mem.MemInv all boot) (hhand : s.mem.HandIn e) (hs : s.faultHandler e userTrap va = some (t, o)) :
    t.mem.MemInv all boot ∧ Faulted e o s.mem t.mem := by
  rcases faultHandler_cases hs with ⟨hmade, -⟩ | ⟨heq, -⟩ | hserved
  · obtain ⟨h', hws, hpage, -, -⟩ := hmade.spec h
    exact ⟨h', .of_eq hws (UserMem.maps_congr fun d q => by rw [hpage]; exact ⟨rfl, rfl⟩)⟩
  · rw [heq]
    exact ⟨h, .of_eq rfl rfl⟩
  · obtain ⟨hunmapped, hlt, halign, ⟨hroom, hplaced, hwalk⟩ | hreplaced⟩ := hserved.spec h.walk hhand
    · have h' := h.placed hwalk hplaced
      refine ⟨h', fun d => hplaced.others, fun hh _ => hh.placed hplaced, fun d ho hw => ?_⟩
      rcases eq_or_ne d e with rfl | hne
      · obtain rfl := ho rfl
        exact hw.placed (h'.nodup d) hlt halign hunmapped hroom hplaced
      · exact hw.placed_other hne hunmapped hplaced
    · refine ⟨h.replaced hreplaced, fun d => hreplaced.others, fun _ ho => ?_, fun d ho hw => ?_⟩
      · subst ho
        exact hreplaced.handIn
      · rcases eq_or_ne d e with rfl | hne
        · obtain rfl := ho rfl
          exact hw.replaced hlt halign hunmapped hreplaced
        · exact hw.replaced_other hne hunmapped hreplaced

/-- A page fault with the clock tick before it. -/
theorem pageFaultTrap_spec (h : s.mem.MemInv all boot) (hhand : s.mem.HandIn e) (hs : s.pageFaultTrap e userTrap va = some (t, o)) :
    t.mem.MemInv all boot ∧ Faulted e o s.mem t.mem := by
  obtain ⟨u, hu, hs⟩ := Option.bind_eq_some_iff.mp hs
  split at hu
  case isTrue =>
    obtain ⟨m, hm, rfl⟩ := Option.map_eq_some_iff.mp hu
    obtain ⟨haged, -⟩ := UserMem.updateTimeStamps_spec h.walk hm
    obtain ⟨h', hothers, hkept, hsound⟩ :=
      faultHandler_spec (s := s.setMem m) (h.aged haged) (hhand.updateTimeStamps h.walk hm) hs
    exact ⟨h', fun d hne => (hothers d hne).trans (haged.others d hne), fun hh => hkept (hh.updateTimeStamps h.walk hm),
      fun d ho hw => hsound d ho (hw.updateTimeStamps h.walk hm)⟩
  case isFalse =>
    cases hu
    exact faultHandler_spec h hhand hs

end Kernel

namespace KernelRun

variable {E : Type} [DecidableEq E] {s₀ s t : KernelRun E} {ev : KernelEvent E} {d e : E} {n k : Nat}

theorem running_of_update {running : E → Bool} (h : Function.update running e false d) : d ≠ e ∧ running d := by
  rcases eq_or_ne d e with rfl | hne
  · rw [Function.update_self] at h
    exact nomatch h
  · rw [Function.update_of_ne hne] at h
    exact ⟨hne, h⟩

/-- What every run keeps. -/
structure Inv (s : KernelRun E) : Prop where
  mem : ∃ all boot, s.mem.MemInv all boot
  hand : ∀ e, s.running e → s.mem.HandIn e

theorem Allowed.accepted (h : s.Allowed ev) : s.Accepted ev := by
  have hrange : ∀ {va size}, InUserHeap va size → inUserRange va size := by
    intro va size hregion
    obtain ⟨hlow, hhigh⟩ := hregion
    exact (inUserRange_iff hlow hhigh.le).mpr hhigh.ne
  cases ev with
  | allocateUserMem e va size => exact ⟨hrange h.1, h.2⟩
  | freeUserMem e va size => exact hrange h
  | memory ev => exact h
  | envCreate e pageWsSize progName segs => exact h
  | envPageWsInvalidate e va => exact h
  | updateTimeStamps e => exact h
  | fault e userTrap va => exact h

/-- One step of a run that marks no mapped page: the accounts are of the same frames as before. -/
theorem accounts_step {all : List PageNo} {boot : PageNo → Nat} (hmem : s.mem.MemInv all boot)
    (hhand : ∀ e, s.running e → s.mem.HandIn e) (hok : s.Accepted ev)
    (hmark : ∀ e va size, ev = .allocateUserMem e va size → ∀ p ∈ pagesOf va size, (s.mem.run.paging.page e p).present = false)
    (hs : s.step ev = some t) : t.mem.MemInv all boot ∧ ∀ e, t.running e → t.mem.HandIn e := by
  cases ev with
  | memory ev =>
    obtain ⟨r, hr, rfl⟩ := Option.map_eq_some_iff.mp hs
    obtain ⟨hallowed, huser, hplain, hfree⟩ : s.Allowed (.memory ev) := hok
    have hwalk := (hmem.walk.step hallowed huser hplain hr).1
    exact ⟨hmem.keep hwalk (fun _ => .refl _) fun d x hx => PagingRun.tableStep_live hr (hmem.live d x hx) (hfree d x hx), hhand⟩
  | envCreate e pageWsSize progName segs =>
    obtain ⟨m, hm, rfl⟩ := Option.map_eq_some_iff.mp hs
    obtain ⟨hunused, hpos, hlt, hload⟩ : s.Allowed (.envCreate e pageWsSize progName segs) := hok
    obtain ⟨hmem', hws, hothers⟩ := UserMem.envCreate_spec hmem hunused hpos hlt hload hm
    refine ⟨hmem', fun d hd => ?_⟩
    rcases eq_or_ne d e with rfl | hne
    · exact hws.hand
    · have hrunning : Function.update s.running e true d = s.running d := Function.update_of_ne hne ..
      exact (hhand d (hrunning.symm.trans hd)).congr (hothers d hne).1
  | allocateUserMem e va size =>
    obtain ⟨m, hm, rfl⟩ := Option.map_eq_some_iff.mp hs
    obtain ⟨hmem', hws⟩ := hmem.allocateUnmapped (hmark e va size rfl) hm
    exact ⟨hmem', fun d hd => (hhand d hd).congr (congrFun hws d)⟩
  | freeUserMem e va size =>
    obtain ⟨m, hm, rfl⟩ := Option.map_eq_some_iff.mp hs
    obtain ⟨hmem', -, -, hkept, -⟩ := UserMem.freeUserMem_spec hmem hm
    exact ⟨hmem', fun d hd => hkept d (hhand d hd)⟩
  | envPageWsInvalidate e va =>
    obtain ⟨m, hm, rfl⟩ := Option.map_eq_some_iff.mp hs
    obtain ⟨hmem', -, -, hothers, -, -, hkept, -⟩ := UserMem.invalidate_page hmem hm
    refine ⟨hmem', fun d hd => ?_⟩
    rcases eq_or_ne d e with rfl | hne
    · exact hkept (hhand d hd)
    · exact (hhand d hd).congr (hothers d hne)
  | updateTimeStamps e =>
    obtain ⟨m, hm, rfl⟩ := Option.map_eq_some_iff.mp hs
    obtain ⟨haged, -⟩ := UserMem.updateTimeStamps_spec hmem.walk hm
    exact ⟨hmem.aged haged, fun d hd => (hhand d hd).updateTimeStamps hmem.walk hm⟩
  | fault e userTrap va =>
    obtain ⟨⟨u, o⟩, hu, hs⟩ := Option.bind_eq_some_iff.mp hs
    obtain ⟨hrunning, -⟩ : s.Allowed (.fault e userTrap va) := hok
    obtain ⟨hmem', hfaulted⟩ := Kernel.pageFaultTrap_spec hmem (hhand e hrunning) hu
    cases o with
    | kernelFault => exact nomatch hs
    | served =>
      cases hs
      refine ⟨hmem', fun d hd => ?_⟩
      rcases eq_or_ne d e with rfl | hne
      · exact hfaulted.hand (hhand d hd) rfl
      · exact (hhand d hd).congr (hfaulted.others d hne)
    | exit =>
      cases hs
      refine ⟨hmem', fun d hd => ?_⟩
      obtain ⟨hne, hrunning⟩ := running_of_update hd
      exact (hhand d hrunning).congr (hfaulted.others d hne)

/-- One step of a run. -/
theorem Inv.accepted (h : s.Inv) (hok : s.Accepted ev) (hs : s.step ev = some t) : t.Inv := by
  obtain ⟨⟨all, boot, hmem⟩, hhand⟩ := h
  by_cases hev : ∃ e va size, ev = .allocateUserMem e va size
  · obtain ⟨e, va, size, rfl⟩ := hev
    obtain ⟨m, hm, rfl⟩ := Option.map_eq_some_iff.mp hs
    obtain ⟨hmem', hws⟩ := hmem.allocateUserMem hok.2 hm
    exact ⟨hmem', fun d hd => (hhand d hd).congr (congrFun hws d)⟩
  · obtain ⟨hmem', hhand'⟩ := accounts_step hmem hhand hok (fun e va size heq => absurd ⟨e, va, size, heq⟩ hev) hs
    exact ⟨⟨all, boot, hmem'⟩, hhand'⟩

theorem Inv.step (h : s.Inv) (hok : s.Allowed ev) (hs : s.step ev = some t) : t.Inv := h.accepted hok.accepted hs

theorem Booted.memInv (hmin : 160 ≤ n) (hn : n ≤ 1048576) (hk : 256 ≤ k) (hboot : Booted n k s) :
    s.mem.MemInv (Frames.bootFree n k) (Frames.bootReferences k) := by
  have hnot : ∀ d x, x ∉ (s.mem.ws d).list := fun d x => by
    rw [hboot.list d]
    exact List.not_mem_nil
  refine ⟨PagingRun.WalkInv.reach hmin hn hk hboot.run .init, fun d x hx => absurd hx (hnot d x),
    fun d x hx => absurd hx (hnot d x), fun d => ?_, fun d _ x hx => absurd hx (hnot d x)⟩
  rw [hboot.list d]
  exact List.nodup_nil

omit [DecidableEq E] in
theorem Booted.not_running (hboot : Booted n k s) (e : E) : ¬ s.running e := fun he => nomatch (hboot.running e).symm.trans he

theorem Inv.of_booted (hmin : 160 ≤ n) (hn : n ≤ 1048576) (hk : 256 ≤ k) (hboot : Booted n k s) : s.Inv :=
  ⟨⟨_, _, hboot.memInv hmin hn hk⟩, fun e he => absurd he (hboot.not_running e)⟩

/-- Every run from the boot. -/
theorem Inv.reach (hmin : 160 ≤ n) (hn : n ≤ 1048576) (hk : 256 ≤ k) (hboot : Booted n k s₀) (hr : Reach KernelRun.step Allowed s₀ s) :
    s.Inv :=
  hr.invariant (.of_booted hmin hn hk hboot) fun _ _ _ h hok hs => h.step hok hs

/-- A page file as `initialize_disk_page_file` makes it, but with `n` disk frames. -/
def smallDisk (n : Nat) : PageFile E := { diskFreeFrameList := (List.range' 1 n).foldl PageFile.initDiskFrame (Lists.init {} ()) }

/-- The kernel after the boot. -/
def start (r₀ : PagingRun E) (disk : PageFile E) : KernelRun E := { kernel := { mem := { run := r₀, disk := disk } } }

omit [DecidableEq E] in
theorem booted_start {r₀ : PagingRun E} (hboot : PagingRun.afterBoot E n k = some r₀) (disk : PageFile E) :
    Booted n k (start r₀ disk) :=
  ⟨hboot, fun _ => rfl, fun _ => rfl, fun _ => rfl⟩

/-- The first environment may be any one. -/
theorem Booted.allowed_envCreate {pageWsSize : Nat} {progName : String} {segs : List Segment} (hmin : 160 ≤ n) (hn : n ≤ 1048576)
    (hk : 256 ≤ k) (hboot : Booted n k s) (hpos : 1 ≤ pageWsSize) (hlt : pageWsSize < 4294967296)
    (hload : UserMem.Loadable segs) : s.Allowed (.envCreate e pageWsSize progName segs) :=
  ⟨⟨(PagingRun.boot_empty hmin hn hk hboot.run).2 e, hboot.list e, hboot.last e⟩, hpos, hlt, hload⟩

end KernelRun

end Fos.Trap
