import Fos.Trap.RunInv

/-! The working sets over whole runs. -/

namespace Fos.Mem
open Lib Heap Disk Frames

/-- The event writes the entry of the page or replaces its table. -/
def TableEvent.Touches {D : Type} (d : D) (va : Nat) : TableEvent D → Prop
  | .paging (.mapFrame dir _ va' _) => d = dir ∧ Paging.SamePage va va'
  | .paging (.unmapFrame dir va') => d = dir ∧ Paging.SamePage va va'
  | .paging (.allocPage dir va' _) => d = dir ∧ Paging.SamePage va va'
  | .createPageTable dir va' => d = dir ∧ pdx va = pdx va'
  | _ => False

/-- The event maps the frame, which the caller gives. -/
def TableEvent.MapsFrame {D : Type} (f : PageNo) : TableEvent D → Prop
  | .paging (.mapFrame _ g _ _) => g = f
  | _ => False

namespace PagingRun

variable {D : Type} [DecidableEq D] {all : List PageNo} {boot : PageNo → Nat} {s t : PagingRun D} {ev : TableEvent D}

/-- What a step does to the mappings: pages that it does not touch keep theirs, and frames that it maps are new or given by the
    caller. -/
structure MapsSteps (ev : TableEvent D) (s t : PagingRun D) : Prop where
  kept : ∀ d q f, ¬ ev.Touches d q → (t.paging.Maps d q f ↔ s.paging.Maps d q f)
  new : ∀ d q f, t.paging.Maps d q f → s.paging.Maps d q f ∨ (∀ c, s.hold c ≠ some f) ∨ ev.MapsFrame f

omit [DecidableEq D] in
theorem MapsSteps.of_page (hpage : t.paging.page = s.paging.page) : MapsSteps ev s t := by
  have hmaps : t.paging.Maps = s.paging.Maps := by
    funext d q f
    unfold Paging.Maps
    rw [hpage]
  exact ⟨fun _ _ _ _ => by rw [hmaps], fun _ _ _ h => .inl (hmaps ▸ h)⟩

omit [DecidableEq D] in
/-- One entry is written. -/
theorem MapsSteps.of_writes {dir : D} {va : Nat} {p : Pte} (hwrites : Paging.Writes s.paging t.paging dir va p)
    (htouches : ∀ d q, d = dir ∧ Paging.SamePage q va → ev.Touches d q)
    (hp : p.present → (∀ c, s.hold c ≠ some p.frame) ∨ ev.MapsFrame p.frame) : MapsSteps ev s t := by
  refine ⟨fun d q f hnot => hwrites.maps_of_ne fun hsame => hnot (htouches d q hsame), fun d q f hm => ?_⟩
  by_cases hsame : d = dir ∧ Paging.SamePage q va
  · obtain ⟨rfl, hpage⟩ := hsame
    unfold Paging.Maps at hm
    rw [Paging.page_samePage hpage, hwrites.self] at hm
    obtain ⟨hpresent, rfl⟩ := hm
    exact .inr (hp hpresent)
  · exact .inl ((hwrites.maps_of_ne hsame).mp hm)

/-- A table is made, in place of one that there may have been. -/
theorem MapsSteps.of_created {dir : D} {va : Nat} {x : PageNo} {p : Paging D} (hcreated : Paging.Created s.paging p dir (pdx va) x) :
    MapsSteps (.createPageTable dir va) s { s with paging := p } := by
  have hothers : ∀ d q, ¬ (d = dir ∧ pdx q = pdx va) → p.page d q = s.paging.page d q := by
    intro d q hnot
    have hpde : p.pde d (pdx q) = s.paging.pde d (pdx q) := (hcreated.pde d (pdx q)).trans (if_neg hnot)
    cases hd : s.paging.pde d (pdx q) with
    | none => rw [Paging.page_of_none (hpde.trans hd), Paging.page_of_none hd]
    | some y =>
      rw [Paging.page_of_some (hpde.trans hd), Paging.page_of_some hd, hcreated.others]
      rintro rfl
      exact hcreated.fresh d _ hd
  refine ⟨fun d q f hnot => ?_, fun d q f hm => ?_⟩
  · show p.Maps d q f ↔ _
    unfold Paging.Maps
    rw [hothers d q hnot]
  · by_cases hnew : d = dir ∧ pdx q = pdx va
    · have hempty : p.page d q = {} := by
        rw [Paging.page_of_some ((hcreated.pde d (pdx q)).trans (if_pos hnew)), hcreated.clear]
      have hpresent : (p.page d q).present := hm.1
      rw [hempty] at hpresent
      exact nomatch hpresent
    · have hm : p.Maps d q f := hm
      unfold Paging.Maps at hm
      rw [hothers d q hnew] at hm
      exact .inl hm

theorem WalkInv.mapsSteps (h : WalkInv all boot s) (hallowed : s.TableAllowed ev) (huser : s.UserFrame ev)
    (hplain : s.TablePlain ev) (hs : s.tableStep ev = some t) : MapsSteps ev s t := by
  have hwalk := h
  obtain ⟨⟨tables, hi⟩, hl⟩ := h
  cases ev with
  | createPageTable dir va =>
    obtain ⟨⟨p, ptr⟩, hp, rfl⟩ := Option.map_eq_some_iff.mp hs
    obtain ⟨x, _, hx, -⟩ := Paging.createPageTableAt_eq_some.mp hp
    exact .of_created (hi.created hl hx).1
  | paging ev =>
    cases ev with
    | allocateFrame =>
      obtain ⟨⟨p, f⟩, hp, rfl⟩ := Option.map_eq_some_iff.mp hs
      obtain ⟨-, hpage, -⟩ := hi.allocateFrame_linked hl hp
      exact .of_page hpage
    | mapFrame dir f va perm =>
      obtain ⟨p, hp, rfl⟩ := Option.map_eq_some_iff.mp hs
      obtain ⟨-, hwrites, -⟩ := hi.mapFrame_linked hl hallowed.2 huser hp
      exact .of_writes hwrites (fun _ _ h => h) fun _ => .inr (Paging.mappedPte_present ..).2.symm
    | unmapFrame dir va =>
      obtain ⟨p, hp, rfl⟩ := Option.map_eq_some_iff.mp hs
      obtain ⟨-, hwrites, -⟩ := hi.unmapFrame_linked hl hp
      refine .of_writes hwrites (fun _ _ h => h) fun hpresent => ?_
      exact nomatch (Paging.unmappedPte_present _).symm.trans hpresent
    | allocPage dir va perms =>
      obtain ⟨p, hp, rfl⟩ := Option.map_eq_some_iff.mp hs
      obtain ⟨-, ⟨-, rfl⟩ | ⟨f, hfresh, hwrites⟩, -⟩ := hi.allocPage_linked hl hp
      · exact .of_page rfl
      · refine .of_writes hwrites (fun _ _ h => h) fun _ => .inl ?_
        rw [(Paging.mappedPte_present ..).2]
        exact hfresh
    | kmalloc size =>
      obtain ⟨⟨k, va⟩, hk, rfl⟩ := Option.map_eq_some_iff.mp hs
      obtain ⟨-, hpage, -⟩ := hi.kmalloc_linked hl hplain.2 hk
      exact .of_page hpage
    | kfree va =>
      obtain ⟨k, hk, rfl⟩ := Option.map_eq_some_iff.mp hs
      obtain ⟨-, hpage, -⟩ := hi.kfree_linked hl hallowed hk
      exact .of_page hpage

end PagingRun

namespace UserMem

variable {E : Type} [DecidableEq E] {s : UserMem E} {e : E} {r : PagingRun E} {ev : TableEvent E}

omit [DecidableEq E] in
/-- A step of the memory that leaves the pages of a working set and their frames alone. -/
theorem WsInv.memory (h : WsInv s e) (hsteps : PagingRun.MapsSteps ev s.run r)
    (htouches : ∀ x ∈ (s.ws e).list, ¬ ev.Touches e (s.elementVa e x))
    (hframe : ∀ x ∈ (s.ws e).list, ∀ f, s.run.paging.Maps e (s.elementVa e x) f → ¬ ev.MapsFrame f) : WsInv (s.setRun r) e := by
  refine h.keep ⟨fun _ _ => rfl, fun x hx f hm => (hsteps.kept _ _ f (htouches x hx)).mpr hm, fun d q f hm => ?_⟩ rfl
  rcases hsteps.new d q f hm with hold | hfresh | hgiven
  · exact .inl hold
  · refine .inr fun x _ hm => ?_
    obtain ⟨c, hc⟩ := hm.hold
    exact hfresh _ hc
  · exact .inr fun x hx hm => hframe x hx f hm hgiven

/-- What is said of a working set: it is not longer than it may be, no page is in it twice, every page is mapped, and the hand is
    null or at an element, the latter when the list is full. -/
structure WsSound (s : UserMem E) (e : E) : Prop where
  size : (s.ws e).list.length ≤ (s.ws e).maxSize
  pages : ((s.ws e).list.map (s.ws e).page).Nodup
  mapped : ∀ x ∈ (s.ws e).list, (s.run.paging.page e (s.elementVa e x)).present
  hand : ∀ x, (s.ws e).last = some x → x ∈ (s.ws e).list
  full : (s.ws e).list.length = (s.ws e).maxSize → (s.ws e).last ≠ none

omit [DecidableEq E] in
theorem WsInv.sound (h : WsInv s e) (hnodup : (s.ws e).list.Nodup) : WsSound s e where
  size := h.size
  pages := by
    refine (List.nodup_map_iff_inj_on hnodup).mpr fun x hx y hy heq => h.resident.pages x hx y hy ?_
    have hpage : ∀ z ∈ (s.ws e).list, (s.ws e).page z = s.elementVa e z := by
      intro z hz
      have halign := (h.resident.aligned z hz).1
      unfold elementVa at halign ⊢
      simp only [WorkingSet.page, roundDown, pageSize]
      omega
    rw [← hpage x hx, ← hpage y hy]
    exact heq
  mapped x hx := by
    obtain ⟨f, hpresent, -⟩ := h.resident.mapped x hx
    exact hpresent
  hand := h.hand
  full := h.full

end UserMem

end Fos.Mem

namespace Fos.Trap
open Lib Heap Disk Mem

namespace KernelRun

variable {E : Type} [DecidableEq E] {s₀ s t : KernelRun E} {ev : KernelEvent E} {d e : E} {n k : Nat}

/-- The pages of the working sets and their frames are mapped and unmapped by the handlers only, and no mapped page is marked. -/
def Respects (s : KernelRun E) : KernelEvent E → Prop
  | .memory ev => ∀ e, s.running e → ∀ x ∈ (s.mem.ws e).list, ¬ ev.Touches e (s.mem.elementVa e x) ∧
      ∀ f, s.mem.run.paging.Maps e (s.mem.elementVa e x) f → ¬ ev.MapsFrame f
  | .allocateUserMem e va size => ∀ p ∈ pagesOf va size, (s.mem.run.paging.page e p).present = false
  | _ => True

/-- One step and the working sets. -/
theorem Inv.wsInv_accepted (h : s.Inv) (hok : s.Accepted ev) (hrespects : s.Respects ev)
    (hws : ∀ e, s.running e → s.mem.WsInv e) (hs : s.step ev = some t) : ∀ e, t.running e → t.mem.WsInv e := by
  obtain ⟨⟨all, boot, hmem⟩, hhand⟩ := h
  cases ev with
  | memory ev =>
    obtain ⟨r, hr, rfl⟩ := Option.map_eq_some_iff.mp hs
    obtain ⟨hallowed, huser, hplain, -⟩ : s.Allowed (.memory ev) := hok
    exact fun d hd => (hws d hd).memory (hmem.walk.mapsSteps hallowed huser hplain hr) (fun x hx => (hrespects d hd x hx).1)
      fun x hx => (hrespects d hd x hx).2
  | envCreate e pageWsSize progName segs =>
    obtain ⟨m, hm, rfl⟩ := Option.map_eq_some_iff.mp hs
    obtain ⟨hunused, hpos, hlt, hload⟩ : s.Allowed (.envCreate e pageWsSize progName segs) := hok
    obtain ⟨-, hnew, hothers⟩ := UserMem.envCreate_spec hmem hunused hpos hlt hload hm
    intro d hd
    rcases eq_or_ne d e with rfl | hne
    · exact hnew
    · have hrunning : Function.update s.running e true d = s.running d := Function.update_of_ne hne ..
      exact (hothers d hne).2 (hws d (hrunning.symm.trans hd))
  | allocateUserMem e va size =>
    obtain ⟨m, hm, rfl⟩ := Option.map_eq_some_iff.mp hs
    exact fun d hd => (hws d hd).allocateUserMem hmem.walk hrespects hm
  | freeUserMem e va size =>
    obtain ⟨m, hm, rfl⟩ := Option.map_eq_some_iff.mp hs
    obtain ⟨-, -, -, -, hkept⟩ := UserMem.freeUserMem_spec hmem hm
    exact fun d hd => hkept d (hws d hd)
  | envPageWsInvalidate e va =>
    obtain ⟨m, hm, rfl⟩ := Option.map_eq_some_iff.mp hs
    intro d hd
    obtain ⟨-, rfl⟩ | ⟨wse, -, hinv⟩ := UserMem.envPageWsInvalidate_spec hmem hm
    · exact hws d hd
    · rcases eq_or_ne d e with rfl | hne
      · exact (hws d hd).invalidated (hmem.nodup d) hinv
      · exact (hws d hd).invalidated_other hne hinv
  | updateTimeStamps e =>
    obtain ⟨m, hm, rfl⟩ := Option.map_eq_some_iff.mp hs
    exact fun d hd => (hws d hd).updateTimeStamps hmem.walk hm
  | fault e userTrap va =>
    obtain ⟨⟨u, o⟩, hu, hs⟩ := Option.bind_eq_some_iff.mp hs
    obtain ⟨hrunning, -⟩ : s.Allowed (.fault e userTrap va) := hok
    obtain ⟨-, hfaulted⟩ := Kernel.pageFaultTrap_spec hmem (hhand e hrunning) hu
    cases o with
    | kernelFault => exact nomatch hs
    | served =>
      cases hs
      exact fun d hd => hfaulted.sound d (fun _ => rfl) (hws d hd)
    | exit =>
      cases hs
      intro d hd
      obtain ⟨hne, hrunning⟩ := running_of_update hd
      exact hfaulted.sound d (fun heq => absurd heq hne) (hws d hrunning)

theorem Inv.wsInv_step (h : s.Inv) (hok : s.Allowed ev) (hrespects : s.Respects ev)
    (hws : ∀ e, s.running e → s.mem.WsInv e) (hs : s.step ev = some t) : ∀ e, t.running e → t.mem.WsInv e :=
  h.wsInv_accepted hok.accepted hrespects hws hs

/-- Every run from the boot. -/
theorem wsInv_reach (hmin : 160 ≤ n) (hn : n ≤ 1048576) (hk : 256 ≤ k) (hboot : Booted n k s₀)
    (hr : Reach step (fun s ev => s.Allowed ev ∧ s.Respects ev) s₀ s) : s.Inv ∧ ∀ e, s.running e → s.mem.WsInv e := by
  refine hr.invariant (I := fun s => s.Inv ∧ ∀ e, s.running e → s.mem.WsInv e) ⟨.of_booted hmin hn hk hboot, fun e he => ?_⟩
    fun s ev t h hok hs => ⟨h.1.step hok.1 hs, h.1.wsInv_step hok.1 hok.2 h.2 hs⟩
  rw [hboot.running e] at he
  exact nomatch he

/-- In every state of a run, whichever algorithm is set, the working set of every environment that runs is sound. -/
theorem working_set_sound (hmin : 160 ≤ n) (hn : n ≤ 1048576) (hk : 256 ≤ k) (hboot : Booted n k s₀)
    (hr : Reach step (fun s ev => s.Allowed ev ∧ s.Respects ev) s₀ s) (he : s.running e) : s.mem.WsSound e := by
  obtain ⟨⟨⟨all, boot, hmem⟩, -⟩, hws⟩ := wsInv_reach hmin hn hk hboot hr
  exact (hws e he).sound (hmem.nodup e)

/-- The heap of a new environment with room for two pages is marked; the first page is loaded, the second one replaces a page. -/
theorem working_set_sound_replaced : ∃ s₀ s : KernelRun Unit, Booted 1024 768 s₀ ∧ exec step s₀ [.envCreate () 2 "prog" [],
    .allocateUserMem () 2147483648 8192, .fault () true 2147483648, .fault () true 2147487744] = some s ∧
      (s.mem.ws ()).list.length = 2 ∧ s.mem.WsSound () := by
  have hrun : ((PagingRun.afterBoot Unit 1024 768).bind fun r₀ =>
      (step (start r₀ (smallDisk 3)) (.envCreate () 2 "prog" [])).bind fun s₁ =>
      (step s₁ (.allocateUserMem () 2147483648 8192)).bind fun s₂ => (step s₂ (.fault () true 2147483648)).bind fun s₃ =>
      (step s₃ (.fault () true 2147487744)).map fun s => ((s₁.mem.run.paging.page () 2147483648).present,
        (s₁.mem.run.paging.page () 2147487744).present, s₂.running (), s₃.running (), s.running (),
          (s.mem.ws ()).list.length)) = some (false, false, true, true, true, 2) := by
    rw [PagingRun.afterBoot_eq]
    decide +kernel
  obtain ⟨r₀, hboot, hrun⟩ := Option.bind_eq_some_iff.mp hrun
  obtain ⟨s₁, hs₁, hrun⟩ := Option.bind_eq_some_iff.mp hrun
  obtain ⟨s₂, hs₂, hrun⟩ := Option.bind_eq_some_iff.mp hrun
  obtain ⟨s₃, hs₃, hrun⟩ := Option.bind_eq_some_iff.mp hrun
  obtain ⟨s, hs, hresult⟩ := Option.map_eq_some_iff.mp hrun
  simp only [Prod.mk.injEq] at hresult
  obtain ⟨hfirst, hsecond, hrunning₂, hrunning₃, hrunning, hlength⟩ := hresult
  have hboot := booted_start hboot (smallDisk 3)
  have hunmapped : ∀ p ∈ pagesOf 2147483648 8192, (s₁.mem.run.paging.page () p).present = false := by
    intro p hp
    have hp : p ∈ [2147483648, 2147487744] := hp
    simp only [List.mem_cons, List.not_mem_nil, or_false] at hp
    rcases hp with rfl | rfl
    · exact hfirst
    · exact hsecond
  have hr₁ : Reach step (fun s ev => s.Allowed ev ∧ s.Respects ev) (start r₀ (smallDisk 3)) s₁ :=
    .step (.envCreate () 2 "prog" []) .init
      ⟨hboot.allowed_envCreate (by decide) (by decide) (by decide) (by decide) (by decide) ⟨nofun, .nil⟩, trivial⟩ hs₁
  have hr₂ : Reach step (fun s ev => s.Allowed ev ∧ s.Respects ev) (start r₀ (smallDisk 3)) s₂ :=
    .step (.allocateUserMem () 2147483648 8192) hr₁
      ⟨⟨⟨Nat.le_refl _, by decide⟩, fun p hp hpresent => (nomatch (hunmapped p hp).symm.trans hpresent)⟩, hunmapped⟩ hs₂
  have hr : Reach step (fun s ev => s.Allowed ev ∧ s.Respects ev) (start r₀ (smallDisk 3)) s :=
    .step (.fault () true 2147487744) (.step (.fault () true 2147483648) hr₂ ⟨⟨hrunning₂, by decide⟩, trivial⟩ hs₃)
      ⟨⟨hrunning₃, by decide⟩, trivial⟩ hs
  exact ⟨start r₀ (smallDisk 3), s, hboot, exec_cons.mpr ⟨s₁, hs₁, exec_cons.mpr ⟨s₂, hs₂, exec_cons.mpr ⟨s₃, hs₃,
    exec_cons.mpr ⟨s, hs, rfl⟩⟩⟩⟩, hlength, working_set_sound (by decide) (by decide) (by decide) hboot hr hrunning⟩

end KernelRun

end Fos.Trap
