import Fos.Trap.RunInv

/-! What a process can free. `sys_free_user_mem` accepts every region of the user heap, but `free_user_mem` panics at a page
    whose page table was never made. Nothing else stops it: the rounds find the tables, every frame is one of the memory,
    and an element of a working set is a block that can be freed. -/

namespace Fos.Mem
open Lib Heap Disk Frames

namespace Paging

variable {D : Type} [DecidableEq D] {all : List PageNo} {boot : PageNo → Nat} {handed : List PageNo} {live tables : List Nat}
  {s s' : Paging D} {va : Nat} {dir : D} {toSet toClear : BitVec 12}

omit [DecidableEq D] in
/-- `pt_set_page_permissions` panics exactly when there is no table. -/
theorem Inv.ptSetPagePermissions_iff (hi : Inv all boot handed live tables s) (hl : s.Linked) :
    s.ptSetPagePermissions dir va toSet toClear ≠ none ↔ s.pde dir (pdx va) ≠ none := by
  unfold Paging.ptSetPagePermissions
  rw [hi.getPageTable_eq hl, Option.bind_some]
  cases s.pde dir (pdx va) with
  | none => exact iff_of_false (fun h => h rfl) fun h => h rfl
  | some t => exact iff_of_true nofun nofun

omit [DecidableEq D] in
/-- `unmap_frame` does not panic. -/
theorem Inv.unmapFrame_some (hi : Inv all boot handed live tables s) (hl : s.Linked) (dir : D) (va : Nat) :
    ∃ s', s.unmapFrame dir va = some s' := by
  unfold Paging.unmapFrame
  rw [hi.getPageTable_eq hl, Option.bind_some]
  cases s.pde dir (pdx va) with
  | none => exact ⟨s, rfl⟩
  | some t =>
    obtain ⟨F, ha⟩ := hi.accounts
    obtain ⟨m, -, hm, -⟩ := ha.unmapFrame (.user t (ptx va))
    exact ⟨_, congrArg (Option.map _) hm⟩

omit [DecidableEq D] in
theorem ptSetPagePermissions_pde (hs : s.ptSetPagePermissions dir va toSet toClear = some s') : s'.pde = s.pde := by
  obtain ⟨x, -, hs⟩ := Option.bind_eq_some_iff.mp hs
  cases x with
  | inMemory t => cases hs; rfl
  | null => exact nomatch hs
  | notExist => exact nomatch hs

omit [DecidableEq D] in
theorem unmapFrame_pde (hs : s.unmapFrame dir va = some s') : s'.pde = s.pde := by
  obtain ⟨x, -, hs⟩ := Option.bind_eq_some_iff.mp hs
  cases x with
  | inMemory t =>
    obtain ⟨m, -, rfl⟩ := Option.map_eq_some_iff.mp hs
    rfl
  | null => cases hs; rfl
  | notExist => cases hs; rfl

end Paging

namespace PagingRun

variable {D : Type} [DecidableEq D] {all : List PageNo} {boot : PageNo → Nat} {r r' : PagingRun D} {va : Nat} {dir : D}

theorem WalkInv.unmapFrame_some (h : r.WalkInv all boot) (dir : D) (va : Nat) : ∃ r', r.unmapFrame dir va = some r' := by
  obtain ⟨⟨tables, hi⟩, hl⟩ := h
  obtain ⟨p, hp⟩ := hi.unmapFrame_some hl dir va
  exact ⟨_, congrArg (Option.map _) hp⟩

/-- A live block can be freed. -/
theorem WalkInv.kfree_some (h : r.WalkInv all boot) (hlive : va ∈ r.live) (hblock : va < 4160749568) :
    ∃ r', r.kfree va = some r' := by
  obtain ⟨⟨tables, hi⟩, -⟩ := h
  obtain ⟨F, lost, howned⟩ := hi.owned
  obtain ⟨k, hk⟩ := howned.kfree_some (List.mem_append_left _ hlive) hblock
  exact ⟨_, congrArg (Option.map _) hk⟩

theorem unmapFrame_pde (hs : r.unmapFrame dir va = some r') : r'.paging.pde = r.paging.pde := by
  obtain ⟨p, hp, rfl⟩ := Option.map_eq_some_iff.mp hs
  exact Paging.unmapFrame_pde hp

theorem kfree_pde (hs : r.kfree va = some r') : r'.paging.pde = r.paging.pde := by
  obtain ⟨k, -, rfl⟩ := Option.map_eq_some_iff.mp hs
  rfl

end PagingRun

namespace UserMem

variable {E : Type} [DecidableEq E] {all : List PageNo} {boot : PageNo → Nat} {s t : UserMem E} {e : E} {va size : Nat}

/-- `env_page_ws_invalidate` does not panic. -/
theorem MemInv.envPageWsInvalidate_some (h : MemInv all boot s) (e : E) (va : Nat) : ∃ t, s.envPageWsInvalidate e va = some t := by
  unfold envPageWsInvalidate
  cases hfind : (s.ws e).find va with
  | none => exact ⟨s, rfl⟩
  | some wse =>
    have hmem := (WorkingSet.find_spec hfind).1
    obtain ⟨r₁, hr₁⟩ := h.walk.unmapFrame_some e ((s.ws e).element wse).virtualAddress
    obtain ⟨h₁, -, -, hlive₁⟩ := h.walk.unmapFrame hr₁
    obtain ⟨r₂, hr₂⟩ := h₁.kfree_some (hlive₁ ▸ h.live e wse hmem) (h.block e wse hmem)
    dsimp only
    rw [hr₁, Option.bind_some, hr₂, Option.map_some]
    exact ⟨_, rfl⟩

theorem envPageWsInvalidate_pde (hs : s.envPageWsInvalidate e va = some t) : t.run.paging.pde = s.run.paging.pde := by
  unfold envPageWsInvalidate at hs
  split at hs
  case h_1 => cases hs; rfl
  case h_2 =>
    obtain ⟨r₁, hr₁, hs⟩ := Option.bind_eq_some_iff.mp hs
    obtain ⟨r₂, hr₂, rfl⟩ := Option.map_eq_some_iff.mp hs
    exact (PagingRun.kfree_pde hr₂).trans (PagingRun.unmapFrame_pde hr₁)

theorem freePage_pde (hs : freePage e s va = some t) : t.run.paging.pde = s.run.paging.pde := by
  obtain ⟨r₁, hr₁, hs⟩ := Option.bind_eq_some_iff.mp hs
  obtain ⟨s₂, hs₂, hs⟩ := Option.bind_eq_some_iff.mp hs
  obtain ⟨r₃, hr₃, rfl⟩ := Option.map_eq_some_iff.mp hs
  obtain ⟨p, hp, rfl⟩ := Option.map_eq_some_iff.mp hr₁
  calc r₃.paging.pde = s₂.run.paging.pde := PagingRun.unmapFrame_pde hr₃
    _ = p.pde := envPageWsInvalidate_pde hs₂
    _ = s.run.paging.pde := Paging.ptSetPagePermissions_pde hp

/-- One round of `free_user_mem` panics exactly when there is no table for the page. -/
theorem MemInv.freePage_iff (h : MemInv all boot s) : freePage e s va ≠ none ↔ s.run.paging.pde e (pdx va) ≠ none := by
  obtain ⟨⟨tables, hi⟩, hl⟩ := h.walk
  have hset : s.run.paging.ptSetPagePermissions e va 0 permUhpage ≠ none ↔ _ := hi.ptSetPagePermissions_iff hl
  rw [← hset]
  unfold freePage
  cases hp : s.run.paging.ptSetPagePermissions e va 0 permUhpage with
  | none =>
    have hnone : s.run.ptSetPagePermissions e va 0 permUhpage = none := congrArg (Option.map _) hp
    rw [hnone]
    exact iff_of_false (fun h => h rfl) fun h => h rfl
  | some p =>
    have hr₁ : s.run.ptSetPagePermissions e va 0 permUhpage = some { s.run with paging := p } := congrArg (Option.map _) hp
    obtain ⟨hwalk₁, -, -, -, hlive₁⟩ := unmark_spec h.walk hr₁
    have h₁ : MemInv all boot { s with run := { s.run with paging := p }, disk := s.disk.pfRemoveEnvPage e va } :=
      h.keep hwalk₁ (fun _ => .refl _) h.live
    obtain ⟨s₂, hs₂⟩ := h₁.envPageWsInvalidate_some e va
    obtain ⟨r₃, hr₃⟩ := (invalidate_page h₁ hs₂).1.walk.unmapFrame_some e va
    rw [hr₁, Option.bind_some, hs₂, Option.bind_some, hr₃]
    exact iff_of_true nofun nofun

theorem MemInv.freePages_iff {ps : List Nat} (h : MemInv all boot s) :
    exec (freePage e) s ps ≠ none ↔ ∀ p ∈ ps, s.run.paging.pde e (pdx p) ≠ none := by
  induction ps generalizing s with
  | nil => exact iff_of_true (Option.some_ne_none _) fun p hp => by cases hp
  | cons p ps ih =>
    rw [List.forall_mem_cons, ← h.freePage_iff, exec]
    cases hs : freePage e s p with
    | none => exact iff_of_false (fun hne => hne rfl) fun hne => hne.1 rfl
    | some s₁ =>
      rw [Option.bind_some, ih (freePage_spec h hs).1, freePage_pde hs]
      exact (and_iff_right (Option.some_ne_none _)).symm

end UserMem

end Fos.Mem

namespace Fos.Trap
open Lib Heap Disk Mem

namespace KernelRun

variable {E : Type} [DecidableEq E] {s₀ s t : KernelRun E} {ev : KernelEvent E} {e : E} {va size n k : Nat}

/-- In every state that is reached, a region that `sys_free_user_mem` accepts is freed without a panic if and only if every page
    of it has a page table. -/
theorem free_request_completes (hmin : 160 ≤ n) (hn : n ≤ 1048576) (hk : 256 ≤ k) (hboot : Booted n k s₀)
    (hr : Reach step Accepted s₀ s) : inUserRange va size →
      (s.mem.freeUserMem e va size ≠ none ↔ ∀ p ∈ pagesOf va size, s.mem.run.paging.pde e (pdx p) ≠ none) := by
  have hi : s.Inv := hr.invariant (.of_booted hmin hn hk hboot) fun _ _ _ h hok hs => h.accepted hok hs
  obtain ⟨⟨all, boot, hmem⟩, -⟩ := hi
  exact fun _ => hmem.freePages_iff

/-- Two pages of the heap are marked, which makes their table, and freed. -/
theorem free_request_completes_marked : ∃ s₀ s : KernelRun Unit, Booted 1024 768 s₀ ∧
    exec step s₀ [.envCreate () 5 "prog" [], .allocateUserMem () 2147483648 8192] = some s ∧
      s.mem.freeUserMem () 2147483648 8192 ≠ none := by
  have hrun : ((PagingRun.afterBoot Unit 1024 768).bind fun r₀ => (step (start r₀ {}) (.envCreate () 5 "prog" [])).bind fun s₁ =>
      (step s₁ (.allocateUserMem () 2147483648 8192)).map fun s => ((s₁.mem.run.paging.page () 2147483648).present,
        (s₁.mem.run.paging.page () 2147487744).present, (s.mem.run.paging.pde () 512).isSome)) = some (false, false, true) := by
    rw [PagingRun.afterBoot_eq]
    decide +kernel
  obtain ⟨r₀, hboot, hrun⟩ := Option.bind_eq_some_iff.mp hrun
  obtain ⟨s₁, hs₁, hrun⟩ := Option.bind_eq_some_iff.mp hrun
  obtain ⟨s, hs, hresult⟩ := Option.map_eq_some_iff.mp hrun
  simp only [Prod.mk.injEq] at hresult
  obtain ⟨hfirst, hsecond, htable⟩ := hresult
  have hboot := booted_start hboot {}
  have hpages : ∀ p ∈ pagesOf 2147483648 8192, p = 2147483648 ∨ p = 2147487744 := fun p hp => by
    have hp : p ∈ [2147483648, 2147487744] := hp
    simpa only [List.mem_cons, List.not_mem_nil, or_false] using hp
  have hsole : ∀ p ∈ pagesOf 2147483648 8192, s₁.mem.run.paging.Sole () p := by
    intro p hp hpresent
    rcases hpages p hp with rfl | rfl
    · exact nomatch hfirst.symm.trans hpresent
    · exact nomatch hsecond.symm.trans hpresent
  have hcreate : (start r₀ {}).Allowed (.envCreate () 5 "prog" []) :=
    hboot.allowed_envCreate (by decide) (by decide) (by decide) (by decide) (by decide) ⟨nofun, .nil⟩
  have hr : Reach step Accepted (start r₀ {}) s :=
    .step (.allocateUserMem () 2147483648 8192) (.step (.envCreate () 5 "prog" []) .init hcreate hs₁) ⟨by decide, hsole⟩ hs
  refine ⟨start r₀ {}, s, hboot, exec_cons.mpr ⟨s₁, hs₁, exec_cons.mpr ⟨s, hs, rfl⟩⟩,
    (free_request_completes (by decide) (by decide) (by decide) hboot hr (by decide)).mpr fun p hp hnone => ?_⟩
  have hpdx : pdx p = 512 := by
    rcases hpages p hp with rfl | rfl <;> rfl
  rw [hpdx] at hnone
  rw [hnone] at htable
  exact nomatch htable

/-- An environment that has not used its heap frees the first page of it. -/
theorem free_request_panics : ∃ s₀ s : KernelRun Unit, Booted 1024 768 s₀ ∧ Reach step Accepted s₀ s ∧ s.running () ∧
    inUserRange 2147483648 4096 ∧ s.mem.freeUserMem () 2147483648 4096 = none := by
  have hrun : ((PagingRun.afterBoot Unit 1024 768).bind fun r₀ => (step (start r₀ {}) (.envCreate () 5 "prog" [])).map fun s =>
      (s.running (), (s.mem.freeUserMem () 2147483648 4096).isNone)) = some (true, true) := by
    rw [PagingRun.afterBoot_eq]
    decide +kernel
  obtain ⟨r₀, hboot, hrun⟩ := Option.bind_eq_some_iff.mp hrun
  obtain ⟨s, hs, hresult⟩ := Option.map_eq_some_iff.mp hrun
  obtain ⟨hrunning, hnone⟩ := Prod.mk.inj hresult
  have hboot := booted_start hboot {}
  have hcreate : (start r₀ {}).Allowed (.envCreate () 5 "prog" []) :=
    hboot.allowed_envCreate (by decide) (by decide) (by decide) (by decide) (by decide) ⟨nofun, .nil⟩
  have hr : Reach step Accepted (start r₀ {}) s := .step (.envCreate () 5 "prog" []) .init hcreate hs
  exact ⟨start r₀ {}, s, hboot, hr, hrunning, by decide, Option.isNone_iff_eq_none.mp hnone⟩

end KernelRun

end Fos.Trap
