import Fos.Trap.RunInv

/-! Which pages of the user heap a fault maps. The mark of a page is looked at for faults in user mode only. -/

namespace Fos.Trap
open Lib Heap Disk Mem

namespace Kernel

variable {E : Type} [DecidableEq E] {s t : Kernel E} {e : E} {va : Nat} {userTrap : Bool} {o : Outcome}

/-- A new frame is mapped at the page. -/
def MapsNew (s t : Kernel E) (e : E) (va : Nat) : Prop :=
  ∃ f, t.mem.run.paging.Maps e va f ∧ ¬ s.mem.run.paging.Maps e va f

/-- The entry of the page carries `PERM_UHPAGE`. -/
def Marked (s : Kernel E) (e : E) (va : Nat) : Prop := (s.mem.run.paging.page e va).perm &&& permUhpage ≠ 0

/-- A page is mapped only by a fault that is served for it. -/
theorem served_of_mapsNew {all : List PageNo} {boot : PageNo → Nat} (h : s.mem.MemInv all boot)
    (hs : s.faultHandler e userTrap va = some (t, o)) (hmaps : MapsNew s t e va) : Served s e userTrap va t o := by
  obtain ⟨f, hnew, hold⟩ := hmaps
  rcases faultHandler_cases hs with ⟨hmade, -⟩ | ⟨hsame, -⟩ | hserved
  · obtain ⟨-, -, hpage, -, -⟩ := hmade.spec h
    unfold Paging.Maps at hnew
    rw [hpage] at hnew
    exact absurd hnew hold
  · rw [hsame] at hnew
    exact absurd hnew hold
  · exact hserved

end Kernel

namespace KernelRun

variable {E : Type} [DecidableEq E] {s₀ s : KernelRun E} {e : E} {n k va : Nat} {userTrap : Bool} {t : Kernel E} {o : Outcome}

/-- In every state of a run, a fault at an address of the user heap maps a new frame only where the page table exists, and in
    user mode only where the page is marked. -/
theorem heap_fault_marked (hmin : 160 ≤ n) (hn : n ≤ 1048576) (hk : 256 ≤ k) (hboot : Booted n k s₀)
    (hr : Reach step Allowed s₀ s) (hlow : userHeapStart ≤ va) (hhigh : va < userHeapMax)
    (hs : s.kernel.faultHandler e userTrap va = some (t, o)) (hmaps : Kernel.MapsNew s.kernel t e va) :
    s.mem.run.paging.pde e (pdx va) ≠ none ∧ (userTrap → Kernel.Marked s.kernel e va) := by
  obtain ⟨⟨all, boot, hmem⟩, -⟩ := Inv.reach hmin hn hk hboot hr
  have hserved := Kernel.served_of_mapsNew hmem hs hmaps
  refine ⟨hserved.table, fun huser hunmarked => ?_⟩
  obtain ⟨perms, hperms, hvalid, -⟩ := hserved.perms
  have htable := UserMem.permissions_of_table hmem.walk hserved.table
  obtain rfl := Option.some.inj (hperms.symm.trans htable)
  refine hvalid ⟨huser, ?_⟩
  unfold Kernel.invalidPointer
  exact decide_eq_true (.inl ⟨hlow, hhigh, hunmarked⟩)

/-- The first page of the heap is marked, and a fault in user mode maps it. -/
theorem heap_fault_marked_page : ∃ (s₀ s : KernelRun Unit) (t : Kernel Unit), Booted 1024 768 s₀ ∧
    exec step s₀ [.envCreate () 5 "prog" [], .allocateUserMem () 2147483648 4096] = some s ∧
    s.kernel.faultHandler () true 2147483648 = some (t, .served) ∧ Kernel.MapsNew s.kernel t () 2147483648 ∧
    Kernel.Marked s.kernel () 2147483648 := by
  have hrun : ((PagingRun.afterBoot Unit 1024 768).bind fun r₀ => (step (start r₀ {}) (.envCreate () 5 "prog" [])).bind fun s₁ =>
      (step s₁ (.allocateUserMem () 2147483648 4096)).bind fun s => (s.kernel.faultHandler () true 2147483648).map fun (t, o) =>
        (o, (s₁.mem.run.paging.page () 2147483648).present, (s.mem.run.paging.page () 2147483648).present,
          (t.mem.run.paging.page () 2147483648).present)) = some (.served, false, false, true) := by
    rw [PagingRun.afterBoot_eq]
    decide +kernel
  obtain ⟨r₀, hboot, hrun⟩ := Option.bind_eq_some_iff.mp hrun
  obtain ⟨s₁, hs₁, hrun⟩ := Option.bind_eq_some_iff.mp hrun
  obtain ⟨s, hs, hrun⟩ := Option.bind_eq_some_iff.mp hrun
  obtain ⟨⟨t, o⟩, ht, hresult⟩ := Option.map_eq_some_iff.mp hrun
  simp only [Prod.mk.injEq] at hresult
  obtain ⟨rfl, hbefore, hunmapped, hmapped⟩ := hresult
  have hboot := booted_start hboot {}
  have hsole : ∀ p ∈ pagesOf 2147483648 4096, s₁.mem.run.paging.Sole () p := by
    intro p hp hpresent
    obtain rfl : p = 2147483648 := List.mem_singleton.mp hp
    exact nomatch hbefore.symm.trans hpresent
  have hr : Reach step Allowed (start r₀ {}) s :=
    .step (.allocateUserMem () 2147483648 4096)
      (.step (.envCreate () 5 "prog" []) .init
        (hboot.allowed_envCreate (by decide) (by decide) (by decide) (by decide) (by decide) ⟨nofun, .nil⟩) hs₁)
      ⟨⟨Nat.le_refl _, by decide⟩, hsole⟩ hs
  have hmaps : Kernel.MapsNew s.kernel t () 2147483648 :=
    ⟨_, ⟨hmapped, rfl⟩, fun h => nomatch hunmapped.symm.trans h.1⟩
  exact ⟨start r₀ {}, s, t, hboot, exec_cons.mpr ⟨s₁, hs₁, exec_cons.mpr ⟨s, hs, rfl⟩⟩, ht, hmaps,
    (heap_fault_marked (by decide) (by decide) (by decide) hboot hr (Nat.le_refl _) (by decide) ht hmaps).2 rfl⟩

/-- The heap is not marked. A fault in kernel mode makes the page table, and the next one maps the page. -/
theorem heap_fault_unmarked : ∃ (s₀ s : KernelRun Unit) (t : Kernel Unit), Booted 1024 768 s₀ ∧ Reach step Allowed s₀ s ∧
    s.running () ∧ s.kernel.faultHandler () false 2147483648 = some (t, .served) ∧ Kernel.MapsNew s.kernel t () 2147483648 ∧
    ¬ Kernel.Marked s.kernel () 2147483648 := by
  have hrun : ((PagingRun.afterBoot Unit 1024 768).bind fun r₀ => (step (start r₀ {}) (.envCreate () 5 "prog" [])).bind fun s₁ =>
      (step s₁ (.fault () false 2147483648)).bind fun s => (s.kernel.faultHandler () false 2147483648).map fun (t, o) =>
        (o, s₁.running (), s.running (), s.mem.run.paging.page () 2147483648, (t.mem.run.paging.page () 2147483648).present)) =
          some (.served, true, true, {}, true) := by
    rw [PagingRun.afterBoot_eq]
    decide +kernel
  obtain ⟨r₀, hboot, hrun⟩ := Option.bind_eq_some_iff.mp hrun
  obtain ⟨s₁, hs₁, hrun⟩ := Option.bind_eq_some_iff.mp hrun
  obtain ⟨s, hs, hrun⟩ := Option.bind_eq_some_iff.mp hrun
  obtain ⟨⟨t, o⟩, ht, hresult⟩ := Option.map_eq_some_iff.mp hrun
  simp only [Prod.mk.injEq] at hresult
  obtain ⟨rfl, hrunning₁, hrunning, hempty, hmapped⟩ := hresult
  have hboot := booted_start hboot {}
  have hr : Reach step Allowed (start r₀ {}) s :=
    .step (.fault () false 2147483648)
      (.step (.envCreate () 5 "prog" []) .init
        (hboot.allowed_envCreate (by decide) (by decide) (by decide) (by decide) (by decide) ⟨nofun, .nil⟩) hs₁)
      ⟨hrunning₁, by decide⟩ hs
  refine ⟨start r₀ {}, s, t, hboot, hr, hrunning, ht, ⟨_, ⟨hmapped, rfl⟩, fun h => ?_⟩, fun hmarked => hmarked ?_⟩
  · have hpresent := congrArg Pte.present hempty
    exact nomatch hpresent.symm.trans h.1
  · have hperm := congrArg Pte.perm hempty
    exact (congrArg (· &&& permUhpage) hperm).trans rfl

end KernelRun

end Fos.Trap
