import Fos.Proc.Load
import Fos.Mem.UserMemInv

/-! What the kernel asks of the memory manager. Whatever a system call or a fault does to the frames, the page tables and the
    kernel heap is a sequence of these calls. -/

namespace Fos.Mem
open Lib Heap Frames

namespace Paging

variable {D : Type} [DecidableEq D] {all : List PageNo} {boot : PageNo → Nat} {handed : List PageNo} {live tables : List Nat}
  {s s' s₁ : Paging D} {m : Frames} {f t : PageNo} {va : Nat} {perm : BitVec 12} {dir : D}

/-- The entries of a user table that no directory entry names are empty. -/
def Attached (s : Paging D) : Prop := ∀ x i, s.heap.mem.hold (.user x i) ≠ none → ∃ d j, s.pde d j = some x

/-- Directory entries are kept, and a frame is mapped only in a table that is named by one. -/
structure Grows (s s' : Paging D) : Prop where
  pde : ∀ d j x, s.pde d j = some x → s'.pde d j = some x
  entry : ∀ x i, s'.heap.mem.hold (.user x i) ≠ none → s.heap.mem.hold (.user x i) ≠ none ∨ ∃ d j, s'.pde d j = some x

omit [DecidableEq D] in
theorem Grows.refl (s : Paging D) : Grows s s := ⟨fun _ _ _ h => h, fun _ _ h => .inl h⟩

omit [DecidableEq D] in
theorem Grows.trans (h : Grows s s₁) (h' : Grows s₁ s') : Grows s s' := by
  refine ⟨fun d j x hx => h'.pde d j x (h.pde d j x hx), fun x i hne => ?_⟩
  rcases h'.entry x i hne with hne | hlinked
  · rcases h.entry x i hne with hne | ⟨d, j, hx⟩
    · exact .inl hne
    · exact .inr ⟨d, j, h'.pde d j x hx⟩
  · exact .inr hlinked

omit [DecidableEq D] in
theorem Attached.grows (h : Attached s) (hg : Grows s s') : Attached s' := by
  intro x i hne
  rcases hg.entry x i hne with hne | hlinked
  · obtain ⟨d, j, hx⟩ := h x i hne
    exact ⟨d, j, hg.pde d j x hx⟩
  · exact hlinked

omit [DecidableEq D] in
/-- The user tables are as before. -/
theorem grows_of_user (hpde : s'.pde = s.pde) (hpte : ∀ x i, s'.heap.mem.pte (.user x i) = s.heap.mem.pte (.user x i)) :
    Grows s s' := by
  refine ⟨fun d j x hx => by rw [hpde]; exact hx, fun x i hne => .inl ?_⟩
  simpa only [hold, hpte] using hne

omit [DecidableEq D] in
/-- One entry of a table is written that a directory entry names. -/
theorem grows_of_entry {j i : Fin 1024} {d : D} {h : KHeap} (ht : s.pde d j = some t)
    (hpte : ∀ c, c ≠ .user t i → h.mem.pte c = s.heap.mem.pte c) : Grows s { s with heap := h } := by
  refine ⟨fun _ _ _ hx => hx, fun x k hne => ?_⟩
  by_cases hx : Slot.user x k = .user t i
  · cases hx
    exact .inr ⟨d, j, ht⟩
  · refine .inl ?_
    simpa only [hold, hpte _ hx] using hne

theorem Created.grows (h : Created s s' dir (pdx va) t) (hnone : s.pde dir (pdx va) = none) : Grows s s' := by
  refine ⟨fun d j x hx => ?_, fun x i hne => ?_⟩
  · rw [h.pde, if_neg, hx]
    rintro ⟨rfl, rfl⟩
    rw [hnone] at hx
    exact nomatch hx
  · rcases eq_or_ne x t with rfl | hxt
    · exact .inr ⟨dir, pdx va, (h.pde ..).trans (if_pos ⟨rfl, rfl⟩)⟩
    · refine .inl ?_
      simpa only [hold, h.others x i hxt] using hne

omit [DecidableEq D] in
/-- The table of an address is the one of its directory entry. -/
theorem Inv.found {r : PageTable} (hi : Inv all boot handed live tables s) (hl : s.Linked) (hr : s.getPageTable dir va = some r) :
    (∃ t, r = .inMemory t ∧ s.pde dir (pdx va) = some t) ∨ r = .notExist ∧ s.pde dir (pdx va) = none := by
  rw [hi.getPageTable_eq hl] at hr
  cases ht : s.pde dir (pdx va) with
  | some t =>
    rw [ht] at hr
    cases hr
    exact .inl ⟨t, rfl, rfl⟩
  | none =>
    rw [ht] at hr
    cases hr
    exact .inr ⟨rfl, rfl⟩

theorem Inv.made (hi : Inv all boot handed live tables s) (hl : s.Linked) (hnone : s.pde dir (pdx va) = none)
    (hs : s.createPageTable dir va = some (s', t)) : Grows s s' ∧ s'.pde dir (pdx va) = some t := by
  obtain ⟨hcreated, -⟩ := hi.created hl hs
  exact ⟨hcreated.grows hnone, (hcreated.pde ..).trans (if_pos ⟨rfl, rfl⟩)⟩

omit [DecidableEq D] in
theorem mapFrameIn_grows (ht : s.pde dir (pdx va) = some t) (hs : s.mapFrameIn t f va perm = some s') : Grows s s' := by
  obtain ⟨m, hm, rfl⟩ := Option.map_eq_some_iff.mp hs
  exact grows_of_entry (h := { s.heap with mem := m }) ht fun c hc => pte_mapFrame hm hc

theorem Inv.mapFrame_grows (hi : Inv all boot handed live tables s) (hl : s.Linked) (hs : s.mapFrame dir f va perm = some s') :
    Grows s s' := by
  obtain ⟨r, hr, hs⟩ := Option.bind_eq_some_iff.mp hs
  rcases hi.found hl hr with ⟨t, rfl, ht⟩ | ⟨rfl, hnone⟩
  · exact mapFrameIn_grows ht hs
  · obtain ⟨⟨s₁, t⟩, hs₁, hs⟩ := Option.bind_eq_some_iff.mp hs
    obtain ⟨hgrows, ht⟩ := hi.made hl hnone hs₁
    exact hgrows.trans (mapFrameIn_grows ht hs)

omit [DecidableEq D] in
theorem writeEntry_grows {e : Pte} (ht : s.pde dir (pdx va) = some t) : Grows s (s.writeEntry t (ptx va) e) :=
  grows_of_entry (h := { s.heap with mem := _ }) ht fun _ hc => Function.update_of_ne hc ..

omit [DecidableEq D] in
theorem loadtimeMapFrameIn_grows (ht : s.pde dir (pdx va) = some t) : Grows s (s.loadtimeMapFrameIn t f va perm) :=
  grows_of_entry (h := { s.heap with mem := _ }) ht fun _ hc => Function.update_of_ne hc ..

end Paging

namespace PagingRun

variable {D : Type} [DecidableEq D] {all : List PageNo} {boot : PageNo → Nat} {s t u : PagingRun D}

/-- One call. -/
inductive Call : PagingRun D → PagingRun D → Prop
  | kmalloc {s t : PagingRun D} {size va : Nat} (hsize : size ≤ 4294963200) (hs : s.kmalloc size = some (t, va)) : Call s t
  | kfree {s t : PagingRun D} {va : Nat} (hlive : va ∈ s.live) (hs : s.kfree va = some t) : Call s t
  | allocateFrame {s t : PagingRun D} {f : PageNo} (hs : s.allocateFrame = some (t, f)) : Call s t
  | mapFrame {s t : PagingRun D} {dir : D} {f : PageNo} {va : Nat} {perm : BitVec 12} (hva : va < userTop)
      (hs : s.mapFrame dir f va perm = some t) : Call s t
  | unmapFrame {s t : PagingRun D} {dir : D} {va : Nat} (hs : s.unmapFrame dir va = some t) : Call s t
  | allocPage {s t : PagingRun D} {dir : D} {va : Nat} {perms : BitVec 12} (hva : va < userTop)
      (hs : s.step (.allocPage dir va perms) = some t) : Call s t
  | ptSetPagePermissions {s t : PagingRun D} {dir : D} {va : Nat} {toSet toClear : BitVec 12}
      (hs : s.ptSetPagePermissions dir va toSet toClear = some t) : Call s t
  | createPageTable {s : PagingRun D} {p : Paging D} {dir : D} {va : Nat} {x : PageNo} (hva : va < userTop)
      (hnone : s.paging.pde dir (pdx va) = none) (hs : s.paging.createPageTable dir va = some (p, x)) :
      Call s { s with paging := p }
  | markPage {s : PagingRun D} {p : Paging D} {dir : D} {va : Nat} (hva : va < userTop) (hs : s.paging.markPage dir va = some p) :
      Call s { s with paging := p }
  | loadtimeMapFrame {s : PagingRun D} {p : Paging D} {dir : D} {f : PageNo} {va : Nat} {perm : BitVec 12} (hva : va < userTop)
      (hs : s.paging.loadtimeMapFrame dir f va perm = some p) : Call s { s with paging := p, handed := s.handed.erase f }
  /-- A table of the kernel half: a page of the heap is cleared. -/
  | kernelTable {s t : PagingRun D} {ptr : Nat} {x : PageNo} (hs : s.kmalloc pageSize = some (t, ptr))
      (hframe : Paging.frameAt t.paging.heap ptr = some x) :
      Call s { t with paging := { t.paging with heap := { t.paging.heap with mem := Paging.clearTable t.paging.heap.mem x } } }

/-- A sequence of calls, each in a state where the accounts are right. -/
inductive Calls (all : List PageNo) (boot : PageNo → Nat) : PagingRun D → PagingRun D → Prop
  | refl (s : PagingRun D) : Calls all boot s s
  | tail {s t u : PagingRun D} : Calls all boot s t → t.WalkInv all boot → Call t u → Calls all boot s u

theorem Calls.single (h : s.WalkInv all boot) (hc : Call s t) : Calls all boot s t := .tail (.refl s) h hc

theorem Calls.trans (h : Calls all boot s t) (h' : Calls all boot t u) : Calls all boot s u := by
  induction h' with
  | refl => exact h
  | tail _ hwalk hc ih => exact .tail ih hwalk hc

/-- A call maps frames only in tables that a directory entry names. -/
theorem Call.grows (hc : Call s t) (h : s.WalkInv all boot) : Paging.Grows s.paging t.paging := by
  obtain ⟨⟨tables, hi⟩, hl⟩ := h
  cases hc with
  | kmalloc hsize hs =>
    obtain ⟨⟨k, va⟩, hk, heq⟩ := Option.map_eq_some_iff.mp hs
    cases heq
    obtain ⟨F, lost, howned⟩ := hi.owned
    exact Paging.grows_of_user rfl (howned.kmalloc_steps hsize hk).pte_user
  | kfree _ hs =>
    obtain ⟨k, hk, rfl⟩ := Option.map_eq_some_iff.mp hs
    exact Paging.grows_of_user rfl (KHeap.kfree_steps hk).pte_user
  | allocateFrame hs =>
    obtain ⟨⟨p, g⟩, hp, heq⟩ := Option.map_eq_some_iff.mp hs
    cases heq
    obtain ⟨⟨m, g⟩, hm, heq⟩ := Option.map_eq_some_iff.mp hp
    cases heq
    exact Paging.grows_of_user rfl fun x i => by rw [pte_allocateFrame hm]
  | mapFrame _ hs =>
    obtain ⟨p, hp, rfl⟩ := Option.map_eq_some_iff.mp hs
    exact hi.mapFrame_grows hl hp
  | unmapFrame hs =>
    obtain ⟨p, hp, rfl⟩ := Option.map_eq_some_iff.mp hs
    obtain ⟨r, hr, hp⟩ := Option.bind_eq_some_iff.mp hp
    rcases hi.found hl hr with ⟨x, rfl, hx⟩ | ⟨rfl, -⟩
    · obtain ⟨m, hm, rfl⟩ := Option.map_eq_some_iff.mp hp
      exact Paging.grows_of_entry (h := { s.paging.heap with mem := m }) hx fun c hc => pte_unmapFrame hm hc
    · cases hp
      exact Paging.grows_of_user rfl fun _ _ => rfl
  | allocPage _ hs =>
    obtain ⟨p, hp, rfl⟩ := Option.map_eq_some_iff.mp hs
    obtain ⟨r, -, hp⟩ := Option.bind_eq_some_iff.mp hp
    cases r with
    | some f =>
      cases hp
      exact Paging.grows_of_user rfl fun _ _ => rfl
    | none =>
      obtain ⟨⟨p₁, f⟩, hp₁, hp⟩ := Option.bind_eq_some_iff.mp hp
      obtain ⟨hi₁, -⟩ := hi.allocateFrame hp₁
      obtain ⟨hl₁, -⟩ := hi.allocateFrame_linked hl hp₁
      obtain ⟨⟨m, g⟩, hm, heq⟩ := Option.map_eq_some_iff.mp hp₁
      cases heq
      have hgrows : Paging.Grows s.paging { s.paging with heap := { s.paging.heap with mem := m } } :=
        Paging.grows_of_user rfl fun x i => by rw [pte_allocateFrame hm]
      exact hgrows.trans (hi₁.mapFrame_grows hl₁ hp)
  | ptSetPagePermissions hs =>
    obtain ⟨p, hp, rfl⟩ := Option.map_eq_some_iff.mp hs
    obtain ⟨r, hr, hp⟩ := Option.bind_eq_some_iff.mp hp
    rcases hi.found hl hr with ⟨x, rfl, hx⟩ | ⟨rfl, -⟩
    · cases hp
      exact Paging.writeEntry_grows hx
    · exact nomatch hp
  | createPageTable _ hnone hs => exact (hi.made hl hnone hs).1
  | markPage _ hs =>
    obtain ⟨r, hr, hs⟩ := Option.bind_eq_some_iff.mp hs
    rcases hi.found hl hr with ⟨x, rfl, hx⟩ | ⟨rfl, hnone⟩
    · cases hs
      exact Paging.writeEntry_grows hx
    · obtain ⟨⟨p₁, x⟩, hp₁, rfl⟩ := Option.map_eq_some_iff.mp hs
      obtain ⟨hgrows, hx⟩ := hi.made hl hnone hp₁
      exact hgrows.trans (Paging.writeEntry_grows hx)
  | loadtimeMapFrame _ hs =>
    obtain ⟨r, hr, hs⟩ := Option.bind_eq_some_iff.mp hs
    rcases hi.found hl hr with ⟨x, rfl, hx⟩ | ⟨rfl, hnone⟩
    · cases hs
      exact Paging.loadtimeMapFrameIn_grows hx
    · obtain ⟨⟨p₁, x⟩, hp₁, rfl⟩ := Option.map_eq_some_iff.mp hs
      obtain ⟨hgrows, hx⟩ := hi.made hl hnone hp₁
      exact hgrows.trans (Paging.loadtimeMapFrameIn_grows hx)
  | @kernelTable t _ x hs _ =>
    obtain ⟨⟨k, va⟩, hk, heq⟩ := Option.map_eq_some_iff.mp hs
    cases heq
    obtain ⟨F, lost, howned⟩ := hi.owned
    have hsteps := howned.kmalloc_steps (by decide) hk
    refine ⟨fun _ _ _ hx => hx, fun y i hne => .inl ?_⟩
    rcases eq_or_ne y x with rfl | hyx
    · have hclear : (Paging.clearTable k.mem y).hold (.user y i) = none := by
        rw [hold_eq_none, Paging.pte_clearTable, if_pos rfl]
        rfl
      exact absurd hclear hne
    · have hpte : (Paging.clearTable k.mem x).pte (.user y i) = s.paging.heap.mem.pte (.user y i) :=
        ((Paging.pte_clearTable ..).trans (if_neg hyx)).trans (hsteps.pte_user y i)
      have hhold : (Paging.clearTable k.mem x).hold (.user y i) = s.paging.heap.mem.hold (.user y i) := by
        simp only [Frames.hold, hpte]
      exact hhold ▸ hne

/-- No sequence of calls maps a frame in a table that no directory entry names. -/
theorem Calls.grows (h : Calls all boot s t) : Paging.Grows s.paging t.paging := by
  induction h with
  | refl => exact .refl _
  | tail _ hwalk hc ih => exact ih.trans (hc.grows hwalk)

theorem Calls.attached (h : Calls all boot s t) (hs : s.paging.Attached) : t.paging.Attached := hs.grows h.grows

end PagingRun

end Fos.Mem
