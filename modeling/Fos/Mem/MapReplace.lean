import Fos.Mem.UserMem
import Fos.Mem.WalkRun

/-! The frame that `map_frame` replaces. `get_frame_info` and `unmap_frame` test whether an entry has a frame number or
    `PERM_BUFFERED`, `map_frame` tests `PERM_PRESENT` only: the frame of an entry whose `PERM_PRESENT` was cleared is lost. -/

namespace Fos.Mem
open Lib Heap Frames

namespace Frames

variable {m m' : Frames} {all F out : List PageNo} {boot : PageNo → Nat} {c : Slot} {f g : PageNo} {va : Nat} {perm : BitVec 12}

/-- The entry at `c` holds `f`, and another frame that it held before has lost a reference. With its last reference it was
    freed. -/
structure Replaced (m : Frames) (c : Slot) (f : PageNo) (m' : Frames) : Prop where
  holds : m'.hold c = some f
  released : ∀ g, m.getFrameInfo c = some (some g) → g ≠ f → m'.references g = u16 (m.references g + 65535) ∧
    (m'.references g = 0 → (m'.freeFrameList.head ()).first = some g)

theorem hasFrame_of_present {e : Pte} (h : e.present) : e.hasFrame := by
  by_contra hnone
  have := (hasFrame_eq_false.mp (by simpa using hnone)).2.1
  rw [← present_iff, h] at this
  exact nomatch this

theorem references_decrementReferences (m : Frames) (f : PageNo) :
    (m.decrementReferences f).references f = u16 (m.references f + 65535) ∧
      (u16 (m.references f + 65535) = 0 → ((m.decrementReferences f).freeFrameList.head ()).first = some f) := by
  unfold decrementReferences
  dsimp only
  split
  case isTrue hzero =>
    replace hzero : u16 (m.references f + 65535) = 0 := by rwa [Function.update_self] at hzero
    refine ⟨?_, fun _ => Lists.insertHead_first ..⟩
    rw [hzero]
    exact Function.update_self ..
  case isFalse hne =>
    replace hne : u16 (m.references f + 65535) ≠ 0 := by rwa [Function.update_self] at hne
    exact ⟨Function.update_self .., fun h => absurd h hne⟩

/-- A reference is lost by the decrement. -/
theorem decremented_ne (n : Nat) : u16 (n + 65535) ≠ n := by
  unfold u16
  omega

/-- What `map_frame` does to the entry, without any assumption about the state. -/
theorem mapFrame_cases (hs : m.mapFrame c f va perm = some m') :
    ((m.pte c).present ∧ (m.pte c).frame = f ∧ m' = m) ∨
      ((m.pte c).present = false ∧ m' = m.install c f va perm) ∨
        ∃ g, (m.pte c).present ∧ g ≠ f ∧ m.getFrameInfo c = some (some g) ∧ m' = (m.release c g).install c f va perm := by
  unfold Frames.mapFrame at hs
  split at hs
  case isTrue hp =>
    split at hs
    case isTrue hf =>
      cases hs
      exact .inl ⟨hp, hf, rfl⟩
    case isFalse hne =>
      obtain ⟨m₁, hm₁, rfl⟩ := Option.map_eq_some_iff.mp hs
      obtain ⟨r, hr, rfl⟩ := Option.map_eq_some_iff.mp hm₁
      have hframe := hr
      unfold getFrameInfo at hframe
      rw [if_pos (hasFrame_of_present hp)] at hframe
      split at hframe
      · cases hframe
        exact .inr (.inr ⟨_, hp, hne, hr, rfl⟩)
      · exact nomatch hframe
  case isFalse hp =>
    cases hs
    exact .inr (.inl ⟨by simpa using hp, rfl⟩)

theorem Replaced.of_present (hp : (m.pte c).present) (hs : m.mapFrame c f va perm = some m') : Replaced m c f m' := by
  rcases mapFrame_cases hs with ⟨-, hf, rfl⟩ | ⟨hnone, -⟩ | ⟨g, -, hgf, hg, rfl⟩
  · refine ⟨hold_eq_some.mpr ⟨hp, hf⟩, fun g hg hne => ?_⟩
    unfold getFrameInfo at hg
    rw [if_pos (hasFrame_of_present hp)] at hg
    split at hg
    · cases hg
      exact absurd hf hne
    · exact nomatch hg
  · rw [hp] at hnone
    exact nomatch hnone
  · refine ⟨by rw [hold_install, Function.update_self], fun g' hg' _ => ?_⟩
    cases hg.symm.trans hg'
    obtain ⟨hrefs, hfirst⟩ := references_decrementReferences m g
    have hkept : ((m.release c g).install c f va perm).references g = (m.decrementReferences g).references g :=
      Function.update_of_ne hgf ..
    rw [hkept, hrefs]
    exact ⟨rfl, hfirst⟩

/-- `map_frame` replaces the frame exactly when the entry is present, or held no other frame. -/
theorem replaced_iff (hs : m.mapFrame c f va perm = some m') :
    Replaced m c f m' ↔ (m.pte c).present ∨ ∀ g, m.getFrameInfo c = some (some g) → g = f := by
  constructor
  · intro h
    rcases mapFrame_cases hs with ⟨hp, -⟩ | ⟨-, rfl⟩ | ⟨g, hp, -⟩
    · exact .inl hp
    · refine .inr fun g hg => by_contra fun hne => ?_
      -- Without `PERM_PRESENT` the frame `g` is not unmapped, and keeps its reference.
      have hrefs := (h.released g hg hne).1
      have hkept : (m.install c f va perm).references g = m.references g := Function.update_of_ne hne ..
      exact decremented_ne _ (hrefs.symm.trans hkept)
    · exact .inl hp
  · rintro (hp | hnone)
    · exact .of_present hp hs
    · by_cases hp : (m.pte c).present
      · exact .of_present hp hs
      · rcases mapFrame_cases hs with ⟨hp', -⟩ | ⟨-, rfl⟩ | ⟨g, hp', -⟩
        · exact absurd hp' hp
        · exact ⟨by rw [hold_install, Function.update_self], fun g hg hne => absurd (hnone g hg) hne⟩
        · exact absurd hp' hp

end Frames

/-! ### Any directory and any address -/

namespace Paging

variable {D : Type} [DecidableEq D]

/-- The entry of an address: in the table that the walk finds, and from `USER_TOP` on in the kernel's tables. -/
def entryOf (s : Paging D) (dir : D) (va : Nat) : Option Slot :=
  if va < userTop then
    match s.getPageTable dir va with
    | some (.inMemory table) => some (.user table (ptx va))
    | _ => none
  else some (.kernel (pageNo va))

/-- The entry that `map_frame` writes, which may be in a table that it creates. -/
def mappedEntry (s : Paging D) (dir : D) (va : Nat) : Option Slot :=
  if va < userTop then
    match s.getPageTable dir va with
    | some .notExist => (s.createPageTable dir va).map fun (_, table) => .user table (ptx va)
    | _ => s.entryOf dir va
  else s.entryOf dir va

/-- `map_frame(ptr_page_directory, ptr_frame_info, virtual_address, perm)` for any address. The kernel's tables exist. -/
def mapFrameAt (s : Paging D) (dir : D) (f : PageNo) (va : Nat) (perm : BitVec 12) : Option (Paging D) :=
  if va < userTop then s.mapFrame dir f va perm
  else (s.heap.mem.mapFrame (.kernel (pageNo va)) f va perm).map fun m => { s with heap := { s.heap with mem := m } }

/-- `get_frame_info(ptr_page_directory, virtual_address, &ptr_page_table)` for any address -/
def getFrameInfoAt (s : Paging D) (dir : D) (va : Nat) : Option (Option PageNo) :=
  if va < userTop then s.getFrameInfo dir va else s.heap.mem.getFrameInfo (.kernel (pageNo va))

/-- After `map_frame` the entry of the address holds `f`, and another frame that was mapped there before has lost a reference.
    With its last reference it was freed. -/
structure Replaces (s : Paging D) (dir : D) (va : Nat) (f : PageNo) (s' : Paging D) : Prop where
  holds : ∃ c, s.mappedEntry dir va = some c ∧ s'.heap.mem.hold c = some f
  released : ∀ g, s.getFrameInfoAt dir va = some (some g) → g ≠ f →
    s'.heap.mem.references g = u16 (s.heap.mem.references g + 65535) ∧
      (s'.heap.mem.references g = 0 → (s'.heap.mem.freeFrameList.head ()).first = some g)

variable {s s' : Paging D} {dir : D} {f : PageNo} {va : Nat} {perm : BitVec 12}

/-- `map_frame` writes an entry that is there, or one in a table that it creates. -/
theorem mapFrameAt_cases (hs : s.mapFrameAt dir f va perm = some s') :
    (∃ c, s.entryOf dir va = some c ∧ s.mappedEntry dir va = some c ∧
      s.getFrameInfoAt dir va = s.heap.mem.getFrameInfo c ∧ s.heap.mem.mapFrame c f va perm = some s'.heap.mem) ∨
    (s.entryOf dir va = none ∧ s.getFrameInfoAt dir va = some none ∧ ∃ s₁ table,
      s.createPageTable dir va = some (s₁, table) ∧ s.mappedEntry dir va = some (.user table (ptx va)) ∧
        s₁.heap.mem.mapFrame (.user table (ptx va)) f va perm = some s'.heap.mem) := by
  unfold mapFrameAt at hs
  unfold mappedEntry entryOf getFrameInfoAt
  by_cases huser : va < userTop
  · simp only [if_pos huser] at hs ⊢
    obtain ⟨r, hr, hs⟩ := Option.bind_eq_some_iff.mp hs
    unfold getFrameInfo
    rw [hr]
    cases r with
    | notExist =>
      obtain ⟨⟨s₁, table⟩, hcreate, hs⟩ := Option.bind_eq_some_iff.mp hs
      obtain ⟨m, hm, rfl⟩ := Option.map_eq_some_iff.mp hs
      exact .inr ⟨rfl, rfl, s₁, table, hcreate, by rw [hcreate, Option.map_some], hm⟩
    | null => exact nomatch hs
    | inMemory table =>
      obtain ⟨m, hm, rfl⟩ := Option.map_eq_some_iff.mp hs
      exact .inl ⟨_, rfl, rfl, rfl, hm⟩
  · simp only [if_neg huser] at hs ⊢
    obtain ⟨m, hm, rfl⟩ := Option.map_eq_some_iff.mp hs
    exact .inl ⟨_, rfl, rfl, rfl, hm⟩

theorem replaces_entry {c : Slot} (hmapped : s.mappedEntry dir va = some c)
    (hinfo : s.getFrameInfoAt dir va = s.heap.mem.getFrameInfo c) :
    Replaces s dir va f s' ↔ Frames.Replaced s.heap.mem c f s'.heap.mem := by
  constructor
  · rintro ⟨⟨c', hc', hhold⟩, hreleased⟩
    cases hmapped.symm.trans hc'
    exact ⟨hhold, hinfo ▸ hreleased⟩
  · rintro ⟨hhold, hreleased⟩
    exact ⟨⟨c, hmapped, hhold⟩, hinfo ▸ hreleased⟩

/-- The entries of a new table are empty, so that nothing is replaced there. -/
theorem Replaces.of_created {s₁ : Paging D} {table : PageNo} (hcreate : s.createPageTable dir va = some (s₁, table))
    (hmapped : s.mappedEntry dir va = some (.user table (ptx va))) (hinfo : s.getFrameInfoAt dir va = some none)
    (hm : s₁.heap.mem.mapFrame (.user table (ptx va)) f va perm = some s'.heap.mem) : Replaces s dir va f s' := by
  have hempty : s₁.heap.mem.pte (.user table (ptx va)) = {} := by
    obtain ⟨h, ptr, -, -, -, rfl⟩ := createPageTable_eq_some.mp hcreate
    exact (pte_clearTable h.mem table (ptx va)).trans (if_pos rfl)
  refine ⟨⟨_, hmapped, ?_⟩, fun g hg => nomatch hinfo.symm.trans hg⟩
  rcases Frames.mapFrame_cases hm with ⟨hp, -⟩ | ⟨-, heq⟩ | ⟨g, hp, -⟩
  · rw [hempty] at hp
    exact absurd hp (by decide)
  · rw [heq, hold_install, Function.update_self]
  · rw [hempty] at hp
    exact absurd hp (by decide)

/-- `map_frame` replaces the frame that was mapped, exactly when the entry was present or held no other frame. -/
theorem map_frame_replaces_iff (hs : s.mapFrameAt dir f va perm = some s') :
    Replaces s dir va f s' ↔ (∃ c, s.entryOf dir va = some c ∧ (s.heap.mem.pte c).present) ∨
      ∀ g, s.getFrameInfoAt dir va = some (some g) → g = f := by
  rcases mapFrameAt_cases hs with ⟨c, hc, hmapped, hinfo, hm⟩ | ⟨-, hinfo, s₁, table, hcreate, hmapped, hm⟩
  · have hpresent : (∃ c', s.entryOf dir va = some c' ∧ (s.heap.mem.pte c').present) ↔ (s.heap.mem.pte c).present = true := by
      rw [hc]
      simp
    rw [replaces_entry hmapped hinfo, Frames.replaced_iff hm, hinfo, hpresent]
  · exact iff_of_true (.of_created hcreate hmapped hinfo hm) (.inr fun g hg => nomatch hinfo.symm.trans hg)

/-- A page is allocated, and `map_frame` replaces its frame by another one. -/
theorem map_frame_replaces_iff_page : ∃ (s₀ : PagingRun Unit) (p p₁ p₂ : Paging Unit) (f : PageNo),
    PagingRun.afterBoot Unit 1024 768 = some s₀ ∧ s₀.paging.allocPage () 8388608 permUser = some p ∧
      p.allocateFrame = some (p₁, f) ∧ p₁.mapFrameAt () f 8388608 permUser = some p₂ ∧
        (Replaces p₁ () 8388608 f p₂ ↔ (∃ c, p₁.entryOf () 8388608 = some c ∧ (p₁.heap.mem.pte c).present) ∨
          ∀ g, p₁.getFrameInfoAt () 8388608 = some (some g) → g = f) := by
  have hrun : ((PagingRun.afterBoot Unit 1024 768).bind fun s₀ => (s₀.paging.allocPage () 8388608 permUser).bind fun p =>
      p.allocateFrame.bind fun (p₁, f) => p₁.mapFrameAt () f 8388608 permUser).isSome := by
    rw [PagingRun.afterBoot_eq]
    decide +kernel
  obtain ⟨p₂, hrun⟩ := Option.isSome_iff_exists.mp hrun
  obtain ⟨s₀, hboot, hrun⟩ := Option.bind_eq_some_iff.mp hrun
  obtain ⟨p, hp, hrun⟩ := Option.bind_eq_some_iff.mp hrun
  obtain ⟨⟨p₁, f⟩, hp₁, hp₂⟩ := Option.bind_eq_some_iff.mp hrun
  exact ⟨s₀, p, p₁, p₂, f, hboot, hp, hp₁, hp₂, map_frame_replaces_iff hp₂⟩

/-- A page is allocated and its `PERM_PRESENT` is cleared. The next `map_frame` overwrites the entry, and the old frame keeps
    its reference. -/
theorem map_frame_loses : ∃ (s₀ : PagingRun Unit) (p p₁ p₂ p₃ : Paging Unit) (f g : PageNo),
    PagingRun.afterBoot Unit 1024 768 = some s₀ ∧ s₀.paging.allocPage () 8388608 permUser = some p ∧
      p.ptSetPagePermissions () 8388608 0 permPresent = some p₁ ∧ p₁.allocateFrame = some (p₂, f) ∧
        p₂.mapFrameAt () f 8388608 permUser = some p₃ ∧ p₂.getFrameInfoAt () 8388608 = some (some g) ∧ g ≠ f ∧
          p₃.getFrameInfoAt () 8388608 = some (some f) ∧ p₃.heap.mem.references g = 1 ∧ ¬ Replaces p₂ () 8388608 f p₃ := by
  have hrun : ((PagingRun.afterBoot Unit 1024 768).bind fun s₀ => (s₀.paging.allocPage () 8388608 permUser).bind fun p =>
      (p.ptSetPagePermissions () 8388608 0 permPresent).bind fun p₁ => p₁.allocateFrame.bind fun (p₂, f) =>
        (p₂.mapFrameAt () f 8388608 permUser).bind fun p₃ => (p₂.getFrameInfoAt () 8388608).bind fun r => r.map fun g =>
          (decide (g ≠ f) && decide (p₃.getFrameInfoAt () 8388608 = some (some f)), p₂.heap.mem.references g,
            p₃.heap.mem.references g)) = some (true, 1, 1) := by
    rw [PagingRun.afterBoot_eq]
    decide +kernel
  obtain ⟨s₀, hboot, hrun⟩ := Option.bind_eq_some_iff.mp hrun
  obtain ⟨p, hp, hrun⟩ := Option.bind_eq_some_iff.mp hrun
  obtain ⟨p₁, hp₁, hrun⟩ := Option.bind_eq_some_iff.mp hrun
  obtain ⟨⟨p₂, f⟩, hp₂, hrun⟩ := Option.bind_eq_some_iff.mp hrun
  obtain ⟨p₃, hp₃, hrun⟩ := Option.bind_eq_some_iff.mp hrun
  obtain ⟨r, hr, hrun⟩ := Option.bind_eq_some_iff.mp hrun
  obtain ⟨g, rfl, hresult⟩ := Option.map_eq_some_iff.mp hrun
  simp only [Prod.mk.injEq, Bool.and_eq_true, decide_eq_true_eq] at hresult
  obtain ⟨⟨hne, hnow⟩, hbefore, hafter⟩ := hresult
  refine ⟨s₀, p, p₁, p₂, p₃, f, g, hboot, hp, hp₁, hp₂, hp₃, hr, hne, hnow, hafter, fun hreplaces => ?_⟩
  have hrefs := (hreplaces.released g hr hne).1
  rw [hbefore, hafter] at hrefs
  exact absurd hrefs (by decide)

end Paging

namespace PagingRun

variable {D : Type} [DecidableEq D] {all : List PageNo} {boot : PageNo → Nat} {s : PagingRun D} {p : Paging D} {dir : D}
  {f : PageNo} {va : Nat} {perm : BitVec 12}

/-- In the runs that leave `PERM_PRESENT` to `map_frame` and `unmap_frame`, no frame is lost. -/
theorem WalkInv.replaces (h : WalkInv all boot s) (hs : s.paging.mapFrameAt dir f va perm = some p) :
    Paging.Replaces s.paging dir va f p := by
  obtain ⟨⟨tables, hi⟩, -⟩ := h
  obtain ⟨F, ha⟩ := hi.accounts
  rcases Paging.mapFrameAt_cases hs with ⟨c, -, hmapped, hinfo, hm⟩ | ⟨-, hinfo, s₁, table, hcreate, hmapped, hm⟩
  · refine (Paging.replaces_entry hmapped hinfo).mpr ((replaced_iff hm).mpr ?_)
    rw [ha.getFrameInfo c]
    cases hp : (s.paging.heap.mem.pte c).present with
    | true => exact .inl rfl
    | false => exact .inr fun g hg => nomatch (hold_eq_none.mpr hp).symm.trans (Option.some.inj hg)
  · exact .of_created hcreate hmapped hinfo hm

end PagingRun

end Fos.Mem
