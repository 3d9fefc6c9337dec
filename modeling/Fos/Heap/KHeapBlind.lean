import Fos.Heap.KHeap

/-! `kmalloc` does not look at the page tables of the processes: with other entries in them it does the same. -/

namespace Fos.Heap

namespace DynAlloc

variable {σ : Type} {ops : PageOps σ} {φ : σ → σ} {w : σ} {d : DynAlloc} {size : Nat}

/-- `get_page` does not look at what `φ` changes. -/
def Blind (ops : PageOps σ) (φ : σ → σ) : Prop :=
  ∀ w link va, ops.getPage (φ w) link va = (ops.getPage w link va).map fun (w, link) => (φ w, link)

theorem openPage_blind (h : Blind ops φ) (c : SizeClass) (blockSize page : Nat) :
    openPage ops (φ w) d c blockSize page = (openPage ops w d c blockSize page).map fun (w, d, va) => (φ w, d, va) := by
  unfold openPage
  dsimp only
  cases toPageVa { d with pages := d.pages.remove () page } page with
  | none => rfl
  | some pageVa =>
    rw [Option.bind_some, Option.bind_some, h]
    cases ops.getPage w d.blocks.link pageVa with
    | none => rfl
    | some r =>
      obtain ⟨w', link⟩ := r
      simp only [Option.map_some, Option.bind_some, Option.map_bind]
      congr 1
      funext d'
      rw [Function.comp_apply, Option.map_map]
      rfl

theorem allocLarger_blind (cs : List SizeClass) :
    allocLarger (φ w) d cs = (allocLarger w d cs).map fun (w, d, va) => (φ w, d, va) := by
  induction cs with
  | nil => rfl
  | cons c cs ih =>
    unfold allocLarger
    cases (d.blocks.head c).first with
    | none => exact ih
    | some blk => rfl

theorem allocBlock_blind (h : Blind ops φ) :
    allocBlock ops (φ w) d size = (allocBlock ops w d size).map fun (w, d, va) => (φ w, d, va) := by
  unfold allocBlock
  split
  case isFalse => rfl
  case isTrue =>
    split
    case isTrue => rfl
    case isFalse =>
      dsimp only
      split
      · rfl
      · split
        · exact openPage_blind h ..
        · exact allocLarger_blind _

end DynAlloc

end Fos.Heap

namespace Fos.Mem.Frames
open Lib Heap

variable {m : Frames} {g : PageNo → Fin 1024 → Pte} {p f : PageNo} {va : Nat} {perm : BitVec 12}

/-- The memory with the entries `g` in the page tables of the processes. -/
def withUser (g : PageNo → Fin 1024 → Pte) (m : Frames) : Frames :=
  { m with pte := fun
      | .user t i => g t i
      | .kernel p => m.pte (.kernel p) }

theorem withUser_update (g : PageNo → Fin 1024 → Pte) (m : Frames) (p : PageNo) (e : Pte) :
    Function.update (m.withUser g).pte (.kernel p) e = (({ m with pte := Function.update m.pte (.kernel p) e } : Frames).withUser g).pte := by
  funext c
  cases c with
  | kernel q =>
    by_cases hq : Slot.kernel q = .kernel p
    · simp only [withUser, hq, Function.update_self]
    · simp only [withUser, Function.update_of_ne hq]
  | user t i =>
    have hne : Slot.user t i ≠ .kernel p := nofun
    rw [Function.update_of_ne hne]
    rfl

theorem allocateFrame_withUser : (m.withUser g).allocateFrame = m.allocateFrame.map fun (m, f) => (m.withUser g, f) := by
  unfold allocateFrame
  show ((m.freeFrameList.head ()).first.map _) = _
  cases (m.freeFrameList.head ()).first <;> rfl

theorem decrementReferences_withUser (f : PageNo) :
    (m.withUser g).decrementReferences f = (m.decrementReferences f).withUser g := by
  unfold decrementReferences
  rw [apply_ite (withUser g)]
  rfl

theorem release_withUser (p f : PageNo) : (m.withUser g).release (.kernel p) f = (m.release (.kernel p) f).withUser g := by
  unfold release
  rw [decrementReferences_withUser]
  dsimp only
  rw [withUser_update]
  rfl

theorem install_withUser (p f : PageNo) (va : Nat) (perm : BitVec 12) :
    (m.withUser g).install (.kernel p) f va perm = (m.install (.kernel p) f va perm).withUser g := by
  unfold install
  rw [withUser_update]
  rfl

theorem unmapFrame_withUser : (m.withUser g).unmapFrame (.kernel p) = (m.unmapFrame (.kernel p)).map (withUser g) := by
  have hinfo : (m.withUser g).getFrameInfo (.kernel p) = m.getFrameInfo (.kernel p) := rfl
  unfold unmapFrame
  rw [hinfo]
  cases m.getFrameInfo (.kernel p) with
  | none => rfl
  | some r =>
    cases r with
    | none => rfl
    | some f => exact congrArg some (release_withUser p f)

theorem mapFrame_withUser :
    (m.withUser g).mapFrame (.kernel p) f va perm = (m.mapFrame (.kernel p) f va perm).map (withUser g) := by
  have hpte : (m.withUser g).pte (.kernel p) = m.pte (.kernel p) := rfl
  unfold mapFrame
  rw [hpte, unmapFrame_withUser, install_withUser]
  split
  · split
    · rfl
    · cases m.unmapFrame (.kernel p) with
      | none => rfl
      | some n => exact congrArg some (install_withUser p f va perm)
  · rfl

theorem mapNewFrame_withUser :
    (m.withUser g).mapNewFrame (.kernel p) va perm = (m.mapNewFrame (.kernel p) va perm).map (withUser g) := by
  unfold mapNewFrame
  rw [allocateFrame_withUser]
  cases m.allocateFrame with
  | none => rfl
  | some r => exact mapFrame_withUser

theorem allocPage_withUser : (m.withUser g).allocPage (.kernel p) va perm =
    (m.allocPage (.kernel p) va perm).map fun (m, fresh) => (m.withUser g, fresh) := by
  have hinfo : (m.withUser g).getFrameInfo (.kernel p) = m.getFrameInfo (.kernel p) := rfl
  unfold allocPage
  rw [hinfo]
  cases m.getFrameInfo (.kernel p) with
  | none => rfl
  | some r =>
    cases r with
    | some f => rfl
    | none =>
      dsimp only [Option.bind_some]
      rw [mapNewFrame_withUser]
      cases m.mapNewFrame (.kernel p) va perm <;> rfl

end Fos.Mem.Frames

namespace Fos.Heap
open Lib Mem

theorem kernelPages_blind (g : PageNo → Fin 1024 → Pte) : DynAlloc.Blind kernelPages (Frames.withUser g) := by
  intro m link va
  unfold kernelPages
  dsimp only
  rw [Frames.allocPage_withUser]
  cases m.allocPage (.kernel (pageNo (roundDown va pageSize))) (roundDown va pageSize) permWriteable <;> rfl

theorem mapFrameRange_withUser {g : PageNo → Fin 1024 → Pte} {m : Frames} {va stop fuel : Nat} :
    mapFrameRange (m.withUser g) va stop fuel = (mapFrameRange m va stop fuel).map (Frames.withUser g) := by
  induction fuel generalizing m va with
  | zero => rfl
  | succ fuel ih =>
    unfold mapFrameRange
    split
    case isFalse => rfl
    case isTrue =>
      rw [Frames.mapNewFrame_withUser]
      cases m.mapNewFrame (.kernel (pageNo va)) va permWriteable with
      | none => rfl
      | some n => exact ih

namespace KHeap

variable {s : KHeap} {g : PageNo → Fin 1024 → Pte} {va size : Nat}

def withUser (g : PageNo → Fin 1024 → Pte) (s : KHeap) : KHeap := { s with mem := s.mem.withUser g }

theorem allocBlock_withUser : (s.withUser g).allocBlock size = (s.allocBlock size).map fun (s, va) => (s.withUser g, va) := by
  unfold allocBlock
  dsimp only [withUser]
  rw [DynAlloc.allocBlock_blind (kernelPages_blind g)]
  cases DynAlloc.allocBlock kernelPages s.mem s.da size <;> rfl

theorem allocRegion_withUser : (s.withUser g).allocRegion va size = (s.allocRegion va size).map (withUser g) := by
  unfold allocRegion
  dsimp only [withUser]
  rw [mapFrameRange_withUser]
  cases mapFrameRange s.mem va (u32 (va + size)) walkFuel with
  | none => rfl
  | some m =>
    have hblock : ({ s with mem := m.withUser g } : KHeap).allocBlock sizeofBulk = _ := allocBlock_withUser (s := { s with mem := m })
    dsimp only [Option.map_some, Option.bind_some]
    rw [hblock]
    cases allocBlock { s with mem := m } sizeofBulk <;> rfl

theorem extendBreak_withUser : (s.withUser g).extendBreak size = (s.extendBreak size).map fun (s, va) => (s.withUser g, va) := by
  have hregion : (s.withUser g).allocRegion s.kheapPageAllocBreak size = _ := allocRegion_withUser
  unfold extendBreak
  dsimp only [withUser] at hregion ⊢
  rw [hregion]
  simp only [apply_ite (Option.map _), Option.map_some, Option.map_map]
  rfl

/-- `page_alloc_custom_fit` -/
theorem pageAllocCustomFit_withUser :
    (s.withUser g).pageAllocCustomFit size = (s.pageAllocCustomFit size).map fun (s, va) => (s.withUser g, va) := by
  have hfit : (s.withUser g).exactFit size = s.exactFit size := rfl
  have hregion : ∀ bulks va, ({ s.withUser g with bulks := bulks } : KHeap).allocRegion va size =
      (({ s with bulks := bulks } : KHeap).allocRegion va size).map (withUser g) :=
    fun bulks _ => allocRegion_withUser (s := { s with bulks := bulks })
  unfold pageAllocCustomFit
  rw [hfit]
  cases s.exactFit size with
  | none => rfl
  | some r =>
    cases r with
    | some b =>
      dsimp only [Option.bind_some]
      rw [hregion]
      rw [Option.map_map, Option.map_map]
      rfl
    | none =>
      have hbulks : (s.withUser g).bulks = s.bulks := rfl
      dsimp only [Option.bind_some]
      rw [hbulks, extendBreak_withUser]
      split
      · split
        · rename_i bb _ _
          cases s.bulks.takeFront bb size with
          | none => rfl
          | some bulks =>
            dsimp only [Option.bind_some]
            rw [hregion]
            cases allocRegion { s with bulks := bulks } (s.bulks.start bb) size <;> rfl
        · rfl
      · rfl

/-- With other entries in the user page tables `kmalloc` returns the same pointer and does the same to the rest. -/
theorem kmalloc_withUser : (s.withUser g).kmalloc size = (s.kmalloc size).map fun (s, va) => (s.withUser g, va) := by
  unfold kmalloc
  split
  · rfl
  · split
    · exact allocBlock_withUser
    · exact pageAllocCustomFit_withUser

end KHeap

end Fos.Heap
