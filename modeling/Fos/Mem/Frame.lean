import Fos.Queue
import Fos.Types
import Fos.Lib.Holders
import Mathlib.Data.Fintype.Sum
import Mathlib.Data.Fintype.Prod
import Mathlib.Tactic.DeriveFintype

/-! Physical frames and page table entries (`kern/mem/memory_manager.c`): the free frame list, the reference counts,
    and what `map_frame` and `unmap_frame` do once `get_page_table` has found the entry of the address. A page table
    is named by its frame, and the tables of the kernel heap, which exist from the boot on, by the page itself. -/

namespace Fos.Mem
open Lib

/-- The number of a frame or of a page: the upper 20 bits of an address. -/
abbrev PageNo := Fin 1048576

instance neZeroPages : NeZero 1048576 := ⟨by decide⟩

/-- The entries of a directory and of a table -/
instance neZeroEntries : NeZero 1024 := ⟨by decide⟩

/-- The page of an address. -/
def pageNo (va : Nat) : PageNo := Fin.ofNat 1048576 (va / 4096)

def kernelHeapStart : Nat := 4127195136
def kernelHeapMax : Nat := 4294963200

def permPresent : BitVec 12 := 0x001#12
def permWriteable : BitVec 12 := 0x002#12
def permUser : BitVec 12 := 0x004#12
def permUsed : BitVec 12 := 0x020#12
def permModified : BitVec 12 := 0x040#12
def permBuffered : BitVec 12 := 0x200#12
def permUhpage : BitVec 12 := 0x400#12
def permAvailable : BitVec 12 := 0xE00#12

/-- A page table entry: the frame number and the low 12 bits. -/
structure Pte where
  frame : PageNo := 0
  perm : BitVec 12 := 0
  deriving DecidableEq, Repr

/-- `(entry & PERM_PRESENT) == PERM_PRESENT` -/
def Pte.present (e : Pte) : Bool := e.perm &&& permPresent = permPresent

/-- The test of `get_frame_info`. -/
def Pte.hasFrame (e : Pte) : Bool := e.frame ≠ 0 ∨ e.perm &&& (permPresent ||| permBuffered) ≠ 0

/-- Where a page table entry is: in the table of the kernel heap that maps `page`, or in the table of a user
    directory that is in the frame `table`. -/
inductive Slot where
  | kernel (page : PageNo)
  | user (table : PageNo) (i : Fin 1024)
  deriving DecidableEq, Repr, Fintype

/-- `frames_info`, `MemFrameLists.free_frame_list` and the page tables. Buffering is off. -/
structure Frames where
  numberOfFrames : Nat
  freeFrameList : Lists Unit PageNo := {}
  references : PageNo → Nat := fun _ => 0
  /-- The `va` field of the frame -/
  va : PageNo → Nat := fun _ => 0
  pte : Slot → Pte := fun _ => {}

namespace Frames

/-- `initialize_frame_info(ptr_frame_info)` -/
def initializeFrameInfo (m : Frames) (f : PageNo) : Frames :=
  { m with freeFrameList := { m.freeFrameList with link := Function.update m.freeFrameList.link f {} }
           references := Function.update m.references f 0
           va := Function.update m.va f 0 }

/-- `allocate_frame(&frame)`, which panics when there is no free frame. -/
def allocateFrame (m : Frames) : Option (Frames × PageNo) :=
  (m.freeFrameList.head ()).first.map fun f =>
    ({ m with freeFrameList := m.freeFrameList.remove () f }.initializeFrameInfo f, f)

/-- `free_frame(ptr_frame_info)` -/
def freeFrame (m : Frames) (f : PageNo) : Frames :=
  let m := m.initializeFrameInfo f
  { m with freeFrameList := m.freeFrameList.insertHead () f }

/-- `decrement_references(ptr_frame_info)`; the counter is a `uint16`. -/
def decrementReferences (m : Frames) (f : PageNo) : Frames :=
  let m := { m with references := Function.update m.references f (u16 (m.references f + 65535)) }
  if m.references f = 0 then m.freeFrame f else m

/-- `get_frame_info` on the entry at `c`: `none` when `to_frame_info` panics, `some none` for the null pointer. -/
def getFrameInfo (m : Frames) (c : Slot) : Option (Option PageNo) :=
  if (m.pte c).hasFrame then
    if (m.pte c).frame.val < m.numberOfFrames then some (some (m.pte c).frame) else none
  else some none

/-- `unmap_frame` on an entry that has the frame `f` -/
def release (m : Frames) (c : Slot) (f : PageNo) : Frames :=
  let m := m.decrementReferences f
  { m with va := Function.update m.va f 0
           pte := Function.update m.pte c ⟨0, (m.pte c).perm &&& permAvailable⟩ }

/-- `unmap_frame` on the entry at `c` -/
def unmapFrame (m : Frames) (c : Slot) : Option Frames :=
  (m.getFrameInfo c).map fun
  | some f => m.release c f
  | none => m

/-- The last part of `map_frame`. -/
def install (m : Frames) (c : Slot) (f : PageNo) (va : Nat) (perm : BitVec 12) : Frames :=
  { m with references := Function.update m.references f (u16 (m.references f + 1))
           va := Function.update m.va f va
           pte := Function.update m.pte c ⟨f, (m.pte c).perm &&& permAvailable ||| perm ||| permPresent⟩ }

/-- `map_frame` of the frame `f` on the entry at `c` -/
def mapFrame (m : Frames) (c : Slot) (f : PageNo) (va : Nat) (perm : BitVec 12) : Option Frames :=
  if (m.pte c).present then
    if (m.pte c).frame = f then some m else (m.unmapFrame c).map (·.install c f va perm)
  else some (m.install c f va perm)

/-- `allocate_frame` and then `map_frame` -/
def mapNewFrame (m : Frames) (c : Slot) (va : Nat) (perm : BitVec 12) : Option Frames :=
  m.allocateFrame.bind fun (m, f) => m.mapFrame c f va perm

/-- `alloc_page` on the entry at `c`, and whether it is now mapped to a new frame -/
def allocPage (m : Frames) (c : Slot) (va : Nat) (perms : BitVec 12) : Option (Frames × Bool) :=
  (m.getFrameInfo c).bind fun
  | some _ => some (m, false)
  | none => (m.mapNewFrame c va perms).map (·, true)

/-- The frames that `initialize_paging` puts into the free list: base memory behind the first three frames, and what
    is behind the data of the kernel, which ends before the frame `kernelEnd`. -/
def bootFree (numberOfFrames kernelEnd : Nat) : List PageNo :=
  (List.range' 3 157 ++ List.range' kernelEnd (numberOfFrames - kernelEnd)).map (Fin.ofNat 1048576)

/-- The counts that `initialize_paging` gives to the other frames: they are in use for good. -/
def bootReferences (kernelEnd : Nat) (f : PageNo) : Nat := if f.val < 3 ∨ 160 ≤ f.val ∧ f.val < kernelEnd then 1 else 0

/-- `initialize_paging()`. A frame is put into the free list as `free_frame` does it. -/
def initializePaging (numberOfFrames kernelEnd : Nat) : Frames :=
  (bootFree numberOfFrames kernelEnd).foldl freeFrame
    { numberOfFrames := numberOfFrames, references := bootReferences kernelEnd }

/-! ### Accounting -/

/-- The frame that the entry holds. -/
def hold (m : Frames) (c : Slot) : Option PageNo := if (m.pte c).present then some (m.pte c).frame else none

/-- The accounts of the frames `all` that the boot left free: `F` is the free list, `out` are the frames handed out
    by `allocate_frame` and not yet mapped, and the count of every other frame is what the boot set (`boot`). -/
structure Accounts (m : Frames) (all : List PageNo) (boot : PageNo → Nat) (F out : List PageNo) : Prop where
  free : m.freeFrameList.Spells fun _ => F
  mem : ∀ f, f ∈ F ↔ f ∈ all ∧ f ∉ out ∧ ∀ c, m.hold c ≠ some f
  out_mem : ∀ f ∈ out, f ∈ all ∧ ∀ c, m.hold c ≠ some f
  out_nodup : out.Nodup
  held : ∀ c f, m.hold c = some f → f ∈ all
  references : ∀ f ∈ all, m.references f = (holders m.hold f).ncard
  uint16 : ∀ f, m.references f < 65536
  boot : ∀ f, f ∉ all → m.references f = boot f
  valid : ∀ f ∈ all, f.val < m.numberOfFrames
  plain : ∀ c, (m.pte c).perm.getLsbD 9 = false
  clean : ∀ c, m.hold c = none → (m.pte c).frame = 0
  located : ∀ f, kernelHeapStart ≤ m.va f → m.hold (.kernel (pageNo (m.va f))) = some f

variable {m m' : Frames} {all F out : List PageNo} {boot : PageNo → Nat} {c : Slot} {f : PageNo} {va : Nat}
  {perm : BitVec 12}

/-! ### Permission bits -/

theorem present_iff {e : Pte} : e.present = e.perm.getLsbD 0 := by
  have hone : 0#12 ≠ BitVec.twoPow 12 0 := by decide
  rw [Pte.present, show permPresent = BitVec.twoPow 12 0 from rfl, BitVec.and_twoPow]
  split <;> simp_all

theorem hasFrame_eq_false {e : Pte} : e.hasFrame = false ↔ e.frame = 0 ∧ e.perm.getLsbD 0 = false ∧ e.perm.getLsbD 9 = false := by
  have hor : e.perm &&& (permPresent ||| permBuffered) = (e.perm &&& BitVec.twoPow 12 0) ||| (e.perm &&& BitVec.twoPow 12 9) :=
    BitVec.and_or_distrib_left
  have hone : BitVec.twoPow 12 0 ≠ 0#12 := by decide
  have hbuf : BitVec.twoPow 12 9 ≠ 0#12 := by decide
  rw [Pte.hasFrame, hor, BitVec.and_twoPow, BitVec.and_twoPow]
  split <;> split <;> simp_all [BitVec.or_eq_zero_iff]

theorem hold_eq_some : m.hold c = some f ↔ (m.pte c).present ∧ (m.pte c).frame = f := by
  unfold hold
  split <;> simp_all

theorem hold_eq_none : m.hold c = none ↔ (m.pte c).present = false := by
  unfold hold
  split <;> simp_all

theorem Accounts.hasFrame (h : Accounts m all boot F out) (c : Slot) : (m.pte c).hasFrame = (m.pte c).present := by
  cases hp : (m.pte c).present with
  | true =>
    have hne : (m.pte c).hasFrame ≠ false := fun hf => by
      rw [present_iff, (hasFrame_eq_false.mp hf).2.1] at hp
      exact nomatch hp
    simpa using hne
  | false => exact hasFrame_eq_false.mpr ⟨h.clean c (hold_eq_none.mpr hp), present_iff ▸ hp, h.plain c⟩

/-! ### Taking and giving frames -/

theorem Accounts.nodup (h : Accounts m all boot F out) : F.Nodup := h.free.nodup ()

/-- A frame is handed out. -/
theorem Accounts.allocateFrame (h : Accounts m all boot F out) (hs : m.allocateFrame = some (m', f)) :
    f ∈ F ∧ Accounts m' all boot (F.erase f) (f :: out) ∧ m'.pte = m.pte ∧ m'.va = Function.update m.va f 0 := by
  obtain ⟨f', hfirst, heq⟩ := Option.map_eq_some_iff.mp hs
  simp only [Prod.mk.injEq] at heq
  obtain ⟨rfl, rfl⟩ := heq
  have hf : f' ∈ F := h.free.mem_of_first hfirst
  obtain ⟨hall, hout, hnone⟩ := (h.mem f').mp hf
  have hspells : (m.freeFrameList.remove () f').Spells fun _ => F.erase f' := by
    have := h.free.remove (i := ()) hf
    rwa [Lists.update_unit] at this
  have hhold : ∀ c, ({ m with freeFrameList := m.freeFrameList.remove () f' }.initializeFrameInfo f').hold c = m.hold c :=
    fun _ => rfl
  refine ⟨hf, ⟨?_, fun g => ?_, fun g hg => ?_, List.nodup_cons.mpr ⟨hout, h.out_nodup⟩, h.held, fun g hg => ?_, fun g => ?_,
    fun g hg => ?_, h.valid, h.plain, h.clean, fun g hg => ?_⟩, rfl, rfl⟩
  · refine hspells.congr_link fun _ x hx => ?_
    have hne : x ≠ f' := fun hxf => (h.nodup.mem_erase_iff.mp hx).1 hxf
    rw [Function.update_of_ne hne]
  · rw [h.nodup.mem_erase_iff, h.mem g]
    simp only [hhold, List.mem_cons, not_or]
    tauto
  · rcases List.mem_cons.mp hg with rfl | hg
    · exact ⟨hall, hnone⟩
    · exact h.out_mem g hg
  · have hzero := h.references g hg
    by_cases hgf : g = f'
    · subst hgf
      show Function.update m.references g 0 g = _
      rw [Function.update_self]
      exact (ncard_holders_eq_zero.mpr hnone).symm
    · show Function.update m.references f' 0 g = _
      rw [Function.update_of_ne hgf]
      exact hzero
  · show Function.update m.references f' 0 g < _
    have := h.uint16 g
    rw [Function.update_apply]
    split <;> omega
  · have hgf : g ≠ f' := fun hgf => hg (hgf ▸ hall)
    show Function.update m.references f' 0 g = _
    rw [Function.update_of_ne hgf]
    exact h.boot g hg
  · have hgf : g ≠ f' := by
      rintro rfl
      have hzero : kernelHeapStart ≤ Function.update m.va g 0 g := hg
      rw [Function.update_self] at hzero
      exact absurd hzero (by decide)
    show m.hold (.kernel (pageNo (Function.update m.va f' 0 g))) = _
    have hg' : kernelHeapStart ≤ Function.update m.va f' 0 g := hg
    rw [Function.update_of_ne hgf] at hg' ⊢
    exact h.located g hg'

theorem hold_install : (m.install c f va perm).hold = Function.update m.hold c (some f) := by
  funext x
  by_cases hx : x = c
  · subst hx
    rw [Function.update_self, hold_eq_some]
    refine ⟨?_, by simp [install]⟩
    rw [present_iff]
    simp [install, permPresent]
  · rw [Function.update_of_ne hx]
    simp [install, hold, hx]

/-- An empty entry takes a frame that is handed out or mapped elsewhere. -/
theorem Accounts.install (h : Accounts m all boot F out) (hc : m.hold c = none) (hf : f ∈ all) (hfree : f ∉ F)
    (hmax : (holders m.hold f).ncard < 65535) (hperm : perm.getLsbD 9 = false)
    (hva : kernelHeapStart ≤ va → c = .kernel (pageNo va)) : Accounts (m.install c f va perm) all boot F (out.erase f) := by
  have hother : ∀ g, g ≠ f → ∀ x, (Function.update m.hold c (some f)) x ≠ some g ↔ m.hold x ≠ some g := by
    intro g hg x
    by_cases hx : x = c
    · rw [hx, Function.update_self, hc]
      simp [hg.symm]
    · rw [Function.update_of_ne hx]
  refine ⟨h.free, fun g => ?_, fun g hg => ?_, h.out_nodup.erase f, fun x g hx => ?_, fun g hg => ?_, fun g => ?_,
    fun g hg => ?_, h.valid, fun x => ?_, fun x hx => ?_, fun g hg => ?_⟩
  · rw [hold_install]
    by_cases hgf : g = f
    · subst hgf
      refine ⟨fun hg => absurd hg hfree, fun hg => absurd (Function.update_self c (some g) m.hold) (hg.2.2 c)⟩
    · rw [h.mem g, List.mem_erase_of_ne hgf]
      simp only [hother g hgf]
  · obtain ⟨hgf, hg⟩ := h.out_nodup.mem_erase_iff.mp hg
    rw [hold_install]
    exact ⟨(h.out_mem g hg).1, fun x => (hother g hgf x).mpr ((h.out_mem g hg).2 x)⟩
  · rw [hold_install] at hx
    by_cases hxc : x = c
    · rw [hxc, Function.update_self] at hx
      exact Option.some.inj hx ▸ hf
    · rw [Function.update_of_ne hxc] at hx
      exact h.held x g hx
  · rw [hold_install]
    by_cases hgf : g = f
    · subst hgf
      show Function.update m.references g _ g = _
      rw [Function.update_self, ncard_holders_attach hc, h.references g hg]
      exact u16_of_lt (by omega)
    · show Function.update m.references f _ g = _
      rw [Function.update_of_ne hgf, holders_attach_of_ne hc hgf]
      exact h.references g hg
  · show Function.update m.references f _ g < _
    have := h.uint16 g
    rw [Function.update_apply]
    split
    · exact Nat.mod_lt _ (by decide)
    · exact this
  · have hgf : g ≠ f := fun hgf => hg (hgf ▸ hf)
    show Function.update m.references f _ g = _
    rw [Function.update_of_ne hgf]
    exact h.boot g hg
  · by_cases hxc : x = c
    · subst hxc
      have := h.plain x
      simp_all [Frames.install, permPresent]
    · simpa [Frames.install, hxc] using h.plain x
  · rw [hold_install] at hx
    have hxc : x ≠ c := by
      rintro rfl
      rw [Function.update_self] at hx
      exact nomatch hx
    rw [Function.update_of_ne hxc] at hx
    simpa [Frames.install, hxc] using h.clean x hx
  · rw [hold_install]
    have hg' : kernelHeapStart ≤ Function.update m.va f va g := hg
    show Function.update m.hold c (some f) (.kernel (pageNo (Function.update m.va f va g))) = some g
    by_cases hgf : g = f
    · subst hgf
      rw [Function.update_self] at hg' ⊢
      rw [← hva hg', Function.update_self]
    · rw [Function.update_of_ne hgf] at hg' ⊢
      have hat := h.located g hg'
      have hne : Slot.kernel (pageNo (m.va g)) ≠ c := fun heq => by
        rw [heq, hc] at hat
        exact nomatch hat
      rw [Function.update_of_ne hne, hat]

theorem decrementReferences_pte : (m.decrementReferences f).pte = m.pte := by
  unfold decrementReferences
  dsimp only
  split <;> rfl

theorem hold_release : (m.release c f).hold = Function.update m.hold c none := by
  funext x
  by_cases hx : x = c
  · subst hx
    rw [Function.update_self, hold_eq_none, present_iff]
    simp [release, permAvailable]
  · rw [Function.update_of_ne hx]
    simp [release, hold, hx, decrementReferences_pte]

/-- The counts and the free list after `decrement_references`. -/
theorem decrementReferences_cases (m : Frames) (f : PageNo) (hpos : 0 < m.references f) (hlt : m.references f < 65536) :
    (m.decrementReferences f).numberOfFrames = m.numberOfFrames ∧
    (m.decrementReferences f).references = Function.update m.references f (m.references f - 1) ∧
    (1 < m.references f ∧ (m.decrementReferences f).freeFrameList = m.freeFrameList ∧ (m.decrementReferences f).va = m.va ∨
      m.references f = 1 ∧ (m.decrementReferences f).va = Function.update m.va f 0 ∧
        (m.decrementReferences f).freeFrameList =
          Lists.insertHead { m.freeFrameList with link := Function.update m.freeFrameList.link f {} } () f) := by
  have hdec : u16 (m.references f + 65535) = m.references f - 1 := by
    unfold u16
    omega
  unfold decrementReferences
  simp only [Function.update_self, hdec]
  split
  case isTrue hz =>
    refine ⟨rfl, ?_, .inr ⟨by omega, rfl, rfl⟩⟩
    show Function.update (Function.update m.references f _) f 0 = _
    rw [Function.update_idem, hz]
  case isFalse hz => exact ⟨rfl, rfl, .inl ⟨by omega, rfl, rfl⟩⟩

theorem Accounts.release (h : Accounts m all boot F out) (hc : m.hold c = some f) :
    ∃ F', Accounts (m.release c f) all boot F' out := by
  have hall := h.held c f hc
  have hcount := h.references f hall
  have hpos : 0 < m.references f := by
    rw [hcount, Nat.pos_iff_ne_zero, ne_eq, ncard_holders_eq_zero]
    exact fun hnone => hnone c hc
  obtain ⟨hnum, hrefs, hlist⟩ := decrementReferences_cases m f hpos (h.uint16 f)
  have hdetach := ncard_holders_detach hc
  have hnotout : f ∉ out := fun hf => (h.out_mem f hf).2 c hc
  have hnotfree : f ∉ F := fun hf => ((h.mem f).mp hf).2.2 c hc
  have hother : ∀ g, g ≠ f → ∀ x, (Function.update m.hold c none) x ≠ some g ↔ m.hold x ≠ some g := by
    intro g hg x
    by_cases hx : x = c
    · rw [hx, Function.update_self, hc]
      simp [hg.symm]
    · rw [Function.update_of_ne hx]
  -- The frame is in the free list afterwards exactly when no entry is left that holds it.
  have hfree : ∃ F', (m.release c f).freeFrameList.Spells (fun _ => F') ∧
      ∀ g, g ∈ F' ↔ g ∈ all ∧ g ∉ out ∧ ∀ x, Function.update m.hold c none x ≠ some g := by
    rcases hlist with ⟨hmore, hsame, -⟩ | ⟨hone, -, hins⟩
    · refine ⟨F, by rw [show (m.release c f).freeFrameList = _ from hsame]; exact h.free, fun g => ?_⟩
      by_cases hgf : g = f
      · subst hgf
        refine ⟨fun hg => absurd hg hnotfree, fun hg => ?_⟩
        have := ncard_holders_eq_zero.mpr hg.2.2
        omega
      · rw [h.mem g]
        simp only [hother g hgf]
    · have hspells : (m.release c f).freeFrameList.Spells fun _ => f :: F := by
        rw [show (m.release c f).freeFrameList = _ from hins]
        have hlink : ∀ u : Unit, ∀ x ∈ F, Function.update m.freeFrameList.link f {} x = m.freeFrameList.link x := by
          intro _ x hx
          have hxf : x ≠ f := fun hxf => hnotfree (hxf ▸ hx)
          rw [Function.update_of_ne hxf]
        have := (h.free.congr_link hlink).insertHead (i := ()) (e := f) fun _ => hnotfree
        rwa [Lists.update_unit] at this
      refine ⟨f :: F, hspells, fun g => ?_⟩
      by_cases hgf : g = f
      · subst hgf
        have hnone : ∀ x, Function.update m.hold c none x ≠ some g := ncard_holders_eq_zero.mp (by omega)
        simp [hall, hnotout, hnone]
      · rw [List.mem_cons, h.mem g]
        simp only [hother g hgf, hgf, false_or]
  obtain ⟨F', hspells, hmem⟩ := hfree
  refine ⟨F', hspells, fun g => ?_, fun g hg => ?_, h.out_nodup, fun x g hx => ?_, fun g hg => ?_, fun g => ?_,
    fun g hg => ?_, fun g hg => ?_, fun x => ?_, fun x hx => ?_, fun g hg => ?_⟩
  · rw [hold_release]
    exact hmem g
  · rw [hold_release]
    have hgf : g ≠ f := fun hgf => hnotout (hgf ▸ hg)
    exact ⟨(h.out_mem g hg).1, fun x => (hother g hgf x).mpr ((h.out_mem g hg).2 x)⟩
  · rw [hold_release] at hx
    by_cases hxc : x = c
    · rw [hxc, Function.update_self] at hx
      exact nomatch hx
    · rw [Function.update_of_ne hxc] at hx
      exact h.held x g hx
  · rw [hold_release]
    show (m.decrementReferences f).references g = _
    rw [hrefs]
    by_cases hgf : g = f
    · subst hgf
      rw [Function.update_self]
      omega
    · rw [Function.update_of_ne hgf, holders_detach_of_ne hc hgf]
      exact h.references g hg
  · show (m.decrementReferences f).references g < _
    have := h.uint16 g
    have := h.uint16 f
    rw [hrefs, Function.update_apply]
    split <;> omega
  · show (m.decrementReferences f).references g = _
    have hgf : g ≠ f := fun hgf => hg (hgf ▸ hall)
    rw [hrefs, Function.update_of_ne hgf]
    exact h.boot g hg
  · show g.val < (m.decrementReferences f).numberOfFrames
    rw [hnum]
    exact h.valid g hg
  · have := h.plain c
    by_cases hxc : x = c
    · subst hxc
      simp_all [Frames.release, decrementReferences_pte]
    · simpa [Frames.release, decrementReferences_pte, hxc] using h.plain x
  · by_cases hxc : x = c
    · simp [Frames.release, hxc]
    · rw [hold_release, Function.update_of_ne hxc] at hx
      simpa [Frames.release, decrementReferences_pte, hxc] using h.clean x hx
  · have hva : (m.release c f).va = Function.update m.va f 0 := by
      show Function.update (m.decrementReferences f).va f 0 = _
      rcases hlist with ⟨-, -, hsame⟩ | ⟨-, hzero, -⟩
      · rw [hsame]
      · rw [hzero, Function.update_idem]
    rw [hva] at hg ⊢
    have hgf : g ≠ f := by
      rintro rfl
      rw [Function.update_self] at hg
      exact absurd hg (by decide)
    rw [Function.update_of_ne hgf] at hg ⊢
    have hat := h.located g hg
    have hne : Slot.kernel (pageNo (m.va g)) ≠ c := fun heq => by
      rw [heq, hc] at hat
      exact hgf (Option.some.inj hat).symm
    rw [hold_release, Function.update_of_ne hne, hat]

/-! ### `unmap_frame`, `map_frame` and `alloc_page` -/

theorem Accounts.getFrameInfo (h : Accounts m all boot F out) (c : Slot) : m.getFrameInfo c = some (m.hold c) := by
  unfold Frames.getFrameInfo
  rw [h.hasFrame c]
  cases hc : m.hold c with
  | none => rw [hold_eq_none.mp hc]; rfl
  | some f =>
    obtain ⟨hp, hf⟩ := hold_eq_some.mp hc
    rw [hp, if_pos rfl, hf, if_pos (h.valid f (h.held c f hc))]

/-- Unmapping always succeeds and empties the entry. -/
theorem Accounts.unmapFrame (h : Accounts m all boot F out) (c : Slot) : ∃ m' F', m.unmapFrame c = some m' ∧
    Accounts m' all boot F' out ∧ m'.hold = Function.update m.hold c none := by
  unfold Frames.unmapFrame
  rw [h.getFrameInfo c, Option.map_some]
  cases hc : m.hold c with
  | none => exact ⟨m, F, rfl, h, by rw [← hc, Function.update_eq_self]⟩
  | some f =>
    obtain ⟨F', h'⟩ := h.release hc
    exact ⟨_, F', rfl, h', hold_release⟩

/-- The entry holds the frame after `map_frame`. -/
theorem Accounts.hold_mapFrame (h : Accounts m all boot F out) (hs : m.mapFrame c f va perm = some m') :
    m'.hold = Function.update m.hold c (some f) := by
  unfold Frames.mapFrame at hs
  cases hc : m.hold c with
  | none =>
    rw [hold_eq_none.mp hc] at hs
    cases hs
    exact hold_install
  | some g =>
    obtain ⟨hp, hg⟩ := hold_eq_some.mp hc
    rw [hp, if_pos rfl, hg] at hs
    by_cases hgf : g = f
    · rw [if_pos hgf] at hs
      cases hs
      rw [← hgf, ← hc, Function.update_eq_self]
    · rw [if_neg hgf] at hs
      obtain ⟨m₁, F₁, hm₁, -, hhold⟩ := h.unmapFrame c
      rw [hm₁, Option.map_some] at hs
      cases hs
      rw [hold_install, hhold, Function.update_idem]

/-- Mapping a frame that is handed out or mapped somewhere, when its count does not wrap. -/
theorem Accounts.mapFrame (h : Accounts m all boot F out) (hf : f ∈ all) (hfree : f ∉ F)
    (hmax : (holders (Function.update m.hold c (some f)) f).ncard < 65536) (hperm : perm.getLsbD 9 = false)
    (hva : kernelHeapStart ≤ va → c = .kernel (pageNo va)) :
    ∃ m' F', m.mapFrame c f va perm = some m' ∧ Accounts m' all boot F' (out.erase f) := by
  unfold Frames.mapFrame
  cases hc : m.hold c with
  | none =>
    rw [ncard_holders_attach hc] at hmax
    rw [hold_eq_none.mp hc]
    exact ⟨_, F, rfl, h.install hc hf hfree (by omega) hperm hva⟩
  | some g =>
    obtain ⟨hp, hg⟩ := hold_eq_some.mp hc
    rw [hp, if_pos rfl, hg]
    by_cases hgf : g = f
    · subst hgf
      have hnotout : g ∉ out := fun hout => (h.out_mem g hout).2 c hc
      rw [if_pos rfl]
      exact ⟨m, F, rfl, by rwa [List.erase_of_not_mem hnotout]⟩
    · obtain ⟨m', F', hm', h', hhold⟩ := h.unmapFrame c
      have hcount : holders m'.hold f = holders m.hold f := by
        rw [hhold]
        exact holders_detach_of_ne hc (Ne.symm hgf)
      have hnone : m'.hold c = none := by rw [hhold, Function.update_self]
      have hnot : f ∉ F' := fun hf' => by
        obtain ⟨-, hout, hnone⟩ := (h'.mem f).mp hf'
        have hempty : ∀ x, m.hold x ≠ some f := by
          rw [← holders_eq_empty, ← hcount, holders_eq_empty]
          exact hnone
        exact hfree ((h.mem f).mpr ⟨hf, hout, hempty⟩)
      have hmax' : (holders m'.hold f).ncard + 1 < 65536 := by
        rw [← ncard_holders_attach hnone, hhold, Function.update_idem]
        exact hmax
      rw [if_neg hgf, hm', Option.map_some]
      exact ⟨_, F', rfl, h'.install hnone hf hnot (by omega) hperm hva⟩

/-- A new frame is mapped. -/
theorem Accounts.mapNewFrame (h : Accounts m all boot F out) (hperm : perm.getLsbD 9 = false)
    (hva : kernelHeapStart ≤ va → c = .kernel (pageNo va)) (hs : m.mapNewFrame c va perm = some m') :
    ∃ f ∈ F, ∃ F', Accounts m' all boot F' out ∧ m'.hold = Function.update m.hold c (some f) := by
  obtain ⟨⟨m₁, f⟩, halloc, hmap⟩ := Option.bind_eq_some_iff.mp hs
  obtain ⟨hf, h₁, hpte, -⟩ := h.allocateFrame halloc
  obtain ⟨hall, hout, hnone⟩ := (h.mem f).mp hf
  have hhold : m₁.hold = m.hold := by
    funext x
    simp only [hold, hpte]
  have hcount : (holders (Function.update m₁.hold c (some f)) f).ncard < 65536 := by
    rw [hhold, holders_attach, holders_eq_empty.mpr hnone, insert_empty_eq, Set.ncard_singleton]
    decide
  have hnot : f ∉ F.erase f := fun hmem => (h.nodup.mem_erase_iff.mp hmem).1 rfl
  obtain ⟨m₂, F', hm₂, h₂⟩ := h₁.mapFrame hall hnot hcount hperm hva
  cases hm₂.symm.trans hmap
  rw [List.erase_cons_head] at h₂
  exact ⟨f, hf, F', h₂, by rw [h₁.hold_mapFrame hmap, hhold]⟩

/-- `alloc_page` maps a new frame unless the entry holds one. -/
theorem Accounts.allocPage {fresh : Bool} (h : Accounts m all boot F out) (hperm : perm.getLsbD 9 = false)
    (hva : kernelHeapStart ≤ va → c = .kernel (pageNo va)) (hs : m.allocPage c va perm = some (m', fresh)) :
    (m' = m ∧ m.hold c ≠ none) ∨
      m.hold c = none ∧ ∃ f ∈ F, ∃ F', Accounts m' all boot F' out ∧ m'.hold = Function.update m.hold c (some f) := by
  unfold Frames.allocPage at hs
  rw [h.getFrameInfo c, Option.bind_some] at hs
  cases hc : m.hold c with
  | some f =>
    rw [hc] at hs
    cases hs
    exact .inl ⟨rfl, nofun⟩
  | none =>
    rw [hc] at hs
    obtain ⟨m₁, hm₁, heq⟩ := Option.map_eq_some_iff.mp hs
    cases heq
    exact .inr ⟨rfl, h.mapNewFrame hperm hva hm₁⟩

/-! ### The boot -/

/-- The frames `l` are put into the free list. -/
theorem foldl_freeFrame {l : List PageNo} (h : m.freeFrameList.Spells fun _ => F) (hl : l.Nodup) (hF : ∀ f ∈ l, f ∉ F) :
    ∃ m', l.foldl freeFrame m = m' ∧ (m'.freeFrameList.Spells fun _ => l.reverse ++ F) ∧ m'.pte = m.pte ∧
      m'.numberOfFrames = m.numberOfFrames ∧ (∀ f ∈ l, m'.references f = 0 ∧ m'.va f = 0) ∧
      ∀ f, f ∉ l → m'.references f = m.references f ∧ m'.va f = m.va f := by
  induction l generalizing m F with
  | nil => exact ⟨m, rfl, h, rfl, rfl, nofun, fun _ _ => ⟨rfl, rfl⟩⟩
  | cons f l ih =>
    obtain ⟨hfl, hl⟩ := List.nodup_cons.mp hl
    have hf : f ∉ F := hF f (List.mem_cons_self ..)
    have hlink : ∀ u : Unit, ∀ x ∈ F, Function.update m.freeFrameList.link f {} x = m.freeFrameList.link x := by
      intro _ x hx
      have hxf : x ≠ f := fun hxf => hf (hxf ▸ hx)
      rw [Function.update_of_ne hxf]
    have hspells : (m.freeFrame f).freeFrameList.Spells fun _ => f :: F := by
      have := (h.congr_link hlink).insertHead (i := ()) (e := f) fun _ => hf
      rwa [Lists.update_unit] at this
    have hnot : ∀ g ∈ l, g ∉ f :: F := by
      intro g hg hmem
      rcases List.mem_cons.mp hmem with rfl | hmem
      · exact hfl hg
      · exact hF g (List.mem_cons_of_mem _ hg) hmem
    obtain ⟨m', hm', hspells', hpte, hnum, hzero, hkeep⟩ := ih hspells hl hnot
    refine ⟨m', hm', by simpa using hspells', hpte, hnum, fun g hg => ?_, fun g hg => ?_⟩
    · rcases List.mem_cons.mp hg with rfl | hg
      · obtain ⟨hrefs, hva⟩ := hkeep g hfl
        rw [hrefs, hva]
        exact ⟨Function.update_self .., Function.update_self ..⟩
      · exact hzero g hg
    · rw [List.mem_cons, not_or] at hg
      obtain ⟨hrefs, hva⟩ := hkeep g hg.2
      rw [hrefs, hva]
      exact ⟨Function.update_of_ne hg.1 .., Function.update_of_ne hg.1 ..⟩

theorem bootFree_nodup {n k : Nat} (hn : n ≤ 1048576) (hk : 256 ≤ k) : (bootFree n k).Nodup := by
  refine List.Nodup.map_on ?_ (List.nodup_append.mpr ⟨List.nodup_range', List.nodup_range', fun a ha b hb hab => ?_⟩)
  · intro a ha b hb hab
    simp only [List.mem_append, List.mem_range'_1] at ha hb
    simp only [Fin.ofNat, Fin.mk.injEq] at hab
    omega
  · simp only [List.mem_range'_1] at ha hb
    omega

theorem bootFree_lt {n k : Nat} {f : PageNo} (hn : 160 ≤ n) (hf : f ∈ bootFree n k) : f.val < n := by
  obtain ⟨i, hi, rfl⟩ := List.mem_map.mp hf
  simp only [List.mem_append, List.mem_range'_1] at hi
  show i % 1048576 < n
  have := Nat.mod_le i 1048576
  omega

/-- After the boot no entry holds a frame and all the frames of the free list are accounted for. -/
theorem initializePaging_accounts {n k : Nat} (hmin : 160 ≤ n) (hn : n ≤ 1048576) (hk : 256 ≤ k) :
    (∃ F, Accounts (initializePaging n k) (bootFree n k) (bootReferences k) F []) ∧
      ∀ c, (initializePaging n k).hold c = none := by
  have hnil : ({ numberOfFrames := n, references := bootReferences k } : Frames).freeFrameList.Spells fun _ => [] :=
    Lists.spells_nil fun _ => rfl
  obtain ⟨m', hm', hspells, hpte, hnum, hzero, hkeep⟩ := foldl_freeFrame hnil (bootFree_nodup hn hk) nofun
  have hhold : ∀ c, m'.hold c = none := fun c => by
    rw [hold_eq_none, hpte, present_iff]
    exact BitVec.getLsbD_zero
  have hnone : ∀ c f, m'.hold c ≠ some f := fun c f => by
    rw [hhold c]
    exact nofun
  have hva : ∀ f, m'.va f = 0 := fun f => by
    by_cases hf : f ∈ bootFree n k
    · exact (hzero f hf).2
    · exact (hkeep f hf).2
  have hboot : ∀ f, bootReferences k f ≤ 1 := fun f => by
    unfold bootReferences
    split <;> decide
  unfold initializePaging
  rw [hm']
  rw [List.append_nil] at hspells
  refine ⟨⟨_, hspells, fun f => ?_, nofun, List.nodup_nil, fun c f hc => absurd hc (hnone c f), fun f hf => ?_, fun f => ?_,
    fun f hf => (hkeep f hf).1, fun f hf => ?_, fun c => ?_, fun c _ => ?_, fun f hf => ?_⟩, hhold⟩
  · simp [hnone]
  · rw [(hzero f hf).1]
    exact (ncard_holders_eq_zero.mpr fun c => hnone c f).symm
  · by_cases hf : f ∈ bootFree n k
    · rw [(hzero f hf).1]
      decide
    · rw [(hkeep f hf).1]
      exact (hboot f).trans_lt (by decide)
  · rw [hnum]
    exact bootFree_lt hmin hf
  · rw [hpte]
    exact BitVec.getLsbD_zero
  · rw [hpte]
  · rw [hva f] at hf
    exact absurd hf (by decide)

end Frames

end Fos.Mem
