import Fos.Heap.KHeap

/-! The `va` field of a frame. `map_frame` writes it and `unmap_frame` clears it, in every address space; as long as the
    frames of the kernel heap are mapped nowhere else, it is the address of the frame in the heap. The kernel heap
    touches the frames only by mapping new frames at its pages and by unmapping them. -/

namespace Fos.Mem
open Lib Heap

namespace Frames

variable {m m' m₁ : Frames} {all F out : List PageNo} {boot : PageNo → Nat} {c : Slot} {f g : PageNo} {va : Nat}
  {perm : BitVec 12} {p : PageNo}

/-- A frame of the kernel heap is mapped at one page only, and its `va` field is the address of that page. -/
def Rooted (m : Frames) : Prop :=
  ∀ p f, m.hold (.kernel p) = some f → m.va f = p.val * 4096 ∧ ∀ c, m.hold c = some f → c = .kernel p

/-- The frame is not one of the kernel heap. -/
def NotKernel (m : Frames) (f : PageNo) : Prop := ∀ p, m.hold (.kernel p) ≠ some f

theorem va_decrementReferences (hfg : f ≠ g) : (m.decrementReferences g).va f = m.va f := by
  unfold decrementReferences
  dsimp only
  split
  · exact Function.update_of_ne hfg ..
  · rfl

theorem va_release (hfg : f ≠ g) : (m.release c g).va f = m.va f :=
  (Function.update_of_ne hfg ..).trans (va_decrementReferences hfg)

theorem pte_release : (m.release c g).pte = Function.update m.pte c ⟨0, (m.pte c).perm &&& permAvailable⟩ := by
  show Function.update (m.decrementReferences g).pte c ⟨0, ((m.decrementReferences g).pte c).perm &&& permAvailable⟩ = _
  rw [decrementReferences_pte]

theorem Rooted.release (h : Rooted m) (hc : m.hold c = some g) : Rooted (m.release c g) := by
  intro p f hp
  rw [hold_release] at hp ⊢
  by_cases hpc : .kernel p = c
  · rw [hpc, Function.update_self] at hp
    exact nomatch hp
  · rw [Function.update_of_ne hpc] at hp
    obtain ⟨hva, honly⟩ := h p f hp
    have hfg : f ≠ g := by
      rintro rfl
      exact hpc (honly c hc).symm
    refine ⟨(va_release hfg).trans hva, fun x hx => honly x ?_⟩
    by_cases hxc : x = c
    · rw [hxc, Function.update_self] at hx
      exact nomatch hx
    · rwa [Function.update_of_ne hxc] at hx

/-- A frame that is not of the kernel heap is mapped in a user table. -/
theorem Rooted.install_user {t : PageNo} {i : Fin 1024} (h : Rooted m) (hf : NotKernel m f) :
    Rooted (m.install (.user t i) f va perm) := by
  intro p g hp
  rw [hold_install] at hp ⊢
  rw [Function.update_of_ne (show Slot.kernel p ≠ .user t i from nofun)] at hp
  obtain ⟨hva, honly⟩ := h p g hp
  have hgf : g ≠ f := by
    rintro rfl
    exact hf p hp
  refine ⟨(Function.update_of_ne hgf ..).trans hva, fun x hx => honly x ?_⟩
  by_cases hxc : x = .user t i
  · rw [hxc, Function.update_self] at hx
    exact absurd (Option.some.inj hx).symm hgf
  · rwa [Function.update_of_ne hxc] at hx

/-- A frame that is mapped nowhere is mapped at a page of the kernel heap. -/
theorem Rooted.install_kernel (h : Rooted m) (hf : ∀ c, m.hold c ≠ some f) (hva : p.val * 4096 = va) :
    Rooted (m.install (.kernel p) f va perm) := by
  intro q g hq
  rw [hold_install] at hq ⊢
  by_cases hqp : q = p
  · subst hqp
    rw [Function.update_self] at hq
    cases hq
    refine ⟨(Function.update_self ..).trans hva.symm, fun x hx => ?_⟩
    by_contra hne
    rw [Function.update_of_ne hne] at hx
    exact hf x hx
  · have hne : Slot.kernel q ≠ .kernel p := fun heq => hqp (Slot.kernel.inj heq)
    rw [Function.update_of_ne hne] at hq
    obtain ⟨hva', honly⟩ := h q g hq
    have hgf : g ≠ f := by
      rintro rfl
      exact hf _ hq
    refine ⟨(Function.update_of_ne hgf ..).trans hva', fun x hx => honly x ?_⟩
    by_cases hxc : x = .kernel p
    · rw [hxc, Function.update_self] at hx
      exact absurd (Option.some.inj hx).symm hgf
    · rwa [Function.update_of_ne hxc] at hx

/-- `unmap_frame` on an entry, by what the entry holds -/
theorem Accounts.unmapFrame_eq (h : Accounts m all boot F out) (c : Slot) :
    m.unmapFrame c = some (match m.hold c with
      | some f => m.release c f
      | none => m) := by
  unfold Frames.unmapFrame
  rw [h.getFrameInfo c]
  cases m.hold c <;> rfl

theorem Rooted.unmapFrame (h : Rooted m) (ha : Accounts m all boot F out) (hs : m.unmapFrame c = some m') : Rooted m' := by
  rw [ha.unmapFrame_eq c] at hs
  cases hc : m.hold c with
  | none =>
    rw [hc] at hs
    cases hs
    exact h
  | some f =>
    rw [hc] at hs
    cases hs
    exact h.release hc

/-- What `map_frame` does: nothing when the entry holds the frame, else it empties the entry and installs the frame. -/
theorem Accounts.mapFrame_cases (h : Accounts m all boot F out) (hs : m.mapFrame c f va perm = some m') :
    m.hold c = some f ∧ m' = m ∨ m.hold c = none ∧ m' = m.install c f va perm ∨
      ∃ g, g ≠ f ∧ m.hold c = some g ∧ m' = (m.release c g).install c f va perm := by
  unfold Frames.mapFrame at hs
  cases hc : m.hold c with
  | none =>
    rw [hold_eq_none.mp hc] at hs
    cases hs
    exact .inr (.inl ⟨rfl, rfl⟩)
  | some g =>
    obtain ⟨hp, hg⟩ := hold_eq_some.mp hc
    rw [hp, if_pos rfl, hg] at hs
    by_cases hgf : g = f
    · rw [if_pos hgf] at hs
      cases hs
      exact .inl ⟨by rw [hgf], rfl⟩
    · rw [if_neg hgf, h.unmapFrame_eq c, hc, Option.map_some] at hs
      cases hs
      exact .inr (.inr ⟨g, hgf, rfl, rfl⟩)

theorem NotKernel.release (hf : NotKernel m f) : NotKernel (m.release c g) f := by
  intro p hp
  rw [hold_release] at hp
  by_cases hpc : .kernel p = c
  · rw [hpc, Function.update_self] at hp
    exact nomatch hp
  · rw [Function.update_of_ne hpc] at hp
    exact hf p hp

theorem Rooted.mapFrame_user {t : PageNo} {i : Fin 1024} (h : Rooted m) (ha : Accounts m all boot F out)
    (hf : NotKernel m f) (hs : m.mapFrame (.user t i) f va perm = some m') : Rooted m' := by
  rcases ha.mapFrame_cases hs with ⟨-, rfl⟩ | ⟨-, rfl⟩ | ⟨g, -, hg, rfl⟩
  · exact h
  · exact h.install_user hf
  · exact (h.release hg).install_user hf.release

theorem Rooted.allocateFrame (h : Rooted m) (ha : Accounts m all boot F out) (hs : m.allocateFrame = some (m', f)) :
    Rooted m' := by
  obtain ⟨hf, -, hpte, hva⟩ := ha.allocateFrame hs
  have hhold : m'.hold = m.hold := by
    funext c
    simp only [hold, hpte]
  intro p g hp
  rw [hhold] at hp ⊢
  have hgf : g ≠ f := by
    rintro rfl
    exact ((ha.mem g).mp hf).2.2 _ hp
  rw [hva, Function.update_of_ne hgf]
  exact h p g hp

/-! ### The operations of the kernel heap on the frames -/

/-- New frames are mapped at pages of the kernel heap, and pages of it are unmapped. -/
inductive HeapSteps (m : Frames) : Frames → Prop
  | refl : HeapSteps m m
  | mapNewFrame {m₁ m₂ : Frames} {va : Nat} : HeapSteps m m₁ → va % 4096 = 0 → va < 4294967296 →
      m₁.mapNewFrame (.kernel (pageNo va)) va permWriteable = some m₂ → HeapSteps m m₂
  | unmapFrame {m₁ m₂ : Frames} (p : PageNo) : HeapSteps m m₁ → m₁.unmapFrame (.kernel p) = some m₂ → HeapSteps m m₂

theorem HeapSteps.trans {m₂ : Frames} (h : HeapSteps m m₁) (h' : HeapSteps m₁ m₂) : HeapSteps m m₂ := by
  induction h' with
  | refl => exact h
  | mapNewFrame _ haligned hlt hs ih => exact ih.mapNewFrame haligned hlt hs
  | unmapFrame p _ hs ih => exact ih.unmapFrame p hs

theorem pte_mapFrame (hs : m.mapFrame c f va perm = some m') {x : Slot} (hx : x ≠ c) : m'.pte x = m.pte x := by
  have hinstall : ∀ n : Frames, (n.install c f va perm).pte x = n.pte x := fun n => Function.update_of_ne hx ..
  unfold Frames.mapFrame at hs
  split at hs
  · split at hs
    · cases hs
      rfl
    · obtain ⟨m₁, hm₁, rfl⟩ := Option.map_eq_some_iff.mp hs
      obtain ⟨r, -, rfl⟩ := Option.map_eq_some_iff.mp hm₁
      rw [hinstall]
      cases r with
      | none => rfl
      | some g => rw [pte_release, Function.update_of_ne hx]
  · cases hs
    exact hinstall m

theorem pte_unmapFrame (hs : m.unmapFrame c = some m') {x : Slot} (hx : x ≠ c) : m'.pte x = m.pte x := by
  obtain ⟨r, -, rfl⟩ := Option.map_eq_some_iff.mp hs
  cases r with
  | none => rfl
  | some g => rw [pte_release, Function.update_of_ne hx]

theorem pte_allocateFrame (hs : m.allocateFrame = some (m', f)) : m'.pte = m.pte := by
  obtain ⟨g, -, heq⟩ := Option.map_eq_some_iff.mp hs
  simp only [Prod.mk.injEq] at heq
  rw [← heq.1]
  rfl

/-- The kernel heap leaves the user tables alone. -/
theorem HeapSteps.pte_user (h : HeapSteps m m') (t : PageNo) (i : Fin 1024) : m'.pte (.user t i) = m.pte (.user t i) := by
  induction h with
  | refl => rfl
  | mapNewFrame _ _ _ hs ih =>
    obtain ⟨⟨m₂, f⟩, halloc, hmap⟩ := Option.bind_eq_some_iff.mp hs
    rw [pte_mapFrame hmap (show Slot.user t i ≠ .kernel _ from nofun), pte_allocateFrame halloc, ih]
  | unmapFrame p _ hs ih => rw [pte_unmapFrame hs (show Slot.user t i ≠ .kernel p from nofun), ih]

theorem HeapSteps.rooted (h : HeapSteps m m') (ha : Accounts m all boot F out) (hr : Rooted m) :
    (∃ F', Accounts m' all boot F' out) ∧ Rooted m' := by
  induction h with
  | refl => exact ⟨⟨F, ha⟩, hr⟩
  | mapNewFrame _ haligned hlt hs ih =>
    rename_i m₁ m₂ va _
    obtain ⟨⟨F₁, ha₁⟩, hr₁⟩ := ih
    obtain ⟨⟨m₃, f⟩, halloc, hmap⟩ := Option.bind_eq_some_iff.mp hs
    obtain ⟨-, -, F', ha', -⟩ := ha₁.mapNewFrame (by decide) (fun _ => rfl) hs
    refine ⟨⟨F', ha'⟩, ?_⟩
    obtain ⟨hf, ha₃, -, -⟩ := ha₁.allocateFrame halloc
    have hr₃ := hr₁.allocateFrame ha₁ halloc
    have hunheld : ∀ c, m₃.hold c ≠ some f := (ha₃.out_mem f (List.mem_cons_self ..)).2
    have hpage : (pageNo va).val * 4096 = va := by
      show va / 4096 % 1048576 * 4096 = va
      omega
    rcases ha₃.mapFrame_cases hmap with ⟨hc, -⟩ | ⟨-, rfl⟩ | ⟨g, -, hg, rfl⟩
    · exact absurd hc (hunheld _)
    · exact hr₃.install_kernel hunheld hpage
    · refine (hr₃.release hg).install_kernel (fun c hc => ?_) hpage
      rw [hold_release] at hc
      by_cases hcs : c = .kernel (pageNo va)
      · rw [hcs, Function.update_self] at hc
        exact nomatch hc
      · rw [Function.update_of_ne hcs] at hc
        exact hunheld c hc
  | unmapFrame p _ hs ih =>
    obtain ⟨⟨F₁, ha₁⟩, hr₁⟩ := ih
    obtain ⟨m₂, F', hm₂, ha', -⟩ := ha₁.unmapFrame (.kernel p)
    cases hm₂.symm.trans hs
    exact ⟨⟨F', ha'⟩, hr₁.unmapFrame ha₁ hs⟩

end Frames

end Fos.Mem
