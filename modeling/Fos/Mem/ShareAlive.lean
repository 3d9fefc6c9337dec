import Fos.Mem.ShareInv

/-! The frames of a listed object are not freed, as long as every step leaves each of them one of its mappings. -/

namespace Fos.Mem
open Lib Heap Frames

namespace UserMem

variable {E : Type} [DecidableEq E] {all : List PageNo} {boot : PageNo → Nat} {m m' : UserMem E} {e : E} {va : Nat}

/-- One round of `free_user_mem` on a page without a working set element. -/
theorem freePage_noElement (h : m.run.WalkInv all boot) (hws : (m.ws e).find va = none) (hs : freePage e m va = some m') :
    m'.run.WalkInv all boot ∧ m'.ws = m.ws ∧
      ((m'.run.paging.page e va).present = false ∧ (m'.run.paging.page e va).perm &&& permUhpage = 0) ∧
      ∀ d va', ¬ (d = e ∧ Paging.SamePage va' va) → m'.run.paging.page d va' = m.run.paging.page d va' := by
  obtain ⟨r₁, hr₁, hs⟩ := Option.bind_eq_some_iff.mp hs
  obtain ⟨h₁, hwrites₁, -⟩ := h.ptSetPagePermissions (by decide) (by decide) hr₁
  obtain ⟨m₂, hm₂, hs⟩ := Option.bind_eq_some_iff.mp hs
  have hm₂ : m₂ = { m with run := r₁, disk := m.disk.pfRemoveEnvPage e va } := by
    unfold envPageWsInvalidate at hm₂
    simp only [hws] at hm₂
    exact (Option.some.inj hm₂).symm
  obtain ⟨r₃, hr₃, rfl⟩ := Option.map_eq_some_iff.mp hs
  subst hm₂
  obtain ⟨h₃, hwrites₃, -⟩ := h₁.unmapFrame hr₃
  refine ⟨h₃, rfl, ?_, fun d va' hne => (hwrites₃.others d va' hne).trans (hwrites₁.others d va' hne)⟩
  show (r₃.paging.page e va).present = false ∧ (r₃.paging.page e va).perm &&& permUhpage = 0
  rw [hwrites₃.self]
  refine ⟨Paging.unmappedPte_present _, ?_⟩
  -- The mark was cleared first, and `unmap_frame` keeps it as it is.
  have hclear : (r₁.paging.page e va).perm.getLsbD 10 = false := by
    rw [hwrites₁.self]
    simp only [BitVec.getLsbD_and, BitVec.getLsbD_not, show permUhpage.getLsbD 10 = true from rfl, Bool.not_true, Bool.and_false]
  by_contra hne
  have hbit := (Paging.and_twoPow_ne_zero _ 10 (by decide)).mp hne
  unfold Paging.unmappedPte at hbit
  split at hbit
  case isTrue =>
    simp only [BitVec.getLsbD_and, hclear, Bool.false_and] at hbit
    exact nomatch hbit
  case isFalse =>
    rw [hclear] at hbit
    exact nomatch hbit

/-- The loop of `free_user_mem`. -/
theorem freePages_noElement {ps : List Nat} (h : m.run.WalkInv all boot) (hws : ∀ p ∈ ps, (m.ws e).find p = none)
    (hs : exec (freePage e) m ps = some m') : m'.run.WalkInv all boot ∧ m'.ws = m.ws ∧
      (∀ p ∈ ps, (m'.run.paging.page e p).present = false ∧ (m'.run.paging.page e p).perm &&& permUhpage = 0) ∧
      ∀ d va, (∀ p ∈ ps, ¬ (d = e ∧ Paging.SamePage va p)) → m'.run.paging.page d va = m.run.paging.page d va := by
  induction ps generalizing m with
  | nil =>
    cases hs
    exact ⟨h, rfl, nofun, fun _ _ _ => rfl⟩
  | cons p ps ih =>
    obtain ⟨m₁, hstep, hs⟩ := exec_cons.mp hs
    obtain ⟨h₁, hws₁, hself₁, hothers₁⟩ := freePage_noElement h (hws p (List.mem_cons_self ..)) hstep
    obtain ⟨h', hws', hself, hothers⟩ := ih h₁ (fun q hq => by rw [hws₁]; exact hws q (List.mem_cons_of_mem _ hq)) hs
    refine ⟨h', hws'.trans hws₁, fun q hq => ?_, fun d va hva => ?_⟩
    · by_cases hlater : ∃ x ∈ ps, Paging.SamePage q x
      · obtain ⟨x, hx, hsame⟩ := hlater
        rw [Paging.page_samePage hsame]
        exact hself x hx
      · rw [hothers e q fun x hx hsame => hlater ⟨x, hx, hsame.2⟩]
        rcases List.mem_cons.mp hq with rfl | hq
        · exact hself₁
        · exact absurd ⟨q, hq, rfl, rfl⟩ hlater
    · rw [hothers d va fun x hx => hva x (List.mem_cons_of_mem _ hx), hothers₁ d va (hva p (List.mem_cons_self ..))]

end UserMem

namespace ShareRun

variable {E : Type} [DecidableEq E]

/-- The steps that are considered: regions are in the user heap, they are marked while they are not mapped, and regions
    that are freed hold no element of the working set, since their pages were not placed by a fault. -/
def HeapAllowed (s : ShareRun E) : ShareEvent E → Prop
  | .allocateUserMem e va size => userHeapStart ≤ va ∧ va + size < userHeapMax ∧
      ∀ p ∈ pagesOf va size, (s.sharing.mem.run.paging.page e p).present = false
  | .createSharedObject _ _ _ size _ va => size < 4294967296 ∧ Sharing.InHeap va (pagesNeeded size)
  | .getSharedObject _ ownerID name va => ∀ shr ∈ s.sharing.sharesList, shr.ownerID = ownerID → shr.nameString = name →
      Sharing.InHeap va (pagesNeededInt shr.size)
  | .freeUserMem e va size => userHeapStart ≤ va ∧ va + size < userHeapMax ∧
      ∀ p ∈ pagesOf va size, (s.sharing.mem.ws e).find p = none

/-- Every frame of a listed object has a mapping that stays when the pages `l` of `e` get other frames or none. -/
def Spares (s : ShareRun E) (e : E) (l : List (Option PageNo × Nat)) : Prop :=
  ∀ shr ∈ s.sharing.sharesList, ∀ f ∈ shr.framesStorage, ∃ d va, s.sharing.mem.run.paging.Maps d va f ∧
    ∀ y ∈ l, d = e → Paging.SamePage va y.2 → y.1 = some f

/-- The condition on the steps: they leave every frame of a listed object a mapping, and no frame that has 65535 mappings
    is mapped once more. -/
def Keeps (s : ShareRun E) : ShareEvent E → Prop
  | .allocateUserMem .. => True
  | .createSharedObject e _ _ size _ va => s.Spares e ((pagesFrom va (pagesNeeded size)).map (none, ·))
  | .getSharedObject e ownerID name va => ∀ shr ∈ s.sharing.sharesList, shr.ownerID = ownerID → shr.nameString = name →
      s.Spares e ((shr.framesStorage.map some).zip (pagesFrom va (pagesNeededInt shr.size))) ∧
        ∀ f ∈ shr.framesStorage, (holders s.sharing.mem.run.hold f).ncard < 65535
  | .freeUserMem e va size => s.Spares e ((pagesOf va size).map (none, ·))

/-- The frames of the listed objects are in use for them: none is free, none is handed out or will be handed out next,
    none is one of the kernel heap, and no frame belongs to two pages of objects. -/
structure Alive (s : ShareRun E) : Prop where
  frames : ∀ shr ∈ s.sharing.sharesList, shr.framesStorage.length = pagesNeededInt shr.size
  free : ∀ shr ∈ s.sharing.sharesList, ∀ f ∈ shr.framesStorage, ∀ F,
    s.sharing.mem.run.paging.heap.mem.freeFrameList.Spells (fun _ => F) → f ∉ F
  allocated : ∀ shr ∈ s.sharing.sharesList, ∀ f ∈ shr.framesStorage, f ∉ s.sharing.mem.run.handed ∧
    ∀ r, s.sharing.mem.run.allocateFrame ≠ some (r, f)
  kernel : ∀ shr ∈ s.sharing.sharesList, ∀ f ∈ shr.framesStorage, NotKernel s.sharing.mem.run.paging.heap.mem f
  distinct : (s.sharing.sharesList.flatMap Share.framesStorage).Nodup

/-- The invariant: every frame of a listed object is mapped. -/
structure AliveInv (all : List PageNo) (boot : PageNo → Nat) (s : ShareRun E) : Prop where
  walk : s.sharing.mem.run.WalkInv all boot
  frames : ∀ shr ∈ s.sharing.sharesList, shr.framesStorage.length = pagesNeededInt shr.size
  distinct : (s.sharing.sharesList.flatMap Share.framesStorage).Nodup
  mapped : ∀ shr ∈ s.sharing.sharesList, ∀ f ∈ shr.framesStorage, ∃ d va, s.sharing.mem.run.paging.Maps d va f

variable {all : List PageNo} {boot : PageNo → Nat} {s t : ShareRun E} {e : E} {va : Nat} {ownerID : Int} {name : CString}

omit [DecidableEq E] in
theorem AliveInv.alive (h : AliveInv all boot s) : Alive s := by
  refine ⟨h.frames, fun shr hshr f hf => ?_, fun shr hshr f hf => ?_, fun shr hshr f hf => ?_, h.distinct⟩ <;>
    obtain ⟨d, va, hm⟩ := h.mapped shr hshr f hf <;> obtain ⟨hout, hfree, hnot, c, hc⟩ := h.walk.maps_live hm
  · exact hfree
  · refine ⟨hout, fun r hr => ?_⟩
    obtain ⟨-, -, -, hunheld, hhold⟩ := h.walk.allocateFrame hr
    rw [hhold] at hunheld
    exact hunheld c hc
  · exact hnot

omit [DecidableEq E] in
theorem AliveInv.storage_nodup (h : AliveInv all boot s) {shr : Share} (hshr : shr ∈ s.sharing.sharesList) :
    shr.framesStorage.Nodup := (List.nodup_flatMap.mp h.distinct).1 shr hshr

omit [DecidableEq E] in
/-- A mapping that is spared stays. -/
theorem Spares.maps {p' : Paging E} {ps : List Nat} (h : s.Spares e (ps.map (none, ·)))
    (hothers : ∀ d va, (∀ p ∈ ps, ¬ (d = e ∧ Paging.SamePage va p)) → p'.page d va = s.sharing.mem.run.paging.page d va)
    {shr : Share} (hshr : shr ∈ s.sharing.sharesList) {f : PageNo} (hf : f ∈ shr.framesStorage) :
    ∃ d va, p'.Maps d va f ∧ s.sharing.mem.run.paging.Maps d va f ∧ ∀ p ∈ ps, ¬ (d = e ∧ Paging.SamePage va p) := by
  obtain ⟨d, va, hm, hkeep⟩ := h shr hshr f hf
  have hout : ∀ p ∈ ps, ¬ (d = e ∧ Paging.SamePage va p) := by
    rintro p hp ⟨hd, hsame⟩
    exact nomatch hkeep (none, p) (List.mem_map_of_mem hp) hd hsame
  refine ⟨d, va, ?_, hm, hout⟩
  unfold Paging.Maps
  rw [hothers d va hout]
  exact hm

omit [DecidableEq E] in
/-- An object is created. -/
theorem AliveInv.create {size : Nat} {isWritable : UInt8} {shr : Share} (h : AliveInv all boot s)
    (hwalk : t.sharing.mem.run.WalkInv all boot) (hspares : s.Spares e ((pagesFrom va (pagesNeeded size)).map (none, ·)))
    (hcreated : s.sharing.Created t.sharing e ownerID name size isWritable va shr) : AliveInv all boot t := by
  have hothers : ∀ d va', (∀ p ∈ pagesFrom va (pagesNeeded size), ¬ (d = e ∧ Paging.SamePage va' p)) →
      t.sharing.mem.run.paging.page d va' = s.sharing.mem.run.paging.page d va' := fun d va' hout =>
    hcreated.maps.others d va' fun x hx => hout x.2 (List.of_mem_zip hx).2
  refine ⟨hwalk, ?_, ?_, ?_⟩ <;> rw [hcreated.list]
  · rw [List.forall_mem_cons]
    exact ⟨hcreated.length.trans hcreated.needed.1.symm, h.frames⟩
  · rw [List.flatMap_cons]
    refine List.nodup_append.mpr ⟨hcreated.nodup, h.distinct, fun f hf g hg => ?_⟩
    rintro rfl
    obtain ⟨x, hx, hfx⟩ := List.mem_flatMap.mp hg
    obtain ⟨d, va', -, hm, hout⟩ := hspares.maps hothers hx hfx
    obtain ⟨p, hp, hsame⟩ := hcreated.fresh f hf d va' hm
    exact hout p hp hsame
  · rw [List.forall_mem_cons]
    refine ⟨fun f hf => ?_, fun x hx f hf => ?_⟩
    · obtain ⟨i, hi⟩ := List.mem_iff_getElem?.mp hf
      obtain ⟨hlt, -⟩ := List.getElem?_eq_some_iff.mp hi
      have hp : ∃ p, (pagesFrom va (pagesNeeded size))[i]? = some p := by
        rw [hcreated.length] at hlt
        simp [pagesFrom, List.getElem?_range hlt]
      obtain ⟨p, hp⟩ := hp
      have hmem : (f, p) ∈ shr.framesStorage.zip (pagesFrom va (pagesNeeded size)) :=
        List.mem_of_getElem? (List.getElem?_zip_eq_some.mpr ⟨hi, hp⟩)
      exact ⟨e, p, hcreated.maps.maps hmem⟩
    · obtain ⟨d, va', hm, -⟩ := hspares.maps hothers hx hf
      exact ⟨d, va', hm⟩

omit [DecidableEq E] in
/-- What `get_shared_object` needs of the object that it finds. -/
theorem AliveInv.object (h : AliveInv all boot s) (hallowed : s.HeapAllowed (.getSharedObject e ownerID name va))
    (hkeeps : s.Keeps (.getSharedObject e ownerID name va)) : ∀ shr ∈ s.sharing.sharesList, shr.ownerID = ownerID →
      shr.nameString = name → Sharing.InHeap va (pagesNeededInt shr.size) ∧
      shr.framesStorage.length = pagesNeededInt shr.size ∧ shr.framesStorage.Nodup ∧
      ∀ f ∈ shr.framesStorage, (holders s.sharing.mem.run.hold f).ncard < 65535 ∧ ∃ d va', s.sharing.mem.run.paging.Maps d va' f ∧
        ∀ y ∈ shr.framesStorage.zip (pagesFrom va (pagesNeededInt shr.size)), d = e → Paging.SamePage va' y.2 → y.1 = f := by
  intro shr hshr howner hname
  obtain ⟨hspares, hroom⟩ := hkeeps shr hshr howner hname
  refine ⟨hallowed shr hshr howner hname, h.frames shr hshr, h.storage_nodup hshr, fun f hf => ⟨hroom f hf, ?_⟩⟩
  obtain ⟨d, va', hm, hkeep⟩ := hspares shr hshr f hf
  refine ⟨d, va', hm, fun y hy hd hsame => ?_⟩
  have hy' : (some y.1, y.2) ∈ (shr.framesStorage.map some).zip (pagesFrom va (pagesNeededInt shr.size)) := by
    rw [List.zip_map_left]
    exact List.mem_map.mpr ⟨y, hy, rfl⟩
  exact Option.some.inj (hkeep _ hy' hd hsame)

omit [DecidableEq E] in
/-- An object is gotten. -/
theorem AliveInv.get {pre post : List Share} {shr₀ : Share} (h : AliveInv all boot s) (hwalk : t.sharing.mem.run.WalkInv all boot)
    (hspares : s.Spares e ((shr₀.framesStorage.map some).zip (pagesFrom va (pagesNeededInt shr₀.size))))
    (hgot : s.sharing.Got t.sharing e ownerID name va pre shr₀ post) : AliveInv all boot t := by
  have hin : ∀ x ∈ t.sharing.sharesList, ∃ y ∈ s.sharing.sharesList, y.framesStorage = x.framesStorage ∧ y.size = x.size := by
    intro x hx
    rw [hgot.after, List.perm_middle.mem_iff, List.mem_cons] at hx
    rw [hgot.before]
    rcases hx with rfl | hx
    · exact ⟨shr₀, List.mem_append_right _ (List.mem_cons_self ..), rfl, rfl⟩
    · exact ⟨x, List.perm_middle.mem_iff.mpr (List.mem_cons_of_mem _ hx), rfl, rfl⟩
  refine ⟨hwalk, fun x hx => ?_, ?_, fun x hx f hf => ?_⟩
  · obtain ⟨y, hy, hframes, hsize⟩ := hin x hx
    rw [← hframes, ← hsize]
    exact h.frames y hy
  · have hdistinct := h.distinct
    rw [hgot.before] at hdistinct
    rw [hgot.after]
    simpa using hdistinct
  · obtain ⟨y, hy, hframes, -⟩ := hin x hx
    rw [← hframes] at hf
    obtain ⟨d, va', hm, hkeep⟩ := hspares y hy f hf
    refine ⟨d, va', hgot.maps.kept hm fun z hz hd hsame => ?_⟩
    have hz' : (some z.1, z.2) ∈ (shr₀.framesStorage.map some).zip (pagesFrom va (pagesNeededInt shr₀.size)) := by
      rw [List.zip_map_left]
      exact List.mem_map.mpr ⟨z, hz, rfl⟩
    exact Option.some.inj (hkeep _ hz' hd hsame)

/-- One step keeps the frames mapped. -/
theorem AliveInv.step {ev : ShareEvent E} (h : AliveInv all boot s) (hallowed : s.HeapAllowed ev) (hkeeps : s.Keeps ev)
    (hs : s.step ev = some t) : AliveInv all boot t := by
  cases ev with
  | allocateUserMem e va size =>
    obtain ⟨m, hm, rfl⟩ := Option.map_eq_some_iff.mp hs
    obtain ⟨hwalk, -, hothers⟩ := UserMem.allocateUserMem_spec h.walk hallowed.2.2 hm
    refine ⟨hwalk, h.frames, h.distinct, fun shr hshr f hf => ?_⟩
    obtain ⟨d, va', hmaps⟩ := h.mapped shr hshr f hf
    refine ⟨d, va', ?_⟩
    show (m.run.paging.page d va').present ∧ (m.run.paging.page d va').frame = f
    rw [hothers d va']
    · exact hmaps
    · rintro p hp ⟨rfl, hsame⟩
      have hpresent := hmaps.1
      rw [Paging.page_samePage hsame, hallowed.2.2 p hp] at hpresent
      exact nomatch hpresent
  | createSharedObject e ownerID name size isWritable va =>
    obtain ⟨⟨s', res⟩, hs', rfl⟩ := Option.map_eq_some_iff.mp hs
    obtain ⟨hwalk, ⟨hlist, hpage, -⟩ | ⟨shr, hcreated, -⟩⟩ :=
      Sharing.createSharedObject_cases h.walk hallowed.1 hallowed.2 hs'
    · have hlist : (s.record ⟨e, ownerID, name, va, true⟩ (s', res)).sharing.sharesList = s.sharing.sharesList := hlist
      refine ⟨hwalk, hlist ▸ h.frames, hlist ▸ h.distinct, ?_⟩
      rw [hlist]
      intro shr hshr f hf
      obtain ⟨d, va', hm⟩ := h.mapped shr hshr f hf
      refine ⟨d, va', ?_⟩
      show (s'.mem.run.paging.page d va').present ∧ (s'.mem.run.paging.page d va').frame = f
      rw [hpage]
      exact hm
    · exact h.create hwalk hkeeps hcreated
  | getSharedObject e ownerID name va =>
    obtain ⟨⟨s', res⟩, hs', rfl⟩ := Option.map_eq_some_iff.mp hs
    obtain ⟨hwalk, ⟨rfl, -⟩ | ⟨pre, shr₀, post, hgot, -⟩⟩ :=
      Sharing.getSharedObject_cases h.walk (h.object hallowed hkeeps) hs'
    · exact ⟨h.walk, h.frames, h.distinct, h.mapped⟩
    · have hmem : shr₀ ∈ s.sharing.sharesList := by
        rw [hgot.before]
        exact List.mem_append_right _ (List.mem_cons_self ..)
      exact h.get hwalk (hkeeps shr₀ hmem hgot.owner hgot.name).1 hgot
  | freeUserMem e va size =>
    obtain ⟨s', hs', rfl⟩ := Option.map_eq_some_iff.mp hs
    obtain ⟨m, hm, rfl⟩ := Option.map_eq_some_iff.mp hs'
    obtain ⟨hwalk, -, -, hothers⟩ := UserMem.freePages_noElement h.walk hallowed.2.2 hm
    refine ⟨hwalk, h.frames, h.distinct, fun shr hshr f hf => ?_⟩
    obtain ⟨d, va', hm, -⟩ := Spares.maps hkeeps hothers hshr hf
    exact ⟨d, va', hm⟩

omit [DecidableEq E] in
theorem aliveInv_start {m : UserMem E} (h : m.run.WalkInv all boot) : AliveInv all boot (start m) :=
  ⟨h, nofun, List.nodup_nil, nofun⟩

/-- In every run whose steps leave each frame of a listed object a mapping, no such frame is freed, and
    `get_shared_object` maps the frames of the object. -/
theorem shared_frames_alive {n k : Nat} {r₀ : PagingRun E} {m : UserMem E} (hmin : 160 ≤ n) (hn : n ≤ 1048576) (hk : 256 ≤ k)
    (hboot : PagingRun.afterBoot E n k = some r₀)
    (hm : Reach PagingRun.tableStep (fun s e => s.TableAllowed e ∧ s.UserFrame e ∧ s.TablePlain e) r₀ m.run)
    (hr : Reach step (fun s ev => s.HeapAllowed ev ∧ s.Keeps ev) (start m) s) : Alive s ∧
      ∀ e ownerID name va s' id, s.HeapAllowed (.getSharedObject e ownerID name va) → s.Keeps (.getSharedObject e ownerID name va) →
        s.sharing.getSharedObject e ownerID name va = some (s', .id id) → ∃ shr ∈ s.sharing.sharesList, shr.ownerID = ownerID ∧
          shr.nameString = name ∧ ∀ x ∈ shr.framesStorage.zip (pagesFrom va (pagesNeededInt shr.size)),
            s'.mem.run.paging.Maps e x.2 x.1 := by
  have hwalk := PagingRun.WalkInv.reach hmin hn hk hboot hm
  have hinv : AliveInv (bootFree n k) (bootReferences k) s :=
    hr.invariant (I := AliveInv _ _) (aliveInv_start hwalk) fun s ev t hi hok hs => hi.step hok.1 hok.2 hs
  refine ⟨hinv.alive, fun e ownerID name va s' id hallowed hkeeps hs => ?_⟩
  obtain ⟨-, ⟨-, hres⟩ | ⟨pre, shr, post, hgot, -⟩⟩ :=
    Sharing.getSharedObject_cases hinv.walk (hinv.object hallowed hkeeps) hs
  · exact nomatch hres
  · have hmem : shr ∈ s.sharing.sharesList := by
      rw [hgot.before]
      exact List.mem_append_right _ (List.mem_cons_self ..)
    exact ⟨shr, hmem, hgot.owner, hgot.name, fun x hx => hgot.maps.maps hx⟩

/-- What is mapped by another process stays mapped. -/
theorem MappedBy.spares {s : ShareRun Bool} {d e : Bool} (h : s.MappedBy d va) (hne : d ≠ e) (l : List (Option PageNo × Nat)) :
    s.Spares e l := by
  intro shr hshr f hf
  obtain ⟨p, -, hmaps⟩ := h shr hshr f hf
  exact ⟨d, p, hmaps, fun _ _ heq => absurd heq hne⟩

namespace SharedByTwo

variable {r₀ : PagingRun Bool} {s₁ s₂ s₃ s₄ s : ShareRun Bool}

theorem reach (h : SharedByTwo r₀ s₁ s₂ s₃ s₄) :
    Reach step (fun s ev => s.HeapAllowed ev ∧ s.Keeps ev) (start { run := r₀, disk := {} }) s₄ := by
  have hheap : Sharing.InHeap 2147483648 (pagesNeeded 8192) := by
    unfold Sharing.InHeap
    decide
  have hspares : s₁.Keeps (.createSharedObject false 1 [97] 8192 0 2147483648) := by
    intro shr hshr
    rw [h.none₁] at hshr
    exact absurd hshr List.not_mem_nil
  have hr₃ : Reach step (fun s ev => s.HeapAllowed ev ∧ s.Keeps ev) (start { run := r₀, disk := {} }) s₃ :=
    ((Reach.init.step (.allocateUserMem false 2147483648 8192) ⟨⟨by decide, by decide, h.unmapped₁⟩, trivial⟩ h.allocate₁).step
      (.createSharedObject false 1 [97] 8192 0 2147483648) ⟨⟨by decide, hheap⟩, hspares⟩ h.create).step
        (.allocateUserMem true 2147491840 8192) ⟨⟨by decide, by decide, h.unmapped₂⟩, trivial⟩ h.allocate₂
  have hwalk : s₃.sharing.mem.run.WalkInv (bootFree 1024 768) (bootReferences 768) :=
    (hr₃.invariant (I := AliveInv _ _) (aliveInv_start (PagingRun.WalkInv.reach (by decide) (by decide) (by decide) h.boot .init))
      fun _ _ _ hi hok hs => hi.step hok.1 hok.2 hs).walk
  refine hr₃.step (.getSharedObject true 1 [97] 2147491840) ⟨fun shr hshr _ _ => ?_, fun shr hshr _ _ => ⟨?_, fun f hf => ?_⟩⟩ h.get
  · rw [h.size shr hshr]
    unfold Sharing.InHeap
    decide
  · exact h.creator.spares (by decide) _
  · rw [h.creator.ncard hwalk hshr hf]
    exact h.few shr hshr f hf

/-- The creator frees its region; the frames stay mapped for the other process. -/
theorem reach_free (h : SharedByTwo r₀ s₁ s₂ s₃ s₄) (hs : s₄.step (.freeUserMem false 2147483648 8192) = some s) :
    Reach step (fun s ev => s.HeapAllowed ev ∧ s.Keeps ev) (start { run := r₀, disk := {} }) s :=
  h.reach.step (.freeUserMem false 2147483648 8192) ⟨⟨by decide, by decide, h.noElement⟩, h.getter.spares (by decide) _⟩ hs

end SharedByTwo

/-- A process creates an object, another one gets it, and the creator frees its region. -/
theorem shared_frames_alive_free : ∃ (r₀ : PagingRun Bool) (s : ShareRun Bool), PagingRun.afterBoot Bool 1024 768 = some r₀ ∧
    exec step (start { run := r₀, disk := {} }) [.allocateUserMem false 2147483648 8192,
      .createSharedObject false 1 [97] 8192 0 2147483648, .allocateUserMem true 2147491840 8192,
      .getSharedObject true 1 [97] 2147491840, .freeUserMem false 2147483648 8192] = some s ∧
      (s.sharing.sharesList.map (·.framesStorage.length)) = [2] ∧ Alive s := by
  obtain ⟨r₀, s₁, s₂, s₃, s₄, s, h, hs, hlength, -⟩ := sharedByTwo
  exact ⟨r₀, s, h.boot, exec_cons.mpr ⟨s₁, h.allocate₁, exec_cons.mpr ⟨s₂, h.create, exec_cons.mpr ⟨s₃, h.allocate₂,
    exec_cons.mpr ⟨s₄, h.get, exec_cons.mpr ⟨s, hs, rfl⟩⟩⟩⟩⟩, hlength,
    (shared_frames_alive (by decide) (by decide) (by decide) h.boot .init (h.reach_free hs)).1⟩

/-- The creator frees its region. The frame had no other mapping, so it is free while the object is still listed, and
    `allocate_frame` hands it out next. -/
theorem shared_frame_freed : ∃ (r₀ : PagingRun Unit) (s : ShareRun Unit), PagingRun.afterBoot Unit 1024 768 = some r₀ ∧
    Reach step HeapAllowed (start { run := r₀, disk := {} }) s ∧ (∃ shr ∈ s.sharing.sharesList, ∃ f ∈ shr.framesStorage,
      ∃ r, s.sharing.mem.run.allocateFrame = some (r, f)) ∧ ¬ Alive s := by
  have hrun : ((PagingRun.afterBoot Unit 1024 768).bind fun r₀ =>
      (step (start { run := r₀, disk := {} }) (.allocateUserMem () 2147483648 4096)).bind fun s₁ =>
        (s₁.step (.createSharedObject () 1 [97] 4096 0 2147483648)).bind fun s₂ =>
          (s₂.step (.freeUserMem () 2147483648 4096)).map fun s =>
            (((pagesOf 2147483648 4096).all fun p => (r₀.paging.page () p).present = false),
              ((pagesOf 2147483648 4096).all fun p => (s₂.sharing.mem.ws ()).find p = none),
              s.sharing.sharesList.any fun shr => shr.framesStorage.any fun f =>
                s.sharing.mem.run.allocateFrame.any fun r => r.2 = f)) = some (true, true, true) := by
    rw [PagingRun.afterBoot_eq]
    decide +kernel
  obtain ⟨r₀, hboot, hrun⟩ := Option.bind_eq_some_iff.mp hrun
  obtain ⟨s₁, hs₁, hrun⟩ := Option.bind_eq_some_iff.mp hrun
  obtain ⟨s₂, hs₂, hrun⟩ := Option.bind_eq_some_iff.mp hrun
  obtain ⟨s, hs, hresult⟩ := Option.map_eq_some_iff.mp hrun
  simp only [Prod.mk.injEq, List.all_eq_true, List.any_eq_true, Option.any_eq_true, decide_eq_true_eq, Prod.exists] at hresult
  obtain ⟨hunmapped, hws, shr, hshr, f, hf, r, g, hr, rfl⟩ := hresult
  have hheap : Sharing.InHeap 2147483648 (pagesNeeded 4096) := by
    unfold Sharing.InHeap
    decide
  have hreach : Reach step HeapAllowed (start { run := r₀, disk := {} }) s :=
    ((Reach.init.step (.allocateUserMem () 2147483648 4096) ⟨by decide, by decide, hunmapped⟩ hs₁).step
      (.createSharedObject () 1 [97] 4096 0 2147483648) ⟨by decide, hheap⟩ hs₂).step
        (.freeUserMem () 2147483648 4096) ⟨by decide, by decide, hws⟩ hs
  exact ⟨r₀, s, hboot, hreach, ⟨shr, hshr, g, hf, r, hr⟩, fun halive => (halive.allocated shr hshr g hf).2 r hr⟩

end ShareRun

end Fos.Mem
