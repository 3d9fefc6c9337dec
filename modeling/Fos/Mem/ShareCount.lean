import Fos.Mem.ShareAlive

/-! The `references` field of a frame has 16 bits. It counts the mappings as long as no frame is mapped 65536 times, and
    the user heap has room for more than that. -/

namespace Fos.Mem
open Lib Heap Frames

/-- The calls that map and unmap frames. -/
inductive CountEvent (E : Type) where
  | share (ev : ShareEvent E)
  | allocateFrame
  | mapFrame (e : E) (f : PageNo) (va : Nat) (perm : BitVec 12)
  | unmapFrame (e : E) (va : Nat)

namespace ShareRun

variable {E : Type} [DecidableEq E]

/-- The memory of the run is replaced. -/
def setRun (s : ShareRun E) (r : PagingRun E) : ShareRun E :=
  { s with sharing := { s.sharing with mem := { s.sharing.mem with run := r } } }

def countStep (s : ShareRun E) : CountEvent E → Option (ShareRun E)
  | .share ev => s.step ev
  | .allocateFrame => s.sharing.mem.run.allocateFrame.map fun (r, _) => s.setRun r
  | .mapFrame e f va perm => (s.sharing.mem.run.mapFrame e f va perm).map s.setRun
  | .unmapFrame e va => (s.sharing.mem.run.unmapFrame e va).map s.setRun

/-- The steps that are considered: frames that are mapped were handed out or are mapped at user addresses. -/
def CountAllowed (s : ShareRun E) : CountEvent E → Prop
  | .share ev => s.HeapAllowed ev
  | .allocateFrame => True
  | .mapFrame _ f va _ => va < userTop ∧ (f ∈ s.sharing.mem.run.handed ∨ ∃ c, s.sharing.mem.run.hold c = some f) ∧
      NotKernel s.sharing.mem.run.paging.heap.mem f
  | .unmapFrame _ va => va < userTop

/-- The condition on the steps: no frame that has 65535 mappings is mapped once more, `PERM_BUFFERED` is not set, and the
    frames of the listed objects keep a mapping. -/
def CountKeeps (s : ShareRun E) : CountEvent E → Prop
  | .share ev => s.Keeps ev
  | .allocateFrame => True
  | .mapFrame e f va perm => (holders s.sharing.mem.run.hold f).ncard < 65535 ∧ perm &&& permBuffered = 0 ∧
      s.Spares e [(some f, va)]
  | .unmapFrame e va => s.Spares e [(none, va)]

/-- The field of every frame that the boot left free is the number of its mappings, and no frame that is mapped is free. -/
structure Counted (all : List PageNo) (s : ShareRun E) : Prop where
  references : ∀ f ∈ all, s.sharing.mem.run.paging.heap.mem.references f = (holders s.sharing.mem.run.hold f).ncard
  free : ∀ F, s.sharing.mem.run.paging.heap.mem.freeFrameList.Spells (fun _ => F) →
    ∀ f ∈ F, ∀ c, s.sharing.mem.run.hold c ≠ some f

variable {all : List PageNo} {boot : PageNo → Nat} {s t : ShareRun E}

omit [DecidableEq E] in
theorem counted_of_walk (h : s.sharing.mem.run.WalkInv all boot) : Counted all s := by
  obtain ⟨⟨tables, hi⟩, -⟩ := h
  obtain ⟨F, ha⟩ := hi.accounts
  refine ⟨ha.references, fun F' hF' f hf => ?_⟩
  rw [hF'.toThreads.unique ha.free.toThreads ()] at hf
  exact ((ha.mem f).mp hf).2.2

omit [DecidableEq E] in
/-- One page changes, and the mappings that the step spares stay. -/
theorem AliveInv.writes {r : PagingRun E} {e : E} {va : Nat} {entry : Pte} {o : Option PageNo} (h : AliveInv all boot s)
    (hwalk : r.WalkInv all boot) (hspares : s.Spares e [(o, va)]) (hwrites : Paging.Writes s.sharing.mem.run.paging r.paging e va entry)
    (hentry : ∀ f, o = some f → entry.present ∧ entry.frame = f) : AliveInv all boot (s.setRun r) := by
  refine ⟨hwalk, h.frames, h.distinct, fun shr hshr f hf => ?_⟩
  obtain ⟨d, va', hm, hkeep⟩ := hspares shr hshr f hf
  by_cases hsame : d = e ∧ Paging.SamePage va' va
  · obtain ⟨rfl, hpage⟩ := hsame
    refine ⟨d, va, ?_⟩
    show (r.paging.page d va).present ∧ (r.paging.page d va).frame = f
    rw [hwrites.self]
    exact hentry f (hkeep (o, va) (List.mem_cons_self ..) rfl hpage)
  · exact ⟨d, va', (hwrites.maps_of_ne hsame).mpr hm⟩

theorem AliveInv.countStep {ev : CountEvent E} (h : AliveInv all boot s) (hallowed : s.CountAllowed ev) (hkeeps : s.CountKeeps ev)
    (hs : s.countStep ev = some t) : AliveInv all boot t := by
  cases ev with
  | share ev => exact h.step hallowed hkeeps hs
  | allocateFrame =>
    obtain ⟨⟨r, f⟩, hr, rfl⟩ := Option.map_eq_some_iff.mp hs
    obtain ⟨hwalk, hpage, -⟩ := h.walk.allocateFrame hr
    refine ⟨hwalk, h.frames, h.distinct, fun shr hshr g hg => ?_⟩
    obtain ⟨d, va, hm⟩ := h.mapped shr hshr g hg
    refine ⟨d, va, ?_⟩
    show (r.paging.page d va).present ∧ (r.paging.page d va).frame = g
    rw [hpage]
    exact hm
  | mapFrame e f va perm =>
    obtain ⟨r, hr, rfl⟩ := Option.map_eq_some_iff.mp hs
    obtain ⟨hva, hf, hnot⟩ := hallowed
    obtain ⟨hroom, hperm, hspares⟩ := hkeeps
    obtain ⟨hwalk, hwrites, -⟩ := h.walk.mapFrame hva hf hnot hroom hperm hr
    refine h.writes hwalk hspares hwrites ?_
    rintro g ⟨⟩
    exact Paging.mappedPte_present ..
  | unmapFrame e va =>
    obtain ⟨r, hr, rfl⟩ := Option.map_eq_some_iff.mp hs
    obtain ⟨hwalk, hwrites, -⟩ := h.walk.unmapFrame hr
    exact h.writes hwalk hkeeps hwrites nofun

/-- In every run in which no frame that has 65535 mappings is mapped once more, the counter is the number of mappings. -/
theorem references_counted {n k : Nat} {r₀ : PagingRun E} {m : UserMem E} (hmin : 160 ≤ n) (hn : n ≤ 1048576) (hk : 256 ≤ k)
    (hboot : PagingRun.afterBoot E n k = some r₀)
    (hm : Reach PagingRun.tableStep (fun s e => s.TableAllowed e ∧ s.UserFrame e ∧ s.TablePlain e) r₀ m.run)
    (hr : Reach countStep (fun s ev => s.CountAllowed ev ∧ s.CountKeeps ev) (start m) s) : Counted (bootFree n k) s := by
  have hwalk := PagingRun.WalkInv.reach hmin hn hk hboot hm
  have hinv : AliveInv (bootFree n k) (bootReferences k) s :=
    hr.invariant (I := AliveInv _ _) (aliveInv_start hwalk) fun s ev t hi hok hs => hi.countStep hok.1 hok.2 hs
  exact counted_of_walk hinv.walk

/-- The calls for shared objects. -/
theorem reach_share {s₀ s : ShareRun E} (h : Reach step (fun s ev => s.HeapAllowed ev ∧ s.Keeps ev) s₀ s) :
    Reach countStep (fun s ev => s.CountAllowed ev ∧ s.CountKeeps ev) s₀ s := by
  induction h with
  | init => exact .init
  | step ev _ hok hs ih => exact ih.step (.share ev) hok hs

/-- A process creates an object, another one gets it, the creator frees its region, and a frame is handed out. -/
theorem references_counted_free : ∃ (r₀ : PagingRun Bool) (s : ShareRun Bool), PagingRun.afterBoot Bool 1024 768 = some r₀ ∧
    exec countStep (start { run := r₀, disk := {} }) [.share (.allocateUserMem false 2147483648 8192),
      .share (.createSharedObject false 1 [97] 8192 0 2147483648), .share (.allocateUserMem true 2147491840 8192),
      .share (.getSharedObject true 1 [97] 2147491840), .share (.freeUserMem false 2147483648 8192), .allocateFrame] = some s ∧
      (s.sharing.sharesList.map (·.framesStorage.length)) = [2] ∧ Counted (bootFree 1024 768) s := by
  obtain ⟨r₀, s₁, s₂, s₃, s₄, s₅, h, hs₅, hlength, hsome⟩ := sharedByTwo
  obtain ⟨⟨r, f⟩, hr⟩ := Option.isSome_iff_exists.mp hsome
  have hs : s₅.countStep .allocateFrame = some (s₅.setRun r) := congrArg (Option.map _) hr
  refine ⟨r₀, s₅.setRun r, h.boot, exec_cons.mpr ⟨s₁, h.allocate₁, exec_cons.mpr ⟨s₂, h.create, exec_cons.mpr ⟨s₃, h.allocate₂,
    exec_cons.mpr ⟨s₄, h.get, exec_cons.mpr ⟨s₅, hs₅, exec_cons.mpr ⟨_, hs, rfl⟩⟩⟩⟩⟩⟩, hlength, ?_⟩
  exact references_counted (by decide) (by decide) (by decide) h.boot .init
    ((reach_share (h.reach_free hs₅)).step .allocateFrame ⟨trivial, trivial⟩ hs)

end ShareRun

/-! ### A frame that is mapped 65536 times -/

namespace Paging

variable {D : Type} [DecidableEq D] {all : List PageNo} {boot : PageNo → Nat} {handed : List PageNo} {live tables : List Nat}
  {s s' : Paging D} {f t : PageNo} {va : Nat} {perm : BitVec 12} {dir : D}

omit [DecidableEq D] in
/-- `map_frame` on an unmapped page that has a table -/
theorem mapFrameIn_unmapped (f : PageNo) (perm : BitVec 12) (ht : s.pde dir (pdx va) = some t) (hunmapped : (s.page dir va).present = false) :
    s.mapFrameIn t f va perm = some { s with heap := { s.heap with mem := s.heap.mem.install (.user t (ptx va)) f va perm } } ∧
      (holders (s.heap.mem.install (.user t (ptx va)) f va perm).hold f).ncard = (holders s.heap.mem.hold f).ncard + 1 := by
  rw [page_of_some ht] at hunmapped
  have hnone : s.heap.mem.hold (.user t (ptx va)) = none := hold_eq_none.mpr hunmapped
  refine ⟨?_, ?_⟩
  · unfold mapFrameIn Frames.mapFrame
    rw [if_neg (by rw [hunmapped]; decide), Option.map_some]
  · rw [hold_install, ncard_holders_attach hnone]

/-- The frame gets one mapping more. -/
theorem Inv.mapFrame_ncard (hi : Inv all boot handed live tables s) (hl : s.Linked) (hf : s.Mappable handed f)
    (hunmapped : (s.page dir va).present = false) (hs : s.mapFrame dir f va perm = some s') :
    (holders s'.heap.mem.hold f).ncard = (holders s.heap.mem.hold f).ncard + 1 := by
  unfold Paging.mapFrame at hs
  rw [hi.getPageTable_eq hl, Option.bind_some] at hs
  cases ht : s.pde dir (pdx va) with
  | some t =>
    rw [ht] at hs
    obtain ⟨heq, hcount⟩ := mapFrameIn_unmapped f perm ht hunmapped
    dsimp only at hs
    rw [heq] at hs
    cases hs
    exact hcount
  | none =>
    rw [ht] at hs
    obtain ⟨⟨s₁, t⟩, hs₁, hs⟩ := Option.bind_eq_some_iff.mp hs
    obtain ⟨hcreated, -⟩ := hi.created hl hs₁
    obtain ⟨ptr, hi₁, ht₁, hkept, -⟩ := hi.createPageTable hs₁
    have hunmapped₁ : (s₁.page dir va).present = false := by
      rw [page_of_some ht₁, hcreated.clear]
      decide
    obtain ⟨heq, hcount⟩ := mapFrameIn_unmapped f perm ht₁ hunmapped₁
    dsimp only at hs
    rw [heq] at hs
    cases hs
    have hsame : holders s₁.heap.mem.hold f = holders s.heap.mem.hold f :=
      Set.Subset.antisymm (fun c hc => hi.createPageTable_fresh hs₁ hf hc) fun c hc => hkept c f hc
    rw [← hsame]
    exact hcount

end Paging

namespace ShareRun

variable {all : List PageNo} {boot : PageNo → Nat} {s t s₀ : ShareRun Unit} {f : PageNo} {done : List Nat} {va : Nat}

/-- The object `"a"` of environment 1 has one page, and its frame is mapped at the pages `done` and at no others. -/
structure Single (all : List PageNo) (boot : PageNo → Nat) (s : ShareRun Unit) (f : PageNo) (done : List Nat) : Prop where
  walk : s.sharing.mem.run.WalkInv all boot
  object : ∃ shr, s.sharing.sharesList = [shr] ∧ shr.ownerID = 1 ∧ shr.name = Share.strncpy64 [97] ∧ shr.framesStorage = [f] ∧
    pagesNeededInt shr.size = 1
  maps : ∀ p ∈ done, s.sharing.mem.run.paging.Maps () p f
  others : ∀ q, (∀ p ∈ done, ¬ Paging.SamePage q p) → (s.sharing.mem.run.paging.page () q).present = false
  count : (holders s.sharing.mem.run.hold f).ncard = done.length

/-- `get_shared_object` of the object is one `map_frame` -/
theorem Single.step_get (h : Single all boot s f done) {va : Nat} (hva : va < 4294967296) : ∃ perm l u, perm &&& permBuffered = 0 ∧
    (∃ shr, l = [shr] ∧ shr.ownerID = 1 ∧ shr.name = Share.strncpy64 [97] ∧ shr.framesStorage = [f] ∧
      pagesNeededInt shr.size = 1) ∧
    s.step (.getSharedObject () 1 [97] va) = (s.sharing.mem.run.mapFrame () f va perm).map fun r =>
      { sharing := { mem := { s.sharing.mem with run := r }, sharesList := l }, uses := u } := by
  obtain ⟨shr, hlist, howner, hname, hframes, hneeded⟩ := h.object
  have hstring : shr.nameString = [97] := Share.nameString_eq (by decide) (by decide) hname
  refine ⟨if shr.isWritable ≠ 0 then permUser ||| permWriteable else permUser,
    [{ shr with references := u32 (shr.references + 1) }], ⟨(), 1, [97], va, false⟩ :: s.uses, by split <;> decide,
    ⟨_, rfl, howner, hname, hframes, hneeded⟩, ?_⟩
  have htake : Sharing.takeReference 1 [97] s.sharing.sharesList =
      some ({ shr with references := u32 (shr.references + 1) }, [{ shr with references := u32 (shr.references + 1) }]) := by
    rw [hlist]
    simp [Sharing.takeReference, Share.Matches, howner, hstring]
  have hpages : pagesFrom va 1 = [va] := by simp [pagesFrom, u32_of_lt hva]
  show (s.sharing.getSharedObject () 1 [97] va).map _ = _
  unfold Sharing.getSharedObject
  rw [htake]
  dsimp only
  rw [hneeded, hframes, hpages, if_pos (show 1 ≤ [f].length from Nat.le_refl 1)]
  simp only [List.zip_cons_cons, List.zip_nil_left, exec, Sharing.getPage]
  cases s.sharing.mem.run.mapFrame () f va (if shr.isWritable ≠ 0 then permUser ||| permWriteable else permUser) <;> rfl

/-- The object is gotten at a page that is not mapped. -/
theorem Single.get (h : Single all boot s f done) (hne : done ≠ []) (hroom : done.length < 65535) (hva : Sharing.InHeap va 1)
    (hnew : ∀ p ∈ done, ¬ Paging.SamePage va p) (hs : s.step (.getSharedObject () 1 [97] va) = some t) :
    Single all boot t f (va :: done) := by
  have hlt := hva.wrap
  obtain ⟨perm, l, u, hperm, hobject, hstep⟩ := h.step_get (show va < 4294967296 by omega)
  obtain ⟨p, hp⟩ := List.exists_mem_of_ne_nil _ hne
  obtain ⟨-, -, hnot, hheld⟩ := h.walk.maps_live (h.maps p hp)
  have hunmapped := h.others va hnew
  rw [hstep] at hs
  obtain ⟨r, hr, rfl⟩ := Option.map_eq_some_iff.mp hs
  have htop : va < userTop := by
    have := hva.2
    simp only [userHeapMax, userTop] at this ⊢
    omega
  obtain ⟨hwalk, hwrites, -⟩ := h.walk.mapFrame htop (.inr hheld) hnot (by rw [h.count]; exact hroom) hperm hr
  refine ⟨hwalk, hobject, ?_, fun q hq => ?_, ?_⟩
  · rw [List.forall_mem_cons]
    refine ⟨?_, fun q hq => (hwrites.maps_of_ne fun hsame => hnew q hq ⟨hsame.2.1.symm, hsame.2.2.symm⟩).mpr (h.maps q hq)⟩
    unfold Paging.Maps
    rw [hwrites.self]
    exact Paging.mappedPte_present ..
  · rw [List.forall_mem_cons] at hq
    show (r.paging.page () q).present = false
    rw [hwrites.others () q fun hsame => hq.1 hsame.2]
    exact h.others q hq.2
  · obtain ⟨⟨tables, hi⟩, hl⟩ := h.walk
    obtain ⟨p', hp', rfl⟩ := Option.map_eq_some_iff.mp hr
    rw [List.length_cons, ← h.count]
    exact hi.mapFrame_ncard hl (.inr hheld) hunmapped hp'

/-- A page whose table exists is mapped without a new table. -/
theorem Single.get_some (h : Single all boot s f done) (hva : Sharing.InHeap va 1) {p : Nat} (hp : p ∈ done) (hpdx : pdx p = pdx va)
    (hnew : ∀ p ∈ done, ¬ Paging.SamePage va p) : ∃ t x perm, s.step (.getSharedObject () 1 [97] va) = some t ∧
      t.sharing.mem.run.paging.heap.mem = s.sharing.mem.run.paging.heap.mem.install (.user x (ptx va)) f va perm ∧
      (holders t.sharing.mem.run.hold f).ncard = done.length + 1 := by
  have hlt := hva.wrap
  obtain ⟨perm, l, u, -, -, hstep⟩ := h.step_get (show va < 4294967296 by omega)
  have htable : ∃ x, s.sharing.mem.run.paging.pde () (pdx va) = some x := by
    rw [← hpdx]
    cases hx : s.sharing.mem.run.paging.pde () (pdx p) with
    | some x => exact ⟨x, rfl⟩
    | none =>
      have hpresent := (h.maps p hp).1
      rw [Paging.page_of_none hx] at hpresent
      exact absurd hpresent (by decide)
  obtain ⟨x, hx⟩ := htable
  obtain ⟨⟨tables, hi⟩, hl⟩ := h.walk
  obtain ⟨heq, hcount⟩ := Paging.mapFrameIn_unmapped f perm hx (h.others va hnew)
  have hmap : s.sharing.mem.run.paging.mapFrame () f va perm = s.sharing.mem.run.paging.mapFrameIn x f va perm := by
    unfold Paging.mapFrame
    rw [hi.getPageTable_eq hl, Option.bind_some, hx]
  rw [hstep]
  unfold PagingRun.mapFrame PagingRun.step
  dsimp only
  rw [hmap, heq]
  exact ⟨_, x, perm, rfl, rfl, hcount.trans (by rw [← h.count]; rfl)⟩

/-- The calls that get the object at the pages of a list. -/
def getsAt (ps : List Nat) : List (CountEvent Unit) := ps.map fun p => .share (.getSharedObject () 1 [97] p)

theorem Single.allowed (h : Single all boot s f done) (hva : Sharing.InHeap va 1) :
    s.CountAllowed (.share (.getSharedObject () 1 [97] va)) := by
  obtain ⟨shr, hlist, -, -, -, hneeded⟩ := h.object
  intro x hx _ _
  rw [hlist, List.mem_singleton] at hx
  rw [hx, hneeded]
  exact hva

/-- The object is gotten at different pages, as long as the calls return. -/
theorem Single.gets {ps : List Nat} (h : Single all boot s f done) (hr : Reach countStep CountAllowed s₀ s) (hne : done ≠ [])
    (hroom : done.length + ps.length ≤ 65535) (hheap : ∀ p ∈ ps, Sharing.InHeap p 1) (hapart : Apart ps)
    (hnew : ∀ p ∈ ps, ∀ q ∈ done, ¬ Paging.SamePage p q) (hs : exec countStep s (getsAt ps) = some t) :
    Single all boot t f (ps.reverse ++ done) ∧ Reach countStep CountAllowed s₀ t := by
  induction ps generalizing s done with
  | nil =>
    cases hs
    exact ⟨h, hr⟩
  | cons p ps ih =>
    obtain ⟨s₁, hstep, hs⟩ := exec_cons.mp hs
    obtain ⟨hhead, htail⟩ := List.pairwise_cons.mp hapart
    have hp := hheap p (List.mem_cons_self ..)
    rw [List.length_cons] at hroom
    have h₁ := h.get hne (by omega) hp (hnew p (List.mem_cons_self ..)) hstep
    have hr₁ := hr.step _ (h.allowed hp) hstep
    have hnew₁ : ∀ q ∈ ps, ∀ x ∈ p :: done, ¬ Paging.SamePage q x := by
      intro q hq
      rw [List.forall_mem_cons]
      exact ⟨fun hsame => hhead q hq ⟨hsame.1.symm, hsame.2.symm⟩, hnew q (List.mem_cons_of_mem _ hq)⟩
    obtain ⟨h', hr'⟩ := ih h₁ hr₁ (List.cons_ne_nil _ _) (by rw [List.length_cons]; omega)
      (fun q hq => hheap q (List.mem_cons_of_mem _ hq)) htail hnew₁ hs
    refine ⟨?_, hr'⟩
    rwa [List.reverse_cons, List.append_assoc, List.singleton_append]

/-- The calls return when the tables are there. -/
theorem Single.gets_some {ps : List Nat} (h : Single all boot s f done) (hne : done ≠ []) (hroom : done.length + ps.length ≤ 65535)
    (hheap : ∀ p ∈ ps, Sharing.InHeap p 1) (hapart : Apart ps) (hnew : ∀ p ∈ ps, ∀ q ∈ done, ¬ Paging.SamePage p q)
    (htables : ∀ p ∈ ps, ∃ q ∈ done, pdx q = pdx p) : ∃ t, exec countStep s (getsAt ps) = some t := by
  induction ps generalizing s done with
  | nil => exact ⟨s, rfl⟩
  | cons p ps ih =>
    obtain ⟨hhead, htail⟩ := List.pairwise_cons.mp hapart
    have hp := hheap p (List.mem_cons_self ..)
    rw [List.length_cons] at hroom
    obtain ⟨q, hq, hpdx⟩ := htables p (List.mem_cons_self ..)
    obtain ⟨s₁, -, -, hstep, -⟩ := h.get_some hp hq hpdx (hnew p (List.mem_cons_self ..))
    have h₁ := h.get hne (by omega) hp (hnew p (List.mem_cons_self ..)) hstep
    have hnew₁ : ∀ q ∈ ps, ∀ x ∈ p :: done, ¬ Paging.SamePage q x := by
      intro q hq
      rw [List.forall_mem_cons]
      exact ⟨fun hsame => hhead q hq ⟨hsame.1.symm, hsame.2.symm⟩, hnew q (List.mem_cons_of_mem _ hq)⟩
    have htables₁ : ∀ q ∈ ps, ∃ x ∈ p :: done, pdx x = pdx q := by
      intro q hq
      obtain ⟨x, hx, hpdx⟩ := htables q (List.mem_cons_of_mem _ hq)
      exact ⟨x, List.mem_cons_of_mem _ hx, hpdx⟩
    obtain ⟨t, ht⟩ := ih h₁ (List.cons_ne_nil _ _) (by rw [List.length_cons]; omega)
      (fun q hq => hheap q (List.mem_cons_of_mem _ hq)) htail hnew₁ htables₁
    exact ⟨t, exec_cons.mpr ⟨s₁, hstep, ht⟩⟩

/-- The first page of the `i`-th table of the user heap. -/
def firstPage (i : Nat) : Nat := 2147483648 + i * 4194304

/-- The other pages of the tables, in order. -/
def laterPage (j : Nat) : Nat := 2147483648 + j / 1023 * 4194304 + (j % 1023 + 1) * 4096

theorem not_samePage {va va' : Nat} (h : va < 4294967296) (h' : va' < 4294967296) (hne : va / 4096 ≠ va' / 4096) :
    ¬ Paging.SamePage va va' := fun hsame => hne ((samePage_iff h h').mp hsame)

theorem firstPage_bounds {i : Nat} (hi : i < 64) : Sharing.InHeap (firstPage i) 1 ∧ firstPage i < 4294967296 ∧
    firstPage i / 4096 = 524288 + i * 1024 := by
  unfold Sharing.InHeap firstPage userHeapStart userHeapMax
  omega

theorem laterPage_bounds {j : Nat} (hj : j < 65472) : Sharing.InHeap (laterPage j) 1 ∧ laterPage j < 4294967296 ∧
    laterPage j / 4096 = 524288 + j / 1023 * 1024 + (j % 1023 + 1) := by
  unfold Sharing.InHeap laterPage userHeapStart userHeapMax
  omega

theorem firstPage_apart (l : List Nat) (hl : l.Pairwise (· < ·)) (hlt : ∀ i ∈ l, i < 64) : Apart (l.map firstPage) := by
  unfold Apart
  rw [List.pairwise_map]
  refine hl.imp_of_mem fun {i j} hi hj hij => ?_
  obtain ⟨-, hi₁, hi₂⟩ := firstPage_bounds (hlt i hi)
  obtain ⟨-, hj₁, hj₂⟩ := firstPage_bounds (hlt j hj)
  exact not_samePage hi₁ hj₁ (by omega)

theorem laterPage_apart (l : List Nat) (hl : l.Pairwise (· < ·)) (hlt : ∀ j ∈ l, j < 65472) : Apart (l.map laterPage) := by
  unfold Apart
  rw [List.pairwise_map]
  refine hl.imp_of_mem fun {i j} hi hj hij => ?_
  obtain ⟨-, hi₁, hi₂⟩ := laterPage_bounds (hlt i hi)
  obtain ⟨-, hj₁, hj₂⟩ := laterPage_bounds (hlt j hj)
  refine not_samePage hi₁ hj₁ ?_
  rw [hi₂, hj₂]
  omega

theorem first_later {i j : Nat} (hi : i < 64) (hj : j < 65472) : ¬ Paging.SamePage (laterPage j) (firstPage i) := by
  obtain ⟨-, hi₁, hi₂⟩ := firstPage_bounds hi
  obtain ⟨-, hj₁, hj₂⟩ := laterPage_bounds hj
  refine not_samePage hj₁ hi₁ ?_
  rw [hi₂, hj₂]
  omega

theorem pdx_laterPage (j : Nat) : pdx (firstPage (j / 1023)) = pdx (laterPage j) := by
  unfold pdx firstPage laterPage
  simp only [Fin.ext_iff, Fin.ofNat]
  omega

/-- The object is created after the boot. -/
theorem single_create {n k : Nat} {r₀ : PagingRun Unit} (hmin : 160 ≤ n) (hn : n ≤ 1048576) (hk : 256 ≤ k)
    (hboot : PagingRun.afterBoot Unit n k = some r₀)
    (hs : countStep (start { run := r₀, disk := {} }) (.share (.createSharedObject () 1 [97] 4096 0 (firstPage 0))) = some s)
    (hlist : s.sharing.sharesList.length = 1)
    (hrefs : ∀ shr ∈ s.sharing.sharesList, ∀ f ∈ shr.framesStorage, s.sharing.mem.run.paging.heap.mem.references f = 1) :
    ∃ f, Single (bootFree n k) (bootReferences k) s f [firstPage 0] := by
  have hwalk₀ := PagingRun.WalkInv.reach hmin hn hk hboot .init
  obtain ⟨-, hpde⟩ := PagingRun.boot_empty hmin hn hk hboot
  have hneeded : pagesNeeded 4096 = 1 := by decide
  have hheap : Sharing.InHeap (firstPage 0) (pagesNeeded 4096) := by
    rw [hneeded]
    exact (firstPage_bounds (by decide)).1
  obtain ⟨⟨s', res⟩, hs', rfl⟩ := Option.map_eq_some_iff.mp hs
  obtain ⟨hwalk, ⟨hnil, -⟩ | ⟨shr, hcreated, -⟩⟩ := Sharing.createSharedObject_cases hwalk₀ (by decide) hheap hs'
  · have hlist : s'.sharesList.length = 1 := hlist
    rw [hnil] at hlist
    exact nomatch hlist
  · obtain ⟨f, hf⟩ := List.length_eq_one_iff.mp (hcreated.length.trans hneeded)
    have hpages : pagesFrom (firstPage 0) (pagesNeeded 4096) = [firstPage 0] := by
      rw [hneeded]
      rfl
    have hmaps := hcreated.maps
    rw [hf, hpages] at hmaps
    have hself : s'.mem.run.paging.Maps () (firstPage 0) f := hmaps.maps (List.mem_singleton_self (f, firstPage 0))
    have hmem : shr ∈ s'.sharesList := by
      rw [hcreated.list]
      exact List.mem_cons_self ..
    refine ⟨f, hwalk, ⟨shr, hcreated.list, hcreated.owner, hcreated.name, hf, hcreated.needed.1.trans (by decide)⟩, ?_, fun q hq => ?_, ?_⟩
    · rw [List.forall_mem_singleton]
      exact hself
    · show (s'.mem.run.paging.page () q).present = false
      rw [hmaps.others () q fun x hx hsame => hq x.2 ((List.of_mem_zip hx).2) hsame.2]
      show (r₀.paging.page () q).present = false
      rw [Paging.page_of_none (hpde () (pdx q))]
      decide
    · obtain ⟨⟨tables, hi⟩, -⟩ := id hwalk
      obtain ⟨F, ha⟩ := hi.accounts
      obtain ⟨x, hx⟩ := hself.hold
      show (holders s'.mem.run.paging.heap.mem.hold f).ncard = 1
      rw [← ha.references f (ha.held _ f hx)]
      exact hrefs shr hmem f (by rw [hf]; exact List.mem_singleton_self f)

/-- The object is gotten at 65535 further pages of the user heap, which has 131072: its frame has 65536 mappings and the
    field is 0. -/
theorem references_wrap : ∃ (r₀ : PagingRun Unit) (s : ShareRun Unit), PagingRun.afterBoot Unit 1024 768 = some r₀ ∧
    Reach countStep CountAllowed (start { run := r₀, disk := {} }) s ∧
      (∃ f, (holders s.sharing.mem.run.hold f).ncard = 65536 ∧ s.sharing.mem.run.paging.heap.mem.references f = 0) ∧
      ¬ Counted (bootFree 1024 768) s := by
  have hrun : ((PagingRun.afterBoot Unit 1024 768).bind fun r₀ =>
      (countStep (start { run := r₀, disk := {} }) (.share (.createSharedObject () 1 [97] 4096 0 (firstPage 0)))).bind fun s₁ =>
        (exec countStep s₁ (getsAt ((List.range' 1 63).map firstPage))).map fun _ => (s₁.sharing.sharesList.length,
          s₁.sharing.sharesList.all fun shr => shr.framesStorage.all fun f =>
            s₁.sharing.mem.run.paging.heap.mem.references f = 1)) = some (1, true) := by
    rw [PagingRun.afterBoot_eq]
    decide +kernel
  obtain ⟨r₀, hboot, hrun⟩ := Option.bind_eq_some_iff.mp hrun
  obtain ⟨s₁, hs₁, hrun⟩ := Option.bind_eq_some_iff.mp hrun
  obtain ⟨s₂, hs₂, hresult⟩ := Option.map_eq_some_iff.mp hrun
  simp only [Prod.mk.injEq, List.all_eq_true, decide_eq_true_eq] at hresult
  obtain ⟨hlist, hrefs⟩ := hresult
  obtain ⟨f, h₁⟩ := single_create (by decide) (by decide) (by decide) hboot hs₁ hlist hrefs
  have hallowed : (start { run := r₀, disk := {} }).CountAllowed (.share (.createSharedObject () 1 [97] 4096 0 (firstPage 0))) := by
    refine ⟨by decide, ?_⟩
    rw [show pagesNeeded 4096 = 1 by decide]
    exact (firstPage_bounds (by decide)).1
  have hr₁ : Reach countStep CountAllowed (start { run := r₀, disk := {} }) s₁ :=
    .step (.share (.createSharedObject () 1 [97] 4096 0 (firstPage 0))) .init hallowed hs₁
  -- The first page of every table.
  have hfirst : ∀ p ∈ (List.range' 1 63).map firstPage, ∃ i, 1 ≤ i ∧ i < 64 ∧ p = firstPage i := by
    intro p hp
    obtain ⟨i, hi, rfl⟩ := List.mem_map.mp hp
    rw [List.mem_range'_1] at hi
    exact ⟨i, hi.1, by omega, rfl⟩
  obtain ⟨h₂, hr₂⟩ := h₁.gets hr₁ (List.cons_ne_nil _ _) (by simp)
    (fun p hp => by obtain ⟨i, -, hi, rfl⟩ := hfirst p hp; exact (firstPage_bounds hi).1)
    (firstPage_apart _ (List.pairwise_lt_range' ..) fun i hi => by rw [List.mem_range'_1] at hi; omega)
    (fun p hp q hq => by
      obtain ⟨i, hi₁, hi, rfl⟩ := hfirst p hp
      rw [List.mem_singleton.mp hq]
      obtain ⟨-, hlt, hpage⟩ := firstPage_bounds hi
      obtain ⟨-, hlt₀, hpage₀⟩ := firstPage_bounds (i := 0) (by decide)
      exact not_samePage hlt hlt₀ (by omega)) hs₂
  have hdone₂ : ∀ q, q ∈ ((List.range' 1 63).map firstPage).reverse ++ [firstPage 0] ↔ ∃ i < 64, q = firstPage i := by
    intro q
    simp only [List.mem_append, List.mem_reverse, List.mem_map, List.mem_range'_1, List.mem_singleton]
    constructor
    · rintro (⟨i, hi, rfl⟩ | rfl)
      · exact ⟨i, by omega, rfl⟩
      · exact ⟨0, by decide, rfl⟩
    · rintro ⟨i, hi, rfl⟩
      rcases Nat.eq_zero_or_pos i with rfl | hpos
      · exact .inr rfl
      · exact .inl ⟨i, by omega, rfl⟩
  -- All further pages but one.
  have hlater : ∀ p ∈ (List.range 65471).map laterPage, ∃ j < 65471, p = laterPage j := by
    intro p hp
    obtain ⟨j, hj, rfl⟩ := List.mem_map.mp hp
    exact ⟨j, List.mem_range.mp hj, rfl⟩
  have hlen₂ : (((List.range' 1 63).map firstPage).reverse ++ [firstPage 0]).length = 64 := by simp
  have hheap₃ : ∀ p ∈ (List.range 65471).map laterPage, Sharing.InHeap p 1 := by
    intro p hp
    obtain ⟨j, hj, rfl⟩ := hlater p hp
    exact (laterPage_bounds (by omega)).1
  have hapart₃ : Apart ((List.range 65471).map laterPage) :=
    laterPage_apart _ List.pairwise_lt_range fun j hj => by rw [List.mem_range] at hj; omega
  have hnew₃ : ∀ p ∈ (List.range 65471).map laterPage,
      ∀ q ∈ ((List.range' 1 63).map firstPage).reverse ++ [firstPage 0], ¬ Paging.SamePage p q := by
    intro p hp q hq
    obtain ⟨j, hj, rfl⟩ := hlater p hp
    obtain ⟨i, hi, rfl⟩ := (hdone₂ q).mp hq
    exact first_later hi (by omega)
  have htables₃ : ∀ p ∈ (List.range 65471).map laterPage,
      ∃ q ∈ ((List.range' 1 63).map firstPage).reverse ++ [firstPage 0], pdx q = pdx p := by
    intro p hp
    obtain ⟨j, hj, rfl⟩ := hlater p hp
    exact ⟨firstPage (j / 1023), (hdone₂ _).mpr ⟨j / 1023, by omega, rfl⟩, pdx_laterPage j⟩
  have hlen₃ : ((List.range 65471).map laterPage).length = 65471 := by simp
  have hne₂ : ((List.range' 1 63).map firstPage).reverse ++ [firstPage 0] ≠ [] := by simp
  have hroom₃ : (((List.range' 1 63).map firstPage).reverse ++ [firstPage 0]).length + ((List.range 65471).map laterPage).length ≤ 65535 := by
    rw [hlen₂, hlen₃]
  obtain ⟨s₃, hs₃⟩ := h₂.gets_some hne₂ hroom₃ hheap₃ hapart₃ hnew₃ htables₃
  obtain ⟨h₃, hr₃⟩ := h₂.gets hr₂ hne₂ hroom₃ hheap₃ hapart₃ hnew₃ hs₃
  -- The last page.
  have hlast : Sharing.InHeap (laterPage 65471) 1 := (laterPage_bounds (by decide)).1
  have hnew₄ : ∀ q ∈ ((List.range 65471).map laterPage).reverse ++ (((List.range' 1 63).map firstPage).reverse ++ [firstPage 0]),
      ¬ Paging.SamePage (laterPage 65471) q := by
    intro q hq
    rcases List.mem_append.mp hq with hq | hq
    · obtain ⟨j, hj, rfl⟩ := hlater q (List.mem_reverse.mp hq)
      obtain ⟨-, hlt, hpage⟩ := laterPage_bounds (show j < 65472 by omega)
      obtain ⟨-, hlt', hpage'⟩ := laterPage_bounds (show 65471 < 65472 by decide)
      refine not_samePage hlt' hlt ?_
      rw [hpage, hpage']
      omega
    · obtain ⟨i, hi, rfl⟩ := (hdone₂ q).mp hq
      exact first_later hi (by decide)
  obtain ⟨s, x, perm, hs, hmem, hcount⟩ := h₃.get_some hlast
    (List.mem_append_right _ ((hdone₂ _).mpr ⟨63, by decide, rfl⟩)) (pdx_laterPage 65471) hnew₄
  rw [List.length_append, List.length_reverse, hlen₃, hlen₂] at hcount
  obtain ⟨⟨tables, hi⟩, -⟩ := h₃.walk
  obtain ⟨F, ha⟩ := hi.accounts
  obtain ⟨y, hy⟩ := (h₃.maps _ (List.mem_append_right _ ((hdone₂ _).mpr ⟨63, by decide, rfl⟩))).hold
  have hall : f ∈ bootFree 1024 768 := ha.held _ f hy
  have hbefore : s₃.sharing.mem.run.paging.heap.mem.references f = 65535 := by
    refine (ha.references f hall).trans (h₃.count.trans ?_)
    rw [List.length_append, List.length_reverse, hlen₃, hlen₂]
  have hzero : s.sharing.mem.run.paging.heap.mem.references f = 0 := by
    rw [hmem]
    show Function.update _ f _ f = 0
    rw [Function.update_self, hbefore]
    rfl
  refine ⟨r₀, s, hboot, hr₃.step _ (h₃.allowed hlast) hs, ⟨f, hcount, hzero⟩, fun hcounted => ?_⟩
  have hsame := hcounted.references f hall
  rw [hzero, hcount] at hsame
  exact nomatch hsame

end ShareRun

end Fos.Mem
