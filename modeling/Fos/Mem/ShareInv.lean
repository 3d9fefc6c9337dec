import Fos.Mem.UserMemInv
import Fos.Mem.Share

/-! The loops of the shared objects: `create_shared_object` and `get_shared_object` map a list of frames at a list of
    pages, and `free_user_mem` unmaps a list of pages. -/

namespace Fos.Mem
open Lib Heap Frames

namespace Paging

variable {D : Type} {s s' s₁ : Paging D} {e : D} {perm : BitVec 12}

/-- The frames were mapped at the pages, and every other page is as before. -/
structure MapsAll (s s' : Paging D) (e : D) (perm : BitVec 12) (l : List (PageNo × Nat)) : Prop where
  self : ∀ x ∈ l, s'.page e x.2 = mappedPte (s.page e x.2) x.1 perm
  others : ∀ d va, (∀ x ∈ l, ¬ (d = e ∧ SamePage va x.2)) → s'.page d va = s.page d va

theorem MapsAll.nil (h : s'.page = s.page) : MapsAll s s' e perm [] := ⟨nofun, fun d va _ => by rw [h]⟩

theorem MapsAll.of_page {l : List (PageNo × Nat)} (h : MapsAll s₁ s' e perm l) (hpage : s₁.page = s.page) :
    MapsAll s s' e perm l := by
  refine ⟨fun x hx => ?_, fun d va hva => ?_⟩
  · rw [h.self x hx, hpage]
  · rw [h.others d va hva, hpage]

/-- One page more, in front. -/
theorem MapsAll.cons {x : PageNo × Nat} {l : List (PageNo × Nat)} (hpage : s₁.page e x.2 = mappedPte (s.page e x.2) x.1 perm)
    (hothers : ∀ d va, ¬ (d = e ∧ SamePage va x.2) → s₁.page d va = s.page d va) (h : MapsAll s₁ s' e perm l)
    (hapart : ∀ y ∈ l, ¬ SamePage x.2 y.2) : MapsAll s s' e perm (x :: l) := by
  refine ⟨fun y hy => ?_, fun d va hva => ?_⟩
  · rcases List.mem_cons.mp hy with rfl | hy
    · rw [h.others e y.2 fun z hz hsame => hapart z hz hsame.2, hpage]
    · have hne : ¬ (e = e ∧ SamePage y.2 x.2) := fun hsame => hapart y hy ⟨hsame.2.1.symm, hsame.2.2.symm⟩
      rw [h.self y hy, hothers e y.2 hne]
  · rw [h.others d va fun z hz => hva z (List.mem_cons_of_mem _ hz), hothers d va (hva x (List.mem_cons_self ..))]

/-- A page that gets a frame has the frame. -/
theorem MapsAll.maps {l : List (PageNo × Nat)} {x : PageNo × Nat} (h : MapsAll s s' e perm l) (hx : x ∈ l) :
    Maps s' e x.2 x.1 := by
  unfold Maps
  rw [h.self x hx]
  exact mappedPte_present ..

/-- A mapping stays unless its page gets another frame. -/
theorem MapsAll.kept {l : List (PageNo × Nat)} {d : D} {va : Nat} {f : PageNo} (h : MapsAll s s' e perm l)
    (hm : Maps s d va f) (hkept : ∀ x ∈ l, d = e → SamePage va x.2 → x.1 = f) : Maps s' d va f := by
  by_cases hin : ∃ x ∈ l, d = e ∧ SamePage va x.2
  · obtain ⟨x, hx, rfl, hsame⟩ := hin
    have hf := hkept x hx rfl hsame
    have hmaps := h.maps hx
    unfold Maps at hmaps ⊢
    rw [page_samePage hsame]
    exact hf ▸ hmaps
  · unfold Maps
    rw [h.others d va fun x hx hsame => hin ⟨x, hx, hsame⟩]
    exact hm

end Paging

/-! ### The loops -/

namespace PagingRun

variable {E : Type} [DecidableEq E] {all : List PageNo} {boot : PageNo → Nat} {r r' : PagingRun E} {e : E} {perm : BitVec 12}

/-- The loop of `create_shared_object`: the new frames are mapped at the pages. A new frame was mapped before only where
    the loop itself unmapped it. -/
theorem WalkInv.createPages {ps : List Nat} {fs fs' : List PageNo} (h : WalkInv all boot r) (hapart : Apart ps)
    (hlt : ∀ p ∈ ps, p < userTop) (hs : exec (Sharing.createPage e) (r, fs) ps = some (r', fs')) :
    ∃ new, fs' = fs ++ new ∧ new.length = ps.length ∧ WalkInv all boot r' ∧
      Paging.MapsAll r.paging r'.paging e (permUser ||| permWriteable) (new.zip ps) ∧ r'.handed = r.handed ∧ r'.live = r.live ∧
      new.Nodup ∧ ∀ f ∈ new, ∀ d va, r.paging.Maps d va f → ∃ p ∈ ps, d = e ∧ Paging.SamePage va p := by
  induction ps generalizing r fs with
  | nil =>
    cases hs
    exact ⟨[], by simp, rfl, h, .nil rfl, rfl, rfl, List.nodup_nil, nofun⟩
  | cons p ps ih =>
    obtain ⟨⟨r₂, fs₂⟩, hstep, hs⟩ := exec_cons.mp hs
    obtain ⟨⟨r₁, f⟩, halloc, hstep⟩ := Option.bind_eq_some_iff.mp hstep
    obtain ⟨r₂', hmap, heq⟩ := Option.map_eq_some_iff.mp hstep
    simp only [Prod.mk.injEq] at heq
    obtain ⟨rfl, rfl⟩ := heq
    obtain ⟨h₁, hpage₁, hhanded₁, hunheld, hhold₁⟩ := h.allocateFrame halloc
    have hempty : holders r₁.hold f = ∅ := by
      ext c
      simpa only [mem_holders, Set.mem_empty_iff_false, iff_false] using hunheld c
    have hlive₁ : r₁.live = r.live := by
      obtain ⟨x, -, heq⟩ := Option.map_eq_some_iff.mp halloc
      simp only [Prod.mk.injEq] at heq
      rw [← heq.1]
    obtain ⟨h₂, hwrites, hhanded₂, hlive₂⟩ := h₁.mapFrame (hlt p (List.mem_cons_self ..))
      (.inl (by rw [hhanded₁]; exact List.mem_cons_self ..)) (fun q => hunheld _) (by rw [hempty, Set.ncard_empty]; decide)
      (by decide) hmap
    rw [hpage₁] at hwrites
    have hothers : ∀ d va, ¬ (d = e ∧ Paging.SamePage va p) → r₂'.paging.page d va = r.paging.page d va := fun d va hne => by
      rw [hwrites.others d va hne, hpage₁]
    have hmaps : r₂'.paging.Maps e p f := by
      unfold Paging.Maps
      rw [hwrites.self]
      exact Paging.mappedPte_present ..
    obtain ⟨hhead, htail⟩ := List.pairwise_cons.mp hapart
    obtain ⟨new, rfl, hlen, h', hall, hhanded, hlive, hnodup, hnew⟩ :=
      ih h₂ htail (fun q hq => hlt q (List.mem_cons_of_mem _ hq)) hs
    refine ⟨f :: new, by simp, by simp [hlen], h', .cons hwrites.self hothers hall fun y hy => hhead _ (List.of_mem_zip hy).2, ?_,
      hlive.trans (hlive₂.trans hlive₁), List.nodup_cons.mpr ⟨fun hf => ?_, hnodup⟩, fun g hg d va hm => ?_⟩
    · rw [hhanded, hhanded₂, hhanded₁, List.erase_cons_head]
    · -- The frame was just mapped at `p`, which no later round touches.
      obtain ⟨q, hq, -, hsame⟩ := hnew f hf e p hmaps
      exact hhead q hq hsame
    · rcases List.mem_cons.mp hg with rfl | hg
      · obtain ⟨x, hx⟩ := hm.hold
        refine absurd ?_ (hunheld (.user x (ptx va)))
        rw [hhold₁]
        exact hx
      · by_cases hsame : d = e ∧ Paging.SamePage va p
        · exact ⟨p, List.mem_cons_self .., hsame⟩
        · have hm : r₂'.paging.Maps d va g := by
            unfold Paging.Maps
            rw [hothers d va hsame]
            exact hm
          obtain ⟨q, hq, hsame⟩ := hnew g hg d va hm
          exact ⟨q, List.mem_cons_of_mem _ hq, hsame⟩

/-- The loop of `get_shared_object`, when every frame has a mapping that the loop leaves alone. -/
theorem WalkInv.getPages {l : List (PageNo × Nat)} (h : WalkInv all boot r) (hapart : Apart (l.map Prod.snd))
    (hlt : ∀ x ∈ l, x.2 < userTop) (hnodup : (l.map Prod.fst).Nodup)
    (hkept : ∀ x ∈ l, ∃ d va, r.paging.Maps d va x.1 ∧ ∀ y ∈ l, d = e → Paging.SamePage va y.2 → y.1 = x.1)
    (hroom : ∀ x ∈ l, (holders r.hold x.1).ncard < 65535) (hperm : perm &&& permBuffered = 0)
    (hs : exec (Sharing.getPage e perm) r l = some r') :
    WalkInv all boot r' ∧ Paging.MapsAll r.paging r'.paging e perm l ∧ r'.handed = r.handed ∧ r'.live = r.live := by
  induction l generalizing r with
  | nil =>
    cases hs
    exact ⟨h, .nil rfl, rfl, rfl⟩
  | cons x l ih =>
    obtain ⟨r₁, hstep, hs⟩ := exec_cons.mp hs
    have hstep : r.mapFrame e x.1 x.2 perm = some r₁ := hstep
    obtain ⟨d, va, hm, -⟩ := hkept x (List.mem_cons_self ..)
    obtain ⟨hout, -, hnot, hheld⟩ := h.maps_live hm
    obtain ⟨h₁, hwrites, hhanded₁, hlive₁⟩ := h.mapFrame (hlt x (List.mem_cons_self ..)) (.inr hheld) hnot
      (hroom x (List.mem_cons_self ..)) hperm hstep
    rw [List.map_cons] at hapart hnodup
    obtain ⟨hhead, htail⟩ := List.pairwise_cons.mp hapart
    obtain ⟨hfirst, hrest⟩ := List.nodup_cons.mp hnodup
    have hne : ∀ y ∈ l, y.1 ≠ x.1 := fun y hy heq => hfirst (heq ▸ List.mem_map_of_mem hy)
    have hkept₁ : ∀ y ∈ l, ∃ d va, r₁.paging.Maps d va y.1 ∧ ∀ z ∈ l, d = e → Paging.SamePage va z.2 → z.1 = y.1 := by
      intro y hy
      obtain ⟨d', va', hm', hkeep⟩ := hkept y (List.mem_cons_of_mem _ hy)
      refine ⟨d', va', (hwrites.maps_of_ne fun hsame => ?_).mpr hm', fun z hz => hkeep z (List.mem_cons_of_mem _ hz)⟩
      exact hne y hy (hkeep x (List.mem_cons_self ..) hsame.1 hsame.2).symm
    have hroom₁ : ∀ y ∈ l, (holders r₁.hold y.1).ncard < 65535 := by
      intro y hy
      obtain ⟨d', va', hm', -⟩ := hkept y (List.mem_cons_of_mem _ hy)
      obtain ⟨-, -, -, hheld'⟩ := h.maps_live hm'
      exact lt_of_le_of_lt (Set.ncard_le_ncard (h.mapFrame_holders hheld' (hne y hy) hstep)) (hroom y (List.mem_cons_of_mem _ hy))
    obtain ⟨h', hall, hhanded, hlive⟩ :=
      ih h₁ htail (fun y hy => hlt y (List.mem_cons_of_mem _ hy)) hrest hkept₁ hroom₁ hs
    refine ⟨h', .cons hwrites.self hwrites.others hall fun y hy => hhead _ (List.mem_map_of_mem hy), ?_, hlive.trans hlive₁⟩
    rw [hhanded, hhanded₁, List.erase_of_not_mem hout]

end PagingRun

/-! ### What a mapping of an object looks like -/

/-- The entry of a page that maps the frame of an object. -/
structure SharedEntry (entry : Pte) (f : PageNo) (writable : Prop) : Prop where
  present : entry.present
  frame : entry.frame = f
  user : entry.perm &&& permUser ≠ 0
  writeable : entry.perm &&& permWriteable ≠ 0 ↔ writable
  marked : entry.perm &&& permUhpage ≠ 0

/-- `map_frame` on a marked page that is not mapped -/
theorem sharedEntry_mappedPte {entry : Pte} {f : PageNo} {perm : BitVec 12} (hpresent : entry.present = false)
    (hmarked : entry.perm &&& permUhpage ≠ 0) (huser : perm &&& permUser ≠ 0) :
    SharedEntry (Paging.mappedPte entry f perm) f (perm &&& permWriteable ≠ 0) := by
  have hbits := fun x i hi => Paging.and_twoPow_ne_zero x i hi
  obtain ⟨hp, hf⟩ := Paging.mappedPte_present entry f perm
  have heq : Paging.mappedPte entry f perm = ⟨f, entry.perm &&& permAvailable ||| perm ||| permPresent⟩ :=
    if_neg fun h => by simp [hpresent] at h
  refine ⟨hp, hf, ?_, ?_, ?_⟩
  · rw [heq]
    refine (hbits _ 2 (by decide)).mpr ?_
    have huser := (hbits _ 2 (by decide)).mp huser
    simp only [BitVec.getLsbD_or, huser, Bool.or_true, Bool.true_or]
  · rw [heq]
    refine (hbits _ 1 (by decide)).trans (Iff.trans ?_ (hbits _ 1 (by decide)).symm)
    simp only [BitVec.getLsbD_or, BitVec.getLsbD_and, show permAvailable.getLsbD 1 = false from rfl,
      show permPresent.getLsbD 1 = false from rfl, Bool.and_false, Bool.false_or, Bool.or_false]
  · rw [heq]
    refine (hbits _ 10 (by decide)).mpr ?_
    have hmarked := (hbits _ 10 (by decide)).mp hmarked
    simp only [BitVec.getLsbD_or, BitVec.getLsbD_and, hmarked, show permAvailable.getLsbD 10 = true from rfl, Bool.and_true,
      Bool.true_or]

/-! ### Names -/

/-- A name that fits into the field is read back. -/
theorem Share.nameString_eq {shr : Share} {name : CString} (hlen : name.length < 64) (hzero : 0 ∉ name)
    (hname : shr.name = strncpy64 name) : shr.nameString = name := by
  have hfield : strncpy64 name = name ++ List.replicate (64 - name.length) 0 := by
    unfold strncpy64
    rw [List.take_append, List.take_of_length_le (by omega), List.take_replicate, Nat.min_eq_left (by omega)]
  obtain ⟨k, hk⟩ : ∃ k, 64 - name.length = k + 1 := ⟨63 - name.length, by omega⟩
  unfold Share.nameString
  rw [hname, hfield, hk, List.append_assoc, List.append_assoc, List.append_assoc, List.takeWhile_append_of_pos]
  · simp [List.replicate_succ]
  · intro x hx
    have hne : x ≠ 0 := fun h => hzero (h ▸ hx)
    simpa using hne

namespace Sharing

variable {E : Type} [DecidableEq E] {all : List PageNo} {boot : PageNo → Nat} {r r' : PagingRun E} {ownerID : Int}
  {name : CString} {size : Nat} {isWritable : UInt8}

theorem pagesNeeded_lt (size : Nat) : pagesNeeded size < 1048576 := by
  have h := u32_lt (size + 4096 - 1)
  simp only [pagesNeeded, roundUp, roundDown, pageSize]
  omega

theorem allocShare_spec {o : Option Share} (h : r.WalkInv all boot)
    (hs : allocShare r ownerID name size isWritable = some (r', o)) : r'.WalkInv all boot ∧ r'.paging.page = r.paging.page ∧
      ∀ shr, o = some shr → pagesNeeded size ≠ 0 ∧
        shr = { ownerID := ownerID, name := Share.strncpy64 name, size := toInt32 size, isWritable := isWritable } := by
  obtain ⟨⟨r₁, ptr⟩, hr₁, hs⟩ := Option.bind_eq_some_iff.mp hs
  obtain ⟨h₁, hpage₁, -, hlive₁⟩ := h.kmalloc (by decide) hr₁
  simp only [Option.ite_none_left_eq_some] at hs
  obtain ⟨hptr, hs⟩ := hs
  obtain ⟨⟨r₂, storage⟩, hr₂, hs⟩ := Option.bind_eq_some_iff.mp hs
  have hsize : u32 (4 * pagesNeeded size) ≤ 4294963200 := by
    have := pagesNeeded_lt size
    simp only [u32]
    omega
  obtain ⟨h₂, hpage₂, -, hlive₂⟩ := h₁.kmalloc hsize hr₂
  dsimp only at hs
  split at hs
  case isTrue hz =>
    obtain ⟨r₃, hr₃, heq⟩ := Option.map_eq_some_iff.mp hs
    cases heq
    have hmem : ptr ∈ r₂.live := by
      rw [hlive₂, if_pos hz, hlive₁, if_neg hptr]
      exact List.mem_cons_self ..
    obtain ⟨h₃, hpage₃, -⟩ := h₂.kfree hmem hr₃
    exact ⟨h₃, by rw [hpage₃, hpage₂, hpage₁], fun shr heq => by cases heq⟩
  case isFalse hz =>
    cases hs
    refine ⟨h₂, by rw [hpage₂, hpage₁], fun shr heq => ⟨fun hnone => hz ?_, (Option.some.inj heq).symm⟩⟩
    rw [hnone] at hr₂
    obtain ⟨⟨k, va⟩, hk, heq⟩ := Option.map_eq_some_iff.mp hr₂
    cases hk
    simp only [Prod.mk.injEq] at heq
    exact heq.2.symm

/-- The size of an object in the user heap is not negative. -/
theorem pagesNeededInt_toInt32 (hne : pagesNeeded size ≠ 0) (hsize : size < 4294967296)
    (hle : pagesNeeded size * 4096 ≤ 536870912) : pagesNeededInt (toInt32 size) = pagesNeeded size := by
  have hwrap : size + 4095 < 4294967296 := by
    by_contra hge
    refine hne ?_
    simp only [pagesNeeded, roundUp, roundDown, pageSize, u32]
    omega
  have hround : roundUp size pageSize = pagesNeeded size * 4096 ∧ size ≤ pagesNeeded size * 4096 := by
    simp only [pagesNeeded, roundUp, roundDown, pageSize, u32]
    omega
  obtain ⟨hround, hle'⟩ := hround
  have hnat : (toInt32 size % 4294967296).toNat = size := by
    unfold toInt32
    rw [if_pos (by omega)]
    omega
  unfold pagesNeededInt
  rw [hnat, hround]
  unfold toInt32
  dsimp only
  rw [if_pos (by omega), Int.tdiv_eq_ediv_of_nonneg (by omega)]
  omega

/-- The object that `get_shared_object` finds is counted, and the others stay as they are. -/
theorem takeReference_eq_some {l l' : List Share} {shr : Share} (hs : takeReference ownerID name l = some (shr, l')) :
    ∃ pre shr₀ post, l = pre ++ shr₀ :: post ∧ l' = pre ++ shr :: post ∧ shr₀.ownerID = ownerID ∧ shr₀.nameString = name ∧
      shr = { shr₀ with references := u32 (shr₀.references + 1) } := by
  induction l generalizing l' with
  | nil => cases hs
  | cons x l ih =>
    unfold takeReference at hs
    split at hs
    case isTrue hmatch =>
      cases hs
      simp only [Share.Matches, decide_eq_true_eq] at hmatch
      exact ⟨[], x, l, rfl, rfl, hmatch.1, hmatch.2, rfl⟩
    case isFalse =>
      obtain ⟨⟨y, l₁⟩, hy, heq⟩ := Option.map_eq_some_iff.mp hs
      cases heq
      obtain ⟨pre, shr₀, post, rfl, rfl, howner, hname, hshr⟩ := ih hy
      exact ⟨x :: pre, shr₀, post, rfl, rfl, howner, hname, hshr⟩

/-- What `create_shared_object` did when it made the object `shr`. -/
structure Created (s s' : Sharing E) (e : E) (ownerID : Int) (name : CString) (size : Nat) (isWritable : UInt8) (va : Nat)
    (shr : Share) : Prop where
  list : s'.sharesList = shr :: s.sharesList
  absent : ∀ x ∈ s.sharesList, ¬ (x.ownerID = ownerID ∧ x.nameString = name)
  owner : shr.ownerID = ownerID
  name : shr.name = Share.strncpy64 name
  writable : shr.isWritable = isWritable
  references : shr.references = 1
  needed : pagesNeededInt shr.size = pagesNeeded size ∧ pagesNeeded size ≠ 0
  length : shr.framesStorage.length = pagesNeeded size
  nodup : shr.framesStorage.Nodup
  maps : Paging.MapsAll s.mem.run.paging s'.mem.run.paging e (permUser ||| permWriteable)
    (shr.framesStorage.zip (pagesFrom va (pagesNeeded size)))
  fresh : ∀ f ∈ shr.framesStorage, ∀ d va', s.mem.run.paging.Maps d va' f →
    ∃ p ∈ pagesFrom va (pagesNeeded size), d = e ∧ Paging.SamePage va' p

/-- The `n` pages from `va` are in the user heap. -/
def InHeap (va n : Nat) : Prop := userHeapStart ≤ va ∧ va + n * 4096 ≤ userHeapMax

theorem InHeap.wrap {va n : Nat} (h : InHeap va n) : va + n * 4096 ≤ 4294967296 := Nat.le_trans h.2 (by decide)

theorem InHeap.lt {va n p : Nat} (h : InHeap va n) (hp : p ∈ pagesFrom va n) : p < userTop := by
  obtain ⟨i, hi, rfl⟩ := (mem_pagesFrom h.wrap).mp hp
  have := h.2
  simp only [userHeapMax, userTop] at this ⊢
  omega

variable {s s' : Sharing E} {e : E} {va : Nat} {res : ShareResult}

/-- `create_shared_object` changes no mapping, or makes an object -/
theorem createSharedObject_cases (h : s.mem.run.WalkInv all boot) (hsize : size < 4294967296) (hheap : InHeap va (pagesNeeded size))
    (hs : s.createSharedObject e ownerID name size isWritable va = some (s', res)) : s'.mem.run.WalkInv all boot ∧
      (s'.sharesList = s.sharesList ∧ s'.mem.run.paging.page = s.mem.run.paging.page ∧ (res = .exists ∨ res = .noShare) ∨
        ∃ shr, Created s s' e ownerID name size isWritable va shr ∧ res = .id (va % 2147483648)) := by
  unfold createSharedObject at hs
  split at hs
  · cases hs
    exact ⟨h, .inl ⟨rfl, rfl, .inl rfl⟩⟩
  · rename_i hfind
    obtain ⟨⟨r₁, o⟩, halloc, hs⟩ := Option.bind_eq_some_iff.mp hs
    obtain ⟨h₁, hpage₁, hshr⟩ := allocShare_spec h halloc
    cases o with
    | none =>
      cases hs
      exact ⟨h₁, .inl ⟨rfl, hpage₁, .inr rfl⟩⟩
    | some shr =>
      obtain ⟨hpages, rfl⟩ := hshr shr rfl
      obtain ⟨⟨r₂, frames⟩, hexec, heq⟩ := Option.map_eq_some_iff.mp hs
      cases heq
      obtain ⟨new, hnew, hlen, h₂, hall, -, -, hnodup, hfresh⟩ :=
        h₁.createPages (pagesFrom_apart hheap.wrap) (fun p hp => hheap.lt hp) hexec
      rw [List.nil_append] at hnew
      subst hnew
      rw [pagesFrom, List.length_map, List.length_range] at hlen
      have hneeded : pagesNeededInt (toInt32 size) = pagesNeeded size := by
        refine pagesNeededInt_toInt32 hpages hsize ?_
        obtain ⟨hlo, hhi⟩ := hheap
        simp only [userHeapStart, userHeapMax] at hlo hhi
        omega
      refine ⟨h₂, .inr ⟨_, ⟨rfl, fun x hx hmatch => ?_, rfl, rfl, rfl, rfl, ⟨hneeded, hpages⟩, hlen, hnodup, hall.of_page hpage₁,
        fun f hf d va' hm => hfresh f hf d va' ?_⟩, rfl⟩⟩
      · have hnot := List.find?_eq_none.mp hfind x hx
        simp only [Share.Matches, decide_eq_true_eq] at hnot
        exact hnot hmatch
      · unfold Paging.Maps
        rw [hpage₁]
        exact hm

/-- What `get_shared_object` did when it found the object `shr₀`: its references are counted, and its frames are mapped. -/
structure Got (s s' : Sharing E) (e : E) (ownerID : Int) (name : CString) (va : Nat) (pre : List Share) (shr₀ : Share)
    (post : List Share) : Prop where
  before : s.sharesList = pre ++ shr₀ :: post
  after : s'.sharesList = pre ++ { shr₀ with references := u32 (shr₀.references + 1) } :: post
  owner : shr₀.ownerID = ownerID
  name : shr₀.nameString = name
  maps : Paging.MapsAll s.mem.run.paging s'.mem.run.paging e
    (if shr₀.isWritable ≠ 0 then permUser ||| permWriteable else permUser)
    (shr₀.framesStorage.zip (pagesFrom va (pagesNeededInt shr₀.size)))

/-- `get_shared_object` changes nothing, or maps the frames of an object, each of which has a mapping that the loop
    leaves alone. -/
theorem getSharedObject_cases (h : s.mem.run.WalkInv all boot)
    (hobject : ∀ shr ∈ s.sharesList, shr.ownerID = ownerID → shr.nameString = name → InHeap va (pagesNeededInt shr.size) ∧
      shr.framesStorage.length = pagesNeededInt shr.size ∧ shr.framesStorage.Nodup ∧
      ∀ f ∈ shr.framesStorage, (holders s.mem.run.hold f).ncard < 65535 ∧ ∃ d va', s.mem.run.paging.Maps d va' f ∧
        ∀ y ∈ shr.framesStorage.zip (pagesFrom va (pagesNeededInt shr.size)), d = e → Paging.SamePage va' y.2 → y.1 = f)
    (hs : s.getSharedObject e ownerID name va = some (s', res)) : s'.mem.run.WalkInv all boot ∧
      (s' = s ∧ res = .notExists ∨ ∃ pre shr₀ post, Got s s' e ownerID name va pre shr₀ post ∧ res = .id shr₀.id) := by
  unfold getSharedObject at hs
  split at hs
  · cases hs
    exact ⟨h, .inl ⟨rfl, rfl⟩⟩
  · rename_i shr l htake
    obtain ⟨pre, shr₀, post, hbefore, rfl, howner, hname, rfl⟩ := takeReference_eq_some htake
    simp only [Option.ite_none_right_eq_some] at hs
    obtain ⟨hle, hs⟩ := hs
    obtain ⟨r, hexec, heq⟩ := Option.map_eq_some_iff.mp hs
    cases heq
    have hmem : shr₀ ∈ s.sharesList := by
      rw [hbefore]
      exact List.mem_append_right _ (List.mem_cons_self ..)
    obtain ⟨hheap, hlen, hnodup, hframes⟩ := hobject shr₀ hmem howner hname
    have hlength : (pagesFrom va (pagesNeededInt shr₀.size)).length = pagesNeededInt shr₀.size := by
      rw [pagesFrom, List.length_map, List.length_range]
    have hsnd : (shr₀.framesStorage.zip (pagesFrom va (pagesNeededInt shr₀.size))).map Prod.snd =
        pagesFrom va (pagesNeededInt shr₀.size) := List.map_snd_zip (by omega)
    have hfst : (shr₀.framesStorage.zip (pagesFrom va (pagesNeededInt shr₀.size))).map Prod.fst = shr₀.framesStorage :=
      List.map_fst_zip (by omega)
    have hperm : (if shr₀.isWritable ≠ 0 then permUser ||| permWriteable else permUser) &&& permBuffered = 0 := by
      split <;> decide
    obtain ⟨h', hall, -⟩ := h.getPages (by rw [hsnd]; exact pagesFrom_apart hheap.wrap)
      (fun x hx => hheap.lt (List.of_mem_zip hx).2) (by rw [hfst]; exact hnodup)
      (fun x hx => (hframes x.1 (List.of_mem_zip hx).1).2) (fun x hx => (hframes x.1 (List.of_mem_zip hx).1).1) hperm hexec
    exact ⟨h', .inr ⟨pre, shr₀, post, ⟨hbefore, rfl, howner, hname, hall⟩, rfl⟩⟩

end Sharing

/-! ### An object of two processes -/

namespace ShareRun

/-- The frames of the listed objects are mapped by `e` at the two pages from `va`. -/
def MappedBy (s : ShareRun Bool) (e : Bool) (va : Nat) : Prop :=
  ∀ shr ∈ s.sharing.sharesList, ∀ f ∈ shr.framesStorage, ∃ p ∈ [va, va + 4096], s.sharing.mem.run.paging.Maps e p f

/-- The two pages are looked up for each frame. -/
theorem mappedBy_iff {s : ShareRun Bool} {e : Bool} {va : Nat} : (s.sharing.sharesList.all fun shr => shr.framesStorage.all fun f =>
      [va, va + 4096].any fun p => (s.sharing.mem.run.paging.page e p).present ∧ (s.sharing.mem.run.paging.page e p).frame = f) = true ↔
    s.MappedBy e va := by
  simp only [List.all_eq_true, List.any_eq_true, decide_eq_true_eq]
  rfl

instance instDecidableMappedBy (s : ShareRun Bool) (e : Bool) (va : Nat) : Decidable (s.MappedBy e va) :=
  decidable_of_iff _ mappedBy_iff

/-- The field is the number of mappings. -/
theorem MappedBy.ncard {all : List PageNo} {boot : PageNo → Nat} {s : ShareRun Bool} {d : Bool} {va : Nat} (h : s.MappedBy d va)
    (hwalk : s.sharing.mem.run.WalkInv all boot) {shr : Share} (hshr : shr ∈ s.sharing.sharesList) {f : PageNo} (hf : f ∈ shr.framesStorage) :
    (holders s.sharing.mem.run.hold f).ncard = s.sharing.mem.run.paging.heap.mem.references f := by
  obtain ⟨p, -, hmaps⟩ := h shr hshr f hf
  obtain ⟨x, hx⟩ := hmaps.hold
  obtain ⟨⟨tables, hi⟩, -⟩ := hwalk
  obtain ⟨F, ha⟩ := hi.accounts
  exact (ha.references f (ha.held _ f hx)).symm

/-- The `n` pages from `va` are marked and not mapped yet. -/
def Reserved (s : ShareRun Bool) (e : Bool) (va n : Nat) : Prop :=
  ∀ p ∈ pagesFrom va n, (s.sharing.mem.run.paging.page e p).perm &&& permUhpage ≠ 0 ∧
    (s.sharing.mem.run.paging.page e p).present = false

instance instDecidableReserved (s : ShareRun Bool) (e : Bool) (va n : Nat) : Decidable (s.Reserved e va n) :=
  inferInstanceAs (Decidable (∀ p ∈ pagesFrom va n, _ ∧ _))

/-- A process creates an object of two pages, and another process gets it. -/
structure SharedByTwo (r₀ : PagingRun Bool) (s₁ s₂ s₃ s₄ : ShareRun Bool) : Prop where
  boot : PagingRun.afterBoot Bool 1024 768 = some r₀
  allocate₁ : (start { run := r₀, disk := {} }).step (.allocateUserMem false 2147483648 8192) = some s₁
  create : s₁.step (.createSharedObject false 1 [97] 8192 0 2147483648) = some s₂
  allocate₂ : s₂.step (.allocateUserMem true 2147491840 8192) = some s₃
  get : s₃.step (.getSharedObject true 1 [97] 2147491840) = some s₄
  unmapped₁ : ∀ p ∈ pagesOf 2147483648 8192, (r₀.paging.page false p).present = false
  none₁ : s₁.sharing.sharesList = []
  reserved₁ : s₁.Reserved false 2147483648 2
  unmapped₂ : ∀ p ∈ pagesOf 2147491840 8192, (s₂.sharing.mem.run.paging.page true p).present = false
  size : ∀ shr ∈ s₃.sharing.sharesList, pagesNeededInt shr.size = 2
  reserved₃ : s₃.Reserved true 2147491840 2
  creator : s₃.MappedBy false 2147483648
  few : ∀ shr ∈ s₃.sharing.sharesList, ∀ f ∈ shr.framesStorage, s₃.sharing.mem.run.paging.heap.mem.references f < 65535
  getter : s₄.MappedBy true 2147491840
  noElement : ∀ p ∈ pagesOf 2147483648 8192, (s₄.sharing.mem.ws false).find p = none
  frames : s₄.sharing.sharesList.map (·.framesStorage.length) = [2]
  uses : s₄.uses.length = 2

theorem sharedByTwo : ∃ r₀ s₁ s₂ s₃ s₄ s, SharedByTwo r₀ s₁ s₂ s₃ s₄ ∧ s₄.step (.freeUserMem false 2147483648 8192) = some s ∧
    s.sharing.sharesList.map (·.framesStorage.length) = [2] ∧ s.sharing.mem.run.allocateFrame.isSome := by
  have hrun : ((PagingRun.afterBoot Bool 1024 768).bind fun r₀ =>
      ((start { run := r₀, disk := {} }).step (.allocateUserMem false 2147483648 8192)).bind fun s₁ =>
        (s₁.step (.createSharedObject false 1 [97] 8192 0 2147483648)).bind fun s₂ =>
          (s₂.step (.allocateUserMem true 2147491840 8192)).bind fun s₃ =>
            (s₃.step (.getSharedObject true 1 [97] 2147491840)).bind fun s₄ =>
              if (∀ p ∈ pagesOf 2147483648 8192, (r₀.paging.page false p).present = false) ∧ s₁.sharing.sharesList.length = 0 ∧
                s₁.Reserved false 2147483648 2 ∧
                (∀ p ∈ pagesOf 2147491840 8192, (s₂.sharing.mem.run.paging.page true p).present = false) ∧
                (∀ shr ∈ s₃.sharing.sharesList, pagesNeededInt shr.size = 2) ∧ s₃.Reserved true 2147491840 2 ∧
                s₃.MappedBy false 2147483648 ∧ (s₃.sharing.sharesList.all fun shr => shr.framesStorage.all fun f =>
                  s₃.sharing.mem.run.paging.heap.mem.references f < 65535) ∧ s₄.MappedBy true 2147491840 ∧
                (∀ p ∈ pagesOf 2147483648 8192, (s₄.sharing.mem.ws false).find p = none) ∧
                s₄.sharing.sharesList.map (·.framesStorage.length) = [2] ∧ s₄.uses.length = 2
              then (s₄.step (.freeUserMem false 2147483648 8192)).map fun s =>
                (s.sharing.sharesList.map (·.framesStorage.length), s.sharing.mem.run.allocateFrame.isSome)
              else none) = some ([2], true) := by
    rw [PagingRun.afterBoot_eq]
    decide +kernel
  obtain ⟨r₀, hboot, hrun⟩ := Option.bind_eq_some_iff.mp hrun
  obtain ⟨s₁, hs₁, hrun⟩ := Option.bind_eq_some_iff.mp hrun
  obtain ⟨s₂, hs₂, hrun⟩ := Option.bind_eq_some_iff.mp hrun
  obtain ⟨s₃, hs₃, hrun⟩ := Option.bind_eq_some_iff.mp hrun
  obtain ⟨s₄, hs₄, hrun⟩ := Option.bind_eq_some_iff.mp hrun
  obtain ⟨hfacts, hrun⟩ := Option.ite_none_right_eq_some.mp hrun
  obtain ⟨s, hs, hleft⟩ := Option.map_eq_some_iff.mp hrun
  obtain ⟨hlength, hsome⟩ := Prod.mk.injEq _ _ _ _ ▸ hleft
  obtain ⟨hunmapped₁, hnone, hreserved₁, hunmapped₂, hsize, hreserved₃, hcreator, hfew, hgetter, hws, hframes, huses⟩ := hfacts
  simp only [List.all_eq_true, decide_eq_true_eq] at hfew
  exact ⟨r₀, s₁, s₂, s₃, s₄, s, ⟨hboot, hs₁, hs₂, hs₃, hs₄, hunmapped₁, List.eq_nil_of_length_eq_zero hnone, hreserved₁, hunmapped₂,
    hsize, hreserved₃, hcreator, hfew, hgetter, hws, hframes, huses⟩, hs, hlength, hsome⟩

end ShareRun

end Fos.Mem
