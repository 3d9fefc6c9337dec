import Fos.Mem.ShareInv

/-! All participants of a shared object see the same frames, as long as no two calls target the same page. -/

namespace Fos.Mem
open Lib Heap Frames

/-- What an object is found by. -/
def Share.key (shr : Share) : Int × CString := (shr.ownerID, shr.nameString)

/-- The object of a call. -/
def Use.key {E : Type} (u : Use E) : Int × CString := (u.ownerID, u.name)

namespace ShareRun

variable {E : Type} [DecidableEq E]

/-- The entry of a page of an environment. -/
def page (s : ShareRun E) (e : E) (va : Nat) : Pte := s.sharing.mem.run.paging.page e va

/-- The `n` pages from `va` are in the user heap and marked. -/
def Marked (s : ShareRun E) (e : E) (va n : Nat) : Prop :=
  Sharing.InHeap va n ∧ ∀ p ∈ pagesFrom va n, (s.page e p).perm &&& permUhpage ≠ 0

/-- The `n` pages from `va` are in the user heap, marked, and not mapped yet. -/
def Target (s : ShareRun E) (e : E) (va n : Nat) : Prop :=
  Sharing.InHeap va n ∧ ∀ p ∈ pagesFrom va n, (s.page e p).perm &&& permUhpage ≠ 0 ∧ (s.page e p).present = false

/-- The steps that are considered: regions of the user heap are marked while they are not mapped and not freed, names have
    fewer than 64 characters, the pages of a call are as `target` says, and no frame gets 65536 mappings. -/
def AgreeAllowed (target : ShareRun E → E → Nat → Nat → Prop) (s : ShareRun E) : ShareEvent E → Prop
  | .allocateUserMem e va size => userHeapStart ≤ va ∧ va + size < userHeapMax ∧
      ∀ p ∈ pagesOf va size, (s.page e p).present = false
  | .createSharedObject e _ name size _ va => size < 4294967296 ∧ name.length < 64 ∧ 0 ∉ name ∧ target s e va (pagesNeeded size)
  | .getSharedObject e ownerID name va => ∀ shr ∈ s.sharing.sharesList, shr.key = (ownerID, name) →
      target s e va (pagesNeededInt shr.size) ∧ ∀ f ∈ shr.framesStorage, (holders s.sharing.mem.run.hold f).ncard + 1 < 65536
  | .freeUserMem .. => False

/-- The successful `get_shared_object` calls for the object of a key. -/
def gets (uses : List (Use E)) (key : Int × CString) : List (Use E) := uses.filter fun u => u.creator = false ∧ u.key = key

/-- The agreement: every page of an object is mapped to the object's frame wherever the object was created or gotten,
    with the permissions of the call, and the references are counted. -/
structure Agrees (s : ShareRun E) : Prop where
  frames : ∀ shr ∈ s.sharing.sharesList, shr.framesStorage.length = pagesNeededInt shr.size
  mapped : ∀ shr ∈ s.sharing.sharesList, ∀ u ∈ s.uses, u.key = shr.key → ∀ i f, shr.framesStorage[i]? = some f →
    SharedEntry (s.page u.env (u.va + i * 4096)) f (u.creator = true ∨ shr.isWritable ≠ 0)
  references : ∀ shr ∈ s.sharing.sharesList, shr.references = 1 + (gets s.uses shr.key).length

/-- The invariant of the runs. -/
structure AgreeInv (all : List PageNo) (boot : PageNo → Nat) (s : ShareRun E) : Prop extends Agrees s where
  walk : s.sharing.mem.run.WalkInv all boot
  distinct : (s.sharing.sharesList.map Share.key).Nodup
  named : ∀ shr ∈ s.sharing.sharesList, ∃ name : CString, name.length < 64 ∧ 0 ∉ name ∧ shr.name = Share.strncpy64 name
  storage : ∀ shr ∈ s.sharing.sharesList, shr.framesStorage.Nodup ∧ shr.framesStorage ≠ []
  created : ∀ shr ∈ s.sharing.sharesList, ∃ u ∈ s.uses, u.creator = true ∧ u.key = shr.key
  listed : ∀ u ∈ s.uses, ∃ shr ∈ s.sharing.sharesList, u.key = shr.key
  apart : s.uses.Pairwise fun u v => ¬ (u.env = v.env ∧ Paging.SamePage u.va v.va)

variable {all : List PageNo} {boot : PageNo → Nat} {s t : ShareRun E} {e : E} {va : Nat}

omit [DecidableEq E] in
theorem gets_cons_of_neg {uses : List (Use E)} {u : Use E} {key : Int × CString} (h : ¬ (u.creator = false ∧ u.key = key)) :
    gets (u :: uses) key = gets uses key := List.filter_cons_of_neg (by simpa using h)

omit [DecidableEq E] in
theorem gets_cons_of_pos {uses : List (Use E)} {u : Use E} {key : Int × CString} (h : u.creator = false ∧ u.key = key) :
    gets (u :: uses) key = u :: gets uses key := List.filter_cons_of_pos (by simpa using h)

omit [DecidableEq E] in
theorem gets_eq_nil {uses : List (Use E)} {key : Int × CString} (h : ∀ u ∈ uses, u.key ≠ key) : gets uses key = [] :=
  List.filter_eq_nil_iff.mpr fun u hu hget => h u hu (of_decide_eq_true hget).2

omit [DecidableEq E] in
/-- A use has its first page mapped. -/
theorem AgreeInv.use_maps (h : AgreeInv all boot s) {u : Use E} (hu : u ∈ s.uses) : (s.page u.env u.va).present = true := by
  obtain ⟨shr, hshr, hkey⟩ := h.listed u hu
  obtain ⟨f, l, hl⟩ := List.exists_cons_of_ne_nil (h.storage shr hshr).2
  have hentry := h.mapped shr hshr u hu hkey 0 f (by simp [hl])
  rw [Nat.zero_mul, Nat.add_zero] at hentry
  exact hentry.present

omit [DecidableEq E] in
/-- The uses of an object are as many mappings of its frames. -/
theorem AgreeInv.uses_le (h : AgreeInv all boot s) {shr : Share} (hshr : shr ∈ s.sharing.sharesList) :
    (s.uses.filter (·.key = shr.key)).length < 65536 := by
  obtain ⟨f, l, hl⟩ := List.exists_cons_of_ne_nil (h.storage shr hshr).2
  obtain ⟨⟨tables, hi⟩, hlinked⟩ := h.walk
  have hslot : ∀ u ∈ s.uses.filter (·.key = shr.key), ∃ x, s.sharing.mem.run.paging.pde u.env (pdx u.va) = some x ∧
      s.sharing.mem.run.hold (.user x (ptx u.va)) = some f := by
    intro u hu
    obtain ⟨hu, hkey⟩ := List.mem_filter.mp hu
    have hentry := h.mapped shr hshr u hu (of_decide_eq_true hkey) 0 f (by simp [hl])
    rw [Nat.zero_mul, Nat.add_zero] at hentry
    cases hx : s.sharing.mem.run.paging.pde u.env (pdx u.va) with
    | none =>
      have hpage : s.page u.env u.va = {} := Paging.page_of_none hx
      rw [hpage] at hentry
      exact absurd hentry.present (by decide)
    | some x =>
      have hpage : s.page u.env u.va = s.sharing.mem.run.paging.heap.mem.pte (.user x (ptx u.va)) := Paging.page_of_some hx
      rw [hpage] at hentry
      exact ⟨x, rfl, hold_eq_some.mpr ⟨hentry.present, hentry.frame⟩⟩
  let slot : Use E → Slot := fun u => .user ((s.sharing.mem.run.paging.pde u.env (pdx u.va)).getD 0) (ptx u.va)
  have hsub : ∀ c ∈ (s.uses.filter (·.key = shr.key)).map slot, c ∈ holders s.sharing.mem.run.hold f := by
    intro c hc
    obtain ⟨u, hu, rfl⟩ := List.mem_map.mp hc
    obtain ⟨x, hx, hhold⟩ := hslot u hu
    rw [mem_holders]
    simp only [slot, hx, Option.getD_some, hhold]
  have hnodup : ((s.uses.filter (·.key = shr.key)).map slot).Nodup := by
    refine List.Pairwise.map _ (fun u v huv => huv) (List.Pairwise.imp_of_mem ?_ (h.apart.filter _))
    intro u v hu hv hne heq
    obtain ⟨x, hx, -⟩ := hslot u hu
    obtain ⟨y, hy, -⟩ := hslot v hv
    simp only [slot, hx, hy, Option.getD_some, Slot.user.injEq] at heq
    obtain ⟨rfl, hptx⟩ := heq
    obtain ⟨henv, hpdx⟩ := hlinked.unique _ _ _ _ x hx hy
    exact hne ⟨henv, hpdx, hptx⟩
  calc (s.uses.filter (·.key = shr.key)).length
      = ((s.uses.filter (·.key = shr.key)).map slot).toFinset.card := by rw [List.toFinset_card_of_nodup hnodup, List.length_map]
    _ = (((s.uses.filter (·.key = shr.key)).map slot).toFinset : Set Slot).ncard := (Set.ncard_coe_finset _).symm
    _ ≤ (holders s.sharing.mem.run.hold f).ncard := Set.ncard_le_ncard fun c hc => hsub c (List.mem_toFinset.mp hc)
    _ < 65536 := hi.few f

omit [DecidableEq E] in
/-- The counter does not wrap. -/
theorem AgreeInv.references_lt (h : AgreeInv all boot s) {shr : Share} (hshr : shr ∈ s.sharing.sharesList) :
    shr.references + 1 < 4294967296 := by
  have hgets : (gets s.uses shr.key).length ≤ (s.uses.filter (·.key = shr.key)).length := by
    refine List.Sublist.length_le (List.monotone_filter_right _ fun u hu => ?_)
    have := of_decide_eq_true hu
    exact decide_eq_true this.2
  have hlt := h.uses_le hshr
  have hrefs := h.references shr hshr
  omega

/-! ### The steps -/

omit [DecidableEq E] in
/-- Pages that are mapped are as before. -/
theorem Agrees.mapped_kept (h : Agrees s) (hkept : ∀ d va, (s.page d va).present = true → t.page d va = s.page d va) {shr : Share}
    (hshr : shr ∈ s.sharing.sharesList) {u : Use E} (hu : u ∈ s.uses) (hkey : u.key = shr.key) {i : Nat} {f : PageNo}
    (hf : shr.framesStorage[i]? = some f) :
    SharedEntry (t.page u.env (u.va + i * 4096)) f (u.creator = true ∨ shr.isWritable ≠ 0) := by
  have hentry := h.mapped shr hshr u hu hkey i f hf
  rwa [hkept _ _ hentry.present]

omit [DecidableEq E] in
/-- A page that is mapped is none of an unmapped target. -/
theorem not_samePage_of_present {ps : List Nat} {d : E} {va' : Nat} (hps : ∀ p ∈ ps, (s.page e p).present = false)
    (hpresent : (s.page d va').present = true) : ∀ p ∈ ps, ¬ (d = e ∧ Paging.SamePage va' p) := by
  rintro p hp ⟨rfl, hsame⟩
  have hpage : s.page d va' = s.page d p := Paging.page_samePage hsame d
  rw [hpage, hps p hp] at hpresent
  exact nomatch hpresent

theorem AgreeInv.allocateUserMem {size : Nat} (h : AgreeInv all boot s)
    (hunmapped : ∀ p ∈ pagesOf va size, (s.page e p).present = false) (hs : s.step (.allocateUserMem e va size) = some t) :
    AgreeInv all boot t := by
  obtain ⟨m, hm, rfl⟩ := Option.map_eq_some_iff.mp hs
  obtain ⟨hwalk, -, hothers⟩ := UserMem.allocateUserMem_spec h.walk hunmapped hm
  refine { h with
    walk := hwalk
    mapped := fun shr hshr u hu hkey i f hf => h.mapped_kept (fun d va' hpresent => ?_) hshr hu hkey hf }
  exact hothers d va' (not_samePage_of_present hunmapped hpresent)

omit [DecidableEq E] in
/-- The entries of the pages of a target after a call. -/
theorem sharedEntry_of_mapsAll {p' : Paging E} {perm : BitVec 12} {frames : List PageNo} {n i : Nat} {f : PageNo}
    (htarget : s.Target e va n) (hlen : frames.length = n) (huser : perm &&& permUser ≠ 0)
    (hall : Paging.MapsAll s.sharing.mem.run.paging p' e perm (frames.zip (pagesFrom va n))) (hf : frames[i]? = some f) :
    SharedEntry (p'.page e (va + i * 4096)) f (perm &&& permWriteable ≠ 0) := by
  obtain ⟨hi, -⟩ := List.getElem?_eq_some_iff.mp hf
  have hwrap := htarget.1.wrap
  have hp : (pagesFrom va n)[i]? = some (va + i * 4096) := by
    have hu32 : u32 (va + i * pageSize) = va + i * 4096 := u32_of_lt (by simp only [pageSize]; omega)
    simp [pagesFrom, List.getElem?_range (show i < n by omega), hu32]
  have hmem : (f, va + i * 4096) ∈ frames.zip (pagesFrom va n) :=
    List.mem_of_getElem? (List.getElem?_zip_eq_some.mpr ⟨hf, hp⟩)
  obtain ⟨hmarked, hpresent⟩ := htarget.2 _ (List.mem_of_getElem? hp)
  rw [hall.self _ hmem]
  exact sharedEntry_mappedPte hpresent hmarked huser

omit [DecidableEq E] in
/-- A target is mapped and pages that were mapped stay. -/
theorem kept_of_mapsAll {t : ShareRun E} {perm : BitVec 12} {frames : List PageNo} {n : Nat} (htarget : s.Target e va n)
    (hall : Paging.MapsAll s.sharing.mem.run.paging t.sharing.mem.run.paging e perm (frames.zip (pagesFrom va n)))
    (d : E) (va' : Nat) (hpresent : (s.page d va').present = true) : t.page d va' = s.page d va' :=
  hall.others d va' fun x hx =>
    not_samePage_of_present (fun p hp => (htarget.2 p hp).2) hpresent x.2 (List.of_mem_zip hx).2

omit [DecidableEq E] in
/-- The first page of a new use is not that of an earlier one. -/
theorem AgreeInv.apart_cons (h : AgreeInv all boot s) {n : Nat} (htarget : s.Target e va n) (hn : n ≠ 0) {u : Use E}
    (henv : u.env = e) (hva : u.va = va) : (u :: s.uses).Pairwise fun u v => ¬ (u.env = v.env ∧ Paging.SamePage u.va v.va) := by
  refine List.pairwise_cons.mpr ⟨fun v hv hsame => ?_, h.apart⟩
  have hfirst := (htarget.2 va ((mem_pagesFrom htarget.1.wrap).mpr ⟨0, Nat.pos_of_ne_zero hn, by omega⟩)).2
  rw [henv, hva] at hsame
  have hpage : s.page e va = s.page v.env v.va := hsame.1 ▸ Paging.page_samePage hsame.2 e
  rw [hpage, h.use_maps hv] at hfirst
  exact nomatch hfirst

omit [DecidableEq E] in
/-- An object is created. -/
theorem AgreeInv.create {ownerID : Int} {name : CString} {size : Nat} {isWritable : UInt8} {shr : Share} (h : AgreeInv all boot s)
    (hwalk : t.sharing.mem.run.WalkInv all boot) (hlen : name.length < 64) (hzero : 0 ∉ name)
    (htarget : s.Target e va (pagesNeeded size)) (hcreated : s.sharing.Created t.sharing e ownerID name size isWritable va shr)
    (huses : t.uses = ⟨e, ownerID, name, va, true⟩ :: s.uses) : AgreeInv all boot t := by
  -- The new object is found by its owner and its name, and no other object is.
  have hkey : shr.key = (ownerID, name) := by
    rw [Share.key, hcreated.owner, Share.nameString_eq hlen hzero hcreated.name]
  have hother : ∀ x ∈ s.sharing.sharesList, x.key ≠ shr.key := by
    intro x hx heq
    rw [hkey] at heq
    exact hcreated.absent x hx ⟨congrArg Prod.fst heq, congrArg Prod.snd heq⟩
  have hunused : ∀ u ∈ s.uses, u.key ≠ shr.key := by
    intro u hu heq
    obtain ⟨x, hx, hkey⟩ := h.listed u hu
    exact hother x hx (hkey.symm.trans heq)
  have huse : (⟨e, ownerID, name, va, true⟩ : Use E).key = shr.key := hkey.symm
  refine ⟨⟨?_, ?_, ?_⟩, hwalk, ?_, ?_, ?_, ?_, ?_, ?_⟩ <;> simp only [huses, hcreated.list, List.forall_mem_cons, List.map_cons]
  · exact ⟨hcreated.length.trans hcreated.needed.1.symm, h.frames⟩
  · refine ⟨⟨fun _ i f hf => ?_, fun u hu heq => absurd heq (hunused u hu)⟩, fun x hx => ⟨fun heq => ?_, fun u hu heq i f hf => ?_⟩⟩
    · have hentry := sharedEntry_of_mapsAll htarget hcreated.length (by decide) hcreated.maps hf
      exact { hentry with writeable := hentry.writeable.trans (iff_of_true (by decide) (.inl trivial)) }
    · exact absurd (heq.symm.trans huse) (hother x hx)
    · exact h.mapped_kept (fun d va' => kept_of_mapsAll htarget hcreated.maps d va') hx hu heq hf
  · refine ⟨?_, fun x hx => ?_⟩
    · rw [hcreated.references, gets_cons_of_neg (by simp), gets_eq_nil hunused]
      rfl
    · rw [gets_cons_of_neg (by simp)]
      exact h.references x hx
  · refine List.nodup_cons.mpr ⟨fun hmem => ?_, h.distinct⟩
    obtain ⟨x, hx, heq⟩ := List.mem_map.mp hmem
    exact hother x hx heq
  · exact ⟨⟨name, hlen, hzero, hcreated.name⟩, h.named⟩
  · refine ⟨⟨hcreated.nodup, fun hnil => hcreated.needed.2 ?_⟩, h.storage⟩
    rw [← hcreated.length, hnil]
    rfl
  · refine ⟨⟨_, List.mem_cons_self .., rfl, huse⟩, fun x hx => ?_⟩
    obtain ⟨u, hu, hcreator, heq⟩ := h.created x hx
    exact ⟨u, List.mem_cons_of_mem _ hu, hcreator, heq⟩
  · refine ⟨⟨_, List.mem_cons_self .., huse⟩, fun u hu => ?_⟩
    obtain ⟨x, hx, heq⟩ := h.listed u hu
    exact ⟨x, List.mem_cons_of_mem _ hx, heq⟩
  · exact h.apart_cons htarget hcreated.needed.2 rfl rfl

omit [DecidableEq E] in
/-- An object is gotten. -/
theorem AgreeInv.get {ownerID : Int} {name : CString} {pre post : List Share} {shr₀ : Share} (h : AgreeInv all boot s)
    (hwalk : t.sharing.mem.run.WalkInv all boot) (htarget : s.Target e va (pagesNeededInt shr₀.size))
    (hgot : s.sharing.Got t.sharing e ownerID name va pre shr₀ post)
    (huses : t.uses = ⟨e, ownerID, name, va, false⟩ :: s.uses) : AgreeInv all boot t := by
  have hmem : shr₀ ∈ s.sharing.sharesList := by
    rw [hgot.before]
    exact List.mem_append_right _ (List.mem_cons_self ..)
  obtain ⟨name₀, hlen, hzero, hname₀⟩ := h.named shr₀ hmem
  -- The object keeps its key, and no other object has it.
  have hsame : Share.key { shr₀ with references := u32 (shr₀.references + 1) } = shr₀.key := by
    have hnew : Share.nameString { shr₀ with references := u32 (shr₀.references + 1) } = name₀ :=
      Share.nameString_eq hlen hzero hname₀
    rw [Share.key, Share.key, hnew, Share.nameString_eq hlen hzero hname₀]
  have huse : (⟨e, ownerID, name, va, false⟩ : Use E).key = shr₀.key := by
    rw [Use.key, Share.key, hgot.owner, hgot.name]
  have hdistinct := h.distinct
  rw [hgot.before, List.map_append, List.map_cons] at hdistinct
  have hother : ∀ x ∈ pre ++ post, x.key ≠ shr₀.key := by
    intro x hx heq
    have hnot := (List.nodup_middle.mp hdistinct).notMem
    rw [← List.map_append] at hnot
    exact hnot (heq ▸ List.mem_map_of_mem hx)
  have hin : ∀ {x}, x ∈ t.sharing.sharesList →
      x = { shr₀ with references := u32 (shr₀.references + 1) } ∨ x ∈ s.sharing.sharesList ∧ x.key ≠ shr₀.key := by
    intro x hx
    rw [hgot.after, List.perm_middle.mem_iff, List.mem_cons] at hx
    refine hx.imp_right fun hx => ⟨?_, hother x hx⟩
    rw [hgot.before, List.perm_middle.mem_iff]
    exact List.mem_cons_of_mem _ hx
  obtain ⟨hnodup, hne⟩ := h.storage shr₀ hmem
  have hframes := h.frames shr₀ hmem
  have hpages : pagesNeededInt shr₀.size ≠ 0 := by
    rw [← hframes]
    exact fun hz => hne (List.length_eq_zero_iff.mp hz)
  have hkept := fun d va' => kept_of_mapsAll htarget hgot.maps d va'
  have hinside : ∀ x ∈ s.sharing.sharesList, ∃ y ∈ t.sharing.sharesList, y.key = x.key := by
    intro x hx
    rw [hgot.before, List.perm_middle.mem_iff, List.mem_cons] at hx
    rw [hgot.after]
    rcases hx with rfl | hx
    · exact ⟨_, List.mem_append_right _ (List.mem_cons_self ..), hsame⟩
    · exact ⟨x, List.perm_middle.mem_iff.mpr (List.mem_cons_of_mem _ hx), rfl⟩
  refine ⟨⟨fun x hx => ?_, fun x hx => ?_, fun x hx => ?_⟩, hwalk, ?_, fun x hx => ?_, fun x hx => ?_, fun x hx => ?_, ?_, ?_⟩
  · rcases hin hx with rfl | ⟨hx, -⟩
    · exact hframes
    · exact h.frames x hx
  · rw [huses, List.forall_mem_cons]
    rcases hin hx with rfl | ⟨hx, hkey⟩
    · rw [hsame]
      refine ⟨fun _ i f hf => ?_, fun u hu heq i f hf => h.mapped_kept hkept hmem hu heq hf⟩
      have hentry := sharedEntry_of_mapsAll htarget hframes (by split <;> decide) hgot.maps hf
      refine { hentry with writeable := hentry.writeable.trans ?_ }
      by_cases hw : shr₀.isWritable = 0
      · simpa [hw] using show permUser &&& permWriteable = 0 by decide
      · simpa [hw] using show (permUser ||| permWriteable) &&& permWriteable ≠ 0 by decide
    · exact ⟨fun heq => absurd (heq.symm.trans huse) hkey, fun u hu heq i f hf => h.mapped_kept hkept hx hu heq hf⟩
  · rw [huses]
    rcases hin hx with rfl | ⟨hx, hkey⟩
    · rw [hsame, gets_cons_of_pos ⟨rfl, huse⟩, List.length_cons]
      have hrefs := h.references shr₀ hmem
      have hlt := h.references_lt hmem
      show u32 (shr₀.references + 1) = _
      rw [u32_of_lt hlt, hrefs, Nat.add_assoc]
    · rw [gets_cons_of_neg fun hget => hkey (hget.2.symm.trans huse)]
      exact h.references x hx
  · rw [hgot.after, List.map_append, List.map_cons, hsame]
    exact hdistinct
  · rcases hin hx with rfl | ⟨hx, -⟩
    · exact ⟨name₀, hlen, hzero, hname₀⟩
    · exact h.named x hx
  · rcases hin hx with rfl | ⟨hx, -⟩
    · exact ⟨hnodup, hne⟩
    · exact h.storage x hx
  · rw [huses]
    have hold : ∃ u ∈ s.uses, u.creator = true ∧ u.key = x.key := by
      rcases hin hx with rfl | ⟨hx, -⟩
      · rw [hsame]
        exact h.created shr₀ hmem
      · exact h.created x hx
    obtain ⟨u, hu, hcreator, heq⟩ := hold
    exact ⟨u, List.mem_cons_of_mem _ hu, hcreator, heq⟩
  · rw [huses, List.forall_mem_cons]
    refine ⟨?_, fun u hu => ?_⟩
    · obtain ⟨y, hy, heq⟩ := hinside shr₀ hmem
      exact ⟨y, hy, huse.trans heq.symm⟩
    · obtain ⟨x, hx, heq⟩ := h.listed u hu
      obtain ⟨y, hy, heq'⟩ := hinside x hx
      exact ⟨y, hy, heq.trans heq'.symm⟩
  · rw [huses]
    exact h.apart_cons htarget hpages rfl rfl

theorem AgreeInv.step {ev : ShareEvent E} (h : AgreeInv all boot s) (hallowed : s.AgreeAllowed Target ev) (hs : s.step ev = some t) :
    AgreeInv all boot t := by
  cases ev with
  | allocateUserMem e va size => exact h.allocateUserMem hallowed.2.2 hs
  | createSharedObject e ownerID name size isWritable va =>
    obtain ⟨hsize, hlen, hzero, htarget⟩ := hallowed
    obtain ⟨⟨s', res⟩, hs', rfl⟩ := Option.map_eq_some_iff.mp hs
    obtain ⟨hwalk, ⟨hlist, hpage, hres⟩ | ⟨shr, hcreated, rfl⟩⟩ := Sharing.createSharedObject_cases h.walk hsize htarget.1 hs'
    · have huses : (s.record ⟨e, ownerID, name, va, true⟩ (s', res)).uses = s.uses := by
        rcases hres with rfl | rfl <;> rfl
      have hlist : (s.record ⟨e, ownerID, name, va, true⟩ (s', res)).sharing.sharesList = s.sharing.sharesList := hlist
      have hpage : ∀ d va', (s.record ⟨e, ownerID, name, va, true⟩ (s', res)).page d va' = s.page d va' := fun d va' =>
        congrFun (congrFun hpage d) va'
      refine ⟨⟨hlist ▸ h.frames, ?_, ?_⟩, hwalk, hlist ▸ h.distinct, hlist ▸ h.named, hlist ▸ h.storage, ?_, ?_, huses ▸ h.apart⟩
      · simp only [hlist, huses, hpage]
        exact h.mapped
      · simp only [hlist, huses]
        exact h.references
      · simp only [hlist, huses]
        exact h.created
      · simp only [hlist, huses]
        exact h.listed
    · exact h.create hwalk hlen hzero htarget hcreated rfl
  | getSharedObject e ownerID name va =>
    obtain ⟨⟨s', res⟩, hs', rfl⟩ := Option.map_eq_some_iff.mp hs
    have hobject : ∀ shr ∈ s.sharing.sharesList, shr.ownerID = ownerID → shr.nameString = name →
        Sharing.InHeap va (pagesNeededInt shr.size) ∧ shr.framesStorage.length = pagesNeededInt shr.size ∧ shr.framesStorage.Nodup ∧
        ∀ f ∈ shr.framesStorage, (holders s.sharing.mem.run.hold f).ncard < 65535 ∧ ∃ d va', s.sharing.mem.run.paging.Maps d va' f ∧
          ∀ y ∈ shr.framesStorage.zip (pagesFrom va (pagesNeededInt shr.size)), d = e → Paging.SamePage va' y.2 → y.1 = f := by
      intro shr hshr howner hname
      obtain ⟨htarget, hroom⟩ := hallowed shr hshr (by rw [Share.key, howner, hname])
      refine ⟨htarget.1, h.frames shr hshr, (h.storage shr hshr).1, fun f hf => ⟨by have := hroom f hf; omega, ?_⟩⟩
      -- The frame is mapped where the object was created, and that is no page of the target.
      obtain ⟨u, hu, -, hkey⟩ := h.created shr hshr
      obtain ⟨i, hi⟩ := List.mem_iff_getElem?.mp hf
      have hentry := h.mapped shr hshr u hu hkey i f hi
      refine ⟨u.env, u.va + i * 4096, ⟨hentry.present, hentry.frame⟩, fun y hy henv hsame => ?_⟩
      exact absurd ⟨henv, hsame⟩
        (not_samePage_of_present (fun p hp => (htarget.2 p hp).2) hentry.present y.2 (List.of_mem_zip hy).2)
    obtain ⟨hwalk, ⟨rfl, rfl⟩ | ⟨pre, shr₀, post, hgot, rfl⟩⟩ := Sharing.getSharedObject_cases h.walk hobject hs'
    · exact h
    · have hmem : shr₀ ∈ s.sharing.sharesList := by
        rw [hgot.before]
        exact List.mem_append_right _ (List.mem_cons_self ..)
      obtain ⟨htarget, -⟩ := hallowed shr₀ hmem (by rw [Share.key, hgot.owner, hgot.name])
      exact h.get hwalk htarget hgot rfl
  | freeUserMem e va size => exact absurd hallowed id

omit [DecidableEq E] in
theorem agreeInv_start {m : UserMem E} (h : m.run.WalkInv all boot) : AgreeInv all boot (start m) :=
  ⟨⟨nofun, nofun, nofun⟩, h, List.nodup_nil, nofun, nofun, nofun, nofun, List.Pairwise.nil⟩

/-- Whatever the memory did before, all participants of a shared object see the same frames when every call has a target
    region of its own. -/
theorem shares_agree {n k : Nat} {r₀ : PagingRun E} {m : UserMem E} (hmin : 160 ≤ n) (hn : n ≤ 1048576) (hk : 256 ≤ k)
    (hboot : PagingRun.afterBoot E n k = some r₀)
    (hm : Reach PagingRun.tableStep (fun s e => s.TableAllowed e ∧ s.UserFrame e ∧ s.TablePlain e) r₀ m.run)
    (hr : Reach step (AgreeAllowed Target) (start m) s) : Agrees s := by
  have hwalk := PagingRun.WalkInv.reach hmin hn hk hboot hm
  have hinv : AgreeInv (bootFree n k) (bootReferences k) s :=
    hr.invariant (I := AgreeInv _ _) (agreeInv_start hwalk) fun s e t hi hok hs => hi.step hok hs
  exact hinv.toAgrees

/-- A process creates an object, and another one gets it. -/
theorem shares_agree_get : ∃ (r₀ : PagingRun Bool) (s : ShareRun Bool), PagingRun.afterBoot Bool 1024 768 = some r₀ ∧
    exec step (start { run := r₀, disk := {} }) [.allocateUserMem false 2147483648 8192,
      .createSharedObject false 1 [97] 8192 0 2147483648, .allocateUserMem true 2147491840 8192,
      .getSharedObject true 1 [97] 2147491840] = some s ∧ s.uses.length = 2 ∧ Agrees s := by
  obtain ⟨r₀, s₁, s₂, s₃, s, -, h, -⟩ := sharedByTwo
  have hwalk₀ := PagingRun.WalkInv.reach (by decide) (by decide) (by decide) h.boot .init
  have hheap : Sharing.InHeap 2147483648 (pagesNeeded 8192) := by
    unfold Sharing.InHeap
    decide
  have hr₃ : Reach step (AgreeAllowed Target) (start { run := r₀, disk := {} }) s₃ :=
    ((Reach.init.step (.allocateUserMem false 2147483648 8192) ⟨by decide, by decide, h.unmapped₁⟩ h.allocate₁).step
      (.createSharedObject false 1 [97] 8192 0 2147483648) ⟨by decide, by decide, by decide, hheap, h.reserved₁⟩ h.create).step
        (.allocateUserMem true 2147491840 8192) ⟨by decide, by decide, h.unmapped₂⟩ h.allocate₂
  have hwalk : s₃.sharing.mem.run.WalkInv (bootFree 1024 768) (bootReferences 768) :=
    (hr₃.invariant (I := AgreeInv _ _) (agreeInv_start hwalk₀) fun _ _ _ hi hok hs => hi.step hok hs).walk
  have hr : Reach step (AgreeAllowed Target) (start { run := r₀, disk := {} }) s := by
    refine hr₃.step (.getSharedObject true 1 [97] 2147491840) (fun shr hshr _ => ⟨?_, fun f hf => ?_⟩) h.get
    · rw [h.size shr hshr]
      refine ⟨?_, h.reserved₃⟩
      unfold Sharing.InHeap
      decide
    · rw [h.creator.ncard hwalk hshr hf]
      exact Nat.succ_lt_succ (h.few shr hshr f hf)
  exact ⟨r₀, s, h.boot, exec_cons.mpr ⟨s₁, h.allocate₁, exec_cons.mpr ⟨s₂, h.create, exec_cons.mpr ⟨s₃, h.allocate₂,
    exec_cons.mpr ⟨s, h.get, rfl⟩⟩⟩⟩, h.uses, shares_agree (by decide) (by decide) (by decide) h.boot .init hr⟩

/-- Two objects are created at the same marked page: the page has the frame of the second one, and the creator of the
    first one does not have it mapped any more. -/
theorem target_replaced : ∃ (r₀ : PagingRun Unit) (s : ShareRun Unit), PagingRun.afterBoot Unit 1024 768 = some r₀ ∧
    Reach step (AgreeAllowed Marked) (start { run := r₀, disk := {} }) s ∧ ¬ Agrees s := by
  have hrun : ((PagingRun.afterBoot Unit 1024 768).bind fun r₀ =>
      (step (start { run := r₀, disk := {} }) (.allocateUserMem () 2147483648 4096)).bind fun s₁ =>
        (s₁.step (.createSharedObject () 1 [97] 4096 0 2147483648)).bind fun s₂ =>
          (s₂.step (.createSharedObject () 1 [98] 4096 0 2147483648)).map fun s =>
            (((pagesOf 2147483648 4096).all fun p => ((start { run := r₀, disk := {} }).page () p).present = false),
              ((pagesFrom 2147483648 (pagesNeeded 4096)).all fun p => (s₁.page () p).perm &&& permUhpage ≠ 0),
              ((pagesFrom 2147483648 (pagesNeeded 4096)).all fun p => (s₂.page () p).perm &&& permUhpage ≠ 0),
              s.sharing.sharesList.any fun shr => s.uses.any fun u => u.key = shr.key &&
                shr.framesStorage[0]?.any fun f => (s.page u.env u.va).frame ≠ f)) = some (true, true, true, true) := by
    rw [PagingRun.afterBoot_eq]
    decide +kernel
  obtain ⟨r₀, hboot, hrun⟩ := Option.bind_eq_some_iff.mp hrun
  obtain ⟨s₁, hs₁, hrun⟩ := Option.bind_eq_some_iff.mp hrun
  obtain ⟨s₂, hs₂, hrun⟩ := Option.bind_eq_some_iff.mp hrun
  obtain ⟨s, hs, hresult⟩ := Option.map_eq_some_iff.mp hrun
  simp only [Prod.mk.injEq, List.all_eq_true, List.any_eq_true, Bool.and_eq_true, Option.any_eq_true, decide_eq_true_eq] at hresult
  obtain ⟨hunmapped, hmarked₁, hmarked₂, shr, hshr, u, hu, hkey, f, hf, hne⟩ := hresult
  have hheap : Sharing.InHeap 2147483648 (pagesNeeded 4096) := by
    unfold Sharing.InHeap
    decide
  have hr₁ : Reach step (AgreeAllowed Marked) (start { run := r₀, disk := {} }) s₁ :=
    .step (.allocateUserMem () 2147483648 4096) .init ⟨by decide, by decide, hunmapped⟩ hs₁
  have hr₂ : Reach step (AgreeAllowed Marked) (start { run := r₀, disk := {} }) s₂ :=
    .step (.createSharedObject () 1 [97] 4096 0 2147483648) hr₁ ⟨by decide, by decide, by decide, hheap, hmarked₁⟩ hs₂
  have hr : Reach step (AgreeAllowed Marked) (start { run := r₀, disk := {} }) s :=
    .step (.createSharedObject () 1 [98] 4096 0 2147483648) hr₂ ⟨by decide, by decide, by decide, hheap, hmarked₂⟩ hs
  refine ⟨r₀, s, hboot, hr, fun hagrees => hne ?_⟩
  have hentry := hagrees.mapped shr hshr u hu hkey 0 f hf
  rw [Nat.zero_mul, Nat.add_zero] at hentry
  exact hentry.frame

end ShareRun

end Fos.Mem
