import Fos.Disk.PageFileMap
import Fos.Lib.WriteBack
import Fos.Proc.Access
import Fos.Trap.RunInv

/-! The frames as a cache of the page file: a byte of a page is in the frame that the page is mapped to, in the page file, or in
    both. What the handlers do to a byte are steps of a write-back cache. -/

namespace Fos.Mem
open Lib Heap Disk Frames

namespace UserMem

variable {E : Type} [DecidableEq E] {all : List PageNo} {boot : PageNo → Nat} {s t u : UserMem E} {d e : E} {va v wse : Nat}
  {f : PageNo} {o : Outcome}

/-- The byte at `va`: in the frame of its page, with the `MODIFIED` bit, and in the page file. -/
def cell (s : UserMem E) (e : E) (va : Nat) : Cell UInt8 where
  line :=
    let p := s.run.paging.page e va
    if p.present then some (s.data p.frame (pageOffset va), p.perm.getLsbD 6) else none
  copy := (s.disk.pfReadEnvPage e va).map (· (pageOffset va))

/-- The frame of the page is mapped at no other page. -/
def Alone (s : UserMem E) (e : E) (va : Nat) : Prop :=
  ∀ f d q, s.run.paging.Maps e va f → s.run.paging.Maps d q f → d = e ∧ Paging.SamePage q va

omit [DecidableEq E] in
theorem cell_present (h : (s.run.paging.page e va).present) : s.cell e va =
    ⟨some (s.data (s.run.paging.page e va).frame (pageOffset va), (s.run.paging.page e va).perm.getLsbD 6),
      (s.disk.pfReadEnvPage e va).map (· (pageOffset va))⟩ := by
  unfold cell
  dsimp only
  rw [if_pos h]

omit [DecidableEq E] in
theorem cell_unmapped (h : (s.run.paging.page e va).present = false) :
    s.cell e va = ⟨none, (s.disk.pfReadEnvPage e va).map (· (pageOffset va))⟩ := by
  unfold cell
  dsimp only
  rw [if_neg (by rw [h]; exact Bool.false_ne_true)]

omit [DecidableEq E] in
/-- What a byte depends on. -/
theorem cell_congr (hpage : SameButUsed (t.run.paging.page e va) (s.run.paging.page e va))
    (hdata : ∀ f, s.run.paging.Maps e va f → t.data f = s.data f) (hdisk : t.disk.pfReadEnvPage e va = s.disk.pfReadEnvPage e va) :
    t.cell e va = s.cell e va := by
  by_cases hpresent : (s.run.paging.page e va).present
  · rw [cell_present hpresent, cell_present (hpage.present.trans hpresent), hpage.1, hpage.2 6 (by decide),
      hdata _ ⟨hpresent, rfl⟩, hdisk]
  · have hpresent : (s.run.paging.page e va).present = false := Bool.eq_false_iff.mpr hpresent
    rw [cell_unmapped hpresent, cell_unmapped (hpage.present.trans hpresent), hdisk]

omit [DecidableEq E] in
theorem sameButUsed_of_eq {p q : Pte} (h : p = q) : SameButUsed p q := h ▸ ⟨rfl, fun _ _ => rfl⟩

/-! ### The page file -/

omit [DecidableEq E] in
theorem pfRead_congr {disk disk' : PageFile E} (h : disk'.contents (PageFile.key e va) = disk.contents (PageFile.key e va)) :
    disk'.pfReadEnvPage e va = disk.pfReadEnvPage e va := by
  rw [← PageFile.contents_key, ← PageFile.contents_key, h]

omit [DecidableEq E] in
theorem key_samePage (h : Paging.SamePage va v) : PageFile.key e va = PageFile.key e v := by
  obtain ⟨hpdx, hptx⟩ := h
  unfold PageFile.key
  rw [hpdx, hptx]

omit [DecidableEq E] in
theorem pfRead_samePage {disk : PageFile E} (h : Paging.SamePage va v) : disk.pfReadEnvPage e va = disk.pfReadEnvPage e v := by
  rw [← PageFile.contents_key, ← PageFile.contents_key, key_samePage h]

omit [DecidableEq E] in
theorem key_ne (h : ¬ (e = d ∧ Paging.SamePage va v)) : PageFile.key e va ≠ PageFile.key d v := by
  intro heq
  obtain ⟨rfl, hkey⟩ := Prod.mk.inj heq
  obtain ⟨hpdx, hptx⟩ := Prod.mk.inj hkey
  exact h ⟨rfl, hpdx, hptx⟩

theorem pfUpdate_contents {disk disk' : PageFile E} {page : Page} (hi : disk.Inv) (hv : v < userTop)
    (hs : disk.pfUpdateEnvPage d v page = some disk') : disk'.Inv ∧
      disk'.contents = Function.update disk.contents (PageFile.key d v) (some page) := by
  refine ⟨hi.pfUpdateEnvPage hv hs, ?_⟩
  have hnext := hi.pfUpdateEnvPage_next hv hs
  generalize disk'.contents = m at hnext
  cases hnext
  rfl

/-! ### The parts of the handlers -/

/-- The byte of an evicted page is dropped or written back. -/
theorem Evicted.steps (h : Evicted d v s t) (hi : s.disk.Inv) (hv : v < userTop) (hpresent : (s.run.paging.page d v).present) :
    t.disk.Inv ∧ Cell.Steps (s.cell e va) (t.cell e va) := by
  obtain ⟨p, hp, -, hwrites⟩ := h.page
  by_cases hsame : e = d ∧ Paging.SamePage va v
  · obtain ⟨rfl, hpage⟩ := hsame
    have hpresent' : (s.run.paging.page e va).present := by
      rw [Paging.page_samePage hpage]
      exact hpresent
    have hunmapped : (t.run.paging.page e va).present = false := by
      rw [Paging.page_samePage hpage, hwrites.self]
      exact hp
    rw [cell_present hpresent', cell_unmapped hunmapped]
    rcases h.disk with ⟨hdisk, hclean⟩ | hupdate
    · rw [hdisk, Paging.page_samePage hpage, hclean]
      exact ⟨hi, .single (.drop ..)⟩
    · obtain ⟨hi', hcontents⟩ := pfUpdate_contents hi hv hupdate
      refine ⟨hi', .tail (.single (.soil ..)) ?_⟩
      have hread : t.disk.pfReadEnvPage e va = some (s.data (s.run.paging.page e va).frame) := by
        rw [← PageFile.contents_key, key_samePage hpage, hcontents, Function.update_self, Paging.page_samePage hpage]
      rw [hread]
      exact .writeBack ..
  · have hpage := sameButUsed_of_eq (hwrites.others e va hsame)
    have hdata : ∀ f, s.run.paging.Maps e va f → t.data f = s.data f := fun _ _ => by rw [h.data]
    rcases h.disk with ⟨hdisk, -⟩ | hupdate
    · rw [hdisk]
      exact ⟨hi, .of_eq (cell_congr hpage hdata (by rw [hdisk]))⟩
    · obtain ⟨hi', hcontents⟩ := pfUpdate_contents hi hv hupdate
      refine ⟨hi', .of_eq (cell_congr hpage hdata (pfRead_congr ?_))⟩
      rw [hcontents, Function.update_of_ne (key_ne hsame)]

theorem loaded_clean (x : BitVec 12) :
    (x &&& permAvailable ||| (permPresent ||| permWriteable ||| permUser ||| permUsed)).getLsbD 6 = false := by
  rw [BitVec.getLsbD_or, BitVec.getLsbD_and, show permAvailable.getLsbD 6 = false from rfl, Bool.and_false]
  rfl

omit [DecidableEq E] in
/-- The byte of a page that is loaded comes from the page file, if the page is there. -/
theorem Loaded.steps (h : Loaded d v f s t o) (hunmapped : (s.run.paging.page d v).present = false) :
    Cell.Steps (s.cell e va) (t.cell e va) := by
  by_cases hsame : e = d ∧ Paging.SamePage va v
  · obtain ⟨rfl, hpage⟩ := hsame
    have hpresent : (t.run.paging.page e va).present := by
      rw [Paging.page_samePage hpage, h.page.self]
      exact loaded_present ..
    rw [cell_unmapped (by rw [Paging.page_samePage hpage]; exact hunmapped), cell_present hpresent, Paging.page_samePage hpage,
      h.page.self, loaded_clean, h.disk, pfRead_samePage hpage]
    rcases h.content with ⟨hnone, -, -⟩ | ⟨content, hcontent, hdata, -⟩
    · rw [hnone]
      exact .single (.fillNew _)
    · rw [hcontent, hdata, Function.update_self]
      exact .single (.fill _)
  · refine .of_eq (cell_congr (sameButUsed_of_eq (h.page.others e va hsame)) (fun g hg => ?_) (by rw [h.disk]))
    rcases h.content with ⟨-, hdata, -⟩ | ⟨content, -, hdata, -⟩
    · rw [hdata]
    · rw [hdata]
      refine Function.update_of_ne ?_ ..
      rintro rfl
      exact fresh_maps h.fresh e va hg

/-! ### Frames that are mapped once -/

omit [DecidableEq E] in
theorem Alone.congr (h : Alone s e va) (hmaps : t.run.paging.Maps = s.run.paging.Maps) : Alone t e va := by
  unfold Alone
  rw [hmaps]
  exact h

omit [DecidableEq E] in
theorem Alone.drops (h : Alone s e va) (hdrops : Drops d v s t) : Alone t e va :=
  fun f x q hm hm' => h f x q ((hdrops ..).mp hm).1 ((hdrops ..).mp hm').1

omit [DecidableEq E] in
theorem Alone.gains (h : Alone s e va) (hgains : Gains d v f s t) (hfresh : ∀ x q, ¬ s.run.paging.Maps x q f) : Alone t e va := by
  intro g x q hm hm'
  rcases (hgains ..).mp hm with hold | ⟨⟨rfl, hpage⟩, rfl⟩
  · rcases (hgains ..).mp hm' with hold' | ⟨-, rfl⟩
    · exact h g x q hold hold'
    · exact absurd hold (hfresh e va)
  · rcases (hgains ..).mp hm' with hold' | ⟨⟨rfl, hpage'⟩, -⟩
    · exact absurd hold' (hfresh x q)
    · exact ⟨rfl, hpage'.trans hpage.symm⟩

omit [DecidableEq E] in
/-- The pages of a working set are such pages. -/
theorem WsInv.alone (h : WsInv s e) {x : Nat} (hx : x ∈ (s.ws e).list) (hsame : Paging.SamePage va (s.elementVa e x)) : Alone s e va := by
  intro f d q hm hm'
  unfold Paging.Maps at hm
  rw [Paging.page_samePage hsame] at hm
  obtain ⟨rfl, hpage⟩ := h.resident.alone x hx f d q hm hm'
  exact ⟨rfl, hpage.trans hsame.symm⟩

/-! ### Faults -/

/-- What a fault of `d` does to the bytes: they take steps of the cache, frames that are mapped once stay so, and only pages of
    `d` get into the page file. -/
structure Caches (d : E) (s t : UserMem E) : Prop where
  disk : s.disk.Inv → t.disk.Inv
  held : s.disk.Inv → ∀ x, t.disk.hold x ≠ none → s.disk.hold x ≠ none ∨ x.1 = d
  alone : ∀ e va, Alone s e va → Alone t e va
  steps : s.disk.Inv → ∀ e va, Cell.Steps (s.cell e va) (t.cell e va)

omit [DecidableEq E] in
theorem Caches.trans (h : Caches d s t) (h' : Caches d t u) : Caches d s u where
  disk := h'.disk ∘ h.disk
  held hi x hx := (h'.held (h.disk hi) x hx).elim (h.held hi x) .inr
  alone e va := h'.alone e va ∘ h.alone e va
  steps hi e va := (h.steps hi e va).trans (h'.steps (h.disk hi) e va)

omit [DecidableEq E] in
/-- The entries, the frames and the page file are as before, but for `USED` bits. -/
theorem caches_of_same (hpage : ∀ d q, SameButUsed (t.run.paging.page d q) (s.run.paging.page d q)) (hdata : t.data = s.data)
    (hdisk : t.disk = s.disk) : Caches d s t where
  disk hi := hdisk ▸ hi
  held _ x hx := .inl (hdisk ▸ hx)
  alone _ _ h := h.congr (maps_congr fun d q => ⟨(hpage d q).present, (hpage d q).1⟩)
  steps _ e va := .of_eq (cell_congr (hpage e va) (fun _ _ => by rw [hdata]) (by rw [hdisk]))

theorem Evicted.held (h : Evicted d v s t) (hi : s.disk.Inv) (hv : v < userTop) {x : E × Fin 1024 × Fin 1024}
    (hx : t.disk.hold x ≠ none) : s.disk.hold x ≠ none ∨ x.1 = d := by
  rcases h.disk with ⟨hdisk, -⟩ | hupdate
  · exact .inl (hdisk ▸ hx)
  · obtain ⟨-, hcontents⟩ := pfUpdate_contents hi hv hupdate
    by_cases hkey : x = PageFile.key d v
    · exact .inr (congrArg Prod.fst hkey)
    · rw [Ne, ← PageFile.contents_eq_none, hcontents, Function.update_of_ne hkey, PageFile.contents_eq_none] at hx
      exact .inl hx

theorem Evicted.caches (h : Evicted d v s t) (hv : v < userTop) (hpresent : (s.run.paging.page d v).present) : Caches d s t where
  disk hi := by
    obtain ⟨hinv, -⟩ : t.disk.Inv ∧ Cell.Steps (s.cell d v) (t.cell d v) := h.steps hi hv hpresent
    exact hinv
  held hi _ hx := h.held hi hv hx
  alone _ _ ha := ha.drops h.drops
  steps hi _ _ := (h.steps hi hv hpresent).2

omit [DecidableEq E] in
theorem Loaded.caches (h : Loaded d v f s t o) (hunmapped : (s.run.paging.page d v).present = false) : Caches d s t where
  disk hi := h.disk ▸ hi
  held _ _ hx := .inl (h.disk ▸ hx)
  alone _ _ ha := ha.gains (h.gains hunmapped) (fresh_maps h.fresh)
  steps _ _ _ := h.steps hunmapped

omit [DecidableEq E] in
theorem Placed.caches (h : Placed all boot d v s t o) (hunmapped : (s.run.paging.page d v).present = false) : Caches d s t := by
  obtain ⟨u, f, hloaded, ⟨-, rfl⟩ | ⟨-, wse, hadded⟩⟩ := h
  · exact hloaded.caches hunmapped
  · exact (hloaded.caches hunmapped).trans
      (caches_of_same (fun d q => sameButUsed_of_eq (by rw [hadded.page])) hadded.data hadded.disk)

theorem Replaced.caches (h : Replaced all boot d v s t o) (hws : WsInv s d) (hunmapped : (s.run.paging.page d v).present = false) :
    Caches d s t := by
  obtain ⟨wse, hmem, s₁, s₂, s₃, f, haged, -, hevicted, -, hloaded, -, hcases⟩ := h
  obtain ⟨g, hpresent, -⟩ := hws.resident.mapped wse hmem
  have hunmapped₂ : (s₂.run.paging.page d v).present = false := hevicted.unmapped ((haged.page d v).present.trans hunmapped)
  have hcaches : Caches d s s₃ := ((caches_of_same haged.page haged.data haged.disk).trans
    (hevicted.caches (hws.resident.aligned wse hmem).2 ((haged.page d _).present.trans hpresent))).trans (hloaded.caches hunmapped₂)
  obtain ⟨-, rfl⟩ | ⟨-, hrenamed⟩ := hcases
  · exact hcaches
  · exact hcaches.trans (caches_of_same hrenamed.page hrenamed.data hrenamed.disk)

theorem updateTimeStamps_caches (h : s.run.WalkInv all boot) (hs : s.updateTimeStamps d = some t) : Caches d s t := by
  obtain ⟨haged, -⟩ := updateTimeStamps_spec h hs
  exact caches_of_same haged.page haged.data haged.disk

end UserMem

end Fos.Mem

namespace Fos.Trap
open Lib Heap Disk Mem

namespace Kernel

variable {E : Type} [DecidableEq E] {all : List PageNo} {boot : PageNo → Nat} {s t : Kernel E} {e : E} {va : Nat} {userTrap : Bool}
  {o : Outcome}

theorem faultHandler_caches (h : s.mem.MemInv all boot) (hhand : s.mem.HandIn e) (hws : s.mem.WsInv e)
    (hs : s.faultHandler e userTrap va = some (t, o)) : UserMem.Caches e s.mem t.mem := by
  rcases faultHandler_cases hs with ⟨hmade, -⟩ | ⟨heq, -⟩ | hserved
  · obtain ⟨-, -, hpage, hdisk, hdata⟩ := hmade.spec h
    exact UserMem.caches_of_same (fun d q => UserMem.sameButUsed_of_eq (by rw [hpage])) hdata hdisk
  · rw [heq]
    exact UserMem.caches_of_same (fun _ _ => UserMem.sameButUsed_of_eq rfl) rfl rfl
  · obtain ⟨hunmapped, -, -, ⟨-, hplaced, -⟩ | hreplaced⟩ := hserved.spec h.walk hhand
    · exact hplaced.caches hunmapped
    · exact hreplaced.caches hws hunmapped

/-- A page fault, whichever algorithm is set. -/
theorem pageFaultTrap_caches (h : s.mem.MemInv all boot) (hhand : s.mem.HandIn e) (hws : s.mem.WsInv e)
    (hs : s.pageFaultTrap e userTrap va = some (t, o)) : UserMem.Caches e s.mem t.mem := by
  obtain ⟨u, hu, hs⟩ := Option.bind_eq_some_iff.mp hs
  split at hu
  case isTrue =>
    obtain ⟨m, hm, rfl⟩ := Option.map_eq_some_iff.mp hu
    obtain ⟨haged, -⟩ := UserMem.updateTimeStamps_spec h.walk hm
    exact (UserMem.updateTimeStamps_caches h.walk hm).trans (faultHandler_caches (s := s.setMem m) (h.aged haged)
      (hhand.updateTimeStamps h.walk hm) (hws.updateTimeStamps h.walk hm) hs)
  case isFalse =>
    cases hu
    exact faultHandler_caches h hhand hws hs

end Kernel

end Fos.Trap
