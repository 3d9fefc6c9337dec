import Fos.Trap.PageCells
import Fos.Trap.WsRun

/-! What the operations on the user heap, the steps of the memory manager and the accesses of the processes do to a byte. -/

namespace Fos.Mem
open Lib Heap Disk Frames

namespace PagingRun

variable {D : Type} [DecidableEq D] {all : List PageNo} {boot : PageNo → Nat} {s t : PagingRun D} {ev : TableEvent D} {d : D} {q : Nat}

/-- The entry of a page that a step does not touch is as before. -/
theorem WalkInv.page_kept (h : WalkInv all boot s) (hallowed : s.TableAllowed ev) (huser : s.UserFrame ev)
    (hplain : s.TablePlain ev) (hs : s.tableStep ev = some t) (hnot : ¬ ev.Touches d q) :
    t.paging.page d q = s.paging.page d q := by
  have hwalk := h
  obtain ⟨⟨tables, hi⟩, hl⟩ := h
  cases ev with
  | createPageTable dir va =>
    obtain ⟨⟨p, ptr⟩, hp, rfl⟩ := Option.map_eq_some_iff.mp hs
    obtain ⟨x, _, hx, -⟩ := Paging.createPageTableAt_eq_some.mp hp
    have hcreated := (hi.created hl hx).1
    have hpde : p.pde d (pdx q) = s.paging.pde d (pdx q) := (hcreated.pde d (pdx q)).trans (if_neg hnot)
    show p.page d q = _
    cases hd : s.paging.pde d (pdx q) with
    | none => rw [Paging.page_of_none (hpde.trans hd), Paging.page_of_none hd]
    | some y =>
      rw [Paging.page_of_some (hpde.trans hd), Paging.page_of_some hd, hcreated.others]
      rintro rfl
      exact hcreated.fresh d _ hd
  | paging ev =>
    cases ev with
    | allocateFrame =>
      obtain ⟨⟨p, f⟩, hp, rfl⟩ := Option.map_eq_some_iff.mp hs
      obtain ⟨-, hpage, -⟩ := hi.allocateFrame_linked hl hp
      exact congrFun (congrFun hpage d) q
    | mapFrame dir f va perm =>
      obtain ⟨p, hp, rfl⟩ := Option.map_eq_some_iff.mp hs
      obtain ⟨-, hwrites, -⟩ := hi.mapFrame_linked hl hallowed.2 huser hp
      exact hwrites.others d q hnot
    | unmapFrame dir va =>
      obtain ⟨p, hp, rfl⟩ := Option.map_eq_some_iff.mp hs
      obtain ⟨-, hwrites, -⟩ := hi.unmapFrame_linked hl hp
      exact hwrites.others d q hnot
    | allocPage dir va perms =>
      obtain ⟨p, hp, rfl⟩ := Option.map_eq_some_iff.mp hs
      obtain ⟨-, ⟨-, rfl⟩ | ⟨f, -, hwrites⟩, -⟩ := hi.allocPage_linked hl hp
      · rfl
      · exact hwrites.others d q hnot
    | kmalloc size =>
      obtain ⟨⟨k, va⟩, hk, rfl⟩ := Option.map_eq_some_iff.mp hs
      obtain ⟨-, hpage, -⟩ := hi.kmalloc_linked hl hplain.2 hk
      exact congrFun (congrFun hpage d) q
    | kfree va =>
      obtain ⟨k, hk, rfl⟩ := Option.map_eq_some_iff.mp hs
      obtain ⟨-, hpage, -⟩ := hi.kfree_linked hl hallowed hk
      exact congrFun (congrFun hpage d) q

end PagingRun

namespace UserMem

variable {E : Type} [DecidableEq E] {all : List PageNo} {boot : PageNo → Nat} {s t u : UserMem E} {d e : E} {va v size : Nat}
  {f : PageNo} {b : UInt8}

/-- The step leaves the byte to the cache. -/
structure Spares (e : E) (va : Nat) (s t : UserMem E) : Prop where
  alone : Alone s e va → Alone t e va
  steps : s.disk.Inv → Alone s e va → Cell.Steps (s.cell e va) (t.cell e va)

omit [DecidableEq E] in
theorem Caches.spares (h : Caches d s t) : Spares e va s t := ⟨h.alone e va, fun hi _ => h.steps hi e va⟩

omit [DecidableEq E] in
theorem spares_of_page (hpage : t.run.paging.page e va = s.run.paging.page e va) (halone : Alone s e va → Alone t e va)
    (hdata : ∀ f, Alone s e va → s.run.paging.Maps e va f → t.data f = s.data f)
    (hdisk : t.disk.pfReadEnvPage e va = s.disk.pfReadEnvPage e va) : Spares e va s t :=
  ⟨halone, fun _ ha => .of_eq (cell_congr (sameButUsed_of_eq hpage) (fun f => hdata f ha) hdisk)⟩

/-! ### The user heap -/

theorem freePages_spares {ps : List Nat} (h : MemInv all boot s) (hi : s.disk.Inv) (hs : exec (freePage d) s ps = some t) (e : E)
    (va : Nat) :
    t.disk.Inv ∧ (∀ x, t.disk.hold x ≠ none → s.disk.hold x ≠ none) ∧
      ((∀ p ∈ ps, ¬ (e = d ∧ Paging.SamePage va p)) → Spares e va s t) := by
  obtain ⟨-, hall, -, hdata, -⟩ := freePages_spec h hs
  suffices hdisk : t.disk.Inv ∧ (∀ x, t.disk.hold x ≠ none → s.disk.hold x ≠ none) ∧ (Alone s e va → Alone t e va) ∧
      ((∀ p ∈ ps, ¬ (e = d ∧ Paging.SamePage va p)) → t.disk.pfReadEnvPage e va = s.disk.pfReadEnvPage e va) by
    obtain ⟨hi', hhold, halone, hread⟩ := hdisk
    exact ⟨hi', hhold, fun hnot => spares_of_page (hall.others e va hnot) halone (fun _ _ _ => by rw [hdata]) (hread hnot)⟩
  clear hall hdata
  induction ps generalizing s with
  | nil =>
    cases hs
    exact ⟨hi, fun _ => id, id, fun _ => rfl⟩
  | cons p ps ih =>
    obtain ⟨s₁, hs₁, hs⟩ := exec_cons.mp hs
    obtain ⟨h₁, hfreed, -, hdisk₁, -⟩ := freePage_spec h hs₁
    have hi₁ : s₁.disk.Inv := by
      rw [hdisk₁]
      exact hi.pfRemoveEnvPage
    have hcontents : s₁.disk.contents = Function.update s.disk.contents (PageFile.key d p) none := by
      have hnext := PageFile.pfRemoveEnvPage_next s.disk d p
      rw [← hdisk₁] at hnext
      generalize s₁.disk.contents = m at hnext
      cases hnext
      rfl
    obtain ⟨hi', hhold, halone, hread⟩ := ih h₁ hi₁ hs
    refine ⟨hi', fun x hx => ?_, fun ha => halone (ha.drops hfreed.drops), fun hnot => ?_⟩
    · have hx := hhold x hx
      rw [Ne, ← PageFile.contents_eq_none, hcontents, Function.update_apply] at hx
      split at hx
      · exact absurd rfl hx
      · exact fun hnone => hx (PageFile.contents_eq_none.mpr hnone)
    · rw [hread fun q hq => hnot q (List.mem_cons_of_mem _ hq)]
      refine pfRead_congr ?_
      rw [hcontents, Function.update_of_ne (key_ne (hnot p (List.mem_cons_self ..)))]

theorem envPageWsInvalidate_spares (h : MemInv all boot s) (hnot : ¬ (e = d ∧ Paging.SamePage va v))
    (hs : s.envPageWsInvalidate d v = some t) : Spares e va s t := by
  obtain ⟨-, rfl⟩ | ⟨wse, hsame, hinv⟩ := envPageWsInvalidate_spec h hs
  · exact spares_of_page rfl id (fun _ _ _ => rfl) rfl
  · exact spares_of_page (hinv.page.others e va fun hx => hnot ⟨hx.1, hx.2.trans hsame⟩) (fun ha => ha.drops hinv.drops)
      (fun _ _ _ => by rw [hinv.data]) (by rw [hinv.disk])

/-- A region that is not mapped is marked. -/
theorem allocateUserMem_spares (h : s.run.WalkInv all boot)
    (hunmapped : ∀ p ∈ pagesOf v size, (s.run.paging.page d p).present = false) (hs : s.allocateUserMem d v size = some t) :
    Spares e va s t := by
  obtain ⟨-, hself, hothers⟩ := allocateUserMem_spec h hunmapped hs
  obtain ⟨p, -, rfl⟩ := Option.map_eq_some_iff.mp hs
  generalize htm : ({ s with run := { s.run with paging := p } } : UserMem E) = m at hself hothers
  have hmaps : m.run.paging.Maps = s.run.paging.Maps := by
    funext x q f
    by_cases hq : ∃ y ∈ pagesOf v size, x = d ∧ Paging.SamePage q y
    · obtain ⟨y, hy, rfl, hsame⟩ := hq
      unfold Paging.Maps
      rw [Paging.page_samePage hsame, Paging.page_samePage hsame, hunmapped y hy, hself y hy]
      exact propext (iff_of_false (fun h => absurd h.1 (by decide)) fun h => absurd h.1 (by decide))
    · unfold Paging.Maps
      rw [hothers x q fun y hy h => hq ⟨y, hy, h⟩]
  have hdata : m.data = s.data := htm ▸ rfl
  have hdisk : m.disk = s.disk := htm ▸ rfl
  by_cases hq : ∃ y ∈ pagesOf v size, e = d ∧ Paging.SamePage va y
  · obtain ⟨y, hy, rfl, hsame⟩ := hq
    refine ⟨fun ha => ha.congr hmaps, fun _ _ => .of_eq ?_⟩
    rw [cell_unmapped (s := m) (by rw [Paging.page_samePage hsame, hself y hy]; decide),
      cell_unmapped (s := s) (by rw [Paging.page_samePage hsame]; exact hunmapped y hy), hdisk]
  · exact spares_of_page (hothers e va fun y hy h => hq ⟨y, hy, h⟩) (fun ha => ha.congr hmaps) (fun _ _ _ => by rw [hdata])
      (by rw [hdisk])

/-! ### The memory manager -/

/-- A step that does not touch the page and does not map its frame elsewhere. -/
theorem memory_spares {r : PagingRun E} {ev : TableEvent E} (h : s.run.WalkInv all boot) (hallowed : s.run.TableAllowed ev)
    (huser : s.run.UserFrame ev) (hplain : s.run.TablePlain ev) (hr : s.run.tableStep ev = some r) (hnot : ¬ ev.Touches e va)
    (hframe : ∀ f, s.run.paging.Maps e va f → ¬ ev.MapsFrame f) : Spares e va s (s.setRun r) := by
  have hsteps := h.mapsSteps hallowed huser hplain hr
  refine spares_of_page (h.page_kept hallowed huser hplain hr hnot) (fun ha f x q hm hm' => ?_) (fun _ _ _ => rfl) rfl
  have hold := (hsteps.kept e va f hnot).mp hm
  rcases hsteps.new x q f hm' with hm' | hfresh | hgiven
  · exact ha f x q hold hm'
  · exact absurd hold (fresh_maps hfresh e va)
  · exact absurd hgiven (hframe f hold)

/-! ### Accesses -/

/-- An access sets bits of the entry of the page. -/
theorem access_writes {write : Bool} {p : Paging E} (h : s.run.WalkInv all boot)
    (hs : s.run.paging.access d v write = some (p, f)) : s.run.paging.Maps d v f ∧
      Paging.Writes s.run.paging p d v
        ⟨(s.run.paging.page d v).frame, (s.run.paging.page d v).perm ||| accessBits write⟩ ∧ p.Maps = s.run.paging.Maps := by
  obtain ⟨hmaps, hset⟩ := h.access hs
  obtain ⟨-, hwrites, -⟩ := h.ptSetPagePermissions
    ⟨accessBits_bit (by decide) (by decide) write, accessBits_bit (by decide) (by decide) write⟩ rfl hset
  rw [and_not_zero] at hwrites
  obtain ⟨-, -, ha, -⟩ := access_spec h hs
  exact ⟨hmaps, hwrites, ha.maps⟩

theorem readByte_spares {r : UserMem E × UInt8} (h : s.run.WalkInv all boot) (hs : s.readByte d v = some r) : Spares e va s r.1 := by
  obtain ⟨⟨p, f⟩, hp, rfl⟩ := Option.map_eq_some_iff.mp hs
  obtain ⟨-, hwrites, hmaps⟩ := access_writes h hp
  refine ⟨fun ha => ha.congr hmaps, fun _ _ => .of_eq (cell_congr ?_ (fun _ _ => rfl) rfl)⟩
  refine sameButUsed_of_writes (s := s) (r := { s.run with paging := p }) hwrites ⟨rfl, fun i hi => ?_⟩ e va
  rw [BitVec.getLsbD_or, show (accessBits false).getLsbD i = false from permUsed_bit hi, Bool.or_false]

/-- What a process reads is what is in the line. -/
theorem readByte_line {r : UserMem E × UInt8} (h : s.run.WalkInv all boot) (hs : s.readByte e va = some r) :
    ∃ modified, (s.cell e va).line = some (r.2, modified) := by
  obtain ⟨⟨p, f⟩, hp, rfl⟩ := Option.map_eq_some_iff.mp hs
  obtain ⟨⟨hpresent, rfl⟩, -⟩ := access_writes h hp
  exact ⟨_, congrArg Cell.line (cell_present hpresent)⟩

/-- A byte of a frame has been written, and the page is marked as modified. -/
structure Written (d : E) (v : Nat) (b : UInt8) (s t : UserMem E) : Prop where
  present : (s.run.paging.page d v).present
  page : Paging.Writes s.run.paging t.run.paging d v
    ⟨(s.run.paging.page d v).frame, (s.run.paging.page d v).perm ||| accessBits true⟩
  maps : t.run.paging.Maps = s.run.paging.Maps
  disk : t.disk = s.disk
  data : t.data = Function.update s.data (s.run.paging.page d v).frame
    (Function.update (s.data (s.run.paging.page d v).frame) (pageOffset v) b)

theorem writeByte_spec (h : s.run.WalkInv all boot) (hs : s.writeByte d v b = some t) : Written d v b s t := by
  obtain ⟨⟨p, f⟩, hp, rfl⟩ := Option.map_eq_some_iff.mp hs
  obtain ⟨⟨hpresent, rfl⟩, hwrites, hmaps⟩ := access_writes h hp
  exact ⟨hpresent, hwrites, hmaps, rfl, rfl⟩

omit [DecidableEq E] in
/-- The entry of the page after the write. -/
theorem Written.entry (h : Written e v b s t) (hsame : Paging.SamePage va v) : (t.run.paging.page e va).present ∧
    (t.run.paging.page e va).frame = (s.run.paging.page e v).frame ∧ (t.run.paging.page e va).perm.getLsbD 6 = true := by
  rw [Paging.page_samePage hsame, h.page.self]
  refine ⟨?_, rfl, ?_⟩
  · rw [present_iff, BitVec.getLsbD_or]
    exact Bool.or_eq_true_iff.mpr (.inl (present_iff ▸ h.present))
  · rw [BitVec.getLsbD_or]
    exact Bool.or_eq_true_iff.mpr (.inr rfl)

/-- The byte that is written is in the line, which is modified. -/
theorem writeByte_holds (h : s.run.WalkInv all boot) (hs : s.writeByte e va b = some t) : (t.cell e va).Holds b := by
  have hw := writeByte_spec h hs
  obtain ⟨hpresent, hframe, hmodified⟩ := hw.entry ⟨rfl, rfl⟩
  rw [cell_present hpresent, hframe, hmodified, hw.data, Function.update_self, Function.update_self]
  exact Cell.holds_modified ..

theorem pageOffset_ne (hva : va < userTop) (hv : v < userTop) (hne : va ≠ v) (hsame : Paging.SamePage va v) :
    pageOffset va ≠ pageOffset v := by
  simp only [userTop] at hva hv
  rw [samePage_iff (by omega) (by omega)] at hsame
  intro heq
  have hmod : va % 4096 = v % 4096 := congrArg Fin.val heq
  omega

/-- Another byte is written, perhaps one of the same page. -/
theorem writeByte_spares (h : s.run.WalkInv all boot) (hva : va < userTop) (hv : v < userTop) (hne : ¬ (e = d ∧ va = v))
    (hs : s.writeByte d v b = some t) : Spares e va s t := by
  have hw := writeByte_spec h hs
  by_cases hpage : e = d ∧ Paging.SamePage va v
  · obtain ⟨rfl, hpage⟩ := hpage
    have hold : (s.run.paging.page e va).present := by
      rw [Paging.page_samePage hpage]
      exact hw.present
    obtain ⟨hpresent, hframe, hmodified⟩ := hw.entry hpage
    have hoffset := pageOffset_ne hva hv (fun heq => hne ⟨rfl, heq⟩) hpage
    refine ⟨fun ha => ha.congr hw.maps, fun _ _ => ?_⟩
    rw [cell_present hold, cell_present hpresent, hframe, hmodified, hw.data, hw.disk, Function.update_self,
      Function.update_of_ne hoffset, Paging.page_samePage hpage]
    exact .single (.soil ..)
  · refine spares_of_page (hw.page.others e va hpage) (fun ha => ha.congr hw.maps) (fun g ha hg => ?_) (by rw [hw.disk])
    rw [hw.data]
    refine Function.update_of_ne ?_ ..
    rintro rfl
    obtain ⟨hd, hv'⟩ := ha _ d v hg ⟨hw.present, rfl⟩
    exact hpage ⟨hd.symm, hv'.symm⟩

end UserMem

end Fos.Mem
