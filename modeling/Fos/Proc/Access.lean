import Fos.Mem.Calls
import Fos.Trap.WsInv

/-! Bytes that processes read and write. The MMU walks the page tables, checks the bits of the entry and marks the page as
    used and, for a write, as modified. -/

namespace Fos.Mem
open Lib Heap Disk Frames

/-- The bits that the MMU sets. -/
def accessBits (write : Bool) : BitVec 12 := if write then permUsed ||| permModified else permUsed

namespace Paging

variable {D : Type} [DecidableEq D]

/-- An access in user mode at a user address, with the frame of the page; `none` is a page fault. -/
def access (s : Paging D) (dir : D) (va : Nat) (write : Bool) : Option (Paging D × PageNo) :=
  (s.pde dir (pdx va)).bind fun table =>
    let e := s.heap.mem.pte (.user table (ptx va))
    if e.present ∧ e.perm &&& permUser ≠ 0 ∧ (write → e.perm &&& permWriteable ≠ 0) then
      some (s.writeEntry table (ptx va) ⟨e.frame, e.perm ||| accessBits write⟩, e.frame)
    else none

end Paging

namespace UserMem

variable {E : Type} [DecidableEq E]

/-- The byte of an address in its page. -/
def pageOffset (va : Nat) : Fin 4096 := Fin.ofNat 4096 va

/-- A process reads a byte. -/
def readByte (s : UserMem E) (e : E) (va : Nat) : Option (UserMem E × UInt8) :=
  (s.run.paging.access e va false).map fun (p, f) => (s.setRun { s.run with paging := p }, s.data f (pageOffset va))

/-- A process writes a byte. -/
def writeByte (s : UserMem E) (e : E) (va : Nat) (b : UInt8) : Option (UserMem E) :=
  (s.run.paging.access e va true).map fun (p, f) =>
    { s.setRun { s.run with paging := p } with
      data := Function.update s.data f (Function.update (s.data f) (pageOffset va) b) }

end UserMem

/-! ### What an access keeps -/

theorem and_not_zero (b : BitVec 12) : b &&& ~~~ 0 = b := BitVec.and_allOnes

theorem accessBits_bit {i : Nat} (h₅ : i ≠ 5) (h₆ : i ≠ 6) (write : Bool) : (accessBits write).getLsbD i = false := by
  cases write with
  | false => exact UserMem.permUsed_bit h₅
  | true =>
    show (permUsed ||| permModified).getLsbD i = false
    rw [BitVec.getLsbD_or, UserMem.permUsed_bit h₅, UserMem.permModified_bit h₆, Bool.or_false]

namespace PagingRun

variable {D : Type} [DecidableEq D] {all : List PageNo} {boot : PageNo → Nat} {s : PagingRun D} {p : Paging D} {dir : D}
  {va : Nat} {write : Bool} {f : PageNo}

omit [DecidableEq D] in
/-- An access sets permission bits of a page that is mapped. -/
theorem WalkInv.access (h : s.WalkInv all boot) (hs : s.paging.access dir va write = some (p, f)) :
    s.paging.Maps dir va f ∧ s.ptSetPagePermissions dir va (accessBits write) 0 = some { s with paging := p } := by
  obtain ⟨⟨tables, hi⟩, hl⟩ := h
  obtain ⟨x, hx, hs⟩ := Option.bind_eq_some_iff.mp hs
  obtain ⟨⟨hpresent, -⟩, heq⟩ := Option.ite_none_right_eq_some.mp hs
  cases heq
  refine ⟨⟨?_, ?_⟩, ?_⟩
  · rw [Paging.page_of_some hx]
    exact hpresent
  · rw [Paging.page_of_some hx]
  · unfold PagingRun.ptSetPagePermissions Paging.ptSetPagePermissions
    rw [hi.getPageTable_eq hl, Option.bind_some, hx]
    simp only [and_not_zero, Option.map_some]

end PagingRun

namespace UserMem

variable {E : Type} [DecidableEq E] {all : List PageNo} {boot : PageNo → Nat} {s t : UserMem E} {d e : E} {va q : Nat} {b : UInt8}

/-- The entries differ at most in the bits that the MMU sets. -/
def SameButAccess (p q : Pte) : Prop := p.frame = q.frame ∧ ∀ i, i ≠ 5 → i ≠ 6 → p.perm.getLsbD i = q.perm.getLsbD i

theorem SameButAccess.present {p q : Pte} (h : SameButAccess p q) : p.present = q.present := by
  rw [Bool.eq_iff_iff, present_iff, present_iff, h.2 0 (by decide) (by decide)]

/-- A process has accessed its memory: bits of its entries and the content of a page may have changed, and nothing else. -/
structure Accessed (s t : UserMem E) : Prop extends SameWs s t where
  page : ∀ d q, SameButAccess (t.run.paging.page d q) (s.run.paging.page d q)
  hold : t.run.hold = s.run.hold
  disk : t.disk = s.disk

theorem access_spec {write : Bool} {p : Paging E} {f : PageNo} (h : s.run.WalkInv all boot)
    (hs : s.run.paging.access e va write = some (p, f)) :
    s.run.paging.Maps e va f ∧ ({ s.run with paging := p } : PagingRun E).WalkInv all boot ∧
      Accessed s (s.setRun { s.run with paging := p }) ∧ PagingRun.Call s.run { s.run with paging := p } := by
  obtain ⟨hmaps, hset⟩ := h.access hs
  obtain ⟨hwalk, hwrites, hhold, hhanded, hlive⟩ := h.ptSetPagePermissions
    ⟨accessBits_bit (by decide) (by decide) write, accessBits_bit (by decide) (by decide) write⟩ rfl hset
  refine ⟨hmaps, hwalk, ⟨⟨rfl, hhanded, hlive⟩, fun d q => ?_, hhold, rfl⟩, .ptSetPagePermissions hset⟩
  by_cases hsame : d = e ∧ Paging.SamePage q va
  · obtain ⟨rfl, hpage⟩ := hsame
    show SameButAccess (p.page d q) (s.run.paging.page d q)
    rw [Paging.page_samePage hpage, Paging.page_samePage hpage, hwrites.self, and_not_zero]
    refine ⟨rfl, fun i h₅ h₆ => ?_⟩
    rw [BitVec.getLsbD_or, accessBits_bit h₅ h₆, Bool.or_false]
  · exact (hwrites.others d q hsame) ▸ ⟨rfl, fun _ _ _ => rfl⟩

omit [DecidableEq E] in
/-- A page that is mapped for the process can be read. -/
theorem readByte_eq (hpresent : (s.run.paging.page e va).present) (huser : (s.run.paging.page e va).perm.getLsbD 2) :
    (s.readByte e va).map Prod.snd = some (s.data (s.run.paging.page e va).frame (pageOffset va)) := by
  obtain ⟨x, hx⟩ := Option.ne_none_iff_exists'.mp (pde_of_present hpresent)
  rw [Paging.page_of_some hx] at hpresent huser ⊢
  unfold readByte Paging.access
  rw [hx, Option.bind_some, if_pos ⟨hpresent, (Paging.and_twoPow_ne_zero _ 2 (by decide)).mpr huser, nofun⟩]
  rfl

omit [DecidableEq E] in
theorem Accessed.maps (h : Accessed s t) : t.run.paging.Maps = s.run.paging.Maps :=
  maps_congr fun d q => ⟨(h.page d q).present, (h.page d q).1⟩

omit [DecidableEq E] in
theorem WsInv.accessed (h : WsInv s d) (ha : Accessed s t) : WsInv t d :=
  h.keep (.of_maps ha.maps fun x _ => elementVa_congr (by rw [ha.ws]) x) (by rw [ha.ws])

end UserMem

end Fos.Mem
