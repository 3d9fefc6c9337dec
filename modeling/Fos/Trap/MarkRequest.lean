import Fos.Heap.KHeapBlind
import Fos.Trap.WsRun

/-! What `allocate_user_mem` keeps of the accounts. It writes its entries directly, so the frame of a page that is mapped is
    forgotten. To see what a call does to memory in which frames were forgotten, the loop is run beside a copy of the memory
    where the tables are made and nothing is written: the accounts hold in the copy, and the kernel heap acts the same on both. -/

namespace Fos.Mem.Paging
open Lib Heap Frames

variable {D : Type} [DecidableEq D] {all : List PageNo} {boot : PageNo → Nat} {handed : List PageNo} {live : List Nat}
  {s t t' u : Paging D} {x : PageNo} {va : Nat} {dir : D} {g : PageNo → Fin 1024 → Pte}

/-! ### The copy -/

def withUser (g : PageNo → Fin 1024 → Pte) (s : Paging D) : Paging D := { s with heap := s.heap.withUser g }

def clearAt (x : PageNo) (g : PageNo → Fin 1024 → Pte) : PageNo → Fin 1024 → Pte := fun t i => if t = x then {} else g t i

def writeAt (x : PageNo) (i : Fin 1024) (e : Pte) (g : PageNo → Fin 1024 → Pte) : PageNo → Fin 1024 → Pte :=
  fun t j => if t = x ∧ j = i then e else g t j

omit [DecidableEq D] in
theorem getPageTable_withUser : (s.withUser g).getPageTable dir va = s.getPageTable dir va := rfl

theorem clearTable_withUser (m : Frames) : clearTable (m.withUser g) x = (clearTable m x).withUser (clearAt x g) := by
  have hpte : (clearTable (m.withUser g) x).pte = ((clearTable m x).withUser (clearAt x g)).pte := by
    funext c
    cases c <;> rfl
  exact congrArg (fun pte => ({ m with pte := pte } : Frames)) hpte

theorem createPageTable_withUser :
    (s.withUser g).createPageTable dir va = (s.createPageTable dir va).map fun (u, x) => (u.withUser (clearAt x g), x) := by
  have hheap : (s.withUser g).heap = s.heap.withUser g := rfl
  unfold createPageTable
  rw [hheap, KHeap.kmalloc_withUser]
  cases s.heap.kmalloc pageSize with
  | none => rfl
  | some r =>
    obtain ⟨h, ptr⟩ := r
    dsimp only [Option.map_some, Option.bind_some]
    split
    case isTrue => rfl
    case isFalse =>
      have hframe : frameAt (h.withUser g) ptr = frameAt h ptr := rfl
      rw [hframe, Option.map_map]
      refine congrArg (Option.map · _) (funext fun x => ?_)
      have hclear : clearTable (h.withUser g).mem x = (clearTable h.mem x).withUser (clearAt x g) := clearTable_withUser h.mem
      rw [hclear]
      rfl

omit [DecidableEq D] in
theorem writeEntry_withUser (u : Paging D) (x : PageNo) (i : Fin 1024) (e : Pte) :
    (u.withUser g).writeEntry x i e = u.withUser (writeAt x i e g) := by
  have hpte : Function.update (u.heap.mem.withUser g).pte (.user x i) e = (u.heap.mem.withUser (writeAt x i e g)).pte := by
    funext c
    cases c with
    | kernel p => exact Function.update_of_ne (show Slot.kernel p ≠ .user x i from nofun) ..
    | user y j =>
      rw [Function.update_apply]
      simp only [Frames.withUser, writeAt, Slot.user.injEq]
  unfold writeEntry withUser KHeap.withUser
  dsimp only
  rw [hpte]
  rfl

/-- The memory `t` is `u`, but entries of the processes were overwritten. -/
structure Overwrites (u t : Paging D) : Prop where
  eq : ∃ g, t = u.withUser g
  kept : ∀ c f, t.heap.mem.hold c = some f → u.heap.mem.hold c = some f

omit [DecidableEq D] in
theorem Overwrites.refl (u : Paging D) : Overwrites u u := by
  refine ⟨⟨fun x i => u.heap.mem.pte (.user x i), ?_⟩, fun _ _ h => h⟩
  have hpte : u.heap.mem.pte = (u.heap.mem.withUser fun x i => u.heap.mem.pte (.user x i)).pte := by
    funext c
    cases c <;> rfl
  exact congrArg (fun pte => ({ u with heap := { u.heap with mem := { u.heap.mem with pte := pte } } } : Paging D)) hpte

omit [DecidableEq D] in
theorem Overwrites.write (h : Overwrites u t) (x : PageNo) (i : Fin 1024) {e : Pte} (he : e.present = false) :
    Overwrites u (t.writeEntry x i e) := by
  obtain ⟨⟨g, rfl⟩, hkept⟩ := h
  refine ⟨⟨_, writeEntry_withUser ..⟩, fun c f hc => ?_⟩
  by_cases hx : c = .user x i
  · obtain ⟨hpresent, -⟩ := hold_eq_some.mp hc
    have hself : ((u.withUser g).writeEntry x i e).heap.mem.pte c = e := by
      rw [hx]
      exact Function.update_self ..
    rw [hself, he] at hpresent
    exact nomatch hpresent
  · refine hkept c f ?_
    have hother : ((u.withUser g).writeEntry x i e).heap.mem.pte c = (u.withUser g).heap.mem.pte c := Function.update_of_ne hx ..
    unfold Frames.hold at hc ⊢
    rwa [hother] at hc

/-- What one round of the loop does beside the copy. -/
structure Marked (dir : D) (va : Nat) (u t u' t' : Paging D) : Prop where
  overwrites : Overwrites u' t'
  pde : ∀ d j x, u.pde d j = some x → u'.pde d j = some x
  entry : ∀ d j x, u.pde d j = some x → ∀ i, u'.heap.mem.pte (.user x i) = u.heap.mem.pte (.user x i)
  gone : ∀ x i, (t.heap.mem.pte (.user x i)).present = false → (t'.heap.mem.pte (.user x i)).present = false
  marked : ∀ x, u.pde dir (pdx va) = some x → (t'.heap.mem.pte (.user x (ptx va))).present = false

/-- The accounts hold in the copy. -/
def Counted (all : List PageNo) (boot : PageNo → Nat) (handed : List PageNo) (live : List Nat) (u : Paging D) : Prop :=
  (∃ tables, Inv all boot handed live tables u) ∧ u.Linked

theorem marked_step (h : Counted all boot handed live u) (ho : Overwrites u t) (hs : t.markPage dir va = some t') :
    ∃ u', Counted all boot handed live u' ∧ Marked dir va u t u' t' := by
  have hmark : (⟨0, permUhpage⟩ : Pte).present = false := by decide
  have hself : ∀ (p : Paging D) x i, ((p.writeEntry x i ⟨0, permUhpage⟩).heap.mem.pte (.user x i)).present = false := by
    intro p x i
    rw [show (p.writeEntry x i ⟨0, permUhpage⟩).heap.mem.pte (.user x i) = ⟨0, permUhpage⟩ from Function.update_self ..]
    exact hmark
  have hgone : ∀ (p : Paging D) x i y j, (p.heap.mem.pte (.user y j)).present = false →
      ((p.writeEntry x i ⟨0, permUhpage⟩).heap.mem.pte (.user y j)).present = false := by
    intro p x i y j hp
    by_cases hx : Slot.user y j = .user x i
    · cases hx
      exact hself p x i
    · rw [show (p.writeEntry x i ⟨0, permUhpage⟩).heap.mem.pte (.user y j) = p.heap.mem.pte (.user y j) from
        Function.update_of_ne hx ..]
      exact hp
  obtain ⟨⟨tables, hi⟩, hl⟩ := h
  obtain ⟨⟨g, rfl⟩, hkept⟩ := ho
  unfold Paging.markPage at hs
  rw [getPageTable_withUser, hi.getPageTable_eq hl, Option.bind_some] at hs
  cases hx : u.pde dir (pdx va) with
  | some x =>
    rw [hx] at hs
    cases hs
    refine ⟨u, ⟨⟨tables, hi⟩, hl⟩, Overwrites.write ⟨⟨g, rfl⟩, hkept⟩ x (ptx va) hmark, fun _ _ _ h => h, fun _ _ _ _ _ => rfl,
      hgone _ x (ptx va), fun y hy => ?_⟩
    cases hx.symm.trans hy
    exact hself ..
  | none =>
    rw [hx] at hs
    dsimp only at hs
    rw [createPageTable_withUser] at hs
    obtain ⟨⟨u₁, x⟩, hu₁, rfl⟩ := Option.map_eq_some_iff.mp ((Option.map_map ..).symm.trans hs)
    obtain ⟨hcreated, hl₁⟩ := hi.created hl hu₁
    obtain ⟨ptr, hi₁, -, hgrown, -⟩ := hi.createPageTable hu₁
    have hcopy : Overwrites u₁ (u₁.withUser (clearAt x g)) := by
      refine ⟨⟨_, rfl⟩, fun c f hc => ?_⟩
      cases c with
      | kernel p => exact hc
      | user y j =>
        by_cases hy : y = x
        · have hempty : (u₁.withUser (clearAt x g)).heap.mem.pte (.user y j) = {} := if_pos hy
          have hpresent := (hold_eq_some.mp hc).1
          rw [hempty] at hpresent
          exact nomatch hpresent
        · have hsame : (u₁.withUser (clearAt x g)).heap.mem.pte (.user y j) = (u.withUser g).heap.mem.pte (.user y j) := if_neg hy
          refine hgrown _ f (hkept (.user y j) f ?_)
          unfold Frames.hold at hc ⊢
          rwa [hsame] at hc
    refine ⟨u₁, ⟨⟨_, hi₁⟩, hl₁⟩, hcopy.write x (ptx va) hmark, fun d j y hy => ?_, fun d j y hy i => ?_, fun y i hy => ?_,
      fun y hy => (nomatch hx.symm.trans hy)⟩
    · rw [hcreated.pde, if_neg]
      · exact hy
      · rintro ⟨rfl, rfl⟩
        exact nomatch hx.symm.trans hy
    · refine hcreated.others y i ?_
      rintro rfl
      exact hcreated.fresh d j hy
    · refine hgone _ x (ptx va) y i ?_
      by_cases hyx : y = x
      · rw [show (u₁.withUser (clearAt x g)).heap.mem.pte (.user y i) = {} from if_pos hyx]
        rfl
      · rw [show (u₁.withUser (clearAt x g)).heap.mem.pte (.user y i) = (u.withUser g).heap.mem.pte (.user y i) from if_neg hyx]
        exact hy

/-- The loop beside the copy, seen from one page `va` with the table `x`. -/
theorem marked_run {ps : List Nat} (h : Counted all boot handed live u) (ho : Overwrites u t) (hx : u.pde dir (pdx va) = some x)
    (hva : va ∈ ps ∨ (t.heap.mem.pte (.user x (ptx va))).present = false) (hs : exec (Paging.markPage dir) t ps = some t') :
    ∃ u', Counted all boot handed live u' ∧ Overwrites u' t' ∧
      u'.heap.mem.pte (.user x (ptx va)) = u.heap.mem.pte (.user x (ptx va)) ∧
      (t'.heap.mem.pte (.user x (ptx va))).present = false := by
  induction ps generalizing u t with
  | nil =>
    cases hs
    exact ⟨u, h, ho, rfl, hva.resolve_left List.not_mem_nil⟩
  | cons p ps ih =>
    obtain ⟨t₁, ht₁, hs⟩ := exec_cons.mp hs
    obtain ⟨u₁, h₁, hmarked⟩ := marked_step h ho ht₁
    have hnext : va ∈ ps ∨ (t₁.heap.mem.pte (.user x (ptx va))).present = false := by
      rcases hva with hva | hva
      · rcases List.mem_cons.mp hva with rfl | hva
        · exact .inr (hmarked.marked x hx)
        · exact .inl hva
      · exact .inr (hmarked.gone x (ptx va) hva)
    obtain ⟨u', h', ho', hentry, hgone⟩ := ih h₁ hmarked.overwrites (hmarked.pde dir (pdx va) x hx) hnext hs
    exact ⟨u', h', ho', hentry.trans (hmarked.entry dir (pdx va) x hx (ptx va)), hgone⟩

/-- A mapped page of the region is forgotten: its frame has more references than mappings. -/
theorem forgotten {ps : List Nat} {f : PageNo} (h : Counted all boot handed live s) (hm : s.Maps dir va f) (hva : va ∈ ps)
    (hs : exec (Paging.markPage dir) s ps = some t) : f ∈ all ∧ (holders t.heap.mem.hold f).ncard < t.heap.mem.references f := by
  obtain ⟨hpresent, hframe⟩ := hm
  cases hx : s.pde dir (pdx va) with
  | none =>
    rw [page_of_none hx] at hpresent
    exact nomatch hpresent
  | some x =>
    rw [page_of_some hx] at hpresent hframe
    obtain ⟨u, ⟨⟨tables, hi⟩, -⟩, ⟨⟨g, rfl⟩, hkept⟩, hentry, hgone⟩ := marked_run h (.refl s) hx (.inl hva) hs
    obtain ⟨F, ha⟩ := hi.accounts
    have hhold : u.heap.mem.hold (.user x (ptx va)) = some f := by
      rw [hold_eq_some, hentry]
      exact ⟨hpresent, hframe⟩
    have hall := ha.held _ f hhold
    refine ⟨hall, ?_⟩
    rw [show (u.withUser g).heap.mem.references f = u.heap.mem.references f from rfl, ha.references f hall]
    refine Set.ncard_lt_ncard ⟨fun c hc => hkept c f hc, fun hsub => ?_⟩
    have hin : (u.withUser g).heap.mem.hold (.user x (ptx va)) = some f := hsub hhold
    rw [hold_eq_none.mpr hgone] at hin
    exact nomatch hin

end Fos.Mem.Paging

namespace Fos.Mem.Frames
open Lib

variable {m m' : Frames} {all F F' out : List PageNo} {boot : PageNo → Nat}

/-- With the same frames handed out, as many frames as before are free or held. -/
theorem Accounts.free_or_held (h : Accounts m all boot F out) (h' : Accounts m' all boot F' out) :
    F'.length + {f | ∃ c, m'.hold c = some f}.ncard = F.length + {f | ∃ c, m.hold c = some f}.ncard := by
  have hcount : ∀ {n : Frames} {G : List PageNo}, Accounts n all boot G out →
      G.length + {f | ∃ c, n.hold c = some f}.ncard = {f | f ∈ all ∧ f ∉ out}.ncard := by
    intro n G hn
    have hlength : G.length = {f | f ∈ G}.ncard := by
      rw [← List.toFinset_card_of_nodup hn.nodup, ← Set.ncard_coe_finset, List.coe_toFinset]
    have hdisjoint : Disjoint {f | f ∈ G} {f | ∃ c, n.hold c = some f} := by
      refine Set.disjoint_left.mpr fun f hf hheld => ?_
      obtain ⟨c, hc⟩ := hheld
      exact ((hn.mem f).mp hf).2.2 c hc
    rw [hlength, ← Set.ncard_union_eq hdisjoint]
    congr 1
    ext f
    constructor
    · rintro (hf | ⟨c, hc⟩)
      · obtain ⟨hall, hout, -⟩ := (hn.mem f).mp hf
        exact ⟨hall, hout⟩
      · exact ⟨hn.held c f hc, fun hout => (hn.out_mem f hout).2 c hc⟩
    · rintro ⟨hall, hout⟩
      by_cases hheld : ∃ c, n.hold c = some f
      · exact .inr hheld
      · exact .inl ((hn.mem f).mpr ⟨hall, hout, not_exists.mp hheld⟩)
  exact (hcount h').trans (hcount h).symm

end Fos.Mem.Frames

namespace Fos.Trap
open Lib Heap Disk Mem

namespace KernelRun

variable {E : Type} [DecidableEq E] {s₀ s t : KernelRun E} {ev : KernelEvent E} {e : E} {va size n k : Nat}

/-- What is said of a step: as many frames as before are free or held by an entry, one of a process or of the kernel heap; every
    frame that the boot left free has as many references as entries that hold it; and the elements of the working sets name
    mapped pages. -/
structure LosesNothing (n k : Nat) (s t : KernelRun E) : Prop where
  frames : ∃ F F', (s.mem.run.paging.heap.mem.freeFrameList.Spells fun _ => F) ∧
    (t.mem.run.paging.heap.mem.freeFrameList.Spells fun _ => F') ∧
      F'.length + {f | ∃ c, t.mem.run.hold c = some f}.ncard = F.length + {f | ∃ c, s.mem.run.hold c = some f}.ncard
  references : ∀ f ∈ Frames.bootFree n k, t.mem.run.paging.heap.mem.references f = (holders t.mem.run.hold f).ncard
  mapped : ∀ d, s.running d → ∀ x ∈ (t.mem.ws d).list, (t.mem.run.paging.page d (t.mem.elementVa d x)).present

/-- The accounts and the working sets in runs that mark no mapped page. -/
structure Sound (n k : Nat) (s : KernelRun E) : Prop where
  mem : s.mem.MemInv (Frames.bootFree n k) (Frames.bootReferences k)
  hand : ∀ e, s.running e → s.mem.HandIn e
  ws : ∀ e, s.running e → s.mem.WsInv e

theorem Sound.step (h : Sound n k s) (hok : s.Accepted ev) (hrespects : s.Respects ev) (hs : s.step ev = some t) : Sound n k t := by
  have hi : s.Inv := ⟨⟨_, _, h.mem⟩, h.hand⟩
  obtain ⟨hmem, hhand⟩ := accounts_step h.mem h.hand hok (fun e va size hev => by subst hev; exact hrespects) hs
  exact ⟨hmem, hhand, hi.wsInv_accepted hok hrespects h.ws hs⟩

theorem Sound.reach (hmin : 160 ≤ n) (hn : n ≤ 1048576) (hk : 256 ≤ k) (hboot : Booted n k s₀)
    (hr : Reach KernelRun.step (fun s ev => s.Accepted ev ∧ s.Respects ev) s₀ s) : Sound n k s :=
  hr.invariant ⟨hboot.memInv hmin hn hk, fun e he => absurd he (hboot.not_running e), fun e he => absurd he (hboot.not_running e)⟩
    fun _ _ _ h hok hs => h.step hok.1 hok.2 hs

theorem Sound.losesNothing (h : Sound n k s) (hunmapped : ∀ p ∈ pagesOf va size, (s.mem.run.paging.page e p).present = false)
    (hs : s.step (.allocateUserMem e va size) = some t) : LosesNothing n k s t := by
  obtain ⟨m, hm, rfl⟩ := Option.map_eq_some_iff.mp hs
  obtain ⟨hmem', -⟩ := h.mem.allocateUnmapped hunmapped hm
  have hhanded : m.run.handed = s.mem.run.handed := by
    obtain ⟨p, -, rfl⟩ := Option.map_eq_some_iff.mp hm
    rfl
  obtain ⟨⟨tables, hi⟩, -⟩ := h.mem.walk
  obtain ⟨⟨tables', hi'⟩, -⟩ := hmem'.walk
  obtain ⟨F, ha⟩ := hi.accounts
  obtain ⟨F', ha'⟩ := hi'.accounts
  refine ⟨⟨F, F', ha.free, ha'.free, ha.free_or_held (hhanded ▸ ha')⟩, ha'.references, fun d hd x hx => ?_⟩
  obtain ⟨f, hf, -⟩ := ((h.ws d hd).allocateUserMem h.mem.walk hunmapped hm).resident.mapped x hx
  exact hf

/-- In every state of a run that has marked no mapped page, `allocate_user_mem` of a region that `sys_allocate_user_mem` accepts
    loses nothing if and only if no page of the region is mapped. -/
theorem mark_request_loses_nothing (hmin : 160 ≤ n) (hn : n ≤ 1048576) (hk : 256 ≤ k) (hboot : Booted n k s₀)
    (hr : Reach step (fun s ev => s.Accepted ev ∧ s.Respects ev) s₀ s) (hs : s.step (.allocateUserMem e va size) = some t) :
    inUserRange va size →
      (LosesNothing n k s t ↔ ∀ p ∈ pagesOf va size, (s.mem.run.paging.page e p).present = false) := by
  have hsound := Sound.reach hmin hn hk hboot hr
  refine fun _ => ⟨fun h p hp => Bool.eq_false_iff.mpr fun hpresent => ?_, fun h => hsound.losesNothing h hs⟩
  obtain ⟨m, hm, rfl⟩ := Option.map_eq_some_iff.mp hs
  obtain ⟨q, hq, rfl⟩ := Option.map_eq_some_iff.mp hm
  obtain ⟨hall, hlt⟩ := Paging.forgotten hsound.mem.walk ⟨hpresent, rfl⟩ hp hq
  exact hlt.ne (h.references _ hall).symm

/-- A new environment marks two pages of its heap. -/
theorem mark_request_loses_nothing_fresh : ∃ s₀ s t : KernelRun Unit, Booted 1024 768 s₀ ∧
    exec step s₀ [.envCreate () 5 "prog" []] = some s ∧ s.step (.allocateUserMem () 2147483648 8192) = some t ∧
      LosesNothing 1024 768 s t := by
  have hrun : ((PagingRun.afterBoot Unit 1024 768).bind fun r₀ => (step (start r₀ {}) (.envCreate () 5 "prog" [])).bind fun s =>
      (s.step (.allocateUserMem () 2147483648 8192)).map fun _ => ((s.mem.run.paging.page () 2147483648).present,
        (s.mem.run.paging.page () 2147487744).present)) = some (false, false) := by
    rw [PagingRun.afterBoot_eq]
    decide +kernel
  obtain ⟨r₀, hboot, hrun⟩ := Option.bind_eq_some_iff.mp hrun
  obtain ⟨s, hs, hrun⟩ := Option.bind_eq_some_iff.mp hrun
  obtain ⟨t, ht, hresult⟩ := Option.map_eq_some_iff.mp hrun
  obtain ⟨hfirst, hsecond⟩ := Prod.mk.inj hresult
  have hboot := booted_start hboot {}
  have hcreate : (start r₀ {}).Allowed (.envCreate () 5 "prog" []) :=
    hboot.allowed_envCreate (by decide) (by decide) (by decide) (by decide) (by decide) ⟨nofun, .nil⟩
  have hr : Reach step (fun s ev => s.Accepted ev ∧ s.Respects ev) (start r₀ {}) s :=
    .step (.envCreate () 5 "prog" []) .init ⟨hcreate, trivial⟩ hs
  refine ⟨start r₀ {}, s, t, hboot, exec_cons.mpr ⟨s, hs, rfl⟩, ht,
    (mark_request_loses_nothing (by decide) (by decide) (by decide) hboot hr ht (by decide)).mpr fun p hp => ?_⟩
  have hp : p ∈ [2147483648, 2147487744] := hp
  simp only [List.mem_cons, List.not_mem_nil, or_false] at hp
  rcases hp with rfl | rfl
  · exact hfirst
  · exact hsecond

/-- A page of the heap is marked, loaded and marked again: its frame is in no list and in no entry any more. -/
theorem mark_request_forgets : ∃ s₀ s t : KernelRun Unit, Booted 1024 768 s₀ ∧
    Reach step (fun s ev => s.Accepted ev ∧ s.Respects ev) s₀ s ∧ s.running () ∧ inUserRange 2147483648 4096 ∧
      s.step (.allocateUserMem () 2147483648 4096) = some t ∧ ¬ LosesNothing 1024 768 s t := by
  have hrun : ((PagingRun.afterBoot Unit 1024 768).bind fun r₀ => (step (start r₀ {}) (.envCreate () 5 "prog" [])).bind fun s₁ =>
      (step s₁ (.allocateUserMem () 2147483648 4096)).bind fun s₂ => (step s₂ (.fault () true 2147483648)).bind fun s =>
      (s.step (.allocateUserMem () 2147483648 4096)).map fun _ => ((s₁.mem.run.paging.page () 2147483648).present, s₂.running (),
        s.running (), (s.mem.run.paging.page () 2147483648).present)) = some (false, true, true, true) := by
    rw [PagingRun.afterBoot_eq]
    decide +kernel
  obtain ⟨r₀, hboot, hrun⟩ := Option.bind_eq_some_iff.mp hrun
  obtain ⟨s₁, hs₁, hrun⟩ := Option.bind_eq_some_iff.mp hrun
  obtain ⟨s₂, hs₂, hrun⟩ := Option.bind_eq_some_iff.mp hrun
  obtain ⟨s, hs, hrun⟩ := Option.bind_eq_some_iff.mp hrun
  obtain ⟨t, ht, hresult⟩ := Option.map_eq_some_iff.mp hrun
  simp only [Prod.mk.injEq] at hresult
  obtain ⟨hunmapped, hrunning₂, hrunning, hpresent⟩ := hresult
  have hboot := booted_start hboot {}
  have hcreate : (start r₀ {}).Allowed (.envCreate () 5 "prog" []) :=
    hboot.allowed_envCreate (by decide) (by decide) (by decide) (by decide) (by decide) ⟨nofun, .nil⟩
  have hnone : ∀ p ∈ pagesOf 2147483648 4096, (s₁.mem.run.paging.page () p).present = false := by
    intro p hp
    obtain rfl : p = 2147483648 := List.mem_singleton.mp hp
    exact hunmapped
  have hr : Reach step (fun s ev => s.Accepted ev ∧ s.Respects ev) (start r₀ {}) s :=
    .step (.fault () true 2147483648) (.step (.allocateUserMem () 2147483648 4096)
      (.step (.envCreate () 5 "prog" []) .init ⟨hcreate, trivial⟩ hs₁)
      ⟨⟨by decide, fun p hp hpresent => (nomatch (hnone p hp).symm.trans hpresent)⟩, hnone⟩ hs₂) ⟨⟨hrunning₂, by decide⟩, trivial⟩ hs
  refine ⟨start r₀ {}, s, t, hboot, hr, hrunning, by decide, ht, fun h => ?_⟩
  have hsound := Sound.reach (by decide) (by decide) (by decide) hboot hr
  obtain ⟨m, hm, rfl⟩ := Option.map_eq_some_iff.mp ht
  obtain ⟨q, hq, rfl⟩ := Option.map_eq_some_iff.mp hm
  obtain ⟨hall, hlt⟩ := Paging.forgotten hsound.mem.walk ⟨hpresent, rfl⟩ (List.mem_singleton_self _) hq
  exact hlt.ne (h.references _ hall).symm

end KernelRun

end Fos.Trap
