import Fos.Trap.ClockVictim
import Fos.Trap.UserRun

/-! Replacement by CLOCK and by Modified CLOCK: the page of the fault gets the slot of the victim, with its `USED` bit set, and
    the hand goes to the successor of the victim. -/

namespace Fos.Mem
open Lib Heap Disk Frames

namespace UserMem

variable {E : Type} [DecidableEq E] {all : List PageNo} {boot : PageNo → Nat} {s t u : UserMem E} {e : E} {va wse hand victim : Nat}
  {l passed : List Nat} {bits : Nat → Bool}

/-- The slot of the victim has been reused for the page `va`, the other elements have their pages and the `USED` bits `bits`, and
    the hand is at the successor of the victim. -/
structure Recycled (e : E) (victim va : Nat) (bits : Nat → Bool) (s t : UserMem E) : Prop where
  list : (t.ws e).list = (s.ws e).list
  page : t.elementVa e victim = va
  pages : ∀ x ∈ (s.ws e).list, x ≠ victim → t.elementVa e x = s.elementVa e x
  used : t.used e victim = true
  bits : ∀ x ∈ (s.ws e).list, x ≠ victim → t.used e x = bits x
  hand : ∀ hmem : victim ∈ (s.ws e).list, (t.ws e).last = some ((s.ws e).list.next victim hmem)

omit [DecidableEq E] in
/-- A write at a page that is not mapped does not meet the pages of the elements. -/
theorem Resident.not_samePage (h : Resident s e l) (hunmapped : (s.run.paging.page e va).present = false) (hx : wse ∈ l) :
    ¬ Paging.SamePage (s.elementVa e wse) va := by
  intro hsame
  obtain ⟨f, hpresent, -⟩ := h.mapped wse hx
  rw [Paging.page_samePage hsame, hunmapped] at hpresent
  exact nomatch hpresent

/-- What the victim's element and the other ones are when the page of the fault is loaded. -/
theorem replaceVictim_served {tested : Bool} (hwalk : s.run.WalkInv all boot) (hres : Resident s e l) (hx : victim ∈ l)
    (hva : va < userTop) (hunmapped : (s.run.paging.page e va).present = false)
    (hs : s.replaceVictim e victim va tested = some (t, .served)) :
    t.run.WalkInv all boot ∧ (t.ws e).list = (s.ws e).list ∧
      (∀ x, t.elementVa e x = if x = victim then va else s.elementVa e x) ∧ t.used e victim = true ∧
      ∀ x ∈ l, x ≠ victim → t.used e x = s.used e x := by
  obtain ⟨s₂, s₃, f, hevicted, -, hloaded, h₃, hcases⟩ := replaceVictim_spec hwalk hva hunmapped hs
  have ht : t = s₃.setWs e ((s₃.ws e).setElement victim { (s₃.ws e).element victim with virtualAddress := va }) :=
    hcases.elim (fun h => nomatch h.1) And.right
  have hws : s₃.ws = s.ws := hloaded.ws.trans hevicted.ws
  have helement : ∀ x, t.elementVa e x = if x = victim then va else s.elementVa e x := by
    intro x
    unfold elementVa
    rw [ht, setWs_self, setElement_va, hws]
  have hrun : t.run = s₃.run := by
    rw [ht]
    rfl
  obtain ⟨p, -, -, hwrites⟩ := hevicted.page
  refine ⟨hrun ▸ h₃, ?_, helement, ?_, fun x hx' hne => ?_⟩
  · rw [ht, setWs_self, hws]
    rfl
  · unfold used elementPerm
    rw [helement, if_pos rfl, hrun, hloaded.page.self, BitVec.getLsbD_or]
    exact Bool.or_eq_true_iff.mpr (.inr rfl)
  · unfold used elementPerm
    rw [helement, if_neg hne, hrun, hloaded.page.others e _ fun h => hres.not_samePage hunmapped hx' h.2,
      hwrites.others e _ fun h => hne (hres.samePage hx' hx h.2)]

/-- The hand goes to the successor after the victim's slot got the page. -/
theorem recycled_of (hnodup : (s.ws e).list.Nodup) (hlist : (t.ws e).list = (s.ws e).list)
    (hpages : ∀ x, t.elementVa e x = if x = victim then va else s.elementVa e x) (hused : t.used e victim = true)
    (hbits : ∀ x ∈ (s.ws e).list, x ≠ victim → t.used e x = bits x) :
    Recycled e victim va bits s (t.setWs e { t.ws e with last := (t.ws e).nextCircular victim }) := by
  have hva : ∀ x, (t.setWs e { t.ws e with last := (t.ws e).nextCircular victim }).elementVa e x = t.elementVa e x := by
    intro x
    unfold elementVa
    rw [setWs_self]
  have hsame : ∀ x, (t.setWs e { t.ws e with last := (t.ws e).nextCircular victim }).used e x = t.used e x := by
    intro x
    unfold used elementPerm
    rw [hva]
    rfl
  refine ⟨?_, ?_, fun x _ hne => ?_, ?_, fun x hx hne => ?_, fun hmem => ?_⟩
  · rw [setWs_self]
    exact hlist
  · rw [hva, hpages, if_pos rfl]
  · rw [hva, hpages, if_neg hne]
  · rw [hsame, hused]
  · rw [hsame, hbits x hx hne]
  · rw [setWs_self]
    dsimp only
    rw [WorkingSet.nextCircular_eq (hlist.symm ▸ hnodup) (hlist.symm ▸ hmem)]
    simp only [hlist]

omit [DecidableEq E] in
/-- The page of the fault is not mapped when the victim is found. -/
theorem unmapped_roundDown (h : Aged all boot e s t) (hunmapped : (s.run.paging.page e va).present = false) :
    (t.run.paging.page e (roundDown va pageSize)).present = false := by
  rw [(h.page ..).present, Paging.page_samePage (Trap.Kernel.samePage_roundDown va), hunmapped]

theorem find_mem (hmem : hand ∈ l) (p : Nat → Bool) : ((circleFrom l hand).find? p).getD hand ∈ l := by
  cases hfind : (circleFrom l hand).find? p with
  | none => exact hmem
  | some v => exact mem_circleFrom.mp (List.mem_of_find?_eq_some hfind)

/-- CLOCK, for every full working set and all `USED` bits: the loop ends, the victim is the first element from the hand that is
    not used, or the hand itself, and what is passed before it is cleared. A fault that is served then reuses its slot. -/
theorem clock_replacement (h : MemInv all boot s) (hws : WsInv s e) (hfull : (s.ws e).list.length = (s.ws e).maxSize)
    (hlast : (s.ws e).last = some hand) (hva : va < userTop) (hunmapped : (s.run.paging.page e va).present = false) :
    let order := circleFrom (s.ws e).list hand
    let victim := (order.find? fun x => !s.used e x).getD hand
    let bits := cleared (s.used e) (order.takeWhile (s.used e))
    (∃ t, (∀ n, (s.ws e).list.length < n → clockVictim e n s = some (t, victim)) ∧ ∀ x ∈ (s.ws e).list, t.used e x = bits x) ∧
      ∀ t, pageFaultHandler .clock s e va = some (t, .served) → Recycled e victim (roundDown va pageSize) bits s t := by
  intro order victim bits
  have hhand := hws.hand hand hlast
  obtain ⟨u, hswept, hloop⟩ := clockVictim_eq h.walk hws.resident (h.nodup e) hlast hhand
  refine ⟨⟨u, hloop, hswept.used⟩, fun t ht => ?_⟩
  unfold pageFaultHandler at ht
  rw [if_neg (Nat.not_lt.mpr hfull.ge)] at ht
  obtain ⟨⟨u', x⟩, hu, ht⟩ := Option.bind_eq_some_iff.mp ht
  obtain ⟨⟨v, o⟩, hv, heq⟩ := Option.map_eq_some_iff.mp ht
  rw [hloop _ (Nat.lt_succ_self _)] at hu
  cases hu
  cases o with
  | exit => exact nomatch heq
  | kernelFault => exact nomatch heq
  | served =>
    cases heq
    obtain ⟨-, hlist, hpages, hused, hbits⟩ := replaceVictim_served (hswept.walk h.walk) (hws.resident.aged hswept.toAged)
      (find_mem hhand _) (lt_of_le_of_lt (Nat.sub_le ..) hva) (unmapped_roundDown hswept.toAged hunmapped) hv
    refine recycled_of (h.nodup e) (hlist.trans hswept.list) (fun x => ?_) hused fun x hx hne => ?_
    · rw [hpages, hswept.elementVa]
      rfl
    · rw [hbits x hx hne, hswept.used x hx]

omit [DecidableEq E] in
/-- The `USED` bit of the new page is set once more. -/
theorem setUsed_spec {r : PagingRun E} (hwalk : s.run.WalkInv all boot) (hr : s.run.ptSetPagePermissions e va permUsed 0 = some r)
    (hpage : s.elementVa e victim = va) : (s.setRun r).used e victim = true ∧
      ∀ x, ¬ Paging.SamePage (s.elementVa e x) va → (s.setRun r).used e x = s.used e x := by
  obtain ⟨-, hwrites, -⟩ := hwalk.ptSetPagePermissions ⟨permUsed_bit (by decide), permUsed_bit (by decide)⟩ rfl hr
  refine ⟨?_, fun x hne => ?_⟩
  · have hself : (s.setRun r).elementPerm e victim = (s.elementPerm e victim ||| permUsed) &&& ~~~ 0 := by
      unfold elementPerm
      rw [show (s.setRun r).elementVa e victim = va from hpage, hpage]
      exact congrArg Pte.perm hwrites.self
    unfold used
    rw [hself, and_not_zero, BitVec.getLsbD_or]
    exact Bool.or_eq_true_iff.mpr (.inr rfl)
  · exact congrArg (fun p : Pte => p.perm.getLsbD 5) (hwrites.others e _ fun h => hne h.2)

/-- Modified CLOCK, for every working set with an element, every hand and all bits: the code has the victim and leaves the bits
    of the rounds without a bound. A fault that is served then reuses the victim's slot, and the hand is behind it. -/
theorem modified_clock_alternates (h : MemInv all boot s) (hws : WsInv s e) (hne : (s.ws e).list ≠ []) :
    ∃ start ∈ (s.ws e).list, (s.ws e).last.or (s.ws e).list.head? = some start ∧ ∃ t victim bits,
      s.modifiedClockVictim e = some (t, victim) ∧ (t.ws e).last = (s.ws e).last ∧
      (∀ x ∈ (s.ws e).list, t.used e x = bits x) ∧
      (∀ v u, Alternates (circleFrom (s.ws e).list start) (s.modified e) (s.used e) v u ↔ v = victim ∧ u = bits) ∧
      ∀ va t', va < userTop → (s.run.paging.page e va).present = false →
        s.replaceModifiedClock e (roundDown va pageSize) = some (t', .served) →
          Recycled e victim (roundDown va pageSize) bits s t' := by
  obtain ⟨start, hstart, hmem⟩ : ∃ start, (s.ws e).last.or (s.ws e).list.head? = some start ∧ start ∈ (s.ws e).list := by
    cases hlast : (s.ws e).last with
    | some hand => exact ⟨hand, rfl, hws.hand hand hlast⟩
    | none => exact ⟨_, List.head?_eq_some_head hne, List.head_mem hne⟩
  obtain ⟨t, ht, haged, htws, hbits⟩ := modifiedClockVictim_eq h.walk hws.resident (h.nodup e) hstart hmem
  generalize hr : threeRounds (circleFrom (s.ws e).list start) start (s.modified e) (s.used e) = r at ht hbits
  obtain ⟨rest, horder⟩ := circleFrom_eq_cons hmem
  have halternates : ∀ v u, Alternates (circleFrom (s.ws e).list start) (s.modified e) (s.used e) v u ↔ v = r.1 ∧ u = r.2 := by
    intro v u
    rw [horder] at hr ⊢
    rw [alternates_iff, hr, Prod.ext_iff, eq_comm, and_congr_right_iff]
    exact fun _ => eq_comm
  have hvictim : r.1 ∈ (s.ws e).list := (modifiedClockVictim_spec h.walk hws.hand ht).2
  refine ⟨start, hmem, hstart, t, r.1, r.2, ht, by rw [htws], hbits, halternates, fun va t' hva hunmapped ht' => ?_⟩
  obtain ⟨⟨t₁, x⟩, ht₁, ht'⟩ := Option.bind_eq_some_iff.mp ht'
  rw [ht] at ht₁
  cases ht₁
  obtain ⟨⟨v, o⟩, hv, ht'⟩ := Option.bind_eq_some_iff.mp ht'
  cases o with
  | exit => exact nomatch ht'
  | kernelFault => exact nomatch ht'
  | served =>
    obtain ⟨r', hr', heq⟩ := Option.map_eq_some_iff.mp ht'
    cases heq
    have hres := hws.resident.aged haged
    have hunmapped' := unmapped_roundDown haged hunmapped
    obtain ⟨hwalk, hlist, hpages, -, hused⟩ := replaceVictim_served (haged.walk h.walk) hres hvictim
      (lt_of_le_of_lt (Nat.sub_le ..) hva) hunmapped' hv
    obtain ⟨hset, hkept⟩ := setUsed_spec hwalk hr' ((hpages r.1).trans (if_pos rfl))
    refine recycled_of (t := v.setRun r') (h.nodup e) (hlist.trans haged.list) (fun x => ?_) hset fun x hx hne => ?_
    · rw [← haged.elementVa]
      exact hpages x
    · rw [hkept x, hused x hx hne, hbits x hx]
      rw [hpages, if_neg hne]
      exact hres.not_samePage hunmapped' hx

end UserMem

end Fos.Mem

namespace Fos.Trap.KernelRun
open Lib Heap Disk Mem

/-- An environment with room for two pages has loaded the first page of its heap and runs into a fault at the second one. -/
theorem second_page : ∃ s₀ s : KernelRun Unit, Booted 1024 768 s₀ ∧ exec userStep s₀ [.kernel (.envCreate () 2 "prog" []),
    .kernel (.allocateUserMem () 2147483648 8192), .kernel (.fault () true 2147483648)] = some s ∧ UserInv 1024 768 s ∧
      s.running () ∧ (s.mem.ws ()).list.length = 2 ∧ (s.mem.ws ()).maxSize = 2 ∧
      (s.mem.run.paging.page () 2147487744).present = false ∧
      (∃ t, UserMem.pageFaultHandler .clock s.mem () 2147487744 = some (t, .served)) ∧
      ∃ t, s.mem.replaceModifiedClock () 2147487744 = some (t, .served) := by
  have hrun : ((PagingRun.afterBoot Unit 1024 768).bind fun r₀ =>
      (userStep (start r₀ (smallDisk 3)) (.kernel (.envCreate () 2 "prog" []))).bind fun s₁ =>
      (userStep s₁ (.kernel (.allocateUserMem () 2147483648 8192))).bind fun s₂ =>
      (userStep s₂ (.kernel (.fault () true 2147483648))).map fun s =>
        decide ((s₁.mem.run.paging.page () 2147483648).present = false ∧ (s₁.mem.run.paging.page () 2147487744).present = false ∧
          s₂.running () ∧ s.running () ∧ (s.mem.ws ()).list.length = 2 ∧ (s.mem.ws ()).maxSize = 2 ∧
          (s.mem.run.paging.page () 2147487744).present = false ∧
          (UserMem.pageFaultHandler .clock s.mem () 2147487744).map Prod.snd = some .served ∧
          (s.mem.replaceModifiedClock () 2147487744).map Prod.snd = some .served)) = some true := by
    rw [PagingRun.afterBoot_eq]
    decide +kernel
  obtain ⟨r₀, hboot, hrun⟩ := Option.bind_eq_some_iff.mp hrun
  obtain ⟨s₁, hs₁, hrun⟩ := Option.bind_eq_some_iff.mp hrun
  obtain ⟨s₂, hs₂, hrun⟩ := Option.bind_eq_some_iff.mp hrun
  obtain ⟨s, hs, hresult⟩ := Option.map_eq_some_iff.mp hrun
  obtain ⟨hfirst, hsecond, hrunning₂, hrunning, hlength, hmax, hunmapped, hclock, hmodified⟩ := of_decide_eq_true hresult
  obtain ⟨⟨t, o⟩, ht, rfl⟩ := Option.map_eq_some_iff.mp hclock
  obtain ⟨⟨t', o'⟩, ht', rfl⟩ := Option.map_eq_some_iff.mp hmodified
  have hboot := booted_start hboot (smallDisk 3)
  have hnone : ∀ p ∈ pagesOf 2147483648 8192, (s₁.mem.run.paging.page () p).present = false := by
    intro p hp
    rcases List.mem_pair.mp hp with rfl | rfl
    · exact hfirst
    · exact hsecond
  have hcreate : (start r₀ (smallDisk 3)).Allowed (.envCreate () 2 "prog" []) :=
    hboot.allowed_envCreate (by decide) (by decide) (by decide) (by decide) (by decide) ⟨nofun, .nil⟩
  have hr : Reach userStep UserAccepted (start r₀ (smallDisk 3)) s :=
    .step (.kernel (.fault () true 2147483648)) (.step (.kernel (.allocateUserMem () 2147483648 8192))
      (.step (.kernel (.envCreate () 2 "prog" [])) .init ⟨hcreate, trivial, trivial⟩ hs₁)
      ⟨⟨by decide, fun p hp hpresent => (nomatch (hnone p hp).symm.trans hpresent)⟩, hnone, trivial⟩ hs₂)
      ⟨⟨hrunning₂, by decide⟩, trivial, trivial⟩ hs
  exact ⟨start r₀ (smallDisk 3), s, hboot, exec_cons.mpr ⟨s₁, hs₁, exec_cons.mpr ⟨s₂, hs₂, exec_cons.mpr ⟨s, hs, rfl⟩⟩⟩,
    .reach (by decide) (by decide) (by decide) hboot hr, hrunning, hlength, hmax, hunmapped, ⟨t, ht⟩, t', ht'⟩

/-- CLOCK replaces a page of the environment by the second page of its heap. -/
theorem clock_replacement_second : ∃ s₀ s : KernelRun Unit, ∃ t hand victim bits, Booted 1024 768 s₀ ∧ exec userStep s₀
    [.kernel (.envCreate () 2 "prog" []), .kernel (.allocateUserMem () 2147483648 8192), .kernel (.fault () true 2147483648)] = some s ∧
      (s.mem.ws ()).last = some hand ∧ victim = ((circleFrom (s.mem.ws ()).list hand).find? fun x => !s.mem.used () x).getD hand ∧
      UserMem.pageFaultHandler .clock s.mem () 2147487744 = some (t, .served) ∧
      UserMem.Recycled () victim 2147487744 bits s.mem t := by
  obtain ⟨s₀, s, hboot, hs, hi, hrunning, hlength, hmax, hunmapped, ⟨t, ht⟩, -⟩ := second_page
  have hws := hi.ws () hrunning
  obtain ⟨hand, hhand⟩ := Option.ne_none_iff_exists'.mp (hws.full (hlength.trans hmax.symm))
  obtain ⟨-, hrecycled⟩ := UserMem.clock_replacement hi.mem hws (hlength.trans hmax.symm) hhand (by decide) hunmapped
  exact ⟨s₀, s, t, hand, _, _, hboot, hs, hhand, rfl, ht, hrecycled t ht⟩

/-- Modified CLOCK does the same. -/
theorem modified_clock_alternates_second : ∃ s₀ s : KernelRun Unit, ∃ t start victim bits, Booted 1024 768 s₀ ∧ exec userStep s₀
    [.kernel (.envCreate () 2 "prog" []), .kernel (.allocateUserMem () 2147483648 8192), .kernel (.fault () true 2147483648)] = some s ∧
      Alternates (circleFrom (s.mem.ws ()).list start) (s.mem.modified ()) (s.mem.used ()) victim bits ∧
      s.mem.replaceModifiedClock () 2147487744 = some (t, .served) ∧ UserMem.Recycled () victim 2147487744 bits s.mem t := by
  obtain ⟨s₀, s, hboot, hs, hi, hrunning, hlength, -, hunmapped, -, t, ht⟩ := second_page
  have hne : (s.mem.ws ()).list ≠ [] := by
    rw [← List.length_pos_iff, hlength]
    exact Nat.two_pos
  obtain ⟨start, -, -, -, victim, bits, -, -, -, halternates, hrecycled⟩ :=
    UserMem.modified_clock_alternates hi.mem (hi.ws () hrunning) hne
  exact ⟨s₀, s, t, start, victim, bits, hboot, hs, (halternates victim bits).mpr ⟨rfl, rfl⟩, ht,
    hrecycled 2147487744 t (by decide) hunmapped ht⟩

end Fos.Trap.KernelRun
