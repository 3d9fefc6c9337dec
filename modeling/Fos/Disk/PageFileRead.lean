import Fos.Disk.PageFileInv
import Fos.Mem.Walk

/-! What is read from the page file after another page was added or updated. -/

namespace Fos.Disk.PageFile
open Lib Mem Heap

variable {E : Type} [DecidableEq E] {s s' : PageFile E} {e d : E} {va q : Nat} {page : Page} {x : E × Fin 1024 × Fin 1024}

/-- The key of a page. -/
def key (e : E) (va : Nat) : E × Fin 1024 × Fin 1024 := (e, pdx va, ptx va)

omit [DecidableEq E] in
theorem pfReadEnvPage_eq (s : PageFile E) (e : E) (va : Nat) : s.pfReadEnvPage e va = (s.hold (key e va)).map s.data := by
  unfold pfReadEnvPage hold key
  cases s.table e (pdx va) with
  | none => rfl
  | some t =>
    simp only [Option.bind_some]
    split <;> rfl

omit [DecidableEq E] in
theorem pfReadEnvPage_eq_none : s.pfReadEnvPage e va = none ↔ s.hold (key e va) = none := by
  rw [pfReadEnvPage_eq, Option.map_eq_none_iff]

/-- A disk frame is taken for one page. -/
theorem diskFrameOf_others {r : Option Nat} (hs : s.diskFrameOf e va = some (s', r)) (hx : x ≠ key e va) : s'.hold x = s.hold x := by
  obtain ⟨s₁, t, hopen, ht, hhold, -, -, -⟩ := opened s e va
  unfold diskFrameOf at hs
  obtain ⟨-, hs⟩ := Option.ite_none_right_eq_some.mp hs
  simp only [hopen] at hs
  rw [← hhold]
  split at hs
  case isTrue =>
    cases halloc : s₁.allocateDiskFrame with
    | none =>
      rw [halloc] at hs
      cases hs
      rfl
    | some q =>
      obtain ⟨s₂, dfn⟩ := q
      rw [halloc] at hs
      cases hs
      obtain ⟨_, -, heq⟩ := Option.map_eq_some_iff.mp halloc
      have htable : s₂.table = s₁.table := by
        rw [← (Prod.mk.inj heq).1]
        rfl
      rw [hold_setTable ((congrFun (congrFun htable e) (pdx va)).trans ht)]
      exact (Function.update_of_ne hx ..).trans (congrFun (hold_of_table htable) x)
  case isFalse =>
    cases hs
    rfl

theorem addIfAbsent_others (hs : s.addIfAbsent e va = some s') (hx : x ≠ key e va) : s'.hold x = s.hold x := by
  have hadd : addIfAbsent.addEmpty s e va = some s' → s'.hold x = s.hold x := by
    intro hs
    obtain ⟨-, hs⟩ := Option.ite_none_right_eq_some.mp hs
    obtain ⟨⟨s₁, r⟩, hs₁, hs⟩ := Option.bind_eq_some_iff.mp hs
    obtain ⟨⟨s₂, q⟩, hs₂, heq⟩ := Option.map_eq_some_iff.mp hs₁
    have h₂ := diskFrameOf_others hs₂ hx
    cases q with
    | some dfn =>
      cases heq
      cases hs
      exact h₂
    | none =>
      cases heq
      exact nomatch hs
  unfold addIfAbsent at hs
  split at hs
  · split at hs
    · exact hadd hs
    · cases hs
      rfl
  · exact hadd hs

/-- An update records no disk frame for another page. -/
theorem pfUpdateEnvPage_others (hs : s.pfUpdateEnvPage e va page = some s') (hx : x ≠ key e va) : s'.hold x = s.hold x := by
  obtain ⟨-, hs⟩ := Option.ite_none_right_eq_some.mp hs
  obtain ⟨s₁, hs₁, hs⟩ := Option.bind_eq_some_iff.mp hs
  obtain ⟨t, -, rfl⟩ := Option.map_eq_some_iff.mp hs
  exact (addIfAbsent_others hs₁ hx).trans (congrFun (hold_of_table (getDiskPageDirectory_spec s e).1) x)

/-- A page that is not in the page file is not there after an update of another page. -/
theorem pfUpdateEnvPage_absent (hs : s.pfUpdateEnvPage e va page = some s') (hne : ¬ (d = e ∧ Paging.SamePage q va))
    (hnone : s.pfReadEnvPage d q = none) : s'.pfReadEnvPage d q = none := by
  rw [pfReadEnvPage_eq_none] at hnone ⊢
  rw [pfUpdateEnvPage_others hs, hnone]
  intro heq
  simp only [key, Prod.mk.injEq] at heq
  exact hne heq

/-! ### A page that is left alone -/

/-- The event is about the page of the key, or frees the whole environment. -/
def Touches (x : E × Fin 1024 × Fin 1024) : PfEvent E → Prop
  | .addEmpty e va _ => key e va = x
  | .add e va _ => key e va = x
  | .update e va _ => key e va = x
  | .remove e va => key e va = x
  | .freeEnv e => e = x.1

variable {dfn : Nat}

theorem Inv.diskFrameOf_kept {r : Option Nat} (hi : Inv s) (hva : va < userTop) (hs : s.diskFrameOf e va = some (s', r))
    (hx : x ≠ key e va) (hd : s.hold x = some dfn) :
    Inv s' ∧ s'.hold x = some dfn ∧ s'.data dfn = s.data dfn ∧ ∀ d, r = some d → d ≠ dfn := by
  obtain ⟨hi', hdata, hcases⟩ := hi.diskFrameOf hva hs
  have hhold := (diskFrameOf_others hs hx).trans hd
  refine ⟨hi', hhold, congrFun hdata dfn, ?_⟩
  rintro d rfl rfl
  rcases hcases with ⟨d', hd', hupdate, -⟩ | ⟨hnone, -⟩
  · cases hd'
    obtain ⟨F, -, hled⟩ := hi'.ledger
    refine hx (hled.unique x (key e va) d hhold ?_)
    rw [hupdate]
    exact Function.update_self ..
  · exact nomatch hnone

theorem Inv.pfAddEnvPage_kept {r : PfResult} (hi : Inv s) (hva : va < userTop) (hs : s.pfAddEnvPage e va page = some (s', r))
    (hx : x ≠ key e va) (hd : s.hold x = some dfn) : s'.hold x = some dfn ∧ s'.data dfn = s.data dfn := by
  obtain ⟨⟨s₁, q⟩, hq, heq⟩ := Option.map_eq_some_iff.mp hs
  obtain ⟨-, hhold, hdata, hne⟩ := hi.diskFrameOf_kept hva hq hx hd
  cases q with
  | some d =>
    cases heq
    exact ⟨hhold, (Function.update_of_ne (hne d rfl).symm ..).trans hdata⟩
  | none =>
    cases heq
    exact ⟨hhold, hdata⟩

theorem Inv.pfAddEmptyEnvPage_kept {zero : Bool} {r : PfResult} (hi : Inv s) (hva : va < userTop)
    (hs : s.pfAddEmptyEnvPage e va zero = some (s', r)) (hx : x ≠ key e va) (hd : s.hold x = some dfn) :
    s'.hold x = some dfn ∧ s'.data dfn = s.data dfn := by
  cases zero with
  | true => exact hi.pfAddEnvPage_kept hva hs hx hd
  | false =>
    obtain ⟨⟨s₁, q⟩, hq, heq⟩ := Option.map_eq_some_iff.mp hs
    obtain ⟨-, hhold, hdata, -⟩ := hi.diskFrameOf_kept hva hq hx hd
    cases q <;> cases heq <;> exact ⟨hhold, hdata⟩

theorem Inv.addIfAbsent_kept (hi : Inv s) (hva : va < userTop) (hs : s.addIfAbsent e va = some s') (hx : x ≠ key e va)
    (hd : s.hold x = some dfn) : s'.hold x = some dfn ∧ s'.data dfn = s.data dfn := by
  have hadd : addIfAbsent.addEmpty s e va = some s' → s'.hold x = some dfn ∧ s'.data dfn = s.data dfn := by
    intro hs
    obtain ⟨-, hs⟩ := Option.ite_none_right_eq_some.mp hs
    obtain ⟨⟨s₁, r⟩, hs₁, hs⟩ := Option.bind_eq_some_iff.mp hs
    cases r with
    | success =>
      cases hs
      exact hi.pfAddEmptyEnvPage_kept hva hs₁ hx hd
    | noPageFileSpace => exact nomatch hs
  unfold PageFile.addIfAbsent at hs
  split at hs
  · split at hs
    · exact hadd hs
    · cases hs
      exact ⟨hd, rfl⟩
  · exact hadd hs

theorem Inv.pfUpdateEnvPage_kept (hi : Inv s) (hva : va < userTop) (hs : s.pfUpdateEnvPage e va page = some s')
    (hx : x ≠ key e va) (hd : s.hold x = some dfn) : s'.hold x = some dfn ∧ s'.data dfn = s.data dfn := by
  obtain ⟨-, hs⟩ := Option.ite_none_right_eq_some.mp hs
  obtain ⟨s₁, hs₁, hs⟩ := Option.bind_eq_some_iff.mp hs
  obtain ⟨t, ht, rfl⟩ := Option.map_eq_some_iff.mp hs
  obtain ⟨htable, -, -, hdata₀⟩ := getDiskPageDirectory_spec s e
  have hi₀ := hi.getDiskPageDirectory (e := e)
  obtain ⟨hhold₁, hdata₁⟩ := hi₀.addIfAbsent_kept hva hs₁ hx ((congrFun (hold_of_table htable) x).trans hd)
  refine ⟨hhold₁, (Function.update_of_ne ?_ ..).trans (hdata₁.trans (congrFun hdata₀ dfn))⟩
  -- The frame that is written is recorded for the page of the update, and no frame is recorded twice.
  rintro rfl
  obtain ⟨F, -, hled⟩ := (hi₀.addIfAbsent hva hs₁).ledger
  have hpos := (hled.held_mem x _ hhold₁).1
  refine hx (hled.unique x (key e va) _ hhold₁ ?_)
  show s₁.hold (e, pdx va, ptx va) = _
  rw [hold_eq ht, if_neg (by omega)]

omit [DecidableEq E] in
theorem freeDiskFrame_kept (s : PageFile E) (n : Nat) :
    (s.freeDiskFrame n).pgdir = s.pgdir ∧ (s.freeDiskFrame n).hold = s.hold ∧ (s.freeDiskFrame n).data = s.data := by
  unfold freeDiskFrame
  split <;> exact ⟨rfl, rfl, rfl⟩

theorem pfRemoveEnvPage_kept (hx : x ≠ key e va) (hd : s.hold x = some dfn) :
    (s.pfRemoveEnvPage e va).hold x = some dfn ∧ (s.pfRemoveEnvPage e va).data dfn = s.data dfn := by
  unfold pfRemoveEnvPage
  split
  case h_1 => exact ⟨hd, rfl⟩
  case h_2 t ht =>
    obtain ⟨-, hhold, hdata⟩ := freeDiskFrame_kept (s.setTable e (pdx va) (some (Function.update t (ptx va) 0))) (t (ptx va))
    refine ⟨?_, congrFun hdata dfn⟩
    rw [hhold, hold_setTable ht]
    exact (Function.update_of_ne hx ..).trans hd

/-- What a free of the environment `e` leaves alone. -/
def OthersKept (e : E) (s s' : PageFile E) : Prop := (∀ d, d ≠ e → s'.pgdir d = s.pgdir d) ∧ s'.data = s.data

omit [DecidableEq E] in
theorem OthersKept.trans {t : PageFile E} (h : OthersKept e s s') (h' : OthersKept e s' t) : OthersKept e s t :=
  ⟨fun d hd => (h'.1 d hd).trans (h.1 d hd), h'.2.trans h.2⟩

omit [DecidableEq E] in
theorem OthersKept.foldl {α : Type} {body : PageFile E → α → PageFile E} (hbody : ∀ s a, OthersKept e s (body s a))
    (l : List α) (s : PageFile E) : OthersKept e s (l.foldl body s) := by
  induction l generalizing s with
  | nil => exact ⟨fun _ _ => rfl, rfl⟩
  | cons a l ih => exact (hbody s a).trans (ih (body s a))

theorem othersKept_setTable (s : PageFile E) (e : E) (i : Fin 1024) (t : Option DiskTable) : OthersKept e s (s.setTable e i t) :=
  ⟨fun _ hd => Function.update_of_ne hd .., rfl⟩

theorem othersKept_freeDiskEntry (e : E) (i : Fin 1024) (s : PageFile E) (j : Fin 1024) :
    OthersKept e s (freeDiskEntry e i s j) := by
  unfold freeDiskEntry
  split
  · exact ⟨fun _ _ => rfl, rfl⟩
  · obtain ⟨hdir, -, hdata⟩ := freeDiskFrame_kept (s.setTable e i _) _
    exact (othersKept_setTable s e i _).trans ⟨fun d _ => congrFun hdir d, hdata⟩

theorem othersKept_freeDiskTable (e : E) (s : PageFile E) (i : Fin 1024) : OthersKept e s (freeDiskTable e s i) := by
  unfold freeDiskTable
  split
  · exact ⟨fun _ _ => rfl, rfl⟩
  · exact (OthersKept.foldl (othersKept_freeDiskEntry e i) _ s).trans (othersKept_setTable _ e i none)

theorem pfFreeEnv_kept (hs : s.pfFreeEnv e = some s') (hx : e ≠ x.1) (hd : s.hold x = some dfn) :
    s'.hold x = some dfn ∧ s'.data dfn = s.data dfn := by
  simp only [PageFile.pfFreeEnv, Option.ite_none_right_eq_some, Option.some.injEq] at hs
  obtain ⟨-, rfl⟩ := hs
  obtain ⟨hdir, hdata⟩ := OthersKept.foldl (othersKept_freeDiskTable e) ((List.finRange 1024).filter (· < pdx userTop)) s
  generalize ((List.finRange 1024).filter (· < pdx userTop)).foldl (freeDiskTable e) s = s₁ at hdir hdata
  refine ⟨?_, congrFun hdata dfn⟩
  rw [← hd]
  unfold hold table
  dsimp only
  rw [Function.update_of_ne hx.symm, hdir _ hx.symm]

/-- The disk frame of a page and its content stay as long as the page is left alone. -/
theorem Inv.step_kept {ev : PfEvent E} (hi : Inv s) (hallowed : Allowed ev) (hnot : ¬ Touches x ev) (hs : s.step ev = some s')
    (hd : s.hold x = some dfn) : s'.hold x = some dfn ∧ s'.data dfn = s.data dfn := by
  obtain ⟨⟨t, r⟩, hcall, rfl⟩ := Option.map_eq_some_iff.mp hs
  cases ev with
  | addEmpty e va zero => exact hi.pfAddEmptyEnvPage_kept hallowed hcall (Ne.symm hnot) hd
  | add e va page => exact hi.pfAddEnvPage_kept hallowed hcall (Ne.symm hnot) hd
  | update e va page =>
    obtain ⟨u, hu, heq⟩ := Option.map_eq_some_iff.mp hcall
    cases heq
    exact hi.pfUpdateEnvPage_kept hallowed hu (Ne.symm hnot) hd
  | remove e va =>
    cases hcall
    exact pfRemoveEnvPage_kept (Ne.symm hnot) hd
  | freeEnv e =>
    obtain ⟨u, hu, heq⟩ := Option.map_eq_some_iff.mp hcall
    cases heq
    exact pfFreeEnv_kept hu hnot hd

end Fos.Disk.PageFile
