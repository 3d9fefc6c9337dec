import Fos.Disk.PageFile
import Fos.Lib.Ledger
import Mathlib.Order.Interval.Finset.Nat

/-! Every disk frame but the first is in the free list or is recorded for exactly one page of one environment, and
    requests that find no space change nothing. -/

namespace Fos.Disk.PageFile
open Lib Mem Heap

variable {E : Type} [DecidableEq E] {s s' : PageFile E} {e : E} {va dfn : Nat} {i j : Fin 1024} {t : DiskTable}

/-- The disk frame that is recorded for a page of an environment. -/
def hold (s : PageFile E) (x : E × Fin 1024 × Fin 1024) : Option Nat :=
  (s.table x.1 x.2.1).bind fun t => if t x.2.2 = 0 then none else some (t x.2.2)

/-- The disk frames that are given out. -/
def diskFrames : Set Nat := {f | 1 ≤ f ∧ f < pagesPerFile}

/-- The disk frames are split between the free list and the pages, and tables are below `USER_TOP`. -/
structure Inv (s : PageFile E) : Prop where
  ledger : ∃ F, (s.diskFreeFrameList.Spells fun _ => F) ∧ Ledger diskFrames F s.hold
  below : ∀ e i, pdx userTop ≤ i → s.table e i = none

omit [DecidableEq E] in
theorem hold_eq (h : s.table e i = some t) : s.hold (e, i, j) = if t j = 0 then none else some (t j) := by
  simp only [hold, h, Option.bind_some]

omit [DecidableEq E] in
theorem hold_of_table (h : s'.table = s.table) : s'.hold = s.hold := by
  funext x
  simp only [hold, h]

theorem table_setTable (h : s.table e i ≠ none ∨ (s.pgdir e).isSome) (u : Option DiskTable) (e' : E) (i' : Fin 1024) :
    (s.setTable e i u).table e' i' = if e' = e ∧ i' = i then u else s.table e' i' := by
  have hdir : ∃ d, s.pgdir e = some d := by
    rcases h with h | h
    · obtain ⟨t, ht⟩ := Option.ne_none_iff_exists'.mp h
      obtain ⟨d, hd, -⟩ := Option.bind_eq_some_iff.mp ht
      exact ⟨d, hd⟩
    · exact Option.isSome_iff_exists.mp h
  obtain ⟨d, hd⟩ := hdir
  by_cases he : e' = e
  · subst he
    by_cases hi : i' = i
    · simp [table, setTable, hd, hi]
    · simp [table, setTable, hd, hi]
  · simp [table, setTable, he]

/-- An entry of a table is written. -/
theorem hold_setTable (h : s.table e i = some t) (v : Nat) :
    (s.setTable e i (some (Function.update t j v))).hold =
      Function.update s.hold (e, i, j) (if v = 0 then none else some v) := by
  have htable := table_setTable (.inl (by rw [h]; exact nofun)) (some (Function.update t j v))
  funext ⟨e', i', j'⟩
  by_cases hx : e' = e ∧ i' = i
  · obtain ⟨rfl, rfl⟩ := hx
    rw [hold_eq ((htable e' i').trans (if_pos ⟨rfl, rfl⟩))]
    by_cases hj : j' = j
    · rw [hj, Function.update_self, Function.update_self]
    · have hne : (e', i', j') ≠ (e', i', j) := by
        intro heq
        cases heq
        exact hj rfl
      rw [Function.update_of_ne hj, Function.update_of_ne hne, hold_eq h]
  · have hne : (e', i', j') ≠ (e, i, j) := by
      intro heq
      cases heq
      exact hx ⟨rfl, rfl⟩
    rw [Function.update_of_ne hne]
    simp only [hold, htable, if_neg hx]

theorem pdx_lt (hva : va < userTop) : ¬ pdx userTop ≤ pdx va := by
  simp only [userTop] at hva
  simp only [pdx, Fin.le_def, Fin.ofNat, userTop]
  omega

theorem getDiskPageDirectory_spec (s : PageFile E) (e : E) : (s.getDiskPageDirectory e).table = s.table ∧
    ((s.getDiskPageDirectory e).pgdir e).isSome ∧
    (s.getDiskPageDirectory e).diskFreeFrameList = s.diskFreeFrameList ∧ (s.getDiskPageDirectory e).data = s.data := by
  unfold getDiskPageDirectory
  split
  · rename_i d hd
    exact ⟨rfl, Option.isSome_iff_exists.mpr ⟨d, hd⟩, rfl, rfl⟩
  · rename_i hd
    refine ⟨?_, by simp, rfl, rfl⟩
    funext e' i
    by_cases he : e' = e
    · subst he
      simp [table, hd]
    · simp [table, he]

/-- The directory and the table of a page are there, and a table that was made is empty. -/
theorem opened (s : PageFile E) (e : E) (va : Nat) :
    ∃ s₁ t, (s.getDiskPageDirectory e).getDiskPageTable e va true = (s₁, some t) ∧ s₁.table e (pdx va) = some t ∧
      s₁.hold = s.hold ∧ s₁.diskFreeFrameList = s.diskFreeFrameList ∧ s₁.data = s.data ∧
      ∀ e' i, s.table e' i = none → e' = e ∧ i = pdx va ∨ s₁.table e' i = none := by
  obtain ⟨htable, hdir, hfree, hdata⟩ := getDiskPageDirectory_spec s e
  generalize s.getDiskPageDirectory e = s₀ at htable hdir hfree hdata
  rw [← htable, ← hold_of_table htable, ← hfree, ← hdata]
  cases ht : s₀.table e (pdx va) with
  | some t =>
    refine ⟨s₀, t, ?_, ht, rfl, rfl, rfl, fun _ _ h => .inr h⟩
    simp only [getDiskPageTable, ht]
  | none =>
    have hset := table_setTable (i := pdx va) (.inr hdir) (some fun _ => 0)
    refine ⟨s₀.setTable e (pdx va) (some fun _ => 0), fun _ => 0, ?_, (hset e (pdx va)).trans (if_pos ⟨rfl, rfl⟩), ?_, rfl, rfl,
      fun e' i h => ?_⟩
    · simp only [getDiskPageTable, ht, if_true]
    · funext ⟨e', i, j⟩
      by_cases hx : e' = e ∧ i = pdx va
      · obtain ⟨rfl, rfl⟩ := hx
        simp [hold, hset, ht]
      · simp only [hold, hset, if_neg hx]
    · by_cases hx : e' = e ∧ i = pdx va
      · exact .inl hx
      · exact .inr (by rw [hset, if_neg hx]; exact h)

/-- What `pf_add_empty_env_page` and `pf_add_env_page` do to the disk frames: the page has one already, or it takes one,
    or there is none. -/
theorem Inv.diskFrameOf {r : Option Nat} (hi : Inv s) (hva : va < userTop) (hs : s.diskFrameOf e va = some (s', r)) :
    Inv s' ∧ s'.data = s.data ∧
      ((∃ dfn, r = some dfn ∧ s'.hold = Function.update s.hold (e, pdx va, ptx va) (some dfn) ∧
          (s.hold (e, pdx va, ptx va) = none ∨ s.hold (e, pdx va, ptx va) = some dfn)) ∨
        r = none ∧ s'.diskFreeFrameList = s.diskFreeFrameList ∧ s'.hold = s.hold) := by
  obtain ⟨F, hF, hled⟩ := hi.ledger
  obtain ⟨s₁, t, hopen, ht, hhold, hfree, hdata, hnone⟩ := opened s e va
  have hbelow : ∀ e i, pdx userTop ≤ i → s₁.table e i = none := by
    intro e' i' hle
    rcases hnone e' i' (hi.below e' i' hle) with ⟨-, rfl⟩ | h
    · exact absurd hle (pdx_lt hva)
    · exact h
  rw [← hfree] at hF
  rw [← hhold] at hled
  unfold PageFile.diskFrameOf at hs
  simp only [Option.ite_none_right_eq_some, hopen] at hs
  obtain ⟨-, hs⟩ := hs
  by_cases hz : t (ptx va) = 0
  · rw [if_pos hz] at hs
    have hempty : s₁.hold (e, pdx va, ptx va) = none := by rw [hold_eq ht, if_pos hz]
    cases halloc : s₁.allocateDiskFrame with
    | none =>
      rw [halloc] at hs
      cases hs
      exact ⟨⟨⟨F, hF, hled⟩, hbelow⟩, hdata, .inr ⟨rfl, hfree, hhold⟩⟩
    | some q =>
      obtain ⟨s₂, dfn⟩ := q
      rw [halloc] at hs
      cases hs
      obtain ⟨dfn', hfirst, heq⟩ := Option.map_eq_some_iff.mp halloc
      simp only [Prod.mk.injEq] at heq
      obtain ⟨rfl, rfl⟩ := heq
      rw [hF.first ()] at hfirst
      obtain ⟨F', rfl⟩ := List.head?_eq_some_iff.mp hfirst
      have hpos : dfn' ≠ 0 := by
        have := (hled.free_mem dfn' (List.mem_cons_self ..)).1
        omega
      have hspells := hF.remove (i := ()) (List.mem_cons_self ..)
      rw [List.erase_cons_head, Lists.update_unit] at hspells
      have hnot := (List.nodup_cons.mp hled.nodup).1
      have hlink : ∀ _ : Unit, ∀ x ∈ F', Function.update (s₁.diskFreeFrameList.remove () dfn').link dfn' {} x =
          (s₁.diskFreeFrameList.remove () dfn').link x := by
        intro _ x hx
        refine Function.update_of_ne ?_ _ _
        rintro rfl
        exact hnot hx
      generalize hs₂ : ({ s₁ with diskFreeFrameList := { s₁.diskFreeFrameList.remove () dfn' with
        link := Function.update (s₁.diskFreeFrameList.remove () dfn').link dfn' {} } } : PageFile E) = s₂
      have ht₂ : s₂.table e (pdx va) = some t := by rw [← hs₂]; exact ht
      have hhold₂ : s₂.hold = s₁.hold := by rw [← hs₂]; rfl
      have hset := hold_setTable ht₂ (j := ptx va) dfn'
      rw [if_neg hpos, hhold₂] at hset
      refine ⟨⟨⟨F', ?_, hset ▸ hled.take hempty⟩, fun e' i' hle => ?_⟩, ?_, .inl ⟨dfn', rfl, ?_, .inl ?_⟩⟩
      · rw [← hs₂]
        exact hspells.congr_link hlink
      · rw [table_setTable (.inl (by rw [ht₂]; exact nofun)), if_neg, ← hs₂]
        · exact hbelow e' i' hle
        · rintro ⟨-, rfl⟩
          exact pdx_lt hva hle
      · rw [← hs₂]
        exact hdata
      · rw [hset, hhold]
      · rw [← hhold]
        exact hempty
  · rw [if_neg hz] at hs
    cases hs
    have hheld : s'.hold (e, pdx va, ptx va) = some (t (ptx va)) := by rw [hold_eq ht, if_neg hz]
    refine ⟨⟨⟨F, hF, hled⟩, hbelow⟩, hdata, .inl ⟨_, rfl, ?_, .inr (hhold ▸ hheld)⟩⟩
    rw [← hhold, ← hheld, Function.update_eq_self]

omit [DecidableEq E] in
/-- The content of the disk frames does not matter. -/
theorem Inv.writeDiskPage {page : Page} (hi : Inv s) : Inv (s.writeDiskPage dfn page) := ⟨hi.ledger, hi.below⟩

theorem Inv.pfAddEnvPage {page : Page} {r : PfResult} (hi : Inv s) (hva : va < userTop)
    (hs : s.pfAddEnvPage e va page = some (s', r)) : Inv s' ∧
      (r = .noPageFileSpace → s'.diskFreeFrameList = s.diskFreeFrameList ∧ s'.hold = s.hold) := by
  obtain ⟨⟨s₁, q⟩, hq, heq⟩ := Option.map_eq_some_iff.mp hs
  obtain ⟨hi₁, -, ⟨dfn, rfl, -⟩ | ⟨rfl, hfree, hhold⟩⟩ := hi.diskFrameOf hva hq
  · cases heq
    exact ⟨hi₁.writeDiskPage, nofun⟩
  · cases heq
    exact ⟨hi₁, fun _ => ⟨hfree, hhold⟩⟩

theorem Inv.pfAddEmptyEnvPage {zero : Bool} {r : PfResult} (hi : Inv s) (hva : va < userTop)
    (hs : s.pfAddEmptyEnvPage e va zero = some (s', r)) : Inv s' ∧
      (r = .noPageFileSpace → s'.diskFreeFrameList = s.diskFreeFrameList ∧ s'.hold = s.hold) := by
  cases zero with
  | true => exact hi.pfAddEnvPage hva hs
  | false =>
    obtain ⟨⟨s₁, q⟩, hq, heq⟩ := Option.map_eq_some_iff.mp hs
    obtain ⟨hi₁, -, ⟨dfn, rfl, -⟩ | ⟨rfl, hfree, hhold⟩⟩ := hi.diskFrameOf hva hq
    · cases heq
      exact ⟨hi₁, nofun⟩
    · cases heq
      exact ⟨hi₁, fun _ => ⟨hfree, hhold⟩⟩

theorem Inv.getDiskPageDirectory (hi : Inv s) : Inv (s.getDiskPageDirectory e) := by
  obtain ⟨htable, -, hfree, -⟩ := getDiskPageDirectory_spec s e
  obtain ⟨F, hF, hled⟩ := hi.ledger
  exact ⟨⟨F, hfree ▸ hF, hold_of_table htable ▸ hled⟩, htable ▸ hi.below⟩

theorem Inv.addIfAbsent (hi : Inv s) (hva : va < userTop) (hs : s.addIfAbsent e va = some s') : Inv s' := by
  have hadd : addIfAbsent.addEmpty s e va = some s' → Inv s' := by
    intro hs
    simp only [addIfAbsent.addEmpty, Option.ite_none_right_eq_some] at hs
    obtain ⟨⟨s₁, r⟩, hs₁, hs⟩ := Option.bind_eq_some_iff.mp hs.2
    cases r with
    | success =>
      cases hs
      exact (hi.pfAddEmptyEnvPage hva hs₁).1
    | noPageFileSpace => cases hs
  unfold PageFile.addIfAbsent at hs
  split at hs
  · split at hs
    · exact hadd hs
    · cases hs
      exact hi
  · exact hadd hs

theorem Inv.pfUpdateEnvPage {page : Page} (hi : Inv s) (hva : va < userTop) (hs : s.pfUpdateEnvPage e va page = some s') :
    Inv s' := by
  simp only [PageFile.pfUpdateEnvPage, Option.ite_none_right_eq_some] at hs
  obtain ⟨s₁, hs₁, hs⟩ := Option.bind_eq_some_iff.mp hs.2
  obtain ⟨t, -, rfl⟩ := Option.map_eq_some_iff.mp hs
  exact (hi.getDiskPageDirectory.addIfAbsent hva hs₁).writeDiskPage

/-- An entry is cleared and its disk frame is freed. -/
theorem Inv.clearEntry (hi : Inv s) (ht : s.table e i = some t) :
    Inv ((s.setTable e i (some (Function.update t j 0))).freeDiskFrame (t j)) ∧
      (∀ e' i', ((s.setTable e i (some (Function.update t j 0))).freeDiskFrame (t j)).table e' i' =
        if e' = e ∧ i' = i then some (Function.update t j 0) else s.table e' i') := by
  obtain ⟨F, hF, hled⟩ := hi.ledger
  have hset := hold_setTable ht (j := j) 0
  have htable := table_setTable (.inl (by rw [ht]; exact nofun)) (some (Function.update t j 0))
  have hbelow : ∀ e' i', pdx userTop ≤ i' → (s.setTable e i (some (Function.update t j 0))).table e' i' = none := by
    intro e' i' hle
    rw [htable, if_neg]
    · exact hi.below e' i' hle
    · rintro ⟨-, rfl⟩
      rw [hi.below e i' hle] at ht
      exact nomatch ht
  rw [if_pos rfl] at hset
  by_cases hz : t j = 0
  · have hheld : s.hold (e, i, j) = none := by rw [hold_eq ht, if_pos hz]
    rw [← hheld, Function.update_eq_self] at hset
    rw [freeDiskFrame, if_pos hz]
    exact ⟨⟨⟨F, hF, hset ▸ hled⟩, hbelow⟩, htable⟩
  · have hheld : s.hold (e, i, j) = some (t j) := by rw [hold_eq ht, if_neg hz]
    have hspells := hF.insertHead (i := ()) fun _ => hled.apart _ _ hheld
    rw [Lists.update_unit] at hspells
    have hgive := hled.give hheld
    rw [← hset] at hgive
    rw [freeDiskFrame, if_neg hz]
    exact ⟨⟨⟨_, hspells, hgive⟩, hbelow⟩, htable⟩

theorem Inv.pfRemoveEnvPage (hi : Inv s) : Inv (s.pfRemoveEnvPage e va) := by
  unfold PageFile.pfRemoveEnvPage
  split
  · exact hi
  · rename_i t ht
    exact (hi.clearEntry ht).1

/-- The inner loop of `pf_free_env` clears the entries of one table. -/
theorem Inv.freeDiskEntries (hi : Inv s) (ht : s.table e i = some t) (l : List (Fin 1024)) :
    Inv (l.foldl (freeDiskEntry e i) s) ∧ ∃ u, (∀ j, u j = if j ∈ l then 0 else t j) ∧
      ∀ e' i', (l.foldl (freeDiskEntry e i) s).table e' i' = if e' = e ∧ i' = i then some u else s.table e' i' := by
  induction l generalizing s t with
  | nil =>
    refine ⟨hi, t, fun j => rfl, fun e' i' => ?_⟩
    split
    case isTrue hx => rw [hx.1, hx.2, List.foldl_nil, ht]
    case isFalse => rfl
  | cons k l ih =>
    have hround : freeDiskEntry e i s k = (s.setTable e i (some (Function.update t k 0))).freeDiskFrame (t k) := by
      simp only [freeDiskEntry, ht]
    obtain ⟨hi₁, htable₁⟩ := hi.clearEntry (j := k) ht
    rw [List.foldl_cons, hround]
    obtain ⟨hi', u, hu, htable⟩ := ih hi₁ ((htable₁ e i).trans (if_pos ⟨rfl, rfl⟩))
    refine ⟨hi', u, fun j => ?_, fun e' i' => ?_⟩
    · rw [hu j]
      by_cases hjk : j = k
      · simp [hjk]
      · simp [hjk]
    · rw [htable, htable₁]
      split <;> rfl

/-- A table is cleared and taken out of the directory. -/
theorem Inv.freeDiskTable (hi : Inv s) (e : E) (i : Fin 1024) : Inv (s.freeDiskTable e i) ∧
    (s.freeDiskTable e i).table e i = none ∧
    ∀ i', s.table e i' = none → (s.freeDiskTable e i).table e i' = none := by
  unfold PageFile.freeDiskTable
  split
  · rename_i ht
    exact ⟨hi, ht, fun _ h => h⟩
  · rename_i t ht
    obtain ⟨hi', u, hu, htable⟩ := hi.freeDiskEntries ht (List.finRange 1024)
    have hu0 : ∀ j, u j = 0 := fun j => (hu j).trans (if_pos (List.mem_finRange j))
    generalize (List.finRange 1024).foldl (freeDiskEntry e i) s = s₁ at hi' htable
    have ht₁ : s₁.table e i = some u := (htable e i).trans (if_pos ⟨rfl, rfl⟩)
    have hset := table_setTable (.inl (by rw [ht₁]; exact nofun)) none
    have hhold : (s₁.setTable e i none).hold = s₁.hold := by
      funext ⟨e', i', j⟩
      by_cases hx : e' = e ∧ i' = i
      · obtain ⟨rfl, rfl⟩ := hx
        simp [hold, hset, ht₁, hu0]
      · simp only [hold, hset, if_neg hx]
    obtain ⟨F, hF, hled⟩ := hi'.ledger
    refine ⟨⟨⟨F, hF, hhold ▸ hled⟩, fun e' i' hle => ?_⟩, (hset e i).trans (if_pos ⟨rfl, rfl⟩), fun i' h => ?_⟩
    · rw [hset]
      split
      case isTrue => rfl
      case isFalse => exact hi'.below e' i' hle
    · rw [hset]
      split
      case isTrue => rfl
      case isFalse hne => rw [htable, if_neg hne, h]

theorem Inv.freeDiskTables (hi : Inv s) (e : E) (l : List (Fin 1024)) : Inv (l.foldl (PageFile.freeDiskTable e) s) ∧
    (∀ i ∈ l, (l.foldl (PageFile.freeDiskTable e) s).table e i = none) ∧
    ∀ i, s.table e i = none → (l.foldl (PageFile.freeDiskTable e) s).table e i = none := by
  induction l generalizing s with
  | nil => exact ⟨hi, nofun, fun _ h => h⟩
  | cons k l ih =>
    obtain ⟨hi₁, hk, hkeep⟩ := hi.freeDiskTable e k
    obtain ⟨hi', hl, hkeep'⟩ := ih hi₁
    refine ⟨hi', fun i hmem => ?_, fun i h => hkeep' i (hkeep i h)⟩
    rcases List.mem_cons.mp hmem with rfl | hmem
    · exact hkeep' i hk
    · exact hl i hmem

/-- No table is left when the directory is freed, because tables are below `USER_TOP`. -/
theorem Inv.pfFreeEnv (hi : Inv s) (hs : s.pfFreeEnv e = some s') : Inv s' := by
  simp only [PageFile.pfFreeEnv, Option.ite_none_right_eq_some, Option.some.injEq] at hs
  obtain ⟨-, rfl⟩ := hs
  obtain ⟨hi', hl, -⟩ := hi.freeDiskTables e ((List.finRange 1024).filter (· < pdx userTop))
  generalize ((List.finRange 1024).filter (· < pdx userTop)).foldl (PageFile.freeDiskTable e) s = s₁ at hi' hl
  have hempty : ∀ i, s₁.table e i = none := by
    intro i
    by_cases hlt : i < pdx userTop
    · exact hl i (List.mem_filter.mpr ⟨List.mem_finRange i, by simpa using hlt⟩)
    · exact hi'.below e i (le_of_not_gt hlt)
  have htable : ({ s₁ with pgdir := Function.update s₁.pgdir e none } : PageFile E).table = s₁.table := by
    funext e' i
    by_cases he : e' = e
    · rw [he, hempty i]
      simp [table]
    · simp [table, he]
  obtain ⟨F, hF, hled⟩ := hi'.ledger
  exact ⟨⟨F, hF, hold_of_table htable ▸ hled⟩, htable ▸ hi'.below⟩

/-- The directory and the table can be made, so the request is served or refused. -/
theorem diskFrameOf_isSome (s : PageFile E) (e : E) (hva : va < kernelBase) : (s.diskFrameOf e va).isSome := by
  obtain ⟨s₁, t, hopen, -⟩ := opened s e va
  unfold PageFile.diskFrameOf
  rw [if_pos hva, hopen]
  simp only
  split
  · split <;> rfl
  · rfl

/-! ### Runs -/

/-- The calls that are considered are for addresses below `USER_TOP`. -/
def Allowed : PfEvent E → Prop
  | .addEmpty _ va _ => va < userTop
  | .add _ va _ => va < userTop
  | .update _ va _ => va < userTop
  | .remove _ va => va < userTop
  | .freeEnv _ => True

theorem Inv.call {ev : PfEvent E} {r : PfResult} (hi : Inv s) (hallowed : Allowed ev) (hs : s.call ev = some (s', r)) :
    Inv s' ∧ (r = .noPageFileSpace → s'.diskFreeFrameList = s.diskFreeFrameList ∧ s'.hold = s.hold) := by
  cases ev with
  | addEmpty e va zero => exact hi.pfAddEmptyEnvPage hallowed hs
  | add e va page => exact hi.pfAddEnvPage hallowed hs
  | update e va page =>
    obtain ⟨s₁, hs₁, heq⟩ := Option.map_eq_some_iff.mp hs
    cases heq
    exact ⟨hi.pfUpdateEnvPage hallowed hs₁, nofun⟩
  | remove e va =>
    cases hs
    exact ⟨hi.pfRemoveEnvPage, nofun⟩
  | freeEnv e =>
    obtain ⟨s₁, hs₁, heq⟩ := Option.map_eq_some_iff.mp hs
    cases heq
    exact ⟨hi.pfFreeEnv hs₁, nofun⟩

/-- The free list that is built at the boot. -/
theorem initDiskFrames_spells {l : Lists Unit Nat} {F : List Nat} (h : l.Spells fun _ => F) (k n : Nat)
    (hF : ∀ f ∈ F, f < k) : ((List.range' k n).foldl initDiskFrame l).Spells fun _ => (List.range' k n).reverse ++ F := by
  induction n generalizing l F k with
  | zero => exact h
  | succ n ih =>
    have hnot : k ∉ F := fun hk => absurd (hF k hk) (lt_irrefl k)
    have hlink : ∀ _ : Unit, ∀ x ∈ F, Function.update l.link k {} x = l.link x := by
      intro _ x hx
      refine Function.update_of_ne ?_ _ _
      rintro rfl
      exact hnot hx
    have hspells := (h.congr_link hlink).insertHead (i := ()) fun _ => hnot
    rw [Lists.update_unit] at hspells
    have := ih hspells (k + 1) fun f hf => by
      rcases List.mem_cons.mp hf with rfl | hf
      · exact Nat.lt_succ_self _
      · exact Nat.lt_succ_of_lt (hF f hf)
    simpa [List.range'_succ, initDiskFrame] using this

/-- The free list from `n` down to 1, as its heads and links. -/
def frameList (n : Nat) : Lists Unit Nat where
  head _ := if n = 0 then {} else ⟨some n, some 1, UInt32.ofNat n⟩
  link f := if 1 ≤ f ∧ f ≤ n then ⟨if f = 1 then none else some (f - 1), if f = n then none else some (f + 1)⟩ else {}

theorem frameLists_eq {l l' : Lists Unit Nat} (hhead : l.head () = l'.head ()) (hlink : ∀ f, l.link f = l'.link f) : l = l' := by
  obtain ⟨head, link⟩ := l
  obtain ⟨head', link'⟩ := l'
  obtain rfl : head = head' := funext fun _ => hhead
  obtain rfl : link = link' := funext hlink
  rfl

theorem initDiskFrame_frameList (n : Nat) : initDiskFrame (frameList n) (n + 1) = frameList (n + 1) := by
  rcases Nat.eq_zero_or_pos n with rfl | hn
  · refine frameLists_eq ?_ fun f => ?_
    · simp [initDiskFrame, Lists.insertHead, frameList]
    · by_cases hf : f = 1
      · simp [initDiskFrame, Lists.insertHead, frameList, hf]
      · have hlt : ¬ (1 ≤ f ∧ f ≤ 1) := by omega
        simp [initDiskFrame, Lists.insertHead, frameList, hf, hlt]
        omega
  · have hne : n ≠ 0 := hn.ne'
    refine frameLists_eq ?_ fun f => ?_
    · simp [initDiskFrame, Lists.insertHead, frameList, hne, UInt32.ofNat_add]
    · rcases eq_or_ne f (n + 1) with rfl | hnew
      · simp [initDiskFrame, Lists.insertHead, frameList, hne]
      · rcases eq_or_ne f n with rfl | hfirst
        · have hle : 1 ≤ f := hn
          simp [initDiskFrame, Lists.insertHead, frameList, hne, hle]
        · have hle : f ≤ n + 1 ↔ f ≤ n := by omega
          simp [initDiskFrame, Lists.insertHead, frameList, hne, hnew, hfirst, hle]

theorem initDiskFrames_eq (n : Nat) : (List.range' 1 n).foldl initDiskFrame (Lists.init {} ()) = frameList n := by
  induction n with
  | zero =>
    refine frameLists_eq ?_ fun f => ?_
    · simp [Lists.init, frameList]
    · exact (if_neg (by omega)).symm
  | succ n ih =>
    rw [List.range'_1_concat, List.foldl_append, ih, Nat.add_comm 1 n]
    exact initDiskFrame_frameList n

omit [DecidableEq E] in
theorem initializeDiskPageFile_eq :
    ({} : PageFile E).initializeDiskPageFile = { diskFreeFrameList := frameList (pagesPerFile - 1) } := by
  unfold initializeDiskPageFile
  rw [initDiskFrames_eq]

omit [DecidableEq E] in
theorem inv_init (h : ∀ e, s.pgdir e = none) : Inv s.initializeDiskPageFile := by
  have htable : ∀ e i, s.initializeDiskPageFile.table e i = none := by
    intro e i
    show (s.pgdir e).bind _ = none
    rw [h e]
    rfl
  have hhold : s.initializeDiskPageFile.hold = fun _ => none := by
    funext x
    simp only [hold, htable, Option.bind_none]
  have hinit : (s.diskFreeFrameList.init ()).Spells fun _ => [] := by
    refine Lists.spells_nil fun u => ?_
    cases u
    exact Function.update_self () {} s.diskFreeFrameList.head
  have hspells := initDiskFrames_spells hinit 1 (pagesPerFile - 1) nofun
  rw [List.append_nil] at hspells
  have hledger : ∀ n, Ledger {f | 1 ≤ f ∧ f < n} (List.range' 1 (n - 1)).reverse (fun _ : E × Fin 1024 × Fin 1024 => none) := by
    intro n
    have hall : {f | 1 ≤ f ∧ f < n} = {f | f ∈ (List.range' 1 (n - 1)).reverse} := by
      ext f
      simp only [List.mem_reverse, List.mem_range'_1]
      show 1 ≤ f ∧ f < n ↔ 1 ≤ f ∧ f < 1 + (n - 1)
      omega
    rw [hall]
    exact .init (List.nodup_reverse.mpr List.nodup_range')
  refine ⟨⟨(List.range' 1 (pagesPerFile - 1)).reverse, ?_, ?_⟩, fun e i _ => htable e i⟩
  · simp only [initializeDiskPageFile]
    exact hspells
  · rw [hhold]
    exact hledger pagesPerFile

/-- What the page file guarantees: a disk frame is in the free list once or is recorded for exactly one page, and
    there are as many of both as at the boot. -/
def Partitioned (s : PageFile E) : Prop :=
  ∃ F, (s.diskFreeFrameList.Spells fun _ => F) ∧
    (∀ f ∈ diskFrames, F.count f = 1 ∧ (∀ x, s.hold x ≠ some f) ∨ f ∉ F ∧ ∃! x, s.hold x = some f) ∧
    (∀ f, f ∈ F ∨ (∃ x, s.hold x = some f) → f ∈ diskFrames) ∧
    F.length + {x | s.hold x ≠ none}.ncard = pagesPerFile - 1

theorem ncard_diskFrames : diskFrames.ncard = pagesPerFile - 1 := by
  have hset : diskFrames = ↑(Finset.Ico 1 pagesPerFile) := by
    rw [Finset.coe_Ico]
    rfl
  rw [hset, Set.ncard_coe_finset, Nat.card_Ico]

omit [DecidableEq E] in
theorem Inv.partitioned (hi : Inv s) : Partitioned s := by
  obtain ⟨F, hF, hled⟩ := hi.ledger
  have hfin : diskFrames.Finite := Set.finite_of_ncard_pos (by rw [ncard_diskFrames]; decide)
  refine ⟨F, hF, fun f hf => ?_, ?_, ncard_diskFrames ▸ hled.count hfin⟩
  · rcases hled.cover f hf with hmem | ⟨x, hx⟩
    · refine .inl ⟨List.count_eq_one_of_mem hled.nodup hmem, fun x hx => hled.apart x f hx hmem⟩
    · exact .inr ⟨hled.apart x f hx, x, hx, fun y hy => hled.unique y x f hy hx⟩
  · rintro f (hf | ⟨x, hx⟩)
    · exact hled.free_mem f hf
    · exact hled.held_mem x f hx

/-- In every run of the page file from the boot, for any environments and any addresses below `USER_TOP`, every disk
    frame has one owner, and a request that finds no space changes neither the free list nor an entry. -/
theorem pageFile_partition {s₀ : PageFile E} (h₀ : ∀ e, s₀.pgdir e = none)
    (hr : Reach PageFile.step (fun _ ev => Allowed ev) s₀.initializeDiskPageFile s) :
    Partitioned s ∧ ∀ ev t, Allowed ev → s.call ev = some (t, .noPageFileSpace) →
      t.diskFreeFrameList = s.diskFreeFrameList ∧ t.hold = s.hold := by
  have hi : Inv s := by
    refine hr.invariant (inv_init h₀) fun s ev t hi hok hs => ?_
    obtain ⟨⟨t', r⟩, hcall, rfl⟩ := Option.map_eq_some_iff.mp hs
    exact (hi.call hok hcall).1
  exact ⟨hi.partitioned, fun ev t hok hs => (hi.call hok hs).2 rfl⟩

/-- A page is added and removed again. -/
theorem pageFile_partition_add_remove : ∃ s : PageFile Unit,
    exec PageFile.step ({} : PageFile Unit).initializeDiskPageFile [.add () 8388608 fun _ => 1, .remove () 8388608] = some s ∧
      Partitioned s := by
  have hva : 8388608 < userTop := by decide
  obtain ⟨⟨s₁, r⟩, hs₁⟩ := Option.isSome_iff_exists.mp
    (diskFrameOf_isSome ({} : PageFile Unit).initializeDiskPageFile () (show 8388608 < kernelBase by decide))
  obtain ⟨s₂, hs₂⟩ : ∃ s₂, ({} : PageFile Unit).initializeDiskPageFile.step (.add () 8388608 fun _ => 1) = some s₂ := by
    simp only [step, call, pfAddEnvPage, hs₁, Option.map_some]
    exact ⟨_, rfl⟩
  have hr : Reach PageFile.step (fun _ ev => Allowed ev) ({} : PageFile Unit).initializeDiskPageFile s₂ :=
    .step (.add () 8388608 fun _ => 1) .init hva hs₂
  refine ⟨s₂.pfRemoveEnvPage () 8388608, exec_cons.mpr ⟨s₂, hs₂, rfl⟩, ?_⟩
  exact (pageFile_partition (fun _ => rfl) (.step (.remove () 8388608) hr hva rfl)).1

end Fos.Disk.PageFile
