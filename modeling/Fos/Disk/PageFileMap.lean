import Fos.Disk.PageFileRead
import Fos.Lib.BoundedMap

/-! The page file is a map from the pages of the environments to contents, which holds `PAGES_PER_FILE - 1` pages. -/

namespace Fos.Disk
open Lib Mem Heap

/-- Whether the call did what it was asked for. -/
def PfResult.served : PfResult → Bool
  | .success => true
  | .noPageFileSpace => false

/-- What a call asks of the map, when `zero` is at `ptr_zero_page`. -/
def PfEvent.request {E : Type} (zero : Page) : PfEvent E → MapRequest (E × Fin 1024 × Fin 1024) Page
  | .addEmpty e va true => .put (PageFile.key e va) zero
  | .addEmpty e va false => .reserve (PageFile.key e va)
  | .add e va dataSrc => .put (PageFile.key e va) dataSrc
  | .update e va page => .put (PageFile.key e va) page
  | .remove e va => .remove (PageFile.key e va)
  | .freeEnv e => .drop (·.1 = e)

namespace PageFile

variable {E : Type} {s s' : PageFile E} {e d : E} {va dfn : Nat} {page : Page} {x : E × Fin 1024 × Fin 1024}

/-- The pages in the page file with their contents. -/
def contents (s : PageFile E) (x : E × Fin 1024 × Fin 1024) : Option Page := (s.hold x).map s.data

theorem contents_key (s : PageFile E) (e : E) (va : Nat) : s.contents (key e va) = s.pfReadEnvPage e va :=
  (pfReadEnvPage_eq s e va).symm

theorem contents_eq_none : s.contents x = none ↔ s.hold x = none := Option.map_eq_none_iff

theorem contents_congr (hhold : s'.hold = s.hold) (hdata : s'.data = s.data) : s'.contents = s.contents := by
  funext x
  rw [contents, contents, hhold, hdata]

theorem mapKeys_contents (s : PageFile E) : mapKeys s.contents = {x | s.hold x ≠ none} := by
  ext x
  exact not_congr contents_eq_none

/-- The free disk frames are what is missing to `PAGES_PER_FILE - 1` pages. -/
theorem Inv.free_length (hi : Inv s) :
    ∃ F, (s.diskFreeFrameList.Spells fun _ => F) ∧ F.length + (mapKeys s.contents).ncard = pagesPerFile - 1 := by
  obtain ⟨F, hF, -, -, hcount⟩ := hi.partitioned
  exact ⟨F, hF, by rw [mapKeys_contents, hcount]⟩

/-- The free list is empty exactly when the map is full. -/
theorem Inv.full_iff (hi : Inv s) :
    (s.diskFreeFrameList.head ()).first = none ↔ (mapKeys s.contents).ncard = pagesPerFile - 1 := by
  obtain ⟨F, hF, hcount⟩ := hi.free_length
  rw [hF.first (), List.head?_eq_none_iff, ← List.length_eq_zero_iff]
  omega

theorem Inv.room (hi : Inv s) (hfirst : (s.diskFreeFrameList.head ()).first ≠ none) :
    (mapKeys s.contents).ncard < pagesPerFile - 1 := by
  obtain ⟨F, hF, hcount⟩ := hi.free_length
  have hne := mt hi.full_iff.mpr hfirst
  omega

variable [DecidableEq E]

/-- A disk frame is written that is recorded for the page. -/
theorem Inv.contents_write (hi : Inv s) (hx : s.hold x = some dfn) (page : Page) :
    (s.writeDiskPage dfn page).contents = Function.update s.contents x (some page) := by
  obtain ⟨F, -, hled⟩ := hi.ledger
  funext y
  by_cases hy : y = x
  · subst hy
    rw [Function.update_self]
    show (s.hold y).map _ = _
    rw [hx, Option.map_some]
    exact congrArg some (Function.update_self ..)
  · rw [Function.update_of_ne hy]
    show (s.hold y).map _ = (s.hold y).map _
    cases hd : s.hold y with
    | none => rfl
    | some d =>
      have hne : d ≠ dfn := by
        rintro rfl
        exact hy (hled.unique y x d hd hx)
      rw [Option.map_some, Option.map_some]
      exact congrArg some (Function.update_of_ne hne ..)

/-- There is no disk frame for a page exactly when it has none and the free list is empty. -/
theorem diskFrameOf_none_iff {r : Option Nat} (hs : s.diskFrameOf e va = some (s', r)) :
    r = none ↔ s.hold (key e va) = none ∧ (s.diskFreeFrameList.head ()).first = none := by
  obtain ⟨s₁, t, hopen, ht, hhold, hfree, -, -⟩ := opened s e va
  have hkey : s.hold (key e va) = if t (ptx va) = 0 then none else some (t (ptx va)) := by
    rw [← hhold]
    exact hold_eq ht
  unfold diskFrameOf at hs
  obtain ⟨-, hs⟩ := Option.ite_none_right_eq_some.mp hs
  simp only [hopen] at hs
  rw [hkey, ← hfree]
  split at hs
  case isTrue hz =>
    rw [if_pos hz]
    cases halloc : s₁.allocateDiskFrame with
    | none =>
      rw [halloc] at hs
      cases hs
      exact ⟨fun _ => ⟨rfl, Option.map_eq_none_iff.mp halloc⟩, fun _ => rfl⟩
    | some q =>
      rw [halloc] at hs
      cases hs
      obtain ⟨f, hf, -⟩ := Option.map_eq_some_iff.mp halloc
      rw [hf]
      exact ⟨fun h => absurd h (Option.some_ne_none _), fun h => absurd h.2 (Option.some_ne_none f)⟩
  case isFalse hz =>
    cases hs
    rw [if_neg hz]
    exact ⟨fun h => absurd h (Option.some_ne_none _), fun h => absurd h.1 (Option.some_ne_none _)⟩

/-- What `pf_add_empty_env_page` and `pf_add_env_page` ask for, before the page is written: the page has a content, or it
    gets the one of a free disk frame, or there is no room. -/
theorem Inv.diskFrameOf_contents {r : Option Nat} (hi : Inv s) (hva : va < userTop) (hs : s.diskFrameOf e va = some (s', r)) :
    Inv s' ∧
      ((∃ dfn, r = some dfn ∧ s'.hold (key e va) = some dfn ∧ s.contents (key e va) ≠ none ∧ s'.contents = s.contents) ∨
        (∃ dfn, r = some dfn ∧ s'.hold (key e va) = some dfn ∧ s.contents (key e va) = none ∧
          (mapKeys s.contents).ncard < pagesPerFile - 1 ∧
          s'.contents = Function.update s.contents (key e va) (some (s.data dfn))) ∨
        (r = none ∧ s.contents (key e va) = none ∧ (mapKeys s.contents).ncard = pagesPerFile - 1 ∧ s'.contents = s.contents)) := by
  obtain ⟨hi', hdata, hcases⟩ := hi.diskFrameOf hva hs
  have hnone := diskFrameOf_none_iff hs
  refine ⟨hi', ?_⟩
  rcases hcases with ⟨dfn, rfl, hhold, hwas⟩ | ⟨rfl, -, hhold⟩
  · change s'.hold = Function.update s.hold (key e va) (some dfn) at hhold
    have hnew : s'.hold (key e va) = some dfn := by rw [hhold, Function.update_self]
    rcases hwas with hwas | hwas
    · refine .inr (.inl ⟨dfn, rfl, hnew, contents_eq_none.mpr hwas, hi.room fun hfirst => ?_, ?_⟩)
      · exact absurd (hnone.mpr ⟨hwas, hfirst⟩) (Option.some_ne_none dfn)
      · funext y
        rw [contents, hhold, hdata]
        by_cases hy : y = key e va
        · rw [hy, Function.update_self, Function.update_self, Option.map_some]
        · rw [Function.update_of_ne hy, Function.update_of_ne hy, contents]
    · refine .inl ⟨dfn, rfl, hnew, fun h => ?_, contents_congr ?_ hdata⟩
      · exact absurd (hwas.symm.trans (contents_eq_none.mp h)) (Option.some_ne_none dfn)
      · rw [hhold, show some dfn = s.hold (key e va) from hwas.symm, Function.update_eq_self]
  · obtain ⟨hkey, hfirst⟩ := hnone.mp rfl
    exact .inr (.inr ⟨rfl, contents_eq_none.mpr hkey, hi.full_iff.mp hfirst, contents_congr hhold hdata⟩)

/-! ### The calls -/

theorem Inv.pfAddEnvPage_next {r : PfResult} (hi : Inv s) (hva : va < userTop) (hs : s.pfAddEnvPage e va page = some (s', r)) :
    MapNext (pagesPerFile - 1) s.contents (.put (key e va) page) r.served s'.contents := by
  obtain ⟨⟨s₁, q⟩, hq, heq⟩ := Option.map_eq_some_iff.mp hs
  obtain ⟨hi₁, ⟨dfn, rfl, hhold, hold, hsame⟩ | ⟨dfn, rfl, hhold, -, hroom, hnew⟩ | ⟨rfl, hnone, hfull, hsame⟩⟩ :=
    hi.diskFrameOf_contents hva hq
  all_goals cases heq
  · rw [hi₁.contents_write hhold, hsame]
    exact .put (.inl hold)
  · rw [hi₁.contents_write hhold, hnew, Function.update_idem]
    exact .put (.inr hroom)
  · rw [hsame]
    exact .putFull hnone hfull

theorem Inv.pfAddEmptyEnvPage_next {zero : Bool} {r : PfResult} (hi : Inv s) (hva : va < userTop)
    (hs : s.pfAddEmptyEnvPage e va zero = some (s', r)) :
    MapNext (pagesPerFile - 1) s.contents ((PfEvent.addEmpty e va zero).request s.zeroPage) r.served s'.contents := by
  cases zero with
  | true => exact hi.pfAddEnvPage_next hva hs
  | false =>
    obtain ⟨⟨s₁, q⟩, hq, heq⟩ := Option.map_eq_some_iff.mp hs
    obtain ⟨-, ⟨dfn, rfl, -, hold, hsame⟩ | ⟨dfn, rfl, -, hnone, hroom, hnew⟩ | ⟨rfl, hnone, hfull, hsame⟩⟩ :=
      hi.diskFrameOf_contents hva hq
    all_goals cases heq
    · rw [hsame]
      exact .reserveKept hold
    · rw [hnew]
      exact .reserve _ hnone hroom
    · rw [hsame]
      exact .reserveFull hnone hfull

/-- A page that is not in the page file is added if it is of the heap or of the stack. -/
theorem addIfAbsent_eq (s : PageFile E) (e : E) (va : Nat) :
    s.addIfAbsent e va = if s.contents (key e va) = none then addIfAbsent.addEmpty s e va else some s := by
  have htable : (s.getDiskPageTable e va false).2 = s.table e (pdx va) := by
    unfold getDiskPageTable
    split
    case h_1 t ht => exact ht.symm
    case h_2 hnone => exact hnone.symm
  have hkey : s.contents (key e va) = none ↔ s.hold (key e va) = none := contents_eq_none
  unfold addIfAbsent
  rw [htable]
  cases ht : s.table e (pdx va) with
  | none =>
    rw [if_pos]
    rw [hkey]
    show (s.table e (pdx va)).bind _ = none
    rw [ht, Option.bind_none]
  | some t =>
    have hhold : s.hold (key e va) = if t (ptx va) = 0 then none else some (t (ptx va)) := hold_eq ht
    rw [hhold] at hkey
    by_cases hz : t (ptx va) = 0
    · rw [if_pos (hkey.mpr (if_pos hz))]
      exact if_pos hz
    · rw [if_neg hz] at hkey
      rw [if_neg fun h => absurd (hkey.mp h) (Option.some_ne_none _)]
      exact if_neg hz

theorem addEmpty_eq_some_iff :
    addIfAbsent.addEmpty s e va = some s' ↔ inHeapOrStack va ∧ s.pfAddEmptyEnvPage e va false = some (s', .success) := by
  unfold addIfAbsent.addEmpty
  by_cases hin : inHeapOrStack va
  · rw [if_pos hin, Option.bind_eq_some_iff]
    refine ⟨fun ⟨⟨s₁, r⟩, hs₁, heq⟩ => ⟨hin, ?_⟩, fun ⟨_, hs⟩ => ⟨_, hs, rfl⟩⟩
    cases r with
    | success =>
      cases heq
      exact hs₁
    | noPageFileSpace => cases heq
  · rw [if_neg hin]
    exact ⟨fun h => absurd h.symm (Option.some_ne_none _), fun h => absurd h.1 hin⟩

/-- The part of `pf_update_env_page` before the page is written. -/
theorem Inv.addIfAbsent_next (hi : Inv s) (hva : va < userTop) (hs : s.addIfAbsent e va = some s') : Inv s' ∧
    (s.contents (key e va) ≠ none ∧ s' = s ∨
      MapNext (pagesPerFile - 1) s.contents (.reserve (key e va)) true s'.contents ∧ s.contents (key e va) = none) := by
  refine ⟨hi.addIfAbsent hva hs, ?_⟩
  rw [addIfAbsent_eq] at hs
  split at hs
  case isTrue hnone => exact .inr ⟨hi.pfAddEmptyEnvPage_next hva (addEmpty_eq_some_iff.mp hs).2, hnone⟩
  case isFalse hold =>
    cases hs
    exact .inl ⟨hold, rfl⟩

theorem contents_getDiskPageDirectory (s : PageFile E) (e : E) : (s.getDiskPageDirectory e).contents = s.contents := by
  obtain ⟨htable, -, -, hdata⟩ := getDiskPageDirectory_spec s e
  exact contents_congr (hold_of_table htable) hdata

theorem kernelBase_of_user (hva : va < userTop) : va < kernelBase := by
  simp only [userTop, kernelBase] at hva ⊢
  omega

omit [DecidableEq E] in
/-- A page that has a content has a table and a disk frame in it. -/
theorem exists_frame (h : s.contents (key e va) ≠ none) :
    ∃ t, s.table e (pdx va) = some t ∧ s.hold (key e va) = some (t (ptx va)) := by
  obtain ⟨dfn, hdfn⟩ := Option.ne_none_iff_exists'.mp (mt contents_eq_none.mpr h)
  obtain ⟨t, ht, hentry⟩ := Option.bind_eq_some_iff.mp hdfn
  obtain ⟨-, hentry⟩ := Option.ite_none_left_eq_some.mp hentry
  exact ⟨t, ht, hdfn.trans hentry.symm⟩

theorem Inv.pfUpdateEnvPage_next (hi : Inv s) (hva : va < userTop) (hs : s.pfUpdateEnvPage e va page = some s') :
    MapNext (pagesPerFile - 1) s.contents (.put (key e va) page) true s'.contents := by
  obtain ⟨-, hs⟩ := Option.ite_none_right_eq_some.mp hs
  obtain ⟨s₁, hs₁, hs⟩ := Option.bind_eq_some_iff.mp hs
  obtain ⟨t, ht, rfl⟩ := Option.map_eq_some_iff.mp hs
  obtain ⟨hi₁, hadded⟩ := hi.getDiskPageDirectory.addIfAbsent_next hva hs₁
  rw [contents_getDiskPageDirectory] at hadded
  have hwrite : s₁.contents (key e va) ≠ none →
      (s₁.writeDiskPage (t (ptx va)) page).contents = Function.update s₁.contents (key e va) (some page) := by
    intro hold
    obtain ⟨t', ht', hhold⟩ := exists_frame hold
    cases ht.symm.trans ht'
    exact hi₁.contents_write hhold page
  rcases hadded with ⟨hold, rfl⟩ | ⟨hreserve, hnone⟩
  · have hsame := contents_getDiskPageDirectory s e
    rw [hwrite (by rw [hsame]; exact hold), hsame]
    exact .put (.inl hold)
  · generalize s₁.contents = m at hreserve hwrite
    cases hreserve with
    | reserve v hnew hroom =>
      have hsome : Function.update s.contents (key e va) (some v) (key e va) ≠ none := by
        rw [Function.update_self]
        exact Option.some_ne_none v
      rw [hwrite hsome, Function.update_idem]
      exact .put (.inr hroom)
    | reserveKept hold => exact absurd hnone hold

/-- `pf_update_env_page` panics exactly when the page is not in the page file and cannot be added. -/
theorem Inv.pfUpdateEnvPage_none_iff (hi : Inv s) (hva : va < userTop) : s.pfUpdateEnvPage e va page = none ↔
    s.contents (key e va) = none ∧ (inHeapOrStack va = false ∨ (mapKeys s.contents).ncard = pagesPerFile - 1) := by
  have hi₀ : Inv (s.getDiskPageDirectory e) := hi.getDiskPageDirectory
  have hwrite : ∀ s₁, (s.getDiskPageDirectory e).addIfAbsent e va = some s₁ →
      ((s₁.table e (pdx va)).map fun t => s₁.writeDiskPage (t (ptx va)) page) ≠ none := by
    intro s₁ hs₁ hnone
    obtain ⟨-, hadded⟩ := hi₀.addIfAbsent_next hva hs₁
    have hold : s₁.contents (key e va) ≠ none := by
      rcases hadded with ⟨hold, rfl⟩ | ⟨hreserve, hnone⟩
      · exact hold
      · generalize s₁.contents = m at hreserve ⊢
        cases hreserve with
        | reserve v => rw [Function.update_self]; exact Option.some_ne_none v
        | reserveKept hold => exact hold
    obtain ⟨t, ht, -⟩ := exists_frame hold
    rw [ht] at hnone
    exact Option.some_ne_none _ hnone
  have hadd : s.pfUpdateEnvPage e va page = none ↔ (s.getDiskPageDirectory e).addIfAbsent e va = none := by
    unfold PageFile.pfUpdateEnvPage
    rw [if_pos (kernelBase_of_user hva)]
    cases hs₁ : (s.getDiskPageDirectory e).addIfAbsent e va with
    | none => exact ⟨fun _ => rfl, fun _ => rfl⟩
    | some s₁ => exact ⟨fun h => absurd h (hwrite s₁ hs₁), fun h => absurd h (Option.some_ne_none s₁)⟩
  rw [hadd, addIfAbsent_eq, ← contents_getDiskPageDirectory s e]
  generalize s.getDiskPageDirectory e = s₀ at hi₀
  by_cases hold : s₀.contents (key e va) = none
  · rw [if_pos hold, Option.eq_none_iff_forall_ne_some]
    obtain ⟨⟨s₁, r⟩, hs₁⟩ := Option.isSome_iff_exists.mp (diskFrameOf_isSome s₀ e (kernelBase_of_user hva))
    have hcall : s₀.pfAddEmptyEnvPage e va false = some (s₁, if r = none then .noPageFileSpace else .success) := by
      unfold PageFile.pfAddEmptyEnvPage
      rw [hs₁]
      cases r <;> rfl
    have hr := (hi₀.diskFrameOf_contents hva hs₁).2
    constructor
    · intro hne
      refine ⟨hold, or_iff_not_imp_left.mpr fun hin => ?_⟩
      rcases hr with ⟨dfn, rfl, -, hkey, -⟩ | ⟨dfn, rfl, -⟩ | ⟨-, -, hfull, -⟩
      · exact absurd hold hkey
      · exact absurd (addEmpty_eq_some_iff.mpr ⟨by simpa using hin, hcall⟩) (hne s₁)
      · exact hfull
    · rintro ⟨-, hin | hfull⟩ s₂ hs₂
      · rw [(addEmpty_eq_some_iff.mp hs₂).1] at hin
        exact absurd hin (by decide)
      · have hserved := (addEmpty_eq_some_iff.mp hs₂).2.symm.trans hcall
        rcases hr with ⟨dfn, rfl, -, hkey, -⟩ | ⟨dfn, rfl, -, -, hroom, -⟩ | ⟨rfl, -⟩
        · exact absurd hold hkey
        · omega
        · cases hserved
  · rw [if_neg hold]
    exact ⟨fun h => absurd h (Option.some_ne_none s₀), fun h => absurd h.1 hold⟩

theorem pfRemoveEnvPage_next (s : PageFile E) (e : E) (va : Nat) :
    MapNext (pagesPerFile - 1) s.contents (.remove (key e va)) true (s.pfRemoveEnvPage e va).contents := by
  have hcontents : (s.pfRemoveEnvPage e va).contents = Function.update s.contents (key e va) none := by
    unfold pfRemoveEnvPage
    split
    case h_1 hnone =>
      have hkey : s.contents (key e va) = none := by
        rw [contents_eq_none]
        show (s.table e (pdx va)).bind _ = none
        rw [hnone, Option.bind_none]
      rw [← hkey, Function.update_eq_self]
    case h_2 t ht =>
      obtain ⟨-, hhold, hdata⟩ := freeDiskFrame_kept (s.setTable e (pdx va) (some (Function.update t (ptx va) 0))) (t (ptx va))
      have hcleared : (s.setTable e (pdx va) (some (Function.update t (ptx va) 0))).hold = Function.update s.hold (key e va) none :=
        hold_setTable ht 0
      funext y
      rw [contents, hhold, hdata, hcleared]
      by_cases hy : y = key e va
      · rw [hy, Function.update_self, Function.update_self, Option.map_none]
      · rw [Function.update_of_ne hy, Function.update_of_ne hy]
        rfl
  rw [hcontents]
  exact .remove

theorem pfFreeEnv_none_iff : s.pfFreeEnv e = none ↔ s.pgdir e = none := by
  unfold PageFile.pfFreeEnv
  cases s.pgdir e with
  | none => exact ⟨fun _ => rfl, fun _ => rfl⟩
  | some t => exact ⟨fun h => absurd h (Option.some_ne_none _), fun h => absurd h (Option.some_ne_none _)⟩

theorem pfFreeEnv_next (hs : s.pfFreeEnv e = some s') :
    MapNext (pagesPerFile - 1) s.contents (.drop (·.1 = e)) true s'.contents := by
  have hcontents : s'.contents = fun x => if x.1 = e then none else s.contents x := by
    obtain ⟨-, hs⟩ := Option.ite_none_right_eq_some.mp hs
    obtain ⟨hdir, hdata⟩ := OthersKept.foldl (othersKept_freeDiskTable e) ((List.finRange 1024).filter (· < pdx userTop)) s
    dsimp only at hs
    generalize ((List.finRange 1024).filter (· < pdx userTop)).foldl (freeDiskTable e) s = s₁ at hs hdir hdata
    cases hs
    funext x
    rw [contents]
    by_cases hx : x.1 = e
    · rw [if_pos hx]
      unfold hold table
      dsimp only
      rw [hx, Function.update_self]
      rfl
    · rw [if_neg hx, contents, ← hdata]
      unfold hold table
      dsimp only
      rw [Function.update_of_ne hx, hdir _ hx]
  rw [hcontents]
  exact .drop

/-- The calls that panic or follow a null pointer: an update of a page that is not in the page file and cannot be added, and
    a free of an environment without a directory. -/
def Fails (s : PageFile E) : PfEvent E → Prop
  | .update e va _ =>
    s.contents (key e va) = none ∧ (inHeapOrStack va = false ∨ (mapKeys s.contents).ncard = pagesPerFile - 1)
  | .freeEnv e => s.pgdir e = none
  | _ => False

theorem Inv.call_next {ev : PfEvent E} {r : PfResult} (hi : Inv s) (hallowed : Allowed ev) (hs : s.call ev = some (s', r)) :
    MapNext (pagesPerFile - 1) s.contents (ev.request s.zeroPage) r.served s'.contents := by
  cases ev with
  | addEmpty e va zero => exact hi.pfAddEmptyEnvPage_next hallowed hs
  | add e va page => exact hi.pfAddEnvPage_next hallowed hs
  | update e va page =>
    obtain ⟨u, hu, heq⟩ := Option.map_eq_some_iff.mp hs
    cases heq
    exact hi.pfUpdateEnvPage_next hallowed hu
  | remove e va =>
    cases hs
    exact pfRemoveEnvPage_next s e va
  | freeEnv e =>
    obtain ⟨u, hu, heq⟩ := Option.map_eq_some_iff.mp hs
    cases heq
    exact pfFreeEnv_next hu

theorem Inv.call_none_iff {ev : PfEvent E} (hi : Inv s) (hallowed : Allowed ev) : s.call ev = none ↔ s.Fails ev := by
  have hframe : ∀ e va, va < userTop → s.diskFrameOf e va ≠ none := fun e va hva =>
    Option.isSome_iff_ne_none.mp (diskFrameOf_isSome s e (kernelBase_of_user hva))
  have hadd : ∀ e va page, va < userTop → s.pfAddEnvPage e va page ≠ none := fun e va page hva h =>
    hframe e va hva (Option.map_eq_none_iff.mp h)
  cases ev with
  | addEmpty e va zero =>
    refine ⟨fun h => ?_, False.elim⟩
    cases zero with
    | true => exact hadd e va _ hallowed h
    | false => exact hframe e va hallowed (Option.map_eq_none_iff.mp h)
  | add e va page => exact ⟨hadd e va page hallowed, False.elim⟩
  | update e va page => exact Option.map_eq_none_iff.trans (hi.pfUpdateEnvPage_none_iff hallowed)
  | remove e va => exact ⟨fun h => Option.some_ne_none _ h, False.elim⟩
  | freeEnv e => exact Option.map_eq_none_iff.trans pfFreeEnv_none_iff

theorem inv_of_reach {s₀ : PageFile E} (h₀ : ∀ e, s₀.pgdir e = none)
    (hr : Reach PageFile.step (fun _ ev => Allowed ev) s₀.initializeDiskPageFile s) : Inv s := by
  refine hr.invariant (inv_init h₀) fun s ev t hi hok hs => ?_
  obtain ⟨⟨t', r⟩, hcall, rfl⟩ := Option.map_eq_some_iff.mp hs
  exact (hi.call hok hcall).1

/-- In every run of the page file from the boot, for any environments and any addresses below `USER_TOP`, the page file is a
    map with room for `PAGES_PER_FILE - 1` pages: it is empty at first, what is read is what the map has, each call is a
    request to the map, and a call panics only for the stated reasons. -/
theorem pageFile_bounded_map {s₀ : PageFile E} (h₀ : ∀ e, s₀.pgdir e = none)
    (hr : Reach PageFile.step (fun _ ev => Allowed ev) s₀.initializeDiskPageFile s) :
    (∀ x, s₀.initializeDiskPageFile.contents x = none) ∧ (∀ e va, s.pfReadEnvPage e va = s.contents (key e va)) ∧
      ∀ ev, Allowed ev → (s.call ev = none ↔ s.Fails ev) ∧ ∀ t r, s.call ev = some (t, r) →
        MapNext (pagesPerFile - 1) s.contents (ev.request s.zeroPage) r.served t.contents := by
  have hi := inv_of_reach h₀ hr
  refine ⟨fun x => ?_, fun e va => (contents_key s e va).symm, fun ev hok => ⟨hi.call_none_iff hok, fun t r hs => hi.call_next hok hs⟩⟩
  rw [contents_eq_none]
  show ((s₀.pgdir x.1).bind _).bind _ = none
  rw [h₀, Option.bind_none, Option.bind_none]

/-- A page is added to the empty page file. -/
theorem pageFile_bounded_map_add : ∃ s : PageFile Unit,
    ({} : PageFile Unit).initializeDiskPageFile.step (.add () 8388608 fun _ => 1) = some s ∧
      (∀ e va, s.pfReadEnvPage e va = s.contents (key e va)) ∧ ∀ ev, Allowed ev → (s.call ev = none ↔ s.Fails ev) ∧
        ∀ t r, s.call ev = some (t, r) →
          MapNext (pagesPerFile - 1) s.contents (ev.request s.zeroPage) r.served t.contents := by
  have hva : 8388608 < userTop := by decide
  obtain ⟨⟨s₁, r⟩, hs₁⟩ := Option.isSome_iff_exists.mp
    (diskFrameOf_isSome ({} : PageFile Unit).initializeDiskPageFile () (show 8388608 < kernelBase by decide))
  obtain ⟨s₂, hs₂⟩ : ∃ s₂, ({} : PageFile Unit).initializeDiskPageFile.step (.add () 8388608 fun _ => 1) = some s₂ := by
    simp only [step, call, pfAddEnvPage, hs₁, Option.map_some]
    exact ⟨_, rfl⟩
  exact ⟨s₂, hs₂, (pageFile_bounded_map (fun _ => rfl) (.step (.add () 8388608 fun _ => 1) .init hva hs₂)).2⟩

end PageFile

end Fos.Disk
