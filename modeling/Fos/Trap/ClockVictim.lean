import Fos.Lib.Circle
import Fos.Trap.FreeRequest
import Fos.Trap.WsInv

/-! The searches of CLOCK and of Modified CLOCK: what they find in the circular order from the hand, and which `USED` bits they
    clear on the way. -/

namespace Fos.Mem
open Lib Heap Disk Frames

namespace WorkingSet

variable {w : WorkingSet} {x : Nat}

/-- The next element is the successor on the circle. -/
theorem nextCircular_eq (hnodup : w.list.Nodup) (hx : x ∈ w.list) : w.nextCircular x = some (w.list.next x hx) := by
  obtain ⟨pre, post, hlist, hnot⟩ := List.eq_append_cons_of_mem hx
  have hdrop : w.list.dropWhile (· ≠ x) = x :: post := by
    rw [hlist, List.dropWhile_append_of_pos (by simpa using fun y hy => ne_of_mem_of_not_mem hy hnot), List.dropWhile_cons_of_neg (by simp)]
  have horder : circleFrom w.list x = [] ++ x :: (post ++ pre) := by
    rw [hlist, circleFrom_append hnot]
    rfl
  rw [next_of_circleFrom hnodup hx horder hx]
  unfold nextCircular next
  rw [hdrop]
  cases post with
  | cons y post => rfl
  | nil =>
    rw [hlist]
    cases pre <;> rfl

end WorkingSet

namespace UserMem

variable {E : Type} [DecidableEq E] {all : List PageNo} {boot : PageNo → Nat} {s t u : UserMem E} {e : E} {va wse : Nat}
  {l passed passed' done todo : List Nat} {start current : Nat}

/-! ### The bits of the elements -/

/-- The permission bits of the page of an element. -/
def elementPerm (s : UserMem E) (e : E) (wse : Nat) : BitVec 12 := (s.run.paging.page e (s.elementVa e wse)).perm

/-- `PERM_USED` of the page of an element. -/
def used (s : UserMem E) (e : E) (wse : Nat) : Bool := (s.elementPerm e wse).getLsbD 5

/-- `PERM_MODIFIED` of the page of an element. -/
def modified (s : UserMem E) (e : E) (wse : Nat) : Bool := (s.elementPerm e wse).getLsbD 6

theorem and_permUsed_eq_zero (p : BitVec 12) : p &&& permUsed = 0 ↔ p.getLsbD 5 = false := by
  rw [← not_iff_not, Bool.not_eq_false]
  exact Paging.and_twoPow_ne_zero p 5 (by decide)

theorem isUnused_eq (p : BitVec 12) : isUnused p = !p.getLsbD 5 := by
  unfold isUnused
  rw [Bool.eq_iff_iff, decide_eq_true_iff, and_permUsed_eq_zero, Bool.not_eq_true']

theorem isClean_eq (p : BitVec 12) : isClean p = (!p.getLsbD 5 && !p.getLsbD 6) := by
  have hmodified : p &&& permModified = 0 ↔ p.getLsbD 6 = false := by
    rw [← not_iff_not, Bool.not_eq_false]
    exact Paging.and_twoPow_ne_zero p 6 (by decide)
  unfold isClean
  rw [Bool.eq_iff_iff, decide_eq_true_iff, and_permUsed_eq_zero, hmodified, Bool.and_eq_true, Bool.not_eq_true', Bool.not_eq_true']

/-- The `USED` bits of the elements `passed` have been cleared, those of the other ones are as before. -/
structure Swept (all : List PageNo) (boot : PageNo → Nat) (e : E) (l passed : List Nat) (s t : UserMem E) : Prop
    extends Aged all boot e s t where
  used : ∀ x ∈ l, t.used e x = cleared (s.used e) passed x
  modified : ∀ x ∈ l, t.modified e x = s.modified e x

omit [DecidableEq E] in
theorem Swept.refl (s : UserMem E) : Swept all boot e l [] s s :=
  ⟨.refl s, fun x _ => (congrFun cleared_nil x).symm, fun _ _ => rfl⟩

omit [DecidableEq E] in
theorem Swept.trans (h : Swept all boot e l passed s t) (h' : Swept all boot e l passed' t u) :
    Swept all boot e l (passed ++ passed') s u := by
  refine ⟨h.toAged.trans h'.toAged, fun x hx => ?_, fun x hx => (h'.modified x hx).trans (h.modified x hx)⟩
  rw [h'.used x hx]
  unfold cleared
  rw [h.used x hx]
  unfold cleared
  by_cases hp : x ∈ passed <;> by_cases hp' : x ∈ passed' <;> simp [hp, hp']

/-- The hand turns, or a time stamp is written. -/
theorem Swept.setWs {w : WorkingSet} (h : Swept all boot e l passed s t) (hlist : w.list = (t.ws e).list)
    (hmax : w.maxSize = (t.ws e).maxSize) (helement : w.element = (t.ws e).element) : Swept all boot e l passed s (t.setWs e w) := by
  have haged : Aged all boot e t (t.setWs e w) := aged_setWs hlist hmax fun x => by rw [helement]
  have hperm : ∀ x, (t.setWs e w).elementPerm e x = t.elementPerm e x := by
    intro x
    unfold elementPerm
    rw [haged.elementVa]
    rfl
  refine ⟨h.toAged.trans haged, fun x hx => ?_, fun x hx => ?_⟩
  · rw [← h.used x hx]
    exact congrArg (BitVec.getLsbD · 5) (hperm x)
  · rw [← h.modified x hx]
    exact congrArg (BitVec.getLsbD · 6) (hperm x)

omit [DecidableEq E] in
/-- The rest of the circle keeps its bits when an element is passed. -/
theorem Swept.rest (h : Swept all boot e l passed s t) (hpassed : ∀ x ∈ passed, x = current) (hnodup : l.Nodup)
    (horder : circleFrom l start = done ++ current :: todo) :
    ∀ x ∈ todo, t.used e x = s.used e x ∧ t.modified e x = s.modified e x := by
  intro x hx
  have hrest := (List.nodup_append.mp (horder ▸ nodup_circleFrom hnodup)).2.1
  have hne : x ≠ current := ne_of_mem_of_not_mem hx (List.nodup_cons.mp hrest).1
  have hxl : x ∈ l := mem_circleFrom.mp (horder ▸ List.mem_append_right _ (List.mem_cons_of_mem _ hx))
  refine ⟨?_, h.modified x hxl⟩
  rw [h.used x hxl]
  exact if_neg fun hx => hne (hpassed x hx)

omit [DecidableEq E] in
theorem Resident.aged (h : Resident s e l) (ha : Aged all boot e s t) : Resident t e l :=
  h.keep (.of_maps ha.maps fun x _ => ha.elementVa x)

omit [DecidableEq E] in
/-- The permissions of an element can be read. -/
theorem Resident.permissions (h : Resident s e l) (hwalk : s.run.WalkInv all boot) (hx : wse ∈ l) :
    s.permissions e (s.elementVa e wse) = some (s.elementPerm e wse) := by
  obtain ⟨f, hpresent, -⟩ := h.mapped wse hx
  exact permissions_of_table hwalk (pde_of_present hpresent)

omit [DecidableEq E] in
/-- The `USED` bit of an element is cleared. -/
theorem Resident.clearUsed (h : Resident s e l) (hwalk : s.run.WalkInv all boot) (hx : wse ∈ l) :
    ∃ t, s.clearPermissions e (s.elementVa e wse) permUsed = some t ∧ Swept all boot e l [wse] s t ∧ t.ws = s.ws := by
  obtain ⟨f, hpresent, -⟩ := h.mapped wse hx
  have hsome : s.run.ptSetPagePermissions e (s.elementVa e wse) 0 permUsed ≠ none := by
    obtain ⟨⟨tables, hi⟩, hl⟩ := hwalk
    intro hnone
    refine (hi.ptSetPagePermissions_iff hl).mpr (pde_of_present hpresent) (Option.map_eq_none_iff.mp hnone)
  obtain ⟨r, hr⟩ := Option.ne_none_iff_exists'.mp hsome
  have hs : s.clearPermissions e (s.elementVa e wse) permUsed = some (s.setRun r) := congrArg (Option.map s.setRun) hr
  obtain ⟨-, hwrites, -⟩ := hwalk.ptSetPagePermissions ⟨rfl, rfl⟩ rfl hr
  rw [show (s.run.paging.page e (s.elementVa e wse)).perm ||| 0 = s.elementPerm e wse from BitVec.or_zero] at hwrites
  have hself : (s.setRun r).elementPerm e wse = s.elementPerm e wse &&& ~~~ permUsed := congrArg Pte.perm hwrites.self
  have hother : ∀ x ∈ l, x ≠ wse → (s.setRun r).elementPerm e x = s.elementPerm e x := by
    intro x hx' hne
    exact congrArg Pte.perm (hwrites.others e _ fun hsame => hne (h.samePage hx' hx hsame.2))
  refine ⟨s.setRun r, hs, ⟨aged_clearUsed hwalk hs, fun x hx' => ?_, fun x hx' => ?_⟩, rfl⟩
  · unfold UserMem.used cleared
    rcases eq_or_ne x wse with rfl | hne
    · rw [if_pos (List.mem_singleton_self _), hself, BitVec.getLsbD_and, BitVec.getLsbD_not]
      simp [permUsed]
    · rw [if_neg (mt List.mem_singleton.mp hne), hother x hx' hne]
  · unfold UserMem.modified
    rcases eq_or_ne x wse with rfl | hne
    · rw [hself, BitVec.getLsbD_and, BitVec.getLsbD_not, permUsed_bit (by decide)]
      simp
    · rw [hother x hx' hne]

/-! ### The loop of CLOCK -/

/-- One round of the loop at an element that is used. -/
theorem clockVictim_used (hwalk : s.run.WalkInv all boot) (hres : Resident s e l) (hx : current ∈ l)
    (hlast : (s.ws e).last = some current) (hused : s.used e current = true) :
    ∃ t, Swept all boot e l [current] s t ∧ (t.ws e).last = (s.ws e).nextCircular current ∧
      ∀ n, clockVictim e (n + 1) s = clockVictim e n t := by
  obtain ⟨u, hu, hswept, hws⟩ := hres.clearUsed hwalk hx
  refine ⟨u.setWs e { u.ws e with last := (u.ws e).nextCircular current }, hswept.setWs rfl rfl rfl, ?_, fun n => ?_⟩
  · rw [setWs_self, hws]
  · have hne : ¬ s.elementPerm e current &&& permUsed = 0 := by
      rw [and_permUsed_eq_zero]
      exact fun h => nomatch h.symm.trans hused
    conv_lhs => unfold clockVictim
    rw [hlast]
    dsimp only
    rw [hres.permissions hwalk hx, Option.bind_some, if_neg hne, hu, Option.bind_some]

theorem clockVictim_unused (hwalk : s.run.WalkInv all boot) (hres : Resident s e l) (hx : current ∈ l)
    (hlast : (s.ws e).last = some current) (hused : s.used e current = false) (n : Nat) :
    clockVictim e (n + 1) s = some (s, current) := by
  unfold clockVictim
  rw [hlast]
  dsimp only
  rw [hres.permissions hwalk hx, Option.bind_some, if_pos ((and_permUsed_eq_zero _).mpr hused)]

/-- The loop through the rest of the circle: it finds the first element that is not used, or the hand is back at the start. -/
theorem clockVictim_round {s : UserMem E} {done todo : List Nat} {current : Nat} (hwalk : s.run.WalkInv all boot)
    (hlist : (s.ws e).list = l) (hres : Resident s e l) (hnodup : l.Nodup) (hstart : start ∈ l) (horder : circleFrom l start = done ++ current :: todo) (hlast : (s.ws e).last = some current) :
    ∃ t, Swept all boot e l ((current :: todo).takeWhile (s.used e)) s t ∧
      (t.ws e).last = some (((current :: todo).find? fun x => !s.used e x).getD start) ∧
      ∀ n, clockVictim e (n + (todo.length + 1)) s =
        match (current :: todo).find? fun x => !s.used e x with
        | some v => some (t, v)
        | none => clockVictim e n t := by
  have hmem : current ∈ l := mem_circleFrom.mp (horder ▸ List.mem_append_right _ (List.mem_cons_self ..))
  cases hused : s.used e current with
  | false =>
    simp only [List.find?_cons, List.takeWhile_cons, hused]
    exact ⟨s, .refl s, hlast, fun n => clockVictim_unused hwalk hres hmem hlast hused (n + todo.length)⟩
  | true =>
    obtain ⟨u, hswept, hturned, hloop⟩ := clockVictim_used hwalk hres hmem hlast hused
    have hnext : (u.ws e).last = some (todo.head?.getD start) := by
      subst hlist
      rw [hturned, WorkingSet.nextCircular_eq hnodup hmem, next_of_circleFrom hnodup hstart horder hmem]
    simp only [List.find?_cons, List.takeWhile_cons, hused]
    cases todo with
    | nil => exact ⟨u, hswept, hnext, hloop⟩
    | cons next todo =>
      have hrest := hswept.rest (fun x hx => List.mem_singleton.mp hx) hnodup horder
      have horder' : circleFrom l start = (done ++ [current]) ++ next :: todo := by
        rw [horder, List.append_assoc]
        rfl
      obtain ⟨t, hswept', hlast', hloop'⟩ := clockVictim_round (hswept.walk hwalk) (hswept.list.trans hlist) (hres.aged hswept.toAged)
        hnodup hstart horder' hnext
      have hfind : (next :: todo).find? (fun x => !u.used e x) = (next :: todo).find? fun x => !s.used e x :=
        List.find?_congr fun x hx => by rw [(hrest x hx).1]
      rw [hfind] at hlast' hloop'
      rw [takeWhile_congr fun x hx => (hrest x hx).1] at hswept'
      exact ⟨t, hswept.trans hswept', hlast', fun n => (hloop _).trans (hloop' n)⟩
termination_by todo.length

/-- The loop ends in the second round at the latest: at the first element that is not used, or at the hand. -/
theorem clockVictim_eq (hwalk : s.run.WalkInv all boot) (hres : Resident s e (s.ws e).list) (hnodup : (s.ws e).list.Nodup)
    (hlast : (s.ws e).last = some start) (hstart : start ∈ (s.ws e).list) :
    ∃ t, Swept all boot e (s.ws e).list ((circleFrom (s.ws e).list start).takeWhile (s.used e)) s t ∧
      ∀ n, (s.ws e).list.length < n →
        clockVictim e n s = some (t, ((circleFrom (s.ws e).list start).find? fun x => !s.used e x).getD start) := by
  obtain ⟨rest, horder⟩ := circleFrom_eq_cons hstart
  have hcircle : circleFrom (s.ws e).list start = [] ++ start :: rest := horder
  obtain ⟨t, hswept, hlast', hloop⟩ := clockVictim_round hwalk rfl hres hnodup hstart hcircle hlast
  rw [horder]
  refine ⟨t, hswept, fun n hn => ?_⟩
  obtain ⟨m, rfl⟩ := Nat.exists_eq_add_of_lt hn
  rw [length_of_circleFrom horder, Nat.add_assoc, Nat.add_comm, hloop]
  cases hfind : (start :: rest).find? fun x => !s.used e x with
  | some v => rfl
  | none =>
    -- every element was used and has been cleared, the hand is at the start
    rw [hfind] at hlast'
    have hcleared : t.used e start = false := by
      rw [hswept.used start hstart, takeWhile_of_find?_none hfind]
      exact cleared_of_mem (List.mem_cons_self ..)
    exact clockVictim_unused (hswept.walk hwalk) (hres.aged hswept.toAged) hstart hlast' hcleared m

/-! ### The rounds of Modified CLOCK -/

variable {isVictim : BitVec 12 → Bool} {test : Bool → Bool → Bool} {clearUsed : Bool} {n : Nat}

/-- The elements that a round of Modified CLOCK passes, when it clears them. -/
def clearedBy (clearUsed : Bool) (passed : List Nat) : List Nat := if clearUsed then passed else []

omit [DecidableEq E] in
theorem modifiedClockPass_found (htest : ∀ p, isVictim p = test (p.getLsbD 5) (p.getLsbD 6)) (hwalk : s.run.WalkInv all boot)
    (hres : Resident s e l) (hx : current ∈ l) (hfound : test (s.used e current) (s.modified e current) = true) :
    modifiedClockPass e start isVictim clearUsed (n + 1) s current = some (s, some current) := by
  unfold modifiedClockPass
  rw [hres.permissions hwalk hx, Option.bind_some, if_pos ((htest _).trans hfound)]

omit [DecidableEq E] in
/-- An element that is passed. -/
theorem modifiedClockPass_passed {next : Nat} (htest : ∀ p, isVictim p = test (p.getLsbD 5) (p.getLsbD 6))
    (hwalk : s.run.WalkInv all boot) (hres : Resident s e l) (hx : current ∈ l)
    (hpassed : test (s.used e current) (s.modified e current) = false) (hnext : (s.ws e).nextCircular current = some next) :
    ∃ t, Swept all boot e l (clearedBy clearUsed [current]) s t ∧ t.ws = s.ws ∧ (clearUsed = false → t = s) ∧
      ∀ n, modifiedClockPass e start isVictim clearUsed (n + 1) s current =
        if next = start then some (t, none) else modifiedClockPass e start isVictim clearUsed n t next := by
  have hne : ¬ isVictim (s.elementPerm e current) = true := by
    rw [htest]
    exact fun h => nomatch h.symm.trans hpassed
  obtain ⟨t, ht, hswept, hws, hkept⟩ : ∃ t,
      (if clearUsed then s.clearPermissions e (s.elementVa e current) permUsed else some s) = some t ∧
      Swept all boot e l (clearedBy clearUsed [current]) s t ∧ t.ws = s.ws ∧ (clearUsed = false → t = s) := by
    cases clearUsed with
    | true =>
      obtain ⟨t, ht, hswept, hws⟩ := hres.clearUsed hwalk hx
      exact ⟨t, ht, hswept, hws, nofun⟩
    | false => exact ⟨s, rfl, .refl s, rfl, fun _ => rfl⟩
  refine ⟨t, hswept, hws, hkept, fun n => ?_⟩
  conv_lhs => unfold modifiedClockPass
  rw [hres.permissions hwalk hx, Option.bind_some, if_neg hne, ht, Option.bind_some, hws, hnext, Option.bind_some]

omit [DecidableEq E] in
/-- A round of Modified CLOCK through the rest of the circle. -/
theorem modifiedClockPass_round (test : Bool → Bool → Bool) (htest : ∀ p, isVictim p = test (p.getLsbD 5) (p.getLsbD 6)) (hwalk : s.run.WalkInv all boot)
    (hlist : (s.ws e).list = l) (hres : Resident s e l) (hnodup : l.Nodup) (hstart : start ∈ l)
    (horder : circleFrom l start = done ++ current :: todo) (hn : todo.length < n) :
    ∃ t, modifiedClockPass e start isVictim clearUsed n s current =
        some (t, (current :: todo).find? fun x => test (s.used e x) (s.modified e x)) ∧
      Swept all boot e l (clearedBy clearUsed ((current :: todo).takeWhile fun x => !test (s.used e x) (s.modified e x))) s t ∧
      t.ws = s.ws ∧ (clearUsed = false → t = s) := by
  induction n generalizing s done todo current with
  | zero => exact absurd hn (Nat.not_lt_zero _)
  | succ n ih =>
    have hmem : current ∈ l := mem_circleFrom.mp (horder ▸ List.mem_append_right _ (List.mem_cons_self ..))
    cases htested : test (s.used e current) (s.modified e current) with
    | true =>
      simp only [List.find?_cons, List.takeWhile_cons, htested]
      refine ⟨s, modifiedClockPass_found htest hwalk hres hmem htested, ?_, rfl, fun _ => rfl⟩
      cases clearUsed <;> exact .refl s
    | false =>
      have hnext : (s.ws e).nextCircular current = some (todo.head?.getD start) := by
        subst hlist
        rw [WorkingSet.nextCircular_eq hnodup hmem, next_of_circleFrom hnodup hstart horder hmem]
      obtain ⟨u, hswept, hws, hkept, hpass⟩ := modifiedClockPass_passed htest hwalk hres hmem htested hnext
      simp only [List.find?_cons, List.takeWhile_cons, htested]
      rw [hpass]
      cases todo with
      | nil => exact ⟨u, if_pos rfl, hswept, hws, hkept⟩
      | cons next todo =>
        have horder' : circleFrom l start = (done ++ [current]) ++ next :: todo := by
          rw [horder, List.append_assoc]
          rfl
        have hrest := hswept.rest (fun x hx => by
          unfold clearedBy at hx
          split at hx
          · exact List.mem_singleton.mp hx
          · exact nomatch hx) hnodup horder
        obtain ⟨t, hfound, hswept', hws', hkept'⟩ := ih (hswept.walk hwalk) (hswept.list.trans hlist) (hres.aged hswept.toAged) horder'
          (Nat.lt_of_succ_lt_succ hn)
        have hfind : (next :: todo).find? (fun x => test (u.used e x) (u.modified e x)) =
            (next :: todo).find? fun x => test (s.used e x) (s.modified e x) :=
          List.find?_congr fun x hx => by rw [(hrest x hx).1, (hrest x hx).2]
        have hwhile : (next :: todo).takeWhile (fun x => !test (u.used e x) (u.modified e x)) =
            (next :: todo).takeWhile fun x => !test (s.used e x) (s.modified e x) :=
          takeWhile_congr fun x hx => by rw [(hrest x hx).1, (hrest x hx).2]
        rw [hfind] at hfound
        rw [hwhile] at hswept'
        have hne : next ≠ start := ne_of_circleFrom hnodup hstart horder (List.mem_cons_self ..)
        refine ⟨t, (if_neg hne).trans hfound, ?_, hws'.trans hws, fun hclear => (hkept' hclear).trans (hkept hclear)⟩
        cases clearUsed <;> exact hswept.trans hswept'

omit [DecidableEq E] in
theorem isClean_round (hwalk : s.run.WalkInv all boot) (hlist : (s.ws e).list = l) (hres : Resident s e l) (hnodup : l.Nodup)
    (hstart : start ∈ l) : modifiedClockPass e start isClean false l.length s start =
      some (s, (circleFrom l start).find? fun x => !s.used e x && !s.modified e x) := by
  obtain ⟨rest, horder⟩ := circleFrom_eq_cons hstart
  have hcircle : circleFrom l start = [] ++ start :: rest := horder
  have hn : rest.length < l.length := by
    rw [length_of_circleFrom horder]
    exact Nat.lt_succ_self _
  obtain ⟨t, ht, -, -, hkept⟩ : ∃ t, modifiedClockPass e start isClean false l.length s start = some (t, _) ∧
      Swept all boot e l (clearedBy false _) s t ∧ t.ws = s.ws ∧ (false = false → t = s) :=
    modifiedClockPass_round (fun used modified => !used && !modified) isClean_eq hwalk hlist hres hnodup hstart hcircle hn
  rw [ht, hkept rfl, horder]

omit [DecidableEq E] in
theorem isUnused_round (hwalk : s.run.WalkInv all boot) (hlist : (s.ws e).list = l) (hres : Resident s e l) (hnodup : l.Nodup)
    (hstart : start ∈ l) : ∃ t, modifiedClockPass e start isUnused true l.length s start =
        some (t, (circleFrom l start).find? fun x => !s.used e x) ∧
      Swept all boot e l ((circleFrom l start).takeWhile (s.used e)) s t ∧ t.ws = s.ws := by
  obtain ⟨rest, horder⟩ := circleFrom_eq_cons hstart
  have hcircle : circleFrom l start = [] ++ start :: rest := horder
  have hn : rest.length < l.length := by
    rw [length_of_circleFrom horder]
    exact Nat.lt_succ_self _
  obtain ⟨t, ht, hswept, hws, -⟩ : ∃ t, modifiedClockPass e start isUnused true l.length s start = some (t, _) ∧
      Swept all boot e l (clearedBy true _) s t ∧ t.ws = s.ws ∧ (true = false → t = s) :=
    modifiedClockPass_round (fun used _ => !used) isUnused_eq hwalk hlist hres hnodup hstart hcircle hn
  rw [horder]
  exact ⟨t, ht, by simpa only [clearedBy, if_true, Bool.not_not] using hswept, hws⟩

omit [DecidableEq E] in
/-- The three rounds of Modified CLOCK. -/
theorem modifiedClockVictim_eq (hwalk : s.run.WalkInv all boot) (hres : Resident s e (s.ws e).list) (hnodup : (s.ws e).list.Nodup)
    (hstart : (s.ws e).last.or (s.ws e).list.head? = some start) (hmem : start ∈ (s.ws e).list) :
    ∃ t, s.modifiedClockVictim e =
        some (t, (threeRounds (circleFrom (s.ws e).list start) start (s.modified e) (s.used e)).1) ∧
      Aged all boot e s t ∧ t.ws = s.ws ∧
      ∀ x ∈ (s.ws e).list, t.used e x = (threeRounds (circleFrom (s.ws e).list start) start (s.modified e) (s.used e)).2 x := by
  obtain ⟨t, ht, hswept, hws⟩ := isUnused_round hwalk rfl hres hnodup hmem
  have hthird := isClean_round (hswept.walk hwalk) hswept.list (hres.aged hswept.toAged) hnodup hmem
  unfold modifiedClockVictim threeRounds
  rw [hstart, Option.bind_some]
  dsimp only
  rw [isClean_round hwalk rfl hres hnodup hmem, Option.bind_some]
  cases (circleFrom (s.ws e).list start).find? fun x => !s.used e x && !s.modified e x with
  | some v => exact ⟨s, rfl, .refl s, rfl, fun _ _ => rfl⟩
  | none =>
    dsimp only
    rw [ht, Option.bind_some]
    cases (circleFrom (s.ws e).list start).find? fun x => !s.used e x with
    | some v => exact ⟨t, rfl, hswept.toAged, hws, hswept.used⟩
    | none =>
      dsimp only
      rw [hthird, Option.map_some]
      refine ⟨t, ?_, hswept.toAged, hws, hswept.used⟩
      rw [List.find?_congr fun x hx => ?_]
      have hxl := mem_circleFrom.mp hx
      rw [hswept.used x hxl, hswept.modified x hxl]

end UserMem

end Fos.Mem
