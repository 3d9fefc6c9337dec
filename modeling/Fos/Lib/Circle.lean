import Mathlib.Data.List.Cycle
import Mathlib.Data.List.Find
import Mathlib.Data.List.TakeWhile

/-! Circular lists and the clock algorithms on them: the order from an element on, and searches that clear a bit of the
    elements they pass. -/

namespace Fos.Lib

variable {α : Type} [DecidableEq α] {l pre post done todo rest order : List α} {x y v start : α} {used u modified : α → Bool}

/-! ### The order from an element on -/

/-- The elements of the circle `l` from `x` on. -/
def circleFrom (l : List α) (x : α) : List α := l.rotate (l.idxOf x)

theorem circleFrom_append (h : x ∉ pre) : circleFrom (pre ++ x :: post) x = x :: post ++ pre := by
  unfold circleFrom
  rw [List.idxOf_append_of_notMem h, List.idxOf_cons_self, Nat.add_zero, List.rotate_append_length_eq]

theorem circleFrom_eq_cons (hx : x ∈ l) : ∃ rest, circleFrom l x = x :: rest := by
  obtain ⟨pre, post, rfl, hnot⟩ := List.eq_append_cons_of_mem hx
  exact ⟨post ++ pre, circleFrom_append hnot⟩

theorem mem_circleFrom : y ∈ circleFrom l x ↔ y ∈ l := List.mem_rotate

/-- The other elements of the circle. -/
theorem length_of_circleFrom (h : circleFrom l x = y :: rest) : l.length = rest.length + 1 := by
  rw [← List.length_rotate l (l.idxOf x)]
  exact congrArg List.length h

theorem nodup_circleFrom (hl : l.Nodup) : (circleFrom l x).Nodup := List.nodup_rotate.mpr hl

/-- The successor on the circle is the next element of the order, and after the last one it is the first one. -/
theorem next_of_circleFrom (hl : l.Nodup) (hx : x ∈ l) (h : circleFrom l x = done ++ y :: todo) (hy : y ∈ l) :
    l.next y hy = todo.head?.getD x := by
  have hrotated : l ~r (y :: todo ++ done) := by
    have hcircle : l ~r circleFrom l x := ⟨_, rfl⟩
    rw [h] at hcircle
    exact hcircle.trans List.isRotated_append
  rw [List.isRotated_next_eq hrotated hl hy]
  cases todo with
  | cons z todo => exact List.next_cons_cons_eq ..
  | nil =>
    obtain ⟨rest, hrest⟩ := circleFrom_eq_cons hx
    rw [hrest] at h
    cases done with
    | nil =>
      obtain rfl : x = y := (List.cons.inj h).1
      rfl
    | cons z done =>
      obtain rfl : x = z := (List.cons.inj h).1
      exact List.next_cons_cons_eq ..

/-- The elements after the first one are others. -/
theorem ne_of_circleFrom (hl : l.Nodup) (hx : x ∈ l) (h : circleFrom l x = done ++ y :: todo) {z : α} (hz : z ∈ todo) : z ≠ x := by
  obtain ⟨rest, hrest⟩ := circleFrom_eq_cons hx
  have hnodup := nodup_circleFrom (x := x) hl
  rw [hrest] at h hnodup
  have hmem : z ∈ rest := by
    cases done with
    | nil => exact (List.cons.inj h).2 ▸ hz
    | cons d done => exact (List.cons.inj h).2 ▸ List.mem_append_right _ (List.mem_cons_of_mem _ hz)
  exact ne_of_mem_of_not_mem hmem (List.nodup_cons.mp hnodup).1

/-! ### Bits that are cleared -/

/-- The bits after the elements `passed` were passed. -/
def cleared (used : α → Bool) (passed : List α) : α → Bool := fun x => if x ∈ passed then false else used x

theorem cleared_nil : cleared used [] = used := funext fun _ => if_neg List.not_mem_nil

theorem cleared_of_mem (h : x ∈ order) : cleared used order x = false := if_pos h

omit [DecidableEq α] in
theorem takeWhile_of_find?_none {p : α → Bool} (h : order.find? (fun x => !p x) = none) : order.takeWhile p = order := by
  rw [List.find?_eq_none] at h
  exact List.takeWhile_eq_self_iff.mpr fun x hx => by simpa using h x hx

omit [DecidableEq α] in
theorem takeWhile_congr {p q : α → Bool} (h : ∀ x ∈ order, p x = q x) : order.takeWhile p = order.takeWhile q := by
  induction order with
  | nil => rfl
  | cons x order ih =>
    rw [List.takeWhile_cons, List.takeWhile_cons, h x (List.mem_cons_self ..), ih fun y hy => h y (List.mem_cons_of_mem _ hy)]

/-! ### Modified CLOCK -/

/-- Modified CLOCK: a round searches for an element neither used nor modified, the next one for an element that is not used and
    clears what it passes, and so on until one is found. -/
inductive Alternates (order : List α) (modified : α → Bool) : (α → Bool) → α → (α → Bool) → Prop
  | clean {used : α → Bool} {v : α} (h : order.find? (fun x => !used x && !modified x) = some v) :
      Alternates order modified used v used
  | unused {used : α → Bool} {v : α} (hclean : order.find? (fun x => !used x && !modified x) = none)
      (h : order.find? (fun x => !used x) = some v) : Alternates order modified used v (cleared used (order.takeWhile used))
  | again {used u : α → Bool} {v : α} (hclean : order.find? (fun x => !used x && !modified x) = none)
      (hunused : order.find? (fun x => !used x) = none)
      (h : Alternates order modified (cleared used (order.takeWhile used)) v u) : Alternates order modified used v u

/-- Three rounds, and the first element when they find nothing. -/
def threeRounds (order : List α) (start : α) (modified used : α → Bool) : α × (α → Bool) :=
  match order.find? fun x => !used x && !modified x with
  | some v => (v, used)
  | none =>
    let used' := cleared used (order.takeWhile used)
    match order.find? fun x => !used x with
    | some v => (v, used')
    | none => ((order.find? fun x => !used' x && !modified x).getD start, used')

/-- In the second round everything has been cleared: the third round finds an element that is not modified, or all are modified
    and the first one is taken. -/
theorem alternates_cleared (hclear : ∀ x ∈ start :: rest, used x = false) :
    Alternates (start :: rest) modified used v u ↔
      ((start :: rest).find? fun x => !used x && !modified x).getD start = v ∧ used = u := by
  have hstart : (start :: rest).find? (fun x => !used x) = some start :=
    List.find?_cons_of_pos (by rw [hclear start (List.mem_cons_self ..)]; rfl)
  have hnothing : (start :: rest).takeWhile used = [] :=
    List.takeWhile_cons_of_neg (by rw [hclear start (List.mem_cons_self ..)]; exact Bool.false_ne_true)
  constructor
  · rintro (h | ⟨hclean, h⟩ | ⟨-, hunused, -⟩)
    · exact ⟨by rw [h]; rfl, rfl⟩
    · rw [hstart] at h
      rw [hclean, hnothing, cleared_nil]
      exact ⟨Option.some.inj h, rfl⟩
    · exact nomatch hstart.symm.trans hunused
  · rintro ⟨rfl, rfl⟩
    cases hclean : (start :: rest).find? fun x => !used x && !modified x with
    | some v => exact .clean hclean
    | none =>
      have h := Alternates.unused hclean hstart
      rw [hnothing, cleared_nil] at h
      exact h

/-- Three rounds do what the rounds without a bound do. -/
theorem alternates_iff : Alternates (start :: rest) modified used v u ↔ threeRounds (start :: rest) start modified used = (v, u) := by
  unfold threeRounds
  cases hclean : (start :: rest).find? fun x => !used x && !modified x with
  | some w =>
    refine ⟨fun h => ?_, fun h => ?_⟩
    · rcases h with h | ⟨hnone, -⟩ | ⟨hnone, -, -⟩
      · rw [hclean] at h
        cases h
        rfl
      · exact nomatch hclean.symm.trans hnone
      · exact nomatch hclean.symm.trans hnone
    · cases h
      exact .clean hclean
  | none =>
    dsimp only
    cases hunused : (start :: rest).find? fun x => !used x with
    | some w =>
      refine ⟨fun h => ?_, fun h => ?_⟩
      · rcases h with h | ⟨-, h⟩ | ⟨-, hnone, -⟩
        · exact nomatch hclean.symm.trans h
        · rw [hunused] at h
          cases h
          rfl
        · exact nomatch hunused.symm.trans hnone
      · cases h
        exact .unused hclean hunused
    | none =>
      have hall := takeWhile_of_find?_none hunused
      have hagain : Alternates (start :: rest) modified (cleared used (start :: rest)) v u ↔ _ :=
        alternates_cleared fun x hx => cleared_of_mem hx
      dsimp only
      rw [hall, Prod.mk.injEq, ← hagain]
      refine ⟨fun h => ?_, fun h => .again hclean hunused (hall.symm ▸ h)⟩
      rcases h with h | ⟨-, h⟩ | ⟨-, -, h⟩
      · exact nomatch hclean.symm.trans h
      · exact nomatch hunused.symm.trans h
      · rwa [hall] at h

end Fos.Lib
