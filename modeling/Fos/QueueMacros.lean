import Fos.Queue

/-! The macros of `inc/queue.h` on one list. The links of its elements are all that a macro follows, so that nothing is asked of
    the other lists that share the link field. -/

namespace Fos
open Lib

variable {ι α : Type} [DecidableEq ι] [DecidableEq α]

namespace Lists

/-- `LIST_INSERT_AFTER` -/
def insertAfter (s : Lists ι α) (i : ι) (at_ e : α) : Lists ι α :=
  let s := s.setNext e (s.link at_).next
  let s := match (s.link at_).next with
    | some n => s.setPrev n (some e)
    | none => s
  let s := s.setNext at_ (some e)
  let s := s.setPrev e (some at_)
  let s := if (s.link e).next = none then s.setLast i (some e) else s
  s.setSize i ((s.head i).size + 1)

/-- `LIST_CONCAT` -/
def concat (s : Lists ι α) (i j : ι) : Lists ι α :=
  let s := match (s.head i).first, (s.head i).last, (s.head j).first with
    | none, _, p => (s.setFirst i p).setLast i (s.head j).last
    | some _, some l, some f =>
      let s := s.setNext l (some f)
      let s := s.setPrev f (some l)
      let s := s.setLast i (s.head j).last
      s.init j
    | some _, _, _ => s
  s.setSize i ((s.head i).size + (s.head j).size)

/-- The head and the links describe the list `l` of distinct elements. -/
structure WellFormed (s : Lists ι α) (i : ι) (l : List α) : Prop where
  spelled : Spelled s.link l
  nodup : l.Nodup
  first : (s.head i).first = l.head?
  last : (s.head i).last = l.getLast?
  size : (s.head i).size = UInt32.ofNat l.length

/-- The list `l` has become `l'`, in which `e` is put or from which it is taken: the links of the other elements and the other
    heads are as before. -/
structure Becomes (s t : Lists ι α) (i : ι) (e : α) (l l' : List α) : Prop where
  wellFormed : t.WellFormed i l'
  links : ∀ x, x ∉ l → x ≠ e → t.link x = s.link x
  heads : ∀ j, j ≠ i → t.head j = s.head j

/-! ### A list by itself -/

/-- The family of the one list. -/
def only (s : Lists ι α) (i : ι) : Lists Unit α := ⟨fun _ => s.head i, s.link⟩

section Only
variable (s : Lists ι α) (i : ι) (e at_ : α) (p : Option α) (n : UInt32)

omit [DecidableEq ι] in
@[simp] theorem only_setNext : (s.setNext e p).only i = (s.only i).setNext e p := rfl

omit [DecidableEq ι] in
@[simp] theorem only_setPrev : (s.setPrev e p).only i = (s.only i).setPrev e p := rfl

omit [DecidableEq α] in
@[simp] theorem only_setFirst : (s.setFirst i p).only i = (s.only i).setFirst () p := by
  simp [only, setFirst, update_unit]

omit [DecidableEq α] in
@[simp] theorem only_setLast : (s.setLast i p).only i = (s.only i).setLast () p := by
  simp [only, setLast, update_unit]

omit [DecidableEq α] in
@[simp] theorem only_setSize : (s.setSize i n).only i = (s.only i).setSize () n := by
  simp [only, setSize, update_unit]

omit [DecidableEq ι] [DecidableEq α] in
@[simp] theorem head_only : (s.only i).head () = s.head i := rfl

omit [DecidableEq ι] [DecidableEq α] in
@[simp] theorem link_only : (s.only i).link = s.link := rfl

theorem only_insertHead : (s.insertHead i e).only i = (s.only i).insertHead () e := by
  unfold insertHead
  cases h : (s.head i).first <;> simp [h]

theorem only_insertTail : (s.insertTail i e).only i = (s.only i).insertTail () e := by
  unfold insertTail
  cases h : (s.head i).last <;> simp [h]

theorem only_insertBefore : (s.insertBefore i at_ e).only i = (s.only i).insertBefore () at_ e := by
  unfold insertBefore
  simp only [link_setNext, link_setPrev]
  split <;> split <;> simp_all

theorem only_remove : (s.remove i e).only i = (s.only i).remove () e := by
  unfold remove
  cases hn : (s.link e).next with
  | none => cases hp : (s.link e).prev <;> simp [hn, hp]
  | some n =>
    -- The element may be its own neighbour here, so that the second test is of a link that was written.
    have hsame : ((s.only i).setPrev n (s.link e).prev).link e = (s.setPrev n (s.link e).prev).link e := rfl
    simp only [hn, link_only, hsame]
    cases hp : ((s.setPrev n (s.link e).prev).link e).prev <;> simp

theorem only_insertAfter : (s.insertAfter i at_ e).only i = (s.only i).insertAfter () at_ e := by
  unfold insertAfter
  simp only [link_setNext]
  split <;> split <;> simp_all

end Only

variable {s t : Lists ι α} {i j : ι} {e at_ : α} {l a b : List α}

omit [DecidableEq ι] [DecidableEq α] in
theorem wellFormed_iff : s.WellFormed i l ↔ (s.only i).Spells fun _ => l where
  mp h := ⟨⟨fun _ => h.spelled, fun _ => h.first, fun _ => h.nodup, fun _ _ _ _ _ => rfl⟩, fun _ => h.last, fun _ => h.size⟩
  mpr h := ⟨h.spelled (), h.nodup (), h.first (), h.last (), h.size ()⟩

/-! ### The operations -/

theorem Spells.insertAfter {L : ι → List α} (h : Spells s L) (hi : L i = a ++ at_ :: b) (he : ∀ j, e ∉ L j) :
    Spells (s.insertAfter i at_ e) (Function.update L i (a ++ at_ :: e :: b)) := by
  have hfirst := h.first i
  have hlast := h.last i
  have hnext := (hi ▸ h.spelled i).next_of_split
  have hprev := (hi ▸ h.spelled i).prev_of_split
  have hea : at_ ≠ e := fun hea => he i (by simp [hi, hea])
  have hsplit : a ++ at_ :: b = a ++ [at_] ++ b := (List.append_cons ..)
  have hinserted : a ++ at_ :: e :: b = a ++ [at_] ++ e :: b := (List.append_cons ..)
  rw [hi] at hfirst hlast
  rw [hinserted]
  cases b with
  | nil =>
    refine h.insert (hi.trans hsplit) he ?_ (fun j hj => ?_) ?_ fun x hx => ?_
    · simp [Lists.insertAfter, hnext, hea, hea.symm, hfirst]
    · simp [Lists.insertAfter, hnext, hea, hea.symm, hj]
    · simp [Lists.insertAfter, hnext, hea, hea.symm]
    · by_cases hxa : x = at_
      · simp [Lists.insertAfter, hnext, hxa, hea, hea.symm]
      · simp [Lists.insertAfter, hnext, hx, hxa, hea, hea.symm, Ne.symm hxa]
  | cons n b =>
    have hne : n ≠ e := fun hne => he i (by simp [hi, hne])
    have hna : n ≠ at_ := by
      rintro rfl
      exact (List.nodup_cons.mp (List.nodup_append.mp (hi ▸ h.nodup i)).2.1).1 (by simp)
    refine h.insert (hi.trans hsplit) he ?_ (fun j hj => ?_) ?_ fun x hx => ?_
    · simp [Lists.insertAfter, hnext, hea, hea.symm, hne.symm, hfirst, hlast]
    · simp [Lists.insertAfter, hnext, hea, hea.symm, hne.symm, hj]
    · simp [Lists.insertAfter, hnext, hea, hea.symm, hne.symm]
    · by_cases hxa : x = at_
      · simp [Lists.insertAfter, hnext, hxa, hea, hea.symm, hne.symm, hna, hna.symm]
      · by_cases hxn : x = n
        · simp [Lists.insertAfter, hnext, hxn, hea, hea.symm, hne, hne.symm, hna, hna.symm]
        · simp [Lists.insertAfter, hnext, hx, hxa, hxn, hea, hea.symm, hne.symm, Ne.symm hxa, Ne.symm hxn]

/-! ### What they leave alone -/

section Frames
variable {x : α}

theorem WellFormed.link_insertHead (h : s.WellFormed i l) (hx : x ∉ l) (hxe : x ≠ e) : (s.insertHead i e).link x = s.link x := by
  have hfirst : ∀ f, (s.head i).first = some f → x ≠ f := by
    rintro f hf rfl
    exact hx (List.mem_of_head? (h.first.symm.trans hf))
  unfold insertHead
  cases hf : (s.head i).first with
  | none => simp [hf, hxe]
  | some f => simp [hf, hxe, hfirst f hf]

theorem WellFormed.link_insertBefore (h : s.WellFormed i (a ++ at_ :: b)) (hx : x ∉ a ++ at_ :: b) (hxe : x ≠ e) (hea : at_ ≠ e) :
    (s.insertBefore i at_ e).link x = s.link x := by
  have hprev := h.spelled.prev_of_split
  have hxa : x ≠ at_ := fun heq => hx (by simp [heq])
  have hneighbour : ∀ p, (s.link at_).prev = some p → x ≠ p := by
    rintro p hp rfl
    exact hx (List.mem_append_left _ (List.mem_of_getLast? (hprev.symm.trans hp)))
  unfold insertBefore
  cases hp : (s.link at_).prev with
  | none => simp [hp, hxe, hxa, hea]
  | some p => simp [hp, hxe, hxa, hea, hneighbour p hp]

theorem WellFormed.link_insertAfter (h : s.WellFormed i (a ++ at_ :: b)) (hx : x ∉ a ++ at_ :: b) (hxe : x ≠ e) (hea : at_ ≠ e) :
    (s.insertAfter i at_ e).link x = s.link x := by
  have hnext := h.spelled.next_of_split
  have hxa : x ≠ at_ := fun heq => hx (by simp [heq])
  have hneighbour : ∀ n, (s.link at_).next = some n → x ≠ n := by
    rintro n hn rfl
    exact hx (List.mem_append_right _ (List.mem_cons_of_mem _ (List.mem_of_head? (hnext.symm.trans hn))))
  unfold insertAfter
  cases hn : (s.link at_).next with
  | none =>
    simp only [link_setNext, hea, if_false, hn]
    split <;> simp [hxe, hxa]
  | some n =>
    simp only [link_setNext, hea, if_false, hn]
    split <;> simp [hxe, hxa, hneighbour n hn]

/-- A macro writes no head but that of its list. -/
theorem head_of_ne (at_ : α) (hj : j ≠ i) : (s.insertHead i e).head j = s.head j ∧ (s.insertTail i e).head j = s.head j ∧
    (s.insertBefore i at_ e).head j = s.head j ∧ (s.insertAfter i at_ e).head j = s.head j ∧
    (s.remove i e).head j = s.head j := by
  refine ⟨?_, ?_, ?_, ?_, ?_⟩
  · unfold insertHead
    dsimp only
    split <;> simp [hj]
  · unfold insertTail
    dsimp only
    split <;> simp [hj]
  · unfold insertBefore
    dsimp only
    split <;> simp [hj]
  · unfold insertAfter
    dsimp only
    split <;> split <;> simp [hj]
  · unfold remove
    dsimp only
    split <;> split <;> simp [hj]

end Frames

omit [DecidableEq ι] [DecidableEq α] in
/-- Another list stays well formed. -/
theorem Becomes.other {l' m : List α} (h : s.Becomes t i e l l') (hm : s.WellFormed j m) (hj : j ≠ i) (hdisjoint : ∀ x ∈ m, x ∉ l)
    (he : e ∉ m) : t.WellFormed j m where
  spelled := hm.spelled.congr fun x hx => h.links x (hdisjoint x hx) fun heq => he (heq ▸ hx)
  nodup := hm.nodup
  first := (congrArg ListHead.first (h.heads j hj)).trans hm.first
  last := (congrArg ListHead.last (h.heads j hj)).trans hm.last
  size := (congrArg ListHead.size (h.heads j hj)).trans hm.size

/-! ### The macros refine lists -/

theorem WellFormed.insertHead (h : s.WellFormed i l) (he : e ∉ l) : s.Becomes (s.insertHead i e) i e l (e :: l) where
  wellFormed := by
    have hspells := (wellFormed_iff.mp h).insertHead (i := ()) (e := e) fun _ => he
    rw [update_unit, ← only_insertHead] at hspells
    exact wellFormed_iff.mpr hspells
  links := fun _ hx hxe => h.link_insertHead hx hxe
  heads := fun _ hj => (head_of_ne e hj).1

theorem WellFormed.insertTail (h : s.WellFormed i l) (he : e ∉ l) : s.Becomes (s.insertTail i e) i e l (l ++ [e]) where
  wellFormed := by
    have hspells := (wellFormed_iff.mp h).insertTail (i := ()) (e := e) fun _ => he
    rw [update_unit, ← only_insertTail] at hspells
    exact wellFormed_iff.mpr hspells
  links := fun x hx hxe => by
    have hlink := (wellFormed_iff.mp h).link_insertTail (i := ()) hxe hx
    rw [← only_insertTail] at hlink
    exact hlink
  heads := fun _ hj => (head_of_ne e hj).2.1

theorem WellFormed.insertBefore (h : s.WellFormed i (a ++ at_ :: b)) (he : e ∉ a ++ at_ :: b) :
    s.Becomes (s.insertBefore i at_ e) i e (a ++ at_ :: b) (a ++ e :: at_ :: b) where
  wellFormed := by
    have hspells := (wellFormed_iff.mp h).insertBefore (i := ()) (e := e) rfl fun _ => he
    rw [update_unit, ← only_insertBefore] at hspells
    exact wellFormed_iff.mpr hspells
  links := fun _ hx hxe => h.link_insertBefore hx hxe fun heq => he (by simp [heq])
  heads := fun _ hj => (head_of_ne at_ hj).2.2.1

theorem WellFormed.insertAfter (h : s.WellFormed i (a ++ at_ :: b)) (he : e ∉ a ++ at_ :: b) :
    s.Becomes (s.insertAfter i at_ e) i e (a ++ at_ :: b) (a ++ at_ :: e :: b) where
  wellFormed := by
    have hspells := (wellFormed_iff.mp h).insertAfter (i := ()) (e := e) rfl fun _ => he
    rw [update_unit, ← only_insertAfter] at hspells
    exact wellFormed_iff.mpr hspells
  links := fun _ hx hxe => h.link_insertAfter hx hxe fun heq => he (by simp [heq])
  heads := fun _ hj => (head_of_ne at_ hj).2.2.2.1

theorem WellFormed.remove (h : s.WellFormed i (a ++ e :: b)) : s.Becomes (s.remove i e) i e (a ++ e :: b) (a ++ b) where
  wellFormed := by
    have hspells := (wellFormed_iff.mp h).remove_split (i := ()) rfl
    rw [update_unit, ← only_remove] at hspells
    exact wellFormed_iff.mpr hspells
  links := fun x hx _ => by
    have hlink := (wellFormed_iff.mp h).link_remove (i := ()) (List.mem_append_right a (List.mem_cons_self ..)) hx
    rw [← only_remove] at hlink
    exact hlink
  heads := fun _ hj => (head_of_ne e hj).2.2.2.2

/-- The macros put an element at the head, at the tail, before or after an element, and take one out, of every list that is well
    formed. -/
theorem list_macros_refine (h : s.WellFormed i l) :
    (∀ e, e ∉ l → s.Becomes (s.insertHead i e) i e l (e :: l) ∧ s.Becomes (s.insertTail i e) i e l (l ++ [e]) ∧
      ∀ a at_ b, l = a ++ at_ :: b → s.Becomes (s.insertBefore i at_ e) i e l (a ++ e :: at_ :: b) ∧
        s.Becomes (s.insertAfter i at_ e) i e l (a ++ at_ :: e :: b)) ∧
    ∀ a e b, l = a ++ e :: b → s.Becomes (s.remove i e) i e l (a ++ b) := by
  refine ⟨fun e he => ⟨h.insertHead he, h.insertTail he, fun a at_ b hl => ?_⟩, fun a e b hl => ?_⟩
  · subst hl
    exact ⟨h.insertBefore he, h.insertAfter he⟩
  · subst hl
    exact h.remove

/-- The elements 1 and 2 in a list -/
def oneTwo : Lists Unit Nat := (Lists.insertTail {} () 1).insertTail () 2

theorem list_macros_refine_two : (∀ e, e ∉ [1, 2] → oneTwo.Becomes (oneTwo.insertHead () e) () e [1, 2] (e :: [1, 2]) ∧
      oneTwo.Becomes (oneTwo.insertTail () e) () e [1, 2] ([1, 2] ++ [e]) ∧
      ∀ a at_ b, [1, 2] = a ++ at_ :: b →
        oneTwo.Becomes (oneTwo.insertBefore () at_ e) () e [1, 2] (a ++ e :: at_ :: b) ∧
          oneTwo.Becomes (oneTwo.insertAfter () at_ e) () e [1, 2] (a ++ at_ :: e :: b)) ∧
    ∀ a e b, [1, 2] = a ++ e :: b → oneTwo.Becomes (oneTwo.remove () e) () e [1, 2] (a ++ b) := by
  have hnil : (Lists.mk (fun _ : Unit => {}) fun _ : Nat => {}).WellFormed () [] := wellFormed_iff.mpr (spells_nil fun _ => rfl)
  have hone := (hnil.insertTail (List.not_mem_nil (a := 1))).wellFormed
  exact list_macros_refine (hone.insertTail (show 2 ∉ [1] by decide)).wellFormed

/-! ### `LIST_CONCAT` -/

/-- The first list has become the concatenation of both, and the second one is empty. -/
structure Concatenated (t : Lists ι α) (i j : ι) (l₁ l₂ : List α) : Prop where
  wellFormed : t.WellFormed i (l₁ ++ l₂)
  emptied : t.WellFormed j []

variable {l₁ l₂ : List α}

/-- What `LIST_CONCAT` does to the heads: the second list stays if the first is empty, and is not counted otherwise. -/
theorem WellFormed.concat_heads (h₁ : s.WellFormed i l₁) (h₂ : s.WellFormed j l₂) (hij : i ≠ j) :
    (s.concat i j).head i = ⟨(l₁ ++ l₂).head?, (l₁ ++ l₂).getLast?, UInt32.ofNat (if l₁ = [] then l₂.length else l₁.length)⟩ ∧
      (s.concat i j).head j = if l₁ = [] then s.head j else {} := by
  have hfirst₁ := h₁.first
  have hlast₁ := h₁.last
  have hsize₁ := h₁.size
  have hfirst₂ := h₂.first
  have hlast₂ := h₂.last
  have hsize₂ := h₂.size
  cases l₁ with
  | nil => simp [concat, hij.symm, hfirst₁, hsize₁, hfirst₂, hlast₂, hsize₂]
  | cons x l =>
    rw [List.getLast?_eq_some_getLast (List.cons_ne_nil x l)] at hlast₁
    cases l₂ with
    | nil =>
      have hempty : s.head j = {} := by
        cases hhead : s.head j with
        | mk first last size =>
          rw [hhead] at hfirst₂ hlast₂ hsize₂
          cases hfirst₂
          cases hlast₂
          cases hsize₂
          rfl
      simp [concat, hij.symm, hfirst₁, hlast₁, hsize₁, hempty, List.getLast?_eq_some_getLast (List.cons_ne_nil x l)]
    | cons f b =>
      have hlast : (x :: l ++ f :: b).getLast? = (f :: b).getLast? := List.getLast?_append_of_ne_nil _ (List.cons_ne_nil f b)
      simp [concat, init, hij, hij.symm, hfirst₁, hlast₁, hsize₁, hfirst₂, hlast₂]
      exact hlast.symm

/-- The links spell the concatenation. -/
theorem WellFormed.concat_spelled (h₁ : s.WellFormed i l₁) (h₂ : s.WellFormed j l₂) (hdisjoint : l₁.Disjoint l₂) :
    Spelled (s.concat i j).link (l₁ ++ l₂) := by
  have hfirst₁ := h₁.first
  have hlast₁ := h₁.last
  have hfirst₂ := h₂.first
  cases l₁ with
  | nil => simpa [concat, hfirst₁] using h₂.spelled
  | cons x l =>
    rw [List.getLast?_eq_some_getLast (List.cons_ne_nil x l)] at hlast₁
    cases l₂ with
    | nil => simpa [concat, hfirst₁, hlast₁, hfirst₂] using h₁.spelled
    | cons f b =>
      have hnodup : (x :: l ++ f :: b).Nodup := h₁.nodup.append h₂.nodup hdisjoint
      refine Spelled.append h₁.spelled h₂.spelled hnodup fun y hy => ?_
      have hne : (x :: l).getLast (List.cons_ne_nil x l) ≠ f := fun heq =>
        hdisjoint (heq ▸ List.getLast_mem (List.cons_ne_nil x l)) (List.mem_cons_self ..)
      rw [List.getLast?_eq_some_getLast (List.cons_ne_nil x l)]
      generalize (x :: l).getLast (List.cons_ne_nil x l) = last at hlast₁ hne
      by_cases hyl : y = last
      · subst hyl
        simp [concat, init, hfirst₁, hlast₁, hfirst₂, hne, hne.symm]
      · by_cases hyf : y = f
        · simp [concat, init, hfirst₁, hlast₁, hfirst₂, hyf, hne, hne.symm]
        · simp [concat, init, hfirst₁, hlast₁, hfirst₂, hyl, hyf, Ne.symm hyl, Ne.symm hyf]

/-- For all lists that are well formed and disjoint, with fewer elements than there are addresses: `LIST_CONCAT` concatenates them and
    empties the second one if and only if that was empty. -/
theorem list_concat_iff (h₁ : s.WellFormed i l₁) (h₂ : s.WellFormed j l₂) (hij : i ≠ j) (hdisjoint : l₁.Disjoint l₂)
    (hlt : l₂.length < 4294967296) : (s.concat i j).Concatenated i j l₁ l₂ ↔ l₂ = [] := by
  obtain ⟨hi, hj⟩ := h₁.concat_heads h₂ hij
  constructor
  · intro h
    by_contra hne
    by_cases hnil : l₁ = []
    · have hfirst := h.emptied.first
      rw [hj, if_pos hnil, h₂.first] at hfirst
      exact hne (List.head?_eq_none_iff.mp hfirst)
    · -- Both have elements: those of the second list are not counted.
      have hsize := h.wellFormed.size
      rw [hi, if_neg hnil] at hsize
      have hmod := congrArg UInt32.toNat hsize
      have hpos := List.length_pos_of_ne_nil hne
      rw [UInt32.toNat_ofNat', UInt32.toNat_ofNat', List.length_append] at hmod
      omega
  · rintro rfl
    rw [List.append_nil] at hi
    refine ⟨⟨h₁.concat_spelled h₂ hdisjoint, ?_, ?_, ?_, ?_⟩, spelled_nil, List.nodup_nil, ?_, ?_, ?_⟩
    · rw [List.append_nil]
      exact h₁.nodup
    · rw [hi, List.append_nil]
    · rw [hi, List.append_nil]
    · rw [hi, List.append_nil]
      split
      · next hnil => rw [hnil]
      · rfl
    all_goals
      rw [hj]
      split
      · first | exact h₂.first | exact h₂.last | exact h₂.size
      · rfl

/-- The element 1 in one list and the element 2 in the other -/
def oneEach : Lists Bool Nat := (Lists.insertTail {} false 1).insertTail true 2

theorem oneEach_wellFormed : (Lists.insertTail {} false 1 : Lists Bool Nat).WellFormed false [1] ∧
    (Lists.insertTail {} false 1 : Lists Bool Nat).WellFormed true [] ∧ oneEach.WellFormed false [1] ∧ oneEach.WellFormed true [2] := by
  have hnil : ∀ i, (Lists.mk (fun _ : Bool => {}) fun _ : Nat => {}).WellFormed i [] := fun _ =>
    wellFormed_iff.mpr (spells_nil fun _ => rfl)
  have hone := (hnil false).insertTail (List.not_mem_nil (a := 1))
  have hempty := hone.other (hnil true) (by decide) nofun List.not_mem_nil
  have htwo := hempty.insertTail (List.not_mem_nil (a := 2))
  exact ⟨hone.wellFormed, hempty, htwo.other hone.wellFormed (by decide) (fun _ _ => List.not_mem_nil) (by decide), htwo.wellFormed⟩

theorem list_concat_iff_empty : ((Lists.insertTail {} false 1 : Lists Bool Nat).concat false true).Concatenated false true [1] [] ↔
    ([] : List Nat) = [] :=
  list_concat_iff oneEach_wellFormed.1 oneEach_wellFormed.2.1 (by decide) (by simp) (by decide)

/-- The size of the concatenation of two lists of one element is 1. -/
theorem list_concat_size : oneEach.WellFormed false [1] ∧ oneEach.WellFormed true [2] ∧
    ¬ (oneEach.concat false true).Concatenated false true [1] [2] := by
  refine ⟨oneEach_wellFormed.2.2.1, oneEach_wellFormed.2.2.2, fun h => ?_⟩
  have hsize := h.wellFormed.size
  revert hsize
  decide

end Lists

end Fos
