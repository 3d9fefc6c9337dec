import Fos.Lib.Spelled
import Mathlib.Logic.Function.Basic

/-! The intrusive lists of `inc/queue.h`. A family of list heads indexed by `ι` shares one link field
    (`prev_next_info`) of the elements, so that an operation on one list can reach the links of another.
    The macros panic on a null element: the callers whose element may be null test it. -/

namespace Fos
open Lib

/-- `LIST_HEAD`, without the scratch pointer of `LIST_FOREACH`. -/
structure ListHead (α : Type) where
  first : Option α := none
  last : Option α := none
  size : UInt32 := 0
  deriving DecidableEq, Repr

/-- The heads and the links that their elements carry. -/
structure Lists (ι α : Type) where
  head : ι → ListHead α := fun _ => {}
  link : α → Link α := fun _ => {}

variable {ι α : Type} [DecidableEq ι] [DecidableEq α]

namespace Lists

def setNext (s : Lists ι α) (e : α) (p : Option α) : Lists ι α :=
  { s with link := Function.update s.link e { s.link e with next := p } }

def setPrev (s : Lists ι α) (e : α) (p : Option α) : Lists ι α :=
  { s with link := Function.update s.link e { s.link e with prev := p } }

def setFirst (s : Lists ι α) (i : ι) (p : Option α) : Lists ι α :=
  { s with head := Function.update s.head i { s.head i with first := p } }

def setLast (s : Lists ι α) (i : ι) (p : Option α) : Lists ι α :=
  { s with head := Function.update s.head i { s.head i with last := p } }

def setSize (s : Lists ι α) (i : ι) (n : UInt32) : Lists ι α :=
  { s with head := Function.update s.head i { s.head i with size := n } }

/-- `LIST_INIT` -/
def init (s : Lists ι α) (i : ι) : Lists ι α := { s with head := Function.update s.head i {} }

/-- `LIST_INSERT_HEAD` -/
def insertHead (s : Lists ι α) (i : ι) (e : α) : Lists ι α :=
  let s := s.setNext e (s.head i).first
  let s := match (s.head i).first with
    | some f => s.setPrev f (some e)
    | none => s.setLast i (some e)
  let s := s.setFirst i (some e)
  let s := s.setPrev e none
  s.setSize i ((s.head i).size + 1)

/-- `LIST_INSERT_TAIL` -/
def insertTail (s : Lists ι α) (i : ι) (e : α) : Lists ι α :=
  let s := s.setPrev e (s.head i).last
  let s := match (s.head i).last with
    | some l => s.setNext l (some e)
    | none => s.setFirst i (some e)
  let s := s.setLast i (some e)
  let s := s.setNext e none
  s.setSize i ((s.head i).size + 1)

/-- `LIST_INSERT_BEFORE` -/
def insertBefore (s : Lists ι α) (i : ι) (at_ e : α) : Lists ι α :=
  let s := s.setPrev e (s.link at_).prev
  let s := s.setNext e (some at_)
  let s := match (s.link at_).prev with
    | some p => s.setNext p (some e)
    | none => s.setFirst i (some e)
  let s := s.setPrev at_ (some e)
  s.setSize i ((s.head i).size + 1)

/-- `LIST_REMOVE` -/
def remove (s : Lists ι α) (i : ι) (e : α) : Lists ι α :=
  let s := match (s.link e).next with
    | some n => s.setPrev n (s.link e).prev
    | none => s.setLast i (s.link e).prev
  let s := match (s.link e).prev with
    | some p => s.setNext p (s.link e).next
    | none => s.setFirst i (s.link e).next
  let s := s.setNext e none
  let s := s.setPrev e none
  s.setSize i ((s.head i).size - 1)

section Setters
variable (s : Lists ι α) (e x : α) (i j : ι) (p : Option α) (n : UInt32)

omit [DecidableEq ι] in
@[simp] theorem link_setNext : (s.setNext e p).link x = if x = e then ⟨p, (s.link e).prev⟩ else s.link x := by
  simp [setNext, Function.update_apply]

omit [DecidableEq ι] in
@[simp] theorem link_setPrev : (s.setPrev e p).link x = if x = e then ⟨(s.link e).next, p⟩ else s.link x := by
  simp [setPrev, Function.update_apply]

omit [DecidableEq α] in
@[simp] theorem head_setFirst : (s.setFirst i p).head j = if j = i then ⟨p, (s.head i).last, (s.head i).size⟩
    else s.head j := by
  simp [setFirst, Function.update_apply]

omit [DecidableEq α] in
@[simp] theorem head_setLast : (s.setLast i p).head j = if j = i then ⟨(s.head i).first, p, (s.head i).size⟩
    else s.head j := by
  simp [setLast, Function.update_apply]

omit [DecidableEq α] in
@[simp] theorem head_setSize : (s.setSize i n).head j = if j = i then ⟨(s.head i).first, (s.head i).last, n⟩
    else s.head j := by
  simp [setSize, Function.update_apply]

omit [DecidableEq ι] in
@[simp] theorem head_setNext : (s.setNext e p).head = s.head := rfl

omit [DecidableEq ι] in
@[simp] theorem head_setPrev : (s.setPrev e p).head = s.head := rfl

omit [DecidableEq α] in
@[simp] theorem link_setFirst : (s.setFirst i p).link = s.link := rfl

omit [DecidableEq α] in
@[simp] theorem link_setLast : (s.setLast i p).link = s.link := rfl

omit [DecidableEq α] in
@[simp] theorem link_setSize : (s.setSize i n).link = s.link := rfl

end Setters

theorem insertHead_first (s : Lists ι α) (i : ι) (e : α) : ((s.insertHead i e).head i).first = some e := by
  simp [insertHead]

/-! ### What the lists spell -/

/-- The heads and links spell the lists `L`, which share no element. -/
structure Spells (s : Lists ι α) (L : ι → List α) : Prop extends Threads (fun i => (s.head i).first) s.link L where
  last : ∀ i, (s.head i).last = (L i).getLast?
  size : ∀ i, (s.head i).size = UInt32.ofNat (L i).length

variable {s t : Lists ι α} {L : ι → List α} {i : ι} {e : α} {a b : List α}

omit [DecidableEq ι] [DecidableEq α] in
theorem spells_nil (h : ∀ j, s.head j = {}) : s.Spells fun _ => [] where
  spelled := fun _ => spelled_nil
  first := fun j => by simp [h j]
  last := fun j => by simp [h j]
  size := fun j => by simp [h j]
  nodup := fun _ => List.nodup_nil
  disjoint := fun _ _ _ hx => by simp at hx

/-- What an insertion of `e` between `a` and `b` must write. -/
theorem Spells.insert (h : Spells s L) (hi : L i = a ++ b) (he : ∀ j, e ∉ L j)
    (hhead : t.head i = ⟨(a ++ e :: b).head?, (a ++ e :: b).getLast?, (s.head i).size + 1⟩)
    (hheads : ∀ j, j ≠ i → t.head j = s.head j)
    (hlink : t.link e = ⟨b.head?, a.getLast?⟩)
    (hother : ∀ x, x ≠ e → t.link x = ⟨if a.getLast? = some x then some e else (s.link x).next,
      if b.head? = some x then some e else (s.link x).prev⟩) : Spells t (Function.update L i (a ++ e :: b)) := by
  refine ⟨h.toThreads.insert hi he (by rw [hhead]) (fun j hj => by rw [hheads j hj]) hlink hother, ?_, ?_⟩
  · intro j
    by_cases hj : j = i
    · simp [hj, hhead]
    · simp [hj, hheads j hj, h.last j]
  · intro j
    by_cases hj : j = i
    · subst hj
      simp only [hhead, Function.update_self, h.size j, hi, List.length_append, List.length_cons]
      rw [← Nat.add_assoc, UInt32.ofNat_add _ 1]
      rfl
    · simp [hj, hheads j hj, h.size j]

/-- What a removal of `e` from between `a` and `b` must write. -/
theorem Spells.unlink (h : Spells s L) (hi : L i = a ++ e :: b)
    (hhead : t.head i = ⟨(a ++ b).head?, (a ++ b).getLast?, (s.head i).size - 1⟩)
    (hheads : ∀ j, j ≠ i → t.head j = s.head j)
    (hother : ∀ x, x ≠ e → t.link x = ⟨if a.getLast? = some x then b.head? else (s.link x).next,
      if b.head? = some x then a.getLast? else (s.link x).prev⟩) : Spells t (Function.update L i (a ++ b)) := by
  refine ⟨h.toThreads.unlink hi (by rw [hhead]) (fun j hj => by rw [hheads j hj]) hother, ?_, ?_⟩
  · intro j
    by_cases hj : j = i
    · simp [hj, hhead]
    · simp [hj, hheads j hj, h.last j]
  · intro j
    by_cases hj : j = i
    · subst hj
      simp only [hhead, Function.update_self, h.size j, hi, List.length_append, List.length_cons]
      rw [← Nat.add_assoc, UInt32.ofNat_add _ 1]
      exact UInt32.add_sub_cancel _ _
    · simp [hj, hheads j hj, h.size j]

omit [DecidableEq ι] [DecidableEq α] in
/-- What is written outside the elements of the lists does not matter. -/
theorem Spells.congr_link (h : Spells s L) {link : α → Link α} (hl : ∀ i, ∀ x ∈ L i, link x = s.link x) :
    Spells { s with link := link } L :=
  ⟨h.toThreads.congr_link hl, h.last, h.size⟩

/-! ### The operations -/

theorem Spells.insertHead (h : Spells s L) (he : ∀ j, e ∉ L j) :
    Spells (s.insertHead i e) (Function.update L i (e :: L i)) := by
  have hfirst := h.first i
  have hlast := h.last i
  cases hL : L i with
  | nil =>
    rw [hL] at hfirst hlast
    refine h.insert (a := []) (b := []) hL he ?_ (fun j hj => ?_) ?_ fun x hx => ?_
    all_goals simp [Lists.insertHead, *]
  | cons f l =>
    have hef : f ≠ e := fun hef => he i (by simp [hL, hef])
    rw [hL] at hfirst hlast
    refine h.insert (a := []) (b := f :: l) hL he ?_ (fun j hj => ?_) ?_ fun x hx => ?_
    · simp [Lists.insertHead, hfirst, hlast]
    · simp [Lists.insertHead, hfirst, hj]
    · simp [Lists.insertHead, hfirst, hef.symm]
    · by_cases hxf : x = f
      · simp [Lists.insertHead, hfirst, hxf, hef]
      · simp [Lists.insertHead, hfirst, hx, hxf, Ne.symm hxf]

theorem Spells.insertTail (h : Spells s L) (he : ∀ j, e ∉ L j) :
    Spells (s.insertTail i e) (Function.update L i (L i ++ [e])) := by
  have hfirst := h.first i
  have hlast := h.last i
  rcases List.eq_nil_or_concat (L i) with hL | ⟨l, f, hL⟩
  · rw [hL] at hfirst hlast ⊢
    refine h.insert (a := []) (b := []) hL he ?_ (fun j hj => ?_) ?_ fun x hx => ?_
    all_goals simp [Lists.insertTail, *]
  · rw [List.concat_eq_append] at hL
    have hef : f ≠ e := fun hef => he i (by simp [hL, hef])
    rw [hL] at hfirst hlast ⊢
    rw [List.getLast?_concat] at hlast
    refine h.insert (a := l ++ [f]) (b := []) (by simpa using hL) he ?_ (fun j hj => ?_) ?_ fun x hx => ?_
    · simp [Lists.insertTail, hfirst, hlast]
    · simp [Lists.insertTail, hlast, hj]
    · simp [Lists.insertTail, hlast, hef.symm]
    · by_cases hxf : x = f
      · simp [Lists.insertTail, hlast, hxf, hef]
      · simp [Lists.insertTail, hlast, hx, hxf, Ne.symm hxf]

theorem Spells.insertBefore {at_ : α} (h : Spells s L) (hi : L i = a ++ at_ :: b) (he : ∀ j, e ∉ L j) :
    Spells (s.insertBefore i at_ e) (Function.update L i (a ++ e :: at_ :: b)) := by
  have hfirst := h.first i
  have hlast := h.last i
  have hprev := (hi ▸ h.spelled i).prev_of_split
  have hea : at_ ≠ e := fun hea => he i (by simp [hi, hea])
  rw [hi] at hfirst hlast
  rcases List.eq_nil_or_concat a with rfl | ⟨l, f, rfl⟩
  · refine h.insert hi he ?_ (fun j hj => ?_) ?_ fun x hx => ?_
    · simp [Lists.insertBefore, hprev, hea, hlast]
    · simp [Lists.insertBefore, hprev, hea, hj]
    · simp [Lists.insertBefore, hprev, hea, hea.symm]
    · by_cases hxa : x = at_
      · simp [Lists.insertBefore, hprev, hxa, hea]
      · simp [Lists.insertBefore, hprev, hx, hxa, hea, Ne.symm hxa]
  · rw [List.concat_eq_append] at hi hfirst hlast hprev ⊢
    rw [List.getLast?_concat] at hprev
    have hef : f ≠ e := fun hef => he i (by simp [hi, hef])
    have hfa : f ≠ at_ := fun hfa => ne_of_nodup_append (a := l ++ [f]) (b := at_ :: b) (x := f) (hi ▸ h.nodup i)
      (by simp) (by simp [hfa])
    refine h.insert hi he ?_ (fun j hj => ?_) ?_ fun x hx => ?_
    · simp [Lists.insertBefore, hprev, hea, hlast, hfirst]
    · simp [Lists.insertBefore, hprev, hea, hj]
    · simp [Lists.insertBefore, hprev, hea, hef.symm, hea.symm]
    · by_cases hxa : x = at_
      · simp [Lists.insertBefore, hprev, hxa, hea, hfa, hfa.symm]
      · by_cases hxf : x = f
        · simp [Lists.insertBefore, hprev, hxf, hea, hfa, hfa.symm, hef]
        · simp [Lists.insertBefore, hprev, hx, hxa, hea, hxf, Ne.symm hxa, Ne.symm hxf]

theorem Spells.remove_split (h : Spells s L) (hi : L i = a ++ e :: b) :
    Spells (s.remove i e) (Function.update L i (a ++ b)) := by
  have hfirst := h.first i
  have hlast := h.last i
  have hnext := (hi ▸ h.spelled i).next_of_split
  have hprev := (hi ▸ h.spelled i).prev_of_split
  have hnodup : (a ++ e :: b).Nodup := hi ▸ h.nodup i
  have hna : ∀ x ∈ a, x ≠ e := fun x hx hxe => ne_of_nodup_append (b := e :: b) hnodup hx (by simp [hxe])
  have hnb : ∀ x ∈ b, x ≠ e := by
    rintro x hx rfl
    exact (List.nodup_cons.mp (List.nodup_append.mp hnodup).2.1).1 hx
  have hab : ∀ x ∈ a, x ∉ b := fun x hx hxb => ne_of_nodup_append (b := e :: b) hnodup hx (by simp [hxb])
  rw [hi] at hfirst hlast
  refine h.unlink hi ?_ (fun j hj => ?_) fun x hx => ?_
  · cases b with
    | nil =>
      rcases List.eq_nil_or_concat a with rfl | ⟨l, p, rfl⟩
      · simp [Lists.remove, hnext, hprev]
      · have hpe := hna p (by simp)
        simp_all [Lists.remove]
    | cons n b =>
      have hne := hnb n (by simp)
      rcases List.eq_nil_or_concat a with rfl | ⟨l, p, rfl⟩
      · simp_all [Lists.remove, Ne.symm hne]
      · simp_all [Lists.remove, Ne.symm hne]
  · cases b with
    | nil =>
      rcases List.eq_nil_or_concat a with rfl | ⟨l, p, rfl⟩ <;> simp [Lists.remove, hnext, hprev, hj]
    | cons n b =>
      have hne := (hnb n (by simp)).symm
      rcases List.eq_nil_or_concat a with rfl | ⟨l, p, rfl⟩ <;> simp [Lists.remove, hnext, hprev, hj, hne]
  · cases b with
    | nil =>
      rcases List.eq_nil_or_concat a with rfl | ⟨l, p, rfl⟩
      · simp [Lists.remove, hnext, hprev, hx]
      · by_cases hxp : x = p
        · simp [Lists.remove, hnext, hprev, hxp, hna p]
        · simp [Lists.remove, hnext, hprev, hx, hxp, Ne.symm hxp]
    | cons n b =>
      have hne := (hnb n (by simp)).symm
      rcases List.eq_nil_or_concat a with rfl | ⟨l, p, rfl⟩
      · by_cases hxn : x = n
        · simp [Lists.remove, hnext, hprev, hxn, hne, hne.symm]
        · simp [Lists.remove, hnext, hprev, hx, hxn, hne, Ne.symm hxn]
      · have hpn : p ≠ n := fun hpn => hab p (by simp) (by simp [hpn])
        by_cases hxp : x = p
        · simp [Lists.remove, hnext, hprev, hxp, hne, hpn, hpn.symm, hna p]
        · by_cases hxn : x = n
          · simp [Lists.remove, hnext, hprev, hxn, hne, hne.symm, hpn, hpn.symm]
          · simp [Lists.remove, hnext, hprev, hx, hxp, hxn, hne, Ne.symm hxp, Ne.symm hxn]

theorem Spells.remove (h : Spells s L) (he : e ∈ L i) :
    Spells (s.remove i e) (Function.update L i ((L i).erase e)) := by
  obtain ⟨a, b, -, hi, herase⟩ := List.exists_erase_eq he
  rw [herase]
  exact h.remove_split hi

/-! ### What they leave alone -/

theorem Spells.link_remove {x : α} (h : Spells s L) (he : e ∈ L i) (hx : x ∉ L i) : (s.remove i e).link x = s.link x := by
  obtain ⟨l, r, hi⟩ := List.append_of_mem he
  have hspelled := hi ▸ h.spelled i
  have hne : x ≠ e := fun hxe => hx (hxe ▸ he)
  have hnext : ∀ n, (s.link e).next = some n → x ≠ n := by
    rintro n hn rfl
    rw [hspelled.next_of_split] at hn
    exact hx (by simp [hi, List.mem_of_head? hn])
  have hprev : ∀ p, (s.link e).prev = some p → x ≠ p := by
    rintro p hp rfl
    rw [hspelled.prev_of_split] at hp
    exact hx (by simp [hi, List.mem_of_getLast? hp])
  unfold Lists.remove
  cases hn : (s.link e).next with
  | none =>
    cases hp : (s.link e).prev with
    | none => simp [hn, hp, hne]
    | some p => simp [hn, hp, hne, hprev p hp]
  | some n =>
    cases hp : (s.link e).prev with
    | none => by_cases hen : e = n <;> simp [hn, hp, hne, hen, hnext n hn]
    | some p => by_cases hen : e = n <;> simp [hn, hp, hne, hen, hnext n hn, hprev p hp]

theorem Spells.link_insertTail {x : α} (h : Spells s L) (hxe : x ≠ e) (hx : x ∉ L i) : (s.insertTail i e).link x = s.link x := by
  have hlast : ∀ l, (s.head i).last = some l → x ≠ l := by
    rintro l hl rfl
    rw [h.last i] at hl
    exact hx (List.mem_of_getLast? hl)
  unfold Lists.insertTail
  cases hl : (s.head i).last with
  | none => simp [hl, hxe]
  | some l => simp [hl, hxe, hlast l hl]

/-- A family of one list. -/
theorem update_unit {β : Type} (f : Unit → β) (x : β) : Function.update f () x = fun _ => x :=
  funext fun _ => Function.update_self ..

end Lists

end Fos
