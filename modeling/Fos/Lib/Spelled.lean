import Mathlib.Data.List.Nodup
import Mathlib.Data.List.Basic

/-! Doubly linked lists in a memory of links: when the links of a memory spell a list of nodes, and what
    inserting and removing a node must write so that they spell the new list. -/

namespace Fos.Lib

/-- The two pointers of a node; `none` is the null pointer. -/
structure Link (α : Type) where
  next : Option α := none
  prev : Option α := none
  deriving DecidableEq, Repr

variable {α : Type} {link link' : α → Link α} {l a b : List α} {e : α}

/-- Every node of `l` points at its neighbours in `l`. -/
def Spelled (link : α → Link α) (l : List α) : Prop :=
  ∀ l₁ x l₂, l = l₁ ++ x :: l₂ → link x = ⟨l₂.head?, l₁.getLast?⟩

theorem spelled_nil : Spelled link [] := fun l₁ x l₂ h => by simp at h

theorem Spelled.congr (h : Spelled link l) (hl : ∀ x ∈ l, link' x = link x) : Spelled link' l := by
  intro l₁ x l₂ hsplit
  rw [hl x (by simp [hsplit])]
  exact h l₁ x l₂ hsplit

theorem Spelled.next_of_split (h : Spelled link (a ++ e :: b)) : (link e).next = b.head? := by
  rw [h a e b rfl]

theorem Spelled.prev_of_split (h : Spelled link (a ++ e :: b)) : (link e).prev = a.getLast? := by
  rw [h a e b rfl]

/-- The links and the first node determine the list. -/
theorem Spelled.eq_of_head {l' b : List α} (h : Spelled link (a ++ l)) (h' : Spelled link (b ++ l'))
    (hhead : l.head? = l'.head?) : l = l' := by
  induction l generalizing a b l' with
  | nil => exact (List.head?_eq_none_iff.mp hhead.symm).symm
  | cons x l ih =>
    cases l' with
    | nil => exact nomatch hhead
    | cons y l' =>
      obtain rfl : x = y := Option.some.inj hhead
      have hnext : l.head? = l'.head? := h.next_of_split.symm.trans h'.next_of_split
      rw [ih (a := a ++ [x]) (b := b ++ [x]) (by simpa using h) (by simpa using h') hnext]

theorem ne_of_nodup_append {x : α} (h : (a ++ b).Nodup) (ha : x ∈ a) (hb : x ∈ b) : False :=
  (List.nodup_append.mp h).2.2 x ha x hb rfl

/-- The last node of a list without duplicates is not one that stands before another. -/
theorem getLast?_ne_of_nodup {l₁ c : List α} {x y : α} (h : (l₁ ++ x :: y :: c).Nodup) :
    (l₁ ++ x :: y :: c).getLast? ≠ some x := by
  intro hlast
  have hx : x ∈ y :: c := by
    rw [List.getLast?_append_of_ne_nil _ (by simp), List.getLast?_cons_cons] at hlast
    exact List.mem_of_getLast? hlast
  have := (List.nodup_append.mp h).2.1
  exact (List.nodup_cons.mp this).1 hx

theorem head?_ne_of_nodup {c l₂ : List α} {x y : α} (h : (y :: c ++ x :: l₂).Nodup) : (y :: c ++ x :: l₂).head? ≠ some x := by
  intro hhead
  have hyx : y = x := by simpa using hhead
  subst hyx
  exact ne_of_nodup_append (x := y) h (by simp) (by simp)

section
variable [DecidableEq α]

/-- `e` is linked in between `a` and `b`. -/
theorem Spelled.insert (h : Spelled link (a ++ b)) (hn : (a ++ b).Nodup)
    (he : link' e = ⟨b.head?, a.getLast?⟩)
    (hx : ∀ x ∈ a ++ b, link' x = ⟨if a.getLast? = some x then some e else (link x).next,
      if b.head? = some x then some e else (link x).prev⟩) : Spelled link' (a ++ e :: b) := by
  intro l₁ x l₂ hsplit
  rcases List.append_eq_append_iff.mp hsplit with ⟨c, rfl, hb⟩ | ⟨c, rfl, ha⟩
  · cases c with
    | nil =>
      simp only [List.nil_append, List.cons.injEq] at hb
      obtain ⟨rfl, rfl⟩ := hb
      simpa using he
    | cons y c =>
      simp only [List.cons_append, List.cons.injEq] at hb
      obtain ⟨rfl, rfl⟩ := hb
      have hxa : a.getLast? ≠ some x := fun hl =>
        ne_of_nodup_append hn (List.mem_of_getLast? hl) (by simp)
      have hold := h (a ++ c) x l₂ (by simp)
      rw [hx x (by simp), hold, if_neg hxa]
      cases c with
      | nil => simp
      | cons y c =>
        have hne : (y :: c ++ x :: l₂).head? ≠ some x := head?_ne_of_nodup (List.nodup_append.mp hn).2.1
        rw [if_neg hne, List.getLast?_append_of_ne_nil _ (by simp), List.getLast?_append_of_ne_nil _ (by simp),
          List.getLast?_cons_cons]
  · cases c with
    | nil =>
      simp only [List.nil_append, List.cons.injEq] at ha
      obtain ⟨rfl, rfl⟩ := ha
      simpa using he
    | cons y c =>
      simp only [List.cons_append, List.cons.injEq] at ha
      obtain ⟨rfl, rfl⟩ := ha
      have hxb : b.head? ≠ some x := fun hl =>
        ne_of_nodup_append hn (a := l₁ ++ x :: c) (by simp) (List.mem_of_head? hl)
      have hold := h l₁ x (c ++ b) (by simp)
      rw [hx x (by simp), hold, if_neg hxb]
      cases c with
      | nil => simp
      | cons y c =>
        have hne : (l₁ ++ x :: y :: c).getLast? ≠ some x := getLast?_ne_of_nodup (List.nodup_append.mp hn).1
        rw [if_neg hne]
        simp

/-- `e` is unlinked from between `a` and `b`. -/
theorem Spelled.remove (h : Spelled link (a ++ e :: b)) (hn : (a ++ e :: b).Nodup)
    (hx : ∀ x ∈ a ++ b, link' x = ⟨if a.getLast? = some x then b.head? else (link x).next,
      if b.head? = some x then a.getLast? else (link x).prev⟩) : Spelled link' (a ++ b) := by
  have hab : (a ++ b).Nodup := hn.sublist ((List.Sublist.refl a).append (List.sublist_cons_self e b))
  intro l₁ x l₂ hsplit
  rcases List.append_eq_append_iff.mp hsplit with ⟨c, rfl, hb⟩ | ⟨c, rfl, ha⟩
  · subst hb
    have hxa : a.getLast? ≠ some x := fun hl =>
      ne_of_nodup_append hab (List.mem_of_getLast? hl) (by simp)
    have hold := h (a ++ e :: c) x l₂ (by simp)
    rw [hx x (by simp), hold, if_neg hxa]
    cases c with
    | nil => simp
    | cons y c =>
      have hne : (y :: c ++ x :: l₂).head? ≠ some x := head?_ne_of_nodup (List.nodup_append.mp hab).2.1
      rw [if_neg hne, List.getLast?_append_of_ne_nil _ (by simp), List.getLast?_append_of_ne_nil _ (by simp),
        List.getLast?_cons_cons]
  · cases c with
    | nil =>
      simp only [List.nil_append] at ha
      subst ha
      have hxa : l₁.getLast? ≠ some x := fun hl =>
        ne_of_nodup_append (a := l₁ ++ []) hab (by simpa using List.mem_of_getLast? hl) (by simp)
      have hold := h (l₁ ++ [e]) x l₂ (by simp)
      rw [hx x (by simp), hold]
      simp [hxa]
    | cons y c =>
      simp only [List.cons_append, List.cons.injEq] at ha
      obtain ⟨rfl, rfl⟩ := ha
      have hxb : b.head? ≠ some x := fun hl =>
        ne_of_nodup_append hab (a := l₁ ++ x :: c) (by simp) (List.mem_of_head? hl)
      have hold := h l₁ x (c ++ e :: b) (by simp)
      rw [hx x (by simp), hold, if_neg hxb]
      cases c with
      | nil => simp
      | cons y c =>
        have hne : (l₁ ++ x :: y :: c).getLast? ≠ some x := getLast?_ne_of_nodup (List.nodup_append.mp hab).1
        rw [if_neg hne]
        simp
/-- Two lists are joined at their ends. -/
theorem Spelled.append (ha : Spelled link a) (hb : Spelled link b) (hn : (a ++ b).Nodup)
    (hx : ∀ x ∈ a ++ b, link' x = ⟨if a.getLast? = some x then b.head? else (link x).next,
      if b.head? = some x then a.getLast? else (link x).prev⟩) : Spelled link' (a ++ b) := by
  intro l₁ x l₂ hsplit
  have hlink := hx x (by simp [hsplit])
  rcases List.append_eq_append_iff.mp hsplit with ⟨c, rfl, rfl⟩ | ⟨c, rfl, hc⟩
  · have hxa : a.getLast? ≠ some x := fun hl => ne_of_nodup_append hn (List.mem_of_getLast? hl) (by simp)
    rw [hlink, hb c x l₂ rfl, if_neg hxa]
    cases c with
    | nil => simp
    | cons y c =>
      have hne : (y :: c ++ x :: l₂).head? ≠ some x := head?_ne_of_nodup (List.nodup_append.mp hn).2.1
      rw [if_neg hne, List.getLast?_append_of_ne_nil _ (List.cons_ne_nil _ _)]
  · cases c with
    | nil =>
      obtain rfl : x :: l₂ = b := hc
      have hxa : l₁.getLast? ≠ some x := fun hl =>
        ne_of_nodup_append (a := l₁ ++ []) hn (by simpa using List.mem_of_getLast? hl) (by simp)
      rw [hlink, hb [] x l₂ rfl]
      simp [hxa]
    | cons y c =>
      simp only [List.cons_append, List.cons.injEq] at hc
      obtain ⟨rfl, rfl⟩ := hc
      have hxb : b.head? ≠ some x := fun hl =>
        ne_of_nodup_append hn (a := l₁ ++ x :: c) (by simp) (List.mem_of_head? hl)
      rw [hlink, ha l₁ x c rfl, if_neg hxb]
      cases c with
      | nil => simp
      | cons y c =>
        have hne : (l₁ ++ x :: y :: c).getLast? ≠ some x := getLast?_ne_of_nodup (List.nodup_append.mp hn).1
        rw [if_neg hne]
        simp

end

/-! ### Several lists through one link field -/

section
variable {ι : Type}

/-- The first pointers and the links spell the lists `L`, which share no node. -/
structure Threads (first : ι → Option α) (link : α → Link α) (L : ι → List α) : Prop where
  spelled : ∀ i, Spelled link (L i)
  first : ∀ i, first i = (L i).head?
  nodup : ∀ i, (L i).Nodup
  disjoint : ∀ i j x, x ∈ L i → x ∈ L j → i = j

variable {first first' : ι → Option α} {L : ι → List α} {i : ι}

/-- What is written outside the nodes of the lists does not matter. -/
theorem Threads.congr_link (h : Threads first link L) (hl : ∀ i, ∀ x ∈ L i, link' x = link x) :
    Threads first link' L :=
  ⟨fun i => (h.spelled i).congr (hl i), h.first, h.nodup, h.disjoint⟩

theorem Threads.mem_of_first (h : Threads first link L) (he : first i = some e) : e ∈ L i :=
  List.mem_of_head? ((h.first i).symm.trans he)

theorem Threads.eq_nil_of_first (h : Threads first link L) (he : first i = none) : L i = [] :=
  List.head?_eq_none_iff.mp ((h.first i).symm.trans he)

theorem Threads.unique {L' : ι → List α} (h : Threads first link L) (h' : Threads first link L') (i : ι) : L i = L' i :=
  (h.spelled i).eq_of_head (a := []) (b := []) (h'.spelled i) ((h.first i).symm.trans (h'.first i))

variable [DecidableEq ι] [DecidableEq α]

/-- What an insertion of `e` between `a` and `b` must write. -/
theorem Threads.insert (h : Threads first link L) (hi : L i = a ++ b) (he : ∀ j, e ∉ L j)
    (hfirst : first' i = (a ++ e :: b).head?) (hfirsts : ∀ j, j ≠ i → first' j = first j)
    (hlink : link' e = ⟨b.head?, a.getLast?⟩)
    (hother : ∀ x, x ≠ e → link' x = ⟨if a.getLast? = some x then some e else (link x).next,
      if b.head? = some x then some e else (link x).prev⟩) :
    Threads first' link' (Function.update L i (a ++ e :: b)) := by
  have hmem : ∀ x, x ∈ a ++ b → x ∈ L i := fun x hx => hi ▸ hx
  have hnodup : (a ++ b).Nodup := hi ▸ h.nodup i
  constructor
  · intro j
    by_cases hj : j = i
    · subst hj
      rw [Function.update_self]
      refine (hi ▸ h.spelled j).insert hnodup hlink fun x hx => hother x ?_
      rintro rfl
      exact he j (hmem x hx)
    · rw [Function.update_of_ne hj]
      refine (h.spelled j).congr fun x hx => ?_
      have hx' : x ∉ a ++ b := fun hx' => hj (h.disjoint j i x hx (hmem x hx'))
      have ha : a.getLast? ≠ some x := fun hl => hx' (List.mem_append_left _ (List.mem_of_getLast? hl))
      have hb : b.head? ≠ some x := fun hl => hx' (List.mem_append_right _ (List.mem_of_head? hl))
      rw [hother x (by rintro rfl; exact he j hx), if_neg ha, if_neg hb]
  · intro j
    by_cases hj : j = i
    · simp [hj, hfirst]
    · simp [hj, hfirsts j hj, h.first j]
  · intro j
    by_cases hj : j = i
    · subst hj
      rw [Function.update_self, List.nodup_middle, List.nodup_cons]
      exact ⟨fun hx => he j (hmem e hx), hnodup⟩
    · rw [Function.update_of_ne hj]
      exact h.nodup j
  · intro j k x hxj hxk
    have hold : ∀ m, x ∈ Function.update L i (a ++ e :: b) m → x ≠ e → x ∈ L m := by
      intro m hm hne
      by_cases hmi : m = i
      · subst hmi
        rw [Function.update_self] at hm
        exact hmem x (by simpa [hne] using hm)
      · rwa [Function.update_of_ne hmi] at hm
    by_cases hxe : x = e
    · subst hxe
      have hat : ∀ m, x ∈ Function.update L i (a ++ x :: b) m → m = i := by
        intro m hm
        by_contra hmi
        rw [Function.update_of_ne hmi] at hm
        exact he m hm
      rw [hat j hxj, hat k hxk]
    · exact h.disjoint j k x (hold j hxj hxe) (hold k hxk hxe)

/-- What a removal of `e` from between `a` and `b` must write. -/
theorem Threads.unlink (h : Threads first link L) (hi : L i = a ++ e :: b)
    (hfirst : first' i = (a ++ b).head?) (hfirsts : ∀ j, j ≠ i → first' j = first j)
    (hother : ∀ x, x ≠ e → link' x = ⟨if a.getLast? = some x then b.head? else (link x).next,
      if b.head? = some x then a.getLast? else (link x).prev⟩) :
    Threads first' link' (Function.update L i (a ++ b)) := by
  have hnodup : (a ++ e :: b).Nodup := hi ▸ h.nodup i
  have he : e ∉ a ++ b := by
    rw [List.nodup_middle, List.nodup_cons] at hnodup
    exact hnodup.1
  have hmem : ∀ x, x ∈ a ++ b → x ∈ L i := fun x hx => by
    rw [hi]
    simp only [List.mem_append, List.mem_cons] at hx ⊢
    tauto
  have hold : ∀ m x, x ∈ Function.update L i (a ++ b) m → x ∈ L m := by
    intro m x hm
    by_cases hmi : m = i
    · subst hmi
      rw [Function.update_self] at hm
      exact hmem x hm
    · rwa [Function.update_of_ne hmi] at hm
  constructor
  · intro j
    by_cases hj : j = i
    · subst hj
      rw [Function.update_self]
      refine (hi ▸ h.spelled j).remove hnodup fun x hx => hother x ?_
      rintro rfl
      exact he hx
    · rw [Function.update_of_ne hj]
      refine (h.spelled j).congr fun x hx => ?_
      have hx' : x ∉ a ++ b := fun hx' => hj (h.disjoint j i x hx (hmem x hx'))
      have ha : a.getLast? ≠ some x := fun hl => hx' (List.mem_append_left _ (List.mem_of_getLast? hl))
      have hb : b.head? ≠ some x := fun hl => hx' (List.mem_append_right _ (List.mem_of_head? hl))
      rw [hother x, if_neg ha, if_neg hb]
      rintro rfl
      exact hj (h.disjoint j i x hx (by rw [hi]; simp))
  · intro j
    by_cases hj : j = i
    · simp [hj, hfirst]
    · simp [hj, hfirsts j hj, h.first j]
  · intro j
    by_cases hj : j = i
    · subst hj
      rw [Function.update_self]
      exact (List.nodup_cons.mp (List.nodup_middle.mp hnodup)).2
    · rw [Function.update_of_ne hj]
      exact h.nodup j
  · exact fun j k x hxj hxk => h.disjoint j k x (hold j x hxj) (hold k x hxk)

end

/-! ### Walking along a list -/

/-- The loop that walks along the `next` pointers from `cur` until a node meets `stop` or the list ends, and the
    last two pointers that it saw. `fuel` bounds the nodes visited: a list that is not cyclic has fewer nodes than
    there are addresses. -/
def walk (next : α → Option α) (stop : α → Bool) : Nat → Option α → Option α → Option (Option α × Option α)
  | 0, _, _ => none
  | _ + 1, prev, none => some (prev, none)
  | fuel + 1, prev, some c => if stop c then some (prev, some c) else walk next stop fuel (some c) (next c)

/-- The loop that walks along the whole list and folds the nodes. -/
def walkFold {β : Type} (next : α → Option α) (f : β → α → β) : Nat → β → Option α → Option β
  | 0, _, _ => none
  | _ + 1, acc, none => some acc
  | fuel + 1, acc, some c => walkFold next f fuel (f acc c) (next c)

/-- The loop over a list whose body may change the links: the next pointer is read before the body runs. The body
    fails when the program does. -/
def forEach {σ : Type} (next : σ → α → Option α) (body : σ → α → Option σ) : Nat → σ → Option α → Option σ
  | 0, _, _ => none
  | _ + 1, s, none => some s
  | fuel + 1, s, some c => (body s c).bind fun t => forEach next body fuel t (next s c)

/-- The rule for such a loop: `P s l` says what holds when the nodes `l` are still to be visited. -/
theorem forEach_rule {σ : Type} (next : σ → α → Option α) (body : σ → α → Option σ) (P : σ → List α → Prop)
    (hnext : ∀ s c l, P s (c :: l) → next s c = l.head?) (hbody : ∀ s c l, P s (c :: l) → ∃ t, body s c = some t ∧ P t l)
    {fuel : Nat} {s : σ} (hs : P s l) (hfuel : l.length < fuel) :
    ∃ t, forEach next body fuel s l.head? = some t ∧ P t [] := by
  induction l generalizing fuel s with
  | nil =>
    obtain ⟨fuel, rfl⟩ : ∃ k, fuel = k + 1 := ⟨fuel - 1, by simp at hfuel; omega⟩
    exact ⟨s, rfl, hs⟩
  | cons c l ih =>
    obtain ⟨fuel, rfl⟩ : ∃ k, fuel = k + 1 := ⟨fuel - 1, by simp at hfuel; omega⟩
    obtain ⟨t, ht, hP⟩ := hbody s c l hs
    obtain ⟨u, hu, hP⟩ := ih hP (by simpa using hfuel)
    exact ⟨u, by simp only [List.head?_cons, forEach, ht, Option.bind_some, hnext s c l hs, hu], hP⟩

/-- A loop that ends keeps what its body keeps. -/
theorem forEach_keeps {σ : Type} {next : σ → α → Option α} {body : σ → α → Option σ} {P : σ → Prop}
    (hbody : ∀ s c t, P s → body s c = some t → P t) {fuel : Nat} {s t : σ} {c : Option α} (hs : P s)
    (h : forEach next body fuel s c = some t) : P t := by
  induction fuel generalizing s c with
  | zero => exact nomatch h
  | succ fuel ih =>
    cases c with
    | none => exact Option.some.inj h ▸ hs
    | some c =>
      obtain ⟨u, hu, h⟩ := Option.bind_eq_some_iff.mp h
      exact ih (hbody s c u hs hu) h

theorem walk_spelled (stop : α → Bool) {fuel : Nat} (h : Spelled link (a ++ l)) (hfuel : l.length < fuel) :
    ∃ m r, l = m ++ r ∧ (∀ x ∈ m, stop x = false) ∧ (∀ x, r.head? = some x → stop x = true) ∧
      walk (fun x => (link x).next) stop fuel a.getLast? l.head? = some ((a ++ m).getLast?, r.head?) := by
  induction l generalizing a fuel with
  | nil =>
    obtain ⟨fuel, rfl⟩ : ∃ k, fuel = k + 1 := ⟨fuel - 1, by simp at hfuel; omega⟩
    exact ⟨[], [], rfl, nofun, nofun, by simp [walk]⟩
  | cons c l ih =>
    obtain ⟨fuel, rfl⟩ : ∃ k, fuel = k + 1 := ⟨fuel - 1, by simp at hfuel; omega⟩
    cases hstop : stop c with
    | true => exact ⟨[], c :: l, rfl, nofun, by simpa using hstop, by simp [walk, hstop]⟩
    | false =>
      have hnext : (link c).next = l.head? := h.next_of_split
      have h' : Spelled link ((a ++ [c]) ++ l) := by simpa using h
      obtain ⟨m, r, rfl, hm, hr, hwalk⟩ := ih h' (by simpa using hfuel)
      refine ⟨c :: m, r, rfl, by simpa [hstop] using hm, hr, ?_⟩
      rw [List.getLast?_concat] at hwalk
      simpa [walk, hstop, hnext] using hwalk

theorem foldl_last_ne_none (p : α → Prop) [DecidablePred p] (l : List α) {acc : Option α} (hacc : acc ≠ none) :
    l.foldl (fun o x => if p x then some x else o) acc ≠ none := by
  induction l generalizing acc with
  | nil => exact hacc
  | cons y l ih =>
    refine ih ?_
    by_cases hy : p y
    · simp [hy]
    · simpa [hy] using hacc

/-- The last node of a list that meets `p`, as a loop that keeps overwriting its result finds it. -/
theorem foldl_last (p : α → Prop) [DecidablePred p] (l : List α) (acc : Option α) :
    (∀ x, l.foldl (fun o x => if p x then some x else o) acc = some x → x ∈ l ∧ p x ∨ acc = some x) ∧
      (l.foldl (fun o x => if p x then some x else o) acc = none → ∀ x ∈ l, ¬ p x) := by
  induction l generalizing acc with
  | nil => simp
  | cons y l ih =>
    rw [List.foldl_cons]
    constructor
    · intro x hx
      rcases (ih _).1 x hx with ⟨hmem, hp⟩ | hacc
      · exact .inl ⟨List.mem_cons_of_mem _ hmem, hp⟩
      · split at hacc
        case isTrue hy =>
          cases hacc
          exact .inl ⟨List.mem_cons_self .., hy⟩
        case isFalse => exact .inr hacc
    · intro hnone x hx
      rcases List.mem_cons.mp hx with rfl | hx
      · intro hp
        rw [if_pos hp] at hnone
        exact foldl_last_ne_none p l (Option.some_ne_none x) hnone
      · exact (ih _).2 hnone x hx

theorem walkFold_spelled {β : Type} (f : β → α → β) (acc : β) {fuel : Nat} (h : Spelled link (a ++ l))
    (hfuel : l.length < fuel) : walkFold (fun x => (link x).next) f fuel acc l.head? = some (l.foldl f acc) := by
  induction l generalizing a fuel acc with
  | nil =>
    obtain ⟨fuel, rfl⟩ : ∃ k, fuel = k + 1 := ⟨fuel - 1, by simp at hfuel; omega⟩
    rfl
  | cons c l ih =>
    obtain ⟨fuel, rfl⟩ : ∃ k, fuel = k + 1 := ⟨fuel - 1, by simp at hfuel; omega⟩
    have hnext : (link c).next = l.head? := h.next_of_split
    have h' : Spelled link ((a ++ [c]) ++ l) := by simpa using h
    have := ih (f acc c) h' (by simpa using hfuel)
    simpa [walkFold, hnext] using this

end Fos.Lib
