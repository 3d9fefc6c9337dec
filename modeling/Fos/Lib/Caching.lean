import Mathlib.Data.Finset.Card
import Mathlib.Order.Bounds.Defs

/-! Demand paging of a stream of references that is known in advance: the numbers of faults with which it can be served, and the
    rule that evicts the page whose next use is farthest away, which has the least number. -/

namespace Fos.Lib

variable {α : Type} [DecidableEq α] {k c m n : Nat} {C C' D D' : Finset α} {refs refs' rest : List α} {p v x : α}

/-- With the pages `C` in memory, the references can be served with `n` faults. A page gets into memory by a fault only; a fault
    may drop any pages, and at most `k` pages stay. -/
inductive Serves (k : Nat) : Finset α → List α → Nat → Prop
  | nil {C : Finset α} : Serves k C [] 0
  | hit {C : Finset α} {p : α} {refs : List α} {n : Nat} (hp : p ∈ C) (h : Serves k C refs n) : Serves k C (p :: refs) n
  | fault {C C' : Finset α} {p : α} {refs : List α} {n : Nat} (hp : p ∉ C) (hload : p ∈ C') (hkeep : C' ⊆ insert p C)
      (hroom : C'.card ≤ k) (h : Serves k C' refs n) : Serves k C (p :: refs) (n + 1)

/-- `v` is a page of `D`, and every page of `D` is used again no later than `v` is. -/
structure Farthest (D : Finset α) (refs : List α) (v : α) : Prop where
  mem : v ∈ D
  later : ∀ x ∈ D, ∀ t, v ∈ refs.take t → x ∈ refs.take t

/-- A run of the rule: a page is placed as long as there is room, then one that is used farthest away is replaced. -/
inductive FarthestRun (k : Nat) : Finset α → List α → Nat → Prop
  | nil {D : Finset α} : FarthestRun k D [] 0
  | hit {D : Finset α} {p : α} {refs : List α} {n : Nat} (hp : p ∈ D) (h : FarthestRun k D refs n) :
      FarthestRun k D (p :: refs) n
  | place {D : Finset α} {p : α} {refs : List α} {n : Nat} (hp : p ∉ D) (hroom : D.card < k)
      (h : FarthestRun k (insert p D) refs n) : FarthestRun k D (p :: refs) (n + 1)
  | replace {D : Finset α} {p v : α} {refs : List α} {n : Nat} (hp : p ∉ D) (hfull : k ≤ D.card) (hv : Farthest D refs v)
      (h : FarthestRun k (insert p (D.erase v)) refs n) : FarthestRun k D (p :: refs) (n + 1)

/-! ### Pages that are used soon -/

/-- How many of the pages are among the first `t` references. -/
def soon (C : Finset α) (refs : List α) (t : Nat) : Nat := (C.filter (· ∈ refs.take t)).card

theorem soon_mono (h : C ⊆ D) (t : Nat) : soon C refs t ≤ soon D refs t := Finset.card_le_card (Finset.filter_subset_filter _ h)

theorem soon_le_card (t : Nat) : soon C refs t ≤ C.card := Finset.card_filter_le ..

theorem soon_zero : soon C refs 0 = 0 := by
  unfold soon
  rw [Finset.card_eq_zero, Finset.filter_eq_empty_iff]
  exact fun _ _ => List.not_mem_nil

/-- The page of the next reference and the other pages. -/
theorem soon_cons (t : Nat) : soon C (p :: rest) (t + 1) = soon (C.erase p) rest t + if p ∈ C then 1 else 0 := by
  have hothers : (C.filter (· ∈ (p :: rest).take (t + 1))).erase p = (C.erase p).filter (· ∈ rest.take t) := by
    ext x
    simp only [Finset.mem_erase, Finset.mem_filter, List.take_succ_cons, List.mem_cons]
    tauto
  unfold soon
  rw [← hothers]
  split
  case isTrue hp => exact (Finset.card_erase_add_one (Finset.mem_filter.mpr ⟨hp, List.mem_cons_self ..⟩)).symm
  case isFalse hp =>
    rw [Finset.erase_eq_of_notMem fun h => hp (Finset.mem_filter.mp h).1]
    rfl

/-- A page of the set and the other pages. -/
theorem soon_split (hp : p ∈ C) (t : Nat) : soon C rest t = soon (C.erase p) rest t + if p ∈ rest.take t then 1 else 0 := by
  have hothers : (C.filter (· ∈ rest.take t)).erase p = (C.erase p).filter (· ∈ rest.take t) := by
    ext x
    simp only [Finset.mem_erase, Finset.mem_filter]
    tauto
  unfold soon
  rw [← hothers]
  split
  case isTrue hused => exact (Finset.card_erase_add_one (Finset.mem_filter.mpr ⟨hp, hused⟩)).symm
  case isFalse hused =>
    rw [Finset.erase_eq_of_notMem fun h => hused (Finset.mem_filter.mp h).2]
    rfl

/-- Without the page used farthest away either nothing is lost, or all other pages are used soon. -/
theorem Farthest.soon_erase (hv : Farthest D rest v) (t : Nat) :
    soon (D.erase v) rest t = soon D rest t ∨ soon (D.erase v) rest t = D.card - 1 := by
  by_cases hused : v ∈ rest.take t
  · refine .inr ?_
    unfold soon
    rw [Finset.filter_true_of_mem fun x hx => hv.later x (Finset.mem_of_mem_erase hx) t hused, Finset.card_erase_of_mem hv.mem]
  · refine .inl ?_
    rw [soon_split hv.mem, if_neg hused, Nat.add_zero]

/-! ### The rule is optimal -/

/-- At every time at most `c` more of the pages `C` are used up to then than of the pages `D`. -/
def Behind (c : Nat) (refs : List α) (C D : Finset α) : Prop := ∀ t, soon C refs t ≤ soon D refs t + c

/-- After the reference to `p`, both have this page. -/
theorem Behind.of_others (hp : p ∈ C) (hp' : p ∈ D) (h : ∀ t, soon (C.erase p) rest t ≤ soon (D.erase p) rest t + c) :
    Behind c rest C D := by
  intro t
  have ht := h t
  rw [soon_split hp, soon_split hp']
  omega

/-- Evicting the farthest page costs nothing against pages `C` that have `p` too. -/
theorem Behind.replace (hv : Farthest D rest v) (hp : p ∉ D) (hfull : k ≤ D.card) (hpC : p ∈ C) (hC : C.card ≤ k)
    (h : ∀ t, soon (C.erase p) rest t ≤ soon D rest t + c) : Behind c rest C (insert p (D.erase v)) := by
  refine .of_others hpC (Finset.mem_insert_self ..) fun t => ?_
  rw [Finset.erase_insert fun hmem => hp (Finset.mem_of_mem_erase hmem)]
  rcases hv.soon_erase t with heq | heq
  · rw [heq]
    exact h t
  · have hcard : soon (C.erase p) rest t ≤ C.card - 1 := by
      rw [← Finset.card_erase_of_mem hpC]
      exact soon_le_card t
    omega

/-- The pages that are kept at a fault. -/
theorem soon_erase_kept (hkeep : C' ⊆ insert p C) (t : Nat) : soon (C'.erase p) rest t ≤ soon (C.erase p) rest t := by
  refine soon_mono (fun x hx => ?_) t
  obtain ⟨hne, hx⟩ := Finset.mem_erase.mp hx
  exact Finset.mem_erase.mpr ⟨hne, (Finset.mem_insert.mp (hkeep hx)).resolve_left hne⟩

/-- One reference is served from `C`. A fault there that `D` does not have counts for `D`, a fault that only `D` has counts
    against it. -/
theorem Behind.next (h : Behind c (p :: rest) C D) (hC : C.card ≤ k) (h' : Serves k C (p :: rest) m) :
    ∃ C' m' c', Serves k C' rest m' ∧ p ∈ C' ∧ C'.card ≤ k ∧ m' + c' + (if p ∈ D then 0 else 1) = m + c ∧
      ∀ t, soon (C'.erase p) rest t ≤ soon (D.erase p) rest t + c' := by
  have hothers : ∀ t, soon (C.erase p) rest t + (if p ∈ C then 1 else 0) ≤
      soon (D.erase p) rest t + (if p ∈ D then 1 else 0) + c := by
    intro t
    rw [← soon_cons, ← soon_cons]
    exact h (t + 1)
  cases h' with
  | hit hp h' =>
    rw [if_pos hp] at hothers
    by_cases hpD : p ∈ D
    · rw [if_pos hpD] at hothers ⊢
      exact ⟨C, m, c, h', hp, hC, rfl, fun t => by have := hothers t; omega⟩
    · rw [if_neg hpD] at hothers ⊢
      have hcredit := hothers 0
      rw [soon_zero, soon_zero] at hcredit
      exact ⟨C, m, c - 1, h', hp, hC, by omega, fun t => by have := hothers t; omega⟩
  | @fault _ C' _ _ m' hp hload hkeep hroom h' =>
    rw [if_neg hp] at hothers
    have hkept : ∀ t, soon (C'.erase p) rest t ≤ soon (C.erase p) rest t := soon_erase_kept hkeep
    by_cases hpD : p ∈ D
    · rw [if_pos hpD] at hothers ⊢
      exact ⟨C', m', c + 1, h', hload, hroom, by omega, fun t => by have := hothers t; have := hkept t; omega⟩
    · rw [if_neg hpD] at hothers ⊢
      exact ⟨C', m', c, h', hload, hroom, by omega, fun t => (hkept t).trans (hothers t)⟩

/-- The rule against any other way to serve the references: what it is behind, it has saved in faults before. -/
theorem FarthestRun.le (h : FarthestRun k D refs n) (h' : Serves k C refs m) (hC : C.card ≤ k) (hbehind : Behind c refs C D) :
    n ≤ m + c := by
  induction h generalizing C m c with
  | nil => exact Nat.zero_le _
  | hit hp h ih =>
    obtain ⟨C', m', c', h', hload, hroom, hcount, hothers⟩ := hbehind.next hC h'
    rw [if_pos hp] at hcount
    exact (ih h' hroom (.of_others hload hp hothers)).trans_eq hcount
  | place hp hroom' h ih =>
    obtain ⟨C', m', c', h', hload, hroom, hcount, hothers⟩ := hbehind.next hC h'
    rw [if_neg hp] at hcount
    rw [Finset.erase_eq_of_notMem hp] at hothers
    refine (Nat.succ_le_succ (ih h' hroom (.of_others hload (Finset.mem_insert_self ..) ?_))).trans_eq hcount
    rwa [Finset.erase_insert hp]
  | replace hp hfull hv h ih =>
    obtain ⟨C', m', c', h', hload, hroom, hcount, hothers⟩ := hbehind.next hC h'
    rw [if_neg hp] at hcount
    rw [Finset.erase_eq_of_notMem hp] at hothers
    exact (Nat.succ_le_succ (ih h' hroom (.replace hv hp hfull hload hroom hothers))).trans_eq hcount

/-- The rule is a way to serve the references. -/
theorem FarthestRun.serves (h : FarthestRun k D refs n) (hk : 1 ≤ k) (hD : D.card ≤ k) : Serves k D refs n := by
  induction h with
  | nil => exact .nil
  | hit hp h ih => exact .hit hp (ih hD)
  | place hp hroom h ih =>
    have hcard := Finset.card_insert_of_notMem hp
    exact .fault hp (Finset.mem_insert_self ..) (Finset.Subset.refl _) (hcard.trans_le hroom) (ih (hcard.trans_le hroom))
  | @replace D p v rest n hp hfull hv h ih =>
    have hcard : (insert p (D.erase v)).card ≤ k := by
      rw [Finset.card_insert_of_notMem fun hmem => hp (Finset.mem_of_mem_erase hmem), Finset.card_erase_of_mem hv.mem]
      omega
    exact .fault hp (Finset.mem_insert_self ..) (Finset.insert_subset_insert p (Finset.erase_subset ..)) hcard (ih hcard)

/-- The rule has the least number of faults. -/
theorem FarthestRun.isLeast (h : FarthestRun k D refs n) (hk : 1 ≤ k) (hD : D.card ≤ k) : IsLeast {m | Serves k D refs m} n :=
  ⟨h.serves hk hD, fun _ h' => h.le (c := 0) h' hD fun _ => Nat.le_refl _⟩

/-! ### Streams from which references were left out -/

/-- References that are left out can only save faults. `c` pages are not yet in memory because a reference was left out. -/
theorem Serves.sublist (h : Serves k C refs n) (hC : C.card ≤ k) (hsub : refs'.Sublist refs) (hmissing : (C \ D).card ≤ c) :
    ∃ m, Serves k D refs' m ∧ m ≤ n + c := by
  induction h generalizing D refs' c with
  | nil =>
    obtain rfl := List.sublist_nil.mp hsub
    exact ⟨0, .nil, Nat.zero_le _⟩
  | @hit C p refs n hp h ih =>
    cases hsub with
    | cons _ hsub => exact ih hC hsub hmissing
    | cons_cons _ hsub =>
      by_cases hpD : p ∈ D
      · obtain ⟨m, hm, hle⟩ := ih hC hsub hmissing
        exact ⟨m, .hit hpD hm, hle⟩
      · -- the fault that was saved before is made up for
        have herase : C \ insert p (D ∩ C) = (C \ D).erase p := by
          ext x
          simp only [Finset.mem_sdiff, Finset.mem_insert, Finset.mem_inter, Finset.mem_erase]
          tauto
        have hmem : p ∈ C \ D := Finset.mem_sdiff.mpr ⟨hp, hpD⟩
        have hpos : 1 ≤ (C \ D).card := Finset.card_pos.mpr ⟨p, hmem⟩
        have hroom : (insert p (D ∩ C)).card ≤ k :=
          (Finset.card_le_card (Finset.insert_subset hp Finset.inter_subset_right)).trans hC
        obtain ⟨m, hm, hle⟩ := ih (D := insert p (D ∩ C)) (c := c - 1) hC hsub (by
          rw [herase, Finset.card_erase_of_mem hmem]
          exact Nat.sub_le_sub_right hmissing 1)
        exact ⟨m + 1, .fault hpD (Finset.mem_insert_self ..) (Finset.insert_subset_insert p Finset.inter_subset_left) hroom hm,
          by omega⟩
  | @fault C K p refs n hp hload hkeep hroom h ih =>
    cases hsub with
    | cons _ hsub =>
      have hgrows : (K \ D).card ≤ c + 1 := by
        refine (Finset.card_le_card fun x hx => ?_).trans ((Finset.card_insert_le p (C \ D)).trans (Nat.succ_le_succ hmissing))
        obtain ⟨hx, hxD⟩ := Finset.mem_sdiff.mp hx
        rcases Finset.mem_insert.mp (hkeep hx) with rfl | hx
        · exact Finset.mem_insert_self ..
        · exact Finset.mem_insert_of_mem (Finset.mem_sdiff.mpr ⟨hx, hxD⟩)
      obtain ⟨m, hm, hle⟩ := ih hroom hsub hgrows
      exact ⟨m, hm, by omega⟩
    | cons_cons _ hsub =>
      by_cases hpD : p ∈ D
      · have hkept : K \ D ⊆ C \ D := by
          intro x hx
          obtain ⟨hx, hxD⟩ := Finset.mem_sdiff.mp hx
          exact Finset.mem_sdiff.mpr ⟨(Finset.mem_insert.mp (hkeep hx)).resolve_left fun heq => hxD (heq ▸ hpD), hxD⟩
        obtain ⟨m, hm, hle⟩ := ih hroom hsub ((Finset.card_le_card hkept).trans hmissing)
        exact ⟨m, .hit hpD hm, by omega⟩
      · have hkept : K \ insert p (D ∩ K) ⊆ C \ D := by
          intro x hx
          simp only [Finset.mem_sdiff, Finset.mem_insert, Finset.mem_inter, not_or, not_and] at hx
          exact Finset.mem_sdiff.mpr ⟨(Finset.mem_insert.mp (hkeep hx.1)).resolve_left hx.2.1, fun hxD => hx.2.2 hxD hx.1⟩
        have hroom' : (insert p (D ∩ K)).card ≤ k :=
          (Finset.card_le_card (Finset.insert_subset hload Finset.inter_subset_right)).trans hroom
        obtain ⟨m, hm, hle⟩ := ih hroom hsub ((Finset.card_le_card hkept).trans hmissing)
        exact ⟨m + 1, .fault hpD (Finset.mem_insert_self ..) (Finset.insert_subset_insert p Finset.inter_subset_left) hroom' hm,
          by omega⟩

/-- The references are served with `n` faults, and then the pages `D` are in memory. -/
inductive ServedTo (k : Nat) (C : Finset α) : List α → Finset α → Nat → Prop
  | nil : ServedTo k C [] C 0
  | hit {refs : List α} {D : Finset α} {p : α} {n : Nat} (h : ServedTo k C refs D n) (hp : p ∈ D) :
      ServedTo k C (refs ++ [p]) D n
  | fault {refs : List α} {D D' : Finset α} {p : α} {n : Nat} (h : ServedTo k C refs D n) (hp : p ∉ D) (hload : p ∈ D')
      (hkeep : D' ⊆ insert p D) (hroom : D'.card ≤ k) : ServedTo k C (refs ++ [p]) D' (n + 1)

theorem ServedTo.serves (h : ServedTo k C refs D n) (h' : Serves k D rest m) : Serves k C (refs ++ rest) (n + m) := by
  induction h generalizing rest m with
  | nil =>
    rw [List.nil_append, Nat.zero_add]
    exact h'
  | hit h hp ih =>
    rw [List.append_assoc]
    exact ih (.hit hp h')
  | fault h hp hload hkeep hroom ih =>
    rw [List.append_assoc, Nat.add_right_comm, Nat.add_assoc]
    exact ih (.fault hp hload hkeep hroom h')

theorem ServedTo.continues (h : ServedTo k C refs D n) (h' : Serves k D rest m) : ∃ D', ServedTo k C (refs ++ rest) D' (n + m) := by
  induction h' generalizing refs n with
  | @nil D =>
    rw [List.append_nil]
    exact ⟨D, h⟩
  | @hit D p rest m hp h' ih =>
    rw [← List.singleton_append, ← List.append_assoc]
    exact ih (h.hit hp)
  | @fault D D' p rest m hp hload hkeep hroom h' ih =>
    rw [← List.singleton_append, ← List.append_assoc, Nat.add_comm m, ← Nat.add_assoc]
    exact ih (h.fault hp hload hkeep hroom)

theorem serves_iff : Serves k C refs n ↔ ∃ D, ServedTo k C refs D n :=
  ⟨fun h => by simpa only [List.nil_append, Nat.zero_add] using ServedTo.continues .nil h,
    fun ⟨_, h⟩ => by simpa only [List.append_nil, Nat.add_zero] using h.serves .nil⟩

theorem servedTo_nil : ServedTo k C [] D n ↔ D = C ∧ n = 0 := by
  constructor
  · generalize hnil : ([] : List α) = refs
    rintro (_ | ⟨_, _⟩ | ⟨_, _⟩)
    · exact ⟨rfl, rfl⟩
    · exact absurd hnil (List.concat_ne_nil _ _).symm
    · exact absurd hnil (List.concat_ne_nil _ _).symm
  · rintro ⟨rfl, rfl⟩
    exact .nil

/-- What the last reference did. -/
theorem servedTo_concat : ServedTo k C (refs ++ [p]) D' n ↔
    ∃ D m, ServedTo k C refs D m ∧
      (p ∈ D ∧ D' = D ∧ n = m ∨ p ∉ D ∧ p ∈ D' ∧ D' ⊆ insert p D ∧ D'.card ≤ k ∧ n = m + 1) := by
  constructor
  · generalize hrefs : refs ++ [p] = l
    intro h
    cases h with
    | nil => exact absurd hrefs (List.concat_ne_nil _ _)
    | hit h hp =>
      obtain ⟨rfl, hlast⟩ := List.append_inj' hrefs rfl
      obtain rfl := List.singleton_inj.mp hlast
      exact ⟨_, _, h, .inl ⟨hp, rfl, rfl⟩⟩
    | fault h hp hload hkeep hroom =>
      obtain ⟨rfl, hlast⟩ := List.append_inj' hrefs rfl
      obtain rfl := List.singleton_inj.mp hlast
      exact ⟨_, _, h, .inr ⟨hp, hload, hkeep, hroom, rfl⟩⟩
  · rintro ⟨D, m, h, ⟨hp, rfl, rfl⟩ | ⟨hp, hload, hkeep, hroom, rfl⟩⟩
    · exact h.hit hp
    · exact h.fault hp hload hkeep hroom

/-- The page of the last reference is in memory. -/
theorem ServedTo.last (h : ServedTo k C (refs ++ [p]) D n) : p ∈ D := by
  obtain ⟨D', m, -, ⟨hp, rfl, -⟩ | ⟨-, hload, -⟩⟩ := servedTo_concat.mp h
  · exact hp
  · exact hload

/-- A reference to a page that is in memory in any case costs nothing and changes nothing. -/
theorem servedTo_skip (hp : ∀ D n, ServedTo k C refs D n → p ∈ D) : ServedTo k C (refs ++ [p]) D n ↔ ServedTo k C refs D n := by
  rw [servedTo_concat]
  constructor
  · rintro ⟨D, m, h, ⟨-, rfl, rfl⟩ | ⟨hmiss, -⟩⟩
    · exact h
    · exact absurd (hp D m h) hmiss
  · exact fun h => ⟨D, n, h, .inl ⟨hp D n h, rfl, rfl⟩⟩

/-- The references `log` are those of `refs`, but for references to a page right after another reference to it, and for
    references to the pages `C` at the beginning. -/
inductive Logged (C : Finset α) : List α → List α → Prop
  | nil : Logged C [] []
  | logged {refs log : List α} (p : α) (h : Logged C refs log) : Logged C (refs ++ [p]) (log ++ [p])
  | again {refs log : List α} {p : α} (h : Logged C (refs ++ [p]) log) : Logged C (refs ++ [p] ++ [p]) log
  | start {refs : List α} {p : α} (h : Logged C refs []) (hp : p ∈ C) : Logged C (refs ++ [p]) []

/-- What is left out makes no difference. -/
theorem Logged.servedTo_iff {log : List α} (h : Logged C refs log) : ServedTo k C refs D n ↔ ServedTo k C log D n := by
  induction h generalizing D n with
  | nil => exact Iff.rfl
  | logged p h ih => simp only [servedTo_concat, ih]
  | again h ih => exact (servedTo_skip fun _ _ h' => h'.last).trans ih
  | start h hp ih =>
    refine (servedTo_skip fun D n h' => ?_).trans ih
    obtain ⟨rfl, -⟩ := servedTo_nil.mp (ih.mp h')
    exact hp

theorem Logged.serves_iff {log : List α} (h : Logged C refs log) : Serves k C refs n ↔ Serves k C log n := by
  simp only [Lib.serves_iff, h.servedTo_iff]

end Fos.Lib
