import Mathlib.Algebra.Order.BigOperators.Group.Finset
import Mathlib.Data.List.Perm.Basic
import Mathlib.Data.List.Pairwise
import Mathlib.Order.Interval.Finset.Nat

/-! Regions of an address space: how many fit into an interval, how they tile one, and the edits that keep the tiling: cutting
    a region in two, joining two neighbours, and moving the upper end. -/

namespace Fos.Lib

structure Region where
  start : Nat
  size : Nat
  deriving DecidableEq, Repr

def Region.stop (r : Region) : Nat := r.start + r.size

/-- The two regions do not overlap. -/
def Region.Apart (r q : Region) : Prop := r.stop ≤ q.start ∨ q.stop ≤ r.start

instance (r q : Region) : Decidable (r.Apart q) := inferInstanceAs (Decidable (_ ∨ _))

instance : Std.Symm Region.Apart := ⟨fun _ _ h => Or.symm h⟩

/-- Regions between `lo` and `hi` that do not overlap have no more addresses together than there are. -/
theorem sum_size_le {α : Type} {S : Finset α} {region : α → Region} {lo hi : Nat}
    (hin : ∀ a ∈ S, lo ≤ (region a).start ∧ (region a).stop ≤ hi)
    (hapart : ∀ a ∈ S, ∀ b ∈ S, a ≠ b → (region a).Apart (region b)) : ∑ a ∈ S, (region a).size ≤ hi - lo := by
  let addresses (a : α) := Finset.Ico (region a).start (region a).stop
  have hdisjoint : ∀ a ∈ S, ∀ b ∈ S, a ≠ b → Disjoint (addresses a) (addresses b) := by
    intro a ha b hb hne
    rw [Finset.disjoint_left]
    intro x hxa hxb
    have hxa := Finset.mem_Ico.mp hxa
    have hxb := Finset.mem_Ico.mp hxb
    rcases hapart a ha b hb hne with h | h <;> omega
  have hsub : S.biUnion addresses ⊆ Finset.Ico lo hi := by
    intro x hx
    obtain ⟨a, ha, hxa⟩ := Finset.mem_biUnion.mp hx
    have hxa := Finset.mem_Ico.mp hxa
    have hbounds := hin a ha
    exact Finset.mem_Ico.mpr ⟨by omega, by omega⟩
  have hcard (a : α) : (addresses a).card = (region a).size := by
    rw [Nat.card_Ico, Region.stop, Nat.add_sub_cancel_left]
  calc ∑ a ∈ S, (region a).size
      = ∑ a ∈ S, (addresses a).card := Finset.sum_congr rfl fun a _ => (hcard a).symm
    _ = (S.biUnion addresses).card := (Finset.card_biUnion hdisjoint).symm
    _ ≤ (Finset.Ico lo hi).card := Finset.card_le_card hsub
    _ = hi - lo := Nat.card_Ico lo hi

/-- The regions `R` are not empty, do not overlap and cover exactly the addresses from `lo` to `hi`. -/
structure Tiles (lo hi : Nat) (R : List Region) : Prop where
  le : lo ≤ hi
  inside : ∀ r ∈ R, 0 < r.size ∧ lo ≤ r.start ∧ r.stop ≤ hi
  apart : R.Pairwise Region.Apart
  cover : ∀ a, lo ≤ a → a < hi → ∃ r ∈ R, r.start ≤ a ∧ a < r.stop

namespace Tiles

variable {lo hi s n m k : Nat} {R R' : List Region} {r q : Region}

theorem nil (lo : Nat) : Tiles lo lo [] :=
  ⟨Nat.le_refl _, nofun, List.Pairwise.nil, fun a h h' => by omega⟩

theorem perm (h : Tiles lo hi R) (hp : R.Perm R') : Tiles lo hi R' where
  le := h.le
  inside := fun r hr => h.inside r (hp.mem_iff.mpr hr)
  apart := hp.pairwise h.apart Or.symm
  cover := fun a hl hh => by
    obtain ⟨r, hr, ha⟩ := h.cover a hl hh
    exact ⟨r, hp.mem_iff.mp hr, ha⟩

/-- Two regions of a tiling that share an address are one. -/
theorem eq_of_overlap (h : Tiles lo hi R) (hr : r ∈ R) (hq : q ∈ R) (ho : ¬ r.Apart q) : r = q := by
  by_contra hne
  exact ho (h.apart.forall hr hq hne)

theorem eq_of_start (h : Tiles lo hi R) (hr : r ∈ R) (hq : q ∈ R) (hs : r.start = q.start) : r = q := by
  have := h.inside r hr
  have := h.inside q hq
  refine h.eq_of_overlap hr hq ?_
  simp only [Region.Apart, Region.stop]
  omega

/-- The region that ends at the upper end. -/
theorem exists_top (h : Tiles lo hi R) (hlt : lo < hi) : ∃ r ∈ R, r.stop = hi := by
  obtain ⟨r, hr, hle, hstop⟩ := h.cover (hi - 1) (by omega) (by omega)
  have := (h.inside r hr).2.2
  exact ⟨r, hr, by omega⟩

theorem nodup (h : Tiles lo hi R) : R.Nodup := by
  refine h.apart.imp_of_mem fun {r q} hr _ hrq => ?_
  rintro rfl
  have := (h.inside r hr).1
  simp only [Region.Apart, Region.stop] at hrq
  omega

theorem extend (h : Tiles lo hi R) (hk : 0 < k) : Tiles lo (hi + k) (⟨hi, k⟩ :: R) := by
  have := h.le
  refine ⟨by omega, fun r hr => ?_, List.pairwise_cons.mpr ⟨fun r hr => ?_, h.apart⟩, fun a hl hh => ?_⟩
  · rcases List.mem_cons.mp hr with rfl | hr
    · exact ⟨hk, h.le, Nat.le_refl _⟩
    · have := h.inside r hr
      omega
  · exact .inr (h.inside r hr).2.2
  · by_cases ha : a < hi
    · obtain ⟨r, hr, hra⟩ := h.cover a hl ha
      exact ⟨r, List.mem_cons_of_mem _ hr, hra⟩
    · exact ⟨_, List.mem_cons_self .., by simp only; omega, by simp only [Region.stop]; omega⟩

/-- A region is cut in two. -/
theorem split (h : Tiles lo hi (⟨s, n⟩ :: R)) (hk : 0 < k) (hn : k < n) :
    Tiles lo hi (⟨s, k⟩ :: ⟨s + k, n - k⟩ :: R) := by
  have hr := h.inside ⟨s, n⟩ (by simp)
  obtain ⟨hapart, hrest⟩ := List.pairwise_cons.mp h.apart
  simp only [Region.stop] at hr
  refine ⟨h.le, fun r hmem => ?_, ?_, fun a hl hh => ?_⟩
  · simp only [List.mem_cons] at hmem
    rcases hmem with rfl | rfl | hmem
    · simp only [Region.stop]
      omega
    · simp only [Region.stop]
      omega
    · exact h.inside r (List.mem_cons_of_mem _ hmem)
  · refine List.pairwise_cons.mpr ⟨fun r hmem => ?_, List.pairwise_cons.mpr ⟨fun r hmem => ?_, hrest⟩⟩
    · rcases List.mem_cons.mp hmem with rfl | hmem
      · exact .inl (Nat.le_refl _)
      · have := hapart r hmem
        simp only [Region.Apart, Region.stop] at this ⊢
        omega
    · have := hapart r hmem
      simp only [Region.Apart, Region.stop] at this ⊢
      omega
  · obtain ⟨r, hmem, hle, hlt⟩ := h.cover a hl hh
    rcases List.mem_cons.mp hmem with rfl | hmem
    · by_cases ha : a < s + k
      · exact ⟨⟨s, k⟩, by simp, hle, ha⟩
      · refine ⟨⟨s + k, n - k⟩, by simp, by simp only; omega, ?_⟩
        simp only [Region.stop] at hlt ⊢
        omega
    · exact ⟨r, by simp [hmem], hle, hlt⟩

/-- Two neighbours become one region. -/
theorem join (h : Tiles lo hi (⟨s, n⟩ :: ⟨s + n, m⟩ :: R)) : Tiles lo hi (⟨s, n + m⟩ :: R) := by
  have hr := h.inside ⟨s, n⟩ (by simp)
  have hq := h.inside ⟨s + n, m⟩ (by simp)
  obtain ⟨hapart, hrest⟩ := List.pairwise_cons.mp h.apart
  obtain ⟨hapart', hrest⟩ := List.pairwise_cons.mp hrest
  simp only [Region.stop] at hr hq
  refine ⟨h.le, fun r hmem => ?_, List.pairwise_cons.mpr ⟨fun r hmem => ?_, hrest⟩, fun a hl hh => ?_⟩
  · rcases List.mem_cons.mp hmem with rfl | hmem
    · simp only [Region.stop]
      omega
    · exact h.inside r (by simp [hmem])
  · have h1 := hapart r (List.mem_cons_of_mem _ hmem)
    have h2 := hapart' r hmem
    have h3 := h.inside r (by simp [hmem])
    simp only [Region.Apart, Region.stop] at h1 h2 h3 ⊢
    omega
  · obtain ⟨r, hmem, hle, hlt⟩ := h.cover a hl hh
    simp only [List.mem_cons] at hmem
    rcases hmem with rfl | rfl | hmem
    · exact ⟨⟨s, n + m⟩, by simp, hle, by simp only [Region.stop] at hlt ⊢; omega⟩
    · exact ⟨⟨s, n + m⟩, by simp, by simp only at hle ⊢; omega, by simp only [Region.stop] at hlt ⊢; omega⟩
    · exact ⟨r, by simp [hmem], hle, hlt⟩

/-- The region at the upper end is given up. -/
theorem lower (h : Tiles lo hi (r :: R)) (htop : r.stop = hi) : Tiles lo r.start R := by
  have hr := h.inside r (by simp)
  obtain ⟨hapart, hrest⟩ := List.pairwise_cons.mp h.apart
  refine ⟨hr.2.1, fun q hq => ?_, hrest, fun a hl hh => ?_⟩
  · have h1 := h.inside q (by simp [hq])
    have h2 := hapart q hq
    simp only [Region.Apart, Region.stop] at h1 h2 hr htop ⊢
    omega
  · obtain ⟨q, hmem, hle, hlt⟩ := h.cover a hl (by simp only [Region.stop] at htop; omega)
    rcases List.mem_cons.mp hmem with rfl | hmem
    · omega
    · exact ⟨q, hmem, hle, hlt⟩

end Tiles

/-! ### Giving a region back to a set of free regions -/

/-- `F'` is `F` with the region `r` given back, joined with the neighbours that it has in `F`. -/
inductive Merge (r : Region) (F F' : List Region) : Prop
  | both (b a : Region) (G : List Region) : F.Perm (b :: a :: G) → b.stop = r.start → r.stop = a.start →
      F'.Perm (⟨b.start, b.size + (r.size + a.size)⟩ :: G) → Merge r F F'
  | before (b : Region) (G : List Region) : F.Perm (b :: G) → b.stop = r.start → (∀ x ∈ F, r.stop ≠ x.start) →
      F'.Perm (⟨b.start, b.size + r.size⟩ :: G) → Merge r F F'
  | after (a : Region) (G : List Region) : F.Perm (a :: G) → r.stop = a.start → (∀ x ∈ F, x.stop ≠ r.start) →
      F'.Perm (⟨r.start, a.size + r.size⟩ :: G) → Merge r F F'
  | alone : (∀ x ∈ F, x.stop ≠ r.start) → (∀ x ∈ F, r.stop ≠ x.start) → F'.Perm (r :: F) → Merge r F F'

/-- No two free regions are neighbours. -/
def Coalesced (F : List Region) : Prop := ∀ p ∈ F, ∀ q ∈ F, p.stop ≠ q.start

theorem Coalesced.mono {F F' : List Region} (h : Coalesced F) (hsub : ∀ r ∈ F', r ∈ F) : Coalesced F' :=
  fun p hp q hq => h p (hsub p hp) q (hsub q hq)

/-- A free region loses its front. -/
theorem Coalesced.cut {lo hi s n k : Nat} {G X : List Region} (h : Coalesced (⟨s, n⟩ :: G))
    (ht : Tiles lo hi (⟨s, n⟩ :: G ++ X)) (hk : k < n) : Coalesced (⟨s + k, n - k⟩ :: G) := by
  have hstop : (⟨s + k, n - k⟩ : Region).stop = (⟨s, n⟩ : Region).stop := by
    simp only [Region.stop]
    omega
  have hapart := (List.pairwise_cons.mp ht.apart).1
  intro p hp q hq
  rcases List.mem_cons.mp hp with rfl | hp
  · rw [hstop]
    rcases List.mem_cons.mp hq with rfl | hq
    · simp only [Region.stop]
      omega
    · exact h _ (List.mem_cons_self ..) q (List.mem_cons_of_mem _ hq)
  · rcases List.mem_cons.mp hq with rfl | hq
    · -- A region that ends inside the one that was cut would overlap it.
      have hne := h p (List.mem_cons_of_mem _ hp) _ (List.mem_cons_self ..)
      have hp' := hapart p (List.mem_append_left _ hp)
      have := (ht.inside p (by simp [hp])).1
      simp only [Region.Apart, Region.stop] at hp' hne ⊢
      omega
    · exact h p (List.mem_cons_of_mem _ hp) q (List.mem_cons_of_mem _ hq)

namespace Merge

variable {lo hi : Nat} {r : Region} {F F' X : List Region}

theorem tiles (h : Merge r F F') (ht : Tiles lo hi (r :: F ++ X)) : Tiles lo hi (F' ++ X) := by
  obtain ⟨rs, rn⟩ := r
  cases h with
  | both b a G hF hb ha hF' =>
    obtain ⟨bs, bn⟩ := b
    obtain ⟨as, an⟩ := a
    obtain rfl : bs + bn = rs := hb
    obtain rfl : bs + bn + rn = as := ha
    have h₁ : Tiles lo hi (⟨bs, bn⟩ :: ⟨bs + bn, rn⟩ :: ⟨bs + bn + rn, an⟩ :: (G ++ X)) := by
      refine ht.perm ?_
      rw [List.cons_append]
      refine ((hF.append_right X).cons _).trans ?_
      exact List.Perm.swap ..
    have h₂ := h₁.join
    rw [Nat.add_assoc] at h₂
    have h₃ := h₂.join
    rw [Nat.add_assoc] at h₃
    exact h₃.perm (hF'.append_right X).symm
  | before b G hF hb hna hF' =>
    obtain ⟨bs, bn⟩ := b
    obtain rfl : bs + bn = rs := hb
    have h₁ : Tiles lo hi (⟨bs, bn⟩ :: ⟨bs + bn, rn⟩ :: (G ++ X)) := by
      refine ht.perm ?_
      rw [List.cons_append]
      exact ((hF.append_right X).cons _).trans (List.Perm.swap ..)
    exact h₁.join.perm (hF'.append_right X).symm
  | after a G hF ha hnb hF' =>
    obtain ⟨as, an⟩ := a
    obtain rfl : rs + rn = as := ha
    have h₁ : Tiles lo hi (⟨rs, rn⟩ :: ⟨rs + rn, an⟩ :: (G ++ X)) := ht.perm ((hF.append_right X).cons _)
    have h₂ := h₁.join
    rw [Nat.add_comm rn an] at h₂
    exact h₂.perm (hF'.append_right X).symm
  | alone hnb hna hF' => exact ht.perm (hF'.append_right X).symm

/-- A region of `F'` starts and ends where `r` or a region of `F` does. -/
theorem start_stop (h : Merge r F F') {x : Region} (hx : x ∈ F') :
    (x.start = r.start ∨ ∃ b ∈ F, x.start = b.start) ∧ (x.stop = r.stop ∨ ∃ a ∈ F, x.stop = a.stop) := by
  have hold : x ∈ F → (x.start = r.start ∨ ∃ b ∈ F, x.start = b.start) ∧ (x.stop = r.stop ∨ ∃ a ∈ F, x.stop = a.stop) :=
    fun hx => ⟨.inr ⟨x, hx, rfl⟩, .inr ⟨x, hx, rfl⟩⟩
  cases h with
  | both b a G hF hb ha hF' =>
    rcases List.mem_cons.mp (hF'.mem_iff.mp hx) with rfl | hx
    · refine ⟨.inr ⟨b, hF.mem_iff.mpr (by simp), rfl⟩, .inr ⟨a, hF.mem_iff.mpr (by simp), ?_⟩⟩
      simp only [Region.stop] at *
      omega
    · exact hold (hF.mem_iff.mpr (by simp [hx]))
  | before b G hF hb hna hF' =>
    rcases List.mem_cons.mp (hF'.mem_iff.mp hx) with rfl | hx
    · refine ⟨.inr ⟨b, hF.mem_iff.mpr (by simp), rfl⟩, .inl ?_⟩
      simp only [Region.stop] at *
      omega
    · exact hold (hF.mem_iff.mpr (by simp [hx]))
  | after a G hF ha hnb hF' =>
    rcases List.mem_cons.mp (hF'.mem_iff.mp hx) with rfl | hx
    · refine ⟨.inl rfl, .inr ⟨a, hF.mem_iff.mpr (by simp), ?_⟩⟩
      simp only [Region.stop] at *
      omega
    · exact hold (hF.mem_iff.mpr (by simp [hx]))
  | alone hnb hna hF' =>
    rcases List.mem_cons.mp (hF'.mem_iff.mp hx) with rfl | hx
    · exact ⟨.inl rfl, .inl rfl⟩
    · exact hold hx

theorem coalesced (h : Merge r F F') (ht : Tiles lo hi (r :: F ++ X)) (hc : Coalesced F) : Coalesced F' := by
  have hpos : 0 < r.size := (ht.inside r (by simp)).1
  have hself : ∀ x : Region, 0 < x.size → x.stop ≠ x.start := fun x hx => by
    simp only [Region.stop]
    omega
  intro p hp q hq
  cases h with
  | both b a G hF hb ha hF' =>
    have hbF : b ∈ F := hF.mem_iff.mpr (by simp)
    have haF : a ∈ F := hF.mem_iff.mpr (by simp)
    have hGF : ∀ x ∈ G, x ∈ F := fun x hx => hF.mem_iff.mpr (by simp [hx])
    have hend : (⟨b.start, b.size + (r.size + a.size)⟩ : Region).stop = a.stop := by
      simp only [Region.stop] at *
      omega
    rcases List.mem_cons.mp (hF'.mem_iff.mp hp) with rfl | hp
    · rcases List.mem_cons.mp (hF'.mem_iff.mp hq) with rfl | hq
      · exact hself _ (by simp only; omega)
      · rw [hend]
        exact hc a haF q (hGF q hq)
    · rcases List.mem_cons.mp (hF'.mem_iff.mp hq) with rfl | hq
      · exact hc p (hGF p hp) b hbF
      · exact hc p (hGF p hp) q (hGF q hq)
  | before b G hF hb hna hF' =>
    have hbF : b ∈ F := hF.mem_iff.mpr (by simp)
    have hGF : ∀ x ∈ G, x ∈ F := fun x hx => hF.mem_iff.mpr (by simp [hx])
    have hend : (⟨b.start, b.size + r.size⟩ : Region).stop = r.stop := by
      simp only [Region.stop] at *
      omega
    rcases List.mem_cons.mp (hF'.mem_iff.mp hp) with rfl | hp
    · rcases List.mem_cons.mp (hF'.mem_iff.mp hq) with rfl | hq
      · exact hself _ (by simp only; omega)
      · rw [hend]
        exact hna q (hGF q hq)
    · rcases List.mem_cons.mp (hF'.mem_iff.mp hq) with rfl | hq
      · exact hc p (hGF p hp) b hbF
      · exact hc p (hGF p hp) q (hGF q hq)
  | after a G hF ha hnb hF' =>
    have haF : a ∈ F := hF.mem_iff.mpr (by simp)
    have hGF : ∀ x ∈ G, x ∈ F := fun x hx => hF.mem_iff.mpr (by simp [hx])
    have hend : (⟨r.start, a.size + r.size⟩ : Region).stop = a.stop := by
      simp only [Region.stop] at *
      omega
    rcases List.mem_cons.mp (hF'.mem_iff.mp hp) with rfl | hp
    · rcases List.mem_cons.mp (hF'.mem_iff.mp hq) with rfl | hq
      · exact hself _ (by simp only; omega)
      · rw [hend]
        exact hc a haF q (hGF q hq)
    · rcases List.mem_cons.mp (hF'.mem_iff.mp hq) with rfl | hq
      · exact hnb p (hGF p hp)
      · exact hc p (hGF p hp) q (hGF q hq)
  | alone hnb hna hF' =>
    rcases List.mem_cons.mp (hF'.mem_iff.mp hp) with rfl | hp
    · rcases List.mem_cons.mp (hF'.mem_iff.mp hq) with rfl | hq
      · exact hself q hpos
      · exact hna q hq
    · rcases List.mem_cons.mp (hF'.mem_iff.mp hq) with rfl | hq
      · exact hnb p hp
      · exact hc p hp q hq

end Merge

end Fos.Lib
