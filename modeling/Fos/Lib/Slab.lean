import Mathlib.Data.List.Nodup
import Mathlib.Data.List.Count
import Mathlib.Data.Finset.Card
import Mathlib.Logic.Function.Basic
import Mathlib.Tactic.Ring

/-! Slab allocation: an area is cut into pages, a page that is in use is cut into blocks of one size class,
    and each of its blocks is either in the free list of the class or handed out. -/

namespace Fos.Lib

/-- An area of pages from `start` on, and the block sizes of its classes. -/
structure Slabs (κ : Type) where
  start : Nat
  page : Nat
  size : κ → Nat
  size_pos : ∀ c, 0 < size c
  page_pos : 0 < page
  size_dvd : ∀ c, size c ∣ page

namespace Slabs

variable {κ : Type} (S : Slabs κ)

def base (i : Nat) : Nat := S.start + i * S.page

/-- The page of an address. -/
def pageOf (b : Nat) : Nat := (b - S.start) / S.page

/-- How many blocks of class `c` a page has. -/
def perPage (c : κ) : Nat := S.page / S.size c

/-- The blocks of page `i` when it is cut into class `c`. -/
def slots (c : κ) (i : Nat) : List Nat := (List.range (S.perPage c)).map fun j => S.base i + j * S.size c

/-- How many blocks of page `i` are in the free list of class `c`. -/
def freeIn (free : κ → List Nat) (c : κ) (i : Nat) : Nat := (free c).countP fun b => S.pageOf b = i

variable {S} {c c' : κ} {i i' b b' : Nat}

theorem mem_slots : b ∈ S.slots c i ↔ ∃ j < S.perPage c, b = S.base i + j * S.size c := by
  simp [slots, eq_comm]

theorem perPage_mul : S.perPage c * S.size c = S.page := Nat.div_mul_cancel (S.size_dvd c)

theorem perPage_pos : 0 < S.perPage c := Nat.div_pos (Nat.le_of_dvd S.page_pos (S.size_dvd c)) (S.size_pos c)

theorem length_slots : (S.slots c i).length = S.perPage c := by simp [slots]

theorem slots_head : (S.slots c i).head? = some (S.base i) := by
  obtain ⟨n, hn⟩ := Nat.exists_eq_succ_of_ne_zero (perPage_pos (S := S) (c := c)).ne'
  simp [slots, hn, List.range_succ_eq_map]

theorem nodup_slots : (S.slots c i).Nodup := by
  refine List.nodup_range.map fun j k hjk => ?_
  have : j * S.size c = k * S.size c := Nat.add_left_cancel hjk
  exact Nat.eq_of_mul_eq_mul_right (S.size_pos c) this

theorem slot_bounds (h : b ∈ S.slots c i) : S.base i ≤ b ∧ b + S.size c ≤ S.base i + S.page := by
  obtain ⟨j, hj, rfl⟩ := mem_slots.mp h
  have hle : (j + 1) * S.size c ≤ S.perPage c * S.size c := Nat.mul_le_mul_right _ hj
  rw [perPage_mul] at hle
  rw [Nat.add_mul] at hle
  omega

theorem pageOf_eq (h : S.base i ≤ b) (h' : b < S.base i + S.page) : S.pageOf b = i := by
  unfold pageOf base at *
  apply Nat.div_eq_of_lt_le
  · omega
  · rw [Nat.add_mul]
    omega

theorem pageOf_slot (h : b ∈ S.slots c i) : S.pageOf b = i := by
  have := slot_bounds h
  have := S.size_pos c
  exact pageOf_eq (by omega) (by omega)

theorem base_mono (h : i < i') : S.base i + S.page ≤ S.base i' := by
  have : (i + 1) * S.page ≤ i' * S.page := Nat.mul_le_mul_right _ h
  rw [Nat.add_mul] at this
  unfold base
  omega

/-- Two blocks of one page and class that differ do not overlap. -/
theorem slots_apart (h : b ∈ S.slots c i) (h' : b' ∈ S.slots c i) (hne : b ≠ b') :
    b + S.size c ≤ b' ∨ b' + S.size c ≤ b := by
  obtain ⟨j, -, rfl⟩ := mem_slots.mp h
  obtain ⟨k, -, rfl⟩ := mem_slots.mp h'
  rcases Nat.lt_trichotomy j k with hjk | rfl | hjk
  · have : (j + 1) * S.size c ≤ k * S.size c := Nat.mul_le_mul_right _ hjk
    rw [Nat.add_mul] at this
    omega
  · exact absurd rfl hne
  · have : (k + 1) * S.size c ≤ j * S.size c := Nat.mul_le_mul_right _ hjk
    rw [Nat.add_mul] at this
    omega

/-- The blocks of a page cover it. -/
theorem exists_slot {a : Nat} (h : S.base i ≤ a) (h' : a < S.base i + S.page) (c : κ) :
    ∃ b ∈ S.slots c i, b ≤ a ∧ a < b + S.size c := by
  have hmod := Nat.div_add_mod (a - S.base i) (S.size c)
  have hlt := Nat.mod_lt (a - S.base i) (S.size_pos c)
  rw [Nat.mul_comm] at hmod
  refine ⟨S.base i + (a - S.base i) / S.size c * S.size c, mem_slots.mpr ⟨_, ?_, rfl⟩, by omega, by omega⟩
  rw [Nat.div_lt_iff_lt_mul (S.size_pos c), perPage_mul]
  omega

section Counts
variable [DecidableEq κ] {free : κ → List Nat}

theorem freeIn_take (hb : b ∈ free c) :
    S.freeIn (Function.update free c ((free c).erase b)) c (S.pageOf b) + 1 = S.freeIn free c (S.pageOf b) := by
  have hpos : 0 < (free c).countP fun x => S.pageOf x = S.pageOf b := List.countP_pos_iff.mpr ⟨b, hb, by simp⟩
  rw [freeIn, Function.update_self, List.countP_erase, if_pos (by simpa using hb), freeIn]
  omega

theorem freeIn_take_of_ne (hi : i ≠ S.pageOf b) :
    S.freeIn (Function.update free c ((free c).erase b)) c' i = S.freeIn free c' i := by
  unfold freeIn
  by_cases hc : c' = c
  · subst hc
    rw [Function.update_self, List.countP_erase]
    simp [Ne.symm hi]
  · rw [Function.update_of_ne hc]

theorem freeIn_give : S.freeIn (Function.update free c (b :: free c)) c (S.pageOf b) = S.freeIn free c (S.pageOf b) + 1 := by
  simp [freeIn]

theorem freeIn_give_of_ne (hi : i ≠ S.pageOf b) :
    S.freeIn (Function.update free c (b :: free c)) c' i = S.freeIn free c' i := by
  unfold freeIn
  by_cases hc : c' = c
  · subst hc
    simp [Ne.symm hi]
  · rw [Function.update_of_ne hc]

omit [DecidableEq κ] in
theorem freeIn_slots : (S.slots c i).countP (fun b => S.pageOf b = i) = S.perPage c := by
  rw [List.countP_eq_length.mpr fun b hb => by simpa using pageOf_slot hb, length_slots]

theorem freeIn_opened (h : ∀ b ∈ free c, S.pageOf b ≠ i) :
    S.freeIn (Function.update free c (free c ++ S.slots c i)) c i = S.perPage c := by
  rw [freeIn, Function.update_self, List.countP_append, freeIn_slots,
    List.countP_eq_zero.mpr fun b hb => by simpa using h b hb, Nat.zero_add]

theorem freeIn_opened_of_ne (hi : i' ≠ i) :
    S.freeIn (Function.update free c (free c ++ S.slots c i)) c' i' = S.freeIn free c' i' := by
  unfold freeIn
  by_cases hc : c' = c
  · subst hc
    rw [Function.update_self, List.countP_append, Nat.add_eq_left]
    refine List.countP_eq_zero.mpr fun b hb => ?_
    simp [pageOf_slot hb, Ne.symm hi]
  · rw [Function.update_of_ne hc]

theorem freeIn_closed_of_ne (hi : i' ≠ i) (hn : (free c).Nodup) :
    S.freeIn (Function.update free c ((free c).diff (S.slots c i))) c' i' = S.freeIn free c' i' := by
  unfold freeIn
  by_cases hc : c' = c
  · subst hc
    rw [Function.update_self, hn.sdiff_eq_filter, List.countP_filter]
    refine List.countP_congr fun b _ => ?_
    simp only [Bool.and_eq_true, decide_eq_true_eq, and_iff_left_iff_imp]
    intro hb
    have : b ∉ S.slots c' i := fun hslot => hi (by rw [← hb, pageOf_slot hslot])
    simpa using this
  · rw [Function.update_of_ne hc]

end Counts

end Slabs

/-- `cls` is the class of each page in use, `free` the free lists and `out` the blocks handed out: the pages
    in use are tiled by their free blocks and their blocks that are out. -/
structure Tiled {κ : Type} (S : Slabs κ) (cls : Nat → Option κ) (free : κ → List Nat) (out : List Nat) : Prop where
  listed : ∀ c b, b ∈ free c → ∃ i, cls i = some c ∧ b ∈ S.slots c i
  handed : ∀ b ∈ out, ∃ i c, cls i = some c ∧ b ∈ S.slots c i
  cover : ∀ i c b, cls i = some c → b ∈ S.slots c i → b ∈ free c ∨ b ∈ out
  apart : ∀ c b, b ∈ free c → b ∉ out
  free_nodup : ∀ c, (free c).Nodup
  out_nodup : out.Nodup

namespace Tiled
open Slabs

variable {κ : Type} {S : Slabs κ} {cls : Nat → Option κ} {free : κ → List Nat} {out : List Nat}
  {c : κ} {i b b' : Nat}

/-- The class of the page of a block that is in a free list. -/
theorem cls_of_listed (h : Tiled S cls free out) (hb : b ∈ free c) :
    cls (S.pageOf b) = some c ∧ b ∈ S.slots c (S.pageOf b) := by
  obtain ⟨i, hi, hslot⟩ := h.listed c b hb
  rw [pageOf_slot hslot]
  exact ⟨hi, hslot⟩

theorem perm (h : Tiled S cls free out) {out' : List Nat} (hp : out.Perm out') : Tiled S cls free out' where
  listed := h.listed
  handed := fun b hb => h.handed b (hp.mem_iff.mpr hb)
  cover := fun i c b hi hb => (h.cover i c b hi hb).imp_right hp.mem_iff.mp
  apart := fun c b hb hmem => h.apart c b hb (hp.mem_iff.mpr hmem)
  free_nodup := h.free_nodup
  out_nodup := hp.nodup h.out_nodup

theorem cls_of_handed (h : Tiled S cls free out) (hb : b ∈ out) :
    ∃ c, cls (S.pageOf b) = some c ∧ b ∈ S.slots c (S.pageOf b) := by
  obtain ⟨i, c, hi, hslot⟩ := h.handed b hb
  rw [pageOf_slot hslot]
  exact ⟨c, hi, hslot⟩

/-- Two blocks of the tiling do not overlap. -/
theorem blocks_apart {c' : κ} {i' : Nat} (hi : cls i = some c) (hi' : cls i' = some c') (hb : b ∈ S.slots c i)
    (hb' : b' ∈ S.slots c' i') (hne : b ≠ b') : b + S.size c ≤ b' ∨ b' + S.size c' ≤ b := by
  have hbounds := slot_bounds hb
  have hbounds' := slot_bounds hb'
  rcases Nat.lt_trichotomy i i' with hlt | rfl | hlt
  · have := base_mono (S := S) hlt
    omega
  · obtain rfl : c = c' := Option.some.inj (hi.symm.trans hi')
    exact slots_apart hb hb' hne
  · have := base_mono (S := S) hlt
    omega

theorem free_subperm (h : Tiled S cls free out) :
    ((free c).filter fun b => S.pageOf b = i).Subperm (S.slots c i) := by
  refine ((h.free_nodup c).filter _).subperm fun x hx => ?_
  obtain ⟨hx, hpage⟩ := List.mem_filter.mp hx
  have := (h.cls_of_listed hx).2
  rwa [of_decide_eq_true hpage] at this

theorem freeIn_le (h : Tiled S cls free out) : S.freeIn free c i ≤ S.perPage c := by
  rw [freeIn, List.countP_eq_length_filter, ← length_slots (S := S) (c := c) (i := i)]
  exact h.free_subperm.length_le

/-- All blocks of a page are free when the count says so. -/
theorem all_free (h : Tiled S cls free out)
    (hcount : S.freeIn free c i = S.perPage c) (hb : b ∈ S.slots c i) : b ∈ free c := by
  have hlen : (S.slots c i).length ≤ ((free c).filter fun b => S.pageOf b = i).length := by
    rw [length_slots, ← List.countP_eq_length_filter, ← hcount, freeIn]
  have := (h.free_subperm.perm_of_length_le hlen).mem_iff.mpr hb
  exact (List.mem_filter.mp this).1

/-- A page that does not have all its blocks in the free list has one that is out. -/
theorem exists_out (h : Tiled S cls free out) (hi : cls i = some c) (hcount : S.freeIn free c i ≠ S.perPage c) :
    ∃ b ∈ out, b ∈ S.slots c i := by
  by_contra hnone
  have hall : S.slots c i ⊆ (free c).filter fun b => S.pageOf b = i := by
    intro b hb
    have hfree : b ∈ free c := (h.cover i c b hi hb).resolve_right fun hout => hnone ⟨b, hout, hb⟩
    exact List.mem_filter.mpr ⟨hfree, by simpa using pageOf_slot hb⟩
  have hlen := (nodup_slots.subperm hall).length_le
  rw [length_slots, ← List.countP_eq_length_filter] at hlen
  exact hcount (Nat.le_antisymm h.freeIn_le hlen)

variable [DecidableEq κ]

/-- A block leaves its free list and is handed out. -/
theorem take (h : Tiled S cls free out) (hb : b ∈ free c) :
    Tiled S cls (Function.update free c ((free c).erase b)) (b :: out) := by
  have hmem : ∀ d x, x ∈ Function.update free c ((free c).erase b) d → x ∈ free d := by
    intro d x hx
    by_cases hd : d = c
    · subst hd
      rw [Function.update_self] at hx
      exact List.mem_of_mem_erase hx
    · rwa [Function.update_of_ne hd] at hx
  refine ⟨fun d x hx => h.listed d x (hmem d x hx), fun x hx => ?_, fun i d x hi hx => ?_, fun d x hx => ?_, ?_, ?_⟩
  · rcases List.mem_cons.mp hx with rfl | hx
    · obtain ⟨i, hi, hslot⟩ := h.listed c x hb
      exact ⟨i, c, hi, hslot⟩
    · exact h.handed x hx
  · rcases h.cover i d x hi hx with hfree | hout
    · by_cases hxb : x = b
      · exact .inr (by simp [hxb])
      · refine .inl ?_
        by_cases hd : d = c
        · subst hd
          rw [Function.update_self]
          exact (List.mem_erase_of_ne hxb).mpr hfree
        · rwa [Function.update_of_ne hd]
    · exact .inr (List.mem_cons_of_mem _ hout)
  · rw [List.mem_cons, not_or]
    refine ⟨?_, h.apart d x (hmem d x hx)⟩
    rintro rfl
    have hdc : d = c := by
      have hx' := (h.cls_of_listed (hmem d x hx)).1
      rw [(h.cls_of_listed hb).1] at hx'
      exact (Option.some.inj hx').symm
    subst hdc
    rw [Function.update_self] at hx
    exact (h.free_nodup d).not_mem_erase hx
  · intro d
    by_cases hd : d = c
    · subst hd
      rw [Function.update_self]
      exact (h.free_nodup d).erase b
    · rw [Function.update_of_ne hd]
      exact h.free_nodup d
  · exact List.nodup_cons.mpr ⟨h.apart c b hb, h.out_nodup⟩

/-- A block that was out goes back to the free list of its class. -/
theorem give (h : Tiled S cls free out) (hb : b ∈ out) (hc : cls (S.pageOf b) = some c) :
    Tiled S cls (Function.update free c (b :: free c)) (out.erase b) := by
  have hslot : b ∈ S.slots c (S.pageOf b) := by
    obtain ⟨d, hd, hslot⟩ := h.cls_of_handed hb
    rw [hd] at hc
    exact Option.some.inj hc ▸ hslot
  have hmem : ∀ d x, x ∈ Function.update free c (b :: free c) d → (x = b ∧ d = c) ∨ x ∈ free d := by
    intro d x hx
    by_cases hd : d = c
    · subst hd
      rw [Function.update_self] at hx
      exact (List.mem_cons.mp hx).imp_left (⟨·, rfl⟩)
    · rw [Function.update_of_ne hd] at hx
      exact .inr hx
  refine ⟨fun d x hx => ?_, fun x hx => h.handed x (List.mem_of_mem_erase hx), fun i d x hi hx => ?_, fun d x hx => ?_,
    ?_, h.out_nodup.erase b⟩
  · rcases hmem d x hx with ⟨rfl, rfl⟩ | hx
    · exact ⟨_, hc, hslot⟩
    · exact h.listed d x hx
  · by_cases hxb : x = b
    · subst hxb
      have hdc : d = c := by
        rw [← pageOf_slot hx, hc] at hi
        exact (Option.some.inj hi).symm
      subst hdc
      exact .inl (by simp)
    · rcases h.cover i d x hi hx with hfree | hout
      · refine .inl ?_
        by_cases hd : d = c
        · subst hd
          simp [hfree]
        · rwa [Function.update_of_ne hd]
      · exact .inr ((List.mem_erase_of_ne hxb).mpr hout)
  · rcases hmem d x hx with ⟨rfl, rfl⟩ | hx
    · exact h.out_nodup.not_mem_erase
    · exact fun hx' => h.apart d x hx (List.mem_of_mem_erase hx')
  · intro d
    by_cases hd : d = c
    · subst hd
      rw [Function.update_self]
      exact List.nodup_cons.mpr ⟨fun hf => h.apart d b hf hb, h.free_nodup d⟩
    · rw [Function.update_of_ne hd]
      exact h.free_nodup d

/-- A page that is not in use is cut into blocks of class `c`, all free. -/
theorem opened (h : Tiled S cls free out) (hi : cls i = none) :
    Tiled S (Function.update cls i (some c)) (Function.update free c (free c ++ S.slots c i)) out := by
  have hmem : ∀ d x, x ∈ Function.update free c (free c ++ S.slots c i) d →
      x ∈ free d ∨ (d = c ∧ x ∈ S.slots c i) := by
    intro d x hx
    by_cases hd : d = c
    · subst hd
      rw [Function.update_self] at hx
      exact (List.mem_append.mp hx).imp_right (⟨rfl, ·⟩)
    · rw [Function.update_of_ne hd] at hx
      exact .inl hx
  have hne : ∀ {j d}, cls j = some d → j ≠ i := by
    rintro j d hj rfl
    rw [hi] at hj
    cases hj
  have hnot : ∀ d x, x ∈ free d → x ∉ S.slots c i := fun d x hx hslot => by
    have := (h.cls_of_listed hx).1
    rw [pageOf_slot hslot] at this
    exact hne this rfl
  refine ⟨fun d x hx => ?_, fun x hx => ?_, fun j d x hj hx => ?_, fun d x hx => ?_, fun d => ?_, h.out_nodup⟩
  · rcases hmem d x hx with hx | ⟨rfl, hx⟩
    · obtain ⟨j, hj, hslot⟩ := h.listed d x hx
      exact ⟨j, by rw [Function.update_of_ne (hne hj), hj], hslot⟩
    · exact ⟨i, by rw [Function.update_self], hx⟩
  · obtain ⟨j, d, hj, hslot⟩ := h.handed x hx
    exact ⟨j, d, by rw [Function.update_of_ne (hne hj), hj], hslot⟩
  · by_cases hji : j = i
    · subst hji
      rw [Function.update_self, Option.some.injEq] at hj
      subst hj
      exact .inl (by simp [hx])
    · rw [Function.update_of_ne hji] at hj
      rcases h.cover j d x hj hx with hfree | hout
      · refine .inl ?_
        by_cases hd : d = c
        · subst hd
          simp [hfree]
        · rwa [Function.update_of_ne hd]
      · exact .inr hout
  · rcases hmem d x hx with hx | ⟨rfl, hx⟩
    · exact h.apart d x hx
    · intro hout
      obtain ⟨c', hc', -⟩ := h.cls_of_handed hout
      rw [pageOf_slot hx] at hc'
      exact hne hc' rfl
  · by_cases hd : d = c
    · subst hd
      rw [Function.update_self]
      exact List.nodup_append.mpr ⟨h.free_nodup d, nodup_slots, fun x hx y hy hxy => hnot d x hx (hxy ▸ hy)⟩
    · rw [Function.update_of_ne hd]
      exact h.free_nodup d

/-- A page whose blocks are all free leaves its class. -/
theorem closed (h : Tiled S cls free out) (hi : cls i = some c) (hall : ∀ b ∈ S.slots c i, b ∈ free c) :
    Tiled S (Function.update cls i none) (Function.update free c ((free c).diff (S.slots c i))) out := by
  have hmem : ∀ d x, x ∈ Function.update free c ((free c).diff (S.slots c i)) d → x ∈ free d ∧ S.pageOf x ≠ i := by
    intro d x hx
    by_cases hd : d = c
    · subst hd
      rw [Function.update_self, (h.free_nodup d).mem_sdiff_iff] at hx
      refine ⟨hx.1, ?_⟩
      rintro rfl
      exact hx.2 (h.cls_of_listed hx.1).2
    · rw [Function.update_of_ne hd] at hx
      refine ⟨hx, ?_⟩
      rintro rfl
      have := (h.cls_of_listed hx).1
      rw [hi] at this
      exact hd (Option.some.inj this).symm
  refine ⟨fun d x hx => ?_, fun x hx => ?_, fun j d x hj hx => ?_, fun d x hx => h.apart d x (hmem d x hx).1,
    fun d => ?_, h.out_nodup⟩
  · obtain ⟨hx, hpage⟩ := hmem d x hx
    obtain ⟨hcls, hslot⟩ := h.cls_of_listed hx
    exact ⟨_, by rw [Function.update_of_ne hpage, hcls], hslot⟩
  · obtain ⟨d, hd, hslot⟩ := h.cls_of_handed hx
    refine ⟨_, d, ?_, hslot⟩
    rw [Function.update_of_ne, hd]
    rintro rfl
    obtain rfl : d = c := Option.some.inj (hd.symm.trans hi)
    exact h.apart d x (hall x hslot) hx
  · have hji : j ≠ i := by
      rintro rfl
      rw [Function.update_self] at hj
      cases hj
    rw [Function.update_of_ne hji] at hj
    rcases h.cover j d x hj hx with hfree | hout
    · refine .inl ?_
      by_cases hd : d = c
      · subst hd
        rw [Function.update_self, (h.free_nodup d).mem_sdiff_iff]
        refine ⟨hfree, fun hslot => hji ?_⟩
        rw [← pageOf_slot hx, pageOf_slot hslot]
      · rwa [Function.update_of_ne hd]
    · exact .inr hout
  · by_cases hd : d = c
    · subst hd
      rw [Function.update_self]
      exact (h.free_nodup d).diff
    · rw [Function.update_of_ne hd]
      exact h.free_nodup d

end Tiled

end Fos.Lib
