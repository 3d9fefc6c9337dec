import Fos.Lib.Spelled
import Fos.Lib.Region
import Fos.Types
import Mathlib.Data.List.Nodup
import Mathlib.Data.List.Range

/-! The lists of `struct Bulk` that the page allocators of the kernel (`kern/mem/kheap.c`) and of the user library
    (`lib/uheap.c`) keep: `bulks`, the free regions by descending size, and `bulks_allocated`. Both have the same
    `insert_bulk_desc`, `remove_bulk` and search for the neighbours of a region. -/

namespace Fos.Heap
open Lib

inductive BulkList where
  /-- `bulks` -/
  | free
  /-- `bulks_allocated` -/
  | allocated
  deriving DecidableEq, Repr

/-- The two list pointers and the memory of the nodes. -/
structure Bulks where
  first : BulkList → Option Nat := fun _ => none
  start : Nat → Nat := fun _ => 0
  size : Nat → Nat := fun _ => 0
  link : Nat → Link Nat := fun _ => {}

namespace Bulks

def setNext (s : Bulks) (b : Nat) (p : Option Nat) : Bulks :=
  { s with link := Function.update s.link b { s.link b with next := p } }

def setPrev (s : Bulks) (b : Nat) (p : Option Nat) : Bulks :=
  { s with link := Function.update s.link b { s.link b with prev := p } }

def setFirst (s : Bulks) (i : BulkList) (p : Option Nat) : Bulks := { s with first := Function.update s.first i p }

def setStart (s : Bulks) (b n : Nat) : Bulks := { s with start := Function.update s.start b n }

def setSize (s : Bulks) (b n : Nat) : Bulks := { s with size := Function.update s.size b n }

def next (s : Bulks) (b : Nat) : Option Nat := (s.link b).next

/-- The assignments of `insert_bulk_desc` after its loop. -/
def linkBetween (s : Bulks) (b : Nat) (prev cur : Option Nat) : Bulks :=
  let s := s.setPrev b prev
  let s := s.setNext b cur
  let s := match prev with
    | some p => s.setNext p (some b)
    | none => s.setFirst .free (some b)
  match cur with
  | some c => s.setPrev c (some b)
  | none => s

/-- `insert_bulk_desc(b)` -/
def insertBulkDesc (s : Bulks) (b : Nat) : Option Bulks :=
  (walk s.next (fun cur => s.size cur ≤ s.size b) walkFuel none (s.first .free)).map fun (prev, cur) =>
    s.linkBetween b prev cur

/-- `remove_bulk(b)` -/
def removeBulk (s : Bulks) (b : Nat) : Bulks :=
  let s := match (s.link b).prev with
    | some p => s.setNext p (s.link b).next
    | none => s.setFirst .free (s.link b).next
  let s := match (s.link b).next with
    | some n => s.setPrev n (s.link b).prev
    | none => s
  { s with link := Function.update s.link b {} }

/-- The loop of `merge_bulks`: the free regions that end at `start` and that start at `start + size`. -/
def findNeighbours (s : Bulks) (start size : Nat) : Option (Option Nat × Option Nat) :=
  walkFold s.next (fun (before, after) x =>
    (if u32 (s.start x + s.size x) = start then some x else before,
      if s.start x = u32 (start + size) then some x else after)) walkFuel (none, none) (s.first .free)

/-- `merge_bulks` between two free regions: `before` takes the region of `size` bytes and `after`. -/
def mergeBoth (s : Bulks) (before after size : Nat) : Option Bulks :=
  let s := (s.removeBulk before).removeBulk after
  let s := s.setSize before (u32 (s.size before + (size + s.size after)))
  s.insertBulkDesc before

/-- `merge_bulks` behind a free region. -/
def mergeBefore (s : Bulks) (before size : Nat) : Option Bulks :=
  let s := s.removeBulk before
  let s := s.setSize before (u32 (s.size before + size))
  s.insertBulkDesc before

/-- `merge_bulks` in front of a free region. -/
def mergeAfter (s : Bulks) (after start size : Nat) : Option Bulks :=
  let s := s.removeBulk after
  let s := s.setStart after start
  let s := s.setSize after (u32 (s.size after + size))
  s.insertBulkDesc after

/-- `merge_bulks` away from other free regions: `node` becomes a free region. -/
def addBulk (s : Bulks) (node start size : Nat) : Option Bulks :=
  let s := (s.setStart node start).setSize node size
  let s := (s.setNext node none).setPrev node none
  s.insertBulkDesc node

/-- The worst fit: `bb` gives up its first `neededBytes` bytes. -/
def takeFront (s : Bulks) (bb neededBytes : Nat) : Option Bulks :=
  let s := s.removeBulk bb
  let s := s.setStart bb (u32 (s.start bb + neededBytes))
  let s := s.setSize bb (sub32 (s.size bb) neededBytes)
  s.insertBulkDesc bb

/-- The region of a node. -/
def region (s : Bulks) (b : Nat) : Region := ⟨s.start b, s.size b⟩

/-- The list pointers and the links spell the lists `L` of nodes. -/
abbrev Spells (s : Bulks) (L : BulkList → List Nat) : Prop := Threads s.first s.link L

section Setters
variable (s : Bulks) (b x n : Nat) (i j : BulkList) (p : Option Nat)

@[simp] theorem link_setNext : (s.setNext b p).link x = if x = b then ⟨p, (s.link b).prev⟩ else s.link x := by
  simp [setNext, Function.update_apply]

@[simp] theorem link_setPrev : (s.setPrev b p).link x = if x = b then ⟨(s.link b).next, p⟩ else s.link x := by
  simp [setPrev, Function.update_apply]

@[simp] theorem first_setFirst : (s.setFirst i p).first j = if j = i then p else s.first j := by
  simp [setFirst, Function.update_apply]

@[simp] theorem first_setNext : (s.setNext b p).first = s.first := rfl

@[simp] theorem first_setPrev : (s.setPrev b p).first = s.first := rfl

@[simp] theorem link_setFirst : (s.setFirst i p).link = s.link := rfl

@[simp] theorem region_setNext : (s.setNext b p).region = s.region := rfl

@[simp] theorem region_setPrev : (s.setPrev b p).region = s.region := rfl

@[simp] theorem region_setFirst : (s.setFirst i p).region = s.region := rfl

@[simp] theorem spells_setStart {L : BulkList → List Nat} : (s.setStart b n).Spells L ↔ s.Spells L := Iff.rfl

@[simp] theorem spells_setSize {L : BulkList → List Nat} : (s.setSize b n).Spells L ↔ s.Spells L := Iff.rfl

end Setters

variable {s t : Bulks} {L : BulkList → List Nat} {b : Nat}

theorem linkBetween_spells {m r : List Nat} (h : s.Spells L) (hb : ∀ j, b ∉ L j) (hL : L .free = m ++ r) :
    (s.linkBetween b m.getLast? r.head?).Spells (Function.update L .free (m ++ b :: r)) := by
  have hmb : ∀ p ∈ m, p ≠ b := fun p hp hpb => hb .free (by simp [hL, ← hpb, hp])
  have hrb : ∀ p ∈ r, p ≠ b := fun p hp hpb => hb .free (by simp [hL, ← hpb, hp])
  have hmr : ∀ p ∈ m, p ∉ r := fun p hp hp' => ne_of_nodup_append (hL ▸ h.nodup .free) hp hp'
  rcases List.eq_nil_or_concat m with rfl | ⟨m', p, rfl⟩
  · cases r with
    | nil => refine h.insert hL hb ?_ (fun j hj => ?_) ?_ fun x hx => ?_ <;> simp [linkBetween, *]
    | cons c r =>
      have hcb := hrb c (by simp)
      refine h.insert hL hb ?_ (fun j hj => ?_) ?_ fun x hx => ?_
      · simp [linkBetween]
      · simp [linkBetween, hj]
      · simp [linkBetween, hcb.symm]
      · by_cases hxc : x = c
        · simp [linkBetween, hxc, hcb]
        · simp [linkBetween, hx, hxc, Ne.symm hxc]
  · rw [List.concat_eq_append] at *
    have hpb := hmb p (by simp)
    rw [List.getLast?_concat]
    cases r with
    | nil =>
      refine h.insert hL hb ?_ (fun j hj => ?_) ?_ fun x hx => ?_
      · simp [linkBetween, h.first .free, hL]
      · simp [linkBetween]
      · simp [linkBetween, hpb.symm]
      · by_cases hxp : x = p
        · simp [linkBetween, hxp, hpb]
        · simp [linkBetween, hx, hxp, Ne.symm hxp]
    | cons c r =>
      have hcb := hrb c (by simp)
      have hpc : p ≠ c := fun hpc => hmr p (by simp) (by simp [hpc])
      refine h.insert hL hb ?_ (fun j hj => ?_) ?_ fun x hx => ?_
      · simp [linkBetween, h.first .free, hL]
      · simp [linkBetween]
      · simp [linkBetween, hpb.symm, hcb.symm]
      · by_cases hxp : x = p
        · simp [linkBetween, hxp, hpb, hpc, hpc.symm]
        · by_cases hxc : x = c
          · simp [linkBetween, hxc, hcb, hpc, hpc.symm]
          · simp [linkBetween, hx, hxp, hxc, Ne.symm hxp, Ne.symm hxc]

theorem linkBetween_fields (s : Bulks) (b : Nat) (prev cur : Option Nat) :
    (s.linkBetween b prev cur).start = s.start ∧ (s.linkBetween b prev cur).size = s.size := by
  cases prev <;> cases cur <;> exact ⟨rfl, rfl⟩

/-- A node is linked in front of the first free region that is not larger. -/
theorem insertBulkDesc_spec (h : s.Spells L) (hb : ∀ j, b ∉ L j) (hlen : (L .free).length < walkFuel) :
    ∃ t m r, s.insertBulkDesc b = some t ∧ L .free = m ++ r ∧ (∀ x ∈ m, s.size b < s.size x) ∧
      (∀ x, r.head? = some x → s.size x ≤ s.size b) ∧ t.Spells (Function.update L .free (m ++ b :: r)) ∧
      t.start = s.start ∧ t.size = s.size := by
  obtain ⟨m, r, hL, hm, hr, hwalk⟩ := walk_spelled (a := []) (fun cur => s.size cur ≤ s.size b) (h.spelled .free) hlen
  rw [← h.first .free] at hwalk
  refine ⟨s.linkBetween b m.getLast? r.head?, m, r, ?_, hL, fun x hx => by simpa using hm x hx,
    fun x hx => by simpa using hr x hx, linkBetween_spells h hb hL, (linkBetween_fields ..).1, (linkBetween_fields ..).2⟩
  exact congrArg (Option.map _) hwalk

theorem removeBulk_spells (h : s.Spells L) (hb : b ∈ L .free) :
    (s.removeBulk b).Spells (Function.update L .free ((L .free).erase b)) := by
  obtain ⟨m, r, -, hL, herase⟩ := List.exists_erase_eq hb
  rw [herase]
  have hnext := (hL ▸ h.spelled .free).next_of_split
  have hprev := (hL ▸ h.spelled .free).prev_of_split
  have hnodup : (m ++ b :: r).Nodup := hL ▸ h.nodup .free
  have hmb : ∀ p ∈ m, p ≠ b := fun p hp hpb => ne_of_nodup_append (b := b :: r) hnodup hp (by simp [hpb])
  have hrb : ∀ p ∈ r, p ≠ b := by
    rintro p hp rfl
    exact (List.nodup_cons.mp (List.nodup_append.mp hnodup).2.1).1 hp
  have hmr : ∀ p ∈ m, p ∉ r := fun p hp hp' => ne_of_nodup_append (b := b :: r) hnodup hp (by simp [hp'])
  have hfirst := h.first .free
  rw [hL] at hfirst
  rcases List.eq_nil_or_concat m with rfl | ⟨m', p, rfl⟩
  · cases r with
    | nil => refine h.unlink hL ?_ (fun j hj => ?_) fun x hx => ?_ <;> simp [removeBulk, *]
    | cons c r =>
      have hcb := hrb c (by simp)
      refine h.unlink hL ?_ (fun j hj => ?_) fun x hx => ?_
      · simp [removeBulk, hnext, hprev]
      · simp [removeBulk, hnext, hprev, hj]
      · by_cases hxc : x = c
        · simp [removeBulk, hnext, hprev, hxc, hcb]
        · simp [removeBulk, hnext, hprev, hx, hxc, Ne.symm hxc]
  · rw [List.concat_eq_append] at *
    have hpb := hmb p (by simp)
    rw [List.getLast?_concat] at hprev
    cases r with
    | nil =>
      refine h.unlink hL ?_ (fun j hj => ?_) fun x hx => ?_
      · cases m' <;> simp [removeBulk, hnext, hprev, hpb.symm, hfirst]
      · simp [removeBulk, hnext, hprev, hpb.symm]
      · by_cases hxp : x = p
        · simp [removeBulk, hnext, hprev, hxp, hpb, hpb.symm]
        · simp [removeBulk, hnext, hprev, hx, hxp, hpb.symm, Ne.symm hxp]
    | cons c r =>
      have hcb := hrb c (by simp)
      have hpc : p ≠ c := fun hpc => hmr p (by simp) (by simp [hpc])
      refine h.unlink hL ?_ (fun j hj => ?_) fun x hx => ?_
      · cases m' <;> simp [removeBulk, hnext, hprev, hpb.symm, hfirst]
      · simp [removeBulk, hnext, hprev, hpb.symm]
      · by_cases hxp : x = p
        · simp [removeBulk, hnext, hprev, hxp, hpb, hpb.symm, hpc, hpc.symm]
        · by_cases hxc : x = c
          · simp [removeBulk, hnext, hprev, hxc, hcb, hpb.symm, hpc, hpc.symm]
          · simp [removeBulk, hnext, hprev, hx, hxp, hxc, hpb.symm, Ne.symm hxp, Ne.symm hxc]

theorem removeBulk_fields (s : Bulks) (b : Nat) :
    (s.removeBulk b).start = s.start ∧ (s.removeBulk b).size = s.size := by
  unfold removeBulk
  cases (s.link b).prev <;> simp only <;> split <;> exact ⟨rfl, rfl⟩

/-- What the loop of `merge_bulks` finds. -/
theorem findNeighbours_spec (h : s.Spells L) (hlen : (L .free).length < walkFuel) (start size : Nat) :
    ∃ before after, s.findNeighbours start size = some (before, after) ∧
      (∀ x, before = some x → x ∈ L .free ∧ u32 (s.start x + s.size x) = start) ∧
      (before = none → ∀ x ∈ L .free, u32 (s.start x + s.size x) ≠ start) ∧
      (∀ x, after = some x → x ∈ L .free ∧ s.start x = u32 (start + size)) ∧
      (after = none → ∀ x ∈ L .free, s.start x ≠ u32 (start + size)) := by
  have hfold : ∀ (l : List Nat) (o o' : Option Nat), l.foldl (fun (p : Option Nat × Option Nat) x =>
      (if u32 (s.start x + s.size x) = start then some x else p.1,
        if s.start x = u32 (start + size) then some x else p.2)) (o, o') =
      (l.foldl (fun o x => if u32 (s.start x + s.size x) = start then some x else o) o,
        l.foldl (fun o x => if s.start x = u32 (start + size) then some x else o) o') := by
    intro l
    induction l with
    | nil => exact fun _ _ => rfl
    | cons x l ih => exact fun o o' => ih _ _
  have hwalk := walkFold_spelled (a := []) (fun (p : Option Nat × Option Nat) x =>
    (if u32 (s.start x + s.size x) = start then some x else p.1,
      if s.start x = u32 (start + size) then some x else p.2)) (none, none) (h.spelled .free) hlen
  rw [← h.first .free, hfold] at hwalk
  obtain ⟨hb, hb'⟩ := foldl_last (fun x => u32 (s.start x + s.size x) = start) (L .free) none
  obtain ⟨ha, ha'⟩ := foldl_last (fun x => s.start x = u32 (start + size)) (L .free) none
  refine ⟨_, _, hwalk, fun x hx => ?_, hb', fun x hx => ?_, ha'⟩
  · exact (hb x hx).resolve_right (by simp)
  · exact (ha x hx).resolve_right (by simp)

/-! ### What the edits do to the free regions -/

/-- The regions of the nodes `l`. -/
def regions (s : Bulks) (l : List Nat) : List Region := l.map s.region

/-- The free regions by descending size. -/
def Sorted (s : Bulks) (l : List Nat) : Prop := l.Pairwise fun x y => s.size y ≤ s.size x

theorem regions_congr {l : List Nat} (h : ∀ x ∈ l, t.start x = s.start x ∧ t.size x = s.size x) :
    t.regions l = s.regions l :=
  List.map_congr_left fun x hx => by rw [region, region, (h x hx).1, (h x hx).2]

/-- A node that is in no list becomes a free region, in its place by size. -/
theorem insertBulkDesc_perm (h : s.Spells L) (hb : ∀ j, b ∉ L j) (hlen : (L .free).length < walkFuel) :
    ∃ t l, s.insertBulkDesc b = some t ∧ l.Perm (b :: L .free) ∧ t.Spells (Function.update L .free l) ∧
      t.start = s.start ∧ t.size = s.size ∧ (s.Sorted (L .free) → s.Sorted l) := by
  obtain ⟨t, m, r, hins, hL, hm, hr, hspells, hstart, hsize⟩ := insertBulkDesc_spec h hb hlen
  refine ⟨t, m ++ b :: r, hins, ?_, hspells, hstart, hsize, fun hsorted => ?_⟩
  · rw [hL]
    exact List.perm_middle
  · rw [hL] at hsorted
    obtain ⟨hsm, hsr, hmr⟩ := List.pairwise_append.mp hsorted
    -- The first node behind `b` is not larger than `b`, and the list behind it descends.
    have hbr : ∀ x ∈ r, s.size x ≤ s.size b := by
      cases r with
      | nil => nofun
      | cons c r =>
        have hc := hr c rfl
        intro x hx
        rcases List.mem_cons.mp hx with rfl | hx
        · exact hc
        · exact ((List.pairwise_cons.mp hsr).1 x hx).trans hc
    refine List.pairwise_append.mpr ⟨hsm, List.pairwise_cons.mpr ⟨hbr, hsr⟩, fun x hx y hy => ?_⟩
    rcases List.mem_cons.mp hy with rfl | hy
    · exact (hm x hx).le
    · exact hmr x hx y hy

/-- A node that is in no list gets a start and a size and becomes a free region. -/
theorem place_spec (h : s.Spells L) (hb : ∀ j, b ∉ L j) (hlen : (L .free).length < walkFuel) (st sz : Nat) :
    ∃ t l, ((s.setStart b st).setSize b sz).insertBulkDesc b = some t ∧ l.Perm (b :: L .free) ∧
      t.Spells (Function.update L .free l) ∧ (s.Sorted (L .free) → t.Sorted l) ∧
      (t.regions l).Perm (⟨st, sz⟩ :: s.regions (L .free)) ∧
      ∀ x, x ≠ b → t.start x = s.start x ∧ t.size x = s.size x := by
  have hset : ((s.setStart b st).setSize b sz).Spells L := h
  obtain ⟨t, l, hins, hperm, hspells, hstart, hsize, hsorted⟩ := insertBulkDesc_perm hset hb hlen
  have hsame : ∀ x, x ≠ b → t.start x = s.start x ∧ t.size x = s.size x := by
    intro x hxb
    simp [hstart, hsize, setStart, setSize, hxb]
  have hne : ∀ x ∈ L .free, x ≠ b := fun x hx hxb => hb .free (hxb ▸ hx)
  refine ⟨t, l, hins, hperm, hspells, fun hs => ?_, ?_, hsame⟩
  · have hs' : ((s.setStart b st).setSize b sz).Sorted (L .free) := by
      refine hs.imp_of_mem fun {x y} hx hy hxy => ?_
      rw [← hsize, (hsame x (hne x hx)).2, (hsame y (hne y hy)).2]
      exact hxy
    exact (hsorted hs').imp fun {x y} hxy => by rw [hsize]; exact hxy
  · refine (hperm.map _).trans ?_
    rw [List.map_cons]
    have hregion : t.region b = ⟨st, sz⟩ := by simp [region, hstart, hsize, setStart, setSize]
    rw [hregion]
    exact (List.Perm.of_eq (regions_congr fun x hx => hsame x (hne x hx))).cons _

theorem not_mem_erase_update (h : s.Spells L) (hb : b ∈ L .free) (j : BulkList) :
    b ∉ Function.update L .free ((L .free).erase b) j := by
  intro hj
  by_cases hjf : j = .free
  · subst hjf
    rw [Function.update_self] at hj
    exact (h.nodup .free).not_mem_erase hj
  · rw [Function.update_of_ne hjf] at hj
    exact hjf (h.disjoint j .free b hj hb)

/-- A free region that leaves the list, gets another start and size, and is put back. -/
theorem reinsert_spec (h : s.Spells L) (hb : b ∈ L .free) (hlen : (L .free).length < walkFuel) (st sz : Nat) :
    ∃ t l, (((s.removeBulk b).setStart b st).setSize b sz).insertBulkDesc b = some t ∧ l.Perm (L .free) ∧
      t.Spells (Function.update L .free l) ∧ (s.Sorted (L .free) → t.Sorted l) ∧
      (t.regions l).Perm (⟨st, sz⟩ :: s.regions ((L .free).erase b)) ∧
      ∀ x, x ≠ b → t.start x = s.start x ∧ t.size x = s.size x := by
  obtain ⟨hst, hsz⟩ := removeBulk_fields s b
  have hlen' : (Function.update L .free ((L .free).erase b) .free).length < walkFuel := by
    rw [Function.update_self]
    exact (List.length_erase_le ..).trans_lt hlen
  obtain ⟨t, l, hins, hperm, hspells, hsorted, hregions, hsame⟩ :=
    place_spec (removeBulk_spells h hb) (not_mem_erase_update h hb) hlen' st sz
  rw [Function.update_self] at hperm hsorted hregions
  rw [Function.update_idem] at hspells
  rw [hst, hsz] at hsame
  refine ⟨t, l, hins, hperm.trans (List.perm_cons_erase hb).symm, hspells, fun hs => hsorted ?_, ?_, hsame⟩
  · refine (hs.sublist List.erase_sublist).imp fun {x y} hxy => ?_
    rwa [hsz]
  · rwa [regions_congr (t := s.removeBulk b) (s := s) fun x _ => by rw [hst, hsz]; exact ⟨rfl, rfl⟩] at hregions

theorem regions_erase_perm {l : List Nat} (hb : b ∈ l) : (s.regions l).Perm (s.region b :: s.regions (l.erase b)) :=
  (List.perm_cons_erase hb).map _

/-- `size` bytes from the start of a free region that is larger are taken. -/
theorem takeFront_spec {n : Nat} (h : s.Spells L) (hb : b ∈ L .free) (hlen : (L .free).length < walkFuel)
    (hn : n ≤ s.size b) (hwrap : s.start b + s.size b < 4294967296) :
    ∃ t l, s.takeFront b n = some t ∧ l.Perm (L .free) ∧ t.Spells (Function.update L .free l) ∧
      (s.Sorted (L .free) → t.Sorted l) ∧
      (t.regions l).Perm (⟨s.start b + n, s.size b - n⟩ :: s.regions ((L .free).erase b)) ∧
      ∀ x, x ≠ b → t.start x = s.start x ∧ t.size x = s.size x := by
  have htake : s.takeFront b n =
      (((s.removeBulk b).setStart b (s.start b + n)).setSize b (s.size b - n)).insertBulkDesc b := by
    show (((s.removeBulk b).setStart b (u32 ((s.removeBulk b).start b + n))).setSize b
      (sub32 ((s.removeBulk b).size b) n)).insertBulkDesc b = _
    rw [(removeBulk_fields s b).1, (removeBulk_fields s b).2, u32_of_lt (by omega), sub32_of_le hn (by omega)]
  rw [htake]
  exact reinsert_spec h hb hlen (s.start b + n) (s.size b - n)

/-- The region `r` is given back behind the free region `b`. -/
theorem mergeBefore_spec {r : Region} (h : s.Spells L) (hb : b ∈ L .free) (hlen : (L .free).length < walkFuel)
    (hstop : s.start b + s.size b = r.start) (hwrap : r.stop < 4294967296)
    (hnone : ∀ x ∈ L .free, s.start x ≠ r.stop) :
    ∃ t l, s.mergeBefore b r.size = some t ∧ l.Perm (L .free) ∧ t.Spells (Function.update L .free l) ∧
      (s.Sorted (L .free) → t.Sorted l) ∧ Merge r (s.regions (L .free)) (t.regions l) ∧
      ∀ x, x ≠ b → t.start x = s.start x ∧ t.size x = s.size x := by
  obtain ⟨t, l, hins, hperm, hspells, hsorted, hregions, hsame⟩ :=
    reinsert_spec h hb hlen (s.start b) (s.size b + r.size)
  refine ⟨t, l, ?_, hperm, hspells, hsorted, ?_, hsame⟩
  · have hst : (s.removeBulk b).setStart b (s.start b) = s.removeBulk b := by
      rw [setStart, ← (removeBulk_fields s b).1, Function.update_eq_self]
    rw [hst] at hins
    unfold mergeBefore
    simp only [(removeBulk_fields s b).2]
    rwa [u32_of_lt]
    simp only [Region.stop] at hwrap
    omega
  · refine .before _ _ (regions_erase_perm hb) hstop (fun x hx => ?_) hregions
    obtain ⟨y, hy, rfl⟩ := List.mem_map.mp hx
    exact (hnone y hy).symm

/-- The region `r` is given back in front of the free region `b`. -/
theorem mergeAfter_spec {r : Region} (h : s.Spells L) (hb : b ∈ L .free) (hlen : (L .free).length < walkFuel)
    (hstart : s.start b = r.stop) (hwrap : s.start b + s.size b < 4294967296)
    (hnone : ∀ x ∈ L .free, s.start x + s.size x ≠ r.start) :
    ∃ t l, s.mergeAfter b r.start r.size = some t ∧ l.Perm (L .free) ∧ t.Spells (Function.update L .free l) ∧
      (s.Sorted (L .free) → t.Sorted l) ∧ Merge r (s.regions (L .free)) (t.regions l) ∧
      ∀ x, x ≠ b → t.start x = s.start x ∧ t.size x = s.size x := by
  obtain ⟨t, l, hins, hperm, hspells, hsorted, hregions, hsame⟩ :=
    reinsert_spec h hb hlen r.start (s.size b + r.size)
  refine ⟨t, l, ?_, hperm, hspells, hsorted, ?_, hsame⟩
  · simp only [Region.stop] at hstart
    show (((s.removeBulk b).setStart b r.start).setSize b (u32 ((s.removeBulk b).size b + r.size))).insertBulkDesc b = _
    rw [(removeBulk_fields s b).2, u32_of_lt (by omega)]
    exact hins
  · refine .after _ _ (regions_erase_perm hb) hstart.symm (fun x hx => ?_) hregions
    obtain ⟨y, hy, rfl⟩ := List.mem_map.mp hx
    exact hnone y hy

/-- The region `r` is given back between the free regions `b` and `a`. -/
theorem mergeBoth_spec {r : Region} {a : Nat} (h : s.Spells L) (hb : b ∈ L .free) (ha : a ∈ L .free) (hab : a ≠ b)
    (hlen : (L .free).length < walkFuel) (hstop : s.start b + s.size b = r.start) (hstart : s.start a = r.stop)
    (hwrap : s.start a + s.size a < 4294967296) :
    ∃ t l, s.mergeBoth b a r.size = some t ∧ l.Perm ((L .free).erase a) ∧ t.Spells (Function.update L .free l) ∧
      (s.Sorted (L .free) → t.Sorted l) ∧ Merge r (s.regions (L .free)) (t.regions l) ∧
      ∀ x, x ≠ b → t.start x = s.start x ∧ t.size x = s.size x := by
  have hst : ((s.removeBulk b).removeBulk a).start = s.start := by
    rw [(removeBulk_fields _ a).1, (removeBulk_fields s b).1]
  have hsz : ((s.removeBulk b).removeBulk a).size = s.size := by
    rw [(removeBulk_fields _ a).2, (removeBulk_fields s b).2]
  have ha' : a ∈ (L .free).erase b := (List.mem_erase_of_ne hab).mpr ha
  have hrem := removeBulk_spells (b := a) (removeBulk_spells h hb) (by rwa [Function.update_self])
  rw [Function.update_self, Function.update_idem] at hrem
  have hnot : ∀ j, b ∉ Function.update L .free (((L .free).erase b).erase a) j := by
    intro j hj
    refine not_mem_erase_update h hb j ?_
    by_cases hjf : j = .free
    · subst hjf
      rw [Function.update_self] at hj ⊢
      exact List.mem_of_mem_erase hj
    · rwa [Function.update_of_ne hjf] at hj ⊢
  have hlen' : (Function.update L .free (((L .free).erase b).erase a) .free).length < walkFuel := by
    rw [Function.update_self]
    exact (List.length_erase_le ..).trans_lt ((List.length_erase_le ..).trans_lt hlen)
  obtain ⟨t, l, hins, hperm, hspells, hsorted, hregions, hsame⟩ :=
    place_spec hrem hnot hlen' (s.start b) (s.size b + (r.size + s.size a))
  rw [Function.update_self] at hperm hsorted hregions
  rw [Function.update_idem] at hspells
  rw [hst, hsz] at hsame
  rw [regions_congr (t := (s.removeBulk b).removeBulk a) (s := s) fun x _ => by rw [hst, hsz]; exact ⟨rfl, rfl⟩]
    at hregions
  refine ⟨t, l, ?_, hperm.trans ?_, hspells, fun hs => hsorted ?_, ?_, hsame⟩
  · have hset : ((s.removeBulk b).removeBulk a).setStart b (s.start b) = (s.removeBulk b).removeBulk a := by
      rw [setStart, ← hst, Function.update_eq_self]
    rw [hset] at hins
    unfold mergeBoth
    simp only [hsz]
    rwa [u32_of_lt]
    simp only [Region.stop] at hstart
    omega
  · rw [List.erase_comm]
    exact (List.perm_cons_erase ((List.mem_erase_of_ne hab.symm).mpr hb)).symm
  · refine (hs.sublist (List.erase_sublist.trans List.erase_sublist)).imp fun {x y} hxy => ?_
    rwa [hsz]
  · exact .both _ _ _ ((regions_erase_perm hb).trans ((regions_erase_perm ha').cons _)) hstop hstart.symm hregions

/-- The region `r` is given back away from other free regions, in a new node. -/
theorem addBulk_spec {r : Region} (h : s.Spells L) (hb : ∀ j, b ∉ L j) (hlen : (L .free).length < walkFuel)
    (hbefore : ∀ x ∈ L .free, s.start x + s.size x ≠ r.start) (hafter : ∀ x ∈ L .free, s.start x ≠ r.stop) :
    ∃ t l, s.addBulk b r.start r.size = some t ∧ l.Perm (b :: L .free) ∧ t.Spells (Function.update L .free l) ∧
      (s.Sorted (L .free) → t.Sorted l) ∧ Merge r (s.regions (L .free)) (t.regions l) ∧
      ∀ x, x ≠ b → t.start x = s.start x ∧ t.size x = s.size x := by
  have hclear : ((s.setNext b none).setPrev b none).Spells L := by
    refine h.congr_link fun j x hx => ?_
    have hxb : x ≠ b := fun hxb => hb j (hxb ▸ hx)
    simp [hxb]
  obtain ⟨t, l, hins, hperm, hspells, hsorted, hregions, hsame⟩ := place_spec hclear hb hlen r.start r.size
  refine ⟨t, l, hins, hperm, hspells, hsorted, .alone (fun x hx => ?_) (fun x hx => ?_) hregions, hsame⟩
  · obtain ⟨y, hy, rfl⟩ := List.mem_map.mp hx
    exact hbefore y hy
  · obtain ⟨y, hy, rfl⟩ := List.mem_map.mp hx
    exact (hafter y hy).symm

end Bulks

end Fos.Heap
