import Fos.Trap.Optimal

/-! `get_optimal_num_faults` returns the least number of faults. The cells hold the pages of a run of the farthest-use rule on the
    recorded stream. -/

namespace Fos.Trap
open Lib Mem

/-- The pages of a list of distinct pages after one cell was overwritten. -/
theorem toFinset_set {l : List Nat} {i page v : Nat} (hn : l.Nodup) (hv : l[i]? = some v) :
    (l.set i page).toFinset = insert page (l.toFinset.erase v) := by
  obtain ⟨hi, rfl⟩ := List.getElem?_eq_some_iff.mp hv
  have hparts : l = l.take i ++ l[i] :: l.drop (i + 1) := by
    rw [← List.drop_eq_getElem_cons hi, List.take_append_drop]
  have hapart : (l.take i ++ l[i] :: l.drop (i + 1)).Nodup := hparts ▸ hn
  rw [List.nodup_middle, List.nodup_cons, List.mem_append, not_or] at hapart
  obtain ⟨⟨htake, hdrop⟩, -⟩ := hapart
  ext x
  rw [List.set_eq_take_append_cons_drop, if_pos hi]
  simp only [List.mem_toFinset, List.mem_append, List.mem_cons, Finset.mem_insert, Finset.mem_erase]
  constructor
  · rintro (hx | rfl | hx)
    · exact .inr ⟨fun heq => htake (heq ▸ hx), List.mem_of_mem_take hx⟩
    · exact .inl rfl
    · exact .inr ⟨fun heq => hdrop (heq ▸ hx), List.mem_of_mem_drop hx⟩
  · rintro (rfl | ⟨hne, hx⟩)
    · exact .inr (.inl rfl)
    · rw [hparts, List.mem_append, List.mem_cons] at hx
      rcases hx with hx | hx | hx
      · exact .inl hx
      · exact absurd hx hne
      · exact .inr (.inr hx)

namespace OptimalFaults

variable {s t u : OptimalFaults} {refs is : List Nat} {i page va : Nat}

/-- The pages in the cells that are in use. -/
def held (s : OptimalFaults) : List Nat := s.workingSetBeta3ty.take s.currentSize

/-- The cells lie in the block and hold distinct pages. -/
structure Sound (s : OptimalFaults) : Prop where
  size : s.currentSize ≤ s.maxWSSize
  room : s.maxWSSize ≤ s.workingSetBeta3ty.length
  nodup : s.held.Nodup

/-- The arguments are left as they are. -/
structure SameLists (s t : OptimalFaults) : Prop where
  initWorkingSet : t.initWorkingSet = s.initWorkingSet
  maxWSSize : t.maxWSSize = s.maxWSSize
  pageReferences : t.pageReferences = s.pageReferences

theorem SameLists.refl (s : OptimalFaults) : s.SameLists s := ⟨rfl, rfl, rfl⟩

theorem SameLists.trans (h : s.SameLists t) (h' : t.SameLists u) : s.SameLists u :=
  ⟨h'.initWorkingSet.trans h.initWorkingSet, h'.maxWSSize.trans h.maxWSSize, h'.pageReferences.trans h.pageReferences⟩

theorem Sound.inBlock (h : s.Sound) : s.currentSize ≤ s.workingSetBeta3ty.length := h.size.trans h.room

theorem Sound.length_held (h : s.Sound) : s.held.length = s.currentSize := List.length_take_of_le h.inBlock

theorem Sound.card_held (h : s.Sound) : s.held.toFinset.card = s.currentSize := by
  rw [List.toFinset_card_of_nodup h.nodup, h.length_held]

theorem cell_of_lt (hi : i < s.currentSize) : s.cell i = s.held[i]? := (List.getElem?_take_of_lt hi).symm

theorem Sound.cell (h : s.Sound) (hi : i < s.currentSize) : ∃ v ∈ s.held, s.cell i = some v := by
  rw [cell_of_lt hi]
  rw [← h.length_held] at hi
  exact ⟨_, List.getElem_mem hi, List.getElem?_eq_getElem hi⟩

theorem Sound.cells (h : s.Sound) : ∀ i ∈ List.range s.currentSize, ∃ v, s.cell i = some v := by
  intro i hi
  obtain ⟨v, -, hv⟩ := h.cell (List.mem_range.mp hi)
  exact ⟨v, hv⟩

theorem Sound.mem_held (h : s.Sound) : page ∈ s.held ↔ ∃ i ∈ List.range s.currentSize, s.cell i = some page := by
  rw [List.mem_iff_getElem?]
  constructor
  · rintro ⟨i, hi⟩
    have hlt : i < s.currentSize := by
      rw [← h.length_held]
      exact (List.getElem?_eq_some_iff.mp hi).1
    exact ⟨i, List.mem_range.mpr hlt, (cell_of_lt hlt).trans hi⟩
  · rintro ⟨i, hi, hcell⟩
    exact ⟨i, (cell_of_lt (List.mem_range.mp hi)).symm.trans hcell⟩

/-! ### The loops over the cells -/

/-- The search finds the page if some cell holds it. -/
theorem mawgood_spec (hcells : ∀ i ∈ is, ∃ v, s.cell i = some v) :
    ∃ b, s.mawgood page is = some b ∧ (b = true ↔ ∃ i ∈ is, s.cell i = some page) := by
  induction is with
  | nil => exact ⟨false, rfl, by simp⟩
  | cons i is ih =>
    obtain ⟨v, hv⟩ := hcells i (List.mem_cons_self ..)
    obtain ⟨b, hb, hfound⟩ := ih fun j hj => hcells j (List.mem_cons_of_mem _ hj)
    unfold mawgood
    rw [hv, Option.bind_some]
    by_cases hpage : v = page
    · rw [if_pos hpage]
      exact ⟨true, rfl, fun _ => ⟨i, List.mem_cons_self .., hv.trans (congrArg some hpage)⟩, fun _ => rfl⟩
    · rw [if_neg hpage]
      refine ⟨b, hb, hfound.trans ⟨fun ⟨j, hj, hcell⟩ => ⟨j, List.mem_cons_of_mem _ hj, hcell⟩, ?_⟩⟩
      rintro ⟨j, hj, hcell⟩
      rcases List.mem_cons.mp hj with rfl | hj
      · exact absurd (Option.some.inj (hv.symm.trans hcell)) hpage
      · exact ⟨j, hj, hcell⟩

/-- The distance of the page in a cell. -/
def distanceAt (s : OptimalFaults) (refs : List Nat) (i : Nat) : Nat := distance ((s.cell i).getD 0) refs

/-- The search ends with a cell of the greatest distance: with the one it began with or with one of the list. -/
theorem victimLoop_spec {v m : Nat} (hlen : refs.length < 2147483647) (hcells : ∀ i ∈ is, ∃ p, s.cell i = some p)
    (hv : m ≤ s.distanceAt refs v) :
    ∃ r, s.victimLoop refs is v m = some r ∧ (r = v ∨ r ∈ is) ∧ m ≤ s.distanceAt refs r ∧
      ∀ i ∈ is, s.distanceAt refs i ≤ s.distanceAt refs r := by
  induction is generalizing v m with
  | nil => exact ⟨v, rfl, .inl rfl, hv, fun i hi => absurd hi List.not_mem_nil⟩
  | cons i is ih =>
    obtain ⟨p, hp⟩ := hcells i (List.mem_cons_self ..)
    have hdist : s.distanceAt refs i = distance p refs := by
      unfold distanceAt
      rw [hp]
      rfl
    -- the candidate `w` after the comparison in cell `i`, with its distance `d`
    have hrest : ∀ w d, (w = v ∨ w = i) → d ≤ s.distanceAt refs w → m ≤ d → s.distanceAt refs i ≤ d →
        ∃ r, (if d = 2147483647 then some w else s.victimLoop refs is w d) = some r ∧ (r = v ∨ r ∈ i :: is) ∧
          m ≤ s.distanceAt refs r ∧ ∀ j ∈ i :: is, s.distanceAt refs j ≤ s.distanceAt refs r := by
      intro w d hw hd hmd hid
      have hwhere : w = v ∨ w ∈ i :: is := hw.imp_right fun heq => List.mem_cons.mpr (.inl heq)
      by_cases hend : d = 2147483647
      · rw [if_pos hend]
        exact ⟨w, rfl, hwhere, hmd.trans hd, fun j _ => (distance_le hlen).trans (hend.symm.trans_le hd)⟩
      · rw [if_neg hend]
        obtain ⟨r, hr, hmem, hdr, hmax⟩ := ih (fun j hj => hcells j (List.mem_cons_of_mem _ hj)) hd
        refine ⟨r, hr, ?_, hmd.trans hdr, fun j hj => ?_⟩
        · rcases hmem with rfl | hmem
          · exact hwhere
          · exact .inr (List.mem_cons_of_mem _ hmem)
        · rcases List.mem_cons.mp hj with rfl | hj
          · exact hid.trans hdr
          · exact hmax j hj
    unfold victimLoop
    rw [hp, Option.bind_some]
    by_cases hfar : m < distance p refs
    · simp only [if_pos hfar]
      exact hrest i _ (.inr rfl) hdist.ge hfar.le hdist.le
    · simp only [if_neg hfar]
      exact hrest v m (.inl rfl) hv le_rfl (hdist.trans_le (not_lt.mp hfar))

/-! ### One reference -/

/-- What a placement does. -/
structure Placed (s t : OptimalFaults) (page : Nat) : Prop where
  lists : s.SameLists t
  faults : t.faults = s.faults
  sound : t.Sound
  held : t.held = s.held ++ [page]

theorem Sound.push (h : s.Sound) (hroom : s.currentSize < s.maxWSSize) (hnew : page ∉ s.held) :
    ∃ t, s.push page = some t ∧ s.Placed t page := by
  have hin : s.currentSize < s.workingSetBeta3ty.length := hroom.trans_le h.room
  have hheld : (s.workingSetBeta3ty.set s.currentSize page).take (s.currentSize + 1) = s.held ++ [page] := by
    rw [List.take_succ_eq_append_getElem (by rwa [List.length_set]), List.getElem_set_self, List.take_set_of_le (le_refl _)]
    rfl
  unfold OptimalFaults.push setCell
  rw [if_pos hin]
  refine ⟨_, rfl, ⟨rfl, rfl, rfl⟩, rfl, ⟨hroom, h.room.trans_eq (List.length_set ..).symm, ?_⟩, hheld⟩
  unfold OptimalFaults.held
  rw [hheld, List.nodup_append_comm, List.singleton_append, List.nodup_cons]
  exact ⟨hnew, h.nodup⟩

/-- What a replacement of the page `v` does. -/
structure Replaced (s t : OptimalFaults) (page v : Nat) : Prop where
  lists : s.SameLists t
  faults : t.faults = s.faults
  sound : t.Sound
  held : t.held.toFinset = insert page (s.held.toFinset.erase v)

theorem Sound.setCell {v : Nat} (h : s.Sound) (hi : i < s.currentSize) (hv : s.cell i = some v) (hnew : page ∉ s.held) :
    ∃ t, s.setCell i page = some t ∧ s.Replaced t page v := by
  have hheld : (s.workingSetBeta3ty.set i page).take s.currentSize = s.held.set i page := List.take_set ..
  unfold OptimalFaults.setCell
  rw [if_pos (hi.trans_le h.inBlock)]
  refine ⟨_, rfl, ⟨rfl, rfl, rfl⟩, rfl, ⟨h.size, h.room.trans_eq (List.length_set ..).symm, ?_⟩, ?_⟩
  · unfold OptimalFaults.held
    rw [hheld]
    exact h.nodup.set hnew
  · rw [← toFinset_set h.nodup ((cell_of_lt hi).symm.trans hv), ← hheld]
    rfl

/-- The faults that a reference counts, and what the rule of the farthest use says of it. -/
structure Referenced (s t : OptimalFaults) (page : Nat) (refs : List Nat) : Prop where
  lists : s.SameLists t
  sound : t.Sound
  run : ∀ n, FarthestRun s.maxWSSize t.held.toFinset (refs.map pageOf) n →
    ∃ m, FarthestRun s.maxWSSize s.held.toFinset (page :: refs.map pageOf) m ∧ t.faults + n = s.faults + m

/-- The counter of the faults is not read. -/
theorem Sound.count (h : s.Sound) : Sound { s with faults := s.faults + 1 } := ⟨h.size, h.room, h.nodup⟩

/-- A victim of a full working set: no page is used later. -/
theorem Sound.victim (h : s.Sound) (hk : 1 ≤ s.currentSize) (hlen : refs.length < 2147483647) :
    ∃ r v, s.victimLoop refs (List.range s.currentSize) 0 0 = some r ∧ r < s.currentSize ∧ s.cell r = some v ∧
      Farthest s.held.toFinset (refs.map pageOf) v := by
  obtain ⟨r, hr, hmem, -, hmax⟩ := victimLoop_spec (v := 0) (m := 0) hlen h.cells (Nat.zero_le _)
  have hlt : r < s.currentSize := by
    rcases hmem with rfl | hmem
    · exact hk
    · exact List.mem_range.mp hmem
  obtain ⟨v, hin, hv⟩ := h.cell hlt
  refine ⟨r, v, hr, hlt, hv, farthest_of_distance hlen (List.mem_toFinset.mpr hin) fun x hx => ?_⟩
  obtain ⟨i, hi, hcell⟩ := h.mem_held.mp (List.mem_toFinset.mp hx)
  have hdist := hmax i hi
  unfold distanceAt at hdist
  rw [hcell, hv] at hdist
  exact hdist

/-- A miss, with the fault counted. -/
theorem Sound.miss (h : s.Sound) (hk : 1 ≤ s.maxWSSize) (hlen : refs.length < 2147483647) (hnew : page ∉ s.held) :
    ∃ t, { s with faults := s.faults + 1 }.miss page refs = some t ∧ s.Referenced t page refs := by
  have hnew' : page ∉ s.held.toFinset := fun hmem => hnew (List.mem_toFinset.mp hmem)
  unfold OptimalFaults.miss
  rcases lt_or_ge s.currentSize s.maxWSSize with hroom | hfull
  · obtain ⟨t, ht, hplaced⟩ := h.count.push hroom hnew
    have hheld : t.held.toFinset = insert page s.held.toFinset := by
      rw [hplaced.held, List.toFinset_append, Finset.union_comm]
      rfl
    refine ⟨t, (if_pos hroom).trans ht, ⟨hplaced.lists.initWorkingSet, hplaced.lists.maxWSSize, hplaced.lists.pageReferences⟩,
      hplaced.sound, fun n hrun => ⟨n + 1, .place hnew' (h.card_held.trans_lt hroom) (hheld ▸ hrun), ?_⟩⟩
    rw [hplaced.faults]
    exact Nat.add_right_comm ..
  · obtain ⟨r, v, hr, hlt, hv, hfar⟩ := h.count.victim (hk.trans hfull) hlen
    obtain ⟨t, ht, hreplaced⟩ := h.count.setCell hlt hv hnew
    have hfull' : s.maxWSSize ≤ s.held.toFinset.card := hfull.trans_eq h.card_held.symm
    refine ⟨t, ?_, ⟨hreplaced.lists.initWorkingSet, hreplaced.lists.maxWSSize, hreplaced.lists.pageReferences⟩,
      hreplaced.sound, fun n hrun => ⟨n + 1, .replace hnew' hfull' hfar (hreplaced.held ▸ hrun), ?_⟩⟩
    · rw [if_neg (not_lt.mpr hfull), hr]
      exact ht
    · rw [hreplaced.faults]
      exact Nat.add_right_comm ..

theorem Sound.reference (h : s.Sound) (va : Nat) (hk : 1 ≤ s.maxWSSize) (hlen : refs.length < 2147483647) :
    ∃ t, s.reference va refs = some t ∧ s.Referenced t (pageOf va) refs := by
  obtain ⟨b, hb, hfound⟩ : ∃ b, s.mawgood (pageOf va) (List.range s.currentSize) = some b ∧ _ := mawgood_spec h.cells
  rw [← h.mem_held] at hfound
  unfold OptimalFaults.reference
  rw [hb, Option.bind_some]
  cases b with
  | true => exact ⟨s, rfl, .refl s, h, fun n hrun => ⟨n, .hit (List.mem_toFinset.mpr (hfound.mp rfl)) hrun, rfl⟩⟩
  | false => exact h.miss hk hlen fun hmem => Bool.false_ne_true (hfound.mpr hmem)

/-! ### The whole stream -/

theorem Sound.references (h : s.Sound) (refs : List Nat) (hk : 1 ≤ s.maxWSSize) (hlen : refs.length < 2147483647) :
    ∃ t n, s.references refs = some t ∧ s.SameLists t ∧ FarthestRun s.maxWSSize s.held.toFinset (refs.map pageOf) n ∧
      t.faults = s.faults + n := by
  induction refs generalizing s with
  | nil => exact ⟨s, 0, rfl, .refl s, .nil, rfl⟩
  | cons va refs ih =>
    have hlen' : refs.length < 2147483647 := (Nat.lt_succ_self _).trans hlen
    obtain ⟨t, ht, hreferenced⟩ := h.reference va hk hlen'
    obtain ⟨u, n, hu, hlists, hrun, hn⟩ := ih hreferenced.sound (hk.trans_eq hreferenced.lists.maxWSSize.symm) hlen'
    rw [hreferenced.lists.maxWSSize] at hrun
    obtain ⟨m, hrun', hm⟩ := hreferenced.run n hrun
    refine ⟨u, m, ?_, hreferenced.lists.trans hlists, hrun', hn.trans hm⟩
    unfold OptimalFaults.references
    rw [ht]
    exact hu

/-- The copy of the working set. -/
theorem Sound.copy (h : s.Sound) (initWorkingSet : List WorkingSetElement)
    (hroom : s.currentSize + initWorkingSet.length ≤ s.maxWSSize)
    (hdistinct : (s.held ++ initWorkingSet.map (·.virtualAddress)).Nodup) :
    ∃ t, exec copyElement s initWorkingSet = some t ∧ s.SameLists t ∧ t.faults = s.faults ∧ t.Sound ∧
      t.held = s.held ++ initWorkingSet.map (·.virtualAddress) := by
  induction initWorkingSet generalizing s with
  | nil => exact ⟨s, rfl, .refl s, rfl, h, (List.append_nil _).symm⟩
  | cons wse rest ih =>
    rw [List.length_cons] at hroom
    rw [List.map_cons, ← List.singleton_append, ← List.append_assoc] at hdistinct
    have hlt : s.currentSize < s.maxWSSize := by omega
    have hnew : wse.virtualAddress ∉ s.held := by
      have hprefix := hdistinct.of_append_left
      rw [List.nodup_append_comm, List.singleton_append, List.nodup_cons] at hprefix
      exact hprefix.1
    obtain ⟨t, ht, hplaced⟩ := h.push hlt hnew
    have hsize : t.currentSize = s.currentSize + 1 := by
      rw [← hplaced.sound.length_held, hplaced.held, List.length_append, h.length_held]
      rfl
    obtain ⟨u, hu, hlists, hfaults, hsound, hheld⟩ := ih hplaced.sound (by rw [hsize, hplaced.lists.maxWSSize]; omega)
      (by rwa [hplaced.held])
    refine ⟨u, exec_cons.mpr ⟨t, (if_pos hlt).trans ht, hu⟩, hplaced.lists.trans hlists, hfaults.trans hplaced.faults, hsound, ?_⟩
    rw [hheld, hplaced.held, List.append_assoc]
    rfl

end OptimalFaults

variable {initWorkingSet : List WorkingSetElement} {maxWSSize : Nat} {pageReferences block : List Nat}

/-- The function follows the rule of the farthest use. -/
theorem getOptimalNumFaults_run (hk : 1 ≤ maxWSSize) (hinit : initWorkingSet.length ≤ maxWSSize)
    (hdistinct : (initWorkingSet.map (·.virtualAddress)).Nodup) (hlen : pageReferences.length < 2147483647)
    (hblock : maxWSSize ≤ block.length) :
    ∃ s, getOptimalNumFaults initWorkingSet maxWSSize pageReferences block = some s ∧
      FarthestRun maxWSSize (initWorkingSet.map (·.virtualAddress)).toFinset (pageReferences.map pageOf) s.faults ∧
      s.initWorkingSet = initWorkingSet ∧ s.pageReferences = pageReferences := by
  have hsound : OptimalFaults.Sound ⟨initWorkingSet, maxWSSize, pageReferences, block, 0, 0⟩ :=
    ⟨Nat.zero_le _, hblock, List.nodup_nil⟩
  obtain ⟨s, hs, ⟨hinit', hmax, hrefs⟩, hfaults, hsound', hheld⟩ :=
    hsound.copy initWorkingSet ((Nat.zero_add _).trans_le hinit) hdistinct
  change s.held = initWorkingSet.map (·.virtualAddress) at hheld
  obtain ⟨t, n, ht, hlists, hrun, hn⟩ := hsound'.references pageReferences (hk.trans_eq hmax.symm) hlen
  have hcount : t.faults = n := by rw [hn, hfaults, Nat.zero_add]
  rw [hheld, hmax] at hrun
  refine ⟨t, ?_, hcount ▸ hrun, hlists.initWorkingSet.trans hinit', hlists.pageReferences.trans hrefs⟩
  unfold getOptimalNumFaults
  rw [hs, Option.bind_some, hrefs]
  exact ht

/-- The cells that are taken at the start. -/
theorem card_addresses_le (hinit : initWorkingSet.length ≤ maxWSSize) :
    (initWorkingSet.map (·.virtualAddress)).toFinset.card ≤ maxWSSize :=
  (List.toFinset_card_le _).trans ((List.length_map ..).trans_le hinit)

/-- The function returns the least number of faults with which the recorded references can be served. -/
theorem getOptimalNumFaults_isLeast (hk : 1 ≤ maxWSSize) (hinit : initWorkingSet.length ≤ maxWSSize)
    (hdistinct : (initWorkingSet.map (·.virtualAddress)).Nodup) (hlen : pageReferences.length < 2147483647)
    (hblock : maxWSSize ≤ block.length) :
    ∃ s, getOptimalNumFaults initWorkingSet maxWSSize pageReferences block = some s ∧
      IsLeast {n | Serves maxWSSize (initWorkingSet.map (·.virtualAddress)).toFinset (pageReferences.map pageOf) n} s.faults ∧
      s.initWorkingSet = initWorkingSet ∧ s.pageReferences = pageReferences := by
  obtain ⟨s, hs, hrun, hlists⟩ := getOptimalNumFaults_run hk hinit hdistinct hlen hblock
  exact ⟨s, hs, hrun.isLeast hk (card_addresses_le hinit), hlists⟩

/-- Two cells with two pages, and three references of which two fault. -/
theorem getOptimalNumFaults_isLeast_two : IsLeast {n | Serves 2 {4096, 8192} [12288, 4096, 8192] n} 2 := by
  have hruns : (getOptimalNumFaults [⟨4096, 0, 0⟩, ⟨8192, 0, 0⟩] 2 [12290, 4100, 8192] [0, 0]).map (·.faults) = some 2 := by
    decide +kernel
  obtain ⟨s, hs, hleast, -, -⟩ : ∃ s, getOptimalNumFaults [⟨4096, 0, 0⟩, ⟨8192, 0, 0⟩] 2 [12290, 4100, 8192] [0, 0] = some s ∧ _ :=
    getOptimalNumFaults_isLeast (by decide) (by decide) (by decide) (by decide) (by decide)
  rw [hs, Option.map_some] at hruns
  rw [Option.some.inj hruns] at hleast
  exact hleast

end Fos.Trap
