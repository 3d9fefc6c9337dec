import Fos.Heap.KHeapParts

/-! The regions of the kernel heap tile the part of it below the break, the free ones are as large as they can be,
    and exactly the pages of the allocated ones are mapped. `kmalloc` and `kfree` keep this, although the nodes that
    describe the regions are themselves blocks of the heap. -/

namespace Fos.Heap.KHeap
open Lib Mem

variable {m : Frames} {all F handed : List PageNo} {boot : PageNo → Nat} {s s' : KHeap} {out : List Nat} {va size b : Nat}

/-- The pages of the page allocator. -/
abbrev PageArea : Slot → Prop := Within 4160753664 4294963200

/-- The heap with the nodes `L` of its lists, the blocks `client` that its clients hold, the nodes `lost` that are in
    no list any more and the regions `R` that are in no list for now; `F` are the free frames. -/
structure Core (all : List PageNo) (boot : PageNo → Nat) (handed F : List PageNo) (s : KHeap) (L : BulkList → List Nat)
    (client lost : List Nat) (R : List Region) : Prop where
  accounts : s.mem.Accounts all boot F handed
  blocks : Blocks s (L .free ++ (L .allocated ++ (client ++ lost)))
  page_start : s.kheapPageAllocStart = 4160753664
  break_le : s.kheapPageAllocBreak ≤ 4294963200
  break_aligned : s.kheapPageAllocBreak % 4096 = 0
  spells : s.bulks.Spells L
  sorted : s.bulks.Sorted (L .free)
  tiles : Tiles s.kheapPageAllocStart s.kheapPageAllocBreak
    (s.bulks.regions (L .free) ++ (R ++ s.bulks.regions (L .allocated)))
  aligned : ∀ r ∈ s.bulks.regions (L .free) ++ (R ++ s.bulks.regions (L .allocated)), r.start % 4096 = 0 ∧ r.size % 4096 = 0
  coalesced : Coalesced (s.bulks.regions (L .free))
  mapped : ∀ c, PageArea c → (s.mem.hold c ≠ none ↔ ∃ r ∈ s.bulks.regions (L .allocated), Within r.start r.stop c)

/-- Between calls every region is in a list, and no free region ends at the break. -/
structure Inv (all : List PageNo) (boot : PageNo → Nat) (handed F : List PageNo) (s : KHeap) (L : BulkList → List Nat)
    (client lost : List Nat) : Prop extends Core all boot handed F s L client lost [] where
  top : ∀ r ∈ s.bulks.regions (L .free), r.stop ≠ s.kheapPageAllocBreak

variable {L : BulkList → List Nat} {client lost : List Nat} {R : List Region} {r : Region} {n : Nat}

theorem Core.bounds (h : Core all boot handed F s L client lost R)
    (hr : r ∈ s.bulks.regions (L .free) ++ (R ++ s.bulks.regions (L .allocated))) :
    0 < r.size ∧ 4160753664 ≤ r.start ∧ r.start + r.size ≤ 4294963200 ∧ r.start % 4096 = 0 ∧ r.size % 4096 = 0 := by
  have hin := h.tiles.inside r hr
  have := h.break_le
  rw [h.page_start] at hin
  simp only [Region.stop] at hin
  exact ⟨hin.1, hin.2.1, by omega, h.aligned r hr⟩

theorem Core.bounds_free (h : Core all boot handed F s L client lost R) (hb : b ∈ L .free) :
    0 < s.bulks.size b ∧ 4160753664 ≤ s.bulks.start b ∧ s.bulks.start b + s.bulks.size b ≤ 4294963200 ∧
      s.bulks.start b % 4096 = 0 ∧ s.bulks.size b % 4096 = 0 :=
  h.bounds (List.mem_append_left _ (List.mem_map_of_mem hb))

theorem Core.bounds_allocated (h : Core all boot handed F s L client lost R) (hb : b ∈ L .allocated) :
    0 < s.bulks.size b ∧ 4160753664 ≤ s.bulks.start b ∧ s.bulks.start b + s.bulks.size b ≤ 4294963200 ∧
      s.bulks.start b % 4096 = 0 ∧ s.bulks.size b % 4096 = 0 :=
  h.bounds (List.mem_append_right _ (List.mem_append_right _ (List.mem_map_of_mem hb)))

theorem Core.break_ge (h : Core all boot handed F s L client lost R) : 4160753664 ≤ s.kheapPageAllocBreak :=
  h.page_start ▸ h.tiles.le

theorem Core.length_lt (h : Core all boot handed F s L client lost R) (i : BulkList) : (L i).length < walkFuel := by
  have := h.blocks.length_lt
  simp only [List.length_append] at this
  cases i <;> omega

/-- The page area is above the block area. -/
theorem pageArea_not_blockArea {c : Slot} (h : PageArea c) : ¬ BlockArea c := by
  rintro ⟨p, rfl, -, hlt⟩
  obtain ⟨q, hq, hle, -⟩ := h
  cases hq
  omega

/-- Two intervals that share a page overlap. -/
theorem within_overlap {c : Slot} {q : Region} (hr : Within r.start r.stop c) (hq : Within q.start q.stop c) : ¬ r.Apart q := by
  obtain ⟨p, rfl, hle, hlt⟩ := hr
  obtain ⟨p', hp, hle', hlt'⟩ := hq
  cases hp
  simp only [Region.Apart]
  omega

/-- A region gets frames and a node. -/
theorem allocRegion_spec (ha : s.mem.Accounts all boot F handed) (hblocks : Blocks s out) (hva : va % 4096 = 0)
    (hn : n % 4096 = 0) (hmin : 4160753664 ≤ va) (hmax : va + n ≤ 4294963200)
    (hfree : ∀ c, Within va (va + n) c → s.mem.hold c = none) {t : Bulks}
    (hs : allocRegion { s with bulks := t } va n = some s') : ∃ m d node, 
      s' = { s with mem := m, da := d, bulks := t.pushAllocated node va n } ∧ (∃ F', m.Accounts all boot F' handed) ∧
      Blocks s' (node :: out) ∧ Mapped s.mem m F (fun c => Within va (va + n) c ∨ BlockArea c) ∧
      ∀ c, Within va (va + n) c → m.hold c ≠ none := by
  obtain ⟨m₁, hm₁, hs⟩ := Option.bind_eq_some_iff.mp hs
  rw [u32_of_lt (by omega)] at hm₁
  obtain ⟨⟨s₂, node⟩, halloc, rfl⟩ := Option.map_eq_some_iff.mp hs
  obtain ⟨F₁, ha₁, hmap₁, hall⟩ := mapFrameRange_spec ha hva (by omega) hmax hfree hm₁
  have hblocks₁ : Blocks { s with bulks := t, mem := m₁ } out := by
    refine hblocks.congr rfl fun c hc => hmap₁.outside c fun hin => ?_
    obtain ⟨p, rfl, hle, -⟩ := hin
    obtain ⟨q, hq, -, hlt⟩ := hc
    cases hq
    omega
  obtain ⟨m, d, rfl, hF', hblocks₂, hmap₂⟩ := hblocks₁.allocBlock ha₁ (by decide) halloc
  refine ⟨m, d, node, rfl, hF', hblocks₂.congr rfl fun _ _ => rfl, hmap₁.trans hmap₂ (hmap₁.subset ha ha₁), fun c hc => ?_⟩
  obtain ⟨f, hf⟩ := Option.ne_none_iff_exists'.mp (hall c hc)
  rw [hmap₂.kept c f hf]
  exact nofun

/-- What an allocation of the region `⟨va, n⟩` did: the heap is in order again, now with `lost'` as lost nodes, the
    region is mapped to frames that were free, and other entries changed only in the block area. -/
structure Granted (all : List PageNo) (boot : PageNo → Nat) (handed F : List PageNo) (s s' : KHeap)
    (L : BulkList → List Nat) (client lost' : List Nat) (va n : Nat) : Prop where
  inv : ∃ F' L', Inv all boot handed F' s' L' client lost' ∧
    (L' .allocated).map s'.bulks.start = va :: (L .allocated).map s.bulks.start
  mapped : Mapped s.mem s'.mem F fun c => Within va (va + n) c ∨ BlockArea c
  empty : ∀ c, Within va (va + n) c → s.mem.hold c = none
  present : ∀ c, Within va (va + n) c → s'.mem.hold c ≠ none
  bounds : 4160753664 ≤ va ∧ va + n ≤ 4294963200 ∧ va % 4096 = 0 ∧ 0 < n

/-- The region `⟨va, n⟩` is allocated: the free regions lost it, or the break is raised over it. -/
theorem Inv.allocate (hi : Inv all boot handed F s L client lost) {t : Bulks} {l lost' : List Nat} {brk : Nat}
    (hva : va % 4096 = 0) (hn : n % 4096 = 0) (hspells : t.Spells (Function.update L .free l)) (hsorted : t.Sorted l)
    (hperm : (L .free ++ lost).Perm (l ++ lost'))
    (hsame : ∀ x ∈ L .allocated, t.start x = s.bulks.start x ∧ t.size x = s.bulks.size x)
    (htiles : Tiles s.kheapPageAllocStart brk (t.regions l ++ ⟨va, n⟩ :: s.bulks.regions (L .allocated)))
    (hbrk : brk ≤ 4294963200 ∧ brk % 4096 = 0)
    (haligned : ∀ r ∈ t.regions l, r.start % 4096 = 0 ∧ r.size % 4096 = 0) (hcoalesced : Coalesced (t.regions l))
    (htop : ∀ r ∈ t.regions l, r.stop ≠ brk) (hs : allocRegion { s with bulks := t } va n = some s') :
    Granted all boot handed F s { s' with kheapPageAllocBreak := brk } L client lost' va n := by
  have hin := htiles.inside ⟨va, n⟩ (by simp)
  rw [hi.page_start] at hin
  simp only [Region.stop] at hin
  have harea : ∀ c, Within va (va + n) c → PageArea c := by
    rintro c ⟨p, rfl, hle, hlt⟩
    exact ⟨p, rfl, by omega, by omega⟩
  obtain ⟨-, hapart, -⟩ := List.pairwise_append.mp htiles.apart
  have hapart' := (List.pairwise_cons.mp hapart).1
  have hfree : ∀ c, Within va (va + n) c → s.mem.hold c = none := by
    intro c hc
    by_contra hne
    obtain ⟨r, hr, hrc⟩ := (hi.mapped c (harea c hc)).mp hne
    exact within_overlap (r := ⟨va, n⟩) hc hrc (hapart' r hr)
  obtain ⟨m, d, node, rfl, ⟨F', ha'⟩, hblocks, hmap, hall⟩ :=
    allocRegion_spec hi.accounts hi.blocks hva hn hin.2.1 (by omega) hfree hs
  have hnode := (List.nodup_cons.mp hblocks.nodup).1
  simp only [List.mem_append, not_or] at hnode
  have hnotl : node ∉ l := fun hl => by
    rcases List.mem_append.mp (hperm.mem_iff.mpr (List.mem_append_left _ hl)) with h | h
    · exact hnode.1 h
    · exact hnode.2.2.2 h
  have hnot : ∀ j, node ∉ Function.update L .free l j := by
    intro j
    cases j with
    | free => simpa using hnotl
    | allocated => exact hnode.2.1
  have hpush := Bulks.pushAllocated_spells hspells hnot va n
  have hallocated : Function.update L .free l .allocated = L .allocated := Function.update_of_ne (by decide) ..
  rw [hallocated] at hpush
  obtain ⟨hstart, hsize⟩ := Bulks.pushAllocated_fields t node va n
  have hkeep : ∀ x, x ≠ node → (t.pushAllocated node va n).start x = t.start x ∧
      (t.pushAllocated node va n).size x = t.size x := fun x hx => by
    rw [hstart, hsize, Function.update_of_ne hx, Function.update_of_ne hx]
    exact ⟨rfl, rfl⟩
  have hregions : (t.pushAllocated node va n).regions l = t.regions l :=
    Bulks.regions_congr fun x hx => hkeep x fun h => hnotl (h ▸ hx)
  have hold : ∀ x ∈ L .allocated, (t.pushAllocated node va n).start x = s.bulks.start x ∧
      (t.pushAllocated node va n).size x = s.bulks.size x := fun x hx => by
    obtain ⟨h₁, h₂⟩ := hkeep x fun h => hnode.2.1 (h ▸ hx)
    rw [h₁, h₂]
    exact hsame x hx
  have hregions' : (t.pushAllocated node va n).regions (node :: L .allocated) =
      ⟨va, n⟩ :: s.bulks.regions (L .allocated) := by
    rw [Bulks.regions, List.map_cons, Bulks.region, hstart, hsize, Function.update_self, Function.update_self]
    exact congrArg _ (Bulks.regions_congr hold)
  generalize hL' : Function.update (Function.update L .free l) .allocated (node :: L .allocated) = L' at hpush
  have hfree' : L' .free = l := by simp [← hL']
  have halloc' : L' .allocated = node :: L .allocated := by simp [← hL']
  refine ⟨⟨F', L', ⟨⟨ha', ?_, hi.page_start, hbrk.1, hbrk.2, hpush, ?_, ?_, ?_, ?_, ?_⟩, ?_⟩, ?_⟩, hmap, hfree, hall, hin.2.1,
    by omega, hva, hin.1⟩
  · refine (hblocks.perm ?_).congr rfl fun _ _ => rfl
    rw [hfree', halloc']
    have h₁ : (L .free ++ (L .allocated ++ (client ++ lost))).Perm ((L .allocated ++ client) ++ (L .free ++ lost)) := by
      simpa [List.append_assoc] using List.perm_append_comm_assoc (L .free) (L .allocated ++ client) lost
    have h₂ : ((L .allocated ++ client) ++ (l ++ lost')).Perm (l ++ (L .allocated ++ (client ++ lost'))) := by
      simpa [List.append_assoc] using (List.perm_append_comm_assoc l (L .allocated ++ client) lost').symm
    refine (List.Perm.cons node ((h₁.trans (hperm.append_left _)).trans h₂)).trans ?_
    exact (@List.perm_middle _ _ l _).symm
  · rw [hfree']
    refine hsorted.imp_of_mem fun {x y} hx hy hxy => ?_
    rwa [(hkeep x fun h => hnotl (h ▸ hx)).2, (hkeep y fun h => hnotl (h ▸ hy)).2]
  · show Tiles _ brk ((t.pushAllocated node va n).regions (L' .free) ++ ([] ++ (t.pushAllocated node va n).regions (L' .allocated)))
    rw [hfree', halloc', hregions, hregions']
    exact htiles
  · show ∀ r ∈ (t.pushAllocated node va n).regions (L' .free) ++ ([] ++ (t.pushAllocated node va n).regions (L' .allocated)), _
    rw [hfree', halloc', hregions, hregions']
    intro r hr
    rcases List.mem_append.mp hr with hr | hr
    · exact haligned r hr
    · rcases List.mem_cons.mp hr with rfl | hr
      · exact ⟨hva, hn⟩
      · exact hi.aligned r (List.mem_append_right _ hr)
  · show Coalesced ((t.pushAllocated node va n).regions (L' .free))
    rw [hfree', hregions]
    exact hcoalesced
  · intro c hc
    show m.hold c ≠ none ↔ ∃ r ∈ (t.pushAllocated node va n).regions (L' .allocated), Within r.start r.stop c
    rw [halloc', hregions']
    by_cases hnew : Within va (va + n) c
    · exact iff_of_true (hall c hnew) ⟨_, List.mem_cons_self .., hnew⟩
    · rw [hmap.outside c (not_or.mpr ⟨hnew, pageArea_not_blockArea hc⟩), hi.mapped c hc]
      simp only [List.mem_cons, exists_eq_or_imp]
      exact ⟨.inr, fun h => h.resolve_left hnew⟩
  · show ∀ r ∈ (t.pushAllocated node va n).regions (L' .free), r.stop ≠ brk
    rw [hfree', hregions]
    exact htop
  · show (L' .allocated).map (t.pushAllocated node va n).start = _
    rw [halloc', List.map_cons, hstart, Function.update_self, ← hstart]
    exact congrArg _ (List.map_congr_left fun x hx => (hold x hx).1)

theorem allocRegion_break (hs : s.allocRegion va n = some s') :
    { s' with kheapPageAllocBreak := s.kheapPageAllocBreak } = s' := by
  obtain ⟨m, hm, hs⟩ := Option.bind_eq_some_iff.mp hs
  obtain ⟨⟨s₂, node⟩, halloc, rfl⟩ := Option.map_eq_some_iff.mp hs
  obtain ⟨⟨_, _, _⟩, -, heq⟩ := Option.map_eq_some_iff.mp halloc
  simp only [Prod.mk.injEq] at heq
  rw [← heq.1]

theorem Inv.exactFit_spec (hi : Inv all boot handed F s L client lost) (hb : b ∈ L .free)
    (hs : allocRegion { s with bulks := s.bulks.removeBulk b } (s.bulks.start b) (s.bulks.size b) = some s') :
    Granted all boot handed F s s' L client (b :: lost) (s.bulks.start b) (s.bulks.size b) := by
  obtain ⟨hstart, hsize⟩ := Bulks.removeBulk_fields s.bulks b
  have hbounds := hi.bounds_free hb
  have hregions : (s.bulks.removeBulk b).regions ((L .free).erase b) = s.bulks.regions ((L .free).erase b) :=
    Bulks.regions_congr fun x _ => by rw [hstart, hsize]; exact ⟨rfl, rfl⟩
  have hmem : ∀ r ∈ s.bulks.regions ((L .free).erase b), r ∈ s.bulks.regions (L .free) := fun r hr =>
    ((List.erase_sublist ..).map _).subset hr
  rw [← allocRegion_break hs]
  refine hi.allocate hbounds.2.2.2.1 hbounds.2.2.2.2 (Bulks.removeBulk_spells hi.spells hb) ?_ ?_ (fun x _ => ?_) ?_
    ⟨hi.break_le, hi.break_aligned⟩ ?_ ?_ ?_ hs
  · refine (hi.sorted.sublist List.erase_sublist).imp fun {x y} hxy => ?_
    rwa [hsize]
  · exact ((List.perm_cons_erase hb).append_right lost).trans List.perm_middle.symm
  · rw [hstart, hsize]
    exact ⟨rfl, rfl⟩
  · rw [hregions]
    exact hi.tiles.perm (((Bulks.regions_erase_perm hb).append_right _).trans List.perm_middle.symm)
  · rw [hregions]
    exact fun r hr => hi.aligned r (List.mem_append_left _ (hmem r hr))
  · rw [hregions]
    exact hi.coalesced.mono hmem
  · rw [hregions]
    exact fun r hr => hi.top r (hmem r hr)

theorem Inv.worstFit_spec (hi : Inv all boot handed F s L client lost) (hb : b ∈ L .free) (hpos : 0 < n)
    (hn : n % 4096 = 0) (hlt : n < s.bulks.size b) {t : Bulks} (ht : s.bulks.takeFront b n = some t)
    (hs : allocRegion { s with bulks := t } (s.bulks.start b) n = some s') :
    Granted all boot handed F s s' L client lost (s.bulks.start b) n := by
  have hbounds := hi.bounds_free hb
  obtain ⟨t', l, ht', hperm, hspells, hsorted, hregions, hsame⟩ :=
    Bulks.takeFront_spec hi.spells hb (hi.length_lt .free) hlt.le (by omega)
  obtain rfl : t' = t := Option.some.inj (ht'.symm.trans ht)
  have htiles := hi.tiles.perm ((Bulks.regions_erase_perm hb).append_right _)
  have hmem : ∀ r ∈ t'.regions l, r = ⟨s.bulks.start b + n, s.bulks.size b - n⟩ ∨ r ∈ s.bulks.regions (L .free) := by
    intro r hr
    refine (List.mem_cons.mp (hregions.mem_iff.mp hr)).imp_right fun hr => ?_
    exact ((List.erase_sublist ..).map _).subset hr
  rw [← allocRegion_break hs]
  refine hi.allocate hbounds.2.2.2.1 hn hspells (hsorted hi.sorted) (hperm.symm.append_right lost) (fun x hx => hsame x ?_) ?_
    ⟨hi.break_le, hi.break_aligned⟩ (fun r hr => ?_) ?_ (fun r hr => ?_) hs
  · rintro rfl
    exact nomatch hi.spells.disjoint .allocated .free x hx hb
  · refine (Tiles.split htiles hpos hlt).perm (List.Perm.trans ?_ (hregions.append_right _).symm)
    exact (@List.perm_middle _ _ (_ :: _) _).symm
  · rcases hmem r hr with rfl | hr
    · simp only
      omega
    · exact hi.aligned r (List.mem_append_left _ hr)
  · have hcut := Coalesced.cut (k := n) (hi.coalesced.mono fun r hr => (Bulks.regions_erase_perm hb).mem_iff.mpr hr) htiles hlt
    exact hcut.mono fun r hr => hregions.mem_iff.mp hr
  · rcases hmem r hr with rfl | hr
    · have := hi.top _ (List.mem_map_of_mem hb)
      simp only [Region.stop, Bulks.region] at this ⊢
      omega
    · exact hi.top r hr

/-- The break is raised, or there is no room and nothing changes. -/
theorem Inv.extendBreak_spec (hi : Inv all boot handed F s L client lost) (hpos : 0 < n) (hn : n % 4096 = 0)
    (hs : s.extendBreak n = some (s', va)) :
    s' = s ∧ va = 0 ∨ Granted all boot handed F s s' L client lost va n := by
  have hge := hi.break_ge
  have hle := hi.break_le
  have hal := hi.break_aligned
  unfold extendBreak at hs
  rw [if_neg (by rw [hi.page_start]; omega), kernelHeapMax, sub32_of_le hle (by omega)] at hs
  split at hs
  case isTrue =>
    cases hs
    exact .inl ⟨rfl, rfl⟩
  case isFalse hfits =>
    have hwrap : u32 (s.kheapPageAllocBreak + n) = s.kheapPageAllocBreak + n := u32_of_lt (by omega)
    rw [hwrap, if_neg (by omega)] at hs
    obtain ⟨s₁, hs₁, heq⟩ := Option.map_eq_some_iff.mp hs
    simp only [Prod.mk.injEq] at heq
    obtain ⟨rfl, rfl⟩ := heq
    have hbreak : s₁.kheapPageAllocBreak = s.kheapPageAllocBreak :=
      (congrArg KHeap.kheapPageAllocBreak (allocRegion_break hs₁)).symm
    rw [hbreak, hwrap]
    have hinside : ∀ r ∈ s.bulks.regions (L .free), r.stop ≤ s.kheapPageAllocBreak :=
      fun r hr => (hi.tiles.inside r (List.mem_append_left _ hr)).2.2
    refine .inr (hi.allocate (t := s.bulks) (l := L .free) hal hn ?_ hi.sorted (List.Perm.refl _) (fun _ _ => ⟨rfl, rfl⟩) ?_
      ⟨by omega, by omega⟩ (fun r hr => hi.aligned r (List.mem_append_left _ hr)) hi.coalesced (fun r hr => ?_) hs₁)
    · rw [Function.update_eq_self]
      exact hi.spells
    · exact (hi.tiles.extend hpos).perm List.perm_middle.symm
    · have := hinside r hr
      omega

/-- The first part of `page_alloc_custom_fit` finds a free region of the size, if there is one. -/
theorem Inv.exactFit_cases (hi : Inv all boot handed F s L client lost) (n : Nat) :
    (∃ b ∈ L .free, s.bulks.size b = n ∧ s.exactFit n = some (some b)) ∨
      (∀ b ∈ L .free, s.bulks.size b ≠ n) ∧ s.exactFit n = some none := by
  unfold KHeap.exactFit
  cases hfirst : s.bulks.first .free with
  | none =>
    refine .inr ⟨?_, rfl⟩
    simp [hi.spells.eq_nil_of_first hfirst]
  | some b₀ =>
    have hhead := (hi.spells.first .free).symm.trans hfirst
    by_cases hge : s.bulks.size b₀ ≥ n
    · simp only [if_pos hge]
      rcases Bulks.find_spec hi.spells .free (hi.length_lt .free) (s.bulks.size · = n) with ⟨b, hb, hsize, hfind⟩ | ⟨hnone, hfind⟩
      · exact .inl ⟨b, hb, of_decide_eq_true hsize, hfind⟩
      · exact .inr ⟨fun b hb => of_decide_eq_false (hnone b hb), hfind⟩
    · -- The first free region is the largest one.
      simp only [if_neg hge]
      refine .inr ⟨fun b hb => ?_, trivial⟩
      have hsorted := hi.sorted
      cases hl : L .free with
      | nil => simp [hl] at hb
      | cons c l =>
        rw [hl] at hhead hb hsorted
        cases hhead
        rcases List.mem_cons.mp hb with rfl | hb
        · omega
        · have := (List.pairwise_cons.mp hsorted).1 b hb
          omega

/-- The page allocator returns null and changes nothing, or it allocates a region. The node of a free region that
    fits exactly is lost. -/
theorem Inv.pageAllocCustomFit (hi : Inv all boot handed F s L client lost) (hpos : 0 < n) (hn : n % 4096 = 0)
    (hs : s.pageAllocCustomFit n = some (s', va)) :
    s.exactFit n = some none ∧ (s' = s ∧ va = 0 ∨ Granted all boot handed F s s' L client lost va n) ∨
      ∃ b, s.exactFit n = some (some b) ∧ Granted all boot handed F s s' L client (b :: lost) va n := by
  unfold KHeap.pageAllocCustomFit at hs
  rcases hi.exactFit_cases n with ⟨b, hb, hsize, hfit⟩ | ⟨-, hfit⟩
  · rw [hfit, Option.bind_some] at hs
    obtain ⟨s₁, hs₁, heq⟩ := Option.map_eq_some_iff.mp hs
    simp only [Prod.mk.injEq] at heq
    obtain ⟨rfl, rfl⟩ := heq
    rw [← hsize] at hs₁ hfit ⊢
    exact .inr ⟨b, hfit, hi.exactFit_spec hb hs₁⟩
  · refine .inl ⟨hfit, ?_⟩
    rw [hfit, Option.bind_some] at hs
    cases hfirst : s.bulks.first .free with
    | none =>
      simp only [hfirst] at hs
      exact hi.extendBreak_spec hpos hn hs
    | some bb =>
      simp only [hfirst] at hs
      split at hs
      case isTrue hlt =>
        obtain ⟨t, ht, hs⟩ := Option.bind_eq_some_iff.mp hs
        obtain ⟨s₁, hs₁, heq⟩ := Option.map_eq_some_iff.mp hs
        simp only [Prod.mk.injEq] at heq
        obtain ⟨rfl, rfl⟩ := heq
        exact .inr (hi.worstFit_spec (hi.spells.mem_of_first hfirst) hpos hn hlt ht hs₁)
      case isFalse => exact hi.extendBreak_spec hpos hn hs

/-! ### `kfree` -/

/-- The pages of an allocated region are unmapped, and its node leaves the list and is freed. -/
theorem Inv.unlink (hi : Inv all boot handed F s L client lost) (hb : b ∈ L .allocated)
    (hm : unmapFrameRange s.mem (s.bulks.start b) (u32 (s.bulks.start b + s.bulks.size b)) walkFuel = some m)
    (hs : freeBlock { s with mem := m, bulks := s.bulks.unlinkAllocated b } b = some s') :
    (∃ F', Core all boot handed F' s' (Function.update L .allocated ((L .allocated).erase b)) client lost [s.bulks.region b]) ∧
      s'.bulks = s.bulks.unlinkAllocated b ∧
      ∀ c, ¬ Within (s.bulks.start b) (s.bulks.start b + s.bulks.size b) c → ¬ BlockArea c → s'.mem.hold c = s.mem.hold c := by
  have hbounds := hi.bounds_allocated hb
  rw [u32_of_lt (by omega)] at hm
  obtain ⟨F₁, ha₁, hin, hout⟩ := unmapFrameRange_spec hi.accounts hbounds.2.2.2.1 (by omega) (by simp only [kernelHeapMax]; omega) hm
  have hblocks₁ : Blocks { s with mem := m, bulks := s.bulks.unlinkAllocated b }
      (L .free ++ (L .allocated ++ (client ++ lost))) := by
    refine hi.blocks.congr rfl fun c hc => hout c fun hc' => ?_
    obtain ⟨p, rfl, hle, -⟩ := hc'
    obtain ⟨q, hq, -, hlt⟩ := hc
    cases hq
    omega
  obtain ⟨m', d, rfl, ⟨F', ha'⟩, hblocks, hsame, -⟩ := hblocks₁.freeBlock ha₁ (by simp [hb]) hs
  obtain ⟨hstart, hsize⟩ := Bulks.unlinkAllocated_fields s.bulks b
  have hregion : ∀ l, (s.bulks.unlinkAllocated b).regions l = s.bulks.regions l := fun l =>
    Bulks.regions_congr fun x _ => by rw [hstart, hsize]; exact ⟨rfl, rfl⟩
  have hperm := Bulks.regions_erase_perm (s := s.bulks) hb
  have hframe : ∀ c, ¬ Within (s.bulks.start b) (s.bulks.start b + s.bulks.size b) c → ¬ BlockArea c →
      m'.hold c = s.mem.hold c := fun c hc hc' => (hsame c hc').trans (hout c hc)
  have hlists : Function.update L .allocated ((L .allocated).erase b) .free = L .free := Function.update_of_ne (by decide) ..
  refine ⟨⟨F', ha', ?_, hi.page_start, hi.break_le, hi.break_aligned, Bulks.unlinkAllocated_spells hi.spells hb, ?_, ?_, ?_,
    ?_, fun c hc => ?_⟩, rfl, hframe⟩
  · refine hblocks.perm ?_
    rw [hlists, Function.update_self]
    have hmid : (L .free ++ (L .allocated ++ (client ++ lost))).Perm
        (b :: (L .free ++ ((L .allocated).erase b ++ (client ++ lost)))) :=
      (((List.perm_cons_erase hb).append_right _).append_left _).trans List.perm_middle
    have := hmid.erase b
    rwa [List.erase_cons_head] at this
  · rw [hlists]
    refine hi.sorted.imp fun {x y} hxy => ?_
    rwa [hsize]
  · show Tiles _ _ ((s.bulks.unlinkAllocated b).regions _ ++ (_ ++ (s.bulks.unlinkAllocated b).regions _))
    rw [hlists, Function.update_self, hregion, hregion]
    exact hi.tiles.perm (hperm.append_left _)
  · show ∀ r ∈ (s.bulks.unlinkAllocated b).regions _ ++ (_ ++ (s.bulks.unlinkAllocated b).regions _), _
    rw [hlists, Function.update_self, hregion, hregion]
    exact fun r hr => hi.aligned r ((hperm.append_left _).mem_iff.mpr hr)
  · show Coalesced ((s.bulks.unlinkAllocated b).regions _)
    rw [hlists, hregion]
    exact hi.coalesced
  · show m'.hold c ≠ none ↔ ∃ r ∈ (s.bulks.unlinkAllocated b).regions _, Within r.start r.stop c
    rw [Function.update_self, hregion]
    obtain ⟨-, hapart, -⟩ := List.pairwise_append.mp (hi.tiles.perm (hperm.append_left _)).apart
    by_cases hc' : Within (s.bulks.start b) (s.bulks.start b + s.bulks.size b) c
    · rw [hsame c (pageArea_not_blockArea hc)]
      refine iff_of_false (fun hne => hne (hin c hc')) ?_
      rintro ⟨r, hr, hrc⟩
      exact within_overlap (r := s.bulks.region b) hc' hrc ((List.pairwise_cons.mp hapart).1 r hr)
    · rw [hframe c hc' (pageArea_not_blockArea hc), hi.mapped c hc]
      simp only [hperm.mem_iff, List.mem_cons, exists_eq_or_imp]
      exact ⟨fun h => h.resolve_left hc', .inr⟩

/-- The pending region becomes free, merged with its neighbours. -/
theorem Core.merge (h : Core all boot handed F s L client lost [r]) {t : Bulks} {l : List Nat} {F' : List PageNo}
    {d : DynAlloc} (ha : m.Accounts all boot F' handed)
    (hblocks : Blocks { s with mem := m, da := d } (l ++ (L .allocated ++ (client ++ lost))))
    (hspells : t.Spells (Function.update L .free l)) (hsorted : t.Sorted l)
    (hmerge : Merge r (s.bulks.regions (L .free)) (t.regions l))
    (hsame : ∀ x ∈ L .allocated, t.start x = s.bulks.start x ∧ t.size x = s.bulks.size x)
    (hhold : ∀ c, ¬ BlockArea c → m.hold c = s.mem.hold c) :
    Core all boot handed F' { s with mem := m, da := d, bulks := t } (Function.update L .free l) client lost [] := by
  have hallocated : Function.update L .free l .allocated = L .allocated := Function.update_of_ne (by decide) ..
  have hregions : t.regions (L .allocated) = s.bulks.regions (L .allocated) := Bulks.regions_congr hsame
  have htiles := h.tiles.perm (@List.perm_middle _ r (s.bulks.regions (L .free)) _)
  have halign : ∀ x ∈ t.regions l, x.start % 4096 = 0 ∧ x.size % 4096 = 0 := by
    intro x hx
    have hr := h.aligned r (by simp)
    obtain ⟨hstart, hstop⟩ := hmerge.start_stop hx
    have hstart' : x.start % 4096 = 0 := by
      rcases hstart with h' | ⟨y, hy, h'⟩
      · rw [h']
        exact hr.1
      · rw [h']
        exact (h.aligned y (List.mem_append_left _ hy)).1
    have hstop' : x.stop % 4096 = 0 := by
      rcases hstop with h' | ⟨y, hy, h'⟩
      · rw [h', Region.stop]
        omega
      · have := h.aligned y (List.mem_append_left _ hy)
        rw [h', Region.stop]
        omega
    rw [Region.stop] at hstop'
    exact ⟨hstart', by omega⟩
  refine ⟨ha, ?_, h.page_start, h.break_le, h.break_aligned, hspells, ?_, ?_, ?_, ?_, fun c hc => ?_⟩
  · rw [Function.update_self, hallocated]
    exact hblocks.congr rfl fun _ _ => rfl
  · rw [Function.update_self]
    exact hsorted
  · show Tiles _ _ (t.regions _ ++ ([] ++ t.regions _))
    rw [Function.update_self, hallocated, hregions]
    exact hmerge.tiles htiles
  · show ∀ x ∈ t.regions _ ++ ([] ++ t.regions _), _
    rw [Function.update_self, hallocated, hregions]
    intro x hx
    rcases List.mem_append.mp hx with hx | hx
    · exact halign x hx
    · exact h.aligned x (List.mem_append_right _ (List.mem_append_right _ hx))
  · show Coalesced (t.regions _)
    rw [Function.update_self]
    exact hmerge.coalesced htiles h.coalesced
  · show m.hold c ≠ none ↔ ∃ x ∈ t.regions _, _
    rw [hallocated, hregions, hhold c (pageArea_not_blockArea hc)]
    exact h.mapped c hc

/-- What the rest of `kfree` leaves alone. -/
structure Kept (s s' : KHeap) (L L' : BulkList → List Nat) : Prop where
  allocated : L' .allocated = L .allocated
  start : ∀ x ∈ L .allocated, s'.bulks.start x = s.bulks.start x
  hold : ∀ c, ¬ BlockArea c → s'.mem.hold c = s.mem.hold c

theorem Kept.trans {s₁ : KHeap} {L₁ L' : BulkList → List Nat} (h : Kept s s₁ L L₁) (h' : Kept s₁ s' L₁ L') : Kept s s' L L' where
  allocated := h'.allocated.trans h.allocated
  start := fun x hx => (h'.start x (h.allocated ▸ hx)).trans (h.start x hx)
  hold := fun c hc => (h'.hold c hc).trans (h.hold c hc)

theorem Core.free_ne_allocated (h : Core all boot handed F s L client lost R) {x : Nat} (hb : b ∈ L .free)
    (hx : x ∈ L .allocated) : x ≠ b := by
  rintro rfl
  exact nomatch h.spells.disjoint .allocated .free x hx hb

/-- How `merge_bulks` goes on: the pending region is merged with one neighbour, or with two, of which one node is freed, or
    it needs a node of its own. -/
theorem Core.mergeBulks_cases (h : Core all boot handed F s L client lost [r]) :
    (∃ t l b, b ∈ L .free ∧ s.mergeBulks r.start r.size = some { s with bulks := t } ∧ l.Perm (L .free) ∧
      t.Spells (Function.update L .free l) ∧ t.Sorted l ∧ Merge r (s.bulks.regions (L .free)) (t.regions l) ∧
      ∀ x, x ≠ b → t.start x = s.bulks.start x ∧ t.size x = s.bulks.size x) ∨
    (∃ t l b a, b ∈ L .free ∧ a ∈ L .free ∧ s.mergeBulks r.start r.size = freeBlock { s with bulks := t } a ∧
      l.Perm ((L .free).erase a) ∧ t.Spells (Function.update L .free l) ∧ t.Sorted l ∧
      Merge r (s.bulks.regions (L .free)) (t.regions l) ∧ ∀ x, x ≠ b → t.start x = s.bulks.start x ∧ t.size x = s.bulks.size x) ∨
    s.mergeBulks r.start r.size = ((s.allocBlock sizeofBulk).bind fun (s, node) =>
        if node = 0 then none else (s.bulks.addBulk node r.start r.size).map ({ s with bulks := · })) ∧
      (∀ x ∈ L .free, s.bulks.start x + s.bulks.size x ≠ r.start) ∧ ∀ x ∈ L .free, s.bulks.start x ≠ r.stop := by
  have hr := h.bounds (r := r) (by simp)
  have hlen := h.length_lt .free
  obtain ⟨before, after, hfind, hb, hnb, haf, hna⟩ := Bulks.findNeighbours_spec h.spells hlen r.start r.size
  rw [u32_of_lt (by omega)] at haf hna
  have hend : ∀ x ∈ L .free, u32 (s.bulks.start x + s.bulks.size x) = s.bulks.start x + s.bulks.size x :=
    fun x hx => u32_of_lt (by have := h.bounds_free hx; omega)
  unfold KHeap.mergeBulks
  rw [hfind, Option.bind_some]
  cases before with
  | some b =>
    obtain ⟨hb, hbstop⟩ := hb b rfl
    rw [hend b hb] at hbstop
    have hbb := h.bounds_free hb
    cases after with
    | some a =>
      obtain ⟨ha, hastart⟩ := haf a rfl
      have hba := h.bounds_free ha
      have hab : a ≠ b := by
        rintro rfl
        omega
      obtain ⟨t, l, ht, hperm, hspells, hsorted, hmerge, hsame⟩ :=
        Bulks.mergeBoth_spec (r := r) h.spells hb ha hab hlen hbstop hastart (by omega)
      exact .inr (.inl ⟨t, l, b, a, hb, ha, by simp only [ht, Option.bind_some], hperm, hspells, hsorted h.sorted, hmerge, hsame⟩)
    | none =>
      obtain ⟨t, l, ht, hperm, hspells, hsorted, hmerge, hsame⟩ :=
        Bulks.mergeBefore_spec (r := r) h.spells hb hlen hbstop (by simp only [Region.stop]; omega) (hna rfl)
      exact .inl ⟨t, l, b, hb, by simp only [ht, Option.map_some], hperm, hspells, hsorted h.sorted, hmerge, hsame⟩
  | none =>
    have hnb' : ∀ x ∈ L .free, s.bulks.start x + s.bulks.size x ≠ r.start := fun x hx => hend x hx ▸ hnb rfl x hx
    cases after with
    | some a =>
      obtain ⟨ha, hastart⟩ := haf a rfl
      have hba := h.bounds_free ha
      obtain ⟨t, l, ht, hperm, hspells, hsorted, hmerge, hsame⟩ :=
        Bulks.mergeAfter_spec (r := r) h.spells ha hlen hastart (by omega) hnb'
      exact .inl ⟨t, l, a, ha, by simp only [ht, Option.map_some], hperm, hspells, hsorted h.sorted, hmerge, hsame⟩
    | none => exact .inr (.inr ⟨rfl, hnb', hna rfl⟩)

theorem Core.mergeBulks (h : Core all boot handed F s L client lost [r]) (hs : s.mergeBulks r.start r.size = some s') :
    ∃ F' L', Core all boot handed F' s' L' client lost [] ∧ Kept s s' L L' := by
  have hallocated : ∀ l, Function.update L .free l .allocated = L .allocated := fun l => Function.update_of_ne (by decide) ..
  rcases h.mergeBulks_cases with ⟨t, l, b, hb, ht, hperm, hspells, hsorted, hmerge, hsame⟩ |
    ⟨t, l, b, a, hb, ha, ht, hperm, hspells, hsorted, hmerge, hsame⟩ | ⟨ht, hbefore, hafter⟩
  · cases ht.symm.trans hs
    have hne := fun x => @Core.free_ne_allocated _ _ _ _ _ _ _ _ _ _ h x hb
    exact ⟨F, _, h.merge h.accounts (h.blocks.perm (hperm.symm.append_right _)) hspells hsorted hmerge
      (fun x hx => hsame x (hne x hx)) fun _ _ => rfl, hallocated l, fun x hx => (hsame x (hne x hx)).1, fun _ _ => rfl⟩
  · rw [ht] at hs
    have hne := fun x => @Core.free_ne_allocated _ _ _ _ _ _ _ _ _ _ h x hb
    have hblocks : Blocks { s with bulks := t } (L .free ++ (L .allocated ++ (client ++ lost))) :=
      h.blocks.congr rfl fun _ _ => rfl
    obtain ⟨m, d, rfl, ⟨F', ha'⟩, hblocks', hhold, -⟩ := hblocks.freeBlock h.accounts (by simp [ha]) hs
    have hout : ((L .free ++ (L .allocated ++ (client ++ lost))).erase a).Perm (l ++ (L .allocated ++ (client ++ lost))) := by
      rw [List.erase_append_left _ ha]
      exact hperm.symm.append_right _
    exact ⟨F', _, h.merge ha' ((hblocks'.perm hout).congr rfl fun _ _ => rfl) hspells hsorted hmerge
      (fun x hx => hsame x (hne x hx)) hhold, hallocated l, fun x hx => (hsame x (hne x hx)).1, hhold⟩
  · rw [ht] at hs
    obtain ⟨⟨s₁, node⟩, halloc, hs⟩ := Option.bind_eq_some_iff.mp hs
    obtain ⟨m, d, rfl, ⟨F', ha'⟩, hblocks', hmap⟩ := h.blocks.allocBlock h.accounts (by decide) halloc
    have hnode := (List.nodup_cons.mp hblocks'.nodup).1
    simp only [List.mem_append, not_or] at hnode
    have hnot : ∀ j, node ∉ L j := by
      rintro (_ | _)
      · exact hnode.1
      · exact hnode.2.1
    simp only [Option.ite_none_left_eq_some, Option.map_eq_some_iff] at hs
    obtain ⟨-, t', ht', rfl⟩ := hs
    obtain ⟨t, l, ht, hperm, hspells, hsorted, hmerge, hsame⟩ :=
      Bulks.addBulk_spec (r := r) h.spells hnot (h.length_lt .free) hbefore hafter
    obtain rfl : t = t' := Option.some.inj (ht.symm.trans ht')
    have hne : ∀ x ∈ L .allocated, x ≠ node := fun x hx heq => hnode.2.1 (heq ▸ hx)
    refine ⟨F', _, h.merge ha' (hblocks'.perm ?_) hspells (hsorted h.sorted) hmerge
      (fun x hx => hsame x (hne x hx)) hmap.outside, hallocated l, fun x hx => (hsame x (hne x hx)).1, hmap.outside⟩
    exact (hperm.symm.append_right _ : (node :: L .free ++ _).Perm _)

/-- A free region that ends at the break is given up. -/
theorem Core.lower (h : Core all boot handed F s L client lost []) (hb : b ∈ L .free)
    (htop : s.bulks.start b + s.bulks.size b = s.kheapPageAllocBreak)
    (hs : freeBlock { s with bulks := s.bulks.removeBulk b, kheapPageAllocBreak := s.bulks.start b } b = some s') :
    ∃ F' L', Core all boot handed F' s' L' client lost [] ∧ Kept s s' L L' := by
  have hbounds := h.bounds_free hb
  obtain ⟨hstart, hsize⟩ := Bulks.removeBulk_fields s.bulks b
  have hregion : ∀ l, (s.bulks.removeBulk b).regions l = s.bulks.regions l := fun l =>
    Bulks.regions_congr fun x _ => by rw [hstart, hsize]; exact ⟨rfl, rfl⟩
  have hblocks : Blocks { s with bulks := s.bulks.removeBulk b, kheapPageAllocBreak := s.bulks.start b }
      (L .free ++ (L .allocated ++ (client ++ lost))) := h.blocks.congr rfl fun _ _ => rfl
  obtain ⟨m, d, rfl, ⟨F', ha'⟩, hblocks', hhold, -⟩ := hblocks.freeBlock h.accounts (by simp [hb]) hs
  have hallocated : Function.update L .free ((L .free).erase b) .allocated = L .allocated := Function.update_of_ne (by decide) ..
  have hperm := (Bulks.regions_erase_perm (s := s.bulks) hb).append_right ([] ++ s.bulks.regions (L .allocated))
  have hmem : ∀ r ∈ s.bulks.regions ((L .free).erase b), r ∈ s.bulks.regions (L .free) := fun r hr =>
    ((List.erase_sublist ..).map _).subset hr
  refine ⟨F', _, ⟨ha', ?_, h.page_start, by show s.bulks.start b ≤ _; omega, hbounds.2.2.2.1,
    Bulks.removeBulk_spells h.spells hb, ?_, ?_, ?_, ?_, fun c hc => ?_⟩, hallocated, fun x _ => ?_, hhold⟩
  · rw [Function.update_self, hallocated, ← List.erase_append_left _ hb]
    exact hblocks'.congr rfl fun _ _ => rfl
  · rw [Function.update_self]
    refine (h.sorted.sublist List.erase_sublist).imp fun {x y} hxy => ?_
    rwa [hsize]
  · show Tiles _ (s.bulks.start b) ((s.bulks.removeBulk b).regions _ ++ ([] ++ (s.bulks.removeBulk b).regions _))
    rw [Function.update_self, hallocated, hregion, hregion]
    exact (h.tiles.perm hperm).lower htop
  · show ∀ r ∈ (s.bulks.removeBulk b).regions _ ++ ([] ++ (s.bulks.removeBulk b).regions _), _
    rw [Function.update_self, hallocated, hregion, hregion]
    exact fun r hr => h.aligned r (hperm.mem_iff.mpr (List.mem_cons_of_mem _ hr))
  · show Coalesced ((s.bulks.removeBulk b).regions _)
    rw [Function.update_self, hregion]
    exact h.coalesced.mono hmem
  · show m.hold c ≠ none ↔ ∃ r ∈ (s.bulks.removeBulk b).regions _, _
    rw [hallocated, hregion, hhold c (pageArea_not_blockArea hc)]
    exact h.mapped c hc
  · show (s.bulks.removeBulk b).start x = _
    rw [hstart]

theorem Core.lowerBreak {fuel : Nat} (h : Core all boot handed F s L client lost []) (hs : s.lowerBreak fuel = some s') :
    ∃ F' L', Inv all boot handed F' s' L' client lost ∧ Kept s s' L L' := by
  induction fuel generalizing s F L with
  | zero => cases hs
  | succ fuel ih =>
    unfold KHeap.lowerBreak at hs
    rcases Bulks.find_spec h.spells .free (h.length_lt .free)
      (fun b => u32 (s.bulks.start b + s.bulks.size b) = s.kheapPageAllocBreak) with ⟨b, hb, htop, hfind⟩ | ⟨hnone, hfind⟩
    · have hbounds := h.bounds_free hb
      have htop := of_decide_eq_true htop
      rw [u32_of_lt (by omega)] at htop
      rw [hfind, Option.bind_some] at hs
      simp only [(Bulks.removeBulk_fields s.bulks b).1] at hs
      obtain ⟨s₁, hs₁, hs⟩ := Option.bind_eq_some_iff.mp hs
      obtain ⟨F₁, L₁, h₁, hkept⟩ := h.lower hb htop hs₁
      obtain ⟨F', L', h', hkept'⟩ := ih h₁ hs
      exact ⟨F', L', h', hkept.trans hkept'⟩
    · rw [hfind, Option.bind_some] at hs
      cases hs
      refine ⟨F, L, ⟨h, fun r hr => ?_⟩, rfl, fun _ _ => rfl, fun _ _ => rfl⟩
      obtain ⟨b, hb, rfl⟩ := List.mem_map.mp hr
      have hbounds := h.bounds_free hb
      have hne := of_decide_eq_false (hnone b hb)
      rwa [u32_of_lt (by omega)] at hne

/-- `kfree` of an allocated region -/
theorem Inv.freeRegion (hi : Inv all boot handed F s L client lost) (hva : va ∈ (L .allocated).map s.bulks.start)
    (hs : s.freeRegion va = some s') : ∃ b ∈ L .allocated, s.bulks.start b = va ∧
      (∃ F' L', Inv all boot handed F' s' L' client lost ∧
        ((L .allocated).map s.bulks.start).Perm (va :: (L' .allocated).map s'.bulks.start)) ∧
      ∀ c, ¬ Within va (va + s.bulks.size b) c → ¬ BlockArea c → s'.mem.hold c = s.mem.hold c := by
  obtain ⟨b₀, hb₀, hstart₀⟩ := List.mem_map.mp hva
  unfold KHeap.freeRegion at hs
  rcases Bulks.find_spec hi.spells .allocated (hi.length_lt .allocated) (s.bulks.start · = va) with
    ⟨b, hb, hstart, hfind⟩ | ⟨hnone, -⟩
  · obtain rfl := of_decide_eq_true hstart
    rw [hfind, Option.bind_some] at hs
    obtain ⟨m, hm, hs⟩ := Option.bind_eq_some_iff.mp hs
    obtain ⟨s₁, hs₁, hs⟩ := Option.bind_eq_some_iff.mp hs
    obtain ⟨s₂, hs₂, hs⟩ := Option.bind_eq_some_iff.mp hs
    simp only [(Bulks.unlinkAllocated_fields s.bulks b).1, (Bulks.unlinkAllocated_fields s.bulks b).2] at hs₂
    obtain ⟨⟨F₁, h₁⟩, hbulks, hframe⟩ := hi.unlink hb hm hs₁
    obtain ⟨F₂, L₂, h₂, hkept₂⟩ := h₁.mergeBulks (r := s.bulks.region b) hs₂
    obtain ⟨F', L', h', hkept'⟩ := h₂.lowerBreak hs
    have hkept := hkept₂.trans hkept'
    refine ⟨b, hb, rfl, ⟨F', L', h', ?_⟩, fun c hc hc' => (hkept.hold c hc').trans (hframe c hc hc')⟩
    have hlist : L' .allocated = (L .allocated).erase b := by rw [hkept.allocated, Function.update_self]
    have hstarts : ((L .allocated).erase b).map s'.bulks.start = ((L .allocated).erase b).map s.bulks.start :=
      List.map_congr_left fun x hx => by
        rw [hkept.start x (by rwa [Function.update_self]), hbulks, (Bulks.unlinkAllocated_fields s.bulks b).1]
    rw [hlist, hstarts]
    exact (List.perm_cons_erase hb).map s.bulks.start
  · have := of_decide_eq_false (hnone b₀ hb₀)
    exact absurd hstart₀ this

/-- The blocks that are out, with a block of a client in front. -/
theorem perm_client (l₁ l₂ : List Nat) (client lost : List Nat) (b : Nat) :
    (b :: (l₁ ++ (l₂ ++ (client ++ lost)))).Perm (l₁ ++ (l₂ ++ (b :: client ++ lost))) :=
  List.perm_middle.symm.trans (List.perm_middle.symm.append_left l₁)

theorem Inv.allocBlock (hi : Inv all boot handed F s L client lost) (hpos : 0 < size)
    (hs : s.allocBlock size = some (s', va)) :
    (∃ F', Inv all boot handed F' s' L (va :: client) lost) ∧ s'.bulks = s.bulks ∧ Mapped s.mem s'.mem F BlockArea := by
  obtain ⟨m, d, rfl, ⟨F', ha'⟩, hblocks, hmap⟩ := hi.blocks.allocBlock hi.accounts hpos hs
  refine ⟨⟨F', ⟨ha', hblocks.perm (perm_client ..), hi.page_start, hi.break_le, hi.break_aligned, hi.spells, hi.sorted, hi.tiles,
    hi.aligned, hi.coalesced, fun c hc => ?_⟩, hi.top⟩, rfl, hmap⟩
  rw [hmap.outside c (pageArea_not_blockArea hc)]
  exact hi.mapped c hc

theorem Inv.freeBlock (hi : Inv all boot handed F s L client lost) (hva : va ∈ client) (hs : s.freeBlock va = some s') :
    (∃ F', Inv all boot handed F' s' L (client.erase va) lost) ∧ s'.bulks = s.bulks ∧
      ∀ c, ¬ BlockArea c → s'.mem.hold c = s.mem.hold c := by
  obtain ⟨m, d, rfl, ⟨F', ha'⟩, hblocks, hhold, -⟩ := hi.blocks.freeBlock hi.accounts (by simp [hva]) hs
  refine ⟨⟨F', ⟨ha', hblocks.perm ?_, hi.page_start, hi.break_le, hi.break_aligned, hi.spells, hi.sorted, hi.tiles, hi.aligned,
    hi.coalesced, fun c hc => ?_⟩, hi.top⟩, rfl, hhold⟩
  · have hmid := (((List.perm_cons_erase hva).append_right lost).append_left (L .allocated)).append_left (L .free)
    have := (hmid.trans (perm_client ..).symm).erase va
    rwa [List.erase_cons_head] at this
  · rw [hhold c (pageArea_not_blockArea hc)]
    exact hi.mapped c hc

theorem Inv.perm_client {client' : List Nat} (hi : Inv all boot handed F s L client lost) (hp : client.Perm client') :
    Inv all boot handed F s L client' lost :=
  { hi with blocks := hi.blocks.perm (((hp.append_right lost).append_left _).append_left _) }

/-- What `kmalloc` does: nothing, or it hands out a block, or it allocates a region. -/
theorem Inv.kmalloc (hi : Inv all boot handed F s L client lost) (hsize : size ≤ 4294963200)
    (hs : s.kmalloc size = some (s', va)) :
    (s' = s ∧ va = 0 ∧ (2048 < size → s.exactFit (roundUp size pageSize) = some none)) ∨
    (size ≤ 2048 ∧ (∃ F', Inv all boot handed F' s' L (va :: client) lost) ∧ s'.bulks = s.bulks ∧
      Mapped s.mem s'.mem F BlockArea) ∨
    (2048 < size ∧ ∃ lost', Granted all boot handed F s s' L client lost' va (roundUp size pageSize) ∧
      (s.exactFit (roundUp size pageSize) = some none ∧ lost' = lost ∨
        ∃ b, s.exactFit (roundUp size pageSize) = some (some b) ∧ lost' = b :: lost)) := by
  unfold KHeap.kmalloc at hs
  split at hs
  case isTrue hzero =>
    cases hs
    exact .inl ⟨rfl, rfl, fun h => by omega⟩
  case isFalse hne =>
    by_cases hsmall : size ≤ 2048
    · rw [if_pos (show size ≤ dynAllocMaxBlockSize from hsmall)] at hs
      exact .inr (.inl ⟨hsmall, hi.allocBlock (Nat.pos_of_ne_zero hne) hs⟩)
    · rw [if_neg (show ¬ size ≤ dynAllocMaxBlockSize from hsmall)] at hs
      obtain ⟨halign, hle, -⟩ := roundUp_page hsize
      rcases hi.pageAllocCustomFit (by omega) halign hs with ⟨hnone, ⟨rfl, rfl⟩ | hgrant⟩ | ⟨b, hsome, hgrant⟩
      · exact .inl ⟨rfl, rfl, fun _ => hnone⟩
      · exact .inr (.inr ⟨by omega, lost, hgrant, .inl ⟨hnone, rfl⟩⟩)
      · exact .inr (.inr ⟨by omega, _, hgrant, .inr ⟨b, hsome, rfl⟩⟩)

theorem Core.start_ge (h : Core all boot handed F s L client lost R) (hva : va ∈ (L .allocated).map s.bulks.start) :
    4160753664 ≤ va ∧ va < 4294963200 := by
  obtain ⟨b, hb, rfl⟩ := List.mem_map.mp hva
  have := h.bounds_allocated hb
  omega

/-- A block that a client holds goes to the block allocator. -/
theorem Inv.kfree_eq_freeBlock (hi : Inv all boot handed F s L client lost) (hva : va ∈ client) : s.kfree va = s.freeBlock va := by
  have hbounds := hi.blocks.bounds (b := va) (by simp [hva])
  have hend : u32 (kernelHeapStart + dynAllocMaxSize) = 4160749568 := rfl
  unfold KHeap.kfree
  simp only [kernelHeapStart] at hbounds
  rw [if_neg (by omega), if_neg (by simp only [kernelHeapStart, kernelHeapMax]; omega), hend,
    if_pos (by simp only [kernelHeapStart]; omega)]

/-- `kfree` of a block that a client holds -/
theorem Inv.kfree_block (hi : Inv all boot handed F s L client lost) (hva : va ∈ client) (hs : s.kfree va = some s') :
    (∃ F', Inv all boot handed F' s' L (client.erase va) lost) ∧ s'.bulks = s.bulks ∧
      ∀ c, ¬ BlockArea c → s'.mem.hold c = s.mem.hold c := by
  rw [hi.kfree_eq_freeBlock hva] at hs
  exact hi.freeBlock hva hs

theorem Inv.kfree_block_some (hi : Inv all boot handed F s L client lost) (hva : va ∈ client) : ∃ s', s.kfree va = some s' := by
  rw [hi.kfree_eq_freeBlock hva]
  exact hi.blocks.freeBlock_some hi.accounts (by simp [hva])

/-- `kfree` of an allocated region, seen from the pointer -/
theorem Inv.kfree_region (hi : Inv all boot handed F s L client lost) (hva : va ∈ (L .allocated).map s.bulks.start) :
    s.kfree va = s.freeRegion va := by
  have hbounds := hi.start_ge hva
  have hend : u32 (kernelHeapStart + dynAllocMaxSize) = 4160749568 := rfl
  unfold KHeap.kfree
  rw [if_neg (by omega), if_neg (by simp only [kernelHeapStart, kernelHeapMax]; omega), hend,
    if_neg (by simp only [kernelHeapStart]; omega), hi.page_start, if_pos (by simp only [kernelHeapMax]; omega)]

/-- The heap after `kheap_init`, when no page of it is mapped. -/
theorem kheapInit_inv (ha : m.Accounts all boot F handed) (hnone : ∀ p, m.hold (.kernel p) = none)
    (hs : kheapInit { mem := m } = some s') : Inv all boot handed F s' (fun _ => []) [] [] ∧ s'.mem = m := by
  obtain ⟨d, hd, rfl⟩ := Option.map_eq_some_iff.mp hs
  have hend : u32 (kernelHeapStart + dynAllocMaxSize) = 4160749568 := rfl
  rw [hend] at hd
  obtain ⟨hinv, hds, hde⟩ := DynAlloc.initializeDynamicAllocator_inv (by decide) (by decide) (by decide) (by decide)
    (by decide) hd
  have hps : u32 (d.dynAllocEnd + pageSize) = 4160753664 := by
    rw [hde]
    rfl
  have hempty : ∀ c, PageArea c → m.hold c = none := by
    rintro c ⟨p, rfl, -⟩
    exact hnone p
  refine ⟨⟨⟨ha, ⟨hds, hde, _, _, _, hinv, fun i _ => iff_of_true (hnone _) rfl⟩, hps, ?_, ?_,
    ⟨fun _ => spelled_nil, fun _ => rfl, fun _ => List.nodup_nil, nofun⟩, List.Pairwise.nil, Tiles.nil _, nofun, nofun,
    fun c hc => iff_of_false (fun hne => hne (hempty c hc)) ?_⟩, nofun⟩, rfl⟩
  · simp only [hps]
    decide
  · simp only [hps]
  · rintro ⟨r, hr, -⟩
    exact nomatch hr

/-- What the heap does not depend on: which frames are handed out, and the entries that are not of the kernel. -/
theorem Inv.congr_mem (hi : Inv all boot handed F s L client lost) {all' F' handed' : List PageNo} {boot' : PageNo → Nat}
    (ha : m.Accounts all' boot' F' handed') (hhold : ∀ p, m.hold (.kernel p) = s.mem.hold (.kernel p)) :
    Inv all' boot' handed' F' { s with mem := m } L client lost := by
  refine ⟨⟨ha, hi.blocks.congr rfl ?_, hi.page_start, hi.break_le, hi.break_aligned, hi.spells, hi.sorted, hi.tiles, hi.aligned,
    hi.coalesced, fun c hc => ?_⟩, hi.top⟩
  · rintro c ⟨p, rfl, -⟩
    exact hhold p
  · obtain ⟨p, rfl, -⟩ := id hc
    rw [hhold p]
    exact hi.mapped _ hc

/-! ### The pointers that are out -/

/-- The allocation finds a free region of exactly the size that it needs. -/
def ExactFit (s : KHeap) (size : Nat) : Prop :=
  2048 < size ∧ ∃ L, s.bulks.Spells L ∧ ∃ b ∈ L .free, s.bulks.size b = roundUp size pageSize

theorem Inv.exactFit_iff (hi : Inv all boot handed F s L client lost) (hsize : 2048 < size) :
    s.ExactFit size ↔ ∃ b, s.exactFit (roundUp size pageSize) = some (some b) := by
  rcases hi.exactFit_cases (roundUp size pageSize) with ⟨b, hb, hb', hfit⟩ | ⟨hnone, hfit⟩
  · exact iff_of_true ⟨hsize, L, hi.spells, b, hb, hb'⟩ ⟨b, hfit⟩
  · refine iff_of_false ?_ (by simp [hfit])
    rintro ⟨-, L', hspells, b, hb, hb'⟩
    rw [hspells.unique hi.spells .free] at hb
    exact hnone b hb hb'

/-- The heap is in order and the pointers `ptrs` are out: those of the block area are blocks, the others are the
    starts of the allocated regions. -/
def Owned (all : List PageNo) (boot : PageNo → Nat) (handed F : List PageNo) (s : KHeap) (ptrs lost : List Nat) : Prop :=
  ∃ L, Inv all boot handed F s L (ptrs.filter (· < 4160749568)) lost ∧
    ((L .allocated).map s.bulks.start).Perm (ptrs.filter (4160749568 ≤ ·))

/-- The pages that the heap maps and unmaps. -/
def HeapArea (c : Slot) : Prop := BlockArea c ∨ PageArea c

variable {ptrs : List Nat}

theorem filter_cons_block (hva : va < 4160749568) (l : List Nat) :
    (va :: l).filter (· < 4160749568) = va :: l.filter (· < 4160749568) ∧
      (va :: l).filter (4160749568 ≤ ·) = l.filter (4160749568 ≤ ·) := by
  have : ¬ 4160749568 ≤ va := by omega
  simp [hva, this]

theorem filter_cons_region (hva : 4160749568 ≤ va) (l : List Nat) :
    (va :: l).filter (· < 4160749568) = l.filter (· < 4160749568) ∧
      (va :: l).filter (4160749568 ≤ ·) = va :: l.filter (4160749568 ≤ ·) := by
  have : ¬ va < 4160749568 := by omega
  simp [hva, this]

theorem Owned.perm {ptrs' : List Nat} (h : Owned all boot handed F s ptrs lost) (hp : ptrs.Perm ptrs') :
    Owned all boot handed F s ptrs' lost := by
  obtain ⟨L, hinv, hstarts⟩ := h
  exact ⟨L, hinv.perm_client (hp.filter _), hstarts.trans (hp.filter _)⟩

/-- The pointers are distinct. -/
theorem Owned.nodup (h : Owned all boot handed F s ptrs lost) : ptrs.Nodup := by
  obtain ⟨L, hinv, hstarts⟩ := h
  have hblocks : (ptrs.filter (· < 4160749568)).Nodup :=
    (List.nodup_append.mp (List.nodup_append.mp (List.nodup_append.mp hinv.blocks.nodup).2.1).2.1).1
  have hregions : ((L .allocated).map s.bulks.start).Nodup := by
    have htiles := (List.nodup_append.mp hinv.tiles.nodup).2.1
    refine List.Nodup.map_on (fun x hx y hy hxy => ?_) (hinv.spells.nodup .allocated)
    have heq := hinv.tiles.eq_of_start (List.mem_append_right _ (List.mem_map_of_mem hx))
      (List.mem_append_right _ (List.mem_map_of_mem hy)) hxy
    exact List.inj_on_of_nodup_map htiles hx hy heq
  refine (List.filter_append_perm (· < 4160749568) ptrs).nodup (List.nodup_append.mpr ⟨hblocks, ?_, ?_⟩)
  · simpa only [← decide_not, Nat.not_lt] using hstarts.nodup hregions
  · rintro p hp q hq rfl
    simp only [List.mem_filter, decide_eq_true_eq, Bool.not_eq_true', decide_eq_false_iff_not] at hp hq
    exact hq.2 hp.2

/-- What a call of `kmalloc` did: the pointer is out, a node is lost exactly when the allocation fits exactly, and only
    empty entries of the heap were mapped, among them the page of a region. -/
structure Kmalloced (all : List PageNo) (boot : PageNo → Nat) (handed F : List PageNo) (s s' : KHeap)
    (ptrs lost lost' : List Nat) (size va : Nat) : Prop where
  owned : ∃ F', Owned all boot handed F' s' (if va = 0 then ptrs else va :: ptrs) lost'
  loses : ¬ s.ExactFit size ∧ lost' = lost ∨ s.ExactFit size ∧ ∃ b, lost' = b :: lost
  mapped : Mapped s.mem s'.mem F HeapArea
  page : 2048 < size → va ≠ 0 → 4160753664 ≤ va ∧ s.mem.hold (.kernel (pageNo va)) = none ∧
    s'.mem.hold (.kernel (pageNo va)) ≠ none
  block : size ≤ 2048 → va < 4160749568

theorem Owned.kmalloc (h : Owned all boot handed F s ptrs lost) (hsize : size ≤ 4294963200)
    (hs : s.kmalloc size = some (s', va)) : ∃ lost', Kmalloced all boot handed F s s' ptrs lost lost' size va := by
  obtain ⟨L, hinv, hstarts⟩ := h
  rcases hinv.kmalloc hsize hs with ⟨rfl, rfl, hnone⟩ | ⟨hle, ⟨F', hinv'⟩, hbulks, hmap⟩ | ⟨hlt, lost', hgrant, hlost⟩
  · refine ⟨lost, ⟨F, L, hinv, hstarts⟩, .inl ⟨fun hfit => ?_, rfl⟩, .refl _ _ _, fun _ hne => absurd rfl hne, fun _ => by decide⟩
    obtain ⟨b, hb⟩ := (hinv.exactFit_iff hfit.1).mp hfit
    rw [hnone hfit.1] at hb
    cases hb
  · have hbounds := hinv'.blocks.bounds (b := va) (by simp)
    have hva : va ≠ 0 := by
      simp only [kernelHeapStart] at hbounds
      omega
    obtain ⟨h₁, h₂⟩ := filter_cons_block hbounds.2 ptrs
    refine ⟨lost, ⟨F', L, ?_, ?_⟩, .inl ⟨fun hfit => absurd hfit.1 (by omega), rfl⟩, hmap.mono fun c => .inl, by omega,
      fun _ => hbounds.2⟩
    · rw [if_neg hva, h₁]
      exact hinv'
    · rw [if_neg hva, h₂, hbulks]
      exact hstarts
  · have hbounds := hgrant.bounds
    have hva : va ≠ 0 := by omega
    have hge : 4160749568 ≤ va := by omega
    obtain ⟨h₁, h₂⟩ := filter_cons_region hge ptrs
    obtain ⟨F', L', hinv', hstarts'⟩ := hgrant.inv
    have hpage : Within va (va + roundUp size pageSize) (.kernel (pageNo va)) :=
      (within_pageNo (by omega) hbounds.2.2.1).mpr (by omega)
    refine ⟨lost', ⟨F', L', ?_, ?_⟩, ?_, hgrant.mapped.mono ?_,
      fun _ _ => ⟨hbounds.1, hgrant.empty _ hpage, hgrant.present _ hpage⟩, fun hle => absurd hlt (Nat.not_lt.mpr hle)⟩
    · rw [if_neg hva, h₁]
      exact hinv'
    · rw [if_neg hva, h₂, hstarts']
      exact hstarts.cons va
    · have hiff := hinv.exactFit_iff hlt
      rcases hlost with ⟨hnone, rfl⟩ | ⟨b, hsome, rfl⟩
      · exact .inl ⟨fun hfit => by simp [hnone] at hiff; exact hiff hfit, rfl⟩
      · exact .inr ⟨hiff.mpr ⟨b, hsome⟩, b, rfl⟩
    · rintro c (⟨p, rfl, hle, hlt⟩ | hblock)
      · exact .inr ⟨p, rfl, by omega, by omega⟩
      · exact .inl hblock

/-- `kfree` of a block that is out does not panic. -/
theorem Owned.kfree_some (h : Owned all boot handed F s ptrs lost) (hva : va ∈ ptrs) (hblock : va < 4160749568) :
    ∃ s', s.kfree va = some s' := by
  obtain ⟨L, hinv, -⟩ := h
  exact hinv.kfree_block_some (List.mem_filter.mpr ⟨hva, by simpa using hblock⟩)

/-- `kfree` of a pointer that is out leaves alone what is not of the heap and the first pages of the other regions. -/
theorem Owned.kfree (h : Owned all boot handed F s ptrs lost) (hva : va ∈ ptrs) (hs : s.kfree va = some s') :
    (∃ F', Owned all boot handed F' s' (ptrs.erase va) lost) ∧ (∀ c, ¬ HeapArea c → s'.mem.hold c = s.mem.hold c) ∧
      ∀ p ∈ ptrs, p ≠ va → 4160753664 ≤ p → s'.mem.hold (.kernel (pageNo p)) = s.mem.hold (.kernel (pageNo p)) := by
  obtain ⟨L, hinv, hstarts⟩ := h
  have hperm := List.perm_cons_erase hva
  have hregion : ∀ p ∈ ptrs, 4160753664 ≤ p → ∃ b ∈ L .allocated, s.bulks.start b = p := fun p hp hle =>
    List.mem_map.mp (hstarts.mem_iff.mpr (List.mem_filter.mpr ⟨hp, by simp; omega⟩))
  have hslot : ∀ p ∈ ptrs, 4160753664 ≤ p → ¬ BlockArea (.kernel (pageNo p)) := fun p hp hle => by
    obtain ⟨b, hb, rfl⟩ := hregion p hp hle
    have hbounds := hinv.bounds_allocated hb
    intro hc
    have := (within_pageNo (by omega) hbounds.2.2.2.1).mp hc
    omega
  by_cases hblock : va < 4160749568
  · obtain ⟨h₁, h₂⟩ := filter_cons_block hblock (ptrs.erase va)
    have hmem : va ∈ ptrs.filter (· < 4160749568) := List.mem_filter.mpr ⟨hva, by simpa using hblock⟩
    obtain ⟨⟨F', hinv'⟩, hbulks, hhold⟩ := hinv.kfree_block hmem hs
    have hclient : ((ptrs.filter (· < 4160749568)).erase va).Perm ((ptrs.erase va).filter (· < 4160749568)) := by
      have := (hperm.filter (· < 4160749568)).erase va
      rwa [h₁, List.erase_cons_head] at this
    refine ⟨⟨F', L, hinv'.perm_client hclient, ?_⟩, fun c hc => hhold c fun hc' => hc (.inl hc'),
      fun p hp _ hle => hhold _ (hslot p hp hle)⟩
    rw [hbulks]
    have := hperm.filter (4160749568 ≤ ·)
    rw [h₂] at this
    exact hstarts.trans this
  · obtain ⟨h₁, h₂⟩ := filter_cons_region (Nat.le_of_not_lt hblock) (ptrs.erase va)
    have hmem : va ∈ (L .allocated).map s.bulks.start :=
      hstarts.mem_iff.mpr (List.mem_filter.mpr ⟨hva, by simp; omega⟩)
    obtain ⟨b, hb, hstart, ⟨F', L', hinv', hstarts'⟩, hhold⟩ := hinv.freeRegion hmem (hinv.kfree_region hmem ▸ hs)
    have hbounds := hinv.bounds_allocated hb
    have hclient := hperm.filter (· < 4160749568)
    rw [h₁] at hclient
    refine ⟨⟨F', L', hinv'.perm_client hclient, ?_⟩, fun c hc => hhold c ?_ fun hc' => hc (.inl hc'),
      fun p hp hne hle => hhold _ ?_ (hslot p hp hle)⟩
    · have := hperm.filter (4160749568 ≤ ·)
      rw [h₂] at this
      exact (hstarts'.symm.trans (hstarts.trans this)).cons_inv
    · rintro ⟨p, rfl, hle, hlt⟩
      exact hc (.inr ⟨p, rfl, by omega, by omega⟩)
    · -- The page of another region would make the two regions overlap.
      obtain ⟨b', hb', rfl⟩ := hregion p hp hle
      have hbounds' := hinv.bounds_allocated hb'
      rw [within_pageNo (by omega) hbounds'.2.2.2.1]
      rintro hin
      have heq : s.bulks.region b = s.bulks.region b' := by
        refine hinv.tiles.eq_of_overlap (List.mem_append_right _ (List.mem_map_of_mem hb))
          (List.mem_append_right _ (List.mem_map_of_mem hb')) ?_
        simp only [Region.Apart, Region.stop, Bulks.region]
        omega
      exact hne ((congrArg Region.start heq).symm.trans hstart)

end Fos.Heap.KHeap
