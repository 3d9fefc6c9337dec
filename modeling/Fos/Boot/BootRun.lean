import Fos.Boot.MapRange
import Fos.Lib.Reach

/-! The steps of `initialize_kernel_VM`: space is allocated, ranges are mapped, and the directory is entered into itself. In
    every state `boot_map_range` maps its range and leaves the other pages, apart from those that show the tables. -/

namespace Fos.Boot
open Lib Mem Disk BootMemory

/-! ### Bits of an entry -/

theorem getLsbD_entryPerm (e : BitVec 32) {i : Nat} (hi : i < 12) : (entryPerm e).getLsbD i = e.getLsbD i := by
  rw [entryPerm, BitVec.getLsbD_setWidth]
  simp [hi]

theorem entryPresent_eq (e : BitVec 32) : entryPresent e = e.getLsbD 0 := by
  have hone : BitVec.twoPow 12 0 ≠ 0#12 := by decide
  rw [← getLsbD_entryPerm e (by decide), entryPresent, show permPresent = BitVec.twoPow 12 0 from rfl, BitVec.and_twoPow]
  cases (entryPerm e).getLsbD 0 with
  | true => exact decide_eq_true hone
  | false => rfl

/-- Permissions that are added leave the address of an entry alone. -/
theorem extractAddress_or (e : BitVec 32) (p : BitVec 12) : extractAddress (e ||| p.setWidth 32) = extractAddress e := by
  have hmask : ∀ i < 32, (~~~0xFFF#32).getLsbD i = decide (12 ≤ i) := by decide
  unfold extractAddress
  congr 1
  apply BitVec.eq_of_getLsbD_eq
  intro i hi
  rw [BitVec.getLsbD_and, BitVec.getLsbD_and, BitVec.getLsbD_or, BitVec.getLsbD_setWidth, hmask i hi]
  by_cases h : 12 ≤ i
  · simp [BitVec.getLsbD_of_ge _ _ h]
  · simp [h]

theorem entryPresent_or {e : BitVec 32} (h : entryPresent e) (p : BitVec 12) : entryPresent (e ||| p.setWidth 32) := by
  rw [entryPresent_eq] at h ⊢
  rw [BitVec.getLsbD_or, h]
  rfl

/-! ### The steps -/

/-- The memory with `ptr_page_directory`, and whether the directory was entered into itself. -/
structure BootRun where
  memory : BootMemory
  ptrPageDirectory : Nat
  listed : Bool := false

inductive BootEvent where
  | allocateSpace (size align : Nat)
  | getPageTable (va : Nat)
  | mapRange (va size pa : Nat) (perm : BitVec 32)
  | setPagePermissions (va : Nat) (permissionsToSet permissionsToClear : BitVec 12)
  | setDirectory (va : Nat) (permissions : BitVec 12)
  | setupListing

namespace BootRun

/-- The first line of `initialize_kernel_VM` -/
def start (m : BootMemory) : BootRun where
  memory := (m.bootAllocateSpace pageSize pageSize).1
  ptrPageDirectory := (m.bootAllocateSpace pageSize pageSize).2

def step (s : BootRun) : BootEvent → Option BootRun
  | .allocateSpace size align => some { s with memory := (s.memory.bootAllocateSpace size align).1 }
  | .getPageTable va =>
    (s.memory.bootGetPageTable s.ptrPageDirectory va true).map fun (m, _) => { s with memory := m }
  | .mapRange va size pa perm =>
    (s.memory.bootMapRange s.ptrPageDirectory va size pa perm).map fun m => { s with memory := m }
  | .setPagePermissions va permissionsToSet permissionsToClear =>
    (s.memory.ptSetPagePermissions s.ptrPageDirectory va permissionsToSet permissionsToClear).map fun m => { s with memory := m }
  | .setDirectory va permissions => some { s with memory := s.memory.setDirectory s.ptrPageDirectory va permissions }
  | .setupListing =>
    (s.memory.setupListing s.ptrPageDirectory).map fun m => { s with memory := m, listed := true }

/-- The directory entries of a range -/
def touched (va size : Nat) : Finset (Fin 1024) := Finset.Icc (pdx va) (pdx (va + size - 1))

/-- What `boot_map_range` is called with: addresses of pages whose ranges do not wrap, away from the pages that show the tables,
    and there is memory for the tables that it makes. -/
structure Mappable (s : BootRun) (va size pa : Nat) : Prop where
  vaAligned : va % 4096 = 0
  paAligned : pa % 4096 = 0
  sizeLt : size < 2147483648
  vaEnd : va + roundUp size pageSize ≤ 4294967296
  paEnd : pa + roundUp size pageSize ≤ 4294967296
  away : ∀ q, va ≤ q → q < va + size → ¬ Window s.listed (pdx q)
  room : s.memory.Room s.ptrPageDirectory (touched va size)

/-- The steps that are considered: they do not run out of memory, and a single entry that is changed is not one of those that
    show the directory itself. -/
def Allowed (s : BootRun) : BootEvent → Prop
  | .allocateSpace size align => 0 < align ∧ s.memory.ptrFreeMem + align ≤ 4294967296 ∧
    roundUp s.memory.ptrFreeMem align + size ≤ s.memory.limit
  | .getPageTable va => ¬ Window s.listed (pdx va) ∧ s.memory.Room s.ptrPageDirectory {pdx va}
  | .mapRange va size pa _ => s.Mappable va size pa
  | .setPagePermissions va _ _ => ¬ Window s.listed (pdx va)
  | .setDirectory va _ => ¬ Window s.listed (pdx va) ∧ s.memory.pde s.ptrPageDirectory (pdx va) ≠ 0
  | .setupListing => True

/-- The kernel is in memory, and there is a page behind it for the directory. -/
structure Boots (m : BootMemory) : Prop where
  kernel : kernelBase < m.firstFree
  room : m.firstFree ≤ 4294963200 ∧ roundUp m.firstFree pageSize + 4096 ≤ m.limit

end BootRun

namespace BootMemory

variable {s s' : BootMemory} {dir va size : Nat} {listed : Bool} {i : Fin 1024}

theorem wholePages_eq (hsize : size < 2147483648) : wholePages size = roundUp size pageSize := by
  have h : u32 (size + 4096 - 1) = size + 4095 := u32_of_lt (by omega)
  unfold wholePages
  simp only [roundUp, roundDown, pageSize, h]
  omega

theorem mem_touched {q : Nat} (hle : va ≤ q) (hlt : q < va + size) (hend : va + size ≤ 4294967296) : pdx q ∈ BootRun.touched va size := by
  rw [BootRun.touched, Finset.mem_Icc, Fin.le_def, Fin.le_def]
  simp only [pdx, Fin.ofNat]
  omega

/-- `boot_map_range` maps its range, and leaves room for the tables that are still missing. -/
theorem Built.bootMapRange {s : BootRun} {pa : Nat} {T : Finset (Fin 1024)} (h : Built s.memory s.ptrPageDirectory s.listed)
    (hm : s.Mappable va size pa) (hT : BootRun.touched va size ⊆ T) (hroom : s.memory.Room s.ptrPageDirectory T) (perm : BitVec 32) :
    ∃ t, s.memory.bootMapRange s.ptrPageDirectory va size pa perm = some t ∧
      RangeMapped s.memory t s.ptrPageDirectory s.listed T va pa size perm := by
  have hsize := hm.sizeLt
  have hround := wholePages_eq hsize
  have hvaend := hm.vaEnd
  have hpaend := hm.paEnd
  rw [← hround] at hvaend hpaend
  have hle : size ≤ wholePages size := by
    unfold wholePages
    omega
  exact h.mapLoop walkFuel hm.vaAligned (i := 0) rfl (by omega) hsize hvaend hpaend
    (fun q hge hlt => ⟨hm.away q hge hlt, hT (mem_touched hge hlt (by omega))⟩) hroom (by simp only [walkFuel]; omega) perm

/-! ### Every step keeps the directory -/

theorem Built.firstFree_eq (h : Built s dir listed) : s.firstFree = s.ptrFreeMem := by
  have hplace := h.place
  exact if_neg (by omega)

theorem le_roundUp {n a : Nat} (ha : 0 < a) (hsum : n + a ≤ 4294967296) : n ≤ roundUp n a := by
  have h : u32 (n + a - 1) = n + a - 1 := u32_of_lt (by omega)
  have hmod := Nat.mod_lt (n + a - 1) ha
  simp only [roundUp, roundDown, h]
  omega

theorem Built.allocate {align : Nat} (h : Built s dir listed) (halign : 0 < align) (hsum : s.ptrFreeMem + align ≤ 4294967296)
    (hend : roundUp s.ptrFreeMem align + size ≤ s.limit) : Built (s.bootAllocateSpace size align).1 dir listed := by
  have hle := le_roundUp halign hsum
  have hbehind := h.behind
  have hlimit : s.limit ≤ 4294963200 := Nat.min_le_right ..
  generalize hptr : roundUp s.ptrFreeMem align = ptr at *
  have hspace : s.bootAllocateSpace size align = (s.take ptr size, ptr) :=
    bootAllocateSpace_eq (h.firstFree_eq.symm ▸ hptr) (by omega)
  have hpde : ∀ i, (s.take ptr size).pde dir i = s.pde dir i := fun i => by
    have hi := i.isLt
    exact read_take_of_apart (by omega) (by omega) (by omega)
  rw [hspace]
  refine h.mono id ?_ ?_ (fun i hi => h.sameTable hi (hpde i)) fun hl => (hpde (pdx vpt)).trans (h.listing hl)
  · rw [ptrFreeMem_take]
    omega
  · unfold limit at hend ⊢
    rw [ptrFreeMem_take, numberOfFrames_take]
    exact hend

/-- The entry of a page is in the table that the directory names. -/
theorem Built.setPagePermissions {permissionsToSet permissionsToClear : BitVec 12} (h : Built s dir listed)
    (hi : ¬ Window listed (pdx va)) (hs : s.ptSetPagePermissions dir va permissionsToSet permissionsToClear = some s') :
    Built s' dir listed := by
  unfold ptSetPagePermissions at hs
  split at hs
  · next hpresent =>
    have ht : s.IsTable dir (pdx va) := (h.table _ hi).resolve_left fun hzero => by
      rw [show s.read (pdeAt dir va) = 0 from hzero, entryPresent_zero] at hpresent
      exact nomatch hpresent
    rw [h.virtual_table ht, Option.map_some, Option.some.injEq] at hs
    rw [← hs]
    exact (h.write_table hi ht (ptx va) _).2.1
  · exact nomatch hs

/-- Permissions that are added to an entry of the directory leave its table. -/
theorem Built.setDirectory {permissions : BitVec 12} (h : Built s dir listed) (hi : ¬ Window listed (pdx va))
    (hne : s.pde dir (pdx va) ≠ 0) : Built (s.setDirectory dir va permissions) dir listed := by
  have ht := (h.table _ hi).resolve_left hne
  have hplace := h.place
  have hpde := fun k => pde_write (s := s) h.aligned (by omega) (pdx va) k (s.pde dir (pdx va) ||| permissions.setWidth 32)
  refine h.mono id le_rfl h.room (fun k hk => ?_) fun hl => ?_
  · by_cases heq : k = pdx va
    · have hentry := (hpde k).trans (if_pos heq)
      refine .inr ⟨heq ▸ ht, ?_, ?_⟩
      · exact hentry.symm ▸ entryPresent_or ht.present permissions
      · have haddr : (s.setDirectory dir va permissions).tableAddr dir k =
            extractAddress (s.pde dir (pdx va) ||| permissions.setWidth 32) + kernelBase :=
          congrArg (extractAddress · + kernelBase) hentry
        rw [haddr, extractAddress_or, heq]
        rfl
    · exact h.sameTable hk ((hpde k).trans (if_neg heq))
  · have hvpt : pdx vpt ≠ pdx va := fun heq => hi ⟨hl, .inl heq.symm⟩
    exact ((hpde (pdx vpt)).trans (if_neg hvpt)).trans (h.listing hl)

/-- The directory is entered into itself, in place of what the two entries named. -/
theorem Built.setupListing (h : Built s dir listed) : ∃ t, s.setupListing dir = some t ∧ t.ptrFreeMem = s.ptrFreeMem ∧
    t.numberOfFrames = s.numberOfFrames ∧ (∀ k, ¬ Window true k → t.pde dir k = s.pde dir k) ∧ Built t dir true := by
  have hplace := h.place
  generalize hfirst : entryOf (dir - kernelBase) (permPresent ||| permWriteable) = first
  generalize hsecond : entryOf (dir - kernelBase) (permUser ||| permPresent) = second
  have hvpt : pdx vpt ≠ pdx uvpt := by decide
  have hpde := fun k => pde_write (s := s) h.aligned (by omega) (pdx vpt) k first
  have hwritten := fun k => pde_write (s := s.write (pdeAt dir vpt) first) h.aligned (by omega) (pdx uvpt) k second
  have hothers : ∀ k, ¬ Window true k →
      ((s.write (pdeAt dir vpt) first).write (pdeAt dir uvpt) second).pde dir k = s.pde dir k := fun k hk => by
    have hkept := (hwritten k).trans (if_neg fun heq => hk ⟨rfl, .inr heq⟩)
    exact hkept.trans ((hpde k).trans (if_neg fun heq => hk ⟨rfl, .inl heq⟩))
  refine ⟨(s.write (pdeAt dir vpt) first).write (pdeAt dir uvpt) second, ?_, rfl, rfl, hothers, ?_⟩
  · unfold BootMemory.setupListing staticKernelPhysicalAddress
    rw [if_neg (by omega), ← hfirst, ← hsecond]
    rfl
  · refine h.mono (fun _ => rfl) le_rfl h.room (fun k hk => h.sameTable (fun hw => hk ⟨rfl, hw.2⟩) (hothers k hk)) fun _ => ?_
    refine (hwritten (pdx vpt)).trans ((if_neg hvpt).trans ?_)
    rw [hfirst]
    exact (hpde (pdx vpt)).trans (if_pos rfl)

/-- The pages of `VPT` show the tables: the page of a number is the table of the entry of that number. -/
theorem Built.walk_window {q : Nat} (h : Built s dir true) (hq : pdx q = pdx vpt) :
    s.walk dir q = decode (s.pde dir (ptx q)) q := by
  have hplace := h.place
  have haligned : (dir - kernelBase) % 4096 = 0 := by
    simp only [kernelBase]
    omega
  have hentry : s.pde dir (pdx q) = entryOf (dir - kernelBase) (permPresent ||| permWriteable) := hq ▸ h.listing rfl
  have haddr : s.tableAddr dir (pdx q) = dir := by
    unfold tableAddr
    rw [hentry, extractAddress_entryOf haligned (by omega)]
    omega
  have hperm : entryPerm (s.pde dir (pdx q)) = permWriteable ||| permPresent := by
    rw [hentry, entryPerm_entryOf haligned (by omega)]
    decide
  rw [walk_present (entryPresent_of_perm hperm) (by omega), haddr]
  rfl

theorem pde_present {q : Nat} (h : s.walk dir q ≠ none) : entryPresent (s.pde dir (pdx q)) := by
  by_contra hnot
  refine h ?_
  unfold walk
  exact if_neg hnot

theorem missing_le_card (s : BootMemory) (dir : Nat) (T : Finset (Fin 1024)) : s.missing dir T ≤ T.card := Finset.card_filter_le ..

/-- The first directory is empty. -/
theorem built_start {m : BootMemory} (hm : BootRun.Boots m) :
    (BootRun.start m).memory = m.take (roundUp m.firstFree pageSize) pageSize ∧
      (BootRun.start m).ptrPageDirectory = roundUp m.firstFree pageSize ∧
      Built (BootRun.start m).memory (BootRun.start m).ptrPageDirectory false ∧
      ∀ i, (BootRun.start m).memory.pde (BootRun.start m).ptrPageDirectory i = 0 := by
  have hkernel := hm.kernel
  obtain ⟨hfree, hroom⟩ := hm.room
  have hlimit : m.limit ≤ 4294963200 := Nat.min_le_right ..
  obtain ⟨haligned, hle, -⟩ := roundUp_page hfree
  generalize hptr : roundUp m.firstFree pageSize = ptr at *
  have hspace : m.bootAllocateSpace pageSize pageSize = (m.take ptr pageSize, ptr) :=
    bootAllocateSpace_eq hptr (by simp only [pageSize]; omega)
  have hmemory : (BootRun.start m).memory = m.take ptr pageSize := congrArg Prod.fst hspace
  have hdir : (BootRun.start m).ptrPageDirectory = ptr := congrArg Prod.snd hspace
  rw [hmemory, hdir]
  have hzero : ∀ i, (m.take ptr pageSize).pde ptr i = 0 := fun i => by
    have hi := i.isLt
    exact read_take (by simp only [pageSize]; omega) (by omega) (by simp only [pageSize]; omega)
  refine ⟨rfl, rfl, ⟨haligned, by omega, le_rfl, ?_, fun i _ => .inl (hzero i), fun i j _ _ hti _ _ => ?_, fun h => by cases h⟩, hzero⟩
  · unfold limit at hroom ⊢
    rw [ptrFreeMem_take, numberOfFrames_take]
    exact hroom
  · exact absurd (hzero i) hti.ne_zero

end BootMemory

namespace BootRun

variable {m : BootMemory} {s t : BootRun} {va size pa : Nat}

theorem step_built {e : BootEvent} (h : Built s.memory s.ptrPageDirectory s.listed) (hok : s.Allowed e) (hs : s.step e = some t) :
    Built t.memory t.ptrPageDirectory t.listed := by
  cases e with
  | allocateSpace size align =>
    obtain ⟨halign, hsum, hend⟩ := hok
    cases hs
    exact h.allocate halign hsum hend
  | getPageTable va =>
    obtain ⟨hi, hroom⟩ := hok
    obtain ⟨m', hget, hm'⟩ := h.getTable hi (Finset.mem_singleton_self _) hroom
    rw [step, hget] at hs
    cases hs
    exact hm'.built
  | mapRange va size pa perm =>
    obtain ⟨m', hmap, hm'⟩ := h.bootMapRange hok subset_rfl hok.room perm
    rw [step, hmap] at hs
    cases hs
    exact hm'.built
  | setPagePermissions va permissionsToSet permissionsToClear =>
    obtain ⟨m', hm', rfl⟩ := Option.map_eq_some_iff.mp hs
    exact h.setPagePermissions hok hm'
  | setDirectory va permissions =>
    cases hs
    exact h.setDirectory hok.1 hok.2
  | setupListing =>
    obtain ⟨m', hm', -, -, -, hbuilt⟩ := h.setupListing
    rw [step, hm'] at hs
    cases hs
    exact hbuilt

theorem reach_built (hm : Boots m) (h : Reach step Allowed (start m) s) : Built s.memory s.ptrPageDirectory s.listed :=
  h.invariant (built_start hm).2.2.1 fun _ _ _ hi hok hs => step_built hi hok hs

/-- `boot_map_range` maps its pages one by one, and every other page is translated as before, apart from those that show the
    tables. -/
theorem boot_map_range_translates (hm : Boots m) (hs : Reach step Allowed (start m) s) (hmap : s.Mappable va size pa)
    (perm : BitVec 12) : ∃ t, s.memory.bootMapRange s.ptrPageDirectory va size pa (perm.setWidth 32) = some t ∧
      (∀ i < size, t.walk s.ptrPageDirectory (va + i) = some (pa + i, perm ||| permPresent)) ∧
      ∀ q < 4294967296, ¬ (va ≤ q ∧ q < va + roundUp size pageSize) → ¬ Window s.listed (pdx q) →
        t.walk s.ptrPageDirectory q = s.memory.walk s.ptrPageDirectory q := by
  have hva := hmap.vaAligned
  have hpa := hmap.paAligned
  have hvaEnd := hmap.vaEnd
  have hpaEnd := hmap.paEnd
  obtain ⟨t, ht, hrange⟩ := (reach_built hm hs).bootMapRange hmap subset_rfl hmap.room (perm.setWidth 32)
  have hround := wholePages_eq hmap.sizeLt
  have hwhole : size ≤ wholePages size := by
    unfold wholePages
    omega
  refine ⟨t, ht, fun i hi => ?_, fun q hq hout hnot => ?_⟩
  · rw [hrange.walk (va + i) (by omega) (hmap.away _ (by omega) (by omega)), if_pos (by omega), decode_mapped (by omega) (by omega)]
    rw [show pa + ((va + i) / 4096 * 4096 - va) + (va + i) % 4096 = pa + i by omega]
  · rw [hrange.walk q hq hnot, if_neg (hround ▸ hout)]

/-! ### A small machine -/

/-- 4 MB, and a kernel of 2 MB -/
def small : BootMemory := ⟨fun _ => 0, 0, kernelBase + 2097152, 1024⟩

theorem boots_small : Boots small := ⟨by decide, by decide⟩

/-- There is memory for one table. -/
theorem mappable_page {listed : Bool} (hva : va % 4096 = 0) (hlt : va < 4294963200) {memory : BootMemory} {dir : Nat}
    (haway : ¬ Window listed (pdx va)) (hroom : roundUp memory.ptrFreeMem pageSize + 4096 ≤ memory.limit) :
    Mappable ⟨memory, dir, listed⟩ va 4096 0 := by
  have hpage : ∀ q, va ≤ q → q < va + 4096 → pdx q = pdx va := fun q hge hq => by
    simp only [pdx, Fin.ofNat, Fin.mk.injEq]
    omega
  have hround : roundUp 4096 pageSize = 4096 := by decide
  refine ⟨hva, rfl, by omega, by omega, by omega, fun q hge hq => hpage q hge hq ▸ haway, ?_⟩
  have hone : (touched va 4096).card = 1 := by
    unfold touched
    rw [hpage (va + 4096 - 1) (by omega) (by omega), Finset.Icc_self, Finset.card_singleton]
  have hmissing := missing_le_card memory dir (touched va 4096)
  unfold Room
  dsimp only
  omega

theorem room_small : roundUp (start small).memory.ptrFreeMem pageSize + 4096 ≤ (start small).memory.limit := by
  have hfirst : roundUp small.firstFree pageSize = 4028628992 := by decide
  unfold limit
  rw [(built_start boots_small).1, ptrFreeMem_take, numberOfFrames_take, hfirst]
  decide

theorem mappable_small (hva : va % 4096 = 0) (hlt : va < 4294963200) : (start small).Mappable va 4096 0 :=
  mappable_page hva hlt (fun hw => nomatch hw.1) room_small

/-- The first page of the kernel is mapped, and then two pages of which the second has another table. -/
theorem boot_map_range_translates_tables : ∃ s t, (start small).step (.mapRange kernelBase 4096 0 (permWriteable.setWidth 32)) = some s ∧
    s.memory.bootMapRange s.ptrPageDirectory (kernelBase + 4190208) 8192 1048576 (permUser.setWidth 32) = some t ∧
    pdx (kernelBase + 4190208) = pdx kernelBase ∧ pdx (kernelBase + 4190208 + 4096) ≠ pdx kernelBase ∧
    (∀ i < 8192, t.walk s.ptrPageDirectory (kernelBase + 4190208 + i) = some (1048576 + i, permUser ||| permPresent)) ∧
    ∀ q < 4294967296, ¬ (kernelBase + 4190208 ≤ q ∧ q < kernelBase + 4190208 + roundUp 8192 pageSize) → ¬ Window s.listed (pdx q) →
      t.walk s.ptrPageDirectory q = s.memory.walk s.ptrPageDirectory q := by
  obtain ⟨hmemory, hdir, hbuilt, -⟩ := built_start boots_small
  have hfirst : roundUp small.firstFree pageSize = 4028628992 := by decide
  have hroom : (start small).memory.Room (start small).ptrPageDirectory (touched (kernelBase + 4190208) 8192) := by
    have hmissing := missing_le_card (start small).memory (start small).ptrPageDirectory (touched (kernelBase + 4190208) 8192)
    rw [show (touched (kernelBase + 4190208) 8192).card = 2 by decide] at hmissing
    have hfree : roundUp (start small).memory.ptrFreeMem pageSize = 4028633088 := by
      rw [hmemory, ptrFreeMem_take, hfirst]
      decide
    have hlimit : (start small).memory.limit = small.limit := by
      unfold limit
      rw [hmemory, numberOfFrames_take]
    unfold Room
    rw [hfree, hlimit, show small.limit = 4030726144 by decide]
    omega
  have hmap₀ : (start small).Mappable kernelBase 4096 0 := mappable_small (by decide) (by decide)
  obtain ⟨m, hm, hmapped⟩ := hbuilt.bootMapRange hmap₀ (T := touched (kernelBase + 4190208) 8192) (by decide) hroom
    (permWriteable.setWidth 32)
  have hs : (start small).step (.mapRange kernelBase 4096 0 (permWriteable.setWidth 32)) =
      some { (start small) with memory := m } := by
    rw [step, hm]
    rfl
  have hmap : Mappable { (start small) with memory := m } (kernelBase + 4190208) 8192 1048576 :=
    ⟨by decide, by decide, by decide, by decide, by decide, fun _ _ _ hw => absurd hw.1 Bool.false_ne_true, hmapped.room⟩
  obtain ⟨t, ht, hwalk, hothers⟩ := boot_map_range_translates boots_small
    (.step (.mapRange kernelBase 4096 0 (permWriteable.setWidth 32)) .init hmap₀ hs) hmap permUser
  exact ⟨_, t, hs, ht, by decide, by decide, hwalk, hothers⟩

/-- The small machine after the directory was entered into itself: `UENVS` has no table yet. -/
theorem listed_small : ∃ m, (start small).step .setupListing = some ⟨m, (start small).ptrPageDirectory, true⟩ ∧
    Built m (start small).ptrPageDirectory true ∧ m.pde (start small).ptrPageDirectory (pdx uenvs) = 0 ∧
    ¬ Window true (pdx uenvs) ∧ Mappable ⟨m, (start small).ptrPageDirectory, true⟩ uenvs 4096 0 := by
  obtain ⟨-, -, hbuilt, hzero⟩ := built_start boots_small
  obtain ⟨m, hm, hptr, hframes, hpde, hlisted⟩ := hbuilt.setupListing
  have haway : ¬ Window true (pdx uenvs) := by
    unfold Window
    decide
  have hroom : roundUp m.ptrFreeMem pageSize + 4096 ≤ m.limit := by
    unfold limit
    rw [hptr, hframes]
    exact room_small
  refine ⟨m, ?_, hlisted, (hpde _ haway).trans (hzero _), haway, mappable_page (by decide) (by decide) haway hroom⟩
  unfold step
  rw [hm]
  rfl

/-- The page of `VPT` that shows the table of `UENVS` appears when that table is made, and a permission that is not among the low
    12 bits falls into the address. -/
theorem boot_map_range_elsewhere : (∃ s t q, Reach step Allowed (start small) s ∧ s.Mappable uenvs 4096 0 ∧
      s.memory.bootMapRange s.ptrPageDirectory uenvs 4096 0 (permUser.setWidth 32) = some t ∧
      q < 4294967296 ∧ ¬ (uenvs ≤ q ∧ q < uenvs + roundUp 4096 pageSize) ∧
      t.walk s.ptrPageDirectory q ≠ s.memory.walk s.ptrPageDirectory q) ∧
    ∃ t, (start small).memory.bootMapRange (start small).ptrPageDirectory kernelBase 4096 0 0x1000#32 = some t ∧
      t.walk (start small).ptrPageDirectory kernelBase = some (4096, permPresent) := by
  constructor
  · obtain ⟨m, hm, hlisted, hzero, haway, hmap⟩ := listed_small
    obtain ⟨t, ht, hrange⟩ := Built.bootMapRange hlisted hmap subset_rfl hmap.room (permUser.setWidth 32)
    refine ⟨⟨m, _, true⟩, t, vpt + 4096 * (pdx uenvs).val, .step .setupListing .init trivial hm, hmap, ht, by decide, by decide, ?_⟩
    have hq : pdx (vpt + 4096 * (pdx uenvs).val) = pdx vpt := by decide
    have hnumber : ptx (vpt + 4096 * (pdx uenvs).val) = pdx uenvs := by decide
    have hwalk : t.walk (start small).ptrPageDirectory uenvs ≠ none := by
      rw [hrange.walk uenvs (by decide) haway, if_pos (by decide), decode_mapped (by decide) (by decide)]
      exact Option.some_ne_none _
    rw [hrange.built.walk_window hq, hlisted.walk_window hq, hnumber]
    unfold decode
    rw [if_pos (pde_present hwalk), hzero, entryPresent_zero]
    exact Option.some_ne_none _
  · have hmap : (start small).Mappable kernelBase 4096 0 := mappable_small (by decide) (by decide)
    obtain ⟨t, ht, hrange⟩ := Built.bootMapRange (built_start boots_small).2.2.1 hmap subset_rfl hmap.room 0x1000#32
    refine ⟨t, ht, ?_⟩
    rw [hrange.walk kernelBase (by decide) (fun hw => nomatch hw.1), if_pos (by decide)]
    decide

end BootRun

end Fos.Boot
