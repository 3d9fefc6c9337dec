import Fos.Boot.BootMemory
import Mathlib.Data.Finset.Card
import Mathlib.Order.Interval.Finset.Fin

/-! `boot_map_range` builds the translation that it is asked for. The directory and its tables are in space that was allocated,
    every table is of one entry of the directory, and a table that is made on the way starts empty. -/

namespace Fos.Boot
open Lib Mem Disk Str

variable {pa : Nat} {perm : BitVec 12}

/-! ### Entries -/

theorem extractAddress_eq (e : BitVec 32) : extractAddress e = e.toNat / 4096 * 4096 := by
  have hshift : e &&& ~~~0xFFF#32 = (e >>> 12) <<< 12 := by
    apply BitVec.eq_of_getLsbD_eq
    intro i hi
    have hmask : (0xFFF#32).getLsbD i = decide (i < 12) := by
      rw [show (0xFFF#32) = (BitVec.allOnes 12).setWidth 32 by decide, BitVec.getLsbD_setWidth, BitVec.getLsbD_allOnes]
      simp [hi]
    rw [BitVec.getLsbD_and, BitVec.getLsbD_not, hmask, BitVec.getLsbD_shiftLeft, BitVec.getLsbD_ushiftRight]
    by_cases h : i < 12
    · simp [h]
    · simp [h, hi, show 12 + (i - 12) = i by omega]
  have hlt := e.isLt
  rw [extractAddress, hshift, BitVec.toNat_shiftLeft, BitVec.toNat_ushiftRight, Nat.shiftRight_eq_div_pow, Nat.shiftLeft_eq]
  omega

theorem entryOf_toNat (hpa : pa % 4096 = 0) (hlt : pa < 4294967296) (perm : BitVec 12) :
    (entryOf pa perm).toNat = pa + perm.toNat := by
  have hperm := perm.isLt
  have hshift : pa = (pa / 4096) <<< 12 := by
    rw [Nat.shiftLeft_eq]
    omega
  have hor : pa ||| perm.toNat = pa + perm.toNat := by
    rw [hshift]
    exact (Nat.shiftLeft_add_eq_or_of_lt hperm _).symm
  rw [entryOf, constructEntry, BitVec.toNat_or, BitVec.toNat_ofNat, BitVec.toNat_setWidth, Nat.mod_eq_of_lt hlt,
    Nat.mod_eq_of_lt (by omega), hor]

theorem extractAddress_entryOf (hpa : pa % 4096 = 0) (hlt : pa < 4294967296) : extractAddress (entryOf pa perm) = pa := by
  have hperm := perm.isLt
  rw [extractAddress_eq, entryOf_toNat hpa hlt]
  omega

theorem entryPerm_entryOf (hpa : pa % 4096 = 0) (hlt : pa < 4294967296) : entryPerm (entryOf pa perm) = perm := by
  have hperm := perm.isLt
  apply BitVec.eq_of_toNat_eq
  rw [entryPerm, BitVec.toNat_setWidth, entryOf_toNat hpa hlt]
  omega

theorem entryPresent_of_perm {e : BitVec 32} (h : entryPerm e = perm ||| permPresent) : entryPresent e := by
  unfold entryPresent
  have habsorb : (perm ||| permPresent) &&& permPresent = permPresent := by
    ext i hi
    rw [BitVec.getElem_and, BitVec.getElem_or]
    cases perm[i] <;> cases permPresent[i] <;> rfl
  rw [h, habsorb]
  decide

theorem entryPresent_zero : entryPresent 0 = false := by decide

/-! ### Words -/

namespace BootMemory

variable {s : BootMemory} {a b : Nat}

/-- A word outside of a range that is overwritten. -/
theorem load_overwrite_apart (m : Memory 32) {n : Nat} {f : Nat → UInt8} (ha : a + 4 ≤ 4294967296) (hb : b + n ≤ 4294967296)
    (h : a + 4 ≤ b ∨ b + n ≤ a) :
    (m.overwrite (BitVec.ofNat 32 b) n f).load 32 (BitVec.ofNat 32 a) = m.load 32 (BitVec.ofNat 32 a) := by
  refine Memory.load_overwrite fun i hi => ?_
  rw [BitVec.toNat_sub, BitVec.toNat_add, BitVec.toNat_ofNat, BitVec.toNat_ofNat, BitVec.toNat_ofNat]
  omega

@[simp] theorem ptrFreeMem_write (s : BootMemory) (a : Nat) (e : BitVec 32) : (s.write a e).ptrFreeMem = s.ptrFreeMem := rfl

@[simp] theorem numberOfFrames_write (s : BootMemory) (a : Nat) (e : BitVec 32) :
    (s.write a e).numberOfFrames = s.numberOfFrames := rfl

theorem read_write_self (s : BootMemory) (a : Nat) (e : BitVec 32) : (s.write a e).read a = e :=
  Memory.load_store (by decide) (by decide) e

theorem read_write_of_ne (e : BitVec 32) (ha : a % 4 = 0) (hb : b % 4 = 0) (hla : a < 4294967296) (hlb : b < 4294967296) (h : b ≠ a) :
    (s.write a e).read b = s.read b := by
  unfold write read Memory.store
  exact load_overwrite_apart s.mem (by omega) (by omega) (by omega)

/-- `size` bytes of zeros are taken at `ptr`. -/
def take (s : BootMemory) (ptr size : Nat) : BootMemory :=
  { s with ptrFreeMem := ptr + size, mem := s.mem.overwrite (BitVec.ofNat 32 ptr) size fun _ => 0 }

@[simp] theorem ptrFreeMem_take (s : BootMemory) (ptr size : Nat) : (s.take ptr size).ptrFreeMem = ptr + size := rfl

@[simp] theorem numberOfFrames_take (s : BootMemory) (ptr size : Nat) : (s.take ptr size).numberOfFrames = s.numberOfFrames := rfl

/-- Where the free memory starts -/
def firstFree (s : BootMemory) : Nat := if s.ptrFreeMem = 0 then s.endOfKernel else s.ptrFreeMem

theorem bootAllocateSpace_eq {ptr size align : Nat} (hptr : roundUp s.firstFree align = ptr) (hend : ptr + size < 4294967296) :
    s.bootAllocateSpace size align = (s.take ptr size, ptr) := by
  unfold firstFree at hptr
  unfold bootAllocateSpace take
  rw [hptr]
  dsimp only
  rw [u32_of_lt hend, memset_zero, BitVec.toNat_ofNat, Nat.mod_eq_of_lt (by omega)]

theorem read_take_of_apart {ptr size : Nat} (hend : ptr + size < 4294967296) (ha : a + 4 ≤ 4294967296)
    (h : a + 4 ≤ ptr ∨ ptr + size ≤ a) : (s.take ptr size).read a = s.read a := load_overwrite_apart s.mem ha (by omega) h

/-- The new space is zero. -/
theorem read_take {ptr size : Nat} (hend : ptr + size < 4294967296) (hle : ptr ≤ a) (hge : a + 4 ≤ ptr + size) :
    (s.take ptr size).read a = 0 := by
  refine Memory.load_eq_zero fun i hi => ?_
  have hinside : (BitVec.ofNat 32 a + BitVec.ofNat 32 i - BitVec.ofNat 32 ptr).toNat < size := by
    rw [BitVec.toNat_sub, BitVec.toNat_add, BitVec.toNat_ofNat, BitVec.toNat_ofNat, BitVec.toNat_ofNat]
    omega
  exact Memory.overwrite_of_lt (m := s.mem) (f := fun _ => 0) hinside

/-! ### Directories -/

/-- The entries that show the directory itself -/
def Window (listed : Bool) (i : Fin 1024) : Prop := listed = true ∧ (i = pdx vpt ∨ i = pdx uvpt)

/-- The end of the memory that can be allocated -/
def limit (s : BootMemory) : Nat := min (kernelBase + s.numberOfFrames * 4096) 4294963200

def pde (s : BootMemory) (dir : Nat) (i : Fin 1024) : BitVec 32 := s.read (dir + 4 * i.val)

/-- The address of the table of an entry -/
def tableAddr (s : BootMemory) (dir : Nat) (i : Fin 1024) : Nat := extractAddress (s.pde dir i) + kernelBase

/-- The entry names a table between the directory and the free memory. -/
structure IsTable (s : BootMemory) (dir : Nat) (i : Fin 1024) : Prop where
  present : entryPresent (s.pde dir i)
  behind : dir + 4096 ≤ s.tableAddr dir i
  below : s.tableAddr dir i + 4096 ≤ s.ptrFreeMem

/-- A directory that the boot built. If it is listed, it is entered into itself. -/
structure Built (s : BootMemory) (dir : Nat) (listed : Bool) : Prop where
  aligned : dir % 4096 = 0
  base : kernelBase < dir
  behind : dir + 4096 ≤ s.ptrFreeMem
  room : s.ptrFreeMem ≤ s.limit
  table : ∀ i, ¬ Window listed i → s.pde dir i = 0 ∨ s.IsTable dir i
  distinct : ∀ i j, ¬ Window listed i → ¬ Window listed j → s.IsTable dir i → s.IsTable dir j →
    s.tableAddr dir i = s.tableAddr dir j → i = j
  listing : listed = true → s.read (pdeAt dir vpt) = entryOf (dir - kernelBase) (permPresent ||| permWriteable)

variable {s' : BootMemory} {dir : Nat} {listed : Bool} {i j : Fin 1024} {va q size : Nat}

/-- Where the directory is. -/
theorem Built.place (h : Built s dir listed) : dir % 4096 = 0 ∧ kernelBase < dir ∧ dir + 4096 ≤ s.ptrFreeMem ∧
    s.ptrFreeMem ≤ 4294963200 ∧ s.ptrFreeMem ≤ kernelBase + s.numberOfFrames * 4096 := by
  have hroom := h.room
  unfold limit at hroom
  exact ⟨h.aligned, h.base, h.behind, by omega, by omega⟩

/-- An entry of the directory is written. -/
theorem pde_write (hdir : dir % 4096 = 0) (hlt : dir + 4096 ≤ 4294967296) (i k : Fin 1024) (e : BitVec 32) :
    (s.write (dir + 4 * i.val) e).pde dir k = if k = i then e else s.pde dir k := by
  have hi := i.isLt
  have hk := k.isLt
  split
  · next heq => exact heq ▸ read_write_self ..
  · next hne =>
    have hval : k.val ≠ i.val := fun heq => hne (Fin.ext heq)
    exact read_write_of_ne e (by omega) (by omega) (by omega) (by omega) (by omega)

theorem tableAddr_aligned (s : BootMemory) (dir : Nat) (i : Fin 1024) : s.tableAddr dir i % 4096 = 0 := by
  unfold tableAddr
  rw [extractAddress_eq]
  simp only [kernelBase]
  omega

/-- Where a table is. -/
theorem IsTable.place (ht : s.IsTable dir i) : s.tableAddr dir i % 4096 = 0 ∧ dir + 4096 ≤ s.tableAddr dir i ∧
    s.tableAddr dir i + 4096 ≤ s.ptrFreeMem := ⟨tableAddr_aligned s dir i, ht.behind, ht.below⟩

theorem tableAddr_congr (h : s'.pde dir i = s.pde dir i) : s'.tableAddr dir i = s.tableAddr dir i :=
  congrArg (extractAddress · + kernelBase) h

theorem IsTable.ne_zero (h : s.IsTable dir i) : s.pde dir i ≠ 0 := fun hzero => by
  have hpresent := h.present
  rw [hzero, entryPresent_zero] at hpresent
  exact nomatch hpresent

theorem IsTable.congr (h : s.IsTable dir i) (hpde : s'.pde dir i = s.pde dir i) (hptr : s.ptrFreeMem ≤ s'.ptrFreeMem) :
    s'.IsTable dir i where
  present := hpde ▸ h.present
  behind := (tableAddr_congr hpde).symm ▸ h.behind
  below := (tableAddr_congr hpde).symm ▸ h.below.trans hptr

/-- The page of an entry that the second level has. -/
def decode (e : BitVec 32) (va : Nat) : Option (Nat × BitVec 12) :=
  if entryPresent e then some (extractAddress e + va % 4096, entryPerm e) else none

theorem walk_empty (h : s.pde dir (pdx va) = 0) : s.walk dir va = none := by
  unfold walk pdeAt
  rw [show s.read (dir + 4 * (pdx va).val) = 0 from h, entryPresent_zero]
  rfl

theorem walk_present (h : entryPresent (s.pde dir (pdx va))) (hlt : s.tableAddr dir (pdx va) < 4294967296) :
    s.walk dir va = decode (s.read (s.tableAddr dir (pdx va) + 4 * (ptx va).val)) va := by
  unfold walk pdeAt
  rw [show s.read (dir + 4 * (pdx va).val) = s.pde dir (pdx va) from rfl, if_pos h,
    show extractAddress (s.pde dir (pdx va)) + kernelBase = s.tableAddr dir (pdx va) from rfl, u32_of_lt hlt]
  rfl

theorem Built.walk_table (h : Built s dir listed) (ht : s.IsTable dir (pdx va)) :
    s.walk dir va = decode (s.read (s.tableAddr dir (pdx va) + 4 * (ptx va).val)) va := by
  have htable := ht.place
  have hplace := h.place
  exact walk_present ht.present (by omega)

/-- The entry of `i` names the same table as before, or still none. -/
def SameTable (s s' : BootMemory) (dir : Nat) (i : Fin 1024) : Prop :=
  s'.pde dir i = 0 ∨ s.IsTable dir i ∧ entryPresent (s'.pde dir i) ∧ s'.tableAddr dir i = s.tableAddr dir i

theorem Built.sameTable (h : Built s dir listed) (hi : ¬ Window listed i) (hpde : s'.pde dir i = s.pde dir i) : SameTable s s' dir i :=
  (h.table i hi).imp (fun hzero => hpde.trans hzero) fun ht => ⟨ht, hpde ▸ ht.present, tableAddr_congr hpde⟩

theorem SameTable.back (h : SameTable s s' dir i) (ht : s'.IsTable dir i) :
    s.IsTable dir i ∧ s'.tableAddr dir i = s.tableAddr dir i :=
  have hold := h.resolve_left ht.ne_zero
  ⟨hold.1, hold.2.2⟩

/-- The memory grew, and the entries name the tables that they named. -/
theorem Built.mono {listed' : Bool} (h : Built s dir listed) (hlisted : listed = true → listed' = true)
    (hptr : s.ptrFreeMem ≤ s'.ptrFreeMem) (hroom : s'.ptrFreeMem ≤ s'.limit)
    (hsame : ∀ i, ¬ Window listed' i → SameTable s s' dir i)
    (hlisting : listed' = true → s'.read (pdeAt dir vpt) = entryOf (dir - kernelBase) (permPresent ||| permWriteable)) :
    Built s' dir listed' where
  aligned := h.aligned
  base := h.base
  behind := h.behind.trans hptr
  room := hroom
  table := fun i hi => (hsame i hi).imp id fun ⟨ht, hpresent, haddr⟩ =>
    ⟨hpresent, haddr.symm ▸ ht.behind, haddr.symm ▸ ht.below.trans hptr⟩
  distinct := fun i j hi hj hti htj heq => by
    have hold : ∀ k, ¬ Window listed' k → ¬ Window listed k := fun k hk hw => hk ⟨hlisted hw.1, hw.2⟩
    obtain ⟨hti', hi'⟩ := (hsame i hi).back hti
    obtain ⟨htj', hj'⟩ := (hsame j hj).back htj
    rw [hi', hj'] at heq
    exact h.distinct i j (hold i hi) (hold j hj) hti' htj' heq
  listing := hlisting

/-- A write that leaves the directory alone -/
theorem Built.congr (h : Built s dir listed) (hpde : ∀ i, s'.pde dir i = s.pde dir i) (hptr : s'.ptrFreeMem = s.ptrFreeMem)
    (hframes : s'.numberOfFrames = s.numberOfFrames) : Built s' dir listed := by
  refine h.mono id hptr.ge ?_ (fun i hi => h.sameTable hi (hpde i)) fun hl => (hpde (pdx vpt)).trans (h.listing hl)
  unfold limit
  rw [hptr, hframes]
  exact h.room

/-- An entry of a table is written: the translation of its page is the new entry, and no other page changes. -/
theorem Built.write_table (h : Built s dir listed) (hi : ¬ Window listed i) (ht : s.IsTable dir i) (j : Fin 1024) (e : BitVec 32) :
    (∀ k, (s.write (s.tableAddr dir i + 4 * j.val) e).pde dir k = s.pde dir k) ∧
      Built (s.write (s.tableAddr dir i + 4 * j.val) e) dir listed ∧ ∀ q, ¬ Window listed (pdx q) →
        (s.write (s.tableAddr dir i + 4 * j.val) e).walk dir q = if pdx q = i ∧ ptx q = j then decode e q else s.walk dir q := by
  have hplace := h.place
  have htable := ht.place
  have hj := j.isLt
  have hpde : ∀ k, (s.write (s.tableAddr dir i + 4 * j.val) e).pde dir k = s.pde dir k := fun k => by
    have hk := k.isLt
    exact read_write_of_ne e (by omega) (by omega) (by omega) (by omega) (by omega)
  have hbuilt : Built (s.write (s.tableAddr dir i + 4 * j.val) e) dir listed :=
    h.congr hpde (ptrFreeMem_write ..) (numberOfFrames_write ..)
  refine ⟨hpde, hbuilt, fun q hq => ?_⟩
  rcases h.table _ hq with hzero | htq
  · rw [walk_empty ((hpde _).trans hzero), walk_empty hzero, if_neg]
    rintro ⟨rfl, -⟩
    exact ht.ne_zero hzero
  · rw [hbuilt.walk_table (htq.congr (hpde _) (ptrFreeMem_write ..).ge), h.walk_table htq, tableAddr_congr (hpde _)]
    have htable' := htq.place
    have hptx := (ptx q).isLt
    by_cases hsame : pdx q = i ∧ ptx q = j
    · rw [if_pos hsame, hsame.1, hsame.2, read_write_self]
    · rw [if_neg hsame, read_write_of_ne e (by omega) (by omega) (by omega) (by omega)]
      intro heq
      -- Tables are aligned to pages, and each is of one entry of the directory.
      have hpage : s.tableAddr dir (pdx q) = s.tableAddr dir i := by omega
      exact hsame ⟨h.distinct _ _ hq hi htq ht hpage, Fin.ext (by omega)⟩

/-! ### The tables on the way -/

/-- The entries among `T` that have no table yet -/
def missing (s : BootMemory) (dir : Nat) (T : Finset (Fin 1024)) : Nat := (T.filter fun i => s.pde dir i = 0).card

/-- There is memory for the tables that are missing among `T`. -/
def Room (s : BootMemory) (dir : Nat) (T : Finset (Fin 1024)) : Prop :=
  roundUp s.ptrFreeMem pageSize + 4096 * s.missing dir T ≤ s.limit

theorem missing_pos {T : Finset (Fin 1024)} (hi : i ∈ T) (hzero : s.pde dir i = 0) : 0 < s.missing dir T :=
  Finset.card_pos.mpr ⟨i, Finset.mem_filter.mpr ⟨hi, hzero⟩⟩

/-- The entry `i` gets a table. -/
theorem missing_filled {T : Finset (Fin 1024)} (hi : i ∈ T) (hzero : s.pde dir i = 0) (hfilled : s'.pde dir i ≠ 0)
    (hothers : ∀ k, k ≠ i → s'.pde dir k = s.pde dir k) : s'.missing dir T + 1 = s.missing dir T := by
  have herase : (T.filter fun k => s'.pde dir k = 0) = (T.filter fun k => s.pde dir k = 0).erase i := by
    ext k
    rw [Finset.mem_filter, Finset.mem_erase, Finset.mem_filter]
    by_cases hk : k = i
    · subst hk
      exact iff_of_false (fun h => hfilled h.2) fun h => h.1 rfl
    · rw [hothers k hk]
      exact ⟨fun h => ⟨hk, h⟩, fun h => h.2⟩
  have hmem : i ∈ T.filter fun k => s.pde dir k = 0 := Finset.mem_filter.mpr ⟨hi, hzero⟩
  have hpos := Finset.card_pos.mpr ⟨i, hmem⟩
  unfold missing
  rw [herase, Finset.card_erase_of_mem hmem]
  omega

/-- The address of a table is a kernel address of the memory. -/
theorem Built.virtual_table (h : Built s dir listed) (ht : s.IsTable dir (pdx va)) :
    s.staticKernelVirtualAddress (extractAddress (s.read (pdeAt dir va))) = some (s.tableAddr dir (pdx va)) := by
  have hplace := h.place
  have htable := ht.place
  have haddr : s.tableAddr dir (pdx va) = extractAddress (s.read (pdeAt dir va)) + kernelBase := rfl
  unfold staticKernelVirtualAddress
  rw [if_pos (by omega), ← haddr, u32_of_lt (by omega)]

/-- A table that exists is found. -/
theorem Built.getTable_found (h : Built s dir listed) (ht : s.IsTable dir (pdx va)) (create : Bool) :
    s.bootGetPageTable dir va create = some (s, s.tableAddr dir (pdx va)) := by
  have hplace := h.place
  have htable := ht.place
  have haddr : s.tableAddr dir (pdx va) = extractAddress (s.read (pdeAt dir va)) + kernelBase := rfl
  unfold bootGetPageTable
  dsimp only
  rw [h.virtual_table ht, Option.bind_some, if_neg (by omega)]

/-- The state after a table at `ptr` was made for the entry `i`. -/
def addTable (s : BootMemory) (dir ptr : Nat) (i : Fin 1024) : BootMemory :=
  (s.take ptr pageSize).write (dir + 4 * i.val) (entryOf (ptr - kernelBase) (permPresent ||| permWriteable))

/-- Space for a table between the free memory and its end -/
structure Fresh (s : BootMemory) (ptr : Nat) : Prop where
  aligned : ptr % 4096 = 0
  behind : s.ptrFreeMem ≤ ptr
  below : ptr + 4096 ≤ s.limit

theorem Fresh.bounds {ptr : Nat} (h : Fresh s ptr) : ptr + 4096 ≤ 4294963200 ∧ ptr + 4096 ≤ kernelBase + s.numberOfFrames * 4096 := by
  have hbelow := h.below
  unfold limit at hbelow
  omega

section Create
variable {ptr : Nat}

theorem Fresh.place (hf : Fresh s ptr) (h : Built s dir listed) : dir % 4096 = 0 ∧ kernelBase < dir ∧ dir + 4096 ≤ ptr ∧
    s.ptrFreeMem ≤ ptr ∧ ptr % 4096 = 0 ∧ ptr + 4096 ≤ 4294963200 :=
  ⟨h.aligned, h.base, h.behind.trans hf.behind, hf.behind, hf.aligned, hf.bounds.1⟩

theorem read_addTable (h : Built s dir listed) (hf : Fresh s ptr) (ha : a % 4 = 0) (hlt : a + 4 ≤ 4294967296) (hne : a ≠ dir + 4 * i.val) :
    (s.addTable dir ptr i).read a = (s.take ptr pageSize).read a := by
  have hplace := hf.place h
  have hi := i.isLt
  exact read_write_of_ne _ (by omega) ha (by omega) (by omega) hne

theorem pde_addTable (h : Built s dir listed) (hf : Fresh s ptr) (k : Fin 1024) : (s.addTable dir ptr i).pde dir k =
    if k = i then entryOf (ptr - kernelBase) (permPresent ||| permWriteable) else s.pde dir k := by
  have hplace := hf.place h
  have hk := k.isLt
  have htaken : (s.take ptr pageSize).pde dir k = s.pde dir k :=
    read_take_of_apart (by simp only [pageSize]; omega) (by omega) (by omega)
  unfold addTable
  rw [pde_write h.aligned (by omega), htaken]

theorem tableAddr_addTable (h : Built s dir listed) (hf : Fresh s ptr) : (s.addTable dir ptr i).tableAddr dir i = ptr := by
  have hplace := hf.place h
  unfold tableAddr
  rw [pde_addTable h hf, if_pos rfl, extractAddress_entryOf]
  · omega
  · simp only [kernelBase]
    omega
  · omega

theorem isTable_addTable (h : Built s dir listed) (hf : Fresh s ptr) : (s.addTable dir ptr i).IsTable dir i := by
  have hplace := hf.place h
  refine ⟨?_, ?_, ?_⟩
  · rw [pde_addTable h hf, if_pos rfl]
    have hperm : entryPerm (entryOf (ptr - kernelBase) (permPresent ||| permWriteable)) = permWriteable ||| permPresent := by
      rw [entryPerm_entryOf]
      · decide
      · simp only [kernelBase]
        omega
      · omega
    exact entryPresent_of_perm hperm
  · rw [tableAddr_addTable h hf]
    omega
  · rw [tableAddr_addTable h hf]
    unfold addTable
    rw [ptrFreeMem_write, ptrFreeMem_take]
    exact le_rfl

/-- The other tables stay. -/
theorem isTable_addTable_iff (h : Built s dir listed) (hf : Fresh s ptr) {k : Fin 1024} (hk : ¬ Window listed k) (hki : k ≠ i) :
    (s.addTable dir ptr i).IsTable dir k ↔ s.IsTable dir k := by
  have hpde : (s.addTable dir ptr i).pde dir k = s.pde dir k := (pde_addTable h hf k).trans (if_neg hki)
  constructor
  · intro ht
    refine (h.table k hk).resolve_left fun hzero => ht.ne_zero (hpde.trans hzero)
  · intro ht
    refine ht.congr hpde ?_
    unfold addTable
    rw [ptrFreeMem_write, ptrFreeMem_take]
    have hfree := hf.behind
    omega

theorem Built.addTable (h : Built s dir listed) (hf : Fresh s ptr) (hi : ¬ Window listed i) : Built (s.addTable dir ptr i) dir listed := by
  have hplace := hf.place h
  have hbelow := hf.below
  have hapart : ∀ k, ¬ Window listed k → k ≠ i → s.IsTable dir k → (s.addTable dir ptr i).tableAddr dir k < ptr := fun k _ hki ht => by
    rw [tableAddr_congr ((pde_addTable h hf k).trans (if_neg hki))]
    have := ht.below
    omega
  refine ⟨h.aligned, h.base, ?_, ?_, fun k hk => ?_, fun k l hk hl htk htl heq => ?_, fun hlisted => ?_⟩
  · unfold BootMemory.addTable
    rw [ptrFreeMem_write, ptrFreeMem_take]
    omega
  · unfold limit BootMemory.addTable at *
    rw [ptrFreeMem_write, ptrFreeMem_take, numberOfFrames_write, numberOfFrames_take]
    exact hbelow
  · by_cases hki : k = i
    · rw [hki]
      exact .inr (isTable_addTable h hf)
    · refine (h.table k hk).imp (fun hzero => ?_) (isTable_addTable_iff h hf hk hki).mpr
      rw [pde_addTable h hf, if_neg hki, hzero]
  · by_cases hki : k = i
    · by_cases hli : l = i
      · rw [hki, hli]
      · have hlt := hapart l hl hli ((isTable_addTable_iff h hf hl hli).mp htl)
        rw [hki, tableAddr_addTable h hf] at heq
        omega
    · by_cases hli : l = i
      · have hlt := hapart k hk hki ((isTable_addTable_iff h hf hk hki).mp htk)
        rw [hli, tableAddr_addTable h hf] at heq
        omega
      · rw [tableAddr_congr ((pde_addTable h hf k).trans (if_neg hki)), tableAddr_congr ((pde_addTable h hf l).trans (if_neg hli))] at heq
        exact h.distinct k l hk hl ((isTable_addTable_iff h hf hk hki).mp htk) ((isTable_addTable_iff h hf hl hli).mp htl) heq
  · have hne : pdx vpt ≠ i := fun heq => hi ⟨hlisted, .inl heq.symm⟩
    exact ((pde_addTable h hf (pdx vpt)).trans (if_neg hne)).trans (h.listing hlisted)

/-- A new table translates nothing, and the other pages are translated as before. -/
theorem walk_addTable (h : Built s dir listed) (hf : Fresh s ptr) (hi : ¬ Window listed i) (hzero : s.pde dir i = 0)
    (hq : ¬ Window listed (pdx q)) : (s.addTable dir ptr i).walk dir q = s.walk dir q := by
  have hplace := hf.place h
  have hptx := (ptx q).isLt
  have hilt := i.isLt
  by_cases hqi : pdx q = i
  · have ht : (s.addTable dir ptr i).IsTable dir (pdx q) := hqi ▸ isTable_addTable h hf
    rw [(h.addTable hf hi).walk_table ht, hqi, tableAddr_addTable h hf, walk_empty (hqi ▸ hzero),
      read_addTable h hf (by omega) (by omega) (by omega), read_take (by simp only [pageSize]; omega) (by omega)
        (by simp only [pageSize]; omega)]
    rfl
  · have hpde : (s.addTable dir ptr i).pde dir (pdx q) = s.pde dir (pdx q) := (pde_addTable h hf _).trans (if_neg hqi)
    rcases h.table _ hq with hzero | ht
    · rw [walk_empty hzero, walk_empty (hpde.trans hzero)]
    · have htable := ht.place
      rw [(h.addTable hf hi).walk_table ((isTable_addTable_iff h hf hq hqi).mpr ht), h.walk_table ht, tableAddr_congr hpde,
        read_addTable h hf (by omega) (by omega) (by omega),
        read_take_of_apart (by simp only [pageSize]; omega) (by omega) (by omega)]

end Create

variable {T : Finset (Fin 1024)}

theorem Room.congr (h : s.Room dir T) (hpde : ∀ i, s'.pde dir i = s.pde dir i) (hptr : s'.ptrFreeMem = s.ptrFreeMem)
    (hframes : s'.numberOfFrames = s.numberOfFrames) : s'.Room dir T := by
  unfold Room missing limit at h ⊢
  simp only [hpde, hptr, hframes]
  exact h

/-- What `boot_get_page_table` did for an address: its entry names the table that is returned, and no page is translated in
    another way than before. -/
structure HasTable (s s' : BootMemory) (dir : Nat) (listed : Bool) (T : Finset (Fin 1024)) (i : Fin 1024) : Prop where
  built : Built s' dir listed
  isTable : s'.IsTable dir i
  walk : ∀ q, ¬ Window listed (pdx q) → s'.walk dir q = s.walk dir q
  room : s'.Room dir T

theorem Built.getTable (h : Built s dir listed) (hi : ¬ Window listed (pdx va)) (hT : pdx va ∈ T) (hroom : s.Room dir T) :
    ∃ s', s.bootGetPageTable dir va true = some (s', s'.tableAddr dir (pdx va)) ∧ HasTable s s' dir listed T (pdx va) := by
  rcases h.table _ hi with hzero | ht
  · have hpos := missing_pos hT hzero
    obtain ⟨-, hbase, hbehind, hlimit, -⟩ := h.place
    obtain ⟨haligned, hle, -⟩ := roundUp_page hlimit
    have hroom' : roundUp s.ptrFreeMem pageSize + 4096 * s.missing dir T ≤ s.limit := hroom
    have hf : Fresh s (roundUp s.ptrFreeMem pageSize) := ⟨haligned, hle, by omega⟩
    have hbounds := hf.bounds
    generalize hptr : roundUp s.ptrFreeMem pageSize = ptr at *
    have hfirst : s.firstFree = s.ptrFreeMem := if_neg (by omega)
    have hspace : s.bootAllocateSpace pageSize pageSize = (s.take ptr pageSize, ptr) :=
      bootAllocateSpace_eq (hfirst ▸ hptr) (by simp only [pageSize]; omega)
    have hpde := pde_addTable (i := pdx va) h hf
    refine ⟨s.addTable dir ptr (pdx va), ?_, h.addTable hf hi, isTable_addTable h hf, fun q => walk_addTable h hf hi hzero, ?_⟩
    · rw [tableAddr_addTable h hf]
      have hnone : extractAddress (s.read (pdeAt dir va)) = 0 := by
        rw [show s.read (pdeAt dir va) = 0 from hzero]
        decide
      unfold bootGetPageTable staticKernelVirtualAddress staticKernelPhysicalAddress
      simp only [hnone, hspace, if_true]
      rw [if_pos (by omega), if_neg (by omega)]
      rfl
    · have hmissing : (s.addTable dir ptr (pdx va)).missing dir T + 1 = s.missing dir T :=
        missing_filled hT hzero (isTable_addTable h hf).ne_zero fun k hk => (hpde k).trans (if_neg hk)
      unfold Room
      rw [show (s.addTable dir ptr (pdx va)).limit = s.limit from rfl,
        show (s.addTable dir ptr (pdx va)).ptrFreeMem = ptr + 4096 from rfl]
      have hround := roundUp_page (n := ptr + 4096) (by omega)
      omega
  · exact ⟨s, h.getTable_found ht true, h, ht, fun _ _ => rfl, hroom⟩

/-! ### The loop -/

/-- The bytes of whole pages that hold `n` bytes -/
def wholePages (n : Nat) : Nat := (n + 4095) / 4096 * 4096

/-- The entry of a page that is mapped with `perm` -/
def mapped (pa : Nat) (perm : BitVec 32) : BitVec 32 := constructEntry pa (perm ||| permPresent.setWidth 32)

/-- One page is mapped. -/
structure PageMapped (s s' : BootMemory) (dir : Nat) (listed : Bool) (T : Finset (Fin 1024)) (va pa : Nat) (perm : BitVec 32) :
    Prop where
  built : Built s' dir listed
  walk : ∀ q < 4294967296, ¬ Window listed (pdx q) → s'.walk dir q =
    if q / 4096 = va / 4096 then decode (mapped pa perm) q else s.walk dir q
  room : s'.Room dir T

theorem samePage_iff (hq : q < 4294967296) (hva : va < 4294967296) : pdx q = pdx va ∧ ptx q = ptx va ↔ q / 4096 = va / 4096 := by
  simp only [pdx, ptx, Fin.ofNat, Fin.mk.injEq]
  omega

theorem Built.mapPage (h : Built s dir listed) (hi : ¬ Window listed (pdx va)) (hT : pdx va ∈ T) (hroom : s.Room dir T)
    (hva : va < 4294967296) (pa : Nat) (perm : BitVec 32) :
    ∃ s₁ ptr, s.bootGetPageTable dir va true = some (s₁, ptr) ∧
      PageMapped s (s₁.write (ptr + 4 * (ptx va).val) (mapped pa perm)) dir listed T va pa perm := by
  obtain ⟨s₁, hget, h₁⟩ := h.getTable hi hT hroom
  obtain ⟨hpde, hbuilt, hwalk⟩ := h₁.built.write_table hi h₁.isTable (ptx va) (mapped pa perm)
  refine ⟨s₁, _, hget, hbuilt, fun q hq hnot => ?_, h₁.room.congr hpde (ptrFreeMem_write ..) (numberOfFrames_write ..)⟩
  rw [hwalk q hnot, h₁.walk q hnot]
  exact if_congr (samePage_iff hq hva) rfl rfl

/-- The pages from `va` on are mapped to the pages from `pa` on. -/
structure RangeMapped (s s' : BootMemory) (dir : Nat) (listed : Bool) (T : Finset (Fin 1024)) (va pa n : Nat) (perm : BitVec 32) :
    Prop where
  built : Built s' dir listed
  walk : ∀ q < 4294967296, ¬ Window listed (pdx q) → s'.walk dir q =
    if va ≤ q ∧ q < va + wholePages n then decode (mapped (pa + (q / 4096 * 4096 - va)) perm) q else s.walk dir q
  room : s'.Room dir T

theorem Built.mapLoop (fuel : Nat) {i : Nat} (h : Built s dir listed) (hva : va % 4096 = 0) (hi : i % 4096 = 0)
    (hile : i ≤ 2147483648) (hsize : size < 2147483648) (hvaend : va + wholePages (size - i) ≤ 4294967296)
    (hpaend : pa + wholePages (size - i) ≤ 4294967296)
    (hrange : ∀ q, va ≤ q → q < va + (size - i) → ¬ Window listed (pdx q) ∧ pdx q ∈ T) (hroom : s.Room dir T)
    (hfuel : (size - i + 4095) / 4096 < fuel) (perm : BitVec 32) :
    ∃ s', s.mapLoop dir size perm va pa i fuel = some s' ∧ RangeMapped s s' dir listed T va pa (size - i) perm := by
  induction fuel generalizing s va pa i with
  | zero => omega
  | succ fuel ih =>
    unfold BootMemory.mapLoop
    unfold wholePages at *
    by_cases hlt : i < size
    · obtain ⟨hnot, hT⟩ := hrange va le_rfl (by omega)
      obtain ⟨s₁, ptr, hget, hpage⟩ := h.mapPage hnot hT hroom (by omega) pa perm
      rw [if_pos hlt, hget, Option.bind_some]
      unfold mapped at hpage
      dsimp only
      generalize s₁.write (ptr + 4 * (ptx va).val) (constructEntry pa (perm ||| permPresent.setWidth 32)) = s₂ at hpage
      have hinext : u32 (i + pageSize) = i + 4096 := u32_of_lt (by simp only [pageSize]; omega)
      rw [hinext]
      by_cases hlast : size ≤ i + 4096
      · -- The last page: the loop ends, and the addresses may have wrapped to 0.
        have hfuel' : ∃ k, fuel = k + 1 := ⟨fuel - 1, by omega⟩
        obtain ⟨k, rfl⟩ := hfuel'
        refine ⟨s₂, ?_, hpage.built, fun q hq hnot => ?_, hpage.room⟩
        · unfold BootMemory.mapLoop
          rw [if_neg (by omega)]
        · rw [hpage.walk q hq hnot]
          unfold wholePages
          by_cases hin : q / 4096 = va / 4096
          · rw [if_pos hin, if_pos (by omega), show q / 4096 * 4096 - va = 0 by omega]
            rfl
          · rw [if_neg hin, if_neg (by omega)]
      · have hva' : u32 (va + pageSize) = va + 4096 := u32_of_lt (by simp only [pageSize]; omega)
        have hpa' : u32 (pa + pageSize) = pa + 4096 := u32_of_lt (by simp only [pageSize]; omega)
        rw [hva', hpa']
        have hvarest : va + 4096 + (size - (i + 4096) + 4095) / 4096 * 4096 ≤ 4294967296 := by omega
        have hparest : pa + 4096 + (size - (i + 4096) + 4095) / 4096 * 4096 ≤ 4294967296 := by omega
        obtain ⟨s', hs', hrest⟩ := ih hpage.built (by omega) (by omega) (by omega) hvarest hparest
          (fun q hle hge => hrange q (by omega) (by omega)) hpage.room (by omega)
        refine ⟨s', hs', hrest.built, fun q hq hnot => ?_, hrest.room⟩
        rw [hrest.walk q hq hnot, hpage.walk q hq hnot]
        unfold wholePages
        by_cases hin : va + 4096 ≤ q ∧ q < va + 4096 + (size - (i + 4096) + 4095) / 4096 * 4096
        · rw [if_pos hin, if_pos (by omega),
            show pa + 4096 + (q / 4096 * 4096 - (va + 4096)) = pa + (q / 4096 * 4096 - va) by omega]
        · rw [if_neg hin]
          by_cases hpage : q / 4096 = va / 4096
          · rw [if_pos hpage, if_pos (by omega), show q / 4096 * 4096 - va = 0 by omega]
            rfl
          · rw [if_neg hpage, if_neg (by omega)]
    · rw [if_neg hlt]
      refine ⟨s, rfl, h, fun q _ _ => ?_, hroom⟩
      unfold wholePages
      rw [if_neg (by omega)]

/-- The entry of a page that is mapped with permission bits -/
theorem decode_mapped (hpa : pa % 4096 = 0) (hlt : pa < 4294967296) (perm : BitVec 12) (q : Nat) :
    decode (mapped pa (perm.setWidth 32)) q = some (pa + q % 4096, perm ||| permPresent) := by
  have hentry : mapped pa (perm.setWidth 32) = entryOf pa (perm ||| permPresent) := by
    unfold mapped entryOf
    rw [BitVec.setWidth_or]
  unfold decode
  rw [hentry, if_pos (entryPresent_of_perm (entryPerm_entryOf hpa hlt)), extractAddress_entryOf hpa hlt, entryPerm_entryOf hpa hlt]

end BootMemory

end Fos.Boot
