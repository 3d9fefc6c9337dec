import Fos.Str.Memory
import Fos.Disk.PageFile

/-! The memory of the boot (`kern/mem/boot_memory_manager.c`): space is taken behind the kernel, and the page tables of the
    kernel are entered into the first directory. Addresses are those of the kernel, at which the segments show the physical
    memory before paging is on. -/

namespace Fos.Boot
open Lib Mem Disk Str

/-- `STATIC_KERNEL_PHYSICAL_ADDRESS(kva)`, which panics below `KERNEL_BASE` -/
def staticKernelPhysicalAddress (kva : Nat) : Option Nat := if kva < kernelBase then none else some (kva - kernelBase)

/-! ### Entries of 32 bits -/

/-- `EXTRACT_ADDRESS(entry)` -/
def extractAddress (e : BitVec 32) : Nat := (e &&& ~~~0xFFF#32).toNat

/-- The permissions of an entry -/
def entryPerm (e : BitVec 32) : BitVec 12 := e.setWidth 12

/-- `entry & PERM_PRESENT` -/
def entryPresent (e : BitVec 32) : Bool := entryPerm e &&& permPresent ≠ 0

/-- `CONSTRUCT_ENTRY(phys_frame_address, permissions)` -/
def constructEntry (pa : Nat) (perm : BitVec 32) : BitVec 32 := BitVec.ofNat 32 pa ||| perm

/-- An entry with permission bits only -/
def entryOf (pa : Nat) (perm : BitVec 12) : BitVec 32 := constructEntry pa (perm.setWidth 32)

/-! ### The memory -/

structure BootMemory where
  mem : Memory 32
  /-- 0 before the first allocation -/
  ptrFreeMem : Nat
  /-- `end_of_kernel` -/
  endOfKernel : Nat
  numberOfFrames : Nat

namespace BootMemory

/-- The word at an address -/
def read (s : BootMemory) (a : Nat) : BitVec 32 := s.mem.load 32 (BitVec.ofNat 32 a)

def write (s : BootMemory) (a : Nat) (e : BitVec 32) : BootMemory := { s with mem := s.mem.store (BitVec.ofNat 32 a) e }

/-- `STATIC_KERNEL_VIRTUAL_ADDRESS(pa)`, which panics behind the memory -/
def staticKernelVirtualAddress (s : BootMemory) (pa : Nat) : Option Nat :=
  if pa / 4096 < s.numberOfFrames then some (u32 (pa + kernelBase)) else none

/-- `boot_allocate_space(size, align)` -/
def bootAllocateSpace (s : BootMemory) (size align : Nat) : BootMemory × Nat :=
  let ptr := roundUp (if s.ptrFreeMem = 0 then s.endOfKernel else s.ptrFreeMem) align
  ({ s with ptrFreeMem := u32 (ptr + size), mem := memset s.mem (BitVec.ofNat 32 ptr) 0 (BitVec.ofNat 32 size) }, ptr)

/-- `&ptr_page_directory[PDX(va)]` -/
def pdeAt (dir va : Nat) : Nat := dir + 4 * (pdx va).val

/-- `boot_get_page_table(ptr_page_directory, virtual_address, create)`; 0 is the null pointer. -/
def bootGetPageTable (s : BootMemory) (dir va : Nat) (create : Bool) : Option (BootMemory × Nat) :=
  let physPageTable := extractAddress (s.read (pdeAt dir va))
  (s.staticKernelVirtualAddress physPageTable).bind fun ptrPageTable =>
  if physPageTable = 0 then
    if create then
      (staticKernelPhysicalAddress (s.bootAllocateSpace pageSize pageSize).2).map fun phys =>
        ((s.bootAllocateSpace pageSize pageSize).1.write (pdeAt dir va) (entryOf phys (permPresent ||| permWriteable)),
          (s.bootAllocateSpace pageSize pageSize).2)
    else some (s, 0)
  else some (s, ptrPageTable)

/-- The loop of `boot_map_range` -/
def mapLoop (s : BootMemory) (dir size : Nat) (perm : BitVec 32) (va pa i : Nat) : Nat → Option BootMemory
  | 0 => none
  | fuel + 1 =>
    if i < size then
      (s.bootGetPageTable dir va true).bind fun (s, ptrPageTable) =>
        mapLoop (s.write (ptrPageTable + 4 * (ptx va).val) (constructEntry pa (perm ||| permPresent.setWidth 32))) dir size perm
          (u32 (va + pageSize)) (u32 (pa + pageSize)) (u32 (i + pageSize)) fuel
    else some s

/-- `boot_map_range(ptr_page_directory, virtual_address, size, physical_address, perm)` -/
def bootMapRange (s : BootMemory) (dir va size pa : Nat) (perm : BitVec 32) : Option BootMemory :=
  s.mapLoop dir size perm va pa 0 walkFuel

/-- `VPT` -/
def vpt : Nat := kernelBase - 4194304

/-- `UVPT` -/
def uvpt : Nat := vpt - 2 * 4194304

/-- `UENVS` -/
def uenvs : Nat := uvpt - 2 * 4194304

/-- `setup_listing_to_all_page_tables_entries()`: the directory is entered into itself. -/
def setupListing (s : BootMemory) (dir : Nat) : Option BootMemory :=
  (staticKernelPhysicalAddress dir).map fun phys =>
    (s.write (pdeAt dir vpt) (entryOf phys (permPresent ||| permWriteable))).write (pdeAt dir uvpt)
      (entryOf phys (permUser ||| permPresent))

/-- `pt_set_page_permissions(directory, virtual_address, permissions_to_set, permissions_to_clear)` for a kernel address -/
def ptSetPagePermissions (s : BootMemory) (dir va : Nat) (permissionsToSet permissionsToClear : BitVec 12) : Option BootMemory :=
  if entryPresent (s.read (pdeAt dir va)) then
    (s.staticKernelVirtualAddress (extractAddress (s.read (pdeAt dir va)))).map fun ptrPageTable =>
      let a := ptrPageTable + 4 * (ptx va).val
      s.write a ((s.read a ||| permissionsToSet.setWidth 32) &&& ~~~permissionsToClear.setWidth 32)
  else none

/-- `ptr_page_directory[PDX(va)] = ptr_page_directory[PDX(va)] | permissions` -/
def setDirectory (s : BootMemory) (dir va : Nat) (permissions : BitVec 12) : BootMemory :=
  s.write (pdeAt dir va) (s.read (pdeAt dir va) ||| permissions.setWidth 32)

/-- The walk through both levels: the physical address and the permissions of the page; `none` is a page fault. -/
def walk (s : BootMemory) (dir va : Nat) : Option (Nat × BitVec 12) :=
  if entryPresent (s.read (pdeAt dir va)) then
    let e := s.read (u32 (extractAddress (s.read (pdeAt dir va)) + kernelBase) + 4 * (ptx va).val)
    if entryPresent e then some (extractAddress e + va % 4096, entryPerm e) else none
  else none

end BootMemory

end Fos.Boot
