import Fos.Mem.UserMem

/-! Shared objects (`kern/mem/shared_memory_manager.c`). -/

namespace Fos.Mem
open Lib Heap

/-- A C string, without the terminator. -/
abbrev CString := List UInt8

/-- The bytes of a `uint32` in memory. -/
def bytes32 (n : Nat) : List UInt8 := (List.range 4).map fun i => UInt8.ofNat (n / 256 ^ i)

/-- `struct Share`, without the list pointers -/
structure Share where
  /-- `ID` -/
  id : Nat := 0
  ownerID : Int
  /-- `name[64]` -/
  name : List UInt8
  /-- `size`, which is an `int` -/
  size : Int
  references : Nat := 1
  isWritable : UInt8
  /-- The frames that `framesStorage` points to -/
  framesStorage : List PageNo := []
  deriving DecidableEq, Repr

namespace Share

/-- `strncpy(name, shareName, 64)` -/
def strncpy64 (shareName : CString) : List UInt8 := (shareName ++ List.replicate 64 0).take 64

/-- What `strcmp` reads at `name`: when there is no terminator in the field it goes on in the fields behind. -/
def nameString (shr : Share) : CString :=
  (shr.name ++ bytes32 (shr.size % 4294967296).toNat ++ bytes32 shr.references ++ [shr.isWritable]).takeWhile (· ≠ 0)

/-- The test of the loops over the list. -/
def Matches (ownerID : Int) (shareName : CString) (shr : Share) : Bool := shr.ownerID = ownerID ∧ shr.nameString = shareName

end Share

inductive ShareResult where
  | id (n : Nat)
  /-- `E_SHARED_MEM_EXISTS` -/
  | exists
  /-- `E_NO_SHARE` -/
  | noShare
  /-- `E_SHARED_MEM_NOT_EXISTS` -/
  | notExists
  deriving DecidableEq, Repr

def sizeofShare : Nat := 96

/-- `ROUNDUP(size, PAGE_SIZE) / PAGE_SIZE` of a `uint32` -/
def pagesNeeded (size : Nat) : Nat := roundUp size pageSize / pageSize

/-- A `uint32` stored in an `int`. -/
def toInt32 (n : Nat) : Int := if n < 2147483648 then n else n - 4294967296

/-- The same of an `int`: the rounded size is an `int` again, and the quotient is stored in a `uint32`. -/
def pagesNeededInt (size : Int) : Nat :=
  let rounded := toInt32 (roundUp (size % 4294967296).toNat pageSize)
  (rounded.tdiv 4096 % 4294967296).toNat

/-- The user memory and `AllShares.shares_list`. -/
structure Sharing (E : Type) where
  mem : UserMem E
  sharesList : List Share := []

namespace Sharing

variable {E : Type} [DecidableEq E]

/-- `find_share(ownerID, name)` -/
def findShare (s : Sharing E) (ownerID : Int) (name : CString) : Option Share := s.sharesList.find? (Share.Matches ownerID name)

/-- `alloc_share(ownerID, shareName, size, isWritable)`; a null pointer of the first `kmalloc` is written to. -/
def allocShare (r : PagingRun E) (ownerID : Int) (shareName : CString) (size : Nat) (isWritable : UInt8) :
    Option (PagingRun E × Option Share) :=
  (r.kmalloc sizeofShare).bind fun (r, ptr) =>
  if ptr = 0 then none
  else
    (r.kmalloc (u32 (4 * pagesNeeded size))).bind fun (r, framesStorage) =>
    if framesStorage = 0 then (r.kfree ptr).map (·, none)
    else
      some (r, some { ownerID := ownerID, name := Share.strncpy64 shareName, size := toInt32 size, isWritable := isWritable })

/-- One round of the loop of `create_shared_object`: a new frame is mapped and stored. -/
def createPage (e : E) (r : PagingRun E × List PageNo) (va : Nat) : Option (PagingRun E × List PageNo) :=
  r.1.allocateFrame.bind fun (r', f) => (r'.mapFrame e f va (permUser ||| permWriteable)).map fun r' => (r', r.2 ++ [f])

/-- `create_shared_object(ownerID, shareName, size, isWritable, virtual_address)`, called by `e` -/
def createSharedObject (s : Sharing E) (e : E) (ownerID : Int) (shareName : CString) (size : Nat) (isWritable : UInt8)
    (va : Nat) : Option (Sharing E × ShareResult) :=
  match s.findShare ownerID shareName with
  | some _ => some (s, .exists)
  | none =>
    (allocShare s.mem.run ownerID shareName size isWritable).bind fun
    | (r, none) => some ({ s with mem := { s.mem with run := r } }, .noShare)
    | (r, some shr) =>
      (exec (createPage e) (r, []) (pagesFrom va (pagesNeeded size))).map fun (r, frames) =>
        ({ mem := { s.mem with run := r }
           sharesList := { shr with id := va % 2147483648, framesStorage := frames } :: s.sharesList }, .id (va % 2147483648))

/-- The loop of `get_shared_object` over the list, which counts the reference. -/
def takeReference (ownerID : Int) (shareName : CString) : List Share → Option (Share × List Share)
  | [] => none
  | shr :: l =>
    if shr.Matches ownerID shareName then
      let shr := { shr with references := u32 (shr.references + 1) }
      some (shr, shr :: l)
    else (takeReference ownerID shareName l).map fun (r, l) => (r, shr :: l)

/-- `map_frame` of a frame of the object -/
def getPage (e : E) (permission : BitVec 12) (r : PagingRun E) (p : PageNo × Nat) : Option (PagingRun E) :=
  r.mapFrame e p.1 p.2 permission

/-- `get_shared_object(ownerID, shareName, virtual_address)`, called by `e`. The loop reads behind `framesStorage` when the
    size is negative. -/
def getSharedObject (s : Sharing E) (e : E) (ownerID : Int) (shareName : CString) (va : Nat) :
    Option (Sharing E × ShareResult) :=
  match takeReference ownerID shareName s.sharesList with
  | none => some (s, .notExists)
  | some (shr, l) =>
    if pagesNeededInt shr.size ≤ shr.framesStorage.length then
      let permission := if shr.isWritable ≠ 0 then permUser ||| permWriteable else permUser
      (exec (getPage e permission) s.mem.run (shr.framesStorage.zip (pagesFrom va (pagesNeededInt shr.size)))).map fun r =>
        ({ mem := { s.mem with run := r }, sharesList := l }, .id shr.id)
    else none

/-- `free_user_mem(e, virtual_address, size)` -/
def freeUserMem (s : Sharing E) (e : E) (va size : Nat) : Option (Sharing E) :=
  (s.mem.freeUserMem e va size).map fun m => { s with mem := m }

end Sharing

/-! ### Runs -/

inductive ShareEvent (E : Type) where
  | allocateUserMem (e : E) (va size : Nat)
  | createSharedObject (e : E) (ownerID : Int) (shareName : CString) (size : Nat) (isWritable : UInt8) (va : Nat)
  | getSharedObject (e : E) (ownerID : Int) (shareName : CString) (va : Nat)
  | freeUserMem (e : E) (va size : Nat)

/-- A successful call: who created or got which object at which address. -/
structure Use (E : Type) where
  env : E
  ownerID : Int
  name : CString
  va : Nat
  creator : Bool
  deriving DecidableEq, Repr

/-- The memory and the successful calls so far, the last one first. -/
structure ShareRun (E : Type) where
  sharing : Sharing E
  uses : List (Use E) := []

namespace ShareRun

variable {E : Type} [DecidableEq E]

/-- The calls with the result that they record. -/
def record (s : ShareRun E) (u : Use E) (r : Sharing E × ShareResult) : ShareRun E :=
  { sharing := r.1
    uses := match r.2 with
      | .id _ => u :: s.uses
      | _ => s.uses }

/-- No object has been created yet. -/
def start (m : UserMem E) : ShareRun E := { sharing := { mem := m } }

def step (s : ShareRun E) : ShareEvent E → Option (ShareRun E)
  | .allocateUserMem e va size =>
    (s.sharing.mem.allocateUserMem e va size).map fun m => { s with sharing := { s.sharing with mem := m } }
  | .createSharedObject e ownerID name size isWritable va =>
    (s.sharing.createSharedObject e ownerID name size isWritable va).map (s.record ⟨e, ownerID, name, va, true⟩)
  | .getSharedObject e ownerID name va =>
    (s.sharing.getSharedObject e ownerID name va).map (s.record ⟨e, ownerID, name, va, false⟩)
  | .freeUserMem e va size => (s.sharing.freeUserMem e va size).map fun t => { s with sharing := t }

end ShareRun

end Fos.Mem
