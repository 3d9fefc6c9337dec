import Fos.Lib.Memory
import Fos.Types

/-! The driver of the IDE disk (`lib/disk.c`) with `DISK_IO_METHOD` as it is set, `PROGRAMMED_IO`: it polls the drive and takes no
    lock. The drive is an ATA drive on the primary channel that answers the commands 0x20 (read sectors) and 0x30 (write
    sectors); a whole sector passes the data port in one `insl` or `outsl`. -/

namespace Fos.Disk
open Lib

/-! ### The drive -/

/-- What the data port is for: nothing, or the sectors from `lba` on of which `left` are still to come. -/
inductive Transfer where
  | idle
  | giving (lba left : Nat)
  | taking (lba left : Nat)
  deriving DecidableEq, Repr

/-- The `n` bytes from `start` on become those of `f`. -/
def writeBytes (disk : Nat → UInt8) (start n : Nat) (f : Nat → UInt8) : Nat → UInt8 := fun a =>
  if start ≤ a ∧ a < start + n then f (a - start) else disk a

structure Ata where
  /-- The bytes of the disk, sector after sector -/
  disk : Nat → UInt8
  sectorCount : UInt8 := 0
  lbaLow : UInt8 := 0
  lbaMid : UInt8 := 0
  lbaHigh : UInt8 := 0
  device : UInt8 := 0
  transfer : Transfer := .idle
  /-- What the status register shows when it is read, one time after the other -/
  status : List UInt8

namespace Ata

/-- The sector that the registers name -/
def lba (s : Ata) : Nat :=
  s.lbaLow.toNat + 256 * s.lbaMid.toNat + 65536 * s.lbaHigh.toNat + 16777216 * (s.device.toNat % 16)

/-- The number of sectors that the registers name: 0 stands for 256. -/
def count (s : Ata) : Nat := if s.sectorCount = 0 then 256 else s.sectorCount.toNat

/-- The command register is written. There is nothing at the other drive, and the drive takes no command in a transfer. -/
def command (s : Ata) (cmd : UInt8) : Option Ata :=
  if s.device.toNat / 16 % 2 = 0 ∧ s.transfer = .idle then
    if cmd = 0x20 then some { s with transfer := .giving s.lba s.count }
    else if cmd = 0x30 then some { s with transfer := .taking s.lba s.count }
    else none
  else none

/-- `outb(port, data)` -/
def outb (s : Ata) (port data : Nat) : Option Ata :=
  match port with
  | 0x1F2 => some { s with sectorCount := .ofNat data }
  | 0x1F3 => some { s with lbaLow := .ofNat data }
  | 0x1F4 => some { s with lbaMid := .ofNat data }
  | 0x1F5 => some { s with lbaHigh := .ofNat data }
  | 0x1F6 => some { s with device := .ofNat data }
  | 0x1F7 => s.command (.ofNat data)
  | _ => none

/-- `insl(0x1F0, dst, SECTSIZE / 4)`: the bytes that it stores. -/
def insl (s : Ata) : Option (Ata × (Nat → UInt8)) :=
  match s.transfer with
  | .giving lba (left + 1) =>
    some ({ s with transfer := if left = 0 then .idle else .giving (lba + 1) left }, fun i => s.disk (512 * lba + i))
  | _ => none

/-- `outsl(0x1F0, src, SECTSIZE / 4)`, where `f` are the bytes at `src` -/
def outsl (s : Ata) (f : Nat → UInt8) : Option Ata :=
  match s.transfer with
  | .taking lba (left + 1) =>
    some { s with
      disk := writeBytes s.disk (512 * lba) 512 f
      transfer := if left = 0 then .idle else .taking (lba + 1) left }
  | _ => none

end Ata

/-! ### The driver -/

/-- The drive and the memory -/
structure Ide where
  ata : Ata
  mem : Memory 32

/-- `(r & (IDE_BSY|IDE_DRDY)) == IDE_DRDY` -/
def isReady (r : UInt8) : Bool := r &&& (0x80 ||| 0x40) = 0x40

/-- `(r & (IDE_DF|IDE_ERR)) != 0` -/
def hasError (r : UInt8) : Bool := r &&& (0x20 ||| 0x01) ≠ 0

/-- The loop of `ide_wait_ready(check_error)` and what is still to be read of the status; `none` is a panic, or a drive that is
    never ready. -/
def waitReady (checkError : Bool) : List UInt8 → Option (List UInt8)
  | [] => none
  | r :: rest => if isReady r then if checkError && hasError r then none else some rest else waitReady checkError rest

namespace Ide

/-- `ide_wait_ready(check_error)` -/
def ideWaitReady (s : Ide) (checkError : Bool) : Option Ide :=
  (waitReady checkError s.ata.status).map fun rest => { s with ata := { s.ata with status := rest } }

/-- `outb(port, data)` -/
def outb (s : Ide) (port data : Nat) : Option Ide := (s.ata.outb port data).map ({ s with ata := · })

/-- The lines of `ide_read` and `ide_write` that give the command `cmd`; `diskno` is 0. -/
def ideCommand (s : Ide) (secno nsecs cmd : Nat) : Option Ide :=
  (s.outb 0x1F2 nsecs).bind fun s => (s.outb 0x1F3 (secno &&& 0xFF)).bind fun s =>
    (s.outb 0x1F4 (secno >>> 8 &&& 0xFF)).bind fun s => (s.outb 0x1F5 (secno >>> 16 &&& 0xFF)).bind fun s =>
      (s.outb 0x1F6 (0xE0 ||| (0 &&& 1) <<< 4 ||| (secno >>> 24 &&& 0x0F))).bind fun s => s.outb 0x1F7 cmd

/-- `insl(0x1F0, dst, SECTSIZE / 4)` -/
def insl (s : Ide) (dst : BitVec 32) : Option Ide :=
  s.ata.insl.map fun (ata, f) => ⟨ata, s.mem.overwrite dst 512 f⟩

/-- `outsl(0x1F0, src, SECTSIZE / 4)` -/
def outsl (s : Ide) (src : BitVec 32) : Option Ide :=
  (s.ata.outsl fun i => s.mem (src + BitVec.ofNat 32 i)).map ({ s with ata := · })

/-- The loop of `ide_read` with `nsecs` sectors left -/
def readSectors (s : Ide) (dst : BitVec 32) : Nat → Option Ide
  | 0 => some s
  | nsecs + 1 => (s.ideWaitReady true).bind fun s => (s.insl dst).bind fun s => s.readSectors (dst + 512) nsecs

/-- The loop of `ide_write` with `nsecs` sectors left -/
def writeSectors (s : Ide) (src : BitVec 32) : Nat → Option Ide
  | 0 => some s
  | nsecs + 1 => (s.ideWaitReady true).bind fun s => (s.outsl src).bind fun s => s.writeSectors (src + 512) nsecs

/-- `ide_read(secno, dst, nsecs)`; `none` is also the assertion. -/
def ideRead (s : Ide) (secno : Nat) (dst : BitVec 32) (nsecs : Nat) : Option Ide :=
  if nsecs ≤ 256 then
    (s.ideWaitReady false).bind fun s => (s.ideCommand secno nsecs 0x20).bind fun s => s.readSectors dst nsecs
  else none

/-- `ide_write(secno, src, nsecs)` -/
def ideWrite (s : Ide) (secno : Nat) (src : BitVec 32) (nsecs : Nat) : Option Ide :=
  if nsecs ≤ 256 then
    (s.ideWaitReady false).bind fun s => (s.ideCommand secno nsecs 0x30).bind fun s => s.writeSectors src nsecs
  else none

end Ide

/-! ### The drive answers -/

/-- The drive gets ready at least `n` times, and shows no error. -/
structure Answers (n : Nat) (status : List UInt8) : Prop where
  ready : n ≤ status.countP isReady
  no_error : ∀ r ∈ status, hasError r = false

/-- A drive that shows the same all the time -/
theorem answers_replicate (n : Nat) {r : UInt8} (hready : isReady r = true) (herror : hasError r = false) :
    Answers n (List.replicate n r) where
  ready := by
    rw [List.countP_replicate, if_pos hready]
  no_error x hx := by
    rw [List.eq_of_mem_replicate hx]
    exact herror

theorem waitReady_answers {n : Nat} {status : List UInt8} (h : Answers (n + 1) status) (checkError : Bool) :
    ∃ rest, waitReady checkError status = some rest ∧ Answers n rest := by
  induction status with
  | nil => exact absurd h.ready (Nat.not_succ_le_zero n)
  | cons r rest ih =>
    have herror := h.no_error r List.mem_cons_self
    have hrest : ∀ x ∈ rest, hasError x = false := fun x hx => h.no_error x (List.mem_cons_of_mem r hx)
    unfold waitReady
    cases hr : isReady r with
    | true =>
      have hcount := h.ready
      rw [List.countP_cons_of_pos hr] at hcount
      refine ⟨rest, ?_, by omega, hrest⟩
      rw [if_pos rfl, herror, Bool.and_false]
      rfl
    | false =>
      have hcount := h.ready
      rw [List.countP_cons_of_neg (by rw [hr]; decide)] at hcount
      exact ih ⟨hcount, hrest⟩

namespace Ide

variable {s t : Ide} {n secno nsecs cmd : Nat} {dst src : BitVec 32} {b : Bool}

/-- The same drive with other answers to come, fewer by those that were read. -/
theorem ideWaitReady_answers (h : Answers (n + 1) s.ata.status) (checkError : Bool) :
    ∃ rest, s.ideWaitReady checkError = some { s with ata := { s.ata with status := rest } } ∧ Answers n rest := by
  obtain ⟨rest, hrest, hanswers⟩ := waitReady_answers h checkError
  exact ⟨rest, by rw [ideWaitReady, hrest, Option.map_some], hanswers⟩

/-! ### A command -/

/-- The registers are written one after the other, and then the command. -/
def program (s : Ide) (count low mid high device cmd : Nat) : Option Ide :=
  (s.outb 0x1F2 count).bind fun s => (s.outb 0x1F3 low).bind fun s => (s.outb 0x1F4 mid).bind fun s =>
    (s.outb 0x1F5 high).bind fun s => (s.outb 0x1F6 device).bind fun s => s.outb 0x1F7 cmd

/-- What a command leaves as it is, and the transfer that it begins. -/
structure Begun (s t : Ide) (transfer : Transfer) : Prop where
  mem : t.mem = s.mem
  disk : t.ata.disk = s.ata.disk
  status : t.ata.status = s.ata.status
  transfer : t.ata.transfer = transfer

/-- A command on `n` sectors from the sector `lba` on. -/
theorem program_begins (count : Nat) {low mid high device lba : Nat} (hidle : s.ata.transfer = .idle)
    (hdevice : device % 256 / 16 % 2 = 0)
    (hlba : low % 256 + 256 * (mid % 256) + 65536 * (high % 256) + 16777216 * (device % 16) = lba)
    (hcount : (if count % 256 = 0 then 256 else count % 256) = n) (hcmd : cmd = 0x20 ∨ cmd = 0x30) :
    ∃ t, s.program count low mid high device cmd = some t ∧
      Begun s t (if cmd = 0x20 then .giving lba n else .taking lba n) := by
  have hmod : device % 256 % 16 = device % 16 := Nat.mod_mod_of_dvd device (by decide)
  have hzero : UInt8.ofNat count = 0 ↔ count % 256 = 0 := by
    rw [← UInt8.toNat_inj, UInt8.toNat_ofNat', UInt8.toNat_zero]
  unfold program
  simp only [outb, Ata.outb, Option.map_some, Option.bind_some, Ata.command, Ata.lba, Ata.count, hzero,
    UInt8.toNat_ofNat', Nat.reducePow, hmod, hlba, hcount]
  rw [if_pos ⟨hdevice, hidle⟩]
  rcases hcmd with rfl | rfl
  · exact ⟨_, rfl, rfl, rfl, rfl, (if_pos rfl).symm⟩
  · exact ⟨_, rfl, rfl, rfl, rfl, (if_neg (by decide)).symm⟩

/-- The drive begins the transfer of the sectors; of the sector number it gets 28 bits. -/
theorem ideCommand_begins (secno cmd : Nat) (hidle : s.ata.transfer = .idle) (hpos : 0 < nsecs) (hle : nsecs ≤ 256)
    (hcmd : cmd = 0x20 ∨ cmd = 0x30) : ∃ t, s.ideCommand secno nsecs cmd = some t ∧
      Begun s t (if cmd = 0x20 then .giving (secno % 268435456) nsecs else .taking (secno % 268435456) nsecs) := by
  have hbyte : ∀ x, x &&& 0xFF = x % 256 := fun x => Nat.and_two_pow_sub_one_eq_mod x 8
  have hnibble : secno >>> 24 &&& 0x0F = secno / 16777216 % 16 := by
    rw [Nat.shiftRight_eq_div_pow]
    exact Nat.and_two_pow_sub_one_eq_mod _ 4
  have hor : ∀ y : Fin 16, 0xE0 ||| (0 &&& 1) <<< 4 ||| y.val = 224 + y.val := by decide
  have hdevice : 0xE0 ||| (0 &&& 1) <<< 4 ||| (secno >>> 24 &&& 0x0F) = 224 + secno / 16777216 % 16 := by
    rw [hnibble]
    exact hor ⟨secno / 16777216 % 16, Nat.mod_lt _ (by decide)⟩
  refine program_begins nsecs hidle ?_ ?_ ?_ hcmd
  · rw [hdevice]
    omega
  · rw [hdevice, hbyte, hbyte, hbyte, Nat.shiftRight_eq_div_pow, Nat.shiftRight_eq_div_pow]
    omega
  · split <;> omega

/-! ### The sectors pass -/

/-- The transfer when `n` sectors are left -/
def sectorsLeft (begun : Nat → Nat → Transfer) (lba n : Nat) : Transfer := if n = 0 then .idle else begun lba n

theorem sectorsLeft_of_pos (begun : Nat → Nat → Transfer) (lba : Nat) (hpos : 0 < n) : sectorsLeft begun lba n = begun lba n :=
  if_neg (by omega)

theorem readSectors_eq (dst : BitVec 32) (lba : Nat) {k : Nat} (hgiving : s.ata.transfer = sectorsLeft .giving lba n) (hanswers : Answers (n + k) s.ata.status)
    (hle : 512 * n ≤ 4294967296) : ∃ t, s.readSectors dst n = some t ∧ Answers k t.ata.status ∧ t.ata.transfer = .idle ∧
      t.ata.disk = s.ata.disk ∧ t.mem = s.mem.overwrite dst (512 * n) fun i => s.ata.disk (512 * lba + i) := by
  induction n generalizing s dst lba with
  | zero =>
    refine ⟨s, rfl, by rwa [Nat.zero_add] at hanswers, hgiving, rfl, ?_⟩
    rw [Nat.mul_zero, Memory.overwrite_zero]
  | succ n ih =>
    obtain ⟨left, hwait, hleft⟩ := ideWaitReady_answers (n := n + k) (by rwa [Nat.add_right_comm]) true
    have hinsl : Ide.insl { s with ata := { s.ata with status := left } } dst =
        some ⟨{ s.ata with transfer := sectorsLeft .giving (lba + 1) n, status := left },
          s.mem.overwrite dst 512 fun i => s.ata.disk (512 * lba + i)⟩ := by
      unfold Ide.insl Ata.insl
      rw [hgiving]
      rfl
    unfold readSectors
    rw [hwait, Option.bind_some, hinsl, Option.bind_some]
    obtain ⟨t, ht, hanswers', hidle, hdisk, hmem⟩ := ih (s := ⟨{ s.ata with transfer := sectorsLeft .giving (lba + 1) n, status := left },
      s.mem.overwrite dst 512 fun i => s.ata.disk (512 * lba + i)⟩) (dst + 512) (lba + 1) rfl hleft (by omega)
    refine ⟨t, ht, hanswers', hidle, hdisk, ?_⟩
    rw [hmem, show (dst + 512 : BitVec 32) = dst + BitVec.ofNat 32 512 from rfl, Memory.overwrite_overwrite (by omega),
      show 512 * (n + 1) = 512 + 512 * n by omega]
    refine Memory.overwrite_congr fun i _ => ?_
    split
    case isTrue => rfl
    case isFalse h => rw [show 512 * (lba + 1) + (i - 512) = 512 * lba + i by omega]

theorem writeSectors_eq (src : BitVec 32) (lba : Nat) {k : Nat} (htaking : s.ata.transfer = sectorsLeft .taking lba n) (hanswers : Answers (n + k) s.ata.status) :
    ∃ t, s.writeSectors src n = some t ∧ Answers k t.ata.status ∧ t.ata.transfer = .idle ∧ t.mem = s.mem ∧
      t.ata.disk = writeBytes s.ata.disk (512 * lba) (512 * n) fun i => s.mem (src + BitVec.ofNat 32 i) := by
  induction n generalizing s src lba with
  | zero =>
    refine ⟨s, rfl, by rwa [Nat.zero_add] at hanswers, htaking, rfl, ?_⟩
    funext a
    exact (if_neg (by omega)).symm
  | succ n ih =>
    obtain ⟨left, hwait, hleft⟩ := ideWaitReady_answers (n := n + k) (by rwa [Nat.add_right_comm]) true
    have houtsl : Ide.outsl { s with ata := { s.ata with status := left } } src =
        some { s with ata := { s.ata with
          disk := writeBytes s.ata.disk (512 * lba) 512 fun i => s.mem (src + BitVec.ofNat 32 i)
          transfer := sectorsLeft .taking (lba + 1) n
          status := left } } := by
      unfold Ide.outsl Ata.outsl
      rw [htaking]
      rfl
    unfold writeSectors
    rw [hwait, Option.bind_some, houtsl, Option.bind_some]
    obtain ⟨t, ht, hanswers', hidle, hmem, hdisk⟩ := ih (s := { s with ata := { s.ata with
      disk := writeBytes s.ata.disk (512 * lba) 512 fun i => s.mem (src + BitVec.ofNat 32 i)
      transfer := sectorsLeft .taking (lba + 1) n
      status := left } }) (src + 512) (lba + 1) rfl hleft
    refine ⟨t, ht, hanswers', hidle, hmem, ?_⟩
    rw [hdisk]
    funext a
    simp only [writeBytes]
    have hsrc : (src + 512 : BitVec 32) = src + BitVec.ofNat 32 512 := rfl
    have hall : 512 * lba ≤ a ∧ a < 512 * lba + 512 * (n + 1) ↔
        (512 * lba ≤ a ∧ a < 512 * lba + 512) ∨ (512 * (lba + 1) ≤ a ∧ a < 512 * (lba + 1) + 512 * n) := by omega
    by_cases hlater : 512 * (lba + 1) ≤ a ∧ a < 512 * (lba + 1) + 512 * n
    · rw [if_pos hlater, if_pos (hall.mpr (.inr hlater)), hsrc, Memory.add_ofNat_add,
        show 512 + (a - 512 * (lba + 1)) = a - 512 * lba by omega]
    · rw [if_neg hlater]
      by_cases hfirst : 512 * lba ≤ a ∧ a < 512 * lba + 512
      · rw [if_pos hfirst, if_pos (hall.mpr (.inl hfirst))]
      · rw [if_neg hfirst, if_neg fun h => (hall.mp h).elim hfirst hlater]

/-! ### A read and a write -/

/-- The drive is idle, and gets ready often enough for `n` more polls. -/
structure Waiting (n : Nat) (s : Ide) : Prop where
  idle : s.ata.transfer = .idle
  answers : Answers n s.ata.status

theorem ideRead_eq (secno : Nat) (dst : BitVec 32) (nsecs : Nat) {k : Nat} (h : Waiting (nsecs + 1 + k) s) (hpos : 0 < nsecs) (hle : nsecs ≤ 256) :
    ∃ t, s.ideRead secno dst nsecs = some t ∧ Waiting k t ∧ t.ata.disk = s.ata.disk ∧
      t.mem = s.mem.overwrite dst (512 * nsecs) fun i => s.ata.disk (512 * (secno % 268435456) + i) := by
  obtain ⟨left, hwait, hleft⟩ := ideWaitReady_answers (n := nsecs + k) (by rw [Nat.add_right_comm]; exact h.answers) false
  obtain ⟨u, hu, hmem, hdisk, hstatus, htransfer⟩ := ideCommand_begins (s := { s with ata := { s.ata with status := left } })
    secno 0x20 h.idle hpos hle (.inl rfl)
  obtain ⟨t, ht, hanswers, hidle, hdisk', hmem'⟩ := readSectors_eq (s := u) (k := k) dst (secno % 268435456)
    (by rw [htransfer, sectorsLeft_of_pos _ _ hpos, if_pos rfl]) (by rw [hstatus]; exact hleft) (by omega)
  refine ⟨t, ?_, ⟨hidle, hanswers⟩, hdisk'.trans hdisk, ?_⟩
  · rw [ideRead, if_pos hle, hwait, Option.bind_some, hu, Option.bind_some, ht]
  · rw [hmem', hmem, hdisk]

theorem ideWrite_eq (secno : Nat) (src : BitVec 32) (nsecs : Nat) {k : Nat} (h : Waiting (nsecs + 1 + k) s) (hpos : 0 < nsecs) (hle : nsecs ≤ 256) :
    ∃ t, s.ideWrite secno src nsecs = some t ∧ Waiting k t ∧ t.mem = s.mem ∧
      t.ata.disk = writeBytes s.ata.disk (512 * (secno % 268435456)) (512 * nsecs) fun i => s.mem (src + BitVec.ofNat 32 i) := by
  obtain ⟨left, hwait, hleft⟩ := ideWaitReady_answers (n := nsecs + k) (by rw [Nat.add_right_comm]; exact h.answers) false
  obtain ⟨u, hu, hmem, hdisk, hstatus, htransfer⟩ := ideCommand_begins (s := { s with ata := { s.ata with status := left } })
    secno 0x30 h.idle hpos hle (.inr rfl)
  obtain ⟨t, ht, hanswers, hidle, hmem', hdisk'⟩ := writeSectors_eq (s := u) (k := k) src (secno % 268435456)
    (by rw [htransfer, sectorsLeft_of_pos _ _ hpos, if_neg (by decide)]) (by rw [hstatus]; exact hleft)
  refine ⟨t, ?_, ⟨hidle, hanswers⟩, hmem'.trans hmem, ?_⟩
  · rw [ideWrite, if_pos hle, hwait, Option.bind_some, hu, Option.bind_some, ht]
  · rw [hdisk', hmem, hdisk]

end Ide

end Fos.Disk
