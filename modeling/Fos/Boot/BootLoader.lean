import Fos.Disk.Ide
import Fos.Proc.Segments

/-! The boot loader (`boot/main.c`): it reads the first page of the kernel's ELF file to scratch space, then the segments to where
    they belong, sector by sector, and calls the entry point. -/

namespace Fos.Disk.Ide

/-- `waitdisk()` -/
def waitdisk (s : Ide) : Option Ide := s.ideWaitReady false

/-- `readsect(dst, offset)` -/
def readsect (s : Ide) (dst offset : BitVec 32) : Option Ide :=
  s.waitdisk.bind fun s =>
    (s.program 1 offset.toNat (offset >>> 8).toNat (offset >>> 16).toNat (offset >>> 24 ||| 0xE0#32).toNat 0x20).bind fun s =>
      s.waitdisk.bind fun s => s.insl dst

/-- The loop of `readseg`; `none` too if it does not end within the number of turns. -/
def readsegLoop (s : Ide) (va endVa offset : BitVec 32) : Nat → Option Ide
  | 0 => none
  | turns + 1 =>
    if va < endVa then (s.readsect va offset).bind fun s => s.readsegLoop (va + 512#32) endVa (offset + 1#32) turns else some s

/-- `readseg(va, count, offset)`. In every turn the status is read, so there is no turn for which there is none left. -/
def readseg (s : Ide) (va count offset : BitVec 32) : Option Ide :=
  let va := va &&& 0xFFFFFF#32
  s.readsegLoop (va &&& ~~~511#32) (va + count) (offset / 512#32 + 1#32) (s.ata.status.length + 1)

end Fos.Disk.Ide

namespace Fos.Mem

/-- `struct Proghdr` at an address, as `ElfFile.ph` has it -/
def proghdrAt (m : Lib.Memory 32) (p : BitVec 32) : Proghdr :=
  ⟨m.load 32 p, m.load 32 (p + 4#32), m.load 32 (p + 8#32), m.load 32 (p + 16#32), m.load 32 (p + 20#32)⟩

theorem ElfFile.ph_eq (x : ElfFile) (i : BitVec 32) : x.ph i = proghdrAt x.memory (x.start + x.ePhoff + 32#32 * i) := rfl

/-- `e_entry` -/
def ElfFile.eEntry (x : ElfFile) : BitVec 32 := x.memory.load 32 (x.start + 24#32)

end Fos.Mem

namespace Fos.Boot
open Lib Mem Disk

/-- How `cmain` ends: at `bad`, or in a call of the entry point -/
inductive BootEnd where
  | bad
  | entered (entry : BitVec 32)
  deriving DecidableEq

/-- The file at `ELFHDR` -/
def elfhdr (s : Ide) : ElfFile := ⟨s.mem, 0x10000#32⟩

/-- The loop of `cmain` over the program headers, whatever the segments that it reads do to them -/
def loadSegments (s : Ide) (ph eph : BitVec 32) : Nat → Option Ide
  | 0 => if ph < eph then none else some s
  | turns + 1 =>
    if ph < eph then
      (s.readseg (proghdrAt s.mem ph).pVa (proghdrAt s.mem ph).pMemsz (proghdrAt s.mem ph).pOffset).bind fun s =>
        loadSegments s (ph + 32#32) eph turns
    else some s

/-- `cmain()` -/
def cmain (s : Ide) : Option (Ide × BootEnd) :=
  (s.readseg 0x10000#32 4096#32 0#32).bind fun s =>
    if (elfhdr s).eMagic ≠ elfMagic then some (s, .bad)
    else
      let ph := (elfhdr s).start + (elfhdr s).ePhoff
      (loadSegments s ph (ph + 32#32 * (elfhdr s).ePhnum.setWidth 32) (elfhdr s).ePhnum.toNat).map fun s =>
        (s, .entered ((elfhdr s).eEntry &&& 0xFFFFFF#32))

/-! ### Sectors -/

/-- The memory when sectors have been read: `n` of them from `lba` on, to `dst` -/
def sectorsRead (s : Ide) (dst n lba : Nat) : Memory 32 :=
  s.mem.overwrite (BitVec.ofNat 32 dst) (512 * n) fun i => s.ata.disk (512 * lba + i)

/-- What is read leaves the drive as it was, with `k` polls of it less. -/
structure Read (s t : Ide) (k : Nat) (mem : Memory 32) : Prop where
  waiting : t.Waiting k
  disk : t.ata.disk = s.ata.disk
  mem : t.mem = mem

variable {s t : Ide} {k : Nat}

theorem waitdisk_answers (h : s.Waiting (k + 1)) : ∃ t, s.waitdisk = some t ∧ Read s t k s.mem := by
  obtain ⟨rest, hrest, hanswers⟩ := Ide.ideWaitReady_answers h.answers false
  exact ⟨_, hrest, ⟨h.idle, hanswers⟩, rfl, rfl⟩

theorem readsect_eq (dst : BitVec 32) {offset : BitVec 32} (h : s.Waiting (k + 2)) (hlba : offset.toNat < 268435456) :
    ∃ t, s.readsect dst offset = some t ∧
      Read s t k (s.mem.overwrite dst 512 fun i => s.ata.disk (512 * offset.toNat + i)) := by
  obtain ⟨u, hu, hwaiting, hdisk, hmem⟩ := waitdisk_answers (k := k + 1) h
  have hnibble : ∀ y : Fin 16, y.val ||| 0xE0 = 224 + y.val := by decide
  have hdevice : (offset >>> 24 ||| 0xE0#32).toNat = 224 + offset.toNat / 16777216 := by
    rw [BitVec.toNat_or, BitVec.toNat_ushiftRight, Nat.shiftRight_eq_div_pow]
    exact hnibble ⟨offset.toNat / 16777216, by omega⟩
  have hlow : offset.toNat % 256 + 256 * ((offset >>> 8).toNat % 256) + 65536 * ((offset >>> 16).toNat % 256) +
      16777216 * ((offset >>> 24 ||| 0xE0#32).toNat % 16) = offset.toNat := by
    rw [hdevice, BitVec.toNat_ushiftRight, BitVec.toNat_ushiftRight, Nat.shiftRight_eq_div_pow, Nat.shiftRight_eq_div_pow]
    omega
  obtain ⟨v, hv, hbegun⟩ := Ide.program_begins (s := u) (n := 1) 1 hwaiting.idle (by rw [hdevice]; omega) hlow rfl
    (.inl rfl)
  rw [if_pos rfl] at hbegun
  have hanswers : Answers (k + 1) v.ata.status := by
    rw [hbegun.status]
    exact hwaiting.answers
  obtain ⟨rest, hrest, hleft⟩ := Ide.ideWaitReady_answers hanswers false
  refine ⟨⟨{ v.ata with transfer := .idle, status := rest }, v.mem.overwrite dst 512 fun i => v.ata.disk (512 * offset.toNat + i)⟩,
    ?_, ⟨rfl, hleft⟩, hbegun.disk.trans hdisk, ?_⟩
  · rw [Ide.readsect, hu, Option.bind_some, hv, Option.bind_some, Ide.waitdisk, hrest, Option.bind_some]
    unfold Ide.insl Ata.insl
    rw [hbegun.transfer]
    rfl
  · rw [hbegun.mem, hbegun.disk, hmem, hdisk]

/-- The sectors that the turns of `readseg` read -/
def sectorsOf (va count : Nat) : Nat := (va % 512 + count + 511) / 512

theorem readsegLoop_eq (va endVa offset : BitVec 32) {n : Nat} (turns : Nat) (h : s.Waiting (2 * n + k))
    (hn : n = (endVa.toNat - va.toNat + 511) / 512) (hend : va.toNat + 512 * n < 4294967296) (hturns : n < turns)
    (hlba : offset.toNat + n ≤ 268435456) :
    ∃ t, s.readsegLoop va endVa offset turns = some t ∧ Read s t k (sectorsRead s va.toNat n offset.toNat) := by
  induction n generalizing s va offset turns with
  | zero =>
    obtain ⟨turns, rfl⟩ := Nat.exists_eq_add_of_lt hturns
    refine ⟨s, ?_, by simpa using h, rfl, ?_⟩
    · rw [show 0 + turns + 1 = turns + 1 by omega, Ide.readsegLoop, if_neg]
      rw [BitVec.lt_def]
      omega
    · rw [sectorsRead, Nat.mul_zero, Memory.overwrite_zero]
  | succ n ih =>
    obtain ⟨turns, rfl⟩ := Nat.exists_eq_add_of_lt hturns
    have hva : (va + 512#32).toNat = va.toNat + 512 := by
      rw [BitVec.toNat_add, BitVec.toNat_ofNat]
      omega
    have hoffset : (offset + 1#32).toNat = offset.toNat + 1 := by
      rw [BitVec.toNat_add, BitVec.toNat_ofNat]
      omega
    obtain ⟨u, hu, hwaiting, hdisk, hmem⟩ := readsect_eq (k := 2 * n + k) va
      (by rwa [show 2 * n + k + 2 = 2 * (n + 1) + k by omega]) (show offset.toNat < 268435456 by omega)
    obtain ⟨t, ht, hwaiting', hdisk', hmem'⟩ := ih (va + 512#32) (offset + 1#32) (n + 1 + turns) hwaiting
      (by omega) (by omega) (by omega) (by omega)
    refine ⟨t, ?_, hwaiting', hdisk'.trans hdisk, ?_⟩
    · rw [show n + 1 + turns + 1 = n + 1 + turns + 1 from rfl, Ide.readsegLoop, if_pos (by rw [BitVec.lt_def]; omega), hu,
        Option.bind_some, ht]
    · have hdst : BitVec.ofNat 32 (va.toNat + 512) = va + BitVec.ofNat 32 512 := by
        rw [BitVec.ofNat_add, BitVec.ofNat_toNat, BitVec.setWidth_eq]
      rw [hmem', sectorsRead, sectorsRead, hmem, hdisk, hva, hoffset, hdst, BitVec.ofNat_toNat, BitVec.setWidth_eq,
        Memory.overwrite_overwrite (by omega), show 512 * (n + 1) = 512 + 512 * n by omega]
      refine Memory.overwrite_congr fun i _ => ?_
      split
      case isTrue => rfl
      case isFalse hi => rw [show 512 * (offset.toNat + 1) + (i - 512) = 512 * offset.toNat + i by omega]

/-- The address rounded down to a sector -/
theorem and_not_511 (x : BitVec 32) : (x &&& ~~~511#32).toNat = x.toNat - x.toNat % 512 := by
  have hmask : ∀ i < 32, (511#32).getLsbD i = decide (i < 9) := by decide
  have hshift : x &&& ~~~511#32 = (x >>> 9) <<< 9 := by
    apply BitVec.eq_of_getLsbD_eq
    intro i hi
    rw [BitVec.getLsbD_and, BitVec.getLsbD_not, hmask i hi, BitVec.getLsbD_shiftLeft, BitVec.getLsbD_ushiftRight]
    by_cases h : i < 9
    · simp [h]
    · simp [h, hi, show 9 + (i - 9) = i by omega]
  have hlt := x.isLt
  rw [hshift, BitVec.toNat_shiftLeft, BitVec.toNat_ushiftRight, Nat.shiftRight_eq_div_pow, Nat.shiftLeft_eq]
  omega

/-- Where the bytes go: the loader keeps 24 bits of the address. -/
def destOf (va : BitVec 32) : Nat := va.toNat % 16777216

theorem readseg_eq (va count offset : BitVec 32) (hend : destOf va + count.toNat + 512 ≤ 4294967296)
    (h : s.Waiting (2 * sectorsOf (destOf va) count.toNat + k)) : ∃ t, s.readseg va count offset = some t ∧
      Read s t k (sectorsRead s (destOf va - destOf va % 512) (sectorsOf (destOf va) count.toNat) (offset.toNat / 512 + 1)) := by
  have hdest : (va &&& 0xFFFFFF#32).toNat = destOf va := by
    rw [BitVec.toNat_and]
    exact Nat.and_two_pow_sub_one_eq_mod _ 24
  have hround : (va &&& 0xFFFFFF#32 &&& ~~~511#32).toNat = destOf va - destOf va % 512 := by rw [and_not_511, hdest]
  have hsum : ((va &&& 0xFFFFFF#32) + count).toNat = destOf va + count.toNat := by
    rw [BitVec.toNat_add, hdest]
    omega
  have hoffset : (offset / 512#32 + 1#32).toNat = offset.toNat / 512 + 1 := by
    have hlt := offset.isLt
    rw [BitVec.toNat_add, BitVec.toNat_udiv, BitVec.toNat_ofNat, BitVec.toNat_ofNat]
    norm_num
    omega
  have hlt := offset.isLt
  have hpolls := h.answers.ready
  have hlen := List.countP_le_length (p := isReady) (l := s.ata.status)
  have hn : sectorsOf (destOf va) count.toNat = ((destOf va + count.toNat) - (destOf va - destOf va % 512) + 511) / 512 := by
    rw [sectorsOf]
    congr 2
    omega
  have hcover : 512 * sectorsOf (destOf va) count.toNat < destOf va % 512 + count.toNat + 512 := by
    rw [sectorsOf]
    omega
  obtain ⟨t, ht, hread⟩ := readsegLoop_eq (va &&& 0xFFFFFF#32 &&& ~~~511#32) ((va &&& 0xFFFFFF#32) + count)
    (offset / 512#32 + 1#32) (s.ata.status.length + 1) h (by rw [hround, hsum, hn]) (by rw [hround]; omega)
    (by omega) (by rw [hoffset]; omega)
  rw [hround, hoffset] at hread
  exact ⟨t, ht, hread⟩

/-! ### The kernel's file -/

/-- The kernel's ELF file, from the second sector of the disk on -/
def kernelFile (disk : Nat → UInt8) : ElfFile := ⟨fun a => disk (512 + a.toNat), 0#32⟩

/-- The bytes of memory to which the sectors of a segment go. -/
def Covers (p : Proghdr) (a : Nat) : Prop :=
  destOf p.pVa - destOf p.pVa % 512 ≤ a ∧ a < destOf p.pVa - destOf p.pVa % 512 + 512 * sectorsOf (destOf p.pVa) p.pMemsz.toNat

instance decidableCovers (p : Proghdr) (a : Nat) : Decidable (Covers p a) := inferInstanceAs (Decidable (_ ∧ _))

/-- What the loader relies on for a segment: that it is at the same place of a sector in the file and in memory, that it ends in
    memory, and that it is not where the headers are. -/
structure Loadable (p : Proghdr) : Prop where
  aligned : p.pOffset.toNat % 512 = destOf p.pVa % 512
  fits : destOf p.pVa + p.pMemsz.toNat + 512 ≤ 4294967296
  apart : destOf p.pVa + p.pMemsz.toNat ≤ 0x10000 ∨ 0x11000 ≤ destOf p.pVa

/-- The entry `i` of the program headers -/
def phAt (x : ElfFile) (i : Nat) : Proghdr := x.ph (BitVec.ofNat 32 i)

/-- What the loader relies on for the file. Where the sectors of a later segment reach into an earlier one, the two are at the
    same distance in the file and in memory: they are in increasing order, and what is copied more than asked is the same. -/
structure KernelImage (x : ElfFile) : Prop where
  magic : x.eMagic = elfMagic
  headers : x.ePhoff.toNat + 32 * x.ePhnum.toNat ≤ 4096
  segments : ∀ i, i < x.ePhnum.toNat → Loadable (phAt x i)
  increasing : ∀ i j, i < j → j < x.ePhnum.toNat → ∀ b, b < (phAt x i).pMemsz.toNat →
    Covers (phAt x j) (destOf (phAt x i).pVa + b) →
    (phAt x i).pOffset.toNat + destOf (phAt x j).pVa = (phAt x j).pOffset.toNat + destOf (phAt x i).pVa

/-- The sectors of the entry `i` -/
def sectorsAt (x : ElfFile) (i : Nat) : Nat := sectorsOf (destOf (phAt x i).pVa) (phAt x i).pMemsz.toNat

/-- The first page of the file is in scratch space. -/
def Scratch (disk : Nat → UInt8) (mem : Memory 32) : Prop :=
  ∀ a, a < 4096 → mem (BitVec.ofNat 32 (0x10000 + a)) = disk (512 + a)

/-- Between the segments: the first `n` are loaded, the headers are still there, and what none of them covers is as it was. -/
structure Loaded (s₀ : Ide) (n : Nat) (s : Ide) : Prop where
  disk : s.ata.disk = s₀.ata.disk
  scratch : Scratch s₀.ata.disk s.mem
  bytes : ∀ i, i < n → ∀ b, b < (phAt (kernelFile s₀.ata.disk) i).pMemsz.toNat →
    s.mem (BitVec.ofNat 32 (destOf (phAt (kernelFile s₀.ata.disk) i).pVa + b)) =
      s₀.ata.disk (512 + (phAt (kernelFile s₀.ata.disk) i).pOffset.toNat + b)
  rest : ∀ a, a < 4294967296 → ¬ (0x10000 ≤ a ∧ a < 0x11000) → (∀ i, i < n → ¬ Covers (phAt (kernelFile s₀.ata.disk) i) a) →
    s.mem (BitVec.ofNat 32 a) = s₀.mem (BitVec.ofNat 32 a)

variable {disk : Nat → UInt8} {mem : Memory 32} {s₀ : Ide} {n : Nat}

/-! ### The headers are read -/

theorem load_scratch (h : Scratch disk mem) {v : Nat} {p : BitVec 32} (hp : p.toNat + v / 8 ≤ 4096) :
    mem.load v (0x10000#32 + p) = (kernelFile disk).memory.load v (0#32 + p) := by
  refine Memory.load_eq_load fun i hi => ?_
  have haddr : 0x10000#32 + p + BitVec.ofNat 32 i = BitVec.ofNat 32 (0x10000 + (p.toNat + i)) := by
    rw [BitVec.ofNat_add, BitVec.ofNat_add, BitVec.ofNat_toNat, BitVec.setWidth_eq, BitVec.add_assoc]
  have hfile : (0#32 + p + BitVec.ofNat 32 i).toNat = p.toNat + i := by
    rw [BitVec.zero_add, BitVec.toNat_add, BitVec.toNat_ofNat]
    omega
  rw [haddr, h (p.toNat + i) (by omega)]
  show _ = disk (512 + (0#32 + p + BitVec.ofNat 32 i).toNat)
  rw [hfile]

theorem proghdrAt_scratch (h : Scratch disk mem) {p : BitVec 32} (hp : p.toNat + 32 ≤ 4096) :
    proghdrAt mem (0x10000#32 + p) = proghdrAt (kernelFile disk).memory (0#32 + p) := by
  have hfield : ∀ j : BitVec 32, j.toNat ≤ 28 →
      mem.load 32 (0x10000#32 + p + j) = (kernelFile disk).memory.load 32 (0#32 + p + j) := by
    intro j hj
    rw [BitVec.add_assoc, BitVec.add_assoc]
    refine load_scratch h ?_
    rw [BitVec.toNat_add]
    omega
  have hfirst : mem.load 32 (0x10000#32 + p) = (kernelFile disk).memory.load 32 (0#32 + p) := load_scratch h (by omega)
  rw [proghdrAt, proghdrAt, hfirst, hfield 4#32 (by decide), hfield 8#32 (by decide), hfield 16#32 (by decide),
    hfield 20#32 (by decide)]

/-! ### The segments are read -/

variable {p : Proghdr}

theorem covers_of_lt {b : Nat} (hb : b < p.pMemsz.toNat) : Covers p (destOf p.pVa + b) := by
  simp only [Covers, sectorsOf]
  omega

theorem not_covers_scratch (h : Loadable p) {a : Nat} (ha : a < 4096) : ¬ Covers p (0x10000 + a) := by
  have happart := h.apart
  simp only [Covers, sectorsOf]
  omega

/-- What the sectors of a segment leave in a byte of memory. -/
theorem sectorsRead_apply (h : Loadable p) {a : Nat} (ha : a < 4294967296) :
    sectorsRead s (destOf p.pVa - destOf p.pVa % 512) (sectorsOf (destOf p.pVa) p.pMemsz.toNat) (p.pOffset.toNat / 512 + 1)
        (BitVec.ofNat 32 a) =
      if Covers p a then s.ata.disk (512 + (p.pOffset.toNat + a - destOf p.pVa)) else s.mem (BitVec.ofNat 32 a) := by
  have hfits := h.fits
  have haligned := h.aligned
  have hend : destOf p.pVa - destOf p.pVa % 512 + 512 * sectorsOf (destOf p.pVa) p.pMemsz.toNat ≤ 2 ^ 32 := by
    rw [sectorsOf]
    omega
  rw [sectorsRead, Memory.overwrite_ofNat (by omega) hend]
  refine ite_congr rfl (fun hcovers => congrArg s.ata.disk ?_) fun _ => rfl
  have hfirst := hcovers.1
  omega

/-- One segment more. -/
theorem Loaded.step (himage : KernelImage (kernelFile s₀.ata.disk)) (h : Loaded s₀ n s)
    (hn : n < (kernelFile s₀.ata.disk).ePhnum.toNat) (hwaiting : s.Waiting (2 * sectorsAt (kernelFile s₀.ata.disk) n + k)) :
    ∃ t, s.readseg (phAt (kernelFile s₀.ata.disk) n).pVa (phAt (kernelFile s₀.ata.disk) n).pMemsz
        (phAt (kernelFile s₀.ata.disk) n).pOffset = some t ∧ Loaded s₀ (n + 1) t ∧ t.Waiting k := by
  have hloadable := himage.segments n hn
  obtain ⟨t, ht, hwaiting', hdisk, hmem⟩ := readseg_eq _ _ (phAt (kernelFile s₀.ata.disk) n).pOffset hloadable.fits
    hwaiting
  have hbyte : ∀ a, a < 4294967296 → t.mem (BitVec.ofNat 32 a) = if Covers (phAt (kernelFile s₀.ata.disk) n) a then
      s₀.ata.disk (512 + ((phAt (kernelFile s₀.ata.disk) n).pOffset.toNat + a - destOf (phAt (kernelFile s₀.ata.disk) n).pVa))
      else s.mem (BitVec.ofNat 32 a) := fun a ha => by rw [hmem, sectorsRead_apply hloadable ha, h.disk]
  refine ⟨t, ht, ⟨hdisk.trans h.disk, fun a ha => ?_, fun i hi b hb => ?_, fun a ha hout hnone => ?_⟩, hwaiting'⟩
  · rw [hbyte _ (by omega), if_neg (not_covers_scratch hloadable ha)]
    exact h.scratch a ha
  · have hfits := (himage.segments i (by omega)).fits
    rw [hbyte _ (by omega)]
    rcases Nat.lt_succ_iff_lt_or_eq.mp hi with hlt | rfl
    · split
      case isTrue hcovers =>
        have hsame := himage.increasing i n hlt hn b hb hcovers
        congr 1
        omega
      case isFalse => exact h.bytes i hlt b hb
    · rw [if_pos (covers_of_lt hb)]
      congr 1
      omega
  · rw [hbyte a ha, if_neg (hnone n n.lt_succ_self)]
    exact h.rest a ha hout fun i hi => hnone i (Nat.lt_succ_of_lt hi)

/-- The pointer to the entry `i` of the program headers in scratch space -/
def phPtr (x : ElfFile) (i : Nat) : BitVec 32 := 0x10000#32 + x.ePhoff + 32#32 * BitVec.ofNat 32 i

theorem phPtr_toNat {x : ElfFile} (h : KernelImage x) {i : Nat} (hi : i ≤ x.ePhnum.toNat) :
    (phPtr x i).toNat = 0x10000 + x.ePhoff.toNat + 32 * i := by
  have hheaders := h.headers
  simp only [phPtr, BitVec.toNat_add, BitVec.toNat_mul, BitVec.toNat_ofNat]
  omega

theorem phPtr_succ (x : ElfFile) (i : Nat) : phPtr x i + 32#32 = phPtr x (i + 1) := by
  rw [phPtr, phPtr, BitVec.ofNat_add, BitVec.mul_add, BitVec.mul_one, BitVec.add_assoc]

theorem proghdrAt_phPtr (himage : KernelImage (kernelFile disk)) (h : Scratch disk mem) {i : Nat}
    (hi : i < (kernelFile disk).ePhnum.toNat) : proghdrAt mem (phPtr (kernelFile disk) i) = phAt (kernelFile disk) i := by
  have hheaders := himage.headers
  rw [phPtr, BitVec.add_assoc, proghdrAt_scratch h, phAt, ElfFile.ph_eq, ← BitVec.add_assoc]
  · rfl
  · simp only [BitVec.toNat_add, BitVec.toNat_mul, BitVec.toNat_ofNat]
    omega

/-- The polls of the entries from `i` on -/
def polls (x : ElfFile) (i n : Nat) : Nat := ((List.range' i n).map fun j => 2 * sectorsAt x j).sum

theorem loadSegments_loaded {left : Nat} (himage : KernelImage (kernelFile s₀.ata.disk)) (h : Loaded s₀ n s)
    (hleft : n + left = (kernelFile s₀.ata.disk).ePhnum.toNat)
    (hwaiting : s.Waiting (polls (kernelFile s₀.ata.disk) n left + k)) :
    ∃ t, loadSegments s (phPtr (kernelFile s₀.ata.disk) n)
        (phPtr (kernelFile s₀.ata.disk) (kernelFile s₀.ata.disk).ePhnum.toNat) left = some t ∧
      Loaded s₀ (kernelFile s₀.ata.disk).ePhnum.toNat t := by
  induction left generalizing n s with
  | zero =>
    rw [Nat.add_zero] at hleft
    rw [← hleft]
    exact ⟨s, if_neg (BitVec.lt_irrefl _), h⟩
  | succ left ih =>
    have hn : n < (kernelFile s₀.ata.disk).ePhnum.toNat := by omega
    obtain ⟨u, hu, hloaded, hwaiting'⟩ := h.step (k := polls (kernelFile s₀.ata.disk) (n + 1) left + k) himage hn (by
      rwa [← Nat.add_assoc, show 2 * sectorsAt (kernelFile s₀.ata.disk) n + polls (kernelFile s₀.ata.disk) (n + 1) left =
        polls (kernelFile s₀.ata.disk) n (left + 1) from rfl])
    obtain ⟨t, ht, hall⟩ := ih hloaded (by omega) hwaiting'
    have hlt : phPtr (kernelFile s₀.ata.disk) n < phPtr (kernelFile s₀.ata.disk) (kernelFile s₀.ata.disk).ePhnum.toNat := by
      rw [BitVec.lt_def, phPtr_toNat himage hn.le, phPtr_toNat himage le_rfl]
      omega
    refine ⟨t, ?_, hall⟩
    rw [loadSegments, if_pos hlt, proghdrAt_phPtr himage h.scratch hn, hu, Option.bind_some, phPtr_succ, ht]

/-! ### The boot -/

/-- The first page is in scratch space, and nothing else has changed. -/
theorem readseg_headers (hwaiting : s.Waiting (16 + k)) : ∃ t, s.readseg 0x10000#32 4096#32 0#32 = some t ∧ Loaded s 0 t ∧
    t.Waiting k := by
  obtain ⟨t, ht, hwaiting', hdisk, hmem⟩ := readseg_eq 0x10000#32 4096#32 0#32 (by decide) hwaiting
  have hbyte : ∀ a, a < 4294967296 → t.mem (BitVec.ofNat 32 a) =
      if 0x10000 ≤ a ∧ a < 0x11000 then s.ata.disk (512 + (a - 0x10000)) else s.mem (BitVec.ofNat 32 a) := fun a ha => by
    rw [hmem]
    exact Memory.overwrite_ofNat ha (by decide)
  refine ⟨t, ht, ⟨hdisk, fun a ha => ?_, fun i hi => absurd hi (Nat.not_lt_zero i), fun a ha hout _ => ?_⟩, hwaiting'⟩
  · rw [hbyte _ (by omega), if_pos (by omega), Nat.add_sub_cancel_left]
  · rw [hbyte a ha, if_neg hout]

theorem cmain_bad (hwaiting : s.Waiting 16) (hmagic : (kernelFile s.ata.disk).eMagic ≠ elfMagic) :
    ∃ t, cmain s = some (t, .bad) := by
  obtain ⟨t, ht, hloaded, -⟩ := readseg_headers (k := 0) hwaiting
  refine ⟨t, ?_⟩
  have hread : (elfhdr t).eMagic = (kernelFile s.ata.disk).eMagic := load_scratch (p := 0#32) hloaded.scratch (by decide)
  rw [cmain, ht, Option.bind_some, hread, if_pos hmagic]

/-- For every disk whose kernel is an image that the loader can load, a drive that gets ready often enough and any memory: the
    entry point is called, with every segment in its place, and what no segment's sectors cover is as it was. -/
theorem cmain_loads (himage : KernelImage (kernelFile s.ata.disk))
    (hwaiting : s.Waiting (16 + polls (kernelFile s.ata.disk) 0 (kernelFile s.ata.disk).ePhnum.toNat)) :
    ∃ t, cmain s = some (t, .entered ((kernelFile s.ata.disk).eEntry &&& 0xFFFFFF#32)) ∧
      Loaded s (kernelFile s.ata.disk).ePhnum.toNat t := by
  obtain ⟨u, hu, hloaded, hwaiting'⟩ := readseg_headers hwaiting
  have hmagic : (elfhdr u).eMagic = (kernelFile s.ata.disk).eMagic := load_scratch (p := 0#32) hloaded.scratch (by decide)
  have hphoff : (elfhdr u).ePhoff = (kernelFile s.ata.disk).ePhoff := load_scratch (p := 28#32) hloaded.scratch (by decide)
  have hphnum : (elfhdr u).ePhnum = (kernelFile s.ata.disk).ePhnum := load_scratch (p := 44#32) hloaded.scratch (by decide)
  obtain ⟨t, ht, hall⟩ := loadSegments_loaded (k := 0) himage hloaded (Nat.zero_add _) hwaiting'
  have hentry : (elfhdr t).eEntry = (kernelFile s.ata.disk).eEntry := load_scratch (p := 24#32) hall.scratch (by decide)
  have hfirst : (elfhdr u).start + (elfhdr u).ePhoff = phPtr (kernelFile s.ata.disk) 0 := by
    rw [phPtr, hphoff, BitVec.mul_zero, BitVec.add_zero]
    rfl
  have hlast : (elfhdr u).start + (elfhdr u).ePhoff + 32#32 * (elfhdr u).ePhnum.setWidth 32 =
      phPtr (kernelFile s.ata.disk) (kernelFile s.ata.disk).ePhnum.toNat := by
    rw [phPtr, hphoff, hphnum, BitVec.ofNat_toNat]
    rfl
  refine ⟨t, ?_, hall⟩
  rw [cmain, hu, Option.bind_some, hmagic, if_neg (not_not_intro himage.magic)]
  dsimp only
  rw [hlast, hfirst, hphnum, ht, Option.map_some, hentry]

/-- A disk whose kernel has one segment, of 600 bytes that are not zero, with the entry point in it -/
def smallKernel : Nat → UInt8
  | 512 => 0x7F
  | 513 => 0x45
  | 514 => 0x4C
  | 515 => 0x46
  | 536 => 0x0C
  | 538 => 0x10
  | 539 => 0xF0
  | 540 => 52
  | 556 => 1
  | 564 => 1
  | 569 => 0x10
  | 574 => 0x10
  | 575 => 0xF0
  | 584 => 0x58
  | 585 => 0x02
  | a => if 0x1200 ≤ a ∧ a < 0x1200 + 600 then 0x90 else 0

theorem smallKernel_phnum : (kernelFile smallKernel).ePhnum.toNat = 1 := by decide

theorem smallKernel_image : KernelImage (kernelFile smallKernel) where
  magic := by decide
  headers := by decide
  segments i hi := by
    obtain rfl : i = 0 := by
      rw [smallKernel_phnum] at hi
      omega
    exact ⟨by decide, by decide, by decide⟩
  increasing i j hij hj := by
    rw [smallKernel_phnum] at hj
    omega

theorem cmain_loads_small : ∃ t, cmain ⟨{ disk := smallKernel, status := List.replicate 20 0x50 }, fun _ => 0⟩ =
    some (t, .entered 0x10000C#32) ∧
      Loaded ⟨{ disk := smallKernel, status := List.replicate 20 0x50 }, fun _ => 0⟩ 1 t :=
  cmain_loads (s := ⟨{ disk := smallKernel, status := List.replicate 20 0x50 }, fun _ => 0⟩) smallKernel_image
    ⟨rfl, answers_replicate 20 rfl rfl⟩

end Fos.Boot
