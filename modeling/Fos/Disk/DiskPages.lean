import Fos.Disk.Ide
import Fos.Disk.PageFile
import Fos.Lib.Reach

/-! The disk frames of the page file as sectors of the disk (`read_disk_page`, `write_disk_page` of
    `kern/disk/pagefile_manager.c`): the driver and the drive do what the array of pages of the page file does. -/

namespace Fos.Disk
open Lib

/-- `PAGE_FILE_START_SECTOR` -/
def pageFileStartSector : Nat := 20 * 1048576 / 512

/-- `SECTOR_PER_PAGE` -/
def sectorPerPage : Nat := 4096 / 512

/-- `df_start_sector` -/
def dfStartSector (dfn : Nat) : Nat := u32 (pageFileStartSector + u32 (dfn * sectorPerPage))

/-- A call for the disk frame `dfn` and the page at `va` -/
inductive DiskCall where
  | read (dfn : Nat) (va : BitVec 32)
  | write (dfn : Nat) (va : BitVec 32)

def DiskCall.dfn : DiskCall → Nat
  | .read dfn _ => dfn
  | .write dfn _ => dfn

namespace Ide

/-- `read_disk_page(dfn, va)` -/
def readDiskPage (s : Ide) (dfn : Nat) (va : BitVec 32) : Option Ide := s.ideRead (dfStartSector dfn) va sectorPerPage

/-- `write_disk_page(dfn, va)` -/
def writeDiskPage (s : Ide) (dfn : Nat) (va : BitVec 32) : Option Ide := s.ideWrite (dfStartSector dfn) va sectorPerPage

def diskStep (s : Ide) : DiskCall → Option Ide
  | .read dfn va => s.readDiskPage dfn va
  | .write dfn va => s.writeDiskPage dfn va

end Ide

/-- The bytes of a page -/
def Page.bytes (page : Page) (i : Nat) : UInt8 := if h : i < 4096 then page ⟨i, h⟩ else 0

/-- The page at an address -/
def pageAt (mem : Memory 32) (va : BitVec 32) : Page := fun i => mem (va + BitVec.ofNat 32 i)

/-- What the calls do when the disk frames are an array of pages. -/
def pageStep {E : Type} (s : PageFile E × Memory 32) : DiskCall → PageFile E × Memory 32
  | .read dfn va => (s.1, s.2.overwrite va 4096 (s.1.data dfn).bytes)
  | .write dfn va => (s.1.writeDiskPage dfn (pageAt s.2 va), s.2)

/-- Where the disk frame begins on the disk -/
def frameStart (dfn : Nat) : Nat := 512 * pageFileStartSector + 4096 * dfn

/-- The bytes of the disk that are of the page file -/
def InPageFile (a : Nat) : Prop := frameStart 0 ≤ a ∧ a < frameStart pagesPerFile

/-- The disk frames are on the disk, and the memory is the same. -/
structure OnDisk {E : Type} (s : PageFile E × Memory 32) (t : Ide) : Prop where
  data : ∀ dfn, dfn < pagesPerFile → ∀ i : Fin 4096, t.ata.disk (frameStart dfn + i) = s.1.data dfn i
  mem : t.mem = s.2

variable {E : Type} {s : PageFile E × Memory 32} {t u : Ide} {c : DiskCall} {k : Nat}

theorem sector_eq {dfn : Nat} (h : dfn < pagesPerFile) : 512 * (dfStartSector dfn % 268435456) = frameStart dfn := by
  simp only [pagesPerFile] at h
  simp only [dfStartSector, frameStart, pageFileStartSector, sectorPerPage, u32]
  omega

/-- One call: the drive does to the disk frame what the array of pages says, and to the rest of the disk nothing. -/
theorem OnDisk.step (h : OnDisk s t) (hwaiting : Ide.Waiting (9 + k) t) (hdfn : c.dfn < pagesPerFile) :
    ∃ u, t.diskStep c = some u ∧ OnDisk (pageStep s c) u ∧ Ide.Waiting k u ∧
      ∀ a, ¬ InPageFile a → u.ata.disk a = t.ata.disk a := by
  cases c with
  | read dfn va =>
    change dfn < pagesPerFile at hdfn
    obtain ⟨u, hu, hwaiting', hdisk, hmem⟩ := Ide.ideRead_eq (dfStartSector dfn) va sectorPerPage hwaiting
      (by decide) (by decide)
    rw [sector_eq hdfn] at hmem
    refine ⟨u, hu, ⟨fun d hd i => by rw [hdisk]; exact h.data d hd i, ?_⟩, hwaiting', fun a _ => by rw [hdisk]⟩
    rw [hmem, h.mem]
    refine Memory.overwrite_congr fun i hi => ?_
    have hlt : i < 4096 := hi
    rw [Page.bytes, dif_pos hlt]
    exact h.data dfn hdfn ⟨i, hlt⟩
  | write dfn va =>
    change dfn < pagesPerFile at hdfn
    obtain ⟨u, hu, hwaiting', hmem, hdisk⟩ := Ide.ideWrite_eq (dfStartSector dfn) va sectorPerPage hwaiting
      (by decide) (by decide)
    rw [sector_eq hdfn] at hdisk
    have hlen : 512 * sectorPerPage = 4096 := rfl
    refine ⟨u, hu, ⟨fun d hd i => ?_, hmem.trans h.mem⟩, hwaiting', fun a ha => ?_⟩
    · rw [hdisk, writeBytes, hlen]
      show _ = Function.update s.1.data dfn (pageAt s.2 va) d i
      have hi := i.isLt
      by_cases hsame : d = dfn
      · rw [hsame, Function.update_self, if_pos (by omega), Nat.add_sub_cancel_left, h.mem]
        rfl
      · rw [Function.update_of_ne hsame, ← h.data d hd i]
        refine if_neg ?_
        simp only [frameStart]
        omega
    · rw [hdisk, writeBytes, hlen]
      refine if_neg fun hin => ha ?_
      simp only [InPageFile, frameStart, pagesPerFile] at hin hdfn ⊢
      omega

/-- For every list of reads and writes of disk frames, from an idle drive that gets ready often enough and shows no error, the
    driver and the drive do what the array of pages does, and the disk outside of the page file keeps its content. -/
theorem disk_frames_refine {calls : List DiskCall} (h : OnDisk s t) (hwaiting : Ide.Waiting (9 * calls.length) t)
    (hdfn : ∀ c ∈ calls, c.dfn < pagesPerFile) : ∃ u, exec Ide.diskStep t calls = some u ∧
      OnDisk (calls.foldl pageStep s) u ∧ u.ata.transfer = .idle ∧ ∀ a, ¬ InPageFile a → u.ata.disk a = t.ata.disk a := by
  induction calls generalizing s t with
  | nil => exact ⟨t, rfl, h, hwaiting.idle, fun _ _ => rfl⟩
  | cons c calls ih =>
    have hlen : 9 * (c :: calls).length = 9 + 9 * calls.length := by
      rw [List.length_cons]
      omega
    obtain ⟨u, hu, hon, hwaiting', hsame⟩ := h.step (hlen ▸ hwaiting) (hdfn c List.mem_cons_self)
    obtain ⟨v, hv, hon', hidle, hsame'⟩ := ih hon hwaiting' fun d hd => hdfn d (List.mem_cons_of_mem c hd)
    exact ⟨v, exec_cons.mpr ⟨u, hu, hv⟩, hon', hidle, fun a ha => (hsame' a ha).trans (hsame a ha)⟩

/-- A page is written and read to another place. -/
theorem disk_frames_refine_write_read : ∃ u, exec Ide.diskStep ⟨{ disk := fun _ => 0, status := List.replicate 18 0x40 }, fun _ => 7⟩
    [.write 5 4096, .read 5 8192] = some u ∧
      OnDisk ([DiskCall.write 5 4096, .read 5 8192].foldl pageStep (({} : PageFile Unit), fun _ => 7)) u ∧
      u.ata.transfer = .idle ∧ ∀ a, ¬ InPageFile a → u.ata.disk a = 0 :=
  disk_frames_refine ⟨fun _ _ _ => rfl, rfl⟩ ⟨rfl, answers_replicate 18 rfl rfl⟩ (by decide)

end Fos.Disk
