import Fos.Lib.Memory
import Fos.Proc.Load

/-! `PROGRAM_SEGMENT_FOREACH` (`kern/proc/user_environment.c`): how `env_create` comes to the segments of a program whose ELF
    file is in memory. The fields of the headers that it does not read are left out, and the body of the loop leaves the file
    as it is. -/

namespace Fos.Mem
open Lib

/-! ### The file -/

/-- `ELF_MAGIC` -/
def elfMagic : BitVec 32 := 0x464C457F

/-- `ELF_PROG_LOAD` -/
def elfProgLoad : BitVec 32 := 1

/-- A program in memory, from `ptr_program_start` on -/
structure ElfFile where
  memory : Memory 32
  start : BitVec 32

/-- `struct Proghdr` -/
structure Proghdr where
  pType : BitVec 32
  pOffset : BitVec 32
  pVa : BitVec 32
  pFilesz : BitVec 32
  pMemsz : BitVec 32

namespace ElfFile

def eMagic (x : ElfFile) : BitVec 32 := x.memory.load 32 x.start

def ePhoff (x : ElfFile) : BitVec 32 := x.memory.load 32 (x.start + 28#32)

def ePhnum (x : ElfFile) : BitVec 16 := x.memory.load 16 (x.start + 44#32)

/-- `ph[index]`, in the table or behind it -/
def ph (x : ElfFile) (index : BitVec 32) : Proghdr :=
  let p := x.start + x.ePhoff + 32#32 * index
  ⟨x.memory.load 32 p, x.memory.load 32 (p + 4#32), x.memory.load 32 (p + 8#32), x.memory.load 32 (p + 16#32),
    x.memory.load 32 (p + 20#32)⟩

end ElfFile

/-! ### The functions -/

/-- `struct ProgramSegment` -/
structure ProgramSegment where
  ptrStart : BitVec 32
  sizeInFile : BitVec 32
  sizeInMemory : BitVec 32
  virtualAddress : BitVec 32
  segmentId : BitVec 32

namespace ElfFile

/-- The segment that the entry `index` describes -/
def segment (x : ElfFile) (index : BitVec 32) : ProgramSegment where
  ptrStart := x.start + (x.ph index).pOffset
  sizeInFile := (x.ph index).pFilesz
  sizeInMemory := (x.ph index).pMemsz
  virtualAddress := (x.ph index).pVa
  segmentId := index

/-- `while (ph[segment_id].p_type != ELF_PROG_LOAD && segment_id < e_phnum) segment_id++` -/
def skip (x : ElfFile) (segmentId : BitVec 32) : BitVec 32 :=
  if (x.ph segmentId).pType ≠ elfProgLoad ∧ segmentId < x.ePhnum.setWidth 32 then x.skip (segmentId + 1#32) else segmentId
termination_by x.ePhnum.toNat - segmentId.toNat
decreasing_by
  next hturn =>
    have hlt : segmentId.toNat < (x.ePhnum.setWidth 32).toNat := hturn.2
    have hphnum := x.ePhnum.isLt
    rw [BitVec.toNat_setWidth] at hlt
    rw [BitVec.toNat_add, BitVec.toNat_ofNat]
    omega

/-- `PROGRAM_SEGMENT_FIRST(ptr_program_start)`; `none`, here and below, for a panic. `seg` is the local record, which is not
    initialized. -/
def programSegmentFirst (x : ElfFile) (seg : ProgramSegment) : Option ProgramSegment :=
  if x.eMagic ≠ elfMagic then none
  else
    let index := x.skip 0#32
    if index.toInt < x.ePhnum.toNat then some (x.segment index) else some { seg with segmentId := -1#32 }

/-- `PROGRAM_SEGMENT_NEXT(seg, ptr_program_start)`, whose result can be null -/
def programSegmentNext (x : ElfFile) (seg : ProgramSegment) : Option (Option ProgramSegment) :=
  if x.eMagic ≠ elfMagic then none
  else
    let index := x.skip (seg.segmentId + 1#32)
    if index.toInt < x.ePhnum.toNat then some (some (x.segment index)) else some none

variable {σ : Type}

/-- The `for` of `PROGRAM_SEGMENT_FOREACH`; `none` too if it does not end within the number of turns. -/
def foreachLoop (x : ElfFile) (body : σ → ProgramSegment → Option σ) : Nat → σ → Option ProgramSegment → Option σ
  | 0, _, _ => none
  | _ + 1, s, none => some s
  | turns + 1, s, some seg =>
    (body s seg).bind fun s => (x.programSegmentNext seg).bind fun seg => x.foreachLoop body turns s seg

/-- `PROGRAM_SEGMENT_FOREACH(seg, ptr_program_start)` with the loop body `body` -/
def programSegmentForeach (x : ElfFile) (tmp : ProgramSegment) (body : σ → ProgramSegment → Option σ) (turns : Nat) (s : σ) :
    Option σ :=
  (x.programSegmentFirst tmp).bind fun tmp =>
    x.foreachLoop body turns s (if tmp.segmentId = -1#32 then none else some tmp)

/-! ### The loadable entries -/

/-- The segments of the loadable entries of the table from the entry `i` on, in their order -/
def loadableFrom (x : ElfFile) (i : Nat) : List ProgramSegment :=
  (((List.range' i (x.ePhnum.toNat - i)).map (BitVec.ofNat 32)).filter fun index =>
    (x.ph index).pType = elfProgLoad).map x.segment

/-- All segments of loadable entries -/
def loadable (x : ElfFile) : List ProgramSegment :=
  (((List.range x.ePhnum.toNat).map (BitVec.ofNat 32)).filter fun index => (x.ph index).pType = elfProgLoad).map x.segment

variable {x : ElfFile} {tmp seg : ProgramSegment} {body : σ → ProgramSegment → Option σ} {s : σ} {i j turns : Nat}

theorem loadable_eq (x : ElfFile) : x.loadable = x.loadableFrom 0 := by
  rw [loadable, loadableFrom, List.range_eq_range', Nat.sub_zero]

theorem length_loadable (x : ElfFile) : x.loadable.length ≤ x.ePhnum.toNat := by
  rw [loadable, List.length_map]
  refine Nat.le_trans (List.length_filter_le ..) (Nat.le_of_eq ?_)
  rw [List.length_map, List.length_range]

theorem loadableFrom_end (x : ElfFile) : x.loadableFrom x.ePhnum.toNat = [] := by
  rw [loadableFrom, Nat.sub_self]
  rfl

theorem loadableFrom_of_lt (hi : i < x.ePhnum.toNat) : x.loadableFrom i =
    if (x.ph (BitVec.ofNat 32 i)).pType = elfProgLoad then x.segment (BitVec.ofNat 32 i) :: x.loadableFrom (i + 1)
    else x.loadableFrom (i + 1) := by
  have hsucc : x.ePhnum.toNat - i = x.ePhnum.toNat - (i + 1) + 1 := by omega
  unfold loadableFrom
  rw [hsucc, List.range'_succ, List.map_cons, List.filter_cons]
  split
  · next hload => rw [if_pos (of_decide_eq_true hload), List.map_cons]
  · next hload => rw [if_neg fun h => hload (decide_eq_true h)]

/-! ### Skipping -/

theorem index_lt_iff (hi : i ≤ x.ePhnum.toNat) : BitVec.ofNat 32 i < x.ePhnum.setWidth 32 ↔ i < x.ePhnum.toNat := by
  have hphnum := x.ePhnum.isLt
  rw [BitVec.lt_def, BitVec.toNat_ofNat, BitVec.toNat_setWidth]
  omega

/-- The index as an `int` -/
theorem index_toInt_lt_iff (hi : i ≤ x.ePhnum.toNat) : (BitVec.ofNat 32 i).toInt < x.ePhnum.toNat ↔ i < x.ePhnum.toNat := by
  have hphnum := x.ePhnum.isLt
  rw [BitVec.toInt_eq_toNat_of_lt (by rw [BitVec.toNat_ofNat]; omega), BitVec.toNat_ofNat]
  omega

/-- The loop stops at the next loadable entry, or at the end of the table. -/
theorem skip_spec (hi : i ≤ x.ePhnum.toNat) :
    (x.loadableFrom i = [] ∧ x.skip (BitVec.ofNat 32 i) = BitVec.ofNat 32 x.ePhnum.toNat) ∨
      ∃ j, j < x.ePhnum.toNat ∧ x.skip (BitVec.ofNat 32 i) = BitVec.ofNat 32 j ∧
        x.loadableFrom i = x.segment (BitVec.ofNat 32 j) :: x.loadableFrom (j + 1) := by
  induction hn : x.ePhnum.toNat - i generalizing i with
  | zero =>
    obtain rfl : i = x.ePhnum.toNat := by omega
    refine .inl ⟨loadableFrom_end x, ?_⟩
    rw [skip, if_neg fun h => Nat.lt_irrefl _ ((index_lt_iff hi).mp h.2)]
  | succ n ih =>
    have hlt : i < x.ePhnum.toNat := by omega
    rw [loadableFrom_of_lt hlt, skip]
    by_cases hload : (x.ph (BitVec.ofNat 32 i)).pType = elfProgLoad
    · rw [if_pos hload, if_neg fun h => h.1 hload]
      exact .inr ⟨i, hlt, rfl, rfl⟩
    · rw [if_neg hload, if_pos ⟨hload, (index_lt_iff hi).mpr hlt⟩, ← BitVec.ofNat_add]
      exact ih hlt (by omega)

/-- What both functions find at the place where the loop stops. -/
theorem found_eq (hi : i ≤ x.ePhnum.toNat) :
    (if (x.skip (BitVec.ofNat 32 i)).toInt < x.ePhnum.toNat then some (x.segment (x.skip (BitVec.ofNat 32 i))) else none) =
      (x.loadableFrom i).head? := by
  rcases skip_spec hi with ⟨hnil, hskip⟩ | ⟨j, hj, hskip, hcons⟩
  · rw [hnil, hskip, if_neg fun h => Nat.lt_irrefl _ ((index_toInt_lt_iff (Nat.le_refl _)).mp h)]
    rfl
  · rw [hcons, hskip, if_pos ((index_toInt_lt_iff (Nat.le_of_lt hj)).mpr hj)]
    rfl

/-- A segment of the table is followed by those of the entries behind its own. -/
theorem loadableFrom_cons {segs : List ProgramSegment} (hi : i ≤ x.ePhnum.toNat) (h : x.loadableFrom i = seg :: segs) :
    ∃ j, j < x.ePhnum.toNat ∧ seg = x.segment (BitVec.ofNat 32 j) ∧ segs = x.loadableFrom (j + 1) := by
  rcases skip_spec hi with ⟨hnil, -⟩ | ⟨j, hj, -, hcons⟩
  · exact nomatch hnil.symm.trans h
  · obtain ⟨rfl, rfl⟩ := List.cons.inj (h.symm.trans hcons)
    exact ⟨j, hj, rfl, rfl⟩

theorem programSegmentNext_eq (hmagic : x.eMagic = elfMagic) (hj : j < x.ePhnum.toNat)
    (hseg : seg.segmentId = BitVec.ofNat 32 j) : x.programSegmentNext seg = some (x.loadableFrom (j + 1)).head? := by
  unfold programSegmentNext
  rw [if_neg (not_not.mpr hmagic), hseg, ← BitVec.ofNat_add, ← found_eq hj]
  dsimp only
  split <;> rfl

/-- The loop does not stop at the index that stands for no segment. -/
theorem skip_zero_ne (x : ElfFile) : x.skip 0#32 ≠ -1#32 := by
  have hphnum := x.ePhnum.isLt
  have hne (n : Nat) (hn : n ≤ x.ePhnum.toNat) : BitVec.ofNat 32 n ≠ -1#32 := fun h => by
    have hval := congrArg BitVec.toNat h
    rw [BitVec.toNat_ofNat] at hval
    have hmax : (-1#32).toNat = 4294967295 := rfl
    omega
  rcases skip_spec (Nat.zero_le x.ePhnum.toNat) with ⟨-, hskip⟩ | ⟨j, hj, hskip, -⟩
  · exact fun h => hne _ (Nat.le_refl _) (hskip.symm.trans h)
  · exact fun h => hne j (Nat.le_of_lt hj) (hskip.symm.trans h)

/-- The first segment, as the macro takes it -/
theorem programSegmentFirst_eq (hmagic : x.eMagic = elfMagic) (tmp : ProgramSegment) :
    ∃ first, x.programSegmentFirst tmp = some first ∧
      (if first.segmentId = -1#32 then none else some first) = (x.loadableFrom 0).head? := by
  unfold programSegmentFirst
  rw [if_neg (not_not.mpr hmagic), ← found_eq (Nat.zero_le _)]
  dsimp only
  split
  · exact ⟨_, rfl, if_neg (skip_zero_ne x)⟩
  · exact ⟨_, rfl, if_pos rfl⟩

/-! ### The loop -/

/-- The loop, at the first of the segments that are left -/
theorem foreachLoop_eq (hmagic : x.eMagic = elfMagic) {segs : List ProgramSegment} (hi : i ≤ x.ePhnum.toNat)
    (hsegs : x.loadableFrom i = segs) (hturns : segs.length < turns) (s : σ) :
    x.foreachLoop body turns s segs.head? = segs.foldlM body s := by
  induction segs generalizing i turns s with
  | nil =>
    obtain ⟨n, rfl⟩ := Nat.exists_eq_add_of_lt hturns
    rfl
  | cons seg segs ih =>
    obtain ⟨n, rfl⟩ : ∃ n, turns = n + 1 := Nat.exists_eq_succ_of_ne_zero (Nat.ne_of_gt (Nat.zero_lt_of_lt hturns))
    obtain ⟨j, hj, hseg, hrest⟩ := loadableFrom_cons hi hsegs
    have hnext : x.programSegmentNext seg = some segs.head? := by
      rw [programSegmentNext_eq hmagic hj (congrArg ProgramSegment.segmentId hseg), hrest]
    rw [List.head?_cons, foreachLoop, List.foldlM_cons]
    refine congrArg _ (funext fun s => ?_)
    rw [hnext]
    exact ih hj hrest.symm (Nat.lt_of_succ_lt_succ hturns) s

/-- With a turn for every entry the macro goes through the loadable ones. -/
theorem foreach_eq_foldlM (hmagic : x.eMagic = elfMagic) (hturns : x.ePhnum.toNat < turns) (tmp : ProgramSegment) (s : σ) :
    x.programSegmentForeach tmp body turns s = x.loadable.foldlM body s := by
  obtain ⟨first, hfirst, hhead⟩ := programSegmentFirst_eq hmagic tmp
  unfold programSegmentForeach
  rw [hfirst, Option.bind_some, hhead, loadable_eq]
  refine foreachLoop_eq hmagic (Nat.zero_le _) rfl ?_ s
  rw [← loadable_eq]
  exact Nat.lt_of_le_of_lt (length_loadable x) hturns

/-- The body of the loop is executed for the loadable entries of the table, each once and in their order, and the loop ends;
    on a file without the magic number there is a panic. -/
theorem programSegmentForeach_visits (x : ElfFile) (tmp : ProgramSegment) (body : σ → ProgramSegment → Option σ) (s : σ) :
    ∃ n, ∀ turns, n ≤ turns →
      x.programSegmentForeach tmp body turns s = if x.eMagic = elfMagic then x.loadable.foldlM body s else none := by
  refine ⟨x.ePhnum.toNat + 1, fun turns hturns => ?_⟩
  split
  · next hmagic => exact foreach_eq_foldlM hmagic hturns tmp s
  · next hmagic =>
    unfold programSegmentForeach programSegmentFirst
    rw [if_pos hmagic]
    rfl

end ElfFile

/-! ### The loader -/

/-- What the loader takes from the record -/
def ProgramSegment.toSegment (seg : ProgramSegment) (memory : Memory 32) : Segment where
  source k := memory (seg.ptrStart + BitVec.ofNat 32 k)
  sizeInFile := seg.sizeInFile.toNat
  sizeInMemory := seg.sizeInMemory.toNat
  virtualAddress := seg.virtualAddress.toNat

namespace UserMem

variable {E : Type} [DecidableEq E]

/-- The body of the loop of `env_create`, on the memory and `remaining_ws_pages` -/
def loadSegment (memory : Memory 32) (e : E) (progName : String) (s : UserMem E × Nat) (seg : ProgramSegment) :
    Option (UserMem E × Nat) :=
  (s.1.programSegmentAllocMapCopyWorkingset e progName (seg.toSegment memory) s.2).bind fun (t, allocated) =>
    (t.writeSegment e (seg.toSegment memory)).map (·, s.2 - allocated)

theorem loadSegment_foldlM (memory : Memory 32) (e : E) (progName : String) (s : UserMem E) (remaining : Nat)
    (segs : List ProgramSegment) : (segs.foldlM (loadSegment memory e progName) (s, remaining)).map Prod.fst =
      loadSegments e progName s remaining (segs.map (·.toSegment memory)) := by
  induction segs generalizing s remaining with
  | nil => rfl
  | cons seg segs ih =>
    rw [List.foldlM_cons, List.map_cons, loadSegments, loadSegment]
    cases s.programSegmentAllocMapCopyWorkingset e progName (seg.toSegment memory) remaining with
    | none => rfl
    | some t =>
      obtain ⟨t, allocated⟩ := t
      cases hwrite : t.writeSegment e (seg.toSegment memory) with
      | none => simp [hwrite]
      | some u => simpa [hwrite] using ih u (remaining - allocated)

/-- Step 7 of `env_create` loads the segments that the file describes. -/
theorem foreach_loadSegments {x : ElfFile} {turns : Nat} (hmagic : x.eMagic = elfMagic) (hturns : x.ePhnum.toNat < turns)
    (tmp : ProgramSegment) (e : E) (progName : String) (s : UserMem E) (remaining : Nat) :
    (x.programSegmentForeach tmp (loadSegment x.memory e progName) turns (s, remaining)).map Prod.fst =
      loadSegments e progName s remaining (x.loadable.map (·.toSegment x.memory)) := by
  rw [ElfFile.foreach_eq_foldlM hmagic hturns]
  exact loadSegment_foldlM ..

end UserMem

end Fos.Mem
