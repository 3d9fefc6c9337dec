import Fos.Proc.CreateEnv

/-! The limit of the working set when `env_create` returns. One place is kept for the page of the stack, which is counted
    unsigned: of the size 0 none can be kept. -/

namespace Fos.Mem
open Lib Heap Disk

namespace WorkingSet

/-- There are no more elements than the size, and a full set has a hand that is one of them; the first fault is placed, or follows
    the hand to an element. -/
structure WithinLimit (w : WorkingSet) : Prop where
  size : w.list.length ≤ w.maxSize
  hand : w.list.length = w.maxSize → ∃ wse ∈ w.list, w.last = some wse
  fault : w.list.length < w.maxSize ∨ ∃ wse ∈ w.list, w.last = some wse

variable {w : WorkingSet} {wse : Nat}

/-- The last element is put at the end: the set is within its limit if there was a place, and it has one if its size is not 0. -/
theorem withinLimit_insertLoaded (hroom : w.maxSize ≠ 0 → w.list.length + 1 ≤ w.maxSize) :
    (w.insertLoaded wse).WithinLimit ↔ w.maxSize ≠ 0 := by
  have hlength : (w.list ++ [wse]).length = w.list.length + 1 := List.length_append
  constructor
  · intro h hzero
    have hsize : (w.list ++ [wse]).length ≤ w.maxSize := h.size
    omega
  · intro hne
    have hsize := hroom hne
    have hhand : (w.list ++ [wse]).length = w.maxSize → ∃ x ∈ w.list ++ [wse], (w.insertLoaded wse).last = some x := fun hfull => by
      have hnonempty : w.list ++ [wse] ≠ [] := List.append_ne_nil_of_right_ne_nil _ (List.cons_ne_nil _ _)
      refine ⟨(w.list ++ [wse]).head hnonempty, List.head_mem hnonempty, ?_⟩
      exact (if_pos hfull).trans (List.head?_eq_some_head hnonempty)
    exact ⟨hlength.trans_le hsize, hhand, (Nat.lt_or_eq_of_le (hlength.trans_le hsize)).imp id hhand⟩

/-- Under the lists of LRU no element stays: the set is full if its size is 0, and then it has no hand. -/
theorem withinLimit_emptied : ({ w with list := [] } : WorkingSet).WithinLimit ↔ w.maxSize ≠ 0 := by
  constructor
  · intro h hzero
    obtain ⟨x, hx, -⟩ := h.hand hzero.symm
    exact nomatch hx
  · intro hne
    have hpos : 0 < w.maxSize := Nat.pos_of_ne_zero hne
    exact ⟨hpos.le, fun hfull => absurd hfull.symm hne, .inl hpos⟩

end WorkingSet

end Fos.Mem

namespace Fos.Proc
open Lib Heap Disk Mem Cpu

namespace EnvSystem

variable {n : Nat} {C : Type} [DecidableEq C] {s t : EnvSystem n C} {e : Fin n} {replacement : PageRepAlgoType}
  {programs : List UserProgramInfo} {a : CreateArgs} {info : UserProgramInfo}

theorem loadProgram_withinLimit_iff {u v : UserMem (Fin n) × LruLists} (hs : loadProgram replacement u e a info = some v) :
    (v.1.ws e).WithinLimit ↔ a.pageWsSize ≠ 0 := by
  have hzero : a.pageWsSize.toNat ≠ 0 ↔ a.pageWsSize ≠ 0 := not_congr (BitVec.toNat_eq (y := 0)).symm
  have hsize : a.pageWsSize.toNat < 4294967296 := a.pageWsSize.isLt
  obtain ⟨-, hs⟩ := Option.ite_none_right_eq_some.mp hs
  obtain ⟨w, wse, hloaded, hmax, hlength⟩ := Loader.envCreate_loaded hs
  rw [hloaded.ws, ← hzero, ← hmax]
  cases hlists : usesLists replacement with
  | true =>
    rw [hlists] at hlength
    rw [List.eq_nil_of_length_eq_zero hlength]
    exact WorkingSet.withinLimit_emptied
  | false =>
    rw [hlists] at hlength
    have hle := Loader.mappedPages_length info.progName (u32 (a.pageWsSize.toNat + 4294967295)) info.segments
    refine WorkingSet.withinLimit_insertLoaded fun hne => ?_
    have hlength : w.list.length ≤ u32 (a.pageWsSize.toNat + 4294967295) := hlength.trans_le hle
    rw [hmax] at hne ⊢
    unfold u32 at hlength
    omega

/-- An environment that is returned was loaded. -/
theorem envCreate_loaded (hs : s.envCreate replacement programs a = .returns t (some e)) :
    ∃ u v info, loadProgram replacement u e a info = some v ∧ t.mem = v.1 := by
  unfold envCreate at hs
  split at hs
  · cases hs
  · split at hs
    · cases hs
    · dsimp only at hs
      split at hs
      · cases hs
      · split at hs
        · cases hs
        · split at hs
          · cases hs
          · next hload =>
            cases hs
            exact ⟨_, _, _, hload, rfl⟩

/-- For every program, memory, replacement algorithm and size: the environment that is returned is within its limit if and only if
    the size is not 0. -/
theorem env_create_within_limit_iff (hs : s.envCreate replacement programs a = .returns t (some e)) :
    (t.mem.ws e).WithinLimit ↔ a.pageWsSize ≠ 0 := by
  obtain ⟨u, v, info, hload, hmem⟩ := envCreate_loaded hs
  rw [hmem]
  exact loadProgram_withinLimit_iff hload

/-- A program with one segment of 64 bytes -/
def hello : UserProgramInfo := ⟨"hello", [⟨fun _ => 0, 32, 64, 8388608⟩]⟩

/-- The environment that is created first -/
def firstEnv : Fin (nEnv 349525) := ⟨0, by decide⟩

/-- The system after the boot, with three free frames of the disk -/
def afterBootDisk : Option (EnvSystem (nEnv 349525) Unit) :=
  afterBoot.map fun s => { s with mem := { s.mem with disk := { diskFreeFrameList := [1, 2, 3].foldl PageFile.initDiskFrame {} } } }

theorem hello_created {size : BitVec 32} (hsize : size = 0 ∨ size = 10) : ∃ s t, afterBootDisk = some s ∧
    s.envCreate .clock [hello] { progName := "hello", pageWsSize := size } = .returns t (some firstEnv) := by
  have hrun : (afterBootDisk.bind fun s =>
      match s.envCreate .clock [hello] { progName := "hello", pageWsSize := size } with
      | .returns _ env => env
      | .panics _ => none
      | .faults => none) = some firstEnv := by
    unfold afterBootDisk afterBoot
    rw [PagingRun.afterBoot_eq, PageFile.initializeDiskPageFile_eq]
    rcases hsize with rfl | rfl
    · decide +kernel
    · decide +kernel
  obtain ⟨s, hs, hrun⟩ := Option.bind_eq_some_iff.mp hrun
  split at hrun
  · next t env hcreate =>
    cases hrun
    exact ⟨s, t, hs, hcreate⟩
  · exact nomatch hrun
  · exact nomatch hrun

theorem env_create_within_limit_ten : ∃ s t, afterBootDisk = some s ∧
    s.envCreate .clock [hello] { progName := "hello", pageWsSize := 10 } = .returns t (some firstEnv) ∧
    ((t.mem.ws firstEnv).WithinLimit ↔ (10 : BitVec 32) ≠ 0) := by
  obtain ⟨s, t, hs, hcreate⟩ := hello_created (.inr rfl)
  exact ⟨s, t, hs, hcreate, env_create_within_limit_iff hcreate⟩

/-- Of the size 0 the segment takes a place all the same. -/
theorem env_create_over_limit : ∃ s t, afterBootDisk = some s ∧
    s.envCreate .clock [hello] { progName := "hello", pageWsSize := 0 } = .returns t (some firstEnv) ∧
    ¬ (t.mem.ws firstEnv).WithinLimit := by
  obtain ⟨s, t, hs, hcreate⟩ := hello_created (.inl rfl)
  obtain ⟨u, v, info, hload, hmem⟩ := envCreate_loaded hcreate
  refine ⟨s, t, hs, hcreate, fun hlimit => ?_⟩
  rw [hmem] at hlimit
  exact (loadProgram_withinLimit_iff hload).mp hlimit rfl

end EnvSystem

end Fos.Proc
