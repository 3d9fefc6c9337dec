import Fos.Trap.Fault

/-! A user fault at an address from `USER_TOP` on. The check for kernel addresses comes after the branch on the directory
    entry, so the fault ends in `env_exit` only where the entry is present. -/

namespace Fos.Trap
open Lib Heap Disk Mem

namespace Kernel

variable {E : Type} [DecidableEq E] {s t : Kernel E} {e : E} {va : Nat}

/-- The fault ends with the exit of the environment and leaves the kernel half of its directory as it was. -/
def Rejected (s : Kernel E) (e : E) (va : Nat) : Prop :=
  ∃ t, s.faultHandler e true va = some (t, .exit) ∧ ∀ i, pdx userTop ≤ i → t.entry e i = s.entry e i

theorem pdx_userTop_le (hva : userTop ≤ va) (hlt : va < 4294967296) : pdx userTop ≤ pdx va := by
  rw [Fin.le_def]
  show 955 ≤ va / 4194304 % 1024
  have : 4005560320 ≤ va := hva
  omega

omit [DecidableEq E] in
theorem entry_kernel {i : Fin 1024} (hi : pdx userTop ≤ i) : s.entry e i = s.kernelPde e i :=
  if_neg (Fin.not_lt.mpr hi)

/-- The fault is the third in a row at its address. -/
def Third (s : Kernel E) (e : E) (va : Nat) : Prop := s.repeats e va ∧ s.numRepeatedFault = 2

/-- What a user fault at an address from `USER_TOP` on does. -/
theorem faultHandler_kernel (hva : userTop ≤ va) (hlt : va < 4294967296) (hthird : ¬ s.Third e va) :
    ∃ n, s.faultHandler e true va =
      match s.kernelPde e (pdx va) with
      | none => ({ s with lastFaultVa := va, lastFaultedEnv := some e, numRepeatedFault := n }.tableFaultHandler e va).map
          (·, .served)
      | some table =>
        { s with lastFaultVa := va, lastFaultedEnv := some e, numRepeatedFault := n }.kernelPageFault e true table := by
  refine ⟨if s.repeats e va then s.numRepeatedFault + 1 else 0, ?_⟩
  have hstack : s.stackFault e true va = false := by
    simp only [stackFault, if_true, decide_eq_false_iff_not]
    omega
  have hcount : (if s.repeats e va then s.numRepeatedFault + 1 else 0) ≠ 3 := by
    split
    case isTrue h => exact fun heq => hthird ⟨h, by omega⟩
    case isFalse => exact nofun
  unfold faultHandler
  rw [if_neg (by rw [hstack]; simpa using hcount)]
  dsimp only
  rw [show ∀ n, ({ s with lastFaultVa := va, lastFaultedEnv := some e, numRepeatedFault := n } : Kernel E).entry e (pdx va) =
    s.kernelPde e (pdx va) from fun _ => entry_kernel (pdx_userTop_le hva hlt)]
  cases s.kernelPde e (pdx va) with
  | none => rfl
  | some table => exact if_neg (Nat.not_lt.mpr hva)

/-- A fault that is the third in a row panics. -/
theorem faultHandler_third {userTrap : Bool} (h : s.Third e va) : s.faultHandler e userTrap va = none := by
  obtain ⟨hrepeats, hcount⟩ := h
  unfold faultHandler
  rw [hrepeats, hcount]
  rfl

/-- A user fault at a kernel address is rejected exactly when the directory entry of the address is present, its table can
    be read at its static address, and the fault is not the third in a row. -/
theorem kernel_address_rejected (s : Kernel E) (e : E) (va : Nat) (hva : userTop ≤ va) (hlt : va < 4294967296) :
    s.Rejected e va ↔ (∃ table, s.entry e (pdx va) = some table ∧ table.val < s.mem.run.paging.heap.mem.numberOfFrames ∧
      s.staticReadable e table) ∧ ¬ s.Third e va := by
  rw [entry_kernel (pdx_userTop_le hva hlt)]
  constructor
  · rintro ⟨t, ht, -⟩
    have hthird : ¬ s.Third e va := by
      intro h
      rw [faultHandler_third h] at ht
      exact nomatch ht
    obtain ⟨n, hn⟩ := faultHandler_kernel hva hlt hthird
    rw [hn] at ht
    refine ⟨?_, hthird⟩
    cases htable : s.kernelPde e (pdx va) with
    | none =>
      rw [htable] at ht
      obtain ⟨t', -, heq⟩ := Option.map_eq_some_iff.mp ht
      exact nomatch (Prod.ext_iff.mp heq).2
    | some table =>
      rw [htable] at ht
      refine ⟨table, rfl, ?_⟩
      unfold kernelPageFault at ht
      obtain ⟨hframe, heq⟩ := Option.ite_none_right_eq_some.mp ht
      refine ⟨hframe, ?_⟩
      have houtcome := (Prod.ext_iff.mp (Option.some.inj heq)).2
      dsimp only at houtcome
      split at houtcome
      case isTrue hread => exact hread.2
      case isFalse => exact nomatch houtcome
  · rintro ⟨⟨table, htable, hframe, hread⟩, hthird⟩
    obtain ⟨n, hn⟩ := faultHandler_kernel hva hlt hthird
    refine ⟨{ s with lastFaultVa := va, lastFaultedEnv := some e, numRepeatedFault := n }, ?_, fun i _ => rfl⟩
    rw [hn, htable]
    dsimp only
    unfold kernelPageFault
    rw [if_pos hframe]
    exact congrArg some (Prod.ext rfl (if_pos ⟨rfl, hread⟩))

/-- The tables that the boot makes from `UENVS` on; the 4 MB below `UVPT` have none. -/
def bootPde (i : Fin 1024) : Option PageNo := if i = 956 then none else some (Fin.ofNat _ (690 + (i.val - 955)))

/-- A fault at an address of `UENVS` after the boot. -/
theorem kernel_address_rejected_uenvs : ∃ r₀ : PagingRun Unit, PagingRun.afterBoot Unit 1024 768 = some r₀ ∧
    Rejected { mem := { run := r₀, disk := {} }, kernelPde := fun _ => bootPde, staticEnd := 768 } () 4005560320 := by
  have hrun : ((PagingRun.afterBoot Unit 1024 768).map fun r₀ => r₀.paging.heap.mem.numberOfFrames) = some 1024 := by
    rw [PagingRun.afterBoot_eq]
    decide +kernel
  obtain ⟨r₀, hboot, hframes⟩ := Option.map_eq_some_iff.mp hrun
  refine ⟨r₀, hboot, (kernel_address_rejected _ () 4005560320 (Nat.le_refl _) (by decide)).mpr ⟨⟨690, rfl, ?_, rfl⟩, ?_⟩⟩
  · show 690 < r₀.paging.heap.mem.numberOfFrames
    rw [hframes]
    decide
  · rintro ⟨-, hcount⟩
    exact nomatch hcount

/-- A user fault below `UVPT`, where the directory has no entry: the handler makes a table there, in the kernel half of the
    directory, and the environment goes on. -/
theorem kernel_table_created : ∃ (r₀ : PagingRun Unit) (t : Kernel Unit), PagingRun.afterBoot Unit 1024 768 = some r₀ ∧
    faultHandler { mem := { run := r₀, disk := {} }, kernelPde := fun _ => bootPde, staticEnd := 768 } () true 4009754624 =
      some (t, .served) ∧ bootPde 956 = none ∧ (t.entry () 956).isSome ∧
    ¬ Rejected { mem := { run := r₀, disk := {} }, kernelPde := fun _ => bootPde, staticEnd := 768 } () 4009754624 := by
  have hrun : ((PagingRun.afterBoot Unit 1024 768).bind fun r₀ =>
      (faultHandler { mem := { run := r₀, disk := {} }, kernelPde := fun _ => bootPde, staticEnd := 768 } () true
        4009754624).map fun (t, o) => (o, (t.entry () 956).isSome)) = some (.served, true) := by
    rw [PagingRun.afterBoot_eq]
    decide +kernel
  obtain ⟨r₀, hboot, hrun⟩ := Option.bind_eq_some_iff.mp hrun
  obtain ⟨⟨t, o⟩, ht, hresult⟩ := Option.map_eq_some_iff.mp hrun
  obtain ⟨rfl, hsome⟩ := Prod.ext_iff.mp hresult
  refine ⟨r₀, t, hboot, ht, rfl, hsome, ?_⟩
  rintro ⟨t', ht', -⟩
  rw [ht] at ht'
  exact nomatch (Prod.ext_iff.mp (Option.some.inj ht')).2

end Kernel

end Fos.Trap
