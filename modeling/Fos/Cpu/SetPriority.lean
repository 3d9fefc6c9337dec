import Fos.Cpu.EnvLookup
import Fos.Cpu.SchedFrame

/-! `env_set_priority` with `ProcessQueues.qlock`. It leaves by returning or through `panic`, which keeps the kernel
    running. -/

namespace Fos.Cpu
open Lib

/-- The environments, the process queues, and whether this CPU holds `ProcessQueues.qlock`. -/
structure LockedQueues (n : Nat) (C : Type) where
  table : EnvTable n C
  qlock : Bool := false

/-- How a call ends. -/
inductive Ending (σ : Type) where
  /-- It returns to its caller. -/
  | returns (s : σ)
  /-- It calls `panic`. -/
  | panics (s : σ)
  /-- It reads beyond the table or follows a null pointer. -/
  | faults

namespace LockedQueues

variable {n : Nat} {C : Type} [DecidableEq C] {s t : LockedQueues n C} {L : Queue C → List (Fin n)} {e : Fin n}
  {envID : BitVec 32} {priority : Int}

/-- `acquire_kspinlock(&ProcessQueues.qlock)`, which panics when this CPU holds the lock. -/
def acquire (s : LockedQueues n C) : Option (LockedQueues n C) := if s.qlock then none else some { s with qlock := true }

def release (s : LockedQueues n C) : LockedQueues n C := { s with qlock := false }

/-- `env_set_priority(envID, priority)`. An environment that is ready is moved by `changePriority`, whose assertions are
    part of the model of the scheduler. -/
def envSetPriority (s : LockedQueues n C) (envID : BitVec 32) (priority : Int) : Ending (LockedQueues n C) :=
  match s.acquire with
  | none => .panics s
  | some s =>
    match s.table.envid2env envID false with
    | .returns flag env =>
      if flag = 0 then
        if priority < 0 ∨ s.table.numOfReadyQueues ≤ priority then .panics s.release
        else
          match env.bind (s.table.toSched.changePriority · priority) with
          | some t => .returns { s with table := { s.table with toSched := t } }.release
          | none => .faults
      else .panics s
    | .outOfBounds _ => .faults
    | .nullCurrent => .faults

/-- From `s` to `t` the environment got the priority: if it was ready it is in the ready queue of that priority, and
    else it stays where it was. The others keep their fields, their queues and their order. -/
structure Prioritized (s t : Sched n C) (L L' : Queue C → List (Fin n)) (e : Fin n) (p : Int) : Prop where
  priority : (t.envs e).priority = p
  status : (t.envs e).envStatus = (s.envs e).envStatus
  queued : Sched.Queued t L' none
  ready : e ∈ L' (.ready p.toNat) ↔ (s.envs e).envStatus = .ready
  stays : (s.envs e).envStatus ≠ .ready → L' = L
  others : ∀ q, (L' q).erase e = (L q).erase e
  envs : ∀ x, x ≠ e → t.envs x = s.envs x
  rest : t = { s with queues := t.queues, envs := t.envs }

/-- The environment exists and the priority is one of a ready queue. -/
def Acceptable (s : LockedQueues n C) (envID : BitVec 32) (priority : Int) : Prop :=
  (∃ e, s.table.Denotes envID e) ∧ 0 ≤ priority ∧ priority < s.table.numOfReadyQueues

/-- The call changes the priority of the environment, or it panics and has changed nothing, and `qlock` is free. -/
def Atomic (s : LockedQueues n C) (L : Queue C → List (Fin n)) (envID : BitVec 32) (priority : Int) : Prop :=
  match s.envSetPriority envID priority with
  | .returns t => t.qlock = false ∧ s.Acceptable envID priority ∧ ∃ e L', s.table.Denotes envID e ∧
      Prioritized s.table.toSched t.table.toSched L L' e priority
  | .panics t => t.qlock = false ∧ ¬ s.Acceptable envID priority ∧ t.table = s.table
  | .faults => False

/-! ### Changing the priority -/

/-- An element that moves from one list to another leaves the others where they are. -/
theorem erase_moved {L : Queue C → List (Fin n)} {p : Queue C} (hp : (L p).Nodup) (hother : ∀ r, r ≠ p → e ∉ L r) (q r : Queue C) :
    let L' := Function.update L p ((L p).erase e)
    (Function.update L' q (e :: L' q) r).erase e = (L r).erase e := by
  have hout : ∀ r, Function.update L p ((L p).erase e) r = (L r).erase e := by
    intro r
    by_cases hr : r = p
    · rw [hr, Function.update_self]
    · rw [Function.update_of_ne hr, List.erase_of_not_mem (hother r hr)]
  have hnot : e ∉ (L r).erase e := by
    by_cases hr : r = p
    · rw [hr]
      exact hp.not_mem_erase
    · exact fun hmem => hother r hr (List.mem_of_mem_erase hmem)
  dsimp only
  by_cases hr : r = q
  · rw [hr, Function.update_self, List.erase_cons_head, hout]
  · rw [Function.update_of_ne hr, hout, List.erase_of_not_mem hnot]

omit [DecidableEq C] in
theorem eq_of_settings {s t : Sched n C} (hsettings : t.settings = s.settings) (hcpu : Sched.SameCpu s t) :
    t = { s with queues := t.queues, envs := t.envs } := by
  obtain ⟨method, num, threshold, envs, queues, proc, status⟩ := t
  obtain ⟨rfl, rfl, rfl⟩ : method = s.schedulerMethod ∧ num = s.numOfReadyQueues ∧ threshold = s.starvThreshold := by
    simpa [Sched.settings] using hsettings
  obtain rfl : proc = s.proc := hcpu.proc
  obtain rfl : status = s.schedulerStatus := hcpu.schedulerStatus
  rfl

theorem changePriority_prioritized {s : Sched n C} (hn : n ≤ 1048576) (h : s.Queued L none) (e : Fin n)
    (hp : 0 ≤ priority ∧ priority < s.numOfReadyQueues) :
    ∃ t L', s.changePriority e priority = some t ∧ Prioritized s t L L' e priority := by
  by_cases hready : (s.envs e).envStatus = .ready
  · have he : e ∈ L (.ready (s.envs e).priority.toNat) :=
      (h.mem e nofun _).mpr ⟨hready, (Int.toNat_of_nonneg (h.priority e (by rw [hready]; nofun)).1).symm⟩
    obtain ⟨t, ht, hq, hcpu⟩ := h.changePriority_ready hn he hp
    have hwrites := Sched.Writes.changePriority ht
    generalize hL' : Function.update (Function.update L _ _) _ _ = L' at hq
    refine ⟨t, L', ht, ?_⟩
    have hmem : e ∈ L' (.ready priority.toNat) := by simp [← hL']
    obtain ⟨hstatus, hprio⟩ := (hq.mem e nofun _).mp hmem
    exact
      { priority := hprio.trans (Int.toNat_of_nonneg hp.1)
        status := hstatus.trans hready.symm
        queued := hq
        ready := iff_of_true hmem hready
        stays := fun hne => absurd hready hne
        others := fun q => by
          rw [← hL']
          exact erase_moved (h.spells.nodup _) (fun r hr hmem => hr (h.spells.disjoint _ _ _ hmem he)) _ q
        envs := hwrites.envs
        rest := eq_of_settings hwrites.settings hcpu }
  · refine ⟨_, L, if_neg hready, ?_⟩
    have hq := h.touch (e := e) (f := ({ · with priority := priority })) rfl rfl (fun hr => absurd hr hready) (fun _ => rfl) fun _ => hp
    exact
      { priority := congrArg Env.priority (Sched.envs_modify_self _)
        status := by rw [Sched.envs_modify_self]
        queued := hq
        ready := iff_of_false (fun hmem => hready ((h.mem e nofun _).mp hmem).1) hready
        stays := fun _ => rfl
        others := fun _ => rfl
        envs := fun x hx => Sched.envs_modify_of_ne _ hx
        rest := rfl }

/-! ### Finding the environment -/

omit [DecidableEq C] in
theorem envid2env_denoted {s : EnvTable n C} (hn : n ≤ 1048576) (h : s.toSched.Queued L none) (hd : s.Denotes envID e) :
    s.envid2env envID false = .returns 0 (some e) := by
  by_cases hne : envID = 0
  · subst hne
    rw [EnvTable.envid2env_zero, EnvTable.denotes_zero.mp hd]
  · obtain ⟨hlive, hid⟩ := (EnvTable.denotes_iff hne).mp hd
    have hfound := h.envid2env hn hlive
    rw [hid] at hfound
    exact (EnvTable.envid2env_unchecked s envID _).mp hfound

omit [DecidableEq C] in
theorem envid2env_unknown {s : EnvTable n C} (hne : envID ≠ 0) (hnot : ¬ ∃ e, s.Denotes envID e) :
    s.envid2env envID false = .returns eBadEnv none ∨ ∃ x, s.envid2env envID false = .outOfBounds x := by
  by_cases hx : Sched.envx n envID < n
  · have hbad : (s.envs ⟨_, hx⟩).envStatus = .free ∨ (s.envs ⟨_, hx⟩).envId ≠ envID := by
      by_contra hlive
      exact hnot ⟨⟨_, hx⟩, (EnvTable.denotes_iff hne).mpr (by tauto)⟩
    exact .inl ((EnvTable.envid2env_slot (e := ⟨_, hx⟩) hne rfl).trans (if_pos hbad))
  · exact .inr ⟨_, EnvTable.envid2env_outOfBounds hne hx⟩

/-! ### The call -/

theorem envSetPriority_found (hfree : s.qlock = false) {r : Option (Fin n)} (hr : s.table.envid2env envID false = .returns 0 r) :
    s.envSetPriority envID priority =
      if priority < 0 ∨ s.table.numOfReadyQueues ≤ priority then .panics s
      else
        match r.bind (s.table.toSched.changePriority · priority) with
        | some t => .returns { s with table := { s.table with toSched := t } }
        | none => .faults := by
  obtain ⟨table, qlock⟩ := s
  subst hfree
  have hr' : table.envid2env envID false = .returns 0 r := hr
  simp only [envSetPriority, acquire, release, hr', Bool.false_eq_true, if_false, if_true]

theorem envSetPriority_unknown (hfree : s.qlock = false) (hr : s.table.envid2env envID false = .returns eBadEnv none) :
    s.envSetPriority envID priority = .panics { s with qlock := true } := by
  obtain ⟨table, qlock⟩ := s
  subst hfree
  have hr' : table.envid2env envID false = .returns eBadEnv none := hr
  have hne : eBadEnv ≠ 0 := by decide
  simp only [envSetPriority, acquire, hr', Bool.false_eq_true, if_false, hne]

theorem envSetPriority_beyond (hfree : s.qlock = false) {x : Nat} (hr : s.table.envid2env envID false = .outOfBounds x) :
    s.envSetPriority envID priority = .faults := by
  obtain ⟨table, qlock⟩ := s
  subst hfree
  have hr' : table.envid2env envID false = .outOfBounds x := hr
  simp only [envSetPriority, acquire, hr', Bool.false_eq_true, if_false]

theorem not_atomic_of_locked (hcall : s.envSetPriority envID priority = .panics t) (hlock : t.qlock = true) :
    ¬ s.Atomic L envID priority := by
  unfold Atomic
  rw [hcall]
  exact fun hatomic => nomatch hlock.symm.trans hatomic.1

/-- In every state of the process queues in which `qlock` is free, `env_set_priority` is atomic if and only if the id is
    that of an environment, or it is 0 and the priority is out of bounds. -/
theorem env_set_priority_atomic_iff (sizeofEnv : Nat) {s : LockedQueues (nEnv sizeofEnv) C}
    {L : Queue C → List (Fin (nEnv sizeofEnv))} (h : s.table.toSched.Queued L none) (hfree : s.qlock = false)
    (envID : BitVec 32) (priority : Int) : s.Atomic L envID priority ↔
      (∃ e, s.table.Denotes envID e) ∨ envID = 0 ∧ ¬(0 ≤ priority ∧ priority < s.table.numOfReadyQueues) := by
  have hrange : priority < 0 ∨ s.table.numOfReadyQueues ≤ priority ↔
      ¬(0 ≤ priority ∧ priority < s.table.numOfReadyQueues) := by omega
  by_cases hknown : ∃ e, s.table.Denotes envID e
  · refine iff_of_true ?_ (.inl hknown)
    obtain ⟨e, he⟩ := hknown
    unfold Atomic
    rw [envSetPriority_found hfree (envid2env_denoted (nEnv_le sizeofEnv) h he)]
    by_cases hout : priority < 0 ∨ s.table.numOfReadyQueues ≤ priority
    · rw [if_pos hout]
      exact ⟨hfree, fun hacceptable => hrange.mp hout hacceptable.2, rfl⟩
    · have hp := not_not.mp (mt hrange.mpr hout)
      obtain ⟨t, L', ht, hprioritized⟩ := changePriority_prioritized (nEnv_le sizeofEnv) h e hp
      rw [if_neg hout, Option.bind_some, ht]
      exact ⟨hfree, ⟨⟨e, he⟩, hp⟩, e, L', he, hprioritized⟩
  · rw [or_iff_right hknown]
    by_cases hzero : envID = 0
    · subst hzero
      rw [and_iff_right rfl, ← hrange]
      have hproc : s.table.proc = none := by
        by_contra hsome
        obtain ⟨e, he⟩ := Option.ne_none_iff_exists'.mp hsome
        exact hknown ⟨e, EnvTable.denotes_zero.mpr he⟩
      have hnull : s.table.envid2env 0 false = .returns 0 none := hproc ▸ EnvTable.envid2env_zero
      unfold Atomic
      rw [envSetPriority_found hfree hnull]
      by_cases hout : priority < 0 ∨ s.table.numOfReadyQueues ≤ priority
      · rw [if_pos hout]
        exact iff_of_true ⟨hfree, fun hacceptable => hknown hacceptable.1, rfl⟩ hout
      · rw [if_neg hout]
        exact iff_of_false id hout
    · refine iff_of_false ?_ fun hand => hzero hand.1
      rcases envid2env_unknown hzero hknown with hbad | ⟨x, hbeyond⟩
      · exact not_atomic_of_locked (envSetPriority_unknown hfree hbad) rfl
      · unfold Atomic
        rw [envSetPriority_beyond hfree hbeyond]
        exact id

/-- A ready environment goes from level 0 to level 1. -/
theorem env_set_priority_atomic_ready : ∃ (s : LockedQueues (nEnv 349525) Unit) (L : Queue Unit → List (Fin (nEnv 349525)))
    (e : Fin (nEnv 349525)) (id : BitVec 32), s.table.toSched.Queued L none ∧ s.qlock = false ∧
      (s.table.envs e).envStatus = .ready ∧ s.table.Denotes id e ∧ s.Atomic L id 1 := by
  obtain ⟨s₀, h₀⟩ : ∃ s₀ : Sched (nEnv 349525) Unit, Sched.schedInitPRIRR 2 9 = some s₀ := ⟨_, rfl⟩
  let e : Fin (nEnv 349525) := ⟨1, by decide⟩
  have hrun : ((Sched.schedInitPRIRR 2 9).bind fun s₀ : Sched (nEnv 349525) Unit =>
      (exec SchedRun.step ⟨s₀, []⟩ [.newEnv (some 0), .newEnv (some 0), .runAll]).map fun s =>
        ((s.sched.envs e).envStatus, (s.sched.envs e).envId)) = some (.ready, 9) := by
    decide +kernel
  rw [h₀, Option.bind_some] at hrun
  obtain ⟨s, hs, heq⟩ := Option.map_eq_some_iff.mp hrun
  obtain ⟨hready, hid⟩ := Prod.mk.inj heq
  obtain ⟨⟨L, hinv⟩, -⟩ := SchedRun.Inv.reach (by decide) (.inr ⟨2, 9, h₀⟩) (Reach.of_exec_any hs)
  let locked : LockedQueues (nEnv 349525) Unit := { table := { s.sched with } }
  have hdenotes : locked.table.Denotes 9 e :=
    (EnvTable.denotes_iff (by decide)).mpr ⟨ne_of_eq_of_ne hready nofun, hid⟩
  exact ⟨locked, L, e, 9, hinv.toQueued, rfl, hready, hdenotes,
    (env_set_priority_atomic_iff 349525 hinv.toQueued rfl 9 1).mpr (.inl ⟨e, hdenotes⟩)⟩

/-- After the boot no environment has the id 5. The call panics with `qlock` held, so that no function of the scheduler
    can acquire it at the prompt. -/
theorem env_set_priority_holds_qlock : ∃ (s : LockedQueues (nEnv 1480) Unit) (L : Queue Unit → List (Fin (nEnv 1480))),
    s.table.toSched.Queued L none ∧ s.qlock = false ∧ ∃ t, s.envSetPriority 5 0 = .panics t ∧ t.acquire = none ∧
      ¬ s.Atomic L 5 0 := by
  obtain ⟨L, hinv⟩ := EnvTable.afterInit_inv (n := nEnv 1480) (C := Unit)
  let s : LockedQueues (nEnv 1480) Unit := { table := .afterInit }
  have hbad : s.table.envid2env 5 false = .returns eBadEnv none :=
    EnvTable.afterInit_unknown (by decide) (by decide +kernel)
  have hcall : s.envSetPriority 5 0 = .panics { s with qlock := true } := envSetPriority_unknown rfl hbad
  exact ⟨s, L, hinv.toQueued, rfl, _, hcall, rfl, not_atomic_of_locked hcall rfl⟩

end LockedQueues

end Fos.Cpu
