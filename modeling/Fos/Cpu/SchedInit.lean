import Fos.Cpu.Aging

/-! The commands that start a scheduler anew while environments wait: `sched_init_RR` and `sched_init_PRIRR` make new ready
    queues, and the environments that are new or blocked keep the priorities that they have. The kernel heap does not run
    out. -/

namespace Fos.Cpu
open Lib

/-- `QUANTUM_LIMIT` -/
def quantumLimit : Nat := 1000 * 2 ^ 16 / 1193182

namespace Sched

variable {n : Nat} {C : Type} [DecidableEq C]

/-- `init_queue(&env_ready_queues[i])` for the first `k` queues -/
def initReadyQueues (s : Sched n C) (k : Nat) : Sched n C :=
  { s with queues := (List.range k).foldl (fun queues i => queues.init (.ready i)) s.queues }

/-- `sched_init_RR(quantum)`: `kclock_set_quantum` panics when the quantum is too large. -/
def restartRR (s : Sched n C) (quantum : Nat) : Option (Sched n C) :=
  if quantum < quantumLimit then
    some { s.initReadyQueues 1 with schedulerMethod := .RR, numOfReadyQueues := 1, schedulerStatus := .stopped }
  else none

/-- `sched_init_PRIRR(numOfPriorities, quantum, starvThresh)` -/
def restartPRIRR (s : Sched n C) (numOfPriorities quantum starvThresh : Nat) : Option (Sched n C) :=
  if quantum = 0 then none
  else if numOfPriorities = 0 then s.restartRR quantum
  else if quantum < quantumLimit ∧ starvThresh ≠ 0 then
    some { s.initReadyQueues numOfPriorities with
           schedulerMethod := .PRIRR, numOfReadyQueues := numOfPriorities, starvThreshold := starvThresh
           schedulerStatus := .stopped }
  else none

end Sched

/-- A scheduler is started anew, or something happens to the process queues. -/
inductive SchedCommand (C : Type) where
  | initRR (quantum : Nat)
  | initPRIRR (numOfPriorities quantum starvThresh : Nat)
  | event (ev : SchedEvent C)

namespace Sched

variable {n : Nat} {C : Type} {s t : Sched n C} {L : Queue C → List (Fin n)} {hand : Option (Fin n)} {e : Fin n}

/-- No environment is ready or running. -/
def Idle (s : Sched n C) : Prop := ∀ e, (s.envs e).envStatus ≠ .ready ∧ (s.envs e).envStatus ≠ .running

/-- The environments that wait to become ready have priorities for `k` queues. -/
def Fits (s : Sched n C) (k : Nat) : Prop :=
  ∀ e, (s.envs e).envStatus = .new ∨ (s.envs e).envStatus = .blocked → (s.envs e).priority < k

instance : Decidable s.Idle := inferInstanceAs (Decidable (∀ _, _ ∧ _))

instance (k : Nat) : Decidable (s.Fits k) := inferInstanceAs (Decidable (∀ _, _ → _))

/-- An environment that was never created has the priority 0. -/
def Zeroed (s : Sched n C) : Prop := ∀ e, (s.envs e).envStatus = .free → (s.envs e).priority = 0

variable [DecidableEq C]

/-- Queues that are empty are not changed. -/
theorem initReadyQueues_eq (h : s.queues.Spells L) (hempty : ∀ i, L (.ready i) = []) (k : Nat) : s.initReadyQueues k = s := by
  have hinit : ∀ i, s.queues.init (.ready i) = s.queues := by
    intro i
    have hfirst := h.first (.ready i)
    have hlast := h.last (.ready i)
    have hsize := h.size (.ready i)
    rw [hempty i] at hfirst hlast hsize
    have hhead : s.queues.head (.ready i) = {} := by
      cases hq : s.queues.head (.ready i) with
      | mk first last size =>
        rw [hq] at hfirst hlast hsize
        cases hfirst
        cases hlast
        cases hsize
        rfl
    unfold Lists.init
    rw [← hhead, Function.update_eq_self]
  have hfold : ∀ l : List Nat, l.foldl (fun queues i => queues.init (.ready i)) s.queues = s.queues := by
    intro l
    induction l with
    | nil => rfl
    | cons i l ih => rw [List.foldl_cons, hinit i, ih]
  unfold initReadyQueues
  rw [hfold]

/-- What a new scheduler finds. -/
theorem Inv.restart (h : Inv s L) (hzero : s.Zeroed) (hidle : s.Idle) {method : SchedMethod} {k thr : Nat} (hpos : 0 < k)
    (hrr : method = .RR → k = 1) (hfits : s.Fits k) :
    Inv { s.initReadyQueues k with
          schedulerMethod := method, numOfReadyQueues := k, starvThreshold := thr, schedulerStatus := .stopped } L := by
  have hempty : ∀ i, L (.ready i) = [] := fun i => List.eq_nil_iff_forall_not_mem.mpr fun e he =>
    (hidle e).1 ((h.mem e nofun (.ready i)).mp he).1
  have hproc : s.proc = none := by
    cases hp : s.proc with
    | none => rfl
    | some p => exact absurd ((h.running p).mp hp) (hidle p).2
  rw [initReadyQueues_eq h.spells hempty]
  refine ⟨⟨h.spells, h.mem, h.placed, h.not_mem, h.id, fun e he => ?_, hrr⟩, h.running, fun _ => hproc⟩
  show 0 ≤ (s.envs e).priority ∧ (s.envs e).priority < k
  have hrange := h.priority e he
  obtain ⟨p, hp⟩ := h.placed e nofun
  rcases p with (_ | _ | _ | i | c) | _
  · rw [hzero e hp]
    omega
  · exact ⟨hrange.1, hfits e (.inl hp)⟩
  · exact absurd hp he
  · exact absurd hp.1 (hidle e).1
  · exact ⟨hrange.1, hfits e (.inr hp.1)⟩
  · exact absurd hp (hidle e).2

end Sched

namespace SchedRun

variable {n : Nat} {C : Type} [DecidableEq C] {s t : SchedRun n C} {ev : SchedEvent C} {c : SchedCommand C}

def command (s : SchedRun n C) : SchedCommand C → Option (SchedRun n C)
  | .initRR quantum => (s.sched.restartRR quantum).map (⟨·, s.created⟩)
  | .initPRIRR numOfPriorities quantum starvThresh =>
    (s.sched.restartPRIRR numOfPriorities quantum starvThresh).map (⟨·, s.created⟩)
  | .event ev => s.step ev

/-- A scheduler is started anew only while no environment is ready or running. -/
def Idles (s : SchedRun n C) : SchedCommand C → Prop
  | .initRR _ | .initPRIRR _ _ _ => s.sched.Idle
  | .event _ => True

/-- The new scheduler has a queue for the priority of every environment that waits. -/
def KeepsQueues (s : SchedRun n C) : SchedCommand C → Prop
  | .initRR _ => s.sched.Fits 1
  | .initPRIRR numOfPriorities _ _ => s.sched.Fits (if numOfPriorities = 0 then 1 else numOfPriorities)
  | .event _ => True

/-- The event is one that the code itself refuses: with a panic or because nothing runs, but not at an index. -/
def Refuses (s : SchedRun n C) : SchedEvent C → Prop
  | .newEnv priority => (s.sched.queues.head .free).first = none ∨ ∃ p, priority = some p ∧ ¬(0 ≤ p ∧ p < s.sched.numOfReadyQueues)
  | .runAll => s.sched.schedulerStatus = .started
  | .setPriority id p => (∀ e, s.sched.envid2env id ≠ some (some e)) ∨ ¬(0 ≤ p ∧ p < s.sched.numOfReadyQueues)
  | .yield | .sleep _ | .sleepReturn | .exit => s.sched.proc = none
  | .schedule => ¬(s.sched.proc = none ∧ s.sched.schedulerStatus = .started)
  | .runEnv _ | .clock | .wakeupOne _ | .wakeupAll _ | .exitAllReady => False

/-- Every environment that can be inserted into a ready queue has a priority that is the index of one, and no event
    fails for want of a queue. -/
structure InRange (s : SchedRun n C) : Prop where
  priority : ∀ e, (s.sched.envs e).envStatus ≠ .exit → 0 ≤ (s.sched.envs e).priority ∧ (s.sched.envs e).priority < s.sched.numOfReadyQueues
  index : ∀ ev, s.step ev = none → s.Refuses ev

omit [DecidableEq C] in
theorem not_keeps_none {r : Option (Sched n C)} {f : Sched n C → SchedRun n C} (hr : Sched.Keeps s.sched r)
    (hs : r.map f = none) : False := by
  obtain ⟨u, L, rfl, -⟩ := hr
  exact nomatch hs

theorem Inv.refuses (hn : n ≤ 1048576) (h : Inv s) (hs : s.step ev = none) : s.Refuses ev := by
  obtain ⟨L, hinv⟩ := h.1
  -- An operation of the environment on the CPU fails only when there is none.
  have hidle : ∀ {r : Option (Sched n C)}, r.map (⟨·, s.created⟩) = (none : Option (SchedRun n C)) →
      (∀ p, s.sched.proc = some p → Sched.Keeps s.sched r) → s.sched.proc = none := by
    intro r hr hkeeps
    cases hp : s.sched.proc with
    | none => rfl
    | some p => exact (not_keeps_none (hkeeps p hp) hr).elim
  cases ev with
  | newEnv priority =>
    cases hcreate : s.sched.envCreate with
    | none => exact .inl (Option.map_eq_none_iff.mp hcreate)
    | some r =>
      obtain ⟨t, e⟩ := r
      obtain ⟨-, hnew, ⟨L', hq⟩, -⟩ := hinv.envCreate hn hcreate
      have hnum : t.numOfReadyQueues = s.sched.numOfReadyQueues := by
        obtain ⟨e', -, heq⟩ := Option.map_eq_some_iff.mp hcreate
        cases heq
        rfl
      have hs : SchedRun.newEnv s priority = none := hs
      rw [SchedRun.newEnv, hcreate, Option.bind_some] at hs
      cases priority with
      | none => cases hs
      | some p =>
        refine .inr ⟨p, rfl, fun hp => ?_⟩
        have hnotready : (t.envs e).envStatus ≠ .ready := by rw [hnew]; decide
        have hset : t.envSetPriority (t.envs e).envId p = some (t.modify e ({ · with priority := p })) := by
          unfold Sched.envSetPriority
          rw [hq.envid2env hn (by rw [hnew]; decide)]
          exact (if_neg (by omega)).trans (if_neg hnotready)
        dsimp only at hs
        rw [hset] at hs
        cases hs
  | runEnv envId => exact (not_keeps_none (hinv.schedRunEnv hn envId) hs).elim
  | runAll =>
    cases hst : s.sched.schedulerStatus with
    | started => exact hst
    | stopped =>
      obtain ⟨u, L', hu, hinv', hcpu⟩ := hinv.newToReady (k := (L .new).length) rfl
      have hsize : (s.sched.queues.head .new).size.toNat = (L .new).length := by
        have := hinv.length_le hn .new
        rw [hinv.spells.size, UInt32.toNat_ofNat', Nat.mod_eq_of_lt (by omega)]
      have hstopped : u.schedulerStatus = .stopped := hcpu.schedulerStatus.trans hst
      obtain ⟨v, L'', hv, -⟩ := hinv'.fosScheduler hn hstopped
      have hrun : s.sched.schedRunAll = some v := by
        rw [Sched.schedRunAll, hsize, hu, Option.bind_some, if_pos hstopped, hv]
      cases (congrArg (Option.map fun u => (⟨u, s.created⟩ : SchedRun n C)) hrun).symm.trans hs
  | yield => exact hidle hs fun p hp => hinv.yield hn hp
  | clock => exact (not_keeps_none (hinv.clockInterruptHandler hn) hs).elim
  | setPriority id p =>
    cases hid : s.sched.envid2env id with
    | none => exact .inl fun e he => by cases hid.symm.trans he
    | some o =>
      cases o with
      | none => exact .inl fun e he => by cases hid.symm.trans he
      | some e =>
        refine .inr fun hp => ?_
        obtain ⟨u, L', hu, -⟩ := hinv.changePriority hn e hp
        have hset : s.sched.envSetPriority id p = some u := by
          unfold Sched.envSetPriority
          rw [hid]
          exact (if_neg (by omega)).trans hu
        cases (congrArg (Option.map fun u => (⟨u, s.created⟩ : SchedRun n C)) hset).symm.trans hs
  | sleep chan => exact hidle hs fun p hp => hinv.sleep hn hp chan
  | sleepReturn =>
    cases hp : s.sched.proc with
    | none => exact hp
    | some p =>
      have hs : s.sched.sleepReturn.map (⟨·, s.created⟩) = (none : Option (SchedRun n C)) := hs
      rw [Sched.sleepReturn, hp] at hs
      cases hs
  | wakeupOne chan => exact (not_keeps_none (hinv.wakeupOne chan) hs).elim
  | wakeupAll chan =>
    exact (not_keeps_none (hinv.wakeupAll (Nat.lt_of_le_of_lt (hinv.length_le hn _) (by decide))) hs).elim
  | exit => exact hidle hs fun p hp => hinv.envExit hn hp
  | exitAllReady => exact (not_keeps_none (hinv.schedExitAllReadyEnvs hn) hs).elim
  | schedule =>
    rintro ⟨hp, hstarted⟩
    have hchoosing : Sched.Choosing s.sched L none :=
      ⟨hinv.toQueued, hp, fun _ h => (by cases h), fun e he => by cases hp.symm.trans ((hinv.running e).mpr he)⟩
    have hs : (if s.sched.proc = none ∧ s.sched.schedulerStatus = .started then s.sched.dispatch.map (⟨·, s.created⟩) else none) =
      (none : Option (SchedRun n C)) := hs
    rw [if_pos ⟨hp, hstarted⟩] at hs
    exact not_keeps_none (hchoosing.dispatch hn hstarted) hs

theorem Inv.inRange (hn : n ≤ 1048576) (h : Inv s) : s.InRange := by
  obtain ⟨L, hinv⟩ := h.1
  exact ⟨hinv.priority, fun ev hs => h.refuses hn hs⟩

/-! ### The environments that were never created -/

theorem created_subset (hn : n ≤ 1048576) (h : Inv s) (hs : s.step ev = some t) : ∀ e ∈ s.created, e ∈ t.created := by
  intro e he
  cases ev with
  | newEnv priority =>
    obtain ⟨v, d, L, rfl, -⟩ := h.created hn hs
    exact List.mem_cons_of_mem _ he
  | schedule =>
    obtain ⟨-, hs⟩ := Option.ite_none_right_eq_some.mp hs
    obtain ⟨u, -, rfl⟩ := Option.map_eq_some_iff.mp hs
    exact he
  | _ =>
    obtain ⟨u, -, rfl⟩ := Option.map_eq_some_iff.mp hs
    exact he

omit [DecidableEq C] in
theorem Inv.not_free (h : Inv s) {id : BitVec 32} {e : Fin n} (he : s.sched.envid2env id = some (some e)) :
    (s.sched.envs e).envStatus ≠ .free := by
  obtain ⟨L, hinv⟩ := h.1
  unfold Sched.envid2env at he
  split at he
  · have hrun := (hinv.running e).mp (Option.some.inj he)
    rw [hrun]
    nofun
  · dsimp only at he
    split at he
    · obtain ⟨hnot, he⟩ := Option.ite_none_left_eq_some.mp he
      obtain rfl := Option.some.inj (Option.some.inj he)
      exact fun hfree => hnot (.inl hfree)
    · exact nomatch he

theorem Inv.zeroed (hn : n ≤ 1048576) (h : Inv s) (hzero : s.sched.Zeroed) (hs : s.step ev = some t) : t.sched.Zeroed := by
  intro e he
  have hinv' := h.step hn hs
  have hwas : (s.sched.envs e).envStatus = .free := by
    by_contra hlive
    exact (hinv'.2 e).mp (created_subset hn h hs e ((h.2 e).mpr hlive)) he
  have hprio : (t.sched.envs e).priority = (s.sched.envs e).priority := by
    cases ev with
    | newEnv priority =>
      obtain ⟨v, d, L, rfl, hfree, -, -, -, -, hothers⟩ := h.created hn hs
      have hne : e ≠ d := by
        rintro rfl
        exact (hinv'.2 e).mp (List.mem_cons_self ..) he
      have henv : (v.schedNewEnv d).envs e = v.envs e := Sched.envs_modify_of_ne (s := v) ({ · with envStatus := .new }) hne
      show ((v.schedNewEnv d).envs e).priority = _
      rw [henv, hothers e hne]
    | clock =>
      obtain ⟨u, hu, rfl⟩ := Option.map_eq_some_iff.mp hs
      obtain ⟨L, hinv⟩ := h.1
      rcases hmethod : s.sched.schedulerMethod with _ | _
      · unfold Sched.clockInterruptHandler at hu
        rw [hmethod, if_neg nofun, Option.bind_some] at hu
        split at hu
        · cases hu
          rfl
        · exact (Sched.AgesKept.yield hu).priority e
      · exact (hinv.ticked hn hmethod hu).others e (by rw [hwas]; nofun)
    | setPriority id p =>
      obtain ⟨u, hu, rfl⟩ := Option.map_eq_some_iff.mp hs
      obtain ⟨d, hd, -, -, hu⟩ := Sched.envSetPriority_eq hu
      have hne : e ≠ d := by
        rintro rfl
        exact h.not_free hd hwas
      exact congrArg Env.priority ((Sched.Writes.changePriority hu).envs e hne)
    | _ => exact (ages_kept (by trivial) hs).priority e
  rw [hprio, hzero e hwas]

/-! ### Runs with commands -/

def CommandInv (s : SchedRun n C) : Prop := Inv s ∧ s.sched.Zeroed

theorem CommandInv.restartRR {quantum : Nat} {u : Sched n C} (h : CommandInv s) (hidle : s.sched.Idle)
    (hfits : s.sched.Fits 1) (hs : s.sched.restartRR quantum = some u) : CommandInv ⟨u, s.created⟩ := by
  obtain ⟨⟨⟨L, hinv⟩, hcreated⟩, hzero⟩ := h
  obtain ⟨-, hs⟩ := Option.ite_none_right_eq_some.mp hs
  cases hs
  exact ⟨⟨⟨L, hinv.restart hzero hidle Nat.one_pos (fun _ => rfl) hfits⟩, hcreated⟩, hzero⟩

theorem CommandInv.step (hn : n ≤ 1048576) (h : CommandInv s) (hok : s.Idles c ∧ s.KeepsQueues c) (hs : s.command c = some t) :
    CommandInv t := by
  obtain ⟨hidle, hfits⟩ := hok
  cases c with
  | initRR quantum =>
    obtain ⟨u, hu, rfl⟩ := Option.map_eq_some_iff.mp hs
    exact h.restartRR hidle hfits hu
  | initPRIRR numOfPriorities quantum starvThresh =>
    have hfits : s.sched.Fits (if numOfPriorities = 0 then 1 else numOfPriorities) := hfits
    obtain ⟨u, hu, rfl⟩ := Option.map_eq_some_iff.mp hs
    obtain ⟨-, hu⟩ := Option.ite_none_left_eq_some.mp hu
    split at hu
    case isTrue hzero =>
      rw [if_pos hzero] at hfits
      exact h.restartRR hidle hfits hu
    case isFalse hzero =>
      obtain ⟨-, hu⟩ := Option.ite_none_right_eq_some.mp hu
      obtain ⟨⟨⟨L, hinv⟩, hcreated⟩, hzeroed⟩ := h
      rw [if_neg hzero] at hfits
      cases hu
      exact ⟨⟨⟨L, hinv.restart hzeroed hidle (Nat.pos_of_ne_zero hzero) nofun hfits⟩, hcreated⟩, hzeroed⟩
  | event ev => exact ⟨h.1.step hn hs, h.1.zeroed hn h.2 hs⟩

/-- In every run in which each new scheduler has a queue for the priority of every environment that is new or blocked, no ready
    queue is asked for that does not exist. -/
theorem ready_index_in_range (sizeofEnv : Nat) {s₀ : Sched (nEnv sizeofEnv) C} (hinit : s₀.Initial)
    {s : SchedRun (nEnv sizeofEnv) C} (hr : Reach command (fun s c => s.Idles c ∧ s.KeepsQueues c) ⟨s₀, []⟩ s) : s.InRange := by
  have hzero : s₀.Zeroed := by
    intro e _
    rcases hinit with rfl | ⟨k, thr, hs⟩
    · rw [Sched.schedInitRR, Sched.envInit_eq]
    · unfold Sched.schedInitPRIRR at hs
      split at hs
      · cases hs
        rw [Sched.schedInitRR, Sched.envInit_eq]
      · obtain ⟨-, hs⟩ := Option.ite_none_left_eq_some.mp hs
        cases hs
        rw [Sched.envInit_eq]
  have hinv : CommandInv s :=
    hr.invariant (I := CommandInv) ⟨.initial hinit, hzero⟩ fun _ _ _ h hok hs => h.step (nEnv_le _) hok hs
  exact hinv.1.inRange (nEnv_le _)

/-- A new environment with the priority 1 when four ready queues are made, and it runs. -/
theorem ready_index_in_range_four : ∃ s₀ : Sched (nEnv 349525) Unit, s₀.Initial ∧ ∃ s : SchedRun (nEnv 349525) Unit,
    exec command ⟨s₀, []⟩ [.event (.newEnv (some 1)), .initPRIRR 4 10 5, .event .runAll] = some s ∧
      s.created.map (fun e => ((s.sched.envs e).envStatus, (s.sched.envs e).priority)) = [(.running, 1)] ∧ s.InRange := by
  obtain ⟨s₀, h₀⟩ : ∃ s₀ : Sched (nEnv 349525) Unit, Sched.schedInitPRIRR 2 1 = some s₀ := ⟨_, rfl⟩
  have hinit : s₀.Initial := .inr ⟨2, 1, h₀⟩
  have hexec : ((Sched.schedInitPRIRR 2 1).bind fun s₀ : Sched (nEnv 349525) Unit =>
      (command ⟨s₀, []⟩ (.event (.newEnv (some 1)))).bind fun s₁ => (s₁.command (.initPRIRR 4 10 5)).bind fun s₂ =>
        (s₂.command (.event .runAll)).map fun s => (decide (s₁.sched.Idle ∧ s₁.sched.Fits 4),
          s.created.map fun e => ((s.sched.envs e).envStatus, (s.sched.envs e).priority))) = some (true, [(.running, 1)]) := by
    decide +kernel
  rw [h₀, Option.bind_some] at hexec
  obtain ⟨s₁, hs₁, hexec⟩ := Option.bind_eq_some_iff.mp hexec
  obtain ⟨s₂, hs₂, hexec⟩ := Option.bind_eq_some_iff.mp hexec
  obtain ⟨s, hs, hresult⟩ := Option.map_eq_some_iff.mp hexec
  obtain ⟨hok, hstatus⟩ := Prod.mk.inj hresult
  have hok : s₁.sched.Idle ∧ s₁.sched.Fits 4 := of_decide_eq_true hok
  have hr : Reach command (fun s c => s.Idles c ∧ s.KeepsQueues c) ⟨s₀, []⟩ s₂ :=
    .step (.initPRIRR 4 10 5) (.step (.event (.newEnv (some 1))) .init ⟨trivial, trivial⟩ hs₁) hok hs₂
  exact ⟨s₀, hinit, s, exec_cons.mpr ⟨s₁, hs₁, exec_cons.mpr ⟨s₂, hs₂, exec_cons.mpr ⟨s, hs, rfl⟩⟩⟩, hstatus,
    ready_index_in_range 349525 hinit (.step (.event .runAll) hr ⟨trivial, trivial⟩ hs)⟩

/-- A new environment with the priority 2 when the scheduler becomes round robin: to run it asks for a queue that does not exist. -/
theorem ready_index_out_of_range : ∃ s₀ : Sched (nEnv 349525) Unit, s₀.Initial ∧ ∃ (s : SchedRun (nEnv 349525) Unit)
    (e : Fin (nEnv 349525)), Reach command Idles ⟨s₀, []⟩ s ∧
      ((s.sched.envs e).envStatus, (s.sched.envs e).priority, s.sched.numOfReadyQueues) = (.new, 2, 1) ∧
      s.step (.runEnv (s.sched.envs e).envId) = none ∧ ¬ s.InRange := by
  obtain ⟨s₀, h₀⟩ : ∃ s₀ : Sched (nEnv 349525) Unit, Sched.schedInitPRIRR 3 1 = some s₀ := ⟨_, rfl⟩
  have hinit : s₀.Initial := .inr ⟨3, 1, h₀⟩
  let e : Fin (nEnv 349525) := ⟨0, by decide⟩
  have hexec : ((Sched.schedInitPRIRR 3 1).bind fun s₀ : Sched (nEnv 349525) Unit =>
      (command ⟨s₀, []⟩ (.event (.newEnv (some 2)))).bind fun s₁ => (s₁.command (.initRR 10)).map fun s =>
        (decide s₁.sched.Idle, ((s.sched.envs e).envStatus, (s.sched.envs e).priority, s.sched.numOfReadyQueues),
          (s.step (.runEnv (s.sched.envs e).envId)).isNone)) = some (true, (.new, 2, 1), true) := by
    decide +kernel
  rw [h₀, Option.bind_some] at hexec
  obtain ⟨s₁, hs₁, hexec⟩ := Option.bind_eq_some_iff.mp hexec
  obtain ⟨s, hs, hresult⟩ := Option.map_eq_some_iff.mp hexec
  obtain ⟨hidle, hresult⟩ := Prod.mk.inj hresult
  obtain ⟨hstate, hnone⟩ := Prod.mk.inj hresult
  have hidle : s₁.sched.Idle := of_decide_eq_true hidle
  have hr : Reach command Idles ⟨s₀, []⟩ s := .step (.initRR 10) (.step (.event (.newEnv (some 2))) .init trivial hs₁) hidle hs
  have hstuck : s.step (.runEnv (s.sched.envs e).envId) = none := Option.isNone_iff_eq_none.mp hnone
  exact ⟨s₀, hinit, s, e, hr, hstate, hstuck, fun h => h.index _ hstuck⟩

end SchedRun

end Fos.Cpu
