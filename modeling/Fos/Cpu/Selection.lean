import Fos.Cpu.SchedRun

/-! Which environment `fos_scheduler_PRIRR` chooses. `enqueue` inserts at the head of a queue and `dequeue` takes its
    last element, so that a queue lists those that came last first. -/

namespace Fos.Cpu.Sched
open Lib

variable {n : Nat} {C : Type} {s t : Sched n C} {L : Queue C → List (Fin n)} {e : Fin n}

/-- The current environment, if it has yielded. -/
def yielded (s : Sched n C) : Option (Fin n) := s.proc.filter fun e => (s.envs e).envStatus = .ready

/-- The queues are lists, and an environment that has yielded is in none of them and has the priority of a ready queue. -/
structure Configured (s : Sched n C) (L : Queue C → List (Fin n)) : Prop where
  spells : s.queues.Spells L
  not_mem : ∀ e, s.yielded = some e → ∀ q, e ∉ L q
  priority : ∀ e, s.yielded = some e → 0 ≤ (s.envs e).priority ∧ (s.envs e).priority < s.numOfReadyQueues

/-- What the scheduler starts from is such a state. -/
theorem Choosing.configured {hand : Option (Fin n)} (h : Choosing s L hand) : s.Configured L := by
  have hyielded : ∀ e, s.yielded = some e → hand = some e ∧ (s.envs e).envStatus = .ready := fun e he => by
    obtain ⟨hproc, hready⟩ := Option.filter_eq_some_iff.mp he
    exact ⟨h.proc.symm.trans hproc, of_decide_eq_true hready⟩
  refine ⟨h.spells, fun e he => h.not_mem e (hyielded e he).1, fun e he => h.priority e ?_⟩
  rw [(hyielded e he).2]
  nofun

/-- No ready queue holds an environment, and the current one has not yielded. -/
def NothingReady (s : Sched n C) (L : Queue C → List (Fin n)) : Prop :=
  s.yielded = none ∧ ∀ i, i < s.numOfReadyQueues → L (.ready i) = []

variable [DecidableEq C]

/-- The queues when an environment that has yielded waits behind the others of its priority. -/
def requeued (s : Sched n C) (L : Queue C → List (Fin n)) : Queue C → List (Fin n) :=
  match s.yielded with
  | some e =>
    let q := .ready (s.envs e).priority.toNat
    Function.update L q (e :: L q)
  | none => L

/-- From `s`, with the lists `M` in its queues, the environment `e` was taken from the ready queue `i`. -/
structure Selected (s t : Sched n C) (M : Queue C → List (Fin n)) (i : Nat) (e : Fin n) : Prop where
  level : i < s.numOfReadyQueues
  lowest : ∀ j, j < i → M (.ready j) = []
  last : (M (.ready i)).getLast? = some e
  /-- If every queue lists the environments that came later first, `e` came before all others of its queue. -/
  longest : ∀ arrival : Fin n → Nat, (M (.ready i)).Pairwise (fun x y => arrival y < arrival x) →
    ∀ x ∈ M (.ready i), x ≠ e → arrival e < arrival x
  spells : t.queues.Spells (Function.update M (.ready i) (M (.ready i)).dropLast)
  envs : t.envs = Function.update s.envs e { s.envs e with starvcounteer := 0 }
  rest : t = { s with queues := t.queues, envs := t.envs }

theorem requeueLast_eq (s : Sched n C) : s.requeueLast =
    match s.yielded with
    | some e => (s.readyQueue (s.envs e).priority).map (s.enqueue · e)
    | none => some s := by
  unfold Sched.requeueLast yielded
  cases s.proc with
  | none => rfl
  | some cur => by_cases hready : (s.envs cur).envStatus = .ready <;> simp [hready, Option.filter_some]

theorem Configured.requeueLast (h : s.Configured L) :
    ∃ t, s.requeueLast = some t ∧ t.queues.Spells (s.requeued L) ∧ t = { s with queues := t.queues } := by
  rw [requeueLast_eq]
  unfold Sched.requeued
  cases hyielded : s.yielded with
  | none => exact ⟨s, rfl, h.spells, rfl⟩
  | some cur =>
    have hqueue : s.readyQueue (s.envs cur).priority = some (.ready (s.envs cur).priority.toNat) :=
      if_pos (h.priority cur hyielded)
    exact ⟨_, congrArg (Option.map _) hqueue, h.spells.insertHead (h.not_mem cur hyielded), rfl⟩

omit [DecidableEq C] in
theorem getLast_arrived_first {l : List (Fin n)} (hlast : l.getLast? = some e) (arrival : Fin n → Nat)
    (horder : l.Pairwise fun x y => arrival y < arrival x) {x : Fin n} (hx : x ∈ l) (hne : x ≠ e) : arrival e < arrival x := by
  obtain ⟨a, rfl⟩ := List.getLast?_eq_some_iff.mp hlast
  rcases List.mem_append.mp hx with hmem | hmem
  · exact (List.pairwise_append.mp horder).2.2 x hmem e (List.mem_singleton_self e)
  · exact absurd (List.mem_singleton.mp hmem) hne

theorem Configured.nothingReady_iff (h : s.Configured L) :
    s.NothingReady L ↔ ∀ i, i < s.numOfReadyQueues → s.requeued L (.ready i) = [] := by
  unfold NothingReady Sched.requeued
  cases hy : s.yielded with
  | none => exact ⟨fun hnone => hnone.2, fun hempty => ⟨rfl, hempty⟩⟩
  | some cur =>
    have hprio := h.priority cur hy
    refine ⟨fun hnone => absurd hnone.1 nofun, fun hempty => ?_⟩
    have hcur := hempty (s.envs cur).priority.toNat (by omega)
    simp at hcur

/-- For any ready queues and any current environment, `fos_scheduler_PRIRR` puts an environment that has yielded behind
    the others of its priority, and then takes the environment that has waited longest from the first queue that is not
    empty and resets its counter. It returns null exactly when nothing is ready. -/
theorem prirr_selection (sizeofEnv : Nat) {s : Sched (nEnv sizeofEnv) C} {L : Queue C → List (Fin (nEnv sizeofEnv))}
    (h : s.Configured L) : ∃ t r, s.fosSchedulerPRIRR = some (t, r) ∧ (r = none ↔ s.NothingReady L) ∧
      (r = none → t = s) ∧ ∀ e, r = some e → ∃ i, Selected s t (s.requeued L) i e := by
  obtain ⟨u, hu, hspells, hrest⟩ := h.requeueLast
  have hnum : u.numOfReadyQueues = s.numOfReadyQueues := by rw [hrest]
  unfold Sched.fosSchedulerPRIRR
  rw [hu, Option.map_some, hnum, h.nothingReady_iff]
  rcases dequeueFirst_cases (nEnv_le sizeofEnv) hspells 0 s.numOfReadyQueues with ⟨hd, hempty⟩ | ⟨i, e, hi, hlow, hlast, hd⟩
  · refine ⟨u, none, by rw [hd], ⟨fun _ i hi => hempty i (Nat.zero_le i) (by omega), fun _ => rfl⟩, fun _ => ?_, nofun⟩
    have hnone := (h.nothingReady_iff.mpr fun i hi => hempty i (Nat.zero_le i) (by omega)).1
    rw [requeueLast_eq, hnone] at hu
    exact (Option.some.inj hu).symm
  · have hmem := List.mem_of_getLast? hlast
    refine ⟨_, some e, by rw [hd], ⟨nofun, fun hempty => ?_⟩, nofun, ?_⟩
    · rw [hempty i (by omega)] at hmem
      exact nomatch hmem
    · rintro x ⟨⟩
      obtain ⟨a, ha⟩ := List.getLast?_eq_some_iff.mp hlast
      refine ⟨i, by omega, fun j hj => hlow j (Nat.zero_le j) hj, hlast, fun arrival horder x hx hne =>
        getLast_arrived_first hlast arrival horder hx hne, ?_, ?_, ?_⟩
      · have hremoved := hspells.remove_split (b := []) ha
        rw [List.append_nil] at hremoved
        rw [ha, List.dropLast_concat]
        exact hremoved
      · rw [hrest]
        rfl
      · rw [hrest]
        rfl

/-- Of two environments at level 0 the second runs when the first yields, although another one waits at level 1. -/
theorem prirr_selection_two : ∃ (s : Sched (nEnv 349525) Unit) (L : Queue Unit → List (Fin (nEnv 349525))),
    s.Configured L ∧ s.yielded = some ⟨0, by decide⟩ ∧ ∃ t r, s.fosSchedulerPRIRR = some (t, r) ∧
      (r = none ↔ s.NothingReady L) ∧ (r = none → t = s) ∧ (∀ e, r = some e → ∃ i, Selected s t (s.requeued L) i e) ∧
        r = some ⟨1, by decide⟩ := by
  obtain ⟨s₀, h₀⟩ : ∃ s₀ : Sched (nEnv 349525) Unit, Sched.schedInitPRIRR 2 9 = some s₀ := ⟨_, rfl⟩
  let e : Fin (nEnv 349525) := ⟨0, by decide⟩
  have hrun : ((Sched.schedInitPRIRR 2 9).bind fun s₀ : Sched (nEnv 349525) Unit =>
      (exec SchedRun.step ⟨s₀, []⟩ [.newEnv (some 0), .newEnv (some 0), .newEnv (some 1), .runAll]).bind fun s =>
        (s.sched.setStatus e .ready).fosSchedulerPRIRR.map fun (_, r) => (s.sched.proc, r)) =
          some (some e, some ⟨1, by decide⟩) := by
    decide +kernel
  rw [h₀, Option.bind_some] at hrun
  obtain ⟨s, hs, hrun⟩ := Option.bind_eq_some_iff.mp hrun
  obtain ⟨⟨t, r⟩, ht, hrun⟩ := Option.map_eq_some_iff.mp hrun
  obtain ⟨hproc, hr⟩ := Prod.mk.inj hrun
  obtain ⟨⟨L, hinv⟩, -⟩ := SchedRun.Inv.reach (by decide) (.inr ⟨2, 9, h₀⟩) (Reach.of_exec_any hs)
  obtain ⟨hchoosing, -⟩ := hinv.yielding hproc
  have hconfigured := hchoosing.configured
  obtain ⟨t', r', ht', hnull, hsame, hselected⟩ := prirr_selection 349525 hconfigured
  cases ht.symm.trans ht'
  refine ⟨_, L, hconfigured, ?_, t, r, ht, hnull, hsame, hselected, hr⟩
  rw [yielded, hchoosing.proc, Option.filter_some, hchoosing.ready e rfl]
  rfl

end Fos.Cpu.Sched
