import Fos.Cpu.SchedInv

/-! The place of every environment along the runs of the scheduler. -/

namespace Fos.Cpu
open Lib

namespace Sched

variable {n : Nat} {C : Type} [DecidableEq C] {s t : Sched n C} {L : Queue C → List (Fin n)} {e : Fin n}

/-- Between two operations no environment is in hand, and the one on the CPU is the one that runs. -/
structure Inv (s : Sched n C) (L : Queue C → List (Fin n)) : Prop extends Queued s L none where
  running : ∀ e, s.proc = some e ↔ (s.envs e).envStatus = .running
  stopped : s.schedulerStatus = .stopped → s.proc = none

/-- The same environments are in use. -/
def SameFree (s t : Sched n C) : Prop := ∀ e, (t.envs e).envStatus = .free ↔ (s.envs e).envStatus = .free

/-- The operation succeeds and keeps every environment in its place. -/
def Keeps (s : Sched n C) (r : Option (Sched n C)) : Prop := ∃ t L, r = some t ∧ Inv t L ∧ SameFree s t

omit [DecidableEq C] in
theorem Inv.of_sameCpu {L' : Queue C → List (Fin n)} (h : Inv s L) (hq : Queued t L' none) (hcpu : SameCpu s t) :
    Inv t L' where
  toQueued := hq
  running := fun e => by rw [hcpu.proc, h.running e, hcpu.running e]
  stopped := fun hs => by rw [hcpu.proc, h.stopped (hcpu.schedulerStatus ▸ hs)]

/-! ### Choosing the next environment -/

/-- What the scheduler starts from: the environment in hand has yielded and is still `proc`, and none runs. -/
structure Choosing (s : Sched n C) (L : Queue C → List (Fin n)) (hand : Option (Fin n)) : Prop extends
    Queued s L hand where
  proc : s.proc = hand
  ready : ∀ e, hand = some e → (s.envs e).envStatus = .ready
  none_runs : ∀ e, (s.envs e).envStatus ≠ .running

/-- What it ends with: an environment to run, or none when no environment is ready. -/
structure Chosen (s t : Sched n C) (r : Option (Fin n)) : Prop where
  queued : ∃ L, Queued t L r
  ready : ∀ e, r = some e → (t.envs e).envStatus = .ready
  none_runs : ∀ e, (t.envs e).envStatus ≠ .running
  proc : r = none → t.proc = none
  schedulerStatus : t.schedulerStatus = s.schedulerStatus
  free : SameFree s t

/-- The environment that `dequeue` takes from a ready queue. -/
theorem Chosen.dequeue {i : Nat} (h : Queued s L none) (hrun : ∀ e, (s.envs e).envStatus ≠ .running)
    (he : e ∈ L (.ready i)) : Chosen s (s.removeFromQueue (.ready i) e) (some e) where
  queued := ⟨_, h.take he⟩
  ready := by
    rintro x ⟨⟩
    exact ((h.mem e nofun (.ready i)).mp he).1
  none_runs := hrun
  proc := nofun
  schedulerStatus := rfl
  free := fun _ => Iff.rfl

omit [DecidableEq C] in
theorem Chosen.of_sameCpu {u : Sched n C} {r : Option (Fin n)} (hcpu : SameCpu s t) (h : Chosen t u r) : Chosen s u r where
  queued := h.queued
  ready := h.ready
  none_runs := h.none_runs
  proc := h.proc
  schedulerStatus := h.schedulerStatus.trans hcpu.schedulerStatus
  free := fun e => (h.free e).trans (hcpu.free e)

omit [DecidableEq C] in
/-- Nothing is ready. -/
theorem Chosen.idle (h : Queued s L none) (hrun : ∀ e, (s.envs e).envStatus ≠ .running) (hproc : s.proc = none) :
    Chosen s s none :=
  ⟨⟨L, h⟩, nofun, hrun, fun _ => hproc, rfl, fun _ => Iff.rfl⟩

/-- The environment that yielded is put back. -/
theorem Choosing.requeue {cur : Fin n} (h : Choosing s L (some cur)) :
    Queued (s.enqueue (.ready (s.envs cur).priority.toNat) cur)
      (Function.update L (.ready (s.envs cur).priority.toNat) (cur :: L (.ready (s.envs cur).priority.toNat))) none :=
  h.put ⟨h.ready cur rfl, (Int.toNat_of_nonneg (h.priority cur (by rw [h.ready cur rfl]; nofun)).1).symm⟩

theorem Choosing.fosSchedulerRR {hand : Option (Fin n)} (h : Choosing s L hand) (hrr : s.schedulerMethod = .RR) :
    ∃ t r, s.fosSchedulerRR = (t, r) ∧ Chosen s t r := by
  have hone := h.round_robin hrr
  unfold Sched.fosSchedulerRR
  rw [h.proc]
  cases hand with
  | none =>
    rcases h.dequeue (.ready 0) with ⟨-, hd⟩ | ⟨e, he, hd⟩
    · exact ⟨s, none, hd, .idle h.toQueued h.none_runs h.proc⟩
    · exact ⟨_, some e, hd, .dequeue h.toQueued h.none_runs he⟩
  | some cur =>
    have hzero : (s.envs cur).priority.toNat = 0 := by
      have := h.priority cur (by rw [h.ready cur rfl]; nofun)
      omega
    have hq := h.requeue
    rw [hzero] at hq
    rcases hq.dequeue (.ready 0) with ⟨hnil, -⟩ | ⟨e, he, hd⟩
    · simp at hnil
    · exact ⟨_, some e, hd, (Chosen.dequeue hq h.none_runs he).of_sameCpu .enqueue⟩

/-- The loop of `fos_scheduler_PRIRR` takes the last element of the first queue that is not empty. -/
theorem dequeueFirst_cases (hn : n ≤ 1048576) (h : s.queues.Spells L) (i k : Nat) :
    (s.dequeueFirst i k = (s, none) ∧ ∀ j, i ≤ j → j < i + k → L (.ready j) = []) ∨
      ∃ j e, j < i + k ∧ (∀ m, i ≤ m → m < j → L (.ready m) = []) ∧ (L (.ready j)).getLast? = some e ∧
        s.dequeueFirst i k = (s.removeFromQueue (.ready j) e, some e) := by
  induction k generalizing i with
  | zero => exact .inl ⟨rfl, fun j h1 h2 => by omega⟩
  | succ k ih =>
    unfold Sched.dequeueFirst
    by_cases hsize : (s.queues.head (.ready i)).size = 0
    · have hnil := (size_eq_zero_iff hn h (.ready i)).mp hsize
      have hempty : ∀ j (P : Nat → Prop), i ≤ j → (∀ m, i + 1 ≤ m → P m → L (.ready m) = []) → P j → L (.ready j) = [] := by
        intro j P hj hrest hP
        rcases Nat.eq_or_lt_of_le hj with rfl | hlt
        · exact hnil
        · exact hrest j hlt hP
      simp only [hsize, ne_eq, not_true_eq_false, if_false]
      rcases ih (i + 1) with ⟨hd, hrest⟩ | ⟨j, e, hj, hrest, hlast, hd⟩
      · exact .inl ⟨hd, fun j hij hjk => hempty j (· < i + (k + 1)) hij (fun m hm hmk => hrest m hm (by omega)) hjk⟩
      · exact .inr ⟨j, e, by omega, fun m him hmj => hempty m (· < j) him hrest hmj, hlast, hd⟩
    · rw [if_pos hsize]
      cases hlast : (L (.ready i)).getLast? with
      | none => exact absurd ((size_eq_zero_iff hn h _).mpr (List.getLast?_eq_none_iff.mp hlast)) hsize
      | some e =>
        refine .inr ⟨i, e, by omega, fun m h1 h2 => by omega, hlast, ?_⟩
        unfold Sched.dequeue
        rw [h.last (.ready i), hlast]

theorem Queued.dequeueFirst (hn : n ≤ 1048576) (h : Queued s L none) (i k : Nat) :
    (s.dequeueFirst i k = (s, none) ∧ ∀ j, i ≤ j → j < i + k → L (.ready j) = []) ∨
      ∃ j, ∃ e ∈ L (.ready j), s.dequeueFirst i k = (s.removeFromQueue (.ready j) e, some e) := by
  rcases dequeueFirst_cases hn h.spells i k with hnone | ⟨j, e, -, -, hlast, hd⟩
  · exact .inl hnone
  · exact .inr ⟨j, e, List.mem_of_getLast? hlast, hd⟩

theorem Choosing.requeueLast {hand : Option (Fin n)} (h : Choosing s L hand) :
    ∃ t L', s.requeueLast = some t ∧ Queued t L' none ∧ SameCpu s t ∧
      (∀ e, hand = some e → e ∈ L' (.ready (s.envs e).priority.toNat)) ∧ t.numOfReadyQueues = s.numOfReadyQueues := by
  unfold Sched.requeueLast
  rw [h.proc]
  cases hand with
  | none => exact ⟨s, L, rfl, h.toQueued, .refl s, nofun, rfl⟩
  | some cur =>
    refine ⟨_, _, ?_, h.requeue, .enqueue, ?_, rfl⟩
    · show (if _ then _ else _) = _
      rw [if_pos (h.ready cur rfl), h.readyQueue (by rw [h.ready cur rfl]; nofun), Option.map_some]
    · rintro e ⟨⟩
      simp

theorem Choosing.fosSchedulerPRIRR (hn : n ≤ 1048576) {hand : Option (Fin n)} (h : Choosing s L hand) :
    ∃ t r, s.fosSchedulerPRIRR = some (t, r) ∧ Chosen s t r := by
  obtain ⟨u, L', hu, hq, hcpu, hback, hnum⟩ := h.requeueLast
  have hrun : ∀ e, (u.envs e).envStatus ≠ .running := fun e hr => h.none_runs e ((hcpu.running e).mp hr)
  unfold Sched.fosSchedulerPRIRR
  rw [hu, Option.map_some]
  rcases hq.dequeueFirst hn 0 u.numOfReadyQueues with ⟨hd, hempty⟩ | ⟨j, e, he, hd⟩
  · rw [hd]
    refine ⟨u, none, rfl, (Chosen.idle hq hrun ?_).of_sameCpu hcpu⟩
    cases hhand : hand with
    | none => rw [hcpu.proc, h.proc, hhand]
    | some cur =>
      have hp := h.priority cur (by rw [h.ready cur hhand]; nofun)
      have hnil := hempty (s.envs cur).priority.toNat (Nat.zero_le _) (by omega)
      have hmem := hback cur hhand
      rw [hnil] at hmem
      exact nomatch hmem
  · rw [hd]
    refine ⟨_, some e, rfl, ?_⟩
    have hchosen := (Chosen.dequeue hq hrun he).of_sameCpu hcpu
    obtain ⟨L'', hq'⟩ := hchosen.queued
    have htouch : SameCpu (u.removeFromQueue (.ready j) e)
        ((u.removeFromQueue (.ready j) e).modify e ({ · with starvcounteer := 0 })) := .touch _ fun _ => rfl
    exact
      { queued := ⟨L'', hq'.touch rfl rfl (fun _ => rfl) (fun _ => rfl) (hq'.priority e)⟩
        ready := by
          rintro x ⟨⟩
          simpa using hchosen.ready e rfl
        none_runs := fun x hx => hchosen.none_runs x ((htouch.running x).mp hx)
        proc := nofun
        schedulerStatus := hchosen.schedulerStatus
        free := fun x => (htouch.free x).trans (hchosen.free x) }

theorem Choosing.schedNext (hn : n ≤ 1048576) {hand : Option (Fin n)} (h : Choosing s L hand) :
    ∃ t r, s.schedNext = some (t, r) ∧ Chosen s t r := by
  unfold Sched.schedNext
  split
  case h_1 hrr =>
    obtain ⟨t, r, ht, hc⟩ := h.fosSchedulerRR hrr
    exact ⟨t, r, congrArg some ht, hc⟩
  case h_2 => exact h.fosSchedulerPRIRR hn

theorem Choosing.dispatch (hn : n ≤ 1048576) {hand : Option (Fin n)} (h : Choosing s L hand)
    (hstarted : s.schedulerStatus = .started) : Keeps s s.dispatch := by
  obtain ⟨t, r, ht, hc⟩ := h.schedNext hn
  obtain ⟨L', hq⟩ := hc.queued
  unfold Sched.dispatch
  rw [ht, Option.map_some]
  cases r with
  | none =>
    have hproc := hc.proc rfl
    have hinv : ∀ e, t.proc = some e ↔ (t.envs e).envStatus = .running := fun e => by simp [hproc, hc.none_runs e]
    show Keeps s (some (if _ then _ else _))
    split
    · exact ⟨t, L', rfl, ⟨hq, hinv, fun _ => hproc⟩, hc.free⟩
    · refine ⟨_, L', rfl, ⟨⟨hq.spells, hq.mem, hq.placed, hq.not_mem, hq.id, hq.priority, hq.round_robin⟩, ?_, ?_⟩, hc.free⟩
      · exact fun e => by simp [hc.none_runs e]
      · exact fun _ => rfl
  | some e =>
    have hready := hc.ready e rfl
    have hid := hq.id e (by rw [hready]; decide)
    have hq' : Queued { t with proc := some e } L' (some e) :=
      ⟨hq.spells, hq.mem, hq.placed, hq.not_mem, hq.id, hq.priority, hq.round_robin⟩
    have hw : Queued ({ t with proc := some e }.setStatus e .running) L' (some e) := hq'.write (fun _ => hid) fun _ => hq.priority e (by rw [hready]; decide)
    refine ⟨_, L', rfl, ⟨hw.drop ?_, fun x => ?_, fun hs => ?_⟩, fun x => ?_⟩
    · rw [setStatus, envs_modify_self]
    · by_cases hx : x = e
      · subst hx
        simp [setStatus, modify]
      · have hne : e ≠ x := fun h => hx h.symm
        simpa [setStatus, modify, hx, hne] using hc.none_runs x
    · have hstatus : ({ t with proc := some e }.setStatus e .running).schedulerStatus = .started :=
        hc.schedulerStatus.trans hstarted
      cases hstatus.symm.trans hs
    · refine Iff.trans ?_ (hc.free x)
      by_cases hx : x = e
      · subst hx
        simp [setStatus, hready]
      · simp [setStatus, modify, hx]

/-! ### The operations -/

omit [DecidableEq C] in
theorem Keeps.of_sameCpu {r : Option (Sched n C)} (hcpu : SameCpu s t) (h : Keeps t r) : Keeps s r := by
  obtain ⟨u, L, hu, hinv, hfree⟩ := h
  exact ⟨u, L, hu, hinv, fun e => (hfree e).trans (hcpu.free e)⟩

omit [DecidableEq C] in
/-- An operation that does not concern the CPU. -/
theorem Inv.keeps {L' : Queue C → List (Fin n)} (h : Inv s L) (hq : Queued t L' none) (hcpu : SameCpu s t) :
    Keeps s (some t) :=
  ⟨t, L', rfl, h.of_sameCpu hq hcpu, hcpu.free⟩

omit [DecidableEq C] in
theorem Inv.started (h : Inv s L) {p : Fin n} (hp : s.proc = some p) : s.schedulerStatus = .started := by
  cases hst : s.schedulerStatus with
  | started => rfl
  | stopped => exact nomatch (h.stopped hst).symm.trans hp

omit [DecidableEq C] in
/-- The environment on the CPU is given another status. -/
theorem Inv.leave (h : Inv s L) {p : Fin n} (hp : s.proc = some p) {f : Env C → Env C}
    (hid : ∀ x, (f x).envId = x.envId) (hprio : ∀ x, (f x).priority = x.priority)
    (hr : ∀ x, (f x).envStatus ≠ .running) (hf : ∀ x, (f x).envStatus ≠ .free) :
    Queued (s.modify p f) L (some p) ∧ (∀ e, ((s.modify p f).envs e).envStatus ≠ .running) ∧ SameFree s (s.modify p f) := by
  have hrun := (h.running p).mp hp
  have hlive : (s.envs p).envStatus ≠ .free := by rw [hrun]; nofun
  refine ⟨(h.pick hrun).write (fun _ => ?_) fun _ => ?_, fun e => ?_, fun e => ?_⟩
  · rw [hid]
    exact h.id p hlive
  · rw [hprio]
    exact h.priority p (by rw [hrun]; nofun)
  · by_cases he : e = p
    · subst he
      rw [envs_modify_self]
      exact hr _
    · rw [envs_modify_of_ne f he]
      intro hrun'
      exact he (Option.some.inj (((h.running e).mpr hrun').symm.trans hp))
  · by_cases he : e = p
    · subst he
      rw [envs_modify_self]
      exact ⟨fun h => absurd h (hf _), fun h => absurd h hlive⟩
    · rw [envs_modify_of_ne f he]

omit [DecidableEq C] in
/-- What `yield` hands to the scheduler. -/
theorem Inv.yielding (h : Inv s L) {p : Fin n} (hp : s.proc = some p) :
    Choosing (s.setStatus p .ready) L (some p) ∧ SameFree s (s.setStatus p .ready) := by
  obtain ⟨hq, hruns, hfree⟩ := h.leave hp (f := ({ · with envStatus := .ready })) (fun _ => rfl) (fun _ => rfl) nofun nofun
  refine ⟨⟨hq, hp, ?_, hruns⟩, hfree⟩
  rintro e ⟨⟩
  rw [setStatus, envs_modify_self]

theorem Inv.yield (hn : n ≤ 1048576) (h : Inv s L) {p : Fin n} (hp : s.proc = some p) : Keeps s s.yield := by
  obtain ⟨hchoosing, hfree⟩ := h.yielding hp
  obtain ⟨t, L', ht, hinv, hfree'⟩ := hchoosing.dispatch hn (h.started hp)
  refine ⟨t, L', ?_, hinv, fun e => (hfree' e).trans (hfree e)⟩
  simp only [Sched.yield, hp, Option.bind_some, Sched.sched, hchoosing.proc, hchoosing.ready p rfl, ht]

/-- The environment on the CPU goes to a queue that is not a ready queue. -/
theorem Inv.depart (hn : n ≤ 1048576) (h : Inv s L) {p : Fin n} (hp : s.proc = some p) {f : Env C → Env C}
    (hid : ∀ x, (f x).envId = x.envId) (hprio : ∀ x, (f x).priority = x.priority)
    (hst : ∀ x, (f x).envStatus = .blocked ∨ (f x).envStatus = .exit) {q : Queue C}
    (hq : (s.modify p f).Names p (.queue q)) : Keeps s ((s.modify p f).enqueue q p).sched := by
  have hne : ∀ x, (f x).envStatus ≠ .running ∧ (f x).envStatus ≠ .free := fun x => by
    rcases hst x with hx | hx <;> simp [hx]
  obtain ⟨hqueued, hruns, hfree⟩ := h.leave hp hid hprio (fun x => (hne x).1) fun x => (hne x).2
  have hput := hqueued.put hq
  have hchoosing : Choosing { (s.modify p f).enqueue q p with proc := none } _ none :=
    ⟨⟨hput.spells, hput.mem, hput.placed, hput.not_mem, hput.id, hput.priority, hput.round_robin⟩, rfl, nofun, hruns⟩
  obtain ⟨t, L', ht, hinv, hfree'⟩ := hchoosing.dispatch hn (h.started hp)
  refine ⟨t, L', ?_, hinv, fun e => (hfree' e).trans (hfree e)⟩
  have hproc : ((s.modify p f).enqueue q p).proc = some p := hp
  have hstatus : (((s.modify p f).enqueue q p).envs p).envStatus = (f (s.envs p)).envStatus :=
    congrArg Env.envStatus (envs_modify_self f)
  rw [Sched.sched, hproc, Option.bind_some, hstatus]
  rcases hst (s.envs p) with hx | hx <;> rw [hx] <;> exact ht

theorem Inv.sleep (hn : n ≤ 1048576) (h : Inv s L) {p : Fin n} (hp : s.proc = some p) (chan : C) :
    Keeps s (s.sleep chan) := by
  unfold Sched.sleep
  rw [hp, Option.bind_some]
  refine h.depart hn hp (f := ({ · with envStatus := .blocked, channel := some chan })) (fun _ => rfl) (fun _ => rfl)
    (fun _ => .inl rfl) ?_
  simp [Names]

theorem Inv.fosScheduler (hn : n ≤ 1048576) (h : Inv s L) (hs : s.schedulerStatus = .stopped) :
    Keeps s s.fosScheduler := by
  have hproc := h.stopped hs
  have hchoosing : Choosing { s with proc := none, schedulerStatus := .started } L none := by
    refine ⟨⟨h.spells, h.mem, h.placed, h.not_mem, h.id, h.priority, h.round_robin⟩, rfl, nofun, fun e he => ?_⟩
    exact nomatch hproc.symm.trans ((h.running e).mpr he)
  exact hchoosing.dispatch hn rfl

/-- The environment in hand becomes ready. -/
theorem Queued.insertReady (h : Queued s L (some e)) (hr : (s.envs e).envStatus ≠ .running)
    (hf : (s.envs e).envStatus ≠ .free) (hx : (s.envs e).envStatus ≠ .exit) : ∃ i t, s.schedInsertReady e = some t ∧
      Queued t (Function.update L (.ready i) (e :: L (.ready i))) none ∧ SameCpu s t := by
  obtain ⟨hs, hq⟩ := h.schedInsertReady hf hx
  have hcpu : SameCpu s (s.setStatus e .ready) := SameCpu.setStatus hr hf nofun nofun
  exact ⟨_, _, hs, hq, hcpu.trans .enqueue⟩

theorem Inv.schedRunEnv (hn : n ≤ 1048576) (h : Inv s L) (id : BitVec 32) : Keeps s (s.schedRunEnv id) := by
  obtain ⟨r, hr, hsome, -⟩ := h.findEnvInQueue hn .new id
  unfold Sched.schedRunEnv
  rw [hr, Option.bind_some]
  cases r with
  | none => exact h.keeps h.toQueued (.refl s)
  | some e =>
    have he := (hsome e rfl).1
    have hnew : (s.envs e).envStatus = .new := (h.mem e nofun .new).mp he
    obtain ⟨hremove, hq⟩ := h.schedRemoveNew he
    have hnr : (s.envs e).envStatus ≠ .running := by rw [hnew]; nofun
    have hnf : (s.envs e).envStatus ≠ .free := by rw [hnew]; nofun
    have hout : SameCpu s ((s.removeFromQueue .new e).setStatus e .unknown) :=
      SameCpu.removeFromQueue.trans (SameCpu.setStatus hnr hnf nofun nofun)
    obtain ⟨i, t, ht, hq', hcpu⟩ := hq.insertReady (by simp [setStatus]) (by simp [setStatus]) (by simp [setStatus])
    have hinv := h.of_sameCpu hq' (hout.trans hcpu)
    show Keeps s ((s.schedRemoveNew e).bind _)
    rw [hremove, Option.bind_some, ht, Option.bind_some]
    split
    case isTrue hstop => exact (hinv.fosScheduler hn hstop).of_sameCpu (hout.trans hcpu)
    case isFalse => exact h.keeps hq' (hout.trans hcpu)

theorem Inv.newToReady {k : Nat} (h : Inv s L) (hk : (L .new).length = k) :
    ∃ t L', s.newToReady k = some t ∧ Inv t L' ∧ SameCpu s t := by
  induction k generalizing s L with
  | zero => exact ⟨s, L, rfl, h, .refl s⟩
  | succ k ih =>
    unfold Sched.newToReady
    rcases h.dequeue .new with ⟨hnil, -⟩ | ⟨e, he, hd⟩
    · simp [hnil] at hk
    · have hnew : (s.envs e).envStatus = .new := (h.mem e nofun .new).mp he
      have hr : (s.envs e).envStatus ≠ .running := by rw [hnew]; nofun
      have hf : (s.envs e).envStatus ≠ .free := by rw [hnew]; nofun
      obtain ⟨i, t, ht, hq, hcpu⟩ := (h.take he).insertReady hr hf (by rw [show ((s.removeFromQueue .new e).envs e).envStatus = .new from hnew]; nofun)
      have hcpu' := SameCpu.removeFromQueue.trans hcpu
      obtain ⟨u, L', hu, hinv, hcpu''⟩ := ih (h.of_sameCpu hq hcpu') (by
        rw [Function.update_of_ne (show Queue.new ≠ .ready i from nofun), Function.update_self,
          List.length_erase_of_mem he]
        omega)
      rw [hd]
      simp only [ht, Option.bind_some]
      exact ⟨u, L', hu, hinv, hcpu'.trans hcpu''⟩

/-- `sched_run_all` panics when the scheduler runs. -/
theorem Inv.schedRunAll (hn : n ≤ 1048576) (h : Inv s L) (hs : s.schedRunAll = some t) : Keeps s (some t) := by
  have hsize : (s.queues.head .new).size.toNat = (L .new).length := by
    have := h.length_le hn .new
    rw [h.spells.size, UInt32.toNat_ofNat', Nat.mod_eq_of_lt (by omega)]
  obtain ⟨u, L', hu, hinv, hcpu⟩ := h.newToReady rfl
  rw [Sched.schedRunAll, hsize, hu, Option.bind_some] at hs
  obtain ⟨hstop, hs⟩ := Option.ite_none_right_eq_some.mp hs
  rw [← hs]
  exact (hinv.fosScheduler hn hstop).of_sameCpu hcpu

theorem Inv.clockInterruptHandler (hn : n ≤ 1048576) (h : Inv s L) : Keeps s s.clockInterruptHandler := by
  have hpromote : ∃ t, (if s.schedulerMethod = .PRIRR then forReady Sched.promote s 0 s.numOfReadyQueues else some s) = some t ∧
      ∃ L', Queued t L' none ∧ SameCpu s t := by
    split
    · refine forReady_rule (P := fun t => ∃ L', Queued t L' none ∧ SameCpu s t) ?_ ⟨L, h.toQueued, .refl s⟩ _ _
      rintro u i ⟨L', hq, hcpu⟩
      obtain ⟨t, L'', ht, hq', hcpu'⟩ := hq.promote hn i
      exact ⟨t, ht, L'', hq', hcpu.trans hcpu'⟩
    · exact ⟨s, rfl, L, h.toQueued, .refl s⟩
  obtain ⟨t, ht, L', hq, hcpu⟩ := hpromote
  have hinv := h.of_sameCpu hq hcpu
  unfold Sched.clockInterruptHandler
  rw [ht, Option.bind_some]
  split
  case h_1 => exact h.keeps hq hcpu
  case h_2 p hp => exact (hinv.yield hn hp).of_sameCpu hcpu

theorem Queued.wake {c : C} (h : Queued s L none) (he : e ∈ L (.channel c)) : ∃ i t,
    (s.removeFromQueue (.channel c) e).wake e = some t ∧ SameCpu s t ∧
      let L' := Function.update L (.channel c) ((L (.channel c)).erase e)
      Queued t (Function.update L' (.ready i) (e :: L' (.ready i))) none := by
  have hblocked : (s.envs e).envStatus = .blocked := ((h.mem e nofun (.channel c)).mp he).1
  have hlive : (s.envs e).envStatus ≠ .free := by rw [hblocked]; nofun
  have hw := (h.take he).write (f := ({ · with envStatus := .ready, channel := none })) (fun _ => h.id e hlive)
    fun _ => h.priority e (by rw [hblocked]; nofun)
  obtain ⟨i, t, ht, hq, hcpu⟩ := hw.insertReady (by simp) (by simp) (by simp)
  refine ⟨i, t, ht, SameCpu.trans (SameCpu.removeFromQueue.trans (SameCpu.modify ?_ ?_)) hcpu, hq⟩
  · simp [Sched.removeFromQueue, hblocked]
  · simp [Sched.removeFromQueue, hblocked]

theorem Inv.wakeupOne (h : Inv s L) (chan : C) : Keeps s (s.wakeupOne chan) := by
  unfold Sched.wakeupOne
  rcases h.dequeue (.channel chan) with ⟨-, hd⟩ | ⟨e, he, hd⟩
  · rw [hd]
    exact h.keeps h.toQueued (.refl s)
  · obtain ⟨i, t, ht, hcpu, hq⟩ := h.wake he
    rw [hd]
    show Keeps s ((s.removeFromQueue (.channel chan) e).wake e)
    rw [ht]
    exact h.keeps hq hcpu

theorem Inv.wakeupAll {fuel : Nat} {chan : C} (h : Inv s L) (hfuel : (L (.channel chan)).length < fuel) :
    Keeps s (s.wakeupAll chan fuel) := by
  induction fuel generalizing s L with
  | zero => omega
  | succ fuel ih =>
    unfold Sched.wakeupAll
    rcases h.dequeue (.channel chan) with ⟨-, hd⟩ | ⟨e, he, hd⟩
    · rw [hd]
      exact h.keeps h.toQueued (.refl s)
    · obtain ⟨i, t, ht, hcpu, hq⟩ := h.wake he
      have hlen := List.length_erase_of_mem he
      rw [hd]
      simp only [ht, Option.bind_some]
      refine (ih (h.of_sameCpu hq hcpu) ?_).of_sameCpu hcpu
      rw [Function.update_of_ne (show Queue.channel chan ≠ .ready i from nofun), Function.update_self]
      have := List.length_pos_of_mem he
      omega

omit [DecidableEq C] in
/-- Two environments in use with the same id are the same. -/
theorem Queued.id_inj {hand : Option (Fin n)} (hn : n ≤ 1048576) (h : Queued s L hand) {f : Fin n}
    (he : (s.envs e).envStatus ≠ .free) (hf : (s.envs f).envStatus ≠ .free) (hid : (s.envs e).envId = (s.envs f).envId) : e = f :=
  (hid ▸ h.id e he).inj hn (h.id f hf)

omit [DecidableEq C] in
theorem Queued.not_free {q : Queue C} (h : Queued s L none) (he : e ∈ L q) (hq : q ≠ .free) : (s.envs e).envStatus ≠ .free :=
  fun hfree => hq (Place.queue.inj (((h.mem e nofun q).mp he).unique (show s.Names e (.queue .free) from hfree)))

/-- An id that is not in the NEW queue is sought in the ready queues. -/
theorem Queued.takeToExit (hn : n ≤ 1048576) (h : Queued s L none) {id : BitVec 32}
    (hnew : ∀ e ∈ L .new, (s.envs e).envId ≠ id) :
    s.takeToExit id = (s.searchReady id 0 s.numOfReadyQueues).map fun
      | some (i, e) => (s.removeFromQueue (.ready i) e, some (some e))
      | none => (s, none) := by
  have hlen : (L .new).length < walkFuel := Nat.lt_of_le_of_lt (h.length_le hn _) (by decide)
  obtain ⟨r, hr, rfl, -⟩ := forEach_rule (fun r : Sched n C × Bool => r.1.next)
    (fun r e => if (r.1.envs e).envId = id then (r.1.schedRemoveNew e).map (·, true) else some r)
    (fun r l => r = (s, false) ∧ ∃ a, L .new = a ++ l)
    (fun r c l ⟨hr, a, ha⟩ => hr ▸ (ha ▸ h.spells.spelled .new).next_of_split)
    (fun r c l ⟨hr, a, ha⟩ => by
      subst hr
      exact ⟨_, if_neg (hnew c (by simp [ha])), rfl, a ++ [c], by simpa using ha⟩)
    ⟨rfl, [], rfl⟩ hlen
  rw [← h.spells.first .new] at hr
  exact (congrArg (Option.bind · _) hr).trans rfl

/-- The environment on the CPU is found in no queue. -/
theorem Inv.takeToExit (hn : n ≤ 1048576) (h : Inv s L) {p : Fin n} (hp : s.proc = some p) :
    s.takeToExit (s.envs p).envId = some (s, none) := by
  have hrun := (h.running p).mp hp
  have hother : ∀ q, q ≠ .free → ∀ e ∈ L q, (s.envs e).envId ≠ (s.envs p).envId := by
    intro q hq e he hid
    have hep := h.id_inj hn (h.not_free he hq) (by rw [hrun]; nofun) hid
    cases ((h.mem e nofun q).mp he).unique (show s.Names e .cpu from hep ▸ hrun)
  obtain ⟨r, hsearch, hsome, -⟩ := h.searchReady hn (s.envs p).envId 0 s.numOfReadyQueues
  rw [h.toQueued.takeToExit hn (hother .new nofun), hsearch, Option.map_some]
  rcases r with _ | ⟨j, e⟩
  · rfl
  · obtain ⟨he, hid⟩ := hsome j e rfl
    exact absurd hid (hother (.ready j) nofun e he)

theorem Inv.envExit_eq (hn : n ≤ 1048576) (h : Inv s L) {p : Fin n} (hp : s.proc = some p) :
    s.schedExitEnv (s.envs p).envId = (s.schedInsertExit p).sched := by
  rw [Sched.schedExitEnv, h.takeToExit hn hp, Option.bind_some]
  simp [hp]

theorem Inv.exits (hn : n ≤ 1048576) (h : Inv s L) {p : Fin n} (hp : s.proc = some p) : Keeps s (s.schedInsertExit p).sched := by
  refine h.depart hn hp (f := ({ · with envStatus := .exit })) (fun _ => rfl) (fun _ => rfl) (fun _ => .inr rfl) ?_
  simp [Names]

theorem Inv.envExit (hn : n ≤ 1048576) (h : Inv s L) {p : Fin n} (hp : s.proc = some p) : Keeps s s.envExit := by
  rw [Sched.envExit, hp, Option.bind_some, h.envExit_eq hn hp]
  exact h.exits hn hp

theorem Queued.exitReady (hn : n ≤ 1048576) (h : Queued s L none) (i : Nat) : ∃ t L',
    forEach Sched.next (fun s e => some ((s.removeFromQueue (.ready i) e).schedInsertExit e)) walkFuel s
      (s.queues.head (.ready i)).first = some t ∧ Queued t L' none ∧ SameCpu s t := by
  have hlen : (L (.ready i)).length < walkFuel := Nat.lt_of_le_of_lt (h.length_le hn _) (by decide)
  rw [h.spells.first (.ready i)]
  obtain ⟨t, ht, L', hq, hcpu, -⟩ := forEach_rule Sched.next
    (fun s e => some ((s.removeFromQueue (.ready i) e).schedInsertExit e))
    (fun u l => ∃ L', Queued u L' none ∧ SameCpu s u ∧ L' (.ready i) = l)
    (fun u c l hP => by
      obtain ⟨L', hq, -, hl⟩ := hP
      exact Spelled.next_of_split (a := []) (hl ▸ hq.spells.spelled (.ready i)))
    (fun u c l hP => by
      obtain ⟨L', hq, hcpu, hl⟩ := hP
      have hc : c ∈ L' (.ready i) := by simp [hl]
      have hready := ((hq.mem c (fun h => by cases h) (.ready i)).mp hc).1
      have hlive : (u.envs c).envStatus ≠ .free := by rw [hready]; decide
      have hw := (hq.take hc).write (f := ({ · with envStatus := .exit })) (fun _ => hq.id c hlive) fun h => absurd rfl h
      refine ⟨_, rfl, _, hw.put (q := .exit) (by simp [Names]), hcpu.trans ?_, ?_⟩
      · have hout : SameCpu u ((u.removeFromQueue (.ready i) c).setStatus c .exit) :=
          SameCpu.removeFromQueue.trans (SameCpu.setStatus (fun h => by cases hready.symm.trans h) hlive (by decide) (by decide))
        exact hout.trans .enqueue
      · rw [Function.update_of_ne (show Queue.ready i ≠ .exit from fun h => by cases h), Function.update_self, hl,
          List.erase_cons_head])
    ⟨L, h, .refl s, rfl⟩ hlen
  exact ⟨t, L', ht, hq, hcpu⟩

theorem Inv.schedExitAllReadyEnvs (hn : n ≤ 1048576) (h : Inv s L) : Keeps s s.schedExitAllReadyEnvs := by
  obtain ⟨t, ht, L', hq, hcpu⟩ := forReady_rule (P := fun t => ∃ L', Queued t L' none ∧ SameCpu s t)
    (fun u i ⟨L', hq, hcpu⟩ => by
      obtain ⟨t, L'', ht, hq', hcpu'⟩ := hq.exitReady hn i
      exact ⟨t, ht, L'', hq', hcpu.trans hcpu'⟩)
    ⟨L, h.toQueued, .refl s⟩ 0 s.numOfReadyQueues
  rw [show s.schedExitAllReadyEnvs = some t from ht]
  exact h.keeps hq hcpu

theorem removeFromQueue_modify (f : Env C → Env C) (q : Queue C) :
    (s.modify e f).removeFromQueue q e = (s.removeFromQueue q e).modify e f := rfl

/-- A new environment is taken from the free list. -/
theorem Inv.envCreate (hn : n ≤ 1048576) (h : Inv s L) (hs : s.envCreate = some (t, e)) :
    (s.envs e).envStatus = .free ∧ (t.envs e).envStatus = .new ∧ (∃ L', Queued t L' (some e)) ∧
      t.proc = s.proc ∧ t.schedulerStatus = s.schedulerStatus ∧ ∀ x, x ≠ e → t.envs x = s.envs x := by
  unfold Sched.envCreate at hs
  obtain ⟨e', hfirst, heq⟩ := Option.map_eq_some_iff.mp hs
  have hmem : e' ∈ L .free := h.spells.mem_of_first hfirst
  have hfree : (s.envs e').envStatus = .free := (h.mem e' nofun .free).mp hmem
  simp only [Prod.mk.injEq] at heq
  obtain ⟨rfl, rfl⟩ := heq
  rw [removeFromQueue_modify]
  refine ⟨hfree, by simp, ⟨_, (h.take hmem).write (fun _ => idOf_nextEnvId hn e' _) fun _ => h.priority e' (by rw [hfree]; nofun)⟩, rfl, rfl, ?_⟩
  exact fun x hx => envs_modify_of_ne _ hx

end Sched

/-! ### The beginning of a run -/

/-- `NENV`: the kernel reserves `PTSIZE/4` bytes for the table `envs`. -/
def nEnv (sizeofEnv : Nat) : Nat := 4194304 / 4 / sizeofEnv

theorem nEnv_le (sizeofEnv : Nat) : nEnv sizeofEnv ≤ 1048576 := Nat.div_le_self ..

namespace Sched

variable {n : Nat} {C : Type} [DecidableEq C]

/-- `env_init()`: the loop goes down and inserts at the head. -/
def envInit (s : Sched n C) : Sched n C := (List.finRange n).foldr (fun e s => s.enqueue .free e) s

/-- `sched_init_RR(quantum)` on the queues that `env_init` and `sched_init` left -/
def schedInitRR : Sched n C :=
  envInit { schedulerMethod := .RR, numOfReadyQueues := 1, starvThreshold := 0, envs := fun _ => {}, queues := {} }

/-- `sched_init_PRIRR(numOfPriorities, quantum, starvThresh)` -/
def schedInitPRIRR (numOfPriorities starvThresh : Nat) : Option (Sched n C) :=
  if numOfPriorities = 0 then some schedInitRR
  else if starvThresh = 0 then none
  else some (envInit { schedulerMethod := .PRIRR, numOfReadyQueues := numOfPriorities, starvThreshold := starvThresh
                       envs := fun _ => {}, queues := {} })

/-- The kernel has started with one of the two schedulers and no environment. -/
def Initial (s : Sched n C) : Prop := s = schedInitRR ∨ ∃ numOfPriorities starvThresh, schedInitPRIRR numOfPriorities starvThresh = some s

/-- `env_init` only links the table into the free list. -/
theorem envInit_eq (s : Sched n C) : s.envInit = { s with queues := s.envInit.queues } := by
  unfold envInit
  induction List.finRange n with
  | nil => rfl
  | cons e l ih =>
    rw [List.foldr_cons, ih]
    rfl

theorem envInit_spells {s : Sched n C} {L : Queue C → List (Fin n)} (hs : s.queues.Spells L) (hL : ∀ q, L q = []) :
    s.envInit.queues.Spells (Function.update L .free (List.finRange n)) := by
  have hfold : ∀ l : List (Fin n), l.Nodup →
      (l.foldr (fun e s => s.enqueue .free e) s).queues.Spells (Function.update L .free l) := by
    intro l
    induction l with
    | nil =>
      intro _
      have hnil : Function.update L .free [] = L := by rw [← hL .free, Function.update_eq_self]
      rw [hnil]
      exact hs
    | cons e l ih =>
      intro hnodup
      obtain ⟨he, hl⟩ := List.nodup_cons.mp hnodup
      have hnot : ∀ q, e ∉ Function.update L .free l q := by
        intro q
        by_cases hq : q = .free
        · rwa [hq, Function.update_self]
        · rw [Function.update_of_ne hq, hL q]
          exact List.not_mem_nil
      have := (ih hl).insertHead (i := .free) hnot
      rwa [Function.update_self, Function.update_idem] at this
  exact hfold _ (List.nodup_finRange n)

theorem envInit_inv {s : Sched n C} (henvs : s.envs = fun _ => {}) (hqueues : s.queues = {})
    (hpos : 0 < s.numOfReadyQueues) (hrr : s.schedulerMethod = .RR → s.numOfReadyQueues = 1) (hproc : s.proc = none) :
    ∃ L, Inv s.envInit L := by
  have hempty : s.queues.Spells fun _ => [] := by
    rw [hqueues]
    exact ⟨⟨fun _ => spelled_nil, fun _ => rfl, fun _ => List.nodup_nil, nofun⟩, fun _ => rfl, fun _ => rfl⟩
  have hspells := envInit_spells hempty fun _ => rfl
  rw [envInit_eq]
  refine ⟨_, ⟨hspells, fun e _ q => ?_, fun e _ => ⟨.queue .free, ?_⟩, nofun, fun e => ?_, fun e => ?_, hrr⟩,
    fun e => ?_, fun _ => hproc⟩
  · rcases q with _ | _ | _ | i | c <;> simp [Names, henvs]
  · simp [Names, henvs]
  · simp [henvs]
  · simp [henvs, hpos]
  · simp [henvs, hproc]

theorem Initial.inv {s : Sched n C} (h : Initial s) : (∃ L, Inv s L) ∧ ∀ e, (s.envs e).envStatus = .free := by
  rcases h with rfl | ⟨k, thr, hs⟩
  · refine ⟨envInit_inv rfl rfl Nat.one_pos (fun _ => rfl) rfl, fun e => ?_⟩
    rw [schedInitRR, envInit_eq]
  · unfold schedInitPRIRR at hs
    split at hs
    case isTrue =>
      cases hs
      refine ⟨envInit_inv rfl rfl Nat.one_pos (fun _ => rfl) rfl, fun e => ?_⟩
      rw [schedInitRR, envInit_eq]
    case isFalse hk =>
      obtain ⟨-, hs⟩ := Option.ite_none_left_eq_some.mp hs
      cases hs
      refine ⟨envInit_inv rfl rfl (Nat.pos_of_ne_zero hk) nofun rfl, fun e => ?_⟩
      rw [envInit_eq]

end Sched

namespace SchedRun

variable {n : Nat} {C : Type} [DecidableEq C] {s t : SchedRun n C}

/-- How often the environment is in the place, when the queues hold the lists `L`. -/
def occurrences (s : SchedRun n C) (L : Queue C → List (Fin n)) (e : Fin n) : Place C → Nat
  | .queue q => (L q).count e
  | .cpu => if s.sched.proc = some e then 1 else 0

/-- Every environment created is in exactly one of the NEW queue, the ready queue of its priority, the queue of the
    channel it sleeps on, the EXIT queue and the CPU, once, and its fields name that place. -/
def Placement (s : SchedRun n C) : Prop :=
  ∃ L, s.sched.queues.Spells L ∧ ∀ e ∈ s.created, ∃ p, p ≠ .queue .free ∧ s.sched.Names e p ∧
    ∀ q, s.occurrences L e q = if q = p then 1 else 0

def Inv (s : SchedRun n C) : Prop :=
  (∃ L, Sched.Inv s.sched L) ∧ ∀ e, e ∈ s.created ↔ (s.sched.envs e).envStatus ≠ .free

theorem Inv.placement (h : Inv s) : Placement s := by
  obtain ⟨⟨L, hinv⟩, hcreated⟩ := h
  refine ⟨L, hinv.spells, fun e he => ?_⟩
  obtain ⟨p, hp⟩ := hinv.placed e nofun
  have hlive := (hcreated e).mp he
  refine ⟨p, ?_, hp, fun q => ?_⟩
  · rintro rfl
    exact hlive hp
  · have hnames : s.sched.Names e q ↔ q = p := ⟨fun hq => hq.unique hp, fun hq => hq ▸ hp⟩
    rcases q with q | _
    · have hmem := (hinv.mem e nofun q).trans hnames
      rw [occurrences, (hinv.spells.nodup q).count]
      simp only [hmem]
    · have hcpu := (hinv.running e).trans hnames
      simp only [occurrences, hcpu]

omit [DecidableEq C] in
theorem Inv.of_keeps (h : Inv s) {r : Option (Sched n C)} (hr : Sched.Keeps s.sched r)
    (ht : r.map (⟨·, s.created⟩) = some t) : Inv t := by
  obtain ⟨u, L, rfl, hinv, hfree⟩ := hr
  cases ht
  exact ⟨⟨L, hinv⟩, fun e => by rw [h.2 e, ne_eq, ne_eq, not_iff_not, hfree e]⟩

/-- The environment that `newEnv` takes from the free list, before it is put into the NEW queue. -/
theorem Inv.created (hn : n ≤ 1048576) (h : Inv s) {priority : Option Int} (hs : s.newEnv priority = some t) :
    ∃ (v : Sched n C) (e : Fin n) (L : Queue C → List (Fin n)), t = ⟨v.schedNewEnv e, e :: s.created⟩ ∧
      (s.sched.envs e).envStatus = .free ∧ Sched.Queued v L (some e) ∧ v.proc = s.sched.proc ∧
      v.schedulerStatus = s.sched.schedulerStatus ∧ (v.envs e).envStatus = .new ∧ ∀ x, x ≠ e → v.envs x = s.sched.envs x := by
  obtain ⟨⟨L, hinv⟩, -⟩ := h
  obtain ⟨⟨u, e⟩, hcreate, hs⟩ := Option.bind_eq_some_iff.mp hs
  obtain ⟨hwas, hnew, ⟨L', hq⟩, hproc, hstatus, hothers⟩ := hinv.envCreate hn hcreate
  have hlive : (u.envs e).envStatus ≠ .free := by rw [hnew]; nofun
  cases priority with
  | none =>
    cases hs
    exact ⟨u, e, L', rfl, hwas, hq, hproc, hstatus, hnew, hothers⟩
  | some p =>
    obtain ⟨v, hv, rfl⟩ := Option.map_eq_some_iff.mp hs
    have hnotready : (u.envs e).envStatus ≠ .ready := by rw [hnew]; nofun
    unfold Sched.envSetPriority at hv
    rw [hq.envid2env hn hlive] at hv
    obtain ⟨hp, hv⟩ := Option.ite_none_left_eq_some.mp hv
    rw [Sched.changePriority, if_neg hnotready] at hv
    cases hv
    have hrange : 0 ≤ p ∧ p < u.numOfReadyQueues := by omega
    -- The priority is written while the environment is in hand.
    have hq' := hq.touch (e := e) (f := ({ · with priority := p })) rfl rfl (fun h => absurd h hnotready) (fun _ => rfl) fun _ => hrange
    refine ⟨_, e, L', rfl, hwas, hq', hproc, hstatus, ?_, fun x hx => ?_⟩
    · simpa using hnew
    · rw [Sched.envs_modify_of_ne _ hx, hothers x hx]

theorem Inv.newEnv (hn : n ≤ 1048576) (h : Inv s) {priority : Option Int} (hs : s.newEnv priority = some t) : Inv t := by
  obtain ⟨v, e, L', rfl, hwas, hq, hproc, hstatus, hnew, hothers⟩ := h.created hn hs
  obtain ⟨⟨L, hinv⟩, hcreated⟩ := h
  have hw : Sched.Queued (v.setStatus e .new) L' (some e) :=
    hq.write (fun _ => hq.id e (by rw [hnew]; nofun)) fun _ => hq.priority e (by rw [hnew]; nofun)
  have hput := hw.put (q := .new) (by simp [Sched.Names, Sched.setStatus])
  have henv : ∀ x, x ≠ e → (v.schedNewEnv e).envs x = s.sched.envs x := fun x hx => by
    show (v.setStatus e .new).envs x = _
    rw [Sched.setStatus, Sched.envs_modify_of_ne _ hx, hothers x hx]
  have henew : ((v.schedNewEnv e).envs e).envStatus = .new := by
    show ((v.setStatus e .new).envs e).envStatus = _
    rw [Sched.setStatus, Sched.envs_modify_self]
  refine ⟨⟨_, hput, fun x => ?_, fun hst => hproc.trans (hinv.stopped (hstatus.symm.trans hst))⟩, fun x => ?_⟩
  · show v.proc = some x ↔ ((v.schedNewEnv e).envs x).envStatus = .running
    rw [hproc, hinv.running x]
    by_cases hx : x = e
    · rw [hx, henew, hwas]
      simp
    · rw [henv x hx]
  · by_cases hx : x = e
    · simp [hx, henew]
    · simp [hx, henv x hx, hcreated x]

theorem Inv.step (hn : n ≤ 1048576) (h : Inv s) {e : SchedEvent C} (hs : s.step e = some t) : Inv t := by
  obtain ⟨L, hinv⟩ := h.1
  have hcur : ∀ {r : Option (Sched n C)}, r.map (⟨·, s.created⟩) = some t → (s.sched.proc = none → r = none) →
      ∃ p, s.sched.proc = some p := by
    intro r hr hnone
    cases hp : s.sched.proc with
    | some p => exact ⟨p, rfl⟩
    | none => simp [hnone hp] at hr
  cases e with
  | newEnv priority => exact h.newEnv hn hs
  | runEnv envId => exact h.of_keeps (hinv.schedRunEnv hn envId) hs
  | runAll =>
    obtain ⟨u, hu, rfl⟩ := Option.map_eq_some_iff.mp hs
    exact h.of_keeps (hinv.schedRunAll hn hu) rfl
  | yield =>
    obtain ⟨p, hp⟩ := hcur hs fun hp => by simp [Sched.yield, hp]
    exact h.of_keeps (hinv.yield hn hp) hs
  | clock => exact h.of_keeps (hinv.clockInterruptHandler hn) hs
  | setPriority envID priority =>
    obtain ⟨u, hu, rfl⟩ := Option.map_eq_some_iff.mp hs
    obtain ⟨L', hq, hcpu⟩ := hinv.envSetPriority hn hu
    exact h.of_keeps (hinv.keeps hq hcpu) rfl
  | sleep chan =>
    obtain ⟨p, hp⟩ := hcur hs fun hp => by simp [Sched.sleep, hp]
    exact h.of_keeps (hinv.sleep hn hp chan) hs
  | sleepReturn =>
    obtain ⟨p, hp⟩ := hcur hs fun hp => by simp [Sched.sleepReturn, hp]
    have hrun := (hinv.running p).mp hp
    refine h.of_keeps (hinv.keeps (hinv.touch (e := p) (f := ({ · with channel := none })) rfl rfl (fun _ => rfl) ?_
      (hinv.priority p)) (.touch _ fun _ => rfl)) (by simpa [SchedRun.step, Sched.sleepReturn, hp] using hs)
    exact fun hb => nomatch hrun.symm.trans hb
  | wakeupOne chan => exact h.of_keeps (hinv.wakeupOne chan) hs
  | wakeupAll chan =>
    exact h.of_keeps (hinv.wakeupAll (Nat.lt_of_le_of_lt (hinv.length_le hn _) (by decide))) hs
  | exit =>
    obtain ⟨p, hp⟩ := hcur hs fun hp => by simp [Sched.envExit, hp]
    exact h.of_keeps (hinv.envExit hn hp) hs
  | exitAllReady => exact h.of_keeps (hinv.schedExitAllReadyEnvs hn) hs
  | schedule =>
    obtain ⟨⟨hp, hstarted⟩, hs⟩ := Option.ite_none_right_eq_some.mp hs
    have hchoosing : Sched.Choosing s.sched L none :=
      ⟨hinv.toQueued, hp, nofun, fun e he => nomatch hp.symm.trans ((hinv.running e).mpr he)⟩
    exact h.of_keeps (hchoosing.dispatch hn hstarted) hs

theorem Inv.initial {s₀ : Sched n C} (h : s₀.Initial) : Inv ⟨s₀, []⟩ :=
  ⟨h.inv.1, fun e => by simp [h.inv.2 e]⟩

theorem Inv.reach (hn : n ≤ 1048576) {s₀ : Sched n C} (hinit : s₀.Initial) (hr : Reach SchedRun.step (fun _ _ => True) ⟨s₀, []⟩ s) :
    Inv s :=
  hr.invariant (I := Inv) (.initial hinit) fun _ _ _ h _ hs => h.step hn hs

/-- In every run of either scheduler every environment created is in one place, which its fields name. -/
theorem process_placement (sizeofEnv : Nat) {s₀ : Sched (nEnv sizeofEnv) C} (hinit : s₀.Initial)
    {s : SchedRun (nEnv sizeofEnv) C} (hr : Reach SchedRun.step (fun _ _ => True) ⟨s₀, []⟩ s) : Placement s :=
  (Inv.reach (nEnv_le _) hinit hr).placement

/-- Three environments of which one runs, one sleeps and one is new. -/
theorem process_placement_three : ∃ s₀ : Sched (nEnv 349525) Unit, s₀.Initial ∧ ∃ s : SchedRun (nEnv 349525) Unit,
    Reach SchedRun.step (fun _ _ => True) ⟨s₀, []⟩ s ∧
      s.created.map (fun e => (s.sched.envs e).envStatus) = [.new, .blocked, .running] ∧ Placement s := by
  obtain ⟨s₀, h₀⟩ : ∃ s₀ : Sched (nEnv 349525) Unit, Sched.schedInitPRIRR 2 1 = some s₀ := ⟨_, rfl⟩
  have hinit : s₀.Initial := .inr ⟨2, 1, h₀⟩
  let events : List (SchedEvent Unit) :=
    [.newEnv (some 1), .newEnv (some 0), .runAll, .sleep (), .clock, .yield, .newEnv none]
  have hexec : (((Sched.schedInitPRIRR 2 1).bind fun s₀ : Sched (nEnv 349525) Unit => exec SchedRun.step ⟨s₀, []⟩ events).map
      fun s => s.created.map fun e => (s.sched.envs e).envStatus) = some [.new, .blocked, .running] := by decide +kernel
  rw [h₀, Option.bind_some] at hexec
  obtain ⟨s, hs, hstatus⟩ := Option.map_eq_some_iff.mp hexec
  have hr : Reach SchedRun.step (fun _ _ => True) ⟨s₀, []⟩ s := Reach.init.of_exec hs fun _ _ _ _ _ _ => trivial
  exact ⟨s₀, hinit, s, hr, hstatus, process_placement 349525 hinit hr⟩

end SchedRun

end Fos.Cpu
