import Fos.Cpu.Line

/-! Under `fos_scheduler_PRIRR` no environment that is ready waits forever: the clock brings it to the first ready queue, and
    there every tick takes one environment from the line before it. -/

namespace Fos.Cpu
open Lib

namespace Sched

variable {n : Nat} {C : Type} [DecidableEq C] {s t u : Sched n C} {L : Queue C → List (Fin n)} {e x p : Fin n} {k : Nat}

/-- One environment less is ahead. -/
def Nearer (t : Sched n C) (e : Fin n) (k : Nat) : Prop := ∃ j, k = j + 1 ∧ Line t e j

omit [DecidableEq C] in
theorem Nearer.line (h : Nearer t e k) : Line t e k := by
  obtain ⟨j, rfl, hline⟩ := h
  exact hline.mono (Nat.le_succ j)

omit [DecidableEq C] in
/-- An environment in line is ready, and others are not that environment. -/
theorem Line.ne_of_status (h : Line s e k) (hq : Queued s L none) (hx : (s.envs x).envStatus ≠ .ready) : x ≠ e := by
  rintro rfl
  exact hx (h.waits hq).1

/-! ### The operations that choose an environment -/

theorem Line.yield (hn : n ≤ 1048576) (h : Line s e k) (hinv : Inv s L) (hmethod : s.schedulerMethod = .PRIRR)
    (ht : s.yield = some t) (hwaits : (t.envs e).envStatus = .ready) : Nearer t e k := by
  obtain ⟨p, hp, ht⟩ := Option.bind_eq_some_iff.mp ht
  obtain ⟨hchoosing, -⟩ := hinv.yielding hp
  have hline : Line (s.setStatus p .ready) e k := h.of_queues rfl
  unfold Sched.sched at ht
  rw [hchoosing.proc, Option.bind_some, hchoosing.ready p rfl] at ht
  exact hline.dispatch hn hchoosing hmethod ht hwaits

/-- The environment on the CPU goes to a queue that is not a ready queue. -/
theorem Line.depart (hn : n ≤ 1048576) (h : Line s e k) (hinv : Inv s L) (hmethod : s.schedulerMethod = .PRIRR)
    (hp : s.proc = some p) {f : Env C → Env C} (hid : ∀ y, (f y).envId = y.envId) (hprio : ∀ y, (f y).priority = y.priority)
    (hst : ∀ y, (f y).envStatus = .blocked ∨ (f y).envStatus = .exit) {q : Queue C} (hq : (s.modify p f).Names p (.queue q))
    (ht : ((s.modify p f).enqueue q p).sched = some t) (hwaits : (t.envs e).envStatus = .ready) : Nearer t e k := by
  have hne : ∀ y, (f y).envStatus ≠ .running ∧ (f y).envStatus ≠ .free := fun y => by
    rcases hst y with hy | hy <;> simp [hy]
  obtain ⟨hqueued, hruns, -⟩ := hinv.leave hp hid hprio (fun y => (hne y).1) fun y => (hne y).2
  have hput := hqueued.put hq
  have hchoosing : Choosing { (s.modify p f).enqueue q p with proc := none } _ none :=
    ⟨⟨hput.spells, hput.mem, hput.placed, hput.not_mem, hput.id, hput.priority, hput.round_robin⟩, rfl,
      fun y hy => absurd hy.symm (Option.some_ne_none y), hruns⟩
  have hline : Line ((s.modify p f).enqueue q p) e k :=
    (h.of_queues (t := s.modify p f) rfl).enqueue hqueued.spells (hqueued.not_mem p rfl) q
  have hproc : ((s.modify p f).enqueue q p).proc = some p := hp
  have hstatus : (((s.modify p f).enqueue q p).envs p).envStatus = (f (s.envs p)).envStatus :=
    congrArg Env.envStatus (envs_modify_self f)
  rw [Sched.sched, hproc, Option.bind_some, hstatus] at ht
  have hd : Sched.dispatch { (s.modify p f).enqueue q p with proc := none } = some t := by
    rcases hst (s.envs p) with hx | hx <;> rw [hx] at ht <;> exact ht
  exact (hline.of_queues (t := { (s.modify p f).enqueue q p with proc := none }) rfl).dispatch hn hchoosing hmethod hd hwaits

theorem Line.sleep (hn : n ≤ 1048576) (h : Line s e k) (hinv : Inv s L) (hmethod : s.schedulerMethod = .PRIRR) {chan : C}
    (ht : s.sleep chan = some t) (hwaits : (t.envs e).envStatus = .ready) : Nearer t e k := by
  obtain ⟨p, hp, ht⟩ := Option.bind_eq_some_iff.mp ht
  refine h.depart hn hinv hmethod hp (f := ({ · with envStatus := .blocked, channel := some chan })) (fun _ => rfl)
    (fun _ => rfl) (fun _ => .inl rfl) ?_ ht hwaits
  simp [Names]

theorem Line.envExit (hn : n ≤ 1048576) (h : Line s e k) (hinv : Inv s L) (hmethod : s.schedulerMethod = .PRIRR)
    (ht : s.envExit = some t) (hwaits : (t.envs e).envStatus = .ready) : Nearer t e k := by
  obtain ⟨p, hp, ht⟩ := Option.bind_eq_some_iff.mp ht
  rw [hinv.envExit_eq hn hp] at ht
  refine h.depart hn hinv hmethod hp (f := ({ · with envStatus := .exit })) (fun _ => rfl) (fun _ => rfl)
    (fun _ => .inr rfl) ?_ ht hwaits
  simp [Names]

theorem Line.fosScheduler (hn : n ≤ 1048576) (h : Line s e k) (hinv : Inv s L) (hmethod : s.schedulerMethod = .PRIRR)
    (hstop : s.schedulerStatus = .stopped) (ht : s.fosScheduler = some t) (hwaits : (t.envs e).envStatus = .ready) :
    Nearer t e k := by
  have hchoosing : Choosing { s with proc := none, schedulerStatus := .started } L none := by
    refine ⟨⟨hinv.spells, hinv.mem, hinv.placed, hinv.not_mem, hinv.id, hinv.priority, hinv.round_robin⟩, rfl,
      fun y hy => absurd hy.symm (Option.some_ne_none y), fun y hy => ?_⟩
    exact absurd (((hinv.running y).mpr hy).symm.trans (hinv.stopped hstop)) (Option.some_ne_none y)
  exact (h.of_queues (t := { s with proc := none, schedulerStatus := .started }) rfl).dispatch hn hchoosing hmethod ht hwaits

/-! ### Those that make an environment ready -/

theorem Line.schedRunEnv (hn : n ≤ 1048576) (h : Line s e k) (hinv : Inv s L) (hmethod : s.schedulerMethod = .PRIRR)
    {id : BitVec 32} (ht : s.schedRunEnv id = some t) (hwaits : (t.envs e).envStatus = .ready) : Line t e k := by
  obtain ⟨r, hr, hsome, -⟩ := hinv.findEnvInQueue hn .new id
  unfold Sched.schedRunEnv at ht
  rw [hr, Option.bind_some] at ht
  cases r with
  | none =>
    cases ht
    exact h
  | some x =>
    have hx := (hsome x rfl).1
    have hnew : (s.envs x).envStatus = .new := (hinv.mem x (Option.some_ne_none x).symm .new).mp hx
    have hne : x ≠ e := h.ne_of_status hinv.toQueued (by rw [hnew]; decide)
    obtain ⟨hremove, hq⟩ := hinv.schedRemoveNew hx
    have hout : SameCpu s ((s.removeFromQueue .new x).setStatus x .unknown) :=
      SameCpu.removeFromQueue.trans
        (SameCpu.setStatus (fun hrun => by cases hnew.symm.trans hrun) (fun hfree => by cases hnew.symm.trans hfree)
          (by decide) (by decide))
    obtain ⟨i, v, hv, hq', hcpu⟩ := hq.insertReady (by simp [setStatus]) (by simp [setStatus]) (by simp [setStatus])
    have hline : Line v e k :=
      ((h.removeFromQueue hinv.spells hx hne).of_queues (t := (s.removeFromQueue .new x).setStatus x .unknown) rfl).insertReady hq hv
    have hmethod' : v.schedulerMethod = .PRIRR :=
      (congrArg Prod.fst ((Writes.insertReady hv).settings)).trans hmethod
    dsimp only at ht
    rw [hremove, Option.bind_some, hv, Option.bind_some] at ht
    split at ht
    case isTrue hstop => exact (hline.fosScheduler hn (hinv.of_sameCpu hq' (hout.trans hcpu)) hmethod' hstop ht hwaits).line
    case isFalse =>
      cases ht
      exact hline

theorem Line.newToReady (h : Line s e k) (hinv : Inv s L) {m : Nat} (ht : s.newToReady m = some t) :
    Line t e k ∧ ∃ L', Inv t L' := by
  induction m generalizing s L with
  | zero =>
    cases ht
    exact ⟨h, L, hinv⟩
  | succ m ih =>
    unfold Sched.newToReady at ht
    rcases hinv.dequeue .new with ⟨-, hd⟩ | ⟨x, hx, hd⟩
    · rw [hd] at ht
      cases ht
    · have hnew : (s.envs x).envStatus = .new := (hinv.mem x (Option.some_ne_none x).symm .new).mp hx
      have hne : x ≠ e := h.ne_of_status hinv.toQueued (by rw [hnew]; decide)
      have hnew' : ((s.removeFromQueue .new x).envs x).envStatus = .new := hnew
      obtain ⟨i, v, hv, hq, hcpu⟩ := (hinv.take hx).insertReady (by rw [hnew']; decide) (by rw [hnew']; decide)
        (by rw [hnew']; decide)
      rw [hd] at ht
      dsimp only at ht
      rw [hv, Option.bind_some] at ht
      exact ih ((h.removeFromQueue hinv.spells hx hne).insertReady (hinv.take hx) hv)
        (hinv.of_sameCpu hq (SameCpu.removeFromQueue.trans hcpu)) ht

theorem Line.schedRunAll (hn : n ≤ 1048576) (h : Line s e k) (hinv : Inv s L) (hmethod : s.schedulerMethod = .PRIRR)
    (ht : s.schedRunAll = some t) (hwaits : (t.envs e).envStatus = .ready) : Nearer t e k := by
  obtain ⟨u, hu, ht⟩ := Option.bind_eq_some_iff.mp ht
  obtain ⟨hstop, ht⟩ := Option.ite_none_right_eq_some.mp ht
  obtain ⟨hline, L', hinv'⟩ := h.newToReady hinv hu
  exact hline.fosScheduler hn hinv' ((congrArg Prod.fst (SameAges.newToReady hu).settings).trans hmethod) hstop ht hwaits

/-- An environment that slept comes behind those in line. -/
theorem Line.wake (h : Line s e k) (hq : Queued s L none) {c : C} (hx : x ∈ L (.channel c)) :
    ∃ t L', (s.removeFromQueue (.channel c) x).wake x = some t ∧ Queued t L' none ∧ Line t e k := by
  have hblocked : (s.envs x).envStatus = .blocked := ((hq.mem x (Option.some_ne_none x).symm (.channel c)).mp hx).1
  have hne : x ≠ e := h.ne_of_status hq (by rw [hblocked]; decide)
  obtain ⟨i, t, ht, -, hq'⟩ := hq.wake hx
  exact ⟨t, _, ht, hq', _, hq'.spells, ((h.ahead hq.spells).erase hne _).insert _ x⟩

theorem Line.wakeupOne (h : Line s e k) (hq : Queued s L none) {chan : C} (ht : s.wakeupOne chan = some t) : Line t e k := by
  unfold Sched.wakeupOne at ht
  rcases hq.dequeue (.channel chan) with ⟨-, hd⟩ | ⟨x, hx, hd⟩
  · rw [hd] at ht
    cases ht
    exact h
  · obtain ⟨u, L', hu, -, hline⟩ := h.wake hq hx
    rw [hd] at ht
    cases hu.symm.trans ht
    exact hline

theorem Line.wakeupAll (h : Line s e k) (hq : Queued s L none) {chan : C} {fuel : Nat} (ht : s.wakeupAll chan fuel = some t) :
    Line t e k := by
  induction fuel generalizing s L with
  | zero => cases ht
  | succ fuel ih =>
    unfold Sched.wakeupAll at ht
    rcases hq.dequeue (.channel chan) with ⟨-, hd⟩ | ⟨x, hx, hd⟩
    · rw [hd] at ht
      cases ht
      exact h
    · obtain ⟨u, L', hu, hq', hline⟩ := h.wake hq hx
      rw [hd] at ht
      dsimp only at ht
      rw [hu, Option.bind_some] at ht
      exact ih hline hq' ht

/-! ### The clock, and the end of all that are ready -/

theorem Line.clockInterruptHandler (hn : n ≤ 1048576) (h : Line s e k) (hinv : Inv s L) (hmethod : s.schedulerMethod = .PRIRR)
    (ht : s.clockInterruptHandler = some t) (hwaits : (t.envs e).envStatus = .ready) :
    if s.proc = none then Line t e k else Nearer t e k := by
  obtain ⟨u, L', hu, hq, hcpu, hline⟩ := h.promoteAll hn hinv.toQueued
  have hmethod' : u.schedulerMethod = .PRIRR := by
    obtain ⟨v, -, hv, -, -, hvisited⟩ := hinv.promoteAll hn
    cases hu.symm.trans hv
    exact (congrArg Prod.fst hvisited.settings).trans hmethod
  unfold Sched.clockInterruptHandler at ht
  rw [if_pos hmethod, hu, Option.bind_some, hcpu.proc] at ht
  cases hproc : s.proc with
  | none =>
    rw [hproc] at ht
    cases ht
    rwa [if_pos rfl]
  | some p =>
    rw [hproc] at ht
    rw [if_neg (Option.some_ne_none p)]
    exact hline.yield hn (hinv.of_sameCpu hq hcpu) hmethod' ht hwaits

/-- The loop over the ready queue `i` leaves it empty, and the other ready queues as they are. -/
theorem Queued.exitReady_empties (hn : n ≤ 1048576) (h : Queued s L none) (i : Nat) : ∃ t L',
    forEach Sched.next (fun s e => some ((s.removeFromQueue (.ready i) e).schedInsertExit e)) walkFuel s
      (s.queues.head (.ready i)).first = some t ∧ Queued t L' none ∧ L' (.ready i) = [] ∧ ∀ j, j ≠ i → L' (.ready j) = L (.ready j) := by
  have hlen : (L (.ready i)).length < walkFuel := Nat.lt_of_le_of_lt (h.length_le hn _) (by decide)
  have hexit : ∀ j, Queue.ready j ≠ (.exit : Queue C) := fun j hj => by cases hj
  rw [h.spells.first (.ready i)]
  obtain ⟨t, ht, L', hq, hnil, hothers⟩ := forEach_rule Sched.next
    (fun s e => some ((s.removeFromQueue (.ready i) e).schedInsertExit e))
    (fun u l => ∃ L', Queued u L' none ∧ L' (.ready i) = l ∧ ∀ j, j ≠ i → L' (.ready j) = L (.ready j))
    (fun u c l hP => by
      obtain ⟨L', hq, hl, -⟩ := hP
      exact Spelled.next_of_split (a := []) (hl ▸ hq.spells.spelled (.ready i)))
    (fun u c l hP => by
      obtain ⟨L', hq, hl, hothers⟩ := hP
      have hc : c ∈ L' (.ready i) := by
        rw [hl]
        exact List.mem_cons_self
      have hready := ((hq.mem c (Option.some_ne_none c).symm (.ready i)).mp hc).1
      have hlive : (u.envs c).envStatus ≠ .free := by
        rw [hready]
        decide
      have hw := (hq.take hc).write (f := ({ · with envStatus := .exit })) (fun _ => hq.id c hlive) fun h => absurd rfl h
      refine ⟨_, rfl, _, hw.put (q := .exit) (by simp [Names]), ?_, fun j hj => ?_⟩
      · rw [Function.update_of_ne (hexit i), Function.update_self, hl, List.erase_cons_head]
      · rw [Function.update_of_ne (hexit j), Function.update_of_ne (fun heq => hj (Queue.ready.inj heq)), hothers j hj])
    ⟨L, h, rfl, fun _ _ => rfl⟩ hlen
  exact ⟨t, L', ht, hq, hnil, hothers⟩

theorem Queued.none_ready_of_exitAll (hn : n ≤ 1048576) (h : Queued s L none) (ht : s.schedExitAllReadyEnvs = some t) (x : Fin n) :
    (t.envs x).envStatus ≠ .ready := by
  obtain ⟨u, hu, L', hq, hempty⟩ := forReady_index
    (P := fun i u => ∃ L', Queued u L' none ∧ ∀ j, j < i → L' (.ready j) = [])
    (fun u i hP => by
      obtain ⟨L', hq, hempty⟩ := hP
      obtain ⟨t, L'', ht, hq', hnil, hothers⟩ := hq.exitReady_empties hn i
      refine ⟨t, ht, L'', hq', fun j hj => ?_⟩
      rcases Nat.lt_succ_iff_lt_or_eq.mp hj with hlt | rfl
      · rw [hothers j (Nat.ne_of_lt hlt), hempty j hlt]
      · exact hnil)
    (i := 0) ⟨L, h, fun j hj => absurd hj (Nat.not_lt_zero j)⟩ s.numOfReadyQueues
  obtain rfl : u = t := Option.some.inj (hu.symm.trans ht)
  intro hready
  have hlive : (u.envs x).envStatus ≠ .exit := by
    rw [hready]
    decide
  obtain ⟨hpos, hlt⟩ := hq.priority x hlive
  have hnum : u.numOfReadyQueues = s.numOfReadyQueues :=
    congrArg (fun c : SchedMethod × Nat × Nat => c.2.1) (SameAges.schedExitAllReadyEnvs hu).settings
  have hmem : x ∈ L' (.ready (u.envs x).priority.toNat) :=
    (hq.mem x (Option.some_ne_none x).symm _).mpr ⟨hready, (Int.toNat_of_nonneg hpos).symm⟩
  rw [hempty _ (by omega)] at hmem
  cases hmem

end Sched

/-- The ticks after which an environment that waits below level 0 is at level 0. -/
def ticksLeft {C : Type} (threshold : Nat) (x : Env C) : Nat := x.priority.toNat * (threshold + 1) - x.starvcounteer

/-- One tick of an environment below level 0. -/
theorem aged_ticksLeft {C : Type} {threshold : Nat} (hthreshold : threshold + 1 < 4294967296) {x : Env C} (hpos : 0 < x.priority)
    (hle : x.starvcounteer ≤ threshold) :
    0 ≤ (aged threshold x).priority ∧ (aged threshold x).starvcounteer ≤ threshold ∧
      ticksLeft threshold (aged threshold x) + 1 = ticksLeft threshold x := by
  have hnext : u32 (x.starvcounteer + 1) = x.starvcounteer + 1 := Nat.mod_eq_of_lt (by omega)
  obtain ⟨q, hq⟩ := Int.eq_succ_of_zero_lt hpos
  have hsucc : (q + 1) * (threshold + 1) = q * (threshold + 1) + (threshold + 1) := Nat.succ_mul ..
  have hlevel : x.priority.toNat = q + 1 := by omega
  unfold aged
  rw [hnext]
  split
  case isTrue hpromoted =>
    have hlevel' : (x.priority - 1).toNat = q := by omega
    refine ⟨show 0 ≤ x.priority - 1 by omega, Nat.zero_le _, ?_⟩
    simp only [ticksLeft, hlevel, hlevel']
    omega
  case isFalse hstays =>
    refine ⟨hpos.le, ?_, ?_⟩
    · dsimp only
      omega
    · simp only [ticksLeft, hlevel]
      omega

namespace SchedRun

variable {n : Nat} {C : Type} [DecidableEq C] {s t u : SchedRun n C} {e : Fin n} {k : Nat}

/-- A new environment is taken from the free list, and goes to no ready queue. -/
theorem Inv.line_newEnv (hn : n ≤ 1048576) (h : Inv s) (hline : s.sched.Line e k) {priority : Option Int}
    (hs : s.newEnv priority = some t) : t.sched.Line e k := by
  obtain ⟨⟨L, hinv⟩, -⟩ := h
  obtain ⟨⟨u, d⟩, hcreate, hs⟩ := Option.bind_eq_some_iff.mp hs
  obtain ⟨hwas, hnew, ⟨L', hq⟩, -, -, -⟩ := hinv.envCreate hn hcreate
  have hne : d ≠ e := hline.ne_of_status hinv.toQueued (by rw [hwas]; decide)
  have htaken : u.Line e k := by
    obtain ⟨d', hfirst, heq⟩ := Option.map_eq_some_iff.mp hcreate
    cases heq
    exact (hline.of_queues (t := s.sched.modify d _) rfl).removeFromQueue hinv.spells (hinv.spells.mem_of_first hfirst) hne
  have hput : ∀ v : Sched n C, v.queues = u.queues → (v.schedNewEnv d).Line e k := fun v hv =>
    (htaken.of_queues (t := v.setStatus d .new) hv).enqueue (L := L')
      (show v.queues.Spells L' by rw [hv]; exact hq.spells) (hq.not_mem d rfl) .new
  cases priority with
  | none =>
    cases hs
    exact hput u rfl
  | some p =>
    obtain ⟨v, hv, rfl⟩ := Option.map_eq_some_iff.mp hs
    obtain ⟨d', hd', -, -, hv⟩ := Sched.envSetPriority_eq hv
    cases hd'.symm.trans (hq.envid2env hn (by rw [hnew]; decide))
    unfold Sched.changePriority at hv
    rw [if_neg (by rw [hnew]; decide)] at hv
    cases hv
    exact hput _ rfl

/-- No event puts an environment ahead of one that waits in line, and a tick that takes the CPU from an environment takes one
    out of the line. -/
theorem Inv.step_line (hn : n ≤ 1048576) (h : Inv s) (hmethod : s.sched.schedulerMethod = .PRIRR) (hline : s.sched.Line e k)
    {ev : SchedEvent C} (hev : LeavesPriority e s ev) (hs : s.step ev = some t) (hwaits : (t.sched.envs e).envStatus = .ready) :
    t.sched.Line e k := by
  obtain ⟨L, hinv⟩ := h.1
  cases ev with
  | newEnv priority => exact h.line_newEnv hn hline hs
  | runEnv envId =>
    obtain ⟨u, hu, rfl⟩ := Option.map_eq_some_iff.mp hs
    exact hline.schedRunEnv hn hinv hmethod hu hwaits
  | runAll =>
    obtain ⟨u, hu, rfl⟩ := Option.map_eq_some_iff.mp hs
    exact (hline.schedRunAll hn hinv hmethod hu hwaits).line
  | yield =>
    obtain ⟨u, hu, rfl⟩ := Option.map_eq_some_iff.mp hs
    exact (hline.yield hn hinv hmethod hu hwaits).line
  | clock =>
    obtain ⟨u, hu, rfl⟩ := Option.map_eq_some_iff.mp hs
    have htick := hline.clockInterruptHandler hn hinv hmethod hu hwaits
    split at htick
    · exact htick
    · exact htick.line
  | setPriority id p =>
    obtain ⟨u, hu, rfl⟩ := Option.map_eq_some_iff.mp hs
    obtain ⟨d, hd, hp, hp', hu⟩ := Sched.envSetPriority_eq hu
    exact hline.changePriority hn hinv.toQueued (fun hde => hev id p rfl (hde ▸ hd)) ⟨hp, hp'⟩ hu
  | sleep chan =>
    obtain ⟨u, hu, rfl⟩ := Option.map_eq_some_iff.mp hs
    exact (hline.sleep hn hinv hmethod hu hwaits).line
  | sleepReturn =>
    obtain ⟨u, hu, rfl⟩ := Option.map_eq_some_iff.mp hs
    obtain ⟨p, -, rfl⟩ := Option.map_eq_some_iff.mp hu
    exact hline.of_queues rfl
  | wakeupOne chan =>
    obtain ⟨u, hu, rfl⟩ := Option.map_eq_some_iff.mp hs
    exact hline.wakeupOne hinv.toQueued hu
  | wakeupAll chan =>
    obtain ⟨u, hu, rfl⟩ := Option.map_eq_some_iff.mp hs
    exact hline.wakeupAll hinv.toQueued hu
  | exit =>
    obtain ⟨u, hu, rfl⟩ := Option.map_eq_some_iff.mp hs
    exact (hline.envExit hn hinv hmethod hu hwaits).line
  | exitAllReady =>
    obtain ⟨u, hu, rfl⟩ := Option.map_eq_some_iff.mp hs
    exact absurd hwaits (hinv.none_ready_of_exitAll hn hu e)
  | schedule =>
    obtain ⟨⟨hp, -⟩, hs⟩ := Option.ite_none_right_eq_some.mp hs
    obtain ⟨u, hu, rfl⟩ := Option.map_eq_some_iff.mp hs
    have hchoosing : Sched.Choosing s.sched L none :=
      ⟨hinv.toQueued, hp, fun y hy => absurd hy.symm (Option.some_ne_none y),
        fun y hy => absurd (((hinv.running y).mpr hy).symm.trans hp) (Option.some_ne_none y)⟩
    exact Sched.Nearer.line (hline.dispatch hn hchoosing hmethod hu hwaits)

/-- From `s` to `t` the environment stays ready, nobody sets its priority, and `k` ticks take the CPU from an environment. -/
inductive Delayed (e : Fin n) (s : SchedRun n C) : Nat → SchedRun n C → Prop
  | start : Delayed e s 0 s
  | preempt {k : Nat} {t u : SchedRun n C} : Delayed e s k t → t.sched.proc ≠ none → t.step .clock = some u →
      (u.sched.envs e).envStatus = .ready → Delayed e s (k + 1) u
  | other {k : Nat} {t u : SchedRun n C} (ev : SchedEvent C) : Delayed e s k t → (ev = .clock → t.sched.proc = none) →
      LeavesPriority e t ev → t.step ev = some u → (u.sched.envs e).envStatus = .ready → Delayed e s k u

/-- What is left of the delay after `k` ticks, when the level 0 is reached after `b` ticks at the latest. -/
inductive Remains (threshold b k : Nat) (e : Fin n) (t : SchedRun n C) : Prop
  | below : 0 < (t.sched.envs e).priority → (t.sched.envs e).starvcounteer ≤ threshold →
      k + ticksLeft threshold (t.sched.envs e) ≤ b → Remains threshold b k e t
  | line {j : Nat} : t.sched.Line e j → k + j ≤ b + (n - 1) → Remains threshold b k e t

variable {threshold b : Nat}

theorem Remains.tick (hn : n ≤ 1048576) (h : Inv s) (hmethod : s.sched.schedulerMethod = .PRIRR)
    (hthreshold : s.sched.starvThreshold = threshold) (hbound : threshold + 1 < 4294967296) (hr : Remains threshold b k e s)
    (hready : (s.sched.envs e).envStatus = .ready) (hs : s.step .clock = some t) (hwaits : (t.sched.envs e).envStatus = .ready) :
    Remains threshold b (if s.sched.proc = none then k else k + 1) e t := by
  obtain ⟨L, hinv⟩ := h.1
  obtain ⟨L', hinv'⟩ := (h.step hn hs).1
  obtain ⟨u, hu, rfl⟩ := Option.map_eq_some_iff.mp hs
  have hk : (if s.sched.proc = none then k else k + 1) ≤ k + 1 := by split <;> omega
  cases hr with
  | below hpos hle hleft =>
    have hticked := hinv.ticked hn hmethod hu
    have hprio := hticked.priority e hready
    have hcounter := hticked.counter e hready (by rw [hwaits]; decide)
    rw [hthreshold] at hprio hcounter
    obtain ⟨hnonneg, hle', hstep⟩ := aged_ticksLeft hbound hpos hle
    rcases hnonneg.lt_or_eq with hlt | hzero
    · have heq : ticksLeft threshold (u.envs e) = ticksLeft threshold (aged threshold (s.sched.envs e)) := by
        rw [ticksLeft, ticksLeft, hprio, hcounter]
      exact .below (hprio ▸ hlt) (hcounter ▸ hle') (show _ + ticksLeft threshold (u.envs e) ≤ b by omega)
    · exact .line (hinv'.line hwaits (hprio.trans hzero.symm)) (by omega)
  | @line j hline hleft =>
    have hnear := hline.clockInterruptHandler hn hinv hmethod hu hwaits
    split
    case isTrue hnone =>
      rw [if_pos hnone] at hnear
      exact .line hnear hleft
    case isFalse hsome =>
      rw [if_neg hsome] at hnear
      obtain ⟨i, rfl, hnear⟩ := hnear
      exact .line hnear (by omega)

theorem Remains.other (hn : n ≤ 1048576) (h : Inv s) (hmethod : s.sched.schedulerMethod = .PRIRR) (hr : Remains threshold b k e s)
    (hready : (s.sched.envs e).envStatus = .ready) {ev : SchedEvent C} (hclock : ev ≠ .clock) (hev : LeavesPriority e s ev)
    (hs : s.step ev = some t) (hwaits : (t.sched.envs e).envStatus = .ready) : Remains threshold b k e t := by
  cases hr with
  | below hpos hle hleft =>
    obtain ⟨-, hprio, hcounter⟩ := h.other_ages hn hready hclock hev hs hwaits
    refine .below (hprio ▸ hpos) (hcounter ▸ hle) ?_
    simpa only [ticksLeft, hprio, hcounter] using hleft
  | line hline hleft => exact .line (h.step_line hn hmethod hline hev hs hwaits) hleft

/-- The settings are those of the beginning, and the environment waits with what remains. -/
structure Delays (s : SchedRun n C) (b k : Nat) (e : Fin n) (t : SchedRun n C) : Prop where
  inv : Inv t
  settings : t.sched.settings = s.sched.settings
  ready : (t.sched.envs e).envStatus = .ready
  remains : Remains s.sched.starvThreshold b k e t

theorem Delayed.delays (hn : n ≤ 1048576) (hmethod : s.sched.schedulerMethod = .PRIRR)
    (hbound : s.sched.starvThreshold + 1 < 4294967296) (h : Delays s b 0 e s) (hw : Delayed e s k t) : Delays s b k e t := by
  induction hw with
  | start => exact h
  | @preempt k t u _ hproc hs hwaits ih =>
    obtain ⟨hinv, hsettings, hready, hremains⟩ := ih
    have hmethod' : t.sched.schedulerMethod = .PRIRR := (congrArg Prod.fst hsettings).trans hmethod
    have hnext := hremains.tick hn hinv hmethod' (Sched.starvThreshold_eq hsettings) hbound hready hs hwaits
    rw [if_neg hproc] at hnext
    obtain ⟨L, hL⟩ := hinv.1
    obtain ⟨v, hv, rfl⟩ := Option.map_eq_some_iff.mp hs
    exact ⟨hinv.step hn hs, (hL.ticked hn hmethod' hv).settings.trans hsettings, hwaits, hnext⟩
  | @other k t u ev _ hclock hev hs hwaits ih =>
    obtain ⟨hinv, hsettings, hready, hremains⟩ := ih
    have hmethod' : t.sched.schedulerMethod = .PRIRR := (congrArg Prod.fst hsettings).trans hmethod
    have hsettings' : u.sched.settings = t.sched.settings ∧ Remains s.sched.starvThreshold b k e u := by
      by_cases htick : ev = .clock
      · subst htick
        have hnext := hremains.tick hn hinv hmethod' (Sched.starvThreshold_eq hsettings) hbound hready hs hwaits
        rw [if_pos (hclock rfl)] at hnext
        obtain ⟨L, hL⟩ := hinv.1
        obtain ⟨v, hv, rfl⟩ := Option.map_eq_some_iff.mp hs
        exact ⟨(hL.ticked hn hmethod' hv).settings, hnext⟩
      · exact ⟨(hinv.other_ages hn hready htick hev hs hwaits).1, hremains.other hn hinv hmethod' hready htick hev hs hwaits⟩
    exact ⟨hinv.step hn hs, hsettings'.1.trans hsettings, hwaits, hsettings'.2⟩

/-- In every run under `fos_scheduler_PRIRR`, an environment that is ready at level `p`, and whose priority nobody sets, gets the
    CPU before `p * (starvThreshold + 1) + NENV` ticks have taken it from others. -/
theorem prirr_no_starvation (sizeofEnv : Nat) {s₀ : Sched (nEnv sizeofEnv) C} (hinit : s₀.Initial)
    {s t : SchedRun (nEnv sizeofEnv) C} (hr : Reach SchedRun.step (fun _ _ => True) ⟨s₀, []⟩ s)
    (hmethod : s.sched.schedulerMethod = .PRIRR) (hbound : s.sched.starvThreshold + 1 < 4294967296) {e : Fin (nEnv sizeofEnv)}
    (hready : (s.sched.envs e).envStatus = .ready) {p : Nat} (hp : (s.sched.envs e).priority = p)
    (hcounter : (s.sched.envs e).starvcounteer ≤ s.sched.starvThreshold) {k : Nat} (hw : Delayed e s k t) :
    k < p * (s.sched.starvThreshold + 1) + nEnv sizeofEnv := by
  have hn := nEnv_le sizeofEnv
  have hinv := Inv.reach hn hinit hr
  obtain ⟨L, hL⟩ := hinv.1
  have hpos := e.pos
  have hbegin : Remains s.sched.starvThreshold (p * (s.sched.starvThreshold + 1)) 0 e s := by
    rcases Nat.eq_zero_or_pos p with rfl | hlevel
    · exact .line (hL.line hready hp) (by omega)
    · refine .below (by omega) hcounter ?_
      rw [ticksLeft, hp, Int.toNat_natCast]
      omega
  obtain ⟨-, -, -, hremains⟩ := hw.delays hn hmethod hbound ⟨hinv, rfl, hready, hbegin⟩
  cases hremains with
  | below _ _ hleft => omega
  | line _ hleft => omega

/-- An environment at level 2 waits for two ticks. -/
theorem prirr_no_starvation_two : ∃ (s₀ : Sched (nEnv 349525) Unit) (s t : SchedRun (nEnv 349525) Unit) (e : Fin (nEnv 349525)),
    s₀.Initial ∧ Reach SchedRun.step (fun _ _ => True) ⟨s₀, []⟩ s ∧ (s.sched.envs e).priority = 2 ∧ Delayed e s 2 t ∧
      2 < 2 * (s.sched.starvThreshold + 1) + nEnv 349525 := by
  obtain ⟨s₀, h₀⟩ : ∃ s₀ : Sched (nEnv 349525) Unit, Sched.schedInitPRIRR 3 1 = some s₀ := ⟨_, rfl⟩
  have hinit : s₀.Initial := .inr ⟨3, 1, h₀⟩
  let e : Fin (nEnv 349525) := ⟨0, by decide⟩
  have hexec : (((Sched.schedInitPRIRR 3 1).bind fun s₀ : Sched (nEnv 349525) Unit =>
      exec SchedRun.step ⟨s₀, []⟩ [.newEnv (some 2), .newEnv (some 0), .runAll]).bind fun s =>
      (s.step .clock).bind fun t => (t.step .clock).map fun u =>
        (s.sched.settings, (s.sched.envs e).priority, (s.sched.envs e).starvcounteer, s.sched.proc.isSome && t.sched.proc.isSome,
          [s, t, u].map fun s => (s.sched.envs e).envStatus)) = some ((.PRIRR, 3, 1), 2, 0, true, [.ready, .ready, .ready]) := by
    decide +kernel
  rw [h₀, Option.bind_some] at hexec
  obtain ⟨s, hs, hexec⟩ := Option.bind_eq_some_iff.mp hexec
  obtain ⟨t, ht, hexec⟩ := Option.bind_eq_some_iff.mp hexec
  obtain ⟨u, hu, hexec⟩ := Option.map_eq_some_iff.mp hexec
  simp only [Prod.mk.injEq, List.map_cons, List.map_nil, List.cons.injEq, and_true] at hexec
  obtain ⟨hsettings, hprio, hcounter, hproc, hready, hready₁, hready₂⟩ := hexec
  obtain ⟨hproc, hproc'⟩ := Bool.and_eq_true_iff.mp hproc
  have hr : Reach SchedRun.step (fun _ _ => True) ⟨s₀, []⟩ s := .of_exec_any hs
  have hw : Delayed e s 2 u := .preempt (.preempt .start (Option.isSome_iff_ne_none.mp hproc) ht hready₁)
    (Option.isSome_iff_ne_none.mp hproc') hu hready₂
  have hmethod : s.sched.schedulerMethod = .PRIRR := congrArg Prod.fst hsettings
  have hthreshold : s.sched.starvThreshold = 1 := congrArg (fun c : SchedMethod × Nat × Nat => c.2.2) hsettings
  exact ⟨s₀, s, u, e, hinit, hr, hprio, hw,
    prirr_no_starvation 349525 hinit hr hmethod (by omega) hready (p := 2) hprio (by omega) hw⟩

end SchedRun

end Fos.Cpu
