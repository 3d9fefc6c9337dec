import Fos.Cpu.SchedFrame

/-! The promotion of the environments that wait in the ready queues. The clock handler visits every ready environment once:
    an environment that it promotes goes to a queue that it has left behind. -/

namespace Fos.Cpu
open Lib

/-- What one tick does to a ready environment. -/
def aged {C : Type} (threshold : Nat) (x : Env C) : Env C :=
  if threshold < u32 (x.starvcounteer + 1) ∧ 0 < x.priority then { x with priority := x.priority - 1, starvcounteer := 0 }
  else { x with starvcounteer := u32 (x.starvcounteer + 1) }

theorem aged_priority_le {C : Type} (threshold : Nat) (x : Env C) : (aged threshold x).priority ≤ x.priority := by
  unfold aged
  split
  · exact Int.sub_le_self _ (by decide)
  · exact Int.le_refl _

namespace Sched

variable {n : Nat} {C : Type} {s t u : Sched n C} {L : Queue C → List (Fin n)} {e : Fin n} {V W : Fin n → Prop}

/-- From `s` to `t` exactly the environments of `V` have aged, by one tick. -/
structure Visited (s t : Sched n C) (V : Fin n → Prop) : Prop where
  settings : t.settings = s.settings
  visited : ∀ x, V x → t.envs x = aged s.starvThreshold (s.envs x)
  others : ∀ x, ¬ V x → t.envs x = s.envs x

theorem Visited.nobody (s : Sched n C) (hV : ∀ x, ¬ V x) : Visited s s V := ⟨rfl, fun x hx => absurd hx (hV x), fun _ _ => rfl⟩

theorem starvThreshold_eq (h : t.settings = s.settings) : t.starvThreshold = s.starvThreshold :=
  congrArg (fun c : SchedMethod × Nat × Nat => c.2.2) h

theorem Visited.trans {V' : Fin n → Prop} (h : Visited s t V) (h' : Visited t u W) (hdisjoint : ∀ x, V x → ¬ W x)
    (hV' : ∀ x, V' x ↔ V x ∨ W x) : Visited s u V' where
  settings := h'.settings.trans h.settings
  visited := fun x hx => by
    rcases (hV' x).mp hx with hV | hW
    · rw [h'.others x (hdisjoint x hV), h.visited x hV]
    · rw [h'.visited x hW, h.others x fun hV => hdisjoint x hV hW, starvThreshold_eq h.settings]
  others := fun x hx => by
    have hnone := not_or.mp fun hor => hx ((hV' x).mpr hor)
    rw [h'.others x hnone.2, h.others x hnone.1]

variable [DecidableEq C]

/-! ### One environment -/

/-- A visit of the loop changes only the environment that it visits. -/
theorem Queued.starve_visits (hn : n ≤ 1048576) (h : Queued s L none) {i : Nat} (he : e ∈ L (.ready i))
    (hs : s.starve e = some t) : Visited s t (· = e) := by
  obtain ⟨hready, hprio⟩ := (h.mem e nofun (.ready i)).mp he
  have hq := h.touch (e := e) (f := fun x => { x with starvcounteer := u32 (x.starvcounteer + 1) }) rfl rfl
    (fun _ => rfl) (fun _ => rfl) (h.priority e)
  have hwrites := Writes.modify s e fun x => { x with starvcounteer := u32 (x.starvcounteer + 1) }
  have henv : (s.modify e fun x => { x with starvcounteer := u32 (x.starvcounteer + 1) }).envs e =
      { s.envs e with starvcounteer := u32 ((s.envs e).starvcounteer + 1) } := envs_modify_self _
  unfold Sched.starve at hs
  generalize (s.modify e fun x => { x with starvcounteer := u32 (x.starvcounteer + 1) }) = u at hs hq hwrites henv
  have hthreshold := starvThreshold_eq hwrites.settings
  dsimp only at hs
  rw [henv, hthreshold] at hs
  have hstays : ∀ (hnot : ¬(s.starvThreshold < u32 ((s.envs e).starvcounteer + 1) ∧ 0 < (s.envs e).priority)),
      Visited s u (· = e) := by
    intro hnot
    refine ⟨hwrites.settings, ?_, hwrites.envs⟩
    rintro x rfl
    rw [henv, aged, if_neg hnot]
  split at hs
  case isFalse hle =>
    cases hs
    exact hstays fun hand => hle hand.1
  case isTrue hlt =>
    split at hs
    case isTrue hneg =>
      cases hs
      refine hstays fun hand => ?_
      dsimp only at hneg
      omega
    case isFalse hpos =>
      dsimp only at hs hpos
      obtain ⟨d, hd, -, -, hs⟩ := envSetPriority_eq hs
      have hready' : (u.envs e).envStatus = .ready := by rw [henv, ← hready]
      have hid := hq.envid2env hn (e := e) (by rw [hready']; nofun)
      rw [henv] at hid
      cases hd.symm.trans hid
      refine ⟨(Writes.changePriority hs).settings.trans hwrites.settings, ?_, fun x hx =>
        ((Writes.changePriority hs).envs x hx).trans (hwrites.envs x hx)⟩
      rintro x rfl
      unfold Sched.changePriority at hs
      rw [if_pos hready', (hq.schedRemoveReady hn he).1, Option.bind_some] at hs
      obtain ⟨q, -, rfl⟩ := schedInsertReady_eq hs
      have hrange : 0 < (s.envs x).priority := by omega
      rw [aged, if_pos ⟨hlt, hrange⟩]
      simp [Sched.enqueue, Sched.setStatus, Sched.removeFromQueue, Sched.modify, henv, hready]

/-! ### The loops -/

/-- The environments of one ready queue. -/
theorem Queued.promote_visits (hn : n ≤ 1048576) (h : Queued s L none) (i : Nat) :
    ∃ t L', s.promote i = some t ∧ Queued t L' none ∧ SameCpu s t ∧ Visited s t (· ∈ L (.ready i)) := by
  have hlen : (L (.ready i)).length < walkFuel := Nat.lt_of_le_of_lt (h.length_le hn _) (by decide)
  unfold Sched.promote
  split
  case isTrue hsize =>
    refine ⟨s, L, rfl, h, .refl s, .nobody s fun x hx => ?_⟩
    rw [(size_eq_zero_iff hn h.spells (.ready i)).mp hsize] at hx
    exact nomatch hx
  case isFalse =>
    rw [h.spells.first (.ready i)]
    -- The environments still to be visited are the last ones of the queue, as it was and as it is.
    obtain ⟨t, ht, L', hq, hcpu, -, -, hvisited⟩ := forEach_rule Sched.next Sched.starve
      (fun u l => ∃ L', Queued u L' none ∧ SameCpu s u ∧ (∃ a, L' (.ready i) = a ++ l) ∧ (∃ b, L (.ready i) = b ++ l) ∧
        Visited s u fun x => x ∈ L (.ready i) ∧ x ∉ l)
      (fun u c l ⟨L', hq, _, ⟨a, ha⟩, _⟩ => (ha ▸ hq.spells.spelled (.ready i)).next_of_split)
      (fun u c l ⟨L', hq, hcpu, ⟨a, ha⟩, ⟨b, hb⟩, hvisited⟩ => by
        obtain ⟨t, L'', a', ht, hq', hcpu', ha'⟩ := hq.starve hn ha
        have hstep := hq.starve_visits hn (i := i) (by simp [ha]) ht
        have hnodup := hb ▸ h.spells.nodup (.ready i)
        have hc : c ∈ L (.ready i) := by simp [hb]
        have hcl : c ∉ l := (List.nodup_cons.mp (List.nodup_append.mp hnodup).2.1).1
        refine ⟨t, ht, L'', hq', hcpu.trans hcpu', ⟨a', ha'⟩, ⟨b ++ [c], by simp [hb]⟩, hvisited.trans hstep ?_ fun x => ?_⟩
        · rintro x ⟨-, hx⟩ rfl
          exact hx (List.mem_cons_self ..)
        · rcases eq_or_ne x c with rfl | hne
          · simp [hc, hcl]
          · simp [hne])
      ⟨L, h, .refl s, ⟨[], rfl⟩, ⟨[], rfl⟩, .nobody s fun x hx => hx.2 hx.1⟩ hlen
    refine ⟨t, L', ht, hq, hcpu, ?_⟩
    simpa using hvisited

/-- All ready environments. -/
theorem Queued.promoteAll (hn : n ≤ 1048576) (h : Queued s L none) :
    ∃ t L', forReady Sched.promote s 0 s.numOfReadyQueues = some t ∧ Queued t L' none ∧ SameCpu s t ∧
      Visited s t fun x => (s.envs x).envStatus = .ready := by
  have hrange : ∀ x, (s.envs x).envStatus = .ready → 0 ≤ (s.envs x).priority ∧ (s.envs x).priority < s.numOfReadyQueues :=
    fun x hx => h.priority x (by rw [hx]; nofun)
  have hnobody : ∀ x, ¬((s.envs x).envStatus = .ready ∧ (s.envs x).priority < (0 : Nat)) := by
    rintro x ⟨hx, hlt⟩
    exact absurd (hrange x hx).1 (by omega)
  have hbody : ∀ (u : Sched n C) (i : Nat), (∃ L', Queued u L' none ∧ SameCpu s u ∧
      Visited s u fun x => (s.envs x).envStatus = .ready ∧ (s.envs x).priority < i) →
      ∃ t, u.promote i = some t ∧ ∃ L', Queued t L' none ∧ SameCpu s t ∧
        Visited s t fun x => (s.envs x).envStatus = .ready ∧ (s.envs x).priority < i + 1 := by
    rintro u i ⟨L', hq, hcpu, hvisited⟩
    obtain ⟨t, L'', ht, hq', hcpu', hstep⟩ := hq.promote_visits hn i
    -- An environment that was promoted is in a queue before the one that it was in.
    have hpast : ∀ x, (s.envs x).envStatus = .ready ∧ (s.envs x).priority < i → x ∉ L' (.ready i) := by
      intro x hx hmem
      have hprio := ((hq.mem x nofun (.ready i)).mp hmem).2
      rw [hvisited.visited x hx] at hprio
      have hle := aged_priority_le s.starvThreshold (s.envs x)
      omega
    refine ⟨t, ht, L'', hq', hcpu.trans hcpu', hvisited.trans hstep hpast fun x => ?_⟩
    rcases em ((s.envs x).envStatus = .ready ∧ (s.envs x).priority < i) with hx | hx
    · exact ⟨fun _ => .inl hx, fun _ => ⟨hx.1, hx.2.trans (by omega)⟩⟩
    · have hmem := hq.mem x nofun (.ready i)
      simp only [Names, hvisited.others x hx] at hmem
      rw [hmem]
      constructor
      · rintro ⟨hready, hlt⟩
        have hge : ¬ (s.envs x).priority < i := fun hlt => hx ⟨hready, hlt⟩
        exact .inr ⟨hready, by omega⟩
      · rintro (hold | ⟨hready, heq⟩)
        · exact absurd hold hx
        · exact ⟨hready, by omega⟩
  obtain ⟨t, ht, L', hq, hcpu, hvisited⟩ :=
    forReady_index
      (P := fun i u => ∃ L', Queued u L' none ∧ SameCpu s u ∧ Visited s u fun x => (s.envs x).envStatus = .ready ∧ (s.envs x).priority < i)
      hbody (i := 0) ⟨L, h, .refl s, .nobody s hnobody⟩ s.numOfReadyQueues
  refine ⟨t, L', ht, hq, hcpu, hvisited.settings, fun x hx => hvisited.visited x ⟨hx, ?_⟩, fun x hx => ?_⟩
  · have hlt := (hrange x hx).2
    omega
  · exact hvisited.others x fun hand => hx hand.1

/-- One tick. Every ready environment ages by one tick, but the counter of the one that is chosen then starts again; the
    others keep their priorities. -/
structure Ticked (s t : Sched n C) : Prop where
  settings : t.settings = s.settings
  priority : ∀ x, (s.envs x).envStatus = .ready → (t.envs x).priority = (aged s.starvThreshold (s.envs x)).priority
  counter : ∀ x, (s.envs x).envStatus = .ready → (t.envs x).envStatus ≠ .running →
    (t.envs x).starvcounteer = (aged s.starvThreshold (s.envs x)).starvcounteer
  others : ∀ x, (s.envs x).envStatus ≠ .ready → (t.envs x).priority = (s.envs x).priority

theorem Queued.ticked (hn : n ≤ 1048576) (h : Queued s L none) (hmethod : s.schedulerMethod = .PRIRR)
    (hs : s.clockInterruptHandler = some t) : Ticked s t := by
  obtain ⟨u, L', hu, -, -, hvisited⟩ := h.promoteAll hn
  unfold Sched.clockInterruptHandler at hs
  rw [if_pos hmethod, hu, Option.bind_some] at hs
  have hages : AgesKept u t := by
    split at hs
    · cases hs
      exact (SameAges.refl _).agesKept
    · exact .yield hs
  refine ⟨hages.settings.trans hvisited.settings, fun x hx => ?_, fun x hx hrun => ?_, fun x hx => ?_⟩
  · rw [hages.priority x, hvisited.visited x hx]
  · rw [hages.counter x hrun, hvisited.visited x hx]
  · rw [hages.priority x, hvisited.others x hx]

end Sched

namespace SchedRun

variable {n : Nat} {C : Type} [DecidableEq C] {s t u : SchedRun n C} {e : Fin n}

/-- The event does not set the priority of the environment. -/
def LeavesPriority (e : Fin n) (s : SchedRun n C) (ev : SchedEvent C) : Prop :=
  ∀ id p, ev = .setPriority id p → s.sched.envid2env id ≠ some (some e)

/-- From `s` to `t` the environment stays ready, nobody sets its priority, and the clock ticks `m` times. -/
inductive Waits (e : Fin n) (s : SchedRun n C) : Nat → SchedRun n C → Prop
  | start : Waits e s 0 s
  | tick {m : Nat} {t u : SchedRun n C} : Waits e s m t → t.step .clock = some u → (u.sched.envs e).envStatus = .ready →
      Waits e s (m + 1) u
  | other {m : Nat} {t u : SchedRun n C} (ev : SchedEvent C) : Waits e s m t → ev ≠ .clock → LeavesPriority e t ev →
      t.step ev = some u → (u.sched.envs e).envStatus = .ready → Waits e s m u

/-- An environment that was at level `p` with the counter 0, after `m` ticks: it was promoted `k` times. -/
def AgedBy (threshold p m : Nat) (x : Env C) : Prop :=
  ∃ k, k ≤ p ∧ k * (threshold + 1) ≤ m ∧ x.priority = p - k ∧ x.starvcounteer = m - k * (threshold + 1) ∧
    (k < p → x.starvcounteer ≤ threshold)

omit [DecidableEq C] in
theorem AgedBy.tick {threshold p m : Nat} {x y : Env C} (h : AgedBy threshold p m x) (hm : m + 1 < 4294967296)
    (hp : y.priority = (aged threshold x).priority) (hc : y.starvcounteer = (aged threshold x).starvcounteer) :
    AgedBy threshold p (m + 1) y := by
  obtain ⟨k, hk, hle, hprio, hcounter, hbelow⟩ := h
  have hnext : u32 (x.starvcounteer + 1) = x.starvcounteer + 1 := Nat.mod_eq_of_lt (by omega)
  unfold aged at hp hc
  rw [hnext] at hp hc
  split at hp
  case isTrue hpromoted =>
    have hlt : k < p := by omega
    have hfull : x.starvcounteer = threshold := by
      have := hbelow hlt
      omega
    have hsucc : (k + 1) * (threshold + 1) = k * (threshold + 1) + (threshold + 1) := Nat.succ_mul ..
    rw [if_pos hpromoted] at hc
    dsimp only at hp hc
    refine ⟨k + 1, hlt, by omega, ?_, ?_, fun _ => ?_⟩
    · rw [hp]
      push_cast
      omega
    · rw [hc]
      omega
    · rw [hc]
      exact Nat.zero_le _
  case isFalse hstays =>
    rw [if_neg hstays] at hc
    dsimp only at hp hc
    refine ⟨k, hk, by omega, hp.trans hprio, ?_, fun hlt => ?_⟩
    · rw [hc]
      omega
    · rw [hc]
      omega

omit [DecidableEq C] in
theorem AgedBy.level {threshold p m : Nat} {x : Env C} (h : AgedBy threshold p m x) :
    x.priority = (p - m / (threshold + 1) : Nat) := by
  obtain ⟨k, hk, hle, hprio, hcounter, hbelow⟩ := h
  have hpos : 0 < threshold + 1 := Nat.succ_pos threshold
  have hkm : k ≤ m / (threshold + 1) := (Nat.le_div_iff_mul_le hpos).mpr hle
  rcases Nat.lt_or_eq_of_le hk with hlt | rfl
  · have hsucc : (k + 1) * (threshold + 1) = k * (threshold + 1) + (threshold + 1) := Nat.succ_mul ..
    have hcount := hbelow hlt
    have hmk : m / (threshold + 1) < k + 1 := (Nat.div_lt_iff_lt_mul hpos).mpr (by omega)
    omega
  · omega

/-- An event other than a tick leaves the priority and the counter of an environment that stays ready. -/
theorem Inv.other_ages (hn : n ≤ 1048576) (h : Inv s) (hready : (s.sched.envs e).envStatus = .ready) {ev : SchedEvent C}
    (hclock : ev ≠ .clock) (hev : LeavesPriority e s ev) (hs : s.step ev = some t)
    (hready' : (t.sched.envs e).envStatus = .ready) : t.sched.settings = s.sched.settings ∧
      (t.sched.envs e).priority = (s.sched.envs e).priority ∧ (t.sched.envs e).starvcounteer = (s.sched.envs e).starvcounteer := by
  have hkept : LeavesAges ev → t.sched.settings = s.sched.settings ∧
      (t.sched.envs e).priority = (s.sched.envs e).priority ∧ (t.sched.envs e).starvcounteer = (s.sched.envs e).starvcounteer := by
    intro hleaves
    have hages := ages_kept hleaves hs
    exact ⟨hages.settings, hages.priority e, hages.counter e (by rw [hready']; nofun)⟩
  cases ev with
  | newEnv priority =>
    obtain ⟨d, hfree, hwrites⟩ := h.newEnv_writes hn hs
    have hne : e ≠ d := fun hed => nomatch (hed ▸ hready).symm.trans hfree
    rw [hwrites.envs e hne]
    exact ⟨hwrites.settings, rfl, rfl⟩
  | clock => exact absurd rfl hclock
  | setPriority id p =>
    obtain ⟨u, hu, rfl⟩ := Option.map_eq_some_iff.mp hs
    obtain ⟨d, hd, -, -, hu⟩ := Sched.envSetPriority_eq hu
    have hwrites := Sched.Writes.changePriority hu
    have hne : e ≠ d := fun hed => hev id p rfl (hed ▸ hd)
    show u.settings = _ ∧ (u.envs e).priority = _ ∧ (u.envs e).starvcounteer = _
    rw [hwrites.envs e hne]
    exact ⟨hwrites.settings, rfl, rfl⟩
  | _ => exact hkept trivial

theorem Waits.aged (hn : n ≤ 1048576) (h : Inv s) (hmethod : s.sched.schedulerMethod = .PRIRR)
    (hready : (s.sched.envs e).envStatus = .ready) (hzero : (s.sched.envs e).starvcounteer = 0) {p m : Nat}
    (hp : (s.sched.envs e).priority = p) (hw : Waits e s m t) (hm : m < 4294967296) :
    Inv t ∧ t.sched.settings = s.sched.settings ∧ (t.sched.envs e).envStatus = .ready ∧
      AgedBy s.sched.starvThreshold p m (t.sched.envs e) := by
  induction hw with
  | start => exact ⟨h, rfl, hready, 0, Nat.zero_le _, by omega, by rw [hp]; rfl, by omega, fun _ => by omega⟩
  | @tick m t u hw hstep hready' ih =>
    obtain ⟨hinv, hsettings, hwas, haged⟩ := ih (by omega)
    have hmethod' : t.sched.schedulerMethod = .PRIRR := (congrArg Prod.fst hsettings).trans hmethod
    obtain ⟨L, hL⟩ := hinv.1
    obtain ⟨v, hv, heq⟩ := Option.map_eq_some_iff.mp hstep
    have hticked := hL.ticked hn hmethod' hv
    have hthreshold := Sched.starvThreshold_eq hsettings
    cases heq
    refine ⟨hinv.step hn hstep, hticked.settings.trans hsettings, hready', haged.tick hm ?_ ?_⟩
    · rw [← hthreshold]
      exact hticked.priority e hwas
    · rw [← hthreshold]
      exact hticked.counter e hwas (by rw [show (v.envs e).envStatus = .ready from hready']; nofun)
  | @other m t u ev hw hclock hev hstep hready' ih =>
    obtain ⟨hinv, hsettings, hwas, haged⟩ := ih hm
    obtain ⟨hset, hprio, hcounter⟩ := hinv.other_ages hn hwas hclock hev hstep hready'
    refine ⟨hinv.step hn hstep, hset.trans hsettings, hready', ?_⟩
    unfold AgedBy at haged ⊢
    rw [hprio, hcounter]
    exact haged

/-- An environment waits at the level, in the ready queue of the level and in no other place, and the next tick ages every
    ready environment once and leaves each environment in one place. -/
structure Waiting (s : SchedRun n C) (e : Fin n) (level : Nat) : Prop where
  priority : (s.sched.envs e).priority = level
  queue : ∃ L, s.sched.queues.Spells L ∧ ∀ q, s.occurrences L e q = if q = .queue (.ready level) then 1 else 0
  placement : s.Placement
  tick : ∃ t, s.step .clock = some t ∧ s.sched.Ticked t.sched ∧ t.Placement ∧ t.created = s.created

theorem Inv.waiting (hn : n ≤ 1048576) (h : Inv s) (hmethod : s.sched.schedulerMethod = .PRIRR) {level : Nat}
    (hready : (s.sched.envs e).envStatus = .ready) (hlevel : (s.sched.envs e).priority = level) : Waiting s e level := by
  obtain ⟨L, hL⟩ := h.1
  obtain ⟨t, L', ht, -, -⟩ := hL.clockInterruptHandler hn
  have hstep : s.step .clock = some ⟨t, s.created⟩ := congrArg (Option.map fun u => (⟨u, s.created⟩ : SchedRun n C)) ht
  have hnames : s.sched.Names e (.queue (.ready level)) := ⟨hready, hlevel⟩
  obtain ⟨L₀, hspells, hplaces⟩ := h.placement
  obtain ⟨p, -, hp, hcount⟩ := hplaces e ((h.2 e).mpr (by rw [hready]; nofun))
  cases hp.unique hnames
  exact ⟨hlevel, ⟨L₀, hspells, hcount⟩, h.placement, _, hstep, hL.ticked hn hmethod ht, (h.step hn hstep).placement, rfl⟩

/-- An environment that comes to a ready level with the counter 0 and waits is promoted after every `starvThreshold + 1` ticks,
    and meanwhile every tick ages every ready environment once. -/
theorem priority_aging (sizeofEnv : Nat) {s t : SchedRun (nEnv sizeofEnv) C} {e : Fin (nEnv sizeofEnv)} (h : Inv s)
    (hmethod : s.sched.schedulerMethod = .PRIRR) (hready : (s.sched.envs e).envStatus = .ready)
    (hzero : (s.sched.envs e).starvcounteer = 0) {p m : Nat} (hp : (s.sched.envs e).priority = p) (hw : Waits e s m t)
    (hm : m < 4294967296) : Waiting t e (p - m / (s.sched.starvThreshold + 1)) := by
  obtain ⟨hinv, hsettings, hready', haged⟩ := hw.aged (nEnv_le _) h hmethod hready hzero hp hm
  exact hinv.waiting (nEnv_le _) ((congrArg Prod.fst hsettings).trans hmethod) hready' haged.level

/-- With the threshold 1 an environment at level 2 is at level 1 after two ticks. -/
theorem priority_aging_two : ∃ (s t : SchedRun (nEnv 349525) Unit) (e : Fin (nEnv 349525)), Inv s ∧
    s.sched.settings = (.PRIRR, 3, 1) ∧ (s.sched.envs e).priority = 2 ∧ Waits e s 2 t ∧ Waiting t e 1 := by
  obtain ⟨s₀, h₀⟩ : ∃ s₀ : Sched (nEnv 349525) Unit, Sched.schedInitPRIRR 3 1 = some s₀ := ⟨_, rfl⟩
  have hinit : s₀.Initial := .inr ⟨3, 1, h₀⟩
  let e : Fin (nEnv 349525) := ⟨0, by decide⟩
  have hexec : (((Sched.schedInitPRIRR 3 1).bind fun s₀ : Sched (nEnv 349525) Unit =>
      exec SchedRun.step ⟨s₀, []⟩ [.newEnv (some 2), .newEnv (some 0), .runAll]).bind fun s =>
      (s.step .clock).bind fun t => (t.step .clock).map fun u =>
        (s.sched.settings, (s.sched.envs e).envStatus, (s.sched.envs e).priority, (s.sched.envs e).starvcounteer,
          (t.sched.envs e).envStatus, (u.sched.envs e).envStatus)) = some ((.PRIRR, 3, 1), .ready, 2, 0, .ready, .ready) := by
    decide +kernel
  rw [h₀, Option.bind_some] at hexec
  obtain ⟨s, hs, hexec⟩ := Option.bind_eq_some_iff.mp hexec
  obtain ⟨t, ht, hexec⟩ := Option.bind_eq_some_iff.mp hexec
  obtain ⟨u, hu, hexec⟩ := Option.map_eq_some_iff.mp hexec
  simp only [Prod.mk.injEq] at hexec
  obtain ⟨hsettings, hready, hprio, hcounter, hready₁, hready₂⟩ := hexec
  have hinv : Inv s := Inv.reach (by decide) hinit (Reach.init.of_exec hs fun _ _ _ _ _ _ => trivial)
  have hw : Waits e s 2 u := .tick (.tick .start ht hready₁) hu hready₂
  have hmethod : s.sched.schedulerMethod = .PRIRR := congrArg Prod.fst hsettings
  have hthreshold : s.sched.starvThreshold = 1 := congrArg (fun c : SchedMethod × Nat × Nat => c.2.2) hsettings
  have hlevel := priority_aging 349525 hinv hmethod hready hcounter (p := 2) hprio hw (by decide)
  rw [hthreshold] at hlevel
  exact ⟨s, u, e, hinv, hsettings, hprio, hw, hlevel⟩

end SchedRun

end Fos.Cpu
