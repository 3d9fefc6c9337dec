import Fos.Cpu.Aging
import Fos.Cpu.Selection

/-! The line before the first ready queue of `fos_scheduler_PRIRR`. Only what the scheduler takes leaves it at its end, and what
    comes goes behind, so that nobody gets ahead of an environment that waits there. -/

namespace Fos.Cpu
open Lib

namespace Sched

variable {n : Nat} {C : Type} {s t u : Sched n C} {L : Queue C → List (Fin n)} {e x : Fin n} {k : Nat} {q : Queue C}

/-- The first ready queue holds the environment, and at most `k` others that are dequeued before it. -/
def Ahead (L : Queue C → List (Fin n)) (e : Fin n) (k : Nat) : Prop := ∃ a b, L (.ready 0) = a ++ e :: b ∧ b.length ≤ k

theorem Ahead.mem (h : Ahead L e k) : e ∈ L (.ready 0) := by
  obtain ⟨a, b, hL, -⟩ := h
  rw [hL]
  exact List.mem_append_right a List.mem_cons_self

theorem ahead_of_mem (hs : s.queues.Spells L) (he : e ∈ L (.ready 0)) : Ahead L e (n - 1) := by
  obtain ⟨a, b, hL⟩ := List.append_of_mem he
  have hlen := (hs.nodup (.ready 0)).length_le_card
  rw [hL, Fintype.card_fin, List.length_append, List.length_cons] at hlen
  exact ⟨a, b, hL, by omega⟩

theorem Ahead.of_eq {M : Queue C → List (Fin n)} (h : Ahead L e k) (hM : M (.ready 0) = L (.ready 0)) : Ahead M e k := by
  obtain ⟨a, b, hL, hb⟩ := h
  exact ⟨a, b, hM.trans hL, hb⟩

variable [DecidableEq C]

theorem Ahead.insert (h : Ahead L e k) (q : Queue C) (x : Fin n) : Ahead (Function.update L q (x :: L q)) e k := by
  by_cases hq : q = .ready 0
  · obtain ⟨a, b, hL, hb⟩ := h
    subst hq
    exact ⟨x :: a, b, by rw [Function.update_self, hL, List.cons_append], hb⟩
  · exact h.of_eq (Function.update_of_ne (Ne.symm hq) _ _)

theorem Ahead.erase (h : Ahead L e k) (hne : x ≠ e) (q : Queue C) : Ahead (Function.update L q ((L q).erase x)) e k := by
  by_cases hq : q = .ready 0
  · obtain ⟨a, b, hL, hb⟩ := h
    subst hq
    by_cases ha : x ∈ a
    · exact ⟨a.erase x, b, by rw [Function.update_self, hL, List.erase_append_left _ ha], hb⟩
    · refine ⟨a, b.erase x, ?_, (List.length_erase_le ..).trans hb⟩
      rw [Function.update_self, hL, List.erase_append_right _ ha, List.erase_cons_tail (by simpa using hne.symm)]
  · exact h.of_eq (Function.update_of_ne (Ne.symm hq) _ _)

/-! ### The line in a state -/

omit [DecidableEq C] in
/-- The queues are lists, and at most `k` environments are ahead of `e`. -/
def Line (s : Sched n C) (e : Fin n) (k : Nat) : Prop := ∃ L, s.queues.Spells L ∧ Ahead L e k

omit [DecidableEq C] in
theorem Line.ahead (h : Line s e k) (hs : s.queues.Spells L) : Ahead L e k := by
  obtain ⟨M, hM, hahead⟩ := h
  exact hahead.of_eq (hs.unique hM.toThreads (.ready 0))

omit [DecidableEq C] in
theorem Line.mono {j : Nat} (h : Line s e j) (hle : j ≤ k) : Line s e k := by
  obtain ⟨L, hs, a, b, hL, hb⟩ := h
  exact ⟨L, hs, a, b, hL, hb.trans hle⟩

omit [DecidableEq C] in
theorem Line.of_queues (h : Line s e k) (ht : t.queues = s.queues) : Line t e k := by
  obtain ⟨L, hs, hahead⟩ := h
  exact ⟨L, by rwa [ht], hahead⟩

omit [DecidableEq C] in
/-- An environment that waits in line is ready, at level 0. -/
theorem Line.waits (h : Line s e k) (hq : Queued s L none) : (s.envs e).envStatus = .ready ∧ (s.envs e).priority = 0 :=
  (hq.mem e (Option.some_ne_none e).symm (.ready 0)).mp (h.ahead hq.spells).mem

omit [DecidableEq C] in
/-- The environment at level 0 that is ready waits in line. -/
theorem Queued.line (hq : Queued s L none) (hready : (s.envs e).envStatus = .ready) (hprio : (s.envs e).priority = 0) :
    Line s e (n - 1) :=
  ⟨L, hq.spells, ahead_of_mem hq.spells ((hq.mem e (Option.some_ne_none e).symm (.ready 0)).mpr ⟨hready, hprio⟩)⟩

theorem Line.removeFromQueue (h : Line s e k) (hs : s.queues.Spells L) (hx : x ∈ L q) (hne : x ≠ e) :
    Line (s.removeFromQueue q x) e k :=
  ⟨_, hs.remove hx, (h.ahead hs).erase hne q⟩

theorem Line.enqueue (h : Line s e k) (hs : s.queues.Spells L) (hx : ∀ r, x ∉ L r) (q : Queue C) : Line (s.enqueue q x) e k :=
  ⟨_, hs.insertHead hx, (h.ahead hs).insert q x⟩

/-! ### Moving the others -/

theorem Line.insertReady (h : Line s e k) (hq : Queued s L (some x)) (ht : s.schedInsertReady x = some t) : Line t e k := by
  obtain ⟨q, -, rfl⟩ := schedInsertReady_eq ht
  exact (h.of_queues (t := s.setStatus x .ready) rfl).enqueue hq.spells (hq.not_mem x rfl) q

theorem Line.changePriority (hn : n ≤ 1048576) (h : Line s e k) (hq : Queued s L none) (hne : x ≠ e) {p : Int}
    (hp : 0 ≤ p ∧ p < s.numOfReadyQueues) (ht : s.changePriority x p = some t) : Line t e k := by
  by_cases hready : (s.envs x).envStatus = .ready
  · have hlive : (s.envs x).envStatus ≠ .exit := by
      rw [hready]
      decide
    have hx : x ∈ L (.ready (s.envs x).priority.toNat) :=
      (hq.mem x (Option.some_ne_none x).symm _).mpr ⟨hready, (Int.toNat_of_nonneg (hq.priority x hlive).1).symm⟩
    obtain ⟨u, hu, hq', -⟩ := hq.changePriority_ready hn hx hp
    cases hu.symm.trans ht
    exact ⟨_, hq'.spells, ((h.ahead hq.spells).erase hne _).insert _ x⟩
  · unfold Sched.changePriority at ht
    rw [if_neg hready] at ht
    cases ht
    exact h.of_queues rfl

/-- A tick moves an environment of a later queue at most, since those of the first are at the best level. -/
theorem Line.starve (hn : n ≤ 1048576) (h : Line s e k) (hq : Queued s L none) {i : Nat} (hx : x ∈ L (.ready i))
    (ht : s.starve x = some t) : Line t e k := by
  obtain ⟨hready, -⟩ := (hq.mem x (Option.some_ne_none x).symm (.ready i)).mp hx
  have hq' := hq.touch (e := x) (f := fun y => { y with starvcounteer := u32 (y.starvcounteer + 1) }) rfl rfl
    (fun _ => rfl) (fun _ => rfl) (hq.priority x)
  have hline : Line (s.modify x fun y => { y with starvcounteer := u32 (y.starvcounteer + 1) }) e k := h.of_queues rfl
  have henv : (s.modify x fun y => { y with starvcounteer := u32 (y.starvcounteer + 1) }).envs x =
      { s.envs x with starvcounteer := u32 ((s.envs x).starvcounteer + 1) } := envs_modify_self _
  unfold Sched.starve at ht
  generalize (s.modify x fun y => { y with starvcounteer := u32 (y.starvcounteer + 1) }) = u at ht hq' hline henv
  dsimp only at ht
  split at ht
  case isFalse =>
    cases ht
    exact hline
  case isTrue =>
    split at ht
    case isTrue =>
      cases ht
      exact hline
    case isFalse hpos =>
      obtain ⟨d, hd, hp, hp', ht⟩ := envSetPriority_eq ht
      have hlive : (u.envs x).envStatus ≠ .free := by
        rw [henv, hready]
        decide
      cases hd.symm.trans (hq'.envid2env hn hlive)
      -- The environment in line is at level 0.
      refine hline.changePriority hn hq' (fun heq => ?_) ⟨hp, hp'⟩ ht
      have hzero := (hline.waits hq').2
      rw [heq] at hpos
      omega

theorem Line.promote (hn : n ≤ 1048576) (h : Line s e k) (hq : Queued s L none) (i : Nat) :
    ∃ t L', s.promote i = some t ∧ Queued t L' none ∧ SameCpu s t ∧ Line t e k := by
  have hlen : (L (.ready i)).length < walkFuel := Nat.lt_of_le_of_lt (hq.length_le hn _) (by decide)
  unfold Sched.promote
  split
  case isTrue => exact ⟨s, L, rfl, hq, .refl s, h⟩
  case isFalse =>
    rw [hq.spells.first (.ready i)]
    obtain ⟨t, ht, L', hq', hcpu, hline, -⟩ := forEach_rule Sched.next Sched.starve
      (fun u l => ∃ L', Queued u L' none ∧ SameCpu s u ∧ Line u e k ∧ ∃ a, L' (.ready i) = a ++ l)
      (fun u c l hP => by
        obtain ⟨L', hq, -, -, a, ha⟩ := hP
        exact (ha ▸ hq.spells.spelled (.ready i)).next_of_split)
      (fun u c l hP => by
        obtain ⟨L', hq, hcpu, hline, a, ha⟩ := hP
        obtain ⟨t, L'', a', ht, hq', hcpu', ha'⟩ := hq.starve hn ha
        have hc : c ∈ L' (.ready i) := by
          rw [ha]
          exact List.mem_append_right a List.mem_cons_self
        exact ⟨t, ht, L'', hq', hcpu.trans hcpu', hline.starve hn hq hc ht, a', ha'⟩)
      ⟨L, hq, .refl s, h, [], rfl⟩ hlen
    exact ⟨t, L', ht, hq', hcpu, hline⟩

theorem Line.promoteAll (hn : n ≤ 1048576) (h : Line s e k) (hq : Queued s L none) :
    ∃ t L', forReady Sched.promote s 0 s.numOfReadyQueues = some t ∧ Queued t L' none ∧ SameCpu s t ∧ Line t e k := by
  obtain ⟨t, ht, L', hq', hcpu, hline⟩ := forReady_rule (P := fun u => ∃ L', Queued u L' none ∧ SameCpu s u ∧ Line u e k)
    (fun u i hP => by
      obtain ⟨L', hq', hcpu, hline⟩ := hP
      obtain ⟨t, L'', ht, hq'', hcpu', hline'⟩ := hline.promote hn hq' i
      exact ⟨t, ht, L'', hq'', hcpu.trans hcpu', hline'⟩)
    ⟨L, hq, .refl s, h⟩ 0 s.numOfReadyQueues
  exact ⟨t, L', ht, hq', hcpu, hline⟩

/-! ### The scheduler -/

theorem Ahead.requeued (h : Ahead L e k) (s : Sched n C) : Ahead (s.requeued L) e k := by
  unfold Sched.requeued
  split
  · exact h.insert _ _
  · exact h

/-- The last of the line is chosen. An environment that still waits afterwards is one nearer. -/
theorem Line.dispatch (hn : n ≤ 1048576) {hand : Option (Fin n)} (h : Line s e k) (hchoosing : Choosing s L hand)
    (hmethod : s.schedulerMethod = .PRIRR) (ht : s.dispatch = some t) (hwaits : (t.envs e).envStatus = .ready) :
    ∃ j, k = j + 1 ∧ Line t e j := by
  have hahead := h.ahead hchoosing.spells
  have hhand : hand ≠ some e := fun heq => hchoosing.not_mem e heq _ hahead.mem
  obtain ⟨hready, hzero⟩ := (hchoosing.mem e hhand (.ready 0)).mp hahead.mem
  have hlive : (s.envs e).envStatus ≠ .exit := by
    rw [hready]
    decide
  have hqueues := (hchoosing.priority e hlive).2
  obtain ⟨u, hu, hspells, hrest⟩ := hchoosing.configured.requeueLast
  have hnum : u.numOfReadyQueues = s.numOfReadyQueues := by rw [hrest]
  obtain ⟨a, b, hL, hb⟩ := hahead.requeued s
  unfold Sched.dispatch Sched.schedNext at ht
  rw [hmethod] at ht
  dsimp only at ht
  unfold Sched.fosSchedulerPRIRR at ht
  rw [hu, Option.map_some, Option.map_some] at ht
  rcases dequeueFirst_cases hn hspells 0 u.numOfReadyQueues with ⟨-, hempty⟩ | ⟨i, c, -, hlow, hlast, hd⟩
  · have hnil := hempty 0 le_rfl (by omega)
    rw [hL] at hnil
    exact absurd hnil (List.append_ne_nil_of_right_ne_nil a (List.cons_ne_nil e b))
  · obtain rfl : i = 0 := by
      rcases Nat.eq_zero_or_pos i with hi | hi
      · exact hi
      · have hnil := hlow 0 le_rfl hi
        rw [hL] at hnil
        exact absurd hnil (List.append_ne_nil_of_right_ne_nil a (List.cons_ne_nil e b))
    rw [hd] at ht
    cases ht
    rcases List.eq_nil_or_concat b with rfl | ⟨b', x, rfl⟩
    · rw [hL, List.getLast?_concat] at hlast
      cases hlast
      simp [setStatus] at hwaits
    · rw [List.concat_eq_append] at hL hb
      have hsplit : s.requeued L (.ready 0) = (a ++ e :: b') ++ x :: [] := by rw [hL, List.append_assoc, List.cons_append]
      rw [hsplit, List.getLast?_concat] at hlast
      cases hlast
      have hremoved := hspells.remove_split hsplit
      rw [List.append_nil] at hremoved
      rw [List.length_append, List.length_singleton] at hb
      exact ⟨k - 1, by omega, _, hremoved, a, b', Function.update_self .., by omega⟩

end Sched

end Fos.Cpu
