import Fos.Cpu.SchedFrame
import Mathlib.Data.List.Rotate

/-! The turns of the round-robin scheduler: the order of the runnable environments is rotated by every selection. -/

namespace Fos.Cpu
open Lib

namespace Sched

variable {n : Nat} {C : Type} [DecidableEq C] {s t u : Sched n C} {L : Queue C → List (Fin n)} {e : Fin n}
  {es : List (Fin n)} {hand : Option (Fin n)}

/-- The environments of the ready queue in the order of their arrival. -/
def arrivals (s : Sched n C) : List (Fin n) :=
  ((walkFold s.next (fun es e => e :: es) walkFuel [] (s.queues.head (.ready 0)).first)).getD []

/-- The runnable environments in the order of their turns: the one on the CPU comes behind those that wait. -/
def turns (s : Sched n C) : List (Fin n) := s.arrivals ++ s.proc.toList

omit [DecidableEq C] in
/-- `enqueue` inserts at the head of the queue. -/
theorem arrivals_eq (hn : n ≤ 1048576) (h : s.queues.Spells L) : s.arrivals = (L (.ready 0)).reverse := by
  have hlen := length_le_of_spells hn h (.ready 0)
  have hwalk := walkFold_spelled (a := []) (fun es e => e :: es) [] (h.spelled (.ready 0))
    (Nat.lt_of_le_of_lt hlen (show 1048576 < walkFuel by decide))
  unfold arrivals
  rw [h.first (.ready 0)]
  rw [show s.next = fun x => (s.queues.link x).next from rfl, hwalk, Option.getD_some]
  simp

omit [DecidableEq C] in
/-- Every environment that is ready or runs has one turn. -/
theorem Inv.turns (hn : n ≤ 1048576) (h : Inv s L) (hrr : s.schedulerMethod = .RR) :
    s.turns.Nodup ∧ ∀ e, e ∈ s.turns ↔ (s.envs e).envStatus = .ready ∨ (s.envs e).envStatus = .running := by
  have hone := h.round_robin hrr
  have hready : ∀ e, e ∈ s.arrivals ↔ (s.envs e).envStatus = .ready := fun e => by
    rw [arrivals_eq hn h.spells, List.mem_reverse, h.mem e nofun (.ready 0)]
    refine ⟨fun hnames => hnames.1, fun hr => ⟨hr, ?_⟩⟩
    have hp := h.priority e (by rw [hr]; nofun)
    omega
  have hruns : ∀ e, e ∈ s.proc.toList ↔ (s.envs e).envStatus = .running := fun e => by
    rw [Option.mem_toList, h.running e]
  constructor
  · refine List.nodup_append'.mpr ⟨?_, ?_, fun e hwait hcpu => ?_⟩
    · rw [arrivals_eq hn h.spells]
      exact List.nodup_reverse.mpr (h.spells.nodup _)
    · cases s.proc <;> simp
    · exact nomatch ((hready e).mp hwait).symm.trans ((hruns e).mp hcpu)
  · exact fun e => List.mem_append.trans (or_congr (hready e) (hruns e))

/-- The environment in hand goes behind the others of the ready queue, and the first is taken. -/
theorem Choosing.takes_first (h : Choosing s L hand) (hes : (L (.ready 0)).reverse ++ hand.toList = e :: es) :
    ∃ (v : Sched n C) (M : Queue C → List (Fin n)), s.fosSchedulerRR = (v, some e) ∧ v.queues.Spells M ∧
      (M (.ready 0)).reverse = es := by
  obtain ⟨w, M, hw, hspells, hM⟩ : ∃ (w : Sched n C) (M : Queue C → List (Fin n)),
      s.fosSchedulerRR = w.dequeue (.ready 0) ∧ w.queues.Spells M ∧ M (.ready 0) = hand.toList ++ L (.ready 0) := by
    unfold Sched.fosSchedulerRR
    rw [h.proc]
    cases hand with
    | none => exact ⟨s, L, rfl, h.spells, rfl⟩
    | some cur => exact ⟨_, _, rfl, h.spells.insertHead (h.not_mem cur rfl), Function.update_self ..⟩
  have hlist : M (.ready 0) = es.reverse ++ [e] := by
    rw [hM, ← List.reverse_inj, List.reverse_append, List.reverse_append, List.reverse_reverse]
    cases hand <;> simpa using hes
  refine ⟨w.removeFromQueue (.ready 0) e, _, ?_, hspells.remove_split (b := []) hlist, ?_⟩
  · rw [hw]
    unfold Sched.dequeue
    rw [hspells.last, hlist, List.getLast?_concat]
  · rw [Function.update_self, List.append_nil, List.reverse_reverse]

/-- Nothing is ready. -/
theorem Choosing.dispatch_none (h : Choosing s L none) (hrr : s.schedulerMethod = .RR) (hnil : L (.ready 0) = [])
    (ht : s.dispatch = some t) : t.proc = none := by
  have hnext : s.schedNext = some (s, none) := by
    unfold Sched.schedNext Sched.fosSchedulerRR Sched.dequeue
    rw [hrr]
    simp only [h.proc, h.spells.last, hnil, List.getLast?_nil]
  unfold Sched.dispatch at ht
  rw [hnext, Option.map_some] at ht
  cases ht
  dsimp only
  split
  · exact h.proc
  · rfl

theorem Choosing.dispatch_turns (hn : n ≤ 1048576) (h : Choosing s L hand) (hrr : s.schedulerMethod = .RR)
    (hes : (L (.ready 0)).reverse ++ hand.toList = e :: es) :
    ∃ t, s.dispatch = some t ∧ t.proc = some e ∧ t.turns = es ++ [e] := by
  obtain ⟨v, M, hv, hspells, hM⟩ := h.takes_first hes
  refine ⟨{ v with proc := some e }.setStatus e .running, ?_, rfl, ?_⟩
  · unfold Sched.dispatch Sched.schedNext
    rw [hrr]
    simp only [hv, Option.map_some]
  · have harrivals := arrivals_eq (s := { v with proc := some e }.setStatus e .running) hn hspells
    rw [Sched.turns, harrivals, hM]
    rfl

end Sched

namespace SchedRun

variable {n : Nat} {C : Type} [DecidableEq C] {s t u : SchedRun n C} {e : Fin n} {es order : List (Fin n)} {ev : SchedEvent C}

/-- The scheduler is entered because the environment on the CPU yields or there is none. -/
def Enters (s : SchedRun n C) : SchedEvent C → Prop
  | .yield | .schedule => True
  | .clock => s.sched.proc ≠ none
  | _ => False

/-- The selections of a run in which every environment selected yields, and what happens else leaves the ready queue
    and the CPU. -/
inductive Selections (s : SchedRun n C) : List (Fin n) → SchedRun n C → Prop
  | start : Selections s [] s
  | select {es : List (Fin n)} {t u : SchedRun n C} {ev : SchedEvent C} {e : Fin n} : Selections s es t → t.Enters ev →
      t.step ev = some u → u.sched.proc = some e → Selections s (es ++ [e]) u
  | other {es : List (Fin n)} {t u : SchedRun n C} {ev : SchedEvent C} : Selections s es t → ¬ t.Enters ev →
      t.step ev = some u → u.sched.arrivals = t.sched.arrivals → u.sched.proc = t.sched.proc → Selections s es u

/-- Every environment of `order` is selected once in any so many consecutive selections, and always in this order. -/
structure Fair (order es : List (Fin n)) : Prop where
  turn : ∀ k, k < es.length → es[k]? = order[k % order.length]?
  window : ∀ j, j + order.length ≤ es.length → (es.drop j).take order.length = order.rotate j
  once : ∀ j, j + order.length ≤ es.length → ∀ e ∈ order, ((es.drop j).take order.length).count e = 1

/-- No event changes the method. -/
theorem Inv.settings_kept (hn : n ≤ 1048576) (h : Inv s) (hrr : s.sched.schedulerMethod = .RR) (hs : s.step ev = some t) :
    t.sched.settings = s.sched.settings := by
  cases ev with
  | newEnv priority =>
    obtain ⟨d, -, hwrites⟩ := h.newEnv_writes hn hs
    exact hwrites.settings
  | clock =>
    obtain ⟨v, hv, rfl⟩ := Option.map_eq_some_iff.mp hs
    unfold Sched.clockInterruptHandler at hv
    rw [hrr, if_neg nofun, Option.bind_some] at hv
    split at hv
    · cases hv
      rfl
    · have hyield : s.step .yield = some ⟨v, s.created⟩ := congrArg (Option.map _) hv
      exact (ages_kept (by exact trivial) hyield).settings
  | setPriority id p =>
    obtain ⟨v, hv, rfl⟩ := Option.map_eq_some_iff.mp hs
    obtain ⟨d, -, -, -, hv⟩ := Sched.envSetPriority_eq hv
    exact (Sched.Writes.changePriority hv).settings
  | _ => exact (ages_kept (by exact trivial) hs).settings

/-- A selection takes the first of the turns and puts it behind the others. -/
theorem Inv.select (hn : n ≤ 1048576) (h : Inv s) (hrr : s.sched.schedulerMethod = .RR) (hev : s.Enters ev)
    (hs : s.step ev = some t) (he : t.sched.proc = some e) :
    ∃ es, s.sched.turns = e :: es ∧ t.sched.turns = es ++ [e] := by
  obtain ⟨L, hinv⟩ := h.1
  have hyield : ∀ v, s.sched.yield = some v → v.proc = some e → ∃ es, s.sched.turns = e :: es ∧ v.turns = es ++ [e] := by
    intro v hv he
    obtain ⟨p, hp, -⟩ := Option.bind_eq_some_iff.mp hv
    obtain ⟨hchoosing, -⟩ := hinv.yielding hp
    have hturns : s.sched.turns = (L (.ready 0)).reverse ++ [p] := by
      rw [Sched.turns, Sched.arrivals_eq hn hinv.spells, hp, Option.toList_some]
    obtain ⟨d, es, hes⟩ := List.exists_cons_of_ne_nil (List.append_ne_nil_of_right_ne_nil (L (.ready 0)).reverse (List.cons_ne_nil p []))
    obtain ⟨w, hw, hproc, hrotated⟩ := hchoosing.dispatch_turns hn hrr hes
    simp only [Sched.yield, hp, Option.bind_some, Sched.sched, hchoosing.proc, hchoosing.ready p rfl, hw] at hv
    cases hv
    cases hproc.symm.trans he
    exact ⟨es, hturns.trans hes, hrotated⟩
  cases ev with
  | yield =>
    obtain ⟨v, hv, rfl⟩ := Option.map_eq_some_iff.mp hs
    exact hyield v hv he
  | clock =>
    obtain ⟨v, hv, rfl⟩ := Option.map_eq_some_iff.mp hs
    unfold Sched.clockInterruptHandler at hv
    rw [hrr, if_neg (by decide), Option.bind_some] at hv
    split at hv
    · exact absurd ‹_› hev
    · exact hyield v hv he
  | schedule =>
    obtain ⟨⟨hp, hstarted⟩, hs⟩ := Option.ite_none_right_eq_some.mp hs
    obtain ⟨v, hv, rfl⟩ := Option.map_eq_some_iff.mp hs
    have hchoosing : Sched.Choosing s.sched L none :=
      ⟨hinv.toQueued, hp, fun _ h => (by cases h), fun e he => by cases hp.symm.trans ((hinv.running e).mpr he)⟩
    have hturns : s.sched.turns = (L (.ready 0)).reverse ++ [] := by
      rw [Sched.turns, Sched.arrivals_eq hn hinv.spells, hp, Option.toList_none]
    rcases hes : (L (.ready 0)).reverse ++ [] with _ | ⟨d, es⟩
    · rw [List.append_nil, List.reverse_eq_nil_iff] at hes
      cases (hchoosing.dispatch_none hrr hes hv).symm.trans he
    · obtain ⟨w, hw, hproc, hrotated⟩ := hchoosing.dispatch_turns hn hrr hes
      cases hw.symm.trans hv
      cases hproc.symm.trans he
      exact ⟨es, hturns.trans hes, hrotated⟩
  | _ => exact hev.elim

/-- Every selection rotates the turns. -/
theorem Selections.rotates (hn : n ≤ 1048576) (h : Inv s) (hrr : s.sched.schedulerMethod = .RR) (hes : Selections s es t) :
    Inv t ∧ t.sched.settings = s.sched.settings ∧ t.sched.turns = s.sched.turns.rotate es.length ∧
      ∀ k, k < es.length → es[k]? = s.sched.turns[k % s.sched.turns.length]? := by
  induction hes with
  | start => exact ⟨h, rfl, (List.rotate_zero _).symm, nofun⟩
  | @select es t u ev e _ hev hstep he ih =>
    obtain ⟨hinv, hsettings, hrotated, hturn⟩ := ih
    have hrr' : t.sched.schedulerMethod = .RR := (congrArg Prod.fst hsettings).trans hrr
    obtain ⟨l, hfirst, hlast⟩ := hinv.select hn hrr' hev hstep he
    have hsucc : u.sched.turns = t.sched.turns.rotate 1 := by
      rw [hfirst, hlast, List.rotate_cons_succ, List.rotate_zero]
    refine ⟨hinv.step hn hstep, (hinv.settings_kept hn hrr' hstep).trans hsettings, ?_, fun k hk => ?_⟩
    · rw [hsucc, hrotated, List.rotate_rotate, List.length_append, List.length_singleton]
    · rw [List.length_append, List.length_singleton] at hk
      rcases Nat.eq_or_lt_of_le (Nat.le_of_lt_succ hk) with rfl | hlt
      · -- The turns are rotated so that the next one is at their head.
        have hpos : 0 < s.sched.turns.length := by
          rw [← List.length_rotate s.sched.turns es.length, ← hrotated, hfirst]
          exact Nat.succ_pos _
        rw [List.getElem?_concat_length, ← Nat.zero_add es.length, ← List.getElem?_rotate hpos, ← hrotated, hfirst,
          List.getElem?_cons_zero]
      · rw [List.getElem?_append_left hlt, hturn k hlt]
  | @other es t u ev _ _ hstep harrivals hproc ih =>
    obtain ⟨hinv, hsettings, hrotated, hturn⟩ := ih
    have hrr' : t.sched.schedulerMethod = .RR := (congrArg Prod.fst hsettings).trans hrr
    refine ⟨hinv.step hn hstep, (hinv.settings_kept hn hrr' hstep).trans hsettings, ?_, hturn⟩
    rw [← hrotated, Sched.turns, Sched.turns, harrivals, hproc]

theorem Fair.of_turn (hnodup : order.Nodup) (hturn : ∀ k, k < es.length → es[k]? = order[k % order.length]?) : Fair order es := by
  have hwindow : ∀ j, j + order.length ≤ es.length → (es.drop j).take order.length = order.rotate j := by
    intro j hj
    refine List.ext_getElem? fun k => ?_
    rcases Nat.lt_or_ge k order.length with hk | hk
    · rw [List.getElem?_take_of_lt hk, List.getElem?_drop, hturn (j + k) (by omega), List.getElem?_rotate hk, Nat.add_comm]
    · rw [List.getElem?_eq_none, List.getElem?_eq_none]
      · rwa [List.length_rotate]
      · exact (List.length_take_le ..).trans hk
  refine ⟨hturn, hwindow, fun j hj e he => ?_⟩
  rw [hwindow j hj]
  exact List.count_eq_one_of_mem (List.nodup_rotate.mpr hnodup) (List.mem_rotate.mpr he)

/-- From every state that the round-robin scheduler reaches, as long as the environment selected always yields and the
    ready queue is left otherwise, the runnable environments are selected one after the other in the order of their
    arrival, the one on the CPU at last, and then again. -/
theorem round_robin_fair (sizeofEnv : Nat) {s t : SchedRun (nEnv sizeofEnv) C} {es : List (Fin (nEnv sizeofEnv))}
    (hr : Reach SchedRun.step (fun _ _ => True) ⟨Sched.schedInitRR, []⟩ s) (hes : Selections s es t) :
    s.sched.turns.Nodup ∧
      (∀ e, e ∈ s.sched.turns ↔ (s.sched.envs e).envStatus = .ready ∨ (s.sched.envs e).envStatus = .running) ∧
        Fair s.sched.turns es := by
  have hn := nEnv_le sizeofEnv
  have hrr : Inv s ∧ s.sched.schedulerMethod = .RR := by
    refine hr.invariant (I := fun s => Inv s ∧ s.sched.schedulerMethod = .RR) ⟨.initial (.inl rfl), ?_⟩ fun _ _ _ h _ hs => ?_
    · exact congrArg Sched.schedulerMethod (Sched.envInit_eq _)
    · exact ⟨h.1.step hn hs, (congrArg Prod.fst (h.1.settings_kept hn h.2 hs)).trans h.2⟩
  obtain ⟨L, hinv⟩ := hrr.1.1
  obtain ⟨hnodup, hmem⟩ := hinv.turns hn hrr.2
  obtain ⟨-, -, -, hturn⟩ := hes.rotates hn hrr.1 hrr.2
  exact ⟨hnodup, hmem, .of_turn hnodup hturn⟩

/-- Three environments, of which the first runs, yield four times, once because of the clock. -/
theorem round_robin_fair_three : ∃ s t : SchedRun (nEnv 349525) Unit,
    Reach SchedRun.step (fun _ _ => True) ⟨Sched.schedInitRR, []⟩ s ∧ s.sched.turns.map Fin.val = [1, 2, 0] ∧
      ∃ es, Selections s es t ∧ es.map Fin.val = [1, 2, 0, 1] ∧ s.sched.turns.Nodup ∧
        (∀ e, e ∈ s.sched.turns ↔ (s.sched.envs e).envStatus = .ready ∨ (s.sched.envs e).envStatus = .running) ∧
          Fair s.sched.turns es := by
  have hrun : ((exec SchedRun.step (⟨Sched.schedInitRR, []⟩ : SchedRun (nEnv 349525) Unit)
      [.newEnv none, .newEnv none, .newEnv none, .runAll]).bind fun s =>
        (s.step .yield).bind fun s₁ => (s₁.step .clock).bind fun s₂ => (s₂.step .yield).bind fun s₃ => (s₃.step .yield).map fun s₄ =>
          (s.sched.turns.map Fin.val, s₁.sched.proc.isSome, [s₁, s₂, s₃, s₄].map fun s => s.sched.proc.map Fin.val)) =
            some ([1, 2, 0], true, [some 1, some 2, some 0, some 1]) := by
    decide +kernel
  obtain ⟨s, hs, hrun⟩ := Option.bind_eq_some_iff.mp hrun
  obtain ⟨s₁, h₁, hrun⟩ := Option.bind_eq_some_iff.mp hrun
  obtain ⟨s₂, h₂, hrun⟩ := Option.bind_eq_some_iff.mp hrun
  obtain ⟨s₃, h₃, hrun⟩ := Option.bind_eq_some_iff.mp hrun
  obtain ⟨s₄, h₄, hrun⟩ := Option.map_eq_some_iff.mp hrun
  simp only [List.map_cons, List.map_nil, Prod.mk.injEq, List.cons.injEq, and_true, Option.map_eq_some_iff] at hrun
  obtain ⟨hturns, hsome, ⟨e₁, he₁, hv₁⟩, ⟨e₂, he₂, hv₂⟩, ⟨e₃, he₃, hv₃⟩, ⟨e₄, he₄, hv₄⟩⟩ := hrun
  have hr : Reach SchedRun.step (fun _ _ => True) ⟨Sched.schedInitRR, []⟩ s := .of_exec_any hs
  have hclock : s₁.Enters .clock := fun hnone => by simp [hnone] at hsome
  have hyield : ∀ u : SchedRun (nEnv 349525) Unit, u.Enters .yield := fun _ => trivial
  have hes : Selections s ([] ++ [e₁] ++ [e₂] ++ [e₃] ++ [e₄]) s₄ :=
    .select (.select (.select (.select .start (hyield s) h₁ he₁) hclock h₂ he₂) (hyield s₂) h₃ he₃) (hyield s₃) h₄ he₄
  exact ⟨s, s₄, hr, hturns, _, hes, by simp [hv₁, hv₂, hv₃, hv₄], round_robin_fair 349525 hr hes⟩

end SchedRun

end Fos.Cpu
