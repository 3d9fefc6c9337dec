import Fos.Cpu.SchedRun

/-! What `sched_exit_env` moves. The loop over the NEW queue goes on after the environment was found, and leaves its
    cursor null; `sched_insert_exit` asserts that it is not. -/

namespace Fos.Cpu.Sched
open Lib

variable {n : Nat} {C : Type} {s t : Sched n C} {L : Queue C → List (Fin n)} {e cur : Fin n} {id : BitVec 32}

/-- The environment is in the NEW queue, in a ready queue or on the CPU. -/
def Exitable (s : Sched n C) (L : Queue C → List (Fin n)) (e : Fin n) : Prop :=
  e ∈ L .new ∨ (∃ i, i < s.numOfReadyQueues ∧ e ∈ L (.ready i)) ∨ s.proc = some e

variable [DecidableEq C]

/-- The environment has left its queue, if it was in one, and is in the EXIT queue once. The other environments are where
    they were, in the same order. -/
structure MovedToExit (s t : Sched n C) (L : Queue C → List (Fin n)) (e : Fin n) : Prop where
  spells : t.queues.Spells fun q => if q = .exit then e :: L .exit else (L q).erase e
  once : (e :: L .exit).count e = 1
  envs : t.envs = Function.update s.envs e { s.envs e with envStatus := .exit }
  rest : t = { s with queues := t.queues, envs := t.envs }

/-- `sched_exit_env(id)` moves the environment named, and then calls `sched` if it is the current one. For an id found
    nowhere it changes nothing. -/
structure ExitsExactly (s : Sched n C) (L : Queue C → List (Fin n)) (id : BitVec 32) : Prop where
  found : ∀ e, s.Exitable L e → (s.envs e).envId = id →
    (s.schedExitEnv id).isSome ∧ ∃ t, MovedToExit s t L e ∧ s.schedExitEnv id = if s.proc = some e then t.sched else some t
  absent : (∀ e, s.Exitable L e → (s.envs e).envId ≠ id) → s.schedExitEnv id = some s

/-! ### An environment in the NEW queue -/

/-- Each round of the loop over the NEW queue takes the next element before its body runs, so that the loop ends with a
    null cursor. -/
theorem Queued.takeToExit_new (hn : n ≤ 1048576) (h : Queued s L none) (he : e ∈ L .new) :
    ∃ t, s.takeToExit (s.envs e).envId = some (t, some none) := by
  have hlen : (L .new).length < walkFuel := Nat.lt_of_le_of_lt (h.length_le hn _) (by decide)
  have hnodup := h.spells.nodup .new
  obtain ⟨hremove, hq⟩ := h.schedRemoveNew he
  have hsame : ∀ x ∈ L .new, (s.envs x).envId = (s.envs e).envId → x = e := fun x hx hid =>
    h.id_inj hn (h.not_free hx fun hq => by cases hq) (h.not_free he fun hq => by cases hq) hid
  -- Before the environment is met the queue is as it was; afterwards it lacks it.
  obtain ⟨r, hr, hdone⟩ := forEach_rule (fun r : Sched n C × Bool => r.1.next)
    (fun r x => if (r.1.envs x).envId = (s.envs e).envId then (r.1.schedRemoveNew x).map (·, true) else some r)
    (fun r l => (r = (s, false) ∧ e ∈ l ∧ ∃ a, L .new = a ++ l) ∨
      (r = ((s.removeFromQueue .new e).setStatus e .unknown, true) ∧ e ∉ l ∧ (∃ a, L .new = a ++ l) ∧
        ∃ a, (L .new).erase e = a ++ l))
    (fun r c l hP => by
      rcases hP with ⟨rfl, -, a, ha⟩ | ⟨rfl, -, -, a, ha⟩
      · exact (ha ▸ h.spells.spelled .new).next_of_split
      · have hspelled := hq.spells.spelled .new
        rw [Function.update_self, ha] at hspelled
        exact hspelled.next_of_split)
    (fun r c l hP => by
      rcases hP with ⟨rfl, hmem, a, ha⟩ | ⟨rfl, hmem, ⟨a, ha⟩, b, hb⟩
      · by_cases hce : c = e
        · subst hce
          rw [ha] at hnodup
          have hca : c ∉ a := fun hca => ne_of_nodup_append hnodup hca (by simp)
          refine ⟨_, ?_, .inr ⟨rfl, (List.nodup_cons.mp (List.nodup_append.mp hnodup).2.1).1, ⟨a ++ [c], by simpa using ha⟩, a, ?_⟩⟩
          · rw [if_pos rfl, hremove, Option.map_some]
          · rw [ha, List.erase_append_right _ hca, List.erase_cons_head]
        · refine ⟨_, if_neg fun hid => hce (hsame c (by simp [ha]) hid), .inl ⟨rfl, ?_, a ++ [c], by simpa using ha⟩⟩
          exact (List.mem_cons.mp hmem).resolve_left fun hec => hce hec.symm
      · have hce : c ≠ e := fun hce => hmem (by simp [hce])
        refine ⟨_, if_neg fun hid => hce (hsame c (by simp [ha]) ?_), .inr ⟨rfl, fun hel => hmem (List.mem_cons_of_mem c hel),
          ⟨a ++ [c], by simpa using ha⟩, b ++ [c], by simpa using hb⟩⟩
        rwa [setStatus, envs_modify_of_ne _ hce] at hid)
    (.inl ⟨rfl, he, [], rfl⟩) hlen
  rcases hdone with ⟨-, hmem, -⟩ | ⟨rfl, -⟩
  · cases hmem
  · unfold Sched.takeToExit
    rw [h.spells.first .new, hr, Option.bind_some]
    exact ⟨_, rfl⟩

/-- For an environment in the NEW queue the assertion of `sched_insert_exit` fails. -/
theorem Queued.schedExitEnv_new (hn : n ≤ 1048576) (h : Queued s L none) (he : e ∈ L .new) :
    s.schedExitEnv (s.envs e).envId = none := by
  obtain ⟨t, ht⟩ := h.takeToExit_new hn he
  rw [Sched.schedExitEnv, ht, Option.bind_some]
  dsimp only
  cases t.proc with
  | none => rfl
  | some cur => simp

/-! ### The other environments -/

theorem MovedToExit.of_queue {q : Queue C} (h : Queued s L none) (he : e ∈ L q) (hq : q ≠ .exit) :
    MovedToExit s ((s.removeFromQueue q e).schedInsertExit e) L e := by
  have hexit : e ∉ L .exit := fun hmem => hq (h.spells.disjoint _ _ _ he hmem)
  refine ⟨?_, ?_, rfl, rfl⟩
  · have hspells := (h.take he).spells.insertHead (i := .exit) ((h.take he).not_mem e rfl)
    refine Eq.mp (congrArg _ (funext fun r => ?_)) hspells
    by_cases hr : r = .exit
    · subst hr
      rw [Function.update_self, Function.update_of_ne hq.symm, if_pos rfl]
    · rw [Function.update_of_ne hr, if_neg hr]
      by_cases hrq : r = q
      · rw [hrq, Function.update_self]
      · rw [Function.update_of_ne hrq, List.erase_of_not_mem fun hmem => hrq (h.spells.disjoint _ _ _ hmem he)]
  · rw [List.count_cons_self, List.count_eq_zero.mpr hexit]

theorem MovedToExit.of_cpu (h : Inv s L) (hcur : s.proc = some cur) : MovedToExit s (s.schedInsertExit cur) L cur := by
  have hnot := (h.pick ((h.running cur).mp hcur)).not_mem cur rfl
  have hspells := h.spells.insertHead (i := .exit) hnot
  refine ⟨?_, ?_, rfl, rfl⟩
  · refine Eq.mp (congrArg _ (funext fun r => ?_)) hspells
    by_cases hr : r = .exit
    · subst hr
      rw [Function.update_self, if_pos rfl]
    · rw [Function.update_of_ne hr, if_neg hr, List.erase_of_not_mem (hnot r)]
  · rw [List.count_cons_self, List.count_eq_zero.mpr (hnot .exit)]

/-- What `sched_exit_env` does with an id that is not in the NEW queue. -/
theorem Inv.schedExitEnv_cases (hn : n ≤ 1048576) (h : Inv s L) (hcur : s.proc = some cur)
    (hnew : ∀ e ∈ L .new, (s.envs e).envId ≠ id) :
    (∃ i e, e ∈ L (.ready i) ∧ (s.envs e).envId = id ∧
      s.schedExitEnv id = some ((s.removeFromQueue (.ready i) e).schedInsertExit e)) ∨
    ((s.envs cur).envId = id ∧ s.schedExitEnv id = (s.schedInsertExit cur).sched) ∨
    ((∀ e, s.Exitable L e → (s.envs e).envId ≠ id) ∧ s.schedExitEnv id = some s) := by
  have hrun := (h.running cur).mp hcur
  have hlive : (s.envs cur).envStatus ≠ .free := by rw [hrun]; nofun
  by_cases hid : (s.envs cur).envId = id
  · exact .inr (.inl ⟨hid, hid ▸ h.envExit_eq hn hcur⟩)
  · obtain ⟨r, hr, hsome, hnone⟩ := h.searchReady hn id 0 s.numOfReadyQueues
    have htake := h.toQueued.takeToExit hn hnew
    rw [hr, Option.map_some] at htake
    rcases r with _ | ⟨i, e⟩
    · refine .inr (.inr ⟨?_, by simp [Sched.schedExitEnv, htake, hcur, hid]⟩)
      rintro e (hmem | ⟨i, hi, hmem⟩ | hproc)
      · exact hnew e hmem
      · exact hnone rfl i (Nat.zero_le i) (by omega) e hmem
      · cases hcur.symm.trans hproc
        exact hid
    · obtain ⟨hmem, hide⟩ := hsome i e rfl
      refine .inl ⟨i, e, hmem, hide, ?_⟩
      rw [Sched.schedExitEnv, htake, Option.bind_some]
      have hproc : (s.removeFromQueue (.ready i) e).proc = some cur := hcur
      have hidcur : ((s.removeFromQueue (.ready i) e).envs cur).envId ≠ id := hid
      simp [hproc, hidcur]

/-- In every state of the process queues with an environment on the CPU, `sched_exit_env(id)` moves exactly the environment
    named, or nothing, if and only if no environment in the NEW queue has the id. -/
theorem sched_exit_env_exact_iff (sizeofEnv : Nat) {s : Sched (nEnv sizeofEnv) C} {L : Queue C → List (Fin (nEnv sizeofEnv))}
    {cur : Fin (nEnv sizeofEnv)} (h : Inv s L) (hcur : s.proc = some cur) (id : BitVec 32) :
    s.ExitsExactly L id ↔ ∀ e ∈ L .new, (s.envs e).envId ≠ id := by
  have hn := nEnv_le sizeofEnv
  constructor
  · rintro hexits e he rfl
    have hsome := (hexits.found e (.inl he) rfl).1
    rw [h.schedExitEnv_new hn he] at hsome
    exact nomatch hsome
  · intro hnew
    have hcases := h.schedExitEnv_cases hn hcur hnew
    have hlive : ∀ e, s.Exitable L e → (s.envs e).envStatus ≠ .free := by
      rintro e (hmem | ⟨i, -, hmem⟩ | hproc)
      · exact h.not_free hmem nofun
      · exact h.not_free hmem nofun
      · rw [(h.running e).mp hproc]
        nofun
    have hready : ∀ i e, e ∈ L (.ready i) → s.Exitable L e ∧ s.proc ≠ some e := by
      intro i e hmem
      obtain ⟨hstatus, hprio⟩ := (h.mem e nofun (.ready i)).mp hmem
      have hrange := h.priority e (by rw [hstatus]; nofun)
      refine ⟨.inr (.inl ⟨i, by omega, hmem⟩), fun hproc => ?_⟩
      exact nomatch hstatus.symm.trans ((h.running e).mp hproc)
    refine ⟨fun e he hid => ?_, fun habsent => ?_⟩
    · rcases hcases with ⟨i, f, hf, hidf, hexit⟩ | ⟨hidcur, hexit⟩ | ⟨hnone, -⟩
      · obtain ⟨hexitable, hproc⟩ := hready i f hf
        cases h.id_inj hn (hlive e he) (hlive f hexitable) (hid.trans hidf.symm)
        rw [hexit]
        exact ⟨rfl, _, .of_queue h.toQueued hf nofun, (if_neg hproc).symm⟩
      · cases h.id_inj hn (hlive e he) (hlive cur (.inr (.inr hcur))) (hid.trans hidcur.symm)
        obtain ⟨t, -, ht, -⟩ := h.exits hn hcur
        rw [hexit]
        exact ⟨by rw [ht]; rfl, _, .of_cpu h hcur, (if_pos hcur).symm⟩
      · exact absurd hid (hnone e he)
    · rcases hcases with ⟨i, f, hf, hidf, -⟩ | ⟨hidcur, -⟩ | ⟨-, hexit⟩
      · exact absurd hidf (habsent f (hready i f hf).1)
      · exact absurd hidcur (habsent cur (.inr (.inr hcur)))
      · exact hexit

/-- One environment runs, one is ready and one is new; the ready one exits. -/
theorem sched_exit_env_exact_ready : ∃ (s : Sched (nEnv 349525) Unit) (L : Queue Unit → List (Fin (nEnv 349525)))
    (cur : Fin (nEnv 349525)) (id : BitVec 32), Inv s L ∧ s.proc = some cur ∧ s.schedExitEnv id ≠ none ∧
      (s.ExitsExactly L id ↔ ∀ e ∈ L .new, (s.envs e).envId ≠ id) := by
  have hrun : (exec SchedRun.step ⟨(schedInitRR : Sched (nEnv 349525) Unit), []⟩
      [.newEnv none, .newEnv none, .runAll, .newEnv none]).bind (fun s => s.sched.proc.map fun cur =>
        (cur, decide ((s.sched.schedExitEnv (s.sched.envs ⟨1, by decide⟩).envId).isSome = true))) =
          some (⟨0, by decide⟩, true) := by
    decide +kernel
  obtain ⟨s, hs, hrun⟩ := Option.bind_eq_some_iff.mp hrun
  obtain ⟨cur, hcur, heq⟩ := Option.map_eq_some_iff.mp hrun
  obtain ⟨-, hexit⟩ := Prod.mk.inj heq
  obtain ⟨⟨L, hinv⟩, -⟩ := SchedRun.Inv.reach (by decide) (.inl rfl) (Reach.of_exec_any hs)
  exact ⟨s.sched, L, cur, _, hinv, hcur, Option.isSome_iff_ne_none.mp (of_decide_eq_true hexit),
    sched_exit_env_exact_iff 349525 hinv hcur _⟩

/-- The second environment has not been run yet when the first one exits it. -/
theorem sched_exit_env_new_panics : ∃ (s : Sched (nEnv 349525) Unit) (L : Queue Unit → List (Fin (nEnv 349525)))
    (cur e : Fin (nEnv 349525)), Inv s L ∧ s.proc = some cur ∧ e ∈ L .new ∧ s.schedExitEnv (s.envs e).envId = none ∧
      ¬ s.ExitsExactly L (s.envs e).envId := by
  have hrun : (exec SchedRun.step ⟨(schedInitRR : Sched (nEnv 349525) Unit), []⟩ [.newEnv none, .runAll, .newEnv none]).bind
      (fun s => s.sched.proc.map fun cur => (cur, (s.sched.envs ⟨1, by decide⟩).envStatus,
        (s.sched.schedExitEnv (s.sched.envs ⟨1, by decide⟩).envId).isNone)) = some (⟨0, by decide⟩, .new, true) := by
    decide +kernel
  obtain ⟨s, hs, hrun⟩ := Option.bind_eq_some_iff.mp hrun
  obtain ⟨cur, hcur, heq⟩ := Option.map_eq_some_iff.mp hrun
  simp only [Prod.mk.injEq] at heq
  obtain ⟨-, hnew, hexit⟩ := heq
  obtain ⟨⟨L, hinv⟩, -⟩ := SchedRun.Inv.reach (by decide) (.inl rfl) (Reach.of_exec_any hs)
  have hmem : (⟨1, by decide⟩ : Fin (nEnv 349525)) ∈ L .new := (hinv.mem _ nofun .new).mpr hnew
  have hnone := Option.isNone_iff_eq_none.mp hexit
  refine ⟨s.sched, L, cur, _, hinv, hcur, hmem, hnone, fun hexits => ?_⟩
  have hsome := (hexits.found _ (.inl hmem) rfl).1
  rw [hnone] at hsome
  exact nomatch hsome

end Fos.Cpu.Sched
