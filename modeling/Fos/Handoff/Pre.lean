import Fos.Handoff.Code

/-! What a thread may count on at each piece of its code: the flag, the depth of `pushcli`, its locks and the process of the CPU
    are as it left them, whatever interrupts and other threads came in between. -/

namespace Fos.Handoff
open Lib Conc

/-- The CPU as a thread sees it. The fields before `proc` are those of `Conc.Holds`. -/
structure View (P L : Type) where
  flag : Bool
  n : Nat
  held : Finset (Lock L)
  mine : Finset (Lock L)
  r : Bool
  proc : Option P
  /-- The status of `proc` -/
  status : Cpu.EnvStatus
  /-- A process that is known to be ready -/
  next : Option P

variable {P L C : Type} {thread : Option P} {p : P} {lk : Lock L} {flag r : Bool} {held : Finset (Lock L)} {proc : Option P}
  {status : Cpu.EnvStatus} {v : View P L}

namespace View

/-- The CPU has the process of the thread, and it is running. -/
structure Calm (thread : Option P) (v : View P L) : Prop where
  proc : v.proc = thread
  running : thread ≠ none → v.status = .running
  next : v.next = none

/-- Where an interrupt may come, the thread is calm. -/
def Quiet (thread : Option P) (v : View P L) : Prop := v.n = 0 → v.Calm thread

/-- Between two functions: `pushcli` counts the locks. -/
structure Between (v : View P L) : Prop where
  n : v.n = v.held.card
  mine : v.mine = v.held

/-- Where the CPU goes from a thread to another: `qlock` is held, and nothing else. -/
structure Meeting (v : View P L) : Prop where
  n : v.n = 1
  held : v.held = {.qlock}
  mine : v.mine = {.qlock}

/-- The view between two functions -/
def between (flag : Bool) (held : Finset (Lock L)) (r : Bool) (proc : Option P) (status : Cpu.EnvStatus) : View P L :=
  ⟨flag, held.card, held, held, r, proc, status, none⟩

theorem Between.covers (h : v.Between) : v.held = ∅ ∨ 0 < v.n := by
  rw [h.n, Finset.card_pos]
  exact v.held.eq_empty_or_nonempty

theorem Between.n_lt (h : v.Between) (place : Placement (Lock L)) : v.n < 2147483646 := by
  rw [h.n]
  exact place.card_lt v.held

theorem between_between : (between flag held r proc status).Between := ⟨rfl, rfl⟩

theorem between_meeting : (between flag {.qlock} r proc status : View P L).Meeting := ⟨Finset.card_singleton (Lock.qlock : Lock L), rfl, rfl⟩

theorem between_calm (h : thread ≠ none → status = .running) : (between flag held r thread status).Calm thread := ⟨rfl, h, rfl⟩

theorem calm_none : (between flag held r none status : View P L).Calm none := between_calm fun h => absurd rfl h

theorem eq_between (hb : v.Between) (hc : v.Calm thread) : v = between v.flag v.held v.r thread v.status := by
  obtain ⟨flag, n, held, mine, r, proc, status, next⟩ := v
  obtain ⟨hn, hmine⟩ := hb
  obtain ⟨hproc, -, hnext⟩ := hc
  dsimp only at hn hmine hproc hnext
  subst hn hmine hproc hnext
  rfl

/-- A view with `pushcli` called is quiet. -/
theorem quiet_of_pos (h : 0 < v.n) : v.Quiet thread := fun hzero => by omega

/-- Where no lock is held, the thread is calm. -/
theorem between_quiet (h : held = ∅ → (between flag held r proc status).Calm thread) :
    (between flag held r proc status).Quiet thread := fun hzero => h (Finset.card_eq_zero.mp hzero)

variable [DecidableEq L]

/-- What an operation of a spinlock does to the view -/
def op (v : View P L) : Op (Lock L) → Option (View P L)
  | .pushcli => if v.n < 2147483647 then some { v with n := v.n + 1 } else none
  | .popcli => if 0 < v.n ∧ v.n ≤ 2147483647 ∧ (v.held = ∅ ∨ 1 < v.n) then some { v with n := v.n - 1 } else none
  | .test lk => if v.mine = v.held then some { v with r := lk ∈ v.held } else none
  | .panicIf value => if v.r = value then none else some v
  | .xchg lk => if 0 < v.n ∧ lk ∉ v.held ∧ v.mine = v.held then some { v with held := insert lk v.held } else none
  | .setCpu lk (some cpu) => if some cpu = mycpu ∧ v.held = insert lk v.mine then some { v with mine := v.held } else none
  | .setCpu lk none => if v.mine = v.held then some { v with mine := v.held.erase lk } else none
  | .unlock lk => if v.mine = v.held.erase lk then some { v with held := v.mine } else none

end View

open View

variable [DecidableEq L]

/-- The precondition of a piece of code of a thread -/
def pre (thread : Option P) : Act P L C → (View P L → Prop) → View P L → Prop
  | .op o, Q, v => ∃ v', v.op o = some v' ∧ v'.Quiet thread ∧ Q v'
  | .sti, Q, v => v.n = 0 ∧ Q { v with flag := true }
  | .cli, Q, v => v.n = 0 ∧ Q { v with flag := false }
  | .assertDisabled, Q, v => (0 < v.n ∨ v.flag = false) ∧ Q v
  | .assertProc, Q, v => v.proc ≠ none ∧ Q v
  | .assertRunning, Q, v => v.proc ≠ none ∧ v.status = .running ∧ Q v
  | .setProc none, Q, v => thread = none ∧ (v.proc = none ∨ v.status ≠ .running) ∧ Q { v with proc := none }
  | .setProc (some p), Q, v =>
    thread = none ∧ (v.proc = none ∨ v.status ≠ .running) ∧ 0 < v.n ∧ v.next = some p ∧
      Q { v with proc := some p, status := .ready }
  | .setStatus st, Q, v =>
    v.proc ≠ none ∧ 0 < v.n ∧ v.status = .running ∧ st ≠ .running ∧ st ≠ .blocked ∧ Q { v with status := st }
  | .run p, Q, v => 0 < v.n ∧ v.proc = some p ∧ v.status = .ready ∧ Q { v with status := .running, next := none }
  | .block _, Q, v => v.proc ≠ none ∧ 0 < v.n ∧ v.status = .running ∧ Q { v with status := .blocked }
  | .newToReady _, Q, v | .wakeOne _, Q, v | .wakeAll _, Q, v =>
    v.Between ∧ .qlock ∈ v.held ∧ v.Calm thread ∧ ∀ r, Q { v with r := r }
  | .checkSched, Q, v => v.n = 1 ∧ v.proc ≠ none ∧ v.status ≠ .running ∧ Q v
  | .contextSwitch, Q, v =>
    thread ≠ none ∧ v.proc = thread ∧ v.Meeting ∧ v.status ≠ .running ∧ Q { v with status := .running }
  | .iret r, Q, v => v.n = 0 ∧ Q { v with flag := true, r := r }
  | .yieldIfProc, Q, v => v.Between ∧ v.held = ∅ ∧ v.Calm thread ∧ ∀ r, Q { v with r := r }
  | .switchTo p, Q, v =>
    thread = none ∧ v.Meeting ∧ v.proc = some p ∧ v.status = .running ∧ v.next = none ∧
      ∀ flag r st, st ≠ .running → Q { v with flag := flag, r := r, status := st }
  | .afterSwitch, Q, v =>
    thread = none ∧ v.Meeting ∧ v.proc ≠ none ∧ v.status ≠ .running ∧ (v.status = .ready → Q v) ∧ Q { v with proc := none }
  | .schedNext, _, v => thread = none ∧ v.Meeting ∧ (v.proc ≠ none → v.status = .ready)
  | .getIntoPrompt, _, v => thread = none ∧ v.Between ∧ v.held = ∅ ∧ v.proc = none

/-- The pieces of code are possible one after the other, and lead to a view with `Q`. -/
def wp (thread : Option P) (Q : View P L → Prop) : List (Act P L C) → View P L → Prop
  | [] => Q
  | a :: k => pre thread a (wp thread Q k)

/-- What a thread has reached when there is nothing left: the prompt, or a process that calls the next function. -/
structure Done (thread : Option P) (v : View P L) : Prop where
  between : v.Between
  calm : v.Calm thread
  prompt : thread = none → v.held = ∅ ∧ v.flag = false

variable {k : List (Act P L C)} {Q : View P L → Prop}

/-! ### Spinlocks -/

theorem wp_pushcli (hn : v.n < 2147483647) (h : wp thread Q k { v with n := v.n + 1 }) :
    wp thread Q (.op .pushcli :: k) v :=
  ⟨_, if_pos hn, fun hzero => absurd hzero (Nat.succ_ne_zero v.n), h⟩

theorem wp_popcli {n : Nat} (hv : v.n = n + 1) (hn : n < 2147483647) (hcovers : v.held = ∅ ∨ 0 < n)
    (hquiet : Quiet thread { v with n := n }) (h : wp thread Q k { v with n := n }) :
    wp thread Q (.op .popcli :: k) v := by
  have heq : v.n - 1 = n := by omega
  refine ⟨{ v with n := v.n - 1 }, if_pos ⟨by omega, by omega, hcovers.imp_right fun hpos => by omega⟩, ?_, ?_⟩
  · rwa [heq]
  · rwa [heq]

theorem wp_getCpuProc (hn : v.n < 2147483647) (hcovers : v.held = ∅ ∨ 0 < v.n) (hquiet : v.Quiet thread)
    (h : wp thread Q k v) : wp thread Q (ops (getCpuProc (Lock L)) ++ k) v :=
  wp_pushcli hn (wp_popcli rfl hn hcovers hquiet h)

theorem wp_holdingKspinlock (hn : v.n < 2147483647) (hcovers : v.held = ∅ ∨ 0 < v.n) (hquiet : v.Quiet thread)
    (hmine : v.mine = v.held) (h : wp thread Q k { v with r := lk ∈ v.held }) :
    wp thread Q (ops (holdingKspinlock lk) ++ k) v :=
  wp_pushcli hn ⟨{ v with n := v.n + 1, r := lk ∈ v.held }, if_pos hmine, fun hzero => absurd hzero (Nat.succ_ne_zero v.n),
    wp_popcli rfl hn hcovers (fun hzero => ⟨(hquiet hzero).proc, (hquiet hzero).running, (hquiet hzero).next⟩) h⟩

theorem wp_panicIf {value : Bool} (hr : v.r ≠ value) (hquiet : v.Quiet thread) (h : wp thread Q k v) :
    wp thread Q (.op (.panicIf value) :: k) v :=
  ⟨v, if_neg hr, hquiet, h⟩

theorem wp_acquire (place : Placement (Lock L)) (hlk : lk ∉ held) (hcalm : held = ∅ → (between flag held r proc status).Calm thread)
    (h : wp thread Q k (between flag (insert lk held) false proc status)) :
    wp thread Q (ops (acquireKspinlock lk) ++ k) (between flag held r proc status) := by
  have hb : (between flag held r proc status).Between := between_between
  have hn := hb.n_lt place
  have hcovers := hb.covers
  change held.card < 2147483646 at hn
  have hr : decide (lk ∈ held) = false := decide_eq_false hlk
  have hdeep : ∀ {w : View P L}, w.n = held.card + 1 → w.Quiet thread := fun hw => quiet_of_pos (by omega)
  refine wp_holdingKspinlock (Nat.lt_trans hn (by decide)) hcovers (between_quiet hcalm) rfl ?_
  refine wp_panicIf (show decide (lk ∈ held) ≠ true by rw [hr]; decide) (fun hzero => ?_) ?_
  · have hcalm := hcalm (Finset.card_eq_zero.mp hzero)
    exact ⟨hcalm.proc, hcalm.running, hcalm.next⟩
  refine wp_pushcli (Nat.lt_trans hn (by decide)) (wp_getCpuProc (show held.card + 1 < 2147483647 by omega)
    (.inr (Nat.succ_pos _)) (hdeep rfl) ?_)
  refine ⟨⟨flag, held.card + 1, insert lk held, held, decide (lk ∈ held), proc, status, none⟩,
    if_pos ⟨Nat.succ_pos _, hlk, rfl⟩, hdeep rfl, ?_⟩
  refine ⟨⟨flag, held.card + 1, insert lk held, insert lk held, decide (lk ∈ held), proc, status, none⟩,
    if_pos ⟨rfl, rfl⟩, hdeep rfl, ?_⟩
  refine wp_getCpuProc (show held.card + 1 < 2147483647 by omega) (.inr (Nat.succ_pos _)) (hdeep rfl) ?_
  rw [between, Finset.card_insert_of_notMem hlk] at h
  rwa [hr]

theorem wp_release (place : Placement (Lock L)) (hlk : lk ∈ held)
    (hcalm : held.erase lk = ∅ → (between flag (held.erase lk) true proc status).Calm thread)
    (h : wp thread Q k (between flag (held.erase lk) true proc status)) :
    wp thread Q (ops (releaseKspinlock lk) ++ k) (between flag held r proc status) := by
  have hb : (between flag held r proc status).Between := between_between
  have hn := hb.n_lt place
  change held.card < 2147483646 at hn
  have hcard := Finset.card_erase_add_one hlk
  have hr : decide (lk ∈ held) = true := decide_eq_true hlk
  have hdeep : ∀ {w : View P L}, w.n = held.card → w.Quiet thread := fun hw => quiet_of_pos (by omega)
  refine wp_holdingKspinlock (Nat.lt_trans hn (by decide)) (.inr (show 0 < held.card by omega)) (hdeep rfl) rfl ?_
  refine wp_panicIf (show decide (lk ∈ held) ≠ false by rw [hr]; decide) (hdeep rfl) ?_
  refine ⟨⟨flag, held.card, held, held.erase lk, decide (lk ∈ held), proc, status, none⟩, if_pos rfl, hdeep rfl, ?_⟩
  refine ⟨⟨flag, held.card, held.erase lk, held.erase lk, decide (lk ∈ held), proc, status, none⟩, if_pos rfl, hdeep rfl, ?_⟩
  refine wp_getCpuProc (show held.card < 2147483647 by omega) (.inr (show 0 < held.card by omega)) (hdeep rfl) ?_
  refine wp_popcli (show held.card = (held.erase lk).card + 1 from hcard.symm) (by omega) ?_ (fun hzero => ?_) ?_
  · exact (held.erase lk).eq_empty_or_nonempty.imp_right Finset.card_pos.mpr
  · have hcalm := hcalm (Finset.card_eq_zero.mp hzero)
    exact ⟨hcalm.proc, hcalm.running, hcalm.next⟩
  · rwa [hr]

theorem wp_getCpuProc_between (place : Placement (Lock L)) (hcalm : held = ∅ → (between flag held r proc status).Calm thread)
    (h : wp thread Q k (between flag held r proc status)) :
    wp thread Q (ops (getCpuProc (Lock L)) ++ k) (between flag held r proc status) :=
  wp_getCpuProc (Nat.lt_trans (between_between.n_lt place) (by decide)) between_between.covers (between_quiet hcalm) h

theorem wp_insideQ (place : Placement (Lock L)) (hb : v.Between) (hq : .qlock ∈ v.held)
    (h : wp thread Q k { v with r := true }) : wp thread Q (insideQ ++ k) v := by
  have hn := hb.n_lt place
  have hpos := Finset.card_pos.mpr ⟨_, hq⟩
  rw [← hb.n] at hpos
  have hr : decide (Lock.qlock ∈ v.held) = true := decide_eq_true hq
  unfold insideQ
  rw [ops, List.map_append, List.append_assoc]
  refine wp_holdingKspinlock (by omega) hb.covers (quiet_of_pos hpos) hb.mine ?_
  rw [hr]
  exact wp_panicIf (by exact Bool.noConfusion) (quiet_of_pos hpos) h

/-! ### The calls of a process -/

/-- `sched` comes back with the process running, and with nothing else changed but the result of `holding_kspinlock`. -/
theorem wp_sched (place : Placement (Lock L)) (hstatus : status ≠ .running)
    (h : wp (some p) Q k (between flag {.qlock} true (some p) .running)) :
    wp (some p) Q (sched ++ k) (between flag {.qlock} r (some p) status) := by
  have hsome : (some p : Option P) ≠ none := Option.some_ne_none p
  unfold sched
  simp only [List.append_assoc]
  refine wp_getCpuProc_between place (fun hnone => absurd hnone (Finset.singleton_ne_empty _)) ⟨hsome, ?_⟩
  exact wp_insideQ place between_between (Finset.mem_singleton_self _)
    ⟨rfl, hsome, hstatus, hsome, rfl, between_meeting, hstatus, h⟩

/-- A process comes back from `sched` and releases `qlock`. -/
theorem wp_sched_release (place : Placement (Lock L)) (hstatus : status ≠ .running)
    (h : wp (some p) Q k (between flag ∅ true (some p) .running)) :
    wp (some p) Q (sched ++ (ops (releaseKspinlock .qlock) ++ k)) (between flag {.qlock} r (some p) status) := by
  refine wp_sched place hstatus ?_
  refine wp_release place (Finset.mem_singleton_self _) (fun _ => between_calm fun _ => rfl) ?_
  rw [Finset.erase_singleton]
  exact h

theorem wp_yield (place : Placement (Lock L)) (h : wp (some p) Q k (between flag ∅ true (some p) .running)) :
    wp (some p) Q (yield ++ k) (between flag ∅ r (some p) .running) := by
  have hsome : (some p : Option P) ≠ none := Option.some_ne_none p
  unfold yield
  simp only [List.append_assoc]
  refine wp_acquire place (Finset.notMem_empty _) (fun _ => between_calm fun _ => rfl) ?_
  refine wp_getCpuProc_between place (fun hnone => absurd hnone (Finset.insert_ne_empty _ _)) ⟨hsome, ?_⟩
  exact ⟨hsome, Nat.succ_pos _, rfl, by decide, by decide, wp_sched_release place (by decide) h⟩

theorem wp_sleep (place : Placement (Lock L)) {chan : C} {lk : L}
    (h : wp (some p) Q k (between flag {.other lk} false (some p) .running)) :
    wp (some p) Q (sleep chan lk ++ k) (between flag {.other lk} r (some p) .running) := by
  have hsome : (some p : Option P) ≠ none := Option.some_ne_none p
  have hcalm : ∀ {held : Finset (Lock L)} {r : Bool}, (between flag held r (some p) .running).Calm (some p) :=
    between_calm fun _ => rfl
  have herase : (insert Lock.qlock {Lock.other lk} : Finset (Lock L)).erase (.other lk) = {.qlock} := by
    rw [Finset.erase_insert_of_ne (qlock_ne lk), Finset.erase_singleton]
    rfl
  unfold sleep
  simp only [List.append_assoc]
  refine wp_getCpuProc_between place (fun _ => hcalm) ⟨hsome, ?_⟩
  refine wp_acquire place (fun hin => qlock_ne lk (Finset.mem_singleton.mp hin)) (fun _ => hcalm) ?_
  refine wp_release place (Finset.mem_insert_of_mem (Finset.mem_singleton_self _)) (fun _ => hcalm) ?_
  rw [herase]
  refine ⟨hsome, Nat.succ_pos _, rfl, wp_sched_release place (by decide) ?_⟩
  exact wp_acquire place (Finset.notMem_empty _) (fun _ => hcalm) h

/-- A call that does something to the queues with `qlock` held -/
theorem wp_inside (place : Placement (Lock L)) {a : Act P L C} (ha : (∃ q, a = .newToReady q) ∨ ∃ c, a = .wakeOne c ∨ a = .wakeAll c)
    (hq : .qlock ∉ held) (hcalm : ∀ {held : Finset (Lock L)} {r : Bool}, (between flag held r thread status).Calm thread)
    (h : wp thread Q k (between flag held true thread status)) :
    wp thread Q (ops (acquireKspinlock .qlock) ++ ([a] ++ (ops (releaseKspinlock .qlock) ++ k)))
      (between flag held r thread status) := by
  have hafter : ∀ r, wp thread Q (ops (releaseKspinlock .qlock) ++ k)
      (between flag (insert .qlock held) r thread status) := fun r => by
    refine wp_release place (Finset.mem_insert_self _ _) (fun _ => hcalm) ?_
    rwa [Finset.erase_insert hq]
  refine wp_acquire place hq (fun _ => hcalm) ?_
  obtain ⟨q, rfl⟩ | ⟨c, rfl | rfl⟩ := ha <;>
    exact ⟨between_between, Finset.mem_insert_self _ _, hcalm, hafter⟩

theorem wp_envExit (place : Placement (Lock L)) (h : wp (some p) Q k (between flag ∅ true (some p) .running)) :
    wp (some p) Q (envExit ++ k) (between flag ∅ r (some p) .running) := by
  have hsome : (some p : Option P) ≠ none := Option.some_ne_none p
  have hcalm : ∀ {held : Finset (Lock L)} {r : Bool}, (between flag held r (some p) .running).Calm (some p) :=
    between_calm fun _ => rfl
  unfold envExit
  simp only [List.append_assoc]
  refine wp_getCpuProc_between place (fun _ => hcalm) ⟨hsome, ?_⟩
  refine wp_holdingKspinlock (by exact Nat.zero_lt_of_lt (by decide : 0 < 2147483647)) (.inl rfl) (fun _ => hcalm) rfl ?_
  refine wp_acquire (r := decide (Lock.qlock ∈ (∅ : Finset (Lock L)))) place (Finset.notMem_empty _) (fun _ => hcalm) ?_
  refine wp_getCpuProc_between place (fun _ => hcalm) ⟨hsome, ?_⟩
  refine wp_insideQ place between_between (Finset.mem_insert_self _ _) ?_
  exact ⟨hsome, Nat.succ_pos _, rfl, by decide, by decide, wp_sched_release place (by decide) h⟩

theorem wp_trapEntry (place : Placement (Lock L)) {user : Bool} (huser : user = true → thread ≠ none)
    (hcalm : ∀ {held : Finset (Lock L)} {r : Bool}, (between false held r thread status).Calm thread)
    (h : wp thread Q k (between false ∅ r thread status)) :
    wp thread Q (trapEntry user ++ k) (between false ∅ r thread status) := by
  unfold trapEntry
  simp only [List.append_assoc]
  refine ⟨.inr rfl, wp_getCpuProc_between place (fun _ => hcalm) ?_⟩
  cases user with
  | false => exact h
  | true =>
    have hcalm : (between false ∅ r thread status).Calm thread := hcalm
    exact ⟨huser rfl, hcalm.running (huser rfl), h⟩

/-- A call that its caller may make ends with the process as it was between two calls. -/
theorem Call.wp_code (place : Placement (Lock L)) {c : Call P L C} (hc : c.Allowed held) :
    wp (some p) (Done (some p)) c.code (between flag held r (some p) .running) := by
  have hcalm : ∀ {flag : Bool} {held : Finset (Lock L)} {r : Bool}, (between flag held r (some p) .running).Calm (some p) :=
    between_calm fun _ => rfl
  have hdone : ∀ flag held r, Done (some p) (between flag held r (some p) .running : View P L) := fun flag held r =>
    ⟨between_between, hcalm, fun hnone => absurd hnone (Option.some_ne_none p)⟩
  cases c with
  | acquire lk =>
    rw [Call.code, ← List.append_nil (ops (acquireKspinlock lk))]
    exact wp_acquire place hc (fun _ => hcalm) (hdone _ _ _)
  | release lk =>
    rw [Call.code, ← List.append_nil (ops (releaseKspinlock lk))]
    exact wp_release place hc (fun _ => hcalm) (hdone _ _ _)
  | sleep chan lk =>
    obtain rfl : held = {.other lk} := hc
    rw [Call.code, ← List.append_nil (Handoff.sleep chan lk)]
    exact wp_sleep place (hdone _ _ _)
  | wakeupOne chan =>
    rw [Call.code, Handoff.wakeupOne, ← List.append_nil (ops (releaseKspinlock _))]
    exact wp_inside place (.inr ⟨chan, .inl rfl⟩) hc hcalm (hdone _ _ _)
  | wakeupAll chan =>
    rw [Call.code, Handoff.wakeupAll, ← List.append_nil (ops (releaseKspinlock _))]
    exact wp_inside place (.inr ⟨chan, .inr rfl⟩) hc hcalm (hdone _ _ _)
  | runEnv q =>
    rw [Call.code, schedRunEnv, ← List.append_nil (ops (releaseKspinlock _))]
    exact wp_inside place (.inl ⟨q, rfl⟩) hc hcalm (hdone _ _ _)
  | exit =>
    obtain rfl : held = ∅ := hc
    rw [Call.code, ← List.append_nil envExit]
    exact wp_envExit place (hdone _ _ _)
  | enter syscall =>
    obtain rfl : held = ∅ := hc
    refine ⟨rfl, wp_trapEntry (r := r) place (fun _ => Option.some_ne_none p) hcalm ?_⟩
    cases syscall with
    | false => exact hdone _ _ _
    | true => exact ⟨rfl, hdone true ∅ r⟩
  | leave =>
    obtain rfl : held = ∅ := hc
    exact ⟨rfl, .inr rfl, rfl, hdone true ∅ r⟩

/-- A new process releases `qlock` and goes to its program. -/
theorem wp_envStart (place : Placement (Lock L)) :
    wp (some p) (Done (some p)) (envStart : List (Act P L C)) (between flag {.qlock} r (some p) .running) := by
  refine wp_release place (Finset.mem_singleton_self _) (fun _ => between_calm fun _ => rfl) ?_
  rw [Finset.erase_singleton]
  exact ⟨rfl, ⟨rfl, rfl⟩, ⟨rfl, fun _ => rfl, rfl⟩, fun hnone => absurd hnone (Option.some_ne_none p)⟩

/-! ### Interrupts -/

section
variable (hcalm : ∀ {held : Finset (Lock L)} {r : Bool}, (between false held r thread status).Calm thread)
include hcalm

theorem wp_envSetPriority (place : Placement (Lock L)) (h : wp thread Q k (between false ∅ true thread status)) :
    wp thread Q (envSetPriority ++ k) (between false ∅ r thread status) := by
  unfold envSetPriority
  simp only [List.append_assoc]
  refine wp_acquire place (Finset.notMem_empty _) (fun _ => hcalm) (wp_getCpuProc_between place (fun _ => hcalm) ?_)
  refine wp_insideQ place between_between (Finset.mem_insert_self _ _) ?_
  refine wp_insideQ place ⟨rfl, rfl⟩ (Finset.mem_insert_self _ _) ?_
  change wp thread Q (ops (releaseKspinlock .qlock) ++ k) (between false (insert .qlock ∅) true thread status)
  refine wp_release place (Finset.mem_insert_self _ _) (fun _ => hcalm) ?_
  rwa [Finset.erase_insert (Finset.notMem_empty _)]

theorem wp_clockInterruptHandler (place : Placement (Lock L)) {promoted : Nat}
    (h : ∀ r, wp thread Q k (between false ∅ r thread status)) :
    wp thread Q (clockInterruptHandler promoted ++ k) (between false ∅ r thread status) := by
  induction promoted generalizing r with
  | zero =>
    unfold clockInterruptHandler
    rw [List.append_assoc]
    exact wp_getCpuProc_between place (fun _ => hcalm) ⟨between_between, rfl, hcalm, h⟩
  | succ promoted ih =>
    unfold clockInterruptHandler
    rw [List.append_assoc]
    exact wp_envSetPriority hcalm place ih

theorem wp_trapIrq (place : Placement (Lock L)) {user : Bool} {clock : Option Nat} (huser : user = true → thread ≠ none)
    (h : ∀ r, wp thread Q k (between false ∅ r thread status)) :
    wp thread Q (trapIrq user clock ++ k) (between false ∅ r thread status) := by
  unfold trapIrq
  simp only [List.append_assoc]
  refine wp_trapEntry place huser hcalm ?_
  cases clock with
  | none => exact ⟨.inr rfl, h r⟩
  | some promoted => exact wp_clockInterruptHandler hcalm place fun r => ⟨.inr rfl, h r⟩

end

/-- An interrupt: the code that it comes into goes on as if nothing had happened. -/
theorem wp_interrupt (place : Placement (Lock L)) (user : Bool) (clock : Option Nat) (huser : user = true → thread ≠ none)
    (hb : v.Between) (hheld : v.held = ∅) (hcalm : v.Calm thread) (hflag : v.flag = true) (h : wp thread Q k v) :
    wp thread Q (trapIrq user clock ++ (.iret v.r :: k)) { v with flag := false } := by
  have heq := eq_between hb hcalm
  have hrunning := hcalm.running
  rw [hheld, hflag] at heq
  rw [heq] at h
  have heq' : { v with flag := false } = between false ∅ v.r thread v.status := by rw [heq]; rfl
  rw [heq']
  exact wp_trapIrq (between_calm hrunning) place huser fun r => ⟨rfl, h⟩

/-! ### The scheduler -/

section
variable {Q : View P L → Prop}

theorem wp_outerLoop (place : Placement (Lock L)) :
    wp none Q (outerLoop : List (Act P L C)) (between flag ∅ r none status) := by
  have hnext : wp none Q ([.schedNext] : List (Act P L C)) (between true (insert (.qlock : Lock L) ∅) false none status) :=
    ⟨rfl, between_meeting, fun h => absurd rfl h⟩
  exact ⟨rfl, wp_acquire place (Finset.notMem_empty _) (fun _ => calm_none) hnext⟩

/-- From the prompt to the first choice of the scheduler -/
theorem wp_command (place : Placement (Lock L)) :
    wp none Q (schedRunEnv p ++ fosScheduler : List (Act P L C)) (between false ∅ r none status) := by
  unfold schedRunEnv
  simp only [List.append_assoc]
  refine wp_inside place (.inl ⟨p, rfl⟩) (Finset.notMem_empty _) calm_none ?_
  exact ⟨.inr rfl, rfl, .inl rfl, wp_outerLoop place⟩

theorem wp_noNext (place : Placement (Lock L)) {isAnyBlocked : Bool} :
    wp none Q (noNext isAnyBlocked : List (Act P L C)) (between flag {.qlock} r none status) := by
  refine wp_release place (Finset.mem_singleton_self _) (fun _ => calm_none) ?_
  rw [Finset.erase_singleton]
  cases isAnyBlocked with
  | false => exact ⟨rfl, between_between, rfl, rfl⟩
  | true => exact wp_outerLoop place

/-- The scheduler with a process that has given the CPU back -/
theorem wp_returned (place : Placement (Lock L)) (hstatus : status ≠ .running) :
    wp none Q (returned : List (Act P L C)) (between flag {.qlock} r (some p) status) := by
  have hsome : (some p : Option P) ≠ none := Option.some_ne_none p
  refine wp_insideQ place between_between (Finset.mem_singleton_self _) ?_
  refine wp_getCpuProc_between (r := true) place (fun hnone => absurd hnone (Finset.singleton_ne_empty _)) ?_
  exact ⟨rfl, between_meeting, hsome, hstatus, fun hready => ⟨rfl, between_meeting, fun _ => hready⟩, rfl, between_meeting,
    fun h => absurd rfl h⟩

/-- `set_cpu_proc` and `switchuvm` -/
theorem wp_setProc (hm : v.Meeting) (hproc : v.proc = none ∨ v.status ≠ .running) (hnext : v.next = some p)
    (h : wp none Q k { v with proc := some p, status := .ready }) :
    wp none Q ([.op .pushcli, .setProc (some p), .op .popcli] ++ k) v := by
  have hn := hm.n
  refine wp_pushcli (by omega) ⟨rfl, hproc, Nat.succ_pos _, hnext, ?_⟩
  exact wp_popcli (n := v.n) rfl (by omega) (.inr (by omega)) (quiet_of_pos (show 0 < v.n by omega)) h

/-- From the choice of a ready process to the next choice -/
theorem wp_dispatch (place : Placement (Lock L)) (hm : v.Meeting) (hproc : v.proc = none ∨ v.status ≠ .running)
    (hnext : v.next = some p) : wp none Q (dispatch p : List (Act P L C)) v := by
  have hn := hm.n
  have hready : (Cpu.EnvStatus.ready : Cpu.EnvStatus) ≠ .running := by decide
  refine wp_setProc hm hproc hnext (wp_setProc ⟨hm.n, hm.held, hm.mine⟩ (.inr hready) hnext ?_)
  refine ⟨show 0 < v.n by omega, rfl, rfl, rfl, ⟨hm.n, hm.held, hm.mine⟩, rfl, rfl, rfl, fun flag r st hst => ?_⟩
  have heq : (⟨flag, v.n, v.held, v.mine, r, some p, st, none⟩ : View P L) = between flag {.qlock} r (some p) st := by
    rw [hm.n, hm.held, hm.mine]
    rfl
  change wp none Q returned ⟨flag, v.n, v.held, v.mine, r, some p, st, none⟩
  rw [heq]
  exact wp_returned place hst

end

end Fos.Handoff
