import Fos.Conc.Channel
import Fos.Types
import Mathlib.Data.Finset.Card

/-! Kernel semaphores (`kern/conc/ksemaphore.c`) under any interleaving of their callers. The state holds
    the semaphore, its channel and the place of every process in the code; the counters of calls are
    histories that the code does not have. -/

namespace Fos.Conc
open Lib

/-- Where a process is: outside, in `wait_ksemaphore` or in `signal_ksemaphore`. -/
inductive SemPc where
  | idle
  | waitAcquire
  | waitDecrement
  | waitTest
  | waitSleep (at_ : SleepPc)
  | waitRelease
  | signalAcquire
  | signalIncrement
  | signalTest
  | signalWakeup (at_ : WakePc)
  | signalRelease
  deriving DecidableEq, Repr

structure Ksemaphore (P : Type) where
  count : Int
  chan : Channel P := {}
  pc : P → SemPc := fun _ => .idle
  /-- Calls of `wait_ksemaphore` made. -/
  waitsBegun : Nat := 0
  decrements : Nat := 0
  /-- Waits that went on without blocking. -/
  immediate : Nat := 0
  increments : Nat := 0
  /-- Calls of `signal_ksemaphore` that have returned. -/
  signalsDone : Nat := 0

inductive SemEvent (P : Type) where
  | callWait (p : P)
  | callSignal (p : P)
  /-- `p` executes its next step. -/
  | run (p : P)
  deriving DecidableEq, Repr

variable {P : Type} [DecidableEq P]

namespace Ksemaphore

/-- `init_ksemaphore(ksem, value, name)` -/
def initKsemaphore (value : Int) : Ksemaphore P := { count := value }

def goto (s : Ksemaphore P) (p : P) (pc : SemPc) : Ksemaphore P := { s with pc := Function.update s.pc p pc }

/-- The next step of `p`, which is at `at_`. -/
def runStep (s : Ksemaphore P) (p : P) : SemPc → Option (Ksemaphore P)
  | .idle => none
  | .waitAcquire => (s.chan.acquireGuard p).map fun c => { s with chan := c }.goto p .waitDecrement
  | .waitDecrement =>
    some ({ s with count := int32 (s.count - 1), decrements := s.decrements + 1 }.goto p .waitTest)
  | .waitTest =>
    if s.count < 0 then some (s.goto p (.waitSleep .acquireQ))
    else some ({ s with immediate := s.immediate + 1 }.goto p .waitRelease)
  | .waitSleep at_ => (s.chan.sleepStep p at_).map fun (c, next) =>
    { s with chan := c }.goto p (next.elim .waitRelease .waitSleep)
  | .waitRelease => (s.chan.releaseGuard p).map fun c => { s with chan := c }.goto p .idle
  | .signalAcquire => (s.chan.acquireGuard p).map fun c => { s with chan := c }.goto p .signalIncrement
  | .signalIncrement =>
    some ({ s with count := int32 (s.count + 1), increments := s.increments + 1 }.goto p .signalTest)
  | .signalTest =>
    if s.count ≤ 0 then some (s.goto p (.signalWakeup .acquireQ)) else some (s.goto p .signalRelease)
  | .signalWakeup at_ => (s.chan.wakeupOneStep p at_).map fun (c, next) =>
    { s with chan := c }.goto p (next.elim .signalRelease .signalWakeup)
  | .signalRelease => (s.chan.releaseGuard p).map fun c =>
    { s with chan := c, signalsDone := s.signalsDone + 1 }.goto p .idle

def step (s : Ksemaphore P) : SemEvent P → Option (Ksemaphore P)
  | .callWait p =>
    if s.pc p = .idle then some ({ s with waitsBegun := s.waitsBegun + 1 }.goto p .waitAcquire) else none
  | .callSignal p => if s.pc p = .idle then some (s.goto p .signalAcquire) else none
  | .run p => s.runStep p (s.pc p)

/-- Waits that need not block, or were woken by a signal. -/
def granted (s : Ksemaphore P) : Nat := s.immediate + s.chan.wokenLog.length

/-- Waits begun and not granted. -/
def pending (s : Ksemaphore P) : Int := (s.waitsBegun : Int) - s.granted

/-- The steps of the runs that stay in the range of `count`: fewer than `2^31` waits are pending, and no
    signal increments a count of `INT_MAX`. -/
def InRange (s : Ksemaphore P) (e : SemEvent P) : Prop :=
  s.pending < 2147483648 ∧ ∀ p, e = .run p → s.pc p = .signalIncrement → s.count < 2147483647

end Ksemaphore

/-! ### What each place in the code holds -/

namespace SemPc

def holdsGuard : SemPc → Bool
  | .idle | .waitAcquire | .signalAcquire => false
  | .waitSleep at_ => at_.holdsGuard
  | _ => true

def holdsQ : SemPc → Bool
  | .waitSleep at_ => at_.holdsQ
  | .signalWakeup at_ => at_.holdsQ
  | _ => false

/-- What the holder of the guard still has to change in the queue: it will enqueue itself (1), or it will
    dequeue a process (-1). -/
def owes (count : Int) : SemPc → Int
  | .waitTest => if count < 0 then 1 else 0
  | .waitSleep .acquireQ | .waitSleep .releaseGuard => 1
  | .signalTest => if count ≤ 0 then -1 else 0
  | .signalWakeup .acquireQ | .signalWakeup .dequeue => -1
  | _ => 0

/-- The process holds `qlock` and will enqueue itself. -/
def enters : SemPc → Int
  | .waitSleep at_ => if at_.entering then 1 else 0
  | _ => 0

/-- The holder of the guard has decremented the count and is neither granted nor about to enter. -/
def undecided : SemPc → Int
  | .waitTest | .waitSleep .acquireQ | .waitSleep .releaseGuard => 1
  | _ => 0

/-- The holder of the guard has incremented the count and its signal has not returned. -/
def signals : SemPc → Int
  | .signalTest | .signalWakeup _ | .signalRelease => 1
  | _ => 0

/-- The holder of the guard found that the count is not positive and is about to wake a process. -/
def wakes : SemPc → Bool
  | .signalWakeup .acquireQ | .signalWakeup .dequeue => true
  | _ => false

/-- The call of `wait_ksemaphore` has not decremented the count. -/
def arriving : SemPc → Bool
  | .waitAcquire | .waitDecrement => true
  | _ => false

end SemPc

/-! ### The invariant -/

namespace Ksemaphore

/-- What every interleaving keeps of a semaphore initialised with `n`. -/
structure Inv (n : Nat) (s : Ksemaphore P) : Prop where
  guard : Holder SemPc.holdsGuard s.pc s.chan.guard
  qlock : Holder SemPc.holdsQ s.pc s.chan.qlock
  value : s.count = n + s.increments - s.decrements
  bound : s.count < 2147483648
  /-- The queue has `max(0, -count)` processes, up to what the holders of the locks are about to do. -/
  queue : (s.chan.queue.length : Int) + atHolder (SemPc.owes s.count) s.chan.guard s.pc +
    atHolder SemPc.enters s.chan.qlock s.pc = max 0 (-s.count)
  log : s.chan.blockedLog = s.chan.wokenLog ++ s.chan.queue.reverse
  decided : (s.decrements : Int) = s.immediate + s.chan.blockedLog.length +
    atHolder SemPc.undecided s.chan.guard s.pc + atHolder SemPc.enters s.chan.qlock s.pc
  waking : ∀ p, (s.pc p).wakes = true → s.count ≤ 0
  done : (s.signalsDone : Int) + atHolder SemPc.signals s.chan.guard s.pc = s.increments
  begun : ∃ A : Finset P, (∀ p, p ∈ A ↔ (s.pc p).arriving = true) ∧ s.waitsBegun = s.decrements + A.card

theorem owes_of_free (count : Int) (y : SemPc) (h : y.holdsGuard = false) : y.owes count = 0 := by
  cases y with
  | waitSleep at_ => cases at_ <;> first | rfl | cases h
  | _ => first | rfl | cases h

theorem undecided_of_free (y : SemPc) (h : y.holdsGuard = false) : y.undecided = 0 := by
  cases y with
  | waitSleep at_ => cases at_ <;> first | rfl | cases h
  | _ => first | rfl | cases h

theorem signals_of_free (y : SemPc) (h : y.holdsGuard = false) : y.signals = 0 := by
  cases y with
  | waitSleep at_ => rfl
  | _ => first | rfl | cases h

theorem enters_of_free (y : SemPc) (h : y.holdsQ = false) : y.enters = 0 := by
  cases y with
  | waitSleep at_ => cases at_ <;> first | rfl | cases h
  | _ => rfl

omit [DecidableEq P] in
theorem inv_init {n : Nat} (hn : n < 2147483648) : Inv n (initKsemaphore n : Ksemaphore P) where
  guard := fun q => by simp [initKsemaphore, SemPc.holdsGuard]
  qlock := fun q => by simp [initKsemaphore, SemPc.holdsQ]
  value := by simp [initKsemaphore]
  bound := by
    show (n : Int) < _
    omega
  queue := by simp [initKsemaphore]
  log := by simp [initKsemaphore]
  decided := by simp [initKsemaphore]
  waking := fun p hp => by simp [initKsemaphore, SemPc.wakes] at hp
  done := by simp [initKsemaphore]
  begun := ⟨∅, by simp [initKsemaphore, SemPc.arriving], by simp [initKsemaphore]⟩

variable {n : Nat} {s t : Ksemaphore P} {p : P} {x y : SemPc}

/-- A step of `p` from `y` to `x` that leaves the count keeps the invariant, when what it does to the queue
    and the histories is what `y` owed more than `x`. -/
theorem Inv.move (h : Inv n s) (hp : s.pc p = y) (hpc : t.pc = Function.update s.pc p x)
    (hguard : Holder SemPc.holdsGuard (Function.update s.pc p x) t.chan.guard)
    (hqlock : Holder SemPc.holdsQ (Function.update s.pc p x) t.chan.qlock)
    (hsame : t.count = s.count ∧ t.decrements = s.decrements ∧ t.increments = s.increments ∧
      t.waitsBegun = s.waitsBegun)
    (harr : x.arriving = y.arriving) (hlog : t.chan.blockedLog = t.chan.wokenLog ++ t.chan.queue.reverse)
    (hqueue : (t.chan.queue.length : Int) + x.owes s.count + x.enters =
      s.chan.queue.length + y.owes s.count + y.enters)
    (hdecided : (t.immediate : Int) + t.chan.blockedLog.length + x.undecided + x.enters =
      s.immediate + s.chan.blockedLog.length + y.undecided + y.enters)
    (hdone : (t.signalsDone : Int) + x.signals = s.signalsDone + y.signals)
    (hwaking : x.wakes = true → s.count ≤ 0) : Inv n t := by
  subst hp
  obtain ⟨hcount, hdec, hinc, hbegun⟩ := hsame
  have howes := h.guard.atHolder_update (owes_of_free s.count) hguard
  have hund := h.guard.atHolder_update undecided_of_free hguard
  have hsig := h.guard.atHolder_update signals_of_free hguard
  have hent := h.qlock.atHolder_update enters_of_free hqlock
  have := h.queue
  have := h.decided
  have := h.done
  refine ⟨hpc ▸ hguard, hpc ▸ hqlock, ?_, hcount ▸ h.bound, ?_, hlog, ?_, ?_, ?_, ?_⟩
  · rw [hcount, hdec, hinc]
    exact h.value
  · rw [hpc, hcount, howes, hent]
    omega
  · rw [hpc, hdec, hund, hent]
    omega
  · intro q
    rw [hpc, hcount]
    by_cases hq : q = p
    · subst hq
      rw [Function.update_self]
      exact hwaking
    · rw [Function.update_of_ne hq]
      exact h.waking q
  · rw [hpc, hinc, hsig]
    omega
  · obtain ⟨A, hA, hcard⟩ := h.begun
    refine ⟨A, fun q => ?_, by rw [hbegun, hdec, hcard]⟩
    rw [hpc, hA q]
    by_cases hq : q = p
    · subst hq
      rw [Function.update_self, harr]
    · rw [Function.update_of_ne hq]

/-- A step that changes only locks, `env_status` and `env->channel`, between places that owe the same. -/
theorem Inv.quiet (h : Inv n s) (hp : s.pc p = y) {c : Channel P}
    (hguard : Holder SemPc.holdsGuard (Function.update s.pc p x) c.guard)
    (hqlock : Holder SemPc.holdsQ (Function.update s.pc p x) c.qlock)
    (hsame : c.queue = s.chan.queue ∧ c.blockedLog = s.chan.blockedLog ∧ c.wokenLog = s.chan.wokenLog)
    (harr : x.arriving = y.arriving) (howes : x.owes s.count + x.enters = y.owes s.count + y.enters)
    (hund : x.undecided + x.enters = y.undecided + y.enters) (hsig : x.signals = y.signals)
    (hwaking : x.wakes = true → s.count ≤ 0) :
    Inv n ({ s with chan := c }.goto p x) := by
  obtain ⟨hq, hb, hw⟩ := hsame
  refine h.move hp rfl hguard hqlock ⟨rfl, rfl, rfl, rfl⟩ harr ?_ ?_ ?_ ?_ hwaking
  · show c.blockedLog = c.wokenLog ++ c.queue.reverse
    rw [hq, hb, hw]
    exact h.log
  · show (c.queue.length : Int) + x.owes s.count + x.enters = _
    rw [hq]
    omega
  · show (s.immediate : Int) + c.blockedLog.length + x.undecided + x.enters = _
    rw [hb]
    omega
  · show (s.signalsDone : Int) + x.signals = _
    rw [hsig]

/-! ### Every step keeps it -/

theorem Inv.sleepStep (h : Inv n s) {at_ : SleepPc} (hp : s.pc p = .waitSleep at_) {c : Channel P}
    {next : Option SleepPc} (hs : s.chan.sleepStep p at_ = some (c, next)) :
    Inv n ({ s with chan := c }.goto p (next.elim .waitRelease .waitSleep)) := by
  have hG := h.guard
  have hQ := h.qlock
  cases at_ with
  | acquireQ =>
    obtain ⟨hfree, rfl, rfl⟩ := Channel.sleep_acquireQ hs
    exact h.quiet hp (hG.keep hp rfl) (hQ.acquire hfree rfl) ⟨rfl, rfl, rfl⟩ rfl rfl rfl rfl nofun
  | releaseGuard =>
    obtain ⟨hheld, rfl, rfl⟩ := Channel.sleep_releaseGuard hs
    exact h.quiet hp (hG.release hheld rfl) (hQ.keep hp rfl) ⟨rfl, rfl, rfl⟩ rfl rfl rfl rfl nofun
  | block =>
    cases hs
    exact h.quiet hp (hG.keep hp rfl) (hQ.keep hp rfl) ⟨rfl, rfl, rfl⟩ rfl rfl rfl rfl nofun
  | enqueue =>
    cases hs
    refine h.move hp rfl (hG.keep hp rfl) (hQ.keep hp rfl) ⟨rfl, rfl, rfl, rfl⟩ rfl ?_ ?_ ?_ rfl nofun
    · simp [goto, h.log]
    · simp [goto, SemPc.owes, SemPc.enters, SleepPc.entering]
    · simp [goto, SemPc.undecided, SemPc.enters, SleepPc.entering]
      omega
  | sched =>
    obtain ⟨hheld, rfl, rfl⟩ := Channel.sleep_sched hs
    exact h.quiet hp (hG.keep hp rfl) (hQ.release hheld rfl) ⟨rfl, rfl, rfl⟩ rfl rfl rfl rfl nofun
  | parked =>
    obtain ⟨-, hfree, rfl, rfl⟩ := Channel.sleep_parked hs
    exact h.quiet hp (hG.keep hp rfl) (hQ.acquire hfree rfl) ⟨rfl, rfl, rfl⟩ rfl rfl rfl rfl nofun
  | releaseQ =>
    obtain ⟨hheld, rfl, rfl⟩ := Channel.sleep_releaseQ hs
    exact h.quiet hp (hG.keep hp rfl) (hQ.release hheld rfl) ⟨rfl, rfl, rfl⟩ rfl rfl rfl rfl nofun
  | reacquireGuard =>
    obtain ⟨hfree, rfl, rfl⟩ := Channel.sleep_reacquireGuard hs
    exact h.quiet hp (hG.acquire hfree rfl) (hQ.keep hp rfl) ⟨rfl, rfl, rfl⟩ rfl rfl rfl rfl nofun
  | clearChannel =>
    cases hs
    exact h.quiet hp (hG.keep hp rfl) (hQ.keep hp rfl) ⟨rfl, rfl, rfl⟩ rfl rfl rfl rfl nofun

theorem Inv.wakeupOneStep (h : Inv n s) {at_ : WakePc} (hp : s.pc p = .signalWakeup at_) {c : Channel P}
    {next : Option WakePc} (hs : s.chan.wakeupOneStep p at_ = some (c, next)) :
    Inv n ({ s with chan := c }.goto p (next.elim .signalRelease .signalWakeup)) := by
  have hG := h.guard
  have hQ := h.qlock
  cases at_ with
  | acquireQ =>
    obtain ⟨hfree, rfl, rfl⟩ := Channel.wakeup_acquireQ hs
    exact h.quiet hp (hG.keep hp rfl) (hQ.acquire hfree rfl) ⟨rfl, rfl, rfl⟩ rfl rfl rfl rfl
      fun _ => h.waking p (by rw [hp]; rfl)
  | dequeue =>
    have hguard : s.chan.guard = some p := (hG p).mp (by rw [hp]; rfl)
    have hqlock : s.chan.qlock = some p := (hQ p).mp (by rw [hp]; rfl)
    have hqueue := h.queue
    rw [hguard, hqlock, atHolder_some, atHolder_some, hp] at hqueue
    cases hs
    cases hw : s.chan.wake with
    -- A wakeup that finds the queue empty would leave the queue one short of the processes it owes.
    | none =>
      rw [Channel.wake_eq_none.mp hw] at hqueue
      simp only [SemPc.owes, SemPc.enters, List.length_nil] at hqueue
      omega
    | some c =>
      obtain ⟨w, q, hq, hq', hg, hl, hwoken, hblocked⟩ := Channel.wake_eq_some hw
      rw [Option.getD_some]
      refine h.move hp rfl ?_ ?_ ⟨rfl, rfl, rfl, rfl⟩ rfl ?_ ?_ ?_ rfl nofun
      · show Holder _ _ c.guard
        rw [hg]
        exact hG.keep hp rfl
      · show Holder _ _ c.qlock
        rw [hl]
        exact hQ.keep hp rfl
      · show c.blockedLog = c.wokenLog ++ c.queue.reverse
        rw [hblocked, h.log, hwoken, hq, hq']
        simp
      · show (c.queue.length : Int) + _ + _ = _
        rw [hq, hq']
        simp only [Option.elim_some, SemPc.owes, SemPc.enters, List.length_append, List.length_singleton]
        omega
      · show (s.immediate : Int) + c.blockedLog.length + _ + _ = _
        rw [hblocked]
        rfl
  | releaseQ =>
    obtain ⟨hheld, rfl, rfl⟩ := Channel.wakeup_releaseQ hs
    exact h.quiet hp (hG.keep hp rfl) (hQ.release hheld rfl) ⟨rfl, rfl, rfl⟩ rfl rfl rfl rfl nofun

omit [DecidableEq P] in
/-- The magnitude of a negative count is bounded by the waits that are pending and have decremented it. -/
theorem Inv.neg_count_le (h : Inv n s) (hp : s.pc p = y) (hg : y.holdsGuard = true) (hu : y.undecided = 0)
    (ho : y.owes s.count = 0) : -s.count ≤ s.decrements - s.granted := by
  have hguard : s.chan.guard = some p := (h.guard p).mp (by rw [hp, hg])
  have hqueue := h.queue
  have hdecided := h.decided
  have hlog := congrArg List.length h.log
  rw [hguard, atHolder_some, hp, ho] at hqueue
  rw [hguard, atHolder_some, hp, hu] at hdecided
  simp only [List.length_append, List.length_reverse] at hlog
  simp only [granted]
  omega

omit [DecidableEq P] in
/-- Only the holder of the guard can be about to wake a process. -/
theorem Inv.wakes_holder (h : Inv n s) {q : P} (hg : s.chan.guard = some p) (hq : (s.pc q).wakes = true) : q = p := by
  have : (s.pc q).holdsGuard = true := by
    cases hpc : s.pc q with
    | signalWakeup _ => rfl
    | _ =>
      rw [hpc] at hq
      cases hq
  have := ((h.guard q).mp this).symm.trans hg
  exact Option.some.inj this

/-- `ksem->count--` -/
theorem Inv.decrement (h : Inv n s) (hp : s.pc p = .waitDecrement) (hr : s.pending < 2147483648) :
    Inv n ({ s with count := int32 (s.count - 1), decrements := s.decrements + 1 }.goto p .waitTest) := by
  have hneg := h.neg_count_le hp rfl rfl rfl
  have hbound := h.bound
  obtain ⟨A, hA, hcard⟩ := h.begun
  have hpA : p ∈ A := (hA p).mpr (by rw [hp]; rfl)
  have hpos : 0 < A.card := Finset.card_pos.mpr ⟨p, hpA⟩
  have hcount : int32 (s.count - 1) = s.count - 1 := by
    simp only [pending, hcard] at hr
    exact int32_eq (by omega) (by omega)
  have hguard : s.chan.guard = some p := (h.guard p).mp (by rw [hp]; rfl)
  have hG : Holder SemPc.holdsGuard (Function.update s.pc p .waitTest) s.chan.guard := h.guard.keep hp rfl
  have hQ : Holder SemPc.holdsQ (Function.update s.pc p .waitTest) s.chan.qlock := h.qlock.keep hp rfl
  have hent := h.qlock.atHolder_update enters_of_free hQ
  rw [hp] at hent
  have hqueue := h.queue
  have hdecided := h.decided
  have hdone := h.done
  rw [hguard, atHolder_some, hp] at hqueue hdecided hdone
  rw [hcount]
  refine ⟨hG, hQ, ?_, ?_, ?_, h.log, ?_, fun q hq => ?_, ?_, A.erase p, fun q => ?_, ?_⟩
  · have := h.value
    simp only [goto]
    omega
  · simp only [goto]
    omega
  · simp only [goto, hent, hguard, atHolder_some, Function.update_self, SemPc.owes, SemPc.enters] at hqueue ⊢
    split <;> omega
  · simp only [goto, hent, hguard, atHolder_some, Function.update_self, SemPc.undecided, SemPc.enters] at hdecided ⊢
    omega
  · have hqp : q ≠ p := fun hqp => by simp [goto, hqp, SemPc.wakes] at hq
    simp only [goto, Function.update_of_ne hqp] at hq
    exact absurd (h.wakes_holder hguard hq) hqp
  · simp only [goto, hguard, atHolder_some, Function.update_self, SemPc.signals] at hdone ⊢
    omega
  · by_cases hq : q = p
    · simp [goto, hq, SemPc.arriving]
    · simp [goto, hq, hA q]
  · simp only [goto, Finset.card_erase_of_mem hpA, hcard]
    omega

/-- `ksem->count++` -/
theorem Inv.increment (h : Inv n s) (hp : s.pc p = .signalIncrement) (hr : s.pending < 2147483648)
    (hmax : s.count < 2147483647) :
    Inv n ({ s with count := int32 (s.count + 1), increments := s.increments + 1 }.goto p .signalTest) := by
  have hneg := h.neg_count_le hp rfl rfl rfl
  obtain ⟨A, hA, hcard⟩ := h.begun
  have hcount : int32 (s.count + 1) = s.count + 1 := by
    simp only [pending, hcard] at hr
    exact int32_eq (by omega) (by omega)
  have hguard : s.chan.guard = some p := (h.guard p).mp (by rw [hp]; rfl)
  have hG : Holder SemPc.holdsGuard (Function.update s.pc p .signalTest) s.chan.guard := h.guard.keep hp rfl
  have hQ : Holder SemPc.holdsQ (Function.update s.pc p .signalTest) s.chan.qlock := h.qlock.keep hp rfl
  have hent := h.qlock.atHolder_update enters_of_free hQ
  rw [hp] at hent
  have hqueue := h.queue
  have hdecided := h.decided
  have hdone := h.done
  rw [hguard, atHolder_some, hp] at hqueue hdecided hdone
  rw [hcount]
  refine ⟨hG, hQ, ?_, ?_, ?_, h.log, ?_, fun q hq => ?_, ?_, A, fun q => ?_, hcard⟩
  · have := h.value
    simp only [goto]
    omega
  · simp only [goto]
    omega
  · simp only [goto, hent, hguard, atHolder_some, Function.update_self, SemPc.owes, SemPc.enters] at hqueue ⊢
    split <;> omega
  · simp only [goto, hent, hguard, atHolder_some, Function.update_self, SemPc.undecided, SemPc.enters] at hdecided ⊢
    omega
  · have hqp : q ≠ p := fun hqp => by simp [goto, hqp, SemPc.wakes] at hq
    simp only [goto, Function.update_of_ne hqp] at hq
    exact absurd (h.wakes_holder hguard hq) hqp
  · simp only [goto, hguard, atHolder_some, Function.update_self, SemPc.signals] at hdone ⊢
    omega
  · by_cases hq : q = p
    · simp [goto, hq, hA p, hp, SemPc.arriving]
    · simp [goto, hq, hA q]

theorem Inv.runStep (h : Inv n s) (hr : InRange s (.run p)) (hs : s.runStep p (s.pc p) = some t) : Inv n t := by
  have hG := h.guard
  have hQ := h.qlock
  cases hp : s.pc p with
  | idle =>
    rw [hp] at hs
    cases hs
  | waitAcquire =>
    rw [hp] at hs
    obtain ⟨c, hc, rfl⟩ := Option.map_eq_some_iff.mp hs
    obtain ⟨hfree, rfl⟩ := Channel.acquireGuard_eq_some.mp hc
    exact h.quiet hp (hG.acquire hfree rfl) (hQ.keep hp rfl) ⟨rfl, rfl, rfl⟩ rfl rfl rfl rfl nofun
  | waitDecrement =>
    rw [hp] at hs
    cases hs
    exact h.decrement hp hr.1
  | waitTest =>
    rw [hp] at hs
    simp only [Ksemaphore.runStep] at hs
    split at hs
    case isTrue hneg =>
      cases hs
      exact h.quiet hp (hG.keep hp rfl) (hQ.keep hp rfl) ⟨rfl, rfl, rfl⟩ rfl
        (by simp [SemPc.owes, SemPc.enters, SleepPc.entering, hneg]) rfl rfl nofun
    case isFalse hpos =>
      cases hs
      refine h.move hp rfl (hG.keep hp rfl) (hQ.keep hp rfl) ⟨rfl, rfl, rfl, rfl⟩ rfl h.log ?_ ?_ rfl nofun
      · simp [goto, SemPc.owes, SemPc.enters, hpos]
      · simp only [goto, SemPc.undecided, SemPc.enters]
        omega
  | waitSleep at_ =>
    rw [hp] at hs
    obtain ⟨⟨c, next⟩, hc, rfl⟩ := Option.map_eq_some_iff.mp hs
    exact h.sleepStep hp hc
  | waitRelease =>
    rw [hp] at hs
    obtain ⟨c, hc, rfl⟩ := Option.map_eq_some_iff.mp hs
    obtain ⟨hheld, rfl⟩ := Channel.releaseGuard_eq_some.mp hc
    exact h.quiet hp (hG.release hheld rfl) (hQ.keep hp rfl) ⟨rfl, rfl, rfl⟩ rfl rfl rfl rfl nofun
  | signalAcquire =>
    rw [hp] at hs
    obtain ⟨c, hc, rfl⟩ := Option.map_eq_some_iff.mp hs
    obtain ⟨hfree, rfl⟩ := Channel.acquireGuard_eq_some.mp hc
    exact h.quiet hp (hG.acquire hfree rfl) (hQ.keep hp rfl) ⟨rfl, rfl, rfl⟩ rfl rfl rfl rfl nofun
  | signalIncrement =>
    rw [hp] at hs
    cases hs
    exact h.increment hp hr.1 (hr.2 p rfl hp)
  | signalTest =>
    rw [hp] at hs
    simp only [Ksemaphore.runStep] at hs
    split at hs
    case isTrue hneg =>
      cases hs
      exact h.quiet hp (hG.keep hp rfl) (hQ.keep hp rfl) ⟨rfl, rfl, rfl⟩ rfl
        (by simp [SemPc.owes, SemPc.enters, hneg]) rfl rfl fun _ => hneg
    case isFalse hpos =>
      cases hs
      exact h.quiet hp (hG.keep hp rfl) (hQ.keep hp rfl) ⟨rfl, rfl, rfl⟩ rfl
        (by simp [SemPc.owes, SemPc.enters, hpos]) rfl rfl nofun
  | signalWakeup at_ =>
    rw [hp] at hs
    obtain ⟨⟨c, next⟩, hc, rfl⟩ := Option.map_eq_some_iff.mp hs
    exact h.wakeupOneStep hp hc
  | signalRelease =>
    rw [hp] at hs
    obtain ⟨c, hc, rfl⟩ := Option.map_eq_some_iff.mp hs
    obtain ⟨hheld, rfl⟩ := Channel.releaseGuard_eq_some.mp hc
    exact h.move hp rfl (hG.release hheld rfl) (hQ.keep hp rfl) ⟨rfl, rfl, rfl, rfl⟩ rfl h.log rfl rfl
      (by simp [goto, SemPc.signals]) nofun

/-- A call of `wait_ksemaphore` only adds to the waits begun. -/
theorem Inv.callWait (h : Inv n s) (hp : s.pc p = .idle) :
    Inv n ({ s with waitsBegun := s.waitsBegun + 1 }.goto p .waitAcquire) := by
  have hG : Holder SemPc.holdsGuard (Function.update s.pc p .waitAcquire) s.chan.guard := h.guard.keep hp rfl
  have hQ : Holder SemPc.holdsQ (Function.update s.pc p .waitAcquire) s.chan.qlock := h.qlock.keep hp rfl
  have howes := h.guard.atHolder_update (owes_of_free s.count) hG
  have hund := h.guard.atHolder_update undecided_of_free hG
  have hsig := h.guard.atHolder_update signals_of_free hG
  have hent := h.qlock.atHolder_update enters_of_free hQ
  rw [hp] at howes hund hsig hent
  have hqueue := h.queue
  have hdecided := h.decided
  have hdone := h.done
  obtain ⟨A, hA, hcard⟩ := h.begun
  have hpA : p ∉ A := fun hpA => by simpa [hp, SemPc.arriving] using (hA p).mp hpA
  refine ⟨hG, hQ, h.value, h.bound, ?_, h.log, ?_, fun q hq => ?_, ?_, insert p A, fun q => ?_, ?_⟩
  · simp only [goto, howes, hent, SemPc.owes, SemPc.enters]
    omega
  · simp only [goto, hund, hent, SemPc.undecided, SemPc.enters]
    omega
  · have hqp : q ≠ p := fun hqp => by simp [goto, hqp, SemPc.wakes] at hq
    simp only [goto, Function.update_of_ne hqp] at hq
    exact h.waking q hq
  · simp only [goto, hsig, SemPc.signals]
    omega
  · by_cases hq : q = p
    · simp [goto, hq, SemPc.arriving]
    · simp [goto, hq, hA q]
  · simp only [goto, Finset.card_insert_of_notMem hpA, hcard]
    omega

theorem Inv.step {e : SemEvent P} (h : Inv n s) (hr : InRange s e) (hs : s.step e = some t) : Inv n t := by
  cases e with
  | callWait p =>
    simp only [Ksemaphore.step, Option.ite_none_right_eq_some] at hs
    obtain ⟨hp, hs⟩ := hs
    cases hs
    exact h.callWait hp
  | callSignal p =>
    simp only [Ksemaphore.step, Option.ite_none_right_eq_some] at hs
    obtain ⟨hp, hs⟩ := hs
    cases hs
    exact h.quiet hp (h.guard.keep hp rfl) (h.qlock.keep hp rfl) ⟨rfl, rfl, rfl⟩ rfl rfl rfl rfl nofun
  | run p => exact h.runStep hr hs

theorem Inv.reach (hn : n < 2147483648) (hr : Reach Ksemaphore.step InRange (initKsemaphore n) s) : Inv n s :=
  hr.invariant (inv_init hn) fun _ _ _ h hok hs => h.step hok hs

/-! ### What it says of the semaphore -/

theorem owes_le_undecided (count : Int) (y : SemPc) : y.owes count ≤ y.undecided := by
  cases y with
  | waitTest =>
    simp only [SemPc.owes, SemPc.undecided]
    split <;> omega
  | waitSleep at_ => cases at_ <;> simp [SemPc.owes, SemPc.undecided]
  | signalTest =>
    simp only [SemPc.owes, SemPc.undecided]
    split <;> omega
  | signalWakeup at_ => cases at_ <;> simp [SemPc.owes, SemPc.undecided]
  | _ => rfl

omit [DecidableEq P] in
theorem atHolder_le {f g : SemPc → Int} (hfg : ∀ y, f y ≤ g y) (l : Option P) (pc : P → SemPc) :
    atHolder f l pc ≤ atHolder g l pc := by
  cases l with
  | none => rfl
  | some p => exact hfg (pc p)

omit [DecidableEq P] in
theorem Inv.granted_le (h : Inv n s) : s.granted ≤ n + s.increments := by
  have howes := atHolder_le (owes_le_undecided s.count) s.chan.guard s.pc
  have hqueue := h.queue
  have hdecided := h.decided
  have hvalue := h.value
  have hlog := congrArg List.length h.log
  simp only [List.length_append, List.length_reverse] at hlog
  simp only [granted]
  omega

omit [DecidableEq P] in
/-- While the holder of the guard has yet to wake a process, its signal has not returned. -/
theorem Inv.owes_nonneg (h : Inv n s) (hle : s.waitsBegun ≤ n + s.signalsDone) :
    0 ≤ s.count ∧ 0 ≤ atHolder (SemPc.owes s.count) s.chan.guard s.pc := by
  obtain ⟨A, -, hcard⟩ := h.begun
  have hdone := h.done
  have hvalue := h.value
  cases hg : s.chan.guard with
  | none =>
    rw [hg, atHolder_none] at hdone
    simp only [atHolder_none]
    omega
  | some p =>
    rw [hg, atHolder_some] at hdone
    rw [atHolder_some]
    cases hp : s.pc p with
    | signalTest =>
      rw [hp] at hdone
      simp only [SemPc.signals, SemPc.owes] at hdone ⊢
      split <;> omega
    | signalWakeup at_ =>
      have hwaking := h.waking p
      rw [hp] at hdone hwaking
      cases at_ <;> simp [SemPc.signals, SemPc.owes, SemPc.wakes] at hdone hwaking ⊢ <;> omega
    | waitTest =>
      rw [hp] at hdone
      simp only [SemPc.signals, SemPc.owes] at hdone ⊢
      split <;> omega
    | waitSleep at_ =>
      rw [hp] at hdone
      cases at_ <;> simp [SemPc.signals, SemPc.owes] at hdone ⊢ <;> omega
    | _ =>
      rw [hp] at hdone
      simp only [SemPc.signals, SemPc.owes] at hdone ⊢
      omega

omit [DecidableEq P] in
theorem enters_nonneg (l : Option P) (pc : P → SemPc) : 0 ≤ atHolder SemPc.enters l pc := by
  cases l with
  | none => rfl
  | some p =>
    rw [atHolder_some]
    cases pc p with
    | waitSleep at_ => cases at_ <;> simp [SemPc.enters, SleepPc.entering]
    | _ => rfl

omit [DecidableEq P] in
theorem Inv.queue_eq_nil (h : Inv n s) (hle : s.waitsBegun ≤ n + s.signalsDone) : s.chan.queue = [] := by
  obtain ⟨hcount, howes⟩ := h.owes_nonneg hle
  have hent := enters_nonneg s.chan.qlock s.pc
  have hqueue := h.queue
  apply List.eq_nil_of_length_eq_zero
  omega

/-- In every run in which the count stays in the range of an `int`: the queue has `max(0, -count)`
    processes when nobody is inside the locks, the waits granted are at most `n` plus the signals, no wait
    is queued when the signals cover the waits, and processes are woken in the order they blocked. -/
theorem ksemaphore_correct (hn : n < 2147483648) (hr : Reach step InRange (initKsemaphore n) s) :
    (s.chan.guard = none → s.chan.qlock = none → (s.chan.queue.length : Int) = max 0 (-s.count)) ∧
      s.granted ≤ n + s.increments ∧
      (s.waitsBegun ≤ n + s.signalsDone → s.chan.queue = []) ∧
      s.chan.blockedLog = s.chan.wokenLog ++ s.chan.queue.reverse := by
  have h := Inv.reach hn hr
  refine ⟨fun hg hq => ?_, h.granted_le, h.queue_eq_nil, h.log⟩
  have hqueue := h.queue
  rw [hg, hq] at hqueue
  simpa using hqueue

omit [DecidableEq P] in
theorem inRange_of_lt {e : SemEvent P} (hp : s.pending < 2147483648) (hc : s.count < 2147483647) : InRange s e :=
  ⟨hp, fun _ _ _ => hc⟩

/-- One process waits on a semaphore of value 0 and blocks. -/
theorem ksemaphore_correct_blocked : ∃ s : Ksemaphore Unit, Reach step InRange (initKsemaphore 0) s ∧
    s.count = -1 ∧ (s.chan.queue.length : Int) = max 0 (-s.count) := by
  have h₁ : Reach step InRange (initKsemaphore ((0 : Nat) : Int)) _ :=
    .step (.callWait ()) .init (inRange_of_lt (by decide) (by decide)) rfl
  have h₂ := (h₁.step (.run ()) (inRange_of_lt (by decide) (by decide)) rfl)
    |>.step (.run ()) (inRange_of_lt (by decide) (by decide)) rfl
    |>.step (.run ()) (inRange_of_lt (by decide) (by decide)) rfl
    |>.step (.run ()) (inRange_of_lt (by decide) (by decide)) rfl
  have h₃ := (h₂.step (.run ()) (inRange_of_lt (by decide) (by decide)) rfl)
    |>.step (.run ()) (inRange_of_lt (by decide) (by decide)) rfl
    |>.step (.run ()) (inRange_of_lt (by decide) (by decide)) rfl
    |>.step (.run ()) (inRange_of_lt (by decide) (by decide)) rfl
  exact ⟨_, h₃, rfl, (ksemaphore_correct (by decide) h₃).1 rfl rfl⟩

/-- `count` is an `int`: a signal on a semaphore of value `INT_MAX` wraps it to `INT_MIN`. No wait is ever
    pending, the locks are free again, and the queue does not have `max(0, -count)` processes. -/
theorem ksemaphore_count_wraps : ∃ s : Ksemaphore Unit,
    Reach step (fun s _ => s.pending < 2147483648) (initKsemaphore 2147483647) s ∧ s.chan.guard = none ∧
      s.chan.qlock = none ∧ (s.chan.queue.length : Int) ≠ max 0 (-s.count) := by
  have h₁ : @Reach (Ksemaphore Unit) _ step (fun s _ => s.pending < 2147483648) (initKsemaphore 2147483647) _ :=
    .step (.callSignal ()) .init (by decide) rfl
  have h₂ := (h₁.step (.run ()) (by decide) rfl)
    |>.step (.run ()) (by decide) rfl
    |>.step (.run ()) (by decide) rfl
    |>.step (.run ()) (by decide) rfl
    |>.step (.run ()) (by decide) rfl
    |>.step (.run ()) (by decide) rfl
    |>.step (.run ()) (by decide) rfl
  exact ⟨_, h₂, rfl, rfl, by decide⟩

end Ksemaphore

end Fos.Conc
