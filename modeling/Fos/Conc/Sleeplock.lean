import Fos.Conc.Channel

/-! Sleep locks (`kern/conc/sleeplock.c`) under any interleaving of `acquire_sleeplock` by any process and
    `release_sleeplock` by the process that holds the lock. -/

namespace Fos.Conc
open Lib

/-- Where a process is: outside, in `acquire_sleeplock` or in `release_sleeplock`. -/
inductive LockPc where
  | idle
  | acqAcquire
  /-- `while (lk->locked)` -/
  | acqTest
  | acqSleep (at_ : SleepPc)
  | acqSetLocked
  | acqSetPid
  | acqRelease
  | relAcquire
  | relClearLocked
  | relClearPid
  | relWakeup (at_ : WakePc)
  | relRelease
  deriving DecidableEq, Repr

/-- A sleep lock, its channel and the place of every process. `owns` is a history that the code does not
    have: the processes whose acquire is complete and whose release has not yet cleared `locked`. -/
structure Sleeplock (P : Type) where
  locked : Bool := false
  pid : Int := 0
  chan : Channel P := {}
  pc : P → LockPc := fun _ => .idle
  owns : P → Bool := fun _ => false

inductive LockEvent (P : Type) where
  | callAcquire (p : P)
  | callRelease (p : P)
  | run (p : P)
  deriving DecidableEq, Repr

variable {P : Type} [DecidableEq P]

namespace Sleeplock

/-- `init_sleeplock(lk, name)` -/
def initSleeplock : Sleeplock P := {}

def goto (s : Sleeplock P) (p : P) (pc : LockPc) : Sleeplock P := { s with pc := Function.update s.pc p pc }

variable (envId : P → Int)

/-- The next step of `p`, which is at `at_`; `envId p` is its `env_id`. -/
def runStep (s : Sleeplock P) (p : P) : LockPc → Option (Sleeplock P)
  | .idle => none
  | .acqAcquire => (s.chan.acquireGuard p).map fun c => { s with chan := c }.goto p .acqTest
  | .acqTest => some (s.goto p (if s.locked then .acqSleep .acquireQ else .acqSetLocked))
  | .acqSleep at_ => (s.chan.sleepStep p at_).map fun (c, next) =>
    { s with chan := c }.goto p (next.elim .acqTest .acqSleep)
  | .acqSetLocked => some ({ s with locked := true }.goto p .acqSetPid)
  | .acqSetPid => some ({ s with pid := envId p }.goto p .acqRelease)
  | .acqRelease => (s.chan.releaseGuard p).map fun c =>
    { s with chan := c, owns := Function.update s.owns p true }.goto p .idle
  | .relAcquire => (s.chan.acquireGuard p).map fun c => { s with chan := c }.goto p .relClearLocked
  | .relClearLocked => some ({ s with locked := false, owns := Function.update s.owns p false }.goto p .relClearPid)
  | .relClearPid => some ({ s with pid := 0 }.goto p (.relWakeup .acquireQ))
  | .relWakeup at_ => (s.chan.wakeupAllStep p at_).map fun (c, next) =>
    { s with chan := c }.goto p (next.elim .relRelease .relWakeup)
  | .relRelease => (s.chan.releaseGuard p).map fun c => { s with chan := c }.goto p .idle

def step (s : Sleeplock P) : LockEvent P → Option (Sleeplock P)
  | .callAcquire p => if s.pc p = .idle then some (s.goto p .acqAcquire) else none
  | .callRelease p => if s.pc p = .idle ∧ s.owns p = true then some (s.goto p .relAcquire) else none
  | .run p => s.runStep envId p (s.pc p)

end Sleeplock

/-! ### What each place in the code holds -/

namespace LockPc

def holdsGuard : LockPc → Bool
  | .idle | .acqAcquire | .relAcquire => false
  | .acqSleep at_ => at_.holdsGuard
  | _ => true

def holdsQ : LockPc → Bool
  | .acqSleep at_ => at_.holdsQ
  | .relWakeup at_ => at_.holdsQ
  | _ => false

/-- The process set `locked` and its acquire is not complete. -/
def takes : LockPc → Bool
  | .acqSetPid | .acqRelease => true
  | _ => false

/-- The process is the holder and is about to clear `locked`. -/
def releasing : LockPc → Bool
  | .relAcquire | .relClearLocked => true
  | _ => false

/-- The process holds the guard and knows that `locked` is 0. -/
def seesFree : LockPc → Bool
  | .acqSetLocked | .relClearPid => true
  | _ => false

/-- The process holds the guard, knows that `locked` is 1 and is about to sleep. -/
def seesHeld : LockPc → Bool
  | .acqSleep .acquireQ | .acqSleep .releaseGuard => true
  | _ => false

def entering : LockPc → Bool
  | .acqSleep at_ => at_.entering
  | _ => false

/-- The process cleared `locked` and has not yet found the queue empty. -/
def wakes : LockPc → Bool
  | .relClearPid | .relWakeup .acquireQ | .relWakeup .dequeue => true
  | _ => false

theorem holdsGuard_of_seesFree {y : LockPc} (h : y.seesFree = true) : y.holdsGuard = true := by
  cases y <;> first | rfl | cases h

theorem holdsGuard_of_seesHeld {y : LockPc} (h : y.seesHeld = true) : y.holdsGuard = true := by
  cases y with
  | acqSleep at_ => cases at_ <;> first | rfl | cases h
  | _ => cases h

theorem holdsQ_of_entering {y : LockPc} (h : y.entering = true) : y.holdsQ = true := by
  cases y with
  | acqSleep at_ => cases at_ <;> first | rfl | cases h
  | _ => cases h

end LockPc

/-! ### The invariant -/

namespace Sleeplock

/-- The process completed its acquire, or is past setting `locked` in it. -/
def taken (s : Sleeplock P) (p : P) : Prop := s.owns p = true ∨ (s.pc p).takes = true

/-- What every interleaving keeps. -/
structure Inv (envId : P → Int) (s : Sleeplock P) : Prop where
  guard : Holder LockPc.holdsGuard s.pc s.chan.guard
  qlock : Holder LockPc.holdsQ s.pc s.chan.qlock
  taken : ∃ o : Option P, (∀ p, s.taken p ↔ o = some p) ∧ s.locked = o.isSome
  pid : ∀ p, s.owns p = true ∨ s.pc p = .acqRelease → s.pid = envId p
  releasing : ∀ p, (s.pc p).releasing = true → s.owns p = true
  free : ∀ p, (s.pc p).seesFree = true → s.locked = false
  held : ∀ p, (s.pc p).seesHeld = true → s.locked = true
  /-- While the lock is free, whoever sleeps or is about to will be woken. -/
  wake : s.locked = false → (s.chan.queue ≠ [] ∨ ∃ q, (s.pc q).entering = true) → ∃ r, (s.pc r).wakes = true

variable {envId : P → Int} {s t : Sleeplock P} {p q : P} {x y : LockPc}

omit [DecidableEq P] in
theorem inv_init : Inv envId (initSleeplock : Sleeplock P) where
  guard := fun q => by simp [initSleeplock, LockPc.holdsGuard]
  qlock := fun q => by simp [initSleeplock, LockPc.holdsQ]
  taken := ⟨none, by simp [initSleeplock, Sleeplock.taken, LockPc.takes], rfl⟩
  pid := by simp [initSleeplock]
  releasing := by simp [initSleeplock, LockPc.releasing]
  free := by simp [initSleeplock]
  held := by simp [initSleeplock, LockPc.seesHeld]
  wake := by simp [initSleeplock, LockPc.entering]

/-- The process that wakes stays a witness when no other process stops waking. -/
theorem Inv.wake_move (h : Inv envId s) (hp : s.pc p = y) {queue : List P}
    (hqueue : queue ≠ [] → s.chan.queue ≠ [] ∨ y.entering = true)
    (henter : x.entering = true → y.entering = true ∨ s.locked = true) (hwakes : y.wakes = true → x.wakes = true) :
    s.locked = false → (queue ≠ [] ∨ ∃ q, (Function.update s.pc p x q).entering = true) →
      ∃ r, (Function.update s.pc p x r).wakes = true := by
  intro hlocked hsleeps
  have hbefore : s.chan.queue ≠ [] ∨ ∃ q, (s.pc q).entering = true := by
    rcases hsleeps with hne | ⟨q, hq⟩
    · exact (hqueue hne).imp_right fun hy => ⟨p, by rw [hp, hy]⟩
    · by_cases hqp : q = p
      · subst hqp
        rw [Function.update_self] at hq
        refine .inr ⟨q, ?_⟩
        rw [hp]
        exact (henter hq).resolve_right (by simp [hlocked])
      · rw [Function.update_of_ne hqp] at hq
        exact .inr ⟨q, hq⟩
  obtain ⟨r, hr⟩ := h.wake hlocked hbefore
  by_cases hrp : r = p
  · subst hrp
    exact ⟨r, by rw [Function.update_self]; exact hwakes (by rw [← hp]; exact hr)⟩
  · exact ⟨r, by rw [Function.update_of_ne hrp]; exact hr⟩

/-- A step of `p` from `y` to `x` that changes only the channel. -/
theorem Inv.move (h : Inv envId s) (hp : s.pc p = y) {c : Channel P}
    (hguard : Holder LockPc.holdsGuard (Function.update s.pc p x) c.guard)
    (hqlock : Holder LockPc.holdsQ (Function.update s.pc p x) c.qlock)
    (htakes : x.takes = y.takes) (hnamed : x ≠ .acqRelease)
    (hreleasing : x.releasing = true → s.owns p = true) (hfree : x.seesFree = true → s.locked = false)
    (hheld : x.seesHeld = true → s.locked = true)
    (hwake : s.locked = false → (c.queue ≠ [] ∨ ∃ q, (Function.update s.pc p x q).entering = true) →
      ∃ r, (Function.update s.pc p x r).wakes = true) : Inv envId ({ s with chan := c }.goto p x) := by
  subst hp
  obtain ⟨o, ho, hlocked⟩ := h.taken
  refine ⟨hguard, hqlock, ⟨o, fun q => ?_, hlocked⟩, fun q hq => ?_, ?_, ?_, ?_, hwake⟩
  · rw [← ho q]
    by_cases hqp : q = p
    · subst hqp
      simp [Sleeplock.taken, goto, htakes]
    · simp [Sleeplock.taken, goto, hqp]
  · by_cases hqp : q = p
    · subst hqp
      simp only [goto, Function.update_self, hnamed, or_false] at hq
      exact h.pid q (.inl hq)
    · simp only [goto, Function.update_of_ne hqp] at hq
      exact h.pid q hq
  · exact (Function.forall_update_iff s.pc fun q z => z.releasing = true → s.owns q = true).mpr
      ⟨hreleasing, fun q _ => h.releasing q⟩
  · exact (Function.forall_update_iff s.pc fun _ z => z.seesFree = true → s.locked = false).mpr
      ⟨hfree, fun q _ => h.free q⟩
  · exact (Function.forall_update_iff s.pc fun _ z => z.seesHeld = true → s.locked = true).mpr
      ⟨hheld, fun q _ => h.held q⟩

/-- A step that also leaves the queue, between places from which nobody is woken or goes to sleep. -/
theorem Inv.quiet (h : Inv envId s) (hp : s.pc p = y) {c : Channel P}
    (hguard : Holder LockPc.holdsGuard (Function.update s.pc p x) c.guard)
    (hqlock : Holder LockPc.holdsQ (Function.update s.pc p x) c.qlock) (hqueue : c.queue = s.chan.queue)
    (hx : x.takes = y.takes ∧ x ≠ .acqRelease ∧ x.seesFree = false ∧ x.seesHeld = y.seesHeld ∧
      x.entering = y.entering ∧ x.wakes = y.wakes)
    (hreleasing : x.releasing = true → s.owns p = true) : Inv envId ({ s with chan := c }.goto p x) := by
  obtain ⟨htakes, hnamed, hfree, hheld, henter, hwakes⟩ := hx
  refine h.move hp hguard hqlock htakes hnamed hreleasing (by simp [hfree]) (fun hx => ?_)
    (h.wake_move hp (fun hne => .inl (hqueue ▸ hne)) (fun hx => .inl (henter ▸ hx)) fun hy => hwakes ▸ hy)
  exact h.held p (by rw [hp, ← hheld, hx])

/-! ### Every step keeps it -/

theorem Inv.sleepStep (h : Inv envId s) {at_ : SleepPc} (hp : s.pc p = .acqSleep at_) {c : Channel P}
    {next : Option SleepPc} (hs : s.chan.sleepStep p at_ = some (c, next)) :
    Inv envId ({ s with chan := c }.goto p (next.elim .acqTest .acqSleep)) := by
  have hG := h.guard
  have hQ := h.qlock
  cases at_ with
  | acquireQ =>
    obtain ⟨hfree, rfl, rfl⟩ := Channel.sleep_acquireQ hs
    exact h.quiet hp (hG.keep hp rfl) (hQ.acquire hfree rfl) rfl (by decide) nofun
  | releaseGuard =>
    obtain ⟨hheld, rfl, rfl⟩ := Channel.sleep_releaseGuard hs
    -- The process held the guard since it saw `locked`, so it enters the queue of a lock that is held.
    have hlocked : s.locked = true := h.held p (by rw [hp]; rfl)
    exact h.move hp (hG.release hheld rfl) (hQ.keep hp rfl) rfl (by decide) nofun nofun nofun
      (h.wake_move hp .inl (fun _ => .inr hlocked) nofun)
  | block =>
    cases hs
    exact h.quiet hp (hG.keep hp rfl) (hQ.keep hp rfl) rfl (by decide) nofun
  | enqueue =>
    cases hs
    exact h.move hp (hG.keep hp rfl) (hQ.keep hp rfl) rfl (by decide) nofun nofun nofun
      (h.wake_move hp (fun _ => .inr rfl) nofun nofun)
  | sched =>
    obtain ⟨hheld, rfl, rfl⟩ := Channel.sleep_sched hs
    exact h.quiet hp (hG.keep hp rfl) (hQ.release hheld rfl) rfl (by decide) nofun
  | parked =>
    obtain ⟨-, hfree, rfl, rfl⟩ := Channel.sleep_parked hs
    exact h.quiet hp (hG.keep hp rfl) (hQ.acquire hfree rfl) rfl (by decide) nofun
  | releaseQ =>
    obtain ⟨hheld, rfl, rfl⟩ := Channel.sleep_releaseQ hs
    exact h.quiet hp (hG.keep hp rfl) (hQ.release hheld rfl) rfl (by decide) nofun
  | reacquireGuard =>
    obtain ⟨hfree, rfl, rfl⟩ := Channel.sleep_reacquireGuard hs
    exact h.quiet hp (hG.acquire hfree rfl) (hQ.keep hp rfl) rfl (by decide) nofun
  | clearChannel =>
    cases hs
    exact h.quiet hp (hG.keep hp rfl) (hQ.keep hp rfl) rfl (by decide) nofun

theorem Inv.wakeupAllStep (h : Inv envId s) {at_ : WakePc} (hp : s.pc p = .relWakeup at_) {c : Channel P}
    {next : Option WakePc} (hs : s.chan.wakeupAllStep p at_ = some (c, next)) :
    Inv envId ({ s with chan := c }.goto p (next.elim .relRelease .relWakeup)) := by
  have hG := h.guard
  have hQ := h.qlock
  cases at_ with
  | acquireQ =>
    obtain ⟨hfree, rfl, rfl⟩ := Channel.wakeupAll_acquireQ hs
    exact h.quiet hp (hG.keep hp rfl) (hQ.acquire hfree rfl) rfl (by decide) nofun
  | dequeue =>
    have hqlock : s.chan.qlock = some p := (hQ p).mp (by rw [hp]; rfl)
    cases hw : s.chan.wake with
    | none =>
      simp only [Channel.wakeupAllStep, hw] at hs
      cases hs
      refine h.move hp (hG.keep hp rfl) (hQ.keep hp rfl) rfl (by decide) nofun nofun nofun fun _ hsleeps => ?_
      -- The queue is empty, and nobody is about to enter it since `p` holds `qlock`.
      rcases hsleeps with hne | ⟨q, hq⟩
      · exact absurd (Channel.wake_eq_none.mp hw) hne
      · by_cases hqp : q = p
        · subst hqp
          rw [Function.update_self] at hq
          cases hq
        · rw [Function.update_of_ne hqp] at hq
          have := ((hQ q).mp (LockPc.holdsQ_of_entering hq)).symm.trans hqlock
          exact absurd (Option.some.inj this) hqp
    | some c =>
      obtain ⟨w, q, hq, -, hg, hl, -, -⟩ := Channel.wake_eq_some hw
      simp only [Channel.wakeupAllStep, hw] at hs
      cases hs
      refine h.move hp (hg ▸ hG.keep hp rfl) (hl ▸ hQ.keep hp rfl) rfl (by decide) nofun nofun nofun
        (h.wake_move hp (fun _ => .inl ?_) nofun fun _ => rfl)
      simp [hq]
  | releaseQ =>
    obtain ⟨hheld, rfl, rfl⟩ := Channel.wakeupAll_releaseQ hs
    exact h.quiet hp (hG.keep hp rfl) (hQ.release hheld rfl) rfl (by decide) nofun

omit [DecidableEq P] in
/-- While `p` holds the guard, no other process knows the value of `locked`. -/
theorem Inv.blind_of_ne (h : Inv envId s) (hp : s.pc p = y) (hy : y.holdsGuard = true) (hqp : q ≠ p) :
    (s.pc q).seesFree = false ∧ (s.pc q).seesHeld = false := by
  have hguard : s.chan.guard = some p := (h.guard p).mp (by rw [hp, hy])
  have hnot : (s.pc q).holdsGuard ≠ true := fun hq =>
    hqp (Option.some.inj (((h.guard q).mp hq).symm.trans hguard))
  constructor
  · by_contra hq
    exact hnot (LockPc.holdsGuard_of_seesFree (by simpa using hq))
  · by_contra hq
    exact hnot (LockPc.holdsGuard_of_seesHeld (by simpa using hq))

omit [DecidableEq P] in
theorem Inv.eq_of_taken (h : Inv envId s) (hp : s.taken p) (hq : s.taken q) : q = p := by
  obtain ⟨o, ho, -⟩ := h.taken
  exact Option.some.inj (((ho q).mp hq).symm.trans ((ho p).mp hp))

omit [DecidableEq P] in
theorem Inv.not_taken (h : Inv envId s) (hl : s.locked = false) (q : P) : ¬ s.taken q := by
  obtain ⟨o, ho, hlocked⟩ := h.taken
  have hnone : o = none := by simpa [hl] using hlocked
  simp [ho q, hnone]

/-- `lk->locked = 1` -/
theorem Inv.setLocked (h : Inv envId s) (hp : s.pc p = .acqSetLocked) :
    Inv envId ({ s with locked := true }.goto p .acqSetPid) := by
  have hlocked : s.locked = false := h.free p (by rw [hp]; rfl)
  refine ⟨h.guard.keep hp rfl, h.qlock.keep hp rfl, ⟨some p, fun q => ?_, rfl⟩, fun q hq => ?_, ?_, ?_, ?_, nofun⟩
  · by_cases hqp : q = p
    · subst hqp
      simp [Sleeplock.taken, goto, LockPc.takes]
    · have := h.not_taken hlocked q
      simpa [Sleeplock.taken, goto, hqp, Ne.symm hqp] using this
  · by_cases hqp : q = p
    · subst hqp
      simp only [goto, Function.update_self, reduceCtorEq, or_false] at hq
      exact absurd (.inl hq) (h.not_taken hlocked q)
    · simp only [goto, Function.update_of_ne hqp] at hq
      exact h.pid q hq
  · exact (Function.forall_update_iff s.pc fun q z => z.releasing = true → s.owns q = true).mpr
      ⟨nofun, fun q _ => h.releasing q⟩
  · refine (Function.forall_update_iff s.pc fun _ z => z.seesFree = true → true = false).mpr ⟨nofun, ?_⟩
    intro q hqp hq
    rw [(h.blind_of_ne hp rfl hqp).1] at hq
    cases hq
  · exact fun _ _ => rfl

/-- `lk->pid = get_cpu_proc()->env_id` -/
theorem Inv.setPid (h : Inv envId s) (hp : s.pc p = .acqSetPid) :
    Inv envId ({ s with pid := envId p }.goto p .acqRelease) := by
  have hp_taken : s.taken p := .inr (by rw [hp]; rfl)
  obtain ⟨o, ho, hlocked⟩ := h.taken
  refine ⟨h.guard.keep hp rfl, h.qlock.keep hp rfl, ⟨o, fun q => ?_, hlocked⟩, fun q hq => ?_, ?_, ?_, ?_,
    h.wake_move hp .inl nofun nofun⟩
  · rw [← ho q]
    by_cases hqp : q = p
    · subst hqp
      simp [Sleeplock.taken, goto, LockPc.takes, hp]
    · simp [Sleeplock.taken, goto, hqp]
  · by_cases hqp : q = p
    · rw [hqp]
      rfl
    · simp only [goto, Function.update_of_ne hqp] at hq
      have hq_taken : s.taken q := hq.imp_right fun hq => by rw [hq]; rfl
      exact absurd (h.eq_of_taken hp_taken hq_taken) hqp
  · exact (Function.forall_update_iff s.pc fun q z => z.releasing = true → s.owns q = true).mpr
      ⟨nofun, fun q _ => h.releasing q⟩
  · exact (Function.forall_update_iff s.pc fun _ z => z.seesFree = true → s.locked = false).mpr
      ⟨nofun, fun q _ => h.free q⟩
  · exact (Function.forall_update_iff s.pc fun _ z => z.seesHeld = true → s.locked = true).mpr
      ⟨nofun, fun q _ => h.held q⟩

/-- The last step of `acquire_sleeplock`. -/
theorem Inv.acquired (h : Inv envId s) (hp : s.pc p = .acqRelease) (hg : s.chan.guard = some p) :
    Inv envId ({ s with chan := { s.chan with guard := none }, owns := Function.update s.owns p true }.goto p .idle) := by
  have hp_taken : s.taken p := .inr (by rw [hp]; rfl)
  have hpid := h.pid p (.inr hp)
  obtain ⟨o, ho, hlocked⟩ := h.taken
  refine ⟨h.guard.release hg rfl, h.qlock.keep hp rfl, ⟨o, fun q => ?_, hlocked⟩, fun q hq => ?_, ?_, ?_, ?_,
    h.wake_move hp .inl nofun nofun⟩
  · rw [← ho q]
    by_cases hqp : q = p
    · subst hqp
      simp [Sleeplock.taken, goto, LockPc.takes, hp]
    · simp [Sleeplock.taken, goto, hqp]
  · by_cases hqp : q = p
    · rw [hqp]
      exact hpid
    · simp only [goto, Function.update_of_ne hqp] at hq
      exact h.pid q hq
  · refine (Function.forall_update_iff s.pc
      fun q z => z.releasing = true → Function.update s.owns p true q = true).mpr ⟨nofun, fun q hqp hq => ?_⟩
    rw [Function.update_of_ne hqp]
    exact h.releasing q hq
  · exact (Function.forall_update_iff s.pc fun _ z => z.seesFree = true → s.locked = false).mpr
      ⟨nofun, fun q _ => h.free q⟩
  · exact (Function.forall_update_iff s.pc fun _ z => z.seesHeld = true → s.locked = true).mpr
      ⟨nofun, fun q _ => h.held q⟩

/-- `lk->locked = 0`: from here on `p` wakes whoever sleeps. -/
theorem Inv.clearLocked (h : Inv envId s) (hp : s.pc p = .relClearLocked) :
    Inv envId ({ s with locked := false, owns := Function.update s.owns p false }.goto p .relClearPid) := by
  have hp_taken : s.taken p := .inl (h.releasing p (by rw [hp]; rfl))
  have hfree : ∀ q, q ≠ p → ¬ s.taken q := fun q hqp hq => hqp (h.eq_of_taken hp_taken hq)
  refine ⟨h.guard.keep hp rfl, h.qlock.keep hp rfl, ⟨none, fun q => ?_, rfl⟩, fun q hq => ?_, ?_, fun _ _ => rfl, ?_,
    fun _ _ => ⟨p, by simp [goto, LockPc.wakes]⟩⟩
  · by_cases hqp : q = p
    · subst hqp
      simp [Sleeplock.taken, goto, LockPc.takes]
    · have := hfree q hqp
      simpa [Sleeplock.taken, goto, hqp] using this
  · by_cases hqp : q = p
    · subst hqp
      simp [goto] at hq
    · simp only [goto, Function.update_of_ne hqp] at hq
      exact h.pid q hq
  · refine (Function.forall_update_iff s.pc
      fun q z => z.releasing = true → Function.update s.owns p false q = true).mpr ⟨nofun, fun q hqp hq => ?_⟩
    rw [Function.update_of_ne hqp]
    exact h.releasing q hq
  · refine (Function.forall_update_iff s.pc fun _ z => z.seesHeld = true → false = true).mpr ⟨nofun, ?_⟩
    intro q hqp hq
    rw [(h.blind_of_ne hp rfl hqp).2] at hq
    cases hq

/-- `lk->pid = 0` -/
theorem Inv.clearPid (h : Inv envId s) (hp : s.pc p = .relClearPid) :
    Inv envId ({ s with pid := 0 }.goto p (.relWakeup .acquireQ)) := by
  have hlocked : s.locked = false := h.free p (by rw [hp]; rfl)
  have hmoved : Inv envId (s.goto p (.relWakeup .acquireQ)) :=
    h.quiet hp (h.guard.keep hp rfl) (h.qlock.keep hp rfl) rfl (by decide) nofun
  refine ⟨hmoved.guard, hmoved.qlock, hmoved.taken, fun q hq => ?_, hmoved.releasing, hmoved.free, hmoved.held,
    hmoved.wake⟩
  exact absurd (hq.imp_right (congrArg LockPc.takes)) (hmoved.not_taken hlocked q)

theorem Inv.runStep (h : Inv envId s) (hs : s.runStep envId p (s.pc p) = some t) : Inv envId t := by
  have hG := h.guard
  have hQ := h.qlock
  cases hp : s.pc p with
  | idle =>
    rw [hp] at hs
    cases hs
  | acqAcquire =>
    rw [hp] at hs
    obtain ⟨c, hc, rfl⟩ := Option.map_eq_some_iff.mp hs
    obtain ⟨hfree, rfl⟩ := Channel.acquireGuard_eq_some.mp hc
    exact h.quiet hp (hG.acquire hfree rfl) (hQ.keep hp rfl) rfl (by decide) nofun
  | acqTest =>
    rw [hp] at hs
    cases hs
    cases hl : s.locked with
    | true =>
      exact h.move hp (hG.keep hp rfl) (hQ.keep hp rfl) rfl (by decide) nofun nofun (fun _ => hl)
        (h.wake_move hp .inl nofun nofun)
    | false =>
      exact h.move hp (hG.keep hp rfl) (hQ.keep hp rfl) rfl (by decide) nofun (fun _ => hl) nofun
        (h.wake_move hp .inl nofun nofun)
  | acqSleep at_ =>
    rw [hp] at hs
    obtain ⟨⟨c, next⟩, hc, rfl⟩ := Option.map_eq_some_iff.mp hs
    exact h.sleepStep hp hc
  | acqSetLocked =>
    rw [hp] at hs
    cases hs
    exact h.setLocked hp
  | acqSetPid =>
    rw [hp] at hs
    cases hs
    exact h.setPid hp
  | acqRelease =>
    rw [hp] at hs
    obtain ⟨c, hc, rfl⟩ := Option.map_eq_some_iff.mp hs
    obtain ⟨hheld, rfl⟩ := Channel.releaseGuard_eq_some.mp hc
    exact h.acquired hp hheld
  | relAcquire =>
    have howns : s.owns p = true := h.releasing p (by rw [hp]; rfl)
    rw [hp] at hs
    obtain ⟨c, hc, rfl⟩ := Option.map_eq_some_iff.mp hs
    obtain ⟨hfree, rfl⟩ := Channel.acquireGuard_eq_some.mp hc
    exact h.quiet hp (hG.acquire hfree rfl) (hQ.keep hp rfl) rfl (by decide) fun _ => howns
  | relClearLocked =>
    rw [hp] at hs
    cases hs
    exact h.clearLocked hp
  | relClearPid =>
    rw [hp] at hs
    cases hs
    exact h.clearPid hp
  | relWakeup at_ =>
    rw [hp] at hs
    obtain ⟨⟨c, next⟩, hc, rfl⟩ := Option.map_eq_some_iff.mp hs
    exact h.wakeupAllStep hp hc
  | relRelease =>
    rw [hp] at hs
    obtain ⟨c, hc, rfl⟩ := Option.map_eq_some_iff.mp hs
    obtain ⟨hheld, rfl⟩ := Channel.releaseGuard_eq_some.mp hc
    exact h.quiet hp (hG.release hheld rfl) (hQ.keep hp rfl) rfl (by decide) nofun

theorem Inv.step {e : LockEvent P} (h : Inv envId s) (hs : s.step envId e = some t) : Inv envId t := by
  cases e with
  | callAcquire p =>
    simp only [Sleeplock.step, Option.ite_none_right_eq_some] at hs
    obtain ⟨hp, hs⟩ := hs
    cases hs
    exact h.quiet hp (h.guard.keep hp rfl) (h.qlock.keep hp rfl) rfl (by decide) nofun
  | callRelease p =>
    simp only [Sleeplock.step, Option.ite_none_right_eq_some] at hs
    obtain ⟨⟨hp, howns⟩, hs⟩ := hs
    cases hs
    exact h.quiet hp (h.guard.keep hp rfl) (h.qlock.keep hp rfl) rfl (by decide) fun _ => howns
  | run p => exact h.runStep hs

theorem Inv.reach (hr : Reach (Sleeplock.step envId) (fun _ _ => True) initSleeplock s) : Inv envId s :=
  hr.invariant inv_init fun _ _ _ h _ hs => h.step hs

/-- In every run at most one process holds the lock, `locked` is set and `pid` is its id while it does, and
    when nobody is inside the locks and the lock is free, nobody sleeps on it. -/
theorem sleeplock_safe (hr : Reach (step envId) (fun _ _ => True) initSleeplock s) :
    (∀ p q, s.owns p = true → s.owns q = true → p = q) ∧
      (∀ p, s.owns p = true → s.locked = true ∧ s.pid = envId p) ∧
      (s.chan.guard = none → s.chan.qlock = none → s.locked = false → s.chan.queue = []) := by
  have h := Inv.reach hr
  refine ⟨fun p q hp hq => h.eq_of_taken (.inl hq) (.inl hp), fun p hp => ⟨?_, h.pid p (.inl hp)⟩, ?_⟩
  · by_contra hl
    exact h.not_taken (by simpa using hl) p (.inl hp)
  · intro hguard _ hlocked
    by_contra hne
    obtain ⟨r, hr⟩ := h.wake hlocked (.inl hne)
    have hfree : (s.pc r).holdsGuard ≠ true := fun hr => by simpa [hguard] using (h.guard r).mp hr
    cases hpc : s.pc r <;> simp [hpc, LockPc.wakes, LockPc.holdsGuard] at hr hfree

/-- Of two processes one acquires the lock and the other blocks on it. -/
theorem sleeplock_safe_contended : ∃ s : Sleeplock Bool,
    Reach (step fun p => if p then 4097 else 4098) (fun _ _ => True) initSleeplock s ∧ s.owns true = true ∧
      s.chan.queue = [false] ∧ s.locked = true ∧ s.pid = 4097 := by
  have h₁ : @Reach (Sleeplock Bool) _ (step fun p => if p then 4097 else 4098) (fun _ _ => True) initSleeplock _ :=
    .step (.callAcquire true) .init trivial rfl
  have h₂ := (h₁.step (.run true) trivial rfl)
    |>.step (.run true) trivial rfl
    |>.step (.run true) trivial rfl
    |>.step (.run true) trivial rfl
    |>.step (.run true) trivial rfl
  have h₃ := (h₂.step (.callAcquire false) trivial rfl)
    |>.step (.run false) trivial rfl
    |>.step (.run false) trivial rfl
    |>.step (.run false) trivial rfl
    |>.step (.run false) trivial rfl
    |>.step (.run false) trivial rfl
    |>.step (.run false) trivial rfl
    |>.step (.run false) trivial rfl
  exact ⟨_, h₃, rfl, rfl, ((sleeplock_safe h₃).2.1 true rfl).1, ((sleeplock_safe h₃).2.1 true rfl).2⟩

end Sleeplock

end Fos.Conc
