import Fos.Lib.Reach
import Mathlib.Data.List.Basic

/-! Channels (`kern/conc/channel.c`) of a kernel object: a queue of blocked processes, the object's
    spinlock (`guard`) and `ProcessQueues.qlock`. `sleep`, `wakeup_one` and `wakeup_all` are cut into the
    steps between which another process may run. Acquiring a spinlock is a step that is possible only
    when the lock is free; releasing one that the process does not hold is a kernel panic (no step). -/

namespace Fos.Conc

/-- `env_status` of a process that uses the object. -/
inductive EnvStatus where
  | running
  | ready
  | blocked
  deriving DecidableEq, Repr

/-- The shared state of a channel. `queue` lists `chan->queue` from its head; `enqueue` inserts at the
    head and `dequeue` takes the last element. `blockedLog` and `wokenLog` are histories that the code
    does not have: who was enqueued and who was dequeued, oldest first. -/
structure Channel (P : Type) where
  guard : Option P := none
  qlock : Option P := none
  queue : List P := []
  status : P → EnvStatus := fun _ => .running
  /-- `env->channel` is this channel. -/
  channel : P → Bool := fun _ => false
  blockedLog : List P := []
  wokenLog : List P := []

/-- Where a process is inside `sleep(chan, lk)`. -/
inductive SleepPc where
  | acquireQ
  | releaseGuard
  /-- `env_status = ENV_BLOCKED; channel = chan` -/
  | block
  | enqueue
  | sched
  /-- Off the CPU, in `context_switch`. -/
  | parked
  | releaseQ
  | reacquireGuard
  /-- `channel = NULL`, the last statement -/
  | clearChannel
  deriving DecidableEq, Repr

/-- Where a process is inside `wakeup_one(chan)` or `wakeup_all(chan)`. -/
inductive WakePc where
  | acquireQ
  | dequeue
  | releaseQ
  deriving DecidableEq, Repr

variable {P : Type} [DecidableEq P]

namespace Channel

/-- `acquire_kspinlock(lk)` -/
def acquireGuard (c : Channel P) (p : P) : Option (Channel P) :=
  if c.guard = none then some { c with guard := some p } else none

/-- `release_kspinlock(lk)` -/
def releaseGuard (c : Channel P) (p : P) : Option (Channel P) :=
  if c.guard = some p then some { c with guard := none } else none

def acquireQ (c : Channel P) (p : P) : Option (Channel P) :=
  if c.qlock = none then some { c with qlock := some p } else none

def releaseQ (c : Channel P) (p : P) : Option (Channel P) :=
  if c.qlock = some p then some { c with qlock := none } else none

/-- One step of `sleep` by `p`; the place reached is `none` when `sleep` returns. -/
def sleepStep (c : Channel P) (p : P) : SleepPc → Option (Channel P × Option SleepPc)
  | .acquireQ => (c.acquireQ p).map (·, some .releaseGuard)
  | .releaseGuard => (c.releaseGuard p).map (·, some .block)
  | .block =>
    some ({ c with status := Function.update c.status p .blocked
                   channel := Function.update c.channel p true }, some .enqueue)
  | .enqueue => some ({ c with queue := p :: c.queue, blockedLog := c.blockedLog ++ [p] }, some .sched)
  -- `sched` switches to the scheduler, which still holds `qlock` and lets it go when it resumes another
  -- process or finds none.
  | .sched => (c.releaseQ p).map (·, some .parked)
  -- The scheduler, holding `qlock`, picks a process that is ready; the process resumes inside `sched`.
  | .parked =>
    if c.status p = .ready then
      (c.acquireQ p).map ({ · with status := Function.update c.status p .running }, some .releaseQ)
    else none
  | .releaseQ => (c.releaseQ p).map (·, some .reacquireGuard)
  | .reacquireGuard => (c.acquireGuard p).map (·, some .clearChannel)
  | .clearChannel => some ({ c with channel := Function.update c.channel p false }, none)

/-- `dequeue(&chan->queue)` and, when it returned a process, making it ready. -/
def wake (c : Channel P) : Option (Channel P) :=
  c.queue.getLast?.map fun w =>
    { c with queue := c.queue.dropLast
             status := Function.update c.status w .ready
             channel := Function.update c.channel w false
             wokenLog := c.wokenLog ++ [w] }

/-- One step of `wakeup_one` by `p`. -/
def wakeupOneStep (c : Channel P) (p : P) : WakePc → Option (Channel P × Option WakePc)
  | .acquireQ => (c.acquireQ p).map (·, some .dequeue)
  | .dequeue => some (c.wake.getD c, some .releaseQ)
  | .releaseQ => (c.releaseQ p).map (·, none)

/-- One step of `wakeup_all` by `p`: the loop dequeues until the queue is empty. -/
def wakeupAllStep (c : Channel P) (p : P) : WakePc → Option (Channel P × Option WakePc)
  | .acquireQ => (c.acquireQ p).map (·, some .dequeue)
  | .dequeue =>
    match c.wake with
    | some c' => some (c', some .dequeue)
    | none => some (c, some .releaseQ)
  | .releaseQ => (c.releaseQ p).map (·, none)

/-! ### What a step of `sleep` and of a wakeup does -/

section Steps
variable {c c' : Channel P} {p : P} {next : Option SleepPc}

omit [DecidableEq P] in
theorem acquireGuard_eq_some : c.acquireGuard p = some c' ↔ c.guard = none ∧ c' = { c with guard := some p } := by
  simp [acquireGuard, eq_comm]

theorem releaseGuard_eq_some : c.releaseGuard p = some c' ↔ c.guard = some p ∧ c' = { c with guard := none } := by
  simp [releaseGuard, eq_comm]

omit [DecidableEq P] in
theorem acquireQ_eq_some : c.acquireQ p = some c' ↔ c.qlock = none ∧ c' = { c with qlock := some p } := by
  simp [acquireQ, eq_comm]

theorem releaseQ_eq_some : c.releaseQ p = some c' ↔ c.qlock = some p ∧ c' = { c with qlock := none } := by
  simp [releaseQ, eq_comm]

/-- A step that is a lock operation followed by a move. -/
theorem map_pair_eq_some {α β : Type} {o : Option α} {b b' : β} {a : α} :
    o.map (·, b) = some (a, b') ↔ o = some a ∧ b' = b := by
  cases o with
  | none => simp
  | some x => simp [eq_comm]

theorem sleep_acquireQ (h : c.sleepStep p .acquireQ = some (c', next)) :
    c.qlock = none ∧ c' = { c with qlock := some p } ∧ next = some .releaseGuard := by
  obtain ⟨hc, hn⟩ := map_pair_eq_some.mp h
  exact ⟨(acquireQ_eq_some.mp hc).1, (acquireQ_eq_some.mp hc).2, hn⟩

theorem sleep_releaseGuard (h : c.sleepStep p .releaseGuard = some (c', next)) :
    c.guard = some p ∧ c' = { c with guard := none } ∧ next = some .block := by
  obtain ⟨hc, hn⟩ := map_pair_eq_some.mp h
  exact ⟨(releaseGuard_eq_some.mp hc).1, (releaseGuard_eq_some.mp hc).2, hn⟩

theorem sleep_sched (h : c.sleepStep p .sched = some (c', next)) :
    c.qlock = some p ∧ c' = { c with qlock := none } ∧ next = some .parked := by
  obtain ⟨hc, hn⟩ := map_pair_eq_some.mp h
  exact ⟨(releaseQ_eq_some.mp hc).1, (releaseQ_eq_some.mp hc).2, hn⟩

theorem sleep_parked (h : c.sleepStep p .parked = some (c', next)) :
    c.status p = .ready ∧ c.qlock = none ∧
      c' = { c with qlock := some p, status := Function.update c.status p .running } ∧ next = some .releaseQ := by
  simp only [sleepStep, Option.ite_none_right_eq_some, Option.map_eq_some_iff, acquireQ_eq_some,
    Prod.mk.injEq] at h
  obtain ⟨hready, d, ⟨hfree, rfl⟩, rfl, rfl⟩ := h
  exact ⟨hready, hfree, rfl, rfl⟩

theorem sleep_releaseQ (h : c.sleepStep p .releaseQ = some (c', next)) :
    c.qlock = some p ∧ c' = { c with qlock := none } ∧ next = some .reacquireGuard := by
  obtain ⟨hc, hn⟩ := map_pair_eq_some.mp h
  exact ⟨(releaseQ_eq_some.mp hc).1, (releaseQ_eq_some.mp hc).2, hn⟩

theorem sleep_reacquireGuard (h : c.sleepStep p .reacquireGuard = some (c', next)) :
    c.guard = none ∧ c' = { c with guard := some p } ∧ next = some .clearChannel := by
  obtain ⟨hc, hn⟩ := map_pair_eq_some.mp h
  exact ⟨(acquireGuard_eq_some.mp hc).1, (acquireGuard_eq_some.mp hc).2, hn⟩

theorem wakeup_acquireQ {next : Option WakePc} (h : c.wakeupOneStep p .acquireQ = some (c', next)) :
    c.qlock = none ∧ c' = { c with qlock := some p } ∧ next = some .dequeue := by
  obtain ⟨hc, hn⟩ := map_pair_eq_some.mp h
  exact ⟨(acquireQ_eq_some.mp hc).1, (acquireQ_eq_some.mp hc).2, hn⟩

theorem wakeup_releaseQ {next : Option WakePc} (h : c.wakeupOneStep p .releaseQ = some (c', next)) :
    c.qlock = some p ∧ c' = { c with qlock := none } ∧ next = none := by
  obtain ⟨hc, hn⟩ := map_pair_eq_some.mp h
  exact ⟨(releaseQ_eq_some.mp hc).1, (releaseQ_eq_some.mp hc).2, hn⟩

theorem wakeupAll_acquireQ {next : Option WakePc} (h : c.wakeupAllStep p .acquireQ = some (c', next)) :
    c.qlock = none ∧ c' = { c with qlock := some p } ∧ next = some .dequeue := wakeup_acquireQ h

theorem wakeupAll_releaseQ {next : Option WakePc} (h : c.wakeupAllStep p .releaseQ = some (c', next)) :
    c.qlock = some p ∧ c' = { c with qlock := none } ∧ next = none := wakeup_releaseQ h

theorem wake_eq_none : c.wake = none ↔ c.queue = [] := by
  simp [wake]

theorem wake_eq_some (h : c.wake = some c') : ∃ w q, c.queue = q ++ [w] ∧ c'.queue = q ∧ c'.guard = c.guard ∧
    c'.qlock = c.qlock ∧ c'.wokenLog = c.wokenLog ++ [w] ∧ c'.blockedLog = c.blockedLog := by
  obtain ⟨w, hw, rfl⟩ := Option.map_eq_some_iff.mp h
  have hq : c.queue = c.queue.dropLast ++ [w] := by
    obtain ⟨q, hq⟩ := List.getLast?_eq_some_iff.mp hw
    rw [hq, List.dropLast_concat]
  exact ⟨w, c.queue.dropLast, hq, rfl, rfl, rfl, rfl, rfl⟩

end Steps

end Channel

/-! ### Which steps hold which lock -/

/-- `sleep` holds the guard: it is called with it and returns with it. -/
def SleepPc.holdsGuard : SleepPc → Bool
  | .acquireQ | .releaseGuard | .clearChannel => true
  | _ => false

def SleepPc.holdsQ : SleepPc → Bool
  | .releaseGuard | .block | .enqueue | .sched | .releaseQ => true
  | _ => false

def WakePc.holdsQ : WakePc → Bool
  | .dequeue | .releaseQ => true
  | .acquireQ => false

/-- The process decided to sleep and gave up the guard, but is not in the queue yet. -/
def SleepPc.entering : SleepPc → Bool
  | .block | .enqueue => true
  | _ => false

section Holder
variable {C : Type} {holds : C → Bool} {pc : P → C} {g g' : Option P} {p : P} {x y : C}

/-- The lock `g` is held by the process whose place in the code holds it, and by no other. -/
def Holder (holds : C → Bool) (pc : P → C) (g : Option P) : Prop := ∀ q, holds (pc q) = true ↔ g = some q

theorem Holder.keep (h : Holder holds pc g) (hp : pc p = y) (hx : holds x = holds y) :
    Holder holds (Function.update pc p x) g := by
  intro q
  by_cases hq : q = p
  · subst hq
    rw [Function.update_self, hx, ← hp]
    exact h q
  · rw [Function.update_of_ne hq]
    exact h q

theorem Holder.acquire (h : Holder holds pc g) (hg : g = none) (hx : holds x = true) :
    Holder holds (Function.update pc p x) (some p) := by
  intro q
  by_cases hq : q = p
  · subst hq
    simp [hx]
  · have hfree := h q
    rw [hg] at hfree
    rw [Function.update_of_ne hq, hfree]
    simp [Ne.symm hq]

theorem Holder.release (h : Holder holds pc g) (hg : g = some p) (hx : holds x = false) :
    Holder holds (Function.update pc p x) none := by
  intro q
  by_cases hq : q = p
  · subst hq
    simp [hx]
  · have hheld := h q
    rw [hg] at hheld
    rw [Function.update_of_ne hq, hheld]
    simp [Ne.symm hq]

/-- The value of `f` at the place of the process that holds a lock. -/
def atHolder (f : C → Int) (g : Option P) (pc : P → C) : Int := g.elim 0 (f ∘ pc)

omit [DecidableEq P] in
@[simp] theorem atHolder_none (f : C → Int) (pc : P → C) : atHolder f none pc = 0 := rfl

omit [DecidableEq P] in
@[simp] theorem atHolder_some (f : C → Int) (p : P) (pc : P → C) : atHolder f (some p) pc = f (pc p) := rfl

/-- When a process moves, the value at the holder changes by what the process leaves and reaches, for a
    function that is 0 at the places that do not hold the lock. -/
theorem Holder.atHolder_update {f : C → Int} (hf : ∀ y, holds y = false → f y = 0) (h : Holder holds pc g)
    (h' : Holder holds (Function.update pc p x) g') :
    atHolder f g' (Function.update pc p x) = atHolder f g pc - f (pc p) + f x := by
  have hother : ∀ q, q ≠ p → (g' = some q ↔ g = some q) := fun q hq => by
    rw [← h' q, ← h q, Function.update_of_ne hq]
  have hp' : holds x = true ↔ g' = some p := by simpa using h' p
  by_cases hg : g = some p
  · subst hg
    cases g' with
    | none => simp [hf x (by simpa using hp')]
    | some q =>
      have hq : q = p := by
        by_contra hq
        have := (hother q hq).mp rfl
        exact hq (Option.some.inj this).symm
      subst hq
      simp
  · have hzero : f (pc p) = 0 := hf _ (by simpa using mt (h p).mp hg)
    by_cases hg' : g' = some p
    · subst hg'
      cases g with
      | none => simp [hzero]
      | some q =>
        have hq : q ≠ p := fun hq => hg (by rw [hq])
        have := (hother q hq).mpr rfl
        exact absurd (Option.some.inj this).symm hq
    · have hx : f x = 0 := hf _ (by simpa using mt hp'.mp hg')
      have hgg : g' = g := by
        apply Option.ext
        intro q
        by_cases hq : q = p
        · subst hq
          simp [hg, hg']
        · exact hother q hq
      subst hgg
      cases g' with
      | none => simp [hzero, hx]
      | some q =>
        have hq : q ≠ p := fun hq => hg (by rw [hq])
        simp [hq, hzero, hx]

end Holder

end Fos.Conc
