import Fos.Queue
import Fos.Types
import Fos.Lib.Reach
import Mathlib.Data.Fintype.Basic
import Mathlib.Data.List.FinRange

/-! The process queues and the scheduler (`kern/cpu/sched.c`, `kern/cpu/sched_helpers.c`), with the parts of
    `kern/proc/user_environment.c` and `kern/conc/channel.c` that move an environment from one place to another.
    All the queues link their environments through the one field `prev_next_info`. Every operation runs with
    `ProcessQueues.qlock` held and the interrupts disabled, and is one step. A function returns `none` where the
    code panics, fails an assertion, follows a null pointer or indexes past `env_ready_queues`. -/

namespace Fos.Cpu
open Lib

/-- `env_status` -/
inductive EnvStatus where
  | free
  | ready
  | running
  | blocked
  | new
  | exit
  | killed
  | unknown
  deriving DecidableEq, Repr

/-- The fields of `struct Env` that the scheduler reads, but for the links. -/
structure Env (C : Type) where
  envId : BitVec 32 := 0
  envStatus : EnvStatus := .free
  priority : Int := 0
  channel : Option C := none
  starvcounteer : Nat := 0

/-- `env_free_list` and the process queues; `C` are the channels. -/
inductive Queue (C : Type) where
  | free
  | new
  | exit
  | ready (i : Nat)
  | channel (c : C)
  deriving DecidableEq, Repr

/-- `scheduler_method`: the other two are not implemented. -/
inductive SchedMethod where
  | RR
  | PRIRR
  deriving DecidableEq, Repr

inductive SchedulerStatus where
  | stopped
  | started
  deriving DecidableEq, Repr

/-- `envs` has `n` elements (`NENV`). -/
structure Sched (n : Nat) (C : Type) where
  schedulerMethod : SchedMethod
  numOfReadyQueues : Nat
  starvThreshold : Nat
  envs : Fin n → Env C
  queues : Lists (Queue C) (Fin n)
  /-- `mycpu()->proc` -/
  proc : Option (Fin n) := none
  schedulerStatus : SchedulerStatus := .stopped

/-- `nearest_pow2_ceil(x)`: the loop doubles `power` once for each bit of `x - 1` after the first. -/
def nearestPow2Ceil (x : Nat) : Nat := if x ≤ 1 then 1 else 2 * 2 ^ (x - 1).log2

/-- `log2_ceil(x)` -/
def log2Ceil (x : Nat) : Nat := if x ≤ 1 then 1 else 2 + (x - 1).log2

/-- `NEARPOW2NENV - 1` -/
def envMask (n : Nat) : BitVec 32 := BitVec.ofNat 32 (nearestPow2Ceil n) - 1

/-- The id that `complete_environment_initialization` generates for `envs[e]`, whose last id was `id`. -/
def nextEnvId {n : Nat} (e : Fin n) (id : BitVec 32) : BitVec 32 :=
  let generation := (id + 1#32 <<< log2Ceil n) &&& ~~~envMask n
  (if generation.toInt ≤ 0 then 1#32 <<< log2Ceil n else generation) ||| BitVec.ofNat 32 e

namespace Sched

variable {n : Nat} {C : Type} [DecidableEq C]

def modify (s : Sched n C) (e : Fin n) (f : Env C → Env C) : Sched n C :=
  { s with envs := Function.update s.envs e (f (s.envs e)) }

def setStatus (s : Sched n C) (e : Fin n) (st : EnvStatus) : Sched n C := s.modify e ({ · with envStatus := st })

/-! ### Queues -/

/-- `enqueue(queue, env)` -/
def enqueue (s : Sched n C) (q : Queue C) (e : Fin n) : Sched n C := { s with queues := s.queues.insertHead q e }

/-- `remove_from_queue(queue, e)` -/
def removeFromQueue (s : Sched n C) (q : Queue C) (e : Fin n) : Sched n C := { s with queues := s.queues.remove q e }

/-- `dequeue(queue)` -/
def dequeue (s : Sched n C) (q : Queue C) : Sched n C × Option (Fin n) :=
  match (s.queues.head q).last with
  | some e => (s.removeFromQueue q e, some e)
  | none => (s, none)

/-- `LIST_NEXT(env)` -/
def next (s : Sched n C) (e : Fin n) : Option (Fin n) := (s.queues.link e).next

/-- `find_env_in_queue(queue, envID)` -/
def findEnvInQueue (s : Sched n C) (q : Queue C) (envID : BitVec 32) : Option (Option (Fin n)) :=
  (walk s.next (fun e => (s.envs e).envId = envID) walkFuel none (s.queues.head q).first).map (·.2)

/-- `env_ready_queues[priority]` -/
def readyQueue (s : Sched n C) (priority : Int) : Option (Queue C) :=
  if 0 ≤ priority ∧ priority < s.numOfReadyQueues then some (.ready priority.toNat) else none

/-- The loop over the ready queues from `i` on that stops at the first that holds the id; `k` queues are left. -/
def searchReady (s : Sched n C) (envID : BitVec 32) (i : Nat) : Nat → Option (Option (Nat × Fin n))
  | 0 => some none
  | k + 1 =>
    (s.findEnvInQueue (.ready i) envID).bind fun
    | some e => some (some (i, e))
    | none => s.searchReady envID (i + 1) k

/-- A loop over the ready queues from `i` on whose body may change the state; `k` queues are left. -/
def forReady (body : Sched n C → Nat → Option (Sched n C)) (s : Sched n C) (i : Nat) : Nat → Option (Sched n C)
  | 0 => some s
  | k + 1 => (body s i).bind fun s => forReady body s (i + 1) k

/-! ### Moving one environment -/

/-- `sched_insert_ready(env)` -/
def schedInsertReady (s : Sched n C) (e : Fin n) : Option (Sched n C) :=
  let s := s.setStatus e .ready
  (s.readyQueue (s.envs e).priority).map (s.enqueue · e)

/-- `sched_remove_ready(env)` -/
def schedRemoveReady (s : Sched n C) (e : Fin n) : Option (Sched n C) :=
  if (s.envs e).envStatus = .ready then
    (s.searchReady (s.envs e).envId 0 s.numOfReadyQueues).map fun
    | some (i, _) => (s.removeFromQueue (.ready i) e).setStatus e .unknown
    | none => s
  else none

/-- `sched_insert_new(env)` -/
def schedInsertNew (s : Sched n C) (e : Fin n) : Sched n C := (s.setStatus e .new).enqueue .new e

/-- `sched_remove_new(env)` -/
def schedRemoveNew (s : Sched n C) (e : Fin n) : Option (Sched n C) :=
  if (s.envs e).envStatus = .new then some ((s.removeFromQueue .new e).setStatus e .unknown) else none

/-- `sched_insert_exit(env)`; buffering is not part of the model. -/
def schedInsertExit (s : Sched n C) (e : Fin n) : Sched n C := (s.setStatus e .exit).enqueue .exit e

/-! ### The scheduler -/

/-- `fos_scheduler_RR()` -/
def fosSchedulerRR (s : Sched n C) : Sched n C × Option (Fin n) :=
  match s.proc with
  | some cur => (s.enqueue (.ready 0) cur).dequeue (.ready 0)
  | none => s.dequeue (.ready 0)

/-- The loop of `fos_scheduler_PRIRR` from queue `i` on; `k` queues are left. -/
def dequeueFirst (s : Sched n C) (i : Nat) : Nat → Sched n C × Option (Fin n)
  | 0 => (s, none)
  | k + 1 => if (s.queues.head (.ready i)).size ≠ 0 then s.dequeue (.ready i) else s.dequeueFirst (i + 1) k

/-- The first part of `fos_scheduler_PRIRR`: an environment that yielded goes back to its queue. -/
def requeueLast (s : Sched n C) : Option (Sched n C) :=
  match s.proc with
  | some last =>
    if (s.envs last).envStatus = .ready then (s.readyQueue (s.envs last).priority).map (s.enqueue · last) else some s
  | none => some s

/-- `fos_scheduler_PRIRR()` -/
def fosSchedulerPRIRR (s : Sched n C) : Option (Sched n C × Option (Fin n)) :=
  s.requeueLast.map fun s =>
    match s.dequeueFirst 0 s.numOfReadyQueues with
    | (s, some e) => (s.modify e ({ · with starvcounteer := 0 }), some e)
    | (s, none) => (s, none)

/-- `sched_next[scheduler_method]()` -/
def schedNext (s : Sched n C) : Option (Sched n C × Option (Fin n)) :=
  match s.schedulerMethod with
  | .RR => some s.fosSchedulerRR
  | .PRIRR => s.fosSchedulerPRIRR

def isAnyBlocked (s : Sched n C) : Bool := decide (∃ e, (s.envs e).envStatus = .blocked)

/-- One round of the loops of `fos_scheduler`, up to the switch to the chosen environment. When there is none, the
    outer loop tries again as long as an environment is blocked, and else `get_into_prompt` is called. -/
def dispatch (s : Sched n C) : Option (Sched n C) :=
  s.schedNext.map fun
  | (s, some e) => { s with proc := some e }.setStatus e .running
  | (s, none) => if s.isAnyBlocked then s else { s with proc := none, schedulerStatus := .stopped }

/-- `fos_scheduler()` -/
def fosScheduler (s : Sched n C) : Option (Sched n C) :=
  { s with proc := none, schedulerStatus := .started }.dispatch

/-- `sched()`: the scheduler goes on after its `context_switch`. -/
def sched (s : Sched n C) : Option (Sched n C) :=
  s.proc.bind fun p =>
    match (s.envs p).envStatus with
    | .running => none
    | .ready => s.dispatch
    | _ => { s with proc := none }.dispatch

/-! ### The operations -/

/-- `allocate_environment`, and what `initialize_environment` and `complete_environment_initialization` do to
    the fields of the model. -/
def envCreate (s : Sched n C) : Option (Sched n C × Fin n) :=
  (s.queues.head .free).first.map fun e =>
    let s := s.modify e fun x => { x with envStatus := .new, starvcounteer := 0, envId := nextEnvId e x.envId }
    (s.removeFromQueue .free e, e)

/-- `sched_new_env(e)` -/
def schedNewEnv (s : Sched n C) (e : Fin n) : Sched n C := s.schedInsertNew e

/-- `sched_run_env(envId)` -/
def schedRunEnv (s : Sched n C) (envId : BitVec 32) : Option (Sched n C) :=
  (s.findEnvInQueue .new envId).bind fun
  | some e =>
    (s.schedRemoveNew e).bind fun s => (s.schedInsertReady e).bind fun s =>
      if s.schedulerStatus = .stopped then s.fosScheduler else some s
  | none => some s

/-- The loop of `sched_run_all`. -/
def newToReady (s : Sched n C) : Nat → Option (Sched n C)
  | 0 => some s
  | k + 1 =>
    match s.dequeue .new with
    | (s, some e) => (s.schedInsertReady e).bind (newToReady · k)
    | (_, none) => none

/-- `sched_run_all()` -/
def schedRunAll (s : Sched n C) : Option (Sched n C) :=
  (s.newToReady (s.queues.head .new).size.toNat).bind fun s =>
    if s.schedulerStatus = .stopped then s.fosScheduler else none

/-- `yield()` -/
def yield (s : Sched n C) : Option (Sched n C) := s.proc.bind fun p => (s.setStatus p .ready).sched

/-- `envid2env(envid, &env, 0)`: `none` when it returns `E_BAD_ENV`, and `some none` when it gives a null pointer. -/
def envid2env (s : Sched n C) (envid : BitVec 32) : Option (Option (Fin n)) :=
  if envid = 0 then some s.proc
  else
    let x := (envid &&& envMask n).toNat
    if h : x < n then
      if (s.envs ⟨x, h⟩).envStatus = .free ∨ (s.envs ⟨x, h⟩).envId ≠ envid then none else some (some ⟨x, h⟩)
    else none

/-- `env_set_priority`, when the environment exists and the priority is in bounds. -/
def changePriority (s : Sched n C) (e : Fin n) (priority : Int) : Option (Sched n C) :=
  if (s.envs e).envStatus = .ready then
    (s.schedRemoveReady e).bind fun s =>
      (s.modify e ({ · with priority := priority, starvcounteer := 0 })).schedInsertReady e
  else some (s.modify e ({ · with priority := priority }))

/-- `env_set_priority(envID, priority)` -/
def envSetPriority (s : Sched n C) (envID : BitVec 32) (priority : Int) : Option (Sched n C) :=
  match s.envid2env envID with
  | some (some e) => if priority < 0 ∨ s.numOfReadyQueues ≤ priority then none else s.changePriority e priority
  | _ => none

/-- The body of the promotion loop of `clock_interrupt_handler`. -/
def starve (s : Sched n C) (e : Fin n) : Option (Sched n C) :=
  let s := s.modify e fun x => { x with starvcounteer := u32 (x.starvcounteer + 1) }
  if s.starvThreshold < (s.envs e).starvcounteer then
    let newprio := (s.envs e).priority - 1
    if newprio < 0 then some s else s.envSetPriority (s.envs e).envId newprio
  else some s

/-- The body of the outer loop: `LIST_FOREACH_SAFE` over one ready queue. -/
def promote (s : Sched n C) (i : Nat) : Option (Sched n C) :=
  if (s.queues.head (.ready i)).size = 0 then some s
  else forEach next starve walkFuel s (s.queues.head (.ready i)).first

/-- `clock_interrupt_handler(tf)` -/
def clockInterruptHandler (s : Sched n C) : Option (Sched n C) :=
  (if s.schedulerMethod = .PRIRR then forReady promote s 0 s.numOfReadyQueues else some s).bind fun s =>
    match s.proc with
    | none => some s
    | some _ => s.yield

/-- `sleep(chan, lk)`, up to its call of `sched` -/
def sleep (s : Sched n C) (chan : C) : Option (Sched n C) :=
  s.proc.bind fun p =>
    ((s.modify p ({ · with envStatus := .blocked, channel := some chan })).enqueue (.channel chan) p).sched

/-- What `sleep` does when `sched` has returned -/
def sleepReturn (s : Sched n C) : Option (Sched n C) := s.proc.map (s.modify · ({ · with channel := none }))

/-- Waking the environment that `dequeue` returned. -/
def wake (s : Sched n C) (e : Fin n) : Option (Sched n C) :=
  (s.modify e ({ · with envStatus := .ready, channel := none })).schedInsertReady e

/-- `wakeup_one(chan)` -/
def wakeupOne (s : Sched n C) (chan : C) : Option (Sched n C) :=
  match s.dequeue (.channel chan) with
  | (s, some e) => s.wake e
  | (s, none) => some s

/-- `wakeup_all(chan)`; `fuel` bounds the rounds of its loop. -/
def wakeupAll (s : Sched n C) (chan : C) : Nat → Option (Sched n C)
  | 0 => none
  | fuel + 1 =>
    match s.dequeue (.channel chan) with
    | (s, some e) => (s.wake e).bind (wakeupAll · chan fuel)
    | (s, none) => some s

/-- The search of `sched_exit_env` in the NEW queue and in the ready queues: whether the environment was found, and
    the value of `ptr_env`. The loop over the NEW queue does not stop where it finds the environment, so that `ptr_env`
    is null after it. -/
def takeToExit (s : Sched n C) (envId : BitVec 32) : Option (Sched n C × Option (Option (Fin n))) :=
  (forEach (fun r => r.1.next)
    (fun r e => if (r.1.envs e).envId = envId then (r.1.schedRemoveNew e).map (·, true) else some r)
    walkFuel (s, false) (s.queues.head .new).first).bind fun
  | (s, true) => some (s, some none)
  | (s, false) =>
    (s.searchReady envId 0 s.numOfReadyQueues).map fun
    | some (i, e) => (s.removeFromQueue (.ready i) e, some (some e))
    | none => (s, none)

/-- `sched_exit_env(envId)` -/
def schedExitEnv (s : Sched n C) (envId : BitVec 32) : Option (Sched n C) :=
  (s.takeToExit envId).bind fun (s, found) =>
    s.proc.bind fun cur =>
      let isCur : Bool := (s.envs cur).envId = envId
      match if found.isNone ∧ isCur then some (some cur) else found with
      | none => some s
      | some none => none
      | some (some e) => if isCur then (s.schedInsertExit e).sched else some (s.schedInsertExit e)

/-- `env_exit()` -/
def envExit (s : Sched n C) : Option (Sched n C) := s.proc.bind fun cur => s.schedExitEnv (s.envs cur).envId

/-- `sched_exit_all_ready_envs()` -/
def schedExitAllReadyEnvs (s : Sched n C) : Option (Sched n C) :=
  forReady (fun s i => forEach next (fun s e => some ((s.removeFromQueue (.ready i) e).schedInsertExit e)) walkFuel s
    (s.queues.head (.ready i)).first) s 0 s.numOfReadyQueues

end Sched

/-! ### Runs -/

/-- What can happen to the process queues. -/
inductive SchedEvent (C : Type) where
  /-- `env_create`, `env_set_priority` when `CreateEnv` was given a priority, and `sched_new_env` -/
  | newEnv (priority : Option Int)
  | runEnv (envId : BitVec 32)
  | runAll
  | yield
  | clock
  | setPriority (envID : BitVec 32) (priority : Int)
  | sleep (chan : C)
  | sleepReturn
  | wakeupOne (chan : C)
  | wakeupAll (chan : C)
  | exit
  | exitAllReady
  /-- Another round of the outer loop of `fos_scheduler` -/
  | schedule

/-- The state of the kernel and the list of the environments created, which the kernel does not keep. No environment is
    ever freed: `env_free` panics. -/
structure SchedRun (n : Nat) (C : Type) where
  sched : Sched n C
  created : List (Fin n) := []

namespace SchedRun

variable {n : Nat} {C : Type} [DecidableEq C]

def newEnv (s : SchedRun n C) (priority : Option Int) : Option (SchedRun n C) :=
  s.sched.envCreate.bind fun (t, e) =>
    match priority with
    | some p => (t.envSetPriority (t.envs e).envId p).map fun t => ⟨t.schedNewEnv e, e :: s.created⟩
    | none => some ⟨t.schedNewEnv e, e :: s.created⟩

def step (s : SchedRun n C) : SchedEvent C → Option (SchedRun n C)
  | .newEnv priority => s.newEnv priority
  | .runEnv envId => (s.sched.schedRunEnv envId).map (⟨·, s.created⟩)
  | .runAll => s.sched.schedRunAll.map (⟨·, s.created⟩)
  | .yield => s.sched.yield.map (⟨·, s.created⟩)
  | .clock => s.sched.clockInterruptHandler.map (⟨·, s.created⟩)
  | .setPriority envID priority => (s.sched.envSetPriority envID priority).map (⟨·, s.created⟩)
  | .sleep chan => (s.sched.sleep chan).map (⟨·, s.created⟩)
  | .sleepReturn => s.sched.sleepReturn.map (⟨·, s.created⟩)
  | .wakeupOne chan => (s.sched.wakeupOne chan).map (⟨·, s.created⟩)
  | .wakeupAll chan => (s.sched.wakeupAll chan walkFuel).map (⟨·, s.created⟩)
  | .exit => s.sched.envExit.map (⟨·, s.created⟩)
  | .exitAllReady => s.sched.schedExitAllReadyEnvs.map (⟨·, s.created⟩)
  | .schedule =>
    if s.sched.proc = none ∧ s.sched.schedulerStatus = .started then s.sched.dispatch.map (⟨·, s.created⟩) else none

end SchedRun

end Fos.Cpu
