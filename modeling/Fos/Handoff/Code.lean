import Fos.Conc.Kspinlock
import Fos.Cpu.Sched

/-! How the one CPU goes from a process to the scheduler and on to another process (`sched`, `yield`, `env_start`, `set_cpu_proc`
    and `switchuvm` of `kern/proc/user_environment.c`, `fos_scheduler` of `kern/cpu/sched.c`, `kern/conc/channel.c`), and how
    interrupts come in between (`trap` of `kern/trap/trap.c`, `clock_interrupt_handler`). Every thread has a stack of its own:
    the code that it still has to execute. The spinlocks are those of `Fos.Conc.Kspinlock`, instruction by instruction; which
    process the scheduler chooses is left open, but that it is ready. The page directories, the clock and the queues other
    than those of the channels are left out. -/

namespace Fos.Handoff
open Lib Conc

variable {P L C : Type}

/-- A spinlock -/
inductive Lock (L : Type) where
  /-- `ProcessQueues.qlock` -/
  | qlock
  | other (lk : L)
  deriving DecidableEq

theorem qlock_ne (lk : L) : Lock.qlock ≠ .other lk := fun h => by cases h

/-- What a thread executes, piece by piece -/
inductive Act (P L C : Type) where
  | op (o : Op (Lock L))
  | sti
  | cli
  /-- A panic or a failed assertion if interrupts are enabled -/
  | assertDisabled
  /-- `assert(p != NULL)` for the process of the CPU -/
  | assertProc
  /-- `assert(cur_env && cur_env->env_status == ENV_RUNNING)` -/
  | assertRunning
  /-- `c->proc = p` -/
  | setProc (p : Option P)
  /-- `env_status` of the process of the CPU -/
  | setStatus (st : Cpu.EnvStatus)
  /-- `next_env->env_status = ENV_RUNNING` -/
  | run (p : P)
  /-- The loop of `sched_run_env` over the queue of the new environments -/
  | newToReady (p : P)
  /-- `env_status = ENV_BLOCKED; channel = chan; enqueue(&chan->queue, current_env)` -/
  | block (c : C)
  | wakeOne (c : C)
  | wakeAll (c : C)
  /-- The checks of `sched` on `ncli`, the status and `FL_IF` -/
  | checkSched
  /-- `context_switch(&p->context, mycpu()->scheduler)`, and `mycpu()->intena = intena` when it returns -/
  | contextSwitch
  /-- The return from an interrupt; `r` is the local variable of the code that was interrupted. -/
  | iret (r : Bool)
  /-- `if (p == NULL) ... else yield()` -/
  | yieldIfProc
  /-- `context_switch(&c->scheduler, next_env->context)` -/
  | switchTo (p : P)
  /-- What `fos_scheduler` does with the process that it returns from -/
  | afterSwitch
  /-- The call of `sched_next[scheduler_method]` -/
  | schedNext
  | getIntoPrompt

/-! ### The functions -/

def ops (l : List (Op (Lock L))) : List (Act P L C) := l.map .op

/-- `if(!holding_kspinlock(&ProcessQueues.qlock)) panic(...)` -/
def insideQ : List (Act P L C) := ops (holdingKspinlock .qlock ++ [.panicIf false])

/-- `set_cpu_proc(p)` -/
def setCpuProc (p : Option P) : List (Act P L C) := [.op .pushcli, .setProc p, .op .popcli]

/-- `switchuvm(proc)` -/
def switchuvm (proc : P) : List (Act P L C) := [.op .pushcli, .setProc (some proc), .op .popcli]

/-- `sched()` -/
def sched : List (Act P L C) := ops (getCpuProc _) ++ ([.assertProc] ++ (insideQ ++ [.checkSched, .contextSwitch]))

/-- `yield()` -/
def yield : List (Act P L C) :=
  ops (acquireKspinlock .qlock) ++ (ops (getCpuProc _) ++ ([.assertProc, .setStatus .ready] ++ (sched ++
    ops (releaseKspinlock .qlock))))

/-- `sleep(chan, lk)` -/
def sleep (chan : C) (lk : L) : List (Act P L C) :=
  ops (getCpuProc _) ++ ([.assertProc] ++ (ops (acquireKspinlock .qlock) ++ (ops (releaseKspinlock (.other lk)) ++
    ([.block chan] ++ (sched ++ (ops (releaseKspinlock .qlock) ++ ops (acquireKspinlock (.other lk))))))))

/-- `wakeup_one(chan)` -/
def wakeupOne (chan : C) : List (Act P L C) :=
  ops (acquireKspinlock .qlock) ++ ([.wakeOne chan] ++ ops (releaseKspinlock .qlock))

/-- `wakeup_all(chan)` -/
def wakeupAll (chan : C) : List (Act P L C) :=
  ops (acquireKspinlock .qlock) ++ ([.wakeAll chan] ++ ops (releaseKspinlock .qlock))

/-- `env_exit()`, with the call of `sched_exit_env` for the environment itself -/
def envExit : List (Act P L C) :=
  ops (getCpuProc _) ++ ([.assertProc] ++ (ops (holdingKspinlock .qlock) ++ (ops (acquireKspinlock .qlock) ++
    (ops (getCpuProc _) ++ ([.assertProc] ++ (insideQ ++ ([.setStatus .exit] ++ (sched ++ ops (releaseKspinlock .qlock)))))))))

/-- `sched_run_env(p)`, without the call of the scheduler -/
def schedRunEnv (p : P) : List (Act P L C) :=
  ops (acquireKspinlock .qlock) ++ ([.newToReady p] ++ ops (releaseKspinlock .qlock))

/-- `env_set_priority` for an environment that is ready -/
def envSetPriority : List (Act P L C) :=
  ops (acquireKspinlock .qlock) ++ (ops (getCpuProc _) ++ (insideQ ++ (insideQ ++ ops (releaseKspinlock .qlock))))

/-- Where the context of a new process begins: `env_start()`, and then `trapret` to the program -/
def envStart : List (Act P L C) := ops (releaseKspinlock .qlock) ++ [.iret false]

/-- The beginning of `trap(tf)`, to which the gate brings the CPU with interrupts disabled -/
def trapEntry (user : Bool) : List (Act P L C) :=
  [.assertDisabled] ++ (ops (getCpuProc _) ++ (if user then [.assertRunning] else []))

/-- `clock_interrupt_handler(tf)`, which promotes so many environments -/
def clockInterruptHandler : Nat → List (Act P L C)
  | 0 => ops (getCpuProc _) ++ [.yieldIfProc]
  | promoted + 1 => envSetPriority ++ clockInterruptHandler promoted

/-- `trap(tf)` for an interrupt: of the clock, or another -/
def trapIrq (user : Bool) (clock : Option Nat) : List (Act P L C) :=
  trapEntry user ++ (clock.elim [] clockInterruptHandler ++ [.assertDisabled])

/-- One turn of the outer loop of `fos_scheduler`, to the first call of `sched_next` -/
def outerLoop : List (Act P L C) := [.sti] ++ (ops (acquireKspinlock .qlock) ++ [.schedNext])

/-- `fos_scheduler()` -/
def fosScheduler : List (Act P L C) := [.assertDisabled, .setProc none] ++ outerLoop

/-- The inner loop of `fos_scheduler` when a process has returned -/
def returned : List (Act P L C) := insideQ ++ (ops (getCpuProc _) ++ [.afterSwitch, .schedNext])

/-- The inner loop of `fos_scheduler` with `next_env` -/
def dispatch (p : P) : List (Act P L C) := setCpuProc (some p) ++ (switchuvm p ++ ([.run p, .switchTo p] ++ returned))

/-- The end of the outer loop of `fos_scheduler` -/
def noNext (isAnyBlocked : Bool) : List (Act P L C) :=
  ops (releaseKspinlock .qlock) ++ (if isAnyBlocked then outerLoop else [.getIntoPrompt])

/-- What a process calls -/
inductive Call (P L C : Type) where
  | acquire (lk : Lock L)
  | release (lk : Lock L)
  | sleep (chan : C) (lk : L)
  | wakeupOne (chan : C)
  | wakeupAll (chan : C)
  | runEnv (p : P)
  | exit
  /-- The gate of a fault or of a system call, and `trap` up to its dispatch; a system call enables interrupts. -/
  | enter (syscall : Bool)
  /-- The end of `trap`, and `iret` -/
  | leave

def Call.code : Call P L C → List (Act P L C)
  | .acquire lk => ops (acquireKspinlock lk)
  | .release lk => ops (releaseKspinlock lk)
  | .sleep chan lk => Handoff.sleep chan lk
  | .wakeupOne chan => Handoff.wakeupOne chan
  | .wakeupAll chan => Handoff.wakeupAll chan
  | .runEnv p => schedRunEnv p
  | .exit => envExit
  | .enter syscall => [.cli] ++ (trapEntry true ++ (if syscall then [.sti] else []))
  | .leave => [.cli, .assertDisabled, .sti]

/-- What a caller has to see to, with the locks that it holds: it acquires a lock that it does not hold and releases one that it
    holds, it sleeps with the one lock that it gives to `sleep`, and it exits, enters and leaves the kernel without a lock. -/
def Call.Allowed (held : Finset (Lock L)) : Call P L C → Prop
  | .acquire lk => lk ∉ held
  | .release lk => lk ∈ held
  | .sleep _ lk => held = {.other lk}
  | .wakeupOne _ | .wakeupAll _ | .runEnv _ => .qlock ∉ held
  | .exit | .enter _ | .leave => held = ∅

/-! ### The CPU and the threads -/

/-- A thread is a process, or none for the scheduler. -/
structure Kernel (P L C : Type) where
  m : Machine (Lock L)
  /-- `mycpu()->proc` -/
  proc : Option P
  status : P → Cpu.EnvStatus
  /-- `chan->queue` from its head -/
  queue : C → List P
  /-- The thread that the CPU executes -/
  cur : Option P
  /-- What each thread has still to execute -/
  cont : Option P → List (Act P L C)
  /-- `intena` and the other local variable on the stack of a process that is in `context_switch` -/
  saved : P → Option (Bool × Bool)
  /-- The locks that a thread has acquired and not released; a history that the code does not have -/
  held : Option P → Finset (Lock L)

namespace Kernel

variable [DecidableEq P] [DecidableEq L] [DecidableEq C]

/-- The thread goes on with `k`. -/
def goto (s : Kernel P L C) (k : List (Act P L C)) : Kernel P L C := { s with cont := Function.update s.cont s.cur k }

def setHeld (s : Kernel P L C) (thread : Option P) (held : Finset (Lock L)) : Kernel P L C :=
  { s with held := Function.update s.held thread held }

def setStatus (s : Kernel P L C) (p : P) (st : Cpu.EnvStatus) : Kernel P L C :=
  { s with status := Function.update s.status p st }

/-- The locks that a thread has after an operation -/
def heldAfter (held : Finset (Lock L)) : Op (Lock L) → Finset (Lock L)
  | .xchg lk => insert lk held
  | .unlock lk => held.erase lk
  | _ => held

/-- The machine when a process goes on: it finds its local variables on its stack, and a new one takes `intena` as it is. -/
def restore (m : Machine (Lock L)) : Option (Bool × Bool) → Machine (Lock L)
  | some (intena, r) => { m with intena := intena, r := r }
  | none => { m with r := false }

/-- The CPU goes from a thread to another, which has `qlock` from then on. -/
def handOver (s : Kernel P L C) (thread : Option P) : Kernel P L C :=
  { (s.setHeld s.cur ((s.held s.cur).erase .qlock)).setHeld thread (insert .qlock (s.held thread)) with cur := thread }

/-- The current thread executes a piece, and has `k` left; `none` is a panic, or a lock that is waited for forever. -/
def act (s : Kernel P L C) (k : List (Act P L C)) : Act P L C → Option (Kernel P L C)
  | .op o => (s.m.step o).map fun m => ({ s with m := m }.setHeld s.cur (heldAfter (s.held s.cur) o)).goto k
  | .sti => some ({ s with m := { s.m with interrupts := true } }.goto k)
  | .cli => some ({ s with m := { s.m with interrupts := false } }.goto k)
  | .assertDisabled => if s.m.interrupts then none else some (s.goto k)
  | .assertProc => s.proc.map fun _ => s.goto k
  | .assertRunning => s.proc.bind fun p => if s.status p = .running then some (s.goto k) else none
  | .setProc p => some ({ s with proc := p }.goto k)
  | .setStatus st => s.proc.map fun p => (s.setStatus p st).goto k
  | .run p => some ((s.setStatus p .running).goto k)
  | .newToReady p =>
    if s.status p = .new then some ((s.setStatus p .ready).goto (insideQ ++ (insideQ ++ k))) else some (s.goto k)
  | .block c => s.proc.map fun p =>
    { s.setStatus p .blocked with queue := Function.update s.queue c (p :: s.queue c) }.goto k
  | .wakeOne c =>
    match (s.queue c).getLast? with
    | none => some (s.goto k)
    | some p => some ({ s.setStatus p .ready with queue := Function.update s.queue c (s.queue c).dropLast }.goto (insideQ ++ k))
  | .wakeAll c =>
    match (s.queue c).getLast? with
    | none => some (s.goto k)
    | some p =>
      some ({ s.setStatus p .ready with queue := Function.update s.queue c (s.queue c).dropLast }.goto
        (insideQ ++ (Act.wakeAll c :: k)))
  | .checkSched => s.proc.bind fun p =>
    if s.m.ncli ≠ 1 ∨ s.status p = .running ∨ s.m.interrupts then none else some (s.goto k)
  | .contextSwitch => s.proc.bind fun p =>
    if s.cur = some p then
      some ({ s.goto k with saved := Function.update s.saved p (some (s.m.intena, s.m.r)) }.handOver none)
    else none
  | .iret r => some ({ s with m := { s.m with interrupts := true, r := r } }.goto k)
  | .yieldIfProc => some (s.goto (if s.proc.isSome then yield ++ k else k))
  | .switchTo p => if s.cur = none then some ({ s.goto k with m := restore s.m (s.saved p) }.handOver (some p)) else none
  | .afterSwitch => s.proc.bind fun p =>
    if s.status p = .running then none
    else some (s.goto (if s.status p = .ready then k else setCpuProc none ++ k))
  | .schedNext => none
  | .getIntoPrompt =>
    some ({ s with m := { s.m with interrupts := false, ncli := 0, intena := false }, proc := none }.goto [])

inductive Event (P L C : Type) where
  /-- The current thread executes the next piece of its code. -/
  | run
  /-- An interrupt comes, in the program or in the kernel: of the clock, whose handler promotes so many environments, or another. -/
  | interrupt (user : Bool) (clock : Option Nat)
  /-- What `sched_next` returns -/
  | schedNext (p : Option P)
  | call (c : Call P L C)
  /-- `sched_run_env(p)` from the command prompt -/
  | command (p : P)

/-- `is_any_blocked` -/
def isAnyBlocked [Fintype P] (s : Kernel P L C) : Bool := decide (∃ p, s.status p = .blocked)

def step [Fintype P] (s : Kernel P L C) : Event P L C → Option (Kernel P L C)
  | .run =>
    match s.cont s.cur with
    | [] => none
    | a :: k => s.act k a
  | .interrupt user clock =>
    some ({ s with m := { s.m with interrupts := false } }.goto (trapIrq user clock ++ (Act.iret s.m.r :: s.cont s.cur)))
  | .schedNext (some p) => some (s.goto (dispatch p))
  | .schedNext none => some (s.goto (noNext s.isAnyBlocked))
  | .call c => some (s.goto c.code)
  | .command p => some (s.goto (schedRunEnv p ++ fosScheduler))

/-- When an event comes. The choice of the scheduler is a ready process, and none only if there is no ready process. -/
def ok (s : Kernel P L C) : Event P L C → Prop
  | .run => ∃ a k, s.cont s.cur = a :: k ∧ a ≠ .schedNext
  | .interrupt user _ => s.m.interrupts = true ∧ (user = true → s.cur ≠ none ∧ s.cont s.cur = [])
  | .schedNext (some p) => (∃ k, s.cont s.cur = .schedNext :: k) ∧ s.status p = .ready
  | .schedNext none => (∃ k, s.cont s.cur = .schedNext :: k) ∧ ∀ p, s.status p ≠ .ready
  | .call c => s.cur ≠ none ∧ s.cont s.cur = [] ∧ c.Allowed (s.held s.cur)
  | .command p => s.cur = none ∧ s.cont none = [] ∧ s.status p = .new

/-- The kernel is in the prompt; the environments are new, or there is none in their place yet. -/
structure Boot (s : Kernel P L C) : Prop where
  interrupts : s.m.interrupts = false
  ncli : s.m.ncli = 0
  free : ∀ lk, (s.m.locks lk).locked = 0
  proc : s.proc = none
  status : ∀ p, s.status p = .new ∨ s.status p = .free
  queue : ∀ c, s.queue c = []
  cur : s.cur = none
  prompt : s.cont none = []
  context : ∀ p, s.cont (some p) = envStart ∧ s.saved p = none
  held : ∀ thread, s.held thread = ∅

end Kernel

end Fos.Handoff
