import Fos.Cpu.SetPriority
import Fos.Heap.KHeapFail
import Fos.Proc.LoadSupply

/-! `CreateEnv` (`kern/cmd/commands.c`): how the arguments of the commands that load a program are read, `env_create` with the
    places where it panics, and what is done with the environment that it returns. -/

namespace Fos.Proc
open Lib Heap Disk Mem Cpu

/-- `scheduler_method` -/
inductive SchedulerMethod where
  | RR
  | MLFQ
  | BSD
  | PRIRR
  deriving DecidableEq, Repr

/-- `_PageRepAlgoType` -/
inductive PageRepAlgoType where
  | lruTimeApprox
  | lruListsApprox
  | clock
  | fifo
  | modifiedClock
  | nChanceClock
  | dynamicLocal
  | optimal
  deriving DecidableEq, Repr

/-! ### The arguments -/

/-- The loop over the digits of `strtol` in base 10. The value wraps. -/
def strtolDigits (val : BitVec 32) : List Char → BitVec 32
  | [] => val
  | c :: s => if c.isDigit then strtolDigits (val * 10 + BitVec.ofNat 32 (c.toNat - 48)) s else val

/-- `strtol(s, NULL, 10)` -/
def strtol (s : String) : BitVec 32 :=
  match s.toList.dropWhile fun c => c = ' ' ∨ c = '\t' with
  | '+' :: s => strtolDigits 0 s
  | '-' :: s => -strtolDigits 0 s
  | s => strtolDigits 0 s

/-- The variables that `CreateEnv` sets from its arguments. -/
structure CreateArgs where
  progName : String
  pageWsSize : BitVec 32
  lruSecondListSize : BitVec 32 := 0
  bsdSchedNiceVal : Int := -100
  prirrSchedPriority : Int := 0
  deriving DecidableEq, Repr

namespace CreateArgs

/-- The last argument is for the scheduler. -/
def forScheduler (a : CreateArgs) (scheduler : SchedulerMethod) (arg : String) : CreateArgs :=
  match scheduler with
  | .BSD => { a with bsdSchedNiceVal := (strtol arg).toInt }
  | .PRIRR => { a with prirrSchedPriority := (strtol arg).toInt }
  | .RR => a
  | .MLFQ => a

/-- The second list is smaller than the working set. -/
def checkSecondList (a : CreateArgs) : Option CreateArgs :=
  if a.pageWsSize - 1 < a.lruSecondListSize then none else some a

/-- `CreateEnv` up to the call of `env_create`; `none` is an error that is printed before null is returned. -/
def decode (scheduler : SchedulerMethod) (replacement : PageRepAlgoType) : List String → Option CreateArgs
  | [_, name, size, second, last] =>
    if replacement = .lruListsApprox then
      ({ progName := name, pageWsSize := strtol size, lruSecondListSize := strtol second : CreateArgs }.forScheduler
        scheduler last).checkSecondList
    else none
  | [_, name, size, last] =>
    if replacement = .lruListsApprox then
      { progName := name, pageWsSize := strtol size, lruSecondListSize := strtol last : CreateArgs }.checkSecondList
    else some ({ progName := name, pageWsSize := strtol size : CreateArgs }.forScheduler scheduler last)
  | [_, name, size] => if replacement = .lruListsApprox then none else some { progName := name, pageWsSize := strtol size }
  | _ => none

end CreateArgs

/-! ### `env_create` -/

/-- `struct UserProgramInfo`, with the segments of the program -/
structure UserProgramInfo where
  name : String
  segments : List Segment

/-- `prog_name` of an environment; `PROGNAMELEN` is 64. -/
def UserProgramInfo.progName (info : UserProgramInfo) : String :=
  if info.name.length < 64 then info.name else String.ofList (info.name.toList.take 63)

/-- `KERNEL_STACK_SIZE` -/
def kernelStackSize : Nat := 8 * pageSize

/-- The environments with their queues, the memory and the page file, and `env_lock`. `kheap_lock` is free. -/
structure EnvSystem (n : Nat) (C : Type) where
  queues : LockedQueues n C
  mem : UserMem (Fin n)
  lru : Fin n → LruLists := fun _ => {}
  /-- `kstack`: the present bit of its first page is cleared, which is not kept in the page table here. -/
  kstack : Fin n → Nat := fun _ => 0
  envLock : Bool := false

/-- How `env_create` and `CreateEnv` end. -/
inductive Creation (n : Nat) (C : Type) where
  | returns (s : EnvSystem n C) (env : Option (Fin n))
  /-- It calls `panic`, or the fault handler does when the loader follows a null pointer. What a step that panics has allocated
      itself is not followed, but for the frame of the directory. -/
  | panics (s : EnvSystem n C)
  /-- It follows a null pointer. -/
  | faults

/-- `create_user_directory()`, or the memory when it panics: `kmalloc` returned null, or it panicked itself, before or after a
    frame was taken for the directory. -/
def createUserDirectory {E : Type} [DecidableEq E] (m : UserMem E) : Except (UserMem E) (UserMem E) :=
  match m.run.kmalloc pageSize with
  | some (r, ptr) => if ptr = 0 then .error (m.setRun r) else .ok (m.setRun r)
  | none =>
    match m.run.allocateFrame with
    | some (r, _) => .error (m.setRun r)
    | none => .error m

/-- `create_user_kern_stack`, which takes `env_lock` and panics with it. -/
def createUserKernStack {E : Type} [DecidableEq E] (envLock : Bool) (m : UserMem E) : Option (UserMem E × Nat) :=
  if envLock then none
  else (m.run.kmalloc kernelStackSize).bind fun (r, kstack) => if kstack = 0 then none else some (m.setRun r, kstack)

/-- The algorithm keeps the working set in `ActiveList` and `SecondList`. -/
def usesLists (replacement : PageRepAlgoType) : Bool := replacement = .lruListsApprox

/-- What `env_create` does with the memory after `create_user_kern_stack`. -/
def loadProgram {E : Type} [DecidableEq E] (replacement : PageRepAlgoType) (s : UserMem E × LruLists) (e : E) (a : CreateArgs)
    (info : UserProgramInfo) : Option (UserMem E × LruLists) :=
  if UserMem.TablesFit info.progName a.pageWsSize.toNat info.segments then
    Loader.envCreate (usesLists replacement) e s a.pageWsSize.toNat a.lruSecondListSize.toNat info.progName info.segments
  else none

namespace EnvSystem

variable {n : Nat} {C : Type} [DecidableEq C]

def setTable (s : EnvSystem n C) (table : EnvTable n C) : EnvSystem n C := { s with queues := { s.queues with table := table } }

/-- What `initialize_environment` does to the table `envs` and to the free list. -/
def initializeEnvironment (table : EnvTable n C) (e : Fin n) : EnvTable n C :=
  let s := ((table.modify e ({ · with starvcounteer := 0 })).completeEnvironmentInitialization e).removeFromQueue .free e
  { toSched := s
    envParentId := Function.update table.envParentId e ((s.proc.map fun cur => (s.envs cur).envId).getD 0) }

/-- `env_create(user_program_name, page_WS_size, LRU_second_list_size, 0)` with the programs of `userPrograms` -/
def envCreate (replacement : PageRepAlgoType) (programs : List UserProgramInfo) (s : EnvSystem n C) (a : CreateArgs) :
    Creation n C :=
  match programs.find? (·.name = a.progName) with
  | none => .returns s none
  | some info =>
    match (s.queues.table.queues.head .free).first with
    | none => .returns s none
    | some e =>
      let s := s.setTable { s.queues.table with toSched := s.queues.table.toSched.setStatus e .unknown }
      match createUserDirectory s.mem with
      | .error m => .panics { s with mem := m }
      | .ok m =>
        match createUserKernStack s.envLock m with
        | none => .panics { s with mem := m, envLock := true }
        | some (m, kstack) =>
          let s := { s with kstack := Function.update s.kstack e kstack }.setTable (initializeEnvironment s.queues.table e)
          match loadProgram replacement (m, s.lru e) e a info with
          | none => .panics { s with mem := m }
          | some (m, l) => .returns { s with mem := m, lru := Function.update s.lru e l } (some e)

/-- The free list and the process queues, the frames with the kernel heap, and the page file are as before. -/
structure Unchanged (s t : EnvSystem n C) : Prop where
  queues : t.queues.table.queues = s.queues.table.queues
  frames : t.mem.run = s.mem.run
  pageFile : t.mem.disk = s.mem.disk

/-- The elements of the working set of `e` -/
def elements (s : EnvSystem n C) (replacement : PageRepAlgoType) (e : Fin n) : List Nat :=
  if usesLists replacement then (s.lru e).activeList ++ (s.lru e).secondList else (s.mem.ws e).list

/-- `e` was the first on the free list and is in no queue now. It is new, it is found under its id, its kernel stack and the
    page of its stack are there, and under PRIRR it has the priority that was asked for. -/
structure FullyCreated (scheduler : SchedulerMethod) (replacement : PageRepAlgoType) (a : CreateArgs)
    (L : Queue C → List (Fin n)) (s t : EnvSystem n C) (e : Fin n) : Prop where
  first : (L .free).head? = some e
  queues : t.queues.table.queues.Spells (Function.update L .free ((L .free).erase e))
  status : (t.queues.table.envs e).envStatus = .new
  positive : 0 < (t.queues.table.envs e).envId.toInt
  found : t.queues.table.envid2env (t.queues.table.envs e).envId false = .returns 0 (some e)
  others : ∀ x, x ≠ e → t.queues.table.envs x = s.queues.table.envs x
  priority : scheduler = .PRIRR → (t.queues.table.envs e).priority = a.prirrSchedPriority
  kstack : t.kstack e ≠ 0
  stacked : UserMem.Stacked t.mem e a.pageWsSize.toNat (t.elements replacement e)

/-- The call returns null or panics and has changed nothing, or it returns an environment that is fully created. -/
def Clean (scheduler : SchedulerMethod) (replacement : PageRepAlgoType) (arguments : List String) (L : Queue C → List (Fin n))
    (s : EnvSystem n C) : Creation n C → Prop
  | .returns t none => Unchanged s t
  | .returns t (some e) => ∃ a, CreateArgs.decode scheduler replacement arguments = some a ∧
      FullyCreated scheduler replacement a L s t e
  | .panics t => Unchanged s t
  | .faults => False

/-! ### When it does -/

/-- What is requested for an environment: its directory, its kernel stack and what the loader requests -/
def requests (replacement : PageRepAlgoType) (a : CreateArgs) (info : UserProgramInfo) : List Request :=
  .heap pageSize :: .heap kernelStackSize ::
    programRequests (usesLists replacement) a.pageWsSize.toNat info.progName info.segments

/-- The requests can be served from what is left of the frames, of the kernel heap and of the disk frames. -/
def Room (replacement : PageRepAlgoType) (s : EnvSystem n C) (a : CreateArgs) (info : UserProgramInfo) : Prop :=
  ∃ st diskFrames, Left s.mem st diskFrames ∧ Supply.Serves { stock := st, file := { frames := diskFrames } } (requests replacement a info)

/-- The memory, the queues and the page file are in order, and an environment of the free list has nothing yet. -/
structure InOrder (all : List PageNo) (boot : PageNo → Nat) (L : Queue C → List (Fin n)) (s : EnvSystem n C) : Prop where
  mem : s.mem.run.WalkInv all boot
  queues : s.queues.table.queues.Spells L
  pageFile : s.mem.disk.Inv
  fresh : ∀ e ∈ L .free, Fresh e (s.mem, s.lru e)

end EnvSystem

/-- What the linker makes: the segments are apart and below the stack, and have not more bytes in the file than in memory. -/
def UserProgramInfo.Linked (info : UserProgramInfo) : Prop :=
  UserMem.Loadable info.segments ∧ ∀ seg ∈ info.segments, seg.Fits

/-! ### `env_create` -/

section
variable {E : Type} [DecidableEq E] {all : List PageNo} {boot : PageNo → Nat} {m m₂ : UserMem E} {kstack : Nat} {envLock : Bool}

end

namespace EnvSystem

variable {n : Nat} {C : Type} [DecidableEq C] {all : List PageNo} {boot : PageNo → Nat} {s t : EnvSystem n C}
  {L : Queue C → List (Fin n)} {e : Fin n} {scheduler : SchedulerMethod} {replacement : PageRepAlgoType}
  {programs : List UserProgramInfo} {a : CreateArgs} {info : UserProgramInfo} {arguments : List String} {m : UserMem (Fin n)}

/-- Between `env_create` and `CreateEnv`: `t` comes from `s`, and `e` has no priority of its own yet. -/
structure Created (replacement : PageRepAlgoType) (a : CreateArgs) (s t : EnvSystem n C) (e : Fin n) : Prop where
  queues : t.queues.table.queues = s.queues.table.queues.remove .free e
  status : (t.queues.table.envs e).envStatus = .new
  id : ∃ id, (t.queues.table.envs e).envId = nextEnvId e id
  others : ∀ x, x ≠ e → t.queues.table.envs x = s.queues.table.envs x
  numOfReadyQueues : t.queues.table.numOfReadyQueues = s.queues.table.numOfReadyQueues
  qlock : t.queues.qlock = s.queues.qlock
  kstack : t.kstack e ≠ 0
  stacked : UserMem.Stacked t.mem e a.pageWsSize.toNat (t.elements replacement e)

theorem initializeEnvironment_self (table : EnvTable n C) (e : Fin n) : (initializeEnvironment table e).envs e =
    { table.envs e with envStatus := .new, starvcounteer := 0, envId := nextEnvId e (table.envs e).envId } := by
  show ((table.modify e _).completeEnvironmentInitialization e).envs e = _
  rw [Sched.completeEnvironmentInitialization, Sched.envs_modify_self, Sched.envs_modify_self]

/-- The directory, the kernel stack and the loader, with `env_lock` free -/
def allocateAll (replacement : PageRepAlgoType) (s : EnvSystem n C) (a : CreateArgs) (info : UserProgramInfo) (e : Fin n) :
    Option (UserMem (Fin n) × LruLists) :=
  ((s.mem.run.kmalloc pageSize).bind fun x => if x.2 = 0 then none else some x).bind fun x =>
    ((x.1.kmalloc kernelStackSize).bind fun y => if y.2 = 0 then none else some y).bind fun y =>
      Loader.envCreate (usesLists replacement) e (s.mem.setRun y.1, s.lru e) a.pageWsSize.toNat a.lruSecondListSize.toNat
        info.progName info.segments

omit [DecidableEq C] in
/-- The steps of `env_create` take what is requested. -/
theorem serves_iff {st : Stock} {k : Nat} (h : InOrder all boot L s) (hlinked : info.Linked) (he : e ∈ L .free)
    (hleft : Left s.mem st k) :
    (s.allocateAll replacement a info e).isSome ↔
      Supply.Serves { stock := st, file := { frames := k } } (requests replacement a info) := by
  have hserve : exec Supply.serve { stock := st, file := { frames := k } } (requests replacement a info) =
      (st.kmalloc pageSize).bind fun st => (st.kmalloc kernelStackSize).bind fun st =>
        exec Supply.serve { stock := st, file := { frames := k } }
          (programRequests (usesLists replacement) a.pageWsSize.toNat info.progName info.segments) := by
    show (Option.map _ _).bind _ = _
    rw [Option.bind_map]
    refine Option.bind_congr fun st _ => ?_
    show (Option.map _ _).bind _ = _
    rw [Option.bind_map]
    rfl
  unfold Supply.Serves
  rw [hserve]
  refine rel_isSome_iff (R := fun _ _ => True) (rel_bind (hleft.kmalloc h.mem (by decide) (by decide)) fun x st₁ _ h₁ => ?_)
  obtain ⟨hleft₁, hwalk₁, hpde₁⟩ := h₁
  refine rel_bind (hleft₁.kmalloc hwalk₁ (by decide) (by decide)) fun y st₂ _ h₂ => ?_
  obtain ⟨hleft₂, hwalk₂, hpde₂⟩ := h₂
  have hfresh := (h.fresh e he).setRun (hpde₂.trans hpde₁)
  exact rel_of_isSome_iff (envCreate_isSome_iff hfresh hwalk₂ h.pageFile hleft₂ hlinked.1 hlinked.2 _ _)

/-- A new environment is in no ready queue, so that only its field is written. -/
theorem Created.setPriority (h : Created replacement a s t e) (priority : Int) : Created replacement a s
    (t.setTable { t.queues.table with toSched := t.queues.table.toSched.modify e ({ · with priority := priority }) }) e := by
  have hself : (t.queues.table.toSched.modify e ({ · with priority := priority })).envs e =
      { t.queues.table.envs e with priority := priority } := Sched.envs_modify_self _
  obtain ⟨id, hid⟩ := h.id
  exact
    { queues := h.queues
      status := (congrArg Env.envStatus hself).trans h.status
      id := ⟨id, (congrArg Env.envId hself).trans hid⟩
      others := fun x hx =>
        (Sched.envs_modify_of_ne (s := t.queues.table.toSched) ({ · with priority := priority }) hx).trans (h.others x hx)
      numOfReadyQueues := h.numOfReadyQueues
      qlock := h.qlock
      kstack := h.kstack
      stacked := h.stacked }

/-! ### `CreateEnv` -/

/-- The system after the boot, with two ready queues -/
def afterBoot : Option (EnvSystem (nEnv 349525) Unit) :=
  (Sched.schedInitPRIRR 2 9).bind fun sched => (PagingRun.afterBoot (Fin (nEnv 349525)) 1024 768).map fun run =>
    { queues := { table := { toSched := sched } }, mem := { run := run, disk := ({} : PageFile _).initializeDiskPageFile } }

end EnvSystem

end Fos.Proc
