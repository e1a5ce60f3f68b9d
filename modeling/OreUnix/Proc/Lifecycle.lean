/-
  Subject: CREATION, FORK, EXIT, WAIT AND SIGNALS of kernel/process.c.

  Which allocation of a call fails is an argument of the call. Closing the files of an exiting task may wake the
  sleepers of a pipe; such a wake-up reads nothing the exit has written and is a call of `wakeUp` before `sysExit`
  here. `sysWaitpid` is one round of its loop: a task that slept comes back to a new round.
-/
import OreUnix.Proc.Sched

namespace OreUnix.Proc

open Function (update)
open CircularList

/-! ## 1. Pids and lookup -/

def allocPid : M Nat := do
  let s ← get
  set { s with nextPid := if s.nextPid + 1 ≥ pidMax then 2 else s.nextPid + 1 }
  pure s.nextPid

/-- The loop of `find_task_by_pid`. -/
def findPid (pid : Int) : List Nat → M (Option Nat)
  | [] => pure none
  | t :: ts => do
    let x ← getTask t
    if (x.pid : Int) = pid then pure (some t) else findPid pid ts

def findTaskByPid (pid : Int) : M (Option Nat) := do
  let s ← get
  findPid pid s.taskList

/-! ## 2. New tasks -/

/-- A new task with its links initialised, at the end of the task list and of its parent's children. -/
def linkTask (x : Task) : M Nat := do
  let s ← get
  let t := s.nextTask
  set { s with
    tasks := update s.tasks t (some x)
    runLinks := s.runLinks.init (.entry t)
    waitLinks := s.waitLinks.init (.entry t)
    taskList := s.taskList ++ [t]
    nextTask := t + 1 }
  modifyTask s.current fun y => { y with children := y.children ++ [t] }
  pure t

def newSignals (y : Signals) : M Nat := do
  let s ← get
  set { s with signals := update s.signals s.nextSignal (some y), nextSignal := s.nextSignal + 1 }
  pure s.nextSignal

/-- How `task_create` ends: no task slab, no address space or kernel stack, or well, with or without the signal
    struct, which is not checked. -/
inductive CreateOutcome where
  | noSlab
  | noResource
  | ok (signal : Bool)
  deriving DecidableEq, Repr

/-- `task_create` followed by `sched_add`. -/
def taskCreate (r : CreateOutcome) : M Unit := do
  match r with
  | .noSlab => pure ()
  | .noResource => let _ ← allocPid
  | .ok signal =>
    let pid ← allocPid
    let cur ← currentTask
    let x ← getTask cur
    let g ← if signal then (do let g ← newSignals ⟨0, fun _ => .dfl⟩; pure (some g)) else pure none
    let t ← linkTask ⟨pid, x.pid, .running, 0, g, 20, some cur, [], false⟩
    schedAdd t

/-- Which allocation of `sys_fork` fails. -/
inductive ForkOutcome where
  | noSlab
  | noMm
  | noFiles
  | noSignal
  | noStack
  | ok
  deriving DecidableEq, Repr

/-- `sys_fork`. The child starts as a copy of the parent; on the way out after a failed copy of the address space or
    of the files its `signal` is still the parent's, and is freed. -/
def sysFork (r : ForkOutcome) : M Int := do
  let cur ← currentTask
  let x ← getTask cur
  match r with
  | .noSlab => pure (-ENOMEM)
  | .noMm | .noFiles =>
    let _ ← allocPid
    match x.signal with
    | some g => setSignals g none
    | none => pure ()
    pure (-ENOMEM)
  | .noSignal | .noStack =>
    let _ ← allocPid
    pure (-ENOMEM)
  | .ok =>
    let pid ← allocPid
    let (_, y) ← getSignals x.signal
    let g ← newSignals y
    let t ← linkTask { x with
      pid := pid, ppid := x.pid, state := .running, signal := some g, parent := some cur
      children := [], inSleep := false }
    schedAdd t
    pure pid

/-! ## 3. Signals -/

/-- `sys_kill`: a sleeping target is made to run, wherever it sleeps. -/
def sysKill (pid sig : Int) : M Int := do
  if sig ≤ 0 ∨ sig ≥ maxSignals then pure (-EINVAL)
  else
    match ← findTaskByPid pid with
    | none => pure (-ESRCH)
    | some t =>
      let x ← getTask t
      let (g, y) ← getSignals x.signal
      setSignals g (some { y with pending := y.pending ||| (1#64 <<< sig.toNat) })
      if x.state = .sleeping then wakeUpProcess t
      pure 0

def sysSigaction (sig : Int) (act : Handler) : M Int := do
  if sig ≤ 0 ∨ sig ≥ maxSignals then pure (-EINVAL)
  else if sig = SIGKILL ∨ sig = SIGSTOP then pure (-EINVAL)
  else
    let cur ← currentTask
    let x ← getTask cur
    let (g, y) ← getSignals x.signal
    setSignals g (some { y with actions := update y.actions sig.toNat act })
    pure 0

/-- What `SIG_DFL` does with a signal. -/
inductive DefaultAction where
  | exit
  | stop
  | nothing
  deriving DecidableEq, Repr

/-- The switch of `signal_deliver`. It names SIGBUS too, to which the header gives no number. -/
def defaultAction (sig : Nat) : DefaultAction :=
  if sig ∈ [SIGKILL, SIGSEGV, SIGFPE, SIGILL, SIGABRT] then .exit
  else if sig ∈ [SIGCHLD, SIGCONT] then .nothing
  else if sig ∈ [SIGSTOP, SIGTSTP] then .stop
  else if sig ∈ [SIGTERM, SIGHUP, SIGINT, SIGPIPE, SIGALRM, SIGUSR1, SIGUSR2] then .exit
  else .nothing

/-! ## 4. Exit and wait -/

/-- The children of an exiting task get init as parent; they stay in the list they are in. -/
def reparent (init : Option Nat) : List Nat → M Unit
  | [] => pure ()
  | c :: cs => do
    modifyTask c fun x => { x with parent := init, ppid := 1 }
    reparent init cs

/-- The end of `sys_exit`, from the notification of the parent on. -/
def exitNotify (x : Task) : M Unit := do
  match x.parent with
  | some p =>
    let y ← getTask p
    let _ ← sysKill y.pid SIGCHLD
    wakeUpProcess p
  | none => pure ()

def sysExit (code : Int) : M Unit := do
  let cur ← currentTask
  let x ← getTask cur
  setTask cur (some { x with state := .zombie, exitCode := code })
  exitNotify x
  let init ← findTaskByPid 1
  reparent init x.children
  schedRemove cur
  schedule
  -- a `schedule` that comes back here runs into BUG()
  if (← currentTask) = cur then throw .bug

/-- The loop of `signal_deliver` over the signals that were pending. -/
def deliverLoop (t : Nat) (y : Signals) : List Nat → M Unit
  | [] => pure ()
  | sig :: sigs =>
    if y.pending.getLsbD sig then
      match y.actions sig with
      | .ign => deliverLoop t y sigs
      | .user _ => deliverLoop t y sigs
      | .dfl =>
        match defaultAction sig with
        | .exit => sysExit (128 + sig)
        | .nothing => deliverLoop t y sigs
        | .stop => do
          modifyTask t fun x => { x with state := .stopped }
          schedRemove t
          deliverLoop t y sigs
    else deliverLoop t y sigs

/-- `signal_deliver` on the running task. -/
def signalDeliver : M Unit := do
  let cur ← currentTask
  let x ← getTask cur
  match x.signal with
  | none => pure ()
  | some _ =>
    let (g, y) ← getSignals x.signal
    if y.pending = 0 then pure ()
    else
      setSignals g (some { y with pending := 0 })
      deliverLoop cur y (List.range' 1 (maxSignals - 1))

/-- The search of `sys_waitpid` for a zombie among the children. -/
def findZombie (pid : Int) : List Nat → M (Option Nat)
  | [] => pure none
  | t :: ts => do
    let x ← getTask t
    if (pid = -1 ∨ (x.pid : Int) = pid) ∧ x.state = .zombie then pure (some t)
    else findZombie pid ts

/-- A round of `sys_waitpid`: a child is reaped, 0 is returned, or the task has slept. -/
inductive WaitResult where
  | reaped (pid : Nat) (status : Int)
  | nothing
  | slept
  deriving DecidableEq, Repr

/-- Taking a zombie off the lists and `task_destroy`. -/
def reap (child : Nat) (y : Task) : M Unit := do
  let cur ← currentTask
  modify fun s => { s with taskList := s.taskList.filter (· ≠ child) }
  modifyTask cur fun x => { x with children := x.children.filter (· ≠ child) }
  match y.signal with
  | some g => setSignals g none
  | none => pure ()
  setTask child none

def sysWaitpid (pid : Int) (options : Nat) : M WaitResult := do
  let cur ← currentTask
  let x ← getTask cur
  match ← findZombie pid x.children with
  | some child =>
    let y ← getTask child
    reap child y
    pure (.reaped y.pid (y.exitCode % 256 * 256))
  | none =>
    if options &&& 1 ≠ 0 then pure .nothing
    else
      sleepOn waitQ
      pure .slept

/-! ## 5. Calls -/

inductive Event where
  | create (r : CreateOutcome)
  | fork (r : ForkOutcome)
  | exit (code : Int)
  | waitpid (pid : Int) (options : Nat)
  | kill (pid sig : Int)
  | sigaction (sig : Int) (act : Handler)
  | deliver
  | sleepOn (q : Nat)
  | wakeUp (q : Nat)
  | wakeUpAll (q : Nat)
  | schedule
  | tick

/-- The call, its result dropped. -/
def Event.exec (fuel : Nat) : Event → M Unit
  | .create r => taskCreate r
  | .fork r => do let _ ← sysFork r
  | .exit code => sysExit code
  | .waitpid pid options => do let _ ← sysWaitpid pid options
  | .kill pid sig => do let _ ← sysKill pid sig
  | .sigaction sig act => do let _ ← sysSigaction sig act
  | .deliver => signalDeliver
  | .sleepOn q => Proc.sleepOn q
  | .wakeUp q => Proc.wakeUp q
  | .wakeUpAll q => Proc.wakeUpAll fuel q
  | .schedule => Proc.schedule
  | .tick => schedTick

end OreUnix.Proc
