/-
  Subject: TASKS, SIGNALS AND THE SCHEDULER'S STATE of kernel/process.c.

  A task or signal struct is known by a number; a freed one is `none`, and touching it is the crash `freed`. The slabs
  hand out numbers never used before, so a stale pointer never meets a new object.

  The run queue and the wait queues are the linked lists of the source, pointer by pointer, since their functions
  insert nodes without looking whether they are linked already. The lists of all tasks and of a task's children are
  only ever given new tasks and are lists here.

  What a task owns besides (address space, files, kernel stack, directories, saved registers) plays no part in who
  runs and is not in this state.
-/
import OreUnix.Kernel.Base
import OreUnix.Lib.CircularList

namespace OreUnix.Proc

open Function (update)
open CircularList

/-! ## 1. Tasks and signals (process.h) -/

/-- `TASK_RUNNING` ... `TASK_ZOMBIE`; `TASK_DEAD` is never set. -/
inductive TaskState where
  | running
  | sleeping
  | stopped
  | zombie
  deriving DecidableEq, Repr

/-- `SIG_DFL`, `SIG_IGN` or the address of a function. -/
inductive Handler where
  | dfl
  | ign
  | user (address : Nat)
  deriving DecidableEq, Repr

/-- `struct signal_struct`. -/
structure Signals where
  pending : BitVec 64
  actions : Nat → Handler

/-- `struct task_struct`. `inSleep` is not in the source: the task is inside `sleep_on`, which has not come back to
    its caller yet. -/
structure Task where
  pid : Nat
  ppid : Nat
  state : TaskState
  exitCode : Int
  signal : Option Nat
  timeSlice : Nat
  parent : Option Nat
  children : List Nat
  inSleep : Bool
  deriving DecidableEq, Repr

def pidMax : Nat := 32768
def maxSignals : Nat := 64

def SIGHUP : Nat := 1
def SIGINT : Nat := 2
def SIGILL : Nat := 4
def SIGABRT : Nat := 6
def SIGFPE : Nat := 8
def SIGKILL : Nat := 9
def SIGUSR1 : Nat := 10
def SIGSEGV : Nat := 11
def SIGUSR2 : Nat := 12
def SIGPIPE : Nat := 13
def SIGALRM : Nat := 14
def SIGTERM : Nat := 15
def SIGCHLD : Nat := 17
def SIGCONT : Nat := 18
def SIGSTOP : Nat := 19
def SIGTSTP : Nat := 20

/-! ## 2. The state -/

/-- A node of a queue: its head, or a task's `run_list` or `wait_entry`. -/
inductive Node where
  | head (queue : Nat)
  | entry (task : Nat)
  deriving DecidableEq, Repr

structure Sched where
  tasks : Nat → Option Task
  signals : Nat → Option Signals
  runLinks : Links Node
  waitLinks : Links Node
  taskList : List Nat
  current : Nat
  nextTask : Nat
  nextSignal : Nat
  nextPid : Nat

/-- The head of the run queue. -/
def runqueue : Node := .head 0

/-- `kernel_task`. -/
def kernelTask : Nat := 0

/-- The wait queue of `sys_waitpid`. -/
def waitQ : Nat := 0

/-- What stops a call: NULL or freed memory is touched, a list head is taken for a task, `BUG()`, or the call has not
    come back within the fuel given to it. -/
inductive Crash where
  | null
  | freed
  | garbage
  | bug
  | fuel
  deriving DecidableEq, Repr

/-- A call of the running task, or of an interrupt. -/
abbrev M := StateT Sched (Except Crash)

def getTask (t : Nat) : M Task := fun s =>
  match s.tasks t with
  | some x => .ok (x, s)
  | none => .error .freed

def setTask (t : Nat) (x : Option Task) : M Unit := fun s =>
  .ok ((), { s with tasks := update s.tasks t x })

/-- Writing some fields of a task. -/
def modifyTask (t : Nat) (f : Task → Task) : M Unit := do
  let x ← getTask t
  setTask t (some (f x))

/-- Following `t->signal`. -/
def getSignals (p : Option Nat) : M (Nat × Signals) := fun s =>
  match p with
  | none => .error .null
  | some g =>
    match s.signals g with
    | some y => .ok ((g, y), s)
    | none => .error .freed

def setSignals (g : Nat) (y : Option Signals) : M Unit := fun s =>
  .ok ((), { s with signals := update s.signals g y })

def currentTask : M Nat := fun s => .ok (s.current, s)

/-- The state `sched_init` leaves: `kernel_task` runs and is on no queue; every queue is empty. -/
def schedInit : Sched where
  tasks t := if t = kernelTask then some ⟨0, 0, .running, 0, none, 0, none, [], false⟩ else none
  signals _ := none
  runLinks := Links.empty
  waitLinks := Links.empty
  taskList := [kernelTask]
  current := kernelTask
  nextTask := 1
  nextSignal := 0
  nextPid := 1

end OreUnix.Proc
