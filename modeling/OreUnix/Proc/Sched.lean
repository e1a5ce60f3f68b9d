/-
  Subject: THE SCHEDULER, SLEEPING AND WAKING of kernel/process.c.

  `schedule` ends with another task running; what that task does next is its own affair, so a call that ends in
  `schedule` ends there. In particular the signals a task takes when it is switched to are a call of their own
  (`signalDeliver`).
-/
import OreUnix.Proc.Task

namespace OreUnix.Proc

open Function (update)
open CircularList

/-! ## 1. The run queue -/

def schedAdd (t : Nat) : M Unit := do
  modifyTask t fun x => { x with state := .running }
  modify fun s => { s with runLinks := s.runLinks.addTail (.entry t) runqueue }

def schedRemove (t : Nat) : M Unit :=
  modify fun s => { s with runLinks := s.runLinks.del (.entry t) }

/-- The running task comes out of `schedule`, and with it out of `sleep_on` if that called it. -/
def resume : M Unit := do
  let cur ← currentTask
  modifyTask cur fun x => { x with inSleep := false }

/-- `schedule`: the first task of the queue goes to its end and runs; with an empty queue the processor waits for an
    interrupt and the caller goes on. -/
def schedule : M Unit := do
  let s ← get
  if s.runLinks.next runqueue = runqueue then resume
  else
    match s.runLinks.next runqueue with
    | .head _ => throw .garbage
    | .entry next =>
      set { s with runLinks := (s.runLinks.del (.entry next)).addTail (.entry next) runqueue }
      if s.current = next then resume
      else
        modifyTask next fun x => { x with timeSlice := 20 }
        modify fun s => { s with current := next }
        resume

/-- `sched_tick`, from the timer interrupt. -/
def schedTick : M Unit := do
  let cur ← currentTask
  if cur = kernelTask then pure ()
  else
    let x ← getTask cur
    let slice := if x.timeSlice > 0 then x.timeSlice - 1 else x.timeSlice
    if slice = 0 then
      setTask cur (some { x with timeSlice := 20 })
      schedule
    else setTask cur (some { x with timeSlice := slice })

/-! ## 2. Sleeping and waking -/

def sleepOn (q : Nat) : M Unit := do
  let cur ← currentTask
  modifyTask cur fun x => { x with state := .sleeping, inSleep := true }
  modify fun s => { s with waitLinks := s.waitLinks.addTail (.entry cur) (.head q) }
  schedRemove cur
  schedule

def wakeUpProcess (t : Nat) : M Unit := do
  modifyTask t fun x => { x with state := .running }
  schedAdd t

/-- Taking one task off its wait queue, as `wake_up` and `wake_up_all` do. -/
def wakeTask (t : Nat) : M Unit := do
  modify fun s => { s with waitLinks := s.waitLinks.del (.entry t) }
  modifyTask t fun x => { x with state := .running }
  schedAdd t

def wakeUp (q : Nat) : M Unit := do
  let s ← get
  if s.waitLinks.next (.head q) = .head q then pure ()
  else
    match s.waitLinks.next (.head q) with
    | .head _ => throw .garbage
    | .entry t => wakeTask t

/-- The loop of `wake_up_all`: `n` was read before `pos` was taken out. -/
def wakeLoop (q : Nat) : Nat → Node → Node → M Unit
  | 0, _, _ => throw .fuel
  | fuel + 1, pos, n =>
    if pos = .head q then pure ()
    else
      match pos with
      | .head _ => throw .garbage
      | .entry t => do
        wakeTask t
        let s ← get
        wakeLoop q fuel n (s.waitLinks.next n)

def wakeUpAll (fuel q : Nat) : M Unit := do
  let s ← get
  let pos := s.waitLinks.next (.head q)
  wakeLoop q fuel pos (s.waitLinks.next pos)

end OreUnix.Proc
