/-
  Subject: WHAT EACH SCHEDULER FUNCTION DOES TO THE STATE, as rules for `wp`.

  The rules are of partial correctness: a call that touches NULL or freed memory, or reaches BUG(), has no next state.
  Each names the state after the call, built from a few changes of the state: `put` (a task with other fields),
  `enqueue`, `rotate`, `unwait`.
-/
import OreUnix.Proc.Lifecycle
import OreUnix.Lib.Wp

namespace OreUnix.Proc

open Function (update update_self update_idem)
open CircularList Wp

variable {s : Sched} {t : Nat}
variable {I : Sched → Prop} {cs : List Nat} {pid : Int} {q : Nat} {x : Task}

/-- Any crash. -/
abbrev Any : Crash → Prop := fun _ => True

/-! ## 1. Primitive operations -/

section Primitives

variable {Q : Unit → Sched → Prop}

theorem wp_getTask {R : Task → Sched → Prop} (h : ∀ x, s.tasks t = some x → R x s) : wp Any (getTask t) R s := by
  unfold wp getTask
  cases hx : s.tasks t with
  | none => trivial
  | some x => exact h x hx

@[simp] theorem wp_setTask (x : Option Task) :
    wp Any (setTask t x) Q s ↔ Q () { s with tasks := update s.tasks t x } := Iff.rfl

@[simp] theorem wp_setSignals (g : Nat) (y : Option Signals) :
    wp Any (setSignals g y) Q s ↔ Q () { s with signals := update s.signals g y } := Iff.rfl

@[simp] theorem wp_currentTask {R : Nat → Sched → Prop} : wp Any currentTask R s ↔ R s.current s := Iff.rfl

theorem wp_getSignals {R : Nat × Signals → Sched → Prop} {p : Option Nat}
    (h : ∀ g y, p = some g → s.signals g = some y → R (g, y) s) : wp Any (getSignals p) R s := by
  unfold wp getSignals
  cases p with
  | none => trivial
  | some g =>
    dsimp only
    cases hy : s.signals g with
    | none => trivial
    | some y => exact h g y rfl hy

/-- The state with a task's fields replaced. -/
def Sched.put (s : Sched) (t : Nat) (x : Task) : Sched :=
  { s with tasks := update s.tasks t (some x) }

theorem wp_modifyTask {f : Task → Task} (h : ∀ x, s.tasks t = some x → Q () (s.put t (f x))) :
    wp Any (modifyTask t f) Q s := by
  rw [modifyTask, wp_bind]
  exact wp_getTask h

theorem put_self (s : Sched) (t : Nat) (x : Task) : (s.put t x).tasks t = some x := update_self ..

theorem put_of_ne {u : Nat} (h : u ≠ t) (x : Task) : (s.put t x).tasks u = s.tasks u := Function.update_of_ne h ..

end Primitives

/-! ## 2. Queues -/

/-- A task gets new fields and is put at the end of the run queue. -/
def Sched.enqueue (s : Sched) (t : Nat) (x : Task) : Sched :=
  { s.put t x with runLinks := s.runLinks.addTail (.entry t) runqueue }

/-- A task is taken off the run queue. -/
def Sched.dequeue (s : Sched) (t : Nat) : Sched := { s with runLinks := s.runLinks.del (.entry t) }

/-- The first task of the run queue goes to its end. -/
def Sched.rotate (s : Sched) (t : Nat) : Sched :=
  { s with runLinks := (s.runLinks.del (.entry t)).addTail (.entry t) runqueue }

/-- A task is taken off its wait queue. -/
def Sched.unwait (s : Sched) (t : Nat) : Sched := { s with waitLinks := s.waitLinks.del (.entry t) }

section Queues

variable {Q : Unit → Sched → Prop}

theorem wp_schedAdd (h : ∀ x, s.tasks t = some x → Q () (s.enqueue t { x with state := .running })) :
    wp Any (schedAdd t) Q s := by
  rw [schedAdd, wp_bind]
  exact wp_modifyTask h

@[simp] theorem wp_schedRemove : wp Any (schedRemove t) Q s ↔ Q () (s.dequeue t) := Iff.rfl

theorem wp_wakeUpProcess (h : ∀ x, s.tasks t = some x → Q () (s.enqueue t { x with state := .running })) :
    wp Any (wakeUpProcess t) Q s := by
  rw [wakeUpProcess, wp_bind]
  refine wp_modifyTask fun x hx => wp_schedAdd fun y hy => ?_
  cases (put_self ..).symm.trans hy
  have heq : (s.put t { x with state := .running }).enqueue t { x with state := .running } =
      s.enqueue t { x with state := .running } := by
    simp only [Sched.enqueue, Sched.put, update_idem]
  rw [heq]
  exact h x hx

theorem wp_wakeTask (h : ∀ x, s.tasks t = some x → Q () ((s.unwait t).enqueue t { x with state := .running })) :
    wp Any (wakeTask t) Q s := by
  rw [wakeTask, wp_bind, wp_modify]
  exact wp_wakeUpProcess (s := s.unwait t) h

theorem wp_resume (h : ∀ x, s.tasks s.current = some x → Q () (s.put s.current { x with inSleep := false })) :
    wp Any resume Q s := by
  rw [resume, wp_bind, wp_currentTask]
  exact wp_modifyTask h

/-- `schedule`: nobody else to run, or the first of the queue is switched to. -/
theorem wp_schedule
    (hidle : s.runLinks.next runqueue = runqueue → ∀ x, s.tasks s.current = some x →
      Q () (s.put s.current { x with inSleep := false }))
    (hnext : ∀ n x k, s.runLinks.next runqueue = .entry n → s.tasks n = some x →
      Q () { (s.rotate n).put n { x with timeSlice := k, inSleep := false } with current := n }) :
    wp Any schedule Q s := by
  rw [schedule, wp_bind, wp_get]
  split
  · exact wp_resume (hidle ‹_›)
  · cases hn : s.runLinks.next runqueue with
    | head q => trivial
    | entry n =>
      dsimp only
      rw [wp_bind, wp_set]
      split
      · refine wp_resume fun x hx => ?_
        have hcur : s.current = n := ‹_›
        subst hcur
        exact hnext s.current x x.timeSlice hn hx
      · rw [wp_bind]
        refine wp_modifyTask fun x hx => ?_
        rw [wp_bind, wp_modify]
        refine wp_resume fun y hy => ?_
        cases (put_self ..).symm.trans hy
        have hpost := hnext n x 20 hn hx
        simpa only [Sched.put, Sched.rotate, update_idem] using hpost

theorem wp_schedTick (hkernel : Q () s)
    (hslice : ∀ x k, s.tasks s.current = some x → Q () (s.put s.current { x with timeSlice := k }))
    (hsched : ∀ x k, s.tasks s.current = some x →
      wp Any schedule Q (s.put s.current { x with timeSlice := k })) : wp Any schedTick Q s := by
  rw [schedTick, wp_bind, wp_currentTask]
  split
  · exact hkernel
  · rw [wp_bind]
    refine wp_getTask fun x hx => ?_
    dsimp only
    generalize (if x.timeSlice > 0 then x.timeSlice - 1 else x.timeSlice) = k
    split
    · exact hsched x 20 hx
    · exact hslice x k hx

/-- The running task is marked asleep, put on the wait queue `q` and taken off the run queue. -/
def Sched.fallAsleep (s : Sched) (q : Nat) (x : Task) : Sched :=
  { s.put s.current { x with state := .sleeping, inSleep := true } with
    waitLinks := s.waitLinks.addTail (.entry s.current) (.head q)
    runLinks := s.runLinks.del (.entry s.current) }

theorem wp_sleepOn (h : ∀ x, s.tasks s.current = some x → wp Any schedule Q (s.fallAsleep q x)) :
    wp Any (sleepOn q) Q s := by
  rw [sleepOn, wp_bind, wp_currentTask, wp_bind]
  exact wp_modifyTask h

theorem wp_wakeUp (hempty : s.waitLinks.next (.head q) = .head q → Q () s)
    (h : ∀ t x, s.waitLinks.next (.head q) = .entry t → s.tasks t = some x →
      Q () ((s.unwait t).enqueue t { x with state := .running })) : wp Any (wakeUp q) Q s := by
  rw [wakeUp, wp_bind, wp_get]
  split
  · exact hempty ‹_›
  · cases hn : s.waitLinks.next (.head q) with
    | head q' => trivial
    | entry t => exact wp_wakeTask fun x hx => h t x hn hx

end Queues

/-! ## 3. Tasks -/

section Tasks

/-- A task of the list `ts` with this pid. -/
def HasPid (s : Sched) (pid : Int) (ts : List Nat) (t : Nat) : Prop :=
  t ∈ ts ∧ ∃ x, s.tasks t = some x ∧ (x.pid : Int) = pid

/-- The first task on the list with this pid. -/
def Sched.holder (s : Sched) (pid : Int) : Option Nat :=
  s.taskList.find? fun t => (s.tasks t).any fun x => decide ((x.pid : Int) = pid)

theorem hasPid_of_holder (h : s.holder pid = some t) : HasPid s pid s.taskList t := by
  have hpid := List.find?_some h
  cases hx : s.tasks t with
  | none =>
    rw [hx] at hpid
    cases hpid
  | some x =>
    rw [hx] at hpid
    exact ⟨List.mem_of_find?_eq_some h, x, hx, of_decide_eq_true hpid⟩

variable {R : Option Nat → Sched → Prop}

theorem wp_findTaskByPid (h : R (s.holder pid) s) : wp Any (findTaskByPid pid) R s := by
  rw [findTaskByPid, wp_bind, wp_get]
  unfold Sched.holder at h
  generalize s.taskList = ts at h
  induction ts with
  | nil => exact h
  | cons t ts ih =>
    rw [findPid, wp_bind]
    refine wp_getTask fun x hx => ?_
    rw [List.find?_cons, hx, Option.any_some] at h
    split
    · rename_i hpid
      rwa [decide_eq_true hpid] at h
    · rename_i hpid
      rw [decide_eq_false hpid] at h
      exact ih h

theorem wp_allocPid {R : Nat → Sched → Prop} (h : ∀ p k, R p { s with nextPid := k }) : wp Any allocPid R s := h _ _

theorem wp_newSignals {R : Nat → Sched → Prop} {y : Signals}
    (h : R s.nextSignal { s with
      signals := update s.signals s.nextSignal (some y), nextSignal := s.nextSignal + 1 }) :
    wp Any (newSignals y) R s := h

/-- A new task, its links initialised. -/
def Sched.link (s : Sched) (x : Task) : Sched :=
  { s with
    tasks := update s.tasks s.nextTask (some x)
    runLinks := s.runLinks.init (.entry s.nextTask)
    waitLinks := s.waitLinks.init (.entry s.nextTask)
    taskList := s.taskList ++ [s.nextTask]
    nextTask := s.nextTask + 1 }

theorem wp_linkTask {R : Nat → Sched → Prop} (h : ∀ y, (s.link x).tasks s.current = some y → R s.nextTask
      ((s.link x).put s.current { y with children := y.children ++ [s.nextTask] })) :
    wp Any (linkTask x) R s := by
  rw [linkTask, wp_bind, wp_get, wp_bind, wp_set, wp_bind]
  exact wp_modifyTask (s := s.link x) h

/-- `sys_kill` has found a task for its signal, and its signal struct. -/
structure Found (s : Sched) (pid sig : Int) (t : Nat) (x : Task) (g : Nat) (y : Signals) : Prop where
  low : 0 < sig
  high : sig < maxSignals
  pid : s.holder pid = some t
  task : s.tasks t = some x
  own : x.signal = some g
  struct : s.signals g = some y

/-- The signal is pending. -/
abbrev Sched.post (s : Sched) (g : Nat) (y : Signals) (sig : Int) : Sched :=
  { s with signals := update s.signals g (some { y with pending := y.pending ||| (1#64 <<< sig.toNat) }) }

/-- A signal posted: the target was awake, or is made to run. -/
theorem wp_sysKill {R : Int → Sched → Prop} {sig : Int}
    (hnone : ∀ r, (0 < sig → sig < maxSignals → s.holder pid = none) → R r s)
    (hpost : ∀ t x g y, Found s pid sig t x g y → x.state ≠ .sleeping → R 0 (s.post g y sig))
    (hwake : ∀ t x g y, Found s pid sig t x g y → x.state = .sleeping →
      R 0 ((s.post g y sig).enqueue t { x with state := .running })) :
    wp Any (sysKill pid sig) R s := by
  unfold sysKill
  split
  · exact hnone _ fun _ _ => by omega
  · refine wp_then (wp_findTaskByPid ?_)
    cases ht : s.holder pid with
    | none => exact hnone _ fun _ _ => ht
    | some t =>
      dsimp only
      rw [wp_bind]
      refine wp_getTask fun x hx => ?_
      rw [wp_bind]
      refine wp_getSignals fun g y hg hy => ?_
      dsimp only
      rw [wp_bind, wp_setSignals]
      have hfound : Found s pid sig t x g y := ⟨by omega, by omega, ht, hx, hg, hy⟩
      split
      · rw [wp_bind]
        refine wp_wakeUpProcess fun x' hx' => ?_
        cases hx.symm.trans hx'
        exact hwake t x g y hfound ‹_›
      · exact hpost t x g y hfound ‹_›

/-- Handing the children over touches their `parent` and `ppid` only. -/
theorem wp_reparent {init : Option Nat}
    (hput : ∀ s t x, I s → s.tasks t = some x → I (s.put t { x with parent := init, ppid := 1 })) (h : I s) :
    wp Any (reparent init cs) (fun _ s' => I s') s := by
  induction cs generalizing s with
  | nil => exact h
  | cons c cs ih =>
    rw [reparent, wp_bind]
    exact wp_modifyTask fun x hx => ih (hput s c x h hx)

/-- A zombie among the children, with the pid asked for. -/
def ZombieChild (s : Sched) (pid : Int) (cs : List Nat) (c : Nat) : Prop :=
  c ∈ cs ∧ ∃ x, s.tasks c = some x ∧ (pid = -1 ∨ (x.pid : Int) = pid) ∧ x.state = .zombie

/-- The first such child. -/
def Sched.zombie (s : Sched) (pid : Int) (cs : List Nat) : Option Nat :=
  cs.find? fun c => (s.tasks c).any fun x => decide ((pid = -1 ∨ (x.pid : Int) = pid) ∧ x.state = .zombie)

theorem wp_findZombie (hnone : (∀ c, ¬ ZombieChild s pid cs c) → R none s)
    (hsome : ∀ c x, s.zombie pid cs = some c → c ∈ cs → s.tasks c = some x → x.state = .zombie → R (some c) s) :
    wp Any (findZombie pid cs) R s := by
  induction cs with
  | nil => exact hnone fun c hc => List.not_mem_nil hc.1
  | cons c cs ih =>
    rw [findZombie, wp_bind]
    refine wp_getTask fun x hx => ?_
    rw [Sched.zombie, List.find?_cons, hx, Option.any_some] at hsome
    split
    · rename_i hz
      exact hsome c x (by rw [decide_eq_true hz]) (.head _) hx hz.2
    · rename_i hz
      rw [decide_eq_false hz] at hsome
      refine ih (fun hall => hnone fun d hd => ?_) fun c' x' hf hc' => hsome c' x' hf (.tail _ hc')
      obtain ⟨hmem, y, hy, hmatch⟩ := hd
      rcases List.mem_cons.mp hmem with rfl | hmem
      · cases hx.symm.trans hy
        exact hz hmatch
      · exact hall d ⟨hmem, y, hy, hmatch⟩

end Tasks

/-! ## 4. Calls that sleep and wake nobody

What these calls do to the queues and to the tasks' states is to add a running task, to free a zombie
and to write other fields. An invariant that survives that survives the calls. -/

structure Stable (I : Sched → Prop) : Prop where
  quiet : ∀ {s s'}, I s → s'.tasks = s.tasks → s'.runLinks = s.runLinks →
    s'.waitLinks = s.waitLinks → s'.nextTask = s.nextTask → s'.current = s.current → I s'
  touch : ∀ {s t x x'}, I s → s.tasks t = some x → x'.state = x.state → x'.inSleep = x.inSleep →
    I (s.put t x')
  link : ∀ {s x}, I s → x.state = .running → x.inSleep = false → I (s.link x)
  join : ∀ {s t x}, I s → s.tasks t = some x → x.state = .running → Alone s.runLinks (.entry t) →
    I (s.enqueue t { x with state := .running })
  free : ∀ {s t x}, I s → s.tasks t = some x → x.state = .zombie →
    I { s with tasks := update s.tasks t none }

section StableCalls

variable {I : Sched → Prop}

section Made

variable (hI : Stable I) (h : I s)

include hI h

/-- A new task linked and put on the run queue. -/
theorem Stable.spawn (hx : x.state = .running) (hsleep : x.inSleep = false) :
    wp Any (linkTask x) (fun t s' => wp Any (schedAdd t) (fun _ s' => I s') s') s := by
  refine wp_linkTask fun y hy => ?_
  have hput : I ((s.link x).put s.current { y with children := y.children ++ [s.nextTask] }) :=
    hI.touch (hI.link h hx hsleep) hy rfl rfl
  refine wp_schedAdd fun z hz => hI.join hput hz ?_ ⟨update_self .., update_self ..⟩
  by_cases hc : s.nextTask = s.current
  · rw [hc, put_self] at hz
    have hself : (s.link x).tasks s.nextTask = some x := update_self ..
    rw [hc, hy] at hself
    cases hself
    cases hz
    exact hx
  · rw [put_of_ne hc] at hz
    cases (update_self ..).symm.trans hz
    exact hx

theorem Stable.taskCreate (r : CreateOutcome) : wp Any (taskCreate r) (fun _ s' => I s') s := by
  cases r with
  | noSlab => exact h
  | noResource =>
    refine wp_then (wp_allocPid fun _ _ => ?_)
    exact hI.quiet h rfl rfl rfl rfl rfl
  | ok signal =>
    rw [Proc.taskCreate, wp_bind]
    refine wp_allocPid fun pid k => ?_
    rw [wp_bind, wp_currentTask, wp_bind]
    refine wp_getTask fun x hx => ?_
    cases signal with
    | true =>
      simp only [if_true, wp_bind]
      refine wp_newSignals (hI.spawn (hI.quiet h ?_ ?_ ?_ ?_ ?_) ?_ ?_)
      all_goals rfl
    | false =>
      simp only [Bool.false_eq_true, if_false, wp_bind, wp_pure]
      refine hI.spawn (hI.quiet h ?_ ?_ ?_ ?_ ?_) ?_ ?_
      all_goals rfl

theorem Stable.sysFork (r : ForkOutcome) : wp Any (sysFork r) (fun _ s' => I s') s := by
  rw [Proc.sysFork, wp_bind, wp_currentTask, wp_bind]
  refine wp_getTask fun x hx => ?_
  cases r with
  | noSlab => exact h
  | noSignal | noStack =>
    refine wp_then (wp_allocPid fun _ _ => ?_)
    exact hI.quiet h rfl rfl rfl rfl rfl
  | noMm | noFiles =>
    refine wp_then (wp_allocPid fun _ _ => ?_)
    cases x.signal with
    | none => exact hI.quiet h rfl rfl rfl rfl rfl
    | some g => exact hI.quiet h rfl rfl rfl rfl rfl
  | ok =>
    refine wp_then (wp_allocPid fun pid k => ?_)
    rw [wp_bind]
    refine wp_getSignals fun g y hg hy => ?_
    refine wp_then (wp_newSignals ?_)
    refine wp_seq (hI.spawn (hI.quiet h ?_ ?_ ?_ ?_ ?_) ?_ ?_)
      fun t s' ht => wp_then ht
    all_goals rfl

theorem Stable.sysSigaction (sig : Int) (act : Handler) : wp Any (sysSigaction sig act) (fun _ s' => I s') s := by
  unfold Proc.sysSigaction
  split
  · exact h
  · split
    · exact h
    · rw [wp_bind, wp_currentTask, wp_bind]
      refine wp_getTask fun x hx => ?_
      rw [wp_bind]
      exact wp_getSignals fun g y hg hy => hI.quiet h rfl rfl rfl rfl rfl

theorem Stable.reap {c : Nat} {y : Task} (hy : s.tasks c = some y)
    (hz : y.state = .zombie) : wp Any (reap c y) (fun _ s' => I s') s := by
  rw [Proc.reap, wp_bind, wp_currentTask, wp_bind, wp_modify, wp_bind]
  refine wp_modifyTask fun x hx => ?_
  have hquiet : I { s with taskList := s.taskList.filter (· ≠ c) } := hI.quiet h rfl rfl rfl rfl rfl
  have hput : I (Sched.put { s with taskList := s.taskList.filter (· ≠ c) } s.current
      { x with children := x.children.filter (· ≠ c) }) := hI.touch hquiet hx rfl rfl
  have hc : ∃ z, (s.put s.current { x with children := x.children.filter (· ≠ c) }).tasks c =
      some z ∧ z.state = .zombie := by
    by_cases hcur : c = s.current
    · subst hcur
      cases hx.symm.trans hy
      exact ⟨_, put_self .., hz⟩
    · exact ⟨y, (put_of_ne hcur _).trans hy, hz⟩
  obtain ⟨z, hc, hz⟩ := hc
  cases y.signal with
  | none => exact hI.free hput hc hz
  | some g =>
    refine hI.free (s := { s.put s.current { x with children := x.children.filter (· ≠ c) } with
      taskList := s.taskList.filter (· ≠ c), signals := update s.signals g none }) ?_ hc hz
    exact hI.quiet hput rfl rfl rfl rfl rfl

/-- The round of `sys_waitpid` puts the running task to sleep. -/
def WaitSleeps (s : Sched) (pid : Int) (options : Nat) : Prop :=
  options &&& 1 = 0 ∧ ∀ x, s.tasks s.current = some x → ∀ c, ¬ ZombieChild s pid x.children c

theorem Stable.sysWaitpid (pid : Int) (options : Nat)
    (hsleep : WaitSleeps s pid options → wp Any (sleepOn waitQ) (fun _ s' => I s') s) :
    wp Any (sysWaitpid pid options) (fun _ s' => I s') s := by
  rw [Proc.sysWaitpid, wp_bind, wp_currentTask, wp_bind]
  refine wp_getTask fun x hx => ?_
  rw [wp_bind]
  refine wp_findZombie (fun hnone => ?_) fun c y _ hc hy hz => ?_
  · dsimp only
    split
    · exact h
    · rename_i hopt
      refine wp_then (hsleep ⟨not_not.mp hopt, fun x' hx' => ?_⟩)
      cases hx.symm.trans hx'
      exact hnone
  · refine wp_then (wp_getTask fun y' hy' => ?_)
    cases hy.symm.trans hy'
    exact wp_then (hI.reap h hy hz)

end Made

end StableCalls

end OreUnix.Proc
