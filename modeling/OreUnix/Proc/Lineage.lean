/-
  Subject: WHO IS WHO AFTER A CALL: what the calls do to pids, parents, children and signal structs.

  * `SameKin x x'` -- a task with the same pid, parent, children and signal struct, which is not a zombie unless it
    was one; `SameFamily s s'` -- the same tasks, each with the same kin;
  * `Lineage s e s'` -- the call `e` leaves the family as it is, takes a pid, frees the caller's signal struct, adds a
    child, ends the caller or reaps a zombie child;
  * `exec_lineage` -- every call is of one of these kinds.
-/
import OreUnix.Proc.RunQueue

namespace OreUnix.Proc

open Function (update)
open CircularList Wp

variable {s s' s'' : Sched} {t : Nat} {x x' x'' : Task}

/-! ## 1. The same family -/

structure SameKin (x x' : Task) : Prop where
  pid : x'.pid = x.pid
  ppid : x'.ppid = x.ppid
  signal : x'.signal = x.signal
  parent : x'.parent = x.parent
  children : x'.children = x.children
  zombie : x'.state = .zombie → x.state = .zombie

theorem SameKin.refl (x : Task) : SameKin x x := ⟨rfl, rfl, rfl, rfl, rfl, id⟩

theorem SameKin.trans (h : SameKin x x') (h' : SameKin x' x'') : SameKin x x'' :=
  ⟨h'.pid.trans h.pid, h'.ppid.trans h.ppid, h'.signal.trans h.signal, h'.parent.trans h.parent,
    h'.children.trans h.children, fun hz => h.zombie (h'.zombie hz)⟩

/-- The two states have the same tasks, up to `R`, and the same signal structs. -/
structure SameTasks (R : Task → Task → Prop) (s s' : Sched) : Prop where
  alive : ∀ {t x}, s.tasks t = some x → ∃ x', s'.tasks t = some x' ∧ R x x'
  gone : ∀ {t}, s.tasks t = none → s'.tasks t = none
  signals : ∀ g, (s'.signals g).isSome = (s.signals g).isSome
  list : s'.taskList = s.taskList
  nextTask : s'.nextTask = s.nextTask
  nextSignal : s'.nextSignal = s.nextSignal
  nextPid : s'.nextPid = s.nextPid

abbrev SameFamily (s s' : Sched) : Prop := SameTasks SameKin s s'

/-- Pid, signal struct and children only. -/
structure SameId (x x' : Task) : Prop where
  pid : x'.pid = x.pid
  signal : x'.signal = x.signal
  children : x'.children = x.children

section Tasks

variable {R : Task → Task → Prop}

theorem SameTasks.back (h : SameTasks R s s') (hx : s'.tasks t = some x') : ∃ x, s.tasks t = some x ∧ R x x' := by
  cases ht : s.tasks t with
  | none =>
    rw [h.gone ht] at hx
    cases hx
  | some x =>
    obtain ⟨y, hy, hR⟩ := h.alive ht
    cases hx.symm.trans hy
    exact ⟨x, rfl, hR⟩

theorem SameTasks.refl (hR : ∀ x, R x x) (s : Sched) : SameTasks R s s :=
  ⟨fun hx => ⟨_, hx, hR _⟩, id, fun _ => rfl, rfl, rfl, rfl, rfl⟩

theorem SameTasks.trans (hR : ∀ x y z, R x y → R y z → R x z) (h : SameTasks R s s')
    (h' : SameTasks R s' s'') : SameTasks R s s'' := by
  refine ⟨fun {t x} hx => ?_, fun ht => h'.gone (h.gone ht), fun g => (h'.signals g).trans (h.signals g),
    h'.list.trans h.list, h'.nextTask.trans h.nextTask, h'.nextSignal.trans h.nextSignal,
    h'.nextPid.trans h.nextPid⟩
  obtain ⟨y, hy, hxy⟩ := h.alive hx
  obtain ⟨z, hz, hyz⟩ := h'.alive hy
  exact ⟨z, hz, hR _ _ _ hxy hyz⟩

theorem SameTasks.mono {R' : Task → Task → Prop} (hR : ∀ x y, R x y → R' x y) (h : SameTasks R s s') :
    SameTasks R' s s' := by
  refine ⟨fun hx => ?_, h.gone, h.signals, h.list, h.nextTask, h.nextSignal, h.nextPid⟩
  obtain ⟨y, hy, hxy⟩ := h.alive hx
  exact ⟨y, hy, hR _ _ hxy⟩

/-- Queues and the processor have no part in it. -/
theorem SameTasks.congr (h : SameTasks R s s') (htasks : s''.tasks = s'.tasks)
    (hsignals : s''.signals = s'.signals) (hlist : s''.taskList = s'.taskList)
    (htask : s''.nextTask = s'.nextTask) (hsignal : s''.nextSignal = s'.nextSignal)
    (hpid : s''.nextPid = s'.nextPid) : SameTasks R s s'' := by
  refine ⟨fun hx => ?_, fun ht => ?_, fun g => ?_, hlist.trans h.list, htask.trans h.nextTask,
    hsignal.trans h.nextSignal, hpid.trans h.nextPid⟩
  · rw [htasks]
    exact h.alive hx
  · rw [htasks]
    exact h.gone ht
  · rw [hsignals]
    exact h.signals g

/-- One task with other fields. -/
theorem SameTasks.put (hR : ∀ x y z, R x y → R y z → R x z) (h : SameTasks R s s')
    (hrefl : ∀ x, R x x) (hx : s'.tasks t = some x) (hkin : R x x') : SameTasks R s (s'.put t x') := by
  refine SameTasks.trans hR h ⟨fun {u y} hy => ?_, fun {u} hu => ?_, fun _ => rfl, rfl, rfl, rfl, rfl⟩
  · by_cases hut : u = t
    · subst hut
      cases hx.symm.trans hy
      exact ⟨x', put_self .., hkin⟩
    · exact ⟨y, (put_of_ne hut x').trans hy, hrefl y⟩
  · have hut : u ≠ t := by
      intro he
      rw [he, hx] at hu
      cases hu
    exact (put_of_ne hut x').trans hu

end Tasks

theorem SameFamily.refl (s : Sched) : SameFamily s s := SameTasks.refl SameKin.refl s

theorem SameFamily.trans (h : SameFamily s s') (h' : SameFamily s' s'') : SameFamily s s'' :=
  SameTasks.trans (fun _ _ _ => SameKin.trans) h h'

theorem SameFamily.put (h : SameFamily s s') (hx : s'.tasks t = some x) (hkin : SameKin x x') :
    SameFamily s (s'.put t x') :=
  SameTasks.put (fun _ _ _ => SameKin.trans) h SameKin.refl hx hkin

/-- A state that is not that of a zombie. -/
theorem SameKin.withState (x : Task) (st : TaskState) (hst : st ≠ .zombie) (k : Nat) (b : Bool) :
    SameKin x { x with state := st, timeSlice := k, inSleep := b } :=
  ⟨rfl, rfl, rfl, rfl, rfl, fun hz => absurd hz hst⟩

theorem SameKin.withSlice (x : Task) (k : Nat) (b : Bool) :
    SameKin x { x with timeSlice := k, inSleep := b } := ⟨rfl, rfl, rfl, rfl, rfl, id⟩

theorem SameFamily.enqueue (h : SameFamily s s') (hx : s'.tasks t = some x) :
    SameFamily s (s'.enqueue t { x with state := .running }) :=
  (h.put hx (SameKin.withState x .running (by decide) x.timeSlice x.inSleep)).congr rfl rfl rfl rfl rfl rfl

/-- A signal is posted or taken. -/
theorem SameFamily.post (h : SameFamily s s') {g : Nat} {y : Signals} (hy : s'.signals g = some y)
    (z : Signals) : SameFamily s { s' with signals := update s'.signals g (some z) } := by
  refine ⟨h.alive, h.gone, fun k => ?_, h.list, h.nextTask, h.nextSignal, h.nextPid⟩
  dsimp only
  by_cases hk : k = g
  · subst hk
    have hold := h.signals k
    rw [hy] at hold
    rw [← hold, Function.update_self]
    rfl
  · rw [Function.update_of_ne hk]
    exact h.signals k

/-! ## 2. Calls that leave the family as it is -/

theorem schedule_family (s : Sched) : wp Any schedule (fun _ s' => SameFamily s s') s := by
  refine wp_schedule (fun _ x hx => ?_) fun n x k _ hx => ?_
  · exact (SameFamily.refl s).put hx (.withSlice x x.timeSlice false)
  · have hrot : SameFamily s (s.rotate n) := (SameFamily.refl s).congr rfl rfl rfl rfl rfl rfl
    exact (hrot.put hx (.withSlice x k false)).congr rfl rfl rfl rfl rfl rfl

/-- A call that goes on with `schedule`. -/
theorem SameFamily.schedule (h : SameFamily s s') : wp Any schedule (fun _ s'' => SameFamily s s'') s' :=
  wp_imp (schedule_family s') fun _ _ h' => h.trans h'

theorem schedTick_family (s : Sched) : wp Any schedTick (fun _ s' => SameFamily s s') s := by
  refine wp_schedTick (SameFamily.refl s) (fun x k hx => ?_) fun x k hx => ?_
  · exact (SameFamily.refl s).put hx (.withSlice x k x.inSleep)
  · exact ((SameFamily.refl s).put hx (.withSlice x k x.inSleep)).schedule

theorem sleepOn_family (s : Sched) (q : Nat) : wp Any (sleepOn q) (fun _ s' => SameFamily s s') s := by
  refine wp_sleepOn fun x hx => SameFamily.schedule ?_
  have hput := (SameFamily.refl s).put hx (SameKin.withState x .sleeping (by decide) x.timeSlice true)
  exact hput.congr rfl rfl rfl rfl rfl rfl

theorem wakeUp_family (s : Sched) (q : Nat) : wp Any (wakeUp q) (fun _ s' => SameFamily s s') s := by
  refine wp_wakeUp (fun _ => SameFamily.refl s) fun t x _ hx => SameFamily.enqueue ?_ hx
  exact (SameFamily.refl s).congr rfl rfl rfl rfl rfl rfl

theorem wakeLoop_family {q : Nat} (fuel : Nat) (pos n : Node) (h : SameFamily s s') :
    wp Any (wakeLoop q fuel pos n) (fun _ s'' => SameFamily s s'') s' := by
  induction fuel generalizing s' pos n with
  | zero => trivial
  | succ fuel ih =>
    unfold wakeLoop
    split
    · exact h
    · cases pos with
      | head q' => trivial
      | entry t =>
        dsimp only
        rw [wp_bind]
        refine wp_wakeTask fun x hx => ?_
        rw [wp_bind, wp_get]
        have hun : SameFamily s (s'.unwait t) := h.congr rfl rfl rfl rfl rfl rfl
        exact ih _ _ (hun.enqueue hx)

theorem wakeUpAll_family (s : Sched) (fuel q : Nat) : wp Any (wakeUpAll fuel q) (fun _ s' => SameFamily s s') s := by
  rw [wakeUpAll, wp_bind, wp_get]
  exact wakeLoop_family fuel _ _ (SameFamily.refl s)

/-- Posting needs the signal struct, which stays. -/
theorem sysKill_family (s : Sched) (pid sig : Int) : wp Any (sysKill pid sig) (fun _ s' => SameFamily s s') s := by
  have hpost : ∀ {t x g y}, Found s pid sig t x g y → SameFamily s (s.post g y sig) :=
    fun hf => (SameFamily.refl s).post hf.struct _
  exact wp_sysKill (fun _ _ => SameFamily.refl s) (fun t x g y hf _ => hpost hf) fun t x g y hf _ =>
    (hpost hf).enqueue hf.task

theorem sysSigaction_family (s : Sched) (sig : Int) (act : Handler) :
    wp Any (sysSigaction sig act) (fun _ s' => SameFamily s s') s := by
  unfold sysSigaction
  split
  · exact SameFamily.refl s
  · split
    · exact SameFamily.refl s
    · rw [wp_bind, wp_currentTask, wp_bind]
      refine wp_getTask fun x _ => ?_
      rw [wp_bind]
      exact wp_getSignals fun g y _ hy => (SameFamily.refl s).post hy _

/-! ## 3. Calls that change it -/

/-- The pid counter after `alloc_pid`. -/
def pidAfter (p : Nat) : Nat := if p + 1 ≥ pidMax then 2 else p + 1

def Sched.tookPid (s : Sched) : Sched := { s with nextPid := pidAfter s.nextPid }

/-- A signal struct is made, or it is not. -/
def Sched.addSignals (s : Sched) : Option Signals → Sched
  | some y => { s with signals := update s.signals s.nextSignal (some y), nextSignal := s.nextSignal + 1 }
  | none => s

/-- A child of the running task, its pid and its signal struct. -/
structure NewChild (s : Sched) (x : Task) (y : Option Signals) (z : Task) : Prop where
  pid : z.pid = s.nextPid
  ppid : z.ppid = x.pid
  state : z.state = .running
  signal : z.signal = y.map fun _ => s.nextSignal
  parent : z.parent = some s.current
  children : z.children = []

/-- The new task `z` is there, and is the last child of the running task, now with the fields `x`. -/
def Sched.adopt (s : Sched) (z x : Task) : Sched :=
  (s.link z).put s.current { x with children := x.children ++ [s.nextTask] }

/-- The zombie `c` is gone, with its signal struct, from the list and from the children of the running task, which has
    the fields `x`. -/
def Sched.reaped (s : Sched) (c : Nat) (x y : Task) : Sched :=
  { s with
    taskList := s.taskList.filter (· ≠ c)
    tasks := update (update s.tasks s.current (some { x with children := x.children.filter (· ≠ c) })) c none
    signals := match y.signal with
      | some g => update s.signals g none
      | none => s.signals }

/-- The calls that make a task, and the signal struct they make for it. -/
def Event.makes : Event → Option Signals → Prop
  | .create (.ok true), y => y = some ⟨0, fun _ => .dfl⟩
  | .create (.ok false), y => y = none
  | .fork .ok, y => y ≠ none
  | _, _ => False

/-- The calls that end the running task. -/
def Event.ends (s : Sched) : Event → Prop
  | .exit _ => True
  | .deliver => Fatal s
  | _ => False

/-- The running task, with the fields `x`, has ended: pids, signal structs and lists of children stay, and so does
    everything else if it had no children. -/
structure Ended (s : Sched) (x : Task) (s' : Sched) : Prop where
  was : s.tasks s.current = some x
  ids : SameTasks SameId s s'
  leaf : x.children = [] → SameFamily (s.put s.current { x with state := .zombie }) s'

inductive Lineage (s : Sched) (e : Event) (s' : Sched) : Prop
  | same (h : SameFamily s s')
  | pid (h : SameFamily s.tookPid s')
  | drop {x : Task} {g : Nat} (he : e = .fork .noMm ∨ e = .fork .noFiles) (hx : s.tasks s.current = some x)
      (hg : x.signal = some g) (h : SameFamily { s.tookPid with signals := update s.signals g none } s')
  | child {x x' z : Task} {y : Option Signals} (he : e.makes y) (hx : s.tasks s.current = some x)
      (hz : NewChild s x y z) (hx' : ((s.tookPid.addSignals y).link z).tasks s.current = some x')
      (h : SameFamily ((s.tookPid.addSignals y).adopt z x') s')
  | exit {x : Task} (he : e.ends s) (h : Ended s x s')
  | reap {c : Nat} {x y : Task} (hx : s.tasks s.current = some x) (hc : c ∈ x.children)
      (hy : s.tasks c = some y) (hz : y.state = .zombie) (h : s' = s.reaped c x y)

/-! ### 3.1 New tasks -/

theorem wp_allocPid_eq {R : Nat → Sched → Prop} (h : R s.nextPid s.tookPid) : wp Any allocPid R s := h

theorem SameFamily.adopted (z : Task) : wp Any (linkTask z) (fun t s' => wp Any (schedAdd t) (fun _ s'' =>
      ∃ x, (s.link z).tasks s.current = some x ∧ SameFamily (s.adopt z x) s'') s') s := by
  refine wp_linkTask fun x hx => wp_schedAdd fun y hy => ?_
  exact ⟨x, hx, SameFamily.enqueue (SameFamily.refl _) hy⟩

theorem taskCreate_lineage (s : Sched) (r : CreateOutcome) :
    wp Any (taskCreate r) (fun _ s' => Lineage s (.create r) s') s := by
  cases r with
  | noSlab => exact .same (SameFamily.refl s)
  | noResource => exact wp_then (wp_allocPid_eq (.pid (SameFamily.refl _)))
  | ok signal =>
    rw [taskCreate, wp_bind]
    refine wp_allocPid_eq ?_
    rw [wp_bind, wp_currentTask, wp_bind]
    refine wp_getTask fun x hx => ?_
    cases signal with
    | true =>
      simp only [if_true, wp_bind]
      refine wp_newSignals ((wp_pure _).mpr (wp_imp (SameFamily.adopted _) fun t s1 ht => wp_imp ht fun _ s2 h2 => ?_))
      obtain ⟨x', hx', hsame⟩ := h2
      exact .child (y := some ⟨0, fun _ => .dfl⟩) rfl hx ⟨rfl, rfl, rfl, rfl, rfl, rfl⟩ hx' hsame
    | false =>
      simp only [Bool.false_eq_true, if_false, wp_bind, wp_pure]
      refine wp_imp (SameFamily.adopted _) fun t s1 ht => wp_imp ht fun _ s2 h2 => ?_
      obtain ⟨x', hx', hsame⟩ := h2
      exact .child (y := none) rfl hx ⟨rfl, rfl, rfl, rfl, rfl, rfl⟩ hx' hsame

theorem sysFork_lineage (s : Sched) (r : ForkOutcome) :
    wp Any (sysFork r) (fun _ s' => Lineage s (.fork r) s') s := by
  rw [sysFork, wp_bind, wp_currentTask, wp_bind]
  refine wp_getTask fun x hx => ?_
  cases r with
  | noSlab => exact .same (SameFamily.refl s)
  | noSignal | noStack => exact wp_then (wp_allocPid_eq (.pid (SameFamily.refl _)))
  | noMm | noFiles =>
    refine wp_then (wp_allocPid_eq ?_)
    cases hg : x.signal with
    | none => exact .pid (SameFamily.refl _)
    | some g =>
      refine .drop ?_ hx hg (SameFamily.refl _)
      first
        | exact .inl rfl
        | exact .inr rfl
  | ok =>
    refine wp_then (wp_allocPid_eq ?_)
    rw [wp_bind]
    refine wp_getSignals fun g y _ _ => ?_
    refine wp_then (wp_newSignals ?_)
    refine wp_seq (SameFamily.adopted _) fun t s1 ht => ?_
    refine wp_seq ht fun _ s2 h2 => ?_
    obtain ⟨x', hx', hsame⟩ := h2
    exact .child (y := some y) (by simp [Event.makes]) hx ⟨rfl, rfl, rfl, rfl, rfl, rfl⟩ hx' hsame

/-! ### 3.2 Exit -/

theorem exitNotify_family (s : Sched) (x : Task) : wp Any (exitNotify x) (fun _ s' => SameFamily s s') s := by
  unfold exitNotify
  cases x.parent with
  | none => exact SameFamily.refl s
  | some p =>
    refine wp_then (wp_getTask fun y _ => ?_)
    refine wp_seq (sysKill_family s y.pid SIGCHLD) fun _ s1 h1 => ?_
    exact wp_wakeUpProcess fun z hz => h1.enqueue hz

theorem SameFamily.ids (h : SameFamily s s') : SameTasks SameId s s' :=
  h.mono fun _ _ hk => ⟨hk.pid, hk.signal, hk.children⟩

theorem SameId.trans (h : SameId x x') (h' : SameId x' x'') : SameId x x'' :=
  ⟨h'.pid.trans h.pid, h'.signal.trans h.signal, h'.children.trans h.children⟩

theorem sameIds_put (hx : s.tasks t = some x) (hid : SameId x x') : SameTasks SameId s (s.put t x') :=
  SameTasks.put (fun _ _ _ => SameId.trans) (SameTasks.refl (fun _ => ⟨rfl, rfl, rfl⟩) s)
    (fun _ => ⟨rfl, rfl, rfl⟩) hx hid

/-- The running task ends. Its children get another parent; without children nobody else changes. -/
theorem sysExit_ended (s : Sched) (code : Int) : wp Any (sysExit code) (fun _ s' => ∃ x, Ended s x s') s := by
  rw [sysExit, wp_bind, wp_currentTask, wp_bind]
  refine wp_getTask fun x hx => ?_
  rw [wp_bind, wp_setTask, wp_bind]
  have hids : SameTasks SameId s (s.put s.current { x with state := .zombie, exitCode := code }) :=
    sameIds_put hx ⟨rfl, rfl, rfl⟩
  have hleaf : SameFamily (s.put s.current { x with state := .zombie })
      (s.put s.current { x with state := .zombie, exitCode := code }) := by
    have hkin : SameKin { x with state := .zombie } { x with state := .zombie, exitCode := code } :=
      ⟨rfl, rfl, rfl, rfl, rfl, id⟩
    have hput := (SameFamily.refl (s.put s.current { x with state := .zombie })).put (put_self ..) hkin
    simpa only [Sched.put, Function.update_idem] using hput
  refine wp_imp (exitNotify_family _ x) fun _ s1 h1 => ?_
  refine wp_then (wp_findTaskByPid ?_)
  generalize Sched.holder _ _ = init
  have hids1 : SameTasks SameId s s1 := SameTasks.trans (fun _ _ _ => SameId.trans) hids h1.ids
  have hrep : wp Any (reparent init x.children) (fun _ s2 => SameTasks SameId s s2 ∧
      (x.children = [] → SameFamily (s.put s.current { x with state := .zombie }) s2)) s1 := by
    by_cases hnone : x.children = []
    · have hdone := hleaf.trans h1
      rw [hnone] at hdone ⊢
      exact ⟨hids1, fun _ => hdone⟩
    · refine wp_imp (wp_reparent (I := fun s2 => SameTasks SameId s s2) (fun s2 t y h hy => ?_) hids1)
        fun _ s2 h2 => ⟨h2, fun hc => absurd hc hnone⟩
      exact SameTasks.trans (fun _ _ _ => SameId.trans) h (sameIds_put hy ⟨rfl, rfl, rfl⟩)
  refine wp_seq hrep fun _ s2 h2 => ?_
  rw [wp_bind, wp_schedRemove, wp_bind]
  refine wp_imp (schedule_family _) fun _ s3 h3 => ?_
  rw [wp_bind, wp_currentTask]
  split
  · trivial
  · have hdeq : SameFamily s2 (s2.dequeue s.current) := (SameFamily.refl s2).congr rfl rfl rfl rfl rfl rfl
    refine ⟨x, hx, SameTasks.trans (fun _ _ _ => SameId.trans) h2.1 (hdeq.trans h3).ids, fun hnone => ?_⟩
    exact (h2.2 hnone).trans (hdeq.trans h3)

/-- Up to the exit nobody's kin has changed. -/
theorem Ended.after (hsame : SameFamily s s') (hcur : s'.current = s.current) (h : Ended s' x' s'') :
    ∃ x, Ended s x s'' := by
  obtain ⟨hx', hids, hleaf⟩ := h
  obtain ⟨x, hx, hkin⟩ := hsame.back hx'
  rw [hcur] at hx
  refine ⟨x, hx, SameTasks.trans (fun _ _ _ => SameId.trans) hsame.ids hids, fun hnone => ?_⟩
  refine SameFamily.trans ?_ (hleaf (hkin.children.trans hnone))
  rw [hcur]
  refine ⟨fun {u y} hy => ?_, fun {u} hu => ?_, hsame.signals, hsame.list, hsame.nextTask,
    hsame.nextSignal, hsame.nextPid⟩
  · by_cases hut : u = s.current
    · subst hut
      cases (put_self ..).symm.trans hy
      exact ⟨_, put_self .., hkin.pid, hkin.ppid, hkin.signal, hkin.parent, hkin.children, fun _ => rfl⟩
    · obtain ⟨y', hy', hk⟩ := hsame.alive ((put_of_ne hut _).symm.trans hy)
      exact ⟨y', (put_of_ne hut _).trans hy', hk⟩
  · have hut : u ≠ s.current := by
      intro hc
      rw [hc, put_self] at hu
      cases hu
    exact (put_of_ne hut _).trans (hsame.gone ((put_of_ne hut _).symm.trans hu))

theorem signalDeliver_lineage (s : Sched) : wp Any signalDeliver (fun _ s' => Lineage s .deliver s') s := by
  refine wp_signalDeliver (I := fun s' => s'.current = s.current ∧ SameFamily s s') (.same (SameFamily.refl s))
    (fun x g y _ _ hy => ⟨rfl, (SameFamily.refl s).post hy { y with pending := 0 }⟩) (fun _ h => .same h.2)
    (fun s' sig h hf => ?_) ?_
  · refine wp_imp (sysExit_ended s' _) fun _ s'' hend => ?_
    obtain ⟨x', hend⟩ := hend
    obtain ⟨x, hend⟩ := hend.after h.2 h.1
    exact .exit hf hend
  · rintro s' z ⟨hcur, h⟩ hz
    have hput := h.put hz (SameKin.withState z .stopped (by decide) z.timeSlice z.inSleep)
    exact ⟨hcur, hput.congr rfl rfl rfl rfl rfl rfl⟩

/-! ### 3.3 Wait -/

/-- `sys_waitpid`: there is no zombie child, or the first is reaped. -/
theorem wp_sysWaitpid {pid : Int} {options : Nat} {R : WaitResult → Sched → Prop}
    (hnone : ∀ x, s.tasks s.current = some x → (∀ c, ¬ ZombieChild s pid x.children c) →
      R .nothing s ∧ wp Any (sleepOn waitQ) (fun _ s' => R .slept s') s)
    (hreap : ∀ c x y, s.tasks s.current = some x → s.zombie pid x.children = some c → c ∈ x.children →
      s.tasks c = some y → y.state = .zombie → R (.reaped y.pid (y.exitCode % 256 * 256)) (s.reaped c x y)) :
    wp Any (sysWaitpid pid options) R s := by
  rw [sysWaitpid, wp_bind, wp_currentTask, wp_bind]
  refine wp_getTask fun x hx => ?_
  rw [wp_bind]
  refine wp_findZombie (fun hno => ?_) fun c y hf hc hy hz => ?_
  · dsimp only
    split
    · exact (hnone x hx hno).1
    · exact wp_seq (hnone x hx hno).2 fun _ s' h => h
  · refine wp_then (wp_getTask fun y' hy' => ?_)
    cases hy.symm.trans hy'
    rw [wp_bind, reap, wp_bind, wp_currentTask, wp_bind, wp_modify, wp_bind]
    refine wp_modifyTask fun x' hx' => ?_
    cases hx.symm.trans hx'
    have hgoal := hreap c x y hx hf hc hy hz
    unfold Sched.reaped at hgoal
    cases hg : y.signal with
    | none =>
      rw [hg] at hgoal
      exact hgoal
    | some g =>
      rw [hg] at hgoal
      exact hgoal

theorem sysWaitpid_lineage (s : Sched) (pid : Int) (options : Nat) :
    wp Any (sysWaitpid pid options) (fun _ s' => Lineage s (.waitpid pid options) s') s :=
  wp_sysWaitpid (fun _ _ _ => ⟨.same (SameFamily.refl s), wp_imp (sleepOn_family s waitQ) fun _ _ h => .same h⟩)
    fun _ _ _ hx _ hc hy hz => .reap hx hc hy hz rfl

/-- **Every call** leaves the family as it is or changes it in one of five ways. -/
theorem exec_lineage (s : Sched) (e : Event) (fuel : Nat) : wp Any (e.exec fuel) (fun _ s' => Lineage s e s') s := by
  cases e with
  | create r => exact taskCreate_lineage s r
  | fork r => exact wp_then (sysFork_lineage s r)
  | exit code =>
    refine wp_imp (sysExit_ended s code) fun _ s' h => ?_
    obtain ⟨x, hend⟩ := h
    exact .exit trivial hend
  | waitpid pid options => exact wp_then (sysWaitpid_lineage s pid options)
  | kill pid sig => exact wp_seq (sysKill_family s pid sig) fun _ _ h => .same h
  | sigaction sig act =>
    exact wp_seq (sysSigaction_family s sig act) fun _ _ h => .same h
  | deliver => exact signalDeliver_lineage s
  | sleepOn q => exact wp_imp (sleepOn_family s q) fun _ _ h => .same h
  | wakeUp q => exact wp_imp (wakeUp_family s q) fun _ _ h => .same h
  | wakeUpAll q => exact wp_imp (wakeUpAll_family s fuel q) fun _ _ h => .same h
  | schedule => exact wp_imp (schedule_family s) fun _ _ h => .same h
  | tick => exact wp_imp (schedTick_family s) fun _ _ h => .same h

theorem Exec.lineage {e : Event} (h : Exec s e s') : Lineage s e s' := by
  obtain ⟨fuel, he⟩ := h
  exact wp_ok (exec_lineage s e fuel) he

end OreUnix.Proc
