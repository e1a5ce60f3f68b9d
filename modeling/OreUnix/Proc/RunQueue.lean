/-
  Subject: THE RUN QUEUE IS A WELL-FORMED CIRCULAR LIST, as long as no task is added to it twice.

  * `OnQueue ok s ts` -- the run queue of `s` is the list `ts`, its tasks are alive and in a state `ok` allows, and
    the run node of every other task is linked to itself;
  * one lemma for each change of the queue (`OnQueue.enqueue`, `OnQueue.dequeue`, `OnQueue.rotate`), one rule for each
    function, `exec_runOk` for all calls;
  * `runqueue_wellFormed` -- in every run in which a task is woken only if it is not on the queue, the queue is a
    circular list with each task at most once;
  * `exit_links_parent_twice` -- a child's exit adds its waiting parent twice.

  `sched_add` links a node whatever it is linked to. `sys_kill` wakes a sleeper, which is on no run queue, but leaves
  it on its wait queue for a later `wake_up`; `sys_exit` wakes its parent after `sys_kill` has done so, and even if
  the parent is running.
-/
import OreUnix.Proc.Rules
import OreUnix.Lib.Run
import Mathlib.Data.List.Nodup

namespace OreUnix.Proc

open Function (update update_of_ne update_self)
open CircularList Wp Lts

variable {s : Sched}
variable {P : Sched → Event → Prop} {e : Event} {es : List Event} {q : Nat} {s' : Sched}

/-! ## 1. The queue as a list of tasks -/

/-- The run queue is `ts`. -/
structure OnQueue (ok : Nat → TaskState → Prop) (s : Sched) (ts : List Nat) : Prop where
  rings : Rings s.runLinks (fun _ : Unit => runqueue) fun _ => ts.map .entry
  live : ∀ t ∈ ts, ∃ x, s.tasks t = some x ∧ ok t x.state
  fresh : ∀ {t}, s.nextTask ≤ t → s.tasks t = none

variable {ok : Nat → TaskState → Prop} {ts : List Nat} {t : Nat} {x x' : Task}

theorem entry_injective : Function.Injective Node.entry := fun _ _ h => Node.entry.inj h

theorem entry_notMem (h : t ∉ ts) : Node.entry t ∉ Node.head q :: ts.map .entry := by
  intro hm
  rcases List.mem_cons.mp hm with he | hm
  · cases he
  · exact h ((List.mem_map_of_injective entry_injective).mp hm)

theorem map_entry_filter (ts : List Nat) (t : Nat) :
    (ts.map Node.entry).filter (· ≠ .entry t) = (ts.filter (· ≠ t)).map .entry := by
  rw [List.filter_map]
  congr 1
  exact List.filter_congr fun u _ => decide_eq_decide.mpr entry_injective.ne_iff

section Queue

variable (h : OnQueue ok s ts)

include h

theorem OnQueue.ring : IsRing s.runLinks runqueue (ts.map .entry) := h.rings.ring ()

theorem OnQueue.nodup : ts.Nodup := List.Nodup.of_map _ (List.nodup_cons.mp h.ring.1).2

theorem OnQueue.notMem_iff : t ∉ ts ↔ Alone s.runLinks (.entry t) :=
  ⟨fun ht => h.rings.off fun _ => entry_notMem ht, fun ha ht => h.ring.not_alone (List.mem_map_of_mem ht) ha⟩

theorem OnQueue.mono {ok' : Nat → TaskState → Prop}
    (hok : ∀ t ∈ ts, ∀ st, ok t st → ok' t st) : OnQueue ok' s ts := by
  refine ⟨h.rings, fun t ht => ?_, h.fresh⟩
  obtain ⟨x, hx, hst⟩ := h.live t ht
  exact ⟨x, hx, hok t ht _ hst⟩

/-- The queue is read off three fields of the state. -/
theorem OnQueue.congr (htasks : s'.tasks = s.tasks) (hlinks : s'.runLinks = s.runLinks)
    (hnext : s'.nextTask = s.nextTask) : OnQueue ok s' ts := by
  refine ⟨hlinks ▸ h.rings, fun t ht => ?_, fun {t} ht => ?_⟩
  · rw [htasks]
    exact h.live t ht
  · rw [htasks]
    exact h.fresh (hnext ▸ ht)

theorem OnQueue.live_lt (hx : s.tasks t = some x) : t < s.nextTask := by
  by_contra hlt
  rw [h.fresh (Nat.not_lt.mp hlt)] at hx
  cases hx

theorem OnQueue.state_ok (hx : s.tasks t = some x) (ht : t ∈ ts) : ok t x.state := by
  obtain ⟨y, hy, hok⟩ := h.live t ht
  cases hx.symm.trans hy
  exact hok

/-! ## 2. Changes of the queue -/

/-- A task with other fields. -/
theorem OnQueue.put (hx : s.tasks t = some x)
    (hst : t ∈ ts → ok t x'.state) : OnQueue ok (s.put t x') ts := by
  refine ⟨h.rings, fun u hu => ?_, fun {u} hu => ?_⟩
  · by_cases hut : u = t
    · subst hut
      exact ⟨x', put_self .., hst hu⟩
    · obtain ⟨y, hy, hok⟩ := h.live u hu
      exact ⟨y, (put_of_ne hut x').trans hy, hok⟩
  · have hlt := h.live_lt hx
    exact (put_of_ne (Nat.ne_of_gt (Nat.lt_of_lt_of_le hlt hu)) x').trans (h.fresh hu)

theorem OnQueue.touch (hx : s.tasks t = some x) (hst : x'.state = x.state) : OnQueue ok (s.put t x') ts :=
  h.put hx fun ht => hst ▸ h.state_ok hx ht

/-- A task put at the end. -/
theorem OnQueue.add (hx : s.tasks t = some x) (ht : t ∉ ts)
    (hok : ok t x.state) :
    OnQueue ok { s with runLinks := s.runLinks.addTail (.entry t) runqueue } (ts ++ [t]) := by
  refine ⟨?_, fun u hu => ?_, h.fresh⟩
  · have hadd := h.rings.addTail (fun _ => entry_notMem ht) ()
    have hlists : update (fun _ : Unit => ts.map Node.entry) () (ts.map .entry ++ [.entry t]) =
        fun _ => (ts ++ [t]).map .entry := funext fun _ => by
      rw [update_self, List.map_append, List.map_singleton]
    rwa [hlists] at hadd
  · rcases List.mem_append.mp hu with hu | hu
    · exact h.live u hu
    · rw [List.mem_singleton.mp hu]
      exact ⟨x, hx, hok⟩

theorem OnQueue.enqueue (hx : s.tasks t = some x) (ht : t ∉ ts)
    (hok : ok t x'.state) : OnQueue ok (s.enqueue t x') (ts ++ [t]) :=
  (h.put hx fun hm => absurd hm ht).add (put_self s t x') ht hok

theorem OnQueue.dequeue (t : Nat) : OnQueue ok (s.dequeue t) (ts.filter (· ≠ t)) := by
  refine ⟨?_, fun u hu => h.live u (List.mem_of_mem_filter hu), h.fresh⟩
  have hdel := h.rings.del (n := .entry t) fun _ he => nomatch he
  rwa [map_entry_filter] at hdel

/-- A task that stops running: it leaves the queue, in whatever state. -/
theorem OnQueue.park (hx : s.tasks t = some x) (x' : Task) :
    OnQueue ok ((s.dequeue t).put t x') (ts.filter (· ≠ t)) :=
  (h.dequeue t).put hx fun ht => absurd rfl (of_decide_eq_true (List.mem_filter.mp ht).2)

/-- The first task goes to the end. -/
theorem OnQueue.rotate {n : Nat} (hn : s.runLinks.next runqueue = .entry n) :
    ∃ rest, ts = n :: rest ∧ OnQueue ok (s.rotate n) (rest ++ [n]) := by
  have hhead := h.ring.next_head
  rw [hn] at hhead
  cases ts with
  | nil => cases hhead
  | cons m rest =>
    obtain rfl : n = m := Node.entry.inj hhead
    obtain ⟨x, hx, hok⟩ := h.live n (.head _)
    have hnot : n ∉ rest := (List.nodup_cons.mp h.nodup).1
    have hdeq := h.dequeue n
    rw [List.filter_cons_of_neg (by simp), filter_ne_self hnot] at hdeq
    exact ⟨rest, rfl, hdeq.add hx hnot hok⟩

/-- A task that is not on the queue is freed. -/
theorem OnQueue.free (ht : t ∉ ts) : OnQueue ok { s with tasks := update s.tasks t none } ts := by
  refine ⟨h.rings, fun u hu => ?_, fun {u} hu => ?_⟩
  · obtain ⟨y, hy, hok⟩ := h.live u hu
    have hut : u ≠ t := fun he => ht (he ▸ hu)
    exact ⟨y, (update_of_ne hut ..).trans hy, hok⟩
  · by_cases hut : u = t
    · subst hut
      exact update_self ..
    · exact (update_of_ne hut ..).trans (h.fresh hu)

theorem OnQueue.next_notMem : s.nextTask ∉ ts := by
  intro hm
  obtain ⟨y, hy, _⟩ := h.live _ hm
  exact Nat.lt_irrefl _ (h.live_lt hy)

/-- A new task is not on the queue. -/
theorem OnQueue.link (x : Task) : OnQueue ok (s.link x) ts := by
  refine ⟨h.rings.init fun _ => entry_notMem h.next_notMem, fun u hu => ?_, fun {u} hu => ?_⟩
  · obtain ⟨y, hy, hok⟩ := h.live u hu
    exact ⟨y, (update_of_ne (Nat.ne_of_lt (h.live_lt hy)) ..).trans hy, hok⟩
  · have hu : s.nextTask + 1 ≤ u := hu
    exact (update_of_ne (by omega) ..).trans (h.fresh (by omega))

end Queue

/-! ## 3. What each function does to the queue -/

/-- The run queue is a list of running tasks. -/
def RunOk (s : Sched) : Prop := ∃ ts, OnQueue (fun _ st => st = .running) s ts

section Functions

variable (h : RunOk s)

include h

theorem RunOk.congr (htasks : s'.tasks = s.tasks) (hlinks : s'.runLinks = s.runLinks)
    (hnext : s'.nextTask = s.nextTask) : RunOk s' := by
  obtain ⟨ts, h⟩ := h
  exact ⟨ts, h.congr htasks hlinks hnext⟩

theorem RunOk.touch (hx : s.tasks t = some x) (hst : x'.state = x.state) : RunOk (s.put t x') := by
  obtain ⟨ts, h⟩ := h
  exact ⟨ts, h.touch hx hst⟩

theorem RunOk.wake (hx : s.tasks t = some x) (ha : Alone s.runLinks (.entry t))
    (hst : x'.state = .running) : RunOk (s.enqueue t x') := by
  obtain ⟨ts, h⟩ := h
  exact ⟨ts ++ [t], h.enqueue hx (h.notMem_iff.mpr ha) hst⟩

/-- A task off the queue stays off when another one is woken. -/
theorem RunOk.alone_enqueue {u : Nat} (hu : Alone s.runLinks (.entry u))
    (hut : u ≠ t) : Alone (s.runLinks.addTail (.entry t) runqueue) (.entry u) := by
  obtain ⟨ts, h⟩ := h
  refine SameOn.alone (addTail_sameOn h.ring fun m hm => ?_) hu
  rw [List.mem_singleton.mp hm]
  exact ⟨entry_notMem (h.notMem_iff.mpr hu), fun he => hut (Node.entry.inj he)⟩

theorem RunOk.park (hx : s.tasks t = some x) (x' : Task) : RunOk ((s.dequeue t).put t x') := by
  obtain ⟨ts, h⟩ := h
  exact ⟨_, h.park hx x'⟩

theorem RunOk.schedule : wp Any schedule (fun _ s' => RunOk s') s := by
  refine wp_schedule (fun _ x hx => h.touch hx rfl) fun n x k hn hx => ?_
  obtain ⟨ts, h⟩ := h
  obtain ⟨rest, rfl, hrot⟩ := h.rotate hn
  have hput : OnQueue _ ((s.rotate n).put n { x with timeSlice := k, inSleep := false }) _ := hrot.touch hx rfl
  exact ⟨rest ++ [n], hput.congr rfl rfl rfl⟩

theorem RunOk.tick : wp Any schedTick (fun _ s' => RunOk s') s := by
  refine wp_schedTick h (fun x k hx => h.touch hx rfl) fun x k hx => RunOk.schedule ?_
  exact h.touch hx rfl

theorem RunOk.sleepOn (q : Nat) : wp Any (sleepOn q) (fun _ s' => RunOk s') s := by
  refine wp_sleepOn fun x hx => RunOk.schedule ?_
  exact (h.park hx { x with state := .sleeping, inSleep := true }).congr rfl rfl rfl

/-- The task `wake_up` wakes is not on the run queue. -/
def WakeOk (q : Nat) (s : Sched) : Prop :=
  ∀ t, s.waitLinks.next (.head q) = .entry t → Alone s.runLinks (.entry t)

theorem RunOk.wakeUp (hq : WakeOk q s) : wp Any (wakeUp q) (fun _ s' => RunOk s') s := by
  refine wp_wakeUp (fun _ => h) fun t x ht hx => ?_
  have hun : RunOk (s.unwait t) := h.congr rfl rfl rfl
  exact hun.wake hx (hq t ht) rfl

end Functions

/-- The tasks `wake_up_all` wakes are a list, and none of them is on the run queue. -/
def WakeAllOk (q : Nat) (s : Sched) : Prop :=
  ∃ ws : List Nat, IsRing s.waitLinks (.head q) (ws.map .entry) ∧
    ∀ t ∈ ws, Alone s.runLinks (.entry t)

/-- **`wake_up_all`**: the wait queue shrinks from its front, and wakes each of its tasks once. -/
theorem wp_wakeUpAll {I : List Nat → Sched → Prop} {Q : Unit → Sched → Prop} {fuel : Nat} {ws : List Nat}
    (hring : ∀ ws s, I ws s → IsRing s.waitLinks (.head q) (ws.map .entry)) (hdone : ∀ s, I [] s → Q () s)
    (hwake : ∀ t ws s x, I (t :: ws) s → t ∉ ws → s.tasks t = some x →
      I ws ((s.unwait t).enqueue t { x with state := .running })) (h : I ws s) : wp Any (wakeUpAll fuel q) Q s := by
  rw [wakeUpAll, wp_bind, wp_get, (hring ws s h).next_head]
  induction fuel generalizing s ws with
  | zero => trivial
  | succ fuel ih =>
    cases ws with
    | nil =>
      simp only [List.map_nil, List.headD_nil, wakeLoop, if_true]
      exact hdone s h
    | cons t ws =>
      have hr := hring _ s h
      have hnot : t ∉ ws := fun hm => (List.nodup_cons.mp (List.nodup_cons.mp hr.1).2).1 (List.mem_map_of_mem hm)
      have hnext : s.waitLinks.next (.entry t) = (ws.map .entry).headD (.head q) := by
        have hseg := hr.2.2
        cases ws with
        | nil => exact hseg.1
        | cons u ws => exact hseg.1.1
      simp only [List.map_cons, List.headD_cons, wakeLoop, reduceCtorEq, if_false]
      rw [wp_bind, hnext]
      refine wp_wakeTask fun x hx => ?_
      rw [wp_bind, wp_get]
      exact ih (hwake t ws s x h hnot hx)

/-- What is left of the wait queue is still off the run queue, since a task is in the list once. -/
theorem RunOk.wakeUpAll (fuel : Nat) (h : RunOk s) (hq : WakeAllOk q s) :
    wp Any (wakeUpAll fuel q) (fun _ s' => RunOk s') s := by
  obtain ⟨ws, hring, hws⟩ := hq
  refine wp_wakeUpAll (I := fun ws s => RunOk s ∧ IsRing s.waitLinks (.head q) (ws.map .entry) ∧
    ∀ t ∈ ws, Alone s.runLinks (.entry t)) (fun _ _ h => h.2.1) (fun _ h => h.1) ?_ ⟨h, hring, hws⟩
  rintro t ws s x ⟨h, hring, hws⟩ hnot hx
  have hun : RunOk (s.unwait t) := h.congr rfl rfl rfl
  have hdel : IsRing (s.waitLinks.del (.entry t)) (.head q) (ws.map .entry) :=
    @IsRing.del _ _ s.waitLinks (.head q) (.entry t) [] (ws.map .entry) hring
  refine ⟨hun.wake hx (hws t (.head _)) rfl, hdel, fun u hu => ?_⟩
  exact h.alone_enqueue (hws u (.tail _ hu)) fun he => hnot (he ▸ hu)

theorem runOk_stable : Stable RunOk where
  quiet h htasks hlinks _ hnext _ := h.congr htasks hlinks hnext
  touch h hx hst _ := h.touch hx hst
  link := by
    rintro s x ⟨ts, h⟩ _ _
    exact ⟨ts, h.link x⟩
  join h hx _ ha := h.wake hx ha rfl
  free := by
    rintro s t x ⟨ts, h⟩ hx hz
    refine ⟨ts, h.free fun ht => ?_⟩
    cases hz.symm.trans (h.state_ok hx ht)

/-! ## 4. Signals and exit -/

/-- `sys_kill` adds at most a task that slept. -/
theorem OnQueue.kill (h : OnQueue ok s ts) (hsleep : ∀ t, ¬ ok t .sleeping)
    (hrun : ∀ t, ok t .running) (pid sig : Int) :
    wp Any (sysKill pid sig) (fun _ s' => ∃ ts', OnQueue ok s' ts' ∧
      ∀ t ∈ ts', t ∈ ts ∨ ∃ x, s.tasks t = some x ∧ x.state = .sleeping) s := by
  refine wp_sysKill (fun _ _ => ⟨ts, h, fun t ht => .inl ht⟩) (fun t x g y _ hs => ?_) fun t x g y hf hs => ?_
  · exact ⟨ts, h.congr rfl rfl rfl, fun t ht => .inl ht⟩
  · have hnot : t ∉ ts := fun ht => hsleep t (hs ▸ h.state_ok hf.task ht)
    have hsig : OnQueue ok (s.post g y sig) ts := h.congr rfl rfl rfl
    refine ⟨ts ++ [t], hsig.enqueue hf.task hnot (hrun t), fun u hu => ?_⟩
    rcases List.mem_append.mp hu with hu | hu
    · exact .inl hu
    · rw [List.mem_singleton.mp hu]
      exact .inr ⟨x, hf.task, hs⟩

theorem RunOk.kill (h : RunOk s) (pid sig : Int) : wp Any (sysKill pid sig) (fun _ s' => RunOk s') s := by
  obtain ⟨ts, h⟩ := h
  refine wp_imp (h.kill (fun _ h' => nomatch h') (fun _ => rfl) pid sig) fun _ s' h' => ?_
  obtain ⟨ts', h', _⟩ := h'
  exact ⟨ts', h'⟩

/-- The parent of the running task is neither asleep nor on the run queue. -/
def NotifyOk (s : Sched) : Prop :=
  ∀ x p y, s.tasks s.current = some x → x.parent = some p → s.tasks p = some y →
    y.state ≠ .sleeping ∧ Alone s.runLinks (.entry p)

/-- The states on the queue while `cur` exits: it is a zombie before it leaves the queue. -/
def exiting (cur : Nat) (t : Nat) (st : TaskState) : Prop :=
  st = .running ∨ (t = cur ∧ st = .zombie)

theorem OnQueue.exitNotify {cur : Nat} (h : OnQueue (exiting cur) s ts)
    (hp : ∀ p y, x.parent = some p → s.tasks p = some y → y.state ≠ .sleeping ∧ p ∉ ts) :
    wp Any (exitNotify x) (fun _ s' => ∃ ts', OnQueue (exiting cur) s' ts') s := by
  unfold Proc.exitNotify
  cases hpar : x.parent with
  | none => exact ⟨ts, h⟩
  | some p =>
    refine wp_then (wp_getTask fun y hy => ?_)
    obtain ⟨hs, hnot⟩ := hp p y hpar hy
    have hkill := h.kill (fun t ht => by rcases ht with ht | ht <;> simp at ht) (fun t => .inl rfl)
      y.pid SIGCHLD
    refine wp_seq hkill fun _ s1 h1 => ?_
    obtain ⟨ts1, h1, hsub⟩ := h1
    refine wp_wakeUpProcess fun z hz => ⟨ts1 ++ [p], h1.enqueue hz ?_ (.inl rfl)⟩
    intro hm
    rcases hsub p hm with hm | ⟨y', hy', hs'⟩
    · exact hnot hm
    · cases hy.symm.trans hy'
      exact hs hs'

theorem RunOk.exit (h : RunOk s) (hp : NotifyOk s) (code : Int) : wp Any (sysExit code) (fun _ s' => RunOk s') s := by
  obtain ⟨ts, h⟩ := h
  rw [sysExit, wp_bind, wp_currentTask, wp_bind]
  refine wp_getTask fun x hx => ?_
  rw [wp_bind, wp_setTask, wp_bind]
  have hzombie : OnQueue (exiting s.current)
      (s.put s.current { x with state := .zombie, exitCode := code }) ts :=
    (h.mono fun _ _ _ hst => .inl hst).put hx fun _ => .inr ⟨rfl, rfl⟩
  refine wp_imp (hzombie.exitNotify fun p y hpar hy => ?_) fun _ s1 h1 => ?_
  · by_cases hcur : p = s.current
    · subst hcur
      cases (put_self ..).symm.trans hy
      exact ⟨by simp, h.notMem_iff.mpr (hp x _ x hx hpar hx).2⟩
    · rw [put_of_ne hcur] at hy
      obtain ⟨hs, ha⟩ := hp x p y hx hpar hy
      exact ⟨hs, h.notMem_iff.mpr ha⟩
  · obtain ⟨ts1, h1⟩ := h1
    refine wp_then (wp_findTaskByPid ?_)
    generalize Sched.holder _ _ = init
    have hrep : wp Any (reparent init x.children)
        (fun _ s' => OnQueue (exiting s.current) s' ts1) s1 :=
      wp_reparent (fun s' t y h' hy => h'.touch hy rfl) h1
    refine wp_seq hrep fun _ s2 h2 => ?_
    rw [wp_bind, wp_schedRemove, wp_bind]
    -- without the exiting task everyone on the queue is running
    have hleft : RunOk (s2.dequeue s.current) := by
      refine ⟨_, (h2.dequeue s.current).mono fun t ht st hst => hst.resolve_right fun hc => ?_⟩
      exact of_decide_eq_true (List.mem_filter.mp ht).2 hc.1
    refine wp_imp hleft.schedule fun _ s3 h3 => ?_
    rw [wp_bind, wp_currentTask]
    split
    · trivial
    · exact h3

/-- The running task takes a signal that ends it. -/
def Fatal (s : Sched) : Prop :=
  ∃ x g y sig, s.tasks s.current = some x ∧ x.signal = some g ∧ s.signals g = some y ∧
    y.pending.getLsbD sig = true ∧ y.actions sig = .dfl ∧ defaultAction sig = .exit

section Deliver

variable {I : Sched → Prop} {Q : Unit → Sched → Prop}

/-- A stop takes the task off the queue; the loop goes on, and a later signal may end it. -/
theorem wp_deliverLoop {y : Signals} {sigs : List Nat} (h : I s) (hdone : ∀ s, I s → Q () s)
    (hexit : ∀ s sig, I s → y.pending.getLsbD sig = true → y.actions sig = .dfl → defaultAction sig = .exit →
      wp Any (sysExit (128 + sig)) Q s)
    (hstop : ∀ s x, I s → s.tasks t = some x → I ((s.put t { x with state := .stopped }).dequeue t)) :
    wp Any (deliverLoop t y sigs) Q s := by
  induction sigs generalizing s with
  | nil => exact hdone s h
  | cons sig sigs ih =>
    rw [deliverLoop]
    split
    · rename_i hpend
      split
      · exact ih h
      · exact ih h
      · rename_i hact
        split
        · rename_i hend
          exact hexit s sig h hpend hact hend
        · exact ih h
        · rw [wp_bind]
          refine wp_modifyTask fun x hx => ?_
          rw [wp_bind, wp_schedRemove]
          exact ih (hstop s x h hx)
    · exact ih h

/-- **`signal_deliver`**: what holds once the mask is taken and after every stop holds at the end, or when a signal
    ends the task. -/
theorem wp_signalDeliver (hnone : Q () s)
    (htake : ∀ x g y, s.tasks s.current = some x → x.signal = some g → s.signals g = some y →
      I { s with signals := update s.signals g (some { y with pending := 0 }) })
    (hdone : ∀ s, I s → Q () s) (hexit : ∀ s' sig, I s' → Fatal s → wp Any (sysExit (128 + (sig : Nat))) Q s')
    (hstop : ∀ s' x, I s' → s'.tasks s.current = some x →
      I ((s'.put s.current { x with state := .stopped }).dequeue s.current)) : wp Any signalDeliver Q s := by
  rw [signalDeliver, wp_bind, wp_currentTask, wp_bind]
  refine wp_getTask fun x hx => ?_
  cases hsig : x.signal with
  | none => exact hnone
  | some g =>
    refine wp_then (wp_getSignals fun g' y hg hy => ?_)
    cases hg
    dsimp only
    split
    · exact hnone
    · rw [wp_bind, wp_setSignals]
      refine wp_deliverLoop (htake x g y hx hsig hy) hdone (fun s' sig h' hp ha he => ?_) hstop
      exact hexit s' sig h' ⟨x, g, y, sig, hx, hsig, hy, hp, ha, he⟩

end Deliver

/-- Stopping the running task does not put its parent anywhere. -/
theorem NotifyOk.park (hp : NotifyOk s) (h : RunOk s) (hx : s.tasks s.current = some x) (hpar : x'.parent = x.parent)
    (hst : x'.state ≠ .sleeping) : NotifyOk ((s.dequeue s.current).put s.current x') := by
  intro z p y hz hzp hy
  cases (put_self ..).symm.trans hz
  rw [hpar] at hzp
  by_cases hcur : p = s.current
  · subst hcur
    cases (put_self ..).symm.trans hy
    exact ⟨hst, alone_del ..⟩
  · obtain ⟨hs, ha⟩ := hp x p y hx hzp ((put_of_ne hcur x').symm.trans hy)
    obtain ⟨ts, h⟩ := h
    refine ⟨hs, (h.dequeue s.current).notMem_iff.mp fun hm => ?_⟩
    exact h.notMem_iff.mpr ha (List.mem_of_mem_filter hm)

theorem RunOk.deliver (h : RunOk s) (hfatal : Fatal s → NotifyOk s) :
    wp Any signalDeliver (fun _ s' => RunOk s') s := by
  refine wp_signalDeliver (I := fun s' => s'.current = s.current ∧ RunOk s' ∧ (Fatal s → NotifyOk s')) h
    (fun _ _ _ _ _ _ => ⟨rfl, h.congr rfl rfl rfl, hfatal⟩) (fun _ h' => h'.2.1)
    (fun s' sig h' hf => h'.2.1.exit (h'.2.2 hf) _) ?_
  rintro s' x ⟨hcur, hr, hn⟩ hx
  rw [← hcur] at hx ⊢
  exact ⟨rfl, hr.park hx { x with state := .stopped }, fun hf => (hn hf).park hr hx rfl (by simp)⟩

/-! ## 5. Runs -/

/-- Every task the call wakes is off the run queue when it is added to it. -/
def Admissible (s : Sched) : Event → Prop
  | .exit _ => NotifyOk s
  | .deliver => Fatal s → NotifyOk s
  | .wakeUp q => WakeOk q s
  | .wakeUpAll q => WakeAllOk q s
  | _ => True

/-- A call that comes back, or leaves the processor to another task. -/
def Exec (s : Sched) (e : Event) (s' : Sched) : Prop := ∃ fuel, e.exec fuel s = .ok ((), s')

theorem exec_runOk (h : RunOk s) (ha : Admissible s e) (fuel : Nat) :
    wp Any (e.exec fuel) (fun _ s' => RunOk s') s := by
  cases e with
  | create r => exact runOk_stable.taskCreate h r
  | fork r => exact wp_then (runOk_stable.sysFork h r)
  | exit code => exact h.exit ha code
  | waitpid pid options =>
    exact wp_then (runOk_stable.sysWaitpid h pid options fun _ => h.sleepOn waitQ)
  | kill pid sig => exact wp_then (h.kill pid sig)
  | sigaction sig act => exact wp_then (runOk_stable.sysSigaction h sig act)
  | deliver => exact h.deliver ha
  | sleepOn q => exact h.sleepOn q
  | wakeUp q => exact h.wakeUp ha
  | wakeUpAll q => exact h.wakeUpAll fuel ha
  | schedule => exact h.schedule
  | tick => exact h.tick

/-- The run queue is a circular list: the links lead there and back at every node, following them from the head leads
    to the head again, and no task comes twice. -/
def WellFormedQueue (s : Sched) : Prop :=
  ∃ ts : List Nat, ts.Nodup ∧ IsRing s.runLinks runqueue (ts.map .entry) ∧
    (∀ n ∈ runqueue :: ts.map .entry,
      s.runLinks.prev (s.runLinks.next n) = n ∧ s.runLinks.next (s.runLinks.prev n) = n) ∧
    s.runLinks.next^[ts.length + 1] runqueue = runqueue

theorem RunOk.wellFormed (h : RunOk s) : WellFormedQueue s := by
  obtain ⟨ts, h⟩ := h
  refine ⟨ts, h.nodup, h.ring, fun n hn => ⟨h.ring.prev_next hn, h.ring.next_prev hn⟩, ?_⟩
  have hround := h.ring.2.iterate
  rwa [List.length_map] at hround

/-- After `sched_init` there is `kernel_task`, and nobody else. -/
theorem schedInit_task (hx : schedInit.tasks t = some x) : x = ⟨0, 0, .running, 0, none, 0, none, [], false⟩ := by
  obtain ⟨_, he⟩ := Option.ite_none_right_eq_some.mp hx
  exact (Option.some.inj he).symm

theorem schedInit_fresh (ht : 1 ≤ t) : schedInit.tasks t = none := if_neg (Nat.ne_of_gt ht)

theorem runOk_schedInit : RunOk schedInit :=
  ⟨[], rings_empty fun _ _ _ => rfl, (fun _ ht => nomatch ht), schedInit_fresh⟩

/-- **The run queue is well formed** in every run in which only tasks that are off the queue are woken. -/
theorem runqueue_wellFormed {es : List Event}
    (hr : Run (fun s e s' => Admissible s e ∧ Exec s e s') schedInit es s) : WellFormedQueue s := by
  refine RunOk.wellFormed (hr.invariant (I := RunOk) ?_ runOk_schedInit)
  rintro s e s' h ⟨ha, fuel, he⟩
  exact wp_ok (exec_runOk h ha fuel) he

/-! ## 6. Two runs -/

/-- The state after a call that comes back. -/
def next (s : Sched) (e : Event) : Option Sched := (e.exec 8 s).toOption.map Prod.snd

theorem exec_of_next (h : next s e = some s') : Exec s e s' := by
  refine ⟨8, ?_⟩
  rw [next] at h
  cases hx : e.exec 8 s with
  | error c =>
    rw [hx] at h
    cases h
  | ok r =>
    rw [hx] at h
    cases h
    rfl

/-- Calls that all come back, and what a test says about the state they leave. -/
theorem exists_exec_run (es : List Event) (P : Sched → Prop) [DecidablePred P]
    (h : (es.foldlM next schedInit).any (fun s => decide (P s)) = true) : ∃ s, Run Exec schedInit es s ∧ P s :=
  exists_run (fun _ _ _ => exec_of_next) schedInit es P h

/-- Calls that all come back and all pass a test, which tells `P`. -/
theorem exists_checked_run {c : Sched → Event → Bool} (hc : ∀ s e, c s e = true → P s e) (es : List Event)
    (Q : Sched → Prop) [DecidablePred Q]
    (h : (es.foldlM (fun s e => if c s e then next s e else none) schedInit).any (fun s => decide (Q s)) = true) :
    ∃ s, Run (fun s e s' => P s e ∧ Exec s e s') schedInit es s ∧ Q s := by
  refine exists_run (fun s e s' hs => ?_) schedInit es Q h
  obtain ⟨hok, hnext⟩ := Option.ite_none_right_eq_some.mp hs
  exact ⟨hc s e hok, exec_of_next hnext⟩

/-- Two tasks, of which the first has gone to sleep. -/
def oneAsleep : List Event := [.create (.ok true), .create (.ok true), .schedule, .sleepOn 1]

/-- The second task wakes the first. -/
theorem runqueue_wellFormed_woken : ∃ s : Sched,
    Run (fun s e s' => Admissible s e ∧ Exec s e s') schedInit (oneAsleep ++ [.wakeUp 1]) s ∧
    WellFormedQueue s ∧ s.runLinks.next runqueue = .entry 2 ∧ s.runLinks.prev runqueue = .entry 1 := by
  obtain ⟨s, hs, hfirst, hlinks, hwoken⟩ := exists_exec_run oneAsleep
    (fun s => s.waitLinks.next (.head 1) = .entry 1 ∧
      (s.runLinks.next (.entry 1) = .entry 1 ∧ s.runLinks.prev (.entry 1) = .entry 1) ∧
      (next s (.wakeUp 1)).map (fun s => (s.runLinks.next runqueue, s.runLinks.prev runqueue)) =
        some (.entry 2, .entry 1)) (by decide +kernel)
  obtain ⟨s', hs', hends⟩ := Option.map_eq_some_iff.mp hwoken
  have hadm : WakeOk 1 s := by
    intro t ht
    cases hfirst.symm.trans ht
    exact hlinks
  have hrun : Run (fun s e s' => Admissible s e ∧ Exec s e s') schedInit (oneAsleep ++ [.wakeUp 1]) s' := by
    refine (hs.and_mem fun s e he => ?_).snoc ⟨hadm, exec_of_next hs'⟩
    rcases he with _ | ⟨_, _ | ⟨_, _ | ⟨_, _ | ⟨_, he⟩⟩⟩⟩ <;> trivial
  exact ⟨s', hrun, runqueue_wellFormed hrun, Prod.mk.inj hends⟩

/-- A task forks, waits for its child, and the child exits. -/
def waitForChild : List Event :=
  [.create (.ok true), .schedule, .fork .ok, .waitpid (-1) 0, .exit 0]

/-- `sys_exit` puts the waiting parent, task 1, on the run queue twice: its node then points to itself, and following
    the links never leads back to the head. -/
theorem exit_links_parent_twice : ∃ s : Sched, Run Exec schedInit waitForChild s ∧
    s.runLinks.next runqueue = .entry 1 ∧ s.runLinks.next (.entry 1) = .entry 1 ∧
    ¬ WellFormedQueue s := by
  obtain ⟨s, hrun, hfirst, hself, hlast⟩ := exists_exec_run waitForChild
    (fun s => s.runLinks.next runqueue = .entry 1 ∧ s.runLinks.next (.entry 1) = .entry 1 ∧
      s.runLinks.prev runqueue = .entry 1) (by decide +kernel)
  refine ⟨s, hrun, hfirst, hself, fun hwf => ?_⟩
  obtain ⟨ts, _, _, hback, _⟩ := hwf
  have hround := (hback runqueue (.head _)).2
  rw [hlast, hself] at hround
  cases hround

end OreUnix.Proc
