/-
  Subject: LIVE PIDS ARE UNIQUE as long as the pid counter never comes round to a pid still in use.

  * `PidsOk s` -- the tasks on the list are alive, have pids below `PID_MAX`, and no two have the same;
  * `live_pids_unique` -- in every run in which a task is made only while nobody has the pid the counter shows, and
    then `find_task_by_pid` finds the only task with a pid;
  * `pid_taken_twice` -- `alloc_pid` wraps to 2 without looking whether pid 2 is taken.
-/
import OreUnix.Proc.Lineage

namespace OreUnix.Proc

open Function (update update_of_ne update_apply)
open CircularList Wp Lts

variable {s s' : Sched} {t : Nat} {x : Task}
variable {c u : Nat} {e : Event} {x' z : Task}

/-! ## 1. The invariant -/

structure PidsOk (s : Sched) : Prop where
  live : ∀ {t}, t ∈ s.taskList → ∃ x, s.tasks t = some x
  unique : ∀ {t t' x x'}, t ∈ s.taskList → t' ∈ s.taskList → s.tasks t = some x → s.tasks t' = some x' →
    x.pid = x'.pid → t = t'
  range : ∀ {t x}, t ∈ s.taskList → s.tasks t = some x → x.pid < pidMax
  counter : s.nextPid < pidMax
  fresh : ∀ {t}, s.nextTask ≤ t → s.tasks t = none

theorem pidAfter_lt (p : Nat) : pidAfter p < pidMax := by
  unfold pidAfter
  split
  · decide
  · omega

theorem PidsOk.same (h : PidsOk s) (hs : SameTasks SameId s s') : PidsOk s' := by
  have hback : ∀ {t x'}, t ∈ s'.taskList → s'.tasks t = some x' →
      t ∈ s.taskList ∧ ∃ x, s.tasks t = some x ∧ x'.pid = x.pid := by
    intro t x' ht hx'
    obtain ⟨x, hx, hid⟩ := hs.back hx'
    exact ⟨hs.list ▸ ht, x, hx, hid.pid⟩
  refine ⟨fun {t} ht => ?_, fun {t t' x x'} ht ht' hx hx' hpid => ?_, fun {t x} ht hx => ?_, ?_,
    fun {t} ht => hs.gone (h.fresh (hs.nextTask ▸ ht))⟩
  · obtain ⟨x, hx⟩ := h.live (hs.list ▸ ht)
    obtain ⟨x', hx', _⟩ := hs.alive hx
    exact ⟨x', hx'⟩
  · obtain ⟨hm, y, hy, hyp⟩ := hback ht hx
    obtain ⟨hm', y', hy', hyp'⟩ := hback ht' hx'
    exact h.unique hm hm' hy hy' (by rw [← hyp, ← hyp', hpid])
  · obtain ⟨hm, y, hy, hyp⟩ := hback ht hx
    rw [hyp]
    exact h.range hm hy
  · rw [hs.nextPid]
    exact h.counter

/-- The counter, the signal structs and the queues are free to change. -/
theorem PidsOk.congr (h : PidsOk s) (htasks : s'.tasks = s.tasks) (hlist : s'.taskList = s.taskList)
    (hnext : s'.nextTask = s.nextTask) (hpid : s'.nextPid < pidMax) : PidsOk s' := by
  refine ⟨?_, ?_, ?_, hpid, ?_⟩
  · rw [htasks, hlist]
    exact h.live
  · rw [htasks, hlist]
    exact h.unique
  · rw [htasks, hlist]
    exact h.range
  · rw [htasks, hnext]
    exact h.fresh

theorem PidsOk.took (h : PidsOk s) : PidsOk s.tookPid := h.congr rfl rfl rfl (pidAfter_lt _)

theorem addSignals_fields (s : Sched) (y : Option Signals) :
    (s.addSignals y).tasks = s.tasks ∧ (s.addSignals y).taskList = s.taskList ∧
      (s.addSignals y).nextTask = s.nextTask ∧ (s.addSignals y).nextPid = s.nextPid ∧
      (s.addSignals y).current = s.current := by
  cases y <;> exact ⟨rfl, rfl, rfl, rfl, rfl⟩

/-- A task after another one was made: the running task has one child more. -/
def Sched.bearing (s : Sched) (t : Nat) (x : Task) : Task :=
  { x with children := x.children ++ if t = s.current then [s.nextTask] else [] }

theorem mem_bearing : u ∈ (s.bearing t x).children ↔ u ∈ x.children ∨ (t = s.current ∧ u = s.nextTask) := by
  unfold Sched.bearing
  split <;> simp [*]

/-- What a new task leaves: itself, and the others as they were but for the new child. -/
structure Adopts (s : Sched) (z : Task) (s' : Sched) : Prop where
  fresh : s.tasks s.nextTask = none
  self : s'.tasks s.nextTask = some z
  others : ∀ {t}, t ≠ s.nextTask → s'.tasks t = (s.tasks t).map (s.bearing t)

variable {y : Task}

theorem adopts (hfresh : s.tasks s.nextTask = none) (hcur : s.tasks s.current = some x)
    (hy : (s.link z).tasks s.current = some y) : y = x ∧ Adopts s z (s.adopt z y) := by
  have hne : s.current ≠ s.nextTask := by
    intro he
    rw [he, hfresh] at hcur
    cases hcur
  have hyx : y = x := by
    have hold : (s.link z).tasks s.current = s.tasks s.current := update_of_ne hne ..
    rw [hold, hcur] at hy
    exact (Option.some.inj hy).symm
  subst hyx
  refine ⟨rfl, hfresh, (put_of_ne hne.symm _).trans (Function.update_self ..), fun {t} ht => ?_⟩
  by_cases hc : t = s.current
  · subst hc
    rw [hcur, Option.map_some, Sched.bearing, if_pos rfl]
    exact put_self ..
  · have hold : (s.adopt z y).tasks t = s.tasks t := (put_of_ne hc _).trans (update_of_ne ht ..)
    have hsame : s.bearing t = id := by
      funext x
      rw [Sched.bearing, if_neg hc, List.append_nil]
      rfl
    rw [hold, hsame, Option.map_id_apply]

theorem Adopts.back (h : Adopts s z s') (hx' : s'.tasks t = some x') :
    (t = s.nextTask ∧ x' = z) ∨ ∃ x0, s.tasks t = some x0 ∧ x' = s.bearing t x0 := by
  by_cases ht : t = s.nextTask
  · subst ht
    exact .inl ⟨rfl, Option.some.inj (hx'.symm.trans h.self)⟩
  · rw [h.others ht] at hx'
    obtain ⟨x0, hx0, rfl⟩ := Option.map_eq_some_iff.mp hx'
    exact .inr ⟨x0, hx0, rfl⟩

theorem Adopts.forth (h : Adopts s z s') (hx : s.tasks t = some x) : s'.tasks t = some (s.bearing t x) := by
  have ht : t ≠ s.nextTask := by
    intro he
    rw [he, h.fresh] at hx
    cases hx
  rw [h.others ht, hx, Option.map_some]

theorem Adopts.none (h : Adopts s z s') (ht : t ≠ s.nextTask) (hnone : s.tasks t = none) : s'.tasks t = none := by
  rw [h.others ht, hnone, Option.map_none]

/-- A new task whose pid nobody has. -/
theorem PidsOk.adopt (h : PidsOk s) (hcur : s.tasks s.current = some x)
    (hy : (s.link z).tasks s.current = some y) (hz : z.pid < pidMax)
    (hnew : ∀ t ∈ s.taskList, ∀ x, s.tasks t = some x → x.pid ≠ z.pid) : PidsOk (s.adopt z y) := by
  obtain ⟨rfl, ha⟩ := adopts (h.fresh le_rfl) hcur hy
  have hlist : ∀ {t}, t ∈ (s.adopt z y).taskList → t ∈ s.taskList ∨ t = s.nextTask := by
    intro t ht
    have ht : t ∈ s.taskList ++ [s.nextTask] := ht
    rwa [List.mem_append, List.mem_singleton] at ht
  -- every task on the list is an old one with its old pid, or the new one
  have hback : ∀ {t x'}, t ∈ (s.adopt z y).taskList → (s.adopt z y).tasks t = some x' →
      (t = s.nextTask ∧ x'.pid = z.pid) ∨ (t ∈ s.taskList ∧ ∃ x, s.tasks t = some x ∧ x'.pid = x.pid) := by
    intro t x' ht hx'
    rcases ha.back hx' with ⟨rfl, rfl⟩ | ⟨x0, hx0, rfl⟩
    · exact .inl ⟨rfl, rfl⟩
    · refine .inr ⟨(hlist ht).resolve_right fun he => ?_, x0, hx0, rfl⟩
      rw [he, ha.fresh] at hx0
      cases hx0
  refine ⟨fun {t} ht => ?_, fun {t t' x1 x2} ht ht' hx1 hx2 hpid => ?_, fun {t x'} ht hx' => ?_, h.counter,
    fun {t} ht => ?_⟩
  · rcases hlist ht with hold | rfl
    · obtain ⟨x0, hx0⟩ := h.live hold
      exact ⟨_, ha.forth hx0⟩
    · exact ⟨z, ha.self⟩
  · rcases hback ht hx1 with ⟨rfl, hp⟩ | ⟨hm, y1, hy1, hp⟩
    · rcases hback ht' hx2 with ⟨rfl, _⟩ | ⟨hm', y2, hy2, hp'⟩
      · rfl
      · exact absurd (by rw [← hp', ← hpid, hp]) (hnew t' hm' y2 hy2)
    · rcases hback ht' hx2 with ⟨rfl, hp'⟩ | ⟨hm', y2, hy2, hp'⟩
      · exact absurd (by rw [← hp, hpid, hp']) (hnew t hm y1 hy1)
      · exact h.unique hm hm' hy1 hy2 (by rw [← hp, ← hp', hpid])
  · rcases hback ht hx' with ⟨_, hp⟩ | ⟨hm, y1, hy1, hp⟩
    · rw [hp]
      exact hz
    · rw [hp]
      exact h.range hm hy1
  · have ht : s.nextTask + 1 ≤ t := ht
    exact ha.none (by omega) (h.fresh (by omega))

/-- A task after the child `c` was reaped: the running task does not have it any more. -/
def Sched.bereaved (s : Sched) (c t : Nat) (x : Task) : Task :=
  { x with children := if t = s.current then x.children.filter (· ≠ c) else x.children }

theorem mem_bereaved : u ∈ (s.bereaved c t x).children ↔ u ∈ x.children ∧ (t = s.current → u ≠ c) := by
  unfold Sched.bereaved
  split <;> simp [*]

theorem reaped_tasks (hcur : s.tasks s.current = some x) (ht : t ≠ c) :
    (s.reaped c x y).tasks t = (s.tasks t).map (s.bereaved c t) := by
  have htasks : (s.reaped c x y).tasks =
      update (update s.tasks s.current (some { x with children := x.children.filter (· ≠ c) })) c none := rfl
  rw [htasks, update_of_ne ht, update_apply]
  split
  · rename_i hc
    rw [hc, hcur, Option.map_some, Sched.bereaved, if_pos rfl]
  · rename_i hc
    have hsame : s.bereaved c t = id := by
      funext x
      rw [Sched.bereaved, if_neg hc]
      rfl
    rw [hsame, Option.map_id_apply]

theorem reaped_alive {y x0 : Task} (hcur : s.tasks s.current = some x) (hx0 : s.tasks t = some x0) (ht : t ≠ c) :
    (s.reaped c x y).tasks t = some (s.bereaved c t x0) := by
  rw [reaped_tasks hcur ht, hx0, Option.map_some]

theorem reaped_back (hcur : s.tasks s.current = some x) (hx' : (s.reaped c x y).tasks t = some x') :
    t ≠ c ∧ ∃ x0, s.tasks t = some x0 ∧ x' = s.bereaved c t x0 := by
  have ht : t ≠ c := by
    intro he
    subst he
    cases (Function.update_self ..).symm.trans hx'
  rw [reaped_tasks hcur ht] at hx'
  obtain ⟨x0, hx0, rfl⟩ := Option.map_eq_some_iff.mp hx'
  exact ⟨ht, x0, hx0, rfl⟩

theorem reaped_none (hcur : s.tasks s.current = some x) (hnone : s.tasks t = none) :
    (s.reaped c x y).tasks t = none := by
  by_cases ht : t = c
  · rw [ht]
    exact Function.update_self ..
  · rw [reaped_tasks hcur ht, hnone, Option.map_none]

theorem mem_reaped : t ∈ (s.reaped c x y).taskList ↔ t ∈ s.taskList ∧ t ≠ c := by
  have hlist : (s.reaped c x y).taskList = s.taskList.filter (· ≠ c) := rfl
  rw [hlist, List.mem_filter, decide_eq_true_eq]

theorem PidsOk.reaped (h : PidsOk s) (hcur : s.tasks s.current = some x) : PidsOk (s.reaped c x y) := by
  refine ⟨fun {t} ht => ?_, fun {t t' x1 x2} ht ht' hx1 hx2 hpid => ?_, fun {t x'} ht hx' => ?_, h.counter,
    fun {t} ht => reaped_none hcur (h.fresh ht)⟩
  · obtain ⟨hm, hne⟩ := mem_reaped.mp ht
    obtain ⟨x0, hx0⟩ := h.live hm
    exact ⟨_, reaped_alive hcur hx0 hne⟩
  · obtain ⟨_, y1, hy1, rfl⟩ := reaped_back hcur hx1
    obtain ⟨_, y2, hy2, rfl⟩ := reaped_back hcur hx2
    exact h.unique (mem_reaped.mp ht).1 (mem_reaped.mp ht').1 hy1 hy2 hpid
  · obtain ⟨_, y1, hy1, rfl⟩ := reaped_back hcur hx'
    change y1.pid < pidMax
    exact h.range (mem_reaped.mp ht).1 hy1

/-! ## 2. Runs -/

/-- Nobody on the list has the pid the counter shows. -/
def PidFree (s : Sched) : Prop := ∀ t ∈ s.taskList, ∀ x, s.tasks t = some x → x.pid ≠ s.nextPid

/-- A call that makes a task finds the next pid unused. -/
def NoPidReuse (s : Sched) : Event → Prop
  | .create (.ok _) => PidFree s
  | .fork .ok => PidFree s
  | _ => True

theorem makes_pidFree {y : Option Signals} (he : e.makes y) (hq : NoPidReuse s e) : PidFree s := by
  cases e with
  | create r =>
    cases r with
    | ok b => exact hq
    | _ => exact he.elim
  | fork r =>
    cases r with
    | ok => exact hq
    | _ => exact he.elim
  | _ => exact he.elim

/-- One call. -/
theorem PidsOk.step (h : PidsOk s) {e : Event} (hq : NoPidReuse s e) (hl : Lineage s e s') : PidsOk s' := by
  cases hl with
  | same hs => exact h.same hs.ids
  | pid hs => exact h.took.same hs.ids
  | @drop x g he hx hg hs =>
    have hdrop : PidsOk { s.tookPid with signals := update s.signals g none } :=
      h.took.congr rfl rfl rfl (pidAfter_lt _)
    exact hdrop.same hs.ids
  | @child x x' z y he hx hz hx' hs =>
    obtain ⟨htasks, hlist, hnext, hpid, hcur⟩ := addSignals_fields s.tookPid y
    have hsig : PidsOk (s.tookPid.addSignals y) := h.took.congr htasks hlist hnext (hpid ▸ pidAfter_lt _)
    have hparent : (s.tookPid.addSignals y).tasks (s.tookPid.addSignals y).current = some x := by
      rw [htasks, hcur]
      exact hx
    refine (hsig.adopt hparent (hcur ▸ hx') ?_ ?_).same hs.ids
    · rw [hz.pid]
      exact h.counter
    · rw [hlist, htasks, hz.pid]
      exact makes_pidFree he hq
  | exit he hend => exact h.same hend.ids
  | reap hx hc hy hzomb hs =>
    rw [hs]
    exact h.reaped hx

/-- The pids are pids, no two tasks have the same, and the search finds the task with a pid. -/
structure PidsUnique (s : Sched) : Prop where
  distinct : ∀ t ∈ s.taskList, ∀ t' ∈ s.taskList, t ≠ t' → ∀ x x', s.tasks t = some x → s.tasks t' = some x' →
    x.pid ≠ x'.pid
  range : ∀ t ∈ s.taskList, ∀ x, s.tasks t = some x → x.pid < pidMax
  search : ∀ pid, ∃ r, findTaskByPid pid s = .ok (r, s) ∧ ∀ t, r = some t ↔ HasPid s pid s.taskList t

/-- The search of a list of live tasks. -/
theorem findPid_eq (pid : Int) {ts : List Nat} (hlive : ∀ t ∈ ts, ∃ x, s.tasks t = some x) :
    ∃ r, findPid pid ts s = .ok (r, s) ∧ (r = none → ∀ t, ¬ HasPid s pid ts t) ∧
      ∀ t, r = some t → HasPid s pid ts t := by
  induction ts with
  | nil => exact ⟨none, rfl, fun _ t ht => List.not_mem_nil ht.1, fun t ht => by cases ht⟩
  | cons t ts ih =>
    obtain ⟨x, hx⟩ := hlive t (.head _)
    have hget : getTask t s = .ok (x, s) := by
      rw [getTask, hx]
    obtain ⟨r, hr, hnone, hsome⟩ := ih fun u hu => hlive u (.tail _ hu)
    by_cases hpid : (x.pid : Int) = pid
    · refine ⟨some t, ?_, (fun hc => by cases hc), fun u hu => ?_⟩
      · rw [findPid]
        simp only [bind, StateT.bind, hget, Except.bind, if_pos hpid]
        rfl
      · cases hu
        exact ⟨.head _, x, hx, hpid⟩
    · refine ⟨r, ?_, fun hc u hu => ?_, fun u hu => ?_⟩
      · rw [findPid]
        simp only [bind, StateT.bind, hget, Except.bind, if_neg hpid]
        exact hr
      · obtain ⟨hmem, y, hy, hyp⟩ := hu
        rcases List.mem_cons.mp hmem with rfl | hmem
        · cases hx.symm.trans hy
          exact hpid hyp
        · exact hnone hc u ⟨hmem, y, hy, hyp⟩
      · obtain ⟨hmem, hrest⟩ := hsome u hu
        exact ⟨.tail _ hmem, hrest⟩

theorem PidsOk.pidsUnique (h : PidsOk s) : PidsUnique s := by
  refine ⟨fun t ht t' ht' hne x x' hx hx' hpid => hne (h.unique ht ht' hx hx' hpid),
    fun t ht x hx => h.range ht hx, fun pid => ?_⟩
  obtain ⟨r, hr, hnone, hsome⟩ := findPid_eq pid (s := s) fun t ht => h.live ht
  refine ⟨r, hr, fun t => ⟨hsome t, fun ht => ?_⟩⟩
  cases hcase : r with
  | none => exact absurd ht (hnone hcase t)
  | some u =>
    obtain ⟨hmem, x, hx, hp⟩ := hsome u hcase
    obtain ⟨hmem', x', hx', hp'⟩ := ht
    have hpids : x.pid = x'.pid := Int.ofNat.inj (hp.trans hp'.symm)
    rw [h.unique hmem hmem' hx hx' hpids]

theorem pidsOk_schedInit : PidsOk schedInit := by
  have honly : ∀ {t}, t ∈ schedInit.taskList → t = kernelTask := fun ht => List.mem_singleton.mp ht
  refine ⟨fun {t} ht => ?_, fun ht ht' _ _ _ => (honly ht).trans (honly ht').symm, fun {t x} ht hx => ?_,
    by decide, schedInit_fresh⟩
  · rw [honly ht]
    exact ⟨_, rfl⟩
  · rw [honly ht] at hx
    cases hx
    decide

/-- **Live pids are unique** in every run in which no task is made while another has the pid that `alloc_pid` gives
    next. -/
theorem live_pids_unique {es : List Event}
    (hr : Run (fun s e s' => NoPidReuse s e ∧ Exec s e s') schedInit es s) : PidsUnique s := by
  refine PidsOk.pidsUnique (hr.invariant (I := PidsOk) (fun s e s' h hs => ?_) pidsOk_schedInit)
  exact h.step hs.1 hs.2.lineage

instance : Decidable (PidFree s) :=
  inferInstanceAs (Decidable (∀ t ∈ s.taskList, ∀ x ∈ s.tasks t, x.pid ≠ s.nextPid))

instance : Decidable (NoPidReuse s e) := by
  unfold NoPidReuse
  split <;> infer_instance

/-- Task 1 forks, reaps its child and forks again. -/
def forksTwice : List Event :=
  [.create (.ok true), .schedule, .fork .ok, .schedule, .schedule, .exit 0, .waitpid 2 0, .fork .ok]

theorem live_pids_unique_reaped : ∃ s : Sched,
    Run (fun s e s' => NoPidReuse s e ∧ Exec s e s') schedInit forksTwice s ∧ PidsUnique s ∧
    s.taskList = [0, 1, 3] ∧ (s.tasks 3).map (·.pid) = some 3 := by
  obtain ⟨s, hrun, hend⟩ := exists_checked_run (P := NoPidReuse) (fun _ _ => of_decide_eq_true) forksTwice
    (fun s => s.taskList = [0, 1, 3] ∧ (s.tasks 3).map (·.pid) = some 3) (by decide +kernel)
  exact ⟨s, hrun, live_pids_unique hrun, hend⟩

/-! ## 3. The counter comes round -/

theorem run_failed_creates (s : Sched) (n : Nat) :
    Run Exec s (List.replicate n (.create .noResource)) { s with nextPid := pidAfter^[n] s.nextPid } := by
  induction n generalizing s with
  | zero => exact .nil s
  | succ n ih => exact .cons ⟨0, rfl⟩ (ih s.tookPid)

theorem pidAfter_iterate {p n : Nat} (h : p + n < pidMax) : pidAfter^[n] p = p + n := by
  induction n with
  | zero => rfl
  | succ n ih =>
    rw [Function.iterate_succ_apply', ih (by omega), pidAfter, if_neg (by omega)]
    rfl

/-- After 32765 failed calls the counter shows 2 again. -/
theorem pidAfter_round : pidAfter^[32765] 3 = 2 := by
  rw [Function.iterate_succ_apply' pidAfter 32764 3, pidAfter_iterate (by decide)]
  decide

/-- Two tasks; the second has pid 2. -/
def twoTasks : List Event := [.create (.ok true), .create (.ok true)]

/-- **A pid given twice**: two tasks, 32765 calls of `task_create` that find no memory for a kernel stack, and a third
    task, which gets the pid of the second. -/
theorem pid_taken_twice : ∃ s : Sched,
    Run Exec schedInit (twoTasks ++ List.replicate 32765 (.create .noResource) ++ [.create (.ok true)]) s ∧
    s.taskList = [0, 1, 2, 3] ∧ (s.tasks 2).map (·.pid) = some 2 ∧ (s.tasks 3).map (·.pid) = some 2 ∧
    ¬ PidsUnique s := by
  obtain ⟨s₁, hfirst, hpid, hthree⟩ := exists_exec_run twoTasks (fun s => s.nextPid = 3 ∧
    (next { s with nextPid := 2 } (.create (.ok true))).map (fun s =>
      (s.taskList, (s.tasks 2).map (·.pid), (s.tasks 3).map (·.pid))) = some ([0, 1, 2, 3], some 2, some 2))
    (by decide +kernel)
  obtain ⟨s₂, h₂, hfacts⟩ := Option.map_eq_some_iff.mp hthree
  simp only [Prod.mk.injEq] at hfacts
  obtain ⟨hlist, hp₂, hp₃⟩ := hfacts
  have hround := run_failed_creates s₁ 32765
  rw [hpid, pidAfter_round] at hround
  have hrun := (hfirst.append hround).snoc (exec_of_next h₂)
  refine ⟨s₂, hrun, hlist, hp₂, hp₃, fun hu => ?_⟩
  obtain ⟨x, hx, hxp⟩ := Option.map_eq_some_iff.mp hp₂
  obtain ⟨y, hy, hyp⟩ := Option.map_eq_some_iff.mp hp₃
  exact hu.distinct 2 (by rw [hlist]; decide) 3 (by rw [hlist]; decide) (by decide) x y hx hy (hxp.trans hyp.symm)

end OreUnix.Proc
