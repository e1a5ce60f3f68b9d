/-
  Subject: PARENTS AND CHILDREN AGREE as long as nobody exits who still has children.

  * `FamilyOk s` -- a task on a list of children has the owner of the list as parent and its pid as `ppid`, every task
    with a parent is on the parent's list, and zombies have no children;
  * `family_consistent` -- in every run in which only tasks without children exit: the lists of children and the
    parent pointers agree, no list holds or belongs to a freed task, a zombie is reaped by its parent and never comes
    back;
  * `exit_splits_family` -- `sys_exit` gives the children a new parent and leaves them on the old list: init never
    finds them.
-/
import OreUnix.Proc.Waitpid

namespace OreUnix.Proc

open Function (update update_apply)
open CircularList Wp Lts

variable {s s' : Sched} {t : Nat} {x : Task}
variable {e : Event}

/-! ## 1. The invariant -/

structure FamilyOk (s : Sched) : Prop where
  child : ∀ {p t x}, s.tasks p = some x → t ∈ x.children →
    ∃ y, s.tasks t = some y ∧ y.parent = some p ∧ y.ppid = x.pid
  parent : ∀ {p t y}, s.tasks t = some y → y.parent = some p → ∃ x, s.tasks p = some x ∧ t ∈ x.children
  barren : ∀ {t x}, s.tasks t = some x → x.state = .zombie → x.children = []
  fresh : ∀ {t}, s.nextTask ≤ t → s.tasks t = none

theorem FamilyOk.same (h : FamilyOk s) (hs : SameFamily s s') : FamilyOk s' := by
  refine ⟨fun {p t x'} hx' ht => ?_, fun {p t y'} hy' hp => ?_, fun {t x'} hx' hz => ?_,
    fun {t} ht => hs.gone (h.fresh (hs.nextTask ▸ ht))⟩
  · obtain ⟨x, hx, hkin⟩ := hs.back hx'
    obtain ⟨y, hy, hyp, hpp⟩ := h.child hx (hkin.children ▸ ht)
    obtain ⟨y', hy', hkin'⟩ := hs.alive hy
    exact ⟨y', hy', hkin'.parent.trans hyp, by rw [hkin'.ppid, hpp, hkin.pid]⟩
  · obtain ⟨y, hy, hkin⟩ := hs.back hy'
    obtain ⟨x, hx, ht⟩ := h.parent hy (hkin.parent ▸ hp)
    obtain ⟨x', hx', hkin'⟩ := hs.alive hx
    exact ⟨x', hx', hkin'.children ▸ ht⟩
  · obtain ⟨x, hx, hkin⟩ := hs.back hx'
    rw [hkin.children]
    exact h.barren hx (hkin.zombie hz)

/-- Pids to come and signal structs have no part in it. -/
theorem FamilyOk.congr (h : FamilyOk s) (htasks : s'.tasks = s.tasks) (hnext : s'.nextTask = s.nextTask) :
    FamilyOk s' := by
  refine ⟨?_, ?_, ?_, ?_⟩
  · rw [htasks]
    exact h.child
  · rw [htasks]
    exact h.parent
  · rw [htasks]
    exact h.barren
  · rw [htasks, hnext]
    exact h.fresh

/-- A task without children becomes a zombie. -/
theorem FamilyOk.die (h : FamilyOk s) (hx : s.tasks t = some x) (hnone : x.children = []) :
    FamilyOk (s.put t { x with state := .zombie }) := by
  have hback : ∀ {u y'}, (s.put t { x with state := .zombie }).tasks u = some y' → ∃ y, s.tasks u = some y ∧
      y'.pid = y.pid ∧ y'.ppid = y.ppid ∧ y'.parent = y.parent ∧ y'.children = y.children ∧
      (y'.state = .zombie → y.state = .zombie ∨ y.children = []) := by
    intro u y' hy'
    by_cases hut : u = t
    · subst hut
      cases (put_self ..).symm.trans hy'
      exact ⟨x, hx, rfl, rfl, rfl, rfl, fun _ => .inr hnone⟩
    · exact ⟨y', (put_of_ne hut _).symm.trans hy', rfl, rfl, rfl, rfl, .inl⟩
  have hforth : ∀ {u y}, s.tasks u = some y → ∃ y', (s.put t { x with state := .zombie }).tasks u = some y' ∧
      y'.ppid = y.ppid ∧ y'.parent = y.parent ∧ y'.children = y.children := by
    intro u y hy
    by_cases hut : u = t
    · subst hut
      cases hx.symm.trans hy
      exact ⟨_, put_self .., rfl, rfl, rfl⟩
    · exact ⟨y, (put_of_ne hut _).trans hy, rfl, rfl, rfl⟩
  refine ⟨fun {p u x'} hx' hu => ?_, fun {p u y'} hy' hp => ?_, fun {u x'} hx' hz => ?_, fun {u} hu => ?_⟩
  · obtain ⟨x0, hx0, hpid, _, _, hch, _⟩ := hback hx'
    obtain ⟨y, hy, hyp, hpp⟩ := h.child hx0 (hch ▸ hu)
    obtain ⟨y', hy', hppid, hpar, _⟩ := hforth hy
    exact ⟨y', hy', hpar.trans hyp, by rw [hppid, hpp, hpid]⟩
  · obtain ⟨y, hy, _, _, hpar, _, _⟩ := hback hy'
    obtain ⟨x0, hx0, hu⟩ := h.parent hy (hpar ▸ hp)
    obtain ⟨x', hx', _, _, hch⟩ := hforth hx0
    exact ⟨x', hx', hch ▸ hu⟩
  · obtain ⟨x0, hx0, _, _, _, hch, hzomb⟩ := hback hx'
    rw [hch]
    exact (hzomb hz).elim (h.barren hx0) id
  · have hut : u ≠ t := by
      intro he
      rw [← he, h.fresh hu] at hx
      cases hx
    exact (put_of_ne hut _).trans (h.fresh hu)

/-- A new task, on the list of the running task, which is no zombie. -/
theorem FamilyOk.adopt (h : FamilyOk s) {z y : Task} (hcur : s.tasks s.current = some x)
    (hy : (s.link z).tasks s.current = some y) (hzomb : x.state ≠ .zombie) (hz : z.state = .running)
    (hppid : z.ppid = x.pid) (hpar : z.parent = some s.current) (hnone : z.children = []) :
    FamilyOk (s.adopt z y) := by
  obtain ⟨rfl, ha⟩ := adopts (h.fresh le_rfl) hcur hy
  refine ⟨fun {p t x'} hx' ht => ?_, fun {p t y'} hy' hp => ?_, fun {t x'} hx' hst => ?_, fun {t} ht => ?_⟩
  · rcases ha.back hx' with ⟨rfl, rfl⟩ | ⟨x0, hx0, rfl⟩
    · rw [hnone] at ht
      cases ht
    · rcases mem_bearing.mp ht with hold | ⟨hc, hnew⟩
      · obtain ⟨y0, hy0, hyp, hpp⟩ := h.child hx0 hold
        exact ⟨_, ha.forth hy0, hyp, hpp⟩
      · subst hc
        cases hcur.symm.trans hx0
        exact ⟨z, hnew ▸ ha.self, hpar, hppid⟩
  · rcases ha.back hy' with ⟨rfl, rfl⟩ | ⟨y0, hy0, rfl⟩
    · cases hpar.symm.trans hp
      exact ⟨_, ha.forth hcur, mem_bearing.mpr (.inr ⟨rfl, rfl⟩)⟩
    · obtain ⟨x0, hx0, hm⟩ := h.parent hy0 hp
      exact ⟨_, ha.forth hx0, mem_bearing.mpr (.inl hm)⟩
  · rcases ha.back hx' with ⟨rfl, rfl⟩ | ⟨x0, hx0, rfl⟩
    · cases hz.symm.trans hst
    · refine List.eq_nil_iff_forall_not_mem.mpr fun u hu => ?_
      rcases mem_bearing.mp hu with hold | ⟨hc, _⟩
      · rw [h.barren hx0 hst] at hold
        cases hold
      · subst hc
        cases hcur.symm.trans hx0
        exact hzomb hst
  · have ht : s.nextTask + 1 ≤ t := ht
    exact ha.none (by omega) (h.fresh (by omega))

/-- A zombie child goes, which has no children itself. -/
theorem FamilyOk.reaped (h : FamilyOk s) {c : Nat} {y : Task} (hcur : s.tasks s.current = some x)
    (hc : c ∈ x.children) (hy : s.tasks c = some y) (hz : y.state = .zombie) : FamilyOk (s.reaped c x y) := by
  have hparent : y.parent = some s.current := by
    obtain ⟨y0, hy0, hp, _⟩ := h.child hcur hc
    cases hy.symm.trans hy0
    exact hp
  refine ⟨fun {p t x'} hx' ht => ?_, fun {p t y'} hy' hp => ?_, fun {t x'} hx' hst => ?_,
    fun {t} ht => reaped_none hcur (h.fresh ht)⟩
  · obtain ⟨_, x0, hx0, rfl⟩ := reaped_back hcur hx'
    obtain ⟨hold, hne⟩ := mem_bereaved.mp ht
    obtain ⟨y0, hy0, hyp, hpp⟩ := h.child hx0 hold
    have htc : t ≠ c := by
      intro he
      rw [he] at hy0
      cases hy.symm.trans hy0
      exact hne (Option.some.inj (hyp.symm.trans hparent)) he
    exact ⟨_, reaped_alive hcur hy0 htc, hyp, hpp⟩
  · obtain ⟨htc, y0, hy0, rfl⟩ := reaped_back hcur hy'
    obtain ⟨x0, hx0, hm⟩ := h.parent hy0 hp
    have hpc : p ≠ c := by
      intro he
      rw [he] at hx0
      cases hy.symm.trans hx0
      rw [h.barren hy hz] at hm
      cases hm
    exact ⟨_, reaped_alive hcur hx0 hpc, mem_bereaved.mpr ⟨hm, fun _ => htc⟩⟩
  · obtain ⟨_, x0, hx0, rfl⟩ := reaped_back hcur hx'
    refine List.eq_nil_iff_forall_not_mem.mpr fun u hu => ?_
    have hold := (mem_bereaved.mp hu).1
    rw [h.barren hx0 hst] at hold
    cases hold

/-! ## 2. Runs -/

/-- The running task has no children. -/
def Childless (s : Sched) : Prop := ∀ x, s.tasks s.current = some x → x.children = []

/-- Only a task without children ends, and no zombie makes a task. -/
def TreeKept (s : Sched) : Event → Prop
  | .exit _ => Childless s
  | .deliver => Fatal s → Childless s
  | .create (.ok _) => ∀ x, s.tasks s.current = some x → x.state ≠ .zombie
  | .fork .ok => ∀ x, s.tasks s.current = some x → x.state ≠ .zombie
  | _ => True

theorem makes_alive {y : Option Signals} (he : e.makes y) (hq : TreeKept s e) :
    ∀ x, s.tasks s.current = some x → x.state ≠ .zombie := by
  cases e with
  | create r =>
    cases r with
    | ok b => exact hq
    | _ => exact he.elim
  | fork r =>
    cases r with
    | ok => exact hq
    | _ => exact he.elim
  | _ => exact he.elim

theorem ends_childless (he : e.ends s) (hq : TreeKept s e) : Childless s := by
  cases e with
  | exit code => exact hq
  | deliver => exact hq he
  | _ => exact he.elim

theorem FamilyOk.step (h : FamilyOk s) {e : Event} (hq : TreeKept s e) (hl : Lineage s e s') : FamilyOk s' := by
  cases hl with
  | same hs => exact h.same hs
  | pid hs =>
    have htook : FamilyOk s.tookPid := h.congr rfl rfl
    exact htook.same hs
  | @drop x g he hx hg hs =>
    have hdrop : FamilyOk { s.tookPid with signals := update s.signals g none } := h.congr rfl rfl
    exact hdrop.same hs
  | @child x x' z y he hx hz hx' hs =>
    obtain ⟨htasks, _, hnext, _, hcur⟩ := addSignals_fields s.tookPid y
    have hsig : FamilyOk (s.tookPid.addSignals y) := h.congr htasks hnext
    have hparent : (s.tookPid.addSignals y).tasks (s.tookPid.addSignals y).current = some x := by
      rw [htasks, hcur]
      exact hx
    refine (hsig.adopt hparent (hcur ▸ hx') (makes_alive he hq x hx) hz.state hz.ppid ?_ hz.children).same hs
    rw [hcur]
    exact hz.parent
  | exit he hend =>
    have hnone := ends_childless he hq _ hend.was
    exact (h.die hend.was hnone).same (hend.leaf hnone)
  | reap hx hc hy hzomb hs =>
    rw [hs]
    exact h.reaped hx hc hy hzomb

/-- A freed task does not come back: new tasks have new numbers. -/
theorem Lineage.gone (hfresh : FamilyOk s) (hl : Lineage s e s') (hlt : t < s.nextTask) (ht : s.tasks t = none) :
    s'.tasks t = none ∧ t < s'.nextTask := by
  cases hl with
  | same hs => exact ⟨hs.gone ht, hs.nextTask ▸ hlt⟩
  | pid hs => exact ⟨hs.gone ht, hs.nextTask ▸ hlt⟩
  | drop _ _ _ hs => exact ⟨hs.gone ht, hs.nextTask ▸ hlt⟩
  | @child x x' z y he hx hz hx' hs =>
    obtain ⟨htasks, _, hnext, _, hcur⟩ := addSignals_fields s.tookPid y
    have hparent : (s.tookPid.addSignals y).tasks (s.tookPid.addSignals y).current = some x := by
      rw [htasks, hcur]
      exact hx
    have hfr : (s.tookPid.addSignals y).tasks (s.tookPid.addSignals y).nextTask = none := by
      rw [htasks, hnext]
      exact hfresh.fresh le_rfl
    obtain ⟨_, ha⟩ := adopts hfr hparent (hcur ▸ hx')
    have hold : t ≠ (s.tookPid.addSignals y).nextTask := by
      rw [hnext]
      exact Nat.ne_of_lt hlt
    refine ⟨hs.gone (ha.none hold (htasks ▸ ht)), ?_⟩
    have hadopt : ((s.tookPid.addSignals y).adopt z x').nextTask = (s.tookPid.addSignals y).nextTask + 1 := rfl
    rw [hs.nextTask, hadopt, hnext]
    exact Nat.lt_succ_of_lt hlt
  | exit _ hend => exact ⟨hend.ids.gone ht, hend.ids.nextTask ▸ hlt⟩
  | @reap c x y hx hc hy hzomb hs =>
    subst hs
    exact ⟨reaped_none hx ht, hlt⟩

/-! ## 3. The zombie is found -/

/-- The parent of a zombie that waits for its pid reaps it. -/
theorem FamilyOk.waits (h : FamilyOk s) {y : Task} (hy : s.tasks t = some y) (hz : y.state = .zombie)
    (hp : y.parent = some s.current) (options : Nat) :
    ∃ st s', sysWaitpid y.pid options s = .ok (.reaped y.pid st, s') := by
  obtain ⟨x, hx, hm⟩ := h.parent hy hp
  have hlive : ∀ c ∈ x.children, ∃ z, s.tasks c = some z := fun c hc => (h.child hx hc).imp fun _ hz => hz.1
  obtain ⟨c, hc⟩ := Option.isSome_iff_exists.mp
    (List.find?_isSome.mpr ⟨t, hm, (zombieFor_iff hy).mpr ⟨.inr rfl, hz⟩⟩)
  obtain ⟨z, hcz, _⟩ := h.child hx (List.mem_of_find?_eq_some hc)
  have hpid : z.pid = y.pid := by
    rcases ((zombieFor_iff hcz).mp (List.find?_some hc)).1 with hpid | hpid <;> omega
  exact ⟨_, _, (sysWaitpid_zombie hx hlive hc hcz).trans (by rw [hpid])⟩

/-- Lists of children and parent pointers tell the same, among tasks that are there. -/
structure Consistent (s : Sched) : Prop where
  links : ∀ p x t y, s.tasks p = some x → s.tasks t = some y →
    (t ∈ x.children ↔ y.parent = some p ∧ y.ppid = x.pid)
  alive : ∀ p x t, s.tasks p = some x → t ∈ x.children → ∃ y, s.tasks t = some y
  headed : ∀ t y p, s.tasks t = some y → y.parent = some p → ∃ x, s.tasks p = some x
  reapable : ∀ t y options, s.tasks t = some y → y.state = .zombie → y.parent = some s.current →
    ∃ st s', sysWaitpid y.pid options s = .ok (.reaped y.pid st, s')

theorem FamilyOk.consistent (h : FamilyOk s) : Consistent s := by
  refine ⟨fun p x t y hx hy => ⟨fun ht => ?_, fun hp => ?_⟩, fun p x t hx ht => ?_, fun t y p hy hp => ?_,
    fun t y options hy hz hp => h.waits hy hz hp options⟩
  · obtain ⟨y', hy', hpar, hppid⟩ := h.child hx ht
    cases hy.symm.trans hy'
    exact ⟨hpar, hppid⟩
  · obtain ⟨x', hx', ht⟩ := h.parent hy hp.1
    cases hx.symm.trans hx'
    exact ht
  · obtain ⟨y, hy, _⟩ := h.child hx ht
    exact ⟨y, hy⟩
  · obtain ⟨x, hx, _⟩ := h.parent hy hp
    exact ⟨x, hx⟩

theorem familyOk_schedInit : FamilyOk schedInit := by
  refine ⟨fun hx ht => ?_, fun hy hp => ?_, fun hx _ => ?_, schedInit_fresh⟩
  · rw [schedInit_task hx] at ht
    cases ht
  · rw [schedInit_task hy] at hp
    cases hp
  · rw [schedInit_task hx]

/-- One call of the kind, that comes back. -/
def TreeStep (s : Sched) (e : Event) (s' : Sched) : Prop := TreeKept s e ∧ Exec s e s'

/-- **Parents and children agree** in every state of a run in which only tasks without children end; and from any such
    state on, a task that is gone stays gone. -/
theorem family_consistent {es es' : List Event} (hr : Run TreeStep schedInit es s)
    (hr' : Run TreeStep s es' s') :
    Consistent s ∧ Consistent s' ∧ ∀ t, t < s.nextTask → s.tasks t = none → s'.tasks t = none := by
  have hstep : ∀ s e s', FamilyOk s → TreeStep s e s' → FamilyOk s' :=
    fun s e s' h hs => h.step hs.1 hs.2.lineage
  have h := hr.invariant (I := FamilyOk) hstep familyOk_schedInit
  refine ⟨h.consistent, (hr'.invariant (I := FamilyOk) hstep h).consistent, fun t hlt ht => ?_⟩
  have hgone := hr'.invariant (I := fun s' => FamilyOk s' ∧ s'.tasks t = none ∧ t < s'.nextTask)
    (fun s e s' h hs => ⟨hstep s e s' h.1 hs, hs.2.lineage.gone h.1 h.2.2 h.2.1⟩) ⟨h, ht, hlt⟩
  exact hgone.2.1

/-! ## 4. Two runs -/

/-- A test for `TreeKept`, without the signals. -/
def keepsTree (s : Sched) : Event → Bool
  | .exit _ => (s.tasks s.current).all (·.children.isEmpty)
  | .deliver => false
  | .create (.ok _) => (s.tasks s.current).all (·.state ≠ .zombie)
  | .fork .ok => (s.tasks s.current).all (·.state ≠ .zombie)
  | _ => true

theorem treeKept_of_test (h : keepsTree s e = true) : TreeKept s e := by
  have hall : ∀ {p : Task → Bool}, (s.tasks s.current).all p = true → ∀ x, s.tasks s.current = some x → p x = true := by
    intro p hp x hx
    rw [hx] at hp
    exact hp
  cases e with
  | exit code => exact fun x hx => List.isEmpty_iff.mp (hall h x hx)
  | deliver => cases h
  | create r =>
    cases r with
    | ok b => exact fun x hx => of_decide_eq_true (hall h x hx)
    | _ => trivial
  | fork r =>
    cases r with
    | ok => exact fun x hx => of_decide_eq_true (hall h x hx)
    | _ => trivial
  | _ => trivial

/-- Task 1 forks, and its child runs. -/
def childRuns : List Event := [.create (.ok true), .schedule, .fork .ok, .schedule, .schedule]

/-- The child exits and its parent reaps it. -/
def childReaped : List Event := childRuns ++ [.exit 0]

theorem family_consistent_reaped : ∃ s s' : Sched, Run TreeStep schedInit childReaped s ∧
    Run TreeStep s [.waitpid 2 0] s' ∧ Consistent s ∧ Consistent s' ∧
    (s.tasks 2).map (·.state) = some .zombie ∧ s'.tasks 2 = none := by
  obtain ⟨s, hrun, hst, hgone⟩ := exists_checked_run (P := TreeKept) (fun _ _ => treeKept_of_test) childReaped
    (fun s => (s.tasks 2).map (·.state) = some .zombie ∧
      (next s (.waitpid 2 0)).map (fun s => s.tasks 2) = some none) (by decide +kernel)
  obtain ⟨s', hs', hnone⟩ := Option.map_eq_some_iff.mp hgone
  have hrun' : Run TreeStep s [.waitpid 2 0] s' := .cons ⟨trivial, exec_of_next hs'⟩ (.nil _)
  obtain ⟨hc, hc', _⟩ := family_consistent hrun hrun'
  exact ⟨s, s', hrun, hrun', hc, hc', hst, hnone⟩

/-- The child forks, too, and exits. -/
def childForksAndExits : List Event := childRuns ++ [.fork .ok, .exit 0]

/-- The grandchild, task 3, now has task 1 for its parent, and is still on the list of task 2. -/
theorem exit_splits_family : ∃ s : Sched, Run Exec schedInit childForksAndExits s ∧
    (s.tasks 1).map (·.children) = some [2] ∧ (s.tasks 2).map (·.children) = some [3] ∧
    (s.tasks 3).map (·.parent) = some (some 1) ∧ ¬ Consistent s := by
  obtain ⟨s, hrun, h₁, h₂, h₃⟩ := exists_exec_run childForksAndExits
    (fun s => (s.tasks 1).map (·.children) = some [2] ∧ (s.tasks 2).map (·.children) = some [3] ∧
      (s.tasks 3).map (·.parent) = some (some 1)) (by decide +kernel)
  refine ⟨s, hrun, h₁, h₂, h₃, fun hc => ?_⟩
  obtain ⟨x, hx, hch⟩ := Option.map_eq_some_iff.mp h₂
  obtain ⟨y, hy, hpar⟩ := Option.map_eq_some_iff.mp h₃
  have hlinked := (hc.links 2 x 3 y hx hy).mp (by rw [hch]; exact List.mem_singleton.mpr rfl)
  cases hpar.symm.trans hlinked.1

end OreUnix.Proc
