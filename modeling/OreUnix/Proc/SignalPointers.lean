/-
  Subject: WHOM A SIGNAL CAN BE SENT TO: every task but `kernel_task` has a signal struct of its own.

  * `SignalsOk s` -- the tasks on the list, `kernel_task` apart, each have a live signal struct that nobody else has;
    `kernel_task` has none and pid 0;
  * `kill_safe_iff` -- in every run in which `signal_create` does not fail in `task_create` and no `sys_fork` fails
    while the child still has its parent's signal struct, `sys_kill` returns for every pid and signal but one: a valid
    signal to pid 0;
  * `kill_kernel_null` -- that one follows a null pointer, right after `sched_init`.
-/
import OreUnix.Proc.Pids

namespace OreUnix.Proc

open Function (update update_of_ne update_apply)
open CircularList Wp Lts

variable {s s' : Sched} {t : Nat} {x : Task}
variable {Q : Unit → Sched → Prop} {e : Event} {g : Nat} {pid sig : Int}

/-! ## 1. The invariant -/

/-- No two tasks have the same signal struct. -/
structure SignalsApart (s : Sched) : Prop where
  sole : ∀ {t t' x x' g}, s.tasks t = some x → s.tasks t' = some x' → x.signal = some g →
    x'.signal = some g → t = t'
  older : ∀ {t x g}, s.tasks t = some x → x.signal = some g → g < s.nextSignal
  fresh : ∀ {t}, s.nextTask ≤ t → s.tasks t = none

structure SignalsOk (s : Sched) : Prop extends SignalsApart s where
  owns : ∀ {t}, t ∈ s.taskList → t ≠ kernelTask →
    ∃ x g, s.tasks t = some x ∧ x.signal = some g ∧ (s.signals g).isSome = true ∧ x.pid ≠ 0
  listed : kernelTask ∈ s.taskList
  kernel : ∃ x, s.tasks kernelTask = some x ∧ x.signal = none ∧ x.pid = 0
  rootless : ∀ {t x}, s.tasks t = some x → kernelTask ∉ x.children
  counter : s.nextPid ≠ 0

theorem SignalsApart.same (h : SignalsApart s) (hs : SameTasks SameId s s') : SignalsApart s' := by
  refine ⟨fun {t t' x x' g} hx hx' hg hg' => ?_, fun {t x g} hx hg => ?_,
    fun {t} ht => hs.gone (h.fresh (hs.nextTask ▸ ht))⟩
  · obtain ⟨y, hy, hid⟩ := hs.back hx
    obtain ⟨y', hy', hid'⟩ := hs.back hx'
    exact h.sole hy hy' (hid.signal ▸ hg) (hid'.signal ▸ hg')
  · obtain ⟨y, hy, hid⟩ := hs.back hx
    rw [hs.nextSignal]
    exact h.older hy (hid.signal ▸ hg)

theorem SignalsOk.same (h : SignalsOk s) (hs : SameTasks SameId s s') : SignalsOk s' := by
  refine ⟨h.toSignalsApart.same hs, fun {t} ht hne => ?_, hs.list ▸ h.listed, ?_, fun {t x} hx => ?_,
    hs.nextPid ▸ h.counter⟩
  · obtain ⟨x, g, hx, hg, halive, hpid⟩ := h.owns (hs.list ▸ ht) hne
    obtain ⟨x', hx', hid⟩ := hs.alive hx
    exact ⟨x', g, hx', hid.signal.trans hg, (hs.signals g).trans halive, hid.pid ▸ hpid⟩
  · obtain ⟨x, hx, hg, hpid⟩ := h.kernel
    obtain ⟨x', hx', hid⟩ := hs.alive hx
    exact ⟨x', hx', hid.signal.trans hg, hid.pid.trans hpid⟩
  · obtain ⟨y, hy, hid⟩ := hs.back hx
    rw [hid.children]
    exact h.rootless hy

theorem pidAfter_ne (p : Nat) : pidAfter p ≠ 0 := by
  unfold pidAfter
  split <;> omega

theorem SignalsApart.addSignals (h : SignalsApart s) (y : Signals) : SignalsApart (s.addSignals (some y)) :=
  ⟨h.sole, fun hx hg => Nat.lt_succ_of_lt (h.older hx hg), h.fresh⟩

/-- A new task, if it has a signal struct, has one that nobody else has. -/
theorem SignalsApart.adopt (h : SignalsApart s) {z y : Task} (hcur : s.tasks s.current = some x)
    (hy : (s.link z).tasks s.current = some y)
    (hnew : ∀ g, z.signal = some g → g < s.nextSignal ∧ ∀ t x, s.tasks t = some x → x.signal ≠ some g) :
    SignalsApart (s.adopt z y) := by
  obtain ⟨rfl, ha⟩ := adopts (h.fresh le_rfl) hcur hy
  refine ⟨fun {t t' x1 x2 k} hx1 hx2 hk hk' => ?_, fun {t x' k} hx' hk => ?_, fun {t} ht => ?_⟩
  · rcases ha.back hx1 with ⟨rfl, rfl⟩ | ⟨x0, hx0, rfl⟩
    · rcases ha.back hx2 with ⟨rfl, _⟩ | ⟨x0, hx0, rfl⟩
      · rfl
      · exact absurd hk' ((hnew k hk).2 t' x0 hx0)
    · rcases ha.back hx2 with ⟨rfl, rfl⟩ | ⟨x0', hx0', rfl⟩
      · exact absurd hk ((hnew k hk').2 t x0 hx0)
      · exact h.sole hx0 hx0' hk hk'
  · rcases ha.back hx' with ⟨rfl, rfl⟩ | ⟨x0, hx0, rfl⟩
    · exact (hnew k hk).1
    · exact h.older hx0 hk
  · have ht : s.nextTask + 1 ≤ t := ht
    exact ha.none (by omega) (h.fresh (by omega))

theorem SignalsApart.reaped (h : SignalsApart s) {c : Nat} {y : Task} (hcur : s.tasks s.current = some x) :
    SignalsApart (s.reaped c x y) := by
  refine ⟨fun {t t' x1 x2 k} hx1 hx2 hk hk' => ?_, fun {t x' k} hx' hk => ?_,
    fun {t} ht => reaped_none hcur (h.fresh ht)⟩
  · obtain ⟨_, y1, hy1, rfl⟩ := reaped_back hcur hx1
    obtain ⟨_, y2, hy2, rfl⟩ := reaped_back hcur hx2
    exact h.sole hy1 hy2 hk hk'
  · obtain ⟨_, y1, hy1, rfl⟩ := reaped_back hcur hx'
    exact h.older hy1 hk

/-- **Every call** keeps the signal structs apart. -/
theorem SignalsApart.step (h : SignalsApart s) (hl : Lineage s e s') : SignalsApart s' := by
  have htook : SignalsApart s.tookPid := ⟨h.sole, h.older, h.fresh⟩
  cases hl with
  | same hs => exact h.same hs.ids
  | pid hs => exact htook.same hs.ids
  | @drop x g he hx hg hs =>
    have hfreed : SignalsApart { s.tookPid with signals := update s.signals g none } := ⟨h.sole, h.older, h.fresh⟩
    exact hfreed.same hs.ids
  | @child x x' z y he hx hz hx' hs =>
    cases y with
    | none =>
      refine (htook.adopt hx hx' fun g hg => ?_).same hs.ids
      cases hz.signal.symm.trans hg
    | some y =>
      refine ((htook.addSignals y).adopt hx hx' fun g hg => ?_).same hs.ids
      cases hz.signal.symm.trans hg
      exact ⟨Nat.lt_succ_self _, fun t x hx hg => Nat.lt_irrefl _ (h.older hx hg)⟩
  | exit he hend => exact h.same hend.ids
  | reap hx hc hy hzomb hs =>
    rw [hs]
    exact h.reaped hx

/-- A new task with the last signal struct made. -/
theorem SignalsOk.adopted (h : SignalsOk s) {z y : Task} {u : Signals} (hcur : s.tasks s.current = some x)
    (hy : ((s.tookPid.addSignals (some u)).link z).tasks s.current = some y) (hz : NewChild s x (some u) z)
    (hap : SignalsApart ((s.tookPid.addSignals (some u)).adopt z y)) :
    SignalsOk ((s.tookPid.addSignals (some u)).adopt z y) := by
  obtain ⟨rfl, ha⟩ := adopts (s := s.tookPid.addSignals (some u)) (h.fresh le_rfl) hcur hy
  refine ⟨hap, fun {t} ht hne => ?_, List.mem_append_left _ h.listed, ?_, fun {t x'} hx' => ?_, pidAfter_ne _⟩
  · have ht : t ∈ s.taskList ++ [s.nextTask] := ht
    have hsignals : ((s.tookPid.addSignals (some u)).adopt z y).signals = update s.signals s.nextSignal (some u) := rfl
    rw [hsignals]
    rcases List.mem_append.mp ht with hold | hn
    · obtain ⟨x0, k, hx0, hk, hka, hkp⟩ := h.owns hold hne
      refine ⟨_, k, ha.forth hx0, hk, ?_, hkp⟩
      rwa [update_of_ne (Nat.ne_of_lt (h.older hx0 hk))]
    · refine ⟨z, s.nextSignal, List.mem_singleton.mp hn ▸ ha.self, hz.signal, ?_, hz.pid ▸ h.counter⟩
      rw [Function.update_self]
      rfl
  · obtain ⟨k, hk, hks, hkp⟩ := h.kernel
    exact ⟨_, ha.forth hk, hks, hkp⟩
  · rcases ha.back hx' with ⟨rfl, rfl⟩ | ⟨x0, hx0, rfl⟩
    · rw [hz.children]
      exact List.not_mem_nil
    · intro hm
      rcases mem_bearing.mp hm with hm | ⟨_, hm⟩
      · exact h.rootless hx0 hm
      · obtain ⟨k, hk, _⟩ := h.kernel
        rw [hm] at hk
        cases hk.symm.trans (h.fresh le_rfl)

/-- The reaped task takes only its own signal struct with it. -/
theorem SignalsOk.reaped (h : SignalsOk s) {c : Nat} {y : Task} (hcur : s.tasks s.current = some x)
    (hc : c ∈ x.children) (hy : s.tasks c = some y) : SignalsOk (s.reaped c x y) := by
  have hkern : kernelTask ≠ c := fun he => h.rootless hcur (he ▸ hc)
  refine ⟨h.toSignalsApart.reaped hcur, fun {t} ht hne => ?_, mem_reaped.mpr ⟨h.listed, hkern⟩, ?_,
    fun {t x'} hx' hm => ?_, h.counter⟩
  · obtain ⟨hmem, htc⟩ := mem_reaped.mp ht
    obtain ⟨x0, g, hx0, hg, halive, hpid⟩ := h.owns hmem hne
    refine ⟨_, g, reaped_alive hcur hx0 htc, hg, ?_, hpid⟩
    rw [Sched.reaped]
    cases hyg : y.signal with
    | none => exact halive
    | some k =>
      have hgk : g ≠ k := fun he => htc (h.sole hx0 hy hg (he ▸ hyg))
      dsimp only
      rw [update_of_ne hgk]
      exact halive
  · obtain ⟨k, hk, hks, hkp⟩ := h.kernel
    exact ⟨_, reaped_alive hcur hk hkern, hks, hkp⟩
  · obtain ⟨_, x0, hx0, rfl⟩ := reaped_back hcur hx'
    exact h.rootless hx0 (mem_bereaved.mp hm).1

/-! ## 2. Runs -/

/-- `signal_create` gives `task_create` a signal struct, and no `sys_fork` fails in `mm_clone` or `files_clone`, when
    the child still has the signal struct of its parent. -/
def SignalsKept : Event → Prop
  | .create (.ok false) => False
  | .fork .noMm => False
  | .fork .noFiles => False
  | _ => True

theorem makes_signals {y : Option Signals} (he : e.makes y) (hq : SignalsKept e) : ∃ z, y = some z := by
  cases e with
  | create r =>
    cases r with
    | ok b =>
      cases b with
      | true => exact ⟨_, he⟩
      | false => exact hq.elim
    | _ => exact he.elim
  | fork r =>
    cases r with
    | ok => exact Option.ne_none_iff_exists'.mp he
    | _ => exact he.elim
  | _ => exact he.elim

theorem SignalsOk.step (h : SignalsOk s) {e : Event} (hq : SignalsKept e) (hl : Lineage s e s') : SignalsOk s' := by
  cases hl with
  | same hs => exact h.same hs.ids
  | pid hs =>
    have htook : SignalsOk s.tookPid :=
      ⟨⟨h.sole, h.older, h.fresh⟩, h.owns, h.listed, h.kernel, h.rootless, pidAfter_ne _⟩
    exact htook.same hs.ids
  | drop he hx hg hs =>
    rcases he with rfl | rfl
    · exact hq.elim
    · exact hq.elim
  | @child x x' z y he hx hz hx' hs =>
    obtain ⟨y, rfl⟩ := makes_signals he hq
    refine (h.adopted hx hx' hz ?_).same hs.ids
    exact h.toSignalsApart.step (.child he hx hz hx' (SameFamily.refl _))
  | exit he hend => exact h.same hend.ids
  | reap hx hc hy hzomb hs =>
    rw [hs]
    exact h.reaped hx hc hy

theorem signalsOk_schedInit : SignalsOk schedInit := by
  refine ⟨⟨fun hx _ hg _ => ?_, fun hx hg => ?_, schedInit_fresh⟩,
    fun ht hne => absurd (List.mem_singleton.mp ht) hne, List.mem_singleton.mpr rfl,
    ⟨⟨0, 0, .running, 0, none, 0, none, [], false⟩, rfl, rfl, rfl⟩, fun hx => ?_, by decide⟩
  · rw [schedInit_task hx] at hg
    cases hg
  · rw [schedInit_task hx] at hg
    cases hg
  · rw [schedInit_task hx]
    exact List.not_mem_nil

/-! ## 3. Sending a signal -/

section Total

variable {E : Crash → Prop}

theorem wp_getTask_of {R : Task → Sched → Prop} (hx : s.tasks t = some x) (h : R x s) : wp E (getTask t) R s := by
  unfold wp getTask
  rw [hx]
  exact h

theorem wp_getSignals_of {R : Nat × Signals → Sched → Prop} {y : Signals} (hy : s.signals g = some y)
    (h : R (g, y) s) : wp E (getSignals (some g)) R s := by
  unfold wp getSignals
  dsimp only
  rw [hy]
  exact h

theorem wp_modifyTask_of {f : Task → Task} (hx : s.tasks t = some x) (h : Q () (s.put t (f x))) :
    wp E (modifyTask t f) Q s := by
  rw [modifyTask, wp_bind]
  exact wp_getTask_of hx h

theorem wp_wakeUpProcess_of (hx : s.tasks t = some x) (h : ∀ s', Q () s') : wp E (wakeUpProcess t) Q s := by
  rw [wakeUpProcess, wp_bind]
  refine wp_modifyTask_of hx ?_
  rw [schedAdd, wp_bind]
  exact wp_modifyTask_of (put_self ..) (h _)

/-- `sys_kill` of a valid signal, once it is known what the search finds. -/
theorem wp_sysKill_of {r : Option Nat} {R : Int → Sched → Prop} (hsig : ¬ (sig ≤ 0 ∨ sig ≥ maxSignals))
    (hfind : findTaskByPid pid s = .ok (r, s)) (hnone : r = none → R (-ESRCH) s)
    (hsome : ∀ t, r = some t → ∃ x, s.tasks t = some x ∧
      ((∃ g y, x.signal = some g ∧ s.signals g = some y ∧ ∀ s', R 0 s') ∨ (x.signal = none ∧ E .null))) :
    wp E (sysKill pid sig) R s := by
  rw [sysKill, if_neg hsig, wp_bind]
  refine wp_of_ok hfind ?_
  cases r with
  | none => exact hnone rfl
  | some t =>
    obtain ⟨x, hx, hcase⟩ := hsome t rfl
    refine wp_then (wp_getTask_of hx (wp_then ?_))
    rcases hcase with ⟨g, y, hg, hy, hR⟩ | ⟨hnull, hE⟩
    · rw [hg]
      refine wp_getSignals_of hy (wp_then ?_)
      change wp E (if x.state = .sleeping then (do wakeUpProcess t; pure 0) else pure 0) R _
      split
      · exact wp_then (wp_wakeUpProcess_of hx fun s' => hR s')
      · exact hR _
    · rw [hnull]
      exact hE

end Total

/-- `sys_kill` returns, and with one of its three results. -/
def KillReturns (pid sig : Int) (s : Sched) : Prop :=
  ∃ r s', sysKill pid sig s = .ok (r, s') ∧ (r = 0 ∨ r = -ESRCH ∨ r = -EINVAL)

theorem SignalsOk.live (h : SignalsOk s) : ∀ t ∈ s.taskList, ∃ x, s.tasks t = some x := by
  intro t ht
  by_cases hk : t = kernelTask
  · obtain ⟨x, hx, _⟩ := h.kernel
    exact ⟨x, hk ▸ hx⟩
  · obtain ⟨x, _, hx, _⟩ := h.owns ht hk
    exact ⟨x, hx⟩

theorem SignalsOk.kill (h : SignalsOk s) (hp : ¬ (pid = 0 ∧ 0 < sig ∧ sig < maxSignals)) : KillReturns pid sig s := by
  by_cases hsig : sig ≤ 0 ∨ sig ≥ maxSignals
  · refine ⟨-EINVAL, s, ?_, .inr (.inr rfl)⟩
    rw [sysKill, if_pos hsig]
    rfl
  have hpid : pid ≠ 0 := fun he => hp ⟨he, by omega, by omega⟩
  obtain ⟨r, hfind, _, hsome⟩ := findPid_eq pid h.live
  have hwp : wp (fun _ => False) (sysKill pid sig) (fun r _ => r = 0 ∨ r = -ESRCH ∨ r = -EINVAL) s := by
    refine wp_sysKill_of hsig hfind (fun _ => .inr (.inl rfl)) fun t ht => ?_
    obtain ⟨hmem, x, hx, hxp⟩ := hsome t ht
    have hk : t ≠ kernelTask := by
      intro he
      obtain ⟨k, hk, _, hkp⟩ := h.kernel
      rw [he] at hx
      cases hk.symm.trans hx
      rw [hkp] at hxp
      exact hpid hxp.symm
    obtain ⟨x', g, hx', hg, halive, _⟩ := h.owns hmem hk
    cases hx.symm.trans hx'
    obtain ⟨y, hy⟩ := Option.isSome_iff_exists.mp halive
    exact ⟨x, hx, .inl ⟨g, y, hg, hy, fun _ => .inl rfl⟩⟩
  rcases (wp_iff _).mp hwp with ⟨r, s', hok, hr⟩ | ⟨_, _, hfalse⟩
  · exact ⟨r, s', hok, hr⟩
  · exact hfalse.elim

/-- The only task with pid 0 has no signal struct. -/
theorem SignalsOk.kill_zero (h : SignalsOk s) (hlow : 0 < sig) (hhigh : sig < maxSignals) :
    sysKill 0 sig s = .error .null := by
  obtain ⟨k, hk, hks, hkp⟩ := h.kernel
  obtain ⟨r, hfind, hnone, hsome⟩ := findPid_eq 0 h.live
  have hwp : wp (fun e => e = .null) (sysKill 0 sig) (fun _ _ => False) s := by
    refine wp_sysKill_of (by omega) hfind (fun hr => ?_) fun t ht => ?_
    · exact hnone hr kernelTask ⟨h.listed, k, hk, by rw [hkp]; rfl⟩
    · obtain ⟨hmem, x, hx, hxp⟩ := hsome t ht
      have hroot : t = kernelTask := by
        by_contra hne
        obtain ⟨x', _, hx', _, _, hp⟩ := h.owns hmem hne
        cases hx.symm.trans hx'
        exact hp (by omega)
      exact ⟨k, hroot ▸ hk, .inr ⟨hks, rfl⟩⟩
  rcases (wp_iff _).mp hwp with ⟨_, _, _, hfalse⟩ | ⟨e, herr, rfl⟩
  · exact hfalse.elim
  · exact herr

/-- **Whom a signal can be sent to.** In every run in which the signal structs are kept, every task on the list but
    `kernel_task` has a signal struct that was not freed, and `sys_kill` returns 0, `-ESRCH` or `-EINVAL` unless a
    valid signal goes to pid 0; then it follows a null pointer. -/
theorem kill_safe_iff {es : List Event}
    (hr : Run (fun s e s' => SignalsKept e ∧ Exec s e s') schedInit es s) :
    (∀ t ∈ s.taskList, t ≠ kernelTask → ∃ x g, s.tasks t = some x ∧ x.signal = some g ∧
      (s.signals g).isSome = true) ∧
    ∀ pid sig, (KillReturns pid sig s ↔ ¬ (pid = 0 ∧ 0 < sig ∧ sig < maxSignals)) := by
  have h : SignalsOk s := by
    refine hr.invariant (I := SignalsOk) (fun s e s' h hs => ?_) signalsOk_schedInit
    exact h.step hs.1 hs.2.lineage
  refine ⟨fun t ht hk => ?_, fun pid sig => ⟨fun hret hbad => ?_, h.kill⟩⟩
  · obtain ⟨x, g, hx, hg, halive, _⟩ := h.owns ht hk
    exact ⟨x, g, hx, hg, halive⟩
  · obtain ⟨rfl, hlow, hhigh⟩ := hbad
    obtain ⟨r, s', hok, _⟩ := hret
    rw [h.kill_zero hlow hhigh] at hok
    cases hok

theorem kill_safe_iff_one : ∃ s : Sched,
    Run (fun s e s' => SignalsKept e ∧ Exec s e s') schedInit twoTasks s ∧ KillReturns 2 SIGTERM s ∧
    ¬ KillReturns 0 SIGTERM s := by
  obtain ⟨s, hs, _⟩ := exists_exec_run twoTasks (fun s => s.nextPid = 3) (by decide +kernel)
  have hrun : Run (fun s e s' => SignalsKept e ∧ Exec s e s') schedInit twoTasks s := by
    refine hs.and_mem fun s e he => ?_
    rcases he with _ | ⟨_, _ | ⟨_, he⟩⟩ <;> trivial
  obtain ⟨_, hiff⟩ := kill_safe_iff hrun
  refine ⟨s, hrun, (hiff 2 SIGTERM).mpr (by decide), fun hret => ?_⟩
  exact (hiff 0 SIGTERM).mp hret (by decide)

/-- Right after `sched_init`, a signal to pid 0 follows the null pointer of `kernel_task`. -/
theorem kill_kernel_null : kernelTask ∈ schedInit.taskList ∧
    (schedInit.tasks kernelTask).map (·.signal) = some none ∧
    sysKill 0 SIGTERM schedInit = .error .null := by
  refine ⟨List.mem_singleton.mpr rfl, rfl, ?_⟩
  exact signalsOk_schedInit.kill_zero (by decide) (by decide)

end OreUnix.Proc
