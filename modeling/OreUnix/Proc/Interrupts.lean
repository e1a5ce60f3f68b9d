/-
  Subject: INTERRUPTS AND THEIR ACKNOWLEDGEMENT: irq_handler_dispatch of boot/gdt_idt.c over the scheduler of
  kernel/process.c.

  * `Pic` -- the in-service registers of the two 8259s; an end of interrupt clears the line of highest priority.
  * `Machine` -- the scheduler, the controllers, and for each task the calls of `irq_handler_dispatch` it is inside
    of. A task taken off the processor in `timer_irq` keeps its call on its own stack and sends the end of interrupt
    when it runs again.
  * `Pic.CoveredBy` -- the calls a task is inside of still send enough ends of interrupt for everything in service.
    Every move keeps it for the running task, a switch made inside a dispatch apart, which goes to the calls of
    another task.

  Whether interrupts are enabled is not tracked: an interrupt may come wherever the controllers let it through. The
  counters `jiffies` and `uptime_s` play no part and are left out.
-/
import OreUnix.Proc.RunQueue
import Mathlib.Data.Finset.Max

namespace OreUnix.Proc

open Function (update update_self)
open Wp Lts

/-! ## 1. The interrupt controllers -/

/-- The lines in service at the master and at the slave 8259. -/
structure Pic where
  master : Finset Nat
  slave : Finset Nat
  deriving DecidableEq

/-- Nothing in service. -/
def Pic.idle : Pic := ⟨∅, ∅⟩

/-- The line of the master an IRQ comes in on; those of the slave come in on line 2. -/
def masterLine (irq : Nat) : Nat := if irq ≥ 8 then 2 else irq

/-- Fully nested mode: an IRQ waits for every line of its own or a higher priority. -/
def Pic.Lets (p : Pic) (irq : Nat) : Prop :=
  (∀ l ∈ p.master, masterLine irq < l) ∧ (irq ≥ 8 → ∀ l ∈ p.slave, irq - 8 < l)

instance (p : Pic) (irq : Nat) : Decidable (p.Lets irq) := by unfold Pic.Lets; infer_instance

/-- The processor takes the interrupt. -/
def Pic.raise (p : Pic) (irq : Nat) : Pic where
  master := insert (masterLine irq) p.master
  slave := if irq ≥ 8 then insert (irq - 8) p.slave else p.slave

/-- The command `PIC_EOI` at one chip: the line of highest priority leaves service. -/
def endHighest (lines : Finset Nat) : Finset Nat := lines.filter fun l => ∃ k ∈ lines, k < l

def picSendEoi (p : Pic) (irq : Nat) : Pic where
  master := endHighest p.master
  slave := if irq ≥ 8 then endHighest p.slave else p.slave

theorem endHighest_card (lines : Finset Nat) : (endHighest lines).card = lines.card - 1 := by
  by_cases hne : lines.Nonempty
  · have herase : endHighest lines = lines.erase (lines.min' hne) := by
      ext l
      simp only [endHighest, Finset.mem_filter, Finset.mem_erase]
      constructor
      · intro h
        obtain ⟨hl, k, hk, hlt⟩ := h
        have hmin := lines.min'_le k hk
        exact ⟨by omega, hl⟩
      · intro h
        have hmin := lines.min'_le l h.2
        exact ⟨h.2, lines.min' hne, lines.min'_mem hne, by omega⟩
    rw [herase, Finset.card_erase_of_mem (lines.min'_mem hne)]
  · rw [Finset.not_nonempty_iff_eq_empty] at hne
    subst hne
    rfl

/-- The dispatches `irqs`, each of which still sends its end of interrupt, clear everything. -/
def Pic.CoveredBy (p : Pic) (irqs : List Nat) : Prop :=
  p.master.card ≤ irqs.length ∧ p.slave.card ≤ irqs.countP (· ≥ 8)

theorem Pic.coveredBy_nil {p : Pic} : p.CoveredBy [] ↔ p = Pic.idle := by
  obtain ⟨master, slave⟩ := p
  simp [Pic.CoveredBy, Pic.idle]

theorem Pic.idle_coveredBy (irqs : List Nat) : Pic.idle.CoveredBy irqs := ⟨Nat.zero_le _, Nat.zero_le _⟩

theorem Pic.CoveredBy.raise {p : Pic} {irqs : List Nat} (h : p.CoveredBy irqs) (irq : Nat) :
    (p.raise irq).CoveredBy (irq :: irqs) := by
  have hmaster := Finset.card_insert_le (masterLine irq) p.master
  have hslave := Finset.card_insert_le (irq - 8) p.slave
  obtain ⟨hm, hs⟩ := h
  unfold Pic.raise Pic.CoveredBy
  by_cases hirq : irq ≥ 8
  · simp only [List.length_cons, List.countP_cons, hirq, if_true, decide_true]
    omega
  · simp only [List.length_cons, List.countP_cons, hirq, decide_false, Bool.false_eq_true, if_false]
    omega

theorem Pic.CoveredBy.sendEoi {p : Pic} {irq : Nat} {irqs : List Nat} (h : p.CoveredBy (irq :: irqs)) :
    (picSendEoi p irq).CoveredBy irqs := by
  obtain ⟨hm, hs⟩ := h
  unfold picSendEoi Pic.CoveredBy
  rw [endHighest_card]
  by_cases hirq : irq ≥ 8
  · simp only [List.length_cons, List.countP_cons, hirq, decide_true, if_true, endHighest_card] at hm hs ⊢
    omega
  · simp only [List.length_cons, List.countP_cons, hirq, decide_false, Bool.false_eq_true, if_false] at hm hs ⊢
    omega

/-! ## 2. The machine -/

/-- `inside t`: the calls of `irq_handler_dispatch` task `t` is inside of, the innermost first. A new task, a child of
    fork among them, is inside of none. -/
structure Machine where
  sched : Sched
  pic : Pic
  inside : Nat → List Nat

def Machine.init : Machine := ⟨schedInit, Pic.idle, fun _ => []⟩

/-- The calls the running task is inside of. -/
def Machine.here (m : Machine) : List Nat := m.inside m.sched.current

def IRQ_TIMER : Nat := 0

/-- What the running task does. `dispatch` enters `irq_handler_dispatch`; `eoi` is its last line and the return. -/
inductive Move where
  | dispatch (irq : Nat)
  | call (e : Event)
  | eoi

/-- Which calls are made inside of which dispatch: `timer_irq` calls `sched_tick`, the drivers wake a task or post a
    signal, and a task that `schedule` comes back to takes its signals. -/
def CalledIn (irqs : List Nat) : Event → Prop
  | .tick => irqs.head? = some IRQ_TIMER
  | .wakeUp _ | .kill _ _ | .deliver => True
  | _ => irqs = []

def Machine.enter (m : Machine) (irq : Nat) : Machine :=
  { m with pic := m.pic.raise irq, inside := update m.inside m.sched.current (irq :: m.here) }

def Machine.leave (m : Machine) (irq : Nat) (rest : List Nat) : Machine :=
  { m with pic := picSendEoi m.pic irq, inside := update m.inside m.sched.current rest }

inductive Step : Machine → Move → Machine → Prop
  | dispatch {m : Machine} {irq : Nat} (hirq : irq < 16) (hlets : m.pic.Lets irq) :
      Step m (.dispatch irq) (m.enter irq)
  | call {m : Machine} {e : Event} {s : Sched} (hin : CalledIn m.here e) (he : Exec m.sched e s) :
      Step m (.call e) { m with sched := s }
  | eoi {m : Machine} {irq : Nat} {rest : List Nat} (hin : m.here = irq :: rest) :
      Step m .eoi (m.leave irq rest)

/-- A task outside of every `irq_handler_dispatch` runs with nothing in service. -/
def Acknowledged (m : Machine) : Prop := m.here = [] → m.pic = Pic.idle

/-! ## 3. Who runs after a call -/

/-- The tick ends the running task's slice, and another task is first in the run queue. -/
def TickSwitch (s : Sched) (next : Nat) : Prop :=
  s.current ≠ kernelTask ∧ (∃ x, s.tasks s.current = some x ∧ x.timeSlice ≤ 1) ∧
    s.runLinks.next runqueue = .entry next ∧ next ≠ s.current

variable {s : Sched}

/-- `schedule` goes on with its caller, or with the first of the queue. -/
theorem schedule_runs : wp Any schedule (fun _ s' => s'.current = s.current ∨
    s.runLinks.next runqueue = .entry s'.current ∧ s'.current ≠ s.current) s := by
  refine wp_schedule (fun _ x _ => .inl rfl) fun n x k hn _ => ?_
  by_cases hcur : n = s.current
  · exact .inl hcur
  · exact .inr ⟨hn, hcur⟩

theorem schedTick_runs : wp Any schedTick (fun _ s' => s'.current = s.current ∨ TickSwitch s s'.current) s := by
  rw [schedTick, wp_bind, wp_currentTask]
  split
  · exact .inl rfl
  · rename_i hkernel
    rw [wp_bind]
    refine wp_getTask fun x hx => ?_
    dsimp only
    by_cases hslice : (if x.timeSlice > 0 then x.timeSlice - 1 else x.timeSlice) = 0
    · rw [if_pos hslice]
      have hle : x.timeSlice ≤ 1 := by
        split at hslice <;> omega
      rw [wp_bind, wp_setTask]
      refine wp_imp schedule_runs fun _ s' h => ?_
      exact h.imp id fun h => ⟨hkernel, ⟨x, hx, hle⟩, h⟩
    · rw [if_neg hslice]
      exact .inl rfl

theorem wakeUp_runs (q : Nat) : wp Any (wakeUp q) (fun _ s' => s'.current = s.current) s :=
  wp_wakeUp (fun _ => rfl) fun _ _ _ _ => rfl

theorem sysKill_runs (pid sig : Int) : wp Any (sysKill pid sig) (fun _ s' => s'.current = s.current) s :=
  wp_sysKill (fun _ _ => rfl) (fun _ _ _ _ _ _ => rfl) fun _ _ _ _ _ _ => rfl

/-- Signals none of which ends the task leave it running. -/
theorem signalDeliver_runs (hfatal : ¬ Fatal s) : wp Any signalDeliver (fun _ s' => s'.current = s.current) s :=
  wp_signalDeliver (I := fun s' => s'.current = s.current) rfl (fun _ _ _ _ _ _ => rfl) (fun _ h => h)
    (fun _ _ _ hf => absurd hf hfatal) fun _ _ h _ => h

/-! ## 4. Every interrupt acknowledged -/

/-- A switch made inside a dispatch goes to a task whose own dispatches send the ends of interrupt that are due: the
    first of the run queue when a tick ends the slice, and whichever task there is when a signal ends the running one.
    -/
def Handled (m : Machine) : Move → Prop
  | .call .tick => ∀ next, TickSwitch m.sched next → m.pic.CoveredBy (m.inside next)
  | .call .deliver => m.here ≠ [] → Fatal m.sched → ∀ t, t ≠ m.sched.current →
      m.pic.CoveredBy (m.inside t)
  | _ => True

/-- The running task's dispatches cover what is in service. -/
def Covered (m : Machine) : Prop := m.pic.CoveredBy m.here

theorem Covered.acknowledged {m : Machine} (h : Covered m) : Acknowledged m := by
  intro hnil
  rw [Covered, hnil] at h
  exact Pic.coveredBy_nil.mp h

/-- A call after which the same task runs, or one whose dispatches cover what is in service. -/
theorem Covered.call {m : Machine} (h : Covered m) {s : Sched}
    (hs : s.current = m.sched.current ∨ m.pic.CoveredBy (m.inside s.current)) :
    Covered { m with sched := s } := by
  rcases hs with hs | hs
  · unfold Covered Machine.here
    rw [hs]
    exact h
  · exact hs

/-- The calls made inside a dispatch. -/
theorem runs_inside {m : Machine} {e : Event} (hin : CalledIn m.here e) (hne : m.here ≠ [])
    (hok : Handled m (.call e)) (fuel : Nat) :
    wp Any (e.exec fuel) (fun _ s' => s'.current = m.sched.current ∨
      m.pic.CoveredBy (m.inside s'.current)) m.sched := by
  cases e with
  | tick => exact wp_imp schedTick_runs fun _ s' h => h.imp id (hok s'.current)
  | wakeUp q => exact wp_imp (wakeUp_runs q) fun _ s' h => .inl h
  | kill pid sig => exact wp_seq (sysKill_runs pid sig) fun _ s' h => .inl h
  | deliver =>
    by_cases hfatal : Fatal m.sched
    · cases hexec : signalDeliver m.sched with
      | error c => exact (wp_iff _).mpr (.inr ⟨c, hexec, trivial⟩)
      | ok r =>
        refine wp_of_ok hexec ?_
        by_cases hcur : r.2.current = m.sched.current
        · exact .inl hcur
        · exact .inr (hok hne hfatal _ hcur)
    · exact wp_imp (signalDeliver_runs hfatal) fun _ s' h => .inl h
  | create => exact absurd hin hne
  | fork => exact absurd hin hne
  | exit => exact absurd hin hne
  | waitpid => exact absurd hin hne
  | sigaction => exact absurd hin hne
  | sleepOn => exact absurd hin hne
  | wakeUpAll => exact absurd hin hne
  | schedule => exact absurd hin hne

theorem step_covered {m m' : Machine} {v : Move} (h : Covered m) (hok : Handled m v) (hs : Step m v m') :
    Covered m' := by
  cases hs with
  | dispatch hirq hlets =>
    rename_i irq
    have hraise := Pic.CoveredBy.raise h irq
    unfold Covered Machine.here Machine.enter
    dsimp only
    rw [update_self]
    exact hraise
  | call hin he =>
    obtain ⟨fuel, he⟩ := he
    by_cases hne : m.here = []
    · have hidle := h.acknowledged hne
      refine h.call (.inr ?_)
      rw [hidle]
      exact Pic.idle_coveredBy _
    · exact h.call (wp_ok (runs_inside hin hne hok fuel) he)
  | eoi hin =>
    rw [Covered, hin] at h
    have heoi := h.sendEoi
    unfold Covered Machine.here Machine.leave
    dsimp only
    rw [update_self]
    exact heoi

/-- **In every run whose switches inside a dispatch go to tasks that send the ends of interrupt due, a task outside of
    `irq_handler_dispatch` runs with no IRQ in service.** -/
theorem irqs_acknowledged {vs : List Move} {m : Machine}
    (hrun : Run (fun m v m' => Handled m v ∧ Step m v m') Machine.init vs m) : Acknowledged m := by
  have hcovered : Covered m :=
    hrun.invariant (I := Covered) (fun _ _ _ h hs => step_covered h hs.1 hs.2) (Pic.idle_coveredBy _)
  exact hcovered.acknowledged

/-! ## 5. Two runs -/

instance (irqs : List Nat) (e : Event) : Decidable (CalledIn irqs e) := by
  cases e <;> unfold CalledIn <;> infer_instance

/-- The machine after a move. -/
def Machine.next (m : Machine) : Move → Option Machine
  | .dispatch irq => if irq < 16 ∧ m.pic.Lets irq then some (m.enter irq) else none
  | .call e =>
    if CalledIn m.here e then (Proc.next m.sched e).map fun s => { m with sched := s } else none
  | .eoi =>
    match m.here with
    | [] => none
    | irq :: rest => some (m.leave irq rest)

theorem step_of_next {m m' : Machine} {v : Move} (h : m.next v = some m') : Step m v m' := by
  cases v with
  | dispatch irq =>
    obtain ⟨hok, heq⟩ := Option.ite_none_right_eq_some.mp h
    cases heq
    exact .dispatch hok.1 hok.2
  | call e =>
    obtain ⟨hin, heq⟩ := Option.ite_none_right_eq_some.mp h
    obtain ⟨s, hs, heq⟩ := Option.map_eq_some_iff.mp heq
    cases heq
    exact .call hin (exec_of_next hs)
  | eoi =>
    unfold Machine.next at h
    cases hin : m.here with
    | nil =>
      rw [hin] at h
      cases h
    | cons irq rest =>
      rw [hin] at h
      cases h
      exact .eoi hin

theorem run_of_moves {vs : List Move} {m m' : Machine} (h : vs.foldlM Machine.next m = some m') : Run Step m vs m' :=
  ((run_iff_foldlM Machine.next m m' vs).mpr h).mono fun _ _ _ hs => step_of_next hs

/-- There are two tasks, and the first runs when the timer interrupts it. -/
def oneTick : List Move :=
  [.call (.create (.ok true)), .call (.create (.ok true)), .call .schedule, .dispatch IRQ_TIMER]

/-- The tick does not end its slice: it goes on with its interrupt acknowledged. -/
theorem irqs_acknowledged_tick : ∃ m : Machine,
    Run (fun m v m' => Handled m v ∧ Step m v m') Machine.init (oneTick ++ [.call .tick, .eoi]) m ∧
    m.sched.current = 1 ∧ m.here = [] ∧ Acknowledged m := by
  have hbefore : ((oneTick.foldlM Machine.next Machine.init).map fun m =>
      (m.sched.current, (m.sched.tasks m.sched.current).map Task.timeSlice)) = some (1, some 20) := by
    decide +kernel
  have hafter : ((oneTick.foldlM Machine.next Machine.init).bind fun m => (m.next (.call .tick)).bind fun m =>
      (m.next .eoi).map fun m => (m.sched.current, m.here)) = some (1, []) := by
    decide +kernel
  obtain ⟨m, hm, hfacts⟩ := Option.map_eq_some_iff.mp hbefore
  rw [hm, Option.bind_some] at hafter
  obtain ⟨m₁, hm₁, hafter⟩ := Option.bind_eq_some_iff.mp hafter
  obtain ⟨m₂, hm₂, hend⟩ := Option.map_eq_some_iff.mp hafter
  simp only [Prod.mk.injEq] at hfacts hend
  have htick : Handled m (.call .tick) := by
    intro next hswitch
    obtain ⟨_, ⟨x, hx, hle⟩, _, _⟩ := hswitch
    have hslice := hfacts.2
    rw [hx, Option.map_some, Option.some.injEq] at hslice
    omega
  have hstart : Run (fun m v m' => Handled m v ∧ Step m v m') Machine.init oneTick m := by
    refine (run_of_moves hm).and_mem fun m v hv => ?_
    rcases hv with _ | ⟨_, _ | ⟨_, _ | ⟨_, _ | ⟨_, hv⟩⟩⟩⟩ <;> trivial
  have hrun : Run (fun m v m' => Handled m v ∧ Step m v m') Machine.init (oneTick ++ [.call .tick, .eoi]) m₂ :=
    hstart.append (.cons ⟨htick, step_of_next hm₁⟩ (.cons ⟨trivial, step_of_next hm₂⟩ (.nil _)))
  exact ⟨m₂, hrun, hend.1, hend.2, irqs_acknowledged hrun⟩

/-- Two new tasks, of which the first runs until the timer has interrupted it twenty times. -/
def sliceEnds : List Move :=
  [.call (.create (.ok true)), .call (.create (.ok true)), .call .schedule] ++
    (List.replicate 19 [.dispatch IRQ_TIMER, .call .tick, .eoi]).flatten ++
    [.dispatch IRQ_TIMER, .call .tick]

/-- **The tick switches to the second task, which starts at its entry point**: the timer's line is still in service,
    and the controller holds back every further interrupt. -/
theorem fresh_task_unacknowledged : ∃ m : Machine, Run Step Machine.init sliceEnds m ∧
    m.sched.current = 2 ∧ m.here = [] ∧ m.pic = ⟨{IRQ_TIMER}, ∅⟩ ∧ ¬ Acknowledged m := by
  obtain ⟨m, hrun, hcur, hhere, hpic⟩ := exists_run (f := Machine.next) (fun _ _ _ => step_of_next) Machine.init
    sliceEnds (fun m => m.sched.current = 2 ∧ m.here = [] ∧ m.pic = ⟨{IRQ_TIMER}, ∅⟩) (by decide +kernel)
  refine ⟨m, hrun, hcur, hhere, hpic, fun hack => ?_⟩
  have hidle := hack hhere
  rw [hpic] at hidle
  exact absurd hidle (by decide)

end OreUnix.Proc
