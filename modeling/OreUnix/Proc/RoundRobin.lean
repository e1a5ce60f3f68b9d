/-
  Subject: ROUND ROBIN: calls of `schedule` with nobody added or removed in between.

  * `schedule_rotates` -- one call: the first task of the queue runs and is the last one now, whether it was running
    before or not;
  * `round_robin` -- `k` calls rotate the queue `k` times and run its tasks in turn; as many calls as there are tasks
    run each of them once, in queue order, and leave the queue as it was.
-/
import Mathlib.Data.List.Rotate
import OreUnix.Proc.RunQueue

namespace OreUnix.Proc

open CircularList

variable {s : Sched} {t : Nat} {ts : List Nat} {x : Task}

/-- A well-formed run queue of the tasks `ts`. -/
structure Ready (s : Sched) (ts : List Nat) : Prop where
  ring : IsRing s.runLinks runqueue (ts.map .entry)
  live : ∀ t ∈ ts, s.tasks t ≠ none

/-- `k` calls of `schedule`, with the task that runs after each of them. -/
def schedules : Nat → M (List Nat)
  | 0 => pure []
  | k + 1 => do
    schedule
    let t ← currentTask
    let ts ← schedules k
    pure (t :: ts)

/-- `schedule` with a task at the head of the queue. -/
theorem schedule_ok (hn : s.runLinks.next runqueue = .entry t) (hx : s.tasks t = some x) : ∃ k, schedule s =
      .ok ((), { (s.rotate t).put t { x with timeSlice := k, inSleep := false } with current := t }) := by
  have hentry : Node.entry t ≠ runqueue := fun h => by cases h
  refine ⟨if s.current = t then x.timeSlice else 20, ?_⟩
  have hset : ∀ s', (set s' : M Unit) s = .ok ((), s') := fun _ => rfl
  by_cases hcur : s.current = t <;>
    simp [schedule, resume, modifyTask, getTask, setTask, currentTask, bind, StateT.bind, Except.bind, get, getThe,
      MonadStateOf.get, StateT.get, modify, modifyGet, MonadStateOf.modifyGet, StateT.modifyGet, pure, Except.pure,
      hset, hentry, hn, hx, hcur, Sched.rotate, Sched.put]

/-- **One call** runs the first task of the queue and puts it last. -/
theorem schedule_rotates (h : Ready s (t :: ts)) :
    ∃ s', schedule s = .ok ((), s') ∧ s'.current = t ∧ Ready s' (ts ++ [t]) := by
  obtain ⟨x, hx⟩ := Option.ne_none_iff_exists'.mp (h.live t (.head _))
  obtain ⟨k, hk⟩ := schedule_ok h.ring.next_head hx
  refine ⟨_, hk, rfl, ?_, fun u hu => ?_⟩
  · have hnot : Node.entry t ∉ runqueue :: ts.map .entry := by
      refine entry_notMem fun hmem => ?_
      have hnd : (t :: ts).Nodup := List.Nodup.of_map _ (List.nodup_cons.mp h.ring.1).2
      exact (List.nodup_cons.mp hnd).1 hmem
    have hring : IsRing s.runLinks runqueue ([] ++ .entry t :: ts.map .entry) := h.ring
    have hdel : IsRing (s.runLinks.del (.entry t)) runqueue (ts.map .entry) := hring.del
    rw [List.map_append]
    exact hdel.addTail hnot
  · change Function.update s.tasks t _ u ≠ none
    by_cases hut : u = t
    · simp [hut]
    · rw [Function.update_of_ne hut]
      refine h.live u ?_
      simpa [hut] using hu

/-- **`k` calls**: which task each runs, and the queue they leave. -/
theorem schedules_rotate (h : Ready s ts) (hne : ts ≠ []) (k : Nat) :
    ∃ run s', schedules k s = .ok (run, s') ∧ run.length = k ∧
      (∀ i < k, run[i]? = ts[i % ts.length]?) ∧ Ready s' (ts.rotate k) := by
  induction k generalizing s ts with
  | zero => exact ⟨[], s, rfl, rfl, fun i hi => absurd hi (Nat.not_lt_zero i), by simpa using h⟩
  | succ k ih =>
    obtain ⟨t, rest, rfl⟩ := List.exists_cons_of_ne_nil hne
    obtain ⟨s1, hs1, hcur, hready⟩ := schedule_rotates h
    obtain ⟨run, s2, hrun, hlen, htask, hlast⟩ := ih hready (by simp)
    have hone : rest ++ [t] = (t :: rest).rotate 1 := by simp
    refine ⟨t :: run, s2, ?_, by rw [List.length_cons, hlen], fun i hi => ?_, ?_⟩
    · simp only [schedules, currentTask, bind, StateT.bind, Except.bind, hs1, hcur, hrun]
      rfl
    · cases i with
      | zero => simp
      | succ i =>
        have hlt : i % (t :: rest).length < (t :: rest).length := Nat.mod_lt _ (by simp)
        rw [List.getElem?_cons_succ, htask i (by omega), hone, List.length_rotate,
          List.getElem?_rotate hlt, Nat.mod_add_mod]
    · rw [hone, List.rotate_rotate, Nat.add_comm] at hlast
      exact hlast

/-- **Round robin.** -/
theorem round_robin (h : Ready s ts) (hne : ts ≠ []) :
    (∀ k, ∃ run s', schedules k s = .ok (run, s') ∧ run.length = k ∧
      (∀ i < k, run[i]? = ts[i % ts.length]?) ∧ Ready s' (ts.rotate (k % ts.length))) ∧
    ∃ s', schedules ts.length s = .ok (ts, s') ∧ Ready s' ts := by
  constructor
  · intro k
    obtain ⟨run, s', hrun, hlen, htask, hready⟩ := schedules_rotate h hne k
    refine ⟨run, s', hrun, hlen, htask, ?_⟩
    rw [List.rotate_mod]
    exact hready
  · obtain ⟨run, s', hrun, hlen, htask, hready⟩ := schedules_rotate h hne ts.length
    rw [List.rotate_length] at hready
    have hall : run = ts := by
      refine List.ext_getElem? fun i => ?_
      by_cases hi : i < ts.length
      · rw [htask i hi, Nat.mod_eq_of_lt hi]
      · rw [List.getElem?_eq_none (by omega), List.getElem?_eq_none (by omega)]
    rw [hall] at hrun
    exact ⟨s', hrun, hready⟩

/-- Two tasks on the queue, the second of them running. -/
def twoReady : Sched :=
  { schedInit with
    tasks := fun t => if t < 2 then schedInit.tasks kernelTask else none
    runLinks := (Links.empty.addTail (.entry 0) runqueue).addTail (.entry 1) runqueue
    current := 1 }

theorem twoReady_ready : Ready twoReady [0, 1] := by
  have hempty : IsRing (Links.empty : Links Node) runqueue [] := isRing_nil.mpr ⟨rfl, rfl⟩
  have hfirst := hempty.addTail (n := Node.entry 0) (by decide)
  have hsecond := hfirst.addTail (n := Node.entry 1) (by decide)
  refine ⟨hsecond, fun t ht => ?_⟩
  rcases List.mem_pair.mp ht with rfl | rfl <;> simp [twoReady, schedInit]

theorem round_robin_two : Ready twoReady [0, 1] ∧ ∃ s', schedules 2 twoReady = .ok ([0, 1], s') ∧ Ready s' [0, 1] :=
  ⟨twoReady_ready, (round_robin twoReady_ready (by simp)).2⟩

end OreUnix.Proc
