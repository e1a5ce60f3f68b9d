/-
  Subject: WHICH CHILD `sys_waitpid` REAPS, and what it does when there is none.

  * `sysWaitpid_eq` -- a round of its loop: the first zombie asked for is reaped; with none, the call returns 0 or
    sleeps, whether or not there is a child to wait for;
  * `WaitSpec` -- what a round is to do, with -ECHILD when no child matches;
  * `waitpid_iff` -- the round does it exactly when some child matches.
-/
import OreUnix.Proc.SignalPointers

namespace OreUnix.Proc

open Function (update update_of_ne)
open CircularList Wp Lts

variable {s : Sched} {x y : Task} {t c : Nat} {pid : Int} {options : Nat} {cs : List Nat}

/-! ## 1. A round -/

theorem bind_getTask {α : Type} (hx : s.tasks t = some x) (f : Task → M α) : (getTask t >>= f) s = f x s := by
  have hget : getTask t s = .ok (x, s) := by rw [getTask, hx]
  change (getTask t s >>= fun r => f r.1 r.2) = f x s
  rw [hget]
  rfl

/-- The task is a zombie with the pid asked for. -/
def zombieFor (s : Sched) (pid : Int) (t : Nat) : Bool :=
  (s.tasks t).any fun y => (pid = -1 ∨ (y.pid : Int) = pid) ∧ y.state = .zombie

theorem zombieFor_iff (hy : s.tasks t = some y) :
    zombieFor s pid t = true ↔ (pid = -1 ∨ (y.pid : Int) = pid) ∧ y.state = .zombie := by
  rw [zombieFor, hy, Option.any_some, decide_eq_true_eq]

/-- **The search** finds the first of them. -/
theorem findZombie_eq (hlive : ∀ t ∈ cs, ∃ y, s.tasks t = some y) :
    findZombie pid cs s = .ok (cs.find? (zombieFor s pid), s) := by
  induction cs with
  | nil => rfl
  | cons t cs ih =>
    obtain ⟨y, hy⟩ := hlive t (.head _)
    rw [findZombie, bind_getTask hy]
    split
    case isTrue hz =>
      rw [List.find?_cons_of_pos ((zombieFor_iff hy).mpr hz)]
      rfl
    case isFalse hz =>
      rw [List.find?_cons_of_neg fun h => hz ((zombieFor_iff hy).mp h)]
      exact ih fun t ht => hlive t (.tail _ ht)

theorem reap_eq (hx : s.tasks s.current = some x) : reap c y s = .ok ((), s.reaped c x y) := by
  have hwp : wp (fun _ => False) (reap c y) (fun _ s' => s' = s.reaped c x y) s := by
    rw [reap, wp_bind]
    refine wp_then ((wp_modify _).mpr (wp_then (wp_modifyTask_of hx ?_)))
    unfold Sched.reaped
    cases y.signal with
    | none => exact rfl
    | some g => exact rfl
  rcases (wp_iff _).mp hwp with ⟨_, _, hok, rfl⟩ | ⟨_, _, hfalse⟩
  · exact hok
  · exact hfalse.elim

/-- **A round of `sys_waitpid`.** -/
theorem sysWaitpid_eq (hx : s.tasks s.current = some x) (hlive : ∀ t ∈ x.children, ∃ y, s.tasks t = some y) :
    sysWaitpid pid options s = match x.children.find? (zombieFor s pid) with
      | some c => (do
          let y ← getTask c
          reap c y
          pure (.reaped y.pid (y.exitCode % 256 * 256)) : M WaitResult) s
      | none =>
        if options &&& 1 ≠ 0 then .ok (.nothing, s) else (do sleepOn waitQ; pure .slept : M WaitResult) s := by
  have hround : sysWaitpid pid options s = (getTask s.current >>= fun x => findZombie pid x.children >>= _) s := rfl
  rw [hround, bind_getTask hx]
  change (findZombie pid x.children s >>= _) = _
  rw [findZombie_eq hlive]
  cases x.children.find? (zombieFor s pid) with
  | some c => rfl
  | none =>
    change (if options &&& 1 ≠ 0 then pure .nothing else _ : M WaitResult) s = _
    split <;> rfl

/-- The first zombie asked for is reaped. -/
theorem sysWaitpid_zombie (hx : s.tasks s.current = some x) (hlive : ∀ t ∈ x.children, ∃ y, s.tasks t = some y)
    (hc : x.children.find? (zombieFor s pid) = some c) (hy : s.tasks c = some y) :
    sysWaitpid pid options s = .ok (.reaped y.pid (y.exitCode % 256 * 256), s.reaped c x y) := by
  rw [sysWaitpid_eq hx hlive, hc]
  dsimp only
  rw [bind_getTask hy]
  change (reap c y s >>= _) = _
  rw [reap_eq hx]
  rfl

/-! ## 2. What it is to do -/

/-- What `sys_waitpid` returns, if the round is its last. -/
def WaitResult.ret : WaitResult → Option Int
  | .reaped pid _ => some pid
  | .nothing => some 0
  | .slept => none

/-- The caller is a task that is no zombie, and its children are tasks. -/
structure Waiter (s : Sched) (x : Task) : Prop where
  caller : s.tasks s.current = some x
  awake : x.state ≠ .zombie
  alive : ∀ t ∈ x.children, ∃ y, s.tasks t = some y

/-- The child has the pid asked for. -/
def Matches (s : Sched) (pid : Int) (t : Nat) : Prop := ∃ y, s.tasks t = some y ∧ (pid = -1 ∨ (y.pid : Int) = pid)

/-- The child `c`, with the fields `y`, is gone with its signal struct, from the list of all tasks and from the
    children of the caller; nothing else has changed. -/
structure Removed (s : Sched) (c : Nat) (x y : Task) (s' : Sched) : Prop where
  taskList : s'.taskList = s.taskList.filter (· ≠ c)
  children : s'.tasks s.current = some { x with children := x.children.filter (· ≠ c) }
  destroyed : s'.tasks c = none ∧ ∀ g, y.signal = some g → s'.signals g = none
  others : (∀ t, t ≠ c → t ≠ s.current → s'.tasks t = s.tasks t) ∧
    ∀ g, y.signal ≠ some g → s'.signals g = s.signals g
  rest : s' = { s with taskList := s'.taskList, tasks := s'.tasks, signals := s'.signals }

/-- What a round comes to: the first matching zombie is reaped; if children match and none is a zombie, 0 or a sleep;
    if no child matches, -ECHILD. -/
structure WaitSpec (s : Sched) (x : Task) (pid : Int) (options : Nat)
    (out : Except Crash (WaitResult × Sched)) : Prop where
  reaps : ∀ c y, x.children.find? (zombieFor s pid) = some c → s.tasks c = some y →
    ∃ s', out = .ok (.reaped y.pid (y.exitCode % 256 * 256), s') ∧ Removed s c x y s'
  waits : x.children.find? (zombieFor s pid) = none → (∃ t ∈ x.children, Matches s pid t) →
    out = if options &&& 1 ≠ 0 then .ok (.nothing, s) else (do sleepOn waitQ; pure .slept : M WaitResult) s
  refuses : (∀ t ∈ x.children, ¬ Matches s pid t) → ∃ r, out = .ok (r, s) ∧ r.ret = some (-ECHILD)

theorem Waiter.removed (h : Waiter s x) (hc : zombieFor s pid c = true) (hy : s.tasks c = some y) :
    Removed s c x y (s.reaped c x y) := by
  have hne : s.current ≠ c := by
    intro he
    have hyx : some y = some x := by rw [← hy, ← he, h.caller]
    cases hyx
    exact h.awake ((zombieFor_iff hy).mp hc).2
  refine ⟨rfl, ?_, ⟨Function.update_self .., fun g hg => ?_⟩, ⟨fun t htc ht => ?_, fun g hg => ?_⟩, rfl⟩
  · exact (update_of_ne hne _ _).trans (Function.update_self ..)
  · simp [Sched.reaped, hg]
  · exact (update_of_ne htc _ _).trans (update_of_ne ht _ _)
  · unfold Sched.reaped
    cases hsig : y.signal with
    | none => rfl
    | some k => exact update_of_ne (fun he => hg (by rw [hsig, he])) _ _

/-! ## 3. The theorem -/

/-- **`sys_waitpid` does what it is to do, exactly when some child matches**: in every state, for any children in any
    states, any pid and any options. -/
theorem waitpid_iff (h : Waiter s x) (pid : Int) (options : Nat) :
    WaitSpec s x pid options (sysWaitpid pid options s) ↔ ∃ t ∈ x.children, Matches s pid t := by
  constructor
  · intro hspec
    by_contra hnone
    have hno : ∀ t ∈ x.children, ¬ Matches s pid t := fun t ht hm => hnone ⟨t, ht, hm⟩
    obtain ⟨r, hout, hret⟩ := hspec.refuses hno
    have hfind : x.children.find? (zombieFor s pid) = none := by
      refine List.find?_eq_none.mpr fun t ht hz => ?_
      obtain ⟨y, hy⟩ := h.alive t ht
      exact hno t ht ⟨y, hy, ((zombieFor_iff hy).mp hz).1⟩
    rw [sysWaitpid_eq h.caller h.alive, hfind] at hout
    dsimp only at hout
    -- the round returns 0, or it sleeps and returns nothing
    split at hout
    · cases hout
      exact absurd hret (by decide)
    · rcases hsleep : sleepOn waitQ s with _ | ⟨_, s₁⟩
      · change (sleepOn waitQ s >>= _) = _ at hout
        rw [hsleep] at hout
        cases hout
      · change (sleepOn waitQ s >>= _) = _ at hout
        rw [hsleep] at hout
        cases hout
        exact absurd hret (by decide)
  · rintro ⟨t, ht, hm⟩
    refine ⟨fun c y hc hy => ?_, fun hfind _ => ?_, fun hno => absurd hm (hno t ht)⟩
    · exact ⟨_, sysWaitpid_zombie h.caller h.alive hc hy, h.removed (List.find?_some hc) hy⟩
    · rw [sysWaitpid_eq h.caller h.alive, hfind]

/-- The kernel task with one child, which has exited with code 258. -/
def oneZombie : Sched :=
  { schedInit with
    tasks := fun t =>
      if t = 0 then some ⟨0, 0, .running, 0, none, 0, none, [1], false⟩
      else if t = 1 then some ⟨1, 0, .zombie, 258, none, 0, some 0, [], false⟩ else none
    taskList := [0, 1] }

theorem waitpid_iff_oneZombie : ∃ x : Task, Waiter oneZombie x ∧
    WaitSpec oneZombie x (-1) 0 (sysWaitpid (-1) 0 oneZombie) ∧
    (sysWaitpid (-1) 0 oneZombie).map Prod.fst = .ok (.reaped 1 512) := by
  have hw : Waiter oneZombie ⟨0, 0, .running, 0, none, 0, none, [1], false⟩ := by
    refine ⟨rfl, by decide, fun t ht => ?_⟩
    rw [List.mem_singleton.mp ht]
    exact ⟨_, rfl⟩
  exact ⟨_, hw, (waitpid_iff hw (-1) 0).mpr ⟨1, List.mem_singleton.mpr rfl, _, rfl, .inl rfl⟩, by decide +kernel⟩

/-- **A task without children waits**: with WNOHANG it is told 0, and without it sleeps. -/
theorem childless_waits : ∃ s : Sched, Run Exec schedInit [.create (.ok true), .schedule] s ∧
    s.current = 1 ∧ (s.tasks 1).map (·.children) = some [] ∧
    (sysWaitpid (-1) 1 s).toOption.map Prod.fst = some .nothing ∧
    (sysWaitpid (-1) 0 s).toOption.map Prod.fst = some .slept := by
  exact exists_exec_run _ _ (by decide +kernel)

end OreUnix.Proc
