/-
  Subject: SLEEPING AND WAKING ON A PIPE, lock section by lock section.

  `pipe_read` and `pipe_write` test the buffer under the pipe's lock and put themselves on the wait queue under the
  queue's lock, in two sections; the wake-up after a copy is a third. A task is in one of the phases between them.

  * `PipeTasks`, `Turn`, `turn` -- the pipe, the tasks in its calls and the two wait queues; one turn is one section;
  * `NoLostWakeup` -- nobody is asleep who need not be, unless a task is about to wake the queue;
  * `no_lost_wakeup` -- so it is in every run in which a task goes to sleep on an empty queue and for a reason that
    still holds or before a wake-up still to come;
  * `wakeup_lost` -- a byte comes between the test and the queue, and the reader sleeps on a full pipe.

  No signal arrives: `sleep_on_interruptible` returns after a wake-up only.
-/
import OreUnix.Fs.Pipe

namespace OreUnix.Fs

open Lts
open Function (update update_of_ne update_self)

/-! ## 1. The sections -/

/-- The two ends of a pipe: `rd_wait` and `wr_wait` are the queues of those who wait there. -/
inductive End where
  | rd
  | wr
  deriving DecidableEq, Repr

/-- What a call has still to do. -/
inductive Work where
  | read (count : Nat)
  | write (bytes : List UInt8)
  deriving DecidableEq

def Work.side : Work → End
  | .read _ => .rd
  | .write _ => .wr

inductive Phase where
  | outside
  /-- Before the section under the pipe's lock. -/
  | check (w : Work)
  /-- The section found nothing to do; before the section of `sleep_on`. -/
  | queue (w : Work)
  | asleep (w : Work)
  /-- Before `wake_up` of the queue `q`; after it the call goes on with `next` or returns. -/
  | wake (q : End) (next : Option Work)
  deriving DecidableEq

structure PipeTasks where
  pipe : Pipe
  task : Nat → Phase
  waiting : End → List Nat

def PipeTasks.start (buf : Nat → UInt8) : PipeTasks := ⟨Pipe.new buf, fun _ => .outside, fun _ => []⟩

/-- One task goes on to another phase. -/
def PipeTasks.move (s : PipeTasks) (t : Nat) (c : Phase) : PipeTasks := { s with task := update s.task t c }

inductive Turn where
  | read (t count : Nat)
  | write (t : Nat) (bytes : List UInt8)
  | check (t : Nat)
  | enqueue (t : Nat)
  | wake (t : Nat)
  | closeReader (t : Nat)
  | closeWriter (t : Nat)

/-- The section of `pipe_read` and of `pipe_write` under the pipe's lock. -/
def PipeTasks.check (s : PipeTasks) (t : Nat) : Work → PipeTasks
  | .read count =>
    match s.pipe.readChunk count with
    | (.data _, p) => { s with pipe := p }.move t (.wake .wr none)
    | (.eof, p) => { s with pipe := p }.move t .outside
    | (.wait, p) => { s with pipe := p }.move t (.queue (.read count))
  | .write bytes =>
    match s.pipe.writeChunk bytes with
    | (some n, p) =>
      { s with pipe := p }.move t (.wake .rd (if (bytes.drop n).isEmpty then none else some (.write (bytes.drop n))))
    | (none, p) => { s with pipe := p }.move t (.queue (.write bytes))

/-- A sleeper that is woken begins another round of its loop. -/
def Phase.woken : Phase → Phase
  | .asleep w => .check w
  | c => c

/-- `wake_up`: the first of the queue. -/
def PipeTasks.wakeUp (s : PipeTasks) (q : End) : PipeTasks :=
  match s.waiting q with
  | [] => s
  | t :: ts => { s with waiting := update s.waiting q ts }.move t (s.task t).woken

/-- The call returns, or begins another round. -/
def resumed : Option Work → Phase
  | none => .outside
  | some w => .check w

def turn (s : PipeTasks) : Turn → Option PipeTasks
  | .read t count => if s.task t = .outside then some (s.move t (.check (.read count))) else none
  | .write t bytes =>
    if s.task t = .outside then
      if s.pipe.readers = 0 ∨ bytes.isEmpty then some s else some (s.move t (.check (.write bytes)))
    else none
  | .check t =>
    match s.task t with
    | .check w => some (s.check t w)
    | _ => none
  | .enqueue t =>
    match s.task t with
    | .queue w => some ({ s with waiting := update s.waiting w.side (s.waiting w.side ++ [t]) }.move t (.asleep w))
    | _ => none
  | .wake t =>
    match s.task t with
    | .wake q next => some ((s.move t (resumed next)).wakeUp q)
    | _ => none
  | .closeReader t =>
    if s.task t = .outside ∧ 0 < s.pipe.readers then
      some ({ s with pipe := s.pipe.readRelease }.move t (.wake .wr none))
    else none
  | .closeWriter t =>
    if s.task t = .outside ∧ 0 < s.pipe.writers then
      some ({ s with pipe := s.pipe.writeRelease }.move t (.wake .rd none))
    else none

/-! ## 2. Nobody sleeps for nothing -/

/-- There is something to do at this end: bytes or the end of the file, or room. -/
def Pipe.Ready (p : Pipe) : End → Prop
  | .rd => 0 < p.size ∨ p.writers = 0
  | .wr => p.size < p.capacity

instance (p : Pipe) (q : End) : Decidable (p.Ready q) :=
  match q with
  | .rd => inferInstanceAs (Decidable (0 < p.size ∨ p.writers = 0))
  | .wr => inferInstanceAs (Decidable (p.size < p.capacity))

/-- A `wake_up` of the queue is still to be executed. -/
def PipeTasks.WakePending (s : PipeTasks) (q : End) : Prop := ∃ u next, s.task u = .wake q next

/-- **No lost wake-up**: whoever is asleep at an end where there is something to do will be woken. -/
def NoLostWakeup (s : PipeTasks) : Prop :=
  ∀ t w, s.task t = .asleep w → s.pipe.Ready w.side → s.WakePending w.side

/-- A task that goes to sleep is alone on the queue, and the reason it found under the pipe's lock still holds or a
    `wake_up` of the queue is still to come. -/
def Timely (s : PipeTasks) : Turn → Prop
  | .enqueue t =>
    match s.task t with
    | .queue w => s.waiting w.side = [] ∧ (s.pipe.Ready w.side → s.WakePending w.side)
    | _ => True
  | _ => True

/-- The queues have the sleepers, one at most on each, and none that could go on and is not about to be woken. -/
structure Attended (s : PipeTasks) : Prop where
  alone : ∀ t w, s.task t = .asleep w → s.waiting w.side = [t]
  asleep : ∀ q t, t ∈ s.waiting q → ∃ w, w.side = q ∧ s.task t = .asleep w
  safe : ∀ q, s.waiting q ≠ [] → s.pipe.Ready q → s.WakePending q

variable {s s' : PipeTasks} {t u : Nat} {w : Work} {q : End} {c : Phase} {p : Pipe} {e : Turn}

theorem Attended.noLost (h : Attended s) : NoLostWakeup s := by
  intro t w ht hready
  refine h.safe w.side (fun hnil => ?_) hready
  rw [h.alone t w ht] at hnil
  cases hnil

theorem move_self (s : PipeTasks) (t : Nat) (c : Phase) : (s.move t c).task t = c := update_self ..

theorem move_of_ne (s : PipeTasks) (c : Phase) (h : u ≠ t) : (s.move t c).task u = s.task u := update_of_ne h ..

/-! ## 3. One turn -/

/-- **The section under the pipe's lock**: the task is not asleep after it, and if it gives somebody something to do
    it will wake them. -/
theorem check_cases (s : PipeTasks) (t : Nat) (w : Work) :
    ∃ p c, s.check t w = { s with pipe := p }.move t c ∧ (∀ w', c ≠ .asleep w') ∧
      ∀ q, p.Ready q → s.pipe.Ready q ∨ ∃ next, c = .wake q next := by
  cases w with
  | read count =>
    unfold PipeTasks.check Pipe.readChunk
    dsimp only
    by_cases hsize : s.pipe.size > 0
    · rw [if_pos hsize]
      refine ⟨_, _, rfl, (fun _ heq => by cases heq), fun q _ => ?_⟩
      cases q with
      | rd => exact .inl (.inl hsize)
      | wr => exact .inr ⟨none, rfl⟩
    · rw [if_neg hsize]
      by_cases hend : s.pipe.writers = 0
      · rw [if_pos hend]
        exact ⟨_, _, rfl, (fun _ heq => by cases heq), fun q hq => .inl hq⟩
      · rw [if_neg hend]
        exact ⟨_, _, rfl, (fun _ heq => by cases heq), fun q hq => .inl hq⟩
  | write bytes =>
    unfold PipeTasks.check Pipe.writeChunk
    dsimp only
    by_cases hroom : s.pipe.capacity - s.pipe.size > 0
    · rw [if_pos hroom]
      refine ⟨_, _, rfl, (fun _ heq => by cases heq), fun q _ => ?_⟩
      cases q with
      | rd => exact .inr ⟨_, rfl⟩
      | wr =>
        refine .inl ?_
        change s.pipe.size < s.pipe.capacity
        omega
    · rw [if_neg hroom]
      exact ⟨_, _, rfl, (fun _ heq => by cases heq), fun q hq => .inl hq⟩

/-- A move of a task that is not about to wake the queue. -/
theorem PipeTasks.WakePending.move (hp : s.WakePending q) (h : ∀ next, s.task t ≠ .wake q next) :
    (s.move t c).WakePending q := by
  obtain ⟨u, next, hu⟩ := hp
  have hut : u ≠ t := fun heq => h next (heq ▸ hu)
  exact ⟨u, next, (move_of_ne _ _ hut).trans hu⟩

/-- A task that neither slept nor was about to wake anybody goes on to a phase in which it does not sleep. -/
theorem Attended.move (h : Attended s) (hslept : ∀ w, s.task t ≠ .asleep w) (hwake : ∀ q next, s.task t ≠ .wake q next)
    (hc : ∀ w, c ≠ .asleep w) (hready : ∀ q, p.Ready q → s.pipe.Ready q ∨ ∃ next, c = .wake q next) :
    Attended ({ s with pipe := p }.move t c) := by
  refine ⟨fun u w hu => ?_, fun q u hu => ?_, fun q hq hp => ?_⟩
  · by_cases hut : u = t
    · rw [hut, move_self] at hu
      exact absurd hu (hc w)
    · rw [move_of_ne _ _ hut] at hu
      exact h.alone u w hu
  · obtain ⟨w, hw, hw'⟩ := h.asleep q u hu
    have hut : u ≠ t := fun heq => hslept w (heq ▸ hw')
    exact ⟨w, hw, (move_of_ne _ _ hut).trans hw'⟩
  · rcases hready q hp with hp | ⟨next, rfl⟩
    · exact (h.safe q hq hp).move (hwake q)
    · exact ⟨t, next, move_self ..⟩

theorem Attended.enqueue (h : Attended s) (ht : s.task t = .queue w) (hempty : s.waiting w.side = [])
    (hready : s.pipe.Ready w.side → s.WakePending w.side) :
    Attended ({ s with waiting := update s.waiting w.side (s.waiting w.side ++ [t]) }.move t (.asleep w)) := by
  have hown : update s.waiting w.side (s.waiting w.side ++ [t]) w.side = [t] := by
    rw [update_self, hempty, List.nil_append]
  refine ⟨fun u w' hu => ?_, fun q u hu => ?_, fun q hq hp => ?_⟩
  · by_cases hut : u = t
    · rw [hut, move_self] at hu
      cases hu
      rw [hut]
      exact hown
    · rw [move_of_ne _ _ hut] at hu
      have hold := h.alone u w' hu
      have hside : w'.side ≠ w.side := by
        intro heq
        have hu' : s.waiting w'.side = [u] := hold
        rw [heq, hempty] at hu'
        cases hu'
      exact (update_of_ne hside ..).trans hold
  · have hu : u ∈ update s.waiting w.side (s.waiting w.side ++ [t]) q := hu
    by_cases hqw : q = w.side
    · rw [hqw, hown] at hu
      rw [List.mem_singleton.mp hu]
      exact ⟨w, hqw.symm, move_self ..⟩
    · rw [update_of_ne hqw] at hu
      obtain ⟨w', hw', hu'⟩ := h.asleep q u hu
      have hut : u ≠ t := by
        rintro rfl
        rw [ht] at hu'
        cases hu'
      exact ⟨w', hw', (move_of_ne _ _ hut).trans hu'⟩
  · have hq : update s.waiting w.side (s.waiting w.side ++ [t]) q ≠ [] := hq
    have hpending : s.WakePending q := by
      by_cases hqw : q = w.side
      · subst hqw
        exact hready hp
      · rw [update_of_ne hqw] at hq
        exact h.safe q hq hp
    exact hpending.move fun next heq => by cases ht.symm.trans heq

/-- The task wakes the queue: the one who slept there goes on. -/
theorem Attended.wake (h : Attended s) {next : Option Work} (ht : s.task t = .wake q next) :
    Attended ((s.move t (resumed next)).wakeUp q) := by
  have hres : ∀ w, resumed next ≠ .asleep w := by
    intro w heq
    cases next <;> cases heq
  have hslept : ∀ w, s.task t ≠ .asleep w := fun w heq => by rw [ht] at heq; cases heq
  -- everybody but the two concerned is where they were
  have hbase : ∀ u w, (s.move t (resumed next)).task u = .asleep w ↔ s.task u = .asleep w := by
    intro u w
    by_cases hut : u = t
    · rw [hut, move_self]
      exact ⟨fun heq => absurd heq (hres w), fun heq => absurd heq (hslept w)⟩
    · rw [move_of_ne _ _ hut]
  have hpend : ∀ q', q' ≠ q → s.WakePending q' → (s.move t (resumed next)).WakePending q' := by
    intro q' hne hp
    refine hp.move fun n heq => ?_
    cases ht.symm.trans heq
    exact hne rfl
  unfold PipeTasks.wakeUp
  cases hq : s.waiting q with
  | nil =>
    have hnil : (s.move t (resumed next)).waiting q = [] := hq
    rw [hnil]
    refine ⟨fun u w hu => h.alone u w ((hbase u w).mp hu), fun q' u hu => ?_, fun q' hq' hp => ?_⟩
    · obtain ⟨w, hw, hu'⟩ := h.asleep q' u hu
      exact ⟨w, hw, (hbase u w).mpr hu'⟩
    · have hne : q' ≠ q := fun heq => hq' (heq ▸ hq)
      exact hpend q' hne (h.safe q' hq' hp)
  | cons x xs =>
    have hcons : (s.move t (resumed next)).waiting q = x :: xs := hq
    rw [hcons]
    dsimp only
    obtain ⟨w, hw, hx⟩ := h.asleep q x (hq ▸ .head _)
    have hxs : xs = [] := by
      have hone := h.alone x w hx
      rw [hw, hq] at hone
      exact (List.cons.inj hone).2
    have hx' : (s.move t (resumed next)).task x = .asleep w := (hbase x w).mpr hx
    rw [hx', hxs]
    refine ⟨fun u w' hu => ?_, fun q' u hu => ?_, fun q' hq' hp => ?_⟩
    · by_cases hux : u = x
      · rw [hux, move_self] at hu
        cases hu
      · rw [move_of_ne _ _ hux] at hu
        have hu' := (hbase u w').mp hu
        have hside : w'.side ≠ q := by
          intro heq
          have hone := h.alone u w' hu'
          rw [heq, hq] at hone
          exact hux (List.cons.inj hone).1.symm
        exact (update_of_ne hside ..).trans (h.alone u w' hu')
    · have hu : u ∈ update s.waiting q [] q' := hu
      by_cases hqq : q' = q
      · rw [hqq, update_self] at hu
        exact absurd hu List.not_mem_nil
      · rw [update_of_ne hqq] at hu
        obtain ⟨w', hw', hu'⟩ := h.asleep q' u hu
        have hux : u ≠ x := by
          rintro rfl
          rw [hx] at hu'
          cases hu'
          exact hqq (hw'.symm.trans hw)
        exact ⟨w', hw', (move_of_ne _ _ hux).trans ((hbase u w').mpr hu')⟩
    · have hq' : update s.waiting q [] q' ≠ [] := hq'
      have hqq : q' ≠ q := by
        intro heq
        rw [heq, update_self] at hq'
        exact hq' rfl
      rw [update_of_ne hqq] at hq'
      exact (hpend q' hqq (h.safe q' hq' hp)).move fun n heq => by cases hx'.symm.trans heq

/-- A task that is neither asleep nor about to wake anybody. -/
def Phase.Plain (c : Phase) : Prop := (∀ w, c ≠ .asleep w) ∧ ∀ q next, c ≠ .wake q next

theorem plain_outside : Phase.outside.Plain := ⟨(fun _ h => by cases h), (fun _ _ h => by cases h)⟩

theorem plain_check (w : Work) : (Phase.check w).Plain := ⟨(fun _ h => by cases h), (fun _ _ h => by cases h)⟩

/-- The task whose turn it is. -/
def Turn.task : Turn → Nat
  | .read t _ | .write t _ | .check t | .enqueue t | .wake t | .closeReader t | .closeWriter t => t

/-- **What a turn can be**: a write that returns at once; a section after which its task is awake and, if it gives
    somebody something to do, about to wake them; going to sleep; a wake-up. -/
theorem turn_cases (hturn : turn s e = some s') : s' = s ∨
    (∃ p c, s' = { s with pipe := p }.move e.task c ∧ (s.task e.task).Plain ∧ (∀ w, c ≠ .asleep w) ∧
      ∀ q, p.Ready q → s.pipe.Ready q ∨ ∃ next, c = .wake q next) ∨
    (∃ t w, e = .enqueue t ∧ s.task t = .queue w ∧
      s' = { s with waiting := update s.waiting w.side (s.waiting w.side ++ [t]) }.move t (.asleep w)) ∨
    ∃ q next, s.task e.task = .wake q next ∧ s' = (s.move e.task (resumed next)).wakeUp q := by
  have hout : ∀ {t}, s.task t = .outside → (s.task t).Plain := fun ht => ht ▸ plain_outside
  cases e with
  | read t count =>
    obtain ⟨ht, hs⟩ := Option.ite_none_right_eq_some.mp hturn
    cases hs
    exact .inr (.inl ⟨_, _, rfl, hout ht, (fun _ heq => by cases heq), fun q hp => .inl hp⟩)
  | write t bytes =>
    obtain ⟨ht, hs⟩ := Option.ite_none_right_eq_some.mp hturn
    split at hs
    · cases hs
      exact .inl rfl
    · cases hs
      exact .inr (.inl ⟨_, _, rfl, hout ht, (fun _ heq => by cases heq), fun q hp => .inl hp⟩)
  | check t =>
    dsimp only [turn] at hturn
    split at hturn
    · rename_i w ht
      cases hturn
      obtain ⟨p, c, hcheck, hc, hp⟩ := check_cases s t w
      exact .inr (.inl ⟨p, c, hcheck, show (s.task t).Plain from ht ▸ plain_check w, hc, hp⟩)
    · cases hturn
  | enqueue t =>
    dsimp only [turn] at hturn
    split at hturn
    · rename_i w ht
      cases hturn
      exact .inr (.inr (.inl ⟨t, w, rfl, ht, rfl⟩))
    · cases hturn
  | wake t =>
    dsimp only [turn] at hturn
    split at hturn
    · rename_i q next ht
      cases hturn
      exact .inr (.inr (.inr ⟨q, next, ht, rfl⟩))
    · cases hturn
  | closeReader t =>
    obtain ⟨ht, hs⟩ := Option.ite_none_right_eq_some.mp hturn
    cases hs
    refine .inr (.inl ⟨_, _, rfl, hout ht.1, (fun _ heq => by cases heq), fun q hp => .inl ?_⟩)
    cases q with
    | rd => exact hp
    | wr => exact hp
  | closeWriter t =>
    obtain ⟨ht, hs⟩ := Option.ite_none_right_eq_some.mp hturn
    cases hs
    refine .inr (.inl ⟨_, _, rfl, hout ht.1, (fun _ heq => by cases heq), fun q hp => ?_⟩)
    cases q with
    | rd => exact .inr ⟨none, rfl⟩
    | wr => exact .inl hp

/-- **One turn.** -/
theorem Attended.turn (h : Attended s) (hq : Timely s e) (hturn : turn s e = some s') : Attended s' := by
  rcases turn_cases hturn with rfl | ⟨p, c, rfl, hplain, hc, hp⟩ | ⟨t, w, rfl, ht, rfl⟩ | ⟨q, next, ht, rfl⟩
  · exact h
  · exact h.move hplain.1 hplain.2 hc hp
  · dsimp only [Timely] at hq
    rw [ht] at hq
    exact h.enqueue ht hq.1 hq.2
  · exact h.wake ht

/-! ## 4. Runs -/

theorem attended_start (buf : Nat → UInt8) : Attended (.start buf) :=
  ⟨(fun _ _ h => by cases h), fun _ _ h => absurd h List.not_mem_nil, fun _ h => absurd rfl h⟩

/-- **No wake-up is lost** in any run in which whoever goes to sleep does so alone on the queue, and for a reason that
    still holds or before a `wake_up` that is still to come. -/
theorem no_lost_wakeup {buf : Nat → UInt8} {es : List Turn}
    (hr : Run (fun s e s' => Timely s e ∧ turn s e = some s') (.start buf) es s) : NoLostWakeup s :=
  (hr.invariant (I := Attended) (fun _ _ _ h hs => h.turn hs.1 hs.2) (attended_start buf)).noLost

/-- A reader goes to sleep on the empty pipe and a byte is written. -/
def byteAfterSleep : List Turn := [.read 1 1, .check 1, .enqueue 1, .write 2 [7], .check 2]

/-- A turn, where nobody goes to sleep but alone and with nothing to do. -/
def idleTurn (s : PipeTasks) : Turn → Option PipeTasks
  | .enqueue t =>
    match s.task t with
    | .queue w => if s.waiting w.side = [] ∧ ¬ s.pipe.Ready w.side then turn s (.enqueue t) else none
    | _ => turn s (.enqueue t)
  | e => turn s e

theorem timely_of_idleTurn (s : PipeTasks) (e : Turn) (s' : PipeTasks) (h : idleTurn s e = some s') :
    Timely s e ∧ turn s e = some s' := by
  cases e with
  | enqueue t =>
    dsimp only [idleTurn] at h
    dsimp only [Timely]
    cases ht : s.task t with
    | queue w =>
      rw [ht] at h
      obtain ⟨hidle, hturn⟩ := Option.ite_none_right_eq_some.mp h
      exact ⟨⟨hidle.1, fun hready => absurd hready hidle.2⟩, hturn⟩
    | _ =>
      rw [ht] at h
      exact ⟨trivial, h⟩
  | _ => exact ⟨trivial, h⟩

/-- The writer is about to wake the reader. -/
theorem no_lost_wakeup_byte : ∃ s, Run (fun s e s' => Timely s e ∧ turn s e = some s') (.start fun _ => 0)
    byteAfterSleep s ∧ s.task 1 = .asleep (.read 1) ∧ s.pipe.Ready .rd ∧ s.WakePending .rd := by
  obtain ⟨s, hrun, hasleep, hready⟩ := exists_run timely_of_idleTurn (.start fun _ => 0) byteAfterSleep
    (fun s => s.task 1 = .asleep (.read 1) ∧ s.pipe.Ready .rd) (by decide +kernel)
  exact ⟨s, hrun, hasleep, hready, no_lost_wakeup hrun 1 (.read 1) hasleep hready⟩

/-! ## 5. A wake-up that is lost -/

/-- A task that is on no queue stays where it is while others have their turns. -/
theorem turn_other (hturn : turn s e = some s') (hu : e.task ≠ u) (hq : ∀ q, u ∉ s.waiting q) :
    s'.task u = s.task u ∧ ∀ q, u ∉ s'.waiting q := by
  have hmove : ∀ {t c} {s : PipeTasks}, t ≠ u → (s.move t c).task u = s.task u :=
    fun hne => move_of_ne _ _ (Ne.symm hne)
  rcases turn_cases hturn with rfl | ⟨p, c, rfl, _⟩ | ⟨t, w, rfl, _, rfl⟩ | ⟨q, next, _, rfl⟩
  · exact ⟨rfl, hq⟩
  · exact ⟨hmove hu, hq⟩
  · refine ⟨hmove hu, fun q hm => ?_⟩
    have hm : u ∈ update s.waiting w.side (s.waiting w.side ++ [t]) q := hm
    by_cases hqw : q = w.side
    · rw [hqw, update_self, List.mem_append, List.mem_singleton] at hm
      exact hm.elim (hq _) fun heq => hu heq.symm
    · rw [update_of_ne hqw] at hm
      exact hq q hm
  · unfold PipeTasks.wakeUp
    have hsame : (s.move e.task (resumed next)).waiting = s.waiting := rfl
    rw [hsame]
    cases hx : s.waiting q with
    | nil => exact ⟨hmove hu, hq⟩
    | cons x xs =>
      have hux : x ≠ u := fun heq => hq q (hx ▸ heq ▸ .head _)
      refine ⟨(hmove hux).trans (hmove hu), fun q' hm => ?_⟩
      have hm : u ∈ update s.waiting q xs q' := hm
      by_cases hqq : q' = q
      · rw [hqq, update_self] at hm
        exact hq q (hx ▸ .tail _ hm)
      · rw [update_of_ne hqq] at hm
        exact hq q' hm

/-- A task that has no turn does not come into the pipe. -/
theorem outside_of_run {buf : Nat → UInt8} {es : List Turn} (hr : Run (ofFun turn) (.start buf) es s)
    (hu : ∀ e ∈ es, e.task ≠ u) : s.task u = .outside := by
  have hinv := (hr.and_mem (P := fun _ e => e.task ≠ u) fun _ e he => hu e he).invariant
    (I := fun s => s.task u = .outside ∧ ∀ q, u ∉ s.waiting q) (fun s e s' h hs => ?_)
    ⟨rfl, fun _ => List.not_mem_nil⟩
  · exact hinv.1
  · obtain ⟨htask, hq⟩ := turn_other hs.2 hs.1 h.2
    exact ⟨htask.trans h.1, hq⟩

/-- A byte is written, and the empty queue woken, after the reader found the pipe empty and before it is on the queue.
    -/
def byteBeforeSleep : List Turn := [.read 1 1, .check 1, .write 2 [7], .check 2, .wake 2, .enqueue 1]

/-- **The reader sleeps on a byte**: the writer is gone, the byte is in the buffer, and nobody is about to wake the
    reader. -/
theorem wakeup_lost : ∃ s, Run (ofFun turn) (.start fun _ => 0) byteBeforeSleep s ∧ s.task 1 = .asleep (.read 1) ∧
    0 < s.pipe.size ∧ ¬ s.WakePending .rd ∧ ¬ NoLostWakeup s := by
  obtain ⟨s, hrun, hreader, hwriter, hpos⟩ := exists_run (f := turn) (fun _ _ _ h => h) (.start fun _ => 0)
    byteBeforeSleep (fun s => s.task 1 = .asleep (.read 1) ∧ s.task 2 = .outside ∧ 0 < s.pipe.size) (by decide +kernel)
  have hnobody : ¬ s.WakePending .rd := by
    intro hp
    obtain ⟨u, next, hu⟩ := hp
    by_cases h1 : u = 1
    · rw [h1, hreader] at hu
      cases hu
    · by_cases h2 : u = 2
      · rw [h2, hwriter] at hu
        cases hu
      · rw [outside_of_run hrun (by simp [byteBeforeSleep, Turn.task, Ne.symm h1, Ne.symm h2])] at hu
        cases hu
  exact ⟨s, hrun, hreader, hpos, hnobody, fun hall => hnobody (hall 1 (.read 1) hreader (.inl hpos))⟩

end OreUnix.Fs
