/-
  Subject: PIPES of fs/pipe.c: the ring buffer, and any number of tasks reading and writing it.

  * `Pipe.readChunk`, `Pipe.writeChunk` -- what `pipe_read` and `pipe_write` do while they hold the lock, one round of
    their loops;
  * `System` -- the pipe and the tasks inside these calls. A step is one such round, the beginning of a call, or a
    sleep that ends with a signal. The bytes accepted and delivered are recorded, each accepted byte with the call
    that brought it;
  * `pipe_fifo` -- what has been delivered, followed by what is buffered, is what was accepted.
-/
import OreUnix.Kernel.Base
import OreUnix.Lib.RingBuffer
import OreUnix.Lib.Run

namespace OreUnix.Fs

open RingBuffer Lts
open Function (update update_apply)

def PIPE_BUF : Nat := 4096

/-! ## 1. The pipe -/

/-- `struct pipe_inode_info`. The size never exceeds the capacity (`Pipe.WellFormed` below, an invariant of every
    run), so sums and differences of the `u32` fields do not wrap. -/
structure Pipe where
  buf : Nat → UInt8
  head : Nat
  tail : Nat
  size : Nat
  capacity : Nat
  readers : Int
  writers : Int

/-- The pipe `vfs_pipe` makes; its buffer comes from `kmalloc` with any content. -/
def Pipe.new (buf : Nat → UInt8) : Pipe := ⟨buf, 0, 0, 0, PIPE_BUF, 1, 1⟩

/-- The copy loop of `pipe_read`. -/
def Pipe.takeBytes : Nat → Pipe → List UInt8 × Pipe
  | 0, p => ([], p)
  | n + 1, p =>
    let b := p.buf p.tail
    let (bs, p) := takeBytes n { p with tail := (p.tail + 1) % p.capacity }
    (b :: bs, p)

/-- The copy loop of `pipe_write`. -/
def Pipe.putBytes : List UInt8 → Pipe → Pipe
  | [], p => p
  | b :: bs, p =>
    putBytes bs { p with buf := update p.buf p.head b, head := (p.head + 1) % p.capacity }

/-- How a round of `pipe_read` ends: with bytes, at the end of the file, or asleep. -/
inductive Chunk where
  | data (bs : List UInt8)
  | eof
  | wait
  deriving DecidableEq

def Pipe.readChunk (count : Nat) (p : Pipe) : Chunk × Pipe :=
  if p.size > 0 then
    let n := min count p.size
    let (bs, p) := p.takeBytes n
    (.data bs, { p with size := p.size - n })
  else if p.writers = 0 then (.eof, p)
  else (.wait, p)

/-- A round of `pipe_write` with the bytes still to be written: how many of them it takes, or `none` when it has to
    sleep. -/
def Pipe.writeChunk (bytes : List UInt8) (p : Pipe) : Option Nat × Pipe :=
  let avail := p.capacity - p.size
  if avail > 0 then
    let n := min bytes.length avail
    let p := p.putBytes (bytes.take n)
    (some n, { p with size := p.size + n })
  else (none, p)

/-- `pipe_read_release`, without the wake-up. -/
def Pipe.readRelease (p : Pipe) : Pipe := { p with readers := p.readers - 1 }

/-- `pipe_write_release`, without the wake-up. -/
def Pipe.writeRelease (p : Pipe) : Pipe := { p with writers := p.writers - 1 }

/-- Both ends are closed: the pipe is freed. -/
def Pipe.closed (p : Pipe) : Bool := p.readers = 0 ∧ p.writers = 0

/-! ## 2. The ring buffer -/

/-- The buffered bytes, oldest first. -/
def Pipe.content (p : Pipe) : List UInt8 := window p.buf p.capacity p.tail p.size

structure Pipe.WellFormed (p : Pipe) : Prop where
  tail_lt : p.tail < p.capacity
  size_le : p.size ≤ p.capacity
  head_eq : p.head = (p.tail + p.size) % p.capacity

theorem Pipe.new_wellFormed (buf : Nat → UInt8) : (Pipe.new buf).WellFormed :=
  ⟨(by decide : 0 < PIPE_BUF), Nat.zero_le _, rfl⟩

variable {p : Pipe}

theorem Pipe.takeBytes_eq (n : Nat) (htail : p.tail < p.capacity) : p.takeBytes n =
      (window p.buf p.capacity p.tail n, { p with tail := (p.tail + n) % p.capacity }) := by
  induction n generalizing p with
  | zero => rw [takeBytes, window_zero, Nat.add_zero, Nat.mod_eq_of_lt htail]
  | succ n ih =>
    have hlt : (p.tail + 1) % p.capacity < p.capacity := Nat.mod_lt _ (Nat.zero_lt_of_lt htail)
    rw [takeBytes, @ih { p with tail := (p.tail + 1) % p.capacity } hlt, window_succ htail]
    dsimp only
    rw [Nat.mod_add_mod, Nat.add_assoc, Nat.add_comm 1 n]

/-- The bytes put at the head follow the `n` bytes from the tail on. -/
theorem Pipe.putBytes_spec (bs : List UInt8) {n : Nat} (hhead : p.head = (p.tail + n) % p.capacity)
    (hroom : n + bs.length ≤ p.capacity) :
    ∃ buf, p.putBytes bs = { p with buf := buf, head := (p.tail + (n + bs.length)) % p.capacity } ∧
      window buf p.capacity p.tail (n + bs.length) = window p.buf p.capacity p.tail n ++ bs := by
  induction bs generalizing p n with
  | nil =>
    refine ⟨p.buf, ?_, (List.append_nil _).symm⟩
    rw [putBytes, List.length_nil, Nat.add_zero, ← hhead]
  | cons b bs ih =>
    rw [List.length_cons] at hroom
    have hnext : (p.head + 1) % p.capacity = (p.tail + (n + 1)) % p.capacity := by
      rw [hhead, Nat.mod_add_mod, Nat.add_assoc]
    obtain ⟨buf, hput, hwindow⟩ := @ih
      { p with buf := update p.buf p.head b, head := (p.head + 1) % p.capacity } (n + 1) hnext (by
        change n + 1 + bs.length ≤ p.capacity
        omega)
    have hlen : n + 1 + bs.length = n + (b :: bs).length := by
      rw [List.length_cons]
      omega
    rw [hlen] at hput hwindow
    refine ⟨buf, hput, hwindow.trans ?_⟩
    dsimp only
    rw [hhead, window_snoc (by omega), List.append_assoc, List.singleton_append]

/-- A round of `pipe_read` that finds bytes takes them from the front. -/
theorem Pipe.readChunk_data (count : Nat) (h : p.WellFormed) (hsize : 0 < p.size) :
    ∃ bs p', p.readChunk count = (.data bs, p') ∧ p'.WellFormed ∧ p.content = bs ++ p'.content := by
  have hread : p.readChunk count = (.data (p.takeBytes (min count p.size)).1,
      { (p.takeBytes (min count p.size)).2 with
        size := (p.takeBytes (min count p.size)).2.size - min count p.size }) := if_pos hsize
  rw [hread, takeBytes_eq _ h.tail_lt]
  have hle : min count p.size ≤ p.size := Nat.min_le_right _ _
  generalize min count p.size = n at hle
  have hcap : 0 < p.capacity := Nat.zero_lt_of_lt h.tail_lt
  have hhead : p.head = ((p.tail + n) % p.capacity + (p.size - n)) % p.capacity := by
    rw [h.head_eq, Nat.mod_add_mod, Nat.add_assoc, Nat.add_sub_cancel' hle]
  dsimp only
  refine ⟨_, _, rfl, ⟨Nat.mod_lt _ hcap, ?_, hhead⟩, ?_⟩
  · exact (Nat.sub_le _ _).trans h.size_le
  · change window p.buf p.capacity p.tail p.size =
      window p.buf p.capacity p.tail n ++ window p.buf p.capacity ((p.tail + n) % p.capacity) (p.size - n)
    rw [← window_add, Nat.add_sub_cancel' hle]

theorem Pipe.takeBytes_ends (n : Nat) (p : Pipe) :
    (p.takeBytes n).2.readers = p.readers ∧ (p.takeBytes n).2.writers = p.writers := by
  induction n generalizing p with
  | zero => exact ⟨rfl, rfl⟩
  | succ n ih => exact ih { p with tail := (p.tail + 1) % p.capacity }

theorem Pipe.putBytes_ends (bs : List UInt8) (p : Pipe) :
    (p.putBytes bs).readers = p.readers ∧ (p.putBytes bs).writers = p.writers := by
  induction bs generalizing p with
  | nil => exact ⟨rfl, rfl⟩
  | cons b bs ih => exact ih { p with buf := update p.buf p.head b, head := (p.head + 1) % p.capacity }

theorem Pipe.readChunk_ends (count : Nat) (p : Pipe) :
    (p.readChunk count).2.readers = p.readers ∧ (p.readChunk count).2.writers = p.writers := by
  unfold readChunk
  split
  · exact takeBytes_ends ..
  · split
    · exact ⟨rfl, rfl⟩
    · exact ⟨rfl, rfl⟩

theorem Pipe.writeChunk_ends (bytes : List UInt8) (p : Pipe) :
    (p.writeChunk bytes).2.readers = p.readers ∧ (p.writeChunk bytes).2.writers = p.writers := by
  unfold writeChunk
  dsimp only
  split
  · exact putBytes_ends ..
  · exact ⟨rfl, rfl⟩

theorem Pipe.readChunk_empty (count : Nat) (hsize : p.size = 0) :
    p.readChunk count = (if p.writers = 0 then .eof else .wait, p) := by
  unfold readChunk
  rw [if_neg (by omega)]
  split <;> rfl

/-- **A round of `pipe_write`** adds the bytes it takes behind the others, or finds the pipe full. -/
theorem Pipe.writeChunk_spec (bytes : List UInt8) (h : p.WellFormed) : p.writeChunk bytes = (none, p) ∨
      ∃ n p', p.writeChunk bytes = (some n, p') ∧ n ≤ bytes.length ∧ p'.WellFormed ∧
        p'.content = p.content ++ bytes.take n := by
  unfold writeChunk
  dsimp only
  by_cases havail : p.capacity - p.size > 0
  · rw [if_pos havail]
    have hle : min bytes.length (p.capacity - p.size) ≤ bytes.length := Nat.min_le_left _ _
    have hroom : min bytes.length (p.capacity - p.size) ≤ p.capacity - p.size := Nat.min_le_right _ _
    generalize min bytes.length (p.capacity - p.size) = n at hle hroom
    have hlen : (bytes.take n).length = n := List.length_take_of_le hle
    obtain ⟨buf, hput, hwindow⟩ := p.putBytes_spec (bytes.take n) h.head_eq (by
      have := h.size_le
      omega)
    rw [hlen] at hput hwindow
    rw [hput]
    exact .inr ⟨n, _, rfl, hle, ⟨h.tail_lt, by dsimp only; omega, rfl⟩, hwindow⟩
  · rw [if_neg havail]
    exact .inl rfl

theorem Pipe.WellFormed.readRelease (h : p.WellFormed) : p.readRelease.WellFormed := ⟨h.tail_lt, h.size_le, h.head_eq⟩

theorem Pipe.WellFormed.writeRelease (h : p.WellFormed) : p.writeRelease.WellFormed :=
  ⟨h.tail_lt, h.size_le, h.head_eq⟩

/-! ## 3. Readers and writers -/

/-- Where a task is: outside, in `pipe_read`, or in `pipe_write` with the number of its call, its buffer and the count
    of bytes written; `asleep` when its last round ended in a sleep. -/
inductive Place where
  | outside
  | reading (count : Nat) (asleep : Bool)
  | writing (id : Nat) (buf : List UInt8) (written : Nat) (asleep : Bool)
  deriving DecidableEq

/-- A `pipe_write` that has returned. -/
structure Written where
  id : Nat
  buf : List UInt8
  ret : Int

/-- The pipe, the tasks, and what has passed through: the accepted bytes with the number of the call that brought
    them, the delivered bytes, the results of the writes. -/
structure System where
  pipe : Pipe
  task : Nat → Place
  nextId : Nat
  accepted : List (Nat × UInt8)
  delivered : List UInt8
  returned : List Written

inductive Event where
  | read (t count : Nat)
  | write (t : Nat) (buf : List UInt8)
  | readRound (t : Nat)
  | writeRound (t : Nat)
  | interrupt (t : Nat)
  | closeReader
  | closeWriter

/-- A `size_t` as the `ssize_t` it is returned as. -/
def ssize (n : Nat) : Int := if n < 2 ^ 31 then n else n - 2 ^ 32

def System.at (s : System) (t : Nat) (c : Place) : System := { s with task := update s.task t c }

def System.ret (s : System) (t id : Nat) (buf : List UInt8) (r : Int) : System :=
  { s with task := update s.task t .outside, returned := s.returned ++ [⟨id, buf, r⟩] }

/-- The beginning of `pipe_write`. A buffer is no larger than a `size_t`. -/
def System.beginWrite (s : System) (t : Nat) (buf : List UInt8) : System :=
  let id := s.nextId
  let s := { s with nextId := id + 1 }
  if s.pipe.readers = 0 then s.ret t id buf (-EPIPE)
  else if buf.length = 0 then s.ret t id buf 0
  else s.at t (.writing id buf 0 false)

def System.roundRead (s : System) (t count : Nat) : System :=
  match s.pipe.readChunk count with
  | (.data bs, p) => { s with pipe := p, delivered := s.delivered ++ bs, task := update s.task t .outside }
  | (.eof, p) => { s with pipe := p, task := update s.task t .outside }
  | (.wait, p) => { s with pipe := p, task := update s.task t (.reading count true) }

def System.roundWrite (s : System) (t id : Nat) (buf : List UInt8) (written : Nat) : System :=
  match s.pipe.writeChunk (buf.drop written) with
  | (some n, p) =>
    let s := { s with
      pipe := p
      accepted := s.accepted ++ ((buf.drop written).take n).map (id, ·) }
    if written + n < buf.length then s.at t (.writing id buf (written + n) false)
    else s.ret t id buf (ssize (written + n))
  | (none, p) => { s with pipe := p, task := update s.task t (.writing id buf written true) }

/-- One step, if the task is where the event has it; none on a freed pipe. -/
def exec (s : System) (e : Event) : Option System :=
  if s.pipe.closed then none
  else
    match e with
    | .read t count => if s.task t = .outside then some (s.at t (.reading count false)) else none
    | .write t buf =>
      if s.task t = .outside ∧ buf.length < 2 ^ 32 then some (s.beginWrite t buf) else none
    | .readRound t =>
      match s.task t with
      | .reading count _ => some (s.roundRead t count)
      | _ => none
    | .writeRound t =>
      match s.task t with
      | .writing id buf written _ => some (s.roundWrite t id buf written)
      | _ => none
    | .interrupt t =>
      match s.task t with
      | .reading _ true => some (s.at t .outside)
      | .writing id buf written true =>
        some (s.ret t id buf (if written > 0 then ssize written else -EINTR))
      | _ => none
    | .closeReader => some { s with pipe := s.pipe.readRelease }
    | .closeWriter => some { s with pipe := s.pipe.writeRelease }

/-- A new pipe, with nobody at it. -/
def System.start (buf : Nat → UInt8) : System := ⟨.new buf, fun _ => .outside, 0, [], [], []⟩

/-! ## 4. The invariant -/

/-- The bytes call `id` has brought, in their order. -/
def broughtBy (accepted : List (Nat × UInt8)) (id : Nat) : List UInt8 :=
  (accepted.filter fun a => a.1 = id).map Prod.snd

theorem broughtBy_append (acc acc' : List (Nat × UInt8)) (id : Nat) :
    broughtBy (acc ++ acc') id = broughtBy acc id ++ broughtBy acc' id := by
  rw [broughtBy, List.filter_append, List.map_append]
  rfl

theorem broughtBy_self (id : Nat) (bs : List UInt8) : broughtBy (bs.map (id, ·)) id = bs := by
  rw [broughtBy, List.filter_map, List.map_map]
  simp [Function.comp_def]

theorem broughtBy_other {id id' : Nat} (h : id' ≠ id) (bs : List UInt8) : broughtBy (bs.map (id', ·)) id = [] := by
  rw [broughtBy, List.filter_map]
  simp [Function.comp_def, h]

/-- A call in progress has brought the bytes it counts. -/
structure Active (s : System) (id : Nat) (buf : List UInt8) (written : Nat) : Prop where
  id_lt : id < s.nextId
  le : written ≤ buf.length
  lt : buf.length < 2 ^ 32
  brought : broughtBy s.accepted id = buf.take written

/-- A call that has returned a positive number has brought that many bytes. -/
structure Done (s : System) (w : Written) : Prop where
  id_lt : w.id < s.nextId
  brought : 0 < w.ret → w.ret.toNat ≤ w.buf.length ∧
    broughtBy s.accepted w.id = w.buf.take w.ret.toNat

/-- The task is inside the call `id`. -/
def Place.In (id : Nat) : Place → Prop
  | .writing id' _ _ _ => id' = id
  | _ => False

structure Inv (s : System) : Prop where
  pipe : s.pipe.WellFormed
  fifo : s.delivered ++ s.pipe.content = s.accepted.map Prod.snd
  future : ∀ id, s.nextId ≤ id → broughtBy s.accepted id = []
  active : ∀ {t id buf written z}, s.task t = .writing id buf written z → Active s id buf written
  alone : ∀ {t t' id}, (s.task t).In id → (s.task t').In id → t = t'
  done : ∀ w ∈ s.returned, Done s w
  ended : ∀ w ∈ s.returned, ∀ t, ¬ (s.task t).In w.id

variable {s s' : System} {t id written : Nat} {buf : List UInt8} {z : Bool}

theorem start_inv (buf : Nat → UInt8) : Inv (.start buf) :=
  ⟨Pipe.new_wellFormed buf, rfl, fun _ _ => rfl, nofun, nofun, nofun, nofun⟩

theorem in_of_writing (h : s.task t = .writing id buf written z) : (s.task t).In id := by
  rw [h]
  rfl

theorem Inv.in_lt (h : Inv s) (hin : (s.task t).In id) : id < s.nextId := by
  cases ht : s.task t with
  | writing id' buf written z =>
    rw [ht] at hin
    exact hin ▸ (h.active ht).id_lt
  | outside => rw [ht] at hin; exact hin.elim
  | reading count asleep => rw [ht] at hin; exact hin.elim

/-- A task goes to a place where it is in no call of another task and in none that is over. -/
theorem Inv.at (h : Inv s) (t : Nat) {c : Place}
    (hactive : ∀ {id buf written z}, c = .writing id buf written z → Active s id buf written)
    (hmine : ∀ {id}, c.In id → (s.task t).In id ∨ (∀ t', ¬ (s.task t').In id) ∧ ∀ w ∈ s.returned, w.id ≠ id) :
    Inv (s.at t c) := by
  have htask : ∀ t', (s.at t c).task t' = if t' = t then c else s.task t' := fun t' => update_apply ..
  refine ⟨h.pipe, h.fifo, h.future, fun {t' id buf written z} ht' => ?_, fun {t1 t2 id} h₁ h₂ => ?_,
    fun w hw => ?_, fun w hw t' ht' => ?_⟩
  · rw [htask] at ht'
    split at ht'
    · obtain ⟨h1, h2, h3, h4⟩ := hactive ht'
      exact ⟨h1, h2, h3, h4⟩
    · obtain ⟨h1, h2, h3, h4⟩ := h.active ht'
      exact ⟨h1, h2, h3, h4⟩
  · rw [htask] at h₁ h₂
    split at h₁ <;> split at h₂
    · exact (‹t1 = t›).trans (‹t2 = t›).symm
    · rcases hmine h₁ with hin | ⟨hnone, _⟩
      · exact (‹t1 = t›).trans (h.alone hin h₂)
      · exact absurd h₂ (hnone t2)
    · rcases hmine h₂ with hin | ⟨hnone, _⟩
      · exact (h.alone h₁ hin).trans (‹t2 = t›).symm
      · exact absurd h₁ (hnone t1)
    · exact h.alone h₁ h₂
  · obtain ⟨h1, h2⟩ := h.done w hw
    exact ⟨h1, h2⟩
  · rw [htask] at ht'
    split at ht'
    · rcases hmine ht' with hin | ⟨_, hnew⟩
      · exact h.ended w hw t hin
      · exact hnew w hw rfl
    · exact h.ended w hw t' ht'

theorem Inv.leave (h : Inv s) (t : Nat) : Inv (s.at t .outside) := h.at t nofun fun hin => hin.elim

/-- A call ends; no other task is in it. -/
theorem Inv.ret (h : Inv s) {r : Int} (hdone : Done s ⟨id, buf, r⟩)
    (hmine : ∀ t', (s.task t').In id → t' = t) : Inv (s.ret t id buf r) := by
  have hout := h.leave t
  refine ⟨h.pipe, h.fifo, h.future, fun ht' => ?_, hout.alone, fun w hw => ?_, fun w hw t' ht' => ?_⟩
  · obtain ⟨h1, h2, h3, h4⟩ := hout.active ht'
    exact ⟨h1, h2, h3, h4⟩
  · rcases List.mem_append.mp hw with hw | hw
    · obtain ⟨h1, h2⟩ := h.done w hw
      exact ⟨h1, h2⟩
    · rw [List.mem_singleton.mp hw]
      obtain ⟨h1, h2⟩ := hdone
      exact ⟨h1, h2⟩
  · rcases List.mem_append.mp hw with hw | hw
    · exact hout.ended w hw t' ht'
    · rw [List.mem_singleton.mp hw] at ht'
      have htask : (s.ret t id buf r).task t' = if t' = t then .outside else s.task t' := update_apply ..
      rw [htask] at ht'
      split at ht'
      · exact ht'
      · exact absurd (hmine t' ht') ‹_›

theorem Inv.number (h : Inv s) : Inv { s with nextId := s.nextId + 1 } := by
  refine ⟨h.pipe, h.fifo, fun id hid => h.future id (Nat.le_of_succ_le hid), fun ht => ?_, h.alone,
    fun w hw => ?_, h.ended⟩
  · obtain ⟨h1, h2, h3, h4⟩ := h.active ht
    exact ⟨Nat.lt_succ_of_lt h1, h2, h3, h4⟩
  · obtain ⟨h1, h2⟩ := h.done w hw
    exact ⟨Nat.lt_succ_of_lt h1, h2⟩

theorem Inv.deliver (h : Inv s) {bs : List UInt8} (hp : p.WellFormed)
    (hcontent : s.pipe.content = bs ++ p.content) :
    Inv { s with pipe := p, delivered := s.delivered ++ bs } := by
  refine ⟨hp, ?_, h.future, fun ht => ?_, h.alone, fun w hw => ?_, h.ended⟩
  · change s.delivered ++ bs ++ p.content = s.accepted.map Prod.snd
    rw [List.append_assoc, ← hcontent]
    exact h.fifo
  · obtain ⟨h1, h2, h3, h4⟩ := h.active ht
    exact ⟨h1, h2, h3, h4⟩
  · obtain ⟨h1, h2⟩ := h.done w hw
    exact ⟨h1, h2⟩

/-- A call brings its next `n` bytes. The other calls have brought what they had. -/
theorem Inv.accept (h : Inv s) {n : Nat} (ht : s.task t = .writing id buf written z)
    (hp : p.WellFormed) (hn : n ≤ (buf.drop written).length)
    (hcontent : p.content = s.pipe.content ++ (buf.drop written).take n) :
    Inv { s with
      pipe := p
      accepted := s.accepted ++ ((buf.drop written).take n).map (id, ·)
      task := update s.task t (.writing id buf (written + n) false) } := by
  have hme := h.active ht
  have hin : (s.task t).In id := in_of_writing ht
  have hlen : (buf.drop written).length = buf.length - written := List.length_drop
  have hbrought : broughtBy (s.accepted ++ ((buf.drop written).take n).map (id, ·)) id = buf.take (written + n) := by
    rw [broughtBy_append, broughtBy_self, hme.brought, List.take_add]
  have hother : ∀ id', id' ≠ id →
      broughtBy (s.accepted ++ ((buf.drop written).take n).map (id, ·)) id' = broughtBy s.accepted id' := by
    intro id' hne
    rw [broughtBy_append, broughtBy_other hne.symm, List.append_nil]
  have htask : ∀ t', update s.task t (.writing id buf (written + n) false) t' =
      if t' = t then .writing id buf (written + n) false else s.task t' := fun t' =>
    update_apply ..
  have hplace : ∀ {t' id'},
      (update s.task t (.writing id buf (written + n) false) t').In id' → (s.task t').In id' := by
    intro t' id' hin'
    rw [htask] at hin'
    split at hin'
    · rename_i heq
      rw [heq, ← show id = id' from hin']
      exact hin
    · exact hin'
  refine ⟨hp, ?_, fun id' hid' => ?_, fun {t' id' buf' written' z'} ht' => ?_,
    fun h₁ h₂ => h.alone (hplace h₁) (hplace h₂), fun w hw => ?_, fun w hw t' ht' => h.ended w hw t' (hplace ht')⟩
  · change s.delivered ++ p.content = (s.accepted ++ ((buf.drop written).take n).map (id, ·)).map Prod.snd
    rw [hcontent, ← List.append_assoc, h.fifo, List.map_append, List.map_map]
    simp [Function.comp_def]
  · have hlt : id < id' := hme.id_lt.trans_le hid'
    exact (hother id' (Nat.ne_of_gt hlt)).trans (h.future id' hid')
  · change update s.task t (.writing id buf (written + n) false) t' = _ at ht'
    rw [htask] at ht'
    split at ht'
    · cases ht'
      have hle := hme.le
      exact ⟨hme.id_lt, by omega, hme.lt, hbrought⟩
    · rename_i hne
      have hne' : id' ≠ id := by
        rintro rfl
        exact hne (h.alone (in_of_writing ht') hin)
      obtain ⟨h1, h2, h3, h4⟩ := h.active ht'
      exact ⟨h1, h2, h3, (hother id' hne').trans h4⟩
  · have hne : w.id ≠ id := by
      intro heq
      exact h.ended w hw t (heq ▸ hin)
    obtain ⟨h1, h2⟩ := h.done w hw
    refine ⟨h1, fun hpos => ?_⟩
    obtain ⟨hle, hb⟩ := h2 hpos
    exact ⟨hle, (hother w.id hne).trans hb⟩

/-! ## 5. The steps -/

/-- A `size_t` that is positive as an `ssize_t` stays the same. -/
theorem toNat_ssize {n : Nat} (hn : n < 2 ^ 32) (hpos : 0 < ssize n) : (ssize n).toNat = n := by
  by_cases hlt : n < 2 ^ 31
  · rw [ssize, if_pos hlt, Int.toNat_natCast]
  · rw [ssize, if_neg hlt] at hpos
    omega

theorem Active.done (h : Active s id buf written) : Done s ⟨id, buf, ssize written⟩ := by
  refine ⟨h.id_lt, fun hpos => ?_⟩
  have hpos : 0 < ssize written := hpos
  have hret : (ssize written).toNat = written := toNat_ssize (h.le.trans_lt h.lt) hpos
  dsimp only
  rw [hret]
  exact ⟨h.le, h.brought⟩

theorem done_of_nonpos {r : Int} (hid : id < s.nextId) (hr : r ≤ 0) : Done s ⟨id, buf, r⟩ :=
  ⟨hid, fun hpos => absurd hpos (Int.not_lt.mpr hr)⟩

theorem Inv.beginWrite (h : Inv s) (hlen : buf.length < 2 ^ 32) : Inv (s.beginWrite t buf) := by
  have hnum := h.number
  have hnew : ∀ t', ¬ (s.task t').In s.nextId := fun t' hin => absurd (h.in_lt hin) (Nat.lt_irrefl _)
  have hid : s.nextId < s.nextId + 1 := Nat.lt_succ_self _
  unfold System.beginWrite
  dsimp only
  split
  · exact hnum.ret (done_of_nonpos hid (by decide)) fun t' hin => absurd hin (hnew t')
  · split
    · exact hnum.ret (done_of_nonpos hid (by decide)) fun t' hin => absurd hin (hnew t')
    · refine hnum.at t (fun hc => ?_) fun {id} hin => .inr ?_
      · cases hc
        exact ⟨hid, Nat.zero_le _, hlen, h.future s.nextId le_rfl⟩
      · have hin : s.nextId = id := hin
        rw [← hin]
        exact ⟨hnew, fun w hw => Nat.ne_of_lt (h.done w hw).id_lt⟩

theorem Inv.roundRead (h : Inv s) (t count : Nat) : Inv (s.roundRead t count) := by
  unfold System.roundRead
  by_cases hsize : 0 < s.pipe.size
  · obtain ⟨bs, p, hread, hp, hcontent⟩ := s.pipe.readChunk_data count h.pipe hsize
    rw [hread]
    exact (h.deliver hp hcontent).leave t
  · rw [s.pipe.readChunk_empty count (by omega)]
    split
    · rename_i hdata
      rw [Prod.mk.injEq] at hdata
      split at hdata <;> exact absurd hdata.1 nofun
    · rename_i hp
      cases congrArg Prod.snd hp
      exact h.leave t
    · rename_i hp
      cases congrArg Prod.snd hp
      exact h.at t nofun fun hin => hin.elim

theorem Inv.roundWrite (h : Inv s) (ht : s.task t = .writing id buf written z) :
    Inv (s.roundWrite t id buf written) := by
  have hin : (s.task t).In id := in_of_writing ht
  unfold System.roundWrite
  rcases s.pipe.writeChunk_spec (buf.drop written) h.pipe with hfull | ⟨n, p, hsome, hn, hp, hcontent⟩
  · rw [hfull]
    refine h.at t (fun hc => ?_) fun hin' => .inl ?_
    · cases hc
      exact h.active ht
    · exact (show id = _ from hin') ▸ hin
  · rw [hsome]
    dsimp only
    have hacc := h.accept ht hp hn hcontent
    split
    · exact hacc
    · have hself : (update s.task t (.writing id buf (written + n) false) : Nat → Place) t =
          .writing id buf (written + n) false := Function.update_self ..
      have hret := hacc.ret (hacc.active hself).done fun t' hin' => hacc.alone hin' (in_of_writing hself)
      rw [System.ret, Function.update_idem] at hret
      exact hret

theorem exec_inv (h : Inv s) {e : Event} (hexec : exec s e = some s') : Inv s' := by
  unfold exec at hexec
  split at hexec
  · cases hexec
  · cases e with
    | read t count =>
      dsimp only at hexec
      split at hexec
      · cases hexec
        exact h.at t nofun fun hin => hin.elim
      · cases hexec
    | write t buf =>
      dsimp only at hexec
      split at hexec
      · rename_i hcall
        cases hexec
        exact h.beginWrite hcall.2
      · cases hexec
    | readRound t =>
      dsimp only at hexec
      split at hexec
      · cases hexec
        exact h.roundRead t _
      · cases hexec
    | writeRound t =>
      dsimp only at hexec
      split at hexec
      · rename_i ht
        cases hexec
        exact h.roundWrite ht
      · cases hexec
    | interrupt t =>
      dsimp only at hexec
      split at hexec
      · cases hexec
        exact h.leave t
      · rename_i id buf written ht
        cases hexec
        have hact := h.active ht
        refine h.ret ?_ fun t' hin => h.alone hin (in_of_writing ht)
        split
        · exact hact.done
        · exact done_of_nonpos hact.id_lt (by decide)
      · cases hexec
    | closeReader =>
      cases hexec
      have hsame : s.pipe.content = [] ++ s.pipe.readRelease.content := rfl
      have hrel := h.deliver h.pipe.readRelease hsame
      rw [List.append_nil] at hrel
      exact hrel
    | closeWriter =>
      cases hexec
      have hsame : s.pipe.content = [] ++ s.pipe.writeRelease.content := rfl
      have hrel := h.deliver h.pipe.writeRelease hsame
      rw [List.append_nil] at hrel
      exact hrel

/-- **A pipe is a FIFO.** Whatever tasks read and write it and in whatever order their rounds come: the ring buffer is
    well formed; the bytes delivered, followed by those buffered, are the bytes accepted, in the order of the rounds;
    and a write that returned `k > 0` has brought the first `k` bytes of its buffer and no others. -/
theorem pipe_fifo {buf₀ : Nat → UInt8} {es : List Event} (hr : Run (ofFun exec) (.start buf₀) es s) :
    s.pipe.head = (s.pipe.tail + s.pipe.size) % s.pipe.capacity ∧ s.pipe.size ≤ s.pipe.capacity ∧
    s.delivered ++ window s.pipe.buf s.pipe.capacity s.pipe.tail s.pipe.size = s.accepted.map Prod.snd ∧
    ∀ w ∈ s.returned, 0 < w.ret →
      w.ret.toNat ≤ w.buf.length ∧ broughtBy s.accepted w.id = w.buf.take w.ret.toNat := by
  have hinv : Inv s := hr.invariant (fun _ _ _ h hstep => exec_inv h hstep) (start_inv buf₀)
  exact ⟨hinv.pipe.head_eq, hinv.pipe.size_le, hinv.fifo, fun w hw => (hinv.done w hw).brought⟩

/-- Two writers and a reader: the reader takes two of the first writer's three bytes. -/
def threeTasks : List Event :=
  [.read 0 2, .readRound 0, .write 1 [7, 8, 9], .writeRound 1, .write 2 [1], .readRound 0, .writeRound 2]

theorem pipe_fifo_threeTasks : ∃ s, Run (ofFun exec) (.start fun _ => 0) threeTasks s ∧
    s.delivered = [7, 8] ∧
    s.delivered ++ window s.pipe.buf s.pipe.capacity s.pipe.tail s.pipe.size = s.accepted.map Prod.snd := by
  obtain ⟨s, hr, hdel⟩ := exists_run (f := exec) (fun _ _ _ h => h) (.start fun _ => 0) threeTasks
    (fun s => s.delivered = [7, 8]) (by decide +kernel)
  exact ⟨s, hr, hdel, (pipe_fifo hr).2.2.1⟩

end OreUnix.Fs
