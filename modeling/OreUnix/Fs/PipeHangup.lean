/-
  Subject: A PIPE WITHOUT READERS lets its writers go, if none is inside `pipe_write` when the last reader closes.

  * `Released s` -- without readers, the next step of every `pipe_write`, in progress or beginning, is its return with
    the partial count or -EPIPE, and it stores nothing;
  * `writers_released` -- in every run in which the last reader closes while no task is inside `pipe_write`;
  * `writer_sleeps_again` -- `pipe_write` looks at `readers` before its loop only: a writer asleep on a full pipe is
    woken by the close, finds the pipe full and goes back to sleep.
-/
import OreUnix.Fs.Pipe

namespace OreUnix.Fs

open Lts
open Function (update)

variable {s s' : System}

/-- The call `id` of the task returns `r`, and nothing is stored. -/
structure LetGo (s s' : System) (t id : Nat) (buf : List UInt8) (r : Int) : Prop where
  out : s'.task t = .outside
  ret : s'.returned = s.returned ++ [⟨id, buf, r⟩]
  pipe : s'.pipe = s.pipe
  accepted : s'.accepted = s.accepted

/-- Without readers a writer returns at its next step: what it has written so far, or -EPIPE. -/
structure Released (s : System) : Prop where
  inside : s.pipe.readers = 0 → ∀ t s' id buf written z, s.task t = .writing id buf written z →
    exec s (.writeRound t) = some s' → LetGo s s' t id buf (if written = 0 then -EPIPE else written)
  later : s.pipe.readers = 0 → ∀ t s' buf, exec s (.write t buf) = some s' → LetGo s s' t s.nextId buf (-EPIPE)

/-- The task is inside `pipe_write`. -/
def Place.isWriting : Place → Bool
  | .writing .. => true
  | _ => false

/-- The read end that is closed is open, and if it is the last one nobody is inside `pipe_write`. -/
def QuietClose (s : System) : Event → Prop
  | .closeReader => 0 < s.pipe.readers ∧ (s.pipe.readers = 1 → ∀ t, (s.task t).isWriting = false)
  | _ => True

/-- Without readers nobody is inside `pipe_write`. -/
def NoWriters (s : System) : Prop := s.pipe.readers = 0 → ∀ t, (s.task t).isWriting = false

theorem NoWriters.move (h : NoWriters s) {t : Nat} {c : Place}
    (htask : s'.task = update s.task t c) (hends : s'.pipe.readers = s.pipe.readers)
    (hc : s.pipe.readers = 0 → c.isWriting = false) : NoWriters s' := by
  intro hzero u
  rw [hends] at hzero
  rw [htask, Function.update_apply]
  split
  · exact hc hzero
  · exact h hzero u

theorem beginWrite_none (hzero : s.pipe.readers = 0) (t : Nat) (buf : List UInt8) :
    s.beginWrite t buf = ({ s with nextId := s.nextId + 1 } : System).ret t s.nextId buf (-EPIPE) := if_pos hzero

theorem NoWriters.beginWrite (h : NoWriters s) (t : Nat) (buf : List UInt8) : NoWriters (s.beginWrite t buf) := by
  unfold System.beginWrite
  dsimp only
  split
  · exact h.move rfl rfl fun _ => rfl
  · rename_i hreaders
    split
    · exact h.move rfl rfl fun _ => rfl
    · exact h.move rfl rfl fun hzero => absurd hzero hreaders

theorem NoWriters.roundRead (h : NoWriters s) (t count : Nat) : NoWriters (s.roundRead t count) := by
  have hends := (s.pipe.readChunk_ends count).1
  unfold System.roundRead
  generalize s.pipe.readChunk count = r at hends
  obtain ⟨c, p⟩ := r
  cases c with
  | data bs => exact h.move rfl hends fun _ => rfl
  | eof => exact h.move rfl hends fun _ => rfl
  | wait => exact h.move rfl hends fun _ => rfl

/-- A round of `pipe_write` needs a writer, and so a reader. -/
theorem NoWriters.roundWrite (h : NoWriters s) {t id written : Nat} {buf : List UInt8} {z : Bool}
    (ht : s.task t = .writing id buf written z) : NoWriters (s.roundWrite t id buf written) := by
  have hsome : s.pipe.readers ≠ 0 := by
    intro hzero
    have hnone := h hzero t
    rw [ht] at hnone
    cases hnone
  have hends := (s.pipe.writeChunk_ends (buf.drop written)).1
  unfold System.roundWrite
  generalize s.pipe.writeChunk (buf.drop written) = r at hends
  obtain ⟨n, p⟩ := r
  cases n with
  | none => exact h.move rfl hends fun hzero => absurd hzero hsome
  | some n =>
    dsimp only
    split
    · exact h.move rfl hends fun hzero => absurd hzero hsome
    · exact h.move rfl hends fun _ => rfl

theorem NoWriters.step (h : NoWriters s) {e : Event} (hq : QuietClose s e) (hexec : exec s e = some s') :
    NoWriters s' := by
  unfold exec at hexec
  split at hexec
  · cases hexec
  · cases e with
    | read t count =>
      dsimp only at hexec
      split at hexec
      · cases hexec
        exact h.move rfl rfl fun _ => rfl
      · cases hexec
    | write t buf =>
      dsimp only at hexec
      split at hexec
      · cases hexec
        exact h.beginWrite t buf
      · cases hexec
    | readRound t =>
      dsimp only at hexec
      split at hexec
      · cases hexec
        exact h.roundRead t _
      · cases hexec
    | writeRound t =>
      dsimp only at hexec
      split at hexec
      · rename_i ht
        cases hexec
        exact h.roundWrite ht
      · cases hexec
    | interrupt t =>
      dsimp only at hexec
      split at hexec
      · cases hexec
        exact h.move rfl rfl fun _ => rfl
      · cases hexec
        exact h.move rfl rfl fun _ => rfl
      · cases hexec
    | closeReader =>
      cases hexec
      intro hzero t
      have hzero : s.pipe.readers - 1 = 0 := hzero
      exact hq.2 (by omega) t
    | closeWriter =>
      cases hexec
      exact h

theorem NoWriters.released (h : NoWriters s) : Released s where
  inside := by
    intro hzero t s' id buf written z ht _
    have hnone := h hzero t
    rw [ht] at hnone
    cases hnone
  later := by
    intro hzero t s' buf hwrite
    unfold exec at hwrite
    split at hwrite
    · cases hwrite
    · dsimp only at hwrite
      split at hwrite
      · cases hwrite
        rw [beginWrite_none hzero]
        exact ⟨Function.update_self .., rfl, rfl, rfl⟩
      · cases hwrite

/-- **A pipe without readers lets its writers go** in every run in which no task is inside `pipe_write` when the last
    reader closes. -/
theorem writers_released {buf₀ : Nat → UInt8} {es : List Event}
    (hr : Run (fun s e s' => QuietClose s e ∧ exec s e = some s') (.start buf₀) es s) : Released s := by
  have hstart : NoWriters (.start buf₀) := fun _ _ => rfl
  exact (hr.invariant (I := NoWriters) (fun _ _ _ h hs => h.step hs.1 hs.2) hstart).released

/-- A write of one byte, then the reader closes: the next write returns -EPIPE. -/
theorem writers_released_closed : ∃ s s' : System,
    Run (fun s e s' => QuietClose s e ∧ exec s e = some s') (.start fun _ => 0)
      [.write 1 [7], .writeRound 1, .closeReader] s ∧
    s.pipe.readers = 0 ∧ exec s (.write 1 [8]) = some s' ∧ s'.returned = [⟨0, [7], 1⟩, ⟨1, [8], -EPIPE⟩] := by
  have hout : ∀ t, ((((System.start fun _ => 0).beginWrite 1 [7]).roundWrite 1 0 [7] 0).task t).isWriting = false := by
    intro t
    change (update (update (fun _ => Place.outside) 1 _) 1 Place.outside t).isWriting = false
    rw [Function.update_idem, Function.update_apply]
    split <;> rfl
  have hrun : Run (fun s e s' => QuietClose s e ∧ exec s e = some s') (.start fun _ => 0)
      [.write 1 [7], .writeRound 1, .closeReader] _ :=
    .cons ⟨trivial, rfl⟩ (.cons ⟨trivial, rfl⟩ (.cons ⟨⟨by decide, fun _ => hout⟩, rfl⟩ (.nil _)))
  have hdone := (writers_released hrun).later rfl 1 _ [8] rfl
  exact ⟨_, _, hrun, rfl, rfl, hdone.ret⟩

/-- The task sleeps on `wr_wait`. -/
def Place.sleepsWriting : Place → Bool
  | .writing _ _ _ z => z
  | _ => false

/-- A write of 4097 bytes fills the pipe and goes to sleep; then the reader closes. -/
def closedOnWriter : List Event :=
  [.write 1 (List.replicate 4097 7), .writeRound 1, .writeRound 1, .closeReader]

/-- **The writer sleeps again**: no reader is left, and the next step of the writer is back to sleep. -/
theorem writer_sleeps_again : ∃ s s' : System, Run (ofFun exec) (.start fun _ => 0) closedOnWriter s ∧
    s.pipe.readers = 0 ∧ (s.task 1).sleepsWriting = true ∧ exec s (.writeRound 1) = some s' ∧
    (s'.task 1).sleepsWriting = true ∧ ¬ Released s := by
  obtain ⟨s, hrun, hreaders, hasleep, hagain⟩ := exists_run (f := exec) (fun _ _ _ h => h) (.start fun _ => 0)
    closedOnWriter (fun s => s.pipe.readers = 0 ∧ (s.task 1).sleepsWriting = true ∧
      (exec s (.writeRound 1)).map (fun s => (s.task 1).sleepsWriting) = some true) (by decide +kernel)
  obtain ⟨s', hs', hsleeps⟩ := Option.map_eq_some_iff.mp hagain
  refine ⟨s, s', hrun, hreaders, hasleep, hs', hsleeps, fun hrel => ?_⟩
  cases hplace : s.task 1 with
  | writing id buf written z =>
    rw [(hrel.inside hreaders 1 s' id buf written z hplace hs').out] at hsleeps
    cases hsleeps
  | outside => simp [hplace, Place.sleepsWriting] at hasleep
  | reading => simp [hplace, Place.sleepsWriting] at hasleep

end OreUnix.Fs
