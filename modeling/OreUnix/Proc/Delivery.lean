/-
  Subject: POSTING AND DELIVERING SIGNALS, any number of tasks at a time.

  `signal_deliver` takes the pending mask under the lock and works through its copy afterwards; a handler that is
  called meanwhile can come to another `signal_deliver` of the same task. A task therefore has the mask and, besides
  it, the copies still being worked through, the innermost first.

  * `Board`, `BoardMove`, `BoardStep` -- the signals of every task; one move is one section under the signal lock, one
    round of the loop, or a call that makes, copies or drops a signal struct;
  * `moves s c` -- the moves that the call `c` of Lifecycle.lean makes in the state `s`; `exec_moves` -- and it makes
    them: they lead from the signal structs before the call to those after it, so do those of a whole run
    (`signals_simulated`);
  * `Answers` -- a list of moves has a post to the task that was not acted on yet;
  * `delivery_of_orderly` -- in an orderly run every act answers a post of its own, and a post stays pending until it
    is taken;
  * `fork_duplicates` -- `sys_fork` copies the mask, and the child acts on a signal of its parent's.
-/
import OreUnix.Lib.Run
import OreUnix.Proc.SignalPointers

namespace OreUnix.Proc

open Function (update update_of_ne update_self)
open Lts

variable {g : Nat} {p : BitVec 64} {ps : List (BitVec 64)}

/-! ## 1. The moves -/

/-- The signals of a task and the copies of the mask that calls of `signal_deliver` are working through. -/
structure Mailbox where
  signals : Signals
  batches : List (BitVec 64)

/-- A task without a signal struct has none. -/
abbrev Board := Nat → Option Mailbox

/-- `signal_struct` with a signal pending. -/
def Signals.post (y : Signals) (sig : Nat) : Signals := { y with pending := y.pending ||| (1#64 <<< sig) }

inductive BoardMove where
  | create (t : Nat)
  | fork (parent child : Nat)
  /-- `sys_fork` fails in `mm_clone` or `files_clone` and frees the struct of the parent. -/
  | forkFail (parent : Nat)
  | kill (t sig : Nat)
  | sigaction (t sig : Nat) (act : Handler)
  /-- `signal_deliver` takes the mask, acts on a signal of its copy, and is through with it. -/
  | take (t : Nat)
  | act (t sig : Nat)
  | done (t : Nat)
  /-- The task ends; its struct is there until its parent has waited for it. -/
  | exit (t : Nat)
  | reap (t : Nat)
  deriving DecidableEq

/-- Moves that make task `t`. -/
def BoardMove.makes (t : Nat) : BoardMove → Prop
  | .create u => u = t
  | .fork _ c => c = t
  | _ => False

inductive BoardStep : Board → BoardMove → Board → Prop
  | create (b : Board) (t : Nat) (hnew : b t = none) :
      BoardStep b (.create t) (update b t (some ⟨⟨0, fun _ => .dfl⟩, []⟩))
  | fork (b : Board) (parent child : Nat) (m : Mailbox) (hm : b parent = some m) (hnew : b child = none) :
      BoardStep b (.fork parent child) (update b child (some ⟨m.signals, []⟩))
  | forkFail (b : Board) (parent : Nat) : BoardStep b (.forkFail parent) (update b parent none)
  | kill (b : Board) (t sig : Nat) (m : Mailbox) (hm : b t = some m) (hlow : 0 < sig) (hhigh : sig < maxSignals) :
      BoardStep b (.kill t sig) (update b t (some { m with signals := m.signals.post sig }))
  | sigaction (b : Board) (t sig : Nat) (act : Handler) (m : Mailbox) (hm : b t = some m) :
      BoardStep b (.sigaction t sig act)
        (update b t (some { m with signals := { m.signals with actions := update m.signals.actions sig act } }))
  | take (b : Board) (t : Nat) (m : Mailbox) (hm : b t = some m) (hsome : m.signals.pending ≠ 0) :
      BoardStep b (.take t)
        (update b t (some ⟨{ m.signals with pending := 0 }, m.signals.pending :: m.batches⟩))
  | act (b : Board) (t sig : Nat) (m : Mailbox) (p : BitVec 64) (ps : List (BitVec 64)) (hm : b t = some m)
      (htop : m.batches = p :: ps) (hsig : p.getLsbD sig = true) (hlow : 0 < sig) (hhigh : sig < maxSignals)
      (hfirst : ∀ j, 0 < j → j < sig → p.getLsbD j = false) :
      BoardStep b (.act t sig) (update b t (some { m with batches := (p &&& ~~~(1#64 <<< sig)) :: ps }))
  | done (b : Board) (t : Nat) (m : Mailbox) (p : BitVec 64) (ps : List (BitVec 64)) (hm : b t = some m)
      (htop : m.batches = p :: ps) (hnone : ∀ j, 0 < j → j < maxSignals → p.getLsbD j = false) :
      BoardStep b (.done t) (update b t (some { m with batches := ps }))
  | exit (b : Board) (t : Nat) : BoardStep b (.exit t) (update b t ((b t).map fun m => { m with batches := [] }))
  | reap (b : Board) (t : Nat) : BoardStep b (.reap t) (update b t none)

/-- No task with a signal pending forks, no fork fails while the child still has its parent's struct, and no signal is
    posted to a task while an earlier one of the same number is being delivered to it. -/
def BoardMove.Orderly (b : Board) : BoardMove → Prop
  | .fork parent _ => ∀ m, b parent = some m → m.signals.pending = 0
  | .forkFail _ => False
  | .kill t sig => ∀ m, b t = some m → ∀ p ∈ m.batches, p.getLsbD sig = false
  | _ => True

/-! ## 2. Bits -/

theorem getLsbD_bit {sig : Nat} (hsig : sig < 64) (j : Nat) : (1#64 <<< sig).getLsbD j = decide (j = sig) := by
  rw [BitVec.getLsbD_shiftLeft, BitVec.getLsbD_one]
  by_cases h : j = sig
  · subst h
    simp [hsig]
  · have hsub : j < sig ∨ j - sig ≠ 0 := by omega
    rcases hsub with hlt | hne
    · simp [hlt, h]
    · simp [hne, h]

theorem Signals.getLsbD_post (y : Signals) {sig : Nat} (hsig : sig < maxSignals) (j : Nat) :
    (y.post sig).pending.getLsbD j = (y.pending.getLsbD j || decide (j = sig)) := by
  rw [Signals.post, BitVec.getLsbD_or, getLsbD_bit hsig]

theorem getLsbD_clear (p : BitVec 64) {sig : Nat} (hsig : sig < maxSignals) (j : Nat) :
    (p &&& ~~~(1#64 <<< sig)).getLsbD j = true ↔ p.getLsbD j = true ∧ j ≠ sig := by
  have hsig : sig < 64 := hsig
  rw [BitVec.getLsbD_and, BitVec.getLsbD_not, getLsbD_bit hsig, Bool.and_eq_true, Bool.and_eq_true]
  constructor
  · intro h
    exact ⟨h.1, by simpa using h.2.2⟩
  · intro h
    have hj : j < 64 := BitVec.lt_of_getLsbD h.1
    simpa [hj] using h

/-! ## 3. Posts that are due -/

/-- The signal was posted to the task, since then not acted on, and the task is still the same. -/
def Answers (es : List BoardMove) (t sig : Nat) : Prop :=
  ∃ pre post, es = pre ++ .kill t sig :: post ∧ (∀ e ∈ post, e ≠ .act t sig) ∧ ∀ e ∈ post, ¬ e.makes t

variable {es past : List BoardMove} {b b' b₀ : Board} {t sig : Nat} {e : BoardMove} {m : Mailbox}

theorem Answers.snoc (h : Answers es t sig) (hact : e ≠ .act t sig) (hmakes : ¬ e.makes t) :
    Answers (es ++ [e]) t sig := by
  obtain ⟨pre, post, rfl, hpost, hsame⟩ := h
  refine ⟨pre, post ++ [e], by rw [List.append_assoc, List.cons_append], fun a ha => ?_, fun a ha => ?_⟩
  · rcases List.mem_append.mp ha with ha | ha
    · exact hpost a ha
    · rw [List.mem_singleton.mp ha]
      exact hact
  · rcases List.mem_append.mp ha with ha | ha
    · exact hsame a ha
    · rw [List.mem_singleton.mp ha]
      exact hmakes

theorem Answers.kill (es : List BoardMove) (t sig : Nat) : Answers (es ++ [.kill t sig]) t sig :=
  ⟨es, [], rfl, fun _ ha => absurd ha List.not_mem_nil, fun _ ha => absurd ha List.not_mem_nil⟩

/-- A signal that is due for a task: pending or in a copy of the mask. -/
def Mailbox.Due (m : Mailbox) (sig : Nat) : Prop :=
  m.signals.pending.getLsbD sig = true ∨ ∃ p ∈ m.batches, p.getLsbD sig = true

/-- Every signal that is due was posted and is due once only. -/
structure Mailbox.Fair (es : List BoardMove) (t : Nat) (m : Mailbox) : Prop where
  posted : ∀ {sig}, m.Due sig → Answers es t sig
  apart : ∀ {sig p}, m.signals.pending.getLsbD sig = true → p ∈ m.batches → p.getLsbD sig = false
  once : m.batches.Pairwise fun p q => ∀ sig, p.getLsbD sig = true → q.getLsbD sig = false

def Fair (es : List BoardMove) (b : Board) : Prop := ∀ t m, b t = some m → m.Fair es t

/-- Nothing is pending and nothing is being delivered. -/
def QuietBoard (b : Board) : Prop := ∀ t m, b t = some m → m.signals.pending = 0 ∧ m.batches = []

theorem Mailbox.Fair.empty {y : Signals} (hy : y.pending = 0) : Mailbox.Fair es t ⟨y, []⟩ := by
  refine ⟨fun h => ?_, fun _ hp => absurd hp List.not_mem_nil, .nil⟩
  rcases h with h | ⟨p, hp, _⟩
  · dsimp only at h
    rw [hy, BitVec.ofNat_eq_ofNat, BitVec.getLsbD_zero] at h
    cases h
  · exact absurd hp List.not_mem_nil

/-- A move that does not make the task or act for it. -/
theorem Mailbox.Fair.snoc (h : m.Fair es t) (hact : ∀ sig, e ≠ .act t sig) (hmakes : ¬ e.makes t) :
    m.Fair (es ++ [e]) t :=
  ⟨fun hd => (h.posted hd).snoc (hact _) hmakes, h.apart, h.once⟩

/-- Nothing is added to what is due. -/
theorem Mailbox.Fair.sub {m' : Mailbox} (h : m.Fair es t) (hsig : m'.signals.pending = m.signals.pending)
    (hsub : m'.batches.Sublist m.batches) : m'.Fair es t := by
  refine ⟨fun hd => h.posted ?_, fun hj hp => h.apart (hsig ▸ hj) (hsub.subset hp), h.once.sublist hsub⟩
  rcases hd with hd | ⟨p, hp, hj⟩
  · exact .inl (hsig ▸ hd)
  · exact .inr ⟨p, hsub.subset hp, hj⟩

theorem Mailbox.Fair.kill (h : m.Fair es t) (hhigh : sig < maxSignals)
    (hfree : ∀ p ∈ m.batches, p.getLsbD sig = false) :
    Mailbox.Fair (es ++ [.kill t sig]) t { m with signals := m.signals.post sig } := by
  have hsplit : ∀ {j}, (m.signals.post sig).pending.getLsbD j = true →
      m.signals.pending.getLsbD j = true ∨ j = sig := by
    intro j hj
    rw [Signals.getLsbD_post _ hhigh, Bool.or_eq_true, decide_eq_true_iff] at hj
    exact hj
  refine ⟨fun {j} hd => ?_, fun {j p} hj hp => ?_, h.once⟩
  · by_cases hjs : j = sig
    · subst hjs
      exact Answers.kill es t j
    · refine (h.posted ?_).snoc (fun heq => by cases heq) fun hm => hm
      rcases hd with hd | hd
      · exact .inl ((hsplit hd).resolve_right hjs)
      · exact .inr hd
  · rcases hsplit hj with hj | rfl
    · exact h.apart hj hp
    · exact hfree p hp

/-- The mask becomes the innermost copy. -/
theorem Mailbox.Fair.take (h : m.Fair es t) :
    Mailbox.Fair (es ++ [.take t]) t ⟨{ m.signals with pending := 0 }, m.signals.pending :: m.batches⟩ := by
  have hzero : ∀ {j}, (0 : BitVec 64).getLsbD j = true → False := by
    intro j hj
    rw [BitVec.ofNat_eq_ofNat, BitVec.getLsbD_zero] at hj
    cases hj
  refine ⟨fun {j} hd => ?_, fun hj _ => (hzero hj).elim, List.pairwise_cons.mpr ⟨fun q hq j hj => ?_, h.once⟩⟩
  · refine (h.posted ?_).snoc (fun heq => by cases heq) fun hm => hm
    rcases hd with hd | ⟨p, hp, hj⟩
    · exact (hzero hd).elim
    · rcases List.mem_cons.mp hp with rfl | hp
      · exact .inl hj
      · exact .inr ⟨p, hp, hj⟩
  · exact h.apart hj hq

/-- A signal leaves the copy it is in, and it is in no other. -/
theorem Mailbox.Fair.act (h : m.Fair es t) (htop : m.batches = p :: ps) (hsig : p.getLsbD sig = true)
    (hhigh : sig < maxSignals) :
    Mailbox.Fair (es ++ [.act t sig]) t { m with batches := (p &&& ~~~(1#64 <<< sig)) :: ps } := by
  obtain ⟨hhead, htail⟩ := List.pairwise_cons.mp (htop ▸ h.once)
  have hin : ∀ q ∈ p :: ps, q ∈ m.batches := fun q hq => htop ▸ hq
  -- what is due afterwards was due before, and is not the signal acted on
  have hother : ∀ {j}, Mailbox.Due { m with batches := (p &&& ~~~(1#64 <<< sig)) :: ps } j → m.Due j ∧ j ≠ sig := by
    intro j hd
    rcases hd with hd | ⟨q, hq, hj⟩
    · refine ⟨.inl hd, fun heq => ?_⟩
      have hfalse := h.apart hd (hin p (.head _))
      rw [heq, hsig] at hfalse
      cases hfalse
    · rcases List.mem_cons.mp hq with rfl | hq
      · obtain ⟨hj, hne⟩ := (getLsbD_clear p hhigh j).mp hj
        exact ⟨.inr ⟨p, hin p (.head _), hj⟩, hne⟩
      · refine ⟨.inr ⟨q, hin q (.tail _ hq), hj⟩, fun heq => ?_⟩
        have hfalse := hhead q hq sig hsig
        rw [← heq, hj] at hfalse
        cases hfalse
  refine ⟨fun {j} hd => ?_, fun {j q} hj hq => ?_, List.pairwise_cons.mpr ⟨fun q hq j hj => ?_, htail⟩⟩
  · obtain ⟨hdue, hne⟩ := hother hd
    refine (h.posted hdue).snoc (fun heq => ?_) fun hm => hm
    cases heq
    exact hne rfl
  · rcases List.mem_cons.mp hq with rfl | hq
    · rw [Bool.eq_false_iff]
      intro hc
      have hfalse := h.apart hj (hin p (.head _))
      rw [((getLsbD_clear p hhigh j).mp hc).1] at hfalse
      cases hfalse
    · exact h.apart hj (hin q (.tail _ hq))
  · exact hhead q hq j ((getLsbD_clear p hhigh j).mp hj).1

/-! ## 4. Runs -/

/-- The task a move changes. -/
def BoardMove.target : BoardMove → Nat
  | .create t | .fork _ t | .forkFail t | .kill t _ | .sigaction t _ _ | .take t | .act t _ | .done t | .exit t
  | .reap t => t

theorem BoardStep.other (h : BoardStep b e b') {u : Nat} (hu : u ≠ e.target) : b' u = b u := by
  cases h <;> exact update_of_ne hu ..

/-- **One orderly move.** -/
theorem Fair.step (h : Fair es b) (ho : e.Orderly b) (hs : BoardStep b e b') : Fair (es ++ [e]) b' := by
  intro u m' hu
  by_cases hut : u = e.target
  · subst hut
    cases hs with
    | create t hnew =>
      cases (update_self ..).symm.trans hu
      exact .empty rfl
    | fork parent child m hm hnew =>
      cases (update_self ..).symm.trans hu
      exact .empty (ho m hm)
    | forkFail parent => exact ho.elim
    | kill t sig m hm hlow hhigh =>
      cases (update_self ..).symm.trans hu
      exact (h t m hm).kill hhigh (ho m hm)
    | sigaction t sig act m hm =>
      cases (update_self ..).symm.trans hu
      exact ((h t m hm).snoc (e := .sigaction t sig act) (fun _ heq => by cases heq) fun hmk => hmk).sub rfl (.refl _)
    | take t m hm hsome =>
      cases (update_self ..).symm.trans hu
      exact (h t m hm).take
    | act t sig m p ps hm htop hsig hlow hhigh hfirst =>
      cases (update_self ..).symm.trans hu
      exact (h t m hm).act htop hsig hhigh
    | done t m p ps hm htop hnone =>
      cases (update_self ..).symm.trans hu
      exact ((h t m hm).snoc (e := .done t) (fun _ heq => by cases heq) fun hmk => hmk).sub rfl
        (htop ▸ List.sublist_cons_self p ps)
    | exit t =>
      have hu := (update_self ..).symm.trans hu
      obtain ⟨m, hm, rfl⟩ := Option.map_eq_some_iff.mp hu
      exact ((h t m hm).snoc (e := .exit t) (fun _ heq => by cases heq) fun hmk => hmk).sub rfl (List.nil_sublist _)
    | reap t => cases (update_self ..).symm.trans hu
  · rw [hs.other hut] at hu
    refine (h u m' hu).snoc (fun sig heq => ?_) fun hmk => ?_
    · rw [heq] at hut
      exact hut rfl
    · cases e <;> first | exact hmk.elim | exact hut hmk.symm

theorem Fair.run (h : Fair past b) (hr : Run (fun b e b' => e.Orderly b ∧ BoardStep b e b') b es b') :
    Fair (past ++ es) b' := by
  induction hr generalizing past with
  | nil b =>
    rw [List.append_nil]
    exact h
  | @cons b b1 b2 e es hs _ ih =>
    have hrest := ih (h.step hs.1 hs.2)
    rwa [List.append_assoc, List.singleton_append] at hrest

theorem QuietBoard.fair (h : QuietBoard b) : Fair [] b := by
  intro t m hm
  obtain ⟨hpending, hbatches⟩ := h t m hm
  obtain ⟨y, bs⟩ := m
  dsimp only at hpending hbatches
  subst hbatches
  exact .empty hpending

/-- A pending signal stays pending as long as the mask is not taken and the task not replaced. -/
theorem BoardStep.pending (hs : BoardStep b e b') (ho : e.Orderly b) (htake : e ≠ .take t) (hmakes : ¬ e.makes t)
    (h : ∀ m, b t = some m → m.signals.pending.getLsbD sig = true) :
    ∀ m, b' t = some m → m.signals.pending.getLsbD sig = true := by
  intro m' hm'
  by_cases hut : t = e.target
  · subst hut
    cases hs with
    | create t hnew => exact absurd rfl hmakes
    | fork parent child m hm hnew => exact absurd rfl hmakes
    | forkFail parent => exact ho.elim
    | kill t j m hm hlow hhigh =>
      cases (update_self ..).symm.trans hm'
      dsimp only
      rw [Signals.getLsbD_post _ hhigh, h m hm, Bool.true_or]
    | sigaction t j act m hm =>
      cases (update_self ..).symm.trans hm'
      exact h m hm
    | take t m hm hsome => exact absurd rfl htake
    | act t j m p ps hm htop hsig hlow hhigh hfirst =>
      cases (update_self ..).symm.trans hm'
      exact h m hm
    | done t m p ps hm htop hnone =>
      cases (update_self ..).symm.trans hm'
      exact h m hm
    | exit t =>
      have hm' := (update_self ..).symm.trans hm'
      obtain ⟨m, hm, rfl⟩ := Option.map_eq_some_iff.mp hm'
      exact h m hm
    | reap t => cases (update_self ..).symm.trans hm'
  · rw [hs.other hut] at hm'
    exact h m' hm'

/-- **Signals reach their target, once for each post**: a signal that is acted on was posted to this very task and not
    acted on since; and a signal that was posted stays pending until the mask is taken, unless the task ends. -/
structure Delivered (es : List BoardMove) (b : Board) : Prop where
  posted : ∀ pre t sig post, es = pre ++ .act t sig :: post → Answers pre t sig
  stays : ∀ pre t sig post, es = pre ++ .kill t sig :: post → .take t ∉ post → (∀ e ∈ post, ¬ e.makes t) →
    ∀ m, b t = some m → m.signals.pending.getLsbD sig = true

theorem delivered_of_run (h0 : QuietBoard b₀)
    (hr : Run (fun b e b' => e.Orderly b ∧ BoardStep b e b') b₀ es b) : Delivered es b := by
  refine ⟨fun pre t sig post hes => ?_, fun pre t sig post hes htake hmakes m hm => ?_⟩
  · subst hes
    obtain ⟨b₁, hpre, hrest⟩ := hr.split
    have hfair := h0.fair.run hpre
    cases hrest with
    | cons hs _ =>
      cases hs.2 with
      | act t sig m p ps hm htop hsig hlow hhigh hfirst =>
        exact (hfair t m hm).posted (.inr ⟨p, htop ▸ .head _, hsig⟩)
  · subst hes
    obtain ⟨b₁, _, hrest⟩ := hr.split
    cases hrest with
    | @cons _ b₂ _ _ _ hs hpost =>
      have hset : ∀ m, b₂ t = some m → m.signals.pending.getLsbD sig = true := by
        intro m hm
        cases hs.2 with
        | kill t sig m₁ hm₁ hlow hhigh =>
          cases (update_self ..).symm.trans hm
          dsimp only
          rw [Signals.getLsbD_post _ hhigh, decide_eq_true rfl, Bool.or_true]
      have hmem := hpost.and_mem (P := fun _ e => e ≠ .take t ∧ ¬ e.makes t)
        fun _ e he => ⟨fun heq => htake (heq ▸ he), hmakes e he⟩
      refine hmem.invariant (I := fun b => ∀ m, b t = some m → m.signals.pending.getLsbD sig = true)
        (fun b e b' h hstep => ?_) hset m hm
      exact hstep.2.2.pending hstep.2.1 hstep.1.1 hstep.1.2 h

/-! ## 5. The calls of Lifecycle.lean -/

section Calls

open Wp

variable {s s' s₁ : Sched} {x : Task} {y : Signals} {pid : Int} {P : Prop}

/-- The signal struct of a task. -/
def Sched.signalsOf (s : Sched) (t : Nat) : Option Signals :=
  (s.tasks t).bind fun x => x.signal.bind s.signals

/-- The move of `sys_kill`: the signal is posted to the first task with the pid. -/
def killMoves (s : Sched) (pid sig : Int) : List BoardMove :=
  if 0 < sig ∧ sig < maxSignals then ((s.holder pid).map (.kill · sig.toNat)).toList else []

/-- The parent of a task that ends gets SIGCHLD. -/
def notes (s : Sched) : List BoardMove :=
  (((s.tasks s.current).bind (·.parent)).bind s.tasks).elim [] fun y => killMoves s y.pid SIGCHLD

/-- The moves of the loop of `signal_deliver` over the copy of the mask in `y`; `ends` are those of `sys_exit`. -/
def loopMoves (t : Nat) (ends : List BoardMove) (y : Signals) : List Nat → List BoardMove
  | [] => [.done t]
  | sig :: sigs =>
    if y.pending.getLsbD sig then
      .act t sig :: if y.actions sig = .dfl ∧ defaultAction sig = .exit then ends else loopMoves t ends y sigs
    else loopMoves t ends y sigs

/-- The moves that a call makes. -/
def moves (s : Sched) : Event → List BoardMove
  | .create (.ok true) => [.create s.nextTask]
  | .fork .ok => [.fork s.current s.nextTask]
  | .fork .noMm | .fork .noFiles => [.forkFail s.current]
  | .kill pid sig => killMoves s pid sig
  | .sigaction sig act =>
    if (sig ≤ 0 ∨ sig ≥ maxSignals) ∨ sig = SIGKILL ∨ sig = SIGSTOP then [] else [.sigaction s.current sig.toNat act]
  | .deliver =>
    match s.signalsOf s.current with
    | some y =>
      if y.pending = 0 then []
      else .take s.current :: loopMoves s.current (.exit s.current :: notes s) y (List.range' 1 (maxSignals - 1))
    | none => []
  | .exit _ => .exit s.current :: notes s
  | .waitpid pid _ => (((s.tasks s.current).bind fun x => s.zombie pid x.children).map .reap).toList
  | _ => []

/-- No task with a signal pending forks, and no fork fails while the child still has its parent's struct. -/
def Event.Orderly (s : Sched) : Event → Prop
  | .fork .ok => ∀ y, s.signalsOf s.current = some y → y.pending = 0
  | .fork .noMm | .fork .noFiles => False
  | _ => True

/-- The board with the signal structs of the kernel; between two calls no copy of a mask is being worked through. -/
def boardOf (s : Sched) : Board := fun t => (s.signalsOf t).map (⟨·, []⟩)

/-- A move that is orderly if `P` holds. -/
def CalmStep (P : Prop) (b : Board) (e : BoardMove) (b' : Board) : Prop := (P → e.Orderly b) ∧ BoardStep b e b'

theorem signalsOf_eq (hx : s.tasks t = some x) (hg : x.signal = some g) : s.signalsOf t = s.signals g := by
  rw [Sched.signalsOf, hx]
  change x.signal.bind s.signals = _
  rw [hg]
  rfl

/-- Writing or freeing the signal struct of one task leaves those of the others. -/
theorem signalsOf_update (h : SignalsApart s) (hx : s.tasks t = some x) (hg : x.signal = some g)
    (y : Option Signals) :
    ({ s with signals := update s.signals g y } : Sched).signalsOf = update s.signalsOf t y := by
  funext u
  by_cases hut : u = t
  · subst hut
    rw [update_self, signalsOf_eq (s := { s with signals := update s.signals g y }) hx hg]
    exact update_self ..
  · rw [update_of_ne hut, Sched.signalsOf, Sched.signalsOf]
    cases hu : s.tasks u with
    | none => rfl
    | some z =>
      change z.signal.bind (update s.signals g y) = z.signal.bind s.signals
      cases hz : z.signal with
      | none => rfl
      | some k =>
        have hkg : k ≠ g := fun heq => hut (h.sole hu hx (heq ▸ hz) hg)
        exact update_of_ne hkg ..

/-- Fields other than `signal` do not matter. -/
theorem signalsOf_put {z : Task} (hx : s.tasks t = some x) (hz : z.signal = x.signal) :
    (s.put t z).signalsOf = s.signalsOf := by
  funext u
  rw [Sched.signalsOf, Sched.signalsOf]
  change ((update s.tasks t (some z)) u).bind _ = _
  by_cases hut : u = t
  · subst hut
    rw [update_self, hx]
    change z.signal.bind s.signals = x.signal.bind s.signals
    rw [hz]
  · rw [update_of_ne hut]
    rfl

theorem boardOf_write {y : Option Signals} (h : s'.signalsOf = update s.signalsOf t y) :
    boardOf s' = update (boardOf s) t (y.map (⟨·, []⟩)) := by
  funext u
  rw [boardOf, h]
  by_cases hu : u = t
  · rw [hu, update_self, update_self]
  · rw [update_of_ne hu, update_of_ne hu]
    rfl

theorem boardOf_congr (h : s'.signalsOf = s.signalsOf) : boardOf s' = boardOf s := by
  unfold boardOf
  rw [h]

theorem boardOf_some (h : s.signalsOf t = some y) : boardOf s t = some ⟨y, []⟩ := by
  rw [boardOf, h]
  rfl

theorem boardOf_none (h : s.tasks t = none) : boardOf s t = none := by
  rw [boardOf, Sched.signalsOf, h]
  rfl

/-! ### 5.1 Calls that leave the signals alone -/

theorem schedule_signalsOf (s : Sched) : wp Any schedule (fun _ s' => s'.signalsOf = s.signalsOf) s :=
  wp_schedule (fun _ _ hx => signalsOf_put hx rfl) fun n x k _ hx =>
    signalsOf_put (s := s.rotate n) (z := { x with timeSlice := k, inSleep := false }) hx rfl

theorem sleepOn_signalsOf (s : Sched) (q : Nat) : wp Any (sleepOn q) (fun _ s' => s'.signalsOf = s.signalsOf) s :=
  wp_sleepOn fun x hx => wp_imp (schedule_signalsOf _) fun _ _ h =>
    h.trans (signalsOf_put (z := { x with state := .sleeping, inSleep := true }) hx rfl)

theorem schedTick_signalsOf (s : Sched) : wp Any schedTick (fun _ s' => s'.signalsOf = s.signalsOf) s :=
  wp_schedTick rfl (fun _ _ hx => signalsOf_put hx rfl) fun _ _ hx =>
    wp_imp (schedule_signalsOf _) fun _ _ h => h.trans (signalsOf_put hx rfl)

theorem wakeUp_signalsOf (s : Sched) (q : Nat) : wp Any (wakeUp q) (fun _ s' => s'.signalsOf = s.signalsOf) s :=
  wp_wakeUp (fun _ => rfl) fun t x _ hx =>
    signalsOf_put (s := s.unwait t) (z := { x with state := .running }) hx rfl

theorem wakeLoop_signalsOf {q : Nat} (fuel : Nat) (pos n : Node) (h : s'.signalsOf = s.signalsOf) :
    wp Any (wakeLoop q fuel pos n) (fun _ s'' => s''.signalsOf = s.signalsOf) s' := by
  induction fuel generalizing s' pos n with
  | zero => trivial
  | succ fuel ih =>
    unfold wakeLoop
    split
    · exact h
    · cases pos with
      | head q' => trivial
      | entry t =>
        refine wp_then (wp_wakeTask fun x hx => wp_then (ih _ _ ?_))
        exact (signalsOf_put (s := s'.unwait t) (z := { x with state := .running }) hx rfl).trans h

/-! ### 5.2 Calls that post -/

theorem sysKill_moves (P : Prop) (h : SignalsApart s) (sig : Int) : wp Any (sysKill pid sig)
    (fun _ s' => Run (CalmStep P) (boardOf s) (killMoves s pid sig) (boardOf s')) s := by
  have hpost : ∀ {t x g y s'}, Found s pid sig t x g y → s'.signalsOf = (s.post g y sig).signalsOf →
      Run (CalmStep P) (boardOf s) (killMoves s pid sig) (boardOf s') := by
    intro t x g y s' hf hs
    have hb := boardOf_some ((signalsOf_eq hf.task hf.own).trans hf.struct)
    rw [killMoves, if_pos ⟨hf.low, hf.high⟩, hf.pid, boardOf_congr hs,
      boardOf_write (signalsOf_update h hf.task hf.own _)]
    have hlow := hf.low
    have hhigh := hf.high
    refine .cons ⟨fun _ m hm p hp => ?_, .kill _ t sig.toNat ⟨y, []⟩ hb (by omega) (by omega)⟩ (.nil _)
    cases hb.symm.trans hm
    exact absurd hp List.not_mem_nil
  refine wp_sysKill (fun _ hnone => ?_) (fun t x g y hf _ => hpost hf rfl) fun t x g y hf _ => hpost hf ?_
  · rw [killMoves]
    split
    · rename_i hsig
      rw [hnone hsig.1 hsig.2]
      exact .nil _
    · exact .nil _
  · exact signalsOf_put (s := s.post g y sig) (z := { x with state := .running }) hf.task rfl

theorem holder_same (hs : SameTasks SameId s s') (pid : Int) : s'.holder pid = s.holder pid := by
  have hpids : ∀ t, (s'.tasks t).map (·.pid) = (s.tasks t).map (·.pid) := by
    intro t
    cases ht : s.tasks t with
    | none => rw [hs.gone ht]
    | some x =>
      obtain ⟨x', hx', hid⟩ := hs.alive ht
      rw [hx', Option.map_some, Option.map_some, hid.pid]
  unfold Sched.holder
  rw [hs.list]
  congr 1
  funext t
  have hany := congrArg (Option.any fun p : Nat => decide ((p : Int) = pid)) (hpids t)
  rwa [Option.any_map, Option.any_map] at hany

theorem killMoves_same (hs : SameTasks SameId s s') (pid sig : Int) : killMoves s' pid sig = killMoves s pid sig := by
  rw [killMoves, killMoves, holder_same hs]

theorem notes_same (hs : SameFamily s s') (hcur : s'.current = s.current) : notes s' = notes s := by
  unfold notes
  rw [hcur]
  cases hx : s.tasks s.current with
  | none =>
    rw [hs.gone hx]
    rfl
  | some x =>
    obtain ⟨x', hx', hkin⟩ := hs.alive hx
    rw [hx', Option.bind_some, Option.bind_some, hkin.parent]
    cases x.parent with
    | none => rfl
    | some p =>
      rw [Option.bind_some, Option.bind_some]
      cases hy : s.tasks p with
      | none =>
        rw [hs.gone hy]
        rfl
      | some y =>
        obtain ⟨y', hy', hkin⟩ := hs.alive hy
        rw [hy', Option.elim_some, Option.elim_some, hkin.pid, killMoves_same hs.ids]

theorem exitNotify_moves (P : Prop) (h : SignalsApart s) (hx : s.tasks s.current = some x)
    (hids : SameTasks SameId s s₁) (hof : s₁.signalsOf = s.signalsOf) : wp Any (exitNotify x)
    (fun _ s' => Run (CalmStep P) (boardOf s) (notes s) (boardOf s')) s₁ := by
  rw [notes, hx, Option.bind_some, ← boardOf_congr hof, exitNotify]
  cases x.parent with
  | none => exact .nil _
  | some p =>
    refine wp_then (wp_getTask fun y hy => ?_)
    obtain ⟨y', hy', hid⟩ := hids.back hy
    rw [Option.bind_some, hy', Option.elim_some, ← hid.pid, ← killMoves_same hids]
    refine wp_seq (sysKill_moves P (h.same hids) SIGCHLD) fun _ s2 h2 => wp_wakeUpProcess fun z hz => ?_
    have hwoken : boardOf (s2.enqueue p { z with state := .running }) = boardOf s2 :=
      boardOf_congr (signalsOf_put (z := { z with state := .running }) hz rfl)
    rwa [hwoken]

theorem sysExit_moves (P : Prop) (h : SignalsApart s) (code : Int) : wp Any (sysExit code)
    (fun _ s' => Run (CalmStep P) (boardOf s) (notes s) (boardOf s')) s := by
  rw [sysExit, wp_bind, wp_currentTask, wp_bind]
  refine wp_getTask fun x hx => ?_
  rw [wp_bind, wp_setTask]
  refine wp_seq (exitNotify_moves P h hx (sameIds_put hx ⟨rfl, rfl, rfl⟩) (signalsOf_put hx rfl)) fun _ s1 h1 =>
    wp_then (wp_findTaskByPid ?_)
  generalize Sched.holder _ _ = init
  refine wp_seq (wp_reparent (I := fun s2 => s2.signalsOf = s1.signalsOf) (fun s2 t y h hy => ?_) rfl)
    fun _ s2 h2 => ?_
  · exact (signalsOf_put (z := { y with parent := init, ppid := 1 }) hy rfl).trans h
  rw [wp_bind, wp_schedRemove, wp_bind]
  refine wp_imp (schedule_signalsOf _) fun _ s3 h3 => ?_
  rw [wp_bind, wp_currentTask]
  split
  · trivial
  · rw [wp_pure, boardOf_congr (h3.trans h2)]
    exact h1

/-! ### 5.3 Delivery -/

/-- The loop from the signal `i` on: the copy still has the signals from there on. -/
theorem deliverLoop_moves (P : Prop) (h : SignalsApart s₁) {i n : Nat} (hi : 0 < i) (hn : i + n = maxSignals)
    (hy : boardOf s₁ s₁.current = some ⟨{ y with pending := 0 }, []⟩)
    (hp : ∀ j, 0 < j → p.getLsbD j = (decide (i ≤ j) && y.pending.getLsbD j)) (hcur : s.current = s₁.current)
    (hs : SameFamily s₁ s) (hof : s.signalsOf = s₁.signalsOf) :
    wp Any (deliverLoop s₁.current y (List.range' i n)) (fun _ s' => Run (CalmStep P)
      (update (boardOf s₁) s₁.current (some ⟨{ y with pending := 0 }, [p]⟩))
      (loopMoves s₁.current (.exit s₁.current :: notes s₁) y (List.range' i n)) (boardOf s')) s := by
  have hback : ∀ m, update (update (boardOf s₁) s₁.current m) s₁.current (some ⟨{ y with pending := 0 }, []⟩) =
      boardOf s₁ := by
    intro m
    rw [Function.update_idem, ← hy, Function.update_eq_self]
  induction n generalizing i p s with
  | zero =>
    have hdone := BoardStep.done (update (boardOf s₁) s₁.current (some ⟨{ y with pending := 0 }, [p]⟩))
        s₁.current _ p []
      (update_self ..) rfl fun j hj hlt => by rw [hp j hj, decide_eq_false (by omega), Bool.false_and]
    rw [hback] at hdone
    refine .cons ⟨fun _ => trivial, hdone⟩ ?_
    rw [boardOf_congr hof]
    exact .nil _
  | succ n ih =>
    rw [List.range'_succ, deliverLoop, loopMoves]
    by_cases hset : y.pending.getLsbD i = true
    · have hbit : ∀ j, 0 < j → (p &&& ~~~(1#64 <<< i)).getLsbD j = (decide (i + 1 ≤ j) && y.pending.getLsbD j) := by
        intro j hj
        rw [Bool.eq_iff_iff, getLsbD_clear p (by omega), hp j hj, Bool.and_eq_true, Bool.and_eq_true,
          decide_eq_true_iff, decide_eq_true_iff, and_right_comm]
        exact and_congr_left fun _ => by omega
      have hact := BoardStep.act (update (boardOf s₁) s₁.current (some ⟨{ y with pending := 0 }, [p]⟩))
          s₁.current i _ p []
        (update_self ..) rfl (by rw [hp i hi, hset, decide_eq_true le_rfl]; rfl) hi (by omega)
        fun j hj hlt => by rw [hp j hj, decide_eq_false (by omega), Bool.false_and]
      rw [Function.update_idem] at hact
      have hrest := fun {s} hcur hs hof => ih (s := s) (Nat.succ_pos i) (by omega) hbit hcur hs hof
      have hfirst : CalmStep P _ (.act s₁.current i) _ := ⟨fun _ => trivial, hact⟩
      have hnext := wp_imp (hrest hcur hs hof) fun _ _ hr => Run.cons hfirst hr
      rw [if_pos hset, if_pos hset]
      cases hh : y.actions i with
      | ign => exact hnext
      | user a => exact hnext
      | dfl =>
        cases hd : defaultAction i with
        | nothing => exact hnext
        | stop =>
          refine wp_then (wp_modifyTask fun z hz => wp_then (wp_schedRemove.mpr ?_))
          have hput := hs.put hz (SameKin.withState z .stopped (by decide) z.timeSlice z.inSleep)
          refine wp_imp (hrest hcur (hput.congr rfl rfl rfl rfl rfl rfl) ?_) fun _ _ hr => .cons hfirst hr
          exact (signalsOf_put (z := { z with state := .stopped }) hz rfl).trans hof
        | exit =>
          refine wp_imp (sysExit_moves P (h.same hs.ids) _) fun _ s' hr => ?_
          rw [boardOf_congr hof, notes_same hs hcur] at hr
          have hend := BoardStep.exit (update (boardOf s₁) s₁.current
            (some ⟨{ y with pending := 0 }, [p &&& ~~~(1#64 <<< i)]⟩)) s₁.current
          rw [update_self, Option.map_some, hback] at hend
          exact .cons hfirst (.cons ⟨fun _ => trivial, hend⟩ hr)
    · rw [if_neg hset, if_neg hset]
      refine ih (Nat.succ_pos i) (by omega) (fun j hj => ?_) hcur hs hof
      rw [hp j hj]
      by_cases hij : i = j
      · rw [← hij, Bool.eq_false_iff.mpr hset, Bool.and_false, Bool.and_false]
      · rw [decide_eq_decide.mpr (show i ≤ j ↔ i + 1 ≤ j by omega)]

theorem signalDeliver_moves (P : Prop) (h : SignalsApart s) : wp Any signalDeliver
    (fun _ s' => Run (CalmStep P) (boardOf s) (moves s .deliver) (boardOf s')) s := by
  rw [signalDeliver, wp_bind, wp_currentTask, wp_bind]
  refine wp_getTask fun x hx => ?_
  cases hg : x.signal with
  | none =>
    have hof : s.signalsOf s.current = none := by
      rw [Sched.signalsOf, hx, Option.bind_some, hg, Option.bind_none]
    rw [moves, hof]
    exact .nil _
  | some g =>
    refine wp_then (wp_getSignals fun g' y hg' hy => ?_)
    cases hg'
    have hof : s.signalsOf s.current = some y := (signalsOf_eq hx hg).trans hy
    rw [moves, hof]
    dsimp only
    split
    · exact .nil _
    · rename_i hpending
      have htaken := boardOf_write (signalsOf_update h hx hg (some { y with pending := 0 }))
      have htake := BoardStep.take (boardOf s) s.current ⟨y, []⟩ (boardOf_some hof) hpending
      have hapart := h.same ((SameFamily.refl s).post hy { y with pending := 0 }).ids
      rw [wp_bind, wp_setSignals]
      refine wp_imp (deliverLoop_moves P hapart (n := maxSignals - 1) (y := y) (p := y.pending) Nat.one_pos rfl ?_
        (fun j hj => ?_) rfl (SameFamily.refl _) rfl) fun _ s' hr => ?_
      · rw [htaken]
        exact update_self ..
      · rw [decide_eq_true (Nat.succ_le_of_lt hj), Bool.true_and]
      · rw [htaken, Function.update_idem] at hr
        exact .cons ⟨fun _ => trivial, htake⟩ hr

/-! ### 5.4 Calls that make or free a struct -/

theorem spawn_signalsOf (z : Task) : wp Any (linkTask z) (fun t s' => wp Any (schedAdd t) (fun _ s'' =>
    s''.signalsOf = update s.signalsOf s.nextTask (z.signal.bind s.signals)) s') s := by
  refine wp_linkTask fun w hw => wp_schedAdd fun v hv => ?_
  refine (signalsOf_put (z := { v with state := .running }) hv rfl).trans ?_
  refine (signalsOf_put (z := { w with children := w.children ++ [s.nextTask] }) hw rfl).trans ?_
  funext u
  change (update s.tasks s.nextTask (some z) u).bind (fun x => x.signal.bind s.signals) = _
  by_cases hu : u = s.nextTask
  · rw [hu, update_self, update_self]
    rfl
  · rw [update_of_ne hu, update_of_ne hu]
    rfl

/-- A new task with a new signal struct. -/
theorem child_board (h : SignalsApart s) {z : Task} (hz : z.signal = some s.nextSignal) (y : Signals) :
    wp Any (linkTask z) (fun t s' => wp Any (schedAdd t) (fun _ s'' =>
      boardOf s'' = update (boardOf s) s.nextTask (some ⟨y, []⟩)) s') (s.addSignals (some y)) := by
  have hold : (s.addSignals (some y)).signalsOf = s.signalsOf := by
    funext u
    change (s.tasks u).bind (fun x => x.signal.bind (update s.signals s.nextSignal (some y))) = _
    rw [Sched.signalsOf]
    cases hu : s.tasks u with
    | none => rfl
    | some v =>
      change v.signal.bind (update s.signals s.nextSignal (some y)) = v.signal.bind s.signals
      cases hg : v.signal with
      | none => rfl
      | some k => exact update_of_ne (Nat.ne_of_lt (h.older hu hg)) ..
  refine wp_imp (spawn_signalsOf z) fun t s1 h1 => wp_imp h1 fun _ s2 h2 => ?_
  have hnew : z.signal.bind (s.addSignals (some y)).signals = some y := by
    rw [hz]
    exact update_self ..
  rw [hold, hnew] at h2
  exact boardOf_write h2

theorem signalsOf_reaped (h : SignalsApart s) {c : Nat} {y : Task} (hcur : s.tasks s.current = some x)
    (hy : s.tasks c = some y) : (s.reaped c x y).signalsOf = update s.signalsOf c none := by
  funext u
  by_cases huc : u = c
  · have hgone : (s.reaped c x y).tasks c = none := update_self ..
    rw [huc, update_self, Sched.signalsOf, hgone]
    rfl
  · rw [update_of_ne huc]
    cases hu : s.tasks u with
    | none =>
      rw [Sched.signalsOf, Sched.signalsOf, reaped_none hcur hu, hu]
      rfl
    | some z =>
      rw [Sched.signalsOf, reaped_alive hcur hu huc, Sched.signalsOf, hu]
      change z.signal.bind (s.reaped c x y).signals = z.signal.bind s.signals
      cases hz : z.signal with
      | none => rfl
      | some k =>
        rw [Sched.reaped]
        cases hg : y.signal with
        | none => rfl
        | some g => exact update_of_ne (fun he : k = g => huc (h.sole hu hy hz (he ▸ hg))) ..

theorem exit_boardOf (s : Sched) (t : Nat) : BoardStep (boardOf s) (.exit t) (boardOf s) := by
  have hexit := BoardStep.exit (boardOf s) t
  have hsame : (boardOf s t).map (fun m => { m with batches := [] }) = boardOf s t := by
    rw [boardOf, Option.map_map]
    rfl
  rwa [hsame, Function.update_eq_self] at hexit

theorem taskCreate_moves (P : Prop) (h : SignalsApart s) (r : CreateOutcome) : wp Any (taskCreate r)
    (fun _ s' => Run (CalmStep P) (boardOf s) (moves s (.create r)) (boardOf s')) s := by
  have hfree : boardOf s s.nextTask = none := boardOf_none (h.fresh le_rfl)
  cases r with
  | noSlab => exact .nil _
  | noResource => exact wp_then (wp_allocPid fun _ _ => .nil _)
  | ok signal =>
    rw [taskCreate, wp_bind]
    refine wp_allocPid_eq ?_
    rw [wp_bind, wp_currentTask, wp_bind]
    refine wp_getTask fun x hx => ?_
    cases signal with
    | true =>
      simp only [if_true, wp_bind]
      have htook : SignalsApart s.tookPid := ⟨h.sole, h.older, h.fresh⟩
      refine wp_newSignals ((wp_pure _).mpr
        (wp_imp (child_board htook rfl _) fun t s1 ht => wp_imp ht fun _ s2 h2 => ?_))
      rw [h2]
      exact .cons ⟨fun _ => trivial, .create _ _ hfree⟩ (.nil _)
    | false =>
      simp only [Bool.false_eq_true, if_false, wp_bind, wp_pure]
      refine wp_imp (spawn_signalsOf _) fun t s1 ht => wp_imp ht fun _ s2 h2 => ?_
      have hsame : boardOf s2 = boardOf s :=
        (boardOf_write (s := s) h2).trans (Function.update_eq_self_iff.mpr hfree.symm)
      rw [hsame]
      exact .nil _

theorem sysFork_moves (h : SignalsApart s) (r : ForkOutcome) (hP : P → (Event.fork r).Orderly s) : wp Any (sysFork r)
    (fun _ s' => Run (CalmStep P) (boardOf s) (moves s (.fork r)) (boardOf s')) s := by
  rw [sysFork, wp_bind, wp_currentTask, wp_bind]
  refine wp_getTask fun x hx => ?_
  cases r with
  | noSlab => exact .nil _
  | noSignal | noStack => exact wp_then (wp_allocPid fun _ _ => .nil _)
  | noMm | noFiles =>
    have hfreed := BoardStep.forkFail (boardOf s) s.current
    refine wp_then (wp_allocPid fun _ k => ?_)
    cases hg : x.signal with
    | none =>
      have hof : boardOf s s.current = none := by
        rw [boardOf, Sched.signalsOf, hx, Option.bind_some, hg]
        rfl
      rw [Function.update_eq_self_iff.mpr hof.symm] at hfreed
      exact .cons ⟨fun hp => (hP hp).elim, hfreed⟩ (.nil _)
    | some g =>
      have hwrite := boardOf_write (signalsOf_update h hx hg none)
      rw [Option.map_none] at hwrite
      rw [← hwrite] at hfreed
      exact .cons ⟨fun hp => (hP hp).elim, hfreed⟩ (.nil _)
  | ok =>
    refine wp_then (wp_allocPid_eq (wp_then (wp_getSignals fun g y hg hy => ?_)))
    have hof : s.signalsOf s.current = some y := (signalsOf_eq hx hg).trans hy
    have htook : SignalsApart s.tookPid := ⟨h.sole, h.older, h.fresh⟩
    refine wp_then (wp_newSignals (wp_seq (child_board htook rfl y) fun t s1 ht => wp_seq ht fun _ s2 h2 => ?_))
    rw [wp_pure, h2]
    refine .cons ⟨fun hp m hm => ?_, .fork _ _ _ _ (boardOf_some hof) (boardOf_none (h.fresh le_rfl))⟩ (.nil _)
    cases (boardOf_some hof).symm.trans hm
    exact hP hp y hof

theorem sysSigaction_moves (P : Prop) (h : SignalsApart s) (sig : Int) (act : Handler) : wp Any (sysSigaction sig act)
    (fun _ s' => Run (CalmStep P) (boardOf s) (moves s (.sigaction sig act)) (boardOf s')) s := by
  rw [moves, sysSigaction]
  split
  · rename_i hbad
    rw [if_pos (.inl hbad)]
    exact .nil _
  · split
    · rename_i hbad
      rw [if_pos (.inr hbad)]
      exact .nil _
    · rename_i hvalid hfixed
      rw [if_neg (fun hbad => hbad.elim hvalid hfixed), wp_bind, wp_currentTask, wp_bind]
      refine wp_getTask fun x hx => wp_then (wp_getSignals fun g y hg hy => ?_)
      have hmove := BoardStep.sigaction (boardOf s) s.current sig.toNat act _
        (boardOf_some ((signalsOf_eq hx hg).trans hy))
      rw [wp_bind, wp_setSignals, wp_pure, boardOf_write (signalsOf_update h hx hg _)]
      exact .cons ⟨fun _ => trivial, hmove⟩ (.nil _)

theorem sysWaitpid_moves (P : Prop) (h : SignalsApart s) (options : Nat) : wp Any (sysWaitpid pid options)
    (fun _ s' => Run (CalmStep P) (boardOf s) (moves s (.waitpid pid options)) (boardOf s')) s := by
  refine wp_sysWaitpid (fun x hx hno => ?_) fun c x y hx hfirst hc hy hz => ?_
  · have hnone : s.zombie pid x.children = none := by
      refine List.find?_eq_none.mpr fun c hc hzomb => ?_
      cases hy : s.tasks c with
      | none =>
        rw [hy] at hzomb
        cases hzomb
      | some y =>
        rw [hy] at hzomb
        exact hno c ⟨hc, y, hy, of_decide_eq_true hzomb⟩
    rw [moves, hx, Option.bind_some, hnone]
    refine ⟨.nil _, wp_imp (sleepOn_signalsOf s waitQ) fun _ s' hs => ?_⟩
    rw [boardOf_congr hs]
    exact .nil _
  · rw [moves, hx, Option.bind_some, hfirst, boardOf_write (signalsOf_reaped h hx hy)]
    exact .cons ⟨fun _ => trivial, .reap _ c⟩ (.nil _)

/-! ### 5.5 Runs -/

/-- **Every call makes its moves**: they lead from the signal structs before it to those after it. -/
theorem exec_moves (h : SignalsApart s) {c : Event} (hP : P → c.Orderly s) (hc : Exec s c s') :
    Run (CalmStep P) (boardOf s) (moves s c) (boardOf s') := by
  obtain ⟨fuel, hexec⟩ := hc
  refine wp_ok (E := Any) (Q := fun _ s' => Run (CalmStep P) (boardOf s) (moves s c) (boardOf s')) ?_ hexec
  have hsilent : ∀ {f : M Unit}, wp Any f (fun _ s' => s'.signalsOf = s.signalsOf) s →
      wp Any f (fun _ s' => Run (CalmStep P) (boardOf s) [] (boardOf s')) s :=
    fun hf => wp_imp hf fun _ s' hs => by
      rw [boardOf_congr hs]
      exact .nil _
  cases c with
  | create r => exact taskCreate_moves P h r
  | fork r => exact wp_seq (sysFork_moves h r hP) fun _ _ hr => hr
  | exit code => exact wp_imp (sysExit_moves P h code) fun _ _ hr => .cons ⟨fun _ => trivial, exit_boardOf ..⟩ hr
  | waitpid pid options => exact wp_seq (sysWaitpid_moves P h options) fun _ _ hr => hr
  | kill pid sig => exact wp_seq (sysKill_moves P h sig) fun _ _ hr => hr
  | sigaction sig act => exact wp_seq (sysSigaction_moves P h sig act) fun _ _ hr => hr
  | deliver => exact signalDeliver_moves P h
  | sleepOn q => exact hsilent (sleepOn_signalsOf s q)
  | wakeUp q => exact hsilent (wakeUp_signalsOf s q)
  | wakeUpAll q => exact hsilent (wp_then (wakeLoop_signalsOf fuel _ _ rfl))
  | schedule => exact hsilent (schedule_signalsOf s)
  | tick => exact hsilent (schedTick_signalsOf s)

/-- A call with the moves it makes. -/
def Logged (s : Sched) (l : Event × List BoardMove) (s' : Sched) : Prop := l.2 = moves s l.1 ∧ Exec s l.1 s'

variable {calls : List (Event × List BoardMove)}

theorem run_moves (h : SignalsApart s) (hr : Run (fun s l s' => (P → l.1.Orderly s) ∧ Logged s l s') s calls s') :
    Run (CalmStep P) (boardOf s) (calls.flatMap Prod.snd) (boardOf s') := by
  induction hr with
  | nil s => exact .nil _
  | cons hs _ ih =>
    obtain ⟨hP, hmoves, hexec⟩ := hs
    rw [List.flatMap_cons, hmoves]
    exact (exec_moves h hP hexec).append (ih (h.step hexec.lineage))

theorem quiet_schedInit : QuietBoard (boardOf schedInit) := by
  intro t m hm
  obtain ⟨y, hy, _⟩ := Option.map_eq_some_iff.mp hm
  obtain ⟨x, hx, hy⟩ := Option.bind_eq_some_iff.mp hy
  rw [schedInit_task hx] at hy
  cases hy

/-- The calls with their moves, evaluated. -/
def logged (s : Sched) (l : Event × List BoardMove) : Option Sched := if l.2 = moves s l.1 then next s l.1 else none

theorem logged_run (calls : List (Event × List BoardMove)) (h : (calls.foldlM logged schedInit).isSome = true) :
    ∃ s, Run Logged schedInit calls s := by
  obtain ⟨s, hs⟩ := Option.isSome_iff_exists.mp h
  refine ⟨s, ((run_iff_foldlM logged _ s calls).mpr hs).mono fun s l s' hl => ?_⟩
  have hl : logged s l = some s' := hl
  obtain ⟨hmoves, hnext⟩ := Option.ite_none_right_eq_some.mp hl
  exact ⟨hmoves, exec_of_next hnext⟩

/-- A task is made, SIGCHLD posted to it, and it delivers it. -/
def sentAndTaken : List (Event × List BoardMove) :=
  [(.create (.ok true), [.create 1]), (.kill 1 SIGCHLD, [.kill 1 SIGCHLD]), (.schedule, []),
    (.deliver, [.take 1, .act 1 SIGCHLD, .done 1])]

/-- SIGTERM is posted to task 1, which forks before it takes it. -/
def forkedWithSignal : List (Event × List BoardMove) :=
  [(.create (.ok true), [.create 1]), (.schedule, []), (.kill 1 SIGTERM, [.kill 1 SIGTERM]), (.fork .ok, [.fork 1 2]),
    (.schedule, []), (.schedule, []), (.deliver, [.take 2, .act 2 SIGTERM, .exit 2, .kill 1 SIGCHLD])]

end Calls

end OreUnix.Proc
