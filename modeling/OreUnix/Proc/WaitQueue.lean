/-
  Subject: STATES AND QUEUES AGREE: who sleeps is on one wait queue, who does not is on none.

  * `OnWait D s W` -- the wait queues of `s` are the lists `W`; the tasks on them are exactly those that sleep, and
    these are inside `sleep_on`. `D` are tasks that were zombies once: they still are, or are gone;
  * one lemma for each change of the state, one rule for each function, `exec_settled` for all calls; what happens to
    the run queue is known from RunQueue.lean;
  * `states_agree_with_queues` -- in every run in which no sleeper is killed, no task goes to sleep when nobody else
    can run, and no exit finds its parent asleep, on the run queue or a zombie;
  * `kill_leaves_runner_waiting` -- a signal makes a sleeper run and leaves it on its wait queue.
-/
import OreUnix.Proc.RunQueue

namespace OreUnix.Proc

open Function (update update_of_ne update_self update_apply)
open CircularList Wp Lts

variable {s s' : Sched} {D : Nat → Prop} {W : Nat → List Nat} {t q : Nat} {x x' : Task}
variable {e : Event} {es : List Event} {pid : Int} {ws : List Nat}

/-! ## 1. The wait queues as lists of tasks -/

structure OnWait (D : Nat → Prop) (s : Sched) (W : Nat → List Nat) : Prop where
  rings : Rings s.waitLinks Node.head fun q => (W q).map .entry
  asleep : ∀ {t x}, s.tasks t = some x → (x.state = .sleeping ↔ ∃ q, t ∈ W q)
  alive : ∀ {q t}, t ∈ W q → ∃ x, s.tasks t = some x
  inside : ∀ {t x}, s.tasks t = some x → x.state = .sleeping → x.inSleep = true
  fresh : ∀ {t}, s.nextTask ≤ t → s.tasks t = none
  dead : ∀ {t x}, D t → s.tasks t = some x → x.state = .zombie
  old : ∀ {t}, D t → t < s.nextTask

theorem OnWait.live_lt (h : OnWait D s W) (hx : s.tasks t = some x) : t < s.nextTask := by
  by_contra hlt
  rw [h.fresh (Nat.not_lt.mp hlt)] at hx
  cases hx

theorem OnWait.notMem (h : OnWait D s W) (hx : s.tasks t = some x) (hs : x.state ≠ .sleeping) (q : Nat) :
    t ∉ W q := fun ht => hs ((h.asleep hx).mpr ⟨q, ht⟩)

theorem OnWait.off (h : ∀ q, t ∉ W q) (q : Nat) : Node.entry t ∉ Node.head q :: (W q).map .entry := entry_notMem (h q)

section Changes

variable (h : OnWait D s W)

include h

/-- The wait queues are read off three fields of the state. -/
theorem OnWait.congr (htasks : s'.tasks = s.tasks) (hlinks : s'.waitLinks = s.waitLinks)
    (hnext : s'.nextTask = s.nextTask) : OnWait D s' W := by
  obtain ⟨h1, h2, h3, h4, h5, h6, h7⟩ := h
  refine ⟨hlinks ▸ h1, ?_, ?_, ?_, ?_, ?_, ?_⟩
  · rw [htasks]
    exact h2
  · rw [htasks]
    exact h3
  · rw [htasks]
    exact h4
  · rw [htasks, hnext]
    exact h5
  · rw [htasks]
    exact h6
  · rw [hnext]
    exact h7

/-- A task with other fields; it sleeps if it did. -/
theorem OnWait.put (hx : s.tasks t = some x)
    (hst : x'.state = .sleeping ↔ x.state = .sleeping) (hin : x'.state = .sleeping → x'.inSleep = true)
    (hdead : D t → x'.state = .zombie) : OnWait D (s.put t x') W := by
  refine ⟨h.rings, fun {u y} hu => ?_, fun {q u} hu => ?_, fun {u y} hu hs => ?_, fun {u} hu => ?_,
    fun {u y} hd hu => ?_, h.old⟩
  · by_cases hut : u = t
    · subst hut
      cases (put_self ..).symm.trans hu
      exact hst.trans (h.asleep hx)
    · exact h.asleep ((put_of_ne hut x').symm.trans hu)
  · by_cases hut : u = t
    · subst hut
      exact ⟨x', put_self ..⟩
    · obtain ⟨y, hy⟩ := h.alive hu
      exact ⟨y, (put_of_ne hut x').trans hy⟩
  · by_cases hut : u = t
    · subst hut
      cases (put_self ..).symm.trans hu
      exact hin hs
    · exact h.inside ((put_of_ne hut x').symm.trans hu) hs
  · have hlt := h.live_lt hx
    exact (put_of_ne (Nat.ne_of_gt (Nat.lt_of_lt_of_le hlt hu)) x').trans (h.fresh hu)
  · by_cases hut : u = t
    · subst hut
      cases (put_self ..).symm.trans hu
      exact hdead hd
    · exact h.dead hd ((put_of_ne hut x').symm.trans hu)

theorem OnWait.touch (hx : s.tasks t = some x) (hst : x'.state = x.state)
    (hin : x'.inSleep = x.inSleep) : OnWait D (s.put t x') W := by
  refine h.put hx (by rw [hst]) (fun hs => ?_) fun hd => ?_
  · rw [hin]
    exact h.inside hx (hst ▸ hs)
  · rw [hst]
    exact h.dead hd hx

/-- A task that is awake gets another state in which it is awake. -/
theorem OnWait.awake (hx : s.tasks t = some x) (hs : x.state ≠ .sleeping)
    (hs' : x'.state ≠ .sleeping) (hdead : D t → x'.state = .zombie) : OnWait D (s.put t x') W :=
  h.put hx ⟨fun h' => absurd h' hs', fun h' => absurd h' hs⟩ (fun h' => absurd h' hs') hdead

/-- A task falls asleep on the queue `q`. -/
theorem OnWait.sleep (hx : s.tasks t = some x) (hs : x.state ≠ .sleeping)
    (hz : x.state ≠ .zombie) (hs' : x'.state = .sleeping) (hin : x'.inSleep = true) (q : Nat) :
    OnWait D { s.put t x' with waitLinks := s.waitLinks.addTail (.entry t) (.head q) }
      (update W q (W q ++ [t])) := by
  have hnot := h.notMem hx hs
  have hmem : ∀ k u, u ∈ update W q (W q ++ [t]) k ↔ u ∈ W k ∨ (k = q ∧ u = t) := by
    intro k u
    rw [update_apply]
    split
    · rename_i hk
      rw [hk, List.mem_append, List.mem_singleton]
      exact or_congr_right (and_iff_right rfl).symm
    · rename_i hk
      exact ⟨.inl, fun hu => hu.resolve_right fun hc => hk hc.1⟩
  refine ⟨?_, fun {u y} hu => ?_, fun {k u} hu => ?_, fun {u y} hu hy => ?_, fun {u} hu => ?_,
    fun {u y} hd hu => ?_, h.old⟩
  · have hadd := h.rings.addTail (fun k => OnWait.off hnot k) q
    have hlists : update (fun k => (W k).map Node.entry) q ((W q).map .entry ++ [.entry t]) =
        fun k => (update W q (W q ++ [t]) k).map .entry := by
      funext k
      rw [update_apply, update_apply]
      split
      · rw [List.map_append, List.map_singleton]
      · rfl
    rw [hlists] at hadd
    exact hadd
  · simp only [hmem]
    by_cases hut : u = t
    · subst hut
      cases (put_self ..).symm.trans hu
      exact ⟨fun _ => ⟨q, .inr ⟨rfl, rfl⟩⟩, fun _ => hs'⟩
    · have hold := h.asleep ((put_of_ne hut x').symm.trans hu)
      rw [hold]
      exact exists_congr fun k => (or_iff_left fun hc => hut hc.2).symm
  · by_cases hut : u = t
    · subst hut
      exact ⟨x', put_self ..⟩
    · obtain ⟨y, hy⟩ := h.alive (((hmem k u).mp hu).resolve_right fun hc => hut hc.2)
      exact ⟨y, (put_of_ne hut x').trans hy⟩
  · by_cases hut : u = t
    · subst hut
      cases (put_self ..).symm.trans hu
      exact hin
    · exact h.inside ((put_of_ne hut x').symm.trans hu) hy
  · have hlt := h.live_lt hx
    exact (put_of_ne (Nat.ne_of_gt (Nat.lt_of_lt_of_le hlt hu)) x').trans (h.fresh hu)
  · have hut : u ≠ t := by
      intro he
      exact hz (h.dead (he ▸ hd) hx)
    exact h.dead hd ((put_of_ne hut x').symm.trans hu)

/-- A sleeping task is taken off its queue and runs. -/
theorem OnWait.wake (ht : t ∈ W q) (hx : s.tasks t = some x) (hs' : x'.state = .running) :
    OnWait D { s.put t x' with waitLinks := s.waitLinks.del (.entry t) } fun k => (W k).filter (· ≠ t) := by
  have hs : x.state = .sleeping := (h.asleep hx).mpr ⟨q, ht⟩
  have hmem : ∀ k u, u ∈ (W k).filter (· ≠ t) ↔ u ∈ W k ∧ u ≠ t := by
    intro k u
    rw [List.mem_filter, decide_eq_true_eq]
  refine ⟨?_, fun {u y} hu => ?_, fun {k u} hu => ?_, fun {u y} hu hy => ?_, fun {u} hu => ?_,
    fun {u y} hd hu => ?_, h.old⟩
  · have hdel := h.rings.del (n := .entry t) fun _ he => by cases he
    simp only [map_entry_filter] at hdel
    exact hdel
  · simp only [hmem]
    by_cases hut : u = t
    · subst hut
      cases (put_self ..).symm.trans hu
      refine ⟨fun hc => ?_, fun ⟨_, _, hc⟩ => absurd rfl hc⟩
      rw [hs'] at hc
      cases hc
    · rw [h.asleep ((put_of_ne hut x').symm.trans hu)]
      exact exists_congr fun k => (and_iff_left hut).symm
  · obtain ⟨huW, hut⟩ := (hmem k u).mp hu
    obtain ⟨y, hy⟩ := h.alive huW
    exact ⟨y, (put_of_ne hut x').trans hy⟩
  · by_cases hut : u = t
    · subst hut
      cases (put_self ..).symm.trans hu
      rw [hs'] at hy
      cases hy
    · exact h.inside ((put_of_ne hut x').symm.trans hu) hy
  · have hlt := h.live_lt hx
    exact (put_of_ne (Nat.ne_of_gt (Nat.lt_of_lt_of_le hlt hu)) x').trans (h.fresh hu)
  · have hut : u ≠ t := by
      intro he
      have hz := h.dead (he ▸ hd) hx
      rw [hs] at hz
      cases hz
    exact h.dead hd ((put_of_ne hut x').symm.trans hu)

/-- A new task sleeps nowhere. -/
theorem OnWait.link (hx : x.state = .running) : OnWait D (s.link x) W := by
  have hnone : s.tasks s.nextTask = none := h.fresh le_rfl
  have hnot : ∀ k, s.nextTask ∉ W k := by
    intro k hk
    obtain ⟨y, hy⟩ := h.alive hk
    rw [hnone] at hy
    cases hy
  have hother : ∀ u, u ≠ s.nextTask → (s.link x).tasks u = s.tasks u := fun u hu => update_of_ne hu ..
  have hself : (s.link x).tasks s.nextTask = some x := update_self ..
  refine ⟨h.rings.init fun k => OnWait.off hnot k, fun {u y} hu => ?_, fun {k u} hu => ?_,
    fun {u y} hu hy => ?_, fun {u} hu => ?_, fun {u y} hd hu => ?_, fun hd => Nat.lt_succ_of_lt (h.old hd)⟩
  · by_cases hut : u = s.nextTask
    · subst hut
      cases hself.symm.trans hu
      rw [hx]
      exact ⟨(fun hc => by cases hc), fun ⟨k, hk⟩ => absurd hk (hnot k)⟩
    · exact h.asleep ((hother u hut).symm.trans hu)
  · obtain ⟨y, hy⟩ := h.alive hu
    have hut : u ≠ s.nextTask := fun he => hnot k (he ▸ hu)
    exact ⟨y, (hother u hut).trans hy⟩
  · by_cases hut : u = s.nextTask
    · subst hut
      cases hself.symm.trans hu
      rw [hx] at hy
      cases hy
    · exact h.inside ((hother u hut).symm.trans hu) hy
  · have hu : s.nextTask + 1 ≤ u := hu
    exact (hother u (by omega)).trans (h.fresh (by omega))
  · have hut : u ≠ s.nextTask := Nat.ne_of_lt (h.old hd)
    exact h.dead hd ((hother u hut).symm.trans hu)

/-- A zombie is freed. -/
theorem OnWait.free (hx : s.tasks t = some x) (hz : x.state = .zombie) :
    OnWait D { s with tasks := update s.tasks t none } W := by
  have hnot : ∀ k, t ∉ W k := h.notMem hx (by rw [hz]; decide)
  have hother : ∀ {u y}, update s.tasks t none u = some y → u ≠ t ∧ s.tasks u = some y := by
    intro u y hu
    rw [update_apply] at hu
    split at hu
    · cases hu
    · exact ⟨‹_›, hu⟩
  refine ⟨h.rings, fun hu => h.asleep (hother hu).2, fun {k u} hu => ?_, fun hu => h.inside (hother hu).2,
    fun {u} hu => ?_, fun hd hu => h.dead hd (hother hu).2, h.old⟩
  · obtain ⟨y, hy⟩ := h.alive hu
    have hut : u ≠ t := fun he => hnot k (he ▸ hu)
    exact ⟨y, (update_of_ne hut ..).trans hy⟩
  · by_cases hut : u = t
    · subst hut
      exact update_self ..
    · exact (update_of_ne hut ..).trans (h.fresh hu)

end Changes

/-! ## 2. What each function does to the wait queues -/

/-- The running task neither sleeps nor is a zombie. -/
def Awake (s : Sched) : Prop :=
  ∃ x, s.tasks s.current = some x ∧ x.state ≠ .sleeping ∧ x.state ≠ .zombie

structure Settled (D : Nat → Prop) (s : Sched) : Prop where
  wait : ∃ W, OnWait D s W
  awake : Awake s

theorem Awake.congr (h : Awake s) (htasks : s'.tasks s.current = s.tasks s.current)
    (hcur : s'.current = s.current) : Awake s' := by
  rw [Awake, hcur, htasks]
  exact h

/-- Another task, or the running one in the state it was in, is written. -/
theorem Awake.put (h : Awake s) (hst : t = s.current → x'.state ≠ .sleeping ∧ x'.state ≠ .zombie) :
    Awake (s.put t x') := by
  by_cases hcur : s.current = t
  · subst hcur
    exact ⟨x', put_self .., hst rfl⟩
  · exact h.congr (put_of_ne hcur x') rfl

theorem settled_stable : Stable (Settled D) where
  quiet := by
    intro s s' h htasks _ hlinks hnext hcur
    obtain ⟨⟨W, hW⟩, ha⟩ := h
    exact ⟨⟨W, hW.congr htasks hlinks hnext⟩, ha.congr (by rw [htasks]) hcur⟩
  touch := by
    intro s t x x' h hx hst hin
    obtain ⟨⟨W, hW⟩, ha⟩ := h
    refine ⟨⟨W, hW.touch hx hst hin⟩, ha.put fun ht => ?_⟩
    obtain ⟨y, hy, hs⟩ := ha
    subst ht
    cases hx.symm.trans hy
    rw [hst]
    exact hs
  link := by
    intro s x h hst _
    obtain ⟨⟨W, hW⟩, ha⟩ := h
    refine ⟨⟨W, hW.link hst⟩, ha.congr (update_of_ne ?_ ..) rfl⟩
    obtain ⟨y, hy, _⟩ := ha
    exact Nat.ne_of_lt (hW.live_lt hy)
  join := by
    intro s t x h hx hst _
    obtain ⟨⟨W, hW⟩, ha⟩ := h
    have hput : OnWait D (s.put t { x with state := .running }) W := hW.touch hx hst.symm rfl
    refine ⟨⟨W, hput.congr rfl rfl rfl⟩, ?_⟩
    have hawake : Awake (s.put t { x with state := .running }) :=
      ha.put fun _ => ⟨(fun hc => by cases hc), (fun hc => by cases hc)⟩
    exact hawake.congr rfl rfl
  free := by
    intro s t x h hx hz
    obtain ⟨⟨W, hW⟩, ha⟩ := h
    refine ⟨⟨W, hW.free hx hz⟩, ha.congr (update_of_ne ?_ ..) rfl⟩
    obtain ⟨y, hy, _, hnz⟩ := ha
    intro he
    subst he
    cases hx.symm.trans hy
    exact hnz hz

/-- `schedule` with an empty queue comes back to its caller, who must not sleep. -/
theorem OnWait.schedule (h : OnWait D s W) (hr : RunOk s)
    (hidle : s.runLinks.next runqueue = runqueue → ∀ x, s.tasks s.current = some x → x.state ≠ .sleeping) :
    wp Any schedule (fun _ s' => OnWait D s' W ∧ (Awake s' ∨ s.runLinks.next runqueue = runqueue ∧
      s'.current = s.current ∧
      ∀ x, s.tasks s.current = some x → s'.tasks s.current = some { x with inSleep := false })) s := by
  refine wp_schedule (fun hempty x hx => ⟨?_, .inr ⟨hempty, rfl, fun y hy => ?_⟩⟩) fun n x k hn hx => ?_
  · have hs := hidle hempty x hx
    exact h.awake hx hs hs fun hd => h.dead (x := x) hd hx
  · cases hx.symm.trans hy
    exact put_self ..
  · obtain ⟨ts, hq⟩ := hr
    obtain ⟨rest, rfl, _⟩ := hq.rotate hn
    have hrun : x.state = .running := hq.state_ok hx (.head _)
    have hput : OnWait D (s.put n { x with timeSlice := k, inSleep := false }) W := by
      refine h.awake hx ?_ ?_ fun hd => h.dead (x := x) hd hx
      · rw [hrun]
        decide
      · rw [hrun]
        decide
    refine ⟨hput.congr rfl rfl rfl, .inl ⟨_, put_self .., ?_, ?_⟩⟩
    · rw [hrun]
      decide
    · rw [hrun]
      decide

theorem Settled.schedule (h : Settled D s) (hr : RunOk s) : wp Any schedule (fun _ s' => Settled D s') s := by
  obtain ⟨⟨W, hW⟩, x, hx, hs, hz⟩ := h
  refine wp_imp (hW.schedule hr fun _ y hy => ?_) fun _ s' hs' => ?_
  · cases hx.symm.trans hy
    exact hs
  · obtain ⟨hW', ha | ⟨_, hcur, hsame⟩⟩ := hs'
    · exact ⟨⟨W, hW'⟩, ha⟩
    · exact ⟨⟨W, hW'⟩, { x with inSleep := false }, hcur ▸ hsame x hx, hs, hz⟩

theorem Settled.tick (h : Settled D s) (hr : RunOk s) : wp Any schedTick (fun _ s' => Settled D s') s := by
  refine wp_schedTick h (fun x k hx => settled_stable.touch h hx rfl rfl) fun x k hx => ?_
  exact Settled.schedule (settled_stable.touch h hx rfl rfl) (hr.touch hx rfl)

/-- Somebody else is on the run queue. -/
def Other (s : Sched) : Prop := (s.runLinks.del (.entry s.current)).next runqueue ≠ runqueue

theorem Settled.sleepOn (h : Settled D s) (hr : RunOk s) (ho : Other s) (q : Nat) :
    wp Any (sleepOn q) (fun _ s' => Settled D s') s := by
  obtain ⟨⟨W, hW⟩, x, hx, hs, hz⟩ := h
  refine wp_sleepOn fun y hy => ?_
  cases hx.symm.trans hy
  have hput : OnWait D { s.put s.current { x with state := .sleeping, inSleep := true } with
      waitLinks := s.waitLinks.addTail (.entry s.current) (.head q) } (update W q (W q ++ [s.current])) :=
    hW.sleep hx hs hz rfl rfl q
  have hsleep : OnWait D (s.fallAsleep q x) (update W q (W q ++ [s.current])) := hput.congr rfl rfl rfl
  have hrun : RunOk (s.fallAsleep q x) :=
    (hr.park hx { x with state := .sleeping, inSleep := true }).congr rfl rfl rfl
  refine wp_imp (hsleep.schedule hrun fun hempty => absurd hempty ho) fun _ s' hs' => ?_
  exact ⟨⟨_, hs'.1⟩, hs'.2.resolve_right fun hc => ho hc.1⟩

theorem mem_of_front (h : IsRing s.waitLinks (.head q) (ws.map .entry)) (ht : s.waitLinks.next (.head q) = .entry t) :
    t ∈ ws := by
  have hhead := h.next_head
  rw [ht] at hhead
  cases ws with
  | nil => cases hhead
  | cons u us =>
    cases hhead
    exact .head _

/-- Who sleeps is off the run queue. -/
theorem RunOk.alone_sleeper (h : RunOk s) (hx : s.tasks t = some x) (hs : x.state = .sleeping) :
    Alone s.runLinks (.entry t) := by
  obtain ⟨ts, h⟩ := h
  refine h.notMem_iff.mp fun ht => ?_
  cases hs.symm.trans (h.state_ok hx ht)

theorem Settled.wake (h : OnWait D s W) (ha : Awake s) (ht : t ∈ W q) (hx : s.tasks t = some x) :
    OnWait D ((s.unwait t).enqueue t { x with state := .running }) (fun k => (W k).filter (· ≠ t)) ∧
      Awake ((s.unwait t).enqueue t { x with state := .running }) := by
  have hwake : OnWait D { s.put t { x with state := .running } with waitLinks := s.waitLinks.del (.entry t) }
      fun k => (W k).filter (· ≠ t) := h.wake ht hx rfl
  have hput : Awake (s.put t { x with state := .running }) :=
    ha.put fun _ => ⟨(fun hc => by cases hc), (fun hc => by cases hc)⟩
  exact ⟨hwake.congr rfl rfl rfl, hput.congr rfl rfl⟩

theorem Settled.wakeUp (h : Settled D s) (q : Nat) : wp Any (wakeUp q) (fun _ s' => Settled D s') s := by
  refine wp_wakeUp (fun _ => h) fun t x ht hx => ?_
  obtain ⟨⟨W, hW⟩, ha⟩ := h
  obtain ⟨hW', ha'⟩ := Settled.wake hW ha (mem_of_front (hW.rings.ring q) ht) hx
  exact ⟨⟨_, hW'⟩, ha'⟩

theorem Settled.wakeUpAll (h : Settled D s) (fuel q : Nat) :
    wp Any (wakeUpAll fuel q) (fun _ s' => Settled D s') s := by
  obtain ⟨⟨W, hW⟩, ha⟩ := h
  refine wp_wakeUpAll (I := fun ws s => ∃ W, OnWait D s W ∧ Awake s ∧ W q = ws) ?_ ?_ ?_ ⟨W, hW, ha, rfl⟩
  · rintro ws s ⟨W, hW, _, rfl⟩
    exact hW.rings.ring q
  · rintro s ⟨W, hW, ha, _⟩
    exact ⟨⟨W, hW⟩, ha⟩
  · rintro t ws s x ⟨W, hW, ha, hws⟩ hnot hx
    obtain ⟨hW', ha'⟩ := Settled.wake hW ha (q := q) (hws ▸ .head _) hx
    exact ⟨_, hW', ha', by rw [hws, List.filter_cons_of_neg (by simp), filter_ne_self hnot]⟩

/-! ## 3. Signals and exit -/

/-- No task of this pid sleeps. -/
def KillOk (s : Sched) (pid : Int) : Prop :=
  ∀ t x, HasPid s pid s.taskList t → s.tasks t = some x → x.state ≠ .sleeping

/-- A signal to tasks that are awake is posted and wakes nobody. -/
theorem wp_sysKill_awake (h : KillOk s pid) (sig : Int) :
    wp Any (sysKill pid sig) (fun _ s' => ∃ g, s' = { s with signals := g }) s := by
  refine wp_sysKill (fun _ _ => ⟨s.signals, rfl⟩) (fun t x g y _ hs => ⟨_, rfl⟩) fun t x g y hf hs => ?_
  exact absurd hs (h t x (hasPid_of_holder hf.pid) hf.task)

theorem Settled.kill (h : Settled D s) {sig : Int} (hk : 0 < sig → sig < maxSignals → KillOk s pid) :
    wp Any (sysKill pid sig) (fun _ s' => Settled D s') s := by
  by_cases hsig : sig ≤ 0 ∨ sig ≥ maxSignals
  · rw [sysKill, if_pos hsig]
    exact h
  have hawake : KillOk s pid := hk (by omega) (by omega)
  refine wp_imp (wp_sysKill_awake hawake sig) fun _ s' hs' => ?_
  obtain ⟨g, rfl⟩ := hs'
  exact settled_stable.quiet h rfl rfl rfl rfl rfl

/-- The parent of the running task is another task, neither asleep nor a zombie nor on the run queue, and nobody with
    its pid sleeps. -/
def ExitOk (s : Sched) : Prop :=
  ∀ x p y, s.tasks s.current = some x → x.parent = some p → s.tasks p = some y →
    p ≠ s.current ∧ y.state ≠ .sleeping ∧ y.state ≠ .zombie ∧ Alone s.runLinks (.entry p) ∧ KillOk s y.pid

theorem ExitOk.notifyOk (h : ExitOk s) : NotifyOk s := by
  intro x p y hx hp hy
  obtain ⟨_, hs, _, ha, _⟩ := h x p y hx hp hy
  exact ⟨hs, ha⟩

/-- The running task gets another state in which it is awake. -/
theorem KillOk.put (h : KillOk s pid) (hs : x'.state ≠ .sleeping) : KillOk (s.put t x') pid := by
  intro u y hu hy
  by_cases hut : u = t
  · subst hut
    cases (put_self ..).symm.trans hy
    exact hs
  · rw [put_of_ne hut] at hy
    obtain ⟨hmem, z, hz, hzp⟩ := hu
    rw [put_of_ne hut] at hz
    exact h u y ⟨hmem, z, hz, hzp⟩ hy

theorem ExitOk.park (h : ExitOk s) (hr : RunOk s) (hx : s.tasks s.current = some x)
    (hpar : x'.parent = x.parent) (hs : x'.state ≠ .sleeping) :
    ExitOk ((s.dequeue s.current).put s.current x') := by
  intro z p y hz hzp hy
  cases (put_self ..).symm.trans hz
  rw [hpar] at hzp
  by_cases hcur : p = s.current
  · exact absurd hcur (h x p x hx hzp (hcur ▸ hx)).1
  · obtain ⟨_, hps, hpz, ha, hk⟩ := h x p y hx hzp ((put_of_ne hcur x').symm.trans hy)
    obtain ⟨ts, hr⟩ := hr
    refine ⟨hcur, hps, hpz, (hr.dequeue s.current).notMem_iff.mp fun hm => ?_, ?_⟩
    · exact hr.notMem_iff.mpr ha (List.mem_of_mem_filter hm)
    · exact KillOk.put (s := s.dequeue s.current) hk hs

/-- While the parent is notified the wait queues do not change: it is awake, and so is everyone the signal reaches. -/
theorem OnWait.exitNotify (h : OnWait D s W)
    (hp : ∀ p y, x.parent = some p → s.tasks p = some y → y.state ≠ .sleeping ∧ y.state ≠ .zombie ∧ KillOk s y.pid) :
    wp Any (exitNotify x) (fun _ s' => OnWait D s' W ∧ s'.current = s.current) s := by
  unfold Proc.exitNotify
  cases hpar : x.parent with
  | none => exact ⟨h, rfl⟩
  | some p =>
    refine wp_then (wp_getTask fun y hy => ?_)
    obtain ⟨hs, hz, hk⟩ := hp p y hpar hy
    refine wp_seq (wp_sysKill_awake hk SIGCHLD) fun _ s1 h1 => ?_
    obtain ⟨g, rfl⟩ := h1
    refine wp_wakeUpProcess fun y' hy' => ?_
    cases hy.symm.trans hy'
    have hput : OnWait D (s.put p { y with state := .running }) W :=
      h.awake hy hs (fun hc => by cases hc) fun hd => absurd (h.dead hd hy) hz
    exact ⟨hput.congr rfl rfl rfl, rfl⟩

theorem Settled.exit (h : Settled D s) (hr : RunOk s) (hp : ExitOk s) (code : Int) :
    wp Any (sysExit code) (fun _ s' => Settled D s') s := by
  obtain ⟨⟨W, hW⟩, x, hx, hs, hz⟩ := h
  obtain ⟨ts, hr⟩ := hr
  rw [sysExit, wp_bind, wp_currentTask, wp_bind]
  refine wp_getTask fun x' hx' => ?_
  cases hx.symm.trans hx'
  rw [wp_bind, wp_setTask, wp_bind]
  have hzombie : OnQueue (exiting s.current)
      (s.put s.current { x with state := .zombie, exitCode := code }) ts :=
    (hr.mono fun _ _ _ hst => .inl hst).put hx fun _ => .inr ⟨rfl, rfl⟩
  have hdead : OnWait D (s.put s.current { x with state := .zombie, exitCode := code }) W :=
    hW.awake hx hs (fun hc => by cases hc) fun _ => rfl
  -- the parent is another task, so it is as it was
  have hpar : ∀ p y, x.parent = some p →
      (s.put s.current { x with state := .zombie, exitCode := code }).tasks p = some y →
      s.tasks p = some y ∧ (y.state ≠ .sleeping ∧ p ∉ ts) ∧ y.state ≠ .zombie ∧
        KillOk (s.put s.current { x with state := .zombie, exitCode := code }) y.pid := by
    intro p y hpar hy
    by_cases hcur : p = s.current
    · exact absurd hcur (hp x p x hx hpar (hcur ▸ hx)).1
    · rw [put_of_ne hcur] at hy
      obtain ⟨_, hps, hpz, ha, hk⟩ := hp x p y hx hpar hy
      exact ⟨hy, ⟨hps, hr.notMem_iff.mpr ha⟩, hpz, hk.put fun hc => by cases hc⟩
  have hboth := wp_and (hzombie.exitNotify fun p y hpx hy => (hpar p y hpx hy).2.1)
    (hdead.exitNotify fun p y hpx hy => have hall := (hpar p y hpx hy).2
      ⟨hall.1.1, hall.2.1, hall.2.2⟩)
  refine wp_mono hboth (fun _ s1 h1 => ?_) fun _ _ => trivial
  obtain ⟨⟨ts1, h1⟩, hW1, hcur1⟩ := h1
  refine wp_then (wp_findTaskByPid ?_)
  generalize Sched.holder _ _ = init
  have hrep : wp Any (reparent init x.children) (fun _ s' =>
      OnQueue (exiting s.current) s' ts1 ∧ OnWait D s' W ∧ s'.current = s.current) s1 :=
    wp_reparent (fun s' t y h' hy => ⟨h'.1.touch hy rfl, h'.2.1.touch hy rfl rfl, h'.2.2⟩) ⟨h1, hW1, hcur1⟩
  refine wp_seq hrep fun _ s2 h2 => ?_
  obtain ⟨h2, hW2, hcur2⟩ := h2
  rw [wp_bind, wp_schedRemove, wp_bind]
  have hleft : RunOk (s2.dequeue s.current) := by
    refine ⟨_, (h2.dequeue s.current).mono fun t ht st hst => hst.resolve_right fun hc => ?_⟩
    exact of_decide_eq_true (List.mem_filter.mp ht).2 hc.1
  have hleftW : OnWait D (s2.dequeue s.current) W := hW2.congr rfl rfl rfl
  refine wp_imp (hleftW.schedule hleft fun _ y hy hsl => ?_) fun _ s3 h3 => ?_
  · rw [show (s2.dequeue s.current).current = s.current from hcur2] at hy
    obtain ⟨k, hk⟩ := (hleftW.asleep hy).mp hsl
    exact hW.notMem hx hs k hk
  · rw [wp_bind, wp_currentTask]
    split
    · trivial
    · rename_i hne
      exact ⟨⟨W, h3.1⟩, h3.2.resolve_right fun hc => hne (hc.2.1.trans hcur2)⟩

/-- A stop leaves the task awake, so the loop goes on as it began. -/
theorem Settled.deliver (h : Settled D s) (hr : RunOk s) (hfatal : Fatal s → ExitOk s) :
    wp Any signalDeliver (fun _ s' => Settled D s') s := by
  refine wp_signalDeliver
    (I := fun s' => s'.current = s.current ∧ Settled D s' ∧ RunOk s' ∧ (Fatal s → ExitOk s')) h
    (fun _ _ _ _ _ _ => ⟨rfl, settled_stable.quiet h rfl rfl rfl rfl rfl, hr.congr rfl rfl rfl, hfatal⟩)
    (fun _ h' => h'.2.1) (fun s' sig h' hf => h'.2.1.exit h'.2.2.1 (h'.2.2.2 hf) _) ?_
  rintro s' x ⟨hcur, hset, hr, hn⟩ hx
  rw [← hcur] at hx ⊢
  have hstop : Settled D ((s'.dequeue s'.current).put s'.current { x with state := .stopped }) := by
    obtain ⟨⟨W, hW⟩, x', hx', hs, hz⟩ := hset
    cases hx.symm.trans hx'
    have hput : OnWait D (s'.put s'.current { x with state := .stopped }) W :=
      hW.awake hx hs (fun hc => by cases hc) fun hd => absurd (hW.dead hd hx) hz
    exact ⟨⟨W, hput.congr rfl rfl rfl⟩, _, put_self .., (fun hc => by cases hc), (fun hc => by cases hc)⟩
  exact ⟨rfl, hstop, hr.park hx { x with state := .stopped }, fun hf => (hn hf).park hr hx rfl fun hc => by cases hc⟩

/-! ## 4. Runs -/

/-- Nobody asleep gets a signal, somebody else can run when the caller goes to sleep, and a task that exits finds its
    parent awake and off the run queue. -/
def Quiet (s : Sched) : Event → Prop
  | .kill pid sig => 0 < sig → sig < maxSignals → KillOk s pid
  | .exit _ => ExitOk s
  | .deliver => Fatal s → ExitOk s
  | .sleepOn _ => Other s
  | .waitpid pid options => WaitSleeps s pid options → Other s
  | _ => True

/-- Both kinds of queue are as the tasks' states say. -/
structure Sound (D : Nat → Prop) (s : Sched) : Prop where
  run : RunOk s
  settled : Settled D s

theorem Sound.admissible (h : Sound D s) (hq : Quiet s e) : Admissible s e := by
  obtain ⟨hr, ⟨W, hW⟩, _⟩ := h
  have hoff : ∀ {q t}, t ∈ W q → Alone s.runLinks (.entry t) := by
    intro q t ht
    obtain ⟨x, hx⟩ := hW.alive ht
    exact hr.alone_sleeper hx ((hW.asleep hx).mpr ⟨q, ht⟩)
  cases e with
  | exit code => exact hq.notifyOk
  | deliver => exact fun hf => (hq hf).notifyOk
  | wakeUp q => exact fun t ht => hoff (mem_of_front (hW.rings.ring q) ht)
  | wakeUpAll q => exact ⟨W q, hW.rings.ring q, fun t ht => hoff ht⟩
  | _ => trivial

theorem exec_settled (h : Sound D s) (hq : Quiet s e) (fuel : Nat) :
    wp Any (e.exec fuel) (fun _ s' => Settled D s') s := by
  obtain ⟨hr, h⟩ := h
  cases e with
  | create r => exact settled_stable.taskCreate h r
  | fork r => exact wp_then (settled_stable.sysFork h r)
  | exit code => exact h.exit hr hq code
  | waitpid pid options =>
    exact wp_then (settled_stable.sysWaitpid h pid options fun hs => h.sleepOn hr (hq hs) waitQ)
  | kill pid sig => exact wp_then (h.kill hq)
  | sigaction sig act => exact wp_then (settled_stable.sysSigaction h sig act)
  | deliver => exact h.deliver hr hq
  | sleepOn q => exact h.sleepOn hr hq q
  | wakeUp q => exact h.wakeUp q
  | wakeUpAll q => exact h.wakeUpAll fuel q
  | schedule => exact h.schedule hr
  | tick => exact h.tick hr

/-- One call of the kind, that comes back. -/
def QuietStep (s : Sched) (e : Event) (s' : Sched) : Prop := Quiet s e ∧ Exec s e s'

theorem Sound.step (h : Sound D s) {e : Event} (hs : QuietStep s e s') : Sound D s' := by
  obtain ⟨hq, fuel, he⟩ := hs
  exact ⟨wp_ok (exec_runOk h.run (h.admissible hq) fuel) he, wp_ok (exec_settled h hq fuel) he⟩

/-- The tasks that are zombies now, to be followed from here on. -/
theorem Sound.follow (h : Sound D s) : Sound (fun t => ∃ x, s.tasks t = some x ∧ x.state = .zombie) s := by
  obtain ⟨hr, ⟨W, hW⟩, ha⟩ := h
  refine ⟨hr, ⟨W, hW.rings, hW.asleep, hW.alive, hW.inside, hW.fresh, fun {t x} hd hx => ?_, fun {t} hd => ?_⟩, ha⟩
  · obtain ⟨y, hy, hz⟩ := hd
    cases hy.symm.trans hx
    exact hz
  · obtain ⟨y, hy, _⟩ := hd
    exact hW.live_lt hy

theorem sound_schedInit : Sound (fun _ => False) schedInit := by
  refine ⟨runOk_schedInit, ⟨fun _ => [], ?_⟩, ?_⟩
  · refine ⟨rings_empty fun _ _ he => Node.head.inj he, fun {t x} hx => ?_, (fun ht => by cases ht),
      fun {t x} hx hs => ?_, schedInit_fresh, (fun hd => hd.elim), fun hd => hd.elim⟩
    · rw [schedInit_task hx]
      refine ⟨(fun hc => by cases hc), fun hc => ?_⟩
      obtain ⟨_, hm⟩ := hc
      cases hm
    · rw [schedInit_task hx] at hs
      cases hs
  · exact ⟨⟨0, 0, .running, 0, none, 0, none, [], false⟩, rfl, by decide, by decide⟩

/-- The lists behind the queues agree with the states of the tasks. -/
structure AgreesWith (s : Sched) (ts : List Nat) (W : Nat → List Nat) : Prop where
  runqueue : IsRing s.runLinks runqueue (ts.map .entry)
  waitqueues : ∀ q, IsRing s.waitLinks (.head q) ((W q).map .entry)
  sleeping : ∀ {t x}, s.tasks t = some x → (x.state = .sleeping ↔ (∃! q, t ∈ W q) ∧ t ∉ ts)
  running : ∀ {t x}, s.tasks t = some x → x.state = .running → ∀ q, t ∉ W q
  offQueues : ∀ {t x}, s.tasks t = some x → x.state = .stopped ∨ x.state = .zombie →
    t ∉ ts ∧ ∀ q, t ∉ W q
  /-- Nobody on a wait queue was reaped, or has come back from `sleep_on`. -/
  waiting : ∀ {q t}, t ∈ W q → ∃ x, s.tasks t = some x ∧ x.inSleep = true

def Agrees (s : Sched) : Prop := ∃ ts W, AgreesWith s ts W

theorem Sound.agrees (h : Sound D s) : Agrees s := by
  obtain ⟨⟨ts, hq⟩, ⟨W, hW⟩, _⟩ := h
  have hoff : ∀ {t x}, s.tasks t = some x → x.state ≠ .running → t ∉ ts := fun hx hs ht => hs (hq.state_ok hx ht)
  refine ⟨ts, W, hq.ring, hW.rings.ring, fun {t x} hx => ⟨fun hs => ?_, fun hc => ?_⟩, fun hx hs => ?_,
    fun {t x} hx hs => ?_, fun {q t} ht => ?_⟩
  · obtain ⟨k, hk⟩ := (hW.asleep hx).mp hs
    refine ⟨⟨k, hk, fun k' hk' => ?_⟩, hoff hx (by rw [hs]; decide)⟩
    exact hW.rings.disjoint (.tail _ (List.mem_map_of_mem hk'))
      (.tail _ (List.mem_map_of_mem hk))
  · obtain ⟨⟨k, hk, _⟩, _⟩ := hc
    exact (hW.asleep hx).mpr ⟨k, hk⟩
  · exact hW.notMem hx (by rw [hs]; decide)
  · rcases hs with hs | hs
    · exact ⟨hoff hx (by rw [hs]; decide), hW.notMem hx (by rw [hs]; decide)⟩
    · exact ⟨hoff hx (by rw [hs]; decide), hW.notMem hx (by rw [hs]; decide)⟩
  · obtain ⟨x, hx⟩ := hW.alive ht
    exact ⟨x, hx, hW.inside hx ((hW.asleep hx).mpr ⟨q, ht⟩)⟩

theorem Sound.run_all (h : Sound D s) (hrun : Run QuietStep s es s') : Sound D s' :=
  hrun.invariant (I := Sound D) (fun _ _ _ h' hs => h'.step hs) h

/-- **States and queues agree** in every state of a run in which no sleeper gets a signal, nobody goes to sleep alone
    and no exit finds its parent asleep, on the run queue or dead; and from any state of such a run on, a zombie stays
    one until it is reaped. -/
theorem states_agree_with_queues {es es' : List Event} (hrun : Run QuietStep schedInit es s)
    (hrun' : Run QuietStep s es' s') :
    Agrees s ∧ Agrees s' ∧ ∀ t x y, s.tasks t = some x → x.state = .zombie → s'.tasks t = some y →
      y.state = .zombie := by
  have h := sound_schedInit.run_all hrun
  have h' := h.follow.run_all hrun'
  refine ⟨h.agrees, h'.agrees, fun t x y hx hz hy => ?_⟩
  obtain ⟨_, ⟨W, hW⟩, _⟩ := h'
  exact hW.dead ⟨x, hx, hz⟩ hy

/-! ## 5. Two runs -/

/-- Two tasks, the first of which runs. -/
def spawnTwo : List Event := [.create (.ok true), .create (.ok true), .schedule]

/-- A task goes to sleep and the other one wakes it. -/
theorem states_agree_with_queues_woken : ∃ s s' : Sched,
    Run QuietStep schedInit (spawnTwo ++ [.sleepOn 1]) s ∧ Run QuietStep s [.wakeUp 1] s' ∧
    Agrees s ∧ Agrees s' ∧ (s.tasks 1).map (·.state) = some .sleeping ∧
    (s'.tasks 1).map (·.state) = some .running := by
  obtain ⟨s₀, h₀, hother, hslept⟩ := exists_exec_run spawnTwo
    (fun s => (s.runLinks.del (.entry s.current)).next runqueue = .entry 2 ∧
      ((next s (.sleepOn 1)).map fun s => ((s.tasks 1).map (·.state),
        (next s (.wakeUp 1)).map fun s => (s.tasks 1).map (·.state))) = some (some .sleeping, some (some .running)))
    (by decide +kernel)
  obtain ⟨s₁, h₁, hfacts⟩ := Option.map_eq_some_iff.mp hslept
  obtain ⟨hs₁, hwoken⟩ := Prod.mk.inj hfacts
  obtain ⟨s₂, h₂, hs₂⟩ := Option.map_eq_some_iff.mp hwoken
  have hother : Other s₀ := by
    rw [Other, hother]
    exact fun hc => by cases hc
  have hrun : Run QuietStep schedInit (spawnTwo ++ [.sleepOn 1]) s₁ := by
    refine (h₀.and_mem fun s e he => ?_).snoc ⟨hother, exec_of_next h₁⟩
    rcases he with _ | ⟨_, _ | ⟨_, _ | ⟨_, he⟩⟩⟩ <;> trivial
  have hwake : Run QuietStep s₁ [.wakeUp 1] s₂ := .cons ⟨trivial, exec_of_next h₂⟩ (.nil _)
  have hall := states_agree_with_queues hrun hwake
  exact ⟨s₁, s₂, hrun, hwake, hall.1, hall.2.1, hs₁, hs₂⟩

/-- A sleeping task gets a signal. -/
def killSleeper : List Event := oneAsleep ++ [.kill 1 SIGUSR1]

/-- Task 1 runs, and is still at the front of its wait queue. -/
theorem kill_leaves_runner_waiting : ∃ s : Sched, Run Exec schedInit killSleeper s ∧
    (s.tasks 1).map (·.state) = some .running ∧ s.waitLinks.next (.head 1) = .entry 1 ∧ ¬ Agrees s := by
  obtain ⟨s, hrun, hstate, hfront⟩ := exists_exec_run killSleeper
    (fun s => (s.tasks 1).map (·.state) = some .running ∧ s.waitLinks.next (.head 1) = .entry 1) (by decide +kernel)
  refine ⟨s, hrun, hstate, hfront, fun hagree => ?_⟩
  obtain ⟨ts, W, hagree⟩ := hagree
  obtain ⟨x, hx, hst⟩ := Option.map_eq_some_iff.mp hstate
  exact hagree.running hx hst 1 (mem_of_front (hagree.waitqueues 1) hfront)

end OreUnix.Proc
