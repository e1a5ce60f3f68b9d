/-
  Subject: THE DIRECTORY IN CR3 while tasks are scheduled, forked, replaced, ended and reaped.

  The calls are cut at every point where the allocator or the scheduler can run: an access of Mm/FrameOps.lean is one
  step, and so is each store of `sys_exit`, `sys_exec`, `sys_fork` and `sys_waitpid` that the directory of a task
  depends on.

  * `Machine`, `Event`, `Step` -- the frame in CR3, the address space and the kernel stack of every task, and the
    frames the calls in progress hold;
  * `InUse` -- CR3 has the kernel's directory or that of a task, no table of which is free;
  * `Sound` -- what every step keeps that satisfies `Event.Safe`;
  * `exit_frees_active` -- `sys_exit` of a task with an address space frees the directory it runs on.
-/
import OreUnix.Mm.FrameOps
import OreUnix.Proc.ExecStack

namespace OreUnix.Active

open ByteMem Pmm Vmm Bitmap FramePool Lts
open Function (update update_of_ne update_self update_eq_self)

variable {A K : Set Nat} {M : Nat → Option UInt8} {as : List Exec.Action} {m : MmStruct} {n t x : Nat} {s s' s0 : Vm}

/-! ## 1. The machine -/

/-- Tasks are numbered; 0 is `kernel_task`, which has neither an address space nor an allocated stack. -/
structure Machine where
  vm : Vm
  cr3 : Nat
  current : Nat
  mm : Nat → Option MmStruct
  /-- The first frame of a task's kernel stack. -/
  stack : Nat → Option Nat
  /-- The frames the calls in progress have taken and not yet handed over. -/
  kept : Set Nat

/-- The task's `task_struct` is not freed. -/
def Machine.Lives (k : Machine) (t : Nat) : Prop := t = 0 ∨ (k.stack t).isSome

def stackFrames (n : Nat) : Set Nat := {f | f = n ∨ f = n + 1}

inductive Event where
  /-- An access of a call to the allocator or to memory. -/
  | access (op : FrameOp)
  /-- `schedule` with the task at the head of the run queue, if there is one. -/
  | schedule (next : Option Nat)
  /-- `mm_destroy(current->mm)` in `sys_exit`, and `current->mm = NULL`. -/
  | exitDestroy
  | exitClear
  /-- `mm_destroy(current->mm)` in `sys_exec`, `current->mm = new_mm`, `paging_switch(new_mm->pgdir)`. -/
  | execDestroy
  | execAssign (mm : MmStruct)
  | execSwitch
  /-- `sys_fork` puts the child on the lists, with its new address space and stack. -/
  | forkDone (child : Nat) (mm : MmStruct) (stack : Nat)
  /-- `sys_fork` fails before `alloc_kstack`: the child still has the parent's stack, which is freed. -/
  | forkUndo
  /-- `task_destroy` of a child: its address space is destroyed, its stack is about to be freed. -/
  | reap (t : Nat)

section Steps

variable (d : Nat)

/-- `mm_destroy(t->mm)`, if there is one. -/
def Machine.destroy (k : Machine) (t : Nat) : Vm :=
  match k.mm t with
  | none => k.vm
  | some m => mmDestroy (d * pageSize) m k.vm

/-- The directory `schedule` loads for a task. -/
def Machine.dirOf (k : Machine) (t : Nat) : Nat :=
  match k.mm t with
  | none => d
  | some m => m.dir

/-- **One step.** A call hands over what it has built from frames it holds. -/
inductive Step : Machine → Event → Machine → Prop
  | access (k : Machine) (op : FrameOp) :
      Step k (.access op) { k with vm := op.exec k.vm, kept := held k.kept k.vm (op.exec k.vm) }
  | idle (k : Machine) : Step k (.schedule none) k
  | stay (k : Machine) : Step k (.schedule (some k.current)) k
  | switch (k : Machine) (t : Nat) (hne : t ≠ k.current) :
      Step k (.schedule (some t)) { k with current := t, cr3 := k.dirOf d t }
  | exitDestroy (k : Machine) : Step k .exitDestroy { k with vm := k.destroy d k.current }
  | exitClear (k : Machine) : Step k .exitClear { k with mm := update k.mm k.current none }
  | execDestroy (k : Machine) : Step k .execDestroy { k with vm := k.destroy d k.current }
  | execAssign (k : Machine) (m : MmStruct) (hown : ∀ f ∈ spaceFrames k.vm m.dir, f ∈ k.kept) :
      Step k (.execAssign m)
        { k with mm := update k.mm k.current (some m), kept := {f | f ∈ k.kept ∧ f ∉ spaceFrames k.vm m.dir} }
  | execSwitch (k : Machine) : Step k .execSwitch { k with cr3 := k.dirOf d k.current }
  | forkDone (k : Machine) (c : Nat) (m : MmStruct) (n : Nat) (hnew : ¬ k.Lives c) (hnone : k.mm c = none)
      (hown : ∀ f ∈ spaceFrames k.vm m.dir, f ∈ k.kept)
      (hstack : ∀ f ∈ stackFrames n, f ∈ k.kept ∧ f ∉ spaceFrames k.vm m.dir) :
      Step k (.forkDone c m n)
        { k with
          mm := update k.mm c (some m)
          stack := update k.stack c (some n)
          kept := {f | f ∈ k.kept ∧ f ∉ spaceFrames k.vm m.dir ∧ f ∉ stackFrames n} }
  | forkUndo (k : Machine) (n : Nat) (hstack : k.stack k.current = some n) :
      Step k .forkUndo { k with vm := (k.vm.free (n * pageSize)).free ((n + 1) * pageSize) }
  | reap (k : Machine) (t n : Nat) (hstack : k.stack t = some n) :
      Step k (.reap t)
        { k with
          vm := k.destroy d t
          mm := update k.mm t none
          stack := update k.stack t none
          kept := {f | f ∈ k.kept ∨ f ∈ stackFrames n} }

/-- **CR3 has a directory in use**: the kernel's, or that of a task's address space, whose frame is not free and whose
    tables are not. -/
def InUse (k : Machine) : Prop :=
  k.cr3 = d ∨ ∃ t m, k.mm t = some m ∧ m.dir = k.cr3 ∧ k.cr3 ∉ pool.free k.vm ∧
    ∀ di < userTables, ∀ x, target k.vm k.cr3 di = some x → x ∉ pool.free k.vm

/-- The steps after which nothing is lost: no task with an address space ends or replaces it, no child with one is
    reaped, no fork fails before `alloc_kstack`, `schedule` finds tasks that exist, and a call writes and frees only
    what it holds. -/
def Event.Safe (k : Machine) : Event → Prop
  | .access op => op.Own k.kept
  | .schedule next => ∀ t, next = some t → k.Lives t
  | .exitDestroy | .exitClear | .execDestroy | .execAssign _ => k.mm k.current = none
  | .execSwitch | .forkDone _ _ _ => True
  | .forkUndo => False
  | .reap t => k.mm t = none

end Steps

/-! ## 2. What safe steps keep -/

variable {d : Nat} {k k' : Machine} {e : Event} {es : List Event}

/-- The frames of the address spaces, those of the stacks and those the calls hold are all apart from each other and
    none is free. -/
structure Sound (d : Nat) (k : Machine) : Prop where
  apart : ∀ f ∈ k.kept, f ∉ pool.free k.vm
  spaces : ∀ {t m}, k.mm t = some m → ∀ f ∈ spaceFrames k.vm m.dir, f ∉ pool.free k.vm ∧ f ∉ k.kept
  stacked : ∀ {t n}, k.stack t = some n → ∀ f ∈ stackFrames n, f ∉ pool.free k.vm ∧ f ∉ k.kept
  own : ∀ {t n u n'}, k.stack t = some n → k.stack u = some n' → ∀ f ∈ stackFrames n, f ∈ stackFrames n' → t = u
  across : ∀ {t n u m}, k.stack t = some n → k.mm u = some m → ∀ f ∈ stackFrames n, f ∉ spaceFrames k.vm m.dir
  loaded : k.cr3 = d ∨ ∃ t m, k.mm t = some m ∧ m.dir = k.cr3

theorem Sound.active (h : Sound d k) : InUse d k := by
  rcases h.loaded with hd | ⟨t, m, hm, hdir⟩
  · exact .inl hd
  · refine .inr ⟨t, m, hm, hdir, ?_, fun di hdi x hx => ?_⟩
    · exact (h.spaces hm k.cr3 ⟨.dir, congrArg some hdir⟩).1
    · rw [← hdir] at hx
      exact (h.spaces hm x ⟨.table di, (frameAt_table hdi).trans hx⟩).1

/-- An access to what is held leaves the address spaces and the stacks alone. -/
theorem Sound.access (h : Sound d k) {op : FrameOp} (hown : op.Own k.kept) :
    Sound d { k with vm := op.exec k.vm, kept := held k.kept k.vm (op.exec k.vm) } := by
  have hconf := FrameOp.confined hown h.apart
  have hframes : ∀ {t m}, k.mm t = some m → spaceFrames (op.exec k.vm) m.dir = spaceFrames k.vm m.dir := by
    intro t m hm
    have hcell : ∀ f ∈ spaceFrames k.vm m.dir, pool.cell (op.exec k.vm) f = pool.cell k.vm f :=
      fun f hf => hconf.same f (h.spaces hm f hf).2 (h.spaces hm f hf).1
    have hat : frameAt (op.exec k.vm) m.dir = frameAt k.vm m.dir :=
      funext (frameAt_congr (hcell m.dir ⟨.dir, rfl⟩) fun di t hdi ht =>
        hcell t ⟨.table di, (frameAt_table hdi).trans ht⟩)
    rw [spaceFrames, spaceFrames, hat]
  have hout : ∀ f, f ∉ pool.free k.vm ∧ f ∉ k.kept →
      f ∉ pool.free (op.exec k.vm) ∧ f ∉ held k.kept k.vm (op.exec k.vm) := fun f hf =>
    ⟨fun hm => (hconf.within f (.inr hm)).elim hf.2 hf.1, fun hm => (hconf.within f (.inl hm)).elim hf.2 hf.1⟩
  refine ⟨hconf.apart, fun hm f hf => ?_, fun hs f hf => hout f (h.stacked hs f hf),
    h.own, fun hs hm f hf => ?_, h.loaded⟩
  · rw [hframes hm] at hf
    exact hout f (h.spaces hm f hf)
  · rw [hframes hm]
    exact h.across hs hm f hf

theorem Sound.load (h : Sound d k) (t c : Nat) : Sound d { k with current := c, cr3 := k.dirOf d t } := by
  refine ⟨h.apart, h.spaces, h.stacked, h.own, h.across, ?_⟩
  change k.dirOf d t = d ∨ ∃ u m, k.mm u = some m ∧ m.dir = k.dirOf d t
  cases hm : k.mm t with
  | none =>
    refine .inl ?_
    rw [Machine.dirOf, hm]
  | some m =>
    refine .inr ⟨t, m, hm, ?_⟩
    rw [Machine.dirOf, hm]

/-- A task gets an address space whose frames a call has held. -/
theorem Sound.handOver (h : Sound d k) (hnone : k.mm t = none) (hown : ∀ f ∈ spaceFrames k.vm m.dir, f ∈ k.kept) :
    Sound d { k with mm := update k.mm t (some m), kept := {f | f ∈ k.kept ∧ f ∉ spaceFrames k.vm m.dir} } := by
  have hcases : ∀ {u m'}, update k.mm t (some m) u = some m' → m' = m ∨ k.mm u = some m' := by
    intro u m' hu
    by_cases hut : u = t
    · rw [hut, update_self] at hu
      exact .inl (Option.some.inj hu).symm
    · rw [update_of_ne hut] at hu
      exact .inr hu
  refine ⟨fun f hf => h.apart f hf.1, fun hu f hf => ?_, fun hs f hf => ?_, h.own, fun hs hu f hf => ?_, ?_⟩
  · rcases hcases hu with rfl | hu
    · exact ⟨h.apart f (hown f hf), fun hk => hk.2 hf⟩
    · exact ⟨(h.spaces hu f hf).1, fun hk => (h.spaces hu f hf).2 hk.1⟩
  · exact ⟨(h.stacked hs f hf).1, fun hk => (h.stacked hs f hf).2 hk.1⟩
  · rcases hcases hu with rfl | hu
    · exact fun hin => (h.stacked hs f hf).2 (hown f hin)
    · exact h.across hs hu f hf
  · refine h.loaded.imp_right fun ⟨u, m', hu, hdir⟩ => ⟨u, m', ?_, hdir⟩
    have hut : u ≠ t := by
      rintro rfl
      rw [hnone] at hu
      cases hu
    change update k.mm t (some m) u = some m'
    rw [update_of_ne hut, hu]

/-- A new task gets a stack a call has held. -/
theorem Sound.pushStack (h : Sound d k) (hnone : k.stack t = none) (hown : ∀ f ∈ stackFrames n, f ∈ k.kept) :
    Sound d { k with stack := update k.stack t (some n), kept := {f | f ∈ k.kept ∧ f ∉ stackFrames n} } := by
  have hcases : ∀ {u n'}, update k.stack t (some n) u = some n' → (u = t ∧ n' = n) ∨ k.stack u = some n' := by
    intro u n' hu
    by_cases hut : u = t
    · rw [hut, update_self] at hu
      exact .inl ⟨hut, (Option.some.inj hu).symm⟩
    · rw [update_of_ne hut] at hu
      exact .inr hu
  refine ⟨fun f hf => h.apart f hf.1, fun hm f hf => ?_, fun hs f hf => ?_, fun hs hs' f hf hf' => ?_,
    fun hs hm f hf => ?_, h.loaded⟩
  · exact ⟨(h.spaces hm f hf).1, fun hk => (h.spaces hm f hf).2 hk.1⟩
  · rcases hcases hs with ⟨_, rfl⟩ | hs
    · exact ⟨h.apart f (hown f hf), fun hk => hk.2 hf⟩
    · exact ⟨(h.stacked hs f hf).1, fun hk => (h.stacked hs f hf).2 hk.1⟩
  · rcases hcases hs with ⟨rfl, rfl⟩ | hold
    · rcases hcases hs' with ⟨rfl, _⟩ | hold'
      · rfl
      · exact absurd (hown f hf) (h.stacked hold' f hf').2
    · rcases hcases hs' with ⟨rfl, rfl⟩ | hold'
      · exact absurd (hown f hf') (h.stacked hold f hf).2
      · exact h.own hold hold' f hf hf'
  · rcases hcases hs with ⟨_, rfl⟩ | hs
    · exact fun hin => (h.spaces hm f hin).2 (hown f hf)
    · exact h.across hs hm f hf

/-- A task without an address space goes, and its stack is held by the call that will free it. -/
theorem Sound.popStack (h : Sound d k) (hs : k.stack t = some n) (hnone : k.mm t = none) :
    Sound d { k with mm := update k.mm t none, stack := update k.stack t none,
                     kept := {f | f ∈ k.kept ∨ f ∈ stackFrames n} } := by
  have hmm : update k.mm t none = k.mm := by
    rw [← hnone, update_eq_self]
  have hcases : ∀ {u n'}, update k.stack t none u = some n' → u ≠ t ∧ k.stack u = some n' := by
    intro u n' hu
    by_cases hut : u = t
    · rw [hut, update_self] at hu
      cases hu
    · rw [update_of_ne hut] at hu
      exact ⟨hut, hu⟩
  rw [hmm]
  refine ⟨fun f hf => ?_, fun hm f hf => ⟨(h.spaces hm f hf).1, fun hk => ?_⟩,
    fun hu f hf => ⟨(h.stacked (hcases hu).2 f hf).1, fun hk => ?_⟩,
    fun hu hu' => h.own (hcases hu).2 (hcases hu').2, fun hu hm => h.across (hcases hu).2 hm, h.loaded⟩
  · rcases hf with hf | hf
    · exact h.apart f hf
    · exact (h.stacked hs f hf).1
  · rcases hk with hk | hk
    · exact (h.spaces hm f hf).2 hk
    · exact h.across hs hm f hk hf
  · rcases hk with hk | hk
    · exact (h.stacked (hcases hu).2 f hf).2 hk
    · exact (hcases hu).1 (h.own (hcases hu).2 hs f hf hk)

theorem destroy_none (h : k.mm t = none) : k.destroy d t = k.vm := by
  rw [Machine.destroy, h]

/-- **One safe step** keeps the machine sound. -/
theorem Sound.step (h : Sound d k) (hsafe : e.Safe k) (hstep : Step d k e k') : Sound d k' := by
  cases hstep with
  | access op => exact h.access hsafe
  | idle => exact h
  | stay => exact h
  | switch t hne => exact h.load t t
  | exitDestroy =>
    rw [destroy_none hsafe]
    exact h
  | exitClear =>
    have hmm : update k.mm k.current none = k.mm := by
      rw [← show k.mm k.current = none from hsafe, update_eq_self]
    rw [hmm]
    exact h
  | execDestroy =>
    rw [destroy_none hsafe]
    exact h
  | execAssign m hown => exact h.handOver hsafe hown
  | execSwitch => exact h.load k.current k.current
  | forkDone c m n hnew hnone hown hstack =>
    have hs : k.stack c = none := by
      rw [Machine.Lives, not_or, Bool.not_eq_true, Option.isSome_eq_false_iff, Option.isNone_iff_eq_none] at hnew
      exact hnew.2
    have hboth := (h.handOver hnone hown).pushStack (n := n) hs fun f hf => hstack f hf
    have hkept : {f | (f ∈ k.kept ∧ f ∉ spaceFrames k.vm m.dir) ∧ f ∉ stackFrames n} =
        {f | f ∈ k.kept ∧ f ∉ spaceFrames k.vm m.dir ∧ f ∉ stackFrames n} := Set.ext fun f => and_assoc
    rw [← hkept]
    exact hboth
  | forkUndo n hstack => exact absurd hsafe not_false
  | reap t n hstack =>
    rw [destroy_none hsafe]
    exact h.popStack hstack hsafe

/-- **Every run of safe steps** leaves a directory in CR3 that is in use, at each of its points. -/
theorem active_of_safe_run {k₀ : Machine} (h0 : Sound d k₀)
    (hr : Run (fun k e k' => e.Safe k ∧ Step d k e k') k₀ es k) : InUse d k :=
  (hr.invariant (I := Sound d) (fun _ _ _ h hstep => h.step hstep.1 hstep.2) h0).active

/-! ## 3. The calls as runs -/

/-- A sequence of accesses is a run. -/
theorem run_of_works (h : Sound d k) (hw : Works k.kept k.vm s) :
    ∃ es, Run (fun k e k' => e.Safe k ∧ Step d k e k') k es { k with vm := s, kept := held k.kept k.vm s } := by
  induction hw with
  | refl =>
    rw [held_self h.apart]
    exact ⟨[], .nil k⟩
  | @step s hw op hown ih =>
    obtain ⟨es, hr⟩ := ih
    have hconf := hw.confined h.apart
    have hkept : held (held k.kept k.vm s) s (op.exec s) = held k.kept k.vm (op.exec s) := by
      ext f
      refine ⟨fun hf => ⟨?_, hf.2⟩, fun hf => ⟨?_, hf.2⟩⟩
      · exact hf.1.elim (fun hin => hin.1) fun hin => hconf.within f (.inr hin)
      · by_cases hin : f ∈ pool.free s
        · exact .inr hin
        · exact .inl ⟨hf.1, hin⟩
    have hlast := Step.access (d := d) { k with vm := s, kept := held k.kept k.vm s } op
    dsimp only at hlast
    rw [hkept] at hlast
    refine ⟨es ++ [.access op], hr.snoc ⟨?_, hlast⟩⟩
    exact hown

/-- **`mm_clone` in `sys_fork`**, whether it succeeds or fails, is a run, and the child's address space consists of
    frames that are held. -/
theorem mmClone_run (h : Sound d k) {src : MmStruct} {r : Option MmStruct} (hwf : WellFormed k.vm src)
    (hclone : mmClone (d * pageSize) src k.vm = (r, s')) :
    ∃ es k', Run (fun k e k' => e.Safe k ∧ Step d k e k') k es k' ∧ k'.vm = s' ∧
      ∀ dst, r = some dst → ∀ f ∈ spaceFrames k'.vm dst.dir, f ∈ k'.kept := by
  have hworks := mmClone_works h.apart (d * pageSize) hwf .refl
  rw [hclone] at hworks
  obtain ⟨es, hr⟩ := run_of_works h hworks
  refine ⟨es, _, hr, rfl, ?_⟩
  rintro dst rfl f ⟨slot, hk⟩
  obtain ⟨N, _, htake, _, hspace, _⟩ := mmClone_spec hwf hclone
  exact ⟨.inr (htake.was_free f (hspace.owned hk)), htake.disjoint f (hspace.owned hk)⟩

/-- A machine without tasks. -/
def alone (d : Nat) (s : Vm) : Machine := ⟨s, d, 0, fun _ => none, fun _ => none, ∅⟩

theorem alone_sound (d : Nat) (s : Vm) : Sound d (alone d s) :=
  ⟨fun f hf => absurd hf (Set.notMem_empty f), fun h => (by cases h), fun h => (by cases h), fun h => (by cases h),
    fun h => (by cases h), .inl rfl⟩

/-- A task whose address space has one page. -/
def onePageTask : Machine := ⟨onePage, 0, 0, fun t => if t = 1 then some onePageMm else none, fun _ => none, ∅⟩

theorem onePageTask_sound : Sound 0 onePageTask := by
  refine ⟨fun f hf => absurd hf (Set.notMem_empty f), fun {t m} hm f hf => ?_, fun h => (by cases h),
    fun h => (by cases h), fun h => (by cases h), .inl rfl⟩
  obtain rfl : m = onePageMm := by
    change (if t = 1 then some onePageMm else none) = some m at hm
    split at hm
    · exact (Option.some.inj hm).symm
    · cases hm
  exact ⟨onePage_wellFormed.apart f hf, Set.notMem_empty f⟩

/-- The clone of an address space with one page. -/
theorem mmClone_run_created : ∃ dst es k', onePageTask.mm 1 = some onePageMm ∧
    Run (fun k e k' => e.Safe k ∧ Step 0 k e k') onePageTask es k' ∧
    mmClone 0 onePageMm onePage = (some dst, k'.vm) ∧ ∀ f ∈ spaceFrames k'.vm dst.dir, f ∈ k'.kept := by
  obtain ⟨dst, s', hclone⟩ := onePage_clones
  obtain ⟨es, k', hr, rfl, hheld⟩ := mmClone_run onePageTask_sound onePage_wellFormed hclone
  exact ⟨dst, es, k', rfl, hr, hclone, hheld dst rfl⟩

section Loader

variable (hK : ∀ f ∈ K, f ∉ pool.free s0) (hA : ∀ f ∈ A, f ∈ K ∨ f ∈ pool.free s0)
include hK hA

/-- One mapping or copy of the loader that stays in the new address space. -/
theorem action_works {a : Exec.Action} (hw : Works K s0 s) (hh : Exec.Holds A x M s) (hin : a.Inside M) (hfit : a.Fits)
    (hexec : a.exec (x * pageSize) s = some s') : Works K s0 s' := by
  have hheld : ∀ f ∈ spaceFrames s x, f ∈ held K s0 s := by
    intro f hf
    obtain ⟨slot, hk⟩ := hf
    exact ⟨hA f (hh.was_free hk), hh.used hk⟩
  cases a with
  | map va flags =>
    obtain ⟨_, rfl⟩ := Exec.exec_map hexec
    exact mapFresh_works hK flags hw hin hh.space hheld
  | copy va bytes =>
    cases hexec
    by_cases hempty : bytes = []
    · rw [hempty, Exec.copyChunk_nil]
      exact hw
    · obtain ⟨hva, hsome⟩ := hin hempty
      obtain ⟨f, hf⟩ := (hh.mapped_iff hva).mp hsome
      have hdest := Exec.destination_of_frame hf
      exact hw.write (hheld f ⟨_, hf⟩) rfl rfl fun g hg => Exec.cell_copyChunk hdest hfit hg

/-- The mappings and copies of a file that stays in the new address space, unless memory runs out. -/
theorem actions_works (hw : Works K s0 s) (hh : Exec.Holds A x M s) (h0 : 0 ∉ A) (hin : Exec.AllInside M as)
    (hfit : ∀ a ∈ as, a.Fits) (hrun : as.foldlM (Exec.Action.exec (x * pageSize)) s = some s')
    (hne : pool.free s' ≠ ∅) : Works K s0 s' ∧ ∃ M', Exec.Holds A x M' s' := by
  induction as generalizing s M with
  | nil =>
    cases hrun
    exact ⟨hw, M, hh⟩
  | cons a as ih =>
    obtain ⟨s1, hexec, hrun⟩ := Option.bind_eq_some_iff.mp hrun
    have hne1 : pool.free s1 ≠ ∅ := fun hempty => hne (Exec.run_of_empty hempty hrun)
    have hfita := hfit a (.head _)
    have hh1 := (hh.step h0 hin.1 hfita hexec).resolve_right hne1
    have hw1 := action_works hK hA hw hh hin.1 hfita hexec
    exact ih hw1 hh1 hin.2 (fun b hb => hfit b (.tail _ hb)) hrun

/-- The pages of the stack: only the last one can use memory up. -/
theorem stack_works (hw : Works K s0 s) (hh : Exec.Holds A x M s) (h0 : 0 ∉ A)
    (hrun : (Exec.stackPages.map (Exec.Action.map · Exec.stackFlags)).foldlM (Exec.Action.exec (x * pageSize)) s =
      some s') : Works K s0 s' := by
  obtain ⟨ps, hps⟩ := Exec.stackPages_split
  have hin := Exec.stack_inside M
  have hfit := Exec.stack_fits
  rw [hps, List.map_append] at hrun hin hfit
  rw [List.foldlM_append] at hrun
  obtain ⟨s1, hrun, hlast⟩ := Option.bind_eq_some_iff.mp hrun
  obtain ⟨_, hexec, ⟨⟩⟩ := Option.bind_eq_some_iff.mp hlast
  obtain ⟨hin, hva, _⟩ := Exec.allInside_append.mp hin
  obtain ⟨hfit, hfit1⟩ := List.forall_mem_append.mp hfit
  obtain ⟨hw1, M1, hh1⟩ := actions_works hK hA hw hh h0 hin hfit hrun (Exec.free_of_map hexec)
  exact action_works hK hA (a := .map 0xBFFFE000 Exec.stackFlags) hw1 hh1 hva (hfit1 _ (.head _)) hexec

end Loader

/-- **The loading in `sys_exec`** of a file that is contained, from its headers to the last page of the stack, is a run,
    and the new address space consists of frames that are held. -/
theorem loader_run (h : Sound d k) {file : List UInt8} {im : Exec.Image} (h0 : 0 ∉ pool.free k.vm)
    (hcont : Exec.Contained file ∅ (Exec.segments file))
    (hload : Exec.execLoad (d * pageSize) file k.vm = (.ok im, s')) :
    ∃ es k', Run (fun k e k' => e.Safe k ∧ Step d k e k') k es k' ∧ k'.vm = s' ∧
      ∀ f ∈ spaceFrames s' im.mm.dir, f ∈ k'.kept := by
  obtain ⟨mm, slab, s1, s2, hmm, _, hsegs, hstack⟩ := Exec.execLoad_parts hload
  obtain ⟨hdir, hholds⟩ := Exec.Holds.created hmm
  have hnew : Works k.kept k.vm s1 := by
    have hworks := mmCreate_works h.apart (d * pageSize) (.step .refl (.slab slab) trivial)
    rwa [FrameOp.exec, hmm] at hworks
  rw [hdir] at hsegs hstack
  obtain ⟨hw, M, hh⟩ := actions_works h.apart (fun _ hf => .inr hf) hnew hholds h0 (Exec.contained_iff.mpr hcont)
    (Exec.segments_fit file _) hsegs (Exec.free_of_stack hstack)
  obtain ⟨es, hr⟩ := run_of_works h (stack_works h.apart (fun _ hf => .inr hf) hw hh h0 hstack)
  obtain ⟨_, hend⟩ := Exec.Stacked.loaded h0 hcont hload
  refine ⟨es, _, hr, rfl, fun f hf => ?_⟩
  obtain ⟨slot, hk⟩ := hf
  exact ⟨.inr (hend.holds.was_free hk), hend.holds.used hk⟩

/-- Two segments on the machine of 64 MB. -/
theorem loader_run_small : ∃ s im s' es k', Exec.execLoad (768 * pageSize) (Exec.smallFile 0x1000) s = (.ok im, s') ∧
    Run (fun k e k' => e.Safe k ∧ Step 768 k e k') (alone 768 s) es k' ∧ k'.vm = s' ∧
    ∀ f ∈ spaceFrames s' im.mm.dir, f ∈ k'.kept := by
  obtain ⟨s, hslab, _, hfree⟩ := Exec.sixtyFourMib_booted
  have h0 : 0 ∉ pool.free s := fun hm => absurd ((hfree 0).mp hm).1 (by decide)
  obtain ⟨_, hlegal, _⟩ := Exec.smallFile_legal (.inr (Eq.refl 0x1000))
  have hcont := Exec.contained_iff.mp (Exec.Paged.allInside_segments (M := fun _ => none) (fun _ _ _ => rfl) hlegal)
  obtain ⟨im, s', hload⟩ := Exec.smallFile_goes (768 * pageSize) (.inr rfl) h0 hslab
    (by rw [Exec.frames_of_interval hfree]; decide)
  obtain ⟨es, k', hrun⟩ := loader_run (alone_sound 768 s) h0 hcont hload
  exact ⟨s, im, s', es, k', hload, hrun⟩

/-! ## 4. The task that ends -/

/-- **`sys_exit` and `sys_exec` free the directory in CR3** when the task has an address space and runs on it: until
    the next load of CR3 the frame can be allocated again. -/
theorem destroy_frees (hm : k.mm k.current = some m) (hmm : m.Aligned) (hreal : Real m.dir) (hd : m.dir ≠ d) :
    m.dir ∈ pool.free (k.destroy d k.current) := by
  have hdk : m.dir * pageSize ≠ d * pageSize := fun heq => hd (Nat.eq_of_mul_eq_mul_right (by decide) heq)
  rw [Machine.destroy, hm]
  change m.dir ∈ pool.free (mmDestroy (d * pageSize) m k.vm)
  rw [mmDestroy, hmm]
  exact ((pgdirDestroy_gives hreal.1 hdk k.vm).free_iff m.dir).mpr (.inr ⟨hreal, .dir, rfl⟩)

/-- A booted machine with a task 1 whose address space `mm_create` has just made. -/
theorem one_task : ∃ k m, Sound 768 k ∧ k.current = 0 ∧ k.cr3 = 768 ∧ k.Lives 1 ∧ k.mm 1 = some m ∧ m.Aligned ∧
    Real m.dir ∧ m.dir ≠ 768 ∧ k.mm 0 = none := by
  obtain ⟨s, hslab, hdir, hfree⟩ := Exec.sixtyFourMib_booted
  have h0 : 0 ∉ pool.free s := fun hm => absurd ((hfree 0).mp hm).1 (by decide)
  obtain ⟨m, s', hcreate, _⟩ := mmCreate_goes (768 * pageSize) h0 hslab (by rw [Exec.frames_of_interval hfree]; decide)
  obtain ⟨hwf, hown⟩ := mmCreate_wellFormed hcreate
  obtain ⟨x, hx0, hx, _, _, htake, _⟩ := mmCreate_spec hcreate
  have hdirx : m.dir = x := dir_of_pgdir hx
  have hxfree := (hfree x).mp (htake.was_free x rfl)
  have hlow : ∀ f ∈ stackFrames 1, f ∉ pool.free s' ∧ f ≠ m.dir := by
    intro f hf
    have hle : f ≤ 2 := by
      rcases hf with rfl | rfl <;> decide
    refine ⟨fun hm => ?_, by omega⟩
    have := ((hfree f).mp ((htake.free_iff f).mp hm).1).1
    omega
  have hone : ∀ {t m'}, (fun t => if t = 1 then some m else none) t = some m' → m' = m := by
    intro t m' ht
    dsimp only at ht
    split at ht
    · exact (Option.some.inj ht).symm
    · cases ht
  have hst : ∀ {t n}, (fun t : Nat => if t = 1 then some 1 else none) t = some n → t = 1 ∧ n = 1 := by
    intro t n ht
    dsimp only at ht
    split at ht
    · exact ⟨‹_›, (Option.some.inj ht).symm⟩
    · cases ht
  refine ⟨⟨s', 768, 0, fun t => if t = 1 then some m else none, fun t => if t = 1 then some 1 else none, ∅⟩, m,
    ⟨fun f hf => absurd hf (Set.notMem_empty f), fun hm f hf => ?_, fun hs f hf => ?_, fun hs hs' f _ _ => ?_,
      fun hs hm f hf => ?_, .inl rfl⟩, rfl, rfl, .inr rfl, rfl, hwf.aligned, ⟨by omega, ?_⟩, by omega, rfl⟩
  · obtain rfl := hone hm
    exact ⟨hwf.apart f hf, Set.notMem_empty f⟩
  · obtain ⟨_, rfl⟩ := hst hs
    exact ⟨(hlow f hf).1, Set.notMem_empty f⟩
  · rw [(hst hs).1, (hst hs').1]
  · obtain rfl := hone hm
    obtain ⟨_, rfl⟩ := hst hs
    change f ∉ spaceFrames s' _
    rw [hown]
    exact (hlow f hf).2
  · exact free_lt (hdirx ▸ htake.was_free x rfl)

/-- Task 1 is scheduled and its kernel part allocates a frame. -/
theorem active_of_safe_run_switch : ∃ k₀ k m, Sound 768 k₀ ∧ k₀.mm 1 = some m ∧
    Run (fun k e k' => e.Safe k ∧ Step 768 k e k') k₀ [.schedule (some 1), .access .alloc] k ∧
    k.cr3 = m.dir ∧ m.dir ≠ 768 ∧ InUse 768 k := by
  obtain ⟨k, m, hsound, hcur, _, hlives, hm, _, _, hd, _⟩ := one_task
  have hsafe : ∀ t, some 1 = some t → k.Lives t := by
    rintro t ht
    cases ht
    exact hlives
  have hrun : Run (fun k e k' => e.Safe k ∧ Step 768 k e k') k [.schedule (some 1), .access .alloc] _ :=
    .cons ⟨hsafe, .switch k 1 (by rw [hcur]; decide)⟩ (.cons ⟨trivial, .access _ .alloc⟩ (.nil _))
  refine ⟨k, _, m, hsound, hm, hrun, ?_, hd, active_of_safe_run hsound hrun⟩
  change k.dirOf 768 1 = m.dir
  rw [Machine.dirOf, hm]

/-- **A task exits**: task 1 runs on its own directory and `sys_exit` has called `mm_destroy`. The frame in CR3 is
    free, and CR3 does not have the kernel's directory. -/
theorem exit_frees_active : ∃ k₀ k, Sound 768 k₀ ∧ Run (Step 768) k₀ [.schedule (some 1), .exitDestroy] k ∧
    k.cr3 ≠ 768 ∧ k.cr3 ∈ pool.free k.vm ∧ ¬ InUse 768 k := by
  obtain ⟨k, m, hsound, hcur, _, _, hm, hmm, hreal, hd, _⟩ := one_task
  have hrun : Run (Step 768) k [.schedule (some 1), .exitDestroy] _ :=
    .cons (.switch k 1 (by rw [hcur]; decide)) (.cons (.exitDestroy _) (.nil _))
  have hcr3 : k.dirOf 768 1 = m.dir := by
    rw [Machine.dirOf, hm]
  have hfree : m.dir ∈ pool.free (Machine.destroy 768 { k with current := 1, cr3 := k.dirOf 768 1 } 1) :=
    destroy_frees (k := { k with current := 1, cr3 := k.dirOf 768 1 }) hm hmm hreal hd
  have hfree' : k.dirOf 768 1 ∈ pool.free (Machine.destroy 768 { k with current := 1, cr3 := k.dirOf 768 1 } 1) := by
    rw [hcr3] at hfree ⊢
    exact hfree
  have hne : k.dirOf 768 1 ≠ 768 := by
    rw [hcr3]
    exact hd
  refine ⟨k, _, hsound, hrun, hne, hfree', fun huse => ?_⟩
  rcases huse with heq | ⟨_, _, _, _, hused, _⟩
  · exact hne heq
  · exact hused hfree'

end OreUnix.Active
