/-
  Subject: FORK AND ITS ERROR PATH: `sys_fork` of kernel/process.c over the frames, the open files and the scheduler's
  state together.

  The child is a copy of the parent's `task_struct`, so what the error path finds in it may still be the parent's. How
  the slab allocations end is an argument of the call (`Grants`), apart from those inside `mm_clone`, which are in the
  state of Mm/AddressSpace.lean; the frames behind the slabs belong to the kernel heap and are no part of this state.
  The register frame on the child's stack is the subject of Arch/TrapFrame.lean.

  * `undo_stack_frees` -- an error path that finds the parent's stack gives its frames away;
  * `fork_failure_iff` -- which failures of `sys_fork` leave everything as it was.
-/
import OreUnix.Mm.FirstFit
import OreUnix.Fs.TableCopy
import OreUnix.Proc.Lifecycle

namespace OreUnix.Fork

open Wp Pmm Vmm FirstFit FramePool
open Function (update update_of_ne)
open Proc (Sched Task)

variable {g n : Nat} {mm : MmStruct} {vm : Vm}

/-! ## 1. The call -/

inductive Crash where
  | files (c : Vfs.Crash)
  | sched (c : Proc.Crash)

structure Machine where
  vm : Vm
  fd : Fd.State
  sched : Sched

abbrev M := StateT Machine (Except Crash)

section Parts

variable {α : Type}

def onVm (f : Vm → α × Vm) : M α := fun s => .ok ((f s.vm).1, { s with vm := (f s.vm).2 })

def onFd (m : Fd.M α) : M α := fun s =>
  match m s.fd with
  | .ok (a, fd) => .ok (a, { s with fd := fd })
  | .error c => .error (.files c)

def onSched (m : Proc.M α) : M α := fun s =>
  match m s.sched with
  | .ok (a, sched) => .ok (a, { s with sched := sched })
  | .error c => .error (.sched c)

end Parts

def physToVirt (phys : Nat) : Nat := u32 (phys + kernelVirtBase)
def virtToPhys (virt : Nat) : Nat := sub32 virt kernelVirtBase

def kstackPages : Nat := 2

/-- `alloc_kstack`: the address after the stack, or 0. -/
@[irreducible] def allocKstack (s : Vm) : Nat × Vm :=
  let (phys, pages) := pmmAllocContiguous s.pages kstackPages
  if phys = 0 then (0, { s with pages := pages })
  else (u32 (physToVirt phys + kstackPages * pageSize), { s with pages := pages })

@[irreducible] def freeKstack (top : Nat) (s : Vm) : Vm :=
  let virt := sub32 top (kstackPages * pageSize)
  { s with pages := pmmFreeContiguous s.pages (virtToPhys virt) kstackPages }

/-- What a task owns besides the fields of `Proc.Task`; `files` is the number of its table. -/
structure Owner where
  mm : MmStruct
  files : Nat
  kernelStack : Nat
  cwd : Option Nat
  root : Option Nat

/-- The pointers of the child that the error path looks at. -/
structure Child where
  mm : Option MmStruct
  files : Option Nat
  signal : Option Nat
  kernelStack : Nat

/-- How the slab allocations of `sys_fork` end, and that of the array of descriptors. -/
structure Grants where
  task : Bool
  files : Bool
  array : Bool
  signal : Bool
  deriving DecidableEq, Repr

/-- The four lines of the error path that free what the child has. -/
def dropMm (kernelPgdir : Nat) : Option MmStruct → M Unit
  | some mm => onVm fun s => ((), mmDestroy kernelPgdir mm s)
  | none => pure ()

def dropFiles : Option Nat → M Unit
  | some t => onFd (Fd.filesDestroy t)
  | none => pure ()

def dropSignal : Option Nat → M Unit
  | some g => onSched (Proc.setSignals g none)
  | none => pure ()

def dropStack (top : Nat) : M Unit :=
  if top ≠ 0 then onVm fun s => ((), freeKstack top s) else pure ()

/-- The error path. -/
def undo (kernelPgdir : Nat) (x : Child) : M Int := do
  dropMm kernelPgdir x.mm
  dropFiles x.files
  dropSignal x.signal
  dropStack x.kernelStack
  pure (-ENOMEM)

/-- The end of a fork for which everything was there. -/
def attach (cur : Owner) (x : Task) (pid : Nat) (signal : Nat) : M Int := do
  modify fun s => { s with fd := ((cur.cwd.toList ++ cur.root.toList).foldl Fd.State.dentryGet s.fd) }
  let parent ← onSched Proc.currentTask
  let t ← onSched (Proc.linkTask { x with
    pid := pid, ppid := x.pid, state := .running, signal := some signal, parent := some parent
    children := [], inSleep := false })
  onSched (Proc.schedAdd t)
  pure pid

section Stages

variable (kernelPgdir : Nat) (cur : Owner) (child : Nat) (grants : Grants) (t : Task) (pid : Nat)

/-- `sys_fork` from the allocation of the kernel stack on. -/
def forkStack (x : Child) (signal : Nat) : M Int := do
  let top ← onVm allocKstack
  if top = 0 then undo kernelPgdir { x with kernelStack := 0 } else attach cur t pid signal

/-- From `signal_create` on. -/
def forkSignal (x : Child) : M Int :=
  if grants.signal then do
    let y ← onSched (Proc.getSignals t.signal)
    let g ← onSched (Proc.newSignals y.2)
    forkStack kernelPgdir cur t pid { x with signal := some g } g
  else undo kernelPgdir { x with signal := none }

/-- From `files_clone` on. -/
def forkFiles (x : Child) : M Int :=
  if grants.files then do
    onFd (Fd.filesClone cur.files child grants.array)
    forkSignal kernelPgdir cur grants t pid { x with files := some child }
  else undo kernelPgdir { x with files := none }

/-- From `mm_clone` on. -/
def forkMm (x : Child) : M Int := do
  match ← onVm (mmClone kernelPgdir cur.mm) with
  | none => undo kernelPgdir { x with mm := none }
  | some mm => forkFiles kernelPgdir cur child grants t pid { x with mm := some mm }

end Stages

/-- `sys_fork` of the running task; `child` is the number of the table the child gets. -/
def sysFork (kernelPgdir : Nat) (cur : Owner) (child : Nat) (grants : Grants) : M Int :=
  if grants.task then do
    let t ← onSched (do Proc.getTask (← Proc.currentTask))
    let pid ← onSched Proc.allocPid
    forkMm kernelPgdir cur child grants t pid ⟨some cur.mm, some cur.files, t.signal, cur.kernelStack⟩
  else pure (-ENOMEM)

/-! ## 2. Rules -/

section Rules

variable {α : Type} {s : Machine} {E : Crash → Prop} {Q : α → Machine → Prop}

theorem wp_onVm {f : Vm → α × Vm} : wp E (onVm f) Q s ↔ Q (f s.vm).1 { s with vm := (f s.vm).2 } := Iff.rfl

theorem wp_onVm_eq {f : Vm → α × Vm} {a : α} (h : f s.vm = (a, vm)) (hQ : Q a { s with vm := vm }) :
    wp E (onVm f) Q s := by
  rw [wp_onVm, h]
  exact hQ

theorem wp_onFd {m : Fd.M α} :
    wp E (onFd m) Q s ↔ wp (fun c => E (.files c)) m (fun a fd => Q a { s with fd := fd }) s.fd := by
  rw [wp, wp, onFd]
  cases m s.fd with
  | ok r => rfl
  | error c => rfl

theorem wp_onSched {m : Proc.M α} :
    wp E (onSched m) Q s ↔ wp (fun c => E (.sched c)) m (fun a sched => Q a { s with sched := sched }) s.sched := by
  rw [wp, wp, onSched]
  cases m s.sched with
  | ok r => rfl
  | error c => rfl

end Rules

/-! ## 3. Kernel stacks -/

/-- The address after the stack in the frames `n` and `n + 1`. -/
def stackTop (n : Nat) : Nat := n * pageSize + kernelVirtBase + kstackPages * pageSize

theorem stack_consts : pageSize = 4096 ∧ kernelVirtBase = 3221225472 ∧ kstackPages = 2 ∧ bitmapBits = 262144 := by
  decide

theorem stackTop_inj {k : Nat} (h : stackTop n = stackTop k) : n = k := by
  obtain ⟨e1, e2, e3, _⟩ := stack_consts
  rw [stackTop, stackTop, e1, e2, e3] at h
  omega

theorem freeKstack_eq (hn : n + 2 < bitmapBits) (s : Vm) :
    freeKstack (stackTop n) s = (s.free (n * pageSize)).free ((n + 1) * pageSize) := by
  obtain ⟨e1, e2, e3, e4⟩ := stack_consts
  have hphys : virtToPhys (sub32 (stackTop n) (kstackPages * pageSize)) = n * pageSize := by
    unfold virtToPhys sub32 stackTop
    rw [e1, e2, e3]
    omega
  have haddrs : contiguousAddrs (n * pageSize) kstackPages = [n * pageSize, (n + 1) * pageSize] := by
    rw [contiguousAddrs, e3]
    change [u32 (n * pageSize + u32 (0 * pageSize)), u32 (n * pageSize + u32 (1 * pageSize))] = _
    have h0 : u32 (n * pageSize + u32 (0 * pageSize)) = n * pageSize := by
      unfold u32
      rw [e1]
      omega
    have h1 : u32 (n * pageSize + u32 (1 * pageSize)) = (n + 1) * pageSize := by
      unfold u32
      rw [e1]
      omega
    rw [h0, h1]
  unfold freeKstack
  dsimp only
  rw [hphys, pmmFreeContiguous, haddrs]
  rfl

theorem freeKstack_frees (h1 : 1 ≤ n) (hn : n + 2 < bitmapBits) (s : Vm) :
    n ∈ freePages (freeKstack (stackTop n) s).pages := by
  rw [freeKstack_eq hn, ← mem_free]
  refine ((free_gives _ (n + 1)).free_iff n).mpr (.inl ?_)
  exact ((free_gives s n).free_iff n).mpr (.inr ⟨rfl, by omega, by omega⟩)

/-- **`alloc_kstack`** fails if no two neighbours are free. Otherwise it takes the first two; it then returns 0 as
    well if these are the last two frames, since the address after them is 2³². -/
theorem allocKstack_cases (s : Vm) : (allocKstack s = (0, s) ∧ ∀ st, ¬ FreeRun (freePages s.pages) kstackPages st) ∨
      ∃ st, FreeRun (freePages s.pages) kstackPages st ∧
        (∀ st', FreeRun (freePages s.pages) kstackPages st' → st ≤ st') ∧
        Takes pool ∅ {st, st + 1} s (allocKstack s).2 ∧
        ((allocKstack s).1 = 0 ↔ st + 2 = bitmapBits) := by
  obtain ⟨e1, e2, e3, e4⟩ := stack_consts
  unfold allocKstack
  rcases pmmAllocContiguous_first s.pages (show 0 < kstackPages by decide) with ⟨heq, hnone⟩ | ⟨st, hrun, hfirst, heq⟩
  · rw [heq]
    exact .inl ⟨rfl, hnone⟩
  · rw [heq]
    have hlast : st + 2 ≤ bitmapBits := by
      have := (freeRun_iff (show 0 < kstackPages by decide)).mp hrun
      omega
    have hne : st * pageSize ≠ 0 := by
      have := hrun.1
      rw [e1]
      omega
    refine .inr ⟨st, hrun, hfirst, ?_, ?_⟩
    · dsimp only
      rw [if_neg hne]
      refine ⟨?_, fun f => ?_, fun _ _ _ => rfl⟩
      · rintro f (rfl | rfl)
        · exact mem_free.mpr (hrun.2 f (by omega) (by omega))
        · exact mem_free.mpr (hrun.2 _ (by omega) (by omega))
      · rw [mem_free, mem_free]
        refine (freePages_foldl_clr s.pages _ (List.range' st kstackPages) f).trans ?_
        rw [List.mem_range'_1, e3, Set.mem_insert_iff, Set.mem_singleton_iff]
        refine and_congr_right fun _ => not_congr ?_
        omega
    · dsimp only
      rw [if_neg hne]
      unfold physToVirt u32
      rw [e1, e2, e3]
      constructor <;> intro h <;> omega

/-! ## 4. The parent before and after -/

/-- The parent has an address space, a file table, a signal struct and a kernel stack of its own; the child's table is
    new. Page 0 and the kernel's directory are never free. -/
structure Owns (kernelPgdir : Nat) (m : Machine) (cur : Owner) (child : Nat) : Prop where
  mm : WellFormed m.vm cur.mm
  zero : 0 ∉ freePages m.vm.pages
  kernel : ∀ n, kernelPgdir = n * pageSize → n ∉ freePages m.vm.pages
  files : Fd.Between true m.fd
  table : Fd.HasArray m.fd cur.files
  fresh : m.fd.tables child = none
  signal : ∃ x g y, m.sched.tasks m.sched.current = some x ∧ x.signal = some g ∧ m.sched.signals g = some y
  nextSignal : m.sched.signals m.sched.nextSignal = none
  stack : ∃ n, cur.kernelStack = stackTop n ∧ 1 ≤ n ∧ n + 2 < bitmapBits ∧ n ∉ freePages m.vm.pages ∧
    n + 1 ∉ freePages m.vm.pages

/-- Everything is as before: the address space with its frames and bytes, every open file and the parent's
    descriptors, the signal structs, the stack, the lists, and the free frames. -/
structure Same (m m' : Machine) (cur : Owner) : Prop where
  mm : Unchanged m.vm m'.vm cur.mm ∧ WellFormed m'.vm cur.mm
  files : m'.fd.files = m.fd.files ∧ ∀ i, Fd.slot m'.fd cur.files i = Fd.slot m.fd cur.files i
  signal : m'.sched.tasks = m.sched.tasks ∧
    ∀ g y, m.sched.signals g = some y → m'.sched.signals g = some y
  stack : ∀ n, cur.kernelStack = stackTop n → ∀ f, f = n ∨ f = n + 1 →
    f ∉ freePages m'.vm.pages ∧ pool.cell m'.vm f = pool.cell m.vm f
  lists : m'.sched.taskList = m.sched.taskList ∧ m'.sched.runLinks = m.sched.runLinks
  frames : freePages m'.vm.pages = freePages m.vm.pages

/-- An address space whose frames keep their content, and are not freed, is unchanged. -/
theorem unchanged_of_cells {s s' : Vm} (h : WellFormed s mm)
    (hcell : ∀ f ∈ spaceFrames s mm.dir, pool.cell s' f = pool.cell s f)
    (hfree : freePages s'.pages ⊆ freePages s.pages) : Unchanged s s' mm ∧ WellFormed s' mm := by
  have hat := h.space.frameAt_eq hcell
  refine ⟨⟨hat, hcell, h.space.untouched h.aligned hcell⟩, h.aligned, ?_, ?_, h.count, h.word⟩
  · intro k k' f hk hk'
    rw [hat] at hk hk'
    exact h.distinct hk hk'
  · intro k f hk hf
    rw [hat] at hk
    exact h.allocated hk (hfree hf)

/-- Destroying a copy gives back what it took, whatever else was taken in between. -/
theorem copy_returned {kernelPgdir : Nat} {s s1 s2 : Vm} {src dst : MmStruct} {T : Set Nat}
    (hwf : WellFormed s src) (hkernel : ∀ n, kernelPgdir = n * pageSize → n ∉ freePages s.pages)
    (hclone : mmClone kernelPgdir src s = (some dst, s1)) (htake : Takes pool ∅ T s1 s2) :
    Takes pool (pool.free s) T s (mmDestroy kernelPgdir dst s2) := by
  obtain ⟨N, halign, hN, hzero, hspace, hall, _⟩ := mmClone_spec hwf hclone
  have hTN : ∀ f ∈ N, f ∉ T := fun f hf hT => hN.disjoint f hf (htake.was_free f hT)
  have hcell : ∀ f ∈ N, pool.cell s2 f = pool.cell s1 f := fun f hf => htake.stays (hTN f hf)
  have hframes : ∀ f, f ∈ spaceFrames s2 dst.dir ↔ f ∈ N := by
    intro f
    have hat := hspace.frameAt_eq hcell
    constructor
    · rintro ⟨k, hk⟩
      rw [hat] at hk
      exact hspace.owned hk
    · intro hf
      obtain ⟨k, hk⟩ := hall f hf
      exact ⟨k, (hat k).trans hk⟩
  have hd : dst.dir ∈ N := hspace.dir_mem
  have hdk : dst.dir * pageSize ≠ kernelPgdir := fun he => hkernel dst.dir he.symm (mem_free.mp (hN.was_free _ hd))
  have hgives := pgdirDestroy_gives (hzero _ hd) hdk s2
  rw [mmDestroy, halign]
  refine ⟨fun f hf => ?_, fun f => ?_, fun f hW hT => ?_⟩
  · exact ((hN.free_iff f).mp (htake.was_free f hf)).1
  · rw [hgives.free_iff, htake.free_iff, hN.free_iff]
    constructor
    · rintro (⟨⟨hf, _⟩, hT⟩ | ⟨_, hf⟩)
      · exact ⟨hf, hT⟩
      · have hfN := (hframes f).mp hf
        exact ⟨hN.was_free f hfN, hTN f hfN⟩
    · rintro ⟨hf, hT⟩
      by_cases hfN : f ∈ N
      · have hlt := (mem_freePages.mp (mem_free.mp hf)).1
        exact .inr ⟨⟨hzero f hfN, hlt⟩, (hframes f).mpr hfN⟩
      · exact .inl ⟨⟨hf, hfN⟩, hT⟩
  · rw [hgives.same f (Set.notMem_empty f), htake.stays hT]
    exact hN.keeps hW

/-! ## 5. The ways out -/

/-- No crash at all. -/
abbrev Never : Crash → Prop := fun _ => False

variable {kernelPgdir child : Nat} {m : Machine} {cur : Owner} {grants : Grants}

theorem dropMm_returns {E : Crash → Prop} {Q : Unit → Machine → Prop} {o : Option MmStruct}
    (hQ : ∀ vm, Q () { m with vm := vm }) : wp E (dropMm kernelPgdir o) Q m := by
  cases o with
  | none => exact (hQ m.vm)
  | some mm =>
    rw [dropMm]
    exact wp_onVm.mpr (hQ _)

theorem dropSignal_returns {E : Crash → Prop} {Q : Unit → Machine → Prop} {o : Option Nat}
    (hQ : ∀ sched, Q () { m with sched := sched }) : wp E (dropSignal o) Q m := by
  cases o with
  | none => exact (hQ m.sched)
  | some g => exact hQ _

/-- **The parent's stack in the hands of the error path** is freed. -/
theorem undo_stack_frees {x : Child} (hstack : x.kernelStack = stackTop n) (h1 : 1 ≤ n) (hn : n + 2 < bitmapBits)
    (hfiles : wp Never (dropFiles x.files) (fun _ _ => True) m) :
    wp Never (undo kernelPgdir x) (fun r m' => r = -ENOMEM ∧ n ∈ freePages m'.vm.pages) m := by
  have htop : x.kernelStack ≠ 0 := by
    obtain ⟨e1, e2, e3, e4⟩ := stack_consts
    rw [hstack, stackTop, e1, e2, e3]
    omega
  refine wp_then (dropMm_returns fun vm => ?_)
  have hfiles' : wp Never (dropFiles x.files) (fun _ _ => True) { m with vm := vm } := by
    cases hx : x.files with
    | none => exact trivial
    | some t =>
      rw [hx] at hfiles
      exact wp_onFd.mpr (wp_onFd.mp hfiles)
  refine wp_seq hfiles' fun _ m2 _ => ?_
  refine wp_then (dropSignal_returns fun sched => wp_then ?_)
  rw [dropStack, if_pos htop, hstack]
  exact wp_onVm.mpr ((wp_pure ..).mpr ⟨rfl, freeKstack_frees h1 hn m2.vm⟩)

/-- The pid is taken, and the copy begins. -/
theorem wp_sysFork {E : Crash → Prop} {Q : Int → Machine → Prop} {t : Task} (htask : grants.task = true)
    (ht : m.sched.tasks m.sched.current = some t)
    (hrest : ∀ n pid, wp E (forkMm kernelPgdir cur child grants t pid
      ⟨some cur.mm, some cur.files, t.signal, cur.kernelStack⟩) Q { m with sched.nextPid := n }) :
    wp E (sysFork kernelPgdir cur child grants) Q m := by
  rw [sysFork, if_pos htask]
  refine wp_then (wp_onSched.mpr ?_)
  have hget : wp (fun c => E (.sched c)) (do Proc.getTask (← Proc.currentTask) : Proc.M Task)
      (fun x sched => x = t ∧ sched = m.sched) m.sched := by
    refine wp_then ?_
    change wp _ (Proc.getTask m.sched.current) _ m.sched
    rw [wp, Proc.getTask, ht]
    exact ⟨rfl, rfl⟩
  refine wp_imp hget ?_
  rintro x sched ⟨rfl, rfl⟩
  exact wp_then (wp_onSched.mpr (hrest _ _))

theorem Owns.child_ne (h : Owns kernelPgdir m cur child) : cur.files ≠ child := by
  intro he
  have ht := h.table
  rw [Fd.HasArray, he, h.fresh] at ht
  cases ht

theorem Owns.array (h : Owns kernelPgdir m cur child) : ∃ fd c, m.fd.tables cur.files = some ⟨some fd, c⟩ ∧
      ∀ i < Fd.openMax, ∀ f, fd i = some f → Fd.Live m.fd f ∧ 0 < Fd.refs m.fd f := by
  obtain ⟨fd, hfd⟩ := Option.isSome_iff_exists.mp h.table
  obtain ⟨⟨_, c⟩, ht, rfl⟩ := Option.bind_eq_some_iff.mp hfd
  refine ⟨fd, c, ht, fun i hi f hf => ?_⟩
  have hslot : Fd.slots m.fd (cur.files, i) = some f := (Fd.slot_eq hfd hi).trans hf
  have hlive := h.files.counted.live hslot
  exact ⟨hlive, h.files.counted.pos hlive⟩

/-- The state after `files_clone` with its array. -/
def Cloned (m : Machine) (child : Nat) (fd : Fd.State) : Prop :=
  wp Fd.Never (Fd.filesDestroy child) (fun _ fd' => fd' = { m.fd with procs := insert child m.fd.procs }) fd

theorem wp_filesClone_cloned {E : Vfs.Crash → Prop} (h : Owns kernelPgdir m cur child) :
    wp E (Fd.filesClone cur.files child true) (fun _ fd => Cloned m child fd) m.fd := by
  obtain ⟨fd, c, ht, hlive⟩ := h.array
  refine wp_imp (Fd.wp_filesClone_eq h.child_ne ht fun i hi f hf => (hlive i hi f hf).1) fun _ fd' hfd' => ?_
  exact Fd.wp_filesDestroy_copy h.fresh hlive hfd'

/-- Without a copy of the address space the parent's files, signals and stack are freed. -/
theorem noMm_frees (h : Owns kernelPgdir m cur child) (htask : grants.task = true)
    (hmm : mmClone kernelPgdir cur.mm m.vm = (none, vm)) :
    ∃ n, n ∉ freePages m.vm.pages ∧ wp Never (sysFork kernelPgdir cur child grants)
      (fun r m' => r = -ENOMEM ∧ n ∈ freePages m'.vm.pages) m := by
  obtain ⟨t, g, y, ht, _⟩ := h.signal
  obtain ⟨n, hn, h1, hlt, hfree, _⟩ := h.stack
  refine ⟨n, hfree, wp_sysFork htask ht fun k pid => wp_then (wp_onVm_eq hmm ?_)⟩
  refine undo_stack_frees hn h1 hlt (wp_onFd.mpr ?_)
  exact wp_imp (Fd.wp_filesDestroy_all h.files h.table) fun _ _ _ => trivial

/-- The copy of the address space is there. -/
theorem wp_forkFiles {E : Crash → Prop} {Q : Int → Machine → Prop} {t : Task} (htask : grants.task = true)
    (ht : m.sched.tasks m.sched.current = some t) (hmm : mmClone kernelPgdir cur.mm m.vm = (some mm, vm))
    (hrest : ∀ n pid, wp E (forkFiles kernelPgdir cur child grants t pid
      ⟨some mm, some cur.files, t.signal, cur.kernelStack⟩) Q ⟨vm, m.fd, { m.sched with nextPid := n }⟩) :
    wp E (sysFork kernelPgdir cur child grants) Q m :=
  wp_sysFork htask ht fun n pid => wp_then (wp_onVm_eq hmm (hrest n pid))

/-- Without a file table the parent's signals and stack are freed. -/
theorem noFiles_frees (h : Owns kernelPgdir m cur child) (htask : grants.task = true)
    (hmm : mmClone kernelPgdir cur.mm m.vm = (some mm, vm)) (hfiles : grants.files = false) :
    ∃ n, n ∉ freePages m.vm.pages ∧ wp Never (sysFork kernelPgdir cur child grants)
      (fun r m' => r = -ENOMEM ∧ n ∈ freePages m'.vm.pages) m := by
  obtain ⟨t, g, y, ht, _⟩ := h.signal
  obtain ⟨n, hn, h1, hlt, hfree, _⟩ := h.stack
  refine ⟨n, hfree, wp_forkFiles htask ht hmm fun k pid => ?_⟩
  rw [forkFiles, if_neg (by rw [hfiles]; decide)]
  exact undo_stack_frees hn h1 hlt trivial

theorem wp_onSched_any {α : Type} {f : Proc.M α} {Q : α → Machine → Prop}
    (hQ : ∀ a sched, Q a { m with sched := sched }) : wp (fun _ => True) (onSched f) Q m := by
  rw [wp_onSched, wp]
  split
  · exact hQ ..
  · trivial

theorem wp_any {α : Type} {m : Machine} (f : M α) : wp (fun _ => True) f (fun _ _ => True) m := by
  rw [wp]
  split <;> trivial

/-- A child is never reported as an error. -/
theorem attach_result {t : Task} {pid : Nat} :
    wp (fun _ => True) (attach cur t pid g) (fun r _ => r ≠ -ENOMEM) m := by
  refine wp_modify_then (wp_seq (wp_any _) fun _ _ _ => ?_)
  refine wp_seq (wp_any _) fun _ _ _ => wp_seq (wp_any _) fun _ _ _ => ?_
  refine (wp_pure ..).mpr fun he => ?_
  have henomem : (0 : Int) < ENOMEM := by decide
  omega

/-- Without the array of descriptors the call does not come back with an error. -/
theorem noArray_result (h : Owns kernelPgdir m cur child) (htask : grants.task = true)
    (hmm : mmClone kernelPgdir cur.mm m.vm = (some mm, vm)) (hfiles : grants.files = true)
    (harray : grants.array = false) :
    wp (fun _ => True) (sysFork kernelPgdir cur child grants) (fun r _ => r ≠ -ENOMEM) m := by
  obtain ⟨t, g, y, ht, _⟩ := h.signal
  refine wp_forkFiles htask ht hmm fun n pid => ?_
  rw [forkFiles, if_pos hfiles, harray]
  refine wp_then (wp_onFd.mpr (wp_imp Fd.wp_filesClone_noArray fun _ fd hfd => ?_))
  have hundo : ∀ (x : Child) (m : Machine), x.files = some child → ¬ Fd.HasArray m.fd child →
      wp (fun _ => True) (undo kernelPgdir x) (fun r _ => r ≠ -ENOMEM) m := by
    intro x m hx hm
    refine wp_then (dropMm_returns fun vm => wp_then ?_)
    rw [hx]
    exact wp_onFd.mpr (wp_imp (Fd.wp_filesDestroy_noArray hm) fun _ _ hf => hf.elim)
  rw [forkSignal]
  split
  · refine wp_then (wp_onSched_any fun y _ => wp_then (wp_onSched_any fun g _ => ?_))
    refine wp_then (wp_onVm.mpr ?_)
    split
    · exact hundo _ _ rfl hfd
    · exact attach_result
  · exact hundo _ _ rfl hfd

/-- The last two frames are free, and no other two neighbours. -/
def OnlyLastPair (F : Finset Nat) : Prop :=
  FreeRun F kstackPages (bitmapBits - kstackPages) ∧
    ∀ st, FreeRun F kstackPages st → bitmapBits - kstackPages ≤ st

/-- The scheduler's state with the child's signals. -/
def withSignals (s : Sched) (n : Nat) (y : Proc.Signals) : Sched :=
  { s with nextPid := n, signals := update s.signals s.nextSignal (some y), nextSignal := s.nextSignal + 1 }

/-- The error path with everything the child's own. -/
theorem undo_child {fd : Fd.State} {sched : Sched} (hfd : Cloned m child fd) :
    wp Never (undo kernelPgdir ⟨some mm, some child, some g, 0⟩) (fun r m' => r = -ENOMEM ∧
      m' = ⟨mmDestroy kernelPgdir mm vm, { m.fd with procs := insert child m.fd.procs },
        { sched with signals := update sched.signals g none }⟩) ⟨vm, fd, sched⟩ := by
  refine wp_then ?_
  rw [dropMm]
  refine wp_onVm.mpr (wp_then (wp_onFd.mpr (wp_imp hfd ?_)))
  rintro _ _ rfl
  exact ⟨rfl, rfl⟩

/-- The parent after the error path has freed what was the child's. -/
theorem same_of_undone {y : Proc.Signals} (h : Owns kernelPgdir m cur child)
    (hvm : Takes pool (pool.free m.vm) ∅ m.vm vm) :
    Same m ⟨vm, { m.fd with procs := insert child m.fd.procs }, { withSignals m.sched n y with
        signals := update (withSignals m.sched n y).signals m.sched.nextSignal none }⟩ cur := by
  have hframes : freePages vm.pages = freePages m.vm.pages := by
    refine Finset.ext fun f => ?_
    rw [← mem_free, ← mem_free, hvm.free_iff]
    exact and_iff_left (Set.notMem_empty f)
  have hcell : ∀ f, f ∉ freePages m.vm.pages → pool.cell vm f = pool.cell m.vm f :=
    fun f hf => hvm.same f (fun hf' => hf (mem_free.mp hf')) (Set.notMem_empty f)
  refine ⟨?_, ⟨rfl, fun _ => rfl⟩, ⟨rfl, fun g y' hg => ?_⟩, fun k hk f hf => ?_, ⟨rfl, rfl⟩, hframes⟩
  · exact unchanged_of_cells h.mm (fun f hf => hcell f fun hf' => h.mm.apart f hf (mem_free.mpr hf'))
      (Finset.subset_of_eq hframes)
  · have hne : g ≠ m.sched.nextSignal := by
      rintro rfl
      rw [h.nextSignal] at hg
      cases hg
    change update (update m.sched.signals m.sched.nextSignal _) m.sched.nextSignal none g = _
    rw [update_of_ne hne, update_of_ne hne]
    exact hg
  · obtain ⟨n', hn', _, _, hfree, hfree'⟩ := h.stack
    have hkn : k = n' := (stackTop_inj (hn'.symm.trans hk)).symm
    have hnot : f ∉ freePages m.vm.pages := by
      rcases hf with rfl | rfl
      · rw [hkn]
        exact hfree
      · rw [hkn]
        exact hfree'
    exact ⟨fun hf' => hnot (hframes ▸ hf'), hcell f hnot⟩

section Copied

variable {E : Crash → Prop} {Q : Int → Machine → Prop} (h : Owns kernelPgdir m cur child) (htask : grants.task = true)
  (hmm : mmClone kernelPgdir cur.mm m.vm = (some mm, vm)) (hfiles : grants.files = true) (harray : grants.array = true)

include h htask hmm hfiles harray

/-- The copy of the file table is there. -/
theorem wp_forkSignal {t : Task} (ht : m.sched.tasks m.sched.current = some t)
    (hrest : ∀ n pid fd, Cloned m child fd → wp E (forkSignal kernelPgdir cur grants t pid
      ⟨some mm, some child, t.signal, cur.kernelStack⟩) Q ⟨vm, fd, { m.sched with nextPid := n }⟩) :
    wp E (sysFork kernelPgdir cur child grants) Q m := by
  refine wp_forkFiles htask ht hmm fun n pid => ?_
  rw [forkFiles, if_pos hfiles, harray]
  have hcloned : wp (fun c => E (.files c)) (Fd.filesClone cur.files child true)
      (fun _ fd => Cloned m child fd) m.fd := wp_filesClone_cloned h
  exact wp_then (wp_onFd.mpr (wp_imp hcloned fun _ fd hfd => hrest n pid fd hfd))

/-- Without a signal struct the parent's stack is freed. -/
theorem noSignal_frees (hsignal : grants.signal = false) :
    ∃ n, n ∉ freePages m.vm.pages ∧ wp Never (sysFork kernelPgdir cur child grants)
      (fun r m' => r = -ENOMEM ∧ n ∈ freePages m'.vm.pages) m := by
  obtain ⟨t, g, y, ht, _⟩ := h.signal
  obtain ⟨n, hn, h1, hlt, hfree, _⟩ := h.stack
  refine ⟨n, hfree, wp_forkSignal h htask hmm hfiles harray ht fun k pid fd hfd => ?_⟩
  rw [forkSignal, if_neg (by rw [hsignal]; decide)]
  exact undo_stack_frees hn h1 hlt (wp_onFd.mpr (wp_imp hfd fun _ _ _ => trivial))

/-- The copy of the signals is there. -/
theorem wp_forkStack (hsignal : grants.signal = true)
    (hrest : ∀ t n pid fd y, Cloned m child fd → wp E (forkStack kernelPgdir cur t pid
      ⟨some mm, some child, some m.sched.nextSignal, cur.kernelStack⟩ m.sched.nextSignal) Q
      ⟨vm, fd, withSignals m.sched n y⟩) :
    wp E (sysFork kernelPgdir cur child grants) Q m := by
  obtain ⟨t, g, y, ht, hg, hy⟩ := h.signal
  refine wp_forkSignal h htask hmm hfiles harray ht fun n pid fd hfd => ?_
  rw [forkSignal, if_pos hsignal, hg]
  have hget : ∀ (E : Proc.Crash → Prop) (s : Sched), s.signals g = some y →
      wp E (Proc.getSignals (some g)) (fun x s' => x = (g, y) ∧ s' = s) s := by
    intro E s hs
    rw [wp, Proc.getSignals, hs]
    exact ⟨rfl, rfl⟩
  refine wp_then (wp_onSched.mpr (wp_imp (hget _ _ hy) ?_))
  rintro _ _ ⟨rfl, rfl⟩
  exact wp_then (wp_onSched.mpr (hrest t n pid fd y hfd))

/-- With everything but the stack there, the error path undoes what was done. -/
theorem noStack_same (hsignal : grants.signal = true) (hpair : ¬ OnlyLastPair (freePages vm.pages)) :
    wp (fun _ => True) (sysFork kernelPgdir cur child grants) (fun r m' => r = -ENOMEM → Same m m' cur) m := by
  obtain ⟨_, _, e3, e4⟩ := stack_consts
  refine wp_forkStack h htask hmm hfiles harray hsignal fun t n pid fd y hfd => ?_
  refine wp_then (wp_onVm.mpr ?_)
  rcases allocKstack_cases vm with ⟨heq, _⟩ | ⟨st, hrun, hfirst, _, htop⟩
  · rw [heq]
    dsimp only
    rw [if_pos rfl]
    refine wp_mono (undo_child hfd) ?_ fun _ he => he.elim
    rintro r m' ⟨_, rfl⟩ _
    exact same_of_undone h (copy_returned h.mm h.kernel hmm (Takes.refl ..))
  · dsimp only
    rw [if_neg]
    · exact wp_imp attach_result fun r _ hr he => absurd he hr
    · intro h0
      have hst : st = bitmapBits - kstackPages := by
        have := htop.mp h0
        omega
      rw [hst] at hrun hfirst
      exact hpair ⟨hrun, hfirst⟩

/-- The last two frames are taken and lost. -/
theorem lastPair_lost (hsignal : grants.signal = true) (hpair : OnlyLastPair (freePages vm.pages)) :
    ∃ n, n ∈ freePages m.vm.pages ∧ wp Never (sysFork kernelPgdir cur child grants)
      (fun r m' => r = -ENOMEM ∧ n ∉ freePages m'.vm.pages) m := by
  obtain ⟨_, _, e3, e4⟩ := stack_consts
  rcases allocKstack_cases vm with ⟨_, hnone⟩ | ⟨st, hrun, hfirst, htake, htop⟩
  · exact absurd hpair.1 (hnone _)
  · have hle := hpair.2 st hrun
    have hge := hfirst _ hpair.1
    have hlost := copy_returned h.mm h.kernel hmm htake
    have hmem : st ∈ ({st, st + 1} : Set Nat) := Set.mem_insert ..
    refine ⟨st, mem_free.mp (hlost.was_free st hmem), ?_⟩
    refine wp_forkStack h htask hmm hfiles harray hsignal fun t n pid fd y hfd => ?_
    refine wp_then (wp_onVm.mpr ?_)
    dsimp only
    rw [if_pos (htop.mpr (by omega))]
    refine wp_imp (undo_child hfd) ?_
    rintro r m' ⟨hr, rfl⟩
    exact ⟨hr, fun hf => hlost.disjoint st hmem (mem_free.mpr hf)⟩

end Copied

/-! ## 6. Which failures change nothing -/

/-- The allocations of `mm_clone` succeed. -/
def CopyGranted (m : Machine) (cur : Owner) : Prop :=
  m.vm.granted 0 = true ∧ spaceCount m.vm cur.mm.dir ≤ Vmm.frames m.vm ∧
    ∀ i < cur.mm.vmas.length, m.vm.granted (i + 1) = true

/-- The first allocation fails, or those of the address space, the table and the signals all succeed and the frames
    left are not such that the stack would get the last two. (If the array of descriptors is missing, the call does
    not come back with an error.) -/
def Undoable (m : Machine) (cur : Owner) (grants : Grants) : Prop :=
  grants.task = false ∨ CopyGranted m cur ∧ grants.files = true ∧ (grants.array = false ∨
    grants.signal = true ∧ ¬ OnlyLastPair (above (spaceCount m.vm cur.mm.dir) (freePages m.vm.pages)))

theorem copyGranted_iff (h : Owns kernelPgdir m cur child) :
    (mmClone kernelPgdir cur.mm m.vm).1.isSome ↔ CopyGranted m cur :=
  mmClone_iff h.mm.space h.mm.aligned h.mm.apart fun hf => h.zero (mem_free.mp hf)

theorem Same.refl (h : Owns kernelPgdir m cur child) : Same m m cur := by
  obtain ⟨n, hn, _, _, hfree, hfree'⟩ := h.stack
  refine ⟨unchanged_of_cells h.mm (fun _ _ => rfl) (Finset.Subset.refl _), ⟨rfl, fun _ => rfl⟩,
    ⟨rfl, fun _ _ hg => hg⟩, fun k hk f hf => ⟨?_, rfl⟩, ⟨rfl, rfl⟩, rfl⟩
  have hkn : k = n := stackTop_inj (hk.symm.trans hn)
  rcases hf with rfl | rfl
  · rw [hkn]
    exact hfree
  · rw [hkn]
    exact hfree'

/-- A failed call after which other frames are free. -/
theorem not_same_of_frames {P : Machine → Prop}
    (hn : ∀ m', P m' → ¬ (n ∈ freePages m'.vm.pages ↔ n ∈ freePages m.vm.pages))
    (hwp : wp Never (sysFork kernelPgdir cur child grants) (fun r m' => r = -ENOMEM ∧ P m') m) :
    ¬ ∀ m', sysFork kernelPgdir cur child grants m = .ok (-ENOMEM, m') → Same m m' cur := by
  intro hall
  rcases (wp_iff _).mp hwp with ⟨r, m', hrun, rfl, hP⟩ | ⟨_, _, he⟩
  · refine hn m' hP ?_
    rw [(hall m' hrun).frames]
  · exact he

/-- **When a failed fork changes nothing.** -/
theorem fork_failure_iff (h : Owns kernelPgdir m cur child) :
    (∀ m', sysFork kernelPgdir cur child grants m = .ok (-ENOMEM, m') → Same m m' cur) ↔
      Undoable m cur grants := by
  have hfreed : (∃ n, n ∉ freePages m.vm.pages ∧ wp Never (sysFork kernelPgdir cur child grants)
      (fun r m' => r = -ENOMEM ∧ n ∈ freePages m'.vm.pages) m) →
      ¬ ∀ m', sysFork kernelPgdir cur child grants m = .ok (-ENOMEM, m') → Same m m' cur := by
    rintro ⟨n, hn, hwp⟩
    exact not_same_of_frames (fun m' hm' hiff => hn (hiff.mp hm')) hwp
  have hcopy := copyGranted_iff h
  unfold Undoable
  cases htask : grants.task with
  | false =>
    refine ⟨fun _ => .inl rfl, fun _ m' hm' => ?_⟩
    rw [sysFork, if_neg (by rw [htask]; decide)] at hm'
    cases hm'
    exact .refl h
  | true =>
    generalize hmm : mmClone kernelPgdir cur.mm m.vm = r at hcopy
    obtain ⟨_ | mm, vm⟩ := r
    · refine iff_of_false (hfreed (noMm_frees h htask hmm)) ?_
      rintro (hbad | ⟨hgranted, _⟩)
      · cases hbad
      · exact Bool.false_ne_true (hcopy.mpr hgranted)
    · have hgranted := hcopy.mp rfl
      cases hfiles : grants.files with
      | false =>
        refine iff_of_false (hfreed (noFiles_frees h htask hmm hfiles)) ?_
        rintro (hbad | ⟨_, hbad, _⟩) <;> cases hbad
      | true =>
        cases harray : grants.array with
        | false =>
          refine iff_of_true (fun m' hm' => ?_) (.inr ⟨hgranted, rfl, .inl rfl⟩)
          exact absurd rfl (wp_ok (noArray_result h htask hmm hfiles harray) hm')
        | true =>
          cases hsignal : grants.signal with
          | false =>
            refine iff_of_false (hfreed (noSignal_frees h htask hmm hfiles harray hsignal)) ?_
            rintro (hbad | ⟨_, _, hbad | ⟨hbad, _⟩⟩) <;> cases hbad
          | true =>
            have hleft := mmClone_left h.mm h.zero hmm
            rw [← hleft]
            by_cases hpair : OnlyLastPair (freePages vm.pages)
            · obtain ⟨n, hn, hwp⟩ := lastPair_lost h htask hmm hfiles harray hsignal hpair
              refine iff_of_false (not_same_of_frames (fun m' hm' hiff => hm' (hiff.mpr hn)) hwp) ?_
              rintro (hbad | ⟨_, _, hbad | ⟨_, hbad⟩⟩)
              · cases hbad
              · cases hbad
              · exact hbad hpair
            · refine iff_of_true (fun m' hm' => ?_) (.inr ⟨hgranted, rfl, .inr ⟨rfl, hpair⟩⟩)
              exact wp_ok (noStack_same h htask hmm hfiles harray hsignal hpair) hm' rfl

/-- A task with an address space of one page and its stack in the frames 8 and 9; the frames 4 to 7 are free. -/
def oneTask : Sched := { Proc.schedInit with
  tasks := fun t => if t = 0 then some ⟨0, 0, .running, 0, some 0, 0, none, [], false⟩ else none
  signals := fun g => if g = 0 then some ⟨0, fun _ => .dfl⟩ else none
  nextSignal := 1 }

def oneOwner : Owner := ⟨onePageMm, 0, stackTop 8, none, none⟩

/-- The slab allocations inside `mm_clone` end as `slab` says. -/
def oneMachine (slab : List Bool) : Machine := ⟨{ onePage with slab := slab }, Fd.booted, oneTask⟩

theorem oneMachine_free {slab : List Bool} {f : Nat} :
    f ∈ freePages (oneMachine slab).vm.pages ↔ f < bitmapBits ∧ Bitmap.tst fourFree.pages.bitmap f = true :=
  mem_freePages

theorem oneMachine_owns (slab : List Bool) : Owns (10 * pageSize) (oneMachine slab) oneOwner 1 := by
  have hnot : ∀ f, Bitmap.tst fourFree.pages.bitmap f = false → f ∉ freePages (oneMachine slab).vm.pages := by
    intro f hf hmem
    rw [(oneMachine_free.mp hmem).2] at hf
    cases hf
  have hwf := onePage_wellFormed
  refine ⟨⟨hwf.aligned, hwf.distinct, hwf.allocated, hwf.count, hwf.word⟩, hnot 0 (by decide), fun n hn => ?_,
    Fd.booted_start.between, rfl, rfl, ⟨_, 0, _, rfl, rfl, rfl⟩, rfl, 8, rfl, by decide, ?_, hnot 8 (by decide),
    hnot 9 (by decide)⟩
  · have h10 : n = 10 := by
      rw [show pageSize = 4096 from rfl] at hn
      omega
    rw [h10]
    exact hnot 10 (by decide)
  · rw [bitmapBits_eq.1]
    decide

/-- A copy of that task takes three of the four free frames, and no two are left for its stack. -/
theorem oneTask_undoable : Undoable (oneMachine []) oneOwner ⟨true, true, true, true⟩ := by
  refine .inr ⟨⟨rfl, ?_, nofun⟩, rfl, .inr ⟨rfl, ?_⟩⟩
  · have hdir : oneOwner.mm.dir = 1 := by decide
    rw [hdir]
    change spaceCount onePage 1 ≤ _
    rw [onePage_count]
    exact onePage_frames
  · intro hpair
    have hmem := hpair.1.2 (bitmapBits - kstackPages) le_rfl (by decide)
    have hbit := (oneMachine_free.mp (Finset.mem_filter.mp hmem).1).2
    exact absurd hbit (by decide)

theorem fork_failure_iff_oneTask : Undoable (oneMachine []) oneOwner ⟨true, true, true, true⟩ ∧
    (∀ m', sysFork (10 * pageSize) oneOwner 1 ⟨true, true, true, true⟩ (oneMachine []) = .ok (-ENOMEM, m') →
      Same (oneMachine []) m' oneOwner) ∧
    ∃ m', sysFork (10 * pageSize) oneOwner 1 ⟨false, true, true, true⟩ (oneMachine []) = .ok (-ENOMEM, m') ∧
      Same (oneMachine []) m' oneOwner := by
  have hrefused : sysFork (10 * pageSize) oneOwner 1 ⟨false, true, true, true⟩ (oneMachine []) =
      .ok (-ENOMEM, oneMachine []) := rfl
  exact ⟨oneTask_undoable, (fork_failure_iff (oneMachine_owns [])).mpr oneTask_undoable, _, hrefused,
    (fork_failure_iff (oneMachine_owns [])).mpr (.inl rfl) _ hrefused⟩

/-- No `mm_struct` for the child: the parent's descriptors, signals and stack are gone. -/
theorem failed_fork_frees_parent : Owns (10 * pageSize) (oneMachine [false]) oneOwner 1 ∧
    ∃ m', sysFork (10 * pageSize) oneOwner 1 ⟨true, true, true, true⟩ (oneMachine [false]) = .ok (-ENOMEM, m') ∧
      (m'.fd.tables oneOwner.files).isNone = true ∧ (m'.sched.signals 0).isNone = true ∧
      8 ∉ freePages (oneMachine [false]).vm.pages ∧ 8 ∈ freePages m'.vm.pages := by
  have hrun : ((sysFork (10 * pageSize) oneOwner 1 ⟨true, true, true, true⟩ (oneMachine [false])).toOption.any
      fun x => decide (x.1 = -ENOMEM ∧ (x.2.fd.tables oneOwner.files).isNone = true ∧
        (x.2.sched.signals 0).isNone = true ∧ Bitmap.tst x.2.vm.pages.bitmap 8 = true)) = true := by
    decide +kernel
  refine ⟨oneMachine_owns [false], ?_⟩
  cases hcall : sysFork (10 * pageSize) oneOwner 1 ⟨true, true, true, true⟩ (oneMachine [false]) with
  | error c =>
    rw [hcall] at hrun
    cases hrun
  | ok x =>
    obtain ⟨r, m'⟩ := x
    rw [hcall] at hrun
    obtain ⟨hr, htable, hsignal, hbit⟩ := of_decide_eq_true hrun
    have hr : r = -ENOMEM := hr
    refine ⟨m', by rw [hr], htable, hsignal, fun h8 => ?_, mem_freePages.mpr ⟨?_, hbit⟩⟩
    · exact absurd (oneMachine_free.mp h8).2 (by decide)
    · rw [bitmapBits_eq.1]
      decide

end OreUnix.Fork
