/-
  Subject: THE CONTEXT SWITCH: `__switch_to` of boot/boot.S, called from `context_switch`.

  * `switchTo` -- the instructions of `__switch_to`, over the registers and a memory of aligned words.
  * `World` -- tasks with a context and a kernel stack of their own. The running task computes, or calls
    `__switch_to`; what the processor held when a task called it is kept beside the state.
  * `Kept` -- while a task is switched out, its context holds what `__switch_to` stored there and its stack is
    untouched.

  The stack pointer stored is the one inside `__switch_to`, with the return address still on the stack, and the
  resuming half jumps to that address instead of returning to it. So a resumed task has every register back and its
  stack intact, and its stack pointer one word too low.
-/
import Mathlib.Data.Set.Basic
import Mathlib.Logic.Function.Basic
import OreUnix.Lib.Run

namespace OreUnix.ContextSwitch

open Function (update update_of_ne update_self)
open Lts

abbrev Word := BitVec 32

/-! ## 1. The processor -/

inductive Reg where
  | eax | ecx | edx | ebx | esp | ebp | esi | edi
  deriving DecidableEq, Repr

structure Cpu where
  regs : Reg → Word
  eflags : Word
  eip : Word
  mem : Word → Word

inductive Instr where
  | load (off : Word) (base dst : Reg)
  | store (src : Reg) (off : Word) (base : Reg)
  | push (r : Reg)
  | pop (r : Reg)
  | pushfl
  | popfl
  | jmp (r : Reg)

def Cpu.push (c : Cpu) (v : Word) : Cpu :=
  { c with
    regs := update c.regs .esp (c.regs .esp - 4)
    mem := update c.mem (c.regs .esp - 4) v }

/-- The word on top of the stack goes where `f` puts it. -/
def Cpu.pop (c : Cpu) (f : Cpu → Word → Cpu) : Cpu :=
  f { c with regs := update c.regs .esp (c.regs .esp + 4) } (c.mem (c.regs .esp))

def exec (c : Cpu) : Instr → Cpu
  | .load off base dst => { c with regs := update c.regs dst (c.mem (c.regs base + off)) }
  | .store src off base => { c with mem := update c.mem (c.regs base + off) (c.regs src) }
  | .push r => c.push (c.regs r)
  | .pop r => c.pop fun c v => { c with regs := update c.regs r v }
  | .pushfl => c.push c.eflags
  | .popfl => c.pop fun c v => { c with eflags := v }
  | .jmp r => { c with eip := c.regs r }

def run (c : Cpu) (prog : List Instr) : Cpu := prog.foldl exec c

/-! ## 2. `__switch_to` -/

/-- `struct context`. -/
inductive Field where
  | edi | esi | ebx | ebp | esp | eip | eflags
  deriving DecidableEq, Repr

def Field.offset : Field → Word
  | edi => 0 | esi => 4 | ebx => 8 | ebp => 12 | esp => 16 | eip => 20 | eflags => 24

theorem offset_injective {f g : Field} (h : f.offset = g.offset) : f = g := by
  cases f <;> cases g <;> first | rfl | exact absurd h (by decide)

/-- `__switch_to(old, new)`: the arguments are read and the old context is written. -/
def saveOld : List Instr :=
  [.load 4 .esp .eax, .load 8 .esp .edx, .store .edi 0 .eax, .store .esi 4 .eax, .store .ebx 8 .eax,
    .store .ebp 12 .eax, .store .esp 16 .eax, .load 0 .esp .ecx, .store .ecx 20 .eax, .pushfl, .pop .ecx,
    .store .ecx 24 .eax]

/-- The new context is read; the last instruction jumps. -/
def restoreNew : List Instr :=
  [.load 0 .edx .edi, .load 4 .edx .esi, .load 8 .edx .ebx, .load 12 .edx .ebp, .load 16 .edx .esp,
    .load 20 .edx .ecx, .load 24 .edx .eax, .push .eax, .popfl, .jmp .ecx]

def switchTo : List Instr := saveOld ++ restoreNew

/-- The near call, five bytes long, at `eip`. -/
def Cpu.call (c : Cpu) : Cpu := c.push (c.eip + 5)

/-- What `__switch_to` puts into the fields of the old context. -/
def Cpu.field (c : Cpu) : Field → Word
  | .edi => c.regs .edi | .esi => c.regs .esi | .ebx => c.regs .ebx | .ebp => c.regs .ebp
  | .esp => c.regs .esp | .eip => c.mem (c.regs .esp) | .eflags => c.eflags

def Cpu.put (c : Cpu) (old : Word) (m : Word → Word) (f : Field) : Word → Word :=
  update m (old + f.offset) (c.field f)

/-- The memory after the saving half; the flags pass through the word below the stack pointer. -/
def Cpu.save (c : Cpu) (old : Word) : Word → Word :=
  let m := [Field.edi, .esi, .ebx, .ebp, .esp, .eip].foldl (c.put old) c.mem
  c.put old (update m (c.regs .esp - 4) c.eflags) .eflags

/-- The restoring half, from a memory. -/
def restored (m : Word → Word) (new : Word) : Cpu where
  regs
    | .eax => m (new + 24) | .ecx => m (new + 20) | .edx => new | .ebx => m (new + 8)
    | .esp => m (new + 16) | .ebp => m (new + 12) | .esi => m (new + 4) | .edi => m (new + 0)
  eflags := m (new + 24)
  eip := m (new + 20)
  mem := update m (m (new + 16) - 4) (m (new + 24))

theorem foldl_put_other {c : Cpu} {old p : Word} (fs : List Field) (h : ∀ f ∈ fs, p ≠ old + f.offset)
    (m : Word → Word) : fs.foldl (c.put old) m p = m p := by
  induction fs generalizing m with
  | nil => rfl
  | cons f fs ih =>
    rw [List.foldl_cons, ih (fun g hg => h g (.tail _ hg))]
    exact update_of_ne (h f (.head _)) ..

theorem foldl_put_slot {c : Cpu} {old : Word} {f : Field} {fs : List Field} (hf : f ∈ fs) (m : Word → Word) :
    fs.foldl (c.put old) m (old + f.offset) = c.field f := by
  induction fs generalizing m with
  | nil => exact absurd hf List.not_mem_nil
  | cons g fs ih =>
    rw [List.foldl_cons]
    by_cases hmem : f ∈ fs
    · exact ih hmem _
    · have hfg : f = g := (List.mem_cons.mp hf).resolve_right hmem
      subst hfg
      rw [foldl_put_other _ fun g hg heq => ?_]
      · exact update_self ..
      · have hoff : f.offset = g.offset := BitVec.add_right_inj old |>.mp heq
        cases offset_injective hoff
        exact hmem hg

/-- The saving half leaves the new context's address in `edx`; the old context must not lie on the return address. -/
theorem run_saveOld (c : Cpu) {old : Word} (hold : c.mem (c.regs .esp + 4) = old)
    (hret : ∀ f : Field, c.regs .esp ≠ old + f.offset) :
    (run c saveOld).mem = c.save old ∧ (run c saveOld).regs .edx = c.mem (c.regs .esp + 8) := by
  have hread := foldl_put_other (c := c) [.edi, .esi, .ebx, .ebp, .esp] (fun f _ => hret f) c.mem
  constructor
  · simp [run, saveOld, exec, Cpu.push, Cpu.pop, Cpu.save, Cpu.put, Cpu.field, Field.offset] at hold hread ⊢
    rw [hold, hread]
  · simp [run, saveOld, exec, Cpu.push, Cpu.pop]

theorem run_restoreNew (c : Cpu) : run c restoreNew = restored c.mem (c.regs .edx) := by
  have hregs : (run c restoreNew).regs = (restored c.mem (c.regs .edx)).regs := by
    funext r
    cases r with
    | esp => exact BitVec.sub_add_cancel ..
    | _ => simp [run, restoreNew, exec, Cpu.push, Cpu.pop, restored]
  have hrest : (run c restoreNew).eflags = c.mem (c.regs .edx + 24) ∧
      (run c restoreNew).eip = c.mem (c.regs .edx + 20) ∧
      (run c restoreNew).mem = (restored c.mem (c.regs .edx)).mem := by
    simp [run, restoreNew, exec, Cpu.push, Cpu.pop, restored]
  cases hrun : run c restoreNew with
  | mk regs eflags eip mem =>
    rw [hrun] at hregs hrest
    obtain ⟨hflags, heip, hmem⟩ := hrest
    dsimp only at hregs hflags heip hmem
    subst hregs hflags heip hmem
    rfl

/-- `__switch_to` is its two halves. -/
theorem run_switchTo (c : Cpu) {old : Word} (hold : c.mem (c.regs .esp + 4) = old)
    (hret : ∀ f : Field, c.regs .esp ≠ old + f.offset) :
    run c switchTo = restored (c.save old) (c.mem (c.regs .esp + 8)) := by
  obtain ⟨hmem, hedx⟩ := run_saveOld c hold hret
  have happ : run c switchTo = run (run c saveOld) restoreNew := List.foldl_append
  rw [happ, run_restoreNew, hmem, hedx]

/-! ## 3. Tasks -/

/-- Where the contexts and the kernel stacks of the tasks lie. -/
structure Layout (Task : Type) where
  ctx : Task → Word
  stack : Task → Set Word
  slot_injective : ∀ {t u f g}, ctx t + Field.offset f = ctx u + Field.offset g → t = u ∧ f = g
  slot_notMem : ∀ t f u, ctx t + Field.offset f ∉ stack u
  stack_disjoint : ∀ {t u p}, p ∈ stack t → p ∈ stack u → t = u

variable {Task : Type}

/-- The address of a field of `t->ctx`. -/
def Layout.slot (l : Layout Task) (t : Task) (f : Field) : Word := l.ctx t + f.offset

/-- `saved t`: what the processor held when `t`, switched out since, called `__switch_to`. A new task, whose context
    `task_create` or `sys_fork` wrote, has called nothing. -/
structure World (Task : Type) where
  cpu : Cpu
  running : Task
  saved : Task → Option Cpu

inductive Event (Task : Type) where
  | work (c : Cpu)
  | switch (next : Task)

/-- The running task can call `__switch_to` for `next`: the arguments are pushed, and both stacks have room for what
    the two halves push. -/
structure CanSwitch (l : Layout Task) (w : World Task) (next : Task) : Prop where
  other : next ≠ w.running
  old : w.cpu.mem (w.cpu.regs .esp) = l.ctx w.running
  new : w.cpu.mem (w.cpu.regs .esp + 4) = l.ctx next
  high : 8 ≤ (w.cpu.regs .esp).toNat
  ret : w.cpu.regs .esp - 4 ∈ l.stack w.running
  flags : w.cpu.regs .esp - 8 ∈ l.stack w.running
  room : w.saved next = none → w.cpu.mem (l.slot next .esp) - 4 ∈ l.stack next

/-- The running task leaves the contexts and stacks of those switched out alone. -/
inductive Step [DecidableEq Task] (l : Layout Task) : World Task → Event Task → World Task → Prop
  | work {w : World Task} {c : Cpu}
      (hctx : ∀ t f, w.saved t ≠ none → c.mem (l.slot t f) = w.cpu.mem (l.slot t f))
      (hstack : ∀ t p, w.saved t ≠ none → p ∈ l.stack t → c.mem p = w.cpu.mem p) :
      Step l w (.work c) { w with cpu := c }
  | switch {w : World Task} {next : Task} (h : CanSwitch l w next) :
      Step l w (.switch next) {
        cpu := run w.cpu.call switchTo
        running := next
        saved := update (update w.saved w.running (some w.cpu)) next none }

/-- A task that held `a` when it called goes on as if the call had returned. -/
def Transparent (stack : Set Word) (a c : Cpu) : Prop :=
  c.eip = a.eip + 5 ∧ (∀ r ∈ [Reg.edi, .esi, .ebx, .ebp], c.regs r = a.regs r) ∧ c.eflags = a.eflags ∧
    c.regs .esp = a.regs .esp ∧ ∀ p ∈ stack, (a.regs .esp).toNat ≤ p.toNat → c.mem p = a.mem p

/-! ## 4. What a switched-out task keeps -/

/-- A task switched out has what it called with in its context and on its stack. -/
structure KeptOf (l : Layout Task) (m : Word → Word) (t : Task) (a : Cpu) : Prop where
  fields : ∀ f, m (l.slot t f) = a.call.field f
  stack : ∀ p ∈ l.stack t, (a.regs .esp).toNat ≤ p.toNat → m p = a.mem p
  high : 8 ≤ (a.regs .esp).toNat
  room : a.regs .esp - 8 ∈ l.stack t

def Kept (l : Layout Task) (w : World Task) : Prop :=
  w.saved w.running = none ∧ ∀ t a, w.saved t = some a → KeptOf l w.cpu.mem t a

variable {l : Layout Task}

theorem slot_eq {t u : Task} {f g : Field} (h : l.slot t f = l.slot u g) : t = u ∧ f = g := l.slot_injective h

theorem slot_ne {p : Word} {u : Task} (hp : p ∈ l.stack u) (t : Task) (f : Field) : p ≠ l.slot t f := by
  intro heq
  rw [heq] at hp
  exact l.slot_notMem t f u hp

/-- The saving half, read back. -/
theorem save_slot {c : Cpu} {t : Task} (hflags : ∀ f, c.regs .esp - 4 ≠ l.slot t f) (f : Field) :
    c.save (l.ctx t) (l.slot t f) = c.field f := by
  by_cases hf : f = .eflags
  · subst hf
    exact update_self ..
  · have hslot : l.slot t f ≠ l.ctx t + Field.eflags.offset := fun h => hf (slot_eq h).2
    rw [Cpu.save, Cpu.put, update_of_ne hslot, update_of_ne (hflags f).symm]
    refine foldl_put_slot ?_ c.mem
    cases f <;> first | exact absurd rfl hf | decide

/-- Beside the old context and the word below the stack pointer the saving half writes nothing. -/
theorem save_other {c : Cpu} {old p : Word} (hslot : ∀ f : Field, p ≠ old + f.offset)
    (hflags : p ≠ c.regs .esp - 4) : c.save old p = c.mem p := by
  rw [Cpu.save, Cpu.put, update_of_ne (hslot .eflags), update_of_ne hflags]
  exact foldl_put_other _ (fun f _ => hslot f) c.mem

section Switch

variable {w : World Task} {next : Task}

theorem call_esp (c : Cpu) : c.call.regs .esp = c.regs .esp - 4 := by
  simp [Cpu.call, Cpu.push]

theorem call_mem_of_ne {c : Cpu} {p : Word} (h : p ≠ c.regs .esp - 4) : c.call.mem p = c.mem p := update_of_ne h ..

/-- The memory between the halves of a switch. -/
def CanSwitch.between (_ : CanSwitch l w next) : Word → Word := w.cpu.call.save (l.ctx w.running)

section Switch

variable (h : CanSwitch l w next)

include h

/-- The processor after the switch. -/
theorem CanSwitch.run : ContextSwitch.run w.cpu.call switchTo = restored h.between (l.ctx next) := by
  have hold : w.cpu.call.mem (w.cpu.call.regs .esp + 4) = l.ctx w.running := by
    rw [call_esp, BitVec.sub_add_cancel, call_mem_of_ne (by bv_omega)]
    exact h.old
  have hnew : w.cpu.call.mem (w.cpu.call.regs .esp + 8) = l.ctx next := by
    have heq : w.cpu.call.regs .esp + 8 = w.cpu.regs .esp + 4 := by
      rw [call_esp]
      bv_omega
    rw [heq, call_mem_of_ne (by bv_omega)]
    exact h.new
  rw [run_switchTo _ hold, hnew]
  · rfl
  · intro f
    rw [call_esp]
    exact slot_ne h.ret w.running f

/-- A word outside of the running task's context and stack is as it was. -/
theorem CanSwitch.between_other {p : Word} (hslot : ∀ f, p ≠ l.slot w.running f)
    (hstack : p ∉ l.stack w.running) : h.between p = w.cpu.mem p := by
  have hret : p ≠ w.cpu.regs .esp - 4 := fun heq => hstack (heq ▸ h.ret)
  have hflags : p ≠ w.cpu.call.regs .esp - 4 := by
    rw [call_esp]
    intro heq
    have h8 : w.cpu.regs .esp - 4 - 4 = w.cpu.regs .esp - 8 := by bv_omega
    rw [h8] at heq
    exact hstack (heq ▸ h.flags)
  rw [between, save_other hslot hflags, call_mem_of_ne hret]

/-- What the resuming half pushes and pops again lies on the stack of the task resumed. -/
theorem CanSwitch.pushed_mem (hk : Kept l w) : h.between (l.slot next .esp) - 4 ∈ l.stack next := by
  have hbetween : h.between (l.slot next .esp) = w.cpu.mem (l.slot next .esp) :=
    h.between_other (fun f heq => h.other (slot_eq heq).1) (l.slot_notMem _ _ _)
  rw [hbetween]
  cases hsaved : w.saved next with
  | none => exact h.room hsaved
  | some a =>
    have hkept := hk.2 next a hsaved
    have hesp : a.call.field .esp - 4 = a.regs .esp - 8 := by
      rw [Cpu.field, call_esp]
      bv_omega
    rw [hkept.fields, hesp]
    exact hkept.room

/-- The memory after the switch, outside of the stack of the task resumed. -/
theorem CanSwitch.mem_eq (hk : Kept l w) {p : Word} (hp : p ∉ l.stack next) :
    (ContextSwitch.run w.cpu.call switchTo).mem p = h.between p := by
  rw [h.run]
  refine update_of_ne (fun heq => hp ?_) ..
  rw [heq]
  exact h.pushed_mem hk

/-- The task switched out leaves what it called with in its context and on its stack. -/
theorem CanSwitch.kept_running (hk : Kept l w) :
    KeptOf l (ContextSwitch.run w.cpu.call switchTo).mem w.running w.cpu := by
  have hesp : w.cpu.call.regs .esp - 4 = w.cpu.regs .esp - 8 := by
    rw [call_esp]
    bv_omega
  have hhigh := h.high
  refine ⟨fun f => ?_, fun p hp hle => ?_, h.high, h.flags⟩
  · rw [h.mem_eq hk fun hp => slot_ne hp w.running f rfl]
    refine save_slot (fun g => ?_) f
    rw [hesp]
    exact slot_ne h.flags w.running g
  · rw [h.mem_eq hk fun hnext => h.other (l.stack_disjoint hnext hp)]
    rw [between, save_other (slot_ne hp w.running) (by rw [hesp]; bv_omega), call_mem_of_ne (by bv_omega)]

/-- The tasks that stay switched out. -/
theorem CanSwitch.kept_other (hk : Kept l w) {t : Task} {a : Cpu}
    (hsaved : w.saved t = some a) (hrun : t ≠ w.running) (hnext : t ≠ next) :
    KeptOf l (ContextSwitch.run w.cpu.call switchTo).mem t a := by
  have hkept := hk.2 t a hsaved
  refine ⟨fun f => ?_, fun p hp hle => ?_, hkept.high, hkept.room⟩
  · rw [h.mem_eq hk fun hp => slot_ne hp t f rfl,
      h.between_other (fun g heq => hrun (slot_eq heq).1) (l.slot_notMem t f w.running)]
    exact hkept.fields f
  · rw [h.mem_eq hk fun hp' => hnext (l.stack_disjoint hp hp'),
      h.between_other (slot_ne hp w.running) fun hp' => hrun (l.stack_disjoint hp hp')]
    exact hkept.stack p hp hle

end Switch

end Switch

theorem step_kept [DecidableEq Task] {w w' : World Task} {e : Event Task} (hk : Kept l w) (hs : Step l w e w') :
    Kept l w' := by
  cases hs with
  | work hctx hstack =>
    refine ⟨hk.1, fun t a hsaved => ?_⟩
    have hne : w.saved t ≠ none := by
      rw [hsaved]
      exact Option.some_ne_none a
    have hkept := hk.2 t a hsaved
    refine ⟨fun f => ?_, fun p hp hle => ?_, hkept.high, hkept.room⟩
    · exact (hctx t f hne).trans (hkept.fields f)
    · exact (hstack t p hne hp).trans (hkept.stack p hp hle)
  | switch h =>
    rename_i next
    refine ⟨update_self .., fun t a hsaved => ?_⟩
    dsimp only at hsaved
    have hnext : t ≠ next := by
      intro heq
      rw [heq, update_self] at hsaved
      cases hsaved
    rw [update_of_ne hnext] at hsaved
    by_cases hrun : t = w.running
    · subst hrun
      rw [update_self] at hsaved
      cases hsaved
      exact h.kept_running hk
    · rw [update_of_ne hrun] at hsaved
      exact h.kept_other hk hsaved hrun hnext

/-! ## 5. Resuming -/

/-- What a resumed task gets: everything a return would leave, with the stack pointer a word lower. -/
def Resumed (stack : Set Word) (a c : Cpu) : Prop :=
  c.eip = a.eip + 5 ∧ (∀ r ∈ [Reg.edi, .esi, .ebx, .ebp], c.regs r = a.regs r) ∧ c.eflags = a.eflags ∧
    c.regs .esp = a.regs .esp - 4 ∧ ∀ p ∈ stack, (a.regs .esp).toNat ≤ p.toNat → c.mem p = a.mem p

theorem Resumed.not_transparent {stack : Set Word} {a c : Cpu} (h : Resumed stack a c) : ¬ Transparent stack a c := by
  intro ht
  have hlow := h.2.2.2.1
  have hsame := ht.2.2.2.1
  rw [hsame] at hlow
  bv_omega

theorem CanSwitch.resumed {w : World Task} {t : Task} {a : Cpu} (h : CanSwitch l w t) (hk : Kept l w)
    (hsaved : w.saved t = some a) : Resumed (l.stack t) a (ContextSwitch.run w.cpu.call switchTo) := by
  have hkept := hk.2 t a hsaved
  have hhigh := hkept.high
  have hbetween : ∀ f, h.between (l.slot t f) = a.call.field f := fun f => by
    rw [h.between_other (fun g heq => h.other (slot_eq heq).1) (l.slot_notMem _ _ _)]
    exact hkept.fields f
  have hret : a.call.mem (a.call.regs .esp) = a.eip + 5 := by
    rw [call_esp]
    exact update_self ..
  have hpushed : h.between (l.ctx t + 16) - 4 = a.regs .esp - 8 := by
    have hesp : h.between (l.ctx t + 16) = a.call.regs .esp := hbetween .esp
    rw [hesp, call_esp]
    bv_omega
  rw [h.run]
  refine ⟨(hbetween .eip).trans hret, fun r hr => ?_, hbetween .eflags, (hbetween .esp).trans (call_esp a),
    fun p hp hle => ?_⟩
  · simp only [List.mem_cons, List.not_mem_nil, or_false] at hr
    rcases hr with rfl | rfl | rfl | rfl
    · exact hbetween .edi
    · exact hbetween .esi
    · exact hbetween .ebx
    · exact hbetween .ebp
  · have hne : p ≠ h.between (l.ctx t + 16) - 4 := by
      rw [hpushed]
      bv_omega
    show update h.between _ _ p = _
    rw [update_of_ne hne, h.between_other (slot_ne hp w.running) fun hp' => h.other (l.stack_disjoint hp hp')]
    exact hkept.stack p hp hle

/-- **No resumed task goes on as its call would have returned.** In every run of tasks that compute and switch, a task
    that called `__switch_to` and is switched to again has its registers, its flags and its stack back and a stack
    pointer one word below the one a return would leave. -/
theorem resumed_a_word_low [DecidableEq Task] {w w' w'' : World Task} {es : List (Event Task)} {t : Task} {a : Cpu}
    (hstart : ∀ t, w.saved t = none) (hrun : Run (Step l) w es w') (hsaved : w'.saved t = some a)
    (hs : Step l w' (.switch t) w'') :
    Resumed (l.stack t) a w''.cpu ∧ ¬ Transparent (l.stack t) a w''.cpu := by
  have hkept : Kept l w' := by
    refine hrun.invariant (I := Kept l) (fun _ _ _ hk hs => step_kept hk hs) ⟨hstart _, fun t a ht => ?_⟩
    rw [hstart t] at ht
    cases ht
  cases hs with
  | switch h =>
    have hres := h.resumed hkept hsaved
    exact ⟨hres, hres.not_transparent⟩

/-! ## 6. Two tasks -/

/-- The page a task's kernel stack is in. -/
def stackPage (t : Bool) : Nat := if t then 0xC0301 else 0xC0300

def twoTasks : Layout Bool where
  ctx t := if t then 0xC0201000 else 0xC0200000
  stack t := { p | p.toNat / 4096 = stackPage t }
  slot_injective {t u f g} h := by
    cases t <;> cases u <;> cases f <;> cases g <;> first | exact ⟨rfl, rfl⟩ | exact absurd h (by decide)
  slot_notMem t f u := by
    rw [Set.mem_ofPred_eq]
    cases t <;> cases u <;> cases f <;> decide
  stack_disjoint {t u p} h h' := by
    have hpage : stackPage t = stackPage u := Eq.trans (Eq.symm h) h'
    revert hpage
    cases t <;> cases u <;> decide

theorem mem_stack {t : Bool} {p : Word} : p ∈ twoTasks.stack t ↔ p.toNat / 4096 = stackPage t := Iff.rfl

/-- The first task about to call `__switch_to(&first->ctx, &second->ctx)`; the second is new, its context starts at
    0xC0105000 with its stack pointer at 0xC0301FFC. -/
def firstCalls : Cpu where
  regs
    | .esp => 0xC0300F00 | .ebp => 0xC0300F20 | .ebx => 7 | .esi => 8 | .edi => 9 | _ => 0
  eflags := 0x202
  eip := 0xC0104000
  mem p :=
    if p = 0xC0300F00 then 0xC0200000 else if p = 0xC0300F04 then 0xC0201000
    else if p = 0xC0201010 then 0xC0301FFC else if p = 0xC0201014 then 0xC0105000
    else if p = 0xC0201018 then 0x202 else 0

/-- The second task about to call `__switch_to(&second->ctx, &first->ctx)`. -/
def secondCalls : Cpu :=
  let c := run firstCalls.call switchTo
  { c with
    regs := update c.regs .esp 0xC0301F00
    eip := 0xC0106000
    mem := update (update c.mem 0xC0301F00 0xC0201000) 0xC0301F04 0xC0200000 }

def firstRuns : World Bool := ⟨firstCalls, false, fun _ => none⟩

/-- The second task runs after the first has switched to it. -/
def secondRuns : World Bool := ⟨secondCalls, true, update (update (fun _ => none) false (some firstCalls)) true none⟩

theorem first_switches : CanSwitch twoTasks firstRuns true where
  other := by decide
  old := by decide
  new := by decide
  high := by decide
  ret := mem_stack.mpr (by decide)
  flags := mem_stack.mpr (by decide)
  room _ := mem_stack.mpr (by decide)

theorem second_switches : CanSwitch twoTasks secondRuns false where
  other := by decide
  old := by decide
  new := by decide
  high := by decide
  ret := mem_stack.mpr (by decide)
  flags := mem_stack.mpr (by decide)
  room h := absurd h (by decide)

/-- What the second task does before it switches back is on its own stack. -/
theorem second_untouched {p : Word} (hp : p.toNat / 4096 ≠ stackPage true) :
    secondCalls.mem p = (run firstCalls.call switchTo).mem p := by
  have hne : ∀ q : Word, q.toNat / 4096 = stackPage true → p ≠ q := by
    intro q hq heq
    rw [heq] at hp
    exact hp hq
  show update (update _ _ _) _ _ p = _
  rw [update_of_ne (hne _ (by decide)), update_of_ne (hne _ (by decide))]

theorem second_works : Step twoTasks
    ⟨run firstCalls.call switchTo, true, secondRuns.saved⟩ (.work secondCalls) secondRuns := by
  refine .work (fun t f _ => second_untouched ?_) fun t p ht hp => second_untouched ?_
  · cases t <;> cases f <;> decide
  · cases t with
    | true => exact absurd rfl ht
    | false =>
      rw [mem_stack.mp hp]
      decide

theorem first_then_second : Run (Step twoTasks) firstRuns [.switch true, .work secondCalls] secondRuns :=
  .cons (.switch first_switches) (.cons second_works (.nil _))

/-- The first task called with its stack pointer at 0xC0300F00 and comes back with 0xC0300EFC. -/
theorem first_resumes_low : ∃ w : World Bool,
    Run (Step twoTasks) firstRuns [.switch true, .work secondCalls] secondRuns ∧
    Step twoTasks secondRuns (.switch false) w ∧ secondRuns.saved false = some firstCalls ∧
    firstCalls.regs .esp = 0xC0300F00 ∧ w.cpu.regs .esp = 0xC0300EFC ∧
    ¬ Transparent (twoTasks.stack false) firstCalls w.cpu := by
  refine ⟨_, first_then_second, .switch second_switches, rfl, rfl, by decide, fun h => ?_⟩
  exact absurd h.2.2.2.1 (by decide)

theorem resumed_a_word_low_first :
    Resumed (twoTasks.stack false) firstCalls (run secondCalls.call switchTo) ∧
      ¬ Transparent (twoTasks.stack false) firstCalls (run secondCalls.call switchTo) :=
  resumed_a_word_low (fun _ => rfl) first_then_second rfl (.switch second_switches)

end OreUnix.ContextSwitch
