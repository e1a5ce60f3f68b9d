/-
  Subject: THE TRAP FRAME: what the stubs of boot/boot.S push, what `struct regs` of arch.h reads there, and what
  `restore_regs` gives back.

  The processor is the few instructions the stubs use, over a stack of words. The stubs push the segment registers
  AFTER `pusha`, so they stand BELOW the general registers; `struct regs` expects them above. Hence:

  * `handlerFrame_eq` -- the frame a handler gets, word for word, for every trap;
  * `serve_eq` -- a handler's write to `r->eax` lands on the `esp` slot of `pusha`, which `popa` skips: the
    interrupted code resumes with every register as it was, `eax` included;
  * `trap_frame_disagrees` -- no trap decodes right, and no system call returns its value.
-/
import OreUnix.Kernel.Base

namespace OreUnix.TrapFrame

abbrev Word := BitVec 32

/-! ## 1. The processor -/

inductive Seg where
  | ds | es | fs | gs
  deriving DecidableEq, Repr

/-- The registers, and the words of the kernel stack from its top on. -/
structure Cpu where
  eax : Word
  ebx : Word
  ecx : Word
  edx : Word
  esi : Word
  edi : Word
  ebp : Word
  esp : Word
  ds : BitVec 16
  es : BitVec 16
  fs : BitVec 16
  gs : BitVec 16
  cs : BitVec 16
  ss : BitVec 16
  eip : Word
  eflags : Word
  stack : List Word
  deriving DecidableEq, Repr

namespace Cpu

def seg (c : Cpu) : Seg → BitVec 16
  | .ds => c.ds
  | .es => c.es
  | .fs => c.fs
  | .gs => c.gs

def setSeg (c : Cpu) (v : BitVec 16) : Seg → Cpu
  | .ds => { c with ds := v }
  | .es => { c with es := v }
  | .fs => { c with fs := v }
  | .gs => { c with gs := v }

def push (c : Cpu) (v : Word) : Cpu := { c with esp := c.esp - 4, stack := v :: c.stack }

/-- Ring 3. -/
def user (c : Cpu) : Bool := c.cs &&& 3 == 3

end Cpu

/-- A C handler called with a pointer to the frame: what it makes of the frame, and what it leaves in the registers a
    callee may change. -/
structure Handler where
  frame : List Word → List Word
  eax : Word
  ecx : Word
  edx : Word

inductive Instr where
  | cli
  | pushImm (v : Word)
  | pushSeg (s : Seg)
  | pushEsp
  | pusha
  | movAx (v : BitVec 16)
  | movSegAx (s : Seg)
  | call (h : Handler)
  | addEsp (words : Nat)
  | popSeg (s : Seg)
  | popa
  | iret

/-- One instruction; `none` is a pop beyond the stack. -/
def exec (c : Cpu) : Instr → Option Cpu
  | .cli => some { c with eflags := c.eflags &&& ~~~0x200 }
  | .pushImm v => some (c.push v)
  | .pushSeg s => some (c.push ((c.seg s).setWidth 32))
  | .pushEsp => some (c.push c.esp)
  | .pusha =>
    -- the value stored for esp is the one before the instruction
    some ((((((((c.push c.eax).push c.ecx).push c.edx).push c.ebx).push c.esp).push c.ebp).push
      c.esi).push c.edi)
  | .movAx v => some { c with eax := (c.eax &&& 0xFFFF0000) ||| v.setWidth 32 }
  | .movSegAx s => some (c.setSeg (c.eax.setWidth 16) s)
  | .call h =>
    match c.stack with
    | r :: frame =>
      some { c with eax := h.eax, ecx := h.ecx, edx := h.edx, stack := r :: h.frame frame }
    | [] => none
  | .addEsp n =>
    if n ≤ c.stack.length then
      some { c with esp := c.esp + 4 * BitVec.ofNat 32 n, stack := c.stack.drop n }
    else none
  | .popSeg s =>
    match c.stack with
    | v :: rest => some ({ c with esp := c.esp + 4, stack := rest }.setSeg (v.setWidth 16) s)
    | [] => none
  | .popa =>
    match c.stack with
    | edi :: esi :: ebp :: _ :: ebx :: edx :: ecx :: eax :: rest =>
      some { c with edi := edi, esi := esi, ebp := ebp, ebx := ebx, edx := edx, ecx := ecx,
                    eax := eax, esp := c.esp + 32, stack := rest }
    | _ => none
  | .iret =>
    match c.stack with
    | eip :: cs :: eflags :: rest =>
      let c := { c with eip := eip, cs := cs.setWidth 16, eflags := eflags, esp := c.esp + 12,
                        stack := rest }
      if c.user then
        match rest with
        | esp :: ss :: rest => some { c with esp := esp, ss := ss.setWidth 16, stack := rest }
        | _ => none
      else some c
    | _ => none

def run (c : Cpu) (prog : List Instr) : Option Cpu := prog.foldlM exec c

/-! ## 2. The stubs of boot.S -/

/-- The ways into the kernel: `syscall_entry`, `ISR_NOERR num`, `ISR_ERR num` with the error code the processor
    pushes, and `IRQ_STUB n`. -/
inductive Entry where
  | syscall
  | isr (num : Word)
  | isrErr (num err : Word)
  | irq (n : Word)
  deriving DecidableEq, Repr

namespace Entry

def stub : Entry → List Instr
  | syscall => [.pushImm 0, .pushImm 0x80]
  | isr num => [.cli, .pushImm 0, .pushImm num]
  | isrErr num _ => [.cli, .pushImm num]
  | irq n => [.cli, .pushImm 0, .pushImm (n + 32)]

/-- The error code pushed by the processor itself. -/
def pushed : Entry → Option Word
  | isrErr _ err => some err
  | _ => none

def intNo : Entry → Word
  | syscall => 0x80
  | isr num => num
  | isrErr num _ => num
  | irq n => n + 32

def errCode : Entry → Word
  | isrErr _ err => err
  | _ => 0

end Entry

/-- The common part of `isr_common`, `irq_common` and `syscall_common` up to the call. -/
def saveRegs : List Instr :=
  [.pusha, .pushSeg .gs, .pushSeg .fs, .pushSeg .es, .pushSeg .ds, .movAx 0x10, .movSegAx .ds,
    .movSegAx .es, .movSegAx .fs, .movSegAx .gs, .pushEsp]

def restoreRegs : List Instr :=
  [.popSeg .ds, .popSeg .es, .popSeg .fs, .popSeg .gs, .popa, .addEsp 2, .iret]

/-- The processor's part of a trap: on a change of privilege the stack is the one of the TSS, and the old one is
    pushed first. -/
def trap (c : Cpu) (esp0 : Word) (err : Option Word) : Cpu :=
  let k := if c.user then
    (({ c with esp := esp0, ss := 0x10 }.push (c.ss.setWidth 32)).push c.esp) else c
  let k := ((k.push c.eflags).push (c.cs.setWidth 32)).push c.eip
  let k := { k with cs := 0x08 }
  match err with
  | some e => k.push e
  | none => k

/-- The frame a handler is called with. -/
def handlerFrame (e : Entry) (c : Cpu) (esp0 : Word) : Option (List Word) :=
  (run (trap c esp0 e.pushed) (e.stub ++ saveRegs)).map fun k => k.stack.drop 1

/-- A whole trap, from the interrupted instruction back to it. -/
def serve (e : Entry) (h : Handler) (c : Cpu) (esp0 : Word) : Option Cpu :=
  run (trap c esp0 e.pushed) (e.stub ++ saveRegs ++ [.call h, .addEsp 1] ++ restoreRegs)

/-! ## 3. `struct regs` -/

inductive Field where
  | edi | esi | ebp | espDummy | ebx | edx | ecx | eax | ds | es | fs | gs | intNo | errCode | eip
  | cs | eflags | userEsp | userSs
  deriving DecidableEq, Repr

/-- The offset of a field, in words. -/
def Field.offset : Field → Nat
  | edi => 0 | esi => 1 | ebp => 2 | espDummy => 3 | ebx => 4 | edx => 5 | ecx => 6 | eax => 7
  | ds => 8 | es => 9 | fs => 10 | gs => 11 | intNo => 12 | errCode => 13 | eip => 14 | cs => 15
  | eflags => 16 | userEsp => 17 | userSs => 18

def readField (frame : List Word) (f : Field) : Option Word := frame[f.offset]?

def writeField (frame : List Word) (f : Field) (v : Word) : List Word := frame.set f.offset v

/-- What a field stands for when the trap hits the processor in state `c`. -/
def trapped (e : Entry) (c : Cpu) : Field → Word
  | .edi => c.edi | .esi => c.esi | .ebp => c.ebp | .espDummy => c.esp | .ebx => c.ebx
  | .edx => c.edx | .ecx => c.ecx | .eax => c.eax | .ds => c.ds.setWidth 32
  | .es => c.es.setWidth 32 | .fs => c.fs.setWidth 32 | .gs => c.gs.setWidth 32
  | .intNo => e.intNo | .errCode => e.errCode | .eip => c.eip | .cs => c.cs.setWidth 32
  | .eflags => c.eflags | .userEsp => c.esp | .userSs => c.ss.setWidth 32

/-- The fields every handler may rely on (`esp_dummy` is none, the user stack is only there on a change of privilege).
    -/
def checkedFields : List Field :=
  [.eax, .ebx, .ecx, .edx, .esi, .edi, .ebp, .ds, .es, .fs, .gs, .intNo, .errCode, .eip, .cs,
    .eflags]

/-- The frame, read through `struct regs`, gives the trapped values. -/
def Decodes (e : Entry) (c : Cpu) (esp0 : Word) : Prop :=
  ∃ frame, handlerFrame e c esp0 = some frame ∧
    ∀ f ∈ checkedFields, readField frame f = some (trapped e c f)

/-- `syscall_handler`: whatever it does, it ends with `r->eax = ret`. -/
def syscallHandler (ret eax ecx edx : Word) : Handler :=
  ⟨fun frame => writeField frame .eax ret, eax, ecx, edx⟩

/-- The system call resumes the caller with `eax = v` and every other register unchanged. -/
def ResumesWith (v : Word) (c : Cpu) (esp0 : Word) : Prop :=
  ∀ eax ecx edx, serve .syscall (syscallHandler v eax ecx edx) c esp0 = some { c with eax := v }

/-! ## 4. The frame of every trap -/

theorem run_append (c : Cpu) (p q : List Instr) : run c (p ++ q) = (run c p).bind (run · q) := List.foldlM_append

/-- What the processor pushes for `c`, error code apart. -/
def hwFrame (c : Cpu) : List Word :=
  [c.eip, c.cs.setWidth 32, c.eflags] ++ (if c.user then [c.esp, c.ss.setWidth 32] else [])

/-- The stack pointer when the common code is entered. -/
def espAtPusha (c : Cpu) (esp0 : Word) : Word :=
  (if c.user then esp0 - 8 else c.esp) - 20

/-- The state in which the common code is entered. -/
def entered (e : Entry) (c : Cpu) (esp0 : Word) : Cpu :=
  { c with
    esp := espAtPusha c esp0
    cs := 0x08
    ss := if c.user then 0x10 else c.ss
    eflags := if e = .syscall then c.eflags else c.eflags &&& ~~~0x200
    stack := e.intNo :: e.errCode :: hwFrame c ++ c.stack }

theorem run_stub (e : Entry) (c : Cpu) (esp0 : Word) :
    run (trap c esp0 e.pushed) e.stub = some (entered e c esp0) := by
  cases hu : c.user <;> cases e <;>
    simp [trap, run, exec, Entry.stub, Entry.pushed, entered, espAtPusha, hwFrame, hu, Cpu.push,
      Entry.intNo, Entry.errCode]
  all_goals bv_omega

/-- What `saveRegs` leaves on the stack, from any state. -/
theorem run_saveRegs (k : Cpu) : run k saveRegs = some { k with
      eax := (k.eax &&& 0xFFFF0000) ||| 0x10, ds := 0x10, es := 0x10, fs := 0x10, gs := 0x10
      esp := k.esp - 52
      stack := (k.esp - 48) :: k.ds.setWidth 32 :: k.es.setWidth 32 :: k.fs.setWidth 32 ::
        k.gs.setWidth 32 :: k.edi :: k.esi :: k.ebp :: k.esp :: k.ebx :: k.edx :: k.ecx :: k.eax ::
        k.stack } := by
  simp [run, exec, saveRegs, Cpu.push, Cpu.seg, Cpu.setSeg]
  constructor <;> bv_omega

/-- The frame from its lowest word on. -/
def pushedFrame (e : Entry) (c : Cpu) (esp0 : Word) : List Word :=
  [c.ds.setWidth 32, c.es.setWidth 32, c.fs.setWidth 32, c.gs.setWidth 32, c.edi, c.esi, c.ebp,
    espAtPusha c esp0, c.ebx, c.edx, c.ecx, c.eax, e.intNo, e.errCode] ++ hwFrame c ++ c.stack

theorem run_enter (e : Entry) (c : Cpu) (esp0 : Word) :
    run (trap c esp0 e.pushed) (e.stub ++ saveRegs) = run (entered e c esp0) saveRegs := by
  rw [run_append, run_stub]
  rfl

/-- **The frame a handler gets.** -/
theorem handlerFrame_eq (e : Entry) (c : Cpu) (esp0 : Word) :
    handlerFrame e c esp0 = some (pushedFrame e c esp0) := by
  rw [handlerFrame, run_enter, run_saveRegs]
  rfl

/-- `restore_regs` up to `iret`, on a frame. -/
theorem run_popRegs (k : Cpu) (ds es fs gs : BitVec 16)
    (edi esi ebp x ebx edx ecx eax n err : Word) (rest : List Word)
    (hk : k.stack = ds.setWidth 32 :: es.setWidth 32 :: fs.setWidth 32 :: gs.setWidth 32 :: edi ::
      esi :: ebp :: x :: ebx :: edx :: ecx :: eax :: n :: err :: rest) :
    run k [.popSeg .ds, .popSeg .es, .popSeg .fs, .popSeg .gs, .popa, .addEsp 2] = some { k with
      ds := ds, es := es, fs := fs, gs := gs, edi := edi, esi := esi, ebp := ebp, ebx := ebx
      edx := edx, ecx := ecx, eax := eax, esp := k.esp + 56, stack := rest } := by
  simp [run, exec, Cpu.setSeg, hk]
  bv_omega

/-- `iret` undoes what the processor pushed. -/
theorem exec_iret (c k : Cpu) (hs : k.stack = hwFrame c ++ c.stack)
    (hesp : c.user = false → k.esp + 12 = c.esp ∧ k.ss = c.ss) :
    exec k .iret = some { k with
      eip := c.eip, cs := c.cs, eflags := c.eflags, esp := c.esp, ss := c.ss, stack := c.stack } := by
  cases hu : c.user with
  | false =>
    obtain ⟨h1, h2⟩ := hesp hu
    have hcs : ¬ (c.cs &&& 3#16 = 3#16) := by simpa [Cpu.user] using hu
    have h1' : k.esp + 12#32 = c.esp := h1
    simp [exec, hs, hwFrame, Cpu.user, hcs, h1', h2]
  | true =>
    have hcs : c.cs &&& 3#16 = 3#16 := by simpa [Cpu.user] using hu
    simp [exec, hs, hwFrame, Cpu.user, hcs]

/-- **A handler that only writes `r->eax`** gives back every register, `eax` included: the word it wrote is the one
    `popa` skips. -/
theorem serve_eq (e : Entry) (c : Cpu) (esp0 v a b d : Word) :
    serve e ⟨fun frame => writeField frame .eax v, a, b, d⟩ c esp0 = some c := by
  have hr : restoreRegs = [.popSeg .ds, .popSeg .es, .popSeg .fs, .popSeg .gs, .popa, .addEsp 2] ++ [.iret] := rfl
  rw [serve, run_append, run_append, run_enter, run_saveRegs, hr]
  simp only [Option.bind_some]
  rw [show run _ [Instr.call _, Instr.addEsp 1] = some { entered e c esp0 with
      eax := a, ecx := b, edx := d, ds := 0x10, es := 0x10, fs := 0x10, gs := 0x10
      esp := (entered e c esp0).esp - 52 + 4
      stack := writeField (pushedFrame e c esp0) .eax v } from rfl]
  simp only [Option.bind_some]
  rw [run_append, run_popRegs _ c.ds c.es c.fs c.gs c.edi c.esi c.ebp v c.ebx c.edx c.ecx c.eax
    e.intNo e.errCode (hwFrame c ++ c.stack) rfl, Option.bind_some]
  show (exec _ .iret).bind some = _
  rw [exec_iret c _ rfl fun hu => ⟨?_, ?_⟩]
  · rfl
  · simp only [entered, espAtPusha, hu, Bool.false_eq_true, ↓reduceIte]
    bv_omega
  · simp only [entered, hu, Bool.false_eq_true, ↓reduceIte]

/-! ## 5. What follows -/

/-- A user program at `int 0x80` for `write(1, buf, 5)`. -/
def writeCall : Cpu :=
  { eax := 4, ebx := 1, ecx := 0x08049000, edx := 5, esi := 0, edi := 0, ebp := 0xBFFFEF00
    esp := 0xBFFFEE00, ds := 0x23, es := 0x23, fs := 0x23, gs := 0x23, cs := 0x1B, ss := 0x23
    eip := 0x08048123, eflags := 0x202, stack := [] }

/-- The call is decoded as number 0xC03FFFE4 with `ebx` 0 (the caller's `edi`), and the 5 the handler returns never
    reaches the caller's `eax`. -/
theorem writeCall_misread :
    (∃ frame, handlerFrame .syscall writeCall 0xC0400000 = some frame ∧
      readField frame .eax = some 0xC03FFFE4 ∧ readField frame .ebx = some 0 ∧
      ¬ (readField frame .eax = some (trapped .syscall writeCall .eax))) ∧
    (serve .syscall (syscallHandler 5 0 0 0) writeCall 0xC0400000).map Cpu.eax = some 4 ∧
    ¬ ResumesWith 5 writeCall 0xC0400000 := by
  refine ⟨⟨_, rfl, by decide, by decide, by decide⟩, by decide, fun h => ?_⟩
  exact absurd (h 0 0 0) (by decide)

/-- A trap in a running kernel: the kernel stack it is taken on lies in the kernel half. -/
structure Trap where
  cpu : Cpu
  esp0 : Word
  high : kernelVirtBase + 64 ≤ (if cpu.user then esp0 else cpu.esp).toNat

/-- `r->eax` is the kernel stack pointer, and `r->gs` the trapped `eax`. -/
theorem readField_eax_gs (e : Entry) (c : Cpu) (esp0 : Word) :
    readField (pushedFrame e c esp0) .eax = some (espAtPusha c esp0) ∧
      readField (pushedFrame e c esp0) .gs = some c.eax := ⟨rfl, rfl⟩

/-- No frame decodes: `eax` would be a kernel stack pointer and a segment selector at once. -/
theorem not_decodes (e : Entry) (t : Trap) : ¬ Decodes e t.cpu t.esp0 := by
  rintro ⟨frame, hframe, hread⟩
  rw [handlerFrame_eq] at hframe
  cases hframe
  obtain ⟨h1, h2⟩ := readField_eax_gs e t.cpu t.esp0
  have hax := hread .eax (by decide)
  have hgs := hread .gs (by decide)
  rw [h1] at hax
  rw [h2] at hgs
  have hx : espAtPusha t.cpu t.esp0 = t.cpu.gs.setWidth 32 := (Option.some.inj hax).trans (Option.some.inj hgs)
  have hlt : (t.cpu.gs.setWidth 32).toNat < 65536 := by
    rw [BitVec.toNat_setWidth, Nat.mod_eq_of_lt] <;> omega
  have hk : kernelVirtBase = 3221225472 := rfl
  have hhigh := t.high
  rw [← hx, espAtPusha] at hlt
  split at hlt
  · rw [if_pos ‹_›] at hhigh
    bv_omega
  · rw [if_neg ‹_›] at hhigh
    bv_omega

/-- **No trap frame agrees with `struct regs`**: whatever the registers, no frame of a system call, exception or
    interrupt decodes to the trapped values, and no system call resumes its caller with the value stored into `r->eax`
    for every such value. -/
theorem trap_frame_disagrees (t : Trap) : (∀ e, ¬ Decodes e t.cpu t.esp0) ∧ ¬ ∀ v, ResumesWith v t.cpu t.esp0 := by
  refine ⟨fun e => not_decodes e t, fun h => ?_⟩
  have h' := h (t.cpu.eax + 1) 0 0 0
  rw [syscallHandler, serve_eq] at h'
  have heax : t.cpu.eax = t.cpu.eax + 1 := congrArg Cpu.eax (Option.some.inj h')
  bv_omega

theorem trap_frame_disagrees_writeCall :
    (∀ e, ¬ Decodes e writeCall 0xC0400000) ∧ ¬ ∀ v, ResumesWith v writeCall 0xC0400000 :=
  trap_frame_disagrees ⟨writeCall, 0xC0400000, by decide⟩

end OreUnix.TrapFrame
