/-
  Subject: THE ACCESS MODE OF AN OPEN FILE: `f_flags` from `vfs_open` over F_SETFL to the tests of `vfs_read` and
  `vfs_write`.

  * `readGate`, `writeGate` -- the two tests: the operation of the file runs, or the call returns;
  * `enforced_iff` -- for which words in `f_flags` the two tests are the access mode of another word;
  * `AccessStep` -- open, pipe, F_SETFL, and every other call on descriptors, by any process; with each file stands
    the word it was opened with;
  * **`mode_enforced`** -- the access mode is enforced through every descriptor, in every run that opens no file
    read-only with a further flag, and whose F_SETFL keep the mode apart.

  What the operation does is not modelled here: it gets the file, and it changes neither descriptors nor flags.
-/
import OreUnix.Fs.FdCalls

namespace OreUnix.Fd

open Wp Lts
open Vfs (Crash)
open Function (update)

/-! ## 1. The tests -/

def O_RDONLY : BitVec 32 := 0x0000
def O_WRONLY : BitVec 32 := 0x0001
def O_RDWR : BitVec 32 := 0x0002
def O_ACCMODE : BitVec 32 := 0x0003
def O_CREAT : BitVec 32 := 0x0040
def O_APPEND : BitVec 32 := 0x0400

/-- Which of the two operations `f_ops` has. -/
structure ReadWrite where
  read : Bool
  write : Bool

/-- Where `vfs_read` or `vfs_write` goes: back with an error, or to the operation. -/
inductive Gate where
  | ret (e : Int)
  | op
  deriving DecidableEq

/-- `vfs_read` up to `f->f_ops->read` -/
def readGate (ops : ReadWrite) (flags : BitVec 32) : Gate :=
  if !ops.read then .ret (-EINVAL)
  else if ¬ (flags = O_RDONLY ∨ flags &&& O_RDWR ≠ 0) then .ret (-EBADF)
  else .op

/-- `vfs_write` up to `f->f_ops->write` -/
def writeGate (ops : ReadWrite) (flags : BitVec 32) : Gate :=
  if !ops.write then .ret (-EINVAL)
  else if flags = O_RDONLY then .ret (-EBADF)
  else .op

/-- A test on the flags of the file, and the operation behind it. -/
def behind (gate : BitVec 32 → Gate) (f : Nat) (m : StateT Machine (Except Crash) Int) :
    StateT Machine (Except Crash) Int := do
  match gate ((← get).flags f) with
  | .ret e => pure e
  | .op => m

/-- `vfs_read` and `vfs_write` with their tests; `op` stands for the operations, and for the other functions of a
    file. -/
def gated (ops : Nat → ReadWrite) (op : VfsCall → Nat → StateT Machine (Except Crash) Int) :
    VfsCall → Nat → StateT Machine (Except Crash) Int
  | .read buf count, f => behind (readGate (ops f)) f (op (.read buf count) f)
  | .write buf count, f => behind (writeGate (ops f)) f (op (.write buf count) f)
  | c, f => op c f

def allowsRead (word : BitVec 32) : Prop := word &&& O_ACCMODE = O_RDONLY ∨ word &&& O_ACCMODE = O_RDWR
def allowsWrite (word : BitVec 32) : Prop := word &&& O_ACCMODE = O_WRONLY ∨ word &&& O_ACCMODE = O_RDWR

instance (word : BitVec 32) : Decidable (allowsRead word) := inferInstanceAs (Decidable (_ ∨ _))
instance (word : BitVec 32) : Decidable (allowsWrite word) := inferInstanceAs (Decidable (_ ∨ _))

/-- **The mode of `word` is enforced** with `flags` in `f_flags`. -/
structure Enforced (ops : ReadWrite) (word flags : BitVec 32) : Prop where
  read : readGate ops flags = if allowsRead word then .op else .ret (-EBADF)
  write : writeGate ops flags = if allowsWrite word then .op else .ret (-EBADF)

/-- `flags` passes the tests that the mode of `word` should pass, and no other. -/
def Fits (word flags : BitVec 32) : Prop :=
  (word &&& O_ACCMODE = O_RDONLY ∧ flags = 0) ∨
  (word &&& O_ACCMODE = O_WRONLY ∧ flags ≠ 0 ∧ flags &&& O_RDWR = 0) ∨
  (word &&& O_ACCMODE = O_RDWR ∧ flags &&& O_RDWR ≠ 0)

instance (word flags : BitVec 32) : Decidable (Fits word flags) := inferInstanceAs (Decidable (_ ∨ _ ∨ _))

section Words

variable {ops : ReadWrite} {word flags : BitVec 32}

theorem accmode_cases (word : BitVec 32) : word &&& O_ACCMODE = O_RDONLY ∨ word &&& O_ACCMODE = O_WRONLY ∨
    word &&& O_ACCMODE = O_RDWR ∨ word &&& O_ACCMODE = O_ACCMODE := by
  have hmod : (word &&& O_ACCMODE).toNat = word.toNat % 4 := by
    rw [BitVec.toNat_and]
    exact Nat.and_two_pow_sub_one_eq_mod word.toNat 2
  have hlt : word.toNat % 4 < 4 := Nat.mod_lt _ (by decide)
  have hval : word &&& O_ACCMODE = BitVec.ofNat 32 (word.toNat % 4) := by
    rw [← hmod, BitVec.ofNat_toNat, BitVec.setWidth_eq]
  rw [hval]
  generalize word.toNat % 4 = m at hlt
  obtain rfl | rfl | rfl | rfl : m = 0 ∨ m = 1 ∨ m = 2 ∨ m = 3 := by omega
  · exact .inl rfl
  · exact .inr (.inl rfl)
  · exact .inr (.inr (.inl rfl))
  · exact .inr (.inr (.inr rfl))

theorem readGate_eq (h : ops.read = true) :
    readGate ops flags = if flags = O_RDONLY ∨ flags &&& O_RDWR ≠ 0 then .op else .ret (-EBADF) := by
  unfold readGate
  rw [h]
  exact ite_not ..

theorem writeGate_eq (h : ops.write = true) :
    writeGate ops flags = if flags ≠ O_RDONLY then .op else .ret (-EBADF) := by
  unfold writeGate
  rw [h]
  by_cases ht : flags = O_RDONLY
  · simp [ht]
  · simp [ht]

theorem gate_iff {P Q : Prop} [Decidable P] [Decidable Q] :
    (if P then Gate.op else .ret (-EBADF)) = (if Q then .op else .ret (-EBADF)) ↔ (P ↔ Q) := by
  by_cases hp : P
  · by_cases hq : Q
    · simp [hp, hq]
    · simp [hp, hq]
  · by_cases hq : Q
    · simp [hp, hq]
    · simp [hp, hq]

theorem gate_missing {P : Prop} [Decidable P] : Gate.ret (-EINVAL) ≠ if P then .op else .ret (-EBADF) := by
  split <;> decide

theorem tests_iff_fits : ((flags = O_RDONLY ∨ flags &&& O_RDWR ≠ 0) ↔ allowsRead word) ∧
    (flags ≠ O_RDONLY ↔ allowsWrite word) ↔ Fits word flags := by
  unfold allowsRead allowsWrite Fits
  rcases accmode_cases word with h | h | h | h
  all_goals
    rw [h]
    by_cases hf : flags = 0#32
    · subst hf
      simp [O_RDONLY, O_WRONLY, O_RDWR, O_ACCMODE]
    · simp [O_RDONLY, O_WRONLY, O_RDWR, O_ACCMODE, hf]

/-- **For which words in `f_flags` the mode is enforced**: both operations are there, and the word fits. -/
theorem enforced_iff : Enforced ops word flags ↔ (ops.read = true ∧ ops.write = true) ∧ Fits word flags := by
  constructor
  · intro h
    have hread : ops.read = true := by
      by_contra hno
      have hgate := h.read
      rw [readGate, Bool.eq_false_of_not_eq_true hno] at hgate
      exact gate_missing hgate
    have hwrite : ops.write = true := by
      by_contra hno
      have hgate := h.write
      rw [writeGate, Bool.eq_false_of_not_eq_true hno] at hgate
      exact gate_missing hgate
    refine ⟨⟨hread, hwrite⟩, tests_iff_fits.mp ⟨gate_iff.mp ?_, gate_iff.mp ?_⟩⟩
    · rw [← readGate_eq hread, h.read]
    · rw [← writeGate_eq hwrite, h.write]
  · intro h
    obtain ⟨⟨hread, hwrite⟩, hfits⟩ := h
    obtain ⟨hr, hw⟩ := tests_iff_fits.mpr hfits
    refine ⟨?_, ?_⟩
    · rw [readGate_eq hread]
      exact gate_iff.mpr hr
    · rw [writeGate_eq hwrite]
      exact gate_iff.mpr hw

end Words

/-! ## 2. Calls that set the flags -/

/-- `sys_open` with the word of the call, and the file `vfs_open` has made. -/
def openCall (p : Nat) (target : Target) (refused ok : Bool) (word : BitVec 32) : FM (Int × Option Nat) := do
  match ← onSys (vfsOpen target refused ok) with
  | none => pure (-ENOENT, none)
  | some f =>
    modify fun x => { x with flags := update x.flags f word }
    match ← onSys (filesAllocFd p) with
    | none =>
      onSys (filePut f)
      pure (-EMFILE, some f)
    | some fd =>
      store p fd (some f)
      pure (fd, some f)

/-- `sys_pipe`, and the two files `vfs_pipe` has made. -/
def pipeCall (p : Nat) (inode rde wde : Option Nat) (rf wf : Bool) : FM (Int × Option (Nat × Nat)) := do
  match ← onSys (vfsPipe inode rde wde rf wf) with
  | none => pure (-ENOMEM, none)
  | some (r, w) =>
    modify fun x => { x with flags := update (update x.flags r O_RDONLY) w O_WRONLY }
    match ← onSys (filesAllocFd p) with
    | none =>
      onSys (filePut r)
      onSys (filePut w)
      pure (-EMFILE, some (r, w))
    | some rfd =>
      store p rfd (some r)
      match ← onSys (filesAllocFd p) with
      | none =>
        freeFd p rfd
        onSys (filePut w)
        pure (-EMFILE, some (r, w))
      | some wfd =>
        store p wfd (some w)
        pure (0, some (r, w))

/-- The machine, and the word each file was opened with. -/
structure Opened where
  mach : Machine
  word : Nat → BitVec 32

inductive Access where
  | open (p : Nat) (target : Target) (refused ok : Bool) (word : BitVec 32)
  | pipe (p : Nat) (inode rde wde : Option Nat) (rf wf : Bool)
  | setfl (p : Nat) (fd value : BitVec 32)
  | call (e : Event)

/-- The calls that do not touch the flags of a file. -/
def Event.Flagless : Event → Prop
  | .open .. | .pipe .. => False
  | _ => True

/-- A call that comes back; what the caches and the directories offer is as in Descriptors.lean. -/
def AccessStep (x : Opened) : Access → Opened → Prop
  | .open p target refused ok word, y => target.Offered x.mach.sys ∧
    ∃ r o, openCall p target refused ok word x.mach = .ok ((r, o), y.mach) ∧
      y.word = match o with
        | some f => update x.word f word
        | none => x.word
  | .pipe p inode rde wde rf wf, y => (Event.pipe p inode rde wde rf wf).Offered x.mach.sys ∧
    ∃ r o, pipeCall p inode rde wde rf wf x.mach = .ok ((r, o), y.mach) ∧
      y.word = match o with
        | some (rf, wf) => update (update x.word rf O_RDONLY) wf O_WRONLY
        | none => x.word
  | .setfl p fd value, y => (∃ r, fcntlCall p fd.toInt F_SETFL value x.mach = .ok (r, y.mach)) ∧ y.word = x.word
  | .call e, y => e.Flagless ∧ e.Offered x.mach.sys ∧ onSys e.call x.mach = .ok ((), y.mach) ∧ y.word = x.word

/-- The condition: a file opened read-only is opened with no other flag, and F_SETFL keeps to the words that pass the
    same tests. -/
def Access.Keeps (x : Opened) : Access → Prop
  | .open _ _ _ _ word => Fits word word
  | .setfl p fd value => ∀ f ∈ entryOf x.mach.sys p fd.toInt, Fits (x.word f) value
  | _ => True

/-! ## 3. Which flags a call changes -/

section Flags

variable {α : Type} {x y : Machine} {p : Nat} {fd : Int} {Q : α → Machine → Prop}

def AnyFault : Fault → Prop := fun _ => True

theorem wp_onSys_flags (m : M α) (hQ : ∀ a y, y.flags = x.flags → Q a y) : wp AnyFault (onSys m) Q x := by
  unfold wp onSys
  cases m x.sys with
  | ok r => exact hQ _ _ rfl
  | error c => trivial

theorem wp_store_flags {v : Option Nat} {Q : Unit → Machine → Prop} (hQ : ∀ a y, y.flags = x.flags → Q a y) :
    wp AnyFault (store p fd v) Q x := by
  unfold store
  split
  · exact wp_onSys_flags _ hQ
  · trivial

theorem wp_freeFd_flags {Q : Unit → Machine → Prop} (hQ : ∀ a y, y.flags = x.flags → Q a y) :
    wp AnyFault (freeFd p fd) Q x := by
  rw [freeFd_onSys]
  exact wp_onSys_flags _ hQ

/-- **`open` sets the flags of the file it makes**, and of no other. -/
theorem wp_openCall_flags (p : Nat) (target : Target) (refused ok : Bool) (word : BitVec 32) (x : Machine) :
    wp AnyFault (openCall p target refused ok word) (fun r y => y.flags = match r.2 with
      | some f => update x.flags f word
      | none => x.flags) x := by
  refine wp_then (wp_onSys_flags _ fun o x1 h1 => ?_)
  cases o with
  | none => exact h1
  | some f =>
    refine wp_then (wp_modify _ |>.mpr ?_)
    refine wp_then (wp_onSys_flags _ fun o x2 h2 => ?_)
    have h2 : x2.flags = update x.flags f word := by rw [h2, ← h1]
    cases o with
    | none => exact wp_then (wp_onSys_flags _ fun _ x3 h3 => h3.trans h2)
    | some nfd =>
      dsimp only
      generalize (nfd : Int) = fd
      exact wp_then (wp_store_flags fun _ x3 h3 => h3.trans h2)

theorem wp_pipeCall_flags (p : Nat) (inode rde wde : Option Nat) (rf wf : Bool) (x : Machine) :
    wp AnyFault (pipeCall p inode rde wde rf wf) (fun r y => y.flags = match r.2 with
      | some (r, w) => update (update x.flags r O_RDONLY) w O_WRONLY
      | none => x.flags) x := by
  refine wp_then (wp_onSys_flags _ fun o x1 h1 => ?_)
  cases o with
  | none => exact h1
  | some rw =>
    obtain ⟨r, w⟩ := rw
    refine wp_then (wp_modify _ |>.mpr ?_)
    refine wp_then (wp_onSys_flags _ fun o x2 h2 => ?_)
    have h2 : x2.flags = update (update x.flags r O_RDONLY) w O_WRONLY := by rw [h2, ← h1]
    cases o with
    | none =>
      refine wp_then (wp_onSys_flags _ fun _ x3 h3 => ?_)
      exact wp_then (wp_onSys_flags _ fun _ x4 h4 => h4.trans (h3.trans h2))
    | some rfd =>
      dsimp only
      generalize (rfd : Int) = fd
      refine wp_then (wp_store_flags fun _ x3 h3 => ?_)
      refine wp_then (wp_onSys_flags _ fun o x4 h4 => ?_)
      have h4 := h4.trans (h3.trans h2)
      cases o with
      | none =>
        refine wp_then (wp_freeFd_flags fun _ x5 h5 => ?_)
        exact wp_then (wp_onSys_flags _ fun _ x6 h6 => h6.trans (h5.trans h4))
      | some wfd =>
        dsimp only
        generalize (wfd : Int) = fd
        exact wp_then (wp_store_flags fun _ x5 h5 => h5.trans h4)

/-- F_SETFL replaces the whole word of the file behind the descriptor. -/
theorem setfl_flags {r : Int} {value : BitVec 32} (h : fcntlCall p fd F_SETFL value x = .ok (r, y)) :
    y.flags = match entryOf x.sys p fd with
      | some f => update x.flags f value
      | none => x.flags := by
  by_cases ht : Trusted x p fd
  · rw [fcntlCall, withDirect_eq ht] at h
    cases hentry : entryOf x.sys p fd with
    | none =>
      rw [hentry] at h
      cases h
      rfl
    | some f =>
      rw [hentry] at h
      cases h
      rfl
  · obtain ⟨e, he⟩ := withDirect_broken ht
    rw [fcntlCall, he] at h
    cases h

end Flags

/-! ## 4. Runs -/

/-- Every file has flags that fit the word it was opened with. -/
def AllFit (x : Opened) : Prop := ∀ f, Fits (x.word f) (x.mach.flags f)

theorem fits_update {word flags : Nat → BitVec 32} {w v : BitVec 32} (h : ∀ f, Fits (word f) (flags f))
    (hnew : Fits w v)
    (g : Nat) : ∀ f, Fits (update word g w f) (update flags g v f) := by
  intro f
  by_cases hf : f = g
  · subst hf
    simpa using hnew
  · simpa [hf] using h f

theorem AllFit.step {x y : Opened} {e : Access} (h : AllFit x) (hk : e.Keeps x) (hs : AccessStep x e y) : AllFit y := by
  cases e with
  | «open» p target refused ok word =>
    obtain ⟨_, r, o, hcall, hword⟩ := hs
    have hflags := wp_ok (wp_openCall_flags p target refused ok word x.mach) hcall
    cases o with
    | none =>
      intro f
      rw [hword, hflags]
      exact h f
    | some n =>
      intro f
      rw [hword, hflags]
      exact fits_update h hk n f
  | pipe p inode rde wde rf wf =>
    obtain ⟨_, r, o, hcall, hword⟩ := hs
    have hflags := wp_ok (wp_pipeCall_flags p inode rde wde rf wf x.mach) hcall
    cases o with
    | none =>
      intro f
      rw [hword, hflags]
      exact h f
    | some rw =>
      intro f
      rw [hword, hflags]
      exact fits_update (fits_update h (by decide) rw.1) (by decide) rw.2 f
  | setfl p fd value =>
    obtain ⟨⟨r, hcall⟩, hword⟩ := hs
    have hflags := setfl_flags hcall
    intro f
    rw [hword, hflags]
    cases hentry : entryOf x.mach.sys p fd.toInt with
    | none => exact h f
    | some n =>
      by_cases hf : f = n
      · subst hf
        simpa using hk f hentry
      · simpa [hf] using h f
  | call e =>
    obtain ⟨_, _, hcall, hword⟩ := hs
    have hflags := wp_ok (wp_onSys_flags (Q := fun _ y => y.flags = x.mach.flags) e.call fun _ _ hy => hy) hcall
    intro f
    rw [hword, hflags]
    exact h f

/-- A step that meets the condition. -/
def KeepingStep (x : Opened) (e : Access) (y : Opened) : Prop := e.Keeps x ∧ AccessStep x e y

section Enforcement

variable {ops : Nat → ReadWrite} {op : VfsCall → Nat → StateT Machine (Except Crash) Int} {x : Machine} {p f : Nat}
variable {word fd : BitVec 32}

theorem withFile_open {k : Nat → FM Int} {fd : Int} (h : entryOf x.sys p fd = some f) : withFile p fd k x = k f x := by
  have hchecked : Checked x p fd := by
    by_contra hno
    rw [not_checked_entry hno] at h
    cases h
  rw [withFile_eq hchecked, h]
  rfl

/-- What a test that is known does with the call. -/
theorem behind_eq {gate : BitVec 32 → Gate} {P : Prop} [Decidable P] {e : Int}
    (h : gate (x.flags f) = if P then .op else .ret e)
    (m : StateT Machine (Except Crash) Int) : lift (behind gate f m) x = if P then lift m x else .ok (e, x) := by
  have hgate : behind gate f m x = (match gate (x.flags f) with
      | .ret e => pure e
      | .op => m : StateT Machine (Except Crash) Int) x := rfl
  rw [lift, hgate, h]
  by_cases hp : P
  · simp only [if_pos hp]
    rfl
  · simp only [if_neg hp]
    rfl

theorem read_enforced (h : Enforced (ops f) word (x.flags f)) (hopen : entryOf x.sys p fd.toInt = some f)
    (buf count : BitVec 32) : (Call.read fd buf count).exec (gated ops op) p x =
      if allowsRead word then lift (op (.read buf count) f) x else .ok (-EBADF, x) :=
  (withFile_open hopen).trans (behind_eq h.read _)

theorem write_enforced (h : Enforced (ops f) word (x.flags f)) (hopen : entryOf x.sys p fd.toInt = some f)
    (buf count : BitVec 32) : (Call.write fd buf count).exec (gated ops op) p x =
      if allowsWrite word then lift (op (.write buf count) f) x else .ok (-EBADF, x) :=
  (withFile_open hopen).trans (behind_eq h.write _)

end Enforcement

/-- **The access mode is enforced for the life of a descriptor**: in every state of a run whose opens and F_SETFL meet
    the condition, a file with both operations is read and written through any descriptor as the word it was opened
    with says. -/
theorem mode_enforced (ops : Nat → ReadWrite) {x₀ x : Opened} {es : List Access} (h₀ : AllFit x₀)
    (hrun : Run KeepingStep x₀ es x) (op : VfsCall → Nat → StateT Machine (Except Crash) Int) {p f : Nat}
    {fd : BitVec 32} (hopen : entryOf x.mach.sys p fd.toInt = some f) (hread : (ops f).read = true)
    (hwrite : (ops f).write = true) (buf count : BitVec 32) :
    Enforced (ops f) (x.word f) (x.mach.flags f) ∧
    (Call.read fd buf count).exec (gated ops op) p x.mach =
      (if allowsRead (x.word f) then lift (op (.read buf count) f) x.mach else .ok (-EBADF, x.mach)) ∧
    (Call.write fd buf count).exec (gated ops op) p x.mach =
      (if allowsWrite (x.word f) then lift (op (.write buf count) f) x.mach else .ok (-EBADF, x.mach)) := by
  have hfit : AllFit x := hrun.invariant (I := AllFit) (fun _ _ _ h hs => h.step hs.1 hs.2) h₀
  have henforced : Enforced (ops f) (x.word f) (x.mach.flags f) := enforced_iff.mpr ⟨⟨hread, hwrite⟩, hfit f⟩
  exact ⟨henforced, read_enforced henforced hopen buf count, write_enforced henforced hopen buf count⟩

instance : DecidablePred Event.Flagless
  | .open .. | .pipe .. => .isFalse id
  | .close .. | .dup .. | .dup2 .. | .dupfd .. | .setfd .. | .fork .. | .exec .. | .exit .. | .read .. | .write .. =>
    .isTrue trivial

instance (x : Opened) : ∀ e : Access, Decidable (e.Keeps x)
  | .open _ _ _ _ word => inferInstanceAs (Decidable (Fits word word))
  | .setfl p fd value => inferInstanceAs (Decidable (∀ f ∈ entryOf x.mach.sys p fd.toInt, Fits (x.word f) value))
  | .pipe .. | .call .. => .isTrue trivial

/-- The state after a call that comes back. -/
def nextOpened (x : Opened) : Access → Option Opened
  | .open p target refused ok word =>
    if target.Offered x.mach.sys then
      (openCall p target refused ok word x.mach).toOption.map fun r => ⟨r.2, match r.1.2 with
        | some f => update x.word f word
        | none => x.word⟩
    else none
  | .pipe p inode rde wde rf wf =>
    if (Event.pipe p inode rde wde rf wf).Offered x.mach.sys then
      (pipeCall p inode rde wde rf wf x.mach).toOption.map fun r => ⟨r.2, match r.1.2 with
        | some (r, w) => update (update x.word r O_RDONLY) w O_WRONLY
        | none => x.word⟩
    else none
  | .setfl p fd value => (fcntlCall p fd.toInt F_SETFL value x.mach).toOption.map fun r => ⟨r.2, x.word⟩
  | .call e =>
    if e.Flagless ∧ e.Offered x.mach.sys then (onSys e.call x.mach).toOption.map fun r => ⟨r.2, x.word⟩ else none

theorem of_toOption {ε α β : Type} {r : Except ε α} {g : α → β} {b : β} (h : r.toOption.map g = some b) :
    ∃ a, r = .ok a ∧ g a = b := by
  cases r with
  | error e => cases h
  | ok a => exact ⟨a, rfl, Option.some.inj h⟩

theorem step_of_nextOpened (x : Opened) (e : Access) (y : Opened) (h : nextOpened x e = some y) : AccessStep x e y := by
  cases e with
  | «open» p target refused ok word =>
    rw [nextOpened] at h
    split at h
    · rename_i ho
      obtain ⟨r, hr, rfl⟩ := of_toOption h
      exact ⟨ho, r.1.1, r.1.2, hr, rfl⟩
    · cases h
  | pipe p inode rde wde rf wf =>
    rw [nextOpened] at h
    split at h
    · rename_i ho
      obtain ⟨r, hr, rfl⟩ := of_toOption h
      exact ⟨ho, r.1.1, r.1.2, hr, rfl⟩
    · cases h
  | setfl p fd value =>
    obtain ⟨r, hr, rfl⟩ := of_toOption h
    exact ⟨⟨r.1, hr⟩, rfl⟩
  | call e =>
    rw [nextOpened] at h
    split at h
    · rename_i ho
      obtain ⟨r, hr, rfl⟩ := of_toOption h
      exact ⟨ho.1, ho.2, hr, rfl⟩
    · cases h

/-- A step that meets the condition, computed. -/
def nextKeeping (x : Opened) (e : Access) : Option Opened := if e.Keeps x then nextOpened x e else none

theorem step_of_nextKeeping (x : Opened) (e : Access) (y : Opened) (h : nextKeeping x e = some y) :
    KeepingStep x e y := by
  unfold nextKeeping at h
  split at h
  · rename_i hk
    exact ⟨hk, step_of_nextOpened x e y h⟩
  · cases h

/-- The booted machine; no file is open. -/
def bootedOpen : Opened := ⟨nothingOpen, fun _ => O_RDONLY⟩

def bothOps : Nat → ReadWrite := fun _ => ⟨true, true⟩

theorem bootedOpen_fit : AllFit bootedOpen := fun _ => show Fits O_RDONLY 0 by decide

/-- A file is opened for reading and writing, its descriptor copied, and O_APPEND set through the copy. -/
def appended : List Access :=
  [.open 0 (.found 0) false true (O_RDWR ||| O_CREAT), .call (.dup 0 0), .setfl 0 1 (O_RDWR ||| O_APPEND)]

theorem mode_enforced_appended : ∃ x, AllFit bootedOpen ∧ Run KeepingStep bootedOpen appended x ∧
    entryOf x.mach.sys 0 (0 : BitVec 32).toInt = some 0 ∧ x.word 0 = O_RDWR ||| O_CREAT ∧
    x.mach.flags 0 = O_RDWR ||| O_APPEND ∧
    (Call.write 0 0 4).exec (gated bothOps idleVfs) 0 x.mach = lift (idleVfs (.write 0 4) 0) x.mach := by
  obtain ⟨x, hrun, hopen, hword, hflags⟩ := exists_run step_of_nextKeeping bootedOpen appended
    (fun x => entryOf x.mach.sys 0 (0 : BitVec 32).toInt = some 0 ∧ x.word 0 = O_RDWR ||| O_CREAT ∧
      x.mach.flags 0 = O_RDWR ||| O_APPEND) (by decide +kernel)
  have hwrite := (mode_enforced bothOps bootedOpen_fit hrun idleVfs hopen rfl rfl 0 4).2.2
  rw [hword, if_pos (by decide)] at hwrite
  exact ⟨x, bootedOpen_fit, hrun, hopen, hword, hflags, hwrite⟩

/-- **A read-only file with O_CREAT** is not readable and can be written, and one opened read-only is made writable by
    F_SETFL. -/
theorem readonly_is_written : ∃ x y,
    Run AccessStep bootedOpen [.open 0 (.found 0) false true (O_RDONLY ||| O_CREAT)] x ∧
    Run AccessStep bootedOpen [.open 0 (.found 0) false true O_RDONLY, .setfl 0 0 O_RDWR] y ∧
    entryOf x.mach.sys 0 0 = some 0 ∧ x.word 0 = O_RDONLY ||| O_CREAT ∧
    readGate (bothOps 0) (x.mach.flags 0) = .ret (-EBADF) ∧ writeGate (bothOps 0) (x.mach.flags 0) = .op ∧
    entryOf y.mach.sys 0 0 = some 0 ∧ y.word 0 = O_RDONLY ∧ writeGate (bothOps 0) (y.mach.flags 0) = .op ∧
    ¬ Enforced (bothOps 0) (x.word 0) (x.mach.flags 0) ∧ ¬ Enforced (bothOps 0) (y.word 0) (y.mach.flags 0) := by
  obtain ⟨x, hx, hxopen, hxword, hxread, hxwrite⟩ := exists_run step_of_nextOpened bootedOpen
    [.open 0 (.found 0) false true (O_RDONLY ||| O_CREAT)]
    (fun x => entryOf x.mach.sys 0 0 = some 0 ∧ x.word 0 = O_RDONLY ||| O_CREAT ∧
      readGate (bothOps 0) (x.mach.flags 0) = .ret (-EBADF) ∧ writeGate (bothOps 0) (x.mach.flags 0) = .op)
    (by decide +kernel)
  obtain ⟨y, hy, hyopen, hyword, hywrite⟩ := exists_run step_of_nextOpened bootedOpen
    [.open 0 (.found 0) false true O_RDONLY, .setfl 0 0 O_RDWR]
    (fun y => entryOf y.mach.sys 0 0 = some 0 ∧ y.word 0 = O_RDONLY ∧ writeGate (bothOps 0) (y.mach.flags 0) = .op)
    (by decide +kernel)
  refine ⟨x, y, hx, hy, hxopen, hxword, hxread, hxwrite, hyopen, hyword, hywrite, fun h => ?_, fun h => ?_⟩
  · have hgate := h.write
    rw [hxwrite, hxword] at hgate
    exact absurd hgate (by decide)
  · have hgate := h.write
    rw [hywrite, hyword] at hgate
    exact absurd hgate (by decide)

end OreUnix.Fd
