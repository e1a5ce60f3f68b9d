/-
  Subject: THE CALLS THAT TAKE A DESCRIPTOR: how each of them turns a number into a file.

  * `index`, `store` -- an access to the array of descriptors; outside of it the call stops with `outside`;
  * `fdToFile` with its range check, `direct` without one; the thirteen calls, for any 32-bit argument;
  * `uniform_iff` -- a call indexes inside the table and answers -EBADF to a number that is not open, exactly when it
    checks the number, and the number is no equal pair of `dup2`;
  * `freeFd_onSys` -- a slot is freed as in Descriptors.lean.

  What `vfs_read` and the other functions of the file do with it is a parameter: they get the file and not the number.
-/
import OreUnix.Fs.CloseOnExec

namespace OreUnix.Fd

open Vfs (Crash)
open Function (update)

/-! ## 1. The machine -/

/-- The attributes `fchmod` and `fchown` write; `truncates` is whether `i_ops` has a truncate operation. -/
structure Attr where
  mode : BitVec 32
  uid : BitVec 32
  gid : BitVec 32
  truncates : Bool

/-- The objects of Descriptors.lean, with the flags of each file and the attributes of each inode. -/
structure Machine where
  sys : State
  flags : Nat → BitVec 32
  attrs : Nat → Attr

/-- How a call stops: a crash, or an access to the array outside of its bounds. -/
inductive Fault where
  | crash (c : Crash)
  | outside (i : Int)
  deriving DecidableEq

abbrev FM := StateT Machine (Except Fault)

/-- A function that does not index the array. -/
def lift {α : Type} (m : StateT Machine (Except Crash) α) : FM α := fun x =>
  match m x with
  | .ok r => .ok r
  | .error c => .error (.crash c)

/-- A function of Descriptors.lean. -/
def onSys {α : Type} (m : M α) : FM α := fun x =>
  match m x.sys with
  | .ok (a, s) => .ok (a, { x with sys := s })
  | .error c => .error (.crash c)

def InRange (i : Int) : Prop := 0 ≤ i ∧ i < openMax

instance (i : Int) : Decidable (InRange i) := inferInstanceAs (Decidable (_ ∧ _))

/-- `files->fd[i]` -/
def index (p : Nat) (i : Int) : FM (Option Nat) :=
  if InRange i then onSys (do return (← fdArray p) i.toNat) else throw (.outside i)

/-- `files->fd[i] = v` -/
def store (p : Nat) (i : Int) (v : Option Nat) : FM Unit :=
  if InRange i then onSys (setFd p i.toNat v) else throw (.outside i)

/-! ## 2. From a number to a file -/

/-- `fd_to_file` -/
def fdFile (p : Nat) (fd : Int) : FM (Option Nat) := do
  if ((← get).sys.tables p).isNone then pure none
  else if fd < 0 ∨ fd ≥ openMax then pure none
  else index p fd

/-- `current->files ? current->files->fd[i] : NULL` -/
def direct (p : Nat) (i : Int) : FM (Option Nat) := do
  if ((← get).sys.tables p).isNone then pure none else index p i

/-- `if (!f) return -EBADF;` and the rest of the call. -/
def orBadf (o : Option Nat) (k : Nat → FM Int) : FM Int :=
  match o with
  | none => pure (-EBADF)
  | some f => k f

/-- The rest of a call after `fd_to_file`. -/
def withFile (p : Nat) (fd : Int) (k : Nat → FM Int) : FM Int := do orBadf (← fdFile p fd) k

/-- The rest of a call that indexes the array itself. -/
def withDirect (p : Nat) (i : Int) (k : Nat → FM Int) : FM Int := do orBadf (← direct p i) k

/-! ## 3. The calls -/

/-- The functions of a file. -/
inductive VfsCall where
  | read (buf count : BitVec 32)
  | write (buf count : BitVec 32)
  | lseek (offset whence : Int)
  | fstat
  | ioctl (cmd arg : BitVec 32)
  | readdir (count : BitVec 32)
  | truncate (len : Int)

section Calls

variable (vfs : VfsCall → Nat → StateT Machine (Except Crash) Int)

def sizeofDirent : BitVec 32 := 276

def readCall (p : Nat) (fd : Int) (buf count : BitVec 32) : FM Int :=
  withFile p fd fun f => lift (vfs (.read buf count) f)
def writeCall (p : Nat) (fd : Int) (buf count : BitVec 32) : FM Int :=
  withFile p fd fun f => lift (vfs (.write buf count) f)
def lseekCall (p : Nat) (fd offset whence : Int) : FM Int := withFile p fd fun f => lift (vfs (.lseek offset whence) f)
def fstatCall (p : Nat) (fd : Int) : FM Int := withFile p fd fun f => lift (vfs .fstat f)
def ioctlCall (p : Nat) (fd : Int) (cmd arg : BitVec 32) : FM Int :=
  withFile p fd fun f => lift (vfs (.ioctl cmd arg) f)
def getdentsCall (p : Nat) (fd : Int) (sz : BitVec 32) : FM Int :=
  withFile p fd fun f => lift (vfs (.readdir (sz / sizeofDirent)) f)

/-- `files_free_fd` -/
def freeFd (p : Nat) (fd : Int) : FM Unit := do
  if InRange fd then
    match ← index p fd with
    | some f =>
      onSys (filePut f)
      store p fd none
    | none => pure ()

def closeCall (p : Nat) (fd : Int) : FM Int := withFile p fd fun _ => do
  freeFd p fd
  pure 0

/-- `current->files->fd[nfd] = file_get(f);` -/
def putFile (p : Nat) (nfd : Int) (f : Nat) : FM Int := do
  onSys (fileGet f)
  store p nfd (some f)
  pure nfd

/-- `sys_dup` with the file. -/
def dupFile (p f : Nat) : FM Int := do
  match ← onSys (filesAllocFd p) with
  | none => pure (-EMFILE)
  | some nfd => putFile p nfd f

def dupCall (p : Nat) (fd : Int) : FM Int := withFile p fd (dupFile p)

/-- `sys_dup2` with the file. -/
def dup2File (p : Nat) (new : Int) (f : Nat) : FM Int := do
  if new < 0 ∨ new ≥ openMax then pure (-EBADF)
  else
    if (← index p new).isSome then freeFd p new
    putFile p new f

def dup2Call (p : Nat) (old new : Int) : FM Int :=
  if old = new then pure new else withFile p old (dup2File p new)

def F_DUPFD : Int := 0
def F_GETFD : Int := 1
def F_SETFD : Int := 2
def F_GETFL : Int := 3
def F_SETFL : Int := 4
def FD_CLOEXEC : BitVec 32 := 1

/-- The bit of a descriptor; the bitmap has the length of the array. -/
def getBit (p : Nat) (fd : Int) : FM Int := do
  pure (if marked (← get).sys p fd then 1 else 0)

def setBit (p : Nat) (fd : Int) (on : Bool) : FM Unit := modify fun x =>
  { x with sys := x.sys.setTable p ((x.sys.tables p).map fun t =>
      { t with closeOnExec := update t.closeOnExec fd.toNat on }) }

def fcntlCall (p : Nat) (fd cmd : Int) (val : BitVec 32) : FM Int := withDirect p fd fun f => do
  if cmd = F_DUPFD then dupCall p fd
  else if cmd = F_GETFD then getBit p fd
  else if cmd = F_SETFD then
    setBit p fd (val &&& FD_CLOEXEC ≠ 0)
    pure 0
  else if cmd = F_GETFL then return ((← get).flags f).toInt
  else if cmd = F_SETFL then
    modify fun x => { x with flags := update x.flags f val }
    pure 0
  else pure (-EINVAL)

/-- `f->f_dentry->d_inode` -/
def inodeOfFile (f : Nat) : FM Nat := do
  let x ← get
  match (x.sys.dentries (x.sys.files f).val.dentry).val.inode with
  | some i => pure i
  | none => throw (.crash .null)

def S_IFMT : BitVec 32 := 0xF000

def fchmodCall (p : Nat) (fd : BitVec 32) (mode : BitVec 32) : FM Int := withDirect p fd.toNat fun f => do
  let i ← inodeOfFile f
  modify fun x =>
    { x with attrs := update x.attrs i { x.attrs i with mode := ((x.attrs i).mode &&& S_IFMT) ||| (mode &&& 0xFFF) } }
  pure 0

def fchownCall (p : Nat) (fd uid gid : BitVec 32) : FM Int := withDirect p fd.toNat fun f => do
  let i ← inodeOfFile f
  modify fun x => { x with attrs := update x.attrs i { x.attrs i with uid := uid, gid := gid } }
  pure 0

def ftruncateCall (p : Nat) (fd : BitVec 32) (len : BitVec 32) : FM Int := withDirect p fd.toNat fun f => do
  let i ← inodeOfFile f
  if ((← get).attrs i).truncates then lift (vfs (.truncate len.toInt) f) else pure (-EPERM)

/-- A call, with its arguments as the registers hold them. -/
inductive Call where
  | read (fd buf count : BitVec 32)
  | write (fd buf count : BitVec 32)
  | close (fd : BitVec 32)
  | lseek (fd offset whence : BitVec 32)
  | fstat (fd : BitVec 32)
  | ioctl (fd cmd arg : BitVec 32)
  | getdents (fd sz : BitVec 32)
  | dup (fd : BitVec 32)
  | dup2 (old new : BitVec 32)
  | fcntl (fd cmd val : BitVec 32)
  | fchmod (fd mode : BitVec 32)
  | fchown (fd uid gid : BitVec 32)
  | ftruncate (fd len : BitVec 32)

/-- The descriptor number a call is made with. -/
def Call.fd : Call → BitVec 32
  | .read fd .. | .write fd .. | .close fd | .lseek fd .. | .fstat fd | .ioctl fd .. | .getdents fd .. | .dup fd => fd
  | .dup2 old _ => old
  | .fcntl fd .. | .fchmod fd .. | .fchown fd .. | .ftruncate fd .. => fd

def Call.exec (p : Nat) : Call → FM Int
  | .read fd buf count => readCall vfs p fd.toInt buf count
  | .write fd buf count => writeCall vfs p fd.toInt buf count
  | .close fd => closeCall p fd.toInt
  | .lseek fd offset whence => lseekCall vfs p fd.toInt offset.toInt whence.toInt
  | .fstat fd => fstatCall vfs p fd.toInt
  | .ioctl fd cmd arg => ioctlCall vfs p fd.toInt cmd arg
  | .getdents fd sz => getdentsCall vfs p fd.toInt sz
  | .dup fd => dupCall p fd.toInt
  | .dup2 old new => dup2Call p old.toInt new.toInt
  | .fcntl fd cmd val => fcntlCall p fd.toInt cmd.toInt val
  | .fchmod fd mode => fchmodCall p fd mode
  | .fchown fd uid gid => fchownCall p fd uid gid
  | .ftruncate fd len => ftruncateCall vfs p fd len

end Calls

/-! ## 4. What a call should do -/

/-- The number stands for no file; for `dup2` the second one must be in range as well. -/
def Call.Bad (x : Machine) (p : Nat) : Call → Prop
  | .dup2 old new => entryOf x.sys p old.toInt = none ∨ ¬ InRange new.toInt
  | c => entryOf x.sys p c.fd.toInt = none

/-- **A descriptor is validated**: the call does not index outside the array, and it answers a bad number with -EBADF
    and changes nothing. -/
structure Uniform (vfs : VfsCall → Nat → StateT Machine (Except Crash) Int) (x : Machine) (p : Nat)
    (c : Call) : Prop where
  inside : ∀ i, c.exec vfs p x ≠ .error (.outside i)
  badf : c.Bad x p → c.exec vfs p x = .ok (-EBADF, x)

/-- The process has a table whose array could be allocated. -/
def Armed (x : Machine) (p : Nat) : Prop := ((x.sys.tables p).bind Table.fd).isSome = true

/-- The call checks the number, or the array is there for it. -/
def Checked (x : Machine) (p : Nat) (fd : Int) : Prop := (x.sys.tables p).isNone = true ∨ Armed x p ∨ ¬ InRange fd

/-- The number is in range without a check. -/
def Trusted (x : Machine) (p : Nat) (fd : Int) : Prop := (x.sys.tables p).isNone = true ∨ Armed x p ∧ InRange fd

/-- The calls that validate: those through `fd_to_file`, unless the array is missing; the others with a number in
    range; `dup2` of a number onto itself if it is open. -/
def Call.Validates (x : Machine) (p : Nat) : Call → Prop
  | .dup2 old new =>
    if old = new then (entryOf x.sys p old.toInt).isSome = true ∨ old.toInt = -EBADF else Checked x p old.toInt
  | .fcntl fd .. | .fchmod fd .. | .fchown fd .. | .ftruncate fd .. => Trusted x p fd.toInt
  | c => Checked x p c.fd.toInt

/-! ## 5. Accesses -/

section Proofs

variable {x : Machine} {p : Nat} {fd i : Int} {k : Nat → FM Int}

theorem bind_ok {α β : Type} {m : FM α} {k : α → FM β} {a : α} {y : Machine} (h : m x = .ok (a, y)) :
    (m >>= k) x = k a y := by
  simp [Bind.bind, StateT.bind, Except.bind, h]

theorem bind_error {α β : Type} {m : FM α} {k : α → FM β} {e : Fault} (h : m x = .error e) :
    (m >>= k) x = .error e := by
  simp [Bind.bind, StateT.bind, Except.bind, h]

/-- The function does not index outside the array. -/
def Inside {α : Type} (m : FM α) : Prop := ∀ x i, m x ≠ .error (.outside i)

theorem Inside.pure {α : Type} (a : α) : Inside (pure a : FM α) := fun _ _ h => by cases h

theorem Inside.get : Inside (get : FM Machine) := fun _ _ h => by cases h

theorem Inside.modify (g : Machine → Machine) : Inside (modify g : FM Unit) := fun _ _ h => by cases h

theorem Inside.bind {α β : Type} {m : FM α} {k : α → FM β} (hm : Inside m) (hk : ∀ a, Inside (k a)) :
    Inside (m >>= k) := by
  intro x i h
  cases hx : m x with
  | ok r =>
    rw [bind_ok hx] at h
    exact hk r.1 r.2 i h
  | error e =>
    rw [bind_error hx] at h
    cases h
    exact hm x i hx

theorem Inside.onSys {α : Type} (m : M α) : Inside (onSys m) := by
  intro x i h
  unfold Fd.onSys at h
  split at h <;> cases h

theorem Inside.lift {α : Type} (m : StateT Machine (Except Crash) α) : Inside (lift m) := by
  intro x i h
  unfold Fd.lift at h
  split at h <;> cases h

theorem Inside.index (h : InRange fd) : Inside (index p fd) := by
  rw [Fd.index, if_pos h]
  exact .onSys _

theorem Inside.store {v : Option Nat} (h : InRange fd) : Inside (store p fd v) := by
  rw [Fd.store, if_pos h]
  exact .onSys _

theorem Inside.freeFd (p : Nat) (fd : Int) : Inside (freeFd p fd) := by
  unfold Fd.freeFd
  by_cases h : InRange fd
  · rw [if_pos h]
    refine .bind (.index h) fun o => ?_
    cases o with
    | none => exact .pure _
    | some f => exact .bind (.onSys _) fun _ => .store h
  · rw [if_neg h]
    exact .pure _

theorem fdArray_eq (p : Nat) (s : State) : fdArray p s = match (s.tables p).bind Table.fd with
    | some a => .ok (a, s)
    | none => .error .null := by
  change (match (s.tables p).bind Table.fd with | some a => pure a | none => throw .null : M _) s = _
  cases (s.tables p).bind Table.fd with
  | some a => rfl
  | none => rfl

/-- The access to an array that is there. -/
theorem index_some {a : Nat → Option Nat} (h : (x.sys.tables p).bind Table.fd = some a) (hr : InRange fd) :
    index p fd x = .ok (slot x.sys p fd.toNat, x) := by
  have hlt : fd.toNat < openMax := by
    obtain ⟨hlow, hhigh⟩ := hr
    omega
  rw [index, if_pos hr, onSys, slot_eq h hlt]
  simp only [Bind.bind, StateT.bind, Except.bind, fdArray_eq, h]
  rfl

theorem index_none (h : (x.sys.tables p).bind Table.fd = none) (hr : InRange fd) :
    index p fd x = .error (.crash .null) := by
  rw [index, if_pos hr, onSys]
  simp only [Bind.bind, StateT.bind, Except.bind, fdArray_eq, h]

theorem index_outside (hr : ¬ InRange fd) : index p fd x = .error (.outside fd) := by
  rw [index, if_neg hr]
  rfl

theorem fdFile_eq (p : Nat) (fd : Int) (x : Machine) :
    fdFile p fd x = if (x.sys.tables p).isNone ∨ ¬ InRange fd then .ok (none, x) else index p fd x := by
  change (if (x.sys.tables p).isNone then pure none
    else if fd < 0 ∨ fd ≥ openMax then pure none else index p fd : FM _) x = _
  have hrange : (fd < 0 ∨ fd ≥ openMax) ↔ ¬ InRange fd := by
    unfold InRange
    omega
  by_cases hnone : (x.sys.tables p).isNone = true
  · simp [hnone]
    rfl
  · by_cases hr : InRange fd
    · simp [hnone, hrange, hr]
    · simp [hnone, hrange, hr]
      rfl

theorem direct_eq (p : Nat) (fd : Int) (x : Machine) :
    direct p fd x = if (x.sys.tables p).isNone then .ok (none, x) else index p fd x := by
  change (if (x.sys.tables p).isNone then pure none else index p fd : FM _) x = _
  by_cases hnone : (x.sys.tables p).isNone = true
  · simp [hnone]
    rfl
  · simp [hnone]

theorem entryOf_eq (hr : InRange fd) (s : State) (p : Nat) : entryOf s p fd = slot s p fd.toNat := if_pos hr.1

/-- No number stands for a file without an array, or out of range. -/
theorem entryOf_none {s : State} (h : (s.tables p).bind Table.fd = none ∨ ¬ InRange fd) : entryOf s p fd = none := by
  rw [entryOf]
  split
  · rename_i hlow
    rcases h with h | h
    · rw [slot]
      cases ht : s.tables p with
      | none => rfl
      | some t =>
        rw [ht] at h
        have hfd : t.fd = none := h
        rw [Option.bind_some, hfd]
        rfl
    · exact slot_beyond (fun hlt => h ⟨hlow, by omega⟩)
  · rfl

/-- **After `fd_to_file`**: -EBADF, or the rest of the call with the file. -/
theorem withFile_eq (h : Checked x p fd) : withFile p fd k x = orBadf (entryOf x.sys p fd) k x := by
  refine bind_ok ?_
  rw [fdFile_eq]
  by_cases hc : (x.sys.tables p).isNone = true ∨ ¬ InRange fd
  · rw [if_pos hc, entryOf_none]
    rcases hc with hc | hc
    · rw [Option.isNone_iff_eq_none.mp hc]
      exact .inl rfl
    · exact .inr hc
  · rw [if_neg hc]
    obtain ⟨hsome, hr⟩ := not_or.mp hc
    rw [not_not] at hr
    obtain ⟨a, ha⟩ := Option.isSome_iff_exists.mp ((h.resolve_left hsome).resolve_right (not_not_intro hr))
    rw [index_some ha hr, entryOf_eq hr]

theorem withFile_broken (h : ¬ Checked x p fd) : withFile p fd k x = .error (.crash .null) := by
  obtain ⟨hsome, hrest⟩ := not_or.mp h
  obtain ⟨harmed, hr⟩ := not_or.mp hrest
  rw [not_not] at hr
  refine bind_error ?_
  rw [fdFile_eq, if_neg (not_or.mpr ⟨hsome, not_not_intro hr⟩)]
  exact index_none (Option.not_isSome_iff_eq_none.mp harmed) hr

/-- After an access without a check, with a number in range. -/
theorem withDirect_eq (h : Trusted x p fd) : withDirect p fd k x = orBadf (entryOf x.sys p fd) k x := by
  refine bind_ok ?_
  rw [direct_eq]
  by_cases hnone : (x.sys.tables p).isNone = true
  · rw [if_pos hnone, entryOf_none]
    rw [Option.isNone_iff_eq_none.mp hnone]
    exact .inl rfl
  · rw [if_neg hnone]
    obtain ⟨harmed, hr⟩ := h.resolve_left hnone
    obtain ⟨a, ha⟩ := Option.isSome_iff_exists.mp harmed
    rw [index_some ha hr, entryOf_eq hr]

theorem withDirect_broken (h : ¬ Trusted x p fd) : ∃ e, withDirect p fd k x = .error e := by
  obtain ⟨hsome, hrest⟩ := not_or.mp h
  by_cases hr : InRange fd
  · refine ⟨.crash .null, bind_error ?_⟩
    rw [direct_eq, if_neg hsome]
    exact index_none (Option.not_isSome_iff_eq_none.mp fun ha => hrest ⟨ha, hr⟩) hr
  · refine ⟨.outside fd, bind_error ?_⟩
    rw [direct_eq, if_neg hsome]
    exact index_outside hr

/-! ## 6. The thirteen calls -/

variable {vfs : VfsCall → Nat → StateT Machine (Except Crash) Int} {c : Call}

theorem not_checked_entry (h : ¬ Checked x p fd) : entryOf x.sys p fd = none :=
  entryOf_none (.inl (Option.not_isSome_iff_eq_none.mp fun ha => h (.inr (.inl ha))))

theorem not_trusted_entry (h : ¬ Trusted x p fd) : entryOf x.sys p fd = none := by
  by_cases hr : InRange fd
  · exact entryOf_none (.inl (Option.not_isSome_iff_eq_none.mp fun ha => h (.inr ⟨ha, hr⟩)))
  · exact entryOf_none (.inr hr)

theorem orBadf_inside {o : Option Nat} (hk : ∀ f, Inside (k f)) : Inside (orBadf o k) := by
  cases o with
  | none => exact .pure _
  | some f => exact hk f

theorem uniform_withFile (hexec : c.exec vfs p = withFile p c.fd.toInt k) (hk : ∀ f, Inside (k f))
    (hbad : c.Bad x p ↔ entryOf x.sys p c.fd.toInt = none) : Uniform vfs x p c ↔ Checked x p c.fd.toInt := by
  constructor
  · intro hu
    by_contra hc
    have hbadf := hu.badf (hbad.mpr (not_checked_entry hc))
    rw [hexec, withFile_broken hc] at hbadf
    cases hbadf
  · intro hc
    refine ⟨fun i => ?_, fun h => ?_⟩
    · rw [hexec, withFile_eq hc]
      exact orBadf_inside hk x i
    · rw [hexec, withFile_eq hc, hbad.mp h]
      rfl

/-- A call that indexes the array with the number, signed or unsigned. -/
theorem uniform_withDirect (hexec : c.exec vfs p = withDirect p i k) (hk : ∀ f, Inside (k f))
    (htrust : Trusted x p i ↔ Trusted x p c.fd.toInt) (hentry : entryOf x.sys p i = entryOf x.sys p c.fd.toInt)
    (hbad : c.Bad x p ↔ entryOf x.sys p c.fd.toInt = none) : Uniform vfs x p c ↔ Trusted x p c.fd.toInt := by
  rw [← htrust]
  constructor
  · intro hu
    by_contra hc
    have hbadf := hu.badf (hbad.mpr (hentry ▸ not_trusted_entry hc))
    obtain ⟨e, he⟩ := withDirect_broken (k := k) hc
    rw [hexec, he] at hbadf
    cases hbadf
  · intro hc
    refine ⟨fun j => ?_, fun h => ?_⟩
    · rw [hexec, withDirect_eq hc]
      exact orBadf_inside hk x j
    · rw [hexec, withDirect_eq hc, hentry, hbad.mp h]
      rfl

theorem unsigned_inRange (fd : BitVec 32) : InRange (fd.toNat : Int) ↔ InRange fd.toInt := by
  have hlt := fd.isLt
  rw [InRange, InRange, BitVec.toInt_eq_toNat_cond]
  have hmax : openMax = 1024 := rfl
  split <;> omega

theorem unsigned_eq {fd : BitVec 32} (h : InRange fd.toInt) : (fd.toNat : Int) = fd.toInt := by
  have hlt := fd.isLt
  obtain ⟨hlow, _⟩ := h
  rw [BitVec.toInt_eq_toNat_cond] at hlow ⊢
  split at hlow
  · rw [if_pos ‹_›]
  · omega

theorem unsigned_entry (s : State) (p : Nat) (fd : BitVec 32) : entryOf s p fd.toNat = entryOf s p fd.toInt := by
  by_cases h : InRange fd.toInt
  · rw [unsigned_eq h]
  · rw [entryOf_none (.inr h), entryOf_none (.inr fun h' => h ((unsigned_inRange fd).mp h'))]

theorem unsigned_trusted (x : Machine) (p : Nat) (fd : BitVec 32) : Trusted x p fd.toNat ↔ Trusted x p fd.toInt := by
  rw [Trusted, Trusted, unsigned_inRange]

theorem Inside.putFile {f : Nat} (h : InRange fd) : Inside (putFile p fd f) :=
  .bind (.onSys _) fun _ => .bind (.store h) fun _ => .pure _

/-- The number that `files_alloc_fd` returns is an index of its loop. -/
theorem filesAllocFd_inRange {y : Machine} {j : Nat} (h : onSys (filesAllocFd p) x = .ok (some j, y)) :
    InRange (j : Int) := by
  have hpost := wp_filesAllocFd (s := x.sys) (p := p) (Q := fun o _ => ∀ j ∈ o, j < openMax) (fun j hj => by cases hj)
    fun i hi _ _ j hj => by cases hj; exact hi
  unfold Fd.onSys at h
  split at h
  · rename_i hrun
    cases h
    have hj := Wp.wp_ok hpost hrun j rfl
    exact ⟨by omega, by omega⟩
  · cases h

theorem Inside.dupFile (p f : Nat) : Inside (dupFile p f) := by
  intro x i h
  cases hx : Fd.onSys (filesAllocFd p) x with
  | error e =>
    rw [Fd.dupFile, bind_error hx] at h
    cases h
    exact Inside.onSys _ x i hx
  | ok r =>
    obtain ⟨o, y⟩ := r
    rw [Fd.dupFile, bind_ok hx] at h
    cases o with
    | none => cases h
    | some j =>
      exact Inside.putFile (filesAllocFd_inRange hx) y i h

theorem Inside.dup2File (p : Nat) (new : Int) (f : Nat) : Inside (dup2File p new f) := by
  unfold Fd.dup2File
  split
  · exact .pure _
  · have hr : InRange new := ⟨by omega, by omega⟩
    refine .bind (.index hr) fun o => ?_
    split
    · exact .bind (.freeFd p new) fun _ => .putFile hr
    · exact .putFile hr

theorem Inside.inodeOfFile (f : Nat) : Inside (inodeOfFile f) := by
  refine .bind .get fun x => ?_
  split
  · exact .pure _
  · intro _ _ h
    cases h

theorem Inside.withFile (hk : ∀ f, Inside (k f)) : Inside (withFile p fd k) := by
  intro x i
  by_cases hc : Checked x p fd
  · rw [withFile_eq hc]
    exact orBadf_inside hk x i
  · rw [withFile_broken hc]
    intro h
    cases h

theorem uniform_dup2 (old new : BitVec 32) (hne : old ≠ new) : Uniform vfs x p (.dup2 old new) ↔
    Checked x p old.toInt := by
  have hint : old.toInt ≠ new.toInt := fun h => hne (BitVec.eq_of_toInt_eq h)
  have hexec : (Call.dup2 old new).exec vfs p = withFile p old.toInt (dup2File p new.toInt) := if_neg hint
  constructor
  · intro hu
    by_contra hc
    have hbadf := hu.badf (.inl (not_checked_entry hc))
    rw [hexec, withFile_broken hc] at hbadf
    cases hbadf
  · intro hc
    refine ⟨fun i => ?_, fun hbad => ?_⟩
    · rw [hexec]
      exact Inside.withFile (Inside.dup2File p _) x i
    · rw [hexec, withFile_eq hc]
      cases hentry : entryOf x.sys p old.toInt with
      | none => rfl
      | some f =>
        -- the file is open, so the second number is out of range
        have hnew : new.toInt < 0 ∨ new.toInt ≥ openMax := by
          have hout := hbad.resolve_left (by rw [hentry]; exact Option.some_ne_none f)
          unfold InRange at hout
          omega
        rw [orBadf, dup2File, if_pos hnew]
        rfl

theorem uniform_dup2_same (fd : BitVec 32) :
    Uniform vfs x p (.dup2 fd fd) ↔ (entryOf x.sys p fd.toInt).isSome = true ∨ fd.toInt = -EBADF := by
  have hexec : (Call.dup2 fd fd).exec vfs p x = .ok (fd.toInt, x) := congrFun (if_pos rfl) x
  have hbad : (Call.dup2 fd fd).Bad x p ↔ entryOf x.sys p fd.toInt = none :=
    ⟨fun h => h.elim id fun hr => entryOf_none (.inr hr), .inl⟩
  constructor
  · intro hu
    cases hentry : entryOf x.sys p fd.toInt with
    | some f => exact .inl rfl
    | none =>
      have hret := hu.badf (hbad.mpr hentry)
      rw [hexec] at hret
      exact .inr (Prod.mk.inj (Except.ok.inj hret)).1
  · intro h
    refine ⟨fun i => ?_, fun hb => ?_⟩
    · rw [hexec]
      intro herr
      cases herr
    · rw [hexec, h.resolve_left (by rw [hbad.mp hb]; exact Bool.false_ne_true)]

/-- **The calls that validate their descriptor**: for every call with any numbers, in every state, whatever the
    functions of the file do. -/
theorem uniform_iff (vfs : VfsCall → Nat → StateT Machine (Except Crash) Int) (x : Machine) (p : Nat) (c : Call) :
    Uniform vfs x p c ↔ c.Validates x p := by
  cases c with
  | read fd buf count => exact uniform_withFile rfl (fun f => .lift _) Iff.rfl
  | write fd buf count => exact uniform_withFile rfl (fun f => .lift _) Iff.rfl
  | close fd => exact uniform_withFile rfl (fun f => .bind (.freeFd p _) fun _ => .pure _) Iff.rfl
  | lseek fd offset whence => exact uniform_withFile rfl (fun f => .lift _) Iff.rfl
  | fstat fd => exact uniform_withFile rfl (fun f => .lift _) Iff.rfl
  | ioctl fd cmd arg => exact uniform_withFile rfl (fun f => .lift _) Iff.rfl
  | getdents fd sz => exact uniform_withFile rfl (fun f => .lift _) Iff.rfl
  | dup fd => exact uniform_withFile rfl (fun f => .dupFile p f) Iff.rfl
  | dup2 old new =>
    rw [Call.Validates]
    split
    · rename_i heq
      subst heq
      exact uniform_dup2_same old
    · rename_i hne
      exact uniform_dup2 old new hne
  | fcntl fd cmd val =>
    refine uniform_withDirect rfl (fun f => ?_) Iff.rfl rfl Iff.rfl
    split
    · exact .withFile fun f => .dupFile p f
    split
    · exact .bind .get fun _ => .pure _
    split
    · exact .bind (.modify _) fun _ => .pure _
    split
    · exact .bind .get fun _ => .pure _
    split
    · exact .bind (.modify _) fun _ => .pure _
    · exact .pure _
  | fchmod fd mode =>
    exact uniform_withDirect rfl (fun f => .bind (.inodeOfFile f) fun _ => .bind (.modify _) fun _ => .pure _)
      (unsigned_trusted ..) (unsigned_entry ..) Iff.rfl
  | fchown fd uid gid =>
    exact uniform_withDirect rfl (fun f => .bind (.inodeOfFile f) fun _ => .bind (.modify _) fun _ => .pure _)
      (unsigned_trusted ..) (unsigned_entry ..) Iff.rfl
  | ftruncate fd len =>
    refine uniform_withDirect rfl (fun f => .bind (.inodeOfFile f) fun i => .bind .get fun y => ?_)
      (unsigned_trusted ..) (unsigned_entry ..) Iff.rfl
    split
    · exact .lift _
    · exact .pure _

end Proofs

/-- A process with a table in which nothing is open. -/
def nothingOpen : Machine := ⟨booted, fun _ => 0, fun _ => ⟨0, 0, 0, true⟩⟩

def idleVfs : VfsCall → Nat → StateT Machine (Except Crash) Int := fun _ _ => pure 0

/-- **A number beyond the table**: `fcntl`, `fchmod`, `fchown` and `ftruncate` read the word behind the array, and
    `dup2` of a closed descriptor onto itself returns it. -/
theorem direct_beyond_table :
    (Call.fcntl 1024 1 0).exec idleVfs 0 nothingOpen = .error (.outside 1024) ∧
    (Call.fcntl (-1) 1 0).exec idleVfs 0 nothingOpen = .error (.outside (-1)) ∧
    (Call.fchmod 1024 0).exec idleVfs 0 nothingOpen = .error (.outside 1024) ∧
    (Call.fchown (-1) 0 0).exec idleVfs 0 nothingOpen = .error (.outside 4294967295) ∧
    (Call.ftruncate 1024 0).exec idleVfs 0 nothingOpen = .error (.outside 1024) ∧
    (Call.dup2 5 5).exec idleVfs 0 nothingOpen = .ok (5, nothingOpen) ∧ entryOf nothingOpen.sys 0 5 = none ∧
    ¬ Uniform idleVfs nothingOpen 0 (.fcntl 1024 1 0) ∧ ¬ Uniform idleVfs nothingOpen 0 (.dup2 5 5) := by
  refine ⟨rfl, rfl, rfl, rfl, rfl, rfl, rfl, fun hu => hu.inside 1024 rfl, fun hu => ?_⟩
  have hret := hu.badf (.inl rfl)
  have hval : (5 : Int) = -EBADF := (Prod.mk.inj (Except.ok.inj hret)).1
  exact absurd hval (by decide)

/-! ## 7. Freeing a slot, as in Descriptors.lean -/

section Refinement

variable {α β : Type} (p : Nat) (fd : Int)

theorem onSys_bind (m : M α) (k : α → M β) : onSys (m >>= k) = onSys m >>= fun a => onSys (k a) := by
  funext x
  cases h : m x.sys with
  | error c => simp [onSys, Bind.bind, StateT.bind, Except.bind, h]
  | ok r => simp [onSys, Bind.bind, StateT.bind, Except.bind, h]

theorem onSys_pure (a : α) : onSys (pure a : M α) = pure a := rfl

theorem freeFd_onSys : freeFd p fd = onSys (filesFreeFd p fd) := by
  unfold freeFd filesFreeFd
  by_cases hr : InRange fd
  · rw [if_pos hr, if_pos (show fd ≥ 0 ∧ fd < openMax from hr), freeSlot, onSys_bind, index, if_pos hr, onSys_bind,
      bind_assoc]
    congr 1
    funext a
    rw [onSys_pure, pure_bind]
    cases a fd.toNat with
    | none => rfl
    | some f => simp only [onSys_bind, store, if_pos hr]
  · rw [if_neg hr, if_neg (show ¬ (fd ≥ 0 ∧ fd < openMax) from hr)]
    rfl

end Refinement

end OreUnix.Fd
