/-
  Subject: OPEN FILES AND DESCRIPTORS: `struct file` with its dentry and inode, the tables of descriptors, and the
  calls that copy and drop references to them (fs/vfs.c, fs/pipe.c, kernel/process.c, kernel/elf.c).

  Files and pipes are numbered in the order in which they are made; touching a freed file is the crash `freed`.
  Dentries and inodes are known by their address, because a freed one can still be pointed to: its memory keeps the
  last content until the cache hands it out again. Which free address that is, and which dentry a path leads to, is
  part of the event.

  Reference counts are natural numbers, as in Objects.lean; a count of 0 that is dropped once more does not come back
  to 0 and stays 0 here.
-/
import OreUnix.Fs.Objects
import OreUnix.Fs.Pipe
import Mathlib.Data.Finset.Insert

namespace OreUnix.Fd

open Fs (Pipe)
open Vfs (Crash)
open Function (update)

def openMax : Nat := 1024

/-! ## 1. Objects -/

/-- The operation tables of open files; `other` stands for those without a release operation. -/
inductive FileOps where
  | pipeRead
  | pipeWrite
  | ramfs
  | other
  deriving DecidableEq

def FileOps.hasRelease : FileOps → Bool
  | .other => false
  | _ => true

/-- `struct file`; `pipe` is the number of the pipe a pipe's end was made for. -/
structure File where
  dentry : Nat
  ops : FileOps
  refcount : Nat
  pipe : Nat
  deriving DecidableEq

/-- `named` is whether the dentry stands in a directory. -/
structure Dentry where
  inode : Option Nat
  refcount : Nat
  named : Bool
  deriving DecidableEq

/-- `ramfs` is whether `i_fops` are those of ramfs; `priv` is the pipe `i_private` points to. -/
structure Inode where
  refcount : Nat
  ramfs : Bool
  priv : Option Nat
  deriving DecidableEq

/-- A place of a slab cache. -/
structure Cell (α : Type) where
  live : Bool
  val : α
  deriving DecidableEq

/-- `struct files_struct`; `fd` is `none` when the array could not be allocated. -/
structure Table where
  fd : Option (Nat → Option Nat)
  closeOnExec : Nat → Bool

/-- The objects, the file table of each process, the processes there have been, and the files whose release operation
    has run. -/
structure State where
  files : Nat → Cell File
  nextFile : Nat
  dentries : Nat → Cell Dentry
  inodes : Nat → Cell Inode
  pipes : Nat → Pipe
  nextPipe : Nat
  tables : Nat → Option Table
  procs : Finset Nat
  released : List Nat

abbrev M := StateT State (Except Crash)

def getFile (f : Nat) : M File := fun s =>
  if (s.files f).live then .ok ((s.files f).val, s) else .error .freed

def setFile (f : Nat) (c : Cell File) : M Unit := modify fun s => { s with files := update s.files f c }

def State.setDentry (s : State) (d : Nat) (x : Cell Dentry) : State :=
  { s with dentries := update s.dentries d x }

def State.setInode (s : State) (i : Nat) (x : Cell Inode) : State :=
  { s with inodes := update s.inodes i x }

/-! ## 2. Dropping references -/

def State.inodePut (s : State) (i : Nat) : State :=
  let c := s.inodes i
  if c.val.refcount = 1 then s.setInode i ⟨false, { c.val with refcount := 0 }⟩
  else s.setInode i ⟨c.live, { c.val with refcount := c.val.refcount - 1 }⟩

/-- `dentry_free`, with the count at 0. -/
def State.dentryFree (s : State) (d : Nat) : State :=
  let x := (s.dentries d).val
  let s := match x.inode with
    | some i => s.inodePut i
    | none => s
  s.setDentry d ⟨false, { x with refcount := 0, named := false }⟩

def State.dentryPut (s : State) (d : Nat) : State :=
  let c := s.dentries d
  if c.val.refcount = 1 then s.dentryFree d
  else s.setDentry d ⟨c.live, { c.val with refcount := c.val.refcount - 1 }⟩

def State.dentryGet (s : State) (d : Nat) : State :=
  let c := s.dentries d
  s.setDentry d ⟨c.live, { c.val with refcount := c.val.refcount + 1 }⟩

/-- The common body of the release operations of a pipe's ends: `f->f_dentry->d_inode->i_private` is looked up, the
    count lowered, and the pipe freed when both ends are closed. -/
def pipeRelease (close : Pipe → Pipe) (x : File) : M Unit := do
  let s ← get
  match (s.dentries x.dentry).val.inode with
  | none => throw .null
  | some i =>
    match (s.inodes i).val.priv with
    | none => throw .null
    | some p =>
      let q := close (s.pipes p)
      let s := { s with pipes := update s.pipes p q }
      let c := s.inodes i
      set (if q.closed then s.setInode i ⟨c.live, { c.val with priv := none }⟩ else s)

def pipeReadRelease : File → M Unit := pipeRelease Pipe.readRelease
def pipeWriteRelease : File → M Unit := pipeRelease Pipe.writeRelease

/-- The call of the release operation in `file_free`; that of ramfs does nothing. -/
def release (f : Nat) (x : File) : M Unit := do
  if x.ops.hasRelease then
    modify fun s => { s with released := s.released ++ [f] }
  match x.ops with
  | .pipeRead => pipeReadRelease x
  | .pipeWrite => pipeWriteRelease x
  | _ => pure ()

def fileFree (f : Nat) : M Unit := do
  let x ← getFile f
  release f x
  modify fun s => s.dentryPut x.dentry
  setFile f ⟨false, x⟩

def filePut (f : Nat) : M Unit := do
  let x ← getFile f
  if x.refcount = 1 then fileFree f else setFile f ⟨true, { x with refcount := x.refcount - 1 }⟩

def fileGet (f : Nat) : M Unit := do
  let x ← getFile f
  setFile f ⟨true, { x with refcount := x.refcount + 1 }⟩

/-- `file_alloc` when there is memory, with the fields its callers set. -/
def fileAlloc (dentry : Nat) (ops : FileOps) (pipe : Nat) : M Nat := do
  let s ← get
  set { s with
    files := update s.files s.nextFile ⟨true, ⟨dentry, ops, 1, pipe⟩⟩
    nextFile := s.nextFile + 1 }
  pure s.nextFile

/-! ## 3. Tables of descriptors -/

/-- The array of a process; a NULL pointer on the way is followed. -/
def fdArray (p : Nat) : M (Nat → Option Nat) := do
  match ((← get).tables p).bind Table.fd with
  | some fd => pure fd
  | none => throw .null

def State.setTable (s : State) (p : Nat) (t : Option Table) : State :=
  { s with tables := update s.tables p t }

/-- A write to an entry of the array. -/
def setFd (p i : Nat) (v : Option Nat) : M Unit := do
  let fd ← fdArray p
  modify fun s => s.setTable p ((s.tables p).map fun t => { t with fd := some (update fd i v) })

def filesAllocFd (p : Nat) : M (Option Nat) := do
  let fd ← fdArray p
  pure ((List.range openMax).find? fun i => (fd i).isNone)

/-- `if (f->fd[i]) { file_put(f->fd[i]); f->fd[i] = NULL; }` -/
def freeSlot (p i : Nat) : M Unit := do
  match (← fdArray p) i with
  | some f =>
    filePut f
    setFd p i none
  | none => pure ()

def filesFreeFd (p : Nat) (fd : Int) : M Unit :=
  if fd ≥ 0 ∧ fd < openMax then freeSlot p fd.toNat else pure ()

/-- `files_create` with a table; `ok` is whether its array could be allocated. -/
def filesCreate (p : Nat) (ok : Bool) : M Unit := modify fun s =>
  { s.setTable p (some ⟨if ok then some fun _ => none else none, fun _ => false⟩) with
    procs := insert p s.procs }

/-- The loop of `files_clone` over the entries `is`. -/
def cloneSlots (p q : Nat) : List Nat → M Unit
  | [] => pure ()
  | i :: is => do
    match (← fdArray p) i with
    | some f =>
      fileGet f
      setFd q i (some f)
    | none => pure ()
    cloneSlots p q is

/-- `files_clone` into the table of the new process `q`. -/
@[irreducible] def filesClone (p q : Nat) (ok : Bool) : M Unit := do
  filesCreate q ok
  cloneSlots p q (List.range openMax)

/-- The loop of `files_destroy`. -/
def freeSlots (p : Nat) : List Nat → M Unit
  | [] => pure ()
  | i :: is => do
    freeSlot p i
    freeSlots p is

@[irreducible] def filesDestroy (p : Nat) : M Unit := do
  freeSlots p (List.range openMax)
  modify fun s => s.setTable p none

/-! ## 4. Calls -/

def fdToFile (p : Nat) (fd : Int) : M (Option Nat) := do
  if ((← get).tables p).isNone then pure none
  else if fd < 0 ∨ fd ≥ openMax then pure none
  else return (← fdArray p) fd.toNat

/-- How the path of an open ends: nowhere; at a dentry `vfs_lookup` returns with a reference; with `O_CREAT`, at a
    dentry that stands in its directory already, or at a new dentry `d` whose inode `i` the file system makes, or does
    not. On the way it may go through a mount: `vfs_lookup` keeps its reference to the mount point `m` and drops one
    of the mounted root `r`, which it has not taken. -/
inductive Target where
  | missing
  | found (d : Nat)
  | existing (d : Nat)
  | created (d i : Nat) (ok : Bool)
  | through (m r : Nat) (rest : Target)

/-- The dentry `vfs_open` goes on with. -/
def openDentry : Target → M (Option Nat)
  | .missing => pure none
  | .found d => do
    modify fun s => s.dentryGet d
    pure (some d)
  | .existing d => pure (some d)
  | .created d i ok => do
    modify fun s => s.setDentry d ⟨true, ⟨none, 1, true⟩⟩
    if ok then
      modify fun s => (s.setInode i ⟨true, ⟨2, true, none⟩⟩).setDentry d ⟨true, ⟨some i, 1, true⟩⟩
      pure (some d)
    else
      modify fun s => s.dentryPut d
      pure none
  | .through m r rest => do
    modify fun s => (s.dentryGet m).dentryPut r
    openDentry rest

/-- `vfs_open`. `refused`: the access is not allowed (`O_EXCL` and the name exists, a directory is opened for
    writing); `ok`: there is memory for the file. Every open operation succeeds. -/
def vfsOpen (target : Target) (refused ok : Bool) : M (Option Nat) := do
  match ← openDentry target with
  | none => pure none
  | some d =>
    let s ← get
    match (s.dentries d).val.inode with
    | none =>
      modify fun s => s.dentryPut d
      pure none
    | some i =>
      if refused ∨ !ok then
        modify fun s => s.dentryPut d
        pure none
      else
        let f ← fileAlloc d (if (s.inodes i).val.ramfs then .ramfs else .other) 0
        pure (some f)

/-- `vfs_pipe`. The pipe and its inode are allocated with a check, dentries and files without. -/
def vfsPipe (inode rde wde : Option Nat) (rf wf : Bool) : M (Option (Nat × Nat)) := do
  match inode with
  | none => pure none
  | some i =>
    let p := (← get).nextPipe
    modify fun s => { s.setInode i ⟨true, ⟨1, false, some p⟩⟩ with
      pipes := update s.pipes p (Pipe.new fun _ => 0)
      nextPipe := p + 1 }
    match rde, wde, rf, wf with
    | some rde, some wde, true, true =>
      modify fun s => (s.setInode i ⟨true, ⟨2, false, some p⟩⟩).setDentry rde ⟨true, ⟨some i, 1, false⟩⟩
      let r ← fileAlloc rde .pipeRead p
      modify fun s => (s.setInode i ⟨true, ⟨3, false, some p⟩⟩).setDentry wde ⟨true, ⟨some i, 1, false⟩⟩
      let w ← fileAlloc wde .pipeWrite p
      modify fun s => s.inodePut i
      pure (some (r, w))
    | _, _, _, _ => throw .null

def sysOpen (p : Nat) (target : Target) (refused ok : Bool) : M Int := do
  match ← vfsOpen target refused ok with
  | none => pure (-ENOENT)
  | some f =>
    match ← filesAllocFd p with
    | none =>
      filePut f
      pure (-EMFILE)
    | some fd =>
      setFd p fd (some f)
      pure fd

def sysClose (p : Nat) (fd : Int) : M Int := do
  match ← fdToFile p fd with
  | none => pure (-EBADF)
  | some _ =>
    filesFreeFd p fd
    pure 0

def sysDup (p : Nat) (fd : Int) : M Int := do
  match ← fdToFile p fd with
  | none => pure (-EBADF)
  | some f =>
    match ← filesAllocFd p with
    | none => pure (-EMFILE)
    | some nfd =>
      fileGet f
      setFd p nfd (some f)
      pure nfd

def sysDup2 (p : Nat) (old new : Int) : M Int := do
  if old = new then pure new
  else
    match ← fdToFile p old with
    | none => pure (-EBADF)
    | some f =>
      if new < 0 ∨ new ≥ openMax then pure (-EBADF)
      else
        filesFreeFd p new
        fileGet f
        setFd p new.toNat (some f)
        pure new

def sysPipe (p : Nat) (inode rde wde : Option Nat) (rf wf : Bool) : M Int := do
  match ← vfsPipe inode rde wde rf wf with
  | none => pure (-ENOMEM)
  | some (r, w) =>
    match ← filesAllocFd p with
    | none =>
      filePut r
      filePut w
      pure (-EMFILE)
    | some rfd =>
      setFd p rfd (some r)
      match ← filesAllocFd p with
      | none =>
        filesFreeFd p rfd
        filePut w
        pure (-EMFILE)
      | some wfd =>
        setFd p wfd (some w)
        pure 0

/-- `fcntl(fd, F_DUPFD)`. An entry beyond the array is read before `sys_dup` refuses the number; the result is the
    same whatever is found there. -/
def fcntlDupfd (p : Nat) (fd : Int) : M Int := do
  match ← fdToFile p fd with
  | none => pure (-EBADF)
  | some _ => sysDup p fd

/-- `fcntl(fd, F_SETFD)` on an open descriptor. -/
def fcntlSetfd (p : Nat) (fd : Int) (on : Bool) : M Int := do
  match ← fdToFile p fd with
  | none => pure (-EBADF)
  | some _ =>
    modify fun s => s.setTable p ((s.tables p).map fun t =>
      { t with closeOnExec := update t.closeOnExec fd.toNat on })
    pure 0

/-- The loop of `sys_exec` over the entries `is`. -/
def closeOnExec (p : Nat) : List Nat → M Unit
  | [] => pure ()
  | i :: is => do
    if (((← get).tables p).map fun t => t.closeOnExec i).getD false then
      freeSlot p i
    closeOnExec p is

/-- The pass of `sys_exec` over the whole table. -/
@[irreducible] def execFiles (p : Nat) : M Unit := closeOnExec p (List.range openMax)

/-- A round of `pipe_read` on an open file: its result, or `none` when it sleeps. -/
def pipeRead (f count : Nat) : M (Option Int) := do
  let x ← getFile f
  let s ← get
  match (s.dentries x.dentry).val.inode with
  | none => throw .null
  | some i =>
    match (s.inodes i).val.priv with
    | none => pure (some (-EINVAL))
    | some p =>
      let r := (s.pipes p).readChunk count
      set { s with pipes := update s.pipes p r.2 }
      match r.1 with
      | .data bs => pure (some bs.length)
      | .eof => pure (some 0)
      | .wait => pure none

/-- A round of `pipe_write` on an open file. -/
def pipeWrite (f : Nat) (bytes : List UInt8) : M (Option Int) := do
  let x ← getFile f
  let s ← get
  match (s.dentries x.dentry).val.inode with
  | none => throw .null
  | some i =>
    match (s.inodes i).val.priv with
    | none => pure (some (-EINVAL))
    | some p =>
      if (s.pipes p).readers = 0 then pure (some (-EPIPE))
      else
        let r := (s.pipes p).writeChunk bytes
        set { s with pipes := update s.pipes p r.2 }
        pure (r.1.map fun n => (n : Int))

/-- A read from a pipe. Reads from other files do not touch what is modelled here. -/
def sysRead (p : Nat) (fd : Int) (count : Nat) : M (Option Int) := do
  match ← fdToFile p fd with
  | none => pure (some (-EBADF))
  | some f => if (← getFile f).ops = .pipeRead then pipeRead f count else pure none

def sysWrite (p : Nat) (fd : Int) (bytes : List UInt8) : M (Option Int) := do
  match ← fdToFile p fd with
  | none => pure (some (-EBADF))
  | some f => if (← getFile f).ops = .pipeWrite then pipeWrite f bytes else pure none

/-! ## 5. Runs -/

inductive Event where
  | open (p : Nat) (target : Target) (refused ok : Bool)
  | close (p : Nat) (fd : Int)
  | dup (p : Nat) (fd : Int)
  | dup2 (p : Nat) (old new : Int)
  | pipe (p : Nat) (inode rde wde : Option Nat) (rf wf : Bool)
  | dupfd (p : Nat) (fd : Int)
  | setfd (p : Nat) (fd : Int) (on : Bool)
  | fork (p q : Nat) (ok : Bool)
  | exec (p : Nat)
  | exit (p : Nat)
  | read (p : Nat) (fd : Int) (count : Nat)
  | write (p : Nat) (fd : Int) (bytes : List UInt8)

/-- A call whose result does not matter. -/
def void {α : Type} (m : M α) : M Unit := do
  let _ ← m
  pure ()

def Event.call : Event → M Unit
  | .open p target refused ok => void (sysOpen p target refused ok)
  | .close p fd => void (sysClose p fd)
  | .dup p fd => void (sysDup p fd)
  | .dup2 p old new => void (sysDup2 p old new)
  | .pipe p inode rde wde rf wf => void (sysPipe p inode rde wde rf wf)
  | .dupfd p fd => void (fcntlDupfd p fd)
  | .setfd p fd on => void (fcntlSetfd p fd on)
  | .fork p q ok => filesClone p q ok
  | .exec p => execFiles p
  | .exit p => filesDestroy p
  | .read p fd count => void (sysRead p fd count)
  | .write p fd bytes => void (sysWrite p fd bytes)

/-- What the caches and the directories offer: new objects get addresses that are free, a path leads to a dentry that
    stands in its directory, a child is a process that was not there. -/
def Target.Offered (s : State) : Target → Prop
  | .missing => True
  | .found d => (s.dentries d).live ∧ (s.dentries d).val.named
  | .existing d => (s.dentries d).live ∧ (s.dentries d).val.named
  | .created d i _ => ¬ (s.dentries d).live ∧ ¬ (s.inodes i).live
  | .through m r rest => ((s.dentries m).live ∧ (s.dentries r).live) ∧ rest.Offered ((s.dentryGet m).dentryPut r)

def Event.Offered (s : State) : Event → Prop
  | .open _ target _ _ => target.Offered s
  | .pipe _ inode rde wde _ _ => (∀ i ∈ inode, ¬ (s.inodes i).live) ∧
      (∀ d ∈ rde, ¬ (s.dentries d).live) ∧ (∀ d ∈ wde, ¬ (s.dentries d).live) ∧ (rde = wde → rde = none)
  | .fork p q _ => p ≠ q ∧ (s.tables q).isNone
  | _ => True

/-- A call that comes back. -/
def Step (s : State) (e : Event) (s' : State) : Prop := e.Offered s ∧ e.call s = .ok ((), s')

/-- The descriptor `i` of process `p`. -/
def slot (s : State) (p i : Nat) : Option Nat :=
  (s.tables p).bind fun t => t.fd.bind fun fd => if i < openMax then fd i else none

end OreUnix.Fd
