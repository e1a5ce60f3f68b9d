/-
  Subject: INODES, DENTRIES AND OPEN FILES of fs/vfs.c: their caches and reference counts.

  An object is known by a number; a freed one is `none`, and touching it is the crash `freed`. The caches hand out
  numbers never used before, so a stale pointer never meets a new object. Whether an allocation succeeds is read off a
  list of outcomes (`oracle`), so that a call can be followed through every pattern of failing allocations.

  Reference counts are natural numbers: every reference is held by an object on the kernel heap, which has room for
  far fewer than 2^32 of them.
-/
import OreUnix.Kernel.Base
import Mathlib.Logic.Function.Basic

namespace OreUnix.Vfs

open Function (update)

/-- A C string without its terminating NUL. -/
abbrev Str := List UInt8

def nameMax : Nat := 255
def pathMax : Nat := 4096

/-- What stops a call: NULL is dereferenced, a freed object is touched, a buffer is left, or the call has not come
    back within the fuel given to it. -/
inductive Crash where
  | null
  | freed
  | overflow
  | fuel
  deriving DecidableEq, Repr

/-! ## 1. The objects -/

/-- `struct ramfs_inode`; `data` holds `capacity` bytes, `none` is NULL. -/
structure RamfsInode where
  data : Option (List UInt8)
  capacity : Nat
  ino : Nat
  symlinkTarget : Option Str
  deriving DecidableEq, Repr

/-- The operation tables an inode can point to. -/
inductive InodeOps where
  | ramfs
  deriving DecidableEq, Repr

/-- `dev` stands for the tables of the device drivers. -/
inductive FileOps where
  | ramfsFile
  | ramfsDir
  | dev
  deriving DecidableEq, Repr

def FileOps.hasRelease : FileOps → Bool
  | ramfsFile => true
  | ramfsDir => true
  | dev => false

structure Inode where
  ino : Nat
  mode : Nat
  uid : Nat
  gid : Nat
  nlink : Nat
  size : Int
  rdev : Nat
  atime : Nat
  mtime : Nat
  ctime : Nat
  ops : Option InodeOps
  fops : Option FileOps
  priv : Option RamfsInode
  refcount : Nat
  deriving DecidableEq, Repr

/-- `linked` is whether `d_sibling` stands in the parent's list of children. -/
structure Dentry where
  name : Str
  inode : Option Nat
  parent : Option Nat
  children : List Nat
  linked : Bool
  refcount : Nat
  mounted : Bool
  mountpoint : Option Nat
  deriving DecidableEq, Repr

structure File where
  dentry : Option Nat
  fops : Option FileOps
  pos : Int
  flags : Nat
  refcount : Nat
  deriving DecidableEq, Repr

/-- The file system as the running task sees it: its credentials, its working directory and the clock are part of the
    state. -/
structure Fs where
  inodes : Nat → Option Inode
  dentries : Nat → Option Dentry
  files : Nat → Option File
  nextInode : Nat
  nextDentry : Nat
  nextFile : Nat
  nextIno : Nat
  root : Nat
  cwd : Option Nat
  uid : Nat
  gid : Nat
  jiffies : Nat
  oracle : List Bool

/-- A call into the file system. -/
abbrev M := StateT Fs (Except Crash)

/-! ## 2. Reading and writing objects -/

def getInode (i : Nat) : M Inode := fun s =>
  match s.inodes i with
  | some x => .ok (x, s)
  | none => .error .freed

def getDentry (d : Nat) : M Dentry := fun s =>
  match s.dentries d with
  | some x => .ok (x, s)
  | none => .error .freed

def getFile (f : Nat) : M File := fun s =>
  match s.files f with
  | some x => .ok (x, s)
  | none => .error .freed

def setInode (i : Nat) (x : Option Inode) : M Unit := fun s =>
  .ok ((), { s with inodes := update s.inodes i x })

def setDentry (d : Nat) (x : Option Dentry) : M Unit := fun s =>
  .ok ((), { s with dentries := update s.dentries d x })

def setFile (f : Nat) (x : Option File) : M Unit := fun s =>
  .ok ((), { s with files := update s.files f x })

/-- Whether the next allocation succeeds. -/
def allocOk : M Bool := fun s =>
  match s.oracle with
  | [] => .ok (true, s)
  | b :: bs => .ok (b, { s with oracle := bs })

/-- Following a pointer that may be NULL. -/
def deref (p : Option Nat) : M Nat :=
  match p with
  | some a => pure a
  | none => throw .null

/-! ## 3. Inodes -/

/-- `inode_alloc`: a zeroed inode with one reference. -/
def inodeAlloc : M (Option Nat) := do
  if ← allocOk then
    let s ← get
    set { s with
      inodes := update s.inodes s.nextInode (some ⟨0, 0, 0, 0, 0, 0, 0, 0, 0, 0, none, none, none, 1⟩)
      nextInode := s.nextInode + 1 }
    pure (some s.nextInode)
  else pure none

/-- `inode_free`; no file system here has a `free_inode` operation. -/
def inodeFree (i : Nat) : M Unit := setInode i none

def inodeGet (i : Nat) : M Unit := do
  let x ← getInode i
  setInode i (some { x with refcount := x.refcount + 1 })

def inodePut (i : Nat) : M Unit := do
  let x ← getInode i
  if x.refcount = 1 then inodeFree i else setInode i (some { x with refcount := x.refcount - 1 })

/-! ## 4. Dentries -/

/-- `dentry_alloc`: a dentry with one reference, the last child of its parent. -/
def dentryAlloc (name : Str) (parent : Option Nat) : M (Option Nat) := do
  if ← allocOk then
    let s ← get
    let de : Dentry :=
      { name := name.take nameMax, inode := none, parent := parent, children := []
        linked := parent.isSome, refcount := 1, mounted := false, mountpoint := none }
    set { s with
      dentries := update s.dentries s.nextDentry (some de)
      nextDentry := s.nextDentry + 1 }
    match parent with
    | some p =>
      let y ← getDentry p
      setDentry p (some { y with children := y.children ++ [s.nextDentry] })
    | none => pure ()
    pure (some s.nextDentry)
  else pure none

/-- `list_del(&de->d_sibling)`. -/
def unlinkSibling (d : Nat) : M Unit := do
  let x ← getDentry d
  match x.linked, x.parent with
  | true, some p =>
    let y ← getDentry p
    setDentry p (some { y with children := y.children.filter (· ≠ d) })
    setDentry d (some { x with linked := false })
  | _, _ => pure ()

def dentryFree (d : Nat) : M Unit := do
  unlinkSibling d
  let x ← getDentry d
  match x.inode with
  | some i => inodePut i
  | none => pure ()
  setDentry d none

def dentryGet (d : Nat) : M Unit := do
  let x ← getDentry d
  setDentry d (some { x with refcount := x.refcount + 1 })

def dentryPut (d : Nat) : M Unit := do
  let x ← getDentry d
  if x.refcount = 1 then dentryFree d else setDentry d (some { x with refcount := x.refcount - 1 })

/-- The loop of `dentry_lookup_child`. -/
def findChild (name : Str) : List Nat → M (Option Nat)
  | [] => pure none
  | c :: cs => do
    let x ← getDentry c
    if x.name = name then pure (some c) else findChild name cs

def dentryLookupChild (parent : Nat) (name : Str) : M (Option Nat) := do
  let x ← getDentry parent
  findChild name x.children

/-! ## 5. Open files -/

/-- `file_alloc`: a zeroed file with one reference. -/
def fileAlloc : M (Option Nat) := do
  if ← allocOk then
    let s ← get
    set { s with
      files := update s.files s.nextFile (some ⟨none, none, 0, 0, 1⟩)
      nextFile := s.nextFile + 1 }
    pure (some s.nextFile)
  else pure none

/-- `file_free`; the release operations of ramfs do nothing, but their argument is read. -/
def fileFree (f : Nat) : M Unit := do
  let x ← getFile f
  match x.dentry with
  | some d =>
    if (x.fops.map FileOps.hasRelease).getD false then
      let _ ← getDentry d
    dentryPut d
  | none => pure ()
  setFile f none

def filePut (f : Nat) : M Unit := do
  let x ← getFile f
  if x.refcount = 1 then fileFree f else setFile f (some { x with refcount := x.refcount - 1 })

end OreUnix.Vfs
