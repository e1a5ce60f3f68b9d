/-
  Subject: PATH LOOKUP, OPEN, READ, WRITE, SEEK, STAT AND CLOSE of fs/vfs.c.

  The walk of `vfs_lookup` and its calls of itself for symlinks share one fuel argument; a call that has used it up
  ends in the crash `fuel`. Results that are 0 or a negative error code in the source are `Except Int` here.
-/
import OreUnix.Fs.Ramfs

namespace OreUnix.Vfs

open Function (update)

/-! ## 1. Paths -/

def slash : UInt8 := 47
def dot : Str := [46]
def dotdot : Str := [46, 46]

/-- The next component of a path and what follows it; none when only slashes are left. -/
def nextComponent (path : Str) : Option (Str × Str) :=
  let path := path.dropWhile (· == slash)
  if path = [] then none
  else some (path.takeWhile (· != slash), path.dropWhile (· != slash))

/-! ## 2. Lookup -/

/-- The dentry a lookup starts from; `cwd ? cwd : current->cwd`. -/
def startDentry (path : Str) (cwd : Option Nat) : M Nat := do
  let s ← get
  if path.head? = some slash then
    dentryGet s.root
    pure s.root
  else
    let d ← deref (cwd.or s.cwd)
    dentryGet d
    pure d

/-- `vfs_lookup`, over its loop `walk`. The slash of an absolute path is skipped by the loop. -/
def lookupWith (walk : Nat → Str → M (Except Int Nat)) (path : Str) (cwd : Option Nat) :
    M (Except Int Nat) := do
  if path = [] then pure (.error (-EINVAL))
  else
    let de ← startDentry path cwd
    walk de path

/-- The end of a round of the loop: a symlink that is not the end of the path is replaced by what its target names,
    looked up from the link's directory. -/
def followLink (walk : Nat → Str → M (Except Int Nat)) (de : Nat) (rest : Str) :
    M (Except Int Nat) := do
  let x ← getDentry de
  match x.inode with
  | none => walk de rest
  | some i =>
    let y ← getInode i
    if isLnk y.mode ∧ rest ≠ [] then
      match y.ops with
      | none =>
        dentryPut de
        pure (.error (-EINVAL))
      | some .ramfs =>
        match ← ramfsReadlink i pathMax with
        | .error e =>
          dentryPut de
          pure (.error e)
        | .ok lnk =>
          let r ← lookupWith walk lnk x.parent
          dentryPut de
          match r with
          | .error e => pure (.error e)
          | .ok lde => walk lde rest
    else walk de rest

/-- An ordinary component, looked up in the directory `de`: in the list of children first, then by the file system's
    lookup operation on a new child. -/
def stepInto (walk : Nat → Str → M (Except Int Nat)) (de : Nat) (component rest : Str) :
    M (Except Int Nat) := do
  let x ← getDentry de
  match x.inode with
  | none =>
    dentryPut de
    pure (.error (-ENOENT))
  | some i =>
    let y ← getInode i
    if !isDir y.mode then
      dentryPut de
      pure (.error (-ENOTDIR))
    else
      match ← dentryLookupChild de component with
      | some child =>
        dentryGet child
        dentryPut de
        followLink walk child rest
      | none =>
        match ← dentryAlloc component (some de) with
        | none =>
          dentryPut de
          pure (.error (-ENOMEM))
        | some child =>
          match y.ops with
          | none =>
            dentryPut child
            dentryPut de
            pure (.error (-ENOENT))
          | some .ramfs =>
            let r ← ramfsLookup child
            if r ≠ 0 then
              dentryPut child
              dentryPut de
              pure (.error r)
            else
              dentryPut de
              followLink walk child rest

/-- The loop over the components; a reference to `de` is held. -/
def walk : Nat → Nat → Str → M (Except Int Nat)
  | 0, _, _ => throw .fuel
  | fuel + 1, de, path =>
    match nextComponent path with
    | none => pure (.ok de)
    | some (component, rest) =>
      if component.length > nameMax then throw .overflow
      else if component = dot then walk fuel de rest
      else if component = dotdot then do
        let x ← getDentry de
        match x.parent with
        | some p =>
          dentryGet p
          dentryPut de
          walk fuel p rest
        | none => walk fuel de rest
      else do
        let x ← getDentry de
        -- follow mountpoints
        match x.mounted, x.mountpoint with
        | true, some m => stepInto (walk fuel) m component rest
        | _, _ => stepInto (walk fuel) de component rest

def vfsLookup (fuel : Nat) (path : Str) (cwd : Option Nat) : M (Except Int Nat) :=
  lookupWith (walk fuel) path cwd

/-- The part of a path before its last slash and the part after it. -/
def splitLast (path : Str) : Option (Str × Str) :=
  if slash ∈ path then
    some ((path.reverse.dropWhile (· != slash)).tail.reverse,
      (path.reverse.takeWhile (· != slash)).reverse)
  else none

/-- `vfs_lookup_parent`: the directory and the last component. A component that fills the caller's buffer is left
    without its terminator. -/
def vfsLookupParent (fuel : Nat) (path : Str) : M (Except Int (Nat × Str)) := do
  match splitLast path with
  | none =>
    let s ← get
    let d ← deref s.cwd
    dentryGet d
    if path.length < nameMax then pure (.ok (d, path)) else throw .overflow
  | some (dir, name) =>
    if name.length ≥ nameMax then throw .overflow
    else if dir = [] then
      let s ← get
      dentryGet s.root
      pure (.ok (s.root, name))
    else if dir.length ≥ pathMax then pure (.error (-ENAMETOOLONG))
    else
      match ← vfsLookup fuel dir none with
      | .error e => pure (.error e)
      | .ok d => pure (.ok (d, name))

/-! ## 3. Open and close -/

/-- The part of `vfs_open` that makes a new file in the directory `parent`. -/
def createChild (parent : Nat) (name : Str) (mode : Nat) : M (Option Nat) := do
  match ← dentryAlloc name (some parent) with
  | none =>
    dentryPut parent
    pure none
  | some de =>
    let x ← getDentry parent
    let i ← deref x.inode
    let y ← getInode i
    match y.ops with
    | none =>
      dentryPut de
      dentryPut parent
      pure none
    | some .ramfs =>
      let r ← ramfsCreate i de mode
      if r ≠ 0 then
        dentryPut de
        dentryPut parent
        pure none
      else
        dentryPut parent
        pure (some de)

/-- `vfs_open` with `O_CREAT`, up to the dentry to open. -/
def openCreate (fuel : Nat) (path : Str) (flags mode : Nat) : M (Option Nat) := do
  match ← vfsLookupParent fuel path with
  | .error _ => pure none
  | .ok (parent, name) =>
    match ← dentryLookupChild parent name with
    | none => createChild parent name mode
    | some de =>
      if hasFlag flags O_EXCL then
        dentryPut de
        dentryPut parent
        pure none
      else
        dentryPut parent
        pure (some de)

/-- `vfs_open` from the dentry on. -/
def openDentry (de flags : Nat) : M (Option Nat) := do
  let x ← getDentry de
  match x.inode with
  | none =>
    dentryPut de
    pure none
  | some i =>
    let y ← getInode i
    if (hasFlag flags O_WRONLY || hasFlag flags O_RDWR) && isDir y.mode then
      dentryPut de
      pure none
    else
      match ← fileAlloc with
      | none =>
        dentryPut de
        pure none
      | some f =>
        if hasFlag flags O_TRUNC && y.ops.isSome then
          let _ ← ramfsTruncate i 0
        let y' ← getInode i
        -- every `open` operation returns 0
        setFile f (some ⟨some de, y.fops, if hasFlag flags O_APPEND then y'.size else 0, flags, 1⟩)
        pure (some f)

/-- `vfs_open`: the file, or NULL. -/
def vfsOpen (fuel : Nat) (path : Str) (flags mode : Nat) : M (Option Nat) := do
  if hasFlag flags O_CREAT then
    match ← openCreate fuel path flags mode with
    | none => pure none
    | some de => openDentry de flags
  else
    match ← vfsLookup fuel path none with
    | .error _ => pure none
    | .ok de => openDentry de flags

def vfsClose (f : Nat) : M Unit := filePut f

/-! ## 4. Reading, writing, seeking, stat -/

/-- What a device driver makes of a read or write: the value it returns and the new position. -/
structure DevResult where
  ret : Int
  pos : Int
  deriving DecidableEq, Repr

/-- `vfs_read`: the value returned and the bytes delivered. -/
def vfsRead (f count : Nat) (dev : DevResult) : M (Int × List UInt8) := do
  let x ← getFile f
  match x.fops with
  | none => pure (-EINVAL, [])
  | some ops =>
    if ¬ (x.flags = O_RDONLY ∨ hasFlag x.flags O_RDWR) then pure (-EBADF, [])
    else match ops with
      | .ramfsFile => ramfsRead f count
      | .ramfsDir => pure (-EISDIR, [])
      | .dev =>
        setFile f (some { x with pos := dev.pos })
        pure (dev.ret, [])

def vfsWrite (f : Nat) (buf : List UInt8) (dev : DevResult) : M Int := do
  let x ← getFile f
  match x.fops with
  | none => pure (-EINVAL)
  | some .ramfsDir => pure (-EINVAL)
  | some .ramfsFile => if x.flags = O_RDONLY then pure (-EBADF) else ramfsWrite f buf
  | some .dev =>
    if x.flags = O_RDONLY then pure (-EBADF)
    else
      setFile f (some { x with pos := dev.pos })
      pure dev.ret

/-- Where `vfs_lseek` goes; the inode is read for SEEK_END only. -/
def seekTarget (x : File) (offset : Int) : Nat → M (Option Int)
  | 0 => pure (some offset)
  | 1 => pure (some (s64 (x.pos + offset)))
  | 2 => do
    let (_, y) ← fileInode x
    pure (some (s64 (y.size + offset)))
  | _ => pure none

/-- `vfs_lseek`; no file system here has a `lseek` operation. -/
def vfsLseek (f : Nat) (offset : Int) (whence : Nat) : M Int := do
  let x ← getFile f
  let d ← deref x.dentry
  let _ ← getDentry d
  match ← seekTarget x offset whence with
  | none => pure (-EINVAL)
  | some pos =>
    let pos := if pos < 0 then 0 else pos
    setFile f (some { x with pos := pos })
    pure pos

/-- `struct stat`. -/
structure Stat where
  ino : Nat
  mode : Nat
  nlink : Nat
  uid : Nat
  gid : Nat
  rdev : Nat
  size : Int
  blksize : Nat
  blocks : Int
  atime : Nat
  mtime : Nat
  ctime : Nat
  deriving DecidableEq, Repr

/-- `vfs_fstat_inode`; no inode here has a `getattr` operation. -/
def vfsFstatInode (x : Inode) : Stat :=
  ⟨x.ino, x.mode, x.nlink, x.uid, x.gid, x.rdev, x.size, pageSize, (x.size + 511).tdiv 512,
    x.atime, x.mtime, x.ctime⟩

def vfsStat (fuel : Nat) (path : Str) : M (Except Int Stat) := do
  match ← vfsLookup fuel path none with
  | .error e => pure (.error e)
  | .ok de =>
    let x ← getDentry de
    let i ← deref x.inode
    let y ← getInode i
    dentryPut de
    pure (.ok (vfsFstatInode y))

end OreUnix.Vfs
