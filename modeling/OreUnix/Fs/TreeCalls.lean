/-
  Subject: THE CALLS THAT CHANGE THE TREE of fs/vfs.c and fs/ramfs.c: mkdir, unlink, rmdir, rename, symlink and
  mknod; the files and directories of the initial ramdisk; the mount of a ramfs.

  Results are the C values: 0 or a negative error code. Calling an operation that is not there, or following a NULL
  pointer to reach it, is the crash `null`.

  `d_sb` and the list of a super block's inodes are left out: nothing reads them.
-/
import OreUnix.Fs.Vfs

namespace OreUnix.Vfs

open Function (update)

/-! ## 1. Device nodes -/

def S_IFBLK : Nat := 0x6000
def S_IFCHR : Nat := 0x2000

def isChr (mode : Nat) : Bool := mode &&& S_IFMT == S_IFCHR
def isBlk (mode : Nat) : Bool := mode &&& S_IFMT == S_IFBLK

/-- The majors `devfs_init` and `ata_register` register. -/
def chrMajors : List Nat := [1, 4]
def blkMajors : List Nat := [8]

/-- `dev_setup_inode`: the file operations of a node with the given mode and device number. -/
def devSetupInode (mode dev : Nat) : Option FileOps :=
  if isChr mode then if dev >>> 8 ∈ chrMajors then some .dev else none
  else if isBlk mode then if dev >>> 8 ∈ blkMajors then some .dev else none
  else none

/-! ## 2. Inode operations of ramfs -/

/-- The end of the creating operations: a new inode gets its last fields and becomes the dentry's. -/
def installInode (i de : Nat) (f : Inode → Inode) : M Unit := do
  let x ← getInode i
  setInode i (some (f x))
  inodeGet i
  let y ← getDentry de
  setDentry de (some { y with inode := some i })

/-- `ramfs_mkdir`: 0 or an error. -/
def ramfsMkdir (dir de mode : Nat) : M Int := do
  match ← ramfsNewInode (S_IFDIR ||| (mode &&& 0o777)) with
  | none => pure (-ENOMEM)
  | some i =>
    installInode i de fun x => { x with ops := some .ramfs, fops := some .ramfsDir }
    let z ← getInode dir
    setInode dir (some { z with nlink := u32 (z.nlink + 1) })
    pure 0

/-- `ramfs_symlink`; the copy of the target is NULL when there is no memory for it. -/
def ramfsSymlink (de : Nat) (target : Str) : M Int := do
  match ← ramfsNewInode (S_IFLNK ||| 0o777) with
  | none => pure (-ENOMEM)
  | some i =>
    let copied ← allocOk
    installInode i de fun x => { x with
      priv := x.priv.map fun ri => { ri with symlinkTarget := if copied then some target else none }
      size := target.length
      ops := some .ramfs }
    pure 0

/-- `ramfs_mknod`; the inode gets no inode operations. -/
def ramfsMknod (de mode dev : Nat) : M Int := do
  match ← ramfsNewInode mode with
  | none => pure (-ENOMEM)
  | some i =>
    installInode i de fun x => { x with rdev := dev, fops := devSetupInode mode dev }
    pure 0

/-- `ramfs_unlink`. With the last link the private data is freed; `i_private` keeps its value. -/
def ramfsUnlink (de : Nat) : M Int := do
  let x ← getDentry de
  match x.inode with
  | none => pure (-ENOENT)
  | some i =>
    let y ← getInode i
    let nlink := u32 (y.nlink + (2 ^ 32 - 1))
    setInode i (some { y with nlink := nlink })
    if nlink = 0 then
      inodePut i
      setDentry de (some { x with inode := none })
    unlinkSibling de
    pure 0

/-- `ramfs_rmdir`. -/
def ramfsRmdir (dir de : Nat) : M Int := do
  let x ← getDentry de
  if x.children ≠ [] then pure (-ENOTEMPTY)
  else
    let z ← getInode dir
    setInode dir (some { z with nlink := u32 (z.nlink + (2 ^ 32 - 1)) })
    ramfsUnlink de

/-- `ramfs_rename`: the inode moves to the new dentry. -/
def ramfsRename (ode nde : Nat) : M Int := do
  let x ← getDentry ode
  let y ← getDentry nde
  setDentry nde (some { y with inode := x.inode })
  let x ← getDentry ode
  setDentry ode (some { x with inode := none })
  unlinkSibling ode
  pure 0

/-! ## 3. Calls on a name -/

/-- `de->d_inode`, followed. -/
def dentryInode (de : Nat) : M (Nat × Inode) := do
  let x ← getDentry de
  let i ← deref x.inode
  let y ← getInode i
  pure (i, y)

def vfsMkdir (fuel : Nat) (path : Str) (mode : Nat) : M Int := do
  match ← vfsLookupParent fuel path with
  | .error e => pure e
  | .ok (parent, name) =>
    match ← dentryAlloc name (some parent) with
    | none =>
      dentryPut parent
      pure (-ENOMEM)
    | some de =>
      let (dir, z) ← dentryInode parent
      match z.ops with
      | none =>
        dentryPut de
        dentryPut parent
        pure (-EPERM)
      | some .ramfs =>
        let r ← ramfsMkdir dir de (mode ||| S_IFDIR)
        dentryPut parent
        if r ≠ 0 then dentryPut de
        pure r

/-- `vfs_symlink`; a dentry that got no inode stays where it is. -/
def vfsSymlink (fuel : Nat) (target linkpath : Str) : M Int := do
  match ← vfsLookupParent fuel linkpath with
  | .error e => pure e
  | .ok (parent, name) =>
    match ← dentryAlloc name (some parent) with
    | none =>
      dentryPut parent
      pure (-ENOMEM)
    | some de =>
      let (_, z) ← dentryInode parent
      match z.ops with
      | none =>
        dentryPut de
        dentryPut parent
        pure (-EPERM)
      | some .ramfs =>
        let r ← ramfsSymlink de target
        dentryPut parent
        pure r

/-- `sys_mknod`, which asks neither for the operations nor for the operation. -/
def sysMknod (fuel : Nat) (path : Str) (mode dev : Nat) : M Int := do
  match ← vfsLookupParent fuel path with
  | .error e => pure e
  | .ok (parent, name) =>
    match ← dentryAlloc name (some parent) with
    | none =>
      dentryPut parent
      pure (-ENOMEM)
    | some de =>
      let (_, z) ← dentryInode parent
      match z.ops with
      | none => throw .null
      | some .ramfs =>
        let r ← ramfsMknod de mode dev
        dentryPut parent
        pure r

def vfsUnlink (fuel : Nat) (path : Str) : M Int := do
  match ← vfsLookupParent fuel path with
  | .error e => pure e
  | .ok (parent, name) =>
    match ← dentryLookupChild parent name with
    | none =>
      dentryPut parent
      pure (-ENOENT)
    | some de =>
      let (_, y) ← dentryInode de
      if isDir y.mode then
        dentryPut parent
        pure (-EISDIR)
      else
        let (_, z) ← dentryInode parent
        match z.ops with
        | none =>
          dentryPut parent
          pure (-EPERM)
        | some .ramfs =>
          let r ← ramfsUnlink de
          dentryPut parent
          pure r

def vfsRmdir (fuel : Nat) (path : Str) : M Int := do
  match ← vfsLookupParent fuel path with
  | .error e => pure e
  | .ok (parent, name) =>
    match ← dentryLookupChild parent name with
    | none =>
      dentryPut parent
      pure (-ENOENT)
    | some de =>
      let x ← getDentry de
      if x.children ≠ [] then
        dentryPut parent
        pure (-ENOTEMPTY)
      else
        let (dir, z) ← dentryInode parent
        match z.ops with
        | none =>
          dentryPut parent
          pure (-EPERM)
        | some .ramfs =>
          let r ← ramfsRmdir dir de
          dentryPut parent
          pure r

def vfsRename (fuel : Nat) (oldpath newpath : Str) : M Int := do
  match ← vfsLookupParent fuel oldpath with
  | .error e => pure e
  | .ok (opar, oname) =>
    match ← vfsLookupParent fuel newpath with
    | .error e =>
      dentryPut opar
      pure e
    | .ok (npar, nname) =>
      match ← dentryLookupChild opar oname with
      | none =>
        dentryPut opar
        dentryPut npar
        pure (-ENOENT)
      | some ode =>
        match ← dentryAlloc nname (some npar) with
        | none =>
          dentryPut opar
          dentryPut npar
          pure (-ENOMEM)
        | some nde =>
          let (_, z) ← dentryInode opar
          match z.ops with
          | none =>
            dentryPut nde
            dentryPut opar
            dentryPut npar
            pure (-EPERM)
          | some .ramfs =>
            let r ← ramfsRename ode nde
            dentryPut opar
            dentryPut npar
            pure r

/-! ## 4. The initial ramdisk and the mount -/

/-- `ramfs_create_file`. -/
def ramfsCreateFile (dir : Nat) (name : Str) (data : List UInt8) (mode : Nat) : M Int := do
  match ← dentryAlloc name (some dir) with
  | none => pure (-ENOMEM)
  | some de =>
    let x ← getDentry dir
    let i ← deref x.inode
    let r ← ramfsCreate i de mode
    if r ≠ 0 then
      dentryPut de
      pure r
    else if data = [] then pure 0
    else
      let (j, y) ← dentryInode de
      if ← allocOk then
        setInode j (some { y with
          priv := y.priv.map fun ri => { ri with data := some data, capacity := data.length }
          size := data.length })
        pure 0
      else
        let _ ← ramfsUnlink de
        pure (-ENOMEM)

/-- `ramfs_create_dir`; a dentry that got no inode stays where it is. -/
def ramfsCreateDir (parent : Nat) (name : Str) (mode : Nat) : M Int := do
  match ← dentryAlloc name (some parent) with
  | none => pure (-ENOMEM)
  | some de =>
    let x ← getDentry parent
    let i ← deref x.inode
    ramfsMkdir i de mode

/-- `ramfs_mount`: the root dentry of a new file system. -/
def ramfsMount : M Nat := do
  let i ← deref (← ramfsNewInode (S_IFDIR ||| 0o755))
  let x ← getInode i
  setInode i (some { x with ops := some .ramfs, fops := some .ramfsDir, nlink := 2 })
  let root ← deref (← dentryAlloc [slash] none)
  inodeGet i
  let y ← getDentry root
  setDentry root (some { y with inode := some i })
  pure root

end OreUnix.Vfs
