/-
  Subject: THE INODE AND FILE OPERATIONS of fs/ramfs.c that path lookup, open, read and write reach.

  File offsets and sizes are 64-bit signed (`off_t`), byte counts and capacities 32-bit unsigned; a pointer moved by
  an offset wraps at 2^32. Copying outside a file's block is the crash `overflow`.
-/
import OreUnix.Fs.Objects

namespace OreUnix.Vfs

open Function (update)

/-! ## 1. Mode bits and open flags (vfs.h) -/

def S_IFMT : Nat := 0xF000
def S_IFLNK : Nat := 0xA000
def S_IFREG : Nat := 0x8000
def S_IFDIR : Nat := 0x4000

def isDir (mode : Nat) : Bool := mode &&& S_IFMT == S_IFDIR
def isLnk (mode : Nat) : Bool := mode &&& S_IFMT == S_IFLNK

def O_RDONLY : Nat := 0x0000
def O_WRONLY : Nat := 0x0001
def O_RDWR : Nat := 0x0002
def O_CREAT : Nat := 0x0040
def O_EXCL : Nat := 0x0080
def O_TRUNC : Nat := 0x0200
def O_APPEND : Nat := 0x0400

/-- `flags & bit`. -/
def hasFlag (flags bit : Nat) : Bool := flags &&& bit != 0

/-- Conversion to a 64-bit signed value. -/
def s64 (n : Int) : Int := n.bmod (2 ^ 64)

/-- Conversion to a 32-bit unsigned value. -/
def toU32 (n : Int) : Nat := (n % 2 ^ 32).toNat

/-! ## 2. Inode operations -/

/-- `ramfs_lookup`: 0 or an error. -/
def ramfsLookup (de : Nat) : M Int := do
  let x ← getDentry de
  pure (if x.inode.isSome then 0 else -ENOENT)

/-- `ramfs_new_inode`. -/
def ramfsNewInode (mode : Nat) : M (Option Nat) := do
  match ← inodeAlloc with
  | none => pure none
  | some i =>
    if ← allocOk then
      let s ← get
      let x ← getInode i
      set { s with
        nextIno := s.nextIno + 1
        inodes := update s.inodes i (some { x with
          ino := s.nextIno, mode := mode, uid := s.uid, gid := s.gid, nlink := 1
          priv := some ⟨none, 0, s.nextIno, none⟩
          atime := s.jiffies, mtime := s.jiffies, ctime := s.jiffies }) }
      pure (some i)
    else
      inodeFree i
      pure none

/-- `ramfs_create`: 0 or an error. -/
def ramfsCreate (dir de mode : Nat) : M Int := do
  match ← ramfsNewInode (S_IFREG ||| (mode &&& 0o777)) with
  | none => pure (-ENOMEM)
  | some i =>
    let x ← getInode i
    setInode i (some { x with ops := some .ramfs, fops := some .ramfsFile })
    inodeGet i
    let y ← getDentry de
    setDentry de (some { y with inode := some i })
    let z ← getInode dir
    setInode dir (some { z with mtime := x.ctime })
    pure 0

/-- `ramfs_readlink` into a buffer of `sz` bytes: the bytes delivered, or an error. With `sz = 0` the length `sz - 1`
    is that of the address space. -/
def ramfsReadlink (i sz : Nat) : M (Except Int Str) := do
  let x ← getInode i
  match x.priv with
  | none => throw .null
  | some ri =>
    match ri.symlinkTarget with
    | none => pure (.error (-EINVAL))
    | some t => if sz = 0 then throw .overflow else pure (.ok (t.take (sz - 1)))

/-- `krealloc`: a block of at least `size` bytes in the place of `data`, or NULL. -/
abbrev Realloc := Option (List UInt8) → Nat → M (Option (List UInt8))

/-- The `krealloc` of the kernel heap, which refuses more than its window; a request so large that its arithmetic
    wraps is not modelled further. -/
def krealloc : Realloc := fun data size => do
  if size ≤ kernelHeapSize then
    if ← allocOk then
      let old := (data.getD []).take size
      pure (some (old ++ List.replicate (size - old.length) 0))
    else pure none
  else if size ≤ 8 * kernelHeapSize then pure none
  else throw .overflow

/-- The contents of a block after `memcpy(data + pos, buf, count)`. -/
def splice (data : List UInt8) (pos : Nat) (buf : List UInt8) : List UInt8 :=
  data.take pos ++ buf ++ data.drop (pos + buf.length)

/-- A file's buffer with `newcap` bytes, those behind the old capacity set to 0. -/
def growBuffer (realloc : Realloc) (ri : RamfsInode) (newcap : Nat) : M (Option RamfsInode) := do
  match ← realloc ri.data newcap with
  | none => pure none
  | some nd =>
    pure (some { ri with
      data := some (splice nd ri.capacity (List.replicate (newcap - ri.capacity) 0))
      capacity := newcap })

/-- `ramfs_truncate`: 0 or an error. -/
def ramfsTruncateWith (realloc : Realloc) (i : Nat) (size : Int) : M Int := do
  let x ← getInode i
  match x.priv with
  | none => throw .null
  | some ri =>
    if size = 0 then
      setInode i (some { x with priv := some { ri with data := none, capacity := 0 }, size := size })
      pure 0
    else if toU32 size > ri.capacity then
      match ← growBuffer realloc ri (toU32 size) with
      | none => pure (-ENOMEM)
      | some ri' =>
        setInode i (some { x with priv := some ri', size := size })
        pure 0
    else
      setInode i (some { x with size := size })
      pure 0

def ramfsTruncate : Nat → Int → M Int := ramfsTruncateWith krealloc

/-! ## 3. File operations -/

/-- The inode behind an open file. -/
def fileInode (x : File) : M (Nat × Inode) := do
  let d ← deref x.dentry
  let de ← getDentry d
  let i ← deref de.inode
  let y ← getInode i
  pure (i, y)

/-- `ramfs_read`: the count returned and the bytes delivered. -/
def ramfsRead (f count : Nat) : M (Int × List UInt8) := do
  let x ← getFile f
  let (_, y) ← fileInode x
  if x.pos ≥ y.size then pure (0, [])
  else
    let count := if s64 (x.pos + count) > y.size then toU32 (y.size - x.pos) else count
    match y.priv with
    | none => throw .null
    | some ri =>
      match ri.data with
      | none => pure (0, [])
      | some data =>
        if toU32 x.pos + count ≤ data.length then
          setFile f (some { x with pos := s64 (x.pos + count) })
          pure (count, (data.drop (toU32 x.pos)).take count)
        else throw .overflow

/-- The end of `ramfs_write`: `buf` is copied to `pos`, position and size follow. -/
def storeBytes (f i : Nat) (x : File) (y : Inode) (pos : Int) (buf : List UInt8) (ri : RamfsInode) :
    M Int := do
  if toU32 pos + buf.length ≤ (ri.data.getD []).length then
    let pos' := s64 (pos + buf.length)
    setFile f (some { x with pos := pos' })
    setInode i (some { y with
      priv := some { ri with data := ri.data.map fun data => splice data (toU32 pos) buf }
      size := if pos' > y.size then pos' else y.size })
    pure buf.length
  else throw .overflow

/-- `size_t newcap = MAX(end, ri->capacity * 2 + 4096);` -/
def newCapacity (ri : RamfsInode) (fin : Int) : Nat := toU32 (max fin (u32 (ri.capacity * 2 + 4096) : Nat))

/-- `ramfs_write`: the count returned, or an error. -/
def ramfsWriteWith (realloc : Realloc) (f : Nat) (buf : List UInt8) : M Int := do
  let x ← getFile f
  let (i, y) ← fileInode x
  let pos := if hasFlag x.flags O_APPEND then y.size else x.pos
  setFile f (some { x with pos := pos })
  let fin := s64 (pos + buf.length)
  match y.priv with
  | none => throw .null
  | some ri =>
    let grown ← if toU32 fin > ri.capacity then growBuffer realloc ri (newCapacity ri fin) else pure (some ri)
    match grown with
    | none => pure (-ENOMEM)
    | some ri => storeBytes f i x y pos buf ri

def ramfsWrite : Nat → List UInt8 → M Int := ramfsWriteWith krealloc

end OreUnix.Vfs
