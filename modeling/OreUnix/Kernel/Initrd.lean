/-
  Subject: THE INITIAL RAMDISK of kernel/kmain.c: `initrd_populate` unpacks a newc archive into the root.

  The archive stands in the kernel's memory, which is a parameter: nothing that is unpacked goes to where the archive
  is. Pointers and sizes are 32-bit words. A C string is read as far as the buffers it goes to are long (`fullpath`
  has 512 bytes); the strings it is compared with are shorter.

  `uid` and `gid` are parsed and not used; what is printed is left out.
-/
import OreUnix.Fs.TreeCalls
import OreUnix.Lib.ByteMem

namespace OreUnix.Initrd

open Vfs ByteMem

/-! ## 1. The archive -/

/-- `sizeof(struct cpio_newc_hdr)`, and the offsets of the fields that are used. -/
def hdrSize : Nat := 110
def offMode : Nat := 14
def offFilesize : Nat := 54
def offNamesize : Nat := 94

/-- The value `cpio_parse_hex` gives a character; what is no digit counts as an upper-case one. -/
def hexDigit (c : UInt8) : Int :=
  if 48 ≤ c.toNat ∧ c.toNat ≤ 57 then c.toNat - 48
  else if 97 ≤ c.toNat ∧ c.toNat ≤ 102 then c.toNat - 97 + 10
  else (c.toNat : Int).bmod 256 - 65 + 10

/-- `cpio_parse_hex`: the loop over the characters, with the value so far. -/
def cpioParseHex (m : Mem) : Nat → Nat → Nat → Nat
  | _, 0, v => v
  | a, n + 1, v => cpioParseHex m (a + 1) n (((v * 16 + hexDigit (m a) : Int) % 2 ^ 32).toNat)

/-- CPIO_ALIGN4, on a 32-bit word: the last two bits are cleared. -/
def cpioAlign4 (x : Nat) : Nat := u32 (x + 3) - u32 (x + 3) % 4

def hasMagic (m : Mem) (p : Nat) : Bool :=
  load m p 6 == [48, 55, 48, 55, 48, 49] || load m p 6 == [48, 55, 48, 55, 48, 50]

/-- `TRAILER!!!` -/
def trailer : Str := [84, 82, 65, 73, 76, 69, 82, 33, 33, 33]

/-! ## 2. The directory of an entry -/

def isReg (mode : Nat) : Bool := mode &&& S_IFMT == S_IFREG

/-- The child with a name, made as a directory if there is none. -/
def childOrMake (parent : Nat) (name : Str) : M (Option Nat) := do
  match ← dentryLookupChild parent name with
  | some child => pure (some child)
  | none =>
    let _ ← ramfsCreateDir parent name 0o755
    dentryLookupChild parent name

/-- The loop over the slashes of `fullpath`: the directory the last part is in, and that part. The path gets shorter
    in every round, so that its length is enough for the number of rounds. -/
def findParent : Nat → Nat → Str → M (Nat × Str)
  | 0, _, _ => throw .fuel
  | n + 1, parent, path =>
    if slash ∈ path then do
      match ← childOrMake parent (path.takeWhile (· != slash)) with
      | none => pure (parent, path)
      | some child => findParent n child (path.dropWhile (· != slash)).tail
    else pure (parent, path)

/-! ## 3. The loop over the archive -/

/-- What an entry becomes: `fullpath` is the path with its leading slash, cut to the buffer. The result is how many
    bytes of the data were read: those of a file are, once there is memory for them. -/
def placeEntry (fuel : Nat) (m : Mem) (root : Nat) (name : Str) (mode fileData filesize : Nat) : M Nat := do
  let fullpath := (slash :: name).take 511
  let (parent, leaf) ← findParent fullpath.length root fullpath.tail
  if leaf = [] then pure 0
  else if isDir mode then
    let _ ← ramfsCreateDir parent leaf (mode &&& 0o7777)
    pure 0
  else if isLnk mode then
    let tlen := min filesize 255
    let _ ← vfsSymlink fuel ((load m fileData tlen).takeWhile (· != 0)) fullpath
    pure tlen
  else if isReg mode then
    let data := if fileData = 0 then [] else load m fileData filesize
    let r ← ramfsCreateFile parent leaf data (mode &&& 0o7777)
    pure (if r = 0 then data.length else 0)
  else pure 0

/-- The loop of `initrd_populate` from the header at `p`, in at most as many rounds as given. -/
def populateFrom (fuel : Nat) (m : Mem) (root fin : Nat) : Nat → Nat → M Unit
  | 0, _ => throw .fuel
  | n + 1, p =>
    if u32 (p + hdrSize) ≤ fin ∧ hasMagic m p then do
      let namesize := cpioParseHex m (p + offNamesize) 8 0
      let filesize := cpioParseHex m (p + offFilesize) 8 0
      let mode := cpioParseHex m (p + offMode) 8 0
      let name := p + hdrSize
      let fileData := u32 (p + cpioAlign4 (u32 (hdrSize + namesize)))
      let next := u32 (p + u32 (cpioAlign4 (u32 (hdrSize + namesize)) + cpioAlign4 filesize))
      if cString m name 512 = trailer then pure ()
      else if cString m name 512 = dot ∨ namesize = 0 then populateFrom fuel m root fin n next
      else
        let name := if m name = 46 ∧ m (name + 1) = slash then name + 2 else name
        let _ ← placeEntry fuel m root (cString m name 512) mode fileData filesize
        populateFrom fuel m root fin n next
    else pure ()

/-- `initrd_populate`. -/
def initrdPopulate (fuel rounds : Nat) (m : Mem) (phys size root : Nat) : M Unit :=
  if phys = 0 ∨ size = 0 then pure ()
  else
    let data := u32 (phys + kernelVirtBase)
    populateFrom fuel m root (u32 (data + size)) rounds data

end OreUnix.Initrd
