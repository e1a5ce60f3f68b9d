/-
  Subject: THE ELF LOADER (kernel/elf.c): `sys_exec` up to the point where it takes the new address space into use.

  * `execLoad` -- the header and the program headers are read, the PT_LOAD segments mapped and copied, and the pages
    of the stack mapped;
  * `execStack` -- the strings of `envp` and `argv`, the auxiliary vector and `argc` go to the stack;
  * `actions` -- the mappings and copies the loader makes, read off the file alone, and `loadSegments_outcome`: the
    loader makes exactly these, one after the other.

  The executable is its bytes, so a read delivers what lies in them from a position on. The kernel reaches a frame
  through `phys_to_virt`; here it is the frame itself that is written. `kmalloc` has the oracle of the object caches.
  kernel.h does not define ENOEXEC; it has the usual value here.
-/
import OreUnix.Mm.MapSpec

namespace OreUnix.Exec

open ByteMem Pmm Vmm

/-! ## 1. The file -/

def ELF_MAGIC : Nat := 0x464C457F
def ET_EXEC : Nat := 2
def EM_386 : Nat := 3
def PT_LOAD : Nat := 1
def PF_X : Nat := 1
def PF_W : Nat := 2

def ehdrSize : Nat := 52
def phdrSize : Nat := 32

/-- What `f_ops->read` delivers at a position. -/
def readAt (file : List UInt8) (pos count : Nat) : List UInt8 := (file.drop pos).take count

def byteAt (bs : List UInt8) : Mem := fun i => bs.getD i 0

def u16At (bs : List UInt8) (i : Nat) : Nat := (byteAt bs i).toNat + 2 ^ 8 * (byteAt bs (i + 1)).toNat

def u32At (bs : List UInt8) (i : Nat) : Nat := word (byteAt bs) i

/-- The fields of `Elf32_Ehdr` that are looked at. -/
structure Ehdr where
  magic : Nat
  cls : Nat
  type : Nat
  machine : Nat
  entry : Nat
  phoff : Nat
  phentsize : Nat
  phnum : Nat
  deriving DecidableEq, Repr

def Ehdr.ofBytes (bs : List UInt8) : Ehdr where
  magic := u32At bs 0
  cls := (byteAt bs 4).toNat
  type := u16At bs 16
  machine := u16At bs 18
  entry := u32At bs 24
  phoff := u32At bs 28
  phentsize := u16At bs 42
  phnum := u16At bs 44

/-- The fields of `Elf32_Phdr` that are looked at. -/
structure Phdr where
  type : Nat
  offset : Nat
  vaddr : Nat
  filesz : Nat
  memsz : Nat
  flags : Nat
  deriving DecidableEq, Repr

/-- Entry `i` of the table of program headers. -/
def Phdr.ofBytes (bs : List UInt8) (i : Nat) : Phdr where
  type := u32At bs (phdrSize * i)
  offset := u32At bs (phdrSize * i + 4)
  vaddr := u32At bs (phdrSize * i + 8)
  filesz := u32At bs (phdrSize * i + 16)
  memsz := u32At bs (phdrSize * i + 20)
  flags := u32At bs (phdrSize * i + 24)

def Ehdr.accepted (eh : Ehdr) : Bool :=
  eh.magic = ELF_MAGIC && eh.cls = 1 && eh.type = ET_EXEC && eh.machine = EM_386

/-- The header, if it is whole and accepted. -/
def readHeader (file : List UInt8) : Except Int Ehdr :=
  let bs := readAt file 0 ehdrSize
  if bs.length ≠ ehdrSize then .error (-ENOEXEC)
  else if (Ehdr.ofBytes bs).accepted then .ok (Ehdr.ofBytes bs)
  else .error (-ENOEXEC)

def programHeaders (file : List UInt8) (eh : Ehdr) : List Phdr :=
  (List.range eh.phnum).map (Phdr.ofBytes (readAt file eh.phoff (eh.phnum * phdrSize)))

/-! ## 2. Segments -/

def Phdr.start (ph : Phdr) : Nat := alignDown ph.vaddr pageSize

def Phdr.fin (ph : Phdr) : Nat := alignUp (u32 (ph.vaddr + ph.memsz)) pageSize

/-- The pages of a segment. -/
def Phdr.pages (ph : Phdr) : List Nat :=
  (List.range (sub32 ph.fin ph.start / pageSize)).map fun p => u32 (ph.start + p * pageSize)

def Phdr.vmFlags (ph : Phdr) : Nat :=
  VM_USER ||| VM_READ ||| (if ph.flags &&& PF_W ≠ 0 then VM_WRITE else 0) |||
    (if ph.flags &&& PF_X ≠ 0 then VM_EXEC else 0)

/-- The segments the loop does not skip. -/
def Phdr.isLoaded (ph : Phdr) : Bool := ph.type = PT_LOAD && ph.memsz ≠ 0

/-- The bytes of a round of the copying loop. -/
def chunkSize (dst toRead : Nat) : Nat := min toRead (pageSize - dst % pageSize)

theorem chunkSize_pos (dst : Nat) {toRead : Nat} (h : toRead ≠ 0) : 0 < chunkSize dst toRead := by
  have hlt : dst % pageSize < pageSize := Nat.mod_lt _ (by decide)
  unfold chunkSize
  omega

theorem chunkSize_le (dst toRead : Nat) : chunkSize dst toRead ≤ toRead := Nat.min_le_left ..

/-- Where a byte of the program is put: the frame of its page, at its place there. -/
def destination (pd va : Nat) (s : Vm) : Nat := pteAddr (virtToPhysPd pd va s) + va % pageSize

def copyChunk (pd va : Nat) (bytes : List UInt8) (s : Vm) : Vm :=
  { s with mem := storeList s.mem (destination pd va s) bytes }

/-- The loop that reads the file page by page. -/
def copyFile (pd : Nat) (file : List UInt8) (dst src toRead : Nat) (s : Vm) : Vm :=
  if _h : toRead = 0 then s
  else
    let chunk := chunkSize dst toRead
    copyFile pd file (u32 (dst + chunk)) (src + chunk) (toRead - chunk) (copyChunk pd dst (readAt file src chunk) s)
  termination_by toRead
  decreasing_by
    have hpos := chunkSize_pos dst _h
    omega

/-- One segment: its pages, then its bytes. The result of `map_page` is not looked at. -/
def loadSegment (pd : Nat) (file : List UInt8) (ph : Phdr) (s : Vm) : Bool × Vm :=
  let r := mmapPages pd ph.vmFlags ph.pages s
  if r.1 then (true, copyFile pd file ph.vaddr ph.offset ph.filesz r.2) else r

def loadSegments (pd : Nat) (file : List UInt8) : List Phdr → Vm → Bool × Vm
  | [], s => (true, s)
  | ph :: phs, s =>
    if ph.isLoaded then
      let r := loadSegment pd file ph s
      if r.1 then loadSegments pd file phs r.2 else r
    else loadSegments pd file phs s

/-- `load_base` and `load_end`. -/
def loadBase (phs : List Phdr) : Nat :=
  (phs.filter Phdr.isLoaded).foldl (fun b ph => if b = 0 ∨ ph.start < b then ph.start else b) 0

def loadEnd (phs : List Phdr) : Nat :=
  (phs.filter Phdr.isLoaded).foldl (fun e ph => if ph.fin > e then ph.fin else e) 0

/-! ## 3. The new address space -/

def stackFlags : Nat := VM_READ ||| VM_WRITE ||| VM_USER

/-- The pages of the stack. -/
@[irreducible] def stackPages : List Nat :=
  (List.range (userStackSize / pageSize)).map (userStackTop - userStackSize + · * pageSize)

/-- `kmalloc`: nothing for nothing. -/
def kmallocOk (n : Nat) (s : Vm) : Bool × Vm := if n = 0 then (false, s) else s.slabAlloc

/-- What the rest of `sys_exec` needs. -/
structure Image where
  ehdr : Ehdr
  mm : MmStruct
  loadBase : Nat

section Exec

variable (kernelPgdir : Nat)

/-- Segments and stack in the new address space, which is given up when there is no memory. -/
def fillSpace (file : List UInt8) (eh : Ehdr) (mm : MmStruct) (s : Vm) : Except Int Image × Vm :=
  let phs := programHeaders file eh
  let r := loadSegments mm.pgdir file phs s
  if r.1 then
    let startBrk := alignUp (loadEnd phs) pageSize
    let r := mmapPages mm.pgdir stackFlags stackPages r.2
    if r.1 then
      (.ok ⟨eh, { mm with startBrk := startBrk, brk := startBrk, startStack := userStackTop }, loadBase phs⟩, r.2)
    else (.error (-ENOMEM), mmDestroy kernelPgdir mm r.2)
  else (.error (-ENOMEM), mmDestroy kernelPgdir mm r.2)

/-- Steps 1 to 3 of `sys_exec`: the headers and an empty address space. -/
def execCreate (file : List UInt8) (s : Vm) : Except Int (Ehdr × MmStruct) × Vm :=
  match readHeader file with
  | .error e => (.error e, s)
  | .ok eh =>
    let (ok, s) := kmallocOk (eh.phnum * phdrSize) s
    if !ok then (.error (-ENOMEM), s)
    else if (readAt file eh.phoff (eh.phnum * phdrSize)).length ≠ eh.phnum * phdrSize then (.error (-ENOEXEC), s)
    else
      match mmCreate kernelPgdir s with
      | (none, s) => (.error (-ENOMEM), s)
      | (some mm, s) => (.ok (eh, mm), s)

/-- Steps 1 to 5 of `sys_exec`. -/
def execLoad (file : List UInt8) (s : Vm) : Except Int Image × Vm :=
  match execCreate kernelPgdir file s with
  | (.error e, s) => (.error e, s)
  | (.ok (eh, mm), s) => fillSpace kernelPgdir file eh mm s

end Exec

/-! ## 4. The stack -/

/-- A page of the stack that is not mapped is mapped, whatever the allocator gives. -/
def ensurePage (pd sp : Nat) (s : Vm) : Vm :=
  if virtToPhysPd pd (alignDown sp pageSize) s = 0 then
    let (phys, s) := s.allocZero
    (mapPage pd (alignDown sp pageSize) phys stackFlags s).2
  else s

/-- `memcpy` to the physical address of `sp`, which goes on in physical memory. -/
def copyOut (pd sp : Nat) (bytes : List UInt8) (s : Vm) : Vm :=
  let s := ensurePage pd sp s
  { s with mem := storeList s.mem (virtToPhysPd pd sp s) bytes }

/-- The loop over the strings, the last one first: where each begins, and the stack pointer. -/
def pushEach (pd : Nat) : List (List UInt8) → Nat → Vm → List Nat × Nat × Vm
  | [], sp, s => ([], sp, s)
  | str :: strs, sp, s =>
    let (ptrs, sp, s) := pushEach pd strs sp s
    let sp := sub32 sp (str.length + 1)
    (sp :: ptrs, sp, copyOut pd sp (str ++ [0]) s)

def wordBytes (ws : List Nat) : List UInt8 :=
  ws.flatMap fun w => [UInt8.ofNat w, UInt8.ofNat (w / 2 ^ 8), UInt8.ofNat (w / 2 ^ 16), UInt8.ofNat (w / 2 ^ 24)]

/-- `push_strings`: the stack pointer, or 0. -/
def pushStrings (pd sp : Nat) (strs : List (List UInt8)) (s : Vm) : Nat × Vm :=
  let (ok, s) := kmallocOk ((strs.length + 1) * 4) s
  if ok then
    let (ptrs, sp, s) := pushEach pd strs sp s
    let sp := sub32 (alignDown sp 4) ((strs.length + 1) * 4)
    (sp, copyOut pd sp (wordBytes (ptrs ++ [0])) s)
  else (0, s)

def stackPush32 (pd sp val : Nat) (s : Vm) : Nat × Vm :=
  let sp := sub32 sp 4
  let s := ensurePage pd sp s
  (sp, { s with mem := storeWord s.mem (virtToPhysPd pd sp s) val })

/-- Words pushed one after the other. -/
def pushWords (pd : Nat) : List Nat → Nat → Vm → Nat × Vm
  | [], sp, s => (sp, s)
  | w :: ws, sp, s =>
    let (sp, s) := stackPush32 pd sp w s
    pushWords pd ws sp s

def AT_NULL : Nat := 0
def AT_PHDR : Nat := 3
def AT_PHENT : Nat := 4
def AT_PHNUM : Nat := 5
def AT_PAGESZ : Nat := 6
def AT_ENTRY : Nat := 9
def AT_UID : Nat := 11
def AT_EUID : Nat := 12
def AT_GID : Nat := 13
def AT_EGID : Nat := 14

/-- The ids of `current`. -/
structure Cred where
  uid : Nat
  euid : Nat
  gid : Nat
  egid : Nat

def auxv (im : Image) (cred : Cred) : List (Nat × Nat) :=
  [(AT_PAGESZ, pageSize), (AT_PHDR, u32 (im.loadBase + im.ehdr.phoff)), (AT_PHENT, im.ehdr.phentsize),
    (AT_PHNUM, im.ehdr.phnum), (AT_ENTRY, im.ehdr.entry), (AT_UID, cred.uid), (AT_EUID, cred.euid), (AT_GID, cred.gid),
    (AT_EGID, cred.egid), (AT_NULL, 0)]

def auxWords (im : Image) (cred : Cred) : List Nat := (auxv im cred).flatMap fun p => [p.1, p.2]

/-- Step 6 of `sys_exec`: the user's stack pointer. The pairs are pushed from the last one on, in each the value
    before the type, and `argc` after them. -/
def execStack (kernelPgdir : Nat) (im : Image) (cred : Cred) (argv envp : List (List UInt8)) (s : Vm) :
    Except Int Nat × Vm :=
  let (envpSp, s) := pushStrings im.mm.pgdir userStackTop envp s
  if envpSp = 0 then (.error (-ENOMEM), mmDestroy kernelPgdir im.mm s)
  else
    let (argvSp, s) := pushStrings im.mm.pgdir envpSp argv s
    if argvSp = 0 then (.error (-ENOMEM), mmDestroy kernelPgdir im.mm s)
    else
      let (sp, s) := pushWords im.mm.pgdir ((auxWords im cred).reverse ++ [argv.length]) (alignDown argvSp 16) s
      (.ok sp, s)

/-! ## 5. What the loader does, read off the file -/

inductive Action where
  | map (va flags : Nat)
  | copy (va : Nat) (bytes : List UInt8)

/-- A mapping ends the loader when there is no frame for the page. -/
def Action.exec (pd : Nat) (s : Vm) : Action → Option Vm
  | .map va flags => if s.allocZero.1 = 0 then none else some (mapFresh pd va flags s)
  | .copy va bytes => some (copyChunk pd va bytes s)

/-- The copies of a segment. -/
def copies (file : List UInt8) (dst src toRead : Nat) : List Action :=
  if _h : toRead = 0 then []
  else
    let chunk := chunkSize dst toRead
    .copy dst (readAt file src chunk) :: copies file (u32 (dst + chunk)) (src + chunk) (toRead - chunk)
  termination_by toRead
  decreasing_by
    have hpos := chunkSize_pos dst _h
    omega

def Phdr.actions (file : List UInt8) (ph : Phdr) : List Action :=
  ph.pages.map (Action.map · ph.vmFlags) ++ copies file ph.vaddr ph.offset ph.filesz

def actions (file : List UInt8) (phs : List Phdr) : List Action :=
  (phs.filter Phdr.isLoaded).flatMap (Phdr.actions file)

variable {pd : Nat} {file : List UInt8} {s s' : Vm}

/-- The state after a loop that says whether it went through. -/
def outcome (r : Bool × Vm) : Option Vm := if r.1 then some r.2 else none

theorem mmapPages_outcome (pd flags : Nat) (ps : List Nat) (s : Vm) :
    outcome (mmapPages pd flags ps s) = (ps.map (Action.map · flags)).foldlM (Action.exec pd) s := by
  induction ps generalizing s with
  | nil => rfl
  | cons p ps ih =>
    rw [mmapPages, List.map_cons, List.foldlM_cons]
    dsimp only [Action.exec]
    by_cases h0 : s.allocZero.1 = 0
    · rw [if_pos h0, if_pos h0]
      rfl
    · rw [if_neg h0, if_neg h0, ih, mapFresh, if_neg h0]
      rfl

theorem copyFile_eq (pd : Nat) (file : List UInt8) (dst src toRead : Nat) (s : Vm) :
    (copies file dst src toRead).foldlM (Action.exec pd) s = some (copyFile pd file dst src toRead s) := by
  induction toRead using Nat.strongRecOn generalizing dst src s with
  | ind toRead ih =>
    unfold copies copyFile
    by_cases h : toRead = 0
    · rw [dif_pos h, dif_pos h]
      rfl
    · rw [dif_neg h, dif_neg h]
      have hpos := chunkSize_pos dst h
      exact ih _ (by omega) _ _ _

theorem loadSegment_outcome (pd : Nat) (file : List UInt8) (ph : Phdr) (s : Vm) :
    outcome (loadSegment pd file ph s) = (ph.actions file).foldlM (Action.exec pd) s := by
  rw [Phdr.actions, List.foldlM_append, ← mmapPages_outcome]
  unfold loadSegment
  dsimp only
  generalize mmapPages pd ph.vmFlags ph.pages s = r
  obtain ⟨_ | _, s1⟩ := r
  · rfl
  · exact (copyFile_eq pd file ph.vaddr ph.offset ph.filesz s1).symm

/-- **The loader makes the mappings and copies of the file**, one after the other. -/
theorem loadSegments_outcome (pd : Nat) (file : List UInt8) (phs : List Phdr) (s : Vm) :
    outcome (loadSegments pd file phs s) = (actions file phs).foldlM (Action.exec pd) s := by
  induction phs generalizing s with
  | nil => rfl
  | cons ph phs ih =>
    rw [loadSegments, actions]
    by_cases hload : ph.isLoaded
    · rw [if_pos hload, List.filter_cons_of_pos hload, List.flatMap_cons, List.foldlM_append, ← loadSegment_outcome]
      dsimp only
      generalize loadSegment pd file ph s = r
      obtain ⟨_ | _, s1⟩ := r
      · rfl
      · exact ih s1
    · rw [if_neg hload, List.filter_cons_of_neg hload]
      exact ih s

end OreUnix.Exec
