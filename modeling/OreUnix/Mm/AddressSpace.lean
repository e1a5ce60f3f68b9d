/-
  Subject: ADDRESS SPACES of mm/vmm.c: `mm_struct` with its areas, and the calls on them.

  An `mm_struct` is a value that the calls return changed; the list of areas is a list. The slab allocations of
  `mm_struct` and `vm_area` objects succeed or fail as the state says. Addresses and lengths are 32-bit words.
-/
import OreUnix.Mm.Paging

namespace OreUnix.Vmm

open ByteMem Pmm

/-- `struct vm_area`. -/
structure Vma where
  start : Nat
  fin : Nat
  flags : Nat
  deriving DecidableEq, Repr

/-- `struct mm_struct`. -/
structure MmStruct where
  pgdir : Nat
  vmas : List Vma
  brk : Nat
  startBrk : Nat
  startStack : Nat
  mapCount : Nat
  deriving DecidableEq, Repr

/-- `kmem_cache_alloc`: whether it gives an object. -/
def Vm.slabAlloc (s : Vm) : Bool × Vm :=
  match s.slab with
  | [] => (true, s)
  | ok :: slab => (ok, { s with slab := slab })

section Calls

variable (kernelPgdir : Nat)

def mmCreate (s : Vm) : Option MmStruct × Vm :=
  let (ok, s) := s.slabAlloc
  if ok then
    let (pd, s) := pgdirCreate kernelPgdir s
    if pd = 0 then (none, s)
    else
      let startBrk := 0x08048000 + 64 * 1024 * 1024
      (some ⟨pd, [], startBrk, startBrk, userStackTop, 0⟩, s)
  else (none, s)

def mmDestroy (mm : MmStruct) (s : Vm) : Vm := pgdirDestroy kernelPgdir mm.pgdir s

/-- The loop of `mm_clone` over the areas. -/
def cloneVmas : List Vma → MmStruct → Vm → Option MmStruct × Vm
  | [], dst, s => (some dst, s)
  | vma :: vmas, dst, s =>
    let (ok, s) := s.slabAlloc
    if ok then
      cloneVmas vmas { dst with vmas := dst.vmas ++ [vma], mapCount := u32 (dst.mapCount + 1) } s
    else (none, mmDestroy kernelPgdir dst s)

def mmClone (src : MmStruct) (s : Vm) : Option MmStruct × Vm :=
  let (ok, s) := s.slabAlloc
  if ok then
    let (pd, s) := pgdirClone kernelPgdir src.pgdir s
    if pd = 0 then (none, s)
    else cloneVmas kernelPgdir src.vmas ⟨pd, [], src.brk, src.startBrk, src.startStack, 0⟩ s
  else (none, s)

end Calls

/-- The addresses `addr`, `addr + PAGE_SIZE`, ... below `addr + len`, which may wrap around. -/
def pageAddrs (addr len : Nat) : List Nat :=
  (List.range ((u32 (addr + len) - addr + (pageSize - 1)) / pageSize)).map (addr + · * pageSize)

/-- The loop of `mm_mmap`. The result of `map_page` is not looked at. -/
def mmapPages (pd flags : Nat) : List Nat → Vm → Bool × Vm
  | [], s => (true, s)
  | p :: ps, s =>
    let (phys, s) := s.allocZero
    if phys = 0 then (false, s)
    else mmapPages pd flags ps (mapPage pd p phys flags s).2

/-- The flags `mm_mmap` passes to `map_page`. -/
def mmapFlags (flags : Nat) : Nat :=
  VM_USER ||| (if flags &&& VM_WRITE ≠ 0 then VM_WRITE else 0) |||
    (if flags &&& VM_READ ≠ 0 then VM_READ else 0)

def mmMmap (mm : MmStruct) (addr len flags : Nat) (s : Vm) : Int × MmStruct × Vm :=
  let len := alignUp len pageSize
  match mmapPages mm.pgdir (mmapFlags flags) (pageAddrs addr len) s with
  | (false, s) => (-ENOMEM, mm, s)
  | (true, s) =>
    let (ok, s) := s.slabAlloc
    if ok then
      let vma : Vma := ⟨addr, u32 (addr + len), flags⟩
      (0, { mm with vmas := mm.vmas ++ [vma], mapCount := u32 (mm.mapCount + 1) }, s)
    else (-ENOMEM, mm, s)

/-- The loop of `mm_munmap` over the pages. -/
def munmapPages (pd : Nat) : List Nat → Vm → Vm
  | [], s => s
  | p :: ps, s =>
    let phys := virtToPhysPd pd p s
    let s := if phys ≠ 0 then s.free (pteAddr phys) else s
    munmapPages pd ps (unmapPage pd p s)

/-- The areas `mm_munmap` keeps. -/
def keptVmas (addr fin : Nat) (vmas : List Vma) : List Vma :=
  vmas.filter fun vma => vma.fin ≤ addr ∨ vma.start ≥ fin

def mmMunmap (mm : MmStruct) (addr len : Nat) (s : Vm) : MmStruct × Vm :=
  let len := alignUp len pageSize
  let s := munmapPages mm.pgdir (pageAddrs addr len) s
  let kept := keptVmas addr (u32 (addr + len)) mm.vmas
  ({ mm with vmas := kept, mapCount := sub32 mm.mapCount (mm.vmas.length - kept.length) }, s)

def mmBrk (mm : MmStruct) (newBrk : Nat) (s : Vm) : Int × MmStruct × Vm :=
  let newBrk := alignUp newBrk pageSize
  if newBrk < mm.startBrk then (-EINVAL, mm, s)
  else if newBrk > mm.brk then
    let (r, mm, s) := mmMmap mm mm.brk (newBrk - mm.brk) (VM_READ ||| VM_WRITE) s
    if r ≠ 0 then (r, mm, s) else (0, { mm with brk := newBrk }, s)
  else if newBrk < mm.brk then
    let (mm', s) := mmMunmap mm newBrk (mm.brk - newBrk) s
    (0, { mm' with brk := newBrk }, s)
  else (0, { mm with brk := newBrk }, s)

def mmFindVma (mm : MmStruct) (addr : Nat) : Option Vma :=
  mm.vmas.find? fun vma => addr ≥ vma.start ∧ addr < vma.fin

/-- The user part of `page_fault_handler`: a page of an area is made on first use; every other fault ends in a signal
    and leaves memory alone. -/
def pageFault (mm : MmStruct) (addr : Nat) (isWrite isPresent : Bool) (s : Vm) : Vm :=
  match mmFindVma mm addr with
  | none => s
  | some vma =>
    if isWrite ∧ vma.flags &&& VM_WRITE = 0 then s
    else if isPresent then s
    else
      let (page, s) := s.allocZero
      if page = 0 then s
      else (mapPage mm.pgdir (alignDown addr pageSize) page (vma.flags ||| VM_USER) s).2

/-- The bits an entry needs for a store in user mode. -/
def userWritable (e : Nat) : Bool := e.testBit 0 && e.testBit 1 && e.testBit 2

/-- A store of a program to its address `va`, as the processor does it: the byte is written, or the page fault is
    taken instead (the program then tries again). -/
def userStore (mm : MmStruct) (va : Nat) (v : UInt8) (s : Vm) : Vm :=
  let pde := entry s mm.pgdir (pdIndex va)
  let pte := entry s (pteAddr pde) (ptIndex va)
  if userWritable pde ∧ userWritable pte then
    { s with mem := store s.mem (pteAddr pte + va % pageSize) v }
  else pageFault mm va true (present pde && present pte) s

end OreUnix.Vmm
