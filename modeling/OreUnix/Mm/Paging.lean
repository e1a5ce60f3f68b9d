/-
  Subject: PAGE TABLES AND PAGE DIRECTORIES of mm/vmm.c.

  Page tables are words in physical memory and are reached there, as the source does through `phys_to_virt`. A
  translation is the walk of the tables; `tlb_flush_page` and the load of CR3 have no part in it. Frames come from the
  allocator of Pmm.lean, which also says which address 0 is: a failed allocation.

  The loops of the source go through the entries of a table in order; here they go through a list of indices, which is
  all of them at the call.
-/
import OreUnix.Mm.Pmm

namespace OreUnix.Vmm

open ByteMem Pmm

/-- The frame allocator, the memory, and how the coming slab allocations end: an allocation beyond the list succeeds.
    -/
structure Vm where
  pages : Pages
  mem : Mem
  slab : List Bool

def Vm.alloc (s : Vm) : Nat × Vm :=
  let (p, pages) := pmmAlloc s.pages
  (p, { s with pages := pages })

def Vm.allocZero (s : Vm) : Nat × Vm :=
  let (p, pages, mem) := pmmAllocZero s.pages s.mem
  (p, { s with pages := pages, mem := mem })

def Vm.free (s : Vm) (phys : Nat) : Vm := { s with pages := pmmFree s.pages phys }

/-! ## 1. Entries (arch.h) -/

def PTE_PRESENT : Nat := 1
def PTE_WRITE : Nat := 2
def PTE_USER : Nat := 4
def PTE_PCD : Nat := 16

def VM_READ : Nat := 1
def VM_WRITE : Nat := 2
def VM_EXEC : Nat := 4
def VM_USER : Nat := 8
def VM_NOCACHE : Nat := 16

def pdIndex (va : Nat) : Nat := va / 2 ^ 22
def ptIndex (va : Nat) : Nat := va / 2 ^ 12 % 1024

/-- `PTE_ADDR`: an entry without its low twelve bits. -/
def pteAddr (e : Nat) : Nat := alignDown e pageSize

/-- The low twelve bits, `e & (PAGE_SIZE - 1)`. -/
def flagBits (e : Nat) : Nat := e % pageSize

def present (e : Nat) : Bool := e.testBit 0

/-- Entry `i` of the table at the physical address `t`. -/
def entry (s : Vm) (t i : Nat) : Nat := word s.mem (t + 4 * i)

def setEntry (s : Vm) (t i e : Nat) : Vm := { s with mem := storeWord s.mem (t + 4 * i) e }

/-- The number of user entries of a directory. -/
def userTables : Nat := 768

/-- The entries of a table. -/
def tableEntries : Nat := 1024

/-! ## 2. Mapping -/

/-- `get_pte`: the table that holds the entry of `va`, made if asked for, and the index in it. -/
def getPte (pd va : Nat) (create : Bool) (s : Vm) : Option (Nat × Nat) × Vm :=
  let pde := entry s pd (pdIndex va)
  if present pde then (some (pteAddr pde, ptIndex va), s)
  else if create then
    let (pt, s) := s.allocZero
    if pt = 0 then (none, s)
    else
      (some (pt, ptIndex va),
        setEntry s pd (pdIndex va) (pt ||| PTE_PRESENT ||| PTE_WRITE ||| PTE_USER))
  else (none, s)

/-- The flags `map_page` puts into an entry. -/
def pteFlags (flags : Nat) : Nat :=
  PTE_PRESENT ||| (if flags &&& VM_WRITE ≠ 0 then PTE_WRITE else 0) |||
    (if flags &&& VM_USER ≠ 0 then PTE_USER else 0) |||
    (if flags &&& VM_NOCACHE ≠ 0 then PTE_PCD else 0)

def mapPage (pd va pa flags : Nat) (s : Vm) : Int × Vm :=
  match getPte pd va true s with
  | (none, s) => (-ENOMEM, s)
  | (some (t, i), s) => (0, setEntry s t i (pteAddr pa ||| pteFlags flags))

def unmapPage (pd va : Nat) (s : Vm) : Vm :=
  match getPte pd va false s with
  | (none, s) => s
  | (some (t, i), s) => if present (entry s t i) then setEntry s t i 0 else s

def virtToPhysPd (pd va : Nat) (s : Vm) : Nat :=
  match getPte pd va false s with
  | (none, _) => 0
  | (some (t, i), s) =>
    if present (entry s t i) then pteAddr (entry s t i) ||| (va % pageSize) else 0

/-- The loop of `map_pages` over the page numbers left. -/
def mapEach (pd va pa flags : Nat) : List Nat → Vm → Int × Vm
  | [], s => (0, s)
  | i :: is, s =>
    let (r, s) := mapPage pd (u32 (va + i * pageSize)) (u32 (pa + i * pageSize)) flags s
    if r ≠ 0 then (r, s) else mapEach pd va pa flags is s

def mapPages (pd va pa n flags : Nat) (s : Vm) : Int × Vm := mapEach pd va pa flags (List.range n) s

/-- The loop of `unmap_pages`. -/
def unmapEach (pd va : Nat) : List Nat → Vm → Vm
  | [], s => s
  | i :: is, s => unmapEach pd va is (unmapPage pd (u32 (va + i * pageSize)) s)

def unmapPages (pd va n : Nat) (s : Vm) : Vm := unmapEach pd va (List.range n) s

/-! ## 3. Directories -/

/-- Freeing the frames of a table's pages. -/
def destroyPages (t : Nat) : List Nat → Vm → Vm
  | [], s => s
  | i :: is, s =>
    destroyPages t is (if present (entry s t i) then s.free (pteAddr (entry s t i)) else s)

/-- Freeing the user tables of a directory with their pages. -/
def destroyTables (pd : Nat) : List Nat → Vm → Vm
  | [], s => s
  | di :: dis, s =>
    if present (entry s pd di) then
      let t := pteAddr (entry s pd di)
      destroyTables pd dis ((destroyPages t (List.range tableEntries) s).free t)
    else destroyTables pd dis s

/-- Copying the present pages of the table `spt`, entry by entry, into the table `dpt`. -/
def clonePages (spt dpt : Nat) : List Nat → Vm → Bool × Vm
  | [], s => (true, s)
  | i :: is, s =>
    if present (entry s spt i) then
      let (page, s) := s.alloc
      if page = 0 then (false, s)
      else
        let s := { s with mem := copy s.mem page (pteAddr (entry s spt i)) pageSize }
        clonePages spt dpt is (setEntry s dpt i (page ||| flagBits (entry s spt i)))
    else clonePages spt dpt is s

/-- Copying the present user tables of `src` into `dst`. A new table is entered in `dst` only when it is complete. -/
def cloneTables (src dst : Nat) : List Nat → Vm → Bool × Vm
  | [], s => (true, s)
  | di :: dis, s =>
    if present (entry s src di) then
      let (pt, s) := s.allocZero
      if pt = 0 then (false, s)
      else
        let r := clonePages (pteAddr (entry s src di)) pt (List.range tableEntries) s
        if r.1 then
          cloneTables src dst dis (setEntry r.2 dst di (pt ||| flagBits (entry r.2 src di)))
        else (false, r.2)
    else cloneTables src dst dis s

section Directories

variable (kernelPgdir : Nat)

/-- `pgdir_create`: the upper quarter is that of the kernel's directory. -/
def pgdirCreate (s : Vm) : Nat × Vm :=
  let (pd, s) := s.allocZero
  if pd = 0 then (0, s)
  else
    (pd, { s with mem := copy s.mem (pd + 4 * userTables) (kernelPgdir + 4 * userTables) (4 * 256) })

def pgdirDestroy (pd : Nat) (s : Vm) : Vm :=
  if pd = 0 ∨ pd = kernelPgdir then s
  else (destroyTables pd (List.range userTables) s).free pd

def pgdirClone (src : Nat) (s : Vm) : Nat × Vm :=
  let (dst, s) := pgdirCreate kernelPgdir s
  if dst = 0 then (0, s)
  else
    let r := cloneTables src dst (List.range userTables) s
    if r.1 then (dst, r.2) else (0, pgdirDestroy kernelPgdir dst r.2)

end Directories

end OreUnix.Vmm
