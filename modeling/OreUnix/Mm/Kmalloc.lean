/-
  Subject: THE KERNEL HEAP of mm/kmalloc.c: `heap_sbrk`, `kmalloc_init`, `split_block`, `kmalloc`, `kfree`, `kcalloc`,
  `krealloc`.

  The heap lives in byte memory: a block header is four words (magic, payload size, next, prev) in front of its
  payload, and `NULL` is the address 0. The two list walks of `kmalloc` and its call of itself after the heap has
  grown carry a fuel argument; `none` is a call that has not come back within it.
-/
import OreUnix.Kernel.Base
import OreUnix.Lib.ByteMem

namespace OreUnix.Kmalloc

open ByteMem

def magicFree : Nat := 0xFEEDFACE
def magicUsed : Nat := 0xDEADBEEF
def minAlloc : Nat := 16
/-- `sizeof(struct block_hdr)`. -/
def hdrSize : Nat := 16

/-- The allocator's memory and its three static variables. -/
structure Heap where
  mem : Mem
  heapStart : Nat
  heapCur : Nat
  heapEnd : Nat

namespace Heap

variable (h : Heap) (b v : Nat)

/-! ## 1. `struct block_hdr` -/

def magic : Nat := word h.mem b
def size : Nat := word h.mem (b + 4)
def next : Nat := word h.mem (b + 8)
def prev : Nat := word h.mem (b + 12)

def setMagic : Heap := { h with mem := storeWord h.mem b v }
def setSize : Heap := { h with mem := storeWord h.mem (b + 4) v }
def setNext : Heap := { h with mem := storeWord h.mem (b + 8) v }
def setPrev : Heap := { h with mem := storeWord h.mem (b + 12) v }

/-- `if (b) b->prev = v`. -/
def setPrevOf : Heap := if b = 0 then h else h.setPrev b v

end Heap

/-! ## 2. Growing the heap -/

/-- `heap_sbrk`: the old break, or 0 when the heap window is exhausted. -/
def heapSbrk (h : Heap) (bytes : Nat) : Nat × Heap :=
  let bytes := alignUp bytes pageSize
  if u32 (h.heapCur + bytes) > h.heapEnd then (0, h)
  else (h.heapCur, { h with heapCur := u32 (h.heapCur + bytes) })

/-- `kmalloc_init` over the memory found at boot. -/
def kmallocInit (m : Mem) : Heap :=
  let h : Heap := ⟨m, 0, kernelHeapStart, kernelHeapStart + kernelHeapSize⟩
  let (mem, h) := heapSbrk h (pageSize * 4)
  let h := { h with heapStart := mem }
  let h := h.setMagic mem magicFree
  let h := h.setSize mem (pageSize * 4 - hdrSize)
  let h := h.setNext mem 0
  h.setPrev mem 0

/-! ## 3. Allocation -/

/-- `split_block`: cut `b` after `need` payload bytes if the rest can stand as a block. -/
def splitBlock (h : Heap) (b need : Nat) : Heap :=
  if h.size b < u32 (need + hdrSize + minAlloc) then h
  else
    let nb := u32 (b + hdrSize + need)
    let h := h.setMagic nb magicFree
    let h := h.setSize nb (sub32 (sub32 (h.size b) need) hdrSize)
    let h := h.setNext nb (h.next b)
    let h := h.setPrev nb b
    let h := h.setPrevOf (h.next b) nb
    let h := h.setNext b nb
    h.setSize b need

/-- The search loop of `kmalloc`: the first free block of at least `size` bytes, 0 at the end of the list. -/
def firstFit (h : Heap) (size : Nat) : Nat → Nat → Option Nat
  | 0, _ => none
  | fuel + 1, b =>
    if b = 0 then some 0
    else if h.magic b = magicFree ∧ h.size b ≥ size then some b
    else firstFit h size fuel (h.next b)

/-- The loop `while (last->next) last = last->next`. -/
def lastBlock (h : Heap) : Nat → Nat → Option Nat
  | 0, _ => none
  | fuel + 1, last => if h.next last = 0 then some last else lastBlock h fuel (h.next last)

/-- The branch of `kmalloc` that found block `b`. -/
def takeBlock (h : Heap) (b size : Nat) : Nat × Heap :=
  (u32 (b + hdrSize), (splitBlock h b size).setMagic b magicUsed)

/-- The branch of `kmalloc` that grew the heap: the new memory as a free block at the end of the list. -/
def appendBlock (fuel : Nat) (h : Heap) (nb ext : Nat) : Option Heap :=
  let h := h.setMagic nb magicFree
  let h := h.setSize nb (sub32 ext hdrSize)
  let h := h.setNext nb 0
  match lastBlock h fuel h.heapStart with
  | none => none
  | some last => some ((h.setNext last nb).setPrev nb last)

/-- `kmalloc`: the payload address, or 0. -/
def kmalloc : Nat → Heap → Nat → Option (Nat × Heap)
  | 0, _, _ => none
  | fuel + 1, h, size =>
    if size = 0 then some (0, h)
    else
      let size := alignUp size 8
      match firstFit h size fuel h.heapStart with
      | none => none
      | some b =>
        if b ≠ 0 then some (takeBlock h b size)
        else
          let ext := alignUp (u32 (size + hdrSize)) (pageSize * 4)
          match heapSbrk h ext with
          | (0, h) => some (0, h)
          | (mem, h) =>
            match appendBlock fuel h mem ext with
            | none => none
            | some h => kmalloc fuel h size

/-! ## 4. Release and the derived calls -/

/-- `kfree`, "coalesce with next". -/
def coalesceNext (h : Heap) (b : Nat) : Heap :=
  if h.next b ≠ 0 ∧ h.magic (h.next b) = magicFree then
    let h := h.setSize b (u32 (h.size b + (hdrSize + h.size (h.next b))))
    let n := h.next (h.next b)
    let h := h.setPrevOf n b
    h.setNext b n
  else h

/-- `kfree`, "coalesce with prev". -/
def coalescePrev (h : Heap) (b : Nat) : Heap :=
  if h.prev b ≠ 0 ∧ h.magic (h.prev b) = magicFree then
    let h := h.setSize (h.prev b) (u32 (h.size (h.prev b) + (hdrSize + h.size b)))
    let n := h.next b
    let h := h.setPrevOf n (h.prev b)
    h.setNext (h.prev b) n
  else h

/-- `kfree`: mark the block free and merge it with a free successor and a free predecessor. A pointer whose header
    does not say USED is only reported. -/
def kfree (h : Heap) (ptr : Nat) : Heap :=
  if ptr = 0 then h
  else
    let b := sub32 ptr hdrSize
    if h.magic b ≠ magicUsed then h
    else coalescePrev (coalesceNext (h.setMagic b magicFree) b) b

/-- `kcalloc`: `kmalloc` of the 32-bit product, zeroed. -/
def kcalloc (fuel : Nat) (h : Heap) (nmemb size : Nat) : Option (Nat × Heap) :=
  let total := u32 (nmemb * size)
  match kmalloc fuel h total with
  | none => none
  | some (p, h) => if p ≠ 0 then some (p, { h with mem := fill h.mem p 0 total }) else some (p, h)

/-- `krealloc`: keep the block when it is large enough, else move its payload. -/
def krealloc (fuel : Nat) (h : Heap) (ptr size : Nat) : Option (Nat × Heap) :=
  if ptr = 0 then kmalloc fuel h size
  else if size = 0 then some (0, kfree h ptr)
  else
    let b := sub32 ptr hdrSize
    if h.size b ≥ size then some (ptr, h)
    else
      match kmalloc fuel h size with
      | none => none
      | some (np, h) =>
        if np ≠ 0 then some (np, kfree { h with mem := copy h.mem np ptr (h.size b) } ptr)
        else some (np, h)

end OreUnix.Kmalloc
