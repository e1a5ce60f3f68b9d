/-
  Subject: THE PHYSICAL PAGE ALLOCATOR of mm/pmm.c: the bitmap of free pages, its counter, and the six operations on
  them.

  A set bit is a free page. Each operation gets one lemma that says all it can do (`pmmAlloc_cases`,
  `pmmAllocContiguous_cases`, ...), in terms of the set of free pages `ones bitmap bitmapBits`; the counter is
  compared with that set's size in PmmRun.lean.
-/
import OreUnix.Kernel.Base
import OreUnix.Lib.Bitmap
import OreUnix.Lib.ByteMem

namespace OreUnix.Pmm

open Bitmap ByteMem

variable {b : Bits} {i k w : Nat}

def bitmapBits : Nat := physMemMax / pageSize
def bitmapWords : Nat := bitmapBits / 32

/-- `bitmap` and `free_pages_count`. -/
structure Pages where
  bitmap : Bits
  freePagesCount : Nat

/-! ## 1. The operations -/

/-- The word scan of `pmm_alloc`: `k` words are left, the next one is `w`. -/
def allocScan (b : Bits) : Nat → Nat → Option Nat
  | 0, _ => none
  | k + 1, w => if b w ≠ 0 then some (w * 32 + ctz (b w)) else allocScan b k (w + 1)

/-- `pmm_alloc`: the address of the page taken, 0 when there is none. -/
def pmmAlloc (s : Pages) : Nat × Pages :=
  match allocScan s.bitmap bitmapWords 0 with
  | some i => (i * pageSize, ⟨clr s.bitmap i, sub32 s.freePagesCount 1⟩)
  | none => (0, s)

/-- `pmm_alloc_zero`; memory is addressed physically. -/
def pmmAllocZero (s : Pages) (m : Mem) : Nat × Pages × Mem :=
  let (p, s) := pmmAlloc s
  if p ≠ 0 then (p, s, fill m p 0 pageSize) else (p, s, m)

def pmmFree (s : Pages) (phys : Nat) : Pages :=
  if phys = 0 ∨ phys ≥ physMemMax then s
  else
    let idx := phys / pageSize
    if tst s.bitmap idx then s else ⟨set s.bitmap idx, u32 (s.freePagesCount + 1)⟩

/-- The bit scan of `pmm_alloc_contiguous`: `k` bits are left, the next one is `i`; the last `found` bits were set,
    the first of them at `start`. -/
def contiguousScan (b : Bits) (n : Nat) : Nat → Nat → Nat → Nat → Option Nat
  | 0, _, _, _ => none
  | k + 1, i, found, start =>
    if tst b i then
      let start := if found = 0 then i else start
      if found + 1 = n then some start else contiguousScan b n k (i + 1) (found + 1) start
    else contiguousScan b n k (i + 1) 0 start

/-- `pmm_alloc_contiguous`: the address of the first of `n` pages, 0 when there is no such run. -/
def pmmAllocContiguous (s : Pages) (n : Nat) : Nat × Pages :=
  if n = 0 then (0, s)
  else match contiguousScan s.bitmap n (bitmapBits - 1) 1 0 0 with
    | some start =>
      (start * pageSize, ⟨(List.range' start n).foldl clr s.bitmap, sub32 s.freePagesCount n⟩)
    | none => (0, s)

/-- The addresses `pmm_free_contiguous` passes to `pmm_free`, with 32-bit arithmetic. -/
def contiguousAddrs (phys n : Nat) : List Nat :=
  (List.range n).map fun i => u32 (phys + u32 (i * pageSize))

def pmmFreeContiguous (s : Pages) (phys n : Nat) : Pages := (contiguousAddrs phys n).foldl pmmFree s

/-- One round of the loop of `pmm_mark_used`. -/
def markPage (s : Pages) (idx : Nat) : Pages :=
  if idx < bitmapBits ∧ tst s.bitmap idx then
    ⟨clr s.bitmap idx, if s.freePagesCount ≠ 0 then s.freePagesCount - 1 else s.freePagesCount⟩
  else s

/-- The pages `pmm_mark_used` goes through: its loop variable runs from the aligned start to the aligned end in steps
    of a page. -/
def markPages (start fin : Nat) : List Nat :=
  List.range' (alignDown start pageSize / pageSize)
    ((alignUp fin pageSize - alignDown start pageSize) / pageSize)

def pmmMarkUsed (s : Pages) (start fin : Nat) : Pages := (markPages start fin).foldl markPage s

/-! ## 2. What the scans find -/

theorem bitmapBits_eq : bitmapBits = 262144 ∧ bitmapWords = 8192 ∧ pageSize = 4096 ∧
    physMemMax = 1073741824 := by decide

/-- The free pages. -/
def freePages (s : Pages) : Finset Nat := ones s.bitmap bitmapBits

theorem mem_freePages {s : Pages} : i ∈ freePages s ↔ i < bitmapBits ∧ tst s.bitmap i = true := mem_ones _ _ _

theorem allocScan_some (h : allocScan b k w = some i) : i < (w + k) * 32 ∧ tst b i = true := by
  induction k generalizing w with
  | zero => cases h
  | succ k ih =>
    rw [allocScan] at h
    split at h
    · rename_i hw
      cases h
      obtain ⟨hlt, hbit⟩ := ctz_spec hw
      refine ⟨by omega, ?_⟩
      rw [tst, show (w * 32 + ctz (b w)) / 32 = w by omega, show (w * 32 + ctz (b w)) % 32 = ctz (b w) by omega]
      exact hbit
    · obtain ⟨h1, h2⟩ := ih h
      exact ⟨by omega, h2⟩

theorem allocScan_none (h : allocScan b k w = none) (hw : w * 32 ≤ i) (hi : i < (w + k) * 32) : tst b i = false := by
  induction k generalizing w with
  | zero => omega
  | succ k ih =>
    rw [allocScan] at h
    split at h
    · cases h
    · rename_i h0
      by_cases hlt : i < (w + 1) * 32
      · rw [tst, show i / 32 = w by omega, not_not.mp h0]
        simp
      · exact ih h (by omega) (by omega)

/-- **`pmm_alloc`** takes a free page, or there is none. -/
theorem pmmAlloc_cases (s : Pages) : (pmmAlloc s = (0, s) ∧ freePages s = ∅) ∨ ∃ i ∈ freePages s,
        pmmAlloc s = (i * pageSize, ⟨clr s.bitmap i, sub32 s.freePagesCount 1⟩) := by
  obtain ⟨e1, e2, _⟩ := bitmapBits_eq
  unfold pmmAlloc
  split
  · rename_i i h
    obtain ⟨hlt, hbit⟩ := allocScan_some h
    exact .inr ⟨i, mem_freePages.mpr ⟨by omega, hbit⟩, rfl⟩
  · rename_i h
    refine .inl ⟨rfl, Finset.eq_empty_iff_forall_notMem.mpr fun i hi => ?_⟩
    obtain ⟨hlt, hbit⟩ := mem_freePages.mp hi
    rw [allocScan_none h (by omega) (by omega)] at hbit
    cases hbit

/-- The bit scan returns the start of `n` set bits. The invariant of the loop: the last `found` bits before `i` are
    set, and `start` is the first of them. -/
theorem contiguousScan_some {n found start st : Nat} (h : contiguousScan b n k i found start = some st)
    (hf : found < i) (hset : ∀ j, i - found ≤ j → j < i → tst b j = true) (hst : found ≠ 0 → start = i - found) :
    1 ≤ st ∧ st + n ≤ i + k ∧ ∀ j, st ≤ j → j < st + n → tst b j = true := by
  induction k generalizing i found start with
  | zero => cases h
  | succ k ih =>
    rw [contiguousScan] at h
    split at h
    · rename_i hi
      have hset' : ∀ j, i + 1 - (found + 1) ≤ j → j < i + 1 → tst b j = true := fun j h1 h2 => by
        by_cases hj : j = i
        · rw [hj]; exact hi
        · exact hset j (by omega) (by omega)
      have hstart : (if found = 0 then i else start) = i - found := by
        split
        · omega
        · exact hst ‹_›
      simp only [hstart] at h
      split at h
      · cases h
        exact ⟨by omega, by omega, fun j h1 h2 => hset' j (by omega) (by omega)⟩
      · obtain ⟨h1, h2, h3⟩ := ih h (by omega) hset' (by omega)
        exact ⟨h1, by omega, h3⟩
    · obtain ⟨h1, h2, h3⟩ := ih h (by omega) (fun j _ _ => by omega) (fun h => absurd rfl h)
      exact ⟨h1, by omega, h3⟩

theorem freePages_foldl_clr (s : Pages) (c : Nat) (is : List Nat) (f : Nat) :
    f ∈ freePages ⟨is.foldl Bitmap.clr s.bitmap, c⟩ ↔ f ∈ freePages s ∧ f ∉ is := by
  induction is generalizing s with
  | nil => simp [freePages]
  | cons i is ih =>
    have hone : f ∈ freePages ⟨Bitmap.clr s.bitmap i, c⟩ ↔ f ≠ i ∧ f ∈ freePages s := by
      rw [freePages, Bitmap.ones_clr, Finset.mem_erase, freePages]
    refine (ih ⟨Bitmap.clr s.bitmap i, c⟩).trans ?_
    rw [hone, List.mem_cons, not_or, and_right_comm, and_comm]

/-- **`pmm_alloc_contiguous`** takes `n` free pages in a row, or changes nothing. -/
theorem pmmAllocContiguous_cases (s : Pages) (n : Nat) : pmmAllocContiguous s n = (0, s) ∨
      ∃ st, 1 ≤ st ∧ 0 < n ∧ (∀ i ∈ List.range' st n, i ∈ freePages s) ∧ pmmAllocContiguous s n = (st * pageSize,
          ⟨(List.range' st n).foldl clr s.bitmap, sub32 s.freePagesCount n⟩) := by
  obtain ⟨e1, _⟩ := bitmapBits_eq
  unfold pmmAllocContiguous
  split
  · exact .inl rfl
  · split
    · rename_i st h
      obtain ⟨h1, h2, h3⟩ := contiguousScan_some h (by decide) (fun j _ _ => by omega)
        (fun h => absurd rfl h)
      refine .inr ⟨st, h1, by omega, fun i hi => ?_, rfl⟩
      rw [List.mem_range'_1] at hi
      exact mem_freePages.mpr ⟨by omega, h3 i hi.1 hi.2⟩
    · exact .inl rfl

end OreUnix.Pmm
