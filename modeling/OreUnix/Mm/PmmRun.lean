/-
  Subject: WHO OWNS A PHYSICAL PAGE, over every run of the page allocator.

  * `Counted` -- the counter is the number of set bits and page 0 is not free; every call keeps it, with any arguments
    (`counted_exec`);
  * `Owned` -- the page ranges handed out are pairwise disjoint, nonzero, below `PHYS_MEM_MAX` and free of reserved
    pages; every call keeps it as long as only pages that are handed out are freed (`owned_exec`).

  A page is reserved when it was in use at the start of the run or was marked used while nobody held it (the kernel
  image, the initrd).
-/
import OreUnix.Mm.Pmm
import OreUnix.Lib.Run

namespace OreUnix.Pmm

open Bitmap ByteMem

variable {as : List Nat} {phys : Nat} {s : Pages}

/-! ## 1. The counter -/

/-- `free_pages_count` is the number of set bits, and bit 0 is clear. -/
structure Counted (s : Pages) : Prop where
  count : s.freePagesCount = (freePages s).card
  zero : tst s.bitmap 0 = false

theorem card_freePages_le (s : Pages) : (freePages s).card ≤ bitmapBits := by
  have h := Finset.card_filter_le (Finset.range bitmapBits) fun i => tst s.bitmap i = true
  rwa [Finset.card_range] at h

/-- Taking set bits off the bitmap and their number off the counter. -/
theorem counted_take {is : List Nat} (hc : Counted s) (hnd : is.Nodup)
    (hs : ∀ i ∈ is, i ∈ freePages s) :
    Counted ⟨is.foldl clr s.bitmap, sub32 s.freePagesCount is.length⟩ := by
  obtain ⟨e1, _⟩ := bitmapBits_eq
  have hcard := card_ones_foldl_clr s.bitmap bitmapBits hnd hs
  have hle := card_freePages_le s
  have hcount := hc.count
  unfold freePages at hcount hle
  refine ⟨?_, ?_⟩
  · show sub32 s.freePagesCount is.length = (ones (is.foldl clr s.bitmap) bitmapBits).card
    rw [sub32_of_le] <;> omega
  · show tst (is.foldl clr s.bitmap) 0 = false
    rw [tst_foldl_clr, hc.zero, Bool.false_and]

theorem counted_pmmAlloc (hc : Counted s) : Counted (pmmAlloc s).2 := by
  rcases pmmAlloc_cases s with ⟨h, _⟩ | ⟨i, hi, h⟩
  · rw [h]; exact hc
  · rw [h]
    exact @counted_take s [i] hc (List.nodup_singleton i) (by simpa using hi)

theorem pmmAllocZero_fst (s : Pages) (m : Mem) :
    (pmmAllocZero s m).1 = (pmmAlloc s).1 ∧ (pmmAllocZero s m).2.1 = (pmmAlloc s).2 := by
  unfold pmmAllocZero
  simp only
  split <;> exact ⟨rfl, rfl⟩

theorem counted_pmmAllocContiguous (hc : Counted s) (n : Nat) : Counted (pmmAllocContiguous s n).2 := by
  rcases pmmAllocContiguous_cases s n with h | ⟨st, _, _, hs, h⟩
  · rw [h]; exact hc
  · rw [h]
    have ht := counted_take hc List.nodup_range' hs
    rwa [List.length_range'] at ht

/-- The page an address that `pmm_free` looks at stands for. -/
theorem page_lt (hlt : ¬ (phys = 0 ∨ phys ≥ physMemMax)) (ha : pageSize ∣ phys) :
    phys / pageSize < bitmapBits ∧ phys / pageSize ≠ 0 := by
  obtain ⟨e1, _, e3, e4⟩ := bitmapBits_eq
  rw [e3] at ha ⊢
  omega

theorem counted_pmmFree (hc : Counted s) (ha : pageSize ∣ phys) : Counted (pmmFree s phys) := by
  obtain ⟨e1, _⟩ := bitmapBits_eq
  unfold pmmFree
  split
  · exact hc
  · obtain ⟨hlt, hne⟩ := page_lt ‹_› ha
    simp only
    split
    · exact hc
    · rename_i hb
      have hno : phys / pageSize ∉ freePages s := fun h => hb (mem_freePages.mp h).2
      have hle := card_freePages_le s
      have hcard : (ones (set s.bitmap (phys / pageSize)) bitmapBits).card = (freePages s).card + 1 := by
        rw [ones_set _ _ _ hlt]
        exact Finset.card_insert_of_notMem hno
      refine ⟨?_, ?_⟩
      · show u32 (s.freePagesCount + 1) = (ones (set s.bitmap (phys / pageSize)) bitmapBits).card
        rw [hcard, hc.count, u32_of_lt (by omega)]
      · show tst (set s.bitmap (phys / pageSize)) 0 = false
        rw [tst_set, hc.zero, Bool.false_or, decide_eq_false hne.symm]

/-- The addresses of a contiguous release are page-aligned when the first one is. -/
theorem contiguousAddrs_aligned {n a : Nat} (hp : pageSize ∣ phys) (ha : a ∈ contiguousAddrs phys n) :
    pageSize ∣ a := by
  obtain ⟨_, _, e3, _⟩ := bitmapBits_eq
  obtain ⟨i, _, rfl⟩ := List.mem_map.mp ha
  unfold u32
  rw [e3] at hp ⊢
  omega

theorem counted_foldl_pmmFree (hc : Counted s) (ha : ∀ a ∈ as, pageSize ∣ a) : Counted (as.foldl pmmFree s) := by
  induction as generalizing s with
  | nil => exact hc
  | cons a as ih =>
    exact ih (counted_pmmFree hc (ha a (.head _)))
      fun b hb => ha b (.tail _ hb)

/-- As many pages as are taken from the bitmap are taken from the counter, which stays at 0. -/
theorem markPage_counts (s : Pages) (idx : Nat) : ∃ k ≤ (freePages s).card,
    (markPage s idx).freePagesCount = s.freePagesCount - k ∧
      (freePages (markPage s idx)).card = (freePages s).card - k := by
  unfold markPage
  split
  · rename_i h
    have hmem : idx ∈ freePages s := mem_freePages.mpr h
    refine ⟨1, Finset.card_pos.mpr ⟨idx, hmem⟩, ?_, ?_⟩
    · show (if s.freePagesCount ≠ 0 then s.freePagesCount - 1 else s.freePagesCount) = _
      split <;> omega
    · show (ones (clr s.bitmap idx) bitmapBits).card = _
      rw [ones_clr]
      exact Finset.card_erase_of_mem hmem
  · exact ⟨0, Nat.zero_le _, (Nat.sub_zero _).symm, (Nat.sub_zero _).symm⟩

theorem foldl_markPage_counts (s : Pages) (is : List Nat) : ∃ k ≤ (freePages s).card,
    (is.foldl markPage s).freePagesCount = s.freePagesCount - k ∧
      (freePages (is.foldl markPage s)).card = (freePages s).card - k := by
  induction is generalizing s with
  | nil => exact ⟨0, Nat.zero_le _, (Nat.sub_zero _).symm, (Nat.sub_zero _).symm⟩
  | cons i is ih =>
    obtain ⟨k, hk, hcount, hcard⟩ := markPage_counts s i
    obtain ⟨l, hl, hcount', hcard'⟩ := ih (markPage s i)
    rw [hcount] at hcount'
    rw [hcard] at hl hcard'
    exact ⟨k + l, by omega, by rw [List.foldl_cons, hcount']; omega, by rw [List.foldl_cons, hcard']; omega⟩

theorem counted_markPage (hc : Counted s) (idx : Nat) : Counted (markPage s idx) := by
  obtain ⟨k, _, hcount, hcard⟩ := markPage_counts s idx
  refine ⟨by rw [hcount, hcard, hc.count], ?_⟩
  unfold markPage
  split
  · show tst (clr s.bitmap idx) 0 = false
    rw [tst_clr, hc.zero, Bool.false_and]
  · exact hc.zero

theorem counted_foldl_markPage (hc : Counted s) (is : List Nat) : Counted (is.foldl markPage s) := by
  induction is generalizing s with
  | nil => exact hc
  | cons i is ih => exact ih (counted_markPage hc i)

/-! ## 2. Runs -/

/-- The allocator with the history that matters: the ranges handed out (each by its pages not yet freed) and the
    reserved pages. -/
structure State where
  pages : Pages
  mem : Mem
  held : List (List Nat)
  reserved : Nat → Bool

inductive Call where
  | alloc
  | allocZero
  | allocContiguous (n : Nat)
  | free (phys : Nat)
  | freeContiguous (phys n : Nat)
  | markUsed (start fin : Nat)

/-- The pages that a call which returned `p` for `n` pages handed out. -/
def grant (p n : Nat) (held : List (List Nat)) : List (List Nat) :=
  if p = 0 then held else List.range' (p / pageSize) n :: held

/-- One call of `pmm_free`; addresses it does not accept free nothing. -/
def freeOne (s : State) (phys : Nat) : State :=
  { s with
    pages := pmmFree s.pages phys
    held := if phys = 0 ∨ phys ≥ physMemMax then s.held
      else s.held.map fun r => r.filter (· ≠ phys / pageSize) }

def exec (s : State) : Call → State
  | .alloc =>
    let (p, pages) := pmmAlloc s.pages
    { s with pages := pages, held := grant p 1 s.held }
  | .allocZero =>
    let (p, pages, m) := pmmAllocZero s.pages s.mem
    { s with pages := pages, mem := m, held := grant p 1 s.held }
  | .allocContiguous n =>
    let (p, pages) := pmmAllocContiguous s.pages n
    { s with pages := pages, held := grant p n s.held }
  | .free phys => freeOne s phys
  | .freeContiguous phys n => (contiguousAddrs phys n).foldl freeOne s
  | .markUsed start fin =>
    { s with
      pages := pmmMarkUsed s.pages start fin
      reserved := fun i => s.reserved i || (decide (i ∈ markPages start fin) &&
        decide (i ∉ s.held.flatten)) }

/-- The addresses given to the release calls are page-aligned. -/
def PageAligned : Call → Prop
  | .free phys => pageSize ∣ phys
  | .freeContiguous phys _ => pageSize ∣ phys
  | _ => True

/-- The page freed is handed out and not yet freed (or the address frees nothing). -/
def FreeOk (s : State) (phys : Nat) : Prop :=
  phys = 0 ∨ phys ≥ physMemMax ∨ phys / pageSize ∈ s.held.flatten

def FreesOk : State → List Nat → Prop
  | _, [] => True
  | s, a :: as => FreeOk s a ∧ FreesOk (freeOne s a) as

/-- Every page the call frees is handed out and not yet freed. -/
def OnlyHeld (s : State) : Call → Prop
  | .free phys => FreeOk s phys
  | .freeContiguous phys n => FreesOk s (contiguousAddrs phys n)
  | _ => True

/-- A call with page-aligned addresses. -/
def Step (s : State) (c : Call) (s' : State) : Prop := PageAligned c ∧ s' = exec s c

/-- A call that moreover frees only pages handed out and not yet freed. -/
def OwnerStep (s : State) (c : Call) (s' : State) : Prop := OnlyHeld s c ∧ Step s c s'

/-- The start of a run: nothing is handed out, and the pages in use are reserved. -/
def start (pages : Pages) (m : Mem) : State := ⟨pages, m, [], fun i => !tst pages.bitmap i⟩

theorem foldl_freeOne_pages (s : State) (as : List Nat) : (as.foldl freeOne s).pages = as.foldl pmmFree s.pages := by
  induction as generalizing s with
  | nil => rfl
  | cons a as ih => exact ih (freeOne s a)

/-- **Every call keeps the counter right.** -/
theorem counted_exec {s : State} {c : Call} (hc : Counted s.pages) (ha : PageAligned c) :
    Counted (exec s c).pages := by
  cases c with
  | alloc => exact counted_pmmAlloc hc
  | allocZero =>
    show Counted (pmmAllocZero s.pages s.mem).2.1
    rw [(pmmAllocZero_fst s.pages s.mem).2]
    exact counted_pmmAlloc hc
  | allocContiguous n => exact counted_pmmAllocContiguous hc n
  | free phys => exact counted_pmmFree hc ha
  | freeContiguous phys n =>
    show Counted ((contiguousAddrs phys n).foldl freeOne s).pages
    rw [foldl_freeOne_pages]
    exact counted_foldl_pmmFree hc fun a h => contiguousAddrs_aligned ha h
  | markUsed st fin => exact counted_foldl_markPage hc _

/-! ## 3. Ownership -/

/-- Pages handed out are in use, each held once, and none of them is reserved; a reserved page is in use. -/
structure Owned (s : State) : Prop where
  counted : Counted s.pages
  nodup : s.held.flatten.Nodup
  held : ∀ i ∈ s.held.flatten,
    i < bitmapBits ∧ i ≠ 0 ∧ tst s.pages.bitmap i = false ∧ s.reserved i = false
  reserved : ∀ i, s.reserved i = true → i < bitmapBits → tst s.pages.bitmap i = false

theorem owned_start {pages : Pages} (m : Mem) (hc : Counted pages) : Owned (start pages m) :=
  ⟨hc, List.nodup_nil, fun _ h => absurd h List.not_mem_nil, fun i h _ => by
    simpa [start] using h⟩

/-- Handing out free pages. -/
theorem owned_take {s : State} {is : List Nat} {m : Mem} (ho : Owned s) (hnd : is.Nodup)
    (hs : ∀ i ∈ is, i ∈ freePages s.pages) :
    Owned { s with
      pages := ⟨is.foldl clr s.pages.bitmap, sub32 s.pages.freePagesCount is.length⟩
      mem := m
      held := is :: s.held } := by
  have hfree : ∀ i ∈ is, i < bitmapBits ∧ tst s.pages.bitmap i = true := fun i hi => mem_freePages.mp (hs i hi)
  have hclr : ∀ i, tst s.pages.bitmap i = false → tst (is.foldl clr s.pages.bitmap) i = false :=
    fun i h => by rw [tst_foldl_clr, h, Bool.false_and]
  refine ⟨counted_take ho.counted hnd hs, ?_, fun i hi => ?_, fun i hr hi => hclr i
    (ho.reserved i hr hi)⟩
  · rw [List.flatten_cons, List.nodup_append]
    refine ⟨hnd, ho.nodup, fun i hi j hj e => ?_⟩
    -- a page that was free was held by nobody
    have h1 := (hfree i hi).2
    rw [e, (ho.held j hj).2.2.1] at h1
    cases h1
  · rw [List.flatten_cons, List.mem_append] at hi
    rcases hi with hi | hi
    · obtain ⟨hlt, hb⟩ := hfree i hi
      refine ⟨hlt, fun e => ?_, ?_, ?_⟩
      · rw [e, ho.counted.zero] at hb
        cases hb
      · rw [tst_foldl_clr, decide_eq_false (not_not.mpr hi), Bool.and_false]
      · cases hr : s.reserved i with
        | false => rfl
        | true =>
          rw [ho.reserved i hr hlt] at hb
          cases hb
    · obtain ⟨h1, h2, h3, h4⟩ := ho.held i hi
      exact ⟨h1, h2, hclr i h3, h4⟩

theorem owned_alloc {s : State} (m : Mem) (ho : Owned s) :
    Owned { s with pages := (pmmAlloc s.pages).2, mem := m,
                   held := grant (pmmAlloc s.pages).1 1 s.held } := by
  obtain ⟨_, _, e3, _⟩ := bitmapBits_eq
  rcases pmmAlloc_cases s.pages with ⟨h, _⟩ | ⟨i, hi, h⟩
  · rw [h]
    exact ⟨ho.counted, ho.nodup, ho.held, ho.reserved⟩
  · have h0 : i ≠ 0 := fun e => by
      have := (mem_freePages.mp hi).2
      rw [e, ho.counted.zero] at this
      cases this
    rw [h, grant, if_neg (by show i * pageSize ≠ 0; rw [e3]; omega),
      show i * pageSize / pageSize = i from Nat.mul_div_cancel i (by decide)]
    exact owned_take ho (List.nodup_singleton i) (by simpa using hi)

theorem owned_allocContiguous {s : State} (n : Nat) (ho : Owned s) : Owned (exec s (.allocContiguous n)) := by
  obtain ⟨_, _, e3, _⟩ := bitmapBits_eq
  rcases pmmAllocContiguous_cases s.pages n with h | ⟨st, h1, _, hs, h⟩
  · simp only [exec, h]
    exact ho
  · simp only [exec, h]
    rw [grant, if_neg (by show st * pageSize ≠ 0; rw [e3]; omega),
      show st * pageSize / pageSize = st from Nat.mul_div_cancel st (by decide)]
    have ht := @owned_take s _ s.mem ho List.nodup_range' hs
    rwa [List.length_range'] at ht

theorem flatten_map_filter (held : List (List Nat)) (k : Nat) :
    (held.map fun r => r.filter (· ≠ k)).flatten = held.flatten.filter (· ≠ k) :=
  List.filter_flatten.symm

theorem owned_freeOne {s : State} (ho : Owned s) (ha : pageSize ∣ phys) (hf : FreeOk s phys) :
    Owned (freeOne s phys) := by
  have hcnt := counted_pmmFree ho.counted ha
  by_cases hp : phys = 0 ∨ phys ≥ physMemMax
  · simp only [freeOne, pmmFree, if_pos hp]
    exact ho
  · have hm : phys / pageSize ∈ s.held.flatten := by
      rcases hf with h | h | h
      · exact absurd (.inl h) hp
      · exact absurd (.inr h) hp
      · exact h
    have hfl := flatten_map_filter s.held (phys / pageSize)
    obtain ⟨_, _, hb, hres⟩ := ho.held _ hm
    simp only [pmmFree, if_neg hp, hb, Bool.false_eq_true, ↓reduceIte] at hcnt
    simp only [freeOne, pmmFree, if_neg hp, hb, Bool.false_eq_true, ↓reduceIte]
    refine ⟨hcnt, ?_, fun i hi => ?_, fun i hr hi => ?_⟩
    · rw [hfl]
      exact ho.nodup.filter _
    · rw [hfl, List.mem_filter] at hi
      have hne : i ≠ phys / pageSize := of_decide_eq_true hi.2
      obtain ⟨h1, h2, h3, h4⟩ := ho.held i hi.1
      exact ⟨h1, h2, by rw [tst_set, h3, Bool.false_or, decide_eq_false hne], h4⟩
    · -- the page freed was held, so it is not a reserved one
      have hne : i ≠ phys / pageSize := fun e => by
        rw [e, hres] at hr
        cases hr
      show tst (set s.pages.bitmap (phys / pageSize)) i = false
      rw [tst_set, ho.reserved i hr hi, Bool.false_or, decide_eq_false hne]

theorem owned_foldl_freeOne {s : State} (ho : Owned s) (ha : ∀ a ∈ as, pageSize ∣ a) (hf : FreesOk s as) :
    Owned (as.foldl freeOne s) := by
  induction as generalizing s with
  | nil => exact ho
  | cons a as ih =>
    exact ih (owned_freeOne ho (ha a (.head _)) hf.1)
      (fun b hb => ha b (.tail _ hb)) hf.2

theorem tst_foldl_markPage (s : Pages) (is : List Nat) {j : Nat} (hj : j < bitmapBits) :
    tst (is.foldl markPage s).bitmap j = (tst s.bitmap j && decide (j ∉ is)) := by
  induction is generalizing s with
  | nil => simp
  | cons i is ih =>
    rw [List.foldl_cons, ih]
    have hi : tst (markPage s i).bitmap j = (tst s.bitmap j && decide (j ≠ i)) := by
      unfold markPage
      split
      · exact tst_clr _ _ _
      · rename_i h
        by_cases e : j = i
        · subst e
          cases hb : tst s.bitmap j with
          | false => rfl
          | true => exact absurd ⟨hj, hb⟩ h
        · simp [e]
    rw [hi]
    by_cases h1 : j = i <;> by_cases h2 : j ∈ is <;> simp [h1, h2]

theorem owned_markUsed {s : State} (st fin : Nat) (ho : Owned s) : Owned (exec s (.markUsed st fin)) := by
  refine ⟨counted_foldl_markPage ho.counted _, ho.nodup, fun i hi => ?_, fun i hr hi => ?_⟩
  · have hi' : i ∈ s.held.flatten := hi
    obtain ⟨h1, h2, h3, h4⟩ := ho.held i hi'
    refine ⟨h1, h2, ?_, ?_⟩
    · exact (tst_foldl_markPage s.pages _ h1).trans (by rw [h3, Bool.false_and])
    · show (s.reserved i || _) = false
      rw [h4, decide_eq_false (not_not.mpr hi'), Bool.and_false, Bool.or_false]
  · refine (tst_foldl_markPage s.pages _ hi).trans ?_
    simp only [exec, Bool.or_eq_true, Bool.and_eq_true, decide_eq_true_eq] at hr
    rcases hr with hr | ⟨hm, _⟩
    · rw [ho.reserved i hr hi, Bool.false_and]
    · rw [decide_eq_false (not_not.mpr hm), Bool.and_false]

/-- **Every call that frees only pages handed out keeps the ownership.** -/
theorem owned_exec {s : State} {c : Call} (ho : Owned s) (ha : PageAligned c) (hh : OnlyHeld s c) :
    Owned (exec s c) := by
  cases c with
  | alloc => exact owned_alloc s.mem ho
  | allocZero =>
    have hz := pmmAllocZero_fst s.pages s.mem
    have := owned_alloc (pmmAllocZero s.pages s.mem).2.2 ho
    rw [← hz.1, ← hz.2] at this
    exact this
  | allocContiguous n => exact owned_allocContiguous n ho
  | free phys => exact owned_freeOne ho ha hh
  | freeContiguous phys n =>
    exact owned_foldl_freeOne ho (fun a h => contiguousAddrs_aligned ha h) hh
  | markUsed st fin => exact owned_markUsed st fin ho

/-- **Physical pages over every run** from a state with the right counter and page 0 in use: the counter stays right;
    and as long as only pages handed out and not yet freed are freed, the ranges handed out are pairwise disjoint,
    nonzero, below `PHYS_MEM_MAX` and hold no reserved page. -/
theorem pmm_page_ownership (pages : Pages) (m : Mem)
    (hc : pages.freePagesCount = (freePages pages).card) (h0 : tst pages.bitmap 0 = false)
    (calls : List Call) (s : State) (hr : Lts.Run Step (start pages m) calls s) :
    s.pages.freePagesCount = (freePages s.pages).card ∧ tst s.pages.bitmap 0 = false ∧
      (Lts.Run OwnerStep (start pages m) calls s →
        s.held.Pairwise List.Disjoint ∧ ∀ r ∈ s.held, ∀ i ∈ r,
          i * pageSize ≠ 0 ∧ i * pageSize < physMemMax ∧ s.reserved i = false) := by
  have hcs : Counted s.pages := hr.invariant (I := fun s => Counted s.pages)
    (fun s c s' h hs => by rw [hs.2]; exact counted_exec h hs.1) ⟨hc, h0⟩
  refine ⟨hcs.count, hcs.zero, fun ho => ?_⟩
  have hos : Owned s := ho.invariant
    (fun s c s' h hs => by rw [hs.2.2]; exact owned_exec h hs.2.1 hs.1) (owned_start m ⟨hc, h0⟩)
  obtain ⟨e1, _, e3, e4⟩ := bitmapBits_eq
  refine ⟨(List.nodup_flatten.mp hos.nodup).2, fun r hr i hi => ?_⟩
  obtain ⟨h1, h2, _, h4⟩ := hos.held i (List.mem_flatten.mpr ⟨r, hr, hi⟩)
  rw [e3, e4]
  exact ⟨by omega, by omega, h4⟩

/-- Two pages free, both taken, the first given back. -/
theorem pmm_page_ownership_two_pages :
    ∃ s, Lts.Run OwnerStep (start ⟨set (set (fun _ => 0) 5) 6, 2⟩ fun _ => 0)
        [.alloc, .allocContiguous 1, .free 20480, .markUsed 0 16384] s ∧
      s.held = [[6], []] ∧ s.pages.freePagesCount = (freePages s.pages).card ∧
      s.held.Pairwise List.Disjoint := by
  have hc : (2 : Nat) = (freePages ⟨set (set (fun _ => 0) 5) 6, 2⟩).card := by
    unfold freePages
    rw [ones_set _ _ _ (by decide), ones_set _ _ _ (by decide),
      show ones (fun _ => 0) bitmapBits = ∅ by
        ext j
        simp [mem_ones, tst]]
    rfl
  have hr : Lts.Run OwnerStep (start ⟨set (set (fun _ => 0) 5) 6, 2⟩ fun _ => 0)
      [.alloc, .allocContiguous 1, .free 20480, .markUsed 0 16384] _ :=
    .cons ⟨trivial, trivial, rfl⟩ <| .cons ⟨trivial, trivial, rfl⟩ <|
      .cons ⟨.inr (.inr (by decide)), show 4096 ∣ 20480 by decide, rfl⟩ <|
        .cons ⟨trivial, trivial, rfl⟩ (.nil _)
  obtain ⟨h1, _, h2⟩ := pmm_page_ownership _ _ hc (by decide) _ _ (hr.mono fun _ _ _ h => h.2)
  exact ⟨_, hr, by decide, h1, (h2 hr).1⟩

end OreUnix.Pmm
