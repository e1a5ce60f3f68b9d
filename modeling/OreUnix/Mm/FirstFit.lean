/-
  Subject: WHICH FRAMES ARE TAKEN: the scans of mm/pmm.c find the first fit.

  * `lowest_pmmAlloc` -- `pmm_alloc` takes the lowest free page;
  * `contiguousScan_first`, `pmmAllocContiguous_first`, `contiguous_first_fit` -- `pmm_alloc_contiguous` takes the
    first run that is long enough, and fails only if there is none;
  * `mmClone_left` -- the pages left by a copy of an address space are those above the ones it needs.
-/
import OreUnix.Mm.Isolation
import OreUnix.Mm.PmmRun
import OreUnix.Lib.FirstFit

/-! ## 1. Words -/

namespace Bitmap

theorem ctz_least {w : BitVec 32} {j : Nat} (hj : j < ctz w) : w.getLsbD j = false := by
  by_cases h32 : j < 32
  · unfold ctz at hj
    cases hf : (List.range 32).find? fun i => w.getLsbD i with
    | none =>
      rw [List.find?_eq_none] at hf
      exact Bool.eq_false_iff.mpr (hf j (List.mem_range.mpr h32))
    | some i =>
      rw [hf] at hj
      rw [List.find?_range_eq_some] at hf
      have hbit := hf.2.2 j hj
      exact Bool.not_eq_true' _ |>.mp hbit
  · exact BitVec.getLsbD_of_ge _ _ (by omega)

end Bitmap

namespace OreUnix.Pmm

open Bitmap FirstFit

/-! ## 2. The scans -/

theorem allocScan_least {b : Bits} {k w i j : Nat} (h : allocScan b k w = some i) (hw : w * 32 ≤ j)
    (hj : j < i) : tst b j = false := by
  induction k generalizing w with
  | zero => cases h
  | succ k ih =>
    rw [allocScan] at h
    split at h
    · rename_i hne
      cases h
      have hlt := (ctz_spec hne).1
      rw [tst, show j / 32 = w by omega]
      exact ctz_least (by omega)
    · rename_i h0
      by_cases hlt : j < (w + 1) * 32
      · rw [tst, show j / 32 = w by omega, not_not.mp h0]
        simp
      · exact ih h (by omega)

theorem lowest_pmmAlloc (s : Pages) : TakesLowest (freePages s) (freePages (pmmAlloc s).2) := by
  unfold pmmAlloc
  split
  · rename_i i h
    change TakesLowest _ (ones (clr s.bitmap i) bitmapBits)
    rw [ones_clr]
    refine .erase fun g hg => ?_
    by_contra hlt
    have hbit := (mem_freePages.mp hg).2
    rw [allocScan_least h (by omega) (by omega)] at hbit
    cases hbit
  · exact .refl _

/-- `n` set bits from `st` on. -/
def SetRun (b : Bits) (n st : Nat) : Prop := ∀ j, st ≤ j → j < st + n → tst b j = true

/-- The bit scan finds the first run. The invariant of the loop: no run lies before `i`, and the `found` set bits
    before `i` begin after a bit that is not set, or at the beginning. -/
theorem contiguousScan_first {b : Bits} {n k i found start : Nat} (hn : found < n) (hf : found < i)
    (hst : found ≠ 0 → start = i - found)
    (hno : ∀ st, 1 ≤ st → st + n ≤ i → ¬ SetRun b n st)
    (hmax : i - found = 1 ∨ tst b (i - found - 1) = false) :
    (∀ st, contiguousScan b n k i found start = some st → ∀ st', 1 ≤ st' → SetRun b n st' → st ≤ st') ∧
      (contiguousScan b n k i found start = none → ∀ st', 1 ≤ st' → st' + n ≤ i + k → ¬ SetRun b n st') := by
  induction k generalizing i found start with
  | zero => exact ⟨nofun, fun _ st' h1 h2 => hno st' h1 h2⟩
  | succ k ih =>
    rw [contiguousScan]
    split
    · have hstart : (if found = 0 then i else start) = i - found := by
        split
        · omega
        · exact hst ‹_›
      simp only [hstart]
      split
      · refine ⟨fun st h st' h1 hrun => ?_, fun h => by cases h⟩
        cases h
        by_contra hlt
        exact hno st' h1 (by omega) hrun
      · have hno' : ∀ st, 1 ≤ st → st + n ≤ i + 1 → ¬ SetRun b n st := by
          intro st h1 h2 hrun
          rcases Nat.lt_or_ge i (st + n) with hlast | hearly
          · -- a run that ends with bit `i` would begin before the `found` bits
            rcases hmax with h | h
            · omega
            · rw [hrun (i - found - 1) (by omega) (by omega)] at h
              cases h
          · exact hno st h1 hearly hrun
        have hgoal := @ih (i + 1) (found + 1) (i - found) (by omega) (by omega) (by omega) hno'
          (by rw [show i + 1 - (found + 1) = i - found by omega]; exact hmax)
        rw [show i + 1 + k = i + (k + 1) by omega] at hgoal
        exact hgoal
    · rename_i hbit
      have hbit : tst b i = false := Bool.eq_false_iff.mpr hbit
      have hno' : ∀ st, 1 ≤ st → st + n ≤ i + 1 → ¬ SetRun b n st := by
        intro st h1 h2 hrun
        rcases Nat.lt_or_ge i (st + n) with hlast | hearly
        · rw [hrun i (by omega) hlast] at hbit
          cases hbit
        · exact hno st h1 hearly hrun
      have hgoal := @ih (i + 1) 0 start (by omega) (by omega) (fun h => absurd rfl h) hno' (.inr (by
        rw [show i + 1 - 0 - 1 = i by omega]
        exact hbit))
      rw [show i + 1 + k = i + (k + 1) by omega] at hgoal
      exact hgoal

/-- `n` free pages from `st` on; page 0 is never part of a run. -/
def FreeRun (F : Finset Nat) (n st : Nat) : Prop := 1 ≤ st ∧ ∀ j, st ≤ j → j < st + n → j ∈ F

theorem freeRun_iff {s : Pages} {n st : Nat} (hn : 0 < n) :
    FreeRun (freePages s) n st ↔ 1 ≤ st ∧ st + n ≤ bitmapBits ∧ SetRun s.bitmap n st := by
  constructor
  · rintro ⟨h1, h⟩
    have hlast := (mem_freePages.mp (h (st + n - 1) (by omega) (by omega))).1
    exact ⟨h1, by omega, fun j h2 h3 => (mem_freePages.mp (h j h2 h3)).2⟩
  · rintro ⟨h1, h2, h⟩
    exact ⟨h1, fun j h3 h4 => mem_freePages.mpr ⟨by omega, h j h3 h4⟩⟩

/-- **`pmm_alloc_contiguous`** fails if there is no run, and otherwise takes the first one. -/
theorem pmmAllocContiguous_first (s : Pages) {n : Nat} (hn : 0 < n) :
    (pmmAllocContiguous s n = (0, s) ∧ ∀ st, ¬ FreeRun (freePages s) n st) ∨
      ∃ st, FreeRun (freePages s) n st ∧ (∀ st', FreeRun (freePages s) n st' → st ≤ st') ∧
        pmmAllocContiguous s n = (st * pageSize,
          ⟨(List.range' st n).foldl clr s.bitmap, sub32 s.freePagesCount n⟩) := by
  obtain ⟨e1, _⟩ := bitmapBits_eq
  obtain ⟨hsome, hnone⟩ := @contiguousScan_first s.bitmap n (bitmapBits - 1) 1 0 0 hn (by omega)
    (fun h => absurd rfl h) (fun st h1 h2 => by omega) (.inl rfl)
  unfold pmmAllocContiguous
  rw [if_neg (by omega)]
  cases hscan : contiguousScan s.bitmap n (bitmapBits - 1) 1 0 0 with
  | none =>
    refine .inl ⟨rfl, fun st hrun => ?_⟩
    obtain ⟨h1, h2, h3⟩ := (freeRun_iff hn).mp hrun
    exact hnone hscan st h1 (by omega) h3
  | some st =>
    obtain ⟨h1, h2, h3⟩ := contiguousScan_some hscan (by decide) (fun j _ _ => by omega) (fun h => absurd rfl h)
    refine .inr ⟨st, (freeRun_iff hn).mpr ⟨h1, by omega, h3⟩, fun st' hrun => ?_, rfl⟩
    obtain ⟨h1', _, h3'⟩ := (freeRun_iff hn).mp hrun
    exact hsome st hscan st' h1' h3'

/-- A run taken off the bitmap has its length taken off a counter that was right. -/
theorem count_contiguous {s : Pages} {n st : Nat} (hrun : FreeRun (freePages s) n st)
    (hc : s.freePagesCount = (freePages s).card) : sub32 s.freePagesCount n + n = s.freePagesCount := by
  obtain ⟨e1, _⟩ := bitmapBits_eq
  have hs : ∀ i ∈ List.range' st n, i ∈ freePages s := fun i hi => by
    rw [List.mem_range'_1] at hi
    exact hrun.2 i hi.1 hi.2
  have hcard := card_ones_foldl_clr s.bitmap bitmapBits List.nodup_range' hs
  have hle := card_freePages_le s
  rw [List.length_range'] at hcard
  unfold freePages at hc hle
  rw [sub32_of_le] <;> omega

/-- **Contiguous allocation is first fit and complete**: it fails exactly if no `n` pages in a row are free, and then
    changes nothing; otherwise it takes the lowest such run off the bitmap and its length off the counter, and touches
    no other bit. -/
theorem contiguous_first_fit (s : Pages) (n : Nat) :
    ((pmmAllocContiguous s n).1 = 0 ↔ n = 0 ∨ ∀ st, ¬ FreeRun (freePages s) n st) ∧
      ((pmmAllocContiguous s n).1 = 0 → (pmmAllocContiguous s n).2 = s) ∧
      ((pmmAllocContiguous s n).1 ≠ 0 → ∃ st, (pmmAllocContiguous s n).1 = st * pageSize ∧
        FreeRun (freePages s) n st ∧ (∀ st', FreeRun (freePages s) n st' → st ≤ st') ∧
        (∀ j, tst (pmmAllocContiguous s n).2.bitmap j = (tst s.bitmap j && !decide (st ≤ j ∧ j < st + n))) ∧
        (pmmAllocContiguous s n).2.freePagesCount = sub32 s.freePagesCount n ∧
        (s.freePagesCount = (freePages s).card →
          (pmmAllocContiguous s n).2.freePagesCount + n = s.freePagesCount)) := by
  obtain ⟨_, _, e3, _⟩ := bitmapBits_eq
  rcases Nat.eq_zero_or_pos n with hn | hn
  · have h : pmmAllocContiguous s n = (0, s) := by rw [pmmAllocContiguous, if_pos hn]
    rw [h]
    exact ⟨⟨fun _ => .inl hn, fun _ => rfl⟩, fun _ => rfl, fun hne => absurd rfl hne⟩
  rcases pmmAllocContiguous_first s hn with ⟨h, hno⟩ | ⟨st, hrun, hleast, h⟩
  · rw [h]
    exact ⟨⟨fun _ => .inr hno, fun _ => rfl⟩, fun _ => rfl, fun hne => absurd rfl hne⟩
  · have hst : st * pageSize ≠ 0 := by
      have := hrun.1
      rw [e3]
      omega
    rw [h]
    refine ⟨⟨fun h0 => absurd h0 hst, fun hno => ?_⟩, fun h0 => absurd h0 hst, fun _ => ⟨st, rfl, hrun, hleast,
      fun j => ?_, rfl, count_contiguous hrun⟩⟩
    · rcases hno with h0 | hno
      · omega
      · exact absurd hrun (hno st)
    · rw [tst_foldl_clr]
      simp only [List.mem_range'_1, decide_not]

end OreUnix.Pmm

/-! ## 3. A copy of an address space -/

namespace OreUnix.Vmm

open Pmm FirstFit

variable {s s' : Vm} {src dst : MmStruct}

theorem lowest_alloc (s : Vm) : TakesLowest (freePages s.pages) (freePages s.alloc.2.pages) := lowest_pmmAlloc s.pages

theorem lowest_allocZero (s : Vm) : TakesLowest (freePages s.pages) (freePages s.allocZero.2.pages) := by
  have h : s.allocZero.2.pages = (pmmAlloc s.pages).2 := (pmmAllocZero_fst s.pages s.mem).2
  rw [h]
  exact lowest_pmmAlloc s.pages

theorem lowest_clonePages (t u : Nat) (is : List Nat) (s : Vm) :
    TakesLowest (freePages s.pages) (freePages (clonePages t u is s).2.pages) := by
  induction is generalizing s with
  | nil =>
    rw [clonePages]
    exact .refl _
  | cons i is ih =>
    rw [clonePages]
    dsimp only
    split
    · split
      · exact lowest_alloc s
      · generalize hs1 : setEntry _ u i _ = s1
        have hpages : s1.pages = s.alloc.2.pages := by rw [← hs1]; rfl
        have hrest := ih s1
        rw [hpages] at hrest
        exact (lowest_alloc s).trans hrest
    · exact ih s

theorem lowest_cloneTables (d d' : Nat) (dis : List Nat) (s : Vm) :
    TakesLowest (freePages s.pages) (freePages (cloneTables d d' dis s).2.pages) := by
  induction dis generalizing s with
  | nil =>
    rw [cloneTables]
    exact .refl _
  | cons di dis ih =>
    rw [cloneTables]
    dsimp only
    split
    · split
      · exact lowest_allocZero s
      · generalize hr : clonePages _ _ (List.range tableEntries) s.allocZero.2 = r
        have hcopied := lowest_clonePages (pteAddr (entry s.allocZero.2 d di)) s.allocZero.1
          (List.range tableEntries) s.allocZero.2
        rw [hr] at hcopied
        split
        · generalize hs2 : setEntry r.2 d' di _ = s2
          have hpages : s2.pages = r.2.pages := by rw [← hs2]; rfl
          have hrest := ih s2
          rw [hpages] at hrest
          exact ((lowest_allocZero s).trans hcopied).trans hrest
        · exact (lowest_allocZero s).trans hcopied
    · exact ih s

theorem lowest_pgdirClone {kernelPgdir d : Nat} (h : (pgdirClone kernelPgdir d s).1 ≠ 0) :
    TakesLowest (freePages s.pages) (freePages (pgdirClone kernelPgdir d s).2.pages) := by
  have hcreate : TakesLowest (freePages s.pages) (freePages (pgdirCreate kernelPgdir s).2.pages) := by
    rw [pgdirCreate]
    dsimp only
    split
    · exact lowest_allocZero s
    · exact lowest_allocZero s
  have htables := lowest_cloneTables d (pgdirCreate kernelPgdir s).1 (List.range userTables)
    (pgdirCreate kernelPgdir s).2
  unfold pgdirClone at h ⊢
  dsimp only at h ⊢
  generalize cloneTables d (pgdirCreate kernelPgdir s).1 (List.range userTables)
    (pgdirCreate kernelPgdir s).2 = r at h htables ⊢
  split at h
  · exact absurd rfl h
  · rename_i hd
    rw [if_neg hd]
    split at h
    · rename_i hok
      rw [if_pos hok]
      exact hcreate.trans htables
    · exact absurd rfl h

/-- **The pages left by a copy** are those above the ones it takes. -/
theorem mmClone_left {kernelPgdir : Nat} (hwf : WellFormed s src) (h0 : 0 ∉ freePages s.pages)
    (hclone : mmClone kernelPgdir src s = (some dst, s')) :
    freePages s'.pages = above (spaceCount s src.dir) (freePages s.pages) := by
  unfold mmClone at hclone
  dsimp only at hclone
  split at hclone
  · rw [slabAlloc_eq, hwf.aligned] at hclone
    have hspace : Space { s with slab := s.slabAlloc.2.slab } src.dir (spaceFrames s src.dir) :=
      hwf.space.congr fun _ _ => rfl
    have hcount := @pgdirClone_count _ _ _ kernelPgdir hspace hwf.apart fun hf => h0 (mem_free.mp hf)
    have hsame : spaceCount { s with slab := s.slabAlloc.2.slab } src.dir = spaceCount s src.dir := by
      rw [spaceCount, spaceCount]
      refine congrArg _ (tableCount_congr (fun _ => List.mem_range.mp) hwf.space fun _ _ => rfl)
    rw [hsame] at hcount
    have hlow := @lowest_pgdirClone { s with slab := s.slabAlloc.2.slab } kernelPgdir (src.dir * pageSize)
    generalize pgdirClone kernelPgdir (src.dir * pageSize) { s with slab := s.slabAlloc.2.slab } = r
      at hclone hcount hlow
    obtain ⟨p, s1⟩ := r
    dsimp only at hclone hcount hlow
    split at hclone
    · cases hclone
    · rename_i hp
      obtain ⟨hs', _⟩ := cloneVmas_spec (Nat.two_pow_pos 32) hclone
      rcases hcount with ⟨_, hn⟩ | ⟨hbad, _⟩
      · rw [hs']
        exact (hlow hp).eq_above hn
      · exact absurd hbad hp
  · cases hclone

end OreUnix.Vmm
