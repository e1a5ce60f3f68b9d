/-
  Subject: THE PAGE ALLOCATOR AT BOOT: `pmm_init` of mm/pmm.c, from the Multiboot2 memory map to the first allocation.

  * `mem_boot` -- the pages free after boot: those above the kernel that lie in an AVAILABLE entry, the entry's first
    and last page number taken modulo 2^20 (the bounds are 64-bit, the loop is 32-bit);
  * `frees_available_iff` -- so exactly the available memory is freed if and only if reducing the bounds makes no
    difference below `PHYS_MEM_MAX`;
  * `accounting_iff` -- both counters count a page once for each entry whose loop goes through it.

  The linker's `_kernel_phys_end` is the parameter `kend`. Memory is addressed physically.
-/
import Mathlib.Algebra.Order.BigOperators.Group.Finset
import Mathlib.Algebra.Group.Action.Defs
import OreUnix.Mm.KernelSpace

namespace OreUnix.Pmm

open Bitmap ByteMem

variable {e : MmapEntry} {p : Nat}

/-! ## 1. `pmm_init` with both counters -/

def readEntry (m : Mem) (a : Nat) : MmapEntry :=
  ⟨word m a + 2 ^ 32 * word m (a + 4), word m (a + 8) + 2 ^ 32 * word m (a + 12), word m (a + 16)⟩

/-- The entries of the tag at `tag`, which lie `entry_size` bytes apart up to the end of the tag; an `entry_size` of 0
    is not a tag. -/
def mmapEntries (m : Mem) (tag mmapLen : Nat) : List MmapEntry :=
  let entrySize := word m (tag + 8)
  (List.range ((mmapLen - 16 + entrySize - 1) / entrySize)).map fun i => readEntry m (tag + 16 + i * entrySize)

/-- The map `pmm_init` is given. -/
def mapOf (m : Mem) (mmapAddr mmapLen : Nat) : Option (List MmapEntry) :=
  if mmapAddr ≠ 0 then some (mmapEntries m mmapAddr mmapLen) else none

/-- The bitmap and the two counters. -/
structure BootPages extends Pages where
  totalPagesCount : Nat

/-- One round of the loops of `pmm_init`. -/
def bootPage (s : BootPages) (idx : Nat) : BootPages :=
  if idx < bitmapBits then ⟨addPage s.toPages idx, u32 (s.totalPagesCount + 1)⟩ else s

/-- The pages the loop over an entry goes through. -/
def MmapEntry.pages (e : MmapEntry) : List Nat :=
  List.range' (e.pageBase / pageSize) ((e.pageEnd - e.pageBase) / pageSize)

theorem MmapEntry.nodup_pages (e : MmapEntry) : e.pages.Nodup := List.nodup_range'

def bootEntry (s : BootPages) (e : MmapEntry) : BootPages :=
  if e.type = MB2_MEM_AVAILABLE then e.pages.foldl bootPage s else s

/-- `bitmap` and the counters before `pmm_init`. -/
def noPages : BootPages := ⟨⟨fun _ => 0, 0⟩, 0⟩

/-- The first half of `pmm_init`: the memory map, or 1 MB to 64 MB where there is none. -/
def bootMap : Option (List MmapEntry) → BootPages
  | some es => es.foldl bootEntry noPages
  | none => (List.range' 256 (16384 - 256)).foldl bootPage noPages

/-- The end of what `pmm_init` keeps for the kernel: its image and 16 pages. -/
def kernelReserve (kend : Nat) : Nat := u32 (alignUp kend pageSize + pageSize * 16)

/-- `pmm_init(_, mmap_addr, mmap_len)`. -/
def bootInit (m : Mem) (kend mmapAddr mmapLen : Nat) : BootPages :=
  let s := bootMap (mapOf m mmapAddr mmapLen)
  let pages := pmmMarkUsed s.toPages 0 (kernelReserve kend)
  ⟨{ pages with bitmap := clr pages.bitmap 0 }, s.totalPagesCount⟩

theorem bootPage_toPages (s : BootPages) (i : Nat) : (bootPage s i).toPages = addPage s.toPages i := by
  unfold bootPage
  split
  · rfl
  · rename_i h
    rw [addPage, if_neg h]

theorem foldl_bootPage_toPages (is : List Nat) (s : BootPages) :
    (is.foldl bootPage s).toPages = is.foldl addPage s.toPages := by
  induction is generalizing s with
  | nil => rfl
  | cons i is ih => rw [List.foldl_cons, ih, bootPage_toPages, List.foldl_cons]

theorem foldl_bootEntry_toPages (es : List MmapEntry) (s : BootPages) :
    (es.foldl bootEntry s).toPages = es.foldl addEntry s.toPages := by
  induction es generalizing s with
  | nil => rfl
  | cons e es ih =>
    rw [List.foldl_cons, ih, List.foldl_cons]
    congr 1
    unfold bootEntry addEntry
    split
    · exact foldl_bootPage_toPages _ s
    · rfl

/-- `total_pages_count` apart, this is the `pmm_init` of KernelSpace.lean. -/
theorem bootInit_toPages (m : Mem) (kend mmapAddr mmapLen : Nat) :
    (bootInit m kend mmapAddr mmapLen).toPages = pmmInit (mapOf m mmapAddr mmapLen) kend := by
  have hmap : (bootMap (mapOf m mmapAddr mmapLen)).toPages = match mapOf m mmapAddr mmapLen with
      | some es => es.foldl addEntry ⟨fun _ => 0, 0⟩
      | none => (List.range' 256 (16384 - 256)).foldl addPage ⟨fun _ => 0, 0⟩ := by
    cases mapOf m mmapAddr mmapLen with
    | some es => exact foldl_bootEntry_toPages es noPages
    | none => exact foldl_bootPage_toPages _ noPages
  unfold bootInit pmmInit
  dsimp only
  rw [hmap]
  rfl

/-! ## 2. The pages of an entry -/

/-- The number of the first page that begins in the entry, and of the first that does not end in it. -/
def MmapEntry.firstPage (e : MmapEntry) : Nat := (e.baseAddr + pageSize - 1) / pageSize
def MmapEntry.lastPage (e : MmapEntry) : Nat := (e.baseAddr + e.length) / pageSize

/-- Page `p` lies entirely inside the range of the entry. -/
def MmapEntry.Contains (e : MmapEntry) (p : Nat) : Prop :=
  e.baseAddr ≤ p * pageSize ∧ (p + 1) * pageSize ≤ e.baseAddr + e.length

/-- Page `p` lies in the entry when the numbers of its pages are taken modulo 4 GB. -/
def MmapEntry.ContainsMod (e : MmapEntry) (p : Nat) : Prop :=
  e.firstPage % 2 ^ 20 ≤ p ∧ p < e.lastPage % 2 ^ 20

instance (e : MmapEntry) (p : Nat) : Decidable (e.ContainsMod p) := inferInstanceAs (Decidable (_ ∧ _))
instance (e : MmapEntry) (p : Nat) : Decidable (e.Contains p) := inferInstanceAs (Decidable (_ ∧ _))

theorem contains_iff : e.Contains p ↔ e.firstPage ≤ p ∧ p < e.lastPage := by
  obtain ⟨_, _, e3, _⟩ := bitmapBits_eq
  unfold MmapEntry.Contains MmapEntry.firstPage MmapEntry.lastPage
  rw [e3]
  omega

theorem mem_pages (he : e.baseAddr + e.length < 2 ^ 64) : p ∈ e.pages ↔ e.ContainsMod p := by
  obtain ⟨_, _, e3, _⟩ := bitmapBits_eq
  unfold MmapEntry.pages MmapEntry.pageBase MmapEntry.pageEnd MmapEntry.ContainsMod MmapEntry.firstPage
    MmapEntry.lastPage u32
  rw [List.mem_range'_1, e3]
  omega

/-! ## 3. What is free after boot -/

/-- The pages kept for the kernel. -/
theorem mem_markPages {kend : Nat} (hk : kend + 17 * pageSize ≤ 2 ^ 32) {p : Nat} :
    p ∈ markPages 0 (kernelReserve kend) ↔ p * pageSize < alignUp kend pageSize + pageSize * 16 := by
  obtain ⟨_, _, e3, _⟩ := bitmapBits_eq
  unfold markPages kernelReserve alignUp alignDown u32
  rw [List.mem_range'_1, e3]
  rw [e3] at hk
  omega

/-- **The pages free after boot.** -/
theorem mem_boot {m : Mem} {kend mmapAddr mmapLen : Nat} (hk : kend + 17 * pageSize ≤ 2 ^ 32) (ha : mmapAddr ≠ 0)
    (hes : ∀ e ∈ mmapEntries m mmapAddr mmapLen, e.baseAddr + e.length < 2 ^ 64) :
    p ∈ freePages (bootInit m kend mmapAddr mmapLen).toPages ↔
      p < bitmapBits ∧ alignUp kend pageSize + pageSize * 16 ≤ p * pageSize ∧
        ∃ e ∈ mmapEntries m mmapAddr mmapLen, e.type = MB2_MEM_AVAILABLE ∧ e.ContainsMod p := by
  obtain ⟨_, _, e3, _⟩ := bitmapBits_eq
  have hentries : (∃ e ∈ mmapEntries m mmapAddr mmapLen, e.Offers p) ↔
      ∃ e ∈ mmapEntries m mmapAddr mmapLen, e.type = MB2_MEM_AVAILABLE ∧ e.ContainsMod p := by
    refine exists_congr fun e => and_congr_right fun he => ?_
    rw [← mem_pages (hes e he)]
    rfl
  rw [bootInit_toPages, mapOf, if_pos ha, mem_pmmInit, hentries]
  have hmark := @mem_markPages kend hk p
  unfold kernelReserve at hmark
  rw [hmark, Nat.not_lt]
  constructor
  · rintro ⟨h1, _, h2, h3⟩
    exact ⟨h1, h3, h2⟩
  · rintro ⟨h1, h2, h3⟩
    refine ⟨h1, fun h0 => ?_, h3, h2⟩
    -- page 0 is the kernel's
    rw [h0, e3] at h2
    omega

/-! ## 4. Which memory is freed -/

section Frees

variable (m : Mem) (kend mmapAddr mmapLen : Nat)

/-- Some AVAILABLE entry of the map holds page `p`. -/
def InMap (p : Nat) : Prop :=
  ∃ e ∈ mmapEntries m mmapAddr mmapLen, e.type = MB2_MEM_AVAILABLE ∧ e.Contains p

instance (p : Nat) : Decidable (InMap m mmapAddr mmapLen p) := inferInstanceAs (Decidable (∃ e ∈ _, _))

/-- Some AVAILABLE entry of the map holds page `p` modulo 4 GB. -/
def InMapMod (p : Nat) : Prop :=
  ∃ e ∈ mmapEntries m mmapAddr mmapLen, e.type = MB2_MEM_AVAILABLE ∧ e.ContainsMod p

/-- A page of the bitmap above the kernel image and its margin. -/
def AboveKernel (p : Nat) : Prop := p < bitmapBits ∧ alignUp kend pageSize + pageSize * 16 ≤ p * pageSize

/-- Exactly the available pages above the kernel are free. -/
def FreesAvailable : Prop :=
  ∀ p, p ∈ freePages (bootInit m kend mmapAddr mmapLen).toPages ↔ AboveKernel kend p ∧ InMap m mmapAddr mmapLen p

end Frees

variable {m : Mem} {kend mmapAddr mmapLen : Nat}

/-- **What is freed at boot is the available memory exactly if** no page above the kernel is in an AVAILABLE entry
    modulo 4 GB only, or in one only as long as its bounds are not reduced. -/
theorem frees_available_iff (hk : kend + 17 * pageSize ≤ 2 ^ 32) (ha : mmapAddr ≠ 0)
    (hes : ∀ e ∈ mmapEntries m mmapAddr mmapLen, e.baseAddr + e.length < 2 ^ 64) :
    FreesAvailable m kend mmapAddr mmapLen ↔
      ∀ p, AboveKernel kend p → (InMapMod m mmapAddr mmapLen p ↔ InMap m mmapAddr mmapLen p) := by
  unfold FreesAvailable
  refine forall_congr' fun p => ?_
  rw [mem_boot hk ha hes, ← and_assoc]
  exact and_congr_right_iff

/-- A map whose AVAILABLE entries end below 4 GB, the page before included, is read as it stands. -/
theorem inMapMod_of_low (h : ∀ e ∈ mmapEntries m mmapAddr mmapLen, e.type = MB2_MEM_AVAILABLE →
    e.baseAddr + pageSize ≤ 2 ^ 32 ∧ e.baseAddr + e.length < 2 ^ 32) (p : Nat) :
    InMapMod m mmapAddr mmapLen p ↔ InMap m mmapAddr mmapLen p := by
  obtain ⟨_, _, e3, _⟩ := bitmapBits_eq
  refine exists_congr fun e => and_congr_right fun he => and_congr_right fun htype => ?_
  obtain ⟨h1, h2⟩ := h e he htype
  rw [contains_iff, MmapEntry.ContainsMod, MmapEntry.firstPage, MmapEntry.lastPage]
  rw [e3] at h1 ⊢
  omega

/-- A tag at `tag` made of the words `ws`. -/
def wordsAt (tag : Nat) (ws : List Nat) : Mem := fun x =>
  UInt8.ofNat (ws.getD ((x - tag) / 4) 0 / 2 ^ (8 * ((x - tag) % 4)))

/-- A map with 2 MB to 18 MB AVAILABLE and the rest of the first GB reserved. -/
theorem frees_available_low :
    FreesAvailable (wordsAt 4096 [6, 64, 24, 0, 0x200000, 0, 0x1000000, 0, 1, 0, 0x1200000, 0, 0x3ee00000, 0, 2, 0])
      0x200000 4096 64 := by
  have hes : mmapEntries (wordsAt 4096 [6, 64, 24, 0, 0x200000, 0, 0x1000000, 0, 1, 0, 0x1200000, 0, 0x3ee00000, 0,
      2, 0]) 4096 64 = [⟨0x200000, 0x1000000, 1⟩, ⟨0x1200000, 0x3ee00000, 2⟩] := by decide +kernel
  refine (frees_available_iff (by decide) (by decide) ?_).mpr fun p _ => inMapMod_of_low ?_ p
  · rw [hes]
    decide
  · rw [hes]
    decide

/-- **1 GB of memory from 4 GB on frees the first GB**, of which the map says nothing. -/
theorem high_memory_frees_low :
    ¬ FreesAvailable (wordsAt 4096 [6, 40, 24, 0, 0, 1, 0x40000000, 0, 1, 0]) 0x200000 4096 40 := by
  have hes : mmapEntries (wordsAt 4096 [6, 40, 24, 0, 0, 1, 0x40000000, 0, 1, 0]) 4096 40 =
      [⟨0x100000000, 0x40000000, 1⟩] := by decide +kernel
  intro h
  obtain ⟨_, e, he, _, hin⟩ := (h 1000).mp ((mem_boot (by decide) (by decide) (by rw [hes]; decide)).mpr
    ⟨by decide, by decide, by rw [hes]; exact ⟨_, List.mem_singleton_self _, rfl, by decide⟩⟩)
  rw [hes, List.mem_singleton] at he
  rw [he] at hin
  exact absurd hin.1 (by decide)

/-! ## 5. The counters -/

section Counters

/-- The pages the loop over the map goes through, once for each AVAILABLE entry. -/
def loopPages (es : List MmapEntry) : List Nat :=
  (es.filter fun e => e.type = MB2_MEM_AVAILABLE).flatMap MmapEntry.pages

/-- The two nested loops are one. -/
theorem foldl_bootEntry (s : BootPages) (es : List MmapEntry) :
    es.foldl bootEntry s = (loopPages es).foldl bootPage s := by
  induction es generalizing s with
  | nil => rfl
  | cons e es ih =>
    rw [List.foldl_cons, ih, bootEntry]
    unfold loopPages
    split
    · rename_i h
      rw [List.filter_cons_of_pos (by simpa using h), List.flatMap_cons, List.foldl_append]
    · rename_i h
      rw [List.filter_cons_of_neg (by simpa using h)]

/-- Both counters go up once for each page in the range of the bitmap. -/
theorem foldl_bootPage_counts (is : List Nat) {s : BootPages} {c : Nat} (hf : s.freePagesCount = u32 c)
    (ht : s.totalPagesCount = u32 c) :
    (is.foldl bootPage s).freePagesCount = u32 (c + (is.filter (· < bitmapBits)).length) ∧
      (is.foldl bootPage s).totalPagesCount = u32 (c + (is.filter (· < bitmapBits)).length) := by
  induction is generalizing s c with
  | nil => exact ⟨hf, ht⟩
  | cons i is ih =>
    have hstep : ∀ n, u32 (u32 n + 1) = u32 (n + 1) := fun n => by unfold u32; omega
    rw [List.foldl_cons]
    by_cases hi : i < bitmapBits
    · rw [List.filter_cons_of_pos (by simpa using hi), List.length_cons, bootPage, if_pos hi, addPage, if_pos hi]
      have h := @ih ⟨⟨set s.bitmap i, u32 (s.freePagesCount + 1)⟩, u32 (s.totalPagesCount + 1)⟩ (c + 1)
        (by rw [hf, hstep]) (by rw [ht, hstep])
      rwa [show c + 1 + (is.filter (· < bitmapBits)).length = c + ((is.filter (· < bitmapBits)).length + 1) by
        omega] at h
    · rw [List.filter_cons_of_neg (by simpa using hi), bootPage, if_neg hi]
      exact ih hf ht

/-- One allocation after another, the addresses dropped. -/
def allocs (s : Pages) : Nat → Pages
  | 0 => s
  | k + 1 => allocs (pmmAlloc s).2 k

/-- **A right counter is the number of allocations that succeed.** -/
theorem allocs_succeed {s : Pages} (hc : Counted s) (k : Nat) :
    (pmmAlloc (allocs s k)).1 ≠ 0 ↔ k < s.freePagesCount := by
  obtain ⟨e1, _, e3, _⟩ := bitmapBits_eq
  have hle := card_freePages_le s
  have hcount := hc.count
  induction k generalizing s with
  | zero =>
    show (pmmAlloc s).1 ≠ 0 ↔ _
    rcases pmmAlloc_cases s with ⟨h, hempty⟩ | ⟨i, hi, h⟩
    · rw [h, hcount, hempty]
      simp
    · have h0 : i ≠ 0 := fun e => by
        have := (mem_freePages.mp hi).2
        rw [e, hc.zero] at this
        cases this
      have hpos := Finset.card_pos.mpr ⟨i, hi⟩
      rw [h, e3]
      simp only
      omega
  | succ k ih =>
    have hnext := counted_pmmAlloc hc
    refine (ih hnext (card_freePages_le _) hnext.count).trans ?_
    rcases pmmAlloc_cases s with ⟨h, hempty⟩ | ⟨i, hi, h⟩
    · rw [h, hcount, hempty]
      simp
    · have hpos := Finset.card_pos.mpr ⟨i, hi⟩
      rw [h]
      simp only
      rw [sub32_of_le (by omega) (by omega)]
      omega

end Counters

variable (m : Mem) (kend mmapAddr mmapLen : Nat)

/-- The pages below `PHYS_MEM_MAX` that the map makes available. -/
def availablePages : Finset Nat := (Finset.range bitmapBits).filter (InMap m mmapAddr mmapLen)

/-- The pages below `PHYS_MEM_MAX` that the loops over the AVAILABLE entries go through, once for each entry. -/
def mapPages : List Nat := (loopPages (mmapEntries m mmapAddr mmapLen)).filter (· < bitmapBits)

/-- The counters after boot are right: the pages the map made available, those that are still free, and the
    allocations that succeed from here on. -/
structure Accounted : Prop where
  free : (bootInit m kend mmapAddr mmapLen).freePagesCount =
    (freePages (bootInit m kend mmapAddr mmapLen).toPages).card
  total : (bootInit m kend mmapAddr mmapLen).totalPagesCount = (availablePages m mmapAddr mmapLen).card
  allocs : ∀ k, (pmmAlloc (allocs (bootInit m kend mmapAddr mmapLen).toPages k)).1 ≠ 0 ↔
    k < (bootInit m kend mmapAddr mmapLen).freePagesCount

variable {m kend mmapAddr mmapLen}

theorem freePages_bootMap (ha : mmapAddr ≠ 0) :
    freePages (bootMap (mapOf m mmapAddr mmapLen)).toPages = (mapPages m mmapAddr mmapLen).toFinset := by
  ext p
  rw [mem_freePages, List.mem_toFinset, mapPages, List.mem_filter, decide_eq_true_eq, and_comm (a := p ∈ _)]
  refine and_congr_right fun hp => ?_
  have hnone : tst noPages.bitmap p ≠ true := by simp [noPages, tst]
  rw [mapOf, if_pos ha, bootMap, foldl_bootEntry, foldl_bootPage_toPages, tst_foldl_addPage _ _ hp]
  exact or_iff_right hnone

theorem bootMap_counts (ha : mmapAddr ≠ 0) :
    (bootMap (mapOf m mmapAddr mmapLen)).freePagesCount = u32 (mapPages m mmapAddr mmapLen).length ∧
      (bootMap (mapOf m mmapAddr mmapLen)).totalPagesCount = u32 (mapPages m mmapAddr mmapLen).length := by
  have h := foldl_bootPage_counts (loopPages (mmapEntries m mmapAddr mmapLen)) (s := noPages) (c := 0) rfl rfl
  rw [Nat.zero_add] at h
  rw [mapOf, if_pos ha, bootMap, foldl_bootEntry]
  exact h

/-- The second half of `pmm_init` takes the kernel's pages, page 0 among them. -/
theorem bootInit_counts (hk : kend + 17 * pageSize ≤ 2 ^ 32) (ha : mmapAddr ≠ 0) :
    tst (bootInit m kend mmapAddr mmapLen).bitmap 0 = false ∧ ∃ k ≤ (mapPages m mmapAddr mmapLen).toFinset.card,
      (bootInit m kend mmapAddr mmapLen).freePagesCount = u32 (mapPages m mmapAddr mmapLen).length - k ∧
      (freePages (bootInit m kend mmapAddr mmapLen).toPages).card =
        (mapPages m mmapAddr mmapLen).toFinset.card - k := by
  obtain ⟨e1, _, e3, _⟩ := bitmapBits_eq
  have h0 : tst (pmmMarkUsed (bootMap (mapOf m mmapAddr mmapLen)).toPages 0 (kernelReserve kend)).bitmap 0 = false := by
    have hmem : 0 ∈ markPages 0 (kernelReserve kend) := (mem_markPages hk).mpr (by rw [e3]; omega)
    rw [pmmMarkUsed, tst_foldl_markPage _ _ (by rw [e1]; omega)]
    simp [hmem]
  have hsame : freePages (bootInit m kend mmapAddr mmapLen).toPages =
      freePages (pmmMarkUsed (bootMap (mapOf m mmapAddr mmapLen)).toPages 0 (kernelReserve kend)) := by
    refine (ones_clr _ _ _).trans (Finset.erase_eq_of_notMem fun h => ?_)
    rw [(mem_ones _ _ _).mp h |>.2] at h0
    cases h0
  refine ⟨(tst_clr ..).trans (by rw [h0, Bool.false_and]), ?_⟩
  obtain ⟨k, hle, hcount, hcard⟩ := foldl_markPage_counts (bootMap (mapOf m mmapAddr mmapLen)).toPages
    (markPages 0 (kernelReserve kend))
  rw [freePages_bootMap ha] at hle hcard
  rw [(bootMap_counts ha).1] at hcount
  exact ⟨k, hle, hcount, by rw [hsame]; exact hcard⟩

theorem accounted_iff_counts (hk : kend + 17 * pageSize ≤ 2 ^ 32) (ha : mmapAddr ≠ 0) :
    Accounted m kend mmapAddr mmapLen ↔
      u32 (mapPages m mmapAddr mmapLen).length = (availablePages m mmapAddr mmapLen).card ∧
        ((mapPages m mmapAddr mmapLen).toFinset.card = (availablePages m mmapAddr mmapLen).card ∨
          (availablePages m mmapAddr mmapLen).card < (mapPages m mmapAddr mmapLen).toFinset.card ∧
            freePages (bootInit m kend mmapAddr mmapLen).toPages = ∅) := by
  obtain ⟨h0, k, hle, hcount, hcard⟩ := @bootInit_counts m kend mmapAddr mmapLen hk ha
  have htotal : (bootInit m kend mmapAddr mmapLen).totalPagesCount = _ := (bootMap_counts ha).2
  rw [← Finset.card_eq_zero, hcard]
  constructor
  · intro h
    have hall := htotal.symm.trans h.total
    have hfree := h.free
    rw [hcount, hcard, hall] at hfree
    exact ⟨hall, by omega⟩
  · rintro ⟨hall, hbits⟩
    have hc : Counted (bootInit m kend mmapAddr mmapLen).toPages := ⟨by rw [hcount, hcard, hall]; omega, h0⟩
    exact ⟨hc.count, htotal.trans hall, allocs_succeed hc⟩

/-- The loops over `e` and `e'` share no page below `PHYS_MEM_MAX`. -/
def Apart (e e' : MmapEntry) : Prop := ∀ p < bitmapBits, p ∈ e.pages → p ∉ e'.pages

theorem mapPages_eq (m : Mem) (mmapAddr mmapLen : Nat) :
    mapPages m mmapAddr mmapLen = ((mmapEntries m mmapAddr mmapLen).filter fun e => e.type = MB2_MEM_AVAILABLE).flatMap
      fun e => e.pages.filter (· < bitmapBits) := by
  rw [mapPages, loopPages, List.filter_flatMap]

/-- Every page is counted once exactly if the loops over two AVAILABLE entries share none. -/
theorem mapPages_nodup : (mapPages m mmapAddr mmapLen).Nodup ↔
    ((mmapEntries m mmapAddr mmapLen).filter fun e => e.type = MB2_MEM_AVAILABLE).Pairwise Apart := by
  rw [mapPages_eq, List.nodup_flatMap]
  refine (and_iff_right fun e _ => ?_).trans ?_
  · exact e.nodup_pages.filter _
  · refine iff_of_eq (congrArg (List.Pairwise · _) ?_)
    funext e e'
    simp only [Function.onFun, List.Disjoint, List.mem_filter, decide_eq_true_eq, Apart, eq_iff_iff]
    constructor
    · exact fun h p hp h1 h2 => h ⟨h1, hp⟩ ⟨h2, hp⟩
    · exact fun h p h1 h2 => h p h1.2 h1.1 h2.1

theorem length_mapPages_le (m : Mem) (mmapAddr mmapLen : Nat) :
    (mapPages m mmapAddr mmapLen).length ≤ (mmapEntries m mmapAddr mmapLen).length * bitmapBits := by
  rw [mapPages_eq, List.length_flatMap]
  refine (List.sum_le_card_nsmul _ bitmapBits fun n hn => ?_).trans ?_
  · obtain ⟨e, _, rfl⟩ := List.mem_map.mp hn
    have hnd : (e.pages.filter (· < bitmapBits)).Nodup := e.nodup_pages.filter _
    have hsub : (e.pages.filter (· < bitmapBits)).toFinset ⊆ Finset.range bitmapBits := fun p hp => by
      simpa using (List.mem_filter.mp (List.mem_toFinset.mp hp)).2
    have hcard := Finset.card_le_card hsub
    rwa [List.toFinset_card_of_nodup hnd, Finset.card_range] at hcard
  · rw [List.length_map, smul_eq_mul]
    exact Nat.mul_le_mul_right _ (List.length_filter_le _ _)

theorem accounted_iff_apart (hk : kend + 17 * pageSize ≤ 2 ^ 32) (ha : mmapAddr ≠ 0)
    (hfew : (mmapEntries m mmapAddr mmapLen).length < 2 ^ 14) :
    Accounted m kend mmapAddr mmapLen ↔
      ((mmapEntries m mmapAddr mmapLen).filter fun e => e.type = MB2_MEM_AVAILABLE).Pairwise Apart ∧
        (mapPages m mmapAddr mmapLen).toFinset.card = (availablePages m mmapAddr mmapLen).card := by
  obtain ⟨e1, _⟩ := bitmapBits_eq
  have hle := List.toFinset_card_le (mapPages m mmapAddr mmapLen)
  have hnodup : (mapPages m mmapAddr mmapLen).Nodup ↔
      (mapPages m mmapAddr mmapLen).toFinset.card = (mapPages m mmapAddr mmapLen).length :=
    ⟨List.toFinset_card_of_nodup, fun h => Multiset.coe_nodup.mp (Multiset.toFinset_card_eq_card_iff_nodup.mp h)⟩
  -- fewer than 2^14 entries of 2^18 pages: the counters do not wrap
  have hlen := length_mapPages_le m mmapAddr mmapLen
  have hbound := Nat.mul_le_mul_right bitmapBits (Nat.le_pred_of_lt hfew)
  rw [e1] at hlen hbound
  rw [accounted_iff_counts hk ha, ← mapPages_nodup, hnodup, u32_of_lt (by omega)]
  omega

/-- Where reducing the bounds makes no difference, the bits set are those of the available pages. -/
theorem toFinset_mapPages (hes : ∀ e ∈ mmapEntries m mmapAddr mmapLen, e.baseAddr + e.length < 2 ^ 64)
    (h : ∀ p, InMapMod m mmapAddr mmapLen p ↔ InMap m mmapAddr mmapLen p) :
    (mapPages m mmapAddr mmapLen).toFinset = availablePages m mmapAddr mmapLen := by
  ext p
  rw [List.mem_toFinset, mapPages, List.mem_filter, availablePages, Finset.mem_filter, Finset.mem_range, ← h,
    decide_eq_true_eq, and_comm, loopPages, List.mem_flatMap]
  refine and_congr_right fun _ => exists_congr fun e => ?_
  rw [List.mem_filter, decide_eq_true_eq, and_assoc]
  exact and_congr_right fun he => and_congr_right fun _ => mem_pages (hes e he)

end OreUnix.Pmm
