/-
  Subject: WHICH FRAMES THE KERNEL CAN REACH: `phys_to_virt` of an allocated frame against what the kernel's directory
  maps there.

  `paging_init` maps the first 4 MB, the allocator hands out frames up to `PHYS_MEM_MAX`. A frame is reached through
  its own address if and only if it lies in the first 4 MB (`directMapped_iff`); since the allocator takes the lowest
  frame, or the lowest run of frames, an allocation is reached if and only if one below 4 MB is free when it is made
  (`direct_map_iff`).
-/
import OreUnix.Mm.KernelSpace
import OreUnix.Mm.FirstFit

namespace OreUnix.Vmm

open ByteMem Pmm Bitmap FramePool FirstFit Lts

variable {s s' : Vm} {d f n : Nat}

/-! ## 1. Frames and their addresses -/

/-- The kernel's directory translates `phys_to_virt(p)` to `p`, and that address is not in the heap. -/
def DirectMapped (s : Vm) (d p : Nat) : Prop :=
  virtToPhysPd (d * pageSize) (physToVirt p) s = p ∧ ¬ InHeapWindow (physToVirt p)

/-- The frames `paging_init` maps. -/
def windowSize : Nat := 1024

theorem physToVirt_frame (hf : f < bitmapBits) : physToVirt (f * pageSize) = kernelVirtBase + f * pageSize := by
  have hf : f < 262144 := hf
  rw [physToVirt, u32_of_lt, Nat.add_comm]
  change f * 4096 + 3221225472 < 2 ^ 32
  omega

/-- **A frame is reached** if and only if it is one of the first 4 MB. -/
theorem directMapped_iff (h : KernelDir s d) (hf : f < bitmapBits) :
    DirectMapped s d (f * pageSize) ↔ f < windowSize := by
  have hf' : f < 262144 := hf
  have hoff : (kernelVirtBase + f * pageSize) % pageSize = 0 := by
    change (3221225472 + f * 4096) % 4096 = 0
    omega
  rw [DirectMapped, physToVirt_frame hf]
  constructor
  · intro hmap
    obtain ⟨hval, hheap⟩ := hmap
    by_contra hge
    have hge : 1024 ≤ f := Nat.le_of_not_lt hge
    cases htar : (target s d (pdIndex (kernelVirtBase + f * pageSize))).bind
        (target s · (ptIndex (kernelVirtBase + f * pageSize))) with
    | none =>
      rw [virtToPhysPd_none htar, pageSize_eq] at hval
      omega
    | some g =>
      obtain ⟨t, ht, _⟩ := Option.bind_eq_some_iff.mp htar
      have hdi : pdIndex (kernelVirtBase + f * pageSize) < tableEntries := by
        change (3221225472 + f * 4096) / 2 ^ 22 < 1024
        omega
      rcases h.only hdi ht with hwin | hwin
      · change (3221225472 + f * 4096) / 2 ^ 22 = 768 at hwin
        omega
      · refine hheap ?_
        change 832 ≤ (3221225472 + f * 4096) / 2 ^ 22 ∧ (3221225472 + f * 4096) / 2 ^ 22 < 848 at hwin
        change 3489660928 ≤ 3221225472 + f * 4096 ∧ 3221225472 + f * 4096 < 3489660928 + 67108864
        omega
  · intro hlt
    have hlt' : f < 1024 := hlt
    obtain ⟨t, ht, hmap⟩ := h.window
    obtain ⟨hdi, hpi⟩ := window_pdIndex (p := f) hlt
    have hpage : target s t (ptIndex (kernelVirtBase + f * pageSize)) = some f := by
      rw [hpi]
      exact hmap f hlt
    constructor
    · rw [virtToPhysPd_some (hdi ▸ ht) hpage, hoff, Nat.or_zero]
    · intro hwin
      have hge : 3489660928 ≤ 3221225472 + f * 4096 := hwin.1
      omega

/-! ## 2. Allocations -/

/-- The frame `pmm_alloc` gives is reached through its address. -/
def AllocMapped (d : Nat) (s : Vm) : Prop := s.alloc.1 ≠ 0 → DirectMapped s.alloc.2 d s.alloc.1

def Vm.allocContiguous (s : Vm) (n : Nat) : Nat × Vm :=
  ((pmmAllocContiguous s.pages n).1, { s with pages := (pmmAllocContiguous s.pages n).2 })

/-- The frames `pmm_alloc_contiguous` gives are. -/
def ContiguousMapped (d : Nat) (s : Vm) (n : Nat) : Prop :=
  (s.allocContiguous n).1 ≠ 0 → ∀ i < n,
    DirectMapped (s.allocContiguous n).2 d ((s.allocContiguous n).1 + i * pageSize)

/-- If a frame is free, one of the first 4 MB is. -/
def LowFree (s : Vm) : Prop := (freePages s.pages).Nonempty → ∃ f ∈ freePages s.pages, f < windowSize

/-- If `n` frames in a row are free, `n` in a row of the first 4 MB are. -/
def LowRun (s : Vm) (n : Nat) : Prop :=
  (∃ st, FreeRun (freePages s.pages) n st) → ∃ st, FreeRun (freePages s.pages) n st ∧ st + n ≤ windowSize

/-- `pmm_alloc` takes the lowest free frame. -/
theorem alloc_lowest (s : Vm) : (s.alloc = (0, s) ∧ freePages s.pages = ∅) ∨
    ∃ f ∈ freePages s.pages, s.alloc.1 = f * pageSize ∧ freePages s.alloc.2.pages = (freePages s.pages).erase f ∧
      ∀ g ∈ freePages s.pages, f ≤ g := by
  rcases pmmAlloc_cases s.pages with ⟨heq, hnone⟩ | ⟨f, hf, heq⟩
  · refine .inl ⟨?_, hnone⟩
    rw [Vm.alloc, heq]
  · have hlow := lowest_pmmAlloc s.pages
    have hfree : freePages (pmmAlloc s.pages).2 = (freePages s.pages).erase f := by
      rw [heq]
      exact ones_clr ..
    refine .inr ⟨f, hf, ?_, hfree, fun g hg => ?_⟩
    · rw [Vm.alloc, heq]
    · by_cases hgf : g = f
      · exact hgf.ge
      · rw [hfree] at hlow
        exact (hlow.lower f hf (Finset.notMem_erase f _) g (Finset.mem_erase.mpr ⟨hgf, hg⟩)).le

theorem allocMapped_iff (h : KernelDir s d) : AllocMapped d s ↔ LowFree s := by
  have hdir : KernelDir s.alloc.2 d := by
    rcases alloc_cases s with ⟨_, _, _, htake, _⟩ | ⟨_, _, _, htake⟩ <;> exact h.taken htake
  rcases alloc_lowest s with ⟨heq, hnone⟩ | ⟨f, hf, hp, _, hlow⟩
  · constructor
    · intro _ hne
      rw [hnone] at hne
      exact absurd hne Finset.not_nonempty_empty
    · intro _ hne
      rw [heq] at hne
      exact absurd rfl hne
  · have hlt := (mem_freePages.mp hf).1
    unfold AllocMapped
    rw [hp]
    by_cases h0 : f = 0
    · have hwin : f < windowSize := by
        rw [h0]
        decide
      refine ⟨fun _ _ => ⟨f, hf, hwin⟩, fun _ hne => absurd ?_ hne⟩
      rw [h0, Nat.zero_mul]
    · have hne : f * pageSize ≠ 0 := addr_ne ‹_›
      rw [directMapped_iff hdir hlt]
      constructor
      · exact fun hwin _ => ⟨f, hf, hwin hne⟩
      · intro hfree _
        obtain ⟨g, hg, hlt⟩ := hfree ⟨f, hf⟩
        exact (hlow g hg).trans_lt hlt

theorem contiguousMapped_iff (h : KernelDir s d) (n : Nat) : ContiguousMapped d s n ↔ LowRun s n := by
  by_cases hn : n = 0
  · subst hn
    refine ⟨fun _ _ => ⟨1, ⟨Nat.le_refl 1, fun j h1 h2 => ?_⟩, by decide⟩, fun _ _ i hi => ?_⟩
    · exact absurd h2 (Nat.not_lt.mpr h1)
    · exact absurd hi (Nat.not_lt_zero i)
  · rcases pmmAllocContiguous_first s.pages (Nat.pos_of_ne_zero hn) with ⟨heq, hnone⟩ | ⟨st, hrun, hfirst, heq⟩
    · refine ⟨fun _ hrun => ?_, fun _ hne => ?_⟩
      · obtain ⟨st, hrun⟩ := hrun
        exact absurd hrun (hnone st)
      · rw [Vm.allocContiguous, heq] at hne
        exact absurd rfl hne
    · have hdir : KernelDir (s.allocContiguous n).2 d := by
        refine h.congr (fun _ _ => rfl) fun f hf hfree => h.used f hf (mem_free.mpr ?_)
        have hfree := mem_freePages.mp (mem_free.mp hfree)
        rw [Vm.allocContiguous, heq] at hfree
        rw [tst_foldl_clr, Bool.and_eq_true] at hfree
        exact mem_freePages.mpr ⟨hfree.1, hfree.2.1⟩
      have hst : (s.allocContiguous n).1 = st * pageSize := by rw [Vm.allocContiguous, heq]
      have hne : st * pageSize ≠ 0 := by
        have h1 := hrun.1
        rw [pageSize_eq]
        omega
      have hframe : ∀ i < n, (DirectMapped (s.allocContiguous n).2 d (st * pageSize + i * pageSize) ↔
          st + i < windowSize) := by
        intro i hi
        have hmem := mem_freePages.mp (hrun.2 (st + i) (Nat.le_add_right st i) (Nat.add_lt_add_left hi st))
        rw [← Nat.add_mul]
        exact directMapped_iff hdir hmem.1
      unfold ContiguousMapped
      rw [hst]
      constructor
      · intro hmap _
        refine ⟨st, hrun, ?_⟩
        have hlast := (hframe (n - 1) (by omega)).mp (hmap hne (n - 1) (by omega))
        omega
      · intro hlow _ i hi
        obtain ⟨st', hrun', hle⟩ := hlow ⟨st, hrun⟩
        have hst' := hfirst st' hrun'
        exact (hframe i hi).mpr (by omega)

/-! ## 3. Runs -/

/-- What happens to the frames after `paging_init`: allocations, releases, faults in the kernel heap, and anything
    written elsewhere. -/
inductive FrameEvent where
  | alloc
  | allocZero
  | allocContiguous (n : Nat)
  | free (phys : Nat)
  | fault (addr : Nat)
  | write (m : Mem)

/-- The kernel frees whole frames and none of its directory's, and leaves those alone when it writes. -/
inductive FrameStep (d : Nat) : Vm → FrameEvent → Vm → Prop
  | alloc (s : Vm) : FrameStep d s .alloc s.alloc.2
  | allocZero (s : Vm) : FrameStep d s .allocZero s.allocZero.2
  | allocContiguous (s : Vm) (n : Nat) : FrameStep d s (.allocContiguous n) (s.allocContiguous n).2
  | free {s : Vm} {f : Nat} (h : f ∉ kernelFrames s d) : FrameStep d s (.free (f * pageSize)) (s.free (f * pageSize))
  | fault {s s' : Vm} {addr : Nat} (h : kernelFault (d * pageSize) addr false s = some s') :
      FrameStep d s (.fault addr) s'
  | write {s : Vm} {m : Mem} (h : ∀ f ∈ kernelFrames s d, pool.cell { s with mem := m } f = pool.cell s f) :
      FrameStep d s (.write m) { s with mem := m }

/-- Every frame the step allocates is one of the first 4 MB; a fault may need one for a table besides the page. -/
def LowStep (d : Nat) (s : Vm) : FrameEvent → Prop
  | .alloc | .allocZero => LowFree s
  | .allocContiguous n => LowRun s n
  | .fault addr => LowFree s ∧ (target s d (pdIndex addr) = none → LowFree s.alloc.2)
  | .free _ | .write _ => True

theorem KernelDir.step (h : KernelDir s d) {e : FrameEvent} (hs : FrameStep d s e s') : KernelDir s' d := by
  cases hs with
  | alloc => rcases alloc_cases s with ⟨_, _, _, htake, _⟩ | ⟨_, _, _, htake⟩ <;> exact h.taken htake
  | allocZero =>
    rcases allocZero_cases s with ⟨_, _, _, htake, _⟩ | ⟨_, _, _, htake, _⟩ <;> exact h.taken htake
  | allocContiguous n =>
    refine h.congr (fun _ _ => rfl) fun f hf hfree => h.used f hf (mem_free.mpr ?_)
    rcases pmmAllocContiguous_cases s.pages n with heq | ⟨st, _, _, _, heq⟩
    · rw [mem_free, Vm.allocContiguous, heq] at hfree
      exact hfree
    · rw [mem_free, Vm.allocContiguous, heq, mem_freePages, tst_foldl_clr, Bool.and_eq_true] at hfree
      exact mem_freePages.mpr ⟨hfree.1, hfree.2.1⟩
  | free hnot =>
    have hgives := free_gives s ‹Nat›
    refine h.congr (fun f _ => hgives.same f (Set.notMem_empty f)) fun f hf hfree => ?_
    rcases (hgives.free_iff f).mp hfree with hfree | ⟨rfl, _⟩
    · exact h.used f hf hfree
    · exact hnot hf
  | fault hfault => exact h.fault hfault
  | write hsame => exact h.congr hsame h.used

/-- The machine after `pmm_init` and `paging_init`, which found two frames of the first 4 MB. -/
structure Booted (mmap : Option (List MmapEntry)) (kernelPhysEnd : Nat) (m : Mem) (slab : List Bool) (d : Nat)
    (s : Vm) : Prop where
  room : 2 ≤ ((freePages (pmmInit mmap kernelPhysEnd)).filter (· < windowSize)).card
  init : pagingInit ⟨pmmInit mmap kernelPhysEnd, m, slab⟩ = some (d * pageSize, s)

theorem alloc_ne_zero (h0 : 0 ∉ freePages s.pages) (hne : (freePages s.pages).Nonempty) : s.alloc.1 ≠ 0 := by
  rcases alloc_lowest s with ⟨_, hnone⟩ | ⟨f, hf, hp, _⟩
  · rw [hnone] at hne
    exact absurd hne Finset.not_nonempty_empty
  · have hf0 : f ≠ 0 := fun heq => h0 (heq ▸ hf)
    rw [hp, pageSize_eq]
    omega

theorem allocZero_pages (s : Vm) : s.allocZero.1 = s.alloc.1 ∧ s.allocZero.2.pages = s.alloc.2.pages := by
  rw [allocZero_eq]
  refine ⟨rfl, ?_⟩
  dsimp only
  split <;> rfl

theorem Booted.kernelDir {mmap : Option (List MmapEntry)} {kernelPhysEnd : Nat} {m : Mem} {slab : List Bool}
    (h : Booted mmap kernelPhysEnd m slab d s) : KernelDir s d := by
  generalize hs0 : (⟨pmmInit mmap kernelPhysEnd, m, slab⟩ : Vm) = s0
  have hroom := h.room
  have hinit := h.init
  have hpages : pmmInit mmap kernelPhysEnd = s0.pages := by rw [← hs0]
  have h0 := zero_notMem_pmmInit mmap kernelPhysEnd
  rw [hpages] at hroom h0
  rw [hs0] at hinit
  obtain ⟨f, g, hfg, hpair⟩ : ∃ f g, f ≠ g ∧ f ∈ freePages s0.pages ∧ g ∈ freePages s0.pages := by
    obtain ⟨f, hf, g, hg, hne⟩ := Finset.one_lt_card.mp hroom
    exact ⟨f, g, hne, (Finset.mem_filter.mp hf).1, (Finset.mem_filter.mp hg).1⟩
  have hfirst : s0.allocZero.1 ≠ 0 := by
    rw [(allocZero_pages s0).1]
    exact alloc_ne_zero h0 ⟨f, hpair.1⟩
  have hsecond : s0.allocZero.2.allocZero.1 ≠ 0 := by
    rw [(allocZero_pages _).1]
    rcases alloc_lowest s0 with ⟨_, hnone⟩ | ⟨k, _, _, herase, _⟩
    · have hf := hpair.1
      rw [hnone] at hf
      exact absurd hf (Finset.notMem_empty f)
    · rw [← (allocZero_pages s0).2] at herase
      refine alloc_ne_zero (fun hm => h0 ?_) ?_
      · rw [herase] at hm
        exact Finset.mem_of_mem_erase hm
      · rw [herase]
        by_cases hfk : f = k
        · exact ⟨g, Finset.mem_erase.mpr ⟨fun heq => hfg (hfk.trans heq.symm), hpair.2⟩⟩
        · exact ⟨f, Finset.mem_erase.mpr ⟨hfk, hpair.1⟩⟩
  obtain ⟨d', s', heq, hwin⟩ := pagingInit_spec hfirst hsecond
  rw [heq] at hinit
  have hpair := Option.some.inj hinit
  have hdd : d' = d := by
    have hmul := congrArg Prod.fst hpair
    exact Nat.eq_of_mul_eq_mul_right (by decide) hmul
  have hss : s' = s := congrArg Prod.snd hpair
  rw [← hdd, ← hss]
  exact hwin.kernelDir

/-- **Every frame is reached through its address exactly as long as the first 4 MB last.** From any memory map, after
    any run whose allocations were all served from the first 4 MB, the frame that `pmm_alloc` gives next, and each of
    the frames that `pmm_alloc_contiguous` gives, is mapped at its address if and only if the first 4 MB still have
    one, or as many in a row. -/
theorem direct_map_iff {mmap : Option (List MmapEntry)} {kernelPhysEnd : Nat} {m : Mem} {slab : List Bool} {s₀ : Vm}
    {es : List FrameEvent} (hboot : Booted mmap kernelPhysEnd m slab d s₀)
    (hrun : Run (fun s e s' => LowStep d s e ∧ FrameStep d s e s') s₀ es s) :
    (AllocMapped d s ↔ LowFree s) ∧ ∀ n, ContiguousMapped d s n ↔ LowRun s n := by
  have hdir : KernelDir s d :=
    hrun.invariant (I := (KernelDir · d)) (fun _ _ _ h hs => h.step hs.2) hboot.kernelDir
  exact ⟨allocMapped_iff hdir, contiguousMapped_iff hdir⟩

/-! ## 4. A machine with memory on both sides of 4 MB -/

/-- Three pages below 4 MB and two above. -/
def aroundWindow : List MmapEntry :=
  [⟨0x3FD000, 0x3000, MB2_MEM_AVAILABLE⟩, ⟨0x400000, 0x2000, MB2_MEM_AVAILABLE⟩]

theorem aroundWindow_free {j : Nat} : j ∈ freePages (pmmInit (some aroundWindow) 0x200000) ↔ 1021 ≤ j ∧ j < 1026 := by
  have hlow : ∀ {i}, MmapEntry.Offers ⟨0x3FD000, 0x3000, MB2_MEM_AVAILABLE⟩ i ↔ 1021 ≤ i ∧ i < 1024 := by
    intro i
    exact (and_iff_right rfl).trans List.mem_range'_1
  have hhigh : ∀ {i}, MmapEntry.Offers ⟨0x400000, 0x2000, MB2_MEM_AVAILABLE⟩ i ↔ 1024 ≤ i ∧ i < 1026 := by
    intro i
    exact (and_iff_right rfl).trans List.mem_range'_1
  have hmark : ∀ {i}, i ∈ markPages 0 (u32 (alignUp 0x200000 pageSize + pageSize * 16)) ↔ i < 528 := by
    intro i
    refine List.mem_range'_1.trans ⟨fun h => ?_, fun h => ⟨Nat.zero_le i, ?_⟩⟩
    · exact h.2
    · exact h
  rw [mem_pmmInit, hmark]
  simp only [aroundWindow, List.mem_cons, List.not_mem_nil, or_false, exists_eq_or_imp, exists_eq_left, hlow, hhigh]
  have hbits : bitmapBits = 262144 := rfl
  omega

/-- The lowest free frame is the one given. -/
theorem alloc_of_lowest (hf : f ∈ freePages s.pages) (hlow : ∀ g ∈ freePages s.pages, f ≤ g) :
    s.alloc.1 = f * pageSize ∧ ∀ g, g ∈ freePages s.alloc.2.pages ↔ g ≠ f ∧ g ∈ freePages s.pages := by
  rcases alloc_lowest s with ⟨_, hnone⟩ | ⟨k, hk, hp, herase, hleast⟩
  · rw [hnone] at hf
    exact absurd hf (Finset.notMem_empty f)
  · have hkf : k = f := Nat.le_antisymm (hleast f hf) (hlow k hk)
    subst hkf
    refine ⟨hp, fun g => ?_⟩
    rw [herase, Finset.mem_erase]

/-- The frames from `n` to `k` are free: the first of them is given. -/
theorem alloc_interval {k : Nat} (hn : n < k) (hfree : ∀ g, g ∈ freePages s.pages ↔ n ≤ g ∧ g < k) :
    s.allocZero.1 = n * pageSize ∧ s.alloc.1 = n * pageSize ∧
      (∀ g, g ∈ freePages s.allocZero.2.pages ↔ n + 1 ≤ g ∧ g < k) ∧
      ∀ g, g ∈ freePages s.alloc.2.pages ↔ n + 1 ≤ g ∧ g < k := by
  obtain ⟨hp, hleft⟩ := alloc_of_lowest ((hfree n).mpr ⟨Nat.le_refl n, hn⟩) fun g hg => ((hfree g).mp hg).1
  have hfree' : ∀ g, g ∈ freePages s.alloc.2.pages ↔ n + 1 ≤ g ∧ g < k := by
    intro g
    rw [hleft, hfree]
    omega
  obtain ⟨hfst, hpages⟩ := allocZero_pages s
  refine ⟨hfst.trans hp, hp, ?_, hfree'⟩
  rw [hpages]
  exact hfree'

/-- `paging_init` takes the first two frames. -/
theorem pagingInit_interval {k : Nat} (hn : n + 2 ≤ k) (hn0 : n ≠ 0)
    (hfree : ∀ g, g ∈ freePages s.pages ↔ n ≤ g ∧ g < k) :
    ∃ s', pagingInit s = some (n * pageSize, s') ∧ WindowDir s n s' ∧
      ∀ g, g ∈ freePages s'.pages ↔ n + 2 ≤ g ∧ g < k := by
  have hne : ∀ m, m ≠ 0 → m * pageSize ≠ 0 := fun m hm => Nat.mul_ne_zero hm (by decide)
  obtain ⟨hp1, _, hfree1, _⟩ := alloc_interval (by omega) hfree
  obtain ⟨hp2, _, hfree2, _⟩ := alloc_interval (by omega) hfree1
  obtain ⟨d, s', hinit, hwin⟩ := pagingInit_spec (s := s) (hp1 ▸ hne n hn0) (hp2 ▸ hne (n + 1) (by omega))
  obtain rfl : d = n := Nat.eq_of_mul_eq_mul_right (by decide) (hwin.dir.symm.trans hp1)
  rw [← hwin.pages] at hfree2
  exact ⟨s', hinit, hwin, hfree2⟩

/-- `paging_init` takes two of the three low pages, and an allocation the third. -/
theorem around_run : ∃ d s0 s, Booted (some aroundWindow) 0x200000 (fun _ => 0) [] d s0 ∧
    Run (fun s e s' => LowStep d s e ∧ FrameStep d s e s') s0 [.alloc] s ∧
    ∀ g, g ∈ freePages s.pages ↔ 1024 ≤ g ∧ g < 1026 := by
  generalize hs : (⟨pmmInit (some aroundWindow) 0x200000, fun _ => 0, []⟩ : Vm) = v
  have hv : ∀ g, g ∈ freePages v.pages ↔ 1021 ≤ g ∧ g < 1026 := by
    rw [← hs]
    exact fun g => aroundWindow_free
  have hroom : 2 ≤ ((freePages v.pages).filter (· < windowSize)).card := by
    refine Finset.one_lt_card.mpr ⟨1021, Finset.mem_filter.mpr ⟨(hv 1021).mpr (by decide), by decide⟩, 1022,
      Finset.mem_filter.mpr ⟨(hv 1022).mpr (by decide), by decide⟩, by decide⟩
  obtain ⟨s0, hinit, _, hv2⟩ := pagingInit_interval (by decide) (by decide) hv
  have hboot : Booted (some aroundWindow) 0x200000 (fun _ => 0) [] 1021 s0 := by
    rw [← hs] at hinit hroom
    exact ⟨hroom, hinit⟩
  have hlow : LowFree s0 := fun _ => ⟨1023, (hv2 1023).mpr (by decide), by decide⟩
  exact ⟨1021, s0, s0.alloc.2, hboot, .cons ⟨hlow, .alloc s0⟩ (.nil _), (alloc_interval (by decide) hv2).2.2.2⟩

/-- **The next frame lies at 4 MB**, and its address 0xC0400000 is not mapped to it. -/
theorem frame_past_window : ∃ d s₀ s, Booted (some aroundWindow) 0x200000 (fun _ => 0) [] d s₀ ∧
    Run (FrameStep d) s₀ [.alloc] s ∧ s.alloc.1 = 0x400000 ∧ physToVirt 0x400000 = 0xC0400000 ∧
    ¬ AllocMapped d s := by
  obtain ⟨d, s₀, s, hboot, hrun, hfree⟩ := around_run
  have hdir : KernelDir s d :=
    hrun.invariant (I := (KernelDir · d)) (fun _ _ _ h hs => h.step hs.2) hboot.kernelDir
  have halloc := (alloc_interval (by decide) hfree).2.1
  refine ⟨d, s₀, s, hboot, hrun.mono fun _ _ _ hs => hs.2, halloc, by decide, fun hmap => ?_⟩
  obtain ⟨g, hg, hlt⟩ := (allocMapped_iff hdir).mp hmap ⟨1024, (hfree 1024).mpr (by decide)⟩
  have hge := ((hfree g).mp hg).1
  exact absurd hlt (Nat.not_lt.mpr hge)

theorem direct_map_iff_around : ∃ d s₀ s, Booted (some aroundWindow) 0x200000 (fun _ => 0) [] d s₀ ∧
    Run (fun s e s' => LowStep d s e ∧ FrameStep d s e s') s₀ [.alloc] s ∧
    (AllocMapped d s ↔ LowFree s) ∧ ∀ n, ContiguousMapped d s n ↔ LowRun s n := by
  obtain ⟨d, s₀, s, hboot, hrun, _⟩ := around_run
  exact ⟨d, s₀, s, hboot, hrun, direct_map_iff hboot hrun⟩

end OreUnix.Vmm
