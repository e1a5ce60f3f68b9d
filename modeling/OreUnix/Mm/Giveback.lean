/-
  Subject: WHAT `pgdir_destroy` GIVES BACK: the frames of the directory, and with them the bitmap and its counter.

  * `Paired` -- a run of allocations and releases moves the counter with the number of set bits and leaves the bits
    beyond the bitmap alone;
  * `Paired.eq` -- with the same free frames the allocator is the same, bit for bit;
  * `pgdirDestroy_exact` -- a directory's own frames come back and no others; what was created or copied and then
    destroyed leaves no trace.
-/
import Mathlib.Data.Set.Lattice
import Mathlib.Order.CompletePartialOrder
import OreUnix.Mm.CloneFailure

namespace OreUnix.Vmm

open ByteMem Pmm Bitmap FramePool

variable {kernelPgdir : Nat}

/-! ## 1. The counter and the bitmap move together -/

/-- What allocations and releases of single frames do to the allocator. -/
structure Paired (p p' : Pages) : Prop where
  beyond : ∀ i, bitmapBits ≤ i → tst p'.bitmap i = tst p.bitmap i
  word : p.freePagesCount < 2 ^ 32 → p'.freePagesCount < 2 ^ 32
  count : u32 (p'.freePagesCount + (freePages p).card) = u32 (p.freePagesCount + (freePages p').card)

variable {p p' p'' : Pages}

theorem Paired.refl (p : Pages) : Paired p p := ⟨fun _ _ => rfl, id, rfl⟩

theorem Paired.trans (h : Paired p p') (h' : Paired p' p'') : Paired p p'' := by
  refine ⟨fun i hi => (h'.beyond i hi).trans (h.beyond i hi), fun hw => h'.word (h.word hw), ?_⟩
  have h1 := h.count
  have h2 := h'.count
  unfold u32 at *
  omega

theorem pmmAlloc_paired (p : Pages) : Paired p (pmmAlloc p).2 := by
  rcases pmmAlloc_cases p with ⟨heq, _⟩ | ⟨i, hi, heq⟩
  · rw [heq]
    exact .refl p
  · have hcard : (freePages ⟨clr p.bitmap i, sub32 p.freePagesCount 1⟩).card + 1 = (freePages p).card := by
      rw [freePages, ones_clr]
      exact Finset.card_erase_add_one hi
    rw [heq]
    refine ⟨fun j hj => ?_, fun _ => Nat.mod_lt _ (by decide), ?_⟩
    · have hne : j ≠ i := fun h => absurd (mem_freePages.mp hi).1 (by omega)
      simp [tst_clr, hne]
    · change u32 (sub32 p.freePagesCount 1 + (freePages p).card) =
        u32 (p.freePagesCount + (freePages ⟨clr p.bitmap i, sub32 p.freePagesCount 1⟩).card)
      rw [← hcard]
      generalize (freePages ⟨clr p.bitmap i, sub32 p.freePagesCount 1⟩).card = n
      rw [sub32, u32, u32]
      omega

theorem pmmFree_paired (p : Pages) (phys : Nat) : Paired p (pmmFree p phys) := by
  obtain ⟨e1, _, e3, e4⟩ := bitmapBits_eq
  unfold pmmFree
  dsimp only
  split
  · exact .refl p
  · rename_i hphys
    have hlt : phys / pageSize < bitmapBits := by
      rw [e3]
      omega
    split
    · exact .refl p
    · rename_i hset
      have hcard : (freePages ⟨set p.bitmap (phys / pageSize), u32 (p.freePagesCount + 1)⟩).card =
          (freePages p).card + 1 := by
        rw [freePages, ones_set _ _ _ hlt]
        exact Finset.card_insert_of_notMem fun hm => hset (mem_freePages.mp hm).2
      refine ⟨fun j hj => ?_, fun _ => Nat.mod_lt _ (by decide), ?_⟩
      · have hne : j ≠ phys / pageSize := by omega
        simp [tst_set, hne]
      · rw [hcard]
        change u32 (u32 (p.freePagesCount + 1) + (freePages p).card) =
          u32 (p.freePagesCount + ((freePages p).card + 1))
        rw [u32, u32, u32]
        omega

/-- **The same free frames are the same allocator**: every word of the bitmap and the counter. -/
theorem Paired.eq (h : Paired p p') (hfree : freePages p' = freePages p) (hword : p.freePagesCount < 2 ^ 32) :
    p' = p := by
  have hbit : ∀ i, tst p'.bitmap i = tst p.bitmap i := fun i => by
    by_cases hi : i < bitmapBits
    · have hiff : i ∈ freePages p' ↔ i ∈ freePages p := by rw [hfree]
      rw [mem_freePages, mem_freePages, and_iff_right hi, and_iff_right hi] at hiff
      exact Bool.eq_iff_iff.mpr hiff
    · exact h.beyond i (by omega)
  have hbits : p'.bitmap = p.bitmap := by
    funext w
    refine BitVec.eq_of_getLsbD_eq fun l hl => ?_
    have hw := hbit (32 * w + l)
    rwa [tst, tst, show (32 * w + l) / 32 = w by omega, show (32 * w + l) % 32 = l by omega] at hw
  have hcount : p'.freePagesCount = p.freePagesCount := by
    have h1 := h.count
    have h2 := h.word hword
    rw [hfree] at h1
    unfold u32 at h1
    omega
  cases p
  cases p'
  simp only at hbits hcount
  rw [hbits, hcount]

/-! ## 2. The functions of vmm.c -/

variable {s : Vm} {d : Nat}

/-- The functions of vmm.c change the allocator by allocations and releases of single frames. -/
theorem accessKeeps_paired (p : Pages) : AccessKeeps fun s => Paired p s.pages :=
  ⟨fun {s} h => h.trans (pmmAlloc_paired s.pages),
    fun {s} phys h => h.trans (pmmFree_paired s.pages phys), fun _ h => h⟩

theorem pgdirDestroy_paired (kernelPgdir pd : Nat) (s : Vm) : Paired s.pages (pgdirDestroy kernelPgdir pd s).pages :=
  (accessKeeps_paired s.pages).pgdirDestroy kernelPgdir pd (.refl _)

theorem pgdirCreate_paired (kernelPgdir : Nat) (s : Vm) : Paired s.pages (pgdirCreate kernelPgdir s).2.pages :=
  (accessKeeps_paired s.pages).pgdirCreate kernelPgdir (.refl _)

theorem pgdirClone_paired (kernelPgdir src : Nat) (s : Vm) : Paired s.pages (pgdirClone kernelPgdir src s).2.pages :=
  (accessKeeps_paired s.pages).pgdirClone kernelPgdir src (.refl _)

/-! ## 3. What comes back -/

/-- A directory in frame `d` whose user tables and user pages are distinct frames handed out by the allocator. -/
structure OwnFrames (s : Vm) (d : Nat) : Prop where
  distinct : ∀ {k k' f}, frameAt s d k = some f → frameAt s d k' = some f → k = k'
  allocated : ∀ {k f}, frameAt s d k = some f → Real f ∧ f ∉ pool.free s

theorem OwnFrames.space (h : OwnFrames s d) : Space s d (spaceFrames s d) := ⟨fun hk => ⟨_, hk⟩, h.distinct⟩

theorem OwnFrames.apart (h : OwnFrames s d) : ∀ f ∈ spaceFrames s d, f ∉ pool.free s := by
  rintro f ⟨k, hk⟩
  exact (h.allocated hk).2

/-- The frames a directory owns become free, and these alone. -/
theorem pgdirDestroy_free (h : OwnFrames s d) (hdk : d * pageSize ≠ kernelPgdir) :
    pool.free (pgdirDestroy kernelPgdir (d * pageSize) s) = pool.free s ∪ spaceFrames s d := by
  have hd0 : d ≠ 0 := (@OwnFrames.allocated s d h .dir d rfl).1.1
  ext f
  rw [(pgdirDestroy_gives hd0 hdk s).free_iff, Set.mem_ofPred_eq, Set.mem_union]
  refine or_congr_right ⟨fun hf => hf.2, fun hf => ⟨?_, hf⟩⟩
  obtain ⟨k, hk⟩ := hf
  exact (h.allocated hk).1

/-- What was taken and is destroyed with nothing left out restores the allocator. -/
theorem restored_pages {s1 : Vm} {N : Set Nat} (hd0 : d ≠ 0) (hdk : d * pageSize ≠ kernelPgdir)
    (hzero : ∀ f ∈ N, f ≠ 0) (hspace : Space s1 d ({d} ∪ N)) (hall : ∀ f ∈ N, ∃ k, frameAt s1 d k = some f)
    (htake : Takes pool ∅ ({d} ∪ N) s s1) (hpair : Paired s.pages s1.pages)
    (hword : s.pages.freePagesCount < 2 ^ 32) :
    (pgdirDestroy kernelPgdir (d * pageSize) s1).pages = s.pages := by
  have hback := destroyed_partly hd0 hdk hzero hspace hall htake (Takes.refl pool ∅ s1)
  refine (hpair.trans (pgdirDestroy_paired kernelPgdir (d * pageSize) s1)).eq ?_ hword
  ext f
  rw [← mem_free, hback f, mem_free]
  simp

theorem create_destroy (hk : ∀ f ∈ pool.free s, f * pageSize ≠ kernelPgdir) (hword : s.pages.freePagesCount < 2 ^ 32)
    (hok : (pgdirCreate kernelPgdir s).1 ≠ 0 ∨ 0 ∉ pool.free s) :
    (pgdirDestroy kernelPgdir (pgdirCreate kernelPgdir s).1 (pgdirCreate kernelPgdir s).2).pages = s.pages := by
  have hpair := pgdirCreate_paired kernelPgdir s
  rcases pgdirCreate_cases kernelPgdir s with ⟨hfail, _, N, hN, htake⟩ | ⟨d', hd0, hd, htake, hnone⟩
  · -- no frame: the address 0 is not destroyed
    have h0 := hok.resolve_left fun h => h hfail
    have htake := Takes.of_none htake hN h0
    rw [hfail, pgdirDestroy, if_pos (.inl rfl)]
    refine hpair.eq ?_ hword
    ext f
    rw [← mem_free, htake.free_iff, mem_free]
    simp
  · rw [hd]
    have hspace : Space (pgdirCreate kernelPgdir s).2 d' ({d'} ∪ ∅) := by
      rw [Set.union_empty]
      exact .empty hnone
    exact restored_pages hd0 (hk d' (htake.was_free d' rfl)) (by simp) hspace (by simp)
      (by rwa [Set.union_empty]) hpair hword

theorem clone_destroy {R : Set Nat} (hsrc : Space s d R) (hR : ∀ f ∈ R, f ∉ pool.free s)
    (hk : ∀ f ∈ pool.free s, f * pageSize ≠ kernelPgdir) (hword : s.pages.freePagesCount < 2 ^ 32)
    (hok : (pgdirClone kernelPgdir (d * pageSize) s).1 ≠ 0) :
    (pgdirDestroy kernelPgdir (pgdirClone kernelPgdir (d * pageSize) s).1
      (pgdirClone kernelPgdir (d * pageSize) s).2).pages = s.pages := by
  have hpair := pgdirClone_paired kernelPgdir (d * pageSize) s
  generalize hrun : pgdirClone kernelPgdir (d * pageSize) s = r at *
  obtain ⟨q, s1⟩ := r
  obtain ⟨d', N, rfl, htake, hzero, hspace, hall, _⟩ := pgdirClone_spec hsrc hR hrun hok
  have hmem : d' ∈ N := hspace.dir_mem
  have hN : ({d'} ∪ N : Set Nat) = N := Set.union_eq_right.mpr (Set.singleton_subset_iff.mpr hmem)
  exact restored_pages (hzero d' hmem) (hk d' (htake.was_free d' hmem)) hzero (by rwa [hN]) hall
    (by rwa [hN]) hpair hword

/-- **`pgdir_destroy` gives back what the directory owns**: its frame, its user tables and their pages become free and
    nothing else, whatever the upper entries lead to; a directory that was created or copied is given back without a
    trace in the bitmap or its counter. -/
theorem pgdirDestroy_exact {kernelPgdir : Nat} (hk : ∀ f ∈ pool.free s, f * pageSize ≠ kernelPgdir)
    (hword : s.pages.freePagesCount < 2 ^ 32) :
    (∀ d, OwnFrames s d → d * pageSize ≠ kernelPgdir →
      pool.free (pgdirDestroy kernelPgdir (d * pageSize) s) = pool.free s ∪ spaceFrames s d ∧
        Disjoint (pool.free s) (spaceFrames s d) ∧
        ∀ di f, userTables ≤ di → f ∈ tableFrames s d di → f ∉ spaceFrames s d →
          (f ∈ pool.free (pgdirDestroy kernelPgdir (d * pageSize) s) ↔ f ∈ pool.free s)) ∧
    (∀ d, OwnFrames s d → (pgdirClone kernelPgdir (d * pageSize) s).1 ≠ 0 →
      (pgdirDestroy kernelPgdir (pgdirClone kernelPgdir (d * pageSize) s).1
        (pgdirClone kernelPgdir (d * pageSize) s).2).pages = s.pages) ∧
    ((pgdirCreate kernelPgdir s).1 ≠ 0 ∨ 0 ∉ pool.free s →
      (pgdirDestroy kernelPgdir (pgdirCreate kernelPgdir s).1 (pgdirCreate kernelPgdir s).2).pages =
        s.pages) := by
  refine ⟨fun d hd hdk => ?_, fun d hd hok => clone_destroy hd.space hd.apart hk hword hok,
    create_destroy hk hword⟩
  have hfree := pgdirDestroy_free hd hdk
  refine ⟨hfree, ?_, fun di f _ _ hout => ?_⟩
  · exact Set.disjoint_right.mpr hd.apart
  · rw [hfree, Set.mem_union, or_iff_left hout]

/-- The directory with one page and four free frames: destroyed, and copied and destroyed. -/
theorem onePage_given_back :
    pool.free (pgdirDestroy 0 (1 * pageSize) (scarce 0xF0)) =
        pool.free (scarce 0xF0) ∪ spaceFrames (scarce 0xF0) 1 ∧
      (pgdirClone 0 (1 * pageSize) (scarce 0xF0)).1 ≠ 0 ∧
      (pgdirDestroy 0 (pgdirClone 0 (1 * pageSize) (scarce 0xF0)).1
        (pgdirClone 0 (1 * pageSize) (scarce 0xF0)).2).pages = (scarce 0xF0).pages ∧
      (pgdirDestroy 0 (pgdirCreate 0 (scarce 0xF0)).1 (pgdirCreate 0 (scarce 0xF0)).2).pages =
        (scarce 0xF0).pages := by
  obtain ⟨hz, hpos⟩ := @scarce_pos 0xF0 (by decide)
  have hspace : Space (scarce 0xF0) 1 ({1} ∪ {2} ∪ {3}) := onePage_space.congr fun _ _ => rfl
  have hapart : ∀ f ∈ ({1} ∪ {2} ∪ {3} : Set Nat), Real f ∧ f ∉ pool.free (scarce 0xF0) := by
    rintro f ((rfl | rfl) | rfl) <;>
      exact ⟨⟨by decide, by decide⟩, fun hf => absurd (mem_scarce.mp hf).2 (by decide)⟩
  have hown : OwnFrames (scarce 0xF0) 1 := ⟨hspace.inj, fun hk => hapart _ (hspace.owned hk)⟩
  have hframes : frames (scarce 0xF0) = 4 := (frames_scarce _).trans (by decide)
  have hok : (pgdirClone 0 (1 * pageSize) (scarce 0xF0)).1 ≠ 0 := by
    rw [pgdirClone_iff hspace (fun f hf => (hapart f hf).2) hz, spaceCount_scarce, hframes]
    decide
  obtain ⟨hdestroy, hclone, hcreate⟩ := @pgdirDestroy_exact (scarce 0xF0) 0 hpos
    (show (0 : Nat) < 2 ^ 32 by decide)
  exact ⟨(hdestroy 1 hown (by decide)).1, hok, hclone 1 hown hok, hcreate (.inr hz)⟩

end OreUnix.Vmm
