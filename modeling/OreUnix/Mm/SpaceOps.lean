/-
  Subject: THE CALLS ON ONE ADDRESS SPACE stay within the frames it owns and the free ones.

  `Keeps d s s'` -- from any set of frames in which the directory `d` is well formed and none of which is free, the
  step from `s` to `s'` is confined to that set and leads to another such set. Every loop of `mm_mmap` and `mm_munmap`
  is a chain of such steps; `mm_destroy` is confined, too, and gives back the frames of the directory
  (`pgdirDestroy_gives`).
-/
import OreUnix.Mm.PagingSpec

namespace OreUnix.Vmm

open ByteMem Pmm Bitmap FramePool

variable {s s' s'' : Vm} {d t u f g i e va : Nat} {F F' : Set Nat}
variable {N : Set Nat} {a addr di fin kernelPgdir len newBrk p pi x : Nat} {dis ps : List Nat}

/-! ## 1. Chains of steps -/

def Keeps (d : Nat) (s s' : Vm) : Prop :=
  ∀ F, Space s d F → (∀ f ∈ F, f ∉ pool.free s) → ∃ F', Confined pool F s s' F' ∧ Space s' d F'

theorem Keeps.refl (d : Nat) (s : Vm) : Keeps d s s := fun F h hF => ⟨F, .refl hF, h⟩

theorem Keeps.trans (h : Keeps d s s') (h' : Keeps d s' s'') : Keeps d s s'' := by
  intro F hspace hF
  obtain ⟨F1, hconf, hspace1⟩ := h F hspace hF
  obtain ⟨F2, hconf', hspace2⟩ := h' F1 hspace1 hconf.apart
  exact ⟨F2, hconf.trans hconf', hspace2⟩

theorem Space.taken (h : Space s d F) (hF : ∀ f ∈ F, f ∉ pool.free s) (htake : Takes pool ∅ N s s') : Space s' d F :=
  h.congr fun f hf => htake.keeps (hF f hf)

theorem Keeps.of_takes (h : Takes pool ∅ N s s') : Keeps d s s' := by
  intro F hspace hF
  exact ⟨F ∪ N, h.confined (Set.empty_subset F) hF, (hspace.taken hF h).mono Set.subset_union_left⟩

/-- A slab allocation has nothing to do with frames. -/
theorem slabAlloc_eq (s : Vm) : s.slabAlloc.2 = { s with slab := s.slabAlloc.2.slab } := by
  unfold Vm.slabAlloc
  split <;> rfl

theorem slabAlloc_keeps (d : Nat) (s : Vm) : Keeps d s s.slabAlloc.2 := by
  rw [slabAlloc_eq]
  exact Keeps.of_takes (Takes.write rfl fun _ _ => rfl)

/-! ## 2. Mapping a page -/

theorem pdIndex_lt (h : va < kernelVirtBase) : pdIndex va < userTables := by
  have h : va < 3221225472 := h
  have hu : userTables = 768 := rfl
  rw [pdIndex]
  omega

theorem ptIndex_lt (va : Nat) : ptIndex va < tableEntries := Nat.mod_lt _ (by decide)

theorem getPte_some (create : Bool) (ht : target s d (pdIndex va) = some t) :
    getPte (d * pageSize) va create s = (some (t * pageSize, ptIndex va), s) := by
  rw [getPte, if_pos (target_some ht).1, (target_some ht).2]

theorem getPte_none (ht : target s d (pdIndex va) = none) : getPte (d * pageSize) va false s = (none, s) := by
  rw [getPte, target_none.mp ht]
  rfl

/-- The bits of the directory entry of a new table. -/
def tableFlags : Nat := PTE_PRESENT ||| PTE_WRITE ||| PTE_USER

theorem getPte_create (ht : target s d (pdIndex va) = none) : getPte (d * pageSize) va true s =
      if s.allocZero.1 = 0 then (none, s.allocZero.2)
      else (some (s.allocZero.1, ptIndex va),
        setEntry s.allocZero.2 (d * pageSize) (pdIndex va) (s.allocZero.1 ||| tableFlags)) := by
  rw [getPte, target_none.mp ht]
  simp only [Bool.false_eq_true, if_false, if_true, tableFlags, Nat.or_assoc]

theorem pteFlags_bits (flags : Nat) : pteFlags flags < pageSize ∧ present (pteFlags flags) = true := by
  unfold pteFlags
  split <;> split <;> split <;> decide

theorem pteAddr_frame (f : Nat) : pteAddr (f * pageSize) = f * pageSize := by
  rw [pteAddr_eq, Nat.mul_div_cancel _ (by decide)]

/-- Entering a page in a table that is there. -/
theorem Space.mapInto (h : Space s d F) (hF : ∀ f ∈ F, f ∉ pool.free s) (hva : va < kernelVirtBase)
    (ht : target s d (pdIndex va) = some t) (hg : g < bitmapBits) (hgF : g ∉ F) (flags : Nat)
    (hgfree : g ∉ pool.free s) :
    ∃ F', Confined pool (F ∪ {g}) s (setEntry s (t * pageSize) (ptIndex va)
        (g * pageSize ||| pteFlags flags)) F' ∧
      Space (setEntry s (t * pageSize) (ptIndex va) (g * pageSize ||| pteFlags flags)) d F' := by
  obtain ⟨hlt, hp⟩ := pteFlags_bits flags
  have hapart : ∀ f ∈ F ∪ {g}, f ∉ pool.free s := fun f hf =>
    hf.elim (hF f) fun he => (Set.mem_singleton_iff.mp he) ▸ hgfree
  have htF : t ∈ F := h.table_mem (pdIndex_lt hva) ht
  have hwrite := (write_setEntry (s := s) (f := t) (e := g * pageSize ||| pteFlags flags)
    (ptIndex_lt va)).confined (F := F ∪ {g}) (Set.singleton_subset_iff.mpr (.inl htF)) hapart
  refine ⟨_, hwrite, h.setPte (pdIndex_lt hva) ht (ptIndex_lt va) (or_lt hg hlt) ?_ fun x hx => ?_⟩
  · exact fun x hx => .inl (.inl hx)
  · rw [entryFrame_or hlt hp] at hx
    cases hx
    exact ⟨.inl (.inr rfl), hgF⟩

/-- A new table is entered in the directory. -/
theorem Space.newTable (h : Space s d F) (hF : ∀ f ∈ F, f ∉ pool.free s) (hdi : di < userTables)
    (hnone : target s d di = none) (htake : Takes pool ∅ {u} s s') (hzero : pool.cell s' u = fun _ => 0) :
    Takes pool {d} {u} s (setEntry s' (d * pageSize) di (u * pageSize ||| tableFlags)) ∧
      Space (setEntry s' (d * pageSize) di (u * pageSize ||| tableFlags)) d (F ∪ {u}) ∧
      target (setEntry s' (d * pageSize) di (u * pageSize ||| tableFlags)) d di = some u := by
  have hu := htake.was_free u rfl
  have huF : u ∉ F := fun hm => hF u hm hu
  have hsame : ∀ f ∈ F, pool.cell s' f = pool.cell s f := fun f hf => htake.stays fun he => huF (he ▸ hf)
  have hlt : u * pageSize ||| tableFlags < 2 ^ 32 := or_lt (free_lt hu) (by decide)
  have hframe : entryFrame (u * pageSize ||| tableFlags) = some u := entryFrame_or (by decide) (by decide)
  refine ⟨?_, ?_, (target_setEntry_self hlt).trans hframe⟩
  · have hwrite := (htake.mono (Set.empty_subset {d})).trans
      ((write_setEntry (s := s') (f := d) (e := u * pageSize ||| tableFlags) (user_lt hdi)).mono
        Set.subset_union_left)
    rwa [Set.union_empty] at hwrite
  · have hempty : ∀ pi f, pi < tableEntries → target s' u pi = some f → False := by
      intro pi f hpi hf
      rw [target_zero hzero hpi] at hf
      cases hf
    refine (hsame |> h.congr).link hdi ?_ hlt hframe Set.subset_union_left ⟨.inr rfl, huF⟩
      (fun pi f hpi hf => (hempty pi f hpi hf).elim) fun pi pj f hpi _ hf _ => (hempty pi f hpi hf).elim
    exact (target_congr (hsame d h.dir_mem) (user_lt hdi)).trans hnone

/-- **`map_page`** with a frame of the caller's: the frame goes into the address space, or the call fails. -/
theorem mapPage_confined (h : Space s d F) (hF : ∀ f ∈ F, f ∉ pool.free s)
    (hva : va < kernelVirtBase) (hg : g < bitmapBits) (hgF : g ∉ F) (hgfree : g ∉ pool.free s)
    (flags : Nat) :
    ∃ F', Confined pool (F ∪ {g}) s (mapPage (d * pageSize) va (g * pageSize) flags s).2 F' ∧
      Space (mapPage (d * pageSize) va (g * pageSize) flags s).2 d F' := by
  have hapart : ∀ f ∈ F ∪ {g}, f ∉ pool.free s := fun f hf =>
    hf.elim (hF f) fun he => (Set.mem_singleton_iff.mp he) ▸ hgfree
  cases ht : target s d (pdIndex va) with
  | some t =>
    rw [mapPage, getPte_some true ht]
    dsimp only
    rw [pteAddr_frame]
    exact h.mapInto hF hva ht hg hgF flags hgfree
  | none =>
    rw [mapPage, getPte_create ht]
    rcases allocZero_cases s with ⟨N, _, h0, htake, _⟩ | ⟨u, hu0, hu, htake, hzero⟩
    · rw [if_pos h0]
      exact ⟨_, htake.confined (Set.empty_subset _) hapart, (h.taken hF htake).mono fun f hf => .inl (.inl hf)⟩
    · have hne : u * pageSize ≠ 0 := addr_ne ‹_›
      rw [hu, if_neg hne]
      dsimp only
      rw [pteAddr_frame]
      obtain ⟨htake', hspace, htar⟩ := h.newTable hF (pdIndex_lt hva) ht htake hzero
      have hgu : g ≠ u := fun he => hgfree (he ▸ htake.was_free u rfl)
      have hconf := htake'.confined (F := F ∪ {g}) (Set.singleton_subset_iff.mpr (.inl h.dir_mem)) hapart
      rw [Set.union_right_comm] at hconf
      obtain ⟨F', hconf', hspace'⟩ := hspace.mapInto (fun f hf => hconf.apart f (.inl hf)) hva htar hg
        (fun hm => hm.elim hgF hgu) flags (hconf.apart g (.inr rfl))
      exact ⟨F', hconf.trans hconf', hspace'⟩

/-- A fresh page mapped at `va`, as `mm_mmap` and the page fault handler do. -/
def mapFresh (pd va flags : Nat) (s : Vm) : Vm :=
  if s.allocZero.1 = 0 then s.allocZero.2 else (mapPage pd va s.allocZero.1 flags s.allocZero.2).2

theorem mapFresh_keeps (hva : va < kernelVirtBase) (flags : Nat) (s : Vm) :
    Keeps d s (mapFresh (d * pageSize) va flags s) := by
  intro F h hF
  unfold mapFresh
  rcases allocZero_cases s with ⟨N, _, h0, htake, _⟩ | ⟨g, hg0, hg, htake, _⟩
  · rw [if_pos h0]
    exact Keeps.of_takes htake F h hF
  · have hne : g * pageSize ≠ 0 := addr_ne ‹_›
    rw [hg, if_neg hne]
    have hgfree := htake.was_free g rfl
    have hconf := htake.confined (Set.empty_subset F) hF
    obtain ⟨F', hconf', hspace⟩ := mapPage_confined (h.taken hF htake)
      (fun f hf => hconf.apart f (.inl hf)) hva (free_lt hgfree) (fun hm => hF g hm hgfree)
      (htake.disjoint g rfl) flags
    exact ⟨F', hconf.trans hconf', hspace⟩

/-! ## 3. The calls that map -/

theorem mmapPages_keeps (hps : ∀ p ∈ ps, p < kernelVirtBase) (flags : Nat) (s : Vm) :
    Keeps d s (mmapPages (d * pageSize) flags ps s).2 := by
  induction ps generalizing s with
  | nil => exact Keeps.refl d s
  | cons p ps ih =>
    have hstep := mapFresh_keeps (d := d) (hps p (.head _)) flags s
    rw [mmapPages]
    dsimp only
    split
    · rename_i h0
      rwa [mapFresh, if_pos h0] at hstep
    · rename_i h0
      rw [mapFresh, if_neg h0] at hstep
      exact hstep.trans (ih (fun q hq => hps q (.tail _ hq)) _)

theorem pageAddrs_lt (h : p ∈ pageAddrs addr len) : p < u32 (addr + len) := by
  obtain ⟨i, hi, rfl⟩ := List.mem_map.mp h
  have hi := List.mem_range.mp hi
  rw [pageSize_eq] at hi ⊢
  omega

theorem alignUp_page (hx : x ≤ kernelVirtBase) :
    x ≤ alignUp x pageSize ∧ alignUp x pageSize < x + 4096 ∧ alignUp x pageSize % 4096 = 0 := by
  have hx : x ≤ 3221225472 := hx
  have hup : alignUp x pageSize = (x + 4095) / 4096 * 4096 := by
    rw [alignUp, pageSize_eq, u32_of_lt (by omega)]
    omega
  omega

/-- The pages of a range that starts with one and does not leave the user part. -/
theorem mem_pageAddrs {q : Nat} (haddr : addr % 4096 = 0) (hlen : len % 4096 = 0)
    (hfin : addr + len ≤ kernelVirtBase) :
    q ∈ pageAddrs addr len ↔ q % 4096 = 0 ∧ addr ≤ q ∧ q < addr + len := by
  have hfin : addr + len ≤ 3221225472 := hfin
  have hcount : (u32 (addr + len) - addr + (pageSize - 1)) / pageSize = len / 4096 := by
    rw [u32_of_lt (by omega), pageSize_eq]
    omega
  rw [pageAddrs, hcount, List.mem_map]
  constructor
  · intro hq
    obtain ⟨i, hi, rfl⟩ := hq
    have hi := List.mem_range.mp hi
    rw [pageSize_eq]
    omega
  · intro hq
    refine ⟨(q - addr) / 4096, List.mem_range.mpr ?_, ?_⟩
    · omega
    · rw [pageSize_eq]
      omega

variable {mm : MmStruct}

/-- The directory of an address space, as a frame. -/
def MmStruct.dir (mm : MmStruct) : Nat := mm.pgdir / pageSize

theorem dir_of_pgdir {mm : MmStruct} {x : Nat} (hx : mm.pgdir = x * pageSize) : mm.dir = x := by
  rw [MmStruct.dir, hx, Nat.mul_div_cancel _ (by decide)]

/-- The directory lies on a page boundary. -/
def MmStruct.Aligned (mm : MmStruct) : Prop := mm.pgdir = mm.dir * pageSize

/-- How `mm_mmap` ends when its loop ends with `r`. -/
structure MmapEnd (mm : MmStruct) (r : Bool × Vm) (res : Int × MmStruct × Vm) : Prop where
  vm : res.2.2 = if r.1 then r.2.slabAlloc.2 else r.2
  pgdir : res.2.1.pgdir = mm.pgdir
  brk : res.2.1.brk = mm.brk
  startBrk : res.2.1.startBrk = mm.startBrk
  ok : res.1 = 0 ↔ r.1 = true ∧ r.2.slabAlloc.1 = true

theorem mmMmap_end (mm : MmStruct) (addr len flags : Nat) (s : Vm) :
    MmapEnd mm (mmapPages mm.pgdir (mmapFlags flags) (pageAddrs addr (alignUp len pageSize)) s)
      (mmMmap mm addr len flags s) := by
  unfold mmMmap
  dsimp only
  generalize mmapPages mm.pgdir (mmapFlags flags) (pageAddrs addr (alignUp len pageSize)) s = r
  obtain ⟨_ | _, s1⟩ := r
  · exact ⟨rfl, rfl, rfl, rfl, (fun h => by cases h), fun h => by cases h.1⟩
  · dsimp only
    split
    · exact ⟨rfl, rfl, rfl, rfl, fun _ => ⟨rfl, ‹_›⟩, fun _ => rfl⟩
    · exact ⟨rfl, rfl, rfl, rfl, (fun h => by cases h), fun h => absurd h.2 ‹_›⟩

theorem mmMmap_keeps (hmm : mm.Aligned) (flags : Nat)
    (hlow : ∀ p ∈ pageAddrs addr (alignUp len pageSize), p < kernelVirtBase) (s : Vm) :
    Keeps mm.dir s (mmMmap mm addr len flags s).2.2 := by
  have hpages := mmapPages_keeps (d := mm.dir) hlow (mmapFlags flags) s
  rw [← hmm] at hpages
  rw [(mmMmap_end mm addr len flags s).vm]
  split
  · exact hpages.trans (slabAlloc_keeps mm.dir _)
  · exact hpages

theorem pageFault_keeps (hmm : mm.Aligned) (haddr : addr < kernelVirtBase) (isWrite isPresent : Bool) (s : Vm) :
    Keeps mm.dir s (pageFault mm addr isWrite isPresent s) := by
  unfold pageFault
  cases mmFindVma mm addr with
  | none => exact Keeps.refl mm.dir s
  | some vma =>
    dsimp only
    split
    · exact Keeps.refl mm.dir s
    · split
      · exact Keeps.refl mm.dir s
      · have hlow : alignDown addr pageSize < kernelVirtBase := (Nat.div_mul_le_self _ _).trans_lt haddr
        have hstep := mapFresh_keeps (d := mm.dir) hlow (vma.flags ||| VM_USER) s
        rw [← hmm] at hstep
        exact hstep

/-! ## 4. The calls that unmap -/

/-- A page leaves the address space. -/
theorem Space.clear (h : Space s d F) (hdi : di < userTables) (ht : target s d di = some t) (hi : i < tableEntries)
    (hf : target s t i = some f) :
    Space (setEntry s (t * pageSize) i 0) d (F \ {f}) := by
  have hat := frameAt_setPte h hdi ht hi (e := 0) (by decide)
  have hold : frameAt s d (.page di i) = some f := (frameAt_page hdi ht hi).trans hf
  have hrest : ∀ {k x}, frameAt (setEntry s (t * pageSize) i 0) d k = some x →
      frameAt s d k = some x ∧ k ≠ .page di i := by
    intro k x hk
    rw [hat] at hk
    split at hk
    · cases hk
    · exact ⟨hk, ‹_›⟩
  refine ⟨fun {k x} hk => ?_, fun hk hk' => h.inj (hrest hk).1 (hrest hk').1⟩
  obtain ⟨hk, hne⟩ := hrest hk
  refine ⟨h.owned hk, fun hx => hne (h.inj hk ?_)⟩
  rw [Set.mem_singleton_iff.mp hx]
  exact hold

/-- One round of the loop of `mm_munmap`. -/
def munmapPage (pd p : Nat) (s : Vm) : Vm :=
  unmapPage pd p (if virtToPhysPd pd p s ≠ 0 then s.free (pteAddr (virtToPhysPd pd p s)) else s)

theorem target_free (s : Vm) (p t i : Nat) : target (s.free p) t i = target s t i := rfl

theorem unmapPage_some (hdi : target s d (pdIndex va) = some t) (hf : target s t (ptIndex va) = some f) :
    unmapPage (d * pageSize) va s = setEntry s (t * pageSize) (ptIndex va) 0 := by
  rw [unmapPage, getPte_some false hdi]
  exact if_pos (target_some hf).1

theorem unmapPage_none (h : (target s d (pdIndex va)).bind (target s · (ptIndex va)) = none) :
    unmapPage (d * pageSize) va s = s := by
  cases hdi : target s d (pdIndex va) with
  | none => rw [unmapPage, getPte_none hdi]
  | some t =>
    rw [hdi] at h
    rw [unmapPage, getPte_some false hdi]
    exact if_neg (by rw [target_none.mp h]; decide)

theorem virtToPhysPd_some (hdi : target s d (pdIndex va) = some t)
    (hf : target s t (ptIndex va) = some f) :
    virtToPhysPd (d * pageSize) va s = f * pageSize ||| va % pageSize := by
  rw [virtToPhysPd, getPte_some false hdi]
  dsimp only
  rw [if_pos (target_some hf).1, (target_some hf).2]

theorem virtToPhysPd_none (h : (target s d (pdIndex va)).bind (target s · (ptIndex va)) = none) :
    virtToPhysPd (d * pageSize) va s = 0 := by
  cases hdi : target s d (pdIndex va) with
  | none => rw [virtToPhysPd, getPte_none hdi]
  | some t =>
    rw [hdi] at h
    rw [virtToPhysPd, getPte_some false hdi]
    exact if_neg (by rw [target_none.mp h]; decide)

theorem pteAddr_or (hx : x < pageSize) : pteAddr (f * pageSize ||| x) = f * pageSize := by
  have hx' : x < 4096 := hx
  rw [or_flags hx, pteAddr_eq, pageSize_eq]
  omega

theorem munmapPage_keeps (hva : va < kernelVirtBase) (s : Vm) : Keeps d s (munmapPage (d * pageSize) va s) := by
  intro F h hF
  unfold munmapPage
  cases hpage : (target s d (pdIndex va)).bind (target s · (ptIndex va)) with
  | none =>
    rw [virtToPhysPd_none hpage, if_neg (by decide), unmapPage_none hpage]
    exact Keeps.refl d s F h hF
  | some f =>
    obtain ⟨t, ht, hf⟩ := Option.bind_eq_some_iff.mp hpage
    have htF := h.table_mem (pdIndex_lt hva) ht
    have hfF : f ∈ F := h.owned ((frameAt_page (pdIndex_lt hva) ht (ptIndex_lt va)).trans hf)
    have hclear := h.clear (pdIndex_lt hva) ht (ptIndex_lt va) hf
    have hwrite := write_setEntry (s := s) (f := t) (e := 0) (ptIndex_lt va)
    rw [virtToPhysPd_some ht hf, pteAddr_or (Nat.mod_lt _ (by decide))]
    split
    · -- the frame is given back before its entry is cleared
      rw [unmapPage_some (s := s.free (f * pageSize)) ht hf]
      have hgives := free_gives s f
      have hsub : {g | g = f ∧ Real f} ⊆ F := by
        rintro g ⟨rfl, _⟩
        exact hfF
      have hconf := hgives.confined (Set.empty_subset F) hsub hF
      have hspace : Space (setEntry (s.free (f * pageSize)) (t * pageSize) (ptIndex va) 0) d (F \ {f}) :=
        hclear.congr fun _ _ => rfl
      refine ⟨F \ {g | g = f ∧ Real f}, ⟨hconf.within, hconf.apart, fun g hg _ => ?_⟩, ?_⟩
      · exact hwrite.same g (fun he => hg (Set.mem_singleton_iff.mp he ▸ htF)) (Set.notMem_empty g)
      · exact hspace.mono fun x (hx : x ∈ F \ {f}) => ⟨hx.1, fun hx' => hx.2 hx'.1⟩
    · rw [unmapPage_some ht hf]
      refine ⟨_, hwrite.confined (Set.singleton_subset_iff.mpr htF) hF, hclear.mono ?_⟩
      exact fun x hx => .inl hx.1

theorem munmapPages_keeps (hps : ∀ p ∈ ps, p < kernelVirtBase) (s : Vm) :
    Keeps d s (munmapPages (d * pageSize) ps s) := by
  induction ps generalizing s with
  | nil => exact Keeps.refl d s
  | cons p ps ih =>
    exact (munmapPage_keeps (hps p (.head _)) s).trans
      (ih (fun q hq => hps q (.tail _ hq)) _)

theorem mmMunmap_keeps (hmm : mm.Aligned) (hlow : ∀ p ∈ pageAddrs addr (alignUp len pageSize), p < kernelVirtBase)
    (s : Vm) :
    Keeps mm.dir s (mmMunmap mm addr len s).2 := by
  have hpages := munmapPages_keeps (d := mm.dir) hlow s
  rw [← hmm] at hpages
  exact hpages

/-- The pages between two addresses. -/
theorem pageAddrs_between (hfin : fin ≤ kernelVirtBase) (hp : p ∈ pageAddrs addr (alignUp (fin - addr) pageSize))
    (hle : addr ≤ fin) : p < fin := by
  have hfin : fin ≤ 3221225472 := hfin
  obtain ⟨i, hi, rfl⟩ := List.mem_map.mp hp
  have hi := List.mem_range.mp hi
  have hup : alignUp (fin - addr) pageSize = (fin - addr + 4095) / 4096 * 4096 := by
    rw [alignUp, pageSize_eq, u32_of_lt (by omega)]
    omega
  rw [hup, u32_of_lt (by omega), pageSize_eq] at hi
  rw [pageSize_eq]
  omega

/-- `mm_brk` maps the pages from the old end to the new one, or unmaps those from the new to the old. -/
theorem mmBrk_keeps_pages (hmm : mm.Aligned) (hfin : fin = alignUp newBrk pageSize)
    (hgrow : fin > mm.brk → ∀ p ∈ pageAddrs mm.brk (alignUp (fin - mm.brk) pageSize), p < kernelVirtBase)
    (hshrink : fin < mm.brk → ∀ p ∈ pageAddrs fin (alignUp (mm.brk - fin) pageSize), p < kernelVirtBase) (s : Vm) :
    Keeps mm.dir s (mmBrk mm newBrk s).2.2 := by
  unfold mmBrk
  rw [← hfin]
  dsimp only
  split
  · exact Keeps.refl mm.dir s
  · split
    · have hmap := mmMmap_keeps hmm (VM_READ ||| VM_WRITE) (hgrow ‹_›) s
      generalize mmMmap mm mm.brk (fin - mm.brk) (VM_READ ||| VM_WRITE) s = r at *
      split
      · exact hmap
      · exact hmap
    · split
      · exact mmMunmap_keeps hmm (hshrink ‹_›) s
      · exact Keeps.refl mm.dir s

theorem mmBrk_keeps (hmm : mm.Aligned) (hold : mm.brk ≤ kernelVirtBase)
    (hnew : alignUp newBrk pageSize ≤ kernelVirtBase) (s : Vm) :
    Keeps mm.dir s (mmBrk mm newBrk s).2.2 :=
  mmBrk_keeps_pages hmm rfl
    (fun _ p hp => (pageAddrs_between hnew hp (by omega)).trans_le hnew)
    (fun _ p hp => (pageAddrs_between hold hp (by omega)).trans_le hold) s

/-! ## 5. Stores -/

theorem cell_store {v : UInt8} (h : a / pageSize ≠ g) :
    pool.cell { s with mem := store s.mem a v } g = pool.cell s g := by
  funext ⟨o, ho⟩
  have ho : o < 4096 := ho
  have h : a / 4096 ≠ g := h
  refine store_of_ne _ _ _ ?_
  change g * 4096 + o ≠ a
  omega

theorem userWritable_present (h : userWritable e = true) : present e = true := by
  simp only [userWritable, Bool.and_eq_true] at h
  exact h.1.1

theorem target_of_present (h : present (entry s (t * pageSize) i) = true) :
    target s t i = some (entry s (t * pageSize) i / pageSize) := if_pos h

/-- A page is not the directory and not a table. -/
theorem Space.page_ne (h : Space s d F) (hf : frameAt s d (.page di pi) = some f) :
    d ≠ f ∧ ∀ dj t, dj < userTables → target s d dj = some t → t ≠ f := by
  refine ⟨?_, ?_⟩
  · rintro rfl
    have hk : Slot.dir = .page di pi := h.inj rfl hf
    cases hk
  · rintro dj t hdj ht rfl
    cases h.inj ((frameAt_table hdj).trans ht) hf

/-- A byte of a page is written. -/
theorem storePage_keeps (hslot : frameAt s d (.page di pi) = some f) (ha : a / pageSize = f) (v : UInt8) :
    Keeps d s { s with mem := store s.mem a v } := by
  intro F h hF
  have hsame : ∀ g, g ≠ f → pool.cell { s with mem := store s.mem a v } g = pool.cell s g :=
    fun g hg => cell_store (by rw [ha]; exact hg.symm)
  obtain ⟨hdf, htf⟩ := h.page_ne hslot
  have hat : frameAt { s with mem := store s.mem a v } d = frameAt s d :=
    funext (frameAt_congr (hsame d hdf) fun dj t hdj ht => hsame t (htf dj t hdj ht))
  have hwrite : Takes pool {f} ∅ s { s with mem := store s.mem a v } := Takes.write rfl fun g hg => hsame g hg
  refine ⟨F ∪ ∅, hwrite.confined (Set.singleton_subset_iff.mpr (h.owned hslot)) hF, ?_⟩
  rw [Set.union_empty]
  refine ⟨fun hk => ?_, fun hk hk' => ?_⟩
  · rw [hat] at hk
    exact h.owned hk
  · rw [hat] at hk hk'
    exact h.inj hk hk'

theorem userStore_keeps (hmm : mm.Aligned) (hva : va < kernelVirtBase) (v : UInt8) (s : Vm) :
    Keeps mm.dir s (userStore mm va v s) := by
  unfold userStore
  dsimp only
  split
  · rename_i hw
    rw [hmm] at hw ⊢
    have ht := target_of_present (userWritable_present hw.1)
    have hf := target_of_present (userWritable_present hw.2)
    refine storePage_keeps ((frameAt_page (pdIndex_lt hva) ht (ptIndex_lt va)).trans hf) ?_ v
    rw [pteAddr_eq, pteAddr_eq, pageSize_eq]
    omega
  · exact pageFault_keeps hmm hva true _ s

/-! ## 6. The end of an address space -/

theorem gives_union {G G' H : Set Nat} (h : Gives pool ∅ G s s') (h' : Gives pool ∅ G' s' s'')
    (hH : ∀ f, f ∈ H ↔ f ∈ G ∨ f ∈ G') : Gives pool ∅ H s s'' := by
  have heq : H = G ∪ G' := Set.ext hH
  rw [heq]
  exact h.trans h'

/-- Freeing does not touch memory, so the entries still to be read are those of the beginning. -/
theorem destroyPages_gives (is : List Nat) (s : Vm) : (destroyPages (t * pageSize) is s).mem = s.mem ∧
      Gives pool ∅ {f | Real f ∧ ∃ i ∈ is, target s t i = some f} s
        (destroyPages (t * pageSize) is s) := by
  induction is generalizing s with
  | nil =>
    refine ⟨rfl, ?_⟩
    have hnone : {f | Real f ∧ ∃ i ∈ ([] : List Nat), target s t i = some f} = ∅ := by
      simp
    rw [hnone]
    exact Gives.refl ..
  | cons i is ih =>
    rw [destroyPages]
    cases hf : target s t i with
    | none =>
      rw [target_none.mp hf]
      obtain ⟨hmem, hgives⟩ := ih s
      refine ⟨hmem, gives_union (Gives.refl pool ∅ s) hgives fun f => ?_⟩
      simp [hf]
    | some f =>
      rw [if_pos (target_some hf).1, (target_some hf).2]
      obtain ⟨hmem, hgives⟩ := ih (s.free (f * pageSize))
      refine ⟨hmem, gives_union (free_gives s f) hgives fun g => ?_⟩
      simp only [Set.mem_ofPred_eq, List.mem_cons, exists_eq_or_imp, hf, target_free, Option.some.injEq]
      constructor
      · rintro ⟨hg, rfl | hi⟩
        · exact .inl ⟨rfl, hg⟩
        · exact .inr ⟨hg, hi⟩
      · rintro (⟨rfl, hg⟩ | ⟨hg, hi⟩)
        · exact ⟨hg, .inl rfl⟩
        · exact ⟨hg, .inr hi⟩

theorem target_mem (h : s'.mem = s.mem) (t i : Nat) : target s' t i = target s t i := by
  rw [target, target, entry, entry, h]

/-- The frames of a table and of its pages. -/
def tableFrames (s : Vm) (d di : Nat) : Set Nat :=
  {f | target s d di = some f ∨
    ∃ t pi, target s d di = some t ∧ pi < tableEntries ∧ target s t pi = some f}

theorem destroyTables_cons_some (ht : target s d di = some t) :
    destroyTables (d * pageSize) (di :: dis) s = destroyTables (d * pageSize) dis
      ((destroyPages (t * pageSize) (List.range tableEntries) s).free (t * pageSize)) := by
  rw [destroyTables, if_pos (target_some ht).1, (target_some ht).2]

theorem destroyTables_cons_none (ht : target s d di = none) :
    destroyTables (d * pageSize) (di :: dis) s = destroyTables (d * pageSize) dis s := by
  rw [destroyTables, target_none.mp ht]
  simp only [Bool.false_eq_true, if_false]

/-- One table given back, and then the others. -/
theorem tableGiven {s1 s2 : Vm} (ht : target s d di = some t) (hmem : s1.mem = s.mem)
    (hpages : Gives pool ∅ {f | Real f ∧ ∃ i ∈ List.range tableEntries, target s t i = some f} s s1)
    (hrest : s2.mem = (s1.free (t * pageSize)).mem ∧
      Gives pool ∅ {f | Real f ∧ ∃ dj ∈ dis, f ∈ tableFrames (s1.free (t * pageSize)) d dj}
        (s1.free (t * pageSize)) s2) :
    s2.mem = s.mem ∧ Gives pool ∅ {f | Real f ∧ ∃ dj ∈ di :: dis, f ∈ tableFrames s d dj} s s2 := by
  have htar : ∀ x i, target (s1.free (t * pageSize)) x i = target s x i := fun x i => target_mem hmem x i
  refine ⟨hrest.1.trans hmem, gives_union (hpages.trans (free_gives s1 t)) hrest.2 fun g => ?_⟩
  simp only [Set.mem_ofPred_eq, Set.mem_union, List.mem_cons, exists_eq_or_imp, tableFrames, ht,
    htar, Option.some.injEq, List.mem_range]
  constructor
  · rintro ⟨hg, (rfl | ⟨t', pi, rfl, hpi, hp⟩) | hrest⟩
    · exact .inl (.inr ⟨rfl, hg⟩)
    · exact .inl (.inl ⟨hg, pi, hpi, hp⟩)
    · exact .inr ⟨hg, hrest⟩
  · rintro ((⟨hg, pi, hpi, hp⟩ | ⟨rfl, hg⟩) | ⟨hg, hrest⟩)
    · exact ⟨hg, .inl (.inr ⟨t, pi, rfl, hpi, hp⟩)⟩
    · exact ⟨hg, .inl (.inl rfl)⟩
    · exact ⟨hg, .inr hrest⟩

theorem destroyTables_gives (dis : List Nat) (s : Vm) : (destroyTables (d * pageSize) dis s).mem = s.mem ∧
      Gives pool ∅ {f | Real f ∧ ∃ di ∈ dis, f ∈ tableFrames s d di} s
        (destroyTables (d * pageSize) dis s) := by
  induction dis generalizing s with
  | nil =>
    refine ⟨rfl, ?_⟩
    have hnone : {f | Real f ∧ ∃ di ∈ ([] : List Nat), f ∈ tableFrames s d di} = ∅ := by
      simp
    rw [hnone]
    exact Gives.refl ..
  | cons di dis ih =>
    cases ht : target s d di with
    | none =>
      rw [destroyTables_cons_none ht]
      obtain ⟨hmem, hgives⟩ := ih s
      refine ⟨hmem, gives_union (Gives.refl pool ∅ s) hgives fun f => ?_⟩
      simp [tableFrames, ht]
    | some t =>
      rw [destroyTables_cons_some ht]
      obtain ⟨hmem, hpages⟩ := destroyPages_gives (t := t) (List.range tableEntries) s
      exact tableGiven ht hmem hpages (ih _)

/-- The frames of a directory. -/
def spaceFrames (s : Vm) (d : Nat) : Set Nat := {f | ∃ k, frameAt s d k = some f}

theorem mem_spaceFrames : f ∈ spaceFrames s d ↔ f = d ∨ ∃ di < userTables, f ∈ tableFrames s d di := by
  constructor
  · rintro ⟨k, hk⟩
    cases k with
    | dir => exact .inl (Option.some.inj hk).symm
    | table di =>
      rw [frameAt] at hk
      split at hk
      · exact .inr ⟨di, ‹_›, .inl hk⟩
      · cases hk
    | page di pi =>
      obtain ⟨hdi, hpi, t, ht, hp⟩ := table_of_page hk
      exact .inr ⟨di, hdi, .inr ⟨t, pi, ht, hpi, hp⟩⟩
  · rintro (rfl | ⟨di, hdi, ht | ⟨t, pi, ht, hpi, hp⟩⟩)
    · exact ⟨.dir, rfl⟩
    · exact ⟨.table di, (frameAt_table hdi).trans ht⟩
    · exact ⟨.page di pi, (frameAt_page hdi ht hpi).trans hp⟩

/-- **`pgdir_destroy`** gives back exactly the frames of the directory. -/
theorem pgdirDestroy_gives (hd0 : d ≠ 0) (hdk : d * pageSize ≠ kernelPgdir) (s : Vm) :
    Gives pool ∅ {f | Real f ∧ f ∈ spaceFrames s d} s (pgdirDestroy kernelPgdir (d * pageSize) s) := by
  have hne : ¬ (d * pageSize = 0 ∨ d * pageSize = kernelPgdir) := by
    rw [pageSize_eq] at *
    omega
  rw [pgdirDestroy, if_neg hne]
  obtain ⟨_, htables⟩ := destroyTables_gives (d := d) (List.range userTables) s
  refine gives_union htables (free_gives _ d) fun f => ?_
  simp only [Set.mem_ofPred_eq, mem_spaceFrames, List.mem_range]
  constructor
  · rintro ⟨hf, rfl | hrest⟩
    · exact .inr ⟨rfl, hf⟩
    · exact .inl ⟨hf, hrest⟩
  · rintro (⟨hf, hrest⟩ | ⟨rfl, hf⟩)
    · exact ⟨hf, .inr hrest⟩
    · exact ⟨hf, .inl rfl⟩

theorem mmDestroy_confined {kernelPgdir : Nat} (hmm : mm.Aligned) (h : Space s mm.dir F)
    (hF : ∀ f ∈ F, f ∉ pool.free s) : ∃ F', Confined pool F s (mmDestroy kernelPgdir mm s) F' := by
  rw [mmDestroy, hmm]
  by_cases hskip : mm.dir * pageSize = 0 ∨ mm.dir * pageSize = kernelPgdir
  · rw [pgdirDestroy, if_pos hskip]
    exact ⟨F, .refl hF⟩
  · rw [not_or] at hskip
    have hd0 : mm.dir ≠ 0 := fun h0 => hskip.1 (by rw [h0, Nat.zero_mul])
    refine ⟨_, (pgdirDestroy_gives hd0 hskip.2 s).confined (Set.empty_subset F) ?_ hF⟩
    rintro f ⟨_, k, hk⟩
    exact h.owned hk

end OreUnix.Vmm
