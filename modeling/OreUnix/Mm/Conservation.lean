/-
  Subject: NO FRAME IS LOST: what an address space took between `mm_create` and `mm_destroy`, and what it gives back.

  * `Exact` -- the frames taken from those free at the start are exactly the ones in the places of the address space,
    each in one place;
  * `MmCall.Tidy` -- the pages a call maps are not mapped yet, and memory does not run out between the frame of a page
    and that of its table;
  * `frames_conserved` -- tidy calls lose nothing;
  * `remap_loses` -- a page mapped twice is lost.
-/
import OreUnix.Mm.CloneCount
import OreUnix.Mm.Isolation
import OreUnix.Mm.MapSpec

namespace OreUnix.Vmm

open ByteMem Pmm Bitmap FramePool Lts

variable {s s' : Vm} {mm mm' : MmStruct} {d t u f g i va : Nat} {F N A W : Set Nat}
variable {addr kernelPgdir len : Nat} {mm₀ : MmStruct} {ps : List Nat} {s₀ s₁ : Vm}

/-! ## 1. The frames of an address space -/

/-- Of the frames `A` that were free, those not free now are the ones in the address space, each in exactly one place.
    -/
structure Exact (A : Set Nat) (s : Vm) (d : Nat) : Prop where
  distinct : ∀ {k k' f}, frameAt s d k = some f → frameAt s d k' = some f → k = k'
  was_free : ∀ {k f}, frameAt s d k = some f → f ∈ A
  rest : ∀ f, f ∈ pool.free s ↔ f ∈ A ∧ f ∉ spaceFrames s d

theorem Exact.space (h : Exact A s d) : Space s d (spaceFrames s d) := ⟨fun hk => ⟨_, hk⟩, h.distinct⟩

theorem Exact.apart (h : Exact A s d) : ∀ f ∈ spaceFrames s d, f ∉ pool.free s :=
  fun f hf hfree => ((h.rest f).mp hfree).2 hf

/-- Each frame that was taken is in exactly one place. -/
theorem Exact.unique (h : Exact A s d) (hA : f ∈ A) (hf : f ∉ pool.free s) : ∃! k, frameAt s d k = some f := by
  have hin : f ∈ spaceFrames s d := Classical.byContradiction fun hout => hf ((h.rest f).mpr ⟨hA, hout⟩)
  obtain ⟨k, hk⟩ := hin
  exact ⟨k, hk, fun k' hk' => h.distinct hk' hk⟩

/-- No frame taken, no place changed. -/
theorem Exact.congr (h : Exact A s d) (hat : ∀ k, frameAt s' d k = frameAt s d k)
    (hfree : ∀ f, f ∈ pool.free s' ↔ f ∈ pool.free s) : Exact A s' d := by
  have hframes : spaceFrames s' d = spaceFrames s d := by
    ext f
    exact exists_congr fun k => by rw [hat]
  refine ⟨fun hk hk' => ?_, fun hk => ?_, fun f => ?_⟩
  · rw [hat] at hk hk'
    exact h.distinct hk hk'
  · rw [hat] at hk
    exact h.was_free hk
  · rw [hfree, hframes]
    exact h.rest f

/-- **A page that was not mapped is mapped.** -/
theorem Exact.mapped (h : Exact A s d) (hva : va < kernelVirtBase) (hm : PageMapped s d va g N s')
    (hnone : frameAt s d (pageSlot va) = none) : Exact A s' d := by
  have hspace := hm.space h.space h.apart hva
  have hframes : ∀ f, f ∈ spaceFrames s' d ↔ f ∈ spaceFrames s d ∨ f ∈ N := by
    intro f
    constructor
    · intro hf
      obtain ⟨k, hk⟩ := hf
      exact hspace.owned hk
    · intro hf
      rcases hf with ⟨k, hk⟩ | hf
      · refine ⟨k, hm.stays hva hk fun heq => ?_⟩
        rw [heq, hnone] at hk
        cases hk
      · exact hm.placed hva hf
  refine ⟨hspace.inj, fun {k f} hk => ?_, fun f => ?_⟩
  · rcases (hframes f).mp ⟨k, hk⟩ with ⟨k', hk'⟩ | hf
    · exact h.was_free hk'
    · exact ((h.rest f).mp (hm.takes.was_free f hf)).1
  · rw [hm.takes.free_iff, h.rest, hframes, not_or, and_assoc]

/-- **A page is unmapped.** -/
theorem Exact.unmapped (h : Exact A s d) (h0 : 0 ∉ A) (hA : ∀ f ∈ A, f < bitmapBits) (hva : va < kernelVirtBase) :
    Exact A (munmapPage (d * pageSize) va s) d := by
  cases hf : frameAt s d (pageSlot va) with
  | none =>
    rw [munmapPage_none hf hva]
    exact h
  | some f =>
    have hreal : Real f := ⟨fun heq => h0 (heq ▸ h.was_free hf), hA f (h.was_free hf)⟩
    obtain ⟨hfree, hat⟩ := munmapPage_some h.space hf hreal
    have hkept : ∀ {k x}, frameAt (munmapPage (d * pageSize) va s) d k = some x →
        k ≠ pageSlot va ∧ frameAt s d k = some x := by
      intro k x hk
      rw [hat] at hk
      split at hk
      · cases hk
      · exact ⟨‹_›, hk⟩
    refine ⟨fun hk hk' => h.distinct (hkept hk).2 (hkept hk').2, fun hk => h.was_free (hkept hk).2, fun x => ?_⟩
    rw [hfree, h.rest]
    constructor
    · intro hx
      rcases hx with ⟨hxA, hout⟩ | rfl
      · refine ⟨hxA, fun hin => ?_⟩
        obtain ⟨k, hk⟩ := hin
        exact hout ⟨k, (hkept hk).2⟩
      · refine ⟨h.was_free hf, fun hin => ?_⟩
        obtain ⟨k, hk⟩ := hin
        exact (hkept hk).1 (h.distinct (hkept hk).2 hf)
    · intro hx
      by_cases hxf : x = f
      · exact .inr hxf
      · refine .inl ⟨hx.1, fun hin => ?_⟩
        obtain ⟨k, hk⟩ := hin
        have hne : k ≠ pageSlot va := fun heq => by
          rw [heq, hf] at hk
          exact hxf (Option.some.inj hk).symm
        exact hx.2 ⟨k, by rw [hat, if_neg hne]; exact hk⟩

/-- **The address space is destroyed**: every frame is back. -/
theorem Exact.destroyed (h : Exact A s d) (h0 : 0 ∉ A) (hA : ∀ f ∈ A, f < bitmapBits)
    (hd : d * pageSize ≠ kernelPgdir) : pool.free (pgdirDestroy kernelPgdir (d * pageSize) s) = A := by
  have hd0 : d ≠ 0 := fun heq => h0 (heq ▸ h.was_free (k := .dir) rfl)
  ext f
  rw [(pgdirDestroy_gives hd0 hd s).free_iff, h.rest]
  constructor
  · intro hf
    rcases hf with hf | ⟨_, k, hk⟩
    · exact hf.1
    · exact h.was_free hk
  · intro hf
    by_cases hin : f ∈ spaceFrames s d
    · exact .inr ⟨⟨fun heq => h0 (heq ▸ hf), hA f hf⟩, hin⟩
    · exact .inl ⟨hf, hin⟩

/-! ## 2. Loops over pages -/

/-- With `n` frames left and the tables `tab` there, each page gets its frame and its table's, or the loop ends before
    the page: it does not happen that there is one for the page and none for the table. -/
def Roomy : (Nat → Bool) → Nat → List Nat → Prop
  | _, _, [] => True
  | tab, n, p :: ps =>
    n = 0 ∨ if tab (pdIndex p) then Roomy tab (n - 1) ps
      else n ≠ 1 ∧ Roomy (Function.update tab (pdIndex p) true) (n - 2) ps

/-- The user tables that are there. -/
def hasTable (s : Vm) (d di : Nat) : Bool := (frameAt s d (.table di)).isSome

theorem hasTable_eq (hva : va < kernelVirtBase) : hasTable s d (pdIndex va) = (target s d (pdIndex va)).isSome := by
  rw [hasTable, frameAt_table (pdIndex_lt hva)]

theorem frames_take_two (h : Takes pool W ({g} ∪ {u}) s s') (hne : u ≠ g) : frames s' + 2 = frames s := by
  have herase : freePages s'.pages = ((freePages s.pages).erase g).erase u := by
    refine Finset.ext fun f => ?_
    rw [← mem_free, h.free_iff, mem_free, Set.mem_union, not_or, Set.mem_singleton_iff, Set.mem_singleton_iff,
      Finset.mem_erase, Finset.mem_erase]
    exact ⟨fun hf => ⟨hf.2.2, hf.2.1, hf.1⟩, fun hf => ⟨hf.2.2, hf.2.1, hf.1⟩⟩
  have hg := mem_free.mp (h.was_free g (.inl rfl))
  have hu := mem_free.mp (h.was_free u (.inr rfl))
  have h1 := Finset.card_erase_add_one hg
  have h2 := Finset.card_erase_add_one (Finset.mem_erase.mpr ⟨hne, hu⟩)
  rw [frames, frames, herase]
  omega

theorem PageMapped.cost_le (h : PageMapped s d va g N s') : frames s ≤ frames s' + 2 := by
  rcases h.table with ⟨hN, _⟩ | ⟨u, hN, hug, _⟩
  · have hone := frames_take (hN ▸ h.takes)
    omega
  · have htwo := frames_take_two (hN ▸ h.takes) hug
    omega

theorem PageMapped.roomy (hm : PageMapped s d va g N s') (hva : va < kernelVirtBase)
    (h : Roomy (hasTable s d) (frames s) (va :: ps)) : Roomy (hasTable s' d) (frames s') ps := by
  have htab : ∀ di, di ≠ pdIndex va → hasTable s' d di = hasTable s d di := by
    intro di hdi
    rw [hasTable, hasTable, hm.rest]
    · exact fun heq => by cases heq
    · exact fun heq => hdi (Slot.table.inj heq)
  rw [Roomy, hasTable_eq hva] at h
  rcases hm.table with ⟨hN, hsome, hsame⟩ | ⟨u, hN, hug, hnone, hu⟩
  · have hframes := frames_take (hN ▸ hm.takes)
    have htab' : hasTable s' d = hasTable s d := by
      funext di
      by_cases hdi : di = pdIndex va
      · rw [hdi, hasTable_eq hva, hasTable_eq hva, hsame]
      · exact htab di hdi
    rw [if_pos hsome] at h
    have hleft : frames s' = frames s - 1 := by omega
    rw [htab', hleft]
    exact h.resolve_left (by omega)
  · have hframes := frames_take_two (hN ▸ hm.takes) hug
    have htab' : hasTable s' d = Function.update (hasTable s d) (pdIndex va) true := by
      funext di
      by_cases hdi : di = pdIndex va
      · rw [hdi, Function.update_self, hasTable_eq hva, hu]
        rfl
      · rw [Function.update_of_ne hdi]
        exact htab di hdi
    rw [hnone] at h
    have hleft : frames s' = frames s - 2 := by omega
    rw [htab', hleft]
    exact (h.resolve_left (by omega)).2

/-- With room for the tables, a page that gets a frame is mapped. -/
theorem mapFresh_roomy (h : Space s d F) (hF : ∀ f ∈ F, f ∉ pool.free s) (hz : 0 ∉ pool.free s)
    (hva : va < kernelVirtBase) (hroom : Roomy (hasTable s d) (frames s) (va :: ps)) (flags : Nat)
    (hne : s.allocZero.1 ≠ 0) : ∃ g N, PageMapped s d va g N (mapFresh (d * pageSize) va flags s) := by
  rcases mapFresh_cases h hF hva flags with ⟨hfail, _⟩ | ⟨g, N, _, _, hm⟩ | ⟨_, htab, hempty, g, N, hN, htake⟩
  · exact absurd hfail hne
  · exact ⟨g, N, hm⟩
  · -- the case the condition excludes: the last free frame went to the page
    have hN0 : ∀ f, f ∉ N := fun f hf => hz (Set.mem_singleton_iff.mp (hN hf) ▸ htake.was_free f (.inr hf))
    have hNe : N = ∅ := Set.eq_empty_of_forall_notMem hN0
    rw [hNe, Set.union_empty] at htake
    have hone := frames_take htake
    rw [frames_eq_zero (hempty hz)] at hone
    rw [Roomy, hasTable_eq hva, htab] at hroom
    rcases hroom with hroom | hroom
    · omega
    · exact absurd hone.symm hroom.1

/-- With no frame free, or enough of them, a fresh page is mapped or nothing happens. -/
theorem Exact.mapFresh (h : Exact A s d) (h0 : 0 ∉ A) (hva : va < kernelVirtBase)
    (hnone : frameAt s d (pageSlot va) = none) (hroom : Roomy (hasTable s d) (frames s) (va :: ps)) (flags : Nat) :
    Exact A (mapFresh (d * pageSize) va flags s) d ∧
      (s.allocZero.1 ≠ 0 → ∃ g N, PageMapped s d va g N (mapFresh (d * pageSize) va flags s)) := by
  have hz : 0 ∉ pool.free s := fun hm => h0 ((h.rest 0).mp hm).1
  have hmapped := mapFresh_roomy h.space h.apart hz hva hroom flags
  refine ⟨?_, hmapped⟩
  rcases mapFresh_cases h.space h.apart hva flags with ⟨_, _, N, hN, htake⟩ | ⟨g, N, _, _, hm⟩ | ⟨hne, _⟩
  · have hN0 : ∀ f, f ∉ N := fun f hf => hz (Set.mem_singleton_iff.mp (hN hf) ▸ htake.was_free f hf)
    refine h.congr (h.space.frameAt_eq fun f _ => htake.stays (hN0 f)) fun f => ?_
    rw [htake.free_iff]
    exact and_iff_left (hN0 f)
  · exact h.mapped hva hm hnone
  · obtain ⟨g, N, hm⟩ := hmapped hne
    exact h.mapped hva hm hnone

theorem Exact.mmapPages (h : Exact A s d) (h0 : 0 ∉ A) (hps : ∀ p ∈ ps, p < kernelVirtBase)
    (hnd : (ps.map pageSlot).Nodup) (hnone : ∀ p ∈ ps, frameAt s d (pageSlot p) = none)
    (hroom : Roomy (hasTable s d) (frames s) ps) (flags : Nat) :
    Exact A (mmapPages (d * pageSize) flags ps s).2 d := by
  induction ps generalizing s with
  | nil => exact h
  | cons p ps ih =>
    have hp := hps p (.head _)
    obtain ⟨hni, hnd⟩ := List.nodup_cons.mp hnd
    obtain ⟨hexact, hmapped⟩ := h.mapFresh h0 hp (hnone p (.head _)) hroom flags
    rw [Vmm.mmapPages]
    dsimp only
    split
    · rename_i hfail
      rw [Vmm.mapFresh, if_pos hfail] at hexact
      exact hexact
    · rename_i hne
      obtain ⟨g, N, hm⟩ := hmapped hne
      have hroom' := hm.roomy hp hroom
      have hrest : ∀ q ∈ ps, frameAt (Vmm.mapFresh (d * pageSize) p flags s) d (pageSlot q) = none := by
        intro q hq
        have hqp : pageSlot q ≠ pageSlot p := fun heq => hni (heq ▸ List.mem_map_of_mem hq)
        rw [hm.rest _ hqp fun heq => by cases heq]
        exact hnone q (.tail _ hq)
      rw [Vmm.mapFresh, if_neg hne] at hexact hroom' hrest
      exact ih hexact (fun q hq => hps q (.tail _ hq)) hnd hrest hroom'

theorem Exact.munmapPages (h : Exact A s d) (h0 : 0 ∉ A) (hA : ∀ f ∈ A, f < bitmapBits)
    (hps : ∀ p ∈ ps, p < kernelVirtBase) : Exact A (munmapPages (d * pageSize) ps s) d := by
  induction ps generalizing s with
  | nil => exact h
  | cons p ps ih =>
    exact ih (h.unmapped h0 hA (hps p (.head _))) fun q hq => hps q (.tail _ hq)

theorem pageAddrs_nodup (addr len : Nat) : ((pageAddrs addr len).map pageSlot).Nodup := by
  have hinj : ∀ p ∈ pageAddrs addr len, ∀ q ∈ pageAddrs addr len, pageSlot p = pageSlot q → p = q := by
    intro p hp q hq heq
    obtain ⟨i, _, rfl⟩ := List.mem_map.mp hp
    obtain ⟨j, _, rfl⟩ := List.mem_map.mp hq
    injection heq with hdi hpi
    have hdi : (addr + i * 4096) / 2 ^ 22 = (addr + j * 4096) / 2 ^ 22 := hdi
    have hpi : (addr + i * 4096) / 2 ^ 12 % 1024 = (addr + j * 4096) / 2 ^ 12 % 1024 := hpi
    have hij : i = j := by omega
    rw [hij]
  have hnd : (pageAddrs addr len).Nodup := by
    refine List.Nodup.map (fun i j hij => ?_) List.nodup_range
    have hij : addr + i * 4096 = addr + j * 4096 := hij
    omega
  exact List.Nodup.map_on hinj hnd

/-! ## 3. Calls on one address space -/

inductive MmCall where
  | mmap (addr len flags : Nat)
  | munmap (addr len : Nat)
  | brk (newBrk : Nat)
  | fault (addr : Nat) (isWrite : Bool)

/-- The processor reports with a fault whether the page is there. -/
def MmCall.exec (mm : MmStruct) (s : Vm) : MmCall → MmStruct × Vm
  | .mmap addr len flags => (mmMmap mm addr len flags s).2
  | .munmap addr len => mmMunmap mm addr len s
  | .brk newBrk => (mmBrk mm newBrk s).2
  | .fault addr isWrite => (mm, pageFault mm addr isWrite (frameAt s mm.dir (pageSlot addr)).isSome s)

/-- The pages a call may map. -/
def MmCall.maps (mm : MmStruct) (s : Vm) : MmCall → List Nat
  | .mmap addr len _ => pageAddrs addr (alignUp len pageSize)
  | .munmap _ _ => []
  | .brk newBrk =>
    let fin := alignUp newBrk pageSize
    if fin > mm.brk then pageAddrs mm.brk (alignUp (fin - mm.brk) pageSize) else []
  | .fault addr _ => if (frameAt s mm.dir (pageSlot addr)).isSome then [] else [alignDown addr pageSize]

/-- The pages a call may unmap. -/
def MmCall.unmaps (mm : MmStruct) : MmCall → List Nat
  | .munmap addr len => pageAddrs addr (alignUp len pageSize)
  | .brk newBrk =>
    let fin := alignUp newBrk pageSize
    if fin < mm.brk then pageAddrs fin (alignUp (mm.brk - fin) pageSize) else []
  | .mmap _ _ _ | .fault _ _ => []

/-- The call works on user pages. -/
def MmCall.User (mm : MmStruct) (s : Vm) (c : MmCall) : Prop :=
  (∀ p ∈ c.maps mm s, p < kernelVirtBase) ∧ ∀ p ∈ c.unmaps mm, p < kernelVirtBase

/-- No page the call maps is mapped already, and memory does not run out between a page and its table. -/
def MmCall.Tidy (mm : MmStruct) (s : Vm) (c : MmCall) : Prop :=
  (∀ p ∈ c.maps mm s, frameAt s mm.dir (pageSlot p) = none) ∧ Roomy (hasTable s mm.dir) (frames s) (c.maps mm s)

/-- The machine and one address space. -/
structure Tenant where
  vm : Vm
  mm : MmStruct

def MmStep (c : Tenant) (e : MmCall) (c' : Tenant) : Prop :=
  e.User c.mm c.vm ∧ c' = ⟨(e.exec c.mm c.vm).2, (e.exec c.mm c.vm).1⟩

theorem MmCall.exec_pgdir (mm : MmStruct) (s : Vm) (c : MmCall) : (c.exec mm s).1.pgdir = mm.pgdir := by
  cases c with
  | mmap addr len flags => exact mmMmap_pgdir mm addr len flags s
  | munmap addr len => rfl
  | brk newBrk => exact mmBrk_pgdir mm newBrk s
  | fault addr isWrite => rfl

theorem Exact.mmMmap (h : Exact A s mm.dir) (h0 : 0 ∉ A) (hmm : mm.Aligned)
    (hps : ∀ p ∈ pageAddrs addr (alignUp len pageSize), p < kernelVirtBase)
    (hnone : ∀ p ∈ pageAddrs addr (alignUp len pageSize), frameAt s mm.dir (pageSlot p) = none)
    (hroom : Roomy (hasTable s mm.dir) (frames s) (pageAddrs addr (alignUp len pageSize))) (flags : Nat) :
    Exact A (mmMmap mm addr len flags s).2.2 mm.dir := by
  have hpages := h.mmapPages h0 hps (pageAddrs_nodup _ _) hnone hroom (mmapFlags flags)
  rw [← hmm] at hpages
  rw [(mmMmap_end mm addr len flags s).vm]
  split
  · rw [slabAlloc_eq]
    exact hpages.congr (fun _ => rfl) fun _ => Iff.rfl
  · exact hpages

theorem Exact.mmMunmap (h : Exact A s mm.dir) (h0 : 0 ∉ A) (hA : ∀ f ∈ A, f < bitmapBits) (hmm : mm.Aligned)
    (hps : ∀ p ∈ pageAddrs addr (alignUp len pageSize), p < kernelVirtBase) :
    Exact A (mmMunmap mm addr len s).2 mm.dir := by
  have hpages := h.munmapPages h0 hA hps
  rw [← hmm] at hpages
  exact hpages

/-- **A tidy call** loses no frame. -/
theorem Exact.call {c : MmCall} (h : Exact A s mm.dir) (h0 : 0 ∉ A) (hA : ∀ f ∈ A, f < bitmapBits)
    (hmm : mm.Aligned) (huser : c.User mm s) (htidy : c.Tidy mm s) : Exact A (c.exec mm s).2 mm.dir := by
  obtain ⟨hmaps, hunmaps⟩ := huser
  obtain ⟨hnone, hroom⟩ := htidy
  cases c with
  | mmap addr len flags => exact h.mmMmap h0 hmm hmaps hnone hroom flags
  | munmap addr len => exact h.mmMunmap h0 hA hmm hunmaps
  | brk newBrk =>
    unfold MmCall.maps at hmaps hnone hroom
    unfold MmCall.unmaps at hunmaps
    unfold MmCall.exec mmBrk
    dsimp only at *
    generalize alignUp newBrk pageSize = fin at *
    split
    · exact h
    · by_cases hgrow : fin > mm.brk
      · rw [if_pos hgrow] at hmaps hnone hroom ⊢
        have hmap := h.mmMmap h0 hmm hmaps hnone hroom (VM_READ ||| VM_WRITE)
        split
        · exact hmap
        · exact hmap
      · rw [if_neg hgrow]
        by_cases hshrink : fin < mm.brk
        · rw [if_pos hshrink] at hunmaps ⊢
          exact h.mmMunmap h0 hA hmm hunmaps
        · rw [if_neg hshrink]
          exact h
  | fault addr isWrite =>
    dsimp only [MmCall.maps, MmCall.exec] at *
    unfold pageFault
    cases mmFindVma mm addr with
    | none => exact h
    | some vma =>
      dsimp only
      by_cases hthere : (frameAt s mm.dir (pageSlot addr)).isSome
      · rw [if_pos hthere, ite_self]
        exact h
      · rw [if_neg hthere]
        split
        · exact h
        · rw [if_neg hthere] at hmaps hnone hroom
          have hfresh := (h.mapFresh h0 (hmaps _ (.head _)) (hnone _ (.head _)) hroom
            (vma.flags ||| VM_USER)).1
          rw [← hmm] at hfresh
          exact hfresh

/-! ## 4. From `mm_create` to `mm_destroy` -/

theorem Exact.created (h : mmCreate kernelPgdir s = (some mm, s')) : Exact (pool.free s) s' mm.dir := by
  obtain ⟨hwf, hown⟩ := mmCreate_wellFormed h
  obtain ⟨x, _, hx, _, _, htake, _⟩ := mmCreate_spec h
  have hdir : mm.dir = x := dir_of_pgdir hx
  refine ⟨hwf.distinct, fun {k f} hk => ?_, fun f => ?_⟩
  · have hf : f ∈ spaceFrames s' mm.dir := ⟨k, hk⟩
    rw [hown, hdir] at hf
    exact htake.was_free f hf
  · rw [hown, hdir, htake.free_iff]

theorem exact_run {es : List MmCall} (h0 : 0 ∉ pool.free s₀) (hcreate : mmCreate kernelPgdir s₀ = (some mm₀, s₁))
    (hrun : Run (fun c e c' => e.Tidy c.mm c.vm ∧ MmStep c e c') ⟨s₁, mm₀⟩ es ⟨s, mm⟩) :
    mm.pgdir = mm₀.pgdir ∧ Exact (pool.free s₀) s mm.dir := by
  have hA : ∀ f ∈ pool.free s₀, f < bitmapBits := fun f hf => free_lt hf
  obtain ⟨hwf, _⟩ := mmCreate_wellFormed hcreate
  have hend := hrun.invariant (I := fun c => c.mm.pgdir = mm₀.pgdir ∧ Exact (pool.free s₀) c.vm c.mm.dir)
    (fun c e c' hc hstep => ?_) ⟨rfl, Exact.created hcreate⟩
  · exact hend
  · obtain ⟨htidy, huser, rfl⟩ := hstep
    obtain ⟨hpgdir, hexact⟩ := hc
    have hsame := MmCall.exec_pgdir c.mm c.vm e
    have hdir : (e.exec c.mm c.vm).1.dir = c.mm.dir := by rw [MmStruct.dir, MmStruct.dir, hsame]
    have hmm : c.mm.Aligned := by
      rw [MmStruct.Aligned, MmStruct.dir, hpgdir]
      exact hwf.aligned
    refine ⟨hsame.trans hpgdir, ?_⟩
    dsimp only
    rw [hdir]
    exact hexact.call h0 hA hmm huser htidy

/-- **No frame is lost**: from `mm_create`, after any tidy calls and faults, every frame taken is the directory, a
    table or a page, in exactly one place, and `mm_destroy` leaves the frames free that were free before. -/
theorem frames_conserved {kd : Nat} {s₀ s₁ : Vm} {mm₀ : MmStruct} {es : List MmCall} (h0 : 0 ∉ pool.free s₀)
    (hkd : kd ∉ pool.free s₀) (hcreate : mmCreate (kd * pageSize) s₀ = (some mm₀, s₁))
    (hrun : Run (fun c e c' => e.Tidy c.mm c.vm ∧ MmStep c e c') ⟨s₁, mm₀⟩ es ⟨s, mm⟩) :
    (∀ f ∈ pool.free s₀, f ∉ pool.free s → ∃! k, frameAt s mm.dir k = some f) ∧
      pool.free (mmDestroy (kd * pageSize) mm s) = pool.free s₀ := by
  obtain ⟨hpgdir, hexact⟩ := exact_run h0 hcreate hrun
  obtain ⟨hwf, _⟩ := mmCreate_wellFormed hcreate
  have hmm : mm.Aligned := by
    rw [MmStruct.Aligned, MmStruct.dir, hpgdir]
    exact hwf.aligned
  have hd : mm.dir * pageSize ≠ kd * pageSize := fun heq =>
    hkd (Nat.eq_of_mul_eq_mul_right (by decide) heq ▸ hexact.was_free (k := .dir) rfl)
  refine ⟨fun f hf hused => hexact.unique hf hused, ?_⟩
  rw [mmDestroy, hmm]
  exact hexact.destroyed h0 (fun f hf => free_lt hf) hd

/-! ## 5. A page mapped twice -/

/-- **A mapping over a mapping**: the old frame is in no place any more and not free. -/
theorem remap_loses (h : Exact A s d) (hva : va < kernelVirtBase) (hm : PageMapped s d va g N s')
    (hold : frameAt s d (pageSlot va) = some f) : f ∈ A ∧ f ∉ pool.free s' ∧ f ∉ spaceFrames s' d := by
  have hin : f ∈ spaceFrames s d := ⟨_, hold⟩
  have hfree := h.apart f hin
  refine ⟨h.was_free hold, hm.takes.used hfree, fun hf => ?_⟩
  obtain ⟨k, hk⟩ := hf
  rcases hm.slot hva hk with ⟨_, rfl⟩ | ⟨_, hN, _⟩ | ⟨hne, hk⟩
  · exact hfree (hm.takes.was_free _ hm.new)
  · exact hfree (hm.takes.was_free f hN)
  · exact hne (h.distinct hk hold)

theorem PageMapped.slab (h : PageMapped s d va g N s') (slab : List Bool) :
    PageMapped s d va g N { s' with slab := slab } :=
  ⟨⟨h.takes.was_free, h.takes.free_iff, h.takes.same⟩, h.new, h.zero, h.page, h.rest, h.entries, h.table⟩

theorem mmMmap_one (mm : MmStruct) (s : Vm) (hp : pageAddrs addr (alignUp len pageSize) = [va]) (flags : Nat) :
    ∃ slab, (mmMmap mm addr len flags s).2.2 = { mapFresh mm.pgdir va (mmapFlags flags) s with slab := slab } := by
  unfold mmMmap mapFresh
  dsimp only
  rw [hp, mmapPages]
  dsimp only
  by_cases h0 : s.allocZero.1 = 0
  · rw [if_pos h0, if_pos h0]
    exact ⟨_, rfl⟩
  · rw [if_neg h0, if_neg h0, mmapPages]
    dsimp only
    rw [slabAlloc_eq]
    split <;> exact ⟨_, rfl⟩

/-- With a frame for the page, and one for its table if it needs one, a page is mapped. -/
theorem mapFresh_mapped (va : Nat) (h : Space s d F) (hF : ∀ f ∈ F, f ∉ pool.free s) (hva : va < kernelVirtBase)
    (h0 : 0 ∉ pool.free s) (hroom : 1 ≤ frames s) (htab : target s d (pdIndex va) = none → 2 ≤ frames s) (flags : Nat) :
    ∃ g N, PageMapped s d va g N (mapFresh (d * pageSize) va flags s) := by
  rcases mapFresh_cases h hF hva flags with ⟨_, hempty, _⟩ | ⟨g, N, _, _, hm⟩ | ⟨_, hnone, hempty, g, N, hN, htake⟩
  · rw [frames_eq_zero (hempty h0)] at hroom
    exact absurd hroom (by decide)
  · exact ⟨g, N, hm⟩
  · have hNe : N = ∅ := Set.eq_empty_of_forall_notMem fun f hf =>
      h0 (Set.mem_singleton_iff.mp (hN hf) ▸ htake.was_free f (.inr hf))
    rw [hNe, Set.union_empty] at htake
    have hone := frames_take htake
    have htwo := htab hnone
    rw [frames_eq_zero (hempty h0)] at hone
    omega

theorem mem_fourFree : f ∈ pool.free fourFree ↔ f ∈ ({4, 5, 6, 7} : Finset Nat) := by
  have hword : ∀ j < 32, ((0xF0#32).getLsbD j = true ↔ j ∈ ({4, 5, 6, 7} : Finset Nat)) := by decide
  have hbits : bitmapBits = 262144 := rfl
  rw [mem_free, mem_freePages]
  by_cases hf : f / 32 = 0
  · have hlt : f < 32 := by omega
    have htst : tst fourFree.pages.bitmap f = (0xF0#32).getLsbD f := by
      rw [tst, hf, Nat.mod_eq_of_lt hlt]
      rfl
    rw [htst, hword f hlt]
    exact and_iff_right (by omega)
  · have htst : tst fourFree.pages.bitmap f = false := by
      change (if f / 32 = 0 then 0xF0#32 else 0).getLsbD (f % 32) = false
      rw [if_neg hf]
      exact BitVec.getLsbD_zero
    have hlarge : f ∉ ({4, 5, 6, 7} : Finset Nat) := by
      simp only [Finset.mem_insert, Finset.mem_singleton]
      omega
    rw [htst]
    exact ⟨fun h => absurd h.2 (by decide), fun h => absurd h hlarge⟩

theorem frames_fourFree : frames fourFree = 4 := by
  have heq : freePages fourFree.pages = {4, 5, 6, 7} := Finset.ext fun f => mem_free.symm.trans mem_fourFree
  rw [frames, heq]
  rfl

theorem slabAlloc_nil (hslab : s.slab = []) : s.slabAlloc = (true, s) := by
  unfold Vm.slabAlloc
  rw [hslab]

theorem mmCreate_slab (hslab : s.slab = []) (h : mmCreate kernelPgdir s = (some mm, s')) : s'.slab = [] := by
  unfold mmCreate pgdirCreate at h
  rw [slabAlloc_nil hslab] at h
  dsimp only at h
  rw [if_pos rfl] at h
  split at h
  · cases h
  · cases h
    exact hslab

/-- With a frame for the directory there is a new address space. -/
theorem mmCreate_goes (kernelPgdir : Nat) (h0 : 0 ∉ pool.free s) (hslab : s.slab = []) (hroom : 1 ≤ frames s) :
    ∃ mm s', mmCreate kernelPgdir s = (some mm, s') ∧ frames s' + 1 = frames s := by
  obtain ⟨mm, s', hcreate⟩ : ∃ mm s', mmCreate kernelPgdir s = (some mm, s') := by
    unfold mmCreate
    rcases pgdirCreate_cases kernelPgdir s with ⟨_, hempty, _⟩ | ⟨x, hx0, hx, _, _⟩
    · rw [frames_eq_zero (hempty h0)] at hroom
      omega
    · have hne : x * pageSize ≠ 0 := addr_ne ‹_›
      rw [slabAlloc_nil hslab]
      dsimp only
      rw [if_pos rfl, hx, if_neg hne]
      exact ⟨_, _, rfl⟩
  obtain ⟨x, _, _, _, _, htake, _⟩ := mmCreate_spec hcreate
  exact ⟨mm, s', hcreate, frames_take htake⟩

/-- A new address space on that machine with one page mapped. -/
theorem one_mapped : ∃ mm₀ s₁ s mm, mmCreate (1 * pageSize) fourFree = (some mm₀, s₁) ∧
    Run (fun c e c' => e.Tidy c.mm c.vm ∧ MmStep c e c') ⟨s₁, mm₀⟩ [.mmap 0x400000 0x1000 VM_WRITE] ⟨s, mm⟩ ∧
    (∃ f, frameAt s mm.dir (pageSlot 0x400000) = some f) ∧ frames s = 1 ∧ 0 ∉ pool.free s := by
  have hz : 0 ∉ pool.free fourFree := fun hm => absurd (mem_fourFree.mp hm) (by decide)
  obtain ⟨mm₀, s₁, hcreate, hleft⟩ := mmCreate_goes (1 * pageSize) hz rfl (by rw [frames_fourFree]; decide)
  obtain ⟨hwf, hown⟩ := mmCreate_wellFormed hcreate
  obtain ⟨x, _, hx, _, _, htake, hnone⟩ := mmCreate_spec hcreate
  have hdir : mm₀.dir = x := dir_of_pgdir hx
  have hframes : frames s₁ = 3 := by
    rw [frames_fourFree] at hleft
    omega
  have hz1 : 0 ∉ pool.free s₁ := htake.used hz
  have htab : target s₁ mm₀.dir (pdIndex 0x400000) = none := hdir ▸ hnone _ (by decide)
  have hpage : frameAt s₁ mm₀.dir (pageSlot 0x400000) = none := frameAt_page_none htab
  have hpages : pageAddrs 0x400000 (alignUp 0x1000 pageSize) = [0x400000] := by decide
  obtain ⟨g, N, hm⟩ := mapFresh_mapped 0x400000 hwf.space hwf.apart (by decide) hz1 (by omega) (fun _ => by omega)
    (mmapFlags VM_WRITE)
  obtain ⟨slab, hone⟩ := mmMmap_one mm₀ s₁ hpages VM_WRITE
  rw [← hwf.aligned] at hm
  have hm' := hm.slab slab
  rw [← hone] at hm'
  have htidy : MmCall.Tidy mm₀ s₁ (.mmap 0x400000 0x1000 VM_WRITE) := by
    dsimp only [MmCall.Tidy, MmCall.maps]
    rw [hpages]
    refine ⟨fun p hp => ?_, ?_⟩
    · rw [List.mem_singleton.mp hp]
      exact hpage
    · refine .inr ?_
      rw [hasTable_eq (by decide), htab, if_neg (by decide), hframes]
      exact ⟨by decide, trivial⟩
  have huser : MmCall.User mm₀ s₁ (.mmap 0x400000 0x1000 VM_WRITE) := by
    refine ⟨fun p hp => ?_, fun p hp => absurd hp List.not_mem_nil⟩
    have hp : p ∈ pageAddrs 0x400000 (alignUp 0x1000 pageSize) := hp
    rw [hpages] at hp
    rw [List.mem_singleton.mp hp]
    decide
  have hsame : (mmMmap mm₀ 0x400000 0x1000 VM_WRITE s₁).2.1.dir = mm₀.dir := by
    rw [MmStruct.dir, MmStruct.dir, mmMmap_pgdir]
  refine ⟨mm₀, s₁, _, _, hcreate, .cons ⟨htidy, huser, rfl⟩ (.nil _), ⟨g, ?_⟩, ?_, fun hzero => ?_⟩
  · dsimp only [MmCall.exec]
    rw [hsame]
    exact hm'.page
  · rcases hm'.table with ⟨_, hsome, _⟩ | ⟨u, hN, hug, _, _⟩
    · rw [htab] at hsome
      cases hsome
    · have htwo := frames_take_two (hN ▸ hm'.takes) hug
      dsimp only [MmCall.exec]
      omega
  · exact hz1 ((hm'.takes.free_iff 0).mp hzero).1

theorem frames_conserved_one : ∃ mm₀ s₁ s mm, mmCreate (1 * pageSize) fourFree = (some mm₀, s₁) ∧
    Run (fun c e c' => e.Tidy c.mm c.vm ∧ MmStep c e c') ⟨s₁, mm₀⟩ [.mmap 0x400000 0x1000 VM_WRITE] ⟨s, mm⟩ ∧
    (∀ f ∈ pool.free fourFree, f ∉ pool.free s → ∃! k, frameAt s mm.dir k = some f) ∧
    pool.free (mmDestroy (1 * pageSize) mm s) = pool.free fourFree := by
  obtain ⟨mm₀, s₁, s, mm, hcreate, hrun, _⟩ := one_mapped
  exact ⟨mm₀, s₁, s, mm, hcreate, hrun, frames_conserved (fun hm => absurd (mem_fourFree.mp hm) (by decide))
    (fun hm => absurd (mem_fourFree.mp hm) (by decide)) hcreate hrun⟩

/-- **The same page mapped twice**: the first frame is in no place afterwards, and still not free when the address
    space is destroyed. -/
theorem mapped_twice_lost : ∃ mm₀ s₁ s mm f, mmCreate (1 * pageSize) fourFree = (some mm₀, s₁) ∧
    Run MmStep ⟨s₁, mm₀⟩ [.mmap 0x400000 0x1000 VM_WRITE, .mmap 0x400000 0x1000 VM_WRITE] ⟨s, mm⟩ ∧
    f ∈ pool.free fourFree ∧ f ∉ pool.free s ∧ (∀ k, frameAt s mm.dir k ≠ some f) ∧
    f ∉ pool.free (mmDestroy (1 * pageSize) mm s) := by
  have hz : 0 ∉ pool.free fourFree := fun hm => absurd (mem_fourFree.mp hm) (by decide)
  obtain ⟨mm₀, s₁, s, mm, hcreate, hrun, ⟨f, hf⟩, hframes, hz'⟩ := one_mapped
  obtain ⟨hpgdir, hexact⟩ := exact_run hz hcreate hrun
  obtain ⟨hwf, _⟩ := mmCreate_wellFormed hcreate
  have hmm : mm.Aligned := by
    rw [MmStruct.Aligned, MmStruct.dir, hpgdir]
    exact hwf.aligned
  have hpages : pageAddrs 0x400000 (alignUp 0x1000 pageSize) = [0x400000] := by decide
  obtain ⟨_, _, t, ht, _⟩ := table_of_page hf
  obtain ⟨g, N, hm⟩ := mapFresh_mapped 0x400000 hexact.space hexact.apart (by decide) hz' (by omega)
    (fun hnone => by rw [ht] at hnone; cases hnone) (mmapFlags VM_WRITE)
  obtain ⟨slab, hone⟩ := mmMmap_one mm s hpages VM_WRITE
  rw [← hmm] at hm
  have hm' := hm.slab slab
  rw [← hone] at hm'
  obtain ⟨hA, hused, hout⟩ := remap_loses hexact (by decide) hm' hf
  have huser : MmCall.User mm s (.mmap 0x400000 0x1000 VM_WRITE) := by
    refine ⟨fun p hp => ?_, fun p hp => absurd hp List.not_mem_nil⟩
    have hp : p ∈ pageAddrs 0x400000 (alignUp 0x1000 pageSize) := hp
    rw [hpages] at hp
    rw [List.mem_singleton.mp hp]
    decide
  have hsame : (mmMmap mm 0x400000 0x1000 VM_WRITE s).2.1.pgdir = mm.pgdir := mmMmap_pgdir ..
  have hdir : (mmMmap mm 0x400000 0x1000 VM_WRITE s).2.1.dir = mm.dir := by rw [MmStruct.dir, MmStruct.dir, hsame]
  have hd0 : mm.dir ≠ 0 := fun heq => hz (heq ▸ hexact.was_free (k := .dir) rfl)
  have hd1 : mm.dir * pageSize ≠ 1 * pageSize := fun heq => by
    have hone : mm.dir = 1 := Nat.eq_of_mul_eq_mul_right (by decide) heq
    have hin := hexact.was_free (k := .dir) rfl
    rw [hone] at hin
    exact absurd (mem_fourFree.mp hin) (by decide)
  refine ⟨mm₀, s₁, _, _, f, hcreate, (hrun.mono fun _ _ _ hs => hs.2).snoc ⟨huser, rfl⟩, hA, hused, fun k hk => ?_,
    fun hback => ?_⟩
  · dsimp only [MmCall.exec] at hk
    rw [hdir] at hk
    exact hout ⟨k, hk⟩
  · dsimp only [MmCall.exec, mmDestroy] at hback
    rw [hsame, hmm, (pgdirDestroy_gives hd0 hd1 _).free_iff] at hback
    rcases hback with hback | hback
    · exact hused hback
    · exact hout hback.2

end OreUnix.Vmm
