/-
  Subject: FORK ISOLATES ADDRESS SPACES: `mm_clone` copies, and what is done to one of the two spaces afterwards is
  not seen in the other.

  * `userMapping` -- what a program sees of a page: the flags of its two entries and its bytes;
  * `mmClone_spec` -- the copy shows the same pages in frames that were free before;
  * `Separate` -- two address spaces in disjoint sets of frames, the invariant of every later run;
  * `fork_isolation` -- the copy, its separation from the original, and what later calls leave alone.
-/
import OreUnix.Mm.CloneCount
import OreUnix.Mm.SpaceOps
import OreUnix.Lib.Run

namespace OreUnix.Vmm

open ByteMem Pmm Bitmap FramePool Lts

variable {s s' s'' : Vm} {mm mm' src dst : MmStruct} {d f va : Nat} {F F' : Set Nat} {kernelPgdir : Nat}

/-! ## 1. What a program sees -/

/-- The page of `va`: the flags of its directory entry and of its page table entry, and its bytes. -/
def userMapping (s : Vm) (mm : MmStruct) (va : Nat) :
    Option (Nat × Nat × (Fin pageSize → UInt8)) :=
  (target s mm.dir (pdIndex va)).bind fun t => (target s t (ptIndex va)).map fun f =>
    (flagBits (entry s (mm.dir * pageSize) (pdIndex va)), flagBits (entry s (t * pageSize) (ptIndex va)),
      pool.cell s f)

/-- Every user address is translated as before, with the same flags and the same bytes. -/
def Untouched (s s' : Vm) (mm : MmStruct) : Prop :=
  ∀ va < kernelVirtBase, virtToPhysPd mm.pgdir va s' = virtToPhysPd mm.pgdir va s ∧
    userMapping s' mm va = userMapping s mm va

/-- The frames of a well-formed directory keep their content, so everything seen through it stays. -/
theorem Space.untouched (hmm : mm.Aligned) (h : Space s mm.dir F)
    (hF : ∀ f ∈ F, pool.cell s' f = pool.cell s f) : Untouched s s' mm := by
  intro va hva
  have hdi := pdIndex_lt hva
  have hd := hF mm.dir h.dir_mem
  have htable := target_congr hd (user_lt hdi)
  have hflags := entry_congr hd (user_lt hdi)
  rw [hmm]
  cases ht : target s mm.dir (pdIndex va) with
  | none =>
    have ht' := htable.trans ht
    refine ⟨?_, ?_⟩
    · rw [virtToPhysPd_none (s := s') (by rw [ht']; rfl), virtToPhysPd_none (by rw [ht]; rfl)]
    · rw [userMapping, userMapping, ht, ht']
      rfl
  | some t =>
    have ht' := htable.trans ht
    have htc := hF t (h.table_mem hdi ht)
    have hpage := target_congr htc (ptIndex_lt va)
    have hpflags := entry_congr htc (ptIndex_lt va)
    cases hf : target s t (ptIndex va) with
    | none =>
      have hf' := hpage.trans hf
      refine ⟨?_, ?_⟩
      · rw [virtToPhysPd_none (s := s') (by rw [ht']; exact hf'), virtToPhysPd_none (by rw [ht]; exact hf)]
      · rw [userMapping, userMapping, ht, ht', Option.bind_some, Option.bind_some, hf, hf']
        rfl
    | some f =>
      have hf' := hpage.trans hf
      have hfc := hF f (h.owned ((frameAt_page hdi ht (ptIndex_lt va)).trans hf))
      refine ⟨?_, ?_⟩
      · rw [virtToPhysPd_some ht' hf', virtToPhysPd_some ht hf]
      · rw [userMapping, userMapping, ht, ht', Option.bind_some, Option.bind_some, hf, hf',
          Option.map_some, Option.map_some, hflags, hpflags, hfc]

theorem userMapping_copy (h : TableCopy s src.dir s' dst.dir (pdIndex va)) :
    userMapping s' dst va = userMapping s src va := by
  rcases h with ⟨hn, hn'⟩ | ⟨t, t', ht, ht', hflags, hpages⟩
  · rw [userMapping, userMapping, hn, hn']
    rfl
  · rw [userMapping, userMapping, ht, ht', Option.bind_some, Option.bind_some]
    rcases hpages (ptIndex va) (ptIndex_lt va) with ⟨hn, hn'⟩ | ⟨f, f', hf, hf', hpflags, hcell⟩
    · rw [hn, hn']
      rfl
    · rw [hf, hf', Option.map_some, Option.map_some, hflags, hpflags, hcell]

/-! ## 2. The copy -/

/-- Directory, tables and pages lie in pairwise different frames that are not free, and `map_count` is the number of
    areas. -/
structure WellFormed (s : Vm) (mm : MmStruct) : Prop where
  aligned : mm.Aligned
  distinct : ∀ {k k' f}, frameAt s mm.dir k = some f → frameAt s mm.dir k' = some f → k = k'
  allocated : ∀ {k f}, frameAt s mm.dir k = some f → f ∉ freePages s.pages
  count : mm.mapCount = mm.vmas.length
  word : mm.mapCount < 2 ^ 32

theorem WellFormed.space (h : WellFormed s mm) : Space s mm.dir (spaceFrames s mm.dir) :=
  ⟨fun hk => ⟨_, hk⟩, h.distinct⟩

theorem WellFormed.apart (h : WellFormed s mm) : ∀ f ∈ spaceFrames s mm.dir, f ∉ pool.free s := by
  rintro f ⟨k, hk⟩
  exact fun hf => h.allocated hk (mem_free.mp hf)

/-- **A new address space**: a directory in a frame that was free, with no user table. -/
theorem mmCreate_spec (h : mmCreate kernelPgdir s = (some mm, s')) :
    ∃ x, x ≠ 0 ∧ mm.pgdir = x * pageSize ∧ mm.vmas = [] ∧ mm.mapCount = 0 ∧ Takes pool ∅ {x} s s' ∧
      ∀ di < userTables, target s' x di = none := by
  unfold mmCreate at h
  dsimp only at h
  split at h
  · rw [slabAlloc_eq] at h
    split at h
    · cases h
    · rename_i hne
      rcases pgdirCreate_cases kernelPgdir { s with slab := s.slabAlloc.2.slab } with ⟨h0, _⟩ |
        ⟨x, hx0, hx, htake, hnone⟩
      · exact absurd h0 hne
      · cases h
        exact ⟨x, hx0, hx, rfl, rfl, ⟨htake.was_free, htake.free_iff, htake.same⟩, hnone⟩
  · cases h

theorem mmCreate_wellFormed (h : mmCreate kernelPgdir s = (some mm, s')) :
    WellFormed s' mm ∧ spaceFrames s' mm.dir = {mm.dir} := by
  obtain ⟨x, _, hx, hvmas, hcount, htake, hnone⟩ := mmCreate_spec h
  have hdir : mm.dir = x := dir_of_pgdir hx
  have hspace : Space s' mm.dir {mm.dir} := .empty (hdir ▸ hnone)
  refine ⟨⟨?_, hspace.inj, fun hk hfree => ?_, ?_, ?_⟩, ?_⟩
  · rw [MmStruct.Aligned, hdir, hx]
  · have hmem := Set.mem_singleton_iff.mp (hspace.owned hk)
    rw [hmem, hdir] at hfree
    exact htake.disjoint x rfl (mem_free.mpr hfree)
  · rw [hcount, hvmas]
    rfl
  · rw [hcount]
    decide
  · refine Set.Subset.antisymm (fun f hf => ?_) fun f hf => ?_
    · obtain ⟨k, hk⟩ := hf
      exact hspace.owned hk
    · rw [Set.mem_singleton_iff.mp hf]
      exact ⟨.dir, rfl⟩

/-- The loop over the areas copies them and counts them. -/
theorem cloneVmas_spec {vmas : List Vma} (hword : mm.mapCount < 2 ^ 32)
    (h : cloneVmas kernelPgdir vmas mm s = (some dst, s')) :
    s' = { s with slab := s'.slab } ∧
      dst = { mm with vmas := mm.vmas ++ vmas, mapCount := u32 (mm.mapCount + vmas.length) } := by
  induction vmas generalizing mm s with
  | nil =>
    cases h
    rw [List.append_nil, List.length_nil, Nat.add_zero, u32_of_lt hword]
    exact ⟨rfl, rfl⟩
  | cons vma vmas ih =>
    rw [cloneVmas] at h
    dsimp only at h
    split at h
    · obtain ⟨hs', hdst⟩ := ih (u32_lt _) h
      refine ⟨hs'.trans ?_, hdst.trans ?_⟩
      · rw [slabAlloc_eq s]
      · have hcount : u32 (u32 (mm.mapCount + 1) + vmas.length) = u32 (mm.mapCount + (vma :: vmas).length) := by
          rw [List.length_cons, u32, u32, u32, Nat.mod_add_mod]
          congr 1
          omega
        simp only [List.append_assoc, List.singleton_append, hcount]
    · cases h

/-- **The copy of an address space.** -/
theorem mmClone_spec (hwf : WellFormed s src)
    (hclone : mmClone kernelPgdir src s = (some dst, s')) :
    ∃ N, dst.Aligned ∧ Takes pool ∅ N s s' ∧ (∀ f ∈ N, f ≠ 0) ∧ Space s' dst.dir N ∧
      (∀ f ∈ N, ∃ k, frameAt s' dst.dir k = some f) ∧
      (∀ di < userTables, TableCopy s src.dir s' dst.dir di) ∧
      dst = { src with pgdir := dst.pgdir } := by
  unfold mmClone at hclone
  dsimp only at hclone
  split at hclone
  · rw [slabAlloc_eq, hwf.aligned] at hclone
    generalize hs0 : ({ s with slab := s.slabAlloc.2.slab } : Vm) = s0 at hclone
    have hsrc : Space s0 src.dir (spaceFrames s src.dir) := by
      subst hs0
      exact hwf.space.congr fun _ _ => rfl
    have hapart : ∀ f ∈ spaceFrames s src.dir, f ∉ pool.free s0 := by
      subst hs0
      exact hwf.apart
    generalize hr : pgdirClone kernelPgdir (src.dir * pageSize) s0 = r at hclone
    obtain ⟨p, s1⟩ := r
    dsimp only at hclone
    split at hclone
    · cases hclone
    · rename_i hp
      obtain ⟨d', N, rfl, htake, hzero, hspace, hall, hcopy⟩ := pgdirClone_spec hsrc hapart hr hp
      obtain ⟨hs', hdst⟩ := cloneVmas_spec (Nat.two_pow_pos 32) hclone
      obtain ⟨slab, rfl⟩ : ∃ slab, s' = { s1 with slab := slab } := ⟨_, hs'⟩
      have hdir : dst.dir = d' := by
        rw [hdst, MmStruct.dir]
        exact Nat.mul_div_cancel _ (by decide)
      subst hs0
      rw [hdir]
      refine ⟨N, ?_, ⟨htake.was_free, htake.free_iff, htake.same⟩, hzero, hspace.congr fun _ _ => rfl,
        hall, hcopy, ?_⟩
      · rw [MmStruct.Aligned, hdir, hdst]
      · have hcount : u32 (0 + src.vmas.length) = src.mapCount := by
          rw [Nat.zero_add, ← hwf.count, u32_of_lt hwf.word]
        rw [hdst]
        simp only [List.nil_append, hcount]
  · cases hclone

/-! ## 3. Calls on two address spaces -/

/-- What is done to one address space. -/
inductive Op where
  | store (va : Nat) (v : UInt8)
  | mmap (addr len flags : Nat)
  | munmap (addr len : Nat)
  | brk (newBrk : Nat)
  | destroy

/-- The range of the call lies below the kernel. -/
def Op.Low (mm : MmStruct) : Op → Prop
  | .store va _ => va < kernelVirtBase
  | .mmap addr len _ => addr + alignUp len pageSize ≤ kernelVirtBase
  | .munmap addr len => addr + alignUp len pageSize ≤ kernelVirtBase
  | .brk newBrk => mm.brk ≤ kernelVirtBase ∧ alignUp newBrk pageSize ≤ kernelVirtBase
  | .destroy => True

section Pairs

variable (kernelPgdir : Nat)

def Op.exec (mm : MmStruct) : Op → Vm → Option MmStruct × Vm
  | .store va v, s => (some mm, userStore mm va v s)
  | .mmap addr len flags, s => (some (mmMmap mm addr len flags s).2.1, (mmMmap mm addr len flags s).2.2)
  | .munmap addr len, s => (some (mmMunmap mm addr len s).1, (mmMunmap mm addr len s).2)
  | .brk newBrk, s => (some (mmBrk mm newBrk s).2.1, (mmBrk mm newBrk s).2.2)
  | .destroy, s => (none, mmDestroy kernelPgdir mm s)

/-- The machine and two address spaces, each there or destroyed. -/
structure Pair where
  vm : Vm
  mm : Bool → Option MmStruct

/-- A call on one side. -/
def PairStep (p : Pair) (e : Bool × Op) (p' : Pair) : Prop :=
  ∃ mm, p.mm e.1 = some mm ∧ e.2.Low mm ∧
    p' = ⟨(e.2.exec kernelPgdir mm p.vm).2, Function.update p.mm e.1 (e.2.exec kernelPgdir mm p.vm).1⟩

end Pairs

theorem mmMmap_pgdir (mm : MmStruct) (addr len flags : Nat) (s : Vm) :
    (mmMmap mm addr len flags s).2.1.pgdir = mm.pgdir := (mmMmap_end mm addr len flags s).pgdir

theorem mmBrk_pgdir (mm : MmStruct) (newBrk : Nat) (s : Vm) : (mmBrk mm newBrk s).2.1.pgdir = mm.pgdir := by
  unfold mmBrk
  dsimp only
  split
  · rfl
  · split
    · have hmap := mmMmap_pgdir mm mm.brk (alignUp newBrk pageSize - mm.brk) (VM_READ ||| VM_WRITE) s
      split <;> exact hmap
    · split <;> rfl

/-- **What a call on one address space can do**: it stays within the frames of that space and the free ones, and
    leaves the space well formed unless it ends it. -/
theorem exec_confined {op : Op} (hmm : mm.Aligned) (hlow : op.Low mm)
    (h : Space s mm.dir F) (hF : ∀ f ∈ F, f ∉ pool.free s) :
    ∃ F', Confined pool F s (op.exec kernelPgdir mm s).2 F' ∧ ∀ mm', (op.exec kernelPgdir mm s).1 = some mm' →
        mm'.Aligned ∧ Space (op.exec kernelPgdir mm s).2 mm'.dir F' := by
  have hkeep : ∀ {mm' : MmStruct} {s' : Vm}, mm'.pgdir = mm.pgdir → Keeps mm.dir s s' →
      ∃ F', Confined pool F s s' F' ∧ ∀ mm'', some mm' = some mm'' → mm''.Aligned ∧ Space s' mm''.dir F' := by
    intro mm' s' hpgdir hkeeps
    obtain ⟨F', hconf, hspace⟩ := hkeeps F h hF
    have hdir : mm'.dir = mm.dir := by rw [MmStruct.dir, MmStruct.dir, hpgdir]
    refine ⟨F', hconf, fun mm'' he => ?_⟩
    cases he
    rw [MmStruct.Aligned, hdir, hpgdir]
    exact ⟨hmm, hspace⟩
  have hrange : ∀ {addr len p}, addr + alignUp len pageSize ≤ kernelVirtBase →
      p ∈ pageAddrs addr (alignUp len pageSize) → p < kernelVirtBase := by
    intro addr len p hle hp
    exact (pageAddrs_lt hp).trans_le ((Nat.mod_le _ _).trans hle)
  cases op with
  | store va v => exact hkeep rfl (userStore_keeps hmm hlow v s)
  | mmap addr len flags =>
    exact hkeep (mmMmap_pgdir ..) (mmMmap_keeps hmm flags (fun p hp => hrange hlow hp) s)
  | munmap addr len => exact hkeep rfl (mmMunmap_keeps hmm (fun p hp => hrange hlow hp) s)
  | brk newBrk => exact hkeep (mmBrk_pgdir ..) (mmBrk_keeps hmm hlow.1 hlow.2 s)
  | destroy =>
    obtain ⟨F', hconf⟩ := @mmDestroy_confined s F mm kernelPgdir hmm h hF
    refine ⟨F', hconf, fun mm' he => ?_⟩
    cases he

/-! ## 4. Separation -/

/-- Each space that is there is well formed in frames of its own; no frame is owned twice or free. -/
structure Separate (p : Pair) (F : Bool → Set Nat) : Prop where
  space : ∀ {x mm}, p.mm x = some mm → mm.Aligned ∧ Space p.vm mm.dir (F x)
  apart : ∀ {x}, ∀ f ∈ F x, f ∉ pool.free p.vm
  disjoint : ∀ {x}, ∀ f ∈ F x, f ∉ F !x

/-- A call on one side keeps the separation and the content of the other side's frames. -/
theorem Separate.step {p p' : Pair} {F : Bool → Set Nat} (h : Separate p F)
    {e : Bool × Op} (hstep : PairStep kernelPgdir p e p') :
    ∃ F', Separate p' F' ∧ F' (!e.1) = F (!e.1) ∧ p'.mm (!e.1) = p.mm (!e.1) ∧
      ∀ f ∈ F (!e.1), pool.cell p'.vm f = pool.cell p.vm f := by
  obtain ⟨x, op⟩ := e
  obtain ⟨mm, hmm, hlow, rfl⟩ := hstep
  obtain ⟨haligned, hspace⟩ := h.space hmm
  obtain ⟨G, hconf, hleft⟩ := @exec_confined p.vm mm (F x) kernelPgdir op haligned hlow hspace h.apart
  have hx : (!x) ≠ x := Bool.not_ne_self x
  have hother : ∀ f ∈ F (!x), f ∉ F x := fun f hf hf' => h.disjoint f hf' hf
  obtain ⟨hG, hfree, hsame⟩ := hconf.frame hother h.apart
  refine ⟨Function.update F x G, ⟨?_, ?_, ?_⟩, Function.update_of_ne hx .., Function.update_of_ne hx .., hsame⟩
  · intro y mm' hmm'
    dsimp only at hmm' ⊢
    by_cases hy : y = x
    · subst hy
      rw [Function.update_self] at hmm' ⊢
      exact hleft mm' hmm'
    · obtain rfl : y = !x := Bool.eq_not.mpr hy
      rw [Function.update_of_ne hx] at hmm' ⊢
      obtain ⟨haligned', hspace'⟩ := h.space hmm'
      exact ⟨haligned', hspace'.congr hsame⟩
  · intro y f hf
    by_cases hy : y = x
    · subst hy
      rw [Function.update_self] at hf
      exact hconf.apart f hf
    · obtain rfl : y = !x := Bool.eq_not.mpr hy
      rw [Function.update_of_ne hx] at hf
      exact hfree f hf
  · intro y f hf hf'
    by_cases hy : y = x
    · subst hy
      rw [Function.update_self] at hf
      rw [Function.update_of_ne hx] at hf'
      exact hG f hf' hf
    · obtain rfl : y = !x := Bool.eq_not.mpr hy
      rw [Function.update_of_ne hx] at hf
      rw [Bool.not_not, Function.update_self] at hf'
      exact hG f hf hf'

theorem Separate.run {p p' : Pair} {es : List (Bool × Op)} {F : Bool → Set Nat}
    (h : Separate p F) (hr : Run (PairStep kernelPgdir) p es p') : ∃ F', Separate p' F' := by
  refine hr.invariant (I := fun q => ∃ F', Separate q F') (fun q e q' hq hstep => ?_) ⟨F, h⟩
  obtain ⟨F', hF'⟩ := hq
  obtain ⟨F'', hF'', _⟩ := hF'.step hstep
  exact ⟨F'', hF''⟩

/-- Calls on one side only: the other side's frames keep their content throughout. -/
theorem Separate.run_side {p p' : Pair} {es : List (Bool × Op)} {x : Bool}
    {F : Bool → Set Nat} (h : Separate p F) (hr : Run (PairStep kernelPgdir) p es p')
    (hx : ∀ e ∈ es, e.1 = x) :
    p'.mm (!x) = p.mm (!x) ∧ ∀ f ∈ F (!x), pool.cell p'.vm f = pool.cell p.vm f := by
  induction hr generalizing F with
  | nil p => exact ⟨rfl, fun _ _ => rfl⟩
  | cons hstep _ ih =>
    obtain ⟨F', hF', hkeep, hmm, hsame⟩ := h.step hstep
    rw [hx _ (.head _)] at hkeep hmm hsame
    obtain ⟨hmm', hsame'⟩ := ih hF' fun e he => hx e (.tail _ he)
    rw [hkeep] at hsame'
    exact ⟨hmm'.trans hmm, fun f hf => (hsame' f hf).trans (hsame f hf)⟩

/-! ## 5. The theorem -/

/-- Nothing of the original has changed: neither the frames of its directory, tables and pages nor their content. -/
def Unchanged (s s' : Vm) (mm : MmStruct) : Prop :=
  (∀ k, frameAt s' mm.dir k = frameAt s mm.dir k) ∧
    (∀ f ∈ spaceFrames s mm.dir, pool.cell s' f = pool.cell s f) ∧ Untouched s s' mm

/-- The original and its copy. -/
def Pair.forked (s : Vm) (src dst : MmStruct) : Pair := ⟨s, fun x => if x then some dst else some src⟩

/-- **Fork isolates.** The copy shows the same pages with the same flags and bytes and shares no frame with the
    original, which is unchanged; after any calls on the two, calls on one of them change no translation and no byte
    of the other. -/
theorem fork_isolation {kernelPgdir : Nat} (hwf : WellFormed s src)
    (hclone : mmClone kernelPgdir src s = (some dst, s')) :
    (∀ va < kernelVirtBase, userMapping s' dst va = userMapping s src va) ∧
    (∀ k k' f, frameAt s' dst.dir k = some f → frameAt s' src.dir k' ≠ some f) ∧
    dst = { src with pgdir := dst.pgdir } ∧ Unchanged s s' src ∧
    ∀ es es' p p' x, Run (PairStep kernelPgdir) (.forked s' src dst) es p →
      Run (PairStep kernelPgdir) p es' p' → (∀ e ∈ es', e.1 = x) →
      p'.mm (!x) = p.mm (!x) ∧ ∀ mm, p.mm (!x) = some mm → Untouched p.vm p'.vm mm := by
  obtain ⟨N, hdst, htake, _, hspace, _, hcopy, hfields⟩ := mmClone_spec hwf hclone
  have hnew : ∀ f ∈ spaceFrames s src.dir, f ∉ N := fun f hf hN => hwf.apart f hf (htake.was_free f hN)
  have hsame : ∀ f ∈ spaceFrames s src.dir, pool.cell s' f = pool.cell s f :=
    fun f hf => htake.stays (hnew f hf)
  have hsrc := hwf.space.congr hsame
  have hsep : Separate (.forked s' src dst) fun x => if x then N else spaceFrames s src.dir := by
    refine ⟨?_, ?_, ?_⟩
    · rintro (_ | _) mm hmm <;> cases hmm
      · exact ⟨hwf.aligned, hsrc⟩
      · exact ⟨hdst, hspace⟩
    · rintro (_ | _) f hf
      · exact fun hf' => hwf.apart f hf ((htake.free_iff f).mp hf').1
      · exact htake.disjoint f hf
    · rintro (_ | _) f hf hf'
      · exact hnew f hf hf'
      · exact hnew f hf' hf
  refine ⟨fun va hva => userMapping_copy (hcopy _ (pdIndex_lt hva)), fun k k' f hk hk' => ?_, hfields,
    ⟨hwf.space.frameAt_eq hsame, hsame, hwf.space.untouched hwf.aligned hsame⟩, ?_⟩
  · exact hnew f (hsrc.owned hk') (hspace.owned hk)
  · intro es es' p p' x hr hr' hx
    obtain ⟨F, hF⟩ := hsep.run hr
    obtain ⟨hmm, hcells⟩ := hF.run_side hr' hx
    refine ⟨hmm, fun mm hmm => ?_⟩
    obtain ⟨haligned, hspace'⟩ := hF.space hmm
    exact hspace'.untouched haligned hcells

/-- A machine with the free frames 4 to 7 and nothing in memory. -/
def fourFree : Vm := ⟨⟨fun w => if w = 0 then 0xF0#32 else 0, 4⟩, fun _ => 0, []⟩

/-- The directory in frame 1 has its first table in frame 2, with its first page in frame 3. -/
def onePage : Vm :=
  setEntry (setEntry fourFree (1 * pageSize) 0 (2 * pageSize ||| tableFlags)) (2 * pageSize) 0
    (3 * pageSize ||| tableFlags)

def onePageMm : MmStruct := ⟨1 * pageSize, [], 0x0C048000, 0x0C048000, userStackTop, 0⟩

theorem onePage_space : Space onePage 1 ({1} ∪ {2} ∪ {3}) := by
  have hzero : ∀ t, pool.cell fourFree t = fun _ => 0 := fun _ => rfl
  have hframe : ∀ f, entryFrame (f * pageSize ||| tableFlags) = some f :=
    fun f => entryFrame_or (by decide) (by decide)
  have hdir : Space fourFree 1 {1} := .empty fun di hdi => target_zero (hzero 1) (user_lt hdi)
  have htable : Space (setEntry fourFree (1 * pageSize) 0 (2 * pageSize ||| tableFlags)) 1 ({1} ∪ {2}) := by
    refine hdir.link (by decide) (target_zero (hzero 1) (by decide)) (by decide) (hframe 2)
      Set.subset_union_left ⟨.inr rfl, by simp⟩ (fun pi f hpi hf => ?_) fun pi pj f hpi _ hf => ?_ <;>
    · rw [target_zero (hzero 2) hpi] at hf
      cases hf
  refine htable.setPte (by decide : 0 < userTables) ((target_setEntry_self (by decide)).trans (hframe 2))
    (by decide) (by decide) Set.subset_union_left fun g hg => ?_
  cases (hframe 3).symm.trans hg
  exact ⟨.inr rfl, by simp⟩

theorem onePage_free {f : Nat} : f ∈ pool.free onePage ↔ f < bitmapBits ∧ tst fourFree.pages.bitmap f = true :=
  mem_free.trans mem_freePages

theorem onePage_apart : ∀ f ∈ ({1} ∪ {2} ∪ {3} : Set Nat), f ∉ pool.free onePage := by
  intro f hf hfree
  have hbit := (onePage_free.mp hfree).2
  rcases hf with (rfl | rfl) | rfl <;> exact absurd hbit (by decide)

theorem onePage_wellFormed : WellFormed onePage onePageMm := by
  have hdir : onePageMm.dir = 1 := by decide
  refine ⟨rfl, ?_, ?_, rfl, by decide⟩ <;> rw [hdir]
  · exact onePage_space.inj
  · intro k f hk hf
    exact onePage_apart f (onePage_space.owned hk) (mem_free.mpr hf)

theorem onePage_count : spaceCount onePage 1 = 3 := by decide +kernel

/-- There is room for the copy. -/
theorem onePage_frames : 3 ≤ frames onePage := by
  have hfree : ({4, 5, 6} : Finset Nat) ⊆ freePages onePage.pages := by
    intro f hf
    rw [← mem_free, onePage_free]
    have hlt : bitmapBits = 262144 := rfl
    rw [Finset.mem_insert, Finset.mem_insert, Finset.mem_singleton] at hf
    rcases hf with rfl | rfl | rfl <;> exact ⟨by omega, by decide⟩
  exact Finset.card_le_card hfree

theorem onePage_clones : ∃ dst s', mmClone 0 onePageMm onePage = (some dst, s') := by
  have h0 : 0 ∉ pool.free onePage := fun h => absurd (onePage_free.mp h).2 (by decide)
  have hsome : (mmClone 0 onePageMm onePage).1.isSome = true := by
    refine (mmClone_iff onePage_space rfl onePage_apart h0).mpr ⟨rfl, ?_, nofun⟩
    rw [onePage_count]
    exact onePage_frames
  obtain ⟨dst, hdst⟩ := Option.isSome_iff_exists.mp hsome
  generalize mmClone 0 onePageMm onePage = r at hdst
  obtain ⟨_, s'⟩ := r
  cases hdst
  exact ⟨dst, s', rfl⟩

theorem fork_isolation_onePage : ∃ dst s', mmClone 0 onePageMm onePage = (some dst, s') ∧
    (∀ va < kernelVirtBase, userMapping s' dst va = userMapping onePage onePageMm va) ∧
    Unchanged onePage s' onePageMm := by
  obtain ⟨dst, s', hclone⟩ := onePage_clones
  obtain ⟨hsame, _, _, hsrc, _⟩ := fork_isolation onePage_wellFormed hclone
  exact ⟨dst, s', hclone, hsame, hsrc⟩

end OreUnix.Vmm
