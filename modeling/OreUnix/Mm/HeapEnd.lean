/-
  Subject: ONE END FOR TWO ALLOCATORS: SYS_brk and SYS_mmap without an address both move `mm->brk`.

  * `Solid`, `Same` -- an address space whose frames are its own, and a page that is still where it was;
    `Solid.mmapPages`, `Solid.munmapPages`: a loop over pages leaves every other page the same;
  * `HeapState`, `HeapCall.exec` -- the calls of one process, with the mapped areas that are live and the last value the
    process has set with `brk`;
  * `mmap_survives_brk` -- mapped pages survive, and `brk` touches nothing but what lies between its last value and
    the new one, as long as `brk` is not lowered over a mapped area;
  * `brk_unmaps_area` -- it can be: lowering the end to where it was unmaps the area.
-/
import OreUnix.Mm.Conservation
import OreUnix.Mm.UserMemory

namespace OreUnix.Vmm

open ByteMem Pmm Bitmap FramePool Lts

variable {s s' s'' : Vm} {mm : MmStruct} {d f g va : Nat} {k : Slot} {N : Set Nat} {ps : List Nat}
variable {addr kernelPgdir len q : Nat}

/-! ## 1. Pages that stay -/

/-- Each frame of the address space is in one place, not free, and one `pmm_free` knows. -/
structure Solid (s : Vm) (d : Nat) : Prop where
  distinct : ∀ {k k' f}, frameAt s d k = some f → frameAt s d k' = some f → k = k'
  used : ∀ {k f}, frameAt s d k = some f → f ∉ pool.free s
  real : ∀ {k f}, frameAt s d k = some f → Real f
  zero : 0 ∉ pool.free s

theorem Solid.space (h : Solid s d) : Space s d (spaceFrames s d) := ⟨fun hk => ⟨_, hk⟩, h.distinct⟩

theorem Solid.apart (h : Solid s d) : ∀ f ∈ spaceFrames s d, f ∉ pool.free s := by
  intro f hf
  obtain ⟨k, hk⟩ := hf
  exact h.used hk

/-- The place has the frame it had, with the content it had. -/
def Same (s s' : Vm) (d : Nat) (k : Slot) : Prop :=
  frameAt s' d k = frameAt s d k ∧ ∀ f, frameAt s d k = some f → pool.cell s' f = pool.cell s f

theorem Same.refl (s : Vm) (d : Nat) (k : Slot) : Same s s d k := ⟨rfl, fun _ _ => rfl⟩

theorem Same.trans (h : Same s s' d k) (h' : Same s' s'' d k) : Same s s'' d k :=
  ⟨h'.1.trans h.1, fun f hf => (h'.2 f (h.1.trans hf)).trans (h.2 f hf)⟩

section Pages

variable (h : Solid s d)

include h

/-- No frame of the address space is written or freed. -/
theorem Solid.congr (hcell : ∀ f ∈ spaceFrames s d, pool.cell s' f = pool.cell s f)
    (hfree : ∀ f, f ∈ pool.free s' → f ∈ pool.free s) : Solid s' d ∧ ∀ k, Same s s' d k := by
  have hat : ∀ k, frameAt s' d k = frameAt s d k := h.space.frameAt_eq hcell
  refine ⟨⟨fun hk hk' => ?_, fun hk hf => ?_, fun hk => ?_, fun hf => h.zero (hfree 0 hf)⟩,
    fun k => ⟨hat k, fun f hf => hcell f ⟨k, hf⟩⟩⟩
  · rw [hat] at hk hk'
    exact h.distinct hk hk'
  · rw [hat] at hk
    exact h.used hk (hfree _ hf)
  · rw [hat] at hk
    exact h.real hk

theorem Solid.taken (htake : Takes pool ∅ N s s') : Solid s' d ∧ ∀ k, Same s s' d k := by
  refine h.congr (fun f hf => ?_) fun f hf => ((htake.free_iff f).mp hf).1
  exact htake.keeps (h.apart f hf)

theorem Solid.mapped (hva : va < kernelVirtBase) (hm : PageMapped s d va g N s') :
    Solid s' d ∧ ∀ q, pageSlot q ≠ pageSlot va → Same s s' d (pageSlot q) := by
  have hspace := hm.space h.space h.apart hva
  have hfree : ∀ f, f ∈ pool.free s' → f ∈ pool.free s := fun f hf => ((hm.takes.free_iff f).mp hf).1
  refine ⟨⟨hspace.inj, fun {k f} hk hf => ?_, fun {k f} hk => ?_, fun hf => h.zero (hfree 0 hf)⟩, fun q hq => ?_⟩
  · rcases hspace.owned hk with ⟨k', hk'⟩ | hN
    · exact h.used hk' (hfree f hf)
    · exact hm.takes.disjoint f hN hf
  · rcases hspace.owned hk with ⟨k', hk'⟩ | hN
    · exact h.real hk'
    · have hin := hm.takes.was_free f hN
      exact ⟨fun heq => h.zero (heq ▸ hin), free_lt hin⟩
  · refine ⟨hm.rest _ hq (fun heq => by cases heq), fun f hf => ?_⟩
    obtain ⟨hdf, htf⟩ := h.space.page_ne hf
    refine hm.takes.same f (fun hw => ?_) fun hN => h.used hf (hm.takes.was_free f hN)
    rcases hw with heq | ht
    · exact hdf heq.symm
    · exact htf _ f (pdIndex_lt hva) ht rfl

theorem Solid.mapFresh (hva : va < kernelVirtBase) (flags : Nat) : Solid (mapFresh (d * pageSize) va flags s) d ∧
      ∀ q, pageSlot q ≠ pageSlot va → Same s (mapFresh (d * pageSize) va flags s) d (pageSlot q) := by
  rcases mapFresh_cases h.space h.apart hva flags with ⟨_, _, N, _, htake⟩ | ⟨g, N, _, _, hm⟩ |
    ⟨_, _, _, g, N, _, htake⟩
  · obtain ⟨hsolid, hsame⟩ := h.taken htake
    exact ⟨hsolid, fun q _ => hsame _⟩
  · exact h.mapped hva hm
  · obtain ⟨hsolid, hsame⟩ := h.taken htake
    exact ⟨hsolid, fun q _ => hsame _⟩

theorem Solid.munmapPage (hva : va < kernelVirtBase) : Solid (munmapPage (d * pageSize) va s) d ∧
      ∀ q, pageSlot q ≠ pageSlot va → Same s (munmapPage (d * pageSize) va s) d (pageSlot q) := by
  cases hf : frameAt s d (pageSlot va) with
  | none =>
    rw [munmapPage_none hf hva]
    exact ⟨h, fun q _ => Same.refl ..⟩
  | some f =>
    obtain ⟨hfree, hat⟩ := munmapPage_some h.space hf (h.real hf)
    have hkept : ∀ {k x}, frameAt (Vmm.munmapPage (d * pageSize) va s) d k = some x →
        k ≠ pageSlot va ∧ frameAt s d k = some x := by
      intro k x hk
      rw [hat] at hk
      split at hk
      · cases hk
      · exact ⟨‹_›, hk⟩
    refine ⟨⟨fun hk hk' => h.distinct (hkept hk).2 (hkept hk').2, fun {k x} hk hx => ?_, fun hk => h.real (hkept hk).2,
      fun hx => ?_⟩, fun q hq => ⟨by rw [hat, if_neg hq], fun x hx => ?_⟩⟩
    · rcases (hfree x).mp hx with hx | rfl
      · exact h.used (hkept hk).2 hx
      · exact (hkept hk).1 (h.distinct (hkept hk).2 hf)
    · rcases (hfree 0).mp hx with hx | hx
      · exact h.zero hx
      · exact (h.real hf).1 hx.symm
    · -- only the table of the page is written
      obtain ⟨hdi, hpi, t, ht, hpage⟩ := table_of_page hf
      have htx := (h.space.page_ne hx).2 _ t hdi ht
      rw [munmapPage_eq ht hpage (h.real hf), cell_setEntry hpi htx.symm]
      rfl

theorem Solid.mmapPages (hps : ∀ p ∈ ps, p < kernelVirtBase) (flags : Nat) :
    Solid (mmapPages (d * pageSize) flags ps s).2 d ∧
      ∀ q, pageSlot q ∉ ps.map pageSlot → Same s (mmapPages (d * pageSize) flags ps s).2 d (pageSlot q) := by
  induction ps generalizing s with
  | nil => exact ⟨h, fun q _ => Same.refl ..⟩
  | cons p ps ih =>
    obtain ⟨hsolid, hsame⟩ := h.mapFresh (hps p (.head _)) flags
    rw [Vmm.mmapPages]
    dsimp only
    split
    · rename_i hfail
      rw [Vmm.mapFresh, if_pos hfail] at hsolid hsame
      exact ⟨hsolid, fun q hq => hsame q fun heq => hq (heq ▸ .head _)⟩
    · rename_i hne
      rw [Vmm.mapFresh, if_neg hne] at hsolid hsame
      obtain ⟨hend, hrest⟩ := ih hsolid fun q hq => hps q (.tail _ hq)
      refine ⟨hend, fun q hq => (hsame q fun heq => hq (heq ▸ .head _)).trans (hrest q fun hmem => ?_)⟩
      exact hq (.tail _ hmem)

theorem Solid.munmapPages (hps : ∀ p ∈ ps, p < kernelVirtBase) : Solid (munmapPages (d * pageSize) ps s) d ∧
      (∀ q, pageSlot q ∉ ps.map pageSlot → Same s (munmapPages (d * pageSize) ps s) d (pageSlot q)) ∧
      ∀ k, frameAt s d k = none → frameAt (munmapPages (d * pageSize) ps s) d k = none := by
  induction ps generalizing s with
  | nil => exact ⟨h, fun q _ => Same.refl .., fun _ hk => hk⟩
  | cons p ps ih =>
    have hp := hps p (.head _)
    obtain ⟨hsolid, hsame⟩ := h.munmapPage hp
    obtain ⟨hend, hrest, hnone⟩ := ih hsolid fun q hq => hps q (.tail _ hq)
    refine ⟨hend, fun q hq => ?_, fun k hk => hnone k ?_⟩
    · refine (hsame q fun heq => hq (heq ▸ .head _)).trans (hrest q fun hmem => ?_)
      exact hq (.tail _ hmem)
    · cases hf : frameAt s d (pageSlot p) with
      | none => rw [munmapPage_none hf hp, hk]
      | some f =>
        rw [(munmapPage_some h.space hf (h.real hf)).2 k, hk]
        exact ite_self _

/-- With room for the tables, a loop of `mm_mmap` that goes through has mapped every page. -/
theorem Solid.mmapPages_all (hps : ∀ p ∈ ps, p < kernelVirtBase) (hnd : (ps.map pageSlot).Nodup)
    (hroom : Roomy (hasTable s d) (frames s) ps) (flags : Nat)
    (hok : (Vmm.mmapPages (d * pageSize) flags ps s).1 = true) :
    ∀ p ∈ ps, ∃ f, frameAt (Vmm.mmapPages (d * pageSize) flags ps s).2 d (pageSlot p) = some f := by
  induction ps generalizing s with
  | nil => exact fun p hp => absurd hp List.not_mem_nil
  | cons p ps ih =>
    obtain ⟨hp, hps'⟩ := List.forall_mem_cons.mp hps
    obtain ⟨hni, hnd⟩ := List.nodup_cons.mp hnd
    obtain ⟨hsolid, _⟩ := h.mapFresh hp flags
    rw [Vmm.mmapPages] at hok ⊢
    dsimp only at hok ⊢
    by_cases hfail : s.allocZero.1 = 0
    · rw [if_pos hfail] at hok
      cases hok
    · rw [if_neg hfail] at hok ⊢
      obtain ⟨g, N, hm⟩ := mapFresh_roomy h.space h.apart h.zero hp hroom flags hfail
      have hroom' := hm.roomy hp hroom
      have hpage := hm.page
      rw [Vmm.mapFresh, if_neg hfail] at hsolid hroom' hpage
      intro q hq
      rcases List.mem_cons.mp hq with rfl | hq
      · have hstay := (hsolid.mmapPages hps' flags).2 q hni
        exact ⟨g, hstay.1.trans hpage⟩
      · exact ih hsolid hps' hnd hroom' hok q hq

theorem Solid.slabAlloc : Solid s.slabAlloc.2 d := by
  rw [slabAlloc_eq]
  exact ⟨h.distinct, h.used, h.real, h.zero⟩

end Pages

theorem Same.slabAlloc (h : Same s s' d k) : Same s s'.slabAlloc.2 d k := by
  rw [slabAlloc_eq]
  exact h

section Areas

variable (h : Solid s mm.dir) (hmm : mm.Aligned) (hps : ∀ p ∈ pageAddrs addr (alignUp len pageSize), p < kernelVirtBase)

include h hmm hps

/-- **`mm_mmap`** changes none but its pages. -/
theorem Solid.mmMmap (flags : Nat) : Solid (mmMmap mm addr len flags s).2.2 mm.dir ∧
      ∀ q, pageSlot q ∉ (pageAddrs addr (alignUp len pageSize)).map pageSlot →
        Same s (mmMmap mm addr len flags s).2.2 mm.dir (pageSlot q) := by
  obtain ⟨hsolid, hsame⟩ := h.mmapPages hps (mmapFlags flags)
  rw [← hmm] at hsolid hsame
  rw [(mmMmap_end mm addr len flags s).vm]
  split
  · exact ⟨Solid.slabAlloc hsolid, fun q hq => (hsame q hq).slabAlloc⟩
  · exact ⟨hsolid, hsame⟩

/-- With room for the tables, an `mm_mmap` that returns 0 has mapped its pages. -/
theorem Solid.mmMmap_all
    (hroom : Roomy (hasTable s mm.dir) (frames s) (pageAddrs addr (alignUp len pageSize))) (flags : Nat)
    (hok : (Vmm.mmMmap mm addr len flags s).1 = 0) : ∀ p ∈ pageAddrs addr (alignUp len pageSize),
      ∃ f, frameAt (Vmm.mmMmap mm addr len flags s).2.2 mm.dir (pageSlot p) = some f := by
  have hall := h.mmapPages_all hps (pageAddrs_nodup _ _) hroom (mmapFlags flags)
  rw [← hmm] at hall
  have hend := mmMmap_end mm addr len flags s
  generalize Vmm.mmapPages mm.pgdir (mmapFlags flags) (pageAddrs addr (alignUp len pageSize)) s = r at *
  obtain ⟨htrue, _⟩ := hend.ok.mp hok
  rw [hend.vm, if_pos htrue, slabAlloc_eq]
  exact hall htrue

/-- **`mm_munmap`** changes none but its pages, and maps none. -/
theorem Solid.mmMunmap : Solid (mmMunmap mm addr len s).2 mm.dir ∧
      (∀ q, pageSlot q ∉ (pageAddrs addr (alignUp len pageSize)).map pageSlot →
        Same s (mmMunmap mm addr len s).2 mm.dir (pageSlot q)) ∧
      ∀ k, frameAt s mm.dir k = none → frameAt (mmMunmap mm addr len s).2 mm.dir k = none := by
  have hpages := h.munmapPages hps
  rw [← hmm] at hpages
  exact hpages

end Areas

/-! ## 2. Page addresses -/

theorem pageSlot_inj {p : Nat} (hp : p % 4096 = 0) (hq : q % 4096 = 0) (heq : pageSlot p = pageSlot q) : p = q := by
  injection heq with hdi hpi
  have hdi : p / 2 ^ 22 = q / 2 ^ 22 := hdi
  have hpi : p / 2 ^ 12 % 1024 = q / 2 ^ 12 % 1024 := hpi
  omega

theorem pageSlot_notMem {p : Nat} (hps : ∀ q ∈ ps, q % 4096 = 0) (hp : p % 4096 = 0) (hout : p ∉ ps) :
    pageSlot p ∉ ps.map pageSlot := by
  intro hmem
  obtain ⟨q, hq, heq⟩ := List.mem_map.mp hmem
  exact hout (pageSlot_inj (hps q hq) hp heq ▸ hq)

theorem mem_pages_between {a b : Nat} (ha : a % 4096 = 0) (hb : b % 4096 = 0) (hab : a < b) (hend : b ≤ 3221225472)
    (q : Nat) : q ∈ pageAddrs a (alignUp (b - a) pageSize) ↔ q % 4096 = 0 ∧ a ≤ q ∧ q < b := by
  have hsub : b - a ≤ 3221225472 := by omega
  obtain ⟨h1, h2, h3⟩ := alignUp_page hsub
  have hup : alignUp (b - a) pageSize = b - a := by omega
  have hfin : a + (b - a) ≤ 3221225472 := by omega
  rw [hup, mem_pageAddrs ha (by omega) hfin, Nat.add_sub_cancel' hab.le]

/-- What leaves the pages outside of a list the same leaves those outside of its bounds the same. -/
theorem same_outside {a b : Nat} (hpages : ∀ q, q ∈ ps ↔ q % 4096 = 0 ∧ a ≤ q ∧ q < b)
    (hsame : ∀ q, pageSlot q ∉ ps.map pageSlot → Same s s' d (pageSlot q)) (hq : q % 4096 = 0)
    (hnot : ¬ (a ≤ q ∧ q < b)) : Same s s' d (pageSlot q) :=
  hsame q (pageSlot_notMem (fun r hr => ((hpages r).mp hr).1) hq fun hmem => hnot ((hpages q).mp hmem).2)

/-! ## 3. The calls of one process -/

/-- The process that calls: its mapped areas that are live, and the last value it has set with `brk`. -/
structure HeapState where
  vm : Vm
  mm : MmStruct
  /-- The pages of the areas without an address that were returned and not unmapped since. -/
  live : Set Nat
  lastBrk : Nat

/-- The calls: `mmap` is made without an address. -/
inductive HeapCall where
  | brk (x : Nat)
  | mmap (len prot : Nat)
  | munmap (addr len : Nat)

def HeapCall.call : HeapCall → MemCall
  | .brk x => .brk x
  | .mmap len prot => .mmap 0 len prot
  | .munmap addr len => .munmap addr len

variable {p p' p₀ : HeapState} {c : HeapCall} {es : List HeapCall} {q x : Nat}

/-- The pages of the area that a call without an address returns. -/
def HeapState.Area (p : HeapState) (len q : Nat) : Prop := q % pageSize = 0 ∧ p.mm.brk ≤ q ∧ q < p.mm.brk + len

/-- `munmap` of the range unmaps the page. -/
def Covers (addr len q : Nat) : Prop := pageSlot q ∈ (pageAddrs addr (alignUp len pageSize)).map pageSlot

def HeapCall.Covers (q : Nat) : HeapCall → Prop
  | .munmap addr len => Vmm.Covers addr len q
  | .brk _ | .mmap _ _ => False

/-- What `mm_brk` or `mm_mmap` returns to the call, 0 on success. -/
def HeapCall.ret (p : HeapState) : HeapCall → Int
  | .brk x => (mmBrk p.mm (if x ≠ 0 then x else p.mm.brk) p.vm).1
  | .mmap len prot =>
    (mmMmap { p.mm with brk := u32 (p.mm.brk + alignUp len pageSize) } p.mm.brk len (protFlags prot) p.vm).1
  | .munmap _ _ => 0

/-- The pages of live areas after a call. -/
def HeapCall.live (p : HeapState) : HeapCall → Set Nat
  | .brk _ => p.live
  | .mmap len prot => {q | q ∈ p.live ∨ (HeapCall.mmap len prot).ret p = 0 ∧ p.Area len q}
  | .munmap addr len => {q | q ∈ p.live ∧ ¬ Vmm.Covers addr len q}

/-- The end the process has set, after a call. -/
def HeapCall.lastBrk (p : HeapState) : HeapCall → Nat
  | .brk x => if x ≠ 0 ∧ (HeapCall.brk x).ret p = 0 then x else p.lastBrk
  | .mmap _ _ | .munmap _ _ => p.lastBrk

/-- The process after a call that left the machine in `r`. -/
def HeapState.after (p : HeapState) (c : HeapCall) (r : Int × MmStruct × Vm) : HeapState :=
  ⟨r.2.2, r.2.1, c.live p, c.lastBrk p⟩

def HeapCall.exec (p : HeapState) (c : HeapCall) : HeapState := p.after c (c.call.exec p.mm p.vm)

def HeapStep (p : HeapState) (c : HeapCall) (p' : HeapState) : Prop := p' = c.exec p

/-- The page lies between the two ends. -/
def Between (old new q : Nat) : Prop := old ≤ q ∧ q < new ∨ new ≤ q ∧ q < old

/-- **The two do not destroy each other**, in a run of calls: a page of a returned area keeps its frame and content
    until `munmap` covers it, and a successful `brk` maps and unmaps between the two ends only. -/
structure HeapsApart (p₀ : HeapState) (es : List HeapCall) : Prop where
  areas : ∀ pre len prot post p p', es = pre ++ .mmap len prot :: post → Run HeapStep p₀ pre p →
    (HeapCall.mmap len prot).ret p = 0 → Run HeapStep ((HeapCall.mmap len prot).exec p) post p' →
    ∀ q, p.Area len q → (∀ c ∈ post, ¬ c.Covers q) →
      ∃ f, frameAt ((HeapCall.mmap len prot).exec p).vm p.mm.dir (pageSlot q) = some f ∧
        frameAt p'.vm p.mm.dir (pageSlot q) = some f ∧
        pool.cell p'.vm f = pool.cell ((HeapCall.mmap len prot).exec p).vm f
  ends : ∀ pre x post p, es = pre ++ .brk x :: post → Run HeapStep p₀ pre p → (HeapCall.brk x).ret p = 0 →
    ∀ q, q % pageSize = 0 →
      frameAt ((HeapCall.brk x).exec p).vm p.mm.dir (pageSlot q) ≠ frameAt p.vm p.mm.dir (pageSlot q) →
      Between p.lastBrk x q

/-- The condition. `brk` is not lowered over a page of a live area, nor over a mapped page above the last value it was
    set to; no call leaves the user part; and memory does not run out between a page of an area and its table, which
    `mm_mmap` does not notice. -/
def HeapCall.Apart (p : HeapState) : HeapCall → Prop
  | .brk x => x = 0 ∨ alignUp x pageSize < p.mm.startBrk ∨ x ≤ kernelVirtBase ∧
      ∀ q, q % pageSize = 0 → alignUp x pageSize ≤ q → q < p.mm.brk →
        q ∉ p.live ∧ (q < p.lastBrk ∨ frameAt p.vm p.mm.dir (pageSlot q) = none)
  | .mmap len _ => p.mm.brk + len ≤ kernelVirtBase ∧
      Roomy (hasTable p.vm p.mm.dir) (frames p.vm) (pageAddrs p.mm.brk (alignUp len pageSize))
  | .munmap addr len => ∀ q ∈ pageAddrs addr (alignUp len pageSize), q < kernelVirtBase

/-- A process whose frames are its own, with its areas below the end of the heap. -/
structure HeapState.Tidy (p : HeapState) : Prop where
  solid : Solid p.vm p.mm.dir
  aligned : p.mm.Aligned
  page : p.mm.brk % pageSize = 0
  user : p.mm.brk ≤ kernelVirtBase
  last : p.lastBrk ≤ p.mm.brk
  live : ∀ q ∈ p.live, q % pageSize = 0 ∧ q < p.mm.brk

/-! ## 4. One call -/

/-- What a call leaves of the live areas. -/
structure Kept (p p' : HeapState) : Prop where
  tidy : p'.Tidy
  pgdir : p'.mm.pgdir = p.mm.pgdir
  same : ∀ q ∈ p.live, q ∈ p'.live → Same p.vm p'.vm p.mm.dir (pageSlot q)

/-- `mm_brk` to an end that is rounded, with what `mm_mmap` and `mm_munmap` would do. -/
def brkTo (mm : MmStruct) (fin : Nat) (grown : Int × MmStruct × Vm) (shrunk : MmStruct × Vm) (s : Vm) :
    Int × MmStruct × Vm :=
  if fin < mm.startBrk then (-EINVAL, mm, s)
  else if fin > mm.brk then
    let (r, mm, s) := grown
    if r ≠ 0 then (r, mm, s) else (0, { mm with brk := fin }, s)
  else if fin < mm.brk then
    let (mm', s) := shrunk
    (0, { mm' with brk := fin }, s)
  else (0, { mm with brk := fin }, s)

theorem mmBrk_eq (mm : MmStruct) (x : Nat) (s : Vm) : mmBrk mm x s = brkTo mm (alignUp x pageSize)
    (mmMmap mm mm.brk (alignUp x pageSize - mm.brk) (VM_READ ||| VM_WRITE) s)
    (mmMunmap mm (alignUp x pageSize) (mm.brk - alignUp x pageSize) s) s := rfl

section BrkTo

variable {fin : Nat} {grown : Int × MmStruct × Vm} {shrunk : MmStruct × Vm}

theorem brkTo_refused (h : fin < mm.startBrk) : brkTo mm fin grown shrunk s = (-EINVAL, mm, s) := by
  rw [brkTo, if_pos h]

theorem brkTo_stays (h : fin = mm.brk) : (brkTo mm fin grown shrunk s).2 = (mm, s) := by
  rw [brkTo, h]
  by_cases hlow : mm.brk < mm.startBrk
  · rw [if_pos hlow]
  · rw [if_neg hlow, if_neg (Nat.lt_irrefl _), if_neg (Nat.lt_irrefl _)]

theorem brkTo_grows (hlow : ¬ fin < mm.startBrk) (h : mm.brk < fin) (hbrk : grown.2.1.brk = mm.brk) :
    (brkTo mm fin grown shrunk s).2.2 = grown.2.2 ∧
      ((brkTo mm fin grown shrunk s).1 = 0 ∧ (brkTo mm fin grown shrunk s).2.1.brk = fin ∨
        (brkTo mm fin grown shrunk s).1 ≠ 0 ∧ (brkTo mm fin grown shrunk s).2.1.brk = mm.brk) := by
  obtain ⟨r, mm', s'⟩ := grown
  rw [brkTo, if_neg hlow, if_pos h]
  dsimp only at *
  by_cases hr : r = 0
  · rw [if_neg (not_not_intro hr)]
    exact ⟨rfl, .inl ⟨rfl, rfl⟩⟩
  · rw [if_pos hr]
    exact ⟨rfl, .inr ⟨hr, hbrk⟩⟩

theorem brkTo_shrinks (hlow : ¬ fin < mm.startBrk) (h : fin < mm.brk) : (brkTo mm fin grown shrunk s).1 = 0 ∧
    (brkTo mm fin grown shrunk s).2.2 = shrunk.2 ∧ (brkTo mm fin grown shrunk s).2.1.brk = fin := by
  rw [brkTo, if_neg hlow, if_neg (Nat.lt_asymm h), if_pos h]
  exact ⟨rfl, rfl, rfl⟩

end BrkTo

theorem exec_vm (p : HeapState) (c : HeapCall) : (c.exec p).vm = (c.call.exec p.mm p.vm).2.2 := rfl

theorem exec_mm (p : HeapState) (c : HeapCall) : (c.exec p).mm = (c.call.exec p.mm p.vm).2.1 := rfl

theorem exec_live (p : HeapState) (c : HeapCall) : (c.exec p).live = c.live p := rfl

theorem exec_lastBrk (p : HeapState) (c : HeapCall) : (c.exec p).lastBrk = c.lastBrk p := rfl

theorem exec_dir (p : HeapState) (c : HeapCall) : (c.exec p).mm.pgdir = p.mm.pgdir := exec_pgdir p.mm p.vm c.call

theorem HeapState.Tidy.of_same (h : p.Tidy) (hd : p'.mm.pgdir = p.mm.pgdir) (hsolid : Solid p'.vm p.mm.dir)
    (hpage : p'.mm.brk % pageSize = 0) (huser : p'.mm.brk ≤ kernelVirtBase) (hlast : p'.lastBrk ≤ p'.mm.brk)
    (hlive : ∀ q ∈ p'.live, q % pageSize = 0 ∧ q < p'.mm.brk) : p'.Tidy := by
  have hdir : p'.mm.dir = p.mm.dir := by rw [MmStruct.dir, MmStruct.dir, hd]
  refine ⟨hdir.symm ▸ hsolid, ?_, hpage, huser, hlast, hlive⟩
  rw [MmStruct.Aligned, hdir, hd]
  exact h.aligned

/-- What `brk` may do: what changes lies between the two ends. -/
structure BrkKept (p : HeapState) (x : Nat) (p' : HeapState) : Prop extends Kept p p' where
  between : ∀ q, q % pageSize = 0 →
    frameAt p'.vm p.mm.dir (pageSlot q) ≠ frameAt p.vm p.mm.dir (pageSlot q) → Between p.lastBrk x q

theorem BrkKept.idle (h : p.Tidy) (hvm : p'.vm = p.vm) (hmm : p'.mm = p.mm) (hlive : p'.live = p.live)
    (hlast : p'.lastBrk ≤ p.mm.brk) : BrkKept p x p' := by
  obtain ⟨vm, mm, live, last⟩ := p'
  subst hvm hmm hlive
  exact ⟨⟨⟨h.solid, h.aligned, h.page, h.user, hlast, h.live⟩, rfl, fun _ _ _ => Same.refl ..⟩,
    fun _ _ hne => absurd rfl hne⟩

/-- The end goes up, or the pages for it cannot be had. -/
theorem BrkKept.grown (h : p.Tidy) (hx : x ≤ kernelVirtBase) (hgrow : p.mm.brk < alignUp x pageSize)
    (hd : p'.mm.pgdir = p.mm.pgdir) (hlive : p'.live = p.live)
    (hvm : p'.vm = (mmMmap p.mm p.mm.brk (alignUp x pageSize - p.mm.brk) (VM_READ ||| VM_WRITE) p.vm).2.2)
    (hend : p'.mm.brk = alignUp x pageSize ∧ p'.lastBrk = x ∨ p'.mm.brk = p.mm.brk ∧ p'.lastBrk = p.lastBrk) :
    BrkKept p x p' := by
  have hbrk : p.mm.brk % 4096 = 0 := h.page
  have hlast := h.last
  have huser : p.mm.brk ≤ 3221225472 := h.user
  have hx' : x ≤ 3221225472 := hx
  obtain ⟨hle, hlt, hmod⟩ := alignUp_page hx
  generalize alignUp x pageSize = fin at *
  have hpages := mem_pages_between hbrk hmod hgrow (by omega)
  have hbelow : ∀ q ∈ pageAddrs p.mm.brk (alignUp (fin - p.mm.brk) pageSize), q < 3221225472 := by
    intro q hq
    have hq := (hpages q).mp hq
    omega
  obtain ⟨hsolid, hsame⟩ := h.solid.mmMmap h.aligned hbelow (VM_READ ||| VM_WRITE)
  rw [← hvm] at hsolid hsame
  refine ⟨⟨h.of_same hd hsolid ?_ ?_ ?_ fun q hq => ?_, hd, fun q hq _ => ?_⟩, fun q hq hne => ?_⟩
  · change p'.mm.brk % 4096 = 0
    rcases hend with ⟨he, _⟩ | ⟨he, _⟩ <;> omega
  · change p'.mm.brk ≤ 3221225472
    rcases hend with ⟨he, _⟩ | ⟨he, _⟩ <;> omega
  · rcases hend with ⟨he, he'⟩ | ⟨he, he'⟩ <;> omega
  · obtain ⟨hq, hlow⟩ := h.live q (hlive ▸ hq)
    exact ⟨hq, by rcases hend with ⟨he, _⟩ | ⟨he, _⟩ <;> omega⟩
  · obtain ⟨hq, hlow⟩ := h.live q hq
    exact same_outside hpages hsame hq (by omega)
  · by_cases hin : p.mm.brk ≤ q ∧ q < fin
    · have hq : q % 4096 = 0 := hq
      exact .inl ⟨by omega, by omega⟩
    · exact absurd (same_outside hpages hsame hq hin).1 hne

theorem BrkKept.lowered (h : p.Tidy) (hx : x ≤ kernelVirtBase) (hlow : alignUp x pageSize < p.mm.brk)
    (hspared : ∀ q, q % pageSize = 0 → alignUp x pageSize ≤ q → q < p.mm.brk →
      q ∉ p.live ∧ (q < p.lastBrk ∨ frameAt p.vm p.mm.dir (pageSlot q) = none))
    (hd : p'.mm.pgdir = p.mm.pgdir) (hlive : p'.live = p.live)
    (hvm : p'.vm = (mmMunmap p.mm (alignUp x pageSize) (p.mm.brk - alignUp x pageSize) p.vm).2)
    (hend : p'.mm.brk = alignUp x pageSize) (hend' : p'.lastBrk = x) :
    BrkKept p x p' := by
  have hbrk : p.mm.brk % 4096 = 0 := h.page
  have huser : p.mm.brk ≤ 3221225472 := h.user
  obtain ⟨hle, hlt, hmod⟩ := alignUp_page hx
  generalize alignUp x pageSize = fin at *
  have hpages := mem_pages_between hmod hbrk hlow huser
  have hbelow : ∀ q ∈ pageAddrs fin (alignUp (p.mm.brk - fin) pageSize), q < 3221225472 := by
    intro q hq
    have hq := (hpages q).mp hq
    omega
  obtain ⟨hsolid, hsame, hnone⟩ := h.solid.mmMunmap h.aligned hbelow
  rw [← hvm] at hsolid hsame hnone
  have hkeep : ∀ q ∈ p.live, q % 4096 = 0 ∧ ¬ (fin ≤ q ∧ q < p.mm.brk) := by
    intro q hq
    have hq0 := (h.live q hq).1
    exact ⟨hq0, fun hin => (hspared q hq0 hin.1 hin.2).1 hq⟩
  refine ⟨⟨h.of_same hd hsolid ?_ ?_ ?_ fun q hq => ?_, hd, fun q hq _ => ?_⟩, fun q hq hne => ?_⟩
  · rw [hend]
    exact hmod
  · change p'.mm.brk ≤ 3221225472
    omega
  · omega
  · rw [hlive] at hq
    obtain ⟨hq0, hnot⟩ := hkeep q hq
    have hlow := (h.live q hq).2
    exact ⟨hq0, by omega⟩
  · obtain ⟨hq0, hnot⟩ := hkeep q hq
    exact same_outside hpages hsame hq0 hnot
  · by_cases hin : fin ≤ q ∧ q < p.mm.brk
    · rcases (hspared q hq hin.1 hin.2).2 with hlast | hempty
      · exact .inr ⟨by omega, hlast⟩
      · exact absurd ((hnone _ hempty).trans hempty.symm) hne
    · exact absurd (same_outside hpages hsame hq hin).1 hne

theorem brk_exec (hx : x ≠ 0) : ((HeapCall.brk x).exec p).vm = (mmBrk p.mm x p.vm).2.2 ∧
    ((HeapCall.brk x).exec p).mm = (mmBrk p.mm x p.vm).2.1 ∧
    ((HeapCall.brk x).exec p).lastBrk = if (mmBrk p.mm x p.vm).1 = 0 then x else p.lastBrk := by
  have hnew : (if x ≠ 0 then x else p.mm.brk) = x := if_pos hx
  have hret : (HeapCall.brk x).ret p = (mmBrk p.mm x p.vm).1 := by rw [HeapCall.ret, hnew]
  refine ⟨?_, ?_, ?_⟩
  · rw [exec_vm, HeapCall.call, MemCall.exec, sysBrk, hnew]
  · rw [exec_mm, HeapCall.call, MemCall.exec, sysBrk, hnew]
  · rw [exec_lastBrk, HeapCall.lastBrk, hret]
    by_cases hr : (mmBrk p.mm x p.vm).1 = 0
    · rw [if_pos ⟨hx, hr⟩, if_pos hr]
    · rw [if_neg fun hand => hr hand.2, if_neg hr]

theorem brk_lowers (hx : x ≠ 0) (hlow : ¬ alignUp x pageSize < p.mm.startBrk) (h : alignUp x pageSize < p.mm.brk) :
    (HeapCall.brk x).ret p = 0 ∧ ((HeapCall.brk x).exec p).vm =
      munmapPages p.mm.pgdir (pageAddrs (alignUp x pageSize) (alignUp (p.mm.brk - alignUp x pageSize) pageSize))
        p.vm := by
  have hnew : (if x ≠ 0 then x else p.mm.brk) = x := if_pos hx
  obtain ⟨hret, hvm, _⟩ := brkTo_shrinks (s := p.vm) hlow h
  rw [(brk_exec hx).1, HeapCall.ret, hnew, mmBrk_eq]
  exact ⟨hret, hvm⟩

/-- **`brk`**: live areas are kept, and what changes lies between the two ends. -/
theorem brk_kept (h : p.Tidy) (hap : (HeapCall.brk x).Apart p) : BrkKept p x ((HeapCall.brk x).exec p) := by
  by_cases hx : x = 0
  · -- the question where the end is
    subst hx
    have hup : alignUp p.mm.brk pageSize = p.mm.brk := by
      have hbrk : p.mm.brk % 4096 = 0 := h.page
      obtain ⟨h1, h2, h3⟩ := alignUp_page h.user
      omega
    have hstays : (mmBrk p.mm p.mm.brk p.vm).2 = (p.mm, p.vm) := by
      rw [mmBrk_eq]
      exact brkTo_stays hup
    refine .idle h ?_ ?_ (exec_live p _) ?_
    · rw [exec_vm]
      exact congrArg (·.2) hstays
    · rw [exec_mm]
      exact congrArg (·.1) hstays
    · rw [exec_lastBrk]
      exact h.last
  have hd := exec_dir p (.brk x)
  obtain ⟨hvm, hmm, hlast⟩ := brk_exec (p := p) hx
  have hlive : ((HeapCall.brk x).exec p).live = p.live := exec_live p _
  generalize (HeapCall.brk x).exec p = p' at *
  have hgrown := (mmMmap_end p.mm p.mm.brk (alignUp x pageSize - p.mm.brk) (VM_READ ||| VM_WRITE) p.vm).brk
  rw [mmBrk_eq] at hvm hmm hlast
  by_cases hlow : alignUp x pageSize < p.mm.startBrk
  · rw [brkTo_refused hlow] at hvm hmm hlast
    have hlast : p'.lastBrk = p.lastBrk := hlast
    exact .idle h hvm hmm hlive (hlast ▸ h.last)
  obtain ⟨hle, hspared⟩ := (hap.resolve_left hx).resolve_left hlow
  rcases Nat.lt_trichotomy (alignUp x pageSize) p.mm.brk with hshrink | hsame | hgrow
  · obtain ⟨hret, hvm', hbrk'⟩ := brkTo_shrinks hlow hshrink
    refine .lowered h hle hshrink hspared hd hlive (hvm.trans hvm') ((congrArg MmStruct.brk hmm).trans hbrk') ?_
    rw [hlast, if_pos hret]
  · rw [brkTo_stays hsame] at hvm hmm
    refine .idle h hvm hmm hlive ?_
    have hxle := (alignUp_page hle).1
    have hold := h.last
    rw [hlast]
    split <;> omega
  · obtain ⟨hvm', hend⟩ := brkTo_grows hlow hgrow hgrown
    refine .grown h hle hgrow hd hlive (hvm.trans hvm') ?_
    rw [hlast, hmm]
    rcases hend with ⟨hr, hend⟩ | ⟨hr, hend⟩
    · exact .inl ⟨hend, if_pos hr⟩
    · exact .inr ⟨hend, if_neg hr⟩

theorem mmap_ends (p : HeapState) (len prot : Nat) :
    ((HeapCall.mmap len prot).exec p).mm.brk = u32 (p.mm.brk + alignUp len pageSize) ∧
      ((HeapCall.mmap len prot).exec p).mm.startBrk = p.mm.startBrk := by
  rw [exec_mm]
  exact ⟨(mmMmap_end ..).brk, (mmMmap_end ..).startBrk⟩

/-- **`mmap`** keeps the live areas, and on success its pages are there. -/
theorem mmap_kept {prot : Nat} (h : p.Tidy) (hap : (HeapCall.mmap len prot).Apart p) :
    Kept p ((HeapCall.mmap len prot).exec p) ∧ ((HeapCall.mmap len prot).ret p = 0 → ∀ q, p.Area len q →
      ∃ f, frameAt ((HeapCall.mmap len prot).exec p).vm p.mm.dir (pageSlot q) = some f) := by
  obtain ⟨hfit, hroom⟩ := hap
  have hfit : p.mm.brk + len ≤ 3221225472 := hfit
  have hbrk : p.mm.brk % 4096 = 0 := h.page
  have hlen : len ≤ 3221225472 := by omega
  obtain ⟨hle, hlt, hmod⟩ := alignUp_page hlen
  have hpages : ∀ q, q ∈ pageAddrs p.mm.brk (alignUp len pageSize) ↔
      q % 4096 = 0 ∧ p.mm.brk ≤ q ∧ q < p.mm.brk + alignUp len pageSize := by
    intro q
    have hfin : p.mm.brk + alignUp len pageSize ≤ 3221225472 := by omega
    exact mem_pageAddrs hbrk hmod hfin
  have hbelow : ∀ q ∈ pageAddrs p.mm.brk (alignUp len pageSize), q < 3221225472 := by
    intro q hq
    have hq := (hpages q).mp hq
    omega
  have hd := exec_dir p (.mmap len prot)
  have hend := (mmap_ends p len prot).1
  have hlast : ((HeapCall.mmap len prot).exec p).lastBrk = p.lastBrk := exec_lastBrk p _
  -- the end has moved before `mm_mmap` is called
  have hmm : MmStruct.Aligned { p.mm with brk := u32 (p.mm.brk + alignUp len pageSize) } := h.aligned
  have hs : Solid p.vm (MmStruct.dir { p.mm with brk := u32 (p.mm.brk + alignUp len pageSize) }) := h.solid
  obtain ⟨hsolid, hsame⟩ := hs.mmMmap hmm hbelow (protFlags prot)
  have hall := hs.mmMmap_all hmm hbelow hroom (protFlags prot)
  rw [u32_of_lt (by omega)] at hend
  refine ⟨⟨h.of_same hd hsolid ?_ ?_ ?_ fun q hq => ?_, hd, fun q hq _ => ?_⟩, fun hret q hq => ?_⟩
  · change _ % 4096 = 0
    omega
  · change _ ≤ 3221225472
    omega
  · have hold : p.lastBrk ≤ p.mm.brk := h.last
    omega
  · rw [exec_live] at hq
    rcases hq with hq | ⟨_, hq0, _, hq⟩
    · obtain ⟨hq0, hlow⟩ := h.live q hq
      exact ⟨hq0, by omega⟩
    · exact ⟨hq0, by omega⟩
  · obtain ⟨hq0, hlow⟩ := h.live q hq
    exact same_outside hpages hsame hq0 (by omega)
  · obtain ⟨hq0, hlow, hq⟩ := hq
    exact hall hret q ((hpages q).mpr ⟨hq0, hlow, by omega⟩)

/-- **`munmap`** keeps what it does not cover. -/
theorem munmap_kept (h : p.Tidy) (hap : (HeapCall.munmap addr len).Apart p) :
    Kept p ((HeapCall.munmap addr len).exec p) := by
  obtain ⟨hsolid, hsame, _⟩ := h.solid.mmMunmap h.aligned hap
  have hvm : ((HeapCall.munmap addr len).exec p).vm = (mmMunmap p.mm addr len p.vm).2 := exec_vm p _
  have hbrk : ((HeapCall.munmap addr len).exec p).mm.brk = p.mm.brk := by
    rw [exec_mm]
    rfl
  have hd := exec_dir p (.munmap addr len)
  have hlive : ((HeapCall.munmap addr len).exec p).live = {q | q ∈ p.live ∧ ¬ Vmm.Covers addr len q} := exec_live p _
  have hlast : ((HeapCall.munmap addr len).exec p).lastBrk = p.lastBrk := exec_lastBrk p _
  generalize (HeapCall.munmap addr len).exec p = p' at *
  rw [← hvm] at hsolid hsame
  refine ⟨h.of_same hd hsolid (hbrk ▸ h.page) (hbrk ▸ h.user) ?_ fun q hq => ?_, hd, fun q _ hq => ?_⟩
  · rw [hlast, hbrk]
    exact h.last
  · rw [hlive] at hq
    rw [hbrk]
    exact h.live q hq.1
  · rw [hlive] at hq
    exact hsame q hq.2

theorem call_kept (h : p.Tidy) (hap : c.Apart p) : Kept p (c.exec p) := by
  cases c with
  | brk x => exact (brk_kept h hap).toKept
  | mmap len prot => exact (mmap_kept h hap).1
  | munmap addr len => exact munmap_kept h hap

/-- A live page stays live until it is covered. -/
theorem live_exec (hq : q ∈ p.live) (hc : ¬ c.Covers q) : q ∈ (c.exec p).live := by
  rw [exec_live]
  cases c with
  | brk x => exact hq
  | mmap len prot => exact .inl hq
  | munmap addr len => exact ⟨hq, hc⟩

/-! ## 5. Runs -/

/-- A step that meets the condition. -/
def ApartStep (p : HeapState) (c : HeapCall) (p' : HeapState) : Prop := c.Apart p ∧ HeapStep p c p'

theorem ApartStep.heapStep {es : List HeapCall} (hrun : Run ApartStep p es p') : Run HeapStep p es p' :=
  hrun.mono fun _ _ _ h => h.2

theorem heapStep_unique (p : HeapState) (c : HeapCall) (p1 p2 : HeapState) (h1 : HeapStep p c p1)
    (h2 : HeapStep p c p2) : p1 = p2 := h1.trans h2.symm

theorem tidy_run (h : p.Tidy) (hrun : Run ApartStep p es p') : p'.Tidy := by
  refine hrun.invariant (I := HeapState.Tidy) (fun p c p' h hstep => ?_) h
  obtain ⟨hap, rfl⟩ := hstep
  exact (call_kept h hap).tidy

/-- **A live page** is where it was, as long as no call covers it. -/
theorem live_run (h : p.Tidy) (hrun : Run ApartStep p es p') (hq : q ∈ p.live) (hfree : ∀ c ∈ es, ¬ c.Covers q) :
    Same p.vm p'.vm p.mm.dir (pageSlot q) := by
  induction hrun with
  | nil p => exact Same.refl ..
  | cons hstep _ ih =>
    obtain ⟨hap, rfl⟩ := hstep
    rename_i p _ c _ _
    have hkept := call_kept h hap
    have hlive := live_exec hq (hfree c (.head _))
    have hrest := ih hkept.tidy hlive fun c hc => hfree c (.tail _ hc)
    have hdir : (c.exec p).mm.dir = p.mm.dir := by rw [MmStruct.dir, MmStruct.dir, hkept.pgdir]
    exact (hkept.same q hq hlive).trans (hdir ▸ hrest)

/-- **The two allocators keep apart** in every run whose calls meet the condition. -/
theorem mmap_survives_brk (h₀ : p₀.Tidy) (hrun : Run ApartStep p₀ es p') : HeapsApart p₀ es := by
  refine ⟨fun pre len prot post p p₂ hes hpre hret hpost q hq hfree => ?_, fun pre x post p hes hpre _ => ?_⟩
  · subst hes
    obtain ⟨p₁, hpre', hrest⟩ := hrun.split
    cases hpre.unique heapStep_unique (ApartStep.heapStep hpre')
    cases hrest with
    | cons hstep hpost' =>
      obtain ⟨hap, rfl⟩ := hstep
      cases hpost.unique heapStep_unique (ApartStep.heapStep hpost')
      have ht := tidy_run h₀ hpre'
      obtain ⟨hkept, hall⟩ := mmap_kept ht hap
      obtain ⟨f, hf⟩ := hall hret q hq
      have hdir : ((HeapCall.mmap len prot).exec p).mm.dir = p.mm.dir := by rw [MmStruct.dir, MmStruct.dir, hkept.pgdir]
      have hsame := live_run hkept.tidy hpost' (.inr ⟨hret, hq⟩) hfree
      rw [hdir] at hsame
      exact ⟨f, hf, hsame.1.trans hf, hsame.2 f hf⟩
  · subst hes
    obtain ⟨p₁, hpre', hrest⟩ := hrun.split
    cases hpre.unique heapStep_unique (ApartStep.heapStep hpre')
    cases hrest with
    | cons hstep hpost' => exact (brk_kept (tidy_run h₀ hpre') hstep.1).between

/-! ## 6. A new process -/

theorem mmCreate_brk (h : mmCreate kernelPgdir s = (some mm, s')) :
    mm.brk = 0x0C048000 ∧ mm.startBrk = 0x0C048000 := by
  unfold mmCreate at h
  dsimp only at h
  split at h
  · split at h
    · cases h
    · cases h
      exact ⟨rfl, rfl⟩
  · cases h

/-- **A new process** is tidy: it has a directory and no area. -/
theorem created_tidy (h0 : 0 ∉ pool.free s) (h : mmCreate kernelPgdir s = (some mm, s')) :
    HeapState.Tidy ⟨s', mm, ∅, mm.brk⟩ := by
  obtain ⟨hwf, hown⟩ := mmCreate_wellFormed h
  obtain ⟨x, _, hx, _, _, htake, _⟩ := mmCreate_spec h
  have hdir : mm.dir = x := dir_of_pgdir hx
  have hin := htake.was_free x rfl
  have hbrk := (mmCreate_brk h).1
  refine ⟨⟨hwf.space.inj, fun {k f} hk => hwf.apart f ⟨k, hk⟩, fun {k f} hk => ?_, fun hz => ?_⟩, hwf.aligned, ?_, ?_,
    Nat.le_refl _, fun q hq => hq.elim⟩
  · have hf : f ∈ spaceFrames s' mm.dir := ⟨k, hk⟩
    rw [hown, hdir] at hf
    rw [Set.mem_singleton_iff.mp hf]
    exact ⟨fun heq => h0 (heq ▸ hin), free_lt hin⟩
  · exact h0 ((htake.free_iff 0).mp hz).1
  · rw [hbrk]
    decide
  · rw [hbrk]
    decide

theorem mmMmap_one_ok (hp : pageAddrs addr (alignUp len pageSize) = [va]) (flags : Nat) (hslab : s.slab = [])
    (h0 : 0 ∉ pool.free s) (hroom : 1 ≤ frames s) : (mmMmap mm addr len flags s).1 = 0 := by
  have hne : s.allocZero.1 ≠ 0 := by
    rcases allocZero_cases s with ⟨_, _, _, _, hempty⟩ | ⟨g, hg0, hg, _⟩
    · rw [frames_eq_zero (hempty h0)] at hroom
      exact absurd hroom (by decide)
    · rw [hg, pageSize_eq]
      omega
  refine (mmMmap_end mm addr len flags s).ok.mpr ?_
  rw [hp, mmapPages]
  dsimp only
  have hs : (mapPage mm.pgdir va s.allocZero.1 (mmapFlags flags) s.allocZero.2).2.slab = [] :=
    (mapPage_slab ..).trans hslab
  rw [if_neg hne, mmapPages]
  exact ⟨rfl, congrArg Prod.fst (slabAlloc_nil hs)⟩

/-- A new process with memory for one area of a page. -/
theorem one_page_process : ∃ p : HeapState, p.Tidy ∧ p.mm.brk = 0x0C048000 ∧ p.mm.startBrk = 0x0C048000 ∧
    p.lastBrk = 0x0C048000 ∧ (HeapCall.mmap 0x1000 PROT_WRITE).Apart p ∧
    (HeapCall.mmap 0x1000 PROT_WRITE).ret p = 0 := by
  have hz : 0 ∉ pool.free fourFree := fun hm => absurd (mem_fourFree.mp hm) (by decide)
  obtain ⟨mm, s, hcreate, hleft⟩ := mmCreate_goes (1 * pageSize) hz rfl (by rw [frames_fourFree]; decide)
  have htidy := created_tidy hz hcreate
  obtain ⟨hbrk, hstart⟩ := mmCreate_brk hcreate
  obtain ⟨x, _, hx, _, _, _, hnone⟩ := mmCreate_spec hcreate
  have hdir : mm.dir = x := dir_of_pgdir hx
  have hframes : frames s = 3 := by
    rw [frames_fourFree] at hleft
    omega
  have htab : target s mm.dir (pdIndex 0x0C048000) = none := hdir ▸ hnone _ (by decide)
  have hpages : pageAddrs mm.brk (alignUp 0x1000 pageSize) = [0x0C048000] := by
    rw [hbrk]
    decide
  refine ⟨⟨s, mm, ∅, mm.brk⟩, htidy, hbrk, hstart, hbrk, ⟨?_, ?_⟩, ?_⟩
  · rw [hbrk]
    decide
  · rw [hpages]
    refine .inr ?_
    rw [hasTable_eq (by decide), htab, if_neg (by decide), hframes]
    exact ⟨by decide, trivial⟩
  · exact mmMmap_one_ok hpages _ (mmCreate_slab rfl hcreate) htidy.solid.zero (by rw [hframes]; decide)

theorem area_end (h : p.mm.brk = 0x0C048000) : ((HeapCall.mmap 0x1000 PROT_WRITE).exec p).mm.brk = 0x0C049000 := by
  rw [(mmap_ends p 0x1000 PROT_WRITE).1, h]
  decide

/-- An area, and the end raised above it. -/
def areaThenGrow : List HeapCall := [.mmap 0x1000 PROT_WRITE, .brk 0x0C04A000]

theorem mmap_survives_brk_grow : ∃ p₀ p' : HeapState, p₀.Tidy ∧ Run ApartStep p₀ areaThenGrow p' ∧
    HeapsApart p₀ areaThenGrow := by
  obtain ⟨p, htidy, hbrk, _, _, hap, _⟩ := one_page_process
  have hend := area_end hbrk
  have hgrow : (HeapCall.brk 0x0C04A000).Apart ((HeapCall.mmap 0x1000 PROT_WRITE).exec p) := by
    refine .inr (.inr ⟨by decide, fun q _ hle hlt => ?_⟩)
    have hup : alignUp 0x0C04A000 pageSize = 0x0C04A000 := by decide
    omega
  have hrun : Run ApartStep p areaThenGrow _ := .cons ⟨hap, rfl⟩ (.cons ⟨hgrow, rfl⟩ (.nil _))
  exact ⟨p, _, htidy, hrun, mmap_survives_brk htidy hrun⟩

/-- An area, and the end set to where it was. -/
def areaThenLower : List HeapCall := [.mmap 0x1000 PROT_WRITE, .brk 0x0C048000]

/-- The end is lowered by a page that is mapped. -/
theorem brk_takes_page (h : p.Tidy) (hbrk : p.mm.brk = 0x0C049000) (hstart : p.mm.startBrk = 0x0C048000)
    (hf : frameAt p.vm p.mm.dir (pageSlot 0x0C048000) = some f) : (HeapCall.brk 0x0C048000).ret p = 0 ∧
      frameAt ((HeapCall.brk 0x0C048000).exec p).vm p.mm.dir (pageSlot 0x0C048000) = none ∧
      f ∈ pool.free ((HeapCall.brk 0x0C048000).exec p).vm := by
  have hup : alignUp 0x0C048000 pageSize = 0x0C048000 := by decide
  have hpages : pageAddrs 0x0C048000 (alignUp (0x0C049000 - 0x0C048000) pageSize) = [0x0C048000] := by decide
  obtain ⟨hret, hvm⟩ := brk_lowers (p := p) (x := 0x0C048000) (by decide) (by omega) (by omega)
  rw [hup, hbrk, hpages, h.aligned] at hvm
  have hvm : ((HeapCall.brk 0x0C048000).exec p).vm = munmapPage (p.mm.dir * pageSize) 0x0C048000 p.vm := hvm
  obtain ⟨hfree, hat⟩ := munmapPage_some h.solid.space hf (h.solid.real hf)
  rw [hvm]
  refine ⟨hret, ?_, (hfree f).mpr (.inr rfl)⟩
  rw [hat, if_pos rfl]

/-- **`brk` unmaps an area**: the end is above the area, so setting it to the value it had before takes the area's
    page away, and its frame is free. -/
theorem brk_unmaps_area : ∃ p₀ p₁ p₂ : HeapState, ∃ f, p₀.Tidy ∧ HeapStep p₀ (.mmap 0x1000 PROT_WRITE) p₁ ∧
    HeapStep p₁ (.brk 0x0C048000) p₂ ∧ (HeapCall.mmap 0x1000 PROT_WRITE).ret p₀ = 0 ∧
    (HeapCall.brk 0x0C048000).ret p₁ = 0 ∧ p₀.Area 0x1000 0x0C048000 ∧
    frameAt p₁.vm p₀.mm.dir (pageSlot 0x0C048000) = some f ∧ frameAt p₂.vm p₀.mm.dir (pageSlot 0x0C048000) = none ∧
    f ∈ pool.free p₂.vm ∧ ¬ Between p₁.lastBrk 0x0C048000 0x0C048000 ∧ ¬ HeapsApart p₀ areaThenLower := by
  obtain ⟨p, htidy, hbrk, hstart, hlast, hap, hret⟩ := one_page_process
  have harea : p.Area 0x1000 0x0C048000 := by
    refine ⟨by decide, ?_, ?_⟩
    · rw [hbrk]
    · rw [hbrk]
      decide
  obtain ⟨hkept, hall⟩ := mmap_kept htidy hap
  obtain ⟨f, hf⟩ := hall hret _ harea
  have hdir : ((HeapCall.mmap 0x1000 PROT_WRITE).exec p).mm.dir = p.mm.dir := by
    rw [MmStruct.dir, MmStruct.dir, hkept.pgdir]
  have hstart₁ := (mmap_ends p 0x1000 PROT_WRITE).2.trans hstart
  have hlast₁ := (exec_lastBrk p (.mmap 0x1000 PROT_WRITE)).trans hlast
  have hend := area_end hbrk
  obtain ⟨hret₁, hnone, hfree⟩ := brk_takes_page hkept.tidy hend hstart₁ (hdir ▸ hf)
  rw [hdir] at hnone
  refine ⟨p, _, _, f, htidy, rfl, rfl, hret, hret₁, harea, hf, hnone, hfree, fun hbetween => ?_, fun hapart => ?_⟩
  · rw [hlast₁] at hbetween
    rcases hbetween with hb | hb
    · exact absurd hb.2 (Nat.lt_irrefl _)
    · exact absurd hb.2 (Nat.lt_irrefl _)
  · have hpost : Run HeapStep ((HeapCall.mmap 0x1000 PROT_WRITE).exec p) [.brk 0x0C048000] _ := .cons rfl (.nil _)
    obtain ⟨g, _, hg, _⟩ := hapart.areas [] 0x1000 PROT_WRITE [.brk 0x0C048000] p _ rfl (.nil p) hret hpost _ harea
      fun c hc hcov => by
        rw [List.mem_singleton.mp hc] at hcov
        exact hcov
    rw [hnone] at hg
    cases hg

end OreUnix.Vmm
