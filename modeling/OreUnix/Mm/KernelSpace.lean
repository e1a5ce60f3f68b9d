/-
  Subject: THE KERNEL'S PAGE DIRECTORY: `pmm_init`, `paging_init` and the kernel part of `page_fault_handler`.

  * `pmmInit` -- the free pages the memory map leaves;
  * `pagingInit` -- the directory with the first 4 MB of memory at KERNEL_VIRT_BASE, the window through which the
    kernel reaches physical memory;
  * `kernelFault` -- a page of the kernel heap made on first use;
  * `KernelDir` -- what holds of that directory from `paging_init` on: its first table maps the window, every other
    table is one of the heap's, and none of its frames is free.

  The memory map is the list of its entries; `total_pages_count` plays no part and is left out.
-/
import OreUnix.Mm.PmmRun
import OreUnix.Mm.MapSpec

/-! ## 1. `pmm_init` -/

namespace OreUnix.Pmm

open Bitmap

def MB2_MEM_AVAILABLE : Nat := 1

/-- `struct mb2_mmap_entry`. -/
structure MmapEntry where
  baseAddr : Nat
  length : Nat
  type : Nat
  deriving DecidableEq, Repr

/-- `page_base` and `page_end`: rounded as 64-bit numbers, then cut to 32 bits. -/
def MmapEntry.pageBase (e : MmapEntry) : Nat := u32 ((e.baseAddr + (pageSize - 1)) % 2 ^ 64 / pageSize * pageSize)

def MmapEntry.pageEnd (e : MmapEntry) : Nat := u32 ((e.baseAddr + e.length) % 2 ^ 64 / pageSize * pageSize)

def addPage (s : Pages) (idx : Nat) : Pages :=
  if idx < bitmapBits then ⟨set s.bitmap idx, u32 (s.freePagesCount + 1)⟩ else s

def addEntry (s : Pages) (e : MmapEntry) : Pages :=
  if e.type = MB2_MEM_AVAILABLE then
    (List.range' (e.pageBase / pageSize) ((e.pageEnd - e.pageBase) / pageSize)).foldl addPage s
  else s

/-- `pmm_init`; without a memory map the pages from 1 MB to 64 MB are taken to be there. -/
def pmmInit (mmap : Option (List MmapEntry)) (kernelPhysEnd : Nat) : Pages :=
  let s : Pages := ⟨fun _ => 0, 0⟩
  let s := match mmap with
    | some es => es.foldl addEntry s
    | none => (List.range' 256 (16384 - 256)).foldl addPage s
  let kend := alignUp kernelPhysEnd pageSize
  let s := pmmMarkUsed s 0 (u32 (kend + pageSize * 16))
  { s with bitmap := clr s.bitmap 0 }

theorem tst_foldl_addPage (s : Pages) (is : List Nat) {j : Nat} (hj : j < bitmapBits) :
    tst (is.foldl addPage s).bitmap j = true ↔ tst s.bitmap j = true ∨ j ∈ is := by
  induction is generalizing s with
  | nil => simp
  | cons i is ih =>
    rw [List.foldl_cons, ih, addPage, List.mem_cons]
    by_cases hi : i < bitmapBits
    · rw [if_pos hi, tst_set, Bool.or_eq_true, decide_eq_true_eq, or_assoc]
    · have hne : j ≠ i := fun heq => hi (heq ▸ hj)
      rw [if_neg hi, or_iff_right hne]

/-- The pages of an entry that may be used. -/
def MmapEntry.Offers (e : MmapEntry) (j : Nat) : Prop :=
  e.type = MB2_MEM_AVAILABLE ∧ j ∈ List.range' (e.pageBase / pageSize) ((e.pageEnd - e.pageBase) / pageSize)

theorem tst_foldl_addEntry (s : Pages) (es : List MmapEntry) {j : Nat} (hj : j < bitmapBits) :
    tst (es.foldl addEntry s).bitmap j = true ↔ tst s.bitmap j = true ∨ ∃ e ∈ es, e.Offers j := by
  induction es generalizing s with
  | nil => simp
  | cons e es ih =>
    have hentry : tst (addEntry s e).bitmap j = true ↔ tst s.bitmap j = true ∨ e.Offers j := by
      rw [addEntry]
      by_cases htype : e.type = MB2_MEM_AVAILABLE
      · rw [if_pos htype, tst_foldl_addPage s _ hj]
        exact or_congr_right ⟨fun h => ⟨htype, h⟩, fun h => h.2⟩
      · rw [if_neg htype]
        exact ⟨.inl, fun h => h.resolve_right fun ho => htype ho.1⟩
    rw [List.foldl_cons, ih, hentry, List.exists_mem_cons_iff, or_assoc]

/-- **After `pmm_init`** the pages of the memory map are free, above the kernel and its margin. -/
theorem mem_pmmInit (es : List MmapEntry) (kernelPhysEnd : Nat) {j : Nat} :
    j ∈ freePages (pmmInit (some es) kernelPhysEnd) ↔ j < bitmapBits ∧ j ≠ 0 ∧ (∃ e ∈ es, e.Offers j) ∧
      j ∉ markPages 0 (u32 (alignUp kernelPhysEnd pageSize + pageSize * 16)) := by
  rw [mem_freePages]
  refine and_congr_right fun hj => ?_
  have hzero : tst (fun _ => 0) j ≠ true := by
    simp [tst]
  unfold pmmInit
  dsimp only
  rw [tst_clr, Bool.and_eq_true, pmmMarkUsed, tst_foldl_markPage _ _ hj, Bool.and_eq_true, tst_foldl_addEntry _ _ hj,
    decide_eq_true_eq, decide_eq_true_eq]
  exact ⟨fun h => ⟨h.2, h.1.1.resolve_left hzero, h.1.2⟩, fun h => ⟨⟨.inr h.2.1, h.2.2⟩, h.1⟩⟩

theorem zero_notMem_pmmInit (mmap : Option (List MmapEntry)) (kernelPhysEnd : Nat) :
    0 ∉ freePages (pmmInit mmap kernelPhysEnd) := by
  intro h
  have hbit := (mem_freePages.mp h).2
  unfold pmmInit at hbit
  dsimp only at hbit
  rw [tst_clr] at hbit
  simp at hbit

end OreUnix.Pmm

namespace OreUnix.Vmm

open ByteMem Pmm Bitmap FramePool

/-! ## 2. `paging_init` and kernel faults -/

/-- The pages of the first 4 MB. -/
@[irreducible] def windowPages : List Nat := List.range (4 * 1024 * 1024 / pageSize)

/-- The loop of `paging_init`. The result of `map_page` is not looked at. -/
def mapWindow (pd : Nat) : List Nat → Vm → Vm
  | [], s => s
  | p :: ps, s =>
    mapWindow pd ps (mapPage pd (kernelVirtBase + p * pageSize) (p * pageSize) VM_WRITE s).2

/-- `paging_init`: the kernel's directory; `none` is the failed assertion. -/
def pagingInit (s : Vm) : Option (Nat × Vm) :=
  let (pd, s) := s.allocZero
  if pd = 0 then none else some (pd, mapWindow pd windowPages s)

/-- The kernel heap's window. -/
def InHeapWindow (va : Nat) : Prop := va ≥ kernelHeapStart ∧ va < kernelHeapStart + kernelHeapSize

instance (va : Nat) : Decidable (InHeapWindow va) := by unfold InHeapWindow; infer_instance

/-- The kernel part of `page_fault_handler`; `none` is `panic`. -/
def kernelFault (kernelPgdir addr : Nat) (isPresent : Bool) (s : Vm) : Option Vm :=
  if InHeapWindow addr ∧ ¬ isPresent then
    let (page, s) := s.allocZero
    if page = 0 then none
    else some (mapPage kernelPgdir (alignDown addr pageSize) page VM_WRITE s).2
  else none

/-- `phys_to_virt`. -/
def physToVirt (p : Nat) : Nat := u32 (p + kernelVirtBase)

variable {s s' : Vm} {d t u f g i di dj va : Nat}

/-! ## 3. The kernel's directory -/

/-- The entry of the window in the kernel's directory. -/
def windowTable : Nat := 768

/-- The entries of the heap's window. -/
def HeapTable (di : Nat) : Prop := 832 ≤ di ∧ di < 848

/-- The frames of the kernel's directory and of its tables. -/
def kernelFrames (s : Vm) (d : Nat) : Set Nat := {f | f = d ∨ ∃ di < tableEntries, target s d di = some f}

structure KernelDir (s : Vm) (d : Nat) : Prop where
  used : ∀ f ∈ kernelFrames s d, f ∉ pool.free s
  table_ne : ∀ {di t}, di < tableEntries → target s d di = some t → t ≠ d
  tables_inj : ∀ {di dj t}, di < tableEntries → dj < tableEntries → target s d di = some t →
    target s d dj = some t → di = dj
  window : ∃ t, target s d windowTable = some t ∧ ∀ i < tableEntries, target s t i = some i
  only : ∀ {di t}, di < tableEntries → target s d di = some t → di = windowTable ∨ HeapTable di

theorem dir_mem_kernelFrames (s : Vm) (d : Nat) : d ∈ kernelFrames s d := .inl rfl

theorem table_mem_kernelFrames (hdi : di < tableEntries) (ht : target s d di = some t) :
    t ∈ kernelFrames s d := .inr ⟨di, hdi, ht⟩

/-- The directory is read off its own frames. -/
theorem kernelFrames_congr (h : pool.cell s' d = pool.cell s d) : kernelFrames s' d = kernelFrames s d := by
  have htarget : ∀ di < tableEntries, target s' d di = target s d di := fun di hdi => target_congr h hdi
  ext f
  constructor
  · intro hf
    rcases hf with hf | ⟨di, hdi, hf⟩
    · exact .inl hf
    · exact .inr ⟨di, hdi, (htarget di hdi).symm.trans hf⟩
  · intro hf
    rcases hf with hf | ⟨di, hdi, hf⟩
    · exact .inl hf
    · exact .inr ⟨di, hdi, (htarget di hdi).trans hf⟩

/-- Whatever leaves the frames of the directory alone and does not free them. -/
theorem KernelDir.congr (h : KernelDir s d) (hcell : ∀ f ∈ kernelFrames s d, pool.cell s' f = pool.cell s f)
    (hfree : ∀ f ∈ kernelFrames s d, f ∉ pool.free s') : KernelDir s' d := by
  have hd := hcell d (dir_mem_kernelFrames s d)
  have htarget : ∀ {di}, di < tableEntries → target s' d di = target s d di := fun hdi => target_congr hd hdi
  refine ⟨?_, fun hdi ht => ?_, fun hdi hdj ht ht' => ?_, ?_, fun hdi ht => ?_⟩
  · rw [kernelFrames_congr hd]
    exact hfree
  · rw [htarget hdi] at ht
    exact h.table_ne hdi ht
  · rw [htarget hdi] at ht
    rw [htarget hdj] at ht'
    exact h.tables_inj hdi hdj ht ht'
  · obtain ⟨t, ht, hmap⟩ := h.window
    refine ⟨t, (htarget (by decide)).trans ht, fun i hi => ?_⟩
    rw [target_congr (hcell t (table_mem_kernelFrames (by decide) ht)) hi]
    exact hmap i hi
  · rw [htarget hdi] at ht
    exact h.only hdi ht

theorem KernelDir.taken {N : Set Nat} (h : KernelDir s d) (htake : Takes pool ∅ N s s') : KernelDir s' d :=
  h.congr (fun f hf => htake.keeps (h.used f hf))
    fun f hf hfree => h.used f hf ((htake.free_iff f).mp hfree).1

theorem KernelDir.setPte (h : KernelDir s d) (hdi : di < tableEntries) (ht : target s d di = some t)
    (hheap : di ≠ windowTable) (hi : i < tableEntries) (e : Nat) :
    KernelDir (setEntry s (t * pageSize) i e) d := by
  have htd := h.table_ne hdi ht
  have htarget : ∀ {dj}, dj < tableEntries → target (setEntry s (t * pageSize) i e) d dj = target s d dj :=
    fun hdj => target_setEntry_frame hi hdj (Ne.symm htd)
  refine ⟨?_, fun hdi ht => ?_, fun hdi hdj ht ht' => ?_, ?_, fun hdi ht => ?_⟩
  · rw [kernelFrames_congr (cell_setEntry hi (Ne.symm htd))]
    exact h.used
  · rw [htarget hdi] at ht
    exact h.table_ne hdi ht
  · rw [htarget hdi] at ht
    rw [htarget hdj] at ht'
    exact h.tables_inj hdi hdj ht ht'
  · obtain ⟨w, hw, hmap⟩ := h.window
    have hne : w ≠ t := fun heq => hheap (h.tables_inj hdi (by decide) ht (heq ▸ hw))
    refine ⟨w, (htarget (by decide)).trans hw, fun j hj => ?_⟩
    rw [target_setEntry_frame hi hj hne]
    exact hmap j hj
  · rw [htarget hdi] at ht
    exact h.only hdi ht

theorem KernelDir.link (h : KernelDir s d) (hheap : HeapTable di) (hnone : target s d di = none)
    (hu : u ∉ kernelFrames s d) (hufree : u ∉ pool.free s) (hlt : u < bitmapBits) :
    KernelDir (setEntry s (d * pageSize) di (tableEntry u)) d := by
  have hdi : di < tableEntries := hheap.2.trans (by decide)
  have hself : target (setEntry s (d * pageSize) di (tableEntry u)) d di = some u :=
    (target_setEntry_self (tableEntry_lt hlt)).trans (entryFrame_table u)
  have hcases : ∀ {dj t}, target (setEntry s (d * pageSize) di (tableEntry u)) d dj = some t →
      (dj = di ∧ t = u) ∨ (dj ≠ di ∧ target s d dj = some t) := by
    intro dj t hdj
    by_cases heq : dj = di
    · subst heq
      exact .inl ⟨rfl, Option.some.inj (hdj.symm.trans hself)⟩
    · rw [target_setEntry_of_ne heq] at hdj
      exact .inr ⟨heq, hdj⟩
  refine ⟨fun f hf => ?_, fun {dj t} hdj ht => ?_, fun {dj dk t} hdj hdk ht ht' => ?_, ?_, fun {dj t} hdj ht => ?_⟩
  · rcases hf with rfl | ⟨dj, hdj, hf⟩
    · exact h.used f (dir_mem_kernelFrames s f)
    · rcases hcases hf with ⟨_, rfl⟩ | ⟨_, hf⟩
      · exact hufree
      · exact h.used f (table_mem_kernelFrames hdj hf)
  · rcases hcases ht with ⟨_, rfl⟩ | ⟨_, ht⟩
    · exact fun heq => hu (heq ▸ dir_mem_kernelFrames s d)
    · exact h.table_ne hdj ht
  · rcases hcases ht with ⟨rfl, rfl⟩ | ⟨hne, ht⟩ <;> rcases hcases ht' with ⟨hk, heq⟩ | ⟨_, ht'⟩
    · exact hk.symm
    · exact absurd (table_mem_kernelFrames hdk ht') hu
    · exact absurd (table_mem_kernelFrames hdj (heq ▸ ht)) hu
    · exact h.tables_inj hdj hdk ht ht'
  · obtain ⟨w, hw, hmap⟩ := h.window
    have hne : windowTable ≠ di := fun heq => by
      rw [heq, hnone] at hw
      cases hw
    have hwd := h.table_ne (by decide) hw
    refine ⟨w, (target_setEntry_of_ne hne).trans hw, fun j hj => ?_⟩
    rw [target_setEntry_frame hdi hj hwd]
    exact hmap j hj
  · rcases hcases ht with ⟨rfl, _⟩ | ⟨_, ht⟩
    · exact .inr hheap
    · exact h.only hdj ht

theorem heapTable_of_window (hva : InHeapWindow va) : HeapTable (pdIndex va) := by
  obtain ⟨h1, h2⟩ := hva
  have h1 : 3489660928 ≤ va := h1
  have h2 : va < 3489660928 + 67108864 := h2
  unfold HeapTable pdIndex
  omega

theorem HeapTable.lt (h : HeapTable di) : di < tableEntries := h.2.trans (by decide)

theorem HeapTable.ne_window (h : HeapTable di) : di ≠ windowTable := by
  have h1 := h.1
  unfold windowTable
  omega

theorem KernelDir.mapPage (h : KernelDir s d) (hva : HeapTable (pdIndex va)) (g flags : Nat) :
    KernelDir (mapPage (d * pageSize) va (g * pageSize) flags s).2 d := by
  cases ht : target s d (pdIndex va) with
  | some t =>
    rw [mapPage_some ht]
    exact h.setPte hva.lt ht hva.ne_window (ptIndex_lt va) _
  | none =>
    rcases allocZero_cases s with ⟨N, _, h0, htake, _⟩ | ⟨u, hu0, hu, htake, _⟩
    · rw [mapPage_fail ht h0]
      exact h.taken htake
    · rw [mapPage_new ht hu hu0]
      have hfree := htake.was_free u rfl
      have hnew : u ∉ kernelFrames s d := fun hm => h.used u hm hfree
      have hd : pool.cell s.allocZero.2 d = pool.cell s d :=
        htake.stays fun hm => hnew (Set.mem_singleton_iff.mp hm ▸ dir_mem_kernelFrames s d)
      have hlink := (h.taken htake).link hva ((target_congr hd hva.lt).trans ht)
        (by rw [kernelFrames_congr hd]; exact hnew) (htake.disjoint u rfl) (free_lt hfree)
      exact hlink.setPte hva.lt ((target_setEntry_self (tableEntry_lt (free_lt hfree))).trans (entryFrame_table u))
        hva.ne_window (ptIndex_lt va) _

theorem pdIndex_alignDown (va : Nat) : pdIndex (alignDown va pageSize) = pdIndex va := by
  change va / 4096 * 4096 / 2 ^ 22 = va / 2 ^ 22
  omega

theorem window_alignDown {addr : Nat} (h : InHeapWindow addr) : InHeapWindow (alignDown addr pageSize) := by
  refine ⟨?_, (Nat.div_mul_le_self _ _).trans_lt h.2⟩
  have h1 : 3489660928 ≤ addr := h.1
  change 3489660928 ≤ addr / 4096 * 4096
  omega

/-- A fault that is served: a page was free, and is mapped. -/
theorem kernelFault_some {pd addr : Nat} {isPresent : Bool} (h : kernelFault pd addr isPresent s = some s') :
    InHeapWindow addr ∧ s.allocZero.1 ≠ 0 ∧
      s' = (mapPage pd (alignDown addr pageSize) s.allocZero.1 VM_WRITE s.allocZero.2).2 := by
  unfold kernelFault at h
  split at h
  · rename_i hwin
    dsimp only at h
    split at h
    · cases h
    · cases h
      exact ⟨hwin.1, ‹_›, rfl⟩
  · cases h

/-- **A kernel fault** keeps the directory. -/
theorem KernelDir.fault (h : KernelDir s d) {addr : Nat} {isPresent : Bool}
    (hfault : kernelFault (d * pageSize) addr isPresent s = some s') : KernelDir s' d := by
  obtain ⟨hwin, hne, heq⟩ := kernelFault_some hfault
  rcases allocZero_cases s with ⟨N, _, h0, _, _⟩ | ⟨g, hg0, hg, htake, _⟩
  · exact absurd h0 hne
  · rw [heq, hg]
    exact (h.taken htake).mapPage (heapTable_of_window (window_alignDown hwin)) g VM_WRITE

/-! ## 4. The directory `paging_init` makes -/

theorem window_pdIndex {p : Nat} (hp : p < tableEntries) :
    pdIndex (kernelVirtBase + p * pageSize) = windowTable ∧ ptIndex (kernelVirtBase + p * pageSize) = p := by
  have hp : p < 1024 := hp
  change (3221225472 + p * 4096) / 2 ^ 22 = 768 ∧ (3221225472 + p * 4096) / 2 ^ 12 % 1024 = p
  omega

/-- The loop over the pages, once the table is there: each gets its entry. -/
theorem mapWindow_spec {ps : List Nat} (hps : ∀ p ∈ ps, p < tableEntries)
    (ht : target s d windowTable = some t) (hd : d ≠ t) :
    (mapWindow (d * pageSize) ps s).pages = s.pages ∧
      (∀ f, f ≠ t → pool.cell (mapWindow (d * pageSize) ps s) f = pool.cell s f) ∧
      ∀ i < tableEntries, entry (mapWindow (d * pageSize) ps s) (t * pageSize) i = pageEntry i VM_WRITE ∨
        i ∉ ps ∧ entry (mapWindow (d * pageSize) ps s) (t * pageSize) i = entry s (t * pageSize) i := by
  induction ps generalizing s with
  | nil => exact ⟨rfl, fun _ _ => rfl, fun i _ => .inr ⟨List.not_mem_nil, rfl⟩⟩
  | cons p ps ih =>
    have hp := hps p (.head _)
    obtain ⟨hdi, hpi⟩ := window_pdIndex hp
    have hmap : mapPage (d * pageSize) (kernelVirtBase + p * pageSize) (p * pageSize) VM_WRITE s =
        (0, setEntry s (t * pageSize) p (pageEntry p VM_WRITE)) := by
      rw [mapPage_some (hdi ▸ ht), hpi]
    have hself : entry (setEntry s (t * pageSize) p (pageEntry p VM_WRITE)) (t * pageSize) p = pageEntry p VM_WRITE :=
      entry_setEntry_self (pageEntry_lt (hp.trans (by decide)) _)
    obtain ⟨hpages, hcells, hent⟩ := ih (s := setEntry s (t * pageSize) p (pageEntry p VM_WRITE))
      (fun q hq => hps q (.tail _ hq)) ((target_setEntry_frame hp (by decide) hd).trans ht)
    rw [mapWindow, hmap]
    refine ⟨hpages, fun f hf => (hcells f hf).trans (cell_setEntry hp hf), fun i hi => ?_⟩
    rcases hent i hi with hset | ⟨hnot, hsame⟩
    · exact .inl hset
    · by_cases heq : i = p
      · rw [heq] at hsame ⊢
        exact .inl (hsame.trans hself)
      · refine .inr ⟨fun hm => (List.mem_cons.mp hm).elim heq hnot, ?_⟩
        rw [hsame, entry_setEntry_of_ne heq]

theorem windowPages_eq : ∃ ps, windowPages = 0 :: ps ∧ ∀ i, i ∈ windowPages ↔ i < tableEntries := by
  unfold windowPages
  refine ⟨List.range' 1 1023, ?_, fun i => List.mem_range⟩
  rw [List.range_eq_range']
  rfl

/-- The directory after the first page is mapped: one table, with that page. -/
theorem window_first (hzero : pool.cell s d = fun _ => 0) (hd : d ∉ pool.free s) (ht : s.allocZero.1 ≠ 0) :
    ∃ u s', (mapPage (d * pageSize) (kernelVirtBase + 0 * pageSize) (0 * pageSize) VM_WRITE s).2 = s' ∧
      Takes pool {d} {u} s s' ∧ s'.pages = s.allocZero.2.pages ∧ d ≠ u ∧
      entry s' (u * pageSize) 0 = pageEntry 0 VM_WRITE ∧
      target s' d windowTable = some u ∧ ∀ di < tableEntries, di ≠ windowTable → target s' d di = none := by
  have hempty : ∀ di < tableEntries, target s d di = none := fun di hdi => target_zero hzero hdi
  obtain ⟨hdi, hpi⟩ := window_pdIndex (p := 0) (by decide)
  rcases allocZero_cases s with ⟨_, _, h0, _⟩ | ⟨u, hu0, hu, htake, _⟩
  · exact absurd h0 ht
  have hdu : d ≠ u := fun heq => hd (heq ▸ htake.was_free u rfl)
  have hult : u < bitmapBits := free_lt (htake.was_free u rfl)
  have hcelld : pool.cell s.allocZero.2 d = pool.cell s d := htake.stays hdu
  have hnone : target s d (pdIndex (kernelVirtBase + 0 * pageSize)) = none := by
    rw [hdi]
    exact hempty _ (by decide)
  have hself : target (setEntry s.allocZero.2 (d * pageSize) windowTable (tableEntry u)) d windowTable = some u :=
    (target_setEntry_self (tableEntry_lt hult)).trans (entryFrame_table u)
  refine ⟨u, _, rfl, ?_⟩
  rw [mapPage_new hnone hu hu0, hdi, hpi]
  refine ⟨⟨htake.was_free, htake.free_iff, fun f hf hfu => ?_⟩, rfl, hdu, ?_, ?_, fun di hdi hne => ?_⟩
  · rw [cell_setEntry (by decide) hfu, cell_setEntry (by decide) hf]
    exact htake.stays hfu
  · exact entry_setEntry_self (pageEntry_lt (by decide) _)
  · rw [target_setEntry_frame (by decide) (by decide) hdu]
    exact hself
  · rw [target_setEntry_frame (by decide) hdi hdu, target_setEntry_of_ne hne, target_congr hcelld hdi]
    exact hempty di hdi

/-- A directory whose only table is the window's. -/
theorem KernelDir.of_window (hd : d ∉ pool.free s) (hu : u ∉ pool.free s) (hdu : d ≠ u)
    (hwin : target s d windowTable = some u) (hmap : ∀ i < tableEntries, target s u i = some i)
    (honly : ∀ di < tableEntries, di ≠ windowTable → target s d di = none) : KernelDir s d := by
  have htable : ∀ {di t}, di < tableEntries → target s d di = some t → di = windowTable ∧ t = u := by
    intro di t hlt htar
    by_cases heq : di = windowTable
    · rw [heq, hwin] at htar
      exact ⟨heq, (Option.some.inj htar).symm⟩
    · rw [honly di hlt heq] at htar
      cases htar
  refine ⟨fun f hf => ?_, fun {di t} hlt htar => ?_, fun {di dj t} hdi hdj h h' => ?_, ⟨u, hwin, hmap⟩,
    fun hlt htar => .inl (htable hlt htar).1⟩
  · rcases hf with rfl | ⟨di, hlt, htar⟩
    · exact hd
    · rw [(htable hlt htar).2]
      exact hu
  · rw [(htable hlt htar).2]
    exact Ne.symm hdu
  · exact (htable hdi h).1.trans (htable hdj h').1.symm

/-- What `paging_init` leaves. -/
structure WindowDir (s : Vm) (d : Nat) (s' : Vm) : Prop where
  dir : s.allocZero.1 = d * pageSize
  kernelDir : KernelDir s' d
  pages : s'.pages = s.allocZero.2.allocZero.2.pages
  only : ∀ di < tableEntries, di ≠ windowTable → target s' d di = none
  window : ∃ u, target s' d windowTable = some u ∧ ∀ i < tableEntries, entry s' (u * pageSize) i = pageEntry i VM_WRITE
  takes : ∃ N, Takes pool ∅ N s s'

/-- **`paging_init`**: with a frame for the directory and one for its table, the window is mapped. -/
theorem pagingInit_spec (hd : s.allocZero.1 ≠ 0) (ht : s.allocZero.2.allocZero.1 ≠ 0) :
    ∃ d s', pagingInit s = some (d * pageSize, s') ∧ WindowDir s d s' := by
  rcases allocZero_cases s with ⟨_, _, h0, _⟩ | ⟨d, hd0, hdir, htaked, hzero⟩
  · exact absurd h0 hd
  generalize hs1 : s.allocZero.2 = s1 at ht htaked hzero
  obtain ⟨u, s2, hfirst, htake, hpages2, hdu, hpage, hwin, honly⟩ := window_first hzero (htaked.disjoint d rfl) ht
  obtain ⟨ps, hps, hmem⟩ := windowPages_eq
  have hin : ∀ p ∈ ps, p < tableEntries := fun p hp => (hmem p).mp (hps ▸ .tail _ hp)
  obtain ⟨hpages, hcells, hent⟩ := mapWindow_spec hin hwin hdu
  generalize hs3 : mapWindow (d * pageSize) ps s2 = s3 at *
  have hdirs : ∀ di < tableEntries, target s3 d di = target s2 d di := fun di hdi => target_congr (hcells d hdu) hdi
  have honly' : ∀ di < tableEntries, di ≠ windowTable → target s3 d di = none :=
    fun di hlt hne => (hdirs di hlt).trans (honly di hlt hne)
  have hwin' : target s3 d windowTable = some u := (hdirs _ (by decide)).trans hwin
  have hentries : ∀ i < tableEntries, entry s3 (u * pageSize) i = pageEntry i VM_WRITE := by
    intro i hi
    rcases hent i hi with hset | ⟨hnot, hsame⟩
    · exact hset
    · have hi0 : i = 0 := by
        have hin := (hmem i).mpr hi
        rw [hps] at hin
        exact (List.mem_cons.mp hin).resolve_right hnot
      rw [hsame, hi0]
      exact hpage
  have hfree : ∀ f, f ∈ pool.free s3 ↔ f ∈ pool.free s2 := by
    intro f
    rw [mem_free, mem_free, hpages]
  have htake3 : Takes pool ∅ ({d} ∪ {u}) s s3 := by
    have htake2 := htaked.trans (htake.mono (Set.subset_union_right (s := ∅)))
    refine ⟨htake2.was_free, fun f => (hfree f).trans (htake2.free_iff f), fun f hf hfN => ?_⟩
    rw [hcells f fun heq => hfN (.inr heq)]
    exact htake2.same f hf hfN
  refine ⟨d, s3, ?_, hdir, .of_window (u := u) ?_ ?_ hdu hwin' (fun i hi => ?_) honly', ?_, honly',
    ⟨u, hwin', hentries⟩,
    _, htake3⟩
  · rw [pagingInit]
    dsimp only
    rw [if_neg hd, hdir, hs1, hps, mapWindow, hfirst, hs3]
  · exact htake3.disjoint d (.inl rfl)
  · exact htake3.disjoint u (.inr rfl)
  · rw [target, hentries i hi]
    exact entryFrame_page i VM_WRITE
  · rw [hpages, hpages2, hs1]

end OreUnix.Vmm
