/-
  Subject: THE MEMORY CALLS OF A PROGRAM: SYS_brk, SYS_mmap and SYS_munmap against the kernel's half.

  * `MemCall.exec` -- the three calls as `syscall_handler` makes them, for any arguments;
  * `MemCall.pages` -- the pages a call works on, with the wrap-around of the source;
  * `user_calls_keep_kernel` -- calls whose pages all lie below KERNEL_VIRT_BASE leave every translation above it
    alone and free no frame but the caller's own;
  * `munmap_frees_directory` -- nothing checks that: a program can unmap the kernel's directory.

  `struct mmap_args` has `flags`, `fd` and `offset` besides; the call does not read them.
-/
import OreUnix.Mm.Isolation
import OreUnix.Mm.KernelHalf

namespace OreUnix.Vmm

open ByteMem Pmm Bitmap FramePool Lts

variable {s s' : Vm} {mm mm' : MmStruct} {d t f x va : Nat} {F : Set Nat}

/-! ## 1. The calls -/

def PROT_READ : Nat := 1
def PROT_WRITE : Nat := 2
def PROT_EXEC : Nat := 4

/-- An address as the result of a call. -/
def addrResult (a : Nat) : Int := (a : Int).bmod (2 ^ 32)

def sysBrk (mm : MmStruct) (arg : Nat) (s : Vm) : Int × MmStruct × Vm :=
  let newBrk := if arg ≠ 0 then arg else mm.brk
  let (ret, mm, s) := mmBrk mm newBrk s
  (if ret = 0 then addrResult mm.brk else ret, mm, s)

/-- The area flags of a protection. -/
def protFlags (prot : Nat) : Nat :=
  VM_USER ||| (if prot &&& PROT_READ ≠ 0 then VM_READ else 0) ||| (if prot &&& PROT_WRITE ≠ 0 then VM_WRITE else 0) |||
    (if prot &&& PROT_EXEC ≠ 0 then VM_EXEC else 0)

/-- Without an address the area is put at the end of the heap, which moves up whatever `mm_mmap` says. -/
def sysMmap (mm : MmStruct) (addr len prot : Nat) (s : Vm) : Int × MmStruct × Vm :=
  let at' := if addr = 0 then mm.brk else addr
  let mm := if addr = 0 then { mm with brk := u32 (mm.brk + alignUp len pageSize) } else mm
  let (ret, mm, s) := mmMmap mm at' len (protFlags prot) s
  (if ret = 0 then addrResult at' else ret, mm, s)

def sysMunmap (mm : MmStruct) (addr len : Nat) (s : Vm) : Int × MmStruct × Vm :=
  let (mm, s) := mmMunmap mm addr len s
  (0, mm, s)

inductive MemCall where
  | brk (arg : Nat)
  | mmap (addr len prot : Nat)
  | munmap (addr len : Nat)

def MemCall.exec (mm : MmStruct) (s : Vm) : MemCall → Int × MmStruct × Vm
  | .brk arg => sysBrk mm arg s
  | .mmap addr len prot => sysMmap mm addr len prot s
  | .munmap addr len => sysMunmap mm addr len s

/-- The pages a call maps or unmaps. -/
def MemCall.pages (mm : MmStruct) : MemCall → List Nat
  | .brk arg =>
    let fin := alignUp (if arg ≠ 0 then arg else mm.brk) pageSize
    if fin > mm.brk then pageAddrs mm.brk (alignUp (fin - mm.brk) pageSize)
    else pageAddrs fin (alignUp (mm.brk - fin) pageSize)
  | .mmap addr len _ => pageAddrs (if addr = 0 then mm.brk else addr) (alignUp len pageSize)
  | .munmap addr len => pageAddrs addr (alignUp len pageSize)

/-- The call works on user pages only. -/
def MemCall.UserRange (mm : MmStruct) (c : MemCall) : Prop := ∀ p ∈ c.pages mm, p < kernelVirtBase

/-- The machine and the address space of the calling process. -/
structure Caller where
  vm : Vm
  mm : MmStruct

def CallStep (c : Caller) (e : MemCall) (c' : Caller) : Prop := c' = ⟨(e.exec c.mm c.vm).2.2, (e.exec c.mm c.vm).2.1⟩

/-! ## 2. Calls on user pages -/

theorem exec_pgdir (mm : MmStruct) (s : Vm) (c : MemCall) : (c.exec mm s).2.1.pgdir = mm.pgdir := by
  cases c with
  | brk arg => exact mmBrk_pgdir mm _ s
  | mmap addr len prot =>
    refine (mmMmap_pgdir _ _ len (protFlags prot) s).trans ?_
    split <;> rfl
  | munmap addr len => rfl

theorem exec_keeps {c : MemCall} (hmm : mm.Aligned) (hc : c.UserRange mm) (s : Vm) :
    Keeps mm.dir s (c.exec mm s).2.2 := by
  cases c with
  | brk arg =>
    refine mmBrk_keeps_pages hmm rfl (fun h p hp => hc p ?_) (fun h p hp => hc p ?_) s
    · rw [MemCall.pages, if_pos h]
      exact hp
    · rw [MemCall.pages, if_neg (Nat.lt_asymm h)]
      exact hp
  | mmap addr len prot =>
    -- the directory is the same whether or not the end of the heap moves
    have hmove : ∀ b, Keeps mm.dir s
        (mmMmap { mm with brk := b } (if addr = 0 then mm.brk else addr) len (protFlags prot) s).2.2 := by
      intro b
      have hmm' : MmStruct.Aligned { mm with brk := b } := hmm
      exact mmMmap_keeps hmm' (protFlags prot) hc s
    by_cases h0 : addr = 0
    · have hmap := hmove (u32 (mm.brk + alignUp len pageSize))
      dsimp only [MemCall.exec, sysMmap]
      rw [if_pos h0] at hmap
      rw [if_pos h0, if_pos h0]
      exact hmap
    · have hmap := hmove mm.brk
      dsimp only [MemCall.exec, sysMmap]
      rw [if_neg h0] at hmap
      rw [if_neg h0, if_neg h0]
      exact hmap
  | munmap addr len => exact mmMunmap_keeps hmm hc s

/-- After any calls on user pages: the frames used are the caller's own of the start and free ones. -/
theorem calls_confined {es : List MemCall} {c c' : Caller} (hmm : c.mm.Aligned) (h : Space c.vm c.mm.dir F)
    (hF : ∀ f ∈ F, f ∉ pool.free c.vm) (hrun : Run (fun c e c' => e.UserRange c.mm ∧ CallStep c e c') c es c') :
    ∃ F', Confined pool F c.vm c'.vm F' := by
  induction hrun generalizing F with
  | nil c => exact ⟨F, .refl hF⟩
  | cons hstep _ ih =>
    obtain ⟨hrange, rfl⟩ := hstep
    rename_i c _ e _ _
    obtain ⟨F1, hconf, hspace⟩ := exec_keeps hmm hrange c.vm F h hF
    have hpgdir := exec_pgdir c.mm c.vm e
    have hdir : (e.exec c.mm c.vm).2.1.dir = c.mm.dir := by rw [MmStruct.dir, MmStruct.dir, hpgdir]
    have hmm' : (e.exec c.mm c.vm).2.1.Aligned := by
      rw [MmStruct.Aligned, hdir, hpgdir]
      exact hmm
    obtain ⟨F', hconf'⟩ := ih hmm' (hdir.symm ▸ hspace) hconf.apart
    exact ⟨F', hconf.trans hconf'⟩

/-! ## 3. The kernel's half -/

/-- The kernel's directory and those of the other processes, which got their upper tables from it, in frames that are
    neither free nor the caller's. -/
structure Hosted (d : Nat) (others : List Nat) (s : Vm) (own : Set Nat) : Prop where
  kernel : KernelDir s d
  apart : ∀ f ∈ kernelFrames s d, f ∉ own
  used : ∀ x ∈ others, x ∉ pool.free s
  others_apart : ∀ x ∈ others, x ∉ own
  tables : ∀ x ∈ others, ∀ di t, UpperHalf di → target s x di = some t → t ∈ kernelFrames s d

/-- An address of the kernel's half. -/
def KernelAddr (va : Nat) : Prop := kernelVirtBase ≤ va ∧ va < 2 ^ 32

/-- **The kernel's half is untouched**: the translations of its addresses under the kernel's directory and under those
    of the other processes, and the use of every frame mapped there that is in use and not the caller's own. -/
structure KernelKept (d : Nat) (others : List Nat) (own : Set Nat) (s s' : Vm) : Prop where
  translations : ∀ x, x = d ∨ x ∈ others → ∀ va, KernelAddr va → translate s' x va = translate s x va
  frames : ∀ x, x = d ∨ x ∈ others → ∀ va f, KernelAddr va → translate s x va = some f → f ∉ own →
    f ∉ pool.free s → f ∉ pool.free s'

theorem KernelAddr.upperHalf (h : KernelAddr va) : UpperHalf (pdIndex va) := by
  have h1 : 3221225472 ≤ va := h.1
  have h2 := h.2
  change 768 ≤ va / 2 ^ 22 ∧ va / 2 ^ 22 < 1024
  omega

/-- What works with the caller's frames and free ones leaves the kernel's half alone. -/
theorem Hosted.kept {others : List Nat} {own F' : Set Nat} (h : Hosted d others s own)
    (hconf : Confined pool own s s' F') : KernelKept d others own s s' := by
  obtain ⟨_, _, hkcell⟩ := hconf.frame h.apart h.kernel.used
  refine ⟨fun x hx va hva => ?_, fun x hx va f _ _ hown hfree hfree' => ?_⟩
  · have hdi := hva.upperHalf
    have hxcell : pool.cell s' x = pool.cell s x := by
      rcases hx with rfl | hx
      · exact hkcell x (dir_mem_kernelFrames s x)
      · exact hconf.same x (h.others_apart x hx) (h.used x hx)
    rw [translate, translate, target_congr hxcell hdi.2]
    cases ht : target s x (pdIndex va) with
    | none => rfl
    | some t =>
      have htable : t ∈ kernelFrames s d := by
        rcases hx with rfl | hx
        · exact table_mem_kernelFrames hdi.2 ht
        · exact h.tables x hx _ t hdi ht
      exact target_congr (hkcell t htable) (ptIndex_lt va)
  · exact (hconf.within f (.inr hfree')).elim hown hfree

/-- **Calls on user pages leave the kernel's half alone**: any run of the three calls by a process, each on pages
    below KERNEL_VIRT_BASE only. -/
theorem user_calls_keep_kernel {others : List Nat} {es : List MemCall} (hwf : WellFormed s mm)
    (hhost : Hosted d others s (spaceFrames s mm.dir))
    (hrun : Run (fun c e c' => e.UserRange c.mm ∧ CallStep c e c') ⟨s, mm⟩ es ⟨s', mm'⟩) :
    KernelKept d others (spaceFrames s mm.dir) s s' := by
  obtain ⟨F', hconf⟩ := calls_confined (c := ⟨s, mm⟩) hwf.aligned hwf.space hwf.apart hrun
  exact hhost.kept hconf

/-! ## 4. A program that unmaps the kernel -/

/-- A process on the booted machine: its directory has the kernel's upper entries and no other. -/
theorem first_process : ∃ s mm, mm.pgdir = 770 * pageSize ∧ WellFormed s mm ∧ spaceFrames s mm.dir = {mm.dir} ∧
    Hosted 768 [] s (spaceFrames s mm.dir) ∧ SameUpper s 768 s 770 := by
  obtain ⟨s0, hboot, hfree, _⟩ := lowMegabyte_booted
  have hdir := hboot.kernelDir
  obtain ⟨hp, _, _, _⟩ := alloc_interval (by decide) hfree
  have hd := hdir.used 768 (dir_mem_kernelFrames s0 768)
  generalize hsl : ({ s0 with slab := [] } : Vm) = s1
  have hp1 : s1.allocZero.1 = 770 * pageSize := by
    rw [← hsl]
    exact hp
  have hdir1 : KernelDir s1 768 := by
    rw [← hsl]
    exact hdir.congr (fun _ _ => rfl) hdir.used
  have hcreate : (pgdirCreate (768 * pageSize) s1).1 = 770 * pageSize := by
    unfold pgdirCreate
    dsimp only
    rw [hp1, if_neg (by decide)]
  have hmm : mmCreate (768 * pageSize) s1 =
      (some ⟨770 * pageSize, [], 0x0C048000, 0x0C048000, userStackTop, 0⟩, (pgdirCreate (768 * pageSize) s1).2) := by
    have hslab : s1.slabAlloc = (true, s1) := by rw [← hsl]; rfl
    unfold mmCreate
    rw [hslab]
    dsimp only
    rw [if_pos rfl, hcreate, if_neg (by decide)]
  obtain ⟨hwf, hown⟩ := mmCreate_wellFormed hmm
  have hd1 := hdir1.used 768 (dir_mem_kernelFrames s1 768)
  obtain ⟨x, _, hx, _, _, htake, _⟩ := mmCreate_spec hmm
  have hx770 : x = 770 := Nat.eq_of_mul_eq_mul_right (by decide) hx.symm
  subst hx770
  have hkernel := hdir1.taken htake
  have hcell : pool.cell (pgdirCreate (768 * pageSize) s1).2 768 = pool.cell s1 768 := htake.keeps hd1
  obtain ⟨y, hy, hupper⟩ := pgdirCreate_upper hd1 (by rw [hcreate]; decide)
  have hy770 : y = 770 := Nat.eq_of_mul_eq_mul_right (by decide) (hy.symm.trans hcreate)
  subst hy770
  refine ⟨_, _, rfl, hwf, hown, ⟨hkernel, fun f hf hm => ?_, ?_, ?_, ?_⟩, fun di hdi => ?_⟩
  · rw [hown] at hm
    have hf770 : f = 770 := Set.mem_singleton_iff.mp hm
    rw [kernelFrames_congr hcell, hf770] at hf
    exact hdir1.used 770 hf (htake.was_free 770 rfl)
  · exact fun x hx => absurd hx List.not_mem_nil
  · exact fun x hx => absurd hx List.not_mem_nil
  · exact fun x hx => absurd hx List.not_mem_nil
  · rw [hupper di hdi, entry_congr hcell hdi.2]

theorem user_calls_keep_kernel_mmap : ∃ s mm s' mm', WellFormed s mm ∧ Hosted 768 [] s (spaceFrames s mm.dir) ∧
    Run (fun c e c' => e.UserRange c.mm ∧ CallStep c e c') ⟨s, mm⟩ [.mmap 0x400000 0x1000 PROT_READ] ⟨s', mm'⟩ ∧
    KernelKept 768 [] (spaceFrames s mm.dir) s s' := by
  obtain ⟨s, mm, _, hwf, _, hhost, _⟩ := first_process
  have hrange : MemCall.UserRange mm (.mmap 0x400000 0x1000 PROT_READ) := by
    intro p hp
    have hp : p ∈ pageAddrs 0x400000 (alignUp 0x1000 pageSize) := hp
    exact Nat.lt_trans (pageAddrs_lt hp) (by decide)
  have hrun : Run (fun c e c' => e.UserRange c.mm ∧ CallStep c e c') ⟨s, mm⟩ [.mmap 0x400000 0x1000 PROT_READ] _ :=
    .cons ⟨hrange, rfl⟩ (.nil _)
  exact ⟨s, mm, _, _, hwf, hhost, hrun, user_calls_keep_kernel hwf hhost hrun⟩

/-- **A program unmaps the kernel's directory**: `munmap(0xC0300000, 0x1000)` clears the page in the table all
    directories share, and the frame in which the kernel's directory lies is free. -/
theorem munmap_frees_directory : ∃ s mm s' mm', WellFormed s mm ∧ Hosted 768 [] s (spaceFrames s mm.dir) ∧
    Run CallStep ⟨s, mm⟩ [.munmap 0xC0300000 0x1000] ⟨s', mm'⟩ ∧
    translate s 768 0xC0300000 = some 768 ∧ translate s' 768 0xC0300000 = none ∧ 768 ∉ spaceFrames s mm.dir ∧
    768 ∉ pool.free s ∧ 768 ∈ pool.free s' ∧ ¬ KernelKept 768 [] (spaceFrames s mm.dir) s s' := by
  obtain ⟨s, mm, hpgdir, hwf, hown, hhost, hupper⟩ := first_process
  have hdir : mm.dir = 770 := dir_of_pgdir hpgdir
  obtain ⟨t, ht, hmap⟩ := hhost.kernel.window
  have hpage : target s t 768 = some 768 := hmap 768 (by decide)
  have ht' : target s 770 (pdIndex 0xC0300000) = some t := (target_of_upper hupper ⟨by decide, by decide⟩).trans ht
  have htd := hhost.kernel.table_ne (by decide) ht
  have hbefore : translate s 768 0xC0300000 = some 768 := Option.bind_eq_some_iff.mpr ⟨t, ht, hpage⟩
  have hnotown : 768 ∉ spaceFrames s mm.dir := by
    rw [hown, hdir]
    exact (by decide : (768 : Nat) ≠ 770)
  have hused := hhost.kernel.used 768 (dir_mem_kernelFrames s 768)
  have hunmap : munmapPages mm.pgdir (pageAddrs 0xC0300000 (alignUp 0x1000 pageSize)) s =
      setEntry (s.free (768 * pageSize)) (t * pageSize) 768 0 := by
    have hpages : pageAddrs 0xC0300000 (alignUp 0x1000 pageSize) = [0xC0300000] := by decide
    rw [hpages, hpgdir, munmapPages, munmapPages, virtToPhysPd_some ht' hpage, if_pos (by decide),
      pteAddr_or (by decide), unmapPage_some (s := s.free (768 * pageSize)) ht' hpage]
    rfl
  have hafter : translate (setEntry (s.free (768 * pageSize)) (t * pageSize) 768 0) 768 0xC0300000 = none := by
    rw [translate, target_setEntry_frame (by decide) (by decide) (Ne.symm htd)]
    refine (congrArg (Option.bind · _) ht).trans ?_
    exact target_setEntry_self (by decide)
  have hfree : 768 ∈ pool.free (setEntry (s.free (768 * pageSize)) (t * pageSize) 768 0) :=
    ((free_gives s 768).free_iff 768).mpr (.inr ⟨rfl, by decide, by decide⟩)
  refine ⟨s, mm, _, _, hwf, hhost, .cons rfl (.nil _), hbefore, ?_, hnotown, hused, ?_, fun hkept => ?_⟩
  · dsimp only [MemCall.exec, sysMunmap, mmMunmap]
    rw [hunmap]
    exact hafter
  · dsimp only [MemCall.exec, sysMunmap, mmMunmap]
    rw [hunmap]
    exact hfree
  · refine hkept.frames 768 (.inl rfl) 0xC0300000 768 ⟨by decide, by decide⟩ hbefore hnotown hused ?_
    dsimp only [MemCall.exec, sysMunmap, mmMunmap]
    rw [hunmap]
    exact hfree

end OreUnix.Vmm
