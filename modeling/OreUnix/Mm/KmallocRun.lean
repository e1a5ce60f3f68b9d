/-
  Subject: EVERY RUN OF THE KERNEL HEAP from `kmalloc_init`.

  * `kmalloc_serves` -- a call of `kmalloc` comes back, and what it did to the tiling is one of three things
    (`Served`): a fitting block was carved, the heap grew by a block that was carved at once, or nothing changed and
    NULL is returned;
  * `HeapInv` -- the heap represents a tiling with no two free neighbours whose used blocks are the live allocations;
    every admissible call keeps it (`heapInv_step`).

  The heap grows in two steps: the block appended may stand behind a free one, and it is the retry of `kmalloc` that
  takes it (all blocks before it have just been found too small) and so restores the invariant.
-/
import OreUnix.Mm.KmallocRepr
import OreUnix.Lib.Run

namespace OreUnix.Kmalloc

open ByteMem FreeList

variable {a b ext fuel nb need p size : Nat} {cs cs' xs ys : List Cell} {h h' : Heap} {live : List Nat}

/-! ## 1. `kmalloc` on a tiling -/

/-- The search loop finds the first cell that fits, or the end of the list. -/
theorem firstFit_eq {h : Heap} {p a need fuel : Nat} {cs : List Cell} (hs : Seg h.mem p a cs 0)
    (ha : a ≠ 0) (hf : cs.length < fuel) :
    firstFit h need fuel (if cs = [] then 0 else a) =
      some (match fit need cs with | none => 0 | some (xs, _, _) => a + span hdrSize xs) := by
  induction cs generalizing p a fuel with
  | nil =>
    cases fuel with
    | zero => cases hf
    | succ fuel => rfl
  | cons c cs ih =>
    obtain ⟨⟨h1, h2, h3, _⟩, ht⟩ := hs
    cases fuel with
    | zero => cases hf
    | succ fuel =>
      rw [if_neg (List.cons_ne_nil _ _), firstFit, if_neg ha,
        show h.magic a = tag c from h1, show h.size a = c.size from h2,
        show h.next a = _ from h3]
      by_cases hc : Fits need c
      · rw [if_pos ⟨tag_free.mpr hc.1, hc.2⟩, fit, if_pos hc]
        simp
      · rw [if_neg fun h => hc ⟨tag_free.mp h.1, h.2⟩, fit, if_neg hc, ih ht (by omega) (by simpa using hf)]
        cases fit need cs with
        | none => rfl
        | some r => simp only [span_cons, Nat.add_assoc]

/-- What a call of `kmalloc` for `need` bytes does to the tiling: the address it returns and the cells after it. -/
inductive Served (need : Nat) (cs : List Cell) : Nat → List Cell → Prop
  | found {xs ys : List Cell} {c : Cell} (hf : fit need cs = some (xs, c, ys)) :
      Served need cs (kernelHeapStart + span hdrSize xs + hdrSize)
        (xs ++ carve hdrSize minAlloc need c ++ ys)
  | grown {c : Cell} (hf : fit need cs = none) (hc : Fits need c) (h8 : 8 ∣ c.size) :
      Served need cs (kernelHeapStart + span hdrSize cs + hdrSize)
        (cs ++ carve hdrSize minAlloc need c)
  | full (hf : fit need cs = none) : Served need cs 0 cs

theorem firstFit_start (hr : Repr h cs) (hf : cs.length < fuel) :
    firstFit h need fuel h.heapStart = some (match fit need cs with
      | none => 0
      | some (xs, _, _) => kernelHeapStart + span hdrSize xs) := by
  have hff := @firstFit_eq h 0 kernelHeapStart need fuel cs hr.seg (by decide) hf
  rw [if_neg hr.ne] at hff
  rw [hr.start, hff]

/-- A request that some block fits. -/
theorem kmalloc_found {c : Cell} (hr : Repr h cs) (h0 : 0 < size) (hfit : fit (alignUp size 8) cs = some (xs, c, ys))
    (hf : cs.length + 2 ≤ fuel) :
    ∃ h', kmalloc fuel h size = some (kernelHeapStart + span hdrSize xs + hdrSize, h') ∧
      Repr h' (xs ++ carve hdrSize minAlloc (alignUp size 8) c ++ ys) ∧
      ∀ x, Inside hdrSize kernelHeapStart cs x → h'.mem x = h.mem x := by
  obtain ⟨e1, _, _, e4, e5, _⟩ := consts
  obtain ⟨rfl, hc, _⟩ := fit_some hfit
  obtain ⟨_, _, _, hb⟩ := hr.split
  cases fuel with
  | zero => omega
  | succ fuel =>
    have hb0 : kernelHeapStart + span hdrSize xs ≠ 0 := by omega
    have hlt : kernelHeapStart + span hdrSize xs + hdrSize < 2 ^ 32 := by omega
    refine ⟨_, ?_, repr_takeBlock hr hc.2, fun x hx => takeBlock_inside hr hc.1 hc.2 hx⟩
    rw [kmalloc, if_neg (by omega)]
    simp only [firstFit_start hr (show _ < fuel by omega), hfit]
    rw [if_pos hb0, takeBlock, u32_of_lt hlt]

theorem heapSbrk_eq (hr : Repr h cs) (h4 : 4096 ∣ ext) (hlt : ext ≤ 2 * kernelHeapSize) :
    heapSbrk h ext = if span hdrSize cs + ext ≤ kernelHeapSize
      then (h.heapCur, { h with heapCur := h.heapCur + ext }) else (0, h) := by
  obtain ⟨e1, _, e3, e4, e5, _⟩ := consts
  have hcur := hr.cur
  have hle := hr.curLe
  have hend := hr.ends
  have ha : alignUp ext pageSize = ext := by
    rw [alignUp, e3, u32_of_lt (by omega)]
    omega
  rw [heapSbrk]
  simp only [ha]
  rw [u32_of_lt (by omega)]
  by_cases hs : span hdrSize cs + ext ≤ kernelHeapSize
  · rw [if_neg (by omega), if_pos hs]
  · rw [if_pos (by omega), if_neg hs]

section Grow

variable {h h' : Heap} {size fuel ext mem : Nat} {cs : List Cell}

/-- No block fits and the window is exhausted. -/
theorem kmalloc_full (hr : Repr h cs) (h0 : 0 < size) (hfit : fit (alignUp size 8) cs = none)
    (hf : cs.length < fuel)
    (hsb : heapSbrk h (alignUp (u32 (alignUp size 8 + hdrSize)) (pageSize * 4)) = (0, h)) :
    kmalloc (fuel + 1) h size = some (0, h) := by
  rw [kmalloc, if_neg (by omega)]
  simp only [firstFit_start hr hf, hfit, hsb]
  rfl

/-- No block fits and the heap grows: the call starts over. -/
theorem kmalloc_retry {g : Heap} (hr : Repr h cs) (h0 : 0 < size)
    (hfit : fit (alignUp size 8) cs = none) (hf : cs.length < fuel)
    (hext : ext = alignUp (u32 (alignUp size 8 + hdrSize)) (pageSize * 4))
    (hsb : heapSbrk h ext = (mem, g)) (hm : mem ≠ 0) (ha : appendBlock fuel g mem ext = some h') :
    kmalloc (fuel + 1) h size = kmalloc fuel h' (alignUp size 8) := by
  obtain ⟨k, rfl⟩ := Nat.exists_eq_succ_of_ne_zero hm
  rw [kmalloc, if_neg (by omega)]
  simp only [firstFit_start hr hf, hfit, ← hext, hsb, ha]
  rfl

end Grow

/-- **A call of `kmalloc` comes back and serves the request.** -/
theorem kmalloc_serves (hr : Repr h cs) (h0 : 0 < size) (hs : size ≤ kernelHeapSize) (hf : cs.length + 4 ≤ fuel) :
    ∃ p h' cs', kmalloc fuel h size = some (p, h') ∧ Served (alignUp size 8) cs p cs' ∧
      Repr h' cs' ∧ ∀ x, Inside hdrSize kernelHeapStart cs x → h'.mem x = h.mem x := by
  obtain ⟨e1, _, e3, e4, e5, _⟩ := consts
  cases hfit : fit (alignUp size 8) cs with
  | some r =>
    obtain ⟨xs, c, ys⟩ := r
    obtain ⟨h', hk, hr', hin⟩ := kmalloc_found hr h0 hfit (show _ ≤ fuel by omega)
    exact ⟨_, h', _, hk, .found hfit, hr', hin⟩
  | none =>
    obtain ⟨ha1, ha2, ha3⟩ := @alignUp_eight size (by omega)
    have hfull := @kmalloc_full h size (fuel - 1) cs hr h0 hfit (by omega)
    have hretry := fun ext mem g h' => @kmalloc_retry h h' size (fuel - 1) ext mem cs g hr h0 hfit
      (by omega)
    rw [show fuel - 1 + 1 = fuel by omega] at hfull hretry
    obtain ⟨need, hneed⟩ : ∃ need, need = alignUp size 8 := ⟨_, rfl⟩
    rw [← hneed] at ha1 ha2 ha3 hfit hfull hretry ⊢
    obtain ⟨ext, hext⟩ : ∃ ext, ext = alignUp (u32 (need + hdrSize)) (pageSize * 4) := ⟨_, rfl⟩
    have hx : need + hdrSize ≤ ext ∧ ext < need + hdrSize + 16384 ∧ 16384 ∣ ext := by
      rw [hext, alignUp, e3, u32_of_lt (show need + hdrSize < 2 ^ 32 by omega), u32_of_lt (by omega)]
      omega
    have hsb := heapSbrk_eq hr (show 4096 ∣ ext by omega) (by omega)
    by_cases hroom : span hdrSize cs + ext ≤ kernelHeapSize
    · -- the heap grows; the retry passes over the old blocks and takes the new one
      rw [if_pos hroom] at hsb
      obtain ⟨h1, ha, hr1, hin1⟩ := repr_grow hr (by omega) hroom (show _ ≤ fuel - 1 by omega)
      have hcur : h.heapCur ≠ 0 := by rw [hr.cur]; omega
      have hc : Fits need ⟨ext - hdrSize, false⟩ := ⟨rfl, by show need ≤ ext - hdrSize; omega⟩
      have hn8 : alignUp need 8 = need := by rw [alignUp, u32_of_lt (by omega)]; omega
      have hfit' := @fit_append need _ cs [] (fit_none hfit) hc
      obtain ⟨h2, hk2, hr2, hin2⟩ := kmalloc_found hr1 (show 0 < need by omega)
        (by rw [hn8]; exact hfit') (show _ ≤ fuel - 1 by simp; omega)
      rw [hn8, List.append_nil] at hr2
      refine ⟨_, h2, _, ?_, .grown hfit hc (by show 8 ∣ ext - hdrSize; omega), hr2,
        fun x hx => (hin2 x (hx.append _)).trans (hin1 x hx)⟩
      rw [hretry ext _ _ _ hext hsb hcur ha]
      exact hk2
    · rw [if_neg hroom, hext] at hsb
      exact ⟨0, h, cs, hfull hsb, .full hfit, hr, fun _ _ => rfl⟩

/-! ## 2. More fuel does not change a result -/

theorem firstFit_mono {r : Nat} (hf : firstFit h size fuel b = some r) : firstFit h size (fuel + 1) b = some r := by
  induction fuel generalizing b with
  | zero => cases hf
  | succ fuel ih =>
    rw [firstFit] at hf ⊢
    split at hf
    · rw [if_pos ‹_›]; exact hf
    · rw [if_neg ‹_›]
      split at hf
      · rw [if_pos ‹_›]; exact hf
      · rw [if_neg ‹_›]; exact ih hf

theorem lastBlock_mono {r : Nat} (hf : lastBlock h fuel b = some r) : lastBlock h (fuel + 1) b = some r := by
  induction fuel generalizing b with
  | zero => cases hf
  | succ fuel ih =>
    rw [lastBlock] at hf ⊢
    split at hf
    · rw [if_pos ‹_›]; exact hf
    · rw [if_neg ‹_›]; exact ih hf

theorem appendBlock_mono (hf : appendBlock fuel h nb ext = some h') : appendBlock (fuel + 1) h nb ext = some h' := by
  simp only [appendBlock] at hf ⊢
  split at hf
  · cases hf
  · rename_i hl
    rw [lastBlock_mono hl]
    exact hf

theorem appendBlock_add (hf : appendBlock fuel h nb ext = some h') (k : Nat) :
    appendBlock (fuel + k) h nb ext = some h' := by
  induction k with
  | zero => exact hf
  | succ k ih => exact appendBlock_mono ih

theorem kmalloc_mono {r : Nat × Heap} (hf : kmalloc fuel h size = some r) : kmalloc (fuel + 1) h size = some r := by
  induction fuel generalizing h size with
  | zero => cases hf
  | succ fuel ih =>
    rw [kmalloc] at hf ⊢
    split at hf
    · rw [if_pos ‹_›]; exact hf
    · rw [if_neg ‹_›]
      simp only at hf ⊢
      split at hf
      · cases hf
      · rename_i b hb
        rw [firstFit_mono hb]
        simp only
        split at hf
        · rw [if_pos ‹_›]; exact hf
        · rw [if_neg ‹_›]
          split at hf
          · exact hf
          · split at hf
            · cases hf
            · rename_i ha
              simp only [appendBlock_mono ha]
              exact ih hf

theorem kmalloc_add {r : Nat × Heap} (hf : kmalloc fuel h size = some r) (k : Nat) :
    kmalloc (fuel + k) h size = some r := by
  induction k with
  | zero => exact hf
  | succ k ih => exact kmalloc_mono ih

/-- Whatever fuel a call came back with, it served the request. -/
theorem kmalloc_served (hr : Repr h cs) (h0 : 0 < size) (hs : size ≤ kernelHeapSize)
    (hk : kmalloc fuel h size = some (p, h')) :
    ∃ cs', Served (alignUp size 8) cs p cs' ∧ Repr h' cs' ∧
      ∀ x, Inside hdrSize kernelHeapStart cs x → h'.mem x = h.mem x := by
  obtain ⟨p', g, cs', hk', hsv, hr', hin⟩ := kmalloc_serves hr h0 hs (Nat.le_add_left (cs.length + 4) fuel)
  rw [kmalloc_add hk] at hk'
  cases hk'
  exact ⟨cs', hsv, hr', hin⟩

/-! ## 3. The invariant -/

/-- The heap `h` represents the tiling `cs`: no two free neighbours, sizes in units of 8, and the used blocks are the
    allocations `live`. -/
structure Holds (h : Heap) (cs : List Cell) (live : List Nat) : Prop where
  repr : Repr h cs
  noAdj : NoAdjFree cs
  aligned : Aligned 8 cs
  live : ∀ p, p ∈ live ↔ p ∈ usedAt hdrSize kernelHeapStart cs

/-- The live allocations after a call that returned `p`. -/
def gain (p : Nat) (live : List Nat) : List Nat := if p = 0 then live else p :: live

/-- The live allocations after `p` was freed. -/
def lose (p : Nat) (live : List Nat) : List Nat := live.filter (· ≠ p)

theorem mem_lose {q : Nat} : q ∈ lose p live ↔ q ∈ live ∧ q ≠ p := by
  simp [lose]

theorem Served.fresh (h : Served need cs p cs') : p ∉ usedAt hdrSize kernelHeapStart cs := by
  cases h with
  | found hf =>
    obtain ⟨rfl, hc, _⟩ := fit_some hf
    exact free_notMem_usedAt hdrSize (by decide) _ hc.1
  | grown hf hc h8 =>
    intro h
    have := usedAt_bounds hdrSize h
    obtain ⟨e1, _⟩ := consts
    omega
  | full hf =>
    intro h
    have := usedAt_bounds hdrSize h
    obtain ⟨e1, _⟩ := consts
    omega

/-- The block returned holds the request. -/
theorem Served.block (h : Served need cs p cs') (hp : p ≠ 0) :
    ∃ xs c ys, cs' = xs ++ c :: ys ∧ p = kernelHeapStart + span hdrSize xs + hdrSize ∧ need ≤ c.size := by
  cases h with
  | @found xs ys c hf =>
    obtain ⟨d, ds, hd, _, hs⟩ := carve_head hdrSize minAlloc (fit_some hf).2.1.2
    exact ⟨xs, d, ds ++ ys, by rw [hd]; simp, rfl, hs⟩
  | grown hf hc h8 =>
    obtain ⟨d, ds, hd, _, hs⟩ := carve_head hdrSize minAlloc hc.2
    exact ⟨cs, d, ds, by rw [hd], rfl, hs⟩
  | full hf => exact absurd rfl hp

/-- A used block stays where it is. -/
theorem Served.keeps {us vs : List Cell} {d : Cell} (h : Served need cs p cs') (hd : d.used = true)
    (hc : cs = us ++ d :: vs) :
    ∃ us' vs', cs' = us' ++ d :: vs' ∧ span hdrSize us' = span hdrSize us := by
  cases h with
  | found hf =>
    obtain ⟨he, hfit, _⟩ := fit_some hf
    refine split_carve hdrSize minAlloc need (he.symm.trans hc) fun e => ?_
    have := hfit.1
    rw [e, hd] at this
    cases this
  | @grown c hf hc' h8 =>
    rw [hc]
    exact ⟨us, vs ++ carve hdrSize minAlloc need c, by simp, rfl⟩
  | full hf => exact ⟨us, vs, hc, rfl⟩

theorem Holds.served (hh : Holds h cs live) (hs : Served need cs p cs') (hn : 8 ∣ need) (hr : Repr h' cs') :
    Holds h' cs' (gain p live) := by
  obtain ⟨e1, _, _, e4, _⟩ := consts
  have h16 : 8 ∣ hdrSize := by decide
  cases hs with
  | @found xs ys c hf =>
    obtain ⟨rfl, hc, _⟩ := fit_some hf
    obtain ⟨hax, hac⟩ := aligned_append.mp hh.aligned
    obtain ⟨hc8, hay⟩ := aligned_cons.mp hac
    refine ⟨hr, noAdjFree_carve hh.noAdj.left hh.noAdj.right hc.1, ?_, fun q => ?_⟩
    · exact aligned_append.mpr ⟨aligned_append.mpr ⟨hax, aligned_carve h16 hn hc8⟩, hay⟩
    · rw [gain, if_neg (by omega), List.mem_cons, usedAt_alloc _ _ _ _ hc.1, hh.live]
  | @grown c hf hc h8 =>
    have hu := fun q => @usedAt_alloc c cs [] hdrSize minAlloc need kernelHeapStart hc.1 q
    have hadj : NoAdjFree [c] := List.isChain_singleton _
    have hcar := @noAdjFree_carve c cs [] hdrSize minAlloc need hh.noAdj hadj hc.1
    simp only [List.append_nil] at hu hcar
    refine ⟨hr, hcar, aligned_append.mpr ⟨hh.aligned, aligned_carve h16 hn h8⟩, fun q => ?_⟩
    rw [gain, if_neg (by omega), List.mem_cons, hu, hh.live, usedAt_append]
    simp [hc.1]
  | full hf =>
    exact ⟨hr, hh.noAdj, hh.aligned, hh.live⟩

/-- Where a live allocation's block stands. -/
theorem Holds.block (hh : Holds h cs live) (hp : p ∈ live) : ∃ xs c ys, cs = xs ++ c :: ys ∧ c.used = true ∧
      p = kernelHeapStart + span hdrSize xs + hdrSize ∧ h.size (sub32 p hdrSize) = c.size := by
  obtain ⟨e1, _, _, e4, e5, _⟩ := consts
  obtain ⟨xs, c, ys, rfl, hc, hp⟩ := usedAt_split hdrSize ((hh.live p).mp hp)
  obtain ⟨_, hd, _, hb⟩ := hh.repr.split
  refine ⟨xs, c, ys, rfl, hc, hp, ?_⟩
  rw [hp, sub32_of_le (by omega) (by omega), Nat.add_sub_cancel]
  exact hd.size

theorem Holds.kfree (hh : Holds h cs live) (hp : p ∈ live) : ∃ cs', Holds (kfree h p) cs' (lose p live) := by
  obtain ⟨xs, c, ys, rfl, hc, rfl, _⟩ := hh.block hp
  refine ⟨release hdrSize xs c ys, repr_kfree hh.repr hc, noAdjFree_release _ hh.noAdj,
    aligned_release (by decide) hh.aligned, fun q => ?_⟩
  rw [mem_lose, mem_usedAt_release hdrSize (by decide) _ hc, hh.live]

/-- Writes inside the payload of a block keep the invariant. -/
theorem Holds.payload {c : Cell} {m : Mem} (hh : Holds h (xs ++ c :: ys) live)
    (hm : ∀ x, x < kernelHeapStart + span hdrSize xs + hdrSize ∨
      kernelHeapStart + span hdrSize xs + hdrSize + c.size ≤ x → m x = h.mem x) :
    Holds { h with mem := m } (xs ++ c :: ys) live :=
  ⟨repr_payload hh.repr hm, hh.noAdj, hh.aligned, hh.live⟩

/-! ## 4. Calls -/

/-- The heap with the allocations its clients hold. -/
structure State where
  heap : Heap
  live : List Nat

/-- The calls of the allocator, and a client's write into a payload. -/
inductive Call where
  | kmalloc (size : Nat)
  | kcalloc (nmemb size : Nat)
  | krealloc (ptr size : Nat)
  | kfree (ptr : Nat)
  | write (ptr off : Nat) (v : UInt8)

/-- The calls clients make: no request beyond the heap window, pointers that are live, writes inside the payload. -/
def Admissible (s : State) : Call → Prop
  | .kmalloc size => size ≤ kernelHeapSize
  | .kcalloc nmemb size => nmemb * size ≤ kernelHeapSize
  | .krealloc ptr size => size ≤ kernelHeapSize ∧ (ptr = 0 ∨ ptr ∈ s.live)
  | .kfree ptr => ptr = 0 ∨ ptr ∈ s.live
  | .write ptr off _ => ptr ∈ s.live ∧ off < s.heap.size (sub32 ptr hdrSize)

/-- One call; the live allocations follow what it returned. -/
def exec (fuel : Nat) (s : State) : Call → Option State
  | .kmalloc size => (kmalloc fuel s.heap size).map fun r => ⟨r.2, gain r.1 s.live⟩
  | .kcalloc nmemb size => (kcalloc fuel s.heap nmemb size).map fun r => ⟨r.2, gain r.1 s.live⟩
  | .krealloc ptr size => (krealloc fuel s.heap ptr size).map fun r =>
      ⟨r.2, if ptr = 0 ∨ size ≠ 0 ∧ r.1 = 0 then gain r.1 s.live else gain r.1 (lose ptr s.live)⟩
  | .kfree ptr => some ⟨kfree s.heap ptr, lose ptr s.live⟩
  | .write ptr off v => some ⟨{ s.heap with mem := store s.heap.mem (ptr + off) v }, s.live⟩

/-- An admissible call that came back. -/
def Step (s : State) (c : Call) (s' : State) : Prop :=
  Admissible s c ∧ ∃ fuel, exec fuel s c = some s'

/-- After `kmalloc_init`. -/
def init (m : Mem) : State := ⟨kmallocInit m, []⟩

def HeapInv (s : State) : Prop := ∃ cs, Holds s.heap cs s.live

theorem heapInv_init (m : Mem) : HeapInv (init m) := by
  simp only [HeapInv, init]
  refine ⟨[⟨pageSize * 4 - hdrSize, false⟩], repr_kmallocInit m, List.isChain_singleton _, ?_, ?_⟩
  · rw [aligned_cons]
    exact ⟨by decide, by simp [Aligned]⟩
  · intro p
    simp [usedAt]

theorem zero_notMem_live (hh : Holds h cs live) : 0 ∉ live := by
  obtain ⟨_, _, _, e4, _⟩ := consts
  intro h
  have := usedAt_bounds hdrSize ((hh.live 0).mp h)
  omega

/-- `kmalloc` keeps the invariant; a block it returns holds the request and was not live, and the live blocks keep
    their sizes. -/
theorem Holds.kmalloc (hh : Holds h cs live) (hs : size ≤ kernelHeapSize) (hk : kmalloc fuel h size = some (p, h')) :
    ∃ cs', Holds h' cs' (gain p live) ∧ (p ≠ 0 → p ∉ live ∧ ∃ xs c ys, cs' = xs ++ c :: ys ∧
        p = kernelHeapStart + span hdrSize xs + hdrSize ∧ size ≤ c.size) ∧
      ∀ q ∈ live, h'.size (sub32 q hdrSize) = h.size (sub32 q hdrSize) := by
  obtain ⟨e1, _, _, e4, e5, _⟩ := consts
  by_cases h0 : size = 0
  · cases fuel with
    | zero => cases hk
    | succ fuel =>
      rw [Kmalloc.kmalloc, if_pos h0] at hk
      cases hk
      exact ⟨cs, hh, fun h => absurd rfl h, fun _ _ => rfl⟩
  · obtain ⟨ha1, _, ha3⟩ := @alignUp_eight size (by omega)
    obtain ⟨cs', hsv, hr, _⟩ := kmalloc_served hh.repr (Nat.pos_of_ne_zero h0) hs hk
    have hh' := hh.served hsv ha3 hr
    refine ⟨cs', hh', fun hp => ⟨fun hl => hsv.fresh ((hh.live p).mp hl), ?_⟩, fun q hq => ?_⟩
    · obtain ⟨xs, c, ys, hc, hp', hsz⟩ := hsv.block hp
      exact ⟨xs, c, ys, hc, hp', ha1.trans hsz⟩
    · obtain ⟨xs, c, ys, hc, hu, hq', hsz⟩ := hh.block hq
      obtain ⟨us, vs, rfl, hsp⟩ := hsv.keeps hu hc
      obtain ⟨_, hd, _, hb⟩ := hr.split
      rw [hsz, hq', sub32_of_le (by omega) (by omega), Nat.add_sub_cancel, ← hsp]
      exact hd.size

theorem heapInv_kcalloc {nmemb : Nat} (hh : Holds h cs live) (hs : nmemb * size ≤ kernelHeapSize)
    (hk : kcalloc fuel h nmemb size = some (p, h')) : HeapInv ⟨h', gain p live⟩ := by
  obtain ⟨_, _, _, _, e5, _⟩ := consts
  simp only [kcalloc, u32_of_lt (show nmemb * size < 2 ^ 32 by omega)] at hk
  split at hk
  · cases hk
  · rename_i q g hq
    obtain ⟨cs', hh', hfr, _⟩ := hh.kmalloc hs hq
    split at hk
    · rename_i hq0
      cases hk
      obtain ⟨_, xs, c, ys, rfl, hp, hsz⟩ := hfr hq0
      refine ⟨_, hh'.payload fun x hx => fill_of_ne _ _ _ _ ?_⟩
      omega
    · cases hk
      exact ⟨cs', hh'⟩

theorem heapInv_krealloc {ptr : Nat} (hh : Holds h cs live) (hs : size ≤ kernelHeapSize) (hp : ptr = 0 ∨ ptr ∈ live)
    (hk : krealloc fuel h ptr size = some (p, h')) :
    HeapInv ⟨h', if ptr = 0 ∨ size ≠ 0 ∧ p = 0 then gain p live else gain p (lose ptr live)⟩ := by
  unfold krealloc at hk
  split at hk
  · -- no old block
    rename_i h0
    obtain ⟨cs', hh', _⟩ := hh.kmalloc hs hk
    rw [if_pos (.inl h0)]
    exact ⟨cs', hh'⟩
  rename_i h0
  have hpl : ptr ∈ live := hp.resolve_left h0
  split at hk
  · -- size 0: the block is freed
    rename_i hz
    cases hk
    rw [if_neg (by simp [h0, hz])]
    exact hh.kfree hpl
  rename_i hz
  simp only at hk
  split at hk
  · -- the block is large enough
    cases hk
    rw [if_neg (by simp [h0])]
    refine ⟨cs, hh.repr, hh.noAdj, hh.aligned, fun q => ?_⟩
    rw [gain, if_neg h0, List.mem_cons, mem_lose, ← hh.live]
    by_cases hq : q = p
    · simp [hq, hpl]
    · simp [hq]
  rename_i hlt
  split at hk
  · cases hk
  · rename_i np g hm
    obtain ⟨cs', hh', hfr, hkeep⟩ := hh.kmalloc hs hm
    split at hk
    · -- the payload moves, then the old block is freed
      rename_i hnp
      cases hk
      obtain ⟨hnl, xs, c, ys, rfl, hpe, hsz⟩ := hfr hnp
      have hcopy := hh'.payload (m := copy g.mem p ptr (g.size (sub32 ptr hdrSize)))
        fun x hx => copy_of_ne _ _ _ _ (by rw [hkeep ptr hpl]; omega)
      have hpg : ptr ∈ gain p live := by rw [gain, if_neg hnp]; exact .tail _ hpl
      obtain ⟨cs'', hf⟩ := hcopy.kfree hpg
      rw [if_neg (by simp [h0, hnp])]
      refine ⟨cs'', hf.repr, hf.noAdj, hf.aligned, fun q => ?_⟩
      rw [← hf.live, mem_lose, gain, gain, if_neg hnp, if_neg hnp, List.mem_cons, List.mem_cons, mem_lose]
      have hne : p ≠ ptr := fun e => hnl (e ▸ hpl)
      constructor
      · rintro (rfl | ⟨h1, h2⟩)
        · exact ⟨.inl rfl, hne⟩
        · exact ⟨.inr h1, h2⟩
      · rintro ⟨rfl | h1, h2⟩
        · exact .inl rfl
        · exact .inr ⟨h1, h2⟩
    · rename_i hnp
      cases hk
      rw [if_pos (.inr ⟨hz, not_not.mp hnp⟩)]
      exact ⟨cs', hh'⟩

/-- **Every call keeps the invariant.** -/
theorem heapInv_step (s : State) (c : Call) (s' : State) (hi : HeapInv s) (hs : Step s c s') : HeapInv s' := by
  obtain ⟨cs, hh⟩ := hi
  obtain ⟨ha, fuel, he⟩ := hs
  cases c with
  | kmalloc size =>
    obtain ⟨⟨p, g⟩, hk, rfl⟩ := Option.map_eq_some_iff.mp he
    obtain ⟨cs', hh', _⟩ := hh.kmalloc ha hk
    exact ⟨cs', hh'⟩
  | kcalloc nmemb size =>
    obtain ⟨⟨p, g⟩, hk, rfl⟩ := Option.map_eq_some_iff.mp he
    exact heapInv_kcalloc hh ha hk
  | krealloc ptr size =>
    obtain ⟨⟨p, g⟩, hk, rfl⟩ := Option.map_eq_some_iff.mp he
    exact heapInv_krealloc hh ha.1 ha.2 hk
  | kfree ptr =>
    cases he
    rcases ha with rfl | hp
    · -- NULL: nothing happens
      refine ⟨cs, hh.repr, hh.noAdj, hh.aligned, fun q => ?_⟩
      rw [← hh.live, mem_lose]
      exact ⟨fun h => h.1, fun h => ⟨h, fun e => zero_notMem_live hh (e ▸ h)⟩⟩
    · exact hh.kfree hp
  | write ptr off v =>
    cases he
    obtain ⟨hp, ho⟩ := ha
    obtain ⟨xs, c, ys, rfl, _, hpe, hsz⟩ := hh.block hp
    exact ⟨_, hh.payload fun x hx => store_of_ne _ _ _ (by omega)⟩

/-- **An admissible call comes back.** -/
theorem exec_returns {s : State} (hi : HeapInv s) {c : Call} (ha : Admissible s c) : ∃ s', Step s c s' := by
  obtain ⟨cs, hh⟩ := hi
  obtain ⟨_, _, _, _, e5, _⟩ := consts
  have hk : ∀ size, size ≤ kernelHeapSize → ∃ r, kmalloc (cs.length + 4) s.heap size = some r := by
    intro size hs
    by_cases h0 : size = 0
    · exact ⟨(0, s.heap), by rw [kmalloc, if_pos h0]⟩
    · obtain ⟨p, h', _, hk, _⟩ := kmalloc_serves hh.repr (Nat.pos_of_ne_zero h0) hs le_rfl
      exact ⟨(p, h'), hk⟩
  cases c with
  | kmalloc size =>
    obtain ⟨r, hr⟩ := hk size ha
    exact ⟨_, ha, cs.length + 4, by rw [exec, hr]; rfl⟩
  | kcalloc nmemb size =>
    have ha' : nmemb * size ≤ kernelHeapSize := ha
    obtain ⟨⟨p, h'⟩, hr⟩ := hk (nmemb * size) ha'
    have hc : ∃ r, kcalloc (cs.length + 4) s.heap nmemb size = some r := by
      simp only [kcalloc, u32_of_lt (show nmemb * size < 2 ^ 32 by omega), hr]
      split <;> exact ⟨_, rfl⟩
    obtain ⟨r, hc⟩ := hc
    exact ⟨_, ha, cs.length + 4, by rw [exec, hc]; rfl⟩
  | krealloc ptr size =>
    obtain ⟨⟨p, h'⟩, hr⟩ := hk size ha.1
    have hc : ∃ r, krealloc (cs.length + 4) s.heap ptr size = some r := by
      simp only [krealloc, hr]
      split
      · exact ⟨_, rfl⟩
      · split
        · exact ⟨_, rfl⟩
        · split
          · exact ⟨_, rfl⟩
          · split <;> exact ⟨_, rfl⟩
    obtain ⟨r, hc⟩ := hc
    exact ⟨_, ha, cs.length + 4, by rw [exec, hc]; rfl⟩
  | kfree ptr => exact ⟨_, ha, 0, rfl⟩
  | write ptr off v => exact ⟨_, ha, 0, rfl⟩

/-! ## 5. The block list as the source walks it -/

/-- The blocks met by following `next` from `b` to NULL. -/
def Walk (h : Heap) : Nat → List Nat → Prop
  | b, [] => b = 0
  | b, x :: xs => x = b ∧ b ≠ 0 ∧ Walk h (h.next b) xs

/-- The list `bs` of all blocks tiles the heap, and its used blocks are the live allocations. -/
structure WellFormed (s : State) (bs : List Nat) : Prop where
  walk : Walk s.heap s.heap.heapStart bs
  first : bs.head? = some kernelHeapStart ∧ s.heap.prev kernelHeapStart = 0
  ordered : bs.Pairwise (· < ·)
  tiled : ∀ b ∈ bs, s.heap.next b ≠ 0 → b + hdrSize + s.heap.size b = s.heap.next b
  last : ∀ b ∈ bs, s.heap.next b = 0 → b + hdrSize + s.heap.size b = s.heap.heapCur
  cur : s.heap.heapCur ≤ s.heap.heapEnd
  prevNext : ∀ b ∈ bs, s.heap.next b ≠ 0 → s.heap.prev (s.heap.next b) = b
  nextPrev : ∀ b ∈ bs, s.heap.prev b ≠ 0 → s.heap.prev b ∈ bs ∧ s.heap.next (s.heap.prev b) = b
  sizes : ∀ b ∈ bs, 8 ∣ s.heap.size b
  magics : ∀ b ∈ bs, s.heap.magic b = magicFree ∨ s.heap.magic b = magicUsed
  used : ∀ p, p ∈ s.live ↔ ∃ b ∈ bs, s.heap.magic b = magicUsed ∧ p = b + hdrSize
  noAdj : ∀ b ∈ bs, s.heap.next b ≠ 0 →
    ¬ (s.heap.magic b = magicFree ∧ s.heap.magic (s.heap.next b) = magicFree)
  allFree : s.live = [] → bs = [kernelHeapStart] ∧ s.heap.magic kernelHeapStart = magicFree ∧
    kernelHeapStart + hdrSize + s.heap.size kernelHeapStart = s.heap.heapCur

theorem walk_of_seg (hs : Seg h.mem p a cs 0) (ha : a ≠ 0) :
    Walk h (if cs = [] then 0 else a) (starts hdrSize a cs) := by
  induction cs generalizing p a with
  | nil => rfl
  | cons c cs ih =>
    obtain ⟨hd, ht⟩ := hs
    rw [if_neg (List.cons_ne_nil _ _), starts]
    refine ⟨rfl, ha, ?_⟩
    rw [show h.next a = _ from hd.next]
    exact ih ht (by omega)

/-- The block after one that has a successor. -/
theorem Repr.succ {c : Cell} (hr : Repr h (xs ++ c :: ys)) (hn : h.next (kernelHeapStart + span hdrSize xs) ≠ 0) :
    ∃ d ds, ys = d :: ds ∧ h.next (kernelHeapStart + span hdrSize xs) =
        kernelHeapStart + span hdrSize xs + hdrSize + c.size ∧
      h.magic (kernelHeapStart + span hdrSize xs + hdrSize + c.size) = tag d ∧
      h.prev (kernelHeapStart + span hdrSize xs + hdrSize + c.size) = kernelHeapStart + span hdrSize xs := by
  obtain ⟨_, hd, hy, _⟩ := hr.split
  cases ys with
  | nil => exact absurd hd.next hn
  | cons d ds => exact ⟨d, ds, rfl, hd.next, hy.1.magic, hy.1.prev⟩

/-- A represented heap is well formed. -/
theorem Holds.wellFormed {s : State} (hh : Holds s.heap cs s.live) :
    WellFormed s (starts hdrSize kernelHeapStart cs) := by
  have hr := hh.repr
  refine ⟨?_, ?_, starts_ordered _ (by decide) _ _, ?_, ?_, hr.curLe, ?_, ?_, ?_, ?_, ?_, ?_, ?_⟩
  · have hw := walk_of_seg hr.seg (by decide)
    rw [if_neg hr.ne] at hw
    rw [hr.start]
    exact hw
  · obtain ⟨c, ds, rfl⟩ := List.exists_cons_of_ne_nil hr.ne
    exact ⟨rfl, hr.seg.1.prev⟩
  · intro b hb hn
    obtain ⟨xs, c, ys, rfl, rfl⟩ := (mem_starts _).mp hb
    obtain ⟨_, _, _, hnx, _⟩ := hr.succ hn
    rw [hnx, show s.heap.size _ = c.size from hr.split.2.1.size]
  · intro b hb hn
    obtain ⟨xs, c, ys, rfl, rfl⟩ := (mem_starts _).mp hb
    obtain ⟨_, hd, _, _⟩ := hr.split
    have hcur := hr.cur
    rw [show s.heap.size _ = c.size from hd.size]
    cases ys with
    | nil =>
      simp only [span_append, span_cons, span_nil] at hcur
      omega
    | cons d ds =>
      have hnx : s.heap.next _ = _ := hd.next
      rw [if_neg (List.cons_ne_nil _ _), hn] at hnx
      obtain ⟨e1, _⟩ := consts
      omega
  · intro b hb hn
    obtain ⟨xs, c, ys, rfl, rfl⟩ := (mem_starts _).mp hb
    obtain ⟨_, _, _, hnx, _, hp⟩ := hr.succ hn
    rw [hnx, hp]
  · intro b hb hp
    obtain ⟨xs, c, ys, rfl, rfl⟩ := (mem_starts _).mp hb
    have hpv : s.heap.prev (kernelHeapStart + span hdrSize xs) = lastOf 0 kernelHeapStart xs := hr.split.2.1.prev
    rcases List.eq_nil_or_concat xs with rfl | ⟨zs, p, rfl⟩
    · exact absurd hpv hp
    · rw [List.concat_eq_append] at hr hpv hb ⊢
      rw [lastOf_concat] at hpv
      rw [List.append_assoc, List.singleton_append] at hr hb ⊢
      rw [hpv]
      refine ⟨(mem_starts _).mpr ⟨zs, p, c :: ys, rfl, rfl⟩, ?_⟩
      rw [show s.heap.next _ = _ from hr.split.2.1.next, if_neg (List.cons_ne_nil _ _)]
      simp only [span_append, span_cons, span_nil]
      omega
  · intro b hb
    obtain ⟨xs, c, ys, rfl, rfl⟩ := (mem_starts _).mp hb
    rw [show s.heap.size _ = c.size from hr.split.2.1.size]
    exact hh.aligned c (by simp)
  · intro b hb
    obtain ⟨xs, c, ys, rfl, rfl⟩ := (mem_starts _).mp hb
    rw [show s.heap.magic _ = tag c from hr.split.2.1.magic, tag_free, tag_used]
    cases c.used <;> simp
  · intro p
    rw [hh.live]
    constructor
    · intro hp
      obtain ⟨xs, c, ys, rfl, hc, rfl⟩ := usedAt_split _ hp
      exact ⟨_, (mem_starts _).mpr ⟨xs, c, ys, rfl, rfl⟩, hr.split.2.1.magic.trans (tag_used.mpr hc), rfl⟩
    · rintro ⟨b, hb, hm, rfl⟩
      obtain ⟨xs, c, ys, rfl, rfl⟩ := (mem_starts _).mp hb
      have hc := tag_used.mp (hr.split.2.1.magic.symm.trans hm)
      rw [usedAt_append, usedAt_cons, hc]
      simp
  · rintro b hb hn ⟨h1, h2⟩
    obtain ⟨xs, c, ys, rfl, rfl⟩ := (mem_starts _).mp hb
    obtain ⟨d, ds, rfl, hnx, hm, _⟩ := hr.succ hn
    rw [hnx, hm, tag_free] at h2
    have hc := tag_free.mp (hr.split.2.1.magic.symm.trans h1)
    have hadj := (List.isChain_cons_cons.mp hh.noAdj.right).1
    rw [hc, h2] at hadj
    simp at hadj
  · intro hl
    have hu : usedAt hdrSize kernelHeapStart cs = [] := List.eq_nil_iff_forall_not_mem.mpr fun p hp => by
        have := (hh.live p).mpr hp
        rw [hl] at this
        simp at this
    obtain ⟨c, rfl, hc⟩ := single_of_unused hh.noAdj hu hr.ne
    obtain ⟨hd, _⟩ := hr.seg
    have hcur := hr.cur
    refine ⟨rfl, hd.magic.trans (tag_free.mpr hc), ?_⟩
    rw [show s.heap.size kernelHeapStart = c.size from hd.size, hcur, span_cons, span_nil]
    omega

/-- **The kernel heap in every run**: after every sequence of admissible calls from `kmalloc_init` the block list is
    well formed, and every further admissible call comes back. -/
theorem heap_wellFormed (m : Mem) (calls : List Call) (s : State)
    (hr : Lts.Run Step (init m) calls s) :
    (∃ bs, WellFormed s bs) ∧ ∀ c, Admissible s c → ∃ s', Step s c s' := by
  have hi : HeapInv s := hr.invariant heapInv_step (heapInv_init m)
  refine ⟨?_, fun c ha => exec_returns hi ha⟩
  obtain ⟨cs, hh⟩ := hi
  exact ⟨_, hh.wellFormed⟩

/-- Two requests, the second larger than the initial heap, and the release of whatever is live. -/
theorem heap_wellFormed_two_requests :
    ∃ s : State, Lts.Run Step (init fun _ => 0) [.kmalloc 24, .kcalloc 100 400] s ∧
      (∃ bs, WellFormed s bs) ∧ ∀ p ∈ s.live, ∃ s' bs,
        Lts.Run Step (init fun _ => 0) [.kmalloc 24, .kcalloc 100 400, .kfree p] s' ∧
        WellFormed s' bs := by
  obtain ⟨_, h0⟩ := heap_wellFormed (fun _ => 0) [] _ (.nil _)
  obtain ⟨t, ht⟩ := h0 (.kmalloc 24) (show 24 ≤ kernelHeapSize by decide)
  have r1 : Lts.Run Step (init fun _ => 0) [.kmalloc 24] t := .cons ht (.nil _)
  obtain ⟨_, h1⟩ := heap_wellFormed _ _ _ r1
  obtain ⟨u, hu⟩ := h1 (.kcalloc 100 400) (show 100 * 400 ≤ kernelHeapSize by decide)
  have r2 := r1.snoc hu
  obtain ⟨hw2, h2⟩ := heap_wellFormed _ _ _ r2
  refine ⟨u, r2, hw2, fun p hp => ?_⟩
  obtain ⟨v, hv⟩ := h2 (.kfree p) (.inr hp)
  have r3 := r2.snoc hv
  obtain ⟨⟨bs, hw⟩, _⟩ := heap_wellFormed _ _ _ r3
  exact ⟨v, bs, r3, hw⟩

end OreUnix.Kmalloc
