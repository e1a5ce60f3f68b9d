/-
  Subject: WHAT THE HEAP'S CLIENTS SEE of each other's calls: nothing.

  * `SameBlock h h' p` -- the allocation `p` has in `h'` the header and the bytes it had in `h`; `kmalloc_same`,
    `kfree_same`: every other allocation stays the same;
  * `kfree_undoes_kmalloc` -- allocating and freeing leaves the block list as it was, or with the space the heap grew
    by at its end;
  * `krealloc_preserves` -- the bytes of a block move with it.
-/
import OreUnix.Mm.KmallocRun

namespace OreUnix.Kmalloc

open ByteMem FreeList

variable {c d : Cell} {cs us vs xs ys : List Cell} {h h' : Heap} {live : List Nat} {n p ptr q size : Nat}

/-- The allocation `p` is in `h'` what it was in `h`: in use, of the same size, with the same bytes. -/
structure SameBlock (h h' : Heap) (p : Nat) : Prop where
  magic : h'.magic (sub32 p hdrSize) = h.magic (sub32 p hdrSize)
  size : h'.size (sub32 p hdrSize) = h.size (sub32 p hdrSize)
  bytes : ∀ i, i < h.size (sub32 p hdrSize) → h'.mem (p + i) = h.mem (p + i)

theorem SameBlock.refl (h : Heap) (p : Nat) : SameBlock h h p := ⟨rfl, rfl, fun _ _ => rfl⟩

theorem SameBlock.trans {h'' : Heap} (h1 : SameBlock h h' p) (h2 : SameBlock h' h'' p) : SameBlock h h'' p :=
  ⟨h2.magic.trans h1.magic, h2.size.trans h1.size, fun i hi =>
    (h2.bytes i (by rw [h1.size]; exact hi)).trans (h1.bytes i hi)⟩

/-! ## 1. One block in two heaps -/

/-- The header of a block of the list, read through the pointer handed out. -/
theorem Repr.header (hr : Repr h (xs ++ c :: ys)) :
    sub32 (kernelHeapStart + span hdrSize xs + hdrSize) hdrSize = kernelHeapStart + span hdrSize xs ∧
      h.magic (kernelHeapStart + span hdrSize xs) = tag c ∧ h.size (kernelHeapStart + span hdrSize xs) = c.size := by
  obtain ⟨e1, _, _, e4, e5, _⟩ := consts
  obtain ⟨_, hd, _, hb⟩ := hr.split
  refine ⟨?_, hd.magic, hd.size⟩
  rw [sub32_of_le (by omega) (by omega), Nat.add_sub_cancel]

/-- A cell that stands at the same place of both tilings, with the same bytes. -/
theorem sameBlock_of {us' vs' : List Cell} (hr : Repr h (us ++ d :: vs)) (hr' : Repr h' (us' ++ d :: vs'))
    (hsp : span hdrSize us' = span hdrSize us) (hx : ∀ x, kernelHeapStart + span hdrSize us + hdrSize ≤ x →
      x < kernelHeapStart + span hdrSize us + hdrSize + d.size → h'.mem x = h.mem x) :
    SameBlock h h' (kernelHeapStart + span hdrSize us + hdrSize) := by
  obtain ⟨ha, hm, hs⟩ := hr.header
  obtain ⟨_, hm', hs'⟩ := hr'.header
  rw [hsp] at hm' hs'
  refine ⟨?_, ?_, fun i hi => hx _ (by omega) ?_⟩
  · rw [ha, hm, hm']
  · rw [ha, hs, hs']
  · rw [ha, hs] at hi
    omega

theorem inside_payload (hd : d.used = true) {x : Nat} (h1 : kernelHeapStart + span hdrSize us + hdrSize ≤ x)
    (h2 : x < kernelHeapStart + span hdrSize us + hdrSize + d.size) :
    Inside hdrSize kernelHeapStart (us ++ d :: vs) x := ⟨us, d, vs, rfl, hd, h1, h2⟩

section Calls

variable {h h' : Heap} {cs cs' xs ys : List Cell} {c : Cell} {need p q : Nat}

/-- **`kmalloc` leaves every allocation alone.** -/
theorem kmalloc_same (hr : Repr h cs) (hs : Served need cs p cs') (hr' : Repr h' cs')
    (hin : ∀ x, Inside hdrSize kernelHeapStart cs x → h'.mem x = h.mem x)
    (hq : q ∈ usedAt hdrSize kernelHeapStart cs) : SameBlock h h' q := by
  obtain ⟨us, d, vs, rfl, hd, rfl⟩ := usedAt_split hdrSize hq
  obtain ⟨us', vs', rfl, hsp⟩ := hs.keeps hd rfl
  exact sameBlock_of hr hr' hsp fun x h1 h2 => hin x (inside_payload hd h1 h2)

/-- **`kfree` leaves every other allocation alone.** -/
theorem kfree_same (hr : Repr h (xs ++ c :: ys)) (hc : c.used = true)
    (hq : q ∈ usedAt hdrSize kernelHeapStart (xs ++ c :: ys))
    (hne : q ≠ kernelHeapStart + span hdrSize xs + hdrSize) :
    SameBlock h (kfree h (kernelHeapStart + span hdrSize xs + hdrSize)) q := by
  obtain ⟨us, d, vs, he, hd, rfl⟩ := usedAt_split hdrSize hq
  obtain ⟨us', vs', hrel, hsp⟩ := split_release hdrSize he hd fun h => hne (by rw [h])
  have hr' := repr_kfree hr hc
  rw [hrel] at hr'
  refine sameBlock_of (he ▸ hr) hr' hsp fun x h1 h2 => ?_
  exact kfree_inside hr hc (he ▸ inside_payload hd h1 h2)

/-- Writing to the payload of one block leaves every other allocation alone. -/
theorem payload_same (hr : Repr h (xs ++ c :: ys)) {m : Mem}
    (hm : ∀ x, x < kernelHeapStart + span hdrSize xs + hdrSize ∨
      kernelHeapStart + span hdrSize xs + hdrSize + c.size ≤ x → m x = h.mem x)
    (hq : q ∈ usedAt hdrSize kernelHeapStart (xs ++ c :: ys))
    (hne : q ≠ kernelHeapStart + span hdrSize xs + hdrSize) : SameBlock h { h with mem := m } q := by
  obtain ⟨e1, _⟩ := consts
  obtain ⟨us, d, vs, he, hd, rfl⟩ := usedAt_split hdrSize hq
  have hr' := repr_payload hr hm
  rw [he] at hr'
  refine sameBlock_of (he ▸ hr) hr' rfl fun x h1 h2 => hm x ?_
  -- the two cells stand one behind the other
  rcases List.append_eq_append_iff.mp he with ⟨ws, rfl, hcs⟩ | ⟨ws, rfl, hds⟩
  · cases ws with
    | nil => exact absurd (by rw [List.append_nil]) hne
    | cons w ws =>
      cases hcs
      simp only [span_append, span_cons] at h1
      omega
  · cases ws with
    | nil => exact absurd (by rw [List.append_nil]) hne
    | cons w ws =>
      cases hds
      simp only [span_append, span_cons]
      omega

end Calls

/-! ## 2. `kfree` undoes `kmalloc` -/

section Undo

variable {h h' : Heap} {cs cs' : List Cell} {need p : Nat}

/-- What is left when the block just handed out is released: the tiling as it was, or with the space the heap grew by.
    -/
theorem Served.undone (hs : Served need cs p cs') (hn : NoAdjFree cs) (hr : Repr h cs) (hr' : Repr h' cs')
    (hp : p ≠ 0) :
    (h'.heapCur = h.heapCur ∧ (∃ c ∈ cs, Fits need c) ∧ Repr (kfree h' p) cs) ∨
      ∃ ext, 0 < ext ∧ h'.heapCur = h.heapCur + ext ∧ (∀ c ∈ cs, ¬ Fits need c) ∧
        Repr (kfree h' p) (extend hdrSize cs ext) := by
  obtain ⟨e1, _⟩ := consts
  have hcur := hr.cur
  have hcur' := hr'.cur
  cases hs with
  | @found xs ys c hf =>
    obtain ⟨rfl, hc, _⟩ := fit_some hf
    obtain ⟨d, ds, hd, hdu, _⟩ := carve_head hdrSize minAlloc hc.2
    refine .inl ⟨?_, ⟨c, by simp, hc⟩, ?_⟩
    · have hsp := span_carve hdrSize minAlloc need c
      simp only [span_append, span_cons, span_nil] at hcur hcur' hsp
      omega
    · rw [hd, List.append_assoc, List.cons_append] at hr'
      have hk := repr_kfree hr' hdu
      rw [release_carve hn hc.1 hd] at hk
      exact hk
  | @grown c hf hc h8 =>
    obtain ⟨d, ds, hd, hdu, _⟩ := carve_head hdrSize minAlloc hc.2
    refine .inr ⟨hdrSize + c.size, by omega, ?_, fit_none hf, ?_⟩
    · have hsp := span_carve hdrSize minAlloc need c
      simp only [span_append, span_cons, span_nil] at hcur' hsp
      omega
    · rw [hd] at hr'
      have hk := repr_kfree hr' hdu
      rw [release_carve_end hc.1 hd] at hk
      exact hk
  | full hf => exact absurd rfl hp

theorem Served.mem_usedAt (hs : Served need cs p cs') (hq : q ∈ usedAt hdrSize kernelHeapStart cs) :
    q ∈ usedAt hdrSize kernelHeapStart cs' := by
  obtain ⟨us, d, vs, rfl, hd, rfl⟩ := usedAt_split hdrSize hq
  obtain ⟨us', vs', rfl, hsp⟩ := hs.keeps hd rfl
  rw [usedAt_append, usedAt_cons, hd, hsp]
  simp

theorem Served.used (hs : Served need cs p cs') (hp : p ≠ 0) :
    ∃ xs d ys, cs' = xs ++ d :: ys ∧ d.used = true ∧ need ≤ d.size ∧
    p = kernelHeapStart + span hdrSize xs + hdrSize := by
  cases hs with
  | @found xs ys c hf =>
    obtain ⟨d, ds, hd, hdu, hsz⟩ := carve_head hdrSize minAlloc (fit_some hf).2.1.2
    exact ⟨xs, d, ds ++ ys, by rw [hd]; simp, hdu, hsz, rfl⟩
  | grown hf hc h8 =>
    obtain ⟨d, ds, hd, hdu, hsz⟩ := carve_head hdrSize minAlloc hc.2
    exact ⟨cs, d, ds, by rw [hd], hdu, hsz, rfl⟩
  | full hf => exact absurd rfl hp

end Undo

/-- **`kfree` undoes `kmalloc`.** A call of `kmalloc` comes back; and when it returned a block, `kfree` of that block
    leaves the block list as it was before the call if a free block served it, and the list with the `ext` bytes the
    heap grew by at its end otherwise. All other allocations are the same all the time. -/
theorem kfree_undoes_kmalloc {h : Heap} {cs : List Cell} {n : Nat} (hr : Repr h cs) (hn : NoAdjFree cs)
    (h0 : 0 < n) (hle : n ≤ kernelHeapSize) :
    (∃ fuel p h', kmalloc fuel h n = some (p, h')) ∧
    ∀ fuel p h', kmalloc fuel h n = some (p, h') → p ≠ 0 →
      ((h'.heapCur = h.heapCur ∧ (∃ c ∈ cs, Fits (alignUp n 8) c) ∧ Repr (kfree h' p) cs) ∨
        ∃ ext, 0 < ext ∧ h'.heapCur = h.heapCur + ext ∧ (∀ c ∈ cs, ¬ Fits (alignUp n 8) c) ∧
          Repr (kfree h' p) (extend hdrSize cs ext)) ∧
      ∀ q ∈ usedAt hdrSize kernelHeapStart cs, SameBlock h h' q ∧ SameBlock h (kfree h' p) q := by
  refine ⟨?_, fun fuel p h' hk hp => ?_⟩
  · obtain ⟨p, h', _, hk, _⟩ := kmalloc_serves hr h0 hle le_rfl
    exact ⟨_, p, h', hk⟩
  · obtain ⟨cs', hs, hr', hin⟩ := kmalloc_served hr h0 hle hk
    refine ⟨hs.undone hn hr hr' hp, fun q hq => ?_⟩
    have hsame := kmalloc_same hr hs hr' hin hq
    refine ⟨hsame, hsame.trans ?_⟩
    have hfresh : q ≠ p := fun e => hs.fresh (e ▸ hq)
    have hq' := hs.mem_usedAt hq
    obtain ⟨xs, d, ys, rfl, hd, _, rfl⟩ := hs.used hp
    exact kfree_same hr' hd hq' hfresh

theorem kmalloc_first (h0 : 0 < n) (hn : n ≤ 16368) (m : Mem) :
    ∃ fuel h', kmalloc fuel (kmallocInit m) n = some (kernelHeapStart + hdrSize, h') ∧
      HeapInv ⟨h', [kernelHeapStart + hdrSize]⟩ := by
  obtain ⟨e1, _, e3, e4, e5, _⟩ := consts
  obtain ⟨_, ha2, ha3⟩ := @alignUp_eight n (by omega)
  have hfits : Fits (alignUp n 8) ⟨pageSize * 4 - hdrSize, false⟩ :=
    ⟨rfl, by show alignUp n 8 ≤ pageSize * 4 - hdrSize; omega⟩
  obtain ⟨h', hk, _⟩ := kmalloc_found (repr_kmallocInit m) h0 (show fit _ _ = some ([], _, []) by
    rw [fit, if_pos hfits]) le_rfl
  have hinit := heapInv_init m
  simp only [HeapInv, init] at hinit
  obtain ⟨cs, hh⟩ := hinit
  obtain ⟨cs', hh', _⟩ := hh.kmalloc (show n ≤ kernelHeapSize by omega) hk
  have hp : kernelHeapStart + span hdrSize [] + hdrSize ≠ 0 := by omega
  rw [gain, if_neg hp] at hh'
  exact ⟨_, h', hk, cs', hh'⟩

/-- 24 bytes of the fresh heap, freed again. -/
theorem kfree_undoes_first :
    ∃ fuel p h', kmalloc fuel (kmallocInit fun _ => 0) 24 = some (p, h') ∧ p ≠ 0 ∧
      Repr (kfree h' p) [⟨pageSize * 4 - hdrSize, false⟩] := by
  obtain ⟨fuel, h', hk, _⟩ := kmalloc_first (n := 24) (by decide) (by decide) fun _ => 0
  obtain ⟨_, hundo⟩ := kfree_undoes_kmalloc (n := 24) (repr_kmallocInit fun _ => 0) (List.isChain_singleton _)
    (by decide) (by decide)
  refine ⟨fuel, _, h', hk, by decide, ?_⟩
  rcases (hundo _ _ _ hk (by decide)).1 with ⟨_, _, hr⟩ | ⟨_, _, _, hno, _⟩
  · exact hr
  · exact absurd (show Fits (alignUp 24 8) ⟨pageSize * 4 - hdrSize, false⟩ by decide +kernel) (hno _ (by simp))

/-! ## 3. `krealloc` -/

/-- A block that has to move: `kmalloc`, copy, `kfree`. -/
theorem krealloc_moves {g : Heap} {fuel np : Nat} (hh : Holds h cs live) (hp : ptr ∈ live) (h0 : 0 < size)
    (hs : size ≤ kernelHeapSize) (hlt : h.size (sub32 ptr hdrSize) < size) (hk : kmalloc fuel h size = some (np, g))
    (hnp : np ≠ 0) :
    let h' := kfree { g with mem := copy g.mem np ptr (g.size (sub32 ptr hdrSize)) } ptr
    size ≤ h'.size (sub32 np hdrSize) ∧ (∀ i, i < h.size (sub32 ptr hdrSize) → h'.mem (np + i) = h.mem (ptr + i)) ∧
      ∀ r ∈ live, r ≠ ptr → SameBlock h h' r := by
  obtain ⟨e1, _, _, e4, e5, _⟩ := consts
  intro h'
  obtain ⟨ha1, _, _⟩ := @alignUp_eight size (by omega)
  obtain ⟨cs', hsv, hr, hin⟩ := kmalloc_served hh.repr h0 hs hk
  have hptr := (hh.live ptr).mp hp
  have hkeep : ∀ r ∈ live, SameBlock h g r := fun r hr' => kmalloc_same hh.repr hsv hr hin ((hh.live r).mp hr')
  have hnew : np ∉ live := fun hl => hsv.fresh ((hh.live np).mp hl)
  have hne : ptr ≠ np := fun e => hnew (e ▸ hp)
  have hin' : ∀ r ∈ live, r ∈ usedAt hdrSize kernelHeapStart cs' := fun r hr' => hsv.mem_usedAt ((hh.live r).mp hr')
  obtain ⟨xs, d, ys, rfl, hd, hsz, hnpe⟩ := hsv.used hnp
  -- the copy stays inside the new block
  have hcopy : ∀ x, x < kernelHeapStart + span hdrSize xs + hdrSize ∨
      kernelHeapStart + span hdrSize xs + hdrSize + d.size ≤ x →
      copy g.mem np ptr (g.size (sub32 ptr hdrSize)) x = g.mem x := fun x hx =>
    copy_of_ne _ _ _ _ (by rw [(hkeep ptr hp).size]; omega)
  have hrc := repr_payload hr hcopy
  have hpay : ∀ r ∈ live, SameBlock g { g with mem := copy g.mem np ptr (g.size (sub32 ptr hdrSize)) } r :=
    fun r hr' => payload_same hr hcopy (hin' r hr') fun e => hnew (hnpe.trans e.symm ▸ hr')
  -- the old block is another one
  obtain ⟨us, c, vs, he, hc, hpe⟩ := usedAt_split hdrSize (hin' ptr hp)
  have hfree : ∀ r ∈ usedAt hdrSize kernelHeapStart (xs ++ d :: ys), r ≠ ptr →
      SameBlock { g with mem := copy g.mem np ptr (g.size (sub32 ptr hdrSize)) } h' r := fun r hr' hrp => by
    have hsame := kfree_same (he ▸ hrc) hc (he ▸ hr') (hpe ▸ hrp)
    rw [← hpe] at hsame
    exact hsame
  have hnpu : np ∈ usedAt hdrSize kernelHeapStart (xs ++ d :: ys) := by
    rw [usedAt_append, usedAt_cons, hd, hnpe]
    simp
  have hmoved := hfree np hnpu hne.symm
  obtain ⟨hnb, _, hns⟩ := hrc.header
  rw [← hnpe] at hnb
  refine ⟨?_, fun i hi => ?_, fun r hr' hrp => ?_⟩
  · rw [hmoved.size, hnb, hns]
    omega
  · rw [hmoved.bytes i ?_]
    · show copy g.mem np ptr (g.size (sub32 ptr hdrSize)) (np + i) = h.mem (ptr + i)
      rw [(hkeep ptr hp).size, copy, if_pos (by omega), Nat.add_sub_cancel_left, (hkeep ptr hp).bytes i hi]
    · rw [hnb, hns]
      omega
  · exact ((hkeep r hr').trans (hpay r hr')).trans (hfree r (hin' r hr') hrp)

/-- **`krealloc` preserves contents.** -/
theorem krealloc_preserves {h : Heap} {live : List Nat} {ptr size : Nat} (hi : HeapInv ⟨h, live⟩) (hp : ptr ∈ live)
    (h0 : 0 < size) (hs : size ≤ kernelHeapSize) :
    (∃ fuel q h', krealloc fuel h ptr size = some (q, h')) ∧
    ∀ fuel q h', krealloc fuel h ptr size = some (q, h') →
      (q ≠ 0 → HeapInv ⟨h', q :: lose ptr live⟩ ∧ size ≤ h'.size (sub32 q hdrSize) ∧
        ∀ i, i < min (h.size (sub32 ptr hdrSize)) size → h'.mem (q + i) = h.mem (ptr + i)) ∧
      (q = 0 → HeapInv ⟨h', live⟩ ∧ SameBlock h h' ptr) ∧
      ∀ r ∈ live, r ≠ ptr → SameBlock h h' r := by
  obtain ⟨cs, hh⟩ : ∃ cs, Holds h cs live := hi
  have hptr0 : ptr ≠ 0 := fun e => zero_notMem_live hh (e ▸ hp)
  refine ⟨?_, fun fuel q h' hk => ?_⟩
  · obtain ⟨s', _, fuel, hx⟩ := exec_returns (s := ⟨h, live⟩) ⟨cs, hh⟩ (c := .krealloc ptr size) ⟨hs, .inr hp⟩
    obtain ⟨⟨q, h'⟩, hk, _⟩ := Option.map_eq_some_iff.mp hx
    exact ⟨fuel, q, h', hk⟩
  · have hinv := heapInv_krealloc hh hs (.inr hp) hk
    have hlive : q ≠ 0 → HeapInv ⟨h', q :: lose ptr live⟩ := fun hq => by
      rwa [if_neg (by simp [hptr0, hq]), gain, if_neg hq] at hinv
    have hlive0 : q = 0 → HeapInv ⟨h', live⟩ := fun hq => by
      rwa [if_pos (.inr ⟨by omega, hq⟩), gain, if_pos hq] at hinv
    simp only [krealloc, if_neg hptr0, if_neg (show size ≠ 0 by omega)] at hk
    split at hk
    · -- the block is large enough
      cases hk
      rename_i hge
      exact ⟨fun hq => ⟨hlive hq, hge, fun _ _ => rfl⟩, fun hq => absurd hq hptr0, fun r _ _ => SameBlock.refl _ _⟩
    · rename_i hlt
      split at hk
      · cases hk
      · rename_i np g hm
        split at hk
        · rename_i hnp
          cases hk
          obtain ⟨h1, h2, h3⟩ := krealloc_moves hh hp h0 hs (by omega) hm hnp
          exact ⟨fun hq => ⟨hlive hq, h1, fun i hi => h2 i (by omega)⟩, fun hq => absurd hq hnp, h3⟩
        · rename_i hnp
          cases hk
          obtain ⟨cs', hsv, hr, hin⟩ := kmalloc_served hh.repr h0 hs hm
          have hsame : ∀ r ∈ live, SameBlock h h' r := fun r hr' =>
            kmalloc_same hh.repr hsv hr hin ((hh.live r).mp hr')
          exact ⟨fun hq => absurd hq hnp, fun hq => ⟨hlive0 hq, hsame ptr hp⟩, fun r hr' _ => hsame r hr'⟩

/-- A block of 24 bytes grown to 100. -/
theorem krealloc_preserves_first :
    ∃ h fuel q h', HeapInv ⟨h, [kernelHeapStart + hdrSize]⟩ ∧
      krealloc fuel h (kernelHeapStart + hdrSize) 100 = some (q, h') ∧
      (q ≠ 0 → HeapInv ⟨h', q :: lose (kernelHeapStart + hdrSize) [kernelHeapStart + hdrSize]⟩) ∧
      (q = 0 → SameBlock h h' (kernelHeapStart + hdrSize)) := by
  obtain ⟨_, h, _, hi⟩ := kmalloc_first (n := 24) (by decide) (by decide) fun _ => 0
  obtain ⟨⟨fuel, q, h', hk⟩, hall⟩ := krealloc_preserves hi (List.mem_singleton_self _)
    (show 0 < 100 by decide) (by decide)
  obtain ⟨h1, h2, _⟩ := hall fuel q h' hk
  exact ⟨h, fuel, q, h', hi, hk, fun hq => (h1 hq).1, fun hq => (h2 hq).2⟩

end OreUnix.Kmalloc
