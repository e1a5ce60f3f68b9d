/-
  Subject: REQUESTS BEYOND THE HEAP WINDOW: what the 32-bit arithmetic of mm/kmalloc.c makes of them.

  `kmalloc` rounds the size to 8, adds the header, rounds to 16 KB and adds `heap_cur`, each time modulo 2^32.

  * `Refused` -- the answer such a request should get: NULL, and nothing has happened;
  * `Refusable` -- the condition under which it gets it: no sum wraps, or it wraps to a request for 16 KB for which
    there is no room either;
  * `kmalloc_busy` -- otherwise the call returns a block or has moved `heap_cur`;
  * `oversized_refused_iff` -- the same for `krealloc`, and for `kcalloc` with the product modulo 2^32.
-/
import OreUnix.Mm.KmallocContents

namespace OreUnix.Kmalloc

open ByteMem FreeList

/-! ## 1. The request and its answer -/

/-- The next multiple of `a`, in unbounded arithmetic. -/
def roundUp (x a : Nat) : Nat := (x + a - 1) / a * a

/-- What the heap would have to grow by for a block of `n` bytes. -/
def grossSize (n : Nat) : Nat := roundUp (roundUp n 8 + hdrSize) (pageSize * 4)

/-- The call returns NULL with the block list, `heap_cur` and all allocations as they were. -/
def Refused (h : Heap) (cs : List Cell) (call : Nat → Option (Nat × Heap)) : Prop :=
  ∃ fuel h', call fuel = some (0, h') ∧ h'.heapCur = h.heapCur ∧ Repr h' cs ∧
    ∀ q ∈ usedAt hdrSize kernelHeapStart cs, SameBlock h h' q

/-- A request of `n` bytes that is refused: 0; one for which no free block is large enough and the heap would grow
    beyond its end, in sums below 2^32; or one so close to 2^32 that the sums come to 16 KB, for which there is no
    room (and, where already the rounded size is 0, no free block at all). -/
def Refusable (h : Heap) (cs : List Cell) (n : Nat) : Prop :=
  n = 0 ∨
    ((∀ c ∈ cs, c.used = false → c.size < roundUp n 8) ∧ h.heapEnd < h.heapCur + grossSize n ∧
      h.heapCur + grossSize n < 2 ^ 32) ∨
    (2 ^ 32 - 16 < n ∧ h.heapEnd < h.heapCur + pageSize * 4 ∧ (2 ^ 32 - 8 < n → ∀ c ∈ cs, c.used = true))

section Outcome

variable {h : Heap} {cs : List Cell} {size need ext fuel : Nat}

/-! ## 2. What `kmalloc` does with any 32-bit size -/

theorem Repr.size_le (hr : Repr h cs) {c : Cell} (hc : c ∈ cs) : c.size ≤ kernelHeapSize := by
  obtain ⟨xs, ys, rfl⟩ := List.append_of_mem hc
  obtain ⟨_, _, _, hb⟩ := hr.split
  omega

theorem Repr.cur_bounds (hr : Repr h cs) : 3489660928 ≤ h.heapCur ∧ h.heapCur ≤ 3556769792 ∧
    h.heapEnd = 3556769792 := by
  obtain ⟨_, _, _, e4, e5, _⟩ := consts
  have h1 := hr.cur
  have h2 := hr.curLe
  have h3 := hr.ends
  omega

theorem fit_eq_none {cs : List Cell} : fit need cs = none ↔ ∀ c ∈ cs, ¬ Fits need c := by
  refine ⟨fit_none, fun h => ?_⟩
  cases hf : fit need cs with
  | none => rfl
  | some r =>
    obtain ⟨xs, c, ys⟩ := r
    obtain ⟨rfl, hc, _⟩ := fit_some hf
    exact absurd hc (h c (by simp))

theorem heapSbrk_any (h : Heap) (h4 : 16384 ∣ ext) (hlt : ext < 2 ^ 32) :
    heapSbrk h ext = if h.heapEnd < u32 (h.heapCur + ext) then (0, h)
      else (h.heapCur, { h with heapCur := u32 (h.heapCur + ext) }) := by
  obtain ⟨_, _, e3, _⟩ := consts
  have ha : alignUp ext pageSize = ext := by
    rw [alignUp, e3, u32_of_lt (by omega)]
    omega
  rw [heapSbrk]
  simp only [ha]

/-- A request that only an appended block fits: whatever its size field holds. -/
theorem kmalloc_appended {m : Mem} {cur sz : Nat} (hr : Repr h cs)
    (hs : Seg m 0 kernelHeapStart (cs ++ [⟨sz, false⟩]) 0) (h8 : 8 ∣ need) (h0 : 0 < need) (hlt : need < 2 ^ 32)
    (hfit : fit need cs = none) (hsz : need ≤ sz) (hf : cs.length + 1 < fuel) :
    ∃ h', kmalloc (fuel + 1) { h with mem := m, heapCur := cur } need = some (h.heapCur + hdrSize, h') := by
  obtain ⟨e1, _, _, e4, _⟩ := consts
  obtain ⟨_, hcur, _⟩ := hr.cur_bounds
  have hn8 : alignUp need 8 = need := by rw [alignUp, u32_of_lt (by omega)]; omega
  have hfirst := @firstFit_eq { h with mem := m, heapCur := cur } 0 kernelHeapStart need fuel _ hs (by decide)
    (by simpa using hf)
  rw [if_neg (by simp), @fit_append need ⟨sz, false⟩ cs [] (fit_none hfit) ⟨rfl, hsz⟩] at hfirst
  simp only at hfirst
  rw [← hr.cur, ← hr.start] at hfirst
  rw [kmalloc, if_neg (by omega)]
  simp only [hn8, hfirst]
  rw [if_pos (show h.heapCur ≠ 0 by rw [hr.cur]; omega), takeBlock, u32_of_lt (by omega)]
  exact ⟨_, rfl⟩

/-- A request of 2^32 - 8 bytes asks for 16 KB again and again, until the window is full. -/
theorem kmalloc_exhausts (k : Nat) : ∀ {h : Heap} {cs : List Cell}, Repr h cs →
    kernelHeapSize ≤ span hdrSize cs + k * 16384 →
    ∃ fuel g, kmalloc fuel h (2 ^ 32 - 8) = some (0, g) ∧ h.heapCur ≤ g.heapCur := by
  obtain ⟨e1, _, e3, e4, e5, _⟩ := consts
  have hneed : alignUp (2 ^ 32 - 8) 8 = 2 ^ 32 - 8 := by decide
  have hext : alignUp (u32 (2 ^ 32 - 8 + hdrSize)) (pageSize * 4) = 16384 := by decide
  have hnofit : ∀ {h : Heap} {cs : List Cell}, Repr h cs → fit (alignUp (2 ^ 32 - 8) 8) cs = none := fun hr =>
    fit_eq_none.mpr fun c hc hfits => by
      have h1 := hr.size_le hc
      have h2 := hfits.2
      rw [hneed] at h2
      omega
  have hsbrk : ∀ {h : Heap} {cs : List Cell}, Repr h cs → heapSbrk h 16384 =
      if span hdrSize cs + 16384 ≤ kernelHeapSize then (h.heapCur, { h with heapCur := h.heapCur + 16384 })
      else (0, h) := fun hr => heapSbrk_eq hr (by decide) (by decide)
  have hfull : ∀ {h : Heap} {cs : List Cell}, Repr h cs → ¬ span hdrSize cs + 16384 ≤ kernelHeapSize →
      ∃ fuel g, kmalloc fuel h (2 ^ 32 - 8) = some (0, g) ∧ h.heapCur ≤ g.heapCur := fun hr hno =>
    ⟨_, _, kmalloc_full hr (by decide) (hnofit hr) (Nat.lt_succ_self _)
      (by rw [hneed, hext, hsbrk hr, if_neg hno]), le_rfl⟩
  induction k with
  | zero =>
    intro h cs hr hk
    exact hfull hr (by omega)
  | succ k ih =>
    intro h cs hr hk
    by_cases hroom : span hdrSize cs + 16384 ≤ kernelHeapSize
    · obtain ⟨h1, ha, hr1, _⟩ := repr_grow hr (show hdrSize ≤ 16384 by decide) hroom le_rfl
      obtain ⟨fuel, g, hg, hle⟩ := ih hr1 (by simp only [span_append, span_cons, span_nil]; omega)
      have hcur1 := hr1.cur
      have hcur := hr.cur
      simp only [span_append, span_cons, span_nil] at hcur1
      refine ⟨cs.length + (fuel + 1) + 1, g, ?_, by omega⟩
      rw [kmalloc_retry hr (by decide) (hnofit hr) (by omega) (by rw [hneed, hext]) (by rw [hsbrk hr, if_pos hroom])
        (by omega) (appendBlock_add ha (fuel + 1)), hneed]
      have := kmalloc_add hg (cs.length + 1)
      rwa [show fuel + (cs.length + 1) = cs.length + (fuel + 1) by omega] at this
    · exact hfull hr hroom

/-- What the heap is asked to grow by. -/
def growth (size : Nat) : Nat := alignUp (u32 (alignUp size 8 + hdrSize)) (pageSize * 4)

theorem alignUp_eight_eq (size : Nat) : alignUp size 8 = u32 (size + 7) / 8 * 8 := by
  rw [alignUp, show size + 8 - 1 = size + 7 by omega]

theorem growth_eq (size : Nat) :
    growth size = ((u32 (size + 7) / 8 * 8 + 16) % 2 ^ 32 + 16383) % 2 ^ 32 / 16384 * 16384 := by
  obtain ⟨e1, _, e3, _⟩ := consts
  rw [growth, alignUp_eight_eq, alignUp, e1, e3]
  unfold u32
  omega

/-- No block fits and the heap does not grow. -/
def Idle (h : Heap) (cs : List Cell) (size : Nat) : Prop :=
  fit (alignUp size 8) cs = none ∧ h.heapEnd < u32 (h.heapCur + growth size)

theorem kmalloc_idle (hr : Repr h cs) (h0 : 0 < size) (hi : Idle h cs size) :
    kmalloc (cs.length + 2) h size = some (0, h) := by
  have hg := growth_eq size
  refine kmalloc_full hr h0 hi.1 (Nat.lt_succ_self _) ?_
  show heapSbrk h (growth size) = (0, h)
  rw [heapSbrk_any h (by omega) (by omega), if_pos hi.2]

/-- **Otherwise something happens**: a block is returned, or `heap_cur` has moved. -/
theorem kmalloc_busy (hr : Repr h cs) (h0 : 0 < size) (hi : ¬ Idle h cs size) :
    ∃ fuel p h', kmalloc fuel h size = some (p, h') ∧ (p ≠ 0 ∨ h'.heapCur ≠ h.heapCur) := by
  obtain ⟨e1, _, e3, e4, e5, _⟩ := consts
  obtain ⟨hc1, hc2, hc3⟩ := hr.cur_bounds
  have hcur := hr.cur
  have hg := growth_eq size
  cases hfit : fit (alignUp size 8) cs with
  | some r =>
    obtain ⟨xs, c, ys⟩ := r
    obtain ⟨h', hk, _⟩ := kmalloc_found hr h0 hfit le_rfl
    exact ⟨_, _, h', hk, .inl (by omega)⟩
  | none =>
    have hgrows : ¬ h.heapEnd < u32 (h.heapCur + growth size) := fun h => hi ⟨hfit, h⟩
    have hsb := @heapSbrk_any (growth size) h (by omega) (by omega)
    rw [if_neg hgrows] at hsb
    obtain ⟨m, ha, hs, _⟩ := @appendBlock_seg h cs (growth size) (u32 (h.heapCur + growth size)) (cs.length + 3) hr
      (by omega)
    have hretry := kmalloc_retry hr h0 hfit (show cs.length < cs.length + 3 by omega) rfl hsb (by omega) ha
    have hneed := alignUp_eight_eq size
    rw [hneed] at hretry hfit
    obtain ⟨need, hn⟩ : ∃ need, need = u32 (size + 7) / 8 * 8 := ⟨_, rfl⟩
    have hlt' := u32_lt (size + 7)
    rw [← hn] at hretry hfit hg
    by_cases hz : need = 0
    · -- the rounded size is 0: the heap grows, and NULL is returned
      refine ⟨_, 0, _, hretry.trans (by rw [hz, kmalloc, if_pos rfl]), .inr ?_⟩
      show u32 (h.heapCur + growth size) ≠ h.heapCur
      unfold u32
      omega
    by_cases hbig : need ≤ sub32 (growth size) hdrSize
    · obtain ⟨h', hk⟩ := kmalloc_appended hr hs (by omega) (by omega) (by omega) hfit hbig
        (show cs.length + 1 < cs.length + 2 by omega)
      exact ⟨_, _, h', hretry.trans hk, .inl (by omega)⟩
    · -- 16 KB for a request of 2^32 - 8 bytes
      have hmax : need = 2 ^ 32 - 8 := by
        unfold sub32 at hbig
        omega
      have hroom : growth size = 16384 := by omega
      have hroom' : span hdrSize cs + 16384 ≤ kernelHeapSize := by
        rw [hroom, u32_of_lt (by omega)] at hgrows
        omega
      obtain ⟨h1, ha1, hr1, _⟩ := repr_grow hr (show hdrSize ≤ 16384 by decide) hroom' le_rfl
      obtain ⟨fuel, g, hk, hle⟩ := kmalloc_exhausts (kernelHeapSize / 16384) hr1 (by omega)
      have hsb1 : heapSbrk h (growth size) = (h.heapCur, { h with heapCur := h.heapCur + 16384 }) := by
        rw [hsb, hroom, u32_of_lt (by omega)]
      have hfit1 : fit (alignUp size 8) cs = none := by rw [hneed, ← hn]; exact hfit
      have hretry1 := kmalloc_retry hr h0 hfit1 (show cs.length < cs.length + (fuel + 1) by omega) rfl hsb1 (by omega)
        (by rw [← growth, hroom]; exact appendBlock_add ha1 (fuel + 1))
      rw [hneed, ← hn, hmax] at hretry1
      have hk' := kmalloc_add hk (cs.length + 1)
      rw [show fuel + (cs.length + 1) = cs.length + (fuel + 1) by omega] at hk'
      have hcur1 := hr1.cur
      simp only [span_append, span_cons, span_nil] at hcur1
      exact ⟨_, 0, g, hretry1.trans hk', .inr (by omega)⟩

theorem idle_iff (hr : Repr h cs) (h0 : 0 < size) (hlt : size < 2 ^ 32) : Idle h cs size ↔ Refusable h cs size := by
  obtain ⟨e1, _, e3, e4, e5, _⟩ := consts
  obtain ⟨hc1, hc2, hc3⟩ := hr.cur_bounds
  have hg := growth_eq size
  have hgross : grossSize size = ((size + 7) / 8 * 8 + 16 + 16383) / 16384 * 16384 := by
    unfold grossSize roundUp
    rw [e1, e3]
    omega
  unfold Idle Refusable
  rw [fit_eq_none, hc3, e3, alignUp_eight_eq, roundUp, show size + 8 - 1 = size + 7 by omega]
  have hsize : ∀ c ∈ cs, c.size ≤ 67108864 := fun c hc => by rw [← e5]; exact hr.size_le hc
  unfold u32 at hg ⊢
  by_cases hhigh : 2 ^ 32 - 8 < size
  · -- the rounded size is 0
    have hzero : (size + 7) % 2 ^ 32 / 8 * 8 = 0 := by omega
    rw [hzero] at hg ⊢
    have hfree : (∀ c ∈ cs, ¬ Fits 0 c) ↔ ∀ c ∈ cs, c.used = true := forall₂_congr fun c _ => by simp [Fits]
    rw [hfree]
    constructor
    · rintro ⟨h1, h2⟩
      exact .inr (.inr ⟨by omega, by omega, fun _ => h1⟩)
    · rintro (h | ⟨_, _, h⟩ | ⟨_, h1, h2⟩)
      · omega
      · omega
      · exact ⟨h2 hhigh, by omega⟩
  · have hneed : (size + 7) % 2 ^ 32 / 8 * 8 = (size + 7) / 8 * 8 := by omega
    rw [hneed] at hg ⊢
    have hfree : (∀ c ∈ cs, ¬ Fits ((size + 7) / 8 * 8) c) ↔ ∀ c ∈ cs, c.used = false → c.size < (size + 7) / 8 * 8 :=
      forall₂_congr fun c _ => by simp [Fits]
    rw [hfree]
    constructor
    · rintro ⟨h1, h2⟩
      by_cases hwrap : 2 ^ 32 - 16 < size
      · exact .inr (.inr ⟨hwrap, by omega, fun h => absurd h hhigh⟩)
      · exact .inr (.inl ⟨h1, by omega, by omega⟩)
    · rintro (h | ⟨h1, h2, h3⟩ | ⟨h1, h2, _⟩)
      · omega
      · exact ⟨h1, by omega⟩
      · refine ⟨fun c hc _ => ?_, by omega⟩
        have := hsize c hc
        omega

/-! ## 3. The three calls -/

theorem kmalloc_unique {f f' : Nat} {r r' : Nat × Heap} (h1 : kmalloc f h size = some r)
    (h2 : kmalloc f' h size = some r') : r = r' := by
  have e1 := kmalloc_add h1 f'
  have e2 := kmalloc_add h2 f
  rw [Nat.add_comm] at e2
  exact Option.some.inj (e1.symm.trans e2)

theorem kmalloc_refused_iff (hr : Repr h cs) (hlt : size < 2 ^ 32) :
    Refused h cs (kmalloc · h size) ↔ Refusable h cs size := by
  have hsame : ∀ fuel, kmalloc fuel h size = some (0, h) → Refused h cs (kmalloc · h size) := fun fuel hk =>
    ⟨fuel, h, hk, rfl, hr, fun q _ => SameBlock.refl h q⟩
  by_cases h0 : size = 0
  · exact iff_of_true (hsame 1 (by rw [kmalloc, if_pos h0])) (.inl h0)
  · rw [← idle_iff hr (by omega) hlt]
    refine ⟨fun href => ?_, fun hi => hsame _ (kmalloc_idle hr (by omega) hi)⟩
    by_contra hi
    obtain ⟨f, g, hk, hcur, _⟩ := href
    obtain ⟨f', p, g', hk', hbusy⟩ := kmalloc_busy hr (by omega) hi
    cases kmalloc_unique hk hk'
    exact hbusy.elim (fun hp => hp rfl) fun hc => hc hcur

theorem Refused.congr {call call' : Nat → Option (Nat × Heap)}
    (h : ∀ fuel h', call fuel = some (0, h') ↔ call' fuel = some (0, h')) {g : Heap} {cs : List Cell} :
    Refused g cs call ↔ Refused g cs call' :=
  exists_congr fun fuel => exists_congr fun h' => and_congr_left' (h fuel h')

/-- Where the block has to grow, `krealloc` returns NULL when `kmalloc` does. -/
theorem krealloc_null {ptr : Nat} (hp : ptr = 0 ∨ h.size (sub32 ptr hdrSize) < size) (h0 : 0 < size) (fuel : Nat)
    (h' : Heap) : krealloc fuel h ptr size = some (0, h') ↔ kmalloc fuel h size = some (0, h') := by
  rcases Decidable.em (ptr = 0) with hz | hz
  · rw [krealloc, if_pos hz]
  · have hlt := hp.resolve_left hz
    rw [krealloc, if_neg hz, if_neg (by omega)]
    simp only
    rw [if_neg (by omega)]
    cases kmalloc fuel h size with
    | none => simp
    | some r =>
      by_cases hr : r.1 = 0
      · simp [hr, Prod.ext_iff]
      · simp [hr, Prod.ext_iff]

theorem kcalloc_null (fuel : Nat) (h : Heap) (nmemb size : Nat) (h' : Heap) :
    kcalloc fuel h nmemb size = some (0, h') ↔ kmalloc fuel h (u32 (nmemb * size)) = some (0, h') := by
  rw [kcalloc]
  cases kmalloc fuel h (u32 (nmemb * size)) with
  | none => simp
  | some r =>
    by_cases hr : r.1 = 0
    · simp [hr, Prod.ext_iff]
    · simp [hr, Prod.ext_iff]

end Outcome

/-- **Requests beyond the heap window are refused exactly if they are `Refusable`.** -/
theorem oversized_refused_iff {h : Heap} {cs : List Cell} (hr : Repr h cs) :
    (∀ size, kernelHeapSize < size → size < 2 ^ 32 →
      (Refused h cs (kmalloc · h size) ↔ Refusable h cs size)) ∧
    (∀ ptr size, ptr = 0 ∨ ptr ∈ usedAt hdrSize kernelHeapStart cs → kernelHeapSize < size → size < 2 ^ 32 →
      (Refused h cs (krealloc · h ptr size) ↔ Refusable h cs size)) ∧
    ∀ nmemb size, kernelHeapSize < nmemb * size →
      (Refused h cs (kcalloc · h nmemb size) ↔ Refusable h cs (nmemb * size % 2 ^ 32)) := by
  refine ⟨fun size _ hlt => kmalloc_refused_iff hr hlt, fun ptr size hp hbig hlt => ?_, fun nmemb size _ => ?_⟩
  · rw [← kmalloc_refused_iff hr hlt]
    refine Refused.congr (krealloc_null (hp.imp_right fun hu => ?_) (by omega))
    obtain ⟨us, d, vs, rfl, _, rfl⟩ := usedAt_split hdrSize hu
    obtain ⟨hb, _, hs⟩ := hr.header
    have hle := hr.size_le (c := d) (by simp)
    rw [hb, hs]
    omega
  · rw [← kmalloc_refused_iff hr (Nat.mod_lt _ (by decide))]
    exact Refused.congr fun fuel h' => kcalloc_null fuel h nmemb size h'

/-- One byte more than the window, on the fresh heap. -/
theorem oversized_refused_window :
    Refused (kmallocInit fun _ => 0) [⟨pageSize * 4 - hdrSize, false⟩]
      (kmalloc · (kmallocInit fun _ => 0) (kernelHeapSize + 1)) := by
  have hr := repr_kmallocInit fun _ => 0
  obtain ⟨hc1, hc2, hc3⟩ := hr.cur_bounds
  refine ((oversized_refused_iff hr).1 (kernelHeapSize + 1) (by decide) (by decide)).mpr (.inr (.inl ⟨?_, ?_, ?_⟩))
  · intro c hc _
    rw [List.mem_singleton] at hc
    rw [hc]
    decide +kernel
  · rw [hc3, show grossSize (kernelHeapSize + 1) = 67125248 by decide +kernel]
    omega
  · rw [show grossSize (kernelHeapSize + 1) = 67125248 by decide +kernel]
    omega

/-- **A request of 2^32 - 1 bytes** gets a block of none. -/
theorem huge_request_served :
    ∃ fuel h', kmalloc fuel (kmallocInit fun _ => 0) 0xFFFFFFFF = some (kernelHeapStart + hdrSize, h') ∧
      h'.size kernelHeapStart = 0 := by
  have hfits : Fits (alignUp 0xFFFFFFFF 8) ⟨pageSize * 4 - hdrSize, false⟩ := by decide +kernel
  obtain ⟨h', hk, hr, _⟩ := kmalloc_found (repr_kmallocInit fun _ => 0) (show 0 < 0xFFFFFFFF by decide)
    (show fit _ _ = some ([], _, []) by rw [fit, if_pos hfits]) le_rfl
  refine ⟨_, h', hk, ?_⟩
  have hcarve : carve hdrSize minAlloc (alignUp 0xFFFFFFFF 8) ⟨pageSize * 4 - hdrSize, false⟩ =
      [⟨0, true⟩, ⟨16352, false⟩] := by decide +kernel
  rw [hcarve] at hr
  exact hr.seg.1.size

end OreUnix.Kmalloc
