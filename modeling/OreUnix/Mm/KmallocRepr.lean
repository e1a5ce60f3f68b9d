/-
  Subject: THE HEAP IN MEMORY REPRESENTS A TILING: every operation of mm/kmalloc.c, started on a heap that represents
  a list of cells, ends on a heap that represents the list Lib/FreeList.lean says.

  * `Seg m p a cs n` -- the cells `cs` stand in memory one after the other from `a` on: each header holds its magic,
    its size, the address of the header before it (`p` for the first) and of the one after it (`n` for the last);
  * `Repr h cs` -- the whole list, from `KERNEL_HEAP_START` to `heap_cur`;
  * `repr_takeBlock`, `repr_grow`, `repr_kfree` -- one lemma for each way the list changes.

  A header is rewritten in place, so each proof splits the list at the block concerned (`seg_append`), transports the
  two outer segments along the frame (`Seg.agree`) and, where a neighbour's link changes, uses `seg_setPrev` on the
  segment after the block or `seg_setNext` on the segment before it.
-/
import OreUnix.Mm.Kmalloc
import OreUnix.Lib.FreeList

namespace OreUnix.Kmalloc

open ByteMem FreeList

variable {a b ext fuel n need p' x : Nat} {c : Cell} {cs xs ys : List Cell} {h : Heap} {m m' : Mem}

/-! ## 1. Segments -/

/-- The magic a cell's header carries. -/
def tag (c : Cell) : Nat := if c.used then magicUsed else magicFree

theorem tag_lt (c : Cell) : tag c < 2 ^ 32 := by
  unfold tag; split <;> decide

theorem tag_free : tag c = magicFree ↔ c.used = false := by
  unfold tag; cases c.used <;> decide

theorem tag_used : tag c = magicUsed ↔ c.used = true := by
  unfold tag; cases c.used <;> decide

/-- The header at `a` describes the cell `c`, linked to `p` and `n`. -/
structure HdrAt (m : Mem) (a : Nat) (c : Cell) (p n : Nat) : Prop where
  magic : word m a = tag c
  size : word m (a + 4) = c.size
  next : word m (a + 8) = n
  prev : word m (a + 12) = p

/-- The cells `cs` in memory from `a` on, entered from `p` and left to `n`. -/
def Seg (m : Mem) : Nat → Nat → List Cell → Nat → Prop
  | _, _, [], _ => True
  | p, a, c :: cs, n =>
    HdrAt m a c p (if cs = [] then n else a + hdrSize + c.size) ∧ Seg m a (a + hdrSize + c.size) cs n

theorem seg_cons (m : Mem) (p a n : Nat) (c : Cell) (cs : List Cell) : Seg m p a (c :: cs) n ↔
      HdrAt m a c p (if cs = [] then n else a + hdrSize + c.size) ∧ Seg m a (a + hdrSize + c.size) cs n := Iff.rfl

/-- The address of the last of the cells `cs` from `a` on (`p` when there is none). -/
def lastOf : Nat → Nat → List Cell → Nat
  | p, _, [] => p
  | _, a, c :: cs => lastOf a (a + hdrSize + c.size) cs

theorem lastOf_concat (p a : Nat) (xs : List Cell) (c : Cell) : lastOf p a (xs ++ [c]) = a + span hdrSize xs := by
  induction xs generalizing p a with
  | nil => simp [lastOf]
  | cons d ds ih =>
    simp only [List.cons_append, lastOf, ih, span_cons]
    omega

/-- **A segment splits at any of its cells.** -/
theorem seg_append (m : Mem) (p a n : Nat) (xs : List Cell) (y : Cell) (ys : List Cell) :
    Seg m p a (xs ++ y :: ys) n ↔ Seg m p a xs (a + span hdrSize xs) ∧
        Seg m (lastOf p a xs) (a + span hdrSize xs) (y :: ys) n := by
  induction xs generalizing p a with
  | nil => simp [Seg, lastOf]
  | cons c cs ih =>
    have e : a + hdrSize + c.size + span hdrSize cs = a + (hdrSize + c.size + span hdrSize cs) := by
      omega
    rw [List.cons_append, seg_cons m p a n c, ih, seg_cons m p a _ c cs, lastOf, span_cons, e, and_assoc]
    have hn : (if cs ++ y :: ys = [] then n else a + hdrSize + c.size) =
        if cs = [] then a + (hdrSize + c.size + span hdrSize cs) else a + hdrSize + c.size := by
      cases cs with
      | nil => simp; omega
      | cons d ds => simp
    rw [hn]

variable {p : Nat}

/-- A segment reads its own bytes only. -/
theorem Seg.agree (h : Seg m p a cs n) (hm : AgreeOn m m' a (a + span hdrSize cs)) : Seg m' p a cs n := by
  induction cs generalizing p a with
  | nil => trivial
  | cons c cs ih =>
    obtain ⟨⟨h1, h2, h3, h4⟩, hs⟩ := h
    simp only [span_cons, hdrSize] at hm
    refine ⟨⟨?_, ?_, ?_, ?_⟩, ih hs (hm.mono (by simp only [hdrSize]; omega) ?_)⟩
    · rw [hm.word (by omega) (by omega), h1]
    · rw [hm.word (by omega) (by omega), h2]
    · rw [hm.word (by omega) (by omega), h3]
    · rw [hm.word (by omega) (by omega), h4]
    · simp only [hdrSize]; omega

/-- Relinking the first header of a segment to a new predecessor. -/
theorem seg_setPrev (h : Seg m p a (c :: cs) n) (h12 : AgreeOn m m' a (a + 12)) (hp : word m' (a + 12) = p')
    (hm : AgreeOn m m' (a + 16) (a + span hdrSize (c :: cs))) : Seg m' p' a (c :: cs) n := by
  obtain ⟨⟨h1, h2, h3, _⟩, hs⟩ := h
  simp only [span_cons, hdrSize] at hm
  refine ⟨⟨?_, ?_, ?_, hp⟩, hs.agree (hm.mono (by simp only [hdrSize]; omega) ?_)⟩
  · rw [h12.word (by omega) (by omega), h1]
  · rw [h12.word (by omega) (by omega), h2]
  · rw [h12.word (by omega) (by omega), h3]
  · simp only [hdrSize]; omega

/-- Relinking the last header of a segment to a new successor. -/
theorem seg_setNext {p n' : Nat} (h : Seg m p a (xs ++ [c]) n) (hm : AgreeOn m m' a (a + span hdrSize xs + 8))
    (hn : word m' (a + span hdrSize xs + 8) = n')
    (hp : AgreeOn m m' (a + span hdrSize xs + 12) (a + span hdrSize xs + 16)) :
    Seg m' p a (xs ++ [c]) n' := by
  rw [seg_append] at h ⊢
  obtain ⟨hx, ⟨h1, h2, _, h4⟩, _⟩ := h
  refine ⟨hx.agree (hm.mono (by omega) (by omega)), ⟨?_, ?_, hn, ?_⟩, trivial⟩
  · rw [hm.word (by omega) (by omega), h1]
  · rw [hm.word (by omega) (by omega), h2]
  · rw [hp.word (by omega) (by omega), h4]

theorem Seg.storeWord {p v : Nat} (hs : Seg m p a cs n) (hb : b + 4 ≤ a ∨ a + span hdrSize cs ≤ b) :
    Seg (storeWord m b v) p a cs n :=
  hs.agree (agreeOn_storeWord _ _ _ (by omega))

/-- The predecessor link of the segment behind a block, as `split_block` and `kfree` update it: `if (n) n->prev = p'`
    with `n` the block's successor. -/
theorem seg_setPrevOf (hs : Seg m p a ys 0) (hm : AgreeOn m h.mem a (a + span hdrSize ys)) (ha : a ≠ 0)
    (hp : p' < 2 ^ 32) :
    Seg (h.setPrevOf (if ys = [] then 0 else a) p').mem p' a ys 0 := by
  cases ys with
  | nil => trivial
  | cons y ys =>
    simp only [reduceCtorEq, ↓reduceIte, Heap.setPrevOf, if_neg ha]
    refine seg_setPrev (hs.agree hm) (agreeOn_storeWord _ _ _ (.inl le_rfl))
      (word_storeWord _ _ _ hp) (agreeOn_storeWord _ _ _ (.inr le_rfl))

theorem word_setPrevOf (h : Heap) (n v : Nat) (hb : n = 0 ∨ b + 4 ≤ n + 12 ∨ n + 16 ≤ b) :
    word (h.setPrevOf n v).mem b = word h.mem b := by
  unfold Heap.setPrevOf
  split
  · rfl
  · exact word_storeWord_of_disjoint _ _ _ (by omega)

theorem setPrevOf_of_ne (h : Heap) (n v : Nat) (hx : n = 0 ∨ x < n + 12 ∨ n + 16 ≤ x) :
    (h.setPrevOf n v).mem x = h.mem x := by
  unfold Heap.setPrevOf
  split
  · rfl
  · exact storeWord_of_ne _ _ _ (by omega)

theorem setPrevOf_eq (h : Heap) (n v : Nat) : h.setPrevOf n v = { h with mem := (h.setPrevOf n v).mem } := by
  unfold Heap.setPrevOf
  split <;> rfl

/-! ## 2. The heap -/

/-- The heap `h` represents the tiling `cs` of `KERNEL_HEAP_START ..< heap_cur`. -/
structure Repr (h : Heap) (cs : List Cell) : Prop where
  start : h.heapStart = kernelHeapStart
  seg : Seg h.mem 0 kernelHeapStart cs 0
  ne : cs ≠ []
  cur : h.heapCur = kernelHeapStart + span hdrSize cs
  curLe : h.heapCur ≤ h.heapEnd
  ends : h.heapEnd = kernelHeapStart + kernelHeapSize

/-- The parts of a represented heap around one of its blocks. -/
theorem Repr.split (hr : Repr h (xs ++ c :: ys)) :
    Seg h.mem 0 kernelHeapStart xs (kernelHeapStart + span hdrSize xs) ∧
    HdrAt h.mem (kernelHeapStart + span hdrSize xs) c (lastOf 0 kernelHeapStart xs)
      (if ys = [] then 0 else kernelHeapStart + span hdrSize xs + hdrSize + c.size) ∧
    Seg h.mem (kernelHeapStart + span hdrSize xs)
      (kernelHeapStart + span hdrSize xs + hdrSize + c.size) ys 0 ∧
    span hdrSize xs + hdrSize + c.size + span hdrSize ys ≤ kernelHeapSize := by
  obtain ⟨h1, h2, h3⟩ := (seg_append _ _ _ _ _ _ _).mp hr.seg
  refine ⟨h1, h2, h3, ?_⟩
  have hc := hr.cur
  have hl := hr.curLe
  have he := hr.ends
  simp only [span_append, span_cons] at hc
  omega

/-- A heap whose memory was rewritten to a tiling of the same span. -/
theorem Repr.of_mem {h' : Heap} {cs' : List Cell} (hr : Repr h cs) (e : h' = { h with mem := h'.mem })
    (hs : span hdrSize cs' = span hdrSize cs) (hne : cs' ≠ []) (hseg : Seg h'.mem 0 kernelHeapStart cs' 0) :
    Repr h' cs' := by
  rw [e]
  exact ⟨hr.start, hseg, hne, by rw [hs]; exact hr.cur, hr.curLe, hr.ends⟩

/-- Writes inside a payload leave the list alone. -/
theorem repr_payload (hr : Repr h (xs ++ c :: ys)) (hm : ∀ x, x < kernelHeapStart + span hdrSize xs + hdrSize ∨
      kernelHeapStart + span hdrSize xs + hdrSize + c.size ≤ x → m x = h.mem x) :
    Repr { h with mem := m } (xs ++ c :: ys) := by
  have e1 : hdrSize = 16 := rfl
  obtain ⟨hx, ⟨h1, h2, h3, h4⟩, hy, _⟩ := hr.split
  refine hr.of_mem rfl rfl hr.ne ?_
  rw [seg_append]
  refine ⟨hx.agree fun x _ _ => hm x (by omega), ⟨?_, ?_, ?_, ?_⟩, hy.agree fun x _ _ => hm x (by omega)⟩
  · rw [← h1]; exact word_congr fun x _ _ => hm x (by omega)
  · rw [← h2]; exact word_congr fun x _ _ => hm x (by omega)
  · rw [← h3]; exact word_congr fun x _ _ => hm x (by omega)
  · rw [← h4]; exact word_congr fun x _ _ => hm x (by omega)

theorem consts : hdrSize = 16 ∧ minAlloc = 16 ∧ pageSize = 4096 ∧ kernelHeapStart = 3489660928 ∧
    kernelHeapSize = 67108864 ∧ magicFree < 2 ^ 32 ∧ magicUsed < 2 ^ 32 := by decide

theorem tag_mk_used (n : Nat) : tag ⟨n, true⟩ = magicUsed := rfl

theorem tag_mk_free (n : Nat) : tag ⟨n, false⟩ = magicFree := rfl

/-- Changing a block's magic changes whether its cell is used. -/
theorem repr_setMagic (u : Bool) (hr : Repr h (xs ++ c :: ys)) :
    Repr (h.setMagic (kernelHeapStart + span hdrSize xs) (tag ⟨c.size, u⟩))
      (xs ++ ⟨c.size, u⟩ :: ys) := by
  obtain ⟨e1, _⟩ := consts
  obtain ⟨hx, ⟨_, h2, h3, h4⟩, hy, _⟩ := hr.split
  refine hr.of_mem rfl (by simp only [span_append, span_cons]) (by simp) ?_
  rw [seg_append]
  refine ⟨hx.storeWord (by omega), ⟨word_storeWord _ _ _ (tag_lt _), ?_, ?_, ?_⟩, hy.storeWord (by omega)⟩
  all_goals simp (disch := omega) only [Heap.setMagic, word_storeWord_of_disjoint, h2, h3, h4]

theorem kmallocInit_eq (m : Mem) : kmallocInit m = ((((Heap.mk m kernelHeapStart (kernelHeapStart + pageSize * 4)
        (kernelHeapStart + kernelHeapSize)).setMagic kernelHeapStart magicFree).setSize
        kernelHeapStart (pageSize * 4 - hdrSize)).setNext kernelHeapStart 0).setPrev
        kernelHeapStart 0 := by
  have ha : alignUp (pageSize * 4) pageSize = pageSize * 4 := by decide
  have hu : u32 (kernelHeapStart + pageSize * 4) = kernelHeapStart + pageSize * 4 := by decide
  have hn : ¬ kernelHeapStart + pageSize * 4 > kernelHeapStart + kernelHeapSize := by decide
  simp only [kmallocInit, heapSbrk, ha, hu, if_neg hn]

/-- `kmalloc_init` leaves one free block of four pages. -/
theorem repr_kmallocInit (m : Mem) : Repr (kmallocInit m) [⟨pageSize * 4 - hdrSize, false⟩] := by
  obtain ⟨e1, _, e3, e4, e5, e6, _⟩ := consts
  rw [kmallocInit_eq]
  simp only [Heap.setMagic, Heap.setSize, Heap.setNext, Heap.setPrev]
  refine ⟨rfl, ⟨⟨?_, ?_, ?_, ?_⟩, trivial⟩, by simp, ?_, ?_, rfl⟩
  · simp (disch := omega) only [word_storeWord, word_storeWord_of_disjoint, tag_mk_free]
  · simp (disch := omega) only [word_storeWord, word_storeWord_of_disjoint]
  · simp (disch := omega) only [word_storeWord, word_storeWord_of_disjoint, ↓reduceIte]
  · simp (disch := omega) only [word_storeWord]
  · simp only [span_cons, span_nil]
    omega
  · dsimp only
    omega

/-! ## 3. Handing out a block -/

/-- `split_block` on a block that is large enough, as the writes it makes. -/
theorem splitBlock_eq (need : Nat) (hd : HdrAt h.mem b c p n) (hge : need + hdrSize + minAlloc ≤ c.size)
    (hlt : b + hdrSize + c.size < 2 ^ 32) :
    splitBlock h b need = (((((((h.setMagic (b + hdrSize + need) magicFree).setSize (b + hdrSize + need)
        (c.size - need - hdrSize)).setNext (b + hdrSize + need) n).setPrev (b + hdrSize + need)
        b).setPrevOf n (b + hdrSize + need)).setNext b (b + hdrSize + need)).setSize b need) := by
  obtain ⟨h1, h2, h3, h4⟩ := hd
  obtain ⟨e1, e2, _⟩ := consts
  have hs : h.size b = c.size := h2
  unfold splitBlock
  rw [hs, if_neg (by rw [u32_of_lt] <;> omega), u32_of_lt (by omega : b + hdrSize + need < 2 ^ 32)]
  simp (disch := omega) only [Heap.setMagic, Heap.setSize, Heap.setNext, Heap.setPrev, Heap.size,
    Heap.next, word_storeWord_of_disjoint, h2, h3, sub32_of_le]

theorem carve_ne_nil {hdr min : Nat} (xs ys : List Cell) : xs ++ carve hdr min need c ++ ys ≠ [] := by
  unfold carve
  split <;> simp

/-- **The block handed out**: first fit carves the cell. -/
theorem repr_takeBlock (hr : Repr h (xs ++ c :: ys)) (hc : need ≤ c.size) :
    Repr (takeBlock h (kernelHeapStart + span hdrSize xs) need).2
      (xs ++ carve hdrSize minAlloc need c ++ ys) := by
  obtain ⟨e1, e2, _, e4, e5, e6, e7⟩ := consts
  obtain ⟨hx, hd, hy, hb⟩ := hr.split
  have hsp : span hdrSize (xs ++ carve hdrSize minAlloc need c ++ ys) = span hdrSize (xs ++ c :: ys) := by
    simp only [span_append, span_carve, span_cons, span_nil]; omega
  have hne : xs ++ carve hdrSize minAlloc need c ++ ys ≠ [] := carve_ne_nil xs ys
  obtain ⟨A, hA⟩ : ∃ A, A = kernelHeapStart + span hdrSize xs := ⟨_, rfl⟩
  rw [← hA] at hx hd hy ⊢
  by_cases hs : c.size < need + hdrSize + minAlloc
  · -- too small to split: the header changes its magic only
    have e : splitBlock h A need = h := by
      unfold splitBlock
      rw [if_pos]
      rw [show h.size A = c.size from hd.size, u32_of_lt] <;> omega
    have hr' := repr_setMagic true hr
    rw [← hA] at hr'
    rw [carve, if_pos hs, List.append_assoc, List.singleton_append]
    simp only [takeBlock, e]
    exact hr'
  · -- the block keeps `need` bytes; the remainder is a new free block behind it
    have e := splitBlock_eq need hd (by omega) (by omega)
    obtain ⟨h1, h2, h3, h4⟩ := hd
    have hE : A + hdrSize + need + hdrSize + (c.size - need - hdrSize) = A + hdrSize + c.size := by
      omega
    have hxs : xs ++ carve hdrSize minAlloc need c ++ ys =
        xs ++ ⟨need, true⟩ :: ⟨c.size - need - hdrSize, false⟩ :: ys := by
      rw [carve, if_neg hs, List.append_assoc]; rfl
    rw [hxs] at hne hsp ⊢
    obtain ⟨n, hn⟩ : ∃ n, n = if ys = [] then 0 else A + hdrSize + c.size := ⟨_, rfl⟩
    have hn' : n = 0 ∨ n = A + hdrSize + c.size := by rw [hn]; split <;> simp
    rw [← hn] at e
    have hm : (takeBlock h A need).2 = { h with mem := (takeBlock h A need).2.mem } := by
      simp only [takeBlock, e, Heap.setMagic, Heap.setSize, Heap.setNext, Heap.setPrev]
      rw [setPrevOf_eq]
    refine hr.of_mem hm hsp hne ?_
    simp only [takeBlock, e, Heap.setMagic, Heap.setSize, Heap.setNext, Heap.setPrev]
    rw [seg_append, ← hA]
    refine ⟨hx.agree fun x h h' => ?_, ⟨?_, ?_, ?_, ?_⟩, ⟨?_, ?_, ?_, ?_⟩, ?_⟩
    · simp (disch := omega) only [storeWord_of_ne, setPrevOf_of_ne]
    · simp (disch := omega) only [word_storeWord, tag_mk_used]
    · simp (disch := omega) only [word_storeWord, word_storeWord_of_disjoint]
    · simp (disch := omega) only [word_storeWord, word_storeWord_of_disjoint, ↓reduceIte, reduceCtorEq]
    · simp (disch := omega) only [word_storeWord_of_disjoint, word_setPrevOf, h4]
    · simp (disch := omega) only [word_storeWord, word_storeWord_of_disjoint, word_setPrevOf, tag_mk_free]
    · simp (disch := omega) only [word_storeWord, word_storeWord_of_disjoint, word_setPrevOf]
    · simp (disch := omega) only [word_storeWord, word_storeWord_of_disjoint, word_setPrevOf, hE]
      exact hn
    · simp (disch := omega) only [word_storeWord, word_storeWord_of_disjoint, word_setPrevOf]
    · simp only [hE, hn]
      refine (((seg_setPrevOf hy (fun x h h' => ?_) ?_ ?_).storeWord ?_).storeWord ?_).storeWord ?_
      · simp (disch := omega) only [storeWord_of_ne]
      all_goals omega

/-- The block handed out is written to, and the link of the header behind it. -/
theorem takeBlock_inside (hr : Repr h (xs ++ c :: ys)) (hc : c.used = false) (hfit : need ≤ c.size)
    (hx : Inside hdrSize kernelHeapStart (xs ++ c :: ys) x) :
    (takeBlock h (kernelHeapStart + span hdrSize xs) need).2.mem x = h.mem x := by
  obtain ⟨e1, e2, _, e4, e5, _⟩ := consts
  obtain ⟨_, hd, _, hb⟩ := hr.split
  have hout := hx.free hc
  have hnext : ys ≠ [] → x < kernelHeapStart + span hdrSize xs + hdrSize + c.size ∨
      kernelHeapStart + span hdrSize xs + hdrSize + c.size + hdrSize ≤ x := fun hne => by
    obtain ⟨y, zs, rfl⟩ := List.exists_cons_of_ne_nil hne
    have h' : Inside hdrSize kernelHeapStart ((xs ++ [c]) ++ y :: zs) x := by simpa using hx
    have hhdr := h'.header
    simp only [span_append, span_cons, span_nil] at hhdr
    omega
  obtain ⟨A, hA⟩ : ∃ A, A = kernelHeapStart + span hdrSize xs := ⟨_, rfl⟩
  rw [← hA] at hd hout hnext ⊢
  by_cases hs : c.size < need + hdrSize + minAlloc
  · have e : splitBlock h A need = h := by
      unfold splitBlock
      rw [if_pos]
      rw [show h.size A = c.size from hd.size, u32_of_lt] <;> omega
    simp only [takeBlock, e, Heap.setMagic]
    exact storeWord_of_ne _ _ _ (by omega)
  · have e := splitBlock_eq need hd (by omega) (by omega)
    obtain ⟨n, hn⟩ : ∃ n, n = if ys = [] then 0 else A + hdrSize + c.size := ⟨_, rfl⟩
    have hn' : n = 0 ∨ n = A + hdrSize + c.size ∧ (x < n ∨ n + hdrSize ≤ x) := by
      rw [hn]
      split
      · exact .inl rfl
      · exact .inr ⟨rfl, hnext ‹_›⟩
    rw [← hn] at e
    simp only [takeBlock, e, Heap.setMagic, Heap.setSize, Heap.setNext, Heap.setPrev]
    simp (disch := omega) only [storeWord_of_ne, setPrevOf_of_ne]

/-! ## 4. Growing -/

/-- The loop to the end of the list ends at the last cell. -/
theorem lastBlock_eq (hs : Seg h.mem p a cs 0) (hne : cs ≠ []) (hf : cs.length ≤ fuel) :
    lastBlock h fuel a = some (lastOf p a cs) := by
  induction cs generalizing p a fuel with
  | nil => exact absurd rfl hne
  | cons c cs ih =>
    obtain ⟨hd, ht⟩ := hs
    have hn : h.next a = _ := hd.next
    cases fuel with
    | zero => simp at hf
    | succ fuel =>
      rw [List.length_cons, Nat.add_le_add_iff_right] at hf
      cases cs with
      | nil =>
        rw [if_pos rfl] at hn
        rw [lastBlock, if_pos hn]
        rfl
      | cons d ds =>
        rw [if_neg (List.cons_ne_nil _ _)] at hn
        have h0 : a + hdrSize + c.size ≠ 0 := by simp only [hdrSize]; omega
        rw [lastBlock, hn, if_neg h0, ih ht (List.cons_ne_nil _ _) hf]
        rfl

theorem sub32_lt (a b : Nat) : sub32 a b < 2 ^ 32 := Nat.mod_lt _ (by decide)

/-- **The block appended** at `heap_cur`, wherever `heap_cur` is moved to: the list ends with a free block whose size
    is what the 32-bit `ext - HDR_SIZE` comes to. -/
theorem appendBlock_seg {h : Heap} {cs : List Cell} {ext cur fuel : Nat} (hr : Repr h cs)
    (hf : cs.length ≤ fuel) :
    ∃ m, appendBlock fuel { h with heapCur := cur } h.heapCur ext = some { h with mem := m, heapCur := cur } ∧
      Seg m 0 kernelHeapStart (cs ++ [⟨sub32 ext hdrSize, false⟩]) 0 ∧
      ∀ x, Inside hdrSize kernelHeapStart cs x → m x = h.mem x := by
  obtain ⟨e1, _, _, e4, e5, e6, _⟩ := consts
  obtain ⟨xs, c, rfl⟩ : ∃ xs c, cs = xs ++ [c] := by
    rcases List.eq_nil_or_concat cs with rfl | ⟨xs, c, rfl⟩
    · exact absurd rfl hr.ne
    · exact ⟨xs, c, List.concat_eq_append⟩
  have hcur := hr.cur
  have hseg := hr.seg
  obtain ⟨hx, hd, hy, hb⟩ := hr.split
  simp only [span_append, span_cons, span_nil] at hcur
  have hsz := sub32_lt ext hdrSize
  -- the three writes to the new header lie behind the list, so the walk is the one of `h`
  obtain ⟨g, hg⟩ : ∃ g : Heap, g = ((({ h with heapCur := cur } : Heap).setMagic
      h.heapCur magicFree).setSize h.heapCur (sub32 ext hdrSize)).setNext h.heapCur 0 := ⟨_, rfl⟩
  have hgm : AgreeOn h.mem g.mem kernelHeapStart h.heapCur := fun x h1 h2 => by
    rw [hg]
    simp (disch := omega) only [Heap.setMagic, Heap.setSize, Heap.setNext, storeWord_of_ne]
  have hgs : Seg g.mem 0 kernelHeapStart (xs ++ [c]) 0 := by
    refine hseg.agree (hgm.mono le_rfl ?_)
    simp only [span_append, span_cons, span_nil]
    omega
  have hl := lastBlock_eq hgs (by simp) hf
  rw [lastOf_concat] at hl
  refine ⟨((g.setNext (kernelHeapStart + span hdrSize xs) h.heapCur).setPrev h.heapCur
    (kernelHeapStart + span hdrSize xs)).mem, ?_, ?_, fun x hin => ?_⟩
  · rw [hg, ← hr.start] at hl
    simp only [appendBlock]
    rw [← hg] at hl ⊢
    rw [show g.heapStart = h.heapStart by rw [hg]; rfl, hl, hg, ← hr.start]
    rfl
  · have hc : h.heapCur = kernelHeapStart + span hdrSize (xs ++ [c]) := hr.cur
    rw [seg_append, lastOf_concat, ← hc]
    have hl' : Seg (g.setNext (kernelHeapStart + span hdrSize xs) h.heapCur).mem 0 kernelHeapStart
        (xs ++ [c]) h.heapCur :=
      seg_setNext hgs (agreeOn_storeWord _ _ _ (by omega)) (word_storeWord _ _ _ (by omega))
        (agreeOn_storeWord _ _ _ (by omega))
    refine ⟨hl'.storeWord (.inr (by omega)), ⟨?_, ?_, ?_, ?_⟩, trivial⟩
    all_goals
      rw [hg]
      simp (disch := omega) only [Heap.setMagic, Heap.setSize, Heap.setNext, Heap.setPrev,
        word_storeWord, word_storeWord_of_disjoint, tag_mk_free, ↓reduceIte]
  · have hhdr := hin.header
    have hend := hin.bounds
    simp only [span_append, span_cons, span_nil] at hend
    rw [hg]
    simp (disch := omega) only [Heap.setMagic, Heap.setSize, Heap.setNext, Heap.setPrev, storeWord_of_ne]

/-- **The heap grown** by `ext` bytes ends with a free block of `ext - HDR_SIZE`. -/
theorem repr_grow (hr : Repr h cs) (h16 : hdrSize ≤ ext) (hle : span hdrSize cs + ext ≤ kernelHeapSize)
    (hf : cs.length ≤ fuel) :
    ∃ h', appendBlock fuel { h with heapCur := h.heapCur + ext } h.heapCur ext = some h' ∧
      Repr h' (cs ++ [⟨ext - hdrSize, false⟩]) ∧
      ∀ x, Inside hdrSize kernelHeapStart cs x → h'.mem x = h.mem x := by
  obtain ⟨e1, _, _, e4, e5, _⟩ := consts
  obtain ⟨m, ha, hs, hin⟩ := @appendBlock_seg h cs ext (h.heapCur + ext) fuel hr hf
  rw [sub32_of_le h16 (by omega)] at hs
  have hcur := hr.cur
  have hend := hr.ends
  refine ⟨_, ha, ⟨hr.start, hs, by simp, ?_, ?_, hr.ends⟩, hin⟩
  · simp only [span_append, span_cons, span_nil]
    omega
  · show h.heapCur + ext ≤ h.heapEnd
    omega

/-! ## 5. Release -/

/-- The three writes by which `kfree` lets the block at `b` take over its successor: `n` is the block after the two
    and `sz` the size of both with the inner header. -/
def joinNext (h : Heap) (b n sz : Nat) : Heap := ((h.setSize b sz).setPrevOf n b).setNext b n

theorem repr_joinNext {d : Cell} (hr : Repr h (xs ++ c :: d :: ys)) :
    Repr (joinNext h (kernelHeapStart + span hdrSize xs) (if ys = [] then 0 else
        kernelHeapStart + span hdrSize xs + hdrSize + c.size + hdrSize + d.size)
        (c.size + hdrSize + d.size))
      (xs ++ ⟨c.size + hdrSize + d.size, c.used⟩ :: ys) := by
  obtain ⟨e1, _, _, e4, e5, _⟩ := consts
  obtain ⟨hx, ⟨h1, h2, _, h4⟩, hdy, hb⟩ := hr.split
  obtain ⟨_, hy⟩ := (seg_cons _ _ _ _ _ _).mp hdy
  simp only [span_cons] at hb
  obtain ⟨A, hA⟩ : ∃ A, A = kernelHeapStart + span hdrSize xs := ⟨_, rfl⟩
  rw [← hA] at hx h1 h2 h4 hy ⊢
  obtain ⟨n, hn⟩ : ∃ n, n = if ys = [] then 0 else A + hdrSize + c.size + hdrSize + d.size := ⟨_, rfl⟩
  have hn' : n = 0 ∨ n = A + hdrSize + c.size + hdrSize + d.size := by rw [hn]; split <;> simp
  have hE : A + hdrSize + (c.size + hdrSize + d.size) = A + hdrSize + c.size + hdrSize + d.size := by
    omega
  rw [← hn]
  refine hr.of_mem ?_ (by simp only [span_append, span_cons]; omega) (by simp) ?_
  · simp only [joinNext, Heap.setNext]
    rw [setPrevOf_eq]
    rfl
  rw [seg_append, ← hA, seg_cons, hE, ← hn]
  simp only [joinNext, Heap.setNext, Heap.setSize]
  refine ⟨hx.agree fun x h h' => ?_, ⟨?_, ?_, ?_, ?_⟩, ?_⟩
  · simp (disch := omega) only [storeWord_of_ne, setPrevOf_of_ne]
  · simp (disch := omega) only [word_storeWord_of_disjoint, word_setPrevOf, h1, tag]
  · simp (disch := omega) only [word_storeWord, word_storeWord_of_disjoint, word_setPrevOf]
  · simp (disch := omega) only [word_storeWord]
  · simp (disch := omega) only [word_storeWord_of_disjoint, word_setPrevOf, h4]
  · rw [hn]
    refine (seg_setPrevOf hy (agreeOn_storeWord _ _ _ ?_) ?_ ?_).storeWord ?_
    all_goals omega

/-- "Coalesce with next" on a block of the list: nothing, or the block takes over its free successor. -/
theorem coalesceNext_cases (hr : Repr h (xs ++ c :: ys)) :
    (coalesceNext h (kernelHeapStart + span hdrSize xs) = h ∧ absorb hdrSize c ys = (⟨c.size, false⟩, ys)) ∨
      ∃ d zs, ys = d :: zs ∧ d.used = false ∧ coalesceNext h (kernelHeapStart + span hdrSize xs) =
          joinNext h (kernelHeapStart + span hdrSize xs) (if zs = [] then 0 else
            kernelHeapStart + span hdrSize xs + hdrSize + c.size + hdrSize + d.size)
            (c.size + hdrSize + d.size) := by
  obtain ⟨e1, _, _, e4, e5, _⟩ := consts
  obtain ⟨_, ⟨_, h2, h3, _⟩, hy, hb⟩ := hr.split
  obtain ⟨A, hA⟩ : ∃ A, A = kernelHeapStart + span hdrSize xs := ⟨_, rfl⟩
  rw [← hA] at h2 h3 hy ⊢
  cases ys with
  | nil =>
    refine .inl ⟨?_, rfl⟩
    rw [coalesceNext, if_neg fun hc => hc.1 h3]
  | cons d ys =>
    simp only [span_cons] at hb
    obtain ⟨⟨g1, g2, g3, _⟩, _⟩ := hy
    have hnx : h.next A = A + hdrSize + c.size := h3
    have hmg : h.magic (h.next A) = tag d := by rw [hnx]; exact g1
    have hn0 : h.next A ≠ 0 := by rw [hnx]; omega
    cases hu : d.used with
    | true =>
      refine .inl ⟨?_, by simp only [absorb, hu, ↓reduceIte]⟩
      rw [coalesceNext, if_neg fun hc => ?_]
      have := tag_free.mp (hmg.symm.trans hc.2)
      rw [hu] at this
      cases this
    | false =>
      refine .inr ⟨d, ys, rfl, hu, ?_⟩
      rw [coalesceNext, if_pos ⟨hn0, hmg.trans (tag_free.mpr hu)⟩]
      have hsz : u32 (h.size A + (hdrSize + h.size (h.next A))) = c.size + hdrSize + d.size := by
        rw [hnx, show h.size A = c.size from h2, show h.size (A + hdrSize + c.size) = d.size from g2,
          u32_of_lt (by omega)]
        omega
      have hn2 : (h.setSize A (c.size + hdrSize + d.size)).next
          ((h.setSize A (c.size + hdrSize + d.size)).next A) =
          if ys = [] then 0 else A + hdrSize + c.size + hdrSize + d.size := by
        simp (disch := omega) only [Heap.next, Heap.setSize, word_storeWord_of_disjoint]
        rw [show word h.mem (A + 8) = A + hdrSize + c.size from hnx]
        simp (disch := omega) only [word_storeWord_of_disjoint, g3]
      simp only [hsz, hn2]
      rfl

/-- Merging with a free successor. -/
theorem repr_coalesceNext (hr : Repr h (xs ++ ⟨c.size, false⟩ :: ys)) :
    Repr (coalesceNext h (kernelHeapStart + span hdrSize xs))
      (xs ++ (absorb hdrSize c ys).1 :: (absorb hdrSize c ys).2) := by
  rcases coalesceNext_cases hr with ⟨e, ha⟩ | ⟨d, zs, rfl, hu, e⟩
  · rw [e, show absorb hdrSize c ys = (⟨c.size, false⟩, ys) from ha]
    exact hr
  · rw [e]
    simp only [absorb, hu, Bool.false_eq_true, ↓reduceIte]
    exact repr_joinNext hr

/-- "Coalesce with prev" behind a free predecessor `p`: it takes the block over. -/
theorem coalescePrev_eq {p : Cell} (hr : Repr h (xs ++ p :: c :: ys)) (hp : p.used = false) :
    coalescePrev h (kernelHeapStart + span hdrSize xs + hdrSize + p.size) =
      joinNext h (kernelHeapStart + span hdrSize xs) (if ys = [] then 0 else
        kernelHeapStart + span hdrSize xs + hdrSize + p.size + hdrSize + c.size) (p.size + hdrSize + c.size) := by
  obtain ⟨e1, _, _, e4, e5, _⟩ := consts
  obtain ⟨_, ⟨g1, g2, _, _⟩, ⟨⟨_, h2, h3, h4⟩, _⟩, hb⟩ := hr.split
  simp only [span_cons] at hb
  obtain ⟨A, hA⟩ : ∃ A, A = kernelHeapStart + span hdrSize xs := ⟨_, rfl⟩
  rw [← hA] at g1 g2 h2 h3 h4 ⊢
  obtain ⟨B, hB⟩ : ∃ B, B = A + hdrSize + p.size := ⟨_, rfl⟩
  rw [← hB] at h2 h3 h4 ⊢
  have hpv : h.prev B = A := h4
  have hp0 : h.prev B ≠ 0 := by rw [hpv]; omega
  have hmg : h.magic (h.prev B) = magicFree := by rw [hpv]; exact g1.trans (tag_free.mpr hp)
  have hsz : u32 (h.size A + (hdrSize + h.size B)) = p.size + hdrSize + c.size := by
    rw [show h.size A = p.size from g2, show h.size B = c.size from h2, u32_of_lt (by omega)]
    omega
  rw [coalescePrev, if_pos ⟨hp0, hmg⟩]
  simp only [hpv, hsz]
  obtain ⟨g, hg⟩ : ∃ g, g = h.setSize A (p.size + hdrSize + c.size) := ⟨_, rfl⟩
  have hnx : g.next B = if ys = [] then 0 else B + hdrSize + c.size := by
    rw [hg]
    simp (disch := omega) only [Heap.next, Heap.setSize, word_storeWord_of_disjoint, h3]
  have hgp : g.prev B = A := by
    rw [hg]
    simp (disch := omega) only [Heap.prev, Heap.setSize, word_storeWord_of_disjoint, h4]
  -- `b->prev` is read again after `n->prev` was written: the two headers are different ones
  have hgp' : (g.setPrevOf (g.next B) A).prev B = A := by
    have hn' : g.next B = 0 ∨ g.next B = B + hdrSize + c.size := by rw [hnx]; split <;> simp
    rw [Heap.prev, word_setPrevOf _ _ _ (by omega)]
    exact hgp
  rw [← hg, hgp, hgp', hnx, hg]
  rfl

theorem repr_coalescePrev {p : Cell} (hr : Repr h (xs ++ p :: c :: ys)) (hp : p.used = false) :
    Repr (coalescePrev h (kernelHeapStart + span hdrSize xs + hdrSize + p.size))
      (xs ++ ⟨p.size + hdrSize + c.size, false⟩ :: ys) := by
  rw [coalescePrev_eq hr hp, ← hp]
  exact repr_joinNext hr

/-- "Coalesce with prev" on a block of the list. -/
theorem coalescePrev_cases (hr : Repr h (xs ++ c :: ys)) : (coalescePrev h (kernelHeapStart + span hdrSize xs) = h ∧
        (xs = [] ∨ ∃ zs p, xs = zs ++ [p] ∧ p.used = true)) ∨
      ∃ zs p, xs = zs ++ [p] ∧ p.used = false ∧ coalescePrev h (kernelHeapStart + span hdrSize xs) =
        joinNext h (kernelHeapStart + span hdrSize zs) (if ys = [] then 0 else
          kernelHeapStart + span hdrSize xs + hdrSize + c.size) (p.size + hdrSize + c.size) := by
  obtain ⟨_, ⟨_, _, _, g4⟩, _, _⟩ := hr.split
  rcases List.eq_nil_or_concat xs with rfl | ⟨zs, p, rfl⟩
  · -- no predecessor
    refine .inl ⟨?_, .inl rfl⟩
    rw [coalescePrev, if_neg fun hp => hp.1 g4]
  · rw [List.concat_eq_append] at hr g4 ⊢
    rw [lastOf_concat] at g4
    have hsp : kernelHeapStart + span hdrSize (zs ++ [p]) = kernelHeapStart + span hdrSize zs + hdrSize + p.size := by
      simp only [span_append, span_cons, span_nil]
      omega
    have hzs : zs ++ [p] ++ c :: ys = zs ++ p :: c :: ys := by simp
    rw [hzs] at hr
    cases hp : p.used with
    | true =>
      refine .inl ⟨?_, .inr ⟨zs, p, rfl, hp⟩⟩
      rw [coalescePrev, if_neg fun hq => ?_]
      have h2 : h.magic (h.prev (kernelHeapStart + span hdrSize (zs ++ [p]))) = tag p := by
        rw [show h.prev (kernelHeapStart + span hdrSize (zs ++ [p])) = _ from g4]
        exact hr.split.2.1.magic
      have := tag_free.mp (h2.symm.trans hq.2)
      rw [hp] at this
      cases this
    | false =>
      refine .inr ⟨zs, p, rfl, hp, ?_⟩
      rw [hsp]
      exact coalescePrev_eq hr hp

/-- `kfree` of a used block of the list. -/
theorem kfree_eq (hr : Repr h (xs ++ c :: ys)) (hc : c.used = true) :
    kfree h (kernelHeapStart + span hdrSize xs + hdrSize) =
      coalescePrev (coalesceNext (h.setMagic (kernelHeapStart + span hdrSize xs) magicFree)
        (kernelHeapStart + span hdrSize xs)) (kernelHeapStart + span hdrSize xs) := by
  obtain ⟨e1, _, _, e4, e5, _⟩ := consts
  obtain ⟨_, ⟨h1, _⟩, _, hb⟩ := hr.split
  have hA : sub32 (kernelHeapStart + span hdrSize xs + hdrSize) hdrSize = kernelHeapStart + span hdrSize xs := by
    rw [sub32_of_le] <;> omega
  have hm : h.magic (kernelHeapStart + span hdrSize xs) = magicUsed := h1.trans (tag_used.mpr hc)
  have h0 : kernelHeapStart + span hdrSize xs + hdrSize ≠ 0 := by omega
  simp only [kfree, if_neg h0, hA]
  rw [if_neg (not_not.mpr hm)]

/-- **A released block** is merged with its free neighbours. -/
theorem repr_kfree (hr : Repr h (xs ++ c :: ys)) (hc : c.used = true) :
    Repr (kfree h (kernelHeapStart + span hdrSize xs + hdrSize)) (release hdrSize xs c ys) := by
  have hn := repr_coalesceNext (repr_setMagic false hr)
  rw [tag_mk_free] at hn
  rw [kfree_eq hr hc]
  obtain ⟨g, hg⟩ : ∃ g, g = coalesceNext (h.setMagic (kernelHeapStart + span hdrSize xs) magicFree)
      (kernelHeapStart + span hdrSize xs) := ⟨_, rfl⟩
  rw [← hg] at hn ⊢
  clear hg
  rcases coalescePrev_cases hn with ⟨e, rfl | ⟨zs, p, rfl, hp⟩⟩ | ⟨zs, p, rfl, hp, _⟩
  · rw [e, release_nil]
    exact hn
  · rw [e, release_concat_used hdrSize hp]
    rw [List.append_assoc] at hn
    exact hn
  · rw [release_concat_free hdrSize hp]
    rw [List.append_assoc] at hn
    have hq := repr_coalescePrev hn hp
    rw [show kernelHeapStart + span hdrSize (zs ++ [p]) = kernelHeapStart + span hdrSize zs + hdrSize + p.size by
      simp only [span_append, span_cons, span_nil]; omega]
    exact hq

theorem joinNext_of_ne (h : Heap) (sz : Nat) (hb : x < b ∨ b + hdrSize ≤ x) (hn : n = 0 ∨ x < n ∨ n + hdrSize ≤ x) :
    (joinNext h b n sz).mem x = h.mem x := by
  obtain ⟨e1, _⟩ := consts
  simp only [joinNext, Heap.setSize, Heap.setNext]
  simp (disch := omega) only [storeWord_of_ne, setPrevOf_of_ne]

/-- `kfree` writes to headers only. -/
theorem kfree_inside (hr : Repr h (xs ++ c :: ys)) (hc : c.used = true)
    (hx : Inside hdrSize kernelHeapStart (xs ++ c :: ys) x) :
    (kfree h (kernelHeapStart + span hdrSize xs + hdrSize)).mem x = h.mem x := by
  obtain ⟨e1, _⟩ := consts
  have hhdr := hx.header
  have hmagic : (h.setMagic (kernelHeapStart + span hdrSize xs) magicFree).mem x = h.mem x :=
    storeWord_of_ne _ _ _ (by omega)
  have hr1 := repr_setMagic false hr
  rw [tag_mk_free] at hr1
  -- the header that follows the first cells `ws` of `ys`
  have hbehind : ∀ ws zs, ys = ws ++ zs → zs ≠ [] → ∀ n,
      n = kernelHeapStart + span hdrSize xs + hdrSize + c.size + span hdrSize ws → x < n ∨ n + hdrSize ≤ x := by
    intro ws zs hys hne n hn
    obtain ⟨z, zs, rfl⟩ := List.exists_cons_of_ne_nil hne
    have h' : Inside hdrSize kernelHeapStart ((xs ++ c :: ws) ++ z :: zs) x := by rw [hys] at hx; simpa using hx
    have h1 := h'.header
    simp only [span_append, span_cons] at h1
    omega
  have hnext : (coalesceNext (h.setMagic (kernelHeapStart + span hdrSize xs) magicFree)
      (kernelHeapStart + span hdrSize xs)).mem x = h.mem x := by
    rcases coalesceNext_cases hr1 with ⟨e, _⟩ | ⟨d, zs, hys, _, e⟩
    · rw [e, hmagic]
    · rw [e, joinNext_of_ne _ _ hhdr ?_, hmagic]
      split
      · exact .inl rfl
      · exact .inr (hbehind [d] zs hys ‹_› _ (by simp only [span_cons, span_nil]; omega))
  have hr2 := repr_coalesceNext hr1
  rw [kfree_eq hr hc]
  rcases coalescePrev_cases hr2 with ⟨e, _⟩ | ⟨zs, p, rfl, _, e⟩
  · rw [e, hnext]
  · rw [e, joinNext_of_ne _ _ ?_ ?_, hnext]
    · have h' : Inside hdrSize kernelHeapStart (zs ++ p :: c :: ys) x := by simpa using hx
      exact h'.header
    · obtain ⟨ws, hys, hsz⟩ := absorb_suffix hdrSize c ys
      split
      · exact .inl rfl
      · exact .inr (hbehind ws _ hys ‹_› _ (by rw [← hsz]; omega))

end OreUnix.Kmalloc
