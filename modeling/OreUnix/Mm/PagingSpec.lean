/-
  Subject: WHAT THE PAGING FUNCTIONS DO TO FRAMES.

  A directory with its user tables and user pages is a partial map from slots (`Slot`) to frames, read off memory
  (`frameAt`). It is well formed in a set of frames when every slot's frame is in the set and no two slots have the
  same frame (`Space`). The functions are known by the frames they take, give back and write, in the terms of
  FramePool.lean.
-/
import OreUnix.Mm.AddressSpace
import OreUnix.Lib.FramePool

namespace OreUnix.Vmm

open ByteMem Pmm Bitmap FramePool

variable {f x : Nat}

/-! ## 1. Frames -/

/-- The free frames, and the bytes of each frame. -/
def pool : Pool Vm Nat (Fin pageSize → UInt8) where
  free s := freePages s.pages
  cell s f o := s.mem (f * pageSize + o)

theorem pageSize_eq : pageSize = 4096 := rfl

theorem addr_ne {f : Nat} (h : f ≠ 0) : f * pageSize ≠ 0 := Nat.mul_ne_zero h (by decide)

variable {s s' : Vm} {f g i j e : Nat}

theorem mem_free : f ∈ pool.free s ↔ f ∈ freePages s.pages := Finset.mem_coe

theorem entry_congr (h : pool.cell s' f = pool.cell s f) (hi : i < tableEntries) :
    entry s' (f * pageSize) i = entry s (f * pageSize) i := by
  have hi : i < 1024 := hi
  refine word_congr fun x h1 h2 => ?_
  have ho : x - f * pageSize < pageSize := by rw [pageSize_eq] at *; omega
  have hx := congrFun h ⟨x - f * pageSize, ho⟩
  simp only [pool] at hx
  rwa [Nat.add_sub_cancel' (by omega)] at hx

theorem cell_setEntry (hi : i < tableEntries) (hg : g ≠ f) :
    pool.cell (setEntry s (f * pageSize) i e) g = pool.cell s g := by
  have hi : i < 1024 := hi
  funext ⟨o, ho⟩
  have ho : o < 4096 := ho
  refine storeWord_of_ne _ _ _ ?_
  change g * 4096 + o < f * 4096 + 4 * i ∨ f * 4096 + 4 * i + 4 ≤ g * 4096 + o
  omega

theorem entry_setEntry_self (he : e < 2 ^ 32) : entry (setEntry s f i e) f i = e := word_storeWord _ _ _ he

theorem entry_setEntry_of_ne (hij : j ≠ i) : entry (setEntry s f i e) f j = entry s f j :=
  word_storeWord_of_disjoint _ _ _ (by omega)

theorem write_setEntry (hi : i < tableEntries) : Takes pool {f} ∅ s (setEntry s (f * pageSize) i e) :=
  Takes.write rfl fun _ hg => cell_setEntry hi hg

/-! ## 2. The allocator -/

/-- An allocation fails, and then at most frame 0 is lost, or gives a free frame. -/
theorem alloc_cases (s : Vm) :
    (∃ N ⊆ {0}, s.alloc.1 = 0 ∧ Takes pool ∅ N s s.alloc.2 ∧ (0 ∉ pool.free s → pool.free s = ∅)) ∨
      ∃ f, f ≠ 0 ∧ s.alloc.1 = f * pageSize ∧ Takes pool ∅ {f} s s.alloc.2 := by
  have hfst : s.alloc = ((pmmAlloc s.pages).1, { s with pages := (pmmAlloc s.pages).2 }) := rfl
  rcases pmmAlloc_cases s.pages with ⟨heq, hnone⟩ | ⟨f, hf, heq⟩
  · rw [hfst, heq]
    refine .inl ⟨∅, Set.empty_subset _, rfl, Takes.refl .., fun _ => ?_⟩
    exact Finset.coe_eq_empty.mpr hnone
  · rw [hfst, heq]
    have htake : Takes pool ∅ {f} s { s with pages := ⟨clr s.pages.bitmap f, sub32 s.pages.freePagesCount 1⟩ } := by
      refine ⟨fun g hg => ?_, fun g => ?_, fun _ _ _ => rfl⟩
      · rw [Set.mem_singleton_iff.mp hg]
        exact mem_free.mpr hf
      · rw [mem_free, mem_free, freePages, ones_clr, Finset.mem_erase, Set.mem_singleton_iff, and_comm]
        rfl
    by_cases h0 : f = 0
    · subst h0
      refine .inl ⟨{0}, subset_rfl, Nat.zero_mul _, htake, fun h => absurd (mem_free.mpr hf) h⟩
    · exact .inr ⟨f, h0, rfl, htake⟩

theorem allocZero_eq (s : Vm) : s.allocZero = (s.alloc.1,
    if s.alloc.1 ≠ 0 then { s.alloc.2 with mem := fill s.mem s.alloc.1 0 pageSize } else s.alloc.2) := by
  by_cases h : (pmmAlloc s.pages).1 = 0
  · simp only [Vm.allocZero, Vm.alloc, pmmAllocZero, h, ne_eq, not_true_eq_false, if_false]
  · simp only [Vm.allocZero, Vm.alloc, pmmAllocZero, h, ne_eq, not_false_eq_true, if_true]

/-- The same with the frame's bytes set to 0. -/
theorem allocZero_cases (s : Vm) : (∃ N ⊆ {0}, s.allocZero.1 = 0 ∧ Takes pool ∅ N s s.allocZero.2 ∧
        (0 ∉ pool.free s → pool.free s = ∅)) ∨
      ∃ f, f ≠ 0 ∧ s.allocZero.1 = f * pageSize ∧ Takes pool ∅ {f} s s.allocZero.2 ∧
        pool.cell s.allocZero.2 f = fun _ => 0 := by
  rw [allocZero_eq]
  rcases alloc_cases s with ⟨N, hN, h0, htake, hnone⟩ | ⟨f, hf, hp, htake⟩
  · rw [if_neg (not_not.mpr h0)]
    exact .inl ⟨N, hN, h0, htake, hnone⟩
  · have hne : s.alloc.1 ≠ 0 := by
      rw [hp, pageSize_eq]
      omega
    rw [if_pos hne, hp]
    refine .inr ⟨f, hf, rfl, ⟨htake.was_free, htake.free_iff, fun g _ hg => ?_⟩, ?_⟩
    · funext ⟨o, ho⟩
      have ho : o < 4096 := ho
      have hg : g ≠ f := hg
      refine fill_of_ne _ _ _ _ ?_
      change g * 4096 + o < f * 4096 ∨ f * 4096 + 4096 ≤ g * 4096 + o
      omega
    · funext ⟨o, ho⟩
      exact if_pos ⟨Nat.le_add_right _ _, Nat.add_lt_add_left ho _⟩

/-- A frame `pmm_free` does something with. -/
def Real (f : Nat) : Prop := f ≠ 0 ∧ f < bitmapBits

theorem free_gives (s : Vm) (f : Nat) : Gives pool ∅ {g | g = f ∧ Real f} s (s.free (f * pageSize)) := by
  refine ⟨fun g => ?_, fun _ _ => rfl⟩
  rw [mem_free, mem_free, Vm.free, pmmFree, Set.mem_ofPred_eq, Real]
  obtain ⟨e1, _, e2, e3⟩ := bitmapBits_eq
  have hdiv : f * pageSize / pageSize = f := Nat.mul_div_cancel _ (by rw [e2]; decide)
  split
  · rename_i h
    have hnot : ¬ (f ≠ 0 ∧ f < bitmapBits) := by
      rw [e2] at h
      omega
    simp only [hnot, and_false, or_false]
  · rename_i h
    have hreal : f ≠ 0 ∧ f < bitmapBits := by
      rw [e2] at h
      omega
    rw [hdiv]
    dsimp only
    split
    · rename_i hset
      refine ⟨.inl, fun hg => hg.elim id fun he => ?_⟩
      rw [he.1]
      exact mem_freePages.mpr ⟨hreal.2, hset⟩
    · rw [freePages, ones_set _ _ _ hreal.2, Finset.mem_insert, or_comm]
      simp only [hreal, ne_eq, not_false_eq_true, and_self, and_true]
      rfl

/-! ## 3. Slots -/

/-- The frame entry `i` of the table in frame `t` points to. -/
def target (s : Vm) (t i : Nat) : Option Nat :=
  if present (entry s (t * pageSize) i) then some (entry s (t * pageSize) i / pageSize) else none

/-- The places of an address space: the directory, its user tables, their pages. -/
inductive Slot where
  | dir
  | table (di : Nat)
  | page (di pi : Nat)
  deriving DecidableEq

/-- The frame in each place. -/
def frameAt (s : Vm) (d : Nat) : Slot → Option Nat
  | .dir => some d
  | .table di => if di < userTables then target s d di else none
  | .page di pi =>
    if di < userTables ∧ pi < tableEntries then (target s d di).bind (target s · pi) else none

/-- The directory in frame `d` is well formed, and its frames are in `F`. -/
structure Space (s : Vm) (d : Nat) (F : Set Nat) : Prop where
  owned : ∀ {k f}, frameAt s d k = some f → f ∈ F
  inj : ∀ {k k' f}, frameAt s d k = some f → frameAt s d k' = some f → k = k'

variable {d t di pi : Nat} {F F' N : Set Nat}

theorem target_congr (h : pool.cell s' t = pool.cell s t) (hi : i < tableEntries) : target s' t i = target s t i := by
  rw [target, target, entry_congr h hi]

theorem target_zero (h : pool.cell s t = fun _ => 0) (hi : i < tableEntries) : target s t i = none := by
  have hzero : entry s (t * pageSize) i = entry { s with mem := fun _ => 0 } (t * pageSize) i := entry_congr h hi
  have hval : entry { s with mem := fun _ => 0 } (t * pageSize) i = 0 := by simp [entry, word]
  rw [target, hzero, hval]
  rfl

theorem user_lt (h : di < userTables) : di < tableEntries := h.trans (by decide)

theorem frameAt_table (h : di < userTables) : frameAt s d (.table di) = target s d di := if_pos h

theorem frameAt_page (h : di < userTables) (ht : target s d di = some t) (hi : pi < tableEntries) :
    frameAt s d (.page di pi) = target s t pi := by
  rw [frameAt, if_pos ⟨h, hi⟩, ht]
  rfl

theorem frameAt_page_none (ht : target s d di = none) : frameAt s d (.page di pi) = none := by
  rw [frameAt, ht]
  split <;> rfl

theorem table_of_page (h : frameAt s d (.page di pi) = some f) :
    di < userTables ∧ pi < tableEntries ∧ ∃ t, target s d di = some t ∧ target s t pi = some f := by
  rw [frameAt] at h
  split at h
  · rename_i hlt
    exact ⟨hlt.1, hlt.2, Option.bind_eq_some_iff.mp h⟩
  · cases h

theorem Space.dir_mem (h : Space s d F) : d ∈ F := h.owned (k := .dir) rfl

theorem Space.table_mem (h : Space s d F) (hdi : di < userTables) (ht : target s d di = some t) :
    t ∈ F := h.owned ((frameAt_table hdi).trans ht)

theorem Space.dir_ne_table (h : Space s d F) (hdi : di < userTables) (ht : target s d di = some t) : d ≠ t := by
  rintro rfl
  have hk : Slot.dir = .table di := h.inj rfl ((frameAt_table hdi).trans ht)
  cases hk

theorem Space.mono (h : Space s d F) (hF : F ⊆ F') : Space s d F' := ⟨fun hk => hF (h.owned hk), h.inj⟩

/-- The slots are read off the directory's and the tables' frames. -/
theorem frameAt_congr (hd : pool.cell s' d = pool.cell s d)
    (ht : ∀ di t, di < userTables → target s d di = some t → pool.cell s' t = pool.cell s t)
    (k : Slot) : frameAt s' d k = frameAt s d k := by
  have htable : ∀ di, di < userTables → target s' d di = target s d di := fun di hdi => target_congr hd (user_lt hdi)
  cases k with
  | dir => rfl
  | table di =>
    by_cases hdi : di < userTables
    · rw [frameAt_table hdi, frameAt_table hdi, htable di hdi]
    · rw [frameAt, frameAt, if_neg hdi, if_neg hdi]
  | page di pi =>
    by_cases hlt : di < userTables ∧ pi < tableEntries
    · rw [frameAt, frameAt, if_pos hlt, if_pos hlt, htable di hlt.1]
      cases htt : target s d di with
      | none => rfl
      | some t => exact target_congr (ht di t hlt.1 htt) hlt.2
    · rw [frameAt, frameAt, if_neg hlt, if_neg hlt]

theorem Space.frameAt_eq (h : Space s d F) (hF : ∀ f ∈ F, pool.cell s' f = pool.cell s f) (k : Slot) :
    frameAt s' d k = frameAt s d k :=
  frameAt_congr (hF d h.dir_mem) (fun _ t hdi ht => hF t (h.table_mem hdi ht)) k

theorem Space.congr (h : Space s d F) (hF : ∀ f ∈ F, pool.cell s' f = pool.cell s f) : Space s' d F := by
  have heq : frameAt s' d = frameAt s d := funext (h.frameAt_eq hF)
  refine ⟨fun hk => ?_, fun hk hk' => ?_⟩
  · rw [heq] at hk
    exact h.owned hk
  · rw [heq] at hk hk'
    exact h.inj hk hk'

/-- A directory without user tables. -/
theorem Space.empty (h : ∀ di < userTables, target s d di = none) : Space s d {d} := by
  have honly : ∀ {k f}, frameAt s d k = some f → k = .dir ∧ f = d := by
    intro k f hk
    cases k with
    | dir => exact ⟨rfl, (Option.some.inj hk).symm⟩
    | table di =>
      rw [frameAt] at hk
      split at hk
      · rw [h di ‹_›] at hk
        cases hk
      · cases hk
    | page di pi =>
      obtain ⟨hdi, _, t, ht, _⟩ := table_of_page hk
      rw [h di hdi] at ht
      cases ht
  exact ⟨fun hk => (honly hk).2, fun hk hk' => (honly hk).1.trans (honly hk').1.symm⟩

/-! ## 4. Writing an entry -/

/-- The frame an entry points to. -/
def entryFrame (e : Nat) : Option Nat := if present e then some (e / pageSize) else none

theorem target_setEntry_self (he : e < 2 ^ 32) : target (setEntry s (t * pageSize) i e) t i = entryFrame e := by
  rw [target, entry_setEntry_self he, entryFrame]

theorem target_setEntry_of_ne (hij : j ≠ i) : target (setEntry s (t * pageSize) i e) t j = target s t j := by
  rw [target, target, entry_setEntry_of_ne hij]

theorem target_setEntry_frame (hi : i < tableEntries) (hj : j < tableEntries) (hg : g ≠ t) :
    target (setEntry s (t * pageSize) i e) g j = target s g j :=
  target_congr (cell_setEntry hi hg) hj

section Entries

variable (h : Space s d F) (hdi : di < userTables)

include h hdi

/-- An entry of a table: one page changes. -/
theorem frameAt_setPte (ht : target s d di = some t)
    (hi : i < tableEntries) (he : e < 2 ^ 32) (k : Slot) :
    frameAt (setEntry s (t * pageSize) i e) d k = if k = .page di i then entryFrame e else frameAt s d k := by
  have hslot : frameAt s d (.table di) = some t := (frameAt_table hdi).trans ht
  have hdt : d ≠ t := h.dir_ne_table hdi ht
  have htable : ∀ dj, dj < userTables → target (setEntry s (t * pageSize) i e) d dj = target s d dj :=
    fun dj hdj => target_setEntry_frame hi (user_lt hdj) hdt
  cases k with
  | dir => rfl
  | table dj =>
    rw [if_neg (by simp)]
    by_cases hdj : dj < userTables
    · rw [frameAt_table hdj, frameAt_table hdj, htable dj hdj]
    · rw [frameAt, frameAt, if_neg hdj, if_neg hdj]
  | page dj pj =>
    by_cases hlt : dj < userTables ∧ pj < tableEntries
    · rw [frameAt, frameAt, if_pos hlt, if_pos hlt, htable dj hlt.1]
      cases htt : target s d dj with
      | none =>
        have hne : dj ≠ di := fun he' => by rw [he', ht] at htt; cases htt
        rw [if_neg (by simp [hne])]
        rfl
      | some t' =>
        dsimp only [Option.bind_some]
        by_cases heq : dj = di
        · subst heq
          cases ht.symm.trans htt
          by_cases hp : pj = i
          · rw [hp, if_pos rfl, target_setEntry_self he]
          · rw [if_neg (by simp [hp]), target_setEntry_of_ne hp]
        · have hne : t' ≠ t := fun he' => by
            have := h.inj ((frameAt_table hlt.1).trans htt) (he' ▸ hslot)
            exact heq (Slot.table.inj this)
          rw [if_neg (by simp [heq]), target_setEntry_frame hi hlt.2 hne]
    · have hne : Slot.page dj pj ≠ .page di i := by
        rintro ⟨⟩
        exact hlt ⟨hdi, hi⟩
      rw [if_neg hne, frameAt, frameAt, if_neg hlt, if_neg hlt]

/-- A page mapped or unmapped: a page that is mapped comes from outside. -/
theorem Space.setPte (ht : target s d di = some t)
    (hi : i < tableEntries) (he : e < 2 ^ 32) (hF : F ⊆ F')
    (hnew : ∀ g, entryFrame e = some g → g ∈ F' ∧ g ∉ F) :
    Space (setEntry s (t * pageSize) i e) d F' := by
  have hat := frameAt_setPte h hdi ht hi he
  refine ⟨fun {k f} hk => ?_, fun {k k' f} hk hk' => ?_⟩
  · rw [hat] at hk
    split at hk
    · exact (hnew f hk).1
    · exact hF (h.owned hk)
  · rw [hat] at hk hk'
    split at hk <;> split at hk'
    · exact (‹k = _›).trans (‹k' = _›).symm
    · exact absurd (h.owned hk') (hnew f hk).2
    · exact absurd (h.owned hk) (hnew f hk').2
    · exact h.inj hk hk'

/-- An entry of the directory: the table it points to comes in with its pages. -/
theorem frameAt_link (hnone : target s d di = none) (he : e < 2 ^ 32)
    (het : entryFrame e = some t) (htd : t ≠ d) {k : Slot}
    (hk : frameAt (setEntry s (d * pageSize) di e) d k = some f) :
    (k = .table di ∧ f = t) ∨ (∃ pi, k = .page di pi ∧ pi < tableEntries ∧ target s t pi = some f) ∨
      frameAt s d k = some f := by
  have hself : target (setEntry s (d * pageSize) di e) d di = some t := (target_setEntry_self he).trans het
  cases k with
  | dir => exact .inr (.inr hk)
  | table dj =>
    by_cases heq : dj = di
    · subst heq
      rw [frameAt_table hdi, hself] at hk
      exact .inl ⟨rfl, (Option.some.inj hk).symm⟩
    · rw [frameAt, target_setEntry_of_ne heq] at hk
      exact .inr (.inr hk)
  | page dj pj =>
    obtain ⟨hdj, hpj, t', ht', hp⟩ := table_of_page hk
    by_cases heq : dj = di
    · subst heq
      cases hself.symm.trans ht'
      rw [target_setEntry_frame (user_lt hdi) hpj htd] at hp
      exact .inr (.inl ⟨pj, rfl, hpj, hp⟩)
    · rw [target_setEntry_of_ne heq] at ht'
      rw [target_setEntry_frame (user_lt hdi) hpj (h.dir_ne_table hdj ht').symm] at hp
      exact .inr (.inr ((frameAt_page hdj ht' hpj).trans hp))

theorem Space.link (hnone : target s d di = none)
    (he : e < 2 ^ 32) (het : entryFrame e = some t) (hF : F ⊆ F') (ht : t ∈ F' ∧ t ∉ F)
    (hpages : ∀ pi f, pi < tableEntries → target s t pi = some f → f ∈ F' ∧ f ∉ F ∧ f ≠ t)
    (hinj : ∀ pi pj f, pi < tableEntries → pj < tableEntries → target s t pi = some f →
      target s t pj = some f → pi = pj) : Space (setEntry s (d * pageSize) di e) d F' := by
  have htd : t ≠ d := fun heq => ht.2 (heq ▸ h.dir_mem)
  have hat : ∀ {k f}, frameAt (setEntry s (d * pageSize) di e) d k = some f → _ :=
    fun hk => frameAt_link h hdi hnone he het htd hk
  refine ⟨fun {k f} hk => ?_, fun {k k' f} hk hk' => ?_⟩
  · rcases hat hk with ⟨_, rfl⟩ | ⟨pi, _, hpi, hp⟩ | hold
    · exact ht.1
    · exact (hpages pi f hpi hp).1
    · exact hF (h.owned hold)
  · rcases hat hk with ⟨rfl, rfl⟩ | ⟨pi, rfl, hpi, hp⟩ | hold <;>
      rcases hat hk' with ⟨rfl, heq⟩ | ⟨pj, rfl, hpj, hp'⟩ | hold'
    · rfl
    · exact absurd rfl (hpages pj _ hpj hp').2.2
    · exact absurd (h.owned hold') ht.2
    · exact absurd heq (hpages pi _ hpi hp).2.2
    · rw [hinj pi pj f hpi hpj hp hp']
    · exact absurd (h.owned hold') (hpages pi _ hpi hp).2.1
    · exact absurd (heq ▸ h.owned hold) ht.2
    · exact absurd (h.owned hold) (hpages pj _ hpj hp').2.1
    · exact h.inj hold hold'

end Entries

/-! ## 5. Entries made from a frame and flags -/

theorem or_flags (hx : x < pageSize) : f * pageSize ||| x = f * pageSize + x := by
  have h := Nat.two_pow_add_eq_or_of_lt (i := 12) hx f
  rw [show pageSize = 2 ^ 12 from rfl, Nat.mul_comm]
  exact h.symm

theorem flagBits_or (hx : x < pageSize) : flagBits (f * pageSize ||| x) = x := by
  have hx' : x < 4096 := hx
  rw [or_flags hx, flagBits, pageSize_eq]
  omega

theorem entryFrame_or {x : Nat} (hx : x < pageSize) (hp : present x = true) :
    entryFrame (f * pageSize ||| x) = some f := by
  have hx' : x < 4096 := hx
  rw [present, Nat.testBit_zero, decide_eq_true_eq] at hp
  have hodd : (f * 4096 + x) % 2 = 1 := by omega
  rw [entryFrame, or_flags hx, present, Nat.testBit_zero, pageSize_eq, if_pos (decide_eq_true hodd)]
  congr 1
  omega

theorem or_lt (hf : f < bitmapBits) (hx : x < pageSize) : f * pageSize ||| x < 2 ^ 32 := by
  have hx' : x < 4096 := hx
  have hf' : f < 262144 := hf
  rw [or_flags hx, pageSize_eq]
  omega

theorem free_lt (h : f ∈ pool.free s) : f < bitmapBits := (mem_freePages.mp (mem_free.mp h)).1

theorem flagBits_lt (e : Nat) : flagBits e < pageSize := Nat.mod_lt _ (by decide)

theorem present_flagBits (e : Nat) : present (flagBits e) = present e := by
  rw [present, present, Nat.testBit_zero, Nat.testBit_zero, flagBits, pageSize_eq]
  congr 2
  omega

theorem pteAddr_eq (e : Nat) : pteAddr e = e / pageSize * pageSize := rfl

theorem target_some (h : target s t i = some f) :
    present (entry s (t * pageSize) i) = true ∧ pteAddr (entry s (t * pageSize) i) = f * pageSize := by
  rw [target] at h
  split at h
  · rename_i hp
    cases h
    exact ⟨hp, rfl⟩
  · cases h

theorem target_none : target s t i = none ↔ present (entry s (t * pageSize) i) = false := by
  rw [target]
  split <;> simp_all

end OreUnix.Vmm
