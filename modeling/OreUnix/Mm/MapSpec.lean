/-
  Subject: WHAT A MAPPING DOES, EXACTLY: one page of a user address space is mapped or unmapped.

  * `PageMapped` -- the page leads to a new zero frame, its table was there or is new, and every other place of the
    address space is as it was;
  * `mapFresh_cases` -- a fresh page is mapped, or there is no frame for it, or, with the page's frame already taken,
    none for its table;
  * `munmapPage_some`, `munmapPage_none` -- a page is unmapped and its frame given back, or there is none.
-/
import OreUnix.Mm.SpaceOps

namespace OreUnix.Vmm

open ByteMem Pmm Bitmap FramePool

variable {s s' : Vm} {d t u f g i di va : Nat} {F N : Set Nat}

/-! ## 1. `map_page` -/

/-- The entry `map_page` writes. -/
def pageEntry (g flags : Nat) : Nat := g * pageSize ||| pteFlags flags

theorem pageEntry_lt (hg : g < bitmapBits) (flags : Nat) : pageEntry g flags < 2 ^ 32 :=
  or_lt hg (pteFlags_bits flags).1

theorem entryFrame_page (g flags : Nat) : entryFrame (pageEntry g flags) = some g :=
  entryFrame_or (pteFlags_bits flags).1 (pteFlags_bits flags).2

/-- The directory entry of a new table. -/
def tableEntry (u : Nat) : Nat := u * pageSize ||| tableFlags

theorem tableEntry_lt (hu : u < bitmapBits) : tableEntry u < 2 ^ 32 := or_lt hu (by decide)

theorem entryFrame_table (u : Nat) : entryFrame (tableEntry u) = some u := entryFrame_or (by decide) (by decide)

theorem mapPage_some (ht : target s d (pdIndex va) = some t) (flags : Nat) :
    mapPage (d * pageSize) va (g * pageSize) flags s =
      (0, setEntry s (t * pageSize) (ptIndex va) (pageEntry g flags)) := by
  rw [mapPage, getPte_some true ht]
  dsimp only
  rw [pteAddr_frame]
  rfl

/-- Without a table `map_page` makes one and enters the page there. -/
theorem mapPage_new (ht : target s d (pdIndex va) = none) (hu : s.allocZero.1 = u * pageSize) (hu0 : u ≠ 0)
    (flags : Nat) : mapPage (d * pageSize) va (g * pageSize) flags s =
      (0, setEntry (setEntry s.allocZero.2 (d * pageSize) (pdIndex va) (tableEntry u)) (u * pageSize) (ptIndex va)
        (pageEntry g flags)) := by
  have hne : u * pageSize ≠ 0 := addr_ne ‹_›
  rw [mapPage, getPte_create ht, hu, if_neg hne]
  dsimp only
  rw [pteAddr_frame]
  rfl

theorem mapPage_fail (ht : target s d (pdIndex va) = none) (h0 : s.allocZero.1 = 0) (flags : Nat) :
    mapPage (d * pageSize) va (g * pageSize) flags s = (-ENOMEM, s.allocZero.2) := by
  rw [mapPage, getPte_create ht, if_pos h0]

/-! ## 2. A page mapped -/

/-- The place of the page of `va`. -/
def pageSlot (va : Nat) : Slot := .page (pdIndex va) (ptIndex va)

/-- A new empty table: one place more. -/
theorem frameAt_newTable (hdi : di < userTables) (hnone : target s d di = none) (hud : u ≠ d)
    (hempty : ∀ i < tableEntries, target s u i = none)
    (htables : ∀ dj t, dj < userTables → target s d dj = some t → t ≠ d)
    (hlt : u < bitmapBits) (k : Slot) :
    frameAt (setEntry s (d * pageSize) di (tableEntry u)) d k = if k = .table di then some u else frameAt s d k := by
  have hself : target (setEntry s (d * pageSize) di (tableEntry u)) d di = some u :=
    (target_setEntry_self (tableEntry_lt hlt)).trans (entryFrame_table u)
  cases k with
  | dir => rfl
  | table dj =>
    by_cases heq : dj = di
    · rw [heq, if_pos rfl, frameAt_table hdi, hself]
    · have hne : Slot.table dj ≠ .table di := fun h => heq (Slot.table.inj h)
      rw [if_neg hne, frameAt, frameAt, target_setEntry_of_ne heq]
  | page dj pj =>
    rw [if_neg (by simp)]
    by_cases hlt' : dj < userTables ∧ pj < tableEntries
    · rw [frameAt, frameAt, if_pos hlt', if_pos hlt']
      by_cases heq : dj = di
      · rw [heq, hself, hnone, Option.bind_some, target_setEntry_frame (user_lt hdi) hlt'.2 hud]
        exact hempty pj hlt'.2
      · rw [target_setEntry_of_ne heq]
        cases ht : target s d dj with
        | none => rfl
        | some t => exact target_setEntry_frame (user_lt hdi) hlt'.2 (htables dj t hlt'.1 ht)
    · rw [frameAt, frameAt, if_neg hlt', if_neg hlt']

/-- The page of `va` leads to the new frame `g`; the frames taken are `N`, and every other place is as it was, but for
    a table that was missing. -/
structure PageMapped (s : Vm) (d va g : Nat) (N : Set Nat) (s' : Vm) : Prop where
  takes : Takes pool {f | f = d ∨ target s d (pdIndex va) = some f} N s s'
  new : g ∈ N
  zero : pool.cell s' g = fun _ => 0
  page : frameAt s' d (pageSlot va) = some g
  rest : ∀ k, k ≠ pageSlot va → k ≠ .table (pdIndex va) → frameAt s' d k = frameAt s d k
  entries : ∀ di < tableEntries, di ≠ pdIndex va → entry s' (d * pageSize) di = entry s (d * pageSize) di
  table : (N = {g} ∧ (target s d (pdIndex va)).isSome ∧ target s' d (pdIndex va) = target s d (pdIndex va)) ∨
    ∃ u, N = {g} ∪ {u} ∧ u ≠ g ∧ target s d (pdIndex va) = none ∧ target s' d (pdIndex va) = some u

section Fresh

variable (h : Space s d F) (hF : ∀ f ∈ F, f ∉ pool.free s) (hva : va < kernelVirtBase)

include h hF hva

/-- A page entered in a table that is there. -/
theorem PageMapped.entered
    (ht : target s d (pdIndex va) = some t) (htake : Takes pool ∅ {g} s s') (hzero : pool.cell s' g = fun _ => 0)
    (flags : Nat) :
    PageMapped s d va g {g} (setEntry s' (t * pageSize) (ptIndex va) (pageEntry g flags)) := by
  have hdi := pdIndex_lt hva
  have hgfree := htake.was_free g rfl
  have hsame : ∀ f ∈ F, pool.cell s' f = pool.cell s f := fun f hf => htake.keeps (hF f hf)
  have h' : Space s' d F := h.congr hsame
  have ht' : target s' d (pdIndex va) = some t := (target_congr (hsame d h.dir_mem) (user_lt hdi)).trans ht
  have hgt : g ≠ t := fun heq => hF t (h.table_mem hdi ht) (heq ▸ hgfree)
  have hat := frameAt_setPte h' hdi ht' (ptIndex_lt va) (pageEntry_lt (free_lt hgfree) flags)
  refine ⟨?_, rfl, ?_, ?_, fun k hk _ => ?_, fun dj hdj _ => ?_, .inl ⟨rfl, by rw [ht]; rfl, ?_⟩⟩
  · have hwrite := (htake.mono (Set.empty_subset {t})).trans
      ((write_setEntry (s := s') (f := t) (e := pageEntry g flags) (ptIndex_lt va)).mono Set.subset_union_left)
    rw [Set.union_empty] at hwrite
    exact hwrite.mono fun f hf => .inr (Set.mem_singleton_iff.mp hf ▸ ht)
  · rw [cell_setEntry (ptIndex_lt va) hgt]
    exact hzero
  · rw [hat, pageSlot, if_pos rfl, entryFrame_page]
  · have hk' : k ≠ .page (pdIndex va) (ptIndex va) := hk
    rw [hat, if_neg hk', h.frameAt_eq hsame]
  · rw [entry_congr (cell_setEntry (ptIndex_lt va) (h.dir_ne_table hdi ht)) hdj, entry_congr (hsame d h.dir_mem) hdj]
  · rw [target_setEntry_frame (ptIndex_lt va) (user_lt hdi) (h.dir_ne_table hdi ht), ht', ht]

/-- A page entered in a new table. -/
theorem PageMapped.withTable {s1 s2 : Vm}
    (ht : target s d (pdIndex va) = none) (htake : Takes pool ∅ {g} s s1) (hzero : pool.cell s1 g = fun _ => 0)
    (htake' : Takes pool ∅ {u} s1 s2) (hzero' : pool.cell s2 u = fun _ => 0) (flags : Nat) :
    PageMapped s d va g ({g} ∪ {u}) (setEntry (setEntry s2 (d * pageSize) (pdIndex va) (tableEntry u)) (u * pageSize)
      (ptIndex va) (pageEntry g flags)) := by
  have hdi := pdIndex_lt hva
  have hgfree := htake.was_free g rfl
  have hufree1 := htake'.was_free u rfl
  have hufree : u ∈ pool.free s := ((htake.free_iff u).mp hufree1).1
  have hug : u ≠ g := ((htake.free_iff u).mp hufree1).2
  have hboth : Takes pool ∅ ({g} ∪ {u}) s s2 := htake.trans (htake'.mono (Set.empty_subset _))
  have hsame : ∀ f ∈ F, pool.cell s2 f = pool.cell s f := fun f hf => hboth.keeps (hF f hf)
  have h2 : Space s2 d F := h.congr hsame
  have hd := h.dir_mem
  have hud : u ≠ d := fun heq => hF d hd (heq ▸ hufree)
  have hgd : g ≠ d := fun heq => hF d hd (heq ▸ hgfree)
  have ht2 : target s2 d (pdIndex va) = none := (target_congr (hsame d hd) (user_lt hdi)).trans ht
  have hat3 := frameAt_newTable hdi ht2 hud (fun i hi => target_zero hzero' hi)
    (fun dj t hdj htj => (h2.dir_ne_table hdj htj).symm) (free_lt hufree)
  have hself : target (setEntry s2 (d * pageSize) (pdIndex va) (tableEntry u)) d (pdIndex va) = some u :=
    (target_setEntry_self (tableEntry_lt (free_lt hufree))).trans (entryFrame_table u)
  have h3 : Space (setEntry s2 (d * pageSize) (pdIndex va) (tableEntry u)) d (F ∪ {u}) := by
    refine ⟨fun {k f} hk => ?_, fun {k k' f} hk hk' => ?_⟩
    · rw [hat3] at hk
      split at hk
      · exact .inr (Option.some.inj hk).symm
      · exact .inl (h2.owned hk)
    · have huF : ∀ {k}, frameAt s2 d k ≠ some u := fun hk => hF u (h2.owned hk) hufree
      rw [hat3] at hk hk'
      split at hk <;> split at hk'
      · exact (‹k = _›).trans (‹k' = _›).symm
      · exact absurd ((Option.some.inj hk).symm ▸ hk') huF
      · exact absurd ((Option.some.inj hk').symm ▸ hk) huF
      · exact h2.inj hk hk'
  have hat := frameAt_setPte h3 hdi hself (ptIndex_lt va) (pageEntry_lt (free_lt hgfree) flags)
  refine ⟨⟨hboth.was_free, hboth.free_iff, fun f hf hfN => ?_⟩, .inl rfl, ?_, ?_, fun k hk hk' => ?_,
    fun dj hdj hne => ?_, .inr ⟨u, rfl, hug, ht, ?_⟩⟩
  · have hfd : f ≠ d := fun heq => hf (.inl heq)
    have hfu : f ≠ u := fun heq => hfN (.inr heq)
    rw [cell_setEntry (ptIndex_lt va) hfu, cell_setEntry (user_lt hdi) hfd]
    exact hboth.stays hfN
  · rw [cell_setEntry (ptIndex_lt va) (Ne.symm hug), cell_setEntry (user_lt hdi) hgd]
    exact (htake'.stays (Ne.symm hug)).trans hzero
  · rw [hat, pageSlot, if_pos rfl, entryFrame_page]
  · have hslot : k ≠ .page (pdIndex va) (ptIndex va) := hk
    rw [hat, if_neg hslot, hat3, if_neg hk', h.frameAt_eq hsame]
  · rw [entry_congr (cell_setEntry (ptIndex_lt va) (Ne.symm hud)) hdj, entry_setEntry_of_ne hne,
      entry_congr (hsame d hd) hdj]
  · rw [target_setEntry_frame (ptIndex_lt va) (user_lt hdi) (Ne.symm hud)]
    exact hself

/-- **A fresh page at `va`**: mapped; or there is no frame; or there is one for the page and none for the table it
    needs, and the page's frame is taken for nothing. -/
theorem mapFresh_cases (flags : Nat) : (s.allocZero.1 = 0 ∧ (0 ∉ pool.free s → pool.free s = ∅) ∧
        ∃ N ⊆ {0}, Takes pool ∅ N s (mapFresh (d * pageSize) va flags s)) ∨
      (∃ g N, s.allocZero.1 = g * pageSize ∧ g ≠ 0 ∧ PageMapped s d va g N (mapFresh (d * pageSize) va flags s)) ∨
      (s.allocZero.1 ≠ 0 ∧ target s d (pdIndex va) = none ∧
        (0 ∉ pool.free s → pool.free (mapFresh (d * pageSize) va flags s) = ∅) ∧
        ∃ g N, N ⊆ {0} ∧ Takes pool ∅ ({g} ∪ N) s (mapFresh (d * pageSize) va flags s)) := by
  unfold mapFresh
  rcases allocZero_cases s with ⟨N, hN, h0, htake, hnone⟩ | ⟨g, hg0, hg, htake, hzero⟩
  · rw [if_pos h0]
    exact .inl ⟨h0, hnone, N, hN, htake⟩
  · have hne : g * pageSize ≠ 0 := addr_ne ‹_›
    have hd : pool.cell s.allocZero.2 d = pool.cell s d := htake.keeps (hF d h.dir_mem)
    have htar : target s.allocZero.2 d (pdIndex va) = target s d (pdIndex va) :=
      target_congr hd (user_lt (pdIndex_lt hva))
    rw [hg, if_neg hne]
    cases ht : target s d (pdIndex va) with
    | some t =>
      rw [mapPage_some (htar.trans ht)]
      exact .inr (.inl ⟨g, {g}, rfl, hg0, .entered h hF hva ht htake hzero flags⟩)
    | none =>
      rcases allocZero_cases s.allocZero.2 with ⟨N, hN, h0, htake', hnone⟩ | ⟨u, hu0, hu, htake', hzero'⟩
      · rw [mapPage_fail (htar.trans ht) h0]
        refine .inr (.inr ⟨hne, rfl, fun hz => ?_, g, N, hN, htake.trans (htake'.mono (Set.empty_subset _))⟩)
        have hempty := hnone (htake.used hz)
        refine Set.eq_empty_of_forall_notMem fun f hf => ?_
        have hf' := ((htake'.free_iff f).mp hf).1
        rw [hempty] at hf'
        exact hf'
      · rw [mapPage_new (htar.trans ht) hu hu0]
        exact .inr (.inl ⟨g, _, rfl, hg0, .withTable h hF hva ht htake hzero htake' hzero' flags⟩)

end Fresh

/-- What is where afterwards. -/
theorem PageMapped.slot (h : PageMapped s d va g N s') (hva : va < kernelVirtBase) {k : Slot}
    (hk : frameAt s' d k = some f) :
    (k = pageSlot va ∧ f = g) ∨ (k = .table (pdIndex va) ∧ f ∈ N ∧ f ≠ g) ∨
      (k ≠ pageSlot va ∧ frameAt s d k = some f) := by
  by_cases hpage : k = pageSlot va
  · rw [hpage, h.page] at hk
    exact .inl ⟨hpage, (Option.some.inj hk).symm⟩
  · by_cases htable : k = .table (pdIndex va)
    · rw [htable, frameAt_table (pdIndex_lt hva)] at hk
      rcases h.table with ⟨_, _, hsame⟩ | ⟨u, hN, hug, _, hu⟩
      · rw [hsame] at hk
        exact .inr (.inr ⟨hpage, by rw [htable, frameAt_table (pdIndex_lt hva)]; exact hk⟩)
      · rw [hu] at hk
        have hf : f = u := (Option.some.inj hk).symm
        exact .inr (.inl ⟨htable, by rw [hN, hf]; exact .inr rfl, hf ▸ hug⟩)
    · rw [h.rest k hpage htable] at hk
      exact .inr (.inr ⟨hpage, hk⟩)

/-- What was where stays there, but for the page itself. -/
theorem PageMapped.stays (h : PageMapped s d va g N s') (hva : va < kernelVirtBase) {k : Slot}
    (hk : frameAt s d k = some f) (hne : k ≠ pageSlot va) : frameAt s' d k = some f := by
  by_cases htable : k = .table (pdIndex va)
  · rw [htable, frameAt_table (pdIndex_lt hva)] at hk ⊢
    rcases h.table with ⟨_, _, hsame⟩ | ⟨u, _, _, hnone, _⟩
    · exact hsame.trans hk
    · rw [hnone] at hk
      cases hk
  · exact (h.rest k hne htable).trans hk

/-- The frames taken are in their places. -/
theorem PageMapped.placed (h : PageMapped s d va g N s') (hva : va < kernelVirtBase) (hf : f ∈ N) :
    f ∈ spaceFrames s' d := by
  rcases h.table with ⟨hN, _⟩ | ⟨u, hN, _, _, hu⟩
  · rw [hN] at hf
    exact ⟨pageSlot va, Set.mem_singleton_iff.mp hf ▸ h.page⟩
  · rw [hN] at hf
    rcases hf with hf | hf
    · exact ⟨pageSlot va, Set.mem_singleton_iff.mp hf ▸ h.page⟩
    · refine ⟨.table (pdIndex va), (frameAt_table (pdIndex_lt hva)).trans ?_⟩
      rw [Set.mem_singleton_iff.mp hf]
      exact hu

theorem PageMapped.space (h : PageMapped s d va g N s') (hs : Space s d F) (hF : ∀ f ∈ F, f ∉ pool.free s)
    (hva : va < kernelVirtBase) : Space s' d (F ∪ N) := by
  have hold : ∀ {k f}, frameAt s d k = some f → f ∉ N := fun hk hf => hF _ (hs.owned hk) (h.takes.was_free _ hf)
  refine ⟨fun {k f} hk => ?_, fun {k k' f} hk hk' => ?_⟩
  · rcases h.slot hva hk with ⟨_, rfl⟩ | ⟨_, hf, _⟩ | ⟨_, hk⟩
    · exact .inr h.new
    · exact .inr hf
    · exact .inl (hs.owned hk)
  · rcases h.slot hva hk with ⟨hk1, hf⟩ | ⟨hk1, hf, hne⟩ | ⟨_, hk1⟩ <;>
      rcases h.slot hva hk' with ⟨hk2, hf'⟩ | ⟨hk2, hf', hne'⟩ | ⟨_, hk2⟩
    · exact hk1.trans hk2.symm
    · exact absurd hf hne'
    · exact absurd (hf ▸ h.new) (hold hk2)
    · exact absurd hf' hne
    · exact hk1.trans hk2.symm
    · exact absurd hf (hold hk2)
    · exact absurd (hf' ▸ h.new) (hold hk1)
    · exact absurd hf' (hold hk1)
    · exact hs.inj hk1 hk2

/-! ## 3. A page unmapped -/

theorem munmapPage_none (h : frameAt s d (pageSlot va) = none) (hva : va < kernelVirtBase) :
    munmapPage (d * pageSize) va s = s := by
  have hnone : (target s d (pdIndex va)).bind (target s · (ptIndex va)) = none := by
    rw [pageSlot, frameAt, if_pos ⟨pdIndex_lt hva, ptIndex_lt va⟩] at h
    exact h
  unfold munmapPage
  rw [virtToPhysPd_none hnone, if_neg (by decide), unmapPage_none hnone]

/-- What is written: the frame is given back and its entry cleared. -/
theorem munmapPage_eq (ht : target s d (pdIndex va) = some t) (hpage : target s t (ptIndex va) = some f) (hf : Real f) :
    munmapPage (d * pageSize) va s = setEntry (s.free (f * pageSize)) (t * pageSize) (ptIndex va) 0 := by
  have hne : f * pageSize ||| va % pageSize ≠ 0 := by
    have h0 := hf.1
    rw [or_flags (Nat.mod_lt _ (by decide)), pageSize_eq]
    omega
  unfold munmapPage
  rw [virtToPhysPd_some ht hpage, if_pos hne, pteAddr_or (Nat.mod_lt _ (by decide)),
    unmapPage_some (s := s.free (f * pageSize)) ht hpage]

/-- **A page unmapped**: its frame is free again and its place empty. -/
theorem munmapPage_some (hs : Space s d F) (h : frameAt s d (pageSlot va) = some f)
    (hf : Real f) :
    (∀ g, g ∈ pool.free (munmapPage (d * pageSize) va s) ↔ g ∈ pool.free s ∨ g = f) ∧
      ∀ k, frameAt (munmapPage (d * pageSize) va s) d k = if k = pageSlot va then none else frameAt s d k := by
  obtain ⟨hdi, hpi, t, ht, hpage⟩ := table_of_page h
  have hs' : Space (s.free (f * pageSize)) d F := hs.congr fun _ _ => rfl
  rw [munmapPage_eq ht hpage hf]
  refine ⟨fun g => ?_, fun k => ?_⟩
  · refine ((free_gives s f).free_iff g).trans (or_congr_right ⟨fun hg => hg.1, fun hg => ⟨hg, hf⟩⟩)
  · exact frameAt_setPte hs' hdi ht hpi (by decide) k

end OreUnix.Vmm
