/-
  Subject: A DIRECTORY AS A MAP FROM PAGES TO ENTRIES: what is read through the tables is what was written last.

  The two levels of a directory stand for one flat map from page numbers to entries (`pteOf`), of all 2^20 pages, the
  kernel's included. It is read off tables that share no frame (`Tables`).

  * `virtToPhysPd_eq` -- a translation is a reading of the flat map;
  * `mapPage_pte`, `unmapPage_pte` -- one entry of the flat map is written, also when its table is new, or nothing is;
  * `mapEach_pte`, `unmapEach_pte` -- the loops, by induction on the pages left;
  * `translation_of_last_write` -- the translations afterwards.
-/
import OreUnix.Mm.MapSpec
import OreUnix.Mm.Isolation

namespace OreUnix.Vmm

open ByteMem Pmm Bitmap FramePool

variable {s s' : Vm} {d t u f i e n va pa di dj : Nat}

/-! ## 1. The flat map -/

/-- The entry of page number `n`; 0 where there is no table. -/
def pteOf (s : Vm) (d n : Nat) : Nat :=
  ((target s d (n / tableEntries)).map fun t => entry s (t * pageSize) (n % tableEntries)).getD 0

/-- The number of pages of the address space. -/
def pageNumbers : Nat := 2 ^ 20

/-- The tables of a directory are distinct frames, none of them free and none the directory's own. -/
structure Tables (s : Vm) (d : Nat) : Prop where
  dir : d ∉ pool.free s
  apart : ∀ {di t}, di < tableEntries → target s d di = some t → t ≠ d ∧ t ∉ pool.free s
  inj : ∀ {di dj t}, di < tableEntries → dj < tableEntries → target s d di = some t →
    target s d dj = some t → di = dj

theorem pteOf_some (ht : target s d (n / tableEntries) = some t) :
    pteOf s d n = entry s (t * pageSize) (n % tableEntries) := by
  rw [pteOf, ht]
  rfl

theorem pteOf_none (ht : target s d (n / tableEntries) = none) : pteOf s d n = 0 := by
  rw [pteOf, ht]
  rfl

theorem pdIndex_page (va : Nat) : pdIndex va = va / pageSize / tableEntries := by
  rw [Nat.div_div_eq_div_mul]
  rfl

theorem ptIndex_page (va : Nat) : ptIndex va = va / pageSize % tableEntries := rfl

theorem table_lt (h : n < pageNumbers) : n / tableEntries < tableEntries := by
  have h : n < 1048576 := h
  have he : tableEntries = 1024 := rfl
  rw [he]
  omega

theorem number_eq (hi : i < tableEntries) :
    n = di * tableEntries + i ↔ n / tableEntries = di ∧ n % tableEntries = i := by
  have hi : i < 1024 := hi
  have he : tableEntries = 1024 := rfl
  rw [he]
  omega

theorem page_number_lt (h : va < 2 ^ 32) : va / pageSize < pageNumbers := by
  have hp : pageNumbers = 1048576 := rfl
  rw [hp, pageSize_eq]
  omega

/-- **A translation reads the flat map.** -/
theorem virtToPhysPd_eq (d va : Nat) (s : Vm) : virtToPhysPd (d * pageSize) va s =
    if present (pteOf s d (va / pageSize)) then pteAddr (pteOf s d (va / pageSize)) ||| va % pageSize else 0 := by
  have hpd := pdIndex_page va
  cases ht : target s d (va / pageSize / tableEntries) with
  | none =>
    rw [pteOf_none ht, virtToPhysPd, getPte_none (by rw [hpd]; exact ht)]
    rfl
  | some t =>
    rw [pteOf_some ht, virtToPhysPd, getPte_some false (by rw [hpd]; exact ht)]
    rfl

theorem virtToPhysPd_congr (h : pteOf s' d (va / pageSize) = pteOf s d (va / pageSize)) :
    virtToPhysPd (d * pageSize) va s' = virtToPhysPd (d * pageSize) va s := by
  rw [virtToPhysPd_eq, virtToPhysPd_eq, h]

/-! ## 2. One entry written -/

/-- Nothing the map is read off was touched. -/
theorem Tables.taken (h : Tables s d) {N : Set Nat} (htake : Takes pool ∅ N s s') :
    Tables s' d ∧ (∀ n < pageNumbers, pteOf s' d n = pteOf s d n) ∧
      ∀ di < tableEntries, target s' d di = target s d di := by
  have hkeep : ∀ f, f ∉ pool.free s → f ∉ pool.free s' ∧ pool.cell s' f = pool.cell s f := fun f hf =>
    ⟨htake.used hf, htake.keeps hf⟩
  have htar : ∀ di < tableEntries, target s' d di = target s d di := fun di hdi => target_congr (hkeep d h.dir).2 hdi
  refine ⟨⟨(hkeep d h.dir).1, fun hdi ht => ?_, fun hdi hdj ht ht' => ?_⟩, fun n hn => ?_, htar⟩
  · rw [htar _ hdi] at ht
    exact ⟨(h.apart hdi ht).1, (hkeep _ (h.apart hdi ht).2).1⟩
  · rw [htar _ hdi] at ht
    rw [htar _ hdj] at ht'
    exact h.inj hdi hdj ht ht'
  · have hdi := table_lt hn
    cases ht : target s d (n / tableEntries) with
    | none => rw [pteOf_none ht, pteOf_none ((htar _ hdi).trans ht)]
    | some t =>
      rw [pteOf_some ht, pteOf_some ((htar _ hdi).trans ht)]
      exact entry_congr (hkeep t (h.apart hdi ht).2).2 (Nat.mod_lt _ (by decide))

/-- An entry of a table is written: one page of the map changes. -/
theorem Tables.setPte (h : Tables s d) (hdi : di < tableEntries) (ht : target s d di = some t)
    (hi : i < tableEntries) (he : e < 2 ^ 32) :
    Tables (setEntry s (t * pageSize) i e) d ∧ ∀ n < pageNumbers, pteOf (setEntry s (t * pageSize) i e) d n =
        if n = di * tableEntries + i then e else pteOf s d n := by
  have htd : d ≠ t := (h.apart hdi ht).1.symm
  have htar : ∀ dj < tableEntries, target (setEntry s (t * pageSize) i e) d dj = target s d dj :=
    fun dj hdj => target_setEntry_frame hi hdj htd
  refine ⟨⟨h.dir, fun hdj ht' => ?_, fun hdj hdk ht' ht'' => ?_⟩, fun n hn => ?_⟩
  · rw [htar _ hdj] at ht'
    exact h.apart hdj ht'
  · rw [htar _ hdj] at ht'
    rw [htar _ hdk] at ht''
    exact h.inj hdj hdk ht' ht''
  · have hdj := table_lt hn
    have hnum := @number_eq i n di hi
    cases ht' : target s d (n / tableEntries) with
    | none =>
      have hne : n ≠ di * tableEntries + i := fun heq => by
        rw [(hnum.mp heq).1, ht] at ht'
        cases ht'
      rw [if_neg hne, pteOf_none ht', pteOf_none ((htar _ hdj).trans ht')]
    | some t' =>
      rw [pteOf_some ht', pteOf_some ((htar _ hdj).trans ht')]
      by_cases heq : t' = t
      · subst heq
        have hdiv := h.inj hdj hdi ht' ht
        by_cases hmod : n % tableEntries = i
        · rw [if_pos (hnum.mpr ⟨hdiv, hmod⟩), hmod, entry_setEntry_self he]
        · rw [if_neg fun hn' => hmod (hnum.mp hn').2, entry_setEntry_of_ne hmod]
      · have hne : n ≠ di * tableEntries + i := fun hn' => by
          rw [(hnum.mp hn').1, ht] at ht'
          exact heq (Option.some.inj ht').symm
        rw [if_neg hne]
        exact entry_congr (cell_setEntry hi heq) (Nat.mod_lt _ (by decide))

/-- A zeroed table is entered: the map is as before. -/
theorem Tables.link (h : Tables s d) (hdi : di < tableEntries) (hnone : target s d di = none)
    (hu : u ∉ pool.free s) (hud : u ≠ d) (hold : ∀ dj < tableEntries, target s d dj ≠ some u)
    (hzero : pool.cell s u = fun _ => 0) (hlt : u < bitmapBits) :
    Tables (setEntry s (d * pageSize) di (tableEntry u)) d ∧
      target (setEntry s (d * pageSize) di (tableEntry u)) d di = some u ∧
      ∀ n < pageNumbers, pteOf (setEntry s (d * pageSize) di (tableEntry u)) d n = pteOf s d n := by
  have hself : target (setEntry s (d * pageSize) di (tableEntry u)) d di = some u :=
    (target_setEntry_self (tableEntry_lt hlt)).trans (entryFrame_table u)
  have htar : ∀ dj, dj ≠ di → target (setEntry s (d * pageSize) di (tableEntry u)) d dj = target s d dj :=
    fun dj hne => target_setEntry_of_ne hne
  have hcell : ∀ g, g ≠ d → pool.cell (setEntry s (d * pageSize) di (tableEntry u)) g = pool.cell s g :=
    fun g hg => cell_setEntry hdi hg
  refine ⟨⟨h.dir, fun {dj t} hdj ht => ?_, fun {dj dk t} hdj hdk ht ht' => ?_⟩, hself, fun n hn => ?_⟩
  · by_cases heq : dj = di
    · rw [heq, hself] at ht
      cases ht
      exact ⟨hud, hu⟩
    · rw [htar dj heq] at ht
      exact h.apart hdj ht
  · by_cases hj : dj = di <;> by_cases hk : dk = di
    · rw [hj, hk]
    · rw [hj, hself] at ht
      rw [htar dk hk] at ht'
      exact absurd (ht'.trans ht.symm) (hold dk hdk)
    · rw [hk, hself] at ht'
      rw [htar dj hj] at ht
      exact absurd (ht.trans ht'.symm) (hold dj hdj)
    · rw [htar dj hj] at ht
      rw [htar dk hk] at ht'
      exact h.inj hdj hdk ht ht'
  · have hmod : n % tableEntries < tableEntries := Nat.mod_lt _ (by decide)
    by_cases heq : n / tableEntries = di
    · -- every entry of the new table is 0, as is what a missing table reads as
      have hzero' : entry (setEntry s (d * pageSize) di (tableEntry u)) (u * pageSize) (n % tableEntries) =
          entry { s with mem := fun _ => 0 } (u * pageSize) (n % tableEntries) :=
        entry_congr ((hcell u hud).trans hzero) hmod
      rw [pteOf_some (by rw [heq]; exact hself), @pteOf_none s d n (by rw [heq]; exact hnone), hzero']
      simp [entry, word]
    · cases ht : target s d (n / tableEntries) with
      | none => rw [pteOf_none ht, pteOf_none ((htar _ heq).trans ht)]
      | some t =>
        rw [pteOf_some ht, pteOf_some ((htar _ heq).trans ht)]
        exact entry_congr (hcell t (h.apart (table_lt hn) ht).1) hmod

/-! ## 3. `map_page` and `unmap_page` -/

theorem pte_word (hpa : pa < 2 ^ 32) (flags : Nat) : pteAddr pa ||| pteFlags flags < 2 ^ 32 := by
  have hx := (pteFlags_bits flags).1
  have hx' : pteFlags flags < 4096 := hx
  rw [pteAddr_eq, or_flags hx, pageSize_eq]
  omega

theorem slot_number (va : Nat) : pdIndex va * tableEntries + ptIndex va = va / pageSize := by
  rw [pdIndex_page, ptIndex_page, Nat.mul_comm]
  exact Nat.div_add_mod _ _

/-- **`map_page`** writes one entry of the map, or there is no frame for a table and the map is as it was. -/
theorem mapPage_pte (h : Tables s d) (hva : va < 2 ^ 32) (hpa : pa < 2 ^ 32) (flags : Nat) :
    Tables (mapPage (d * pageSize) va pa flags s).2 d ∧
      (((mapPage (d * pageSize) va pa flags s).1 = 0 ∧ ∀ n < pageNumbers,
          pteOf (mapPage (d * pageSize) va pa flags s).2 d n =
            if n = va / pageSize then pteAddr pa ||| pteFlags flags else pteOf s d n) ∨
        ((mapPage (d * pageSize) va pa flags s).1 = -ENOMEM ∧ ∀ n < pageNumbers,
          pteOf (mapPage (d * pageSize) va pa flags s).2 d n = pteOf s d n)) := by
  have hdi : pdIndex va < tableEntries := by
    rw [pdIndex_page]
    exact table_lt (page_number_lt hva)
  have hnum := slot_number va
  unfold mapPage
  cases ht : target s d (pdIndex va) with
  | some t =>
    rw [getPte_some true ht]
    obtain ⟨htab, hpte⟩ := h.setPte hdi ht (ptIndex_lt va) (pte_word hpa flags)
    rw [hnum] at hpte
    exact ⟨htab, .inl ⟨rfl, hpte⟩⟩
  | none =>
    rw [getPte_create ht]
    rcases allocZero_cases s with ⟨N, _, h0, htake, _⟩ | ⟨u, hu0, hu, htake, hzero⟩
    · rw [if_pos h0]
      obtain ⟨htab, hpte, _⟩ := h.taken htake
      exact ⟨htab, .inr ⟨rfl, hpte⟩⟩
    · have hne : s.allocZero.1 ≠ 0 := by
        rw [hu, pageSize_eq]
        omega
      have hufree := htake.was_free u rfl
      obtain ⟨htab, hpte, htar⟩ := h.taken htake
      rw [if_neg hne, hu]
      obtain ⟨htab', hself, hpte'⟩ := htab.link hdi ((htar _ hdi).trans ht) (htake.disjoint u rfl)
        (fun heq => h.dir (heq ▸ hufree))
        (fun dj hdj heq => (h.apart hdj ((htar dj hdj).symm.trans heq)).2 hufree) hzero (free_lt hufree)
      obtain ⟨htab'', hpte''⟩ := htab'.setPte hdi hself (ptIndex_lt va) (pte_word hpa flags)
      rw [hnum] at hpte''
      refine ⟨htab'', .inl ⟨rfl, fun n hn => (hpte'' n hn).trans ?_⟩⟩
      rw [hpte' n hn, hpte n hn]

/-- **`unmap_page`** clears one entry of the map. -/
theorem unmapPage_pte (h : Tables s d) (hva : va < 2 ^ 32) : Tables (unmapPage (d * pageSize) va s) d ∧
      present (pteOf (unmapPage (d * pageSize) va s) d (va / pageSize)) = false ∧
      ∀ n < pageNumbers, n ≠ va / pageSize → pteOf (unmapPage (d * pageSize) va s) d n = pteOf s d n := by
  have hpd := pdIndex_page va
  have hdi : pdIndex va < tableEntries := by
    rw [hpd]
    exact table_lt (page_number_lt hva)
  unfold unmapPage
  cases ht : target s d (pdIndex va) with
  | none =>
    rw [getPte_none ht]
    refine ⟨h, ?_, fun _ _ _ => rfl⟩
    rw [pteOf_none (by rw [← hpd]; exact ht)]
    rfl
  | some t =>
    rw [getPte_some false ht]
    dsimp only
    by_cases hp : present (entry s (t * pageSize) (ptIndex va)) = true
    · obtain ⟨htab, hpte⟩ := h.setPte hdi ht (ptIndex_lt va) (show 0 < 2 ^ 32 by decide)
      rw [slot_number] at hpte
      rw [if_pos hp]
      refine ⟨htab, ?_, fun n hn hne => (hpte n hn).trans (if_neg hne)⟩
      rw [hpte _ (page_number_lt hva), if_pos rfl]
      rfl
    · rw [if_neg hp]
      refine ⟨h, ?_, fun _ _ _ => rfl⟩
      rw [pteOf_some (by rw [← hpd]; exact ht)]
      exact Bool.eq_false_iff.mpr hp

/-! ## 4. The loops -/

/-- Page number `i` of a range that does not wrap. -/
theorem range_page (hi : i < n) (hfit : va + n * pageSize ≤ 2 ^ 32) :
    u32 (va + i * pageSize) = va + i * pageSize ∧ va + i * pageSize < 2 ^ 32 ∧
      (va + i * pageSize) / pageSize = va / pageSize + i := by
  rw [pageSize_eq] at *
  unfold u32
  omega

/-- `map_pages` that returns 0 has written the entries of its pages. -/
theorem mapEach_pte {is : List Nat} (his : ∀ i ∈ is, i < n) (hnd : is.Nodup) (h : Tables s d)
    (hva : va + n * pageSize ≤ 2 ^ 32) (hpa : pa + n * pageSize ≤ 2 ^ 32) (flags : Nat)
    (hok : (mapEach (d * pageSize) va pa flags is s).1 = 0) :
    ∀ k < pageNumbers, (∀ i ∈ is, k = va / pageSize + i → pteOf (mapEach (d * pageSize) va pa flags is s).2 d k =
        pteAddr (pa + i * pageSize) ||| pteFlags flags) ∧
      ((∀ i ∈ is, k ≠ va / pageSize + i) → pteOf (mapEach (d * pageSize) va pa flags is s).2 d k = pteOf s d k) := by
  induction is generalizing s with
  | nil => exact fun k _ => ⟨by simp, fun _ => rfl⟩
  | cons i is ih =>
    obtain ⟨hni, hnd⟩ := List.nodup_cons.mp hnd
    have hi := his i (.head _)
    obtain ⟨hva1, hva2, hva3⟩ := range_page hi hva
    obtain ⟨hpa1, hpa2, _⟩ := range_page hi hpa
    obtain ⟨htab, hcase⟩ := mapPage_pte h hva2 hpa2 flags
    rw [mapEach, hva1, hpa1] at hok ⊢
    generalize mapPage (d * pageSize) (va + i * pageSize) (pa + i * pageSize) flags s = r at *
    obtain ⟨rc, s1⟩ := r
    dsimp only at htab hcase hok ⊢
    rcases hcase with ⟨hrc, hpte⟩ | ⟨hrc, _⟩
    · rw [hrc, if_neg (by simp)] at hok ⊢
      rw [hva3] at hpte
      intro k hk
      obtain ⟨hin, hout⟩ := ih (fun j hj => his j (.tail _ hj)) hnd htab hok k hk
      refine ⟨fun j hj hkj => ?_, fun hne => ?_⟩
      · rcases List.mem_cons.mp hj with rfl | hj
        · rw [hout fun j' hj' heq => hni ((show j = j' by omega) ▸ hj'), hpte k hk, if_pos hkj]
        · exact hin j hj hkj
      · rw [hout fun j hj => hne j (.tail _ hj), hpte k hk, if_neg (hne i (.head _))]
    · have hne : rc ≠ 0 := by
        rw [hrc]
        decide
      rw [if_pos hne] at hok
      exact absurd hok hne

/-- `unmap_pages` has cleared the entries of its pages. -/
theorem unmapEach_pte {is : List Nat} (his : ∀ i ∈ is, i < n) (h : Tables s d)
    (hva : va + n * pageSize ≤ 2 ^ 32) :
    Tables (unmapEach (d * pageSize) va is s) d ∧ ∀ k < pageNumbers,
      ((∃ i ∈ is, k = va / pageSize + i) ∨ present (pteOf s d k) = false →
        present (pteOf (unmapEach (d * pageSize) va is s) d k) = false) ∧
      ((∀ i ∈ is, k ≠ va / pageSize + i) → pteOf (unmapEach (d * pageSize) va is s) d k = pteOf s d k) := by
  induction is generalizing s with
  | nil => exact ⟨h, fun k _ => ⟨by simp [unmapEach], fun _ => rfl⟩⟩
  | cons i is ih =>
    obtain ⟨hva1, hva2, hva3⟩ := range_page (his i (.head _)) hva
    obtain ⟨htab, hself, hrest⟩ := unmapPage_pte h hva2
    rw [unmapEach, hva1]
    rw [hva3] at hself hrest
    obtain ⟨htab', hpte⟩ := ih (fun j hj => his j (.tail _ hj)) htab
    refine ⟨htab', fun k hk => ⟨fun hor => (hpte k hk).1 ?_, fun hne => ?_⟩⟩
    · by_cases heq : k = va / pageSize + i
      · exact .inr (heq ▸ hself)
      · rw [hrest k hk heq]
        refine hor.imp_left fun hex => ?_
        obtain ⟨j, hj, hkj⟩ := hex
        rcases List.mem_cons.mp hj with rfl | hj
        · exact absurd hkj heq
        · exact ⟨j, hj, hkj⟩
    · rw [(hpte k hk).2 fun j hj => hne j (.tail _ hj), hrest k hk (hne i (.head _))]

/-! ## 5. Translations -/

/-- What an entry written by `map_page` translates to. -/
theorem present_pte (pa flags : Nat) : present (pteAddr pa ||| pteFlags flags) = true ∧
    pteAddr (pteAddr pa ||| pteFlags flags) = pteAddr pa := by
  have hbits := pteFlags_bits flags
  have hentry := @entryFrame_or (pa / pageSize) _ hbits.1 hbits.2
  rw [pteAddr_eq]
  refine ⟨?_, pteAddr_or hbits.1⟩
  by_contra hp
  rw [entryFrame, if_neg hp] at hentry
  cases hentry

theorem pteAddr_aligned (h : pageSize ∣ pa) : pteAddr pa = pa := Nat.div_mul_cancel h

theorem virtToPhysPd_mapped {pg flags va' : Nat}
    (h : pteOf s d (va' / pageSize) = pteAddr pg ||| pteFlags flags) (hpg : pageSize ∣ pg) :
    virtToPhysPd (d * pageSize) va' s = pg ||| va' % pageSize := by
  obtain ⟨hp, haddr⟩ := present_pte pg flags
  rw [virtToPhysPd_eq, h, if_pos hp, haddr, pteAddr_aligned hpg]

theorem virtToPhysPd_absent {va' : Nat} (h : present (pteOf s d (va' / pageSize)) = false) :
    virtToPhysPd (d * pageSize) va' s = 0 := by
  rw [virtToPhysPd_eq, h]
  rfl

/-- **The translations are those written last**: after `map_page`, `unmap_page`, `map_pages` and `unmap_pages`, of the
    pages they are about and of all others. -/
theorem translation_of_last_write (h : Tables s d) (hva : va < 2 ^ 32) (hpa : pa < 2 ^ 32)
    (haligned : pageSize ∣ pa) (flags : Nat) :
    ((mapPage (d * pageSize) va pa flags s).1 = 0 → ∀ va' < 2 ^ 32,
      virtToPhysPd (d * pageSize) va' (mapPage (d * pageSize) va pa flags s).2 =
        if va' / pageSize = va / pageSize then pa ||| va' % pageSize else virtToPhysPd (d * pageSize) va' s) ∧
    ((mapPage (d * pageSize) va pa flags s).1 ≠ 0 →
      (mapPage (d * pageSize) va pa flags s).1 = -ENOMEM ∧ ∀ va' < 2 ^ 32,
        virtToPhysPd (d * pageSize) va' (mapPage (d * pageSize) va pa flags s).2 =
          virtToPhysPd (d * pageSize) va' s) ∧
    (∀ va' < 2 ^ 32, virtToPhysPd (d * pageSize) va' (unmapPage (d * pageSize) va s) =
      if va' / pageSize = va / pageSize then 0 else virtToPhysPd (d * pageSize) va' s) ∧
    (∀ n, va + n * pageSize ≤ 2 ^ 32 → pa + n * pageSize ≤ 2 ^ 32 →
      (mapPages (d * pageSize) va pa n flags s).1 = 0 → ∀ va' < 2 ^ 32,
        (∀ i < n, va' / pageSize = va / pageSize + i →
          virtToPhysPd (d * pageSize) va' (mapPages (d * pageSize) va pa n flags s).2 =
            (pa + i * pageSize) ||| va' % pageSize) ∧
        ((∀ i < n, va' / pageSize ≠ va / pageSize + i) →
          virtToPhysPd (d * pageSize) va' (mapPages (d * pageSize) va pa n flags s).2 =
            virtToPhysPd (d * pageSize) va' s)) ∧
    ∀ n, va + n * pageSize ≤ 2 ^ 32 → ∀ va' < 2 ^ 32,
      ((∃ i < n, va' / pageSize = va / pageSize + i) →
        virtToPhysPd (d * pageSize) va' (unmapPages (d * pageSize) va n s) = 0) ∧
      ((∀ i < n, va' / pageSize ≠ va / pageSize + i) →
        virtToPhysPd (d * pageSize) va' (unmapPages (d * pageSize) va n s) =
          virtToPhysPd (d * pageSize) va' s) := by
  obtain ⟨_, hmap⟩ := mapPage_pte h hva hpa flags
  have hin : ∀ n, ∀ i ∈ List.range n, i < n := fun n i hi => List.mem_range.mp hi
  refine ⟨fun hok va' hva' => ?_, fun hbad => ?_, fun va' hva' => ?_, fun n hn hn' hok va' hva' => ?_,
    fun n hn va' hva' => ?_⟩
  · rcases hmap with ⟨_, hpte⟩ | ⟨hbad, _⟩
    · have hpte := hpte _ (page_number_lt hva')
      by_cases heq : va' / pageSize = va / pageSize
      · rw [if_pos heq] at hpte ⊢
        exact virtToPhysPd_mapped hpte haligned
      · rw [if_neg heq] at hpte ⊢
        exact virtToPhysPd_congr hpte
    · rw [hbad] at hok
      exact absurd hok (by decide)
  · rcases hmap with ⟨hok, _⟩ | ⟨hrc, hpte⟩
    · exact absurd hok hbad
    · exact ⟨hrc, fun va' hva' => virtToPhysPd_congr (hpte _ (page_number_lt hva'))⟩
  · obtain ⟨_, hself, hrest⟩ := unmapPage_pte h hva
    by_cases heq : va' / pageSize = va / pageSize
    · rw [if_pos heq]
      exact virtToPhysPd_absent (heq ▸ hself)
    · rw [if_neg heq]
      exact virtToPhysPd_congr (hrest _ (page_number_lt hva') heq)
  · obtain ⟨hmapped, hout⟩ := mapEach_pte (hin n) List.nodup_range h hn hn' flags hok _ (page_number_lt hva')
    refine ⟨fun i hi heq => ?_, fun hne => ?_⟩
    · exact virtToPhysPd_mapped (hmapped i (List.mem_range.mpr hi) heq)
        (Nat.dvd_add haligned (Nat.dvd_mul_left _ _))
    · exact virtToPhysPd_congr (hout fun i hi => hne i (hin n i hi))
  · obtain ⟨hgone, hout⟩ := (unmapEach_pte (hin n) h hn).2 _ (page_number_lt hva')
    refine ⟨fun hex => ?_, fun hne => ?_⟩
    · obtain ⟨i, hi, heq⟩ := hex
      exact virtToPhysPd_absent (hgone (.inl ⟨i, List.mem_range.mpr hi, heq⟩))
    · exact virtToPhysPd_congr (hout fun i hi => hne i (hin n i hi))

/-! ## 6. One page -/

theorem onePage_target (hdi : di < tableEntries) : target onePage 1 di = if di = 0 then some 2 else none := by
  have hframe : entryFrame (2 * pageSize ||| tableFlags) = some 2 := entryFrame_or (by decide) (by decide)
  have htable : target onePage 1 di =
      target (setEntry fourFree (1 * pageSize) 0 (2 * pageSize ||| tableFlags)) 1 di :=
    target_setEntry_frame (by decide) hdi (by decide)
  rw [htable]
  by_cases h0 : di = 0
  · rw [if_pos h0, h0, target_setEntry_self (by decide), hframe]
  · rw [if_neg h0, target_setEntry_of_ne h0]
    exact target_zero (s := fourFree) rfl hdi

theorem onePage_table (hdi : di < tableEntries) (ht : target onePage 1 di = some t) : di = 0 ∧ t = 2 := by
  rw [onePage_target hdi] at ht
  split at ht
  · exact ⟨‹_›, (Option.some.inj ht).symm⟩
  · cases ht

theorem onePage_tables : Tables onePage 1 := by
  have hfree := onePage_apart
  refine ⟨hfree 1 (by simp), fun hdi ht => ?_, fun hdi hdj ht ht' => ?_⟩
  · rw [(onePage_table hdi ht).2]
    exact ⟨by decide, hfree 2 (by simp)⟩
  · rw [(onePage_table hdi ht).1, (onePage_table hdj ht').1]

/-- The second page of the first table, mapped to frame 9: it translates, and the first page as before. -/
theorem translation_of_onePage : (mapPage (1 * pageSize) 0x1000 0x9000 VM_USER onePage).1 = 0 ∧
    virtToPhysPd (1 * pageSize) 0x1234 (mapPage (1 * pageSize) 0x1000 0x9000 VM_USER onePage).2 = 0x9234 ∧
    virtToPhysPd (1 * pageSize) 0x234 (mapPage (1 * pageSize) 0x1000 0x9000 VM_USER onePage).2 =
      virtToPhysPd (1 * pageSize) 0x234 onePage := by
  have hok : (mapPage (1 * pageSize) 0x1000 0x9000 VM_USER onePage).1 = 0 := by
    have hzero : pdIndex 0x1000 = 0 := by decide
    have ht : target onePage 1 (pdIndex 0x1000) = some 2 := by
      rw [hzero, onePage_target (by decide), if_pos rfl]
    rw [mapPage, getPte_some true ht]
  have hlast := (translation_of_last_write onePage_tables (show 0x1000 < 2 ^ 32 by decide)
    (show 0x9000 < 2 ^ 32 by decide) (show pageSize ∣ 0x9000 by decide) VM_USER).1 hok
  refine ⟨hok, ?_, ?_⟩
  · rw [hlast 0x1234 (by decide), if_pos (by decide)]
    decide
  · rw [hlast 0x234 (by decide), if_neg (by decide)]

end OreUnix.Vmm
