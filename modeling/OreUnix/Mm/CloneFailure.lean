/-
  Subject: A COPY THAT FAILS: what `pgdir_clone` and `mm_clone` give back when the frames run out.

  The copy asks for frames in a fixed order: the directory, then each table followed by its pages. A new table is
  entered in the new directory only when it is complete, and `pgdir_destroy` frees what is entered.

  * `spaceAsks` -- what the copy asks for, in its order; with `n` free frames the request number `n` fails;
  * `cloneTables_stops` -- the tables before the failure are complete and entered;
  * `failed_clone_iff` -- everything is given back if and only if the request that failed was not for a page.
-/
import OreUnix.Mm.Isolation

namespace OreUnix.Vmm

open ByteMem Pmm Bitmap FramePool

variable {s s' s1 s2 : Vm} {d d' t u f g i di : Nat} {R N D : Set Nat} {dis : List Nat}

/-! ## 1. What the copy asks for -/

inductive FrameKind where
  | dir
  | table
  | page
  deriving DecidableEq, Repr

/-- The frames for the tables at the entries `dis`, each with its pages. -/
def tableAsks (s : Vm) (d : Nat) : List Nat → List FrameKind
  | [] => []
  | di :: dis =>
    ((target s d di).map fun t =>
      .table :: List.replicate (pageCount s t (List.range tableEntries)) .page).getD [] ++ tableAsks s d dis

/-- The frames for a directory, its user tables and their pages, in the order of the copy. -/
def spaceAsks (s : Vm) (d : Nat) : List FrameKind := .dir :: tableAsks s d (List.range userTables)

theorem length_tableAsks (s : Vm) (d : Nat) (dis : List Nat) : (tableAsks s d dis).length = tableCount s d dis := by
  induction dis with
  | nil => rfl
  | cons di dis ih =>
    rw [tableAsks, tableCount, List.length_append, ih]
    cases target s d di with
    | none => rfl
    | some t => simp [Nat.add_comm]

theorem tableAsks_append (s : Vm) (d : Nat) (dis djs : List Nat) :
    tableAsks s d (dis ++ djs) = tableAsks s d dis ++ tableAsks s d djs := by
  induction dis with
  | nil => rfl
  | cons di dis ih => rw [List.cons_append, tableAsks, ih, tableAsks, List.append_assoc]

theorem tableAsks_congr (hdis : ∀ di ∈ dis, di < userTables) (hsrc : Space s d R)
    (hR : ∀ f ∈ R, pool.cell s' f = pool.cell s f) : tableAsks s' d dis = tableAsks s d dis := by
  induction dis with
  | nil => rfl
  | cons di dis ih =>
    have hdi := hdis di (.head _)
    rw [tableAsks, tableAsks, ih fun dj hdj => hdis dj (.tail _ hdj), target_congr (hR d hsrc.dir_mem) (user_lt hdi)]
    cases ht : target s d di with
    | none => rw [Option.map_none, Option.map_none]
    | some t =>
      have hpages := pageCount_congr (fun _ => List.mem_range.mp) (hR t (hsrc.table_mem hdi ht))
      rw [Option.map_some, Option.map_some, hpages]

/-! ## 2. Where the loops stop -/

/-- Whether it succeeds or not, the loop over a table takes frames and writes them and the new table. -/
theorem clonePages_takes {is : List Nat} (his : ∀ i ∈ is, i < tableEntries) (ht : t ∉ pool.free s)
    (hu : u ∉ pool.free s) :
    ∃ N, Takes pool {u} N s (clonePages (t * pageSize) (u * pageSize) is s).2 := by
  induction is generalizing s with
  | nil => exact ⟨∅, Takes.refl ..⟩
  | cons i is ih =>
    obtain ⟨hi, his'⟩ := List.forall_mem_cons.mp his
    cases hf : target s t i with
    | none =>
      rw [clonePages_cons_none hf]
      exact ih his' ht hu
    | some f =>
      rcases alloc_cases s with ⟨N, _, h0, htake, _⟩ | ⟨g, hg0, hg, htake⟩
      · rw [clonePages_cons_fail hf h0]
        exact ⟨N, htake.mono (Set.empty_subset _)⟩
      · have hgfree := htake.was_free g rfl
        have htg : t ≠ g := fun he => ht (he ▸ hgfree)
        have hug : u ≠ g := fun he => hu (he ▸ hgfree)
        rw [clonePages_cons_some hf hg hg0 htg hi]
        obtain ⟨hone, _⟩ := copyPage_spec t f htake hi hug
        obtain ⟨N, hN⟩ := ih his' (hone.used ht) (hone.used hu)
        exact ⟨{g} ∪ N, hone.trans (hN.mono Set.subset_union_left)⟩

/-- The tables before the one where the loop stops were copied. -/
theorem cloneTables_stops {src dst : Nat} (hrun : cloneTables src dst dis s = (false, s')) :
    ∃ done di rest s1, dis = done ++ di :: rest ∧ cloneTables src dst done s = (true, s1) ∧
      cloneTables src dst [di] s1 = (false, s') := by
  induction dis generalizing s with
  | nil => cases hrun
  | cons dj dis ih =>
    by_cases hp : present (entry s src dj) = true
    · by_cases hpt : s.allocZero.1 = 0
      · refine ⟨[], dj, dis, s, rfl, rfl, ?_⟩
        rw [cloneTables, if_pos hp] at hrun ⊢
        dsimp only at hrun ⊢
        rw [if_pos hpt] at hrun ⊢
        exact hrun
      · cases hr : (clonePages (pteAddr (entry s.allocZero.2 src dj)) s.allocZero.1 (List.range tableEntries)
            s.allocZero.2).1 with
        | false =>
          refine ⟨[], dj, dis, s, rfl, rfl, ?_⟩
          rw [cloneTables, if_pos hp] at hrun ⊢
          dsimp only at hrun ⊢
          rw [if_neg hpt, hr] at hrun ⊢
          exact hrun
        | true =>
          have hstep : ∀ ds, cloneTables src dst (dj :: ds) s = cloneTables src dst ds
              (setEntry (clonePages (pteAddr (entry s.allocZero.2 src dj)) s.allocZero.1 (List.range tableEntries)
                s.allocZero.2).2 dst dj (s.allocZero.1 ||| flagBits (entry (clonePages
                  (pteAddr (entry s.allocZero.2 src dj)) s.allocZero.1 (List.range tableEntries) s.allocZero.2).2
                  src dj))) := fun ds => by
            rw [cloneTables, if_pos hp]
            dsimp only
            rw [if_neg hpt, hr, if_pos rfl]
          rw [hstep] at hrun
          obtain ⟨done, di, rest, s1, rfl, hdone, hstop⟩ := ih hrun
          exact ⟨dj :: done, di, rest, s1, rfl, by rw [hstep, hdone], hstop⟩
    · have hstep : ∀ ds, cloneTables src dst (dj :: ds) s = cloneTables src dst ds s := fun ds => by
        rw [cloneTables, if_neg hp]
      rw [hstep] at hrun
      obtain ⟨done, di, rest, s1, rfl, hdone, hstop⟩ := ih hrun
      exact ⟨dj :: done, di, rest, s1, rfl, by rw [hstep, hdone], hstop⟩

theorem Takes.of_none (h : Takes pool ∅ N s s') (hN : N ⊆ {0}) (h0 : 0 ∉ pool.free s) : Takes pool ∅ ∅ s s' := by
  have hempty : N = ∅ := Set.eq_empty_of_forall_notMem fun f hf => h0 ((hN hf) ▸ h.was_free f hf)
  rwa [hempty] at h

/-- The table where the loop stops: there was no frame for it, or its frame and those of its first pages are taken and
    there was none for the next page. -/
theorem cloneTables_stop (hdi : di < userTables) (hsrc : Space s d R) (hR : ∀ f ∈ R, f ∉ pool.free s)
    (h0 : 0 ∉ pool.free s) (hrun : cloneTables (d * pageSize) (d' * pageSize) [di] s = (false, s')) :
    ∃ t, target s d di = some t ∧ ((frames s = 0 ∧ Takes pool ∅ ∅ s s') ∨
        ∃ u L, u ∈ L ∧ Takes pool ∅ L s s' ∧ 0 < frames s ∧ frames s ≤ pageCount s t (List.range tableEntries)) := by
  cases ht : target s d di with
  | none =>
    rw [cloneTables_cons_none ht] at hrun
    cases hrun
  | some t =>
    refine ⟨t, rfl, ?_⟩
    rcases allocZero_cases s with ⟨N, hN, hfail, htake, hnone⟩ | ⟨u, hu0, hu, htake, _⟩
    · rw [cloneTables_cons_full ht hfail] at hrun
      cases hrun
      exact .inl ⟨frames_eq_zero (hnone h0), Takes.of_none htake hN h0⟩
    · have hufree := htake.was_free u rfl
      have hRu : ∀ x ∈ R, x ≠ u := fun x hx he => hR x hx (he ▸ hufree)
      have htR : t ∈ R := hsrc.table_mem hdi ht
      have hone := frames_take htake
      have hin : ∀ i ∈ List.range tableEntries, i < tableEntries := fun _ => List.mem_range.mp
      have hpages := pageCount_congr hin (htake.stays (hRu t htR))
      have hcount := clonePages_count hin (htake.used (hR t htR)) (htake.disjoint u rfl) (hRu t htR) (htake.used h0)
      obtain ⟨P, hP⟩ := clonePages_takes hin (htake.used (hR t htR)) (htake.disjoint u rfl)
      rw [cloneTables_cons_some ht hu hu0 (htake.stays (hRu d hsrc.dir_mem)) hdi] at hrun
      generalize hr : clonePages (t * pageSize) (u * pageSize) (List.range tableEntries) s.allocZero.2 = r at *
      obtain ⟨_ | _, s2⟩ := r
      · rcases hcount with ⟨hok, _⟩ | ⟨_, hn⟩
        · cases hok
        · cases hrun
          exact .inr ⟨u, {u} ∪ P, .inl rfl, htake.trans (hP.mono Set.subset_union_right), by omega, by omega⟩
      · simp only [if_true, cloneTables] at hrun
        cases hrun

/-- The request that failed at that table. -/
theorem tableAsks_stop (rest : List Nat) (n : Nat) (ht : target s d di = some t) :
    (n = 0 → (tableAsks s d (di :: rest))[n]? = some .table) ∧
      (0 < n → n ≤ pageCount s t (List.range tableEntries) → (tableAsks s d (di :: rest))[n]? = some .page) := by
  rw [tableAsks, ht, Option.map_some, Option.getD_some, List.cons_append]
  refine ⟨fun hn => by rw [hn]; rfl, fun h1 h2 => ?_⟩
  obtain ⟨k, rfl⟩ : ∃ k, n = k + 1 := ⟨n - 1, by omega⟩
  rw [List.getElem?_cons_succ, List.getElem?_append_left (by rw [List.length_replicate]; omega),
    List.getElem?_replicate, if_pos (by omega)]

/-! ## 3. What is given back -/

/-- The free frames are those of the beginning, and the frames of the directory `d` have their content. -/
structure Restored (s s' : Vm) (d : Nat) : Prop where
  free : pool.free s' = pool.free s
  same : ∀ f ∈ spaceFrames s d, pool.cell s' f = pool.cell s f

/-- The frames `L` that were taken and not entered are what `pgdir_destroy` leaves out. -/
theorem destroyed_partly {kernelPgdir : Nat} {L : Set Nat} (hd0 : d' ≠ 0)
    (hdk : d' * pageSize ≠ kernelPgdir) (hzero : ∀ f ∈ N, f ≠ 0) (hspace : Space s1 d' ({d'} ∪ N))
    (hall : ∀ f ∈ N, ∃ k, frameAt s1 d' k = some f) (htake : Takes pool ∅ ({d'} ∪ N) s s1)
    (hlost : Takes pool ∅ L s1 s2) (f : Nat) :
    f ∈ pool.free (pgdirDestroy kernelPgdir (d' * pageSize) s2) ↔ f ∈ pool.free s ∧ f ∉ L := by
  have hnotL : ∀ g ∈ ({d'} ∪ N : Set Nat), g ∉ L := fun g hg hL => htake.disjoint g hg (hlost.was_free g hL)
  have hcell : ∀ g ∈ ({d'} ∪ N : Set Nat), pool.cell s2 g = pool.cell s1 g := fun g hg => hlost.stays (hnotL g hg)
  have hframes : ∀ g, Real g ∧ g ∈ spaceFrames s2 d' ↔ g ∈ ({d'} ∪ N : Set Nat) := by
    intro g
    constructor
    · rintro ⟨_, k, hk⟩
      exact (hspace.congr hcell).owned hk
    · intro hg
      refine ⟨⟨?_, free_lt (htake.was_free g hg)⟩, ?_⟩
      · rcases hg with rfl | hg
        · exact hd0
        · exact hzero g hg
      · rcases hg with rfl | hg
        · exact ⟨.dir, rfl⟩
        · obtain ⟨k, hk⟩ := hall g hg
          exact ⟨k, (hspace.frameAt_eq hcell k).trans hk⟩
  rw [(pgdirDestroy_gives hd0 hdk s2).free_iff, Set.mem_ofPred_eq, hframes, hlost.free_iff, htake.free_iff]
  constructor
  · rintro (⟨⟨h1, _⟩, h2⟩ | h)
    · exact ⟨h1, h2⟩
    · exact ⟨htake.was_free f h, hnotL f h⟩
  · rintro ⟨h1, h2⟩
    by_cases h : f ∈ ({d'} ∪ N : Set Nat)
    · exact .inr h
    · exact .inl ⟨⟨h1, h⟩, h2⟩

/-- **The directory's copy that fails** takes the frames `L` for good: none, if the request that failed was for the
    directory or a table; at least one, if it was for a page. -/
theorem pgdirClone_loses {kernelPgdir : Nat} (hsrc : Space s d R) (hR : ∀ f ∈ R, f ∉ pool.free s)
    (h0 : 0 ∉ pool.free s) (hk : ∀ f ∈ pool.free s, f * pageSize ≠ kernelPgdir) (hfew : frames s < spaceCount s d) :
    ∃ L : Set Nat, (pgdirClone kernelPgdir (d * pageSize) s).1 = 0 ∧ (∀ f ∈ L, f ∈ pool.free s) ∧
      (∀ f, f ∈ pool.free (pgdirClone kernelPgdir (d * pageSize) s).2 ↔ f ∈ pool.free s ∧ f ∉ L) ∧
      (∀ f ∈ R, pool.cell (pgdirClone kernelPgdir (d * pageSize) s).2 f = pool.cell s f) ∧
      (L = ∅ ↔ (spaceAsks s d)[frames s]? ≠ some .page) := by
  have hzero : (pgdirClone kernelPgdir (d * pageSize) s).1 = 0 := by
    by_contra hne
    have := (pgdirClone_iff hsrc hR h0).mp hne
    omega
  unfold pgdirClone at hzero ⊢
  dsimp only at hzero ⊢
  rcases pgdirCreate_cases kernelPgdir s with ⟨hfail, hnone, N, hN, htake⟩ | ⟨d', hd0, hd, htake, hnone⟩
  · -- no frame for the directory
    have htake := Takes.of_none htake hN h0
    rw [if_pos hfail]
    refine ⟨∅, rfl, by simp, htake.free_iff, fun f _ => htake.stays (Set.notMem_empty f), ?_⟩
    rw [frames_eq_zero (hnone h0)]
    simp [spaceAsks]
  · have hne : d' * pageSize ≠ 0 := addr_ne ‹_›
    rw [hd, if_neg hne] at hzero ⊢
    have hdfree := htake.was_free d' rfl
    have hRd : ∀ x ∈ R, x ≠ d' := fun x hx he => hR x hx (he ▸ hdfree)
    have hone := frames_take htake
    generalize (pgdirCreate kernelPgdir s).2 = s1 at *
    have hRcell : ∀ x ∈ R, pool.cell s1 x = pool.cell s x := fun x hx => htake.stays (hRd x hx)
    generalize hr : cloneTables (d * pageSize) (d' * pageSize) (List.range userTables) s1 = r at hzero ⊢
    obtain ⟨_ | _, s2⟩ := r
    · obtain ⟨done, di, rest, s3, hdis, hdone, hstop⟩ := cloneTables_stops hr
      have hlow : ∀ dj ∈ done ++ di :: rest, dj < userTables := fun dj hdj => List.mem_range.mp (hdis ▸ hdj)
      have hnd : (done ++ di :: rest).Nodup := hdis ▸ List.nodup_range
      have hdone' : ∀ dj ∈ done, dj < userTables := fun dj hdj => hlow dj (List.mem_append_left _ hdj)
      have hsrc1 := hsrc.congr hRcell
      have hR1 : ∀ f ∈ R, f ∉ pool.free s1 := fun f hf => htake.used (hR f hf)
      -- the tables that are complete
      obtain ⟨N, hN, hspace⟩ := cloneTables_spec (List.Nodup.of_append_left hnd) hdone' hsrc1 hR1 (.empty hnone)
        (fun f hf => htake.disjoint f hf) hRd (fun dj hdj => hnone dj (hdone' dj hdj)) hdone
      have hcount := @cloneTables_count s1 d d' R done hdone' hsrc1 hR1 (fun hx => hRd d' hx rfl) (htake.used h0)
      rw [hdone] at hcount
      have hcount : frames s3 + tableCount s1 d done = frames s1 := hcount.elim (fun h => h.2) fun h => by cases h.1
      have htake3 : Takes pool ∅ ({d'} ∪ N) s s3 := htake.trans (hN.takes.mono (by simp))
      have hRnew : ∀ x ∈ R, x ∉ ({d'} ∪ N : Set Nat) := fun x hx hx' => hR x hx (htake3.was_free x hx')
      have hRcell3 : ∀ x ∈ R, pool.cell s3 x = pool.cell s x := fun x hx => htake3.stays (hRnew x hx)
      -- the request that failed
      have hasks : (spaceAsks s d)[frames s]? = (tableAsks s3 d (di :: rest))[frames s3]? := by
        have hlen := length_tableAsks s d done
        rw [tableCount_congr hdone' hsrc hRcell] at hcount
        rw [spaceAsks, ← hone, List.getElem?_cons_succ, hdis, tableAsks_append,
          List.getElem?_append_right (by omega), hlen, ← hcount, Nat.add_sub_cancel,
          tableAsks_congr (fun dj hdj => hlow dj (List.mem_append_right _ hdj)) hsrc hRcell3]
      obtain ⟨t, ht, hcase⟩ := cloneTables_stop (hlow di (by simp)) (hsrc.congr hRcell3)
        (fun f hf => htake3.used (hR f hf)) (htake3.used h0) hstop
      obtain ⟨htable, hpage⟩ := tableAsks_stop rest (frames s3) ht
      have hback : ∀ L, Takes pool ∅ L s3 s2 → ∀ f, f ∈ pool.free (pgdirDestroy kernelPgdir (d' * pageSize) s2) ↔
          f ∈ pool.free s ∧ f ∉ L := fun L hL =>
        destroyed_partly hd0 (hk d' hdfree) hN.nonzero hspace hN.all htake3 hL
      have hkeep : ∀ L, Takes pool ∅ L s3 s2 → ∀ f ∈ R,
          pool.cell (pgdirDestroy kernelPgdir (d' * pageSize) s2) f = pool.cell s f := fun L hL f hf => by
        rw [(pgdirDestroy_gives hd0 (hk d' hdfree) s2).same f (Set.notMem_empty f),
          hL.stays fun hf' => htake3.used (hR f hf) (hL.was_free f hf'), hRcell3 f hf]
      rcases hcase with ⟨hnoframe, hL⟩ | ⟨u, L, hu, hL, hsome, hle⟩
      · refine ⟨∅, rfl, by simp, hback ∅ hL, hkeep ∅ hL, ?_⟩
        rw [hasks, htable hnoframe]
        simp
      · refine ⟨L, rfl, fun f hf => ((htake3.free_iff f).mp (hL.was_free f hf)).1, hback L hL, hkeep L hL, ?_⟩
        rw [hasks, hpage hsome hle]
        simp only [ne_eq, not_true_eq_false, iff_false]
        exact fun hempty => Set.notMem_empty u (hempty ▸ hu)
    · exact absurd hzero hne

/-! ## 4. The whole copy -/

/-- What was taken for good decides whether the frames are restored. -/
theorem restored_iff {L : Set Nat} (hL : ∀ f ∈ L, f ∈ pool.free s)
    (hfree : ∀ f, f ∈ pool.free s' ↔ f ∈ pool.free s ∧ f ∉ L)
    (hsame : ∀ f ∈ spaceFrames s d, pool.cell s' f = pool.cell s f) : Restored s s' d ↔ L = ∅ := by
  constructor
  · intro h
    refine Set.eq_empty_of_forall_notMem fun f hf => ?_
    have hf' : f ∈ pool.free s' := by
      rw [h.free]
      exact hL f hf
    exact ((hfree f).mp hf').2 hf
  · rintro rfl
    refine ⟨?_, hsame⟩
    ext f
    rw [hfree f]
    simp

section Clone

variable {kernelPgdir : Nat} {src : MmStruct}

/-- **A copy that fails for want of frames** gives every frame back and leaves the source as it was if and only if the
    frame it did not get was for the directory or for a table. If it was for a page, the table it was for and the
    pages before it stay allocated. -/
theorem failed_clone_iff (hwf : WellFormed s src) (h0 : 0 ∉ pool.free s)
    (hk : ∀ f ∈ pool.free s, f * pageSize ≠ kernelPgdir) (hfew : frames s < spaceCount s src.dir) :
    ((pgdirClone kernelPgdir src.pgdir s).1 = 0 ∧
      (Restored s (pgdirClone kernelPgdir src.pgdir s).2 src.dir ↔
        (spaceAsks s src.dir)[frames s]? ≠ some .page)) ∧
    (s.granted 0 = true →
      (mmClone kernelPgdir src s).1 = none ∧
      (Restored s (mmClone kernelPgdir src s).2 src.dir ↔ (spaceAsks s src.dir)[frames s]? ≠ some .page)) := by
  have hdir : src.pgdir = src.dir * pageSize := hwf.aligned
  constructor
  · rw [hdir]
    obtain ⟨L, hzero, hL, hfree, hsame, hiff⟩ := pgdirClone_loses hwf.space hwf.apart h0 hk hfew
    exact ⟨hzero, (restored_iff hL hfree hsame).trans hiff⟩
  · -- the object of the copy is taken from the cache, which has no frame of the pool
    intro hok
    have hspace : Space { s with slab := s.slab.tail } src.dir (spaceFrames s src.dir) :=
      hwf.space.congr fun _ _ => rfl
    have hlow : ∀ di ∈ List.range userTables, di < userTables := fun _ => List.mem_range.mp
    have hcount : spaceCount { s with slab := s.slab.tail } src.dir = spaceCount s src.dir :=
      congrArg (1 + ·) (tableCount_congr hlow hwf.space fun _ _ => rfl)
    have hasks : spaceAsks { s with slab := s.slab.tail } src.dir = spaceAsks s src.dir :=
      congrArg (FrameKind.dir :: ·) (tableAsks_congr hlow hwf.space fun _ _ => rfl)
    obtain ⟨L, hzero, hL, hfree, hsame, hiff⟩ := @pgdirClone_loses { s with slab := s.slab.tail } src.dir
      (spaceFrames s src.dir) kernelPgdir hspace hwf.apart h0 hk (lt_of_lt_of_eq hfew hcount.symm)
    rw [hasks] at hiff
    rw [mmClone, slabAlloc_granted, hdir]
    dsimp only
    rw [if_pos hok, if_pos hzero]
    exact ⟨rfl, (@restored_iff s _ src.dir L hL hfree hsame).trans hiff⟩

end Clone

/-! ## 5. One page, too few frames -/

/-- The machine of `onePage`, with the free frames of the word `b`. -/
def scarce (b : BitVec 32) : Vm := { onePage with pages := ⟨fun w => if w = 0 then b else 0, 0⟩ }

theorem mem_scarce {b : BitVec 32} : f ∈ pool.free (scarce b) ↔ f < 32 ∧ b.getLsbD f = true := by
  have hbits : bitmapBits = 262144 := rfl
  have htst : tst (scarce b).pages.bitmap f = (if f / 32 = 0 then b else 0).getLsbD (f % 32) := rfl
  rw [mem_free, mem_freePages, htst]
  by_cases hf : f / 32 = 0
  · rw [if_pos hf, Nat.mod_eq_of_lt (by omega)]
    exact ⟨fun h => ⟨by omega, h.2⟩, fun h => ⟨by omega, h.2⟩⟩
  · rw [if_neg hf]
    exact ⟨fun h => absurd h.2 (by simp), fun h => absurd h.1 (by omega)⟩

theorem frames_scarce (b : BitVec 32) : frames (scarce b) = ((Finset.range 32).filter (b.getLsbD ·)).card := by
  have heq : freePages (scarce b).pages = (Finset.range 32).filter (b.getLsbD ·) := by
    ext f
    rw [← mem_free, mem_scarce, Finset.mem_filter, Finset.mem_range]
  rw [frames, heq]

theorem scarce_pos {b : BitVec 32} (hb : b.getLsbD 0 = false) :
    0 ∉ pool.free (scarce b) ∧ ∀ f ∈ pool.free (scarce b), f * pageSize ≠ 0 := by
  have hz : 0 ∉ pool.free (scarce b) := fun h => by
    cases hb.symm.trans (mem_scarce.mp h).2
  refine ⟨hz, fun f hf => ?_⟩
  have hne : f ≠ 0 := fun h => hz (h ▸ hf)
  rw [pageSize_eq]
  omega

theorem scarce_wellFormed {b : BitVec 32} (hb : ∀ f ∈ [1, 2, 3], b.getLsbD f = false) :
    WellFormed (scarce b) onePageMm := by
  have hdir : onePageMm.dir = 1 := by decide
  have hspace : Space (scarce b) 1 ({1} ∪ {2} ∪ {3}) := onePage_space.congr fun _ _ => rfl
  refine ⟨rfl, ?_, ?_, rfl, by decide⟩ <;> rw [hdir]
  · exact hspace.inj
  · intro k f hk hf
    have hbit := (mem_scarce.mp (mem_free.mpr hf)).2
    rcases hspace.owned hk with (rfl | rfl) | rfl
    · cases (hb 1 (by decide)).symm.trans hbit
    · cases (hb 2 (by decide)).symm.trans hbit
    · cases (hb 3 (by decide)).symm.trans hbit

theorem spaceAsks_scarce (b : BitVec 32) : spaceAsks (scarce b) 1 = [.dir, .table, .page] := by
  have hone : spaceAsks onePage 1 = [.dir, .table, .page] := by decide +kernel
  have hsame : tableAsks (scarce b) 1 (List.range userTables) = tableAsks onePage 1 (List.range userTables) :=
    tableAsks_congr (fun _ => List.mem_range.mp) onePage_space fun _ _ => rfl
  rw [spaceAsks, hsame]
  exact hone

theorem spaceCount_scarce (b : BitVec 32) : spaceCount (scarce b) 1 = 3 := by
  have hlen := congrArg List.length (spaceAsks_scarce b)
  rw [spaceAsks, List.length_cons, length_tableAsks] at hlen
  rw [spaceCount, Nat.add_comm]
  exact hlen

/-- With one free frame the request for the table fails, and everything is restored. -/
theorem failed_clone_at_table : (pgdirClone 0 onePageMm.pgdir (scarce 0x10)).1 = 0 ∧
    Restored (scarce 0x10) (pgdirClone 0 onePageMm.pgdir (scarce 0x10)).2 1 := by
  have hdir : onePageMm.dir = 1 := by decide
  have hframes : frames (scarce 0x10) = 1 := (frames_scarce _).trans (by decide)
  obtain ⟨hz, hpos⟩ := @scarce_pos 0x10 (by decide)
  obtain ⟨⟨hzero, hiff⟩, _⟩ := failed_clone_iff (scarce_wellFormed (by decide))
    hz hpos (by rw [hdir, spaceCount_scarce, hframes]; decide)
  rw [hdir] at hiff
  refine ⟨hzero, hiff.mpr ?_⟩
  rw [spaceAsks_scarce, hframes]
  decide

/-- With two free frames the directory and the table are allocated and the page is not: a frame that was free stays
    allocated. -/
theorem table_leaks : (pgdirClone 0 onePageMm.pgdir (scarce 0x30)).1 = 0 ∧
    ∃ f ∈ pool.free (scarce 0x30), f ∉ pool.free (pgdirClone 0 onePageMm.pgdir (scarce 0x30)).2 := by
  have hframes : frames (scarce 0x30) = 2 := (frames_scarce _).trans (by decide)
  have hdir : onePageMm.dir = 1 := by decide
  have hpgdir : onePageMm.pgdir = 1 * pageSize := rfl
  have hwf : WellFormed (scarce 0x30) onePageMm := scarce_wellFormed (by decide)
  obtain ⟨hz, hpos⟩ := @scarce_pos 0x30 (by decide)
  obtain ⟨L, hzero, hL, hfree, _, hiff⟩ := pgdirClone_loses hwf.space hwf.apart
    hz hpos (by rw [hdir, spaceCount_scarce, hframes]; decide)
  rw [hdir] at hzero hfree hiff
  have hne : L ≠ ∅ := fun h => by
    have hpage := hiff.mp h
    rw [spaceAsks_scarce, hframes] at hpage
    exact hpage rfl
  obtain ⟨f, hf⟩ := Set.nonempty_iff_ne_empty.mpr hne
  rw [hpgdir]
  exact ⟨hzero, f, hL f hf, fun h => ((hfree f).mp h).2 hf⟩

end OreUnix.Vmm
