/-
  Subject: HOW MANY FRAMES A COPY TAKES: `pgdir_clone` fails exactly when there are too few.

  * `spaceCount` -- one frame for the directory, one for each present table, one for each present page;
  * `clonePages_count`, `cloneTables_count` -- a loop ends well and takes its number of frames, or it ends badly and
    the number was too large;
  * `pgdirClone_iff` -- the copy is made if and only if its frames are there;
  * `mmClone_iff` -- an address space is copied if and only if, besides, its objects are.

  Frame 0 is never free: its address is the allocator's error value.
-/
import OreUnix.Mm.CloneSpec

namespace OreUnix.Vmm

open ByteMem Pmm Bitmap FramePool

variable {s s' : Vm} {d d' t u g i : Nat} {W R : Set Nat}

/-! ## 1. Numbers of frames -/

/-- The number of free frames. -/
def frames (s : Vm) : Nat := (freePages s.pages).card

theorem frames_take (h : Takes pool W {g} s s') : frames s' + 1 = frames s := by
  have herase : freePages s'.pages = (freePages s.pages).erase g := by
    refine Finset.ext fun f => ?_
    rw [← mem_free, h.free_iff, mem_free, Set.mem_singleton_iff, Finset.mem_erase, and_comm]
  rw [frames, frames, herase]
  exact Finset.card_erase_add_one (mem_free.mp (h.was_free g rfl))

theorem frames_eq_zero (h : pool.free s = ∅) : frames s = 0 := by
  rw [frames, Finset.card_eq_zero]
  exact Finset.coe_eq_empty.mp h

/-- The present ones among the entries `is` of a table. -/
def pageCount (s : Vm) (t : Nat) (is : List Nat) : Nat := is.countP fun i => (target s t i).isSome

/-- The tables at the entries `dis` of a directory, each with its pages. -/
def tableCount (s : Vm) (d : Nat) : List Nat → Nat
  | [] => 0
  | di :: dis =>
    ((target s d di).map fun t => 1 + pageCount s t (List.range tableEntries)).getD 0 +
      tableCount s d dis

/-- The frames of a directory, its user tables and their pages. -/
def spaceCount (s : Vm) (d : Nat) : Nat := 1 + tableCount s d (List.range userTables)

theorem pageCount_congr {is : List Nat} (his : ∀ i ∈ is, i < tableEntries)
    (h : pool.cell s' t = pool.cell s t) : pageCount s' t is = pageCount s t is := by
  refine List.countP_congr fun i hi => ?_
  rw [target_congr h (his i hi)]

theorem tableCount_congr {dis : List Nat} (hdis : ∀ di ∈ dis, di < userTables) (hsrc : Space s d R)
    (hR : ∀ f ∈ R, pool.cell s' f = pool.cell s f) : tableCount s' d dis = tableCount s d dis := by
  induction dis with
  | nil => rfl
  | cons di dis ih =>
    have hdi := hdis di (.head _)
    rw [tableCount, tableCount, ih fun dj hdj => hdis dj (.tail _ hdj),
      target_congr (hR d hsrc.dir_mem) (user_lt hdi)]
    cases ht : target s d di with
    | none => rw [Option.map_none, Option.map_none]
    | some t =>
      have hpages := pageCount_congr (fun _ => List.mem_range.mp) (hR t (hsrc.table_mem hdi ht))
      rw [Option.map_some, Option.map_some, hpages]

/-! ## 2. The loops -/

theorem clonePages_count {is : List Nat} (his : ∀ i ∈ is, i < tableEntries) (ht : t ∉ pool.free s)
    (hu : u ∉ pool.free s) (hut : t ≠ u) (h0 : 0 ∉ pool.free s) :
    ((clonePages (t * pageSize) (u * pageSize) is s).1 = true ∧
        frames (clonePages (t * pageSize) (u * pageSize) is s).2 + pageCount s t is = frames s) ∨
      ((clonePages (t * pageSize) (u * pageSize) is s).1 = false ∧ frames s < pageCount s t is) := by
  induction is generalizing s with
  | nil =>
    rw [clonePages]
    exact .inl ⟨rfl, Nat.add_zero _⟩
  | cons i is ih =>
    obtain ⟨hi, his'⟩ := List.forall_mem_cons.mp his
    cases hf : target s t i with
    | none =>
      have hcount : pageCount s t (i :: is) = pageCount s t is := List.countP_cons_of_neg (by rw [hf]; decide)
      rw [clonePages_cons_none hf, hcount]
      exact ih his' ht hu h0
    | some f =>
      have hcount : pageCount s t (i :: is) = pageCount s t is + 1 := List.countP_cons_of_pos (by rw [hf]; rfl)
      rw [hcount]
      rcases alloc_cases s with ⟨_, _, hfail, _, hnone⟩ | ⟨g, hg0, hg, htake⟩
      · rw [clonePages_cons_fail hf hfail, frames_eq_zero (hnone h0)]
        exact .inr ⟨rfl, Nat.succ_pos _⟩
      · have hgfree := htake.was_free g rfl
        have htg : t ≠ g := fun he => ht (he ▸ hgfree)
        have hug : u ≠ g := fun he => hu (he ▸ hgfree)
        rw [clonePages_cons_some hf hg hg0 htg hi]
        obtain ⟨hone, _⟩ := copyPage_spec t f htake hi hug
        have hone' := frames_take hone
        have hrest := pageCount_congr his' (hone.same t hut htg)
        rcases ih his' (hone.used ht) (hone.used hu) (hone.used h0) with ⟨hok, hn⟩ | ⟨hbad, hn⟩
        · exact .inl ⟨hok, by omega⟩
        · exact .inr ⟨hbad, by omega⟩

theorem cloneTables_count {dis : List Nat} (hdis : ∀ di ∈ dis, di < userTables) (hsrc : Space s d R)
    (hR : ∀ f ∈ R, f ∉ pool.free s) (hd' : d' ∉ R) (h0 : 0 ∉ pool.free s) :
    ((cloneTables (d * pageSize) (d' * pageSize) dis s).1 = true ∧
        frames (cloneTables (d * pageSize) (d' * pageSize) dis s).2 + tableCount s d dis = frames s) ∨
      ((cloneTables (d * pageSize) (d' * pageSize) dis s).1 = false ∧ frames s < tableCount s d dis) := by
  induction dis generalizing s with
  | nil =>
    rw [cloneTables]
    exact .inl ⟨rfl, Nat.add_zero _⟩
  | cons di dis ih =>
    obtain ⟨hdi, hdis'⟩ := List.forall_mem_cons.mp hdis
    rw [tableCount]
    cases ht : target s d di with
    | none =>
      rw [cloneTables_cons_none ht, Option.map_none, Option.getD_none, Nat.zero_add]
      exact ih hdis' hsrc hR h0
    | some t =>
      rw [Option.map_some, Option.getD_some]
      rcases allocZero_cases s with ⟨_, _, hfail, _, hnone⟩ | ⟨u, hu0, hu, htake, hzero⟩
      · rw [cloneTables_cons_full ht hfail, frames_eq_zero (hnone h0)]
        exact .inr ⟨rfl, by omega⟩
      · have hufree := htake.was_free u rfl
        have hRu : ∀ x ∈ R, x ≠ u := fun x hx he => hR x hx (he ▸ hufree)
        have htR : t ∈ R := hsrc.table_mem hdi ht
        have hone := frames_take htake
        have hpages := pageCount_congr (fun i (hi : i ∈ List.range tableEntries) => List.mem_range.mp hi)
          (htake.stays (hRu t htR))
        have hcount := @clonePages_count s.allocZero.2 t u (List.range tableEntries)
          (fun _ => List.mem_range.mp) (htake.used (hR t htR)) (htake.disjoint u rfl) (hRu t htR)
          (htake.used h0)
        rw [cloneTables_cons_some ht hu hu0 (htake.stays (hRu d hsrc.dir_mem)) hdi]
        generalize hr : clonePages (t * pageSize) (u * pageSize) (List.range tableEntries)
          s.allocZero.2 = r at hcount
        obtain ⟨_ | _, s2⟩ := r <;> dsimp only at hcount
        · rcases hcount with ⟨hok, _⟩ | ⟨_, hn⟩
          · cases hok
          · exact .inr ⟨rfl, by omega⟩
        · rcases hcount with ⟨_, hn⟩ | ⟨hbad, _⟩
          · obtain ⟨P, htake2, _⟩ := copyTable_spec hR htR
              (fun i hi f hf => hsrc.owned ((frameAt_page hdi ht hi).trans hf)) htake hzero hr
            simp only [if_true]
            generalize hs3 : setEntry s2 (d' * pageSize) di
              (u * pageSize ||| flagBits (entry s2 (d * pageSize) di)) = s3
            have hfree3 : pool.free s3 = pool.free s2 := by rw [← hs3]; rfl
            have hframes3 : frames s3 = frames s2 := by rw [← hs3]; rfl
            have hcell : ∀ x ∈ R, pool.cell s3 x = pool.cell s x := by
              intro x hx
              have hxd : x ≠ d' := fun he => hd' (he ▸ hx)
              have hxnew : x ∉ {u} ∪ P := fun hx' => hR x hx (htake2.was_free x hx')
              rw [← hs3, cell_setEntry (user_lt hdi) hxd]
              exact htake2.stays hxnew
            have hleft3 : ∀ x, x ∉ pool.free s → x ∉ pool.free s3 := by
              intro x hx hx'
              rw [hfree3, htake2.free_iff] at hx'
              exact hx hx'.1
            have hrest := tableCount_congr hdis' hsrc hcell
            rcases ih hdis' (hsrc.congr hcell) (fun x hx => hleft3 x (hR x hx)) (hleft3 0 h0) with
              ⟨hok, hn'⟩ | ⟨hbad, hn'⟩
            · exact .inl ⟨hok, by omega⟩
            · exact .inr ⟨hbad, by omega⟩
          · cases hbad

/-! ## 3. The directory -/

variable {kernelPgdir : Nat}

/-- A directory is copied and the frames for it are taken, or they are not there. -/
theorem pgdirClone_count (hsrc : Space s d R) (hR : ∀ f ∈ R, f ∉ pool.free s)
    (h0 : 0 ∉ pool.free s) :
    ((pgdirClone kernelPgdir (d * pageSize) s).1 ≠ 0 ∧
        frames (pgdirClone kernelPgdir (d * pageSize) s).2 + spaceCount s d = frames s) ∨
      (pgdirClone kernelPgdir (d * pageSize) s).1 = 0 ∧ frames s < spaceCount s d := by
  unfold pgdirClone spaceCount
  dsimp only
  rcases pgdirCreate_cases kernelPgdir s with ⟨hfail, hnone, _⟩ | ⟨d', hd0, hd, htake, _⟩
  · rw [if_pos hfail, frames_eq_zero (hnone h0)]
    exact .inr ⟨rfl, by omega⟩
  · have hne : d' * pageSize ≠ 0 := addr_ne ‹_›
    rw [hd, if_neg hne]
    have hdfree := htake.was_free d' rfl
    have hRd : ∀ x ∈ R, x ≠ d' := fun x hx he => hR x hx (he ▸ hdfree)
    have hcell : ∀ x ∈ R, pool.cell (pgdirCreate kernelPgdir s).2 x = pool.cell s x :=
      fun x hx => htake.stays (hRd x hx)
    have hone := frames_take htake
    have hdis : ∀ di ∈ List.range userTables, di < userTables := fun _ => List.mem_range.mp
    have hrest := tableCount_congr hdis hsrc hcell
    rcases cloneTables_count hdis (hsrc.congr hcell) (fun x hx => htake.used (hR x hx))
      (fun hx => hRd d' hx rfl) (htake.used h0) with ⟨hok, hn⟩ | ⟨hbad, hn⟩
    · rw [hok, if_pos rfl]
      refine .inl ⟨hne, ?_⟩
      dsimp only
      omega
    · rw [hbad, if_neg (by decide)]
      exact .inr ⟨rfl, by omega⟩

/-- **A directory is copied if and only if its frames are there.** -/
theorem pgdirClone_iff (hsrc : Space s d R) (hR : ∀ f ∈ R, f ∉ pool.free s)
    (h0 : 0 ∉ pool.free s) :
    (pgdirClone kernelPgdir (d * pageSize) s).1 ≠ 0 ↔ spaceCount s d ≤ frames s := by
  rcases @pgdirClone_count s d R kernelPgdir hsrc hR h0 with ⟨hok, hn⟩ | ⟨hbad, hn⟩
  · exact ⟨fun _ => by omega, fun _ => hok⟩
  · exact ⟨fun h => absurd hbad h, fun h => by omega⟩

/-! ## 4. The slab allocations left -/

theorem mapPage_slab (pd va pa flags : Nat) (s : Vm) : (mapPage pd va pa flags s).2.slab = s.slab := by
  have hpte : (getPte pd va true s).2.slab = s.slab := by
    unfold getPte
    dsimp only
    split
    · rfl
    · split
      · split <;> rfl
      · rfl
  unfold mapPage
  generalize getPte pd va true s = r at hpte
  obtain ⟨_ | ⟨t, i⟩, s1⟩ := r <;> exact hpte

/-- A property that every allocation, every release and every write keeps. -/
structure AccessKeeps (P : Vm → Prop) : Prop where
  alloc : ∀ {s}, P s → P s.alloc.2
  free : ∀ {s} (phys : Nat), P s → P (s.free phys)
  write : ∀ {s} (mem : Mem), P s → P { s with mem := mem }

namespace AccessKeeps

variable {P : Vm → Prop} (h : AccessKeeps P)
include h

theorem allocZero (hs : P s) : P s.allocZero.2 := by
  rw [allocZero_eq]
  dsimp only
  split
  · exact h.write _ (h.alloc hs)
  · exact h.alloc hs

theorem destroyPages (t : Nat) (is : List Nat) (hs : P s) : P (destroyPages t is s) := by
  induction is generalizing s with
  | nil => exact hs
  | cons i is ih =>
    rw [Vmm.destroyPages]
    split
    · exact ih (h.free _ hs)
    · exact ih hs

theorem destroyTables (pd : Nat) (dis : List Nat) (hs : P s) : P (destroyTables pd dis s) := by
  induction dis generalizing s with
  | nil => exact hs
  | cons di dis ih =>
    rw [Vmm.destroyTables]
    split
    · exact ih (h.free _ (h.destroyPages _ _ hs))
    · exact ih hs

theorem pgdirDestroy (kernelPgdir pd : Nat) (hs : P s) : P (pgdirDestroy kernelPgdir pd s) := by
  unfold Vmm.pgdirDestroy
  split
  · exact hs
  · exact h.free _ (h.destroyTables _ _ hs)

theorem clonePages (spt dpt : Nat) (is : List Nat) (hs : P s) : P (clonePages spt dpt is s).2 := by
  induction is generalizing s with
  | nil => exact hs
  | cons i is ih =>
    rw [Vmm.clonePages]
    dsimp only
    split
    · split
      · exact h.alloc hs
      · exact ih (h.write _ (h.write _ (h.alloc hs)))
    · exact ih hs

theorem cloneTables (src dst : Nat) (dis : List Nat) (hs : P s) : P (cloneTables src dst dis s).2 := by
  induction dis generalizing s with
  | nil => exact hs
  | cons di dis ih =>
    have hzero := h.allocZero hs
    rw [Vmm.cloneTables]
    dsimp only
    generalize List.range tableEntries = is
    have hpages := h.clonePages (pteAddr (entry s.allocZero.2 src di)) s.allocZero.1 is hzero
    split
    · split
      · exact hzero
      · split
        · exact ih (h.write _ hpages)
        · exact hpages
    · exact ih hs

theorem pgdirCreate (kernelPgdir : Nat) (hs : P s) : P (pgdirCreate kernelPgdir s).2 := by
  unfold Vmm.pgdirCreate
  dsimp only
  split
  · exact h.allocZero hs
  · exact h.write _ (h.allocZero hs)

theorem pgdirClone (kernelPgdir src : Nat) (hs : P s) : P (pgdirClone kernelPgdir src s).2 := by
  have hcreate := h.pgdirCreate kernelPgdir hs
  unfold Vmm.pgdirClone
  dsimp only
  generalize List.range userTables = dis
  have htables := h.cloneTables src (Vmm.pgdirCreate kernelPgdir s).1 dis hcreate
  split
  · exact hcreate
  · split
    · exact htables
    · exact h.pgdirDestroy _ _ htables

end AccessKeeps

theorem pgdirClone_slab (kernelPgdir d : Nat) (s : Vm) : (pgdirClone kernelPgdir d s).2.slab = s.slab :=
  AccessKeeps.pgdirClone (P := fun s' => s'.slab = s.slab) ⟨id, fun _ => id, fun _ => id⟩ kernelPgdir d rfl

/-- How the slab allocation after `i` others ends. -/
def Vm.granted (s : Vm) (i : Nat) : Bool := s.slab.getD i true

theorem slabAlloc_granted (s : Vm) : s.slabAlloc = (s.granted 0, { s with slab := s.slab.tail }) := by
  obtain ⟨pages, mem, _ | ⟨ok, slab⟩⟩ := s <;> rfl

theorem granted_tail (s : Vm) (i : Nat) : ({ s with slab := s.slab.tail } : Vm).granted i = s.granted (i + 1) := by
  obtain ⟨pages, mem, _ | ⟨ok, slab⟩⟩ := s <;> rfl

theorem granted_congr (h : s'.slab = s.slab) (i : Nat) : s'.granted i = s.granted i := by
  rw [Vm.granted, Vm.granted, h]

/-- The areas are copied if and only if each gets its object. -/
theorem cloneVmas_iff {vmas : List Vma} (mm : MmStruct) :
    (cloneVmas kernelPgdir vmas mm s).1.isSome ↔ ∀ i < vmas.length, s.granted i = true := by
  induction vmas generalizing mm s with
  | nil =>
    rw [cloneVmas]
    simp
  | cons vma vmas ih =>
    rw [cloneVmas, slabAlloc_granted]
    dsimp only
    split
    · rename_i hok
      rw [ih]
      simp only [granted_tail, List.length_cons]
      constructor
      · intro h i hi
        cases i with
        | zero => exact hok
        | succ i => exact h i (Nat.lt_of_succ_lt_succ hi)
      · intro h i hi
        exact h (i + 1) (Nat.succ_lt_succ hi)
    · rename_i hbad
      constructor
      · intro h
        cases h
      · intro h
        exact absurd (h 0 (Nat.succ_pos _)) hbad

/-- **An address space is copied** if and only if it gets an object, the frames are there, and each area gets an
    object. -/
theorem mmClone_iff {src : MmStruct} (hsrc : Space s d R)
    (hdir : src.pgdir = d * pageSize) (hR : ∀ f ∈ R, f ∉ pool.free s) (h0 : 0 ∉ pool.free s) :
    (mmClone kernelPgdir src s).1.isSome ↔
      s.granted 0 = true ∧ spaceCount s d ≤ frames s ∧ ∀ i < src.vmas.length, s.granted (i + 1) = true := by
  have hcopy := @pgdirClone_iff { s with slab := s.slab.tail } d R kernelPgdir (hsrc.congr fun _ _ => rfl)
    hR h0
  have hcount : tableCount { s with slab := s.slab.tail } d (List.range userTables) =
      tableCount s d (List.range userTables) :=
    tableCount_congr (fun _ => List.mem_range.mp) hsrc fun _ _ => rfl
  rw [spaceCount, hcount] at hcopy
  have hslab := pgdirClone_slab kernelPgdir (d * pageSize) { s with slab := s.slab.tail }
  rw [mmClone, slabAlloc_granted, hdir]
  dsimp only
  generalize pgdirClone kernelPgdir (d * pageSize) { s with slab := s.slab.tail } = r at hcopy hslab
  have hcopy : r.1 ≠ 0 ↔ spaceCount s d ≤ frames s := hcopy
  by_cases hok : s.granted 0 = true
  · rw [if_pos hok]
    by_cases hr : r.1 = 0
    · rw [if_pos hr]
      constructor
      · intro h
        cases h
      · rintro ⟨_, hle, _⟩
        exact absurd hr (hcopy.mpr hle)
    · rw [if_neg hr, cloneVmas_iff]
      have hgranted : ∀ i, r.2.granted i = s.granted (i + 1) := fun i =>
        (granted_congr hslab i).trans (granted_tail s i)
      simp only [hgranted]
      exact ⟨fun h => ⟨hok, hcopy.mp hr, h⟩, fun h => h.2.2⟩
  · rw [if_neg hok]
    constructor
    · intro h
      cases h
    · intro h
      exact absurd h.1 hok

end OreUnix.Vmm
