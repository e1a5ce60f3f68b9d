/-
  Subject: ONE KERNEL HALF FOR ALL DIRECTORIES: `pgdir_create` copies the kernel's upper directory entries once, a
  fault in the kernel heap writes them in the kernel's directory only.

  * `pgdirClone_confined` -- a copy of a directory, finished or given up, writes and frees only frames that were free
    before it;
  * `Shared` -- every directory has the kernel's upper entries and its frame is neither free nor one of the kernel's;
    creating and copying directories keep it, and a fault keeps it unless it adds a table;
  * `fault_splits` -- a fault that adds a table while a directory lives ends it.
-/
import OreUnix.Mm.CloneSpec
import OreUnix.Mm.DirectMap
import OreUnix.Mm.Kmalloc

namespace OreUnix.Vmm

open ByteMem Pmm Bitmap FramePool Lts

variable {s s' : Vm} {d d' t u f g i x va : Nat} {D N : Set Nat}
variable {F : Set Nat} {di : Nat} {dis is : List Nat} {s1 : Vm} {w : Spaces}

/-! ## 1. Copies that may fail -/

/-- One page copied, whatever the source's entry was. -/
theorem copied_takes (htake : Takes pool ∅ {g} s s.alloc.2) (hi : i < tableEntries) (hug : u ≠ g) (f e : Nat) :
    Takes pool {u} {g} s (setEntry (s.alloc.2.copyFrame g f) (u * pageSize) i e) ∧ ∀ j, j ≠ i → j < tableEntries →
        entry (setEntry (s.alloc.2.copyFrame g f) (u * pageSize) i e) (u * pageSize) j = entry s (u * pageSize) j := by
  refine ⟨⟨htake.was_free, htake.free_iff, fun y hy hyg => ?_⟩, fun j hj hjlt => ?_⟩
  · rw [cell_setEntry hi hy, cell_copyFrame_of_ne _ _ hyg]
    rfl
  · rw [entry_setEntry_of_ne hj]
    exact entry_congr (cell_copyFrame_of_ne s.alloc.2 f hug) hjlt

/-- What a loop over the entries `is` of a new table `u` does, finished or not: it takes the frames `N`, writes only
    those and the table, and the entries lead to frames of `N`, each to one of its own. -/
structure PagesTaken (s s' : Vm) (u : Nat) (is : List Nat) (N : Set Nat) : Prop where
  takes : Takes pool {u} N s s'
  others : ∀ i < tableEntries, i ∉ is → entry s' (u * pageSize) i = entry s (u * pageSize) i
  new : ∀ i ∈ is, ∀ f, target s' u i = some f → f ∈ N
  inj : ∀ i ∈ is, ∀ j ∈ is, ∀ f, target s' u i = some f → target s' u j = some f → i = j

/-- A loop that ends at once, with a state in which the table is as it was. -/
theorem PagesTaken.stop (htake : Takes pool ∅ N s s') (hu : u ∉ N) (his : ∀ i ∈ is, i < tableEntries)
    (hempty : ∀ i ∈ is, target s u i = none) : PagesTaken s s' u is N := by
  have hcell : pool.cell s' u = pool.cell s u := htake.stays hu
  have hnone : ∀ i ∈ is, target s' u i = none := fun i hi => (target_congr hcell (his i hi)).trans (hempty i hi)
  refine ⟨htake.mono (Set.empty_subset _), fun i hi _ => entry_congr hcell hi, fun i hi f hf => ?_,
    fun i hi _ _ f hf _ => ?_⟩
  · rw [hnone i hi] at hf
    cases hf
  · rw [hnone i hi] at hf
    cases hf

/-- One round of the loop for a present entry, with whatever it reads in the source. -/
theorem clonePages_cons_copied (spt : Nat) (is : List Nat) (hpres : present (entry s spt i) = true)
    (hg : s.alloc.1 = g * pageSize) (hg0 : g ≠ 0) : ∃ f y, y < pageSize ∧
      clonePages spt (u * pageSize) (i :: is) s = clonePages spt (u * pageSize) is
        (setEntry (s.alloc.2.copyFrame g f) (u * pageSize) i (g * pageSize ||| y)) := by
  have hne : g * pageSize ≠ 0 := addr_ne ‹_›
  rw [clonePages, if_pos hpres]
  dsimp only
  rw [hg, if_neg hne]
  exact ⟨entry s.alloc.2 spt i / pageSize, _, flagBits_lt _, rfl⟩

/-- The entry of a copied page leads to its frame or nowhere. -/
theorem target_copied (hg : g < bitmapBits) {y : Nat} (hy : y < pageSize)
    (h : target (setEntry s (u * pageSize) i (g * pageSize ||| y)) u i = some f) : f = g := by
  have hy' : y < 4096 := hy
  rw [target_setEntry_self (or_lt hg hy), entryFrame] at h
  split at h
  · have hval := Option.some.inj h
    rw [or_flags hy, pageSize_eq] at hval
    omega
  · cases h

/-- The entry before those of a loop is not written by it. -/
theorem PagesTaken.cons {is : List Nat} {s1 : Vm} (hN : PagesTaken s1 s' u is N) (hone : Takes pool {u} {g} s s1)
    (hkeep : ∀ j, j ≠ i → j < tableEntries → entry s1 (u * pageSize) j = entry s (u * pageSize) j)
    (hfirst : ∀ f, target s1 u i = some f → f = g) (hi : i < tableEntries) (hni : i ∉ is) :
    PagesTaken s s' u (i :: is) ({g} ∪ N) := by
  have hgN : g ∉ N := fun hm => ((hone.free_iff g).mp (hN.takes.was_free g hm)).2 rfl
  have hhead : ∀ f, target s' u i = some f → f = g := by
    intro f hf
    rw [target, hN.others i hi hni] at hf
    exact hfirst f hf
  refine ⟨hone.trans (hN.takes.mono Set.subset_union_left), fun j hj hjn => ?_, fun j hj f hf => ?_,
    fun j hj k hk f hf hf' => ?_⟩
  · rw [List.mem_cons, not_or] at hjn
    exact (hN.others j hj hjn.2).trans (hkeep j hjn.1 hj)
  · rcases List.mem_cons.mp hj with rfl | hj
    · exact .inl (hhead f hf)
    · exact .inr (hN.new j hj f hf)
  · by_cases hji : j = i <;> by_cases hki : k = i
    · exact hji.trans hki.symm
    · have hk' := (List.mem_cons.mp hk).resolve_left hki
      exact absurd (hhead f (hji ▸ hf) ▸ hN.new k hk' f hf') hgN
    · have hj' := (List.mem_cons.mp hj).resolve_left hji
      exact absurd (hhead f (hki ▸ hf') ▸ hN.new j hj' f hf) hgN
    · exact hN.inj j ((List.mem_cons.mp hj).resolve_left hji) k ((List.mem_cons.mp hk).resolve_left hki) f hf hf'

/-- An entry that was not present and is not written. -/
theorem PagesTaken.skip (hN : PagesTaken s s' u is N) (hi : i < tableEntries) (hni : i ∉ is)
    (hempty : target s u i = none) : PagesTaken s s' u (i :: is) N := by
  have hnone : target s' u i = none := by
    rw [target, hN.others i hi hni]
    exact hempty
  refine ⟨hN.takes, fun j hj hjn => hN.others j hj fun hm => hjn (.tail _ hm),
    fun j hj f hf => ?_, fun j hj k hk f hf hf' => ?_⟩
  · rcases List.mem_cons.mp hj with rfl | hj
    · rw [hnone] at hf
      cases hf
    · exact hN.new j hj f hf
  · rcases List.mem_cons.mp hj with rfl | hj
    · rw [hnone] at hf
      cases hf
    · rcases List.mem_cons.mp hk with rfl | hk
      · rw [hnone] at hf'
        cases hf'
      · exact hN.inj j hj k hk f hf hf'

theorem clonePages_taken (spt : Nat) (hnd : is.Nodup) (his : ∀ i ∈ is, i < tableEntries) (hu : u ∉ pool.free s)
    (hempty : ∀ i ∈ is, target s u i = none) :
    ∃ N, PagesTaken s (clonePages spt (u * pageSize) is s).2 u is N := by
  induction is generalizing s with
  | nil => exact ⟨∅, .stop (Takes.refl ..) (Set.notMem_empty u) his hempty⟩
  | cons i is ih =>
    obtain ⟨hni, hnd⟩ := List.nodup_cons.mp hnd
    obtain ⟨hi, his'⟩ := List.forall_mem_cons.mp his
    have hempty' : ∀ j ∈ is, target s u j = none := fun j hj => hempty j (.tail _ hj)
    by_cases hpres : present (entry s spt i) = true
    · rcases alloc_cases s with ⟨N, _, h0, htake, _⟩ | ⟨g, hg0, hg, htake⟩
      · rw [clonePages, if_pos hpres]
        dsimp only
        rw [if_pos h0]
        exact ⟨N, .stop htake (fun hm => hu (htake.was_free u hm)) his hempty⟩
      · have hgfree := htake.was_free g rfl
        have hug : u ≠ g := fun he => hu (he ▸ hgfree)
        obtain ⟨f, y, hy, hround⟩ := clonePages_cons_copied (u := u) spt is hpres hg hg0
        obtain ⟨hone, hkeep⟩ := copied_takes htake hi hug f (g * pageSize ||| y)
        rw [hround]
        obtain ⟨N, hN⟩ := ih hnd his' (hone.used hu) fun j hj => by
          rw [target, hkeep j (fun heq => hni (heq ▸ hj)) (his' j hj)]
          exact hempty' j hj
        exact ⟨_, hN.cons hone hkeep (fun f hf => target_copied (free_lt hgfree) hy hf) hi hni⟩
    · rw [clonePages, if_neg hpres]
      obtain ⟨N, hN⟩ := ih hnd his' hu hempty'
      exact ⟨N, hN.skip hi hni (hempty i (.head _))⟩

/-- What a loop over the entries `dis` of a new directory does, finished or not. -/
structure TablesTaken (s s' : Vm) (d' : Nat) (dis : List Nat) (D N : Set Nat) : Prop where
  takes : Takes pool {d'} N s s'
  others : ∀ di < tableEntries, di ∉ dis → entry s' (d' * pageSize) di = entry s (d' * pageSize) di
  space : Space s' d' (D ∪ N)

/-- The loop stops with frames taken and the directory as it was. -/
theorem TablesTaken.stop (htake : Takes pool ∅ N s s') (hspace : Space s d' D) (hD : ∀ f ∈ D, f ∉ pool.free s) :
    TablesTaken s s' d' dis D N := by
  have hcell : ∀ f ∈ D, pool.cell s' f = pool.cell s f := fun f hf => htake.keeps (hD f hf)
  exact ⟨htake.mono (Set.empty_subset _), fun di hdi _ => entry_congr (hcell d' hspace.dir_mem) hdi,
    (hspace.congr hcell).mono Set.subset_union_left⟩

theorem table_taken (spt : Nat) (htake : Takes pool ∅ {u} s s1) (hzero : pool.cell s1 u = fun _ => 0) :
    ∃ P, Takes pool ∅ ({u} ∪ P) s (clonePages spt (u * pageSize) (List.range tableEntries) s1).2 ∧ u ∉ P ∧
      PagesTaken s1 (clonePages spt (u * pageSize) (List.range tableEntries) s1).2 u (List.range tableEntries) P := by
  obtain ⟨P, hP⟩ := clonePages_taken (s := s1) (u := u) spt List.nodup_range (fun _ => List.mem_range.mp)
    (htake.disjoint u rfl) fun i hi => target_zero hzero (List.mem_range.mp hi)
  refine ⟨P, htake.trans (hP.takes.mono Set.subset_union_right), fun hm => ?_, hP⟩
  exact htake.disjoint u rfl (hP.takes.was_free u hm)

theorem cloneTables_taken (hnd : dis.Nodup) (hdis : ∀ di ∈ dis, di < userTables) (hd : d ∉ pool.free s) (hdD : d ∉ D)
    (hspace : Space s d' D) (hD : ∀ f ∈ D, f ∉ pool.free s) (hempty : ∀ di ∈ dis, target s d' di = none) :
    ∃ N, TablesTaken s (cloneTables (d * pageSize) (d' * pageSize) dis s).2 d' dis D N := by
  induction dis generalizing s D with
  | nil => exact ⟨∅, .stop (Takes.refl ..) hspace hD⟩
  | cons di dis ih =>
    obtain ⟨hni, hnd⟩ := List.nodup_cons.mp hnd
    obtain ⟨hdi, hdis'⟩ := List.forall_mem_cons.mp hdis
    have hempty' : ∀ dj ∈ dis, target s d' dj = none := fun dj hdj => hempty dj (.tail _ hdj)
    cases ht : target s d di with
    | none =>
      rw [cloneTables_cons_none ht]
      obtain ⟨N, hN⟩ := ih hnd hdis' hd hdD hspace hD hempty'
      exact ⟨N, hN.takes, fun dj hdj hdjn => hN.others dj hdj fun hm => hdjn (.tail _ hm), hN.space⟩
    | some t =>
      rcases allocZero_cases s with ⟨N, _, h0, htake, _⟩ | ⟨u, hu0, hu, htake, hzero⟩
      · rw [cloneTables_cons_full ht h0]
        exact ⟨N, .stop htake hspace hD⟩
      · have hufree := htake.was_free u rfl
        have hdu : d ≠ u := fun he => hd (he ▸ hufree)
        rw [cloneTables_cons_some ht hu hu0 (htake.stays hdu) hdi]
        obtain ⟨P, htake2, huP, hP⟩ := table_taken (t * pageSize) htake hzero
        generalize clonePages (t * pageSize) (u * pageSize) (List.range tableEntries) s.allocZero.2 = r at *
        have hDnew : ∀ f ∈ D, f ∉ {u} ∪ P := fun f hf hm => hD f hf (htake2.was_free f hm)
        have hDcell : ∀ f ∈ D, pool.cell r.2 f = pool.cell s f := fun f hf => htake2.stays (hDnew f hf)
        have hdcell : pool.cell r.2 d = pool.cell s d := htake2.keeps hd
        dsimp only
        split
        · -- the table is complete and entered in the copy
          have hflags : present (flagBits (entry r.2 (d * pageSize) di)) = true := by
            rw [present_flagBits, entry_congr hdcell (user_lt hdi)]
            exact (target_some ht).1
          generalize he : u * pageSize ||| flagBits (entry r.2 (d * pageSize) di) = e
          have hlt : e < 2 ^ 32 := he ▸ or_lt (free_lt hufree) (flagBits_lt _)
          have hframe : entryFrame e = some u := he ▸ entryFrame_or (flagBits_lt _) hflags
          have hlink : Space (setEntry r.2 (d' * pageSize) di e) d' (D ∪ ({u} ∪ P)) := by
            refine (hspace.congr hDcell).link hdi ?_ hlt hframe Set.subset_union_left
              ⟨.inr (.inl rfl), fun hm => hDnew u hm (.inl rfl)⟩
                (fun pi f hpi hf => ?_) fun pi pj f hpi hpj hf hf' => ?_
            · rw [target_congr (hDcell d' hspace.dir_mem) (user_lt hdi)]
              exact hempty di (.head _)
            · have hfP := hP.new pi (List.mem_range.mpr hpi) f hf
              exact ⟨.inr (.inr hfP), fun hm => hDnew f hm (.inr hfP), fun heq => huP (heq ▸ hfP)⟩
            · exact hP.inj pi (List.mem_range.mpr hpi) pj (List.mem_range.mpr hpj) f hf hf'
          have htake3 : Takes pool {d'} ({u} ∪ P) s (setEntry r.2 (d' * pageSize) di e) := by
            have hwrite := (htake2.mono (Set.empty_subset {d'})).trans
              ((write_setEntry (s := r.2) (f := d') (e := e) (user_lt hdi)).mono Set.subset_union_left)
            rwa [Set.union_empty] at hwrite
          have hent : ∀ dj < tableEntries, dj ≠ di →
              entry (setEntry r.2 (d' * pageSize) di e) (d' * pageSize) dj = entry s (d' * pageSize) dj := by
            intro dj hdj hne
            rw [entry_setEntry_of_ne hne, entry_congr (hDcell d' hspace.dir_mem) hdj]
          obtain ⟨N, hN⟩ := ih (D := D ∪ ({u} ∪ P)) hnd hdis' (htake3.used hd)
            (fun hm => hm.elim hdD fun hm => hd (htake2.was_free d hm)) hlink
            (fun f hf hm => hf.elim (fun hf => hD f hf ((htake3.free_iff f).mp hm).1)
              fun hf => htake3.disjoint f hf hm)
            fun dj hdj => by
              rw [target, hent dj (user_lt (hdis' dj hdj)) fun heq => hni (heq ▸ hdj)]
              exact hempty' dj hdj
          refine ⟨({u} ∪ P) ∪ N, htake3.trans (hN.takes.mono Set.subset_union_left), fun dj hdj hdjn => ?_, ?_⟩
          · rw [List.mem_cons, not_or] at hdjn
            exact (hN.others dj hdj hdjn.2).trans (hent dj hdj hdjn.1)
          · rw [← Set.union_assoc]
            exact hN.space
        · exact ⟨_, .stop htake2 hspace hD⟩

/-- The part of a directory that `pgdir_create` copies. -/
def UpperHalf (di : Nat) : Prop := userTables ≤ di ∧ di < tableEntries

/-- The upper entries of directory `x` are those of directory `d` in the state `s`. -/
def SameUpper (s : Vm) (d : Nat) (s' : Vm) (x : Nat) : Prop :=
  ∀ di, UpperHalf di → entry s' (x * pageSize) di = entry s (d * pageSize) di

theorem word_copy (m : Mem) (dst src n k : Nat) (h : k + 4 ≤ n) :
    word (copy m dst src n) (dst + k) = word m (src + k) := by
  have hbyte : ∀ j < n, copy m dst src n (dst + j) = m (src + j) := by
    intro j hj
    rw [copy, if_pos ⟨Nat.le_add_right dst j, Nat.add_lt_add_left hj dst⟩, Nat.add_sub_cancel_left]
  simp only [word, Nat.add_assoc]
  rw [hbyte k (by omega), hbyte (k + 1) (by omega), hbyte (k + 2) (by omega), hbyte (k + 3) (by omega)]

/-- **`pgdir_create`** copies the upper entries of the kernel's directory. -/
theorem pgdirCreate_upper (hd : d ∉ pool.free s) (hne : (pgdirCreate (d * pageSize) s).1 ≠ 0) :
    ∃ x, (pgdirCreate (d * pageSize) s).1 = x * pageSize ∧ SameUpper s d (pgdirCreate (d * pageSize) s).2 x := by
  unfold pgdirCreate at hne ⊢
  dsimp only at hne ⊢
  rcases allocZero_cases s with ⟨_, _, h0, _⟩ | ⟨x, _, hx, htake, _⟩
  · rw [if_pos h0] at hne
    exact absurd rfl hne
  · have hdx : d ≠ x := fun heq => hd (heq ▸ htake.was_free x rfl)
    have hcell : pool.cell s.allocZero.2 d = pool.cell s d := htake.stays hdx
    by_cases h0 : s.allocZero.1 = 0
    · rw [if_pos h0] at hne
      exact absurd rfl hne
    · rw [if_neg h0]
      refine ⟨x, hx, fun di hdi => ?_⟩
      obtain ⟨h1, h2⟩ := hdi
      have h1 : 768 ≤ di := h1
      have h2 : di < 1024 := h2
      have haddr : ∀ a, a + 4 * di = a + 4 * userTables + 4 * (di - 768) := by
        intro a
        change a + 4 * di = a + 4 * 768 + 4 * (di - 768)
        omega
      rw [← entry_congr hcell h2, hx, entry, entry, haddr, haddr]
      exact word_copy _ _ _ _ _ (by omega)

/-- **A copy of a directory**, finished or given up: it works with frames that were free, and its upper entries are
    those `pgdir_create` copied. -/
theorem pgdirClone_confined {src : Nat} (hd : d ∉ pool.free s) (hsrc : src ∉ pool.free s) :
    ∃ F, Confined pool ∅ s (pgdirClone (d * pageSize) (src * pageSize) s).2 F ∧
      ((pgdirClone (d * pageSize) (src * pageSize) s).1 ≠ 0 → ∃ x ∈ F,
        (pgdirClone (d * pageSize) (src * pageSize) s).1 = x * pageSize ∧
          SameUpper s d (pgdirClone (d * pageSize) (src * pageSize) s).2 x) := by
  have hnone : ∀ f ∈ (∅ : Set Nat), f ∉ pool.free s := fun f hf => absurd hf (Set.notMem_empty f)
  rcases pgdirCreate_cases (d * pageSize) s with ⟨h0, _, N, _, htake⟩ | ⟨x, hx0, hx, htake, hempty⟩
  · unfold pgdirClone
    dsimp only
    rw [if_pos h0]
    exact ⟨_, htake.confined (Set.empty_subset _) hnone, fun hne => absurd rfl hne⟩
  · have hne : x * pageSize ≠ 0 := addr_ne ‹_›
    have hfree := htake.was_free x rfl
    obtain ⟨x', hx', hupper⟩ := pgdirCreate_upper hd (by rw [hx]; exact hne)
    have hxx : x' = x := Nat.eq_of_mul_eq_mul_right (by decide) (hx'.symm.trans hx)
    subst hxx
    unfold pgdirClone
    dsimp only
    rw [hx, if_neg hne]
    generalize (pgdirCreate (d * pageSize) s).2 = s1 at *
    have hspace : Space s1 x' {x'} := .empty hempty
    have hsrc1 : src ∉ pool.free s1 := htake.used hsrc
    have hsrcx : src ∉ ({x'} : Set Nat) := fun hm => hsrc (Set.mem_singleton_iff.mp hm ▸ hfree)
    obtain ⟨N, hN⟩ := cloneTables_taken List.nodup_range (fun _ => List.mem_range.mp) hsrc1 hsrcx hspace
      (fun f hf => htake.disjoint f hf) fun di hdi => hempty di (List.mem_range.mp hdi)
    generalize cloneTables (src * pageSize) (x' * pageSize) (List.range userTables) s1 = r at hN ⊢
    have hconf := (htake.trans (hN.takes.mono Set.subset_union_right)).confined (Set.empty_subset ∅) hnone
    rw [Set.empty_union] at hconf
    split
    · refine ⟨_, hconf, fun _ => ⟨x', .inl rfl, rfl, fun di hdi => ?_⟩⟩
      refine (hN.others di hdi.2 fun hm => ?_).trans (hupper di hdi)
      exact Nat.not_lt.mpr hdi.1 (List.mem_range.mp hm)
    · -- the unfinished copy gives back frames of its own
      have hdk : x' * pageSize ≠ d * pageSize := fun heq => hd (Nat.eq_of_mul_eq_mul_right (by decide) heq ▸ hfree)
      have hgives := pgdirDestroy_gives hx0 hdk r.2
      refine ⟨_, hconf.trans (hgives.confined (Set.empty_subset _) ?_ hconf.apart), fun hne => absurd rfl hne⟩
      intro f hf
      obtain ⟨_, k, hk⟩ := hf
      exact hN.space.owned hk

/-! ## 2. Directories and the kernel heap -/

/-- The frame the page of `va` is in under the directory in frame `x`. -/
def translate (s : Vm) (x va : Nat) : Option Nat := (target s x (pdIndex va)).bind fun t => target s t (ptIndex va)

/-- The memory, the directories made so far and the kernel heap. -/
structure Spaces where
  vm : Vm
  live : List Nat
  heap : Kmalloc.Heap

/-- A directory that was made is live, at address 0 none was. -/
def Spaces.add (w : Spaces) (r : Nat × Vm) : Spaces :=
  { w with vm := r.2, live := if r.1 = 0 then w.live else r.1 / pageSize :: w.live }

inductive SpacesEvent where
  | create
  | clone (src : Nat)
  | grow (bytes : Nat)
  | touch (cr3 va : Nat)

/-- `pgdir_create`, `pgdir_clone`, the growth of the heap in `kmalloc`, and an access to the heap with some directory
    in CR3: the page is there, or `page_fault_handler` is called for a page that is not present. -/
inductive SpacesStep (d : Nat) : Spaces → SpacesEvent → Spaces → Prop
  | create (w : Spaces) : SpacesStep d w .create (w.add (pgdirCreate (d * pageSize) w.vm))
  | clone {w : Spaces} {src : Nat} (h : src ∈ w.live) :
      SpacesStep d w (.clone src) (w.add (pgdirClone (d * pageSize) (src * pageSize) w.vm))
  | grow (w : Spaces) (bytes : Nat) :
      SpacesStep d w (.grow bytes) { w with heap := (Kmalloc.heapSbrk w.heap bytes).2 }
  | hit {w : Spaces} {cr3 va f : Nat} (hcr3 : cr3 = d ∨ cr3 ∈ w.live) (hva : va < w.heap.heapCur)
      (h : translate w.vm cr3 va = some f) : SpacesStep d w (.touch cr3 va) w
  | fault {w : Spaces} {cr3 va : Nat} {s' : Vm} (hcr3 : cr3 = d ∨ cr3 ∈ w.live) (hva : va < w.heap.heapCur)
      (h : translate w.vm cr3 va = none) (hfault : kernelFault (d * pageSize) va false w.vm = some s') :
      SpacesStep d w (.touch cr3 va) { w with vm := s' }

/-- **One kernel half**: every directory has the kernel's upper entries, a page of the kernel heap is the same page
    under each, and a fault under none of them meets a page the kernel has mapped. -/
structure OneHalf (d : Nat) (w : Spaces) : Prop where
  upper : ∀ x ∈ w.live, SameUpper w.vm d w.vm x
  pages : ∀ x ∈ w.live, ∀ va, InHeapWindow va → translate w.vm x va = translate w.vm d va
  fresh : ∀ x ∈ w.live, ∀ va, InHeapWindow va → translate w.vm x va = none → translate w.vm d va = none

/-- A heap page whose table is not in the kernel's directory yet is touched before any directory is made. -/
def TablesFirst (d : Nat) (w : Spaces) : SpacesEvent → Prop
  | .touch _ va => target w.vm d (pdIndex va) = none → w.live = []
  | _ => True

theorem HeapTable.upperHalf (h : HeapTable di) : UpperHalf di := by
  refine ⟨?_, h.lt⟩
  have h1 := h.1
  change 768 ≤ di
  omega

theorem target_of_upper (h : SameUpper s d s x) (hdi : UpperHalf di) : target s x di = target s d di := by
  rw [target, target, h di hdi]

/-- The upper entries decide the rest. -/
theorem oneHalf_of_upper (h : ∀ x ∈ w.live, SameUpper w.vm d w.vm x) : OneHalf d w := by
  have hpages : ∀ x ∈ w.live, ∀ va, InHeapWindow va → translate w.vm x va = translate w.vm d va := by
    intro x hx va hva
    rw [translate, translate, target_of_upper (h x hx) (heapTable_of_window hva).upperHalf]
  refine ⟨h, hpages, fun x hx va hva hnone => ?_⟩
  rw [← hpages x hx va hva]
  exact hnone

/-! ## 3. The invariant -/

structure Shared (d : Nat) (w : Spaces) : Prop where
  kernel : KernelDir w.vm d
  used : ∀ x ∈ w.live, x ∉ pool.free w.vm
  apart : ∀ x ∈ w.live, x ∉ kernelFrames w.vm d
  upper : ∀ x ∈ w.live, SameUpper w.vm d w.vm x

theorem Shared.start (hdir : KernelDir w.vm d) (hlive : w.live = []) : Shared d w := by
  have hempty : ∀ x, x ∉ w.live := fun x hx => by
    rw [hlive] at hx
    exact List.not_mem_nil hx
  exact ⟨hdir, fun x hx => absurd hx (hempty x), fun x hx => absurd hx (hempty x), fun x hx => absurd hx (hempty x)⟩

theorem SameUpper.congr (h : SameUpper s d s x) (hd : pool.cell s' d = pool.cell s d)
    (hx : pool.cell s' x = pool.cell s x) : SameUpper s' d s' x := by
  intro di hdi
  rw [entry_congr hx hdi.2, entry_congr hd hdi.2]
  exact h di hdi

/-- Whatever works with free frames keeps the directories that are there. -/
theorem Shared.confined (h : Shared d w) (hF : Confined pool ∅ w.vm s' F) : Shared d { w with vm := s' } := by
  have hnone : ∀ H : Set Nat, ∀ f ∈ H, f ∉ (∅ : Set Nat) := fun _ f _ => Set.notMem_empty f
  obtain ⟨_, hkfree, hkcell⟩ := hF.frame (H := kernelFrames w.vm d) (hnone _) h.kernel.used
  obtain ⟨_, hxfree, hxcell⟩ := hF.frame (H := {x | x ∈ w.live}) (hnone _) h.used
  have hd := hkcell d (dir_mem_kernelFrames w.vm d)
  refine ⟨h.kernel.congr hkcell hkfree, hxfree, fun x hx => ?_, fun x hx => (h.upper x hx).congr hd (hxcell x hx)⟩
  dsimp only
  rw [kernelFrames_congr hd]
  exact h.apart x hx

/-- A new directory in a frame that was free, with the kernel's upper entries. -/
theorem Shared.add {r : Nat × Vm} (h : Shared d w) (hF : Confined pool ∅ w.vm r.2 F)
    (hnew : r.1 ≠ 0 → ∃ x ∈ F, r.1 = x * pageSize ∧ SameUpper w.vm d r.2 x) : Shared d (w.add r) := by
  have hold := h.confined hF
  unfold Spaces.add
  by_cases h0 : r.1 = 0
  · rw [if_pos h0]
    exact hold
  · obtain ⟨x, hx, heq, hupper⟩ := hnew h0
    have hx' : r.1 / pageSize = x := by
      rw [heq]
      exact Nat.mul_div_cancel _ (by decide)
    have hwas : x ∈ pool.free w.vm := (hF.within x (.inl hx)).resolve_left (Set.notMem_empty x)
    have hd : pool.cell r.2 d = pool.cell w.vm d :=
      hF.same d (Set.notMem_empty d) (h.kernel.used d (dir_mem_kernelFrames w.vm d))
    rw [if_neg h0, hx']
    refine ⟨hold.kernel, fun y hy => ?_, fun y hy => ?_, fun y hy => ?_⟩
    · rcases List.mem_cons.mp hy with rfl | hy
      · exact hF.apart y hx
      · exact hold.used y hy
    · rcases List.mem_cons.mp hy with rfl | hy
      · dsimp only
        rw [kernelFrames_congr hd]
        exact fun hm => h.kernel.used y hm hwas
      · exact hold.apart y hy
    · rcases List.mem_cons.mp hy with rfl | hy
      · intro di hdi
        rw [hupper di hdi]
        exact (entry_congr hd hdi.2).symm
      · exact hold.upper y hy

/-- A fault whose table is there takes one frame and writes that table. -/
theorem fault_takes (h : KernelDir s d) (ht : target s d (pdIndex va) = some t)
    (hfault : kernelFault (d * pageSize) va false s = some s') : ∃ g, Takes pool {t} {g} s s' := by
  obtain ⟨hwin, hne, heq⟩ := kernelFault_some hfault
  have hlt := (heapTable_of_window hwin).lt
  rcases allocZero_cases s with ⟨N, _, h0, _, _⟩ | ⟨g, _, hg, htake, _⟩
  · exact absurd h0 hne
  · have hdg : d ∉ ({g} : Set Nat) := fun hm => h.used d (dir_mem_kernelFrames s d) (htake.was_free d hm)
    have ht' : target s.allocZero.2 d (pdIndex (alignDown va pageSize)) = some t := by
      rw [pdIndex_alignDown, target_congr (htake.stays hdg) hlt]
      exact ht
    rw [heq, hg, mapPage_some ht']
    have hwrite := (htake.mono (Set.empty_subset {t})).trans
      ((write_setEntry (s := s.allocZero.2) (f := t) (e := pageEntry g VM_WRITE)
        (ptIndex_lt (alignDown va pageSize))).mono
        Set.subset_union_left)
    rw [Set.union_empty] at hwrite
    exact ⟨g, hwrite⟩

theorem Shared.fault (h : Shared d w) (hfirst : target w.vm d (pdIndex va) = none → w.live = [])
    (hfault : kernelFault (d * pageSize) va false w.vm = some s') : Shared d { w with vm := s' } := by
  have hkernel := h.kernel.fault hfault
  cases ht : target w.vm d (pdIndex va) with
  | none => exact .start hkernel (hfirst ht)
  | some t =>
    have hlt := (heapTable_of_window (kernelFault_some hfault).1).lt
    obtain ⟨g, htake⟩ := fault_takes h.kernel ht hfault
    have htable := table_mem_kernelFrames hlt ht
    have hd : pool.cell s' d = pool.cell w.vm d := by
      refine htake.same d (fun hm => ?_) fun hm => ?_
      · exact h.kernel.table_ne hlt ht (Set.mem_singleton_iff.mp hm).symm
      · exact h.kernel.used d (dir_mem_kernelFrames _ d) (htake.was_free d hm)
    refine ⟨hkernel, fun x hx hm => h.used x hx ((htake.free_iff x).mp hm).1, fun x hx => ?_, fun x hx => ?_⟩
    · dsimp only
      rw [kernelFrames_congr hd]
      exact h.apart x hx
    · refine (h.upper x hx).congr hd (htake.same x (fun hm => ?_) fun hm => h.used x hx (htake.was_free x hm))
      exact h.apart x hx (Set.mem_singleton_iff.mp hm ▸ htable)

theorem Shared.step {w w' : Spaces} {e : SpacesEvent} (h : Shared d w) (hfirst : TablesFirst d w e)
    (hs : SpacesStep d w e w') : Shared d w' := by
  have hd := h.kernel.used d (dir_mem_kernelFrames w.vm d)
  have hnone : ∀ f ∈ (∅ : Set Nat), f ∉ pool.free w.vm := fun f hf => absurd hf (Set.notMem_empty f)
  cases hs with
  | create =>
    rcases pgdirCreate_cases (d * pageSize) w.vm with ⟨h0, _, N, _, htake⟩ | ⟨x, _, hx, htake, _⟩
    · exact h.add (htake.confined (Set.empty_subset _) hnone) fun hne => absurd h0 hne
    · refine h.add (htake.confined (Set.empty_subset _) hnone) fun hne => ?_
      obtain ⟨y, hy, hupper⟩ := pgdirCreate_upper hd hne
      have hyx : y = x := Nat.eq_of_mul_eq_mul_right (by decide) (hy.symm.trans hx)
      exact ⟨y, .inr hyx, hy, hupper⟩
  | clone hsrc =>
    obtain ⟨F, hF, hnew⟩ := pgdirClone_confined hd (h.used _ hsrc)
    exact h.add hF hnew
  | grow bytes => exact ⟨h.kernel, h.used, h.apart, h.upper⟩
  | hit => exact h
  | fault hcr3 hva hmiss hfault => exact h.fault hfirst hfault

theorem shared_run {w0 w : Spaces} {es : List SpacesEvent} (hdir : KernelDir w0.vm d) (hlive : w0.live = [])
    (hrun : Run (fun w e w' => TablesFirst d w e ∧ SpacesStep d w e w') w0 es w) : Shared d w :=
  hrun.invariant (I := Shared d) (fun _ _ _ h hs => h.step hs.1 hs.2) (.start hdir hlive)

/-! ## 4. A heap that grows past 4 MB -/

/-- A fault that makes a table enters it in the kernel's directory and nowhere else. -/
theorem fault_adds (va : Nat) (h : KernelDir s d) (hwin : InHeapWindow va) (ht : target s d (pdIndex va) = none)
    (h1 : s.allocZero.1 ≠ 0) (h2 : s.allocZero.2.allocZero.1 ≠ 0) :
    ∃ s' u, kernelFault (d * pageSize) va false s = some s' ∧ s'.pages = s.allocZero.2.allocZero.2.pages ∧
      target s' d (pdIndex va) = some u ∧ (∀ di < tableEntries, di ≠ pdIndex va → target s' d di = target s d di) ∧
      ∀ x, x ∉ pool.free s → x ≠ d → pool.cell s' x = pool.cell s x := by
  have hlt := (heapTable_of_window hwin).lt
  rcases allocZero_cases s with ⟨N, _, h0, _, _⟩ | ⟨g, hg0, hg, htake, _⟩
  · exact absurd h0 h1
  rcases allocZero_cases s.allocZero.2 with ⟨N, _, h0, _, _⟩ | ⟨u, hu0, hu, htake', _⟩
  · exact absurd h0 h2
  have hdfree := h.used d (dir_mem_kernelFrames s d)
  have hold : ∀ x, x ∉ pool.free s → pool.cell s.allocZero.2.allocZero.2 x = pool.cell s x := by
    intro x hx
    rw [htake'.keeps (htake.used hx)]
    exact htake.keeps hx
  have hufree : u ∈ pool.free s := ((htake.free_iff u).mp (htake'.was_free u rfl)).1
  have hdu : d ≠ u := fun heq => hdfree (heq ▸ hufree)
  have hdg : d ∉ ({g} : Set Nat) := fun hm => hdfree (htake.was_free d hm)
  have ht' : target s.allocZero.2 d (pdIndex (alignDown va pageSize)) = none := by
    rw [pdIndex_alignDown, target_congr (htake.stays hdg) hlt]
    exact ht
  have hfault : kernelFault (d * pageSize) va false s =
      some (setEntry (setEntry s.allocZero.2.allocZero.2 (d * pageSize) (pdIndex va) (tableEntry u)) (u * pageSize)
        (ptIndex (alignDown va pageSize)) (pageEntry g VM_WRITE)) := by
    rw [kernelFault, if_pos ⟨hwin, by decide⟩]
    dsimp only
    rw [if_neg h1, hg, mapPage_new ht' hu hu0, pdIndex_alignDown]
  refine ⟨_, u, hfault, rfl, ?_, fun di hdi hne => ?_, fun x hx hxd => ?_⟩
  · rw [target_setEntry_frame (ptIndex_lt _) hlt hdu]
    exact (target_setEntry_self (tableEntry_lt (free_lt hufree))).trans (entryFrame_table u)
  · rw [target_setEntry_frame (ptIndex_lt _) hdi hdu, target_setEntry_of_ne hne]
    exact target_congr (hold d hdfree) hdi
  · have hxu : x ≠ u := fun heq => hx (heq ▸ hufree)
    rw [cell_setEntry (ptIndex_lt _) hxu, cell_setEntry hlt hxd]
    exact hold x hx

/-- **A fault that makes a table** while there is a directory ends the sharing: the entry is in the kernel's directory
    only. -/
theorem fault_splits (va : Nat) (h : Shared d w) (hx : x ∈ w.live) (hwin : InHeapWindow va)
    (ht : target w.vm d (pdIndex va) = none) (h1 : w.vm.allocZero.1 ≠ 0) (h2 : w.vm.allocZero.2.allocZero.1 ≠ 0) :
    ∃ s', kernelFault (d * pageSize) va false w.vm = some s' ∧ target s' x (pdIndex va) = none ∧
      (target s' d (pdIndex va)).isSome ∧ ¬ OneHalf d { w with vm := s' } := by
  have hlt := (heapTable_of_window hwin).lt
  obtain ⟨s', u, hfault, _, hnew, _, hold⟩ := fault_adds va h.kernel hwin ht h1 h2
  have hxd : x ≠ d := fun heq => h.apart x hx (heq ▸ dir_mem_kernelFrames w.vm d)
  have hmiss : target s' x (pdIndex va) = none := by
    rw [target_congr (hold x (h.used x hx) hxd) hlt,
      target_of_upper (h.upper x hx) (heapTable_of_window hwin).upperHalf]
    exact ht
  refine ⟨s', hfault, hmiss, by rw [hnew]; rfl, fun hone => ?_⟩
  have hsame : target s' x (pdIndex va) = target s' d (pdIndex va) :=
    target_of_upper (hone.upper x hx) (heapTable_of_window hwin).upperHalf
  rw [hmiss, hnew] at hsame
  cases hsame

/-- One megabyte of memory below 4 MB. -/
def lowMegabyte : List MmapEntry := [⟨0x300000, 0x100000, MB2_MEM_AVAILABLE⟩]

theorem lowMegabyte_free {j : Nat} : j ∈ freePages (pmmInit (some lowMegabyte) 0x200000) ↔ 768 ≤ j ∧ j < 1024 := by
  have hoffer : ∀ {i}, MmapEntry.Offers ⟨0x300000, 0x100000, MB2_MEM_AVAILABLE⟩ i ↔ 768 ≤ i ∧ i < 1024 := by
    intro i
    exact (and_iff_right rfl).trans List.mem_range'_1
  have hmark : ∀ {i}, i ∈ markPages 0 (u32 (alignUp 0x200000 pageSize + pageSize * 16)) ↔ i < 528 := by
    intro i
    exact List.mem_range'_1.trans ⟨fun h => h.2, fun h => ⟨Nat.zero_le i, h⟩⟩
  rw [mem_pmmInit, hmark]
  simp only [lowMegabyte, List.mem_cons, List.not_mem_nil, or_false, exists_eq_left, hoffer]
  have hbits : bitmapBits = 262144 := rfl
  omega

/-- The machine booted with that memory, whose directory has the window's table only. -/
theorem lowMegabyte_booted : ∃ s, Booted (some lowMegabyte) 0x200000 (fun _ => 0) [] 768 s ∧
    (∀ g, g ∈ freePages s.pages ↔ 770 ≤ g ∧ g < 1024) ∧ ∀ di < tableEntries, di ≠ windowTable →
      target s 768 di = none := by
  generalize hs : (⟨pmmInit (some lowMegabyte) 0x200000, fun _ => 0, []⟩ : Vm) = v
  have hv : ∀ g, g ∈ freePages v.pages ↔ 768 ≤ g ∧ g < 1024 := by
    rw [← hs]
    exact fun g => lowMegabyte_free
  have hroom : 2 ≤ ((freePages v.pages).filter (· < windowSize)).card := by
    refine Finset.one_lt_card.mpr ⟨768, Finset.mem_filter.mpr ⟨(hv 768).mpr (by decide), by decide⟩, 769,
      Finset.mem_filter.mpr ⟨(hv 769).mpr (by decide), by decide⟩, by decide⟩
  obtain ⟨s, hinit, hwin, hv2⟩ := pagingInit_interval (by decide) (by decide) hv
  rw [← hs] at hinit hroom
  exact ⟨s, ⟨hroom, hinit⟩, hv2, hwin.only⟩

/-- The heap is used, a directory is made, and the heap grows to its second 4 MB. -/
theorem grown_run : ∃ d w0 w x, Booted (some lowMegabyte) 0x200000 (fun _ => 0) [] d w0.vm ∧ w0.live = [] ∧
    w0.heap = Kmalloc.kmallocInit (fun _ => 0) ∧
    Run (fun w e w' => TablesFirst d w e ∧ SpacesStep d w e w') w0 [.touch d 0xD0000000, .create, .grow 0x400000] w ∧
    w.live = [x] ∧ w.heap.heapCur = 0xD0404000 ∧ target w.vm d 833 = none ∧
    ∀ g, g ∈ freePages w.vm.pages ↔ 773 ≤ g ∧ g < 1024 := by
  obtain ⟨s0, hboot, hv0, honly⟩ := lowMegabyte_booted
  generalize 768 = d at hboot honly
  have hdir := hboot.kernelDir
  obtain ⟨hp1, _, hv1, _⟩ := alloc_interval (by decide) hv0
  obtain ⟨hp2, _, hv2, _⟩ := alloc_interval (by decide) hv1
  obtain ⟨s1, u, hfault, hpages1, _, hdirs1, _⟩ := fault_adds 0xD0000000 hdir (by decide)
    (honly _ (by decide) (by decide)) (by rw [hp1]; decide) (by rw [hp2]; decide)
  rw [← hpages1] at hv2
  have hdir1 := hdir.fault hfault
  have hd1 := hdir1.used d (dir_mem_kernelFrames s1 d)
  have hnone1 : target s1 d 833 = none :=
    (hdirs1 833 (by decide) (by decide)).trans (honly 833 (by decide) (by decide))
  obtain ⟨hp3, _, hv3, _⟩ := alloc_interval (by decide) hv2
  have hcreate : (pgdirCreate (d * pageSize) s1).1 = 772 * pageSize ∧
      (pgdirCreate (d * pageSize) s1).2.pages = s1.allocZero.2.pages := by
    unfold pgdirCreate
    dsimp only
    rw [hp3, if_neg (by decide)]
    exact ⟨rfl, rfl⟩
  rcases pgdirCreate_cases (d * pageSize) s1 with ⟨h0, _⟩ | ⟨x, _, _, htake, _⟩
  · rw [hcreate.1] at h0
    exact absurd h0 (by decide)
  have hdx : d ∉ ({x} : Set Nat) := fun hm => hd1 (htake.was_free d hm)
  have hnone2 : target (pgdirCreate (d * pageSize) s1).2 d 833 = none :=
    (target_congr (htake.stays hdx) (by decide)).trans hnone1
  rw [← hcreate.2] at hv3
  have hcur : (Kmalloc.kmallocInit (fun _ => 0)).heapCur = 0xD0004000 := by decide
  have hgrown : (Kmalloc.heapSbrk (Kmalloc.kmallocInit (fun _ => 0)) 0x400000).2.heapCur = 0xD0404000 := by decide
  have hmiss : translate s0 d 0xD0000000 = none := by
    rw [translate, honly _ (by decide) (by decide)]
    rfl
  refine ⟨d, ⟨s0, [], Kmalloc.kmallocInit (fun _ => 0)⟩, _, 772, hboot, rfl, rfl,
    .cons ⟨fun _ => rfl, .fault (.inl rfl) (by rw [hcur]; decide) hmiss hfault⟩
      (.cons ⟨trivial, .create _⟩ (.cons ⟨trivial, .grow _ _⟩ (.nil _))), ?_, ?_, hnone2, hv3⟩
  · unfold Spaces.add
    dsimp only
    rw [hcreate.1]
    rfl
  · dsimp only [Spaces.add]
    exact hgrown

/-- **All directories share the kernel's half** in every state of a run in which each table of the kernel heap is
    there before the first directory is made, or needed only then. -/
theorem kernel_half_shared {w₀ w : Spaces} {es : List SpacesEvent} (hdir : KernelDir w₀.vm d) (hlive : w₀.live = [])
    (hrun : Run (fun w e w' => TablesFirst d w e ∧ SpacesStep d w e w') w₀ es w) : OneHalf d w := by
  exact oneHalf_of_upper (shared_run hdir hlive hrun).upper

theorem kernel_half_shared_grown : ∃ d w₀ w x, KernelDir w₀.vm d ∧ w₀.live = [] ∧
    Run (fun w e w' => TablesFirst d w e ∧ SpacesStep d w e w') w₀ [.touch d 0xD0000000, .create, .grow 0x400000] w ∧
    w.live = [x] ∧ OneHalf d w := by
  obtain ⟨d, w₀, w, x, hboot, hlive, _, hrun, hx, _, _, _⟩ := grown_run
  exact ⟨d, w₀, w, x, hboot.kernelDir, hlive, hrun, hx, kernel_half_shared hboot.kernelDir hlive hrun⟩

/-- **A fault at 0xD0400000**, after a directory was made: entry 833 is in the kernel's directory only. -/
theorem second_table_split : ∃ d w₀ w x, Booted (some lowMegabyte) 0x200000 (fun _ => 0) [] d w₀.vm ∧ w₀.live = [] ∧
    Run (SpacesStep d) w₀ [.touch d 0xD0000000, .create, .grow 0x400000, .touch d 0xD0400000] w ∧ x ∈ w.live ∧
    target w.vm x 833 = none ∧ (target w.vm d 833).isSome ∧ ¬ OneHalf d w := by
  obtain ⟨d, w₀, w, x, hboot, hlive, _, hrun, hx, hcur, hnone, hfree⟩ := grown_run
  have hshared := shared_run hboot.kernelDir hlive hrun
  obtain ⟨hp₁, _, hv₁, _⟩ := alloc_interval (by decide) hfree
  obtain ⟨hp₂, _, _, _⟩ := alloc_interval (by decide) hv₁
  have hmem : x ∈ w.live := hx ▸ .head _
  obtain ⟨s', hfault, hmiss, hsome, hsplit⟩ := fault_splits 0xD0400000 hshared hmem (by decide) hnone
    (by rw [hp₁]; decide) (by rw [hp₂]; decide)
  have htrans : translate w.vm d 0xD0400000 = none := by
    rw [translate]
    exact congrArg (Option.bind · _) hnone
  refine ⟨d, w₀, { w with vm := s' }, x, hboot, hlive, ?_, hmem, hmiss, hsome, hsplit⟩
  exact (hrun.mono fun _ _ _ hs => hs.2).snoc (.fault (.inl rfl) (by rw [hcur]; decide) htrans hfault)

end OreUnix.Vmm
