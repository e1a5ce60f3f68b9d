/-
  Subject: THE COPY OF A PAGE DIRECTORY: what `pgdir_clone` builds out of free frames.

  * `PageCopy`, `TableCopy` -- an entry of the copy against the entry of the original: both absent, or both present
    with the same flags and, at the end of the walk, the same bytes;
  * `clonePages_spec`, `cloneTables_spec` -- the two loops, by induction on the entries left;
  * `pgdirClone_spec` -- the copy is a well-formed directory in frames that were free, and these are all frames that
    were taken.

  The original is a well-formed directory in a set `R` of frames that are not free. Nothing but the frames taken is
  written, so `R` keeps its content through the whole copy.
-/
import OreUnix.Mm.PagingSpec

namespace OreUnix.Vmm

open ByteMem Pmm Bitmap FramePool

variable {s s' s'' : Vm} {d d' t u f g i e : Nat} {F R N : Set Nat}
variable {D P : Set Nat} {di : Nat} {dis is : List Nat} {s0 s2 : Vm}

/-! ## 1. Copies -/

/-- Entry `i` of table `u` in `s'` is a copy of that of table `t` in `s`. -/
def PageCopy (s : Vm) (t : Nat) (s' : Vm) (u i : Nat) : Prop :=
  (target s t i = none ∧ target s' u i = none) ∨
    ∃ f f', target s t i = some f ∧ target s' u i = some f' ∧
      flagBits (entry s' (u * pageSize) i) = flagBits (entry s (t * pageSize) i) ∧
      pool.cell s' f' = pool.cell s f

/-- Entry `di` of directory `d'` in `s'` is a copy of that of directory `d` in `s`. -/
def TableCopy (s : Vm) (d : Nat) (s' : Vm) (d' di : Nat) : Prop :=
  (target s d di = none ∧ target s' d' di = none) ∨
    ∃ t t', target s d di = some t ∧ target s' d' di = some t' ∧
      flagBits (entry s' (d' * pageSize) di) = flagBits (entry s (d * pageSize) di) ∧
      ∀ i < tableEntries, PageCopy s t s' t' i

/-- The copy may be made from a later state of the original. -/
theorem PageCopy.of_source (h : PageCopy s t s' u i) (hi : i < tableEntries) (ht : pool.cell s t = pool.cell s0 t)
    (hf : ∀ f, target s0 t i = some f → pool.cell s f = pool.cell s0 f) : PageCopy s0 t s' u i := by
  have htar := target_congr ht hi
  rcases h with ⟨hn, hn'⟩ | ⟨f, f', hs, hs', hflags, hcell⟩
  · exact .inl ⟨htar.symm.trans hn, hn'⟩
  · have hs0 := htar.symm.trans hs
    refine .inr ⟨f, f', hs0, hs', ?_, hcell.trans (hf f hs0)⟩
    rw [hflags, entry_congr ht hi]

/-- The copy stays one while its frames keep their content. -/
theorem PageCopy.of_target (h : PageCopy s t s' u i) (hi : i < tableEntries)
    (hu : pool.cell s'' u = pool.cell s' u)
    (hf : ∀ f, target s' u i = some f → pool.cell s'' f = pool.cell s' f) : PageCopy s t s'' u i := by
  have htar := target_congr hu hi
  rcases h with ⟨hn, hn'⟩ | ⟨f, f', hs, hs', hflags, hcell⟩
  · exact .inl ⟨hn, htar.trans hn'⟩
  · refine .inr ⟨f, f', hs, htar.trans hs', ?_, (hf f' hs').trans hcell⟩
    rw [entry_congr hu hi, hflags]

theorem TableCopy.of_source (h : TableCopy s d s' d' di) (hsrc : Space s0 d R)
    (hR : ∀ f ∈ R, pool.cell s f = pool.cell s0 f) (hdi : di < userTables) :
    TableCopy s0 d s' d' di := by
  have hd := hR d hsrc.dir_mem
  have htar := target_congr hd (user_lt hdi)
  rcases h with ⟨hn, hn'⟩ | ⟨t, t', ht, ht', hflags, hpages⟩
  · exact .inl ⟨htar.symm.trans hn, hn'⟩
  · have ht0 := htar.symm.trans ht
    refine .inr ⟨t, t', ht0, ht', ?_, fun i hi => ?_⟩
    · rw [hflags, entry_congr hd (user_lt hdi)]
    · exact (hpages i hi).of_source hi (hR t (hsrc.table_mem hdi ht0)) fun f hf =>
        hR f (hsrc.owned ((frameAt_page hdi ht0 hi).trans hf))

/-! ## 2. The pages of a table -/

/-- The entries `is` of a table lead to the frames `N`, each to one of its own. -/
structure Fills (h : Nat → Option Nat) (is : List Nat) (N : Set Nat) : Prop where
  new : ∀ i ∈ is, ∀ f, h i = some f → f ∈ N
  inj : ∀ i ∈ is, ∀ j ∈ is, ∀ f, h i = some f → h j = some f → i = j
  all : ∀ f ∈ N, ∃ i ∈ is, h i = some f

section Fills

variable {h : Nat → Option Nat} {is : List Nat}

theorem fills_nil : Fills h [] ∅ := ⟨by simp, by simp, by simp⟩

theorem Fills.skip (H : Fills h is N) (hi : h i = none) : Fills h (i :: is) N := by
  have hne : ∀ {j f}, j ∈ i :: is → h j = some f → j ∈ is := by
    intro j f hj hjf
    rcases List.mem_cons.mp hj with rfl | hj
    · rw [hi] at hjf
      cases hjf
    · exact hj
  refine ⟨fun j hj f hf => H.new j (hne hj hf) f hf,
    fun j hj k hk f hf hf' => H.inj j (hne hj hf) k (hne hk hf') f hf hf', fun f hf => ?_⟩
  obtain ⟨j, hj, hjf⟩ := H.all f hf
  exact ⟨j, .tail _ hj, hjf⟩

theorem Fills.cons (H : Fills h is N) (hi : h i = some g) (hg : g ∉ N) : Fills h (i :: is) ({g} ∪ N) := by
  refine ⟨fun j hj f hf => ?_, fun j hj k hk f hf hf' => ?_, fun f hf => ?_⟩
  · rcases List.mem_cons.mp hj with rfl | hj
    · cases hi.symm.trans hf
      exact .inl rfl
    · exact .inr (H.new j hj f hf)
  · rcases List.mem_cons.mp hj with hji | hjs <;> rcases List.mem_cons.mp hk with hki | hks
    · rw [hji, hki]
    · rw [hji, hi] at hf
      cases hf
      exact absurd (H.new k hks g hf') hg
    · rw [hki, hi] at hf'
      cases hf'
      exact absurd (H.new j hjs g hf) hg
    · exact H.inj j hjs k hks f hf hf'
  · rcases hf with rfl | hf
    · exact ⟨i, .head _, hi⟩
    · obtain ⟨j, hj, hjf⟩ := H.all f hf
      exact ⟨j, .tail _ hj, hjf⟩

theorem Fills.congr {h' : Nat → Option Nat} (H : Fills h is N) (heq : ∀ i ∈ is, h' i = h i) : Fills h' is N := by
  refine ⟨fun i hi f hf => H.new i hi f (heq i hi ▸ hf), fun i hi j hj f hf hf' => ?_, fun f hf => ?_⟩
  · exact H.inj i hi j hj f (heq i hi ▸ hf) (heq j hj ▸ hf')
  · obtain ⟨i, hi, hif⟩ := H.all f hf
    exact ⟨i, hi, (heq i hi).trans hif⟩

end Fills

/-- What copying the entries `is` of table `t` to the empty table `u` leads to, with the frames `N` taken for the
    pages. -/
structure PagesCopied (s : Vm) (t : Nat) (s' : Vm) (u : Nat) (is : List Nat) (N : Set Nat) : Prop where
  takes : Takes pool {u} N s s'
  nonzero : ∀ f ∈ N, f ≠ 0
  copies : ∀ i ∈ is, PageCopy s t s' u i
  others : ∀ i < tableEntries, i ∉ is → entry s' (u * pageSize) i = entry s (u * pageSize) i
  fills : Fills (target s' u) is N

def Vm.copyFrame (s : Vm) (g f : Nat) : Vm :=
  { s with mem := copy s.mem (g * pageSize) (f * pageSize) pageSize }

theorem cell_copyFrame_self (s : Vm) (g f : Nat) : pool.cell (s.copyFrame g f) g = pool.cell s f := by
  funext ⟨o, ho⟩
  have hin : g * pageSize ≤ g * pageSize + o ∧ g * pageSize + o < g * pageSize + pageSize :=
    ⟨Nat.le_add_right _ _, Nat.add_lt_add_left ho _⟩
  simp only [pool, Vm.copyFrame, copy, if_pos hin, Nat.add_sub_cancel_left]

theorem cell_copyFrame_of_ne (s : Vm) (f : Nat) {x : Nat} (h : x ≠ g) :
    pool.cell (s.copyFrame g f) x = pool.cell s x := by
  funext ⟨o, ho⟩
  have ho : o < 4096 := ho
  refine copy_of_ne _ _ _ _ ?_
  change x * 4096 + o < g * 4096 ∨ g * 4096 + 4096 ≤ x * 4096 + o
  omega

/-- The state after one page was copied. -/
def copyPage (s : Vm) (t u i f g : Nat) : Vm :=
  setEntry (s.alloc.2.copyFrame g f) (u * pageSize) i
    (g * pageSize ||| flagBits (entry s (t * pageSize) i))

theorem entry_alloc (s : Vm) (t i : Nat) : entry s.alloc.2 t i = entry s t i := rfl

theorem clonePages_cons_none (h : target s t i = none) : clonePages (t * pageSize) (u * pageSize) (i :: is) s =
      clonePages (t * pageSize) (u * pageSize) is s := by
  rw [clonePages, target_none.mp h]
  rfl

theorem clonePages_cons_fail (h : target s t i = some f) (h0 : s.alloc.1 = 0) :
    clonePages (t * pageSize) (u * pageSize) (i :: is) s = (false, s.alloc.2) := by
  rw [clonePages, if_pos (target_some h).1]
  dsimp only
  rw [if_pos h0]

theorem clonePages_cons_some (h : target s t i = some f) (hg : s.alloc.1 = g * pageSize) (hg0 : g ≠ 0) (hgt : t ≠ g)
    (hi : i < tableEntries) :
    clonePages (t * pageSize) (u * pageSize) (i :: is) s =
      clonePages (t * pageSize) (u * pageSize) is (copyPage s t u i f g) := by
  have hne : g * pageSize ≠ 0 := addr_ne ‹_›
  have hread : entry (s.alloc.2.copyFrame g f) (t * pageSize) i = entry s (t * pageSize) i :=
    entry_congr (cell_copyFrame_of_ne s.alloc.2 f hgt) hi
  rw [clonePages, if_pos (target_some h).1]
  dsimp only
  rw [hg, if_neg hne, entry_alloc, (target_some h).2]
  rw [Vm.copyFrame] at hread
  rw [hread]
  rfl

/-- One page copied: a free frame gets its bytes, the table of the copy an entry. -/
theorem copyPage_spec (t f : Nat) (htake : Takes pool ∅ {g} s s.alloc.2)
    (hi : i < tableEntries) (hug : u ≠ g) :
    Takes pool {u} {g} s (copyPage s t u i f g) ∧ entry (copyPage s t u i f g) (u * pageSize) i =
        g * pageSize ||| flagBits (entry s (t * pageSize) i) ∧
      (∀ j, j ≠ i → j < tableEntries → entry (copyPage s t u i f g) (u * pageSize) j = entry s (u * pageSize) j) ∧
      pool.cell (copyPage s t u i f g) g = pool.cell s f := by
  have hg : g < bitmapBits := free_lt (htake.was_free g rfl)
  refine ⟨⟨htake.was_free, htake.free_iff, fun x hx hxg => ?_⟩, ?_, fun j hj hjlt => ?_, ?_⟩
  · rw [copyPage, cell_setEntry hi hx, cell_copyFrame_of_ne _ _ hxg]
    rfl
  · exact entry_setEntry_self (or_lt hg (flagBits_lt _))
  · rw [copyPage, entry_setEntry_of_ne hj]
    exact entry_congr (cell_copyFrame_of_ne s.alloc.2 f hug) hjlt
  · rw [copyPage, cell_setEntry hi hug.symm, cell_copyFrame_self]
    rfl

/-- The loop over the entries of a table. The frames of `R` are neither free nor the new table, so the entries and
    pages still to be copied are those of the beginning. -/
theorem clonePages_spec (hnd : is.Nodup) (his : ∀ i ∈ is, i < tableEntries) (hR : ∀ f ∈ R, f ∉ pool.free s)
    (ht : t ∈ R) (hpages : ∀ i ∈ is, ∀ f, target s t i = some f → f ∈ R) (hu : u ∉ R) (hufree : u ∉ pool.free s)
    (hempty : ∀ i ∈ is, target s u i = none) (hrun : clonePages (t * pageSize) (u * pageSize) is s = (true, s')) :
    ∃ N, PagesCopied s t s' u is N := by
  induction is generalizing s with
  | nil =>
    cases hrun
    exact ⟨∅, Takes.refl .., by simp, by simp, fun _ _ _ => rfl, fills_nil⟩
  | cons i is ih =>
    obtain ⟨hni, hnd⟩ := List.nodup_cons.mp hnd
    obtain ⟨hi, his'⟩ := List.forall_mem_cons.mp his
    cases hf : target s t i with
    | none =>
      rw [clonePages_cons_none hf] at hrun
      obtain ⟨N, hN⟩ := ih hnd his' hR (fun j hj => hpages j (.tail _ hj)) hufree
        (fun j hj => hempty j (.tail _ hj)) hrun
      have hnone : target s' u i = none := by
        rw [target, hN.others i hi hni]
        exact hempty i (.head _)
      refine ⟨N, hN.takes, hN.nonzero, fun j hj => ?_, fun j hj hjn => ?_, hN.fills.skip hnone⟩
      · rcases List.mem_cons.mp hj with rfl | hj
        · exact .inl ⟨hf, hnone⟩
        · exact hN.copies j hj
      · exact hN.others j hj fun hm => hjn (.tail _ hm)
    | some f =>
      rcases alloc_cases s with ⟨_, _, h0, _⟩ | ⟨g, hg0, hg, htake⟩
      · rw [clonePages_cons_fail hf h0] at hrun
        cases hrun
      · have hgfree := htake.was_free g rfl
        have hug : u ≠ g := fun he => hufree (he ▸ hgfree)
        have hRg : ∀ x ∈ R, x ≠ g := fun x hx he => hR x hx (he ▸ hgfree)
        rw [clonePages_cons_some hf hg hg0 (hRg t ht) hi] at hrun
        obtain ⟨hone, hentry, hkeep, hcell⟩ := copyPage_spec t f htake hi hug
        have hRcell : ∀ x ∈ R, pool.cell (copyPage s t u i f g) x = pool.cell s x :=
          fun x hx => hone.same x (fun he => hu (he ▸ hx)) (hRg x hx)
        have htar : ∀ j ∈ is, target (copyPage s t u i f g) t j = target s t j :=
          fun j hj => target_congr (hRcell t ht) (his' j hj)
        obtain ⟨N, hN⟩ := ih hnd his' (fun x hx hx' => hR x hx ((hone.free_iff x).mp hx').1)
          (fun j hj x hx => hpages j (.tail _ hj) x (htar j hj ▸ hx))
          (hone.used hufree)
          (fun j hj => by
            rw [target, hkeep j (fun he => hni (he ▸ hj)) (his' j hj)]
            exact hempty j (.tail _ hj)) hrun
        have hgN : g ∉ N := fun hgN => ((hone.free_iff g).mp (hN.takes.was_free g hgN)).2 rfl
        have hself : entry s' (u * pageSize) i = g * pageSize ||| flagBits (entry s (t * pageSize) i) :=
          (hN.others i hi hni).trans hentry
        have hpresent : present (flagBits (entry s (t * pageSize) i)) = true :=
          (present_flagBits _).trans (target_some hf).1
        have htarget : target s' u i = some g := by
          rw [target, hself]
          exact entryFrame_or (flagBits_lt _) hpresent
        have hcell' : pool.cell s' g = pool.cell s f := (hN.takes.same g hug.symm hgN).trans hcell
        refine ⟨{g} ∪ N, hone.trans (hN.takes.mono Set.subset_union_left), fun x hx => ?_,
          fun j hj => ?_, fun j hj hjn => ?_, hN.fills.cons htarget hgN⟩
        · rcases hx with rfl | hx
          · exact hg0
          · exact hN.nonzero x hx
        · rcases List.mem_cons.mp hj with rfl | hj
          · refine .inr ⟨f, g, hf, htarget, ?_, hcell'⟩
            rw [hself, flagBits_or (flagBits_lt _)]
          · exact (hN.copies j hj).of_source (his' j hj) (hRcell t ht) fun x hx =>
              hRcell x (hpages j (.tail _ hj) x hx)
        · rw [List.mem_cons, not_or] at hjn
          exact (hN.others j hj hjn.2).trans (hkeep j hjn.1 hj)

/-! ## 3. The tables of a directory -/

theorem cloneTables_cons_none (h : target s d di = none) : cloneTables (d * pageSize) (d' * pageSize) (di :: dis) s =
      cloneTables (d * pageSize) (d' * pageSize) dis s := by
  rw [cloneTables, target_none.mp h]
  rfl

theorem cloneTables_cons_full (h : target s d di = some t) (h0 : s.allocZero.1 = 0) :
    cloneTables (d * pageSize) (d' * pageSize) (di :: dis) s = (false, s.allocZero.2) := by
  rw [cloneTables, if_pos (target_some h).1]
  dsimp only
  rw [if_pos h0]

/-- A table is allocated and filled; if that works, it is entered. -/
theorem cloneTables_cons_some (h : target s d di = some t) (hu : s.allocZero.1 = u * pageSize) (hu0 : u ≠ 0)
    (hd : pool.cell s.allocZero.2 d = pool.cell s d) (hdi : di < userTables) :
    cloneTables (d * pageSize) (d' * pageSize) (di :: dis) s =
      let r := clonePages (t * pageSize) (u * pageSize) (List.range tableEntries) s.allocZero.2
      if r.1 then
        cloneTables (d * pageSize) (d' * pageSize) dis (setEntry r.2 (d' * pageSize) di
          (u * pageSize ||| flagBits (entry r.2 (d * pageSize) di)))
      else (false, r.2) := by
  have hne : u * pageSize ≠ 0 := addr_ne ‹_›
  rw [cloneTables, if_pos (target_some h).1]
  dsimp only
  rw [hu, if_neg hne, entry_congr hd (user_lt hdi), (target_some h).2]

/-- What copying the entries `dis` of directory `d` to the directory `d'` leads to, with the frames `N` taken for
    tables and pages. -/
structure TablesCopied (s : Vm) (d : Nat) (s' : Vm) (d' : Nat) (dis : List Nat) (N : Set Nat) :
    Prop where
  takes : Takes pool {d'} N s s'
  nonzero : ∀ f ∈ N, f ≠ 0
  copies : ∀ di ∈ dis, TableCopy s d s' d' di
  others : ∀ di < tableEntries, di ∉ dis → entry s' (d' * pageSize) di = entry s (d' * pageSize) di
  all : ∀ f ∈ N, ∃ k, frameAt s' d' k = some f

/-- One table: its frame and its pages' frames are taken, and nothing else is written. -/
theorem copyTable_spec {s1 : Vm} (hR : ∀ f ∈ R, f ∉ pool.free s) (ht : t ∈ R)
    (hpages : ∀ i < tableEntries, ∀ f, target s t i = some f → f ∈ R) (htake : Takes pool ∅ {u} s s1)
    (hzero : pool.cell s1 u = fun _ => 0)
    (hrun : clonePages (t * pageSize) (u * pageSize) (List.range tableEntries) s1 = (true, s2)) :
    ∃ P, Takes pool ∅ ({u} ∪ P) s s2 ∧ u ∉ P ∧ (∀ f ∈ P, f ≠ 0) ∧ (∀ i < tableEntries, PageCopy s t s2 u i) ∧
      Fills (target s2 u) (List.range tableEntries) P := by
  have hufree := htake.was_free u rfl
  have hRu : ∀ x ∈ R, x ≠ u := fun x hx he => hR x hx (he ▸ hufree)
  have hRcell : ∀ x ∈ R, pool.cell s1 x = pool.cell s x := fun x hx => htake.stays (hRu x hx)
  have hempty : ∀ i ∈ List.range tableEntries, target s1 u i = none :=
    fun i hi => target_zero hzero (List.mem_range.mp hi)
  obtain ⟨P, hP⟩ := clonePages_spec (R := R) List.nodup_range (fun _ => List.mem_range.mp)
    (fun x hx hx' => hR x hx ((htake.free_iff x).mp hx').1) ht
    (fun i hi f hf => hpages i (List.mem_range.mp hi) f
      ((target_congr (hRcell t ht) (List.mem_range.mp hi)).symm.trans hf))
    (fun hu => hRu u hu rfl) (htake.disjoint u rfl) hempty hrun
  have huP : u ∉ P := fun hu => htake.disjoint u rfl (hP.takes.was_free u hu)
  refine ⟨P, htake.trans (hP.takes.mono Set.subset_union_right), huP, hP.nonzero, fun i hi => ?_, hP.fills⟩
  exact (hP.copies i (List.mem_range.mpr hi)).of_source hi (hRcell t ht) fun f hf => hRcell f (hpages i hi f hf)

/-- What copying the table `t` at entry `di` to the frame `u` leads to, with the frames `P` taken for its pages. -/
structure TableEntered (s : Vm) (d t : Nat) (s' : Vm) (d' u di : Nat) (P : Set Nat) : Prop where
  takes : Takes pool {d'} ({u} ∪ P) s s'
  nonzero : ∀ f ∈ {u} ∪ P, f ≠ 0
  entered : target s' d' di = some u
  flags : flagBits (entry s' (d' * pageSize) di) = flagBits (entry s (d * pageSize) di)
  others : ∀ dj < tableEntries, dj ≠ di → entry s' (d' * pageSize) dj = entry s (d' * pageSize) dj
  copies : ∀ i < tableEntries, PageCopy s t s' u i
  fills : Fills (target s' u) (List.range tableEntries) P

/-- The table is entered in the copy, which stays well formed. -/
theorem enterTable_spec (hdi : di < userTables) (ht : target s d di = some t) (hdst : Space s d' D)
    (hD : ∀ f ∈ D, f ∉ pool.free s) (hempty : target s d' di = none) (htake : Takes pool ∅ ({u} ∪ P) s s2)
    (huP : u ∉ P) (hzero : ∀ f ∈ {u} ∪ P, f ≠ 0) (hcopies : ∀ i < tableEntries, PageCopy s t s2 u i)
    (hfills : Fills (target s2 u) (List.range tableEntries) P) :
    ∃ s3, setEntry s2 (d' * pageSize) di (u * pageSize ||| flagBits (entry s (d * pageSize) di)) = s3 ∧
      TableEntered s d t s3 d' u di P ∧ Space s3 d' (D ∪ ({u} ∪ P)) := by
  refine ⟨_, rfl, ?_⟩
  have hnew : ∀ f ∈ {u} ∪ P, f ∉ D := fun f hf hfD => hD f hfD (htake.was_free f hf)
  have hDcell : ∀ f ∈ D, pool.cell s2 f = pool.cell s f := fun f hf => htake.stays fun hf' => hnew f hf' hf
  have hlt : u * pageSize ||| flagBits (entry s (d * pageSize) di) < 2 ^ 32 :=
    or_lt (free_lt (htake.was_free u (.inl rfl))) (flagBits_lt _)
  have hframe : entryFrame (u * pageSize ||| flagBits (entry s (d * pageSize) di)) = some u :=
    entryFrame_or (flagBits_lt _) ((present_flagBits _).trans (target_some ht).1)
  -- the new table and its pages are not written any more
  have hsame : ∀ f ∈ {u} ∪ P, pool.cell (setEntry s2 (d' * pageSize) di
      (u * pageSize ||| flagBits (entry s (d * pageSize) di))) f = pool.cell s2 f :=
    fun f hf => cell_setEntry (user_lt hdi) fun he => hnew f hf (he ▸ hdst.dir_mem)
  refine ⟨⟨?_, hzero, (target_setEntry_self hlt).trans hframe, ?_, fun dj hdj hne => ?_, fun i hi => ?_, ?_⟩, ?_⟩
  · have hwrite := (htake.mono (Set.empty_subset {d'})).trans
      ((write_setEntry (s := s2) (f := d')
        (e := u * pageSize ||| flagBits (entry s (d * pageSize) di)) (user_lt hdi)).mono
        Set.subset_union_left)
    rwa [Set.union_empty] at hwrite
  · rw [entry_setEntry_self hlt, flagBits_or (flagBits_lt _)]
  · rw [entry_setEntry_of_ne hne]
    exact entry_congr (hDcell d' hdst.dir_mem) hdj
  · refine (hcopies i hi).of_target hi (hsame u (.inl rfl)) fun f hf => hsame f (.inr ?_)
    exact hfills.new i (List.mem_range.mpr hi) f hf
  · exact hfills.congr fun i hi => target_congr (hsame u (.inl rfl)) (List.mem_range.mp hi)
  · refine (hdst.congr hDcell).link hdi ?_ hlt hframe Set.subset_union_left
      ⟨.inr (.inl rfl), hnew u (.inl rfl)⟩ (fun pi f hpi hf => ?_) fun pi pj f hpi hpj hf hf' => ?_
    · exact (target_congr (hDcell d' hdst.dir_mem) (user_lt hdi)).trans hempty
    · have hfP := hfills.new pi (List.mem_range.mpr hpi) f hf
      exact ⟨.inr (.inr hfP), hnew f (.inr hfP), fun heq => huP (heq ▸ hfP)⟩
    · exact hfills.inj pi (List.mem_range.mpr hpi) pj (List.mem_range.mpr hpj) f hf hf'

theorem TablesCopied.cons {s3 : Vm} {di : Nat} {dis : List Nat} {P : Set Nat}
    (hN : TablesCopied s3 d s' d' dis N) (h : TableEntered s d t s3 d' u di P)
    (hdi : di < userTables) (hdis : ∀ dj ∈ dis, dj < userTables) (hni : di ∉ dis)
    (ht : target s d di = some t) (hsrc : Space s d R)
    (hR : ∀ f ∈ R, pool.cell s3 f = pool.cell s f) (hd' : d' ∉ pool.free s) :
    TablesCopied s d s' d' (di :: dis) (({u} ∪ P) ∪ N) := by
  have hkeep : ∀ x ∈ {u} ∪ P, pool.cell s' x = pool.cell s3 x := by
    intro x hx
    refine hN.takes.same x (fun he => hd' (he ▸ h.takes.was_free x hx)) fun hxN => ?_
    exact h.takes.disjoint x hx (hN.takes.was_free x hxN)
  have hentry : entry s' (d' * pageSize) di = entry s3 (d' * pageSize) di := hN.others di (user_lt hdi) hni
  have htarget : target s' d' di = some u := by
    rw [target, hentry]
    exact h.entered
  refine ⟨h.takes.trans (hN.takes.mono Set.subset_union_left), fun f hf => ?_, fun dj hdj => ?_,
    fun dj hdj hdjn => ?_, fun f hf => ?_⟩
  · exact hf.elim (h.nonzero f) (hN.nonzero f)
  · rcases List.mem_cons.mp hdj with rfl | hdj
    · refine .inr ⟨t, u, ht, htarget, ?_, fun i hi => ?_⟩
      · rw [hentry, h.flags]
      · refine (h.copies i hi).of_target hi (hkeep u (.inl rfl)) fun f hf => hkeep f (.inr ?_)
        exact h.fills.new i (List.mem_range.mpr hi) f hf
    · exact (hN.copies dj hdj).of_source hsrc hR (hdis dj hdj)
  · rw [List.mem_cons, not_or] at hdjn
    exact (hN.others dj hdj hdjn.2).trans (h.others dj hdj hdjn.1)
  · rcases hf with (rfl | hf) | hf
    · exact ⟨.table di, (frameAt_table hdi).trans htarget⟩
    · obtain ⟨i, hi, hif⟩ := h.fills.all f hf
      have hi := List.mem_range.mp hi
      refine ⟨.page di i, (frameAt_page hdi htarget hi).trans ?_⟩
      exact (target_congr (hkeep u (.inl rfl)) hi).trans hif
    · exact hN.all f hf

/-- The loop over the entries of the directory. The copy so far is well formed in frames `D`. -/
theorem cloneTables_spec (hnd : dis.Nodup) (hdis : ∀ di ∈ dis, di < userTables) (hsrc : Space s d R)
    (hR : ∀ f ∈ R, f ∉ pool.free s) (hdst : Space s d' D) (hD : ∀ f ∈ D, f ∉ pool.free s) (hRD : ∀ f ∈ R, f ∉ D)
    (hempty : ∀ di ∈ dis, target s d' di = none)
    (hrun : cloneTables (d * pageSize) (d' * pageSize) dis s = (true, s')) :
    ∃ N, TablesCopied s d s' d' dis N ∧ Space s' d' (D ∪ N) := by
  induction dis generalizing s D with
  | nil =>
    cases hrun
    refine ⟨∅, ⟨Takes.refl .., by simp, by simp, fun _ _ _ => rfl, by simp⟩, ?_⟩
    rwa [Set.union_empty]
  | cons di dis ih =>
    obtain ⟨hni, hnd⟩ := List.nodup_cons.mp hnd
    obtain ⟨hdi, hdis'⟩ := List.forall_mem_cons.mp hdis
    cases ht : target s d di with
    | none =>
      rw [cloneTables_cons_none ht] at hrun
      obtain ⟨N, hN, hspace⟩ := ih hnd hdis' hsrc hR hdst hD hRD
        (fun dj hdj => hempty dj (.tail _ hdj)) hrun
      refine ⟨N, ⟨hN.takes, hN.nonzero, fun dj hdj => ?_, fun dj hdj hdjn => ?_, hN.all⟩, hspace⟩
      · rcases List.mem_cons.mp hdj with rfl | hdj
        · refine .inl ⟨ht, ?_⟩
          rw [target, hN.others dj (user_lt hdi) hni]
          exact hempty dj (.head _)
        · exact hN.copies dj hdj
      · exact hN.others dj hdj fun hm => hdjn (.tail _ hm)
    | some t =>
      rcases allocZero_cases s with ⟨_, _, h0, _⟩ | ⟨u, hu0, hu, htake, hzero⟩
      · rw [cloneTables_cons_full ht h0] at hrun
        cases hrun
      · have hufree := htake.was_free u rfl
        have hdu : d ≠ u := fun he => hR d hsrc.dir_mem (he ▸ hufree)
        rw [cloneTables_cons_some ht hu hu0 (htake.stays hdu) hdi] at hrun
        generalize hr : clonePages (t * pageSize) (u * pageSize) (List.range tableEntries)
          s.allocZero.2 = r at hrun
        obtain ⟨_ | _, s2⟩ := r
        · cases hrun
        · simp only [if_true] at hrun
          have htR : t ∈ R := hsrc.table_mem hdi ht
          obtain ⟨P, htake2, huP, hP0, hcopies, hfills⟩ := copyTable_spec hR htR
            (fun i hi f hf => hsrc.owned ((frameAt_page hdi ht hi).trans hf)) htake hzero hr
          have hRnew : ∀ x ∈ R, x ∉ {u} ∪ P := fun x hx hx' => hR x hx (htake2.was_free x hx')
          have hdcell := htake2.stays (hRnew d hsrc.dir_mem)
          rw [entry_congr hdcell (user_lt hdi)] at hrun
          obtain ⟨s3, hs3, hent, hspace⟩ := enterTable_spec hdi ht hdst hD
            (hempty di (.head _)) htake2 huP (fun f hf => hf.elim (fun he => he ▸ hu0) (hP0 f))
            hcopies hfills
          rw [hs3] at hrun
          have hRcell : ∀ x ∈ R, pool.cell s3 x = pool.cell s x := fun x hx =>
            hent.takes.same x (fun he => hRD x hx (he ▸ hdst.dir_mem)) (hRnew x hx)
          obtain ⟨N, hN, hspace'⟩ := ih hnd hdis' (hsrc.congr hRcell)
            (fun x hx hx' => hR x hx ((hent.takes.free_iff x).mp hx').1) hspace
            (fun x hx hx' => hx.elim (fun hx => hD x hx ((hent.takes.free_iff x).mp hx').1)
              fun hx => hent.takes.disjoint x hx hx')
            (fun x hx hx' => hx'.elim (hRD x hx) (hRnew x hx))
            (fun dj hdj => by
              rw [target, hent.others dj (user_lt (hdis' dj hdj)) fun he => hni (he ▸ hdj)]
              exact hempty dj (.tail _ hdj)) hrun
          refine ⟨_, hN.cons hent hdi hdis' hni ht hsrc hRcell (hD d' hdst.dir_mem), ?_⟩
          rwa [Set.union_assoc] at hspace'

/-! ## 4. The directory -/

theorem pgdirCreate_cases (kernelPgdir : Nat) (s : Vm) :
    ((pgdirCreate kernelPgdir s).1 = 0 ∧ (0 ∉ pool.free s → pool.free s = ∅) ∧
        ∃ N ⊆ {0}, Takes pool ∅ N s (pgdirCreate kernelPgdir s).2) ∨
      ∃ d', d' ≠ 0 ∧ (pgdirCreate kernelPgdir s).1 = d' * pageSize ∧
        Takes pool ∅ {d'} s (pgdirCreate kernelPgdir s).2 ∧
        ∀ di < userTables, target (pgdirCreate kernelPgdir s).2 d' di = none := by
  unfold pgdirCreate
  dsimp only
  rcases allocZero_cases s with ⟨N, hN, h0, htake, hnone⟩ | ⟨d', hd0, hd, htake, hzero⟩
  · rw [if_pos h0]
    exact .inl ⟨rfl, hnone, N, hN, htake⟩
  · have hne : d' * pageSize ≠ 0 := addr_ne ‹_›
    rw [hd, if_neg hne]
    refine .inr ⟨d', hd0, rfl, ⟨htake.was_free, htake.free_iff, fun f _ hf => ?_⟩, fun di hdi => ?_⟩
    · refine Eq.trans ?_ (htake.stays hf)
      funext ⟨o, ho⟩
      have ho : o < 4096 := ho
      have hf : f ≠ d' := hf
      refine copy_of_ne _ _ _ _ ?_
      change f * 4096 + o < d' * 4096 + 4 * 768 ∨ d' * 4096 + 4 * 768 + 4 * 256 ≤ f * 4096 + o
      omega
    · -- the user entries lie below the part that is copied
      have hdi' : di < 768 := hdi
      rw [← target_zero hzero (user_lt hdi), target, target]
      have hsame : ∀ m n : Nat, entry { s.allocZero.2 with
          mem := copy s.allocZero.2.mem (d' * pageSize + 4 * userTables) m n } (d' * pageSize) di =
            entry s.allocZero.2 (d' * pageSize) di := fun m n =>
        word_congr fun x h1 h2 => copy_of_ne _ _ _ _ (.inl (by
          have hu : userTables = 768 := rfl
          omega))
      rw [hsame]

/-- **The copy of a directory** is well formed in the frames taken for it, and nothing else is written. -/
theorem pgdirClone_spec {kernelPgdir p : Nat} (hsrc : Space s d R) (hR : ∀ f ∈ R, f ∉ pool.free s)
    (hrun : pgdirClone kernelPgdir (d * pageSize) s = (p, s')) (hp : p ≠ 0) :
    ∃ d' N, p = d' * pageSize ∧ Takes pool ∅ N s s' ∧ (∀ f ∈ N, f ≠ 0) ∧ Space s' d' N ∧
      (∀ f ∈ N, ∃ k, frameAt s' d' k = some f) ∧ ∀ di < userTables, TableCopy s d s' d' di := by
  unfold pgdirClone at hrun
  dsimp only at hrun
  rcases pgdirCreate_cases kernelPgdir s with ⟨h0, _⟩ | ⟨d', hd0, hd, htake, hnone⟩
  · rw [if_pos h0] at hrun
    cases hrun
    exact absurd rfl hp
  · have hne : d' * pageSize ≠ 0 := addr_ne ‹_›
    rw [hd, if_neg hne] at hrun
    generalize (pgdirCreate kernelPgdir s).2 = s1 at *
    have hdfree := htake.was_free d' rfl
    have hRd : ∀ f ∈ R, f ≠ d' := fun f hf he => hR f hf (he ▸ hdfree)
    have hRcell : ∀ f ∈ R, pool.cell s1 f = pool.cell s f := fun f hf => htake.stays (hRd f hf)
    have hempty : Space s1 d' {d'} := .empty hnone
    generalize hr : cloneTables (d * pageSize) (d' * pageSize) (List.range userTables) s1 = r at hrun
    obtain ⟨_ | _, s2⟩ := r
    · cases hrun
      exact absurd rfl hp
    · cases hrun
      obtain ⟨N, hN, hspace⟩ := cloneTables_spec List.nodup_range (fun _ => List.mem_range.mp)
        (hsrc.congr hRcell) (fun f hf hf' => hR f hf ((htake.free_iff f).mp hf').1) hempty
        (fun f hf => htake.disjoint f hf) hRd (fun di hdi => hnone di (List.mem_range.mp hdi)) hr
      refine ⟨d', {d'} ∪ N, rfl, htake.trans (hN.takes.mono Set.subset_union_right), ?_, hspace, ?_, ?_⟩
      · exact fun f hf => hf.elim (fun he => he ▸ hd0) (hN.nonzero f)
      · rintro f (rfl | hf)
        · exact ⟨.dir, rfl⟩
        · exact hN.all f hf
      · exact fun di hdi => (hN.copies di (List.mem_range.mpr hdi)).of_source hsrc hRcell hdi

end OreUnix.Vmm
