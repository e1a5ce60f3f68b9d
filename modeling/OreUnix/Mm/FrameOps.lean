/-
  Subject: THE CALLS THAT MAKE AND DROP ADDRESS SPACES, one access at a time.

  Between two accesses of `mm_clone` or of the loader the allocator can run for somebody else. A call is cut here into
  the accesses it makes to the allocator and to memory.

  * `FrameOp` -- one access; `FrameOp.Own` -- it writes and frees only what the calls in progress hold;
  * `held` -- the frames they hold: those they began with and those taken since, less those given back;
  * `Works` -- a sequence of accesses of that kind;
  * `mmCreate_works`, `mmClone_works`, `mmDestroy_works`, `mapFresh_works` -- the calls are such sequences.
-/
import OreUnix.Mm.Isolation
import OreUnix.Mm.KernelHalf

namespace OreUnix.Vmm

open ByteMem Pmm Bitmap FramePool

variable {s s' s₀ s1 : Vm} {d x t u f g i va : Nat} {F K N : Set Nat}
variable {di : Nat} {dis is : List Nat}

/-! ## 1. Accesses -/

/-- One access to the allocator or to memory. -/
inductive FrameOp where
  | alloc
  | contiguous (n : Nat)
  | free (f : Nat)
  | write (f : Nat) (bytes : Mem)
  | slab (grants : List Bool)

def FrameOp.exec (s : Vm) : FrameOp → Vm
  | .alloc => s.alloc.2
  | .contiguous n => { s with pages := (pmmAllocContiguous s.pages n).2 }
  | .free f => s.free (f * pageSize)
  | .write f bytes => { s with mem := fun a => if a / pageSize = f then bytes a else s.mem a }
  | .slab grants => { s with slab := grants }

/-- Only frames of `K` are written or freed. -/
def FrameOp.Own (K : Set Nat) : FrameOp → Prop
  | .free f => f ∈ K
  | .write f _ => f ∈ K
  | _ => True

/-- What is held in `s` when the frames `K` were held in `s₀`. -/
def held (K : Set Nat) (s₀ s : Vm) : Set Nat := {f | (f ∈ K ∨ f ∈ pool.free s₀) ∧ f ∉ pool.free s}

theorem held_self (h : ∀ f ∈ K, f ∉ pool.free s) : held K s s = K := by
  ext f
  constructor
  · intro hf
    exact hf.1.resolve_right hf.2
  · intro hf
    exact ⟨.inl hf, h f hf⟩

theorem cell_write {bytes : Mem} (h : g ≠ f) : pool.cell (FrameOp.exec s (.write f bytes)) g = pool.cell s g := by
  funext ⟨o, ho⟩
  have hdiv : (g * pageSize + o) / pageSize ≠ f := by
    have ho : o < 4096 := ho
    change (g * 4096 + o) / 4096 ≠ f
    omega
  change (if (g * pageSize + o) / pageSize = f then _ else _) = _
  rw [if_neg hdiv]
  rfl

/-- A change of memory in one frame is a write. -/
theorem exec_write (hpages : s'.pages = s.pages) (hslab : s'.slab = s.slab)
    (hcell : ∀ g, g ≠ f → pool.cell s' g = pool.cell s g) : FrameOp.exec s (.write f s'.mem) = s' := by
  have hmem : (fun a => if a / pageSize = f then s'.mem a else s.mem a) = s'.mem := by
    funext a
    by_cases ha : a / pageSize = f
    · rw [if_pos ha]
    · rw [if_neg ha]
      have hbyte := congrFun (hcell (a / pageSize) ha) ⟨a % pageSize, Nat.mod_lt _ (by decide)⟩
      change s'.mem (a / pageSize * pageSize + a % pageSize) = s.mem (a / pageSize * pageSize + a % pageSize) at hbyte
      rw [Nat.div_add_mod'] at hbyte
      exact hbyte.symm
  change ({ s with mem := _ } : Vm) = s'
  rw [hmem, ← hpages, ← hslab]

theorem contiguous_takes (s : Vm) (n : Nat) : ∃ N, Takes pool ∅ N s (FrameOp.exec s (.contiguous n)) := by
  change ∃ N, Takes pool ∅ N s { s with pages := (pmmAllocContiguous s.pages n).2 }
  rcases pmmAllocContiguous_cases s.pages n with heq | ⟨st, _, _, hfree, heq⟩
  · rw [heq]
    exact ⟨∅, Takes.refl ..⟩
  · rw [heq]
    refine ⟨{f | f ∈ List.range' st n}, fun f hf => mem_free.mpr (hfree f hf), fun f => ?_, fun _ _ _ => rfl⟩
    exact freePages_foldl_clr s.pages _ _ f

/-- Frames out of reach of an access: they stay as they are and what they are. -/
theorem FrameOp.confined {op : FrameOp} (hown : op.Own K) (hK : ∀ f ∈ K, f ∉ pool.free s) :
    Confined pool K s (op.exec s) (held K s (op.exec s)) := by
  have hmore : ∀ {W N : Set Nat}, Takes pool W N s (op.exec s) → W ⊆ K →
      Confined pool K s (op.exec s) (held K s (op.exec s)) := by
    intro W N htake hW
    refine ⟨fun f hf => ?_, fun f hf => hf.2, (htake.confined hW hK).same⟩
    rcases hf with hf | hf
    · exact hf.1
    · exact .inr ((htake.free_iff f).mp hf).1
  cases op with
  | alloc =>
    rcases alloc_cases s with ⟨N, _, _, htake, _⟩ | ⟨f, _, _, htake⟩
    · exact hmore htake (Set.empty_subset K)
    · exact hmore htake (Set.empty_subset K)
  | contiguous n =>
    obtain ⟨N, htake⟩ := contiguous_takes s n
    exact hmore htake (Set.empty_subset K)
  | free f =>
    have hgives := free_gives s f
    refine ⟨fun g hg => ?_, fun g hg => hg.2, fun g _ _ => hgives.same g (Set.notMem_empty g)⟩
    rcases hg with hg | hg
    · exact hg.1
    · rcases (hgives.free_iff g).mp hg with hg | ⟨rfl, _⟩
      · exact .inr hg
      · exact .inl hown
  | write f bytes =>
    have htake : Takes pool {f} ∅ s (FrameOp.exec s (.write f bytes)) := Takes.write rfl fun g hg => cell_write hg
    exact hmore htake (Set.singleton_subset_iff.mpr hown)
  | slab grants =>
    have htake : Takes pool ∅ ∅ s (FrameOp.exec s (.slab grants)) := Takes.write rfl fun _ _ => rfl
    exact hmore htake (Set.empty_subset K)

/-! ## 2. Sequences -/

/-- From `s₀`, where the frames `K` are held, accesses to what is held lead to a state. -/
inductive Works (K : Set Nat) (s₀ : Vm) : Vm → Prop
  | refl : Works K s₀ s₀
  | step {s : Vm} (h : Works K s₀ s) (op : FrameOp) (hown : op.Own (held K s₀ s)) : Works K s₀ (op.exec s)

/-- What was held or free is held or free. -/
theorem Works.confined (h : Works K s₀ s) (hK : ∀ f ∈ K, f ∉ pool.free s₀) : Confined pool K s₀ s (held K s₀ s) := by
  induction h with
  | refl =>
    rw [held_self hK]
    exact .refl hK
  | @step s _ op hown ih =>
    have hop := FrameOp.confined (s := s) hown ih.apart
    refine ⟨fun f hf => ?_, fun f hf => hf.2, (ih.trans hop).same⟩
    rcases hf with hf | hf
    · exact hf.1
    · exact ih.within f (hop.within f (.inr hf))

section Steps

variable (hK : ∀ f ∈ K, f ∉ pool.free s₀)
include hK

/-- Frames that are taken are held, and so are those that were. -/
theorem Works.held_take {W : Set Nat} (h : Works K s₀ s) (htake : Takes pool W N s s') :
    N ⊆ held K s₀ s' ∧ held K s₀ s ⊆ held K s₀ s' := by
  refine ⟨fun f hf => ⟨?_, htake.disjoint f hf⟩, fun f hf => ⟨hf.1, fun hfree => ?_⟩⟩
  · exact (h.confined hK).within f (.inr (htake.was_free f hf))
  · exact hf.2 ((htake.free_iff f).mp hfree).1

omit hK in
theorem Works.write (h : Works K s₀ s) (hf : f ∈ held K s₀ s) (hpages : s'.pages = s.pages)
    (hslab : s'.slab = s.slab) (hcell : ∀ g, g ≠ f → pool.cell s' g = pool.cell s g) : Works K s₀ s' := by
  rw [← exec_write hpages hslab hcell]
  exact .step h _ hf

omit hK in
theorem Works.setEntry (h : Works K s₀ s) (hf : f ∈ held K s₀ s) (hi : i < tableEntries) (e : Nat) :
    Works K s₀ (setEntry s (f * pageSize) i e) :=
  h.write hf rfl rfl fun _ hg => cell_setEntry hi hg

omit hK in
theorem Works.grants (h : Works K s₀ s) : Works K s₀ s.slabAlloc.2 := by
  rw [slabAlloc_eq]
  exact .step h (.slab s.slabAlloc.2.slab) trivial

/-- **`pmm_alloc_zero`**: an allocation, and a write to the frame it delivered. -/
theorem Works.allocZero (h : Works K s₀ s) : Works K s₀ s.allocZero.2 := by
  have halloc : Works K s₀ s.alloc.2 := .step h .alloc trivial
  rw [allocZero_eq]
  rcases alloc_cases s with ⟨_, _, h0, _⟩ | ⟨f, hf0, hf, htake⟩
  · rw [if_neg (not_not.mpr h0)]
    exact halloc
  · have hne : s.alloc.1 ≠ 0 := by
      rw [hf, pageSize_eq]
      omega
    rw [if_pos hne]
    refine halloc.write ((h.held_take hK htake).1 rfl) rfl rfl fun g hg => ?_
    funext ⟨o, ho⟩
    have ho : o < 4096 := ho
    refine fill_of_ne _ _ _ _ ?_
    rw [hf]
    change g * 4096 + o < f * 4096 ∨ f * 4096 + 4096 ≤ g * 4096 + o
    omega

/-! ## 3. Building -/

/-- The copying of pages into a table that is held; nothing is given back. -/
theorem clonePages_works (spt : Nat) (his : ∀ i ∈ is, i < tableEntries) (h : Works K s₀ s) (hu : u ∈ held K s₀ s) :
    Works K s₀ (clonePages spt (u * pageSize) is s).2 ∧
      held K s₀ s ⊆ held K s₀ (clonePages spt (u * pageSize) is s).2 := by
  induction is generalizing s with
  | nil => exact ⟨h, Set.Subset.rfl⟩
  | cons i is ih =>
    have his' : ∀ j ∈ is, j < tableEntries := fun j hj => his j (.tail _ hj)
    by_cases hpres : present (entry s spt i) = true
    · have halloc : Works K s₀ s.alloc.2 := .step h .alloc trivial
      rcases alloc_cases s with ⟨_, _, h0, htake, _⟩ | ⟨g, hg0, hg, htake⟩
      · rw [clonePages, if_pos hpres]
        dsimp only
        rw [if_pos h0]
        exact ⟨halloc, (h.held_take hK htake).2⟩
      · obtain ⟨f, y, _, hround⟩ := clonePages_cons_copied (u := u) spt is hpres hg hg0
        rw [hround]
        obtain ⟨hnew, hold⟩ := h.held_take hK htake
        have hcopy : Works K s₀ (s.alloc.2.copyFrame g f) :=
          halloc.write (hnew rfl) rfl rfl fun _ hx => cell_copyFrame_of_ne _ _ hx
        have hset := hcopy.setEntry (hold hu) (his i (.head _)) (g * pageSize ||| y)
        obtain ⟨hrest, hkept⟩ := ih his' hset (hold hu)
        exact ⟨hrest, hold.trans hkept⟩
    · rw [clonePages, if_neg hpres]
      exact ih his' h hu

/-- A table is entered into the directory when its pages are copied. -/
theorem cloneTables_works (src : Nat) (hdis : ∀ di ∈ dis, di < userTables) (h : Works K s₀ s) (hx : x ∈ held K s₀ s) :
    Works K s₀ (cloneTables src (x * pageSize) dis s).2 := by
  induction dis generalizing s with
  | nil => exact h
  | cons di dis ih =>
    have hdis' : ∀ dj ∈ dis, dj < userTables := fun dj hdj => hdis dj (.tail _ hdj)
    rw [cloneTables]
    by_cases hpres : present (entry s src di) = true
    · rw [if_pos hpres]
      dsimp only
      have halloc := h.allocZero hK
      rcases allocZero_cases s with ⟨_, _, h0, _⟩ | ⟨u, hu0, hu, htake, _⟩
      · rw [if_pos h0]
        exact halloc
      · have hne : u * pageSize ≠ 0 := addr_ne ‹_›
        obtain ⟨hnew, hold⟩ := h.held_take hK htake
        rw [hu, if_neg hne]
        have hentries : ∀ i ∈ List.range tableEntries, i < tableEntries := fun _ => List.mem_range.mp
        obtain ⟨hpages, hkept⟩ := clonePages_works hK (pteAddr (entry s.allocZero.2 src di)) hentries halloc (hnew rfl)
        generalize clonePages (pteAddr (entry s.allocZero.2 src di)) (u * pageSize) (List.range tableEntries)
          s.allocZero.2 = r at hpages hkept ⊢
        split
        · have hdi := user_lt (hdis di (.head _))
          exact ih hdis' (hpages.setEntry (hkept (hold hx)) hdi _) (hkept (hold hx))
        · exact hpages
    · rw [if_neg hpres]
      exact ih hdis' h hx

/-- **`pgdir_create`**, and the directory it made. -/
theorem pgdirCreate_works (kernelPgdir : Nat) (h : Works K s₀ s) : Works K s₀ (pgdirCreate kernelPgdir s).2 := by
  have halloc := h.allocZero hK
  unfold pgdirCreate
  dsimp only
  rcases allocZero_cases s with ⟨_, _, h0, _⟩ | ⟨x, hx0, hx, htake, _⟩
  · rw [if_pos h0]
    exact halloc
  · have hne : x * pageSize ≠ 0 := addr_ne ‹_›
    rw [hx, if_neg hne]
    refine halloc.write ((h.held_take hK htake).1 rfl) rfl rfl fun g hg => ?_
    funext ⟨o, ho⟩
    have ho : o < 4096 := ho
    refine copy_of_ne _ _ _ _ ?_
    change g * 4096 + o < x * 4096 + 4 * 768 ∨ x * 4096 + 4 * 768 + 4 * 256 ≤ g * 4096 + o
    omega

/-! ## 4. Giving back -/

omit hK in
theorem free_mem (s : Vm) (p : Nat) : (s.free p).mem = s.mem := rfl

omit hK in
/-- A frame is freed; the others that are held stay held. -/
theorem Works.free (h : Works K s₀ s) (hf : f ∈ held K s₀ s) : Works K s₀ (s.free (f * pageSize)) ∧
      ∀ g ∈ held K s₀ s, g ≠ f → g ∈ held K s₀ (s.free (f * pageSize)) := by
  refine ⟨.step h (.free f) hf, fun g hg hne => ⟨hg.1, fun hfree => ?_⟩⟩
  rcases ((free_gives s f).free_iff g).mp hfree with hfree | heq
  · exact hg.2 hfree
  · exact hne heq.1

omit hK in
theorem destroyPages_works (hnd : is.Nodup) (h : Works K s₀ s)
    (hheld : ∀ i ∈ is, ∀ f, target s t i = some f → f ∈ held K s₀ s)
    (hinj : ∀ i ∈ is, ∀ j ∈ is, ∀ f, target s t i = some f → target s t j = some f → i = j) :
    Works K s₀ (destroyPages (t * pageSize) is s) := by
  induction is generalizing s with
  | nil => exact h
  | cons i is ih =>
    obtain ⟨hni, hnd⟩ := List.nodup_cons.mp hnd
    have hinj' : ∀ i ∈ is, ∀ j ∈ is, ∀ f, target s t i = some f → target s t j = some f → i = j :=
      fun a ha b hb => hinj a (.tail _ ha) b (.tail _ hb)
    rw [destroyPages]
    cases hf : target s t i with
    | none =>
      rw [target_none.mp hf]
      exact ih hnd h (fun j hj => hheld j (.tail _ hj)) hinj'
    | some f =>
      rw [if_pos (target_some hf).1, (target_some hf).2]
      obtain ⟨hfree, hothers⟩ := h.free (hheld i (.head _) f hf)
      refine ih hnd hfree (fun j hj g hg => ?_) hinj'
      refine hothers g (hheld j (.tail _ hj) g hg) fun heq => hni ?_
      have hij := hinj i (.head _) j (.tail _ hj) f hf (heq ▸ hg)
      rwa [hij]

omit hK in
/-- The places of a table: its own and those of its pages. -/
theorem slot_of_tableFrames (hdi : di < userTables) (hf : f ∈ tableFrames s d di) :
    ∃ k, frameAt s d k = some f ∧ (k = .table di ∨ ∃ pi, k = .page di pi) := by
  rcases hf with ht | ⟨t, pi, ht, hpi, hp⟩
  · exact ⟨.table di, (frameAt_table hdi).trans ht, .inl rfl⟩
  · exact ⟨.page di pi, (frameAt_page hdi ht hpi).trans hp, .inr ⟨pi, rfl⟩⟩

omit hK in
/-- A table is given back with its pages; what is at the other places of the directory stays held. -/
theorem destroyTable_works (hnd : is.Nodup) (his : ∀ i ∈ is, i < tableEntries) (hdi : di < userTables)
    (h : Works K s₀ s) (hspace : Space s d F) (ht : target s d di = some t)
    (hheld : ∀ f ∈ tableFrames s d di, f ∈ held K s₀ s) :
    Works K s₀ ((destroyPages (t * pageSize) is s).free (t * pageSize)) ∧
      ∀ {k f}, frameAt s d k = some f → f ∈ held K s₀ s → (∀ pi, k ≠ .page di pi) → k ≠ .table di →
        f ∈ held K s₀ ((destroyPages (t * pageSize) is s).free (t * pageSize)) := by
  have hpage : ∀ i ∈ is, ∀ f, target s t i = some f → frameAt s d (.page di i) = some f :=
    fun i hi f hf => (frameAt_page hdi ht (his i hi)).trans hf
  have htable : frameAt s d (.table di) = some t := (frameAt_table hdi).trans ht
  have hpages : Works K s₀ (destroyPages (t * pageSize) is s) := by
    refine destroyPages_works hnd h (fun i hi f hf => ?_) fun i hi j hj f hf hf' => ?_
    · exact hheld f (.inr ⟨t, i, ht, his i hi, hf⟩)
    · have hk := hspace.inj (hpage i hi f hf) (hpage j hj f hf')
      cases hk
      rfl
  obtain ⟨_, hgives⟩ := destroyPages_gives (t := t) is s
  have hstill : ∀ {k f}, frameAt s d k = some f → f ∈ held K s₀ s → (∀ pi, k ≠ .page di pi) →
      f ∈ held K s₀ (destroyPages (t * pageSize) is s) := by
    intro k f hk hf hother
    refine ⟨hf.1, fun hfree => ?_⟩
    rcases (hgives.free_iff f).mp hfree with hfree | ⟨_, i, hi, hi'⟩
    · exact hf.2 hfree
    · exact hother i (hspace.inj hk (hpage i hi f hi'))
  obtain ⟨hfree, hothers⟩ := hpages.free (hstill htable (hheld t (.inl ht)) fun _ heq => by cases heq)
  refine ⟨hfree, fun hk hf hother hne => hothers _ (hstill hk hf hother) fun heq => ?_⟩
  exact hne (hspace.inj hk (heq ▸ htable))

omit hK in
/-- The tables still to be given back are those of the beginning. -/
theorem tables_left (hspace : Space s d F) (hmem : s'.mem = s.mem) (hni : di ∉ dis)
    (hdis : ∀ dj ∈ dis, dj < userTables) (hheld : ∀ dj ∈ dis, ∀ f ∈ tableFrames s d dj, f ∈ held K s₀ s)
    (hothers : ∀ {k f}, frameAt s d k = some f → f ∈ held K s₀ s → (∀ pi, k ≠ .page di pi) → k ≠ .table di →
      f ∈ held K s₀ s') :
    Space s' d F ∧ ∀ dj ∈ dis, ∀ f ∈ tableFrames s' d dj, f ∈ held K s₀ s' := by
  refine ⟨hspace.congr fun f _ => funext fun o => congrFun hmem _, fun dj hdj f hf => ?_⟩
  simp only [tableFrames, target_mem hmem] at hf
  have hne : dj ≠ di := fun heq => hni (heq ▸ hdj)
  obtain ⟨k, hk, hplace⟩ := slot_of_tableFrames (hdis dj hdj) hf
  refine hothers hk (hheld dj hdj f hf) (fun pi heq => ?_) fun heq => ?_
  · rcases hplace with rfl | ⟨pj, rfl⟩
    · cases heq
    · cases heq
      exact hne rfl
  · rcases hplace with rfl | ⟨pj, rfl⟩
    · cases heq
      exact hne rfl
    · cases heq

omit hK in
theorem destroyTables_works (hnd : dis.Nodup) (hdis : ∀ di ∈ dis, di < userTables) (h : Works K s₀ s)
    (hspace : Space s d F) (hheld : ∀ di ∈ dis, ∀ f ∈ tableFrames s d di, f ∈ held K s₀ s) :
    Works K s₀ (destroyTables (d * pageSize) dis s) := by
  induction dis generalizing s with
  | nil => exact h
  | cons di dis ih =>
    obtain ⟨hni, hnd⟩ := List.nodup_cons.mp hnd
    obtain ⟨hdi, hdis'⟩ := List.forall_mem_cons.mp hdis
    have hheld' : ∀ dj ∈ dis, ∀ f ∈ tableFrames s d dj, f ∈ held K s₀ s := fun dj hdj => hheld dj (.tail _ hdj)
    cases ht : target s d di with
    | none =>
      rw [destroyTables_cons_none ht]
      exact ih hnd hdis' h hspace hheld'
    | some t =>
      rw [destroyTables_cons_some ht]
      obtain ⟨hone, hothers⟩ := destroyTable_works List.nodup_range (fun _ => List.mem_range.mp) hdi h hspace ht
        (hheld di (.head _))
      have hmem : ((destroyPages (t * pageSize) (List.range tableEntries) s).free (t * pageSize)).mem = s.mem :=
        (free_mem _ _).trans (destroyPages_gives (t := t) (List.range tableEntries) s).1
      obtain ⟨hspace', hrest⟩ := tables_left hspace hmem hni hdis' hheld' hothers
      exact ih hnd hdis' hone hspace' hrest

omit hK in
/-- **`pgdir_destroy`** of a directory that is held with its tables and pages. -/
theorem pgdirDestroy_works (kernelPgdir : Nat) (h : Works K s₀ s) (hspace : Space s d F)
    (hheld : ∀ f ∈ F, f ∈ held K s₀ s) : Works K s₀ (pgdirDestroy kernelPgdir (d * pageSize) s) := by
  by_cases hskip : d * pageSize = 0 ∨ d * pageSize = kernelPgdir
  · rw [pgdirDestroy, if_pos hskip]
    exact h
  · rw [pgdirDestroy, if_neg hskip]
    have hin : ∀ di < userTables, ∀ f ∈ tableFrames s d di, f ∈ F := by
      intro di hdi f hf
      obtain ⟨k, hk, _⟩ := slot_of_tableFrames hdi hf
      exact hspace.owned hk
    have htables := destroyTables_works List.nodup_range (fun _ => List.mem_range.mp) h hspace
      fun di hdi f hf => hheld f (hin di (List.mem_range.mp hdi) f hf)
    obtain ⟨_, hgives⟩ := destroyTables_gives (d := d) (List.range userTables) s
    have hd := hheld d hspace.dir_mem
    generalize destroyTables (d * pageSize) (List.range userTables) s = s1 at htables hgives ⊢
    refine (htables.free (f := d) ⟨hd.1, fun hfree => ?_⟩).1
    rcases (hgives.free_iff d).mp hfree with hfree | ⟨_, di, hdi, hf⟩
    · exact hd.2 hfree
    · obtain ⟨k, hk, hplace⟩ := slot_of_tableFrames (List.mem_range.mp hdi) hf
      have hkd : Slot.dir = k := hspace.inj rfl hk
      rw [← hkd] at hplace
      rcases hplace with hplace | ⟨_, hplace⟩
      · cases hplace
      · cases hplace

/-! ## 5. The calls -/

/-- **`mm_create`**, one access after the other. -/
theorem mmCreate_works (kernelPgdir : Nat) (h : Works K s₀ s) : Works K s₀ (mmCreate kernelPgdir s).2 := by
  have hcreate := pgdirCreate_works hK kernelPgdir h.grants
  unfold mmCreate
  dsimp only
  split
  · split
    · exact hcreate
    · exact hcreate
  · exact h.grants

omit hK in
theorem mmDestroy_works {mm : MmStruct} (kernelPgdir : Nat) (hmm : mm.Aligned) (h : Works K s₀ s)
    (hspace : Space s mm.dir F) (hheld : ∀ f ∈ F, f ∈ held K s₀ s) : Works K s₀ (mmDestroy kernelPgdir mm s) := by
  rw [mmDestroy, hmm]
  exact pgdirDestroy_works kernelPgdir h hspace hheld

/-- **`pgdir_clone`**: a copy that cannot be finished is given back. -/
theorem pgdirClone_works (kernelPgdir : Nat) (h : Works K s₀ s) (hd : d ∉ pool.free s) :
    Works K s₀ (pgdirClone kernelPgdir (d * pageSize) s).2 := by
  have hcreate := pgdirCreate_works hK kernelPgdir h
  unfold pgdirClone
  dsimp only
  rcases pgdirCreate_cases kernelPgdir s with ⟨h0, _⟩ | ⟨x, hx0, hx, htake, hempty⟩
  · rw [if_pos h0]
    exact hcreate
  · have hne : x * pageSize ≠ 0 := addr_ne ‹_›
    have hfree := htake.was_free x rfl
    have hxheld := (h.held_take hK htake).1 rfl
    rw [hx, if_neg hne]
    generalize (pgdirCreate kernelPgdir s).2 = s1 at *
    have huser : ∀ di ∈ List.range userTables, di < userTables := fun _ => List.mem_range.mp
    have htables := cloneTables_works hK (d * pageSize) huser hcreate hxheld
    have hd1 : d ∉ pool.free s1 := htake.used hd
    have hdx : d ∉ ({x} : Set Nat) := fun hm => hd (Set.mem_singleton_iff.mp hm ▸ hfree)
    obtain ⟨N, hN⟩ := cloneTables_taken List.nodup_range huser hd1 hdx
      (.empty hempty) (fun f hf => htake.disjoint f hf) fun di hdi => hempty di (huser di hdi)
    obtain ⟨hnew, hold⟩ := hcreate.held_take hK hN.takes
    generalize cloneTables (d * pageSize) (x * pageSize) (List.range userTables) s1 = r at *
    split
    · exact htables
    · refine pgdirDestroy_works kernelPgdir htables hN.space fun f hf => ?_
      rcases hf with hf | hf
      · rw [Set.mem_singleton_iff.mp hf]
        exact hold hxheld
      · exact hnew hf

omit hK in
theorem cloneVmas_works (kernelPgdir : Nat) {vmas : List Vma} {dst : MmStruct} (hdst : dst.Aligned)
    (h : Works K s₀ s) (hspace : Space s dst.dir F) (hheld : ∀ f ∈ F, f ∈ held K s₀ s) :
    Works K s₀ (cloneVmas kernelPgdir vmas dst s).2 := by
  induction vmas generalizing s dst with
  | nil => exact h
  | cons vma vmas ih =>
    have hspace' : Space s.slabAlloc.2 dst.dir F := by
      rw [slabAlloc_eq]
      exact hspace.congr fun _ _ => rfl
    have hheld' : ∀ f ∈ F, f ∈ held K s₀ s.slabAlloc.2 := by
      rw [slabAlloc_eq]
      exact hheld
    rw [cloneVmas]
    dsimp only
    split
    · have hdst' : MmStruct.Aligned { dst with vmas := dst.vmas ++ [vma], mapCount := u32 (dst.mapCount + 1) } := hdst
      exact ih hdst' h.grants hspace' hheld'
    · exact mmDestroy_works kernelPgdir hdst h.grants hspace' hheld'

/-- **`mm_clone`**, one access after the other, whether it succeeds or not. -/
theorem mmClone_works {src : MmStruct} (kernelPgdir : Nat) (hwf : WellFormed s src) (h : Works K s₀ s) :
    Works K s₀ (mmClone kernelPgdir src s).2 := by
  have hg := h.grants
  unfold mmClone
  dsimp only
  split
  · rw [slabAlloc_eq] at hg ⊢
    rw [hwf.aligned]
    have hsrc : Space { s with slab := s.slabAlloc.2.slab } src.dir (spaceFrames s src.dir) :=
      hwf.space.congr fun _ _ => rfl
    have hclone := pgdirClone_works hK kernelPgdir hg (hwf.apart src.dir hwf.space.dir_mem)
    generalize hs : ({ s with slab := s.slabAlloc.2.slab } : Vm) = s1 at hsrc hclone hg ⊢
    have hapart : ∀ f ∈ spaceFrames s src.dir, f ∉ pool.free s1 := by
      subst hs
      exact hwf.apart
    generalize hr : pgdirClone kernelPgdir (src.dir * pageSize) s1 = r at hclone ⊢
    obtain ⟨p, s2⟩ := r
    dsimp only
    split
    · exact hclone
    · rename_i hp
      obtain ⟨x, N, rfl, htake, _, hspace, _⟩ := pgdirClone_spec hsrc hapart hr hp
      have hdir : ∀ {v b c e n}, (⟨x * pageSize, v, b, c, e, n⟩ : MmStruct).dir = x := by
        intro v b c e n
        exact Nat.mul_div_cancel _ (by decide)
      refine cloneVmas_works (F := N) kernelPgdir ?_ hclone ?_ ((hg.held_take hK htake).1)
      · rw [MmStruct.Aligned, hdir]
      · rw [hdir]
        exact hspace
  · exact hg

/-- **A page is made and mapped**, with a table for it if there is none. -/
theorem mapFresh_works (flags : Nat) (h : Works K s₀ s) (hva : va < kernelVirtBase) (hspace : Space s x F)
    (hheld : ∀ f ∈ F, f ∈ held K s₀ s) : Works K s₀ (mapFresh (x * pageSize) va flags s) := by
  have halloc := h.allocZero hK
  unfold mapFresh
  rcases allocZero_cases s with ⟨_, _, h0, _⟩ | ⟨g, hg0, hg, htake, _⟩
  · rw [if_pos h0]
    exact halloc
  · have hne : g * pageSize ≠ 0 := addr_ne ‹_›
    obtain ⟨_, hold⟩ := h.held_take hK htake
    have hcell : ∀ f ∈ F, pool.cell s.allocZero.2 f = pool.cell s f := fun f hf => htake.keeps ((hheld f hf).2)
    have hx := hheld x hspace.dir_mem
    rw [hg, if_neg hne]
    generalize s.allocZero.2 = s1 at *
    have hspace1 : Space s1 x F := hspace.congr hcell
    cases ht : target s1 x (pdIndex va) with
    | some t =>
      rw [mapPage_some ht]
      have htF := hspace1.owned ((frameAt_table (pdIndex_lt hva)).trans ht)
      exact halloc.setEntry (hold (hheld t htF)) (ptIndex_lt va) _
    | none =>
      have htable := halloc.allocZero hK
      rcases allocZero_cases s1 with ⟨_, _, h0, _⟩ | ⟨u, hu0, hu, htake1, _⟩
      · rw [mapPage_fail ht h0]
        exact htable
      · rw [mapPage_new ht hu hu0]
        obtain ⟨hnew, hold1⟩ := halloc.held_take hK htake1
        have hdir := htable.setEntry (hold1 (hold hx)) (user_lt (pdIndex_lt hva)) (tableEntry u)
        exact hdir.setEntry (hnew rfl) (ptIndex_lt va) _

end Steps

end OreUnix.Vmm
