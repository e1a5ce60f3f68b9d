/-
  Subject: WHAT AN EXECUTABLE LOOKS LIKE IN MEMORY once `sys_exec` has loaded it.

  * `Holds` -- the new address space is well formed in frames that were free, and its bytes are those of an image, a
    partial map from addresses;
  * `Action.image` -- what a mapping and a copy do to the image, and `Holds.step`: the memory follows;
  * `image_segment` -- the image of one segment: its bytes from the file, and 0 on the rest of its pages;
  * `elf_faithful_iff` -- the segments of a file are all there afterwards if and only if no byte of one that is not 0
    lies on a page of a later one.
-/
import Mathlib.Order.Interval.Finset.Nat
import OreUnix.Mm.Conservation
import OreUnix.Proc.Exec

namespace OreUnix.Exec

open ByteMem Pmm Vmm Bitmap FramePool

variable {s s' : Vm} {x va f g : Nat} {A N F : Set Nat} {M : Nat → Option UInt8} {file : List UInt8}
variable {as : List Action} {bytes : List UInt8} {dst flags gap n src : Nat} {ps : List Nat} {s1 : Vm}

/-! ## 1. The bytes of a program -/

/-- The byte at a user address. -/
def userByte (s : Vm) (x va : Nat) : Option UInt8 :=
  (frameAt s x (pageSlot va)).map fun f => s.mem (f * pageSize + va % pageSize)

/-- The address space in directory `x`, made of frames of `A`, has the bytes of `M`. -/
structure Holds (A : Set Nat) (x : Nat) (M : Nat → Option UInt8) (s : Vm) : Prop where
  distinct : ∀ {k k' f}, frameAt s x k = some f → frameAt s x k' = some f → k = k'
  used : ∀ {k f}, frameAt s x k = some f → f ∉ pool.free s
  was_free : ∀ {k f}, frameAt s x k = some f → f ∈ A
  sub : ∀ f ∈ pool.free s, f ∈ A
  bytes : ∀ va < kernelVirtBase, userByte s x va = M va

theorem Holds.space (h : Holds A x M s) : Space s x (spaceFrames s x) := ⟨fun hk => ⟨_, hk⟩, h.distinct⟩

theorem Holds.apart (h : Holds A x M s) : ∀ f ∈ spaceFrames s x, f ∉ pool.free s := by
  intro f hf
  obtain ⟨k, hk⟩ := hf
  exact h.used hk

theorem Holds.mapped_iff (h : Holds A x M s) (hva : va < kernelVirtBase) :
    (M va).isSome ↔ ∃ f, frameAt s x (pageSlot va) = some f := by
  rw [← h.bytes va hva, userByte, Option.isSome_map, Option.isSome_iff_exists]

theorem mem_of_cell {p q : Vm} (h : pool.cell p f = pool.cell q f) (o : Nat) :
    p.mem (f * pageSize + o % pageSize) = q.mem (f * pageSize + o % pageSize) :=
  congrFun h ⟨o % pageSize, Nat.mod_lt _ (by decide)⟩

theorem pageSlot_eq_iff {a b : Nat} : pageSlot a = pageSlot b ↔ a / pageSize = b / pageSize := by
  change Slot.page (a / 2 ^ 22) (a / 2 ^ 12 % 1024) = .page (b / 2 ^ 22) (b / 2 ^ 12 % 1024) ↔ a / 4096 = b / 4096
  rw [Slot.page.injEq]
  omega

/-! ## 2. Actions -/

/-- A zero page in the image. -/
def clearPage (M : Nat → Option UInt8) (p va : Nat) : Option UInt8 :=
  if va / pageSize = p / pageSize then some 0 else M va

/-- Bytes put into the image. -/
def overwrite (M : Nat → Option UInt8) (a : Nat) (bs : List UInt8) (va : Nat) : Option UInt8 :=
  if a ≤ va ∧ va < a + bs.length then some (bs.getD (va - a) 0) else M va

def Action.image (M : Nat → Option UInt8) : Action → Nat → Option UInt8
  | .map va _ => clearPage M va
  | .copy va bytes => overwrite M va bytes

/-- The action stays within the address space: it maps a user page, or copies to one that is mapped. -/
def Action.Inside (M : Nat → Option UInt8) : Action → Prop
  | .map va _ => va < kernelVirtBase
  | .copy va bytes => bytes ≠ [] → va < kernelVirtBase ∧ (M va).isSome

/-- What the loader's actions have in common: a page is mapped for the user, a copy stays in its page. -/
def Action.Fits : Action → Prop
  | .map va flags => va < 2 ^ 32 ∧ flags &&& VM_USER ≠ 0
  | .copy va bytes => va % pageSize + bytes.length ≤ pageSize

theorem Holds.mapped (h : Holds A x M s) (hva : va < kernelVirtBase) (hm : PageMapped s x va g N s') :
    Holds A x (clearPage M va) s' := by
  have hspace := hm.space h.space h.apart hva
  refine ⟨hspace.inj, fun {k f} hk hfree => ?_, fun {k f} hk => ?_, fun f hf => ?_, fun a ha => ?_⟩
  · obtain ⟨hfree, hN⟩ := (hm.takes.free_iff f).mp hfree
    rcases hspace.owned hk with hf | hf
    · exact h.apart f hf hfree
    · exact hN hf
  · rcases hspace.owned hk with ⟨k', hk'⟩ | hf
    · exact h.was_free hk'
    · exact h.sub f (hm.takes.was_free f hf)
  · exact h.sub f ((hm.takes.free_iff f).mp hf).1
  · unfold clearPage
    by_cases hpage : a / pageSize = va / pageSize
    · rw [if_pos hpage, userByte, pageSlot_eq_iff.mpr hpage, hm.page, Option.map_some]
      exact congrArg some (congrFun hm.zero ⟨a % pageSize, Nat.mod_lt _ (by decide)⟩)
    · rw [if_neg hpage, ← h.bytes a ha, userByte, userByte]
      have hne : pageSlot a ≠ pageSlot va := fun heq => hpage (pageSlot_eq_iff.mp heq)
      rw [hm.rest _ hne fun heq => by cases heq]
      cases hf : frameAt s x (pageSlot a) with
      | none => rfl
      | some f =>
        obtain ⟨hxf, htf⟩ := h.space.page_ne hf
        have hcell : pool.cell s' f = pool.cell s f := by
          refine hm.takes.same f (fun hm' => ?_) fun hN => h.used hf (hm.takes.was_free f hN)
          rcases hm' with hd | ht
          · exact hxf hd.symm
          · exact htf _ f (pdIndex_lt hva) ht rfl
        rw [Option.map_some, Option.map_some, mem_of_cell hcell]

theorem destination_of_frame (hf : frameAt s x (pageSlot va) = some f) :
    destination (x * pageSize) va s = f * pageSize + va % pageSize := by
  obtain ⟨_, _, t, ht, hp⟩ := table_of_page hf
  rw [destination, virtToPhysPd_some ht hp, pteAddr_or (Nat.mod_lt _ (by decide))]

/-- A write inside one frame. -/
theorem cell_copyChunk (hdest : destination (x * pageSize) va s = f * pageSize + va % pageSize)
    (hfit : va % pageSize + bytes.length ≤ pageSize) (hg : g ≠ f) :
    pool.cell (copyChunk (x * pageSize) va bytes s) g = pool.cell s g := by
  funext ⟨o, ho⟩
  have ho : o < 4096 := ho
  have hfit : va % 4096 + bytes.length ≤ 4096 := hfit
  change storeList s.mem (destination (x * pageSize) va s) bytes (g * 4096 + o) = s.mem (g * 4096 + o)
  rw [hdest]
  refine storeList_of_ne _ _ _ ?_
  change g * 4096 + o < f * 4096 + va % 4096 ∨ f * 4096 + va % 4096 + bytes.length ≤ g * 4096 + o
  omega

theorem Holds.copied (h : Holds A x M s) (hf : frameAt s x (pageSlot va) = some f)
    (hfit : va % pageSize + bytes.length ≤ pageSize) :
    Holds A x (overwrite M va bytes) (copyChunk (x * pageSize) va bytes s) := by
  obtain ⟨hxf, htf⟩ := h.space.page_ne hf
  have hdest := destination_of_frame hf
  have hat : ∀ k, frameAt (copyChunk (x * pageSize) va bytes s) x k = frameAt s x k :=
    frameAt_congr (cell_copyChunk hdest hfit hxf) fun dj t hdj ht => cell_copyChunk hdest hfit (htf dj t hdj ht)
  refine ⟨fun {k k' f} hk hk' => ?_, fun {k f} hk => ?_, fun {k f} hk => ?_, h.sub, fun a ha => ?_⟩
  · rw [hat] at hk hk'
    exact h.distinct hk hk'
  · rw [hat] at hk
    exact h.used hk
  · rw [hat] at hk
    exact h.was_free hk
  · have hfit' : va % 4096 + bytes.length ≤ 4096 := hfit
    rw [userByte, hat]
    unfold overwrite
    by_cases hpage : a / pageSize = va / pageSize
    · have hpage' : a / 4096 = va / 4096 := hpage
      have hmem : (copyChunk (x * pageSize) va bytes s).mem (f * pageSize + a % pageSize) =
          storeList s.mem (f * pageSize + va % pageSize) bytes (f * pageSize + a % pageSize) := by
        rw [copyChunk, hdest]
      rw [pageSlot_eq_iff.mpr hpage, hf, Option.map_some, hmem]
      by_cases hin : va ≤ a ∧ a < va + bytes.length
      · have hoff : f * pageSize + a % pageSize = f * pageSize + va % pageSize + (a - va) := by
          change f * 4096 + a % 4096 = f * 4096 + va % 4096 + (a - va)
          omega
        rw [if_pos hin, hoff, storeList_at _ _ _ (by omega)]
      · rw [if_neg hin, ← h.bytes a ha, userByte, pageSlot_eq_iff.mpr hpage, hf, Option.map_some]
        refine congrArg some (storeList_of_ne _ _ _ ?_)
        change f * 4096 + a % 4096 < f * 4096 + va % 4096 ∨ f * 4096 + va % 4096 + bytes.length ≤ f * 4096 + a % 4096
        omega
    · have hpage' : a / 4096 ≠ va / 4096 := hpage
      rw [if_neg (by omega), ← h.bytes a ha, userByte]
      cases hg : frameAt s x (pageSlot a) with
      | none => rfl
      | some g =>
        have hgf : g ≠ f := fun heq => hpage (pageSlot_eq_iff.mp (h.distinct hg (heq ▸ hf)))
        rw [Option.map_some, Option.map_some, mem_of_cell (cell_copyChunk hdest hfit hgf)]

theorem allocZero_of_empty (h : pool.free s = ∅) : s.allocZero.1 = 0 := by
  rcases allocZero_cases s with ⟨_, _, h0, _⟩ | ⟨g, _, _, htake, _⟩
  · exact h0
  · have hg := htake.was_free g rfl
    rw [h] at hg
    exact absurd hg (Set.notMem_empty g)

/-- A mapping that went through. -/
theorem exec_map (hexec : (Action.map va flags).exec x s = some s') :
    s.allocZero.1 ≠ 0 ∧ s' = mapFresh x va flags s := by
  dsimp only [Action.exec] at hexec
  split at hexec
  · cases hexec
  · exact ⟨‹_›, (Option.some.inj hexec).symm⟩

theorem free_of_map (hexec : (Action.map va flags).exec x s = some s') : pool.free s ≠ ∅ :=
  fun h => (exec_map hexec).1 (allocZero_of_empty h)

theorem copyChunk_nil (pd va : Nat) (s : Vm) : copyChunk pd va [] s = s := by
  have hmem : storeList s.mem (destination pd va s) [] = s.mem := by
    funext a
    exact if_neg (by simp only [List.length_nil]; omega)
  rw [copyChunk, hmem]

theorem Holds.copyStep (h : Holds A x M s) (hin : (Action.copy va bytes).Inside M)
    (hfit : va % pageSize + bytes.length ≤ pageSize) :
    Holds A x (overwrite M va bytes) (copyChunk (x * pageSize) va bytes s) := by
  by_cases hnil : bytes = []
  · have himage : overwrite M va [] = M := by
      funext a
      exact if_neg (by simp only [List.length_nil]; omega)
    rw [hnil, himage, copyChunk_nil]
    exact h
  · obtain ⟨hva, hsome⟩ := hin hnil
    obtain ⟨f, hf⟩ := (h.mapped_iff hva).mp hsome
    exact h.copied hf hfit

/-- **One action of the loader**: the memory follows the image, or the last frame went for nothing. -/
theorem Holds.step {a : Action} (h : Holds A x M s) (h0 : 0 ∉ A) (hin : a.Inside M) (hfit : a.Fits)
    (hexec : a.exec (x * pageSize) s = some s') : Holds A x (a.image M) s' ∨ pool.free s' = ∅ := by
  have hz : 0 ∉ pool.free s := fun hm => h0 (h.sub 0 hm)
  cases a with
  | map va flags =>
    obtain ⟨hgot, rfl⟩ := exec_map hexec
    rcases mapFresh_cases h.space h.apart hin flags with ⟨hfail, _⟩ | ⟨g, N, _, _, hm⟩ | ⟨_, _, hempty, _⟩
    · exact absurd hfail hgot
    · exact .inl (h.mapped hin hm)
    · exact .inr (hempty hz)
  | copy va bytes =>
    cases hexec
    exact .inl (h.copyStep hin hfit)

/-! ## 3. Runs of the loader -/

/-- The image after a list of actions. -/
def imageOf (M : Nat → Option UInt8) (as : List Action) : Nat → Option UInt8 := as.foldl Action.image M

/-- Every action stays within what is mapped when its turn comes. -/
def AllInside : (Nat → Option UInt8) → List Action → Prop
  | _, [] => True
  | M, a :: as => a.Inside M ∧ AllInside (a.image M) as

theorem exec_of_empty {a : Action} (h : pool.free s = ∅) (hexec : a.exec x s = some s') : pool.free s' = ∅ := by
  cases a with
  | map va flags => exact absurd h (free_of_map hexec)
  | copy va bytes =>
    cases hexec
    exact h

/-- When memory has run out, it stays so. -/
theorem run_of_empty (h : pool.free s = ∅) (hrun : as.foldlM (Action.exec x) s = some s') : pool.free s' = ∅ := by
  induction as generalizing s with
  | nil =>
    cases hrun
    exact h
  | cons a as ih =>
    obtain ⟨s1, hexec, hrun⟩ := Option.bind_eq_some_iff.mp hrun
    exact ih (exec_of_empty h hexec) hrun

theorem Holds.run (h : Holds A x M s) (h0 : 0 ∉ A) (hin : AllInside M as) (hfit : ∀ a ∈ as, a.Fits)
    (hrun : as.foldlM (Action.exec (x * pageSize)) s = some s') :
    Holds A x (imageOf M as) s' ∨ pool.free s' = ∅ := by
  induction as generalizing s M with
  | nil =>
    cases hrun
    exact .inl h
  | cons a as ih =>
    obtain ⟨s1, hexec, hrun⟩ := Option.bind_eq_some_iff.mp hrun
    rcases h.step h0 hin.1 (hfit a (.head _)) hexec with h1 | hempty
    · exact ih h1 hin.2 (fun b hb => hfit b (.tail _ hb)) hrun
    · exact .inr (run_of_empty hempty hrun)

/-- Pages mapped: whether or not the last one found its table, the bytes elsewhere stay. -/
theorem Holds.pages (h : Holds A x M s) (h0 : 0 ∉ A) (hps : ∀ p ∈ ps, p < kernelVirtBase) (hva : va < kernelVirtBase)
    (hnot : ∀ p ∈ ps, va / pageSize ≠ p / pageSize)
    (hrun : (ps.map (Action.map · flags)).foldlM (Action.exec (x * pageSize)) s = some s') :
    userByte s' x va = M va := by
  induction ps generalizing s M with
  | nil =>
    cases hrun
    exact h.bytes va hva
  | cons p ps ih =>
    obtain ⟨s1, hexec, hrun⟩ := Option.bind_eq_some_iff.mp hrun
    have hp := hps p (.head _)
    have hz : 0 ∉ pool.free s := fun hm => h0 (h.sub 0 hm)
    have hps' : ∀ q ∈ ps, q < kernelVirtBase := fun q hq => hps q (.tail _ hq)
    have hnot' : ∀ q ∈ ps, va / pageSize ≠ q / pageSize := fun q hq => hnot q (.tail _ hq)
    have hkeep : clearPage M p va = M va := if_neg (hnot p (.head _))
    obtain ⟨hgot, rfl⟩ := exec_map hexec
    rcases mapFresh_cases h.space h.apart hp flags with ⟨hfail, _⟩ | ⟨g, N, _, _, hm⟩ | ⟨_, _, hempty, g, N, hN, htake⟩
    · exact absurd hfail hgot
    · rw [← hkeep]
      exact ih (h.mapped hp hm) hps' hnot' hrun
    · -- nothing is free any more, so this was the last page
      cases ps with
      | nil =>
        cases hrun
        have hcell : ∀ f ∈ spaceFrames s x, pool.cell (mapFresh (x * pageSize) p flags s) f = pool.cell s f := by
          intro f hf
          exact htake.keeps (h.apart f hf)
        rw [← h.bytes va hva, userByte, userByte, h.space.frameAt_eq hcell]
        cases hf : frameAt s x (pageSlot va) with
        | none => rfl
        | some f => rw [Option.map_some, Option.map_some, mem_of_cell (hcell f ⟨_, hf⟩)]
      | cons q qs =>
        obtain ⟨s2, hexec, _⟩ := Option.bind_eq_some_iff.mp hrun
        exact absurd (hempty hz) (free_of_map hexec)

/-- Two frames for a page are enough. -/
def Action.cost : Action → Nat
  | .map _ _ => 2
  | .copy _ _ => 0

def totalCost (as : List Action) : Nat := (as.map Action.cost).sum

/-- With two frames left an action goes through. -/
theorem Holds.stepGoes {a : Action} (h : Holds A x M s) (h0 : 0 ∉ A) (hin : a.Inside M) (hfit : a.Fits)
    (hroom : a.cost ≤ frames s) :
    ∃ s', a.exec (x * pageSize) s = some s' ∧ Holds A x (a.image M) s' ∧ frames s ≤ frames s' + a.cost := by
  cases a with
  | map va flags =>
    have htwo : 2 ≤ frames s := hroom
    have hz : 0 ∉ pool.free s := fun hm => h0 (h.sub 0 hm)
    have hne : s.allocZero.1 ≠ 0 := by
      intro hfail
      rcases allocZero_cases s with ⟨_, _, _, _, hempty⟩ | ⟨g, hg0, hg, _⟩
      · rw [frames_eq_zero (hempty hz)] at htwo
        omega
      · rw [hg, pageSize_eq] at hfail
        omega
    obtain ⟨g, N, hm⟩ := mapFresh_mapped va h.space h.apart hin hz (by omega) (fun _ => htwo) flags
    exact ⟨_, if_neg hne, h.mapped hin hm, hm.cost_le⟩
  | copy va bytes => exact ⟨_, rfl, h.copyStep hin hfit, Nat.le_add_right _ _⟩

/-- **With enough memory the loader goes through.** -/
theorem Holds.goes (h : Holds A x M s) (h0 : 0 ∉ A) (hin : AllInside M as) (hfit : ∀ a ∈ as, a.Fits)
    (hroom : totalCost as ≤ frames s) :
    ∃ s', as.foldlM (Action.exec (x * pageSize)) s = some s' ∧ Holds A x (imageOf M as) s' ∧
      frames s ≤ frames s' + totalCost as := by
  induction as generalizing s M with
  | nil => exact ⟨s, rfl, h, Nat.le_add_right _ _⟩
  | cons a as ih =>
    have hcost : totalCost (a :: as) = a.cost + totalCost as := List.sum_cons
    obtain ⟨s1, hexec, h1, hle⟩ := h.stepGoes h0 hin.1 (hfit a (.head _)) (by omega)
    obtain ⟨s', hrun, h', hle'⟩ := ih h1 hin.2 (fun b hb => hfit b (.tail _ hb)) (by omega)
    refine ⟨s', ?_, h', by omega⟩
    rw [List.foldlM_cons, hexec]
    exact hrun

/-! ## 4. The image of a file -/

/-- Pages are mapped as wholes. -/
def Paged (M : Nat → Option UInt8) : Prop := ∀ a b, a / pageSize = b / pageSize → (M a).isSome = (M b).isSome

theorem allInside_append {bs : List Action} :
    AllInside M (as ++ bs) ↔ AllInside M as ∧ AllInside (imageOf M as) bs := by
  induction as generalizing M with
  | nil => exact (iff_of_eq (true_and _)).symm
  | cons a as ih => exact (and_congr_right fun _ => ih).trans and_assoc.symm

theorem imageOf_append (as bs : List Action) : imageOf M (as ++ bs) = imageOf (imageOf M as) bs := List.foldl_append

theorem Paged.clear (h : Paged M) (p : Nat) : Paged (clearPage M p) := by
  intro a b hab
  unfold clearPage
  rw [hab]
  split
  · rfl
  · exact h a b hab

/-- Bytes that fit in a page of the image change nothing about what is mapped. -/
theorem Paged.overwrite_isSome (h : Paged M) {bs : List UInt8} (hin : (Action.copy va bs).Inside M)
    (hfit : va % pageSize + bs.length ≤ pageSize) (b : Nat) : (overwrite M va bs b).isSome = (M b).isSome := by
  unfold overwrite
  split
  · rename_i hb
    have hfit : va % 4096 + bs.length ≤ 4096 := hfit
    have hpage : va / pageSize = b / pageSize := by
      change va / 4096 = b / 4096
      omega
    have hnil : bs ≠ [] := by
      intro hnil
      rw [hnil, List.length_nil] at hb
      omega
    rw [← h va b hpage, (hin hnil).2]
    rfl
  · rfl

theorem image_maps (flags : Nat) (ps : List Nat) (va : Nat) : imageOf M (ps.map (Action.map · flags)) va =
      if ∃ p ∈ ps, va / pageSize = p / pageSize then some 0 else M va := by
  induction ps generalizing M with
  | nil => rw [if_neg (by simp)]; rfl
  | cons p ps ih =>
    have hcons : imageOf M ((p :: ps).map (Action.map · flags)) va =
        imageOf (clearPage M p) (ps.map (Action.map · flags)) va := rfl
    have hmem : (∃ q ∈ p :: ps, va / pageSize = q / pageSize) ↔
        va / pageSize = p / pageSize ∨ ∃ q ∈ ps, va / pageSize = q / pageSize := by
      simp only [List.mem_cons, exists_eq_or_imp]
    rw [hcons, ih]
    by_cases hps : ∃ q ∈ ps, va / pageSize = q / pageSize
    · rw [if_pos hps, if_pos (hmem.mpr (.inr hps))]
    · rw [if_neg hps, clearPage]
      exact if_congr (hmem.trans (or_iff_left hps)).symm rfl rfl

theorem allInside_maps : AllInside M (ps.map (Action.map · flags)) ↔ ∀ p ∈ ps, p < kernelVirtBase := by
  induction ps generalizing M with
  | nil => exact iff_of_true trivial (by simp)
  | cons p ps ih =>
    rw [List.forall_mem_cons]
    exact and_congr_right fun _ => ih

theorem Paged.maps (h : Paged M) (flags : Nat) (ps : List Nat) : Paged (imageOf M (ps.map (Action.map · flags))) := by
  induction ps generalizing M with
  | nil => exact h
  | cons p ps ih => exact ih (h.clear p)

theorem length_readAt (file : List UInt8) (pos count : Nat) :
    (readAt file pos count).length = min count (file.length - pos) := by
  rw [readAt, List.length_take, List.length_drop]

theorem chunkSize_fits (dst toRead : Nat) : dst % pageSize + chunkSize dst toRead ≤ pageSize := by
  have hlt : dst % pageSize < pageSize := Nat.mod_lt _ (by decide)
  unfold chunkSize
  omega

theorem chunk_fits (file : List UInt8) (dst src toRead : Nat) :
    dst % pageSize + (readAt file src (chunkSize dst toRead)).length ≤ pageSize := by
  have hfits := chunkSize_fits dst toRead
  have hlen := length_readAt file src (chunkSize dst toRead)
  omega

theorem copies_zero (file : List UInt8) (dst src : Nat) : copies file dst src 0 = [] := by
  unfold copies
  exact dif_pos rfl

theorem copies_pos (file : List UInt8) (dst src : Nat) (h : n ≠ 0) : copies file dst src n =
    .copy dst (readAt file src (chunkSize dst n)) ::
      copies file (u32 (dst + chunkSize dst n)) (src + chunkSize dst n) (n - chunkSize dst n) := by
  rw [copies, dif_neg h]

theorem copies_fit (file : List UInt8) (dst src n : Nat) : ∀ a ∈ copies file dst src n, a.Fits := by
  induction n using Nat.strongRecOn generalizing dst src with
  | ind n ih =>
    by_cases h : n = 0
    · rw [h, copies_zero]
      exact List.forall_mem_nil _
    · have hpos := chunkSize_pos dst h
      rw [copies_pos file dst src h, List.forall_mem_cons]
      exact ⟨chunk_fits file dst src n, ih _ (by omega) _ _⟩

theorem copies_cost (file : List UInt8) (dst src n : Nat) : totalCost (copies file dst src n) = 0 := by
  induction n using Nat.strongRecOn generalizing dst src with
  | ind n ih =>
    by_cases h : n = 0
    · rw [h, copies_zero]
      rfl
    · have hpos := chunkSize_pos dst h
      rw [copies_pos file dst src h]
      have hcons : ∀ a as, totalCost (a :: as) = a.cost + totalCost as := fun _ _ => List.sum_cons
      rw [hcons, ih _ (by omega)]
      rfl

/-- The copies of a segment stay inside if and only if each byte the file has for it goes to a mapped user page. -/
theorem allInside_copies (h : Paged M) (hdst : dst < 2 ^ 32) :
    AllInside M (copies file dst src n) ↔ ∀ o < n, src + o < file.length →
      u32 (dst + o) < kernelVirtBase ∧ (M (u32 (dst + o))).isSome := by
  induction n using Nat.strongRecOn generalizing M dst src with
  | ind n ih =>
    by_cases hn : n = 0
    · rw [hn, copies_zero]
      exact iff_of_true trivial fun o ho => absurd ho (Nat.not_lt_zero o)
    · have hpos := chunkSize_pos dst hn
      have hle := chunkSize_le dst n
      have hfits : dst % 4096 + chunkSize dst n ≤ 4096 := chunkSize_fits dst n
      have hlen := length_readAt file src (chunkSize dst n)
      rw [copies_pos file dst src hn]
      generalize chunkSize dst n = c at *
      have hnil : readAt file src c ≠ [] ↔ src < file.length := by
        rw [← List.length_pos_iff, hlen]
        omega
      -- the bytes of one round lie in the page of the first
      have hround : ∀ o < c, u32 (dst + o) = dst + o ∧ dst / pageSize = (dst + o) / pageSize := by
        intro o ho
        have hsum : dst + o < 2 ^ 32 := by omega
        refine ⟨u32_of_lt hsum, ?_⟩
        change dst / 4096 = (dst + o) / 4096
        omega
      have hbase : ∀ o < c, dst < kernelVirtBase → dst + o < kernelVirtBase := by
        intro o ho hlt
        change dst < 0xC0000000 at hlt
        change dst + o < 0xC0000000
        omega
      have hnext : ∀ o, u32 (u32 (dst + c) + o) = u32 (dst + (c + o)) := by
        intro o
        unfold u32
        omega
      have hu : u32 (dst + c) < 2 ^ 32 := Nat.mod_lt _ (by decide)
      have hfit : dst % pageSize + (readAt file src c).length ≤ pageSize := by
        change dst % 4096 + _ ≤ 4096
        omega
      have hpaged : (Action.copy dst (readAt file src c)).Inside M → Paged (overwrite M dst (readAt file src c)) :=
        fun hhead a b hab => by rw [h.overwrite_isSome hhead hfit a, h.overwrite_isSome hhead hfit b, h a b hab]
      constructor
      · intro ⟨hhead, htail⟩ o ho hsrc
        by_cases hoc : o < c
        · obtain ⟨hdb, hdm⟩ := hhead (hnil.mpr (by omega))
          rw [(hround o hoc).1]
          exact ⟨hbase o hoc hdb, h dst (dst + o) (hround o hoc).2 ▸ hdm⟩
        · have ho' := (ih (n - c) (by omega) (hpaged hhead) hu).mp htail (o - c) (by omega) (by omega)
          rw [hnext, h.overwrite_isSome hhead hfit] at ho'
          have heq : c + (o - c) = o := by omega
          rw [heq] at ho'
          exact ho'
      · intro hall
        have hhead : (Action.copy dst (readAt file src c)).Inside M := by
          intro hne
          have h0 := hall 0 (by omega) (hnil.mp hne)
          rw [(hround 0 hpos).1] at h0
          exact h0
        refine ⟨hhead, (ih (n - c) (by omega) (hpaged hhead) hu).mpr fun o ho hsrc => ?_⟩
        rw [hnext, h.overwrite_isSome hhead hfit]
        exact hall (c + o) (by omega) (by omega)

theorem getD_readAt {pos count i : Nat} (h : i < count) : (readAt file pos count).getD i 0 = file.getD (pos + i) 0 := by
  rw [readAt, List.getD_eq_getElem?_getD, List.getD_eq_getElem?_getD, List.getElem?_take_of_lt h, List.getElem?_drop]

/-- What the copies of a segment leave in the image. -/
theorem image_copies (hdst : dst + n < 2 ^ 32) (hsrc : src + n ≤ file.length) (va : Nat) :
    imageOf M (copies file dst src n) va =
      if dst ≤ va ∧ va < dst + n then some (file.getD (src + (va - dst)) 0) else M va := by
  induction n using Nat.strongRecOn generalizing M dst src with
  | ind n ih =>
    by_cases hn : n = 0
    · rw [hn, copies_zero, if_neg (by omega)]
      rfl
    · have hpos := chunkSize_pos dst hn
      have hle := chunkSize_le dst n
      have hlen := length_readAt file src (chunkSize dst n)
      rw [copies_pos file dst src hn]
      generalize chunkSize dst n = c at *
      have hnext : u32 (dst + c) = dst + c := u32_of_lt (by omega)
      have hcons : imageOf M (.copy dst (readAt file src c) :: copies file (u32 (dst + c)) (src + c) (n - c)) va =
          imageOf (overwrite M dst (readAt file src c)) (copies file (u32 (dst + c)) (src + c) (n - c)) va := rfl
      rw [hcons, hnext, ih (n - c) (by omega) (by omega) (by omega)]
      unfold overwrite
      by_cases hlater : dst + c ≤ va ∧ va < dst + c + (n - c)
      · have heq : src + c + (va - (dst + c)) = src + (va - dst) := by omega
        rw [if_pos hlater, if_pos (by omega), heq]
      · rw [if_neg hlater]
        by_cases hnow : dst ≤ va ∧ va < dst + (readAt file src c).length
        · rw [if_pos hnow, if_pos (by omega), getD_readAt (by omega)]
        · rw [if_neg hnow, if_neg (by omega)]

/-! ## 5. Segments -/

/-- What a file may ask for: a segment below the stack, with the bytes it wants in the file. -/
structure Phdr.Legal (file : List UInt8) (ph : Phdr) : Prop where
  below : ph.vaddr + ph.memsz ≤ userStackTop - userStackSize
  size : ph.filesz ≤ ph.memsz
  inFile : ph.offset + ph.filesz ≤ file.length

instance (file : List UInt8) (ph : Phdr) : Decidable (ph.Legal file) :=
  decidable_of_iff (ph.vaddr + ph.memsz ≤ userStackTop - userStackSize ∧ ph.filesz ≤ ph.memsz ∧
    ph.offset + ph.filesz ≤ file.length) ⟨fun h => ⟨h.1, h.2.1, h.2.2⟩, fun h => ⟨h.below, h.size, h.inFile⟩⟩

/-- An address of the segment. -/
def Phdr.Has (ph : Phdr) (va : Nat) : Prop := ph.vaddr ≤ va ∧ va < ph.vaddr + ph.memsz

/-- An address on one of its pages. -/
def Phdr.Covers (ph : Phdr) (va : Nat) : Prop := ph.start ≤ va ∧ va < ph.fin

instance (ph : Phdr) (va : Nat) : Decidable (ph.Has va) := inferInstanceAs (Decidable (_ ∧ _))

instance (ph : Phdr) (va : Nat) : Decidable (ph.Covers va) := inferInstanceAs (Decidable (_ ∧ _))

/-- What the segment has at an address: the byte of the file, and 0 after those. -/
def Phdr.byte (file : List UInt8) (ph : Phdr) (va : Nat) : UInt8 :=
  if va < ph.vaddr + ph.filesz then file.getD (ph.offset + (va - ph.vaddr)) 0 else 0

/-- The pages of `b` take nothing from `a` but zeros. -/
def Phdr.Spared (file : List UInt8) (a b : Phdr) : Prop := ∀ va, a.Has va → b.Covers va → a.byte file va = 0

variable {ph : Phdr} {phs : List Phdr}

theorem Phdr.Legal.bounds (h : ph.Legal file) :
    ph.start = ph.vaddr / 4096 * 4096 ∧ ph.fin = (ph.vaddr + ph.memsz + 4095) / 4096 * 4096 ∧
      ph.vaddr + ph.memsz ≤ 0xBF7FF000 := by
  have hbelow : ph.vaddr + ph.memsz ≤ 0xBF7FF000 := h.below
  have hwrap : u32 (ph.vaddr + ph.memsz) = ph.vaddr + ph.memsz := u32_of_lt (by omega)
  refine ⟨rfl, ?_, hbelow⟩
  rw [Phdr.fin, hwrap, alignUp, pageSize_eq, u32_of_lt (by omega)]
  rfl

theorem Phdr.Legal.pages_iff (h : ph.Legal file) : (∃ p ∈ ph.pages, va / pageSize = p / pageSize) ↔ ph.Covers va := by
  obtain ⟨hstart, hfin, hbelow⟩ := h.bounds
  have hsub : sub32 ph.fin ph.start = ph.fin - ph.start := sub32_of_le (by omega) (by omega)
  rw [Phdr.pages, hsub, pageSize_eq, Phdr.Covers]
  constructor
  · intro ⟨p, hp, hpage⟩
    obtain ⟨i, hi, rfl⟩ := List.mem_map.mp hp
    rw [List.mem_range] at hi
    rw [u32_of_lt (by omega)] at hpage
    omega
  · intro ⟨hlo, hhi⟩
    refine ⟨_, List.mem_map_of_mem (List.mem_range.mpr (?_ : va / 4096 - ph.start / 4096 < _)), ?_⟩
    · omega
    · rw [u32_of_lt (by omega)]
      omega

theorem Phdr.Legal.covers (h : ph.Legal file) (hva : ph.Has va) : ph.Covers va := by
  obtain ⟨hstart, hfin, hbelow⟩ := h.bounds
  have hlo := hva.1
  have hhi := hva.2
  refine ⟨?_, ?_⟩ <;> omega

theorem Phdr.Legal.pages_lt (h : ph.Legal file) : ∀ p ∈ ph.pages, p < kernelVirtBase := by
  intro p hp
  obtain ⟨_, hfin, hbelow⟩ := h.bounds
  have hcov : ph.Covers p := h.pages_iff.mp ⟨p, hp, rfl⟩
  have hlt := hcov.2
  change p < 0xC0000000
  omega

/-- **The image of a segment**: its bytes, 0 on the rest of its pages, and nothing new elsewhere. -/
theorem image_segment (h : ph.Legal file) (va : Nat) : imageOf M (ph.actions file) va =
    if ph.Has va then some (ph.byte file va) else if ph.Covers va then some 0 else M va := by
  obtain ⟨_, _, hbelow⟩ := h.bounds
  have hsize := h.size
  rw [Phdr.actions, imageOf_append, image_copies (by omega) h.inFile, image_maps, if_congr h.pages_iff rfl rfl]
  unfold Phdr.byte
  by_cases hfile : ph.vaddr ≤ va ∧ va < ph.vaddr + ph.filesz
  · have hhas : ph.Has va := ⟨hfile.1, by omega⟩
    rw [if_pos hfile, if_pos hhas, if_pos hfile.2]
  · rw [if_neg hfile]
    by_cases hhas : ph.Has va
    · rw [if_pos hhas, if_pos (h.covers hhas), if_neg fun hlt => hfile ⟨hhas.1, hlt⟩]
    · rw [if_neg hhas]

theorem Paged.segment (hM : Paged M) (h : ph.Legal file) : Paged (imageOf M (ph.actions file)) := by
  obtain ⟨hstart, hfin, _⟩ := h.bounds
  have hsome : ∀ va, (imageOf M (ph.actions file) va).isSome = if ph.Covers va then true else (M va).isSome := by
    intro va
    rw [image_segment h]
    by_cases hhas : ph.Has va
    · rw [if_pos hhas, if_pos (h.covers hhas)]
      rfl
    · rw [if_neg hhas]
      split <;> rfl
  intro a b hab
  have hab' : a / 4096 = b / 4096 := hab
  have hiff : ph.Covers a ↔ ph.Covers b := by
    unfold Phdr.Covers
    omega
  rw [hsome a, hsome b, hM a b hab, if_congr hiff rfl rfl]

theorem Paged.allInside_segment (hM : Paged M) (h : ph.Legal file) : AllInside M (ph.actions file) := by
  obtain ⟨_, hfin, hbelow⟩ := h.bounds
  have hsize := h.size
  refine allInside_append.mpr ⟨allInside_maps.mpr h.pages_lt, ?_⟩
  refine (allInside_copies (hM.maps _ _) (by omega)).mpr fun o ho _ => ?_
  have hva : u32 (ph.vaddr + o) = ph.vaddr + o := u32_of_lt (by omega)
  have hhas : ph.Has (ph.vaddr + o) := ⟨by omega, by omega⟩
  rw [hva, image_maps, if_pos (h.pages_iff.mpr (h.covers hhas))]
  refine ⟨?_, rfl⟩
  change ph.vaddr + o < 0xC0000000
  omega

theorem Paged.allInside_segments (hM : Paged M) (h : ∀ ph ∈ phs, ph.Legal file) :
    AllInside M (phs.flatMap (Phdr.actions file)) := by
  induction phs generalizing M with
  | nil => trivial
  | cons ph phs ih =>
    have hph := h ph (.head _)
    rw [List.flatMap_cons, allInside_append]
    exact ⟨hM.allInside_segment hph, ih (hM.segment hph) fun q hq => h q (.tail _ hq)⟩

/-- At an address of no segment there is 0 or what was there. -/
theorem image_elsewhere (h : ∀ ph ∈ phs, ph.Legal file) (hnot : ∀ ph ∈ phs, ¬ph.Has va) :
    imageOf M (phs.flatMap (Phdr.actions file)) va = if ∃ ph ∈ phs, ph.Covers va then some 0 else M va := by
  induction phs generalizing M with
  | nil => rw [if_neg (by simp)]; rfl
  | cons ph phs ih =>
    have hmem : (∃ q ∈ ph :: phs, q.Covers va) ↔ ph.Covers va ∨ ∃ q ∈ phs, q.Covers va := by
      simp only [List.mem_cons, exists_eq_or_imp]
    rw [List.flatMap_cons, imageOf_append, ih (fun q hq => h q (.tail _ hq))
      (fun q hq => hnot q (.tail _ hq)), image_segment (h ph (.head _)),
      if_neg (hnot ph (.head _))]
    by_cases hlater : ∃ q ∈ phs, q.Covers va
    · rw [if_pos hlater, if_pos (hmem.mpr (.inr hlater))]
    · rw [if_neg hlater]
      exact if_congr (hmem.trans (or_iff_left hlater)).symm rfl rfl

/-- **The segments of the image are right if and only if each is spared by the later ones.** -/
theorem image_faithful (h : ∀ ph ∈ phs, ph.Legal file) (hdisj : phs.Pairwise fun a b => ∀ va, a.Has va → ¬b.Has va) :
    (∀ ph ∈ phs, ∀ va, ph.Has va → imageOf M (phs.flatMap (Phdr.actions file)) va = some (ph.byte file va)) ↔
      phs.Pairwise (Phdr.Spared file) := by
  induction phs generalizing M with
  | nil => exact iff_of_true (by simp) .nil
  | cons ph phs ih =>
    obtain ⟨hph, hphs⟩ := List.forall_mem_cons.mp h
    obtain ⟨hfirst, hrest⟩ := List.pairwise_cons.mp hdisj
    rw [List.flatMap_cons, List.pairwise_cons, List.forall_mem_cons]
    simp only [imageOf_append]
    refine and_congr ?_ (ih hphs hrest)
    -- the first segment loses what lies on the pages of the others
    have hat : ∀ va, ph.Has va → imageOf (imageOf M (ph.actions file)) (phs.flatMap (Phdr.actions file)) va =
          if ∃ q ∈ phs, q.Covers va then some 0 else some (ph.byte file va) := by
      intro va hva
      rw [image_elsewhere hphs fun q hq => hfirst q hq va hva, image_segment hph, if_pos hva]
    constructor
    · intro hright q hq va hva hcov
      have heq := hright va hva
      rw [hat va hva, if_pos ⟨q, hq, hcov⟩] at heq
      exact (Option.some.inj heq).symm
    · intro hspared va hva
      rw [hat va hva]
      split
      · rename_i hlater
        obtain ⟨q, hq, hcov⟩ := hlater
        rw [hspared q hq va hva hcov]
      · rfl

/-! ## 6. The loader -/

section Loader

variable {kernelPgdir : Nat} {eh : Ehdr} {mm : MmStruct} {im : Image}

theorem fillSpace_ok (h : fillSpace kernelPgdir file eh mm s = (.ok im, s')) :
    im.mm.pgdir = mm.pgdir ∧ ∃ s1, (actions file (programHeaders file eh)).foldlM (Action.exec mm.pgdir) s = some s1 ∧
      (stackPages.map (Action.map · stackFlags)).foldlM (Action.exec mm.pgdir) s1 = some s' := by
  rw [← loadSegments_outcome]
  unfold fillSpace at h
  dsimp only at h
  generalize loadSegments mm.pgdir file (programHeaders file eh) s = r at h ⊢
  obtain ⟨_ | _, s1⟩ := r
  · cases h
  · rw [if_pos rfl] at h
    have hstack := mmapPages_outcome mm.pgdir stackFlags stackPages s1
    generalize mmapPages mm.pgdir stackFlags stackPages s1 = r at h hstack
    obtain ⟨_ | _, s2⟩ := r
    · cases h
    · cases h
      exact ⟨rfl, s1, rfl, hstack.symm⟩

theorem fillSpace_of_run (hload : (actions file (programHeaders file eh)).foldlM (Action.exec mm.pgdir) s = some s1)
    (hstack : (stackPages.map (Action.map · stackFlags)).foldlM (Action.exec mm.pgdir) s1 = some s') :
    ∃ im, fillSpace kernelPgdir file eh mm s = (.ok im, s') := by
  rw [← loadSegments_outcome] at hload
  rw [← mmapPages_outcome] at hstack
  unfold fillSpace
  dsimp only
  generalize loadSegments mm.pgdir file (programHeaders file eh) s = r at hload ⊢
  obtain ⟨_ | _, s2⟩ := r
  · cases hload
  · obtain rfl : s2 = s1 := Option.some.inj hload
    rw [if_pos rfl]
    dsimp only
    generalize mmapPages mm.pgdir stackFlags stackPages s2 = r at hstack ⊢
    obtain ⟨_ | _, s3⟩ := r
    · cases hstack
    · cases hstack
      exact ⟨_, rfl⟩

theorem kmallocOk_eq (n : Nat) (s : Vm) :
    ∃ slab, (s.slab = [] → slab = []) ∧ (kmallocOk n s).2 = { s with slab := slab } := by
  unfold kmallocOk
  split
  · exact ⟨s.slab, id, rfl⟩
  · rw [slabAlloc_granted]
    exact ⟨s.slab.tail, fun h => by rw [h]; rfl, rfl⟩

theorem execCreate_ok (h : execCreate kernelPgdir file s = (.ok (eh, mm), s')) : readHeader file = .ok eh ∧
      ∃ slab, (s.slab = [] → slab = []) ∧ mmCreate kernelPgdir { s with slab := slab } = (some mm, s') := by
  unfold execCreate at h
  cases hhead : readHeader file with
  | error e =>
    rw [hhead] at h
    cases h
  | ok eh' =>
    rw [hhead] at h
    dsimp only at h
    obtain ⟨slab, hgrant, hslab⟩ := kmallocOk_eq (eh'.phnum * phdrSize) s
    split at h
    · cases h
    · split at h
      · cases h
      · split at h
        · cases h
        · rename_i mm' s1 hcreate
          cases h
          rw [hslab] at hcreate
          exact ⟨rfl, slab, hgrant, hcreate⟩

/-- A new address space is empty. -/
theorem Holds.created (h : mmCreate kernelPgdir s = (some mm, s')) :
    mm.pgdir = mm.dir * pageSize ∧ Holds (pool.free s) mm.dir (fun _ => none) s' := by
  obtain ⟨x, _, hx, _, _, htake, hnone⟩ := mmCreate_spec h
  have hdir : mm.dir = x := dir_of_pgdir hx
  have hspace : Space s' x {x} := .empty hnone
  rw [hdir]
  refine ⟨hx, hspace.inj, fun hk => ?_, fun hk => ?_, fun f hf => ((htake.free_iff f).mp hf).1, fun va hva => ?_⟩
  · exact htake.disjoint _ (hspace.owned hk)
  · exact htake.was_free _ (hspace.owned hk)
  · have hslot : frameAt s' x (pageSlot va) = none := by
      rw [pageSlot, frameAt, if_pos ⟨pdIndex_lt hva, ptIndex_lt va⟩, hnone _ (pdIndex_lt hva)]
      rfl
    rw [userByte, hslot]
    rfl

theorem mem_stackPages {p : Nat} (h : p ∈ stackPages) : 0xBF7FF000 ≤ p ∧ p < 0xBFFFF000 := by
  unfold stackPages at h
  obtain ⟨i, hi, rfl⟩ := List.mem_map.mp h
  have hi : i < 2048 := List.mem_range.mp hi
  change 0xBF7FF000 ≤ 0xBF7FF000 + i * 4096 ∧ 0xBF7FF000 + i * 4096 < 0xBFFFF000
  omega

theorem stackPages_cover (hlo : userStackTop - userStackSize ≤ va) (hhi : va < userStackTop) :
    ∃ p ∈ stackPages, va / pageSize = p / pageSize := by
  have hlo : 0xBF7FF000 ≤ va := hlo
  have hhi : va < 0xBFFFF000 := hhi
  have hi : (va - 0xBF7FF000) / 4096 < userStackSize / pageSize := by
    change (va - 0xBF7FF000) / 4096 < 2048
    omega
  unfold stackPages
  refine ⟨_, List.mem_map_of_mem (List.mem_range.mpr hi), ?_⟩
  change va / 4096 = (0xBF7FF000 + (va - 0xBF7FF000) / 4096 * 4096) / 4096
  omega

theorem length_stackPages : stackPages.length = 2048 := by
  unfold stackPages
  rw [List.length_map, List.length_range]
  rfl

theorem stackPages_ne_nil : stackPages ≠ [] := by
  intro h
  have hlen := length_stackPages
  rw [h] at hlen
  exact absurd hlen (by decide)

theorem stackPages_below {p : Nat} (h : p ∈ stackPages) : p < kernelVirtBase := by
  have hp := (mem_stackPages h).2
  change p < 0xC0000000
  omega

/-- While the stack is mapped there is still a frame. -/
theorem free_of_stack {pd : Nat} (h : (stackPages.map (Action.map · stackFlags)).foldlM (Action.exec pd) s = some s') :
    pool.free s ≠ ∅ := by
  obtain ⟨p, ps, hps⟩ := List.exists_cons_of_ne_nil stackPages_ne_nil
  rw [hps] at h
  obtain ⟨s2, hexec, _⟩ := Option.bind_eq_some_iff.mp h
  exact free_of_map hexec

/-- **What is below the stack after the loader** is the image of the file. -/
theorem loaded_bytes (h : Holds A x M s) (h0 : 0 ∉ A) (hin : AllInside M as) (hfit : ∀ a ∈ as, a.Fits)
    (hload : as.foldlM (Action.exec (x * pageSize)) s = some s1)
    (hstack : (stackPages.map (Action.map · stackFlags)).foldlM (Action.exec (x * pageSize)) s1 = some s')
    (hva : va < userStackTop - userStackSize) : userByte s' x va = imageOf M as va := by
  have hva' : va < 0xBF7FF000 := hva
  rcases h.run h0 hin hfit hload with h1 | hempty
  · refine h1.pages h0 (fun p hp => stackPages_below hp) ?_ (fun p hp => ?_) hstack
    · change va < 0xC0000000
      omega
    · have hp := (mem_stackPages hp).1
      change va / 4096 ≠ p / 4096
      omega
  · exact absurd hempty (free_of_stack hstack)

theorem vmFlags_user (ph : Phdr) : ph.vmFlags &&& VM_USER ≠ 0 := by
  unfold Phdr.vmFlags
  split <;> split <;> decide

theorem segment_fits (file : List UInt8) (ph : Phdr) : ∀ a ∈ ph.actions file, a.Fits := by
  intro a ha
  rcases List.mem_append.mp ha with hmap | hcopy
  · obtain ⟨p, hp, rfl⟩ := List.mem_map.mp hmap
    obtain ⟨i, _, rfl⟩ := List.mem_map.mp hp
    exact ⟨Nat.mod_lt _ (by decide), vmFlags_user ph⟩
  · exact copies_fit file _ _ _ a hcopy

theorem segments_fit (file : List UInt8) (phs : List Phdr) : ∀ a ∈ phs.flatMap (Phdr.actions file), a.Fits := by
  intro a ha
  obtain ⟨ph, _, ha⟩ := List.mem_flatMap.mp ha
  exact segment_fits file ph a ha

/-- The segments of a file. -/
def segments (file : List UInt8) : List Phdr :=
  match readHeader file with
  | .ok eh => (programHeaders file eh).filter Phdr.isLoaded
  | .error _ => []

theorem execLoad_ok (h : execLoad kernelPgdir file s = (.ok im, s')) :
    ∃ eh mm s1, execCreate kernelPgdir file s = (.ok (eh, mm), s1) ∧
      fillSpace kernelPgdir file eh mm s1 = (.ok im, s') := by
  unfold execLoad at h
  split at h
  · cases h
  · rename_i eh mm s1 hcreate
    exact ⟨eh, mm, s1, hcreate, h⟩

/-- A load that succeeds: a new address space, the segments, the stack. -/
theorem execLoad_parts (h : execLoad kernelPgdir file s = (.ok im, s')) : ∃ mm slab s1 s2,
    mmCreate kernelPgdir { s with slab := slab } = (some mm, s1) ∧ im.mm.pgdir = mm.pgdir ∧
    ((segments file).flatMap (Phdr.actions file)).foldlM (Action.exec mm.pgdir) s1 = some s2 ∧
    (stackPages.map (Action.map · stackFlags)).foldlM (Action.exec mm.pgdir) s2 = some s' := by
  obtain ⟨eh, mm, s1, hcreate, hfill⟩ := execLoad_ok h
  obtain ⟨hhead, slab, _, hmm⟩ := execCreate_ok hcreate
  obtain ⟨hpgdir, s2, hrun, hstack⟩ := fillSpace_ok hfill
  refine ⟨mm, slab, s1, s2, hmm, hpgdir, ?_, hstack⟩
  rw [segments, hhead]
  exact hrun

/-- The bytes of a legal file after a successful load. -/
theorem execLoad_bytes (h0 : 0 ∉ pool.free s) (hlegal : ∀ ph ∈ segments file, ph.Legal file)
    (hload : execLoad kernelPgdir file s = (.ok im, s')) (hva : va < userStackTop - userStackSize) :
    userByte s' im.mm.dir va = imageOf (fun _ => none) ((segments file).flatMap (Phdr.actions file)) va := by
  obtain ⟨mm, slab, s1, s2, hmm, hpgdir, hrun, hstack⟩ := execLoad_parts hload
  obtain ⟨hdir, hholds⟩ := Holds.created hmm
  have hmmdir : im.mm.dir = mm.dir := congrArg (· / pageSize) hpgdir
  rw [hdir] at hrun hstack
  rw [hmmdir]
  exact loaded_bytes hholds h0 (Paged.allInside_segments (fun _ _ _ => rfl) hlegal)
    (segments_fit file _) hrun hstack hva

/-- **The segments of a loaded file are all in place if and only if no byte of one, unless it is 0, lies on a page of
    a later one.** -/
theorem elf_faithful_iff (h0 : 0 ∉ pool.free s) (hlegal : ∀ ph ∈ segments file, ph.Legal file)
    (hdisj : (segments file).Pairwise fun a b => ∀ va, a.Has va → ¬b.Has va)
    (hload : execLoad kernelPgdir file s = (.ok im, s')) :
    (∀ ph ∈ segments file, ∀ va, ph.Has va → userByte s' im.mm.dir va = some (ph.byte file va)) ↔
      (segments file).Pairwise (Phdr.Spared file) := by
  refine Iff.trans ?_ (image_faithful (M := fun _ => none) hlegal hdisj)
  refine forall₂_congr fun ph hph => forall₂_congr fun va hva => ?_
  rw [execLoad_bytes h0 hlegal hload (Nat.lt_of_lt_of_le hva.2 (hlegal ph hph).below)]

theorem totalCost_append (as bs : List Action) : totalCost (as ++ bs) = totalCost as + totalCost bs := by
  rw [totalCost, List.map_append, List.sum_append]
  rfl

theorem totalCost_maps (flags : Nat) (ps : List Nat) : totalCost (ps.map (Action.map · flags)) = 2 * ps.length := by
  induction ps with
  | nil => rfl
  | cons p ps ih =>
    have hcons : totalCost ((p :: ps).map (Action.map · flags)) = 2 + totalCost (ps.map (Action.map · flags)) :=
      List.sum_cons
    rw [hcons, ih, List.length_cons]
    omega

/-- The frames a file may take. -/
def segmentCost (phs : List Phdr) : Nat := (phs.map fun ph => 2 * ph.pages.length).sum

theorem totalCost_segments (file : List UInt8) (phs : List Phdr) :
    totalCost (phs.flatMap (Phdr.actions file)) = segmentCost phs := by
  induction phs with
  | nil => rfl
  | cons ph phs ih =>
    rw [List.flatMap_cons, totalCost_append, ih, Phdr.actions, totalCost_append, copies_cost, totalCost_maps,
      segmentCost, segmentCost, List.map_cons, List.sum_cons, Nat.add_zero]

/-- The pieces of a load put together. -/
theorem execLoad_of_run {s2 : Vm} (hslab : s.slab = []) (hhead : readHeader file = .ok eh) (hnum : eh.phnum ≠ 0)
    (hlen : (readAt file eh.phoff (eh.phnum * phdrSize)).length = eh.phnum * phdrSize)
    (hcreate : mmCreate kernelPgdir s = (some mm, s1))
    (hrun : ((segments file).flatMap (Phdr.actions file)).foldlM (Action.exec mm.pgdir) s1 = some s2)
    (hstack : (stackPages.map (Action.map · stackFlags)).foldlM (Action.exec mm.pgdir) s2 = some s') :
    ∃ im, execLoad kernelPgdir file s = (.ok im, s') := by
  have hsegs : actions file (programHeaders file eh) = (segments file).flatMap (Phdr.actions file) := by
    rw [segments, hhead]
    rfl
  rw [← hsegs] at hrun
  obtain ⟨im, hfill⟩ : ∃ im, fillSpace kernelPgdir file eh mm s1 = (.ok im, s') := fillSpace_of_run hrun hstack
  have hkmalloc : kmallocOk (eh.phnum * phdrSize) s = (true, s) := by
    have hne : eh.phnum * phdrSize ≠ 0 := by
      change eh.phnum * 32 ≠ 0
      omega
    rw [kmallocOk, if_neg hne, Vm.slabAlloc, hslab]
  refine ⟨im, ?_⟩
  rw [execLoad, execCreate, hhead]
  dsimp only
  rw [hkmalloc]
  dsimp only
  rw [Bool.not_true, if_neg (by decide), if_neg (not_not_intro hlen), hcreate]
  exact hfill

theorem stack_fits : ∀ a ∈ stackPages.map (Action.map · stackFlags), a.Fits := by
  intro a ha
  obtain ⟨p, hp, rfl⟩ := List.mem_map.mp ha
  exact ⟨(stackPages_below hp).trans (by decide), by decide⟩

theorem stack_inside (M : Nat → Option UInt8) : AllInside M (stackPages.map (Action.map · stackFlags)) :=
  allInside_maps.mpr fun _ hp => stackPages_below hp

theorem stack_cost : totalCost (stackPages.map (Action.map · stackFlags)) = 4096 := by
  rw [totalCost_maps, length_stackPages]

/-- **A file whose actions stay inside is loaded** when there is memory for it. -/
theorem execLoad_goes (kernelPgdir : Nat) (h0 : 0 ∉ pool.free s) (hslab : s.slab = [])
    (hhead : readHeader file = .ok eh)
    (hnum : eh.phnum ≠ 0) (hlen : (readAt file eh.phoff (eh.phnum * phdrSize)).length = eh.phnum * phdrSize)
    (hin : AllInside (fun _ => none) ((segments file).flatMap (Phdr.actions file)))
    (hroom : segmentCost (segments file) + 4097 ≤ frames s) : ∃ im s', execLoad kernelPgdir file s = (.ok im, s') := by
  obtain ⟨mm, s1, hcreate, hleft⟩ := mmCreate_goes kernelPgdir h0 hslab (by omega)
  obtain ⟨hdir, hholds⟩ := Holds.created hcreate
  have hcost := totalCost_segments file (segments file)
  have hstackCost := stack_cost
  obtain ⟨s2, hrun, hholds2, hleft2⟩ := hholds.goes h0 hin (segments_fit file _) (by omega)
  obtain ⟨s3, hstack, _⟩ := hholds2.goes h0 (stack_inside _) stack_fits (by omega)
  rw [← hdir] at hrun hstack
  obtain ⟨im, hload⟩ := execLoad_of_run hslab hhead hnum hlen hcreate hrun hstack
  exact ⟨im, s3, hload⟩

end Loader

/-! ## 7. Two segments on one page -/

/-- A machine with 64 MiB, free from 3 MiB on, and nothing in memory. -/
def sixtyFourMib : Vm := ⟨⟨fun w => if 24 ≤ w ∧ w < 512 then BitVec.allOnes 32 else 0, 15616⟩, fun _ => 0, []⟩

theorem mem_sixtyFourMib : f ∈ pool.free sixtyFourMib ↔ 768 ≤ f ∧ f < 16384 := by
  have hbits : bitmapBits = 262144 := rfl
  have htst : tst sixtyFourMib.pages.bitmap f =
      (if 24 ≤ f / 32 ∧ f / 32 < 512 then BitVec.allOnes 32 else 0).getLsbD (f % 32) := rfl
  rw [mem_free, mem_freePages, htst]
  by_cases hw : 24 ≤ f / 32 ∧ f / 32 < 512
  · rw [if_pos hw, BitVec.getLsbD_allOnes, decide_eq_true (Nat.mod_lt f (by decide))]
    exact ⟨fun _ => by omega, fun _ => ⟨by omega, rfl⟩⟩
  · rw [if_neg hw, BitVec.ofNat_eq_ofNat, BitVec.getLsbD_zero]
    exact ⟨fun h => absurd h.2 (by decide), fun h => absurd h (by omega)⟩

theorem frames_of_interval {k : Nat} (h : ∀ f, f ∈ pool.free s ↔ n ≤ f ∧ f < k) : frames s = k - n := by
  have heq : freePages s.pages = Finset.Ico n k := by
    refine Finset.ext fun f => ?_
    rw [← mem_free, h, Finset.mem_Ico]
  rw [frames, heq, Nat.card_Ico]

theorem frames_sixtyFourMib : frames sixtyFourMib = 15616 := by
  rw [frames_of_interval fun _ => mem_sixtyFourMib]

theorem zero_sixtyFourMib : 0 ∉ pool.free sixtyFourMib := fun h => absurd (mem_sixtyFourMib.mp h).1 (by decide)

/-- An executable with the given program headers, and data after them. -/
def elfFile (phs : List Phdr) (data : List UInt8) : List UInt8 :=
  wordBytes ([ELF_MAGIC, 1, 0, 0, ET_EXEC + 2 ^ 16 * EM_386, 1, 0x08048000, ehdrSize, 0, 0,
    ehdrSize + 2 ^ 16 * phdrSize,
    phs.length, 0] ++
    phs.flatMap fun ph => [ph.type, ph.offset, ph.vaddr, ph.vaddr, ph.filesz, ph.memsz, ph.flags, pageSize]) ++ data

/-- Text and data of four bytes each, the data `gap` bytes after the text. -/
def textAndData (gap : Nat) : List Phdr :=
  [⟨PT_LOAD, 116, 0x08048000, 4, 4, PF_X⟩, ⟨PT_LOAD, 120, 0x08048000 + gap, 4, 4, PF_W⟩]

def smallFile (gap : Nat) : List UInt8 := elfFile (textAndData gap) [1, 2, 3, 4, 5, 6, 7, 8]

def smallEhdr : Ehdr := ⟨ELF_MAGIC, 1, ET_EXEC, EM_386, 0x08048000, ehdrSize, phdrSize, 2⟩

/-- The file is legal, whether the data lies on the page of the text or on the next one. -/
theorem smallFile_legal (hgap : gap = 0x10 ∨ gap = 0x1000) :
    segments (smallFile gap) = textAndData gap ∧ (∀ ph ∈ segments (smallFile gap), ph.Legal (smallFile gap)) ∧
      (segments (smallFile gap)).Pairwise fun a b => ∀ va, a.Has va → ¬b.Has va := by
  have hsegs : segments (smallFile gap) = textAndData gap := by
    rcases hgap with rfl | rfl <;> decide +kernel
  have hlegal : ∀ ph ∈ textAndData gap, ph.Legal (smallFile gap) := by
    rcases hgap with rfl | rfl <;> decide +kernel
  have horder : (textAndData gap).Pairwise fun a b => a.vaddr + a.memsz ≤ b.vaddr := by
    rcases hgap with rfl | rfl <;> decide +kernel
  rw [hsegs]
  refine ⟨rfl, hlegal, horder.imp fun hle va ha hb => ?_⟩
  have hlt := ha.2
  have hle' := hb.1
  omega

theorem smallFile_goes (kernelPgdir : Nat) (hgap : gap = 0x10 ∨ gap = 0x1000) (h0 : 0 ∉ pool.free s)
    (hslab : s.slab = []) (hroom : 4101 ≤ frames s) :
    ∃ im s', execLoad kernelPgdir (smallFile gap) s = (.ok im, s') := by
  obtain ⟨hsegs, hlegal, _⟩ := smallFile_legal hgap
  have hhead : readHeader (smallFile gap) = .ok smallEhdr := by
    rcases hgap with rfl | rfl <;> decide +kernel
  have hlen : (readAt (smallFile gap) smallEhdr.phoff (smallEhdr.phnum * phdrSize)).length =
      smallEhdr.phnum * phdrSize := by
    rcases hgap with rfl | rfl <;> decide +kernel
  have hcost : segmentCost (textAndData gap) = 4 := by
    rcases hgap with rfl | rfl <;> decide +kernel
  refine execLoad_goes _ h0 hslab hhead (by decide) hlen ?_ ?_
  · rw [hsegs] at hlegal ⊢
    exact Paged.allInside_segments (fun _ _ _ => rfl) hlegal
  · rw [hsegs, hcost]
    exact hroom

theorem elf_faithful_iff_apart : ∃ im s', execLoad (1 * pageSize) (smallFile 0x1000) sixtyFourMib = (.ok im, s') ∧
    (segments (smallFile 0x1000)).Pairwise (Phdr.Spared (smallFile 0x1000)) ∧
    ∀ ph ∈ segments (smallFile 0x1000), ∀ va, ph.Has va →
      userByte s' im.mm.dir va = some (ph.byte (smallFile 0x1000) va) := by
  obtain ⟨hsegs, hlegal, hdisj⟩ := smallFile_legal (.inr (Eq.refl 0x1000))
  obtain ⟨im, s', hload⟩ := smallFile_goes (1 * pageSize) (.inr rfl) zero_sixtyFourMib rfl
    (by rw [frames_sixtyFourMib]; decide)
  have hspared : (segments (smallFile 0x1000)).Pairwise (Phdr.Spared (smallFile 0x1000)) := by
    have horder : (textAndData 0x1000).Pairwise fun a b => a.vaddr + a.memsz ≤ b.start := by decide +kernel
    rw [hsegs]
    refine horder.imp fun hle va ha hb => ?_
    have hlt := ha.2
    have hle' := hb.1
    omega
  exact ⟨im, s', hload, hspared, (elf_faithful_iff zero_sixtyFourMib hlegal hdisj hload).mpr hspared⟩

/-- **Data 16 bytes after the text**: mapping the page of the data puts a zero page in the place of the text, whose
    first byte is 1 in the file. -/
theorem shared_page_cleared : ∃ im s', execLoad (1 * pageSize) (smallFile 0x10) sixtyFourMib = (.ok im, s') ∧
    segments (smallFile 0x10) = textAndData 0x10 ∧
    (∀ ph ∈ segments (smallFile 0x10), ph.Legal (smallFile 0x10)) ∧
    ((segments (smallFile 0x10)).Pairwise fun a b => ∀ va, a.Has va → ¬b.Has va) ∧
    (⟨PT_LOAD, 116, 0x08048000, 4, 4, PF_X⟩ : Phdr).byte (smallFile 0x10) 0x08048000 = 1 ∧
    userByte s' im.mm.dir 0x08048000 = some 0 := by
  obtain ⟨hsegs, hlegal, hdisj⟩ := smallFile_legal (.inl (Eq.refl 0x10))
  obtain ⟨im, s', hload⟩ := smallFile_goes (1 * pageSize) (.inl rfl) zero_sixtyFourMib rfl
    (by rw [frames_sixtyFourMib]; decide)
  refine ⟨im, s', hload, hsegs, hlegal, hdisj, by decide +kernel, ?_⟩
  rw [execLoad_bytes zero_sixtyFourMib hlegal hload (by decide), hsegs]
  have hdata : (⟨PT_LOAD, 120, 0x08048010, 4, 4, PF_W⟩ : Phdr) ∈ textAndData 0x10 :=
    List.mem_cons_of_mem _ (.head _)
  rw [hsegs] at hlegal
  have hsplit : (textAndData 0x10).flatMap (Phdr.actions (smallFile 0x10)) =
      Phdr.actions (smallFile 0x10) ⟨PT_LOAD, 116, 0x08048000, 4, 4, PF_X⟩ ++
        Phdr.actions (smallFile 0x10) ⟨PT_LOAD, 120, 0x08048010, 4, 4, PF_W⟩ := by
    rw [textAndData, List.flatMap_cons, List.flatMap_singleton]
  rw [hsplit, imageOf_append, image_segment (hlegal _ hdata), if_neg (by decide), if_pos (by decide)]

end OreUnix.Exec
