/-
  Subject: OWNERSHIP OF FRAMES: what a program that allocates, writes and frees frames leaves alone.

  A state has a set of free frames and a content for every frame. A program starts with some frames of its own; it
  takes frames that are free, writes frames it owns, and gives frames back.

  * `Takes W N` -- takes the frames `N` and writes only those and the frames in `W`;
  * `Gives W G` -- frees the frames `G` and writes only those in `W`;
  * `Confined F F'` -- starts with the frames `F` and ends with `F'`, whatever it did in between;
  * `Confined.frame` -- frames that are neither owned nor free keep their content and stay so.
-/
import Mathlib.Data.Set.Basic

namespace FramePool

/-- The free frames of a state and the content of each frame. -/
structure Pool (σ ι β : Type) where
  free : σ → Set ι
  cell : σ → ι → β

variable {σ ι β : Type} {P : Pool σ ι β} {s s' s'' : σ}

/-! ## 1. Taking and giving -/

structure Takes (P : Pool σ ι β) (W N : Set ι) (s s' : σ) : Prop where
  was_free : ∀ f ∈ N, f ∈ P.free s
  free_iff : ∀ f, f ∈ P.free s' ↔ f ∈ P.free s ∧ f ∉ N
  same : ∀ f, f ∉ W → f ∉ N → P.cell s' f = P.cell s f

structure Gives (P : Pool σ ι β) (W G : Set ι) (s s' : σ) : Prop where
  free_iff : ∀ f, f ∈ P.free s' ↔ f ∈ P.free s ∨ f ∈ G
  same : ∀ f, f ∉ W → P.cell s' f = P.cell s f

variable {W N N' G G' F F' F'' : Set ι}

theorem Takes.used {f : ι} (h : Takes P W N s s') (hf : f ∉ P.free s) : f ∉ P.free s' :=
  fun hm => hf ((h.free_iff f).mp hm).1

theorem Takes.stays {f : ι} (h : Takes P ∅ N s s') (hf : f ∉ N) : P.cell s' f = P.cell s f :=
  h.same f (Set.notMem_empty f) hf

theorem Takes.keeps {f : ι} (h : Takes P ∅ N s s') (hf : f ∉ P.free s) : P.cell s' f = P.cell s f :=
  h.stays fun hN => hf (h.was_free f hN)

theorem Takes.refl (P : Pool σ ι β) (W : Set ι) (s : σ) : Takes P W ∅ s s :=
  ⟨fun _ h => absurd h (Set.notMem_empty _), fun _ => by simp, fun _ _ _ => rfl⟩

/-- Frames taken first may be written later. -/
theorem Takes.trans (h : Takes P W N s s') (h' : Takes P (W ∪ N) N' s' s'') : Takes P W (N ∪ N') s s'' := by
  refine ⟨fun f hf => ?_, fun f => ?_, fun f hW hN => ?_⟩
  · rcases hf with hf | hf
    · exact h.was_free f hf
    · exact ((h.free_iff f).mp (h'.was_free f hf)).1
  · rw [h'.free_iff, h.free_iff, Set.mem_union, not_or, and_assoc]
  · rw [Set.mem_union, not_or] at hN
    have hWN : f ∉ W ∪ N := fun hf => hf.elim hW hN.1
    exact (h'.same f hWN hN.2).trans (h.same f hW hN.1)

theorem Takes.mono {W' : Set ι} (h : Takes P W N s s') (hW : W ⊆ W') : Takes P W' N s s' :=
  ⟨h.was_free, h.free_iff, fun f hf => h.same f fun hf' => hf (hW hf')⟩

theorem Takes.write (hfree : P.free s' = P.free s) (h : ∀ f, f ∉ W → P.cell s' f = P.cell s f) :
    Takes P W ∅ s s' := by
  refine ⟨fun _ hf => absurd hf (Set.notMem_empty _), fun f => ?_, fun f hf _ => h f hf⟩
  rw [hfree]
  simp

theorem Takes.disjoint (h : Takes P W N s s') : ∀ f ∈ N, f ∉ P.free s' := fun f hf hf' => ((h.free_iff f).mp hf').2 hf

theorem Gives.refl (P : Pool σ ι β) (W : Set ι) (s : σ) : Gives P W ∅ s s := ⟨fun _ => by simp, fun _ _ => rfl⟩

theorem Gives.trans (h : Gives P W G s s') (h' : Gives P W G' s' s'') : Gives P W (G ∪ G') s s'' := by
  refine ⟨fun f => ?_, fun f hf => (h'.same f hf).trans (h.same f hf)⟩
  rw [h'.free_iff, h.free_iff, Set.mem_union, or_assoc]

/-! ## 2. Whole programs -/

structure Confined (P : Pool σ ι β) (F : Set ι) (s s' : σ) (F' : Set ι) : Prop where
  within : ∀ f, f ∈ F' ∨ f ∈ P.free s' → f ∈ F ∨ f ∈ P.free s
  apart : ∀ f ∈ F', f ∉ P.free s'
  same : ∀ f, f ∉ F → f ∉ P.free s → P.cell s' f = P.cell s f

theorem Confined.refl (h : ∀ f ∈ F, f ∉ P.free s) : Confined P F s s F := ⟨fun _ hf => hf, h, fun _ _ _ => rfl⟩

theorem Confined.trans (h : Confined P F s s' F') (h' : Confined P F' s' s'' F'') : Confined P F s s'' F'' := by
  refine ⟨fun f hf => h.within f (h'.within f hf), h'.apart, fun f hF hfree => ?_⟩
  have hout : ¬ (f ∈ F' ∨ f ∈ P.free s') := fun hf => (h.within f hf).elim hF hfree
  rw [not_or] at hout
  exact (h'.same f hout.1 hout.2).trans (h.same f hF hfree)

theorem Takes.confined (h : Takes P W N s s') (hW : W ⊆ F) (hF : ∀ f ∈ F, f ∉ P.free s) :
    Confined P F s s' (F ∪ N) := by
  refine ⟨fun f hf => ?_, fun f hf hfree => ?_, fun f hf hfree => ?_⟩
  · rcases hf with (hf | hf) | hf
    · exact .inl hf
    · exact .inr (h.was_free f hf)
    · exact .inr ((h.free_iff f).mp hf).1
  · obtain ⟨hfree, hN⟩ := (h.free_iff f).mp hfree
    exact hf.elim (fun hf => hF f hf hfree) hN
  · exact h.same f (fun hf' => hf (hW hf')) fun hf' => hfree (h.was_free f hf')

theorem Gives.confined (h : Gives P W G s s') (hW : W ⊆ F) (hG : G ⊆ F)
    (hF : ∀ f ∈ F, f ∉ P.free s) : Confined P F s s' (F \ G) := by
  refine ⟨fun f hf => ?_, fun f hf hfree => ?_, fun f hf _ => h.same f fun hf' => hf (hW hf')⟩
  · rcases hf with hf | hf
    · exact .inl hf.1
    · exact ((h.free_iff f).mp hf).symm.imp (fun hf => hG hf) id
  · exact ((h.free_iff f).mp hfree).elim (hF f hf.1) hf.2

/-- **The frame rule**: what is neither owned nor free is left alone, and stays neither. -/
theorem Confined.frame {H : Set ι} (h : Confined P F s s' F') (hF : ∀ f ∈ H, f ∉ F)
    (hfree : ∀ f ∈ H, f ∉ P.free s) :
    (∀ f ∈ H, f ∉ F') ∧ (∀ f ∈ H, f ∉ P.free s') ∧ ∀ f ∈ H, P.cell s' f = P.cell s f :=
  ⟨fun f hf hf' => (h.within f (.inl hf')).elim (hF f hf) (hfree f hf),
    fun f hf hf' => (h.within f (.inr hf')).elim (hF f hf) (hfree f hf),
    fun f hf => h.same f (hF f hf) (hfree f hf)⟩

end FramePool
