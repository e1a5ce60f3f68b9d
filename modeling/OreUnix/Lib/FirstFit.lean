/-
  Subject: FIRST FIT: taking the lowest elements of a finite set, one after the other.

  * `TakesLowest F F'` -- `F'` is `F` without some elements, all of them below those that are left; a preorder, so a
    sequence of such steps is one;
  * `above n F` -- what is left when `n` elements have been taken (`TakesLowest.eq_above`).
-/
import Mathlib.Data.Finset.Card
import Mathlib.Order.Basic

namespace FirstFit

variable {α : Type} [LinearOrder α] {F F' F'' : Finset α} {n : Nat}

structure TakesLowest (F F' : Finset α) : Prop where
  subset : F' ⊆ F
  lower : ∀ f ∈ F, f ∉ F' → ∀ g ∈ F', f < g

theorem TakesLowest.refl (F : Finset α) : TakesLowest F F := ⟨Finset.Subset.refl F, fun _ hf hn => absurd hf hn⟩

theorem TakesLowest.trans (h : TakesLowest F F') (h' : TakesLowest F' F'') : TakesLowest F F'' := by
  refine ⟨h'.subset.trans h.subset, fun f hf hn g hg => ?_⟩
  by_cases hf' : f ∈ F'
  · exact h'.lower f hf' hn g hg
  · exact h.lower f hf hf' g (h'.subset hg)

/-- Taking the least element. -/
theorem TakesLowest.erase {a : α} (h : ∀ g ∈ F, a ≤ g) : TakesLowest F (F.erase a) := by
  refine ⟨Finset.erase_subset a F, fun f hf hn g hg => ?_⟩
  have hfa : f = a := by
    by_contra hne
    exact hn (Finset.mem_erase.mpr ⟨hne, hf⟩)
  obtain ⟨hga, hgF⟩ := Finset.mem_erase.mp hg
  rw [hfa]
  exact lt_of_le_of_ne (h g hgF) (Ne.symm hga)

/-- The elements with at least `n` others below them. -/
def above (n : Nat) (F : Finset α) : Finset α := F.filter fun g => n ≤ (F.filter (· < g)).card

/-- **After `n` elements** the ones left are determined. -/
theorem TakesLowest.eq_above (h : TakesLowest F F') (hcard : F'.card + n = F.card) : F' = above n F := by
  have hgone : (F \ F').card = n := by
    rw [Finset.card_sdiff_of_subset h.subset]
    omega
  ext g
  rw [above, Finset.mem_filter]
  constructor
  · intro hg
    refine ⟨h.subset hg, ?_⟩
    rw [← hgone]
    refine Finset.card_le_card fun f hf => ?_
    obtain ⟨hfF, hf'⟩ := Finset.mem_sdiff.mp hf
    exact Finset.mem_filter.mpr ⟨hfF, h.lower f hfF hf' g hg⟩
  · rintro ⟨hgF, hn⟩
    by_contra hg
    -- everything below `g` is gone, and `g` with it
    have hsub : F.filter (· < g) ⊆ (F \ F').erase g := by
      intro f hf
      obtain ⟨hfF, hlt⟩ := Finset.mem_filter.mp hf
      refine Finset.mem_erase.mpr ⟨ne_of_lt hlt, Finset.mem_sdiff.mpr ⟨hfF, fun hf' => ?_⟩⟩
      exact lt_asymm hlt (h.lower g hgF hg f hf')
    have hle := Finset.card_le_card hsub
    have hmem : g ∈ F \ F' := Finset.mem_sdiff.mpr ⟨hgF, hg⟩
    rw [Finset.card_erase_of_mem hmem, hgone] at hle
    have hpos : 0 < n := by
      rw [← hgone]
      exact Finset.card_pos.mpr ⟨g, hmem⟩
    omega

end FirstFit
