/-
  Subject: COUNTING HOLDERS: in how many places of a table a given object is written.

  A table is a function from places to the object held there, if any; the places counted are a finite set. A reference
  count is right if it is such a tally; the lemmas say how the tally moves when one place is written, and when places
  are added.
-/
import Mathlib.Algebra.BigOperators.Group.Finset.Piecewise

namespace Tally

open Function (update update_of_ne update_self)

variable {ι κ : Type} [DecidableEq κ]

/-- The number of places of `S` that hold `k`. -/
def tally (S : Finset ι) (f : ι → Option κ) (k : κ) : Nat := (S.filter fun i => f i = some k).card

/-- One if the place holds `k`. -/
def holds (o : Option κ) (k : κ) : Nat := if o = some k then 1 else 0

@[simp] theorem holds_none (k : κ) : holds none k = 0 := rfl

@[simp] theorem holds_self (k : κ) : holds (some k) k = 1 := if_pos rfl

theorem holds_of_ne {o : Option κ} {k : κ} (h : o ≠ some k) : holds o k = 0 := if_neg h

theorem tally_eq_sum (S : Finset ι) (f : ι → Option κ) (k : κ) :
    tally S f k = ∑ i ∈ S, holds (f i) k := Finset.card_filter _ _

variable {S : Finset ι}

theorem tally_congr {f g : ι → Option κ} (h : ∀ i ∈ S, f i = g i) (k : κ) : tally S f k = tally S g k := by
  rw [tally_eq_sum, tally_eq_sum]
  exact Finset.sum_congr rfl fun i hi => by rw [h i hi]

/-- Writing one place moves the tallies of what it held and of what it holds. -/
theorem tally_update [DecidableEq ι] {i : ι} (hi : i ∈ S) (f : ι → Option κ) (v : Option κ) (k : κ) :
    tally S (update f i v) k + holds (f i) k = tally S f k + holds v k := by
  have hrest : ∑ j ∈ S.erase i, holds (update f i v j) k = ∑ j ∈ S.erase i, holds (f j) k :=
    Finset.sum_congr rfl fun j hj => by rw [update_of_ne (Finset.ne_of_mem_erase hj)]
  rw [tally_eq_sum, tally_eq_sum, ← Finset.add_sum_erase S _ hi, ← Finset.add_sum_erase S _ hi, hrest, update_self]
  omega

theorem tally_insert [DecidableEq ι] {i : ι} (hi : i ∉ S) (f : ι → Option κ) (k : κ) :
    tally (insert i S) f k = tally S f k + holds (f i) k := by
  rw [tally_eq_sum, tally_eq_sum, Finset.sum_insert hi, Nat.add_comm]

variable {f : ι → Option κ}

theorem tally_subset {S T : Finset ι} (hST : S ⊆ T) (h : ∀ i ∈ T, i ∉ S → f i = none)
    (k : κ) : tally T f k = tally S f k := by
  rw [tally_eq_sum, tally_eq_sum]
  refine (Finset.sum_subset hST fun i hi hS => ?_).symm
  rw [h i hi hS, holds_none]

/-- A place that held nothing is written; it may be a new one. -/
theorem tally_fill [DecidableEq ι] {i : ι} (h : i ∈ S → f i = none)
    (v : Option κ) (k : κ) : tally (insert i S) (update f i v) k = tally S f k + holds v k := by
  by_cases hi : i ∈ S
  · have hup := tally_update hi f v k
    rw [h hi, holds_none, Nat.add_zero] at hup
    rw [Finset.insert_eq_of_mem hi, hup]
  · have hrest : tally S (update f i v) k = tally S f k := by
      refine tally_congr (fun j hj => ?_) k
      have hji : j ≠ i := fun he => hi (he ▸ hj)
      exact update_of_ne hji ..
    rw [tally_insert hi, update_self, hrest]

theorem tally_zero {k : κ} (h : ∀ i ∈ S, f i ≠ some k) : tally S f k = 0 := by
  rw [tally_eq_sum]
  exact Finset.sum_eq_zero fun i hi => holds_of_ne (h i hi)

theorem tally_pos {k : κ} {i : ι} (hi : i ∈ S)
    (h : f i = some k) : 0 < tally S f k :=
  Finset.card_pos.mpr ⟨i, Finset.mem_filter.mpr ⟨hi, h⟩⟩

end Tally
