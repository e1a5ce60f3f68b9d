/-
  Subject: BITMAPS IN 32-BIT WORDS and the finite set of bits they hold.

  * `tst`, `set`, `clr` -- one bit, addressed by word and position;
  * `ones n b` -- the set bits below `n`: `set` inserts into it, `clr` erases from it;
  * `ctz` -- the number of trailing zeros of a word, as `__builtin_ctz` counts them.
-/
import Mathlib.Data.Finset.Card
import Mathlib.Algebra.Ring.Nat

namespace Bitmap

/-- A bitmap: word `w` holds the bits `32 * w ..< 32 * (w + 1)`. -/
abbrev Bits := Nat → BitVec 32

variable (b : Bits) (i j n : Nat)

def tst : Bool := (b (i / 32)).getLsbD (i % 32)

def set : Bits := fun w => if w = i / 32 then b w ||| (1#32 <<< (i % 32)) else b w

def clr : Bits := fun w => if w = i / 32 then b w &&& ~~~(1#32 <<< (i % 32)) else b w

theorem getLsbD_mask {k l : Nat} (hl : l < 32) : (1#32 <<< k).getLsbD l = decide (l = k) := by
  rw [BitVec.getLsbD_shiftLeft]
  by_cases h : l = k
  · subst h; simp [hl]
  · by_cases hlt : l < k
    · simp [hlt, h]
    · have : l - k ≠ 0 := by omega
      simp [this, h]

theorem tst_set : tst (set b i) j = (tst b j || decide (j = i)) := by
  unfold tst set
  by_cases hw : j / 32 = i / 32
  · rw [if_pos hw, BitVec.getLsbD_or, getLsbD_mask (Nat.mod_lt _ (by decide))]
    have : (j % 32 = i % 32) ↔ j = i := by omega
    simp only [this]
  · rw [if_neg hw]
    have : j ≠ i := fun h => hw (by rw [h])
    simp [this]

theorem tst_clr : tst (clr b i) j = (tst b j && decide (j ≠ i)) := by
  unfold tst clr
  by_cases hw : j / 32 = i / 32
  · have hlt : j % 32 < 32 := Nat.mod_lt _ (by decide)
    rw [if_pos hw, BitVec.getLsbD_and, BitVec.getLsbD_not, getLsbD_mask hlt]
    have : (j % 32 = i % 32) ↔ j = i := by omega
    simp only [this, hlt, decide_true, Bool.true_and, ne_eq, decide_not]
  · rw [if_neg hw]
    have : j ≠ i := fun h => hw (by rw [h])
    simp [this]

theorem tst_foldl_clr (is : List Nat) : tst (is.foldl clr b) j = (tst b j && decide (j ∉ is)) := by
  induction is generalizing b with
  | nil => simp
  | cons i is ih =>
    rw [List.foldl_cons, ih, tst_clr]
    by_cases h1 : j = i <;> by_cases h2 : j ∈ is <;> simp [h1, h2]

/-- The set bits below `n`. -/
def ones : Finset Nat := (Finset.range n).filter fun i => tst b i = true

theorem mem_ones : i ∈ ones b n ↔ i < n ∧ tst b i = true := by
  simp [ones]

theorem ones_clr : ones (clr b i) n = (ones b n).erase i := by
  ext j
  rw [Finset.mem_erase, mem_ones, mem_ones, tst_clr]
  by_cases h : j = i <;> simp [h]

theorem ones_set (hi : i < n) : ones (set b i) n = insert i (ones b n) := by
  ext j
  rw [Finset.mem_insert, mem_ones, mem_ones, tst_set]
  by_cases h : j = i <;> simp [h, hi]

/-- Clearing a range that was all set takes its length off the count. -/
theorem card_ones_foldl_clr {is : List Nat} (hnd : is.Nodup) (hs : ∀ i ∈ is, i ∈ ones b n) :
    (ones (is.foldl clr b) n).card + is.length = (ones b n).card := by
  induction is generalizing b with
  | nil => rfl
  | cons i is ih =>
    obtain ⟨hni, hnd'⟩ := List.nodup_cons.mp hnd
    have hi := hs i (.head _)
    have hs' : ∀ j ∈ is, j ∈ ones (clr b i) n := fun j hj => by
      rw [ones_clr]
      exact Finset.mem_erase.mpr ⟨fun e => hni (e ▸ hj), hs j (.tail _ hj)⟩
    have h := ih (clr b i) hnd' hs'
    rw [ones_clr, Finset.card_erase_of_mem hi] at h
    have hpos := Finset.card_pos.mpr ⟨i, hi⟩
    rw [List.foldl_cons, List.length_cons]
    omega

/-! ## Trailing zeros -/

/-- The position of the lowest set bit (32 for the zero word). -/
def ctz (w : BitVec 32) : Nat := ((List.range 32).find? fun i => w.getLsbD i).getD 32

theorem ctz_spec {w : BitVec 32} (hw : w ≠ 0) : ctz w < 32 ∧ w.getLsbD (ctz w) = true := by
  unfold ctz
  cases hf : (List.range 32).find? fun i => w.getLsbD i with
  | none =>
    rw [List.find?_eq_none] at hf
    refine absurd (BitVec.eq_of_getLsbD_eq fun i hi => ?_) hw
    have := hf i (List.mem_range.mpr hi)
    simpa using this
  | some i =>
    have hm := List.mem_of_find?_eq_some hf
    exact ⟨List.mem_range.mp hm, List.find?_some hf⟩

end Bitmap
