/-
  Subject: AN ARRAY OF BLOCKS SEEN AS ONE ARRAY OF BYTES, and the last value written to a byte.

  * `flat` -- byte `x` is byte `x % k` of block `x / k`;
  * `flat_update` -- a block replaced by itself with some bytes written over it is the same write to the array of
    bytes;
  * `foldl_storeList` -- after a sequence of writes each byte has the last value written to it.
-/
import OreUnix.Lib.ByteMem
import Mathlib.Data.List.GetD
import Mathlib.Data.List.Induction
import Mathlib.Logic.Function.Basic

namespace BlockArray

open ByteMem
open Function (update)

variable {k i off : Nat} {b : Nat → Mem} {m : Mem} {bs : List UInt8}

/-! ## 1. Blocks -/

/-- The bytes of an array of blocks of `k` bytes. -/
def flat (k : Nat) (b : Nat → Mem) : Mem := fun x => b (x / k) (x % k)

theorem flat_at (hoff : off < k) : flat k b (i * k + off) = b i off := by
  rw [flat, Nat.mul_comm, Nat.mul_add_div (by omega), Nat.mul_add_mod, Nat.div_eq_of_lt hoff, Nat.mod_eq_of_lt hoff,
    Nat.add_zero]

/-- Position `x` of the array is position `x - i * k` of block `i` or belongs to another block. -/
theorem block_cases (hk : 0 < k) (i x : Nat) : (∃ j < k, x = i * k + j) ∨ x / k ≠ i := by
  by_cases hx : x / k = i
  · refine .inl ⟨x % k, Nat.mod_lt x hk, ?_⟩
    rw [← hx, Nat.mul_comm]
    exact (Nat.div_add_mod x k).symm
  · exact .inr hx

/-- **Bytes written inside a block** are written to the array. -/
theorem flat_update (hk : 0 < k) (hfit : off + bs.length ≤ k) {blk : Mem}
    (hblk : ∀ j < k, blk j = storeList (b i) off bs j) :
    flat k (update b i blk) = storeList (flat k b) (i * k + off) bs := by
  funext x
  rcases block_cases hk i x with ⟨j, hj, rfl⟩ | hx
  · rw [flat_at hj, Function.update_self, hblk j hj, storeList, storeList, flat_at hj]
    by_cases hin : off ≤ j ∧ j < off + bs.length
    · rw [if_pos hin, if_pos (by omega), Nat.add_sub_add_left]
    · rw [if_neg hin, if_neg (by omega)]
  · have hout : x < i * k + off ∨ i * k + off + bs.length ≤ x := by
      by_contra hcon
      exact hx (Nat.div_eq_of_lt_le (by omega) (by rw [Nat.add_mul]; omega))
    rw [storeList_of_ne _ _ _ hout, flat, flat, Function.update_of_ne hx]

/-- Over a whole block the old content does not matter. -/
theorem storeList_whole (m m' : Mem) {j : Nat} (hj : j < bs.length) : storeList m 0 bs j = storeList m' 0 bs j := by
  rw [storeList, storeList, if_pos (by omega), if_pos (by omega)]

theorem storeList_append (m : Mem) (a : Nat) (xs ys : List UInt8) :
    storeList (storeList m a xs) (a + xs.length) ys = storeList m a (xs ++ ys) := by
  funext x
  simp only [storeList, List.length_append]
  by_cases h1 : a + xs.length ≤ x ∧ x < a + xs.length + ys.length
  · rw [if_pos h1, if_pos (by omega), List.getD_append_right _ _ _ _ (by omega), Nat.sub_sub]
  · rw [if_neg h1]
    by_cases h2 : a ≤ x ∧ x < a + xs.length
    · rw [if_pos h2, if_pos (by omega), List.getD_append _ _ _ _ (by omega)]
    · rw [if_neg h2, if_neg (by omega)]

/-! ## 2. The last value written -/

/-- A write: where it begins, and its bytes. -/
abbrev Write := Nat × List UInt8

def Write.Covers (w : Write) (x : Nat) : Prop := w.1 ≤ x ∧ x < w.1 + w.2.length

instance (w : Write) (x : Nat) : Decidable (w.Covers x) := inferInstanceAs (Decidable (_ ∧ _))

/-- The value the last write that covers `x` gave it. -/
def lastWritten (ws : List Write) (x : Nat) : Option UInt8 :=
  (ws.reverse.find? fun w => w.Covers x).map fun w => w.2.getD (x - w.1) 0

/-- **After a sequence of writes** each byte has the last value written to it, or the one of the beginning. -/
theorem foldl_storeList (m : Mem) (ws : List Write) (x : Nat) :
    ws.foldl (fun m w => storeList m w.1 w.2) m x = (lastWritten ws x).getD (m x) := by
  induction ws using List.reverseRecOn with
  | nil => rfl
  | append_singleton ws w ih =>
    rw [List.foldl_append, List.foldl_cons, List.foldl_nil, lastWritten, List.reverse_append, List.reverse_singleton,
      List.singleton_append, List.find?_cons]
    by_cases hw : w.Covers x
    · rw [decide_eq_true hw, Option.map_some, Option.getD_some]
      exact if_pos hw
    · rw [decide_eq_false hw]
      exact (if_neg hw).trans ih

end BlockArray
