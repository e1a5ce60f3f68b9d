/-
  Subject: THE CONTENT OF A RING BUFFER: the elements from its tail on, read around the end.

  A buffer of `cap` cells is a function on indices. `window buf cap tail n` is the list of the `n` elements from
  `tail` on; taking one from the front and adding one behind the last are `window_succ` and `window_snoc`.
-/
import Mathlib.Data.Nat.ModEq
import Mathlib.Logic.Function.Basic

namespace RingBuffer

open Function (update)

variable {α : Type} {buf : Nat → α} {cap tail n i : Nat}

def window (buf : Nat → α) (cap tail n : Nat) : List α := (List.range n).map fun i => buf ((tail + i) % cap)

@[simp] theorem window_zero : window buf cap tail 0 = [] := rfl

/-- The first element and the others. -/
theorem window_succ (htail : tail < cap) :
    window buf cap tail (n + 1) = buf tail :: window buf cap ((tail + 1) % cap) n := by
  rw [window, List.range_succ_eq_map, List.map_cons, List.map_map, Nat.add_zero, Nat.mod_eq_of_lt htail, window]
  congr 1
  refine List.map_congr_left fun i _ => ?_
  rw [Function.comp_apply, Nat.mod_add_mod, Nat.succ_eq_add_one, Nat.add_right_comm, Nat.add_assoc]

/-- The first `m` elements and the others. -/
theorem window_add (m : Nat) :
    window buf cap tail (m + n) = window buf cap tail m ++ window buf cap ((tail + m) % cap) n := by
  rw [window, List.range_add, List.map_append, List.map_map, window, window]
  congr 1
  refine List.map_congr_left fun i _ => ?_
  rw [Function.comp_apply, Nat.mod_add_mod, Nat.add_assoc]

/-- Cells of the window are different cells of the buffer. -/
theorem index_ne (hi : i < n) (hn : n < cap) : (tail + i) % cap ≠ (tail + n) % cap := by
  intro heq
  have hmod : i % cap = n % cap := Nat.ModEq.add_left_cancel' tail heq
  rw [Nat.mod_eq_of_lt (hi.trans hn), Nat.mod_eq_of_lt hn] at hmod
  exact Nat.ne_of_lt hi hmod

/-- An element written behind the last one. -/
theorem window_snoc (hn : n < cap) (b : α) :
    window (update buf ((tail + n) % cap) b) cap tail (n + 1) = window buf cap tail n ++ [b] := by
  rw [window, List.range_succ, List.map_append, window]
  congr 1
  · refine List.map_congr_left fun i hi => ?_
    exact Function.update_of_ne (index_ne (List.mem_range.mp hi) hn) _ _
  · rw [List.map_singleton, Function.update_self]

end RingBuffer
