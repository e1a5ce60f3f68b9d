/-
  Subject: BYTE-ADDRESSED MEMORY with little-endian 32-bit words.

  A memory is a total map from addresses to bytes. Everything a program does to it is one of a few writes (a byte, a
  word, a list of bytes, a block copy, a block fill); every write is known by what it leaves alone, so the lemmas come
  in pairs: what is read back at the place written, and the frame.

  * `word_storeWord`, `word_storeWord_of_disjoint` -- a word reads back, other words stay;
  * `word_congr` -- a word depends on its four bytes only;
  * `load`, `cString` -- bytes and C strings as lists;
  * `AgreeOn` -- two memories agree on a range of addresses: the frame condition the structures above are transported
    along.
-/
import Mathlib.Algebra.Ring.Nat

namespace ByteMem

variable {a hi lo x : Nat}

/-- Memory: an address holds a byte. -/
abbrev Mem := Nat → UInt8

/-- Write one byte. -/
def store (m : Mem) (a : Nat) (v : UInt8) : Mem := fun x => if x = a then v else m x

/-- The little-endian word at `a`. -/
def word (m : Mem) (a : Nat) : Nat :=
  (m a).toNat + 2 ^ 8 * (m (a + 1)).toNat + 2 ^ 16 * (m (a + 2)).toNat + 2 ^ 24 * (m (a + 3)).toNat

/-- Write the word `v` at `a`, low byte first. -/
def storeWord (m : Mem) (a v : Nat) : Mem := fun x =>
  if x = a then UInt8.ofNat v
  else if x = a + 1 then UInt8.ofNat (v / 2 ^ 8)
  else if x = a + 2 then UInt8.ofNat (v / 2 ^ 16)
  else if x = a + 3 then UInt8.ofNat (v / 2 ^ 24)
  else m x

/-- The little-endian 16-bit word at `a`. -/
def half (m : Mem) (a : Nat) : Nat := (m a).toNat + 2 ^ 8 * (m (a + 1)).toNat

/-- Write the 16-bit word `v` at `a`, low byte first. -/
def storeHalf (m : Mem) (a v : Nat) : Mem := fun x =>
  if x = a then UInt8.ofNat v else if x = a + 1 then UInt8.ofNat (v / 2 ^ 8) else m x

/-- Copy `n` bytes from `src` to `dst` (the ranges do not overlap). -/
def copy (m : Mem) (dst src n : Nat) : Mem := fun x =>
  if dst ≤ x ∧ x < dst + n then m (src + (x - dst)) else m x

/-- Copy `n` bytes from `src` of another memory to `dst`. -/
def copyFrom (m : Mem) (dst : Nat) (m' : Mem) (src n : Nat) : Mem := fun x =>
  if dst ≤ x ∧ x < dst + n then m' (src + (x - dst)) else m x

/-- Set `n` bytes from `dst` on to `c`. -/
def fill (m : Mem) (dst : Nat) (c : UInt8) (n : Nat) : Mem := fun x =>
  if dst ≤ x ∧ x < dst + n then c else m x

/-- Write the bytes `bs` from `a` on. -/
def storeList (m : Mem) (a : Nat) (bs : List UInt8) : Mem := fun x =>
  if a ≤ x ∧ x < a + bs.length then bs.getD (x - a) 0 else m x

/-- The `n` bytes from `a` on. -/
def load (m : Mem) : Nat → Nat → List UInt8
  | _, 0 => []
  | a, n + 1 => m a :: load m (a + 1) n

/-- The C string at `a`, or its first `n` bytes. -/
def cString (m : Mem) : Nat → Nat → List UInt8
  | _, 0 => []
  | a, n + 1 => if m a = 0 then [] else m a :: cString m (a + 1) n

/-! ## 1. Words -/

theorem word_lt (m : Mem) (a : Nat) : word m a < 2 ^ 32 := by
  unfold word
  have h0 := (m a).toNat_lt
  have h1 := (m (a + 1)).toNat_lt
  have h2 := (m (a + 2)).toNat_lt
  have h3 := (m (a + 3)).toNat_lt
  omega

theorem word_congr {m m' : Mem} (h : ∀ x, a ≤ x → x < a + 4 → m' x = m x) : word m' a = word m a := by
  unfold word
  rw [h a (by omega) (by omega), h (a + 1) (by omega) (by omega), h (a + 2) (by omega) (by omega),
    h (a + 3) (by omega) (by omega)]

/-- **A word reads back as it was written.** -/
theorem word_storeWord (m : Mem) (a v : Nat) (hv : v < 2 ^ 32) : word (storeWord m a v) a = v := by
  simp only [word, storeWord, ↓reduceIte, UInt8.toNat_ofNat', Nat.add_eq_left, Nat.reduceEqDiff,
    Nat.add_left_cancel_iff, Nat.succ_ne_zero]
  omega

theorem storeWord_of_ne (m : Mem) (a v : Nat) (h : x < a ∨ a + 4 ≤ x) : storeWord m a v x = m x := by
  unfold storeWord
  rw [if_neg (by omega), if_neg (by omega), if_neg (by omega), if_neg (by omega)]

theorem word_storeWord_of_disjoint (m : Mem) (a v : Nat) {b : Nat} (h : a + 4 ≤ b ∨ b + 4 ≤ a) :
    word (storeWord m a v) b = word m b :=
  word_congr fun x h1 h2 => storeWord_of_ne m a v (by omega)

/-! ## 2. Blocks -/

theorem copy_of_ne (m : Mem) (dst src n : Nat) (h : x < dst ∨ dst + n ≤ x) : copy m dst src n x = m x := by
  unfold copy
  rw [if_neg (by omega)]

theorem fill_of_ne (m : Mem) (dst : Nat) (c : UInt8) (n : Nat) (h : x < dst ∨ dst + n ≤ x) :
    fill m dst c n x = m x := by
  unfold fill
  rw [if_neg (by omega)]

theorem storeList_of_ne (m : Mem) (a : Nat) (bs : List UInt8) (h : x < a ∨ a + bs.length ≤ x) :
    storeList m a bs x = m x := by
  unfold storeList
  rw [if_neg (by omega)]

theorem storeList_at (m : Mem) (a : Nat) (bs : List UInt8) {k : Nat} (h : k < bs.length) :
    storeList m a bs (a + k) = bs.getD k 0 := by
  unfold storeList
  rw [if_pos ⟨Nat.le_add_right a k, Nat.add_lt_add_left h a⟩, Nat.add_sub_cancel_left]

/-- A 16-bit word moved from one memory to another moves its two bytes. -/
theorem storeHalf_half (m m' : Mem) (a b x : Nat) :
    storeHalf m a (half m' b) x = if x = a then m' b else if x = a + 1 then m' (b + 1) else m x := by
  have hlow : UInt8.ofNat (half m' b) = m' b := by
    apply UInt8.toNat_inj.mp
    have h0 := (m' b).toNat_lt
    rw [UInt8.toNat_ofNat', half]
    omega
  have hhigh : UInt8.ofNat (half m' b / 2 ^ 8) = m' (b + 1) := by
    apply UInt8.toNat_inj.mp
    have h0 := (m' b).toNat_lt
    have h1 := (m' (b + 1)).toNat_lt
    rw [UInt8.toNat_ofNat', half]
    omega
  rw [storeHalf, hlow, hhigh]

theorem store_of_ne (m : Mem) (a : Nat) (v : UInt8) (h : x ≠ a) : store m a v x = m x := by
  unfold store
  rw [if_neg h]

/-! ## 3. Agreement on a range -/

/-- The memories agree on `lo ..< hi`. -/
def AgreeOn (m m' : Mem) (lo hi : Nat) : Prop := ∀ x, lo ≤ x → x < hi → m' x = m x

theorem AgreeOn.mono {m m' : Mem} {lo' hi' : Nat} (h : AgreeOn m m' lo hi) (h1 : lo ≤ lo') (h2 : hi' ≤ hi) :
    AgreeOn m m' lo' hi' :=
  fun x hx hx' => h x (by omega) (by omega)

theorem AgreeOn.word {m m' : Mem} (h : AgreeOn m m' lo hi) (h1 : lo ≤ a) (h2 : a + 4 ≤ hi) : word m' a = word m a :=
  word_congr fun x hx hx' => h x (by omega) (by omega)

theorem agreeOn_storeWord (m : Mem) (a v : Nat) (h : hi ≤ a ∨ a + 4 ≤ lo) : AgreeOn m (storeWord m a v) lo hi :=
  fun x h1 h2 => storeWord_of_ne m a v (by omega)

end ByteMem
