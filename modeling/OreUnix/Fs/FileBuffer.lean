/-
  Subject: THE BUFFER OF A REGULAR FILE: `ramfs_read`, `ramfs_write`, `ramfs_truncate` and `vfs_lseek` over any number
  of open files of one inode, for any `krealloc` that keeps its contract.

  * `BufferOk` -- the size lies within the capacity, the capacity within the block;
  * `step_safe_iff` -- a call stays inside the block and keeps `BufferOk` exactly when a write ends below 2^32 or is
    refused, and a length is not negative or is refused;
  * **`buffer_safe_iff`** -- the same for a whole sequence of calls.

  The capacity is 32-bit, the position 64-bit: a write that ends at 2^32 or behind it is taken for a short one by the
  test for growth, and the size follows the position.
-/
import OreUnix.Fs.NamesPersist

namespace OreUnix.Vfs

open Function (update update_of_ne update_self)
open Wp

variable {i : Nat} {p : Int} {s t : Fs}

/-! ## 1. Calls on one file -/

/-- What `krealloc` gives for a block and a size. -/
abbrev Gives := Option (List UInt8) → Nat → Option (List UInt8)

/-- The contract: NULL, or a block of at least that size. -/
def Gives.Correct (g : Gives) : Prop := ∀ data n nd, g data n = some nd → n ≤ nd.length ∧ nd.length < 2 ^ 32

def Gives.realloc (g : Gives) : Realloc := fun data n => pure (g data n)

inductive BufferCall where
  | read (f count : Nat)
  | write (f : Nat) (buf : List UInt8)
  | lseek (f : Nat) (offset : Int) (whence : Nat)
  | truncate (size : Int)

/-- The call on the inode `i`. -/
def BufferCall.exec (g : Gives) (i : Nat) : BufferCall → M Int
  | .read f count => do return (← ramfsRead f count).1
  | .write f buf => ramfsWriteWith g.realloc f buf
  | .lseek f offset whence => vfsLseek f offset whence
  | .truncate size => ramfsTruncateWith g.realloc i size

/-- The file `f` is open on the inode `i`. -/
def OpenOn (s : Fs) (f i : Nat) : Prop :=
  ∃ x d de, s.files f = some x ∧ x.dentry = some d ∧ s.dentries d = some de ∧ de.inode = some i

/-- The arguments: open files of the inode, 32-bit counts, 32-bit signed offsets and lengths. -/
def BufferCall.Fits (s : Fs) (i : Nat) : BufferCall → Prop
  | .read f count => OpenOn s f i ∧ count < 2 ^ 32
  | .write f buf => OpenOn s f i ∧ buf.length < 2 ^ 32
  | .lseek f offset _ => OpenOn s f i ∧ -2 ^ 31 ≤ offset ∧ offset < 2 ^ 31
  | .truncate size => -2 ^ 31 ≤ size ∧ size < 2 ^ 31

/-! ## 2. What should hold -/

/-- **The buffer is in order**: `0 ≤ i_size ≤ capacity`, and the capacity is at most the block's size. -/
def BufferOk (y : Inode) : Prop :=
  ∃ ri, y.priv = some ri ∧ 0 ≤ y.size ∧ y.size ≤ ri.capacity ∧ ri.capacity ≤ (ri.data.getD []).length ∧
    (ri.data.getD []).length < 2 ^ 32

/-- The call returns, so that no copy leaves the block; the buffer is in order after it; and a negative length is
    refused, with the file as it was. -/
def SafeStep (s : Fs) (i : Nat) (c : BufferCall) (g : Gives) : Prop :=
  ∃ r t y, c.exec g i s = .ok (r, t) ∧ t.inodes i = some y ∧ BufferOk y ∧
    ∀ size, c = .truncate size → size < 0 → r ≠ 0 ∧ t = s

/-- The condition: a write ends below 2^32, a length is not negative, or `krealloc` refuses the block that the call
    then asks for. -/
def BufferCall.Within (s : Fs) (i : Nat) (g : Gives) : BufferCall → Prop
  | .write f buf => ∀ x y ri, s.files f = some x → s.inodes i = some y → y.priv = some ri →
      writePos x y + buf.length < 2 ^ 32 ∨
      (toU32 (writePos x y + buf.length) > ri.capacity ∧
        g ri.data (newCapacity ri (s64 (writePos x y + buf.length))) = none)
  | .truncate size => ∀ y ri, s.inodes i = some y → y.priv = some ri →
      0 ≤ size ∨ (toU32 size > ri.capacity ∧ g ri.data (toU32 size) = none)
  | _ => True

/-- The state the calls start from: the buffer is in order, and no position is negative. -/
structure FileInv (s : Fs) (i : Nat) : Prop where
  buffer : ∃ y, s.inodes i = some y ∧ BufferOk y
  pos : ∀ {f x d de}, s.files f = some x → x.dentry = some d → s.dentries d = some de → de.inode = some i →
    0 ≤ x.pos ∧ x.pos < 2 ^ 63

section Steps

variable {s : Fs} {i f : Nat} {x : File} {y : Inode} {ri : RamfsInode} {g : Gives} {buf : List UInt8}

/-! ## 3. Arithmetic -/

theorem s64_range (n : Int) : -2 ^ 63 ≤ s64 n ∧ s64 n < 2 ^ 63 := by
  have hlow := Int.le_bmod (x := n) (m := 2 ^ 64) (by decide)
  have hhigh := Int.bmod_lt (x := n) (m := 2 ^ 64) (by decide)
  unfold s64
  omega

theorem toU32_s64 (n : Int) : toU32 (s64 n) = toU32 n := by
  have hmod : s64 n % 2 ^ 64 = n % 2 ^ 64 := Int.bmod_emod
  unfold toU32
  omega

/-- A copy that starts below 2^63 and ends behind it does not fit below 2^32. -/
theorem wrapped_end {n : Nat} (h0 : 0 ≤ p) (hp : p < 2 ^ 63) (hn : n < 2 ^ 32) (h : 2 ^ 63 ≤ p + n) :
    2 ^ 32 ≤ toU32 p + n := by
  unfold toU32
  omega

/-! ## 4. One call -/

/-- A crash is not an answer. -/
abbrev Never (_ : Crash) : Prop := False

def SafePost (s : Fs) (i : Nat) (c : BufferCall) (r : Int) (t : Fs) : Prop :=
  ∃ y, t.inodes i = some y ∧ BufferOk y ∧ ∀ size, c = .truncate size → size < 0 → r ≠ 0 ∧ t = s

theorem safeStep_iff_wp (c : BufferCall) : SafeStep s i c g ↔ wp Never (c.exec g i) (SafePost s i c) s := by
  rw [wp_iff]
  constructor
  · intro h
    obtain ⟨r, t, y, hexec, hy, hok, hneg⟩ := h
    exact .inl ⟨r, t, hexec, y, hy, hok, hneg⟩
  · intro h
    rcases h with ⟨r, t, hexec, y, hy, hok, hneg⟩ | ⟨_, _, hfalse⟩
    · exact ⟨r, t, y, hexec, hy, hok, hneg⟩
    · exact hfalse.elim

/-- The buffer that `growBuffer` makes of a block. -/
def RamfsInode.grown (ri : RamfsInode) (nd : List UInt8) (newcap : Nat) : RamfsInode :=
  { ri with
    data := some (splice nd ri.capacity (List.replicate (newcap - ri.capacity) 0))
    capacity := newcap }

theorem wp_growBuffer_gives {E : Crash → Prop} {Q : Option RamfsInode → Fs → Prop} (newcap : Nat) :
    wp E (growBuffer g.realloc ri newcap) Q s ↔ Q ((g ri.data newcap).map fun nd => ri.grown nd newcap) s := by
  rw [growBuffer, wp_bind, Gives.realloc, wp_pure]
  cases g ri.data newcap <;> rfl

/-- The file of an inode after a write. -/
def Inode.stored (y : Inode) (ri : RamfsInode) (p : Int) (buf : List UInt8) : Inode :=
  { y with
    priv := some (ri.write (toU32 p) buf)
    size := if s64 (p + buf.length) > y.size then s64 (p + buf.length) else y.size }

theorem wp_storeBytes_iff {Q : Int → Fs → Prop} : wp Never (storeBytes f i x y p buf ri) Q s ↔
    toU32 p + buf.length ≤ (ri.data.getD []).length ∧
      Q buf.length ((s.putFile f (some { x with pos := s64 (p + buf.length) })).putNode i (y.stored ri p buf)) := by
  unfold storeBytes
  split
  · rename_i hfit
    exact ⟨fun h => ⟨hfit, h⟩, fun h => h.2⟩
  · rename_i hno
    exact ⟨fun h => h.elim, fun h => absurd h.1 hno⟩

/-- **What a write does**: the buffer is grown when the low 32 bits of the end lie behind the capacity. -/
theorem wp_write_iff {Q : Int → Fs → Prop} {d : Nat} {de : Dentry} (hf : s.files f = some x) (hd : x.dentry = some d)
    (hde : s.dentries d = some de) (hi : de.inode = some i) (hy : s.inodes i = some y) (hri : y.priv = some ri) :
    wp Never (ramfsWriteWith g.realloc f buf) Q s ↔ (if toU32 (writePos x y + buf.length) > ri.capacity then
        match g ri.data (newCapacity ri (s64 (writePos x y + buf.length))) with
        | none => Q (-ENOMEM) (s.putFile f (some { x with pos := writePos x y }))
        | some nd => wp Never (storeBytes f i x y (writePos x y) buf
            (ri.grown nd (newCapacity ri (s64 (writePos x y + buf.length))))) Q
            (s.putFile f (some { x with pos := writePos x y }))
      else wp Never (storeBytes f i x y (writePos x y) buf ri) Q
      (s.putFile f (some { x with pos := writePos x y }))) := by
  rw [ramfsWriteWith, wp_bind, wp_getFile hf, wp_bind, wp_fileInode hd hde hi hy]
  simp only [← show writePos x y = if hasFlag x.flags O_APPEND then y.size else x.pos from rfl, wp_bind,
    wp_setFile, hri,
    toU32_s64]
  change wp Never _ _ (s.putFile f (some { x with pos := writePos x y })) ↔ _
  split
  · rw [wp_bind, wp_growBuffer_gives]
    cases g ri.data (newCapacity ri (s64 (writePos x y + buf.length))) <;> rfl
  · rfl

/-! ## 5. Calls that keep to the condition -/

/-- The outcome of a call that stays inside: the file system goes on from a state like the first. -/
structure Stays (s : Fs) (i : Nat) (t : Fs) : Prop where
  inv : FileInv t i
  isOpen : ∀ f, OpenOn s f i → OpenOn t f i

/-- The buffer is in order and a file has moved. -/
theorem Stays.moved (h : FileInv s i) (hf : s.files f = some x) (t : Fs) {q : Int} (h0 : 0 ≤ q) (hq : q < 2 ^ 63)
    (hfiles : t.files = update s.files f (some { x with pos := q })) (hde : t.dentries = s.dentries)
    (hbuf : ∃ y, t.inodes i = some y ∧ BufferOk y) : Stays s i t := by
  refine ⟨⟨hbuf, fun {f' x' d de} hf' hd hde' hi => ?_⟩, fun f' hopen => ?_⟩
  · rw [hfiles] at hf'
    rw [hde] at hde'
    by_cases hff : f' = f
    · subst hff
      rw [update_self] at hf'
      cases hf'
      exact ⟨h0, hq⟩
    · rw [update_of_ne hff] at hf'
      exact h.pos hf' hd hde' hi
  · obtain ⟨x', d, de, hf', hd, hde', hi⟩ := hopen
    rw [← hde] at hde'
    by_cases hff : f' = f
    · subst hff
      cases hf.symm.trans hf'
      exact ⟨{ x with pos := q }, d, de, by rw [hfiles, update_self], hd, hde', hi⟩
    · exact ⟨x', d, de, by rw [hfiles, update_of_ne hff, hf'], hd, hde', hi⟩

theorem Stays.refl (h : FileInv s i) : Stays s i s := ⟨h, fun _ hopen => hopen⟩

theorem Stays.putNode (h : FileInv s i) (hok : BufferOk y) : Stays s i (s.putNode i y) :=
  ⟨⟨⟨y, update_self .., hok⟩, h.pos⟩, fun _ hopen => hopen⟩

theorem write_length_of_fits {off : Nat} (hfit : off + buf.length ≤ (ri.data.getD []).length) :
    ((ri.write off buf).data.getD []).length = (ri.data.getD []).length := by
  cases hd : ri.data with
  | none => simp [RamfsInode.write, hd]
  | some data =>
    rw [hd] at hfit
    simp only [RamfsInode.write, hd, Option.map_some, Option.getD_some]
    exact splice_length hfit

/-- The buffer after a write that fits. -/
theorem stored_ok_iff (hfit : toU32 p + buf.length ≤ (ri.data.getD []).length) :
    BufferOk (y.stored ri p buf) ↔ 0 ≤ (y.stored ri p buf).size ∧ (y.stored ri p buf).size ≤ ri.capacity ∧
      ri.capacity ≤ (ri.data.getD []).length ∧ (ri.data.getD []).length < 2 ^ 32 := by
  have hlen := write_length_of_fits hfit
  constructor
  · intro h
    obtain ⟨ri', hri', h0, hsz, hcap, hlt⟩ := h
    cases hri'
    rw [hlen] at hcap hlt
    exact ⟨h0, hsz, hcap, hlt⟩
  · intro h
    obtain ⟨h0, hsz, hcap, hlt⟩ := h
    exact ⟨_, rfl, h0, hsz, by rw [hlen]; exact hcap, by rw [hlen]; exact hlt⟩

/-- A copy into a buffer that has room for every end below 2^32: it is safe exactly for those. -/
theorem store_fits_iff (h0 : 0 ≤ p) (hp : p < 2 ^ 63) (hlen : buf.length < 2 ^ 32) (hs0 : 0 ≤ y.size)
    (hsz : y.size < 2 ^ 32) (hcap : ri.capacity ≤ (ri.data.getD []).length) (hlt : (ri.data.getD []).length < 2 ^ 32)
    (hroom : p + buf.length < 2 ^ 32 → p + buf.length ≤ ri.capacity ∧ y.size ≤ ri.capacity) :
    (toU32 p + buf.length ≤ (ri.data.getD []).length ∧ BufferOk (y.stored ri p buf)) ↔ p + buf.length < 2 ^ 32 := by
  constructor
  · intro h
    obtain ⟨hfit, hok⟩ := h
    by_contra hge
    by_cases hwrap : p + buf.length < 2 ^ 63
    · -- the size becomes the end, which no 32-bit capacity reaches
      obtain ⟨_, hle, _, _⟩ := (stored_ok_iff hfit).mp hok
      have hend : s64 (p + buf.length) = p + buf.length := s64_of_lt (by omega) hwrap
      simp only [Inode.stored, hend] at hle
      rw [if_pos (by omega)] at hle
      omega
    · have hout := wrapped_end h0 hp hlen (by omega)
      omega
  · intro hN
    obtain ⟨hend, hsize⟩ := hroom hN
    have hoff := toU32_of_lt (n := p) h0 (by omega)
    have hfit : toU32 p + buf.length ≤ (ri.data.getD []).length := by omega
    refine ⟨hfit, (stored_ok_iff hfit).mpr ?_⟩
    have h64 : s64 (p + buf.length) = p + buf.length := s64_of_lt (by omega) (by omega)
    simp only [Inode.stored, h64]
    refine ⟨?_, ?_, hcap, hlt⟩
    · split <;> omega
    · split <;> omega

theorem grown_length {nd : List UInt8} {newcap : Nat} (h : newcap ≤ nd.length) :
    ((ri.grown nd newcap).data.getD []).length = nd.length := by
  simp only [RamfsInode.grown, Option.getD_some, splice, List.length_append, List.length_take, List.length_replicate,
    List.length_drop]
  omega

theorem writePos_range (h0 : 0 ≤ x.pos) (hp : x.pos < 2 ^ 63) (hs0 : 0 ≤ y.size) (hsz : y.size < 2 ^ 32) :
    0 ≤ writePos x y ∧ writePos x y < 2 ^ 63 := by
  unfold writePos
  split
  · exact ⟨hs0, by omega⟩
  · exact ⟨h0, hp⟩

theorem FileInv.node (h : FileInv s i) : ∃ y ri, s.inodes i = some y ∧ y.priv = some ri ∧ 0 ≤ y.size ∧
    y.size ≤ ri.capacity ∧ ri.capacity ≤ (ri.data.getD []).length ∧ (ri.data.getD []).length < 2 ^ 32 := by
  obtain ⟨y, hy, ri, hri, h0, hsz, hcap, hlt⟩ := h.buffer
  exact ⟨y, ri, hy, hri, h0, hsz, hcap, hlt⟩

/-- The condition on a write, at the file and the inode it meets. -/
theorem within_write_iff (hf : s.files f = some x) (hy : s.inodes i = some y) (hri : y.priv = some ri) :
    (BufferCall.write f buf).Within s i g ↔ writePos x y + buf.length < 2 ^ 32 ∨
      (toU32 (writePos x y + buf.length) > ri.capacity ∧
        g ri.data (newCapacity ri (s64 (writePos x y + buf.length))) = none) := by
  constructor
  · intro h
    exact h x y ri hf hy hri
  · intro h x' y' ri' hf' hy' hri'
    cases hf.symm.trans hf'
    cases hy.symm.trans hy'
    cases hri.symm.trans hri'
    exact h

/-- The copy at the end of a write, into a buffer with room for every end below 2^32. -/
theorem store_spec (h : FileInv s i) (hf : s.files f = some x) (hp0 : 0 ≤ p) (hp : p < 2 ^ 63)
    (hlen : buf.length < 2 ^ 32) (hs0 : 0 ≤ y.size) (hsz : y.size < 2 ^ 32)
    (hcap : ri.capacity ≤ (ri.data.getD []).length) (hlt : (ri.data.getD []).length < 2 ^ 32)
    (hroom : p + buf.length < 2 ^ 32 → p + buf.length ≤ ri.capacity ∧ y.size ≤ ri.capacity) {z : File} :
    (wp Never (storeBytes f i x y p buf ri) (SafePost s i (.write f buf)) (s.putFile f (some z)) ↔
      p + buf.length < 2 ^ 32) ∧
    (p + buf.length < 2 ^ 32 →
      wp Never (storeBytes f i x y p buf ri) (fun _ t => Stays s i t) (s.putFile f (some z))) := by
  have hiff := store_fits_iff (y := y) hp0 hp hlen hs0 hsz hcap hlt hroom
  rw [wp_storeBytes_iff, wp_storeBytes_iff]
  constructor
  · rw [← hiff]
    constructor
    · intro h
      obtain ⟨hfit, y', hy', hok, _⟩ := h
      cases (update_self ..).symm.trans hy'
      exact ⟨hfit, hok⟩
    · intro h
      exact ⟨h.1, _, update_self .., h.2, fun _ he => nomatch he⟩
  · intro hN
    obtain ⟨hfit, hok⟩ := hiff.mpr hN
    refine ⟨hfit, Stays.moved h hf _ (q := s64 (p + buf.length)) ?_ (s64_range _).2 ?_ rfl
      ⟨_, update_self .., hok⟩⟩
    · rw [s64_of_lt (by omega) (by omega)]
      omega
    · exact Function.update_idem ..

/-- **A write is safe exactly when it ends below 2^32**, or is refused; then the file goes on in order. -/
theorem write_spec (h : FileInv s i) (hg : g.Correct) (hopen : OpenOn s f i) (hlen : buf.length < 2 ^ 32) :
    (SafeStep s i (.write f buf) g ↔ (BufferCall.write f buf).Within s i g) ∧
    ((BufferCall.write f buf).Within s i g →
      wp Never ((BufferCall.write f buf).exec g i) (fun _ t => Stays s i t) s) := by
  obtain ⟨x, d, de, hf, hd, hde, hi⟩ := hopen
  obtain ⟨y, ri, hy, hri, hs0, hsz, hcap, hlt⟩ := h.node
  obtain ⟨hx0, hx63⟩ := h.pos hf hd hde hi
  obtain ⟨hp0, hp⟩ := writePos_range (y := y) hx0 hx63 hs0 (by omega)
  rw [safeStep_iff_wp, BufferCall.exec, wp_write_iff hf hd hde hi hy hri, wp_write_iff hf hd hde hi hy hri,
    within_write_iff hf hy hri]
  generalize writePos x y = p at hp0 hp ⊢
  have h32 : p + buf.length < 2 ^ 32 → (toU32 (p + buf.length) : Int) = p + buf.length := toU32_of_lt (by omega)
  by_cases hgrow : toU32 (p + buf.length) > ri.capacity
  · rw [if_pos hgrow, if_pos hgrow]
    cases hgive : g ri.data (newCapacity ri (s64 (p + buf.length))) with
    | none =>
      refine ⟨⟨fun _ => .inr ⟨hgrow, rfl⟩, fun _ => ?_⟩, fun _ => ?_⟩
      · exact ⟨y, hy, ⟨ri, hri, hs0, hsz, hcap, hlt⟩, fun _ he => nomatch he⟩
      · exact Stays.moved h hf _ hp0 hp rfl rfl ⟨y, hy, ri, hri, hs0, hsz, hcap, hlt⟩
    | some nd =>
      obtain ⟨hnd, hnd32⟩ := hg _ _ _ hgive
      have hlen' : ((ri.grown nd (newCapacity ri (s64 (p + buf.length)))).data.getD []).length = nd.length :=
        grown_length hnd
      have hroom : p + buf.length < 2 ^ 32 → p + buf.length ≤ newCapacity ri (s64 (p + buf.length)) ∧
          y.size ≤ newCapacity ri (s64 (p + buf.length)) := by
        intro hN
        have hmax : (newCapacity ri (s64 (p + buf.length)) : Int) = max (p + buf.length)
            (u32 (ri.capacity * 2 + 4096) : Nat) := by
          rw [newCapacity, s64_of_lt (by omega) (by omega)]
          exact toU32_of_lt (by omega) (by have := u32_lt (ri.capacity * 2 + 4096); omega)
        have := h32 hN
        omega
      simp only [reduceCtorEq, and_false, or_false]
      exact store_spec h hf hp0 hp hlen hs0 (by omega) (by rw [hlen']; exact hnd) (by rw [hlen']; exact hnd32) hroom
  · rw [if_neg hgrow, if_neg hgrow]
    simp only [hgrow, false_and, or_false]
    refine store_spec h hf hp0 hp hlen hs0 (by omega) hcap hlt fun hN => ?_
    have := h32 hN
    omega

/-- The inode gets its length, and a buffer that is in order unless the length is negative. -/
theorem truncate_set {y : Inode} (h : FileInv s i) (hok : 0 ≤ y.size → BufferOk y) :
    (SafePost s i (.truncate y.size) 0 (s.putNode i y) ↔ 0 ≤ y.size) ∧ (0 ≤ y.size → Stays s i (s.putNode i y)) := by
  refine ⟨⟨fun hsafe => ?_, fun hpos => ?_⟩, fun hpos => Stays.putNode h (hok hpos)⟩
  · obtain ⟨y', hy', hok', _⟩ := hsafe
    cases (update_self ..).symm.trans hy'
    obtain ⟨_, _, hneg, _⟩ := hok'
    exact hneg
  · exact ⟨_, update_self .., hok hpos, fun _ he hneg => by cases he; omega⟩

/-- **A length is safe exactly when it is not negative**, or is refused. -/
theorem truncate_spec (h : FileInv s i) (hg : g.Correct) {size : Int} (hlow : -2 ^ 31 ≤ size) (hhigh : size < 2 ^ 31) :
    (SafeStep s i (.truncate size) g ↔ (BufferCall.truncate size).Within s i g) ∧
    ((BufferCall.truncate size).Within s i g →
      wp Never ((BufferCall.truncate size).exec g i) (fun _ t => Stays s i t) s) := by
  obtain ⟨y, ri, hy, hri, hs0, hsz, hcap, hlt⟩ := h.node
  have hwithin : (BufferCall.truncate size).Within s i g ↔
      0 ≤ size ∨ (toU32 size > ri.capacity ∧ g ri.data (toU32 size) = none) := by
    constructor
    · intro hw
      exact hw y ri hy hri
    · intro hw y' ri' hy' hri'
      cases hy.symm.trans hy'
      cases hri.symm.trans hri'
      exact hw
  rw [safeStep_iff_wp, BufferCall.exec, ramfsTruncateWith, wp_bind, wp_getInode hy, wp_bind,
    wp_getInode hy, hri, hwithin]
  dsimp only
  by_cases hzero : size = 0
  · subst hzero
    rw [if_pos rfl]
    have hok : BufferOk { y with priv := some { ri with data := none, capacity := 0 }, size := 0 } :=
      ⟨_, rfl, Int.le_refl _, Int.le_refl _, le_rfl, show 0 < 2 ^ 32 by decide⟩
    exact ⟨⟨fun _ => .inl (Int.le_refl _), fun _ => ⟨_, update_self .., hok, fun _ he hneg => by cases he; omega⟩⟩,
      fun _ => Stays.putNode h hok⟩
  rw [if_neg hzero]
  by_cases hgrow : toU32 size > ri.capacity
  · rw [if_pos hgrow, wp_bind, wp_bind, wp_growBuffer_gives, wp_growBuffer_gives]
    cases hgive : g ri.data (toU32 size) with
    | none =>
      refine ⟨⟨fun _ => .inr ⟨hgrow, rfl⟩, fun _ => ?_⟩, fun _ => Stays.refl h⟩
      exact ⟨y, hy, ⟨ri, hri, hs0, hsz, hcap, hlt⟩, fun _ _ _ => ⟨by decide, rfl⟩⟩
    | some nd =>
      obtain ⟨hnd, hnd32⟩ := hg _ _ _ hgive
      have hok : 0 ≤ size → BufferOk { y with priv := some (ri.grown nd (toU32 size)), size := size } := by
        intro hpos
        have h32 := toU32_of_lt hpos (by omega)
        refine ⟨_, rfl, hpos, ?_, ?_, ?_⟩
        · change size ≤ (toU32 size : Int)
          omega
        · rw [grown_length hnd]
          exact hnd
        · rw [grown_length hnd]
          exact hnd32
      simp only [reduceCtorEq, and_false, or_false]
      exact truncate_set h hok
  · rw [if_neg hgrow]
    have hok : 0 ≤ size → BufferOk { y with priv := some ri, size := size } := by
      intro hpos
      have h32 := toU32_of_lt hpos (by omega)
      exact ⟨ri, rfl, hpos, by change size ≤ (ri.capacity : Int); omega, hcap, hlt⟩
    simp only [hgrow, false_and, or_false]
    exact truncate_set h hok

/-- A read stays inside the size, and so inside the block. -/
theorem wp_read (h : FileInv s i) (hopen : OpenOn s f i) {count : Nat} (hcount : count < 2 ^ 32) :
    wp Never (ramfsRead f count) (fun _ t => t.inodes = s.inodes ∧ Stays s i t) s := by
  obtain ⟨x, d, de, hf, hd, hde, hi⟩ := hopen
  obtain ⟨y, ri, hy, hri, hs0, hsz, hcap, hlt⟩ := h.node
  obtain ⟨hp0, _⟩ := h.pos hf hd hde hi
  rw [ramfsRead, wp_bind, wp_getFile hf, wp_bind, wp_fileInode hd hde hi hy]
  dsimp only
  split
  · exact ⟨rfl, Stays.refl h⟩
  simp only [hri]
  have hoff := toU32_of_lt (n := x.pos) hp0 (by omega)
  have hend : x.pos + ((if s64 (x.pos + count) > y.size then toU32 (y.size - x.pos) else count : Nat) : Int) ≤
      y.size := by
    rw [s64_of_lt (by omega) (by omega)]
    split
    · rw [toU32_of_lt (by omega) (by omega)]
      omega
    · omega
  generalize (if s64 (x.pos + count) > y.size then toU32 (y.size - x.pos) else count) = n at hend ⊢
  cases hdata : ri.data with
  | none => exact ⟨rfl, Stays.refl h⟩
  | some data =>
    rw [hdata, Option.getD_some] at hcap hlt
    dsimp only
    rw [if_pos (by omega), wp_bind, wp_setFile, wp_pure]
    refine ⟨rfl, Stays.moved h hf _ ?_ (s64_range (x.pos + n)).2 rfl rfl h.buffer⟩
    rw [s64_of_lt (by omega) (by omega)]
    omega

theorem wp_lseek (h : FileInv s i) (hopen : OpenOn s f i) (offset : Int) (hoff : offset < 2 ^ 63) (whence : Nat) :
    wp Never (vfsLseek f offset whence) (fun _ t => t.inodes = s.inodes ∧ Stays s i t) s := by
  obtain ⟨x, d, de, hf, hd, hde, hi⟩ := hopen
  obtain ⟨y, hy, _⟩ := h.buffer
  have htarget : wp Never (seekTarget x offset whence) (fun o t => t = s ∧ ∀ p ∈ o, p < 2 ^ 63) s := by
    unfold seekTarget
    split
    · exact ⟨rfl, fun p hp => by cases hp; exact hoff⟩
    · exact ⟨rfl, fun p hp => by cases hp; exact (s64_range _).2⟩
    · exact wp_then ((wp_fileInode hd hde hi hy).mpr ⟨rfl, fun p hp => by cases hp; exact (s64_range _).2⟩)
    · exact ⟨rfl, fun p hp => by cases hp⟩
  rw [vfsLseek, wp_bind, wp_getFile hf, wp_bind, wp_deref_some hd, wp_bind, wp_getDentry hde, wp_bind]
  refine wp_imp htarget fun o t ht => ?_
  obtain ⟨rfl, hrange⟩ := ht
  cases o with
  | none => exact ⟨rfl, Stays.refl h⟩
  | some p =>
    have hp := hrange p rfl
    refine ⟨rfl, Stays.moved h hf _ ?_ ?_ rfl rfl h.buffer⟩
    · split <;> omega
    · split <;> omega

/-! ## 6. Sequences of calls -/

/-- A call that only moves a position is safe. -/
theorem safe_of_moved {c : BufferCall} (h : FileInv s i) (hc : ∀ size, c ≠ .truncate size)
    (hexec : wp Never (c.exec g i) (fun _ t => t.inodes = s.inodes ∧ Stays s i t) s) :
    SafeStep s i c g ∧ wp Never (c.exec g i) (fun _ t => Stays s i t) s := by
  obtain ⟨y, hy, hok⟩ := h.buffer
  refine ⟨(safeStep_iff_wp c).mpr (wp_imp hexec fun r t ht => ?_), wp_imp hexec fun r t ht => ht.2⟩
  exact ⟨y, by rw [ht.1, hy], hok, fun size he => absurd he (hc size)⟩

/-- **One call**: it is safe exactly under the condition, and then the file is in order again. -/
theorem step_safe_iff (h : FileInv s i) (hg : g.Correct) {c : BufferCall} (hc : c.Fits s i) :
    (SafeStep s i c g ↔ c.Within s i g) ∧ (c.Within s i g → wp Never (c.exec g i) (fun _ t => Stays s i t) s) := by
  cases c with
  | read f count =>
    have hread := safe_of_moved (g := g) (c := .read f count) h (fun _ he => nomatch he)
      (wp_seq (wp_read h hc.1 hc.2) fun _ _ ht => ht)
    exact ⟨iff_of_true hread.1 trivial, fun _ => hread.2⟩
  | write f buf => exact write_spec h hg hc.1 hc.2
  | lseek f offset whence =>
    have hseek := safe_of_moved (g := g) (c := .lseek f offset whence) h (fun _ he => nomatch he)
      (wp_lseek h hc.1 offset (by have := hc.2; omega) whence)
    exact ⟨iff_of_true hseek.1 trivial, fun _ => hseek.2⟩
  | truncate size => exact truncate_spec h hg hc.1 hc.2

/-- Every call of the sequence is safe, one after the other. -/
def SafeRun (s : Fs) (i : Nat) : List (BufferCall × Gives) → Prop
  | [] => True
  | (c, g) :: es => SafeStep s i c g ∧ ∀ r t, c.exec g i s = .ok (r, t) → SafeRun t i es

/-- Every call of the sequence meets the condition where it is made. -/
def WithinRun (s : Fs) (i : Nat) : List (BufferCall × Gives) → Prop
  | [] => True
  | (c, g) :: es => c.Within s i g ∧ ∀ r t, c.exec g i s = .ok (r, t) → WithinRun t i es

theorem BufferCall.Fits.stays {c : BufferCall} (hc : c.Fits s i) (ht : Stays s i t) : c.Fits t i := by
  cases c with
  | read f count => exact ⟨ht.isOpen f hc.1, hc.2⟩
  | write f buf => exact ⟨ht.isOpen f hc.1, hc.2⟩
  | lseek f offset whence => exact ⟨ht.isOpen f hc.1, hc.2⟩
  | truncate size => exact hc

end Steps

/-- **ramfs stays inside the file's buffer**: from a file in order, for any sequence of reads, writes, seeks and
    lengths over its open files, and any `krealloc` that keeps its contract, every call is safe exactly when every
    write ends below 2^32 and no length is negative, or the block is refused. -/
theorem buffer_safe_iff {s : Fs} {i : Nat} (h : FileInv s i) (es : List (BufferCall × Gives))
    (hes : ∀ e ∈ es, e.1.Fits s i ∧ e.2.Correct) : SafeRun s i es ↔ WithinRun s i es := by
  induction es generalizing s with
  | nil => exact Iff.rfl
  | cons e es ih =>
    obtain ⟨c, g⟩ := e
    obtain ⟨hc, hg⟩ := hes (c, g) (.head _)
    obtain ⟨hiff, hstays⟩ := step_safe_iff h hg hc
    have hrest : c.Within s i g → ∀ r t, c.exec g i s = .ok (r, t) → (SafeRun t i es ↔ WithinRun t i es) := by
      intro hw r t hexec
      have ht := wp_ok (hstays hw) hexec
      exact ih ht.inv fun e he => ⟨(hes e (.tail _ he)).1.stays ht, (hes e (.tail _ he)).2⟩
    constructor
    · intro hsafe
      have hw := hiff.mp hsafe.1
      exact ⟨hw, fun r t hexec => (hrest hw r t hexec).mp (hsafe.2 r t hexec)⟩
    · intro hwithin
      exact ⟨hiff.mpr hwithin.1, fun r t hexec => (hrest hwithin.1 r t hexec).mpr (hwithin.2 r t hexec)⟩

/-- A heap that gives out blocks of exactly the size asked for, up to 64 KiB. -/
def smallBlocks : Gives := fun data n =>
  if n ≤ 65536 then some ((data.getD []).take n ++ List.replicate (n - (data.getD []).length) 0) else none

theorem smallBlocks_correct : smallBlocks.Correct := by
  intro data n nd h
  unfold smallBlocks at h
  split at h
  · cases h
    simp only [List.length_append, List.length_take, List.length_replicate]
    omega
  · cases h

/-- The file `/a`, empty and open for reading and writing. -/
def openTree : Fs :=
  { fileTree with
    files := fun f => if f = 0 then some ⟨some 1, some .ramfsFile, 0, O_RDWR, 1⟩ else none
    nextFile := 1 }

theorem openTree_inv : FileInv openTree 1 := by
  refine ⟨⟨_, rfl, ⟨none, 0, 3, none⟩, rfl, Int.le_refl _, Int.le_refl _, le_rfl, by decide⟩, ?_⟩
  intro f x d de hf hd hde hi
  have hf : (if f = 0 then some ⟨some 1, some .ramfsFile, 0, O_RDWR, 1⟩ else none : Option File) = some x := hf
  split at hf
  · cases hf
    exact ⟨by decide, by decide⟩
  · cases hf

theorem openTree_open : OpenOn openTree 0 1 := ⟨_, 1, _, rfl, rfl, rfl, rfl⟩

/-- Three bytes are written, the position moves back, the file is cut and read. -/
theorem buffer_safe_written : SafeRun openTree 1
    [(.write 0 [1, 2, 3], smallBlocks), (.lseek 0 (-3) 1, smallBlocks), (.truncate 2, smallBlocks),
      (.read 0 10, smallBlocks)] := by
  refine (buffer_safe_iff openTree_inv _ fun e he => ?_).mpr
    ⟨?_, fun _ _ _ => ⟨trivial, fun _ _ _ => ⟨?_, fun _ _ _ => ⟨trivial, fun _ _ _ => trivial⟩⟩⟩⟩
  · simp only [List.mem_cons, List.not_mem_nil, or_false] at he
    rcases he with rfl | rfl | rfl | rfl
    · exact ⟨⟨openTree_open, by decide⟩, smallBlocks_correct⟩
    · exact ⟨⟨openTree_open, by decide, by decide⟩, smallBlocks_correct⟩
    · exact ⟨⟨by decide, by decide⟩, smallBlocks_correct⟩
    · exact ⟨⟨openTree_open, by decide⟩, smallBlocks_correct⟩
  · intro x y ri hx hy hri
    cases hx
    cases hy
    cases hri
    exact .inl (by decide)
  · exact fun _ _ _ _ => .inl (by decide)

/-- The calls of a sequence, one after the other. -/
def execAll (i : Nat) : List (BufferCall × Gives) → M Unit
  | [] => pure ()
  | (c, g) :: es => do
    let _ ← c.exec g i
    execAll i es

/-- After a sequence of safe calls the buffer is in order. -/
theorem SafeRun.ends {es : List (BufferCall × Gives)} (h : ∃ y, s.inodes i = some y ∧ BufferOk y)
    (hsafe : SafeRun s i es) (hexec : execAll i es s = .ok ((), t)) : ∃ y, t.inodes i = some y ∧ BufferOk y := by
  induction es generalizing s with
  | nil =>
    cases hexec
    exact h
  | cons e es ih =>
    obtain ⟨c, g⟩ := e
    obtain ⟨⟨r, u, y, hu, hy, hok, _⟩, hrest⟩ := hsafe
    refine ih ⟨y, hy, hok⟩ (hrest r u hu) ?_
    have hsplit : execAll i ((c, g) :: es) s = execAll i es u := by
      simp only [execAll, Bind.bind, StateT.bind, Except.bind, hu]
    rw [← hsplit, hexec]

/-- Seek to 2^32 in three steps and write one byte. -/
def writeBehind : List (BufferCall × Gives) :=
  [(.lseek 0 2147483647 0, smallBlocks), (.lseek 0 2147483647 1, smallBlocks), (.lseek 0 2 1, smallBlocks),
    (.write 0 [7], smallBlocks)]

/-- **A byte written at 2^32** makes a file of 2^32 + 1 bytes with a buffer of one; reading at 1 then leaves the
    block. -/
theorem written_behind_buffer :
    (execAll 1 writeBehind openTree).toOption.map (fun r => (r.2.inodes 1).map fun y =>
      (y.size, y.priv.map RamfsInode.capacity)) = some (some (4294967297, some 1)) ∧
    (execAll 1 (writeBehind ++ [(.lseek 0 1 0, smallBlocks), (.read 0 1, smallBlocks)]) openTree).toOption.isNone =
      true ∧
    ¬ SafeRun openTree 1 writeBehind := by
  have hend : (execAll 1 writeBehind openTree).toOption.map (fun r => (r.2.inodes 1).map fun y =>
      (y.size, y.priv.map RamfsInode.capacity)) = some (some (4294967297, some 1)) := by
    decide +kernel
  refine ⟨hend, by decide +kernel, fun hsafe => ?_⟩
  cases hexec : execAll 1 writeBehind openTree with
  | error e =>
    rw [hexec] at hend
    cases hend
  | ok r =>
    obtain ⟨⟨⟩, t⟩ := r
    obtain ⟨y, hy, ri, hri, _, hsz, _⟩ := hsafe.ends openTree_inv.buffer hexec
    rw [hexec] at hend
    have hval : (t.inodes 1).map (fun y => (y.size, y.priv.map RamfsInode.capacity)) = some (4294967297, some 1) :=
      Option.some.inj hend
    rw [hy, Option.map_some, hri] at hval
    obtain ⟨hsize, hpriv⟩ := Prod.mk.inj (Option.some.inj hval)
    have hcap : ri.capacity = 1 := Option.some.inj hpriv
    rw [hsize, hcap] at hsz
    exact absurd hsz (by decide)

end OreUnix.Vfs
