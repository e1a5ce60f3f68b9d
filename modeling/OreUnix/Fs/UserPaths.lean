/-
  Subject: THE BUFFERS A USER'S PATH GOES THROUGH: the copy of the system call, the component of `vfs_lookup` and the
  name of `vfs_lookup_parent`.

  Each is a buffer on the stack that is filled with `strncpy(.., size - 1)` or byte by byte, and none of them is
  cleared: what the bytes were before is part of the input. The copy has 256 bytes, the mount point of SYS_mount 128;
  only the calls that make, remove or rename an entry go through `vfs_lookup_parent`. Nothing on the way returns an
  error for a string that is too long.

  * `user_path_iff` -- the path is handled in bounds and as it was given just when it is shorter than what is copied, or
    just as long and the byte behind it happened to be 0, in the name's buffer as well if it is used and the path fills
    it.
-/
import Mathlib.Data.List.TakeWhile
import OreUnix.Fs.Vfs

namespace OreUnix.Vfs

variable {old oldName buf : Nat → UInt8} {u path path' src : Str} {n size : Nat} {parent : Bool}

/-- `strncpy` of a string into a buffer with the contents `old`. -/
def strncpy (old : Nat → UInt8) (src : Str) (n j : Nat) : UInt8 := if j < n then src.getD j 0 else old j

/-- `strncpy_from_user(path, .., sizeof(path) - 1)`, for a buffer of `size` bytes. -/
def kernelCopy (size : Nat) (old : Nat → UInt8) (u : Str) : Nat → UInt8 := strncpy old u (size - 1)

/-- There is a NUL among the first `n` bytes. -/
def EndsWithin (buf : Nat → UInt8) (n : Nat) : Prop := ∃ j < n, buf j = 0

/-- The buffer is read as the string `path`. -/
structure Spells (buf : Nat → UInt8) (path : Str) : Prop where
  bytes : ∀ j < path.length, path[j]? = some (buf j)
  nonzero : 0 ∉ path
  nul : buf path.length = 0

/-- What `vfs_lookup_parent` copies into the name. -/
def lastPart (path : Str) : Str := (splitLast path).elim path Prod.snd

/-- **The path is handled in bounds**: the copy ends in its buffer, no part between slashes is longer than the
    component's buffer, the name ends in its own if the call goes through `vfs_lookup_parent`, and the path that is
    looked up is the user's. -/
structure InBounds (size : Nat) (parent : Bool) (u : Str) (old oldName : Nat → UInt8) : Prop where
  copy : EndsWithin (kernelCopy size old u) size
  component : ∀ path, Spells (kernelCopy size old u) path →
    ∀ pre c post, path = pre ++ c ++ post → slash ∉ c → c.length < 256
  name : parent = true → ∀ path, Spells (kernelCopy size old u) path →
    EndsWithin (strncpy oldName (lastPart path) nameMax) 256
  same : ∀ path, Spells (kernelCopy size old u) path → path = u

/-- The string ends before the buffer does, if the bytes nobody has written are as they should be. -/
def FitsBuffers (size : Nat) (parent : Bool) (u : Str) (old oldName : Nat → UInt8) : Prop :=
  u.length < size - 1 ∨ u.length = size - 1 ∧ old (size - 1) = 0 ∧
    (parent = true → u.length = 255 → slash ∈ u ∨ oldName 255 = 0)

theorem Spells.length_le (h : Spells buf path) (h' : Spells buf path') : path.length ≤ path'.length := by
  refine Nat.not_lt.mp fun hlt => h.nonzero ?_
  have hbyte := h.bytes _ hlt
  rw [h'.nul] at hbyte
  exact List.mem_of_getElem? hbyte

/-- A buffer is read in one way. -/
theorem Spells.unique (h : Spells buf path) (h' : Spells buf path') : path = path' := by
  have hlen : path.length = path'.length := Nat.le_antisymm (h.length_le h') (h'.length_le h)
  refine List.ext_getElem? fun j => ?_
  by_cases hj : j < path.length
  · rw [h.bytes j hj, h'.bytes j (hlen ▸ hj)]
  · rw [List.getElem?_eq_none (by omega), List.getElem?_eq_none (by omega)]

theorem strncpy_lt {j : Nat} (hj : j < src.length) (hn : j < n) : src[j]? = some (strncpy old src n j) := by
  simp [strncpy, hn, hj]

theorem strncpy_ne_zero (hz : 0 ∉ src) {j : Nat} (hj : j < src.length) (hn : j < n) : strncpy old src n j ≠ 0 := by
  intro heq
  have hbyte := @strncpy_lt old src n j hj hn
  rw [heq] at hbyte
  exact hz (List.mem_of_getElem? hbyte)

theorem strncpy_short (h : src.length < n) : strncpy old src n src.length = 0 := by
  simp [strncpy, h]

/-- The copy of a string that leaves the last byte as it was. -/
theorem spells_take (hz : 0 ∉ u) (hlen : size - 1 ≤ u.length) (hold : old (size - 1) = 0) :
    Spells (kernelCopy size old u) (u.take (size - 1)) := by
  have htake : (u.take (size - 1)).length = size - 1 := List.length_take_of_le hlen
  refine ⟨fun j hj => ?_, fun hmem => hz (List.mem_of_mem_take hmem), ?_⟩
  · rw [htake] at hj
    rw [List.getElem?_take_of_lt hj]
    exact strncpy_lt (hj.trans_le hlen) hj
  · rw [htake, kernelCopy, strncpy, if_neg (Nat.lt_irrefl _)]
    exact hold

theorem spells_short (hz : 0 ∉ u) (hlen : u.length < size - 1) : Spells (kernelCopy size old u) u :=
  ⟨fun _ hj => strncpy_lt hj (hj.trans hlen), hz, strncpy_short hlen⟩

/-- A NUL at the end of a buffer that the string fills was there before. -/
theorem old_of_endsWithin (hz : 0 ∉ src) (hlen : n ≤ src.length) (h : EndsWithin (strncpy old src n) (n + 1)) :
    old n = 0 := by
  obtain ⟨j, hj, hnul⟩ := h
  by_cases hj' : j < n
  · exact absurd hnul (strncpy_ne_zero hz (hj'.trans_le hlen) hj')
  · obtain rfl : j = n := by omega
    rwa [strncpy, if_neg hj'] at hnul

theorem lastPart_length_le (path : Str) : (lastPart path).length ≤ path.length ∧
    (slash ∈ path → (lastPart path).length < path.length) := by
  unfold lastPart splitLast
  by_cases hmem : slash ∈ path
  · have hlt : (path.reverse.takeWhile (· != slash)).length < path.length := by
      refine Nat.lt_of_le_of_ne ?_ fun heq => ?_
      · simpa using (List.takeWhile_prefix (l := path.reverse) (· != slash)).length_le
      · have hall := (List.takeWhile_prefix (l := path.reverse) (· != slash)).eq_of_length (by simpa using heq)
        have hne := List.mem_takeWhile_imp (hall ▸ List.mem_reverse.mpr hmem)
        simp at hne
    rw [if_pos hmem]
    simp only [Option.elim_some, List.length_reverse]
    exact ⟨Nat.le_of_lt hlt, fun _ => hlt⟩
  · rw [if_neg hmem]
    exact ⟨le_rfl, fun h => absurd h hmem⟩

theorem lastPart_of_notMem (h : slash ∉ path) : lastPart path = path := by
  rw [lastPart, splitLast, if_neg h]
  rfl

theorem inBounds_of_spells (hsize : size ≤ 256) (hs : Spells (kernelCopy size old u) u) (hlen : u.length < size)
    (hname : parent = true → EndsWithin (strncpy oldName (lastPart u) nameMax) 256) :
    InBounds size parent u old oldName := by
  refine ⟨⟨_, hlen, hs.nul⟩, fun path hp pre c post hpath _ => ?_, fun h path hp => hp.unique hs ▸ hname h,
    fun path hp => hp.unique hs⟩
  have hpieces := congrArg List.length ((hp.unique hs).symm.trans hpath)
  simp only [List.length_append] at hpieces
  omega

/-- A name that does not fill its buffer ends in it. -/
theorem name_endsWithin (h : (lastPart u).length < 255) : EndsWithin (strncpy oldName (lastPart u) nameMax) 256 :=
  ⟨_, by omega, strncpy_short h⟩

/-- **When a user's path is handled in bounds**, in a buffer of up to 256 bytes. -/
theorem user_path_iff (size : Nat) (h0 : 0 < size) (hsize : size ≤ 256) (parent : Bool) (u : Str) (hz : 0 ∉ u)
    (old oldName : Nat → UInt8) : InBounds size parent u old oldName ↔ FitsBuffers size parent u old oldName := by
  constructor
  · intro h
    by_cases hshort : u.length < size - 1
    · exact .inl hshort
    have hlen : size - 1 ≤ u.length := Nat.not_lt.mp hshort
    have hold : old (size - 1) = 0 := old_of_endsWithin hz hlen (by rw [Nat.sub_add_cancel h0]; exact h.copy)
    have hs := spells_take hz hlen hold
    have hsame := h.same _ hs
    have hexact : u.length = size - 1 := by
      have := congrArg List.length hsame
      simp only [List.length_take] at this
      omega
    refine .inr ⟨hexact, hold, fun hparent hfull => or_iff_not_imp_left.mpr fun hslash => ?_⟩
    -- the whole path is the name, and fills its buffer
    rw [hsame] at hs
    have hname := h.name hparent u hs
    rw [lastPart_of_notMem hslash] at hname
    exact old_of_endsWithin hz (Nat.le_of_eq hfull.symm) hname
  · have hpart := lastPart_length_le u
    rintro (hshort | ⟨hexact, hold, hname⟩)
    · exact inBounds_of_spells hsize (spells_short hz hshort) (by omega) fun _ => name_endsWithin (by omega)
    · have hs := spells_take hz (Nat.le_of_eq hexact.symm) hold
      rw [List.take_of_length_le (Nat.le_of_eq hexact)] at hs
      refine inBounds_of_spells hsize hs (by omega) fun hparent => ?_
      by_cases hfull : u.length = 255
      · rcases hname hparent hfull with hslash | hbyte
        · exact name_endsWithin (by have := hpart.2 hslash; omega)
        · exact ⟨255, by decide, hbyte⟩
      · exact name_endsWithin (by omega)

/-- The mount point `/a`, in the buffer of SYS_mount. -/
theorem user_path_root : 0 ∉ ([47, 97] : Str) ∧ InBounds 128 false [47, 97] (fun _ => 1) fun _ => 1 :=
  ⟨by decide, (user_path_iff 128 (by decide) (by decide) false [47, 97] (by decide) _ _).mpr (.inl (by decide))⟩

/-- **A path of 300 bytes** is looked up as its first 255. -/
theorem long_path_cut : Spells (kernelCopy 256 (fun _ => 0) (List.replicate 300 97)) (List.replicate 255 97) ∧
    ¬ InBounds 256 false (List.replicate 300 97) (fun _ => 0) fun _ => 0 := by
  have hz : (0 : UInt8) ∉ List.replicate 300 (97 : UInt8) := fun h => by cases List.eq_of_mem_replicate h
  have hlen : (List.replicate 300 (97 : UInt8)).length = 300 := List.length_replicate
  have hs := @spells_take (fun _ => 0) _ 256 hz (by omega) rfl
  rw [List.take_replicate] at hs
  refine ⟨hs, fun h => ?_⟩
  have heq := congrArg List.length (h.same _ hs)
  rw [hlen, List.length_replicate] at heq
  omega

end OreUnix.Vfs
