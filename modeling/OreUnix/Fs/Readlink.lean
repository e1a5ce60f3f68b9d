/-
  Subject: READLINK AND ITS BUFFERS: the lengths of `ramfs_readlink`, byte by byte.

  `ramfs_readlink` copies `len` bytes from the target on and puts a NUL behind them, where `len` is a `size_t`.
  SYS_readlink gives it a buffer of 256 bytes and the size MIN(arg3, 255), and copies as many bytes as it returns to
  the caller; `vfs_lookup` gives it a buffer of PATH_MAX bytes and that size.

  * `readlink_respects_iff` -- no buffer is left and the caller gets a beginning of the target just when the size is
    not 0; with the size 0 the length is 2^32 - 1 (`readlink_zero_overruns`).
-/
import OreUnix.Fs.Ramfs

namespace OreUnix.Vfs

variable {s : Fs} {target : Str} {behind : Nat → UInt8} {size sz j : Nat}

/-- The memory from the target on: its bytes, its NUL, and what is behind. -/
def targetByte (target : Str) (behind : Nat → UInt8) (j : Nat) : UInt8 :=
  if j = target.length then 0 else target.getD j (behind j)

/-- `len`. -/
def linkLength (strlen sz : Nat) : Nat := if strlen ≥ sz then sub32 sz 1 else strlen

/-- What `ramfs_readlink` with the size `sz` writes into its buffer; none where it writes nothing. -/
def linkBuffer (target : Str) (behind : Nat → UInt8) (sz j : Nat) : Option UInt8 :=
  if j < linkLength target.length sz then some (targetByte target behind j)
  else if j = linkLength target.length sz then some 0
  else none

/-- `(int)len`. -/
def linkResult (target : Str) (sz : Nat) : Int :=
  if linkLength target.length sz < 2 ^ 31 then linkLength target.length sz else linkLength target.length sz - 2 ^ 32

/-- The size SYS_readlink passes on. -/
def syscallSize (size : Nat) : Nat := min size 255

/-- **Readlink keeps to its buffers.** -/
structure RespectsBuffers (target : Str) (behind : Nat → UInt8) (size : Nat) : Prop where
  kernel : ∀ j, linkBuffer target behind (syscallSize size) j ≠ none → j < syscallSize size
  result : linkResult target (syscallSize size) < 0 ∨ linkResult target (syscallSize size) ≤ size
  user : ∀ j : Nat, j < linkResult target (syscallSize size) →
    j < size ∧ target[j]? ≠ none ∧ linkBuffer target behind (syscallSize size) j = target[j]?
  lookup : ∃ k < pathMax, linkBuffer target behind pathMax k = some 0 ∧
    (∀ j < k, linkBuffer target behind pathMax j = target[j]?) ∧
      ∀ j, linkBuffer target behind pathMax j ≠ none → j < pathMax

theorem linkLength_eq (h : sz ≠ 0) (hsz : sz < 2 ^ 32) (n : Nat) : linkLength n sz = min n (sz - 1) := by
  unfold linkLength
  split
  · rw [sub32_of_le (by omega) hsz]
    omega
  · omega

theorem linkLength_zero (n : Nat) : linkLength n 0 = 2 ^ 32 - 1 := by
  rw [linkLength, if_pos (Nat.zero_le n)]
  decide

/-- The buffer holds a beginning of the target and a NUL. -/
theorem linkBuffer_spec (h : sz ≠ 0) (hsz : sz < 2 ^ 32) (target : Str) (behind : Nat → UInt8) :
    (∀ j < linkLength target.length sz, target[j]? ≠ none ∧ linkBuffer target behind sz j = target[j]?) ∧
    linkBuffer target behind sz (linkLength target.length sz) = some 0 ∧
    ∀ j, linkBuffer target behind sz j ≠ none → j < sz := by
  have hlen := linkLength_eq h hsz target.length
  refine ⟨fun j hj => ?_, ?_, fun j hj => ?_⟩
  · have hlt : j < target.length := by omega
    have hne : j ≠ target.length := by omega
    simp [linkBuffer, targetByte, hj, hne, hlt]
  · simp [linkBuffer]
  · by_contra hge
    refine hj ?_
    rw [linkBuffer, if_neg (by omega), if_neg (by omega)]

/-- **When readlink keeps to its buffers.** -/
theorem readlink_respects_iff (target : Str) (behind : Nat → UInt8) (size : Nat) :
    RespectsBuffers target behind size ↔ size ≠ 0 := by
  constructor
  · rintro h rfl
    have hwritten : linkBuffer target behind 0 0 ≠ none := by
      rw [linkBuffer, linkLength_zero, if_pos (by decide)]
      exact Option.some_ne_none _
    exact absurd (h.kernel 0 hwritten) (Nat.lt_irrefl 0)
  · intro hsize
    have hpos : syscallSize size ≠ 0 := by
      unfold syscallSize
      omega
    have hle : syscallSize size ≤ size ∧ syscallSize size ≤ 255 := by
      unfold syscallSize
      omega
    obtain ⟨hbytes, _, hin⟩ := linkBuffer_spec hpos (by omega) target behind
    have hlen := linkLength_eq hpos (by omega) target.length
    have hres : linkResult target (syscallSize size) = linkLength target.length (syscallSize size) :=
      if_pos (by omega)
    have hmax : pathMax = 4096 := rfl
    obtain ⟨hpath, hnul, hpathIn⟩ := @linkBuffer_spec pathMax (by omega) (by omega) target behind
    have hpathLen := @linkLength_eq pathMax (by omega) (by omega) target.length
    have hlookup : linkLength target.length pathMax < pathMax := by omega
    refine ⟨hin, .inr (by omega), fun j hj => ?_, _, hlookup, hnul, fun j hj => ?_, hpathIn⟩
    · exact ⟨by omega, hbytes j (by omega)⟩
    · exact (hpath j hj).2

/-- The bytes delivered by the model of the file system are those of the buffer. -/
theorem ramfsReadlink_eq {i : Nat} {y : Inode} {ri : RamfsInode} (hy : s.inodes i = some y) (hri : y.priv = some ri)
    (ht : ri.symlinkTarget = some target) (hsz : sz < 2 ^ 32) : ramfsReadlink i sz s =
      if sz = 0 then .error .overflow else .ok (.ok (target.take (linkLength target.length sz)), s) := by
  have hread : ramfsReadlink i sz s =
      (if sz = 0 then throw .overflow else pure (.ok (target.take (sz - 1))) : M (Except Int Str)) s := by
    simp [ramfsReadlink, getInode, bind, StateT.bind, Except.bind, hy, hri, ht]
  rw [hread]
  split
  · rfl
  · rename_i hpos
    rw [linkLength_eq hpos hsz, Nat.min_comm, ← List.take_eq_take_min]
    rfl

/-- **The size 0**: a byte is written into a buffer of none, and the memory behind it up to the end. -/
theorem readlink_zero_overruns : ¬ RespectsBuffers [97] (fun _ => 0) 0 ∧
    linkBuffer [97] (fun _ => 0) (syscallSize 0) 4096 = some 0 := by
  refine ⟨fun h => Nat.lt_irrefl 0 (h.kernel 0 ?_), ?_⟩ <;> decide +kernel

end OreUnix.Vfs
