/-
  Subject: NAMES PERSIST: over runs of open, read, write, lseek, stat, lookup and close, what a path names does not
  change.

  * `names_persist` -- a path that `vfs_lookup` finds is found again after every later call of the run, at the same
    dentry with the same inode; a write leaves its bytes in the file and a close does not touch them; an open that
    fails leaves the tree as it was;
  * `created_file_is_lost` -- the run that creates, writes and closes a file: the name is gone.

  The last close of a file opened with O_CREAT gives back the reference that keeps the name in its directory, and so
  does an open with O_CREAT that fails after it has found the name (O_EXCL, a directory opened for writing, no memory
  for the file). `Admissible` leaves these out, and the arguments for which the calls leave their buffers.
-/
import OreUnix.Fs.CallSpec
import OreUnix.Lib.Run

namespace OreUnix.Vfs

open Function (update)
open Wp Lts

variable {s : Fs}
variable {d fuel i : Nat} {path : Str} {t : Fs} {y : Inode}

/-! ## 1. Calls -/

inductive Call where
  | open (path : Str) (flags mode : Nat)
  | read (f count : Nat) (dev : DevResult)
  | write (f : Nat) (buf : List UInt8) (dev : DevResult)
  | lseek (f : Nat) (offset : Int) (whence : Nat)
  | stat (path : Str)
  | lookup (path : Str)
  | close (f : Nat)

/-- The call, its result dropped. -/
def Call.exec (fuel : Nat) : Call → M Unit
  | .open path flags mode => do let _ ← vfsOpen fuel path flags mode
  | .read f count dev => do let _ ← vfsRead f count dev
  | .write f buf dev => do let _ ← vfsWrite f buf dev
  | .lseek f offset whence => do let _ ← vfsLseek f offset whence
  | .stat path => do let _ ← vfsStat fuel path
  | .lookup path => do let _ ← vfsLookup fuel path none
  | .close f => vfsClose f

/-- A write within the window of the heap. -/
def FitsHeap (s : Fs) (x : File) (buf : List UInt8) : Prop :=
  ∀ d de i y, x.dentry = some d → s.dentries d = some de → de.inode = some i →
    s.inodes i = some y → writePos x y + buf.length ≤ kernelHeapSize

/-- The calls that keep names: paths fit their buffers and files are open; reads and writes stay within the heap; no
    name that exists is opened with O_CREAT in vain; and the last close of a file is of one opened without O_CREAT. -/
def Admissible (s : Fs) : Call → Prop
  | .open path flags _ => ShortPath path ∧ (hasFlag flags O_CREAT = true → CreateOk s path flags)
  | .read f count _ => (∃ x, s.files f = some x) ∧ count ≤ kernelHeapSize
  | .write f buf _ => ∃ x, s.files f = some x ∧ FitsHeap s x buf
  | .lseek f _ _ => ∃ x, s.files f = some x
  | .stat path => ShortPath path
  | .lookup path => ShortPath path
  | .close f => ∃ x, s.files f = some x ∧ (x.refcount = 1 → hasFlag x.flags O_CREAT = false)

/-- An admissible call and the outcomes of its allocations. -/
def Step (s : Fs) (e : Call × List Bool) (t : Fs) : Prop :=
  Admissible (s.aside s.nextDentry e.2) e.1 ∧
    ∃ fuel, e.1.exec fuel (s.aside s.nextDentry e.2) = .ok ((), t)

theorem wp_exec (h : Inv s) (fuel : Nat) {c : Call} (hc : Admissible s c) :
    wp NoCrash (c.exec fuel) (fun _ t => Kept s t) s := by
  cases c with
  | «open» path flags mode =>
    rw [Call.exec, wp_bind]
    exact wp_imp (wp_vfsOpen h fuel hc.1 hc.2 mode) fun _ _ ho => ho.1
  | read f count dev =>
    obtain ⟨⟨x, hx⟩, hcount⟩ := hc
    rw [Call.exec, wp_bind]
    exact wp_vfsRead h hx hcount dev
  | write f buf dev =>
    obtain ⟨x, hx, hfit⟩ := hc
    rw [Call.exec, wp_bind]
    exact wp_vfsWrite h hx hfit dev
  | lseek f offset whence =>
    obtain ⟨x, hx⟩ := hc
    rw [Call.exec, wp_bind]
    exact wp_vfsLseek h hx offset whence
  | stat path =>
    rw [Call.exec, wp_bind]
    exact wp_vfsStat h fuel hc
  | lookup path =>
    rw [Call.exec, wp_bind]
    exact wp_vfsLookup_kept h fuel hc
  | close f =>
    obtain ⟨x, hx, hlast⟩ := hc
    exact wp_imp (wp_vfsClose h hx hlast) fun _ _ hk => hk.1

theorem step_kept {e : Call × List Bool} (h : Inv s) (hs : Step s e t) : Kept s t := by
  obtain ⟨hadm, fuel, hexec⟩ := hs
  have hk := wp_ok (wp_exec (h.aside le_rfl e.2) fuel hadm) hexec
  exact ⟨hk.1, (extends_aside s s.nextDentry e.2).1.trans hk.2⟩

theorem run_kept {es : List (Call × List Bool)} (h : Inv s) (hr : Run Step s es t) : Kept s t := by
  refine hr.invariant (I := Kept s) (fun u e v hu hstep => ?_) (Kept.refl h)
  have hk := step_kept hu.1 hstep
  exact ⟨hk.1, hu.2.trans hk.2⟩

/-! ## 2. The theorem -/

/-- A lookup that succeeds says what the tree says, and the tree never holds a bare name. -/
theorem lookup_resolves (h : Inv s) (hp : ShortPath path) (hl : vfsLookup fuel path none s = .ok (.ok d, t)) :
    resolve s fuel path none = some d ∧ ∃ x i, s.dentries d = some x ∧ x.inode = some i := by
  obtain ⟨hr, _, x, hx⟩ := wp_ok (wp_vfsLookup_none h.toTreeOk fuel hp) hl
  obtain ⟨i, _, hi, _⟩ := h.inode hx
  exact ⟨hr, x, i, hx, hi⟩

theorem resolves_lookup (h : Inv s) (hp : ShortPath path) (hr : resolve s fuel path none = some d) :
    ∃ t, vfsLookup fuel path none s = .ok (.ok d, t) := by
  rcases (wp_iff _).mp (wp_vfsLookup_none h.toTreeOk fuel hp) with
    ⟨r, t, hl, hpost⟩ | ⟨e, _, hstuck⟩
  · cases r with
    | error e => cases hr.symm.trans hpost.1
    | ok d' =>
      cases hr.symm.trans hpost.1
      exact ⟨t, hl⟩
  · cases hr.symm.trans hstuck.2

/-- The bytes of an inode from `pos` on. -/
def bytesAt (s : Fs) (i pos n : Nat) : Option (List UInt8) := do
  let y ← s.inodes i
  let ri ← y.priv
  some (((ri.data.getD []).drop pos).take n)

theorem write_bytes (h : Inv s) {f : Nat} {x : File} {de : Dentry} {buf : List UInt8} {dev : DevResult} {n : Int}
    (hf : s.files f = some x) (ho : x.fops = some .ramfsFile) (hd : x.dentry = some d) (hde : s.dentries d = some de)
    (hi : de.inode = some i) (hy : s.inodes i = some y) (hfit : FitsHeap s x buf)
    (hw : vfsWrite f buf dev s = .ok (n, t)) (hn : 0 ≤ n) :
    n = buf.length ∧ bytesAt t i (writePos x y).toNat buf.length = some buf := by
  have hspec : wp NoCrash (vfsWrite f buf dev)
      (fun n t => n = -EBADF ∨ Written s i (writePos x y).toNat buf n t) s := by
    rw [vfsWrite, wp_bind, wp_getFile hf, ho]
    dsimp only
    split
    · exact .inl rfl
    · exact wp_imp (wp_ramfsWrite h hf ho hd hde hi hy (hfit d de i y hd hde hi hy)) fun _ _ => .inr
  rcases wp_ok hspec hw with rfl | ⟨_, _, ⟨hlen, y', ri, hy', hri, hbuf⟩ | ⟨rfl, _⟩⟩
  · exact absurd hn (by decide)
  · refine ⟨hlen, ?_⟩
    simp only [bytesAt, hy', hri, Option.bind_eq_bind, Option.bind_some, hbuf]
  · exact absurd hn (by decide)

/-- **Names persist.** Take any ramfs tree with open files, and two points of a run of admissible calls, whatever
    their allocations do. What `vfs_lookup` finds at the first point it finds at the second, at the same inode. At
    every point, bytes written stand in the file and closing does not touch them, an open that fails leaves the tree
    as it was, and no call crashes. -/
theorem names_persist {s₀ s₁ s₂ : Fs} {es₁ es₂ : List (Call × List Bool)} (h₀ : Inv s₀)
    (h₁ : Run Step s₀ es₁ s₁) (h₂ : Run Step s₁ es₂ s₂) :
    (∀ fuel path d t, ShortPath path → vfsLookup fuel path none s₁ = .ok (.ok d, t) →
      ∃ x x' i t', s₁.dentries d = some x ∧ x.inode = some i ∧ s₂.dentries d = some x' ∧
        x'.inode = some i ∧ vfsLookup fuel path none s₂ = .ok (.ok d, t')) ∧
    (∀ f x d de i y buf dev n t, s₂.files f = some x → x.fops = some .ramfsFile →
      x.dentry = some d → s₂.dentries d = some de → de.inode = some i → s₂.inodes i = some y →
      FitsHeap s₂ x buf → vfsWrite f buf dev s₂ = .ok (n, t) → 0 ≤ n →
      n = buf.length ∧ bytesAt t i (writePos x y).toNat buf.length = some buf) ∧
    (∀ f t, Admissible s₂ (.close f) → vfsClose f s₂ = .ok ((), t) → t.inodes = s₂.inodes) ∧
    (∀ fuel path flags mode t, Admissible s₂ (.open path flags mode) →
      vfsOpen fuel path flags mode s₂ = .ok (none, t) → SameTree s₂ t) ∧
    (∀ fuel c, Admissible s₂ c →
      (∃ t, c.exec fuel s₂ = .ok ((), t)) ∨ c.exec fuel s₂ = .error .fuel) := by
  obtain ⟨hinv₁, _⟩ := run_kept h₀ h₁
  obtain ⟨hinv₂, hext⟩ := run_kept hinv₁ h₂
  refine ⟨?_, ?_, ?_, ?_, ?_⟩
  · intro fuel path d t hp hl
    obtain ⟨hr, x, i, hx, hi⟩ := lookup_resolves hinv₁ hp hl
    obtain ⟨t', hl'⟩ := resolves_lookup hinv₂ hp (resolve_mono hext hr)
    obtain ⟨x', hx', _, hi', _⟩ := hext.dentry hx
    exact ⟨x, x', i, t', hx, hi, hx', hi'.trans hi, hl'⟩
  · intro f x d de i y buf dev n t hf ho hd hde hi hy hfit hw hn
    exact write_bytes hinv₂ hf ho hd hde hi hy hfit hw hn
  · intro f t hadm hclose
    obtain ⟨x, hx, hlast⟩ := hadm
    exact (wp_ok (wp_vfsClose hinv₂ hx hlast) hclose).2
  · intro fuel path flags mode t hadm hopen
    exact (wp_ok (wp_vfsOpen hinv₂ fuel hadm.1 hadm.2 mode) hopen).2 rfl
  · intro fuel c hadm
    rcases (wp_iff _).mp (wp_exec hinv₂ fuel hadm) with ⟨_, t, ht, _⟩ | ⟨e, he, rfl⟩
    · exact .inl ⟨t, ht⟩
    · exact .inr he

/-! ## 3. A tree with one file, and what O_CREAT does to it -/

/-- The tree that `ramfs_mount` makes, with the empty file `/a` in it. -/
def fileTree : Fs where
  inodes i :=
    if i = 0 then some ⟨2, S_IFDIR ||| 0o755, 0, 0, 2, 0, 0, 0, 0, 0, some .ramfs, some .ramfsDir,
      some ⟨none, 0, 2, none⟩, 2⟩
    else if i = 1 then some ⟨3, S_IFREG ||| 0o644, 0, 0, 1, 0, 0, 0, 0, 0, some .ramfs,
      some .ramfsFile, some ⟨none, 0, 3, none⟩, 2⟩
    else none
  dentries d :=
    if d = 0 then some ⟨[47], some 0, none, [1], false, 2, false, none⟩
    else if d = 1 then some ⟨[97], some 1, some 0, [], true, 1, false, none⟩
    else none
  files _ := none
  nextInode := 2
  nextDentry := 2
  nextFile := 0
  nextIno := 4
  root := 0
  cwd := some 0
  uid := 0
  gid := 0
  jiffies := 0
  oracle := []

theorem fileTree_dentry {x : Dentry} (h : fileTree.dentries d = some x) :
    (d = 0 ∧ x = ⟨[47], some 0, none, [1], false, 2, false, none⟩) ∨
      d = 1 ∧ x = ⟨[97], some 1, some 0, [], true, 1, false, none⟩ := by
  simp only [fileTree] at h
  split at h
  · exact .inl ⟨‹_›, (Option.some.inj h).symm⟩
  · split at h
    · exact .inr ⟨‹_›, (Option.some.inj h).symm⟩
    · cases h

theorem fileTree_inode (h : fileTree.inodes i = some y) : y.size = 0 ∧ ∃ ino, y.priv = some ⟨none, 0, ino, none⟩ := by
  simp only [fileTree] at h
  split at h
  · cases h
    exact ⟨rfl, _, rfl⟩
  · split at h
    · cases h
      exact ⟨rfl, _, rfl⟩
    · cases h

theorem fileTree_node {x : Dentry} (h : fileTree.dentries d = some x) :
    ∃ i y, x.inode = some i ∧ fileTree.inodes i = some y := by
  rcases fileTree_dentry h with ⟨rfl, rfl⟩ | ⟨rfl, rfl⟩
  · exact ⟨0, _, rfl, rfl⟩
  · exact ⟨1, _, rfl, rfl⟩

theorem fileTree_sane : TreeSane fileTree := by
  refine ⟨fun {d} hd => ?_, fun hd => ?_, fun hd hi => ?_, fun hd hp => ?_, fun hd hc => ?_,
    fun hd => ?_, ⟨_, rfl⟩, fun hd => ?_⟩
  · have hd : 2 ≤ d := hd
    simp only [fileTree, if_neg (show d ≠ 0 by omega), if_neg (show d ≠ 1 by omega)]
  · rcases fileTree_dentry hd with ⟨rfl, rfl⟩ | ⟨rfl, rfl⟩ <;> decide
  · obtain ⟨j, y, hj, hy⟩ := fileTree_node hd
    cases hi.symm.trans hj
    exact ⟨y, hy⟩
  · rcases fileTree_dentry hd with ⟨rfl, rfl⟩ | ⟨rfl, rfl⟩
    · cases hp
    · cases hp
      exact ⟨_, rfl⟩
  · rcases fileTree_dentry hd with ⟨rfl, rfl⟩ | ⟨rfl, rfl⟩
    · rw [List.mem_singleton.mp hc]
      exact ⟨_, rfl⟩
    · cases hc
  · rcases fileTree_dentry hd with ⟨rfl, rfl⟩ | ⟨rfl, rfl⟩ <;> rfl
  · cases hd
    exact ⟨_, rfl⟩

theorem fileTree_inv : Inv fileTree := by
  refine ⟨⟨fileTree_sane, fileTree_node, fun hi _ => ?_, Option.some_ne_none _⟩, fun {i} hi => ?_, fun _ => rfl,
    fun hi _ => ?_, fun hf => (nomatch hf), fun hd => ?_⟩
  · obtain ⟨_, ino, hp⟩ := fileTree_inode hi
    exact ⟨_, hp, fun _ ht => nomatch ht⟩
  · have hi : 2 ≤ i := hi
    simp only [fileTree, if_neg (show i ≠ 0 by omega), if_neg (show i ≠ 1 by omega)]
  · obtain ⟨hs, ino, hp⟩ := fileTree_inode hi
    exact ⟨_, hp, by omega, by omega, Nat.zero_le _, rfl⟩
  · rcases fileTree_dentry hd with ⟨rfl, rfl⟩ | ⟨rfl, rfl⟩ <;> exact Nat.zero_lt_succ _

theorem shortPath_of_length (h : path.length < nameMax) : ShortPath path :=
  fun _ hpart _ => hpart.length_le.trans_lt h

theorem fileTree_existing (h : Existing fileTree [47, 97] d) : d = 1 := by
  obtain ⟨fuel, p, name, x, hpar, hx, hch⟩ := h
  cases (show resolveParent fileTree fuel [47, 97] = some (0, [97]) from rfl).symm.trans hpar
  rcases fileTree_dentry hx with ⟨_, rfl⟩ | ⟨h, _⟩
  · have hone : childNamed fileTree [97] [1] = some 1 := by decide
    exact (Option.some.inj (hone.symm.trans hch)).symm
  · cases h

theorem ok_of_isSome {α : Type} {m : M α} (h : (m s).toOption.isSome = true) : ∃ a t, m s = .ok (a, t) := by
  cases hm : m s with
  | error e =>
    rw [hm] at h
    cases h
  | ok r => exact ⟨r.1, r.2, rfl⟩

/-- `/a` opened with O_CREAT, which it survives as long as the file stays open. -/
theorem names_persist_reopened : ∃ s₂ : Fs,
    Run Step fileTree [(.open [47, 97] (O_CREAT ||| O_WRONLY) 0, [])] s₂ ∧
    ∃ x' t', s₂.dentries 1 = some x' ∧ x'.inode = some 1 ∧
      vfsLookup 5 [47, 97] none s₂ = .ok (.ok 1, t') := by
  have hshort : ShortPath [47, 97] := shortPath_of_length (by decide)
  have hadm : Admissible fileTree (.open [47, 97] (O_CREAT ||| O_WRONLY) 0) := by
    refine ⟨hshort, fun _ d hd => ?_⟩
    cases fileTree_existing hd
    decide
  obtain ⟨_, s₂, hexec⟩ := @ok_of_isSome fileTree _
    ((Call.open [47, 97] (O_CREAT ||| O_WRONLY) 0).exec 5) (by decide +kernel)
  obtain ⟨r, t, hlook⟩ := @ok_of_isSome fileTree _ (vfsLookup 5 [47, 97] none) (by decide +kernel)
  have hr : r = .ok 1 := by
    have hval : ((vfsLookup 5 [47, 97] none fileTree).toOption.map fun r => r.1.toOption) =
        some (some 1) := by decide +kernel
    rw [hlook] at hval
    cases r with
    | error e => cases hval
    | ok d => exact congrArg _ (Option.some.inj (Option.some.inj hval))
  subst hr
  have hrun : Run Step fileTree [(.open [47, 97] (O_CREAT ||| O_WRONLY) 0, [])] s₂ :=
    .cons ⟨hadm, 5, hexec⟩ (.nil _)
  obtain ⟨x, x', i, t', hx, hi, hx', hi', hl⟩ :=
    (names_persist fileTree_inv (.nil _) hrun).1 5 [47, 97] 1 t hshort hlook
  rcases fileTree_dentry hx with ⟨h, _⟩ | ⟨_, rfl⟩
  · cases h
  · cases hi
    exact ⟨s₂, hrun, x', t', hx', hi', hl⟩

/-- The dentry a path names, asked without leaving a reference. -/
def peek (path : Str) : M (Option Nat) := fun s =>
  match vfsLookup 5 path none s with
  | .ok (.ok d, _) => .ok (some d, s)
  | .ok (.error _, _) => .ok (none, s)
  | .error e => .error e

/-- Create `/b`, write three bytes, close it. -/
def createWriteClose : M (Option Nat × Option Nat × Int × Option Nat) := do
  let f ← vfsOpen 5 [47, 98] (O_CREAT ||| O_WRONLY) 0o644
  let before ← peek [47, 98]
  let n ← vfsWrite 0 [1, 2, 3] ⟨0, 0⟩
  vfsClose 0
  let after ← peek [47, 98]
  pure (f, before, n, after)

/-- Open `/a`, which exists, with O_CREAT and O_EXCL. -/
def createExclusive : M (Option Nat × Option Nat × Option Nat) := do
  let before ← peek [47, 97]
  let f ← vfsOpen 5 [47, 97] (O_CREAT ||| O_EXCL ||| O_WRONLY) 0o644
  let after ← peek [47, 97]
  pure (before, f, after)

/-- The file is open and written, its name found; after the close the name is gone. An exclusive create of a name that
    exists fails, and takes the name with it. -/
theorem created_file_is_lost :
    ((createWriteClose fileTree).toOption.map fun r => r.1) = some (some 0, some 2, 3, none) ∧
    ((createExclusive fileTree).toOption.map fun r => r.1) = some (some 1, none, none) := by
  decide +kernel

end OreUnix.Vfs
