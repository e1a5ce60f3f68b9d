/-
  Subject: RUNS OF THE CALLS THAT CHANGE THE TREE, from a root that has just been mounted.

  * `freshRoot` -- what `vfs_mount` of a ramfs on "/" leaves, with the first task's root and working directory at it
    (`mountRoot_eq`);
  * `TreeCall`, `TreeStep` -- mkdir, open with O_CREAT, symlink, mknod, rename, unlink and rmdir with any arguments,
    and any outcomes of their allocations;
  * `TreeEdit` -- what one call does to the tree of names; `step_edit` derives it from the specifications of the
    calls. Every invariant of the tree is shown from `TreeEdit` alone.

  An open with O_CREAT that fails after it has found the name frees a dentry of the tree, and nothing can be said
  about what comes after it; `Sound` leaves it out.
-/
import OreUnix.Fs.RenameSpec
import OreUnix.Lib.Run

namespace OreUnix.Vfs

open Wp Lts

variable {s t : Fs}
variable {L : Option (Nat × Nat) → Prop} {d : Nat}

/-! ## 1. A mounted root -/

/-- Before the first mount. -/
def noFs (uid gid jiffies ino : Nat) : Fs where
  inodes := fun _ => none
  dentries := fun _ => none
  files := fun _ => none
  nextInode := 0
  nextDentry := 0
  nextFile := 0
  nextIno := ino
  root := 0
  cwd := none
  uid := uid
  gid := gid
  jiffies := jiffies
  oracle := []

/-- `vfs_mount` of the first file system; then the first task's root and working directory. -/
def mountRoot : M Unit := do
  let root ← ramfsMount
  modify fun s => { s with root := root }
  dentryGet root
  dentryGet root
  dentryGet root
  modify fun s => { s with cwd := some root }

def rootInode (uid gid jiffies ino : Nat) : Inode :=
  ⟨ino, S_IFDIR ||| 0o755, uid, gid, 2, 0, 0, jiffies, jiffies, jiffies, some .ramfs, some .ramfsDir,
    some ⟨none, 0, ino, none⟩, 2⟩

def rootDentry : Dentry := ⟨[slash], some 0, none, [], false, 4, false, none⟩

/-- A ramfs just mounted on "/". -/
def freshRoot (uid gid jiffies ino : Nat) : Fs where
  inodes := fun i => if i = 0 then some (rootInode uid gid jiffies ino) else none
  dentries := fun d => if d = 0 then some rootDentry else none
  files := fun _ => none
  nextInode := 1
  nextDentry := 1
  nextFile := 0
  nextIno := ino + 1
  root := 0
  cwd := some 0
  uid := uid
  gid := gid
  jiffies := jiffies
  oracle := []

section Mounted

variable {uid gid jiffies ino : Nat}

/-- `freshRoot` is what the mount leaves. -/
theorem mountRoot_eq : mountRoot (noFs uid gid jiffies ino) = .ok ((), freshRoot uid gid jiffies ino) := by
  have hone : ∀ {α : Type} {f : Nat → Option α} {a : Option α}, f 0 = a → (∀ i, i ≠ 0 → f i = none) →
      f = fun i => if i = 0 then a else none := fun h0 hi => by
    funext i
    split
    · subst_vars
      rfl
    · exact hi i ‹_›
  refine congrArg (fun u => Except.ok ((), u)) ((Fs.mk.injEq ..).mpr ⟨hone rfl fun i hi => ?_, hone rfl fun d hd => ?_,
    rfl, rfl, rfl, rfl, rfl, rfl, rfl, rfl, rfl, rfl, rfl⟩)
  · simp only [Function.update_of_ne hi, noFs]
  · simp only [Function.update_of_ne hd, noFs]

theorem freshRoot_dentry {x : Dentry} (h : (freshRoot uid gid jiffies ino).dentries d = some x) :
    d = 0 ∧ x = rootDentry := by
  have h : (if d = 0 then some rootDentry else none) = some x := h
  split at h
  · cases h
    exact ⟨‹_›, rfl⟩
  · cases h

theorem freshRoot_inode {i : Nat} {y : Inode} (h : (freshRoot uid gid jiffies ino).inodes i = some y) :
    i = 0 ∧ y = rootInode uid gid jiffies ino := by
  have h : (if i = 0 then some (rootInode uid gid jiffies ino) else none) = some y := h
  split at h
  · cases h
    exact ⟨‹_›, rfl⟩
  · cases h

theorem freshRoot_orderly : Orderly [] (freshRoot uid gid jiffies ino) := by
  refine ⟨⟨fun {d} hd => ?_, fun hd => ?_, fun hd hi => ?_, fun hd hp => ?_, fun hd hc => ?_, fun hd => ?_, ⟨_, rfl⟩,
    fun hd => ?_⟩, fun {i} hi => ?_, fun _ => rfl, fun hy => ?_, fun _ _ hy => ?_, fun hd he _ _ => ?_,
    fun hd hc => ?_, fun hd hl => ?_, fun hf => (nomatch hf), fun hd => ?_, fun hd => (nomatch hd)⟩
  · have hd : 1 ≤ d := hd
    exact if_neg (by omega)
  · obtain ⟨_, rfl⟩ := freshRoot_dentry hd
    decide
  · obtain ⟨_, rfl⟩ := freshRoot_dentry hd
    cases hi
    exact ⟨_, rfl⟩
  · obtain ⟨_, rfl⟩ := freshRoot_dentry hd
    cases hp
  · obtain ⟨_, rfl⟩ := freshRoot_dentry hd
    cases hc
  · obtain ⟨_, rfl⟩ := freshRoot_dentry hd
    rfl
  · cases hd
    exact ⟨_, rfl⟩
  · have hi : 1 ≤ i := hi
    exact if_neg (by omega)
  · obtain ⟨_, rfl⟩ := freshRoot_inode hy
    exact Option.some_ne_none _
  · obtain ⟨_, rfl⟩ := freshRoot_inode hy
    exact Nat.le_refl 2
  · rw [(freshRoot_dentry hd).1, (freshRoot_dentry he).1]
  · obtain ⟨_, rfl⟩ := freshRoot_dentry hd
    cases hc
  · obtain ⟨_, rfl⟩ := freshRoot_dentry hd
    cases hl
  · obtain ⟨rfl, rfl⟩ := freshRoot_dentry hd
    exact show 0 + 1 + 0 < 4 by decide

theorem freshRoot_names {n : NameTree.Node Nat Str (Nat × Nat)}
    (h : names (freshRoot uid gid jiffies ino) d = some n) : d = 0 ∧ n = ⟨[slash], some (S_IFDIR, 2), []⟩ := by
  obtain ⟨x, hx, rfl⟩ := Option.map_eq_some_iff.mp h
  obtain ⟨rfl, rfl⟩ := freshRoot_dentry hx
  have hlook : (rootInode uid gid jiffies ino).look = (S_IFDIR, 2) :=
    Prod.ext (show (S_IFDIR ||| 0o755) &&& S_IFMT = S_IFDIR by decide) rfl
  refine ⟨rfl, ?_⟩
  rw [← hlook]
  rfl

end Mounted

/-! ## 2. Calls -/

inductive TreeCall where
  | mkdir (path : Str) (mode : Nat)
  | create (path : Str) (flags mode : Nat)
  | symlink (target path : Str)
  | mknod (path : Str) (mode dev : Nat)
  | rename (old new : Str)
  | unlink (path : Str)
  | rmdir (path : Str)

/-- The call, its result dropped; `create` is an open with O_CREAT. -/
def TreeCall.exec (fuel : Nat) : TreeCall → M Unit
  | .mkdir path mode => do let _ ← vfsMkdir fuel path mode
  | .create path flags mode => do let _ ← vfsOpen fuel path (flags ||| O_CREAT) mode
  | .symlink target path => do let _ ← vfsSymlink fuel target path
  | .mknod path mode dev => do let _ ← sysMknod fuel path mode dev
  | .rename old new => do let _ ← vfsRename fuel old new
  | .unlink path => do let _ ← vfsUnlink fuel path
  | .rmdir path => do let _ ← vfsRmdir fuel path

/-- The state with the outcomes of the allocations to come. -/
def Fs.meets (s : Fs) (o : List Bool) : Fs := { s with oracle := o }

/-- A call that returns, and the outcomes of its allocations. -/
def TreeStep (s : Fs) (e : TreeCall × List Bool) (t : Fs) : Prop :=
  ∃ fuel, e.1.exec fuel (s.meets e.2) = .ok ((), t)

/-- The step as a partial function, for runs on given calls. -/
def treeNext (s : Fs) (e : TreeCall × List Bool) : Option Fs := (e.1.exec 5 (s.meets e.2)).toOption.map Prod.snd

theorem step_of_treeNext {e : TreeCall × List Bool} (h : treeNext s e = some t) : TreeStep s e t := by
  obtain ⟨⟨_, t'⟩, hr, rfl⟩ := Option.map_eq_some_iff.mp h
  refine ⟨5, ?_⟩
  cases hexec : e.1.exec 5 (s.meets e.2) with
  | error c =>
    rw [hexec] at hr
    cases hr
  | ok r =>
    rw [hexec] at hr
    cases hr
    rfl

theorem exists_treeRun (s : Fs) (es : List (TreeCall × List Bool)) (P : Fs → Prop) [DecidablePred P]
    (h : (es.foldlM treeNext s).any (fun t => decide (P t)) = true) : ∃ t, Run TreeStep s es t ∧ P t :=
  exists_run (fun _ _ _ => step_of_treeNext) s es P h

/-- No open with O_CREAT fails after it has found the name. -/
def Sound (s : Fs) : TreeCall → Prop
  | .create path flags _ => OpenOk s path (flags ||| O_CREAT)
  | _ => True

/-! ## 3. What a call does to the tree of names -/

/-- One new name that stands for `m`, with `K m`, or the tree as before. -/
def MakePost (s : Fs) (fuel : Nat) (path : Str) (K : Option (Nat × Nat) → Prop) (t : Fs) : Prop :=
  names t = names s ∨ ∃ p name x dir z k m, ParentAt s fuel path p name dir z ∧ s.dentries p = some x ∧
    s.dentries k = none ∧ K m ∧ names t = NameTree.add (names s) p k ⟨name.take nameMax, m, []⟩

/-- A new directory, and one link more for the directory it is in. -/
def MkdirPost (s : Fs) (fuel : Nat) (path : Str) (t : Fs) : Prop :=
  names t = names s ∨ ∃ p name x dir z k, ParentAt s fuel path p name dir z ∧ s.dentries p = some x ∧
    s.dentries k = none ∧ names t = NameTree.add (NameTree.setKind (names s) p (some z.linkMore.look)) p k
      ⟨name.take nameMax, some (S_IFDIR, 1), []⟩

def TreeEdit (s : Fs) (fuel : Nat) (t : Fs) : TreeCall → Prop
  | .mkdir path _ => MkdirPost s fuel path t
  | .create path _ _ => OpenPost s fuel path t
  | .symlink _ path => MakePost s fuel path (fun m => m = none ∧ false ∈ s.oracle ∨ m = some (S_IFLNK, 1)) t
  | .mknod path mode _ => MakePost s fuel path (fun m => m = none ∧ false ∈ s.oracle ∨ m = some (mode &&& S_IFMT, 1)) t
  | .rename old new => RenamePost s fuel old new t
  | .unlink path => ∃ r, UnlinkPost s fuel path r t
  | .rmdir path => ∃ r, RmdirPost s fuel path r t

theorem hasFlag_or (flags : Nat) : hasFlag (flags ||| O_CREAT) O_CREAT = true := by
  have hand : (flags ||| O_CREAT) &&& O_CREAT = O_CREAT := by
    rw [Nat.and_comm, Nat.and_or_distrib_left]
    refine Nat.eq_of_testBit_eq fun i => ?_
    rw [Nat.testBit_or, Nat.testBit_and, Nat.and_self]
    cases O_CREAT.testBit i <;> simp
  rw [hasFlag, hand]
  decide

section Edits

variable {E : Crash → Prop} {fuel : Nat} {path : Str} {K : Inode → Prop} {p : Nat} {name : Str} {dir : Nat} {z : Inode}

/-- A call that makes a name, or an empty one, or does nothing. -/
theorem MakePost.of_new (h : Orderly [] s) (hL : ∀ y, K y → L (some y.look)) (hat : ParentAt s fuel path p name dir z)
    (hn : NewName K s p name t) :
    Orderly [] t ∧ MakePost s fuel path L t := by
  obtain ⟨x, hx, _⟩ := hat.2
  obtain ⟨k, y, hk, hy, heq⟩ := hn.names_eq h hx
  exact ⟨hn.orderly h hx, .inr ⟨p, name, x, dir, z, k, _, hat, hx, hk, hL y hy, heq⟩⟩

theorem MakePost.of_empty (h : Orderly [] s) (hL : L none) (hat : ParentAt s fuel path p name dir z)
    (hn : EmptyName s p name t) :
    Orderly [] t ∧ MakePost s fuel path L t := by
  obtain ⟨x, hx, _⟩ := hat.2
  obtain ⟨k, hk, heq⟩ := hn.names_eq h hx
  exact ⟨hn.orderly h hx, .inr ⟨p, name, x, dir, z, k, _, hat, hx, hk, hL, heq⟩⟩

theorem wp_treeCall (h : Orderly [] s) (hE : Soft E) (hnull : E .null) {c : TreeCall} (hc : Sound s c) :
    wp E (c.exec fuel) (fun _ t => Orderly [] t ∧ TreeEdit s fuel t c) s := by
  have hl : ∀ path, LooksUp E s fuel path := fun _ => .inl ⟨hE, .inl hnull⟩
  have hsame : ∀ {t}, NodesOnly s t → Orderly [] t ∧ names t = names s := fun hn =>
    ⟨hn.orderly h, hn.names_eq h.toTreeSane⟩
  cases c with
  | mkdir path mode =>
    rw [TreeCall.exec, wp_bind]
    refine wp_imp (wp_vfsMkdir h (hl _) (.inl hnull)) fun r t ht => ?_
    rcases ht with ⟨hn, _⟩ | ⟨p, name, dir, z, hat, _, hn⟩
    · exact ⟨(hsame hn).1, .inl (hsame hn).2⟩
    · obtain ⟨x, hx, hi, hz⟩ := hat.2
      have hmore : Orderly [] (s.putNode dir z.linkMore) := h.relink hz rfl rfl
      have hn := hn.newName hmore
      obtain ⟨k, y, hk, hy, heq⟩ := hn.names_eq hmore hx
      refine ⟨hn.orderly hmore hx, .inr ⟨p, name, x, dir, z, k, hat, hx, hk, ?_⟩⟩
      rw [heq, names_putNode h hx hi, hy.look]
  | create path flags mode =>
    rw [TreeCall.exec, wp_bind]
    exact wp_openCreat_orderly h (hl _) (hasFlag_or flags) hc (.inl hnull)
  | symlink target path =>
    rw [TreeCall.exec, wp_bind]
    refine wp_imp (wp_vfsSymlink h (hl _) (.inl hnull)) fun r t ht => ?_
    rcases ht with ⟨hn, _⟩ | ⟨p, name, dir, z, hat, ⟨hn, ho⟩ | ⟨_, hn⟩⟩
    · exact ⟨(hsame hn).1, .inl (hsame hn).2⟩
    · exact MakePost.of_empty h (.inl ⟨rfl, ho⟩) hat hn
    · exact MakePost.of_new h (fun y hy => .inr (congrArg some hy.1)) hat (hn.newName h)
  | mknod path mode dev =>
    rw [TreeCall.exec, wp_bind]
    refine wp_imp (wp_sysMknod h (hl _) (.inl hnull)) fun r t ht => ?_
    rcases ht with ⟨hn, _⟩ | ⟨p, name, dir, z, hat, ⟨hn, ho⟩ | ⟨_, hn⟩⟩
    · exact ⟨(hsame hn).1, .inl (hsame hn).2⟩
    · exact MakePost.of_empty h (.inl ⟨rfl, ho⟩) hat hn
    · exact MakePost.of_new h (fun y hy => .inr (congrArg some hy)) hat (hn.newName h)
  | rename old new =>
    rw [TreeCall.exec, wp_bind]
    exact wp_vfsRename h (hl _) (hl _) (.inl hnull)
  | unlink path =>
    rw [TreeCall.exec, wp_bind]
    exact wp_imp (wp_vfsUnlink h (hl _) (.inl hnull)) fun r t ht => ⟨ht.1, r, ht.2⟩
  | rmdir path =>
    rw [TreeCall.exec, wp_bind]
    exact wp_imp (wp_vfsRmdir h (hl _) (.inl hnull)) fun r t ht => ⟨ht.1, r, ht.2⟩

end Edits

theorem Orderly.meets {rs : List Nat} (h : Orderly rs s) (o : List Bool) : Orderly rs (s.meets o) := by
  have hn : NodesOnly s (s.meets o) := .of_same h rfl rfl rfl rfl rfl rfl le_rfl le_rfl
  exact hn.orderly h

/-- **What a step does**: the state stays orderly and the tree of names is edited as the call says. -/
theorem step_edit {e : TreeCall × List Bool} (h : Orderly [] s) (hc : Sound (s.meets e.2) e.1) (hs : TreeStep s e t) :
    Orderly [] t ∧ ∃ fuel, TreeEdit (s.meets e.2) fuel t e.1 := by
  obtain ⟨fuel, hexec⟩ := hs
  obtain ⟨ht, hedit⟩ := wp_ok (wp_treeCall (E := fun _ => True) (h.meets e.2) ⟨trivial, trivial⟩ trivial hc) hexec
  exact ⟨ht, fuel, hedit⟩

end OreUnix.Vfs
