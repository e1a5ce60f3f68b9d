/-
  Subject: WHAT EACH CALL ON NAMES DOES TO THE TREE, from any orderly state.

  One specification for each call: it leaves an orderly state, and the tree of names is as before, has one new name
  (`NewName`), one new name that stands for nothing (`EmptyName`), or one name less. A call that leaves the tree as it
  was has a reason (`Refused`).

  `E` is how a call may stop. Running out of fuel and overrunning a name buffer are always allowed (`Soft`); where a
  call would follow a NULL pointer, either that is allowed too or a hypothesis excludes it.
-/
import OreUnix.Fs.Orderly

namespace OreUnix.Vfs

open Function (update update_of_ne update_self update_idem)
open Wp Tally

variable {s t : Fs} {rs : List Nat} {E : Crash → Prop}
variable {K : Inode → Prop} {d de dev dir i mode p : Nat} {name target : Str} {o : List Bool} {u : Fs} {x : Dentry}
  {y z : Inode}

/-! ## 1. Rules for the parts of a call -/

structure Soft (E : Crash → Prop) : Prop where
  fuel : E .fuel
  overflow : E .overflow

/-- The lookup of a path's directory ends in a way that is allowed: every way it may stop is, or it succeeds. -/
def LooksUp (E : Crash → Prop) (s : Fs) (fuel : Nat) (path : Str) : Prop :=
  Soft E ∧ (E .null ∨ s.cwd ≠ none) ∨ ∃ p name, resolveParent s fuel path = some (p, name) ∧ name.length < nameMax

section Parts

variable {α : Type} {fuel : Nat} {path : Str}

/-- A call that begins with `vfs_lookup_parent`, with all that is known of its result. -/
theorem wp_parent_full (h : Orderly rs s) (hl : LooksUp E s fuel path) {k : Except Int (Nat × Str) → M α}
    {Q : α → Fs → Prop}
    (herr : ∀ e n o, s.nextDentry ≤ n → resolveParent s fuel path = none → e ≠ 0 → wp E (k (.error e)) Q (s.aside n o))
    (hok : ∀ p name x, resolveParent s fuel path = some (p, name) → s.dentries p = some x → slash ∉ name →
      name.length < nameMax → wp E (k (.ok (p, name))) Q (s.bump p)) :
    wp E (vfsLookupParent fuel path >>= k) Q s := by
  have hpost : ∀ r t, ParentPost s (resolveParent s fuel path) r t ∧ ParentResult r → wp E (k r) Q t := fun r t hr => by
    cases r with
    | error e =>
      obtain ⟨⟨hp, n, o, hn, rfl⟩, he⟩ := hr
      exact herr e n o hn hp he
    | ok pn =>
      obtain ⟨p, name⟩ := pn
      obtain ⟨⟨hp, rfl, x, hx⟩, hslash, hlen⟩ := hr
      exact hok p name x hp hx hslash hlen
  have hres := wp_parent_result h.toTreeSane fuel path
  rw [wp_bind]
  rcases hl with ⟨hE, hcwd⟩ | ⟨p, name, hp, hlen⟩
  · exact wp_mono (wp_and (wp_parent_sane h.toTreeSane hE.fuel (h.linksOk hE.overflow hcwd) fuel (.inl hE.overflow))
      hres)
      hpost fun e he => he.1.1
  · -- a lookup that finds the directory does not stop
    refine wp_mono (wp_and
      (wp_parent_sane (P := fun _ => True) h.toTreeSane trivial (h.linksOk trivial (.inl trivial)) fuel
      (.inl trivial)) hres) hpost fun e he => ?_
    have := he.1.2 p name hp
    omega

/-- A call that begins with `vfs_lookup_parent`. -/
theorem wp_parent (h : Orderly rs s) (hl : LooksUp E s fuel path) {k : Except Int (Nat × Str) → M α}
    {Q : α → Fs → Prop}
    (herr : ∀ e n o, s.nextDentry ≤ n → resolveParent s fuel path = none → wp E (k (.error e)) Q (s.aside n o))
    (hok : ∀ p name x, resolveParent s fuel path = some (p, name) → s.dentries p = some x →
      wp E (k (.ok (p, name))) Q (s.bump p)) :
    wp E (vfsLookupParent fuel path >>= k) Q s :=
  wp_parent_full h hl (fun e n o hn hr _ => herr e n o hn hr) fun p name x hp hx _ _ => hok p name x hp hx

theorem wp_dentryInode (h : TreeSane s) (hx : s.dentries d = some x) (hnull : E .null ∨ x.inode ≠ none)
    {Q : Nat × Inode → Fs → Prop} (hok : ∀ i y, x.inode = some i → s.inodes i = some y → Q (i, y) s) :
    wp E (dentryInode d) Q s := by
  rw [dentryInode, wp_bind, wp_getDentry hx]
  cases hi : x.inode with
  | none => exact hnull.resolve_right fun hne => hne hi
  | some i =>
    obtain ⟨y, hy⟩ := h.node hx hi
    rw [wp_bind, wp_deref, wp_bind, wp_getInode hy]
    exact hok i y hi hy

end Parts

/-! ## 2. New names -/

/-- The tree has one new name, for a new inode with the property `K`. -/
def NewName (K : Inode → Prop) (s : Fs) (p : Nat) (name : Str) (t : Fs) : Prop :=
  ∃ s₁ j y, NodesOnly s s₁ ∧ s.nextInode ≤ j ∧ s₁.inodes j = some y ∧ y.priv ≠ none ∧ y.refcount = 2 ∧ K y ∧
    t = s₁.graft p (namedChild name p j)

/-- A new name for a new inode with the property `K`, and nothing else changed. -/
def Made (K : Inode → Prop) (s : Fs) (p : Nat) (name : Str) (t : Fs) : Prop :=
  ∃ o y, o <:+ s.oracle ∧ y.priv ≠ none ∧ y.refcount = 2 ∧ K y ∧
    t = ((s.spend s.nextInode s.nextDentry o).addNode y).graft p (namedChild name p s.nextInode)

/-- The tree has one new name, for nothing. -/
def EmptyName (s : Fs) (p : Nat) (name : Str) (t : Fs) : Prop :=
  ∃ s₁, NodesOnly s s₁ ∧ t = s₁.graft p (newChild name p)

theorem point_graft (hp : p ≠ s.nextDentry) (name : Str) (j : Nat) :
    (s.graft p (newChild name p)).point s.nextDentry (some j) = s.graft p (namedChild name p j) := by
  rw [← graft_setChild hp (newChild name p) (namedChild name p j)]
  refine Fs.ext_dentries rfl fun e => ?_
  show (if e = s.nextDentry then _ else _) = update (s.graft p (newChild name p)).dentries s.nextDentry _ e
  by_cases he : e = s.nextDentry
  · subst he
    rw [if_pos rfl, update_self]
    show Option.map _ (update (update s.dentries s.nextDentry _) p _ s.nextDentry) = _
    rw [update_of_ne hp.symm, update_self]
    rfl
  · rw [if_neg he, update_of_ne he]

/-- Another dentry's reference and a dentry's inode. -/
theorem bump_point (hp : d ≠ p) (i : Option Nat) : (s.bump p).point d i = (s.point d i).bump p := by
  refine Fs.ext_dentries rfl fun e => ?_
  show (if e = d then Option.map _ ((s.bump p).dentries e) else (s.bump p).dentries e) =
    if e = p then Option.map Dentry.raise ((s.point d i).dentries e) else (s.point d i).dentries e
  simp only [bump_dentries, Fs.point]
  by_cases hed : e = d
  · have hep : e ≠ p := fun he => hp (hed.symm.trans he)
    simp only [if_pos hed, if_neg hep]
  · simp only [if_neg hed]

theorem NewName.orderly (h : Orderly rs s) (hx : s.dentries p = some x) (hn : NewName K s p name t) : Orderly rs t := by
  obtain ⟨s1, j, y, hs1, hj, hy, _, href, _, rfl⟩ := hn
  have h1 := hs1.orderly h
  have hx1 : s1.dentries p = some x := by rw [hs1.dentries, hx]
  rw [← point_graft (h1.live_ne hx1) name j]
  refine (h1.graft hx1 name).point fun hj' => ?_
  cases hj'
  refine ⟨⟨y, hy, Nat.le_of_eq href.symm⟩, fun {e z} he hi => ?_⟩
  -- no dentry of the old tree points to a new inode
  have hold : ∀ {w : Dentry}, s1.dentries e = some w → w.inode ≠ some j := fun hw hi => by
    have := h.pointed_lt (hs1.dentries ▸ hw) hi
    omega
  rcases graft_inv h1.toTreeSane hx1 he with ⟨_, rfl⟩ | ⟨w, hw, rfl | ⟨_, rfl⟩⟩
  · cases hi
  · exact absurd hi (hold hw)
  · exact absurd hi (hold (w := w) hw)

/-- A new name, seen in the tree of names. -/
theorem NewName.names_eq (h : Orderly rs s) (hx : s.dentries p = some x) (hn : NewName K s p name t) :
    ∃ k y, s.dentries k = none ∧ K y ∧ names t = NameTree.add (names s) p k ⟨name.take nameMax, some y.look, []⟩ := by
  obtain ⟨s1, j, y, hs1, _, hy, _, _, hK, rfl⟩ := hn
  have hx1 : s1.dentries p = some x := by rw [hs1.dentries, hx]
  refine ⟨s1.nextDentry, y, h.fresh hs1.nextDentry, hK, ?_⟩
  rw [names_graft hx1, hs1.names_eq h.toTreeSane]
  simp only [namedChild, newChild, Option.bind_some, hy, Option.map_some]

theorem Made.newName (h : Orderly rs s) (hm : Made K s p name t) : NewName K s p name t := by
  obtain ⟨o, y, _, hpriv, href, hK, rfl⟩ := hm
  have hu := NodesOnly.spend h le_rfl (Nat.le_refl s.nextDentry) o
  exact ⟨_, s.nextInode, y, hu.trans (.addNode (hu.orderly h) hpriv), le_rfl, update_self .., hpriv, href, hK, rfl⟩

theorem EmptyName.orderly (h : Orderly rs s) (hx : s.dentries p = some x) (hn : EmptyName s p name t) :
    Orderly rs t := by
  obtain ⟨s1, hs1, rfl⟩ := hn
  exact (hs1.orderly h).graft (by rw [hs1.dentries, hx]) name

theorem EmptyName.names_eq (h : Orderly rs s) (hx : s.dentries p = some x) (hn : EmptyName s p name t) :
    ∃ k, s.dentries k = none ∧ names t = NameTree.add (names s) p k ⟨name.take nameMax, none, []⟩ := by
  obtain ⟨s1, hs1, rfl⟩ := hn
  have hx1 : s1.dentries p = some x := by rw [hs1.dentries, hx]
  refine ⟨s1.nextDentry, h.fresh hs1.nextDentry, ?_⟩
  rw [names_graft hx1, hs1.names_eq h.toTreeSane]
  rfl

/-! ## 3. The creating operations of ramfs -/

section Operations

variable {de : Nat} {c : Dentry}

theorem addNode_putNode (s : Fs) (y y' : Inode) : (s.addNode y).putNode s.nextInode y' = s.addNode y' := by
  simp only [Fs.addNode, Fs.putNode, update_idem]

theorem wp_installInode {Q : Unit → Fs → Prop} (hy : s.inodes i = some y) (hc : s.dentries de = some c)
    (f : Inode → Inode) :
    wp E (installInode i de f) Q s ↔
      Q () ((s.putNode i { f y with refcount := (f y).refcount + 1 }).point de (some i)) := by
  rw [installInode, wp_bind, wp_getInode hy, wp_bind, wp_setInode, wp_bind, inodeGet, wp_bind]
  refine (wp_getInode (by exact update_self ..)).trans ?_
  rw [wp_setInode, wp_bind]
  refine (wp_getDentry (by exact hc)).trans ?_
  rw [wp_setDentry]
  simp only [update_idem]
  exact iff_of_eq (congrArg (Q ()) (update_point (s := s.putNode i _) hc _))

/-- A new inode gets its last fields and its dentry. -/
theorem wp_installNew {Q : Unit → Fs → Prop} (f : Inode → Inode) (hc : s.dentries de = some c) :
    wp E (installInode s.nextInode de f) Q (s.addNode y) ↔
      Q () ((s.addNode { f y with refcount := (f y).refcount + 1 }).point de (some s.nextInode)) := by
  refine (wp_installInode (by exact update_self ..) (by exact hc) f).trans ?_
  rw [addNode_putNode]

/-- A symlink just made. -/
structure NewLink (target : Str) (y : Inode) : Prop where
  look : y.look = (S_IFLNK, 1)
  ops : y.ops = some .ramfs
  priv : ∃ ino, y.priv = some ⟨none, 0, ino, some target⟩

/-- A directory just made. -/
structure NewDir (y : Inode) : Prop where
  look : y.look = (S_IFDIR, 1)
  ops : y.ops = some .ramfs

variable {Q : Int → Fs → Prop} (hfresh : s.inodes s.nextInode = none) (hc : s.dentries de = some c)
  (hfail : ∀ n o, s.nextInode ≤ n → false ∈ s.oracle → Q (-ENOMEM) { s with nextInode := n, oracle := o })

include hfresh hc hfail

theorem wp_ramfsMknod (hok : ∀ y o, o <:+ s.oracle → y.priv ≠ none → y.refcount = 2 → y.look = (mode &&& S_IFMT, 1) →
      Q 0 ((({ s with oracle := o } : Fs).addNode y).point de (some s.nextInode))) :
    wp E (ramfsMknod de mode dev) Q s := by
  rw [ramfsMknod, wp_bind]
  refine wp_ramfsNewInode hfresh hfail fun y o ho hraw => ?_
  obtain ⟨ino, hpriv⟩ := hraw.priv
  rw [wp_bind]
  refine (wp_installNew (s := { s with oracle := o }) _ hc).mpr (hok _ o ho ?_ ?_ ?_)
  · simp [hpriv]
  · simp [hraw.refcount]
  · simp [Inode.look, Inode.kind, hraw.mode, hraw.nlink]

/-- The target is copied; without memory for the copy the link has none. -/
theorem wp_ramfsSymlink (hok : ∀ y o, o <:+ s.oracle → y.priv ≠ none → y.refcount = 2 → y.look = (S_IFLNK, 1) →
      (false ∉ s.oracle → NewLink target y) →
      Q 0 ((({ s with oracle := o } : Fs).addNode y).point de (some s.nextInode))) :
    wp E (ramfsSymlink de target) Q s := by
  rw [ramfsSymlink, wp_bind]
  refine wp_ramfsNewInode hfresh hfail fun y o ho hraw => ?_
  obtain ⟨ino, hpriv⟩ := hraw.priv
  have hlook : y.look = (S_IFLNK, 1) := by
    simp only [Inode.look, Inode.kind, hraw.mode, hraw.nlink]
    decide
  simp only [wp_bind, wp_allocOk]
  refine (wp_installNew (s := { s with oracle := o.tail }) _ hc).mpr
    (hok _ o.tail ((List.tail_suffix o).trans ho) ?_ ?_ hlook fun hplenty => ⟨hlook, rfl, ino, ?_⟩)
  · simp [hpriv]
  · simp [hraw.refcount]
  · have hcopied : o.headD true = true := by
      by_contra hno
      exact hplenty (ho.mem (refusal_mem hno))
    simp only [hpriv, Option.map_some]
    exact congrArg (fun copy => some (RamfsInode.mk none 0 ino copy)) (if_pos hcopied)

theorem wp_ramfsMkdir (hz : s.inodes dir = some z)
    (hok : ∀ y o, o <:+ s.oracle → y.priv ≠ none → y.refcount = 2 → NewDir y →
      Q 0 (((({ s with oracle := o } : Fs).addNode y).putNode dir
        { z with nlink := u32 (z.nlink + 1) }).point de (some s.nextInode))) :
    wp E (ramfsMkdir dir de mode) Q s := by
  have hne : dir ≠ s.nextInode := by
    rintro rfl
    rw [hfresh] at hz
    cases hz
  rw [ramfsMkdir, wp_bind]
  refine wp_ramfsNewInode hfresh hfail fun y o ho hraw => ?_
  obtain ⟨ino, hpriv⟩ := hraw.priv
  have hlook : y.look = (S_IFDIR, 1) := by
    simp only [Inode.look, Inode.kind, hraw.mode, hraw.nlink, and_kind (show S_IFDIR &&& S_IFMT = S_IFDIR by decide)]
  rw [wp_bind]
  refine (wp_installNew (s := { s with oracle := o }) _ hc).mpr ?_
  rw [wp_bind]
  refine (wp_getInode (by exact (update_of_ne hne ..).trans hz)).mpr ?_
  refine hok _ o ho ?_ ?_ ⟨hlook, rfl⟩
  · simp [hpriv]
  · simp [hraw.refcount]

end Operations

/-! ## 4. The calls that create -/

/-- The inode of a dentry. -/
def NodeAt (s : Fs) (d i : Nat) (y : Inode) : Prop :=
  ∃ x, s.dentries d = some x ∧ x.inode = some i ∧ s.inodes i = some y

/-- The directory part of `path` names `p`, whose inode is there, and `name` is its last part. -/
def ParentAt (s : Fs) (fuel : Nat) (path : Str) (p : Nat) (name : Str) (dir : Nat) (z : Inode) : Prop :=
  resolveParent s fuel path = some (p, name) ∧ NodeAt s p dir z

/-- Why a call does nothing: there is no such directory, no memory, or the directory has no operations. -/
def Refused (s : Fs) (fuel : Nat) (path : Str) : Prop :=
  resolveParent s fuel path = none ∨ false ∈ s.oracle ∨ ∃ p name dir z, ParentAt s fuel path p name dir z ∧ z.ops = none

/-- The call does not go through the NULL inode of a directory. -/
def ParentNode (s : Fs) (fuel : Nat) (path : Str) : Prop :=
  ∀ p name x, resolveParent s fuel path = some (p, name) → s.dentries p = some x → x.inode ≠ none

section Creating

variable {fuel : Nat} {path : Str} {p : Nat} {x : Dentry} {name : Str}

/-- `dentry_alloc` under a directory the call holds. -/
theorem wp_childOf {α : Type} (h : Orderly rs s) (hx : s.dentries p = some x) {k : Option Nat → M α}
    {Q : α → Fs → Prop}
    (hnone : ∀ o, false ∈ s.oracle → wp E (k none) Q ((s.spend s.nextInode s.nextDentry o).bump p))
    (hsome : ∀ o, o <:+ s.oracle → wp E (k (some s.nextDentry)) Q
      (((s.spend s.nextInode s.nextDentry o).graft p (newChild name p)).bump p)) :
    wp E (dentryAlloc name (some p) >>= k) Q (s.bump p) := by
  rw [wp_bind, wp_dentryAlloc (h.toTreeSane.bump p) (bump_self hx)]
  by_cases hmem : s.oracle.headD true = true
  · rw [if_pos (by exact hmem)]
    have hswap := bump_graft (s := s.spend s.nextInode s.nextDentry s.oracle.tail) (h.live_ne hx) (newChild name p)
    refine (congrArg (wp E _ Q) hswap).mpr ?_
    exact hsome s.oracle.tail (List.tail_suffix _)
  · rw [if_neg (by exact hmem)]
    exact hnone s.oracle.tail (refusal_mem hmem)

theorem wp_putParent {Q : Unit → Fs → Prop} (hx : u.dentries p = some x) (hr : 1 ≤ x.refcount) (hQ : Q () u) :
    wp E (dentryPut p) Q (u.bump p) := (wp_dentryPut hx hr).mpr hQ

/-- The new child goes, then the directory is given back. -/
theorem wp_dropChild {Q : Unit → Fs → Prop} (hu : TreeSane u) (hx : u.dentries p = some x)
    (hQ : Q () ((u.aside (u.nextDentry + 1) u.oracle).bump p)) :
    wp E (dentryPut u.nextDentry) Q ((u.graft p (newChild name p)).bump p) := by
  rw [← bump_graft (hu.live_ne hx)]
  exact (wp_dentryPut_graft (s := u.bump p) (hu.bump p) (bump_self hx)).mpr hQ

theorem newborn_eq (hp : p ≠ u.nextDentry) (name : Str) (j : Nat) :
    ((u.graft p (newChild name p)).bump p).point u.nextDentry (some j) =
      (u.graft p (namedChild name p j)).bump p := by
  rw [bump_point hp.symm, point_graft hp]

theorem newborn_at (hu : TreeSane u) (hx : u.dentries p = some x) (c : Dentry) :
    ((u.graft p c).bump p).dentries u.nextDentry = some c := by
  rw [bump_dentries, if_neg (hu.live_ne hx).symm, graft_self hu hx]

/-- A child has been allocated: the directory's inode is read next. -/
theorem wp_afterAlloc {α : Type} (h : Orderly rs s) (hx : s.dentries p = some x) (hnull : E .null ∨ x.inode ≠ none)
    {k : Nat × Inode → M α} {Q : α → Fs → Prop} (hok : ∀ dir z, NodeAt s p dir z →
      wp E (k (dir, z)) Q (((s.spend s.nextInode s.nextDentry o).graft p (newChild name p)).bump p)) :
    wp E (dentryInode p >>= k) Q (((s.spend s.nextInode s.nextDentry o).graft p (newChild name p)).bump p) := by
  have hu := h.spend le_rfl le_rfl o
  have hv := (hu.graft hx name).toTreeSane.bump p
  rw [wp_bind]
  refine wp_dentryInode hv (bump_self (graft_parent hx _)) hnull fun dir z hi hz => ?_
  exact hok dir z ⟨x, hx, hi, hz⟩

/-- How `vfs_mkdir`, `vfs_symlink` and `sys_mknod` begin: a new child of the directory, whose inode is read next. -/
def withNewChild (fuel : Nat) (path : Str) (k : Nat → Nat → Nat × Inode → M Int) : M Int := do
  match ← vfsLookupParent fuel path with
  | .error e => pure e
  | .ok (parent, name) =>
    match ← dentryAlloc name (some parent) with
    | none =>
      dentryPut parent
      pure (-ENOMEM)
    | some de =>
      let dz ← dentryInode parent
      k parent de dz

theorem wp_withNewChild {k : Nat → Nat → Nat × Inode → M Int} {Q : Int → Fs → Prop} (h : Orderly rs s)
    (hl : LooksUp E s fuel path) (hnull : E .null ∨ ParentNode s fuel path)
    (hno : ∀ r t, r ≠ 0 → NodesOnly s t → Refused s fuel path → Q r t)
    (hok : ∀ p name x dir z o, ParentAt s fuel path p name dir z → s.dentries p = some x → x.inode = some dir →
      s.inodes dir = some z → o <:+ s.oracle → wp E (k p s.nextDentry (dir, z)) Q
        (((s.spend s.nextInode s.nextDentry o).graft p (newChild name p)).bump p)) :
    wp E (withNewChild fuel path k) Q s := by
  rw [withNewChild]
  refine wp_parent_full h hl (fun e n o hn hr he => ?_) fun p name x hp hx _ _ => ?_
  · exact hno e _ he (.spend h le_rfl hn o) (.inl hr)
  dsimp only
  refine wp_childOf h hx (fun o ho => ?_) fun o ho => ?_
  · dsimp only
    rw [wp_bind]
    exact wp_putParent hx (h.refs hx)
      (hno _ _ (by decide) (.spend h le_rfl le_rfl o) (.inr (.inl ho)))
  · dsimp only
    refine wp_afterAlloc h hx (hnull.imp_right fun hn => hn p name x hp hx) fun dir z hz => ?_
    obtain ⟨x', hx', hi, hz'⟩ := hz
    cases hx.symm.trans hx'
    exact hok p name x dir z o ⟨hp, x, hx, hi, hz'⟩ hx hi hz' ho

/-- A directory without operations gets no new name. -/
theorem wp_noOps {Q : Int → Fs → Prop} (h : Orderly rs s) (hat : ParentAt s fuel path p name dir z)
    (hx : s.dentries p = some x) (hops : z.ops = none)
    (hno : ∀ r t, r ≠ 0 → NodesOnly s t → Refused s fuel path → Q r t) :
    wp E (do dentryPut s.nextDentry; dentryPut p; pure (-EPERM)) Q
      (((s.spend s.nextInode s.nextDentry o).graft p (newChild name p)).bump p) := by
  have hu := h.spend le_rfl le_rfl o
  rw [wp_bind]
  refine wp_dropChild hu.toTreeSane hx ?_
  rw [wp_bind]
  exact wp_putParent hx (h.refs hx)
    (hno _ _ (by decide) (.spend h le_rfl (Nat.le_succ _) o) (.inr (.inr ⟨p, name, dir, z, hat, hops⟩)))

theorem wp_vfsSymlink (h : Orderly rs s) (hl : LooksUp E s fuel path) (hnull : E .null ∨ ParentNode s fuel path) :
    wp E (vfsSymlink fuel target path) (fun r t => NodesOnly s t ∧ Refused s fuel path ∧ r ≠ 0 ∨
      ∃ p name dir z, ParentAt s fuel path p name dir z ∧ (EmptyName s p name t ∧ false ∈ s.oracle ∨
        r = 0 ∧ Made (fun y => y.look = (S_IFLNK, 1) ∧ (false ∉ s.oracle → NewLink target y)) s p name t)) s := by
  refine wp_withNewChild h hl hnull (fun r t hr hn href => .inl ⟨hn, href, hr⟩) fun p name x dir z o hat hx _ _ ho => ?_
  have hu := h.spend le_rfl le_rfl o
  have hrefs := h.refs hx
  dsimp only
  cases hops : z.ops with
  | none => exact wp_noOps h hat hx hops fun r t hr hn href => .inl ⟨hn, href, hr⟩
  | some ops =>
    cases ops
    dsimp only
    rw [wp_bind]
    refine wp_ramfsSymlink (by exact h.freshInode le_rfl) (newborn_at hu.toTreeSane hx _)
      (fun n o' hn ho' => ?_) fun y o' ho' hpriv href hlook hlink => ?_
    · rw [wp_bind]
      refine wp_putParent (u := (s.spend n s.nextDentry o').graft p (newChild name p)) (graft_parent hx _) hrefs ?_
      exact .inr ⟨p, name, dir, z, hat, .inl ⟨⟨_, .spend h hn le_rfl o', rfl⟩, ho.mem ho'⟩⟩
    · rw [wp_bind]
      have hstate := newborn_eq (u := (s.spend s.nextInode s.nextDentry o').addNode y) (h.live_ne hx) name s.nextInode
      refine (congrArg (wp E _ _) hstate).mpr (wp_putParent (graft_parent (by exact hx) _) hrefs ?_)
      exact .inr ⟨p, name, dir, z, hat, .inr ⟨rfl, o', y, ho'.trans ho, hpriv, href,
        ⟨hlook, fun hplenty => hlink fun hmem => hplenty (ho.mem hmem)⟩, rfl⟩⟩

/-- `sys_mknod` goes through NULL where the directory has no operations. -/
theorem wp_sysMknod (h : Orderly rs s) (hl : LooksUp E s fuel path)
    (hnull : E .null ∨ ParentNode s fuel path ∧ ∀ p name dir z, ParentAt s fuel path p name dir z → z.ops ≠ none) :
    wp E (sysMknod fuel path mode dev) (fun r t => NodesOnly s t ∧ Refused s fuel path ∧ r ≠ 0 ∨
      ∃ p name dir z, ParentAt s fuel path p name dir z ∧ (EmptyName s p name t ∧ false ∈ s.oracle ∨
        r = 0 ∧ Made (fun y => y.look = (mode &&& S_IFMT, 1)) s p name t)) s := by
  refine wp_withNewChild h hl (hnull.imp_right And.left) (fun r t hr hn href => .inl ⟨hn, href, hr⟩)
    fun p name x dir z o hat hx _ _ ho => ?_
  have hu := h.spend le_rfl le_rfl o
  have hrefs := h.refs hx
  dsimp only
  cases hops : z.ops with
  | none => exact hnull.resolve_right fun hn => hn.2 p name dir z hat hops
  | some ops =>
    cases ops
    dsimp only
    rw [wp_bind]
    refine wp_ramfsMknod (by exact h.freshInode le_rfl) (newborn_at hu.toTreeSane hx _)
      (fun n o' hn ho' => ?_) fun y o' ho' hpriv href hlook => ?_
    · rw [wp_bind]
      refine wp_putParent (u := (s.spend n s.nextDentry o').graft p (newChild name p)) (graft_parent hx _) hrefs ?_
      exact .inr ⟨p, name, dir, z, hat, .inl ⟨⟨_, .spend h hn le_rfl o', rfl⟩, ho.mem ho'⟩⟩
    · rw [wp_bind]
      have hstate := newborn_eq (u := (s.spend s.nextInode s.nextDentry o').addNode y) (h.live_ne hx) name s.nextInode
      refine (congrArg (wp E _ _) hstate).mpr (wp_putParent (graft_parent (by exact hx) _) hrefs ?_)
      exact .inr ⟨p, name, dir, z, hat, .inr ⟨rfl, o', y, ho'.trans ho, hpriv, href, hlook, rfl⟩⟩

/-- The inode of a directory with one link more. -/
def Inode.linkMore (z : Inode) : Inode := { z with nlink := u32 (z.nlink + 1) }

theorem Orderly.relink (h : Orderly rs s) {z' : Inode} (hz : s.inodes i = some z) (hp : z'.priv = z.priv)
    (hr : z'.refcount = z.refcount) : Orderly rs (s.putNode i z') :=
  (NodesMove.putNode h hz (by rw [hp]; exact h.priv hz) (Nat.le_of_eq hr.symm)).orderly h

theorem wp_vfsMkdir (h : Orderly rs s) (hl : LooksUp E s fuel path) (hnull : E .null ∨ ParentNode s fuel path) :
    wp E (vfsMkdir fuel path mode) (fun r t => NodesOnly s t ∧ Refused s fuel path ∧ r ≠ 0 ∨
      ∃ p name dir z, ParentAt s fuel path p name dir z ∧ r = 0 ∧
        Made NewDir (s.putNode dir z.linkMore) p name t) s := by
  refine wp_withNewChild h hl hnull (fun r t hr hn href => .inl ⟨hn, href, hr⟩) fun p name x dir z o hat hx
    hi hz ho => ?_
  have hu := h.spend le_rfl le_rfl o
  have hrefs := h.refs hx
  dsimp only
  cases hops : z.ops with
  | none => exact wp_noOps h hat hx hops fun r t hr hn href => .inl ⟨hn, href, hr⟩
  | some ops =>
    cases ops
    dsimp only
    rw [wp_bind]
    refine wp_ramfsMkdir (by exact h.freshInode le_rfl) (newborn_at hu.toTreeSane hx _)
      (fun n o' hn ho' => ?_) (by exact hz) fun y o' ho' hpriv href hnew => ?_
    · rw [wp_bind]
      refine wp_putParent (u := (s.spend n s.nextDentry o').graft p (newChild name p)) (graft_parent hx _) hrefs ?_
      rw [if_pos (by decide), wp_bind]
      have hu' := h.spend hn le_rfl o'
      refine (wp_dentryPut_graft hu'.toTreeSane hx).mpr ?_
      exact .inl ⟨.spend h hn (Nat.le_succ _) o', .inr (.inl (ho.mem ho')), by decide⟩
    · rw [wp_bind]
      -- the new inode and the directory's are two places
      have hne : dir ≠ s.nextInode := by
        have := h.pointed_lt hx hi
        omega
      have hcomm : update (update s.inodes s.nextInode (some y)) dir (some z.linkMore) =
          update (update s.inodes dir (some z.linkMore)) s.nextInode (some y) := Function.update_comm hne.symm _ _ _
      have hstate := newborn_eq (u := ((s.spend s.nextInode s.nextDentry o').addNode y).putNode dir z.linkMore)
        (h.live_ne hx) name s.nextInode
      refine (congrArg (wp E _ _) hstate).mpr (wp_putParent (graft_parent (by exact hx) _) hrefs ?_)
      rw [if_neg (by decide)]
      refine .inr ⟨p, name, dir, z, hat, rfl, ?_⟩
      have hsame : ((s.spend s.nextInode s.nextDentry o').addNode y).putNode dir z.linkMore =
          (((s.putNode dir z.linkMore).spend s.nextInode s.nextDentry o').addNode y) := by
        simp only [Fs.putNode, Fs.addNode, Fs.spend, hcomm]
      rw [hsame]
      exact ⟨o', y, ho'.trans ho, hpriv, href, hnew, rfl⟩

end Creating

/-! ## 5. Opening with O_CREAT -/

/-- A new open file that borrows the tree's reference. -/
theorem Orderly.addBorrowed (h : Orderly rs s) {f : File} (hx : s.dentries d = some x) (hd : f.dentry = some d)
    (hr : 1 ≤ f.refcount) (hfl : hasFlag f.flags O_CREAT = true) : Orderly rs (s.addFile f) := by
  have hown : ownRef f = none := by rw [ownRef, if_pos hfl]
  refine ⟨h.toTreeSane.addFile f, h.freshInode, fun {g} hg => ?_, h.priv, h.counted, h.sole, h.sibling, h.place,
    fun {g x1} hg => ?_, fun hz => ?_, h.live⟩
  · have hg' : s.nextFile + 1 ≤ g := hg
    exact (update_of_ne (by omega) ..).trans (h.freshFile (by omega))
  · by_cases hgf : g = s.nextFile
    · subst hgf
      cases (update_self ..).symm.trans hg
      exact ⟨hr, d, x, hd, hx⟩
    · have hold : s.files g = some x1 := (update_of_ne hgf ..).symm.trans hg
      exact h.file hold
  · rw [ownRefs_addFile, hown, holds_none, Nat.add_zero]
    exact h.held hz

section Opening

variable {fuel : Nat} {path : Str} {p : Nat} {x : Dentry} {name : Str} {flags mode : Nat}

/-- `vfs_open` from the dentry on. -/
theorem wp_openDentry_orderly (h : Orderly rs s) {Q : Option Nat → Fs → Prop} (hx : s.dentries de = some x)
    (hi : x.inode = some i) (hy : s.inodes i = some y)
    (hdir : ((hasFlag flags O_WRONLY || hasFlag flags O_RDWR) && isDir y.mode) = true →
      wp E (dentryPut de) (fun _ t => Q none t) s) (hmem : ¬ s.oracle.headD true = true →
      wp E (dentryPut de) (fun _ t => Q none t) (s.spend s.nextInode s.nextDentry s.oracle.tail))
    (hok : ∀ v f, NodesOnly s v → f.dentry = some de → f.flags = flags → 1 ≤ f.refcount →
      Q (some s.nextFile) (v.addFile f)) :
    wp E (openDentry de flags) Q s := by
  have hinstall : ∀ v y', NodesOnly s v → v.nextFile = s.nextFile → v.inodes i = some y' → wp E (do
        let y1 ← getInode i
        setFile s.nextFile (some ⟨some de, y.fops, if hasFlag flags O_APPEND then y1.size else 0, flags, 1⟩)
        pure (some s.nextFile)) Q (v.addFile ⟨none, none, 0, 0, 1⟩) := fun v y' hv hnf hy' => by
    rw [wp_bind, wp_getInode (s := v.addFile _) hy', wp_bind, wp_setFile, wp_pure, ← hnf]
    simp only [Fs.addFile, update_idem]
    rw [hnf]
    have := hok v ⟨some de, y.fops, if hasFlag flags O_APPEND then y'.size else 0, flags, 1⟩ hv rfl rfl (Nat.le_refl 1)
    rw [Fs.addFile, hnf] at this
    exact this
  have hspend := NodesOnly.spend h (Nat.le_refl s.nextInode) (Nat.le_refl s.nextDentry) s.oracle.tail
  rw [openDentry, wp_bind, wp_getDentry hx, hi]
  dsimp only
  rw [wp_bind, wp_getInode hy]
  by_cases hw : ((hasFlag flags O_WRONLY || hasFlag flags O_RDWR) && isDir y.mode) = true
  · rw [if_pos hw, wp_bind]
    exact hdir hw
  rw [if_neg hw, wp_bind, fileAlloc, wp_bind, wp_allocOk]
  by_cases hm : s.oracle.headD true = true
  · rw [if_pos hm]
    simp only [wp_bind, wp_get, wp_set, wp_pure]
    by_cases htr : (hasFlag flags O_TRUNC && y.ops.isSome) = true
    · rw [if_pos htr, wp_bind]
      obtain ⟨ri, hri⟩ := Option.ne_none_iff_exists'.mp (h.priv hy)
      refine (wp_truncate_zero (s := (s.spend s.nextInode s.nextDentry s.oracle.tail).addFile ⟨none, none, 0, 0, 1⟩)
        hy hri).mpr ?_
      refine hinstall ((s.spend s.nextInode s.nextDentry s.oracle.tail).putNode i (y.emptied ri)) _ ?_ rfl
        (update_self ..)
      exact hspend.trans (.putNode (hspend.orderly h) hy rfl (by simp [Inode.emptied]) le_rfl)
    · rw [if_neg htr]
      exact hinstall (s.spend s.nextInode s.nextDentry s.oracle.tail) y hspend rfl hy
  · rw [if_neg hm]
    simp only [wp_pure, wp_bind]
    exact hmem hm

/-- What the creating part of an open leaves: nothing new, or the new name for a new file. -/
def MadeFile (s : Fs) (p : Nat) (name : Str) : Option Nat → Fs → Prop
  | none, t => NodesOnly s t
  | some k, t => k = s.nextDentry ∧ (∃ dir z, NodeAt s p dir z) ∧ ∃ s₁ j y, NodesOnly s s₁ ∧
    s₁.nextDentry = s.nextDentry ∧ s.nextInode ≤ j ∧ j < s₁.nextInode ∧ s₁.inodes j = some y ∧ NewFile y ∧
    t = s₁.graft p (namedChild name p j)

theorem wp_createChild_orderly (h : Orderly rs s) (hx : s.dentries p = some x) (hnull : E .null ∨ x.inode ≠ none) :
    wp E (createChild p name mode) (MadeFile s p name) (s.bump p) := by
  have hrefs := h.refs hx
  rw [createChild]
  refine wp_childOf h hx (fun o ho => ?_) fun o ho => ?_
  · dsimp only
    rw [wp_bind]
    exact wp_putParent hx hrefs (NodesOnly.spend h le_rfl le_rfl o)
  have hu := h.spend le_rfl le_rfl o
  -- the way out of a failure: the new child goes
  have hdrop : ∀ n o', s.nextInode ≤ n → wp E (do dentryPut s.nextDentry; dentryPut p; pure none) (MadeFile s p name)
      (((s.spend n s.nextDentry o').graft p (newChild name p)).bump p) := fun n o' hn => by
    have hu' := h.spend hn le_rfl o'
    rw [wp_bind]
    refine wp_dropChild hu'.toTreeSane hx ?_
    rw [wp_bind]
    exact wp_putParent hx hrefs (NodesOnly.spend h hn (Nat.le_succ _) o')
  dsimp only
  rw [wp_bind, wp_getDentry (bump_self (graft_parent (s := s.spend s.nextInode s.nextDentry o) hx _))]
  show wp E (deref x.inode >>= _) _ _
  cases hi : x.inode with
  | none => exact hnull.resolve_right fun hne => hne hi
  | some dir =>
    obtain ⟨z, hz⟩ := h.node hx hi
    rw [wp_bind, wp_deref, wp_bind]
    refine (wp_getInode (by exact hz)).mpr ?_
    cases z.ops with
    | none => exact hdrop s.nextInode o le_rfl
    | some ops =>
      cases ops
      dsimp only
      rw [wp_bind]
      refine wp_ramfsCreate (by exact hz) (by exact h.freshInode le_rfl) (newborn_at hu.toTreeSane hx _)
        (fun n o' hn _ => ?_) fun y m o' _ hnew => ?_
      · rw [if_pos (by decide)]
        exact hdrop n o' hn
      · rw [if_neg (by decide), wp_bind]
        obtain ⟨ino, hpriv⟩ := hnew.priv
        have hpriv : y.priv ≠ none := by simp [hpriv]
        have hdir := h.pointed_lt hx hi
        have hne : dir ≠ s.nextInode := by omega
        have hspend := NodesOnly.spend h (Nat.le_refl s.nextInode) (Nat.le_refl s.nextDentry) o'
        have hadd := hspend.trans (.addNode (hspend.orderly h) hpriv)
        have hz' : ((s.spend s.nextInode s.nextDentry o').addNode y).inodes dir = some z :=
          (update_of_ne hne ..).trans hz
        have hzp := h.priv hz
        have hput : NodesOnly s (((s.spend s.nextInode s.nextDentry o').addNode y).putNode dir { z with mtime := m }) :=
          hadd.trans (.putNode (hadd.orderly h) hz' rfl hzp le_rfl)
        have hstate := (congrArg (Fs.point · s.nextDentry (some s.nextInode)) rfl).trans (newborn_eq
          (u := ((s.spend s.nextInode s.nextDentry o').addNode y).putNode dir { z with mtime := m }) (h.live_ne hx) name
          s.nextInode)
        have hpoint := update_point (s := ((((s.spend s.nextInode s.nextDentry o').addNode y).putNode dir
          { z with mtime := m }).graft p (newChild name p)).bump p) (newborn_at hu.toTreeSane hx (newChild name p))
          (some s.nextInode)
        refine (congrArg (wp E _ _) (hpoint.trans hstate)).mpr (wp_putParent (graft_parent (by exact hx) _) hrefs ?_)
        exact ⟨rfl, ⟨dir, z, x, hx, hi, hz⟩, _, s.nextInode, y, hput, rfl, le_rfl, Nat.lt_succ_self _,
          (update_of_ne hne.symm ..).trans (update_self ..), hnew, rfl⟩

/-- An open with O_CREAT of a name that exists does not fail: the name stands for something, O_EXCL is not set, a
    directory is not opened for writing, and there is memory for the file. -/
def OpenOk (s : Fs) (path : Str) (flags : Nat) : Prop :=
  CreateOk s path flags ∧ ∀ d x, Existing s path d → s.dentries d = some x → x.inode ≠ none

/-- The new file's name, or the tree as before. -/
def OpenPost (s : Fs) (fuel : Nat) (path : Str) (t : Fs) : Prop :=
  names t = names s ∨ ∃ p name x dir z k m, ParentAt s fuel path p name dir z ∧ s.dentries p = some x ∧
    childNamed s name x.children = none ∧ s.dentries k = none ∧ m = (S_IFREG, 1) ∧
    names t = NameTree.add (names s) p k ⟨name.take nameMax, some m, []⟩

theorem wp_openCreat_orderly (h : Orderly rs s) (hl : LooksUp E s fuel path) (hfl : hasFlag flags O_CREAT = true)
    (hok : OpenOk s path flags)
    (hnull : E .null ∨ ∀ p name x, resolveParent s fuel path = some (p, name) → s.dentries p = some x →
      childNamed s name x.children = none → x.inode ≠ none) :
    wp E (vfsOpen fuel path flags mode) (fun _ t => Orderly rs t ∧ OpenPost s fuel path t) s := by
  rw [vfsOpen, if_pos hfl, openCreate, wp_bind]
  refine wp_parent h hl (fun e n o hn hr => ?_) fun p name x hp hx => ?_
  · have hn := NodesOnly.spend h le_rfl hn o
    exact ⟨hn.orderly h, .inl (hn.names_eq h.toTreeSane)⟩
  have hrefs := h.refs hx
  dsimp only
  rw [wp_bind, wp_dentryLookupChild (h.toTreeSane.bump p) (bump_self hx),
    show x.raise.children = x.children from rfl, childNamed_bump]
  cases hch : childNamed s name x.children with
  | some d =>
    have hex : Existing s path d := ⟨fuel, p, name, x, hp, hx, hch⟩
    obtain ⟨hexcl, hdir, hmem⟩ := hok.1 d hex
    obtain ⟨w, hw⟩ := h.child hx (childNamed_mem hch)
    obtain ⟨i, hi⟩ := Option.ne_none_iff_exists'.mp (hok.2 d w hex hw)
    obtain ⟨y, hy⟩ := h.node hw hi
    have hisdir : dirAt s d = isDir y.mode := by simp only [dirAt, hw, Option.bind_some, hi, hy, Option.any_some]
    rw [hisdir] at hdir
    dsimp only
    rw [if_neg (by simp [hexcl]), wp_bind]
    refine wp_putParent hx hrefs ?_
    refine wp_openDentry_orderly h hw hi hy (fun hd => ?_) (fun hm => absurd hmem hm) fun v f hv hfd hff hfr => ?_
    · rw [hdir] at hd
      cases hd
    · exact ⟨(hv.orderly h).addBorrowed (by rw [hv.dentries]; exact hw) hfd hfr (hff ▸ hfl),
        .inl (hv.names_eq h.toTreeSane)⟩
  | none =>
    refine wp_imp (wp_createChild_orderly h hx (hnull.imp_right fun hn => hn p name x hp hx hch)) fun r t hr => ?_
    cases r with
    | none =>
      have hr : NodesOnly s t := hr
      exact ⟨hr.orderly h, .inl (hr.names_eq h.toTreeSane)⟩
    | some k =>
      obtain ⟨rfl, ⟨dir, z, hz⟩, s1, j, y, hs1, hk, hj, hj', hy, hnew, rfl⟩ := hr
      obtain ⟨ino, hpriv⟩ := hnew.priv
      have hpriv : y.priv ≠ none := by simp [hpriv]
      have h1 := hs1.orderly h
      have hx1 : s1.dentries p = some x := by rw [hs1.dentries, hx]
      have hname : NewName NewFile s p name (s1.graft p (namedChild name p j)) :=
        ⟨s1, j, y, hs1, hj, hy, hpriv, hnew.refcount, hnew, rfl⟩
      have ht := hname.orderly h hx
      have hself := graft_self h1.toTreeSane hx1 (namedChild name p j)
      rw [← hk]
      refine wp_openDentry_orderly ht hself rfl hy (fun hd => ?_) (fun _ => ?_) fun v f hv hfd hff hfr => ?_
      · have hreg : isDir y.mode = false := by
          rw [isDir, hnew.kind]
          decide
        rw [hreg, Bool.and_false] at hd
        cases hd
      · -- the name is taken back, the inode stays behind
        have hspend := NodesOnly.spend h1 (Nat.le_refl s1.nextInode) (Nat.le_refl s1.nextDentry) s1.oracle.tail
        refine (wp_dentryPut_created (s := s1.spend s1.nextInode s1.nextDentry s1.oracle.tail)
          (hspend.orderly h1).toTreeSane hx1 hy hnew.refcount).mpr ?_
        have hskip := NodesOnly.spend h1 (Nat.le_refl s1.nextInode) (Nat.le_succ s1.nextDentry) s1.oracle.tail
        have hloose := NodesOnly.loose (i := j) (y := some { y with refcount := 1 }) (hskip.orderly h1) hj'
          (fun w hw => by cases hw; exact hpriv) fun {e w} he hi => by
            have := h.pointed_lt (x := w) (hs1.dentries ▸ he) hi
            omega
        have hall := (hs1.trans hskip).trans hloose
        exact ⟨hall.orderly h, .inl (hall.names_eq h.toTreeSane)⟩
      · have hv' := (hv.orderly ht).addBorrowed (by rw [hv.dentries]; exact hself) hfd hfr (hff ▸ hfl)
        obtain ⟨k, y', hk', hy', heq⟩ := hname.names_eq h hx
        refine ⟨hv', .inr ⟨p, name, x, dir, z, k, y'.look, ⟨hp, hz⟩, hx, hch, hk', ?_,
          (hv.names_eq ht.toTreeSane).trans heq⟩⟩
        rw [Inode.look, Inode.kind, hy'.kind, hy'.nlink]

end Opening

/-! ## 6. Removing and renaming -/

/-- The link count with one link less. -/
def Inode.lessLinks (y : Inode) : Nat := u32 (y.nlink + (2 ^ 32 - 1))

/-- The inode of a directory with one link less. -/
def Inode.linkLess (z : Inode) : Inode := { z with nlink := z.lessLinks }

/-- What a name stands for when a link to it is taken away: nothing, if it was the last. -/
def Inode.left (y : Inode) : Option (Nat × Nat) := if y.lessLinks = 0 then none else some (y.kind, y.lessLinks)

section Removing

variable {fuel : Nat} {path : Str} {de : Nat} {x : Dentry}

/-- A link count is set; at `0` the inode is given back; the dentry leaves its directory. -/
theorem wp_setLinks (h : Orderly rs s) (hx : s.dentries de = some x) (hi : x.inode = some i)
    (hy : s.inodes i = some y) (n : Nat) {Q : Int → Fs → Prop} (hok : ∀ t, Orderly rs t →
      names t = NameTree.remove (NameTree.setKind (names s) de (if n = 0 then none else some (y.kind, n))) de →
      Q 0 t) :
    wp E (do
      setInode i (some { y with nlink := n })
      if n = 0 then
        inodePut i
        setDentry de (some { x with inode := none })
      unlinkSibling de
      pure 0) Q s := by
  have hcount := h.counted hx hi hy
  have hzp := h.priv hy
  simp only [wp_bind, wp_setInode]
  by_cases hlast : n = 0
  · simp only [if_pos hlast] at hok ⊢
    simp only [wp_bind, inodePut]
    refine (wp_getInode (by exact update_self ..)).mpr ?_
    have hne : ¬ ({ y with nlink := n } : Inode).refcount = 1 := by
      show ¬ y.refcount = 1
      omega
    rw [if_neg hne]
    simp only [wp_setInode, update_idem, wp_setDentry]
    -- the inode keeps one reference, which no dentry holds
    have hfree : ∀ {e w}, (s.point de none).dentries e = some w → w.inode ≠ some i := fun hw hwi => by
      obtain ⟨w', hw', ⟨_, rfl⟩ | ⟨hne, rfl⟩⟩ := point_inv hw
      · cases hwi
      · exact hne (h.sole hw' hx hwi hi)
    have hpoint := h.point_none de
    have hloose := NodesOnly.loose (i := i)
      (y := some { y with nlink := n, refcount := y.refcount - 1 }) hpoint
      (by exact h.pointed_lt hx hi) (fun w hw => by cases hw; exact hzp) hfree
    have hstate := update_point (s := s.putNode i
      { y with nlink := n, refcount := y.refcount - 1 }) hx none
    refine (congrArg (wp E _ _) hstate).mpr ?_
    have hB := hloose.orderly hpoint
    obtain ⟨x', hx'⟩ := point_live (d := de) (i := none) hx
    refine (wp_unlinkSibling hB hx').mpr ?_
    refine hok _ (hB.cut de) ?_
    refine (names_cut _ de).trans ?_
    rw [hloose.names_eq hpoint.toTreeSane, names_point]
    rfl
  · simp only [if_neg hlast] at hok ⊢
    have hA : Orderly rs (s.putNode i { y with nlink := n }) := h.relink hy rfl rfl
    rw [wp_bind]
    refine (wp_unlinkSibling hA hx).mpr ?_
    refine hok _ (hA.cut de) ?_
    rw [names_cut, names_putNode h hx hi]
    rfl

/-- `ramfs_unlink`: the name goes, and what it stood for goes with the last link. -/
theorem wp_ramfsUnlink (h : Orderly rs s) (hx : s.dentries de = some x) {Q : Int → Fs → Prop}
    (hnone : x.inode = none → Q (-ENOENT) s)
    (hok : ∀ i y t, x.inode = some i → s.inodes i = some y → Orderly rs t →
      names t = NameTree.remove (NameTree.setKind (names s) de y.left) de → Q 0 t) : wp E (ramfsUnlink de) Q s := by
  rw [ramfsUnlink, wp_bind, wp_getDentry hx]
  cases hi : x.inode with
  | none => exact hnone hi
  | some i =>
    obtain ⟨y, hy⟩ := h.node hx hi
    dsimp only
    rw [wp_bind, wp_getInode hy]
    generalize hn : u32 (y.nlink + (2 ^ 32 - 1)) = n
    refine wp_setLinks h hx hi hy n fun t ht ht' => hok i y t hi hy ht ?_
    rw [ht', Inode.left, Inode.lessLinks, hn]

theorem wp_childIn {α : Type} (h : Orderly rs s) {xp : Dentry} (hp : s.dentries p = some xp) {k : Option Nat → M α}
    {Q : α → Fs → Prop} (hnone : childNamed s name xp.children = none → wp E (k none) Q (s.bump p))
    (hsome : ∀ d x, childNamed s name xp.children = some d → s.dentries d = some x → d ≠ p →
      (s.bump p).dentries d = some x → wp E (k (some d)) Q (s.bump p)) :
    wp E (dentryLookupChild p name >>= k) Q (s.bump p) := by
  rw [wp_bind, wp_dentryLookupChild (h.toTreeSane.bump p) (bump_self hp),
    show xp.raise.children = xp.children from rfl, childNamed_bump]
  cases hch : childNamed s name xp.children with
  | none => exact hnone hch
  | some d =>
    have hmem := childNamed_mem hch
    obtain ⟨x, hx⟩ := h.child hp hmem
    obtain ⟨hpar, hlink⟩ := h.sibling hp hmem hx
    obtain ⟨q, hq, hqd⟩ := h.place hx hlink
    cases hpar.symm.trans hq
    exact hsome d x hch hx hqd.symm (by rw [bump_dentries, if_neg hqd.symm, hx])

theorem wp_putHeld {Q : Int → Fs → Prop} (h : Orderly (p :: rs) u) (r : Int)
    (hQ : ∀ t, Orderly rs t → names t = names u → Q r t) : wp E (do dentryPut p; pure r) Q u := by
  rw [wp_bind]
  exact wp_dentryPut_held h fun t _ ht hn => hQ t ht hn

/-- A name that stands for a file that is no directory goes. -/
def UnlinkPost (s : Fs) (fuel : Nat) (path : Str) (r : Int) (t : Fs) : Prop :=
  names t = names s ∨ ∃ p name x dir z d i y, ParentAt s fuel path p name dir z ∧ s.dentries p = some x ∧
    childNamed s name x.children = some d ∧ NodeAt s d i y ∧ isDir y.mode = false ∧ r = 0 ∧
    names t = NameTree.remove (NameTree.setKind (names s) d y.left) d

theorem wp_vfsUnlink (h : Orderly rs s) (hl : LooksUp E s fuel path)
    (hnull : E .null ∨ ∀ p name x d w, resolveParent s fuel path = some (p, name) → s.dentries p = some x →
      childNamed s name x.children = some d → s.dentries d = some w →
      w.inode ≠ none ∧ (dirAt s d = false → x.inode ≠ none)) :
    wp E (vfsUnlink fuel path) (fun r t => Orderly rs t ∧ UnlinkPost s fuel path r t) s := by
  rw [vfsUnlink]
  refine wp_parent h hl (fun e n o hn hr => ?_) fun p name xp hp hxp => ?_
  · have hn := NodesOnly.spend h le_rfl hn o
    exact ⟨hn.orderly h, .inl (hn.names_eq h.toTreeSane)⟩
  have hb := h.bump hxp
  have hback : ∀ r : Int, wp E (do dentryPut p; pure r) (fun r t => Orderly rs t ∧ UnlinkPost s fuel path r t)
      (s.bump p) := fun r =>
    wp_putHeld hb r fun t ht hn => ⟨ht, .inl (hn.trans (names_bump s p))⟩
  dsimp only
  refine wp_childIn h hxp (fun _ => hback _) fun d x hch hx hne hxb => ?_
  dsimp only
  rw [wp_bind]
  refine wp_dentryInode hb.toTreeSane hxb (hnull.imp_right fun hn => (hn p name xp d x hp hxp hch hx).1)
    fun i y hi hy => ?_
  have hy : s.inodes i = some y := hy
  dsimp only
  by_cases hdir : isDir y.mode = true
  · rw [if_pos hdir]
    exact hback _
  rw [if_neg hdir, wp_bind]
  have hdir : isDir y.mode = false := by simpa using hdir
  have hnodir : dirAt s d = false := by simp only [dirAt, hx, Option.bind_some, hi, hy, Option.any_some, hdir]
  refine wp_dentryInode hb.toTreeSane (bump_self hxp)
    (hnull.imp_right fun hn => (hn p name xp d x hp hxp hch hx).2 hnodir) fun dir z hdi hz => ?_
  dsimp only
  cases hops : z.ops with
  | none => exact hback _
  | some ops =>
    cases ops
    dsimp only
    rw [wp_bind]
    refine wp_ramfsUnlink hb hxb (fun hno => ?_) fun i' y' t hi' hy' ht hn => ?_
    · rw [hi] at hno
      cases hno
    · cases hi.symm.trans hi'
      have hy' : s.inodes i = some y' := hy'
      cases hy.symm.trans hy'
      refine wp_putHeld ht 0 fun t' ht' hn' => ⟨ht', .inr ?_⟩
      refine ⟨p, name, xp, dir, z, d, i, y, ⟨hp, xp, hxp, hdi, hz⟩, hxp, hch, ⟨x, hx, hi, hy⟩, hdir, rfl, ?_⟩
      rw [hn', hn, names_bump]

/-- An entry without children goes, and its directory has one link less; without an inode it stays. -/
def RmdirPost (s : Fs) (fuel : Nat) (path : Str) (r : Int) (t : Fs) : Prop :=
  names t = names s ∨ ∃ p name x dir z d w, ParentAt s fuel path p name dir z ∧ s.dentries p = some x ∧
    childNamed s name x.children = some d ∧ s.dentries d = some w ∧ w.children = [] ∧ d ≠ p ∧
    (w.inode = none ∧ names t = NameTree.setKind (names s) p (some z.linkLess.look) ∨
      ∃ i y, w.inode = some i ∧ s.inodes i = some y ∧ r = 0 ∧
        names t = NameTree.remove (NameTree.setKind (NameTree.setKind (names s) p (some z.linkLess.look)) d y.left) d)

theorem wp_vfsRmdir (h : Orderly rs s) (hl : LooksUp E s fuel path)
    (hnull : E .null ∨ ∀ p name x d w, resolveParent s fuel path = some (p, name) → s.dentries p = some x →
      childNamed s name x.children = some d → s.dentries d = some w → w.children = [] → x.inode ≠ none) :
    wp E (vfsRmdir fuel path) (fun r t => Orderly rs t ∧ RmdirPost s fuel path r t) s := by
  rw [vfsRmdir]
  refine wp_parent h hl (fun e n o hn hr => ?_) fun p name xp hp hxp => ?_
  · have hn := NodesOnly.spend h le_rfl hn o
    exact ⟨hn.orderly h, .inl (hn.names_eq h.toTreeSane)⟩
  have hb := h.bump hxp
  have hback : ∀ r : Int, wp E (do dentryPut p; pure r) (fun r t => Orderly rs t ∧ RmdirPost s fuel path r t)
      (s.bump p) := fun r =>
    wp_putHeld hb r fun t ht hn => ⟨ht, .inl (hn.trans (names_bump s p))⟩
  dsimp only
  refine wp_childIn h hxp (fun _ => hback _) fun d x hch hx hne hxb => ?_
  dsimp only
  rw [wp_bind, wp_getDentry hxb]
  by_cases hempty : x.children = []
  swap
  · rw [if_pos (by exact hempty)]
    exact hback _
  rw [if_neg (by exact not_not_intro hempty), wp_bind]
  refine wp_dentryInode hb.toTreeSane (bump_self hxp)
    (hnull.imp_right fun hn => hn p name xp d x hp hxp hch hx hempty) fun dir z hdi hz => ?_
  dsimp only
  cases hops : z.ops with
  | none => exact hback _
  | some ops =>
    cases ops
    dsimp only
    rw [wp_bind, ramfsRmdir, wp_bind, wp_getDentry hxb, if_neg (by exact not_not_intro hempty), wp_bind,
      wp_getInode hz, wp_bind, wp_setInode]
    -- the directory has one link less
    have hdi' : xp.inode = some dir := hdi
    have hless : ({ z with nlink := u32 (z.nlink + (2 ^ 32 - 1)) } : Inode) = z.linkLess := by
      rw [Inode.linkLess, Inode.lessLinks]
    rw [hless]
    have hA : Orderly (p :: rs) ((s.bump p).putNode dir z.linkLess) :=
      hb.relink hz (by rw [Inode.linkLess]) (by rw [Inode.linkLess])
    have hAn : names ((s.bump p).putNode dir z.linkLess) = NameTree.setKind (names s) p (some z.linkLess.look) := by
      rw [names_putNode hb (bump_self hxp) hdi', names_bump]
    have hat : ParentAt s fuel path p name dir z := ⟨hp, xp, hxp, hdi', hz⟩
    refine wp_ramfsUnlink hA hxb (fun hno => ?_) fun i y t hi hy ht hn => ?_
    · refine wp_putHeld hA _ fun t' ht' hn' => ⟨ht', .inr ?_⟩
      exact ⟨p, name, xp, dir, z, d, x, hat, hxp, hch, hx, hempty, hne, .inl ⟨hno, hn'.trans hAn⟩⟩
    · -- the entry's inode is not the directory's
      have hidir : i ≠ dir := by
        rintro rfl
        exact hne (h.sole hx hxp hi hdi')
      have hy : s.inodes i = some y := (update_of_ne hidir ..).symm.trans hy
      refine wp_putHeld ht 0 fun t' ht' hn' => ⟨ht', .inr ?_⟩
      refine ⟨p, name, xp, dir, z, d, x, hat, hxp, hch, hx, hempty, hne, .inr ⟨i, y, hi, hy, rfl, ?_⟩⟩
      rw [hn', hn, hAn]

end Removing

end OreUnix.Vfs
