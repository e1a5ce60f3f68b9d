/-
  Subject: WHAT `vfs_rename` DOES: a new dentry gets the inode, the old one goes out of its directory.

  * `Alike` -- two states that differ in reference counts and allocation outcomes at most;
  * `Fs.moved` -- the state after `ramfs_rename` to a dentry that has just been made. The children stay with the old
    dentry;
  * `wp_vfsRename_spec` -- an error leaves a state like the first one, 0 is returned in a state like `moved`;
  * `wp_vfsRename` -- the same for the tree of names.
-/
import OreUnix.Fs.TreeSpec

namespace OreUnix.Vfs

open Function (update update_of_ne update_self)
open Wp

variable {s t u : Fs} {rs : List Nat} {E : Crash → Prop}
variable {Q : Int → Fs → Prop} {d fuel q : Nat} {new old : Str} {w xq : Dentry}

/-! ## 1. States that are alike -/

/-- All that a lookup reads of a dentry. -/
structure Place where
  name : Str
  inode : Option Nat
  parent : Option Nat
  children : List Nat
  deriving DecidableEq

def Dentry.place (x : Dentry) : Place := ⟨x.name, x.inode, x.parent, x.children⟩

def view (s : Fs) (d : Nat) : Option Place := (s.dentries d).map Dentry.place

structure Alike (s t : Fs) : Prop where
  view : view t = view s
  inodes : t.inodes = s.inodes
  root : t.root = s.root
  cwd : t.cwd = s.cwd

theorem Alike.symm (h : Alike s t) : Alike t s := ⟨h.view.symm, h.inodes.symm, h.root.symm, h.cwd.symm⟩

theorem Alike.trans (h : Alike s t) (h' : Alike t u) : Alike s u :=
  ⟨h'.view.trans h.view, h'.inodes.trans h.inodes, h'.root.trans h.root, h'.cwd.trans h.cwd⟩

theorem Alike.bump (s : Fs) (d : Nat) : Alike s (s.bump d) := by
  refine ⟨?_, rfl, rfl, rfl⟩
  funext e
  rw [Vfs.view, Vfs.view, bump_dentries]
  split
  · rw [Option.map_map]
    rfl
  · rfl

theorem Alike.aside (s : Fs) (n : Nat) (o : List Bool) : Alike s (s.aside n o) := ⟨rfl, rfl, rfl, rfl⟩

theorem Alike.names_eq (h : Alike s t) : names t = names s := by
  have hview : ∀ v : Fs, names v = fun d => (Vfs.view v d).map fun x =>
      ⟨x.name, (x.inode.bind v.inodes).map Inode.look, x.children⟩ := fun v => by
    funext d
    rw [names, Vfs.view, Option.map_map]
    rfl
  rw [hview, hview, h.view, h.inodes]

/-! ## 2. The moved entry -/

/-- `d` out of its directory and without its inode, a new child of `q` in its place. -/
def Fs.moved (s : Fs) (q : Nat) (nname : Str) (d : Nat) (i : Option Nat) : Fs :=
  (((s.graft q (newChild nname q)).point d none).point s.nextDentry i).cut d

theorem view_graft (s : Fs) (p : Nat) (c : Dentry) : view (s.graft p c) =
    update (update (view s) s.nextDentry (some c.place)) p
      ((view s p).map fun v => { v with children := v.children ++ [s.nextDentry] }) := by
  funext e
  show Option.map _ (update (update s.dentries s.nextDentry (some c)) p _ e) = _
  by_cases hep : e = p
  · subst hep
    rw [update_self, update_self, view, Option.map_map, Option.map_map]
    rfl
  · rw [update_of_ne hep, update_of_ne hep]
    by_cases hen : e = s.nextDentry
    · subst hen
      rw [update_self, update_self]
      rfl
    · rw [update_of_ne hen, update_of_ne hen]
      rfl

theorem view_point (s : Fs) (d : Nat) (i : Option Nat) (e : Nat) :
    view (s.point d i) e = if e = d then (view s e).map fun v => { v with inode := i } else view s e := by
  show Option.map _ (if e = d then (s.dentries e).map fun x => { x with inode := i } else s.dentries e) = _
  split
  · rw [view, Option.map_map, Option.map_map]
    rfl
  · rfl

theorem view_cut (s : Fs) (d e : Nat) :
    view (s.cut d) e = (view s e).map fun v => { v with children := v.children.filter (· ≠ d) } := by
  rw [view, view, Fs.cut, Option.map_map, Option.map_map]
  rfl

theorem Alike.moved (h : Alike s t) (hn : t.nextDentry = s.nextDentry) (q : Nat) (nname : Str) (d : Nat)
    (i : Option Nat) :
    Alike (s.moved q nname d i) (t.moved q nname d i) := by
  refine ⟨?_, h.inodes, h.root, h.cwd⟩
  funext e
  simp only [Fs.moved, view_cut, view_point, view_graft, hn, h.view]

theorem names_moved (h : TreeSane s) (hq : s.dentries q = some xq) (hd : s.dentries d = some w) (nname : Str) :
    names (s.moved q nname d w.inode) = NameTree.remove (NameTree.setKind (NameTree.add (names s) q s.nextDentry
        ⟨nname.take nameMax, (w.inode.bind s.inodes).map Inode.look, []⟩) d none) d := by
  rw [Fs.moved, names_cut, names_point, names_point, names_graft hq]
  exact congrArg (NameTree.remove · d)
    (NameTree.setKind_new (h.live_ne hq) (h.live_ne hd).symm (nname.take nameMax) _ none)

/-- `ramfs_rename` to a dentry that has just been made. -/
theorem wp_ramfsRename {de : Nat} (h : Orderly rs u) {nname : Str} (hq : u.dentries q = some xq)
    (hw : u.dentries de = some w) (hok : Orderly rs (u.moved q nname de w.inode) → Q 0 (u.moved q nname de w.inode)) :
    wp E (ramfsRename de u.nextDentry) Q (u.graft q (newChild nname q)) := by
  have hv := h.graft hq nname
  have hself := graft_self h.toTreeSane hq (newChild nname q)
  have hne : de ≠ u.nextDentry := h.live_ne hw
  obtain ⟨w', hw', hname, hinode, _, _⟩ := (extends_graft h.toTreeSane hq (newChild nname q)).dentry hw
  rw [Fs.moved, ← hinode] at hok
  generalize u.graft q (newChild nname q) = v at *
  -- first the old dentry points nowhere, then the new one points to the inode
  have hB : Orderly rs ((v.point de none).point u.nextDentry w'.inode) := by
    refine (hv.point_none de).point fun {i} hi => ?_
    obtain ⟨y, hy⟩ := hv.node hw' hi
    refine ⟨⟨y, hy, hv.counted hw' hi hy⟩, fun {e x} hx hxi => ?_⟩
    obtain ⟨x', hx', ⟨_, rfl⟩ | ⟨hed, rfl⟩⟩ := point_inv hx
    · cases hxi
    · exact absurd (hv.sole hx' hw' hxi hi) hed
  have hstate : (v.point u.nextDentry w'.inode).point de none = (v.point de none).point u.nextDentry w'.inode := by
    refine Fs.ext_dentries rfl fun e => ?_
    simp only [Fs.point]
    by_cases he : e = de
    · subst he
      simp only [if_pos, if_neg hne]
    · simp only [if_neg he]
  rw [ramfsRename, wp_bind, wp_getDentry hw', wp_bind, wp_getDentry hself, wp_bind, wp_setDentry,
    update_point hself, wp_bind]
  have hw'' : (v.point u.nextDentry w'.inode).dentries de = some w' := by
    show (if de = u.nextDentry then _ else _) = _
    rw [if_neg hne, hw']
  rw [wp_getDentry hw'', wp_bind, wp_setDentry, update_point hw'', hstate, wp_bind]
  obtain ⟨j, hj⟩ := point_live (d := de) (i := none) hw'
  obtain ⟨j', hj'⟩ := point_live (d := u.nextDentry) (i := w'.inode) hj
  exact (wp_unlinkSibling hB hj').mpr (hok (hB.cut de))

/-! ## 3. `vfs_rename` -/

theorem resolveParent_bump (s : Fs) (d fuel : Nat) (path : Str) :
    resolveParent (s.bump d) fuel path = resolveParent s fuel path := by
  have hres : ∀ dir, resolve (s.bump d) fuel dir none = resolve s fuel dir none := fun dir => by
    unfold resolve
    rw [resolveFrom_bump]
    rfl
  unfold resolveParent
  simp only [hres]
  rfl

theorem LooksUp.bump {path : Str} (hl : LooksUp E s fuel path) : LooksUp E (s.bump d) fuel path := by
  rcases hl with hsoft | ⟨p, name, hp, hlen⟩
  · exact .inl hsoft
  · exact .inr ⟨p, name, (resolveParent_bump ..).trans hp, hlen⟩

/-- The call ends by giving a reference back; the state is like the one before. -/
theorem wp_putLast {p : Nat} {v : Fs} (hv : Orderly (p :: rs) v) (r : Int)
    (hQ : ∀ t, Orderly rs t → Alike v t → Q r t) : wp E (do dentryPut p; pure r) Q v := by
  rw [wp_bind]
  refine wp_dentryPut_held hv fun t hb ht _ => hQ t ht ?_
  rw [hb]
  exact (Alike.bump t p).symm

/-- What is moved: the entry `name` of `p`, the dentry `d`, to the name `nname` of `q`. -/
structure Renaming (s : Fs) (fuel : Nat) (old new : Str) (p : Nat) (name : Str) (q : Nat) (nname : Str) (d : Nat)
    (w : Dentry) :
    Prop where
  parent : ∃ dir z, ParentAt s fuel old p name dir z
  nameOk : slash ∉ name ∧ name.length < nameMax
  entry : ∃ x, s.dentries p = some x ∧ childNamed s name x.children = some d
  dentry : s.dentries d = some w
  target : resolveParent s fuel new = some (q, nname)
  targetOk : slash ∉ nname ∧ nname.length < nameMax
  live : ∃ xq, s.dentries q = some xq

variable (h : Orderly rs s) (hl : LooksUp E s fuel old) (hl' : LooksUp E s fuel new)
  (hnull : E .null ∨ ∀ p name x d, resolveParent s fuel old = some (p, name) → s.dentries p = some x →
    childNamed s name x.children = some d → x.inode ≠ none)

include h hl hl' hnull

/-- **`vfs_rename`**: an error leaves a state like the first one; 0 is returned in one like `moved`. -/
theorem wp_vfsRename_spec (hfail : ∀ r t, r ≠ 0 → Orderly rs t → Alike s t → Q r t)
    (hmoved : ∀ p name q nname d w t, Renaming s fuel old new p name q nname d w → Orderly rs t →
      Alike (s.moved q nname d w.inode) t → Q 0 t) :
    wp E (vfsRename fuel old new) Q s := by
  rw [vfsRename]
  refine wp_parent_full h hl (fun e n o hn hr he => ?_) fun p name xp hp hxp hslash hlen => ?_
  · exact hfail e _ he (h.spend le_rfl hn o) (.aside s n o)
  have hb := h.bump hxp
  dsimp only
  refine wp_parent_full hb hl'.bump (fun e n o hn hr he => ?_) fun q nname xq hq hxq hslash' hlen' => ?_
  · refine wp_putLast (hb.spend le_rfl hn o) e fun t ht hal => hfail e t he ht ?_
    exact ((Alike.bump s p).trans (.aside _ n o)).trans hal
  rw [resolveParent_bump] at hq
  have hbb := hb.bump hxq
  have hal : Alike s ((s.bump p).bump q) := (Alike.bump s p).trans (.bump _ q)
  have hchild : ∀ name cs, childNamed ((s.bump p).bump q) name cs = childNamed s name cs := fun name cs => by
    rw [childNamed_bump, childNamed_bump]
  obtain ⟨n, _, hxp'⟩ := @bump_live (s.bump p) _ q p (bump_self hxp)
  obtain ⟨m, _, hxq'⟩ := @bump_live (s.bump p) _ q q hxq
  obtain ⟨xq0, hxq0, _⟩ := bump_inv hxq
  have hlive : ∀ {e y}, s.dentries e = some y →
      ∃ r, ((s.bump p).bump q).dentries e = some { y with refcount := r } := by
    intro e y hy
    obtain ⟨r, _, hr⟩ := @bump_live s _ p e hy
    obtain ⟨r', _, hr'⟩ := @bump_live (s.bump p) _ q e hr
    exact ⟨r', hr'⟩
  have hinodes : ((s.bump p).bump q).inodes = s.inodes := rfl
  have hnext : ((s.bump p).bump q).nextDentry = s.nextDentry := rfl
  generalize (s.bump p).bump q = u at *
  -- both directories are given back in the end
  have hback : ∀ {v : Fs}, Orderly (q :: p :: rs) v → ∀ r : Int, (∀ t, Orderly rs t → Alike v t → Q r t) →
      wp E (do dentryPut p; dentryPut q; pure r) Q v := by
    intro v hv r hQ
    rw [wp_bind]
    refine wp_dentryPut_held (hv.perm (.swap p q rs)) fun t hvt ht _ => ?_
    refine wp_putLast ht r fun t' ht' hal' => hQ t' ht' ?_
    rw [hvt]
    exact (Alike.bump t p).symm.trans hal'
  dsimp only
  rw [wp_bind, wp_dentryLookupChild hbb.toTreeSane hxp', hchild,
    show ({ xp.raise with refcount := n } : Dentry).children = xp.children from rfl]
  cases hch : childNamed s name xp.children with
  | none => exact hback hbb _ fun t ht hal' => hfail _ t (by decide) ht (hal.trans hal')
  | some d =>
    obtain ⟨w, hw⟩ := h.child hxp (childNamed_mem hch)
    obtain ⟨r, hwu⟩ := hlive hw
    dsimp only
    rw [wp_bind, wp_dentryAlloc hbb.toTreeSane hxq']
    have hu' := hbb.spend le_rfl le_rfl u.oracle.tail
    by_cases hmem : u.oracle.headD true = true
    swap
    · rw [if_neg hmem]
      exact hback hu' _ fun t ht hal' => hfail _ t (by decide) ht ((hal.trans (.aside u _ _)).trans hal')
    rw [if_pos hmem]
    dsimp only
    have hv := hu'.graft hxq' nname
    obtain ⟨xv, hxv, _, hxvi, _, _⟩ := (extends_graft hu'.toTreeSane hxq' (newChild nname q)).dentry hxp'
    rw [wp_bind]
    refine wp_dentryInode hv.toTreeSane hxv
      (hnull.imp_right fun hn => by rw [hxvi]; exact hn p name xp d hp hxp hch) fun dir z hdi hz => ?_
    have hdi : xp.inode = some dir := hxvi.symm.trans hdi
    have hz : u.inodes dir = some z := hz
    rw [hinodes] at hz
    dsimp only
    cases hops : z.ops with
    | none =>
      dsimp only
      rw [wp_bind]
      refine (wp_dentryPut_graft hu'.toTreeSane hxq').mpr ?_
      have hskip := NodesOnly.spend hbb le_rfl (Nat.le_succ _) u.oracle.tail
      exact hback (hskip.orderly hbb) _ fun t ht hal' =>
        hfail _ t (by decide) ht ((hal.trans (.aside u _ _)).trans hal')
    | some ops =>
      cases ops
      dsimp only
      rw [wp_bind]
      refine wp_ramfsRename hu' hxq' hwu fun ht => ?_
      refine hback ht 0 fun t' ht' hal' => hmoved p name q nname d w t' ?_ ht' (.trans ?_ hal')
      · exact ⟨⟨dir, z, hp, xp, hxp, hdi, hz⟩, ⟨hslash, hlen⟩, ⟨xp, hxp, hch⟩, hw, hq, ⟨hslash', hlen'⟩, xq0, hxq0⟩
      · exact (hal.trans (.aside u u.nextDentry u.oracle.tail)).moved hnext q nname d w.inode

/-- The name goes and comes back elsewhere, at the end of the other directory. -/
def RenamePost (s : Fs) (fuel : Nat) (old new : Str) (t : Fs) : Prop :=
  names t = names s ∨ ∃ p name x dir z q nname xq d w k, ParentAt s fuel old p name dir z ∧ s.dentries p = some x ∧
    childNamed s name x.children = some d ∧ s.dentries d = some w ∧ resolveParent s fuel new = some (q, nname) ∧
    s.dentries q = some xq ∧ s.dentries k = none ∧
    names t = NameTree.remove (NameTree.setKind (NameTree.add (names s) q k
      ⟨nname.take nameMax, (w.inode.bind s.inodes).map Inode.look, []⟩) d none) d

theorem wp_vfsRename : wp E (vfsRename fuel old new) (fun _ t => Orderly rs t ∧ RenamePost s fuel old new t) s := by
  refine wp_vfsRename_spec h hl hl' hnull (fun r t _ ht hal => ⟨ht, .inl hal.names_eq⟩)
    fun p name q nname d w t hr ht hal => ⟨ht, .inr ?_⟩
  obtain ⟨dir, z, hat⟩ := hr.parent
  obtain ⟨x, hx, hch⟩ := hr.entry
  obtain ⟨xq, hxq⟩ := hr.live
  refine ⟨p, name, x, dir, z, q, nname, xq, d, w, s.nextDentry, hat, hx, hch, hr.dentry, hr.target, hxq,
    h.fresh le_rfl, ?_⟩
  rw [hal.names_eq, names_moved h.toTreeSane hxq hr.dentry]

end OreUnix.Vfs
