/-
  Subject: WHAT CREATING AND REMOVING A NAME LEAVES BEHIND.

  `dentry_alloc` gives a new dentry one reference, which nobody drops: `ramfs_unlink` takes the dentry out of its
  directory and does not put it. `inode_alloc` and `inode_get` give the new inode two references, and `ramfs_unlink`
  drops one.

  * `create_remove_leaks` -- after any successful mkdir, symlink or mknod and the rmdir or unlink of the same path, a
    dentry is live that was not before;
  * `directory_leaks` -- mkdir("/d") and rmdir("/d") on a new root: the dentry and the inode are left.
-/
import OreUnix.Fs.TreeRun

namespace OreUnix.Vfs

open Wp

variable {s t u : Fs} {fuel fuel' : Nat} {path : Str}

/-- What is made, with the arguments of the call. -/
inductive Making where
  | directory (mode : Nat)
  | symlink (target : Str)
  | node (mode dev : Nat)

def Making.create (fuel : Nat) (path : Str) : Making → M Int
  | .directory mode => vfsMkdir fuel path mode
  | .symlink target => vfsSymlink fuel target path
  | .node mode dev => sysMknod fuel path mode dev

def Making.remove (fuel : Nat) (path : Str) : Making → M Int
  | .directory _ => vfsRmdir fuel path
  | .symlink _ | .node _ _ => vfsUnlink fuel path

/-- The same objects are live: dentries, inodes and the private data of inodes. -/
structure SameLive (s t : Fs) : Prop where
  dentries : ∀ d, s.dentries d = none ↔ t.dentries d = none
  inodes : ∀ i, s.inodes i = none ↔ t.inodes i = none
  priv : ∀ i, (s.inodes i).bind Inode.priv = none ↔ (t.inodes i).bind Inode.priv = none

theorem names_eq_none {d : Nat} : names s d = none ↔ s.dentries d = none := Option.map_eq_none_iff

/-- A dentry is there that was not. -/
def NewDentry (s t : Fs) : Prop := ∃ d, s.dentries d = none ∧ t.dentries d ≠ none

theorem NewDentry.of_add {p k : Nat} {nd : NameTree.Node Nat Str (Nat × Nat)} {x : Dentry} (hx : s.dentries p = some x)
    (hk : s.dentries k = none) (hn : names t = NameTree.add (names s) p k nd) : NewDentry s t := by
  refine ⟨k, hk, fun hnone => ?_⟩
  have hpk : k ≠ p := fun h => by
    rw [h, hx] at hk
    cases hk
  have hat := congrFun hn k
  rw [names_eq_none.mpr hnone, NameTree.add, Function.update_of_ne hpk, Function.update_self] at hat
  cases hat

/-- The removed name stays as a dentry. -/
theorem UnlinkPost.keeps {r : Int} (h : UnlinkPost s fuel path r t) (d : Nat) (hd : t.dentries d = none) :
    s.dentries d = none := by
  rw [← names_eq_none] at hd ⊢
  rcases h with hn | ⟨_, _, _, _, _, e, _, _, _, _, _, _, _, _, hn⟩
  · rwa [← hn]
  · rw [hn, NameTree.remove, NameTree.setKind, Option.map_eq_none_iff] at hd
    split at hd
    · exact Option.map_eq_none_iff.mp hd
    · exact hd

theorem RmdirPost.keeps {r : Int} (h : RmdirPost s fuel path r t) (d : Nat) (hd : t.dentries d = none) :
    s.dentries d = none := by
  rw [← names_eq_none] at hd ⊢
  rcases h with hn | ⟨_, _, _, _, _, e, _, _, _, _, _, _, _, ⟨_, hn⟩ | ⟨_, _, _, _, _, hn⟩⟩
  · rwa [← hn]
  · rw [hn, NameTree.setKind] at hd
    split at hd
    · exact Option.map_eq_none_iff.mp hd
    · exact hd
  · rw [hn, NameTree.remove, Option.map_eq_none_iff, NameTree.setKind, NameTree.setKind] at hd
    split at hd
    · rw [Option.map_eq_none_iff] at hd
      split at hd
      · exact Option.map_eq_none_iff.mp hd
      · exact hd
    · split at hd
      · exact Option.map_eq_none_iff.mp hd
      · exact hd

abbrev AnyCrash : Crash → Prop := fun _ => True

/-- **A successful creation** makes a dentry. -/
theorem Making.create_new (h : Orderly [] s) (c : Making) :
    wp AnyCrash (c.create fuel path) (fun r t => r = 0 → Orderly [] t ∧ NewDentry s t) s := by
  have hl : LooksUp AnyCrash s fuel path := .inl ⟨⟨trivial, trivial⟩, .inl trivial⟩
  have hempty : ∀ {p name dir z t}, ParentAt s fuel path p name dir z → EmptyName s p name t →
      Orderly [] t ∧ NewDentry s t := by
    intro p name dir z t hat hn
    obtain ⟨x, hx, _⟩ := hat.2
    obtain ⟨k, hk, heq⟩ := hn.names_eq h hx
    exact ⟨hn.orderly h hx, .of_add hx hk heq⟩
  have hnew : ∀ {K p name dir z t}, ParentAt s fuel path p name dir z → NewName K s p name t →
      Orderly [] t ∧ NewDentry s t := by
    intro K p name dir z t hat hn
    obtain ⟨x, hx, _⟩ := hat.2
    obtain ⟨k, _, hk, _, heq⟩ := hn.names_eq h hx
    exact ⟨hn.orderly h hx, .of_add hx hk heq⟩
  cases c with
  | directory mode =>
    refine wp_imp (wp_vfsMkdir h hl (.inl trivial)) fun r t ht hr => ?_
    rcases ht with ⟨_, _, hne⟩ | ⟨p, name, dir, z, hat, _, hm⟩
    · exact absurd hr hne
    · obtain ⟨x, hx, hi, hz⟩ := hat.2
      have hmore : Orderly [] (s.putNode dir z.linkMore) := h.relink hz rfl rfl
      have hn := hm.newName hmore
      obtain ⟨k, _, hk, _, heq⟩ := hn.names_eq hmore hx
      obtain ⟨d, hd, hd'⟩ := NewDentry.of_add (s := s.putNode dir z.linkMore) hx hk heq
      exact ⟨hn.orderly hmore hx, d, hd, hd'⟩
  | symlink target =>
    refine wp_imp (wp_vfsSymlink h hl (.inl trivial)) fun r t ht hr => ?_
    rcases ht with ⟨_, _, hne⟩ | ⟨p, name, dir, z, hat, ⟨hn, _⟩ | ⟨_, hm⟩⟩
    · exact absurd hr hne
    · exact hempty hat hn
    · exact hnew hat (hm.newName h)
  | node mode dev =>
    refine wp_imp (wp_sysMknod h hl (.inl trivial)) fun r t ht hr => ?_
    rcases ht with ⟨_, _, hne⟩ | ⟨p, name, dir, z, hat, ⟨hn, _⟩ | ⟨_, hm⟩⟩
    · exact absurd hr hne
    · exact hempty hat hn
    · exact hnew hat (hm.newName h)

/-- A removal frees no dentry. -/
theorem Making.remove_keeps (h : Orderly [] s) (c : Making) :
    wp AnyCrash (c.remove fuel path) (fun _ t => ∀ d, t.dentries d = none → s.dentries d = none) s := by
  have hl : LooksUp AnyCrash s fuel path := .inl ⟨⟨trivial, trivial⟩, .inl trivial⟩
  cases c with
  | directory _ => exact wp_imp (wp_vfsRmdir h hl (.inl trivial)) fun r t ht => ht.2.keeps
  | symlink _ => exact wp_imp (wp_vfsUnlink h hl (.inl trivial)) fun r t ht => ht.2.keeps
  | node _ _ => exact wp_imp (wp_vfsUnlink h hl (.inl trivial)) fun r t ht => ht.2.keeps

/-- **Creating and removing leaks a dentry**, always. -/
theorem create_remove_leaks (h : Orderly [] s) (c : Making) {r : Int} (hc : c.create fuel path s = .ok (0, t))
    (hr : c.remove fuel' path t = .ok (r, u)) : ¬ SameLive s u := by
  obtain ⟨ht, d, hd, hd'⟩ := wp_ok (c.create_new h) hc rfl
  have hkeep := wp_ok (c.remove_keeps ht) hr d
  exact fun hsame => hd' (hkeep ((hsame.dentries d).mp hd))

/-- A call on a given state, by running it. -/
theorem exists_result {α : Type} (m : M α) (s : Fs) (P : α → Fs → Prop) [∀ a t, Decidable (P a t)]
    (h : (m s).toOption.any (fun r => decide (P r.1 r.2)) = true) : ∃ a t, m s = .ok (a, t) ∧ P a t := by
  cases hm : m s with
  | error e =>
    rw [hm] at h
    cases h
  | ok r =>
    rw [hm] at h
    exact ⟨r.1, r.2, rfl, of_decide_eq_true h⟩

/-- mkdir("/d") and rmdir("/d"). -/
theorem create_remove_leaks_directory : ∃ t u, Orderly [] (freshRoot 0 0 0 1) ∧
    (Making.directory 0o755).create 5 [47, 100] (freshRoot 0 0 0 1) = .ok (0, t) ∧
    (Making.directory 0o755).remove 5 [47, 100] t = .ok (0, u) ∧ ¬ SameLive (freshRoot 0 0 0 1) u := by
  obtain ⟨r, t, hc, rfl, hany⟩ := exists_result ((Making.directory 0o755).create 5 [47, 100]) (freshRoot 0 0 0 1)
    (fun r t => r = 0 ∧ (((Making.directory 0o755).remove 5 [47, 100] t).toOption.any fun r => decide (r.1 = 0)) = true)
    (by decide +kernel)
  obtain ⟨r, u, hr, rfl⟩ := exists_result ((Making.directory 0o755).remove 5 [47, 100]) t (fun r _ => r = 0) hany
  exact ⟨t, u, freshRoot_orderly, hc, hr, create_remove_leaks freshRoot_orderly (.directory 0o755) hc hr⟩

/-- **A directory that is gone** and its two objects: the dentry stands in no list and has a reference, and so has the
    inode, which no dentry refers to. -/
theorem directory_leaks : ∃ a u, (do
      let r ← vfsMkdir 5 [47, 100] 0o755
      let r' ← vfsRmdir 5 [47, 100]
      pure (r, r') : M (Int × Int)) (freshRoot 0 0 0 1) = .ok (a, u) ∧ a = (0, 0) ∧
    (u.dentries 1).map (fun x => (x.inode, x.linked, x.refcount)) = some (none, false, 1) ∧
    (u.dentries 0).map (fun x => (x.inode, x.children)) = some (some 0, []) ∧
    (u.inodes 1).map Inode.refcount = some 1 :=
  exists_result _ _ _ (by decide +kernel)

end OreUnix.Vfs
