/-
  Subject: THE LINK COUNTS OF DIRECTORIES over runs of the calls that change the tree.

  * `link_counts` -- from a mounted root, over every run of calls that `LinkSafe` admits: a directory's count is one
    more than the number of its subdirectories, the root's two more; `rmdir` takes away only directories without
    children; and what a removed name stood for is released exactly when its count has come down to zero;
  * `moved_directory_wraps` -- a directory moved to another one and removed there takes that one's count to zero, and
    removing the other takes it below.

  `mkdir` and `rmdir` change the count of the directory they work in; `rename`, `mknod` and an open with O_CREAT that
  fails do not, and `rmdir` changes it whatever it removes.
-/
import OreUnix.Fs.TreeRun

namespace OreUnix.Vfs

open Function (update update_self update_idem update_eq_self)
open Wp Lts NameTree

variable {s t : Fs}
variable {d p : Nat} {l : Nat × Nat} {v : Tree Nat Str (Nat × Nat)} {y : Inode}

/-! ## 1. Counts -/

/-- What shows as a directory in the tree of names. -/
def dirLook (m : Nat × Nat) : Bool := m.1 == S_IFDIR

/-- The links a directory has without subdirectories. -/
def ownLinks (root d : Nat) : Nat := if d = root then 2 else 1

/-- The number of subdirectories. -/
def subdirCount (s : Fs) (x : Dentry) : Nat := x.children.countP (dirAt s)

/-- **The link counts are right.** The field is a 32-bit word. -/
def LinksRight (root : Nat) (s : Fs) : Prop :=
  ∀ d x i y, s.dentries d = some x → x.inode = some i → s.inodes i = some y → isDir y.mode = true →
    y.nlink = u32 (ownLinks root d + subdirCount s x)

/-- The step takes `d` out of the tree. -/
def Gone (s t : Fs) (d : Nat) : Prop :=
  (∃ p x, s.dentries p = some x ∧ d ∈ x.children) ∧ ∀ p x, t.dentries p = some x → d ∉ x.children

/-- What a removing call takes away, and when its inode goes with it. -/
structure RemovesRight (s : Fs) (c : TreeCall) (t : Fs) : Prop where
  empty : ∀ path, c = .rmdir path → ∀ d x, Gone s t d → s.dentries d = some x → dirAt s d = true ∧ x.children = []
  released : (∃ path, c = .rmdir path ∨ c = .unlink path) → ∀ d i y, Gone s t d → NodeAt s d i y →
    ((∃ x, t.dentries d = some x ∧ x.inode = none) ↔ y.lessLinks = 0)

/-- The calls that keep the counts: no directory is made by `mknod`; an open with O_CREAT that finds the name does not
    fail; a directory is renamed within its directory and while it has no subdirectories; `rmdir` of an entry without
    children is of a directory. -/
def LinkSafe (s : Fs) : TreeCall → Prop
  | .mknod _ mode _ => mode &&& S_IFMT ≠ S_IFDIR
  | .create path flags _ => OpenOk s path (flags ||| O_CREAT)
  | .rename old new => ∀ fuel p name x d w q nname, resolveParent s fuel old = some (p, name) →
      s.dentries p = some x → childNamed s name x.children = some d → s.dentries d = some w → dirAt s d = true →
      resolveParent s fuel new = some (q, nname) → q = p ∧ ∀ c ∈ w.children, dirAt s c = false
  | .rmdir path => ∀ d w, Existing s path d → s.dentries d = some w → w.children = [] → dirAt s d = true
  | _ => True

theorem LinkSafe.sound {c : TreeCall} (h : LinkSafe s c) : Sound s c := by
  cases c <;> first | exact h | trivial

/-- A step whose call keeps the counts. -/
def LinkStep (s : Fs) (e : TreeCall × List Bool) (t : Fs) : Prop :=
  LinkSafe (s.meets e.2) e.1 ∧ TreeStep s e t

/-! ## 2. Arithmetic of the 32-bit count -/

theorem u32_more (n : Nat) : u32 (u32 n + 1) = u32 (n + 1) := by
  simp only [u32]
  omega

theorem u32_less (n : Nat) : u32 (u32 (n + 1) + (2 ^ 32 - 1)) = u32 n := by
  simp only [u32]
  omega

/-- A directory's count after `rmdir` in it. -/
theorem lessLinks_eq {n : Nat} (h : y.nlink = u32 (n + 1)) : y.lessLinks = u32 n := by
  rw [Inode.lessLinks, h, u32_less]

theorem left_last (h : y.lessLinks = 0) : y.left = none := by
  rw [Inode.left, if_pos h]

theorem left_not_dir (h : isDir y.mode = false) : y.left.any dirLook = false := by
  rw [Inode.left]
  generalize y.lessLinks = n
  split
  · rfl
  · exact h

/-! ## 3. The invariant -/

theorem isDirAt_names (s : Fs) (d : Nat) : isDirAt dirLook (names s) d = dirAt s d := by
  unfold isDirAt names dirAt
  rw [Option.any_map]
  cases s.dentries d with
  | none => rfl
  | some x =>
    rw [Option.any_some, Option.bind_some]
    show (Option.map Inode.look (x.inode.bind s.inodes)).any dirLook = _
    rw [Option.any_map]
    rfl

theorem subdirs_names (s : Fs) (cs : List Nat) : subdirs dirLook (names s) cs = cs.countP (dirAt s) :=
  List.countP_congr fun c _ => by rw [isDirAt_names]

abbrev CountedAt (v : Tree Nat Str (Nat × Nat)) : Prop := Counted dirLook Prod.snd u32 (ownLinks 0) v

structure LinkInv (s : Fs) : Prop where
  orderly : Orderly [] s
  forest : Forest 0 (names s)
  counted : CountedAt (names s)

theorem LinkInv.right (h : LinkInv s) : LinksRight 0 s := by
  intro d x i y hx hi hy hdir
  have hkind : (x.inode.bind s.inodes).map Inode.look = some y.look := by simp [hi, hy]
  have := h.counted d _ y.look (names_some hx) hkind hdir
  rw [subdirs_names] at this
  exact this

theorem freshRoot_linkInv (uid gid jiffies ino : Nat) : LinkInv (freshRoot uid gid jiffies ino) := by
  refine ⟨freshRoot_orderly,
    ⟨?_, fun d n hn => ?_, fun d n hn c hc => ?_, fun d n hn => ?_, fun d e n m hn hm _ _ _ => ?_⟩,
    fun d n m hn hm _ => ?_⟩
  · exact Option.some_ne_none _
  · obtain ⟨_, rfl⟩ := freshRoot_names hn
    exact List.not_mem_nil
  · obtain ⟨_, rfl⟩ := freshRoot_names hn
    cases hc
  · obtain ⟨_, rfl⟩ := freshRoot_names hn
    exact List.nodup_nil
  · rw [(freshRoot_names hn).1, (freshRoot_names hm).1]
  · obtain ⟨rfl, rfl⟩ := freshRoot_names hn
    cases hm
    exact show 2 = u32 (2 + 0) by decide

section Edits

variable {v : Tree Nat Str (Nat × Nat)} {p k d : Nat} {x : Node Nat Str (Nat × Nat)} {nm : Str}

variable (hf : Forest 0 v) (hc : CountedAt v)

include hf hc

theorem counted_add_plain (hp : v p ≠ none) (hk : v k = none)
    {m : Option (Nat × Nat)} (hm : m.any dirLook = false) :
    Forest 0 (add v p k ⟨nm, m, []⟩) ∧ CountedAt (add v p k ⟨nm, m, []⟩) := by
  refine ⟨hf.add hp hk rfl, ?_⟩
  have hadd := hc.add hf hp hk (n := ⟨nm, m, []⟩) rfl (fun l hl hd => ?_) (b := ownLinks 0 p) (by simp [hm])
  · rwa [update_eq_self] at hadd
  · have hl : m = some l := hl
    rw [hl, Option.any_some, hd] at hm
    cases hm

theorem counted_drop_plain (hp : v p = some x) (hd : d ∈ x.children)
    (hdir : isDirAt dirLook v d = false) {m : Option (Nat × Nat)} (hm : m.any dirLook = false) :
    Forest 0 (remove (setKind v d m) d) ∧ CountedAt (remove (setKind v d m) d) := by
  refine ⟨(hf.setKind d m).remove d, ?_⟩
  have hdrop := hc.drop hf hp hd hm (b := ownLinks 0 p) (by simp [hdir])
  rwa [update_eq_self] at hdrop

/-- A new directory, with one link more for the directory it is in. -/
theorem counted_mkdir (hp : v p = some x) (hl : x.kind = some l)
    (hk : v k = none) :
    Forest 0 (add (setKind v p (some (l.1, u32 (l.2 + 1)))) p k ⟨nm, some (S_IFDIR, 1), []⟩) ∧
      CountedAt (add (setKind v p (some (l.1, u32 (l.2 + 1)))) p k ⟨nm, some (S_IFDIR, 1), []⟩) := by
  have hf' := hf.setKind p (some (l.1, u32 (l.2 + 1)))
  have hp' : setKind v p (some (l.1, u32 (l.2 + 1))) p ≠ none := by simp [setKind, hp]
  have hpk : p ≠ k := by
    rintro rfl
    rw [hp] at hk
    cases hk
  have hk' : setKind v p (some (l.1, u32 (l.2 + 1))) k = none := by rw [setKind, if_neg hpk.symm, hk]
  have hk0 : k ≠ 0 := by
    rintro rfl
    exact hf.root hk
  refine ⟨hf'.add hp' hk' rfl, ?_⟩
  have hkind : dirLook (l.1, u32 (l.2 + 1)) = dirLook l := rfl
  have hmore : Counted dirLook Prod.snd u32 (update (ownLinks 0) p (ownLinks 0 p + 1))
      (setKind v p (some (l.1, u32 (l.2 + 1)))) := hc.relink hp hl hkind fun j hj => ?_
  · have hadd := hmore.add hf' hp' hk' (n := ⟨nm, some (S_IFDIR, 1), []⟩) rfl (fun m hm _ => ?_) (b := ownLinks 0 p) ?_
    · rwa [update_idem, update_eq_self] at hadd
    · cases hm
      rw [Function.update_of_ne hpk.symm, ownLinks, if_neg hk0]
      decide
    · rw [update_self]
      rfl
  · show u32 (l.2 + 1) = _
    rw [show l.2 = u32 (ownLinks 0 p + j) from hj, u32_more]
    congr 1
    omega

/-- A directory without children goes, with one link less for the directory it was in. -/
theorem counted_rmdir (hp : v p = some x) (hl : x.kind = some l)
    (hd : d ∈ x.children) (hne : d ≠ p) (hdir : isDirAt dirLook v d = true) {m : Nat}
    (hm : ∀ n, l.2 = u32 (n + 1) → m = u32 n) :
    Forest 0 (remove (setKind (setKind v p (some (l.1, m))) d none) d) ∧
      CountedAt (remove (setKind (setKind v p (some (l.1, m))) d none) d) := by
  have hf' := hf.setKind p (some (l.1, m))
  have hp' : setKind v p (some (l.1, m)) p = some { x with kind := some (l.1, m) } := by
    rw [setKind, if_pos rfl, hp, Option.map_some]
  have hown : ownLinks 0 p = ownLinks 0 p - 1 + 1 := by
    unfold ownLinks
    split <;> rfl
  refine ⟨(hf'.setKind d none).remove d, ?_⟩
  have hkind : dirLook (l.1, m) = dirLook l := rfl
  have hless : Counted dirLook Prod.snd u32 (update (ownLinks 0) p (ownLinks 0 p - 1)) (setKind v p (some (l.1, m))) :=
    hc.relink hp hl hkind fun j hj => ?_
  · have hdrop := hless.drop hf' hp' (d := d) hd (m := none) rfl (b := ownLinks 0 p) ?_
    · rwa [update_idem, update_eq_self] at hdrop
    · rw [update_self, isDirAt_setKind_of_ne _ hne, if_pos hdir]
      exact hown
  · refine hm _ (Eq.trans (show l.2 = u32 (ownLinks 0 p + j) from hj) (congrArg u32 ?_))
    omega

/-- A directory without subdirectories gets another name where it is. -/
theorem counted_rename_dir (hp : v p = some x) (hd : d ∈ x.children)
    (hk : v k = none) {w : Node Nat Str (Nat × Nat)} (hw : v d = some w) (hdir : isDirAt dirLook v d = true)
    (hsub : subdirs dirLook v w.children = 0) :
    Forest 0 (remove (setKind (add v p k ⟨nm, w.kind, []⟩) d none) d) ∧
      CountedAt (remove (setKind (add v p k ⟨nm, w.kind, []⟩) d none) d) := by
  have hp' : v p ≠ none := by simp [hp]
  have hk0 : k ≠ 0 := by
    rintro rfl
    exact hf.root hk
  have hd0 : d ≠ 0 := by
    rintro rfl
    exact hf.top p x hp hd
  have hdk : d ≠ k := by
    rintro rfl
    rw [hw] at hk
    cases hk
  have hkind : w.kind.any dirLook = true := by
    rw [isDirAt, hw, Option.any_some] at hdir
    exact hdir
  have hf' := hf.add (n := ⟨nm, w.kind, []⟩) hp' hk rfl
  refine ⟨(hf'.setKind d none).remove d, ?_⟩
  have hadd := hc.add hf hp' hk (n := ⟨nm, w.kind, []⟩) rfl (fun m hm hdm => ?_) (b := ownLinks 0 p - 1) ?_
  · have hpadd : add v p k ⟨nm, w.kind, []⟩ p = some { x with children := x.children ++ [k] } := by
      rw [add, update_self, hp, Option.map_some]
    have hdrop := hadd.drop hf' hpadd (d := d) (List.mem_append_left _ hd) (m := none) rfl (b := ownLinks 0 p) ?_
    · rwa [update_idem, update_eq_self] at hdrop
    · rw [update_self, isDirAt_add hp' hk, if_neg hdk, if_pos hdir]
      unfold ownLinks
      split <;> rfl
  · have hold := hc d w m hw hm hdm
    rw [hsub, ownLinks, if_neg hd0] at hold
    rw [ownLinks, if_neg hk0]
    exact hold
  · rw [if_pos hkind]
    unfold ownLinks
    split <;> rfl

end Edits

/-! ## 4. Steps -/

section Steps

variable {fuel : Nat}

theorem ParentAt.names {path : Str} {name : Str} {dir : Nat} {z : Inode} {x : Dentry}
    (h : ParentAt s fuel path p name dir z) (hx : s.dentries p = some x) :
    names s p = some ⟨x.name, some z.look, x.children⟩ := by
  obtain ⟨x', hx', hi, hz⟩ := h.2
  cases hx.symm.trans hx'
  rw [names_some hx, hi, Option.bind_some, hz, Option.map_some]

theorem look_nlink (z : Inode) (n : Nat) : ({ z with nlink := n } : Inode).look = (z.look.1, n) := rfl

/-- A directory without children has one link. -/
theorem links_of_empty (hf : Forest 0 (names s)) (hc : CountedAt (names s)) {i : Nat} {x w : Dentry}
    (hx : s.dentries p = some x) (hd : d ∈ x.children) (hw : s.dentries d = some w) (hempty : w.children = [])
    (hdir : dirAt s d = true) (hi : w.inode = some i) (hy : s.inodes i = some y) : y.lessLinks = 0 := by
  have hd0 : d ≠ 0 := by
    rintro rfl
    exact hf.top p _ (names_some hx) hd
  have hkind : (w.inode.bind s.inodes).map Inode.look = some y.look := by simp [hi, hy]
  have hisdir : isDir y.mode = true := by
    simpa only [dirAt, hw, Option.bind_some, hi, hy, Option.any_some] using hdir
  have hlinks := hc d _ y.look (names_some hw) hkind hisdir
  rw [hempty, ownLinks, if_neg hd0] at hlinks
  exact lessLinks_eq (n := 0) hlinks

/-- **A step keeps the counts.** -/
theorem link_step {e : TreeCall × List Bool} (h : LinkInv s) (hs : LinkStep s e t) : LinkInv t := by
  obtain ⟨c, o⟩ := e
  obtain ⟨hsafe, hstep⟩ := hs
  obtain ⟨ht, fuel, hedit⟩ := step_edit h.orderly hsafe.sound hstep
  have ho : Orderly [] (s.meets o) := h.orderly.meets o
  have hf : Forest 0 (names (s.meets o)) := h.forest
  have hc : CountedAt (names (s.meets o)) := h.counted
  dsimp only at hsafe hedit
  generalize s.meets o = s at *
  clear h hstep
  suffices hnames : Forest 0 (names t) ∧ CountedAt (names t) from ⟨ht, hnames.1, hnames.2⟩
  have hsame : names t = names s → Forest 0 (names t) ∧ CountedAt (names t) := fun heq => by
    rw [heq]
    exact ⟨hf, hc⟩
  have hmake : ∀ {path K}, MakePost s fuel path K t → (∀ m, K m → m.any dirLook = false) →
      Forest 0 (names t) ∧ CountedAt (names t) := fun {path K} hp hK => by
    rcases hp with heq | ⟨p, name, x, dir, z, k, m, _, hx, hk, hm, heq⟩
    · exact hsame heq
    · rw [heq]
      exact counted_add_plain hf hc (by simp [names_some hx]) (names_none hk) (hK m hm)
  cases c with
  | mkdir path mode =>
    rcases hedit with heq | ⟨p, name, x, dir, z, k, hat, hx, hk, heq⟩
    · exact hsame heq
    · rw [heq]
      exact counted_mkdir hf hc (hat.names hx) rfl (names_none hk)
  | create path flags mode =>
    rcases hedit with heq | ⟨p, name, x, dir, z, k, m, _, hx, _, hk, rfl, heq⟩
    · exact hsame heq
    · rw [heq]
      exact counted_add_plain hf hc (by simp [names_some hx]) (names_none hk) (by decide)
  | symlink target path =>
    refine hmake hedit fun m hm => ?_
    rcases hm with ⟨rfl, _⟩ | rfl
    · rfl
    · decide
  | mknod path mode dev =>
    have hmode : mode &&& S_IFMT ≠ S_IFDIR := hsafe
    refine hmake hedit fun m hm => ?_
    rcases hm with ⟨rfl, _⟩ | rfl
    · rfl
    · simpa [dirLook] using hmode
  | rename old new =>
    rcases hedit with heq | ⟨p, name, x, dir, z, q, nname, xq, d, w, k, hat, hx, hch, hw, hq, hxq, hk, heq⟩
    · exact hsame heq
    · rw [heq]
      have hmem := childNamed_mem hch
      by_cases hdir : dirAt s d = true
      · obtain ⟨rfl, hsub⟩ := hsafe fuel p name x d w q nname hat.1 hx hch hw hdir hq
        refine counted_rename_dir hf hc (names_some hx) hmem (names_none hk) (names_some hw)
          (by rw [isDirAt_names, hdir]) ?_
        rw [subdirs_names]
        exact List.countP_eq_zero.mpr fun c hc => by simp [hsub c hc]
      · have hplain : isDirAt dirLook (names s) d = false := by simpa [isDirAt_names] using hdir
        have hkind : ((w.inode.bind s.inodes).map Inode.look).any dirLook = false := by
          rw [isDirAt, names_some hw, Option.any_some] at hplain
          exact hplain
        have hq' : names s q ≠ none := by simp [names_some hxq]
        obtain ⟨hf', hc'⟩ := @counted_add_plain _ _ _ (nname.take nameMax) hf hc hq' (names_none hk) _ hkind
        have hdk : d ≠ k := by
          rintro rfl
          rw [hw] at hk
          cases hk
        obtain ⟨y, hy, hdy⟩ := add_mem (p := q) (n := ⟨nname.take nameMax, (w.inode.bind s.inodes).map Inode.look, []⟩)
          (names_none hk) (names_some hx) hmem
        refine counted_drop_plain hf' hc' hy hdy ?_ rfl
        rw [isDirAt_add hq' (names_none hk), if_neg hdk]
        exact hplain
  | unlink path =>
    obtain ⟨r, hedit⟩ := hedit
    rcases hedit with heq | ⟨p, name, x, dir, z, d, i, y, hat, hx, hch, ⟨w, hw, hi, hy⟩, hdir, _, heq⟩
    · exact hsame heq
    · rw [heq]
      refine counted_drop_plain hf hc (names_some hx) (childNamed_mem hch) ?_ (left_not_dir hdir)
      simp only [isDirAt_names, dirAt, hw, Option.bind_some, hi, hy, Option.any_some, hdir]
  | rmdir path =>
    obtain ⟨r, hedit⟩ := hedit
    rcases hedit with heq | ⟨p, name, x, dir, z, d, w, hat, hx, hch, hw, hempty, hne, hcase⟩
    · exact hsame heq
    · have hdir := hsafe d w ⟨fuel, p, name, x, hat.1, hx, hch⟩ hw hempty
      rcases hcase with ⟨hnone, _⟩ | ⟨i, y, hi, hy, _, heq⟩
      · simp [dirAt, hw, hnone] at hdir
      · have hmem := childNamed_mem hch
        rw [heq, left_last (links_of_empty hf hc hx hmem hw hempty hdir hi hy), Inode.linkLess, look_nlink]
        exact counted_rmdir hf hc (hat.names hx) rfl hmem hne (by rw [isDirAt_names, hdir])
          fun n hn => lessLinks_eq hn

end Steps

/-! ## 5. Removals -/

section Removals

variable {d e : Nat}

/-- The lists of children lose `e` and nothing else. -/
def ListsLose (s t : Fs) (e : Nat) : Prop :=
  ∀ p, (names t p).map Node.children = (names s p).map fun n => n.children.filter (· ≠ e)

theorem lists_drop (m : Option (Nat × Nat)) (p : Nat) :
    (remove (setKind v e m) e p).map Node.children = (v p).map fun n => n.children.filter (· ≠ e) := by
  unfold remove setKind
  split <;> simp [Option.map_map, Function.comp_def]

theorem lists_setKind (m : Option (Nat × Nat)) (p : Nat) :
    ((setKind v d m p).map fun n => n.children.filter (· ≠ e)) = (v p).map fun n => n.children.filter (· ≠ e) := by
  unfold setKind
  split <;> simp [Option.map_map, Function.comp_def]

/-- What is gone is the one that was taken out. -/
theorem gone_eq (h : ListsLose s t e) (hg : Gone s t d) : d = e := by
  obtain ⟨⟨p, x, hx, hd⟩, hnot⟩ := hg
  by_contra hne
  have hp := h p
  rw [names_some hx, Option.map_some] at hp
  obtain ⟨n, hn, hch⟩ := Option.map_eq_some_iff.mp hp
  obtain ⟨x', hx', rfl⟩ := Option.map_eq_some_iff.mp hn
  refine hnot p x' hx' ?_
  rw [show x'.children = x.children.filter (· ≠ e) from hch]
  exact List.mem_filter.mpr ⟨hd, by simpa using hne⟩

theorem not_gone_of_same (h : names t = names s) : ¬ Gone s t d := by
  rintro ⟨⟨p, x, hx, hd⟩, hnot⟩
  have hp := congrFun h p
  rw [names_some hx] at hp
  obtain ⟨x', hx', heq⟩ := Option.map_eq_some_iff.mp hp
  refine hnot p x' hx' ?_
  rw [show x'.children = x.children from congrArg Node.children heq]
  exact hd

/-- The dentry has no inode exactly when nothing is left of what it stood for. -/
theorem released_iff (ht : Orderly [] t) {n : Node Nat Str (Nat × Nat)} (hv : v d = some n)
    (heq : names t = remove (setKind v d y.left) d) :
    (∃ x, t.dentries d = some x ∧ x.inode = none) ↔ y.lessLinks = 0 := by
  have hleft : y.left = none ↔ y.lessLinks = 0 := by
    rw [Inode.left]
    generalize y.lessLinks = m
    split <;> simp [*]
  rw [← hleft]
  generalize y.left = m at heq
  have hd := congrFun heq d
  rw [remove, setKind, if_pos rfl, hv, Option.map_some, Option.map_some] at hd
  obtain ⟨x, hx, hnode⟩ := Option.map_eq_some_iff.mp hd
  have hkind : (x.inode.bind t.inodes).map Inode.look = m := congrArg Node.kind hnode
  have hinode : x.inode = none ↔ m = none := by
    rw [← hkind]
    cases hi : x.inode with
    | none => simp
    | some i =>
      obtain ⟨z, hz⟩ := ht.node hx hi
      simp [hz]
  constructor
  · rintro ⟨x', hx', hno⟩
    cases hx.symm.trans hx'
    exact hinode.mp hno
  · intro hzero
    exact ⟨x, hx, hinode.mpr hzero⟩

theorem removes_right {c : TreeCall × List Bool} (h : LinkInv s) (hs : LinkStep s c t) :
    RemovesRight (s.meets c.2) c.1 t := by
  obtain ⟨c, o⟩ := c
  obtain ⟨hsafe, hstep⟩ := hs
  obtain ⟨ht, fuel, hedit⟩ := step_edit h.orderly hsafe.sound hstep
  dsimp only at hsafe hedit ⊢
  generalize s.meets o = s at *
  clear h hstep
  -- an `rmdir` that changes the tree removes a directory without children
  have hrmdir : ∀ {path}, c = .rmdir path → ∀ {d}, Gone s t d → ∃ w, s.dentries d = some w ∧ w.children = [] ∧
      dirAt s d = true ∧ ∀ i y, NodeAt s d i y →
        ((∃ x, t.dentries d = some x ∧ x.inode = none) ↔ y.lessLinks = 0) := by
    rintro path rfl d hg
    obtain ⟨r, heq | ⟨p, name, x, dir, z, d', w, hat, hx, hch, hw, hempty, hne, hcase⟩⟩ := hedit
    · exact absurd hg (not_gone_of_same heq)
    · have hdir := hsafe d' w ⟨fuel, p, name, x, hat.1, hx, hch⟩ hw hempty
      rcases hcase with ⟨hnone, _⟩ | ⟨i, y, hi, hy, _, heq⟩
      · simp [dirAt, hw, hnone] at hdir
      · have hlose : ListsLose s t d' := fun p' => by rw [heq, lists_drop, lists_setKind]
        cases gone_eq hlose hg
        refine ⟨w, hw, hempty, hdir, fun i' y' hat' => ?_⟩
        obtain ⟨w', hw', hi', hy'⟩ := hat'
        cases hw.symm.trans hw'
        cases hi.symm.trans hi'
        cases hy.symm.trans hy'
        exact released_iff ht (by rw [setKind, if_neg hne, names_some hw]) heq
  refine ⟨fun path hc d x hg hx => ?_, fun hex d i y hg hat => ?_⟩
  · obtain ⟨w, hw, hempty, hdir, _⟩ := hrmdir hc hg
    cases hx.symm.trans hw
    exact ⟨hdir, hempty⟩
  · obtain ⟨path, hc | rfl⟩ := hex
    · obtain ⟨_, _, _, _, hrel⟩ := hrmdir hc hg
      exact hrel i y hat
    · obtain ⟨r, heq | ⟨p, name, x, dir, z, d', i', y', _, hx, hch, hat', _, _, heq⟩⟩ := hedit
      · exact absurd hg (not_gone_of_same heq)
      · have hlose : ListsLose s t d' := fun p' => by rw [heq, lists_drop]
        cases gone_eq hlose hg
        obtain ⟨w, hw, hi, hy⟩ := hat
        obtain ⟨w', hw', hi', hy'⟩ := hat'
        cases hw.symm.trans hw'
        cases hi.symm.trans hi'
        cases hy.symm.trans hy'
        exact released_iff ht (names_some hw) heq

end Removals

/-! ## 6. The theorem -/

/-- **Link counts.** In every state that calls which keep the counts reach from a mounted root, the counts are right,
    and such a call removes only what it may and releases it with its last link. -/
theorem link_counts (uid gid jiffies ino : Nat) {es : List (TreeCall × List Bool)}
    (hr : Run LinkStep (freshRoot uid gid jiffies ino) es t) :
    LinksRight (freshRoot uid gid jiffies ino).root t ∧
      ∀ e u, LinkStep t e u → RemovesRight (t.meets e.2) e.1 u := by
  have hinv : LinkInv t :=
    hr.invariant (I := LinkInv) (fun _ _ _ h hs => link_step h hs) (freshRoot_linkInv uid gid jiffies ino)
  exact ⟨hinv.right, fun e u hs => removes_right hinv hs⟩

/-- `mkdir("/d")`, `mkdir("/d/e")`. -/
def twoDirectories : List (TreeCall × List Bool) :=
  [(.mkdir [47, 100] 0o755, []), (.mkdir [47, 100, 47, 101] 0o755, [])]

theorem link_counts_nested : ∃ t, Run LinkStep (freshRoot 0 0 0 1) twoDirectories t ∧
    (t.inodes 1).map Inode.nlink = some 2 ∧ LinksRight 0 t ∧
    ∀ e u, LinkStep t e u → RemovesRight (t.meets e.2) e.1 u := by
  obtain ⟨t, hrun, hlinks⟩ := exists_treeRun (freshRoot 0 0 0 1) twoDirectories
    (fun t => (t.inodes 1).map Inode.nlink = some 2) (by decide +kernel)
  have hsafe : Run LinkStep (freshRoot 0 0 0 1) twoDirectories t := by
    refine hrun.and_mem fun s e he => ?_
    simp only [twoDirectories, List.mem_cons, List.not_mem_nil, or_false] at he
    rcases he with rfl | rfl <;> trivial
  exact ⟨t, hsafe, hlinks, link_counts 0 0 0 1 hsafe⟩

/-- `mkdir("/a")`, `mkdir("/b")`, `mkdir("/a/c")`, `rename("/a/c", "/b/c")`. -/
def movedDirectory : List (TreeCall × List Bool) :=
  [(.mkdir [47, 97] 0o755, []), (.mkdir [47, 98] 0o755, []), (.mkdir [47, 97, 47, 99] 0o755, []),
    (.rename [47, 97, 47, 99] [47, 98, 47, 99], [])]

/-- `/a` has no subdirectory any more, and its count says that it has one. After `rmdir("/b/c")` and `rmdir("/b")`,
    both of empty directories, the count of `/b` has gone below zero. -/
theorem moved_directory_wraps :
    (∃ t, Run TreeStep (freshRoot 0 0 0 1) movedDirectory t ∧ ¬ LinksRight 0 t) ∧
    ∃ t, Run TreeStep (freshRoot 0 0 0 1) (movedDirectory ++ [(.rmdir [47, 98, 47, 99], []), (.rmdir [47, 98], [])]) t ∧
      (t.inodes 2).map Inode.nlink = some (2 ^ 32 - 1) := by
  constructor
  · obtain ⟨t, hrun, hd, hi⟩ := exists_treeRun (freshRoot 0 0 0 1) movedDirectory
      (fun t => (t.dentries 1).map (fun x => (x.inode, x.children)) = some (some 1, []) ∧
        (t.inodes 1).map (fun y => (y.nlink, isDir y.mode)) = some (2, true)) (by decide +kernel)
    refine ⟨t, hrun, fun hright => ?_⟩
    obtain ⟨x, hx, hx'⟩ := Option.map_eq_some_iff.mp hd
    obtain ⟨y, hy, hy'⟩ := Option.map_eq_some_iff.mp hi
    obtain ⟨hxi, hch⟩ := Prod.mk.inj hx'
    obtain ⟨hlinks, hdir⟩ := Prod.mk.inj hy'
    have := hright 1 x 1 y hx hxi hy hdir
    rw [hlinks, subdirCount, hch] at this
    exact absurd this (show ¬ 2 = u32 (1 + 0) by decide)
  · exact exists_treeRun (freshRoot 0 0 0 1) _
      (fun t => (t.inodes 2).map Inode.nlink = some (2 ^ 32 - 1)) (by decide +kernel)

end OreUnix.Vfs
