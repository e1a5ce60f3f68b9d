/-
  Subject: WHAT HOLDS OF THE TREE WHILE NAMES COME AND GO, and the state changes that keep it.

  * `Orderly rs s` -- the tree is sane, every inode a dentry points to is that dentry's alone and has two references,
    a child knows its directory, and every dentry has more references than the open files, the working directory and
    the running call (`rs`) hold on it. Dentries without an inode are allowed: a name that was removed while a file
    was open leaves one;
  * `names` -- the tree of names a state shows, each with the kind and the link count of what it stands for; reference
    counts, the contents of inodes and the open files do not appear in it;
  * one lemma for each change a call makes, on `Orderly` and on `names`.
-/
import OreUnix.Fs.CallSpec
import OreUnix.Fs.TreeCalls
import OreUnix.Lib.NameTree

namespace OreUnix.Vfs

open Function (update update_of_ne update_self)
open Wp Tally

variable {s t : Fs} {rs : List Nat}
variable {D : Nat → Option Dentry} {E : Crash → Prop} {Q : Unit → Fs → Prop} {d e p : Nat} {rs' : List Nat} {u : Fs}
  {x : Dentry} {y' : Inode}

/-! ## 1. The invariant -/

structure Orderly (rs : List Nat) (s : Fs) : Prop extends TreeSane s where
  freshInode : ∀ {i}, s.nextInode ≤ i → s.inodes i = none
  freshFile : ∀ {f}, s.nextFile ≤ f → s.files f = none
  priv : ∀ {i y}, s.inodes i = some y → y.priv ≠ none
  counted : ∀ {d x i y}, s.dentries d = some x → x.inode = some i → s.inodes i = some y → 2 ≤ y.refcount
  sole : ∀ {d e x z i}, s.dentries d = some x → s.dentries e = some z → x.inode = some i → z.inode = some i → d = e
  sibling : ∀ {d x c y}, s.dentries d = some x → c ∈ x.children → s.dentries c = some y →
    y.parent = some d ∧ y.linked = true
  place : ∀ {d x}, s.dentries d = some x → x.linked = true → ∃ p, x.parent = some p ∧ p ≠ d
  file : ∀ {f x}, s.files f = some x → 1 ≤ x.refcount ∧ ∃ d de, x.dentry = some d ∧ s.dentries d = some de
  held : ∀ {d x}, s.dentries d = some x → ownRefs s d + holds s.cwd d + rs.count d < x.refcount
  live : ∀ {d}, d ∈ rs → ∃ x, s.dentries d = some x

/-- The kind of file an inode is. -/
def Inode.kind (y : Inode) : Nat := y.mode &&& S_IFMT

/-- The kind of file and the link count. -/
def Inode.look (y : Inode) : Nat × Nat := (y.kind, y.nlink)

/-- The tree of names of a state. -/
def names (s : Fs) : NameTree.Tree Nat Str (Nat × Nat) :=
  fun d => (s.dentries d).map fun x => ⟨x.name, (x.inode.bind s.inodes).map Inode.look, x.children⟩

theorem names_some (hx : s.dentries d = some x) :
    names s d = some ⟨x.name, (x.inode.bind s.inodes).map Inode.look, x.children⟩ := by
  rw [names, hx, Option.map_some]

theorem names_none (hx : s.dentries d = none) : names s d = none := by
  rw [names, hx, Option.map_none]

theorem Orderly.linksOk (h : Orderly rs s) {P : Crash → Prop} (hP : P .overflow) (hcwd : P .null ∨ s.cwd ≠ none) :
    LinksOk P s :=
  ⟨hcwd, fun hy _ => .inr (h.priv hy), fun _ _ _ _ => .inl hP⟩

theorem Orderly.pointed_lt (h : Orderly rs s) {i : Nat} (hx : s.dentries d = some x) (hi : x.inode = some i) :
    i < s.nextInode := by
  obtain ⟨y, hy⟩ := h.node hx hi
  by_contra hlt
  rw [h.freshInode (Nat.not_lt.mp hlt)] at hy
  cases hy

/-! ## 2. References -/

theorem Orderly.perm (h : Orderly rs s) (hp : rs.Perm rs') : Orderly rs' s := by
  refine ⟨h.toTreeSane, h.freshInode, h.freshFile, h.priv, h.counted, h.sole, h.sibling, h.place, h.file,
    fun hx => ?_, fun hd => h.live (hp.mem_iff.mpr hd)⟩
  rw [← hp.count_eq]
  exact h.held hx

@[simp] theorem names_bump (s : Fs) (d : Nat) : names (s.bump d) = names s := by
  funext e
  rw [names, names, bump_dentries]
  split
  · rw [Option.map_map]
    rfl
  · rfl

theorem Orderly.redress (h : Orderly rs s) (hD : Redress s D)
    (hnode : ∀ {e x i}, D e = some x → x.inode = some i → ∃ y, s.inodes i = some y ∧ 2 ≤ y.refcount)
    (hsole : ∀ {d e x z i}, D d = some x → D e = some z → x.inode = some i → z.inode = some i → d = e)
    (hlinked : ∀ {d x c y}, D d = some x → c ∈ x.children → D c = some y → y.linked = true)
    (hheld : ∀ {e x}, D e = some x → ownRefs s e + holds s.cwd e + rs'.count e < x.refcount)
    (hlive : ∀ {e}, e ∈ rs' → ∃ x, s.dentries e = some x) : Orderly rs' { s with dentries := D } := by
  have hsane := h.toTreeSane.redress hD (fun hx => Nat.one_le_of_lt (hheld hx)) fun hx hi => by
    obtain ⟨y, hy, _⟩ := hnode hx hi
    exact ⟨y, hy⟩
  refine ⟨hsane, h.freshInode, h.freshFile, h.priv, fun hx hi hy => ?_, hsole, fun hx hc hy => ?_, fun hx hl => ?_,
    fun hf => ?_, hheld, fun he => hD.live (hlive he)⟩
  · obtain ⟨z, hz, hr⟩ := hnode hx hi
    cases hy.symm.trans hz
    exact hr
  · obtain ⟨z, hz, _, hsub, _⟩ := hD.back hx
    obtain ⟨w, hw, hpar, _⟩ := hD.back hy
    exact ⟨hpar.trans (h.sibling hz (hsub hc) hw).1, hlinked hx hc hy⟩
  · obtain ⟨y, hy, hpar, _, _, hly⟩ := hD.back hx
    rw [hpar]
    exact h.place hy (hly hl)
  · obtain ⟨hr, e, de, he, hde⟩ := h.file hf
    obtain ⟨x, hx⟩ := hD.live ⟨de, hde⟩
    exact ⟨hr, e, x, he, hx⟩

theorem Orderly.recount (h : Orderly rs s) (hD : Redress s D)
    (hback : ∀ {e x}, D e = some x → ∃ n, s.dentries e = some { x with refcount := n })
    (hheld : ∀ {e x}, D e = some x → ownRefs s e + holds s.cwd e + rs'.count e < x.refcount)
    (hlive : ∀ {e}, e ∈ rs' → ∃ x, s.dentries e = some x) : Orderly rs' { s with dentries := D } := by
  refine h.redress hD (fun hx hi => ?_) (fun hx hz hi hj => ?_) (fun hx hc hy => ?_) hheld hlive
  · obtain ⟨n, hn⟩ := hback hx
    obtain ⟨y, hy⟩ := h.node hn hi
    exact ⟨y, hy, h.counted hn hi hy⟩
  · obtain ⟨n, hn⟩ := hback hx
    obtain ⟨m, hm⟩ := hback hz
    exact h.sole hn hm hi hj
  · obtain ⟨n, hn⟩ := hback hx
    obtain ⟨m, hm⟩ := hback hy
    exact (h.sibling hn hc hm).2

theorem Orderly.bump (h : Orderly rs s) (hx : s.dentries d = some x) : Orderly (d :: rs) (s.bump d) := by
  refine h.recount (redress_bump s d) bump_old (fun {e y} hd => ?_) fun {e} he => ?_
  · split at hd
    · rename_i hed
      subst hed
      rw [hx] at hd
      cases hd
      have := h.held hx
      rw [List.count_cons_self]
      show _ < x.refcount + 1
      omega
    · rename_i hed
      rw [List.count_cons_of_ne (Ne.symm hed)]
      exact h.held hd
  · rcases List.mem_cons.mp he with rfl | he
    · exact ⟨x, hx⟩
    · exact h.live he

theorem Orderly.unbump (h : Orderly (d :: rs) (s.bump d)) : Orderly rs s := by
  refine h.recount (redress_unbump s d) (fun hx => ?_) (fun {e x} hx => ?_) fun he => h.live (.tail _ he)
  · obtain ⟨n, _, hn⟩ := bump_live (d := d) hx
    exact ⟨n, hn⟩
  · show ownRefs s e + holds s.cwd e + rs.count e < x.refcount
    by_cases hed : e = d
    · subst hed
      have hlt : ownRefs s e + holds s.cwd e + (e :: rs).count e < x.refcount + 1 := h.held (bump_self hx)
      rw [List.count_cons_self] at hlt
      omega
    · have hlt := h.held (d := e) (x := x)
      rw [bump_dentries, if_neg hed, List.count_cons_of_ne (Ne.symm hed)] at hlt
      exact hlt hx

/-- **Giving back a reference the call holds**: nothing but the count changes. -/
theorem wp_dentryPut_held (h : Orderly (d :: rs) s)
    (hQ : ∀ t, s = t.bump d → Orderly rs t → names t = names s → Q () t) : wp E (dentryPut d) Q s := by
  obtain ⟨x, hx⟩ := h.live (.head _)
  have hheld := h.held hx
  rw [List.count_cons_self] at hheld
  obtain ⟨s0, x0, rfl, hx0, hr⟩ := exists_unbump hx (by omega)
  exact (wp_dentryPut hx0 hr).mpr (hQ s0 rfl h.unbump (names_bump s0 d).symm)

/-! ## 3. Changes of inodes only -/

/-- The dentries and the files are as before; an inode a dentry points to has its two references. -/
structure NodesMove (s t : Fs) : Prop where
  dentries : t.dentries = s.dentries
  files : t.files = s.files
  nextFile : t.nextFile = s.nextFile
  root : t.root = s.root
  cwd : t.cwd = s.cwd
  nextDentry : s.nextDentry ≤ t.nextDentry
  fresh : ∀ {i}, t.nextInode ≤ i → t.inodes i = none
  priv : ∀ {i y}, t.inodes i = some y → y.priv ≠ none
  node : ∀ {d x i y}, s.dentries d = some x → x.inode = some i → s.inodes i = some y →
    ∃ y', t.inodes i = some y' ∧ 2 ≤ y'.refcount

/-- An inode a dentry points to has its kind and link count as well. -/
structure NodesOnly (s t : Fs) : Prop extends NodesMove s t where
  look : ∀ {d x i y y'}, s.dentries d = some x → x.inode = some i → s.inodes i = some y → t.inodes i = some y' →
    y'.look = y.look

theorem NodesMove.orderly (hn : NodesMove s t) (h : Orderly rs s) : Orderly rs t := by
  have hd := hn.dentries
  have hown := fun d => ownRefs_congr hn.files hn.nextFile d
  refine ⟨⟨fun hle => ?_, fun hx => ?_, fun hx hi => ?_, fun hx hp => ?_, fun hx hc => ?_, fun hx => ?_,
    ?_, fun he => ?_⟩,
    hn.fresh, fun hle => ?_, hn.priv, fun hx hi hy => ?_, fun hx hz hi hj => ?_, fun hx hc hy => ?_,
    fun hx hl => ?_, fun hf => ?_, fun hx => ?_, fun he => ?_⟩ <;> (try rw [hd] at *)
  · exact h.fresh (hn.nextDentry.trans hle)
  · exact h.refs hx
  · obtain ⟨y, hy⟩ := h.node hx hi
    obtain ⟨y', hy', _⟩ := hn.node hx hi hy
    exact ⟨y', hy'⟩
  · exact h.parent hx hp
  · exact h.child hx hc
  · exact h.unmounted hx
  · rw [hn.root]
    exact h.root
  · exact h.cwd (hn.cwd ▸ he)
  · rw [hn.files]
    exact h.freshFile (hn.nextFile ▸ hle)
  · obtain ⟨y0, hy0⟩ := h.node hx hi
    obtain ⟨y', hy', hr⟩ := hn.node hx hi hy0
    cases hy.symm.trans hy'
    exact hr
  · exact h.sole hx hz hi hj
  · exact h.sibling hx hc hy
  · exact h.place hx hl
  · rw [hn.files] at hf
    exact h.file hf
  · rw [hown, hn.cwd]
    exact h.held hx
  · exact h.live he

theorem NodesOnly.names_eq (hn : NodesOnly s t) (h : TreeSane s) : names t = names s := by
  funext d
  rw [names, names, hn.dentries]
  cases hx : s.dentries d with
  | none => rfl
  | some x =>
    cases hi : x.inode with
    | none => simp only [Option.map_some, hi, Option.bind_none]
    | some i =>
      obtain ⟨y, hy⟩ := h.node hx hi
      obtain ⟨y', hy', _⟩ := hn.node hx hi hy
      simp only [Option.map_some, hi, Option.bind_some, hy, hy', hn.look hx hi hy hy']

theorem NodesOnly.of_same (h : Orderly rs s) (hd : t.dentries = s.dentries) (hi : t.inodes = s.inodes)
    (hf : t.files = s.files) (hnf : t.nextFile = s.nextFile) (hr : t.root = s.root) (hc : t.cwd = s.cwd)
    (hn : s.nextInode ≤ t.nextInode) (hk : s.nextDentry ≤ t.nextDentry) : NodesOnly s t := by
  refine ⟨⟨hd, hf, hnf, hr, hc, hk, fun hle => ?_, fun hy => ?_, fun hx hi' hy => ?_⟩, fun hx hi' hy hy' => ?_⟩
  · rw [hi]
    exact h.freshInode (hn.trans hle)
  · exact h.priv (hi ▸ hy)
  · exact ⟨_, hi ▸ hy, h.counted hx hi' hy⟩
  · rw [hi] at hy'
    cases hy.symm.trans hy'
    rfl

theorem NodesMove.trans (h : NodesMove s t) (h' : NodesMove t u) : NodesMove s u := by
  refine ⟨h'.dentries.trans h.dentries, h'.files.trans h.files, h'.nextFile.trans h.nextFile, h'.root.trans h.root,
    h'.cwd.trans h.cwd, h.nextDentry.trans h'.nextDentry, h'.fresh, h'.priv, fun hx hi hy => ?_⟩
  obtain ⟨y', hy', _⟩ := h.node hx hi hy
  exact h'.node (h.dentries ▸ hx) hi hy'

theorem NodesOnly.trans (h : NodesOnly s t) (h' : NodesOnly t u) : NodesOnly s u := by
  refine ⟨h.toNodesMove.trans h'.toNodesMove, fun hx hi hy hz => ?_⟩
  obtain ⟨y', hy', _⟩ := h.node hx hi hy
  exact (h'.look (h.dentries ▸ hx) hi hy' hz).trans (h.look hx hi hy hy')

/-- Numbers and allocation outcomes are used up. -/
def Fs.spend (s : Fs) (n k : Nat) (o : List Bool) : Fs := { s with nextInode := n, nextDentry := k, oracle := o }

section Nodes

variable (h : Orderly rs s)

include h

theorem NodesOnly.spend {n k : Nat} (hn : s.nextInode ≤ n) (hk : s.nextDentry ≤ k)
    (o : List Bool) : NodesOnly s (s.spend n k o) := .of_same h rfl rfl rfl rfl rfl rfl hn hk

theorem Orderly.spend {n k : Nat} (hn : s.nextInode ≤ n) (hk : s.nextDentry ≤ k) (o : List Bool) :
    Orderly rs (s.spend n k o) := (NodesOnly.spend h hn hk o).orderly h

theorem NodesOnly.addNode {y : Inode} (hp : y.priv ≠ none) : NodesOnly s (s.addNode y) := by
  have hold : ∀ {d x i z}, s.dentries d = some x → x.inode = some i → s.inodes i = some z →
      (s.addNode y).inodes i = some z := fun hx hi hz => by
    have := h.pointed_lt hx hi
    exact (update_of_ne (by omega) ..).trans hz
  refine ⟨⟨rfl, rfl, rfl, rfl, rfl, le_rfl, fun {i} hi => ?_, fun {i z} hz => ?_, fun hx hi hz => ?_⟩,
    fun hx hi hz hz' => ?_⟩
  · have hi' : s.nextInode + 1 ≤ i := hi
    exact (update_of_ne (by omega) ..).trans (h.freshInode (by omega))
  · rcases putNode_inv (s := s) hz with ⟨_, rfl⟩ | ⟨_, hz⟩
    · exact hp
    · exact h.priv hz
  · exact ⟨_, hold hx hi hz, h.counted hx hi hz⟩
  · cases (hold hx hi hz).symm.trans hz'
    rfl

theorem NodesMove.putNode {i : Nat} {y : Inode} (hy : s.inodes i = some y) (hp : y'.priv ≠ none)
    (hr : y.refcount ≤ y'.refcount) : NodesMove s (s.putNode i y') := by
  have hlt : i < s.nextInode := by
    by_contra hle
    rw [h.freshInode (Nat.not_lt.mp hle)] at hy
    cases hy
  refine ⟨rfl, rfl, rfl, rfl, rfl, le_rfl, fun {j} hj => ?_, fun {j z} hz => ?_, fun {d x j z} hx hj hz => ?_⟩
  · have hj' : s.nextInode ≤ j := hj
    exact (update_of_ne (by omega) ..).trans (h.freshInode hj)
  · rcases putNode_inv hz with ⟨_, rfl⟩ | ⟨_, hz⟩
    · exact hp
    · exact h.priv hz
  · by_cases hji : j = i
    · subst hji
      cases hy.symm.trans hz
      exact ⟨y', update_self .., (h.counted hx hj hz).trans hr⟩
    · exact ⟨z, (update_of_ne hji ..).trans hz, h.counted hx hj hz⟩

theorem NodesOnly.putNode {i : Nat} {y : Inode} (hy : s.inodes i = some y) (hl : y'.look = y.look)
    (hp : y'.priv ≠ none) (hr : y.refcount ≤ y'.refcount) : NodesOnly s (s.putNode i y') := by
  refine ⟨.putNode h hy hp hr, fun hx hi hz hz' => ?_⟩
  rcases putNode_inv hz' with ⟨rfl, rfl⟩ | ⟨_, hz'⟩
  · cases hy.symm.trans hz
    exact hl
  · cases hz.symm.trans hz'
    rfl

/-- The one name an inode has shows its new link count. -/
theorem names_putNode {i : Nat} (hx : s.dentries d = some x) (hi : x.inode = some i) (y' : Inode) :
    names (s.putNode i y') = NameTree.setKind (names s) d (some y'.look) := by
  funext e
  unfold NameTree.setKind
  by_cases hed : e = d
  · subst hed
    rw [if_pos rfl, names_some hx, names_some (s := s.putNode i y') hx, hi]
    simp [Fs.putNode]
  · rw [if_neg hed, names, names]
    show Option.map _ (s.dentries e) = _
    cases hz : s.dentries e with
    | none => rfl
    | some z =>
      have hne : z.inode ≠ some i := fun hj => hed (h.sole hz hx hj hi)
      cases hj : z.inode with
      | none => simp only [Option.map_some, hj, Option.bind_none]
      | some j =>
        have hji : j ≠ i := fun he => hne (he ▸ hj)
        simp only [Option.map_some, hj, Option.bind_some, Fs.putNode, update_of_ne hji]

/-- An inode no dentry points to may become anything. -/
theorem NodesOnly.loose {i : Nat} {y : Option Inode} (hlt : i < s.nextInode)
    (hp : ∀ z, y = some z → z.priv ≠ none) (hfree : ∀ {d x}, s.dentries d = some x → x.inode ≠ some i) :
    NodesOnly s { s with inodes := update s.inodes i y } := by
  have hold : ∀ {d x j z}, s.dentries d = some x → x.inode = some j → s.inodes j = some z →
      update s.inodes i y j = some z := fun {d x j z} hx hj hz => by
    have hji : j ≠ i := by
      rintro rfl
      exact hfree hx hj
    exact (update_of_ne hji ..).trans hz
  refine ⟨⟨rfl, rfl, rfl, rfl, rfl, le_rfl, fun {j} hj => ?_, fun {j z} hz => ?_, fun {d x j z} hx hj hz => ?_⟩,
    fun hx hj hz hz' => ?_⟩
  · have hj' : s.nextInode ≤ j := hj
    exact (update_of_ne (by omega) ..).trans (h.freshInode hj)
  · by_cases hji : j = i
    · subst hji
      have hz : update s.inodes j y j = some z := hz
      rw [update_self] at hz
      exact hp z hz
    · exact h.priv ((update_of_ne hji ..).symm.trans hz)
  · exact ⟨z, hold hx hj hz, h.counted hx hj hz⟩
  · cases (hold hx hj hz).symm.trans hz'
    rfl

/-! ## 4. A new child -/

theorem Orderly.ownRefs_fresh : ownRefs s s.nextDentry = 0 := by
  refine tally_zero fun f _ hf => ?_
  obtain ⟨x, hx, hown⟩ := Option.bind_eq_some_iff.mp hf
  obtain ⟨_, d, de, hd, hde⟩ := h.file hx
  unfold ownRef at hown
  split at hown
  · cases hown
  · rw [hd] at hown
    cases hown
    exact h.live_ne hde rfl

theorem Orderly.fresh_free : holds s.cwd s.nextDentry + rs.count s.nextDentry = 0 := by
  have hcwd : s.cwd ≠ some s.nextDentry := fun he => by
    obtain ⟨x, hx⟩ := h.cwd he
    exact h.live_ne hx rfl
  have hrefs : s.nextDentry ∉ rs := fun hmem => by
    obtain ⟨y, hy⟩ := h.live hmem
    exact h.live_ne hy rfl
  rw [holds_of_ne hcwd, List.count_eq_zero_of_not_mem hrefs]

end Nodes

theorem graft_live (ht : TreeSane s) {y : Dentry} (hp : s.dentries p = some y) (c : Dentry)
    (he : ∃ x, s.dentries e = some x) : ∃ x, (s.graft p c).dentries e = some x := by
  obtain ⟨x, hx⟩ := he
  obtain ⟨x', hx', _⟩ := (extends_graft ht hp c).dentry hx
  exact ⟨x', hx'⟩

theorem Orderly.graft (h : Orderly rs s) {y : Dentry} (hp : s.dentries p = some y) (name : Str) :
    Orderly rs (s.graft p (newChild name p)) := by
  have ht := h.toTreeSane
  have hsane : TreeSane (s.graft p (newChild name p)) := ht.graft hp (fun _ hi => nomatch hi) rfl rfl le_rfl rfl
  refine ⟨hsane, h.freshInode, h.freshFile, h.priv, fun hd hi hz => ?_, fun hd he hi hj => ?_, fun hd hc he => ?_,
    fun hd hl => ?_, fun hf => ?_, fun hd => ?_, fun he => graft_live ht hp _ (h.live he)⟩
  · rcases graft_inv ht hp hd with ⟨rfl, rfl⟩ | ⟨w, hw, rfl | ⟨rfl, rfl⟩⟩
    · cases hi
    · exact h.counted hw hi hz
    · exact h.counted (x := w) hw hi hz
  · have hold : ∀ {e x i}, (s.graft p (newChild name p)).dentries e = some x → x.inode = some i →
        ∃ w, s.dentries e = some w ∧ w.inode = some i := fun he hi => by
      rcases graft_inv ht hp he with ⟨rfl, rfl⟩ | ⟨w, hw, rfl | ⟨rfl, rfl⟩⟩
      · cases hi
      · exact ⟨_, hw, hi⟩
      · exact ⟨w, hw, hi⟩
    obtain ⟨w, hw, hwi⟩ := hold hd hi
    obtain ⟨v, hv, hvj⟩ := hold he hj
    exact h.sole hw hv hwi hvj
  · -- a child of the grown list is the new one, or one that was there
    have hchild : ∀ {e z}, (s.graft p (newChild name p)).dentries e = some z → e ≠ s.nextDentry →
        ∃ w, s.dentries e = some w ∧ w.parent = z.parent ∧ w.linked = z.linked := fun he hne => by
      rcases graft_inv ht hp he with ⟨rfl, _⟩ | ⟨w, hw, rfl | ⟨rfl, rfl⟩⟩
      · exact absurd rfl hne
      · exact ⟨_, hw, rfl, rfl⟩
      · exact ⟨w, hw, rfl, rfl⟩
    have hold : ∀ {d w c}, s.dentries d = some w → c ∈ w.children → c ≠ s.nextDentry := fun hw hc => by
      obtain ⟨v, hv⟩ := h.child hw hc
      exact h.live_ne hv
    rcases graft_inv ht hp hd with ⟨rfl, rfl⟩ | ⟨w, hw, rfl | ⟨rfl, rfl⟩⟩
    · cases hc
    · obtain ⟨v, hv, hvp, hvl⟩ := hchild he (hold hw hc)
      rw [← hvp, ← hvl]
      exact h.sibling hw hc hv
    · rcases List.mem_append.mp hc with hmem | hmem
      · obtain ⟨v, hv, hvp, hvl⟩ := hchild he (hold hw hmem)
        rw [← hvp, ← hvl]
        exact h.sibling hw hmem hv
      · rw [List.mem_singleton.mp hmem, graft_self ht hp] at he
        cases he
        exact ⟨rfl, rfl⟩
  · rcases graft_inv ht hp hd with ⟨rfl, rfl⟩ | ⟨w, hw, rfl | ⟨rfl, rfl⟩⟩
    · exact ⟨p, rfl, h.live_ne hp⟩
    · exact h.place hw hl
    · exact h.place (x := w) hw hl
  · obtain ⟨hr, e, de, he, hde⟩ := h.file hf
    obtain ⟨x, hx⟩ := graft_live ht hp (newChild name p) ⟨de, hde⟩
    exact ⟨hr, e, x, he, hx⟩
  · rcases graft_inv ht hp hd with ⟨rfl, rfl⟩ | ⟨w, hw, rfl | ⟨rfl, rfl⟩⟩
    · show ownRefs s s.nextDentry + holds s.cwd s.nextDentry + rs.count s.nextDentry < 1
      have hzero := h.fresh_free
      rw [h.ownRefs_fresh]
      omega
    · exact h.held hw
    · exact h.held (x := w) hw

theorem names_graft {y : Dentry} (hp : s.dentries p = some y) (c : Dentry) : names (s.graft p c) =
      NameTree.add (names s) p s.nextDentry ⟨c.name, (c.inode.bind s.inodes).map Inode.look, c.children⟩ := by
  funext e
  show Option.map _ (update (update s.dentries s.nextDentry (some c)) p _ e) = _
  unfold NameTree.add
  by_cases hep : e = p
  · subst hep
    rw [update_self, update_self, names_some hp, hp]
    rfl
  · rw [update_of_ne hep, update_of_ne hep]
    by_cases hen : e = s.nextDentry
    · subst hen
      rw [update_self, update_self]
      rfl
    · rw [update_of_ne hen, update_of_ne hen]
      rfl

/-! ## 5. The inode of a dentry -/

/-- The state in which `d` points to another inode, or to none. -/
def Fs.point (s : Fs) (d : Nat) (i : Option Nat) : Fs :=
  { s with dentries := fun e => if e = d then (s.dentries e).map fun x => { x with inode := i } else s.dentries e }

theorem update_point (hx : s.dentries d = some x) (i : Option Nat) :
    { s with dentries := update s.dentries d (some { x with inode := i }) } = s.point d i := by
  refine Fs.ext_dentries rfl fun e => ?_
  show update s.dentries d _ e = if e = d then _ else _
  by_cases hed : e = d
  · subst hed
    rw [update_self, if_pos rfl, hx, Option.map_some]
  · rw [update_of_ne hed, if_neg hed]

variable {i : Option Nat}

theorem point_inv (h : (s.point d i).dentries e = some x) :
    ∃ y, s.dentries e = some y ∧ (e = d ∧ x = { y with inode := i } ∨ e ≠ d ∧ x = y) := by
  have h : (if e = d then (s.dentries e).map fun x => { x with inode := i } else s.dentries e) = some x := h
  split at h
  · obtain ⟨y, hy, rfl⟩ := Option.map_eq_some_iff.mp h
    exact ⟨y, hy, .inl ⟨‹_›, rfl⟩⟩
  · exact ⟨x, h, .inr ⟨‹_›, rfl⟩⟩

theorem point_old (h : (s.point d i).dentries e = some x) : ∃ j, s.dentries e = some { x with inode := j } := by
  obtain ⟨y, hy, ⟨_, rfl⟩ | ⟨_, rfl⟩⟩ := point_inv h
  · exact ⟨y.inode, hy⟩
  · exact ⟨x.inode, hy⟩

theorem point_live (h : s.dentries e = some x) : ∃ j, (s.point d i).dentries e = some { x with inode := j } := by
  show ∃ j, (if e = d then (s.dentries e).map fun x => { x with inode := i } else s.dentries e) = _
  split
  · exact ⟨i, by rw [h, Option.map_some]⟩
  · exact ⟨x.inode, h⟩

theorem redress_point (s : Fs) (d : Nat) (i : Option Nat) : Redress s (s.point d i).dentries := by
  refine ⟨fun ⟨_, hx⟩ => ?_, fun hx => ?_⟩
  · obtain ⟨j, hj⟩ := point_live (d := d) (i := i) hx
    exact ⟨_, hj⟩
  · obtain ⟨j, hj⟩ := point_old hx
    exact ⟨_, hj, rfl, List.Subset.refl _, rfl, id⟩

theorem Orderly.point (h : Orderly rs s)
    (hi : ∀ {j}, i = some j → (∃ y, s.inodes j = some y ∧ 2 ≤ y.refcount) ∧
      ∀ {e x}, s.dentries e = some x → x.inode = some j → e = d) : Orderly rs (s.point d i) := by
  refine h.redress (redress_point s d i) (fun hx hj => ?_) (fun hx hz hj hj' => ?_) (fun hx hc hz => ?_)
    (fun hx => ?_) h.live
  · obtain ⟨y, hy, ⟨rfl, rfl⟩ | ⟨_, rfl⟩⟩ := point_inv hx
    · exact (hi hj).1
    · obtain ⟨z, hz⟩ := h.node hy hj
      exact ⟨z, hz, h.counted hy hj hz⟩
  · obtain ⟨y, hy, hcase⟩ := point_inv hx
    obtain ⟨w, hw, hcase'⟩ := point_inv hz
    rcases hcase with ⟨rfl, rfl⟩ | ⟨_, rfl⟩ <;> rcases hcase' with ⟨rfl, rfl⟩ | ⟨_, rfl⟩
    · rfl
    · exact ((hi hj).2 hw hj').symm
    · exact (hi hj').2 hy hj
    · exact h.sole hy hw hj hj'
  · obtain ⟨j, hj⟩ := point_old hx
    obtain ⟨j', hj'⟩ := point_old hz
    exact (h.sibling hj hc hj').2
  · obtain ⟨j, hj⟩ := point_old hx
    have := h.held hj
    exact this

theorem Orderly.point_none (h : Orderly rs s) (d : Nat) : Orderly rs (s.point d none) := h.point fun hj => nomatch hj

theorem names_point (s : Fs) (d : Nat) (i : Option Nat) :
    names (s.point d i) = NameTree.setKind (names s) d ((i.bind s.inodes).map Inode.look) := by
  funext e
  show Option.map _ (if e = d then (s.dentries e).map fun x => { x with inode := i } else s.dentries e) = _
  unfold NameTree.setKind
  split
  · rw [Option.map_map, names, Option.map_map]
    rfl
  · rfl

/-! ## 6. Taking a dentry out of its directory -/

/-- The state in which `d` stands in no list of children. -/
def Fs.cut (s : Fs) (d : Nat) : Fs :=
  { s with
    dentries := fun e => (s.dentries e).map fun x => { x with
      children := x.children.filter (· ≠ d)
      linked := if e = d then false else x.linked } }

theorem cut_inv (h : (s.cut d).dentries e = some x) : ∃ y, s.dentries e = some y ∧
      x = { y with children := y.children.filter (· ≠ d), linked := if e = d then false else y.linked } := by
  obtain ⟨y, hy, rfl⟩ := Option.map_eq_some_iff.mp h
  exact ⟨y, hy, rfl⟩

theorem redress_cut (s : Fs) (d : Nat) : Redress s (s.cut d).dentries := by
  refine ⟨fun {e} ⟨x, hx⟩ => ?_, fun hx => ?_⟩
  · show ∃ y, Option.map _ (s.dentries e) = some y
    rw [hx]
    exact ⟨_, rfl⟩
  · obtain ⟨y, hy, rfl⟩ := cut_inv hx
    exact ⟨y, hy, rfl, List.filter_subset_self _, rfl, fun hl => (ite_eq_iff.mp hl).elim nofun And.right⟩

theorem Orderly.cut (h : Orderly rs s) (d : Nat) : Orderly rs (s.cut d) := by
  refine h.redress (redress_cut s d) (fun hx hi => ?_) (fun hx hz hi hj => ?_) (fun hx hc hz => ?_)
    (fun hx => ?_) h.live
  · obtain ⟨y, hy, rfl⟩ := cut_inv hx
    obtain ⟨z, hz⟩ := h.node (x := y) hy hi
    exact ⟨z, hz, h.counted (x := y) hy hi hz⟩
  · obtain ⟨y, hy, rfl⟩ := cut_inv hx
    obtain ⟨w, hw, rfl⟩ := cut_inv hz
    exact h.sole (x := y) (z := w) hy hw hi hj
  · obtain ⟨y, hy, rfl⟩ := cut_inv hx
    obtain ⟨w, hw, rfl⟩ := cut_inv hz
    obtain ⟨hmem, hne⟩ := List.mem_filter.mp hc
    exact (if_neg (by simpa using hne)).trans (h.sibling hy hmem hw).2
  · obtain ⟨y, hy, rfl⟩ := cut_inv hx
    exact h.held (x := y) hy

theorem names_cut (s : Fs) (d : Nat) : names (s.cut d) = NameTree.remove (names s) d := by
  funext e
  simp only [names, Fs.cut, NameTree.remove, Option.map_map]
  rfl

/-- `list_del` takes the dentry out of the one list it can stand in. -/
theorem wp_unlinkSibling (h : Orderly rs s) (hx : s.dentries d = some x) :
    wp E (unlinkSibling d) Q s ↔ Q () (s.cut d) := by
  rw [unlinkSibling, wp_bind, wp_getDentry hx]
  -- a list other than the parent's does not hold `d`
  have hother : ∀ {e y}, s.dentries e = some y → (x.linked = true → x.parent ≠ some e) →
      y.children.filter (· ≠ d) = y.children := fun hy hne => by
    refine List.filter_eq_self.mpr fun c hc => ?_
    have hcd : c ≠ d := by
      rintro rfl
      obtain ⟨hp, hl⟩ := h.sibling hy hc hx
      exact hne hl hp
    simpa using hcd
  cases hl : x.linked with
  | false =>
    have hsame : s.cut d = s := by
      refine Fs.ext_dentries rfl fun e => ?_
      show Option.map _ (s.dentries e) = s.dentries e
      cases hy : s.dentries e with
      | none => rfl
      | some y =>
        rw [Option.map_some, hother hy (fun h => by rw [hl] at h; cases h)]
        by_cases hed : e = d
        · subst hed
          cases hx.symm.trans hy
          rw [if_pos rfl, ← hl]
        · rw [if_neg hed]
    rw [hsame]
    exact Iff.rfl
  | true =>
    obtain ⟨p, hp, hpd⟩ := h.place hx hl
    obtain ⟨y, hy⟩ := h.parent hx hp
    rw [hp]
    simp only [wp_bind, wp_setDentry]
    rw [wp_getDentry hy]
    refine iff_of_eq (congrArg (Q ()) ?_)
    refine Fs.ext_dentries rfl fun e => ?_
    show update (update s.dentries p _) d _ e = Option.map _ (s.dentries e)
    by_cases hed : e = d
    · subst hed
      rw [update_self, hx, Option.map_some, if_pos rfl,
        hother hx fun _ => by rw [hp]; exact fun he => hpd (Option.some.inj he), hp]
    · rw [update_of_ne hed]
      by_cases hep : e = p
      · subst hep
        rw [update_self, hy, Option.map_some, if_neg hed]
      · rw [update_of_ne hep]
        cases hz : s.dentries e with
        | none => rfl
        | some z =>
          rw [Option.map_some, hother hz fun _ => by rw [hp]; exact fun he => hep (Option.some.inj he).symm,
            if_neg hed]

end OreUnix.Vfs
