/-
  Subject: THE INVARIANT OF A RAMFS TREE WITH OPEN FILES, and the state changes that keep it.

  * `Inv` -- the tree is in order (`TreeOk`), every open file stands on a live dentry, every regular file's buffer
    holds its bytes, and every dentry has more references than open files that took one: a file opened without O_CREAT
    holds a reference of its own, one opened with O_CREAT only borrows the tree's;
  * one lemma for each change a call makes: a reference more (`Inv.bump`), a file's position, an inode's contents, a
    new file, a new child, a closed file.

  Each lemma comes with its counterpart on `Extends`, so that a call is followed as a chain of such changes.
-/
import OreUnix.Fs.LookupSpec
import OreUnix.Lib.Tally

namespace OreUnix.Vfs

open Function (update update_of_ne update_self)
open Tally

variable {s : Fs} {y : Inode}
variable {c : Dentry} {d f i j p : Nat} {y' z : Inode}

/-! ## 1. The invariant -/

/-- A regular file's bytes are those of its buffer, which is within the heap. -/
def DataOk (y : Inode) : Prop :=
  y.fops = some .ramfsFile → ∃ ri, y.priv = some ri ∧ 0 ≤ y.size ∧ y.size ≤ ri.capacity ∧
    ri.capacity ≤ kernelHeapSize ∧ (ri.data.getD []).length = ri.capacity

/-- An open file: it stands on a live dentry with the operations of its inode. -/
def FileOk (s : Fs) (x : File) : Prop :=
  1 ≤ x.refcount ∧ ∃ d de i y, x.dentry = some d ∧ s.dentries d = some de ∧ de.inode = some i ∧
    s.inodes i = some y ∧ x.fops = y.fops ∧ (x.fops = some .ramfsFile → 0 ≤ x.pos)

/-- The dentry an open file holds a reference of its own to. -/
def ownRef (x : File) : Option Nat := if hasFlag x.flags O_CREAT then none else x.dentry

/-- The number of open files that hold a reference of their own to `d`. -/
def ownRefs (s : Fs) (d : Nat) : Nat :=
  tally (Finset.range s.nextFile) (fun f => (s.files f).bind ownRef) d

structure Inv (s : Fs) : Prop extends TreeOk s where
  freshInode : ∀ {i}, s.nextInode ≤ i → s.inodes i = none
  freshFile : ∀ {f}, s.nextFile ≤ f → s.files f = none
  data : ∀ {i y}, s.inodes i = some y → DataOk y
  file : ∀ {f x}, s.files f = some x → FileOk s x
  held : ∀ {d x}, s.dentries d = some x → ownRefs s d < x.refcount

/-! ## 2. References and bookkeeping -/

variable {x : File}

theorem FileOk.of_extends {s' : Fs} (hx : Extends s s')
    (hf : ∀ {i y y'}, s.inodes i = some y → s'.inodes i = some y' → y'.fops = y.fops)
    (h : FileOk s x) : FileOk s' x := by
  obtain ⟨hr, d, de, i, y, hd, hde, hi, hy, ho, hp⟩ := h
  obtain ⟨de', hde', _, hi', _⟩ := hx.dentry hde
  obtain ⟨y', hy', _⟩ := hx.inode hy
  exact ⟨hr, d, de', i, y', hd, hde', hi'.trans hi, hy', ho.trans (hf hy hy').symm, hp⟩

theorem Inv.bump (h : Inv s) (d : Nat) : Inv (s.bump d) := by
  refine ⟨h.toTreeOk.bump d, h.freshInode, h.freshFile, h.data, fun hf => ?_, fun hd => ?_⟩
  · refine (h.file hf).of_extends (extends_bump s d).1 fun hy hy' => ?_
    cases hy.symm.trans hy'
    rfl
  · obtain ⟨y, hy, n, hn, rfl⟩ := bump_inv hd
    exact (h.held hy).trans_le hn

theorem Inv.aside (h : Inv s) {k : Nat} (hk : s.nextDentry ≤ k) (o : List Bool) : Inv (s.aside k o) :=
  ⟨h.toTreeOk.aside hk o, h.freshInode, h.freshFile, h.data, h.file, h.held⟩

/-! ## 3. Files -/

def Fs.putFile (s : Fs) (f : Nat) (x : Option File) : Fs := { s with files := update s.files f x }

theorem extends_putFile (s : Fs) (f : Nat) (x : Option File) : Extends s (s.putFile f x) :=
  ⟨rfl, rfl, fun h => ⟨_, h, rfl, rfl, rfl, List.prefix_refl _⟩, fun h => ⟨_, h, rfl, rfl, rfl⟩⟩

theorem TreeSane.putFile (h : TreeSane s) (f : Nat) (x : Option File) : TreeSane (s.putFile f x) :=
  ⟨h.fresh, h.refs, h.node, h.parent, h.child, h.unmounted, h.root, h.cwd⟩

theorem TreeOk.putFile (h : TreeOk s) (f : Nat) (x : Option File) : TreeOk (s.putFile f x) :=
  ⟨h.toTreeSane.putFile f x, h.inode, h.link, h.hasCwd⟩

theorem Inv.live_file (h : Inv s) (hf : s.files f = some x) : f < s.nextFile := by
  by_contra hlt
  rw [h.freshFile (Nat.not_lt.mp hlt)] at hf
  cases hf

/-- Writing one file slot moves the references of files by what the slot held. -/
theorem ownRefs_putFile (h : Inv s) (hf : s.files f = some x) (x' : Option File) (d : Nat) :
    ownRefs (s.putFile f x') d + holds (ownRef x) d = ownRefs s d + holds (x'.bind ownRef) d := by
  have hfun : (fun g => ((s.putFile f x').files g).bind ownRef) =
      update (fun g => (s.files g).bind ownRef) f (x'.bind ownRef) := by
    funext g
    show (update s.files f x' g).bind ownRef = _
    by_cases hg : g = f
    · subst hg
      rw [update_self, update_self]
    · rw [update_of_ne hg, update_of_ne hg]
  have htally := tally_update (Finset.mem_range.mpr (h.live_file hf))
    (fun g => (s.files g).bind ownRef) (x'.bind ownRef) d
  simp only [hf, Option.bind_some] at htally
  rw [ownRefs, hfun]
  exact htally

theorem Inv.putFile (h : Inv s) {x x' : File} (hf : s.files f = some x) (hd : x'.dentry = x.dentry)
    (ho : x'.fops = x.fops) (hfl : x'.flags = x.flags) (hr : 1 ≤ x'.refcount)
    (hp : x.fops = some .ramfsFile → 0 ≤ x'.pos) :
    Inv (s.putFile f (some x')) := by
  have hlt := h.live_file hf
  refine ⟨h.toTreeOk.putFile f _, h.freshInode, fun hg => ?_, h.data, fun hg => ?_, fun hde => ?_⟩
  · exact (update_of_ne (Nat.ne_of_gt (hlt.trans_le hg)) ..).trans (h.freshFile hg)
  · rename_i g x1
    by_cases hgf : g = f
    · subst hgf
      cases (update_self ..).symm.trans hg
      obtain ⟨_, d, de, i, y, h1, h2, h3, h4, h5, _⟩ := h.file hf
      exact ⟨hr, d, de, i, y, hd.trans h1, h2, h3, h4, ho.trans h5, fun he => hp (ho ▸ he)⟩
    · have hold : s.files g = some x1 := (update_of_ne hgf ..).symm.trans hg
      exact h.file hold
  · rename_i d de
    have hown : ownRef x' = ownRef x := by rw [ownRef, ownRef, hfl, hd]
    have hrefs := ownRefs_putFile h hf (some x') d
    rw [Option.bind_some, hown] at hrefs
    have := h.held hde
    omega

/-- A new file that holds a reference of its own only if there is one to spare. -/
def Fs.addFile (s : Fs) (x : File) : Fs :=
  { s with files := update s.files s.nextFile (some x), nextFile := s.nextFile + 1 }

theorem ownRefs_addFile (s : Fs) (x : File) (d : Nat) :
    ownRefs (s.addFile x) d = ownRefs s d + holds (ownRef x) d := by
  have hself : ((s.addFile x).files s.nextFile).bind ownRef = ownRef x := by
    show (update s.files s.nextFile (some x) s.nextFile).bind ownRef = _
    rw [update_self, Option.bind_some]
  have hold : tally (Finset.range s.nextFile) (fun f => ((s.addFile x).files f).bind ownRef) d
      = ownRefs s d := by
    refine tally_congr (fun f hf => ?_) d
    show (update s.files s.nextFile (some x) f).bind ownRef = _
    rw [update_of_ne (Nat.ne_of_lt (Finset.mem_range.mp hf))]
  rw [ownRefs, show (s.addFile x).nextFile = s.nextFile + 1 from rfl, Finset.range_add_one,
    tally_insert Finset.notMem_range_self, hold, hself]

theorem extends_addFile (s : Fs) (x : File) : Extends s (s.addFile x) :=
  ⟨rfl, rfl, fun h => ⟨_, h, rfl, rfl, rfl, List.prefix_refl _⟩, fun h => ⟨_, h, rfl, rfl, rfl⟩⟩

theorem TreeSane.addFile (h : TreeSane s) (x : File) : TreeSane (s.addFile x) :=
  ⟨h.fresh, h.refs, h.node, h.parent, h.child, h.unmounted, h.root, h.cwd⟩

theorem Inv.addFile (h : Inv s) (hx : FileOk s x)
    (hown : ∀ {d de}, s.dentries d = some de → ownRefs s d + holds (ownRef x) d < de.refcount) :
    Inv (s.addFile x) := by
  refine ⟨⟨h.toTreeSane.addFile x, h.inode, h.link, h.hasCwd⟩, h.freshInode, fun hg => ?_, h.data, fun hg => ?_,
    fun hde => ?_⟩
  · have hg' : s.nextFile + 1 ≤ _ := hg
    exact (update_of_ne (by omega) ..).trans (h.freshFile (by omega))
  · rename_i g x1
    by_cases hgf : g = s.nextFile
    · subst hgf
      cases (update_self ..).symm.trans hg
      exact hx
    · have hold : s.files g = some x1 := (update_of_ne hgf ..).symm.trans hg
      exact h.file hold
  · rw [ownRefs_addFile]
    exact hown hde

theorem TreeSane.unbump (h : TreeSane (s.bump d)) (hr : ∀ {x}, s.dentries d = some x → 1 ≤ x.refcount) :
    TreeSane s := by
  refine h.redress (redress_unbump s d) (fun {e x} hx => ?_) fun hx hi => ?_
  · by_cases he : e = d
    · subst he
      exact hr hx
    · have hx' := h.refs (d := e) (x := x)
      rw [bump_dentries, if_neg he] at hx'
      exact hx' hx
  · obtain ⟨n, _, hn⟩ := bump_live (d := d) hx
    exact h.node hn hi

theorem TreeOk.unbump (h : TreeOk (s.bump d)) (hr : ∀ {x}, s.dentries d = some x → 1 ≤ x.refcount) : TreeOk s := by
  refine ⟨h.toTreeSane.unbump hr, fun hd => ?_, h.link, h.hasCwd⟩
  obtain ⟨n, _, hn⟩ := @bump_live s _ d _ hd
  obtain ⟨i, y, hi, hy⟩ := h.inode hn
  exact ⟨i, y, hi, hy⟩

/-- Closing a file gives back the reference it held: one count goes down with one file. -/
theorem Inv.closeFile (h : Inv (s.bump d)) (hf : s.files f = some x) (hx : ownRef x = some d) :
    Inv (s.putFile f none) := by
  have hrefs := fun e => ownRefs_putFile h (f := f) hf none e
  simp only [hx, Option.bind_none, holds_none] at hrefs
  have hheld : ∀ {e de}, s.dentries e = some de → ownRefs (s.putFile f none) e < de.refcount := by
    intro e de hde
    have hr : ownRefs (s.putFile f none) e + holds (some d) e = ownRefs s e := hrefs e
    by_cases he : e = d
    · subst he
      have hold : ownRefs s e < de.refcount + 1 := h.held (bump_self hde)
      rw [holds_self] at hr
      omega
    · have hold := h.held (d := e) (x := de)
      rw [bump_dentries, if_neg he] at hold
      have hold' : ownRefs s e < de.refcount := hold hde
      omega
  have htree : TreeOk s := h.toTreeOk.unbump fun hde => Nat.one_le_of_lt (hheld hde)
  refine ⟨htree.putFile f none, h.freshInode, fun hg => ?_, h.data, fun {g x1} hg => ?_, hheld⟩
  · have hlt := h.live_file (f := f) hf
    exact (update_of_ne (Nat.ne_of_gt (hlt.trans_le hg)) ..).trans (h.freshFile hg)
  · have hne : g ≠ f := by
      rintro rfl
      have hg : update s.files g none g = some x1 := hg
      rw [update_self] at hg
      cases hg
    have hold : (s.bump d).files g = some x1 := (update_of_ne hne ..).symm.trans hg
    have hext := (extends_bump s d).2.trans (extends_putFile s f none)
    refine FileOk.of_extends hext (fun hy hy' => ?_) (h.file hold)
    cases hy.symm.trans hy'
    rfl

/-! ## 4. Contents -/

def Fs.putNode (s : Fs) (i : Nat) (y : Inode) : Fs := { s with inodes := update s.inodes i (some y) }

/-- An inode with other contents: mode, operations and link target are the same. -/
structure SameNode (y y' : Inode) : Prop where
  mode : y'.mode = y.mode
  ops : y'.ops = y.ops
  fops : y'.fops = y.fops
  target : (y'.priv.bind fun ri => ri.symlinkTarget) = y.priv.bind fun ri => ri.symlinkTarget

theorem putNode_live (hz : s.inodes j = some z) : ∃ z', (s.putNode i y).inodes j = some z' := by
  by_cases hj : j = i
  · subst hj
    exact ⟨y, update_self ..⟩
  · exact ⟨z, (update_of_ne hj ..).trans hz⟩

theorem putNode_inv (hz : (s.putNode i y).inodes j = some z) : j = i ∧ z = y ∨ j ≠ i ∧ s.inodes j = some z := by
  by_cases hj : j = i
  · subst hj
    have hz : update s.inodes j (some y) j = some z := hz
    rw [update_self] at hz
    exact .inl ⟨rfl, (Option.some.inj hz).symm⟩
  · exact .inr ⟨hj, (update_of_ne hj ..).symm.trans hz⟩

theorem TreeSane.putNode (h : TreeSane s) (i : Nat) (y : Inode) : TreeSane (s.putNode i y) := by
  refine ⟨h.fresh, h.refs, fun hd hi => ?_, h.parent, h.child, h.unmounted, h.root, h.cwd⟩
  obtain ⟨z, hz⟩ := h.node hd hi
  exact putNode_live hz

theorem TreeOk.putNode (h : TreeOk s) (i : Nat) (hl : LinkOk y) : TreeOk (s.putNode i y) := by
  refine ⟨h.toTreeSane.putNode i y, fun hd => ?_, fun hj => ?_, h.hasCwd⟩
  · obtain ⟨j, z, hj, hz⟩ := h.inode hd
    obtain ⟨z', hz'⟩ := putNode_live (i := i) (y := y) hz
    exact ⟨j, z', hj, hz'⟩
  · rcases putNode_inv hj with ⟨rfl, rfl⟩ | ⟨_, hz⟩
    · exact hl
    · exact h.link hz

theorem extends_putNode (hy : s.inodes i = some y) (hs : SameNode y y') : Extends s (s.putNode i y') := by
  refine ⟨rfl, rfl, fun h => ⟨_, h, rfl, rfl, rfl, List.prefix_refl _⟩, fun {j z} hz => ?_⟩
  by_cases hj : j = i
  · subst hj
    cases hy.symm.trans hz
    exact ⟨y', update_self .., hs.mode, hs.ops, hs.target⟩
  · exact ⟨z, (update_of_ne hj ..).trans hz, rfl, rfl, rfl⟩

theorem Inv.live_node (h : Inv s) (hy : s.inodes i = some y) : i < s.nextInode := by
  by_contra hlt
  rw [h.freshInode (Nat.not_lt.mp hlt)] at hy
  cases hy

theorem Inv.putNode (h : Inv s) (hy : s.inodes i = some y) (hs : SameNode y y') (hl : LinkOk y')
    (hd : DataOk y') : Inv (s.putNode i y') := by
  refine ⟨h.toTreeOk.putNode i hl, fun hj => ?_, h.freshFile, fun hj => ?_, fun hf => ?_, h.held⟩
  · have := h.live_node hy
    exact (update_of_ne (Nat.ne_of_gt (this.trans_le hj)) ..).trans (h.freshInode hj)
  · rcases putNode_inv hj with ⟨rfl, rfl⟩ | ⟨_, hz⟩
    · exact hd
    · exact h.data hz
  · refine (h.file hf).of_extends (extends_putNode hy hs) fun hz hz' => ?_
    rcases putNode_inv hz' with ⟨rfl, rfl⟩ | ⟨_, hz''⟩
    · cases hy.symm.trans hz
      exact hs.fops
    · cases hz.symm.trans hz''
      rfl

/-! ## 5. New names -/

/-- A new inode. -/
def Fs.addNode (s : Fs) (y : Inode) : Fs :=
  { s with
    inodes := update s.inodes s.nextInode (some y)
    nextInode := s.nextInode + 1
    nextIno := s.nextIno + 1 }

theorem Inv.node_ne (h : Inv s) (hy : s.inodes i = some y) : i ≠ s.nextInode := Nat.ne_of_lt (h.live_node hy)

theorem extends_addNode (h : Inv s) (y : Inode) : Extends s (s.addNode y) :=
  ⟨rfl, rfl, fun hd => ⟨_, hd, rfl, rfl, rfl, List.prefix_refl _⟩, fun hz =>
    ⟨_, (update_of_ne (h.node_ne hz) ..).trans hz, rfl, rfl, rfl⟩⟩

theorem TreeSane.addNode (h : TreeSane s) (y : Inode) : TreeSane (s.addNode y) := let t := h.putNode s.nextInode y
  ⟨t.fresh, t.refs, t.node, t.parent, t.child, t.unmounted, t.root, t.cwd⟩

theorem Inv.addNode (h : Inv s) (hl : LinkOk y) (hd : DataOk y) : Inv (s.addNode y) := by
  have htree := h.toTreeOk.putNode s.nextInode hl
  refine ⟨⟨h.toTreeSane.addNode y, htree.inode, htree.link, h.hasCwd⟩, fun hj => ?_, h.freshFile, fun hj => ?_,
    fun hf => ?_, h.held⟩
  · have hj' : s.nextInode + 1 ≤ _ := hj
    exact (update_of_ne (by omega) ..).trans (h.freshInode (by omega))
  · rcases putNode_inv hj with ⟨rfl, rfl⟩ | ⟨_, hz⟩
    · exact hd
    · exact h.data hz
  · refine (h.file hf).of_extends (extends_addNode h y) fun hz hz' => ?_
    rcases putNode_inv hz' with ⟨rfl, rfl⟩ | ⟨_, hz''⟩
    · exact absurd rfl (h.node_ne hz)
    · cases hz.symm.trans hz''
      rfl

theorem graft_inv (ht : TreeSane s) {y x : Dentry} (hp : s.dentries p = some y)
    (h : (s.graft p c).dentries d = some x) :
    d = s.nextDentry ∧ x = c ∨ ∃ z, s.dentries d = some z ∧ (x = z ∨ d = p ∧
        x = { z with children := z.children ++ [s.nextDentry] }) := by
  by_cases hd : d = s.nextDentry
  · subst hd
    rw [graft_self ht hp] at h
    exact .inl ⟨rfl, (Option.some.inj h).symm⟩
  · by_cases hdp : d = p
    · subst hdp
      rw [graft_parent hp] at h
      exact .inr ⟨y, hp, .inr ⟨rfl, (Option.some.inj h).symm⟩⟩
    · rw [graft_other c hd hdp] at h
      exact .inr ⟨x, h, .inl rfl⟩

theorem extends_graft (ht : TreeSane s) {y : Dentry} (hp : s.dentries p = some y) (c : Dentry) :
    Extends s (s.graft p c) := by
  refine ⟨rfl, rfl, fun {d x} hd => ?_, fun h => ⟨_, h, rfl, rfl, rfl⟩⟩
  by_cases hdp : d = p
  · subst hdp
    cases hp.symm.trans hd
    exact ⟨_, graft_parent hp c, rfl, rfl, rfl, List.prefix_append _ _⟩
  · exact ⟨x, (graft_other c (ht.live_ne hd) hdp).trans hd, rfl, rfl, rfl, List.prefix_refl _⟩

theorem TreeSane.graft (ht : TreeSane s) {y : Dentry} (hp : s.dentries p = some y)
    (hi : ∀ i, c.inode = some i → ∃ z, s.inodes i = some z) (hc : c.parent = some p) (hch : c.children = [])
    (hr : 1 ≤ c.refcount) (hm : c.mounted = false) : TreeSane (s.graft p c) := by
  have hlive : ∀ {e}, (∃ x, s.dentries e = some x) → ∃ x, (s.graft p c).dentries e = some x := fun ⟨x, hx⟩ => by
      obtain ⟨x', hx', _⟩ := (extends_graft ht hp c).dentry hx
      exact ⟨x', hx'⟩
  refine ⟨fun {d} hd => ?_, fun hd => ?_, fun hd hn => ?_, fun hd hpar => ?_, fun hd hmem => ?_,
    fun hd => ?_, hlive ht.root, fun hd => hlive (ht.cwd hd)⟩
  · have hd' : s.nextDentry + 1 ≤ d := hd
    have hdp : d ≠ p := by
      rintro rfl
      rw [ht.fresh (by omega)] at hp
      cases hp
    exact (graft_other c (by omega) hdp).trans (ht.fresh (by omega))
  · rcases graft_inv ht hp hd with ⟨rfl, rfl⟩ | ⟨w, hw, rfl | ⟨rfl, rfl⟩⟩
    · exact hr
    · exact ht.refs hw
    · exact ht.refs (x := w) hw
  · rcases graft_inv ht hp hd with ⟨rfl, rfl⟩ | ⟨w, hw, rfl | ⟨rfl, rfl⟩⟩
    · exact hi _ hn
    · exact ht.node hw hn
    · exact ht.node (x := w) hw hn
  · rcases graft_inv ht hp hd with ⟨rfl, rfl⟩ | ⟨w, hw, rfl | ⟨rfl, rfl⟩⟩
    · cases hc.symm.trans hpar
      exact hlive ⟨y, hp⟩
    · exact hlive (ht.parent hw hpar)
    · exact hlive (ht.parent (x := w) hw hpar)
  · rcases graft_inv ht hp hd with ⟨rfl, rfl⟩ | ⟨w, hw, rfl | ⟨rfl, rfl⟩⟩
    · rw [hch] at hmem
      cases hmem
    · exact hlive (ht.child hw hmem)
    · rcases List.mem_append.mp hmem with hold | hnew
      · exact hlive (ht.child hw hold)
      · rw [List.mem_singleton.mp hnew]
        exact ⟨c, graft_self ht hp c⟩
  · rcases graft_inv ht hp hd with ⟨rfl, rfl⟩ | ⟨w, hw, rfl | ⟨rfl, rfl⟩⟩
    · exact hm
    · exact ht.unmounted hw
    · exact ht.unmounted (x := w) hw

theorem TreeOk.graft (ht : TreeOk s) {y : Dentry} (hp : s.dentries p = some y) (hi : c.inode = some i)
    (hz : s.inodes i = some z) (hc : c.parent = some p) (hch : c.children = []) (hr : 1 ≤ c.refcount)
    (hm : c.mounted = false) : TreeOk (s.graft p c) := by
  have hnode : ∀ j, c.inode = some j → ∃ z, s.inodes j = some z := fun j hj => by
    cases hi.symm.trans hj
    exact ⟨z, hz⟩
  refine ⟨ht.toTreeSane.graft hp hnode hc hch hr hm, fun hd => ?_, ht.link, ht.hasCwd⟩
  rcases graft_inv ht.toTreeSane hp hd with ⟨rfl, rfl⟩ | ⟨w, hw, rfl | ⟨rfl, rfl⟩⟩
  · exact ⟨i, z, hi, hz⟩
  · exact ht.inode hw
  · exact ht.inode (x := w) hw

/-- No open file stands on a dentry that does not exist yet. -/
theorem Inv.ownRefs_fresh (h : Inv s) : ownRefs s s.nextDentry = 0 := by
  refine tally_zero fun f _ hf => ?_
  obtain ⟨x, hx, hown⟩ := Option.bind_eq_some_iff.mp hf
  obtain ⟨_, d, de, _, _, hd, hde, _⟩ := h.file hx
  unfold ownRef at hown
  split at hown
  · cases hown
  · rw [hd] at hown
    cases hown
    exact h.live_ne hde rfl

theorem Inv.graft (h : Inv s) {y : Dentry} (hp : s.dentries p = some y) (hi : c.inode = some i)
    (hz : s.inodes i = some z) (hc : c.parent = some p) (hch : c.children = []) (hr : 1 ≤ c.refcount)
    (hm : c.mounted = false) : Inv (s.graft p c) := by
  refine ⟨h.toTreeOk.graft hp hi hz hc hch hr hm, h.freshInode, h.freshFile, h.data, fun hf => ?_, fun hd => ?_⟩
  · refine (h.file hf).of_extends (extends_graft h.toTreeSane hp c) fun hy hy' => ?_
    cases hy.symm.trans hy'
    rfl
  · rcases graft_inv h.toTreeSane hp hd with ⟨rfl, rfl⟩ | ⟨w, hw, rfl | ⟨rfl, rfl⟩⟩
    · show ownRefs s s.nextDentry < _
      rw [h.ownRefs_fresh]
      exact hr
    · exact h.held hw
    · exact h.held (x := w) hw

end OreUnix.Vfs
