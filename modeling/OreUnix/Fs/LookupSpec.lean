/-
  Subject: `vfs_lookup` COMPUTES `resolve`, and what it does to the reference counts.

  * `TreeSane` -- a tree without mounts: every dentry has a live parent, live children and at least one reference, and
    an inode that is there if it has one;
  * `TreeOk` -- every dentry has an inode, and no link's target is too long for the component buffers;
  * `wp_lookup_answer` -- the result is the `answer`; on success the state is the old one with one reference more on
    the result, on failure the old one. Where a lookup does not return, there is no answer either. The ways not to
    return are a parameter `P`;
  * `wp_lookup_sane`, `wp_vfsLookup` -- the same for `resolve`; in a `TreeOk` tree, with a path of short components,
    the only way not to return is to run out of fuel.

  The walk holds one reference to the dentry it stands on, so every state on the way is the first one with one count
  raised (`bump`), and no count it lowers was at 1.
-/
import OreUnix.Fs.Answer
import OreUnix.Lib.Wp
import Mathlib.Data.List.TakeWhile

namespace OreUnix.Vfs

open Function (update update_of_ne update_self)
open Wp

variable {s : Fs} {x : Dentry}
variable {D : Nat → Option Dentry} {E P : Crash → Prop} {component dir name path rest : Str} {cs : List Nat}
  {cwd : Option Nat} {d de i : Nat} {t : Fs}

/-! ## 1. Rules for the primitive operations -/

section Rules

variable {α : Type} {E : Crash → Prop}

theorem wp_getDentry {Q : Dentry → Fs → Prop} (h : s.dentries d = some x) : wp E (getDentry d) Q s ↔ Q x s := by
  simp only [wp, getDentry, h]

theorem wp_getInode {Q : Inode → Fs → Prop} {x : Inode} (h : s.inodes i = some x) :
    wp E (getInode i) Q s ↔ Q x s := by
  simp only [wp, getInode, h]

theorem wp_getFile {Q : File → Fs → Prop} {f : Nat} {x : File} (h : s.files f = some x) :
    wp E (getFile f) Q s ↔ Q x s := by
  simp only [wp, getFile, h]

variable {Q : Unit → Fs → Prop}

@[simp] theorem wp_setDentry (d : Nat) (x : Option Dentry) :
    wp E (setDentry d x) Q s ↔ Q () { s with dentries := update s.dentries d x } := Iff.rfl

@[simp] theorem wp_setInode (i : Nat) (x : Option Inode) :
    wp E (setInode i x) Q s ↔ Q () { s with inodes := update s.inodes i x } := Iff.rfl

@[simp] theorem wp_setFile (f : Nat) (x : Option File) :
    wp E (setFile f x) Q s ↔ Q () { s with files := update s.files f x } := Iff.rfl

@[simp] theorem wp_allocOk {Q : Bool → Fs → Prop} :
    wp E allocOk Q s ↔ Q (s.oracle.headD true) { s with oracle := s.oracle.tail } := by
  cases s with
  | mk _ _ _ _ _ _ _ _ _ _ _ _ oracle => cases oracle <;> rfl

@[simp] theorem wp_deref {Q : Nat → Fs → Prop} (a : Nat) : wp E (deref (some a)) Q s ↔ Q a s := Iff.rfl

theorem wp_deref_some {Q : Nat → Fs → Prop} {p : Option Nat} {a : Nat} (h : p = some a) :
    wp E (deref p) Q s ↔ Q a s := by
  rw [h, wp_deref]

end Rules

/-! ## 2. One reference more -/

def Dentry.raise (x : Dentry) : Dentry := { x with refcount := x.refcount + 1 }

/-- The state with one reference more on `d`. -/
def Fs.bump (s : Fs) (d : Nat) : Fs :=
  { s with dentries := fun e => if e = d then (s.dentries e).map Dentry.raise else s.dentries e }

/-- The state with other allocation outcomes ahead. -/
def Fs.aside (s : Fs) (k : Nat) (o : List Bool) : Fs := { s with nextDentry := k, oracle := o }

theorem bump_dentries (s : Fs) (d e : Nat) :
    (s.bump d).dentries e = if e = d then (s.dentries e).map Dentry.raise else s.dentries e := rfl

theorem Fs.ext_dentries (h : t = { s with dentries := t.dentries }) (hd : ∀ e, t.dentries e = s.dentries e) :
    t = s := by
  rw [h, show t.dentries = s.dentries from funext hd]

theorem bump_comm (s : Fs) (d e : Nat) : (s.bump d).bump e = (s.bump e).bump d := by
  refine Fs.ext_dentries rfl fun c => ?_
  simp only [bump_dentries]
  split <;> split <;> rfl

theorem bump_aside (s : Fs) (d k : Nat) (o : List Bool) : (s.bump d).aside k o = (s.aside k o).bump d := rfl

theorem bump_live {d e : Nat} (h : s.dentries e = some x) :
    ∃ n, x.refcount ≤ n ∧ (s.bump d).dentries e = some { x with refcount := n } := by
  rw [bump_dentries, h]
  split
  · exact ⟨x.refcount + 1, by omega, rfl⟩
  · exact ⟨x.refcount, le_rfl, rfl⟩

theorem bump_inv {e : Nat} (h : (s.bump d).dentries e = some x) :
    ∃ y, s.dentries e = some y ∧ ∃ n, y.refcount ≤ n ∧ x = { y with refcount := n } := by
  rw [bump_dentries] at h
  split at h
  · obtain ⟨y, hy, rfl⟩ := Option.map_eq_some_iff.mp h
    exact ⟨y, hy, y.refcount + 1, by omega, rfl⟩
  · exact ⟨x, h, x.refcount, le_rfl, rfl⟩

theorem bump_self (h : s.dentries d = some x) : (s.bump d).dentries d = some x.raise := by
  rw [bump_dentries, if_pos rfl, h, Option.map_some]

theorem update_bump (h : s.dentries d = some x) :
    { s with dentries := update s.dentries d (some x.raise) } = s.bump d := by
  refine Fs.ext_dentries rfl fun e => ?_
  rw [bump_dentries]
  split
  · rename_i he
    subst he
    rw [h, Option.map_some]
    exact update_self ..
  · exact update_of_ne ‹_› ..

theorem update_unbump (h : s.dentries d = some x) :
    { s.bump d with dentries := update (s.bump d).dentries d (some x) } = s := by
  refine Fs.ext_dentries rfl fun e => ?_
  show update (s.bump d).dentries d (some x) e = s.dentries e
  by_cases he : e = d
  · subst he
    rw [update_self, h]
  · rw [update_of_ne he, bump_dentries, if_neg he]

theorem wp_dentryGet {Q : Unit → Fs → Prop} (h : s.dentries d = some x) :
    wp E (dentryGet d) Q s ↔ Q () (s.bump d) := by
  rw [dentryGet, wp_bind, wp_getDentry h, wp_setDentry]
  show Q () { s with dentries := update s.dentries d (some x.raise) } ↔ Q () (s.bump d)
  rw [update_bump h]

/-- Giving back a reference that is not the last one. -/
theorem wp_dentryPut {Q : Unit → Fs → Prop} (h : s.dentries d = some x) (hr : 1 ≤ x.refcount) :
    wp E (dentryPut d) Q (s.bump d) ↔ Q () s := by
  have hne : ¬ x.raise.refcount = 1 := by show ¬ x.refcount + 1 = 1; omega
  rw [dentryPut, wp_bind, wp_getDentry (bump_self h), if_neg hne, wp_setDentry]
  show Q () { s.bump d with dentries := update (s.bump d).dentries d (some x) } ↔ Q () s
  rw [update_unbump h]

/-! ## 3. Trees without mounts -/

/-- Every slash-free part of the path fits the component buffers. -/
def ShortPath (path : Str) : Prop := ∀ part, part <:+: path → slash ∉ part → part.length < nameMax

theorem ShortPath.mono {p q : Str} (h : ShortPath q) (hp : p <:+: q) : ShortPath p :=
  fun part hpart => h part (hpart.trans hp)

/-- The private part of a ramfs inode is there, and a link's target is short. -/
def LinkOk (y : Inode) : Prop :=
  y.ops = some .ramfs → ∃ ri, y.priv = some ri ∧ ∀ t, ri.symlinkTarget = some t → ShortPath t

/-- A path a lookup takes, where `P` is how it may fail. -/
def PathOk (P : Crash → Prop) (path : Str) : Prop := P .overflow ∨ ShortPath path

/-- The links of a tree and the working directory are in order, as far as the failures `P` need it. -/
structure LinksOk (P : Crash → Prop) (s : Fs) : Prop where
  cwd : P .null ∨ s.cwd ≠ none
  priv : ∀ {i y}, s.inodes i = some y → y.ops = some .ramfs → P .null ∨ y.priv ≠ none
  target : ∀ {i y ri t}, s.inodes i = some y → y.priv = some ri → ri.symlinkTarget = some t →
    y.ops = some .ramfs → PathOk P t

structure TreeSane (s : Fs) : Prop where
  fresh : ∀ {d}, s.nextDentry ≤ d → s.dentries d = none
  refs : ∀ {d x}, s.dentries d = some x → 1 ≤ x.refcount
  node : ∀ {d x i}, s.dentries d = some x → x.inode = some i → ∃ y, s.inodes i = some y
  parent : ∀ {d x p}, s.dentries d = some x → x.parent = some p → ∃ y, s.dentries p = some y
  child : ∀ {d x c}, s.dentries d = some x → c ∈ x.children → ∃ y, s.dentries c = some y
  unmounted : ∀ {d x}, s.dentries d = some x → x.mounted = false
  root : ∃ x, s.dentries s.root = some x
  cwd : ∀ {d}, s.cwd = some d → ∃ x, s.dentries d = some x

/-- A sane tree in which every dentry has an inode, seen by a task with a working directory. -/
structure TreeOk (s : Fs) : Prop extends TreeSane s where
  inode : ∀ {d x}, s.dentries d = some x → ∃ i y, x.inode = some i ∧ s.inodes i = some y
  link : ∀ {i y}, s.inodes i = some y → LinkOk y
  hasCwd : s.cwd ≠ none

theorem PathOk.mono {part : Str} (h : PathOk P path) (hp : part <:+: path) : PathOk P part :=
  h.imp_right fun hs => hs.mono hp

theorem TreeOk.linksOk (ht : TreeOk s) : LinksOk P s := by
  refine ⟨.inr ht.hasCwd, fun hy ho => .inr ?_, fun hy hri ht' ho => .inr ?_⟩
  · obtain ⟨ri, hri, _⟩ := ht.link hy ho
    simp [hri]
  · obtain ⟨ri', hri', htgt⟩ := ht.link hy ho
    cases hri.symm.trans hri'
    exact htgt _ ht'

theorem LinksOk.bump (h : LinksOk P s) (d : Nat) : LinksOk P (s.bump d) := ⟨h.cwd, h.priv, h.target⟩

/-- The dentries `D` are those of `s`, each with its parent and no child more. -/
structure Redress (s : Fs) (D : Nat → Option Dentry) : Prop where
  live : ∀ {e}, (∃ x, s.dentries e = some x) → ∃ x, D e = some x
  back : ∀ {e x}, D e = some x → ∃ y, s.dentries e = some y ∧ x.parent = y.parent ∧ x.children ⊆ y.children ∧
    x.mounted = y.mounted ∧ (x.linked = true → y.linked = true)

theorem TreeSane.redress (ht : TreeSane s) (hD : Redress s D) (hrefs : ∀ {e x}, D e = some x → 1 ≤ x.refcount)
    (hnode : ∀ {e x i}, D e = some x → x.inode = some i → ∃ y, s.inodes i = some y) :
    TreeSane { s with dentries := D } := by
  refine ⟨fun hd => Option.eq_none_iff_forall_ne_some.mpr fun x hx => ?_, hrefs, hnode, fun hx hp => ?_,
    fun hx hc => ?_, fun hx => ?_, hD.live ht.root, fun he => hD.live (ht.cwd he)⟩
  · obtain ⟨y, hy, _⟩ := hD.back hx
    rw [ht.fresh hd] at hy
    cases hy
  · obtain ⟨y, hy, hpar, _⟩ := hD.back hx
    exact hD.live (ht.parent hy (hpar ▸ hp))
  · obtain ⟨y, hy, _, hsub, _⟩ := hD.back hx
    exact hD.live (ht.child hy (hsub hc))
  · obtain ⟨y, hy, _, _, hm, _⟩ := hD.back hx
    rw [hm]
    exact ht.unmounted hy

/-- Counts that differ are no harm to the tree. -/
theorem Redress.recount (hlive : ∀ {e}, (∃ x, s.dentries e = some x) → ∃ x, D e = some x)
    (hback : ∀ {e x}, D e = some x → ∃ n, s.dentries e = some { x with refcount := n }) : Redress s D := by
  refine ⟨hlive, fun hx => ?_⟩
  obtain ⟨n, hn⟩ := hback hx
  exact ⟨_, hn, rfl, List.Subset.refl _, rfl, id⟩

theorem bump_old {e : Nat} (h : (s.bump d).dentries e = some x) :
    ∃ n, s.dentries e = some { x with refcount := n } := by
  obtain ⟨y, hy, n, _, rfl⟩ := bump_inv h
  exact ⟨y.refcount, hy⟩

theorem redress_bump (s : Fs) (d : Nat) : Redress s (s.bump d).dentries := by
  refine .recount (fun ⟨x, hx⟩ => ?_) bump_old
  obtain ⟨n, _, hn⟩ := bump_live (d := d) hx
  exact ⟨_, hn⟩

theorem redress_unbump (s : Fs) (d : Nat) : Redress (s.bump d) s.dentries := by
  refine .recount (fun ⟨x, hx⟩ => ?_) fun hx => ?_
  · obtain ⟨n, hn⟩ := bump_old hx
    exact ⟨_, hn⟩
  · obtain ⟨n, _, hn⟩ := bump_live (d := d) hx
    exact ⟨n, hn⟩

theorem TreeSane.bump (ht : TreeSane s) (d : Nat) : TreeSane (s.bump d) := by
  refine ht.redress (redress_bump s d) (fun hx => ?_) fun hx hi => ?_
  · obtain ⟨y, hy, n, hn, rfl⟩ := bump_inv hx
    exact (ht.refs hy).trans hn
  · obtain ⟨n, hn⟩ := bump_old hx
    exact ht.node hn hi

theorem TreeOk.bump (ht : TreeOk s) (d : Nat) : TreeOk (s.bump d) := by
  refine ⟨ht.toTreeSane.bump d, fun hd => ?_, ht.link, ht.hasCwd⟩
  obtain ⟨y, hy, n, hn, rfl⟩ := bump_inv hd
  obtain ⟨i, z, hi, hz⟩ := ht.inode hy
  exact ⟨i, z, hi, hz⟩

theorem TreeSane.aside (ht : TreeSane s) {k : Nat} (hk : s.nextDentry ≤ k) (o : List Bool) : TreeSane (s.aside k o) :=
  ⟨fun hd => ht.fresh (hk.trans hd), ht.refs, ht.node, ht.parent, ht.child, ht.unmounted, ht.root, ht.cwd⟩

theorem TreeOk.aside (ht : TreeOk s) {k : Nat} (hk : s.nextDentry ≤ k) (o : List Bool) : TreeOk (s.aside k o) :=
  ⟨ht.toTreeSane.aside hk o, ht.inode, ht.link, ht.hasCwd⟩

/-- Reference counts do not matter to resolution. -/
theorem extends_bump (s : Fs) (d : Nat) : Extends s (s.bump d) ∧ Extends (s.bump d) s := by
  refine ⟨⟨rfl, rfl, fun h => ?_, fun h => ⟨_, h, rfl, rfl, rfl⟩⟩,
    ⟨rfl, rfl, fun h => ?_, fun h => ⟨_, h, rfl, rfl, rfl⟩⟩⟩
  · obtain ⟨n, _, hn⟩ := @bump_live s _ d _ h
    exact ⟨_, hn, rfl, rfl, rfl, List.prefix_refl _⟩
  · obtain ⟨y, hy, n, _, rfl⟩ := bump_inv h
    exact ⟨y, hy, rfl, rfl, rfl, List.prefix_refl _⟩

theorem extends_aside (s : Fs) (k : Nat) (o : List Bool) : Extends s (s.aside k o) ∧ Extends (s.aside k o) s :=
  ⟨⟨rfl, rfl, fun h => ⟨_, h, rfl, rfl, rfl, List.prefix_refl _⟩, fun h => ⟨_, h, rfl, rfl, rfl⟩⟩,
    ⟨rfl, rfl, fun h => ⟨_, h, rfl, rfl, rfl, List.prefix_refl _⟩, fun h => ⟨_, h, rfl, rfl, rfl⟩⟩⟩

/-! ## 4. Children -/

/-- The state with a new child under `p`. -/
def Fs.graft (s : Fs) (p : Nat) (c : Dentry) : Fs :=
  { s with
    dentries := update (update s.dentries s.nextDentry (some c)) p
      ((s.dentries p).map fun y => { y with children := y.children ++ [s.nextDentry] })
    nextDentry := s.nextDentry + 1 }

def newChild (name : Str) (p : Nat) : Dentry :=
  { name := name.take nameMax, inode := none, parent := some p, children := []
    linked := true, refcount := 1, mounted := false, mountpoint := none }

theorem TreeSane.live_ne (ht : TreeSane s) (h : s.dentries d = some x) : d ≠ s.nextDentry := by
  rintro rfl
  rw [ht.fresh le_rfl] at h
  cases h

theorem graft_self (ht : TreeSane s) {p : Nat} {y : Dentry} (hp : s.dentries p = some y) (c : Dentry) :
    (s.graft p c).dentries s.nextDentry = some c := by
  show update (update s.dentries s.nextDentry (some c)) p _ s.nextDentry = some c
  rw [update_of_ne (ht.live_ne hp).symm, update_self]

theorem graft_parent {p : Nat} {y : Dentry} (hp : s.dentries p = some y) (c : Dentry) :
    (s.graft p c).dentries p = some { y with children := y.children ++ [s.nextDentry] } := by
  show update (update s.dentries s.nextDentry (some c)) p _ p = _
  rw [update_self, hp, Option.map_some]

theorem graft_other {p : Nat} (c : Dentry) (hd : d ≠ s.nextDentry) (hp : d ≠ p) :
    (s.graft p c).dentries d = s.dentries d := by
  show update (update s.dentries s.nextDentry (some c)) p _ d = _
  rw [update_of_ne hp, update_of_ne hd]

section Rules

variable {E : Crash → Prop}

variable {Q : Option Nat → Fs → Prop}

theorem wp_findChild (h : ∀ c ∈ cs, ∃ x, s.dentries c = some x) :
    wp E (findChild name cs) Q s ↔ Q (childNamed s name cs) s := by
  induction cs with
  | nil => exact Iff.rfl
  | cons c cs ih =>
    obtain ⟨x, hx⟩ := h c (.head _)
    rw [findChild, wp_bind, wp_getDentry hx, childNamed, hx]
    simp only [Option.bind_eq_bind, Option.bind_some]
    split
    · exact Iff.rfl
    · exact ih fun c hc => h c (.tail _ hc)

theorem wp_dentryLookupChild (ht : TreeSane s) {p : Nat}
    (hp : s.dentries p = some x) :
    wp E (dentryLookupChild p name) Q s ↔ Q (childNamed s name x.children) s := by
  rw [dentryLookupChild, wp_bind, wp_getDentry hp]
  exact wp_findChild fun c hc => ht.child hp hc

theorem childNamed_mem {c : Nat} (h : childNamed s name cs = some c) : c ∈ cs := by
  induction cs with
  | nil => cases h
  | cons a as ih =>
    obtain ⟨x, _, h⟩ := Option.bind_eq_some_iff.mp h
    split at h
    · cases h
      exact .head _
    · exact .tail _ (ih h)

theorem wp_dentryAlloc (ht : TreeSane s) {p : Nat} {y : Dentry}
    (hp : s.dentries p = some y) :
    wp E (dentryAlloc name (some p)) Q s ↔ if s.oracle.headD true then
        Q (some s.nextDentry) (({ s with oracle := s.oracle.tail } : Fs).graft p (newChild name p))
      else Q none { s with oracle := s.oracle.tail } := by
  rw [dentryAlloc, wp_bind, wp_allocOk]
  split
  · simp only [wp_bind, wp_get, wp_set]
    have hp' : update s.dentries s.nextDentry (some (newChild name p)) p = some y := by
      rw [update_of_ne (ht.live_ne hp), hp]
    refine (wp_getDentry (x := y) hp').trans ?_
    simp only [wp_setDentry, wp_pure, Fs.graft, hp, Option.map_some]
    exact Iff.rfl
  · exact Iff.rfl

/-- Taking a new child out of its directory: the directory is as before. -/
theorem wp_unlinkSibling_graft (ht : TreeSane s) {Q : Unit → Fs → Prop} {p : Nat} {c y : Dentry}
    (hp : s.dentries p = some y) (hl : c.linked = true) (hcp : c.parent = some p) :
    wp E (unlinkSibling s.nextDentry) Q (s.graft p c) ↔ Q () { s with
      dentries := update s.dentries s.nextDentry (some { c with linked := false })
      nextDentry := s.nextDentry + 1 } := by
  have hne := ht.live_ne hp
  have hold : (y.children ++ [s.nextDentry]).filter (· ≠ s.nextDentry) = y.children := by
    rw [List.filter_append, List.filter_eq_self.mpr]
    · simp
    · intro a ha
      obtain ⟨z, hz⟩ := ht.child hp ha
      simpa using ht.live_ne hz
  rw [unlinkSibling, wp_bind, wp_getDentry (graft_self ht hp c), hl, hcp]
  simp only [wp_bind, wp_setDentry]
  rw [wp_getDentry (graft_parent hp c)]
  refine iff_of_eq (congrArg (Q ()) ?_)
  refine Fs.ext_dentries rfl fun d => ?_
  show update (update (s.graft p c).dentries p _) s.nextDentry _ d
    = update s.dentries s.nextDentry _ d
  by_cases hd : d = s.nextDentry
  · subst hd
    rw [update_self, update_self]
  · rw [update_of_ne hd, update_of_ne hd]
    by_cases hdp : d = p
    · subst hdp
      rw [update_self, hp, hold]
    · rw [update_of_ne hdp, graft_other c hd hdp]

/-- The last reference to a new child without an inode: it goes, and the directory is as before. -/
theorem wp_dentryPut_graft (ht : TreeSane s) {Q : Unit → Fs → Prop} {p : Nat} {y : Dentry}
    (hp : s.dentries p = some y) :
    wp E (dentryPut s.nextDentry) Q (s.graft p (newChild name p)) ↔ Q () (s.aside (s.nextDentry + 1) s.oracle) := by
  rw [dentryPut, wp_bind, wp_getDentry (graft_self ht hp _), if_pos (show (newChild name p).refcount = 1 from rfl),
    dentryFree, wp_bind, wp_unlinkSibling_graft ht hp rfl rfl, wp_bind]
  refine (wp_getDentry (update_self ..)).trans ?_
  refine iff_of_eq (congrArg (Q ()) ?_)
  refine Fs.ext_dentries rfl fun d => ?_
  show update (update s.dentries s.nextDentry _) s.nextDentry none d = s.dentries d
  by_cases hd : d = s.nextDentry
  · subst hd
    rw [update_self, ht.fresh le_rfl]
  · rw [update_of_ne hd, update_of_ne hd]

end Rules

/-! ## 5. The walk -/

/-- What a lookup may leave behind, `r` being what the tree says. -/
def LookupPost (s : Fs) (r : Option Nat) : Except Int Nat → Fs → Prop
  | .ok d, t => r = some d ∧ t = s.bump d ∧ ∃ x, s.dentries d = some x
  | .error _, t => r = none ∧ ∃ k o, s.nextDentry ≤ k ∧ t = s.aside k o

/-- Where a walk does not return, for one of the reasons `P`, nothing resolves. -/
def Stuck (P : Crash → Prop) (r : Option Nat) (e : Crash) : Prop := P e ∧ r = none

/-- What a lookup with the answer `a` leaves behind. -/
def AnswerPost (s : Fs) (a : Answer) : Except Int Nat → Fs → Prop
  | .ok d, t => a = some (.ok d) ∧ t = s.bump d ∧ ∃ x, s.dentries d = some x
  | .error e, t => a = some (.error e) ∧ ∃ k o, s.nextDentry ≤ k ∧ t = s.aside k o

theorem AnswerPost.error (s : Fs) (e : Int) : AnswerPost s (some (.error e)) (.error e) s :=
  ⟨rfl, s.nextDentry, s.oracle, le_rfl, rfl⟩

/-- Where a walk does not return, for one of the reasons `P`, there is no answer. -/
def NoAnswer (P : Crash → Prop) (a : Answer) (e : Crash) : Prop := P e ∧ a = none

/-- The loop `w` gives the answers `g`. -/
def WalkAnswers (P : Crash → Prop) (w : Nat → Str → M (Except Int Nat)) (g : Fs → Nat → Str → Answer) : Prop :=
  ∀ s de path, TreeSane s → LinksOk P s → (∃ x, s.dentries de = some x) → PathOk P path →
    wp (NoAnswer P (g s de path)) (w de path) (AnswerPost s (g s de path)) (s.bump de)

theorem AnswerPost.lookup {a : Answer} {r : Except Int Nat} (h : AnswerPost s a r t) : LookupPost s a.dentry r t := by
  cases r with
  | error e =>
    obtain ⟨rfl, h⟩ := h
    exact ⟨rfl, h⟩
  | ok d =>
    obtain ⟨rfl, h⟩ := h
    exact ⟨rfl, h⟩

theorem NoAnswer.stuck {a : Answer} {e : Crash} (h : NoAnswer P a e) : Stuck P a.dentry e := by
  obtain ⟨hP, rfl⟩ := h
  exact ⟨hP, rfl⟩

theorem resolveFrom_congr {s' : Fs} (h : Extends s s') (h' : Extends s' s) (fuel : Nat) :
    resolveFrom s fuel = resolveFrom s' fuel := by
  funext de path
  refine Option.ext fun d => ⟨fun hd => ?_, fun hd => ?_⟩
  · exact resolveFrom_mono h fuel de path d hd
  · exact resolveFrom_mono h' fuel de path d hd

theorem resolveFrom_bump (s : Fs) (d fuel : Nat) : resolveFrom (s.bump d) fuel = resolveFrom s fuel :=
  resolveFrom_congr (extends_bump s d).2 (extends_bump s d).1 fuel

theorem startOf_live (ht : TreeSane s) (hc : ∀ d, cwd = some d → ∃ x, s.dentries d = some x)
    (hd : startOf s path cwd = some d) :
    ∃ x, s.dentries d = some x := by
  unfold startOf at hd
  split at hd
  · cases hd
    exact ht.root
  · cases cwd with
    | some c => exact hc d hd
    | none => exact ht.cwd hd

/-- A lookup has nowhere to start only where the task has no working directory. -/
theorem startOf_none (h : startOf s path cwd = none) : s.cwd = none := by
  unfold startOf at h
  split at h
  · cases h
  · exact (Option.or_eq_none_iff.mp h).2

theorem wp_startNowhere {Q : Nat → Fs → Prop} (h : startOf s path cwd = none) (hE : E .null) :
    wp E (startDentry path cwd) Q s := by
  rw [startDentry, wp_bind, wp_get]
  unfold startOf at h
  split
  · rw [if_pos ‹_›] at h
    cases h
  · rw [if_neg ‹_›] at h
    rw [h]
    exact hE

theorem wp_startDentry {Q : Nat → Fs → Prop} (hd : startOf s path cwd = some d)
    (hx : s.dentries d = some x) :
    wp E (startDentry path cwd) Q s ↔ Q d (s.bump d) := by
  rw [startDentry, wp_bind, wp_get]
  unfold startOf at hd
  split
  · rw [if_pos ‹_›] at hd
    cases hd
    rw [wp_bind, wp_dentryGet hx, wp_pure]
  · rw [if_neg ‹_›] at hd
    rw [hd, wp_bind, wp_deref, wp_bind, wp_dentryGet hx, wp_pure]

theorem childNamed_bump (s : Fs) (d : Nat) (name : Str) (cs : List Nat) :
    childNamed (s.bump d) name cs = childNamed s name cs := by
  refine Option.ext fun c => ⟨fun h => ?_, fun h => ?_⟩
  · exact childNamed_mono (extends_bump s d).2 (List.prefix_refl _) h
  · exact childNamed_mono (extends_bump s d).1 (List.prefix_refl _) h

theorem bump_dentry (s : Fs) (d e : Nat) : s.dentries e = none ∧ (s.bump d).dentries e = none ∨
      ∃ x n, s.dentries e = some x ∧ (s.bump d).dentries e = some { x with refcount := n } := by
  cases hx : s.dentries e with
  | none =>
    rw [bump_dentries, hx]
    exact .inl ⟨rfl, by simp⟩
  | some x =>
    obtain ⟨n, _, hn⟩ := @bump_live s _ d _ hx
    exact .inr ⟨x, n, rfl, hn⟩

theorem answerLink_bump (s : Fs) (d : Nat) (go : Nat → Str → Answer) (de : Nat) (rest : Str) :
    answerLink (s.bump d) go de rest = answerLink s go de rest := by
  unfold answerLink
  rcases bump_dentry s d de with ⟨h, h'⟩ | ⟨x, n, h, h'⟩ <;> rw [h, h'] <;> rfl

theorem answerInto_bump (s : Fs) (d : Nat) (go : Nat → Str → Answer) (de : Nat) (component rest : Str) :
    answerInto (s.bump d) go de component rest = answerInto s go de component rest := by
  unfold answerInto
  rcases bump_dentry s d de with ⟨h, h'⟩ | ⟨x, n, h, h'⟩
  · rw [h, h']
    rfl
  · rw [h, h']
    simp only [Option.bind_some, childNamed_bump, answerLink_bump]
    rfl

/-- Reference counts do not matter to the answer. -/
theorem answerFrom_bump (s : Fs) (d fuel : Nat) : answerFrom (s.bump d) fuel = answerFrom s fuel := by
  induction fuel with
  | zero => rfl
  | succ fuel ih =>
    funext de path
    rw [answerFrom, answerFrom, ih]
    simp only [answerInto_bump]
    rcases bump_dentry s d de with ⟨h, h'⟩ | ⟨x, n, h, h'⟩
    · rw [h, h']
    · rw [h, h']
      rfl

/-- The way out of a call that added a child and has to take it back. -/
theorem wp_abandonChild {α : Type} {Q : α → Fs → Prop} {o : List Bool} (ht : TreeSane s)
    (hx : s.dentries de = some x) (m : M α) :
    wp E (do dentryPut s.nextDentry; dentryPut de; m) Q
        (((s.aside s.nextDentry o).bump de).graft de (newChild name de)) ↔
      wp E m Q (s.aside (s.nextDentry + 1) o) := by
  have ht' := ht.aside le_rfl o
  rw [wp_bind]
  refine (wp_dentryPut_graft (ht'.bump de) (bump_self hx)).trans ?_
  rw [wp_bind]
  exact wp_dentryPut (s := s.aside (s.nextDentry + 1) o) hx (ht.refs hx)

section Walk

variable {P : Crash → Prop} {w : Nat → Str → M (Except Int Nat)} {g : Fs → Nat → Str → Answer}
  (hw : WalkAnswers P w g)

include hw

theorem wp_lookupWith (ht : TreeSane s) (hls : LinksOk P s) (hp : PathOk P path)
    (hc : ∀ d, cwd = some d → ∃ x, s.dentries d = some x) :
    wp (NoAnswer P (answerWith s (g s) path cwd)) (lookupWith w path cwd)
      (AnswerPost s (answerWith s (g s) path cwd)) s := by
  rw [lookupWith, answerWith]
  split
  · exact AnswerPost.error s (-EINVAL)
  · rw [wp_bind]
    cases hd : startOf s path cwd with
    | none => exact wp_startNowhere hd ⟨hls.cwd.resolve_right fun hne => hne (startOf_none hd), rfl⟩
    | some d =>
      obtain ⟨x, hx⟩ := startOf_live ht hc hd
      rw [wp_startDentry hd hx]
      exact hw s d path ht hls ⟨x, hx⟩ hp

variable (hg : ∀ s d, g (s.bump d) = g s)

include hg

section Links

variable (ht : TreeSane s) (hls : LinksOk P s) (hx : s.dentries de = some x)

include ht hls hx

/-- Following a link: the nested lookup runs while the link is held, and starts from the link's directory. -/
theorem wp_followTarget {lnk : Str}
    (hl : PathOk P lnk) (hr : PathOk P rest) {k : Except Int Nat → M (Except Int Nat)}
    (hk : ∀ e, k (.error e) = pure (.error e)) (hk' : ∀ lde, k (.ok lde) = w lde rest) :
    wp (NoAnswer P ((answerWith s (g s) lnk x.parent).andThen fun lde => g s lde rest))
      (do
        let r ← lookupWith w lnk x.parent
        dentryPut de
        k r)
      (AnswerPost s ((answerWith s (g s) lnk x.parent).andThen fun lde => g s lde rest))
      (s.bump de) := by
  have hpar : ∀ d, x.parent = some d → ∃ z, (s.bump de).dentries d = some z := fun d hd => by
    obtain ⟨z, hz⟩ := ht.parent hx hd
    obtain ⟨n, _, hn⟩ := @bump_live s _ de _ hz
    exact ⟨_, hn⟩
  have hlook := wp_lookupWith hw (ht.bump de) (hls.bump de) hl hpar
  rw [hg] at hlook
  rw [wp_bind]
  refine wp_mono hlook (fun a t h => ?_) fun e h => ⟨h.1, ?_⟩
  · rw [wp_bind]
    cases a with
    | error e =>
      obtain ⟨hans, n, o, hn, rfl⟩ := h
      rw [bump_aside, wp_dentryPut (s := s.aside n o) hx (ht.refs hx), hk]
      have hans : answerWith s (g s) lnk x.parent = some (.error e) := hans
      rw [hans]
      exact ⟨rfl, n, o, hn, rfl⟩
    | ok lde =>
      obtain ⟨hans, rfl, z, hz⟩ := h
      obtain ⟨z', hz', _⟩ := bump_inv hz
      obtain ⟨n, hn, hx'⟩ := @bump_live s _ lde _ hx
      rw [bump_comm, wp_dentryPut hx' ((ht.refs hx).trans hn), hk']
      have hans : answerWith s (g s) lnk x.parent = some (.ok lde) := hans
      rw [hans]
      exact hw s lde rest ht hls ⟨z', hz'⟩ hr
  · have hnone : answerWith s (g s) lnk x.parent = none := h.2
    rw [hnone]
    rfl

theorem wp_readTarget {y : Inode}
    (hy : s.inodes i = some y) (hr : PathOk P rest) (ho : y.ops = some .ramfs) :
    wp (NoAnswer P (answerTarget s (g s) x y rest))
      (do
        match ← ramfsReadlink i pathMax with
        | .error e =>
          dentryPut de
          pure (.error e)
        | .ok lnk =>
          let r ← lookupWith w lnk x.parent
          dentryPut de
          match r with
          | .error e => pure (.error e)
          | .ok lde => w lde rest)
      (AnswerPost s (answerTarget s (g s) x y rest)) (s.bump de) := by
  rw [answerTarget, if_neg (by rw [ho]; exact Option.some_ne_none _), wp_bind, ramfsReadlink, wp_bind,
    wp_getInode (s := s.bump de) hy]
  cases hri : y.priv with
  | none =>
    exact ⟨(hls.priv hy ho).resolve_right fun h => h hri, rfl⟩
  | some ri =>
    simp only [Option.bind_some]
    cases hst : ri.symlinkTarget with
    | none =>
      simp only [wp_bind, wp_pure]
      rw [wp_dentryPut hx (ht.refs hx)]
      exact AnswerPost.error s (-EINVAL)
    | some t =>
      have hbuffer : pathMax ≠ 0 := by decide
      simp only [hbuffer, if_false]
      exact wp_followTarget hw hg ht hls hx ((hls.target hy hri hst ho).mono (List.take_prefix _ _).isInfix) hr
        (fun _ => rfl) fun _ => rfl

theorem wp_followLink
    (hr : PathOk P rest) :
    wp (NoAnswer P (answerLink s (g s) de rest)) (followLink w de rest)
      (AnswerPost s (answerLink s (g s) de rest)) (s.bump de) := by
  rw [followLink, wp_bind, wp_getDentry (bump_self hx)]
  simp only [answerLink, hx, Option.bind_some, Dentry.raise]
  cases hi : x.inode with
  | none => exact hw s de rest ht hls ⟨x, hx⟩ hr
  | some i =>
    obtain ⟨y, hy⟩ := ht.node hx hi
    dsimp only
    rw [wp_bind, wp_getInode (s := s.bump de) hy, hy, Option.bind_some]
    split
    · cases ho : y.ops with
      | none =>
        simp only [answerTarget, ho, if_true, wp_bind, wp_pure]
        rw [wp_dentryPut hx (ht.refs hx)]
        exact AnswerPost.error s (-EINVAL)
      | some o =>
        cases o
        exact wp_readTarget hw hg ht hls hx hy hr ho
    · exact hw s de rest ht hls ⟨x, hx⟩ hr

theorem wp_stepInto
    (hr : PathOk P rest) :
    wp (NoAnswer P (answerInto s (g s) de component rest)) (stepInto w de component rest)
      (AnswerPost s (answerInto s (g s) de component rest)) (s.bump de) := by
  have hx' := bump_self hx
  rw [stepInto, wp_bind, wp_getDentry hx']
  simp only [answerInto, hx, Option.bind_some, Dentry.raise]
  cases hi : x.inode with
  | none =>
    simp only [wp_bind, wp_pure]
    rw [wp_dentryPut hx (ht.refs hx)]
    exact AnswerPost.error s (-ENOENT)
  | some i =>
  obtain ⟨y, hy⟩ := ht.node hx hi
  dsimp only
  simp only [Option.bind_some, hy]
  rw [wp_bind, wp_getInode (s := s.bump de) hy]
  by_cases hdir : isDir y.mode
  · rw [if_pos hdir, if_neg (by simp [hdir]), wp_bind, wp_dentryLookupChild (ht.bump de) hx']
    rw [show x.raise.children = x.children from rfl, childNamed_bump]
    cases hc : childNamed s component x.children with
    | some c =>
      obtain ⟨z, hz⟩ := ht.child hx (childNamed_mem hc)
      obtain ⟨n, hn, hz'⟩ := @bump_live s _ de _ hz
      obtain ⟨m, hm, hx''⟩ := @bump_live s _ c _ hx
      simp only [wp_bind]
      rw [wp_dentryGet hz', bump_comm, wp_dentryPut hx'' ((ht.refs hx).trans hm)]
      exact wp_followLink hw hg ht hls hz hr
    | none =>
      simp only [wp_bind]
      rw [wp_dentryAlloc (ht.bump de) hx', notThere, show (s.bump de).oracle = s.oracle from rfl]
      have ht' := ht.aside le_rfl s.oracle.tail
      split
      · -- no operation of ramfs finds a name that is not among the children
        have hfail : wp (NoAnswer P (some (.error (-ENOENT))))
            (do dentryPut s.nextDentry; dentryPut de; pure (.error (-ENOENT))) (AnswerPost s (some (.error (-ENOENT))))
            (((s.aside s.nextDentry s.oracle.tail).bump de).graft de (newChild component de)) :=
          (wp_abandonChild ht hx _).mpr ⟨rfl, _, _, Nat.le_succ _, rfl⟩
        cases hops : y.ops with
        | none => exact hfail
        | some o =>
          cases o
          rw [wp_bind, ramfsLookup, wp_bind]
          refine (wp_getDentry (graft_self (ht'.bump de) hx' _)).mpr ?_
          exact hfail
      · rw [wp_bind]
        refine (wp_dentryPut (s := s.aside s.nextDentry s.oracle.tail) hx (ht.refs hx)).mpr ?_
        exact ⟨rfl, _, _, le_rfl, rfl⟩
  · simp only [hdir, Bool.not_false, if_true, wp_bind, wp_pure]
    rw [wp_dentryPut hx (ht.refs hx)]
    exact AnswerPost.error s (-ENOTDIR)

end Links

end Walk

theorem nextComponent_short (hp : ShortPath path) (h : nextComponent path = some (component, rest)) :
    component.length < nameMax ∧ ShortPath rest := by
  simp only [nextComponent] at h
  split at h
  · cases h
  · simp only [Option.some.injEq, Prod.mk.injEq] at h
    obtain ⟨rfl, rfl⟩ := h
    have hsuf := List.dropWhile_suffix (l := path) (· == slash)
    refine ⟨hp _ ((List.takeWhile_prefix _).isInfix.trans hsuf.isInfix) fun hmem => ?_, ?_⟩
    · simpa using List.mem_takeWhile_imp hmem
    · exact hp.mono ((List.dropWhile_suffix _).isInfix.trans hsuf.isInfix)

theorem nextComponent_rest (h : nextComponent path = some (component, rest)) : rest <:+ path := by
  simp only [nextComponent] at h
  split at h
  · cases h
  · simp only [Option.some.injEq, Prod.mk.injEq] at h
    obtain ⟨rfl, rfl⟩ := h
    exact (List.dropWhile_suffix _).trans (List.dropWhile_suffix _)

/-- **The loop of `vfs_lookup` gives the answers `answerFrom`.** -/
theorem walkAnswers (hfuel : P .fuel) (fuel : Nat) : WalkAnswers P (walk fuel) fun s => answerFrom s fuel := by
  induction fuel with
  | zero => exact fun s de path _ _ _ _ => ⟨hfuel, rfl⟩
  | succ fuel ih =>
    intro s de path ht hls hde hp
    obtain ⟨x, hx⟩ := hde
    show wp (NoAnswer P (answerFrom s (fuel + 1) de path)) (walk (fuel + 1) de path)
      (AnswerPost s (answerFrom s (fuel + 1) de path)) (s.bump de)
    rw [walk, answerFrom]
    cases hn : nextComponent path with
    | none => exact ⟨rfl, rfl, x, hx⟩
    | some cr =>
      obtain ⟨component, rest⟩ := cr
      have hr := hp.mono (nextComponent_rest hn).isInfix
      dsimp only
      split
      · refine ⟨hp.resolve_right fun hshort => ?_, rfl⟩
        have := (nextComponent_short hshort hn).1
        omega
      split
      · exact ih s de rest ht hls ⟨x, hx⟩ hr
      · split
        · rw [wp_bind, wp_getDentry (bump_self hx), hx]
          simp only [Option.bind_some, Dentry.raise, above]
          cases hpar : x.parent with
          | none => exact ih s de rest ht hls ⟨x, hx⟩ hr
          | some p =>
            obtain ⟨z, hz⟩ := ht.parent hx hpar
            obtain ⟨_, _, hz'⟩ := @bump_live s _ de _ hz
            obtain ⟨n, hn, hx'⟩ := @bump_live s _ p _ hx
            simp only [wp_bind]
            rw [wp_dentryGet hz', bump_comm, wp_dentryPut hx' ((ht.refs hx).trans hn)]
            exact ih s p rest ht hls ⟨z, hz⟩ hr
        · rw [wp_bind, wp_getDentry (bump_self hx)]
          simp only [Dentry.raise, ht.unmounted hx]
          exact wp_stepInto ih (fun s d => answerFrom_bump s d fuel) ht hls hx hr

/-- **`vfs_lookup` gives the answer**; it leaves one reference on the result, and no trace when it fails. -/
theorem wp_lookup_answer (ht : TreeSane s) (hfuel : P .fuel) (hls : LinksOk P s) (fuel : Nat) (hp : PathOk P path)
    (hc : ∀ d, cwd = some d → ∃ x, s.dentries d = some x) :
    wp (NoAnswer P (answer s fuel path cwd)) (vfsLookup fuel path cwd) (AnswerPost s (answer s fuel path cwd)) s :=
  wp_lookupWith (walkAnswers hfuel fuel) ht hls hp hc

/-- Any path, in any tree without mounts: a lookup that does not return has no answer. -/
theorem wp_lookup_loose (ht : TreeSane s) (hc : ∀ d, cwd = some d → ∃ x, s.dentries d = some x) (fuel : Nat)
    (path : Str) :
    wp (NoAnswer (fun _ => True) (answer s fuel path cwd)) (vfsLookup fuel path cwd)
      (AnswerPost s (answer s fuel path cwd)) s :=
  wp_lookup_answer ht trivial ⟨.inl trivial, fun _ _ => .inl trivial, fun _ _ _ _ => .inl trivial⟩ fuel
    (.inl trivial) hc

/-- **`vfs_lookup` computes `resolve`.** -/
theorem wp_lookup_sane (ht : TreeSane s) (hfuel : P .fuel) (hls : LinksOk P s) (fuel : Nat) (hp : PathOk P path)
    (hc : ∀ d, cwd = some d → ∃ x, s.dentries d = some x) :
    wp (Stuck P (resolve s fuel path cwd)) (vfsLookup fuel path cwd)
      (LookupPost s (resolve s fuel path cwd)) s := by
  rw [resolve_answer]
  exact wp_mono (wp_lookup_answer ht hfuel hls fuel hp hc) (fun _ _ h => h.lookup) fun _ h => h.stuck

theorem wp_lookup_cwd (ht : TreeSane s) (hfuel : P .fuel) (hls : LinksOk P s) (fuel : Nat) (hp : PathOk P path) :
    wp (Stuck P (resolve s fuel path none)) (vfsLookup fuel path none)
      (LookupPost s (resolve s fuel path none)) s :=
  wp_lookup_sane ht hfuel hls fuel hp fun _ h => nomatch h

theorem wp_vfsLookup (ht : TreeOk s) (fuel : Nat) (hp : ShortPath path)
    (hc : ∀ d, cwd = some d → ∃ x, s.dentries d = some x) :
    wp (fun e => e = .fuel ∧ resolve s fuel path cwd = none) (vfsLookup fuel path cwd)
      (LookupPost s (resolve s fuel path cwd)) s :=
  wp_lookup_sane (P := fun e => e = .fuel) ht.toTreeSane rfl ht.linksOk fuel (.inr hp) hc

theorem wp_vfsLookup_none (ht : TreeOk s) (fuel : Nat) (hp : ShortPath path) :
    wp (fun e => e = .fuel ∧ resolve s fuel path none = none) (vfsLookup fuel path none)
      (LookupPost s (resolve s fuel path none)) s :=
  wp_vfsLookup ht fuel hp fun _ h => nomatch h

/-! ## 6. The parent of a path -/

/-- The directory of a path and its last component. -/
def resolveParent (s : Fs) (fuel : Nat) (path : Str) : Option (Nat × Str) :=
  match splitLast path with
  | none => s.cwd.map fun d => (d, path)
  | some (dir, name) =>
    if dir = [] then some (s.root, name)
    else if dir.length ≥ pathMax then none
    else (resolve s fuel dir none).map fun d => (d, name)

theorem splitLast_short (hp : ShortPath path) (h : splitLast path = some (dir, name)) :
    ShortPath dir ∧ name.length < nameMax := by
  unfold splitLast at h
  split at h
  · simp only [Option.some.injEq, Prod.mk.injEq] at h
    obtain ⟨rfl, rfl⟩ := h
    constructor
    · refine hp.mono ?_
      have : ((path.reverse.dropWhile (· != slash)).tail.reverse) <+: path := by
        rw [← List.reverse_suffix, List.reverse_reverse]
        exact (List.tail_suffix _).trans (List.dropWhile_suffix _)
      exact this.isInfix
    · refine hp _ ?_ fun hmem => ?_
      · have : (path.reverse.takeWhile (· != slash)).reverse <:+ path := by
          rw [← List.reverse_prefix, List.reverse_reverse]
          exact List.takeWhile_prefix _
        exact this.isInfix
      · simpa using List.mem_takeWhile_imp (List.mem_reverse.mp hmem)
  · cases h

def ParentPost (s : Fs) (r : Option (Nat × Str)) : Except Int (Nat × Str) → Fs → Prop
  | .ok (d, name), t => r = some (d, name) ∧ t = s.bump d ∧ ∃ x, s.dentries d = some x
  | .error _, t => r = none ∧ ∃ k o, s.nextDentry ≤ k ∧ t = s.aside k o

/-- **`vfs_lookup_parent` computes `resolveParent`**; it returns wherever that has a result with a name that fits the
    caller's buffer. -/
theorem wp_parent_sane (ht : TreeSane s) (hfuel : P .fuel) (hls : LinksOk P s) (fuel : Nat) (hp : PathOk P path) :
    wp (fun e => P e ∧ ∀ p name, resolveParent s fuel path = some (p, name) → nameMax ≤ name.length)
      (vfsLookupParent fuel path) (ParentPost s (resolveParent s fuel path)) s := by
  rw [vfsLookupParent, resolveParent]
  cases hs : splitLast path with
  | none =>
    cases hd : s.cwd with
    | none =>
      simp only [wp_bind, wp_get, hd]
      refine ⟨hls.cwd.resolve_right fun hne => hne hd, fun p name h => ?_⟩
      cases h
    | some d =>
      obtain ⟨x, hx⟩ := ht.cwd hd
      simp only [wp_bind, wp_get, hd, wp_deref]
      rw [wp_dentryGet hx]
      split
      · exact ⟨rfl, rfl, x, hx⟩
      · rename_i hlen
        refine ⟨hp.resolve_right fun hshort => absurd (hshort path (List.infix_refl _) fun hmem => ?_) hlen,
          fun p name h => ?_⟩
        · rw [splitLast, if_pos hmem] at hs
          cases hs
        · cases h
          exact Nat.not_lt.mp hlen
  | some dn =>
    obtain ⟨dir, name⟩ := dn
    dsimp only
    by_cases hlen : name.length ≥ nameMax
    · rw [if_pos hlen]
      refine ⟨hp.resolve_right fun hshort => ?_, fun p name' h => ?_⟩
      · have := (splitLast_short hshort hs).2
        omega
      · split at h
        · cases h
          exact hlen
        · split at h
          · cases h
          · obtain ⟨d, _, h⟩ := Option.map_eq_some_iff.mp h
            cases h
            exact hlen
    rw [if_neg hlen]
    by_cases hdir : dir = []
    · obtain ⟨x, hx⟩ := ht.root
      simp only [if_pos hdir, wp_bind, wp_get]
      rw [wp_dentryGet hx]
      exact ⟨rfl, rfl, x, hx⟩
    by_cases hlong : dir.length ≥ pathMax
    · simp only [if_neg hdir, if_pos hlong]
      exact ⟨rfl, s.nextDentry, s.oracle, le_rfl, rfl⟩
    · simp only [if_neg hdir, if_neg hlong, wp_bind]
      have hlook := wp_lookup_cwd ht hfuel hls fuel (hp.imp_right fun hshort => (splitLast_short hshort hs).1)
      refine wp_mono hlook (fun a t h => ?_) fun e h => ⟨h.1, fun p name' hr => ?_⟩
      · cases a with
        | error e =>
          obtain ⟨hr, k, o, hk, rfl⟩ := h
          exact ⟨by rw [hr]; rfl, k, o, hk, rfl⟩
        | ok d =>
          obtain ⟨hr, rfl, x, hx⟩ := h
          exact ⟨by rw [hr]; rfl, rfl, x, hx⟩
      · rw [h.2] at hr
        cases hr

theorem wp_vfsLookupParent (ht : TreeOk s) (fuel : Nat) (hp : ShortPath path) :
    wp (fun e => e = .fuel) (vfsLookupParent fuel path)
      (ParentPost s (resolveParent s fuel path)) s :=
  wp_mono (wp_parent_sane (P := fun e => e = .fuel) ht.toTreeSane rfl ht.linksOk fuel (.inr hp)) (fun _ _ h => h)
    fun _ h => h.1

/-- The name is the part behind the last slash. -/
theorem splitLast_name (h : splitLast path = some (dir, name)) : slash ∉ name := by
  unfold splitLast at h
  split at h
  · simp only [Option.some.injEq, Prod.mk.injEq] at h
    obtain ⟨rfl, rfl⟩ := h
    intro hmem
    simpa using List.mem_takeWhile_imp (List.mem_reverse.mp hmem)
  · cases h

/-- What `vfs_lookup_parent` returns: an error code that is not 0, or a name without a slash that fits the buffer. -/
def ParentResult : Except Int (Nat × Str) → Prop
  | .error e => e ≠ 0
  | .ok (_, name) => slash ∉ name ∧ name.length < nameMax

theorem wp_parent_result (ht : TreeSane s) (fuel : Nat) (path : Str) :
    wp (fun _ => True) (vfsLookupParent fuel path) (fun r _ => ParentResult r) s := by
  rw [vfsLookupParent]
  cases hs : splitLast path with
  | none =>
    have hno : slash ∉ path := fun hmem => by
      rw [splitLast, if_pos hmem] at hs
      cases hs
    cases hd : s.cwd with
    | none =>
      simp only [wp_bind, wp_get, hd]
      exact trivial
    | some d =>
      obtain ⟨x, hx⟩ := ht.cwd hd
      simp only [wp_bind, wp_get, hd, wp_deref]
      rw [wp_dentryGet hx]
      split
      · exact ⟨hno, ‹_›⟩
      · exact trivial
  | some dn =>
    obtain ⟨dir, name⟩ := dn
    have hname : ¬ name.length ≥ nameMax → slash ∉ name ∧ name.length < nameMax := fun hlen =>
      ⟨splitLast_name hs, Nat.not_le.mp hlen⟩
    dsimp only
    split
    · exact trivial
    split
    · obtain ⟨x, hx⟩ := ht.root
      simp only [wp_bind, wp_get]
      rw [wp_dentryGet hx]
      exact hname ‹_›
    split
    · exact show (-ENAMETOOLONG : Int) ≠ 0 by decide
    · rw [wp_bind]
      refine wp_mono (wp_lookup_loose ht (fun _ h => by cases h) fuel dir) (fun r t hr => ?_) fun _ _ => trivial
      cases r with
      | error e => exact answer_error hr.1
      | ok d => exact hname ‹_›

end OreUnix.Vfs
