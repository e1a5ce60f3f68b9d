/-
  Subject: WHAT A PATH NAMES: path resolution as a function of the tree alone.

  * `resolve` -- the dentry a path names, with no reference counts and no allocation;
  * `Extends` -- a tree with more names; what resolved still resolves to the same dentry (`resolve_mono`).

  That `vfs_lookup` computes `resolve` is the subject of LookupSpec.lean.
-/
import OreUnix.Fs.Vfs

namespace OreUnix.Vfs

variable {cwd : Option Nat} {d de : Nat} {path rest : Str} {s s' : Fs}

/-! ## 1. Resolution -/

/-- The first of the dentries `cs` with the given name. -/
def childNamed (s : Fs) (name : Str) : List Nat → Option Nat
  | [] => none
  | c :: cs => do
    let x ← s.dentries c
    if x.name = name then some c else childNamed s name cs

/-- Where the resolution of a path starts. -/
def startOf (s : Fs) (path : Str) (cwd : Option Nat) : Option Nat :=
  if path.head? = some slash then some s.root else cwd.or s.cwd

def resolveWith (s : Fs) (go : Nat → Str → Option Nat) (path : Str) (cwd : Option Nat) :
    Option Nat := do
  if path = [] then none
  else
    let d ← startOf s path cwd
    go d path

/-- What a symlink leads to, for the rest of a path. -/
def resolveTarget (s : Fs) (go : Nat → Str → Option Nat) (x : Dentry) (y : Inode) (rest : Str) : Option Nat := do
  let _ ← y.ops
  let ri ← y.priv
  let t ← ri.symlinkTarget
  let lde ← resolveWith s go (t.take (pathMax - 1)) x.parent
  go lde rest

def resolveLink (s : Fs) (go : Nat → Str → Option Nat) (de : Nat) (rest : Str) : Option Nat := do
  let x ← s.dentries de
  match x.inode with
  | none => go de rest
  | some i =>
    let y ← s.inodes i
    if isLnk y.mode ∧ rest ≠ [] then resolveTarget s go x y rest else go de rest

def resolveInto (s : Fs) (go : Nat → Str → Option Nat) (de : Nat) (component rest : Str) :
    Option Nat := do
  let x ← s.dentries de
  let i ← x.inode
  let y ← s.inodes i
  if isDir y.mode then
    let c ← childNamed s component x.children
    resolveLink s go c rest
  else none

/-- The dentry that `path` names from `de`. -/
def resolveFrom (s : Fs) : Nat → Nat → Str → Option Nat
  | 0, _, _ => none
  | fuel + 1, de, path =>
    match nextComponent path with
    | none => some de
    | some (component, rest) =>
      if component.length > nameMax then none
      else if component = dot then resolveFrom s fuel de rest
      else if component = dotdot then do
        let x ← s.dentries de
        match x.parent with
        | some p => resolveFrom s fuel p rest
        | none => resolveFrom s fuel de rest
      else resolveInto s (resolveFrom s fuel) de component rest

/-- The dentry that `path` names. -/
def resolve (s : Fs) (fuel : Nat) (path : Str) (cwd : Option Nat) : Option Nat :=
  resolveWith s (resolveFrom s fuel) path cwd

/-! ## 2. Trees with more names -/

/-- Every dentry and inode of `s` is in `s'` with the same name, place and kind; directories may have got new children
    behind the old ones. -/
structure Extends (s s' : Fs) : Prop where
  root : s'.root = s.root
  cwd : s'.cwd = s.cwd
  dentry : ∀ {d x}, s.dentries d = some x → ∃ x', s'.dentries d = some x' ∧ x'.name = x.name ∧
    x'.inode = x.inode ∧ x'.parent = x.parent ∧ x.children <+: x'.children
  inode : ∀ {i y}, s.inodes i = some y → ∃ y', s'.inodes i = some y' ∧ y'.mode = y.mode ∧
    y'.ops = y.ops ∧ (y'.priv.bind fun ri => ri.symlinkTarget) = y.priv.bind fun ri => ri.symlinkTarget

theorem Extends.refl (s : Fs) : Extends s s :=
  ⟨rfl, rfl, fun h => ⟨_, h, rfl, rfl, rfl, List.prefix_refl _⟩, fun h => ⟨_, h, rfl, rfl, rfl⟩⟩

theorem Extends.trans {t u : Fs} (h : Extends s t) (h' : Extends t u) : Extends s u := by
  refine ⟨h'.root.trans h.root, h'.cwd.trans h.cwd, fun hd => ?_, fun hi => ?_⟩
  · obtain ⟨x, hx, e1, e2, e3, e4⟩ := h.dentry hd
    obtain ⟨y, hy, f1, f2, f3, f4⟩ := h'.dentry hx
    exact ⟨y, hy, f1.trans e1, f2.trans e2, f3.trans e3, e4.trans f4⟩
  · obtain ⟨x, hx, e1, e2, e3⟩ := h.inode hi
    obtain ⟨y, hy, f1, f2, f3⟩ := h'.inode hx
    exact ⟨y, hy, f1.trans e1, f2.trans e2, f3.trans e3⟩

section Mono

variable {s s' : Fs} (hx : Extends s s')

include hx

theorem childNamed_mono {name : Str} {cs cs' : List Nat} {c : Nat} (hp : cs <+: cs')
    (h : childNamed s name cs = some c) : childNamed s' name cs' = some c := by
  induction cs generalizing cs' with
  | nil => cases h
  | cons a as ih =>
    obtain ⟨t, rfl⟩ := hp
    rw [childNamed] at h
    obtain ⟨x, hx', h⟩ := Option.bind_eq_some_iff.mp h
    obtain ⟨x', hx'', hn, _⟩ := hx.dentry hx'
    rw [List.cons_append, childNamed, hx'']
    simp only [Option.bind_eq_bind, Option.bind_some]
    rw [hn]
    split at h
    · rw [if_pos ‹_›]; exact h
    · rw [if_neg ‹_›]; exact ih (List.prefix_append _ _) h

theorem startOf_mono (path : Str) (cwd : Option Nat) : startOf s' path cwd = startOf s path cwd := by
  rw [startOf, startOf, hx.root, hx.cwd]

variable {go go' : Nat → Str → Option Nat} (hgo : ∀ de path d, go de path = some d → go' de path = some d)

include hgo

theorem resolveWith_mono (h : resolveWith s go path cwd = some d) : resolveWith s' go' path cwd = some d := by
  unfold resolveWith at h ⊢
  split at h
  · cases h
  · rw [if_neg ‹_›]
    rw [startOf_mono hx]
    obtain ⟨d', hd', h⟩ := Option.bind_eq_some_iff.mp h
    exact Option.bind_eq_some_iff.mpr ⟨d', hd', hgo _ _ _ h⟩

theorem resolveTarget_mono {x x' : Dentry} {y y' : Inode} (ep : x'.parent = x.parent) (eo : y'.ops = y.ops)
    (et : (y'.priv.bind fun ri => ri.symlinkTarget) = y.priv.bind fun ri => ri.symlinkTarget)
    (h : resolveTarget s go x y rest = some d) : resolveTarget s' go' x' y' rest = some d := by
  unfold resolveTarget at h ⊢
  obtain ⟨o, ho, h⟩ := Option.bind_eq_some_iff.mp h
  obtain ⟨ri, hri, h⟩ := Option.bind_eq_some_iff.mp h
  obtain ⟨t, ht, h⟩ := Option.bind_eq_some_iff.mp h
  obtain ⟨lde, hl, h⟩ := Option.bind_eq_some_iff.mp h
  rw [hri, Option.bind_some, ht] at et
  obtain ⟨ri', hri', ht'⟩ := Option.bind_eq_some_iff.mp et
  refine Option.bind_eq_some_iff.mpr ⟨o, eo.trans ho, Option.bind_eq_some_iff.mpr ⟨ri', hri',
    Option.bind_eq_some_iff.mpr ⟨t, ht', Option.bind_eq_some_iff.mpr ⟨lde, ?_, hgo _ _ _ h⟩⟩⟩⟩
  rw [ep]
  exact resolveWith_mono hx hgo hl

theorem resolveLink_mono (h : resolveLink s go de rest = some d) : resolveLink s' go' de rest = some d := by
  unfold resolveLink at h ⊢
  obtain ⟨x, hx1, h⟩ := Option.bind_eq_some_iff.mp h
  obtain ⟨x', hx', _, ei, ep, _⟩ := hx.dentry hx1
  refine Option.bind_eq_some_iff.mpr ⟨x', hx', ?_⟩
  rw [ei]
  cases hi : x.inode with
  | none =>
    rw [hi] at h
    exact hgo _ _ _ h
  | some i =>
    rw [hi] at h
    obtain ⟨y, hy, h⟩ := Option.bind_eq_some_iff.mp h
    obtain ⟨y', hy', em, eo, et⟩ := hx.inode hy
    refine Option.bind_eq_some_iff.mpr ⟨y', hy', ?_⟩
    rw [em]
    split at h
    · rw [if_pos ‹_›]
      exact resolveTarget_mono hx hgo ep eo et h
    · rw [if_neg ‹_›]
      exact hgo _ _ _ h

theorem resolveInto_mono {component : Str} (h : resolveInto s go de component rest = some d) :
    resolveInto s' go' de component rest = some d := by
  unfold resolveInto at h ⊢
  obtain ⟨x, hx1, h⟩ := Option.bind_eq_some_iff.mp h
  obtain ⟨i, hx2, h⟩ := Option.bind_eq_some_iff.mp h
  obtain ⟨y, hy, h⟩ := Option.bind_eq_some_iff.mp h
  obtain ⟨x', hx', _, ei, _, ec⟩ := hx.dentry hx1
  obtain ⟨y', hy', em, _, _⟩ := hx.inode hy
  refine Option.bind_eq_some_iff.mpr ⟨x', hx', Option.bind_eq_some_iff.mpr ⟨i, ei.trans hx2,
    Option.bind_eq_some_iff.mpr ⟨y', hy', ?_⟩⟩⟩
  rw [em]
  split at h
  · rw [if_pos ‹_›]
    obtain ⟨c, hc, h⟩ := Option.bind_eq_some_iff.mp h
    exact Option.bind_eq_some_iff.mpr ⟨c, childNamed_mono hx ec hc, resolveLink_mono hx hgo h⟩
  · cases h

end Mono

theorem resolveFrom_mono (hx : Extends s s') (fuel de : Nat) (path : Str) (d : Nat)
    (h : resolveFrom s fuel de path = some d) : resolveFrom s' fuel de path = some d := by
  induction fuel generalizing de path d with
  | zero => cases h
  | succ fuel ih =>
    rw [resolveFrom] at h ⊢
    split at h
    · exact h
    · split at h
      · cases h
      · rw [if_neg ‹_›]
        split at h
        · rw [if_pos ‹_›]; exact ih _ _ _ h
        · rw [if_neg ‹_›]
          split at h
          · rw [if_pos ‹_›]
            obtain ⟨x, hx1, h⟩ := Option.bind_eq_some_iff.mp h
            obtain ⟨x', hx', _, _, ep, _⟩ := hx.dentry hx1
            refine Option.bind_eq_some_iff.mpr ⟨x', hx', ?_⟩
            rw [ep]
            split at h
            · exact ih _ _ _ h
            · exact ih _ _ _ h
          · rw [if_neg ‹_›]
            exact resolveInto_mono hx (fun _ _ _ => ih _ _ _) h

/-- **What resolved still resolves**, to the same dentry. -/
theorem resolve_mono (hx : Extends s s') {fuel : Nat} (h : resolve s fuel path cwd = some d) :
    resolve s' fuel path cwd = some d :=
  resolveWith_mono hx (fun de path d => resolveFrom_mono hx fuel de path d) h

end OreUnix.Vfs
