/-
  Subject: TREES OF NAMES: nodes with a name, a kind and a list of children, and the edits a directory tree goes
  through.

  A tree is a partial function from places to nodes; nothing in it says that it is a tree. A place without a kind is a
  name that stands for nothing. The edits are `add` (a new last child), `remove` (taken out of every list) and
  `setKind`; a renaming is a `remove` and an `add`.

  Properties a directory tree should have, each with the edits that keep it:
  * `Forest` -- every child is there, stands in one list and once, and the root in none;
  * `Counted` -- a directory carries the number of its subdirectories and what `base` says on top. An edit in two
    steps passes through a tree that is counted for another `base`.
-/
import Mathlib.Data.List.Basic
import Mathlib.Logic.Function.Basic

namespace NameTree

open Function (update update_of_ne update_self)

variable {κ ν μ : Type}

structure Node (κ ν μ : Type) where
  name : ν
  kind : Option μ
  children : List κ

/-- A tree of names. -/
abbrev Tree (κ ν μ : Type) := κ → Option (Node κ ν μ)

/-! ## 1. Edits -/

section Edits

variable [DecidableEq κ]

/-- The new node `k` becomes the last child of `p`. -/
def add (v : Tree κ ν μ) (p k : κ) (n : Node κ ν μ) : Tree κ ν μ :=
  update (update v k (some n)) p ((v p).map fun x => { x with children := x.children ++ [k] })

/-- `d` is taken out of every list of children. -/
def remove (v : Tree κ ν μ) (d : κ) : Tree κ ν μ :=
  fun e => (v e).map fun x => { x with children := x.children.filter (· ≠ d) }

def setKind (v : Tree κ ν μ) (d : κ) (m : Option μ) : Tree κ ν μ :=
  fun e => if e = d then (v e).map fun x => { x with kind := m } else v e

variable {v : Tree κ ν μ} {p k d : κ} {n : Node κ ν μ}

/-- What stands where after a new child. -/
theorem add_cases (hp : v p ≠ none) (hk : v k = none) {e : κ} {x : Node κ ν μ} (h : add v p k n e = some x) :
    e = k ∧ x = n ∨
      e ≠ k ∧ ∃ y, v e = some y ∧ (e ≠ p ∧ x = y ∨ e = p ∧ x = { y with children := y.children ++ [k] }) := by
  have hpk : p ≠ k := fun he => hp (he ▸ hk)
  unfold add at h
  by_cases hep : e = p
  · subst hep
    rw [update_self] at h
    obtain ⟨y, hy, rfl⟩ := Option.map_eq_some_iff.mp h
    exact .inr ⟨hpk, y, hy, .inr ⟨rfl, rfl⟩⟩
  · rw [update_of_ne hep] at h
    by_cases hek : e = k
    · subst hek
      rw [update_self] at h
      exact .inl ⟨rfl, (Option.some.inj h).symm⟩
    · rw [update_of_ne hek] at h
      exact .inr ⟨hek, x, h, .inl ⟨hep, rfl⟩⟩

theorem add_new (hp : v p ≠ none) (hk : v k = none) : add v p k n k = some n := by
  have hpk : k ≠ p := fun he => hp (he ▸ hk)
  rw [add, update_of_ne hpk, update_self]

/-- A node that was there has its name and kind after a new child. -/
theorem add_old {e : κ} {y : Node κ ν μ} (hk : v k = none) (hy : v e = some y) :
    ∃ cs, add v p k n e = some { y with children := cs } := by
  have hek : e ≠ k := by
    rintro rfl
    rw [hk] at hy
    cases hy
  unfold add
  by_cases hep : e = p
  · subst hep
    exact ⟨y.children ++ [k], by rw [update_self, hy, Option.map_some]⟩
  · exact ⟨y.children, by rw [update_of_ne hep, update_of_ne hek, hy]⟩

/-- A child that was there stays. -/
theorem add_mem {e c : κ} {y : Node κ ν μ} (hk : v k = none) (hy : v e = some y) (hc : c ∈ y.children) :
    ∃ y', add v p k n e = some y' ∧ c ∈ y'.children := by
  have hek : e ≠ k := by
    rintro rfl
    rw [hk] at hy
    cases hy
  unfold add
  by_cases hep : e = p
  · subst hep
    exact ⟨{ y with children := y.children ++ [k] }, by rw [update_self, hy, Option.map_some],
      List.mem_append_left _ hc⟩
  · exact ⟨y, by rw [update_of_ne hep, update_of_ne hek, hy], hc⟩

theorem remove_cases {e : κ} {x : Node κ ν μ} (h : remove v d e = some x) :
    ∃ y, v e = some y ∧ x = { y with children := y.children.filter (· ≠ d) } := by
  obtain ⟨y, hy, rfl⟩ := Option.map_eq_some_iff.mp h
  exact ⟨y, hy, rfl⟩

theorem setKind_cases {m : Option μ} {e : κ} {x : Node κ ν μ} (h : setKind v d m e = some x) :
    ∃ y, v e = some y ∧ (e = d ∧ x = { y with kind := m } ∨ e ≠ d ∧ x = y) := by
  unfold setKind at h
  split at h
  · obtain ⟨y, hy, rfl⟩ := Option.map_eq_some_iff.mp h
    exact ⟨y, hy, .inl ⟨‹_›, rfl⟩⟩
  · exact ⟨x, h, .inr ⟨‹_›, rfl⟩⟩

/-- A new child that gets its kind afterwards. -/
theorem setKind_new {o : κ} (hp : p ≠ k) (ho : k ≠ o) (nm : ν) (m m' : Option μ) :
    setKind (setKind (add v p k ⟨nm, none, []⟩) o m') k m = setKind (add v p k ⟨nm, m, []⟩) o m' := by
  funext e
  unfold setKind add
  by_cases hek : e = k
  · subst hek
    rw [if_pos rfl, if_neg ho, if_neg ho, update_of_ne hp.symm, update_of_ne hp.symm,
      update_self, update_self, Option.map_some]
  · rw [if_neg hek]
    by_cases hep : e = p
    · subst hep
      simp only [update_self]
    · simp only [update_of_ne hep, update_of_ne hek]

end Edits

/-! ## 2. Forests -/

/-- Every child is there. -/
def Closed (v : Tree κ ν μ) : Prop := ∀ p n, v p = some n → ∀ c ∈ n.children, v c ≠ none

structure Forest (r : κ) (v : Tree κ ν μ) : Prop where
  root : v r ≠ none
  top : ∀ p n, v p = some n → r ∉ n.children
  closed : Closed v
  nodup : ∀ p n, v p = some n → n.children.Nodup
  single : ∀ p q n m, v p = some n → v q = some m → ∀ c ∈ n.children, c ∈ m.children → p = q

namespace Forest

variable [DecidableEq κ] {r : κ} {v : Tree κ ν μ} {p k d : κ} {n : Node κ ν μ}

theorem add (h : Forest r v) (hp : v p ≠ none) (hk : v k = none) (hch : n.children = []) : Forest r (add v p k n) := by
  have hlive : ∀ {e}, v e ≠ none → NameTree.add v p k n e ≠ none := fun he => by
    obtain ⟨y, hy⟩ := Option.ne_none_iff_exists'.mp he
    obtain ⟨cs, hcs⟩ := add_old (p := p) (n := n) hk hy
    simp [hcs]
  -- the new node stands in no old list
  have hnew : ∀ {e y}, v e = some y → k ∉ y.children := fun hy hmem => h.closed _ _ hy k hmem hk
  have hrk : r ≠ k := fun he => h.root (he ▸ hk)
  refine ⟨hlive h.root, fun e y hy => ?_, fun e y hy c hc => ?_, fun e y hy => ?_, fun e f y y' hy hy' c hc hc' => ?_⟩
  · rcases add_cases hp hk hy with ⟨rfl, rfl⟩ | ⟨_, z, hz, ⟨_, rfl⟩ | ⟨rfl, rfl⟩⟩
    · simp [hch]
    · exact h.top e y hz
    · simpa [hrk] using h.top e z hz
  · rcases add_cases hp hk hy with ⟨rfl, rfl⟩ | ⟨_, z, hz, ⟨_, rfl⟩ | ⟨rfl, rfl⟩⟩
    · rw [hch] at hc
      cases hc
    · exact hlive (h.closed e y hz c hc)
    · rcases List.mem_append.mp hc with hold | hone
      · exact hlive (h.closed e z hz c hold)
      · rw [List.mem_singleton.mp hone, add_new hp hk]
        exact Option.some_ne_none n
  · rcases add_cases hp hk hy with ⟨rfl, rfl⟩ | ⟨_, z, hz, ⟨_, rfl⟩ | ⟨rfl, rfl⟩⟩
    · simp [hch]
    · exact h.nodup e y hz
    · refine List.nodup_append.mpr ⟨h.nodup e z hz, List.pairwise_singleton _ k, fun a ha b hb => ?_⟩
      rw [List.mem_singleton.mp hb]
      rintro rfl
      exact hnew hz ha
  · -- a child other than the new one stands where it stood; the new one stands below `p` only
    have hwhere : ∀ {e y}, NameTree.add v p k n e = some y → c ∈ y.children →
        c = k ∧ e = p ∨ c ≠ k ∧ ∃ z, v e = some z ∧ c ∈ z.children := fun hy hc => by
      rcases add_cases hp hk hy with ⟨rfl, rfl⟩ | ⟨_, z, hz, ⟨_, rfl⟩ | ⟨rfl, rfl⟩⟩
      · rw [hch] at hc
        cases hc
      · exact .inr ⟨fun he => hnew hz (he ▸ hc), _, hz, hc⟩
      · rcases List.mem_append.mp hc with hold | hone
        · exact .inr ⟨fun he => hnew hz (he ▸ hold), z, hz, hold⟩
        · exact .inl ⟨List.mem_singleton.mp hone, rfl⟩
    rcases hwhere hy hc with ⟨hck, rfl⟩ | ⟨hck, z, hz, hcz⟩
    · rcases hwhere hy' hc' with ⟨_, rfl⟩ | ⟨hne, _⟩
      · rfl
      · exact absurd hck hne
    · rcases hwhere hy' hc' with ⟨he, _⟩ | ⟨_, z', hz', hcz'⟩
      · exact absurd he hck
      · exact h.single e f z z' hz hz' c hcz hcz'

theorem setKind (h : Forest r v) (d : κ) (m : Option μ) : Forest r (setKind v d m) := by
  have hlive : ∀ {e}, v e ≠ none → NameTree.setKind v d m e ≠ none := fun he => by
    obtain ⟨y, hy⟩ := Option.ne_none_iff_exists'.mp he
    unfold NameTree.setKind
    split <;> simp [hy]
  have hold : ∀ {e y}, NameTree.setKind v d m e = some y → ∃ z, v e = some z ∧ y.children = z.children := fun hy => by
    obtain ⟨z, hz, ⟨_, rfl⟩ | ⟨_, rfl⟩⟩ := setKind_cases hy
    · exact ⟨z, hz, rfl⟩
    · exact ⟨_, hz, rfl⟩
  refine ⟨hlive h.root, fun e y hy => ?_, fun e y hy c hc => ?_, fun e y hy => ?_,
    fun e f y y' hy hy' c hc hc' => ?_⟩ <;>
    obtain ⟨z, hz, hch⟩ := hold hy
  · rw [hch]
    exact h.top e z hz
  · exact hlive (h.closed e z hz c (hch ▸ hc))
  · rw [hch]
    exact h.nodup e z hz
  · obtain ⟨z', hz', hch'⟩ := hold hy'
    exact h.single e f z z' hz hz' c (hch ▸ hc) (hch' ▸ hc')

theorem remove (h : Forest r v) (d : κ) : Forest r (remove v d) := by
  have hlive : ∀ {e}, v e ≠ none → NameTree.remove v d e ≠ none := fun he => by
    obtain ⟨y, hy⟩ := Option.ne_none_iff_exists'.mp he
    simp [NameTree.remove, hy]
  refine ⟨hlive h.root, fun e y hy hr => ?_, fun e y hy c hc => ?_, fun e y hy => ?_,
    fun e f y y' hy hy' c hc hc' => ?_⟩ <;>
    obtain ⟨z, hz, rfl⟩ := remove_cases hy
  · exact h.top e z hz (List.mem_of_mem_filter hr)
  · exact hlive (h.closed e z hz c (List.mem_of_mem_filter hc))
  · exact (h.nodup e z hz).filter _
  · obtain ⟨z', hz', rfl⟩ := remove_cases hy'
    exact h.single e f z z' hz hz' c (List.mem_of_mem_filter hc) (List.mem_of_mem_filter hc')

end Forest

/-! ## 3. Counts of subdirectories -/

section Counting

variable (dir : μ → Bool) (count : μ → Nat) (wrap : Nat → Nat)

def isDirAt (v : Tree κ ν μ) (c : κ) : Bool := (v c).any fun n => n.kind.any dir

def subdirs (v : Tree κ ν μ) (cs : List κ) : Nat := cs.countP (isDirAt dir v)

/-- **The counts are right**: a directory's is what `base` gives it and one for each subdirectory. -/
def Counted (base : κ → Nat) (v : Tree κ ν μ) : Prop :=
  ∀ d n m, v d = some n → n.kind = some m → dir m = true → count m = wrap (base d + subdirs dir v n.children)

variable [DecidableEq κ] {dir : μ → Bool} {v : Tree κ ν μ} {p k d : κ} {n x : Node κ ν μ}

theorem isDirAt_add (hp : v p ≠ none) (hk : v k = none) (c : κ) :
    isDirAt dir (add v p k n) c = if c = k then n.kind.any dir else isDirAt dir v c := by
  by_cases hck : c = k
  · subst hck
    rw [if_pos rfl, isDirAt, add_new hp hk, Option.any_some]
  · rw [if_neg hck, isDirAt, isDirAt, add]
    by_cases hcp : c = p
    · subst hcp
      rw [update_self, Option.any_map]
    · rw [update_of_ne hcp, update_of_ne hck]

theorem isDirAt_remove (c : κ) : isDirAt dir (remove v d) c = isDirAt dir v c := by
  rw [isDirAt, isDirAt, remove, Option.any_map]

theorem isDirAt_setKind_of_ne (m : Option μ) {c : κ} (hc : c ≠ d) :
    isDirAt dir (setKind v d m) c = isDirAt dir v c := by
  rw [isDirAt, isDirAt, setKind, if_neg hc]

/-- A node that stays a directory, or none. -/
theorem isDirAt_setKind (hx : v d = some x) {m : Option μ} (hm : m.any dir = x.kind.any dir) (c : κ) :
    isDirAt dir (setKind v d m) c = isDirAt dir v c := by
  by_cases hc : c = d
  · subst hc
    rw [isDirAt, isDirAt, setKind, if_pos rfl, hx, Option.map_some, Option.any_some, Option.any_some, hm]
  · exact isDirAt_setKind_of_ne m hc

theorem countP_filter_ne {α : Type} [DecidableEq α] {cs : List α} (f : α → Bool) {a : α} (hn : cs.Nodup)
    (ha : a ∈ cs) : (cs.filter (· ≠ a)).countP f + (if f a then 1 else 0) = cs.countP f := by
  have hperm := List.perm_cons_erase ha
  have herase : cs.erase a = cs.filter (· ≠ a) := by
    rw [hn.erase_eq_filter]
    exact List.filter_congr fun c _ => by simp [bne, BEq.beq]
  rw [hperm.countP_eq, List.countP_cons, herase]

namespace Counted

variable {count : μ → Nat} {wrap : Nat → Nat} {base : κ → Nat}

/-- A directory's own count changes by as much as its base. -/
theorem relink (h : Counted dir count wrap base v) (hx : v p = some x) {m m' : μ} (hm : x.kind = some m)
    (hdir : dir m' = dir m) {b : Nat} (hstep : ∀ j, count m = wrap (base p + j) → count m' = wrap (b + j)) :
    Counted dir count wrap (update base p b) (setKind v p (some m')) := by
  have hsame : ∀ cs, subdirs dir (NameTree.setKind v p (some m')) cs = subdirs dir v cs := fun cs => by
    refine List.countP_congr fun c _ => ?_
    rw [isDirAt_setKind hx (by simp [hm, hdir])]
  intro e y l hy hl hdl
  obtain ⟨z, hz, ⟨rfl, rfl⟩ | ⟨hne, rfl⟩⟩ := setKind_cases hy
  · cases hl
    cases hx.symm.trans hz
    rw [update_self, hsame]
    exact hstep _ (h e x m hx hm (hdir ▸ hdl))
  · rw [update_of_ne hne, hsame]
    exact h e y l hz hl hdl

/-- A new child; a directory among them is paid from the base of its parent. -/
theorem add {r : κ} (h : Counted dir count wrap base v) (hf : Forest r v) (hp : v p ≠ none) (hk : v k = none)
    (hch : n.children = []) (hcount : ∀ m, n.kind = some m → dir m = true → count m = wrap (base k)) {b : Nat}
    (hb : base p = b + if n.kind.any dir then 1 else 0) :
    Counted dir count wrap (update base p b) (add v p k n) := by
  have hpk : k ≠ p := fun he => hp (he ▸ hk)
  -- an old list counts as before
  have hsame : ∀ {e y}, v e = some y → subdirs dir (NameTree.add v p k n) y.children = subdirs dir v y.children := by
    intro e y hy
    refine List.countP_congr fun c hc => ?_
    have hck : c ≠ k := fun he => hf.closed e y hy c hc (he ▸ hk)
    rw [isDirAt_add hp hk, if_neg hck]
  intro e y m hy hm hdm
  rcases add_cases hp hk hy with ⟨rfl, rfl⟩ | ⟨_, z, hz, ⟨hne, rfl⟩ | ⟨rfl, rfl⟩⟩
  · rw [update_of_ne hpk, hch]
    exact hcount m hm hdm
  · rw [update_of_ne hne, hsame hz]
    exact h e y m hz hm hdm
  · have hold := h e z m hz hm hdm
    have hnew : subdirs dir (NameTree.add v e k n) [k] = if n.kind.any dir then 1 else 0 := by
      rw [subdirs, List.countP_singleton, isDirAt_add hp hk, if_pos rfl]
    have hsplit : subdirs dir (NameTree.add v e k n) (z.children ++ [k]) =
        subdirs dir v z.children + if n.kind.any dir then 1 else 0 := by
      rw [← hnew, ← hsame hz]
      exact List.countP_append
    rw [update_self, hsplit, hold, hb]
    congr 1
    omega

/-- A child goes and no longer stands for a directory; one that did is credited to its parent. -/
theorem drop {r : κ} (h : Counted dir count wrap base v) (hf : Forest r v) (hx : v p = some x) (hd : d ∈ x.children)
    {m : Option μ} (hm : m.any dir = false) {b : Nat} (hb : b = base p + if isDirAt dir v d then 1 else 0) :
    Counted dir count wrap (update base p b) (NameTree.remove (setKind v d m) d) := by
  -- what is left of a list counts as before
  have hsame : ∀ cs : List κ, subdirs dir (NameTree.remove (NameTree.setKind v d m) d) (cs.filter (· ≠ d)) =
      (cs.filter (· ≠ d)).countP (isDirAt dir v) := fun cs => by
    refine List.countP_congr fun c hc => ?_
    have hcd : c ≠ d := by simpa using List.of_mem_filter hc
    rw [isDirAt_remove, isDirAt_setKind_of_ne m hcd]
  intro e y l hy hl hdl
  obtain ⟨z, hz, rfl⟩ := remove_cases hy
  obtain ⟨w, hw, ⟨rfl, rfl⟩ | ⟨_, rfl⟩⟩ := setKind_cases hz
  · have hl : m = some l := hl
    rw [hl, Option.any_some, hdl] at hm
    cases hm
  · have hold := h e z l hw hl hdl
    rw [hsame, hold, subdirs]
    by_cases hep : e = p
    · subst hep
      cases hx.symm.trans hw
      rw [update_self, hb, ← countP_filter_ne (isDirAt dir v) (hf.nodup e x hx) hd]
      congr 1
      omega
    · have hnot : d ∉ z.children := fun hmem => hep (hf.single e p z x hw hx d hmem hd)
      rw [update_of_ne hep, List.filter_eq_self.mpr]
      intro c hc
      simpa using fun he : c = d => hnot (he ▸ hc)

end Counted

end Counting

end NameTree
