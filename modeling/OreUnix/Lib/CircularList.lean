/-
  Subject: CIRCULAR DOUBLY LINKED LISTS of nodes that carry their own links.

  All nodes live in one store of `next` and `prev` pointers (`Links`); a list is a head node and the nodes found from
  it (`IsRing`). Inserting and removing are the pointer writes of the usual C macros, in their order, with whatever
  aliasing the arguments have: nothing checks that a node to insert is not linked already.

  * `IsRing.addTail`, `IsRing.del` -- what the writes do to a list, if the node is new to it or in it;
  * `IsRing.frame` -- a list whose nodes are not written stays what it is;
  * `Rings.addTail`, `Rings.del` -- the same for several lists in one store, where every node outside of them is
    linked to itself.
-/
import Mathlib.Logic.Function.Iterate
import Mathlib.Data.List.Basic

namespace CircularList

open Function (update update_of_ne update_self update_eq_self_iff)

variable {ν : Type} [DecidableEq ν]

/-! ## 1. Links and their updates -/

structure Links (ν : Type) where
  next : ν → ν
  prev : ν → ν

/-- Every node is linked to itself. -/
def Links.empty : Links ν := ⟨id, id⟩

/-- Links a node to itself. -/
def Links.init (l : Links ν) (n : ν) : Links ν := ⟨update l.next n n, update l.prev n n⟩

/-- Puts `n` between `p` and `q`: `q.prev = n; n.next = q; n.prev = p; p.next = n`. -/
def Links.between (l : Links ν) (n p q : ν) : Links ν :=
  ⟨update (update l.next n q) p n, update (update l.prev q n) n p⟩

def Links.addTail (l : Links ν) (n h : ν) : Links ν := l.between n (l.prev h) h

/-- Takes `n` out: `n.prev.next = n.next; n.next.prev = n.prev; n.next = n.prev = n`. -/
def Links.del (l : Links ν) (n : ν) : Links ν :=
  Links.init ⟨update l.next (l.prev n) (l.next n), update l.prev (l.next n) (l.prev n)⟩ n

/-- Two stores with the same links at the nodes of `ns`. -/
def SameOn (l l' : Links ν) (ns : List ν) : Prop :=
  ∀ n ∈ ns, l'.next n = l.next n ∧ l'.prev n = l.prev n

/-- A node linked to itself. -/
def Alone (l : Links ν) (n : ν) : Prop := l.next n = n ∧ l.prev n = n

/-! ## 2. Segments -/

section Segments

omit [DecidableEq ν]

/-- From `a` through `xs` to `b`, forwards and backwards. -/
def Seg (l : Links ν) : ν → List ν → ν → Prop
  | a, [], b => l.next a = b ∧ l.prev b = a
  | a, x :: xs, b => (l.next a = x ∧ l.prev x = a) ∧ Seg l x xs b

/-- The last node of a segment before its end. -/
def lastOf : ν → List ν → ν
  | a, [] => a
  | _, x :: xs => lastOf x xs

theorem lastOf_mem (a : ν) (xs : List ν) : lastOf a xs ∈ a :: xs := by
  induction xs generalizing a with
  | nil => exact .head _
  | cons x xs ih => exact .tail _ (ih x)

variable {l l' : Links ν} {a b b' : ν} {xs ys : List ν}

theorem seg_append {y : ν} : Seg l a (xs ++ y :: ys) b ↔ Seg l a xs y ∧ Seg l y ys b := by
  induction xs generalizing a with
  | nil => exact Iff.rfl
  | cons x xs ih =>
    rw [List.cons_append, Seg, Seg, ih]
    exact and_assoc.symm

theorem Seg.last (h : Seg l a xs b) : l.next (lastOf a xs) = b ∧ l.prev b = lastOf a xs := by
  induction xs generalizing a with
  | nil => exact h
  | cons x xs ih => exact ih h.2

theorem Seg.congr (h : Seg l a xs b) (hn : ∀ n ∈ a :: xs, l'.next n = l.next n)
    (hp : ∀ n ∈ xs ++ [b], l'.prev n = l.prev n) : Seg l' a xs b := by
  induction xs generalizing a with
  | nil =>
    exact ⟨(hn a (.head _)).trans h.1, (hp b (.head _)).trans h.2⟩
  | cons x xs ih =>
    refine ⟨⟨(hn a (.head _)).trans h.1.1, (hp x (.head _)).trans h.1.2⟩, ?_⟩
    exact ih h.2 (fun n hn' => hn n (.tail _ hn'))
      fun n hn' => hp n (.tail _ hn')

/-- A segment whose last node is made to point somewhere else. -/
theorem Seg.retarget (h : Seg l a xs b) (hnd : (a :: xs).Nodup)
    (hl : l'.next (lastOf a xs) = b') (hl' : l'.prev b' = lastOf a xs)
    (hn : ∀ n ∈ a :: xs, n ≠ lastOf a xs → l'.next n = l.next n)
    (hp : ∀ n ∈ xs, l'.prev n = l.prev n) : Seg l' a xs b' := by
  induction xs generalizing a with
  | nil => exact ⟨hl, hl'⟩
  | cons x xs ih =>
    obtain ⟨ha, hnd'⟩ := List.nodup_cons.mp hnd
    have hne : a ≠ lastOf x xs := fun he => ha (he ▸ lastOf_mem x xs)
    refine ⟨⟨(hn a (.head _) hne).trans h.1.1, (hp x (.head _)).trans h.1.2⟩, ?_⟩
    exact ih h.2 hnd' hl hl' (fun n hm => hn n (.tail _ hm))
      fun n hm => hp n (.tail _ hm)

end Segments

/-! ## 3. Rings -/

/-- The list of the head `h`: its nodes are distinct, and the links lead round. -/
def IsRing (l : Links ν) (h : ν) (xs : List ν) : Prop := (h :: xs).Nodup ∧ Seg l h xs h

section Rings

variable {l l' : Links ν} {h n : ν} {xs ys : List ν}

omit [DecidableEq ν] in
theorem isRing_nil : IsRing l h [] ↔ Alone l h :=
  ⟨fun hr => hr.2, fun ha => ⟨List.nodup_cons.mpr ⟨List.not_mem_nil, List.nodup_nil⟩, ha⟩⟩

omit [DecidableEq ν] in
theorem IsRing.frame (hr : IsRing l h xs) (hs : SameOn l l' (h :: xs)) : IsRing l' h xs := by
  refine ⟨hr.1, hr.2.congr (fun n hn => (hs n hn).1) fun n hn => (hs n ?_).2⟩
  rcases List.mem_append.mp hn with hn | hn
  · exact .tail _ hn
  · rw [List.mem_singleton.mp hn]
    exact .head _

omit [DecidableEq ν] in
theorem Seg.next_eq {a b : ν} (hs : Seg l a xs b) : l.next a = xs.headD b := by
  cases xs with
  | nil => exact hs.1
  | cons x xs => exact hs.1.1

omit [DecidableEq ν] in
theorem IsRing.next_head (hr : IsRing l h xs) : l.next h = xs.headD h := hr.2.next_eq

/-- A new node at the end. -/
theorem IsRing.addTail (hr : IsRing l h xs) (hn : n ∉ h :: xs) : IsRing (l.addTail n h) h (xs ++ [n]) := by
  obtain ⟨hnd, hseg⟩ := hr
  obtain ⟨hlast, hprev⟩ := hseg.last
  have hnp : n ≠ l.prev h := fun he => hn (he ▸ hprev ▸ lastOf_mem h xs)
  have hnh : n ≠ h := fun he => hn (he ▸ .head _)
  have hout : ∀ m ∈ h :: xs, m ≠ n := fun m hm he => hn (he ▸ hm)
  refine ⟨?_, seg_append.mpr ⟨hseg.retarget hnd ?_ ?_ (fun m hm hne => ?_) fun m hm => ?_, ?_, ?_⟩⟩
  · rw [← List.cons_append]
    exact List.nodup_append.mpr ⟨hnd, List.nodup_cons.mpr ⟨List.not_mem_nil, List.nodup_nil⟩,
      fun m hm k hk => List.mem_singleton.mp hk ▸ hout m hm⟩
  · rw [← hprev]
    exact update_self ..
  · rw [← hprev]
    exact update_self ..
  · exact (update_of_ne (hprev ▸ hne) ..).trans (update_of_ne (hout m hm) ..)
  · have hmh : m ≠ h := fun he => (List.nodup_cons.mp hnd).1 (he ▸ hm)
    exact (update_of_ne (hout m (.tail _ hm)) ..).trans
      (update_of_ne hmh ..)
  · exact (update_of_ne hnp ..).trans (update_self ..)
  · exact (update_of_ne hnh.symm ..).trans (update_self ..)

theorem addTail_sameOn (hr : IsRing l h xs) {ms : List ν} (hms : ∀ m ∈ ms, m ∉ h :: xs ∧ m ≠ n) :
    SameOn l (l.addTail n h) ms := by
  intro m hm
  obtain ⟨hout, hne⟩ := hms m hm
  have hmp : m ≠ l.prev h := fun he => hout (he ▸ hr.2.last.2 ▸ lastOf_mem h xs)
  have hmh : m ≠ h := fun he => hout (he ▸ .head _)
  exact ⟨(update_of_ne hmp ..).trans (update_of_ne hne ..), (update_of_ne hne ..).trans (update_of_ne hmh ..)⟩

omit [DecidableEq ν] in
theorem nodup_around (hnd : (h :: (xs ++ n :: ys)).Nodup) :
    (h :: xs).Nodup ∧ (n :: ys).Nodup ∧ (∀ m ∈ h :: xs, m ∉ n :: ys) ∧ h ∉ xs := by
  rw [← List.cons_append, List.nodup_append] at hnd
  exact ⟨hnd.1, hnd.2.1, fun m hm hm' => hnd.2.2 m hm m hm' rfl, (List.nodup_cons.mp hnd.1).1⟩

omit [DecidableEq ν] in
theorem Seg.next_mem {a b : ν} (hs : Seg l a ys b) : l.next a = b ∧ ys = [] ∨ l.next a ∈ ys := by
  cases ys with
  | nil => exact .inl ⟨hs.1, rfl⟩
  | cons y ys => exact .inr (hs.1.1 ▸ .head _)

omit [DecidableEq ν] in
/-- A node of a list is not linked to itself. -/
theorem IsRing.not_alone (hr : IsRing l h xs) (hn : n ∈ xs) : ¬ Alone l n := by
  intro ha
  obtain ⟨as, bs, rfl⟩ := List.append_of_mem hn
  obtain ⟨_, hnb, hdisj, _⟩ := nodup_around hr.1
  rcases (seg_append.mp hr.2).2.next_mem with ⟨he, _⟩ | hm
  · exact hdisj h (.head _) (he.symm.trans ha.1 ▸ .head _)
  · exact (List.nodup_cons.mp hnb).1 (ha.1 ▸ hm)

/-- A node out of the middle. -/
theorem IsRing.del (hr : IsRing l h (xs ++ n :: ys)) : IsRing (l.del n) h (xs ++ ys) := by
  obtain ⟨hnd, hseg⟩ := hr
  obtain ⟨hxs, hys⟩ := seg_append.mp hseg
  obtain ⟨hnx, hny, hdisj, hh⟩ := nodup_around hnd
  obtain ⟨_, hprev⟩ := hxs.last
  have hxn : ∀ m ∈ h :: xs, m ≠ n := fun m hm he => hdisj m hm (he ▸ .head _)
  have hpn : l.prev n ≠ n := hprev ▸ hxn _ (lastOf_mem h xs)
  have hqn : l.next n ≠ n := by
    rcases hys.next_mem with ⟨he, _⟩ | hm
    · exact he ▸ hxn h (.head _)
    · exact fun he => (List.nodup_cons.mp hny).1 (he ▸ hm)
  have hqx : ∀ m ∈ xs, m ≠ l.next n := by
    intro m hm he
    rcases hys.next_mem with ⟨he', _⟩ | hm'
    · exact hh (he' ▸ he ▸ hm)
    · exact hdisj m (.tail _ hm) (.tail _ (he ▸ hm'))
  -- the nodes before `n` now lead to the node after it
  have hbefore : Seg (l.del n) h xs (l.next n) := by
    refine hxs.retarget hnx ?_ ?_ (fun m hm hne => ?_) fun m hm => ?_
    · rw [← hprev]
      exact (update_of_ne hpn ..).trans (update_self ..)
    · rw [← hprev]
      exact (update_of_ne hqn ..).trans (update_self ..)
    · exact (update_of_ne (hxn m hm) ..).trans (update_of_ne (hprev ▸ hne) ..)
    · exact (update_of_ne (hxn m (.tail _ hm)) ..).trans
        (update_of_ne (hqx m hm) ..)
  refine ⟨hnd.sublist ?_, ?_⟩
  · exact List.Sublist.cons_cons _ (List.Sublist.append_left (List.sublist_cons_self n ys) xs)
  · cases ys with
    | nil =>
      rw [hys.1] at hbefore
      rw [List.append_nil]
      exact hbefore
    | cons y ys =>
      rw [hys.1.1] at hbefore hqx
      have hyn : ∀ m ∈ y :: ys, m ≠ n := fun m hm he => (List.nodup_cons.mp hny).1 (he ▸ hm)
      refine seg_append.mpr ⟨hbefore, hys.2.congr (fun m hm => ?_) fun m hm => ?_⟩
      · have hmp : m ≠ l.prev n := fun he => hdisj m (he ▸ hprev ▸ lastOf_mem h xs) (.tail _ hm)
        exact (update_of_ne (hyn m hm) ..).trans (update_of_ne hmp ..)
      · have hmn : m ≠ n ∧ m ≠ l.next n := by
          rw [hys.1.1]
          rcases List.mem_append.mp hm with hm | hm
          · refine ⟨hyn m (.tail _ hm), ?_⟩
            exact fun he => (List.nodup_cons.mp (List.nodup_cons.mp hny).2).1 (he ▸ hm)
          · rw [List.mem_singleton.mp hm]
            refine ⟨hxn h (.head _), fun he => hdisj h (.head _) ?_⟩
            exact he ▸ .tail _ (.head _)
        exact (update_of_ne hmn.1 ..).trans (update_of_ne hmn.2 ..)

theorem alone_del (l : Links ν) (n : ν) : Alone (l.del n) n := ⟨update_self .., update_self ..⟩

theorem del_alone (ha : Alone l n) : l.del n = l := by
  obtain ⟨hn, hp⟩ := ha
  simp only [Links.del, Links.init, hn, hp, Function.update_idem]
  rw [update_eq_self_iff.mpr hn.symm, update_eq_self_iff.mpr hp.symm]

theorem del_sameOn (hr : IsRing l h (xs ++ n :: ys)) {ms : List ν}
    (hms : ∀ m ∈ ms, m ∉ h :: (xs ++ n :: ys)) : SameOn l (l.del n) ms := by
  obtain ⟨hxs, hys⟩ := seg_append.mp hr.2
  intro m hm
  have hout := hms m hm
  have hmn : m ≠ n := fun he => hout (by simp [he])
  have hmp : m ≠ l.prev n := fun he => by
    have hlast := lastOf_mem h xs
    rw [← hxs.last.2, ← he] at hlast
    exact hout (by rw [← List.cons_append]; exact List.mem_append_left _ hlast)
  have hmq : m ≠ l.next n := fun he => by
    rcases hys.next_mem with ⟨he', _⟩ | hmem
    · exact hout (by simp [he, he'])
    · exact hout (by simp [he, hmem])
  exact ⟨(update_of_ne hmn ..).trans (update_of_ne hmp ..), (update_of_ne hmn ..).trans (update_of_ne hmq ..)⟩

omit [DecidableEq ν] in
/-- Following a link and coming back. -/
theorem IsRing.prev_next (hr : IsRing l h xs) (hn : n ∈ h :: xs) : l.prev (l.next n) = n := by
  obtain ⟨_, hseg⟩ := hr
  rcases List.mem_cons.mp hn with rfl | hn
  · cases xs with
    | nil => rw [hseg.1, hseg.2]
    | cons x xs => rw [hseg.1.1, hseg.1.2]
  · obtain ⟨as, bs, rfl⟩ := List.append_of_mem hn
    have hafter := (seg_append.mp hseg).2
    cases bs with
    | nil => rw [hafter.1, hafter.2]
    | cons b bs => rw [hafter.1.1, hafter.1.2]

omit [DecidableEq ν] in
theorem IsRing.next_prev (hr : IsRing l h xs) (hn : n ∈ h :: xs) : l.next (l.prev n) = n := by
  obtain ⟨_, hseg⟩ := hr
  rcases List.mem_cons.mp hn with rfl | hn
  · obtain ⟨hnext, hprev⟩ := hseg.last
    rw [hprev, hnext]
  · obtain ⟨as, bs, rfl⟩ := List.append_of_mem hn
    obtain ⟨hnext, hprev⟩ := (seg_append.mp hseg).1.last
    rw [hprev, hnext]

omit [DecidableEq ν] in
theorem Seg.iterate {a b : ν} (hs : Seg l a xs b) : l.next^[xs.length + 1] a = b := by
  induction xs generalizing a with
  | nil => exact hs.1
  | cons x xs ih =>
    rw [List.length_cons, Function.iterate_succ_apply, hs.1.1]
    exact ih hs.2

end Rings

/-! ## 4. Several lists in one store -/

/-- The list of each head; no node is in two of them, and a node in none is linked to itself. -/
structure Rings {κ : Type} (l : Links ν) (head : κ → ν) (xs : κ → List ν) : Prop where
  ring : ∀ q, IsRing l (head q) (xs q)
  disjoint : ∀ {q q' n}, n ∈ head q :: xs q → n ∈ head q' :: xs q' → q = q'
  off : ∀ {n}, (∀ q, n ∉ head q :: xs q) → Alone l n

section ManyRings

variable {κ : Type} {l : Links ν} {head : κ → ν} {xs : κ → List ν} {n : ν}

omit [DecidableEq ν] in
theorem SameOn.alone {l' : Links ν} {m : ν} (hs : SameOn l l' [m]) (ha : Alone l m) : Alone l' m := by
  obtain ⟨hn, hp⟩ := hs m (.head _)
  exact ⟨hn.trans ha.1, hp.trans ha.2⟩

omit [DecidableEq ν] in
theorem rings_empty (hinj : Function.Injective head) : Rings Links.empty head fun _ => [] := by
  refine ⟨fun q => isRing_nil.mpr ⟨rfl, rfl⟩, fun hn hn' => hinj ?_, fun _ => ⟨rfl, rfl⟩⟩
  rw [← List.mem_singleton.mp hn, ← List.mem_singleton.mp hn']

theorem Rings.addTail [DecidableEq κ] (hr : Rings l head xs) (hn : ∀ q, n ∉ head q :: xs q) (q : κ) :
    Rings (l.addTail n (head q)) head (update xs q (xs q ++ [n])) := by
  have hmem : ∀ k m, m ∈ head k :: update xs q (xs q ++ [n]) k ↔ m ∈ head k :: xs k ∨ (k = q ∧ m = n) := by
    intro k m
    by_cases hk : k = q
    · subst hk
      rw [update_self, ← List.cons_append, List.mem_append, List.mem_singleton]
      simp only [true_and]
    · rw [update_of_ne hk]
      simp only [hk, false_and, or_false]
  refine ⟨fun k => ?_, fun {k k' m} hm hm' => ?_, fun {m} hm => ?_⟩
  · by_cases hk : k = q
    · subst hk
      rw [update_self]
      exact (hr.ring k).addTail (hn k)
    · rw [update_of_ne hk]
      exact (hr.ring k).frame (addTail_sameOn (hr.ring q) fun m hm =>
        ⟨fun hm' => hk (hr.disjoint hm hm'), fun he => hn k (he ▸ hm)⟩)
  · rcases (hmem k m).mp hm with hm | ⟨hk, rfl⟩ <;> rcases (hmem k' m).mp hm' with hm' | ⟨hk', he⟩
    · exact hr.disjoint hm hm'
    · exact absurd (he ▸ hm) (hn k)
    · exact absurd hm' (hn k')
    · rw [hk, hk']
  · have hout : ∀ k, m ∉ head k :: xs k := fun k hm' => hm k ((hmem k m).mpr (.inl hm'))
    have hne : m ≠ n := fun he => hm q ((hmem q m).mpr (.inr ⟨rfl, he⟩))
    refine SameOn.alone (addTail_sameOn (hr.ring q) fun m' hm' => ?_) (hr.off hout)
    rw [List.mem_singleton.mp hm']
    exact ⟨hout q, hne⟩

theorem filter_ne_self {ys : List ν} (hn : n ∉ ys) : ys.filter (· ≠ n) = ys :=
  List.filter_eq_self.mpr fun _ hm => decide_eq_true fun he => hn (he ▸ hm)

theorem filter_ne_middle {as bs : List ν} (h : (as ++ n :: bs).Nodup) :
    (as ++ n :: bs).filter (· ≠ n) = as ++ bs := by
  obtain ⟨_, hbs, hdisj⟩ := List.nodup_append.mp h
  have has : n ∉ as := fun hm => hdisj n hm n (.head _) rfl
  rw [List.filter_append, filter_ne_self has, List.filter_cons_of_neg (by simp),
    filter_ne_self (List.nodup_cons.mp hbs).1]

/-- A node taken out of the list it is in, if any. -/
theorem Rings.del (hr : Rings l head xs) (hn : ∀ q, n ≠ head q) :
    Rings (l.del n) head fun q => (xs q).filter (· ≠ n) := by
  have hsub : ∀ {k m}, m ∈ head k :: (xs k).filter (· ≠ n) → m ∈ head k :: xs k := by
    intro k m hm
    rcases List.mem_cons.mp hm with rfl | hm
    · exact .head _
    · exact .tail _ (List.mem_of_mem_filter hm)
  by_cases hin : ∃ q, n ∈ xs q
  · obtain ⟨q, hq⟩ := hin
    obtain ⟨as, bs, hsplit⟩ := List.append_of_mem hq
    have hring := hr.ring q
    rw [hsplit] at hring
    refine ⟨fun k => ?_, fun hm hm' => hr.disjoint (hsub hm) (hsub hm'), fun {m} hm => ?_⟩
    · by_cases hk : k = q
      · subst hk
        rw [hsplit, filter_ne_middle (List.nodup_cons.mp hring.1).2]
        exact hring.del
      · have hout : n ∉ xs k := fun hm => hk (hr.disjoint (.tail _ hm) (.tail _ hq))
        rw [filter_ne_self hout]
        refine (hr.ring k).frame (del_sameOn hring fun m hm hm' => hk (hr.disjoint hm ?_))
        rwa [hsplit]
    · by_cases hmn : m = n
      · subst hmn
        exact alone_del l m
      · have hout : ∀ k, m ∉ head k :: xs k := by
          intro k hm'
          refine hm k (List.mem_cons.mpr ?_)
          rcases List.mem_cons.mp hm' with he | hm'
          · exact .inl he
          · exact .inr (List.mem_filter.mpr ⟨hm', decide_eq_true hmn⟩)
        refine SameOn.alone (del_sameOn hring fun m' hm' => ?_) (hr.off hout)
        rw [List.mem_singleton.mp hm', ← hsplit]
        exact hout q
  · have hout : ∀ q, n ∉ xs q := fun q hq => hin ⟨q, hq⟩
    have hself : (fun q => (xs q).filter (· ≠ n)) = xs := funext fun q => filter_ne_self (hout q)
    rw [hself, del_alone (hr.off fun q hm => (List.mem_cons.mp hm).elim (hn q) (hout q))]
    exact hr

/-- A node in no list is linked to itself again. -/
theorem Rings.init (hr : Rings l head xs) (hn : ∀ q, n ∉ head q :: xs q) : Rings (l.init n) head xs := by
  obtain ⟨hnext, hprev⟩ := hr.off hn
  rw [Links.init, update_eq_self_iff.mpr hnext.symm, update_eq_self_iff.mpr hprev.symm]
  exact hr

end ManyRings

end CircularList
