/-
  Subject: FIRST-FIT ALLOCATION OVER A TILING: split on allocation, coalesce on release.

  A region of addresses is tiled by cells; each cell is a header of `hdr` bytes followed by a payload. What an
  allocator does to it is said on the list of cells alone:

  * `fit` -- the first free cell large enough, with the cells before and after it;
  * `carve` -- the cell handed out, with the remainder split off when a cell of at least `min` payload bytes is left;
  * `release` -- a cell is freed and merged with its free neighbours on either side.

  The invariant is `NoAdjFree` (no two neighbouring cells are both free). `release` restores it from both sides at
  once, `carve` keeps it because a free cell's right neighbour is used. The covered span never changes (`span_carve`,
  `span_release`), and the used cells change by exactly the one cell concerned (`usedAt_carve`, `usedAt_release`).
-/
import Mathlib.Data.List.Chain

namespace FreeList

variable {a al need : Nat} {c : Cell} {cs : List Cell} {xs ys : List Cell}

/-- A cell of the tiling: payload size and whether it is handed out. -/
structure Cell where
  size : Nat
  used : Bool
  deriving DecidableEq, Repr

/-! ## 1. The tiling -/

section Tiling

variable (hdr : Nat)

/-- The bytes a list of cells covers, headers included. -/
def span : List Cell → Nat
  | [] => 0
  | c :: cs => hdr + c.size + span cs

@[simp] theorem span_nil : span hdr [] = 0 := rfl

@[simp] theorem span_cons (c : Cell) (cs : List Cell) : span hdr (c :: cs) = hdr + c.size + span hdr cs := rfl

@[simp] theorem span_append (xs ys : List Cell) : span hdr (xs ++ ys) = span hdr xs + span hdr ys := by
  induction xs with
  | nil => simp
  | cons c cs ih => simp only [List.cons_append, span_cons, ih]; omega

/-- The payload addresses of the used cells, in address order, when the tiling starts at `a`. -/
def usedAt : Nat → List Cell → List Nat
  | _, [] => []
  | a, c :: cs => (if c.used then [a + hdr] else []) ++ usedAt (a + hdr + c.size) cs

@[simp] theorem usedAt_nil (a : Nat) : usedAt hdr a [] = [] := rfl

@[simp] theorem usedAt_cons (a : Nat) (c : Cell) (cs : List Cell) :
    usedAt hdr a (c :: cs) = (if c.used then [a + hdr] else []) ++ usedAt hdr (a + hdr + c.size) cs :=
  rfl

theorem usedAt_append (a : Nat) (xs ys : List Cell) :
    usedAt hdr a (xs ++ ys) = usedAt hdr a xs ++ usedAt hdr (a + span hdr xs) ys := by
  induction xs generalizing a with
  | nil => simp
  | cons c cs ih =>
    simp only [List.cons_append, usedAt_cons, ih, span_cons, List.append_assoc]
    rw [show a + hdr + c.size + span hdr cs = a + (hdr + c.size + span hdr cs) by omega]

/-- A used cell's payload address lies inside the tiling. -/
theorem usedAt_bounds {p : Nat} (h : p ∈ usedAt hdr a cs) : a + hdr ≤ p ∧ p ≤ a + span hdr cs := by
  induction cs generalizing a with
  | nil => simp at h
  | cons c cs ih =>
    simp only [usedAt_cons, List.mem_append] at h
    simp only [span_cons]
    rcases h with h | h
    · split at h
      · simp only [List.mem_singleton] at h
        omega
      · simp at h
    · have := ih h
      omega

/-- The used cell behind a payload address: where it stands in the tiling. -/
theorem usedAt_split {p : Nat} (h : p ∈ usedAt hdr a cs) :
    ∃ xs c ys, cs = xs ++ c :: ys ∧ c.used = true ∧ p = a + span hdr xs + hdr := by
  induction cs generalizing a with
  | nil => simp at h
  | cons c cs ih =>
    simp only [usedAt_cons, List.mem_append] at h
    rcases h with h | h
    · by_cases hu : c.used = true
      · rw [if_pos hu, List.mem_singleton] at h
        exact ⟨[], c, cs, rfl, hu, by simpa using h⟩
      · rw [if_neg hu] at h
        simp at h
    · obtain ⟨xs, d, ys, rfl, hu, hp⟩ := ih h
      exact ⟨c :: xs, d, ys, rfl, hu, by simp only [span_cons]; omega⟩

/-- The addresses of the cells' headers. -/
def starts : Nat → List Cell → List Nat
  | _, [] => []
  | a, c :: cs => a :: starts (a + hdr + c.size) cs

theorem mem_starts {b : Nat} : b ∈ starts hdr a cs ↔ ∃ xs c ys, cs = xs ++ c :: ys ∧ b = a + span hdr xs := by
  induction cs generalizing a with
  | nil => simp [starts]
  | cons c cs ih =>
    rw [starts, List.mem_cons, ih]
    constructor
    · rintro (rfl | ⟨xs, d, ys, rfl, rfl⟩)
      · exact ⟨[], c, cs, rfl, rfl⟩
      · exact ⟨c :: xs, d, ys, rfl, by simp only [span_cons]; omega⟩
    · rintro ⟨xs, d, ys, he, hb⟩
      cases xs with
      | nil => exact .inl (by simpa using hb)
      | cons x xs =>
        cases he
        exact .inr ⟨xs, d, ys, rfl, by rw [hb, span_cons]; omega⟩

theorem starts_ordered (hh : 0 < hdr) (a : Nat) (cs : List Cell) : (starts hdr a cs).Pairwise (· < ·) := by
  induction cs generalizing a with
  | nil => exact .nil
  | cons c cs ih =>
    refine .cons (fun b hb => ?_) (ih _)
    obtain ⟨xs, _, _, _, rfl⟩ := (mem_starts hdr).mp hb
    omega

/-- Two cells of one tiling that are not the same stand one behind the other. -/
theorem split_two {xs ys us vs : List Cell} {c d : Cell} (h : xs ++ c :: ys = us ++ d :: vs)
    (hne : c ≠ d) : (∃ ws, us = xs ++ c :: ws ∧ ys = ws ++ d :: vs) ∨
      ∃ ws, xs = us ++ d :: ws ∧ vs = ws ++ c :: ys := by
  rcases List.append_eq_append_iff.mp h with ⟨ws, hu, hc⟩ | ⟨ws, hx, hd⟩
  · cases ws with
    | nil => cases hc; exact absurd rfl hne
    | cons w ws => cases hc; exact .inl ⟨ws, hu, rfl⟩
  · cases ws with
    | nil => cases hd; exact absurd rfl hne
    | cons w ws => cases hd; exact .inr ⟨ws, hx, rfl⟩

/-- With a nonempty header no two used cells share a payload address. -/
theorem usedAt_nodup (hh : 0 < hdr) (a : Nat) (cs : List Cell) : (usedAt hdr a cs).Nodup := by
  induction cs generalizing a with
  | nil => simp
  | cons c cs ih =>
    rw [usedAt_cons, List.nodup_append]
    refine ⟨by split <;> simp, ih _, fun x hx y hy => ?_⟩
    have hy' := usedAt_bounds hdr hy
    split at hx
    · simp only [List.mem_singleton] at hx
      omega
    · simp at hx

theorem usedAt_eq_nil_iff : usedAt hdr a cs = [] ↔ ∀ c ∈ cs, c.used = false := by
  induction cs generalizing a with
  | nil => simp
  | cons c cs ih =>
    cases hu : c.used <;> simp [hu, ih]

end Tiling

/-! ## 2. First fit and splitting -/

/-- A cell that can serve a request of `need` bytes. -/
def Fits (need : Nat) (c : Cell) : Prop := c.used = false ∧ need ≤ c.size

instance (need : Nat) (c : Cell) : Decidable (Fits need c) := inferInstanceAs (Decidable (_ ∧ _))

/-- The first cell that fits, with what stands before and after it. -/
def fit (need : Nat) : List Cell → Option (List Cell × Cell × List Cell)
  | [] => none
  | c :: cs =>
    if Fits need c then some ([], c, cs)
    else match fit need cs with
      | none => none
      | some (xs, d, ys) => some (c :: xs, d, ys)

theorem fit_some {cs xs ys : List Cell} (h : fit need cs = some (xs, c, ys)) :
    cs = xs ++ c :: ys ∧ Fits need c ∧ ∀ d ∈ xs, ¬ Fits need d := by
  induction cs generalizing xs with
  | nil => simp [fit] at h
  | cons d ds ih =>
    simp only [fit] at h
    split at h
    · rename_i hd
      cases h
      exact ⟨rfl, hd, by simp⟩
    · rename_i hd
      split at h
      · cases h
      · rename_i xs' c' ys' hf
        cases h
        obtain ⟨rfl, hc, hx⟩ := ih hf
        refine ⟨rfl, hc, fun e he => ?_⟩
        rcases List.mem_cons.mp he with rfl | he
        · exact hd
        · exact hx e he

theorem fit_none (h : fit need cs = none) : ∀ d ∈ cs, ¬ Fits need d := by
  induction cs with
  | nil => simp
  | cons c cs ih =>
    simp only [fit] at h
    split at h
    · cases h
    · rename_i hc
      split at h
      · rename_i hf
        intro d hd
        rcases List.mem_cons.mp hd with rfl | hd
        · exact hc
        · exact ih hf d hd
      · cases h

theorem fit_append (hx : ∀ d ∈ xs, ¬ Fits need d)
    (hc : Fits need c) : fit need (xs ++ c :: ys) = some (xs, c, ys) := by
  induction xs with
  | nil => simp [fit, hc]
  | cons d ds ih =>
    have hd : ¬ Fits need d := hx d (.head _)
    simp only [List.cons_append, fit, if_neg hd, ih fun e he => hx e (.tail _ he)]

section Carve

variable (hdr min : Nat)

/-- What becomes of the cell a request of `need` bytes is served from: it is handed out whole, or split when the
    remainder holds a header and `min` payload bytes. -/
def carve (need : Nat) (c : Cell) : List Cell :=
  if c.size < need + hdr + min then [⟨c.size, true⟩]
  else [⟨need, true⟩, ⟨c.size - need - hdr, false⟩]

theorem span_carve (need : Nat) (c : Cell) : span hdr (carve hdr min need c) = span hdr [c] := by
  unfold carve
  split
  · simp
  · simp only [span_cons, span_nil]
    omega

theorem usedAt_carve (need a : Nat) (c : Cell) : usedAt hdr a (carve hdr min need c) = [a + hdr] := by
  unfold carve
  split <;> simp

/-- Handing out a cell of a tiling adds exactly its payload address to the used ones. -/
theorem usedAt_alloc (need a : Nat) (hc : c.used = false) (p : Nat) :
    p ∈ usedAt hdr a (xs ++ carve hdr min need c ++ ys) ↔
      p = a + span hdr xs + hdr ∨ p ∈ usedAt hdr a (xs ++ c :: ys) := by
  have e : a + span hdr (xs ++ carve hdr min need c) = a + span hdr xs + hdr + c.size := by
    rw [span_append, span_carve]; simp only [span_cons, span_nil]; omega
  rw [usedAt_append, e, usedAt_append, usedAt_carve, usedAt_append]
  simp only [usedAt_cons, hc, List.mem_append, List.mem_singleton, Bool.false_eq_true, ↓reduceIte, List.nil_append]
  exact ⟨fun h => h.elim (fun h => h.elim (fun h => .inr (.inl h)) .inl) (fun h => .inr (.inr h)),
    fun h => h.elim (fun h => .inl (.inr h)) (fun h => h.elim (fun h => .inl (.inl h)) .inr)⟩

/-- The payload address of a free cell is not a used one. -/
theorem free_notMem_usedAt (hh : 0 < hdr) (a : Nat)
    (hc : c.used = false) : a + span hdr xs + hdr ∉ usedAt hdr a (xs ++ c :: ys) := by
  intro h
  obtain ⟨us, d, vs, he, hd, hp⟩ := usedAt_split hdr h
  have hne : c ≠ d := fun e => by rw [e, hd] at hc; cases hc
  rcases split_two he hne with ⟨ws, rfl, _⟩ | ⟨ws, rfl, _⟩
  · simp only [span_append, span_cons] at hp
    omega
  · simp only [span_append, span_cons] at hp
    omega

/-- Every other cell stays where it is when `c` is carved. -/
theorem split_carve (need : Nat) {xs ys us vs : List Cell} {c d : Cell}
    (h : xs ++ c :: ys = us ++ d :: vs) (hne : c ≠ d) :
    ∃ us' vs', xs ++ carve hdr min need c ++ ys = us' ++ d :: vs' ∧ span hdr us' = span hdr us := by
  rcases split_two h hne with ⟨ws, rfl, rfl⟩ | ⟨ws, rfl, rfl⟩
  · refine ⟨xs ++ carve hdr min need c ++ ws, vs, by simp, ?_⟩
    have hs := span_carve hdr min need c
    simp only [span_append, span_cons, span_nil] at hs ⊢
    omega
  · exact ⟨us, ws ++ carve hdr min need c ++ ys, by simp, rfl⟩

/-- The cell handed out holds the request. -/
theorem carve_head (hc : need ≤ c.size) : ∃ d ds, carve hdr min need c = d :: ds ∧ d.used = true ∧ need ≤ d.size := by
  unfold carve
  split
  · exact ⟨_, _, rfl, rfl, hc⟩
  · exact ⟨_, _, rfl, rfl, le_rfl⟩

end Carve

/-! ## 3. No two neighbouring cells are free -/

/-- No two neighbouring cells are both free. -/
def NoAdjFree (cs : List Cell) : Prop := cs.IsChain fun a b => a.used = true ∨ b.used = true

theorem NoAdjFree.left (h : NoAdjFree (xs ++ ys)) : NoAdjFree xs := (List.isChain_append.mp h).1

theorem NoAdjFree.right (h : NoAdjFree (xs ++ ys)) : NoAdjFree ys := (List.isChain_append.mp h).2.1

theorem noAdjFree_append_used (hx : NoAdjFree xs)
    (hy : NoAdjFree (c :: ys)) (hc : c.used = true) : NoAdjFree (xs ++ c :: ys) :=
  List.isChain_append.mpr ⟨hx, hy, fun _ _ b hb => .inr (by
    rw [List.head?_cons, Option.mem_def, Option.some.injEq] at hb
    rw [← hb, hc])⟩

/-- Only the used bit of the joint cells matters for a neighbour. -/
theorem NoAdjFree.head_congr {c d : Cell} {ys : List Cell} (h : NoAdjFree (c :: ys))
    (hd : c.used = true → d.used = true) : NoAdjFree (d :: ys) := by
  cases ys with
  | nil => exact List.isChain_singleton _
  | cons y ys =>
    obtain ⟨h1, h2⟩ := List.isChain_cons_cons.mp h
    exact List.isChain_cons_cons.mpr ⟨h1.imp hd id, h2⟩

theorem NoAdjFree.tail {ys : List Cell} (h : NoAdjFree (c :: ys)) : NoAdjFree ys := @NoAdjFree.right [c] ys h

/-- **Allocation keeps the invariant**, also when the cell served from stands after a free one: the cell handed out
    separates its neighbours. -/
theorem noAdjFree_carve {hdr min need : Nat} (hx : NoAdjFree xs)
    (hy : NoAdjFree (c :: ys)) (hc : c.used = false) :
    NoAdjFree (xs ++ carve hdr min need c ++ ys) := by
  rw [List.append_assoc]
  unfold carve
  split
  · exact noAdjFree_append_used hx (hy.head_congr fun _ => rfl) rfl
  · refine noAdjFree_append_used hx (List.isChain_cons_cons.mpr ⟨.inl rfl, ?_⟩) rfl
    exact hy.head_congr fun h => absurd (hc ▸ h) (by decide)

/-! ## 4. Release and coalescing -/

section Release

variable (hdr : Nat)

/-- The freed cell, merged with its right neighbour if that is free; and what follows it. -/
def absorb (c : Cell) : List Cell → Cell × List Cell
  | [] => (⟨c.size, false⟩, [])
  | n :: ys => if n.used then (⟨c.size, false⟩, n :: ys) else (⟨c.size + hdr + n.size, false⟩, ys)

/-- Free the cell `c` between `xs` and `ys`: merge to the right, then to the left. -/
def release (xs : List Cell) (c : Cell) (ys : List Cell) : List Cell :=
  match xs.getLast? with
  | none => (absorb hdr c ys).1 :: (absorb hdr c ys).2
  | some p =>
    if p.used then xs ++ (absorb hdr c ys).1 :: (absorb hdr c ys).2
    else xs.dropLast ++ ⟨p.size + hdr + (absorb hdr c ys).1.size, false⟩ :: (absorb hdr c ys).2

theorem release_nil (c : Cell) (ys : List Cell) :
    release hdr [] c ys = (absorb hdr c ys).1 :: (absorb hdr c ys).2 := rfl

theorem release_concat_used {p : Cell} (hp : p.used = true) (xs : List Cell) (c : Cell)
    (ys : List Cell) :
    release hdr (xs ++ [p]) c ys = xs ++ p :: (absorb hdr c ys).1 :: (absorb hdr c ys).2 := by
  simp [release, hp]

theorem release_concat_free {p : Cell} (hp : p.used = false) (xs : List Cell) (c : Cell)
    (ys : List Cell) :
    release hdr (xs ++ [p]) c ys = xs ++ ⟨p.size + hdr + (absorb hdr c ys).1.size, false⟩ :: (absorb hdr c ys).2 := by
  simp [release, hp]

theorem absorb_fst_used (c : Cell) (ys : List Cell) : (absorb hdr c ys).1.used = false := by
  cases ys with
  | nil => rfl
  | cons n ys => simp only [absorb]; split <;> rfl

theorem span_absorb (c : Cell) (ys : List Cell) :
    span hdr ((absorb hdr c ys).1 :: (absorb hdr c ys).2) = span hdr (c :: ys) := by
  cases ys with
  | nil => rfl
  | cons n ys =>
    simp only [absorb]
    split <;> simp only [span_cons]
    omega

theorem usedAt_absorb (a : Nat) (c : Cell) (ys : List Cell) :
    usedAt hdr a ((absorb hdr c ys).1 :: (absorb hdr c ys).2) = usedAt hdr (a + hdr + c.size) ys := by
  cases ys with
  | nil => simp [absorb]
  | cons n ys =>
    simp only [absorb]
    split
    · simp
    · rename_i hn
      simp only [usedAt_cons, hn, Bool.false_eq_true, ↓reduceIte, List.nil_append]
      rw [show a + hdr + (c.size + hdr + n.size) = a + hdr + c.size + hdr + n.size by omega]

/-- What follows a merged cell starts with a used one. -/
theorem noAdjFree_absorb {ys : List Cell} (h : NoAdjFree ys) :
    NoAdjFree ((absorb hdr c ys).1 :: (absorb hdr c ys).2) := by
  cases ys with
  | nil => exact List.isChain_singleton _
  | cons n ys =>
    simp only [absorb]
    split
    · rename_i hn
      exact List.isChain_cons_cons.mpr ⟨.inr hn, h⟩
    · rename_i hn
      exact h.head_congr fun h' => absurd h' hn

/-- A release covers the same bytes. -/
theorem span_release (xs : List Cell) (c : Cell) (ys : List Cell) :
    span hdr (release hdr xs c ys) = span hdr (xs ++ c :: ys) := by
  have ha := span_absorb hdr c ys
  rcases List.eq_nil_or_concat xs with rfl | ⟨zs, p, rfl⟩
  · rw [release_nil, ha, List.nil_append]
  · rw [List.concat_eq_append]
    simp only [span_cons] at ha
    cases hp : p.used with
    | true =>
      rw [release_concat_used hdr hp]
      simp only [span_append, span_cons, span_nil]
      omega
    | false =>
      rw [release_concat_free hdr hp]
      simp only [span_append, span_cons, span_nil]
      omega

/-- **A release removes exactly the freed cell from the used ones.** -/
theorem usedAt_release (a : Nat) (xs : List Cell) (c : Cell) (ys : List Cell) : usedAt hdr a (release hdr xs c ys) =
      usedAt hdr a xs ++ usedAt hdr (a + span hdr xs + hdr + c.size) ys := by
  rcases List.eq_nil_or_concat xs with rfl | ⟨zs, p, rfl⟩
  · rw [release_nil, usedAt_absorb]
    simp
  · rw [List.concat_eq_append]
    cases hp : p.used with
    | true =>
      rw [release_concat_used hdr hp, usedAt_append, usedAt_cons, usedAt_absorb, usedAt_append]
      simp only [usedAt_cons, usedAt_nil, span_append, span_cons, span_nil, hp, ↓reduceIte,
        List.append_nil, List.append_assoc]
      rw [show a + span hdr zs + hdr + p.size + hdr + c.size
        = a + (span hdr zs + (hdr + p.size + 0)) + hdr + c.size by omega]
    | false =>
      rw [release_concat_free hdr hp, usedAt_append, usedAt_append]
      have ha := usedAt_absorb hdr (a + span hdr zs + hdr + p.size) c ys
      rw [usedAt_cons, absorb_fst_used] at ha
      simp only [Bool.false_eq_true, ↓reduceIte, List.nil_append] at ha
      simp only [usedAt_cons, usedAt_nil, span_append, span_cons, span_nil, hp, Bool.false_eq_true,
        ↓reduceIte, List.append_nil, List.nil_append]
      rw [show a + span hdr zs + hdr + (p.size + hdr + (absorb hdr c ys).1.size)
        = a + span hdr zs + hdr + p.size + hdr + (absorb hdr c ys).1.size by omega, ha]
      rw [show a + (span hdr zs + (hdr + p.size + 0)) + hdr + c.size
        = a + span hdr zs + hdr + p.size + hdr + c.size by omega]

/-- The used payload addresses after a release: all but the freed one. -/
theorem mem_usedAt_release (hh : 0 < hdr) (a : Nat)
    (hc : c.used = true) (p : Nat) :
    p ∈ usedAt hdr a (release hdr xs c ys) ↔ p ∈ usedAt hdr a (xs ++ c :: ys) ∧ p ≠ a + span hdr xs + hdr := by
  have hnd := usedAt_nodup hdr hh a (xs ++ c :: ys)
  rw [usedAt_append, usedAt_cons, hc] at hnd
  rw [usedAt_release, usedAt_append, usedAt_cons, hc]
  simp only [↓reduceIte, List.singleton_append, List.mem_append, List.mem_cons] at hnd ⊢
  rw [List.nodup_append] at hnd
  obtain ⟨_, h2, h3⟩ := hnd
  have h4 := (List.nodup_cons.mp h2).1
  constructor
  · rintro (h | h)
    · exact ⟨.inl h, h3 p h _ (.head _)⟩
    · exact ⟨.inr (.inr h), fun e => h4 (e ▸ h)⟩
  · rintro ⟨h | h | h, hne⟩
    · exact .inl h
    · exact absurd h hne
    · exact .inr h

/-- **Release keeps the invariant**: the merged cell has used neighbours on both sides. -/
theorem noAdjFree_release (h : NoAdjFree (xs ++ c :: ys)) : NoAdjFree (release hdr xs c ys) := by
  have ha := noAdjFree_absorb hdr (c := c) h.right.tail
  rcases List.eq_nil_or_concat xs with rfl | ⟨zs, p, rfl⟩
  · exact ha
  · rw [List.concat_eq_append] at h ⊢
    have hl := h.left
    cases hp : p.used with
    | true =>
      rw [release_concat_used hdr hp]
      exact noAdjFree_append_used hl.left (List.isChain_cons_cons.mpr ⟨.inl hp, ha⟩) hp
    | false =>
      rw [release_concat_free hdr hp]
      -- the left neighbour of the free cell `p` is used, and so is what follows the merged cell
      obtain ⟨h1, _, h3⟩ := List.isChain_append.mp hl
      refine List.isChain_append.mpr ⟨h1, ha.head_congr fun h' => ?_, fun x hx y hy => ?_⟩
      · rw [absorb_fst_used] at h'
        exact absurd h' (by decide)
      · rcases h3 x hx p rfl with hx' | hp'
        · exact .inl hx'
        · rw [hp] at hp'
          exact absurd hp' (by decide)

/-- **Every other used cell stays where it is** when `c` is released. -/
theorem split_release {xs ys us vs : List Cell} {c d : Cell} (h : xs ++ c :: ys = us ++ d :: vs)
    (hd : d.used = true) (hne : span hdr us ≠ span hdr xs) :
    ∃ us' vs', release hdr xs c ys = us' ++ d :: vs' ∧ span hdr us' = span hdr us := by
  rcases List.append_eq_append_iff.mp h with ⟨ws, rfl, hc⟩ | ⟨ws, rfl, hc⟩
  · -- behind the released cell: what follows is a suffix of `ys`
    obtain ⟨ws, rfl, rfl⟩ : ∃ ws', ws = c :: ws' ∧ ys = ws' ++ d :: vs := by
      cases ws with
      | nil => exact absurd (by rw [List.append_nil]) hne
      | cons w ws => cases hc; exact ⟨ws, rfl, rfl⟩
    obtain ⟨ts, hts⟩ : ∃ ts, (absorb hdr c (ws ++ d :: vs)).2 = ts ++ d :: vs := by
      cases ws with
      | nil => exact ⟨[], by simp only [List.nil_append, absorb, hd, ↓reduceIte]⟩
      | cons w ws =>
        simp only [List.cons_append, absorb]
        split
        · exact ⟨w :: ws, rfl⟩
        · exact ⟨ws, rfl⟩
    obtain ⟨us', he⟩ : ∃ us', release hdr xs c (ws ++ d :: vs) = us' ++ d :: vs := by
      rw [release, hts]
      cases xs.getLast? with
      | none => exact ⟨_ :: ts, rfl⟩
      | some p =>
        dsimp only
        split
        · exact ⟨xs ++ _ :: ts, (List.append_assoc xs (_ :: ts) _).symm⟩
        · exact ⟨xs.dropLast ++ _ :: ts, (List.append_assoc xs.dropLast (_ :: ts) _).symm⟩
    refine ⟨us', vs, he, ?_⟩
    have hspan := span_release hdr xs c (ws ++ d :: vs)
    rw [he] at hspan
    simp only [span_append, span_cons] at hspan ⊢
    omega
  · -- before it: at most the last cell before the released one changes, and that one is free
    obtain ⟨ws, rfl⟩ : ∃ ws', ws = d :: ws' := by
      cases ws with
      | nil => exact absurd (by rw [List.append_nil]) hne
      | cons w ws => cases hc; exact ⟨ws, rfl⟩
    refine ⟨us, ?_⟩
    rcases List.eq_nil_or_concat ws with rfl | ⟨zs, p, rfl⟩
    · rw [release_concat_used hdr hd]
      exact ⟨_, rfl, rfl⟩
    · rw [List.concat_eq_append, show us ++ d :: (zs ++ [p]) = us ++ d :: zs ++ [p] by simp]
      cases hp : p.used with
      | true =>
        rw [release_concat_used hdr hp, List.append_assoc]
        exact ⟨_, rfl, rfl⟩
      | false =>
        rw [release_concat_free hdr hp, List.append_assoc]
        exact ⟨_, rfl, rfl⟩

end Release

/-! ## 5. Sizes in units of `al` -/

/-- Every cell size is a multiple of `al`. -/
def Aligned (al : Nat) (cs : List Cell) : Prop := ∀ c ∈ cs, al ∣ c.size

theorem aligned_append : Aligned al (xs ++ ys) ↔ Aligned al xs ∧ Aligned al ys := by
  simp only [Aligned, List.mem_append]
  exact ⟨fun h => ⟨fun c hc => h c (.inl hc), fun c hc => h c (.inr hc)⟩, fun h c hc => hc.elim (h.1 c) (h.2 c)⟩

theorem aligned_cons : Aligned al (c :: cs) ↔ al ∣ c.size ∧ Aligned al cs := by
  simp [Aligned]

theorem aligned_carve {hdr min : Nat} (hh : al ∣ hdr) (hn : al ∣ need) (hc : al ∣ c.size) :
    Aligned al (carve hdr min need c) := by
  unfold carve
  split
  · simpa [Aligned] using hc
  · simp only [aligned_cons]
    exact ⟨hn, Nat.dvd_sub (Nat.dvd_sub hc hn) hh, by simp [Aligned]⟩

theorem aligned_absorb {hdr : Nat} {ys : List Cell} (hh : al ∣ hdr) (hc : al ∣ c.size)
    (hy : Aligned al ys) : Aligned al ((absorb hdr c ys).1 :: (absorb hdr c ys).2) := by
  cases ys with
  | nil => exact aligned_cons.mpr ⟨hc, hy⟩
  | cons n ys =>
    obtain ⟨hn, hy'⟩ := aligned_cons.mp hy
    simp only [absorb]
    split
    · exact aligned_cons.mpr ⟨hc, hy⟩
    · exact aligned_cons.mpr ⟨Nat.dvd_add (Nat.dvd_add hc hh) hn, hy'⟩

theorem aligned_release {hdr : Nat} (hh : al ∣ hdr) (h : Aligned al (xs ++ c :: ys)) :
    Aligned al (release hdr xs c ys) := by
  obtain ⟨hx, hcy⟩ := aligned_append.mp h
  obtain ⟨hc, hy⟩ := aligned_cons.mp hcy
  have ha := aligned_absorb hh hc hy
  rcases List.eq_nil_or_concat xs with rfl | ⟨zs, p, rfl⟩
  · exact ha
  · rw [List.concat_eq_append] at hx ⊢
    obtain ⟨hz, hp'⟩ := aligned_append.mp hx
    obtain ⟨hp, _⟩ := aligned_cons.mp hp'
    obtain ⟨ha1, ha2⟩ := aligned_cons.mp ha
    cases hu : p.used with
    | true =>
      rw [release_concat_used hdr hu]
      exact aligned_append.mpr ⟨hz, aligned_cons.mpr ⟨hp, ha⟩⟩
    | false =>
      rw [release_concat_free hdr hu]
      exact aligned_append.mpr ⟨hz, aligned_cons.mpr ⟨Nat.dvd_add (Nat.dvd_add hp hh) ha1, ha2⟩⟩

/-- **With no used cell left, the tiling is one free cell.** -/
theorem single_of_unused {hdr : Nat} (hn : NoAdjFree cs) (hu : usedAt hdr a cs = [])
    (hne : cs ≠ []) : ∃ c, cs = [c] ∧ c.used = false := by
  have hall := (usedAt_eq_nil_iff hdr).mp hu
  match cs, hne with
  | [c], _ => exact ⟨c, rfl, hall c (.head _)⟩
  | c :: d :: ds, _ =>
    have h := (List.isChain_cons_cons.mp hn).1
    rw [hall c (.head _), hall d (.tail _ (.head _))] at h
    simp at h

/-! ## 6. Payload bytes -/

section Inside

variable {hdr a x : Nat} {xs ys cs : List Cell} {c : Cell}

/-- The byte `x` lies in the payload of a used cell. -/
def Inside (hdr a : Nat) (cs : List Cell) (x : Nat) : Prop :=
  ∃ us d vs, cs = us ++ d :: vs ∧ d.used = true ∧ a + span hdr us + hdr ≤ x ∧ x < a + span hdr us + hdr + d.size

/-- A payload byte lies in no header. -/
theorem Inside.header (h : Inside hdr a (xs ++ c :: ys) x) : x < a + span hdr xs ∨ a + span hdr xs + hdr ≤ x := by
  obtain ⟨us, d, vs, he, _, h1, h2⟩ := h
  rcases List.append_eq_append_iff.mp he with ⟨ws, rfl, hc⟩ | ⟨ws, rfl, hd⟩
  · rw [span_append] at h1
    omega
  · cases ws with
    | nil =>
      rw [List.append_nil]
      omega
    | cons w ws =>
      obtain ⟨rfl, _⟩ := List.cons.inj hd
      simp only [span_append, span_cons]
      omega

/-- A payload byte of a used cell lies in no free cell. -/
theorem Inside.free (h : Inside hdr a (xs ++ c :: ys) x) (hc : c.used = false) :
    x < a + span hdr xs ∨ a + span hdr xs + hdr + c.size ≤ x := by
  obtain ⟨us, d, vs, he, hd, h1, h2⟩ := h
  have hne : c ≠ d := fun e => by rw [e, hd] at hc; cases hc
  rcases split_two he hne with ⟨ws, rfl, _⟩ | ⟨ws, rfl, _⟩
  · simp only [span_append, span_cons] at h1
    omega
  · simp only [span_append, span_cons]
    omega

theorem Inside.append (h : Inside hdr a cs x) (ys : List Cell) : Inside hdr a (cs ++ ys) x := by
  obtain ⟨us, d, vs, rfl, hd, hx⟩ := h
  exact ⟨us, d, vs ++ ys, by simp, hd, hx⟩

theorem Inside.bounds (h : Inside hdr a cs x) : a ≤ x ∧ x < a + span hdr cs := by
  obtain ⟨us, d, vs, rfl, _, h1, h2⟩ := h
  simp only [span_append, span_cons]
  omega

/-- What follows a merged cell is the end of what followed the cell. -/
theorem absorb_suffix (hdr : Nat) (c : Cell) (ys : List Cell) :
    ∃ ws, ys = ws ++ (absorb hdr c ys).2 ∧ c.size + span hdr ws = (absorb hdr c ys).1.size := by
  cases ys with
  | nil => exact ⟨[], rfl, rfl⟩
  | cons n ys =>
    simp only [absorb]
    split
    · exact ⟨[], rfl, rfl⟩
    · exact ⟨[n], rfl, by simp only [span_cons, span_nil]; omega⟩

/-! ## 7. Release undoes allocation -/

theorem absorb_of_used {ys : List Cell} (h : NoAdjFree (c :: ys)) (hc : c.used = false) (d : Cell) :
    absorb hdr d ys = (⟨d.size, false⟩, ys) := by
  cases ys with
  | nil => rfl
  | cons n ys =>
    have hn := (List.isChain_cons_cons.mp h).1
    rw [hc] at hn
    simp only [Bool.false_eq_true, false_or] at hn
    rw [absorb, if_pos hn]

/-- A cell is whole again when the part handed out takes its remainder back. -/
theorem absorb_carve {min : Nat} {d : Cell} {ds : List Cell} (hy : NoAdjFree (c :: ys)) (hc : c.used = false)
    (hd : carve hdr min need c = d :: ds) : absorb hdr d (ds ++ ys) = (c, ys) := by
  have hcell : (⟨c.size, false⟩ : Cell) = c := by rw [← hc]
  unfold carve at hd
  split at hd
  · cases hd
    rw [List.nil_append, absorb_of_used hy hc, hcell]
  · cases hd
    have hsize : need + hdr + (c.size - need - hdr) = c.size := by omega
    simp only [List.cons_append, List.nil_append, absorb, Bool.false_eq_true, ↓reduceIte, hsize, hcell]

/-- **Releasing the cell just carved restores the tiling.** -/
theorem release_carve {min : Nat} {d : Cell} {ds : List Cell} (h : NoAdjFree (xs ++ c :: ys)) (hc : c.used = false)
    (hd : carve hdr min need c = d :: ds) :
    release hdr xs d (ds ++ ys) = xs ++ c :: ys := by
  have ha : absorb hdr d (ds ++ ys) = (c, ys) := absorb_carve h.right hc hd
  rcases List.eq_nil_or_concat xs with rfl | ⟨zs, p, rfl⟩
  · rw [release_nil, ha, List.nil_append]
  · rw [List.concat_eq_append, List.append_assoc] at h
    have hp := (List.isChain_cons_cons.mp h.right).1
    rw [hc] at hp
    simp only [Bool.false_eq_true, or_false] at hp
    rw [List.concat_eq_append, release_concat_used hdr hp, ha, List.append_assoc]
    rfl

/-- `ext` bytes of free space behind the tiling: a cell of its own, or more room in the last cell if that one is free.
    -/
def extend (hdr : Nat) (cs : List Cell) (ext : Nat) : List Cell :=
  match cs.getLast? with
  | none => [⟨ext - hdr, false⟩]
  | some p => if p.used then cs ++ [⟨ext - hdr, false⟩] else cs.dropLast ++ [⟨p.size + ext, false⟩]

/-- **Releasing a cell carved from new space behind the tiling** leaves the tiling with that space. -/
theorem release_carve_end {min : Nat} {d : Cell} {ds : List Cell} (hc : c.used = false)
    (hd : carve hdr min need c = d :: ds) : release hdr cs d ds = extend hdr cs (hdr + c.size) := by
  have ha : absorb hdr d ds = (c, []) := by
    have hnil : absorb hdr d (ds ++ []) = (c, []) := absorb_carve (List.isChain_singleton c) hc hd
    rwa [List.append_nil] at hnil
  have hcell : (⟨c.size, false⟩ : Cell) = c := by rw [← hc]
  rcases List.eq_nil_or_concat cs with rfl | ⟨zs, p, rfl⟩
  · rw [release_nil, ha, extend, List.getLast?_nil]
    simp only [Nat.add_sub_cancel_left, hcell]
  · rw [List.concat_eq_append]
    cases hp : p.used with
    | true =>
      rw [release_concat_used hdr hp, ha]
      simp [extend, hp, hcell]
    | false =>
      rw [release_concat_free hdr hp, ha]
      simp [extend, hp, Nat.add_assoc]

end Inside

end FreeList
