/-
  Subject: WEAKEST PRECONDITIONS for programs with a state and exceptions.

  `wp E m Q s`: run from `s`, the program `m` either returns a result and a state that satisfy `Q`, or stops with an
  exception in `E`. With `E = fun _ => False` that is total correctness, with `E = fun _ => True` partial correctness;
  in between, `E` names the exceptions a proof leaves open. The rules below take a program apart along its syntax;
  `wp_mono` applies a specification that is already known.
-/
import Mathlib.Logic.Basic

namespace Wp

variable {σ ε α β : Type}

/-- From `s`, `m` returns with `Q` or stops with an exception in `E`. -/
def wp (E : ε → Prop) (m : StateT σ (Except ε) α) (Q : α → σ → Prop) (s : σ) : Prop :=
  match m s with
  | .ok (a, s') => Q a s'
  | .error e => E e

variable {E : ε → Prop} {Q : α → σ → Prop} {s : σ}

theorem wp_iff (m : StateT σ (Except ε) α) :
    wp E m Q s ↔ (∃ a s', m s = .ok (a, s') ∧ Q a s') ∨ ∃ e, m s = .error e ∧ E e := by
  unfold wp
  cases h : m s with
  | ok r =>
    obtain ⟨a, t⟩ := r
    constructor
    · exact fun hq => .inl ⟨a, t, rfl, hq⟩
    · rintro (⟨_, _, he, hq⟩ | ⟨_, he, _⟩)
      · cases he
        exact hq
      · cases he
  | error e => simp

theorem wp_ok {m : StateT σ (Except ε) α} (h : wp E m Q s) {a : α} {s' : σ} (hm : m s = .ok (a, s')) : Q a s' := by
  rw [wp, hm] at h
  exact h

theorem wp_of_ok {m : StateT σ (Except ε) α} {a : α} {s' : σ} (hm : m s = .ok (a, s'))
    (h : Q a s') : wp E m Q s := by
  rw [wp, hm]
  exact h

/-- The rule of consequence. -/
theorem wp_mono {m : StateT σ (Except ε) α} {E' : ε → Prop} {Q' : α → σ → Prop} (h : wp E m Q s)
    (hQ : ∀ a s', Q a s' → Q' a s') (hE : ∀ e, E e → E' e) : wp E' m Q' s := by
  rcases (wp_iff m).mp h with ⟨a, s', hm, hq⟩ | ⟨e, hm, he⟩
  · exact (wp_iff m).mpr (.inl ⟨a, s', hm, hQ a s' hq⟩)
  · exact (wp_iff m).mpr (.inr ⟨e, hm, hE e he⟩)

theorem wp_imp {m : StateT σ (Except ε) α} {Q' : α → σ → Prop} (h : wp E m Q s)
    (hQ : ∀ a s', Q a s' → Q' a s') : wp E m Q' s :=
  wp_mono h hQ fun _ he => he

/-- Two specifications of one program. -/
theorem wp_and {m : StateT σ (Except ε) α} {E' : ε → Prop} {Q' : α → σ → Prop} (h : wp E m Q s)
    (h' : wp E' m Q' s) : wp (fun e => E e ∧ E' e) m (fun a s' => Q a s' ∧ Q' a s') s := by
  rcases (wp_iff m).mp h with ⟨a, s', hm, hq⟩ | ⟨e, hm, he⟩
  · exact wp_of_ok hm ⟨hq, wp_ok h' hm⟩
  · rw [wp, hm] at h' ⊢
    exact ⟨he, h'⟩

@[simp] theorem wp_pure (a : α) : wp E (pure a) Q s ↔ Q a s := Iff.rfl

@[simp] theorem wp_bind {R : β → σ → Prop} (m : StateT σ (Except ε) α)
    (f : α → StateT σ (Except ε) β) :
    wp E (m >>= f) R s ↔ wp E m (fun a s' => wp E (f a) R s') s := by
  simp only [wp, bind, StateT.bind, Except.bind]
  cases m s with
  | ok r => rfl
  | error e => rfl

section

variable {R : β → σ → Prop} {m : StateT σ (Except ε) α} {f : α → StateT σ (Except ε) β}

theorem wp_then (h : wp E m (fun a s' => wp E (f a) R s') s) : wp E (m >>= f) R s := (wp_bind m f).mpr h

/-- A program whose first part has a specification. -/
theorem wp_seq {P : α → σ → Prop} (hm : wp E m P s) (hf : ∀ a s', P a s' → wp E (f a) R s') :
    wp E (m >>= f) R s := wp_then (wp_imp hm hf)

theorem wp_pure_then {a : α} (h : wp E (f a) R s) : wp E (pure a >>= f) R s := wp_then h

theorem wp_get_then {f : σ → StateT σ (Except ε) β} (h : wp E (f s) R s) : wp E (get >>= f) R s := wp_then h

theorem wp_modify_then {g : σ → σ} {f : PUnit → StateT σ (Except ε) β} (h : wp E (f ⟨⟩) R (g s)) :
    wp E (modify g >>= f) R s := wp_then h

end

@[simp] theorem wp_get {R : σ → σ → Prop} : wp E (get : StateT σ (Except ε) σ) R s ↔ R s s := Iff.rfl

@[simp] theorem wp_set {R : PUnit → σ → Prop} (t : σ) :
    wp E (set t : StateT σ (Except ε) PUnit) R s ↔ R ⟨⟩ t := Iff.rfl

@[simp] theorem wp_modify {R : PUnit → σ → Prop} (f : σ → σ) :
    wp E (modify f : StateT σ (Except ε) PUnit) R s ↔ R ⟨⟩ (f s) := Iff.rfl

end Wp
