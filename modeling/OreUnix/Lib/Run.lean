/-
  Subject: RUNS OF A LABELLED TRANSITION SYSTEM and the invariant rule.

  A system is a relation `step s e s'`: in state `s` the event `e` can lead to `s'`. A run is the list of its events.
  What every run keeps is shown for one step (`Run.invariant`); a system whose steps are a partial function runs by
  `List.foldlM` (`run_iff_foldlM`), so a run on given events can be evaluated.
-/

namespace Lts

variable {σ ε : Type}

/-- The events `es` lead from one state to another. -/
inductive Run (step : σ → ε → σ → Prop) : σ → List ε → σ → Prop
  | nil (s : σ) : Run step s [] s
  | cons {s s' t : σ} {e : ε} {es : List ε} (h : step s e s') (hr : Run step s' es t) :
      Run step s (e :: es) t

variable {step : σ → ε → σ → Prop}

variable {es : List ε}

/-- **The invariant rule**: what the first state has and every step keeps, the last state has. -/
theorem Run.invariant {I : σ → Prop} (hstep : ∀ s e s', I s → step s e s' → I s') {s t : σ}
    (hr : Run step s es t) (hs : I s) : I t := by
  induction hr with
  | nil s => exact hs
  | cons h _ ih => exact ih (hstep _ _ _ hs h)

theorem Run.mono {step' : σ → ε → σ → Prop} (h : ∀ s e s', step s e s' → step' s e s') {s t : σ}
    (hr : Run step s es t) : Run step' s es t := by
  induction hr with
  | nil s => exact .nil s
  | cons hs _ ih => exact .cons (h _ _ _ hs) ih

theorem Run.snoc {s t u : σ} {e : ε} (hr : Run step s es t) (h : step t e u) : Run step s (es ++ [e]) u := by
  induction hr with
  | nil s => exact .cons h (.nil _)
  | cons h' _ ih => exact .cons h' (ih h)

theorem Run.append {s t u : σ} {es es' : List ε} (hr : Run step s es t) (hr' : Run step t es' u) :
    Run step s (es ++ es') u := by
  induction hr with
  | nil s => exact hr'
  | cons h _ ih => exact .cons h (ih hr')

/-- A run has a state after any number of its events. -/
theorem Run.split {s t : σ} {es es' : List ε} (hr : Run step s (es ++ es') t) :
    ∃ u, Run step s es u ∧ Run step u es' t := by
  induction es generalizing s with
  | nil => exact ⟨s, .nil s, hr⟩
  | cons e es ih =>
    cases hr with
    | cons h hr =>
      obtain ⟨u, hu, hrest⟩ := ih hr
      exact ⟨u, .cons h hu, hrest⟩

/-- A system with one step for each event has one run. -/
theorem Run.unique (hstep : ∀ s e s' s'', step s e s' → step s e s'' → s' = s'') {s t t' : σ}
    (hr : Run step s es t) (hr' : Run step s es t') : t = t' := by
  induction hr with
  | nil s =>
    cases hr' with
    | nil => rfl
  | cons h _ ih =>
    cases hr' with
    | cons h' hr' =>
      cases hstep _ _ _ _ h h'
      exact ih hr'

/-- A run on events that are all of a kind `P` allows in every state. -/
theorem Run.and_mem {P : σ → ε → Prop} {s t : σ} (hr : Run step s es t)
    (hP : ∀ s, ∀ e ∈ es, P s e) : Run (fun s e s' => P s e ∧ step s e s') s es t := by
  induction hr with
  | nil s => exact .nil s
  | cons h _ ih =>
    refine .cons ⟨hP _ _ (.head _), h⟩ (ih fun s e he => ?_)
    exact hP s e (.tail _ he)

/-- The steps of a partial function. -/
def ofFun (f : σ → ε → Option σ) (s : σ) (e : ε) (s' : σ) : Prop := f s e = some s'

theorem run_iff_foldlM (f : σ → ε → Option σ) (s t : σ) (es : List ε) :
    Run (ofFun f) s es t ↔ es.foldlM f s = some t := by
  constructor
  · intro hr
    induction hr with
    | nil s => rfl
    | cons h _ ih =>
      rw [List.foldlM_cons, show f _ _ = some _ from h]
      exact ih
  · intro h
    induction es generalizing s with
    | nil =>
      rw [List.foldlM_nil] at h
      cases h
      exact .nil _
    | cons e es ih =>
      rw [List.foldlM_cons] at h
      cases hf : f s e with
      | none => rw [hf] at h; cases h
      | some s' =>
        rw [hf] at h
        exact .cons hf (ih s' h)

/-- A run of steps that a partial function computes, and what a test says about its end. -/
theorem exists_run {f : σ → ε → Option σ} (hstep : ∀ s e s', f s e = some s' → step s e s') (s : σ) (es : List ε)
    (P : σ → Prop) [DecidablePred P] (h : (es.foldlM f s).any (fun t => decide (P t)) = true) :
    ∃ t, Run step s es t ∧ P t := by
  cases hfold : es.foldlM f s with
  | none =>
    rw [hfold] at h
    cases h
  | some t =>
    rw [hfold] at h
    exact ⟨t, ((run_iff_foldlM f s t es).mpr hfold).mono hstep, of_decide_eq_true h⟩

end Lts
