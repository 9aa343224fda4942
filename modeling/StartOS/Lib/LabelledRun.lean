import Mathlib.Tactic.Common

/-! # Runs of labelled steps

A run is a list of labels with the steps they name. What every step keeps holds after a run,
and a simulation of steps is one of runs.
-/

namespace LabelledRun

variable {ε σ τ : Type*} {step : ε → σ → σ → Prop} {step' : ε → τ → τ → Prop} {es es' : List ε}
  {s s' s'' : σ}

def Run (step : ε → σ → σ → Prop) : List ε → σ → σ → Prop
  | [], s, s' => s = s'
  | e :: es, s, s'' => ∃ s', step e s s' ∧ Run step es s' s''

theorem Run.keeps {I : σ → Prop} (hstep : ∀ e s s', I s → step e s s' → I s')
    (hrun : Run step es s s')
    (h : I s) : I s' := by
  induction es generalizing s with
  | nil => exact hrun ▸ h
  | cons e es ih =>
    obtain ⟨r, he, hes⟩ := hrun
    exact ih hes (hstep e s r h he)

theorem Run.simulates {R : σ → τ → Prop}
    (hstep : ∀ e s s' t, R s t → step e s s' → ∃ t', step' e t t' ∧ R s' t') (hrun : Run step es s s')
    {t : τ} (h : R s t) : ∃ t', Run step' es t t' ∧ R s' t' := by
  induction es generalizing s t with
  | nil => exact ⟨t, rfl, hrun ▸ h⟩
  | cons e es ih =>
    obtain ⟨r, he, hes⟩ := hrun
    obtain ⟨u, hu, hru⟩ := hstep e s r t h he
    obtain ⟨t', ht', hR⟩ := ih hes hru
    exact ⟨t', ⟨u, hu, ht'⟩, hR⟩

end LabelledRun
