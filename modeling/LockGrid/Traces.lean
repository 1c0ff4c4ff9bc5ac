import Mathlib.Logic.Relation

/-!
# Computed runs

A step function that takes only steps of a relation, and may refuse to, computes runs of it from
lists of inputs.
-/
namespace Traces

open Relation

variable {σ ι : Type*} {r : σ → σ → Prop} {next : σ → ι → Option σ}

/-- What the inputs lead to is reached by a run. -/
theorem run_of_foldlM (hnext : ∀ s i s', next s i = some s' → r s s') {inputs : List ι}
    {s s' : σ} (h : inputs.foldlM next s = some s') : ReflTransGen r s s' := by
  induction inputs generalizing s with
  | nil =>
    cases h
    exact .refl
  | cons i rest ih =>
    rw [List.foldlM_cons] at h
    obtain ⟨d, hd, hrest⟩ := Option.bind_eq_some_iff.mp h
    exact .head (hnext _ _ _ hd) (ih hrest)

/-- A test that succeeds at the end of the inputs succeeds at the end of a run. -/
theorem exists_run (hnext : ∀ s i s', next s i = some s' → r s s') (inputs : List ι) (s : σ)
    (test : σ → Bool) (h : (inputs.foldlM next s).any test = true) :
    ∃ s', ReflTransGen r s s' ∧ test s' = true := by
  obtain ⟨s', hs', htest⟩ := (Option.any_eq_true test _).mp h
  exact ⟨s', run_of_foldlM hnext hs', htest⟩

end Traces
