import Mathlib.Tactic.Linarith

/-!
# While loops with fuel

A `while` loop as a function of the number of tests it may make. `none` is a loop that has
not ended yet; a loop that never ends gives `none` at every fuel.
-/
namespace Loops

variable {α : Type*}

def whileLoop (cond : α → Bool) (body : α → α) : ℕ → α → Option α
  | 0, _ => none
  | fuel + 1, a => if cond a then whileLoop cond body fuel (body a) else some a

def Terminates (cond : α → Bool) (body : α → α) (a : α) : Prop :=
  ∃ fuel b, whileLoop cond body fuel a = some b

variable {cond : α → Bool} {body : α → α}

/-- A loop that ends leaves a state in which its test fails. -/
theorem whileLoop_exit {fuel : ℕ} {a b : α} (h : whileLoop cond body fuel a = some b) :
    cond b = false := by
  induction fuel generalizing a with
  | zero => simp [whileLoop] at h
  | succ fuel ih =>
    rw [whileLoop] at h
    split_ifs at h with hc
    · exact ih h
    · cases h
      simpa using hc

/-- What the test and the body keep, a loop that ends has kept. -/
theorem whileLoop_induct {fuel : ℕ} {a b : α} (P : α → Prop) (ha : P a)
    (hstep : ∀ x, P x → cond x = true → P (body x))
    (h : whileLoop cond body fuel a = some b) : P b := by
  induction fuel generalizing a with
  | zero => simp [whileLoop] at h
  | succ fuel ih =>
    rw [whileLoop] at h
    split_ifs at h with hc
    · exact ih (hstep a ha hc) h
    · cases h
      exact ha

theorem whileLoop_mono {fuel fuel' : ℕ} {a b : α} (hle : fuel ≤ fuel')
    (h : whileLoop cond body fuel a = some b) : whileLoop cond body fuel' a = some b := by
  induction fuel generalizing a fuel' with
  | zero => simp [whileLoop] at h
  | succ fuel ih =>
    obtain ⟨f, rfl⟩ : ∃ f, fuel' = f + 1 := ⟨fuel' - 1, by omega⟩
    rw [whileLoop] at h ⊢
    split_ifs at h ⊢ with hc
    · exact ih (by omega) h
    · exact h

/-- The invariant that keeps a loop going for ever. -/
theorem not_terminates_of_invariant {a : α} (P : α → Prop) (ha : P a)
    (hcond : ∀ x, P x → cond x = true) (hstep : ∀ x, P x → P (body x)) :
    ¬ Terminates cond body a := by
  rintro ⟨fuel, b, h⟩
  have hb : P b := whileLoop_induct P ha (fun x hx _ => hstep x hx) h
  have := whileLoop_exit h
  simp [hcond b hb] at this

end Loops
