import Mathlib.Data.Nat.Init
import Mathlib.Logic.Relation

/-!
# What comes about in a bounded number of steps

For any relation between states: a property comes about within `n` steps if, however one goes on,
it holds at the latest after `n` of them, and if one can always go on until it does.
-/
namespace LockGrid

variable {σ : Type*} {r : σ → σ → Prop} {p q : σ → Prop} {n m : ℕ} {s : σ}

inductive Within (r : σ → σ → Prop) (p : σ → Prop) : ℕ → σ → Prop
  | now {n : ℕ} {s : σ} (h : p s) : Within r p n s
  | next {n : ℕ} {s : σ} (hgo : ∃ s', r s s') (hall : ∀ s', r s s' → Within r p n s') :
    Within r p (n + 1) s

namespace Within

theorem mono (h : Within r p n s) (hle : n ≤ m) : Within r p m s := by
  induction h generalizing m with
  | now h => exact .now h
  | next hgo _ ih =>
    obtain ⟨k, rfl⟩ := Nat.exists_eq_add_of_lt (Nat.lt_of_lt_of_le (Nat.lt_succ_self _) hle)
    exact .next hgo fun s' hs => ih s' hs (by omega)

/-- A measure that every step makes smaller, as long as the property does not hold, bounds the
number of steps. -/
theorem of_measure {I : σ → Prop} (measure : σ → ℕ)
    (hgo : ∀ s, I s → ¬ p s → ∃ s', r s s')
    (hless : ∀ s s', I s → ¬ p s → r s s' → I s' ∧ measure s' < measure s) (hs : I s) :
    Within r p (measure s) s := by
  induction hn : measure s using Nat.strong_induction_on generalizing s with
  | _ n ih =>
    by_cases hp : p s
    · exact .now hp
    · obtain ⟨s', hstep⟩ := hgo s hs hp
      have hpos : measure s' < measure s := (hless s s' hs hp hstep).2
      obtain ⟨k, hk⟩ : ∃ k, n = k + 1 := ⟨n - 1, by omega⟩
      rw [hk]
      refine .next ⟨s', hstep⟩ fun t ht => ?_
      obtain ⟨hkeep, hlt⟩ := hless s t hs hp ht
      exact (ih (measure t) (hn ▸ hlt) hkeep rfl).mono (by omega)

/-- Some run of at most so many steps leads there. -/
theorem exists_run (h : Within r p n s) : ∃ s', Relation.ReflTransGen r s s' ∧ p s' := by
  induction h with
  | now h => exact ⟨_, .refl, h⟩
  | next hgo _ ih =>
    obtain ⟨t, ht⟩ := hgo
    obtain ⟨s', hrun, hp⟩ := ih t ht
    exact ⟨s', .head ht hrun, hp⟩

end Within

end LockGrid
