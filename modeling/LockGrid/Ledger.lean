import Mathlib.Data.List.Count
import Mathlib.Data.List.Nodup
import Mathlib.Logic.Function.Basic
import Mathlib.Logic.Relation

/-!
# Counters under keys

A table of holders, each of which may hold a key with a counter. A key comes in once, with its
counter at zero, and every use of it takes the next count. However many holders there are and
however often they change keys, no key is used twice at one count.
-/
namespace Ledger

variable {ι κ : Type*} [DecidableEq κ]

structure State (ι κ : Type*) where
  live : ι → Option (κ × ℕ)
  installed : List κ
  used : List (κ × ℕ)

/-- How often the key `k` has been used. -/
def State.uses (L : State ι κ) (k : κ) : ℕ := L.used.countP fun e => e.1 = k

structure Sound (L : State ι κ) : Prop where
  held : ∀ i k n, L.live i = some (k, n) → k ∈ L.installed
  /-- No two holders have the same key. -/
  apart : ∀ i j k n m, L.live i = some (k, n) → L.live j = some (k, m) → i = j
  count : ∀ i k n, L.live i = some (k, n) → L.uses k = n
  bound : ∀ k n, (k, n) ∈ L.used → k ∈ L.installed ∧ n ≤ L.uses k
  nodup : L.used.Nodup

theorem sound_empty : Sound ({ live := fun _ => none, installed := [], used := [] } : State ι κ) :=
  ⟨nofun, nofun, nofun, nofun, List.nodup_nil⟩

/-- A key that was never installed was never used. -/
theorem Sound.uses_eq_zero {L : State ι κ} (h : Sound L) {k : κ} (hk : k ∉ L.installed) :
    L.uses k = 0 := by
  rw [State.uses, List.countP_eq_zero]
  rintro ⟨k', n⟩ hmem heq
  have hk' : k' = k := by simpa using heq
  subst hk'
  exact hk (h.bound _ _ hmem).1

variable [DecidableEq ι] {L L' : State ι κ}

namespace State

def install (L : State ι κ) (i : ι) (k : κ) : State ι κ :=
  { L with live := Function.update L.live i (some (k, 0)), installed := k :: L.installed }

def use (L : State ι κ) (i : ι) (k : κ) (n : ℕ) : State ι κ :=
  { L with live := Function.update L.live i (some (k, n + 1)), used := (k, n + 1) :: L.used }

end State

/-- A key is installed while it has never been before; a key is used where it is held. -/
inductive Step : State ι κ → State ι κ → Prop
  | install (L : State ι κ) (i : ι) {k : κ} (h : k ∉ L.installed) : Step L (L.install i k)
  | use (L : State ι κ) {i : ι} {k : κ} {n : ℕ} (h : L.live i = some (k, n)) :
    Step L (L.use i k n)

abbrev Steps : State ι κ → State ι κ → Prop := Relation.ReflTransGen Step

theorem Sound.install (h : Sound L) (i : ι) {k : κ} (hk : k ∉ L.installed) :
    Sound (L.install i k) := by
  have hcases : ∀ j k' n, (L.install i k).live j = some (k', n) →
      (j = i ∧ k' = k ∧ n = 0) ∨ (j ≠ i ∧ L.live j = some (k', n)) := by
    intro j k' n hj
    by_cases hji : j = i
    · subst hji
      simp only [State.install, Function.update_self, Option.some.injEq, Prod.mk.injEq] at hj
      exact .inl ⟨rfl, hj.1.symm, hj.2.symm⟩
    · simp only [State.install, Function.update_of_ne hji] at hj
      exact .inr ⟨hji, hj⟩
  refine ⟨fun j k' n hj => ?_, fun j j' k' n m hj hj' => ?_, fun j k' n hj => ?_,
    fun k' n hmem => ?_, h.nodup⟩
  · rcases hcases j k' n hj with ⟨-, rfl, -⟩ | ⟨-, hj⟩
    · exact List.mem_cons_self
    · exact List.mem_cons_of_mem _ (h.held j k' n hj)
  · rcases hcases j k' n hj with ⟨rfl, rfl, -⟩ | ⟨-, hold⟩ <;>
      rcases hcases j' _ m hj' with ⟨rfl, hkk, -⟩ | ⟨-, hold'⟩
    · rfl
    · exact absurd (h.held _ _ _ hold') hk
    · subst hkk
      exact absurd (h.held _ _ _ hold) hk
    · exact h.apart j j' k' n m hold hold'
  · rcases hcases j k' n hj with ⟨-, rfl, rfl⟩ | ⟨-, hj⟩
    · exact h.uses_eq_zero hk
    · exact h.count j k' n hj
  · obtain ⟨hin, hle⟩ := h.bound k' n hmem
    exact ⟨List.mem_cons_of_mem _ hin, hle⟩

theorem uses_use (L : State ι κ) (i : ι) (k k' : κ) (n : ℕ) :
    (L.use i k n).uses k' = L.uses k' + if k = k' then 1 else 0 := by
  simp only [State.uses, State.use, List.countP_cons, decide_eq_true_eq]

theorem Sound.use (h : Sound L) {i : ι} {k : κ} {n : ℕ} (hi : L.live i = some (k, n)) :
    Sound (L.use i k n) := by
  have hcount := h.count i k n hi
  have hcases : ∀ j k' m, (L.use i k n).live j = some (k', m) →
      (j = i ∧ k' = k ∧ m = n + 1) ∨ (j ≠ i ∧ k' ≠ k ∧ L.live j = some (k', m)) := by
    intro j k' m hj
    by_cases hji : j = i
    · subst hji
      simp only [State.use, Function.update_self, Option.some.injEq, Prod.mk.injEq] at hj
      exact .inl ⟨rfl, hj.1.symm, hj.2.symm⟩
    · simp only [State.use, Function.update_of_ne hji] at hj
      refine .inr ⟨hji, ?_, hj⟩
      rintro rfl
      exact hji (h.apart j i k' m n hj hi)
  refine ⟨fun j k' m hj => ?_, fun j j' k' m m' hj hj' => ?_, fun j k' m hj => ?_,
    fun k' m hmem => ?_, ?_⟩
  · rcases hcases j k' m hj with ⟨-, rfl, -⟩ | ⟨-, -, hj⟩
    · exact h.held i _ n hi
    · exact h.held j k' m hj
  · rcases hcases j k' m hj with ⟨rfl, rfl, -⟩ | ⟨-, hne, hold⟩ <;>
      rcases hcases j' _ m' hj' with ⟨rfl, hkk, -⟩ | ⟨-, hne', hold'⟩
    · rfl
    · exact absurd rfl hne'
    · exact absurd hkk hne
    · exact h.apart j j' k' m m' hold hold'
  · rw [uses_use]
    rcases hcases j k' m hj with ⟨-, rfl, rfl⟩ | ⟨-, hne, hj⟩
    · simp [hcount]
    · simp [Ne.symm hne, h.count j k' m hj]
  · rw [uses_use]
    rcases List.mem_cons.mp hmem with heq | hmem
    · obtain ⟨rfl, rfl⟩ := Prod.mk.inj heq
      exact ⟨h.held i _ n hi, by simp [hcount]⟩
    · obtain ⟨hin, hle⟩ := h.bound k' m hmem
      exact ⟨hin, Nat.le_add_right_of_le hle⟩
  · refine List.nodup_cons.mpr ⟨fun hmem => ?_, h.nodup⟩
    have := (h.bound k (n + 1) hmem).2
    omega

theorem Step.sound (h : Step L L') (hs : Sound L) : Sound L' := by
  cases h with
  | install i hk => exact hs.install i hk
  | use hi => exact hs.use hi

theorem Steps.sound (h : Steps L L') (hs : Sound L) : Sound L' := by
  induction h with
  | refl => exact hs
  | tail _ hstep ih => exact hstep.sound ih

end Ledger
