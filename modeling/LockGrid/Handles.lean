import Mathlib.Data.List.Infix
import Mathlib.Data.List.Nodup
import Mathlib.Data.Set.Insert
import Mathlib.Logic.Function.Basic
import Mathlib.Logic.Relation

/-!
# Handles in slots

A table of slots, each of which may hold the handle of something that lives elsewhere. A slot
gives its handle up by destroying what is behind it; a slot that is overwritten loses it. What
lives is what the slots hold and what was lost, so nothing leaks as long as nothing is lost.
-/
namespace Handles

variable {ι κ : Type*}

structure State (ι κ : Type*) where
  held : ι → Option κ
  /-- What was made and not destroyed. -/
  live : List κ
  /-- What slots held when they were overwritten. -/
  lost : List κ
  made : Set κ

structure Sound (S : State ι κ) : Prop where
  /-- No two slots hold the same handle. -/
  apart : ∀ i j k, S.held i = some k → S.held j = some k → i = j
  nodup : S.live.Nodup
  made : ∀ k ∈ S.live, k ∈ S.made
  live : ∀ k, k ∈ S.live ↔ (∃ i, S.held i = some k) ∨ k ∈ S.lost
  gone : ∀ i k, S.held i = some k → k ∉ S.lost

/-- Every handle that lives is in a slot. -/
def Exact (S : State ι κ) : Prop := ∀ k, k ∈ S.live ↔ ∃ i, S.held i = some k

/-- Nothing has leaked if and only if nothing was lost. -/
theorem Sound.exact_iff {S : State ι κ} (h : Sound S) : Exact S ↔ S.lost = [] := by
  constructor
  · intro hexact
    rw [List.eq_nil_iff_forall_not_mem]
    intro k hk
    obtain ⟨i, hi⟩ := (hexact k).mp ((h.live k).mpr (.inr hk))
    exact h.gone i k hi hk
  · intro hlost k
    simpa [hlost] using h.live k

theorem sound_empty : Sound ({ held := fun _ => none, live := [], lost := [], made := ∅ } :
    State ι κ) := by
  constructor <;> simp

variable [DecidableEq ι]

namespace State

/-- Slot `i` is overwritten. -/
def lose (S : State ι κ) (i : ι) : State ι κ :=
  { S with held := Function.update S.held i none, lost := (S.held i).toList ++ S.lost }

/-- Something new is made for slot `i`. -/
def put (S : State ι κ) (i : ι) (k : κ) : State ι κ :=
  { S with
    held := Function.update S.held i (some k), live := k :: S.live, made := insert k S.made }

variable [DecidableEq κ]

def drop (S : State ι κ) (i : ι) : State ι κ :=
  { S with
    held := Function.update S.held i none
    live := (S.held i).elim S.live S.live.erase }

end State

variable {S S' : State ι κ}

theorem update_none {i : ι} (h : S.held i = none) : Function.update S.held i none = S.held := by
  rw [← h, Function.update_eq_self]

theorem held_update_none {i j : ι} {k : κ}
    (h : Function.update S.held i none j = some k) : j ≠ i ∧ S.held j = some k := by
  by_cases hji : j = i
  · subst hji
    simp at h
  · exact ⟨hji, by simpa [hji] using h⟩

/-- What the other slots hold when slot `i` holds `k`. -/
theorem Sound.others (h : Sound S) {i : ι} {k m : κ} (hi : S.held i = some k) :
    (∃ j, Function.update S.held i none j = some m) ↔ m ≠ k ∧ ∃ j, S.held j = some m := by
  constructor
  · rintro ⟨j, hj⟩
    obtain ⟨hji, hj⟩ := held_update_none hj
    refine ⟨?_, j, hj⟩
    rintro rfl
    exact hji (h.apart j i m hj hi)
  · rintro ⟨hk, j, hj⟩
    have hji : j ≠ i := by
      rintro rfl
      rw [hi] at hj
      exact hk (Option.some.inj hj).symm
    exact ⟨j, by simpa [hji] using hj⟩

theorem Sound.lose (h : Sound S) (i : ι) : Sound (S.lose i) := by
  have happart : ∀ j j' k, (S.lose i).held j = some k → (S.lose i).held j' = some k → j = j' :=
    fun j j' k hj hj' => h.apart j j' k (held_update_none hj).2 (held_update_none hj').2
  cases hi : S.held i with
  | none =>
    have hsame : S.lose i = S := by simp [State.lose, hi, update_none hi]
    rwa [hsame]
  | some k =>
    refine ⟨happart, h.nodup, h.made, fun k' => ?_, fun j k' hj => ?_⟩
    · have hothers := h.others (m := k') hi
      have hlive := h.live k'
      by_cases hk : k' = k
      · subst hk
        simpa [State.lose, hi] using hlive.mpr (.inl ⟨i, hi⟩)
      · simp only [State.lose, hi, hothers, hlive]
        simp [hk]
    · obtain ⟨hji, hj⟩ := held_update_none hj
      simp only [State.lose, hi, Option.toList_some, List.singleton_append, List.mem_cons, not_or]
      refine ⟨?_, h.gone j k' hj⟩
      rintro rfl
      exact hji (h.apart j i k' hj hi)

theorem Sound.put (h : Sound S) {i : ι} {k : κ} (hi : S.held i = none) (hk : k ∉ S.made) :
    Sound (S.put i k) := by
  have hfresh : k ∉ S.live := fun hmem => hk (h.made k hmem)
  have hcases : ∀ j k', (S.put i k).held j = some k' →
      j = i ∧ k' = k ∨ j ≠ i ∧ S.held j = some k' := by
    intro j k' hj
    by_cases hji : j = i
    · subst hji
      simp only [State.put, Function.update_self, Option.some.injEq] at hj
      exact .inl ⟨rfl, hj.symm⟩
    · simp only [State.put, Function.update_of_ne hji] at hj
      exact .inr ⟨hji, hj⟩
  have hnew : ∀ j, S.held j ≠ some k := fun j hj => hfresh ((h.live k).mpr (.inl ⟨j, hj⟩))
  refine ⟨fun j j' k' hj hj' => ?_, List.nodup_cons.mpr ⟨hfresh, h.nodup⟩, fun k' hk' => ?_,
    fun k' => ?_, fun j k' hj => ?_⟩
  · rcases hcases j k' hj with ⟨rfl, rfl⟩ | ⟨-, hold⟩ <;>
      rcases hcases j' _ hj' with ⟨rfl, hkk⟩ | ⟨-, hold'⟩
    · rfl
    · exact absurd hold' (hnew j')
    · subst hkk
      exact absurd hold (hnew j)
    · exact h.apart j j' k' hold hold'
  · rcases List.mem_cons.mp hk' with rfl | hold
    · exact .inl rfl
    · exact .inr (h.made k' hold)
  · simp only [State.put, List.mem_cons, h.live k', ← or_assoc]
    refine or_congr_left ⟨?_, ?_⟩
    · rintro (rfl | ⟨j, hj⟩)
      · exact ⟨i, Function.update_self ..⟩
      · have hji : j ≠ i := by
          rintro rfl
          simp [hi] at hj
        exact ⟨j, by rwa [Function.update_of_ne hji]⟩
    · rintro ⟨j, hj⟩
      rcases hcases j k' hj with ⟨-, rfl⟩ | ⟨-, hold⟩
      · exact .inl rfl
      · exact .inr ⟨j, hold⟩
  · rcases hcases j k' hj with ⟨-, rfl⟩ | ⟨-, hold⟩
    · exact fun hmem => hfresh ((h.live k').mpr (.inr hmem))
    · exact h.gone j k' hold

variable [DecidableEq κ]

theorem Sound.drop (h : Sound S) (i : ι) : Sound (S.drop i) := by
  have happart : ∀ j j' k, (S.drop i).held j = some k → (S.drop i).held j' = some k → j = j' :=
    fun j j' k hj hj' => h.apart j j' k (held_update_none hj).2 (held_update_none hj').2
  cases hi : S.held i with
  | none =>
    have hsame : S.drop i = S := by simp [State.drop, hi, update_none hi]
    rwa [hsame]
  | some k =>
    have herase : ∀ k', k' ∈ (S.drop i).live ↔ k' ≠ k ∧ k' ∈ S.live := by
      intro k'
      simpa [State.drop, hi] using h.nodup.mem_erase_iff
    refine ⟨happart, ?_, fun k' hk' => h.made k' ((herase k').mp hk').2, fun k' => ?_,
      fun j k' hj => h.gone j k' (held_update_none hj).2⟩
    · simpa [State.drop, hi] using h.nodup.erase k
    · have hlost : k' ∈ S.lost → k' ≠ k := by
        rintro hmem rfl
        exact h.gone i k' hi hmem
      rw [herase, h.live, State.drop, h.others hi]
      tauto

/-- A slot gives up what it holds, gets something new, or is overwritten. -/
inductive Step : State ι κ → State ι κ → Prop
  | drop (S : State ι κ) (i : ι) : Step S (S.drop i)
  | make (S : State ι κ) (i : ι) {k : κ} (h : k ∉ S.made) : Step S ((S.drop i).put i k)
  | lose (S : State ι κ) (i : ι) : Step S (S.lose i)

abbrev Steps : State ι κ → State ι κ → Prop := Relation.ReflTransGen Step

theorem Step.sound (h : Step S S') (hs : Sound S) : Sound S' := by
  cases h with
  | drop i => exact hs.drop i
  | make i hk => exact (hs.drop i).put (Function.update_self ..) hk
  | lose i => exact hs.lose i

theorem Steps.sound (h : Steps S S') (hs : Sound S) : Sound S' := by
  induction h with
  | refl => exact hs
  | tail _ hstep ih => exact hstep.sound ih

/-- What was lost stays lost. -/
theorem Step.lost_suffix (h : Step S S') : S.lost <:+ S'.lost := by
  cases h with
  | drop => exact List.suffix_rfl
  | make => exact List.suffix_rfl
  | lose => exact List.suffix_append _ _

theorem Steps.lost_suffix (h : Steps S S') : S.lost <:+ S'.lost := by
  induction h with
  | refl => exact List.suffix_rfl
  | tail _ hstep ih => exact ih.trans hstep.lost_suffix

end Handles
