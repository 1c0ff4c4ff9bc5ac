import Mathlib.Data.ENat.Basic

/-!
# Distances to a sink that is not there

Nodes know a distance only from what their neighbours last told them: each takes something it has
heard and at least the weight of the link, or no distance at all. With no sink among them, a
distance can only grow, by that weight in every round in which all have heard all neighbours.
-/
namespace DistanceVector

variable {ι κ : Type*}

/-- The distance each node has, and what it has last heard on each of its links. -/
structure State (ι κ : Type*) where
  dist : ι → ℕ∞
  heard : ι → κ → ℕ∞

inductive Act (ι κ : Type*)
  | hear (x : ι) (k : κ) (y : ι)
  | choose (x : ι)

/-- A node hears the distance of another, or chooses its own anew: below the cap, if it has one. -/
inductive Step (links : ι → Set κ) (w cap : ℕ∞) : State ι κ → Act ι κ → State ι κ → Prop
  | hear {s t : State ι κ} (x : ι) (k : κ) (y : ι) (hdist : t.dist = s.dist)
    (hheard : t.heard x k = s.dist y)
    (hother : ∀ x' k', (x', k') ≠ (x, k) → t.heard x' k' = s.heard x' k') :
    Step links w cap s (.hear x k y) t
  | choose {s t : State ι κ} (x : ι) (hheard : t.heard = s.heard)
    (hother : ∀ x', x' ≠ x → t.dist x' = s.dist x')
    (hnew : t.dist x = ⊤ ∨ ∃ k ∈ links x, s.heard x k + w ≤ t.dist x ∧ t.dist x < cap) :
    Step links w cap s (.choose x) t

inductive Run (links : ι → Set κ) (w cap : ℕ∞) : State ι κ → List (Act ι κ) → State ι κ → Prop
  | nil (s : State ι κ) : Run links w cap s [] s
  | cons {s t u : State ι κ} {a : Act ι κ} {l : List (Act ι κ)}
    (hstep : Step links w cap s a t) (hrun : Run links w cap t l u) : Run links w cap s (a :: l) u

/-- In the course of `l` node `x` chooses after it has heard something on each of its links. -/
def Done (links : ι → Set κ) (l : List (Act ι κ)) (x : ι) : Prop :=
  ∃ l₁ l₂, l = l₁ ++ .choose x :: l₂ ∧ ∀ k ∈ links x, ∃ y, Act.hear x k y ∈ l₁

inductive Rounds (links : ι → Set κ) (w cap : ℕ∞) : ℕ → State ι κ → State ι κ → Prop
  | zero (s : State ι κ) : Rounds links w cap 0 s s
  | succ {n : ℕ} {s t u : State ι κ} {l : List (Act ι κ)} (hrounds : Rounds links w cap n s t)
    (hrun : Run links w cap t l u) (hdone : ∀ x, Done links l x) : Rounds links w cap (n + 1) s u

/-- No distance is below `b`, and none that was heard is below it by more than a link. -/
structure AtLeast (links : ι → Set κ) (w b : ℕ∞) (s : State ι κ) : Prop where
  dist : ∀ x, b ≤ s.dist x
  heard : ∀ x, ∀ k ∈ links x, b ≤ s.heard x k + w

variable {links : ι → Set κ} {w cap b : ℕ∞} {s t u : State ι κ} {a : Act ι κ}
  {l l₁ l₂ : List (Act ι κ)} {x : ι} {k : κ}

theorem run_append :
    Run links w cap s (l₁ ++ l₂) u ↔ ∃ t, Run links w cap s l₁ t ∧ Run links w cap t l₂ u := by
  induction l₁ generalizing s with
  | nil =>
    constructor
    · intro h
      exact ⟨s, .nil s, h⟩
    · rintro ⟨t, h, h'⟩
      cases h
      exact h'
  | cons a l₁ ih =>
    constructor
    · intro h
      cases h with
      | cons hstep hrun =>
        obtain ⟨t, h₁, h₂⟩ := ih.mp hrun
        exact ⟨t, .cons hstep h₁, h₂⟩
    · rintro ⟨t, h, h'⟩
      cases h with
      | cons hstep hrun => exact .cons hstep (ih.mpr ⟨t, hrun, h'⟩)

/-! ## What a step keeps -/

theorem Step.atLeast (h : Step links w cap s a t) (hs : AtLeast links w b s) :
    AtLeast links w b t := by
  cases h with
  | hear x k y hdist hheard hother =>
    refine ⟨fun x' => hdist ▸ hs.dist x', ?_⟩
    intro x' k' hk'
    by_cases he : (x', k') = (x, k)
    · cases he
      rw [hheard]
      exact (hs.dist y).trans le_self_add
    · rw [hother x' k' he]
      exact hs.heard x' k' hk'
  | choose x hheard hother hnew =>
    refine ⟨?_, fun x' k' hk' => hheard ▸ hs.heard x' k' hk'⟩
    intro x'
    by_cases he : x' = x
    · subst he
      rcases hnew with htop | ⟨k, hk, hle, -⟩
      · rw [htop]
        exact le_top
      · exact (hs.heard x' k hk).trans hle
    · rw [hother x' he]
      exact hs.dist x'

theorem Run.atLeast (h : Run links w cap s l t) (hs : AtLeast links w b s) :
    AtLeast links w b t := by
  induction h with
  | nil => exact hs
  | cons hstep _ ih => exact ih (hstep.atLeast hs)

/-- Whatever is heard now on a link is no less than `b`, and stays so. -/
theorem Step.heard_ge (h : Step links w cap s a t) (hs : AtLeast links w b s)
    (hk : b ≤ s.heard x k ∨ ∃ y, a = .hear x k y) : b ≤ t.heard x k := by
  cases h with
  | hear x' k' y hdist hheard hother =>
    by_cases he : (x, k) = (x', k')
    · cases he
      rw [hheard]
      exact hs.dist y
    · rw [hother x k he]
      rcases hk with hk | ⟨y', hy⟩
      · exact hk
      · cases hy
        exact absurd rfl he
  | choose x' hheard hother hnew =>
    rw [hheard]
    rcases hk with hk | ⟨y, hy⟩
    · exact hk
    · cases hy

theorem Run.heard_ge (h : Run links w cap s l t) (hs : AtLeast links w b s)
    (hk : b ≤ s.heard x k ∨ ∃ y, Act.hear x k y ∈ l) : b ≤ t.heard x k := by
  induction h with
  | nil =>
    rcases hk with hk | ⟨y, hy⟩
    · exact hk
    · cases hy
  | cons hstep _ ih =>
    apply ih (hstep.atLeast hs)
    rcases hk with hk | ⟨y, hy⟩
    · exact .inl (hstep.heard_ge hs (.inl hk))
    · rcases List.mem_cons.mp hy with he | hmem
      · exact .inl (hstep.heard_ge hs (.inr ⟨y, he.symm⟩))
      · exact .inr ⟨y, hmem⟩

/-- A choice after hearing `b` everywhere is a link above it. -/
theorem Step.dist_ge (h : Step links w cap s a t) (hall : ∀ k ∈ links x, b ≤ s.heard x k)
    (hx : b + w ≤ s.dist x ∨ a = .choose x) : b + w ≤ t.dist x := by
  cases h with
  | hear x' k' y hdist hheard hother =>
    rw [hdist]
    rcases hx with hx | hx
    · exact hx
    · cases hx
  | choose x' hheard hother hnew =>
    by_cases he : x = x'
    · subst he
      rcases hnew with htop | ⟨k, hk, hle, -⟩
      · rw [htop]
        exact le_top
      · exact (add_le_add_left (hall k hk) w).trans hle
    · rw [hother x he]
      rcases hx with hx | hx
      · exact hx
      · cases hx
        exact absurd rfl he

theorem Run.dist_ge (h : Run links w cap s l t) (hs : AtLeast links w b s)
    (hall : ∀ k ∈ links x, b ≤ s.heard x k) (hx : b + w ≤ s.dist x) : b + w ≤ t.dist x := by
  induction h with
  | nil => exact hx
  | cons hstep _ ih =>
    have hall' := fun k hk => hstep.heard_ge hs (.inl (hall k hk))
    exact ih (hstep.atLeast hs) hall' (hstep.dist_ge hall (.inl hx))

theorem Step.capped (h : Step links w cap s a t)
    (hx : (s.dist x = ⊤ ∨ s.dist x < cap) ∨ a = .choose x) : t.dist x = ⊤ ∨ t.dist x < cap := by
  cases h with
  | hear x' k' y hdist hheard hother =>
    rw [hdist]
    rcases hx with hx | hx
    · exact hx
    · cases hx
  | choose x' hheard hother hnew =>
    by_cases he : x = x'
    · subst he
      exact hnew.imp_right fun ⟨_, _, _, hlt⟩ => hlt
    · rw [hother x he]
      rcases hx with hx | hx
      · exact hx
      · cases hx
        exact absurd rfl he

theorem Run.capped (h : Run links w cap s l t) (hx : s.dist x = ⊤ ∨ s.dist x < cap) :
    t.dist x = ⊤ ∨ t.dist x < cap := by
  induction h with
  | nil => exact hx
  | cons hstep _ ih => exact ih (hstep.capped (.inl hx))

/-! ## What a round adds -/

theorem Done.heard (h : Done links l x) : ∀ k ∈ links x, ∃ y, Act.hear x k y ∈ l := by
  obtain ⟨l₁, l₂, rfl, hall⟩ := h
  intro k hk
  obtain ⟨y, hy⟩ := hall k hk
  exact ⟨y, List.mem_append_left _ hy⟩

/-- The node has risen by a link, and what it has is below the cap. -/
theorem Done.dist (hd : Done links l x) (h : Run links w cap s l t) (hs : AtLeast links w b s) :
    b + w ≤ t.dist x ∧ (t.dist x = ⊤ ∨ t.dist x < cap) := by
  obtain ⟨l₁, l₂, rfl, hall⟩ := hd
  obtain ⟨m, hrun₁, hrun₂⟩ := run_append.mp h
  have hm := hrun₁.atLeast hs
  have hheard : ∀ k ∈ links x, b ≤ m.heard x k := fun k hk => hrun₁.heard_ge hs (.inr (hall k hk))
  cases hrun₂ with
  | cons hstep hrest =>
    have hheard' := fun k hk => hstep.heard_ge hm (.inl (hheard k hk))
    constructor
    · exact hrest.dist_ge (hstep.atLeast hm) hheard' (hstep.dist_ge hheard (.inr rfl))
    · exact hrest.capped (hstep.capped (.inr rfl))

theorem Run.round (h : Run links w cap s l t) (hs : AtLeast links w b s)
    (hd : ∀ x, Done links l x) : AtLeast links w (b + w) t := by
  refine ⟨fun x => ((hd x).dist h hs).1, ?_⟩
  intro x k hk
  have hheard : b ≤ t.heard x k := h.heard_ge hs (.inr ((hd x).heard k hk))
  exact add_le_add_left hheard w

/-- After `n` rounds no distance is below `n` links. -/
theorem Rounds.atLeast {n : ℕ} (h : Rounds links w cap n s t) : AtLeast links w (n * w) t := by
  induction h with
  | zero s => exact ⟨fun x => by simp, fun x k _ => by simp⟩
  | succ _ hrun hdone ih =>
    have hnext := hrun.round ih hdone
    rwa [← add_one_mul, ← Nat.cast_succ] at hnext

/-- Once the rounds reach the cap, there are no distances left. -/
theorem Rounds.dist_top {n : ℕ} (h : Rounds links w cap n s t) (hn : 0 < n)
    (hcap : cap ≤ n * w) (x : ι) : t.dist x = ⊤ := by
  have hge := h.atLeast.dist x
  cases h with
  | zero => omega
  | succ hrounds hrun hdone =>
    rcases ((hdone x).dist hrun hrounds.atLeast).2 with htop | hlt
    · exact htop
    · exact absurd hlt (not_lt.mpr (hcap.trans hge))

end DistanceVector
