import LockGrid.Inflation

/-!
# Distances to the sinks that are there

Each node picks its distance anew from what it has last heard of the others, in any order. What
can be said of all distances after `n` rounds, and is handed on from what is heard to what is
picked, can be said after `n + 1`: wherever the distances started, and however stale the news was.
-/
namespace DistanceVector

variable {ι κ : Type*}

/-- Where the links lead, and which distance a node may pick from what it has heard on them. -/
structure Web (ι κ : Type*) where
  links : ι → Set κ
  peer : ι → κ → ι
  picks : ι → (κ → ℕ∞) → ℕ∞ → Prop

namespace Web

/-- A node hears the distance of the one at the other end of a link, or picks its own anew. -/
inductive Step (W : Web ι κ) : State ι κ → Act ι κ → State ι κ → Prop
  | hear {s t : State ι κ} (x : ι) (k : κ) (hdist : t.dist = s.dist)
    (hheard : t.heard x k = s.dist (W.peer x k))
    (hother : ∀ x' k', (x', k') ≠ (x, k) → t.heard x' k' = s.heard x' k') :
    Step W s (.hear x k (W.peer x k)) t
  | choose {s t : State ι κ} (x : ι) (hheard : t.heard = s.heard)
    (hother : ∀ x', x' ≠ x → t.dist x' = s.dist x') (hnew : W.picks x (s.heard x) (t.dist x)) :
    Step W s (.choose x) t

inductive Run (W : Web ι κ) : State ι κ → List (Act ι κ) → State ι κ → Prop
  | nil (s : State ι κ) : Run W s [] s
  | cons {s t u : State ι κ} {a : Act ι κ} {l : List (Act ι κ)} (hstep : W.Step s a t)
    (hrun : Run W t l u) : Run W s (a :: l) u

/-- Rounds in each of which every node hears all its links and then picks. -/
inductive Rounds (W : Web ι κ) : ℕ → State ι κ → State ι κ → Prop
  | zero (s : State ι κ) : Rounds W 0 s s
  | succ {n : ℕ} {s t u : State ι κ} {l : List (Act ι κ)} (hrounds : Rounds W n s t)
    (hrun : W.Run t l u) (hdone : ∀ x, Done W.links l x) : Rounds W (n + 1) s u

/-- What is said after `n` rounds, ever more, holds of what is picked from news it holds of. -/
structure Nested (W : Web ι κ) (P : ℕ → ι → ℕ∞ → Prop) : Prop where
  zero : ∀ x d, P 0 x d
  mono : ∀ n x d, P (n + 1) x d → P n x d
  next : ∀ n x heard d, (∀ k ∈ W.links x, P n (W.peer x k) (heard k)) → W.picks x heard d →
    P (n + 1) x d

/-- It holds of all distances after `n` rounds, and after one less of all that was heard. -/
structure Holds (W : Web ι κ) (P : ℕ → ι → ℕ∞ → Prop) (n : ℕ) (s : State ι κ) : Prop where
  dist : ∀ x, P n x (s.dist x)
  heard : ∀ x, ∀ k ∈ W.links x, P (n - 1) (W.peer x k) (s.heard x k)

variable {W : Web ι κ} {P : ℕ → ι → ℕ∞ → Prop} {n : ℕ} {s t u : State ι κ} {a : Act ι κ}
  {l l₁ l₂ : List (Act ι κ)} {x : ι} {k : κ}

theorem run_append : W.Run s (l₁ ++ l₂) u ↔ ∃ t, W.Run s l₁ t ∧ W.Run t l₂ u := by
  induction l₁ generalizing s with
  | nil =>
    constructor
    · intro h
      exact ⟨s, .nil s, h⟩
    · rintro ⟨t, h, h'⟩
      cases h
      exact h'
  | cons a l₁ ih =>
    constructor
    · intro h
      cases h with
      | cons hstep hrun =>
        obtain ⟨t, h₁, h₂⟩ := ih.mp hrun
        exact ⟨t, .cons hstep h₁, h₂⟩
    · rintro ⟨t, h, h'⟩
      cases h with
      | cons hstep hrun => exact .cons hstep (ih.mpr ⟨t, hrun, h'⟩)

/-! ## What a step keeps -/

theorem Nested.pred (hP : W.Nested P) {d : ℕ∞} (h : P n x d) : P (n - 1) x d := by
  cases n with
  | zero => exact h
  | succ n => exact hP.mono n x d h

theorem Step.holds (hP : W.Nested P) (h : W.Step s a t) (hs : W.Holds P n s) :
    W.Holds P n t := by
  cases h with
  | hear x k hdist hheard hother =>
    refine ⟨fun x' => hdist ▸ hs.dist x', ?_⟩
    intro x' k' hk'
    by_cases he : (x', k') = (x, k)
    · cases he
      rw [hheard]
      exact hP.pred (hs.dist _)
    · rw [hother x' k' he]
      exact hs.heard x' k' hk'
  | choose x hheard hother hnew =>
    refine ⟨?_, fun x' k' hk' => hheard ▸ hs.heard x' k' hk'⟩
    intro x'
    by_cases he : x' = x
    · subst he
      cases n with
      | zero => exact hP.zero _ _
      | succ n => exact hP.next n x' (s.heard x') _ (hs.heard x') hnew
    · rw [hother x' he]
      exact hs.dist x'

theorem Run.holds (hP : W.Nested P) (h : W.Run s l t) (hs : W.Holds P n s) : W.Holds P n t := by
  induction h with
  | nil => exact hs
  | cons hstep _ ih => exact ih (hstep.holds hP hs)

/-- What is heard in this round is a distance of this round, and stays so. -/
theorem Step.heard_holds (h : W.Step s a t) (hs : W.Holds P n s)
    (hk : P n (W.peer x k) (s.heard x k) ∨ ∃ y, a = .hear x k y) :
    P n (W.peer x k) (t.heard x k) := by
  cases h with
  | hear x' k' hdist hheard hother =>
    by_cases he : (x, k) = (x', k')
    · cases he
      rw [hheard]
      exact hs.dist _
    · rw [hother x k he]
      rcases hk with hk | ⟨y, hy⟩
      · exact hk
      · cases hy
        exact absurd rfl he
  | choose x' hheard hother hnew =>
    rw [hheard]
    rcases hk with hk | ⟨y, hy⟩
    · exact hk
    · cases hy

theorem Run.heard_holds (hP : W.Nested P) (h : W.Run s l t) (hs : W.Holds P n s)
    (hk : P n (W.peer x k) (s.heard x k) ∨ ∃ y, Act.hear x k y ∈ l) :
    P n (W.peer x k) (t.heard x k) := by
  induction h with
  | nil =>
    rcases hk with hk | ⟨y, hy⟩
    · exact hk
    · cases hy
  | cons hstep _ ih =>
    apply ih (hstep.holds hP hs)
    rcases hk with hk | ⟨y, hy⟩
    · exact .inl (hstep.heard_holds hs (.inl hk))
    · rcases List.mem_cons.mp hy with he | hmem
      · exact .inl (hstep.heard_holds hs (.inr ⟨y, he.symm⟩))
      · exact .inr ⟨y, hmem⟩

/-- A distance picked from the news of this round is one of the next. -/
theorem Step.dist_holds (hP : W.Nested P) (h : W.Step s a t)
    (hall : ∀ k ∈ W.links x, P n (W.peer x k) (s.heard x k))
    (hx : P (n + 1) x (s.dist x) ∨ a = .choose x) : P (n + 1) x (t.dist x) := by
  cases h with
  | hear x' k' hdist hheard hother =>
    rw [hdist]
    rcases hx with hx | hx
    · exact hx
    · cases hx
  | choose x' hheard hother hnew =>
    by_cases he : x = x'
    · subst he
      exact hP.next n x (s.heard x) _ hall hnew
    · rw [hother x he]
      rcases hx with hx | hx
      · exact hx
      · cases hx
        exact absurd rfl he

theorem Run.dist_holds (hP : W.Nested P) (h : W.Run s l t) (hs : W.Holds P n s)
    (hall : ∀ k ∈ W.links x, P n (W.peer x k) (s.heard x k)) (hx : P (n + 1) x (s.dist x)) :
    P (n + 1) x (t.dist x) := by
  induction h with
  | nil => exact hx
  | cons hstep _ ih =>
    have hall' := fun k hk => hstep.heard_holds (x := x) (k := k) hs (.inl (hall k hk))
    exact ih (hstep.holds hP hs) hall' (hstep.dist_holds hP hall (.inl hx))

/-! ## What a round adds -/

theorem Run.done (hP : W.Nested P) (h : W.Run s l t) (hs : W.Holds P n s)
    (hd : Done W.links l x) : P (n + 1) x (t.dist x) := by
  obtain ⟨l₁, l₂, rfl, hall⟩ := hd
  obtain ⟨m, hrun₁, hrun₂⟩ := run_append.mp h
  have hm := hrun₁.holds hP hs
  have hheard : ∀ k ∈ W.links x, P n (W.peer x k) (m.heard x k) :=
    fun k hk => hrun₁.heard_holds hP hs (.inr (hall k hk))
  cases hrun₂ with
  | cons hstep hrest =>
    have hheard' := fun k hk => hstep.heard_holds (x := x) (k := k) hm (.inl (hheard k hk))
    have hpicked := hstep.dist_holds hP hheard (.inr rfl)
    exact hrest.dist_holds hP (hstep.holds hP hm) hheard' hpicked

theorem Run.round (hP : W.Nested P) (h : W.Run s l t) (hs : W.Holds P n s)
    (hd : ∀ x, Done W.links l x) : W.Holds P (n + 1) t where
  dist x := h.done hP hs (hd x)
  heard x k hk := h.heard_holds hP hs (.inr ((hd x).heard k hk))

/-- From any distances at all, `n` rounds lead to what is said of `n`. -/
theorem Rounds.holds (hP : W.Nested P) (h : W.Rounds n s t) : W.Holds P n t := by
  induction h with
  | zero s => exact ⟨fun x => hP.zero x _, fun x k _ => hP.zero _ _⟩
  | succ _ hrun hdone ih => exact hrun.round hP ih hdone

end Web

/-! ## Paths to a sink -/

/-- Links whose weights are between two bounds, some of the nodes being sinks; distances from
`cap` on are none. -/
structure Grid (ι κ : Type*) where
  links : ι → Set κ
  peer : ι → κ → ι
  sinks : Set ι
  lo : ι → κ → ℕ∞
  hi : ι → κ → ℕ∞
  cap : ℕ∞

namespace Grid

/-- A sink is at no distance from itself. Any other node picks no distance, or one below the cap
that some link accounts for; and none that is longer than a link offers below the cap. -/
def Picks (G : Grid ι κ) (x : ι) (heard : κ → ℕ∞) (d : ℕ∞) : Prop :=
  (x ∈ G.sinks → d = 0) ∧
    (x ∉ G.sinks → (d = ⊤ ∨ d < G.cap ∧ ∃ k ∈ G.links x, heard k + G.lo x k ≤ d) ∧
      ∀ k ∈ G.links x, heard k + G.hi x k < G.cap → d ≤ heard k + G.hi x k)

def web (G : Grid ι κ) : Web ι κ where
  links := G.links
  peer := G.peer
  picks := G.Picks

/-- A path of `n` links to a sink, as long as their weights together. -/
inductive Path (G : Grid ι κ) (weight : ι → κ → ℕ∞) : ℕ → ι → ℕ∞ → Prop
  | sink {x : ι} (hx : x ∈ G.sinks) : Path G weight 0 x 0
  | hop {n : ℕ} {x : ι} {k : κ} {d : ℕ∞} (hk : k ∈ G.links x)
    (hrest : Path G weight n (G.peer x k) d) : Path G weight (n + 1) x (d + weight x k)

/-- None, or as long as some path; or below the cap, and then it has risen `n` times. -/
def Above (G : Grid ι κ) (w : ℕ∞) (n : ℕ) (x : ι) (d : ℕ∞) : Prop :=
  n = 0 ∨ d = ⊤ ∨ d < G.cap ∧ n * w ≤ d ∨ ∃ m e, G.Path G.lo m x e ∧ e ≤ d

/-- Not longer than any path of fewer than `n` links. -/
def Below (G : Grid ι κ) (n : ℕ) (x : ι) (d : ℕ∞) : Prop :=
  ∀ m < n, ∀ e, G.Path G.hi m x e → e < G.cap → d ≤ e

variable {G : Grid ι κ} {w : ℕ∞} {n : ℕ} {x : ι} {d : ℕ∞}

theorem Above.mono (h : G.Above w (n + 1) x d) : G.Above w n x d := by
  rcases h with hzero | htop | ⟨hcap, hle⟩ | hpath
  · omega
  · exact .inr (.inl htop)
  · have hrise : (n : ℕ∞) * w ≤ (n + 1 : ℕ) * w := by
      gcongr
      simp
    exact .inr (.inr (.inl ⟨hcap, hrise.trans hle⟩))
  · exact .inr (.inr (.inr hpath))

/-- A link adds at least `w` to what is heard on it. -/
theorem Above.hop {k : κ} {e : ℕ∞} (hk : k ∈ G.links x) (hw : w ≤ G.lo x k)
    (h : G.Above w n (G.peer x k) e) (hcap : d < G.cap) (hle : e + G.lo x k ≤ d) :
    G.Above w (n + 1) x d := by
  have hstep : (n : ℕ∞) * w ≤ e → ((n + 1 : ℕ) : ℕ∞) * w ≤ d := by
    intro hlong
    calc ((n + 1 : ℕ) : ℕ∞) * w = n * w + w := by push_cast; rw [add_one_mul]
      _ ≤ e + G.lo x k := add_le_add hlong hw
      _ ≤ d := hle
  rcases h with rfl | rfl | ⟨-, hlong⟩ | ⟨m, e', hpath, he⟩
  · exact .inr (.inr (.inl ⟨hcap, hstep (by simp)⟩))
  · exact .inr (.inr (.inl ⟨hcap, hstep le_top⟩))
  · exact .inr (.inr (.inl ⟨hcap, hstep hlong⟩))
  · have hsum : e' + G.lo x k ≤ e + G.lo x k := add_le_add_left he _
    exact .inr (.inr (.inr ⟨m + 1, e' + G.lo x k, .hop hk hpath, hsum.trans hle⟩))

theorem nested_above (hw : ∀ x, ∀ k ∈ G.links x, w ≤ G.lo x k) : G.web.Nested (G.Above w) where
  zero x d := .inl rfl
  mono n x d h := h.mono
  next n x heard d hall hpick := by
    by_cases hx : x ∈ G.sinks
    · exact .inr (.inr (.inr ⟨0, 0, .sink hx, zero_le⟩))
    · rcases (hpick.2 hx).1 with htop | ⟨hcap, k, hk, hle⟩
      · exact .inr (.inl htop)
      · exact (hall k hk).hop hk (hw x k hk) hcap hle

theorem nested_below : G.web.Nested G.Below where
  zero x d m hm := absurd hm (Nat.not_lt_zero m)
  mono n x d h m hm := h m (Nat.lt_succ_of_lt hm)
  next n x heard d hall hpick := by
    intro m hm e hpath hcap
    by_cases hx : x ∈ G.sinks
    · rw [hpick.1 hx]
      exact zero_le
    · cases hpath with
      | sink hs => exact absurd hs hx
      | hop hk hrest =>
        rename_i m k e
        have he : e < G.cap := lt_of_le_of_lt le_self_add hcap
        have hheard : heard k ≤ e := hall k hk m (by omega) e hrest he
        have hsum : heard k + G.hi x k ≤ e + G.hi x k := add_le_add_left hheard _
        exact ((hpick.2 hx).2 k hk (hsum.trans_lt hcap)).trans hsum

/-- After `n` rounds every distance is the length of a path or has risen `n` times, and it is no
longer than any path of fewer than `n` links. -/
theorem rounds_settle {s t : State ι κ} (hw : ∀ x, ∀ k ∈ G.links x, w ≤ G.lo x k)
    (h : G.web.Rounds n s t) (x : ι) : G.Above w n x (t.dist x) ∧ G.Below n x (t.dist x) :=
  ⟨(h.holds (nested_above hw)).dist x, (h.holds nested_below).dist x⟩

end Grid

end DistanceVector
