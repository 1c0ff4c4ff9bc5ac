import LockGrid.Contest
import LockGrid.Sched

/-!
# Which candidate gets the radio

`select_candidate` begins with the earliest candidate and lets a higher class take its place if
it starts within the contention window of the best so far.
-/
namespace LockGrid

variable {cfg : Config}

/-- Of the candidates that start within the contention window of the earliest, of the highest
class, and the earliest of that class. -/
def Prevails (l : List (Candidate cfg)) (x : Candidate cfg) : Prop :=
  Contest.Wins Candidate.anchorUs Candidate.prio schedContendUs l x

/-- A chain that begins with the earliest candidate, where each starts within the contention
window of the one before and is of a higher class, ends in no higher class than a candidate that
contends with the earliest. -/
def ChainsContained (l : List (Candidate cfg)) : Prop :=
  Contest.Contained Candidate.anchorUs Candidate.prio schedContendUs l

theorem selectCandidate_eq_winner (l : List (Candidate cfg)) :
    selectCandidate l = Contest.winner Candidate.anchorUs Candidate.prio schedContendUs l := by
  rw [selectCandidate, Contest.winner,
    Contest.foldl_eq_first _ (fun _ => rfl) (fun _ _ => rfl)]
  cases Contest.first Candidate.anchorUs l with
  | none => rfl
  | some e => rfl

/-- The earliest of the highest class in the contention window is selected, in whatever order the
candidates are listed, exactly if the chains from the earliest are contained. -/
theorem selectCandidate_eq_prevails (l : List (Candidate cfg))
    (hl : (l.map Candidate.anchorUs).Nodup) :
    (∀ l', l'.Perm l → ∀ x, selectCandidate l' = some x ↔ Prevails l x) ↔ ChainsContained l := by
  simp only [selectCandidate_eq_winner]
  exact Contest.winner_iff fun a ha b hb hab => List.inj_on_of_nodup_map hl ha hb hab

/-- A scan, a link event and a handshake slot. -/
def contenders : List (Candidate .default) :=
  [⟨.link, 40000, some ⟨0, Config.default_neighbors⟩, prioNormal⟩,
    ⟨.joinTx, 80000, some ⟨1, Config.default_neighbors_two⟩, prioHandshake⟩,
    ⟨.scan, 0, none, prioScan⟩]

theorem selectCandidate_eq_prevails_contenders :
    (contenders.map Candidate.anchorUs).Nodup ∧
      ((∀ l', l'.Perm contenders → ∀ x, selectCandidate l' = some x ↔ Prevails contenders x) ↔
        ChainsContained contenders) :=
  ⟨by decide, selectCandidate_eq_prevails contenders (by decide)⟩

/-- The link event takes the place of the scan, and the slot that of the link event. -/
theorem not_selectCandidate_contenders :
    ¬ ∀ l : List (Candidate {}), (l.map Candidate.anchorUs).Nodup →
      ∀ l', l'.Perm l → ∀ x, selectCandidate l' = some x ↔ Prevails l x := by
  intro h
  have hslot : selectCandidate contenders =
      some ⟨.joinTx, 80000, some ⟨1, Config.default_neighbors_two⟩, prioHandshake⟩ := by
    decide
  have hwins := (h contenders (by decide) contenders (.refl _) _).mp hslot
  have hscan : (⟨.scan, 0, none, prioScan⟩ : Candidate .default) ∈ contenders := by decide
  have hlate := hwins.within _ hscan
  exact absurd hlate (by decide)

end LockGrid
