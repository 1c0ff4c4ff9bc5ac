import LockGrid.Plain
import LockGrid.Selection
import Mathlib.Data.Prod.Lex

/-!
# The rank and the uplink

Which neighbours `lg_route_recompute` keeps as parents, which of them it takes its rank from,
and when that is the one `lg_parent` then forwards to.
-/
namespace LockGrid

variable {cfg : Config}

/-! ## The parents that are kept -/

/-- A linked neighbour with a path to a backhaul, whose own rank is below the one it offers. -/
def Eligible (c : Node cfg) (i : Fin cfg.maxNeighbors) : Prop :=
  rankThrough c i < rankInfinite ∧ (c.view i).peerRank < rankThrough c i

instance (c : Node cfg) : DecidablePred (Eligible c) := fun _ => instDecidableAnd

/-- Cheaper, or as cheap and earlier in the table. -/
def Before (c : Node cfg) (j i : Fin cfg.maxNeighbors) : Prop :=
  rankThrough c j < rankThrough c i ∨ rankThrough c j = rankThrough c i ∧ j < i

instance (c : Node cfg) : DecidableRel (Before c) := fun _ _ => instDecidableOr

/-- Fewer eligible neighbours are before it than parents can be kept. -/
def Kept (c : Node cfg) (i : Fin cfg.maxNeighbors) : Prop :=
  Eligible c i ∧
    ((List.finRange cfg.maxNeighbors).filter fun j => Eligible c j ∧ Before c j i).length <
      cfg.maxParents

instance (c : Node cfg) : DecidablePred (Kept c) := fun _ => instDecidableAnd

def Cheapest (c : Node cfg) (i : Fin cfg.maxNeighbors) : Prop :=
  Eligible c i ∧ ∀ j, Eligible c j → ¬ Before c j i

instance (c : Node cfg) : DecidablePred (Cheapest c) := fun i => by
  unfold Cheapest
  infer_instance

/-- The neighbour forwarded to so far stays, not clearly beaten by another that is cheapest. -/
def Stays (c : Node cfg) (i : Fin cfg.maxNeighbors) : Prop :=
  lgNeighFind c (lgParent c) = some i ∧ Kept c i ∧
    ∃ b, Cheapest c b ∧ (c.neigh b).addr ≠ lgParent c ∧
      rankThrough c i ≤ rankThrough c b + rankHysteresis

instance (c : Node cfg) : DecidablePred (Stays c) := fun i => by
  unfold Stays
  infer_instance

/-- The neighbour the rank is taken from. -/
def Chosen (c : Node cfg) (i : Fin cfg.maxNeighbors) : Prop :=
  Stays c i ∨ Kept c i ∧ Cheapest c i ∧ ∀ j, ¬ Stays c j

instance (c : Node cfg) : DecidablePred (Chosen c) := fun i => by
  unfold Chosen
  infer_instance

/-- The kept neighbour that stands first in the table. -/
def First (c : Node cfg) (i : Fin cfg.maxNeighbors) : Prop :=
  Kept c i ∧ ∀ j, j < i → ¬ Kept c j

instance (c : Node cfg) : DecidablePred (First c) := fun i => by
  unfold First
  infer_instance

/-! ## What the insertion sort leaves -/

theorem insertParent_eq (k cost : ℕ) (i : Fin cfg.maxNeighbors)
    (l : List (ℕ × Fin cfg.maxNeighbors)) (hl : ∀ e ∈ l, e.2 < i) :
    (insertParent k cost i l).map toLex =
      Selection.insertLeast k (toLex (cost, i)) (l.map toLex) := by
  induction l generalizing k with
  | nil => by_cases hk : 0 < k <;> simp [insertParent, Selection.insertLeast, hk]
  | cons e l ih =>
    obtain ⟨cost', j⟩ := e
    have hj : j < i := hl (cost', j) List.mem_cons_self
    have hle : toLex (cost, i) ≤ toLex (cost', j) ↔ cost < cost' := by
      rw [Prod.Lex.toLex_le_toLex]
      constructor
      · rintro (h | ⟨-, h⟩)
        · exact h
        · exact absurd hj (not_lt.mpr h)
      · exact Or.inl
    have htail := ih (k - 1) fun e he => hl e (List.mem_cons_of_mem _ he)
    by_cases hcost : cost < cost'
    · simp [insertParent, Selection.insertLeast, hle, hcost, List.map_take]
    · simp [insertParent, Selection.insertLeast, hle, hcost, htail]

/-- Cost and place in the table of the eligible neighbours among `l`. -/
def offers (c : Node cfg) (l : List (Fin cfg.maxNeighbors)) : List (ℕ ×ₗ Fin cfg.maxNeighbors) :=
  (l.filter fun i => Eligible c i).map fun i => toLex (rankThrough c i, i)

theorem offers_nodup (c : Node cfg) : (offers c (List.finRange cfg.maxNeighbors)).Nodup := by
  refine List.Nodup.map_on ?_ ((List.nodup_finRange _).filter _)
  intro i _ j _ h
  exact congrArg Prod.snd (toLex.injective h)

theorem insertParent_mem {k cost : ℕ} {i : Fin cfg.maxNeighbors}
    {l : List (ℕ × Fin cfg.maxNeighbors)} {e : ℕ × Fin cfg.maxNeighbors}
    (h : e ∈ insertParent k cost i l) : e = (cost, i) ∨ e ∈ l := by
  induction l generalizing k with
  | nil =>
    unfold insertParent at h
    split_ifs at h
    · exact .inl (by simpa using h)
    · cases h
  | cons e' l ih =>
    rw [insertParent] at h
    split_ifs at h
    · rcases List.mem_cons.mp (List.mem_of_mem_take h) with rfl | hmem
      · exact .inl rfl
      · exact .inr hmem
    · rcases List.mem_cons.mp h with rfl | hmem
      · exact .inr List.mem_cons_self
      · exact (ih hmem).imp_right (List.mem_cons_of_mem _)

theorem not_eligible_iff {c : Node cfg} {i : Fin cfg.maxNeighbors} :
    (rankInfinite ≤ rankThrough c i ∨ rankThrough c i ≤ (c.view i).peerRank) ↔ ¬ Eligible c i := by
  unfold Eligible
  omega

theorem foldl_insertParent_eq (c : Node cfg) (l : List (Fin cfg.maxNeighbors))
    (best : List (ℕ × Fin cfg.maxNeighbors)) (hl : l.Pairwise (· < ·))
    (hbest : ∀ e ∈ best, ∀ i ∈ l, e.2 < i) :
    (l.foldl (fun best i =>
        let cost := rankThrough c i
        if rankInfinite ≤ cost ∨ cost ≤ (c.view i).peerRank then best
        else insertParent cfg.maxParents cost i best) best).map toLex =
      (offers c l).foldl (fun best a => Selection.insertLeast cfg.maxParents a best)
        (best.map toLex) := by
  induction l generalizing best with
  | nil => rfl
  | cons i l ih =>
    obtain ⟨hi, hl⟩ := List.pairwise_cons.mp hl
    have hrest : ∀ e ∈ best, ∀ j ∈ l, e.2 < j := fun e he j hj =>
      hbest e he j (List.mem_cons_of_mem _ hj)
    by_cases he : Eligible c i
    · have hins : ∀ e ∈ insertParent cfg.maxParents (rankThrough c i) i best, ∀ j ∈ l, e.2 < j := by
        intro e hmem j hj
        rcases insertParent_mem hmem with rfl | hmem
        · exact hi j hj
        · exact hrest e hmem j hj
      have hhead : ∀ e ∈ best, e.2 < i := fun e he => hbest e he i List.mem_cons_self
      have hoffers : offers c (i :: l) = toLex (rankThrough c i, i) :: offers c l := by
        simp [offers, he]
      simp only [List.foldl_cons, not_eligible_iff, he, not_true_eq_false, if_false, hoffers]
      rw [← insertParent_eq _ _ _ _ hhead, ← ih _ hl hins]
      simp only [not_eligible_iff]
    · have hoffers : offers c (i :: l) = offers c l := by simp [offers, he]
      simp only [List.foldl_cons, not_eligible_iff, he, not_false_eq_true, if_true, hoffers]
      rw [← ih _ hl hrest]
      simp only [not_eligible_iff]

/-- The parent set is the front of what is on offer, cheapest first. -/
theorem parentSet_eq (c : Node cfg) :
    (parentSet c).map toLex =
      Selection.least cfg.maxParents (offers c (List.finRange cfg.maxNeighbors)) :=
  foldl_insertParent_eq c _ [] (List.sortedLT_finRange _).pairwise (by simp)

theorem toLex_lt_iff {c : Node cfg} {i j : Fin cfg.maxNeighbors} :
    toLex (rankThrough c j, j) < toLex (rankThrough c i, i) ↔ Before c j i :=
  Prod.Lex.toLex_lt_toLex

/-- The set holds the neighbours that are kept, each with its cost. -/
theorem mem_parentSet {c : Node cfg} {cost : ℕ} {i : Fin cfg.maxNeighbors} :
    (cost, i) ∈ parentSet c ↔ cost = rankThrough c i ∧ Kept c i := by
  have hmap : (cost, i) ∈ parentSet c ↔ toLex (cost, i) ∈ (parentSet c).map toLex :=
    (List.mem_map_of_injective toLex.injective).symm
  rw [hmap, parentSet_eq, Selection.mem_least (offers_nodup c)]
  have hoffered : toLex (cost, i) ∈ offers c (List.finRange cfg.maxNeighbors) ↔
      cost = rankThrough c i ∧ Eligible c i := by
    simp only [offers, List.mem_map, List.mem_filter, List.mem_finRange, true_and,
      decide_eq_true_eq, EmbeddingLike.apply_eq_iff_eq, Prod.mk.injEq]
    constructor
    · rintro ⟨j, hj, hcost, rfl⟩
      exact ⟨hcost.symm, hj⟩
    · rintro ⟨rfl, hi⟩
      exact ⟨i, hi, rfl, rfl⟩
  rw [hoffered, and_assoc]
  refine and_congr_right fun hcost => and_congr_right fun _ => ?_
  subst hcost
  have hcount : ((offers c (List.finRange cfg.maxNeighbors)).filter
      (· < toLex (rankThrough c i, i))).length =
      ((List.finRange cfg.maxNeighbors).filter fun j => Eligible c j ∧ Before c j i).length := by
    simp only [offers, List.filter_map, List.length_map, List.filter_filter, Function.comp_def,
      toLex_lt_iff, Bool.decide_and, Bool.and_comm]
  rw [hcount]

/-- What heads the set is the cheapest. -/
theorem parentSet_head {c : Node cfg} {cost : ℕ} {i : Fin cfg.maxNeighbors}
    {rest : List (ℕ × Fin cfg.maxNeighbors)} (h : parentSet c = (cost, i) :: rest) :
    cost = rankThrough c i ∧ Kept c i ∧ Cheapest c i := by
  have hmem : (cost, i) ∈ parentSet c := h ▸ List.mem_cons_self
  obtain ⟨rfl, hkept⟩ := mem_parentSet.mp hmem
  refine ⟨rfl, hkept, hkept.1, fun j hj hbefore => ?_⟩
  have hoffered : toLex (rankThrough c j, j) ∈ offers c (List.finRange cfg.maxNeighbors) := by
    simp [offers, hj]
  have hleast := parentSet_eq c
  rw [h, List.map_cons] at hleast
  have hle := Selection.least_head_le (offers_nodup c) hleast.symm hoffered
  exact absurd (toLex_lt_iff.mpr hbefore) (not_lt.mpr hle)

theorem Cheapest.unique {c : Node cfg} {i j : Fin cfg.maxNeighbors} (hi : Cheapest c i)
    (hj : Cheapest c j) : i = j := by
  have hij := hi.2 j hj.1
  have hji := hj.2 i hi.1
  unfold Before at hij hji
  omega

/-! ## What hysteresis makes of it -/

/-- Swapping two members of a set leaves it the same set. -/
theorem mem_swap {ι β : Type*} [DecidableEq ι] {rest : List (β × ι)} {x y : β} {b cur i : ι}
    (hcur : cur ∈ rest.map Prod.snd) :
    i ∈ ((x, cur) :: rest.map fun e => if e.2 = cur then (y, b) else e).map Prod.snd ↔
      i ∈ ((y, b) :: rest).map Prod.snd := by
  obtain ⟨e, he, rfl⟩ := List.mem_map.mp hcur
  simp only [List.map_cons, List.map_map, List.mem_cons, List.mem_map, Function.comp_apply]
  constructor
  · rintro (rfl | ⟨e', he', rfl⟩)
    · exact .inr ⟨e, he, rfl⟩
    · split
      · exact .inl rfl
      · exact .inr ⟨e', he', rfl⟩
  · rintro (rfl | ⟨e', he', rfl⟩)
    · exact .inr ⟨e, he, by simp⟩
    · by_cases heq : e'.2 = e.2
      · exact .inl heq
      · exact .inr ⟨e', he', by simp [heq]⟩

/-- The incumbent comes to the head of the set if there is one that stays. -/
theorem keepIncumbent_cases (c : Node cfg) (best : List (ℕ × Fin cfg.maxNeighbors)) :
    (keepIncumbent c best = best ∧ ∀ cost b rest, best = (cost, b) :: rest → ∀ i,
      lgNeighFind c (lgParent c) = some i → (c.neigh b).addr ≠ lgParent c →
      rankThrough c i < rankInfinite → rankThrough c i ≤ cost + rankHysteresis →
      i ∉ rest.map Prod.snd) ∨
    ∃ cost b rest i, best = (cost, b) :: rest ∧ lgNeighFind c (lgParent c) = some i ∧
      (c.neigh b).addr ≠ lgParent c ∧ rankThrough c i ≤ cost + rankHysteresis ∧
      i ∈ rest.map Prod.snd ∧
      keepIncumbent c best = (rankThrough c i, i) ::
        rest.map fun e => if e.2 = i then (cost, b) else e := by
  unfold keepIncumbent
  split
  · next cost b rest i hfind =>
    dsimp only
    split_ifs with h
    · obtain ⟨haddr, -, hcost, hmem⟩ := h
      exact .inr ⟨cost, b, rest, i, rfl, hfind, haddr, hcost, hmem, rfl⟩
    · left
      refine ⟨rfl, ?_⟩
      intro cost' b' rest' heq i' hfind' haddr hfin hcost hmem
      obtain ⟨⟨rfl, rfl⟩, rfl⟩ := by simpa using heq
      rw [hfind] at hfind'
      cases hfind'
      exact h ⟨haddr, hfin, hcost, hmem⟩
  · next hnone =>
    left
    refine ⟨rfl, ?_⟩
    intro cost b rest heq i hfind
    exact absurd hfind (hnone cost b rest i heq)

theorem mem_keepIncumbent (c : Node cfg) (i : Fin cfg.maxNeighbors) :
    i ∈ (keepIncumbent c (parentSet c)).map Prod.snd ↔ Kept c i := by
  have hset : i ∈ (parentSet c).map Prod.snd ↔ Kept c i := by
    constructor
    · intro h
      obtain ⟨⟨cost, j⟩, he, rfl⟩ := List.mem_map.mp h
      exact (mem_parentSet.mp he).2
    · intro h
      exact List.mem_map.mpr ⟨_, mem_parentSet.mpr ⟨rfl, h⟩, rfl⟩
  rw [← hset]
  rcases keepIncumbent_cases c (parentSet c) with
    ⟨heq, -⟩ | ⟨cost, b, rest, j, hbest, -, -, -, hj, heq⟩
  · rw [heq]
  · rw [heq, hbest]
    exact mem_swap hj

/-- What heads the set after hysteresis is the neighbour that is chosen. -/
theorem keepIncumbent_head {c : Node cfg} {cost : ℕ} {i : Fin cfg.maxNeighbors}
    {rest : List (ℕ × Fin cfg.maxNeighbors)}
    (h : keepIncumbent c (parentSet c) = (cost, i) :: rest) :
    cost = rankThrough c i ∧ Chosen c i := by
  rcases keepIncumbent_cases c (parentSet c) with ⟨heq, hnone⟩ | ⟨cost', b, rest', j, hbest, hfind,
    haddr, hcost, hj, heq⟩
  · rw [heq] at h
    obtain ⟨rfl, hkept, hcheap⟩ := parentSet_head h
    refine ⟨rfl, .inr ⟨hkept, hcheap, ?_⟩⟩
    rintro j ⟨hfind, hj, b, hb, haddr, hle⟩
    obtain rfl := hb.unique hcheap
    refine hnone _ _ _ h j hfind haddr hj.1.1 hle ?_
    have hmem := mem_parentSet.mpr ⟨rfl, hj⟩
    rw [h] at hmem
    rcases List.mem_cons.mp hmem with heqj | hmem
    · have hbj : j = b := congrArg Prod.snd heqj
      rw [← hbj] at haddr
      exact absurd (lgNeighFind_spec hfind).2.1 haddr
    · exact List.mem_map.mpr ⟨_, hmem, rfl⟩
  · rw [heq] at h
    obtain ⟨⟨rfl, rfl⟩, -⟩ := by simpa using h
    obtain ⟨rfl, -, hcheap⟩ := parentSet_head hbest
    have hkept : Kept c j := by
      obtain ⟨⟨x, j'⟩, he, rfl⟩ := List.mem_map.mp hj
      exact (mem_parentSet.mp (hbest ▸ List.mem_cons_of_mem _ he)).2
    exact ⟨rfl, .inl ⟨hfind, hkept, b, hcheap, haddr, hcost⟩⟩

theorem Chosen.kept {c : Node cfg} {i : Fin cfg.maxNeighbors} (h : Chosen c i) : Kept c i := by
  rcases h with ⟨-, hk, -⟩ | ⟨hk, -⟩ <;> exact hk

theorem Chosen.unique {c : Node cfg} {i j : Fin cfg.maxNeighbors} (hi : Chosen c i)
    (hj : Chosen c j) : i = j := by
  rcases hi with hi | ⟨-, hi, hi'⟩ <;> rcases hj with hj | ⟨-, hj, hj'⟩
  · exact Option.some.inj (hi.1.symm.trans hj.1)
  · exact absurd hi (hj' i)
  · exact absurd hj (hi' j)
  · exact hi.unique hj

/-! ## The node after a recomputation -/

theorem Kept.linked {c : Node cfg} {i : Fin cfg.maxNeighbors} (h : Kept c i) :
    (c.neigh i).state = .linked ∧
      rankThrough c i = (c.view i).peerRank + (c.view i).linkCost := by
  have hfin := h.1.1
  unfold rankThrough at hfin ⊢
  dsimp only at hfin ⊢
  split_ifs at hfin ⊢ with hl
  · exact absurd hfin (lt_irrefl _)
  · exact absurd hfin (lt_irrefl _)
  · push Not at hl
    exact ⟨hl.1, rfl⟩

section

variable {c : Node cfg} (hrole : c.net.role ≠ .backhaul)
include hrole

theorem lgRouteRecompute_isParent (i : Fin cfg.maxNeighbors) :
    ((lgRouteRecompute c).2.view i).isParent = decide (Kept c i) := by
  rw [← decide_eq_decide.mpr (mem_keepIncumbent c i)]
  simp only [lgRouteRecompute, hrole, if_false]
  rw [Bool.eq_iff_iff, List.any_eq_true, decide_eq_true_eq, List.mem_map]
  simp

theorem lgRouteRecompute_best : (lgRouteRecompute c).2.net.rank =
    match keepIncumbent c (parentSet c) with
    | [] => rankInfinite
    | (cost, _) :: _ => min cost (rankInfinite - 1) := by
  unfold lgRouteRecompute
  exact congrArg (fun r : Bool × Node cfg => r.2.net.rank) (if_neg hrole)

theorem lgRouteRecompute_rank :
    (∃ i, Chosen c i ∧ (lgRouteRecompute c).2.net.rank = rankThrough c i) ∨
      (∀ i, ¬ Kept c i) ∧ (lgRouteRecompute c).2.net.rank = rankInfinite := by
  rw [lgRouteRecompute_best hrole]
  cases hbest : keepIncumbent c (parentSet c) with
  | nil =>
    right
    refine ⟨fun i hi => ?_, rfl⟩
    rw [← mem_keepIncumbent, hbest] at hi
    cases hi
  | cons e rest =>
    obtain ⟨cost, i⟩ := e
    obtain ⟨rfl, hi⟩ := keepIncumbent_head hbest
    have hfin := hi.kept.1.1
    exact .inl ⟨i, hi, by simp only; omega⟩

/-- `lg_parent` returns the first neighbour in the table that was kept. -/
theorem lgParentIdx_recompute (i : Fin cfg.maxNeighbors) :
    lgParentIdx (lgRouteRecompute c).2 = some i ↔ First c i := by
  have hpred : ∀ j, (((lgRouteRecompute c).2.view j).isParent &&
      decide (((lgRouteRecompute c).2.neigh j).state = .linked)) = decide (Kept c j) := by
    intro j
    rw [lgRouteRecompute_isParent hrole, (lgRouteRecompute_quiet c).neigh, Bool.eq_iff_iff]
    simp only [Bool.and_eq_true, decide_eq_true_eq, and_iff_left_iff_imp]
    exact fun hj => hj.linked.1
  unfold lgParentIdx
  simp only [hpred, List.find?_eq_some_iff_getElem, List.getElem_finRange, List.length_finRange]
  constructor
  · rintro ⟨hi, k, hk, rfl, hbefore⟩
    refine ⟨of_decide_eq_true hi, fun j hj hkept => ?_⟩
    have hj' := hbefore j.val hj
    simp [hkept] at hj'
  · rintro ⟨hi, hbefore⟩
    refine ⟨decide_eq_true hi, i.val, i.isLt, rfl, fun j hj => ?_⟩
    have hj' := hbefore ⟨j, hj.trans i.isLt⟩ hj
    simpa using hj'

end

/-! ## The rank and the uplink agree -/

/-- No path and no parent, or the rank of the path through the neighbour `lg_parent` returns. -/
def RankAgrees (c : Node cfg) : Prop :=
  (c.net.rank = rankInfinite ∧ lgParent c = addrInvalid) ∨
    ∃ i, lgParentIdx c = some i ∧ c.net.rank = (c.view i).peerRank + (c.view i).linkCost ∧
      (c.view i).peerRank < c.net.rank

/-- The kept neighbour that stands first costs no more and no less than the chosen one. -/
def FirstCostsChosen (c : Node cfg) : Prop :=
  ∀ i j, First c i → Chosen c j → rankThrough c i = rankThrough c j

instance (c : Node cfg) : Decidable (FirstCostsChosen c) := by
  unfold FirstCostsChosen
  infer_instance

theorem exists_first {c : Node cfg} {i : Fin cfg.maxNeighbors} (h : Kept c i) :
    ∃ j, First c j := by
  induction i using WellFoundedLT.induction with
  | ind i ih =>
    by_cases hex : ∃ j, j < i ∧ Kept c j
    · obtain ⟨j, hj, hkept⟩ := hex
      exact ih j hj hkept
    · push Not at hex
      exact ⟨i, h, hex⟩

theorem lgRouteRecompute_view (c : Node cfg) (i : Fin cfg.maxNeighbors) :
    ((lgRouteRecompute c).2.view i).peerRank = (c.view i).peerRank ∧
      ((lgRouteRecompute c).2.view i).linkCost = (c.view i).linkCost := by
  unfold lgRouteRecompute
  split_ifs <;> exact ⟨rfl, rfl⟩

/-- A recomputation leaves rank and uplink in agreement exactly when the kept neighbour that
stands first in the table costs what the chosen one costs. -/
theorem rankAgrees_iff (c : Node cfg) (hrole : c.net.role ≠ .backhaul) :
    RankAgrees (lgRouteRecompute c).2 ↔ FirstCostsChosen c := by
  constructor
  · intro hagrees i j hfirst hchosen
    have hidx := (lgParentIdx_recompute hrole i).mpr hfirst
    rcases lgRouteRecompute_rank hrole with ⟨j', hj', hrank⟩ | ⟨hnone, -⟩
    · obtain rfl := hj'.unique hchosen
      rcases hagrees with ⟨hinf, -⟩ | ⟨i', hidx', hsum, -⟩
      · have hfin := hj'.kept.1.1
        omega
      · obtain rfl : i' = i := Option.some.inj (hidx'.symm.trans hidx)
        obtain ⟨hpeer, hlink⟩ := lgRouteRecompute_view c i'
        have hcost := hfirst.1.linked.2
        omega
    · exact absurd hfirst.1 (hnone i)
  · intro hcosts
    rcases lgRouteRecompute_rank hrole with ⟨j, hj, hrank⟩ | ⟨hnone, hrank⟩
    · obtain ⟨i, hfirst⟩ := exists_first hj.kept
      have hcost := hcosts i j hfirst hj
      obtain ⟨hpeer, hlink⟩ := lgRouteRecompute_view c i
      have hsum := hfirst.1.linked.2
      have hbelow := hfirst.1.1.2
      exact .inr ⟨i, (lgParentIdx_recompute hrole i).mpr hfirst, by omega, by omega⟩
    · left
      refine ⟨hrank, ?_⟩
      have hidx : lgParentIdx (lgRouteRecompute c).2 = none := by
        rw [Option.eq_none_iff_forall_ne_some]
        intro i hi
        exact hnone i ((lgParentIdx_recompute hrole i).mp hi).1
      simp [lgParent, hidx]

/-- A leaf with links of the given costs to two neighbours of rank 16. -/
def twoUplinks (cost0 cost1 : ℕ) : Node .default :=
  { Node.boot .default (plainIdent 1 1) with
    neigh := fun i => if i.val < 2 then { state := .linked, addr := UInt16.ofNat (i.val + 2) }
      else {}
    view := fun i => { peerRank := 16, linkCost := if i.val = 0 then cost0 else cost1 } }

theorem rankAgrees_first_cheaper : RankAgrees (lgRouteRecompute (twoUplinks 16 24)).2 :=
  (rankAgrees_iff (twoUplinks 16 24) (by decide)).mpr (by decide +kernel)

/-- The second neighbour in the table is the cheaper one: it gives the rank, and the first gets
the traffic. -/
theorem not_rankAgrees_second_cheaper :
    ¬ ∀ (c : Node .default), c.net.role ≠ .backhaul → RankAgrees (lgRouteRecompute c).2 := by
  intro h
  have hidx : lgParentIdx (lgRouteRecompute (twoUplinks 24 16)).2 = some ⟨0, by decide⟩ := by
    decide +kernel
  have hrank : (lgRouteRecompute (twoUplinks 24 16)).2.net.rank = 32 := by decide +kernel
  rcases h (twoUplinks 24 16) (by decide) with ⟨hinf, -⟩ | ⟨i, hi, hsum, -⟩
  · rw [hrank] at hinf
    exact absurd hinf (by decide)
  · obtain rfl := Option.some.inj (hidx.symm.trans hi)
    rw [hrank] at hsum
    exact absurd hsum (by decide +kernel)

end LockGrid
