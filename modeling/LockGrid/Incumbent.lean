import LockGrid.Parents
import Mathlib.Data.Finset.Max
import Mathlib.Data.Fintype.Card

/-!
# The parent set and the incumbent

Which neighbours `lg_route_recompute` flags, how far the rank it takes may be from the cheapest
path, and when the neighbour forwarded to so far is still the one `lg_parent` returns.
-/
namespace LockGrid

variable {cfg : Config} {c : Node cfg} {i j : Fin cfg.maxNeighbors}

/-! ## The parent set -/

/-- Cost of the path through neighbour `i`. -/
def pathCost (c : Node cfg) (i : Fin cfg.maxNeighbors) : ℕ :=
  (c.view i).peerRank + (c.view i).linkCost

/-- A link to a neighbour with a rank, with a path through it that is short enough and longer
than the neighbour's own. -/
structure Qualifies (c : Node cfg) (i : Fin cfg.maxNeighbors) : Prop where
  linked : (c.neigh i).state = .linked
  routed : (c.view i).peerRank ≠ rankInfinite
  short : pathCost c i < cfg.maxRank
  below : (c.view i).peerRank < pathCost c i

/-- Cheaper, or as cheap and earlier in the table. -/
def Outbids (c : Node cfg) (i j : Fin cfg.maxNeighbors) : Prop :=
  pathCost c i < pathCost c j ∨ pathCost c i = pathCost c j ∧ i < j

def isParentSet (c : Node cfg) : Finset (Fin cfg.maxNeighbors) :=
  Finset.univ.filter fun i => (c.view i).isParent

theorem rankThrough_of_qualifies (h : Qualifies c i) : rankThrough c i = pathCost c i := by
  have hmax := h.short
  simp only [pathCost] at hmax
  simp [rankThrough, pathCost, h.linked, h.routed, hmax]

theorem eligible_iff : Eligible c i ↔ Qualifies c i := by
  have hmax := cfg.maxRank_range.2
  constructor
  · rintro ⟨hfin, hbelow⟩
    unfold rankThrough at hfin hbelow
    dsimp only at hfin hbelow
    split_ifs at hfin hbelow with hl hs
    · exact absurd hfin (lt_irrefl _)
    · exact absurd hfin (lt_irrefl _)
    · push Not at hl
      exact ⟨hl.1, hl.2, not_le.mp hs, hbelow⟩
  · intro h
    have hshort := h.short
    have hinf : rankInfinite = 65535 := rfl
    rw [Eligible, rankThrough_of_qualifies h]
    exact ⟨by omega, h.below⟩

instance (c : Node cfg) : DecidablePred (Qualifies c) := fun _ =>
  decidable_of_iff _ eligible_iff

theorem before_iff (hi : Qualifies c i) (hj : Qualifies c j) : Before c i j ↔ Outbids c i j := by
  rw [Before, Outbids, rankThrough_of_qualifies hi, rankThrough_of_qualifies hj]

theorem Before.trans {k : Fin cfg.maxNeighbors} (h : Before c i j) (h' : Before c j k) :
    Before c i k := by
  unfold Before at *
  omega

/-- A neighbour that qualifies and is not kept comes after all that are. -/
theorem Kept.before (hi : Kept c i) (hj : Eligible c j) (hj' : ¬ Kept c j) : Before c i j := by
  have hij : i ≠ j := fun h => hj' (h ▸ hi)
  by_contra hbefore
  have hji : Before c j i := by
    unfold Before at *
    omega
  have hsub : ∀ k, (Eligible c k ∧ Before c k j) → (Eligible c k ∧ Before c k i) :=
    fun k hk => ⟨hk.1, hk.2.trans hji⟩
  have hle : ((List.finRange cfg.maxNeighbors).filter fun k => Eligible c k ∧ Before c k j).length ≤
      ((List.finRange cfg.maxNeighbors).filter fun k => Eligible c k ∧ Before c k i).length := by
    refine (List.monotone_filter_right _ fun k hk => ?_).length_le
    simp only [decide_eq_true_eq] at hk ⊢
    exact hsub k hk
  exact hj' ⟨hj, hle.trans_lt hi.2⟩

theorem Selection.length_least {α : Type*} [LinearOrder α] (k : ℕ) {l : List α} (hl : l.Nodup) :
    (Selection.least k l).length = min k l.length := by
  obtain ⟨s, hperm, -, heq⟩ := Selection.exists_sorted_take_eq_least k l hl
  rw [heq, List.length_take, hperm.length_eq]

theorem parentSet_length (c : Node cfg) : (parentSet c).length =
    min cfg.maxParents ((List.finRange cfg.maxNeighbors).filter fun i => Eligible c i).length := by
  have hmap : (parentSet c).length = ((parentSet c).map toLex).length := (List.length_map _).symm
  rw [hmap, parentSet_eq, Selection.length_least _ (offers_nodup c), offers, List.length_map]

theorem parentSet_nodup (c : Node cfg) : ((parentSet c).map Prod.snd).Nodup := by
  have hset : (parentSet c).Nodup := by
    have hleast : ((parentSet c).map toLex).Nodup := by
      rw [parentSet_eq]
      exact Selection.least_nodup (offers_nodup c)
    exact List.Nodup.of_map _ hleast
  refine List.Nodup.map_on ?_ hset
  rintro ⟨x, i⟩ hx ⟨y, j⟩ hy rfl
  rw [(mem_parentSet.mp hx).1, (mem_parentSet.mp hy).1]

theorem card_kept (c : Node cfg) : (Finset.univ.filter fun i => Kept c i).card =
    min cfg.maxParents (Finset.univ.filter fun i => Eligible c i).card := by
  have hkept : (Finset.univ.filter fun i => Kept c i) = ((parentSet c).map Prod.snd).toFinset := by
    ext i
    simp only [Finset.mem_filter, Finset.mem_univ, true_and, List.mem_toFinset]
    constructor
    · exact fun h => List.mem_map.mpr ⟨_, mem_parentSet.mpr ⟨rfl, h⟩, rfl⟩
    · intro h
      obtain ⟨⟨x, j⟩, hx, rfl⟩ := List.mem_map.mp h
      exact (mem_parentSet.mp hx).2
  have heligible : (Finset.univ.filter fun i => Eligible c i) =
      ((List.finRange cfg.maxNeighbors).filter fun i => Eligible c i).toFinset := by
    ext i
    simp
  rw [hkept, heligible, List.toFinset_card_of_nodup (parentSet_nodup c), List.length_map,
    List.toFinset_card_of_nodup ((List.nodup_finRange _).filter _), parentSet_length]

theorem isParentSet_recompute (hrole : c.net.role ≠ .backhaul) :
    isParentSet (lgRouteRecompute c).2 = Finset.univ.filter fun i => Kept c i := by
  ext i
  simp [isParentSet, lgRouteRecompute_isParent hrole]

theorem exists_cheapest (hi : Eligible c i) : ∃ b, Cheapest c b := by
  obtain ⟨b, hb, hmin⟩ := Finset.exists_min_image (Finset.univ.filter fun j => Eligible c j)
    (fun j => toLex (rankThrough c j, j)) ⟨i, by simpa using hi⟩
  refine ⟨b, by simpa using hb, fun j hj hbefore => ?_⟩
  have hle := hmin j (by simpa using hj)
  exact absurd (toLex_lt_iff.mpr hbefore) (not_lt.mpr hle)

/-- The rank that is taken is the cheapest path's, or another's within the hysteresis. -/
theorem Chosen.rank_between {b : Fin cfg.maxNeighbors} (hi : Chosen c i) (hb : Cheapest c b) :
    rankThrough c b ≤ rankThrough c i ∧ rankThrough c i ≤ rankThrough c b + rankHysteresis := by
  have hle : rankThrough c b ≤ rankThrough c i := by
    have hno := hb.2 i hi.kept.1
    unfold Before at hno
    omega
  rcases hi with ⟨-, -, b', hb', -, hwithin⟩ | ⟨-, hcheap, -⟩
  · obtain rfl := hb'.unique hb
    exact ⟨hle, hwithin⟩
  · obtain rfl := hcheap.unique hb
    exact ⟨le_rfl, Nat.le_add_right _ _⟩

/-- A recomputation flags the cheapest of the neighbours that qualify, as many as may be parents,
and takes a rank between the least cost and that and the hysteresis. -/
theorem parents_are_cheapest (c : Node cfg) (hrole : c.net.role ≠ .backhaul) :
    let d := (lgRouteRecompute c).2
    (∀ i ∈ isParentSet d, Qualifies c i ∧
      ∀ j, Qualifies c j → j ∉ isParentSet d → Outbids c i j) ∧
    (isParentSet d).card = min cfg.maxParents (Finset.univ.filter fun i => Qualifies c i).card ∧
    ((∀ i, ¬ Qualifies c i) ∧ d.net.rank = rankInfinite ∨
      ∃ b, Qualifies c b ∧ (∀ i, Qualifies c i → pathCost c b ≤ pathCost c i) ∧
        pathCost c b ≤ d.net.rank ∧ d.net.rank ≤ pathCost c b + rankHysteresis) := by
  dsimp only
  rw [isParentSet_recompute hrole]
  refine ⟨fun i hi => ?_, ?_, ?_⟩
  · have hkept : Kept c i := by simpa using hi
    have hq := eligible_iff.mp hkept.1
    refine ⟨hq, fun j hj hout => ?_⟩
    have hbefore := hkept.before (eligible_iff.mpr hj) (by simpa using hout)
    exact (before_iff hq hj).mp hbefore
  · have hset : (Finset.univ.filter fun i => Qualifies c i) =
        Finset.univ.filter fun i => Eligible c i := by
      ext i
      simp [eligible_iff]
    rw [card_kept, hset]
  · rcases lgRouteRecompute_rank hrole with ⟨i, hi, hrank⟩ | ⟨hnone, hrank⟩
    · right
      obtain ⟨b, hb⟩ := exists_cheapest hi.kept.1
      have hq := eligible_iff.mp hb.1
      obtain ⟨hlow, hhigh⟩ := hi.rank_between hb
      rw [rankThrough_of_qualifies hq] at hlow hhigh
      refine ⟨b, hq, fun j hj => ?_, hrank ▸ hlow, hrank ▸ hhigh⟩
      have hno := hb.2 j (eligible_iff.mpr hj)
      rw [before_iff hj hq, Outbids] at hno
      omega
    · left
      refine ⟨fun i hi => ?_, hrank⟩
      obtain ⟨b, hb⟩ := exists_cheapest (eligible_iff.mpr hi)
      have hpos := cfg.maxParents_range.1
      refine hnone b ⟨hb.1, ?_⟩
      have hnil : ((List.finRange cfg.maxNeighbors).filter fun j =>
          Eligible c j ∧ Before c j b) = [] := by
        rw [List.filter_eq_nil_iff]
        intro j _ hj
        simp only [decide_eq_true_eq] at hj
        exact hb.2 j hj.1 hj.2
      rw [hnil]
      exact hpos

theorem parents_are_cheapest_two :
    let d := (lgRouteRecompute (twoUplinks 16 24)).2
    (∀ i ∈ isParentSet d, Qualifies (twoUplinks 16 24) i ∧
      ∀ j, Qualifies (twoUplinks 16 24) j → j ∉ isParentSet d → Outbids (twoUplinks 16 24) i j) ∧
    (isParentSet d).card =
      min Config.default.maxParents
        (Finset.univ.filter fun i => Qualifies (twoUplinks 16 24) i).card ∧
    ((∀ i, ¬ Qualifies (twoUplinks 16 24) i) ∧ d.net.rank = rankInfinite ∨
      ∃ b, Qualifies (twoUplinks 16 24) b ∧
        (∀ i, Qualifies (twoUplinks 16 24) i →
          pathCost (twoUplinks 16 24) b ≤ pathCost (twoUplinks 16 24) i) ∧
        pathCost (twoUplinks 16 24) b ≤ d.net.rank ∧
        d.net.rank ≤ pathCost (twoUplinks 16 24) b + rankHysteresis) :=
  parents_are_cheapest (twoUplinks 16 24) (by decide)

/-! ## The incumbent -/

/-- The parent forwarded to so far is still linked, and the path through it costs at most the
hysteresis more than any other's. -/
structure Incumbent (c : Node cfg) (i : Fin cfg.maxNeighbors) : Prop where
  valid : lgParent c ≠ addrInvalid
  find : lgNeighFind c (lgParent c) = some i
  linked : (c.neigh i).state = .linked
  finite : rankThrough c i < rankInfinite
  close : ∀ j, Eligible c j → rankThrough c i ≤ rankThrough c j + rankHysteresis

instance (c : Node cfg) : DecidablePred (Incumbent c) := fun i =>
  decidable_of_iff (lgParent c ≠ addrInvalid ∧ lgNeighFind c (lgParent c) = some i ∧
    (c.neigh i).state = .linked ∧ rankThrough c i < rankInfinite ∧
    ∀ j, Eligible c j → rankThrough c i ≤ rankThrough c j + rankHysteresis)
    ⟨fun ⟨h₁, h₂, h₃, h₄, h₅⟩ => ⟨h₁, h₂, h₃, h₄, h₅⟩,
      fun ⟨h₁, h₂, h₃, h₄, h₅⟩ => ⟨h₁, h₂, h₃, h₄, h₅⟩⟩

theorem lgParent_recompute (hrole : c.net.role ≠ .backhaul) (hi : First c i) :
    lgParent (lgRouteRecompute c).2 = (c.neigh i).addr := by
  simp only [lgParent, (lgParentIdx_recompute hrole i).mpr hi, (lgRouteRecompute_quiet c).neigh]

/-- The incumbent remains the parent exactly when an entry with its address is kept and stands
before all others that are. -/
theorem incumbent_stays_iff (hrole : c.net.role ≠ .backhaul) (h : Incumbent c i) :
    lgParent (lgRouteRecompute c).2 = lgParent c ↔
      ∃ f, First c f ∧ (c.neigh f).addr = (c.neigh i).addr := by
  have haddr : (c.neigh i).addr = lgParent c := (lgNeighFind_spec h.find).2.1
  rw [haddr]
  constructor
  · intro hsame
    cases hidx : lgParentIdx (lgRouteRecompute c).2 with
    | none =>
      have hnone : lgParent (lgRouteRecompute c).2 = addrInvalid := by simp only [lgParent, hidx]
      exact absurd (hsame.symm.trans hnone) h.valid
    | some f =>
      have hf := (lgParentIdx_recompute hrole f).mp hidx
      exact ⟨f, hf, (lgParent_recompute hrole hf).symm.trans hsame⟩
  · rintro ⟨f, hf, hsame⟩
    exact (lgParent_recompute hrole hf).trans hsame

/-- A leaf that forwards to the second of its two neighbours, whose link costs `cost1`. -/
def secondUplink (cost0 cost1 : ℕ) : Node .default :=
  { twoUplinks cost0 cost1 with
    view := fun i => { (twoUplinks cost0 cost1).view i with isParent := i.val = 1 } }

/-- The first neighbour is over the largest rank, so the second stays. -/
theorem incumbent_stays_alone :
    lgParent (lgRouteRecompute (secondUplink 600 16)).2 = lgParent (secondUplink 600 16) :=
  (incumbent_stays_iff (c := secondUplink 600 16) (i := ⟨1, by decide⟩) (by decide)
    (by decide +kernel)).mpr (by decide +kernel)

/-- The incumbent is cheaper than its rival, heads the set, and loses to the rival's place in the
table. -/
theorem not_incumbent_stays_behind :
    ¬ ∀ (c : Node .default) (i : Fin Config.default.maxNeighbors), c.net.role ≠ .backhaul →
      Incumbent c i → lgParent (lgRouteRecompute c).2 = lgParent c := by
  intro h
  have hstay := h (secondUplink 18 16) ⟨1, by decide⟩ (by decide) (by decide +kernel)
  exact absurd hstay (by decide +kernel)

end LockGrid
