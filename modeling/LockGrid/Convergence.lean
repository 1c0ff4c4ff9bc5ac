import LockGrid.Collapse
import LockGrid.Incumbent
import LockGrid.Relaxation

/-!
# A grid with sinks

The same nodes as in a grid without one, some of them backhauls. They refine distance vectors with
sinks: whatever the ranks were, after enough rounds none is left of a backhaul that is gone, and
whoever is near enough to one that is there has a route to it.
-/
namespace LockGrid

open DistanceVector (State Grid Web Done)

variable {cfg : Config}

/-! ## The rank that is taken -/

theorem Cheapest.kept {c : Node cfg} {i : Fin cfg.maxNeighbors} (h : Cheapest c i) :
    Kept c i := by
  refine ⟨h.1, ?_⟩
  have hnone : ((List.finRange cfg.maxNeighbors).filter
      fun j => Eligible c j ∧ Before c j i) = [] := by
    rw [List.filter_eq_nil_iff]
    intro j _ hj
    simp only [decide_eq_true_eq] at hj
    exact h.2 j hj.1 hj.2
  rw [hnone]
  exact cfg.maxParents_range.1

/-- No neighbour that qualifies offers a path shorter by more than the hysteresis. -/
theorem lgRouteRecompute_rank_le_pathCost {c : Node cfg} {i : Fin cfg.maxNeighbors}
    (hrole : c.net.role ≠ .backhaul) (hi : Qualifies c i) :
    (lgRouteRecompute c).2.net.rank ≤ pathCost c i + rankHysteresis := by
  have he := eligible_iff.mpr hi
  obtain ⟨b, hb⟩ := exists_cheapest he
  rcases lgRouteRecompute_rank hrole with ⟨j, hj, hrank⟩ | ⟨hnone, -⟩
  · have hhigh := (hj.rank_between hb).2
    have hleast : rankThrough c b ≤ rankThrough c i := by
      have hno := hb.2 i he
      unfold Before at hno
      omega
    rw [hrank, ← rankThrough_of_qualifies hi]
    omega
  · exact absurd hb.kept (hnone b)

/-! ## The layout of a grid -/

/-- Which entries are links and where they lead, the backhauls, and the bounds that the cost of
each link stays within. -/
structure Layout (cfg : Config) (ι : Type*) where
  links : ι → Set (Fin cfg.maxNeighbors)
  peer : ι → Fin cfg.maxNeighbors → ι
  sinks : Set ι
  lo : ι → Fin cfg.maxNeighbors → ℕ
  hi : ι → Fin cfg.maxNeighbors → ℕ
  etxOne_le : ∀ x, ∀ i ∈ links x, etxOne ≤ lo x i

namespace Layout

variable {ι : Type*} {L : Layout cfg ι} {x : ι} {c c' : Node cfg}

/-- A link of a path costs what it may cost at most, and the hysteresis. -/
def grid (L : Layout cfg ι) : Grid ι (Fin cfg.maxNeighbors) where
  links := L.links
  peer := L.peer
  sinks := L.sinks
  lo x i := L.lo x i
  hi x i := (L.hi x i + rankHysteresis : ℕ)
  cap := cfg.maxRank

@[simp] theorem grid_links : L.grid.links = L.links := rfl
@[simp] theorem grid_sinks : L.grid.sinks = L.sinks := rfl
@[simp] theorem grid_lo (i : Fin cfg.maxNeighbors) : L.grid.lo x i = L.lo x i := rfl
@[simp] theorem grid_hi (i : Fin cfg.maxNeighbors) :
    L.grid.hi x i = (L.hi x i + rankHysteresis : ℕ) := rfl
@[simp] theorem grid_cap : L.grid.cap = cfg.maxRank := rfl

/-- The node stands at `x`. -/
structure At (L : Layout cfg ι) (x : ι) (c : Node cfg) : Prop where
  sink : x ∈ L.sinks ↔ c.net.role = .backhaul
  rank : c.net.rank ≤ rankInfinite
  links : ∀ i, i ∈ L.links x ↔ (c.neigh i).state = .linked
  cost : ∀ i ∈ L.links x, L.lo x i ≤ (c.view i).linkCost ∧ (c.view i).linkCost ≤ L.hi x i

theorem At.congr (h : L.At x c) (hrole : c'.net.role = c.net.role)
    (hrank : c'.net.rank ≤ rankInfinite) (hneigh : ∀ i, (c'.neigh i).state = (c.neigh i).state)
    (hcost : ∀ i ∈ L.links x,
      L.lo x i ≤ (c'.view i).linkCost ∧ (c'.view i).linkCost ≤ L.hi x i) : L.At x c' where
  sink := by rw [hrole]; exact h.sink
  rank := hrank
  links i := by rw [hneigh]; exact h.links i
  cost := hcost

theorem At.sameTable (h : L.At x c) (hs : SameTable c c') : L.At x c' := by
  obtain ⟨net, rfl, hrank, hrole, -⟩ := hs
  exact h.congr hrole (hrank.trans_le h.rank) (fun _ => rfl) h.cost

theorem At.noteAdv (h : L.At x c) (i : Fin cfg.maxNeighbors) (buf : Bytes) :
    L.At x (noteAdv c i buf) := by
  refine h.congr rfl h.rank (fun _ => rfl) fun j hj => ?_
  rw [noteAdv_linkCost]
  exact h.cost j hj

theorem At.recompute (h : L.At x c) : L.At x (lgRouteRecompute c).2 := by
  have hsame := lgRouteRecompute_sameLinks c
  refine h.congr hsame.role (lgRouteRecompute_rank_le c) (fun i => (hsame.neigh i).1) ?_
  intro i hi
  rw [(lgRouteRecompute_view c i).2]
  exact h.cost i hi

/-- A recomputation picks a distance from what the node has heard. -/
theorem At.picks (h : L.At x c) : L.grid.Picks x (fun i => far (c.view i).peerRank)
    (far (lgRouteRecompute c).2.net.rank) := by
  have hmax := cfg.maxRank_range.2
  have hinf : rankInfinite = 65535 := rfl
  refine ⟨fun hx => ?_, fun hx => ⟨?_, fun i hi hlt => ?_⟩⟩
  · have hrank : (lgRouteRecompute c).2.net.rank = 0 := by
      simp [lgRouteRecompute, h.sink.mp hx]
    rw [hrank]
    rfl
  · have hrole : c.net.role ≠ .backhaul := fun hb => hx (h.sink.mpr hb)
    rcases lgRouteRecompute_rank hrole with ⟨i, hi, hrank⟩ | ⟨-, hrank⟩
    · right
      obtain ⟨hl, hsum⟩ := hi.kept.linked
      obtain ⟨hfin, hbelow⟩ := hi.kept.1
      have hlink := (h.links i).mpr hl
      have hlo := (h.cost i hlink).1
      have hle : (c.view i).peerRank + L.lo x i ≤ rankThrough c i := by omega
      rw [hrank, far_of_lt hfin, grid_cap]
      refine ⟨by exact_mod_cast hi.kept.lt_maxRank, i, hlink, ?_⟩
      simp only [far_of_lt (hbelow.trans hfin), grid_lo]
      exact_mod_cast hle
    · exact .inl (far_eq_top.mpr hrank)
  · have hrole : c.net.role ≠ .backhaul := fun hb => hx (h.sink.mpr hb)
    by_cases hrouted : (c.view i).peerRank = rankInfinite
    · simp only [far_eq_top.mpr hrouted, top_add]
      exact le_top
    · have hheard : far (c.view i).peerRank = ((c.view i).peerRank : ℕ∞) := if_neg hrouted
      simp only [hheard, grid_hi, grid_cap] at hlt ⊢
      have hpath : (c.view i).peerRank + (L.hi x i + rankHysteresis) < cfg.maxRank := by
        exact_mod_cast hlt
      obtain ⟨hlo, hhi⟩ := h.cost i hi
      have hone := L.etxOne_le x i hi
      have hpos : 0 < etxOne := by decide
      have hq : Qualifies c i :=
        ⟨(h.links i).mp hi, hrouted, by unfold pathCost; omega, by unfold pathCost; omega⟩
      have hle := lgRouteRecompute_rank_le_pathCost hrole hq
      unfold pathCost at hle
      have hsum : (lgRouteRecompute c).2.net.rank ≤
          (c.view i).peerRank + (L.hi x i + rankHysteresis) := by omega
      rw [far_of_lt (by omega)]
      exact_mod_cast hsum

/-- Handling an advertisement picks one from that and the news. -/
theorem At.handleAdv (h : L.At x c) (o : Oracle) (i : Fin cfg.maxNeighbors) {buf : Bytes}
    (hbuf : 5 ≤ buf.length) :
    L.At x (lgRouteHandleAdv o c i buf) ∧
      L.grid.Picks x (fun j => far ((LockGrid.noteAdv c i buf).view j).peerRank)
        (far (lgRouteHandleAdv o c i buf).net.rank) := by
  obtain ⟨d, hd, hout⟩ := lgRouteHandleAdv_spec o c i buf hbuf
  have hat : L.At x d := (h.noteAdv i buf).sameTable hd
  refine ⟨hat.recompute.sameTable hout, ?_⟩
  have hpicks := hat.picks
  simp only [hd.drifts.peerRank] at hpicks
  rw [hout.drifts.rank]
  exact hpicks

end Layout

/-! ## The grid -/

section

variable {ι : Type*} [DecidableEq ι]

/-- Between recomputations the costs stay within their bounds. -/
def Doing.Within (L : Layout cfg ι) : Doing cfg ι → Prop
  | .drift x c' => ∀ i ∈ L.links x,
    L.lo x i ≤ (c'.view i).linkCost ∧ (c'.view i).linkCost ≤ L.hi x i
  | _ => True

namespace Layout

/-- Every node stands at its place, and no two have one address. -/
structure Fits (L : Layout cfg ι) (g : ι → Node cfg) : Prop where
  stands : ∀ x, L.At x (g x)
  addrs : ∀ x y, (g x).ident.addr = (g y).ident.addr → x = y
  peer : ∀ x, ∀ i ∈ L.links x, ((g x).neigh i).addr = (g (L.peer x i)).ident.addr

/-- Rounds in each of which every node receives the current advertisement of every linked
neighbour and recomputes, in any order and as often as it may. -/
inductive Rounds (L : Layout cfg ι) : ℕ → (ι → Node cfg) → (ι → Node cfg) → Prop
  | zero (g : ι → Node cfg) : Rounds L 0 g g
  | succ {n : ℕ} {g g' g'' : ι → Node cfg} {l : List (Doing cfg ι)} (hrounds : Rounds L n g g')
    (hcourse : Course g' l g'') (hcosts : ∀ e ∈ l, e.Within L)
    (hall : ∀ x, Done L.links (l.flatMap Doing.acts) x) : Rounds L (n + 1) g g''

variable {L : Layout cfg ι} {g g' : ι → Node cfg} {e : Doing cfg ι}

/-- Only node `x` has changed, to one that stands there as well. -/
theorem Fits.update (h : L.Fits g) {x : ι} {c' : Node cfg} (hat : L.At x c')
    (hident : c'.ident = (g x).ident) (hneigh : ∀ i, (c'.neigh i).addr = ((g x).neigh i).addr) :
    L.Fits (Function.update g x c') := by
  have hsame : ∀ y, (Function.update g x c' y).ident = (g y).ident := by
    intro y
    by_cases hy : y = x
    · subst hy
      simpa using hident
    · simp [hy]
  refine ⟨?_, ?_, ?_⟩
  · intro y
    by_cases hy : y = x
    · subst hy
      simpa using hat
    · simpa [hy] using h.stands y
  · intro y z he
    rw [hsame, hsame] at he
    exact h.addrs y z he
  · intro y i hi
    rw [hsame, ← h.peer y i hi]
    by_cases hy : y = x
    · subst hy
      simpa using hneigh i
    · simp [hy]

theorem Fits.apply (h : L.Fits g) (he : e.Possible g) (hcost : e.Within L) :
    L.Fits (e.apply g) := by
  cases e with
  | advert x i y o =>
    obtain ⟨d, ⟨net, rfl, -⟩, hout⟩ :=
      lgRouteHandleAdv_spec o (g x) i _ (lgRouteBuildAdv_length (g y))
    have hsame := (lgRouteRecompute_sameLinks _).trans hout.drifts.toSameLinks
    have hat := ((h.stands x).handleAdv o i (lgRouteBuildAdv_length (g y))).1
    exact h.update hat hsame.ident fun j => (hsame.neigh j).2
  | recompute x =>
    have hsame := lgRouteRecompute_sameLinks (g x)
    exact h.update (h.stands x).recompute hsame.ident fun j => (hsame.neigh j).2
  | drift x c' =>
    have hd : Drifts (g x) c' := he
    have hrank := hd.rank.trans_le (h.stands x).rank
    have hat := (h.stands x).congr hd.role hrank (fun i => (hd.neigh i).1) hcost
    exact h.update hat hd.ident fun j => (hd.neigh j).2

/-- What happens in the grid are steps of its distances. -/
theorem Fits.refines (h : L.Fits g) (he : e.Possible g) :
    L.grid.web.Run (vector g) e.acts (vector (e.apply g)) := by
  cases e with
  | advert x i y o =>
    obtain ⟨hlinked, haddr⟩ : _ ∧ _ := he
    have hi : i ∈ L.links x := ((h.stands x).links i).mpr hlinked
    obtain rfl : y = L.peer x i := h.addrs _ _ (haddr.symm.trans (h.peer x i hi))
    obtain ⟨hat, hpicks⟩ :=
      (h.stands x).handleAdv o i (lgRouteBuildAdv_length (g (L.peer x i)))
    have hnews : advRank (lgRouteBuildAdv (g (L.peer x i)) advCap) =
        (g (L.peer x i)).net.rank := advRank_build _ (h.stands _).rank
    -- between the two steps the news is in the table and the rank is the old one
    let t : State ι (Fin cfg.maxNeighbors) :=
      ⟨(vector g).dist, (vector (Doing.apply g (.advert x i (L.peer x i) o))).heard⟩
    have hheard : ∀ j, t.heard x j = far ((LockGrid.noteAdv (g x) i
        (lgRouteBuildAdv (g (L.peer x i)) advCap)).view j).peerRank := by
      intro j
      obtain ⟨d, hd, hout⟩ :=
        lgRouteHandleAdv_spec o (g x) i _ (lgRouteBuildAdv_length (g (L.peer x i)))
      simp only [t, vector, Doing.apply, Function.update_self]
      rw [hout.drifts.peerRank, (lgRouteRecompute_view d j).1, hd.drifts.peerRank]
    have hhear : L.grid.web.Step (vector g) (.hear x i (L.peer x i)) t := by
      refine Web.Step.hear (W := L.grid.web) x i rfl ?_ ?_
      · rw [hheard, noteAdv_peerRank_self, hnews]
        rfl
      · intro x' j hne
        by_cases hxx : x' = x
        · subst hxx
          have hj : j ≠ i := fun hji => hne (by rw [hji])
          rw [hheard, noteAdv_peerRank_ne _ _ hj]
          rfl
        · simp [t, vector, Doing.apply, hxx]
    have hchoose : L.grid.web.Step t (.choose x)
        (vector (Doing.apply g (.advert x i (L.peer x i) o))) := by
      refine .choose x rfl (fun x' hne => vector_update_dist x _ hne) ?_
      rw [show t.heard x = _ from funext hheard]
      change L.grid.Picks _ _ _
      simpa [vector, Doing.apply] using hpicks
    exact .cons hhear (.cons hchoose (.nil _))
  | recompute x =>
    have hpicks := (h.stands x).picks
    refine .cons (.choose x ?_ (fun x' hne => vector_update_dist x _ hne) ?_) (.nil _)
    · funext x' j
      by_cases hxx : x' = x
      · subst hxx
        simp [vector, (lgRouteRecompute_view (g x') j).1]
      · simp [vector, hxx]
    · change L.grid.Picks _ _ _
      simpa [vector, Doing.apply] using hpicks
  | drift x c' =>
    have hd : Drifts (g x) c' := he
    have hsame : vector (Doing.apply g (.drift x c')) = vector g := by
      unfold vector
      congr 1
      · funext x'
        by_cases hxx : x' = x
        · subst hxx
          simp [Doing.apply, hd.rank]
        · simp [Doing.apply, hxx]
      · funext x' j
        by_cases hxx : x' = x
        · subst hxx
          simp [Doing.apply, hd.peerRank]
        · simp [Doing.apply, hxx]
    rw [hsame]
    exact .nil _

theorem Fits.course {l : List (Doing cfg ι)} (h : L.Fits g) (hcourse : Course g l g')
    (hcosts : ∀ e ∈ l, e.Within L) :
    L.grid.web.Run (vector g) (l.flatMap Doing.acts) (vector g') ∧ L.Fits g' := by
  induction hcourse with
  | nil g => exact ⟨.nil _, h⟩
  | cons he _ ih =>
    have hmid := h.apply he (hcosts _ List.mem_cons_self)
    obtain ⟨hrun, hlast⟩ := ih hmid fun e hmem => hcosts e (List.mem_cons_of_mem _ hmem)
    exact ⟨Web.run_append.mpr ⟨_, h.refines he, hrun⟩, hlast⟩

theorem Rounds.refines {n : ℕ} (hrounds : L.Rounds n g g') (h : L.Fits g) :
    L.grid.web.Rounds n (vector g) (vector g') ∧ L.Fits g' := by
  induction hrounds with
  | zero g => exact ⟨.zero _, h⟩
  | succ _ hcourse hcosts hall ih =>
    obtain ⟨hrounds, hmid⟩ := ih h
    obtain ⟨hrun, hlast⟩ := hmid.course hcourse hcosts
    exact ⟨.succ hrounds hrun hall, hlast⟩

/-! ## Rounds there can be -/

/-- Every linked neighbour's advertisement, and a recomputation. -/
noncomputable def hearing (L : Layout cfg ι) (o : Oracle) (x : ι) : List (Doing cfg ι) :=
  open Classical in
  ((List.finRange cfg.maxNeighbors).filter (· ∈ L.links x)).map
    (fun i => Doing.advert x i (L.peer x i) o) ++ [Doing.recompute x]

omit [DecidableEq ι] in
theorem mem_hearing {o : Oracle} {x : ι} (he : e ∈ L.hearing o x) :
    (∃ i ∈ L.links x, e = .advert x i (L.peer x i) o) ∨ e = .recompute x := by
  rcases List.mem_append.mp he with he | he
  · obtain ⟨i, hi, rfl⟩ := List.mem_map.mp he
    exact .inl ⟨i, by simpa using hi, rfl⟩
  · exact .inr (List.mem_singleton.mp he)

theorem Fits.exists_course (h : L.Fits g) {l : List (Doing cfg ι)} {o : Oracle}
    (hl : ∀ e ∈ l, ∃ x, e ∈ L.hearing o x) : ∃ g', Course g l g' := by
  induction l generalizing g with
  | nil => exact ⟨g, .nil g⟩
  | cons e l ih =>
    obtain ⟨x, he⟩ := hl e List.mem_cons_self
    have hcan : e.Possible g ∧ e.Within L := by
      rcases mem_hearing he with ⟨i, hi, rfl⟩ | rfl
      · exact ⟨⟨((h.stands x).links i).mp hi, h.peer x i hi⟩, trivial⟩
      · exact ⟨trivial, trivial⟩
    obtain ⟨g', hcourse⟩ :=
      ih (h.apply hcan.1 hcan.2) fun e' he' => hl e' (List.mem_cons_of_mem _ he')
    exact ⟨g', .cons hcan.1 hcourse⟩

omit [DecidableEq ι] in
theorem hearing_done (o : Oracle) {l : List ι} {x : ι} (hx : x ∈ l) :
    Done L.links ((l.flatMap (L.hearing o)).flatMap Doing.acts) x := by
  obtain ⟨l₁, l₂, rfl⟩ := List.append_of_mem hx
  classical
  let adverts : List (Doing cfg ι) := ((List.finRange cfg.maxNeighbors).filter
    (· ∈ L.links x)).map fun i => .advert x i (L.peer x i) o
  refine ⟨(l₁.flatMap (L.hearing o)).flatMap Doing.acts ++ adverts.flatMap Doing.acts,
    (l₂.flatMap (L.hearing o)).flatMap Doing.acts, ?_, ?_⟩
  · simp [hearing, adverts, Doing.acts]
  · intro i hi
    refine ⟨L.peer x i, List.mem_append_right _ (List.mem_flatMap.mpr ?_)⟩
    refine ⟨.advert x i (L.peer x i) o, List.mem_map.mpr ⟨i, by simpa using hi, rfl⟩, ?_⟩
    simp [Doing.acts]

/-- From wherever a finite grid starts, there are as many rounds as one likes. -/
theorem Fits.exists_rounds [Fintype ι] (h : L.Fits g) (n : ℕ) : ∃ g', L.Rounds n g g' := by
  induction n with
  | zero => exact ⟨g, .zero g⟩
  | succ n ih =>
    obtain ⟨g', hrounds⟩ := ih
    have hmid := (hrounds.refines h).2
    let l : List (Doing cfg ι) := (Finset.univ : Finset ι).toList.flatMap (L.hearing (calm 0))
    have hl : ∀ e ∈ l, ∃ x, e ∈ L.hearing (calm 0) x := by
      intro e he
      obtain ⟨x, -, hx⟩ := List.mem_flatMap.mp he
      exact ⟨x, hx⟩
    obtain ⟨g'', hcourse⟩ := hmid.exists_course hl
    refine ⟨g'', .succ hrounds hcourse ?_ fun x => hearing_done _ (by simp)⟩
    intro e he
    obtain ⟨x, hx⟩ := hl e he
    rcases mem_hearing hx with ⟨i, -, rfl⟩ | rfl
    · trivial
    · trivial

end Layout

/-- From any ranks, stale ones too: once the rounds reach the ceiling, a node with a route is
joined to a backhaul by links that cost no more than its rank, and a node that fewer links than
there were rounds join to one has a route, which costs no more. -/
theorem ranks_settle {L : Layout cfg ι} {g g' : ι → Node cfg} {n : ℕ} (hg : L.Fits g)
    (h : L.Rounds n g g') (x : ι) :
    (cfg.maxRank ≤ n * etxOne → lgHasRoute (g' x) = true →
      ∃ m d, L.grid.Path L.grid.lo m x d ∧ d ≤ far (g' x).net.rank) ∧
    ∀ m < n, ∀ d, L.grid.Path L.grid.hi m x d → d < cfg.maxRank →
      lgHasRoute (g' x) = true ∧ (g' x).net.rank ≤ d := by
  obtain ⟨hrounds, hlast⟩ := h.refines hg
  have hone : ∀ x, ∀ i ∈ L.grid.links x, (etxOne : ℕ∞) ≤ L.grid.lo x i :=
    fun x i hi => by
      rw [Layout.grid_lo]
      exact_mod_cast L.etxOne_le x i hi
  obtain ⟨habove, hbelow⟩ := DistanceVector.Grid.rounds_settle hone hrounds x
  constructor
  · intro hn hroute
    have hmax := cfg.maxRank_range.1
    rcases habove with rfl | htop | ⟨hcap, hlong⟩ | hpath
    · omega
    · have hinf : (g' x).net.rank = rankInfinite := far_eq_top.mp htop
      have hrole : (g' x).net.role = .backhaul := by
        simpa [lgHasRoute, hinf] using hroute
      exact ⟨0, 0, .sink ((hlast.stands x).sink.mpr hrole), zero_le⟩
    · have hcap' : (cfg.maxRank : ℕ∞) ≤ n * etxOne := by exact_mod_cast hn
      exact absurd (hcap'.trans hlong) (not_le.mpr hcap)
    · exact hpath
  · intro m hm d hpath hcap
    have hle : far (g' x).net.rank ≤ d := hbelow m hm d hpath hcap
    have hfin : (g' x).net.rank ≠ rankInfinite := by
      intro hinf
      rw [far_eq_top.mpr hinf, top_le_iff] at hle
      rw [hle] at hcap
      exact absurd hcap (by simp)
    rw [far, if_neg hfin] at hle
    exact ⟨by simp [lgHasRoute, hfin], hle⟩

end

/-- A backhaul, and a node that is linked with it and remembers nothing. -/
def household (b : Bool) : Node .default :=
  let c := Node.boot .default (plainIdent (if b then 2 else 1) 1)
  { c with
    net := { c.net with role := if b then .backhaul else .leaf, rank := rankInfinite }
    neigh := fun i =>
      if i.val = 0 then { state := .linked, addr := if b then 1 else 2 } else {}
    view := fun _ => { peerRank := rankInfinite, linkCost := 16 } }

def householdLayout : Layout .default Bool where
  links _ := {i | i.val = 0}
  peer x _ := !x
  sinks := {true}
  lo _ _ := 16
  hi _ _ := 16
  etxOne_le _ _ _ := by decide

theorem household_fits : householdLayout.Fits household where
  stands x := by
    refine ⟨?_, ?_, ?_, fun i _ => ⟨le_rfl, le_rfl⟩⟩
    · cases x <;> simp [householdLayout, household]
    · cases x <;> exact le_rfl
    · intro i
      by_cases hi : i.val = 0 <;> simp [householdLayout, household, hi]
  addrs x y he := by
    cases x <;> cases y <;> first | rfl | exact absurd he (by decide)
  peer x i hi := by
    have hzero : i.val = 0 := hi
    cases x <;> simp [householdLayout, household, hzero, Node.boot, plainIdent]

/-- After as many rounds as the ceiling has room for, the node has a route, and a path stands
behind it. -/
theorem ranks_settle_household :
    ∃ g, householdLayout.Rounds 32 household g ∧ lgHasRoute (g false) = true ∧
      (g false).net.rank ≤ 20 ∧
      ∃ m d, householdLayout.grid.Path householdLayout.grid.lo m false d ∧
        d ≤ far (g false).net.rank := by
  obtain ⟨g, hg⟩ := household_fits.exists_rounds 32
  have hpath : householdLayout.grid.Path householdLayout.grid.hi 1 false (0 + 20) :=
    .hop (k := ⟨0, by decide⟩) rfl (.sink rfl)
  have hsettle := ranks_settle household_fits hg false
  obtain ⟨hroute, hrank⟩ := hsettle.2 1 (by decide) _ hpath (by decide)
  exact ⟨g, hg, hroute, by exact_mod_cast hrank, hsettle.1 (by decide) hroute⟩

end LockGrid
