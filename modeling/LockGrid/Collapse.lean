import LockGrid.Advert
import LockGrid.Inflation

/-!
# A grid without a sink

Nodes none of which is a backhaul and whose links are only among themselves hear each other's
advertisements and recompute their ranks. They refine distance vectors without a sink, so the
ceiling on ranks leaves all of them without a route in the end.
-/
namespace LockGrid

open DistanceVector (State Step Run Done Rounds)

variable {cfg : Config}

/-! ## The cost of a link -/

/-- The cost is one that `lg_neigh_update_cost` yields. -/
def View.Costed (v : View) : Prop :=
  ∃ v' : View, etxOne ≤ v'.etxQ4 ∧ v.linkCost = v'.updateCost.linkCost

theorem View.Costed.etxOne_le {v : View} (h : v.Costed) : etxOne ≤ v.linkCost := by
  obtain ⟨v', hetx, he⟩ := h
  have hinf : etxOne ≤ rankInfinite - 1 := by decide
  have hle : etxOne ≤ v'.updateCost.linkCost := by
    simp only [View.updateCost]
    exact le_min (Nat.le_add_right_of_le hetx) hinf
  exact he ▸ hle

theorem View.updateCost_costed {v : View} (h : etxOne ≤ v.etxQ4) : v.updateCost.Costed :=
  ⟨v, h, rfl⟩

theorem View.txResult_costed (v : View) (acked : Bool) : (v.txResult acked).Costed := by
  refine ⟨{ v with etxQ4 := (v.txResult acked).etxQ4 }, ?_, rfl⟩
  simp only [View.txResult, View.updateCost]
  omega

/-! ## What one node does -/

/-- The links, their costs and what was heard on them are as before; a cost may have drifted. -/
structure SameLinks (c c' : Node cfg) : Prop where
  ident : c'.ident = c.ident
  role : c'.net.role = c.net.role
  neigh : ∀ i, (c'.neigh i).state = (c.neigh i).state ∧ (c'.neigh i).addr = (c.neigh i).addr
  peerRank : ∀ i, (c'.view i).peerRank = (c.view i).peerRank
  costed : ∀ i, (c'.view i).linkCost = (c.view i).linkCost ∨ (c'.view i).Costed

/-- Whatever a node does between recomputations: its costs drift, its hysteresis changes, and so
does anything that is neither its rank nor what its neighbours told it. -/
structure Drifts (c c' : Node cfg) : Prop extends SameLinks c c' where
  rank : c'.net.rank = c.net.rank

theorem setView_drifts (c : Node cfg) (i : Fin cfg.maxNeighbors) (v : View)
    (hpeer : v.peerRank = (c.view i).peerRank)
    (hcost : v.linkCost = (c.view i).linkCost ∨ v.Costed) : Drifts c (c.setView i v) := by
  refine ⟨⟨rfl, rfl, fun _ => ⟨rfl, rfl⟩, ?_, ?_⟩, rfl⟩
  · intro j
    by_cases hj : j = i
    · subst hj
      simpa [Node.setView] using hpeer
    · simp [Node.setView, hj]
  · intro j
    by_cases hj : j = i
    · subst hj
      simpa [Node.setView] using hcost
    · simp [Node.setView, hj]

theorem lgNeighTxResult_drifts (c : Node cfg) (i : Fin cfg.maxNeighbors) (acked : Bool) :
    Drifts c (lgNeighTxResult c i acked) := by
  have h := setView_drifts (noteResult c i acked) i ((c.view i).txResult acked) rfl
    (.inr (View.txResult_costed _ _))
  exact ⟨⟨h.ident, h.role, h.neigh, h.peerRank, h.costed⟩, h.rank⟩

theorem lgNeighRxRssi_drifts (c : Node cfg) (i : Fin cfg.maxNeighbors) (rssi : ℤ) :
    Drifts c (lgNeighRxRssi c i rssi) :=
  setView_drifts c i _ rfl (.inl rfl)

theorem lgNeighUpdateCost_drifts (c : Node cfg) (i : Fin cfg.maxNeighbors)
    (h : etxOne ≤ (c.view i).etxQ4) : Drifts c (lgNeighUpdateCost c i) :=
  setView_drifts c i _ rfl (.inr (View.updateCost_costed h))

/-- A rank as a distance. -/
def far (rank : ℕ) : ℕ∞ := if rank = rankInfinite then ⊤ else rank

theorem far_of_lt {rank : ℕ} (h : rank < rankInfinite) : far rank = rank :=
  if_neg h.ne

theorem far_eq_top {rank : ℕ} : far rank = ⊤ ↔ rank = rankInfinite := by
  unfold far
  split_ifs with h
  · simp [h]
  · simp [h]

theorem Kept.lt_maxRank {c : Node cfg} {i : Fin cfg.maxNeighbors} (h : Kept c i) :
    rankThrough c i < cfg.maxRank := by
  have hfin := h.1.1
  unfold rankThrough at hfin ⊢
  dsimp only at hfin ⊢
  split_ifs at hfin ⊢ with hl hm
  · exact absurd hfin (lt_irrefl _)
  · exact absurd hfin (lt_irrefl _)
  · exact Nat.not_le.mp hm

theorem View.Costed.congr {v v' : View} (h : v.Costed) (he : v'.linkCost = v.linkCost) :
    v'.Costed := by
  obtain ⟨w, hetx, hw⟩ := h
  exact ⟨w, hetx, he.trans hw⟩

theorem SameLinks.trans {c c' c'' : Node cfg} (h : SameLinks c c') (h' : SameLinks c' c'') :
    SameLinks c c'' where
  ident := h'.ident.trans h.ident
  role := h'.role.trans h.role
  neigh i := ⟨(h'.neigh i).1.trans (h.neigh i).1, (h'.neigh i).2.trans (h.neigh i).2⟩
  peerRank i := (h'.peerRank i).trans (h.peerRank i)
  costed i := by
    rcases h'.costed i with he | hc
    · exact (h.costed i).imp he.trans fun hc => hc.congr he
    · exact .inr hc

theorem SameTable.drifts {c c' : Node cfg} (h : SameTable c c') : Drifts c c' := by
  obtain ⟨net, rfl, hrank, hrole, -⟩ := h
  exact ⟨⟨rfl, hrole, fun _ => ⟨rfl, rfl⟩, fun _ => rfl, fun _ => .inl rfl⟩, hrank⟩

theorem lgRouteRecompute_sameLinks (c : Node cfg) : SameLinks c (lgRouteRecompute c).2 where
  ident := by
    obtain ⟨net, view, he⟩ := lgRouteRecompute_quiet c
    rw [he]
  role := by
    unfold lgRouteRecompute
    split_ifs <;> rfl
  neigh i := by
    rw [(lgRouteRecompute_quiet c).neigh]
    exact ⟨rfl, rfl⟩
  peerRank i := (lgRouteRecompute_view c i).1
  costed i := .inl (lgRouteRecompute_view c i).2

/-- A node of a grid without a sink. -/
structure Rootless (c : Node cfg) : Prop where
  role : c.net.role ≠ .backhaul
  rank : c.net.rank ≤ rankInfinite
  costed : ∀ i, (c.neigh i).state = .linked → (c.view i).Costed

theorem SameLinks.rootless {c c' : Node cfg} (h : SameLinks c c') (hc : Rootless c)
    (hrank : c'.net.rank ≤ rankInfinite) : Rootless c' where
  role := h.role ▸ hc.role
  rank := hrank
  costed i hl := by
    rcases h.costed i with he | hcost
    · exact (hc.costed i ((h.neigh i).1 ▸ hl)).congr he
    · exact hcost

/-- A recomputation takes the rank of a linked neighbour and the cost of the link, or none. -/
theorem lgRouteRecompute_chooses {c : Node cfg} (hc : Rootless c) :
    far (lgRouteRecompute c).2.net.rank = ⊤ ∨ ∃ i, (c.neigh i).state = .linked ∧
      far (c.view i).peerRank + etxOne ≤ far (lgRouteRecompute c).2.net.rank ∧
      far (lgRouteRecompute c).2.net.rank < cfg.maxRank := by
  rcases lgRouteRecompute_rank hc.role with ⟨i, hi, hrank⟩ | ⟨-, hrank⟩
  · right
    obtain ⟨hl, hsum⟩ := hi.kept.linked
    obtain ⟨hfin, hbelow⟩ := hi.kept.1
    have hlink := (hc.costed i hl).etxOne_le
    have hlt := hi.kept.lt_maxRank
    have hle : (c.view i).peerRank + etxOne ≤ rankThrough c i := by omega
    refine ⟨i, hl, ?_⟩
    rw [hrank, far_of_lt hfin, far_of_lt (hbelow.trans hfin)]
    exact ⟨by exact_mod_cast hle, by exact_mod_cast hlt⟩
  · left
    exact far_eq_top.mpr hrank

theorem noteAdv_peerRank_self (c : Node cfg) (i : Fin cfg.maxNeighbors) (buf : Bytes) :
    ((noteAdv c i buf).view i).peerRank = advRank buf := by
  simp [noteAdv, Node.setView]

theorem noteAdv_peerRank_ne (c : Node cfg) {i j : Fin cfg.maxNeighbors} (buf : Bytes)
    (h : j ≠ i) : ((noteAdv c i buf).view j).peerRank = (c.view j).peerRank := by
  simp [noteAdv, Node.setView, h]

theorem noteAdv_linkCost (c : Node cfg) (i j : Fin cfg.maxNeighbors) (buf : Bytes) :
    ((noteAdv c i buf).view j).linkCost = (c.view j).linkCost := by
  by_cases h : j = i
  · subst h
    simp [noteAdv, Node.setView]
  · simp [noteAdv, Node.setView, h]

theorem Rootless.noteAdv {c : Node cfg} (hc : Rootless c) (i : Fin cfg.maxNeighbors)
    (buf : Bytes) : Rootless (noteAdv c i buf) := by
  refine ⟨hc.role, hc.rank, ?_⟩
  intro j hj
  exact (hc.costed j hj).congr (noteAdv_linkCost c i j buf)

/-- Handling an advertisement is hearing the rank in it and recomputing. -/
theorem lgRouteHandleAdv_chooses (o : Oracle) {c : Node cfg} (hc : Rootless c)
    (i : Fin cfg.maxNeighbors) {buf : Bytes} (hbuf : 5 ≤ buf.length) :
    SameLinks (noteAdv c i buf) (lgRouteHandleAdv o c i buf) ∧
      (lgRouteHandleAdv o c i buf).net.rank ≤ rankInfinite ∧
      (far (lgRouteHandleAdv o c i buf).net.rank = ⊤ ∨
        ∃ j, (c.neigh j).state = .linked ∧
          far ((noteAdv c i buf).view j).peerRank + etxOne ≤
            far (lgRouteHandleAdv o c i buf).net.rank ∧
          far (lgRouteHandleAdv o c i buf).net.rank < cfg.maxRank) := by
  obtain ⟨d, hd, hout⟩ := lgRouteHandleAdv_spec o c i buf hbuf
  have hd := hd.drifts
  have hout := hout.drifts
  have hnote := hc.noteAdv i buf
  have hroot : Rootless d := hd.rootless hnote (hd.rank ▸ hnote.rank)
  refine ⟨hd.toSameLinks.trans ((lgRouteRecompute_sameLinks d).trans hout.toSameLinks), ?_, ?_⟩
  · rw [hout.rank]
    exact lgRouteRecompute_rank_le d
  · rw [hout.rank]
    rcases lgRouteRecompute_chooses hroot with htop | ⟨j, hj, hle, hlt⟩
    · exact .inl htop
    · rw [(hd.neigh j).1] at hj
      rw [hd.peerRank] at hle
      exact .inr ⟨j, hj, hle, hlt⟩

/-! ## The grid -/

section

variable {ι : Type*} [DecidableEq ι]

/-- What happens in a grid: a node receives the current advertisement of a neighbour, recomputes,
or drifts. -/
inductive Doing (cfg : Config) (ι : Type*)
  | advert (x : ι) (i : Fin cfg.maxNeighbors) (y : ι) (o : Oracle)
  | recompute (x : ι)
  | drift (x : ι) (c' : Node cfg)

def Doing.apply (g : ι → Node cfg) : Doing cfg ι → ι → Node cfg
  | .advert x i y o =>
    Function.update g x (lgRouteHandleAdv o (g x) i (lgRouteBuildAdv (g y) advCap))
  | .recompute x => Function.update g x (lgRouteRecompute (g x)).2
  | .drift x c' => Function.update g x c'

/-- An advertisement comes from the node at the other end of the link it is received on. -/
def Doing.Possible (g : ι → Node cfg) : Doing cfg ι → Prop
  | .advert x i y _ =>
    ((g x).neigh i).state = .linked ∧ ((g x).neigh i).addr = (g y).ident.addr
  | .recompute _ => True
  | .drift x c' => Drifts (g x) c'

/-- The event ends in a run of `lg_route_recompute` at `x`; that of an advertisement does. -/
def Doing.Recomputes (x : ι) : Doing cfg ι → Prop
  | .advert x' _ _ _ => x' = x
  | .recompute x' => x' = x
  | .drift _ _ => False

inductive Course : (ι → Node cfg) → List (Doing cfg ι) → (ι → Node cfg) → Prop
  | nil (g : ι → Node cfg) : Course g [] g
  | cons {g g' : ι → Node cfg} {e : Doing cfg ι} {l : List (Doing cfg ι)} (he : e.Possible g)
    (hrest : Course (e.apply g) l g') : Course g (e :: l) g'

/-- In the course of `l` node `x` receives the advertisement of every linked neighbour and then
recomputes. -/
def AllHeard (g : ι → Node cfg) (l : List (Doing cfg ι)) (x : ι) : Prop :=
  ∃ l₁ e l₂, l = l₁ ++ e :: l₂ ∧ e.Recomputes x ∧
    ∀ i, ((g x).neigh i).state = .linked → ∃ y o, Doing.advert x i y o ∈ l₁ ++ [e]

/-- `n` rounds, in each of which every node receives the current advertisement of every linked
neighbour and recomputes, in any order and as often as it may. -/
inductive GridRounds : ℕ → (ι → Node cfg) → (ι → Node cfg) → Prop
  | zero (g : ι → Node cfg) : GridRounds 0 g g
  | succ {n : ℕ} {g g' g'' : ι → Node cfg} {l : List (Doing cfg ι)} (hrounds : GridRounds n g g')
    (hcourse : Course g' l g'') (hall : ∀ x, AllHeard g' l x) : GridRounds (n + 1) g g''

/-- No node is a backhaul; ranks have 16 bits, and links cost what `lg_neigh_update_cost` says. -/
structure Sinkless (links : ι → Set (Fin cfg.maxNeighbors)) (g : ι → Node cfg) : Prop where
  rootless : ∀ x, Rootless (g x)
  links : ∀ x i, i ∈ links x ↔ ((g x).neigh i).state = .linked

/-- The distances of a grid. -/
def vector (g : ι → Node cfg) : State ι (Fin cfg.maxNeighbors) where
  dist x := far (g x).net.rank
  heard x i := far ((g x).view i).peerRank

/-- What a node does, as steps of the distances. -/
def Doing.acts : Doing cfg ι → List (DistanceVector.Act ι (Fin cfg.maxNeighbors))
  | .advert x i y _ => [.hear x i y, .choose x]
  | .recompute x => [.choose x]
  | .drift _ _ => []

variable {links : ι → Set (Fin cfg.maxNeighbors)} {g g' : ι → Node cfg}

/-- Only node `x` has changed, to a node with the same links. -/
theorem Sinkless.update (hg : Sinkless links g) {x : ι} {c' : Node cfg}
    (hr : Rootless c') (hn : ∀ i, (c'.neigh i).state = ((g x).neigh i).state) :
    Sinkless links (Function.update g x c') := by
  constructor
  · intro x'
    by_cases he : x' = x
    · subst he
      simpa using hr
    · simpa [he] using hg.rootless x'
  · intro x' i
    rw [hg.links]
    by_cases he : x' = x
    · subst he
      simp [hn]
    · simp [he]

theorem Doing.sinkless {e : Doing cfg ι} (he : e.Possible g) (hg : Sinkless links g) :
    Sinkless links (e.apply g) := by
  cases e with
  | advert x i y o =>
    obtain ⟨hsame, hrank, -⟩ :=
      lgRouteHandleAdv_chooses o (hg.rootless x) i (lgRouteBuildAdv_length (g y))
    refine hg.update ?_ fun j => (hsame.neigh j).1
    exact hsame.rootless ((hg.rootless x).noteAdv i _) hrank
  | recompute x =>
    have hsame := lgRouteRecompute_sameLinks (g x)
    refine hg.update ?_ fun j => (hsame.neigh j).1
    exact hsame.rootless (hg.rootless x) (lgRouteRecompute_rank_le (g x))
  | drift x c' =>
    have hd : Drifts (g x) c' := he
    refine hg.update ?_ fun j => (hd.neigh j).1
    exact hd.rootless (hg.rootless x) (hd.rank ▸ (hg.rootless x).rank)

theorem vector_update_dist (x : ι) (c' : Node cfg) {x' : ι} (h : x' ≠ x) :
    (vector (Function.update g x c')).dist x' = (vector g).dist x' := by
  simp [vector, h]

/-- What happens in the grid are steps of the distances. -/
theorem Doing.refines {e : Doing cfg ι} (he : e.Possible g) (hg : Sinkless links g) :
    Run links etxOne cfg.maxRank (vector g) e.acts (vector (e.apply g)) := by
  cases e with
  | advert x i y o =>
    obtain ⟨hsame, -, hnew⟩ :=
      lgRouteHandleAdv_chooses o (hg.rootless x) i (lgRouteBuildAdv_length (g y))
    have hheard : advRank (lgRouteBuildAdv (g y) advCap) = (g y).net.rank :=
      advRank_build (g y) (hg.rootless y).rank
    -- between the two steps the news is in the table and the rank is the old one
    let t : State ι (Fin cfg.maxNeighbors) :=
      ⟨(vector g).dist, (vector (Doing.apply g (.advert x i y o))).heard⟩
    have hx : ∀ j, t.heard x j =
        far ((noteAdv (g x) i (lgRouteBuildAdv (g y) advCap)).view j).peerRank := by
      intro j
      simp only [t, vector, Doing.apply, Function.update_self]
      rw [hsame.peerRank]
    have hhear : DistanceVector.Step links etxOne cfg.maxRank (vector g) (.hear x i y) t := by
      refine .hear x i y rfl ?_ ?_
      · rw [hx, noteAdv_peerRank_self, hheard]
        rfl
      · intro x' j hne
        by_cases hxx : x' = x
        · subst hxx
          have hj : j ≠ i := fun h => hne (by rw [h])
          rw [hx, noteAdv_peerRank_ne _ _ hj]
          rfl
        · simp [t, vector, Doing.apply, hxx]
    have hchoose : DistanceVector.Step links etxOne cfg.maxRank t (.choose x)
        (vector (Doing.apply g (.advert x i y o))) := by
      refine .choose x rfl ?_ ?_
      · intro x' hne
        exact vector_update_dist x _ hne
      · simp only [vector, Doing.apply, Function.update_self]
        rcases hnew with htop | ⟨j, hj, hle, hlt⟩
        · exact .inl htop
        · rw [← hx] at hle
          exact .inr ⟨j, (hg.links x j).mpr hj, hle, hlt⟩
    exact .cons hhear (.cons hchoose (.nil _))
  | recompute x =>
    have hsame := lgRouteRecompute_sameLinks (g x)
    refine .cons (.choose x ?_ ?_ ?_) (.nil _)
    · funext x' j
      by_cases hxx : x' = x
      · subst hxx
        simp [vector, Doing.apply, hsame.peerRank]
      · simp [vector, Doing.apply, hxx]
    · intro x' hne
      exact vector_update_dist x _ hne
    · simp only [vector, Doing.apply, Function.update_self]
      rcases lgRouteRecompute_chooses (hg.rootless x) with htop | ⟨j, hj, hle, hlt⟩
      · exact .inl htop
      · exact .inr ⟨j, (hg.links x j).mpr hj, hle, hlt⟩
  | drift x c' =>
    have hd : Drifts (g x) c' := he
    have hsame : vector (Doing.apply g (.drift x c')) = vector g := by
      unfold vector
      congr 1
      · funext x'
        by_cases hxx : x' = x
        · subst hxx
          simp [Doing.apply, hd.rank]
        · simp [Doing.apply, hxx]
      · funext x' j
        by_cases hxx : x' = x
        · subst hxx
          simp [Doing.apply, hd.peerRank]
        · simp [Doing.apply, hxx]
    rw [hsame]
    exact .nil _

theorem Course.refines {l : List (Doing cfg ι)} (h : Course g l g') (hg : Sinkless links g) :
    Run links etxOne cfg.maxRank (vector g) (l.flatMap Doing.acts) (vector g') ∧
      Sinkless links g' := by
  induction h with
  | nil g => exact ⟨.nil _, hg⟩
  | cons he _ ih =>
    obtain ⟨hrun, hlast⟩ := ih (Doing.sinkless he hg)
    exact ⟨DistanceVector.run_append.mpr ⟨_, Doing.refines he hg, hrun⟩, hlast⟩

omit [DecidableEq ι] in
/-- What `AllHeard` says of the grid, `Done` says of its distances. -/
theorem AllHeard.done {l : List (Doing cfg ι)} {x : ι} (h : AllHeard g l x)
    (hg : Sinkless links g) : Done links (l.flatMap Doing.acts) x := by
  obtain ⟨l₁, e, l₂, rfl, hx, hall⟩ := h
  -- the acts of the event that recomputes end in the choice
  obtain ⟨before, hacts⟩ : ∃ before, e.acts = before ++ [.choose x] := by
    cases e with
    | advert x' i y o =>
      obtain rfl : x' = x := hx
      exact ⟨[.hear x' i y], rfl⟩
    | recompute x' =>
      obtain rfl : x' = x := hx
      exact ⟨[], rfl⟩
    | drift x' c' => exact absurd hx id
  refine ⟨l₁.flatMap Doing.acts ++ before, l₂.flatMap Doing.acts, by simp [hacts], ?_⟩
  intro i hi
  obtain ⟨y, o, hmem⟩ := hall i ((hg.links x i).mp hi)
  refine ⟨y, ?_⟩
  rcases List.mem_append.mp hmem with hmem | hmem
  · apply List.mem_append_left
    exact List.mem_flatMap.mpr ⟨_, hmem, by simp [Doing.acts]⟩
  · apply List.mem_append_right
    obtain rfl := List.mem_singleton.mp hmem
    have hin : DistanceVector.Act.hear x i y ∈ before ++ [.choose x] := by
      rw [← hacts]
      simp [Doing.acts]
    simpa using hin

theorem GridRounds.refines {n : ℕ} (h : GridRounds n g g') (hg : Sinkless links g) :
    Rounds links etxOne cfg.maxRank n (vector g) (vector g') ∧ Sinkless links g' := by
  induction h with
  | zero g => exact ⟨.zero _, hg⟩
  | succ _ hcourse hall ih =>
    obtain ⟨hrounds, hmid⟩ := ih hg
    obtain ⟨hrun, hlast⟩ := hcourse.refines hmid
    exact ⟨.succ hrounds hrun fun x => (hall x).done hmid, hlast⟩

/-- Without a backhaul every rank rises by `LG_ETX_ONE` in each round, and once the rounds reach
the ceiling no node has a route. -/
theorem collapses {n : ℕ} (hg : ∀ x, Rootless (g x)) (h : GridRounds n g g') (x : ι) :
    ((g' x).net.rank = rankInfinite ∨ etxOne * n ≤ (g' x).net.rank) ∧
      ((cfg.maxRank + (etxOne - 1)) / etxOne ≤ n → lgHasRoute (g' x) = false) := by
  have hsink : Sinkless (fun x => {i | ((g x).neigh i).state = .linked}) g :=
    ⟨hg, fun _ _ => Iff.rfl⟩
  obtain ⟨hrounds, hlast⟩ := h.refines hsink
  constructor
  · have hge : (n * etxOne : ℕ∞) ≤ far (g' x).net.rank := hrounds.atLeast.dist x
    by_cases hinf : (g' x).net.rank = rankInfinite
    · exact .inl hinf
    · right
      rw [far, if_neg hinf] at hge
      rw [Nat.mul_comm]
      exact_mod_cast hge
  · intro hn
    have hrange := cfg.maxRank_range.1
    have hpos : 0 < n := by
      have : 0 < (cfg.maxRank + (etxOne - 1)) / etxOne := Nat.div_pos (by omega) (by decide)
      omega
    have hcap : cfg.maxRank ≤ n * etxOne := by
      simp only [etxOne] at hn ⊢
      omega
    have htop := hrounds.dist_top hpos (by exact_mod_cast hcap) x
    have hinf : (g' x).net.rank = rankInfinite := far_eq_top.mp htop
    simp [lgHasRoute, hinf, (hlast.rootless x).role]

end

/-- Two nodes that are linked with each other and remember a rank of a sink that is gone. -/
def orphans (b : Bool) : Node .default :=
  let c := Node.boot .default (plainIdent (if b then 2 else 1) 1)
  { c with
    net := { c.net with rank := 48 }
    neigh := fun i =>
      if i.val = 0 then { state := .linked, addr := if b then 1 else 2 } else {}
    view := fun _ => { peerRank := 32, linkCost := 16 } }

theorem orphans_rootless (b : Bool) : Rootless (orphans b) where
  role := by cases b <;> decide
  rank := by cases b <;> decide
  costed _ _ := ⟨.fresh, by decide, by show 16 = View.fresh.updateCost.linkCost; decide⟩

theorem orphans_linked {b : Bool} {i : Fin Config.default.maxNeighbors}
    (h : ((orphans b).neigh i).state = .linked) : i = ⟨0, by decide⟩ := by
  by_contra hne
  have hi : i.val ≠ 0 := fun he => hne (Fin.ext he)
  simp [orphans, hi] at h

/-- The first hears the second, and then the second the first. -/
theorem orphans_round : ∃ g, GridRounds 1 orphans g := by
  let i₀ : Fin Config.default.maxNeighbors := ⟨0, by decide⟩
  let e₁ : Doing .default Bool := .advert false i₀ true (calm 0)
  let e₂ : Doing .default Bool := .advert true i₀ false (calm 0)
  have h₁ : e₁.Possible orphans := ⟨rfl, rfl⟩
  have h₂ : e₂.Possible (e₁.apply orphans) := by
    have hquiet := lgRouteHandleAdv_quiet (calm 0) (orphans false) i₀
      (lgRouteBuildAdv (orphans true) advCap)
    have hident : ((e₁.apply orphans) false).ident = (orphans false).ident := by
      obtain ⟨net, view, he⟩ := hquiet
      simp [e₁, Doing.apply, he]
    refine ⟨rfl, ?_⟩
    rw [hident]
    rfl
  refine ⟨_, .succ (.zero _) (.cons h₁ (.cons h₂ (.nil _))) ?_⟩
  intro x
  cases x with
  | false =>
    refine ⟨[], e₁, [e₂], rfl, rfl, fun i hi => ⟨true, calm 0, ?_⟩⟩
    rw [orphans_linked hi]
    exact List.mem_cons_self
  | true =>
    refine ⟨[e₁], e₂, [], rfl, rfl, fun i hi => ⟨false, calm 0, ?_⟩⟩
    rw [orphans_linked hi]
    exact List.mem_cons_of_mem _ List.mem_cons_self

theorem collapses_orphans :
    ∃ g, GridRounds 1 orphans g ∧
      ((g true).net.rank = rankInfinite ∨ etxOne * 1 ≤ (g true).net.rank) := by
  obtain ⟨g, hg⟩ := orphans_round
  exact ⟨g, hg, (collapses orphans_rootless hg true).1⟩

end LockGrid
