import LockGrid.Advert

/-!
# Rank changes that are announced

The calls of `lg_route_recompute` in the operations that can change a rank, and which of them
leave an urgent advertisement for every neighbour.
-/
namespace LockGrid

variable {cfg : Config} {c m : Node cfg}

/-- What makes a node take its rank anew. -/
inductive Trigger (cfg : Config)
  | linkUp (i : Fin cfg.maxNeighbors) (pp : LinkParams) (initiator : Bool)
  | linkDown (i : Fin cfg.maxNeighbors)
  | adv (i : Fin cfg.maxNeighbors) (buf : Bytes)
  | role (want : Role)

/-- The entry of a link that comes up, on the schedule it starts on. -/
def cameUp (c : Node cfg) (i : Fin cfg.maxNeighbors) (pp : LinkParams) (s : Schedule) :
    Node cfg :=
  let n := c.neigh i
  let c := c.setNeigh i
    { n with state := .linked, sched := s, tx := { n.tx with txPending := false } }
  let c := c.setView i
    { c.view i with peerRank := pp.rank.toNat, role := pp.role, consecMisses := 0 }
  lgNeighUpdateCost c i

/-- The entry of a link that went down, with the routes over it flushed. -/
def wentDown (c : Node cfg) (i : Fin cfg.maxNeighbors) : Node cfg :=
  let n := c.neigh i
  let hist := { c.hist with
    live := destroyed c.hist.live n.keys
    keylessDowns := c.hist.keylessDowns + if n.keys.hasKey then 0 else 1 }
  let c := { c.setNeigh i n.down with hist := hist }.note i (.down n.keys.linkKey)
  let c := c.setView i { c.view i with isParent := false }
  lgRouteFlushVia c n.addr

/-- The hearsay and the routes an advertisement brings. -/
def tookIn (c : Node cfg) (i : Fin cfg.maxNeighbors) (buf : Bytes) : Node cfg :=
  let count := min (getByte buf 4).toNat ((buf.length - 5) / 4)
  (List.range count).foldl (fun c k =>
    advEntry (advRank buf) (c.neigh i).addr c (getLe16 buf (5 + 4 * k))
      (getLe16 buf (7 + 4 * k)).toNat) (noteAdv c i buf)

/-- The node with which the operation calls `lg_route_recompute`, if it does. -/
def Trigger.meets (c : Node cfg) : Trigger cfg → Option (Node cfg)
  | .linkUp i pp initiator =>
    (anchorCatchUp cfg c.nowUs catchUpFuel (startSchedule c pp initiator (c.neigh i).sched)).map
      (cameUp c i pp)
  | .linkDown i => if (c.neigh i).state = .linked then some (wentDown c i) else none
  | .adv i buf => if 5 ≤ buf.length then some (tookIn c i buf) else none
  | .role want =>
    if want = c.net.role then none
    else some { c with net := { c.net with role := want, roleChangedUs := c.nowUs } }

/-- What the operation goes on to do after `lg_route_recompute`. -/
def Trigger.goesOn (o : Oracle) (c : Node cfg) : Trigger cfg → Node cfg
  | .linkUp .. | .linkDown _ =>
    lgDiscRetune o 7
      (lgRoleEvaluate o { c with net := { c.net with linkChangeUs := c.nowUs } })
  | .adv .. => gossipConsiderSeeking o c
  | .role _ => lgDiscRetune o 2 c

/-- The operation itself. -/
def Trigger.run (o : Oracle) (c : Node cfg) : Trigger cfg → Option (Node cfg)
  | .linkUp i pp initiator => lgLinkEstablish o c i pp initiator
  | .linkDown i => some (lgLinkDown o c i)
  | .adv i buf => some (lgRouteHandleAdv o c i buf)
  | .role want => some (applyRole o c want)

/-- The role in which the operation takes the rank. -/
def Trigger.roleIn (c : Node cfg) : Trigger cfg → Role
  | .role want => want
  | _ => c.net.role

/-- Every neighbour is owed an urgent advertisement. -/
def Announced (c : Node cfg) : Prop :=
  c.net.advUrgent = true ∧ ∀ i, (c.view i).advUrgentDone = false

instance (c : Node cfg) : Decidable (Announced c) := instDecidableAnd

/-- An operation is what comes before its call of `lg_route_recompute`, the call, and the rest. -/
theorem Trigger.run_eq (t : Trigger cfg) (o : Oracle) (hm : t.meets c = some m) :
    t.run o c = some (t.goesOn o (lgRouteRecompute m).2) := by
  cases t with
  | linkUp i pp initiator =>
    obtain ⟨s, hs, rfl⟩ := Option.map_eq_some_iff.mp hm
    simp only [Trigger.run, lgLinkEstablish, hs]
    rfl
  | linkDown i =>
    simp only [Trigger.meets] at hm
    split at hm
    · next hl =>
      cases hm
      simp only [Trigger.run, lgLinkDown_eq, hl]
      rfl
    · cases hm
  | adv i buf =>
    simp only [Trigger.meets] at hm
    split at hm
    · next hlen =>
      cases hm
      simp only [Trigger.run, lgRouteHandleAdv, not_lt.mpr hlen, if_false]
      rfl
    · cases hm
  | role want =>
    simp only [Trigger.meets] at hm
    split at hm
    · cases hm
    · next hne =>
      cases hm
      simp only [Trigger.run, applyRole, hne, if_false]
      rfl

/-! ## What is announced -/

/-- What comes before the call leaves the rank and what has been announced. -/
theorem Trigger.meets_keeps {t : Trigger cfg} (hm : t.meets c = some m) :
    m.net.rank = c.net.rank ∧ m.net.role = t.roleIn c ∧ (Announced m ↔ Announced c) := by
  -- an update of one neighbour's view that leaves its flag
  have hview : ∀ (d : Node cfg) (i : Fin cfg.maxNeighbors) (v : View),
      v.advUrgentDone = (d.view i).advUrgentDone → (Announced (d.setView i v) ↔ Announced d) := by
    intro d i v hv
    have hsame : ∀ j, ((d.setView i v).view j).advUrgentDone = (d.view j).advUrgentDone := by
      intro j
      by_cases hj : j = i
      · subst hj
        simp [Node.setView, hv]
      · simp [Node.setView, hj]
    simp only [Announced, hsame]
    rfl
  cases t with
  | linkUp i pp initiator =>
    obtain ⟨s, -, rfl⟩ := Option.map_eq_some_iff.mp hm
    refine ⟨rfl, rfl, ?_⟩
    have hnoted : ∀ d : Node cfg, Announced (lgNeighUpdateCost d i) ↔ Announced d :=
      fun d => hview d i _ rfl
    refine (hnoted _).trans ?_
    exact hview (c.setNeigh i { c.neigh i with
      state := .linked, sched := s, tx := { (c.neigh i).tx with txPending := false } }) i _ rfl
  | linkDown i =>
    simp only [Trigger.meets] at hm
    split at hm
    · cases hm
      refine ⟨rfl, rfl, ?_⟩
      have hflush : Announced (wentDown c i) ↔ Announced
          (({ c.setNeigh i (c.neigh i).down with hist := { c.hist with
            live := destroyed c.hist.live (c.neigh i).keys
            keylessDowns := c.hist.keylessDowns + if (c.neigh i).keys.hasKey then 0 else 1 } } :
              Node cfg).note i (.down (c.neigh i).keys.linkKey)) := hview _ i _ rfl
      exact hflush
    · cases hm
  | adv i buf =>
    simp only [Trigger.meets] at hm
    split at hm
    · cases hm
      have hsame : SameTable (noteAdv c i buf) (tookIn c i buf) :=
        foldl_sameTable _ (fun _ _ => advEntry_sameTable _ _ _ _ _) _ _
      obtain ⟨net, heq, hrank, hrole, hadv⟩ := hsame
      rw [heq]
      refine ⟨hrank, hrole, ?_⟩
      have hnote : Announced (noteAdv c i buf) ↔ Announced c := hview c i _ rfl
      rw [← hnote]
      simp only [Announced, hadv]
    · cases hm
  | role want =>
    simp only [Trigger.meets] at hm
    split at hm
    · cases hm
    · cases hm
      exact ⟨rfl, rfl, .rfl⟩

/-- A backhaul's rank is set without a word; another role's change is announced to all. -/
theorem lgRouteRecompute_announced (hch : (lgRouteRecompute c).2.net.rank ≠ c.net.rank) :
    Announced (lgRouteRecompute c).2 ↔ c.net.role ≠ .backhaul ∨ Announced c := by
  by_cases hrole : c.net.role = .backhaul
  · have hsame : Announced (lgRouteRecompute c).2 ↔ Announced c := by
      simp [lgRouteRecompute, hrole, Announced]
    rw [hsame]
    exact ⟨.inr, fun h => h.resolve_left fun hne => hne hrole⟩
  · refine iff_of_true ?_ (.inl hrole)
    simp only [lgRouteRecompute, hrole, if_false] at hch
    simp [lgRouteRecompute, hrole, Announced, hch]

/-- A call of `lg_route_recompute` that changes the rank announces it exactly when the role the
rank is taken in is not that of a backhaul, or every neighbour is owed an advertisement anyway. -/
theorem rank_change_announced_iff (t : Trigger cfg) (hm : t.meets c = some m)
    (hch : (lgRouteRecompute m).2.net.rank ≠ c.net.rank) :
    Announced (lgRouteRecompute m).2 ↔ t.roleIn c ≠ .backhaul ∨ Announced c := by
  obtain ⟨hrank, hrole, hann⟩ := Trigger.meets_keeps hm
  rw [lgRouteRecompute_announced (by rwa [hrank]), hrole, hann]

/-- A leaf that had no rank hears of one. -/
theorem rank_change_announced_adv :
    Announced (lgRouteRecompute (tookIn (twoUplinks 16 24) ⟨0, by decide⟩
      [ctrlRouteAdv, 8, 0, 1, 0])).2 :=
  (rank_change_announced_iff (c := twoUplinks 16 24)
    (.adv ⟨0, by decide⟩ [ctrlRouteAdv, 8, 0, 1, 0]) rfl (by decide +kernel)).mpr
    (by decide +kernel)

/-- A leaf of rank 32 that has told both its neighbours so. -/
def settledLeaf : Node .default :=
  noteAdvertised (noteAdvertised (lgRouteRecompute (twoUplinks 16 24)).2
    ⟨0, Config.default_neighbors⟩) ⟨1, Config.default_neighbors_two⟩

/-- A node that becomes a backhaul takes the rank 0, and tells nobody. -/
theorem not_rank_change_announced_backhaul :
    ¬ ∀ (t : Trigger .default) (c m : Node .default), t.meets c = some m →
      (lgRouteRecompute m).2.net.rank ≠ c.net.rank → Announced (lgRouteRecompute m).2 := by
  intro h
  have hann := h (.role .backhaul) settledLeaf _ rfl (by decide +kernel)
  exact absurd hann (by decide +kernel)

end LockGrid
