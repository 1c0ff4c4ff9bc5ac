import LockGrid.Entries
import LockGrid.Retell

/-!
# What calls do to the routes and the queue

A call registers destinations, each with `lg_route_add`; beyond that it loses routes at most, and
no call but `lg_start` touches the queue.
-/
namespace LockGrid

variable {cfg : Config} {psa : Psa} {c c' d e : Node cfg} {i : Fin cfg.maxNeighbors} {o : Oracle}

/-! ## Work that touches neither -/

/-- Downward routes and queue. -/
def Node.freight (c : Node cfg) : (Fin cfg.maxRoutes → Route) × (Fin cfg.txQueueSize → TxMsg) :=
  (c.net.routes, c.txq)

theorem Stocked.of_freight (h : d.freight = c.freight) : Stocked c d := by
  have hroutes : d.net.routes = c.net.routes := congrArg Prod.fst h
  have hqueue : d.txq = c.txq := congrArg Prod.snd h
  exact ⟨fun k => .inl (congrFun hroutes k), fun k _ => .inl (congrFun hqueue k)⟩

/-- Routes that are lost, and a queue that is kept. -/
theorem Stocked.of_lost (hroutes : ∀ k, d.net.routes k = c.net.routes k ∨ d.net.routes k = {})
    (hqueue : d.txq = c.txq) : Stocked c d :=
  ⟨hroutes, fun k _ => .inl (congrFun hqueue k)⟩

theorem Stocked.onward (h : Stocked c d) (h' : e.freight = d.freight) : Stocked c e := by
  have hroutes : e.net.routes = d.net.routes := congrArg Prod.fst h'
  have hqueue : e.txq = d.txq := congrArg Prod.snd h'
  constructor
  · intro k
    rw [hroutes]
    exact h.routes k
  · intro k
    rw [hqueue]
    exact h.copies k

theorem lgRouteRecompute_freight (c : Node cfg) : (lgRouteRecompute c).2.freight = c.freight := by
  unfold lgRouteRecompute
  split <;> rfl

theorem applyRole_freight (o : Oracle) (c : Node cfg) (want : Role) :
    (applyRole o c want).freight = c.freight := by
  unfold applyRole
  split
  · rfl
  · exact lgRouteRecompute_freight { c with net := { c.net with
      role := want, roleChangedUs := c.nowUs } }

theorem lgRoleEvaluate_freight (o : Oracle) (c : Node cfg) :
    (lgRoleEvaluate o c).freight = c.freight := by
  rcases lgRoleEvaluate_cases o c with h | ⟨-, want, h⟩ <;> rw [h]
  exact applyRole_freight o c want

theorem linksChanged_freight (o : Oracle) (c : Node cfg) :
    (linksChanged o c).freight = c.freight :=
  (lgRoleEvaluate_freight o _).trans (lgRouteRecompute_freight c)

theorem lgBackhaulSet_freight (o : Oracle) (c : Node cfg) (up : Bool) :
    (lgBackhaulSet o c up).freight = c.freight := by
  unfold lgBackhaulSet
  dsimp only
  split_ifs
  · rfl
  · exact lgRoleEvaluate_freight o _
  · rfl

theorem lgNeighAlloc_freight (c : Node cfg) (addr : Addr) :
    (lgNeighAlloc c addr).2.freight = c.freight := by
  rcases lgNeighAlloc_cases c addr with ⟨h, -⟩ | ⟨k, -, -, h⟩ <;> rw [h]
  rfl

theorem lgLinkEstablish_freight {pp : LinkParams} {initiator : Bool}
    (h : lgLinkEstablish o c i pp initiator = some d) : d.freight = c.freight := by
  obtain ⟨s, -, rfl⟩ := Option.map_eq_some_iff.mp h
  exact (linksChanged_freight o _).trans rfl

theorem subrateUpdateLink_stocked (c : Node cfg) (i : Fin cfg.maxNeighbors) :
    Stocked c (subrateUpdateLink c i) := by
  unfold subrateUpdateLink
  dsimp only
  split
  · exact .of_rest rfl
  · exact (lgTxqPeek_steady c _).stock.onward rfl

theorem lgLinkDown_stocked (o : Oracle) (c : Node cfg) (i : Fin cfg.maxNeighbors) :
    Stocked c (lgLinkDown o c i) := by
  rw [lgLinkDown_eq]
  dsimp only
  split
  · exact .of_rest rfl
  · refine Stocked.onward (d := lgRouteFlushVia c (c.neigh i).addr) ?_ ?_
    · refine .of_lost (fun k => ?_) rfl
      simp only [lgRouteFlushVia]
      split
      · exact .inr rfl
      · exact .inl rfl
    · exact (linksChanged_freight o _).trans rfl

/-- A node that is started has no routes and nothing in its queue. -/
theorem lgStart_freight (psa : Psa) (o : Oracle) (c : Node cfg) :
    lgStart psa o c = c ∨ (lgStart psa o c).freight = (fun _ => {}, fun _ => {}) := by
  have hq : ∀ d : Node cfg, (lgDiscBeaconFinish psa o (lgRoleEvaluate o (discInit o d))).freight =
      d.freight := fun d => lgRoleEvaluate_freight o (discInit o d)
  unfold lgStart
  split
  · exact .inl rfl
  · split
    · exact .inl rfl
    · exact .inr ((hq _).trans rfl)

theorem lgStart_queue (psa : Psa) (o : Oracle) (c : Node cfg) :
    (lgStart psa o c).txq = c.txq ∨ ∀ q, ¬ ((lgStart psa o c).txq q).Pinned := by
  rcases lgStart_freight psa o c with heq | hempty
  · exact .inl (congrArg Node.txq heq)
  · refine .inr fun q hq => ?_
    have hqueue : (lgStart psa o c).txq = fun _ => {} := congrArg Prod.snd hempty
    rw [hqueue] at hq
    cases hq.1

theorem lgStart_stocked (psa : Psa) (o : Oracle) (c : Node cfg) :
    Stocked c (lgStart psa o c) := by
  constructor
  · intro k
    rcases lgStart_freight psa o c with heq | hempty
    · exact .inl (congrArg (fun d => d.net.routes k) heq)
    · exact .inr (congrFun (congrArg Prod.fst hempty) k)
  · intro k hk
    rcases lgStart_queue psa o c with heq | hnone
    · exact .inl (congrFun heq k)
    · exact absurd hk (hnone k)

/-! ## Registration -/

/-- `lg_route_add` for each of `dests` in turn. -/
def Node.register (c : Node cfg) (via : Addr) (hops : UInt8) (dests : List Addr) : Node cfg :=
  dests.foldl (fun c a => lgRouteAdd c a via hops) c

/-- What `lg_route_add` goes by, and the queue. -/
def Node.ledger (c : Node cfg) :
    (Fin cfg.maxRoutes → Route) × ℕ × Addr × (Fin cfg.txQueueSize → TxMsg) :=
  (c.net.routes, c.nowUs, c.ident.addr, c.txq)

theorem freight_of_ledger (h : d.ledger = c.ledger) : d.freight = c.freight :=
  congrArg (fun p => (p.1, p.2.2.2)) h

theorem lgRouteAdd_congr (h : d.ledger = c.ledger) (dst via : Addr) (hops : UInt8) :
    (lgRouteAdd d dst via hops).ledger = (lgRouteAdd c dst via hops).ledger := by
  have hroutes : d.net.routes = c.net.routes := congrArg Prod.fst h
  have hnow : d.nowUs = c.nowUs := congrArg (fun p => p.2.1) h
  have haddr : d.ident.addr = c.ident.addr := congrArg (fun p => p.2.2.1) h
  have hfind : routeFind d dst = routeFind c dst := by rw [routeFind, hroutes, routeFind]
  have hvictim : routeVictim d = routeVictim c := by
    simp only [routeVictim, hroutes, hnow]
  unfold lgRouteAdd
  rw [haddr, hfind, hvictim]
  split
  · exact h
  · split
    · exact h
    · dsimp only
      rw [hroutes, hnow]
      split
      · simpa [Node.ledger, setRoute, hroutes, hnow, haddr] using congrArg (fun p => p.2.2.2) h
      · simpa [Node.ledger, setRoute, hroutes, hnow, haddr] using congrArg (fun p => p.2.2.2) h

theorem register_congr (h : d.ledger = c.ledger) (via : Addr) (hops : UInt8) (dests : List Addr) :
    (d.register via hops dests).ledger = (c.register via hops dests).ledger := by
  induction dests generalizing c d with
  | nil => exact h
  | cons a dests ih => exact ih (lgRouteAdd_congr h a via hops)

theorem gossipRecord_ledger (c : Node cfg) (addr : Addr) (rank : ℕ) :
    (gossipRecord c addr rank).ledger = c.ledger := by
  unfold gossipRecord
  split
  · rfl
  · split <;> rfl

/-- Whether a neighbour of rank `peerRank` is below this node. -/
def Node.Above (c : Node cfg) (peerRank : ℕ) : Prop :=
  c.net.rank < peerRank ∧ c.net.rank ≠ rankInfinite

instance (c : Node cfg) (peerRank : ℕ) : Decidable (c.Above peerRank) := by
  unfold Node.Above
  infer_instance

/-- What an advertisement of a node below registers are the nodes it lists. -/
theorem advEntries_ledger (peerRank : ℕ) (i : Fin cfg.maxNeighbors) {via : Addr}
    (l : List (Addr × ℕ)) : ∀ c : Node cfg, (c.neigh i).addr = via →
      (l.foldl (fun c e => advEntry peerRank (c.neigh i).addr c e.1 e.2) c).ledger =
        (if c.Above peerRank then c.register via 2 (l.map Prod.fst) else c).ledger := by
  induction l with
  | nil =>
    intro c _
    simp [Node.register]
  | cons x l ih =>
    intro c hvia
    have hq := advEntry_quiet peerRank (c.neigh i).addr c x.1 x.2
    have hrank : (advEntry peerRank (c.neigh i).addr c x.1 x.2).net.rank = c.net.rank :=
      congrArg (fun p => p.2.2.2.1) (congrArg Prod.fst (advEntry_stance peerRank _ c x.1 x.2))
    have habove : (advEntry peerRank (c.neigh i).addr c x.1 x.2).Above peerRank ↔
        c.Above peerRank := by
      unfold Node.Above
      rw [hrank]
    have hone : (advEntry peerRank (c.neigh i).addr c x.1 x.2).ledger =
        (if c.Above peerRank then lgRouteAdd c x.1 via 2 else c).ledger := by
      have hg : ∀ g : Node cfg, g.ledger = c.ledger → g.net.rank = c.net.rank →
          (if g.net.rank < peerRank ∧ g.net.rank ≠ rankInfinite then
            lgRouteAdd g x.1 (c.neigh i).addr 2 else g).ledger =
            (if c.Above peerRank then lgRouteAdd c x.1 via 2 else c).ledger := by
        intro g hledger hr
        rw [hr, hvia]
        by_cases ha : c.Above peerRank
        · have hif : c.net.rank < peerRank ∧ c.net.rank ≠ rankInfinite := ha
          rw [if_pos hif, if_pos ha]
          exact lgRouteAdd_congr hledger x.1 via 2
        · have hif : ¬ (c.net.rank < peerRank ∧ c.net.rank ≠ rankInfinite) := ha
          rw [if_neg hif, if_neg ha]
          exact hledger
      unfold advEntry
      apply hg
      · split
        · exact gossipRecord_ledger c _ _
        · rfl
      · split
        · exact congrArg (fun p => p.1.2.2.2.1) (gossipRecord_stance c _ _)
        · rfl
    rw [List.foldl_cons, ih _ (by rw [hq.neigh, hvia])]
    by_cases ha : c.Above peerRank
    · rw [if_pos (habove.mpr ha), if_pos ha]
      rw [if_pos ha] at hone
      exact register_congr hone via 2 (l.map Prod.fst)
    · rw [if_neg (mt habove.mp ha), if_neg ha]
      rwa [if_neg ha] at hone

/-! ## Calls -/

/-- The nodes that an advertisement lists. -/
def advListedAddrs (buf : Bytes) : List Addr :=
  (advRead buf).elim [] fun t => t.entries.map Prod.fst

/-- The nodes that a registration lists. -/
def regListedAddrs (buf : Bytes) : List Addr :=
  if buf.length < 2 then []
  else (List.range (min (getByte buf 1).toNat ((buf.length - 2) / 2))).map fun k =>
    getLe16 buf (2 + 2 * k)

/-- A neighbour lists nodes that can be reached over it. -/
structure Listing where
  via : Addr
  dests : List Addr
  deriving DecidableEq

/-- What a call hears a neighbour list, in an advertisement or a registration. -/
def Call.listing (k : Call cfg) : Option Listing :=
  match k.deed with
  | .adv i buf => some ⟨(k.node.neigh i).addr, advListedAddrs buf⟩
  | .ctrl i body =>
    if getByte body 0 = ctrlRouteReg then some ⟨(k.node.neigh i).addr, regListedAddrs body⟩
    else none
  | _ => none

/-- Over how many hops a call registers nodes, if it does. -/
def Call.registersOver (k : Call cfg) : Option UInt8 :=
  match k.deed with
  | .adv _ buf => if k.node.Above (advRank buf) then some 2 else none
  | .ctrl _ _ => some 1
  | _ => none

/-- The node after the registrations of a call. -/
def Call.registered (k : Call cfg) : Node cfg :=
  match k.listing, k.registersOver with
  | some l, some hops => k.node.register l.via hops l.dests
  | _, _ => k.node

theorem lgRouteHandleAdv_freight (o : Oracle) (c : Node cfg) (i : Fin cfg.maxNeighbors)
    (buf : Bytes) :
    (lgRouteHandleAdv o c i buf).freight = (Call.mk o c (.adv i buf)).registered.freight := by
  rw [lgRouteHandleAdv_takeTidings]
  by_cases hshort : buf.length < 5
  · have hnone : advRead buf = none := by rw [advRead, if_pos hshort]
    simp only [Call.registered, Call.listing, Call.registersOver, advListedAddrs, hnone,
      Option.elim_none]
    split_ifs <;> rfl
  · have hread : advRead buf = some {
        rank := advRank buf
        role := getByte buf 3
        entries := (List.range (advCount buf)).map fun k =>
          (getLe16 buf (5 + 4 * k), (getLe16 buf (7 + 4 * k)).toNat) } := by
      rw [advRead, if_neg hshort]
    have hseek : ∀ d : Node cfg,
        (gossipConsiderSeeking o (lgRouteRecompute d).2).freight = d.freight := by
      intro d
      refine Eq.trans ?_ (lgRouteRecompute_freight d)
      unfold gossipConsiderSeeking
      split
      · rfl
      · dsimp only
        split <;> rfl
    have hfold : ∀ (l : List (Addr × ℕ)) (d : Node cfg), d.ledger = c.ledger →
        d.net.rank = c.net.rank → (d.neigh i).addr = (c.neigh i).addr →
        (l.foldl (fun c e => advEntry (advRank buf) (c.neigh i).addr c e.1 e.2) d).freight =
          (if c.Above (advRank buf) then c.register (c.neigh i).addr 2 (l.map Prod.fst)
            else c).freight := by
      intro l d hledger hrank haddr
      have habove : d.Above (advRank buf) ↔ c.Above (advRank buf) := by
        unfold Node.Above
        rw [hrank]
      refine (freight_of_ledger (advEntries_ledger (advRank buf) i l d haddr)).trans ?_
      simp only [habove]
      split
      · exact freight_of_ledger (register_congr hledger _ 2 _)
      · exact freight_of_ledger hledger
    rw [hread]
    dsimp only [Option.elim_some, takeTidings]
    rw [hseek, hfold _ (c.setView i _) rfl rfl rfl]
    simp only [Call.registered, Call.listing, Call.registersOver, advListedAddrs, hread,
      Option.elim_some]
    split <;> rfl

theorem lgRouteHandleReg_freight (c : Node cfg) (i : Fin cfg.maxNeighbors) (buf : Bytes) :
    lgRouteHandleReg c i buf = c.register (c.neigh i).addr 1 (regListedAddrs buf) := by
  have hfold : ∀ (l : List ℕ) (d : Node cfg), (d.neigh i).addr = (c.neigh i).addr →
      l.foldl (fun c k => lgRouteAdd c (getLe16 buf (2 + 2 * k)) (c.neigh i).addr 1) d =
        d.register (c.neigh i).addr 1 (l.map fun k => getLe16 buf (2 + 2 * k)) := by
    intro l
    induction l with
    | nil =>
      intro d _
      rfl
    | cons k l ih =>
      intro d haddr
      rw [List.foldl_cons, haddr, ih _ ?_]
      · rfl
      · rw [(lgRouteAdd_quiet d _ _ 1).neigh, haddr]
  unfold lgRouteHandleReg regListedAddrs
  split
  · rfl
  · exact hfold _ c rfl

theorem handleCtrl_stocked (o : Oracle) (c : Node cfg) (i : Fin cfg.maxNeighbors) {body : Bytes}
    (hadv : getByte body 0 ≠ ctrlRouteAdv) (hdown : getByte body 0 ≠ ctrlTeardown) :
    Stocked (Call.mk o c (.ctrl i body)).registered (handleCtrl o c i body) := by
  by_cases hreg : getByte body 0 = ctrlRouteReg
  · have heq : (Call.mk o c (.ctrl i body)).registered =
        c.register (c.neigh i).addr 1 (regListedAddrs body) := by
      simp [Call.registered, Call.listing, Call.registersOver, hreg]
    rw [heq, ← lgRouteHandleReg_freight]
    have hne : body ≠ [] := by
      rintro rfl
      simp [getByte, ctrlRouteReg] at hreg
    have hctrl : handleCtrl o c i body = lgRouteHandleReg c i body := by
      unfold handleCtrl
      simp only [hne, hreg, if_false]
      rfl
    rw [hctrl]
    exact .of_rest rfl
  · have heq : (Call.mk o c (.ctrl i body)).registered = c := by
      simp [Call.registered, Call.listing, hreg]
    rw [heq]
    unfold handleCtrl
    dsimp only
    rw [if_neg hadv, if_neg hreg, if_neg hdown]
    split_ifs <;> exact .of_rest rfl

/-- Beyond its registrations a call loses routes at most, and copies nothing into the queue. -/
theorem Call.result_stocked {k : Call cfg} (hf : k.Fits) (h : k.result psa = some d) :
    Stocked k.registered d := by
  have hengages : ∀ {i}, Engages i k.node d → Stocked k.node d := fun he => .of_rest he.rest
  obtain ⟨o, c, deed⟩ := k
  cases deed with
  | alloc src =>
    cases h
    exact .of_freight (lgNeighAlloc_freight c src)
  | free i =>
    cases h
    obtain ⟨_, _, _, _, h⟩ := lgNeighFree_table c i
    rw [h]
    exact .of_freight rfl
  | begin i =>
    cases h
    exact hengages (lgJoinStart_embarks o hf.1 hf.2.1).toEngages
  | fail i =>
    cases h
    exact hengages (joinFail_engages c i)
  | close =>
    cases h
    exact .of_freight rfl
  | openContext i resuming airStartUs =>
    cases h
    exact hengages (openContext_engages c i resuming airStartUs)
  | establish i pp initiator =>
    obtain ⟨e, he, rfl⟩ := Option.map_eq_some_iff.mp h
    have hup : e.freight = c.freight := lgLinkEstablish_freight he
    exact .of_freight hup
  | down i =>
    cases h
    exact lgLinkDown_stocked o c i
  | adv i buf =>
    cases h
    exact .of_freight (lgRouteHandleAdv_freight o c i buf)
  | ctrl i body =>
    cases h
    exact handleCtrl_stocked o c i hf.2.1 hf.2.2
  | role =>
    cases h
    exact .of_freight (lgRoleEvaluate_freight o c)
  | advance i =>
    cases h
    exact .of_freight rfl
  | subrate i =>
    cases h
    exact subrateUpdateLink_stocked c i
  | stage i =>
    cases h
    rcases lgLinkStageTx_steady psa (o.ok .encrypt) c i with ⟨-, hs⟩ | ⟨-, hs⟩
    · exact ⟨hs.stock.routes, hs.stock.copies⟩
    · exact hs.stock
  | tick us =>
    cases h
    exact .of_freight rfl
  | uplink up =>
    cases h
    exact .of_freight (lgBackhaulSet_freight o c up)
  | start =>
    cases h
    exact lgStart_stocked psa o c
  | halt =>
    cases h
    exact .of_freight rfl

end LockGrid
