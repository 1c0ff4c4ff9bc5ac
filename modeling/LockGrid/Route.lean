import LockGrid.Neigh

/-!
# Routing

`lg_route.c`: rank and parent set, downward routes, advertisements and duplicate
suppression. `lg_disc_retune` and what it reads of discovery stand first, because gossip ends
in it.
-/
namespace LockGrid

variable {cfg : Config}

/-! ## Discovery posture -/

def lgParentIdx (c : Node cfg) : Option (Fin cfg.maxNeighbors) :=
  (List.finRange cfg.maxNeighbors).find? fun i =>
    (c.view i).isParent && (c.neigh i).state = .linked

def lgParent (c : Node cfg) : Addr :=
  match lgParentIdx c with
  | some i => (c.neigh i).addr
  | none => addrInvalid

def lgHasRoute (c : Node cfg) : Bool := c.net.role = .backhaul || c.net.rank ≠ rankInfinite

/-- Uniform jitter of ±25%, from the draw numbered `k`, in 32 bits. -/
def jitter (o : Oracle) (k nominal : ℕ) : ℕ :=
  let span := nominal / 2
  if span = 0 then nominal else (nominal - span / 2 + o.rand32 k % span) % 2 ^ 32

def shouldBeacon (c : Node cfg) : Bool := c.net.role ≠ .leaf || !lgHasRoute c

/-- Whether a neighbour's next beacon is still worth waking up for. -/
def worthTracking (c : Node cfg) (i : Fin cfg.maxNeighbors) : Bool :=
  let n := c.neigh i
  let v := c.view i
  if v.nextBeaconUs = 0 ∨ n.state = .linked ∨ n.state = .joining then false
  else if 3 ≤ n.join.joinRetries then false
  else !lgHasRoute c || lgNeighLinkedCount c < cfg.minLinksTarget ||
    (v.peerRank ≠ rankInfinite && v.peerRank + 4 < c.net.rank)

def scanIntervalUs (c : Node cfg) : ℕ :=
  let t := c.net.tune
  if c.net.wantAddr ≠ addrInvalid ∧ c.nowUs < c.net.wantUntilUs then t.scanUnattachedUs
  else if (List.finRange cfg.maxNeighbors).any (worthTracking c) then t.scanSeekingUs
  else if !lgHasRoute c then t.scanUnattachedUs
  else if lgNeighLinkedCount c < cfg.minLinksTarget then t.scanSeekingUs
  else t.scanAttachedUs

/-- The draws are those numbered `k` and `k + 1`. -/
def lgDiscRetune (o : Oracle) (k : ℕ) (c : Node cfg) : Node cfg :=
  let now := c.nowUs
  let interval := scanIntervalUs c
  { c with net := { c.net with
      nextScanUs := if now + interval < c.net.nextScanUs then now + jitter o k interval
        else c.net.nextScanUs
      nextBeaconUs := if !shouldBeacon c then none
        else match c.net.nextBeaconUs with
          | none => some (now + jitter o (k + 1) c.net.tune.beaconIntervalUs)
          | some t => some t
      wantAddr := if c.net.wantAddr ≠ addrInvalid ∧ c.net.wantUntilUs ≤ now then addrInvalid
        else c.net.wantAddr } }

/-! ## Rank and parent selection -/

def rankHysteresis : ℕ := 4
def routeLifetimeUs : ℕ := 120 * 1000000
def advMaxEntries : ℕ := 6
def wantTimeoutUs : ℕ := 20 * 1000000
def gossipSeekMargin : ℕ := 8

/-- Cost this node would have if it routed through neighbour `i`. -/
def rankThrough (c : Node cfg) (i : Fin cfg.maxNeighbors) : ℕ :=
  if (c.neigh i).state ≠ .linked ∨ (c.view i).peerRank = rankInfinite then rankInfinite
  else
    let cost := (c.view i).peerRank + (c.view i).linkCost
    if cfg.maxRank ≤ cost then rankInfinite else cost

/-- Insert a candidate before the first entry it is cheaper than, into a set of bounded size. -/
def insertParent (size cost : ℕ) (i : Fin cfg.maxNeighbors) :
    List (ℕ × Fin cfg.maxNeighbors) → List (ℕ × Fin cfg.maxNeighbors)
  | [] => if 0 < size then [(cost, i)] else []
  | (cost', j) :: rest =>
    if cost < cost' then ((cost, i) :: (cost', j) :: rest).take size
    else (cost', j) :: insertParent (size - 1) cost i rest

/-- The cheapest eligible neighbours with their costs, cheapest first. -/
def parentSet (c : Node cfg) : List (ℕ × Fin cfg.maxNeighbors) :=
  (List.finRange cfg.maxNeighbors).foldl (fun best i =>
    let cost := rankThrough c i
    if rankInfinite ≤ cost ∨ cost ≤ (c.view i).peerRank then best
    else insertParent cfg.maxParents cost i best) []

/-- Hysteresis: swap the incumbent to the head of the set unless the best clearly beats it. -/
def keepIncumbent (c : Node cfg) (best : List (ℕ × Fin cfg.maxNeighbors)) :
    List (ℕ × Fin cfg.maxNeighbors) :=
  match best, lgNeighFind c (lgParent c) with
  | (cost0, b0) :: rest, some cur =>
    let curCost := rankThrough c cur
    if (c.neigh b0).addr ≠ lgParent c ∧ curCost < rankInfinite ∧
        curCost ≤ cost0 + rankHysteresis ∧ cur ∈ rest.map Prod.snd then
      (curCost, cur) :: rest.map fun e => if e.2 = cur then (cost0, b0) else e
    else best
  | _, _ => best

/-- `lg_route_recompute`: whether the parent changed. -/
def lgRouteRecompute (c : Node cfg) : Bool × Node cfg :=
  if c.net.role = .backhaul then
    (false, { c with
      net := { c.net with rank := 0 }
      view := fun i => { c.view i with isParent := false } })
  else
    let best := keepIncumbent c (parentSet c)
    let rank := match best with
      | [] => rankInfinite
      | (cost, _) :: _ => min cost (rankInfinite - 1)
    let moved : Bool := rank ≠ c.net.rank
    let c' := { c with
      net := { c.net with rank := rank, advUrgent := c.net.advUrgent || moved }
      view := fun i => { c.view i with
        isParent := best.any fun e => e.2 = i
        advUrgentDone := (c.view i).advUrgentDone && !moved } }
    (lgParent c' ≠ lgParent c, c')

/-! ## Downward routes -/

def routeFind (c : Node cfg) (dst : Addr) : Option (Fin cfg.maxRoutes) :=
  (List.finRange cfg.maxRoutes).find? fun k => (c.net.routes k).dst = dst

def setRoute (c : Node cfg) (k : Fin cfg.maxRoutes) (r : Route) : Node cfg :=
  { c with net := { c.net with routes := Function.update c.net.routes k r } }

/-- A free or expired slot, else the one that expires soonest. -/
def routeVictim (c : Node cfg) : Option (Fin cfg.maxRoutes) :=
  match (List.finRange cfg.maxRoutes).find? fun k =>
      (c.net.routes k).dst = addrInvalid || (c.net.routes k).expiryUs ≤ c.nowUs with
  | some k => some k
  | none => (List.finRange cfg.maxRoutes).foldl (fun best k =>
      match best with
      | none => some k
      | some b => if (c.net.routes k).expiryUs < (c.net.routes b).expiryUs then some k else best)
      none

def lgRouteAdd (c : Node cfg) (dst via : Addr) (hops : UInt8) : Node cfg :=
  if dst = addrInvalid ∨ dst = c.ident.addr then c
  else
    match (routeFind c dst).or (routeVictim c) with
    | none => c
    | some k =>
      let r := c.net.routes k
      if r.dst = dst ∧ c.nowUs < r.expiryUs ∧ r.hops < hops then
        setRoute c k { r with expiryUs := c.nowUs + routeLifetimeUs }
      else
        setRoute c k ⟨dst, via, hops, c.nowUs + routeLifetimeUs⟩

def lgRouteFlushVia (c : Node cfg) (via : Addr) : Node cfg :=
  { c with net := { c.net with routes := fun k =>
      if (c.net.routes k).nextHop = via then {} else c.net.routes k } }

def dataUpward : UInt8 := 1
def dataBroadcast : UInt8 := 2
def dataDownward : UInt8 := 4

def isLinkedTo (c : Node cfg) (addr : Addr) : Bool :=
  match lgNeighFind c addr with
  | some i => (c.neigh i).state = .linked
  | none => false

/-- The next hop, without the clean-up `lg_route_next_hop` does on the way. -/
def nextHop (c : Node cfg) (final : Addr) (flags : UInt8) : Addr :=
  if flags &&& dataUpward ≠ 0 then lgParent c
  else if isLinkedTo c final then final
  else
    match routeFind c final with
    | some k =>
      let r := c.net.routes k
      if c.nowUs < r.expiryUs ∧ isLinkedTo c r.nextHop then r.nextHop else lgParent c
    | none => lgParent c

/-- The clean-up: a live route over a neighbour that is gone is forgotten. -/
def dropDeadRoute (c : Node cfg) (final : Addr) (flags : UInt8) : Node cfg :=
  if flags &&& dataUpward ≠ 0 ∨ isLinkedTo c final then c
  else
    match routeFind c final with
    | some k =>
      let r := c.net.routes k
      if c.nowUs < r.expiryUs ∧ !isLinkedTo c r.nextHop then setRoute c k {} else c
    | none => c

def lgRouteNextHop (c : Node cfg) (final : Addr) (flags : UInt8) : Addr × Node cfg :=
  (nextHop c final flags, dropDeadRoute c final flags)

/-! ## Advertisements -/

def ctrlRouteAdv : UInt8 := 4

/-- `lg_route_build_adv` into a buffer of `cap` bytes; empty when it does not fit. -/
def lgRouteBuildAdv (c : Node cfg) (cap : ℕ) : Bytes :=
  if cap < 5 then []
  else
    let linked := (List.finRange cfg.maxNeighbors).filter fun i => (c.neigh i).state = .linked
    let listed := linked.take (min advMaxEntries ((cap - 5) / 4))
    [ctrlRouteAdv] ++ putLe16 (UInt16.ofNat c.net.rank) ++
      [c.net.role.code, UInt8.ofNat listed.length] ++
      listed.flatMap fun i =>
        putLe16 (c.neigh i).addr ++ putLe16 (UInt16.ofNat (c.view i).linkCost)

/-- Where `gossip_record` puts an address: its own entry, else the last free one, else the
oldest. -/
def gossipSlot (c : Node cfg) (addr : Addr) : Option (Fin gossipSize) :=
  match (List.finRange gossipSize).find? fun k => (c.net.gossip k).addr = addr with
  | some k => some k
  | none => (List.finRange gossipSize).foldl (fun slot k =>
      match slot with
      | none => some k
      | some s =>
        if (c.net.gossip k).addr = addrInvalid then some k
        else if (c.net.gossip k).heardUs < (c.net.gossip s).heardUs then some k
        else slot) none

def gossipRecord (c : Node cfg) (addr : Addr) (rank : ℕ) : Node cfg :=
  if addr = c.ident.addr ∨ addr = addrInvalid ∨ (lgNeighFind c addr).isSome then c
  else
    match gossipSlot c addr with
    | none => c
    | some k => { c with net := { c.net with
        gossip := Function.update c.net.gossip k ⟨addr, rank, c.nowUs⟩ } }

def gossipConsiderSeeking (o : Oracle) (c : Node cfg) : Node cfg :=
  if c.net.wantAddr ≠ addrInvalid ∧ c.nowUs < c.net.wantUntilUs then c
  else
    let wanted := fun k : Fin gossipSize =>
      let g := c.net.gossip k
      g.addr ≠ addrInvalid && g.rank ≠ rankInfinite && (lgNeighFind c g.addr).isNone &&
        (c.net.rank = rankInfinite || g.rank + gossipSeekMargin < c.net.rank)
    let best := ((List.finRange gossipSize).filter wanted).foldl (fun best k =>
      match best with
      | none => some k
      | some b => if (c.net.gossip k).rank < (c.net.gossip b).rank then some k else best) none
    match best with
    | none => c
    | some k => lgDiscRetune o 0 { c with net := { c.net with
        wantAddr := (c.net.gossip k).addr, wantUntilUs := c.nowUs + wantTimeoutUs } }

/-- One entry of a received advertisement. -/
def advEntry (peerRank : ℕ) (via : Addr) (c : Node cfg) (addr : Addr) (cost : ℕ) : Node cfg :=
  let c := if peerRank ≠ rankInfinite then
      gossipRecord c addr (min (peerRank + cost) (rankInfinite - 1))
    else c
  if c.net.rank < peerRank ∧ c.net.rank ≠ rankInfinite then lgRouteAdd c addr via 2 else c

def lgRouteHandleAdv (o : Oracle) (c : Node cfg) (i : Fin cfg.maxNeighbors) (buf : Bytes) :
    Node cfg :=
  if buf.length < 5 then c
  else
    let peerRank := (getLe16 buf 1).toNat
    let c := c.setView i { c.view i with
      role := getByte buf 3, peerRank := peerRank, routeAdvUs := c.nowUs }
    let count := min (getByte buf 4).toNat ((buf.length - 5) / 4)
    let c := (List.range count).foldl (fun c k =>
      advEntry peerRank (c.neigh i).addr c (getLe16 buf (5 + 4 * k))
        (getLe16 buf (7 + 4 * k)).toNat) c
    gossipConsiderSeeking o (lgRouteRecompute c).2

def lgRouteHandleReg (c : Node cfg) (i : Fin cfg.maxNeighbors) (buf : Bytes) : Node cfg :=
  if buf.length < 2 then c
  else
    let count := min (getByte buf 1).toNat ((buf.length - 2) / 2)
    (List.range count).foldl (fun c k =>
      lgRouteAdd c (getLe16 buf (2 + 2 * k)) (c.neigh i).addr 1) c

/-- `lg_route_is_duplicate`, which remembers the message if it is new. -/
def lgRouteIsDuplicate (c : Node cfg) (origin : Addr) (msgId : UInt16) : Bool × Node cfg :=
  if (List.finRange dupCacheSize).any fun k => c.net.dupCache k = (origin, msgId) then (true, c)
  else
    (false, { c with net := { c.net with
      dupCache := fun k =>
        if k.val = c.net.dupNext then (origin, msgId) else c.net.dupCache k
      dupNext := (c.net.dupNext + 1) % dupCacheSize } })

/-! ## Routing leaves the rest of the node alone -/

theorem lgDiscRetune_quiet (o : Oracle) (k : ℕ) (c : Node cfg) :
    Node.Quiet c (lgDiscRetune o k c) :=
  ⟨_, _, rfl⟩

theorem lgRouteRecompute_quiet (c : Node cfg) : Node.Quiet c (lgRouteRecompute c).2 := by
  unfold lgRouteRecompute
  split_ifs <;> exact ⟨_, _, rfl⟩

theorem lgRouteAdd_quiet (c : Node cfg) (dst via : Addr) (hops : UInt8) :
    Node.Quiet c (lgRouteAdd c dst via hops) := by
  unfold lgRouteAdd
  split_ifs
  · exact .refl c
  · cases (routeFind c dst).or (routeVictim c) with
    | none => exact .refl c
    | some k =>
      dsimp only
      split_ifs <;> exact ⟨_, _, rfl⟩

theorem lgRouteFlushVia_quiet (c : Node cfg) (via : Addr) :
    Node.Quiet c (lgRouteFlushVia c via) := ⟨_, _, rfl⟩

theorem lgRouteNextHop_quiet (c : Node cfg) (final : Addr) (flags : UInt8) :
    Node.Quiet c (lgRouteNextHop c final flags).2 := by
  unfold lgRouteNextHop dropDeadRoute
  split_ifs
  · exact .refl c
  · cases routeFind c final with
    | none => exact .refl c
    | some k =>
      dsimp only
      split_ifs
      · exact ⟨_, _, rfl⟩
      · exact .refl c

theorem gossipRecord_quiet (c : Node cfg) (addr : Addr) (rank : ℕ) :
    Node.Quiet c (gossipRecord c addr rank) := by
  unfold gossipRecord
  split_ifs
  · exact .refl c
  · cases gossipSlot c addr with
    | none => exact .refl c
    | some k => exact ⟨_, _, rfl⟩

theorem gossipConsiderSeeking_quiet (o : Oracle) (c : Node cfg) :
    Node.Quiet c (gossipConsiderSeeking o c) := by
  unfold gossipConsiderSeeking
  split_ifs
  · exact .refl c
  · dsimp only
    split
    · exact .refl c
    · exact ⟨_, _, rfl⟩

theorem advEntry_quiet (peerRank : ℕ) (via : Addr) (c : Node cfg) (addr : Addr) (cost : ℕ) :
    Node.Quiet c (advEntry peerRank via c addr cost) := by
  unfold advEntry
  have hg : Node.Quiet c (if peerRank ≠ rankInfinite then
      gossipRecord c addr (min (peerRank + cost) (rankInfinite - 1)) else c) := by
    split_ifs
    · exact gossipRecord_quiet c _ _
    · exact .refl c
  dsimp only
  split_ifs at hg ⊢
  · exact hg.trans (lgRouteAdd_quiet _ _ _ _)
  · exact hg
  · exact lgRouteAdd_quiet _ _ _ _
  · exact .refl c

theorem foldl_quiet {β : Type*} (f : Node cfg → β → Node cfg)
    (hf : ∀ c b, Node.Quiet c (f c b)) (l : List β) (c : Node cfg) :
    Node.Quiet c (l.foldl f c) := by
  induction l generalizing c with
  | nil => exact .refl c
  | cons b l ih => exact (hf c b).trans (ih (f c b))

theorem lgRouteHandleAdv_quiet (o : Oracle) (c : Node cfg) (i : Fin cfg.maxNeighbors)
    (buf : Bytes) : Node.Quiet c (lgRouteHandleAdv o c i buf) := by
  unfold lgRouteHandleAdv
  split_ifs
  · exact .refl c
  · refine (setView_quiet c i _).trans (.trans (foldl_quiet _ ?_ _ _)
      ((lgRouteRecompute_quiet _).trans (gossipConsiderSeeking_quiet o _)))
    exact fun c k => advEntry_quiet _ _ _ _ _

theorem lgRouteHandleReg_quiet (c : Node cfg) (i : Fin cfg.maxNeighbors) (buf : Bytes) :
    Node.Quiet c (lgRouteHandleReg c i buf) := by
  unfold lgRouteHandleReg
  split_ifs
  · exact .refl c
  · exact foldl_quiet _ (fun c k => lgRouteAdd_quiet _ _ _ _) _ _

theorem lgRouteIsDuplicate_quiet (c : Node cfg) (origin : Addr) (msgId : UInt16) :
    Node.Quiet c (lgRouteIsDuplicate c origin msgId).2 := by
  unfold lgRouteIsDuplicate
  split_ifs
  · exact .refl c
  · exact ⟨_, _, rfl⟩

end LockGrid
