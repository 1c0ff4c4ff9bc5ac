import LockGrid.Route

/-!
# Roles, beacons and scans

`lg_role.c`, and `lg_disc.c` but for the reception of a beacon, which starts handshakes.
-/
namespace LockGrid

variable {cfg : Config}

/-! ## Roles -/

def unroutedLifetimeUs : ℕ := 20 * 1000000
def roleDwellUs : ℕ := 15 * 1000000

/-- Routers this node can hear that already have a route of their own. -/
def routersHeard (c : Node cfg) : ℕ :=
  ((List.finRange cfg.maxNeighbors).filter fun i => (c.neigh i).state ≠ .free &&
    (c.view i).role ≠ Role.leaf.code && (c.view i).peerRank ≠ rankInfinite).length

def hasChildren (c : Node cfg) : Bool :=
  (List.finRange cfg.maxRoutes).any fun k =>
    (c.net.routes k).dst ≠ addrInvalid && c.nowUs < (c.net.routes k).expiryUs

def unroutedNearby (c : Node cfg) : Bool :=
  c.net.unroutedSeenUs ≠ 0 && c.nowUs - c.net.unroutedSeenUs < unroutedLifetimeUs

/-- `apply` of `lg_role.c`. -/
def applyRole (o : Oracle) (c : Node cfg) (want : Role) : Node cfg :=
  if want = c.net.role then c
  else
    lgDiscRetune o 2
      (lgRouteRecompute { c with net := { c.net with role := want, roleChangedUs := c.nowUs } }).2

def lgRoleEvaluate (o : Oracle) (c : Node cfg) : Node cfg :=
  if !c.started then c
  else if c.net.backhaulActive then applyRole o c .backhaul
  else if c.net.role = .backhaul then applyRole o c .router
  else if c.net.roleChangedUs ≠ 0 ∧ c.nowUs - c.net.roleChangedUs < roleDwellUs then c
  else if c.net.role = .leaf then
    if !lgHasRoute c then c
    else if unroutedNearby c || routersHeard c < cfg.routerDensityTarget then
      applyRole o c .router
    else c
  else if hasChildren c || unroutedNearby c then c
  else if cfg.routerDensityTarget < routersHeard c then applyRole o c .leaf
  else c

def lgRoleNoteUnrouted (c : Node cfg) : Node cfg :=
  { c with net := { c.net with unroutedSeenUs := c.nowUs } }

def lgBackhaulSet (o : Oracle) (c : Node cfg) (uplinkUp : Bool) : Node cfg :=
  if c.net.backhaulActive = uplinkUp then c
  else
    let c := { c with net := { c.net with backhaulActive := uplinkUp } }
    if c.started then lgRoleEvaluate o { c with net := { c.net with roleChangedUs := 0 } } else c

/-! ## Beacon format -/

structure Beacon where
  networkId : UInt32
  epoch : UInt32
  rank : UInt16
  chanMap : UInt16
  role : UInt8
  linkCount : UInt8
  linkCapacity : UInt8
  joinOffsetUs : UInt16
  joinWindowUs : UInt16
  nextBeaconOffsetUs : UInt32
  deriving DecidableEq, Repr

def beaconLen : ℕ := 23

def Beacon.encode (b : Beacon) : Bytes :=
  putLe32 b.networkId ++ putLe32 b.epoch ++ putLe16 b.rank ++ putLe16 b.chanMap ++
    [b.role, b.linkCount, b.linkCapacity] ++ putLe16 b.joinOffsetUs ++
    putLe16 b.joinWindowUs ++ putLe32 b.nextBeaconOffsetUs

def Beacon.decode (p : Bytes) : Beacon where
  networkId := getLe32 p 0
  epoch := getLe32 p 4
  rank := getLe16 p 8
  chanMap := getLe16 p 10
  role := getByte p 12
  linkCount := getByte p 13
  linkCapacity := getByte p 14
  joinOffsetUs := getLe16 p 15
  joinWindowUs := getLe16 p 17
  nextBeaconOffsetUs := getLe32 p 19

/-! ## Beacon construction -/

def beaconCopyGapUs : ℕ := 600
def joinOffsetUs : ℕ := 5000
def joinContendSlots : ℕ := 4
def joinTrainUs : ℕ := 9500
def joinWindowUs : ℕ := joinContendSlots * joinTrainUs + 2000
def joinerHintLifetimeUs : ℕ := 5 * 1000000
def joinOfferGraceUs : ℕ := 90 * 1000000
def beaconAirUs : ℕ := airtimeUs (hdrLen + beaconLen + beaconMicLen)

def lgDiscRdvChan (networkId : UInt32) (slot : ℕ) : ℕ :=
  [15, 20, 25, 26].getD ((networkId.toNat + slot) % 4) 15

def joinerHinted (c : Node cfg) : Bool :=
  c.net.joinerHintUs ≠ 0 && c.nowUs - c.net.joinerHintUs < joinerHintLifetimeUs

/-- Whether to hold a receive window open after the next beacon. -/
def joinWindowWorthwhile (c : Node cfg) : Bool :=
  if joinerHinted c then true
  else if !lgHasRoute c then false
  else if lgNeighLinkedCount c < cfg.minLinksTarget ∧
      c.nowUs - c.net.linkChangeUs < joinOfferGraceUs then true
  else c.net.tune.joinWindowFloorUs ≤ c.nowUs - c.net.lastJoinWindowUs

/-- Build and seal the three copies of a beacon, each pointing at the same join window. -/
def beaconStage (psa : Psa) (o : Oracle) (c : Node cfg) : Node cfg :=
  let linked := lgNeighLinkedCount c
  let offers : Bool := linked < cfg.maxLinks && joinWindowWorthwhile c
  let next := c.net.nextBeaconUs.getD 0
  let copy := fun i : Fin rdvSlots =>
    let off := i.val * (beaconAirUs + beaconCopyGapUs)
    let totalAir := (rdvSlots - i.val) * beaconAirUs + (rdvSlots - 1 - i.val) * beaconCopyGapUs
    let b : Beacon := {
      networkId := c.ident.networkId
      epoch := UInt32.ofNat c.net.beaconEpoch
      rank := UInt16.ofNat c.net.rank
      chanMap := c.net.chanMap
      role := c.net.role.code
      linkCount := UInt8.ofNat linked
      linkCapacity := UInt8.ofNat (cfg.maxLinks - linked)
      joinOffsetUs := UInt16.ofNat (totalAir + joinOffsetUs)
      joinWindowUs := UInt16.ofNat (if offers then joinWindowUs else 0)
      nextBeaconOffsetUs := UInt32.ofNat c.net.beaconPlannedUs - UInt32.ofNat (next + off) }
    let pdu := lgFrameHdrPut c.ident.netid16 FrameType.beacon.code 0 addrBroadcast c.ident.addr ++
      b.encode
    match lgSecBeaconSeal psa (o.ok .beaconMac) c.ident.netKey pdu with
    | none => { c.net.beaconCopy i with pdu := [] }
    | some pdu => ⟨pdu, lgDiscRdvChan c.ident.networkId i⟩
  { c with net := { c.net with
      beaconEpoch := c.net.beaconEpoch + 1, beaconOffersJoin := offers, beaconCopy := copy } }

def beaconUrgent (c : Node cfg) : Bool :=
  !lgHasRoute c || lgNeighLinkedCount c < cfg.minLinksTarget || joinerHinted c

/-- In 32 bits. -/
def beaconIntervalUs (c : Node cfg) : ℕ :=
  let nominal := c.net.tune.beaconIntervalUs
  if beaconUrgent c then nominal else nominal * c.net.tune.beaconIdleFactor % 2 ^ 32

/-- Schedule the next beacon, at the promised time unless that has gone by, and stage it. -/
def lgDiscBeaconFinish (psa : Psa) (o : Oracle) (c : Node cfg) : Node cfg :=
  let interval := beaconIntervalUs c
  let next := if c.nowUs + 2000 < c.net.beaconPlannedUs then c.net.beaconPlannedUs
    else c.nowUs + jitter o 4 interval
  beaconStage psa o { c with net := { c.net with
    nextBeaconUs := some next
    beaconPlannedUs := next + jitter o 5 interval
    beaconsHeardThisWindow := 0 } }

def lgDiscNextBeaconUs (c : Node cfg) : Option ℕ :=
  if shouldBeacon c then c.net.nextBeaconUs else none

def lgDiscScanFinish (o : Oracle) (c : Node cfg) : Node cfg :=
  { c with net := { c.net with
      scanChanIdx := (c.net.scanChanIdx + 1) % rdvSlots
      nextScanUs := c.nowUs + jitter o 6 (scanIntervalUs c) } }

/-- Drop the predictions that have passed. -/
def dropStaleTracks (c : Node cfg) : Node cfg :=
  { c with view := fun i =>
      if worthTracking c i ∧ (c.view i).nextBeaconUs < c.nowUs then
        { c.view i with nextBeaconUs := 0 }
      else c.view i }

/-- Earliest predicted beacon worth waking for, and whose it is. -/
def lgDiscNextTrack (c : Node cfg) : Option (ℕ × Fin cfg.maxNeighbors) :=
  (List.finRange cfg.maxNeighbors).foldl (fun best i =>
    let t := (c.view i).nextBeaconUs
    if !worthTracking c i ∨ t < c.nowUs then best
    else match best with
      | none => some (t, i)
      | some (b, _) => if t < b then some (t, i) else best) none

def lgDiscTrackResult (c : Node cfg) (i : Fin cfg.maxNeighbors) (heard : Bool) : Node cfg :=
  let v := c.view i
  if heard then c.setView i { v with trackMisses := 0 }
  else if 3 ≤ v.trackMisses + 1 then
    c.setView i { v with nextBeaconUs := 0, trackMisses := 0 }
  else c.setView i { v with nextBeaconUs := 0, trackMisses := v.trackMisses + 1 }

/-! ## Discovery leaves the rest of the node alone -/

theorem applyRole_quiet (o : Oracle) (c : Node cfg) (want : Role) :
    Node.Quiet c (applyRole o c want) := by
  unfold applyRole
  split_ifs
  · exact .refl c
  · refine .trans ⟨_, _, rfl⟩ ((lgRouteRecompute_quiet _).trans (lgDiscRetune_quiet o 2 _))

/-- `lg_role_evaluate` applies one role at most, and only on a node that is started. -/
theorem lgRoleEvaluate_cases (o : Oracle) (c : Node cfg) :
    lgRoleEvaluate o c = c ∨
      c.started = true ∧ ∃ want, lgRoleEvaluate o c = applyRole o c want := by
  unfold lgRoleEvaluate
  split
  · exact .inl rfl
  · next hs =>
    simp only [Bool.not_eq_true', Bool.not_eq_false] at hs
    split_ifs <;> first | exact .inl rfl | exact .inr ⟨hs, _, rfl⟩

theorem lgRoleEvaluate_quiet (o : Oracle) (c : Node cfg) :
    Node.Quiet c (lgRoleEvaluate o c) := by
  rcases lgRoleEvaluate_cases o c with h | ⟨-, want, h⟩ <;> rw [h]
  · exact .refl c
  · exact applyRole_quiet o c want

theorem lgRoleNoteUnrouted_quiet (c : Node cfg) : Node.Quiet c (lgRoleNoteUnrouted c) :=
  ⟨_, _, rfl⟩

theorem lgBackhaulSet_quiet (o : Oracle) (c : Node cfg) (up : Bool) :
    Node.Quiet c (lgBackhaulSet o c up) := by
  unfold lgBackhaulSet
  dsimp only
  split_ifs
  · exact .refl c
  · exact .trans ⟨_, _, rfl⟩ (lgRoleEvaluate_quiet o _)
  · exact ⟨_, _, rfl⟩

theorem beaconStage_quiet (psa : Psa) (o : Oracle) (c : Node cfg) :
    Node.Quiet c (beaconStage psa o c) := ⟨_, _, rfl⟩

theorem lgDiscBeaconFinish_quiet (psa : Psa) (o : Oracle) (c : Node cfg) :
    Node.Quiet c (lgDiscBeaconFinish psa o c) :=
  .trans ⟨_, _, rfl⟩ (beaconStage_quiet psa o _)

theorem lgDiscScanFinish_quiet (o : Oracle) (c : Node cfg) :
    Node.Quiet c (lgDiscScanFinish o c) := ⟨_, _, rfl⟩

theorem dropStaleTracks_quiet (c : Node cfg) : Node.Quiet c (dropStaleTracks c) := ⟨_, _, rfl⟩

theorem lgDiscTrackResult_quiet (c : Node cfg) (i : Fin cfg.maxNeighbors) (heard : Bool) :
    Node.Quiet c (lgDiscTrackResult c i heard) := by
  unfold lgDiscTrackResult
  dsimp only
  split_ifs <;> exact setView_quiet c i _

end LockGrid
