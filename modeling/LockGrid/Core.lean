import LockGrid.Sched

/-!
# Frame dispatch and lifecycle

What the work queue does with a received frame, beacons included, and the application's
calls; then one node's steps and runs.
-/
namespace LockGrid

variable {cfg : Config}

/-! ## Beacon reception -/

/-- Whether to start a handshake towards a beacon's sender. -/
def candidateIsUseful (c : Node cfg) (b : Beacon) (src : Addr) (rssi : ℤ) : Bool :=
  let rank := b.rank.toNat
  if b.role = Role.leaf.code ∨ b.linkCapacity = 0 then false
  else if rssi < cfg.chanNoiseFloorDbm - 10 then false
  else if rank = rankInfinite then false
  else if c.net.role = .backhaul then false
  else if !lgHasRoute c then true
  else if lgNeighLinkedCount c < cfg.minLinksTarget then
    if rank = c.net.rank then src < c.ident.addr else rank < c.net.rank
  else rank + 4 < c.net.rank

/-- What the beacon says about the neighbourhood, before its sender has an entry. -/
def noteBeacon (o : Oracle) (c : Node cfg) (b : Beacon) (src : Addr) : Node cfg :=
  let rank := b.rank.toNat
  let c := if rank = rankInfinite then lgRoleEvaluate o (lgRoleNoteUnrouted c) else c
  let heard := c.net.beaconsHeardThisWindow
  { c with net := { c.net with
      beaconsHeardThisWindow := if rank ≤ c.net.rank ∧ heard < 255 then heard + 1 else heard
      joinerHintUs := if !isLinkedTo c src ∧ c.net.rank ≤ rank ∧
          b.linkCount.toNat < cfg.minLinksTarget then c.nowUs
        else c.net.joinerHintUs } }

/-- The entry of a beacon's sender, made if the sender is useful and there is room. -/
def beaconEntry (o : Oracle) (c : Node cfg) (b : Beacon) (src : Addr) (rssi : ℤ) :
    Option (Fin cfg.maxNeighbors) × Node cfg :=
  match lgNeighFind c src with
  | some i => (some i, c)
  | none => if candidateIsUseful c b src rssi then admitJoiner o c src else (none, c)

/-- Store what the beacon says about its sender. -/
def noteSender (c : Node cfg) (i : Fin cfg.maxNeighbors) (b : Beacon) (rssi : ℤ)
    (airStartUs : ℕ) : Node cfg :=
  let v := c.view i
  let next := b.nextBeaconOffsetUs.toNat
  let v := { v with role := b.role, peerRank := b.rank.toNat }
  let v := if next ≠ 0 ∧ next < 60 * 1000000 then
      { v with nextBeaconUs := airStartUs + next, trackMisses := 0 }
    else v
  lgNeighUpdateCost (lgNeighRxRssi (c.setView i v) i rssi) i

theorem noteBeacon_quiet (o : Oracle) (c : Node cfg) (b : Beacon) (src : Addr) :
    Node.Quiet c (noteBeacon o c b src) := by
  have h : Node.Quiet c (if b.rank.toNat = rankInfinite then
      lgRoleEvaluate o (lgRoleNoteUnrouted c) else c) := by
    split
    · exact (lgRoleNoteUnrouted_quiet c).trans (lgRoleEvaluate_quiet o _)
    · exact .refl c
  exact h.trans ⟨_, _, rfl⟩

theorem noteSender_quiet (c : Node cfg) (i : Fin cfg.maxNeighbors) (b : Beacon) (rssi : ℤ)
    (airStartUs : ℕ) : Node.Quiet c (noteSender c i b rssi airStartUs) :=
  (setView_quiet c i _).trans ((lgNeighRxRssi_quiet _ i rssi).trans (lgNeighUpdateCost_quiet _ i))

/-- Aim at the join window a beacon advertised and start the handshake. -/
def aimAt (o : Oracle) (c : Node cfg) (i : Fin cfg.maxNeighbors) (b : Beacon)
    (airStartUs : ℕ) : Node cfg :=
  let window := b.joinWindowUs.toNat
  let spread := if 2 * joinTrainUs ≤ window then
      o.rand32 9 % (window / joinTrainUs) * joinTrainUs
    else 0
  let c := c.setJoin i { (c.neigh i).join with
    joinNextUs := airStartUs + b.joinOffsetUs.toNat, joinSpreadUs := spread }
  match lgJoinStart o c i with
  | (.ok (), c) => lgSchedAbort c .scan
  | (.error _, c) => c

/-- A beacon of this grid whose MIC verified. -/
def acceptBeacon (o : Oracle) (c : Node cfg) (b : Beacon) (src : Addr) (rssi : ℤ)
    (airStartUs : ℕ) : Node cfg :=
  let c := noteBeacon o c b src
  match beaconEntry o c b src rssi with
  | (none, c) => c
  | (some i, c) =>
    let c := noteSender c i b rssi airStartUs
    let state := (c.neigh i).state
    if state = .linked ∨ state = .joining then c
    else if !candidateIsUseful c b src rssi ∨ b.joinWindowUs = 0 then c
    else aimAt o c i b airStartUs

def lgDiscBeaconRx (psa : Psa) (o : Oracle) (c : Node cfg) (rx : RxRec) : Node cfg :=
  if rx.pdu.length < hdrLen + beaconLen + beaconMicLen then c
  else match lgSecBeaconOpen psa (o.ok .beaconMac) c.ident.netKey rx.pdu with
  | none => c
  | some body =>
    let src := getLe16 body offSrc
    let b := Beacon.decode (body.drop hdrLen)
    if src = c.ident.addr ∨ src = addrInvalid ∨ b.networkId ≠ c.ident.networkId then c
    else acceptBeacon o c b src rx.rssi rx.airStartUs

/-! ## Inbound frames -/

def FrameType.isJoin : FrameType → Bool
  | .joinReq | .joinRsp | .joinCfm | .joinAck | .resumeReq | .resumeRsp => true
  | _ => false

/-- A frame that arrived on a link: decrypted, then handled. -/
def dispatchLink (psa : Psa) (o : Oracle) (c : Node cfg) (h : FrameHdr) (pdu : Bytes) :
    Node cfg :=
  match lgNeighFind c h.src with
  | none => c
  | some i =>
    if (c.neigh i).state ≠ .linked ∨ !secured h.fcf then c
    else match lgSecDecrypt psa (o.ok .decrypt) c i pdu with
    | (.error _, c) => c
    | (.ok pdu, c) => lgLinkRxFrame o c i h.fcf (pdu.drop hdrLenSec)

def dispatch (psa : Psa) (o : Oracle) (c : Node cfg) (rx : RxRec) : Option (Node cfg) :=
  match lgFrameHdrGet cfg rx.pdu c.ident.netid16 with
  | none => some c
  | some h =>
    if h.src = c.ident.addr ∨ (h.dst ≠ c.ident.addr ∧ h.dst ≠ addrBroadcast) then some c
    else match lgFrameType rx.pdu with
    | some .beacon => some (lgDiscBeaconRx psa o c rx)
    | some t => if t.isJoin then lgJoinRxPdu psa o c t rx else some (dispatchLink psa o c h rx.pdu)
    | none => some (dispatchLink psa o c h rx.pdu)

/-- Hand the oldest received frame to the dispatcher. -/
def rxHandler (psa : Psa) (o : Oracle) (c : Node cfg) : Option (Node cfg) :=
  match c.rxRing with
  | [] => some c
  | rx :: rest => dispatch psa o { c with rxRing := rest } rx

/-! ## Tuning and lifecycle -/

def tuningInit (cfg : Config) : Tuning where
  connIntervalUs := cfg.connIntervalMs * 1000
  subrateMax := min cfg.subrateMax
    (lgSubrateCeiling (cfg.connIntervalMs * 1000) (cfg.supervisionTimeoutMs * 1000))
  supTimeoutUs := cfg.supervisionTimeoutMs * 1000
  scanUnattachedUs := cfg.scanIntervalUnattachedMs * 1000
  scanSeekingUs := cfg.scanIntervalSeekingMs * 1000
  scanAttachedUs := cfg.scanIntervalAttachedMs * 1000
  scanWindowUs := cfg.scanWindowUs
  beaconIntervalUs := cfg.beaconIntervalMs * 1000
  beaconIdleFactor := cfg.beaconIdleFactor
  joinWindowFloorUs := cfg.joinWindowFloorMs * 1000

def lgTuningSet (o : Oracle) (c : Node cfg) (t : Tuning) : Node cfg :=
  let interval := cfg.clampInterval t.connIntervalUs
  let sup := max t.supTimeoutUs (interval * 4)
  let window := max t.scanWindowUs 2000
  lgDiscRetune o 0 { c with net := { c.net with tune := {
    connIntervalUs := interval
    supTimeoutUs := sup
    subrateMax := max 1 (min t.subrateMax (lgSubrateCeiling interval sup))
    scanWindowUs := window
    scanUnattachedUs := max t.scanUnattachedUs window
    scanSeekingUs := max t.scanSeekingUs window
    scanAttachedUs := max t.scanAttachedUs window
    beaconIntervalUs := max t.beaconIntervalUs 100000
    beaconIdleFactor := max 1 t.beaconIdleFactor
    joinWindowFloorUs := t.joinWindowFloorUs } } }

/-- Node-wide state as `lg_start` initialises it, the uplink being as it was. -/
def netInit (cfg : Config) (now : ℕ) (net : Net cfg) : Net cfg :=
  { net with
    role := if net.backhaulActive then .backhaul else .leaf
    unroutedSeenUs := 0
    roleChangedUs := 0
    rank := if net.backhaulActive then 0 else rankInfinite
    routes := fun _ => {}
    chan := fun k => { probing := (net.chan k).probing }
    chanMap := 0xFFFF
    nextChanEvalUs := now + cfg.chanEvalPeriodMs * 1000
    gossip := fun _ => {}
    wantAddr := addrInvalid
    dupCache := fun _ => (0, 0)
    dupNext := 0
    tune := tuningInit cfg }

def discInit (o : Oracle) (c : Node cfg) : Node cfg :=
  { c with net := { c.net with
      nextScanUs := c.nowUs + jitter o 10 20000
      nextBeaconUs := if shouldBeacon c then
          some (c.nowUs + jitter o 11 c.net.tune.beaconIntervalUs)
        else none
      scanChanIdx := 0
      beaconsHeardThisWindow := 0
      joinWinUs := 0
      lastJoinWindowUs := 0
      linkChangeUs := c.nowUs
      beaconEpoch := 0
      beaconCopyIdx := 0 } }

/-- `lg_start` of a provisioned node. -/
def lgStart (psa : Psa) (o : Oracle) (c : Node cfg) : Node cfg :=
  if c.started ∨ c.ident.addr = addrInvalid then c
  else match lgSecCertVerify psa o c.ident c.ident.cert with
  | .error _ => c
  | .ok _ =>
    let c := { c with
      neigh := fun i => { c.neigh i with state := .free }
      txq := fun _ => {}
      msgIdNext := 1
      net := netInit cfg c.nowUs c.net
      hs := {}
      ev := { c.ev with kind := .none }
      running := true
      started := true }
    lgDiscBeaconFinish psa o (lgRoleEvaluate o (discInit o c))

/-- The links are taken down in turn. -/
def stopLinks (o : Oracle) (l : List (Fin cfg.maxNeighbors)) (c : Node cfg) : Node cfg :=
  l.foldl (fun c i => lgLinkDown (o.nth i.val) c i) c

/-- `lg_stop`: every link is taken down and the radio is given back. -/
def lgStop (o : Oracle) (c : Node cfg) : Node cfg :=
  if !c.started then c
  else
    let c := stopLinks o (List.finRange cfg.maxNeighbors) c
    { c with
      started := false, running := false, phy := .idle, granted := false,
      ev := { c.ev with kind := .none } }

/-- A node that has been provisioned and never started, at boot time. -/
def Node.boot (cfg : Config) (ident : Identity) : Node cfg where
  ident := ident
  started := false
  running := false
  nowUs := 0
  msgIdNext := 0
  neigh := fun _ => {}
  view := fun _ => {}
  net := {
    role := .leaf
    backhaulActive := false
    unroutedSeenUs := 0
    roleChangedUs := 0
    rank := 0
    routes := fun _ => {}
    chan := fun _ => {}
    chanMap := 0
    chanEvalNext := 0
    nextBeaconUs := some 0
    nextScanUs := 0
    nextChanEvalUs := 0
    beaconsHeardThisWindow := 0
    scanChanIdx := 0
    gossip := fun _ => {}
    wantAddr := 0
    wantUntilUs := 0
    joinWinUs := 0
    joinerHintUs := 0
    linkChangeUs := 0
    advUrgent := false
    beaconOffersJoin := false
    lastJoinWindowUs := 0
    beaconEpoch := 0
    beaconPlannedUs := 0
    beaconCopy := fun _ => {}
    beaconCopyIdx := 0
    dupCache := fun _ => (0, 0)
    dupNext := 0
    tune := ⟨0, 0, 0, 0, 0, 0, 0, 0, 0, 0⟩ }
  txq := fun _ => {}
  hs := {}
  evst := {}
  ev := {}
  finishNeigh := none
  finishKind := .none
  histFinishNo := 0
  phy := .idle
  granted := false
  rxRing := []
  hist := {}

end LockGrid
