import LockGrid.Frame
import Mathlib.Logic.Function.Basic

/-!
# Node state

`struct lg_ctx` and the statics of the protocol files as one record. A neighbour's entry is
split by who writes it: `Neigh` is what the link, key and handshake code owns, `View` is what
neighbours advertise and what the radio measures of them, and `Net` is the node-wide part
that routing, discovery and the channel statistics own. A pointer into the neighbour table is
an index into it.

Every `hist` field is a history variable: the code's functions write it and no decision reads
it.
-/
namespace LockGrid

inductive NeighState
  | free
  | heard
  | joining
  | linked
  | lost
  deriving DecidableEq, Repr

/-- The bits of `pending_ctrl`. -/
structure PendingCtrl where
  chanMap : Bool := false
  subrate : Bool := false
  deriving DecidableEq, Repr

def PendingCtrl.any (p : PendingCtrl) : Bool := p.chanMap || p.subrate

/-- Link schedule, synchronisation and supervision of one neighbour. -/
structure Schedule where
  initiator : Bool := false
  anchorUs : ℕ := 0
  epochUs : ℕ := 0
  intervalUs : ℕ := 0
  counter : ℕ := 0
  chanMap : UInt16 := 0
  hopSeed : UInt16 := 0
  subrate : UInt8 := 0
  subrateMax : UInt8 := 0
  instant : ℕ := 0
  pendingCtrl : PendingCtrl := {}
  pendingChanMap : UInt16 := 0
  pendingSubrate : UInt8 := 0
  ctrlAcked : Bool := false
  lastSyncUs : ℕ := 0
  peerScaPpm : ℕ := 0
  lastRxUs : ℕ := 0
  supTimeoutUs : ℕ := 0
  deriving DecidableEq, Repr

/-- Sequencing and keys. `keyId` is the key material behind the identifier, if any, and `keyNo` the
identifier itself, 0 if there is none. -/
structure Keys where
  txCtr : UInt32 := 0
  rxCtr : UInt32 := 0
  replayMask : UInt32 := 0
  linkKey : Bytes := zeros keyLen
  keyId : Option Bytes := none
  keyNo : ℕ := 0
  hasKey : Bool := false
  ltk : Bytes := zeros keyLen
  hasLtk : Bool := false
  deriving DecidableEq, Repr

/-- The handshake fields of a neighbour. -/
structure JoinInfo where
  joinNextUs : ℕ := 0
  joinRetries : ℕ := 0
  joinBackoffUs : ℕ := 0
  joinSpreadUs : ℕ := 0
  nonceLocal : Bytes := zeros nonceLen
  noncePeer : Bytes := zeros nonceLen
  ephPubPeer : Bytes := zeros ecPubLen
  peerStaticPub : Bytes := zeros ecPubLen
  transcript : Bytes := zeros hashLen
  deriving DecidableEq, Repr

/-- What a link frame was built from. -/
inductive Staged
  | nothing
  | ctrl
  | adv
  | data (uid : ℕ)
  | keepalive
  deriving DecidableEq, Repr

/-- The staged outbound frame of a neighbour. -/
structure TxStage where
  txSeq : UInt8 := 0
  txbuf : Bytes := []
  txPending : Bool := false
  txNeedsAck : Bool := false
  txWasCtrl : Bool := false
  histStaged : Staged := .nothing
  deriving DecidableEq, Repr

/-- A link coming up: on what message, in which role, and with what behind it. -/
structure LinkUp where
  viaFrame : Bool
  type : FrameType
  secured : Bool
  joiner : Bool
  txType : FrameType
  hasKey : Bool
  key : Option Bytes
  sources : List (Option Bytes)
  rspVerified : Bool
  cfmDone : Bool
  resumeDone : Bool
  deriving DecidableEq, Repr

/-- A neighbour; `histUp` is how its link came up, the last time it did. -/
structure Neigh where
  state : NeighState := .free
  addr : Addr := 0
  sched : Schedule := {}
  keys : Keys := {}
  join : JoinInfo := {}
  tx : TxStage := {}
  histUp : Option LinkUp := none
  deriving DecidableEq, Repr

/-- What a neighbour advertises, what is measured of it and what routing makes of it.
An `rssi` of −128 means none was measured. -/
structure View where
  role : UInt8 := 0
  peerRank : ℕ := 0
  rssi : ℤ := 0
  etxQ4 : ℕ := 0
  linkCost : ℕ := 0
  txAttempts : ℕ := 0
  txAcked : ℕ := 0
  consecMisses : ℕ := 0
  nextBeaconUs : ℕ := 0
  trackMisses : ℕ := 0
  isParent : Bool := false
  routeAdvUs : ℕ := 0
  advUrgentDone : Bool := false
  deriving DecidableEq, Repr

structure Route where
  dst : Addr := 0
  nextHop : Addr := 0
  hops : UInt8 := 0
  expiryUs : ℕ := 0
  deriving DecidableEq, Repr

structure Gossip where
  addr : Addr := 0
  rank : ℕ := 0
  heardUs : ℕ := 0
  deriving DecidableEq, Repr

/-- A queued message; `histUid` tells apart the messages that use one slot in turn. -/
structure TxMsg where
  used : Bool := false
  finalDst : Addr := 0
  origin : Addr := 0
  flags : UInt8 := 0
  port : UInt8 := 0
  hops : UInt8 := 0
  msgId : UInt16 := 0
  payload : Bytes := []
  enqueuedUs : ℕ := 0
  histUid : ℕ := 0
  deriving DecidableEq, Repr

structure ChanStat where
  framesOk : ℕ := 0
  framesBad : ℕ := 0
  perPermille : ℕ := 0
  noiseDbm : ℤ := -128
  blacklisted : Bool := false
  probing : Bool := false
  deriving DecidableEq, Repr

structure Tuning where
  connIntervalUs : ℕ
  subrateMax : ℕ
  supTimeoutUs : ℕ
  scanUnattachedUs : ℕ
  scanSeekingUs : ℕ
  scanAttachedUs : ℕ
  scanWindowUs : ℕ
  beaconIntervalUs : ℕ
  beaconIdleFactor : ℕ
  joinWindowFloorUs : ℕ
  deriving DecidableEq, Repr

/-- One staged beacon copy; an empty `pdu` is a copy that could not be sealed. -/
structure BeaconCopy where
  pdu : Bytes := []
  chan : ℕ := 0
  deriving DecidableEq, Repr

def chanFirst : ℕ := 11
def chanLast : ℕ := 26
def chanCount : ℕ := 16
def gossipSize : ℕ := 4
def dupCacheSize : ℕ := 16
def rdvSlots : ℕ := 3

/-- Roles, routes, channels and discovery. A `nextBeaconUs` of `none` is `UINT64_MAX`. -/
structure Net (cfg : Config) where
  role : Role
  backhaulActive : Bool
  unroutedSeenUs : ℕ
  roleChangedUs : ℕ
  rank : ℕ
  routes : Fin cfg.maxRoutes → Route
  chan : Fin chanCount → ChanStat
  chanMap : UInt16
  chanEvalNext : ℕ
  nextBeaconUs : Option ℕ
  nextScanUs : ℕ
  nextChanEvalUs : ℕ
  beaconsHeardThisWindow : ℕ
  scanChanIdx : ℕ
  gossip : Fin gossipSize → Gossip
  wantAddr : Addr
  wantUntilUs : ℕ
  joinWinUs : ℕ
  joinerHintUs : ℕ
  linkChangeUs : ℕ
  advUrgent : Bool
  beaconOffersJoin : Bool
  lastJoinWindowUs : ℕ
  beaconEpoch : ℕ
  beaconPlannedUs : ℕ
  beaconCopy : Fin rdvSlots → BeaconCopy
  beaconCopyIdx : ℕ
  dupCache : Fin dupCacheSize → Addr × UInt16
  dupNext : ℕ
  tune : Tuning

/-- Largest handshake message. -/
def xferMax : ℕ := 288

/-- Reassembly buffer; `histSources` is the key each fragment in it was opened under. -/
structure Xfer where
  buf : Bytes := zeros xferMax
  len : ℕ := 0
  fragsSeen : ℕ := 0
  histSources : List (Option Bytes) := []
  deriving DecidableEq, Repr

/-- The handshake context `hs`; `tx` holds the staged message, empty when none is. -/
structure Hs (cfg : Config) where
  n : Option (Fin cfg.maxNeighbors) := none
  t0Us : ℕ := 0
  slot : ℕ := 0
  resuming : Bool := false
  joiner : Bool := false
  ephPriv : Bytes := zeros ecPrivLen
  ephPub : Bytes := zeros ecPubLen
  tx : Bytes := []
  txType : FrameType := .beacon
  txSecured : Bool := false
  fragIdx : ℕ := 0
  fragTotal : ℕ := 0
  lastTxAirStartUs : ℕ := 0
  lastTxLen : ℕ := 0
  rx : Xfer := {}
  rxType : FrameType := .beacon
  progressed : Bool := false
  oweTx : Bool := false
  slotLimit : ℕ := 0
  idleSlots : ℕ := 0
  wasTx : Bool := false
  slotRefused : Bool := false
  histRspVerified : Bool := false
  histCfmDone : Bool := false
  histResumeDone : Bool := false
  deriving DecidableEq, Repr

inductive EvKind
  | none
  | link
  | beacon
  | scan
  | track
  | joinTx
  | joinRx
  | chanEval
  deriving DecidableEq, Repr

/-- The single scheduled radio event; `histNo` numbers the accepted requests. -/
structure Event (cfg : Config) where
  kind : EvKind := .none
  atUs : ℕ := 0
  anchorUs : ℕ := 0
  closeUs : ℕ := 0
  windowUs : ℕ := 0
  lenUs : ℕ := 0
  chan : ℕ := 0
  neigh : Option (Fin cfg.maxNeighbors) := none
  urgent : Bool := false
  histNo : ℕ := 0
  deriving DecidableEq, Repr

/-- State of the link event currently running; `histNo` is the event it describes. -/
structure Evst where
  txFirst : Bool := false
  gotRx : Bool := false
  sentTx : Bool := false
  histNo : ℕ := 0
  deriving DecidableEq, Repr

/-- What the radio is doing, which decides which PHY callback can come. -/
inductive Phy
  | idle
  | tx
  | rx
  deriving DecidableEq, Repr

structure RxRec where
  pdu : Bytes
  rssi : ℤ
  airStartUs : ℕ
  deriving DecidableEq, Repr

structure Identity where
  networkId : UInt32
  netid16 : UInt16
  addr : Addr
  cert : Bytes
  caPub : Bytes
  netKey : Bytes
  deriving DecidableEq, Repr

/-- One call of `lg_sec_encrypt` that got as far as using its counter. -/
structure Sealed where
  key : Bytes
  nonce : Bytes
  aad : Bytes
  plain : Bytes
  deriving DecidableEq, Repr

/-- A transcript signature this node verified under a certified public key, with the
ephemeral keys of the exchange. -/
structure Verified where
  pub : Bytes
  transcript : Bytes
  ephPriv : Bytes
  ephPubPeer : Bytes
  deriving DecidableEq, Repr

/-- What a node has to do with the peer of a table entry. -/
inductive Dealing
  /-- The entry is made or freed. -/
  | wiped
  /-- `derive_keys` stored a long term key. -/
  | derived (ltk : Bytes)
  /-- `lg_link_down` made the session key the long term key. -/
  | down (key : Bytes)
  /-- The long term key was given up. -/
  | dropped
  /-- `lg_join_start` built its first message. -/
  | began (t : FrameType)
  /-- `join_fail` ended a handshake of this node as the joiner. -/
  | failed (resuming : Bool)
  deriving DecidableEq, Repr

/-- What a run did, for stating properties of runs. -/
structure History (cfg : Config) where
  uids : ℕ := 0
  events : ℕ := 0
  /-- The link frames transmitted, newest first, each with the index of its neighbour. -/
  aired : List (ℕ × Staged) := []
  calls : List Sealed := []
  installs : List Bytes := []
  /-- The identifiers of the link keys that were imported and not destroyed. -/
  live : List ℕ := []
  /-- The identifiers that were in an entry when it was overwritten. -/
  lost : List ℕ := []
  nonces : List Bytes := []
  /-- `JOIN_REQ`s that got as far as `derive_keys`. -/
  reqDerived : ℕ := 0
  /-- Transcripts of the `JOIN_RSP`s that got as far as `derive_keys`. -/
  rspDerived : List Bytes := []
  /-- Long term key, nonce and peer of every `derive_resume_key`. -/
  resumeDerived : List (Bytes × Bytes × Addr) := []
  verified : List Verified := []
  /-- Links taken down while they had no key. -/
  keylessDowns : ℕ := 0
  /-- What was folded into delivery metrics, newest first: whether a frame arrived. -/
  results : List (Fin cfg.maxNeighbors × Bool) := []
  /-- The dealings with every entry, newest first, each with the address it had. -/
  dealings : List (Fin cfg.maxNeighbors × Addr × Dealing) := []

structure Node (cfg : Config) where
  ident : Identity
  started : Bool
  running : Bool
  nowUs : ℕ
  msgIdNext : UInt16
  neigh : Fin cfg.maxNeighbors → Neigh
  view : Fin cfg.maxNeighbors → View
  net : Net cfg
  txq : Fin cfg.txQueueSize → TxMsg
  hs : Hs cfg
  evst : Evst
  ev : Event cfg
  finishNeigh : Option (Fin cfg.maxNeighbors)
  finishKind : EvKind
  histFinishNo : ℕ
  phy : Phy
  granted : Bool
  rxRing : List RxRec
  hist : History cfg

variable {cfg : Config}

namespace Node

def setNeigh (c : Node cfg) (i : Fin cfg.maxNeighbors) (n : Neigh) : Node cfg :=
  { c with neigh := Function.update c.neigh i n }

def setView (c : Node cfg) (i : Fin cfg.maxNeighbors) (v : View) : Node cfg :=
  { c with view := Function.update c.view i v }

def setHs (c : Node cfg) (hs : Hs cfg) : Node cfg := { c with hs := hs }

/-- Enter a dealing with neighbour `i` into the history. -/
def note (c : Node cfg) (i : Fin cfg.maxNeighbors) (d : Dealing) : Node cfg :=
  { c with hist := { c.hist with dealings := (i, (c.neigh i).addr, d) :: c.hist.dealings } }

@[simp] theorem setNeigh_neigh (c : Node cfg) (i : Fin cfg.maxNeighbors) (n : Neigh) :
    (c.setNeigh i n).neigh = Function.update c.neigh i n := rfl

@[simp] theorem note_neigh (c : Node cfg) (i : Fin cfg.maxNeighbors) (d : Dealing) :
    (c.note i d).neigh = c.neigh := rfl

/-- Two nodes that differ at most in what routing, discovery and the measurements own. -/
def Quiet (c c' : Node cfg) : Prop := ∃ net view, c' = { c with net := net, view := view }

theorem Quiet.refl (c : Node cfg) : Quiet c c := ⟨c.net, c.view, rfl⟩

theorem Quiet.trans {c c' c'' : Node cfg} (h : Quiet c c') (h' : Quiet c' c'') :
    Quiet c c'' := by
  obtain ⟨net, view, rfl⟩ := h
  obtain ⟨net', view', rfl⟩ := h'
  exact ⟨net', view', rfl⟩

theorem Quiet.neigh {c c' : Node cfg} (h : Quiet c c') : c'.neigh = c.neigh := by
  obtain ⟨net, view, rfl⟩ := h
  rfl

theorem Quiet.txq {c c' : Node cfg} (h : Quiet c c') : c'.txq = c.txq := by
  obtain ⟨net, view, rfl⟩ := h
  rfl

end Node

end LockGrid
