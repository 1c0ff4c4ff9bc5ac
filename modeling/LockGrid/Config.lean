import Mathlib.Tactic.Linarith

/-!
# Build configuration and protocol constants

`Config` is one Kconfig build; its fields carry the ranges Kconfig enforces, so an
option outside its range cannot be configured. The constants are the `#define`s the
protocol files share. All times are microseconds.
-/
namespace LockGrid

/-- The Kconfig options the protocol logic reads, with their ranges. -/
structure Config where
  maxNeighbors : ℕ := 8
  maxLinks : ℕ := 4
  maxParents : ℕ := 2
  maxRoutes : ℕ := 16
  txQueueSize : ℕ := 8
  connIntervalMinMs : ℕ := 50
  connIntervalMaxMs : ℕ := 2000
  clockAccuracyPpm : ℕ := 250
  rxWindowMinUs : ℕ := 200
  rxWindowMaxUs : ℕ := 8000
  micLen : ℕ := 4
  replayWindow : ℕ := 16
  maxRank : ℕ := 512
  routerDensityTarget : ℕ := 2
  minLinksTarget : ℕ := 2
  connIntervalMs : ℕ := 200
  subrateMax : ℕ := 16
  supervisionTimeoutMs : ℕ := 20000
  beaconIntervalMs : ℕ := 500
  beaconIdleFactor : ℕ := 16
  beaconSuppressThreshold : ℕ := 3
  joinWindowFloorMs : ℕ := 30000
  scanWindowUs : ℕ := 30000
  scanIntervalUnattachedMs : ℕ := 50
  scanIntervalSeekingMs : ℕ := 3000
  scanIntervalAttachedMs : ℕ := 60000
  chanEvalPeriodMs : ℕ := 30000
  chanMinGood : ℕ := 4
  chanBadPerPermille : ℕ := 300
  chanGoodPerPermille : ℕ := 150
  chanNoiseFloorDbm : ℤ := -75
  maxNeighbors_range : 2 ≤ maxNeighbors ∧ maxNeighbors ≤ 32 := by decide
  maxLinks_range : 1 ≤ maxLinks ∧ maxLinks ≤ 16 := by decide
  maxParents_range : 1 ≤ maxParents ∧ maxParents ≤ 4 := by decide
  maxRoutes_range : maxRoutes ≤ 64 := by decide
  txQueueSize_range : 2 ≤ txQueueSize ∧ txQueueSize ≤ 64 := by decide
  connIntervalMinMs_range : 10 ≤ connIntervalMinMs ∧ connIntervalMinMs ≤ 4000 := by decide
  connIntervalMaxMs_range : 20 ≤ connIntervalMaxMs ∧ connIntervalMaxMs ≤ 32000 := by decide
  clockAccuracyPpm_range : 1 ≤ clockAccuracyPpm ∧ clockAccuracyPpm ≤ 500 := by decide
  rxWindowMinUs_range : 100 ≤ rxWindowMinUs ∧ rxWindowMinUs ≤ 5000 := by decide
  rxWindowMaxUs_range : 500 ≤ rxWindowMaxUs ∧ rxWindowMaxUs ≤ 60000 := by decide
  micLen_range : 4 ≤ micLen ∧ micLen ≤ 16 := by decide
  replayWindow_range : 1 ≤ replayWindow ∧ replayWindow ≤ 64 := by decide
  maxRank_range : 64 ≤ maxRank ∧ maxRank ≤ 32768 := by decide
  routerDensityTarget_range : 1 ≤ routerDensityTarget ∧ routerDensityTarget ≤ 8 := by decide
  minLinksTarget_range : 1 ≤ minLinksTarget ∧ minLinksTarget ≤ 8 := by decide
  connIntervalMs_range : 20 ≤ connIntervalMs ∧ connIntervalMs ≤ 4000 := by decide
  subrateMax_range : 1 ≤ subrateMax ∧ subrateMax ≤ 32 := by decide
  supervisionTimeoutMs_range :
    500 ≤ supervisionTimeoutMs ∧ supervisionTimeoutMs ≤ 60000 := by decide
  beaconIntervalMs_range : 100 ≤ beaconIntervalMs ∧ beaconIntervalMs ≤ 60000 := by decide
  beaconIdleFactor_range : 1 ≤ beaconIdleFactor ∧ beaconIdleFactor ≤ 64 := by decide
  beaconSuppressThreshold_range : beaconSuppressThreshold ≤ 16 := by decide
  joinWindowFloorMs_range : 1000 ≤ joinWindowFloorMs ∧ joinWindowFloorMs ≤ 600000 := by decide
  scanWindowUs_range : 1000 ≤ scanWindowUs ∧ scanWindowUs ≤ 500000 := by decide
  scanIntervalUnattachedMs_range :
    20 ≤ scanIntervalUnattachedMs ∧ scanIntervalUnattachedMs ≤ 10000 := by decide
  scanIntervalSeekingMs_range :
    100 ≤ scanIntervalSeekingMs ∧ scanIntervalSeekingMs ≤ 60000 := by decide
  scanIntervalAttachedMs_range :
    1000 ≤ scanIntervalAttachedMs ∧ scanIntervalAttachedMs ≤ 600000 := by decide
  chanEvalPeriodMs_range : 1000 ≤ chanEvalPeriodMs ∧ chanEvalPeriodMs ≤ 3600000 := by decide
  chanMinGood_range : 2 ≤ chanMinGood ∧ chanMinGood ≤ 16 := by decide
  chanBadPerPermille_range : 10 ≤ chanBadPerPermille ∧ chanBadPerPermille ≤ 900 := by decide
  chanGoodPerPermille_range : 5 ≤ chanGoodPerPermille ∧ chanGoodPerPermille ≤ 500 := by decide
  chanNoiseFloorDbm_range : -110 ≤ chanNoiseFloorDbm ∧ chanNoiseFloorDbm ≤ -30 := by decide

/-- The build with every option at its default. -/
def Config.default : Config := {}

theorem Config.default_neighbors : 0 < Config.default.maxNeighbors := by decide

theorem Config.default_neighbors_two : 1 < Config.default.maxNeighbors := by decide

theorem Config.default_queue : 0 < Config.default.txQueueSize := by decide

/-! ## Addresses, ranks and roles -/

abbrev Addr := UInt16

def addrInvalid : Addr := 0x0000
def addrBroadcast : Addr := 0xFFFF
def addrBackhaul : Addr := 0xFFFE

/-- Rank value meaning "no route to a backhaul". -/
def rankInfinite : ℕ := 0xFFFF

inductive Role
  | leaf
  | router
  | backhaul
  deriving DecidableEq, Repr

/-- The number a role has in a beacon, in link parameters and in an advertisement. -/
def Role.code : Role → UInt8
  | .leaf => 0
  | .router => 1
  | .backhaul => 2

/-! ## Radio and scheduler timing -/

/-- Gap between the last bit of one frame and the first bit of the reply. -/
def ifsUs : ℕ := 200
def rampupUs : ℕ := 40
/-- Extra listening a receiver must do to catch a frame it cannot time exactly. -/
def syncWindowUs : ℕ := 160
def schedLeadUs : ℕ := rampupUs + 60
/-- Never ask the arbiter for time that starts sooner than this. -/
def schedMinHorizonUs : ℕ := 400

/-- Air time of a frame of `len` bytes, preamble, SFD, length and CRC included. -/
def airtimeUs (len : ℕ) : ℕ := (len + 8) * 32

/-! ## Frame layout -/

def hdrLen : ℕ := 8
def fctrLen : ℕ := 4
def hdrLenSec : ℕ := hdrLen + fctrLen
def pduMax : ℕ := 125
def offNetid : ℕ := 0
def offFcf : ℕ := 2
def offSeq : ℕ := 3
def offDst : ℕ := 4
def offSrc : ℕ := 6
def offFctr : ℕ := 8

/-- Total overhead of a secured frame. -/
def Config.secOverhead (cfg : Config) : ℕ := hdrLenSec + cfg.micLen

/-! ## Sizes of the crypto primitives -/

def ecPubLen : ℕ := 64
def ecPrivLen : ℕ := 32
def sigLen : ℕ := 64
def hashLen : ℕ := 32
def keyLen : ℕ := 16
def nonceLen : ℕ := 8
def certBodyLen : ℕ := 2 + 1 + 1 + 4 + 4 + ecPubLen
def certLen : ℕ := certBodyLen + sigLen
def certOffAddr : ℕ := 0
def certOffRole : ℕ := 2
def certOffPub : ℕ := 12
def certOffSig : ℕ := certBodyLen

end LockGrid
