import LockGrid.Link
import LockGrid.Traces

/-!
# The radio driver

One operation of the radio at a time, and one fine timer, which starts it and closes a receive
window. A frame that has started when the window closes is received to its end.
-/
namespace LockGrid

/-- From the START task to the first bit. -/
def txChainUs : ℕ := 1

/-- From the last bit to the END event. -/
def rxChainUs : ℕ := 22

def crcLen : ℕ := 2
def pduOff : ℕ := 1

/-- What the early filter sees: network, control byte, number and destination. -/
def filterBytes : ℕ := 6

/-- Air time of a byte. -/
def byteUs : ℕ := 32

/-- `enum lg_phy_op`. -/
inductive PhyOp
  | idle
  | txArmed
  | tx
  | rxArmed
  | rx
  deriving DecidableEq, Repr

/-- What the fine timer calls. -/
inductive FineCb
  | txFire
  | rxFire
  | rxClose
  deriving DecidableEq, Repr

inductive PhyErr
  | inval
  | msgSize
  | time
  deriving DecidableEq, Repr

/-- A call back into the scheduler. -/
inductive PhyReport
  | txDone (airEndUs : ℕ)
  | rxDone (rx : RxRec)
  | rxFailed (reason : RxFail)
  deriving DecidableEq, Repr

/-- A call of the energy accounting. -/
inductive Charge
  | eventStart
  | turnaround
  | tx (us : ℕ)
  | rx (us : ℕ)
  deriving DecidableEq, Repr

/-- A frame on its way into the receiver. -/
structure Incoming where
  /-- Its length byte, which counts the CRC. -/
  psdu : UInt8
  bytes : Bytes
  crcOk : Bool
  rssiRaw : UInt8
  /-- When the ADDRESS event reports its delimiter. -/
  sfdUs : ℕ
  /-- When the length byte is in the buffer. -/
  writtenUs : ℕ
  /-- When the END event comes. -/
  endUs : ℕ
  /-- The length byte follows the delimiter. -/
  written : writtenUs ≤ sfdUs + byteUs
  deriving DecidableEq, Repr

/-- Preamble, delimiter, length byte, and as much of the rest as the radio takes. -/
def Incoming.airUs (f : Incoming) : ℕ := (4 + 1 + 1 + min f.psdu.toNat (pduMax + crcLen)) * byteUs

structure Nrf where
  nowUs : ℕ := 0
  earlyAbort : Bool
  netid16 : UInt16 := 0
  localAddr : Addr := 0
  promiscuous : Bool := false
  op : PhyOp := .idle
  chan : UInt8 := 0
  /-- `p.frame[0]`, as the last operation left it. -/
  frame0 : UInt8
  rxCloseUs : ℕ := 0
  txAirEndUs : ℕ := 0
  txLen : ℕ := 0
  rxOnUs : ℕ := 0
  charged : Bool := false
  inEvent : Bool := false
  /-- The fine timer: its target, and what it calls. -/
  timer : Option (ℕ × FineCb) := none
  /-- The ADDRESS event. -/
  address : Bool := false
  incoming : Option Incoming := none
  reports : List PhyReport := []
  charges : List Charge := []
  /-- When `rx_close` put off the end of this window, and until when; newest first. -/
  rearms : List (ℕ × ℕ) := []
  deriving DecidableEq, Repr

namespace Nrf

/-- What `p.frame[0]` reads. A frame that is on its way overwrites it. -/
def lengthByte (s : Nrf) : UInt8 :=
  match s.incoming with
  | none => s.frame0
  | some f => if f.writtenUs ≤ s.nowUs then f.psdu else s.frame0

def report (s : Nrf) (r : PhyReport) : Nrf := { s with reports := r :: s.reports }
def charge (s : Nrf) (x : Charge) : Nrf := { s with charges := x :: s.charges }

/-! ## Energy accounting -/

def chargeFixed (s : Nrf) : Nrf :=
  if s.inEvent then s.charge .turnaround else { s with inEvent := true }.charge .eventStart

def chargeTx (s : Nrf) : Nrf := s.charge (.tx (airtimeUs s.txLen))

def chargeRxUntil (s : Nrf) (endUs : ℕ) : Nrf :=
  if s.charged then s
  else
    let s := { s with charged := true }
    if s.rxOnUs < endUs then s.charge (.rx ((endUs - s.rxOnUs) % 2 ^ 32)) else s

/-! ## The fine timer and what it calls -/

def radioDisable (s : Nrf) : Nrf :=
  { s with frame0 := s.lengthByte, incoming := none, address := false }

/-- A target that has gone by makes the call at once. -/
def lgTsTimerAt (call : FineCb → Nrf → Option Nrf) (atUs : ℕ) (cb : FineCb) (s : Nrf) :
    Option Nrf :=
  if s.nowUs < atUs then some { s with timer := some (atUs, cb) }
  else call cb { s with timer := none }

def lgTsTimerCancel (s : Nrf) : Nrf := { s with timer := none }

def txFire (s : Nrf) : Nrf := { s with op := .tx }.chargeFixed

/-- How long a window stays open for the frame in it. -/
def remainingUs (s : Nrf) : ℕ :=
  let psdu := s.lengthByte.toNat
  airtimeUs (if psdu ≤ pduMax + crcLen then psdu else pduMax)

def rxClose (call : FineCb → Nrf → Option Nrf) (s : Nrf) : Option Nrf :=
  if s.op ≠ .rx then some s
  else if s.address then
    let atUs := s.rxCloseUs + s.remainingUs
    lgTsTimerAt call atUs .rxClose { s with rearms := (s.nowUs, atUs) :: s.rearms }
  else
    let s := (s.chargeRxUntil s.rxCloseUs).radioDisable
    some ({ s with op := .idle }.report (.rxFailed .timeout))

def rxFire (call : FineCb → Nrf → Option Nrf) (s : Nrf) : Option Nrf :=
  let s := { s with op := .rx }.chargeFixed
  let s := { s with rxOnUs := s.nowUs + rampupUs, charged := false, address := false, rearms := [] }
  lgTsTimerAt call s.rxCloseUs .rxClose s

/-- At most so many calls, one in the other. -/
def runCb : ℕ → FineCb → Nrf → Option Nrf
  | 0, _, _ => none
  | _ + 1, .txFire, s => some s.txFire
  | n + 1, .rxFire, s => rxFire (runCb n) s
  | n + 1, .rxClose, s => rxClose (runCb n) s

/-! ## Interrupts -/

/-- Whether the header bytes so far are worth the rest of the frame. -/
def earlyFilterPass (s : Nrf) (f : Incoming) : Bool :=
  if getLe16 f.bytes offNetid ≠ s.netid16 then false
  else if s.promiscuous then true
  else
    let dst := getLe16 f.bytes offDst
    dst = s.localAddr || dst = addrBroadcast

def handleBcmatch (s : Nrf) : Nrf :=
  match s.incoming with
  | none => s
  | some f =>
    if s.earlyFilterPass f then s
    else
      let s := (s.chargeRxUntil s.nowUs).radioDisable
      { s with op := .idle }.lgTsTimerCancel.report (.rxFailed .filtered)

def handleTxEnd (s : Nrf) : Nrf :=
  let airEnd := s.txAirEndUs
  { s.chargeTx.radioDisable with op := .idle }.report (.txDone airEnd)

/-- What the driver makes of the frame, its END event handled at `nowUs`. -/
def received (f : Incoming) (nowUs : ℕ) : PhyReport :=
  let len := if crcLen ≤ f.psdu.toNat then f.psdu.toNat - crcLen else 0
  if !f.crcOk ∨ len = 0 ∨ pduMax < len then .rxFailed .crc
  else .rxDone {
    pdu := f.bytes.take len
    rssi := (-f.rssiRaw.toInt8).toInt
    airStartUs := nowUs - rxChainUs - airtimeUs len }

def handleRxEnd (s : Nrf) : Nrf :=
  match s.incoming with
  | none => s
  | some f =>
    let s := (s.lgTsTimerCancel.chargeRxUntil s.nowUs).radioDisable
    { s with op := .idle, frame0 := f.psdu }.report (received f s.nowUs)

def lgPhyIsr (s : Nrf) (bcmatch ended : Bool) : Nrf :=
  let s := if bcmatch then s.handleBcmatch else s
  if bcmatch ∧ s.op = .idle then s
  else if ended then
    if s.op = .tx then s.handleTxEnd else if s.op = .rx then s.handleRxEnd else s
  else s

/-! ## Entry points -/

def lgPhyTxAt (s : Nrf) (airStartUs : ℕ) (chan : UInt8) (pdu : Bytes) : Except PhyErr Unit × Nrf :=
  if pdu.length = 0 ∨ pduMax < pdu.length then (.error .msgSize, s)
  else
    let s := { s with
      chan := chan
      frame0 := UInt8.ofNat (pdu.length + crcLen)
      txLen := pdu.length
      txAirEndUs := airStartUs + airtimeUs pdu.length }
    let fireUs := airStartUs - rampupUs - txChainUs
    if fireUs ≤ s.nowUs then (.error .time, s)
    else (.ok (), { s with op := .txArmed, timer := some (fireUs, .txFire) })

def lgPhyRxWindow (s : Nrf) (openUs closeUs : ℕ) (chan : UInt8) : Except PhyErr Unit × Nrf :=
  if closeUs ≤ openUs then (.error .inval, s)
  else
    let s := { s with chan := chan, rxCloseUs := closeUs }
    let fireUs := openUs - rampupUs
    if fireUs ≤ s.nowUs then (.error .time, s)
    else (.ok (), { s with op := .rxArmed, timer := some (fireUs, .rxFire) })

def lgPhyStop (s : Nrf) : Nrf :=
  let s := if s.op = .rx then s.chargeRxUntil s.nowUs else s
  { s.lgTsTimerCancel.radioDisable with op := .idle, inEvent := false }

/-! ## Runs -/

/-- What the driver is called for, and what the air brings. -/
inductive Input
  | txAt (airStartUs : ℕ) (chan : UInt8) (pdu : Bytes)
  | rxWindow (openUs closeUs : ℕ) (chan : UInt8)
  /-- The fine timer's compare has matched. -/
  | fire
  /-- A delimiter has been received. -/
  | address (f : Incoming)
  | isr (bcmatch ended : Bool)
  | stop
  deriving DecidableEq, Repr

/-- When the input can come, now. The radio's interrupt goes before the timer's. -/
def Enabled (s : Nrf) : Input → Prop
  | .txAt .. | .rxWindow .. => s.op = .idle
  | .fire => (∃ t ∈ s.timer, t.1 ≤ s.nowUs) ∧ ∀ f ∈ s.incoming, s.nowUs < f.endUs
  | .address f => s.op = .rx ∧ s.incoming = none ∧ s.rxOnUs ≤ s.nowUs ∧ f.sfdUs = s.nowUs ∧
      s.nowUs < f.endUs
  | .isr bcmatch ended =>
    (bcmatch = true → s.earlyAbort = true ∧ s.op = .rx ∧ ∃ f ∈ s.incoming,
      filterBytes ≤ f.psdu.toNat ∧ f.sfdUs + (pduOff + filterBytes) * byteUs ≤ s.nowUs) ∧
    (ended = true → (s.op = .tx ∧ s.txAirEndUs ≤ s.nowUs) ∨
      (s.op = .rx ∧ ∃ f ∈ s.incoming, f.endUs ≤ s.nowUs))
  | .stop => True

/-- The driver's work; there is none when the calls of the timer never return. -/
def perform (n : ℕ) (s : Nrf) : Input → Option Nrf
  | .txAt airStartUs chan pdu => some (s.lgPhyTxAt airStartUs chan pdu).2
  | .rxWindow openUs closeUs chan => some (s.lgPhyRxWindow openUs closeUs chan).2
  | .fire =>
    match s.timer with
    | none => some s
    | some (_, cb) => runCb n cb { s with timer := none }
  | .address f => some { s with address := true, incoming := some f }
  | .isr bcmatch ended => some (s.lgPhyIsr bcmatch ended)
  | .stop => some s.lgPhyStop

/-- The clock, moved on. -/
def atTime (s : Nrf) (nowUs : ℕ) : Nrf := { s with nowUs := nowUs }

inductive Step (s : Nrf) : Nrf → Prop
  | mk {s' : Nrf} {nowUs n : ℕ} {inp : Input} (hlate : s.nowUs ≤ nowUs)
    (hen : (s.atTime nowUs).Enabled inp) (hp : (s.atTime nowUs).perform n inp = some s') :
    Step s s'

/-! ## What the energy accounting leaves alone -/

/-- What the driver knows of its operation, its timer and the air. -/
def core (s : Nrf) :=
  (s.op, s.timer, s.address, s.incoming, s.rxCloseUs, s.rearms, s.reports, s.nowUs)

theorem chargeFixed_core (s : Nrf) : s.chargeFixed.core = s.core := by
  unfold chargeFixed
  split <;> rfl

theorem chargeRxUntil_core (s : Nrf) (endUs : ℕ) : (s.chargeRxUntil endUs).core = s.core := by
  unfold chargeRxUntil
  split
  · rfl
  · dsimp only
    split <;> rfl

/-! ## The timer of a window -/

variable {s s' : Nrf} {f : Incoming}

/-- While the receiver is on, the timer is there to close its window. -/
structure Watched (s : Nrf) : Prop where
  armed : s.op = .rx → ∃ atUs, s.timer = some (atUs, .rxClose) ∧
    (s.rearms = [] → atUs = s.rxCloseUs)
  heard : s.op = .rx → s.address = s.incoming.isSome
  away : s.op ≠ .rx → s.incoming = none

theorem Watched.of_core (h : s.Watched) (hc : s'.core = s.core) : s'.Watched := by
  simp only [core, Prod.mk.injEq] at hc
  obtain ⟨hop, htimer, haddress, hincoming, hclose, hrearms, -, -⟩ := hc
  constructor
  · rw [hop, htimer, hrearms, hclose]
    exact h.armed
  · rw [hop, haddress, hincoming]
    exact h.heard
  · rw [hop, hincoming]
    exact h.away

/-- The receiver is off. -/
theorem Watched.off (hop : s.op ≠ .rx) (hair : s.incoming = none) : s.Watched :=
  ⟨fun h => absurd h hop, fun h => absurd h hop, fun _ => hair⟩

theorem Watched.lgPhyStop (s : Nrf) : s.lgPhyStop.Watched := .off nofun rfl

theorem Watched.handleBcmatch (h : s.Watched) : s.handleBcmatch.Watched := by
  unfold Nrf.handleBcmatch
  split
  · exact h
  · split
    · exact h
    · exact .off nofun rfl

theorem Watched.handleRxEnd (h : s.Watched) : s.handleRxEnd.Watched := by
  unfold Nrf.handleRxEnd
  split
  · exact h
  · exact .off nofun rfl

theorem Watched.lgPhyIsr (h : s.Watched) (bcmatch ended : Bool) :
    (s.lgPhyIsr bcmatch ended).Watched := by
  unfold Nrf.lgPhyIsr
  have hfirst : (if bcmatch then s.handleBcmatch else s).Watched := by
    split
    · exact h.handleBcmatch
    · exact h
  generalize (if bcmatch then s.handleBcmatch else s) = d at hfirst ⊢
  dsimp only
  split
  · exact hfirst
  · split
    · split
      · exact .off nofun rfl
      · split
        · exact hfirst.handleRxEnd
        · exact hfirst
    · exact hfirst

/-- The window closes, or stays open until the frame in it can have ended. -/
theorem Watched.rxClose {n : ℕ} (hp : Nrf.runCb n .rxClose s = some s')
    (h : s.op = .rx → s.address = s.incoming.isSome)
    (haway : s.op ≠ .rx → s.incoming = none) : s'.Watched := by
  induction n generalizing s with
  | zero => cases hp
  | succ n ih =>
    change Nrf.rxClose (runCb n) s = some s' at hp
    unfold Nrf.rxClose at hp
    split at hp
    · next hop =>
      cases hp
      exact .off hop (haway hop)
    · next hop =>
      split at hp
      · dsimp only [lgTsTimerAt] at hp
        split at hp
        · cases hp
          refine ⟨fun _ => ⟨_, rfl, ?_⟩, h, haway⟩
          intro hnil
          cases hnil
        · exact ih hp h haway
      · cases hp
        exact .off nofun rfl

theorem Watched.rxFire {n : ℕ} (hp : Nrf.runCb n .rxFire s = some s')
    (haway : s.incoming = none) : s'.Watched := by
  cases n with
  | zero => cases hp
  | succ n =>
    change Nrf.rxFire (runCb n) s = some s' at hp
    have hc := chargeFixed_core { s with op := .rx }
    simp only [core, Prod.mk.injEq] at hc
    obtain ⟨hop, -, -, hincoming, -, -, -, -⟩ := hc
    unfold Nrf.rxFire at hp
    generalize ({ s with op := PhyOp.rx } : Nrf).chargeFixed = d at hop hincoming hp
    dsimp only [lgTsTimerAt] at hp
    have hair : d.incoming = none := hincoming.trans haway
    split at hp
    · cases hp
      refine ⟨fun _ => ⟨_, rfl, fun _ => rfl⟩, fun _ => ?_, fun _ => hair⟩
      exact (congrArg Option.isSome hair).symm
    · refine Watched.rxClose hp (fun _ => ?_) (fun _ => hair)
      exact (congrArg Option.isSome hair).symm

/-- What every step keeps. -/
theorem Step.watched (hstep : Step s s') (h : s.Watched) : s'.Watched := by
  obtain ⟨hlate, hen, hp⟩ := hstep
  next nowUs n inp =>
  have hnow : (s.atTime nowUs).Watched := ⟨h.armed, h.heard, h.away⟩
  generalize s.atTime nowUs = d at hen hp hnow
  cases inp with
  | txAt airStartUs chan pdu =>
    cases hp
    have hop : d.op = .idle := hen
    have hair : d.incoming = none := hnow.away (by rw [hop]; nofun)
    unfold lgPhyTxAt
    split
    · exact hnow
    · dsimp only
      split
      · exact .off (by rw [hop]; nofun) hair
      · exact .off nofun hair
  | rxWindow openUs closeUs chan =>
    cases hp
    have hop : d.op = .idle := hen
    have hair : d.incoming = none := hnow.away (by rw [hop]; nofun)
    unfold lgPhyRxWindow
    split
    · exact hnow
    · dsimp only
      split
      · exact .off (by rw [hop]; nofun) hair
      · exact .off nofun hair
  | fire =>
    obtain ⟨⟨⟨atUs, cb⟩, htimer, -⟩, -⟩ := hen
    have htimer' : d.timer = some (atUs, cb) := htimer
    have hkind : d.op = .rx → cb = .rxClose := by
      intro hop
      obtain ⟨t, ht, -⟩ := hnow.armed hop
      rw [htimer'] at ht
      cases ht
      rfl
    simp only [perform, htimer'] at hp
    cases cb with
    | txFire =>
      have hop : d.op ≠ .rx := fun hop => nomatch hkind hop
      cases n with
      | zero => cases hp
      | succ n =>
        cases hp
        have hc := chargeFixed_core { { d with timer := none } with op := .tx }
        simp only [core, Prod.mk.injEq] at hc
        obtain ⟨hop', -, -, hincoming, -⟩ := hc
        refine .off ?_ (hincoming.trans (hnow.away hop))
        change (chargeFixed _).op ≠ _
        rw [hop']
        nofun
    | rxFire =>
      have hop : d.op ≠ .rx := fun hop => nomatch hkind hop
      exact .rxFire hp (hnow.away hop)
    | rxClose =>
      exact .rxClose hp hnow.heard hnow.away
  | address f =>
    cases hp
    have hop : d.op = .rx := hen.1
    exact ⟨hnow.armed, fun _ => rfl, fun hne => absurd hop hne⟩
  | isr bcmatch ended =>
    cases hp
    exact hnow.lgPhyIsr bcmatch ended
  | stop =>
    cases hp
    exact .lgPhyStop d

/-- Just initialised; what is in the buffer does not matter. -/
def boot (earlyAbort : Bool) (frame0 : UInt8) : Nrf := { earlyAbort, frame0 }

def Reachable (s : Nrf) : Prop :=
  ∃ earlyAbort frame0, Relation.ReflTransGen Step (boot earlyAbort frame0) s

theorem Reachable.watched (h : s.Reachable) : s.Watched := by
  obtain ⟨earlyAbort, frame0, hrun⟩ := h
  induction hrun with
  | refl => exact .off nofun rfl
  | tail _ hstep ih => exact hstep.watched ih

/-! ## A window that closes on a frame -/

/-- The window is about to close, and the frame has started in it. It ends within its air time. -/
structure Closing (s : Nrf) (f : Incoming) : Prop where
  op : s.op = .rx
  heard : s.address = true
  frame : s.incoming = some f
  armed : s.timer = some (s.rxCloseUs, .rxClose)
  first : s.rearms = []
  started : f.sfdUs ≤ s.rxCloseUs
  ends : f.endUs ≤ s.rxCloseUs + f.airUs

/-- Every window of a run is one, once a frame has started in it. -/
theorem Reachable.closing (h : s.Reachable) (hop : s.op = .rx) (hf : s.incoming = some f)
    (hfirst : s.rearms = []) (hstarted : f.sfdUs ≤ s.rxCloseUs)
    (hends : f.endUs ≤ s.rxCloseUs + f.airUs) : s.Closing f := by
  obtain ⟨atUs, htimer, hat⟩ := h.watched.armed hop
  rw [hat hfirst] at htimer
  have hheard := h.watched.heard hop
  rw [hf] at hheard
  exact ⟨hop, hheard, hf, htimer, hfirst, hstarted, hends⟩

/-- Whatever byte is read, eight bytes fit. -/
theorem le_remainingUs (s : Nrf) : 8 * byteUs ≤ s.remainingUs := by
  simp only [remainingUs, airtimeUs, byteUs]
  omega

/-- The byte of the frame itself leaves it time enough. -/
theorem airUs_le_remainingUs (hf : s.incoming = some f) (hread : f.writtenUs ≤ s.nowUs) :
    f.airUs ≤ s.remainingUs := by
  have hbyte : s.lengthByte = f.psdu := by
    unfold lengthByte
    simp only [hf]
    exact if_pos hread
  simp only [remainingUs, hbyte, airtimeUs, Incoming.airUs, byteUs, pduMax, crcLen]
  split <;> omega

/-- `rx_close` puts off the end of the window, and that is all. -/
theorem rxClose_rearm (call : FineCb → Nrf → Option Nrf) (hop : s.op = .rx)
    (hheard : s.address = true) (hlater : s.nowUs < s.rxCloseUs + s.remainingUs) :
    s.rxClose call = some { s with
      timer := some (s.rxCloseUs + s.remainingUs, .rxClose)
      rearms := (s.nowUs, s.rxCloseUs + s.remainingUs) :: s.rearms } := by
  unfold rxClose
  rw [if_neg (not_not.mpr hop), if_pos hheard]
  exact if_pos hlater

theorem received_ne_timeout (f : Incoming) (nowUs : ℕ) :
    received f nowUs ≠ .rxFailed .timeout := by
  unfold received
  intro h
  dsimp only at h
  split at h
  all_goals
    split at h <;> cases h

/-- How far the end of the window has been put off: not yet, by the first byte that was read, or
beyond the end of the frame. -/
def PutOff (s : Nrf) (f : Incoming) (atUs : ℕ) : Prop :=
  (s.rearms = [] ∧ atUs = s.rxCloseUs) ∨
  (s.rearms.length = 1 ∧ s.rxCloseUs + 8 * byteUs ≤ atUs) ∨
  (s.rearms.length ≤ 2 ∧ f.endUs ≤ atUs)

/-- The frame is still being received. -/
structure Held (s₀ s : Nrf) (f : Incoming) : Prop where
  op : s.op = .rx
  heard : s.address = true
  frame : s.incoming = some f
  same : s.rxCloseUs = s₀.rxCloseUs
  reports : s.reports = s₀.reports
  later : ∀ r ∈ s.rearms, r.1 < r.2
  armed : ∃ atUs, s.timer = some (atUs, .rxClose) ∧ s.PutOff f atUs

/-- The window is over: the driver was stopped, it has filtered the frame, or the frame has
ended. -/
structure Ended (s₀ s : Nrf) (f : Incoming) : Prop where
  op : s.op = .idle
  later : ∀ r ∈ s.rearms, r.1 < r.2
  short : s.rearms.length ≤ 2
  reports : s.reports = s₀.reports ∨ s.reports = .rxFailed .filtered :: s₀.reports ∨
    ∃ endUs, f.endUs ≤ endUs ∧ s.reports = received f endUs :: s₀.reports

variable {s₀ : Nrf}

theorem Closing.held (h : s₀.Closing f) : Held s₀ s₀ f where
  op := h.op
  heard := h.heard
  frame := h.frame
  same := rfl
  reports := rfl
  later := by simp [h.first]
  armed := ⟨_, h.armed, .inl ⟨h.first, rfl⟩⟩

theorem Held.short (h : Held s₀ s f) : s.rearms.length ≤ 2 := by
  obtain ⟨atUs, -, hoff⟩ := h.armed
  rcases hoff with ⟨hnil, -⟩ | ⟨hone, -⟩ | ⟨htwo, -⟩
  · simp [hnil]
  · omega
  · exact htwo

/-- The timer fires while the frame has not ended. -/
theorem Held.fire {nowUs : ℕ} (h : Held s₀ s f) (hclosing : s₀.Closing f)
    (hen : (s.atTime nowUs).Enabled .fire) :
    ∃ s', (∀ n, (s.atTime nowUs).perform (n + 1) .fire = some s') ∧ Held s₀ s' f := by
  obtain ⟨atUs, htimer, hoff⟩ := h.armed
  obtain ⟨⟨t, ht, hdue⟩, hearly⟩ := hen
  have ht' : s.timer = some t := ht
  rw [htimer] at ht'
  cases ht'
  have hbefore : nowUs < f.endUs := hearly f h.frame
  have hat : atUs ≤ nowUs := hdue
  let d : Nrf := { s.atTime nowUs with timer := none }
  have hends := hclosing.ends
  have hstarted := hclosing.started
  have hwritten := f.written
  rw [← h.same] at hends hstarted
  have hlong : 8 * byteUs ≤ d.remainingUs := le_remainingUs d
  -- with its own byte read, the frame has ended before the new target
  have hown : f.writtenUs ≤ nowUs → f.endUs ≤ s.rxCloseUs + d.remainingUs := by
    intro hread
    have hair : f.airUs ≤ d.remainingUs := airUs_le_remainingUs h.frame hread
    omega
  have hnext : nowUs < s.rxCloseUs + d.remainingUs ∧
      (s.rearms = [] ∨ s.rearms.length = 1 ∧ f.endUs ≤ s.rxCloseUs + d.remainingUs) := by
    have hbyte : byteUs = 32 := rfl
    rcases hoff with ⟨hnil, hclose⟩ | ⟨hone, hfar⟩ | ⟨-, hfar⟩
    · refine ⟨?_, .inl hnil⟩
      by_cases hread : f.writtenUs ≤ nowUs
      · have hfar := hown hread
        omega
      · omega
    · have hfar' := hown (by omega)
      exact ⟨by omega, .inr ⟨hone, hfar'⟩⟩
    · omega
  obtain ⟨hlater, hphase⟩ := hnext
  let e : Nrf := { d with
    timer := some (s.rxCloseUs + d.remainingUs, .rxClose)
    rearms := (nowUs, s.rxCloseUs + d.remainingUs) :: s.rearms }
  refine ⟨e, fun n => ?_, ?_⟩
  · have htimer' : (s.atTime nowUs).timer = some (atUs, .rxClose) := htimer
    simp only [perform, htimer']
    exact rxClose_rearm (s := d) (runCb n) h.op h.heard hlater
  · refine ⟨h.op, h.heard, h.frame, h.same, h.reports, ?_, _, rfl, ?_⟩
    · intro r hr
      rcases List.mem_cons.mp hr with rfl | hr
      · exact hlater
      · exact h.later r hr
    · rcases hphase with hnil | ⟨hone, hfar⟩
      · refine .inr (.inl ⟨?_, ?_⟩)
        · change (_ :: s.rearms).length = 1
          rw [hnil]
          rfl
        · change s.rxCloseUs + _ ≤ s.rxCloseUs + d.remainingUs
          omega
      · refine .inr (.inr ⟨?_, hfar⟩)
        change (_ :: s.rearms).length ≤ 2
        rw [List.length_cons, hone]

theorem Held.stop (h : Held s₀ s f) : Ended s₀ s.lgPhyStop f := by
  have hcore := chargeRxUntil_core s s.nowUs
  simp only [core, Prod.mk.injEq] at hcore
  obtain ⟨-, -, -, -, -, hrearms, hreports, -⟩ := hcore
  unfold lgPhyStop
  rw [if_pos h.op]
  refine ⟨rfl, ?_, ?_, .inl (hreports.trans h.reports)⟩
  · change ∀ r ∈ (s.chargeRxUntil s.nowUs).rearms, _
    rw [hrearms]
    exact h.later
  · change (s.chargeRxUntil s.nowUs).rearms.length ≤ 2
    rw [hrearms]
    exact h.short

theorem Held.handleBcmatch (h : Held s₀ s f) :
    s.handleBcmatch = s ∨ Ended s₀ s.handleBcmatch f ∧ s.handleBcmatch.op = .idle := by
  have hcore := chargeRxUntil_core s s.nowUs
  simp only [core, Prod.mk.injEq] at hcore
  obtain ⟨-, -, -, -, -, hrearms, hreports, -⟩ := hcore
  unfold Nrf.handleBcmatch
  simp only [h.frame]
  split
  · exact .inl rfl
  · refine .inr ⟨⟨rfl, ?_, ?_, .inr (.inl ?_)⟩, rfl⟩
    · change ∀ r ∈ (s.chargeRxUntil s.nowUs).rearms, _
      rw [hrearms]
      exact h.later
    · change (s.chargeRxUntil s.nowUs).rearms.length ≤ 2
      rw [hrearms]
      exact h.short
    · change _ :: (s.chargeRxUntil s.nowUs).reports = _
      rw [hreports, h.reports]

theorem Held.handleRxEnd (h : Held s₀ s f) (hend : f.endUs ≤ s.nowUs) :
    Ended s₀ s.handleRxEnd f := by
  have hcore := chargeRxUntil_core s.lgTsTimerCancel s.nowUs
  simp only [core, Prod.mk.injEq] at hcore
  obtain ⟨-, -, -, -, -, hrearms, hreports, hnow⟩ := hcore
  unfold Nrf.handleRxEnd
  simp only [h.frame]
  refine ⟨rfl, ?_, ?_, .inr (.inr ⟨s.nowUs, hend, ?_⟩)⟩
  · change ∀ r ∈ (s.lgTsTimerCancel.chargeRxUntil s.nowUs).rearms, _
    rw [hrearms]
    exact h.later
  · change (s.lgTsTimerCancel.chargeRxUntil s.nowUs).rearms.length ≤ 2
    rw [hrearms]
    exact h.short
  · change received f (s.lgTsTimerCancel.chargeRxUntil s.nowUs).nowUs ::
      (s.lgTsTimerCancel.chargeRxUntil s.nowUs).reports = _
    rw [hreports, hnow]
    exact congrArg _ h.reports

/-- One step of a window. -/
theorem Held.step (h : Held s₀ s f) (hclosing : s₀.Closing f) (hstep : Step s s') :
    Held s₀ s' f ∨ Ended s₀ s' f := by
  obtain ⟨hlate, hen, hp⟩ := hstep
  next nowUs n inp =>
  have hnow : Held s₀ (s.atTime nowUs) f :=
    ⟨h.op, h.heard, h.frame, h.same, h.reports, h.later, h.armed⟩
  cases inp with
  | txAt airStartUs chan pdu =>
    have hop : s.op = .idle := hen
    rw [h.op] at hop
    cases hop
  | rxWindow openUs closeUs chan =>
    have hop : s.op = .idle := hen
    rw [h.op] at hop
    cases hop
  | fire =>
    obtain ⟨d, hd, hheld⟩ := h.fire hclosing hen
    cases n with
    | zero =>
      obtain ⟨atUs, htimer, -⟩ := hnow.armed
      simp only [perform, htimer, runCb] at hp
      cases hp
    | succ n =>
      rw [hd n] at hp
      cases hp
      exact .inl hheld
  | address g =>
    have hnone : s.incoming = none := hen.2.1
    rw [h.frame] at hnone
    cases hnone
  | isr bcmatch ended =>
    cases hp
    have hend : ended = true → f.endUs ≤ nowUs := by
      intro he
      rcases hen.2 he with ⟨htx, -⟩ | ⟨-, g, hg, hle⟩
      · exact absurd (h.op.symm.trans htx) nofun
      · have hfg : s.incoming = some g := hg
        rw [h.frame] at hfg
        cases hfg
        exact hle
    -- END is looked at when the filter has let the frame pass
    have hgo : Held s₀ (if ended then (s.atTime nowUs).handleRxEnd else s.atTime nowUs) f ∨
        Ended s₀ (if ended then (s.atTime nowUs).handleRxEnd else s.atTime nowUs) f := by
      cases ended with
      | false => exact .inl hnow
      | true => exact .inr (hnow.handleRxEnd (hend rfl))
    unfold lgPhyIsr
    dsimp only
    cases bcmatch with
    | false => simpa [hnow.op] using hgo
    | true =>
      rcases hnow.handleBcmatch with hpass | ⟨hended, hidle⟩
      · rw [if_pos rfl, hpass]
        simpa [hnow.op] using hgo
      · rw [if_pos rfl, if_pos ⟨rfl, hidle⟩]
        exact .inr hended
  | stop =>
    cases hp
    exact .inr hnow.stop

/-- Steps of the driver while the receiver is on. -/
def Receiving (s s' : Nrf) : Prop := s.op = .rx ∧ Step s s'

theorem Closing.run (h : s₀.Closing f) (hrun : Relation.ReflTransGen Receiving s₀ s) :
    Held s₀ s f ∨ Ended s₀ s f := by
  induction hrun with
  | refl => exact .inl h.held
  | tail _ hstep ih =>
    obtain ⟨hop, hstep⟩ := hstep
    rcases ih with hheld | hended
    · exact hheld.step h hstep
    · rw [hended.op] at hop
      cases hop

/-- **The close of a receive window ends.** However late the timer is and whatever byte `rx_close`
finds, it puts off the end of the window at most twice, each time to a time that is still to come,
so that no call of it calls itself; and it never takes the receiver away from the frame: a window
that is over was stopped, or its frame was filtered or has ended. -/
theorem rxClose_ends (h : s₀.Closing f) (hrun : Relation.ReflTransGen Receiving s₀ s) :
    (s.rearms.length ≤ 2 ∧ ∀ r ∈ s.rearms, r.1 < r.2) ∧
    (s.op = .rx → s.incoming = some f ∧ ∀ nowUs, (s.atTime nowUs).Enabled .fire →
      ∃ s', (s.atTime nowUs).perform 1 .fire = some s' ∧ s'.op = .rx ∧ s'.incoming = some f) ∧
    (s.op ≠ .rx → s.reports = s₀.reports ∨ s.reports = .rxFailed .filtered :: s₀.reports ∨
      ∃ endUs, f.endUs ≤ endUs ∧ s.reports = received f endUs :: s₀.reports) := by
  rcases h.run hrun with hheld | hended
  · refine ⟨⟨hheld.short, hheld.later⟩, fun _ => ⟨hheld.frame, ?_⟩,
      fun hne => absurd hheld.op hne⟩
    intro nowUs hen
    obtain ⟨s', hs', hnext⟩ := hheld.fire h hen
    exact ⟨s', hs' 0, hnext.op, hnext.frame⟩
  · refine ⟨⟨hended.short, hended.later⟩, fun hop => ?_, fun _ => hended.reports⟩
    rw [hended.op] at hop
    cases hop

instance (s : Nrf) (inp : Input) : Decidable (s.Enabled inp) := by
  rcases inp <;> unfold Enabled <;> infer_instance

/-- A step at a time, if the input can come then. -/
def next (s : Nrf) (i : ℕ × Input) : Option Nrf :=
  if s.nowUs ≤ i.1 ∧ (s.atTime i.1).Enabled i.2 then (s.atTime i.1).perform 2 i.2 else none

theorem next_step (s : Nrf) (i : ℕ × Input) (s' : Nrf) (h : s.next i = some s') : Step s s' := by
  unfold next at h
  split at h
  · next hgo => exact ⟨hgo.1, hgo.2, h⟩
  · cases h

def receive (s : Nrf) (i : ℕ × Input) : Option Nrf := if s.op = .rx then s.next i else none

theorem receive_receiving (s : Nrf) (i : ℕ × Input) (s' : Nrf) (h : s.receive i = some s') :
    Receiving s s' := by
  unfold receive at h
  split at h
  · next hop => exact ⟨hop, next_step s i s' h⟩
  · cases h

/-- A full frame that starts just before its window closes. -/
def lateFrame : Incoming where
  psdu := 127
  bytes := []
  crcOk := true
  rssiRaw := 60
  sfdUs := 3990
  writtenUs := 4022
  endUs := 8108
  written := by decide

/-- The timer fires twice before the frame has ended. -/
def lateSteps : List (ℕ × Input) := [(4001, .fire), (4450, .fire), (8109, .isr false true)]

/-- The length byte of a short frame that was sent before is still there when the window closes. -/
theorem rxClose_ends_stale :
    ∃ s₀ s : Nrf, s₀.Closing lateFrame ∧ Relation.ReflTransGen Receiving s₀ s ∧
      s.rearms.map Prod.fst = [4450, 4001] ∧ (∀ r ∈ s.rearms, r.1 < r.2) ∧
      s.op = .idle ∧ .rxFailed .timeout ∉ s.reports := by
  obtain ⟨s₀, hreach, hbefore⟩ := Traces.exists_run next_step
    [(0, .txAt 1000 11 [1, 2, 3, 4]), (960, .fire), (1384, .isr false true),
      (1400, .rxWindow 2000 4000 11), (1960, .fire), (3990, .address lateFrame)]
    (boot true 0) (fun s => decide (s.op = .rx ∧ s.incoming = some lateFrame ∧ s.rearms = [] ∧
      s.rxCloseUs = 4000 ∧ s.reports = [.txDone 1384]) &&
      (lateSteps.foldlM receive s).any fun s' : Nrf =>
        decide (s'.rearms.map Prod.fst = [4450, 4001] ∧ s'.op = .idle))
    (by decide +kernel)
  obtain ⟨hstate, hafter⟩ := Bool.and_eq_true_iff.mp hbefore
  obtain ⟨hop, hframe, hfirst, hclose, hreports⟩ := of_decide_eq_true hstate
  obtain ⟨s, hrun, hend⟩ := Traces.exists_run receive_receiving _ s₀ _ hafter
  obtain ⟨htimes, hidle⟩ := of_decide_eq_true hend
  have hclosing : s₀.Closing lateFrame :=
    Reachable.closing ⟨true, 0, hreach⟩ hop hframe hfirst (hclose ▸ by decide)
      (hclose ▸ by decide)
  obtain ⟨⟨-, hlater⟩, -, hover⟩ := rxClose_ends hclosing hrun
  refine ⟨s₀, s, hclosing, hrun, htimes, hlater, hidle, ?_⟩
  rw [hreports] at hover
  rcases hover (by rw [hidle]; nofun) with h | h | ⟨endUs, -, h⟩
  · rw [h]
    decide
  · rw [h]
    decide
  · have hframe' := (received_ne_timeout lateFrame endUs).symm
    simp [h, hframe']

end Nrf

end LockGrid
