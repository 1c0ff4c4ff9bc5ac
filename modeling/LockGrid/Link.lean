import LockGrid.CatchUp
import LockGrid.Queue

/-!
# Links

`lg_link.c` above the schedule arithmetic: establishment and teardown, frame staging, the
handlers of a link event, and the frames that arrive on a link. A function that calls
`anchor_catch_up` gives `none` when that does not return.
-/
namespace LockGrid

variable {cfg : Config}

/-- Zephyr's `CLAMP`. -/
def clamp (v lo hi : ℕ) : ℕ := if v ≤ lo then lo else min v hi

/-! ## Link parameters -/

structure LinkParams where
  intervalUs : UInt32
  anchorOffsetUs : UInt32
  chanMap : UInt16
  hopSeed : UInt16
  supTimeoutCs : UInt16
  subrateMax : UInt8
  scaPpm : UInt16
  role : UInt8
  rank : UInt16
  deriving DecidableEq, Repr

def linkParamsLen : ℕ := 20

def LinkParams.encode (pp : LinkParams) : Bytes :=
  putLe32 pp.intervalUs ++ putLe32 pp.anchorOffsetUs ++ putLe16 pp.chanMap ++
    putLe16 pp.hopSeed ++ putLe16 pp.supTimeoutCs ++ [pp.subrateMax] ++ putLe16 pp.scaPpm ++
    [pp.role] ++ putLe16 pp.rank

def LinkParams.decode (p : Bytes) : LinkParams where
  intervalUs := getLe32 p 0
  anchorOffsetUs := getLe32 p 4
  chanMap := getLe16 p 8
  hopSeed := getLe16 p 10
  supTimeoutCs := getLe16 p 12
  subrateMax := getByte p 14
  scaPpm := getLe16 p 15
  role := getByte p 17
  rank := getLe16 p 18

/-- Largest subrate that still lets a link prove it is alive. -/
def lgSubrateCeiling (intervalUs supTimeoutUs : ℕ) : ℕ :=
  if intervalUs = 0 ∨ supTimeoutUs = 0 then 1
  else min (max (supTimeoutUs / (intervalUs * 3)) 1) 32

def Config.clampInterval (cfg : Config) (intervalUs : ℕ) : ℕ :=
  clamp intervalUs (cfg.connIntervalMinMs * 1000) (cfg.connIntervalMaxMs * 1000)

theorem clampInterval_pos (cfg : Config) (v : ℕ) : 10000 ≤ cfg.clampInterval v := by
  have hmin := cfg.connIntervalMinMs_range
  have hmax := cfg.connIntervalMaxMs_range
  unfold Config.clampInterval clamp
  split_ifs <;> omega

theorem clampInterval_le (cfg : Config) (v : ℕ) : cfg.clampInterval v ≤ 32000000 := by
  have hmin := cfg.connIntervalMinMs_range
  have hmax := cfg.connIntervalMaxMs_range
  unfold Config.clampInterval clamp
  split_ifs <;> omega

/-! ## Establishment and teardown -/

/-- The schedule a link starts on; the anchor is already set. -/
def startSchedule (c : Node cfg) (pp : LinkParams) (initiator : Bool) (s : Schedule) :
    Schedule :=
  let interval := cfg.clampInterval pp.intervalUs.toNat
  let sup := pp.supTimeoutCs.toNat * 10000
  { s with
    initiator := initiator
    intervalUs := interval
    epochUs := s.anchorUs
    counter := 0
    chanMap := if pp.chanMap ≠ 0 then pp.chanMap else c.net.chanMap
    hopSeed := pp.hopSeed
    subrate := 1
    subrateMax := UInt8.ofNat (min pp.subrateMax.toNat
      (min c.net.tune.subrateMax (lgSubrateCeiling interval sup)))
    peerScaPpm := pp.scaPpm.toNat
    supTimeoutUs := sup
    pendingCtrl := {}
    lastSyncUs := c.nowUs
    lastRxUs := c.nowUs }

/-- What follows a change of the set of links. -/
def linksChanged (o : Oracle) (c : Node cfg) : Node cfg :=
  let c := (lgRouteRecompute c).2
  lgDiscRetune o 7
    (lgRoleEvaluate o { c with net := { c.net with linkChangeUs := c.nowUs } })

def lgLinkEstablish (o : Oracle) (c : Node cfg) (i : Fin cfg.maxNeighbors) (pp : LinkParams)
    (initiator : Bool) : Option (Node cfg) :=
  let n := c.neigh i
  (anchorCatchUp cfg c.nowUs catchUpFuel (startSchedule c pp initiator n.sched)).map fun s =>
    let c := c.setNeigh i
      { n with state := .linked, sched := s, tx := { n.tx with txPending := false } }
    let c := c.setView i
      { c.view i with peerRank := pp.rank.toNat, role := pp.role, consecMisses := 0 }
    linksChanged o (lgNeighUpdateCost c i)

theorem linksChanged_quiet (o : Oracle) (c : Node cfg) : Node.Quiet c (linksChanged o c) := by
  have hq : Node.Quiet (lgRouteRecompute c).2 { (lgRouteRecompute c).2 with net :=
      { (lgRouteRecompute c).2.net with linkChangeUs := (lgRouteRecompute c).2.nowUs } } :=
    ⟨_, _, rfl⟩
  exact (lgRouteRecompute_quiet c).trans
    (hq.trans ((lgRoleEvaluate_quiet o _).trans (lgDiscRetune_quiet o 7 _)))

/-- What `lg_link_establish` does to the neighbour table. -/
theorem lgLinkEstablish_eq {o : Oracle} {c c' : Node cfg} {i : Fin cfg.maxNeighbors}
    {pp : LinkParams} {initiator : Bool} (h : lgLinkEstablish o c i pp initiator = some c') :
    ∃ s, Node.Quiet (c.setNeigh i { c.neigh i with
      state := .linked, sched := s, tx := { (c.neigh i).tx with txPending := false } }) c' := by
  obtain ⟨s, -, rfl⟩ := Option.map_eq_some_iff.mp h
  exact ⟨s, (setView_quiet _ i _).trans
    ((lgNeighUpdateCost_quiet _ i).trans (linksChanged_quiet o _))⟩

/-- The link key becomes the long term key. -/
def Keys.keepLtk (k : Keys) : Keys := { k with ltk := k.linkKey, hasLtk := true }

/-- The entry of a link that went down. -/
def Neigh.down (n : Neigh) : Neigh :=
  { n with
    state := .lost
    sched := { n.sched with intervalUs := 0 }
    keys := n.keys.keepLtk.forget
    tx := { n.tx with txPending := false } }

def lgLinkDown (o : Oracle) (c : Node cfg) (i : Fin cfg.maxNeighbors) : Node cfg :=
  let n := c.neigh i
  if n.state ≠ .linked then c
  else
    let hist := { c.hist with
      keylessDowns := c.hist.keylessDowns + if n.keys.hasKey then 0 else 1 }
    let c := lgSecForgetKey ({ c with hist := hist }.setKeys i n.keys.keepLtk) i
    let c := c.setNeigh i { c.neigh i with
      state := .lost
      sched := { n.sched with intervalUs := 0 }
      tx := { n.tx with txPending := false } }
    let c := c.note i (.down n.keys.linkKey)
    let c := c.setView i { c.view i with isParent := false }
    linksChanged o (lgRouteFlushVia c n.addr)

/-- All that `lg_link_down` does, the entry in one. -/
theorem lgLinkDown_eq (o : Oracle) (c : Node cfg) (i : Fin cfg.maxNeighbors) : lgLinkDown o c i =
    let n := c.neigh i
    if n.state ≠ .linked then c
    else
      let hist := { c.hist with
        live := destroyed c.hist.live n.keys
        keylessDowns := c.hist.keylessDowns + if n.keys.hasKey then 0 else 1 }
      let c := { c.setNeigh i n.down with hist := hist }.note i (.down n.keys.linkKey)
      let c := c.setView i { c.view i with isParent := false }
      linksChanged o (lgRouteFlushVia c n.addr) := by
  unfold lgLinkDown
  dsimp only
  split
  · rfl
  · have hkept : (c.setKeys i (c.neigh i).keys.keepLtk).neigh i =
        { c.neigh i with keys := (c.neigh i).keys.keepLtk } := Function.update_self ..
    have htwice : ∀ m, Function.update (c.setKeys i (c.neigh i).keys.keepLtk).neigh i m =
        Function.update c.neigh i m := fun m => Function.update_idem ..
    rw [lgSecForgetKey_setNeigh, lgSecForgetKey_self]
    simp only [Node.destroyKey, Node.setNeigh, Node.setKeys] at hkept htwice ⊢
    rw [hkept, htwice]
    rfl

/-- `lg_neigh_make_room`: whether there is a free entry now. -/
def lgNeighMakeRoom (o : Oracle) (c : Node cfg) (candCost : ℕ) : Bool × Node cfg :=
  let worst := fun (l : List (Fin cfg.maxNeighbors)) => l.foldl (fun best i =>
    match best with
    | none => some i
    | some b => if (c.view b).linkCost < (c.view i).linkCost then some i else best) none
  let all := List.finRange cfg.maxNeighbors
  if all.any fun i => (c.neigh i).state = .free then (true, c)
  else match worst (all.filter fun i => (c.neigh i).state = .heard ∨ (c.neigh i).state = .lost) with
    | some i => (true, lgNeighFree c i)
    | none =>
      match worst (all.filter fun i =>
          !(c.view i).isParent ∧ candCost + etxOne < (c.view i).linkCost) with
      | some i => (true, lgNeighFree (lgLinkDown o c i) i)
      | none => (false, c)

/-- An event that produced nothing; supervision may end the link here. -/
def lgLinkEventMiss (o : Oracle) (c : Node cfg) (i : Fin cfg.maxNeighbors) : Node cfg :=
  let n := c.neigh i
  let c := lgChanResult (lgNeighTxResult c i false) (lgLinkNextChan n.sched) false
  if n.sched.lastRxUs ≠ 0 ∧ n.sched.supTimeoutUs < c.nowUs - n.sched.lastRxUs then
    lgLinkDown o c i
  else c

/-! ## Frame staging -/

def ctrlChanMap : UInt8 := 0
def ctrlSubrate : UInt8 := 1
def ctrlInterval : UInt8 := 2
def ctrlRouteReg : UInt8 := 5
def ctrlTeardown : UInt8 := 6
def routeAdvPeriodUs : ℕ := 30 * 1000000

/-- Body of the control frame for a pending change; the channel map goes first. -/
def ctrlBody (s : Schedule) : Bytes :=
  if s.pendingCtrl.chanMap then
    [ctrlChanMap] ++ putLe16 s.pendingChanMap ++ putLe16 (UInt16.ofNat s.instant)
  else [ctrlSubrate, s.pendingSubrate] ++ putLe16 (UInt16.ofNat s.instant)

/-- The data header and payload of a message. -/
def dataBody (m : TxMsg) : Bytes :=
  [m.flags] ++ putLe16 m.origin ++ putLe16 m.finalDst ++ [m.hops, m.port] ++ putLe16 m.msgId ++
    m.payload

/-- The `seal:` end of `lg_link_stage_tx`. -/
def stageSeal (psa : Psa) (ok : Bool) (c : Node cfg) (i : Fin cfg.maxNeighbors) (t : FrameType)
    (more : Bool) (body : Bytes) (staged : Staged) : Bool × Node cfg :=
  let n := c.neigh i
  let fcf := fcfOf t true ||| if more then fcfMd else 0
  let pdu := lgFrameHdrPut c.ident.netid16 fcf n.tx.txSeq n.addr c.ident.addr ++ body
  let c := c.setNeigh i { n with tx := { n.tx with txSeq := n.tx.txSeq + 1 } }
  match lgSecEncrypt psa ok c i pdu hdrLenSec with
  | (.error _, c) =>
    let n := c.neigh i
    (false, c.setNeigh i { n with tx := { n.tx with txPending := false } })
  | (.ok pdu, c) =>
    let n := c.neigh i
    (true, c.setNeigh i
      { n with tx := { n.tx with txbuf := pdu, txPending := true, histStaged := staged } })

/-- A route advertisement goes out to neighbour `i`. -/
def noteAdvertised (c : Node cfg) (i : Fin cfg.maxNeighbors) : Node cfg :=
  let c := c.setView i { c.view i with routeAdvUs := c.nowUs, advUrgentDone := true }
  { c with net := { c.net with advUrgent := (List.finRange cfg.maxNeighbors).any fun j =>
      (c.neigh j).state = .linked && !(c.view j).advUrgentDone } }

def Node.setTx (c : Node cfg) (i : Fin cfg.maxNeighbors) (t : TxStage) : Node cfg :=
  c.setNeigh i { c.neigh i with tx := t }

/-- Choose and build the frame this link will send at its next event. -/
def lgLinkStageTx (psa : Psa) (ok : Bool) (c : Node cfg) (i : Fin cfg.maxNeighbors) :
    Bool × Node cfg :=
  let n := c.neigh i
  if n.state ≠ .linked ∨ !n.keys.hasKey then (false, c)
  else if n.sched.pendingCtrl.any then
    stageSeal psa ok (c.setTx i { n.tx with txWasCtrl := true }) i .ctrl false
      (ctrlBody n.sched) .ctrl
  else
    let c := c.setTx i { n.tx with txWasCtrl := false }
    let v := c.view i
    if (c.net.advUrgent && !v.advUrgentDone) || routeAdvPeriodUs < c.nowUs - v.routeAdvUs then
      stageSeal psa ok (noteAdvertised c i) i .ctrl false (lgRouteBuildAdv c (4 + 6 * 4)) .adv
    else
      match lgTxqPeek c n.addr with
      | (some k, c) =>
        let more := lgTxqPending c n.addr
        stageSeal psa ok (more.2.setTx i { (more.2.neigh i).tx with txNeedsAck := true }) i .data
          more.1 (dataBody (c.txq k)) (.data (c.txq k).histUid)
      | (none, c) =>
        stageSeal psa ok (c.setTx i { (c.neigh i).tx with txNeedsAck := false }) i .ack false []
          .keepalive

theorem noteAdvertised_quiet (c : Node cfg) (i : Fin cfg.maxNeighbors) :
    Node.Quiet c (noteAdvertised c i) := ⟨_, _, rfl⟩

theorem Node.Quiet.tx_eq {c c' : Node cfg} {i : Fin cfg.maxNeighbors} {t : TxStage}
    (h : Node.Quiet (c.setTx i t) c') : (c'.neigh i).tx = t := by
  rw [h.neigh]
  simp [Node.setTx]

/-- Staging once more over a stage that only routing has come between. -/
theorem Node.Quiet.restage {c c' : Node cfg} {i : Fin cfg.maxNeighbors} {t : TxStage}
    (h : Node.Quiet (c.setTx i t) c') (t' : TxStage) :
    Node.Quiet (c.setTx i t') (c'.setTx i t') := by
  obtain ⟨net, view, rfl⟩ := h
  exact ⟨net, view, by simp [Node.setTx, Node.setNeigh]⟩

/-- What `lg_link_stage_tx` hands to its `seal:` end: the acknowledgement that is owed and what
the frame is built from. -/
inductive StagesAs (c : Node cfg) (i : Fin cfg.maxNeighbors) : TxStage → Staged → Prop
  | ctrl : StagesAs c i { (c.neigh i).tx with txWasCtrl := true } .ctrl
  | adv : StagesAs c i { (c.neigh i).tx with txWasCtrl := false } .adv
  | data (k : Fin cfg.txQueueSize) :
    StagesAs c i { (c.neigh i).tx with txWasCtrl := false, txNeedsAck := true }
      (.data (c.txq k).histUid)
  | keepalive : StagesAs c i { (c.neigh i).tx with txWasCtrl := false, txNeedsAck := false }
      .keepalive

/-- `lg_link_stage_tx` refuses, or seals one frame from a node that differs in no more than the
stage of the link and what routing owns. -/
theorem lgLinkStageTx_cases (psa : Psa) (ok : Bool) (c : Node cfg) (i : Fin cfg.maxNeighbors) :
    lgLinkStageTx psa ok c i = (false, c) ∨
      ∃ t staged c' ft more body, StagesAs c i t staged ∧ Node.Quiet (c.setTx i t) c' ∧
        lgLinkStageTx psa ok c i = stageSeal psa ok c' i ft more body staged := by
  unfold lgLinkStageTx
  dsimp only
  split
  · exact .inl rfl
  · right
    split
    · exact ⟨_, _, _, _, _, _, .ctrl, .refl _, rfl⟩
    · split
      · exact ⟨_, _, _, _, _, _, .adv, noteAdvertised_quiet _ i, rfl⟩
      · let t : TxStage := { (c.neigh i).tx with txWasCtrl := false }
        have hq := lgTxqPeek_quiet (c.setTx i t) (c.neigh i).addr
        split
        · next k c' hpeek =>
          rw [hpeek] at hq
          have hk : (c'.txq k).histUid = (c.txq k).histUid := by rw [hq.txq]; rfl
          have hq' := hq.trans (lgTxqPeek_quiet c' (c.neigh i).addr)
          rw [hk, lgTxqPending, hq'.tx_eq]
          exact ⟨_, _, _, _, _, _, .data k, hq'.restage _, rfl⟩
        · next c' hpeek =>
          rw [hpeek] at hq
          rw [hq.tx_eq]
          exact ⟨_, _, _, _, _, _, .keepalive, hq.restage _, rfl⟩

/-! ## Event handlers -/

/-- Declare the running event finished. -/
def lgSchedEventDone (c : Node cfg) : Node cfg :=
  { c with
    phy := .idle
    granted := false
    finishKind := c.ev.kind
    finishNeigh := c.ev.neigh
    histFinishNo := c.ev.histNo
    ev := { c.ev with kind := .none } }

/-- Command the radio, or give the event up if it refuses. -/
def command (o : Oracle) (c : Node cfg) (p : Phy) : Node cfg :=
  if o.phyOk then { c with phy := p } else lgSchedEventDone c

def linkStart (o : Oracle) (c : Node cfg) (i : Fin cfg.maxNeighbors) : Node cfg :=
  let first := (c.neigh i).sched.initiator
  let c := { c with
    evst := { txFirst := first, gotRx := false, sentTx := false, histNo := c.ev.histNo } }
  command o c (if first then .tx else .rx)

def linkTxDone (o : Oracle) (c : Node cfg) (i : Fin cfg.maxNeighbors) : Node cfg :=
  let c := { c with
    evst := { c.evst with sentTx := true }
    hist := { c.hist with aired := (i.val, (c.neigh i).tx.histStaged) :: c.hist.aired } }
  if !c.evst.txFirst then lgSchedEventDone c else command o c .rx

/-- Largest number of received frames waiting for the work queue. -/
def rxRingSize : ℕ := 8

def lgRxPost (c : Node cfg) (rx : RxRec) : Node cfg :=
  if pduMax < rx.pdu.length ∨ rxRingSize ≤ c.rxRing.length then c
  else { c with rxRing := c.rxRing ++ [rx] }

/-- `sync_err_us`, a signed number of 32 bits. -/
def syncErrUs (evAnchorUs airStartUs : ℕ) : ℤ := ((airStartUs : ℤ) - evAnchorUs).bmod (2 ^ 32)

/-- The responder takes its anchor from the measured frame start; the epoch moves along, in 64
bits. -/
def reanchor (now evAnchorUs airStartUs : ℕ) (s : Schedule) : Schedule :=
  { s with
    epochUs := (((s.epochUs : ℤ) + syncErrUs evAnchorUs airStartUs) % 2 ^ 64).toNat
    anchorUs := airStartUs
    lastSyncUs := now }

/-- What both ends note of a frame that arrived in a link event. -/
def noteLinkFrame (c : Node cfg) (i : Fin cfg.maxNeighbors) (rx : RxRec) : Node cfg :=
  let c := { c with evst := { c.evst with gotRx := true } }
  let c := lgNeighRxRssi c i rx.rssi
  let n := c.neigh i
  let c := c.setNeigh i { n with sched := { n.sched with lastRxUs := c.nowUs } }
  let c := lgChanResult c c.ev.chan true
  lgNeighTxResult (lgRxPost c rx) i true

def linkRxDone (o : Oracle) (c : Node cfg) (i : Fin cfg.maxNeighbors) (rx : RxRec) : Node cfg :=
  let c := noteLinkFrame c i rx
  let n := c.neigh i
  if c.evst.txFirst then
    lgSchedEventDone (c.setNeigh i { n with
      sched := { n.sched with ctrlAcked := n.sched.ctrlAcked || n.tx.txWasCtrl } })
  else
    let c := c.setNeigh i
      { n with sched := reanchor c.nowUs c.ev.anchorUs rx.airStartUs n.sched }
    if n.tx.txPending then command o c .tx else lgSchedEventDone c

inductive RxFail
  | timeout
  | crc
  | filtered
  | aborted
  deriving DecidableEq, Repr

def linkRxFail (c : Node cfg) (i : Fin cfg.maxNeighbors) (reason : RxFail) : Node cfg :=
  let c := if reason = .crc ∨ reason = .timeout then lgChanResult c c.ev.chan false else c
  lgSchedEventDone (if c.evst.txFirst then lgNeighTxResult c i false else c)

def linkAborted (o : Oracle) (c : Node cfg) (i : Fin cfg.maxNeighbors) : Node cfg :=
  lgLinkEventMiss o c i

/-- `subrate_update` for neighbour `i`. -/
def subrateUpdateLink (c : Node cfg) (i : Fin cfg.maxNeighbors) : Node cfg :=
  let n := c.neigh i
  if !n.sched.initiator || n.sched.subrateMax ≤ 1 then c
  else
    let p := lgTxqPending c n.addr
    p.2.setNeigh i
      { n with sched := subrateUpdate p.1 (c.view i).consecMisses n.sched }

/-- The outcome part of `lg_link_event_finish`: count a miss, or release the message. -/
def settleOutcome (o : Oracle) (c : Node cfg) (i : Fin cfg.maxNeighbors) : Node cfg :=
  let n := c.neigh i
  if !c.evst.gotRx then lgLinkEventMiss o c i
  else if n.tx.txNeedsAck && c.evst.sentTx then
    let p := lgTxqPeek c n.addr
    let c := match p.1 with
      | some k => lgTxqFree p.2 k
      | none => p.2
    c.setTx i { n.tx with txNeedsAck := false }
  else c

def lgLinkEventFinish (psa : Psa) (o : Oracle) (c : Node cfg) (i : Fin cfg.maxNeighbors) :
    Node cfg :=
  let c := settleOutcome o c i
  let n := c.neigh i
  if n.state ≠ .linked then c
  else
    let c := c.setNeigh i { n with sched := lgLinkAdvance n.sched }
    (lgLinkStageTx psa (o.ok .encrypt) (subrateUpdateLink c i) i).2

/-! ## Inbound frames -/

def hopsMax : UInt8 := 12
def dataHdrLen : ℕ := 9

def handleCtrl (o : Oracle) (c : Node cfg) (i : Fin cfg.maxNeighbors) (body : Bytes) :
    Node cfg :=
  let n := c.neigh i
  let s := n.sched
  if body = [] then c
  else
    let op := getByte body 0
    if op = ctrlChanMap then
      if body.length < 5 then c
      else c.setNeigh i { n with sched := { s with
        pendingChanMap := getLe16 body 1
        instant := (getLe16 body 3).toNat
        pendingCtrl := { s.pendingCtrl with chanMap := true } } }
    else if op = ctrlSubrate then
      if body.length < 4 then c
      else c.setNeigh i { n with sched := { s with
        pendingSubrate := getByte body 1
        instant := (getLe16 body 2).toNat
        pendingCtrl := { s.pendingCtrl with subrate := true } } }
    else if op = ctrlInterval then
      if body.length < 7 then c
      else c.setNeigh i { n with sched := { s with
        intervalUs := cfg.clampInterval (getLe32 body 1).toNat } }
    else if op = ctrlRouteAdv then lgRouteHandleAdv o c i body
    else if op = ctrlRouteReg then lgRouteHandleReg c i body
    else if op = ctrlTeardown then lgLinkDown o c i
    else c

/-- A control frame is for the schedule of the link, for the routes or for the end of the link. -/
theorem handleCtrl_cases (o : Oracle) (c : Node cfg) (i : Fin cfg.maxNeighbors) (body : Bytes) :
    handleCtrl o c i body = c ∨
    (∃ s, handleCtrl o c i body = c.setNeigh i { c.neigh i with sched := s } ∧
      s.initiator = (c.neigh i).sched.initiator ∧ s.ctrlAcked = (c.neigh i).sched.ctrlAcked) ∨
    getByte body 0 = ctrlRouteAdv ∧ handleCtrl o c i body = lgRouteHandleAdv o c i body ∨
    getByte body 0 = ctrlRouteReg ∧ handleCtrl o c i body = lgRouteHandleReg c i body ∨
    getByte body 0 = ctrlTeardown ∧ handleCtrl o c i body = lgLinkDown o c i := by
  generalize h : handleCtrl o c i body = d
  unfold handleCtrl at h
  dsimp only at h
  split_ifs at h <;> subst h
  all_goals first
    | exact .inl rfl
    | exact .inr (.inl ⟨_, rfl, rfl, rfl⟩)
    | exact .inr (.inr (.inl ⟨‹_›, rfl⟩))
    | exact .inr (.inr (.inr (.inl ⟨‹_›, rfl⟩)))
    | exact .inr (.inr (.inr (.inr ⟨‹_›, rfl⟩)))

/-- Forward a message that is not, or not only, for this node. -/
def forwardData (c : Node cfg) (m : TxMsg) : Node cfg :=
  if c.net.role = .leaf ∨ hopsMax ≤ m.hops then c
  else if m.flags &&& dataUpward = 0 ∧ m.finalDst ≠ addrBackhaul then
    let hop := lgRouteNextHop c m.finalDst 0
    let c := hop.2
    if hop.1 = addrInvalid then c
    else
      let flags := if hop.1 ≠ lgParent c then m.flags ||| dataDownward else m.flags
      (lgSendForward c { m with flags := flags, hops := m.hops + 1 }).2
  else (lgSendForward c { m with hops := m.hops + 1 }).2

def handleData (c : Node cfg) (body : Bytes) : Node cfg :=
  if body.length < dataHdrLen ∨ payloadMax < body.length - dataHdrLen then c
  else
    let m : TxMsg := {
      flags := getByte body 0
      origin := getLe16 body 1
      finalDst := getLe16 body 3
      hops := getByte body 5
      port := getByte body 6
      msgId := getLe16 body 7
      payload := body.drop dataHdrLen }
    let dup := lgRouteIsDuplicate c m.origin m.msgId
    let c := dup.2
    let bcast : Bool := m.flags &&& dataBroadcast ≠ 0
    let forUs : Bool := m.finalDst = c.ident.addr ||
      (m.flags &&& dataUpward ≠ 0 && c.net.role = .backhaul) || bcast
    if dup.1 then c
    else if forUs && (!bcast || m.finalDst = c.ident.addr) then c
    else forwardData c m

/-- Handle a decrypted frame that arrived on a link. -/
def lgLinkRxFrame (o : Oracle) (c : Node cfg) (i : Fin cfg.maxNeighbors) (fcf : UInt8)
    (payload : Bytes) : Node cfg :=
  let c := match FrameType.ofCode (fcf &&& fcfTypeMask) with
    | some .data => handleData c payload
    | some .ctrl => handleCtrl o c i payload
    | _ => c
  if fcf &&& fcfMd ≠ 0 then lgSchedExpedite c i else c

/-- What the type of a frame makes of a node, and what `FCF_MD` adds to that. -/
theorem lgLinkRxFrame_cases (o : Oracle) (c : Node cfg) (i : Fin cfg.maxNeighbors) (fcf : UInt8)
    (payload : Bytes) :
    ∃ d, (FrameType.ofCode (fcf &&& fcfTypeMask) = some .data ∧ d = handleData c payload ∨
        FrameType.ofCode (fcf &&& fcfTypeMask) = some .ctrl ∧ d = handleCtrl o c i payload ∨
        FrameType.ofCode (fcf &&& fcfTypeMask) ≠ some .ctrl ∧ d = c) ∧
      (lgLinkRxFrame o c i fcf payload = lgSchedExpedite d i ∨
        lgLinkRxFrame o c i fcf payload = d) := by
  have hmd : ∀ d : Node cfg, (if fcf &&& fcfMd ≠ 0 then lgSchedExpedite d i else d) =
      lgSchedExpedite d i ∨ (if fcf &&& fcfMd ≠ 0 then lgSchedExpedite d i else d) = d := by
    intro d
    split
    · exact .inl rfl
    · exact .inr rfl
  unfold lgLinkRxFrame
  cases ht : FrameType.ofCode (fcf &&& fcfTypeMask) with
  | none => exact ⟨c, .inr (.inr ⟨by simp, rfl⟩), hmd c⟩
  | some t =>
    cases t with
    | data => exact ⟨_, .inl ⟨rfl, rfl⟩, hmd _⟩
    | ctrl => exact ⟨_, .inr (.inl ⟨rfl, rfl⟩), hmd _⟩
    | _ => exact ⟨c, .inr (.inr ⟨by simp, rfl⟩), hmd c⟩

end LockGrid
