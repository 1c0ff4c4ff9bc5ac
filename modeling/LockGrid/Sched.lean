import LockGrid.Join

/-!
# The single-event radio scheduler

`lg_sched.c`: the choice of the next event, its plan, and its settlement; and the handlers the
arbiter and the PHY call, for every kind of event.
-/
namespace LockGrid

variable {cfg : Config}

def beaconLenUs : ℕ := 6000
def chanEvalLenUs : ℕ := 1500
def schedContendUs : ℕ := 45000
def trackMarginUs : ℕ := 1500
/-- Longest a grant may last. -/
def tsMaxGrantUs : ℕ := 100000

def prioScan : ℕ := 0
def prioNormal : ℕ := 1
def prioParent : ℕ := 2
def prioHandshake : ℕ := 3

/-! ## Candidate selection -/

structure Candidate (cfg : Config) where
  kind : EvKind
  anchorUs : ℕ
  neigh : Option (Fin cfg.maxNeighbors)
  prio : ℕ
  deriving DecidableEq, Repr

def addCandidate (l : List (Candidate cfg)) (kind : EvKind) (t : Option ℕ)
    (n : Option (Fin cfg.maxNeighbors)) (prio : ℕ) : List (Candidate cfg) :=
  match t with
  | none => l
  | some t => l ++ [⟨kind, t, n, prio⟩]

/-- Earliest candidate, except that a higher priority one starting within the contention
window beats it. -/
def selectCandidate (l : List (Candidate cfg)) : Option (Candidate cfg) :=
  let earliest := l.foldl (fun best c =>
    match best with
    | none => some c
    | some b => if c.anchorUs < b.anchorUs then some c else best) none
  match earliest with
  | none => none
  | some e => some (l.foldl (fun best c =>
      if best.anchorUs + schedContendUs < c.anchorUs then best
      else if best.prio < c.prio ∨ (c.prio = best.prio ∧ c.anchorUs < best.anchorUs) then c
      else best) e)

/-- The candidate of neighbour `i`, if it has one; a link's anchor catches up on the way. -/
def neighCandidate (c : Node cfg) (l : List (Candidate cfg)) (i : Fin cfg.maxNeighbors) :
    Option (List (Candidate cfg) × Node cfg) :=
  let n := c.neigh i
  match n.state with
  | .linked =>
    (lgLinkNextEventUs cfg c.nowUs catchUpFuel n).map fun r =>
      (addCandidate l .link r.2 (some i)
        (if (c.view i).isParent then prioParent else prioNormal), c.setNeigh i r.1)
  | .joining =>
    some (addCandidate l (if lgJoinSlotIsTx c then .joinTx else .joinRx) (lgJoinNextUs c i)
      (some i) prioHandshake, c)
  | _ => some (l, c)

def neighCandidates (c : Node cfg) : Option (List (Candidate cfg) × Node cfg) :=
  (List.finRange cfg.maxNeighbors).foldlM (fun st i => neighCandidate st.2 st.1 i) ([], c)

/-- Everything that wants the radio. -/
def candidates (c : Node cfg) : Option (List (Candidate cfg) × Node cfg) :=
  (neighCandidates c).map fun (l, c) =>
    let l := addCandidate l .joinRx (lgJoinWinNextUs c) none prioNormal
    let l := addCandidate l .beacon (lgDiscNextBeaconUs c) none prioNormal
    let l := addCandidate l .scan (some c.net.nextScanUs) none prioScan
    let l := addCandidate l .chanEval (some c.net.nextChanEvalUs) none prioScan
    let track := lgDiscNextTrack c
    (addCandidate l .track (track.map Prod.fst) (track.map Prod.snd) prioNormal,
      dropStaleTracks c)

/-- Air time budget for a whole link event. -/
def lgFrameEventBudgetUs (rxWindowUs : ℕ) : ℕ :=
  min (rampupUs + airtimeUs pduMax + ifsUs + rxWindowUs + airtimeUs pduMax) tsMaxGrantUs

/-- The plan of a link event. -/
def linkPlan (c : Node cfg) (i : Fin cfg.maxNeighbors) (anchorUs : ℕ) : Event cfg :=
  let n := c.neigh i
  let win := lgLinkWindowUs cfg c.nowUs n.sched
  { kind := .link
    anchorUs := anchorUs
    neigh := some i
    chan := lgLinkNextChan n.sched
    windowUs := win
    lenUs := lgFrameEventBudgetUs (win * 2)
    atUs := if n.sched.initiator then anchorUs - schedLeadUs else anchorUs - win - schedLeadUs
    urgent := (c.view i).isParent }

/-- Fill in the timing and reservation for the chosen candidate. -/
def eventPlan (c : Node cfg) (cand : Candidate cfg) : Event cfg × Node cfg :=
  let base : Event cfg := { kind := cand.kind, anchorUs := cand.anchorUs, neigh := cand.neigh }
  let rdv := lgDiscRdvChan c.ident.networkId
  match cand.kind with
  | .link =>
    match cand.neigh with
    | some i => (linkPlan c i cand.anchorUs, c)
    | none => (base, c)
  | .beacon =>
    ({ base with
        chan := rdv 0, lenUs := beaconLenUs, atUs := cand.anchorUs - schedLeadUs }, c)
  | .track =>
    ({ base with
        chan := rdv 0
        closeUs := cand.anchorUs + trackMarginUs
        lenUs := 2 * trackMarginUs + schedLeadUs + 2000
        atUs := cand.anchorUs - trackMarginUs - schedLeadUs }, c)
  | .scan =>
    ({ base with
        chan := rdv c.net.scanChanIdx
        closeUs := cand.anchorUs + c.net.tune.scanWindowUs
        lenUs := (c.net.tune.scanWindowUs + schedLeadUs + 1000) % 2 ^ 32
        atUs := cand.anchorUs - schedLeadUs }, c)
  | .joinTx =>
    ({ base with
        chan := rdv 0, lenUs := joinSlotLenUs, atUs := cand.anchorUs - schedLeadUs }, c)
  | .joinRx =>
    let span := if cand.neigh.isSome then joinSlotLenUs else joinWindowLenUs
    ({ base with
        chan := rdv 0
        closeUs := cand.anchorUs + span
        lenUs := span + schedLeadUs + 2000
        atUs := cand.anchorUs - schedLeadUs - 2000 }, c)
  | .chanEval =>
    let r := lgChanNextEval c
    ({ base with
        chan := r.1, lenUs := chanEvalLenUs, atUs := cand.anchorUs - schedLeadUs }, r.2)
  | .none => (base, c)

theorem eventPlan_quiet (c : Node cfg) (cand : Candidate cfg) :
    Node.Quiet c (eventPlan c cand).2 := by
  unfold eventPlan
  dsimp only
  split
  · split <;> exact .refl c
  all_goals first
    | exact .refl c
    | exact lgChanNextEval_quiet c

/-- We are already late: drop this occurrence. -/
def dropLate (psa : Psa) (o : Oracle) (c : Node cfg) (cand : Candidate cfg) :
    Option (Node cfg) :=
  match cand.kind, cand.neigh with
  | .link, some i =>
    let n := c.neigh i
    some (c.setNeigh i { n with sched := lgLinkAdvance n.sched })
  | .beacon, _ => some (lgDiscBeaconFinish psa o c)
  | .scan, _ => some (lgDiscScanFinish o c)
  | .track, some i => some (lgDiscTrackResult c i false)
  | .chanEval, _ => some { c with net := { c.net with
      nextChanEvalUs := c.nowUs + cfg.chanEvalPeriodMs * 1000 } }
  | .joinTx, _ | .joinRx, _ => lgJoinEventFinish o c
  | _, _ => some c

/-- Plan the chosen candidate and ask the arbiter for it. -/
def requestEvent (psa : Psa) (o : Oracle) (c : Node cfg) (cand : Candidate cfg) :
    Option (Node cfg) :=
  let p := eventPlan c cand
  if p.1.atUs < c.nowUs + schedMinHorizonUs then dropLate psa o p.2 cand
  else if !o.tsOk then some p.2
  else some { p.2 with
    ev := { p.1 with histNo := p.2.hist.events + 1 }
    hist := { p.2.hist with events := p.2.hist.events + 1 } }

/-- Stage the frame of a link event that has none; `false` if there is no talking to it. -/
def stageFor (psa : Psa) (o : Oracle) (c : Node cfg) (cand : Candidate cfg) : Bool × Node cfg :=
  match cand.kind, cand.neigh with
  | .link, some i =>
    if (c.neigh i).tx.txPending then (true, c)
    else
      let r := lgLinkStageTx psa (o.ok .encrypt) c i
      if r.1 then (true, r.2)
      else
        let n := r.2.neigh i
        (false, r.2.setNeigh i { n with sched := lgLinkAdvance n.sched })
  | _, _ => (true, c)

/-- One run of `sched_work`. -/
def schedPick (psa : Psa) (o : Oracle) (c : Node cfg) : Option (Node cfg) :=
  if !c.running || c.ev.kind ≠ .none || c.granted || c.phy ≠ .idle then some c
  else match candidates c with
  | none => none
  | some (l, c) =>
    match selectCandidate l with
    | none => some c
    | some cand =>
      let s := stageFor psa o c cand
      if s.1 then requestEvent psa o s.2 cand else some s.2

/-! ## Event completion -/

/-- Tell every link about a new channel map. -/
def announceMap (c : Node cfg) : Node cfg :=
  { c with neigh := fun i =>
      let n := c.neigh i
      if n.state = .linked then { n with sched := announceChanMap c.net.chanMap n.sched }
      else n }

def finishChanEval (c : Node cfg) : Node cfg :=
  let r := lgChanReevaluate c
  let c := if r.1 then announceMap r.2 else r.2
  { c with net := { c.net with
    nextChanEvalUs := c.nowUs + cfg.chanEvalPeriodMs * 1000 } }

/-- The settlement half of `sched_finish`. -/
def settle (psa : Psa) (o : Oracle) (c : Node cfg) : Option (Node cfg) :=
  match c.finishKind with
  | .link =>
    match c.finishNeigh with
    | some i => some (lgLinkEventFinish psa o c i)
    | none => some c
  | .beacon => some (lgRoleEvaluate o (lgDiscBeaconFinish psa o c))
  | .scan => some (lgRoleEvaluate o (lgDiscScanFinish o c))
  | .joinTx | .joinRx => lgJoinEventFinish o c
  | .chanEval => some (finishChanEval c)
  | .track | .none => some c

/-- One run of `finish_work`; `o'` answers for the pick at its end. -/
def schedFinish (psa : Psa) (o o' : Oracle) (c : Node cfg) : Option (Node cfg) :=
  match settle psa o c with
  | none => none
  | some c => schedPick psa o' { c with finishKind := .none, finishNeigh := none }

def lgSchedAbort (c : Node cfg) (kind : EvKind) : Node cfg :=
  if c.ev.kind = kind ∧ kind ≠ .none then lgSchedEventDone c else c

/-! ## Beacon, scan and track handlers -/

/-- Send beacon copy `k` if it was staged, else `fallback`. -/
def sendCopy (o : Oracle) (c : Node cfg) (k : ℕ) (fallback : Node cfg) : Node cfg :=
  if h : k < rdvSlots then
    if (c.net.beaconCopy ⟨k, h⟩).pdu = [] ∨ !o.phyOk then fallback else { c with phy := .tx }
  else fallback

def beaconStart (o : Oracle) (c : Node cfg) : Node cfg :=
  let c := { c with net := { c.net with beaconCopyIdx := 0 } }
  if cfg.beaconSuppressThreshold ≤ c.net.beaconsHeardThisWindow then
    lgSchedEventDone { c with net := { c.net with beaconsHeardThisWindow := 0 } }
  else sendCopy o c 0 (lgSchedEventDone c)

def beaconTxDone (o : Oracle) (c : Node cfg) (airEndUs : ℕ) : Node cfg :=
  let idx := c.net.beaconCopyIdx + 1
  let c := { c with net := { c.net with beaconCopyIdx := idx } }
  let opened := if c.net.beaconOffersJoin then
      { c with net := { c.net with
        joinWinUs := airEndUs + joinOffsetUs, lastJoinWindowUs := c.nowUs } }
    else c
  sendCopy o c idx (lgSchedEventDone opened)

def scanRxDone (o : Oracle) (c : Node cfg) (rx : RxRec) : Node cfg :=
  let c := lgRxPost c rx
  if c.net.wantAddr ≠ addrInvalid ∧ getLe16 rx.pdu offSrc = c.net.wantAddr then
    lgSchedEventDone { c with net := { c.net with wantAddr := addrInvalid } }
  else listenOn o c

/-- The tracked neighbour's beacon did or did not arrive. -/
def trackResult (c : Node cfg) (heard : Bool) : Node cfg :=
  match c.ev.neigh with
  | some i => lgDiscTrackResult c i heard
  | none => c

/-! ## Arbiter and PHY callbacks -/

/-- The grant of the requested event: `ts_granted`. -/
def tsGranted (psa : Psa) (o : Oracle) (c : Node cfg) : Node cfg :=
  let c := { c with granted := true }
  match c.ev.kind, c.ev.neigh with
  | .link, some i => linkStart o c i
  | .beacon, _ => beaconStart o c
  | .scan, _ | .track, _ => command o c .rx
  | .joinTx, _ => joinTxStart psa o c
  | .joinRx, _ => joinRxStart o c
  | .chanEval, _ => lgSchedEventDone (lgChanNoise c c.ev.chan o.noiseDbm)
  | _, _ => { c with granted := false }

/-- The refusal of the requested event: `ts_failed`. -/
def tsFailed (o : Oracle) (c : Node cfg) : Node cfg :=
  match c.ev.kind, c.ev.neigh with
  | .none, _ => c
  | .link, some i => lgSchedEventDone (linkAborted o c i)
  | .track, _ => lgSchedEventDone (trackResult c false)
  | .joinTx, _ | .joinRx, _ => lgSchedEventDone (joinAborted c)
  | _, _ => lgSchedEventDone c

def phyTxDone (psa : Psa) (o : Oracle) (c : Node cfg) (airEndUs : ℕ) : Node cfg :=
  match c.ev.kind, c.ev.neigh with
  | .link, some i => linkTxDone o c i
  | .beacon, _ => beaconTxDone o c airEndUs
  | .joinTx, _ => joinTxDone psa o c airEndUs
  | _, _ => lgSchedEventDone c

def phyRxDone (o : Oracle) (c : Node cfg) (rx : RxRec) : Node cfg :=
  match c.ev.kind, c.ev.neigh with
  | .link, some i => linkRxDone o c i rx
  | .scan, _ => scanRxDone o c rx
  | .track, _ => lgSchedEventDone (trackResult (lgRxPost c rx) true)
  | .joinRx, _ => joinRxDone o c rx
  | _, _ => lgSchedEventDone c

def phyRxFailed (o : Oracle) (c : Node cfg) (reason : RxFail) : Node cfg :=
  match c.ev.kind, c.ev.neigh with
  | .link, some i => linkRxFail c i reason
  | .scan, _ | .joinRx, _ => joinRxFail o c reason
  | .track, _ => lgSchedEventDone (trackResult c false)
  | _, _ => lgSchedEventDone c

end LockGrid
