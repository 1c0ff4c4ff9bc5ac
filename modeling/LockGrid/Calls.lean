import LockGrid.Links

/-!
# The calls of a step

The functions that write to routing, to the table, to a link's terms or to what it advertises,
and in which order each step calls them. Each function of the call list follows the function of
the code it is named after; a step is its calls in turn, with steady work in between.
-/
namespace LockGrid

variable {cfg : Config}

/-- What a step can do that is not steady work. -/
inductive Deed (cfg : Config)
  | alloc (src : Addr)
  | free (i : Fin cfg.maxNeighbors)
  | begin (i : Fin cfg.maxNeighbors)
  | fail (i : Fin cfg.maxNeighbors)
  /-- A handshake about an entry that is in none is given up. -/
  | close
  | openContext (i : Fin cfg.maxNeighbors) (resuming : Bool) (airStartUs : ℕ)
  /-- The link comes up, and the handshake is over. -/
  | establish (i : Fin cfg.maxNeighbors) (pp : LinkParams) (initiator : Bool)
  | down (i : Fin cfg.maxNeighbors)
  | adv (i : Fin cfg.maxNeighbors) (buf : Bytes)
  /-- A control frame other than an advertisement or a teardown. -/
  | ctrl (i : Fin cfg.maxNeighbors) (body : Bytes)
  | role
  | advance (i : Fin cfg.maxNeighbors)
  | subrate (i : Fin cfg.maxNeighbors)
  | stage (i : Fin cfg.maxNeighbors)
  | tick (us : ℕ)
  | uplink (up : Bool)
  | start
  | halt
  deriving DecidableEq

/-- A call, with the node it finds and what the world answers during it. -/
structure Call (cfg : Config) where
  o : Oracle
  node : Node cfg
  deed : Deed cfg

/-- The node after a call. -/
def Call.result (psa : Psa) (k : Call cfg) : Option (Node cfg) :=
  let c := k.node
  match k.deed with
  | .alloc src => some (lgNeighAlloc c src).2
  | .free i => some (lgNeighFree c i)
  | .begin i => some (lgJoinStart k.o c i).2
  | .fail i => some (joinFail c i)
  | .close => some (c.setHs {})
  | .openContext i resuming airStartUs => some (openContext c i resuming airStartUs)
  | .establish i pp initiator => (lgLinkEstablish k.o c i pp initiator).map fun d => d.setHs {}
  | .down i => some (lgLinkDown k.o c i)
  | .adv i buf => some (lgRouteHandleAdv k.o c i buf)
  | .ctrl i body => some (handleCtrl k.o c i body)
  | .role => some (lgRoleEvaluate k.o c)
  | .advance i =>
    some (c.setNeigh i { c.neigh i with sched := lgLinkAdvance (c.neigh i).sched })
  | .subrate i => some (subrateUpdateLink c i)
  | .stage i => some (lgLinkStageTx psa (k.o.ok .encrypt) c i).2
  | .tick us => some { c with nowUs := c.nowUs + us }
  | .uplink up => some (lgBackhaulSet k.o c up)
  | .start => some (lgStart psa k.o c)
  | .halt => some { c with
      started := false, running := false, phy := .idle, granted := false,
      ev := { c.ev with kind := .none } }

/-! ## Link events -/

def missCalls (o : Oracle) (c : Node cfg) (i : Fin cfg.maxNeighbors) : List (Call cfg) :=
  let n := c.neigh i
  let c := lgChanResult (lgNeighTxResult c i false) (lgLinkNextChan n.sched) false
  if n.sched.lastRxUs ≠ 0 ∧ n.sched.supTimeoutUs < c.nowUs - n.sched.lastRxUs then
    [⟨o, c, .down i⟩]
  else []

/-- The calls of `lg_link_event_finish`. -/
def eventCalls (o : Oracle) (c : Node cfg) (i : Fin cfg.maxNeighbors) : List (Call cfg) :=
  let first := if !c.evst.gotRx then missCalls o c i else []
  let c := settleOutcome o c i
  let n := c.neigh i
  if n.state ≠ .linked then first
  else
    let d := c.setNeigh i { n with sched := lgLinkAdvance n.sched }
    first ++ [⟨o, c, .advance i⟩, ⟨o, d, .subrate i⟩, ⟨o, subrateUpdateLink d i, .stage i⟩]

/-! ## Handshakes -/

/-- The router's entry as its link comes up. -/
def routerUp (c : Node cfg) (i : Fin cfg.maxNeighbors) : Node cfg :=
  let n := c.neigh i
  c.setNeigh i { n with
    histUp := some (linkUpOf c i false c.hs.txType c.hs.txSecured)
    sched := { n.sched with
      anchorUs := c.hs.lastTxAirStartUs + (LinkParams.decode c.hs.tx).anchorOffsetUs.toNat }
    join := { n.join with joinRetries := 0 } }

/-- The calls of `lg_join_event_finish`. -/
def slotCalls (o : Oracle) (c : Node cfg) : List (Call cfg) :=
  match c.hs.n with
  | none => []
  | some i =>
    if (c.neigh i).state ≠ .joining then [⟨o, c, .close⟩]
    else if !c.hs.joiner && c.hs.wasTx &&
        (c.hs.txType = .joinAck || c.hs.txType = .resumeRsp) then
      [⟨o, routerUp c i, .establish i (LinkParams.decode c.hs.tx) true⟩]
    else
      let d := c.setHs (nextSlot c.nowUs c.hs)
      if idleLimit d.hs.resuming ≤ d.hs.idleSlots ∨ d.hs.slotLimit ≤ d.hs.slot ∨
          (d.hs.oweTx ∧ d.hs.tx = []) then [⟨o, d, .fail i⟩]
      else []

def worstOf (c : Node cfg) (l : List (Fin cfg.maxNeighbors)) : Option (Fin cfg.maxNeighbors) :=
  l.foldl (fun best i =>
    match best with
    | none => some i
    | some b => if (c.view b).linkCost < (c.view i).linkCost then some i else best) none

/-- The calls of `lg_neigh_make_room`: a link is given up when nothing less is to be had. -/
def roomCalls (o : Oracle) (c : Node cfg) (candCost : ℕ) : List (Call cfg) :=
  let all := List.finRange cfg.maxNeighbors
  if all.any fun i => (c.neigh i).state = .free then []
  else match worstOf c (all.filter fun i =>
      (c.neigh i).state = .heard ∨ (c.neigh i).state = .lost) with
    | some i => [⟨o, c, .free i⟩]
    | none =>
      match worstOf c (all.filter fun i =>
          !(c.view i).isParent ∧ candCost + etxOne < (c.view i).linkCost) with
      | some i => [⟨o, c, .down i⟩, ⟨o, lgLinkDown o c i, .free i⟩]
      | none => []

def admitCalls (o : Oracle) (c : Node cfg) (src : Addr) : List (Call cfg) :=
  match lgNeighAlloc c src with
  | (some _, _) => [⟨o, c, .alloc src⟩]
  | (none, d) =>
    let r := lgNeighMakeRoom o d etxOne
    ⟨o, c, .alloc src⟩ :: roomCalls o d etxOne ++ if r.1 then [⟨o, r.2, .alloc src⟩] else []

def contextCalls (o : Oracle) (c : Node cfg) (t : FrameType) (src : Addr) (airStartUs : ℕ) :
    List (Call cfg) :=
  match c.hs.n with
  | some _ => []
  | none =>
    if t = .joinReq ∨ t = .resumeReq then
      match admitJoiner o c src with
      | (none, _) => admitCalls o c src
      | (some i, d) =>
        if cfg.maxLinks ≤ lgNeighLinkedCount d then admitCalls o c src
        else admitCalls o c src ++ [⟨o, d, .openContext i (t = .resumeReq) airStartUs⟩]
    else []

/-- The joiner's entry as its link comes up. -/
def joinerUp (c : Node cfg) (i : Fin cfg.maxNeighbors) (t : FrameType) (sec : Bool)
    (airStartUs : ℕ) : Node cfg :=
  let n := c.neigh i
  c.setNeigh i { n with
    histUp := some (linkUpOf c i true t sec)
    sched := { n.sched with
      anchorUs := airStartUs + (LinkParams.decode c.hs.rx.msg).anchorOffsetUs.toNat }
    join := { n.join with joinRetries := 0 } }

/-- The handshake fails if its message was not taken. -/
def failCalls (o : Oracle) (r : Except Err Unit × Node cfg) (i : Fin cfg.maxNeighbors) :
    List (Call cfg) :=
  match r with
  | (.error _, d) => [⟨o, d, .fail i⟩]
  | (.ok (), _) => []

def joinerCalls (o : Oracle) (c : Node cfg) (i : Fin cfg.maxNeighbors) (t : FrameType)
    (sec : Bool) (airStartUs : ℕ) : List (Call cfg) :=
  if c.hs.rx.len ≠ linkParamsLen then [⟨o, c, .fail i⟩]
  else [⟨o, joinerUp c i t sec airStartUs, .establish i (LinkParams.decode c.hs.rx.msg) false⟩]

/-- The calls of a complete message. -/
def messageCalls (psa : Psa) (o : Oracle) (c : Node cfg) (i : Fin cfg.maxNeighbors)
    (t : FrameType) (sec : Bool) (airStartUs : ℕ) : List (Call cfg) :=
  let msg := c.hs.rx.msg
  match t with
  | .joinReq => failCalls o (handleJoinReq psa o c i msg) i
  | .joinRsp => failCalls o (handleJoinRsp psa o c i msg) i
  | .joinCfm => failCalls o (handleJoinCfm psa o c i msg) i
  | .joinAck | .resumeRsp => joinerCalls o c i t sec airStartUs
  | .resumeReq =>
    match handleResumeReq psa o c i msg with
    | (.error _, d) =>
      let d := d.setKeys i { (d.neigh i).keys with hasLtk := false }
      [⟨o, d.note i .dropped, .fail i⟩]
    | (.ok (), _) => []
  | _ => []

/-- The calls of `lg_join_rx_pdu`. -/
def joinRxCalls (psa : Psa) (o : Oracle) (c : Node cfg) (t : FrameType) (rx : RxRec) :
    List (Call cfg) :=
  let src := getLe16 rx.pdu offSrc
  match contextFor o c t src rx.airStartUs with
  | (none, _) => contextCalls o c t src rx.airStartUs
  | (some i, d) =>
    match reassemble psa o (lgNeighRxRssi d i rx.rssi) i t rx.pdu with
    | (false, _) => contextCalls o c t src rx.airStartUs
    | (true, e) => contextCalls o c t src rx.airStartUs ++
        messageCalls psa o e i t (secured (getByte rx.pdu offFcf)) rx.airStartUs

/-! ## Received frames -/

def ctrlCalls (o : Oracle) (c : Node cfg) (i : Fin cfg.maxNeighbors) (body : Bytes) :
    List (Call cfg) :=
  if body = [] then []
  else if getByte body 0 = ctrlRouteAdv then [⟨o, c, .adv i body⟩]
  else if getByte body 0 = ctrlTeardown then [⟨o, c, .down i⟩]
  else [⟨o, c, .ctrl i body⟩]

/-- The calls of a frame that arrived on a link. -/
def linkRxCalls (psa : Psa) (o : Oracle) (c : Node cfg) (h : FrameHdr) (pdu : Bytes) :
    List (Call cfg) :=
  match lgNeighFind c h.src with
  | none => []
  | some i =>
    if (c.neigh i).state ≠ .linked ∨ !secured h.fcf then []
    else match lgSecDecrypt psa (o.ok .decrypt) c i pdu with
    | (.error _, _) => []
    | (.ok pdu, d) =>
      if FrameType.ofCode (h.fcf &&& fcfTypeMask) = some .ctrl then
        ctrlCalls o d i (pdu.drop hdrLenSec)
      else []

/-- The calls that find the sender of a beacon an entry. -/
def entryCalls (o : Oracle) (c : Node cfg) (b : Beacon) (src : Addr) (rssi : ℤ) :
    List (Call cfg) :=
  if lgNeighFind c src = none ∧ candidateIsUseful c b src rssi then admitCalls o c src else []

/-- The entry of a router whose join window is aimed at. -/
def aimed (o : Oracle) (c : Node cfg) (i : Fin cfg.maxNeighbors) (b : Beacon)
    (airStartUs : ℕ) : Node cfg :=
  let window := b.joinWindowUs.toNat
  let spread := if 2 * joinTrainUs ≤ window then
      o.rand32 9 % (window / joinTrainUs) * joinTrainUs
    else 0
  c.setJoin i { (c.neigh i).join with
    joinNextUs := airStartUs + b.joinOffsetUs.toNat, joinSpreadUs := spread }

/-- When the handshake has begun, a scan is over. -/
theorem aimAt_cases (o : Oracle) (c : Node cfg) (i : Fin cfg.maxNeighbors) (b : Beacon)
    (airStartUs : ℕ) :
    ((lgJoinStart o (aimed o c i b airStartUs) i).1 = .ok () ∧ aimAt o c i b airStartUs =
      lgSchedAbort (lgJoinStart o (aimed o c i b airStartUs) i).2 .scan) ∨
    aimAt o c i b airStartUs = (lgJoinStart o (aimed o c i b airStartUs) i).2 := by
  rcases hs : lgJoinStart o (aimed o c i b airStartUs) i with ⟨e | u, d⟩
  · right
    unfold aimAt
    dsimp only
    split <;> next he =>
      cases he.symm.trans hs
      try rfl
  · left
    refine ⟨rfl, ?_⟩
    unfold aimAt
    dsimp only
    split <;> next he =>
      cases he.symm.trans hs
      try rfl

/-- The calls that answer a beacon whose sender has entry `i`. -/
def answerCalls (o : Oracle) (c : Node cfg) (i : Fin cfg.maxNeighbors) (b : Beacon) (src : Addr)
    (rssi : ℤ) (airStartUs : ℕ) : List (Call cfg) :=
  if (c.neigh i).state = .linked ∨ (c.neigh i).state = .joining then []
  else if !candidateIsUseful c b src rssi ∨ b.joinWindowUs = 0 then []
  else [⟨o, aimed o c i b airStartUs, .begin i⟩]

/-- The calls of a beacon that was accepted. -/
def acceptCalls (o : Oracle) (c : Node cfg) (b : Beacon) (src : Addr) (rssi : ℤ)
    (airStartUs : ℕ) : List (Call cfg) :=
  let first := if b.rank.toNat = rankInfinite then [⟨o, lgRoleNoteUnrouted c, .role⟩] else []
  let d := noteBeacon o c b src
  match beaconEntry o d b src rssi with
  | (none, _) => first ++ entryCalls o d b src rssi
  | (some i, e) => first ++ entryCalls o d b src rssi ++
      answerCalls o (noteSender e i b rssi airStartUs) i b src rssi airStartUs

def beaconCalls (psa : Psa) (o : Oracle) (c : Node cfg) (rx : RxRec) : List (Call cfg) :=
  if rx.pdu.length < hdrLen + beaconLen + beaconMicLen then []
  else match lgSecBeaconOpen psa (o.ok .beaconMac) c.ident.netKey rx.pdu with
  | none => []
  | some body =>
    let src := getLe16 body offSrc
    let b := Beacon.decode (body.drop hdrLen)
    if src = c.ident.addr ∨ src = addrInvalid ∨ b.networkId ≠ c.ident.networkId then []
    else acceptCalls o c b src rx.rssi rx.airStartUs

def dispatchCalls (psa : Psa) (o : Oracle) (c : Node cfg) (rx : RxRec) : List (Call cfg) :=
  match lgFrameHdrGet cfg rx.pdu c.ident.netid16 with
  | none => []
  | some h =>
    if h.src = c.ident.addr ∨ (h.dst ≠ c.ident.addr ∧ h.dst ≠ addrBroadcast) then []
    else match lgFrameType rx.pdu with
    | some .beacon => beaconCalls psa o c rx
    | some t => if t.isJoin then joinRxCalls psa o c t rx else linkRxCalls psa o c h rx.pdu
    | none => linkRxCalls psa o c h rx.pdu

def rxCalls (psa : Psa) (o : Oracle) (c : Node cfg) : List (Call cfg) :=
  match c.rxRing with
  | [] => []
  | rx :: rest => dispatchCalls psa o { c with rxRing := rest } rx

/-! ## The scheduler -/

def lateCalls (o : Oracle) (c : Node cfg) (cand : Candidate cfg) : List (Call cfg) :=
  match cand.kind, cand.neigh with
  | .link, some i => [⟨o, c, .advance i⟩]
  | .joinTx, _ | .joinRx, _ => slotCalls o c
  | _, _ => []

def requestCalls (o : Oracle) (c : Node cfg) (cand : Candidate cfg) : List (Call cfg) :=
  let p := eventPlan c cand
  if p.1.atUs < c.nowUs + schedMinHorizonUs then lateCalls o p.2 cand else []

def stageCalls (psa : Psa) (o : Oracle) (c : Node cfg) (cand : Candidate cfg) :
    List (Call cfg) :=
  match cand.kind, cand.neigh with
  | .link, some i =>
    if (c.neigh i).tx.txPending then []
    else
      let r := lgLinkStageTx psa (o.ok .encrypt) c i
      if r.1 then [⟨o, c, .stage i⟩] else [⟨o, c, .stage i⟩, ⟨o, r.2, .advance i⟩]
  | _, _ => []

/-- The calls of `sched_work`. -/
def pickCalls (psa : Psa) (o : Oracle) (c : Node cfg) : List (Call cfg) :=
  if !c.running || c.ev.kind ≠ .none || c.granted || c.phy ≠ .idle then []
  else match candidates c with
  | none => []
  | some (l, c) =>
    match selectCandidate l with
    | none => []
    | some cand =>
      let s := stageFor psa o c cand
      if s.1 then stageCalls psa o c cand ++ requestCalls o s.2 cand
      else stageCalls psa o c cand

def settleCalls (psa : Psa) (o : Oracle) (c : Node cfg) : List (Call cfg) :=
  match c.finishKind with
  | .link =>
    match c.finishNeigh with
    | some i => eventCalls o c i
    | none => []
  | .beacon => [⟨o, lgDiscBeaconFinish psa o c, .role⟩]
  | .scan => [⟨o, lgDiscScanFinish o c, .role⟩]
  | .joinTx | .joinRx => slotCalls o c
  | _ => []

/-- The calls of `finish_work`. -/
def finishCalls (psa : Psa) (o o' : Oracle) (c : Node cfg) : List (Call cfg) :=
  match settle psa o c with
  | none => []
  | some d => settleCalls psa o c ++
      pickCalls psa o' { d with finishKind := .none, finishNeigh := none }

/-! ## Steps -/

def failedCalls (o : Oracle) (c : Node cfg) : List (Call cfg) :=
  match c.ev.kind, c.ev.neigh with
  | .link, some i => missCalls o c i
  | _, _ => []

/-- The calls of `lg_stop`, which takes the links of `l` down. -/
def stopCalls (o : Oracle) : List (Fin cfg.maxNeighbors) → Node cfg → List (Call cfg)
  | [], c => [⟨o, c, .halt⟩]
  | i :: l, c =>
    ⟨o.nth i.val, c, .down i⟩ :: stopCalls o l (lgLinkDown (o.nth i.val) c i)

/-- The calls of a step, in order. -/
def calls (psa : Psa) (o : Oracle) (c : Node cfg) : Input → List (Call cfg)
  | .tick us => [⟨o, c, .tick us⟩]
  | .schedWork => pickCalls psa o c
  | .finishWork o' => finishCalls psa o o' c
  | .rxWork => rxCalls psa o c
  | .refused => failedCalls o c
  | .backhaulSet up => [⟨o, c, .uplink up⟩]
  | .start => [⟨o, c, .start⟩]
  | .stop => if !c.started then [] else stopCalls o (List.finRange cfg.maxNeighbors) c
  | .granted | .txDone _ | .rxDone _ | .rxFailed _ | .send .. | .tuningSet _ => []

/-! ## A step is its calls -/

variable {psa : Psa} {c c' c'' d : Node cfg} {i : Fin cfg.maxNeighbors} {o : Oracle}

/-- Nothing less is to be had than entry `i`: all entries carry a link or a handshake, and of those
that are no parents and cost too much it is the worst. -/
structure Node.Preys (c : Node cfg) (i : Fin cfg.maxNeighbors) : Prop where
  full : ∀ j, (c.neigh j).state = .linked ∨ (c.neigh j).state = .joining
  spare : (c.view i).isParent = false
  costly : etxOne + etxOne < (c.view i).linkCost
  worst : ∀ j, (c.view j).isParent = false → (c.view j).linkCost < (c.view i).linkCost ∨
    (c.view j).linkCost = (c.view i).linkCost ∧ i ≤ j

/-- What is known of the entry a call is about. -/
def Call.Fits (k : Call cfg) : Prop :=
  match k.deed with
  | .free i => (k.node.neigh i).state ≠ .linked ∧
    ((k.node.neigh i).state = .joining → k.node.Preys i)
  | .close => ∀ i, k.node.hs.n = some i → (k.node.neigh i).state ≠ .joining
  | .begin i => (k.node.neigh i).state ≠ .free ∧ (k.node.neigh i).state ≠ .linked ∧
    (k.node.neigh i).state ≠ .joining
  | .fail i => k.node.hs.n = some i ∧ (k.node.neigh i).state ≠ .linked ∧
    (k.node.neigh i).state ≠ .free
  | .establish i _ _ => k.node.hs.n = some i ∧ (k.node.neigh i).state ≠ .linked ∧
    (k.node.neigh i).state ≠ .free
  | .openContext i _ _ => k.node.hs.n = none ∧ (k.node.neigh i).state ≠ .free ∧
    lgNeighLinkedCount k.node < cfg.maxLinks
  | .adv i _ => (k.node.neigh i).state = .linked
  | .ctrl i body => (k.node.neigh i).state = .linked ∧ getByte body 0 ≠ ctrlRouteAdv ∧
    getByte body 0 ≠ ctrlTeardown
  | _ => True

/-- The calls lead from one node to the other, with steady work in between. -/
inductive Does (r : Fin cfg.maxNeighbors → Prop) (psa : Psa) :
    Node cfg → List (Call cfg) → Node cfg → Prop
  | rest {a b : Node cfg} (h : Still r a b) : Does r psa a [] b
  | call {a b e : Node cfg} {k : Call cfg} {l : List (Call cfg)} (h : Still r a k.node)
    (hk : k.Fits) (hr : k.result psa = some e) (ht : Does r psa e l b) : Does r psa a (k :: l) b

variable {r : Fin cfg.maxNeighbors → Prop}

namespace Does

variable {k : Call cfg} {l l' : List (Call cfg)}

theorem refl (c : Node cfg) : Does r psa c [] c := .rest (.refl c)

theorem after (h : Still r c c') (h' : Does r psa c' l c'') : Does r psa c l c'' := by
  cases h' with
  | rest h'' => exact .rest (h.trans h'')
  | call hs hk hr ht => exact .call (h.trans hs) hk hr ht

theorem trans (h : Does r psa c l c') (h' : Does r psa c' l' c'') : Does r psa c (l ++ l') c'' := by
  induction h with
  | rest hs => exact .after hs h'
  | call hs hk hr _ ih => exact .call hs hk hr (ih h')

theorem steady (h : Does r psa c l c') (h' : Still r c' c'') : Does r psa c l c'' := by
  simpa using h.trans (.rest h')

theorem single (h : Still r c k.node) (hk : k.Fits) (hr : k.result psa = some d)
    (h' : Still r d c') : Does r psa c [k] c' := .call h hk hr (.rest h')

/-- What calls and steady work keep, a step keeps. -/
theorem keeps {P : Node cfg → Prop} (h : Does r psa c l c') (hc : P c)
    (hsteady : ∀ {c c'}, Steady c c' → P c → P c')
    (hcall : ∀ k ∈ l, ∀ d, k.Fits → k.result psa = some d → P k.node → P d) : P c' := by
  induction h with
  | rest hs => exact hsteady hs.toSteady hc
  | call hs hk hr _ ih =>
    refine ih (hcall _ (by simp) _ hk hr (hsteady hs.toSteady hc)) fun k hmem => ?_
    exact hcall k (by simp [hmem])

end Does

theorem lgLinkEventMiss_does (psa : Psa) (o : Oracle) (c : Node cfg) (i : Fin cfg.maxNeighbors) :
    Does r psa c (missCalls o c i) (lgLinkEventMiss o c i) := by
  have hq := (lgNeighTxResult_still (r := r) c i false).trans
    (lgChanResult_still _ (lgLinkNextChan (c.neigh i).sched) false)
  unfold lgLinkEventMiss missCalls
  dsimp only
  split
  · exact .single hq trivial rfl (.refl _)
  · exact .rest hq

theorem lgTxqFree_still (c : Node cfg) (k : Fin cfg.txQueueSize) : Still r c (lgTxqFree c k) :=
  .of_stocked rfl rfl rfl (.of_free c k)

theorem settleOutcome_does (psa : Psa) (o : Oracle) (c : Node cfg) (i : Fin cfg.maxNeighbors) :
    Does r psa c (if !c.evst.gotRx then missCalls o c i else []) (settleOutcome o c i) := by
  have hn := (lgTxqPeek_quiet c (c.neigh i).addr).neigh
  unfold settleOutcome
  dsimp only
  split
  · exact lgLinkEventMiss_does psa o c i
  · split
    · split
      · refine .rest (((lgTxqPeek_still c _).trans (lgTxqFree_still _ _)).trans
          (setTx_still _ i _ ?_ ?_)) <;> simp [lgTxqFree, hn]
      · refine .rest ((lgTxqPeek_still c _).trans (setTx_still _ i _ ?_ ?_)) <;> simp [hn]
    · exact .refl c

theorem lgLinkEventFinish_does (psa : Psa) (o : Oracle) (c : Node cfg)
    (i : Fin cfg.maxNeighbors) : Does r psa c (eventCalls o c i) (lgLinkEventFinish psa o c i) := by
  have ho := settleOutcome_does (r := r) psa o c i
  unfold lgLinkEventFinish eventCalls
  dsimp only
  split
  · exact ho
  · exact ho.trans (.call (.refl _) trivial rfl (.call (.refl _) trivial rfl
      (.single (.refl _) trivial rfl (.refl _))))

/-! ## Handshakes -/

/-- A link comes up, and the handshake is over. -/
theorem establish_does {e : Node cfg} {pp : LinkParams} {initiator : Bool} (h : Still r c e)
    (hn : c.hs.n = some i) (hl : (c.neigh i).state ≠ .linked) (hf : (c.neigh i).state ≠ .free)
    (hd : lgLinkEstablish o e i pp initiator = some d) (h' : Still r (d.setHs {}) c') :
    Does r psa c [⟨o, e, .establish i pp initiator⟩] c' := by
  refine .single h ⟨h.about.trans hn, ?_, ?_⟩ (Option.map_eq_some_iff.mpr ⟨d, hd, rfl⟩) h'
  · rwa [h.state]
  · rwa [h.state]

theorem finishRouter_does (hn : c.hs.n = some i) (hl : (c.neigh i).state ≠ .linked)
    (hf : (c.neigh i).state ≠ .free) (h : finishRouter o c i = some c') :
    Does r psa c [⟨o, routerUp c i, .establish i (LinkParams.decode c.hs.tx) true⟩] c' := by
  obtain ⟨d, hd, rfl⟩ := Option.map_eq_some_iff.mp h
  exact establish_does (.setUnlinked c i hl rfl rfl) hn hl hf hd
    (.of_neigh rfl rfl rfl)

theorem fail_does (hn : c.hs.n = some i) (hl : (c.neigh i).state ≠ .linked)
    (hf : (c.neigh i).state ≠ .free) : Does r psa c [⟨o, c, .fail i⟩] (joinFail c i) :=
  .single (.refl c) ⟨hn, hl, hf⟩ rfl (.refl _)

theorem lgJoinEventFinish_does (hc : c.HsUnlinked) (h : lgJoinEventFinish o c = some c') :
    Does r psa c (slotCalls o c) c' := by
  unfold lgJoinEventFinish at h
  unfold slotCalls
  cases hn : c.hs.n with
  | none =>
    rw [hn] at h
    cases h
    exact .rest (.of_neigh rfl rfl rfl)
  | some i =>
    obtain ⟨hf, hl⟩ := hc i hn
    rw [hn] at h
    simp only at h ⊢
    split at h
    · next hs =>
      cases h
      rw [if_pos hs]
      refine .single (.refl c) (fun j hj => ?_) rfl (.refl _)
      have hji : i = j := Option.some.inj (hn.symm.trans hj)
      rwa [hji] at hs
    · next hs =>
      rw [if_neg hs]
      split at h
      · next hup =>
        rw [if_pos hup]
        exact finishRouter_does hn hl hf h
      · next hup =>
        rw [if_neg hup]
        have hd : Still r c (c.setHs (nextSlot c.nowUs c.hs)) := setHs_still c _ (by rfl)
        split at h
        · next hend =>
          cases h
          rw [if_pos hend]
          exact .after hd (fail_does hn hl hf)
        · next hend =>
          cases h
          rw [if_neg hend]
          exact .rest hd

/-- The dearest entry of a list in the order of the table, and of several the first. -/
theorem worstOf_spec {l : List (Fin cfg.maxNeighbors)} (hl : l.Pairwise (· < ·))
    (h : worstOf c l = some i) : i ∈ l ∧ ∀ j ∈ l, (c.view j).linkCost < (c.view i).linkCost ∨
      (c.view j).linkCost = (c.view i).linkCost ∧ i ≤ j := by
  have hfold : ∀ (l : List (Fin cfg.maxNeighbors)) (b : Fin cfg.maxNeighbors),
      (b :: l).Pairwise (· < ·) → l.foldl (fun best i =>
        match best with
        | none => some i
        | some b => if (c.view b).linkCost < (c.view i).linkCost then some i else best) (some b) =
          some i →
      i ∈ b :: l ∧ ∀ j ∈ b :: l, (c.view j).linkCost < (c.view i).linkCost ∨
        (c.view j).linkCost = (c.view i).linkCost ∧ i ≤ j := by
    intro l
    induction l with
    | nil =>
      intro b _ h
      cases h
      simp
    | cons x l ih =>
      intro b hl h
      obtain ⟨hb, hxl⟩ := List.pairwise_cons.mp hl
      have hbx : b < x := hb x List.mem_cons_self
      rw [List.foldl_cons] at h
      dsimp only at h
      split at h
      · next hlt =>
        obtain ⟨hmem, hall⟩ := ih x hxl h
        refine ⟨List.mem_cons_of_mem b hmem, fun j hj => ?_⟩
        rcases List.mem_cons.mp hj with rfl | hj
        · have hx := hall x List.mem_cons_self
          omega
        · exact hall j hj
      · next hge =>
        have hbl : (b :: l).Pairwise (· < ·) :=
          List.pairwise_cons.mpr ⟨fun j hj => hb j (List.mem_cons_of_mem x hj),
            (List.pairwise_cons.mp hxl).2⟩
        obtain ⟨hmem, hall⟩ := ih b hbl h
        refine ⟨?_, fun j hj => ?_⟩
        · rcases List.mem_cons.mp hmem with rfl | hmem
          · exact List.mem_cons_self
          · exact List.mem_cons_of_mem b (List.mem_cons_of_mem x hmem)
        · rcases List.mem_cons.mp hj with rfl | hj
          · exact hall _ List.mem_cons_self
          · rcases List.mem_cons.mp hj with rfl | hj
            · have hbest := hall b List.mem_cons_self
              have hle : b ≤ j := Nat.le_of_lt hbx
              omega
            · exact hall j (List.mem_cons_of_mem b hj)
  cases l with
  | nil => cases h
  | cons b l => exact hfold l b hl h

theorem worstOf_eq_none {l : List (Fin cfg.maxNeighbors)} (h : worstOf c l = none) : l = [] := by
  have hfold : ∀ (l : List (Fin cfg.maxNeighbors)) (b : Fin cfg.maxNeighbors),
      l.foldl (fun best i =>
        match best with
        | none => some i
        | some b => if (c.view b).linkCost < (c.view i).linkCost then some i else best) (some b) ≠
          none := by
    intro l
    induction l with
    | nil => exact fun b => nofun
    | cons x l ih =>
      intro b
      rw [List.foldl_cons]
      dsimp only
      split
      · exact ih x
      · exact ih b
  cases l with
  | nil => rfl
  | cons b l => exact absurd h (hfold l b)

theorem lgNeighMakeRoom_does (psa : Psa) (o : Oracle) (c : Node cfg) :
    Does r psa c (roomCalls o c etxOne) (lgNeighMakeRoom o c etxOne).2 := by
  have hsorted := List.pairwise_lt_finRange cfg.maxNeighbors
  unfold lgNeighMakeRoom roomCalls
  dsimp only
  split
  · exact .refl c
  · next hfree =>
    change Does r psa c _ (match worstOf c _ with
      | some i => (true, lgNeighFree c i)
      | none => match worstOf c _ with
        | some i => (true, lgNeighFree (lgLinkDown o c i) i)
        | none => (false, c)).2
    cases hw : worstOf c ((List.finRange cfg.maxNeighbors).filter fun i =>
        (c.neigh i).state = .heard ∨ (c.neigh i).state = .lost) with
    | some i =>
      have hmem := (List.mem_filter.mp (worstOf_spec (hsorted.filter _) hw).1).2
      simp only [decide_eq_true_eq] at hmem
      refine .single (.refl c) ⟨fun hl => ?_, fun hj => ?_⟩ rfl (.refl _)
      · change (c.neigh i).state = .linked at hl
        simp [hl] at hmem
      · change (c.neigh i).state = .joining at hj
        simp [hj] at hmem
    | none =>
      cases hw' : worstOf c ((List.finRange cfg.maxNeighbors).filter fun i =>
          !(c.view i).isParent ∧ etxOne + etxOne < (c.view i).linkCost) with
      | none => exact .refl c
      | some i =>
        obtain ⟨hmem, hworst⟩ := worstOf_spec (hsorted.filter _) hw'
        obtain ⟨hspare, hcost⟩ := of_decide_eq_true (List.mem_filter.mp hmem).2
        rw [Bool.not_eq_true'] at hspare
        refine .call (.refl c) trivial rfl (.single (.refl _) ⟨fun hl => ?_, fun hj => ?_⟩ rfl
          (.refl _))
        · change ((lgLinkDown o c i).neigh i).state = .linked at hl
          by_cases hi : (c.neigh i).state = .linked
          · rw [lgLinkDown_self o hi] at hl
            cases hl
          · rw [lgLinkDown_eq] at hl
            rw [if_pos hi] at hl
            exact hi hl
        · change ((lgLinkDown o c i).neigh i).state = .joining at hj
          have hi : (c.neigh i).state ≠ .linked := fun hi => by
            rw [lgLinkDown_self o hi] at hj
            cases hj
          have hsame : lgLinkDown o c i = c := by rw [lgLinkDown_eq, if_pos hi]
          change (lgLinkDown o c i).Preys i
          rw [hsame]
          refine ⟨fun j => ?_, hspare, hcost, fun j hj => ?_⟩
          · have hnone := List.filter_eq_nil_iff.mp (worstOf_eq_none hw) j (List.mem_finRange j)
            have hused : (c.neigh j).state ≠ .free := fun hf =>
              hfree (List.any_eq_true.mpr ⟨j, List.mem_finRange j, decide_eq_true hf⟩)
            simp only [decide_eq_true_eq, not_or] at hnone
            cases hstate : (c.neigh j).state with
            | free => exact absurd hstate hused
            | heard => exact absurd hstate hnone.1
            | lost => exact absurd hstate hnone.2
            | linked => exact .inl rfl
            | joining => exact .inr rfl
          · by_cases hjcost : etxOne + etxOne < (c.view j).linkCost
            · exact hworst j (List.mem_filter.mpr ⟨List.mem_finRange j, by simp [hj, hjcost]⟩)
            · exact .inl (by omega)

theorem alloc_result (psa : Psa) (o : Oracle) {src : Addr} {r : Option (Fin cfg.maxNeighbors)}
    (h : lgNeighAlloc c src = (r, d)) :
    (Call.mk o c (.alloc src)).result psa = some d := by
  change some (lgNeighAlloc c src).2 = some d
  rw [h]

theorem admitJoiner_does (psa : Psa) (o : Oracle) (c : Node cfg) (src : Addr) :
    Does r psa c (admitCalls o c src) (admitJoiner o c src).2 := by
  unfold admitJoiner admitCalls
  rcases ha : lgNeighAlloc c src with ⟨_ | i, d⟩
  · have hd := alloc_result psa o ha
    have hr := lgNeighMakeRoom_does (r := r) psa o d
    dsimp only
    split
    · exact .call (.refl c) trivial hd (hr.trans (.single (.refl _) trivial rfl (.refl _)))
    · rw [List.append_nil]
      exact .call (.refl c) trivial hd hr
  · exact .single (.refl c) trivial (alloc_result psa o ha) (.refl d)

theorem contextFor_does (psa : Psa) (o : Oracle) (c : Node cfg) (t : FrameType) (src : Addr)
    (airStartUs : ℕ) :
    Does r psa c (contextCalls o c t src airStartUs) (contextFor o c t src airStartUs).2 := by
  unfold contextFor contextCalls
  cases hn : c.hs.n with
  | some i => exact .refl c
  | none =>
    dsimp only
    split
    · have ha := admitJoiner_does (r := r) psa o c src
      rcases he : admitJoiner o c src with ⟨_ | i, d⟩
      · rw [he] at ha
        exact ha
      · rw [he] at ha
        dsimp only
        split
        · exact ha
        · next hroom =>
          have hw := (admitJoiner_works psa o c src).credit
          rw [he] at hw
          have hd : d.hs.n = none := (congrArg Hs.n hw).trans hn
          refine ha.trans (.single (.refl d) ⟨hd, admitJoiner_occupied he, ?_⟩ rfl (.refl _))
          exact not_le.mp hroom
    · exact .refl c

theorem finishJoiner_does {t : FrameType} {sec : Bool} {airStartUs : ℕ} (hn : c.hs.n = some i)
    (hl : (c.neigh i).state ≠ .linked) (hf : (c.neigh i).state ≠ .free)
    (h : finishJoiner o c i t sec airStartUs = some c') :
    Does r psa c (joinerCalls o c i t sec airStartUs) c' := by
  unfold finishJoiner at h
  unfold joinerCalls
  split at h
  · next hlen =>
    cases h
    rw [if_pos hlen]
    exact fail_does hn hl hf
  · next hlen =>
    rw [if_neg hlen]
    obtain ⟨d, hd, rfl⟩ := Option.map_eq_some_iff.mp h
    exact establish_does (.setUnlinked c i hl rfl rfl) hn hl hf hd (.refl _)

/-- A message that is answered, or ends the handshake. -/
theorem settleStep_does {q : Except Err Unit × Node cfg} (ht : Tends i c q.2)
    (hs : q.2.rest = c.rest) (hn : c.hs.n = some i) (hl : (c.neigh i).state ≠ .linked)
    (hf : (c.neigh i).state ≠ .free) : Does r psa c (failCalls o q i) (settleStep q i) := by
  have hd : Still r c _ := .of_tends ht hs hl
  unfold settleStep failCalls
  obtain ⟨e | u, d⟩ := q
  · refine .after hd (fail_does (ht.about.trans hn) ?_ ?_)
    · rwa [ht.state]
    · rwa [ht.state]
  · exact .rest (hd.trans (setHs_still d _ (by rfl)))

theorem handleMessage_does {t : FrameType} {sec : Bool} {airStartUs : ℕ} (hn : c.hs.n = some i)
    (hl : (c.neigh i).state ≠ .linked) (hf : (c.neigh i).state ≠ .free)
    (h : handleMessage psa o c i t sec airStartUs = some c') :
    Does r psa c (messageCalls psa o c i t sec airStartUs) c' := by
  unfold handleMessage at h
  dsimp only at h
  cases t with
  | joinReq =>
    cases h
    exact settleStep_does (handleJoinReq_tends psa o c i _) (handleJoinReq_rest psa o c i _)
      hn hl hf
  | joinRsp =>
    cases h
    exact settleStep_does (handleJoinRsp_tends psa o c i _) (handleJoinRsp_rest psa o c i _)
      hn hl hf
  | joinCfm =>
    cases h
    exact settleStep_does (handleJoinCfm_tends psa o c i _) (handleJoinCfm_rest psa o c i _)
      hn hl hf
  | joinAck | resumeRsp => exact finishJoiner_does hn hl hf h
  | resumeReq =>
    have hr := handleResumeReq_tends psa o c i c.hs.rx.msg
    have hs := handleResumeReq_rest psa o c i c.hs.rx.msg
    unfold messageCalls
    dsimp only at h ⊢
    rcases he : handleResumeReq psa o c i c.hs.rx.msg with ⟨e | u, d⟩ <;> rw [he] at h hr hs
    · cases h
      have hset : Still r d (d.setKeys i { (d.neigh i).keys with hasLtk := false }) :=
        setKeys_still d i _ rfl
      have hd :
          Still r c ((d.setKeys i { (d.neigh i).keys with hasLtk := false }).note i .dropped) :=
        (Still.of_tends hr hs hl).trans (hset.trans (.of_neigh rfl rfl rfl))
      refine .after hd (fail_does (hd.about.trans hn) ?_ ?_)
      · rwa [hd.state]
      · rwa [hd.state]
    · cases h
      exact .rest ((Still.of_tends hr hs hl).trans (setHs_still d _ (by rfl)))
  | beacon | linkReq | linkRsp | data | ack | ctrl =>
    cases h
    exact .refl c

theorem lgJoinRxPdu_does {t : FrameType} {rx : RxRec} (hc : c.HsUnlinked)
    (h : lgJoinRxPdu psa o c t rx = some c') : Does r psa c (joinRxCalls psa o c t rx) c' := by
  have hctx := contextFor_does (r := r) psa o c t (getLe16 rx.pdu offSrc) rx.airStartUs
  unfold lgJoinRxPdu at h
  unfold joinRxCalls
  dsimp only
  rcases he : contextFor o c t (getLe16 rx.pdu offSrc) rx.airStartUs with ⟨_ | i, d⟩
  · rw [he] at h hctx
    cases h
    exact hctx
  · obtain ⟨hd, hfor⟩ := contextFor_upkept psa hc he
    have hn := hfor i rfl
    obtain ⟨hf, hl⟩ := hd.about i hn
    rw [he] at h hctx
    have hrssi : Tends i d (lgNeighRxRssi d i rx.rssi) :=
      .of_quiet (lgNeighRxRssi_quiet d i rx.rssi)
    have hre := hrssi.trans (reassemble_tends psa o _ i t rx.pdu)
    have hst := (reassemble_rest psa o (lgNeighRxRssi d i rx.rssi) i t rx.pdu).trans
      (lgNeighRxRssi_rest d i rx.rssi)
    dsimp only at h ⊢
    rcases he' : reassemble psa o (lgNeighRxRssi d i rx.rssi) i t rx.pdu with ⟨_ | _, e⟩
    · rw [he'] at h hre hst
      cases h
      exact hctx.steady (.of_tends hre hst hl)
    · rw [he'] at h hre hst
      refine hctx.trans (.after (.of_tends hre hst hl) (handleMessage_does ?_ ?_ ?_ h))
      · exact hre.about.trans hn
      · rwa [hre.state]
      · rwa [hre.state]

/-! ## Received frames -/

theorem handleCtrl_does (psa : Psa) (o : Oracle) {c : Node cfg} {i : Fin cfg.maxNeighbors}
    (hl : (c.neigh i).state = .linked) (body : Bytes) :
    Does r psa c (ctrlCalls o c i body) (handleCtrl o c i body) := by
  unfold ctrlCalls
  split
  · next he =>
    rw [handleCtrl, if_pos he]
    exact .refl c
  · next he =>
    split
    · next hop =>
      refine .single (.refl c) hl rfl ?_
      simp only [handleCtrl, he, hop, if_false]
      exact .refl _
    · next hadv =>
      split
      · next hop =>
        refine .single (.refl c) trivial rfl ?_
        simp only [handleCtrl, he, hop, if_false]
        exact .refl _
      · next hdown => exact .single (.refl c) ⟨hl, hadv, hdown⟩ rfl (.refl _)

theorem lgLinkRxFrame_does (psa : Psa) (o : Oracle) {c : Node cfg} {i : Fin cfg.maxNeighbors}
    (hl : (c.neigh i).state = .linked) (fcf : UInt8) (payload : Bytes) :
    Does r psa c (if FrameType.ofCode (fcf &&& fcfTypeMask) = some .ctrl then
      ctrlCalls o c i payload else []) (lgLinkRxFrame o c i fcf payload) := by
  obtain ⟨d, hd, hmd⟩ := lgLinkRxFrame_cases o c i fcf payload
  have h : Does r psa c (if FrameType.ofCode (fcf &&& fcfTypeMask) = some .ctrl then
      ctrlCalls o c i payload else []) d := by
    rcases hd with ⟨ht, rfl⟩ | ⟨ht, rfl⟩ | ⟨ht, rfl⟩
    · rw [if_neg (by rw [ht]; decide)]
      exact .rest (handleData_still c payload)
    · rw [if_pos ht]
      exact handleCtrl_does psa o hl payload
    · rw [if_neg ht]
      exact .refl d
  rcases hmd with hmd | hmd
  · rw [hmd]
    exact h.steady (lgSchedExpedite_still d i)
  · rwa [hmd]

theorem dispatchLink_does (psa : Psa) (o : Oracle) (c : Node cfg) (h : FrameHdr) (pdu : Bytes) :
    Does r psa c (linkRxCalls psa o c h pdu) (dispatchLink psa o c h pdu) := by
  unfold dispatchLink linkRxCalls
  cases lgNeighFind c h.src with
  | none => exact .refl c
  | some i =>
    dsimp only
    split
    · exact .refl c
    · next hok =>
      have hl : (c.neigh i).state = .linked := not_ne_iff.mp fun hne => hok (.inl hne)
      have hd := lgSecDecrypt_still (r := r) psa (o.ok .decrypt) c i pdu
      generalize lgSecDecrypt psa (o.ok .decrypt) c i pdu = r at hd
      obtain ⟨e | body, d⟩ := r
      · exact .rest hd
      · exact .after hd (lgLinkRxFrame_does psa o ((hd.state i).trans hl) h.fcf _)

theorem noteBeacon_does (psa : Psa) (o : Oracle) (c : Node cfg) (b : Beacon) (src : Addr) :
    Does r psa c (if b.rank.toNat = rankInfinite then [⟨o, lgRoleNoteUnrouted c, .role⟩] else [])
      (noteBeacon o c b src) := by
  unfold noteBeacon
  dsimp only
  split
  · exact .single (.of_neigh rfl rfl rfl) trivial rfl (.of_neigh rfl rfl rfl)
  · exact .rest (.of_neigh rfl rfl rfl)

theorem aimAt_does (psa : Psa) (o : Oracle) {c : Node cfg} {i : Fin cfg.maxNeighbors}
    (b : Beacon) (airStartUs : ℕ) (hf : (c.neigh i).state ≠ .free)
    (hl : (c.neigh i).state ≠ .linked) (hj : (c.neigh i).state ≠ .joining) :
    Does r psa c [⟨o, aimed o c i b airStartUs, .begin i⟩] (aimAt o c i b airStartUs) := by
  have ha : Still r c (aimed o c i b airStartUs) := .setUnlinked c i hl rfl rfl
  have hstate := ha.state i
  refine .single ha ⟨?_, ?_, ?_⟩ rfl ?_
  · rwa [hstate]
  · rwa [hstate]
  · rwa [hstate]
  · change Still r (lgJoinStart o (aimed o c i b airStartUs) i).2 _
    rcases aimAt_cases o c i b airStartUs with ⟨-, he⟩ | he
    · rw [he]
      unfold lgSchedAbort
      split
      · exact lgSchedEventDone_still _
      · exact .refl _
    · rw [he]
      exact .refl _

/-- The rest of a beacon's reception, once its sender has an entry. -/
theorem noteSender_still (c : Node cfg) (i : Fin cfg.maxNeighbors) (b : Beacon) (rssi : ℤ)
    (airStartUs : ℕ) : Still r c (noteSender c i b rssi airStartUs) :=
  .of_quiet (noteSender_quiet c i b rssi airStartUs) (noteSender_rest c i b rssi airStartUs)

theorem beaconEntry_does (psa : Psa) (o : Oracle) (c : Node cfg) (b : Beacon) (src : Addr)
    (rssi : ℤ) : Does r psa c (entryCalls o c b src rssi) (beaconEntry o c b src rssi).2 := by
  unfold beaconEntry entryCalls
  cases lgNeighFind c src with
  | some i => simpa using .refl c
  | none =>
    simp only [true_and]
    split
    · exact admitJoiner_does psa o c src
    · exact .refl c

theorem answer_does (psa : Psa) (o : Oracle) {c : Node cfg} {i : Fin cfg.maxNeighbors}
    (b : Beacon) (src : Addr) (rssi : ℤ) (airStartUs : ℕ) (hf : (c.neigh i).state ≠ .free) :
    Does r psa c (answerCalls o c i b src rssi airStartUs)
      (if (c.neigh i).state = .linked ∨ (c.neigh i).state = .joining then c
      else if !candidateIsUseful c b src rssi ∨ b.joinWindowUs = 0 then c
      else aimAt o c i b airStartUs) := by
  unfold answerCalls
  split
  · exact .refl c
  · next hstate =>
    rw [not_or] at hstate
    split
    · exact .refl c
    · exact aimAt_does psa o b airStartUs hf hstate.1 hstate.2

theorem acceptBeacon_does (psa : Psa) (o : Oracle) (c : Node cfg) (b : Beacon) (src : Addr)
    (rssi : ℤ) (airStartUs : ℕ) :
    Does r psa c (acceptCalls o c b src rssi airStartUs)
      (acceptBeacon o c b src rssi airStartUs) := by
  have hentry := (noteBeacon_does (r := r) psa o c b src).trans
    (beaconEntry_does psa o (noteBeacon o c b src) b src rssi)
  unfold acceptBeacon acceptCalls
  dsimp only
  rcases he : beaconEntry o (noteBeacon o c b src) b src rssi with ⟨_ | i, d⟩
  · rw [he] at hentry
    exact hentry
  · rw [he] at hentry
    refine (hentry.steady (noteSender_still d i b rssi airStartUs)).trans
      (answer_does psa o b src rssi airStartUs ?_)
    rw [(noteSender_quiet d i b rssi airStartUs).neigh]
    exact beaconEntry_occupied he

theorem lgDiscBeaconRx_does (psa : Psa) (o : Oracle) (c : Node cfg) (rx : RxRec) :
    Does r psa c (beaconCalls psa o c rx) (lgDiscBeaconRx psa o c rx) := by
  unfold lgDiscBeaconRx beaconCalls
  split
  · exact .refl c
  · cases lgSecBeaconOpen psa (o.ok .beaconMac) c.ident.netKey rx.pdu with
    | none => exact .refl c
    | some body =>
      dsimp only
      split
      · exact .refl c
      · exact acceptBeacon_does psa o c _ _ _ _

theorem dispatch_does {rx : RxRec} (hc : c.HsUnlinked) (h : dispatch psa o c rx = some c') :
    Does r psa c (dispatchCalls psa o c rx) c' := by
  unfold dispatch at h
  unfold dispatchCalls
  cases hg : lgFrameHdrGet cfg rx.pdu c.ident.netid16 with
  | none =>
    rw [hg] at h
    cases h
    exact .refl c
  | some hdr =>
    rw [hg] at h
    dsimp only at h ⊢
    split at h
    · next hs =>
      cases h
      rw [if_pos hs]
      exact .refl c
    · next hs =>
      rw [if_neg hs]
      rcases ht : lgFrameType rx.pdu with _ | t <;> rw [ht] at h
      · cases h
        exact dispatchLink_does psa o c hdr rx.pdu
      · cases t
        all_goals
          simp only [FrameType.isJoin, if_true, Bool.false_eq_true, if_false] at h ⊢
          first
            | exact lgJoinRxPdu_does hc h
            | cases h
              first
                | exact lgDiscBeaconRx_does psa o c rx
                | exact dispatchLink_does psa o c hdr rx.pdu

theorem rxHandler_does (hc : c.HsUnlinked) (h : rxHandler psa o c = some c') :
    Does r psa c (rxCalls psa o c) c' := by
  unfold rxHandler at h
  unfold rxCalls
  cases hring : c.rxRing with
  | nil =>
    rw [hring] at h
    cases h
    exact .refl c
  | cons rx rest =>
    rw [hring] at h
    have hpop : Still r c { c with rxRing := rest } := .of_neigh rfl rfl rfl
    exact .after hpop (dispatch_does (c := { c with rxRing := rest }) hc h)

/-! ## The scheduler -/

variable {cand : Candidate cfg}

theorem dropLate_does (hc : c.HsUnlinked) (h : dropLate psa o c cand = some c') :
    Does r psa c (lateCalls o c cand) c' := by
  obtain ⟨kind, anchor, n, prio⟩ := cand
  unfold dropLate at h
  unfold lateCalls
  cases kind <;> rcases n with _ | i <;> simp only at h ⊢
  case joinTx.none | joinTx.some | joinRx.none | joinRx.some => exact lgJoinEventFinish_does hc h
  case link.some =>
    cases h
    exact .single (.refl c) trivial rfl (.refl _)
  case track.some =>
    cases h
    exact .rest (.of_quiet (lgDiscTrackResult_quiet c i false) (lgDiscTrackResult_rest c i false))
  all_goals
    cases h
    exact .rest (.of_neigh rfl rfl rfl)

theorem requestEvent_does (hc : c.HsUnlinked) (h : requestEvent psa o c cand = some c') :
    Does r psa c (requestCalls o c cand) c' := by
  have hp := eventPlan_still (r := r) c cand
  have hq := eventPlan_quiet c cand
  unfold requestEvent at h
  unfold requestCalls
  dsimp only at h ⊢
  split at h
  · next hlate =>
    rw [if_pos hlate]
    refine .after hp (dropLate_does (fun i hi => ?_) h)
    obtain ⟨net, view, heq⟩ := hq
    rw [heq] at hi ⊢
    exact hc i hi
  · next hlate =>
    rw [if_neg hlate]
    split at h <;> cases h
    · exact .rest hp
    · exact .rest (hp.trans (.of_neigh rfl rfl rfl))

theorem stageFor_does (psa : Psa) (o : Oracle) (c : Node cfg) (cand : Candidate cfg) :
    Does r psa c (stageCalls psa o c cand) (stageFor psa o c cand).2 := by
  obtain ⟨kind, anchor, n, prio⟩ := cand
  unfold stageFor stageCalls
  cases kind <;> rcases n with _ | i <;> dsimp only
  case link.some =>
    split
    · exact .refl c
    · split
      · exact .single (.refl c) trivial rfl (.refl _)
      · exact .call (.refl c) trivial rfl (.single (.refl _) trivial rfl (.refl _))
  all_goals exact .refl c

theorem schedPick_does (hc : c.HsUnlinked) (h : schedPick psa o c = some c') :
    Does r psa c (pickCalls psa o c) c' := by
  unfold schedPick at h
  unfold pickCalls
  split at h
  · next hg =>
    rw [if_pos hg]
    cases h
    exact .refl c
  · next hg =>
    rw [if_neg hg]
    rcases hl : candidates c with _ | ⟨l, d⟩
    · rw [hl] at h
      cases h
    · rw [hl] at h
      have hd := candidates_still (r := r) hl
      have hw : Works psa c d := candidates_works hl
      have hu : Upkept True c d := .of_works hc hw
      dsimp only at h ⊢
      cases hsel : selectCandidate l with
      | none =>
        rw [hsel] at h
        cases h
        exact .rest hd
      | some cand =>
        rw [hsel] at h
        have hs := Does.after hd (stageFor_does psa o d cand)
        have hu' := hu.trans (.of_works hu.about (stageFor_works psa o d cand))
        dsimp only at h ⊢
        split at h
        · next hok =>
          rw [if_pos hok]
          exact hs.trans (requestEvent_does hu'.about h)
        · next hok =>
          rw [if_neg hok]
          cases h
          exact hs

theorem settle_does (hc : c.HsUnlinked) (h : settle psa o c = some c') :
    Does r psa c (settleCalls psa o c) c' := by
  unfold settle at h
  unfold settleCalls
  generalize c.finishKind = kind at h ⊢
  generalize c.finishNeigh = n at h ⊢
  cases kind with
  | link =>
    cases n with
    | none =>
      cases h
      exact .refl c
    | some i =>
      cases h
      exact lgLinkEventFinish_does psa o c i
  | beacon =>
    cases h
    exact .single (.of_neigh rfl rfl rfl) trivial rfl (.refl _)
  | scan =>
    cases h
    exact .single (.of_neigh rfl rfl rfl) trivial rfl (.refl _)
  | joinTx => exact lgJoinEventFinish_does hc h
  | joinRx => exact lgJoinEventFinish_does hc h
  | chanEval =>
    cases h
    exact .rest (finishChanEval_still c)
  | track | none =>
    cases h
    exact .refl c

theorem schedFinish_does {o' : Oracle} (hc : c.HsUnlinked)
    (h : schedFinish psa o o' c = some c') : Does r psa c (finishCalls psa o o' c) c' := by
  unfold schedFinish at h
  unfold finishCalls
  cases hd : settle psa o c with
  | none =>
    rw [hd] at h
    cases h
  | some d =>
    rw [hd] at h
    have hu : Upkept True c d := (settle_pieces hd).upkept hc
    have hf : Still r d { d with finishKind := .none, finishNeigh := none } := .of_neigh rfl rfl rfl
    exact (settle_does hc hd).trans (.after hf (schedPick_does hu.about h))

/-! ## Steps -/

theorem tsFailed_does (psa : Psa) (o : Oracle) (c : Node cfg) :
    Does r psa c (failedCalls o c) (tsFailed o c) := by
  unfold tsFailed failedCalls
  cases c.ev.kind <;> rcases c.ev.neigh with _ | i <;> dsimp only
  case link.some => exact (lgLinkEventMiss_does psa o c i).steady (lgSchedEventDone_still _)
  case track.none | track.some =>
    exact .rest ((trackResult_still c false).trans (lgSchedEventDone_still _))
  all_goals exact .rest (.of_neigh rfl rfl rfl)

theorem lgStop_does (psa : Psa) (o : Oracle) (c : Node cfg) :
    Does r psa c (if !c.started then [] else stopCalls o (List.finRange cfg.maxNeighbors) c)
      (lgStop o c) := by
  have hfold : ∀ (l : List (Fin cfg.maxNeighbors)) (c : Node cfg) (c' : Node cfg),
      (Call.mk o (stopLinks o l c) .halt).result psa = some c' →
      Does r psa c (stopCalls o l c) c' := by
    intro l
    induction l with
    | nil => exact fun c c' h => .single (.refl c) trivial h (.refl c')
    | cons i l ih => exact fun c c' h => .call (.refl c) trivial rfl (ih _ c' h)
  unfold lgStop
  split
  · exact .refl c
  · exact hfold _ c _ rfl

/-- The step takes a reply on link `i`. -/
def Node.Replied (c : Node cfg) (inp : Input) (i : Fin cfg.maxNeighbors) : Prop :=
  match inp with
  | .rxDone _ => c.ev.kind = .link ∧ c.ev.neigh = some i ∧ c.evst.txFirst = true
  | _ => False

/-- A step of a node is its calls in turn, and steady work. -/
theorem perform_does {inp : Input} (hc : c.HsUnlinked) (h : perform psa o c inp = some c') :
    Does (c.Replied inp) psa c (calls psa o c inp) c' := by
  cases inp with
  | tick us => exact .single (.refl c) trivial h (.refl c')
  | schedWork => exact schedPick_does hc h
  | finishWork o' => exact schedFinish_does hc h
  | rxWork => exact rxHandler_does hc h
  | granted =>
    cases h
    exact .rest (tsGranted_still psa o c)
  | refused =>
    cases h
    exact tsFailed_does psa o c
  | txDone airEndUs =>
    cases h
    exact .rest (phyTxDone_still psa o c airEndUs)
  | rxDone rx =>
    cases h
    exact .rest (phyRxDone_still o c rx fun i hk hn hf => ⟨hk, hn, hf⟩)
  | rxFailed reason =>
    cases h
    exact .rest (phyRxFailed_still o c reason)
  | send dst port payload flags =>
    cases h
    exact .rest (lgSend_still c dst port payload flags)
  | backhaulSet up =>
    cases h
    exact .single (.refl c) trivial rfl (.refl _)
  | tuningSet t =>
    cases h
    exact .rest (.of_neigh rfl rfl rfl)
  | start => exact .single (.refl c) trivial h (.refl c')
  | stop =>
    cases h
    exact lgStop_does psa o c

/-! ## Plain calls -/

/-- Nobody is given an entry or loses one to another, no handshake begins and no control frame is
handled. -/
def Deed.Plain : Deed cfg → Prop
  | .alloc _ | .free _ | .begin _ | .openContext .. | .adv .. | .ctrl .. => False
  | _ => True

/-- Nor does a link come up. -/
def Deed.Mild (k : Deed cfg) : Prop :=
  k.Plain ∧ match k with
    | .establish .. => False
    | _ => True

theorem slotCalls_plain (o : Oracle) (c : Node cfg) : ∀ k ∈ slotCalls o c, k.deed.Plain := by
  intro k hk
  unfold slotCalls at hk
  cases hn : c.hs.n with
  | none =>
    rw [hn] at hk
    cases hk
  | some i =>
    rw [hn] at hk
    dsimp only at hk
    split_ifs at hk
    · rw [List.mem_singleton] at hk
      subst hk
      trivial
    · rw [List.mem_singleton] at hk
      subst hk
      trivial
    · rw [List.mem_singleton] at hk
      subst hk
      trivial
    · cases hk

theorem missCalls_mild (o : Oracle) (c : Node cfg) (i : Fin cfg.maxNeighbors) :
    ∀ k ∈ missCalls o c i, k.deed.Mild := by
  intro k hk
  unfold missCalls at hk
  dsimp only at hk
  split at hk
  · rw [List.mem_singleton] at hk
    subst hk
    exact ⟨trivial, trivial⟩
  · cases hk

theorem eventCalls_mild (o : Oracle) (c : Node cfg) (i : Fin cfg.maxNeighbors) :
    ∀ k ∈ eventCalls o c i, k.deed.Mild := by
  intro k hk
  have hfirst : k ∈ (if !c.evst.gotRx then missCalls o c i else []) → k.deed.Mild := by
    intro hk
    split at hk
    · exact missCalls_mild o c i k hk
    · cases hk
  unfold eventCalls at hk
  dsimp only at hk
  split at hk
  · exact hfirst hk
  · rw [List.mem_append] at hk
    rcases hk with hk | hk
    · exact hfirst hk
    · simp only [List.mem_cons, List.not_mem_nil, or_false] at hk
      rcases hk with rfl | rfl | rfl <;> exact ⟨trivial, trivial⟩

theorem stageCalls_mild (psa : Psa) (o : Oracle) (c : Node cfg) (cand : Candidate cfg) :
    ∀ k ∈ stageCalls psa o c cand, k.deed.Mild := by
  intro k hk
  unfold stageCalls at hk
  split at hk
  · dsimp only at hk
    split_ifs at hk
    · cases hk
    · rw [List.mem_singleton] at hk
      subst hk
      exact ⟨trivial, trivial⟩
    · simp only [List.mem_cons, List.not_mem_nil, or_false] at hk
      rcases hk with rfl | rfl <;> exact ⟨trivial, trivial⟩
  · cases hk

theorem stopCalls_mild (o : Oracle) (l : List (Fin cfg.maxNeighbors)) (c : Node cfg) :
    ∀ k ∈ stopCalls o l c, k.deed.Mild := by
  induction l generalizing c with
  | nil =>
    intro k hk
    rw [stopCalls, List.mem_singleton] at hk
    subst hk
    exact ⟨trivial, trivial⟩
  | cons i l ih =>
    intro k hk
    rw [stopCalls, List.mem_cons] at hk
    rcases hk with rfl | hk
    · exact ⟨trivial, trivial⟩
    · exact ih _ k hk

theorem pickCalls_plain (psa : Psa) (o : Oracle) (c : Node cfg) :
    ∀ k ∈ pickCalls psa o c, k.deed.Plain := by
  have hlate : ∀ (c : Node cfg) (cand : Candidate cfg), ∀ k ∈ lateCalls o c cand, k.deed.Plain := by
    intro c cand k hk
    unfold lateCalls at hk
    split at hk
    · rw [List.mem_singleton] at hk
      subst hk
      trivial
    · exact slotCalls_plain o c k hk
    · exact slotCalls_plain o c k hk
    · cases hk
  intro k hk
  unfold pickCalls at hk
  split at hk
  · cases hk
  · cases hc : candidates c with
    | none =>
      rw [hc] at hk
      cases hk
    | some r =>
      obtain ⟨l, d⟩ := r
      rw [hc] at hk
      dsimp only at hk
      cases hs : selectCandidate l with
      | none =>
        rw [hs] at hk
        cases hk
      | some cand =>
        rw [hs] at hk
        dsimp only at hk
        split at hk
        · rw [List.mem_append] at hk
          rcases hk with hk | hk
          · exact (stageCalls_mild psa o d cand k hk).1
          · unfold requestCalls at hk
            dsimp only at hk
            split at hk
            · exact hlate _ cand k hk
            · cases hk
        · exact (stageCalls_mild psa o d cand k hk).1

theorem settleCalls_plain (psa : Psa) (o : Oracle) (c : Node cfg) :
    ∀ k ∈ settleCalls psa o c, k.deed.Plain := by
  intro k hk
  unfold settleCalls at hk
  split at hk
  · split at hk
    · exact (eventCalls_mild o c _ k hk).1
    · cases hk
  · rw [List.mem_singleton] at hk
    subst hk
    trivial
  · rw [List.mem_singleton] at hk
    subst hk
    trivial
  · exact slotCalls_plain o c k hk
  · exact slotCalls_plain o c k hk
  · cases hk

/-- The calls of a step that handles no frame are plain. -/
theorem calls_plain {inp : Input} (h : inp ≠ .rxWork) :
    ∀ k ∈ calls psa o c inp, k.deed.Plain := by
  intro k hk
  cases inp with
  | rxWork => exact absurd rfl h
  | schedWork => exact pickCalls_plain psa o c k hk
  | finishWork o' =>
    change k ∈ finishCalls psa o o' c at hk
    unfold finishCalls at hk
    split at hk
    · cases hk
    · rw [List.mem_append] at hk
      rcases hk with hk | hk
      · exact settleCalls_plain psa o c k hk
      · exact pickCalls_plain psa o' _ k hk
  | refused =>
    change k ∈ failedCalls o c at hk
    unfold failedCalls at hk
    split at hk
    · exact (missCalls_mild o c _ k hk).1
    · cases hk
  | tick | start | backhaulSet =>
    rw [calls, List.mem_singleton] at hk
    subst hk
    trivial
  | stop =>
    change k ∈ (if !c.started then [] else stopCalls o (List.finRange cfg.maxNeighbors) c) at hk
    split at hk
    · cases hk
    · exact (stopCalls_mild o _ c k hk).1
  | granted | txDone | rxDone | rxFailed | send | tuningSet => cases hk

/-! ## Runs -/

/-- A step all of whose calls meet the condition `K`. -/
def StepMeeting (psa : Psa) (K : Call cfg → Prop) (c c' : Node cfg) : Prop :=
  ∃ inp o, Enabled c inp ∧ (∀ k ∈ calls psa o c inp, K k) ∧ perform psa o c inp = some c'

/-- The states of the runs in which every call meets the condition `K`. -/
def ReachableMeeting (psa : Psa) (ident : Identity) (K : Call cfg → Prop) (c : Node cfg) : Prop :=
  Relation.ReflTransGen (StepMeeting psa K) (Node.boot cfg ident) c

section

variable {ident : Identity} {K : Call cfg → Prop} {P : Node cfg → Prop}

theorem StepMeeting.step (h : StepMeeting psa K c c') : Step psa c c' := by
  obtain ⟨inp, o, he, -, hp⟩ := h
  exact ⟨inp, o, he, hp⟩

theorem ReachableMeeting.reachable (h : ReachableMeeting psa ident K c) :
    Reachable psa ident c := h.lift id fun _ _ => StepMeeting.step

theorem Reachable.meeting (h : Reachable psa ident c) :
    ReachableMeeting psa ident (fun _ => True) c := by
  refine h.lift id ?_
  rintro c c' ⟨inp, o, he, hp⟩
  exact ⟨inp, o, he, fun _ _ => trivial, hp⟩

/-- What steady work and the calls that meet `K` keep, the runs made of them keep. -/
theorem ReachableMeeting.keeps (h : ReachableMeeting psa ident K c)
    (hboot : P (Node.boot cfg ident))
    (hsteady : ∀ {c c'}, Steady c c' → P c → P c')
    (hcall : ∀ k d, K k → k.Fits → k.result psa = some d → P k.node → P d) : P c := by
  induction h with
  | refl => exact hboot
  | tail hr hs ih =>
    obtain ⟨inp, o, -, hk, hp⟩ := hs
    have hc := (ReachableMeeting.reachable hr).hsUnlinked
    exact (perform_does hc hp).keeps ih hsteady fun k hmem d => hcall k d (hk k hmem)

variable (psa K) [DecidablePred K]

/-- Take the given steps while all their calls meet `K`. -/
def runMeeting (c : Node cfg) : List (Oracle × Input) → Option (Node cfg)
  | [] => some c
  | (o, inp) :: rest =>
    if Enabled c inp ∧ ∀ k ∈ calls psa o c inp, K k then
      (perform psa o c inp).bind fun c' => runMeeting c' rest
    else none

variable {psa K}

theorem runMeeting_steps {inputs : List (Oracle × Input)}
    (h : runMeeting psa K c inputs = some c') :
    Relation.ReflTransGen (StepMeeting psa K) c c' := by
  induction inputs generalizing c with
  | nil =>
    cases h
    exact .refl
  | cons oi rest ih =>
    obtain ⟨o, inp⟩ := oi
    rw [runMeeting] at h
    split at h
    · next he =>
      obtain ⟨d, hd, h⟩ := Option.bind_eq_some_iff.mp h
      exact .head ⟨inp, o, he.1, he.2, hd⟩ (ih h)
    · cases h

theorem exists_reachableMeeting (psa : Psa) (ident : Identity) (inputs : List (Oracle × Input))
    (p : Node cfg → Bool) (h : (runMeeting psa K (Node.boot cfg ident) inputs).any p = true) :
    ∃ c, ReachableMeeting psa ident K c ∧ p c = true := by
  cases hr : runMeeting psa K (Node.boot cfg ident) inputs with
  | none => simp [hr] at h
  | some c => exact ⟨c, runMeeting_steps hr, by simpa [hr] using h⟩

end

/-! ## What calls do to entries -/

theorem alloc_entry (c : Node cfg) (src : Addr) (j : Fin cfg.maxNeighbors) :
    (lgNeighAlloc c src).2.neigh j = c.neigh j ∧ (lgNeighAlloc c src).2.view j = c.view j ∨
      (c.neigh j).state = .free ∧ (lgNeighAlloc c src).2.neigh j = .fresh src ∧
        (lgNeighAlloc c src).2.view j = .fresh := by
  rcases lgNeighAlloc_cases c src with ⟨h, -⟩ | ⟨k, hk, -, h⟩ <;> rw [h]
  · exact .inl ⟨rfl, rfl⟩
  · by_cases hj : j = k
    · subst hj
      refine .inr ⟨hk, ?_, ?_⟩ <;> simp [Node.setView, Node.note]
    · refine .inl ⟨?_, ?_⟩ <;> simp [Node.setView, Node.note, Node.setNeigh, hj]

theorem free_entry (c : Node cfg) (i j : Fin cfg.maxNeighbors) :
    j = i ∧ (lgNeighFree c i).neigh j = {} ∧ (lgNeighFree c i).view j = {} ∨
      j ≠ i ∧ (lgNeighFree c i).neigh j = c.neigh j ∧ (lgNeighFree c i).view j = c.view j := by
  by_cases hj : j = i
  · subst hj
    refine .inl ⟨rfl, ?_, ?_⟩ <;> simp [lgNeighFree_eq, Node.setView, Node.note]
  · refine .inr ⟨hj, ?_, ?_⟩ <;> simp [lgNeighFree_eq, Node.setView, Node.note, Node.setNeigh, hj]

/-- Work of a handshake on entry `i`, which comes out of it in use and not linked. -/
structure Engages (i : Fin cfg.maxNeighbors) (c c' : Node cfg) : Prop where
  rest : c'.rest = c.rest
  others : ∀ j, j ≠ i → c'.neigh j = c.neigh j
  addr : (c'.neigh i).addr = (c.neigh i).addr
  occupied : (c'.neigh i).state ≠ .free
  unlinked : (c'.neigh i).state ≠ .linked

namespace Engages

theorem stance (h : Engages i c c') : c'.stance = c.stance := congrArg Prod.fst h.rest

theorem refl (hf : (c.neigh i).state ≠ .free) (hl : (c.neigh i).state ≠ .linked) :
    Engages i c c := ⟨rfl, fun _ _ => rfl, rfl, hf, hl⟩

theorem trans (h : Engages i c c') (h' : Engages i c' c'') : Engages i c c'' :=
  ⟨h'.rest.trans h.rest, fun j hj => (h'.others j hj).trans (h.others j hj),
    h'.addr.trans h.addr, h'.occupied, h'.unlinked⟩

theorem of_tends (h : Tends i c c') (hs : c'.rest = c.rest) (hf : (c.neigh i).state ≠ .free)
    (hl : (c.neigh i).state ≠ .linked) : Engages i c c' :=
  ⟨hs, h.others, h.addr, by rwa [h.state], by rwa [h.state]⟩

theorem setState (c : Node cfg) (i : Fin cfg.maxNeighbors) {s : NeighState} (hf : s ≠ .free)
    (hl : s ≠ .linked) : Engages i c (c.setNeigh i { c.neigh i with state := s }) := by
  refine ⟨rfl, fun j hj => ?_, ?_, ?_, ?_⟩
  · simp [hj]
  · simp
  · simpa using hf
  · simpa using hl

/-- An entry that is linked afterwards is as it was. -/
theorem linked (h : Engages i c c') {j : Fin cfg.maxNeighbors}
    (hj : (c'.neigh j).state = .linked) : c'.neigh j = c.neigh j := by
  refine h.others j fun hji => h.unlinked ?_
  rw [← hji]
  exact hj

end Engages

theorem openContext_engages (c : Node cfg) (i : Fin cfg.maxNeighbors) (resuming : Bool)
    (airStartUs : ℕ) : Engages i c (openContext c i resuming airStartUs) := by
  refine ⟨rfl, fun j hj => ?_, ?_, ?_, ?_⟩
  · simp [openContext, Node.setHs, hj]
  all_goals simp [openContext, Node.setHs]

theorem joinFail_engages (c : Node cfg) (i : Fin cfg.maxNeighbors) :
    Engages i c (joinFail c i) := by
  have hs := joinFail_serves c i
  have hstate : ((joinFail c i).neigh i).state = .lost ∨
      ((joinFail c i).neigh i).state = .heard := by
    simp only [joinFail_eq, Node.setHs, Node.setNeigh_neigh, Function.update_self]
    split
    · exact .inl rfl
    · exact .inr rfl
  refine ⟨joinFail_rest c i, hs.others, hs.addr, ?_, ?_⟩ <;>
    rcases hstate with h | h <;> rw [h] <;> simp

/-- What has become of a handshake that `lg_join_start` was to begin about entry `i`. -/
inductive Starts (i : Fin cfg.maxNeighbors) (c c' : Node cfg) : Prop
  | refused (about : c'.hs.n = c.hs.n) (state : (c'.neigh i).state = (c.neigh i).state)
  | began (about : c'.hs.n = some i) (state : (c'.neigh i).state = .joining)
  | failed (about : c'.hs.n = none) (state : (c'.neigh i).state ≠ .joining)

theorem joinFail_ends (c : Node cfg) (i : Fin cfg.maxNeighbors) :
    (joinFail c i).hs.n = none ∧ ((joinFail c i).neigh i).state ≠ .joining := by
  refine ⟨rfl, ?_⟩
  simp only [joinFail_eq, Node.setHs, Node.setNeigh_neigh, Function.update_self]
  split <;> simp

/-- What `lg_join_start` does: nothing but to its own entry, and not during a handshake with
another. -/
structure Embarks (i : Fin cfg.maxNeighbors) (c c' : Node cfg) : Prop extends Engages i c c' where
  begins : Starts i c c'
  busy : c.hs.n ≠ none → c.hs.n ≠ some i →
    c'.hs.n = c.hs.n ∧ (c'.neigh i).state = (c.neigh i).state

theorem lgJoinStart_embarks (o : Oracle) (hf : (c.neigh i).state ≠ .free)
    (hl : (c.neigh i).state ≠ .linked) : Embarks i c (lgJoinStart o c i).2 := by
  have hnone : Embarks i c c := ⟨.refl hf hl, .refused rfl rfl, fun _ _ => ⟨rfl, rfl⟩⟩
  unfold lgJoinStart
  dsimp only
  split
  · exact hnone
  · next hbusy =>
    split
    · exact hnone
    · next j _ =>
      have hfree : c.hs.n ≠ none → c.hs.n ≠ some i → False := fun h h' => hbusy ⟨h, h'⟩
      have ht := setJoin_tends c i j
      have hj : Engages i c (c.setJoin i j) := .of_tends ht rfl hf hl
      split
      · exact ⟨hj, .refused ht.about ht.state, fun h h' => (hfree h h').elim⟩
      · split
        · exact ⟨hj, .refused ht.about ht.state, fun h h' => (hfree h h').elim⟩
        · let hs : Hs cfg := {
            n := some i
            joiner := true
            t0Us := j.joinNextUs + j.joinSpreadUs
            resuming := (c.neigh i).keys.hasLtk
            slotLimit := slotLimit (c.neigh i).keys.hasLtk }
          let e : Node cfg := (c.setJoin i j).setHs hs
          have he : Engages i c e := ⟨rfl, hj.others, hj.addr, hj.occupied, hj.unlinked⟩
          obtain ⟨r, hr⟩ : ∃ r, r = if (c.neigh i).keys.hasLtk = true then buildResumeReq o e i
            else buildJoinReq o e i := ⟨_, rfl⟩
          have hb : Tends i e r.2 ∧ r.2.rest = e.rest := by
            rw [hr]
            split
            · exact ⟨buildResumeReq_tends o e i, buildResumeReq_rest o e i⟩
            · exact ⟨buildJoinReq_tends o e i, buildJoinReq_rest o e i⟩
          have hbuilt := he.trans (.of_tends hb.1 hb.2 he.occupied he.unlinked)
          rw [← hr]
          obtain ⟨err | v, d'⟩ := r
          · obtain ⟨habout, hstate⟩ := joinFail_ends d' i
            exact ⟨hbuilt.trans (joinFail_engages d' i), .failed habout hstate,
              fun h h' => (hfree h h').elim⟩
          · have hset := hbuilt.trans (.setState d' i (s := .joining) nofun nofun)
            refine ⟨⟨hset.rest, hset.others, hset.addr, hset.occupied, hset.unlinked⟩,
              .began hb.1.about ?_, fun h h' => (hfree h h').elim⟩
            simp [Node.note]

/-- The table of the neighbours, but for what it holds of the links, and what the handshake is
about are as they were. -/
structure Placed (c c' : Node cfg) : Prop where
  about : c'.hs.n = c.hs.n
  state : ∀ i, (c'.neigh i).state = (c.neigh i).state
  addr : ∀ i, (c'.neigh i).addr = (c.neigh i).addr

namespace Placed

theorem refl (c : Node cfg) : Placed c c := ⟨rfl, fun _ => rfl, fun _ => rfl⟩

theorem trans (h : Placed c c') (h' : Placed c' c'') : Placed c c'' :=
  ⟨h'.about.trans h.about, fun i => (h'.state i).trans (h.state i),
    fun i => (h'.addr i).trans (h.addr i)⟩

theorem of_quiet (h : Node.Quiet c c') : Placed c c' := by
  obtain ⟨net, view, rfl⟩ := h
  exact ⟨rfl, fun _ => rfl, fun _ => rfl⟩

theorem setSched (c : Node cfg) (i : Fin cfg.maxNeighbors) (s : Schedule) :
    Placed c (c.setNeigh i { c.neigh i with sched := s }) := by
  refine ⟨rfl, fun j => ?_, fun j => ?_⟩ <;> by_cases hj : j = i <;> simp [Node.setNeigh, hj]

end Placed

theorem Steady.placed (h : Steady c c') : Placed c c' := ⟨h.about, h.state, h.addr⟩

/-- A control frame that is neither an advertisement nor a teardown bears on the times and the
routes of a node only. -/
theorem handleCtrl_placed (o : Oracle) (c : Node cfg) (i : Fin cfg.maxNeighbors) {body : Bytes}
    (hadv : getByte body 0 ≠ ctrlRouteAdv) (hdown : getByte body 0 ≠ ctrlTeardown) :
    Placed c (handleCtrl o c i body) ∧ (handleCtrl o c i body).stance = c.stance := by
  rcases handleCtrl_cases o c i body with h | ⟨s, h, -, -⟩ | ⟨hop, -⟩ | ⟨-, h⟩ | ⟨hop, -⟩
  · rw [h]
    exact ⟨.refl c, rfl⟩
  · rw [h]
    exact ⟨.setSched c i s, rfl⟩
  · exact absurd hop hadv
  · rw [h]
    exact ⟨.of_quiet (lgRouteHandleReg_quiet c i body), lgRouteHandleReg_stance c i body⟩
  · exact absurd hop hdown

theorem subrateUpdateLink_placed (c : Node cfg) (i : Fin cfg.maxNeighbors) :
    Placed c (subrateUpdateLink c i) ∧ (subrateUpdateLink c i).stance = c.stance := by
  have hp : Placed c (lgTxqPeek c (c.neigh i).addr).2 := .of_quiet (lgTxqPeek_quiet c _)
  have hn : (lgTxqPeek c (c.neigh i).addr).2.neigh i = c.neigh i := by
    rw [(lgTxqPeek_quiet c _).neigh]
  unfold subrateUpdateLink
  dsimp only
  split
  · exact ⟨.refl c, rfl⟩
  · refine ⟨?_, (lgTxqPeek_steady c _).stance⟩
    have hs := hp.trans (.setSched _ i
      (subrateUpdate (lgTxqPending c (c.neigh i).addr).1 (c.view i).consecMisses
        (c.neigh i).sched))
    rw [hn] at hs
    exact hs

/-- The calls that move an entry, or the handshake to another. -/
def Deed.Moves : Deed cfg → Prop
  | .alloc _ | .free _ | .begin _ | .fail _ | .close | .openContext .. | .establish .. | .down _
    | .start => True
  | _ => False

/-- `lg_link_stage_tx` builds an advertisement. -/
def AdvDue (c : Node cfg) (i : Fin cfg.maxNeighbors) : Prop :=
  (c.neigh i).state = .linked ∧ (c.neigh i).keys.hasKey = true ∧
    (c.neigh i).sched.pendingCtrl.any = false ∧
    ((c.net.advUrgent = true ∧ (c.view i).advUrgentDone = false) ∨
      routeAdvPeriodUs < c.nowUs - (c.view i).routeAdvUs)

theorem stageSeal_steady (psa : Psa) (ok : Bool) (c : Node cfg) (i : Fin cfg.maxNeighbors)
    (t : FrameType) (more : Bool) (body : Bytes) (staged : Staged) :
    Steady c (stageSeal psa ok c i t more body staged).2 := by
  unfold stageSeal
  dsimp only
  have hs : Steady c (c.setNeigh i { c.neigh i with
      tx := { (c.neigh i).tx with txSeq := (c.neigh i).tx.txSeq + 1 } }) := setTx_steady c i _
  split <;> next he =>
    have hd := hs.trans
      (congrArg Prod.snd he ▸ (lgSecEncrypt_still (r := fun _ => True) psa ok _ i _ _).toSteady)
    exact hd.trans (setTx_steady _ i _)

theorem setTx_state (c : Node cfg) (i : Fin cfg.maxNeighbors) (t : TxStage)
    (j : Fin cfg.maxNeighbors) : ((c.setTx i t).neigh j).state = (c.neigh j).state := by
  by_cases hj : j = i
  · subst hj
    simp [Node.setTx]
  · simp [Node.setTx, hj]

theorem noteAdvertised_setTx (c : Node cfg) (i : Fin cfg.maxNeighbors) (t : TxStage) :
    noteAdvertised (c.setTx i t) i = (noteAdvertised c i).setTx i t := by
  have hany : ∀ v : Fin cfg.maxNeighbors → View,
      ((List.finRange cfg.maxNeighbors).any fun j =>
        ((c.setTx i t).neigh j).state = .linked && !(v j).advUrgentDone) =
      (List.finRange cfg.maxNeighbors).any fun j =>
        (c.neigh j).state = .linked && !(v j).advUrgentDone := by
    intro v
    simp only [setTx_state]
  exact congrArg (fun b => { (c.setTx i t).setView i { (c.setTx i t).view i with
    routeAdvUs := (c.setTx i t).nowUs, advUrgentDone := true } with
      net := { c.net with advUrgent := b } }) (hany _)

/-- Staging is steady work, but for what `lg_link_stage_tx` notes of an advertisement. -/
theorem lgLinkStageTx_steady (psa : Psa) (ok : Bool) (c : Node cfg) (i : Fin cfg.maxNeighbors) :
    AdvDue c i ∧ Steady (noteAdvertised c i) (lgLinkStageTx psa ok c i).2 ∨
      ¬ AdvDue c i ∧ Steady c (lgLinkStageTx psa ok c i).2 := by
  unfold lgLinkStageTx
  dsimp only
  split
  · next hno =>
    refine .inr ⟨fun hdue => ?_, .refl c⟩
    rcases hno with hl | hk
    · exact hl hdue.1
    · simp [hdue.2.1] at hk
  · next hyes =>
    simp only [not_or, not_not, Bool.not_eq_true', Bool.not_eq_false] at hyes
    split
    · next hctrl =>
      refine .inr ⟨fun hdue => ?_, (setTx_steady c i _).trans (stageSeal_steady psa ok _ i _ _ _ _)⟩
      rw [hdue.2.2.1] at hctrl
      cases hctrl
    · next hctrl =>
      have ht := setTx_steady c i { (c.neigh i).tx with txWasCtrl := false }
      split
      · next hdue =>
        refine .inl ⟨⟨hyes.1, hyes.2, by simpa using hctrl, ?_⟩, ?_⟩
        · rw [Bool.or_eq_true, decide_eq_true_eq] at hdue
          simpa [Node.setTx, Node.setNeigh] using hdue
        · refine .trans ?_ (stageSeal_steady psa ok _ i _ _ _ _)
          rw [noteAdvertised_setTx]
          exact setTx_steady _ i _
      · next hdue =>
        refine .inr ⟨fun h => hdue ?_, ?_⟩
        · rw [Bool.or_eq_true, decide_eq_true_eq]
          simpa [Node.setTx, Node.setNeigh] using h.2.2.2
        · have hp := lgTxqPeek_steady (c.setTx i { (c.neigh i).tx with txWasCtrl := false })
            (c.neigh i).addr
          rcases he : lgTxqPeek (c.setTx i { (c.neigh i).tx with txWasCtrl := false })
            (c.neigh i).addr with ⟨_ | k, d⟩
          · rw [he] at hp
            exact (ht.trans hp).trans ((setTx_steady _ i _).trans
              (stageSeal_steady psa ok _ i _ _ _ _))
          · rw [he] at hp
            have hq := (ht.trans hp).trans (lgTxqPeek_steady d (c.neigh i).addr)
            exact hq.trans ((setTx_steady _ i _).trans (stageSeal_steady psa ok _ i _ _ _ _))

/-- The other calls leave all entries where they are. -/
theorem Call.result_placed {k : Call cfg} (hm : ¬ k.deed.Moves) (hf : k.Fits)
    (h : k.result psa = some d) : Placed k.node d := by
  obtain ⟨o, c, deed⟩ := k
  cases deed with
  | alloc | free | begin | fail | close | openContext | establish | down | start =>
    exact absurd trivial hm
  | adv i buf =>
    cases h
    exact .of_quiet (lgRouteHandleAdv_quiet o c i buf)
  | ctrl i body =>
    cases h
    exact (handleCtrl_placed o c i hf.2.1 hf.2.2).1
  | role =>
    cases h
    exact .of_quiet (lgRoleEvaluate_quiet o c)
  | advance i =>
    cases h
    exact .setSched c i _
  | subrate i =>
    cases h
    exact (subrateUpdateLink_placed c i).1
  | stage i =>
    cases h
    rcases lgLinkStageTx_steady psa (o.ok .encrypt) c i with ⟨-, hs⟩ | ⟨-, hs⟩
    · exact .trans (.of_quiet (noteAdvertised_quiet c i)) hs.placed
    · exact hs.placed
  | tick us | halt =>
    cases h
    exact ⟨rfl, fun _ => rfl, fun _ => rfl⟩
  | uplink up =>
    cases h
    exact .of_quiet (lgBackhaulSet_quiet o c up)

end LockGrid
