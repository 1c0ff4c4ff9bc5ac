import LockGrid.Link

/-!
# Handshakes

`lg_join.c`: the messages of a handshake, their fragments, and the slots they travel in. A
handler that fails leaves what it changed before; `lg_join_rx_pdu` then ends the handshake.
-/
namespace LockGrid

variable {cfg : Config}

def joinSlotUs : ℕ := 40000
def joinRxMarginUs : ℕ := 1500
def fragGapUs : ℕ := 500
def joinMaxRetries : ℕ := 3
def joinBackoffUs : ℕ := 10 * 1000000
def fragHdrLen : ℕ := 2
def joinSlotLenUs : ℕ := 20000
def joinWindowLenUs : ℕ := 40000
def joinIdleLimit : ℕ := 8
def joinIdleLimitResume : ℕ := 5

/-- Payload capacity of one handshake fragment. -/
def fragCap (cfg : Config) (sec : Bool) : ℕ :=
  if sec then pduMax - cfg.secOverhead - fragHdrLen else pduMax - hdrLen - fragHdrLen

/-! ## Transcript and key derivation -/

/-- "LockGrid link v1" -/
def infoLink : Bytes := [76, 111, 99, 107, 71, 114, 105, 100, 32, 108, 105, 110, 107, 32, 118, 49]
/-- "LockGrid ltk v1" -/
def infoLtk : Bytes := [76, 111, 99, 107, 71, 114, 105, 100, 32, 108, 116, 107, 32, 118, 49]
/-- "LockGrid resume v1" -/
def infoResume : Bytes :=
  [76, 111, 99, 107, 71, 114, 105, 100, 32, 114, 101, 115, 117, 109, 101, 32, 118, 49]

/-- Everything both ends must agree on, as it is hashed. -/
def transcriptMsg (networkId : UInt32) (addrJ addrR : Addr) (nonceJ nonceR pubJ pubR : Bytes) :
    Bytes :=
  putLe32 networkId ++ putLe16 addrJ ++ putLe16 addrR ++ nonceJ ++ nonceR ++ pubJ ++ pubR

/-- Derive the session key and the long term key from one shared secret. -/
def deriveKeys (psa : Psa) (o : Oracle) (c : Node cfg) (i : Fin cfg.maxNeighbors)
    (secret transcript : Bytes) : Except Err Unit × Node cfg :=
  match lgSecKdf psa (o.ok .kdfLink) secret transcript infoLink with
  | .error e => (.error e, c)
  | .ok linkKey =>
    match lgSecKdf psa (o.ok .kdfLtk) secret transcript infoLtk with
    | .error e => (.error e, c)
    | .ok ltk =>
      lgSecInstallKey (o.ok .importKey)
        ((c.setKeys i { (c.neigh i).keys with ltk := ltk, hasLtk := true }).note i (.derived ltk))
        i linkKey

def resumeSalt (own peer : Addr) (nonceJ : Bytes) : Bytes :=
  nonceJ ++ putLe16 (min own peer) ++ putLe16 (max own peer)

/-- Session key for a resumption, bound to the joiner's fresh nonce. -/
def deriveResumeKey (psa : Psa) (o : Oracle) (c : Node cfg) (i : Fin cfg.maxNeighbors)
    (nonceJ : Bytes) : Except Err Unit × Node cfg :=
  let n := c.neigh i
  match lgSecKdf psa (o.ok .kdfResume) n.keys.ltk (resumeSalt c.ident.addr n.addr nonceJ)
      infoResume with
  | .error e => (.error e, c)
  | .ok key =>
    let hist := { c.hist with
      resumeDerived := (n.keys.ltk, nonceJ, n.addr) :: c.hist.resumeDerived }
    lgSecInstallKey (o.ok .importKey) { c with hist := hist } i key

def linkParamsFill (o : Oracle) (c : Node cfg) : LinkParams :=
  let t := c.net.tune
  { intervalUs := UInt32.ofNat t.connIntervalUs
    anchorOffsetUs := UInt32.ofNat (t.connIntervalUs * 2)
    chanMap := c.net.chanMap
    hopSeed := o.seed
    supTimeoutCs := UInt16.ofNat (t.supTimeoutUs / 10000)
    subrateMax := UInt8.ofNat t.subrateMax
    scaPpm := UInt16.ofNat cfg.clockAccuracyPpm
    role := c.net.role.code
    rank := UInt16.ofNat c.net.rank }

/-! ## Message staging and fragments -/

def stageMessage (hs : Hs cfg) (t : FrameType) (sec : Bool) (msg : Bytes) : Hs cfg :=
  let cap := fragCap cfg sec
  { hs with
    oweTx := true
    txType := t
    txSecured := sec
    tx := msg
    fragIdx := 0
    fragTotal := max 1 ((msg.length + cap - 1) / cap) }

/-- Fragment `idx` of the staged message, empty when it cannot be sealed. -/
def buildFragment (psa : Psa) (o : Oracle) (c : Node cfg) (idx : ℕ) : Bytes × Node cfg :=
  match c.hs.n with
  | none => ([], c)
  | some i =>
    let n := c.neigh i
    let cap := fragCap cfg c.hs.txSecured
    let pdu := lgFrameHdrPut c.ident.netid16 (fcfOf c.hs.txType c.hs.txSecured) n.tx.txSeq n.addr
        c.ident.addr ++
      [UInt8.ofNat idx, UInt8.ofNat c.hs.fragTotal] ++ slice c.hs.tx (idx * cap) cap
    let c := c.setTx i { n.tx with txSeq := n.tx.txSeq + 1 }
    if c.hs.txSecured then
      match lgSecEncrypt psa (o.ok .encrypt) c i pdu hdrLenSec with
      | (.error _, c) => ([], c)
      | (.ok pdu, c) => (pdu, c)
    else (pdu, c)

/-- Put a fragment into the reassembly buffer; `key` is the key it was opened under. -/
def Xfer.add (rx : Xfer) (off idx total : ℕ) (chunk : Bytes) (key : Option Bytes) : Xfer :=
  { buf := splice rx.buf off chunk
    len := if idx = total - 1 then off + chunk.length else rx.len
    fragsSeen := rx.fragsSeen ||| 2 ^ idx
    histSources := key :: rx.histSources }

/-- The reassembly half of `reassemble`, on an opened frame: whether a message is complete. -/
def addFragment (c : Node cfg) (t : FrameType) (sec : Bool) (key : Option Bytes) (pdu : Bytes) :
    Bool × Node cfg :=
  let hdr := if sec then hdrLenSec else hdrLen
  if pdu.length < hdr + fragHdrLen then (false, c)
  else
    let idx := (getByte pdu hdr).toNat
    let total := (getByte pdu (hdr + 1)).toNat
    let chunk := pdu.drop (hdr + fragHdrLen)
    let off := idx * fragCap cfg sec
    if total = 0 ∨ 8 < total ∨ total ≤ idx then (false, c)
    else if xferMax < off + chunk.length then (false, c)
    else
      let rx := if c.hs.rxType ≠ t ∨ idx = 0 then {} else c.hs.rx
      let rx := rx.add off idx total chunk key
      (rx.fragsSeen = 2 ^ total - 1 && rx.len ≠ 0,
        c.setHs { c.hs with rxType := t, rx := rx })

def reassemble (psa : Psa) (o : Oracle) (c : Node cfg) (i : Fin cfg.maxNeighbors) (t : FrameType)
    (pdu : Bytes) : Bool × Node cfg :=
  if secured (getByte pdu offFcf) then
    match lgSecDecrypt psa (o.ok .decrypt) c i pdu with
    | (.error _, c) => (false, c)
    | (.ok pdu, c) => addFragment c t true (c.neigh i).keys.keyId pdu
  else addFragment c t false none pdu

/-- The message in the reassembly buffer. -/
def Xfer.msg (rx : Xfer) : Bytes := slice rx.buf 0 rx.len

/-! ## Handshake steps -/

def joinFail (c : Node cfg) (i : Fin cfg.maxNeighbors) : Node cfg :=
  let c := if c.hs.joiner then c.note i (.failed c.hs.resuming) else c
  let c := lgSecForgetKey c i
  let n := c.neigh i
  let retries := (n.join.joinRetries + 1) % 256
  let c := c.setNeigh i { n with
    state := if n.keys.hasLtk then .lost else .heard
    join := { n.join with
      joinRetries := retries
      joinBackoffUs := if joinMaxRetries ≤ retries then c.nowUs + joinBackoffUs
        else n.join.joinBackoffUs } }
  c.setHs {}

/-- All that `join_fail` does, the forgetting of the key written out. -/
theorem joinFail_eq (c : Node cfg) (i : Fin cfg.maxNeighbors) : joinFail c i =
    let n := c.neigh i
    let retries := (n.join.joinRetries + 1) % 256
    let c := if c.hs.joiner then c.note i (.failed c.hs.resuming) else c
    let c := (c.destroyKey i).setNeigh i { n with
      state := if n.keys.hasLtk then .lost else .heard
      keys := n.keys.forget
      join := { n.join with
        joinRetries := retries
        joinBackoffUs := if joinMaxRetries ≤ retries then c.nowUs + joinBackoffUs
          else n.join.joinBackoffUs } }
    c.setHs {} := by
  have hsame : (if c.hs.joiner then c.note i (.failed c.hs.resuming) else c).neigh = c.neigh := by
    split <;> rfl
  unfold joinFail
  dsimp only
  rw [lgSecForgetKey_setNeigh, lgSecForgetKey_self, hsame]
  rfl

/-- Nothing is written but the table, the handshake and the record of the keys. -/
theorem joinFail_table (c : Node cfg) (i : Fin cfg.maxNeighbors) :
    ∃ neigh live dealings, joinFail c i = { c with
      neigh := neigh, hs := {}, hist := { c.hist with live := live, dealings := dealings } } := by
  rw [joinFail_eq]
  dsimp only
  split
  · exact ⟨_, _, _, rfl⟩
  · exact ⟨_, _, c.hist.dealings, rfl⟩

def Node.setJoin (c : Node cfg) (i : Fin cfg.maxNeighbors) (j : JoinInfo) : Node cfg :=
  c.setNeigh i { c.neigh i with join := j }

/-- Draw a nonce for neighbour `i`. -/
def drawNonce (o : Oracle) (c : Node cfg) (i : Fin cfg.maxNeighbors) : Node cfg :=
  { c.setJoin i { (c.neigh i).join with nonceLocal := o.nonce } with
    hist := { c.hist with nonces := o.nonce :: c.hist.nonces } }

/-- Generate the ephemeral key pair of this exchange. -/
def drawKeypair (o : Oracle) (c : Node cfg) : Node cfg :=
  c.setHs { c.hs with ephPub := o.keypair.1, ephPriv := o.keypair.2 }

def buildJoinReq (o : Oracle) (c : Node cfg) (i : Fin cfg.maxNeighbors) :
    Except Err Unit × Node cfg :=
  if !o.ok .random then (.error .io, c)
  else
    let c := drawNonce o c i
    if !o.ok .keypair then (.error .io, c)
    else
      let c := drawKeypair o c
      let msg := (c.neigh i).join.nonceLocal ++ c.hs.ephPub ++ c.ident.cert
      (.ok (), c.setHs (stageMessage c.hs .joinReq false msg))

def joinReqLen : ℕ := nonceLen + ecPubLen + certLen
def joinRspLen : ℕ := nonceLen + ecPubLen + certLen + sigLen

/-- What a message says about its sender, once the certificate in it has been accepted. -/
def rememberPeer (c : Node cfg) (i : Fin cfg.maxNeighbors) (msg : Bytes) (info : CertInfo) :
    Node cfg :=
  let c := c.setJoin i { (c.neigh i).join with
    noncePeer := slice msg 0 nonceLen
    ephPubPeer := slice msg nonceLen ecPubLen
    peerStaticPub := info.pub }
  c.setView i { c.view i with role := info.role }

/-- `handle_join_req` up to the shared secret; returns the transcript and the secret. -/
def agreeJoinReq (psa : Psa) (o : Oracle) (c : Node cfg) (i : Fin cfg.maxNeighbors)
    (msg : Bytes) : Except Err (Bytes × Bytes) × Node cfg :=
  if msg.length ≠ joinReqLen then (.error .inval, c)
  else match lgSecCertVerify psa o c.ident (slice msg (nonceLen + ecPubLen) certLen) with
  | .error e => (.error e, c)
  | .ok info =>
    if info.addr ≠ (c.neigh i).addr then (.error .perm, c)
    else
      let c := rememberPeer c i msg info
      if !o.ok .random then (.error .io, c)
      else
        let c := drawNonce o c i
        if !o.ok .keypair then (.error .io, c)
        else
          let c := drawKeypair o c
          let n := c.neigh i
          match lgSecHash psa (o.ok .transcript) (transcriptMsg c.ident.networkId n.addr
              c.ident.addr n.join.noncePeer n.join.nonceLocal n.join.ephPubPeer c.hs.ephPub) with
          | .error e => (.error e, c)
          | .ok transcript =>
            let c := c.setJoin i { n.join with transcript := transcript }
            match lgSecEcdh psa (o.ok .ecdh) c.hs.ephPriv n.join.ephPubPeer with
            | .error e => (.error e, c)
            | .ok secret => (.ok (transcript, secret), c)

/-- Router, after slot 0: check the joiner, derive the key, build `JOIN_RSP`. -/
def handleJoinReq (psa : Psa) (o : Oracle) (c : Node cfg) (i : Fin cfg.maxNeighbors)
    (msg : Bytes) : Except Err Unit × Node cfg :=
  match agreeJoinReq psa o c i msg with
  | (.error e, c) => (.error e, c)
  | (.ok (transcript, secret), c) =>
    let hist := { c.hist with reqDerived := c.hist.reqDerived + 1 }
    match deriveKeys psa o { c with hist := hist } i secret transcript with
    | (.error e, c) => (.error e, c)
    | (.ok (), c) =>
      if !o.ok .sign then (.error .io, c)
      else
        let rsp := (c.neigh i).join.nonceLocal ++ c.hs.ephPub ++ c.ident.cert ++ o.sign transcript
        (.ok (), c.setHs (stageMessage c.hs .joinRsp false rsp))

/-- The signature over a transcript with neighbour `i` verified under `pub`. -/
def noteVerified (c : Node cfg) (i : Fin cfg.maxNeighbors) (pub transcript : Bytes) :
    Node cfg :=
  { c with hist := { c.hist with verified :=
    ⟨pub, transcript, c.hs.ephPriv, (c.neigh i).join.ephPubPeer⟩ :: c.hist.verified } }

/-- `handle_join_rsp` up to the shared secret; returns the transcript and the secret. -/
def agreeJoinRsp (psa : Psa) (o : Oracle) (c : Node cfg) (i : Fin cfg.maxNeighbors)
    (msg : Bytes) : Except Err (Bytes × Bytes) × Node cfg :=
  if msg.length ≠ joinRspLen then (.error .inval, c)
  else match lgSecCertVerify psa o c.ident (slice msg (nonceLen + ecPubLen) certLen) with
  | .error e => (.error e, c)
  | .ok info =>
    if info.addr ≠ (c.neigh i).addr then (.error .perm, c)
    else
      let c := rememberPeer c i msg info
      let n := c.neigh i
      match lgSecHash psa (o.ok .transcript) (transcriptMsg c.ident.networkId c.ident.addr
          n.addr n.join.nonceLocal n.join.noncePeer c.hs.ephPub n.join.ephPubPeer) with
      | .error e => (.error e, c)
      | .ok transcript =>
        match lgSecVerify psa (o.ok .verify) info.pub transcript
            (slice msg (nonceLen + ecPubLen + certLen) sigLen) with
        | .error e => (.error e, c)
        | .ok () =>
          let c := noteVerified (c.setJoin i { n.join with transcript := transcript }) i info.pub
            transcript
          let c := c.setHs { c.hs with histRspVerified := true }
          match lgSecEcdh psa (o.ok .ecdh) c.hs.ephPriv n.join.ephPubPeer with
          | .error e => (.error e, c)
          | .ok secret => (.ok (transcript, secret), c)

/-- Joiner, after slot 1: check the router, derive the key, build `JOIN_CFM`. -/
def handleJoinRsp (psa : Psa) (o : Oracle) (c : Node cfg) (i : Fin cfg.maxNeighbors)
    (msg : Bytes) : Except Err Unit × Node cfg :=
  match agreeJoinRsp psa o c i msg with
  | (.error e, c) => (.error e, c)
  | (.ok (transcript, secret), c) =>
    let hist := { c.hist with rspDerived := transcript :: c.hist.rspDerived }
    match deriveKeys psa o { c with hist := hist } i secret transcript with
    | (.error e, c) => (.error e, c)
    | (.ok (), c) =>
      if !o.ok .sign then (.error .io, c)
      else (.ok (), c.setHs (stageMessage c.hs .joinCfm true (o.sign transcript)))

/-- Router, after slot 2: check the joiner's signature, build `JOIN_ACK`. -/
def handleJoinCfm (psa : Psa) (o : Oracle) (c : Node cfg) (i : Fin cfg.maxNeighbors)
    (msg : Bytes) : Except Err Unit × Node cfg :=
  if msg.length ≠ sigLen then (.error .inval, c)
  else
    let n := c.neigh i
    match lgSecVerify psa (o.ok .verify) n.join.peerStaticPub n.join.transcript msg with
    | .error e => (.error e, c)
    | .ok () =>
      let c := noteVerified c i n.join.peerStaticPub n.join.transcript
      let hs := { c.hs with histCfmDone := true }
      (.ok (), c.setHs (stageMessage hs .joinAck true (linkParamsFill o c).encode))

def buildResumeReq (o : Oracle) (c : Node cfg) (i : Fin cfg.maxNeighbors) :
    Except Err Unit × Node cfg :=
  if !o.ok .random then (.error .io, c)
  else
    let c := drawNonce o c i
    (.ok (), c.setHs (stageMessage c.hs .resumeReq false (c.neigh i).join.nonceLocal))

def handleResumeReq (psa : Psa) (o : Oracle) (c : Node cfg) (i : Fin cfg.maxNeighbors)
    (msg : Bytes) : Except Err Unit × Node cfg :=
  if msg.length ≠ nonceLen ∨ !(c.neigh i).keys.hasLtk then (.error .inval, c)
  else
    let c := c.setJoin i { (c.neigh i).join with noncePeer := msg }
    match deriveResumeKey psa o c i msg with
    | (.error e, c) => (.error e, c)
    | (.ok (), c) =>
      let hs := { c.hs with histResumeDone := true }
      (.ok (), c.setHs (stageMessage hs .resumeRsp true (linkParamsFill o c).encode))

/-! ## Driving the exchange -/

/-- Forget failures whose backoff has been served; `none` while it has not. -/
def serveBackoff (now : ℕ) (j : JoinInfo) : Option JoinInfo :=
  if j.joinBackoffUs ≠ 0 then
    if now < j.joinBackoffUs then none else some { j with joinBackoffUs := 0, joinRetries := 0 }
  else some j

def slotLimit (resuming : Bool) : ℕ := if resuming then 24 else 48

/-- Start authenticating towards neighbour `i`, resuming if its key is still held. -/
def lgJoinStart (o : Oracle) (c : Node cfg) (i : Fin cfg.maxNeighbors) :
    Except Err Unit × Node cfg :=
  let n := c.neigh i
  if c.hs.n ≠ none ∧ c.hs.n ≠ some i then (.error .busy, c)
  else if n.state = .linked then (.error .already, c)
  else match serveBackoff c.nowUs n.join with
  | none => (.error .connRefused, c)
  | some j =>
    let c := c.setJoin i j
    if joinMaxRetries ≤ j.joinRetries then (.error .connRefused, c)
    else if c.ident.cert.length ≠ certLen then (.error .noKey, c)
    else
      let resuming := n.keys.hasLtk
      let c := c.setHs {
        n := some i
        joiner := true
        t0Us := j.joinNextUs + j.joinSpreadUs
        resuming := resuming
        slotLimit := slotLimit resuming }
      match if resuming then buildResumeReq o c i else buildJoinReq o c i with
      | (.error e, c) => (.error e, joinFail c i)
      | (.ok (), c) =>
        (.ok (), (c.setNeigh i { c.neigh i with state := .joining }).note i (.began c.hs.txType))

def slotTime (hs : Hs cfg) (slot : ℕ) : ℕ := hs.t0Us + slot * joinSlotUs

/-- Next slot boundary from the clock. -/
def slotNextFromClock (now : ℕ) (hs : Hs cfg) : ℕ :=
  if now ≤ hs.t0Us then 0 else min ((now - hs.t0Us) / joinSlotUs + 1) 255

def lgJoinNextUs (c : Node cfg) (i : Fin cfg.maxNeighbors) : Option ℕ :=
  if c.hs.n ≠ some i ∨ (c.neigh i).state ≠ .joining then none
  else if c.hs.slot = 0 then some (slotTime c.hs 0)
  else some (slotTime c.hs (max c.hs.slot (slotNextFromClock c.nowUs c.hs)))

def lgJoinSlotIsTx (c : Node cfg) : Bool := c.hs.n.isSome && c.hs.oweTx

def lgJoinWinNextUs (c : Node cfg) : Option ℕ :=
  if c.hs.n.isSome ∨ c.net.joinWinUs = 0 then none
  else if cfg.maxLinks ≤ lgNeighLinkedCount c then none
  else some c.net.joinWinUs

/-! ## Slot handlers -/

/-- Send fragment `idx`, or end the event when there is nothing to send. -/
def sendFragment (psa : Psa) (o : Oracle) (c : Node cfg) (idx : ℕ) : Node cfg :=
  let f := buildFragment psa o c idx
  let c := f.2.setHs { f.2.hs with lastTxLen := f.1.length }
  if f.1 = [] then lgSchedEventDone c else command o c .tx

def joinTxStart (psa : Psa) (o : Oracle) (c : Node cfg) : Node cfg :=
  if c.hs.n.isNone then lgSchedEventDone c
  else sendFragment psa o (c.setHs { c.hs with wasTx := true, fragIdx := 0 }) 0

def joinTxDone (psa : Psa) (o : Oracle) (c : Node cfg) (airEndUs : ℕ) : Node cfg :=
  let idx := c.hs.fragIdx + 1
  let c := c.setHs { c.hs with
    lastTxAirStartUs := airEndUs - airtimeUs c.hs.lastTxLen, fragIdx := idx }
  if idx < c.hs.fragTotal then sendFragment psa o c idx else lgSchedEventDone c

def joinRxStart (o : Oracle) (c : Node cfg) : Node cfg :=
  command o (c.setHs { c.hs with wasTx := false }) .rx

/-- Keep the window open for the rest of its time. -/
def listenOn (o : Oracle) (c : Node cfg) : Node cfg :=
  if c.nowUs + syncWindowUs < c.ev.closeUs then command o c .rx else lgSchedEventDone c

def joinRxDone (o : Oracle) (c : Node cfg) (rx : RxRec) : Node cfg := listenOn o (lgRxPost c rx)

def joinRxFail (o : Oracle) (c : Node cfg) (reason : RxFail) : Node cfg :=
  if reason ≠ .timeout then listenOn o c else lgSchedEventDone c

/-- Radio time that was asked for and not granted. -/
def joinAborted (c : Node cfg) : Node cfg :=
  c.setHs { c.hs with wasTx := false, progressed := false, slotRefused := true }

/-- Who owes a message after a slot. -/
def oweAfter (hs : Hs cfg) : Bool :=
  if hs.wasTx then false else if !hs.progressed then hs.tx ≠ [] else hs.oweTx

/-- The context after a slot that did not end the handshake. -/
def nextSlot (now : ℕ) (hs : Hs cfg) : Hs cfg :=
  { hs with
    oweTx := oweAfter hs
    idleSlots := if hs.progressed then 0
      else if !hs.slotRefused then (hs.idleSlots + 1) % 256 else hs.idleSlots
    slotRefused := false
    slot := max ((hs.slot + 1) % 256) (slotNextFromClock now hs)
    progressed := false }

def idleLimit (resuming : Bool) : ℕ := if resuming then joinIdleLimitResume else joinIdleLimit

/-- The record of a link that comes up on the message `t`. -/
def linkUpOf (c : Node cfg) (i : Fin cfg.maxNeighbors) (viaFrame : Bool) (t : FrameType)
    (sec : Bool) : LinkUp where
  viaFrame := viaFrame
  type := t
  secured := sec
  joiner := c.hs.joiner
  txType := c.hs.txType
  hasKey := (c.neigh i).keys.hasKey
  key := (c.neigh i).keys.keyId
  sources := c.hs.rx.histSources
  rspVerified := c.hs.histRspVerified
  cfmDone := c.hs.histCfmDone
  resumeDone := c.hs.histResumeDone

/-- The router's link, once the parameters are on air. -/
def finishRouter (o : Oracle) (c : Node cfg) (i : Fin cfg.maxNeighbors) : Option (Node cfg) :=
  let n := c.neigh i
  let pp := LinkParams.decode c.hs.tx
  let c := c.setNeigh i { n with
    histUp := some (linkUpOf c i false c.hs.txType c.hs.txSecured)
    sched := { n.sched with anchorUs := c.hs.lastTxAirStartUs + pp.anchorOffsetUs.toNat }
    join := { n.join with joinRetries := 0 } }
  (lgLinkEstablish o c i pp true).map fun c =>
    { c.setHs {} with net := { c.net with joinWinUs := 0 } }

/-- Advance to the next slot after an event finishes. -/
def lgJoinEventFinish (o : Oracle) (c : Node cfg) : Option (Node cfg) :=
  match c.hs.n with
  | none => some { c with net := { c.net with joinWinUs := 0 } }
  | some i =>
    if (c.neigh i).state ≠ .joining then some (c.setHs {})
    else if !c.hs.joiner && c.hs.wasTx &&
        (c.hs.txType = .joinAck || c.hs.txType = .resumeRsp) then
      finishRouter o c i
    else
      let c := c.setHs (nextSlot c.nowUs c.hs)
      if idleLimit c.hs.resuming ≤ c.hs.idleSlots ∨ c.hs.slotLimit ≤ c.hs.slot ∨
          (c.hs.oweTx ∧ c.hs.tx = []) then
        some (joinFail c i)
      else some c

/-! ## Frame dispatch -/

/-- Router side: the entry for a joiner that has arrived, made if there is room. -/
def admitJoiner (o : Oracle) (c : Node cfg) (src : Addr) :
    Option (Fin cfg.maxNeighbors) × Node cfg :=
  match lgNeighAlloc c src with
  | (some i, c) => (some i, c)
  | (none, c) =>
    let r := lgNeighMakeRoom o c etxOne
    if r.1 then lgNeighAlloc r.2 src else (none, r.2)

/-- A fresh context for the joiner at entry `i`. -/
def openContext (c : Node cfg) (i : Fin cfg.maxNeighbors) (resuming : Bool) (airStartUs : ℕ) :
    Node cfg :=
  let c := c.setHs {
    n := some i
    resuming := resuming
    t0Us := airStartUs
    slotLimit := slotLimit resuming }
  c.setNeigh i { c.neigh i with state := .joining }

/-- The context a frame belongs to, opened by a first message if there is none. -/
def contextFor (o : Oracle) (c : Node cfg) (t : FrameType) (src : Addr) (airStartUs : ℕ) :
    Option (Fin cfg.maxNeighbors) × Node cfg :=
  match c.hs.n with
  | some i => (if (c.neigh i).addr = src then some i else none, c)
  | none =>
    if t = .joinReq ∨ t = .resumeReq then
      match admitJoiner o c src with
      | (none, c) => (none, c)
      | (some i, c) =>
        if cfg.maxLinks ≤ lgNeighLinkedCount c then (none, c)
        else (some i, openContext c i (t = .resumeReq) airStartUs)
    else (none, c)

/-- The message was handled and its successor staged, or the handshake ends. -/
def settleStep (r : Except Err Unit × Node cfg) (i : Fin cfg.maxNeighbors) : Node cfg :=
  match r with
  | (.error _, c) => joinFail c i
  | (.ok (), c) => c.setHs { c.hs with progressed := true, rx := {} }

/-- Joiner: the link parameters have arrived. -/
def finishJoiner (o : Oracle) (c : Node cfg) (i : Fin cfg.maxNeighbors) (t : FrameType)
    (sec : Bool) (airStartUs : ℕ) : Option (Node cfg) :=
  if c.hs.rx.len ≠ linkParamsLen then some (joinFail c i)
  else
    let n := c.neigh i
    let pp := LinkParams.decode c.hs.rx.msg
    let c := c.setNeigh i { n with
      histUp := some (linkUpOf c i true t sec)
      sched := { n.sched with anchorUs := airStartUs + pp.anchorOffsetUs.toNat }
      join := { n.join with joinRetries := 0 } }
    (lgLinkEstablish o c i pp false).map fun c => c.setHs {}

/-- What a complete message of type `t` does. -/
def handleMessage (psa : Psa) (o : Oracle) (c : Node cfg) (i : Fin cfg.maxNeighbors)
    (t : FrameType) (sec : Bool) (airStartUs : ℕ) : Option (Node cfg) :=
  let msg := c.hs.rx.msg
  match t with
  | .joinReq => some (settleStep (handleJoinReq psa o c i msg) i)
  | .joinRsp => some (settleStep (handleJoinRsp psa o c i msg) i)
  | .joinCfm => some (settleStep (handleJoinCfm psa o c i msg) i)
  | .joinAck | .resumeRsp => finishJoiner o c i t sec airStartUs
  | .resumeReq =>
    match handleResumeReq psa o c i msg with
    | (.error _, c) =>
      let c := c.setKeys i { (c.neigh i).keys with hasLtk := false }
      some (joinFail (c.note i .dropped) i)
    | (.ok (), c) => some (settleStep (.ok (), c) i)
  | _ => some c

/-- Feed a received handshake frame in. -/
def lgJoinRxPdu (psa : Psa) (o : Oracle) (c : Node cfg) (t : FrameType) (rx : RxRec) :
    Option (Node cfg) :=
  match contextFor o c t (getLe16 rx.pdu offSrc) rx.airStartUs with
  | (none, c) => some c
  | (some i, c) =>
    match reassemble psa o (lgNeighRxRssi c i rx.rssi) i t rx.pdu with
    | (false, c) => some c
    | (true, c) => handleMessage psa o c i t (secured (getByte rx.pdu offFcf)) rx.airStartUs

end LockGrid
