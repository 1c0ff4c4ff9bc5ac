import LockGrid.Calls
import LockGrid.Settlement

/-!
# What is written of channels and beacons

The outcomes that are charged to channels and the copies of a beacon, with what they promise, are
written in few places. All else leaves them as they are.
-/
namespace LockGrid

variable {cfg : Config} {psa : Psa} {c c' d : Node cfg} {i : Fin cfg.maxNeighbors} {o : Oracle}

/-- The channels' records, and the beacon that is staged. -/
def Node.charts (c : Node cfg) :
    (Fin chanCount → ChanStat) × ℕ × (Fin rdvSlots → BeaconCopy) × ℕ × Bool :=
  (c.net.chan, c.net.beaconPlannedUs, c.net.beaconCopy, c.net.beaconCopyIdx,
    c.net.beaconOffersJoin)

/-! ## Routing and roles -/

@[simp] theorem setNeigh_charts (c : Node cfg) (i : Fin cfg.maxNeighbors) (n : Neigh) :
    (c.setNeigh i n).charts = c.charts := rfl

@[simp] theorem setView_charts (c : Node cfg) (i : Fin cfg.maxNeighbors) (v : View) :
    (c.setView i v).charts = c.charts := rfl

@[simp] theorem setHs_charts (c : Node cfg) (hs : Hs cfg) : (c.setHs hs).charts = c.charts := rfl

@[simp] theorem lgDiscRetune_charts (o : Oracle) (k : ℕ) (c : Node cfg) :
    (lgDiscRetune o k c).charts = c.charts := rfl

@[simp] theorem lgRouteRecompute_charts (c : Node cfg) :
    (lgRouteRecompute c).2.charts = c.charts := by
  unfold lgRouteRecompute
  split <;> rfl

@[simp] theorem lgRouteAdd_charts (c : Node cfg) (dst via : Addr) (hops : UInt8) :
    (lgRouteAdd c dst via hops).charts = c.charts := by
  unfold lgRouteAdd
  split
  · rfl
  · split
    · rfl
    · dsimp only
      split <;> rfl

@[simp] theorem lgRouteNextHop_charts (c : Node cfg) (final : Addr) (flags : UInt8) :
    (lgRouteNextHop c final flags).2.charts = c.charts := by
  change (dropDeadRoute c final flags).charts = c.charts
  unfold dropDeadRoute
  split
  · rfl
  · split
    · dsimp only
      split <;> rfl
    · rfl

@[simp] theorem gossipRecord_charts (c : Node cfg) (addr : Addr) (rank : ℕ) :
    (gossipRecord c addr rank).charts = c.charts := by
  unfold gossipRecord
  split
  · rfl
  · split <;> rfl

@[simp] theorem gossipConsiderSeeking_charts (o : Oracle) (c : Node cfg) :
    (gossipConsiderSeeking o c).charts = c.charts := by
  unfold gossipConsiderSeeking
  split
  · rfl
  · dsimp only
    split <;> rfl

@[simp] theorem advEntry_charts (peerRank : ℕ) (via : Addr) (c : Node cfg) (addr : Addr)
    (cost : ℕ) : (advEntry peerRank via c addr cost).charts = c.charts := by
  unfold advEntry
  dsimp only
  split_ifs <;> simp

theorem foldl_charts {β : Type*} (f : Node cfg → β → Node cfg)
    (hf : ∀ c b, (f c b).charts = c.charts) (l : List β) (c : Node cfg) :
    (l.foldl f c).charts = c.charts := by
  induction l generalizing c with
  | nil => rfl
  | cons b l ih =>
    rw [List.foldl_cons, ih]
    exact hf c b

@[simp] theorem lgRouteHandleAdv_charts (o : Oracle) (c : Node cfg) (i : Fin cfg.maxNeighbors)
    (buf : Bytes) : (lgRouteHandleAdv o c i buf).charts = c.charts := by
  unfold lgRouteHandleAdv
  split
  · rfl
  · dsimp only
    rw [gossipConsiderSeeking_charts, lgRouteRecompute_charts, foldl_charts _ (by simp)]
    rfl

@[simp] theorem lgRouteHandleReg_charts (c : Node cfg) (i : Fin cfg.maxNeighbors) (buf : Bytes) :
    (lgRouteHandleReg c i buf).charts = c.charts := by
  unfold lgRouteHandleReg
  split
  · rfl
  · exact foldl_charts _ (by simp) _ _

@[simp] theorem lgRouteIsDuplicate_charts (c : Node cfg) (origin : Addr) (msgId : UInt16) :
    (lgRouteIsDuplicate c origin msgId).2.charts = c.charts := by
  unfold lgRouteIsDuplicate
  split <;> rfl

@[simp] theorem applyRole_charts (o : Oracle) (c : Node cfg) (want : Role) :
    (applyRole o c want).charts = c.charts := by
  unfold applyRole
  split
  · rfl
  · rw [lgDiscRetune_charts, lgRouteRecompute_charts]
    rfl

@[simp] theorem lgRoleEvaluate_charts (o : Oracle) (c : Node cfg) :
    (lgRoleEvaluate o c).charts = c.charts := by
  rcases lgRoleEvaluate_cases o c with h | ⟨-, want, h⟩ <;> rw [h]
  exact applyRole_charts o c want

@[simp] theorem lgBackhaulSet_charts (o : Oracle) (c : Node cfg) (up : Bool) :
    (lgBackhaulSet o c up).charts = c.charts := by
  unfold lgBackhaulSet
  dsimp only
  split_ifs
  · rfl
  · rw [lgRoleEvaluate_charts]
    rfl
  · rfl

@[simp] theorem linksChanged_charts (o : Oracle) (c : Node cfg) :
    (linksChanged o c).charts = c.charts := by
  unfold linksChanged
  rw [lgDiscRetune_charts, lgRoleEvaluate_charts]
  exact lgRouteRecompute_charts c

@[simp] theorem trackResult_charts (c : Node cfg) (heard : Bool) :
    (trackResult c heard).charts = c.charts := by
  unfold trackResult
  split
  · unfold lgDiscTrackResult
    dsimp only
    split_ifs <;> rfl
  · rfl

/-! ## The queue -/

@[simp] theorem lgTxqPeek_charts (c : Node cfg) (peer : Addr) :
    (lgTxqPeek c peer).2.charts = c.charts := by
  have hnext : ∀ (c : Node cfg) (m : TxMsg), (msgNextHop c m).2.charts = c.charts := by
    intro c m
    unfold msgNextHop
    split <;> simp
  have hone : ∀ (st : Option (Fin cfg.txQueueSize) × Node cfg) k,
      (peekSlot peer st k).2.charts = st.2.charts := by
    intro st k
    have h := hnext st.2 (st.2.txq k)
    unfold peekSlot
    dsimp only
    split
    · rfl
    · split
      · exact h
      · split
        · exact h
        · split <;> exact h
  have hall : ∀ (l : List (Fin cfg.txQueueSize)) (st : Option (Fin cfg.txQueueSize) × Node cfg),
      (l.foldl (peekSlot peer) st).2.charts = st.2.charts := by
    intro l
    induction l with
    | nil => exact fun st => rfl
    | cons k l ih => exact fun st => (ih _).trans (hone st k)
  exact hall _ (none, c)

@[simp] theorem lgTxqPending_charts (c : Node cfg) (peer : Addr) :
    (lgTxqPending c peer).2.charts = c.charts := lgTxqPeek_charts c peer

@[simp] theorem lgTxqFree_charts (c : Node cfg) (k : Fin cfg.txQueueSize) :
    (lgTxqFree c k).charts = c.charts := rfl

@[simp] theorem lgSchedExpedite_charts (c : Node cfg) (i : Fin cfg.maxNeighbors) :
    (lgSchedExpedite c i).charts = c.charts := by
  obtain ⟨s, h⟩ := lgSchedExpedite_eq c i
  rw [h]
  rfl

theorem sendCopies_charts (m : TxMsg) (l : List (Fin cfg.maxNeighbors)) (st : ℕ × Node cfg) :
    (sendCopies m l st).2.charts = st.2.charts := by
  induction l generalizing st with
  | nil => rfl
  | cons i rest ih =>
    obtain ⟨sent, c⟩ := st
    rw [sendCopies]
    split
    · exact ih (sent, c)
    · split
      · rfl
      · refine (ih (sent + 1, _)).trans ?_
        rw [lgSchedExpedite_charts]
        rfl

@[simp] theorem lgSendForward_charts (c : Node cfg) (m : TxMsg) :
    (lgSendForward c m).2.charts = c.charts := by
  have hq := lgRouteNextHop_charts c m.finalDst m.flags
  unfold lgSendForward
  dsimp only
  split
  · rfl
  · split
    · rfl
    · split
      · exact sendCopies_charts m _ (0, c)
      · split
        · exact hq
        · split <;> exact hq

@[simp] theorem lgSend_charts (c : Node cfg) (dst : Addr) (port : UInt8) (payload : Bytes)
    (flags : UInt8) : (lgSend c dst port payload flags).2.charts = c.charts := by
  unfold lgSend
  dsimp only
  split <;> next hs =>
    have h := congrArg (fun r => (Prod.snd r).charts) hs
    rw [lgSendForward_charts] at h
    first
      | exact h.symm
      | split
        · split
          · rw [lgSchedExpedite_charts]
            exact h.symm
          · exact h.symm
        · exact h.symm

@[simp] theorem forwardData_charts (c : Node cfg) (m : TxMsg) :
    (forwardData c m).charts = c.charts := by
  unfold forwardData
  dsimp only
  split
  · rfl
  · split
    · split <;> simp
    · simp

/-! ## Handshakes -/

@[simp] theorem lgSecEncrypt_charts (psa : Psa) (ok : Bool) (c : Node cfg)
    (i : Fin cfg.maxNeighbors) (pdu : Bytes) (hdr : ℕ) :
    (lgSecEncrypt psa ok c i pdu hdr).2.charts = c.charts := by
  rcases lgSecEncrypt_cases psa ok c i pdu hdr with h | ⟨-, h⟩ | ⟨key, aad, plain, -, -, h⟩ <;>
    rw [h]
  · rfl
  · rfl

@[simp] theorem lgSecDecrypt_charts (psa : Psa) (ok : Bool) (c : Node cfg)
    (i : Fin cfg.maxNeighbors) (pdu : Bytes) :
    (lgSecDecrypt psa ok c i pdu).2.charts = c.charts := by
  rcases lgSecDecrypt_cases psa ok c i pdu with h | ⟨r, m, h⟩ <;> rw [h]
  rfl

theorem deriveKeys_charts (psa : Psa) (o : Oracle) (c : Node cfg) (i : Fin cfg.maxNeighbors)
    (secret transcript : Bytes) :
    (deriveKeys psa o c i secret transcript).2.charts = c.charts := by
  obtain ⟨k, ins, ds, live, -, h⟩ := deriveKeys_cases psa o c i secret transcript
  rw [h]
  rfl

theorem deriveResumeKey_charts (psa : Psa) (o : Oracle) (c : Node cfg) (i : Fin cfg.maxNeighbors)
    (nonceJ : Bytes) : (deriveResumeKey psa o c i nonceJ).2.charts = c.charts := by
  rcases deriveResumeKey_cases psa o c i nonceJ with h | ⟨k, ins, live, -, h⟩ <;> rw [h]
  rfl

@[simp] theorem setJoin_charts (c : Node cfg) (i : Fin cfg.maxNeighbors) (j : JoinInfo) :
    (c.setJoin i j).charts = c.charts := rfl

@[simp] theorem drawNonce_charts (o : Oracle) (c : Node cfg) (i : Fin cfg.maxNeighbors) :
    (drawNonce o c i).charts = c.charts := rfl

@[simp] theorem drawKeypair_charts (o : Oracle) (c : Node cfg) :
    (drawKeypair o c).charts = c.charts := rfl

@[simp] theorem rememberPeer_charts (c : Node cfg) (i : Fin cfg.maxNeighbors) (msg : Bytes)
    (info : CertInfo) : (rememberPeer c i msg info).charts = c.charts := rfl

@[simp] theorem noteVerified_charts (c : Node cfg) (i : Fin cfg.maxNeighbors)
    (pub transcript : Bytes) : (noteVerified c i pub transcript).charts = c.charts := rfl

theorem agreeJoinReq_charts (psa : Psa) (o : Oracle) (c : Node cfg) (i : Fin cfg.maxNeighbors)
    (msg : Bytes) : (agreeJoinReq psa o c i msg).2.charts = c.charts := by
  unfold agreeJoinReq
  dsimp only
  repeat' split
  all_goals simp

theorem agreeJoinRsp_charts (psa : Psa) (o : Oracle) (c : Node cfg) (i : Fin cfg.maxNeighbors)
    (msg : Bytes) : (agreeJoinRsp psa o c i msg).2.charts = c.charts := by
  unfold agreeJoinRsp
  dsimp only
  repeat' split
  all_goals simp

@[simp] theorem handleJoinReq_charts (psa : Psa) (o : Oracle) (c : Node cfg)
    (i : Fin cfg.maxNeighbors) (msg : Bytes) :
    (handleJoinReq psa o c i msg).2.charts = c.charts := by
  have ha := agreeJoinReq_charts psa o c i msg
  unfold handleJoinReq
  split
  · next he =>
    rw [he] at ha
    exact ha
  · next t secret d he =>
    rw [he] at ha
    let e : Node cfg := { d with hist := { d.hist with reqDerived := d.hist.reqDerived + 1 } }
    have hd := (deriveKeys_charts psa o e i secret t).trans ha
    dsimp only
    split <;> next hk =>
      rw [hk] at hd
      first
        | exact hd
        | split <;> exact hd

@[simp] theorem handleJoinRsp_charts (psa : Psa) (o : Oracle) (c : Node cfg)
    (i : Fin cfg.maxNeighbors) (msg : Bytes) :
    (handleJoinRsp psa o c i msg).2.charts = c.charts := by
  have ha := agreeJoinRsp_charts psa o c i msg
  unfold handleJoinRsp
  split
  · next he =>
    rw [he] at ha
    exact ha
  · next t secret d he =>
    rw [he] at ha
    let e : Node cfg := { d with hist := { d.hist with rspDerived := t :: d.hist.rspDerived } }
    have hd := (deriveKeys_charts psa o e i secret t).trans ha
    dsimp only
    split <;> next hk =>
      rw [hk] at hd
      first
        | exact hd
        | split <;> exact hd

@[simp] theorem handleJoinCfm_charts (psa : Psa) (o : Oracle) (c : Node cfg)
    (i : Fin cfg.maxNeighbors) (msg : Bytes) :
    (handleJoinCfm psa o c i msg).2.charts = c.charts := by
  unfold handleJoinCfm
  split
  · rfl
  · dsimp only
    split <;> rfl

@[simp] theorem handleResumeReq_charts (psa : Psa) (o : Oracle) (c : Node cfg)
    (i : Fin cfg.maxNeighbors) (msg : Bytes) :
    (handleResumeReq psa o c i msg).2.charts = c.charts := by
  unfold handleResumeReq
  split
  · rfl
  · dsimp only
    have hd := deriveResumeKey_charts psa o
      (c.setJoin i { (c.neigh i).join with noncePeer := msg }) i msg
    split <;> next he =>
      rw [he] at hd
      exact hd

@[simp] theorem buildJoinReq_charts (o : Oracle) (c : Node cfg) (i : Fin cfg.maxNeighbors) :
    (buildJoinReq o c i).2.charts = c.charts := by
  unfold buildJoinReq
  dsimp only
  split
  · rfl
  · split <;> rfl

@[simp] theorem buildResumeReq_charts (o : Oracle) (c : Node cfg) (i : Fin cfg.maxNeighbors) :
    (buildResumeReq o c i).2.charts = c.charts := by
  unfold buildResumeReq
  split <;> rfl

theorem buildRequest_charts (o : Oracle) (c : Node cfg) (i : Fin cfg.maxNeighbors) (b : Bool) :
    (if b then buildResumeReq o c i else buildJoinReq o c i).2.charts = c.charts := by
  cases b <;> simp

@[simp] theorem addFragment_charts (c : Node cfg) (t : FrameType) (sec : Bool)
    (key : Option Bytes) (pdu : Bytes) : (addFragment c t sec key pdu).2.charts = c.charts := by
  unfold addFragment
  dsimp only
  generalize (if sec then hdrLenSec else hdrLen) = hdr
  split
  · rfl
  · split
    · rfl
    · split <;> rfl

@[simp] theorem reassemble_charts (psa : Psa) (o : Oracle) (c : Node cfg)
    (i : Fin cfg.maxNeighbors) (t : FrameType) (pdu : Bytes) :
    (reassemble psa o c i t pdu).2.charts = c.charts := by
  have hd := lgSecDecrypt_charts psa (o.ok .decrypt) c i pdu
  unfold reassemble
  split
  · split <;> next he =>
      rw [he] at hd
      first
        | exact hd
        | exact (addFragment_charts _ t true _ _).trans hd
  · exact addFragment_charts c t false none pdu

@[simp] theorem joinFail_charts (c : Node cfg) (i : Fin cfg.maxNeighbors) :
    (joinFail c i).charts = c.charts := by
  obtain ⟨_, _, _, h⟩ := joinFail_table c i
  rw [h]
  rfl

@[simp] theorem settleStep_charts (r : Except Err Unit × Node cfg) (i : Fin cfg.maxNeighbors) :
    (settleStep r i).charts = r.2.charts := by
  unfold settleStep
  split
  · exact joinFail_charts _ i
  · rfl

/-! ## Links and entries -/

theorem lgLinkEstablish_charts {pp : LinkParams} {initiator : Bool}
    (h : lgLinkEstablish o c i pp initiator = some d) : d.charts = c.charts := by
  obtain ⟨s, -, rfl⟩ := Option.map_eq_some_iff.mp h
  rw [linksChanged_charts]
  rfl

@[simp] theorem lgLinkDown_charts (o : Oracle) (c : Node cfg) (i : Fin cfg.maxNeighbors) :
    (lgLinkDown o c i).charts = c.charts := by
  rw [lgLinkDown_eq]
  dsimp only
  split
  · rfl
  · rw [linksChanged_charts]
    rfl

@[simp] theorem lgNeighAlloc_charts (c : Node cfg) (addr : Addr) :
    (lgNeighAlloc c addr).2.charts = c.charts := by
  rcases lgNeighAlloc_cases c addr with ⟨h, -⟩ | ⟨k, -, -, h⟩ <;> rw [h]
  rfl

@[simp] theorem lgNeighFree_charts (c : Node cfg) (i : Fin cfg.maxNeighbors) :
    (lgNeighFree c i).charts = c.charts := by
  rw [lgNeighFree_eq]
  rfl

@[simp] theorem lgNeighMakeRoom_charts (o : Oracle) (c : Node cfg) (candCost : ℕ) :
    (lgNeighMakeRoom o c candCost).2.charts = c.charts := by
  unfold lgNeighMakeRoom
  dsimp only
  split
  · rfl
  · split
    · exact lgNeighFree_charts c _
    · split
      · next k _ => exact (lgNeighFree_charts _ k).trans (lgLinkDown_charts o c k)
      · rfl

@[simp] theorem admitJoiner_charts (o : Oracle) (c : Node cfg) (src : Addr) :
    (admitJoiner o c src).2.charts = c.charts := by
  have ha := lgNeighAlloc_charts c src
  unfold admitJoiner
  split <;> next he =>
    rw [he] at ha
    first
      | exact ha
      | dsimp only
        split <;> simpa using ha

@[simp] theorem contextFor_charts (o : Oracle) (c : Node cfg) (t : FrameType) (src : Addr)
    (airStartUs : ℕ) : (contextFor o c t src airStartUs).2.charts = c.charts := by
  have ha := admitJoiner_charts o c src
  unfold contextFor
  split
  · rfl
  · split
    · split <;> next he =>
        rw [he] at ha
        first
          | exact ha
          | split <;> exact ha
    · rfl

theorem handleMessage_charts {t : FrameType} {sec : Bool} {airStartUs : ℕ}
    (h : handleMessage psa o c i t sec airStartUs = some d) : d.charts = c.charts := by
  have hfinish : finishJoiner o c i t sec airStartUs = some d → d.charts = c.charts := by
    intro h
    unfold finishJoiner at h
    split at h
    · cases h
      exact joinFail_charts c i
    · obtain ⟨e, he, rfl⟩ := Option.map_eq_some_iff.mp h
      have hup := lgLinkEstablish_charts he
      rw [setNeigh_charts] at hup
      rw [setHs_charts, hup]
  unfold handleMessage at h
  dsimp only at h
  cases t with
  | joinReq | joinRsp | joinCfm =>
    cases h
    simp
  | joinAck | resumeRsp => exact hfinish h
  | resumeReq =>
    have hr := handleResumeReq_charts psa o c i c.hs.rx.msg
    dsimp only at h
    split at h <;> next he =>
      rw [he] at hr
      cases h
      first
        | exact (joinFail_charts _ i).trans hr
        | exact (settleStep_charts _ i).trans hr
  | beacon | linkReq | linkRsp | data | ack | ctrl =>
    cases h
    rfl

theorem lgJoinRxPdu_charts {t : FrameType} {rx : RxRec} (h : lgJoinRxPdu psa o c t rx = some d) :
    d.charts = c.charts := by
  have hctx := contextFor_charts o c t (getLe16 rx.pdu offSrc) rx.airStartUs
  unfold lgJoinRxPdu at h
  split at h
  · next he =>
    rw [he] at hctx
    cases h
    exact hctx
  · next i e he =>
    rw [he] at hctx
    have hre := reassemble_charts psa o (lgNeighRxRssi e i rx.rssi) i t rx.pdu
    split at h <;> next hr =>
      rw [hr] at hre
      first
        | cases h
          exact hre.trans hctx
        | exact (handleMessage_charts h).trans (hre.trans hctx)

theorem lgJoinEventFinish_charts (h : lgJoinEventFinish o c = some d) : d.charts = c.charts := by
  unfold lgJoinEventFinish at h
  split at h
  · cases h
    rfl
  · split at h
    · cases h
      rfl
    · split at h
      · obtain ⟨e, he, rfl⟩ := Option.map_eq_some_iff.mp h
        have hup := lgLinkEstablish_charts he
        rw [setNeigh_charts] at hup
        exact hup
      · dsimp only at h
        split at h <;> cases h <;> simp

@[simp] theorem lgJoinStart_charts (o : Oracle) (c : Node cfg) (i : Fin cfg.maxNeighbors) :
    (lgJoinStart o c i).2.charts = c.charts := by
  unfold lgJoinStart
  dsimp only
  split
  · rfl
  · split
    · rfl
    · split
      · rfl
      · split
        · rfl
        · split
          · rfl
          · split <;> next he =>
              have hb := congrArg (fun r => Node.charts (Prod.snd r)) he
              rw [buildRequest_charts] at hb
              first
                | exact (joinFail_charts _ i).trans hb.symm
                | exact hb.symm

/-! ## Outcomes of link events -/

/-- The records once an outcome is charged to `chan`. -/
def charge (chan : ℕ) (ok : Bool) (stats : Fin chanCount → ChanStat) : Fin chanCount → ChanStat :=
  match chanIdx chan with
  | none => stats
  | some k => Function.update stats k ((stats k).result ok)

/-- The records once the outcomes of `l` are charged, the first of them first. -/
def chargeAll (l : List (ℕ × Bool)) (stats : Fin chanCount → ChanStat) :
    Fin chanCount → ChanStat :=
  l.foldl (fun stats e => charge e.1 e.2 stats) stats

@[simp] theorem lgChanResult_charts (c : Node cfg) (chan : ℕ) (ok : Bool) :
    (lgChanResult c chan ok).charts = (chargeAll [(chan, ok)] c.net.chan, c.charts.2) := by
  simp only [lgChanResult, chargeAll, List.foldl_cons, List.foldl_nil, charge]
  cases chanIdx chan <;> rfl

theorem lgChanNoise_charts (c : Node cfg) (chan : ℕ) (dbm : ℤ) :
    (lgChanNoise c chan dbm).charts.2 = c.charts.2 := by
  unfold lgChanNoise
  split
  · rfl
  · split <;> rfl

@[simp] theorem lgNeighTxResult_charts (c : Node cfg) (i : Fin cfg.maxNeighbors) (acked : Bool) :
    (lgNeighTxResult c i acked).charts = c.charts := rfl

@[simp] theorem lgNeighRxRssi_charts (c : Node cfg) (i : Fin cfg.maxNeighbors) (rssi : ℤ) :
    (lgNeighRxRssi c i rssi).charts = c.charts := rfl

/-- The outcome a missed event charges. -/
theorem lgLinkEventMiss_charts (o : Oracle) (c : Node cfg) (i : Fin cfg.maxNeighbors) :
    (lgLinkEventMiss o c i).charts =
      (chargeAll [(lgLinkNextChan (c.neigh i).sched, false)] c.net.chan, c.charts.2) := by
  unfold lgLinkEventMiss
  dsimp only
  split
  · rw [lgLinkDown_charts, lgChanResult_charts]
    rfl
  · rw [lgChanResult_charts]
    rfl

theorem stageSeal_charts (psa : Psa) (ok : Bool) (c : Node cfg) (i : Fin cfg.maxNeighbors)
    (t : FrameType) (more : Bool) (body : Bytes) (staged : Staged) :
    (stageSeal psa ok c i t more body staged).2.charts = c.charts := by
  unfold stageSeal
  dsimp only
  split <;> next he =>
    have hs := congrArg (fun r => (Prod.snd r).charts) he
    rw [lgSecEncrypt_charts] at hs
    exact hs.symm

@[simp] theorem lgLinkStageTx_charts (psa : Psa) (ok : Bool) (c : Node cfg)
    (i : Fin cfg.maxNeighbors) : (lgLinkStageTx psa ok c i).2.charts = c.charts := by
  have hset : ∀ (c : Node cfg) (t : TxStage), (c.setTx i t).charts = c.charts := fun _ _ => rfl
  have hadv : ∀ c : Node cfg, (noteAdvertised c i).charts = c.charts := fun _ => rfl
  unfold lgLinkStageTx
  dsimp only
  split
  · rfl
  · split
    · rw [stageSeal_charts, hset]
    · split
      · rw [stageSeal_charts, hadv, hset]
      · have hpeek := lgTxqPeek_charts (c.setTx i { (c.neigh i).tx with txWasCtrl := false })
          (c.neigh i).addr
        rw [hset] at hpeek
        split <;> next he =>
          rw [he] at hpeek
          rw [stageSeal_charts, hset]
          first
            | exact hpeek
            | rw [lgTxqPending_charts]
              exact hpeek

@[simp] theorem subrateUpdateLink_charts (c : Node cfg) (i : Fin cfg.maxNeighbors) :
    (subrateUpdateLink c i).charts = c.charts := by
  unfold subrateUpdateLink
  dsimp only
  split
  · rfl
  · exact lgTxqPending_charts c (c.neigh i).addr

/-- What the settlement of a link event charges. -/
def missCharges (c : Node cfg) (i : Fin cfg.maxNeighbors) : List (ℕ × Bool) :=
  if c.evst.gotRx then [] else [(lgLinkNextChan (c.neigh i).sched, false)]

theorem settleOutcome_charts (o : Oracle) (c : Node cfg) (i : Fin cfg.maxNeighbors) :
    (settleOutcome o c i).charts = (chargeAll (missCharges c i) c.net.chan, c.charts.2) := by
  unfold settleOutcome missCharges
  cases hgot : c.evst.gotRx with
  | false => exact lgLinkEventMiss_charts o c i
  | true =>
    have hpeek := lgTxqPeek_charts c (c.neigh i).addr
    simp only [Bool.not_true, Bool.false_eq_true, if_false, if_true, chargeAll, List.foldl_nil]
    split
    · split <;> exact hpeek
    · rfl

theorem lgLinkEventFinish_charts (psa : Psa) (o : Oracle) (c : Node cfg)
    (i : Fin cfg.maxNeighbors) : (lgLinkEventFinish psa o c i).charts =
      (chargeAll (missCharges c i) c.net.chan, c.charts.2) := by
  have ho := settleOutcome_charts o c i
  unfold lgLinkEventFinish
  dsimp only
  split
  · exact ho
  · rw [lgLinkStageTx_charts, subrateUpdateLink_charts]
    exact ho

@[simp] theorem handleCtrl_charts (o : Oracle) (c : Node cfg) (i : Fin cfg.maxNeighbors)
    (body : Bytes) : (handleCtrl o c i body).charts = c.charts := by
  rcases handleCtrl_cases o c i body with h | ⟨s, h, -, -⟩ | ⟨-, h⟩ | ⟨-, h⟩ | ⟨-, h⟩ <;> rw [h]
  · rfl
  · exact lgRouteHandleAdv_charts o c i body
  · exact lgRouteHandleReg_charts c i body
  · exact lgLinkDown_charts o c i

/-! ## The radio -/

@[simp] theorem lgRxPost_charts (c : Node cfg) (rx : RxRec) :
    (lgRxPost c rx).charts = c.charts := by
  unfold lgRxPost
  split <;> rfl

@[simp] theorem lgSchedEventDone_charts (c : Node cfg) : (lgSchedEventDone c).charts = c.charts :=
  rfl

@[simp] theorem command_charts (o : Oracle) (c : Node cfg) (p : Phy) :
    (command o c p).charts = c.charts := by
  unfold command
  split <;> rfl

theorem linkTxDone_charts (o : Oracle) (c : Node cfg) (i : Fin cfg.maxNeighbors) :
    (linkTxDone o c i).charts = c.charts := by
  unfold linkTxDone
  dsimp only
  split
  · rfl
  · rw [command_charts]
    rfl

theorem noteLinkFrame_charts (c : Node cfg) (i : Fin cfg.maxNeighbors) (rx : RxRec) :
    (noteLinkFrame c i rx).charts = (chargeAll [(c.ev.chan, true)] c.net.chan, c.charts.2) := by
  unfold noteLinkFrame
  dsimp only
  rw [lgNeighTxResult_charts, lgRxPost_charts, lgChanResult_charts]
  rfl

theorem linkRxDone_charts (o : Oracle) (c : Node cfg) (i : Fin cfg.maxNeighbors) (rx : RxRec) :
    (linkRxDone o c i rx).charts = (chargeAll [(c.ev.chan, true)] c.net.chan, c.charts.2) := by
  have hn := noteLinkFrame_charts c i rx
  unfold linkRxDone
  dsimp only
  generalize noteLinkFrame c i rx = d at hn ⊢
  split
  · exact hn
  · split
    · rw [command_charts]
      exact hn
    · exact hn

/-- What a reception that failed charges. -/
def failCharges (c : Node cfg) (reason : RxFail) : List (ℕ × Bool) :=
  if reason = .crc ∨ reason = .timeout then [(c.ev.chan, false)] else []

theorem linkRxFail_charts (c : Node cfg) (i : Fin cfg.maxNeighbors) (reason : RxFail) :
    (linkRxFail c i reason).charts =
      (chargeAll (failCharges c reason) c.net.chan, c.charts.2) := by
  unfold linkRxFail failCharges
  by_cases hfail : reason = .crc ∨ reason = .timeout
  · simp only [if_pos hfail, lgSchedEventDone_charts]
    split <;> simp
  · simp only [if_neg hfail, lgSchedEventDone_charts]
    split <;> rfl

/-- The frame of a beacon goes out, or the beacon is over. -/
theorem sendCopy_charts (o : Oracle) (c : Node cfg) (k : ℕ) (h : d.charts = c.charts) :
    (sendCopy o c k d).charts = c.charts := by
  unfold sendCopy
  split
  · split
    · exact h
    · rfl
  · exact h

theorem beaconStart_charts (o : Oracle) (c : Node cfg) : (beaconStart o c).charts =
    (c.net.chan, c.net.beaconPlannedUs, c.net.beaconCopy, 0, c.net.beaconOffersJoin) := by
  unfold beaconStart
  dsimp only
  split
  · rfl
  · rw [sendCopy_charts o _ 0 (lgSchedEventDone_charts _)]
    rfl

theorem beaconTxDone_charts (o : Oracle) (c : Node cfg) (airEndUs : ℕ) :
    (beaconTxDone o c airEndUs).charts =
      (c.net.chan, c.net.beaconPlannedUs, c.net.beaconCopy, c.net.beaconCopyIdx + 1,
        c.net.beaconOffersJoin) := by
  unfold beaconTxDone
  dsimp only
  rw [sendCopy_charts o _ _ ?_]
  · rfl
  · split <;> rfl

@[simp] theorem listenOn_charts (o : Oracle) (c : Node cfg) : (listenOn o c).charts = c.charts := by
  unfold listenOn
  split <;> simp

@[simp] theorem scanRxDone_charts (o : Oracle) (c : Node cfg) (rx : RxRec) :
    (scanRxDone o c rx).charts = c.charts := by
  have h := lgRxPost_charts c rx
  unfold scanRxDone
  dsimp only
  split
  · exact h
  · rw [listenOn_charts, h]

@[simp] theorem sendFragment_charts (psa : Psa) (o : Oracle) (c : Node cfg) (idx : ℕ) :
    (sendFragment psa o c idx).charts = c.charts := by
  have hb : (buildFragment psa o c idx).2.charts = c.charts := by
    unfold buildFragment
    split
    · rfl
    · next i _ =>
      dsimp only
      split
      · split <;> next he =>
          have hs := congrArg (fun r => (Prod.snd r).charts) he
          rw [lgSecEncrypt_charts] at hs
          exact hs.symm
      · rfl
  unfold sendFragment
  dsimp only
  split
  · exact hb
  · rw [command_charts]
    exact hb

@[simp] theorem joinTxStart_charts (psa : Psa) (o : Oracle) (c : Node cfg) :
    (joinTxStart psa o c).charts = c.charts := by
  unfold joinTxStart
  split <;> simp

@[simp] theorem joinTxDone_charts (psa : Psa) (o : Oracle) (c : Node cfg) (airEndUs : ℕ) :
    (joinTxDone psa o c airEndUs).charts = c.charts := by
  unfold joinTxDone
  dsimp only
  split <;> simp

@[simp] theorem joinRxStart_charts (o : Oracle) (c : Node cfg) :
    (joinRxStart o c).charts = c.charts := by
  unfold joinRxStart
  rw [command_charts]
  rfl

@[simp] theorem joinRxDone_charts (o : Oracle) (c : Node cfg) (rx : RxRec) :
    (joinRxDone o c rx).charts = c.charts := by
  unfold joinRxDone
  simp

@[simp] theorem joinRxFail_charts (o : Oracle) (c : Node cfg) (reason : RxFail) :
    (joinRxFail o c reason).charts = c.charts := by
  unfold joinRxFail
  split <;> simp

/-! ## The scheduler -/

theorem candidates_charts {p : List (Candidate cfg) × Node cfg} (h : candidates c = some p) :
    p.2.charts = c.charts := by
  have hone : ∀ {c : Node cfg} {l : List (Candidate cfg)} {i : Fin cfg.maxNeighbors}
      {p : List (Candidate cfg) × Node cfg}, neighCandidate c l i = some p →
      p.2.charts = c.charts := by
    intro c l i p h
    unfold neighCandidate at h
    dsimp only at h
    split at h
    · obtain ⟨⟨n, t⟩, -, rfl⟩ := Option.map_eq_some_iff.mp h
      rfl
    · cases h
      rfl
    · cases h
      rfl
  have hfold : ∀ (l : List (Fin cfg.maxNeighbors)) (st p : List (Candidate cfg) × Node cfg),
      l.foldlM (fun st i => neighCandidate st.2 st.1 i) st = some p →
      p.2.charts = st.2.charts := by
    intro l
    induction l with
    | nil =>
      intro st p h
      cases h
      rfl
    | cons i l ih =>
      intro st p h
      rw [List.foldlM_cons] at h
      obtain ⟨st', hst, h⟩ := Option.bind_eq_some_iff.mp h
      exact (ih st' p h).trans (hone hst)
  obtain ⟨⟨l, e⟩, he, rfl⟩ := Option.map_eq_some_iff.mp h
  have hall := hfold _ ([], c) _ he
  exact hall

@[simp] theorem eventPlan_charts (c : Node cfg) (cand : Candidate cfg) :
    (eventPlan c cand).2.charts = c.charts := by
  unfold eventPlan
  dsimp only
  split
  · split <;> rfl
  all_goals rfl

theorem dropLate_charts {cand : Candidate cfg} (hk : cand.kind ≠ .beacon)
    (h : dropLate psa o c cand = some d) : d.charts = c.charts := by
  unfold dropLate at h
  split at h
  · cases h
    rfl
  · next hb => exact absurd hb hk
  · cases h
    rfl
  · cases h
    unfold lgDiscTrackResult
    dsimp only
    split_ifs <;> rfl
  · cases h
    rfl
  · exact lgJoinEventFinish_charts h
  · exact lgJoinEventFinish_charts h
  · cases h
    rfl

theorem requestEvent_charts {cand : Candidate cfg} (hk : cand.kind ≠ .beacon)
    (h : requestEvent psa o c cand = some d) : d.charts = c.charts := by
  have hp := eventPlan_charts c cand
  unfold requestEvent at h
  dsimp only at h
  split at h
  · rw [dropLate_charts hk h, hp]
  · split at h <;> cases h <;> exact hp

theorem stageFor_charts (psa : Psa) (o : Oracle) (c : Node cfg) (cand : Candidate cfg) :
    (stageFor psa o c cand).2.charts = c.charts := by
  unfold stageFor
  split
  · split
    · rfl
    · dsimp only
      split
      · exact lgLinkStageTx_charts ..
      · rw [setNeigh_charts]
        exact lgLinkStageTx_charts ..
  · rfl

/-! ## Received frames -/

@[simp] theorem handleData_charts (c : Node cfg) (body : Bytes) :
    (handleData c body).charts = c.charts := by
  unfold handleData
  split
  · rfl
  · dsimp only
    split
    · simp
    · split <;> simp

@[simp] theorem lgLinkRxFrame_charts (o : Oracle) (c : Node cfg) (i : Fin cfg.maxNeighbors)
    (fcf : UInt8) (payload : Bytes) : (lgLinkRxFrame o c i fcf payload).charts = c.charts := by
  unfold lgLinkRxFrame
  dsimp only
  split_ifs <;> (first | rw [lgSchedExpedite_charts] | skip) <;> split <;> simp

@[simp] theorem dispatchLink_charts (psa : Psa) (o : Oracle) (c : Node cfg) (h : FrameHdr)
    (pdu : Bytes) : (dispatchLink psa o c h pdu).charts = c.charts := by
  unfold dispatchLink
  split
  · rfl
  · next i _ =>
    have hd := lgSecDecrypt_charts psa (o.ok .decrypt) c i pdu
    split
    · rfl
    · split <;> next he =>
        rw [he] at hd
        first
          | exact hd
          | rw [lgLinkRxFrame_charts]
            exact hd

theorem noteBeacon_charts (o : Oracle) (c : Node cfg) (b : Beacon) (src : Addr) :
    (noteBeacon o c b src).charts = c.charts := by
  have h : (if b.rank.toNat = rankInfinite then lgRoleEvaluate o (lgRoleNoteUnrouted c)
      else c).charts = c.charts := by
    split
    · rw [lgRoleEvaluate_charts]
      rfl
    · rfl
  exact h

theorem acceptBeacon_charts (o : Oracle) (c : Node cfg) (b : Beacon) (src : Addr) (rssi : ℤ)
    (airStartUs : ℕ) : (acceptBeacon o c b src rssi airStartUs).charts = c.charts := by
  have hn := noteBeacon_charts o c b src
  have he : (beaconEntry o (noteBeacon o c b src) b src rssi).2.charts = c.charts := by
    unfold beaconEntry
    split
    · exact hn
    · split
      · rw [admitJoiner_charts, hn]
      · exact hn
  have haim : ∀ (d : Node cfg) i, (aimAt o d i b airStartUs).charts = d.charts := by
    intro d i
    have hstart := lgJoinStart_charts o (aimed o d i b airStartUs) i
    rcases aimAt_cases o d i b airStartUs with ⟨-, he⟩ | he
    · rw [he]
      unfold lgSchedAbort
      split <;> exact hstart
    · rw [he]
      exact hstart
  unfold acceptBeacon
  dsimp only
  split
  · next e hb =>
    rw [hb] at he
    exact he
  · next i e hb =>
    rw [hb] at he
    split
    · exact he
    · split
      · exact he
      · rw [haim]
        exact he

@[simp] theorem lgDiscBeaconRx_charts (psa : Psa) (o : Oracle) (c : Node cfg) (rx : RxRec) :
    (lgDiscBeaconRx psa o c rx).charts = c.charts := by
  unfold lgDiscBeaconRx
  split
  · rfl
  · split
    · rfl
    · dsimp only
      split
      · rfl
      · exact acceptBeacon_charts o c _ _ _ _

theorem dispatch_charts {rx : RxRec} (h : dispatch psa o c rx = some d) :
    d.charts = c.charts := by
  unfold dispatch at h
  split at h
  · cases h
    rfl
  · split at h
    · cases h
      rfl
    · split at h
      · cases h
        simp
      · split at h
        · exact lgJoinRxPdu_charts h
        · cases h
          simp
      · cases h
        simp

theorem rxHandler_charts (h : rxHandler psa o c = some d) : d.charts = c.charts := by
  unfold rxHandler at h
  split at h
  · cases h
    rfl
  · have hdispatch := dispatch_charts h
    exact hdispatch

theorem stopLinks_charts (o : Oracle) (l : List (Fin cfg.maxNeighbors)) (c : Node cfg) :
    (stopLinks o l c).charts = c.charts := foldl_charts _ (by simp) _ c

theorem lgStop_charts (o : Oracle) (c : Node cfg) : (lgStop o c).charts = c.charts := by
  unfold lgStop
  split
  · rfl
  · exact stopLinks_charts o _ c

end LockGrid
