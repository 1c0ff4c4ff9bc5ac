import LockGrid.Delivery
import LockGrid.Requests

/-!
# What is queued and what is sealed

Most of the code leaves the transmit queue and the cipher alone. A data frame is sealed only of a
message that waits in the queue, and a message comes into the queue only from `lg_send`, or from
`handle_data` with one that it has taken from a frame.
-/
namespace LockGrid

variable {cfg : Config} {psa : Psa} {c c' c'' d : Node cfg} {i : Fin cfg.maxNeighbors} {o : Oracle}

/-- The queue, what has been sealed, and whether the scheduler runs. -/
def Node.cargo (c : Node cfg) : Bool × (Fin cfg.txQueueSize → TxMsg) × List Sealed :=
  (c.running, c.txq, c.hist.calls)

/-- Work that leaves the cargo alone, and stages no data as a message of a handshake. -/
structure Unladen (c c' : Node cfg) : Prop where
  cargo : c'.cargo = c.cargo
  type : c'.hs.txType = c.hs.txType ∨ c'.hs.txType ≠ .data

namespace Unladen

theorem of_hs (h : c'.cargo = c.cargo) (hhs : c'.hs = c.hs) : Unladen c c' := by
  refine ⟨h, .inl ?_⟩
  rw [hhs]

theorem refl (c : Node cfg) : Unladen c c := .of_hs rfl rfl

theorem trans (h : Unladen c c') (h' : Unladen c' c'') : Unladen c c'' := by
  refine ⟨h'.cargo.trans h.cargo, ?_⟩
  rcases h'.type with hsame | hother
  · rw [hsame]
    exact h.type
  · exact .inr hother

theorem of_quiet (h : Node.Quiet c c') : Unladen c c' := by
  obtain ⟨net, view, rfl⟩ := h
  exact .of_hs rfl rfl

theorem setNeigh (c : Node cfg) (i : Fin cfg.maxNeighbors) (n : Neigh) :
    Unladen c (c.setNeigh i n) := .of_hs rfl rfl

theorem setHs (c : Node cfg) {hs : Hs cfg} (h : hs.txType = c.hs.txType ∨ hs.txType ≠ .data) :
    Unladen c (c.setHs hs) := ⟨rfl, h⟩

end Unladen

/-! ## Keys, neighbours and links -/

theorem lgSecDecrypt_unladen (psa : Psa) (ok : Bool) (c : Node cfg) (i : Fin cfg.maxNeighbors)
    (pdu : Bytes) : Unladen c (lgSecDecrypt psa ok c i pdu).2 := by
  rcases lgSecDecrypt_cases psa ok c i pdu with h | ⟨r, m, h⟩
  · rw [h]
    exact .refl c
  · rw [h]
    exact .setNeigh c i _

theorem lgNeighAlloc_unladen (c : Node cfg) (addr : Addr) : Unladen c (lgNeighAlloc c addr).2 := by
  obtain ⟨_, _, _, _, h⟩ := lgNeighAlloc_table c addr
  rw [h]
  exact .of_hs rfl rfl

theorem lgNeighFree_unladen (c : Node cfg) (i : Fin cfg.maxNeighbors) :
    Unladen c (lgNeighFree c i) := by
  obtain ⟨_, _, _, _, h⟩ := lgNeighFree_table c i
  rw [h]
  exact .of_hs rfl rfl

theorem lgLinkEstablish_unladen {pp : LinkParams} {initiator : Bool}
    (h : lgLinkEstablish o c i pp initiator = some c') : Unladen c c' := by
  obtain ⟨s, hq⟩ := lgLinkEstablish_eq h
  exact (Unladen.setNeigh c i _).trans (.of_quiet hq)

theorem lgLinkDown_unladen (o : Oracle) (c : Node cfg) (i : Fin cfg.maxNeighbors) :
    Unladen c (lgLinkDown o c i) := by
  rw [lgLinkDown_eq]
  dsimp only
  split
  · exact .refl c
  · refine .trans ?_ (.of_quiet (linksChanged_quiet o _))
    refine .trans ?_ (.of_quiet (lgRouteFlushVia_quiet _ _))
    exact .of_hs rfl rfl

theorem lgNeighMakeRoom_unladen (o : Oracle) (c : Node cfg) (cost : ℕ) :
    Unladen c (lgNeighMakeRoom o c cost).2 := by
  unfold lgNeighMakeRoom
  dsimp only
  split
  · exact .refl c
  · split
    · exact lgNeighFree_unladen c _
    · split
      · exact (lgLinkDown_unladen o c _).trans (lgNeighFree_unladen _ _)
      · exact .refl c

theorem lgNeighTxResult_unladen (c : Node cfg) (i : Fin cfg.maxNeighbors) (acked : Bool) :
    Unladen c (lgNeighTxResult c i acked) := .of_hs rfl rfl

theorem lgLinkEventMiss_unladen (o : Oracle) (c : Node cfg) (i : Fin cfg.maxNeighbors) :
    Unladen c (lgLinkEventMiss o c i) := by
  have hq := (lgNeighTxResult_unladen c i false).trans
    (.of_quiet (lgChanResult_quiet _ (lgLinkNextChan (c.neigh i).sched) false))
  unfold lgLinkEventMiss
  dsimp only
  split
  · exact hq.trans (lgLinkDown_unladen o _ i)
  · exact hq

theorem lgSchedExpedite_unladen (c : Node cfg) (i : Fin cfg.maxNeighbors) :
    Unladen c (lgSchedExpedite c i) := by
  obtain ⟨s, h⟩ := lgSchedExpedite_eq c i
  rw [h]
  exact .setNeigh c i _

theorem subrateUpdateLink_unladen (c : Node cfg) (i : Fin cfg.maxNeighbors) :
    Unladen c (subrateUpdateLink c i) := by
  unfold subrateUpdateLink
  dsimp only
  split
  · exact .refl c
  · exact (Unladen.of_quiet (lgTxqPeek_quiet c _)).trans (.setNeigh _ i _)

theorem handleCtrl_unladen (o : Oracle) (c : Node cfg) (i : Fin cfg.maxNeighbors) (body : Bytes) :
    Unladen c (handleCtrl o c i body) := by
  rcases handleCtrl_cases o c i body with h | ⟨s, h, -, -⟩ | ⟨-, h⟩ | ⟨-, h⟩ | ⟨-, h⟩ <;> rw [h]
  · exact .refl c
  · exact .setNeigh c i _
  · exact .of_quiet (lgRouteHandleAdv_quiet o c i body)
  · exact .of_quiet (lgRouteHandleReg_quiet c i body)
  · exact lgLinkDown_unladen o c i

theorem lgRxPost_unladen (c : Node cfg) (rx : RxRec) : Unladen c (lgRxPost c rx) := by
  unfold lgRxPost
  split
  · exact .refl c
  · exact .of_hs rfl rfl

/-! ## Handshakes -/

theorem deriveKeys_unladen (psa : Psa) (o : Oracle) (c : Node cfg) (i : Fin cfg.maxNeighbors)
    (secret transcript : Bytes) : Unladen c (deriveKeys psa o c i secret transcript).2 := by
  obtain ⟨k, ins, ds, live, -, h⟩ := deriveKeys_cases psa o c i secret transcript
  rw [h]
  exact .of_hs rfl rfl

theorem deriveResumeKey_unladen (psa : Psa) (o : Oracle) (c : Node cfg) (i : Fin cfg.maxNeighbors)
    (nonceJ : Bytes) : Unladen c (deriveResumeKey psa o c i nonceJ).2 := by
  rcases deriveResumeKey_cases psa o c i nonceJ with h | ⟨k, ins, live, -, h⟩ <;> rw [h]
  · exact .refl c
  · exact .of_hs rfl rfl

theorem rememberPeer_unladen (c : Node cfg) (i : Fin cfg.maxNeighbors) (msg : Bytes)
    (info : CertInfo) : Unladen c (rememberPeer c i msg info) := .of_hs rfl rfl

theorem drawNonce_unladen (o : Oracle) (c : Node cfg) (i : Fin cfg.maxNeighbors) :
    Unladen c (drawNonce o c i) := .of_hs rfl rfl

theorem drawKeypair_unladen (o : Oracle) (c : Node cfg) : Unladen c (drawKeypair o c) :=
  .setHs c (.inl rfl)

theorem agreeJoinReq_unladen (psa : Psa) (o : Oracle) (c : Node cfg) (i : Fin cfg.maxNeighbors)
    (msg : Bytes) : Unladen c (agreeJoinReq psa o c i msg).2 := by
  unfold agreeJoinReq
  split
  · exact .refl c
  · split
    · exact .refl c
    · next info _ =>
      have hr := rememberPeer_unladen c i msg info
      split
      · exact .refl c
      · dsimp only
        split
        · exact hr
        · have hd := hr.trans (drawNonce_unladen o _ i)
          split
          · exact hd
          · have hk := hd.trans (drawKeypair_unladen o _)
            split
            · exact hk
            · split <;> exact hk.trans (.setNeigh _ i _)

theorem agreeJoinRsp_unladen (psa : Psa) (o : Oracle) (c : Node cfg) (i : Fin cfg.maxNeighbors)
    (msg : Bytes) : Unladen c (agreeJoinRsp psa o c i msg).2 := by
  unfold agreeJoinRsp
  split
  · exact .refl c
  · split
    · exact .refl c
    · next info _ =>
      have hr := rememberPeer_unladen c i msg info
      split
      · exact .refl c
      · dsimp only
        split
        · exact hr
        · split
          · exact hr
          · split <;> exact hr.trans ⟨rfl, .inl rfl⟩

theorem handleJoinReq_unladen (psa : Psa) (o : Oracle) (c : Node cfg) (i : Fin cfg.maxNeighbors)
    (msg : Bytes) : Unladen c (handleJoinReq psa o c i msg).2 := by
  have ha := agreeJoinReq_unladen psa o c i msg
  unfold handleJoinReq
  split
  · next he =>
    rw [he] at ha
    exact ha
  · next t secret d he =>
    rw [he] at ha
    let d' : Node cfg := { d with hist := { d.hist with reqDerived := d.hist.reqDerived + 1 } }
    have hd' : Unladen d d' := .of_hs rfl rfl
    have hk := (ha.trans hd').trans (deriveKeys_unladen psa o d' i secret t)
    dsimp only
    split
    · next he' =>
      rw [he'] at hk
      exact hk
    · next he' =>
      rw [he'] at hk
      split
      · exact hk
      · exact hk.trans (.setHs _ (.inr (by simp [stageMessage])))

theorem handleJoinRsp_unladen (psa : Psa) (o : Oracle) (c : Node cfg) (i : Fin cfg.maxNeighbors)
    (msg : Bytes) : Unladen c (handleJoinRsp psa o c i msg).2 := by
  have ha := agreeJoinRsp_unladen psa o c i msg
  unfold handleJoinRsp
  split
  · next he =>
    rw [he] at ha
    exact ha
  · next t secret d he =>
    rw [he] at ha
    let d' : Node cfg := { d with hist := { d.hist with rspDerived := t :: d.hist.rspDerived } }
    have hd' : Unladen d d' := .of_hs rfl rfl
    have hk := (ha.trans hd').trans (deriveKeys_unladen psa o d' i secret t)
    dsimp only
    split
    · next he' =>
      rw [he'] at hk
      exact hk
    · next he' =>
      rw [he'] at hk
      split
      · exact hk
      · exact hk.trans (.setHs _ (.inr (by simp [stageMessage])))

theorem handleJoinCfm_unladen (psa : Psa) (o : Oracle) (c : Node cfg) (i : Fin cfg.maxNeighbors)
    (msg : Bytes) : Unladen c (handleJoinCfm psa o c i msg).2 := by
  unfold handleJoinCfm
  split
  · exact .refl c
  · dsimp only
    split
    · exact .refl c
    · exact ⟨rfl, .inr (by simp [stageMessage, Node.setHs])⟩

theorem handleResumeReq_unladen (psa : Psa) (o : Oracle) (c : Node cfg) (i : Fin cfg.maxNeighbors)
    (msg : Bytes) : Unladen c (handleResumeReq psa o c i msg).2 := by
  unfold handleResumeReq
  split
  · exact .refl c
  · dsimp only
    have hk := (Unladen.setNeigh c i _).trans (deriveResumeKey_unladen psa o
      (c.setJoin i { (c.neigh i).join with noncePeer := msg }) i msg)
    split
    · next he =>
      rw [he] at hk
      exact hk
    · next he =>
      rw [he] at hk
      exact hk.trans (.setHs _ (.inr (by simp [stageMessage])))

theorem joinFail_unladen (c : Node cfg) (i : Fin cfg.maxNeighbors) : Unladen c (joinFail c i) := by
  obtain ⟨_, _, _, h⟩ := joinFail_table c i
  rw [h]
  exact ⟨rfl, .inr (by simp)⟩

theorem settleStep_unladen (r : Except Err Unit × Node cfg) (i : Fin cfg.maxNeighbors) :
    Unladen r.2 (settleStep r i) := by
  unfold settleStep
  split
  · exact joinFail_unladen _ i
  · exact .setHs _ (.inl rfl)

theorem finishRouter_unladen (h : finishRouter o c i = some c') : Unladen c c' := by
  obtain ⟨d, hd, rfl⟩ := Option.map_eq_some_iff.mp h
  have hup := (Unladen.setNeigh c i _).trans (lgLinkEstablish_unladen hd)
  exact hup.trans ⟨rfl, .inr (by simp [Node.setHs])⟩

theorem finishJoiner_unladen {t : FrameType} {sec : Bool} {airStartUs : ℕ}
    (h : finishJoiner o c i t sec airStartUs = some c') : Unladen c c' := by
  unfold finishJoiner at h
  split at h
  · cases h
    exact joinFail_unladen c i
  · obtain ⟨d, hd, rfl⟩ := Option.map_eq_some_iff.mp h
    have hup := (Unladen.setNeigh c i _).trans (lgLinkEstablish_unladen hd)
    exact hup.trans (.setHs _ (.inr (by simp)))

theorem lgJoinEventFinish_unladen (h : lgJoinEventFinish o c = some c') : Unladen c c' := by
  unfold lgJoinEventFinish at h
  split at h
  · cases h
    exact .of_hs rfl rfl
  · split at h
    · cases h
      exact .setHs c (.inr (by simp))
    · split at h
      · exact finishRouter_unladen h
      · dsimp only at h
        split at h
        · cases h
          refine .trans ?_ (joinFail_unladen _ _)
          exact .setHs c (.inl rfl)
        · cases h
          exact .setHs c (.inl rfl)

theorem addFragment_unladen (c : Node cfg) (t : FrameType) (sec : Bool) (key : Option Bytes)
    (pdu : Bytes) : Unladen c (addFragment c t sec key pdu).2 := by
  unfold addFragment
  dsimp only
  generalize (if sec then hdrLenSec else hdrLen) = hdr
  split_ifs
  all_goals first
    | exact .refl c
    | exact .setHs c (.inl rfl)

theorem reassemble_unladen (psa : Psa) (o : Oracle) (c : Node cfg) (i : Fin cfg.maxNeighbors)
    (t : FrameType) (pdu : Bytes) : Unladen c (reassemble psa o c i t pdu).2 := by
  have hd := lgSecDecrypt_unladen psa (o.ok .decrypt) c i pdu
  unfold reassemble
  split
  · split
    · next he =>
      rw [he] at hd
      exact hd
    · next he =>
      rw [he] at hd
      exact hd.trans (addFragment_unladen _ t true _ _)
  · exact addFragment_unladen c t false none pdu

theorem handleMessage_unladen {t : FrameType} {sec : Bool} {airStartUs : ℕ}
    (h : handleMessage psa o c i t sec airStartUs = some c') : Unladen c c' := by
  unfold handleMessage at h
  dsimp only at h
  split at h
  · cases h
    exact (handleJoinReq_unladen psa o c i _).trans (settleStep_unladen _ i)
  · cases h
    exact (handleJoinRsp_unladen psa o c i _).trans (settleStep_unladen _ i)
  · cases h
    exact (handleJoinCfm_unladen psa o c i _).trans (settleStep_unladen _ i)
  · exact finishJoiner_unladen h
  · exact finishJoiner_unladen h
  · have hr := handleResumeReq_unladen psa o c i c.hs.rx.msg
    split at h
    · next he =>
      rw [he] at hr
      cases h
      refine hr.trans (.trans ?_ (joinFail_unladen _ i))
      exact .of_hs rfl rfl
    · next he =>
      rw [he] at hr
      cases h
      exact hr.trans (settleStep_unladen (.ok (), _) i)
  · cases h
    exact .refl c

theorem admitJoiner_unladen (o : Oracle) (c : Node cfg) (src : Addr) :
    Unladen c (admitJoiner o c src).2 := by
  have ha := lgNeighAlloc_unladen c src
  unfold admitJoiner
  split
  · next he =>
    rw [he] at ha
    exact ha
  · next he =>
    rw [he] at ha
    have hm := ha.trans (lgNeighMakeRoom_unladen o _ etxOne)
    dsimp only
    split
    · exact hm.trans (lgNeighAlloc_unladen _ src)
    · exact hm

theorem contextFor_unladen (o : Oracle) (c : Node cfg) (t : FrameType) (src : Addr)
    (airStartUs : ℕ) : Unladen c (contextFor o c t src airStartUs).2 := by
  have ha := admitJoiner_unladen o c src
  unfold contextFor
  split
  · exact .refl c
  · split
    · split
      · next he =>
        rw [he] at ha
        exact ha
      · next he =>
        rw [he] at ha
        split
        · exact ha
        · exact ha.trans ⟨rfl, .inr (by simp [openContext, Node.setHs, Node.setNeigh])⟩
    · exact .refl c

theorem lgJoinRxPdu_unladen {t : FrameType} {rx : RxRec}
    (h : lgJoinRxPdu psa o c t rx = some c') : Unladen c c' := by
  have hc := contextFor_unladen o c t (getLe16 rx.pdu offSrc) rx.airStartUs
  unfold lgJoinRxPdu at h
  split at h
  · next d he =>
    rw [he] at hc
    cases h
    exact hc
  · next i d he =>
    rw [he] at hc
    have hr := (Unladen.of_quiet (lgNeighRxRssi_quiet d i rx.rssi)).trans
      (reassemble_unladen psa o _ i t rx.pdu)
    split at h
    · next he' =>
      rw [he'] at hr
      cases h
      exact hc.trans hr
    · next he' =>
      rw [he'] at hr
      exact hc.trans (hr.trans (handleMessage_unladen h))

theorem lgJoinStart_unladen (o : Oracle) (c : Node cfg) (i : Fin cfg.maxNeighbors) :
    Unladen c (lgJoinStart o c i).2 := by
  unfold lgJoinStart
  dsimp only
  split
  · exact .refl c
  · split
    · exact .refl c
    · split
      · exact .refl c
      · next j _ =>
        split
        · exact .setNeigh c i _
        · split
          · exact .setNeigh c i _
          · have hb : ∀ d : Node cfg, Unladen d (if (c.neigh i).keys.hasLtk = true then
                buildResumeReq o d i else buildJoinReq o d i).2 := by
              intro d
              unfold buildResumeReq buildJoinReq
              dsimp only
              repeat' split
              all_goals first
                | exact ⟨rfl, .inl rfl⟩
                | exact ⟨rfl, .inr (by simp [stageMessage, Node.setHs])⟩
            have hopened : ∀ hs : Hs cfg, hs.txType = .beacon →
                Unladen c ((c.setJoin i j).setHs hs) := by
              intro hs ht
              exact ⟨rfl, .inr (by simp [Node.setHs, ht])⟩
            split
            · next he =>
              have hd := congrArg Prod.snd he ▸ hb _
              exact ((hopened _ rfl).trans hd).trans (joinFail_unladen _ i)
            · next he =>
              have hd := congrArg Prod.snd he ▸ hb _
              exact ((hopened _ rfl).trans hd).trans (.of_hs rfl rfl)

/-! ## Events -/

theorem lgSchedEventDone_unladen (c : Node cfg) : Unladen c (lgSchedEventDone c) := .of_hs rfl rfl

theorem command_unladen (o : Oracle) (c : Node cfg) (p : Phy) : Unladen c (command o c p) := by
  unfold command
  split
  · exact .of_hs rfl rfl
  · exact lgSchedEventDone_unladen c

theorem linkStart_unladen (o : Oracle) (c : Node cfg) (i : Fin cfg.maxNeighbors) :
    Unladen c (linkStart o c i) := by
  let first := (c.neigh i).sched.initiator
  let d : Node cfg := { c with
    evst := { txFirst := first, gotRx := false, sentTx := false, histNo := c.ev.histNo } }
  have hd : Unladen c d := .of_hs rfl rfl
  exact hd.trans (command_unladen o d (if first then .tx else .rx))

theorem linkTxDone_unladen (o : Oracle) (c : Node cfg) (i : Fin cfg.maxNeighbors) :
    Unladen c (linkTxDone o c i) := by
  let d : Node cfg := { c with
    evst := { c.evst with sentTx := true }
    hist := { c.hist with aired := (i.val, (c.neigh i).tx.histStaged) :: c.hist.aired } }
  have hd : Unladen c d := .of_hs rfl rfl
  unfold linkTxDone
  dsimp only
  split
  · exact hd.trans (lgSchedEventDone_unladen d)
  · exact hd.trans (command_unladen o d .rx)

theorem noteLinkFrame_unladen (c : Node cfg) (i : Fin cfg.maxNeighbors) (rx : RxRec) :
    Unladen c (noteLinkFrame c i rx) := by
  let d : Node cfg := { c with evst := { c.evst with gotRx := true } }
  have hd : Unladen c d := .of_hs rfl rfl
  have hrssi := hd.trans (.of_quiet (lgNeighRxRssi_quiet d i rx.rssi))
  unfold noteLinkFrame
  dsimp only
  refine .trans ?_ (lgNeighTxResult_unladen _ i true)
  refine .trans ?_ (lgRxPost_unladen _ rx)
  refine .trans ?_ (.of_quiet (lgChanResult_quiet _ _ true))
  exact hrssi.trans (.setNeigh _ i _)

theorem linkRxDone_unladen (o : Oracle) (c : Node cfg) (i : Fin cfg.maxNeighbors) (rx : RxRec) :
    Unladen c (linkRxDone o c i rx) := by
  refine (noteLinkFrame_unladen c i rx).trans ?_
  unfold linkRxDone
  dsimp only
  split
  · exact (Unladen.setNeigh _ i _).trans (lgSchedEventDone_unladen _)
  · split
    · exact (Unladen.setNeigh _ i _).trans (command_unladen o _ .tx)
    · exact (Unladen.setNeigh _ i _).trans (lgSchedEventDone_unladen _)

theorem linkRxFail_unladen (c : Node cfg) (i : Fin cfg.maxNeighbors) (reason : RxFail) :
    Unladen c (linkRxFail c i reason) := by
  unfold linkRxFail
  dsimp only
  refine .trans ?_ (lgSchedEventDone_unladen _)
  have hchan : Unladen c (if reason = .crc ∨ reason = .timeout then
      lgChanResult c c.ev.chan false else c) := by
    split
    · exact .of_quiet (lgChanResult_quiet c _ false)
    · exact .refl c
  generalize (if reason = .crc ∨ reason = .timeout then
    lgChanResult c c.ev.chan false else c) = d at hchan ⊢
  split
  · exact hchan.trans (lgNeighTxResult_unladen d i false)
  · exact hchan

theorem sendCopy_unladen {fallback : Node cfg} (k : ℕ) (h : Unladen c fallback) :
    Unladen c (sendCopy o c k fallback) := by
  unfold sendCopy
  split
  · split
    · exact h
    · exact .of_hs rfl rfl
  · exact h

theorem beaconStart_unladen (o : Oracle) (c : Node cfg) : Unladen c (beaconStart o c) := by
  have hfirst : Unladen c { c with net := { c.net with beaconCopyIdx := 0 } } := .of_hs rfl rfl
  unfold beaconStart
  dsimp only
  split
  · exact .of_hs rfl rfl
  · exact hfirst.trans (sendCopy_unladen 0 (lgSchedEventDone_unladen _))

theorem beaconTxDone_unladen (o : Oracle) (c : Node cfg) (airEndUs : ℕ) :
    Unladen c (beaconTxDone o c airEndUs) := by
  let d : Node cfg := { c with net := { c.net with beaconCopyIdx := c.net.beaconCopyIdx + 1 } }
  have hd : Unladen c d := .of_hs rfl rfl
  unfold beaconTxDone
  refine hd.trans (sendCopy_unladen _ ?_)
  dsimp only
  split
  · exact .of_hs rfl rfl
  · exact lgSchedEventDone_unladen _

theorem listenOn_unladen (o : Oracle) (c : Node cfg) : Unladen c (listenOn o c) := by
  unfold listenOn
  split
  · exact command_unladen o c .rx
  · exact lgSchedEventDone_unladen c

theorem scanRxDone_unladen (o : Oracle) (c : Node cfg) (rx : RxRec) :
    Unladen c (scanRxDone o c rx) := by
  refine (lgRxPost_unladen c rx).trans ?_
  unfold scanRxDone
  dsimp only
  split
  · exact .of_hs rfl rfl
  · exact listenOn_unladen o _

theorem trackResult_unladen (c : Node cfg) (heard : Bool) : Unladen c (trackResult c heard) := by
  unfold trackResult
  split
  · exact .of_quiet (lgDiscTrackResult_quiet c _ heard)
  · exact .refl c

theorem joinAborted_unladen (c : Node cfg) : Unladen c (joinAborted c) := .setHs c (.inl rfl)

theorem tsFailed_unladen (o : Oracle) (c : Node cfg) : Unladen c (tsFailed o c) := by
  unfold tsFailed
  split
  · exact .refl c
  · exact (lgLinkEventMiss_unladen o c _).trans (lgSchedEventDone_unladen _)
  · exact (trackResult_unladen c false).trans (lgSchedEventDone_unladen _)
  · exact (joinAborted_unladen c).trans (lgSchedEventDone_unladen _)
  · exact (joinAborted_unladen c).trans (lgSchedEventDone_unladen _)
  · exact lgSchedEventDone_unladen c

theorem phyRxDone_unladen (o : Oracle) (c : Node cfg) (rx : RxRec) :
    Unladen c (phyRxDone o c rx) := by
  unfold phyRxDone
  split
  · exact linkRxDone_unladen o c _ rx
  · exact scanRxDone_unladen o c rx
  · have hheard := (lgRxPost_unladen c rx).trans (trackResult_unladen _ true)
    exact hheard.trans (lgSchedEventDone_unladen _)
  · exact (lgRxPost_unladen c rx).trans (listenOn_unladen o _)
  · exact lgSchedEventDone_unladen c

theorem phyRxFailed_unladen (o : Oracle) (c : Node cfg) (reason : RxFail) :
    Unladen c (phyRxFailed o c reason) := by
  have hfail : Unladen c (joinRxFail o c reason) := by
    unfold joinRxFail
    split
    · exact listenOn_unladen o c
    · exact lgSchedEventDone_unladen c
  unfold phyRxFailed
  split
  · exact linkRxFail_unladen c _ reason
  · exact hfail
  · exact hfail
  · exact (trackResult_unladen c false).trans (lgSchedEventDone_unladen _)
  · exact lgSchedEventDone_unladen c

theorem neighCandidate_unladen {l : List (Candidate cfg)} {p : List (Candidate cfg) × Node cfg}
    (h : neighCandidate c l i = some p) : Unladen c p.2 := by
  unfold neighCandidate at h
  dsimp only at h
  split at h
  · obtain ⟨r, -, rfl⟩ := Option.map_eq_some_iff.mp h
    exact .setNeigh c i _
  · cases h
    exact .refl c
  · cases h
    exact .refl c

theorem candidates_unladen {p : List (Candidate cfg) × Node cfg} (h : candidates c = some p) :
    Unladen c p.2 := by
  have hfold : ∀ (l : List (Fin cfg.maxNeighbors)) (st p : List (Candidate cfg) × Node cfg),
      l.foldlM (fun st i => neighCandidate st.2 st.1 i) st = some p → Unladen st.2 p.2 := by
    intro l
    induction l with
    | nil =>
      intro st p h
      cases h
      exact .refl _
    | cons i l ih =>
      intro st p h
      rw [List.foldlM_cons] at h
      obtain ⟨st', hone, h⟩ := Option.bind_eq_some_iff.mp h
      exact (neighCandidate_unladen hone).trans (ih st' p h)
  obtain ⟨⟨l, e⟩, he, rfl⟩ := Option.map_eq_some_iff.mp h
  have hneighs : Unladen c e := hfold _ ([], c) _ he
  exact hneighs.trans (.of_quiet (dropStaleTracks_quiet e))

theorem dropLate_unladen {cand : Candidate cfg} (h : dropLate psa o c cand = some d) :
    Unladen c d := by
  unfold dropLate at h
  split at h
  · cases h
    exact .setNeigh c _ _
  · cases h
    exact .of_quiet (lgDiscBeaconFinish_quiet psa o c)
  · cases h
    exact .of_quiet (lgDiscScanFinish_quiet o c)
  · cases h
    exact .of_quiet (lgDiscTrackResult_quiet c _ false)
  · cases h
    exact .of_hs rfl rfl
  · exact lgJoinEventFinish_unladen h
  · exact lgJoinEventFinish_unladen h
  · cases h
    exact .refl c

theorem requestEvent_unladen {cand : Candidate cfg} (h : requestEvent psa o c cand = some d) :
    Unladen c d := by
  have hplan : Unladen c (eventPlan c cand).2 := .of_quiet (eventPlan_quiet c cand)
  unfold requestEvent at h
  dsimp only at h
  split at h
  · exact hplan.trans (dropLate_unladen h)
  · split at h
    · cases h
      exact hplan
    · cases h
      exact hplan.trans (.of_hs rfl rfl)

theorem finishChanEval_unladen (c : Node cfg) : Unladen c (finishChanEval c) := by
  have hmap := lgChanReevaluate_quiet c
  unfold finishChanEval
  dsimp only
  refine (Unladen.of_quiet hmap).trans ?_
  split
  · exact .of_hs rfl rfl
  · exact .of_hs rfl rfl

/-! ## Beacons and calls -/

theorem aimAt_unladen (o : Oracle) (c : Node cfg) (i : Fin cfg.maxNeighbors) (b : Beacon)
    (airStartUs : ℕ) : Unladen c (aimAt o c i b airStartUs) := by
  have hstart : ∀ j, Unladen c (lgJoinStart o (c.setJoin i j) i).2 := by
    intro j
    exact (Unladen.setNeigh c i _).trans (lgJoinStart_unladen o (c.setJoin i j) i)
  unfold aimAt
  dsimp only
  split
  · next he =>
    have hd := congrArg Prod.snd he ▸ hstart _
    unfold lgSchedAbort
    split
    · exact hd.trans (lgSchedEventDone_unladen _)
    · exact hd
  · next he =>
    have hd := congrArg Prod.snd he ▸ hstart _
    exact hd

theorem beaconEntry_unladen (o : Oracle) (c : Node cfg) (b : Beacon) (src : Addr) (rssi : ℤ) :
    Unladen c (beaconEntry o c b src rssi).2 := by
  unfold beaconEntry
  split
  · exact .refl c
  · split
    · exact admitJoiner_unladen o c src
    · exact .refl c

theorem acceptBeacon_unladen (o : Oracle) (c : Node cfg) (b : Beacon) (src : Addr) (rssi : ℤ)
    (airStartUs : ℕ) : Unladen c (acceptBeacon o c b src rssi airStartUs) := by
  have hentry := (Unladen.of_quiet (noteBeacon_quiet o c b src)).trans
    (beaconEntry_unladen o (noteBeacon o c b src) b src rssi)
  unfold acceptBeacon
  dsimp only
  split
  · next he =>
    rw [he] at hentry
    exact hentry
  · next i _ he =>
    rw [he] at hentry
    have hsender := hentry.trans (.of_quiet (noteSender_quiet _ i b rssi airStartUs))
    split
    · exact hsender
    · split
      · exact hsender
      · exact hsender.trans (aimAt_unladen o _ i b airStartUs)

theorem lgDiscBeaconRx_unladen (psa : Psa) (o : Oracle) (c : Node cfg) (rx : RxRec) :
    Unladen c (lgDiscBeaconRx psa o c rx) := by
  unfold lgDiscBeaconRx
  split
  · exact .refl c
  · split
    · exact .refl c
    · dsimp only
      split
      · exact .refl c
      · exact acceptBeacon_unladen o c _ _ _ _

end LockGrid
