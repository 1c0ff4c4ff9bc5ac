import LockGrid.Run

/-!
# What link events have to themselves

The bookkeeping of the radio events is written by the scheduler and by the handlers of events.
Received frames, handshakes, beacons, routing and the application leave it alone, and owe no
acknowledgement that was not owed before.
-/
namespace LockGrid

variable {cfg : Config}

/-- The bookkeeping of radio events. -/
def Node.radio (c : Node cfg) :
    Evst × Event cfg × EvKind × Option (Fin cfg.maxNeighbors) × ℕ × Phy × List (ℕ × Staged) × ℕ ×
      List (Fin cfg.maxNeighbors × Bool) × Bool :=
  (c.evst, c.ev, c.finishKind, c.finishNeigh, c.histFinishNo, c.phy, c.hist.aired, c.hist.events,
    c.hist.results, c.granted)

/-- Work besides the radio events. -/
structure Aside (c c' : Node cfg) : Prop where
  radio : c'.radio = c.radio
  /-- An acknowledgement that is owed was owed before, for the same frame. -/
  owed : ∀ i, (c'.neigh i).tx.txNeedsAck = true →
    (c.neigh i).tx.txNeedsAck = true ∧ (c'.neigh i).tx.histStaged = (c.neigh i).tx.histStaged

namespace Aside

variable {c c' c'' : Node cfg}

theorem of_neigh_eq (h : c'.radio = c.radio) (hn : c'.neigh = c.neigh) : Aside c c' :=
  ⟨h, fun i hi => by rw [hn] at hi ⊢; exact ⟨hi, rfl⟩⟩

theorem refl (c : Node cfg) : Aside c c := .of_neigh_eq rfl rfl

theorem trans (h : Aside c c') (h' : Aside c' c'') : Aside c c'' := by
  refine ⟨h'.radio.trans h.radio, fun i hi => ?_⟩
  obtain ⟨hi', hs'⟩ := h'.owed i hi
  obtain ⟨hi, hs⟩ := h.owed i hi'
  exact ⟨hi, hs'.trans hs⟩

theorem of_quiet (h : Node.Quiet c c') : Aside c c' := by
  obtain ⟨net, view, rfl⟩ := h
  exact .of_neigh_eq rfl rfl

theorem note (c : Node cfg) (i : Fin cfg.maxNeighbors) (d : Dealing) : Aside c (c.note i d) :=
  .of_neigh_eq rfl rfl

/-- An update of an entry that owes no more than before. -/
theorem setNeigh (c : Node cfg) (i : Fin cfg.maxNeighbors) (n : Neigh)
    (h : n.tx.txNeedsAck = true →
      (c.neigh i).tx.txNeedsAck = true ∧ n.tx.histStaged = (c.neigh i).tx.histStaged) :
    Aside c (c.setNeigh i n) := by
  refine ⟨rfl, fun j hj => ?_⟩
  by_cases hji : j = i
  · subst hji
    simp only [Node.setNeigh_neigh, Function.update_self] at hj ⊢
    exact h hj
  · rw [Node.setNeigh_neigh, Function.update_of_ne hji] at hj ⊢
    exact ⟨hj, rfl⟩

/-- An update of an entry that is not about its staged frame. -/
theorem keep (c : Node cfg) (i : Fin cfg.maxNeighbors) (n : Neigh) (h : n.tx = (c.neigh i).tx) :
    Aside c (c.setNeigh i n) := setNeigh c i n fun hn => ⟨h ▸ hn, by rw [h]⟩

theorem keep_map (c : Node cfg) (f : Fin cfg.maxNeighbors → Neigh)
    (h : ∀ i, (f i).tx = (c.neigh i).tx) : Aside c { c with neigh := f } :=
  ⟨rfl, fun i hi => ⟨h i ▸ hi, congrArg TxStage.histStaged (h i)⟩⟩

end Aside

/-! ## Keys, neighbours and links -/

theorem setKeys_aside (c : Node cfg) (i : Fin cfg.maxNeighbors) (k : Keys) :
    Aside c (c.setKeys i k) := .keep c i _ rfl

theorem destroyKey_aside (c : Node cfg) (i : Fin cfg.maxNeighbors) : Aside c (c.destroyKey i) :=
  .of_neigh_eq rfl rfl

theorem overwrite_aside (c : Node cfg) (i : Fin cfg.maxNeighbors) : Aside c (c.overwrite i) :=
  .of_neigh_eq rfl rfl

theorem lgSecEncrypt_aside (psa : Psa) (ok : Bool) (c : Node cfg) (i : Fin cfg.maxNeighbors)
    (pdu : Bytes) (hdr : ℕ) : Aside c (lgSecEncrypt psa ok c i pdu hdr).2 := by
  rcases lgSecEncrypt_cases psa ok c i pdu hdr with h | ⟨-, h⟩ | ⟨key, aad, plain, -, -, h⟩ <;>
    rw [h]
  · exact .refl c
  · exact setKeys_aside c i _
  · exact (setKeys_aside c i _).trans (.of_neigh_eq rfl rfl)

theorem lgSecDecrypt_aside (psa : Psa) (ok : Bool) (c : Node cfg) (i : Fin cfg.maxNeighbors)
    (pdu : Bytes) : Aside c (lgSecDecrypt psa ok c i pdu).2 := by
  rcases lgSecDecrypt_cases psa ok c i pdu with h | ⟨r, m, h⟩ <;> rw [h]
  · exact .refl c
  · exact setKeys_aside c i _

theorem wipe_aside (c : Node cfg) (i : Fin cfg.maxNeighbors) (n : Neigh) (v : View)
    (h : n.tx = {}) : Aside c (((c.setNeigh i n).setView i v).note i .wiped) :=
  (Aside.setNeigh c i n (by simp [h])).trans (.of_neigh_eq rfl rfl)

theorem lgNeighAlloc_aside (c : Node cfg) (addr : Addr) : Aside c (lgNeighAlloc c addr).2 := by
  rcases lgNeighAlloc_cases c addr with ⟨h, -⟩ | ⟨i, -, -, h⟩ <;> rw [h]
  · exact .refl c
  · exact (overwrite_aside c i).trans (wipe_aside _ i _ _ rfl)

theorem lgNeighFree_aside (c : Node cfg) (i : Fin cfg.maxNeighbors) :
    Aside c (lgNeighFree c i) := by
  rw [lgNeighFree_eq]
  exact (destroyKey_aside c i).trans (wipe_aside _ i _ _ rfl)

theorem lgLinkEstablish_aside {o : Oracle} {c c' : Node cfg} {i : Fin cfg.maxNeighbors}
    {pp : LinkParams} {initiator : Bool} (h : lgLinkEstablish o c i pp initiator = some c') :
    Aside c c' := by
  obtain ⟨s, hq⟩ := lgLinkEstablish_eq h
  refine .trans ?_ (.of_quiet hq)
  exact .setNeigh c i _ fun hn => ⟨hn, rfl⟩

theorem lgLinkDown_aside (o : Oracle) (c : Node cfg) (i : Fin cfg.maxNeighbors) :
    Aside c (lgLinkDown o c i) := by
  rw [lgLinkDown_eq]
  dsimp only
  split
  · exact .refl c
  · refine .trans ?_ (.of_quiet (linksChanged_quiet o _))
    refine .trans ?_ (.of_quiet (lgRouteFlushVia_quiet _ _))
    refine .trans ?_ (.of_quiet (setView_quiet _ i _))
    exact (Aside.setNeigh c i (c.neigh i).down fun hn => ⟨hn, rfl⟩).trans (.of_neigh_eq rfl rfl)

theorem lgNeighMakeRoom_aside (o : Oracle) (c : Node cfg) (cost : ℕ) :
    Aside c (lgNeighMakeRoom o c cost).2 := by
  unfold lgNeighMakeRoom
  dsimp only
  split
  · exact .refl c
  · split
    · exact lgNeighFree_aside c _
    · split
      · exact (lgLinkDown_aside o c _).trans (lgNeighFree_aside _ _)
      · exact .refl c

theorem lgLinkEventMiss_aside (o : Oracle) (c : Node cfg) (i : Fin cfg.maxNeighbors) :
    Aside (noteResult c i false) (lgLinkEventMiss o c i) := by
  have hq : Aside (noteResult c i false)
      (lgChanResult (lgNeighTxResult c i false) (lgLinkNextChan (c.neigh i).sched) false) :=
    .of_quiet ((lgNeighTxResult_quiet c i false).trans (lgChanResult_quiet _ _ _))
  unfold lgLinkEventMiss
  dsimp only
  split
  · exact hq.trans (lgLinkDown_aside o _ i)
  · exact hq

/-! ## Traffic -/

theorem lgSchedExpedite_aside (c : Node cfg) (i : Fin cfg.maxNeighbors) :
    Aside c (lgSchedExpedite c i) := by
  obtain ⟨s, h⟩ := lgSchedExpedite_eq c i
  rw [h]
  exact .keep c i _ rfl

theorem sendCopies_aside (m : TxMsg) (l : List (Fin cfg.maxNeighbors)) (st : ℕ × Node cfg) :
    Aside st.2 (sendCopies m l st).2 := by
  induction l generalizing st with
  | nil => exact .refl _
  | cons i rest ih =>
    obtain ⟨sent, c⟩ := st
    rw [sendCopies]
    split
    · exact ih (sent, c)
    · split
      · exact .refl c
      · next k _ =>
        refine .trans ?_ (ih (sent + 1, _))
        refine .trans ?_ (lgSchedExpedite_aside _ i)
        exact .of_neigh_eq rfl rfl

theorem lgSendForward_aside (c : Node cfg) (m : TxMsg) : Aside c (lgSendForward c m).2 := by
  have hq : Aside c (lgRouteNextHop c m.finalDst m.flags).2 :=
    .of_quiet (lgRouteNextHop_quiet c m.finalDst m.flags)
  unfold lgSendForward
  dsimp only
  split
  · exact .refl c
  · split
    · exact .refl c
    · split
      · exact sendCopies_aside m _ (0, c)
      · split
        · exact hq
        · split
          · exact hq
          · exact hq.trans (.of_neigh_eq rfl rfl)

theorem lgSend_aside (c : Node cfg) (dst : Addr) (port : UInt8) (payload : Bytes)
    (flags : UInt8) : Aside c (lgSend c dst port payload flags).2 := by
  have h0 : Aside c { c with msgIdNext := c.msgIdNext + 1 } := .of_neigh_eq rfl rfl
  unfold lgSend
  dsimp only
  split <;> next hs =>
    have h1 := h0.trans (congrArg Prod.snd hs ▸ lgSendForward_aside _ _)
    first
      | exact h1
      | split
        · split
          · exact h1.trans (lgSchedExpedite_aside _ _)
          · exact h1
        · exact h1

theorem handleCtrl_aside (o : Oracle) (c : Node cfg) (i : Fin cfg.maxNeighbors) (body : Bytes) :
    Aside c (handleCtrl o c i body) := by
  rcases handleCtrl_cases o c i body with h | ⟨s, h, -, -⟩ | ⟨-, h⟩ | ⟨-, h⟩ | ⟨-, h⟩ <;> rw [h]
  · exact .refl c
  · exact .keep c i _ rfl
  · exact .of_quiet (lgRouteHandleAdv_quiet o c i body)
  · exact .of_quiet (lgRouteHandleReg_quiet c i body)
  · exact lgLinkDown_aside o c i

theorem forwardData_aside (c : Node cfg) (m : TxMsg) : Aside c (forwardData c m) := by
  have hq : Aside c (lgRouteNextHop c m.finalDst 0).2 :=
    .of_quiet (lgRouteNextHop_quiet c m.finalDst 0)
  unfold forwardData
  dsimp only
  split
  · exact .refl c
  · split
    · split
      · exact hq
      · exact hq.trans (lgSendForward_aside _ _)
    · exact lgSendForward_aside c _

theorem handleData_aside (c : Node cfg) (body : Bytes) : Aside c (handleData c body) := by
  unfold handleData
  split
  · exact .refl c
  · dsimp only
    have hq : Aside c (lgRouteIsDuplicate c (getLe16 body 1) (getLe16 body 7)).2 :=
      .of_quiet (lgRouteIsDuplicate_quiet c _ _)
    split
    · exact hq
    · split
      · exact hq
      · exact hq.trans (forwardData_aside _ _)

theorem lgLinkRxFrame_aside (o : Oracle) (c : Node cfg) (i : Fin cfg.maxNeighbors) (fcf : UInt8)
    (payload : Bytes) : Aside c (lgLinkRxFrame o c i fcf payload) := by
  obtain ⟨d, hd, hmd⟩ := lgLinkRxFrame_cases o c i fcf payload
  have h : Aside c d := by
    rcases hd with ⟨-, rfl⟩ | ⟨-, rfl⟩ | ⟨-, rfl⟩
    · exact handleData_aside c payload
    · exact handleCtrl_aside o c i payload
    · exact .refl d
  rcases hmd with hmd | hmd
  · rw [hmd]
    exact h.trans (lgSchedExpedite_aside d i)
  · rwa [hmd]

theorem dispatchLink_aside (psa : Psa) (o : Oracle) (c : Node cfg) (h : FrameHdr) (pdu : Bytes) :
    Aside c (dispatchLink psa o c h pdu) := by
  unfold dispatchLink
  split
  · exact .refl c
  · next i _ =>
    have hd := lgSecDecrypt_aside psa (o.ok .decrypt) c i pdu
    split
    · exact .refl c
    · split <;> next he =>
        rw [he] at hd
        first
          | exact hd
          | exact hd.trans (lgLinkRxFrame_aside o _ i _ _)

theorem lgRxPost_aside (c : Node cfg) (rx : RxRec) : Aside c (lgRxPost c rx) := by
  unfold lgRxPost
  split
  · exact .refl c
  · exact .of_neigh_eq rfl rfl

/-! ## Handshakes -/

theorem setJoin_aside (c : Node cfg) (i : Fin cfg.maxNeighbors) (j : JoinInfo) :
    Aside c (c.setJoin i j) := .keep c i _ rfl

theorem setHs_aside (c : Node cfg) (hs : Hs cfg) : Aside c (c.setHs hs) := .of_neigh_eq rfl rfl

theorem deriveKeys_aside (psa : Psa) (o : Oracle) (c : Node cfg) (i : Fin cfg.maxNeighbors)
    (secret transcript : Bytes) : Aside c (deriveKeys psa o c i secret transcript).2 := by
  unfold deriveKeys lgSecInstallKey
  dsimp only
  split
  · exact .refl c
  · split
    · exact .refl c
    · next ltk _ =>
      have hl := ((setKeys_aside c i { (c.neigh i).keys with ltk := ltk, hasLtk := true }).trans
        (.note _ i (.derived ltk))).trans (destroyKey_aside _ i)
      split
      · exact (hl.trans (setKeys_aside _ i _)).trans (.of_neigh_eq rfl rfl)
      · exact hl.trans (setKeys_aside _ i _)

theorem deriveResumeKey_aside (psa : Psa) (o : Oracle) (c : Node cfg) (i : Fin cfg.maxNeighbors)
    (nonceJ : Bytes) : Aside c (deriveResumeKey psa o c i nonceJ).2 := by
  unfold deriveResumeKey lgSecInstallKey
  dsimp only
  split
  · exact .refl c
  · split
    · exact ((destroyKey_aside c i).trans (setKeys_aside _ i _)).trans (.of_neigh_eq rfl rfl)
    · exact ((destroyKey_aside c i).trans (setKeys_aside _ i _)).trans (.of_neigh_eq rfl rfl)

theorem rememberPeer_aside (c : Node cfg) (i : Fin cfg.maxNeighbors) (msg : Bytes)
    (info : CertInfo) : Aside c (rememberPeer c i msg info) :=
  (setJoin_aside c i _).trans (.of_quiet (setView_quiet _ i _))

theorem drawNonce_aside (o : Oracle) (c : Node cfg) (i : Fin cfg.maxNeighbors) :
    Aside c (drawNonce o c i) := (setJoin_aside c i _).trans (.of_neigh_eq rfl rfl)

theorem drawKeypair_aside (o : Oracle) (c : Node cfg) : Aside c (drawKeypair o c) :=
  setHs_aside c _

theorem agreeJoinReq_aside (psa : Psa) (o : Oracle) (c : Node cfg) (i : Fin cfg.maxNeighbors)
    (msg : Bytes) : Aside c (agreeJoinReq psa o c i msg).2 := by
  unfold agreeJoinReq
  split
  · exact .refl c
  · split
    · exact .refl c
    · next info _ =>
      have hr := rememberPeer_aside c i msg info
      split
      · exact .refl c
      · dsimp only
        split
        · exact hr
        · have hd := hr.trans (drawNonce_aside o _ i)
          split
          · exact hd
          · have hk := hd.trans (drawKeypair_aside o _)
            split
            · exact hk
            · split <;> exact hk.trans (setJoin_aside _ i _)

theorem handleJoinReq_aside (psa : Psa) (o : Oracle) (c : Node cfg) (i : Fin cfg.maxNeighbors)
    (msg : Bytes) : Aside c (handleJoinReq psa o c i msg).2 := by
  have ha := agreeJoinReq_aside psa o c i msg
  unfold handleJoinReq
  split
  · next he => exact congrArg Prod.snd he ▸ ha
  · next t secret d he =>
    rw [he] at ha
    let d' : Node cfg := { d with hist := { d.hist with reqDerived := d.hist.reqDerived + 1 } }
    have hd' : Aside d d' := .of_neigh_eq rfl rfl
    have hk := (ha.trans hd').trans (deriveKeys_aside psa o d' i secret t)
    dsimp only
    split <;> next he' =>
      rw [he'] at hk
      first
        | exact hk
        | split
          · exact hk
          · exact hk.trans (setHs_aside _ _)

theorem noteVerified_aside (c : Node cfg) (i : Fin cfg.maxNeighbors) (pub transcript : Bytes) :
    Aside c (noteVerified c i pub transcript) := .of_neigh_eq rfl rfl

theorem agreeJoinRsp_aside (psa : Psa) (o : Oracle) (c : Node cfg) (i : Fin cfg.maxNeighbors)
    (msg : Bytes) : Aside c (agreeJoinRsp psa o c i msg).2 := by
  unfold agreeJoinRsp
  split
  · exact .refl c
  · split
    · exact .refl c
    · next info _ =>
      have hr := rememberPeer_aside c i msg info
      split
      · exact .refl c
      · dsimp only
        split
        · exact hr
        · split
          · exact hr
          · split
            all_goals
              refine .trans ?_ (setHs_aside _ _)
              refine .trans ?_ (noteVerified_aside _ i _ _)
              exact hr.trans (setJoin_aside _ i _)

theorem handleJoinRsp_aside (psa : Psa) (o : Oracle) (c : Node cfg) (i : Fin cfg.maxNeighbors)
    (msg : Bytes) : Aside c (handleJoinRsp psa o c i msg).2 := by
  have ha := agreeJoinRsp_aside psa o c i msg
  unfold handleJoinRsp
  split
  · next he => exact congrArg Prod.snd he ▸ ha
  · next t secret d he =>
    rw [he] at ha
    let d' : Node cfg := { d with hist := { d.hist with rspDerived := t :: d.hist.rspDerived } }
    have hd' : Aside d d' := .of_neigh_eq rfl rfl
    have hk := (ha.trans hd').trans (deriveKeys_aside psa o d' i secret t)
    dsimp only
    split <;> next he' =>
      rw [he'] at hk
      first
        | exact hk
        | split
          · exact hk
          · exact hk.trans (setHs_aside _ _)

theorem handleJoinCfm_aside (psa : Psa) (o : Oracle) (c : Node cfg) (i : Fin cfg.maxNeighbors)
    (msg : Bytes) : Aside c (handleJoinCfm psa o c i msg).2 := by
  unfold handleJoinCfm
  split
  · exact .refl c
  · dsimp only
    split
    · exact .refl c
    · exact .of_neigh_eq rfl rfl

theorem handleResumeReq_aside (psa : Psa) (o : Oracle) (c : Node cfg) (i : Fin cfg.maxNeighbors)
    (msg : Bytes) : Aside c (handleResumeReq psa o c i msg).2 := by
  unfold handleResumeReq
  split
  · exact .refl c
  · dsimp only
    have hk := (setJoin_aside c i { (c.neigh i).join with noncePeer := msg }).trans
      (deriveResumeKey_aside psa o _ i msg)
    split <;> next he =>
      rw [he] at hk
      first
        | exact hk
        | exact hk.trans (setHs_aside _ _)

theorem joinFail_aside (c : Node cfg) (i : Fin cfg.maxNeighbors) : Aside c (joinFail c i) := by
  rw [joinFail_eq]
  refine .trans ?_ (setHs_aside _ _)
  split
  · exact ((Aside.note c i _).trans (destroyKey_aside _ i)).trans (.keep _ i _ rfl)
  · exact (destroyKey_aside c i).trans (.keep _ i _ rfl)

theorem settleStep_aside (r : Except Err Unit × Node cfg) (i : Fin cfg.maxNeighbors) :
    Aside r.2 (settleStep r i) := by
  unfold settleStep
  split
  · exact joinFail_aside _ i
  · exact setHs_aside _ _

theorem finishRouter_aside {o : Oracle} {c c' : Node cfg} {i : Fin cfg.maxNeighbors}
    (h : finishRouter o c i = some c') : Aside c c' := by
  obtain ⟨d, hd, rfl⟩ := Option.map_eq_some_iff.mp h
  refine .trans ?_ (.trans (lgLinkEstablish_aside hd) (.of_neigh_eq rfl rfl))
  exact .keep c i _ rfl

theorem finishJoiner_aside {o : Oracle} {c c' : Node cfg} {i : Fin cfg.maxNeighbors}
    {t : FrameType} {sec : Bool} {airStartUs : ℕ}
    (h : finishJoiner o c i t sec airStartUs = some c') : Aside c c' := by
  unfold finishJoiner at h
  split at h
  · cases h
    exact joinFail_aside c i
  · obtain ⟨d, hd, rfl⟩ := Option.map_eq_some_iff.mp h
    refine .trans ?_ (.trans (lgLinkEstablish_aside hd) (setHs_aside _ _))
    exact .keep c i _ rfl

theorem lgJoinEventFinish_aside {o : Oracle} {c c' : Node cfg}
    (h : lgJoinEventFinish o c = some c') : Aside c c' := by
  unfold lgJoinEventFinish at h
  split at h
  · cases h
    exact .of_neigh_eq rfl rfl
  · split at h
    · cases h
      exact setHs_aside c _
    · split at h
      · exact finishRouter_aside h
      · dsimp only at h
        split at h <;> cases h
        · exact (setHs_aside c _).trans (joinFail_aside _ _)
        · exact setHs_aside c _

theorem addFragment_aside (c : Node cfg) (t : FrameType) (sec : Bool) (key : Option Bytes)
    (pdu : Bytes) : Aside c (addFragment c t sec key pdu).2 := by
  unfold addFragment
  dsimp only
  generalize (if sec then hdrLenSec else hdrLen) = hdr
  split
  · exact .refl c
  · split
    · exact .refl c
    · split
      · exact .refl c
      · exact setHs_aside c _

theorem reassemble_aside (psa : Psa) (o : Oracle) (c : Node cfg) (i : Fin cfg.maxNeighbors)
    (t : FrameType) (pdu : Bytes) : Aside c (reassemble psa o c i t pdu).2 := by
  have hd := lgSecDecrypt_aside psa (o.ok .decrypt) c i pdu
  unfold reassemble
  split
  · split <;> next he =>
      rw [he] at hd
      first
        | exact hd
        | exact hd.trans (addFragment_aside _ t true _ _)
  · exact addFragment_aside c t false none pdu

theorem handleMessage_aside {psa : Psa} {o : Oracle} {c c' : Node cfg} {i : Fin cfg.maxNeighbors}
    {t : FrameType} {sec : Bool} {airStartUs : ℕ}
    (h : handleMessage psa o c i t sec airStartUs = some c') : Aside c c' := by
  unfold handleMessage at h
  dsimp only at h
  split at h
  · cases h
    exact (handleJoinReq_aside psa o c i _).trans (settleStep_aside _ i)
  · cases h
    exact (handleJoinRsp_aside psa o c i _).trans (settleStep_aside _ i)
  · cases h
    exact (handleJoinCfm_aside psa o c i _).trans (settleStep_aside _ i)
  · exact finishJoiner_aside h
  · exact finishJoiner_aside h
  · have hr := handleResumeReq_aside psa o c i c.hs.rx.msg
    split at h <;> next he =>
      rw [he] at hr
      cases h
      first
        | exact hr.trans (settleStep_aside (.ok (), _) i)
        | exact hr.trans
            ((setKeys_aside _ i _).trans ((Aside.note _ i _).trans (joinFail_aside _ i)))
  · cases h
    exact .refl c

theorem admitJoiner_aside (o : Oracle) (c : Node cfg) (src : Addr) :
    Aside c (admitJoiner o c src).2 := by
  have ha := lgNeighAlloc_aside c src
  unfold admitJoiner
  split <;> next he =>
    rw [he] at ha
    first
      | exact ha
      | dsimp only
        have hm := ha.trans (lgNeighMakeRoom_aside o _ etxOne)
        split
        · exact hm.trans (lgNeighAlloc_aside _ src)
        · exact hm

theorem contextFor_aside (o : Oracle) (c : Node cfg) (t : FrameType) (src : Addr)
    (airStartUs : ℕ) : Aside c (contextFor o c t src airStartUs).2 := by
  have ha := admitJoiner_aside o c src
  unfold contextFor
  split
  · exact .refl c
  · split
    · split <;> next he =>
        rw [he] at ha
        first
          | exact ha
          | split
            · exact ha
            · exact ha.trans ((setHs_aside _ _).trans (.keep _ _ _ rfl))
    · exact .refl c

theorem lgJoinRxPdu_aside {psa : Psa} {o : Oracle} {c c' : Node cfg} {t : FrameType} {rx : RxRec}
    (h : lgJoinRxPdu psa o c t rx = some c') : Aside c c' := by
  have hc := contextFor_aside o c t (getLe16 rx.pdu offSrc) rx.airStartUs
  unfold lgJoinRxPdu at h
  split at h
  · next d he =>
    rw [he] at hc
    cases h
    exact hc
  · next i d he =>
    rw [he] at hc
    have hr := (Aside.of_quiet (lgNeighRxRssi_quiet d i rx.rssi)).trans
      (reassemble_aside psa o _ i t rx.pdu)
    split at h <;> next he' =>
      rw [he'] at hr
      first
        | cases h
          exact hc.trans hr
        | exact hc.trans (hr.trans (handleMessage_aside h))

theorem buildJoinReq_aside (o : Oracle) (c : Node cfg) (i : Fin cfg.maxNeighbors) :
    Aside c (buildJoinReq o c i).2 := by
  have hn := drawNonce_aside o c i
  unfold buildJoinReq
  split
  · exact .refl c
  · dsimp only
    split
    · exact hn
    · exact hn.trans (.of_neigh_eq rfl rfl)

theorem buildResumeReq_aside (o : Oracle) (c : Node cfg) (i : Fin cfg.maxNeighbors) :
    Aside c (buildResumeReq o c i).2 := by
  unfold buildResumeReq
  split
  · exact .refl c
  · exact (drawNonce_aside o c i).trans (setHs_aside _ _)

theorem lgJoinStart_aside (o : Oracle) (c : Node cfg) (i : Fin cfg.maxNeighbors) :
    Aside c (lgJoinStart o c i).2 := by
  unfold lgJoinStart
  dsimp only
  split
  · exact .refl c
  · split
    · exact .refl c
    · split
      · exact .refl c
      · next j _ =>
        have hj := setJoin_aside c i j
        split
        · exact hj
        · split
          · exact hj
          · have hb : ∀ d : Node cfg, Aside d (if (c.neigh i).keys.hasLtk = true then
                buildResumeReq o d i else buildJoinReq o d i).2 := by
              intro d
              split
              · exact buildResumeReq_aside o d i
              · exact buildJoinReq_aside o d i
            split <;> next he =>
              refine (hj.trans (setHs_aside _ _)).trans
                (.trans (congrArg Prod.snd he ▸ hb _) ?_)
              first
                | exact joinFail_aside _ i
                | exact .trans (.keep _ i { Node.neigh _ i with state := .joining } rfl)
                    (.note _ i _)

end LockGrid
