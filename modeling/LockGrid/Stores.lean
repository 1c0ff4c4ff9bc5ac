import LockGrid.Calls

/-!
# What messages and beacons rest on

Most of the code leaves alone who the node is, the number of its next message, the cache of the
messages it has seen and, but for staging them anew, the copies of its beacon.
-/
namespace LockGrid

variable {cfg : Config} {psa : Psa} {c c' c'' d : Node cfg} {i : Fin cfg.maxNeighbors} {o : Oracle}

/-- Who the node is and whether it runs, its next message number and the messages it has seen. -/
def Node.mail (c : Node cfg) :
    Identity × Bool × UInt16 × (Fin dupCacheSize → Addr × UInt16) × ℕ :=
  (c.ident, c.started, c.msgIdNext, c.net.dupCache, c.net.dupNext)

def Node.stores (c : Node cfg) :=
  (c.mail, c.net.beaconCopy)

/-- No copy of the beacon is longer than a beacon with its MIC. -/
def Node.Terse (c : Node cfg) : Prop :=
  ∀ k, (c.net.beaconCopy k).pdu.length ≤ hdrLen + beaconLen + beaconMicLen

/-- Work that leaves the bookkeeping of messages alone, and stages no copy that is too long. -/
structure Minds (c c' : Node cfg) : Prop where
  mail : c'.mail = c.mail
  terse : c.Terse → c'.Terse

namespace Minds

theorem of_stores (h : c'.stores = c.stores) : Minds c c' := by
  have hcopy : c'.net.beaconCopy = c.net.beaconCopy := congrArg Prod.snd h
  refine ⟨congrArg Prod.fst h, fun ht => ?_⟩
  rw [Node.Terse, hcopy]
  exact ht

theorem refl (c : Node cfg) : Minds c c := of_stores rfl

theorem trans (h : Minds c c') (h' : Minds c' c'') : Minds c c'' :=
  ⟨h'.mail.trans h.mail, fun ht => h'.terse (h.terse ht)⟩

end Minds

theorem foldl_minds {β : Type*} (f : Node cfg → β → Node cfg) (hf : ∀ c b, Minds c (f c b))
    (l : List β) (c : Node cfg) : Minds c (l.foldl f c) := by
  induction l generalizing c with
  | nil => exact .refl c
  | cons b l ih => exact (hf c b).trans (ih (f c b))

/-! ## Routing and discovery -/

theorem lgChanResult_minds (c : Node cfg) (chan : ℕ) (ok : Bool) :
    Minds c (lgChanResult c chan ok) := by
  unfold lgChanResult
  split
  · exact .refl c
  · exact .of_stores rfl

theorem lgChanNoise_minds (c : Node cfg) (chan : ℕ) (dbm : ℤ) :
    Minds c (lgChanNoise c chan dbm) := by
  unfold lgChanNoise
  split
  · exact .refl c
  · split
    · exact .refl c
    · exact .of_stores rfl

theorem lgDiscRetune_minds (o : Oracle) (k : ℕ) (c : Node cfg) :
    Minds c (lgDiscRetune o k c) := .of_stores rfl

theorem lgRouteRecompute_minds (c : Node cfg) : Minds c (lgRouteRecompute c).2 := by
  unfold lgRouteRecompute
  split
  · exact .of_stores rfl
  · exact .of_stores rfl

theorem lgRouteAdd_minds (c : Node cfg) (dst via : Addr) (hops : UInt8) :
    Minds c (lgRouteAdd c dst via hops) := by
  unfold lgRouteAdd
  split
  · exact .refl c
  · split
    · exact .refl c
    · dsimp only
      split
      · exact .of_stores rfl
      · exact .of_stores rfl

theorem lgRouteNextHop_minds (c : Node cfg) (final : Addr) (flags : UInt8) :
    Minds c (lgRouteNextHop c final flags).2 := by
  change Minds c (dropDeadRoute c final flags)
  unfold dropDeadRoute
  split
  · exact .refl c
  · split
    · dsimp only
      split
      · exact .of_stores rfl
      · exact .refl c
    · exact .refl c

theorem gossipRecord_minds (c : Node cfg) (addr : Addr) (rank : ℕ) :
    Minds c (gossipRecord c addr rank) := by
  unfold gossipRecord
  split
  · exact .refl c
  · split
    · exact .refl c
    · exact .of_stores rfl

theorem gossipConsiderSeeking_minds (o : Oracle) (c : Node cfg) :
    Minds c (gossipConsiderSeeking o c) := by
  unfold gossipConsiderSeeking
  split
  · exact .refl c
  · dsimp only
    split
    · exact .refl c
    · exact .of_stores rfl

theorem advEntry_minds (peerRank : ℕ) (via : Addr) (c : Node cfg) (addr : Addr) (cost : ℕ) :
    Minds c (advEntry peerRank via c addr cost) := by
  have hg : Minds c (if peerRank ≠ rankInfinite then
      gossipRecord c addr (min (peerRank + cost) (rankInfinite - 1)) else c) := by
    split
    · exact gossipRecord_minds c _ _
    · exact .refl c
  have hadd : ∀ d : Node cfg, Minds c d →
      Minds c (if d.net.rank < peerRank ∧ d.net.rank ≠ rankInfinite then lgRouteAdd d addr via 2
        else d) := by
    intro d hd
    split
    · exact hd.trans (lgRouteAdd_minds d _ _ _)
    · exact hd
  exact hadd _ hg

theorem lgRouteHandleAdv_minds (o : Oracle) (c : Node cfg) (i : Fin cfg.maxNeighbors)
    (buf : Bytes) : Minds c (lgRouteHandleAdv o c i buf) := by
  unfold lgRouteHandleAdv
  split
  · exact .refl c
  · dsimp only
    refine .trans ?_ ((lgRouteRecompute_minds _).trans (gossipConsiderSeeking_minds o _))
    refine .trans ?_ (foldl_minds _ (fun c k => advEntry_minds _ _ c _ _) _ _)
    exact .of_stores rfl

theorem lgRouteHandleReg_minds (c : Node cfg) (i : Fin cfg.maxNeighbors) (buf : Bytes) :
    Minds c (lgRouteHandleReg c i buf) := by
  unfold lgRouteHandleReg
  split
  · exact .refl c
  · exact foldl_minds _ (fun c k => lgRouteAdd_minds c _ _ _) _ _

theorem applyRole_minds (o : Oracle) (c : Node cfg) (want : Role) :
    Minds c (applyRole o c want) := by
  unfold applyRole
  split
  · exact .refl c
  · refine .trans ?_ (lgDiscRetune_minds o 2 _)
    refine .trans ?_ (lgRouteRecompute_minds _)
    exact .of_stores rfl

theorem lgRoleEvaluate_minds (o : Oracle) (c : Node cfg) : Minds c (lgRoleEvaluate o c) := by
  rcases lgRoleEvaluate_cases o c with h | ⟨-, want, h⟩ <;> rw [h]
  · exact .refl c
  · exact applyRole_minds o c want

theorem lgBackhaulSet_minds (o : Oracle) (c : Node cfg) (up : Bool) :
    Minds c (lgBackhaulSet o c up) := by
  unfold lgBackhaulSet
  dsimp only
  split_ifs
  · exact .refl c
  · refine .trans ?_ (lgRoleEvaluate_minds o _)
    exact .of_stores rfl
  · exact .of_stores rfl

theorem linksChanged_minds (o : Oracle) (c : Node cfg) : Minds c (linksChanged o c) := by
  unfold linksChanged
  dsimp only
  refine .trans ?_ (lgDiscRetune_minds o 7 _)
  refine .trans ?_ (lgRoleEvaluate_minds o _)
  refine (lgRouteRecompute_minds c).trans ?_
  exact .of_stores rfl

/-- What is sealed is the beacon and its MIC. -/
theorem lgSecBeaconSeal_length {ok : Bool} {netKey pdu out : Bytes}
    (h : lgSecBeaconSeal psa ok netKey pdu = some out) :
    out.length = pdu.length + beaconMicLen := by
  unfold lgSecBeaconSeal at h
  split at h
  · cases h
  · obtain ⟨mic, hmic, rfl⟩ := Option.map_eq_some_iff.mp h
    have hlen : mic.length = beaconMicLen := by
      unfold beaconMac at hmic
      dsimp only at hmic
      split at hmic
      · next hout =>
        simp only [Bool.and_eq_true, decide_eq_true_eq] at hout
        cases hmic
        simp only [List.length_take]
        omega
      · cases hmic
    rw [List.length_append, hlen]

theorem beaconStage_minds (psa : Psa) (o : Oracle) (c : Node cfg) :
    Minds c (beaconStage psa o c) := by
  refine ⟨rfl, fun _ k => ?_⟩
  simp only [beaconStage]
  split
  · exact Nat.zero_le _
  · next pdu hseal =>
    rw [lgSecBeaconSeal_length hseal]
    exact le_rfl

theorem lgDiscBeaconFinish_minds (psa : Psa) (o : Oracle) (c : Node cfg) :
    Minds c (lgDiscBeaconFinish psa o c) := by
  refine .trans ?_ (beaconStage_minds psa o _)
  exact .of_stores rfl

theorem trackResult_minds (c : Node cfg) (heard : Bool) : Minds c (trackResult c heard) := by
  have htrack : ∀ i, Minds c (lgDiscTrackResult c i heard) := by
    intro i
    unfold lgDiscTrackResult
    dsimp only
    split_ifs <;> exact .of_stores rfl
  unfold trackResult
  split
  · exact htrack _
  · exact .refl c

/-! ## The queue -/

theorem lgTxqPeek_minds (c : Node cfg) (peer : Addr) : Minds c (lgTxqPeek c peer).2 := by
  have hnext : ∀ (c : Node cfg) (m : TxMsg), Minds c (msgNextHop c m).2 := by
    intro c m
    unfold msgNextHop
    split
    · exact .refl c
    · exact lgRouteNextHop_minds c _ _
  have hone : ∀ (st : Option (Fin cfg.txQueueSize) × Node cfg) k,
      Minds st.2 (peekSlot peer st k).2 := by
    intro st k
    have h := hnext st.2 (st.2.txq k)
    unfold peekSlot
    dsimp only
    split
    · exact .refl _
    · split
      · exact h
      · split
        · exact h
        · split <;> exact h
  have hall : ∀ (l : List (Fin cfg.txQueueSize)) (st : Option (Fin cfg.txQueueSize) × Node cfg),
      Minds st.2 (l.foldl (peekSlot peer) st).2 := by
    intro l
    induction l with
    | nil => exact fun st => .refl st.2
    | cons k l ih => exact fun st => (hone st k).trans (ih _)
  exact hall _ (none, c)

theorem lgSchedExpedite_minds (c : Node cfg) (i : Fin cfg.maxNeighbors) :
    Minds c (lgSchedExpedite c i) := by
  obtain ⟨s, h⟩ := lgSchedExpedite_eq c i
  rw [h]
  exact .of_stores rfl

theorem sendCopies_minds (m : TxMsg) (l : List (Fin cfg.maxNeighbors)) (st : ℕ × Node cfg) :
    Minds st.2 (sendCopies m l st).2 := by
  induction l generalizing st with
  | nil => exact .refl _
  | cons i rest ih =>
    obtain ⟨sent, c⟩ := st
    rw [sendCopies]
    split
    · exact ih (sent, c)
    · split
      · exact .refl c
      · next k _ =>
        have henq : Minds c (enqueue c k { m with finalDst := (c.neigh i).addr }) :=
          .of_stores rfl
        exact (henq.trans (lgSchedExpedite_minds _ i)).trans (ih (sent + 1, _))

theorem lgSendForward_minds (c : Node cfg) (m : TxMsg) : Minds c (lgSendForward c m).2 := by
  have hq := lgRouteNextHop_minds c m.finalDst m.flags
  unfold lgSendForward
  dsimp only
  split
  · exact .refl c
  · split
    · exact .refl c
    · split
      · exact sendCopies_minds m _ (0, c)
      · split
        · exact hq
        · split
          · exact hq
          · refine hq.trans ?_
            exact .of_stores rfl

/-- Every call of `lg_send` uses up a number. -/
theorem lgSend_minds (c : Node cfg) (dst : Addr) (port : UInt8) (payload : Bytes)
    (flags : UInt8) :
    Minds { c with msgIdNext := c.msgIdNext + 1 } (lgSend c dst port payload flags).2 := by
  unfold lgSend
  dsimp only
  split <;> next hs =>
    have h1 := congrArg Prod.snd hs ▸ lgSendForward_minds { c with msgIdNext := c.msgIdNext + 1 } _
    first
      | exact h1
      | split
        · split
          · exact h1.trans (lgSchedExpedite_minds _ _)
          · exact h1
        · exact h1

theorem forwardData_minds (c : Node cfg) (m : TxMsg) : Minds c (forwardData c m) := by
  have hq := lgRouteNextHop_minds c m.finalDst 0
  unfold forwardData
  dsimp only
  split
  · exact .refl c
  · split
    · split
      · exact hq
      · exact hq.trans (lgSendForward_minds _ _)
    · exact lgSendForward_minds c _

/-! ## Handshakes -/

theorem lgSecEncrypt_stores (psa : Psa) (ok : Bool) (c : Node cfg) (i : Fin cfg.maxNeighbors)
    (pdu : Bytes) (hdr : ℕ) : (lgSecEncrypt psa ok c i pdu hdr).2.stores = c.stores := by
  rcases lgSecEncrypt_cases psa ok c i pdu hdr with h | ⟨-, h⟩ | ⟨key, aad, plain, -, -, h⟩ <;>
    rw [h]
  · rfl
  · rfl

theorem lgSecDecrypt_stores (psa : Psa) (ok : Bool) (c : Node cfg) (i : Fin cfg.maxNeighbors)
    (pdu : Bytes) : (lgSecDecrypt psa ok c i pdu).2.stores = c.stores := by
  rcases lgSecDecrypt_cases psa ok c i pdu with h | ⟨r, m, h⟩ <;> rw [h]
  rfl

theorem deriveKeys_stores (psa : Psa) (o : Oracle) (c : Node cfg) (i : Fin cfg.maxNeighbors)
    (secret transcript : Bytes) :
    (deriveKeys psa o c i secret transcript).2.stores = c.stores := by
  obtain ⟨k, ins, ds, live, -, h⟩ := deriveKeys_cases psa o c i secret transcript
  rw [h]
  rfl

theorem deriveResumeKey_stores (psa : Psa) (o : Oracle) (c : Node cfg) (i : Fin cfg.maxNeighbors)
    (nonceJ : Bytes) : (deriveResumeKey psa o c i nonceJ).2.stores = c.stores := by
  rcases deriveResumeKey_cases psa o c i nonceJ with h | ⟨k, ins, live, -, h⟩ <;> rw [h]
  rfl

theorem rememberPeer_stores (c : Node cfg) (i : Fin cfg.maxNeighbors) (msg : Bytes)
    (info : CertInfo) : (rememberPeer c i msg info).stores = c.stores := rfl

theorem agreeJoinReq_stores (psa : Psa) (o : Oracle) (c : Node cfg) (i : Fin cfg.maxNeighbors)
    (msg : Bytes) : (agreeJoinReq psa o c i msg).2.stores = c.stores := by
  unfold agreeJoinReq
  split
  · rfl
  · split
    · rfl
    · next info _ =>
      have hr := rememberPeer_stores c i msg info
      generalize rememberPeer c i msg info = d at hr ⊢
      split
      · rfl
      · dsimp only
        split
        · exact hr
        · split
          · exact hr
          · split
            · exact hr
            · split <;> exact hr

theorem handleJoinReq_stores (psa : Psa) (o : Oracle) (c : Node cfg) (i : Fin cfg.maxNeighbors)
    (msg : Bytes) : (handleJoinReq psa o c i msg).2.stores = c.stores := by
  have ha := agreeJoinReq_stores psa o c i msg
  unfold handleJoinReq
  split
  · next he =>
    rw [he] at ha
    exact ha
  · next t secret d he =>
    rw [he] at ha
    let e : Node cfg := { d with hist := { d.hist with reqDerived := d.hist.reqDerived + 1 } }
    have hd := (deriveKeys_stores psa o e i secret t).trans ha
    dsimp only
    split <;> next hk =>
      rw [hk] at hd
      first
        | exact hd
        | split <;> exact hd

theorem agreeJoinRsp_stores (psa : Psa) (o : Oracle) (c : Node cfg) (i : Fin cfg.maxNeighbors)
    (msg : Bytes) : (agreeJoinRsp psa o c i msg).2.stores = c.stores := by
  unfold agreeJoinRsp
  split
  · rfl
  · split
    · rfl
    · next info _ =>
      have hr := rememberPeer_stores c i msg info
      generalize rememberPeer c i msg info = d at hr ⊢
      split
      · rfl
      · dsimp only
        split
        · exact hr
        · split
          · exact hr
          · split <;> exact hr

theorem handleJoinRsp_stores (psa : Psa) (o : Oracle) (c : Node cfg) (i : Fin cfg.maxNeighbors)
    (msg : Bytes) : (handleJoinRsp psa o c i msg).2.stores = c.stores := by
  have ha := agreeJoinRsp_stores psa o c i msg
  unfold handleJoinRsp
  split
  · next he =>
    rw [he] at ha
    exact ha
  · next t secret d he =>
    rw [he] at ha
    let e : Node cfg := { d with hist := { d.hist with rspDerived := t :: d.hist.rspDerived } }
    have hd := (deriveKeys_stores psa o e i secret t).trans ha
    dsimp only
    split <;> next hk =>
      rw [hk] at hd
      first
        | exact hd
        | split <;> exact hd

theorem handleJoinCfm_stores (psa : Psa) (o : Oracle) (c : Node cfg) (i : Fin cfg.maxNeighbors)
    (msg : Bytes) : (handleJoinCfm psa o c i msg).2.stores = c.stores := by
  unfold handleJoinCfm
  split
  · rfl
  · dsimp only
    split <;> rfl

theorem handleResumeReq_stores (psa : Psa) (o : Oracle) (c : Node cfg) (i : Fin cfg.maxNeighbors)
    (msg : Bytes) : (handleResumeReq psa o c i msg).2.stores = c.stores := by
  unfold handleResumeReq
  split
  · rfl
  · dsimp only
    have hd := deriveResumeKey_stores psa o
      (c.setJoin i { (c.neigh i).join with noncePeer := msg }) i msg
    split <;> next he =>
      rw [he] at hd
      exact hd

theorem buildJoinReq_stores (o : Oracle) (c : Node cfg) (i : Fin cfg.maxNeighbors) :
    (buildJoinReq o c i).2.stores = c.stores := by
  unfold buildJoinReq
  split
  · rfl
  · dsimp only
    split <;> rfl

theorem buildResumeReq_stores (o : Oracle) (c : Node cfg) (i : Fin cfg.maxNeighbors) :
    (buildResumeReq o c i).2.stores = c.stores := by
  unfold buildResumeReq
  split <;> rfl

theorem addFragment_stores (c : Node cfg) (t : FrameType) (sec : Bool) (key : Option Bytes)
    (pdu : Bytes) : (addFragment c t sec key pdu).2.stores = c.stores := by
  unfold addFragment
  dsimp only
  generalize (if sec then hdrLenSec else hdrLen) = hdr
  split
  · rfl
  · split
    · rfl
    · split <;> rfl

theorem reassemble_stores (psa : Psa) (o : Oracle) (c : Node cfg) (i : Fin cfg.maxNeighbors)
    (t : FrameType) (pdu : Bytes) : (reassemble psa o c i t pdu).2.stores = c.stores := by
  have hd := lgSecDecrypt_stores psa (o.ok .decrypt) c i pdu
  unfold reassemble
  split
  · split <;> next he =>
      rw [he] at hd
      first
        | exact hd
        | exact (addFragment_stores _ t true _ _).trans hd
  · exact addFragment_stores c t false none pdu

theorem joinFail_stores (c : Node cfg) (i : Fin cfg.maxNeighbors) :
    (joinFail c i).stores = c.stores := by
  obtain ⟨_, _, _, h⟩ := joinFail_table c i
  rw [h]
  rfl

theorem settleStep_stores (r : Except Err Unit × Node cfg) (i : Fin cfg.maxNeighbors) :
    (settleStep r i).stores = r.2.stores := by
  unfold settleStep
  split
  · exact joinFail_stores _ i
  · rfl

/-! ## Links -/

theorem lgLinkEstablish_minds {pp : LinkParams} {initiator : Bool}
    (h : lgLinkEstablish o c i pp initiator = some d) : Minds c d := by
  obtain ⟨s, -, rfl⟩ := Option.map_eq_some_iff.mp h
  refine .trans ?_ (linksChanged_minds o _)
  exact .of_stores rfl

theorem lgLinkDown_minds (o : Oracle) (c : Node cfg) (i : Fin cfg.maxNeighbors) :
    Minds c (lgLinkDown o c i) := by
  rw [lgLinkDown_eq]
  dsimp only
  split
  · exact .refl c
  · refine .trans ?_ (linksChanged_minds o _)
    exact .of_stores rfl

theorem lgNeighAlloc_minds (c : Node cfg) (addr : Addr) : Minds c (lgNeighAlloc c addr).2 := by
  obtain ⟨_, _, _, _, h⟩ := lgNeighAlloc_table c addr
  rw [h]
  exact .of_stores rfl

theorem lgNeighFree_minds (c : Node cfg) (i : Fin cfg.maxNeighbors) :
    Minds c (lgNeighFree c i) := by
  obtain ⟨_, _, _, _, h⟩ := lgNeighFree_table c i
  rw [h]
  exact .of_stores rfl

theorem lgNeighMakeRoom_minds (o : Oracle) (c : Node cfg) (candCost : ℕ) :
    Minds c (lgNeighMakeRoom o c candCost).2 := by
  unfold lgNeighMakeRoom
  dsimp only
  split
  · exact .refl c
  · split
    · exact lgNeighFree_minds c _
    · split
      · next k _ => exact (lgLinkDown_minds o c k).trans (lgNeighFree_minds _ k)
      · exact .refl c

theorem admitJoiner_minds (o : Oracle) (c : Node cfg) (src : Addr) :
    Minds c (admitJoiner o c src).2 := by
  have ha := lgNeighAlloc_minds c src
  unfold admitJoiner
  split <;> next he =>
    rw [he] at ha
    first
      | exact ha
      | dsimp only
        have hr := ha.trans (lgNeighMakeRoom_minds o _ etxOne)
        split
        · exact hr.trans (lgNeighAlloc_minds _ src)
        · exact hr

theorem contextFor_minds (o : Oracle) (c : Node cfg) (t : FrameType) (src : Addr)
    (airStartUs : ℕ) : Minds c (contextFor o c t src airStartUs).2 := by
  have ha := admitJoiner_minds o c src
  unfold contextFor
  split
  · exact .refl c
  · split
    · split <;> next he =>
        rw [he] at ha
        first
          | exact ha
          | split
            · exact ha
            · refine ha.trans ?_
              exact .of_stores rfl
    · exact .refl c

theorem handleMessage_minds {t : FrameType} {sec : Bool} {airStartUs : ℕ}
    (h : handleMessage psa o c i t sec airStartUs = some d) : Minds c d := by
  have hfinish : finishJoiner o c i t sec airStartUs = some d → Minds c d := by
    intro h
    unfold finishJoiner at h
    split at h
    · cases h
      exact .of_stores (joinFail_stores c i)
    · obtain ⟨e, he, rfl⟩ := Option.map_eq_some_iff.mp h
      refine .trans ?_ ((lgLinkEstablish_minds he).trans ?_)
      · exact .of_stores rfl
      · exact .of_stores rfl
  unfold handleMessage at h
  dsimp only at h
  cases t with
  | joinReq =>
    cases h
    exact .of_stores ((settleStep_stores _ i).trans (handleJoinReq_stores psa o c i _))
  | joinRsp =>
    cases h
    exact .of_stores ((settleStep_stores _ i).trans (handleJoinRsp_stores psa o c i _))
  | joinCfm =>
    cases h
    exact .of_stores ((settleStep_stores _ i).trans (handleJoinCfm_stores psa o c i _))
  | joinAck | resumeRsp => exact hfinish h
  | resumeReq =>
    have hr := handleResumeReq_stores psa o c i c.hs.rx.msg
    dsimp only at h
    split at h <;> next he =>
      rw [he] at hr
      cases h
      first
        | exact .of_stores ((joinFail_stores _ i).trans hr)
        | exact .of_stores ((settleStep_stores _ i).trans hr)
  | beacon | linkReq | linkRsp | data | ack | ctrl =>
    cases h
    exact .refl c

theorem lgJoinRxPdu_minds {t : FrameType} {rx : RxRec} (h : lgJoinRxPdu psa o c t rx = some d) :
    Minds c d := by
  have hctx := contextFor_minds o c t (getLe16 rx.pdu offSrc) rx.airStartUs
  unfold lgJoinRxPdu at h
  split at h
  · next he =>
    rw [he] at hctx
    cases h
    exact hctx
  · next i e he =>
    rw [he] at hctx
    have hre := reassemble_stores psa o (lgNeighRxRssi e i rx.rssi) i t rx.pdu
    split at h <;> next hr =>
      rw [hr] at hre
      have hpart : Minds c _ := hctx.trans (.of_stores hre)
      first
        | cases h
          exact hpart
        | exact hpart.trans (handleMessage_minds h)

theorem lgJoinEventFinish_minds (h : lgJoinEventFinish o c = some d) : Minds c d := by
  unfold lgJoinEventFinish at h
  split at h
  · cases h
    exact .of_stores rfl
  · split at h
    · cases h
      exact .of_stores rfl
    · split at h
      · obtain ⟨e, he, rfl⟩ := Option.map_eq_some_iff.mp h
        refine .trans ?_ ((lgLinkEstablish_minds he).trans ?_)
        · exact .of_stores rfl
        · exact .of_stores rfl
      · dsimp only at h
        split at h <;> cases h
        · exact .of_stores (joinFail_stores _ _)
        · exact .of_stores rfl

theorem lgJoinStart_minds (o : Oracle) (c : Node cfg) (i : Fin cfg.maxNeighbors) :
    Minds c (lgJoinStart o c i).2 := by
  have hbuild : ∀ (c : Node cfg) (b : Bool),
      (if b then buildResumeReq o c i else buildJoinReq o c i).2.stores = c.stores := by
    intro c b
    cases b
    · exact buildJoinReq_stores o c i
    · exact buildResumeReq_stores o c i
  unfold lgJoinStart
  dsimp only
  split
  · exact .refl c
  · split
    · exact .refl c
    · split
      · exact .refl c
      · next j _ =>
        split
        · exact .of_stores rfl
        · split
          · exact .of_stores rfl
          · split <;> next he =>
              have hb := congrArg (fun r => Node.stores (Prod.snd r)) he
              rw [hbuild] at hb
              first
                | exact .of_stores ((joinFail_stores _ i).trans hb.symm)
                | exact .of_stores hb.symm

theorem lgLinkEventMiss_minds (o : Oracle) (c : Node cfg) (i : Fin cfg.maxNeighbors) :
    Minds c (lgLinkEventMiss o c i) := by
  have hc : Minds c (lgChanResult (lgNeighTxResult c i false)
      (lgLinkNextChan (c.neigh i).sched) false) := by
    refine .trans ?_ (lgChanResult_minds _ _ false)
    exact .of_stores rfl
  unfold lgLinkEventMiss
  dsimp only
  split
  · exact hc.trans (lgLinkDown_minds o _ i)
  · exact hc

theorem stageSeal_minds (psa : Psa) (ok : Bool) (c : Node cfg) (i : Fin cfg.maxNeighbors)
    (t : FrameType) (more : Bool) (body : Bytes) (staged : Staged) :
    Minds c (stageSeal psa ok c i t more body staged).2 := by
  unfold stageSeal
  dsimp only
  split <;> next he =>
    have hs := congrArg Prod.snd he ▸ lgSecEncrypt_stores psa ok _ i _ _
    exact .of_stores hs

theorem lgLinkStageTx_minds (psa : Psa) (ok : Bool) (c : Node cfg) (i : Fin cfg.maxNeighbors) :
    Minds c (lgLinkStageTx psa ok c i).2 := by
  have hset : ∀ (c : Node cfg) (t : TxStage), Minds c (c.setTx i t) := fun _ _ => .of_stores rfl
  have hadv : ∀ c : Node cfg, Minds c (noteAdvertised c i) := fun _ => .of_stores rfl
  unfold lgLinkStageTx
  dsimp only
  split
  · exact .refl c
  · split
    · exact (hset c _).trans (stageSeal_minds psa ok _ i _ _ _ _)
    · split
      · exact ((hset c _).trans (hadv _)).trans (stageSeal_minds psa ok _ i _ _ _ _)
      · have hpeek := lgTxqPeek_minds (c.setTx i { (c.neigh i).tx with txWasCtrl := false })
          (c.neigh i).addr
        have hp := (hset c _).trans hpeek
        split
        · next k d he =>
          rw [he] at hp
          have hpending : Minds d (lgTxqPending d (c.neigh i).addr).2 := lgTxqPeek_minds d _
          exact ((hp.trans hpending).trans (hset _ _)).trans (stageSeal_minds psa ok _ i _ _ _ _)
        · next d he =>
          rw [he] at hp
          exact (hp.trans (hset d _)).trans (stageSeal_minds psa ok _ i _ _ _ _)

theorem subrateUpdateLink_minds (c : Node cfg) (i : Fin cfg.maxNeighbors) :
    Minds c (subrateUpdateLink c i) := by
  unfold subrateUpdateLink
  dsimp only
  split
  · exact .refl c
  · refine (lgTxqPeek_minds c (c.neigh i).addr).trans ?_
    exact .of_stores rfl

theorem lgLinkEventFinish_minds (psa : Psa) (o : Oracle) (c : Node cfg)
    (i : Fin cfg.maxNeighbors) : Minds c (lgLinkEventFinish psa o c i) := by
  have hsettle : Minds c (settleOutcome o c i) := by
    unfold settleOutcome
    dsimp only
    split
    · exact lgLinkEventMiss_minds o c i
    · split
      · refine (lgTxqPeek_minds c (c.neigh i).addr).trans ?_
        split <;> exact .of_stores rfl
      · exact .refl c
  unfold lgLinkEventFinish
  dsimp only
  split
  · exact hsettle
  · refine .trans ?_ (lgLinkStageTx_minds psa _ _ i)
    refine .trans ?_ (subrateUpdateLink_minds _ i)
    refine hsettle.trans ?_
    exact .of_stores rfl

theorem handleCtrl_minds (o : Oracle) (c : Node cfg) (i : Fin cfg.maxNeighbors) (body : Bytes) :
    Minds c (handleCtrl o c i body) := by
  rcases handleCtrl_cases o c i body with h | ⟨s, h, -, -⟩ | ⟨-, h⟩ | ⟨-, h⟩ | ⟨-, h⟩ <;> rw [h]
  · exact .refl c
  · exact .of_stores rfl
  · exact lgRouteHandleAdv_minds o c i body
  · exact lgRouteHandleReg_minds c i body
  · exact lgLinkDown_minds o c i

/-! ## The radio -/

theorem lgRxPost_minds (c : Node cfg) (rx : RxRec) : Minds c (lgRxPost c rx) := by
  unfold lgRxPost
  split
  · exact .refl c
  · exact .of_stores rfl

theorem lgSchedEventDone_minds (c : Node cfg) : Minds c (lgSchedEventDone c) := .of_stores rfl

theorem command_minds (o : Oracle) (c : Node cfg) (p : Phy) : Minds c (command o c p) := by
  unfold command
  split
  · exact .of_stores rfl
  · exact lgSchedEventDone_minds c

theorem linkStart_minds (o : Oracle) (c : Node cfg) (i : Fin cfg.maxNeighbors) :
    Minds c (linkStart o c i) := by
  refine .trans ?_ (command_minds o _ _)
  exact .of_stores rfl

theorem linkTxDone_minds (o : Oracle) (c : Node cfg) (i : Fin cfg.maxNeighbors) :
    Minds c (linkTxDone o c i) := by
  unfold linkTxDone
  dsimp only
  split
  · exact .of_stores rfl
  · refine .trans ?_ (command_minds o _ .rx)
    exact .of_stores rfl

theorem linkRxDone_minds (o : Oracle) (c : Node cfg) (i : Fin cfg.maxNeighbors) (rx : RxRec) :
    Minds c (linkRxDone o c i rx) := by
  have hn : Minds c (noteLinkFrame c i rx) := by
    have hpost : ∀ d, Minds d (lgNeighTxResult (lgRxPost d rx) i true) := by
      intro d
      refine (lgRxPost_minds d rx).trans ?_
      exact .of_stores rfl
    refine .trans ?_ (hpost _)
    refine .trans ?_ (lgChanResult_minds _ _ true)
    exact .of_stores rfl
  unfold linkRxDone
  dsimp only
  generalize noteLinkFrame c i rx = d at hn ⊢
  split
  · refine hn.trans ?_
    exact .of_stores rfl
  · split
    · refine .trans ?_ (command_minds o _ .tx)
      refine hn.trans ?_
      exact .of_stores rfl
    · refine hn.trans ?_
      exact .of_stores rfl

theorem linkRxFail_minds (c : Node cfg) (i : Fin cfg.maxNeighbors) (reason : RxFail) :
    Minds c (linkRxFail c i reason) := by
  have hc : Minds c (if reason = .crc ∨ reason = .timeout then lgChanResult c c.ev.chan false
      else c) := by
    split
    · exact lgChanResult_minds c _ false
    · exact .refl c
  unfold linkRxFail
  refine .trans ?_ (lgSchedEventDone_minds _)
  generalize (if reason = .crc ∨ reason = .timeout then lgChanResult c c.ev.chan false
    else c) = d at hc
  split
  · refine hc.trans ?_
    exact .of_stores rfl
  · exact hc

theorem sendCopy_minds (o : Oracle) (c : Node cfg) (k : ℕ) (h : Minds c d) :
    Minds c (sendCopy o c k d) := by
  unfold sendCopy
  split
  · split
    · exact h
    · exact .of_stores rfl
  · exact h

theorem beaconStart_minds (o : Oracle) (c : Node cfg) : Minds c (beaconStart o c) := by
  have h : Minds c { c with net := { c.net with beaconCopyIdx := 0 } } := .of_stores rfl
  unfold beaconStart
  dsimp only
  split
  · exact .of_stores rfl
  · exact h.trans (sendCopy_minds o _ 0 (lgSchedEventDone_minds _))

theorem beaconTxDone_minds (o : Oracle) (c : Node cfg) (airEndUs : ℕ) :
    Minds c (beaconTxDone o c airEndUs) := by
  let e : Node cfg := { c with net := { c.net with beaconCopyIdx := c.net.beaconCopyIdx + 1 } }
  have h : Minds c e := .of_stores rfl
  unfold beaconTxDone
  refine h.trans (sendCopy_minds o e _ ?_)
  split
  · exact .of_stores rfl
  · exact lgSchedEventDone_minds e

theorem listenOn_minds (o : Oracle) (c : Node cfg) : Minds c (listenOn o c) := by
  unfold listenOn
  split
  · exact command_minds o c .rx
  · exact lgSchedEventDone_minds c

theorem scanRxDone_minds (o : Oracle) (c : Node cfg) (rx : RxRec) :
    Minds c (scanRxDone o c rx) := by
  have h := lgRxPost_minds c rx
  unfold scanRxDone
  dsimp only
  split
  · refine h.trans ?_
    exact .of_stores rfl
  · exact h.trans (listenOn_minds o _)

theorem sendFragment_minds (psa : Psa) (o : Oracle) (c : Node cfg) (idx : ℕ) :
    Minds c (sendFragment psa o c idx) := by
  have hb : Minds c (buildFragment psa o c idx).2 := by
    unfold buildFragment
    split
    · exact .refl c
    · next i _ =>
      dsimp only
      split
      · split <;> next he =>
          have hs := congrArg Prod.snd he ▸ lgSecEncrypt_stores psa (o.ok .encrypt) _ i _ _
          exact .of_stores hs
      · exact .of_stores rfl
  unfold sendFragment
  dsimp only
  split
  · refine hb.trans ?_
    exact .of_stores rfl
  · refine .trans ?_ (command_minds o _ .tx)
    refine hb.trans ?_
    exact .of_stores rfl

theorem joinTxStart_minds (psa : Psa) (o : Oracle) (c : Node cfg) :
    Minds c (joinTxStart psa o c) := by
  unfold joinTxStart
  split
  · exact lgSchedEventDone_minds c
  · refine .trans ?_ (sendFragment_minds psa o _ 0)
    exact .of_stores rfl

theorem joinTxDone_minds (psa : Psa) (o : Oracle) (c : Node cfg) (airEndUs : ℕ) :
    Minds c (joinTxDone psa o c airEndUs) := by
  unfold joinTxDone
  dsimp only
  split
  · refine .trans ?_ (sendFragment_minds psa o _ _)
    exact .of_stores rfl
  · exact .of_stores rfl

theorem joinRxFail_minds (o : Oracle) (c : Node cfg) (reason : RxFail) :
    Minds c (joinRxFail o c reason) := by
  unfold joinRxFail
  split
  · exact listenOn_minds o c
  · exact lgSchedEventDone_minds c

theorem tsGranted_minds (psa : Psa) (o : Oracle) (c : Node cfg) :
    Minds c (tsGranted psa o c) := by
  have hg : Minds c { c with granted := true } := .of_stores rfl
  refine hg.trans ?_
  unfold tsGranted
  dsimp only
  split
  · exact linkStart_minds o _ _
  · exact beaconStart_minds o _
  · exact command_minds o _ .rx
  · exact command_minds o _ .rx
  · exact joinTxStart_minds psa o _
  · refine .trans ?_ (command_minds o _ .rx)
    exact .of_stores rfl
  · exact (lgChanNoise_minds _ _ _).trans (lgSchedEventDone_minds _)
  · exact .of_stores rfl

theorem tsFailed_minds (o : Oracle) (c : Node cfg) : Minds c (tsFailed o c) := by
  unfold tsFailed
  split
  · exact .refl c
  · exact (lgLinkEventMiss_minds o c _).trans (lgSchedEventDone_minds _)
  · exact (trackResult_minds c false).trans (lgSchedEventDone_minds _)
  · exact .of_stores rfl
  · exact .of_stores rfl
  · exact lgSchedEventDone_minds c

theorem phyTxDone_minds (psa : Psa) (o : Oracle) (c : Node cfg) (airEndUs : ℕ) :
    Minds c (phyTxDone psa o c airEndUs) := by
  unfold phyTxDone
  split
  · exact linkTxDone_minds o c _
  · exact beaconTxDone_minds o c airEndUs
  · exact joinTxDone_minds psa o c airEndUs
  · exact lgSchedEventDone_minds c

theorem phyRxDone_minds (o : Oracle) (c : Node cfg) (rx : RxRec) :
    Minds c (phyRxDone o c rx) := by
  unfold phyRxDone
  split
  · exact linkRxDone_minds o c _ rx
  · exact scanRxDone_minds o c rx
  · exact ((lgRxPost_minds c rx).trans (trackResult_minds _ true)).trans
      (lgSchedEventDone_minds _)
  · exact (lgRxPost_minds c rx).trans (listenOn_minds o _)
  · exact lgSchedEventDone_minds c

theorem phyRxFailed_minds (o : Oracle) (c : Node cfg) (reason : RxFail) :
    Minds c (phyRxFailed o c reason) := by
  unfold phyRxFailed
  split
  · exact linkRxFail_minds c _ reason
  · exact joinRxFail_minds o c reason
  · exact joinRxFail_minds o c reason
  · exact (trackResult_minds c false).trans (lgSchedEventDone_minds _)
  · exact lgSchedEventDone_minds c

/-! ## The scheduler -/

theorem candidates_minds {p : List (Candidate cfg) × Node cfg} (h : candidates c = some p) :
    Minds c p.2 := by
  have hone : ∀ {c : Node cfg} {l : List (Candidate cfg)} {i : Fin cfg.maxNeighbors}
      {p : List (Candidate cfg) × Node cfg}, neighCandidate c l i = some p → Minds c p.2 := by
    intro c l i p h
    unfold neighCandidate at h
    dsimp only at h
    split at h
    · obtain ⟨⟨n, t⟩, -, rfl⟩ := Option.map_eq_some_iff.mp h
      exact .of_stores rfl
    · cases h
      exact .refl c
    · cases h
      exact .refl c
  have hfold : ∀ (l : List (Fin cfg.maxNeighbors)) (st p : List (Candidate cfg) × Node cfg),
      l.foldlM (fun st i => neighCandidate st.2 st.1 i) st = some p → Minds st.2 p.2 := by
    intro l
    induction l with
    | nil =>
      intro st p h
      cases h
      exact .refl _
    | cons i l ih =>
      intro st p h
      rw [List.foldlM_cons] at h
      obtain ⟨st', hst, h⟩ := Option.bind_eq_some_iff.mp h
      exact (hone hst).trans (ih st' p h)
  obtain ⟨⟨l, e⟩, he, rfl⟩ := Option.map_eq_some_iff.mp h
  refine (hfold _ ([], c) _ he).trans ?_
  exact .of_stores rfl

theorem eventPlan_minds (c : Node cfg) (cand : Candidate cfg) : Minds c (eventPlan c cand).2 := by
  unfold eventPlan
  dsimp only
  split
  · split <;> exact .refl c
  all_goals exact .of_stores rfl

theorem requestEvent_minds {cand : Candidate cfg} (h : requestEvent psa o c cand = some d) :
    Minds c d := by
  have hp := eventPlan_minds c cand
  have hlate : ∀ {e : Node cfg}, dropLate psa o e cand = some d → Minds e d := by
    intro e h
    unfold dropLate at h
    split at h
    · cases h
      exact .of_stores rfl
    · cases h
      exact lgDiscBeaconFinish_minds psa o e
    · cases h
      exact .of_stores rfl
    · cases h
      unfold lgDiscTrackResult
      dsimp only
      split_ifs <;> exact .of_stores rfl
    · cases h
      exact .of_stores rfl
    · exact lgJoinEventFinish_minds h
    · exact lgJoinEventFinish_minds h
    · cases h
      exact .refl _
  unfold requestEvent at h
  dsimp only at h
  split at h
  · exact hp.trans (hlate h)
  · split at h
    · cases h
      exact hp
    · cases h
      refine hp.trans ?_
      exact .of_stores rfl

theorem schedPick_minds (h : schedPick psa o c = some d) : Minds c d := by
  unfold schedPick at h
  split at h
  · cases h
    exact .refl c
  · split at h
    · cases h
    · next l e he =>
      have hc := candidates_minds he
      split at h
      · cases h
        exact hc
      · next cand _ =>
        have hs : Minds e (stageFor psa o e cand).2 := by
          unfold stageFor
          split
          · split
            · exact .refl e
            · next i _ _ _ =>
              have ht := lgLinkStageTx_minds psa (o.ok .encrypt) e i
              dsimp only
              split
              · exact ht
              · refine ht.trans ?_
                exact .of_stores rfl
          · exact .refl e
        dsimp only at h
        split at h
        · exact (hc.trans hs).trans (requestEvent_minds h)
        · cases h
          exact hc.trans hs

theorem settle_minds (h : settle psa o c = some d) : Minds c d := by
  unfold settle at h
  split at h
  · split at h <;> cases h
    · exact lgLinkEventFinish_minds psa o c _
    · exact .refl c
  · cases h
    exact (lgDiscBeaconFinish_minds psa o c).trans (lgRoleEvaluate_minds o _)
  · cases h
    refine .trans ?_ (lgRoleEvaluate_minds o _)
    exact .of_stores rfl
  · exact lgJoinEventFinish_minds h
  · exact lgJoinEventFinish_minds h
  · cases h
    unfold finishChanEval
    dsimp only
    split <;> exact .of_stores rfl
  · cases h
    exact .refl c
  · cases h
    exact .refl c

theorem schedFinish_minds {o' : Oracle} (h : schedFinish psa o o' c = some d) : Minds c d := by
  unfold schedFinish at h
  split at h
  · cases h
  · next e he =>
    refine (settle_minds he).trans ?_
    refine .trans ?_ (schedPick_minds h)
    exact .of_stores rfl

/-! ## Beacons -/

theorem noteBeacon_minds (o : Oracle) (c : Node cfg) (b : Beacon) (src : Addr) :
    Minds c (noteBeacon o c b src) := by
  have h : Minds c (if b.rank.toNat = rankInfinite then
      lgRoleEvaluate o (lgRoleNoteUnrouted c) else c) := by
    split
    · refine .trans ?_ (lgRoleEvaluate_minds o _)
      exact .of_stores rfl
    · exact .refl c
  refine h.trans ?_
  exact .of_stores rfl

theorem acceptBeacon_minds (o : Oracle) (c : Node cfg) (b : Beacon) (src : Addr) (rssi : ℤ)
    (airStartUs : ℕ) : Minds c (acceptBeacon o c b src rssi airStartUs) := by
  have hn := noteBeacon_minds o c b src
  have he : Minds (noteBeacon o c b src) (beaconEntry o (noteBeacon o c b src) b src rssi).2 := by
    unfold beaconEntry
    split
    · exact .refl _
    · split
      · exact admitJoiner_minds o _ src
      · exact .refl _
  have haim : ∀ (d : Node cfg) i, Minds d (aimAt o d i b airStartUs) := by
    intro d i
    have hstart : Minds d (lgJoinStart o (aimed o d i b airStartUs) i).2 := by
      refine .trans ?_ (lgJoinStart_minds o _ i)
      exact .of_stores rfl
    rcases aimAt_cases o d i b airStartUs with ⟨-, he⟩ | he
    · rw [he]
      refine hstart.trans ?_
      unfold lgSchedAbort
      split
      · exact lgSchedEventDone_minds _
      · exact .refl _
    · rwa [he]
  have hsender : ∀ (d : Node cfg) i, Minds d (noteSender d i b rssi airStartUs) :=
    fun _ _ => .of_stores rfl
  unfold acceptBeacon
  dsimp only
  split
  · next e hb =>
    rw [hb] at he
    exact hn.trans he
  · next i e hb =>
    rw [hb] at he
    have hall := (hn.trans he).trans (hsender e i)
    split
    · exact hall
    · split
      · exact hall
      · exact hall.trans (haim _ _)

theorem lgDiscBeaconRx_minds (psa : Psa) (o : Oracle) (c : Node cfg) (rx : RxRec) :
    Minds c (lgDiscBeaconRx psa o c rx) := by
  unfold lgDiscBeaconRx
  split
  · exact .refl c
  · split
    · exact .refl c
    · dsimp only
      split
      · exact .refl c
      · exact acceptBeacon_minds o c _ _ _ _

/-! ## Messages that come in -/

/-- The message that `handle_data` asks `lg_route_is_duplicate` about. -/
def dataAsked (body : Bytes) : Option (Addr × UInt16) :=
  if body.length < dataHdrLen ∨ payloadMax < body.length - dataHdrLen then none
  else some (getLe16 body 1, getLe16 body 7)

def linkAsked (psa : Psa) (o : Oracle) (c : Node cfg) (h : FrameHdr) (pdu : Bytes) :
    Option (Addr × UInt16) :=
  match lgNeighFind c h.src with
  | none => none
  | some i =>
    if (c.neigh i).state ≠ .linked ∨ !secured h.fcf then none
    else match lgSecDecrypt psa (o.ok .decrypt) c i pdu with
    | (.error _, _) => none
    | (.ok pdu, _) =>
      if FrameType.ofCode (h.fcf &&& fcfTypeMask) = some .data then dataAsked (pdu.drop hdrLenSec)
      else none

def dispatchAsked (psa : Psa) (o : Oracle) (c : Node cfg) (rx : RxRec) :
    Option (Addr × UInt16) :=
  match lgFrameHdrGet cfg rx.pdu c.ident.netid16 with
  | none => none
  | some h =>
    if h.src = c.ident.addr ∨ (h.dst ≠ c.ident.addr ∧ h.dst ≠ addrBroadcast) then none
    else match lgFrameType rx.pdu with
    | some .beacon => none
    | some t => if t.isJoin then none else linkAsked psa o c h rx.pdu
    | none => linkAsked psa o c h rx.pdu

/-- The message that a step asks `lg_route_is_duplicate` about. -/
def asked (psa : Psa) (o : Oracle) (c : Node cfg) : Input → Option (Addr × UInt16)
  | .rxWork =>
    match c.rxRing with
    | [] => none
    | rx :: rest => dispatchAsked psa o { c with rxRing := rest } rx
  | _ => none

/-- Work that asks about at most one message. -/
def Asks (q : Option (Addr × UInt16)) (c d : Node cfg) : Prop :=
  match q with
  | none => Minds c d
  | some (origin, msgId) => ∃ e, Minds c e ∧ Minds (lgRouteIsDuplicate e origin msgId).2 d

theorem Asks.before {q : Option (Addr × UInt16)} (h : Minds c c') (h' : Asks q c' d) :
    Asks q c d := by
  cases q with
  | none => exact h.trans h'
  | some m =>
    obtain ⟨e, he, hd⟩ := h'
    exact ⟨e, h.trans he, hd⟩

theorem Asks.after {q : Option (Addr × UInt16)} (h : Asks q c c') (h' : Minds c' d) :
    Asks q c d := by
  cases q with
  | none => exact h.trans h'
  | some m =>
    obtain ⟨e, he, hd⟩ := h
    exact ⟨e, he, hd.trans h'⟩

theorem handleData_asks (c : Node cfg) (body : Bytes) :
    Asks (dataAsked body) c (handleData c body) := by
  unfold dataAsked handleData
  by_cases hlen : body.length < dataHdrLen ∨ payloadMax < body.length - dataHdrLen
  · rw [if_pos hlen, if_pos hlen]
    exact Minds.refl c
  · rw [if_neg hlen, if_neg hlen]
    refine ⟨c, .refl c, ?_⟩
    dsimp only
    split
    · exact .refl _
    · split
      · exact .refl _
      · exact forwardData_minds _ _

theorem lgLinkRxFrame_asks (o : Oracle) (c : Node cfg) (i : Fin cfg.maxNeighbors) (fcf : UInt8)
    (payload : Bytes) :
    Asks (if FrameType.ofCode (fcf &&& fcfTypeMask) = some .data then dataAsked payload else none)
      c (lgLinkRxFrame o c i fcf payload) := by
  have hexpedite : ∀ d, Minds d (if fcf &&& fcfMd ≠ 0 then lgSchedExpedite d i else d) := by
    intro d
    split
    · exact lgSchedExpedite_minds d i
    · exact .refl d
  refine Asks.after ?_ (hexpedite _)
  cases ht : FrameType.ofCode (fcf &&& fcfTypeMask) with
  | none => exact Minds.refl c
  | some t =>
    cases t with
    | data =>
      rw [if_pos rfl]
      exact handleData_asks c payload
    | ctrl => exact handleCtrl_minds o c i payload
    | _ => exact Minds.refl c

theorem dispatchLink_asks (psa : Psa) (o : Oracle) (c : Node cfg) (h : FrameHdr) (pdu : Bytes) :
    Asks (linkAsked psa o c h pdu) c (dispatchLink psa o c h pdu) := by
  unfold linkAsked dispatchLink
  cases lgNeighFind c h.src with
  | none => exact Minds.refl c
  | some i =>
    dsimp only
    by_cases hrefused : (c.neigh i).state ≠ .linked ∨ (!secured h.fcf) = true
    · rw [if_pos hrefused, if_pos hrefused]
      exact Minds.refl c
    · rw [if_neg hrefused, if_neg hrefused]
      have hd := lgSecDecrypt_stores psa (o.ok .decrypt) c i pdu
      rcases hdec : lgSecDecrypt psa (o.ok .decrypt) c i pdu with ⟨r, e⟩
      rw [hdec] at hd
      cases r with
      | error err => exact Minds.of_stores hd
      | ok plain => exact Asks.before (.of_stores hd) (lgLinkRxFrame_asks o e i h.fcf _)

theorem rxHandler_asks (h : rxHandler psa o c = some d) : Asks (asked psa o c .rxWork) c d := by
  unfold rxHandler at h
  unfold asked
  cases hring : c.rxRing with
  | nil =>
    rw [hring] at h
    cases h
    exact Minds.refl c
  | cons rx rest =>
    rw [hring] at h
    dsimp only at h ⊢
    have hpopped : Minds c { c with rxRing := rest } := .of_stores rfl
    refine Asks.before hpopped ?_
    clear hpopped
    generalize ({ c with rxRing := rest } : Node cfg) = e at h ⊢
    unfold dispatch at h
    unfold dispatchAsked
    cases hget : lgFrameHdrGet cfg rx.pdu e.ident.netid16 with
    | none =>
      rw [hget] at h
      cases h
      exact Minds.refl _
    | some hdr =>
      rw [hget] at h
      dsimp only at h ⊢
      by_cases hdst : hdr.src = e.ident.addr ∨
          (hdr.dst ≠ e.ident.addr ∧ hdr.dst ≠ addrBroadcast)
      · rw [if_pos hdst] at h ⊢
        cases h
        exact Minds.refl _
      · rw [if_neg hdst] at h ⊢
        cases ht : lgFrameType rx.pdu with
        | none =>
          rw [ht] at h
          cases h
          exact dispatchLink_asks psa o e hdr rx.pdu
        | some t =>
          rw [ht] at h
          cases t with
          | beacon =>
            cases h
            exact lgDiscBeaconRx_minds psa o e rx
          | joinReq | joinRsp | joinCfm | joinAck | resumeReq | resumeRsp =>
            exact lgJoinRxPdu_minds h
          | linkReq | linkRsp | data | ack | ctrl =>
            cases h
            exact dispatchLink_asks psa o e hdr rx.pdu

/-! ## Steps -/

theorem lgTuningSet_minds (o : Oracle) (c : Node cfg) (t : Tuning) :
    Minds c (lgTuningSet o c t) := .of_stores rfl

theorem lgStop_minds (o : Oracle) (c : Node cfg) :
    Minds { c with started := false } (lgStop o c) := by
  have hdown : Minds c (stopLinks o (List.finRange cfg.maxNeighbors) c) :=
    foldl_minds _ (fun c i => lgLinkDown_minds _ c i) _ c
  unfold lgStop
  split
  · next hs =>
    refine .of_stores ?_
    rw [Node.stores, Node.mail, Bool.not_eq_true' _ |>.mp hs]
    rfl
  · have hmail := hdown.mail
    simp only [Node.mail, Prod.mk.injEq] at hmail
    obtain ⟨hident, -, hmsg, hcache, hnext⟩ := hmail
    refine ⟨?_, hdown.terse⟩
    simp only [Node.mail, hident, hmsg, hcache, hnext]

/-- `lg_start` does nothing, or numbers messages from 1 and forgets those the node has seen. -/
theorem lgStart_minds (psa : Psa) (o : Oracle) (c : Node cfg) :
    lgStart psa o c = c ∨ c.started = false ∧ c.ident.addr ≠ addrInvalid ∧
      Minds { c with
        msgIdNext := 1, net := netInit cfg c.nowUs c.net, started := true } (lgStart psa o c) := by
  unfold lgStart
  by_cases hs : c.started = true ∨ c.ident.addr = addrInvalid
  · exact .inl (if_pos hs)
  · rw [if_neg hs]
    simp only [not_or, Bool.not_eq_true] at hs
    split
    · exact .inl rfl
    · refine .inr ⟨hs.1, hs.2, ?_⟩
      refine .trans ?_ (lgDiscBeaconFinish_minds psa o _)
      refine .trans ?_ (lgRoleEvaluate_minds o _)
      exact .of_stores rfl

/-- A step other than `lg_send`, `lg_start` and `lg_stop` asks about at most one message. -/
theorem perform_asks {inp : Input} (h : perform psa o c inp = some d)
    (hsend : ∀ dst port payload flags, inp ≠ .send dst port payload flags)
    (hstart : inp ≠ .start) (hstop : inp ≠ .stop) : Asks (asked psa o c inp) c d := by
  cases inp with
  | tick us =>
    cases h
    exact Minds.of_stores rfl
  | schedWork => exact schedPick_minds h
  | finishWork o' => exact schedFinish_minds h
  | rxWork => exact rxHandler_asks h
  | granted =>
    cases h
    exact tsGranted_minds psa o c
  | refused =>
    cases h
    exact tsFailed_minds o c
  | txDone airEndUs =>
    cases h
    exact phyTxDone_minds psa o c airEndUs
  | rxDone rx =>
    cases h
    exact phyRxDone_minds o c rx
  | rxFailed reason =>
    cases h
    exact phyRxFailed_minds o c reason
  | send dst port payload flags => exact absurd rfl (hsend dst port payload flags)
  | backhaulSet up =>
    cases h
    exact lgBackhaulSet_minds o c up
  | tuningSet t =>
    cases h
    exact lgTuningSet_minds o c t
  | start => exact absurd rfl hstart
  | stop => exact absurd rfl hstop

/-! ## Copies of the beacon -/

theorem lgRouteIsDuplicate_terse (origin : Addr) (msgId : UInt16) (h : c.Terse) :
    (lgRouteIsDuplicate c origin msgId).2.Terse := by
  unfold lgRouteIsDuplicate
  split
  · exact h
  · exact h

theorem Asks.terse {q : Option (Addr × UInt16)} (h : Asks q c d) (hc : c.Terse) : d.Terse := by
  cases q with
  | none => exact Minds.terse h hc
  | some m =>
    obtain ⟨e, he, hd⟩ := h
    exact hd.terse (lgRouteIsDuplicate_terse _ _ (he.terse hc))

theorem perform_terse {inp : Input} (h : perform psa o c inp = some d) (hc : c.Terse) :
    d.Terse := by
  by_cases hsend : ∃ dst port payload flags, inp = .send dst port payload flags
  · obtain ⟨dst, port, payload, flags, rfl⟩ := hsend
    cases h
    exact (lgSend_minds c dst port payload flags).terse hc
  · by_cases hstart : inp = .start
    · subst hstart
      cases h
      rcases lgStart_minds psa o c with he | ⟨-, -, hm⟩
      · rwa [he]
      · exact hm.terse hc
    · by_cases hstop : inp = .stop
      · subst hstop
        cases h
        exact (lgStop_minds o c).terse hc
      · refine (perform_asks h ?_ hstart hstop).terse hc
        intro dst port payload flags he
        exact hsend ⟨dst, port, payload, flags, he⟩

/-- In every run, the copies of the beacon are no longer than a beacon with its MIC. -/
theorem Reachable.terse {ident : Identity} (h : Reachable psa ident c) : c.Terse := by
  induction h with
  | refl => exact fun _ => Nat.zero_le _
  | tail _ hs ih =>
    obtain ⟨inp, o, -, hp⟩ := hs
    exact perform_terse hp ih

end LockGrid
