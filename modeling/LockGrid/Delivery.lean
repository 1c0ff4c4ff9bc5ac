import LockGrid.Adoption
import LockGrid.Backlog
import LockGrid.Replay

/-!
# A data frame from end to end

What `lg_link_stage_tx` builds from a queued message, `dispatch` takes apart at the other end of the
link, and hands to `handle_data`. Between the two ends nothing can be put in its place.
-/
namespace LockGrid

variable {cfg cfg' : Config} {psa : Psa} {c d : Node cfg} {i : Fin cfg.maxNeighbors}

/-! ## Authenticated encryption -/

/-- The frame that was sealed. -/
def Sealed.frame (psa : Psa) (micLen : ℕ) (s : Sealed) : Bytes :=
  s.aad ++ psa.aeadEncrypt micLen s.key s.nonce s.aad s.plain

/-- AES-CCM while `log` is all that has been sealed: what is sealed is longer by the tag and opens
again, and nothing else opens. -/
structure Psa.Aead (psa : Psa) (micLen : ℕ) (log : List Sealed) : Prop where
  length : ∀ key nonce aad txt,
    (psa.aeadEncrypt micLen key nonce aad txt).length = txt.length + micLen
  opens : ∀ s ∈ log, psa.aeadDecrypt micLen s.key s.nonce s.aad
    (psa.aeadEncrypt micLen s.key s.nonce s.aad s.plain) = some s.plain
  only : ∀ key nonce aad ct txt, psa.aeadDecrypt micLen key nonce aad ct = some txt →
    ⟨key, nonce, aad, txt⟩ ∈ log ∧ ct = psa.aeadEncrypt micLen key nonce aad txt

/-! ## The data header -/

/-- What `handle_data` reads from a body; `none` if it returns at once. -/
def readData (body : Bytes) : Option TxMsg :=
  if body.length < dataHdrLen ∨ payloadMax < body.length - dataHdrLen then none
  else some {
    flags := getByte body 0
    origin := getLe16 body 1
    finalDst := getLe16 body 3
    hops := getByte body 5
    port := getByte body 6
    msgId := getLe16 body 7
    payload := body.drop dataHdrLen }

/-- What `handle_data` does with it. -/
def takeData (c : Node cfg) (m : TxMsg) : Node cfg :=
  let dup := lgRouteIsDuplicate c m.origin m.msgId
  let c := dup.2
  let bcast : Bool := m.flags &&& dataBroadcast ≠ 0
  let forUs : Bool := m.finalDst = c.ident.addr ||
    (m.flags &&& dataUpward ≠ 0 && c.net.role = .backhaul) || bcast
  if dup.1 then c
  else if forUs && (!bcast || m.finalDst = c.ident.addr) then c
  else forwardData c m

theorem handleData_eq (c : Node cfg) (body : Bytes) :
    handleData c body = (readData body).elim c (takeData c) := by
  unfold handleData readData
  split
  · rfl
  · rfl

/-- What goes on air of a message. -/
def TxMsg.wire (m : TxMsg) : TxMsg where
  flags := m.flags
  origin := m.origin
  finalDst := m.finalDst
  hops := m.hops
  port := m.port
  msgId := m.msgId
  payload := m.payload

theorem dataBody_length (m : TxMsg) : (dataBody m).length = dataHdrLen + m.payload.length := by
  simp only [dataBody, List.length_append, putLe16_length, List.length_cons, List.length_nil,
    dataHdrLen]

/-- The data header is read as it was written. -/
theorem readData_dataBody {m : TxMsg} (h : m.payload.length ≤ payloadMax) :
    readData (dataBody m) = some m.wire := by
  have hlen := dataBody_length m
  have horigin : getLe16 (dataBody m) 1 = m.origin :=
    getLe16_putLe16 m.origin
      (putLe16 m.finalDst ++ [m.hops, m.port] ++ putLe16 m.msgId ++ m.payload)
  have hfinal : getLe16 (dataBody m) 3 = m.finalDst :=
    getLe16_putLe16 m.finalDst ([m.hops, m.port] ++ putLe16 m.msgId ++ m.payload)
  have hid : getLe16 (dataBody m) 7 = m.msgId := getLe16_putLe16 m.msgId m.payload
  unfold readData
  rw [if_neg (by omega), horigin, hfinal, hid]
  rfl

/-! ## From the queue to the air -/

/-- The message that `lg_link_stage_tx` builds a data frame of, if it builds one. -/
def stagedMsg (c : Node cfg) (i : Fin cfg.maxNeighbors) : Option (Fin cfg.txQueueSize) :=
  let n := c.neigh i
  if n.state ≠ .linked ∨ !n.keys.hasKey then none
  else if n.sched.pendingCtrl.any then none
  else if (c.net.advUrgent && !(c.view i).advUrgentDone) ||
      routeAdvPeriodUs < c.nowUs - (c.view i).routeAdvUs then none
  else (lgTxqPeek c n.addr).1

/-- The header of a data frame for neighbour `i`, up to the frame counter. -/
def Node.dataFields (c : Node cfg) (i : Fin cfg.maxNeighbors) (more : Bool) : Bytes :=
  frameFields c.ident.netid16 (fcfOf .data true ||| if more then fcfMd else 0)
    (c.neigh i).tx.txSeq (c.neigh i).addr c.ident.addr

/-- What is sealed for it. -/
def Node.dataSealed (c : Node cfg) (i : Fin cfg.maxNeighbors) (key : Bytes) (more : Bool)
    (m : TxMsg) : Sealed where
  key := key
  nonce := nonceBuild c.ident.addr ((c.neigh i).keys.txCtr + 1)
  aad := c.dataFields i more ++ putLe32 ((c.neigh i).keys.txCtr + 1)
  plain := dataBody m

/-- What `lg_sec_encrypt` returns while there is a key and room for the tag. -/
theorem lgSecEncrypt_frame (psa : Psa) {fields body key : Bytes} (hlen : fields.length = offFctr)
    (hhas : (c.neigh i).keys.hasKey = true) (hkey : (c.neigh i).keys.keyId = some key)
    (hfit : hdrLenSec + body.length + cfg.micLen ≤ pduMax) :
    let s : Sealed := ⟨key, nonceBuild c.ident.addr ((c.neigh i).keys.txCtr + 1),
      fields ++ putLe32 ((c.neigh i).keys.txCtr + 1), body⟩
    lgSecEncrypt psa true c i (fields ++ zeros fctrLen ++ body) hdrLenSec =
      (.ok (s.frame psa cfg.micLen), useCtr c i s.key s.nonce s.aad s.plain) := by
  intro s
  have haad : s.aad.length = hdrLenSec := by
    simp [s, hlen, hdrLenSec, hdrLen, offFctr, fctrLen]
  have hsplice : splice (fields ++ zeros fctrLen ++ body) offFctr
      (putLe32 ((c.neigh i).keys.txCtr + 1)) = s.aad ++ s.plain := splice_fctr hlen _
  have htake : (s.aad ++ s.plain).take hdrLenSec = s.aad := List.take_left' haad
  have hdrop : (s.aad ++ s.plain).drop hdrLenSec = s.plain := List.drop_left' haad
  have hlong : ¬ (fields ++ zeros fctrLen ++ body).length < hdrLenSec := by
    simp only [List.length_append, hlen, zeros_length, hdrLenSec, hdrLen, offFctr, fctrLen]
    omega
  have hroom : ¬ pduMax < (s.aad ++ s.plain).length + cfg.micLen := by
    rw [List.length_append, haad]
    exact not_lt.mpr hfit
  unfold lgSecEncrypt
  simp only [hhas, Bool.not_true, Bool.false_eq_true, if_false, hlong, hsplice, htake, hdrop,
    hkey, hroom]
  rfl

/-- The `seal:` end makes one frame of a message, and it is the one that is noted. -/
theorem stageSeal_data (psa : Psa) (more : Bool) (staged : Staged) {key : Bytes} {m : TxMsg}
    (hhas : (c.neigh i).keys.hasKey = true) (hkey : (c.neigh i).keys.keyId = some key)
    (hpay : m.payload.length ≤ payloadMax) :
    ∃ e, stageSeal psa true c i .data more (dataBody m) staged = (true, e) ∧
      (e.neigh i).tx.txbuf = (c.dataSealed i key more m).frame psa cfg.micLen ∧
      c.dataSealed i key more m ∈ e.hist.calls := by
  have hsec : secured (fcfOf .data true ||| if more then fcfMd else 0) = true := by
    cases more <;> rfl
  have hmic := cfg.micLen_range.2
  have hfit : hdrLenSec + (dataBody m).length + cfg.micLen ≤ pduMax := by
    rw [dataBody_length]
    simp only [hdrLenSec, hdrLen, fctrLen, dataHdrLen, pduMax, payloadMax] at hpay ⊢
    omega
  let b := c.setNeigh i { c.neigh i with
    tx := { (c.neigh i).tx with txSeq := (c.neigh i).tx.txSeq + 1 } }
  have hbi : (b.neigh i).keys = (c.neigh i).keys := by simp [b]
  have hframe := lgSecEncrypt_frame psa (c := b) (i := i)
    (frameFields_length c.ident.netid16 (fcfOf .data true ||| if more then fcfMd else 0)
      (c.neigh i).tx.txSeq (c.neigh i).addr c.ident.addr) (by rw [hbi, hhas])
    (by rw [hbi, hkey]) hfit
  rw [hbi] at hframe
  have hseal : lgSecEncrypt psa true b i (lgFrameHdrPut c.ident.netid16
      (fcfOf .data true ||| if more then fcfMd else 0) (c.neigh i).tx.txSeq (c.neigh i).addr
      c.ident.addr ++ dataBody m) hdrLenSec =
      (.ok ((c.dataSealed i key more m).frame psa cfg.micLen), useCtr b i key
        (c.dataSealed i key more m).nonce (c.dataSealed i key more m).aad (dataBody m)) := by
    rw [lgFrameHdrPut_fields, hsec, if_pos rfl]
    exact hframe
  unfold stageSeal
  dsimp only
  rw [hseal]
  exact ⟨_, rfl, by simp, List.mem_cons_self⟩

/-- With a message to send, `lg_link_stage_tx` ends in the `seal:` end for that message. -/
theorem lgLinkStageTx_msg (psa : Psa) (ok : Bool) {k : Fin cfg.txQueueSize}
    (h : stagedMsg c i = some k) :
    (c.neigh i).keys.hasKey = true ∧ ∃ (e : Node cfg) (more : Bool),
      (e.neigh i).keys = (c.neigh i).keys ∧ (∀ key m, e.dataSealed i key more m =
        c.dataSealed i key more m) ∧
      lgLinkStageTx psa ok c i =
        stageSeal psa ok e i .data more (dataBody (c.txq k)) (.data (c.txq k).histUid) := by
  unfold stagedMsg at h
  dsimp only at h
  split at h
  · cases h
  next hup =>
  split at h
  · cases h
  next hctrl =>
  split at h
  · cases h
  next hadv =>
  let t : TxStage := { (c.neigh i).tx with txWasCtrl := false }
  let e := c.setTx i t
  have hhops : SameHops c e := by
    refine ⟨rfl, rfl, fun j => ?_, fun _ => rfl, rfl⟩
    by_cases hj : j = i
    · subst hj
      simp [e, Node.setTx]
    · simp [e, Node.setTx, hj]
  have hpeek : (lgTxqPeek e (c.neigh i).addr).1 = some k := (hhops.peek _).trans h
  rcases he : lgTxqPeek e (c.neigh i).addr with ⟨_ | k', f⟩
  · rw [he] at hpeek
    cases hpeek
  rw [he] at hpeek
  cases hpeek
  have hf : Node.Quiet e f := by
    have hquiet := lgTxqPeek_quiet e (c.neigh i).addr
    rwa [he] at hquiet
  have hmore := hf.trans (lgTxqPeek_quiet f (c.neigh i).addr)
  let g := (lgTxqPeek f (c.neigh i).addr).2
  have hgi : g.neigh i = { c.neigh i with tx := t } := by
    rw [hmore.neigh]
    simp [e, Node.setTx]
  have hident : g.ident = c.ident := hmore.ident
  have hmsg : f.txq k = c.txq k := congrFun hf.txq k
  have hhas : (c.neigh i).keys.hasKey = true := by
    by_contra hno
    exact hup (.inr (by simp [hno]))
  refine ⟨hhas, g.setTx i { (g.neigh i).tx with txNeedsAck := true },
    (lgTxqPending f (c.neigh i).addr).1, by simp [Node.setTx, hgi], fun key m => ?_, ?_⟩
  · simp only [Node.dataSealed, Node.dataFields, Node.setTx, Node.setNeigh_neigh,
      Function.update_self, hgi, t]
    change Sealed.mk key (nonceBuild g.ident.addr _)
      (frameFields g.ident.netid16 _ _ _ g.ident.addr ++ _) _ = _
    rw [hident]
  · unfold lgLinkStageTx
    dsimp only
    have he : lgTxqPeek (c.setTx i { (c.neigh i).tx with txWasCtrl := false }) (c.neigh i).addr =
      (some k, f) := he
    rw [if_neg hup, if_neg hctrl, he, ← hmsg]
    exact if_neg hadv

/-! ## From the air to the handler -/

/-- `lg_link_rx_frame` around some `handle_data`. -/
def lgLinkRxFrameWith (handle : Node cfg → Bytes → Node cfg) (o : Oracle) (c : Node cfg)
    (i : Fin cfg.maxNeighbors) (fcf : UInt8) (payload : Bytes) : Node cfg :=
  let c := match FrameType.ofCode (fcf &&& fcfTypeMask) with
    | some .data => handle c payload
    | some .ctrl => handleCtrl o c i payload
    | _ => c
  if fcf &&& fcfMd ≠ 0 then lgSchedExpedite c i else c

def dispatchLinkWith (handle : Node cfg → Bytes → Node cfg) (psa : Psa) (o : Oracle)
    (c : Node cfg) (h : FrameHdr) (pdu : Bytes) : Node cfg :=
  match lgNeighFind c h.src with
  | none => c
  | some i =>
    if (c.neigh i).state ≠ .linked ∨ !secured h.fcf then c
    else match lgSecDecrypt psa (o.ok .decrypt) c i pdu with
    | (.error _, c) => c
    | (.ok pdu, c) => lgLinkRxFrameWith handle o c i h.fcf (pdu.drop hdrLenSec)

/-- `dispatch` around some `handle_data`. -/
def dispatchWith (handle : Node cfg → Bytes → Node cfg) (psa : Psa) (o : Oracle) (c : Node cfg)
    (rx : RxRec) : Option (Node cfg) :=
  match lgFrameHdrGet cfg rx.pdu c.ident.netid16 with
  | none => some c
  | some h =>
    if h.src = c.ident.addr ∨ (h.dst ≠ c.ident.addr ∧ h.dst ≠ addrBroadcast) then some c
    else match lgFrameType rx.pdu with
    | some .beacon => some (lgDiscBeaconRx psa o c rx)
    | some t =>
      if t.isJoin then lgJoinRxPdu psa o c t rx
      else some (dispatchLinkWith handle psa o c h rx.pdu)
    | none => some (dispatchLinkWith handle psa o c h rx.pdu)

theorem dispatchWith_handleData (psa : Psa) (o : Oracle) (c : Node cfg) (rx : RxRec) :
    dispatchWith handleData psa o c rx = dispatch psa o c rx := rfl

/-- What opens was sealed, as it stands. -/
theorem lgSecDecrypt_authentic {log : List Sealed} (haead : psa.Aead cfg.micLen log) {ok : Bool}
    {pdu out : Bytes} (h : lgSecDecrypt psa ok c i pdu = (.ok out, c')) :
    ∃ s ∈ log, pdu = s.frame psa cfg.micLen := by
  unfold lgSecDecrypt at h
  dsimp only at h
  split at h
  · cases h
  split at h
  · cases h
  split at h
  · cases h
  next plain hopen =>
  obtain ⟨key, -, hdec⟩ := Option.bind_eq_some_iff.mp hopen
  split at hdec
  · obtain ⟨hmem, hct⟩ := haead.only _ _ _ _ _ hdec
    refine ⟨_, hmem, ?_⟩
    rw [Sealed.frame, ← hct]
    exact (List.take_append_drop hdrLenSec pdu).symm
  · cases hdec

/-- A frame that does not open is dispatched without the handler. -/
theorem dispatchWith_unopened {rx : RxRec} {o : Oracle}
    (h : ∀ i out d, lgSecDecrypt psa (o.ok .decrypt) c i rx.pdu ≠ (.ok out, d))
    (handle : Node cfg → Bytes → Node cfg) :
    dispatchWith handle psa o c rx = dispatch psa o c rx := by
  have hlink : ∀ hdr, dispatchLinkWith handle psa o c hdr rx.pdu =
      dispatchLinkWith handleData psa o c hdr rx.pdu := by
    intro hdr
    unfold dispatchLinkWith
    cases lgNeighFind c hdr.src with
    | none => rfl
    | some i =>
      dsimp only
      by_cases hup : (c.neigh i).state ≠ .linked ∨ !secured hdr.fcf
      · rw [if_pos hup, if_pos hup]
      · rw [if_neg hup, if_neg hup]
        rcases hdec : lgSecDecrypt psa (o.ok .decrypt) c i rx.pdu with ⟨_ | out, d⟩
        · rfl
        · exact absurd hdec (h i out d)
  rw [← dispatchWith_handleData]
  unfold dispatchWith
  simp only [hlink]

section

variable {s : Sealed} {log : List Sealed} {netid : UInt16} {fcf seq : UInt8} {dst src : Addr}
  {ctr : UInt32} {key body : Bytes} {taken : List UInt32} {rx : RxRec}

/-- A sealed frame opens where its key is, as long as its counter is good. -/
theorem lgSecDecrypt_frame (haead : psa.Aead cfg.micLen log)
    (hs : s = ⟨key, nonceBuild src ctr, frameFields netid fcf seq dst src ++ putLe32 ctr, body⟩)
    (hmem : s ∈ log) (hr : Receiver i key taken c) (hgood : Good cfg.replayWindow taken ctr) :
    ∃ k, lgSecDecrypt psa true c i (s.frame psa cfg.micLen) =
      (.ok (s.aad ++ body), c.setKeys i k) := by
  have hcheck : (replayCheck cfg.replayWindow (c.neigh i).keys ctr).isSome ↔
      Good cfg.replayWindow taken ctr := hr.marks.check
  obtain ⟨k, hk⟩ := Option.isSome_iff_exists.mp (hcheck.mpr hgood)
  refine ⟨k, ?_⟩
  have hplain := haead.opens s hmem
  subst hs
  set hdr := frameFields netid fcf seq dst src ++ putLe32 ctr with hhdr
  set enc := psa.aeadEncrypt cfg.micLen key (nonceBuild src ctr) hdr body with henc
  have hlen : hdr.length = hdrLenSec := rfl
  have hsrc : getLe16 (hdr ++ enc) offSrc = src := by
    rw [hhdr, List.append_assoc]
    exact getLe16_fields_src ..
  have hget : getLe32 (hdr ++ enc) offFctr = ctr := by
    have hfields : (frameFields netid fcf seq dst src).length = offFctr := rfl
    rw [hhdr, List.append_assoc, getLe32_append_right _ _ _ hfields.le, hfields, Nat.sub_self]
    exact getLe32_putLe32 ctr enc
  have htake : (hdr ++ enc).take hdrLenSec = hdr := List.take_left' hlen
  have hdrop : (hdr ++ enc).drop hdrLenSec = enc := List.drop_left' hlen
  have hlong : ¬ (hdr ++ enc).length < cfg.secOverhead := by
    rw [List.length_append, hlen, henc, haead.length, Config.secOverhead]
    omega
  change lgSecDecrypt psa true c i (hdr ++ enc) = (.ok (hdr ++ body), _)
  unfold lgSecDecrypt
  simp only [hget, hsrc, htake, hdrop, hr.has, hr.id, Bool.not_true, Bool.false_eq_true, if_false,
    if_neg hlong, Option.bind_some, if_true, hplain, hk]

/-- A data frame that opens comes to the handler. -/
theorem dispatchWith_frame (haead : psa.Aead cfg.micLen log) {o : Oracle} {more : Bool}
    (hfcf : fcf = (fcfOf .data true ||| if more then fcfMd else 0))
    (hs : s = ⟨key, nonceBuild src ctr, frameFields c.ident.netid16 fcf seq dst src ++
      putLe32 ctr, body⟩) (hmem : s ∈ log) (hr : Receiver i key taken c)
    (hgood : Good cfg.replayWindow taken ctr) (ho : o.ok .decrypt = true)
    (hsrc : src ≠ c.ident.addr) (hdst : dst = c.ident.addr) (hfind : lgNeighFind c src = some i)
    (hup : (c.neigh i).state = .linked) (hrx : rx.pdu = s.frame psa cfg.micLen) :
    ∃ k, ∀ handle : Node cfg → Bytes → Node cfg, dispatchWith handle psa o c rx =
      some (if more then lgSchedExpedite (handle (c.setKeys i k) body) i
        else handle (c.setKeys i k) body) := by
  obtain ⟨k, hopen⟩ := lgSecDecrypt_frame haead hs hmem hr hgood
  refine ⟨k, fun handle => ?_⟩
  have hsec : secured fcf = true := by
    rw [hfcf]
    cases more <;> rfl
  have htype : FrameType.ofCode (fcf &&& fcfTypeMask) = some .data := by
    rw [hfcf]
    cases more <;> rfl
  have hmd : (fcf &&& fcfMd ≠ 0) = (more = true) := by
    rw [hfcf]
    cases more <;> decide
  have hpdu : rx.pdu = frameFields c.ident.netid16 fcf seq dst src ++
      (putLe32 ctr ++ psa.aeadEncrypt cfg.micLen s.key s.nonce s.aad s.plain) := by
    rw [hrx, Sealed.frame, hs, List.append_assoc]
  have hget : lgFrameHdrGet cfg rx.pdu c.ident.netid16 = some ⟨fcf, seq, dst, src⟩ := by
    rw [hpdu]
    apply lgFrameHdrGet_fields
    intro _
    rw [List.length_append, haead.length]
    simp [fctrLen]
  have hframe : lgFrameType rx.pdu = some .data := by
    rw [lgFrameType, hpdu, getByte_fields_fcf, htype]
  have hbody : (s.aad ++ body).drop hdrLenSec = body := by
    refine List.drop_left' ?_
    rw [hs]
    rfl
  have hlink : dispatchLinkWith handle psa o c ⟨fcf, seq, dst, src⟩ rx.pdu =
      if more then lgSchedExpedite (handle (c.setKeys i k) body) i
        else handle (c.setKeys i k) body := by
    unfold dispatchLinkWith lgLinkRxFrameWith
    simp only [hfind, hup, hsec, hrx, ho, hopen, hbody, htype, hmd]
    simp
  unfold dispatchWith
  rw [hget]
  dsimp only
  rw [if_neg (by simp [hsrc, hdst]), hframe]
  simp only [FrameType.isJoin, hlink]
  simp

end

/-! ## From end to end -/

/-- Neighbour `i` of `c` and neighbour `j` of `d` are the two ends of a link with this key. -/
structure LinkEnds (c : Node cfg) (d : Node cfg') (i : Fin cfg.maxNeighbors)
    (j : Fin cfg'.maxNeighbors) (key : Bytes) : Prop where
  micLen : cfg'.micLen = cfg.micLen
  netid : d.ident.netid16 = c.ident.netid16
  apart : c.ident.addr ≠ d.ident.addr
  addr : (c.neigh i).addr = d.ident.addr
  find : lgNeighFind d c.ident.addr = some j
  linked : (d.neigh j).state = .linked
  key : (c.neigh i).keys.keyId = some key

/-- What `lg_link_rx_frame` does after the handler. -/
def afterHandler (more : Bool) (j : Fin cfg.maxNeighbors) (e : Node cfg) : Node cfg :=
  if more then lgSchedExpedite e j else e

/-- Node `addr` of the default build, linked to `peer` under the null key. -/
def keyedEnd (addr peer : Addr) : Node .default :=
  { Node.boot .default (plainIdent addr 1) with
    neigh := fun j => if j = firstNeigh then
      { state := .linked, addr := peer, keys := { keyId := some (zeros keyLen), hasKey := true } }
      else {} }

/-- Node 1 has three bytes to send to node 2. -/
def queuedEnd : Node .default :=
  { keyedEnd 1 2 with
    txq := fun _ => {
      used := true
      flags := dataDownward
      origin := 1
      finalDst := 2
      port := 5
      msgId := 9
      payload := [4, 5, 6] } }

/-- What it seals. -/
def queuedSealed : Sealed :=
  queuedEnd.dataSealed firstNeigh (zeros keyLen) true
    (queuedEnd.txq ⟨0, Config.default_queue⟩)

/-- The library of a world in which that is all that has been sealed. -/
def Psa.once : Psa :=
  { Psa.plain with
    aeadDecrypt := fun n key nonce aad ct =>
      if key = queuedSealed.key ∧ nonce = queuedSealed.nonce ∧ aad = queuedSealed.aad ∧
          ct = Psa.plain.aeadEncrypt n key nonce aad queuedSealed.plain then
        some queuedSealed.plain
      else none }

theorem Psa.once_aead (n : ℕ) : Psa.once.Aead n [queuedSealed] := by
  refine ⟨fun key nonce aad txt => ?_, fun s hs => ?_, fun key nonce aad ct txt h => ?_⟩
  · simp [Psa.once, Psa.plain, plainTag_length]
  · rw [List.mem_singleton.mp hs]
    exact if_pos ⟨rfl, rfl, rfl, rfl⟩
  · simp only [Psa.once] at h
    split at h
    · next hall =>
      obtain ⟨rfl, rfl, rfl, hct⟩ := hall
      cases h
      exact ⟨List.mem_singleton.mpr rfl, hct⟩
    · cases h

/-- The frame of a data message fits, and the other end gives its `handle_data` the message as it
was queued, if it has not accepted the frame yet. What is no sealed frame does not get there. -/
theorem data_frame_delivered {d : Node cfg'} {j : Fin cfg'.maxNeighbors} {key : Bytes}
    {taken : List UInt32} {k : Fin cfg.txQueueSize} {log : List Sealed}
    (hends : LinkEnds c d i j key) (hr : Receiver j key taken d) (hmsg : stagedMsg c i = some k)
    (hpay : (c.txq k).payload.length ≤ payloadMax) (haead : psa.Aead cfg.micLen log)
    (hlog : ∀ s ∈ (lgLinkStageTx psa true c i).2.hist.calls, s ∈ log) :
    ∃ frame more, (lgLinkStageTx psa true c i).1 = true ∧
      ((lgLinkStageTx psa true c i).2.neigh i).tx.txbuf = frame ∧ frame.length ≤ pduMax ∧
      (∀ (o : Oracle) (rx : RxRec), o.ok .decrypt = true → rx.pdu = frame →
        Good cfg'.replayWindow taken ((c.neigh i).keys.txCtr + 1) →
        ∃ keys body, readData body = some (c.txq k).wire ∧
          (∀ handle : Node cfg' → Bytes → Node cfg', dispatchWith handle psa o d rx =
            some (afterHandler more j (handle (d.setKeys j keys) body))) ∧
          dispatch psa o d rx =
            some (afterHandler more j (takeData (d.setKeys j keys) (c.txq k).wire))) ∧
      ∀ (o : Oracle) (rx : RxRec), (∀ s ∈ log, rx.pdu ≠ s.frame psa cfg.micLen) →
        ∀ handle : Node cfg' → Bytes → Node cfg',
          dispatchWith handle psa o d rx = dispatch psa o d rx := by
  obtain ⟨hmic, hnetid, hapart, haddr, hfind, hlinked, hkey⟩ := hends
  obtain ⟨hhas, e, more, hekeys, hsame, hstage⟩ := lgLinkStageTx_msg psa true hmsg
  obtain ⟨f, hseal, hbuf, hnoted⟩ := stageSeal_data psa more (.data (c.txq k).histUid)
    (by rw [hekeys, hhas]) (by rw [hekeys, hkey]) hpay
  rw [hsame] at hbuf hnoted
  rw [hstage, hseal] at hlog ⊢
  set s := c.dataSealed i key more (c.txq k) with hs
  have hmem : s ∈ log := hlog s hnoted
  have haead' : psa.Aead cfg'.micLen log := hmic ▸ haead
  refine ⟨s.frame psa cfg.micLen, more, rfl, hbuf, ?_, ?_, ?_⟩
  · have hlen : (s.frame psa cfg.micLen).length =
        hdrLenSec + (dataHdrLen + (c.txq k).payload.length + cfg.micLen) := by
      rw [Sealed.frame, List.length_append, haead.length, ← dataBody_length]
      rfl
    have hrange := cfg.micLen_range.2
    rw [hlen]
    simp only [hdrLenSec, hdrLen, fctrLen, dataHdrLen, pduMax, payloadMax] at hpay ⊢
    omega
  · intro o rx ho hrx hgood
    have hat : s = ⟨key, nonceBuild c.ident.addr ((c.neigh i).keys.txCtr + 1),
        frameFields d.ident.netid16 (fcfOf .data true ||| if more then fcfMd else 0)
          (c.neigh i).tx.txSeq (c.neigh i).addr c.ident.addr ++
          putLe32 ((c.neigh i).keys.txCtr + 1), dataBody (c.txq k)⟩ := by
      rw [hnetid]
      rfl
    obtain ⟨keys, hrun⟩ := dispatchWith_frame haead' rfl hat hmem hr hgood ho hapart haddr hfind
      hlinked (hmic ▸ hrx)
    have hread := readData_dataBody hpay
    refine ⟨keys, dataBody (c.txq k), hread, hrun, ?_⟩
    rw [← dispatchWith_handleData, hrun, handleData_eq, hread]
    rfl
  · intro o rx hrx handle
    apply dispatchWith_unopened
    intro i out e hopen
    obtain ⟨t, ht, heq⟩ := lgSecDecrypt_authentic haead' hopen
    exact hrx t ht (hmic ▸ heq)

/-- The three bytes arrive, and nothing else does. -/
theorem data_frame_delivered_small :
    let staged := lgLinkStageTx Psa.once true queuedEnd firstNeigh
    let frame := (staged.2.neigh firstNeigh).tx.txbuf
    staged.1 = true ∧ frame.length ≤ pduMax ∧
      (∃ keys more, dispatch Psa.once (calm 1) (keyedEnd 2 1) ⟨frame, -50, 0⟩ =
        some (afterHandler more firstNeigh (takeData ((keyedEnd 2 1).setKeys firstNeigh keys)
          (queuedEnd.txq ⟨0, by decide⟩).wire))) ∧
      ∀ handle, dispatchWith handle Psa.once (calm 1) (keyedEnd 2 1) ⟨frame ++ [0], -50, 0⟩ =
        dispatch Psa.once (calm 1) (keyedEnd 2 1) ⟨frame ++ [0], -50, 0⟩ := by
  intro staged frame
  have hends : LinkEnds queuedEnd (keyedEnd 2 1) firstNeigh firstNeigh (zeros keyLen) :=
    ⟨rfl, rfl, by decide, rfl, by decide, rfl, rfl⟩
  have hr : Receiver firstNeigh (zeros keyLen) [] (keyedEnd 2 1) :=
    ⟨rfl, rfl, rfl, by simp [keyedEnd]⟩
  have hmsg : stagedMsg queuedEnd firstNeigh = some ⟨0, by decide⟩ := by decide
  have hcalls : (lgLinkStageTx Psa.once true queuedEnd firstNeigh).2.hist.calls =
      [queuedSealed] := by decide +kernel
  obtain ⟨f, more, hok, hbuf, hlen, hrun, hforged⟩ := data_frame_delivered hends hr hmsg
    (by decide) (Psa.once_aead _) (by rw [hcalls]; exact fun s hs => hs)
  have hf : frame = f := hbuf
  have hframe : frame = queuedSealed.frame Psa.once Config.default.micLen := by decide +kernel
  obtain ⟨keys, -, -, -, hdispatch⟩ := hrun (calm 1) ⟨frame, -50, 0⟩ rfl hf
    ⟨by decide, by simp, .inl (by decide)⟩
  refine ⟨hok, hf ▸ hlen, ⟨keys, more, hdispatch⟩, hforged (calm 1) _ ?_⟩
  intro s hs heq
  rw [List.mem_singleton.mp hs, ← hframe] at heq
  simp at heq

end LockGrid
