import LockGrid.Cargo

/-!
# What a node has to send

The messages in the queue and the data frames that have been sealed. A frame is sealed only of a
message that waits in the queue.
-/
namespace LockGrid

variable {cfg : Config} {psa : Psa} {c d : Node cfg} {i : Fin cfg.maxNeighbors} {o : Oracle}
  {Q Q' : TxMsg → Prop}

/-- Whatever is queued, and whatever has been sealed as data, is a `Q` on air. -/
structure Node.Holds (Q : TxMsg → Prop) (c : Node cfg) : Prop where
  queue : ∀ k, (c.txq k).used = true → Q (c.txq k).wire
  seals : ∀ s ∈ c.hist.calls, lgFrameType s.aad = some .data →
    ∃ m : TxMsg, Q m.wire ∧ s.plain = dataBody m
  type : c.hs.txType ≠ .data

namespace Node.Holds

theorem mono (h : c.Holds Q) (hq : ∀ m, Q m → Q' m) : c.Holds Q' := by
  refine ⟨fun k hk => hq _ (h.queue k hk), fun s hs ht => ?_, h.type⟩
  obtain ⟨m, hm, hplain⟩ := h.seals s hs ht
  exact ⟨m, hq _ hm, hplain⟩

theorem boot (cfg : Config) (ident : Identity) : (Node.boot cfg ident).Holds Q := by
  refine ⟨?_, ?_, by simp [Node.boot]⟩
  · intro k hk
    simp [Node.boot] at hk
  · intro s hs
    simp [Node.boot] at hs

/-- What becomes of a node by steps that queue and seal nothing. -/
theorem of_eq (h : c.Holds Q) (hq : d.txq = c.txq) (hcalls : d.hist.calls = c.hist.calls)
    (htype : d.hs.txType ≠ .data) : d.Holds Q := by
  refine ⟨?_, ?_, htype⟩
  · rw [hq]
    exact h.queue
  · rw [hcalls]
    exact h.seals

theorem enqueue (h : c.Holds Q) (k : Fin cfg.txQueueSize) {m : TxMsg} (hm : Q m.wire) :
    (LockGrid.enqueue c k m).Holds Q := by
  refine ⟨?_, h.seals, h.type⟩
  intro q hq
  by_cases hk : q = k
  · subst hk
    simpa [LockGrid.enqueue, TxMsg.wire] using hm
  · simp only [LockGrid.enqueue, ne_eq, hk, not_false_eq_true, Function.update_of_ne] at hq ⊢
    exact h.queue q hq

theorem lgTxqFree (h : c.Holds Q) (k : Fin cfg.txQueueSize) : (LockGrid.lgTxqFree c k).Holds Q := by
  refine ⟨?_, h.seals, h.type⟩
  intro q hq
  by_cases hk : q = k
  · subst hk
    simp [LockGrid.lgTxqFree] at hq
  · simp only [LockGrid.lgTxqFree, ne_eq, hk, not_false_eq_true, Function.update_of_ne] at hq ⊢
    exact h.queue q hq

end Node.Holds

theorem Unladen.holds (hb : Unladen c d) (h : c.Holds Q) : d.Holds Q := by
  have hcargo := hb.cargo
  simp only [Node.cargo, Prod.mk.injEq] at hcargo
  refine h.of_eq hcargo.2.1 hcargo.2.2 ?_
  rcases hb.type with hsame | hother
  · rw [hsame]
    exact h.type
  · exact hother

/-! ## Sealing -/

/-- What `lg_sec_encrypt` notes of a frame: its header as it goes on air, and its body. -/
theorem lgSecEncrypt_noted (psa : Psa) (ok : Bool) (c : Node cfg) (i : Fin cfg.maxNeighbors)
    {fields : Bytes} (body : Bytes) (hlen : fields.length = offFctr) :
    let e := (lgSecEncrypt psa ok c i (fields ++ zeros fctrLen ++ body) hdrLenSec).2
    (e.txq = c.txq ∧ e.hs = c.hs) ∧ (e.hist.calls = c.hist.calls ∨
      ∃ s : Sealed, e.hist.calls = s :: c.hist.calls ∧ s.plain = body ∧
        ∃ ctr, s.aad = fields ++ putLe32 ctr) := by
  intro e
  let ctr := (c.neigh i).keys.txCtr + 1
  have hsplice : splice (fields ++ zeros fctrLen ++ body) offFctr (putLe32 ctr) =
      (fields ++ putLe32 ctr) ++ body := splice_fctr hlen ctr
  have haad : (fields ++ putLe32 ctr).length = hdrLenSec := by
    rw [List.length_append, hlen]
    rfl
  have htake : (fields ++ putLe32 ctr ++ body).take hdrLenSec = fields ++ putLe32 ctr :=
    List.take_left' haad
  have hdrop : (fields ++ putLe32 ctr ++ body).drop hdrLenSec = body := List.drop_left' haad
  have hcases : e = c ∨ e = c.setKeys i { (c.neigh i).keys with txCtr := ctr } ∨
      ∃ key, e = useCtr c i key (nonceBuild c.ident.addr ctr) (fields ++ putLe32 ctr) body := by
    simp only [e, lgSecEncrypt, hsplice, htake, hdrop, ctr]
    by_cases hhas : (!(c.neigh i).keys.hasKey) = true
    · exact .inl (by rw [if_pos hhas])
    rw [if_neg hhas]
    by_cases hshort : (fields ++ zeros fctrLen ++ body).length < hdrLenSec
    · exact .inl (by rw [if_pos hshort])
    rw [if_neg hshort]
    cases (c.neigh i).keys.keyId with
    | none => exact .inr (.inl rfl)
    | some key =>
      refine .inr (.inr ⟨key, ?_⟩)
      dsimp only
      split_ifs <;> rfl
  rcases hcases with he | he | ⟨key, he⟩
  · rw [he]
    exact ⟨⟨rfl, rfl⟩, .inl rfl⟩
  · rw [he]
    exact ⟨⟨rfl, rfl⟩, .inl rfl⟩
  · rw [he]
    exact ⟨⟨rfl, rfl⟩, .inr ⟨_, rfl, rfl, ctr, rfl⟩⟩

/-- Sealing a frame that is not data, or is data of a `Q`. -/
theorem lgSecEncrypt_holds (psa : Psa) (ok : Bool) (h : c.Holds Q) (i : Fin cfg.maxNeighbors)
    {netid : UInt16} {fcf seq : UInt8} {dst src : Addr} {body : Bytes}
    (hsec : secured fcf = true) (hbody : FrameType.ofCode (fcf &&& fcfTypeMask) = some .data →
      ∃ m : TxMsg, Q m.wire ∧ body = dataBody m) :
    (lgSecEncrypt psa ok c i (lgFrameHdrPut netid fcf seq dst src ++ body) hdrLenSec).2.Holds
      Q := by
  rw [lgFrameHdrPut_fields, hsec, if_pos rfl]
  obtain ⟨⟨hq, hhs⟩, hcalls⟩ :=
    lgSecEncrypt_noted psa ok c i body (frameFields_length netid fcf seq dst src)
  have htype : (lgSecEncrypt psa ok c i (frameFields netid fcf seq dst src ++ zeros fctrLen ++
      body) hdrLenSec).2.hs.txType ≠ .data := by
    rw [hhs]
    exact h.type
  rcases hcalls with hsame | ⟨s, hnew, hplain, ctr, haad⟩
  · exact h.of_eq hq hsame htype
  · refine ⟨?_, ?_, htype⟩
    · rw [hq]
      exact h.queue
    · intro t ht hdata
      rw [hnew] at ht
      rcases List.mem_cons.mp ht with rfl | hold
      · rw [lgFrameType, haad, getByte_fields_fcf] at hdata
        obtain ⟨m, hm, hmbody⟩ := hbody hdata
        exact ⟨m, hm, hplain.trans hmbody⟩
      · exact h.seals t hold hdata

theorem fcfOf_more (t : FrameType) (more : Bool) :
    secured (fcfOf t true ||| if more then fcfMd else 0) = true ∧
      FrameType.ofCode ((fcfOf t true ||| if more then fcfMd else 0) &&& fcfTypeMask) =
        some t := by
  cases t <;> cases more <;> exact ⟨rfl, rfl⟩

theorem stageSeal_holds (psa : Psa) (ok : Bool) (h : c.Holds Q) (i : Fin cfg.maxNeighbors)
    {t : FrameType} (more : Bool) {body : Bytes} (staged : Staged)
    (hbody : t = .data → ∃ m : TxMsg, Q m.wire ∧ body = dataBody m) :
    (stageSeal psa ok c i t more body staged).2.Holds Q := by
  obtain ⟨hsec, htype⟩ := fcfOf_more t more
  have hseal : ∀ (netid : UInt16) (seq : UInt8) (dst src : Addr) (n : Neigh),
      (lgSecEncrypt psa ok (c.setNeigh i n) i (lgFrameHdrPut netid
        (fcfOf t true ||| if more then fcfMd else 0) seq dst src ++ body) hdrLenSec).2.Holds Q := by
    intro netid seq dst src n
    refine lgSecEncrypt_holds psa ok ((Unladen.setNeigh c i n).holds h) i hsec fun hdata => ?_
    exact hbody (Option.some.inj (htype.symm.trans hdata))
  unfold stageSeal
  dsimp only
  split <;> next he =>
    have hd := congrArg Prod.snd he ▸ hseal _ _ _ _ _
    exact (Unladen.setNeigh _ i _).holds hd

/-- `lg_link_stage_tx` seals no data but that of a message in the queue. -/
theorem lgLinkStageTx_holds (psa : Psa) (ok : Bool) (h : c.Holds Q) (i : Fin cfg.maxNeighbors) :
    (lgLinkStageTx psa ok c i).2.Holds Q := by
  have hset : ∀ {e : Node cfg} (t : TxStage), e.Holds Q → (e.setTx i t).Holds Q :=
    fun t he => (Unladen.setNeigh _ i _).holds he
  have hquiet : ∀ {e f : Node cfg}, Node.Quiet e f → e.Holds Q → f.Holds Q :=
    fun hef he => (Unladen.of_quiet hef).holds he
  unfold lgLinkStageTx
  dsimp only
  split
  · exact h
  · split
    · exact stageSeal_holds psa ok (hset _ h) i false _ (by simp)
    · have h' := hset { (c.neigh i).tx with txWasCtrl := false } h
      split
      · exact stageSeal_holds psa ok (hquiet (noteAdvertised_quiet _ i) h') i false _ (by simp)
      · have hpeek := hquiet (lgTxqPeek_quiet _ (c.neigh i).addr) h'
        have hq := (lgTxqPeek_quiet (c.setTx i { (c.neigh i).tx with txWasCtrl := false })
          (c.neigh i).addr).txq
        split
        · next k e he =>
          have hk := lgTxqPeek_used (congrArg Prod.fst he)
          rw [he] at hpeek hq
          rw [← hq] at hk
          have hmore := hquiet (lgTxqPeek_quiet e (c.neigh i).addr) hpeek
          refine stageSeal_holds psa ok (hset _ hmore) i _ _ fun _ => ?_
          exact ⟨e.txq k, hpeek.queue k hk, rfl⟩
        · next e he =>
          rw [he] at hpeek
          exact stageSeal_holds psa ok (hset _ hpeek) i false _ (by simp)

/-- A fragment of a handshake is no data. -/
theorem sendFragment_holds (psa : Psa) (o : Oracle) (h : c.Holds Q) (idx : ℕ) :
    (sendFragment psa o c idx).Holds Q := by
  have hbuild : (buildFragment psa o c idx).2.Holds Q := by
    unfold buildFragment
    split
    · exact h
    · next i _ =>
      have hseq : ∀ t, (c.setTx i t).Holds Q := fun t => (Unladen.setNeigh c i _).holds h
      dsimp only
      split
      · next hsec =>
        have hsealed : ∀ t (netid : UInt16) (seq : UInt8) (dst src : Addr) (body : Bytes),
            (lgSecEncrypt psa (o.ok .encrypt) (c.setTx i t) i (lgFrameHdrPut netid
              (fcfOf c.hs.txType c.hs.txSecured) seq dst src ++ body) hdrLenSec).2.Holds Q := by
          intro t netid seq dst src body
          refine lgSecEncrypt_holds psa _ (hseq t) i ?_ fun hdata => ?_
          · rw [secured_fcfOf]
            exact hsec
          · rw [fcfOf_type] at hdata
            exact absurd (Option.some.inj hdata) h.type
        simp only [List.append_assoc]
        split <;> next he =>
          have hd := congrArg Prod.snd he ▸ hsealed _ _ _ _ _ _
          exact hd
      · exact hseq _
  unfold sendFragment
  dsimp only
  generalize buildFragment psa o c idx = f at hbuild ⊢
  have hnoted : (f.2.setHs { f.2.hs with lastTxLen := f.1.length }).Holds Q :=
    hbuild.of_eq rfl rfl hbuild.type
  split
  · exact (lgSchedEventDone_unladen _).holds hnoted
  · exact (command_unladen o _ .tx).holds hnoted

/-! ## Events -/

theorem settled_holds (o : Oracle) (h : c.Holds Q) (i : Fin cfg.maxNeighbors) :
    (settleOutcome o c i).Holds Q := by
  unfold settleOutcome
  dsimp only
  split
  · exact (lgLinkEventMiss_unladen o c i).holds h
  · split
    · have hpeek := (Unladen.of_quiet (lgTxqPeek_quiet c (c.neigh i).addr)).holds h
      refine (Unladen.setNeigh _ i _).holds ?_
      split
      · exact hpeek.lgTxqFree _
      · exact hpeek
    · exact h

theorem lgLinkEventFinish_holds (psa : Psa) (o : Oracle) (h : c.Holds Q)
    (i : Fin cfg.maxNeighbors) : (lgLinkEventFinish psa o c i).Holds Q := by
  have hsettled := settled_holds o h i
  unfold lgLinkEventFinish
  dsimp only
  split
  · exact hsettled
  · apply lgLinkStageTx_holds
    exact (subrateUpdateLink_unladen _ i).holds ((Unladen.setNeigh _ i _).holds hsettled)

theorem stageFor_holds (psa : Psa) (o : Oracle) (h : c.Holds Q) (cand : Candidate cfg) :
    (stageFor psa o c cand).2.Holds Q := by
  unfold stageFor
  split
  · split
    · exact h
    · have hstaged := lgLinkStageTx_holds psa (o.ok .encrypt) h ‹Fin cfg.maxNeighbors›
      dsimp only
      split
      · exact hstaged
      · exact (Unladen.setNeigh _ _ _).holds hstaged
  · exact h

theorem schedPick_holds (h : c.Holds Q) (hp : schedPick psa o c = some d) : d.Holds Q := by
  unfold schedPick at hp
  split at hp
  · cases hp
    exact h
  · split at hp
    · cases hp
    · next l e he =>
      have hcand := (candidates_unladen he).holds h
      split at hp
      · cases hp
        exact hcand
      · next cand _ =>
        have hstaged := stageFor_holds psa o hcand cand
        dsimp only at hp
        split at hp
        · exact (requestEvent_unladen hp).holds hstaged
        · cases hp
          exact hstaged

theorem settle_holds (h : c.Holds Q) (hp : settle psa o c = some d) : d.Holds Q := by
  unfold settle at hp
  split at hp
  · split at hp
    · cases hp
      exact lgLinkEventFinish_holds psa o h _
    · cases hp
      exact h
  · cases hp
    have hbeacon := (Unladen.of_quiet (lgDiscBeaconFinish_quiet psa o c)).holds h
    exact (Unladen.of_quiet (lgRoleEvaluate_quiet o _)).holds hbeacon
  · cases hp
    have hscan := (Unladen.of_quiet (lgDiscScanFinish_quiet o c)).holds h
    exact (Unladen.of_quiet (lgRoleEvaluate_quiet o _)).holds hscan
  · exact (lgJoinEventFinish_unladen hp).holds h
  · exact (lgJoinEventFinish_unladen hp).holds h
  · cases hp
    exact (finishChanEval_unladen c).holds h
  · cases hp
    exact h
  · cases hp
    exact h

theorem schedFinish_holds {o' : Oracle} (h : c.Holds Q) (hp : schedFinish psa o o' c = some d) :
    d.Holds Q := by
  unfold schedFinish at hp
  split at hp
  · cases hp
  · next e he =>
    have hsettled := settle_holds h he
    refine schedPick_holds ?_ hp
    exact hsettled.of_eq rfl rfl hsettled.type

theorem tsGranted_holds (psa : Psa) (o : Oracle) (h : c.Holds Q) : (tsGranted psa o c).Holds Q := by
  have hgo : ({ c with granted := true } : Node cfg).Holds Q := h.of_eq rfl rfl h.type
  unfold tsGranted
  dsimp only
  split
  · exact (linkStart_unladen o _ _).holds hgo
  · exact (beaconStart_unladen o _).holds hgo
  · exact (command_unladen o _ .rx).holds hgo
  · exact (command_unladen o _ .rx).holds hgo
  · unfold joinTxStart
    split
    · exact (lgSchedEventDone_unladen _).holds hgo
    · refine sendFragment_holds psa o ?_ 0
      exact hgo.of_eq rfl rfl h.type
  · exact (command_unladen o _ .rx).holds (hgo.of_eq rfl rfl h.type)
  · have hnoise := (Unladen.of_quiet (lgChanNoise_quiet _ c.ev.chan o.noiseDbm)).holds hgo
    exact (lgSchedEventDone_unladen _).holds hnoise
  · exact h.of_eq rfl rfl h.type

theorem phyTxDone_holds (psa : Psa) (o : Oracle) (h : c.Holds Q) (airEndUs : ℕ) :
    (phyTxDone psa o c airEndUs).Holds Q := by
  unfold phyTxDone
  split
  · exact (linkTxDone_unladen o c _).holds h
  · exact (beaconTxDone_unladen o c airEndUs).holds h
  · unfold joinTxDone
    dsimp only
    split
    · refine sendFragment_holds psa o ?_ _
      exact h.of_eq rfl rfl h.type
    · refine (lgSchedEventDone_unladen _).holds ?_
      exact h.of_eq rfl rfl h.type
  · exact (lgSchedEventDone_unladen c).holds h

/-! ## Sending and forwarding -/

theorem sendCopies_holds {m : TxMsg}
    (hm : ∀ addr, Q ({ m with finalDst := addr } : TxMsg).wire) (l : List (Fin cfg.maxNeighbors))
    (st : ℕ × Node cfg) (h : st.2.Holds Q) : (sendCopies m l st).2.Holds Q := by
  induction l generalizing st with
  | nil => exact h
  | cons i rest ih =>
    obtain ⟨sent, c⟩ := st
    rw [sendCopies]
    split
    · exact ih (sent, c) h
    · split
      · exact h
      · next k _ =>
        have hqueued := Node.Holds.enqueue h k (hm (c.neigh i).addr)
        exact ih (sent + 1, _) ((lgSchedExpedite_unladen _ i).holds hqueued)

/-- Copies are queued only if they are counted. -/
theorem sendCopies_counted (m : TxMsg) (l : List (Fin cfg.maxNeighbors)) (st : ℕ × Node cfg) :
    (sendCopies m l st).2 = st.2 ∨ st.1 < (sendCopies m l st).1 := by
  induction l generalizing st with
  | nil => exact .inl rfl
  | cons i rest ih =>
    obtain ⟨sent, c⟩ := st
    rw [sendCopies]
    split
    · exact ih (sent, c)
    · split
      · exact .inl rfl
      · next k _ =>
        right
        let e := lgSchedExpedite (enqueue c k { m with finalDst := (c.neigh i).addr }) i
        have hmore : sent + 1 ≤ (sendCopies m rest (sent + 1, e)).1 := by
          clear ih
          generalize sent + 1 = n
          generalize e = f
          induction rest generalizing n f with
          | nil => exact le_rfl
          | cons j rest ih =>
            rw [sendCopies]
            split
            · exact ih n f
            · split
              · exact le_rfl
              · exact (Nat.le_succ n).trans (ih (n + 1) _)
        exact hmore

/-- What `lg_send_forward` may queue of a message. -/
structure TxMsg.Copies (m m' : TxMsg) : Prop where
  fits : m.payload.length ≤ payloadMax
  same : { m' with finalDst := m.finalDst } = m.wire
  final : m'.finalDst = m.finalDst ∨ m.flags &&& dataBroadcast ≠ 0

/-- It queues nothing if it fails. -/
theorem lgSendForward_holds (h : c.Holds Q) {m : TxMsg}
    (hm : (lgSendForward c m).1 = .ok () → ∀ m', m.Copies m' → Q m') :
    (lgSendForward c m).2.Holds Q := by
  have hhop := (Unladen.of_quiet (lgRouteNextHop_quiet c m.finalDst m.flags)).holds h
  unfold lgSendForward at hm ⊢
  dsimp only at hm ⊢
  by_cases hlen : payloadMax < m.payload.length
  · rwa [if_pos hlen]
  have hfits : m.payload.length ≤ payloadMax := not_lt.mp hlen
  rw [if_neg hlen] at hm ⊢
  by_cases hoff : (!c.started) = true
  · rwa [if_pos hoff]
  rw [if_neg hoff] at hm ⊢
  by_cases hbcast : m.flags &&& dataBroadcast ≠ 0
  · rw [if_pos hbcast] at hm ⊢
    rcases sendCopies_counted m (List.finRange cfg.maxNeighbors) (0, c) with hsame | hsent
    · rw [hsame]
      exact h
    · refine sendCopies_holds (fun addr => ?_) _ _ h
      exact hm (if_neg hsent.ne') _ ⟨hfits, rfl, .inr hbcast⟩
  · rw [if_neg hbcast] at hm ⊢
    by_cases hnone : (lgRouteNextHop c m.finalDst m.flags).1 = addrInvalid
    · rwa [if_pos hnone]
    rw [if_neg hnone] at hm ⊢
    split
    · exact hhop
    · next k hk =>
      rw [hk] at hm
      exact hhop.enqueue k (hm rfl m.wire ⟨hfits, rfl, .inl rfl⟩)

/-- The data flags of a message to `dst`. -/
def dstFlags (dst : Addr) : UInt8 :=
  if dst = addrBackhaul then dataUpward else if dst = addrBroadcast then dataBroadcast else 0

/-- The message of a call of `lg_send`. -/
def sentMsg (c : Node cfg) (dst : Addr) (port : UInt8) (payload : Bytes) : TxMsg where
  finalDst := dst
  origin := c.ident.addr
  flags := dstFlags dst
  port := port
  msgId := c.msgIdNext
  payload := payload

/-- `lg_send` fails if `lg_send_forward` does, and else brings at most a link forward. -/
theorem lgSend_eq (c : Node cfg) (dst : Addr) (port : UInt8) (payload : Bytes) (flags : UInt8) :
    let r := lgSendForward { c with msgIdNext := c.msgIdNext + 1 } (sentMsg c dst port payload)
    (lgSend c dst port payload flags).1 = r.1 ∧
      Unladen r.2 (lgSend c dst port payload flags).2 := by
  intro r
  have hback : c.msgIdNext + 1 - 1 = c.msgIdNext := UInt16.add_sub_cancel _ _
  have hr : r = lgSendForward { c with msgIdNext := c.msgIdNext + 1 }
      { finalDst := dst, origin := c.ident.addr, flags := dstFlags dst, port := port,
        msgId := c.msgIdNext + 1 - 1, payload := payload } := by
    rw [hback]
    rfl
  unfold lgSend
  dsimp only [dstFlags] at hr ⊢
  rw [← hr]
  rcases r with ⟨e | ok, d⟩
  · exact ⟨rfl, .refl d⟩
  · dsimp only
    split
    · split
      · exact ⟨rfl, lgSchedExpedite_unladen d _⟩
      · exact ⟨rfl, .refl d⟩
    · exact ⟨rfl, .refl d⟩

theorem lgSend_holds (h : c.Holds Q) {dst : Addr} {port : UInt8} {payload : Bytes} {flags : UInt8}
    (hm : (lgSend c dst port payload flags).1 = .ok () →
      ∀ m, (sentMsg c dst port payload).Copies m → Q m) :
    (lgSend c dst port payload flags).2.Holds Q := by
  obtain ⟨hresult, hunladen⟩ := lgSend_eq c dst port payload flags
  apply hunladen.holds
  apply lgSendForward_holds
  · exact h.of_eq rfl rfl h.type
  · intro hok
    exact hm (hresult.trans hok)

/-! ## Forwarding -/

/-- What `handle_data` may queue of a message that it has taken from a frame. -/
structure TxMsg.Relays (m m' : TxMsg) : Prop where
  near : m.hops < hopsMax
  fits : m.payload.length ≤ payloadMax
  same : { m' with flags := m.flags, finalDst := m.finalDst, hops := m.hops } = m.wire
  hops : m'.hops = m.hops + 1
  flags : m'.flags = m.flags ∨ m'.flags = m.flags ||| dataDownward
  final : m'.finalDst = m.finalDst ∨ m.flags &&& dataBroadcast ≠ 0

/-- A bit that is set elsewhere. -/
theorem flags_or_and {bit mask : UInt8} (h : bit &&& mask = 0) (flags : UInt8) :
    (flags ||| bit) &&& mask = flags &&& mask := by
  have hnat : bit.toNat &&& mask.toNat = 0 := by
    rw [← UInt8.toNat_and, h]
    rfl
  apply UInt8.toNat_inj.mp
  rw [UInt8.toNat_and, UInt8.toNat_or, Nat.and_or_distrib_right, hnat, Nat.or_zero,
    UInt8.toNat_and]

theorem TxMsg.Relays.of_copies {m m' : TxMsg} {flags : UInt8} (hnear : m.hops < hopsMax)
    (hflags : flags = m.flags ∨ flags = m.flags ||| dataDownward)
    (h : ({ m with flags := flags, hops := m.hops + 1 } : TxMsg).Copies m') : m.Relays m' := by
  have hsame : { m' with finalDst := m.finalDst } =
      ({ m with flags := flags, hops := m.hops + 1 } : TxMsg).wire := h.same
  have hm'flags : m'.flags = flags := congrArg TxMsg.flags hsame
  have hbcast : flags &&& dataBroadcast = m.flags &&& dataBroadcast := by
    rcases hflags with rfl | rfl
    · rfl
    · exact flags_or_and rfl m.flags
  refine ⟨hnear, h.fits, ?_, congrArg TxMsg.hops hsame, ?_, ?_⟩
  · exact congrArg (fun x : TxMsg => { x with flags := m.flags, hops := m.hops }) hsame
  · rwa [hm'flags]
  · rw [← hbcast]
    exact h.final

theorem forwardData_holds (h : c.Holds Q) {m : TxMsg} (hm : ∀ m', m.Relays m' → Q m') :
    (forwardData c m).Holds Q := by
  have hcopies : ∀ {e : Node cfg} (flags : UInt8), e.Holds Q → m.hops < hopsMax →
      (flags = m.flags ∨ flags = m.flags ||| dataDownward) →
      (lgSendForward e { m with flags := flags, hops := m.hops + 1 }).2.Holds Q := by
    intro e flags he hnear hflags
    apply lgSendForward_holds he
    intro _ m' hm'
    exact hm m' (.of_copies hnear hflags hm')
  unfold forwardData
  split
  · exact h
  · next hgo =>
    have hnear : m.hops < hopsMax := by
      simpa using fun hfar => hgo (.inr hfar)
    split
    · have hhop := (Unladen.of_quiet (lgRouteNextHop_quiet c m.finalDst 0)).holds h
      dsimp only
      split
      · exact hhop
      · refine hcopies _ hhop hnear ?_
        split
        · exact .inr rfl
        · exact .inl rfl
    · exact hcopies m.flags h hnear (.inl rfl)

theorem takeData_holds (h : c.Holds Q) {m : TxMsg} (hm : ∀ m', m.Relays m' → Q m') :
    (takeData c m).Holds Q := by
  have hasked : (lgRouteIsDuplicate c m.origin m.msgId).2.Holds Q := by
    unfold lgRouteIsDuplicate
    split
    · exact h
    · exact h.of_eq rfl rfl h.type
  unfold takeData
  dsimp only
  split
  · exact hasked
  · split
    · exact hasked
    · exact forwardData_holds hasked hm

theorem handleData_holds (h : c.Holds Q) {body : Bytes}
    (hm : ∀ m, readData body = some m → ∀ m', m.Relays m' → Q m') :
    (handleData c body).Holds Q := by
  rw [handleData_eq]
  cases hread : readData body with
  | none => exact h
  | some m => exact takeData_holds h (hm m hread)

/-! ## What is handed to `handle_data` -/

/-- The node, the neighbour and the opened frame with which `dispatch` comes to `handle_data`. -/
def linkHanded (psa : Psa) (o : Oracle) (c : Node cfg) (h : FrameHdr) (pdu : Bytes) :
    Option (Node cfg × Fin cfg.maxNeighbors × Bytes) :=
  match lgNeighFind c h.src with
  | none => none
  | some i =>
    if (c.neigh i).state ≠ .linked ∨ !secured h.fcf then none
    else match lgSecDecrypt psa (o.ok .decrypt) c i pdu with
    | (.error _, _) => none
    | (.ok pdu, c) =>
      if FrameType.ofCode (h.fcf &&& fcfTypeMask) = some .data then some (c, i, pdu) else none

def dispatchHanded (psa : Psa) (o : Oracle) (c : Node cfg) (rx : RxRec) :
    Option (Node cfg × Fin cfg.maxNeighbors × Bytes) :=
  match lgFrameHdrGet cfg rx.pdu c.ident.netid16 with
  | none => none
  | some h =>
    if h.src = c.ident.addr ∨ (h.dst ≠ c.ident.addr ∧ h.dst ≠ addrBroadcast) then none
    else match lgFrameType rx.pdu with
    | some .beacon => none
    | some t => if t.isJoin then none else linkHanded psa o c h rx.pdu
    | none => linkHanded psa o c h rx.pdu

/-- The same of a run of `rx_handler`. -/
def rxHanded (psa : Psa) (o : Oracle) (c : Node cfg) :
    Option (Node cfg × Fin cfg.maxNeighbors × Bytes) :=
  match c.rxRing with
  | [] => none
  | rx :: rest => dispatchHanded psa o { c with rxRing := rest } rx

/-- The header of the frame says that it is data. -/
theorem lgSecDecrypt_type {ok : Bool} {pdu out : Bytes} (hlen : hdrLen ≤ pdu.length)
    (h : lgSecDecrypt psa ok c i pdu = (.ok out, d)) : lgFrameType out = lgFrameType pdu := by
  have hout : ∃ plain, out = pdu.take hdrLenSec ++ plain := by
    unfold lgSecDecrypt at h
    dsimp only at h
    split at h
    · cases h
    split at h
    · cases h
    split at h
    · cases h
    split at h
    · cases h
    · cases h
      exact ⟨_, rfl⟩
  obtain ⟨plain, rfl⟩ := hout
  have hfcf : offFcf < (pdu.take hdrLenSec).length := by
    rw [List.length_take]
    simp only [offFcf, hdrLenSec, hdrLen, fctrLen] at hlen ⊢
    omega
  have hrest := getByte_append_left (pdu.take hdrLenSec) (pdu.drop hdrLenSec) offFcf hfcf
  rw [List.take_append_drop] at hrest
  rw [lgFrameType, getByte_append_left _ _ _ hfcf, ← hrest, lgFrameType]

/-- The same of a step. -/
def handed (psa : Psa) (o : Oracle) (c : Node cfg) :
    Input → Option (Node cfg × Fin cfg.maxNeighbors × Bytes)
  | .rxWork => rxHanded psa o c
  | _ => none

theorem linkHanded_opened {hdr : FrameHdr} {pdu out : Bytes}
    (h : linkHanded psa o c hdr pdu = some (d, i, out)) :
    FrameType.ofCode (hdr.fcf &&& fcfTypeMask) = some .data ∧
      lgSecDecrypt psa (o.ok .decrypt) c i pdu = (.ok out, d) := by
  unfold linkHanded at h
  split at h
  · cases h
  · split at h
    · cases h
    · split at h
      · cases h
      · next hdec =>
        obtain ⟨ht, he⟩ := Option.ite_none_right_eq_some.mp h
        cases he
        exact ⟨ht, hdec⟩

/-- What `rx_handler` hands over is the oldest frame, opened on its link. -/
theorem rxHanded_link {out : Bytes} (h : rxHanded psa o c = some (d, i, out)) :
    ∃ rx rest hdr, c.rxRing = rx :: rest ∧
      lgFrameHdrGet cfg rx.pdu c.ident.netid16 = some hdr ∧
      linkHanded psa o { c with rxRing := rest } hdr rx.pdu = some (d, i, out) := by
  unfold rxHanded at h
  cases hring : c.rxRing with
  | nil =>
    rw [hring] at h
    cases h
  | cons rx rest =>
    rw [hring] at h
    dsimp only [dispatchHanded] at h
    cases hget : lgFrameHdrGet cfg rx.pdu c.ident.netid16 with
    | none =>
      rw [hget] at h
      cases h
    | some hdr =>
      rw [hget] at h
      refine ⟨rx, rest, hdr, rfl, hget, ?_⟩
      dsimp only at h
      split at h
      · cases h
      · split at h
        · cases h
        · split at h
          · cases h
          · exact h
        · exact h

theorem lgFrameHdrGet_fcf {pdu : Bytes} {netid : UInt16} {hdr : FrameHdr}
    (h : lgFrameHdrGet cfg pdu netid = some hdr) :
    hdrLen ≤ pdu.length ∧ hdr.fcf = getByte pdu offFcf := by
  simp only [lgFrameHdrGet] at h
  by_cases hlen : pdu.length < hdrLen
  · rw [if_pos hlen] at h
    cases h
  · rw [if_neg hlen] at h
    by_cases hnet : getLe16 pdu offNetid ≠ netid
    · rw [if_pos hnet] at h
      cases h
    · rw [if_neg hnet] at h
      obtain ⟨-, he⟩ := Option.ite_none_right_eq_some.mp h
      cases he
      exact ⟨not_lt.mp hlen, rfl⟩

theorem rxHanded_of_handed {inp : Input} {x : Node cfg × Fin cfg.maxNeighbors × Bytes}
    (h : handed psa o c inp = some x) : rxHanded psa o c = some x := by
  unfold handed at h
  split at h
  · exact h
  · cases h

theorem rxHanded_type {out : Bytes} (h : rxHanded psa o c = some (d, i, out)) :
    lgFrameType out = some .data := by
  obtain ⟨rx, rest, hdr, -, hget, hlink⟩ := rxHanded_link h
  obtain ⟨hlen, hfcf⟩ := lgFrameHdrGet_fcf hget
  obtain ⟨ht, hdec⟩ := linkHanded_opened hlink
  rw [lgSecDecrypt_type hlen hdec, lgFrameType, ← hfcf, ht]

/-- On the way nothing but the queue of received frames and the keys has changed. -/
theorem rxHanded_ident {out : Bytes} (h : rxHanded psa o c = some (d, i, out)) :
    d.ident = c.ident := by
  obtain ⟨rx, rest, hdr, -, -, hlink⟩ := rxHanded_link h
  have hcases := lgSecDecrypt_cases psa (o.ok .decrypt) { c with rxRing := rest } i rx.pdu
  rw [(linkHanded_opened hlink).2] at hcases
  rcases hcases with hsame | ⟨r, m, hkeys⟩
  · have hd : d = { c with rxRing := rest } := hsame
    rw [hd]
  · have hd : d = _ := hkeys
    rw [hd]
    rfl

theorem lgLinkRxFrame_holds (o : Oracle) (h : c.Holds Q) (i : Fin cfg.maxNeighbors) (fcf : UInt8)
    (payload : Bytes) (hm : FrameType.ofCode (fcf &&& fcfTypeMask) = some .data →
      ∀ m, readData payload = some m → ∀ m', m.Relays m' → Q m') :
    (lgLinkRxFrame o c i fcf payload).Holds Q := by
  obtain ⟨e, hcases, hlast⟩ := lgLinkRxFrame_cases o c i fcf payload
  have he : e.Holds Q := by
    rcases hcases with ⟨ht, rfl⟩ | ⟨-, rfl⟩ | ⟨-, rfl⟩
    · exact handleData_holds h (hm ht)
    · exact (handleCtrl_unladen o c i payload).holds h
    · exact h
  rcases hlast with hlast | hlast
  · rw [hlast]
    exact (lgSchedExpedite_unladen e i).holds he
  · rwa [hlast]

theorem dispatchLink_holds (h : c.Holds Q) {hdr : FrameHdr} {pdu : Bytes}
    (hm : ∀ e i out, linkHanded psa o c hdr pdu = some (e, i, out) →
      ∀ m, readData (out.drop hdrLenSec) = some m → ∀ m', m.Relays m' → Q m') :
    (dispatchLink psa o c hdr pdu).Holds Q := by
  unfold linkHanded at hm
  unfold dispatchLink
  cases hfind : lgNeighFind c hdr.src with
  | none => exact h
  | some i =>
    rw [hfind] at hm
    dsimp only at hm ⊢
    by_cases hrefused : (c.neigh i).state ≠ .linked ∨ (!secured hdr.fcf) = true
    · rwa [if_pos hrefused]
    · rw [if_neg hrefused] at hm ⊢
      have hopened := (lgSecDecrypt_unladen psa (o.ok .decrypt) c i pdu).holds h
      rcases hdec : lgSecDecrypt psa (o.ok .decrypt) c i pdu with ⟨r | out, e⟩
      · rw [hdec] at hopened
        exact hopened
      · rw [hdec] at hm hopened
        refine lgLinkRxFrame_holds o hopened i hdr.fcf _ fun ht => ?_
        exact hm e i _ (if_pos ht)

theorem rxHandler_holds (h : c.Holds Q) (hp : rxHandler psa o c = some d)
    (hm : ∀ e i out, rxHanded psa o c = some (e, i, out) →
      ∀ m, readData (out.drop hdrLenSec) = some m → ∀ m', m.Relays m' → Q m') : d.Holds Q := by
  unfold rxHandler at hp
  unfold rxHanded at hm
  cases hring : c.rxRing with
  | nil =>
    rw [hring] at hp
    cases hp
    exact h
  | cons rx rest =>
    rw [hring] at hp hm
    dsimp only at hp hm
    have hpopped : ({ c with rxRing := rest } : Node cfg).Holds Q := h.of_eq rfl rfl h.type
    generalize ({ c with rxRing := rest } : Node cfg) = e at hp hm hpopped
    unfold dispatch at hp
    unfold dispatchHanded at hm
    cases hget : lgFrameHdrGet cfg rx.pdu e.ident.netid16 with
    | none =>
      rw [hget] at hp
      cases hp
      exact hpopped
    | some hdr =>
      rw [hget] at hp hm
      dsimp only at hp hm
      by_cases hdst : hdr.src = e.ident.addr ∨ (hdr.dst ≠ e.ident.addr ∧ hdr.dst ≠ addrBroadcast)
      · rw [if_pos hdst] at hp
        cases hp
        exact hpopped
      · rw [if_neg hdst] at hp hm
        cases ht : lgFrameType rx.pdu with
        | none =>
          rw [ht] at hp hm
          cases hp
          exact dispatchLink_holds hpopped hm
        | some t =>
          rw [ht] at hp hm
          cases t with
          | beacon =>
            cases hp
            exact (lgDiscBeaconRx_unladen psa o e rx).holds hpopped
          | joinReq | joinRsp | joinCfm | joinAck | resumeReq | resumeRsp =>
            exact (lgJoinRxPdu_unladen hp).holds hpopped
          | linkReq | linkRsp | data | ack | ctrl =>
            cases hp
            exact dispatchLink_holds hpopped hm

/-! ## Steps -/

theorem lgStop_holds (o : Oracle) (h : c.Holds Q) : (lgStop o c).Holds Q := by
  have hfold : ∀ (l : List (Fin cfg.maxNeighbors)) (c : Node cfg), c.Holds Q →
      (stopLinks o l c).Holds Q := by
    intro l
    induction l with
    | nil => exact fun c h => h
    | cons i l ih => exact fun c h => ih _ ((lgLinkDown_unladen _ c i).holds h)
  unfold lgStop
  split
  · exact h
  · have hdown := hfold (List.finRange cfg.maxNeighbors) c h
    exact hdown.of_eq rfl rfl hdown.type

theorem lgStart_holds (psa : Psa) (o : Oracle) (h : c.Holds Q) : (lgStart psa o c).Holds Q := by
  unfold lgStart
  split
  · exact h
  · split
    · exact h
    · refine (Unladen.of_quiet (lgDiscBeaconFinish_quiet psa o _)).holds ?_
      refine (Unladen.of_quiet (lgRoleEvaluate_quiet o _)).holds ?_
      refine ⟨?_, h.seals, by simp [discInit]⟩
      intro k hk
      simp [discInit] at hk

/-- What a step queues is what an application gives to `lg_send` or what `handle_data` passes on,
and nothing else comes to be sealed as data. -/
theorem perform_holds {inp : Input} (h : c.Holds Q) (hp : perform psa o c inp = some d)
    (hsend : ∀ dst port payload flags, inp = .send dst port payload flags →
      (lgSend c dst port payload flags).1 = .ok () →
      ∀ m, (sentMsg c dst port payload).Copies m → Q m)
    (hrelay : ∀ e i out, handed psa o c inp = some (e, i, out) →
      ∀ m, readData (out.drop hdrLenSec) = some m → ∀ m', m.Relays m' → Q m') : d.Holds Q := by
  cases inp with
  | tick us =>
    cases hp
    exact h.of_eq rfl rfl h.type
  | schedWork => exact schedPick_holds h hp
  | finishWork o' => exact schedFinish_holds h hp
  | rxWork => exact rxHandler_holds h hp hrelay
  | granted =>
    cases hp
    exact tsGranted_holds psa o h
  | refused =>
    cases hp
    exact (tsFailed_unladen o c).holds h
  | txDone airEndUs =>
    cases hp
    exact phyTxDone_holds psa o h airEndUs
  | rxDone rx =>
    cases hp
    exact (phyRxDone_unladen o c rx).holds h
  | rxFailed reason =>
    cases hp
    exact (phyRxFailed_unladen o c reason).holds h
  | send dst port payload flags =>
    cases hp
    exact lgSend_holds h (hsend dst port payload flags rfl)
  | backhaulSet up =>
    cases hp
    exact (Unladen.of_quiet (lgBackhaulSet_quiet o c up)).holds h
  | tuningSet t =>
    cases hp
    exact (Unladen.of_quiet (.trans ⟨_, _, rfl⟩ (lgDiscRetune_quiet o 0 _))).holds h
  | start =>
    cases hp
    exact lgStart_holds psa o h
  | stop =>
    cases hp
    exact lgStop_holds o h

end LockGrid
