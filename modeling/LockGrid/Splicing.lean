import LockGrid.Origin

/-!
# Messages are put together from fragments of one message

A frame carries its type and the number of its fragment, and nothing that says which message it is
of. What a receiver puts together is a message its peer has staged as long as no fragment but a
first one meets fragments of another message in the buffer.
-/
namespace LockGrid

variable {cfg : Config} {psa : Psa}

/-! ## Some fragments of a message -/

/-- The fragments in the buffer, whichever they are, are fragments of `msg`. -/
structure Xfer.HoldsSome (rx : Xfer) (msg : Bytes) (cap : ℕ) : Prop where
  size : rx.buf.length = xferMax
  below : rx.fragsSeen < 2 ^ fragCount cap msg
  bytes : ∀ j x, rx.fragsSeen.testBit j = true → j * cap ≤ x → x < (j + 1) * cap →
    x < msg.length → rx.buf[x]? = msg[x]?
  len : rx.len = if rx.fragsSeen.testBit (fragCount cap msg - 1) then msg.length else 0

theorem Xfer.holdsSome_empty (msg : Bytes) (cap : ℕ) : ({} : Xfer).HoldsSome msg cap := by
  have hnone : ∀ j, (0 : ℕ).testBit j = false := Nat.zero_testBit
  refine ⟨zeros_length _, Nat.two_pow_pos _, fun j x hj => ?_, ?_⟩
  · cases (hnone j).symm.trans hj
  · change 0 = if (0 : ℕ).testBit _ then _ else _
    rw [hnone, if_neg Bool.false_ne_true]

theorem getElem?_splice (buf chunk : Bytes) (off x : ℕ) (h : off + chunk.length ≤ buf.length) :
    (splice buf off chunk)[x]? =
      if off ≤ x ∧ x < off + chunk.length then chunk[x - off]? else buf[x]? := by
  have hoff : (buf.take off).length = off := by
    rw [List.length_take]
    omega
  rw [splice, List.append_assoc]
  by_cases hlow : x < off
  · rw [List.getElem?_append_left (by omega), List.getElem?_take_of_lt hlow, if_neg (by omega)]
  · rw [List.getElem?_append_right (by omega), hoff]
    by_cases hin : x < off + chunk.length
    · rw [List.getElem?_append_left (by omega), if_pos ⟨by omega, hin⟩]
    · rw [List.getElem?_append_right (by omega), List.getElem?_drop, if_neg (by omega)]
      congr 1
      omega

theorem getElem?_slice (msg : Bytes) (off cap x : ℕ) (h : x < cap) :
    (slice msg off cap)[x]? = msg[off + x]? := by
  rw [slice, List.getElem?_take_of_lt h, List.getElem?_drop]

/-- Any fragment goes with those that are there. -/
theorem Xfer.HoldsSome.add {rx : Xfer} {msg : Bytes} {cap k : ℕ} (h : rx.HoldsSome msg cap)
    (key : Option Bytes) (hcap : 0 < cap) (hmsg : msg ≠ []) (hmax : msg.length ≤ xferMax)
    (hk : k < fragCount cap msg) :
    (rx.add (k * cap) k (fragCount cap msg) (slice msg (k * cap) cap) key).HoldsSome msg cap := by
  obtain ⟨hend, hlast, hpos⟩ := fragCount_spec hcap hmsg
  have hlen := slice_fragment_length msg cap k
  have hstart : k * cap < msg.length := by
    have hle : k * cap ≤ (fragCount cap msg - 1) * cap := Nat.mul_le_mul_right cap (by omega)
    omega
  have hfit : k * cap + (slice msg (k * cap) cap).length ≤ rx.buf.length := by
    rw [h.size, hlen]
    omega
  have hmul : (k + 1) * cap = k * cap + cap := by rw [Nat.add_mul, Nat.one_mul]
  have hbit : ∀ j, (rx.fragsSeen ||| 2 ^ k).testBit j = true →
      j = k ∨ rx.fragsSeen.testBit j = true := by
    intro j hj
    rw [Nat.testBit_or, Bool.or_eq_true, Nat.testBit_two_pow, decide_eq_true_eq] at hj
    exact hj.symm.imp_left Eq.symm
  refine ⟨?_, ?_, fun j x hj hlo hhi hx => ?_, ?_⟩
  · exact (splice_length _ _ _ hfit).trans h.size
  · exact Nat.or_lt_two_pow h.below (Nat.pow_lt_pow_right (by omega) hk)
  · change (splice rx.buf (k * cap) (slice msg (k * cap) cap))[x]? = msg[x]?
    rw [getElem?_splice _ _ _ _ hfit, hlen]
    split_ifs with hin
    · rw [getElem?_slice _ _ _ _ (by omega)]
      congr 1
      omega
    · rcases hbit j hj with rfl | hold
      · omega
      · exact h.bytes j x hold hlo hhi hx
  · change (if k = fragCount cap msg - 1 then k * cap + (slice msg (k * cap) cap).length
      else rx.len) = if (rx.fragsSeen ||| 2 ^ k).testBit (fragCount cap msg - 1) then _ else _
    by_cases hk1 : k = fragCount cap msg - 1
    · have hset : (rx.fragsSeen ||| 2 ^ k).testBit (fragCount cap msg - 1) = true := by
        rw [Nat.testBit_or, Nat.testBit_two_pow, decide_eq_true hk1, Bool.or_true]
      rw [if_pos hk1, if_pos hset, hlen]
      have hcount : fragCount cap msg = k + 1 := by omega
      rw [hcount, hmul] at hend
      omega
    · have hsame : (rx.fragsSeen ||| 2 ^ k).testBit (fragCount cap msg - 1) =
          rx.fragsSeen.testBit (fragCount cap msg - 1) := by
        rw [Nat.testBit_or, Nat.testBit_two_pow, decide_eq_false hk1, Bool.or_false]
      rw [if_neg hk1, hsame]
      exact h.len

/-- All the fragments of a message are the message. -/
theorem Xfer.HoldsSome.whole {rx : Xfer} {msg : Bytes} {cap : ℕ} (h : rx.HoldsSome msg cap)
    (hcap : 0 < cap) (hmsg : msg ≠ [])
    (hall : rx.fragsSeen = 2 ^ fragCount cap msg - 1) : rx.msg = msg := by
  obtain ⟨hend, hlast, hpos⟩ := fragCount_spec hcap hmsg
  have hbit : ∀ j, j < fragCount cap msg → rx.fragsSeen.testBit j = true := by
    intro j hj
    rw [hall, Nat.testBit_two_pow_sub_one]
    exact decide_eq_true hj
  have hlen := h.len
  rw [if_pos (hbit _ (by omega))] at hlen
  apply List.ext_getElem?
  intro x
  rw [Xfer.msg, slice, List.drop_zero, hlen]
  by_cases hx : x < msg.length
  · rw [List.getElem?_take_of_lt hx]
    have hdiv := Nat.div_add_mod x cap
    have hmod := Nat.mod_lt x hcap
    have hj : x / cap < fragCount cap msg := (Nat.div_lt_iff_lt_mul hcap).mpr (by omega)
    refine h.bytes (x / cap) x (hbit _ hj) ?_ ?_ hx
    · exact Nat.div_mul_le_self x cap
    · rw [Nat.add_mul, Nat.one_mul, Nat.mul_comm]
      omega
  · rw [List.getElem?_eq_none (by rw [List.length_take]; omega),
      List.getElem?_eq_none (by omega)]

/-- The buffer cannot tell messages apart that agree in the fragments it has. -/
theorem Xfer.HoldsSome.swap {rx : Xfer} {msg msg' : Bytes} {cap : ℕ} (h : rx.HoldsSome msg cap)
    (hlen : msg'.length = msg.length) (hsame : ∀ j x, rx.fragsSeen.testBit j = true →
      j * cap ≤ x → msg'[x]? = msg[x]?) : rx.HoldsSome msg' cap := by
  have hcount : fragCount cap msg' = fragCount cap msg := by rw [fragCount, fragCount, hlen]
  refine ⟨h.size, hcount ▸ h.below, fun j x hj hlo hhi hx => ?_, ?_⟩
  · rw [hsame j x hj hlo]
    exact h.bytes j x hj hlo hhi (hlen ▸ hx)
  · rw [hcount, hlen]
    exact h.len

/-- A fragment that comes to fragments of the same message, to none, or is the first. -/
theorem addFragment_some (c : Node cfg) (t : FrameType) {sec : Bool} (key : Option Bytes)
    {hdr msg : Bytes} {k : ℕ} (hmsg : msg ≠ []) (hmax : msg.length ≤ xferMax)
    (htotal : fragCount (fragCap cfg sec) msg ≤ 8) (hk : k < fragCount (fragCap cfg sec) msg)
    (hhdr : hdr.length = if sec then hdrLenSec else hdrLen)
    (hc : c.hs.rxType = t → k ≠ 0 → c.hs.rx.HoldsSome msg (fragCap cfg sec)) :
    ∃ rx, addFragment c t sec key (hdr ++ fragHdr k (fragCount (fragCap cfg sec) msg) ++
        slice msg (k * fragCap cfg sec) (fragCap cfg sec)) =
      (decide (rx.fragsSeen = 2 ^ fragCount (fragCap cfg sec) msg - 1),
        c.setHs { c.hs with rxType := t, rx := rx }) ∧
      rx.HoldsSome msg (fragCap cfg sec) ∧ rx.fragsSeen.testBit k = true := by
  have hcap := fragCap_pos cfg sec
  generalize hcapEq : fragCap cfg sec = cap at *
  obtain ⟨hend, hlast, hpos⟩ := fragCount_spec hcap hmsg
  have hlen := slice_fragment_length msg cap k
  have hstart : k * cap ≤ msg.length := by
    have hle : k * cap ≤ (fragCount cap msg - 1) * cap := Nat.mul_le_mul_right cap (by omega)
    omega
  obtain ⟨hidx, htot, hchunk⟩ :=
    getByte_fragment hdr k (fragCount cap msg) (slice msg (k * cap) cap)
  rw [hhdr] at hidx htot hchunk
  have hklt : (UInt8.ofNat k).toNat = k := by
    rw [UInt8.toNat_ofNat']
    omega
  have htlt : (UInt8.ofNat (fragCount cap msg)).toNat = fragCount cap msg := by
    rw [UInt8.toNat_ofNat']
    omega
  let base : Xfer := if c.hs.rxType ≠ t ∨ k = 0 then {} else c.hs.rx
  have hbase : base.HoldsSome msg cap := by
    by_cases hreset : c.hs.rxType ≠ t ∨ k = 0
    · have hempty : base = {} := if_pos hreset
      rw [hempty]
      exact Xfer.holdsSome_empty msg cap
    · have hkeep : base = c.hs.rx := if_neg hreset
      rw [not_or, not_not] at hreset
      rw [hkeep]
      exact hc hreset.1 hreset.2
  let rx := base.add (k * cap) k (fragCount cap msg) (slice msg (k * cap) cap) key
  have hrx : rx.HoldsSome msg cap := hbase.add key hcap hmsg hmax hk
  have hsize : (hdr ++ fragHdr k (fragCount cap msg) ++ slice msg (k * cap) cap).length =
      (if sec then hdrLenSec else hdrLen) + fragHdrLen + (slice msg (k * cap) cap).length := by
    simp only [List.length_append, hhdr]
    rfl
  have hlenRx : rx.fragsSeen = 2 ^ fragCount cap msg - 1 → rx.len ≠ 0 := by
    intro hall
    have hlen := hrx.len
    rw [hall, Nat.testBit_two_pow_sub_one, if_pos (by simp; omega)] at hlen
    rw [hlen]
    exact (List.length_pos_of_ne_nil hmsg).ne'
  have hcomplete : (decide (rx.fragsSeen = 2 ^ fragCount cap msg - 1) && decide (rx.len ≠ 0)) =
      decide (rx.fragsSeen = 2 ^ fragCount cap msg - 1) := by
    by_cases hall : rx.fragsSeen = 2 ^ fragCount cap msg - 1
    · simp [hall, hlenRx hall]
    · simp [hall]
  refine ⟨rx, ?_, hrx, ?_⟩
  · rw [← hcomplete]
    unfold addFragment
    dsimp only
    rw [hidx, htot, hchunk, hklt, htlt, hsize, hcapEq, if_neg (by omega), if_neg (by omega),
      if_neg (by omega)]
  · change (base.fragsSeen ||| 2 ^ k).testBit k = true
    rw [Nat.testBit_or, Nat.testBit_two_pow_self, Bool.or_true]

/-! ## What an honest node stages -/

/-- Whether the messages of a type are sealed. -/
def FrameType.isSealed : FrameType → Bool
  | .joinCfm | .joinAck | .resumeRsp => true
  | _ => false

/-- The length of the handshake messages of a type. -/
def FrameType.messageLen : FrameType → ℕ
  | .joinReq => joinReqLen
  | .joinRsp => joinRspLen
  | .joinCfm => sigLen
  | .joinAck | .resumeRsp => linkParamsLen
  | .resumeReq => nonceLen
  | _ => 0

/-- The staged message is one of its type, cut up for it; a `JOIN_REQ` ends in the certificate. -/
structure Hs.Proper (hs : Hs cfg) (cert : Bytes) : Prop where
  sec : hs.txSecured = hs.txType.isSealed
  len : hs.tx.length = hs.txType.messageLen
  total : hs.fragTotal = fragCount (fragCap cfg hs.txSecured) hs.tx
  cert : hs.txType = .joinReq → hs.tx.drop (nonceLen + ecPubLen) = cert

/-- If a handshake message is staged, it is proper. -/
def Hs.Speaks (hs : Hs cfg) (cert : Bytes) : Prop := hs.txType.isJoin = true → hs.Proper cert

theorem Hs.Proper.speaks {hs : Hs cfg} {cert : Bytes} (h : hs.Proper cert) : hs.Speaks cert :=
  fun _ => h

/-- The message that is to be sent. -/
def Hs.outgoing (hs : Hs cfg) : Bytes × FrameType × Bool × ℕ :=
  (hs.tx, hs.txType, hs.txSecured, hs.fragTotal)

theorem Hs.Speaks.congr {hs hs' : Hs cfg} {cert : Bytes} (h : hs.Speaks cert)
    (he : hs'.outgoing = hs.outgoing) :
    hs'.Speaks cert := by
  simp only [Hs.outgoing, Prod.mk.injEq] at he
  obtain ⟨htx, htype, hsec, htotal⟩ := he
  intro hj
  rw [htype] at hj
  obtain ⟨h₁, h₂, h₃, h₄⟩ := h hj
  refine ⟨by rw [hsec, htype, h₁], by rw [htx, htype, h₂], by rw [htotal, hsec, htx, h₃], ?_⟩
  rwa [htype, htx]

theorem Hs.speaks_empty (cert : Bytes) : ({} : Hs cfg).Speaks cert := nofun

/-- What becomes of the message that is to be sent. -/
inductive Hs.Voices (cert : Bytes) (hs hs' : Hs cfg) : Prop
  | kept (h : hs'.outgoing = hs.outgoing)
  | dropped (h : hs'.outgoing = ({} : Hs cfg).outgoing)
  | staged (h : hs'.Proper cert)

namespace Hs.Voices

variable {hs hs' hs'' : Hs cfg} {cert : Bytes}

theorem refl (hs : Hs cfg) : Voices cert hs hs := .kept rfl

theorem trans (h : Voices cert hs hs') (h' : Voices cert hs' hs'') : Voices cert hs hs'' := by
  cases h' with
  | kept h' =>
    cases h with
    | kept h => exact .kept (h'.trans h)
    | dropped h => exact .dropped (h'.trans h)
    | staged h =>
      simp only [Hs.outgoing, Prod.mk.injEq] at h'
      obtain ⟨htx, htype, hsec, htotal⟩ := h'
      refine .staged ⟨by rw [hsec, htype, h.sec], by rw [htx, htype, h.len],
        by rw [htotal, hsec, htx, h.total], ?_⟩
      rw [htype, htx]
      exact h.cert
  | dropped h' => exact .dropped h'
  | staged h' => exact .staged h'

theorem of_works {c c' : Node cfg} (h : Works psa c c') : Voices cert c.hs c'.hs := by
  have he : c'.hs.credit.outgoing = c.hs.credit.outgoing := congrArg Hs.outgoing h.credit
  exact .kept he

theorem speaks (h : Voices cert hs hs') (hc : hs.Speaks cert) : hs'.Speaks cert := by
  cases h with
  | kept h => exact hc.congr h
  | dropped h => exact (Hs.speaks_empty cert).congr h
  | staged h => exact h.speaks

end Hs.Voices

theorem stageMessage_proper (hs : Hs cfg) {t : FrameType} {sec : Bool} {msg cert : Bytes}
    (hsec : sec = t.isSealed) (hlen : msg.length = t.messageLen)
    (hcert : t = .joinReq → msg.drop (nonceLen + ecPubLen) = cert) :
    (stageMessage hs t sec msg).Proper cert := ⟨hsec, hlen, rfl, hcert⟩

section

variable {o : Oracle} {c d : Node cfg} {i : Fin cfg.maxNeighbors} {msg cert : Bytes}

theorem deriveKeys_join (psa : Psa) (o : Oracle) (c : Node cfg) (i : Fin cfg.maxNeighbors)
    (secret transcript : Bytes) :
    ((deriveKeys psa o c i secret transcript).2.neigh i).join = (c.neigh i).join ∧
      (deriveKeys psa o c i secret transcript).2.ident = c.ident := by
  obtain ⟨k, ins, ds, live, -, h⟩ := deriveKeys_cases psa o c i secret transcript
  rw [h]
  exact ⟨by simp [Node.setKeys], rfl⟩

theorem drawKeypair_drawn (o : Oracle) (c : Node cfg) (i : Fin cfg.maxNeighbors) :
    ((drawKeypair o (drawNonce o c i)).neigh i).join.nonceLocal = o.nonce ∧
      (drawKeypair o (drawNonce o c i)).hs.ephPub = o.keypair.1 ∧
      (drawKeypair o (drawNonce o c i)).ident = c.ident := by
  refine ⟨?_, rfl, rfl⟩
  simp [Node.setJoin, drawKeypair, drawNonce, Node.setHs]

/-- What `handle_join_req` has drawn once it has a secret. -/
theorem agreeJoinReq_drawn {p : Bytes × Bytes} (h : agreeJoinReq psa o c i msg = (.ok p, d)) :
    (d.neigh i).join.nonceLocal = o.nonce ∧ d.hs.ephPub = o.keypair.1 ∧ d.ident = c.ident := by
  have hset : ∀ (e : Node cfg) (t : Bytes), ((e.setJoin i { (e.neigh i).join with
      transcript := t }).neigh i).join.nonceLocal = (e.neigh i).join.nonceLocal := by
    intro e t
    simp [Node.setJoin]
  unfold agreeJoinReq at h
  split at h
  · cases h
  · split at h
    · cases h
    · next info _ =>
      have hident : (rememberPeer c i msg info).ident = c.ident := rfl
      obtain ⟨hn, he, hid⟩ := drawKeypair_drawn o (rememberPeer c i msg info) i
      split at h
      · cases h
      · dsimp only at h
        split at h
        · cases h
        · split at h
          · cases h
          · split at h
            · cases h
            · split at h
              · cases h
              · cases h
                exact ⟨(hset _ _).trans hn, he, hid.trans hident⟩

theorem handleJoinReq_proper (hlen : c.ident.cert.length = certLen)
    (h : handleJoinReq psa o c i msg = (.ok (), d)) : d.hs.Proper cert := by
  unfold handleJoinReq at h
  split at h
  · cases h
  · next transcript secret e ha =>
    obtain ⟨hnonce, heph, hident⟩ := agreeJoinReq_drawn ha
    dsimp only at h
    generalize ({ e.hist with reqDerived := e.hist.reqDerived + 1 } : History cfg) = hist at h
    have hhs := deriveKeys_hs psa o { e with hist := hist } i secret transcript
    obtain ⟨hjoin, hid⟩ := deriveKeys_join psa o { e with hist := hist } i secret transcript
    split at h
    · cases h
    · next f hf =>
      rw [hf] at hhs hjoin hid
      split at h <;> cases h
      refine stageMessage_proper _ rfl ?_ nofun
      · have hn : ((f.neigh i).join.nonceLocal).length = nonceLen := by
          rw [hjoin, hnonce, o.nonce_length]
        have he : f.hs.ephPub.length = ecPubLen := by
          rw [hhs, heph, o.keypair_length]
        have hc : f.ident.cert.length = certLen := by
          rw [hid, hident, hlen]
        simp only [List.length_append, hn, he, hc, o.sign_length, FrameType.messageLen, joinRspLen]

theorem handleJoinRsp_proper (h : handleJoinRsp psa o c i msg = (.ok (), d)) :
    d.hs.Proper cert := by
  unfold handleJoinRsp at h
  split at h
  · cases h
  · dsimp only at h
    split at h
    · cases h
    · split at h <;> cases h
      exact stageMessage_proper _ rfl (o.sign_length _) nofun

theorem LinkParams.encode_length (pp : LinkParams) : pp.encode.length = linkParamsLen := rfl

theorem handleJoinCfm_proper (h : handleJoinCfm psa o c i msg = (.ok (), d)) :
    d.hs.Proper cert := by
  unfold handleJoinCfm at h
  split at h
  · cases h
  · dsimp only at h
    split at h <;> cases h
    exact stageMessage_proper _ rfl (LinkParams.encode_length _) nofun

theorem handleResumeReq_proper (h : handleResumeReq psa o c i msg = (.ok (), d)) :
    d.hs.Proper cert := by
  unfold handleResumeReq at h
  split at h
  · cases h
  · dsimp only at h
    split at h <;> cases h
    exact stageMessage_proper _ rfl (LinkParams.encode_length _) nofun

theorem settleStep_voices (hs : Hs cfg) {r : Except Err Unit × Node cfg}
    (h : r.1 = .ok () → r.2.hs.Proper cert) : hs.Voices cert (settleStep r i).hs := by
  obtain ⟨e | u, d⟩ := r
  · exact .dropped rfl
  · have hp : d.hs.Proper cert := h rfl
    exact .staged ⟨hp.sec, hp.len, hp.total, hp.cert⟩

theorem handleMessage_voices {t : FrameType} {sec : Bool} {airStartUs : ℕ}
    (hcert : c.ident.cert.length = certLen)
    (h : handleMessage psa o c i t sec airStartUs = some d) : c.hs.Voices cert d.hs := by
  unfold handleMessage at h
  dsimp only at h
  cases t with
  | joinReq =>
    cases h
    exact settleStep_voices _ fun hok => handleJoinReq_proper hcert (Prod.ext hok rfl)
  | joinRsp =>
    cases h
    exact settleStep_voices _ fun hok => handleJoinRsp_proper (Prod.ext hok rfl)
  | joinCfm =>
    cases h
    exact settleStep_voices _ fun hok => handleJoinCfm_proper (Prod.ext hok rfl)
  | joinAck | resumeRsp =>
    refine .dropped ?_
    rw [finishJoiner_over h]
  | resumeReq =>
    dsimp only at h
    split at h
    · cases h
      exact .dropped rfl
    · next he =>
      cases h
      exact settleStep_voices _ fun _ => handleResumeReq_proper he
  | beacon | linkReq | linkRsp | data | ack | ctrl =>
    cases h
    exact .refl _

theorem reassemble_outgoing (psa : Psa) (o : Oracle) (c : Node cfg) (i : Fin cfg.maxNeighbors)
    (t : FrameType) (pdu : Bytes) :
    (reassemble psa o c i t pdu).2.hs.outgoing = c.hs.outgoing := by
  have hadd : ∀ (d : Node cfg) (sec : Bool) (key : Option Bytes) (pdu : Bytes),
      (addFragment d t sec key pdu).2.hs.outgoing = d.hs.outgoing := by
    intro d sec key pdu
    unfold addFragment
    dsimp only
    split_ifs <;> rfl
  have hdec := congrArg Hs.outgoing (lgSecDecrypt_hs psa (o.ok .decrypt) c i pdu)
  unfold reassemble
  split
  · split <;> next he =>
      rw [he] at hdec
      first
        | exact hdec
        | exact (hadd _ _ _ _).trans hdec
  · exact hadd c _ _ _

theorem contextFor_voices (psa : Psa) (o : Oracle) (c : Node cfg) (cert : Bytes) (t : FrameType)
    (src : Addr) (airStartUs : ℕ) :
    c.hs.Voices cert (contextFor o c t src airStartUs).2.hs ∧
      (contextFor o c t src airStartUs).2.ident = c.ident := by
  unfold contextFor
  split
  · exact ⟨.refl _, rfl⟩
  · split
    · obtain ⟨hhs, hident, -⟩ := admitJoiner_rest psa o c src
      have hsame : c.hs.Voices cert (admitJoiner o c src).2.hs := by
        rw [hhs]
        exact .refl _
      split <;> next he =>
        rw [he] at hsame hident
        first
          | exact ⟨hsame, hident⟩
          | split
            · exact ⟨hsame, hident⟩
            · exact ⟨.dropped rfl, hident⟩
    · exact ⟨.refl _, rfl⟩

theorem lgJoinRxPdu_voices {c : Node cfg} {t : FrameType} {rx : RxRec}
    (hcert : c.ident.cert.length = certLen) (h : lgJoinRxPdu psa o c t rx = some d) :
    c.hs.Voices cert d.hs := by
  obtain ⟨hctx, hident⟩ :=
    contextFor_voices psa o c cert t (getLe16 rx.pdu offSrc) rx.airStartUs
  unfold lgJoinRxPdu at h
  split at h
  · next he =>
    rw [he] at hctx
    cases h
    exact hctx
  · next i e he =>
    rw [he] at hctx hident
    have hre := reassemble_outgoing psa o (lgNeighRxRssi e i rx.rssi) i t rx.pdu
    have hid : (reassemble psa o (lgNeighRxRssi e i rx.rssi) i t rx.pdu).2.ident = e.ident :=
      (reassemble_spec psa o (lgNeighRxRssi e i rx.rssi) i t rx.pdu).handled.ident
    split at h <;> next hr =>
      rw [hr] at hre hid
      have hpart := hctx.trans (.kept hre)
      first
        | cases h
          exact hpart
        | exact hpart.trans (handleMessage_voices (by rw [hid, hident, hcert]) h)

theorem lgJoinEventFinish_voices (cert : Bytes) (h : lgJoinEventFinish o c = some d) :
    c.hs.Voices cert d.hs := by
  unfold lgJoinEventFinish at h
  split at h
  · cases h
    exact .refl _
  · split at h
    · cases h
      exact .dropped rfl
    · split at h
      · obtain ⟨e, -, rfl⟩ := Option.map_eq_some_iff.mp h
        exact .dropped rfl
      · dsimp only at h
        split at h <;> cases h
        · exact .dropped rfl
        · exact .kept rfl

theorem buildResumeReq_proper (h : buildResumeReq o c i = (.ok (), d)) : d.hs.Proper cert := by
  unfold buildResumeReq at h
  split at h <;> cases h
  have hn : ((drawNonce o c i).neigh i).join.nonceLocal = o.nonce := by
    simp [drawNonce, Node.setJoin]
  refine stageMessage_proper _ rfl ?_ (by simp)
  rw [hn, o.nonce_length]
  rfl

theorem buildJoinReq_proper (hcert : c.ident.cert.length = certLen)
    (h : buildJoinReq o c i = (.ok (), d)) : d.hs.Proper c.ident.cert := by
  unfold buildJoinReq at h
  dsimp only at h
  split at h
  · cases h
  · split at h <;> cases h
    have hn : ((drawNonce o c i).neigh i).join.nonceLocal = o.nonce := by
      simp [drawNonce, Node.setJoin]
    have hlen : (o.nonce ++ o.keypair.1 ++ c.ident.cert).length = joinReqLen := by
      rw [List.length_append, List.length_append, o.nonce_length, o.keypair_length, hcert]
      rfl
    have hdrop : (o.nonce ++ o.keypair.1 ++ c.ident.cert).drop (nonceLen + ecPubLen) =
        c.ident.cert := by
      apply List.drop_left'
      rw [List.length_append, o.nonce_length, o.keypair_length]
    rw [← hn] at hlen hdrop
    exact stageMessage_proper _ rfl hlen fun _ => hdrop

theorem lgJoinStart_voices (o : Oracle) (c : Node cfg) (i : Fin cfg.maxNeighbors) :
    c.hs.Voices c.ident.cert (lgJoinStart o c i).2.hs := by
  unfold lgJoinStart
  dsimp only
  split
  · exact .refl _
  · split
    · exact .refl _
    · split
      · exact .refl _
      · split
        · exact .refl _
        · split
          · exact .refl _
          · next hcert =>
            split
            · exact .dropped rfl
            · next e he =>
              change c.hs.Voices c.ident.cert e.hs
              split at he
              · exact .staged (buildResumeReq_proper he)
              · have hlen : c.ident.cert.length = certLen := not_not.mp hcert
                have hproper := buildJoinReq_proper (by exact hlen) he
                exact .staged hproper

theorem Pieces.voices (h : Pieces psa c d) : c.hs.Voices c.ident.cert d.hs := by
  induction h with
  | refl => exact .refl _
  | @tail d _ hd hpiece ih =>
    have hident : d.ident = c.ident := (Pieces.advances hd).ident
    refine ih.trans ?_
    cases hpiece with
    | work h => exact .of_works h
    | begin o i _ =>
      rw [← hident]
      exact lgJoinStart_voices o d i
    | slot o h => exact lgJoinEventFinish_voices _ h

/-- A step keeps the message that is to be sent, drops it or stages a proper one. -/
theorem perform_voices {inp : Input} (hcert : c.ident.cert.length = certLen)
    (h : perform psa o c inp = some d) : c.hs.Voices c.ident.cert d.hs := by
  rcases perform_cases h with hpieces | ⟨-, t, rx, rest, -, -, hrx⟩ | ⟨-, e, he, hw⟩
  · exact hpieces.voices
  · have hv : ({ c with rxRing := rest } : Node cfg).hs.Voices c.ident.cert d.hs :=
      lgJoinRxPdu_voices (by exact hcert) hrx
    exact hv
  · have hidle : c.hs.Voices c.ident.cert e.hs := .dropped (by rw [he.hs])
    exact hidle.trans (.of_works hw)

/-- In every run, a handshake message that is staged is proper. -/
theorem perform_speaks {inp : Input} (hcert : c.ident.cert.length = certLen)
    (hc : c.hs.Speaks c.ident.cert) (h : perform psa o c inp = some d) :
    d.hs.Speaks c.ident.cert := (perform_voices hcert h).speaks hc

end

/-! ## What an honest node sends -/

theorem FrameType.messageLen_le (t : FrameType) : t.messageLen ≤ 276 := by
  cases t <;> decide

theorem FrameType.messageLen_pos {t : FrameType} (h : t.isJoin = true) : 0 < t.messageLen := by
  revert h
  cases t <;> decide

theorem le_fragCap (cfg : Config) (sec : Bool) : 64 ≤ fragCap cfg sec := by
  have hmic := cfg.micLen_range
  simp only [fragCap, pduMax, Config.secOverhead, hdrLenSec, hdrLen, fctrLen, fragHdrLen]
  split <;> omega

theorem fragCount_le {cap : ℕ} (hcap : 64 ≤ cap) {msg : Bytes} (h : msg.length ≤ 276) :
    fragCount cap msg ≤ 8 := by
  have hdiv : (msg.length + cap - 1) / cap < 9 := by
    rw [Nat.div_lt_iff_lt_mul (by omega)]
    omega
  rw [fragCount]
  omega

theorem fragCount_one {cap : ℕ} {msg : Bytes} (h : msg.length ≤ cap) : fragCount cap msg = 1 := by
  have hdiv : (msg.length + cap - 1) / cap ≤ 1 := by
    rcases Nat.eq_zero_or_pos cap with rfl | hcap
    · rw [Nat.div_zero]
      omega
    · have hlt : (msg.length + cap - 1) / cap < 2 := by
        rw [Nat.div_lt_iff_lt_mul hcap]
        omega
      omega
  rw [fragCount]
  omega

/-- The payload of a fragment. -/
def Shot.payload (cfg : Config) (f : Shot) : Bytes :=
  fragHdr f.idx (fragCount (fragCap cfg f.type.isSealed) f.msg) ++
    slice f.msg (f.idx * fragCap cfg f.type.isSealed) (fragCap cfg f.type.isSealed)

/-- The frame carries the fragment it is recorded with, behind some header. -/
structure Shot.Cut (psa : Psa) (cfg : Config) (cert : Bytes) (f : Shot) : Prop where
  sec : secured (getByte f.pdu offFcf) = f.type.isSealed
  len : f.msg.length = f.type.messageLen
  cert : f.type = .joinReq → f.msg.drop (nonceLen + ecPubLen) = cert
  idx : f.idx < fragCount (fragCap cfg f.type.isSealed) f.msg
  clear : f.type.isSealed = false → ∃ hdr, hdr.length = hdrLen ∧ f.pdu = hdr ++ f.payload cfg
  enciphered : f.type.isSealed = true → ∃ hdr key nonce aad, hdr.length = hdrLenSec ∧
    f.pdu = hdr ++ psa.aeadEncrypt cfg.micLen key nonce aad (f.payload cfg)

/-- Only a `JOIN_REQ` and a `JOIN_RSP` take more than one fragment. -/
theorem Shot.Cut.type_of_idx {f : Shot} {cert : Bytes} (hf : f.Cut psa cfg cert)
    (hj : f.type.isJoin = true) (hidx : f.idx ≠ 0) : f.type = .joinReq ∨ f.type = .joinRsp := by
  by_contra hother
  rw [not_or] at hother
  have hshort : f.type.messageLen ≤ 64 := by
    revert hother hj
    cases f.type <;> simp [FrameType.messageLen, FrameType.isJoin, sigLen, linkParamsLen, nonceLen]
  have hlt := hf.idx
  rw [fragCount_one ((hf.len.trans_le hshort).trans (le_fragCap cfg _))] at hlt
  omega

/-- A sealed fragment that is built has been sealed under the key of the neighbour. -/
theorem buildFragment_keyed {o : Oracle} {c : Node cfg} {i : Fin cfg.maxNeighbors} {k : ℕ}
    (hn : c.hs.n = some i) (hsec : c.hs.txSecured = true)
    (h : (buildFragment psa o c k).1 ≠ []) :
    (c.neigh i).keys.hasKey = true ∧ (∃ key, (c.neigh i).keys.keyId = some key) ∧
      o.ok .encrypt = true := by
  unfold buildFragment at h
  rw [hn] at h
  dsimp only at h
  have hkeys : ((c.setTx i { (c.neigh i).tx with
      txSeq := (c.neigh i).tx.txSeq + 1 }).neigh i).keys = (c.neigh i).keys := by
    simp [Node.setTx]
  rw [if_pos (by exact hsec)] at h
  split at h
  · exact absurd rfl h
  · next he =>
    unfold lgSecEncrypt at he
    simp only [hkeys] at he
    split at he
    · cases he
    · next hhas =>
      split at he
      · cases he
      · split at he
        · cases he
        · next key hkey =>
          split at he
          · cases he
          · split at he
            · cases he
            · next hok =>
              exact ⟨by simpa using hhas, ⟨key, hkey⟩, by simpa using hok⟩

theorem lgFrameType_fields (netid : UInt16) (t : FrameType) (sec : Bool) (seq : UInt8)
    (dst src : Addr) (rest : Bytes) :
    lgFrameType (frameFields netid (fcfOf t sec) seq dst src ++ rest) = some t := by
  rw [lgFrameType, getByte_fields_fcf, fcfOf_type]

/-- A fragment that is built names its type and carries its payload. -/
theorem buildFragment_pdu {o : Oracle} {c : Node cfg} {k : ℕ}
    (h : (buildFragment psa o c k).1 ≠ []) :
    lgFrameType (buildFragment psa o c k).1 = some c.hs.txType ∧
      secured (getByte (buildFragment psa o c k).1 offFcf) = c.hs.txSecured ∧
      (c.hs.txSecured = false →
        ∃ hdr, hdr.length = hdrLen ∧ (buildFragment psa o c k).1 = hdr ++ c.hs.fragment k) ∧
      (c.hs.txSecured = true → ∃ hdr key nonce aad, hdr.length = hdrLenSec ∧
        (buildFragment psa o c k).1 =
          hdr ++ psa.aeadEncrypt cfg.micLen key nonce aad (c.hs.fragment k)) := by
  cases hn : c.hs.n with
  | none =>
    unfold buildFragment at h
    rw [hn] at h
    exact absurd rfl h
  | some i =>
    cases hsec : c.hs.txSecured with
    | false =>
      rw [buildFragment_clear hn hsec]
      refine ⟨?_, ?_, fun _ => ⟨c.fragFields i, c.fragFields_length i, rfl⟩, by simp⟩
      · exact lgFrameType_fields ..
      · change secured (getByte (frameFields .. ++ _) offFcf) = false
        rw [getByte_fields_fcf, secured_fcfOf, hsec]
    | true =>
      obtain ⟨hhas, ⟨key, hkey⟩, hok⟩ := buildFragment_keyed hn hsec h
      obtain ⟨hpdu, -⟩ := buildFragment_sealed psa k hn hsec hhas hkey hok
      have hfields : ∀ rest, c.sealedHdr i ++ rest = frameFields c.ident.netid16
          (fcfOf c.hs.txType true) (c.neigh i).tx.txSeq (c.neigh i).addr c.ident.addr ++
            (putLe32 ((c.neigh i).keys.txCtr + 1) ++ rest) := by
        intro rest
        rw [Node.sealedHdr, Node.fragFields, hsec, List.append_assoc]
      refine ⟨?_, ?_, by simp, fun _ => ⟨c.sealedHdr i, _, _, _, c.sealedHdr_length i, hpdu⟩⟩
      · rw [hpdu, hfields]
        exact lgFrameType_fields ..
      · rw [hpdu, hfields, getByte_fields_fcf, secured_fcfOf]

/-- A frame of a handshake that goes on air is of the type it is recorded with, and carries its
fragment. -/
theorem onAir_cut (attempt startUs : ℕ) {o : Oracle} {c : Node cfg} {k : ℕ} {pdu cert : Bytes}
    (hc : c.hs.Speaks cert) (hk : k = 0 ∨ k < c.hs.fragTotal) (h : onAir psa o c k = some pdu) :
    lgFrameType pdu = some c.hs.txType ∧ (c.hs.txType.isJoin = true →
      Shot.Cut psa cfg cert ⟨attempt, c.hs.txType, c.hs.tx, k, pdu, startUs⟩) := by
  unfold onAir at h
  dsimp only at h
  split at h
  · cases h
  · next hair =>
    cases h
    obtain ⟨htype, hsec, hclear, hsealed⟩ := buildFragment_pdu fun he => hair (.inl he)
    refine ⟨htype, fun hj => ?_⟩
    obtain ⟨hs, hlen, htotal, hcert⟩ := hc hj
    have hpayload : c.hs.fragment k = Shot.payload cfg
        ⟨attempt, c.hs.txType, c.hs.tx, k, (buildFragment psa o c k).1, startUs⟩ := by
      rw [Hs.fragment, htotal, hs]
      rfl
    rw [hs] at hsec hclear hsealed htotal
    rw [hpayload] at hclear hsealed
    have hpos : 0 < c.hs.tx.length := by
      rw [hlen]
      exact FrameType.messageLen_pos hj
    have hcount : 0 < fragCount (fragCap cfg c.hs.txType.isSealed) c.hs.tx :=
      (fragCount_spec (fragCap_pos cfg _) (List.length_pos_iff.mp hpos)).2.2
    have hidx : k < fragCount (fragCap cfg c.hs.txType.isSealed) c.hs.tx := by
      rw [← htotal] at hcount ⊢
      omega
    exact ⟨hsec, hlen, hcert, hidx, hclear, hsealed⟩

theorem shotOf_cut {o : Oracle} {attempt : ℕ} {c : Node cfg} {inp : Input} {f : Shot}
    {cert : Bytes} (hc : c.hs.Speaks cert) (h : shotOf psa o attempt c inp = some f) :
    lgFrameType f.pdu = some f.type ∧ (f.type.isJoin = true → f.Cut psa cfg cert) := by
  unfold shotOf at h
  dsimp only at h
  split at h
  · cases h
  · split at h
    · obtain ⟨pdu, hpdu, rfl⟩ := Option.map_eq_some_iff.mp h
      have hs : (c.setHs { c.hs with wasTx := true, fragIdx := 0 }).hs.Speaks cert := hc.congr rfl
      have hcut := onAir_cut attempt c.ev.anchorUs hs (.inl rfl) hpdu
      exact hcut
    · next airEndUs =>
      split at h
      · next hmore =>
        obtain ⟨pdu, hpdu, rfl⟩ := Option.map_eq_some_iff.mp h
        have hs : (c.fragDone airEndUs).hs.Speaks cert := hc.congr rfl
        have hcut := onAir_cut attempt (airEndUs + fragGapUs) hs (.inr hmore) hpdu
        exact hcut
      · cases h
    · cases h

/-! ## What a listener does with a fragment -/

/-- What opens is what has been sealed, under whatever key. -/
def Psa.Seals (psa : Psa) : Prop :=
  ∀ n key nonce aad key₀ nonce₀ aad₀ txt body,
    psa.aeadDecrypt n key nonce aad (psa.aeadEncrypt n key₀ nonce₀ aad₀ txt) = some body →
    body = txt

theorem plain_seals : Psa.plain.Seals := by
  intro n key nonce aad key₀ nonce₀ aad₀ txt body h
  simp only [Psa.plain] at h
  have hlen : (txt ++ plainTag n key₀ nonce₀).length - n = txt.length := by
    rw [List.length_append, plainTag_length]
    omega
  split at h
  · rw [hlen, List.take_left] at h
    exact (Option.some.inj h).symm
  · cases h

/-- A frame that opens carries what was sealed behind its header. -/
theorem lgSecDecrypt_body {c d : Node cfg} {i : Fin cfg.maxNeighbors} {ok : Bool}
    {hdr key nonce aad txt pdu : Bytes} (hpsa : psa.Seals) (hhdr : hdr.length = hdrLenSec)
    (h : lgSecDecrypt psa ok c i (hdr ++ psa.aeadEncrypt cfg.micLen key nonce aad txt) =
      (.ok pdu, d)) : pdu = hdr ++ txt := by
  unfold lgSecDecrypt at h
  rw [List.take_left' hhdr, List.drop_left' hhdr] at h
  dsimp only at h
  split at h
  · cases h
  · split at h
    · cases h
    · split at h
      · cases h
      · next plain hplain =>
        obtain ⟨key', -, hopen⟩ := Option.bind_eq_some_iff.mp hplain
        split at h <;> cases h
        split at hopen
        · rw [hpsa _ _ _ _ _ _ _ _ _ hopen]
        · cases hopen

section

variable {o : Oracle} {c d : Node cfg} {i : Fin cfg.maxNeighbors} {f : Shot} {cert : Bytes}

theorem Shot.Cut.msg_ne_nil (hf : f.Cut psa cfg cert) (hj : f.type.isJoin = true) : f.msg ≠ [] := by
  have hpos := FrameType.messageLen_pos hj
  rw [← hf.len] at hpos
  exact List.length_pos_iff.mp hpos

/-- What reassembly does with a fragment that opens and goes with what is in the buffer. -/
theorem reassemble_cut (hpsa : psa.Seals) (hf : f.Cut psa cfg cert) (hj : f.type.isJoin = true)
    (ho : opensFrame psa o c i f.pdu = true)
    (hc : c.hs.rxType = f.type → f.idx ≠ 0 →
      c.hs.rx.HoldsSome f.msg (fragCap cfg f.type.isSealed)) :
    ∃ rx, (reassemble psa o c i f.type f.pdu).1 =
        decide (rx.fragsSeen = 2 ^ fragCount (fragCap cfg f.type.isSealed) f.msg - 1) ∧
      (reassemble psa o c i f.type f.pdu).2.hs = { c.hs with rxType := f.type, rx := rx } ∧
      rx.HoldsSome f.msg (fragCap cfg f.type.isSealed) ∧ rx.fragsSeen.testBit f.idx = true := by
  have hmax : f.msg.length ≤ 276 := hf.len.trans_le f.type.messageLen_le
  have hadd : ∀ (d : Node cfg) (key : Option Bytes) (hdr : Bytes), d.hs = c.hs →
      (hdr.length = if f.type.isSealed then hdrLenSec else hdrLen) →
      ∃ rx, (addFragment d f.type f.type.isSealed key (hdr ++ f.payload cfg)).1 =
          decide (rx.fragsSeen = 2 ^ fragCount (fragCap cfg f.type.isSealed) f.msg - 1) ∧
        (addFragment d f.type f.type.isSealed key (hdr ++ f.payload cfg)).2.hs =
          { c.hs with rxType := f.type, rx := rx } ∧
        rx.HoldsSome f.msg (fragCap cfg f.type.isSealed) ∧ rx.fragsSeen.testBit f.idx = true := by
    intro d key hdr hd hhdr
    obtain ⟨rx, he, hrx, hbit⟩ := addFragment_some d f.type key (hf.msg_ne_nil hj)
      (by simp only [xferMax]; omega) (fragCount_le (le_fragCap cfg f.type.isSealed) hmax) hf.idx
      hhdr (by rwa [hd])
    rw [List.append_assoc] at he
    refine ⟨rx, congrArg Prod.fst he, ?_, hrx, hbit⟩
    rw [← hd]
    exact congrArg (fun r => r.2.hs) he
  unfold reassemble
  cases hs : f.type.isSealed with
  | false =>
    obtain ⟨hdr, hhdr, hpdu⟩ := hf.clear hs
    rw [hf.sec, hs, if_neg Bool.false_ne_true, hpdu]
    rw [hs] at hadd
    exact hadd c none hdr rfl (by rw [hhdr, if_neg Bool.false_ne_true])
  | true =>
    obtain ⟨hdr, key, nonce, aad, hhdr, hpdu⟩ := hf.enciphered hs
    have hdec := lgSecDecrypt_hs psa (o.ok .decrypt) c i f.pdu
    rw [hf.sec, hs, if_pos rfl]
    unfold opensFrame at ho
    rw [hf.sec, hs, Bool.not_true, Bool.false_or] at ho
    rw [hs] at hadd
    split
    · next he =>
      rw [he] at ho
      cases ho
    · next pdu d he =>
      rw [he] at hdec
      rw [hpdu] at he
      rw [lgSecDecrypt_body hpsa hhdr he]
      exact hadd d _ hdr hdec (by rw [hhdr, if_pos rfl])

/-- A frame that does not open leaves the buffer as it is. -/
theorem reassemble_closed {pdu : Bytes} (t : FrameType) (ho : opensFrame psa o c i pdu = false) :
    (reassemble psa o c i t pdu).1 = false ∧ (reassemble psa o c i t pdu).2.hs = c.hs := by
  have hdec := lgSecDecrypt_hs psa (o.ok .decrypt) c i pdu
  unfold opensFrame at ho
  rw [Bool.or_eq_false_iff, Bool.not_eq_false'] at ho
  unfold reassemble
  rw [if_pos ho.1]
  split
  · next he =>
    rw [he] at hdec
    exact ⟨rfl, hdec⟩
  · next he =>
    rw [he] at ho
    cases ho.2

theorem settleStep_cleared (r : Except Err Unit × Node cfg) (i : Fin cfg.maxNeighbors) :
    (settleStep r i).hs.rx = {} := by
  obtain ⟨e | u, d⟩ := r <;> rfl

/-- A message that has been handled is out of the buffer. -/
theorem handleMessage_cleared {t : FrameType} {sec : Bool} {airStartUs : ℕ}
    (hj : t.isJoin = true) (h : handleMessage psa o c i t sec airStartUs = some d) :
    d.hs.rx = {} := by
  unfold handleMessage at h
  dsimp only at h
  cases t with
  | joinReq | joinRsp | joinCfm =>
    cases h
    exact settleStep_cleared _ i
  | joinAck | resumeRsp =>
    rw [finishJoiner_over h]
  | resumeReq =>
    dsimp only at h
    split at h <;> cases h
    · rfl
    · exact settleStep_cleared _ i
  | beacon | linkReq | linkRsp | data | ack | ctrl => cases hj

/-- The context a frame belongs to was there, or has just been opened and has nothing. -/
theorem contextFor_buffer (o : Oracle) (c : Node cfg) (t : FrameType) (src : Addr)
    (airStartUs : ℕ) :
    ((contextFor o c t src airStartUs).2.hs = c.hs ∧
        ((contextFor o c t src airStartUs).1 ≠ none → c.hs.n ≠ none)) ∨
      (contextFor o c t src airStartUs).1 ≠ none ∧
        (contextFor o c t src airStartUs).2.hs.rx = {} := by
  unfold contextFor
  split
  · next hn =>
    left
    exact ⟨rfl, fun _ => by rw [hn]; nofun⟩
  · split
    · have hrest := (admitJoiner_rest Psa.plain o c src).1
      split <;> next he =>
        rw [he] at hrest
        first
          | exact .inl ⟨hrest, fun h => absurd rfl h⟩
          | split
            · exact .inl ⟨hrest, fun h => absurd rfl h⟩
            · exact .inr ⟨nofun, rfl⟩
    · exact .inl ⟨rfl, fun h => absurd rfl h⟩

/-! ## Two `JOIN_REQ`s of one node differ in the first fragment only -/

theorem fragCap_clear (cfg : Config) : fragCap cfg false = 115 := rfl

theorem getElem?_of_drop_eq {msg msg' : Bytes} {n x : ℕ} (h : msg'.drop n = msg.drop n)
    (hx : n ≤ x) : msg'[x]? = msg[x]? := by
  have hsub : n + (x - n) = x := by omega
  have hget := congrArg (fun l : Bytes => l[x - n]?) h
  simp only [List.getElem?_drop, hsub] at hget
  exact hget

/-- Whichever of its `JOIN_REQ`s the second fragment is of, it completes the first fragment of any
of them. -/
theorem reassemble_joinReq {g : Shot} (hpsa : psa.Seals) (hf : f.Cut psa cfg cert)
    (hg : g.Cut psa cfg cert) (hreq : f.type = .joinReq) (htype : g.type = .joinReq)
    (hidx : f.idx ≠ 0) (ho : opensFrame psa o c i f.pdu = true)
    (hc : c.hs.rx.HoldsSome g.msg (fragCap cfg g.type.isSealed)) :
    ∃ rx, (reassemble psa o c i f.type f.pdu).2.hs = { c.hs with rxType := f.type, rx := rx } ∧
      ((reassemble psa o c i f.type f.pdu).1 = true → rx.msg = g.msg) ∧
      ((reassemble psa o c i f.type f.pdu).1 = false →
        rx.HoldsSome f.msg (fragCap cfg f.type.isSealed)) := by
  have hjoin : f.type.isJoin = true := by rw [hreq]; rfl
  have hcap : fragCap cfg FrameType.joinReq.isSealed = 115 := fragCap_clear cfg
  have hlen : g.msg.length = f.msg.length := by rw [hg.len, hf.len, hreq, htype]
  have hdrop : g.msg.drop (nonceLen + ecPubLen) = f.msg.drop (nonceLen + ecPubLen) :=
    (hg.cert htype).trans (hf.cert hreq).symm
  have hcount : ∀ msg : Bytes, msg.length = 212 → fragCount 115 msg = 2 := by
    intro msg h
    rw [fragCount, h]
    rfl
  have hflen : f.msg.length = 212 := by rw [hf.len, hreq]; rfl
  have hone : f.idx = 1 := by
    have hlt := hf.idx
    rw [hreq, hcap, hcount _ hflen] at hlt
    omega
  -- The second fragment of the one is the second fragment of the other.
  have hcut : Shot.Cut psa cfg cert { f with msg := g.msg } := by
    have hpayload : Shot.payload cfg { f with msg := g.msg } = f.payload cfg := by
      simp only [Shot.payload, hreq, hcap, hone]
      rw [hcount _ hflen, hcount _ (hlen.trans hflen)]
      have hslice : slice g.msg (1 * 115) 115 = slice f.msg (1 * 115) 115 := by
        apply List.ext_getElem?
        intro x
        by_cases hx : x < 115
        · rw [getElem?_slice _ _ _ _ hx, getElem?_slice _ _ _ _ hx]
          exact getElem?_of_drop_eq hdrop (by simp only [nonceLen, ecPubLen]; omega)
        · rw [slice, slice, List.getElem?_take_eq_none (by omega),
            List.getElem?_take_eq_none (by omega)]
      rw [hslice]
    refine ⟨hf.sec, hlen.trans hf.len, fun _ => hg.cert htype, ?_, fun hs => ?_, fun hs => ?_⟩
    · have hlt := hf.idx
      simp only [hreq, hcap] at hlt ⊢
      rwa [hcount _ (hlen.trans hflen), ← hcount _ hflen]
    · rw [hpayload]
      exact hf.clear hs
    · rw [hpayload]
      exact hf.enciphered hs
  have hgtype : g.type = f.type := htype.trans hreq.symm
  rw [hgtype] at hc
  obtain ⟨rx, hcomplete, hhs, hrx, hbit⟩ := reassemble_cut hpsa hcut hjoin ho fun _ _ => hc
  have hcap' : fragCap cfg f.type.isSealed = 115 := by rw [hreq, hcap]
  have hg2 : fragCount 115 g.msg = 2 := hcount _ (hlen.trans hflen)
  simp only [hcap', hg2, hone] at hcomplete hrx hbit
  refine ⟨rx, hhs, fun hdone => ?_, fun hmore => ?_⟩
  · rw [hcomplete, decide_eq_true_eq] at hdone
    exact hrx.whole (by omega) (hg.msg_ne_nil (by rw [htype]; rfl)) (by rw [hg2]; exact hdone)
  · rw [hcomplete, decide_eq_false_iff_not] at hmore
    rw [hcap']
    have hbelow := hrx.below
    rw [hg2] at hbelow
    have htwo : rx.fragsSeen = 2 := by
      have h0 : rx.fragsSeen ≠ 0 := by
        intro h0
        rw [h0, Nat.zero_testBit] at hbit
        cases hbit
      have h1 : rx.fragsSeen ≠ 1 := by
        intro h1
        rw [h1] at hbit
        cases hbit
      omega
    refine hrx.swap hlen.symm fun j x hj hlo => (getElem?_of_drop_eq hdrop ?_).symm
    have hj1 : j = 1 := by
      have htest : (2 ^ 1).testBit j = true := by rwa [htwo] at hj
      rw [Nat.testBit_two_pow, decide_eq_true_eq] at htest
      exact htest.symm
    rw [hj1] at hlo
    simp only [nonceLen, ecPubLen]
    omega

end

end LockGrid
