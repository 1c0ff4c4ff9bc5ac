import LockGrid.Slots
import LockGrid.Provenance

/-!
# A full handshake

Two honest nodes, the joiner's first frame falling into the router's open join window, and four
slots in which nothing is lost: both ends come out of them linked, under one key and on one
schedule.
-/
namespace LockGrid

variable {cfg : Config} {psa : Psa}

/-- What the crypto library promises of the key pairs it generates, `pairs`: two of them agree. -/
structure Psa.Sound (psa : Psa) (pairs : Bytes × Bytes → Prop) : Prop extends psa.Opens where
  agree : ∀ p q, pairs p → pairs q → ∃ s, psa.ecdh p.2 q.1 = some s ∧ psa.ecdh q.2 p.1 = some s

/-- An honest node's oracle: no call fails, and its signatures verify under `pub`. -/
structure Oracle.Honest (psa : Psa) (pairs : Bytes × Bytes → Prop) (pub : Bytes)
    (o : Oracle) : Prop extends o.Willing where
  pair : pairs o.keypair
  signs : ∀ h, psa.verify pub h (o.sign h) = true

/-- `cert` is a certificate over `addr` and `pub` that a node with this identity accepts. -/
def Identity.Trusts (id : Identity) (psa : Psa) (cert : Bytes) (addr : Addr) (pub : Bytes) : Prop :=
  cert.length = certLen ∧
    ∃ role, ∀ o : Oracle, o.Willing → lgSecCertVerify psa o id cert = .ok ⟨addr, role, pub⟩

/-- The identities of two nodes of one network, each with a certificate the other accepts. -/
structure Kin (psa : Psa) (idJ idR : Identity) (pubJ pubR : Bytes) : Prop where
  networkId : idR.networkId = idJ.networkId
  netid : idR.netid16 = idJ.netid16
  foreign : idJ.addr ≠ idR.addr
  joiner : idR.Trusts psa idJ.cert idJ.addr pubJ
  router : idJ.Trusts psa idR.cert idR.addr pubR

/-! ## Messages in parts -/

theorem slice_parts (a b c : Bytes) : slice (a ++ b ++ c) a.length b.length = b := by
  rw [slice, List.append_assoc, List.drop_left, List.take_left]

theorem slice_parts' {a b c : Bytes} {off len : ℕ} (ha : a.length = off) (hb : b.length = len) :
    slice (a ++ (b ++ c)) off len = b := by
  rw [← ha, ← hb, ← List.append_assoc, slice_parts]

/-! ## What the messages do -/

/-- The transcript both ends hash. -/
def transcriptOf (psa : Psa) (idJ idR : Identity) (nonceJ nonceR pubJ pubR : Bytes) : Bytes :=
  psa.sha256 (transcriptMsg idJ.networkId idJ.addr idR.addr nonceJ nonceR pubJ pubR)

/-- The keys after a full handshake with this secret and transcript, installed as number `no`. -/
def Keys.agreed (k : Keys) (psa : Psa) (secret transcript : Bytes) (no : ℕ) : Keys :=
  { k with ltk := psa.hkdf secret transcript infoLtk, hasLtk := true }.installed
    (psa.hkdf secret transcript infoLink) no

section

variable (o : Oracle) (c : Node cfg) (i : Fin cfg.maxNeighbors)

@[simp] theorem setJoin_hs (j : JoinInfo) : (c.setJoin i j).hs = c.hs := rfl
@[simp] theorem setJoin_ident (j : JoinInfo) : (c.setJoin i j).ident = c.ident := rfl
@[simp] theorem setJoin_net (j : JoinInfo) : (c.setJoin i j).net = c.net := rfl
@[simp] theorem setJoin_neigh (j : JoinInfo) :
    (c.setJoin i j).neigh i = { c.neigh i with join := j } := Function.update_self ..

@[simp] theorem drawNonce_hs : (drawNonce o c i).hs = c.hs := rfl
@[simp] theorem drawNonce_ident : (drawNonce o c i).ident = c.ident := rfl
@[simp] theorem drawNonce_net : (drawNonce o c i).net = c.net := rfl
@[simp] theorem drawNonce_neigh : (drawNonce o c i).neigh i =
    { c.neigh i with join := { (c.neigh i).join with nonceLocal := o.nonce } } :=
  Function.update_self ..

@[simp] theorem drawKeypair_hs : (drawKeypair o c).hs =
    { c.hs with ephPub := o.keypair.1, ephPriv := o.keypair.2 } := rfl
@[simp] theorem drawKeypair_ident : (drawKeypair o c).ident = c.ident := rfl
@[simp] theorem drawKeypair_net : (drawKeypair o c).net = c.net := rfl
@[simp] theorem drawKeypair_neigh : (drawKeypair o c).neigh = c.neigh := rfl

variable (msg : Bytes) (info : CertInfo)

@[simp] theorem rememberPeer_hs : (rememberPeer c i msg info).hs = c.hs := rfl
@[simp] theorem rememberPeer_ident : (rememberPeer c i msg info).ident = c.ident := rfl
@[simp] theorem rememberPeer_net : (rememberPeer c i msg info).net = c.net := rfl
@[simp] theorem rememberPeer_neigh : (rememberPeer c i msg info).neigh i = { c.neigh i with
    join := { (c.neigh i).join with
      noncePeer := slice msg 0 nonceLen
      ephPubPeer := slice msg nonceLen ecPubLen
      peerStaticPub := info.pub } } := Function.update_self ..

end

theorem deriveKeys_willing (psa : Psa) {o : Oracle} (ho : o.Willing) (c : Node cfg)
    (i : Fin cfg.maxNeighbors) (secret transcript : Bytes) :
    ∃ no d, deriveKeys psa o c i secret transcript = (.ok (), d) ∧ d.hs = c.hs ∧
      d.ident = c.ident ∧ d.net = c.net ∧
      d.neigh i = { c.neigh i with keys := (c.neigh i).keys.agreed psa secret transcript no } := by
  unfold deriveKeys lgSecKdf lgSecInstallKey
  simp only [ho.calls, if_true]
  refine ⟨c.hist.installs.length + 1, _, rfl, rfl, rfl, rfl, ?_⟩
  simp [Node.setKeys, Node.note, Node.setNeigh, Node.destroyKey, Keys.agreed]

theorem handleJoinReq_honest {idJ idR : Identity} {pubJ nonceJ ephJ secret : Bytes} {o : Oracle}
    (ho : o.Willing) {c : Node cfg} {i : Fin cfg.maxNeighbors} (hident : c.ident = idR)
    (hnet : idR.networkId = idJ.networkId)
    (haddr : (c.neigh i).addr = idJ.addr) (htrust : idR.Trusts psa idJ.cert idJ.addr pubJ)
    (hnonce : nonceJ.length = nonceLen) (heph : ephJ.length = ecPubLen)
    (hsecret : psa.ecdh o.keypair.2 ephJ = some secret) :
    ∃ no d, handleJoinReq psa o c i (nonceJ ++ (ephJ ++ idJ.cert)) = (.ok (), d) ∧
      d.hs = stageMessage { c.hs with ephPub := o.keypair.1, ephPriv := o.keypair.2 } .joinRsp false
        (o.nonce ++ (o.keypair.1 ++ (idR.cert ++
          o.sign (transcriptOf psa idJ idR nonceJ o.nonce ephJ o.keypair.1)))) ∧
      d.ident = c.ident ∧ d.net = c.net ∧
      d.neigh i = { c.neigh i with
        keys := (c.neigh i).keys.agreed psa secret
          (transcriptOf psa idJ idR nonceJ o.nonce ephJ o.keypair.1) no
        join := { (c.neigh i).join with
          noncePeer := nonceJ
          ephPubPeer := ephJ
          peerStaticPub := pubJ
          nonceLocal := o.nonce
          transcript := transcriptOf psa idJ idR nonceJ o.nonce ephJ o.keypair.1 } } := by
  obtain ⟨hcert, role, htrust⟩ := htrust
  set msg := nonceJ ++ (ephJ ++ idJ.cert) with hmsg
  have hlen : msg.length = joinReqLen := by
    simp only [hmsg, List.length_append, hnonce, heph, hcert, joinReqLen]
    rfl
  have hcertAt : slice msg (nonceLen + ecPubLen) certLen = idJ.cert := by
    have hlead : (nonceJ ++ ephJ).length = nonceLen + ecPubLen := by simp [hnonce, heph]
    have hp := slice_parts' (c := []) hlead hcert
    rwa [List.append_nil, List.append_assoc] at hp
  have hnonceAt : slice msg 0 nonceLen = nonceJ := slice_parts' (a := []) rfl hnonce
  have hephAt : slice msg nonceLen ecPubLen = ephJ := slice_parts' hnonce heph
  set tr := transcriptOf psa idJ idR nonceJ o.nonce ephJ o.keypair.1 with htr
  have hagree : ∃ d, agreeJoinReq psa o c i msg = (.ok (tr, secret), d) ∧
      d.hs = { c.hs with ephPub := o.keypair.1, ephPriv := o.keypair.2 } ∧ d.ident = c.ident ∧
      d.net = c.net ∧ d.neigh i = { c.neigh i with join := { (c.neigh i).join with
        noncePeer := nonceJ
        ephPubPeer := ephJ
        peerStaticPub := pubJ
        nonceLocal := o.nonce
        transcript := tr } } := by
    unfold agreeJoinReq
    rw [if_neg (not_not.mpr hlen), hcertAt, hident, htrust o ho]
    dsimp only
    rw [if_neg (not_not.mpr haddr.symm)]
    simp only [ho.calls, Bool.not_true, Bool.false_eq_true, if_false, lgSecHash, if_true,
      lgSecEcdh, setJoin_hs, drawKeypair_hs, drawKeypair_neigh, drawKeypair_ident, drawNonce_neigh,
      drawNonce_ident, rememberPeer_neigh, rememberPeer_ident, hephAt, hnonceAt, hsecret, hident,
      haddr, hnet]
    refine ⟨_, rfl, ?_, ?_, ?_, ?_⟩
    · simp only [setJoin_hs, drawKeypair_hs, drawNonce_hs, rememberPeer_hs]
    · simp only [setJoin_ident, drawKeypair_ident, drawNonce_ident, rememberPeer_ident]
      exact hident
    · simp only [setJoin_net, drawKeypair_net, drawNonce_net, rememberPeer_net]
    · simp [htr, transcriptOf, haddr]
  obtain ⟨d, hd, hdhs, hdident, hdnet, hdneigh⟩ := hagree
  let d₁ : Node cfg := { d with hist := { d.hist with reqDerived := d.hist.reqDerived + 1 } }
  obtain ⟨no, e, he, hehs, heident, henet, heneigh⟩ := deriveKeys_willing psa ho d₁ i secret tr
  unfold handleJoinReq
  rw [hd]
  dsimp only
  rw [show deriveKeys psa o _ i secret tr = _ from he]
  dsimp only
  rw [ho.calls]
  refine ⟨no, _, rfl, ?_, ?_, ?_, ?_⟩
  · simp [Node.setHs, hehs, heident, heneigh, d₁, hdhs, hdident, hdneigh, hident]
  · simp [Node.setHs, heident, d₁, hdident]
  · simp [Node.setHs, henet, d₁, hdnet]
  · simp [Node.setHs, heneigh, d₁, hdneigh]

theorem handleJoinRsp_honest {idJ idR : Identity} {pubR nonceJ nonceR ephJ ephR secret sig : Bytes}
    {o : Oracle} (ho : o.Willing) {c : Node cfg} {i : Fin cfg.maxNeighbors}
    (hident : c.ident = idJ) (haddr : (c.neigh i).addr = idR.addr)
    (htrust : idJ.Trusts psa idR.cert idR.addr pubR) (hnonce : nonceR.length = nonceLen)
    (heph : ephR.length = ecPubLen) (hsig : sig.length = sigLen)
    (hlocal : (c.neigh i).join.nonceLocal = nonceJ) (hpub : c.hs.ephPub = ephJ)
    (hsecret : psa.ecdh c.hs.ephPriv ephR = some secret)
    (hverify : psa.verify pubR (transcriptOf psa idJ idR nonceJ nonceR ephJ ephR) sig = true) :
    ∃ no d, handleJoinRsp psa o c i (nonceR ++ (ephR ++ (idR.cert ++ sig))) = (.ok (), d) ∧
      d.hs = stageMessage { c.hs with histRspVerified := true } .joinCfm true
        (o.sign (transcriptOf psa idJ idR nonceJ nonceR ephJ ephR)) ∧
      d.ident = c.ident ∧ d.net = c.net ∧
      d.neigh i = { c.neigh i with
        keys := (c.neigh i).keys.agreed psa secret
          (transcriptOf psa idJ idR nonceJ nonceR ephJ ephR) no
        join := { (c.neigh i).join with
          noncePeer := nonceR
          ephPubPeer := ephR
          peerStaticPub := pubR
          transcript := transcriptOf psa idJ idR nonceJ nonceR ephJ ephR } } := by
  obtain ⟨hcert, role, htrust⟩ := htrust
  set msg := nonceR ++ (ephR ++ (idR.cert ++ sig)) with hmsg
  have hlen : msg.length = joinRspLen := by
    simp only [hmsg, List.length_append, hnonce, heph, hcert, hsig, joinRspLen]
    rfl
  have hcertAt : slice msg (nonceLen + ecPubLen) certLen = idR.cert := by
    have hlead : (nonceR ++ ephR).length = nonceLen + ecPubLen := by simp [hnonce, heph]
    have hp := slice_parts' (c := sig) hlead hcert
    rwa [List.append_assoc] at hp
  have hsigAt : slice msg (nonceLen + ecPubLen + certLen) sigLen = sig := by
    have hlead : (nonceR ++ (ephR ++ idR.cert)).length = nonceLen + ecPubLen + certLen := by
      simp [hnonce, heph, hcert, Nat.add_assoc]
    have hp := slice_parts' (c := []) hlead hsig
    rwa [List.append_nil, List.append_assoc, List.append_assoc] at hp
  have hnonceAt : slice msg 0 nonceLen = nonceR := slice_parts' (a := []) rfl hnonce
  have hephAt : slice msg nonceLen ecPubLen = ephR := slice_parts' hnonce heph
  set tr := transcriptOf psa idJ idR nonceJ nonceR ephJ ephR with htr
  have hagree : ∃ d, agreeJoinRsp psa o c i msg = (.ok (tr, secret), d) ∧
      d.hs = { c.hs with histRspVerified := true } ∧ d.ident = c.ident ∧
      d.net = c.net ∧ d.neigh i = { c.neigh i with join := { (c.neigh i).join with
        noncePeer := nonceR
        ephPubPeer := ephR
        peerStaticPub := pubR
        transcript := tr } } := by
    have hhash :
        psa.sha256 (transcriptMsg idJ.networkId idJ.addr idR.addr nonceJ nonceR ephJ ephR) =
        tr := rfl
    unfold agreeJoinRsp
    rw [if_neg (not_not.mpr hlen), hcertAt, hsigAt, hident, htrust o ho]
    dsimp only
    rw [if_neg (not_not.mpr haddr.symm)]
    simp only [ho.calls, Bool.not_true, Bool.false_eq_true, if_false, lgSecHash, if_true,
      lgSecEcdh, lgSecVerify, rememberPeer_neigh, rememberPeer_ident, rememberPeer_hs, hephAt,
      hnonceAt, hsecret, hident, haddr, hlocal, hpub, hhash, hverify, noteVerified, Node.setHs,
      setJoin_hs]
    refine ⟨_, rfl, rfl, ?_, ?_, ?_⟩
    · simp only [setJoin_ident, rememberPeer_ident]
      exact hident
    · simp only [setJoin_net, rememberPeer_net]
    · simp [haddr]
  obtain ⟨d, hd, hdhs, hdident, hdnet, hdneigh⟩ := hagree
  let d₁ : Node cfg := { d with hist := { d.hist with rspDerived := tr :: d.hist.rspDerived } }
  obtain ⟨no, e, he, hehs, heident, henet, heneigh⟩ := deriveKeys_willing psa ho d₁ i secret tr
  unfold handleJoinRsp
  rw [hd]
  dsimp only
  rw [show deriveKeys psa o _ i secret tr = _ from he]
  dsimp only
  rw [ho.calls]
  refine ⟨no, _, rfl, ?_, ?_, ?_, ?_⟩
  · simp [Node.setHs, hehs, d₁, hdhs]
  · simp [Node.setHs, heident, d₁, hdident]
  · simp [Node.setHs, henet, d₁, hdnet]
  · simp [Node.setHs, heneigh, d₁, hdneigh]

theorem handleJoinCfm_honest {o : Oracle} (ho : o.Willing) {c : Node cfg}
    {i : Fin cfg.maxNeighbors} {sig : Bytes} (hsig : sig.length = sigLen)
    (hverify : psa.verify (c.neigh i).join.peerStaticPub (c.neigh i).join.transcript sig = true) :
    ∃ d, handleJoinCfm psa o c i sig = (.ok (), d) ∧
      d.hs = stageMessage { c.hs with histCfmDone := true } .joinAck true
        (linkParamsFill o c).encode ∧
      d.ident = c.ident ∧ d.net = c.net ∧ d.neigh i = c.neigh i := by
  unfold handleJoinCfm
  rw [if_neg (not_not.mpr hsig)]
  simp only [lgSecVerify, ho.calls, Bool.not_true, Bool.false_eq_true, if_false, hverify, if_true]
  exact ⟨_, rfl, rfl, rfl, rfl, rfl⟩

/-! ## The link comes up -/

/-- The schedule of a link on the parameters `pp`, whose event zero is at `epochUs`. -/
structure Schedule.On (s : Schedule) (cfg : Config) (pp : LinkParams) (epochUs : ℕ)
    (initiator : Bool) : Prop where
  initiator : s.initiator = initiator
  interval : s.intervalUs = cfg.clampInterval pp.intervalUs.toNat
  epoch : s.epochUs = epochUs
  chanMap : s.chanMap = pp.chanMap
  hopSeed : s.hopSeed = pp.hopSeed
  subrate : s.subrate = 1

/-- Whatever the anchor, a link that is set up less than a slot after it finds its first event. -/
theorem startSchedule_catchesUp {c : Node cfg} {i : Fin cfg.maxNeighbors} (pp : LinkParams)
    (initiator : Bool) (hnow : c.nowUs < (c.neigh i).sched.anchorUs + joinSlotUs)
    (hclock : c.nowUs + 2 ^ 32 ≤ 2 ^ 64) :
    ∃ s, anchorCatchUp cfg c.nowUs catchUpFuel
      (startSchedule c pp initiator (c.neigh i).sched) = some s := by
  set s₀ := startSchedule c pp initiator (c.neigh i).sched with hs₀
  have hpos := clampInterval_pos cfg pp.intervalUs.toNat
  have hmax := clampInterval_le cfg pp.intervalUs.toNat
  have hinterval : s₀.intervalUs = cfg.clampInterval pp.intervalUs.toNat := rfl
  have hepoch : s₀.epochUs = s₀.anchorUs := rfl
  have hanchor : (c.neigh i).sched.anchorUs = s₀.anchorUs := rfl
  have hstep : step s₀ = 1 := by simp [step, hs₀, startSchedule]
  have hdue : dueUs cfg c.nowUs s₀ ≤ c.nowUs + 50000 := by
    have h₁ := cfg.rxWindowMinUs_range
    have h₂ := cfg.rxWindowMaxUs_range
    have hwin : lgLinkWindowUs cfg c.nowUs s₀ ≤ 30000 := by
      unfold lgLinkWindowUs
      split_ifs <;> omega
    have hlead : schedLeadUs ≤ 10000 := by decide
    unfold dueUs
    omega
  have hgoal := (catchUpGoal_le cfg c.nowUs s₀).trans hdue
  refine (anchorCatchUp_start_iff (by omega) (by omega) hepoch hstep).mpr ?_
  rcases Nat.lt_or_ge s₀.anchorUs (catchUpGoal cfg c.nowUs s₀) with hlt | hge
  · -- ten intervals from the anchor are more than the slot and the lead
    rw [hanchor, joinSlotUs] at hnow
    have htyped : s₀.Typed := ⟨by omega, by omega, by omega⟩
    have hten : 10 ≤ lastHeld s₀ :=
      le_lastHeld htyped (by omega) (by rw [hstep]; exact one_dvd _) (by norm_num)
        (by unfold Held; omega)
    have hspan := Nat.mul_le_mul_right s₀.intervalUs hten
    omega
  · omega

/-- With its anchor no further back than a slot, a link comes up. -/
theorem lgLinkEstablish_on (o : Oracle) {c : Node cfg} {i : Fin cfg.maxNeighbors}
    (pp : LinkParams) (initiator : Bool) (hmap : pp.chanMap ≠ 0)
    (hnow : c.nowUs < (c.neigh i).sched.anchorUs + joinSlotUs)
    (hclock : c.nowUs + 2 ^ 32 ≤ 2 ^ 64) :
    ∃ d s, lgLinkEstablish o c i pp initiator = some d ∧ d.hs = c.hs ∧
      s.On cfg pp (c.neigh i).sched.anchorUs initiator ∧
      d.neigh i = { c.neigh i with
        state := .linked, sched := s, tx := { (c.neigh i).tx with txPending := false } } := by
  set s₀ := startSchedule c pp initiator (c.neigh i).sched with hs₀
  obtain ⟨s, hs⟩ := startSchedule_catchesUp pp initiator hnow hclock
  have hon : s.On cfg pp (c.neigh i).sched.anchorUs initiator := by
    have h₀ : s₀.On cfg pp (c.neigh i).sched.anchorUs initiator :=
      ⟨rfl, rfl, rfl, if_pos hmap, rfl, rfl⟩
    rcases anchorCatchUp_anchorSet hs with rfl | ⟨t, rfl⟩
    · exact h₀
    · exact ⟨h₀.initiator, h₀.interval, h₀.epoch, h₀.chanMap, h₀.hopSeed, h₀.subrate⟩
  let d₀ := c.setNeigh i { c.neigh i with
    state := .linked, sched := s, tx := { (c.neigh i).tx with txPending := false } }
  let d₁ := lgNeighUpdateCost (d₀.setView i
    { d₀.view i with peerRank := pp.rank.toNat, role := pp.role, consecMisses := 0 }) i
  have hq : Node.Quiet d₀ (linksChanged o d₁) :=
    (setView_quiet d₀ i _).trans ((lgNeighUpdateCost_quiet _ i).trans (linksChanged_quiet o _))
  refine ⟨linksChanged o d₁, s, ?_, ?_, hon, ?_⟩
  · unfold lgLinkEstablish
    exact congrArg (Option.map _) hs
  · obtain ⟨net, view, hd⟩ := hq
    rw [hd]
    rfl
  · rw [hq.neigh]
    exact Function.update_self ..

theorem decode_encode_chanMap (pp : LinkParams) : (LinkParams.decode pp.encode).chanMap =
    pp.chanMap := by
  have hlen : (putLe32 pp.intervalUs ++ putLe32 pp.anchorOffsetUs).length = 8 := rfl
  simp only [LinkParams.decode, LinkParams.encode, List.append_assoc]
  rw [← List.append_assoc, getLe16_append_right _ _ _ hlen.le, hlen]
  exact getLe16_putLe16 ..

/-! ## Between two slots -/

/-- `c` is in a full handshake with its neighbour `i`, whose address is `peer`, since `startUs`,
and slot `k` of it is next. -/
structure Node.Engaged (c : Node cfg) (id : Identity) (i : Fin cfg.maxNeighbors) (peer : Addr)
    (startUs k : ℕ) : Prop where
  ident : c.ident = id
  about : c.hs.n = some i
  state : (c.neigh i).state = .joining
  peer : (c.neigh i).addr = peer
  start : c.hs.t0Us = startUs
  slot : c.hs.slot = k
  idle : c.hs.idleSlots ≤ k
  resuming : c.hs.resuming = false
  limit : c.hs.slotLimit = 48

/-- What the end of a slot changes when the handshake goes on. -/
structure Settled (i : Fin cfg.maxNeighbors) (c d : Node cfg) : Prop where
  hs : ∃ idle slot, d.hs = { c.hs with
    oweTx := oweAfter c.hs
    idleSlots := idle
    slotRefused := false
    slot := slot
    progressed := false }
  ident : d.ident = c.ident
  entry : d.neigh i = c.neigh i
  mapped : c.Mapped → d.Mapped

/-- The router's end is told by its last message on air. -/
def Hs.Final (hs : Hs cfg) : Prop :=
  hs.joiner = false ∧ hs.wasTx = true ∧ (hs.txType = .joinAck ∨ hs.txType = .resumeRsp)

theorem slotNextFromClock_le {now k : ℕ} {hs : Hs cfg} (h : now < slotTime hs k) :
    slotNextFromClock now hs ≤ k := by
  unfold slotNextFromClock
  unfold slotTime at h
  split_ifs with hle
  · exact Nat.zero_le k
  · have hdiv : (now - hs.t0Us) / joinSlotUs < k := by
      rw [Nat.div_lt_iff_lt_mul (by decide)]
      omega
    omega

/-- In a slot of a handshake that is not the last of the router's, the handshake goes on. -/
theorem Settles.next {Q : Oracle → Prop} {c : Node cfg} {r : Option (Node cfg)} {id : Identity}
    {i : Fin cfg.maxNeighbors} {peer : Addr} {startUs k : ℕ} (h : Settles Q c r)
    (hc : c.Engaged id i peer startUs k) (hk : k < 7) (hfinal : ¬ c.hs.Final)
    (howes : oweAfter c.hs = true → c.hs.tx ≠ []) :
    ∃ d, r = some d ∧ d.Engaged id i peer startUs (k + 1) ∧ Settled i c d := by
  unfold Settles at h
  rw [if_neg (by rw [hc.about]; nofun)] at h
  obtain ⟨o, d, -, hap, hin, hfinish⟩ := h
  have hentry := hap.entry i hc.about
  have hslot : max ((d.hs.slot + 1) % 256) (slotNextFromClock d.nowUs d.hs) = k + 1 := by
    have hle := slotNextFromClock_le (hin (by rw [hap.hs, hc.about]; nofun)).1
    rw [hap.hs] at hle ⊢
    rw [hc.slot] at hle ⊢
    omega
  have hidle : (nextSlot d.nowUs d.hs).idleSlots ≤ k + 1 := by
    have hle := hc.idle
    rw [← hap.hs] at hle
    unfold nextSlot
    dsimp only
    split_ifs <;> omega
  have hnext : nextSlot d.nowUs d.hs = { c.hs with
      oweTx := oweAfter c.hs
      idleSlots := (nextSlot d.nowUs d.hs).idleSlots
      slotRefused := false
      slot := k + 1
      progressed := false } := by
    have hn : nextSlot d.nowUs d.hs = { d.hs with
        oweTx := oweAfter d.hs
        idleSlots := (nextSlot d.nowUs d.hs).idleSlots
        slotRefused := false
        slot := max ((d.hs.slot + 1) % 256) (slotNextFromClock d.nowUs d.hs)
        progressed := false } := rfl
    rw [hslot] at hn
    rw [hn, hap.hs]
  let e := d.setHs (nextSlot d.nowUs d.hs)
  have hstays : lgJoinEventFinish o d = some e := by
    have hlimit : ¬ (idleLimit (nextSlot d.nowUs d.hs).resuming ≤
        (nextSlot d.nowUs d.hs).idleSlots ∨ (nextSlot d.nowUs d.hs).slotLimit ≤
          (nextSlot d.nowUs d.hs).slot ∨ ((nextSlot d.nowUs d.hs).oweTx = true ∧
            (nextSlot d.nowUs d.hs).tx = [])) := by
      have hresuming : (nextSlot d.nowUs d.hs).resuming = false := by
        rw [hnext]
        exact hc.resuming
      have hlim : (nextSlot d.nowUs d.hs).slotLimit = 48 := by
        rw [hnext]
        exact hc.limit
      have hk1 : (nextSlot d.nowUs d.hs).slot = k + 1 := by rw [hnext]
      rw [hresuming, hlim, hk1]
      rintro (hle | hle | ⟨ho, htx⟩)
      · simp only [idleLimit, Bool.false_eq_true, if_false, joinIdleLimit] at hle
        omega
      · omega
      · rw [hnext] at ho htx
        exact howes ho htx
    have hgoes : ¬ ((!d.hs.joiner && d.hs.wasTx &&
        (d.hs.txType = .joinAck || d.hs.txType = .resumeRsp)) = true) := by
      rw [hap.hs]
      simpa [Hs.Final, and_assoc] using hfinal
    unfold lgJoinEventFinish
    rw [hap.hs, hc.about]
    dsimp only
    rw [if_neg (by rw [hentry, hc.state]; simp), ← hap.hs, if_neg hgoes]
    exact if_neg hlimit
  rw [hstays] at hfinish
  refine ⟨e, hfinish.symm, ⟨hap.ident.trans hc.ident, ?_, ?_, ?_, ?_, ?_, ?_, ?_, ?_⟩,
    ⟨⟨_, _, hnext⟩, hap.ident, hentry, hap.mapped⟩⟩
  · change (nextSlot d.nowUs d.hs).n = some i
    rw [hnext]
    exact hc.about
  · exact (congrArg Neigh.state hentry).trans hc.state
  · exact (congrArg Neigh.addr hentry).trans hc.peer
  · change (nextSlot d.nowUs d.hs).t0Us = startUs
    rw [hnext]
    exact hc.start
  · exact hslot
  · exact hidle
  · change (nextSlot d.nowUs d.hs).resuming = false
    rw [hnext]
    exact hc.resuming
  · change (nextSlot d.nowUs d.hs).slotLimit = 48
    rw [hnext]
    exact hc.limit

/-- Where in its handshake a node stands. -/
def Hs.place (hs : Hs cfg) :=
  (hs.n, hs.t0Us, hs.slot, hs.idleSlots, hs.resuming, hs.slotLimit)

theorem Node.Engaged.congr {c d : Node cfg} {id : Identity} {i : Fin cfg.maxNeighbors}
    {peer : Addr} {startUs k : ℕ} (h : c.Engaged id i peer startUs k) (hident : d.ident = c.ident)
    (hplace : d.hs.place = c.hs.place) (hstate : (d.neigh i).state = (c.neigh i).state)
    (haddr : (d.neigh i).addr = (c.neigh i).addr) : d.Engaged id i peer startUs k := by
  simp only [Hs.place, Prod.mk.injEq] at hplace
  obtain ⟨hn, ht, hslot, hidle, hresuming, hlimit⟩ := hplace
  exact ⟨hident.trans h.ident, hn.trans h.about, hstate.trans h.state, haddr.trans h.peer,
    ht.trans h.start, hslot.trans h.slot, hidle.trans_le h.idle, hresuming.trans h.resuming,
    hlimit.trans h.limit⟩

theorem Node.Engaged.apart {c d : Node cfg} {id : Identity} {i : Fin cfg.maxNeighbors}
    {peer : Addr} {startUs k : ℕ} (h : c.Engaged id i peer startUs k) (hap : Apart c d) :
    d.Engaged id i peer startUs k := by
  have hentry := hap.entry i h.about
  exact h.congr hap.ident (congrArg Hs.place hap.hs) (congrArg Neigh.state hentry)
    (congrArg Neigh.addr hentry)

/-- What of a context the message on air depends on. -/
def Hs.staged (hs : Hs cfg) := (hs.n, hs.txType, hs.tx, hs.txSecured, hs.fragTotal)

theorem Node.Stages.congr {c d : Node cfg} {i : Fin cfg.maxNeighbors} {m : Mail}
    (h : c.Stages i m) (hident : d.ident = c.ident) (hstaged : d.hs.staged = c.hs.staged)
    (haddr : (d.neigh i).addr = (c.neigh i).addr) (hkeys : (d.neigh i).keys = (c.neigh i).keys) :
    d.Stages i m := by
  simp only [Hs.staged, Prod.mk.injEq] at hstaged
  obtain ⟨hn, htype, htx, hsec, htotal⟩ := hstaged
  refine ⟨hn.trans h.about, ?_, haddr.trans h.dst, ?_, htype.trans h.type, htx.trans h.msg,
    hsec.trans h.sec, htotal.trans h.total, ?_⟩
  · rw [hident, h.netid]
  · rw [hident, h.src]
  · rw [hkeys]
    exact h.keyed

theorem Node.Stages.apart {c d : Node cfg} {i : Fin cfg.maxNeighbors} {m : Mail}
    (h : c.Stages i m) (hap : Apart c d) : d.Stages i m := by
  have hentry := hap.entry i h.about
  exact h.congr hap.ident (congrArg Hs.staged hap.hs) (congrArg Neigh.addr hentry)
    (congrArg Neigh.keys hentry)

/-- A node that has just staged a message. -/
theorem Node.Engaged.stages {c : Node cfg} {id : Identity} {i : Fin cfg.maxNeighbors}
    {peer : Addr} {startUs k : ℕ} (h : c.Engaged id i peer startUs k) {m : Mail}
    (hstaged : c.hs.staged = (stageMessage c.hs m.type m.under.isSome m.msg).staged)
    (hnetid : id.netid16 = m.netid) (hdst : peer = m.dst) (hsrc : id.addr = m.src)
    (hkeyed : ∀ key ctr, m.under = some (key, ctr) → (c.neigh i).keys.hasKey = true ∧
      (c.neigh i).keys.keyId = some key ∧ (c.neigh i).keys.txCtr + 1 = ctr) : c.Stages i m := by
  simp only [Hs.staged, Prod.mk.injEq] at hstaged
  obtain ⟨-, htype, htx, hsec, htotal⟩ := hstaged
  refine ⟨h.about, ?_, h.peer.trans hdst, ?_, htype, htx, hsec, htotal, hkeyed⟩
  · rw [h.ident, hnetid]
  · rw [h.ident, hsrc]

theorem Node.Stages.settled {c d : Node cfg} {i : Fin cfg.maxNeighbors} {m : Mail}
    (h : c.Stages i m) (hd : Settled i c d) : d.Stages i m := by
  obtain ⟨idle, slot, hhs⟩ := hd.hs
  refine h.congr hd.ident ?_ (congrArg Neigh.addr hd.entry) (congrArg Neigh.keys hd.entry)
  rw [hhs]
  rfl

/-! ## A slot with a message -/

theorem Mail.fits_clear {m : Mail} (hmsg : m.msg ≠ []) (hlen : m.msg.length ≤ xferMax)
    (hu : m.under = none) : m.Fits cfg := by
  refine ⟨hmsg, hlen, ?_, ?_⟩
  · have hcap : m.cap cfg = 115 := by
      rw [Mail.cap, hu]
      rfl
    rw [Mail.total, hcap, fragCount]
    simp only [xferMax] at hlen
    omega
  · rw [hu]
    nofun

/-- What fits in a sealed fragment goes in one. -/
theorem Mail.fits_sealed {m : Mail} (hmsg : m.msg ≠ []) (hlen : m.msg.length ≤ sigLen)
    (hu : m.under.isSome = true) : m.Fits cfg := by
  have hpos := List.length_pos_of_ne_nil hmsg
  have hcap : sigLen ≤ m.cap cfg := by
    have hmic := cfg.micLen_range
    rw [Mail.cap, hu]
    simp only [fragCap, if_true, Config.secOverhead, pduMax, hdrLenSec, hdrLen, fctrLen,
      fragHdrLen, sigLen]
    omega
  have hone : m.total cfg = 1 := by
    have hdiv : (m.msg.length + m.cap cfg - 1) / m.cap cfg ≤ 1 := by
      rw [Nat.div_le_iff_le_mul_add_pred (by simp only [sigLen] at hcap; omega)]
      omega
    rw [Mail.total, fragCount]
    omega
  have hmax : sigLen ≤ xferMax := by decide
  exact ⟨hmsg, hlen.trans hmax, by omega, fun _ => hone⟩

theorem Node.Engaged.sending {c d : Node cfg} {id : Identity} {i : Fin cfg.maxNeighbors}
    {peer : Addr} {startUs k : ℕ} (h : c.Engaged id i peer startUs k) (hd : Sending i c d) :
    d.Engaged id i peer startUs k := by
  obtain ⟨idx, len, air, hhs⟩ := hd.hs
  obtain ⟨tx, ctr, hentry, -⟩ := hd.entry
  refine h.congr hd.ident ?_ (by rw [hentry]) (by rw [hentry])
  rw [hhs]
  rfl

theorem Node.Engaged.got {c e : Node cfg} {id : Identity} {i : Fin cfg.maxNeighbors}
    {peer : Addr} {startUs k : ℕ} {m : Mail} (h : c.Engaged id i peer startUs k)
    (he : Got i m c e) : e.Engaged id i peer startUs k := by
  obtain ⟨rx, hhs⟩ := he.hs
  obtain ⟨ctr, mask, hentry⟩ := he.entry
  refine h.congr he.ident ?_ (by rw [hentry]) (by rw [hentry])
  rw [hhs]
  rfl

/-- What a node that has sent its message is left with. -/
structure Sent (i : Fin cfg.maxNeighbors) (c e : Node cfg) : Prop where
  hs : ∃ idx len air idle slot, e.hs = { c.hs with
    wasTx := true
    fragIdx := idx
    lastTxLen := len
    lastTxAirStartUs := air
    oweTx := false
    idleSlots := idle
    slotRefused := false
    slot := slot
    progressed := false }
  entry : ∃ tx ctr, e.neigh i = { c.neigh i with
    tx := tx, keys := { (c.neigh i).keys with txCtr := ctr } } ∧
    (c.hs.txSecured = false → ctr = (c.neigh i).keys.txCtr)
  mapped : c.Mapped → e.Mapped

/-- In a slot in which a message other than the router's last is sent, it goes on air whole, and
the handshake goes on. -/
theorem Transmits.goes {Q : Oracle → Prop} (hQ : ∀ o, Q o → o.Willing) {m : Mail}
    {c : Node cfg} {r : Option (Node cfg)} {sent : List RxRec} {id : Identity}
    {i : Fin cfg.maxNeighbors} {peer : Addr} {startUs k : ℕ} (h : Transmits psa Q c sent r)
    (hc : c.Engaged id i peer startUs k) (hs : c.Stages i m) (hfits : m.Fits cfg) (hk : k < 7)
    (hfinal : ¬ (c.hs.joiner = false ∧ (m.type = .joinAck ∨ m.type = .resumeRsp))) :
    m.Train cfg psa 0 sent ∧ (∀ rx ∈ sent, startUs + k * joinSlotUs ≤ rx.airStartUs) ∧
      ∃ e, r = some e ∧ e.Engaged id i peer startUs (k + 1) ∧ Sent i c e := by
  obtain ⟨htrain, hearly, d, hsend, hsettles, -⟩ := h.train hQ hs hfits
  have hd := hc.sending hsend
  obtain ⟨idx, len, air, hhs⟩ := hsend.hs
  have howe : oweAfter d.hs = false := by rw [hhs]; rfl
  obtain ⟨e, rfl, he, hset⟩ := hsettles.next hd hk
    (by
      rintro ⟨hj, -, ht⟩
      rw [hhs] at hj ht
      refine hfinal ⟨hj, ?_⟩
      rw [← hs.type]
      exact ht)
    (by rw [howe]; nofun)
  refine ⟨htrain, fun rx hrx => ?_, e, rfl, he, ?_, ?_, fun hm => hset.mapped (hsend.mapped hm)⟩
  · have hle := hearly rx hrx
    rwa [slotTime, hc.start, hc.slot] at hle
  · obtain ⟨idle, slot, hset⟩ := hset.hs
    refine ⟨idx, len, air, idle, slot, ?_⟩
    rw [hset, howe, hhs]
  · rw [hset.entry]
    exact hsend.entry

/-- After a message that was handled and answered, the node owes its answer. -/
theorem Concludes.staged {Q : Oracle → Prop} {d : Node cfg} {r : Option (Node cfg)}
    {id : Identity} {i : Fin cfg.maxNeighbors} {peer : Addr} {startUs k : ℕ}
    (h : Concludes Q (some (settleStep (.ok (), d) i)) r) (hd : d.Engaged id i peer startUs k)
    (hk : k < 7) (hwas : d.hs.wasTx = false) (howe : d.hs.oweTx = true) (htx : d.hs.tx ≠ []) :
    ∃ e, r = some e ∧ e.Engaged id i peer startUs (k + 1) ∧ e.hs.oweTx = true ∧
      Settled i (d.setHs { d.hs with progressed := true, rx := {} }) e := by
  let d₁ := d.setHs { d.hs with progressed := true, rx := {} }
  have hd₁ : d₁.Engaged id i peer startUs k := hd.congr rfl rfl rfl rfl
  have howes : oweAfter d₁.hs = true := by
    simp only [d₁, oweAfter, Node.setHs, hwas, howe, Bool.not_true, Bool.false_eq_true, if_false]
  obtain ⟨e, hr, he, hset⟩ := h.next hd₁ hk
    (by
      rintro ⟨-, hw, -⟩
      cases hwas.symm.trans hw)
    fun _ => htx
  refine ⟨e, hr, he, ?_, hset⟩
  obtain ⟨idle, slot, hhs⟩ := hset.hs
  rw [hhs]
  exact howes

/-! ## The four messages -/

/-- What the two ends put into an exchange, and the secret they share by it. -/
structure Talk where
  idJ : Identity
  idR : Identity
  nonceJ : Bytes
  pairJ : Bytes × Bytes
  nonceR : Bytes
  pairR : Bytes × Bytes
  secret : Bytes

namespace Talk

variable (t : Talk) (psa : Psa)

def transcript : Bytes :=
  transcriptOf psa t.idJ t.idR t.nonceJ t.nonceR t.pairJ.1 t.pairR.1

def key : Bytes := psa.hkdf t.secret (t.transcript psa) infoLink

def req : Mail :=
  ⟨t.idJ.netid16, t.idR.addr, t.idJ.addr, .joinReq, t.nonceJ ++ (t.pairJ.1 ++ t.idJ.cert), none⟩

def rsp (sig : Bytes) : Mail :=
  ⟨t.idJ.netid16, t.idJ.addr, t.idR.addr, .joinRsp,
    t.nonceR ++ (t.pairR.1 ++ (t.idR.cert ++ sig)), none⟩

def cfm (sig : Bytes) : Mail :=
  ⟨t.idJ.netid16, t.idR.addr, t.idJ.addr, .joinCfm, sig, some (t.key psa, 1)⟩

def ack (pp : LinkParams) : Mail :=
  ⟨t.idJ.netid16, t.idJ.addr, t.idR.addr, .joinAck, pp.encode, some (t.key psa, 1)⟩

/-- The joiner's part is as its generators make it. -/
structure Opened (pairs : Bytes × Bytes → Prop) : Prop where
  nonce : t.nonceJ.length = nonceLen
  pub : t.pairJ.1.length = ecPubLen
  pair : pairs t.pairJ

/-- The router's part and its signature are as they should be. -/
structure Answered (pubR sig : Bytes) : Prop where
  nonce : t.nonceR.length = nonceLen
  pub : t.pairR.1.length = ecPubLen
  secret : psa.ecdh t.pairJ.2 t.pairR.1 = some t.secret
  sigLen : sig.length = sigLen
  verifies : psa.verify pubR (t.transcript psa) sig = true

end Talk

/-- The key both ends have derived is in use. -/
structure Keys.InUse (k : Keys) (key : Bytes) : Prop where
  link : k.linkKey = key
  id : k.keyId = some key
  has : k.hasKey = true

theorem Keys.agreed_inUse (k : Keys) (psa : Psa) (t : Talk) (no : ℕ) :
    (k.agreed psa t.secret (t.transcript psa) no).InUse (t.key psa) := ⟨rfl, rfl, rfl⟩

/-- The router between `JOIN_REQ` and `JOIN_CFM`. -/
structure Node.Answers (c : Node cfg) (psa : Psa) (t : Talk) (pubJ : Bytes)
    (i : Fin cfg.maxNeighbors) : Prop where
  router : c.hs.joiner = false
  mapped : c.Mapped
  static : (c.neigh i).join.peerStaticPub = pubJ
  transcript : (c.neigh i).join.transcript = t.transcript psa
  key : (c.neigh i).keys.InUse (t.key psa)
  txCtr : (c.neigh i).keys.txCtr = 0
  rxCtr : (c.neigh i).keys.rxCtr = 0

/-- Slot 0 at the router, whose window is open: it checks the joiner and stages `JOIN_RSP`. -/
theorem Listens.asked {Q : Oracle → Prop} {pairs : Bytes × Bytes → Prop} {pubJ pubR : Bytes}
    (hQ : ∀ o, Q o → o.Honest psa pairs pubR) (hpsa : psa.Sound pairs) {t : Talk}
    (hkin : Kin psa t.idJ t.idR pubJ pubR) (ht : t.Opened pairs) {c : Node cfg}
    {r : Option (Node cfg)} {heard : List RxRec} {sinceUs : ℕ} (hident : c.ident = t.idR)
    (hopen : c.OpenTo t.idJ.addr) (hmapped : c.Mapped) (h : Listens psa Q c heard r)
    (htrain : t.req.Train cfg psa 0 heard) (hlate : ∀ rx ∈ heard, sinceUs ≤ rx.airStartUs) :
    ∃ nonceR pairR secret sig i startUs e, r = some e ∧ sinceUs ≤ startUs ∧
      { t with nonceR := nonceR, pairR := pairR, secret := secret }.Answered psa pubR sig ∧
      e.Engaged t.idR i t.idJ.addr startUs 1 ∧ e.hs.oweTx = true ∧
      e.Stages i ({ t with nonceR := nonceR, pairR := pairR, secret := secret }.rsp sig) ∧
      e.Answers psa { t with nonceR := nonceR, pairR := pairR, secret := secret } pubJ i := by
  have hw : ∀ o, Q o → o.Willing := fun o ho => (hQ o ho).toWilling
  obtain ⟨o₀, d, s, hap, hears, hend⟩ := h
  obtain ⟨hhs, hident₀, hneigh, hview, hnet⟩ := joinRxStart_rest o₀ c
  have hopen₀ : (joinRxStart o₀ c).OpenTo t.idJ.addr :=
    hopen.congr (by rw [hhs]; exact hopen.idle) hneigh hview
  have hmapped₀ : (joinRxStart o₀ c).Mapped := by
    rw [Node.Mapped, hnet]
    exact hmapped
  have hidentd : d.ident = t.idR := by rw [hap.ident, hident₀, hident]
  have htakes : d.Takes t.req :=
    ⟨by rw [hidentd]; exact hkin.netid, by rw [hidentd]; rfl, hkin.foreign, rfl⟩
  have hreq : t.req.msg.length = joinReqLen := by
    simp only [Talk.req, List.length_append, ht.nonce, ht.pub, hkin.joiner.1]
    rfl
  have hfits : t.req.Fits cfg := by
    refine Mail.fits_clear ?_ (hreq.trans_le (by decide)) rfl
    rw [← List.length_pos_iff, hreq]
    decide
  obtain ⟨i, d₁, o, e, rx, ⟨⟨startUs, hstart, hd₁hs⟩, hd₁state, hd₁mapped, hd₁ident⟩, hawaits, ho,
      hheard, -, -, hmsg⟩ :=
    hears.delivers (P := fun i d₁ => (∃ startUs, sinceUs ≤ startUs ∧ d₁.hs =
        { n := some i, t0Us := startUs, slotLimit := slotLimit false }) ∧
        (d₁.neigh i).state = .joining ∧ d₁.Mapped ∧ d₁.ident = t.idR) hw hpsa.toOpens
      hfits htakes htrain fun o c₁ rx ho hap' _ hrx => by
        have hall := hap.trans hap'
        obtain ⟨i, d₁, hctx, hhs₁, hident₁, haddr₁, hstate₁, hmap₁⟩ :=
          (hall.window _ hopen₀).opens (hw o ho) psa rx.airStartUs
        have hsame := hident₁.trans hap'.ident
        refine ⟨i, d₁, hctx, ⟨by rw [hhs₁], haddr₁, fun _ _ h => by cases h⟩, hsame,
          ⟨rx.airStartUs, hlate rx hrx, hhs₁⟩, hstate₁, ?_, hsame.trans hidentd⟩
        rw [Node.Mapped, hmap₁]
        exact hall.mapped hmapped₀
  obtain ⟨hmsgIs, -⟩ := hheard.msg hfits
  obtain ⟨buf, hehs⟩ := hheard.hs
  obtain ⟨ctr, mask, heneigh⟩ := hheard.entry
  have hident' : e.ident = t.idR := hheard.ident.trans hd₁ident
  have haddr : (e.neigh i).addr = t.idJ.addr := by rw [heneigh]; exact hawaits.src
  obtain ⟨secret, hsJ, hsR⟩ := hpsa.agree t.pairJ o.keypair ht.pair (hQ o ho).pair
  obtain ⟨no, f, hf, hfhs, hfident, hfnet, hfneigh⟩ := handleJoinReq_honest (hw o ho) hident'
    hkin.networkId haddr hkin.joiner ht.nonce ht.pub hsR
  let t' : Talk := { t with nonceR := o.nonce, pairR := o.keypair, secret := secret }
  have hs : s = some (settleStep (.ok (), f) i) := by
    rw [← hmsg, ← hf]
    exact congrArg (fun m => some (settleStep (handleJoinReq psa o e i m) i)) hmsgIs
  subst hs
  have hengaged : f.Engaged t.idR i t.idJ.addr startUs 0 := by
    refine ⟨hfident.trans hident', ?_, ?_, ?_, ?_, ?_, ?_, ?_, ?_⟩
    · rw [hfhs, hehs, hd₁hs]
      rfl
    · rw [hfneigh, heneigh]
      exact hd₁state
    · rw [hfneigh]
      exact haddr
    · rw [hfhs, hehs, hd₁hs]
      rfl
    · rw [hfhs, hehs, hd₁hs]
      rfl
    · rw [hfhs, hehs, hd₁hs]
      exact le_refl _
    · rw [hfhs, hehs, hd₁hs]
      rfl
    · rw [hfhs, hehs, hd₁hs]
      rfl
  have hnonce : o.nonce ≠ [] := List.ne_nil_of_length_pos (by rw [o.nonce_length]; decide)
  obtain ⟨g, rfl, hg, howe, hset⟩ := hend.staged hengaged (by decide)
    (by rw [hfhs, hehs, hd₁hs]; rfl) (by rw [hfhs]; rfl)
    (by
      rw [hfhs]
      simp [stageMessage, hnonce])
  have hkeys : (g.neigh i).keys = (e.neigh i).keys.agreed psa secret (t'.transcript psa) no := by
    rw [hset.entry]
    exact congrArg Neigh.keys hfneigh
  have hjoin : (g.neigh i).join = _ := (congrArg Neigh.join hset.entry).trans
    (congrArg Neigh.join hfneigh)
  obtain ⟨idle, slot, hghs⟩ := hset.hs
  refine ⟨o.nonce, o.keypair, secret, o.sign (t'.transcript psa), i, startUs, g, rfl, hstart,
    ⟨o.nonce_length, o.keypair_length, hsJ, o.sign_length _, (hQ o ho).signs _⟩, hg, howe, ?_, ?_⟩
  · refine hg.stages ?_ hkin.netid rfl rfl fun _ _ h => by cases h
    rw [hghs, Node.setHs, hfhs]
    rfl
  · refine ⟨?_, hset.mapped ?_, ?_, ?_, ?_, ?_, ?_⟩
    · rw [hghs, Node.setHs, hfhs, hehs, hd₁hs]
      rfl
    · change f.net.chanMap ≠ 0
      rw [hfnet]
      exact hheard.mapped hd₁mapped
    · rw [hjoin]
    · rw [hjoin]
      rfl
    · rw [hkeys]
      exact Keys.agreed_inUse _ psa t' no
    · rw [hkeys]
      rfl
    · rw [hkeys]
      rfl

/-- The joiner between `JOIN_REQ` and `JOIN_RSP`. -/
structure Node.Asks (c : Node cfg) (t : Talk) (i : Fin cfg.maxNeighbors) : Prop where
  joiner : c.hs.joiner = true
  nonce : (c.neigh i).join.nonceLocal = t.nonceJ
  pub : c.hs.ephPub = t.pairJ.1
  priv : c.hs.ephPriv = t.pairJ.2
  tx : c.hs.tx ≠ []

/-- Building `JOIN_REQ`. -/
theorem buildJoinReq_willing {o : Oracle} (ho : o.Willing) (c : Node cfg)
    (i : Fin cfg.maxNeighbors) :
    ∃ d, buildJoinReq o c i = (.ok (), d) ∧
      d.hs = stageMessage { c.hs with ephPub := o.keypair.1, ephPriv := o.keypair.2 } .joinReq false
        (o.nonce ++ (o.keypair.1 ++ c.ident.cert)) ∧
      d.ident = c.ident ∧ d.neigh i =
        { c.neigh i with join := { (c.neigh i).join with nonceLocal := o.nonce } } := by
  unfold buildJoinReq
  simp only [ho.calls, Bool.not_true, Bool.false_eq_true, if_false]
  refine ⟨_, rfl, ?_, rfl, ?_⟩
  · simp [Node.setHs]
  · simp [Node.setHs]

/-- `lg_join_start` towards a neighbour for which there is no long term key stages `JOIN_REQ`. -/
theorem lgJoinStart_asks {o : Oracle} {pairs : Bytes × Bytes → Prop} {pub : Bytes}
    (ho : o.Honest psa pairs pub) {idJ idR : Identity} {c d : Node cfg} {i : Fin cfg.maxNeighbors}
    (hident : c.ident = idJ) (haddr : (c.neigh i).addr = idR.addr)
    (hltk : (c.neigh i).keys.hasLtk = false) (h : lgJoinStart o c i = (.ok (), d)) :
    ∃ t startUs, t.idJ = idJ ∧ t.idR = idR ∧ t.Opened pairs ∧
      d.Engaged idJ i idR.addr startUs 0 ∧ d.hs.oweTx = true ∧ d.Stages i t.req ∧
      d.Asks t i := by
  unfold lgJoinStart at h
  dsimp only at h
  split at h
  · cases h
  · split at h
    · cases h
    · split at h
      · cases h
      · next j _ =>
        split at h
        · cases h
        · split at h
          · cases h
          · let hs : Hs cfg := {
              n := some i
              joiner := true
              t0Us := j.joinNextUs + j.joinSpreadUs
              resuming := false
              slotLimit := slotLimit false }
            obtain ⟨e, he, hehs, heident, heneigh⟩ :=
              buildJoinReq_willing ho.toWilling ((c.setJoin i j).setHs hs) i
            rw [hltk, if_neg Bool.false_ne_true,
              show buildJoinReq o _ i = (.ok (), e) from he] at h
            cases h
            let t : Talk := ⟨idJ, idR, o.nonce, o.keypair, [], ([], []), []⟩
            have hnonce : o.nonce ≠ [] :=
              List.ne_nil_of_length_pos (by rw [o.nonce_length]; decide)
            have hengaged : (((e.setNeigh i { e.neigh i with state := .joining }).note i
                (.began e.hs.txType))).Engaged idJ i idR.addr hs.t0Us 0 := by
              refine ⟨heident.trans hident, ?_, ?_, ?_, ?_, ?_, ?_, ?_, ?_⟩
              · exact congrArg Hs.n hehs
              · simp
              · simp only [Node.note_neigh, Node.setNeigh_neigh, Function.update_self]
                rw [heneigh]
                simpa [Node.setHs] using haddr
              · exact (congrArg Hs.t0Us hehs).trans rfl
              · exact congrArg Hs.slot hehs
              · exact (congrArg Hs.idleSlots hehs).le
              · exact congrArg Hs.resuming hehs
              · exact congrArg Hs.slotLimit hehs
            refine ⟨t, hs.t0Us, rfl, rfl, ⟨o.nonce_length, o.keypair_length, ho.pair⟩, hengaged,
              congrArg Hs.oweTx hehs, hengaged.stages ?_ rfl rfl rfl (fun _ _ h => by cases h),
              ?_, ?_, ?_, ?_, ?_⟩
            · have hcert : ((c.setJoin i j).setHs hs).ident.cert = idJ.cert := by
                rw [← hident]
                rfl
              change e.hs.staged = (stageMessage e.hs _ _ _).staged
              rw [hehs, hcert]
              rfl
            · exact congrArg Hs.joiner hehs
            · simp only [Node.note_neigh, Node.setNeigh_neigh, Function.update_self]
              rw [heneigh]
            · exact congrArg Hs.ephPub hehs
            · exact congrArg Hs.ephPriv hehs
            · change e.hs.tx ≠ []
              rw [hehs]
              simp [stageMessage, hnonce]

theorem Node.Asks.apart {c d : Node cfg} {t : Talk} {i : Fin cfg.maxNeighbors} (h : c.Asks t i)
    (hn : c.hs.n = some i) (hap : Apart c d) : d.Asks t i := by
  refine ⟨?_, ?_, ?_, ?_, ?_⟩
  · rw [hap.hs, h.joiner]
  · rw [hap.entry i hn, h.nonce]
  · rw [hap.hs, h.pub]
  · rw [hap.hs, h.priv]
  · rw [hap.hs]
    exact h.tx

theorem Node.Asks.sent {c e : Node cfg} {t : Talk} {i : Fin cfg.maxNeighbors} (h : c.Asks t i)
    (he : Sent i c e) : e.Asks t i := by
  obtain ⟨idx, len, air, idle, slot, hhs⟩ := he.hs
  obtain ⟨tx, ctr, hentry, -⟩ := he.entry
  refine ⟨?_, ?_, ?_, ?_, ?_⟩
  · rw [hhs]
    exact h.joiner
  · rw [hentry]
    exact h.nonce
  · rw [hhs]
    exact h.pub
  · rw [hhs]
    exact h.priv
  · rw [hhs]
    exact h.tx

theorem Node.Answers.apart {c d : Node cfg} {t : Talk} {pubJ : Bytes} {i : Fin cfg.maxNeighbors}
    (h : c.Answers psa t pubJ i) (hn : c.hs.n = some i) (hap : Apart c d) :
    d.Answers psa t pubJ i := by
  have hentry := hap.entry i hn
  refine ⟨?_, hap.mapped h.mapped, ?_, ?_, ?_, ?_, ?_⟩
  · rw [hap.hs, h.router]
  · rw [hentry, h.static]
  · rw [hentry, h.transcript]
  · rw [hentry]
    exact h.key
  · rw [hentry, h.txCtr]
  · rw [hentry, h.rxCtr]

/-- `JOIN_RSP` goes out in the clear. -/
theorem Node.Answers.sent {c e : Node cfg} {t : Talk} {pubJ : Bytes} {i : Fin cfg.maxNeighbors}
    (h : c.Answers psa t pubJ i) (hclear : c.hs.txSecured = false) (he : Sent i c e) :
    e.Answers psa t pubJ i := by
  obtain ⟨idx, len, air, idle, slot, hhs⟩ := he.hs
  obtain ⟨tx, ctr, hentry, hctr⟩ := he.entry
  rw [hctr hclear] at hentry
  refine ⟨?_, he.mapped h.mapped, ?_, ?_, ?_, ?_, ?_⟩
  · rw [hhs]
    exact h.router
  · rw [hentry]
    exact h.static
  · rw [hentry]
    exact h.transcript
  · rw [hentry]
    exact ⟨h.key.link, h.key.id, h.key.has⟩
  · rw [hentry]
    exact h.txCtr
  · rw [hentry]
    exact h.rxCtr

/-- The joiner between `JOIN_RSP` and `JOIN_ACK`. -/
structure Node.Confirms (c : Node cfg) (key : Bytes) (i : Fin cfg.maxNeighbors) : Prop where
  joiner : c.hs.joiner = true
  key : (c.neigh i).keys.InUse key
  rxCtr : (c.neigh i).keys.rxCtr = 0
  tx : c.hs.tx ≠ []

theorem Node.Confirms.apart {c d : Node cfg} {key : Bytes} {i : Fin cfg.maxNeighbors}
    (h : c.Confirms key i) (hn : c.hs.n = some i) (hap : Apart c d) : d.Confirms key i := by
  have hentry := hap.entry i hn
  refine ⟨?_, ?_, ?_, ?_⟩
  · rw [hap.hs, h.joiner]
  · rw [hentry]
    exact h.key
  · rw [hentry, h.rxCtr]
  · rw [hap.hs]
    exact h.tx

theorem Node.Confirms.sent {c e : Node cfg} {key : Bytes} {i : Fin cfg.maxNeighbors}
    (h : c.Confirms key i) (he : Sent i c e) : e.Confirms key i := by
  obtain ⟨idx, len, air, idle, slot, hhs⟩ := he.hs
  obtain ⟨tx, ctr, hentry, -⟩ := he.entry
  refine ⟨?_, ?_, ?_, ?_⟩
  · rw [hhs]
    exact h.joiner
  · rw [hentry]
    exact ⟨h.key.link, h.key.id, h.key.has⟩
  · rw [hentry]
    exact h.rxCtr
  · rw [hhs]
    exact h.tx

/-- Slot 1 at the joiner: it checks the router and stages `JOIN_CFM`. -/
theorem Listens.answered {Q : Oracle → Prop} {pairs : Bytes × Bytes → Prop} {pubJ pubR sig : Bytes}
    (hQ : ∀ o, Q o → o.Honest psa pairs pubJ) (hpsa : psa.Opens) {t : Talk}
    (hkin : Kin psa t.idJ t.idR pubJ pubR) (ht : t.Answered psa pubR sig) {c : Node cfg}
    {r : Option (Node cfg)} {heard : List RxRec} {i : Fin cfg.maxNeighbors} {startUs : ℕ}
    (hc : c.Engaged t.idJ i t.idR.addr startUs 1) (hasks : c.Asks t i)
    (h : Listens psa Q c heard r) (htrain : (t.rsp sig).Train cfg psa 0 heard) :
    ∃ sigJ e, r = some e ∧ e.Engaged t.idJ i t.idR.addr startUs 2 ∧ e.hs.oweTx = true ∧
      e.Stages i (t.cfm psa sigJ) ∧ e.Confirms (t.key psa) i ∧ sigJ.length = sigLen ∧
      psa.verify pubJ (t.transcript psa) sigJ = true := by
  have hw : ∀ o, Q o → o.Willing := fun o ho => (hQ o ho).toWilling
  have hlen : (t.rsp sig).msg.length = joinRspLen := by
    simp only [Talk.rsp, List.length_append, ht.nonce, ht.pub, hkin.router.1, ht.sigLen]
    rfl
  have hfits : (t.rsp sig).Fits cfg := by
    refine Mail.fits_clear ?_ (hlen.trans_le (by decide)) rfl
    rw [← List.length_pos_iff, hlen]
    decide
  obtain ⟨o, e, rx, s, ho, hgot, -, hmsg, hend⟩ :=
    h.got hw hpsa hfits ⟨by rw [hc.ident]; rfl, by rw [hc.ident]; rfl, hkin.foreign.symm, rfl⟩
      ⟨hc.about, hc.peer, nofun⟩ htrain
  have he := hc.got hgot
  obtain ⟨buf, hehs⟩ := hgot.hs
  obtain ⟨ctr, mask, heneigh⟩ := hgot.entry
  obtain ⟨no, f, hf, hfhs, hfident, -, hfneigh⟩ := handleJoinRsp_honest (hw o ho) he.ident he.peer
    hkin.router ht.nonce ht.pub ht.sigLen
    (show (e.neigh _).join.nonceLocal = t.nonceJ by rw [heneigh]; exact hasks.nonce)
    (show e.hs.ephPub = t.pairJ.1 by rw [hehs]; exact hasks.pub)
    (by rw [hehs]; exact (congrArg (psa.ecdh · _) hasks.priv).trans ht.secret) ht.verifies
  have hs : s = some (settleStep (.ok (), f) i) := by
    rw [← hmsg, ← hf]
    exact congrArg (fun m => some (settleStep (handleJoinRsp psa o e i m) i)) hgot.msg
  subst hs
  have hfe : f.Engaged t.idJ i t.idR.addr startUs 1 := by
    refine he.congr hfident ?_ (by rw [hfneigh]) (by rw [hfneigh])
    rw [hfhs]
    rfl
  have hsigJ : o.sign (t.transcript psa) ≠ [] :=
    List.ne_nil_of_length_pos (by rw [o.sign_length]; decide)
  obtain ⟨g, rfl, hg, howe, hset⟩ := hend.staged hfe (by decide) (by rw [hfhs, hehs]; rfl)
    (by rw [hfhs]; rfl) (by rw [hfhs]; exact hsigJ)
  obtain ⟨idle, slot, hghs⟩ := hset.hs
  have hkeys : (g.neigh i).keys = (e.neigh i).keys.agreed psa t.secret (t.transcript psa) no := by
    rw [hset.entry]
    exact congrArg Neigh.keys hfneigh
  refine ⟨o.sign (t.transcript psa), g, rfl, hg, howe, hg.stages ?_ rfl rfl rfl ?_,
    ⟨?_, ?_, ?_, ?_⟩, o.sign_length _, (hQ o ho).signs _⟩
  · rw [hghs, Node.setHs, hfhs]
    rfl
  · rintro key ctr hunder
    cases hunder
    rw [hkeys]
    exact ⟨rfl, rfl, rfl⟩
  · rw [hghs, Node.setHs, hfhs, hehs]
    exact hasks.joiner
  · rw [hkeys]
    exact Keys.agreed_inUse _ psa t no
  · rw [hkeys]
    rfl
  · rw [hghs, Node.setHs, hfhs]
    exact hsigJ

/-- Slot 2 at the router: it checks the joiner's signature and stages `JOIN_ACK`. -/
theorem Listens.confirmed {Q : Oracle → Prop} {pairs : Bytes × Bytes → Prop}
    {pubJ pubR sigJ : Bytes} (hQ : ∀ o, Q o → o.Honest psa pairs pubR) (hpsa : psa.Opens) {t : Talk}
    (hkin : Kin psa t.idJ t.idR pubJ pubR) {c : Node cfg} {r : Option (Node cfg)}
    {heard : List RxRec} {i : Fin cfg.maxNeighbors} {startUs : ℕ}
    (hc : c.Engaged t.idR i t.idJ.addr startUs 2) (hanswers : c.Answers psa t pubJ i)
    (hsig : sigJ.length = sigLen) (hverify : psa.verify pubJ (t.transcript psa) sigJ = true)
    (h : Listens psa Q c heard r) (htrain : (t.cfm psa sigJ).Train cfg psa 0 heard) :
    ∃ pp e, r = some e ∧ pp.chanMap ≠ 0 ∧ e.Engaged t.idR i t.idJ.addr startUs 3 ∧
      e.hs.oweTx = true ∧ e.Stages i (t.ack psa pp) ∧ e.hs.joiner = false ∧
      (e.neigh i).keys.InUse (t.key psa) := by
  have hw : ∀ o, Q o → o.Willing := fun o ho => (hQ o ho).toWilling
  have hfits : (t.cfm psa sigJ).Fits cfg :=
    Mail.fits_sealed (List.ne_nil_of_length_pos (by rw [Talk.cfm, hsig]; decide)) hsig.le rfl
  obtain ⟨o, e, rx, s, ho, hgot, -, hmsg, hend⟩ :=
    h.got hw hpsa hfits
      ⟨by rw [hc.ident]; exact hkin.netid, by rw [hc.ident]; rfl, hkin.foreign, rfl⟩
      ⟨hc.about, hc.peer, by
        rintro key ctr hunder
        cases hunder
        refine ⟨hanswers.key.has, hanswers.key.id, ?_⟩
        rw [hanswers.rxCtr]
        decide⟩ htrain
  have he := hc.got hgot
  obtain ⟨buf, hehs⟩ := hgot.hs
  obtain ⟨ctr, mask, heneigh⟩ := hgot.entry
  obtain ⟨f, hf, hfhs, hfident, -, hfneigh⟩ := handleJoinCfm_honest (hw o ho) (c := e) (i := i)
    hsig (by rw [heneigh]; exact (congrArg₂ (psa.verify · · sigJ) hanswers.static
      hanswers.transcript).trans hverify)
  have hs : s = some (settleStep (.ok (), f) i) := by
    rw [← hmsg, ← hf]
    exact congrArg (fun m => some (settleStep (handleJoinCfm psa o e i m) i)) hgot.msg
  subst hs
  have hfe : f.Engaged t.idR i t.idJ.addr startUs 2 := by
    refine he.congr hfident ?_ (by rw [hfneigh]) (by rw [hfneigh])
    rw [hfhs]
    rfl
  obtain ⟨g, rfl, hg, howe, hset⟩ := hend.staged hfe (by decide) (by rw [hfhs, hehs]; rfl)
    (by rw [hfhs]; rfl) (by rw [hfhs]; nofun)
  obtain ⟨idle, slot, hghs⟩ := hset.hs
  have hkeys : (g.neigh i).keys = (e.neigh i).keys := by
    rw [hset.entry]
    exact congrArg Neigh.keys hfneigh
  refine ⟨linkParamsFill o e, g, rfl, hgot.mapped hanswers.mapped, hg, howe,
    hg.stages ?_ hkin.netid rfl rfl ?_, ?_, ?_⟩
  · rw [hghs, Node.setHs, hfhs]
    rfl
  · rintro key ctr hunder
    cases hunder
    rw [hkeys, heneigh]
    refine ⟨hanswers.key.has, hanswers.key.id, ?_⟩
    rw [hanswers.txCtr]
    rfl
  · rw [hghs, Node.setHs, hfhs, hehs]
    exact hanswers.router
  · rw [hkeys, heneigh]
    exact ⟨hanswers.key.link, hanswers.key.id, hanswers.key.has⟩

/-! ## The link at both ends -/

/-- A link at its two ends: one key, one schedule, and one initiator. -/
structure Neigh.LinkedWith (nJ nR : Neigh) : Prop where
  up : nJ.state = .linked ∧ nR.state = .linked
  key : nJ.keys.linkKey = nR.keys.linkKey
  inUse : nJ.keys.InUse nJ.keys.linkKey ∧ nR.keys.InUse nR.keys.linkKey
  interval : nJ.sched.intervalUs = nR.sched.intervalUs
  hopSeed : nJ.sched.hopSeed = nR.sched.hopSeed
  chanMap : nJ.sched.chanMap = nR.sched.chanMap
  epoch : nJ.sched.epochUs = nR.sched.epochUs
  subrate : nJ.sched.subrate = 1 ∧ nR.sched.subrate = 1
  roles : nJ.sched.initiator = false ∧ nR.sched.initiator = true

/-- The entry of a link under `key`, on `pp` from `epochUs` on. -/
structure Neigh.LinkedOn (n : Neigh) (cfg : Config) (key : Bytes) (pp : LinkParams) (epochUs : ℕ)
    (initiator : Bool) : Prop where
  up : n.state = .linked
  key : n.keys.InUse key
  sched : n.sched.On cfg pp epochUs initiator

theorem Neigh.LinkedOn.linkedWith {nJ nR : Neigh} {key : Bytes} {pp : LinkParams} {epochUs : ℕ}
    (hJ : nJ.LinkedOn cfg key pp epochUs false) (hR : nR.LinkedOn cfg key pp epochUs true) :
    nJ.LinkedWith nR where
  up := ⟨hJ.up, hR.up⟩
  key := hJ.key.link.trans hR.key.link.symm
  inUse := by
    rw [hJ.key.link, hR.key.link]
    exact ⟨hJ.key, hR.key⟩
  interval := hJ.sched.interval.trans hR.sched.interval.symm
  hopSeed := hJ.sched.hopSeed.trans hR.sched.hopSeed.symm
  chanMap := hJ.sched.chanMap.trans hR.sched.chanMap.symm
  epoch := hJ.sched.epoch.trans hR.sched.epoch.symm
  subrate := ⟨hJ.sched.subrate, hR.sched.subrate⟩
  roles := ⟨hJ.sched.initiator, hR.sched.initiator⟩

theorem Talk.ack_fits (t : Talk) (psa : Psa) (pp : LinkParams) : (t.ack psa pp).Fits cfg := by
  have hlen : (t.ack psa pp).msg.length = linkParamsLen := rfl
  exact Mail.fits_sealed (List.ne_nil_of_length_pos (by rw [hlen]; decide))
    (by rw [hlen]; decide) rfl

/-- Slot 3 at the router: with `JOIN_ACK` on air its link is up. -/
theorem Transmits.acks {Q : Oracle → Prop} (hQ : ∀ o, Q o → o.Willing) {t : Talk} {c : Node cfg}
    {r : Option (Node cfg)} {sent : List RxRec} {i : Fin cfg.maxNeighbors} {startUs : ℕ}
    {pp : LinkParams} (h : Transmits psa Q c sent r)
    (hc : c.Engaged t.idR i t.idJ.addr startUs 3) (hs : c.Stages i (t.ack psa pp))
    (hmap : pp.chanMap ≠ 0) (hrouter : c.hs.joiner = false)
    (hkey : (c.neigh i).keys.InUse (t.key psa)) :
    (t.ack psa pp).Train cfg psa 0 sent ∧
      (∀ rx ∈ sent, startUs + 3 * joinSlotUs ≤ rx.airStartUs) ∧
      ∃ rx e, sent.getLast? = some rx ∧ r = some e ∧ (e.neigh i).addr = t.idJ.addr ∧
        (e.neigh i).LinkedOn cfg (t.key psa) (.decode pp.encode)
          (rx.airStartUs + (LinkParams.decode pp.encode).anchorOffsetUs.toNat) true := by
  obtain ⟨htrain, hearly, d, hsend, hsettles, rx, hlast, hair⟩ := h.train hQ hs (t.ack_fits psa pp)
  have hearly' : ∀ rx ∈ sent, startUs + 3 * joinSlotUs ≤ rx.airStartUs := by
    intro rx hrx
    have hle := hearly rx hrx
    rwa [slotTime, hc.start, hc.slot] at hle
  refine ⟨htrain, hearly', rx, ?_⟩
  have hd := hc.sending hsend
  obtain ⟨idx, len, air, hdhs⟩ := hsend.hs
  obtain ⟨tx, ctr, hdentry, -⟩ := hsend.entry
  unfold Settles at hsettles
  rw [if_neg (by simp [hd.about])] at hsettles
  obtain ⟨o, e, -, hap, hin, hfinish⟩ := hsettles
  have he := hd.apart hap
  have hentry := hap.entry i hd.about
  have htx : e.hs.tx = pp.encode := by
    rw [hap.hs, hdhs]
    exact hs.msg
  have hgo : (!e.hs.joiner && e.hs.wasTx &&
      (e.hs.txType = .joinAck || e.hs.txType = .resumeRsp)) = true := by
    have htype : e.hs.txType = .joinAck := by
      rw [hap.hs, hdhs]
      exact hs.type
    have hj : e.hs.joiner = false := by
      rw [hap.hs, hdhs]
      exact hrouter
    have hwas : e.hs.wasTx = true := by
      rw [hap.hs, hdhs]
    rw [htype, hj, hwas]
    rfl
  have hfin : finishRouter o e i = r := by
    rw [← hfinish]
    unfold lgJoinEventFinish
    rw [he.about]
    dsimp only
    rw [if_neg (by rw [he.state]; simp), if_pos hgo]
  let e₁ := e.setNeigh i { e.neigh i with
    histUp := some (linkUpOf e i false e.hs.txType e.hs.txSecured)
    sched := { (e.neigh i).sched with
      anchorUs := e.hs.lastTxAirStartUs + (LinkParams.decode e.hs.tx).anchorOffsetUs.toNat }
    join := { (e.neigh i).join with joinRetries := 0 } }
  have hself : e₁.neigh i = _ := Function.update_self ..
  obtain ⟨hlt, hclock⟩ := hin (by simp [he.about])
  have hnow : e₁.nowUs < (e₁.neigh i).sched.anchorUs + joinSlotUs := by
    have hle := hearly' rx (List.mem_of_getLast? hlast)
    rw [slotTime, he.start, he.slot] at hlt
    rw [hself]
    change e.nowUs < e.hs.lastTxAirStartUs + _ + joinSlotUs
    rw [hap.hs, ← hair]
    omega
  obtain ⟨f, s, hf, -, hon, hfentry⟩ := lgLinkEstablish_on o (LinkParams.decode e.hs.tx) true
    (by rw [htx, decode_encode_chanMap]; exact hmap) hnow hclock
  have hr : r = some { f.setHs {} with net := { f.net with joinWinUs := 0 } } := by
    rw [← hfin]
    unfold finishRouter
    exact congrArg (Option.map _) hf
  refine ⟨_, hlast, hr, ?_, ?_, ?_, ?_⟩
  · change (f.neigh i).addr = _
    rw [hfentry, hself]
    exact he.peer
  · change (f.neigh i).state = _
    rw [hfentry]
  · change (f.neigh i).keys.InUse _
    rw [hfentry, hself]
    dsimp only
    rw [hentry, hdentry]
    exact ⟨hkey.link, hkey.id, hkey.has⟩
  · change (f.neigh i).sched.On _ _ _ _
    rw [hfentry]
    rw [hself] at hon
    rw [hair, ← hap.hs, ← htx]
    exact hon

/-- Slot 3 at the joiner: it hears `JOIN_ACK`, and its link is up. -/
theorem Listens.linked {Q : Oracle → Prop} (hQ : ∀ o, Q o → o.Willing) (hpsa : psa.Opens)
    {pubJ pubR : Bytes} {t : Talk} (hkin : Kin psa t.idJ t.idR pubJ pubR) {c : Node cfg}
    {r : Option (Node cfg)} {heard : List RxRec} {i : Fin cfg.maxNeighbors} {startUs : ℕ}
    {pp : LinkParams} (hc : c.Engaged t.idJ i t.idR.addr startUs 3)
    (hconfirms : c.Confirms (t.key psa) i) (hmap : pp.chanMap ≠ 0) (h : Listens psa Q c heard r)
    (htrain : (t.ack psa pp).Train cfg psa 0 heard)
    (hlate : ∀ rx ∈ heard, startUs + 3 * joinSlotUs ≤ rx.airStartUs) :
    ∃ rx e, heard.getLast? = some rx ∧ r = some e ∧ (e.neigh i).addr = t.idR.addr ∧
      (e.neigh i).LinkedOn cfg (t.key psa) (.decode pp.encode)
        (rx.airStartUs + (LinkParams.decode pp.encode).anchorOffsetUs.toNat) false := by
  obtain ⟨o, e, rx, s, ho, hgot, hlast, hmsg, hend⟩ :=
    h.got hQ hpsa (t.ack_fits psa pp)
      ⟨by rw [hc.ident]; rfl, by rw [hc.ident]; rfl, hkin.foreign.symm, rfl⟩
      ⟨hc.about, hc.peer, by
        rintro key ctr hunder
        cases hunder
        refine ⟨hconfirms.key.has, hconfirms.key.id, ?_⟩
        rw [hconfirms.rxCtr]
        decide⟩ htrain
  refine ⟨rx, ?_⟩
  have he := hc.got hgot
  obtain ⟨ctr, mask, heneigh⟩ := hgot.entry
  have hmsgIs : e.hs.rx.msg = pp.encode := hgot.msg
  let e₁ := e.setNeigh i { e.neigh i with
    histUp := some (linkUpOf e i true .joinAck true)
    sched := { (e.neigh i).sched with
      anchorUs := rx.airStartUs + (LinkParams.decode e.hs.rx.msg).anchorOffsetUs.toNat }
    join := { (e.neigh i).join with joinRetries := 0 } }
  have hself : e₁.neigh i = _ := Function.update_self ..
  obtain ⟨hlt, hclock⟩ := hgot.inSlot (by rw [he.about]; nofun)
  have hnow : e₁.nowUs < (e₁.neigh i).sched.anchorUs + joinSlotUs := by
    have hle := hlate rx (List.mem_of_getLast? hlast)
    rw [slotTime, he.start, he.slot] at hlt
    rw [hself]
    change e.nowUs < rx.airStartUs + _ + joinSlotUs
    omega
  obtain ⟨f, s', hf, -, hon, hfentry⟩ := lgLinkEstablish_on o
    (LinkParams.decode e.hs.rx.msg) false
    (by rw [hmsgIs, decode_encode_chanMap]; exact hmap) hnow hclock
  have hs : s = some (f.setHs {}) := by
    rw [← hmsg]
    change finishJoiner o e i .joinAck true rx.airStartUs = _
    have hlen : e.hs.rx.len = linkParamsLen := hgot.len
    unfold finishJoiner
    rw [if_neg (not_not.mpr hlen)]
    exact congrArg (Option.map _) hf
  subst hs
  have hr : r = some { f.setHs {} with net := { f.net with joinWinUs := 0 } } := hend
  refine ⟨_, hlast, hr, ?_, ?_, ?_, ?_⟩
  · change (f.neigh i).addr = _
    rw [hfentry, hself]
    exact he.peer
  · change (f.neigh i).state = _
    rw [hfentry]
  · change (f.neigh i).keys.InUse _
    rw [hfentry, hself]
    dsimp only
    rw [heneigh]
    exact ⟨hconfirms.key.link, hconfirms.key.id, hconfirms.key.has⟩
  · change (f.neigh i).sched.On _ _ _ _
    rw [hfentry]
    rw [hself] at hon
    rw [← hmsgIs]
    exact hon

/-! ## The exchange, slot by slot -/

theorem Node.Engaged.slotIsTx {c : Node cfg} {id : Identity} {i : Fin cfg.maxNeighbors}
    {peer : Addr} {startUs k : ℕ} (h : c.Engaged id i peer startUs k) :
    lgJoinSlotIsTx c = c.hs.oweTx := by
  rw [lgJoinSlotIsTx, h.about]
  rfl

theorem Plays.transmits {Q : Oracle → Prop} {c : Node cfg} {sent heard : List RxRec}
    {r : Option (Node cfg)} (h : Plays psa Q c sent heard r) (hc : lgJoinSlotIsTx c = true) :
    Transmits psa Q c sent r := by
  rwa [Plays, if_pos hc] at h

theorem Plays.listens {Q : Oracle → Prop} {c : Node cfg} {sent heard : List RxRec}
    {r : Option (Node cfg)} (h : Plays psa Q c sent heard r) (hc : lgJoinSlotIsTx c = false) :
    Listens psa Q c heard r := by
  rw [Plays, if_neg (by rw [hc]; nofun)] at h
  exact h.2

/-- The joiner owes `JOIN_REQ`, and the router's window is open to it. -/
structure Requesting (pairs : Bytes × Bytes → Prop) (t : Talk) (i : Fin cfg.maxNeighbors)
    (startUs : ℕ) (j r : Node cfg) : Prop where
  opened : t.Opened pairs
  joiner : j.Engaged t.idJ i t.idR.addr startUs 0
  owes : j.hs.oweTx = true
  stages : j.Stages i t.req
  asks : j.Asks t i
  ident : r.ident = t.idR
  window : r.OpenTo t.idJ.addr
  mapped : r.Mapped

/-- The router owes `JOIN_RSP`. -/
structure Responding (psa : Psa) (t : Talk) (pubJ pubR sig : Bytes) (i i' : Fin cfg.maxNeighbors)
    (startUs startUs' : ℕ) (j r : Node cfg) : Prop where
  answered : t.Answered psa pubR sig
  since : startUs ≤ startUs'
  joiner : j.Engaged t.idJ i t.idR.addr startUs 1
  waits : j.hs.oweTx = false
  asks : j.Asks t i
  router : r.Engaged t.idR i' t.idJ.addr startUs' 1
  owes : r.hs.oweTx = true
  stages : r.Stages i' (t.rsp sig)
  answers : r.Answers psa t pubJ i'

/-- The joiner owes `JOIN_CFM`. -/
structure Confirming (psa : Psa) (t : Talk) (pubJ sig : Bytes) (i i' : Fin cfg.maxNeighbors)
    (startUs startUs' : ℕ) (j r : Node cfg) : Prop where
  length : sig.length = sigLen
  verifies : psa.verify pubJ (t.transcript psa) sig = true
  since : startUs ≤ startUs'
  joiner : j.Engaged t.idJ i t.idR.addr startUs 2
  owes : j.hs.oweTx = true
  stages : j.Stages i (t.cfm psa sig)
  confirms : j.Confirms (t.key psa) i
  router : r.Engaged t.idR i' t.idJ.addr startUs' 2
  waits : r.hs.oweTx = false
  answers : r.Answers psa t pubJ i'

/-- The router owes `JOIN_ACK`. -/
structure Granting (psa : Psa) (t : Talk) (pp : LinkParams) (i i' : Fin cfg.maxNeighbors)
    (startUs startUs' : ℕ) (j r : Node cfg) : Prop where
  map : pp.chanMap ≠ 0
  since : startUs ≤ startUs'
  joiner : j.Engaged t.idJ i t.idR.addr startUs 3
  waits : j.hs.oweTx = false
  confirms : j.Confirms (t.key psa) i
  router : r.Engaged t.idR i' t.idJ.addr startUs' 3
  owes : r.hs.oweTx = true
  stages : r.Stages i' (t.ack psa pp)
  answers : r.hs.joiner = false
  key : (r.neigh i').keys.InUse (t.key psa)

section

variable {pairs : Bytes × Bytes → Prop} {pubJ pubR : Bytes} {t : Talk}
  {i i' : Fin cfg.maxNeighbors} {startUs startUs' : ℕ} {j r : Node cfg}
  {j' r' : Option (Node cfg)} {sentJ sentR : List RxRec}

/-- Slot 0 carries `JOIN_REQ`. -/
theorem Requesting.slot (hpsa : psa.Sound pairs) (hkin : Kin psa t.idJ t.idR pubJ pubR)
    (h : Requesting pairs t i startUs j r)
    (hj : Plays psa (Oracle.Honest psa pairs pubJ) j sentJ sentR j')
    (hr : Plays psa (Oracle.Honest psa pairs pubR) r sentR sentJ r') :
    ∃ t' sig i' startUs' j₁ r₁, j' = some j₁ ∧ r' = some r₁ ∧ t'.idJ = t.idJ ∧ t'.idR = t.idR ∧
      Responding psa t' pubJ pubR sig i i' startUs startUs' j₁ r₁ := by
  have htx : lgJoinSlotIsTx r = false := by
    rw [lgJoinSlotIsTx, h.window.idle]
    rfl
  have hreq : t.req.msg.length = joinReqLen := by
    simp only [Talk.req, List.length_append, h.opened.nonce, h.opened.pub, hkin.joiner.1]
    rfl
  have hfits : t.req.Fits cfg := by
    refine Mail.fits_clear ?_ (hreq.trans_le (by decide)) rfl
    rw [← List.length_pos_iff, hreq]
    decide
  obtain ⟨htrain, hearly, e, rfl, he, hsent⟩ :=
    (hj.transmits (h.joiner.slotIsTx.trans h.owes)).goes (fun o ho => ho.toWilling) h.joiner
      h.stages hfits (by decide) fun hfin => by cases h.asks.joiner.symm.trans hfin.1
  rw [Nat.zero_mul, Nat.add_zero] at hearly
  obtain ⟨nonceR, pairR, secret, sig, i', startUs', f, rfl, hsince, hanswered, hf, howes, hstages,
      hanswers⟩ :=
    (hr.listens htx).asked (fun _ => id) hpsa hkin h.opened h.ident h.window h.mapped htrain hearly
  obtain ⟨idx, len, air, idle, slot, hhs⟩ := hsent.hs
  have hasks := h.asks.sent hsent
  exact ⟨{ t with nonceR := nonceR, pairR := pairR, secret := secret }, sig, i', startUs', e, f,
    rfl, rfl, rfl, rfl, hanswered, hsince, he, by rw [hhs],
    ⟨hasks.joiner, hasks.nonce, hasks.pub, hasks.priv, hasks.tx⟩, hf, howes, hstages, hanswers⟩

/-- Slot 1 carries `JOIN_RSP`. -/
theorem Responding.slot {sig : Bytes} (hpsa : psa.Opens) (hkin : Kin psa t.idJ t.idR pubJ pubR)
    (h : Responding psa t pubJ pubR sig i i' startUs startUs' j r)
    (hj : Plays psa (Oracle.Honest psa pairs pubJ) j sentJ sentR j')
    (hr : Plays psa (Oracle.Honest psa pairs pubR) r sentR sentJ r') :
    ∃ sigJ j₁ r₁, j' = some j₁ ∧ r' = some r₁ ∧
      Confirming psa t pubJ sigJ i i' startUs startUs' j₁ r₁ := by
  have hlen : (t.rsp sig).msg.length = joinRspLen := by
    simp only [Talk.rsp, List.length_append, h.answered.nonce, h.answered.pub, hkin.router.1,
      h.answered.sigLen]
    rfl
  have hfits : (t.rsp sig).Fits cfg := by
    refine Mail.fits_clear ?_ (hlen.trans_le (by decide)) rfl
    rw [← List.length_pos_iff, hlen]
    decide
  obtain ⟨htrain, -, e, rfl, he, hsent⟩ :=
    (hr.transmits (h.router.slotIsTx.trans h.owes)).goes (fun o ho => ho.toWilling) h.router
      h.stages hfits (by decide) fun hfin => by rcases hfin.2 with ht | ht <;> cases ht
  obtain ⟨sigJ, f, rfl, hf, howes, hstages, hconfirms, hlength, hverifies⟩ :=
    (hj.listens (h.joiner.slotIsTx.trans h.waits)).answered (fun _ => id) hpsa hkin h.answered
      h.joiner h.asks htrain
  obtain ⟨idx, len, air, idle, slot, hhs⟩ := hsent.hs
  exact ⟨sigJ, f, e, rfl, rfl, hlength, hverifies, h.since, hf, howes, hstages, hconfirms, he,
    by rw [hhs], h.answers.sent h.stages.sec hsent⟩

/-- Slot 2 carries `JOIN_CFM`. -/
theorem Confirming.slot {sig : Bytes} (hpsa : psa.Opens) (hkin : Kin psa t.idJ t.idR pubJ pubR)
    (h : Confirming psa t pubJ sig i i' startUs startUs' j r)
    (hj : Plays psa (Oracle.Honest psa pairs pubJ) j sentJ sentR j')
    (hr : Plays psa (Oracle.Honest psa pairs pubR) r sentR sentJ r') :
    ∃ pp j₁ r₁, j' = some j₁ ∧ r' = some r₁ ∧
      Granting psa t pp i i' startUs startUs' j₁ r₁ := by
  have hfits : (t.cfm psa sig).Fits cfg :=
    Mail.fits_sealed (List.ne_nil_of_length_pos (by rw [Talk.cfm, h.length]; decide)) h.length.le
      rfl
  obtain ⟨htrain, -, e, rfl, he, hsent⟩ :=
    (hj.transmits (h.joiner.slotIsTx.trans h.owes)).goes (fun o ho => ho.toWilling) h.joiner
      h.stages hfits (by decide) fun hfin => by cases h.confirms.joiner.symm.trans hfin.1
  obtain ⟨pp, f, rfl, hmap, hf, howes, hstages, hrouter, hkey⟩ :=
    (hr.listens (h.router.slotIsTx.trans h.waits)).confirmed (fun _ => id) hpsa hkin h.router
      h.answers h.length h.verifies htrain
  obtain ⟨idx, len, air, idle, slot, hhs⟩ := hsent.hs
  exact ⟨pp, e, f, rfl, rfl, hmap, h.since, he, by rw [hhs], h.confirms.sent hsent, hf, howes,
    hstages, hrouter, hkey⟩

/-- Slot 3 carries `JOIN_ACK`. -/
theorem Granting.slot {pp : LinkParams} (hpsa : psa.Opens) (hkin : Kin psa t.idJ t.idR pubJ pubR)
    (h : Granting psa t pp i i' startUs startUs' j r)
    (hj : Plays psa (Oracle.Honest psa pairs pubJ) j sentJ sentR j')
    (hr : Plays psa (Oracle.Honest psa pairs pubR) r sentR sentJ r') :
    ∃ j₁ r₁, j' = some j₁ ∧ r' = some r₁ ∧ (j₁.neigh i).addr = t.idR.addr ∧
      (r₁.neigh i').addr = t.idJ.addr ∧ (j₁.neigh i).LinkedWith (r₁.neigh i') := by
  obtain ⟨htrain, hearly, rx, e, hlast, rfl, haddr, hup⟩ :=
    (hr.transmits (h.router.slotIsTx.trans h.owes)).acks (fun o ho => ho.toWilling) h.router
      h.stages h.map h.answers h.key
  obtain ⟨rx', f, hlast', rfl, haddr', hup'⟩ :=
    (hj.listens (h.joiner.slotIsTx.trans h.waits)).linked (fun o ho => ho.toWilling) hpsa hkin
      h.joiner h.confirms h.map htrain fun rx hrx =>
        le_trans (Nat.add_le_add_right h.since _) (hearly rx hrx)
  rw [hlast] at hlast'
  cases hlast'
  exact ⟨f, e, rfl, rfl, haddr', haddr, hup'.linkedWith hup⟩

/-! Nothing happens to the exchange between two slots. -/

variable {d e : Node cfg}

theorem Requesting.apart (h : Requesting pairs t i startUs j r) (hj : Apart j d) (hr : Apart r e) :
    Requesting pairs t i startUs d e :=
  ⟨h.opened, h.joiner.apart hj, by rw [hj.hs, h.owes], h.stages.apart hj,
    h.asks.apart h.joiner.about hj, hr.ident.trans h.ident, hr.window _ h.window,
    hr.mapped h.mapped⟩

theorem Responding.apart {sig : Bytes}
    (h : Responding psa t pubJ pubR sig i i' startUs startUs' j r) (hj : Apart j d)
    (hr : Apart r e) : Responding psa t pubJ pubR sig i i' startUs startUs' d e :=
  ⟨h.answered, h.since, h.joiner.apart hj, by rw [hj.hs, h.waits],
    h.asks.apart h.joiner.about hj, h.router.apart hr, by rw [hr.hs, h.owes], h.stages.apart hr,
    h.answers.apart h.router.about hr⟩

theorem Confirming.apart {sig : Bytes} (h : Confirming psa t pubJ sig i i' startUs startUs' j r)
    (hj : Apart j d) (hr : Apart r e) : Confirming psa t pubJ sig i i' startUs startUs' d e :=
  ⟨h.length, h.verifies, h.since, h.joiner.apart hj, by rw [hj.hs, h.owes], h.stages.apart hj,
    h.confirms.apart h.joiner.about hj, h.router.apart hr, by rw [hr.hs, h.waits],
    h.answers.apart h.router.about hr⟩

theorem Granting.apart {pp : LinkParams} (h : Granting psa t pp i i' startUs startUs' j r)
    (hj : Apart j d) (hr : Apart r e) : Granting psa t pp i i' startUs startUs' d e := by
  have hentry := hr.entry i' h.router.about
  refine ⟨h.map, h.since, h.joiner.apart hj, ?_, h.confirms.apart h.joiner.about hj,
    h.router.apart hr, ?_, h.stages.apart hr, ?_, ?_⟩
  · rw [hj.hs, h.waits]
  · rw [hr.hs, h.owes]
  · rw [hr.hs, h.answers]
  · rw [hentry]
    exact h.key

end

/-! ## Two nodes over the plain library -/

/-- The key pairs that `calm` oracles generate. -/
def plainPairs (p : Bytes × Bytes) : Prop :=
  ∃ k, p = (List.replicate ecPubLen k, List.replicate ecPrivLen k)

theorem plain_sound : Psa.plain.Sound plainPairs := by
  refine ⟨⟨plain_decrypt_encrypt, fun n key nonce aad txt => ?_⟩, ?_⟩
  · simp [Psa.plain, plainTag_length]
  · rintro p q ⟨k, rfl⟩ ⟨l, rfl⟩
    refine ⟨List.replicate ecPrivLen (k ^^^ l), ?_, ?_⟩
    · simp [Psa.plain, ecPrivLen, ecPubLen]
    · simp [Psa.plain, ecPrivLen, ecPubLen, UInt8.xor_comm]

theorem calm_honest (k : UInt8) : (calm k).Honest Psa.plain plainPairs (plainPub k) :=
  ⟨⟨fun _ => rfl, rfl⟩, ⟨k, rfl⟩, fun h => by simp [Psa.plain, calm]⟩

theorem Identity.trusts_of_calm {id : Identity} {cert : Bytes} {addr : Addr} {pub : Bytes}
    (role : UInt8) (hlen : cert.length = certLen) (h : lgSecCertVerify Psa.plain (calm 0) id cert =
      .ok ⟨addr, role, pub⟩) : id.Trusts Psa.plain cert addr pub := by
  refine ⟨hlen, role, fun o ho => ?_⟩
  rw [← h]
  unfold lgSecCertVerify
  rw [ho.calls, ho.calls]
  rfl

theorem plain_kin : Kin Psa.plain (plainIdent 1 1) (plainIdent 2 2) (plainPub 1) (plainPub 2) where
  networkId := rfl
  netid := rfl
  foreign := by decide
  joiner := Identity.trusts_of_calm 1 (by decide +kernel) (by decide +kernel)
  router := Identity.trusts_of_calm 1 (by decide +kernel) (by decide +kernel)

/-- A node that has heard of node 2. -/
def plainJoiner : Node .default :=
  (Node.boot .default (plainIdent 1 1)).setNeigh firstNeigh (.fresh 2)

/-- Node 2, with all of its channels. -/
def plainRouter : Node .default :=
  let c := Node.boot .default (plainIdent 2 2)
  { c with net := { c.net with chanMap := 0xFFFF } }

theorem plainRouter_open : plainRouter.OpenTo 1 := by
  have hjoin : ∀ o, admitJoiner o plainRouter 1 = lgNeighAlloc plainRouter 1 := fun _ => rfl
  refine ⟨rfl, fun o _ => ⟨firstNeigh, ?_, ?_⟩⟩
  · rw [hjoin]
    rfl
  · rw [hjoin]
    decide +kernel

/-- A joiner that starts a handshake towards the open window of a router, neither of them being
refused anything and no frame being lost: in none of the four slots does either end hang, and
after them both have the link, under one key and on one schedule. -/
theorem handshake_links {pairs : Bytes × Bytes → Prop} (hpsa : psa.Sound pairs)
    {idJ idR : Identity} {pubJ pubR : Bytes} (hkin : Kin psa idJ idR pubJ pubR)
    {c j r : Node cfg} {i : Fin cfg.maxNeighbors} {o : Oracle} (ho : o.Honest psa pairs pubJ)
    (hj : c.ident = idJ) (haddr : (c.neigh i).addr = idR.addr)
    (hltk : (c.neigh i).keys.hasLtk = false) (hstart : lgJoinStart o c i = (.ok (), j))
    (hr : r.ident = idR) (hopen : r.OpenTo idJ.addr) (hmap : r.Mapped) {k : ℕ} (hk : k ≤ 4)
    {j' r' : Option (Node cfg)}
    (h : Slots psa (Oracle.Honest psa pairs pubJ) (Oracle.Honest psa pairs pubR) j r k j' r') :
    ∃ d e, j' = some d ∧ r' = some e ∧ (k = 4 → ∃ i', (d.neigh i).addr = idR.addr ∧
      (e.neigh i').addr = idJ.addr ∧ (d.neigh i).LinkedWith (e.neigh i')) := by
  obtain ⟨t, startUs, rfl, rfl, hopened, hengaged, howes, hstages, hasks⟩ :=
    lgJoinStart_asks ho hj haddr hltk hstart
  have h₀ : Requesting pairs t i startUs j r :=
    ⟨hopened, hengaged, howes, hstages, hasks, hr, hopen, hmap⟩
  have hstep : ∀ {k : ℕ} {j' r' : Option (Node cfg)}, Slots psa (Oracle.Honest psa pairs pubJ)
      (Oracle.Honest psa pairs pubR) j r k j' r' → k ≤ 4 →
      ∃ d e, j' = some d ∧ r' = some e ∧ ∃ t' sig pp i' startUs', t'.idJ = t.idJ ∧ t'.idR = t.idR ∧
        match k with
        | 0 => Requesting pairs t i startUs d e
        | 1 => Responding psa t' pubJ pubR sig i i' startUs startUs' d e
        | 2 => Confirming psa t' pubJ sig i i' startUs startUs' d e
        | 3 => Granting psa t' pp i i' startUs startUs' d e
        | _ => (d.neigh i).addr = t.idR.addr ∧ (e.neigh i').addr = t.idJ.addr ∧
          (d.neigh i).LinkedWith (e.neigh i') := by
    intro k j' r' h
    induction h with
    | none => exact fun _ => ⟨j, r, rfl, rfl, t, [], .decode [], i, 0, rfl, rfl, h₀⟩
    | @slot k j₁ j₂ r₁ r₂ j' r' sentJ sentR h hapJ hapR hpj hpr ih =>
      intro hk
      obtain ⟨d, e, hd, he, t', sig, pp, i', startUs', hidJ, hidR, hstage⟩ := ih (by omega)
      cases hd
      cases he
      have hkin' : Kin psa t'.idJ t'.idR pubJ pubR := by
        rw [hidJ, hidR]
        exact hkin
      match k with
      | 0 =>
        obtain ⟨t'', sig, i', startUs', d, e, rfl, rfl, hj, hr, hnext⟩ :=
          (hstage.apart hapJ hapR).slot hpsa hkin hpj hpr
        exact ⟨d, e, rfl, rfl, t'', sig, pp, i', startUs', hj, hr, hnext⟩
      | 1 =>
        obtain ⟨sig, d, e, rfl, rfl, hnext⟩ :=
          (hstage.apart hapJ hapR).slot hpsa.toOpens hkin' hpj hpr
        exact ⟨d, e, rfl, rfl, t', sig, pp, i', startUs', hidJ, hidR, hnext⟩
      | 2 =>
        obtain ⟨pp, d, e, rfl, rfl, hnext⟩ :=
          (hstage.apart hapJ hapR).slot hpsa.toOpens hkin' hpj hpr
        exact ⟨d, e, rfl, rfl, t', sig, pp, i', startUs', hidJ, hidR, hnext⟩
      | 3 =>
        obtain ⟨d, e, rfl, rfl, haddr, haddr', hnext⟩ :=
          (hstage.apart hapJ hapR).slot hpsa.toOpens hkin' hpj hpr
        refine ⟨d, e, rfl, rfl, t', sig, pp, i', startUs', hidJ, hidR, ?_, ?_, hnext⟩
        · rw [haddr, hidR]
        · rw [haddr', hidJ]
      | k + 4 => omega
  obtain ⟨d, e, hd, he, t', sig, pp, i', startUs', -, -, hstage⟩ := hstep h hk
  refine ⟨d, e, hd, he, ?_⟩
  rintro rfl
  exact ⟨i', hstage⟩

theorem handshake_links_plain :
    ∃ d e i', Slots Psa.plain (Oracle.Honest Psa.plain plainPairs (plainPub 1))
        (Oracle.Honest Psa.plain plainPairs (plainPub 2))
        (lgJoinStart (calm 1) plainJoiner firstNeigh).2 plainRouter 4 (some d) (some e) ∧
      (d.neigh firstNeigh).addr = 2 ∧ (e.neigh i').addr = 1 ∧
      (d.neigh firstNeigh).LinkedWith (e.neigh i') := by
  have hok : (lgJoinStart (calm 1) plainJoiner firstNeigh).1 = .ok () := by decide +kernel
  have hmap : plainRouter.Mapped := by
    unfold Node.Mapped
    decide +kernel
  have hstart : lgJoinStart (calm 1) plainJoiner firstNeigh =
      (.ok (), (lgJoinStart (calm 1) plainJoiner firstNeigh).2) := by rw [← hok]
  generalize (lgJoinStart (calm 1) plainJoiner firstNeigh).2 = j at hstart
  obtain ⟨j', r', h⟩ := exists_slots Psa.plain (calm_honest 1) (calm_honest 2) (n := 4)
    fun k hk j' r' h => by
      obtain ⟨d, e, hd, he, -⟩ := handshake_links plain_sound plain_kin (calm_honest 1)
        (c := plainJoiner) rfl rfl rfl hstart rfl plainRouter_open hmap hk.le h
      exact ⟨d, e, hd, he⟩
  obtain ⟨d, e, rfl, rfl, hup⟩ := handshake_links plain_sound plain_kin (calm_honest 1)
    (c := plainJoiner) rfl rfl rfl hstart rfl plainRouter_open hmap le_rfl h
  obtain ⟨i', hi'⟩ := hup rfl
  exact ⟨d, e, i', h, hi'⟩

end LockGrid
