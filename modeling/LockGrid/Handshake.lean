import LockGrid.Vault

/-!
# Handshakes and the key store

What the handshake functions do to the key store, and what has been verified by the time a
link comes up.
-/
namespace LockGrid

variable {cfg : Config} {psa : Psa}

/-- The staged message promises no more than the exchange has earned. -/
structure Hs.Earned (hs : Hs cfg) : Prop where
  rsp : hs.txType = .joinCfm → hs.histRspVerified = true
  cfm : hs.txType = .joinAck → hs.histCfmDone = true
  resume : hs.txType = .resumeRsp → hs.histResumeDone = true

structure Hs.Sound (hs : Hs cfg) : Prop extends hs.Earned where
  /-- No message as short as link parameters is waiting for a further fragment. -/
  short : hs.rx.len = 0 ∨ linkParamsLen < hs.rx.len

/-- A link that comes up on a frame does so at a joiner, on a secured frame, and on a `JOIN_ACK`
only after a `JOIN_CFM`. -/
def LinkUp.Guarded (u : LinkUp) : Prop :=
  u.viaFrame = true →
    u.secured = true ∧ u.joiner = true ∧ (u.type = .joinAck → u.txType = .joinCfm)

/-- What must be behind a link that comes up, at the joiner and at the router. -/
def LinkUp.Authentic (u : LinkUp) : Prop :=
  if u.viaFrame then
    u.joiner = true ∧ u.hasKey = true ∧ (∃ key, u.key = some key ∧ u.sources = [some key]) ∧
      (u.type = .joinAck → u.rspVerified = true)
  else u.joiner = false ∧ (u.cfmDone = true ∨ u.resumeDone = true)

/-- Every link that came up in a guarded way came up authentically. -/
def LinksAuthentic (c : Node cfg) : Prop :=
  ∀ i, (c.neigh i).state = .linked →
    ∃ u, (c.neigh i).histUp = some u ∧ (u.Guarded → u.Authentic)

def Node.Trusted (c : Node cfg) : Prop := c.hs.Sound ∧ LinksAuthentic c

/-- Work on a handshake: the key store takes steps and no link comes up. -/
structure Handled (psa : Psa) (c c' : Node cfg) : Prop where
  steps : Vault.Steps psa c.vault c'.vault
  links : NoNewLink c c'
  ident : c'.ident = c.ident

/-- One stretch of a run of a node. -/
structure Advances (psa : Psa) (c c' : Node cfg) : Prop where
  steps : Vault.Steps psa c.vault c'.vault
  ident : c'.ident = c.ident
  trusted : c.Trusted → c'.Trusted

theorem Hs.Sound.of_credit {hs hs' : Hs cfg} (h : hs'.credit = hs.credit) (hs0 : hs.Sound) :
    hs'.Sound := by
  have ht : hs'.txType = hs.txType := (congrArg Hs.txType h :)
  have hr : hs'.histRspVerified = hs.histRspVerified := (congrArg Hs.histRspVerified h :)
  have hc : hs'.histCfmDone = hs.histCfmDone := (congrArg Hs.histCfmDone h :)
  have hre : hs'.histResumeDone = hs.histResumeDone := (congrArg Hs.histResumeDone h :)
  have hl : hs'.rx = hs.rx := (congrArg Hs.rx h :)
  obtain ⟨⟨rsp, cfm, resume⟩, short⟩ := hs0
  exact ⟨⟨by rwa [ht, hr], by rwa [ht, hc], by rwa [ht, hre]⟩, by rwa [hl]⟩

/-- A context in which nothing has been staged and nothing received. -/
theorem Hs.sound_fresh {hs : Hs cfg} (ht : hs.txType = .beacon) (hrx : hs.rx = {}) : hs.Sound :=
  ⟨⟨by simp [ht], by simp [ht], by simp [ht]⟩, .inl (by rw [hrx])⟩

theorem Hs.sound_empty : ({} : Hs cfg).Sound := Hs.sound_fresh rfl rfl

theorem Works.handled {c c' : Node cfg} (h : Works psa c c') : Handled psa c c' :=
  ⟨h.steps, h.links, h.ident⟩

namespace Handled

variable {c c' c'' : Node cfg}

theorem refl (c : Node cfg) : Handled psa c c := ⟨.refl, .of_neigh_eq rfl, rfl⟩

theorem trans (h : Handled psa c c') (h' : Handled psa c' c'') : Handled psa c c'' :=
  ⟨h.steps.trans h'.steps, h.links.trans h'.links, h'.ident.trans h.ident⟩

theorem of_vault_eq (h : c'.vault = c.vault) (hn : c'.neigh = c.neigh)
    (hid : c'.ident = c.ident) : Handled psa c c' := ⟨h ▸ .refl, .of_neigh_eq hn, hid⟩

theorem of_links (h : c'.vault = c.vault) (hl : NoNewLink c c') (hid : c'.ident = c.ident) :
    Handled psa c c' := ⟨h ▸ .refl, hl, hid⟩

theorem of_step {V : Vault (Fin cfg.maxNeighbors)} (h : Vault.Step psa c.vault V)
    (hv : c'.vault = V) (hl : NoNewLink c c') (hid : c'.ident = c.ident) :
    Handled psa c c' := ⟨.single (hv ▸ h), hl, hid⟩

end Handled

namespace Advances

variable {c c' c'' : Node cfg}

theorem refl (c : Node cfg) : Advances psa c c := ⟨.refl, rfl, id⟩

theorem trans (h : Advances psa c c') (h' : Advances psa c' c'') : Advances psa c c'' :=
  ⟨h.steps.trans h'.steps, h'.ident.trans h.ident, h'.trusted ∘ h.trusted⟩

theorem of_handled (h : Handled psa c c') (hs : c.hs.Sound → c'.hs.Sound) :
    Advances psa c c' := by
  refine ⟨h.steps, h.ident, fun ht => ⟨hs ht.1, fun i hi => ?_⟩⟩
  obtain ⟨hl, hu⟩ := h.links i hi
  rw [hu]
  exact ht.2 i hl

theorem of_works (h : Works psa c c') : Advances psa c c' :=
  .of_handled h.handled (.of_credit h.credit)

end Advances

/-! ## Derivations -/

theorem setKeys_hist_self (c : Node cfg) (i : Fin cfg.maxNeighbors) :
    c.setKeys i (c.neigh i).keys = c := by
  simp [Node.setKeys, Node.setNeigh]

/-- What a derivation of a link key and a long term key comes to. -/
theorem deriveKeys_cases (psa : Psa) (o : Oracle) (c : Node cfg) (i : Fin cfg.maxNeighbors)
    (secret transcript : Bytes) : ∃ k ins ds live,
      Vault.Derived c.hist.live (c.hist.installs.length + 1)
        (some (psa.hkdf secret transcript infoLtk)) (psa.hkdf secret transcript infoLink)
        (c.neigh i).keys k ins ds live ∧
      (deriveKeys psa o c i secret transcript).2 =
        { c.setKeys i k with hist := { c.hist with
          installs := ins ++ c.hist.installs
          live := live
          dealings := ds.map (fun d => (i, (c.neigh i).addr, d)) ++ c.hist.dealings } } := by
  have hnothing : c = { c.setKeys i (c.neigh i).keys with hist := { c.hist with
      installs := [] ++ c.hist.installs
      live := c.hist.live
      dealings := ([] : List Dealing).map (fun d => (i, (c.neigh i).addr, d)) ++
        c.hist.dealings } } := by
    rw [setKeys_hist_self]
    rfl
  unfold deriveKeys lgSecKdf lgSecInstallKey
  by_cases h₁ : o.ok .kdfLink = true
  · by_cases h₂ : o.ok .kdfLtk = true
    · simp only [h₁, h₂, if_true]
      split
      · refine ⟨_, _, _, _, .installed, ?_⟩
        simp [Node.note, Node.setKeys, Node.setNeigh, Vault.saveLtk, Node.destroyKey, destroyed]
      · refine ⟨_, _, _, _, .failed, ?_⟩
        simp [Node.note, Node.setKeys, Node.setNeigh, Vault.saveLtk, Node.destroyKey, destroyed]
    · simp only [h₁, h₂, if_true]
      exact ⟨_, _, _, _, .nothing, hnothing⟩
  · simp only [h₁]
    exact ⟨_, _, _, _, .nothing, hnothing⟩

/-- What a derivation of a resumed key comes to. -/
theorem deriveResumeKey_cases (psa : Psa) (o : Oracle) (c : Node cfg) (i : Fin cfg.maxNeighbors)
    (nonceJ : Bytes) : (deriveResumeKey psa o c i nonceJ).2 = c ∨ ∃ k ins live,
      Vault.Derived c.hist.live (c.hist.installs.length + 1) none
        (psa.hkdf (c.neigh i).keys.ltk
          (resumeSalt c.ident.addr (c.neigh i).addr nonceJ) infoResume)
        (c.neigh i).keys k ins [] live ∧
      (deriveResumeKey psa o c i nonceJ).2 =
        { c.setKeys i k with hist := { c.hist with
          resumeDerived :=
            ((c.neigh i).keys.ltk, nonceJ, (c.neigh i).addr) :: c.hist.resumeDerived
          installs := ins ++ c.hist.installs
          live := live } } := by
  unfold deriveResumeKey lgSecKdf lgSecInstallKey
  by_cases h : o.ok .kdfResume = true
  · right
    simp only [h, if_true]
    split
    · exact ⟨_, _, _, .installed, rfl⟩
    · exact ⟨_, _, _, .failed, rfl⟩
  · left
    simp only [h]
    rfl

theorem lgSecHash_ok {ok : Bool} {m t : Bytes} (h : lgSecHash psa ok m = .ok t) :
    t = psa.sha256 m := by
  unfold lgSecHash at h
  split_ifs at h
  exact (Except.ok.inj h).symm

theorem lgSecEcdh_ok {ok : Bool} {priv pub secret : Bytes}
    (h : lgSecEcdh psa ok priv pub = .ok secret) : psa.ecdh priv pub = some secret := by
  unfold lgSecEcdh at h
  split at h
  · next s hs =>
    split_ifs at h
    rw [hs, Except.ok.inj h]
  · cases h

theorem lgSecVerify_ok {ok : Bool} {pub hash sig : Bytes} {u : Unit}
    (h : lgSecVerify psa ok pub hash sig = .ok u) : psa.verify pub hash sig = true := by
  unfold lgSecVerify at h
  split_ifs at h with _ hv
  exact hv

/-! ## Messages -/

theorem setJoin_works (psa : Psa) (c : Node cfg) (i : Fin cfg.maxNeighbors) (j : JoinInfo) :
    Works psa c (c.setJoin i j) := works_setNeigh c i _ ⟨rfl, rfl⟩ rfl rfl

theorem setJoin_vault (c : Node cfg) (i : Fin cfg.maxNeighbors) (j : JoinInfo) :
    (c.setJoin i j).vault = c.vault := vault_setNeigh_eq c i _ ⟨rfl, rfl⟩

theorem rememberPeer_vault (c : Node cfg) (i : Fin cfg.maxNeighbors) (msg : Bytes)
    (info : CertInfo) : (rememberPeer c i msg info).vault = c.vault := setJoin_vault c i _

theorem rememberPeer_works (psa : Psa) (c : Node cfg) (i : Fin cfg.maxNeighbors) (msg : Bytes)
    (info : CertInfo) : Works psa c (rememberPeer c i msg info) :=
  (setJoin_works psa c i _).trans (.of_quiet (setView_quiet _ i _))

theorem drawNonce_vault (o : Oracle) (c : Node cfg) (i : Fin cfg.maxNeighbors) :
    (drawNonce o c i).vault = { c.vault with nonces := o.nonce :: c.vault.nonces } := by
  have h := vault_setNeigh_eq c i
    { c.neigh i with join := { (c.neigh i).join with nonceLocal := o.nonce } } ⟨rfl, rfl⟩
  exact congrArg (fun V : Vault _ => { V with nonces := o.nonce :: c.hist.nonces }) h

theorem drawNonce_works (psa : Psa) (o : Oracle) (c : Node cfg) (i : Fin cfg.maxNeighbors) :
    Works psa c (drawNonce o c i) := by
  have hj := setJoin_works psa c i { (c.neigh i).join with nonceLocal := o.nonce }
  exact .of_step (.draw c.vault o.nonce) (drawNonce_vault o c i) rfl hj.links rfl
    (hj.table.trans (.of_eq List.suffix_rfl rfl rfl)) hj.kept

theorem drawKeypair_works (psa : Psa) (o : Oracle) (c : Node cfg) :
    Works psa c (drawKeypair o c) := .of_vault_eq rfl rfl rfl rfl

/-- A staged message is backed by what its type stands for. -/
theorem stageMessage_earned {hs : Hs cfg} {t : FrameType} {sec : Bool} {msg : Bytes}
    (hrsp : t = .joinCfm → hs.histRspVerified = true) (hcfm : t = .joinAck → hs.histCfmDone = true)
    (hres : t = .resumeRsp → hs.histResumeDone = true) : (stageMessage hs t sec msg).Earned :=
  ⟨hrsp, hcfm, hres⟩

theorem agreeJoinReq_handled (o : Oracle) (c : Node cfg) (i : Fin cfg.maxNeighbors)
    (msg : Bytes) : Handled psa c (agreeJoinReq psa o c i msg).2 := by
  unfold agreeJoinReq
  split
  · exact .refl c
  · split
    · exact .refl c
    · next info _ =>
      have hr := rememberPeer_works psa c i msg info
      split
      · exact .refl c
      · dsimp only
        split
        · exact hr.handled
        · have hd := hr.trans (drawNonce_works psa o _ i)
          split
          · exact hd.handled
          · have hk := hd.trans (drawKeypair_works psa o _)
            split
            · exact hk.handled
            · split <;> exact hk.handled.trans (setJoin_works psa _ i _).handled

/-- The router once it knows its joiner and has drawn its own part. -/
theorem drawn_facts (o : Oracle) (c : Node cfg) (i : Fin cfg.maxNeighbors) (msg : Bytes)
    (info : CertInfo) (hlen : nonceLen ≤ msg.length) :
    let d := drawKeypair o (drawNonce o (rememberPeer c i msg info) i)
    d.vault = { c.vault with nonces := o.nonce :: c.vault.nonces } ∧
      (d.neigh i).addr = (c.neigh i).addr ∧ (d.neigh i).join.nonceLocal = o.nonce ∧
      (d.neigh i).join.noncePeer.length = nonceLen := by
  refine ⟨?_, ?_, ?_, ?_⟩
  · have h := drawNonce_vault o (rememberPeer c i msg info) i
    rw [rememberPeer_vault] at h
    exact h
  all_goals simp [drawKeypair, drawNonce, rememberPeer, Node.setJoin, Node.setView, Node.setHs]
  exact slice_length _ _ _ (by simpa using hlen)

theorem agreeJoinReq_ok {o : Oracle} {c c' : Node cfg} {i : Fin cfg.maxNeighbors}
    {msg t secret : Bytes} (hpeer : (c.neigh i).addr ≠ c.ident.addr)
    (h : agreeJoinReq psa o c i msg = (.ok (t, secret), c')) :
    c'.vault = { c.vault with nonces := o.nonce :: c.vault.nonces } ∧ NoNewLink c c' ∧
      c'.ident = c.ident ∧ Vault.RouterTranscript psa c.vault i o.nonce t := by
  unfold agreeJoinReq at h
  split at h
  · cases h
  · next hlen =>
    split at h
    · cases h
    · next info _ =>
      obtain ⟨hv, haddr, hlocal, hnlen⟩ := drawn_facts o c i msg info
        (by simp [joinReqLen] at hlen; omega)
      let d := drawKeypair o (drawNonce o (rememberPeer c i msg info) i)
      split at h
      · cases h
      · dsimp only at h
        split at h
        · cases h
        · split at h
          · cases h
          · split at h
            · cases h
            · next t' ht =>
              split at h
              · cases h
              · simp only [Prod.mk.injEq, Except.ok.injEq] at h
                obtain ⟨⟨rfl, rfl⟩, rfl⟩ := h
                have hw := ((rememberPeer_works psa c i msg info).trans
                  (drawNonce_works psa o _ i)).trans (drawKeypair_works psa o _)
                have hj := hw.trans
                  (setJoin_works psa _ i { (d.neigh i).join with transcript := t' })
                rw [haddr, hlocal, hw.ident] at ht
                refine ⟨?_, hj.links, hj.ident, hpeer, ⟨_, _, _, hnlen, lgSecHash_ok ht⟩,
                  o.nonce_length⟩
                rw [← hv]
                exact vault_setNeigh_eq d i _ ⟨rfl, rfl⟩

theorem deriveKeys_fromReq (o : Oracle) (c c' : Node cfg) (i : Fin cfg.maxNeighbors)
    (nonce secret t : Bytes) (hv : c'.vault = { c.vault with nonces := nonce :: c.vault.nonces })
    (hlinks : NoNewLink c c') (hid : c'.ident = c.ident)
    (ht : Vault.RouterTranscript psa c.vault i nonce t) :
    Handled psa c (deriveKeys psa o { c' with hist := { c'.hist with
      reqDerived := c'.hist.reqDerived + 1 } } i secret t).2 := by
  obtain ⟨k, ins, ds, live, hd, h⟩ := deriveKeys_cases psa o { c' with hist := { c'.hist with
      reqDerived := c'.hist.reqDerived + 1 } } i secret t
  have hk : (c'.neigh i).keys = c.vault.keys i := congrFun (congrArg Vault.keys hv) i
  have hlive : c'.hist.live = c.vault.live := congrArg Vault.live hv
  have hinstalls : c'.hist.installs = c.vault.installs := congrArg Vault.installs hv
  have ha : c'.vault.addr i = c.vault.addr i := congrFun (congrArg Vault.addr hv :) i
  rw [hk, hlive, hinstalls] at hd
  have hres : (deriveKeys psa o { c' with hist := { c'.hist with
      reqDerived := c'.hist.reqDerived + 1 } } i secret t).2.vault =
      { c'.vault.set i k with
        reqDerived := c'.vault.reqDerived + 1
        installs := ins ++ c'.vault.installs
        live := live
        dealings := ds.map (fun d => (i, c'.vault.addr i, d)) ++ c'.vault.dealings } := by
    rw [h]
    exact congrArg (fun V : Vault _ => { V with
      reqDerived := c'.hist.reqDerived + 1
      installs := ins ++ c'.hist.installs
      live := live
      dealings := ds.map (fun d => (i, (c'.neigh i).addr, d)) ++ c'.hist.dealings })
      (vault_setKeys c' i k)
  have hstep := Vault.Step.fromReq c.vault i nonce t secret k ins ds live ht hd
  rw [ha, hv] at hres
  refine .of_step hstep hres ?_ (by rw [h]; exact hid)
  rw [h]
  exact hlinks.trans (NoNewLink.setNeigh c' i _ fun hl => ⟨hl, rfl⟩)

/-- `handle_join_req` derives keys at most once, and what it stages is earned. -/
theorem handleJoinReq_handles (psa : Psa) (o : Oracle) (c : Node cfg) (i : Fin cfg.maxNeighbors)
    (msg : Bytes) (hpeer : (c.neigh i).addr ≠ c.ident.addr) :
    Handled psa c (handleJoinReq psa o c i msg).2 ∧
      ((handleJoinReq psa o c i msg).1 = .ok () → (handleJoinReq psa o c i msg).2.hs.Earned) := by
  unfold handleJoinReq
  split
  · next e c' h =>
    exact ⟨congrArg Prod.snd h ▸ agreeJoinReq_handled o c i msg, nofun⟩
  · next t secret c' h =>
    obtain ⟨hv, hlinks, hid, ht⟩ := agreeJoinReq_ok hpeer h
    have hd := deriveKeys_fromReq o c c' i o.nonce secret t hv hlinks hid ht
    dsimp only
    split <;> next he =>
      rw [he] at hd
      first
        | exact ⟨hd, nofun⟩
        | split
          · exact ⟨hd, nofun⟩
          · exact ⟨hd.trans (.of_vault_eq rfl rfl rfl),
              fun _ => stageMessage_earned nofun nofun nofun⟩

theorem lgSecCertVerify_ok {o : Oracle} {id : Identity} {cert : Bytes} {info : CertInfo}
    (h : lgSecCertVerify psa o id cert = .ok info) :
    Vault.Certified psa id.caPub info.addr info.pub := by
  unfold lgSecCertVerify at h
  simp only [bind, Except.bind, throw, throwThe, MonadExceptOf.throw, pure, Except.pure] at h
  split at h
  · cases h
  · split at h
    · cases h
    · split at h
      · cases h
      · next hash hh =>
        split at h
        · cases h
        · next hv =>
          split at h
          · cases h
          · have hi := Except.ok.inj h
            subst hi
            exact ⟨cert, by rw [← lgSecHash_ok hh]; exact lgSecVerify_ok hv, rfl, rfl⟩

/-! ## The joiner's side -/

theorem noteVerified_works (c : Node cfg) (i : Fin cfg.maxNeighbors) {pub transcript sig : Bytes}
    (h : psa.verify pub transcript sig = true) :
    Works psa c (noteVerified c i pub transcript) :=
  .of_step (.verify c.vault ⟨pub, transcript, c.hs.ephPriv, (c.neigh i).join.ephPubPeer⟩ sig h)
    rfl rfl (.of_neigh_eq rfl) rfl (.of_eq List.suffix_rfl rfl rfl) (.of_eq rfl)

theorem agreeJoinRsp_handled (psa : Psa) (o : Oracle) (c : Node cfg) (i : Fin cfg.maxNeighbors)
    (msg : Bytes) : Handled psa c (agreeJoinRsp psa o c i msg).2 := by
  unfold agreeJoinRsp
  split
  · exact .refl c
  · split
    · exact .refl c
    · next info _ =>
      have hr := rememberPeer_works psa c i msg info
      split
      · exact .refl c
      · dsimp only
        split
        · exact hr.handled
        · split
          · exact hr.handled
          · next hv =>
            split <;>
              exact (hr.handled.trans (setJoin_works psa _ i _).handled).trans
                ((noteVerified_works _ i (lgSecVerify_ok hv)).handled.trans
                  (.of_vault_eq rfl rfl rfl))

/-- The joiner after a `JOIN_RSP` it accepts: the exchange is agreed with a certified peer. -/
theorem agreeJoinRsp_ok {o : Oracle} {c c' : Node cfg} {i : Fin cfg.maxNeighbors}
    {msg t secret : Bytes} (hpeer : (c.neigh i).addr ≠ c.ident.addr)
    (h : agreeJoinRsp psa o c i msg = (.ok (t, secret), c')) :
    Handled psa c c' ∧ c'.hs.histRspVerified = true ∧
      ∃ v ∈ c'.vault.verified, v.transcript = t ∧ Vault.JoinerTranscript psa c'.vault i t ∧
        Vault.Agreed psa c'.vault.caPub (c'.vault.addr i) v secret := by
  have hhandled := agreeJoinRsp_handled psa o c i msg
  rw [h] at hhandled
  refine ⟨hhandled, ?_⟩
  unfold agreeJoinRsp at h
  split at h
  · cases h
  · split at h
    · cases h
    · next info hinfo =>
      split at h
      · cases h
      · next haddr =>
        dsimp only at h
        split at h
        · cases h
        · next t' ht =>
          split at h
          · cases h
          · next hv =>
            split at h
            · cases h
            · next s hs =>
              simp only [Prod.mk.injEq, Except.ok.injEq] at h
              obtain ⟨⟨rfl, rfl⟩, rfl⟩ := h
              let d := (rememberPeer c i msg info).setJoin i
                { ((rememberPeer c i msg info).neigh i).join with transcript := t' }
              let v : Verified := ⟨info.pub, t', d.hs.ephPriv, (d.neigh i).join.ephPubPeer⟩
              have hvault : (noteVerified d i info.pub t').vault =
                  { c.vault with verified := v :: c.vault.verified } := by
                have h₁ : d.vault = c.vault :=
                  (setJoin_vault _ i _).trans (rememberPeer_vault c i msg info)
                exact congrArg (fun V : Vault _ => { V with verified := v :: c.hist.verified }) h₁
              have hr : ((rememberPeer c i msg info).neigh i).addr = (c.neigh i).addr := by
                simp [rememberPeer, Node.setJoin, Node.setView]
              have hw := rememberPeer_works psa c i msg info
              rw [hr, hw.ident] at ht
              have hcert := lgSecCertVerify_ok hinfo
              rw [not_ne_iff.mp haddr] at hcert
              refine ⟨rfl, v, ?_, rfl, ?_⟩
              · exact hvault ▸ List.mem_cons_self
              · change Vault.JoinerTranscript psa (noteVerified d i info.pub t').vault i t' ∧
                  Vault.Agreed psa (noteVerified d i info.pub t').vault.caPub
                    ((noteVerified d i info.pub t').vault.addr i) v s
                rw [hvault]
                refine ⟨⟨hpeer, _, _, _, _, lgSecHash_ok ht⟩, hcert, ⟨_, lgSecVerify_ok hv⟩, ?_⟩
                have hpub : (d.neigh i).join.ephPubPeer =
                    ((rememberPeer c i msg info).neigh i).join.ephPubPeer := by
                  simp [d, Node.setJoin]
                rw [show v.ephPubPeer = _ from hpub]
                exact lgSecEcdh_ok hs

theorem handleJoinRsp_handles (psa : Psa) (o : Oracle) (c : Node cfg) (i : Fin cfg.maxNeighbors)
    (msg : Bytes) (hpeer : (c.neigh i).addr ≠ c.ident.addr) :
    Handled psa c (handleJoinRsp psa o c i msg).2 ∧
      ((handleJoinRsp psa o c i msg).1 = .ok () → (handleJoinRsp psa o c i msg).2.hs.Earned) := by
  unfold handleJoinRsp
  split
  · next e c' h =>
    have hd := agreeJoinRsp_handled psa o c i msg
    rw [h] at hd
    exact ⟨hd, nofun⟩
  · next t secret c' h =>
    obtain ⟨hd, hrsp, v, hv, rfl, ht, ha⟩ := agreeJoinRsp_ok hpeer h
    let d : Node cfg :=
      { c' with hist := { c'.hist with rspDerived := v.transcript :: c'.hist.rspDerived } }
    obtain ⟨k, ins, ds, live, hder, hres⟩ := deriveKeys_cases psa o d i secret v.transcript
    have hd' : Handled psa c (deriveKeys psa o d i secret v.transcript).2 := by
      refine hd.trans ?_
      rw [hres]
      exact .of_step (.fromRsp c'.vault i v secret k ins ds live ht hv ha hder)
        (congrArg (fun V : Vault _ => { V with
          rspDerived := v.transcript :: c'.hist.rspDerived
          installs := ins ++ c'.hist.installs
          live := live
          dealings := ds.map (fun d => (i, (c'.neigh i).addr, d)) ++ c'.hist.dealings })
          (vault_setKeys c' i k)) (NoNewLink.setNeigh c' i _ fun hl => ⟨hl, rfl⟩) rfl
    have hhs : (deriveKeys psa o d i secret v.transcript).2.hs = c'.hs := by
      rw [hres]
      rfl
    dsimp only
    split <;> next he =>
      rw [he] at hd' hhs
      first
        | exact ⟨hd', nofun⟩
        | split
          · exact ⟨hd', nofun⟩
          · exact ⟨hd'.trans (.of_vault_eq rfl rfl rfl),
              fun _ => stageMessage_earned (fun _ => hhs ▸ hrsp) nofun nofun⟩

theorem handleJoinCfm_handles (psa : Psa) (o : Oracle) (c : Node cfg) (i : Fin cfg.maxNeighbors)
    (msg : Bytes) : Handled psa c (handleJoinCfm psa o c i msg).2 ∧
      ((handleJoinCfm psa o c i msg).1 = .ok () → (handleJoinCfm psa o c i msg).2.hs.Earned) := by
  unfold handleJoinCfm
  split
  · exact ⟨.refl c, nofun⟩
  · dsimp only
    split
    · exact ⟨.refl c, nofun⟩
    · next hv =>
      exact ⟨(noteVerified_works c i (lgSecVerify_ok hv)).handled.trans (.of_vault_eq rfl rfl rfl),
        fun _ => stageMessage_earned nofun (fun _ => rfl) nofun⟩

theorem handleResumeReq_handles (psa : Psa) (o : Oracle) (c : Node cfg) (i : Fin cfg.maxNeighbors)
    (msg : Bytes) : Handled psa c (handleResumeReq psa o c i msg).2 ∧
      ((handleResumeReq psa o c i msg).1 = .ok () →
        (handleResumeReq psa o c i msg).2.hs.Earned) := by
  unfold handleResumeReq
  split
  · exact ⟨.refl c, nofun⟩
  · next h =>
    obtain ⟨hlen, hltk⟩ : msg.length = nonceLen ∧ (c.neigh i).keys.hasLtk = true := by
      simpa using h
    dsimp only
    let d := c.setJoin i { (c.neigh i).join with noncePeer := msg }
    have hk : (d.neigh i).keys = (c.neigh i).keys := by simp [d, Node.setJoin]
    have hj : Handled psa c d := (setJoin_works psa c i _).handled
    have hd : Handled psa c (deriveResumeKey psa o d i msg).2 := by
      refine hj.trans ?_
      rcases deriveResumeKey_cases psa o d i msg with hr | ⟨k, ins, live, hder, hr⟩
      · rw [hr]
        exact .refl d
      · rw [hr]
        exact .of_step (.resume d.vault i msg k ins live (by rwa [← hk] at hltk) hlen hder)
          (congrArg (fun V : Vault _ => { V with
            resumeDerived := ((d.neigh i).keys.ltk, msg, (d.neigh i).addr) :: d.hist.resumeDerived
            installs := ins ++ d.hist.installs
            live := live }) (vault_setKeys d i k))
          (NoNewLink.setNeigh d i _ fun hl => ⟨hl, rfl⟩) rfl
    split <;> next he =>
      rw [he] at hd
      first
        | exact ⟨hd, nofun⟩
        | exact ⟨hd.trans (.of_vault_eq rfl rfl rfl),
            fun _ => stageMessage_earned nofun nofun (fun _ => rfl)⟩

/-! ## Ends of a handshake -/

theorem joinFail_handled (c : Node cfg) (i : Fin cfg.maxNeighbors) :
    Handled psa c (joinFail c i) := by
  rw [joinFail_eq]
  dsimp only
  split
  · exact .of_step (.fail c.vault i c.hs.resuming)
      (vault_setNeigh ((c.note i (.failed c.hs.resuming)).destroyKey i) i _ rfl)
      (NoNewLink.setNeigh (c.note i (.failed c.hs.resuming)) i _
        fun hl => by split at hl <;> cases hl) rfl
  · exact .of_step (.forget c.vault i) (vault_setNeigh (c.destroyKey i) i _ rfl)
      (NoNewLink.setNeigh c i _ fun hl => by split at hl <;> cases hl) rfl

/-- Giving up the long term key of neighbour `i`. -/
theorem dropLtk_handled (c : Node cfg) (i : Fin cfg.maxNeighbors) :
    Handled psa c ((c.setKeys i { (c.neigh i).keys with hasLtk := false }).note i .dropped) :=
  .of_step (.dropLtk c.vault i)
    (congrArg (fun V : Vault _ => V.note i .dropped) (vault_setKeys c i _))
    (NoNewLink.setNeigh c i _ fun hl => ⟨hl, rfl⟩) rfl

theorem joinFail_advances {c c' : Node cfg} (h : Handled psa c c') (i : Fin cfg.maxNeighbors) :
    Advances psa c (joinFail c' i) :=
  .of_handled (h.trans (joinFail_handled c' i)) fun _ => Hs.sound_empty

theorem settleStep_advances {c : Node cfg} {r : Except Err Unit × Node cfg}
    (i : Fin cfg.maxNeighbors) (h : Handled psa c r.2) (he : r.1 = .ok () → r.2.hs.Earned) :
    Advances psa c (settleStep r i) := by
  obtain ⟨e | u, c'⟩ := r
  · exact joinFail_advances h i
  · exact .of_handled (h.trans (.of_vault_eq rfl rfl rfl))
      fun _ => ⟨⟨(he rfl).rsp, (he rfl).cfm, (he rfl).resume⟩, .inl rfl⟩

/-- A link comes up, backed by the state of the handshake, and the handshake is over. -/
theorem Advances.of_up {c₀ c d c' : Node cfg} {i : Fin cfg.maxNeighbors} {n : Neigh} {u : LinkUp}
    (hc : Handled psa c₀ c) (hu : c₀.hs.Sound → u.Guarded → u.Authentic)
    (hkeys : n.keys = (c.neigh i).keys ∧ n.addr = (c.neigh i).addr) (hup : n.histUp = some u)
    (hd : Node.Quiet (c.setNeigh i n) d) (hv : c'.vault = d.vault) (hhs : c'.hs = {})
    (hn : c'.neigh = d.neigh) (hid : c'.ident = d.ident) : Advances psa c₀ c' := by
  have hvault : c'.vault = c.vault := by
    obtain ⟨net, view, rfl⟩ := hd
    exact hv.trans (vault_setNeigh_eq c i n hkeys)
  have hident : d.ident = c.ident := by
    obtain ⟨net, view, rfl⟩ := hd
    rfl
  refine ⟨hvault ▸ hc.steps, hid.trans (hident.trans hc.ident), fun ht => ⟨?_, fun j hj => ?_⟩⟩
  · rw [hhs]
    exact Hs.sound_empty
  · rw [hn, hd.neigh, Node.setNeigh_neigh] at hj ⊢
    by_cases hji : j = i
    · subst hji
      rw [Function.update_self]
      exact ⟨u, hup, hu ht.1⟩
    · rw [Function.update_of_ne hji] at hj ⊢
      obtain ⟨hl, hup'⟩ := hc.links j hj
      rw [hup']
      exact ht.2 j hl

/-- The router brings its link up once the parameters are on air. -/
theorem finishRouter_advances {o : Oracle} {c c' : Node cfg} {i : Fin cfg.maxNeighbors}
    (hj : c.hs.joiner = false) (ht : c.hs.txType = .joinAck ∨ c.hs.txType = .resumeRsp)
    (h : finishRouter o c i = some c') : Advances psa c c' := by
  obtain ⟨d, hd, rfl⟩ := Option.map_eq_some_iff.mp h
  obtain ⟨s, hq⟩ := lgLinkEstablish_eq hd
  simp only [Node.setNeigh, Function.update_self, Function.update_idem] at hq
  refine .of_up (i := i) (u := linkUpOf c i false c.hs.txType c.hs.txSecured) (.refl c)
    (fun hs _ => ?_) ?_ ?_ hq rfl rfl rfl rfl
  · simp only [LinkUp.Authentic, linkUpOf, Bool.false_eq_true, if_false]
    exact ⟨hj, ht.imp hs.cfm hs.resume⟩
  · exact ⟨rfl, rfl⟩
  · rfl

theorem lgJoinEventFinish_advances {o : Oracle} {c c' : Node cfg}
    (h : lgJoinEventFinish o c = some c') : Advances psa c c' := by
  unfold lgJoinEventFinish at h
  split at h
  · cases h
    exact .of_works (.of_vault_eq rfl rfl rfl rfl)
  · next i _ =>
    split at h
    · cases h
      exact .of_handled (.of_vault_eq rfl rfl rfl) fun _ => Hs.sound_empty
    · split at h
      · next hup =>
        simp only [Bool.and_eq_true, Bool.not_eq_true', Bool.or_eq_true, decide_eq_true_eq] at hup
        exact finishRouter_advances hup.1.1 hup.2 h
      · have hn : Works psa c (c.setHs (nextSlot c.nowUs c.hs)) := .of_vault_eq rfl rfl rfl rfl
        dsimp only at h
        split at h <;> cases h
        · exact joinFail_advances hn.handled i
        · exact .of_works hn

/-! ## Reassembly -/

theorem linkParamsLen_lt_fragCap (cfg : Config) (sec : Bool) : linkParamsLen < fragCap cfg sec := by
  have := cfg.micLen_range
  unfold fragCap
  split_ifs <;> simp [linkParamsLen, pduMax, Config.secOverhead, hdrLenSec, hdrLen, fctrLen,
    fragHdrLen]
  omega

/-- A message as short as link parameters is complete with the fragment that starts it. -/
theorem Xfer.add_short (rx : Xfer) (off idx total : ℕ) (chunk : Bytes) (key : Option Bytes)
    (hidx : idx < total) (hoff : idx ≠ 0 → linkParamsLen < off)
    (hrx : rx.len = 0 ∨ linkParamsLen < rx.len) (hz : idx = 0 → rx = {}) :
    ((rx.add off idx total chunk key).len = 0 ∨
      linkParamsLen < (rx.add off idx total chunk key).len) ∨
    ((rx.add off idx total chunk key).histSources = [key] ∧
      (rx.add off idx total chunk key).fragsSeen = 2 ^ total - 1) := by
  by_cases hlast : idx = total - 1
  · by_cases h0 : idx = 0
    · have hrx0 := hz h0
      have htotal : total = 1 := by omega
      subst hrx0 h0 htotal
      exact .inr ⟨rfl, by simp [Xfer.add]⟩
    · left
      right
      have := hoff h0
      simp only [Xfer.add, if_pos hlast]
      omega
  · left
    simpa only [Xfer.add, if_neg hlast] using hrx

/-- What `reassemble` leaves, with the frame's security bit and whether a message is complete. -/
structure Reassembled (psa : Psa) (i : Fin cfg.maxNeighbors) (sec complete : Bool)
    (c c' : Node cfg) : Prop where
  handled : Handled psa c c'
  earned : c.hs.Earned → c'.hs.Earned
  addr : (c'.neigh i).addr = (c.neigh i).addr
  short : c.hs.Sound → complete = false → c'.hs.Sound
  opened : c.hs.Sound → complete = true → sec = true → c'.hs.rx.len = linkParamsLen →
    (c'.neigh i).keys.hasKey = true ∧
      ∃ key, (c'.neigh i).keys.keyId = some key ∧ c'.hs.rx.histSources = [some key]

theorem Reassembled.of_works {i : Fin cfg.maxNeighbors} {sec complete : Bool} {c c' c'' : Node cfg}
    (h : Works psa c c') (ha : (c'.neigh i).addr = (c.neigh i).addr)
    (hr : Reassembled psa i sec complete c' c'') : Reassembled psa i sec complete c c'' := by
  have hcr := h.credit
  have hs : c.hs.Sound → c'.hs.Sound := .of_credit hcr
  have ht : c'.hs.txType = c.hs.txType := (congrArg Hs.txType hcr :)
  have hrv : c'.hs.histRspVerified = c.hs.histRspVerified := (congrArg Hs.histRspVerified hcr :)
  have hc : c'.hs.histCfmDone = c.hs.histCfmDone := (congrArg Hs.histCfmDone hcr :)
  have hre : c'.hs.histResumeDone = c.hs.histResumeDone := (congrArg Hs.histResumeDone hcr :)
  have he : c.hs.Earned → c'.hs.Earned := fun ⟨rsp, cfm, resume⟩ =>
    ⟨by rwa [ht, hrv], by rwa [ht, hc], by rwa [ht, hre]⟩
  exact ⟨h.handled.trans hr.handled, hr.earned ∘ he, hr.addr.trans ha, hr.short ∘ hs,
    hr.opened ∘ hs⟩

theorem Reassembled.nothing (i : Fin cfg.maxNeighbors) (sec : Bool) (c : Node cfg) :
    Reassembled psa i sec false c c :=
  ⟨.refl c, id, rfl, fun h _ => h, nofun⟩

theorem addFragment_spec (c : Node cfg) (i : Fin cfg.maxNeighbors) (t : FrameType) (sec : Bool)
    (key : Option Bytes) (pdu : Bytes)
    (hkey : sec = true → (c.neigh i).keys.hasKey = true ∧ (∃ k, (c.neigh i).keys.keyId = some k) ∧
      key = (c.neigh i).keys.keyId) :
    Reassembled psa i sec (addFragment c t sec key pdu).1 c (addFragment c t sec key pdu).2 := by
  unfold addFragment
  dsimp only
  generalize (if sec then hdrLenSec else hdrLen) = hdr
  split
  · exact .nothing i sec c
  · split
    · exact .nothing i sec c
    · next hbounds =>
      split
      · exact .nothing i sec c
      · have hcap := linkParamsLen_lt_fragCap cfg sec
        generalize (getByte pdu hdr).toNat = idx at hbounds ⊢
        generalize (getByte pdu (hdr + 1)).toNat = total at hbounds ⊢
        generalize pdu.drop (hdr + fragHdrLen) = chunk
        set base : Xfer := if c.hs.rxType ≠ t ∨ idx = 0 then {} else c.hs.rx with hbase
        have hadd := fun hs : c.hs.Sound => Xfer.add_short base (idx * fragCap cfg sec) idx total
          chunk key (by omega)
          (fun h0 => hcap.trans_le (Nat.le_mul_of_pos_left _ (Nat.pos_of_ne_zero h0)))
          (by rw [hbase]; split_ifs; exacts [.inl rfl, hs.short]) (fun h0 => by simp [hbase, h0])
        refine ⟨.of_vault_eq rfl rfl rfl, fun he => ⟨he.rsp, he.cfm, he.resume⟩, rfl,
          fun hs hc => ⟨⟨hs.rsp, hs.cfm, hs.resume⟩, ?_⟩, fun hs hc hsec hlen => ?_⟩
        · rcases hadd hs with h | ⟨-, hfrags⟩
          · exact h
          · have hz : (base.add (idx * fragCap cfg sec) idx total chunk key).len = 0 := by
              simpa [hfrags] using hc
            exact .inl hz
        · obtain ⟨hk, ⟨k, hkid⟩, hkey'⟩ := hkey hsec
          refine ⟨hk, k, hkid, ?_⟩
          rcases hadd hs with h | ⟨hsrc, -⟩
          · have hlen' : (base.add (idx * fragCap cfg sec) idx total chunk key).len =
                linkParamsLen := hlen
            rw [hlen'] at h
            simp [linkParamsLen] at h
          · rw [← hkid, ← hkey']
            exact hsrc

theorem reassemble_spec (psa : Psa) (o : Oracle) (c : Node cfg) (i : Fin cfg.maxNeighbors)
    (t : FrameType)
    (pdu : Bytes) : Reassembled psa i (secured (getByte pdu offFcf))
      (reassemble psa o c i t pdu).1 c (reassemble psa o c i t pdu).2 := by
  unfold reassemble
  cases hsec : secured (getByte pdu offFcf) with
  | false =>
    rw [if_neg (by simp)]
    exact addFragment_spec c i t false none pdu nofun
  | true =>
    rw [if_pos rfl]
    have hw := lgSecDecrypt_works psa (o.ok .decrypt) c i pdu
    have ha : ((lgSecDecrypt psa (o.ok .decrypt) c i pdu).2.neigh i).addr = (c.neigh i).addr := by
      rcases lgSecDecrypt_cases psa (o.ok .decrypt) c i pdu with h | ⟨r, m, h⟩ <;> rw [h]
      simp [Node.setKeys]
    split <;> next he =>
      rw [he] at hw ha
      first
        | exact .of_works hw ha (.nothing i true _)
        | exact .of_works hw ha (addFragment_spec _ i t true _ _ fun _ =>
            ⟨(lgSecDecrypt_ok he).1, (lgSecDecrypt_ok he).2, rfl⟩)

/-- The joiner's link comes up on the parameters it has been sent. -/
theorem finishJoiner_advances {o : Oracle} {c₀ c c' : Node cfg} {i : Fin cfg.maxNeighbors}
    {t : FrameType} {sec : Bool} {airStartUs : ℕ} (hr : Reassembled psa i sec true c₀ c)
    (h : finishJoiner o c i t sec airStartUs = some c') : Advances psa c₀ c' := by
  unfold finishJoiner at h
  split at h
  · cases h
    exact joinFail_advances hr.handled i
  · next hlen =>
    obtain ⟨d, hd, rfl⟩ := Option.map_eq_some_iff.mp h
    obtain ⟨s, hq⟩ := lgLinkEstablish_eq hd
    simp only [Node.setNeigh, Function.update_self, Function.update_idem] at hq
    refine .of_up (i := i) (u := linkUpOf c i true t sec) hr.handled (fun hs hg => ?_) ?_ ?_ hq
      rfl rfl rfl rfl
    · obtain ⟨hsec, hj, htx⟩ := hg rfl
      obtain ⟨hk, hsrc⟩ := hr.opened hs rfl hsec (not_ne_iff.mp hlen)
      exact ⟨hj, hk, hsrc, fun ht => (hr.earned hs.toEarned).rsp (htx ht)⟩
    · exact ⟨rfl, rfl⟩
    · rfl

theorem handleMessage_advances {o : Oracle} {c₀ c c' : Node cfg} {i : Fin cfg.maxNeighbors}
    {t : FrameType} {sec : Bool} {airStartUs : ℕ} (hr : Reassembled psa i sec true c₀ c)
    (hpeer : (c.neigh i).addr ≠ c.ident.addr) (ht : t.isJoin = true)
    (h : handleMessage psa o c i t sec airStartUs = some c') : Advances psa c₀ c' := by
  unfold handleMessage at h
  dsimp only at h
  cases t with
  | joinReq =>
    cases h
    obtain ⟨hh, he⟩ := handleJoinReq_handles psa o c i c.hs.rx.msg hpeer
    exact settleStep_advances i (hr.handled.trans hh) he
  | joinRsp =>
    cases h
    obtain ⟨hh, he⟩ := handleJoinRsp_handles psa o c i c.hs.rx.msg hpeer
    exact settleStep_advances i (hr.handled.trans hh) he
  | joinCfm =>
    cases h
    obtain ⟨hh, he⟩ := handleJoinCfm_handles psa o c i c.hs.rx.msg
    exact settleStep_advances i (hr.handled.trans hh) he
  | joinAck => exact finishJoiner_advances hr h
  | resumeRsp => exact finishJoiner_advances hr h
  | resumeReq =>
    obtain ⟨hh, he⟩ := handleResumeReq_handles psa o c i c.hs.rx.msg
    dsimp only at h
    split at h <;> next hres =>
      cases h
      rw [hres] at hh he
      first
        | exact settleStep_advances i (hr.handled.trans hh) he
        | exact joinFail_advances (hr.handled.trans (hh.trans (dropLtk_handled _ i))) i
  | beacon | linkReq | linkRsp | data | ack | ctrl => simp [FrameType.isJoin] at ht

/-! ## A received handshake frame -/

theorem lgNeighFree_handled (c : Node cfg) (i : Fin cfg.maxNeighbors) :
    Handled psa c (lgNeighFree c i) := by
  rw [lgNeighFree_eq]
  exact .of_step (.wipe c.vault i 0 _ _ (.inl ⟨rfl, rfl⟩))
    (wipe_vault (c.destroyKey i) i {} {} rfl)
    (NoNewLink.setNeigh c i {} fun hl => by simp at hl) rfl

/-- What is picked out of a list is in it. -/
theorem mem_of_pick {α : Type} {f : Option α → α → Option α}
    (hf : ∀ best x, f best x = best ∨ f best x = some x) {l : List α} {i : α}
    (h : l.foldl f none = some i) : i ∈ l := by
  have hpick : ∀ (l : List α) (s : Option α), l.foldl f s = some i → i ∈ l ∨ s = some i := by
    intro l
    induction l with
    | nil => exact fun s hs => .inr hs
    | cons x l ih =>
      intro s hs
      rcases ih _ hs with hmem | hx
      · exact .inl (List.mem_cons_of_mem x hmem)
      · rcases hf s x with hkeep | htake
        · exact .inr (hkeep ▸ hx)
        · rw [htake] at hx
          cases hx
          exact .inl List.mem_cons_self
  rcases hpick l none h with hmem | hnone
  · exact hmem
  · cases hnone

/-- Room is there, or there is none, or it is made by freeing an entry, after its link was taken
down. -/
theorem lgNeighMakeRoom_cases (o : Oracle) (c : Node cfg) (cost : ℕ) :
    (lgNeighMakeRoom o c cost = (true, c) ∧ ∃ i, (c.neigh i).state = .free) ∨
      lgNeighMakeRoom o c cost = (false, c) ∨
      ∃ i e, ((c.neigh i).state ≠ .linked ∧ e = c ∨ e = lgLinkDown o c i) ∧
        lgNeighMakeRoom o c cost = (true, lgNeighFree e i) := by
  unfold lgNeighMakeRoom
  dsimp only
  split
  · next h =>
    refine .inl ⟨rfl, ?_⟩
    obtain ⟨i, -, hi⟩ := List.any_eq_true.mp h
    exact ⟨i, of_decide_eq_true hi⟩
  · right
    split
    · next i h =>
      have hmem := (List.mem_filter.mp (mem_of_pick (fun best x => ?_) h)).2
      · refine .inr ⟨i, c, .inl ⟨fun hl => ?_, rfl⟩, rfl⟩
        simp [hl] at hmem
      · cases best with
        | none => exact .inr rfl
        | some b =>
          dsimp only
          split_ifs
          · exact .inr rfl
          · exact .inl rfl
    · split
      · exact .inr ⟨_, _, .inr rfl, rfl⟩
      · exact .inl rfl

/-- The other entries do not notice that a link goes down. -/
theorem lgLinkDown_others (o : Oracle) (c : Node cfg) {i j : Fin cfg.maxNeighbors} (h : j ≠ i) :
    (lgLinkDown o c i).neigh j = c.neigh j := by
  rw [lgLinkDown_eq]
  dsimp only
  split
  · rfl
  · rw [(linksChanged_quiet o _).neigh, (lgRouteFlushVia_quiet _ _).neigh]
    simp [Node.setView, h]

theorem lgLinkDown_hs (o : Oracle) (c : Node cfg) (i : Fin cfg.maxNeighbors) :
    (lgLinkDown o c i).hs = c.hs := by
  rw [lgLinkDown_eq]
  dsimp only
  split
  · rfl
  · obtain ⟨net, view, h⟩ := (lgRouteFlushVia_quiet _ _).trans (linksChanged_quiet o _)
    rw [h]
    rfl

theorem lgLinkDown_self (o : Oracle) {c : Node cfg} {i : Fin cfg.maxNeighbors}
    (h : (c.neigh i).state = .linked) : (lgLinkDown o c i).neigh i = (c.neigh i).down := by
  rw [lgLinkDown_eq]
  dsimp only
  rw [if_neg (not_ne_iff.mpr h), (linksChanged_quiet o _).neigh, (lgRouteFlushVia_quiet _ _).neigh]
  simp [Node.setView]

theorem lgLinkDown_downs (psa : Psa) (o : Oracle) {c : Node cfg} {i : Fin cfg.maxNeighbors}
    (h : (c.neigh i).state = .linked) : c.downs i < (lgLinkDown o c i).downs i := by
  rcases (lgLinkDown_works psa o c i).kept i h with hkept | hdown
  · have hstate := hkept.state
    rw [lgLinkDown_self o h] at hstate
    cases hstate
  · exact hdown

theorem lgNeighAlloc_none {c d : Node cfg} {src : Addr} (h : lgNeighAlloc c src = (none, d)) :
    d = c ∧ lgNeighFind c src = none ∧ ∀ i, (c.neigh i).state ≠ .free := by
  rcases lgNeighAlloc_cases c src with ⟨hc, hfull⟩ | ⟨i, -, -, hc⟩ <;> rw [hc] at h
  · obtain ⟨hfind, rfl⟩ := Prod.mk.inj h
    exact ⟨rfl, hfind, hfull hfind⟩
  · cases h

/-- In a full table, the entry that is freed is the one that is made anew. -/
theorem lgNeighAlloc_freed {c e : Node cfg} {src : Addr} {i : Fin cfg.maxNeighbors}
    (hfind : lgNeighFind c src = none) (hfull : ∀ j, (c.neigh j).state ≠ .free)
    (he : ∀ j, j ≠ i → e.neigh j = c.neigh j) :
    lgNeighAlloc (lgNeighFree e i) src =
      (some i, (((lgNeighFree e i).setNeigh i (.fresh src)).setView i .fresh).note i .wiped) := by
  have hothers : ∀ j, j ≠ i → (lgNeighFree e i).neigh j = c.neigh j := by
    intro j hj
    rw [← he j hj]
    simp [lgNeighFree_eq, Node.setView, hj]
  have hi : ((lgNeighFree e i).neigh i).state = .free := by simp [lgNeighFree_eq, Node.setView]
  rcases lgNeighAlloc_cases (lgNeighFree e i) src with ⟨-, hnone⟩ | ⟨k, hk, -, h⟩
  · cases hf : lgNeighFind (lgNeighFree e i) src with
    | none => exact absurd hi (hnone hf i)
    | some k =>
      obtain ⟨hk, haddr, hsrc⟩ := lgNeighFind_spec hf
      have hki : k ≠ i := by
        rintro rfl
        exact hk hi
      rw [hothers k hki] at haddr
      exact absurd haddr (lgNeighFind_none hfind hsrc k (hfull k))
  · have hki : k = i := by
      by_contra hne
      rw [hothers k hne] at hk
      exact hfull k hk
    have hkeyless : ((lgNeighFree e i).neigh i).keys.keyNo = 0 := by
      simp [lgNeighFree_eq, Node.setView]
    rw [h, hki, Node.overwrite_of_keyless hkeyless]

/-- Making room in a full table, and then the entry for the joiner. -/
theorem renewed_works (psa : Psa) {o : Oracle} {c e : Node cfg} {src : Addr}
    {i : Fin cfg.maxNeighbors} (hfind : lgNeighFind c src = none)
    (hfull : ∀ j, (c.neigh j).state ≠ .free)
    (hcases : (c.neigh i).state ≠ .linked ∧ e = c ∨ e = lgLinkDown o c i) :
    Works psa c (lgNeighAlloc (lgNeighFree e i) src).2 := by
  have he : ∀ j, j ≠ i → e.neigh j = c.neigh j := by
    rcases hcases with ⟨-, rfl⟩ | rfl
    · exact fun _ _ => rfl
    · exact fun j hj => lgLinkDown_others o c hj
  have hdown : Works psa c e ∧ e.hs = c.hs ∧
      ((c.neigh i).state = .linked → c.downs i < e.downs i) := by
    rcases hcases with ⟨hi, rfl⟩ | rfl
    · exact ⟨.refl _, rfl, fun h => absurd h hi⟩
    · exact ⟨lgLinkDown_works psa o c i, lgLinkDown_hs o c i, lgLinkDown_downs psa o⟩
  obtain ⟨hw, hhs, hdowns⟩ := hdown
  have hfreed := hw.handled.trans (lgNeighFree_handled e i)
  have halloc := lgNeighAlloc_works psa (lgNeighFree e i) src
  have hlog : e.hist.dealings <:+ (lgNeighFree e i).hist.dealings := List.suffix_cons _ _
  have hothers : ∀ j, j ≠ i →
      ((lgNeighAlloc (lgNeighFree e i) src).2.neigh j) = c.neigh j := by
    intro j hj
    rw [lgNeighAlloc_freed hfind hfull he, ← he j hj]
    simp [lgNeighFree_eq, Node.setView, hj]
  have hself : (lgNeighAlloc (lgNeighFree e i) src).2.neigh i = .fresh src := by
    rw [lgNeighAlloc_freed hfind hfull he]
    simp [Node.setView]
  refine ⟨hfreed.steps.trans halloc.steps, ?_, hfreed.links.trans halloc.links,
    halloc.ident.trans hfreed.ident,
    .renew i ?_ hothers ?_ ?_ (fun ha j hj hfree => ?_) fun hswept => ?_,
    .of_others i hothers fun hl => ?_⟩
  · rw [halloc.credit, (lgNeighFree_rest e i).1]
    exact congrArg Hs.credit hhs
  · exact (hw.table.log.trans hlog).trans halloc.table.log
  · simp [hself, Neigh.fresh]
  · have hwiped := times_note (((e.setNeigh i {}).setView i {})) Dealing.isWiped i i .wiped
    simp only [Dealing.isWiped, decide_true, Bool.and_self, if_true] at hwiped
    have hle := (times_le hw.table.log Dealing.isWiped i).trans_lt (Nat.lt_of_succ_le hwiped.ge)
    exact hle.trans_le (times_le halloc.table.log _ i)
  · rw [hself] at ha ⊢
    exact lgNeighFind_none hfind ha j hfree
  · rw [lgNeighAlloc_freed hfind hfull he]
    exact (hw.table.swept hswept).2
  · exact (hdowns hl).trans_le
      ((times_le hlog _ i).trans (times_le halloc.table.log _ i))

theorem admitJoiner_works (psa : Psa) (o : Oracle) (c : Node cfg) (src : Addr) :
    Works psa c (admitJoiner o c src).2 := by
  have ha := lgNeighAlloc_works psa c src
  unfold admitJoiner
  split <;> next he =>
    rw [he] at ha
    first
      | exact ha
      | obtain ⟨hd, hfind, hfull⟩ := lgNeighAlloc_none he
        rw [hd]
        dsimp only
        rcases lgNeighMakeRoom_cases o c etxOne with ⟨-, i, hi⟩ | h | ⟨i, e, hcases, h⟩
        · exact absurd hi (hfull i)
        · rw [h]
          exact .refl c
        · rw [h, if_pos rfl]
          exact renewed_works psa hfind hfull hcases

theorem lgNeighAlloc_addr {c c' : Node cfg} {src : Addr} {i : Fin cfg.maxNeighbors}
    (h : lgNeighAlloc c src = (some i, c')) : (c'.neigh i).addr = src := by
  rcases lgNeighAlloc_cases c src with ⟨hc, -⟩ | ⟨j, -, -, hc⟩
  · rw [hc] at h
    obtain ⟨hf, rfl⟩ := Prod.mk.inj h
    exact (lgNeighFind_spec hf).2.1
  · rw [hc] at h
    obtain ⟨hj, rfl⟩ := Prod.mk.inj h
    cases hj
    simp [Node.setView, Neigh.fresh]

theorem admitJoiner_addr {o : Oracle} {c c' : Node cfg} {src : Addr} {i : Fin cfg.maxNeighbors}
    (h : admitJoiner o c src = (some i, c')) : (c'.neigh i).addr = src := by
  unfold admitJoiner at h
  split at h
  · next j d he =>
    cases h
    exact lgNeighAlloc_addr he
  · dsimp only at h
    split at h
    · exact lgNeighAlloc_addr h
    · cases h

/-- The context a frame is for, and the entry of its sender. -/
theorem contextFor_advances (psa : Psa) {o : Oracle} {c c' : Node cfg} {t : FrameType} {src : Addr}
    {airStartUs : ℕ} {r : Option (Fin cfg.maxNeighbors)}
    (h : contextFor o c t src airStartUs = (r, c')) :
    Advances psa c c' ∧ ∀ i, r = some i → (c'.neigh i).addr = src := by
  unfold contextFor at h
  split at h
  · split_ifs at h with ha <;> cases h
    · refine ⟨.refl c, fun i hi => ?_⟩
      cases hi
      exact ha
    · exact ⟨.refl c, nofun⟩
  · split at h
    · have hw := admitJoiner_works psa o c src
      split at h
      · next he =>
        rw [he] at hw
        cases h
        exact ⟨.of_works hw, nofun⟩
      · next i d he =>
        rw [he] at hw
        split at h <;> cases h
        · exact ⟨.of_works hw, nofun⟩
        · refine ⟨?_, fun j hj => ?_⟩
          · refine .of_handled (hw.handled.trans ?_) fun _ => Hs.sound_fresh rfl rfl
            exact .of_links (vault_setNeigh_eq _ i _ ⟨rfl, rfl⟩)
              (NoNewLink.setNeigh _ i _ nofun) rfl
          · cases hj
            have ha := admitJoiner_addr he
            simpa [openContext, Node.setHs] using ha
    · cases h
      exact ⟨.refl c, nofun⟩

theorem lgJoinRxPdu_advances {o : Oracle} {c c' : Node cfg} {t : FrameType} {rx : RxRec}
    (hsrc : getLe16 rx.pdu offSrc ≠ c.ident.addr) (ht : t.isJoin = true)
    (h : lgJoinRxPdu psa o c t rx = some c') : Advances psa c c' := by
  unfold lgJoinRxPdu at h
  split at h
  · next d hctx =>
    cases h
    exact (contextFor_advances psa hctx).1
  · next i d hctx =>
    obtain ⟨ha, haddr⟩ := contextFor_advances psa hctx
    have hq := lgNeighRxRssi_quiet d i rx.rssi
    have hr := reassemble_spec psa o (lgNeighRxRssi d i rx.rssi) i t rx.pdu
    have hr' : Reassembled psa i _ _ d _ := .of_works (.of_quiet hq) (by rw [hq.neigh]) hr
    split at h <;> next hre =>
      rw [hre] at hr'
      first
        | cases h
          exact ha.trans (.of_handled hr'.handled fun hs => hr'.short hs rfl)
        | refine ha.trans (handleMessage_advances hr' ?_ ht h)
          rw [hr'.addr, haddr i rfl, hr'.handled.ident, ha.ident]
          exact hsrc

/-! ## Starting a handshake -/

theorem buildJoinReq_handles (o : Oracle) (c : Node cfg) (i : Fin cfg.maxNeighbors) :
    Handled psa c (buildJoinReq o c i).2 ∧
      ((buildJoinReq o c i).1 = .ok () → (buildJoinReq o c i).2.hs.Earned) ∧
      (buildJoinReq o c i).2.hs.rx = c.hs.rx := by
  have hn := drawNonce_works psa o c i
  unfold buildJoinReq
  split
  · exact ⟨.refl c, nofun, rfl⟩
  · dsimp only
    split
    · exact ⟨hn.handled, nofun, rfl⟩
    · exact ⟨(hn.trans (drawKeypair_works psa o _)).handled.trans (.of_vault_eq rfl rfl rfl),
        fun _ => stageMessage_earned nofun nofun nofun, rfl⟩

theorem buildResumeReq_handles (o : Oracle) (c : Node cfg) (i : Fin cfg.maxNeighbors) :
    Handled psa c (buildResumeReq o c i).2 ∧
      ((buildResumeReq o c i).1 = .ok () → (buildResumeReq o c i).2.hs.Earned) ∧
      (buildResumeReq o c i).2.hs.rx = c.hs.rx := by
  have hn := drawNonce_works psa o c i
  unfold buildResumeReq
  split
  · exact ⟨.refl c, nofun, rfl⟩
  · exact ⟨hn.handled.trans (.of_vault_eq rfl rfl rfl),
      fun _ => stageMessage_earned nofun nofun nofun, rfl⟩

theorem drawNonce_keys (o : Oracle) (c : Node cfg) (i : Fin cfg.maxNeighbors) :
    ((drawNonce o c i).neigh i).keys = (c.neigh i).keys := by
  simp [drawNonce, Node.setJoin]

/-- The first message says whether a long term key is held. -/
theorem firstMessage_began {o : Oracle} {c d : Node cfg} {i : Fin cfg.maxNeighbors}
    (h : (if (c.neigh i).keys.hasLtk = true then buildResumeReq o c i else buildJoinReq o c i) =
      (.ok (), d)) :
    d.hs.txType = if (d.neigh i).keys.hasLtk then .resumeReq else .joinReq := by
  have hkeys := drawNonce_keys o c i
  split at h
  · next hltk =>
    unfold buildResumeReq at h
    split at h <;> cases h
    simp [Node.setHs, stageMessage, hkeys, hltk]
  · next hltk =>
    unfold buildJoinReq at h
    dsimp only at h
    split at h
    · cases h
    · split at h <;> cases h
      simp [Node.setHs, stageMessage, drawKeypair, hkeys, hltk]

theorem began_handled {c : Node cfg} (i : Fin cfg.maxNeighbors)
    (h : c.hs.txType = if (c.neigh i).keys.hasLtk then .resumeReq else .joinReq) :
    Handled psa c
      ((c.setNeigh i { c.neigh i with state := .joining }).note i (.began c.hs.txType)) := by
  have hv := vault_setNeigh_eq c i { c.neigh i with state := .joining } ⟨rfl, rfl⟩
  rw [h]
  exact .of_step (.begin c.vault i) (congrArg (fun V : Vault _ => V.note i (.began _)) hv)
    (NoNewLink.setNeigh c i _ nofun) rfl

theorem lgJoinStart_advances (psa : Psa) (o : Oracle) (c : Node cfg) (i : Fin cfg.maxNeighbors) :
    Advances psa c (lgJoinStart o c i).2 := by
  unfold lgJoinStart
  dsimp only
  split
  · exact .refl c
  · split
    · exact .refl c
    · split
      · exact .refl c
      · next j _ =>
        have hj := setJoin_works psa c i j
        split
        · exact .of_works hj
        · split
          · exact .of_works hj
          · let d : Node cfg := (c.setJoin i j).setHs {
              n := some i
              joiner := true
              t0Us := j.joinNextUs + j.joinSpreadUs
              resuming := (c.neigh i).keys.hasLtk
              slotLimit := slotLimit (c.neigh i).keys.hasLtk }
            have hd : Handled psa c d := hj.handled.trans (.of_vault_eq rfl rfl rfl)
            obtain ⟨r, hr⟩ : ∃ r, r = if (c.neigh i).keys.hasLtk = true then buildResumeReq o d i
              else buildJoinReq o d i := ⟨_, rfl⟩
            have hkeys : (d.neigh i).keys = (c.neigh i).keys := by
              simp [d, Node.setJoin, Node.setHs]
            have hspec : Handled psa d r.2 ∧ (r.1 = .ok () → r.2.hs.Earned) ∧
                r.2.hs.rx = d.hs.rx := by
              rw [hr]
              split
              · exact buildResumeReq_handles o d i
              · exact buildJoinReq_handles o d i
            rw [← hr]
            rw [← hkeys] at hr
            obtain ⟨hh, he, hrx⟩ := hspec
            obtain ⟨e | u, d'⟩ := r
            · exact joinFail_advances (hd.trans hh) i
            · refine .of_handled (hd.trans (hh.trans ?_)) fun _ => ⟨he rfl, .inl ?_⟩
              · exact began_handled i (firstMessage_began hr.symm)
              · exact congrArg Xfer.len hrx

end LockGrid
