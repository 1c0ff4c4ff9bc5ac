import LockGrid.Provenance

/-!
# The table under a handshake

A handshake is about one entry of the table that is in use and not linked. Its messages change
that entry alone, and only its start can be at the expense of a link.
-/
namespace LockGrid

variable {cfg : Config} {psa : Psa}

/-- Work on entry `i` that leaves its place in the table as it is. -/
structure Tends (i : Fin cfg.maxNeighbors) (c c' : Node cfg) : Prop where
  log : c.hist.dealings <:+ c'.hist.dealings
  others : ∀ j, j ≠ i → c'.neigh j = c.neigh j
  state : (c'.neigh i).state = (c.neigh i).state
  addr : (c'.neigh i).addr = (c.neigh i).addr
  about : c'.hs.n = c.hs.n
  lost : c'.hist.lost = c.hist.lost

/-- Work on entry `i` that may end the handshake about it. -/
structure Serves (i : Fin cfg.maxNeighbors) (c c' : Node cfg) : Prop where
  log : c.hist.dealings <:+ c'.hist.dealings
  others : ∀ j, j ≠ i → c'.neigh j = c.neigh j
  occupied : (c.neigh i).state ≠ .free → (c'.neigh i).state ≠ .free
  addr : (c'.neigh i).addr = (c.neigh i).addr
  about : c'.hs.n = none ∨
    c'.hs.n = c.hs.n ∧ ((c'.neigh i).state = .linked → (c.neigh i).state = .linked)
  lost : c'.hist.lost = c.hist.lost

variable {c c' c'' : Node cfg} {i : Fin cfg.maxNeighbors}

namespace Tends

theorem refl (i : Fin cfg.maxNeighbors) (c : Node cfg) : Tends i c c :=
  ⟨List.suffix_rfl, fun _ _ => rfl, rfl, rfl, rfl, rfl⟩

theorem trans (h : Tends i c c') (h' : Tends i c' c'') : Tends i c c'' :=
  ⟨h.log.trans h'.log, fun j hj => (h'.others j hj).trans (h.others j hj),
    h'.state.trans h.state, h'.addr.trans h.addr, h'.about.trans h.about, h'.lost.trans h.lost⟩

theorem of_eq (hn : c'.neigh = c.neigh) (hlog : c.hist.dealings <:+ c'.hist.dealings)
    (hab : c'.hs.n = c.hs.n) (hlost : c'.hist.lost = c.hist.lost) : Tends i c c' :=
  ⟨hlog, fun j _ => congrFun hn j, by rw [hn], by rw [hn], hab, hlost⟩

theorem of_quiet (h : Node.Quiet c c') : Tends i c c' := by
  obtain ⟨net, view, rfl⟩ := h
  exact of_eq rfl List.suffix_rfl rfl rfl

theorem of_update {n : Neigh} (hn : c'.neigh = Function.update c.neigh i n)
    (hlog : c.hist.dealings <:+ c'.hist.dealings) (hstate : n.state = (c.neigh i).state)
    (haddr : n.addr = (c.neigh i).addr) (hab : c'.hs.n = c.hs.n)
    (hlost : c'.hist.lost = c.hist.lost) : Tends i c c' := by
  refine ⟨hlog, fun j hj => ?_, ?_, ?_, hab, hlost⟩
  · rw [hn, Function.update_of_ne hj]
  · rw [hn, Function.update_self, hstate]
  · rw [hn, Function.update_self, haddr]

theorem serves (h : Tends i c c') : Serves i c c' :=
  ⟨h.log, h.others, fun hi => by rwa [h.state], h.addr, .inr ⟨h.about, fun hl => h.state ▸ hl⟩,
    h.lost⟩

theorem serving (h : Tends i c c') (h' : Serves i c' c'') : Serves i c c'' := by
  refine ⟨h.log.trans h'.log, fun j hj => (h'.others j hj).trans (h.others j hj), fun hi => ?_,
    h'.addr.trans h.addr, h'.about.imp_right fun ⟨hab, hs⟩ => ⟨hab.trans h.about, h.state ▸ hs⟩,
    h'.lost.trans h.lost⟩
  exact h'.occupied (by rwa [h.state])

end Tends

/-! ## Messages -/

theorem setJoin_tends (c : Node cfg) (i : Fin cfg.maxNeighbors) (j : JoinInfo) :
    Tends i c (c.setJoin i j) := .of_update rfl List.suffix_rfl rfl rfl rfl rfl

theorem setHs_tends (i : Fin cfg.maxNeighbors) {hs : Hs cfg} (h : hs.n = c.hs.n) :
    Tends i c (c.setHs hs) := .of_eq rfl List.suffix_rfl h rfl

theorem rememberPeer_tends (c : Node cfg) (i : Fin cfg.maxNeighbors) (msg : Bytes)
    (info : CertInfo) : Tends i c (rememberPeer c i msg info) :=
  (setJoin_tends c i _).trans (.of_eq rfl List.suffix_rfl rfl rfl)

theorem drawNonce_tends (o : Oracle) (c : Node cfg) (i : Fin cfg.maxNeighbors) :
    Tends i c (drawNonce o c i) := (setJoin_tends c i _).trans (.of_eq rfl List.suffix_rfl rfl rfl)

theorem drawKeypair_tends (o : Oracle) (c : Node cfg) (i : Fin cfg.maxNeighbors) :
    Tends i c (drawKeypair o c) := .of_eq rfl List.suffix_rfl rfl rfl

theorem deriveKeys_tends (psa : Psa) (o : Oracle) (c : Node cfg) (i : Fin cfg.maxNeighbors)
    (secret transcript : Bytes) : Tends i c (deriveKeys psa o c i secret transcript).2 := by
  obtain ⟨k, ins, ds, live, -, h⟩ := deriveKeys_cases psa o c i secret transcript
  rw [h]
  exact .of_update rfl (List.suffix_append _ _) rfl rfl rfl rfl

theorem deriveResumeKey_tends (psa : Psa) (o : Oracle) (c : Node cfg) (i : Fin cfg.maxNeighbors)
    (nonceJ : Bytes) : Tends i c (deriveResumeKey psa o c i nonceJ).2 := by
  rcases deriveResumeKey_cases psa o c i nonceJ with h | ⟨k, ins, live, -, h⟩ <;> rw [h]
  · exact .refl i c
  · exact .of_update rfl List.suffix_rfl rfl rfl rfl rfl

theorem agreeJoinReq_tends (psa : Psa) (o : Oracle) (c : Node cfg) (i : Fin cfg.maxNeighbors)
    (msg : Bytes) : Tends i c (agreeJoinReq psa o c i msg).2 := by
  unfold agreeJoinReq
  split
  · exact .refl i c
  · split
    · exact .refl i c
    · next info _ =>
      have hr := rememberPeer_tends c i msg info
      split
      · exact .refl i c
      · dsimp only
        split
        · exact hr
        · have hd := hr.trans (drawNonce_tends o _ i)
          split
          · exact hd
          · have hk := hd.trans (drawKeypair_tends o _ i)
            split
            · exact hk
            · split <;> exact hk.trans (setJoin_tends _ i _)

theorem handleJoinReq_tends (psa : Psa) (o : Oracle) (c : Node cfg) (i : Fin cfg.maxNeighbors)
    (msg : Bytes) : Tends i c (handleJoinReq psa o c i msg).2 := by
  have ha := agreeJoinReq_tends psa o c i msg
  unfold handleJoinReq
  split
  · next he =>
    rw [he] at ha
    exact ha
  · next t secret d he =>
    rw [he] at ha
    let e : Node cfg := { d with hist := { d.hist with reqDerived := d.hist.reqDerived + 1 } }
    have he : Tends i c e := ha.trans (.of_eq rfl List.suffix_rfl rfl rfl)
    have hd := he.trans (deriveKeys_tends psa o e i secret t)
    dsimp only
    split <;> next hk =>
      rw [hk] at hd
      first
        | exact hd
        | split
          · exact hd
          · exact hd.trans (setHs_tends i rfl)

theorem agreeJoinRsp_tends (psa : Psa) (o : Oracle) (c : Node cfg) (i : Fin cfg.maxNeighbors)
    (msg : Bytes) : Tends i c (agreeJoinRsp psa o c i msg).2 := by
  unfold agreeJoinRsp
  split
  · exact .refl i c
  · split
    · exact .refl i c
    · next info _ =>
      have hr := rememberPeer_tends c i msg info
      split
      · exact .refl i c
      · dsimp only
        split
        · exact hr
        · split
          · exact hr
          · split <;>
              exact (hr.trans (setJoin_tends _ i _)).trans (.of_eq rfl List.suffix_rfl rfl rfl)

theorem handleJoinRsp_tends (psa : Psa) (o : Oracle) (c : Node cfg) (i : Fin cfg.maxNeighbors)
    (msg : Bytes) : Tends i c (handleJoinRsp psa o c i msg).2 := by
  have ha := agreeJoinRsp_tends psa o c i msg
  unfold handleJoinRsp
  split
  · next he =>
    rw [he] at ha
    exact ha
  · next t secret d he =>
    rw [he] at ha
    let e : Node cfg := { d with hist := { d.hist with rspDerived := t :: d.hist.rspDerived } }
    have he : Tends i c e := ha.trans (.of_eq rfl List.suffix_rfl rfl rfl)
    have hd := he.trans (deriveKeys_tends psa o e i secret t)
    dsimp only
    split <;> next hk =>
      rw [hk] at hd
      first
        | exact hd
        | split
          · exact hd
          · exact hd.trans (setHs_tends i rfl)

theorem handleJoinCfm_tends (psa : Psa) (o : Oracle) (c : Node cfg) (i : Fin cfg.maxNeighbors)
    (msg : Bytes) : Tends i c (handleJoinCfm psa o c i msg).2 := by
  unfold handleJoinCfm
  split
  · exact .refl i c
  · dsimp only
    split
    · exact .refl i c
    · exact .of_eq rfl List.suffix_rfl rfl rfl

theorem handleResumeReq_tends (psa : Psa) (o : Oracle) (c : Node cfg) (i : Fin cfg.maxNeighbors)
    (msg : Bytes) : Tends i c (handleResumeReq psa o c i msg).2 := by
  unfold handleResumeReq
  split
  · exact .refl i c
  · dsimp only
    have hj := setJoin_tends c i { (c.neigh i).join with noncePeer := msg }
    have hd := hj.trans (deriveResumeKey_tends psa o _ i msg)
    split <;> next he =>
      rw [he] at hd
      first
        | exact hd
        | exact hd.trans (setHs_tends i rfl)

theorem buildJoinReq_tends (o : Oracle) (c : Node cfg) (i : Fin cfg.maxNeighbors) :
    Tends i c (buildJoinReq o c i).2 := by
  have hn := drawNonce_tends o c i
  unfold buildJoinReq
  split
  · exact .refl i c
  · dsimp only
    split
    · exact hn
    · exact (hn.trans (drawKeypair_tends o _ i)).trans (setHs_tends i rfl)

theorem buildResumeReq_tends (o : Oracle) (c : Node cfg) (i : Fin cfg.maxNeighbors) :
    Tends i c (buildResumeReq o c i).2 := by
  unfold buildResumeReq
  split
  · exact .refl i c
  · exact (drawNonce_tends o c i).trans (setHs_tends i rfl)

theorem addFragment_tends (c : Node cfg) (i : Fin cfg.maxNeighbors) (t : FrameType) (sec : Bool)
    (key : Option Bytes) (pdu : Bytes) : Tends i c (addFragment c t sec key pdu).2 := by
  unfold addFragment
  dsimp only
  split_ifs
  all_goals
    first
      | exact .refl i c
      | exact setHs_tends i rfl

theorem reassemble_tends (psa : Psa) (o : Oracle) (c : Node cfg) (i : Fin cfg.maxNeighbors)
    (t : FrameType) (pdu : Bytes) : Tends i c (reassemble psa o c i t pdu).2 := by
  have hdec : Tends i c (lgSecDecrypt psa (o.ok .decrypt) c i pdu).2 := by
    rcases lgSecDecrypt_cases psa (o.ok .decrypt) c i pdu with h | ⟨r, m, h⟩ <;> rw [h]
    · exact .refl i c
    · exact .of_update rfl List.suffix_rfl rfl rfl rfl rfl
  unfold reassemble
  split
  · split <;> next he =>
      rw [he] at hdec
      first
        | exact hdec
        | exact hdec.trans (addFragment_tends _ i t true _ _)
  · exact addFragment_tends c i t false none pdu

/-! ## Ends of a handshake -/

theorem joinFail_serves (c : Node cfg) (i : Fin cfg.maxNeighbors) : Serves i c (joinFail c i) := by
  have hlog : c.hist.dealings <:+ (joinFail c i).hist.dealings := by
    rw [joinFail_eq]
    dsimp only
    split
    · exact List.suffix_cons _ _
    · exact List.suffix_rfl
  have hneigh : ∃ n : Neigh, (joinFail c i).neigh = Function.update c.neigh i n ∧
      n.state ≠ .free ∧ n.addr = (c.neigh i).addr := by
    rw [joinFail_eq]
    dsimp only
    split
    all_goals
      refine ⟨_, rfl, ?_, rfl⟩
      dsimp only
      split <;> simp
  obtain ⟨n, hn, hfree, haddr⟩ := hneigh
  have hlost : (joinFail c i).hist.lost = c.hist.lost := by
    rw [joinFail_eq]
    dsimp only
    split <;> rfl
  refine ⟨hlog, fun j hj => ?_, fun _ => ?_, ?_, .inl rfl, hlost⟩
  · rw [hn, Function.update_of_ne hj]
  · rwa [hn, Function.update_self]
  · rw [hn, Function.update_self, haddr]

theorem settleStep_serves {r : Except Err Unit × Node cfg} (h : Tends i c r.2) :
    Serves i c (settleStep r i) := by
  obtain ⟨e | u, d⟩ := r
  · exact h.serving (joinFail_serves d i)
  · refine (h.trans ?_).serves
    exact setHs_tends i rfl

/-- The link comes up and the handshake is over. -/
theorem lgLinkEstablish_serves {o : Oracle} {n : Neigh} {pp : LinkParams} {initiator : Bool}
    {d : Node cfg} (haddr : n.addr = (c.neigh i).addr)
    (h : lgLinkEstablish o (c.setNeigh i n) i pp initiator = some d) (hn : c'.neigh = d.neigh)
    (hlog : c'.hist = d.hist) (hhs : c'.hs = {}) : Serves i c c' := by
  obtain ⟨s, net, view, rfl⟩ := lgLinkEstablish_eq h
  refine ⟨?_, fun j hj => ?_, fun _ => ?_, ?_, .inl (by rw [hhs]), ?_⟩
  · rw [hlog]
    exact List.suffix_rfl
  · simp [hn, hj]
  · simp [hn]
  · simp [hn, haddr]
  · rw [hlog]
    rfl

theorem finishRouter_serves {o : Oracle} (h : finishRouter o c i = some c') : Serves i c c' := by
  unfold finishRouter at h
  dsimp only at h
  obtain ⟨d, hd, rfl⟩ := Option.map_eq_some_iff.mp h
  refine lgLinkEstablish_serves ?_ hd rfl rfl rfl
  rfl

theorem finishJoiner_serves {o : Oracle} {t : FrameType} {sec : Bool} {airStartUs : ℕ}
    (h : finishJoiner o c i t sec airStartUs = some c') : Serves i c c' := by
  unfold finishJoiner at h
  split at h
  · cases h
    exact joinFail_serves c i
  · obtain ⟨d, hd, rfl⟩ := Option.map_eq_some_iff.mp h
    refine lgLinkEstablish_serves ?_ hd rfl rfl rfl
    rfl

theorem handleMessage_serves {o : Oracle} {t : FrameType} {sec : Bool} {airStartUs : ℕ}
    (h : handleMessage psa o c i t sec airStartUs = some c') : Serves i c c' := by
  unfold handleMessage at h
  dsimp only at h
  cases t with
  | joinReq =>
    cases h
    exact settleStep_serves (handleJoinReq_tends psa o c i _)
  | joinRsp =>
    cases h
    exact settleStep_serves (handleJoinRsp_tends psa o c i _)
  | joinCfm =>
    cases h
    exact settleStep_serves (handleJoinCfm_tends psa o c i _)
  | joinAck => exact finishJoiner_serves h
  | resumeRsp => exact finishJoiner_serves h
  | resumeReq =>
    have hr := handleResumeReq_tends psa o c i c.hs.rx.msg
    dsimp only at h
    split at h
    · next d he =>
      rw [he] at hr
      cases h
      have hdrop : Tends i d
          ((d.setKeys i { (d.neigh i).keys with hasLtk := false }).note i .dropped) :=
        .of_update rfl (List.suffix_cons _ _) rfl rfl rfl rfl
      exact (hr.trans hdrop).serving (joinFail_serves _ i)
    · next d he =>
      rw [he] at hr
      cases h
      exact settleStep_serves hr
  | beacon | linkReq | linkRsp | data | ack | ctrl =>
    cases h
    exact (Tends.refl i c).serves

/-! ## Stretches of a run -/

/-- What a stretch of a run leaves, and unless links were disturbed, that they are kept. -/
structure Stretch (undisturbed : Prop) (c c' : Node cfg) : Prop where
  owned : Owned c c'
  about : c'.HsUnlinked
  kept : undisturbed → LinksKept c c'

/-- A stretch in which the node is not started. -/
structure Upkept (undisturbed : Prop) (c c' : Node cfg) : Prop extends
    Stretch undisturbed c c' where
  swept : StaysSwept c c'

variable {u : Prop}

theorem Stretch.trans (h : Stretch u c c') (h' : Stretch u c' c'') : Stretch u c c'' :=
  ⟨h.owned.trans h'.owned, h'.about,
    fun hu => (h.kept hu).trans (h'.kept hu) h.owned.log h'.owned.log⟩

namespace Upkept

theorem of_table (ht : TableKept c c') (hab : c'.HsUnlinked) (hk : u → LinksKept c c') :
    Upkept u c c' := ⟨⟨ht.toOwned, hab, hk⟩, ht.swept⟩

theorem refl (h : c.HsUnlinked) : Upkept u c c := .of_table (.refl c) h fun _ => .refl c

theorem trans (h : Upkept u c c') (h' : Upkept u c' c'') : Upkept u c c'' :=
  ⟨h.toStretch.trans h'.toStretch, h.swept.trans h'.swept⟩

theorem of_works (hc : c.HsUnlinked) (h : Works psa c c') : Upkept u c c' := by
  refine .of_table h.table (fun i hi => ?_) fun _ => h.kept
  have hn : c'.hs.n = c.hs.n := (congrArg Hs.n h.credit :)
  obtain ⟨hfree, hlinked⟩ := hc i (hn ▸ hi)
  exact ⟨h.table.occupied i hfree, fun hl => hlinked (h.links i hl).1⟩

theorem of_serves (hc : c.HsUnlinked) (hfree : (c.neigh i).state ≠ .free)
    (hlinked : (c.neigh i).state ≠ .linked) (h : Serves i c c') : Upkept u c c' := by
  have hswept : StaysSwept c c' :=
    .of_others i h.others (fun hi => absurd hi (h.occupied hfree)) fun _ => h.lost
  refine .of_table (.of_same h.log (fun j => ?_) (fun j => ?_) hswept) (fun j hj => ?_)
    fun _ => .of_others i h.others fun hl => absurd hl hlinked
  · by_cases hji : j = i
    · subst hji
      exact iff_of_false (h.occupied hfree) hfree
    · rw [h.others j hji]
  · by_cases hji : j = i
    · exact hji ▸ h.addr
    · rw [h.others j hji]
  · rcases h.about with hnone | ⟨hsame, hstate⟩
    · rw [hnone] at hj
      cases hj
    · by_cases hji : j = i
      · subst hji
        exact ⟨h.occupied hfree, fun hl => hlinked (hstate hl)⟩
      · rw [h.others j hji]
        exact hc j (hsame ▸ hj)

/-- The handshake is made one about entry `i`. -/
theorem of_about {hs : Hs cfg} (hn : hs.n = some i) (hfree : (c.neigh i).state ≠ .free)
    (hlinked : (c.neigh i).state ≠ .linked) : Upkept u c (c.setHs hs) := by
  have htable : TableKept c (c.setHs hs) := .of_eq List.suffix_rfl rfl rfl
  refine .of_table htable (fun j hj => ?_) fun _ => .of_eq rfl
  have hji : j = i := by
    simpa [Node.setHs, hn, eq_comm] using hj
  subst hji
  exact ⟨hfree, hlinked⟩

end Upkept

theorem lgJoinStart_upkept (o : Oracle) (hc : c.HsUnlinked) (hfree : (c.neigh i).state ≠ .free) :
    Upkept u c (lgJoinStart o c i).2 := by
  unfold lgJoinStart
  dsimp only
  split
  · exact .refl hc
  · split
    · exact .refl hc
    · next hlinked =>
      split
      · exact .refl hc
      · next j _ =>
        have hj := setJoin_tends c i j
        have hset : Upkept u c (c.setJoin i j) := .of_serves hc hfree hlinked hj.serves
        split
        · exact hset
        · split
          · exact hset
          · let hs : Hs cfg := {
              n := some i
              joiner := true
              t0Us := j.joinNextUs + j.joinSpreadUs
              resuming := (c.neigh i).keys.hasLtk
              slotLimit := slotLimit (c.neigh i).keys.hasLtk }
            let d : Node cfg := (c.setJoin i j).setHs hs
            rw [← hj.state] at hfree hlinked
            have hd : Upkept u c d := hset.trans (.of_about rfl hfree hlinked)
            obtain ⟨r, hr⟩ : ∃ r, r = if (c.neigh i).keys.hasLtk = true then buildResumeReq o d i
              else buildJoinReq o d i := ⟨_, rfl⟩
            have ht : Tends i d r.2 := by
              rw [hr]
              split
              · exact buildResumeReq_tends o d i
              · exact buildJoinReq_tends o d i
            rw [← hr]
            obtain ⟨e | v, d'⟩ := r
            · exact hd.trans (.of_serves hd.about hfree hlinked (ht.serving (joinFail_serves d' i)))
            · refine hd.trans (.of_serves hd.about hfree hlinked (ht.serving ?_))
              refine ⟨List.suffix_cons _ _, fun j hj => ?_, fun _ => ?_, ?_, .inr ⟨rfl, ?_⟩, rfl⟩
              · simp [hj]
              · simp
              · simp
              · simp

theorem lgJoinEventFinish_upkept {o : Oracle} (hc : c.HsUnlinked)
    (h : lgJoinEventFinish o c = some c') : Upkept u c c' := by
  unfold lgJoinEventFinish at h
  split at h
  · next hnone =>
    have htable : TableKept c { c with net := { c.net with joinWinUs := 0 } } :=
      .of_eq List.suffix_rfl rfl rfl
    cases h
    exact .of_table htable hc fun _ => .of_eq rfl
  · next i hsome =>
    obtain ⟨hfree, hlinked⟩ := hc i hsome
    refine .of_serves (i := i) hc hfree hlinked ?_
    split at h
    · cases h
      exact ⟨List.suffix_rfl, fun _ _ => rfl, id, rfl, .inl rfl, rfl⟩
    · split at h
      · exact finishRouter_serves h
      · have hn : Tends i c (c.setHs (nextSlot c.nowUs c.hs)) := setHs_tends i rfl
        dsimp only at h
        split at h <;> cases h
        · exact hn.serving (joinFail_serves _ i)
        · exact hn.serves

theorem Pieces.upkept (hc : c.HsUnlinked) (h : Pieces psa c c') : Upkept u c c' := by
  induction h with
  | refl => exact .refl hc
  | tail _ hpiece ih =>
    cases hpiece with
    | work h => exact ih.trans (.of_works ih.about h)
    | begin o i hfree => exact ih.trans (lgJoinStart_upkept o ih.about hfree)
    | slot o h => exact ih.trans (lgJoinEventFinish_upkept ih.about h)

/-! ## A frame of a handshake -/

/-- A frame of type `t` from `src` opens a handshake with a neighbour that is linked. -/
def Node.DisplacedBy (c : Node cfg) (t : FrameType) (src : Addr) : Prop :=
  (t = .joinReq ∨ t = .resumeReq) ∧ c.hs.n = none ∧ lgNeighLinkedCount c < cfg.maxLinks ∧
    ∃ i, (c.neigh i).state = .linked ∧ (c.neigh i).addr = src

theorem lgNeighAlloc_linked {d : Node cfg} {src : Addr} (h : lgNeighAlloc c src = (some i, d))
    (hl : (d.neigh i).state = .linked) : d = c ∧ (c.neigh i).addr = src := by
  rcases lgNeighAlloc_cases c src with ⟨hc, -⟩ | ⟨j, -, -, hc⟩ <;> rw [hc] at h
  · obtain ⟨hfind, rfl⟩ := Prod.mk.inj h
    exact ⟨rfl, (lgNeighFind_spec hfind).2.1⟩
  · cases h
    simp [Node.setView, Neigh.fresh] at hl

/-- The entry of a joiner that is linked was there before. -/
theorem admitJoiner_linked {o : Oracle} {d : Node cfg} {src : Addr}
    (h : admitJoiner o c src = (some i, d)) (hl : (d.neigh i).state = .linked) :
    d = c ∧ (c.neigh i).addr = src := by
  unfold admitJoiner at h
  split at h
  · next halloc =>
    cases h
    exact lgNeighAlloc_linked halloc hl
  · next e halloc =>
    obtain ⟨rfl, hfind, hfull⟩ := lgNeighAlloc_none halloc
    dsimp only at h
    rcases lgNeighMakeRoom_cases o e etxOne with ⟨-, j, hj⟩ | hroom | ⟨j, f, hcases, hroom⟩
    · exact absurd hj (hfull j)
    · rw [hroom] at h
      cases h
    · rw [hroom, if_pos rfl] at h
      have hothers : ∀ k, k ≠ j → f.neigh k = e.neigh k := by
        rcases hcases with ⟨-, rfl⟩ | rfl
        · exact fun _ _ => rfl
        · exact fun k hk => lgLinkDown_others o e hk
      rw [lgNeighAlloc_freed hfind hfull hothers] at h
      cases h
      simp [Node.setView, Neigh.fresh] at hl

theorem openContext_upkept {d : Node cfg} (resuming : Bool) (airStartUs : ℕ)
    (hfree : (d.neigh i).state ≠ .free) (hu : u → (d.neigh i).state ≠ .linked) :
    Upkept u d (openContext d i resuming airStartUs) := by
  have hothers : ∀ j, j ≠ i → (openContext d i resuming airStartUs).neigh j = d.neigh j :=
    fun j hj => by simp [openContext, Node.setHs, hj]
  have htable : TableKept d (openContext d i resuming airStartUs) := by
    refine .of_same List.suffix_rfl (fun j => ?_) (fun j => ?_)
      (.of_others i hothers (fun hi => ?_) fun _ => rfl)
    · by_cases hji : j = i
      · subst hji
        exact iff_of_false (by simp [openContext]) hfree
      · rw [hothers j hji]
    · by_cases hji : j = i
      · subst hji
        simp [openContext, Node.setHs]
      · rw [hothers j hji]
    · simp [openContext, Node.setHs] at hi
  refine .of_table htable (fun j hj => ?_)
    fun hok => .of_others i hothers fun hl => absurd hl (hu hok)
  · have hji : j = i := by
      simpa [openContext, Node.setHs, Node.setNeigh, eq_comm] using hj
    subst hji
    simp [openContext]

theorem contextFor_upkept (psa : Psa) {o : Oracle} {t : FrameType} {src : Addr} {airStartUs : ℕ}
    {r : Option (Fin cfg.maxNeighbors)} (hc : c.HsUnlinked)
    (h : contextFor o c t src airStartUs = (r, c')) :
    Upkept (¬ c.DisplacedBy t src) c c' ∧ ∀ i, r = some i → c'.hs.n = some i := by
  unfold contextFor at h
  split at h
  · next j hj =>
    split_ifs at h <;> cases h
    · refine ⟨.refl hc, fun i hi => ?_⟩
      cases hi
      exact hj
    · exact ⟨.refl hc, nofun⟩
  · next hnone =>
    split at h
    · next ht =>
      have hw := admitJoiner_works psa o c src
      split at h
      · next he =>
        rw [he] at hw
        cases h
        exact ⟨.of_works hc hw, nofun⟩
      · next i d he =>
        rw [he] at hw
        have hd : Upkept (¬ c.DisplacedBy t src) c d := .of_works hc hw
        split at h <;> next hcount =>
          cases h
          first
            | exact ⟨hd, nofun⟩
            | refine ⟨hd.trans (openContext_upkept _ _ (admitJoiner_occupied he) fun hu hl => ?_),
                fun j hj => ?_⟩
              · obtain ⟨rfl, haddr⟩ := admitJoiner_linked he hl
                exact hu ⟨ht, hnone, not_le.mp hcount, i, hl, haddr⟩
              · cases hj
                rfl
    · cases h
      exact ⟨.refl hc, nofun⟩

theorem lgJoinRxPdu_upkept {o : Oracle} {t : FrameType} {rx : RxRec} (hc : c.HsUnlinked)
    (h : lgJoinRxPdu psa o c t rx = some c') :
    Upkept (¬ c.DisplacedBy t (getLe16 rx.pdu offSrc)) c c' := by
  unfold lgJoinRxPdu at h
  split at h
  · next d hctx =>
    cases h
    exact (contextFor_upkept psa hc hctx).1
  · next i d hctx =>
    obtain ⟨hd, hn⟩ := contextFor_upkept psa hc hctx
    obtain ⟨hfree, hlinked⟩ := hd.about i (hn i rfl)
    have hrssi : Tends i d (lgNeighRxRssi d i rx.rssi) :=
      .of_quiet (lgNeighRxRssi_quiet d i rx.rssi)
    have hre := hrssi.trans (reassemble_tends psa o _ i t rx.pdu)
    refine hd.trans (.of_serves (i := i) hd.about hfree hlinked ?_)
    split at h <;> next he =>
      rw [he] at hre
      first
        | cases h
          exact hre.serves
        | exact hre.serving (handleMessage_serves h)

/-! ## Steps -/

/-- A step that can end a link around `lg_link_down`: a first message in the name of a linked
neighbour is dispatched, or the node is started with a link up. -/
def Node.Displaced (psa : Psa) (o : Oracle) (c : Node cfg) : Input → Prop
  | .rxWork => ∃ t rx rest, c.rxRing = rx :: rest ∧ Handed c t rx ∧
      c.DisplacedBy t (getLe16 rx.pdu offSrc)
  | .start => lgStart psa o c ≠ c ∧ ∃ i, (c.neigh i).state = .linked
  | _ => False

theorem Restarted.owned {d : Node cfg} (h : Restarted c d) : Owned c d := by
  have hlog : d.hist.dealings = c.hist.dealings := congrArg Vault.dealings h.vault
  exact ⟨hlog ▸ List.suffix_rfl, fun i hi => absurd (h.free i) hi,
    fun _ i _ hi => absurd (h.free i) hi⟩

theorem Restarted.hsUnlinked {d : Node cfg} (h : Restarted c d) : d.HsUnlinked := by
  intro i hi
  rw [h.hs] at hi
  cases hi

/-- A frame of a handshake is dispatched. -/
theorem dispatched_upkept {o : Oracle} {t : FrameType} {rx : RxRec} {rest : List RxRec}
    (hc : c.HsUnlinked) (hring : c.rxRing = rx :: rest) (hh : Handed c t rx)
    (h : lgJoinRxPdu psa o { c with rxRing := rest } t rx = some c') :
    Upkept (¬ c.Displaced psa o .rxWork) c c' := by
  obtain ⟨⟨howned, habout, hkept⟩, hswept⟩ :=
    lgJoinRxPdu_upkept (c := { c with rxRing := rest }) hc h
  have hpop : TableKept c { c with rxRing := rest } := .of_eq List.suffix_rfl rfl rfl
  refine ⟨⟨hpop.toOwned.trans howned, habout, fun hu => ?_⟩, hpop.swept.trans hswept⟩
  have hlinks : LinksKept c { c with rxRing := rest } := .of_eq rfl
  refine hlinks.trans (hkept fun hby => hu ?_) hpop.log howned.log
  exact ⟨t, rx, rest, hring, hh, hby⟩

theorem perform_stretch {o : Oracle} {inp : Input} (hc : c.HsUnlinked)
    (h : perform psa o c inp = some c') : Stretch (¬ c.Displaced psa o inp) c c' := by
  rcases perform_cases h with hpieces | ⟨rfl, t, rx, rest, hring, hh, hj⟩ | ⟨rfl, d, hd, hw⟩
  · exact (hpieces.upkept hc).toStretch
  · exact (dispatched_upkept hc hring hh hj).toStretch
  · have hu : Upkept False d c' := .of_works hd.hsUnlinked hw
    refine ⟨hd.owned.trans hu.owned, hu.about, fun hok => ?_⟩
    have hstart : c' = lgStart psa o c := (Option.some.inj h).symm
    by_cases heq : lgStart psa o c = c
    · rw [hstart, heq]
      exact .refl c
    · exact fun i hi => absurd ⟨heq, i, hi⟩ hok

/-! ## Runs -/

theorem Node.boot_hsUnlinked (ident : Identity) : (Node.boot cfg ident).HsUnlinked := nofun

theorem Node.boot_distinct (ident : Identity) : (Node.boot cfg ident).Distinct :=
  fun _ _ hi => absurd rfl hi

/-- In every run, a handshake is about an entry that is not linked. -/
theorem Reachable.hsUnlinked {ident : Identity} (h : Reachable psa ident c) : c.HsUnlinked := by
  refine h.induct Node.HsUnlinked (Node.boot_hsUnlinked ident) fun d d' hd hs => ?_
  obtain ⟨inp, o, -, hp⟩ := hs
  exact (perform_stretch hd hp).about

/-- In every run, no two entries have the same address. -/
theorem Reachable.distinct {ident : Identity} (h : Reachable psa ident c) : c.Distinct := by
  induction h with
  | refl => exact Node.boot_distinct ident
  | tail hr hs ih =>
    obtain ⟨inp, o, -, hp⟩ := hs
    have hunlinked := Reachable.hsUnlinked hr
    exact (perform_stretch hunlinked hp).owned.distinct ih

/-- A step that is none of those that can end a link around `lg_link_down`. -/
def Undisturbed (psa : Psa) (c c' : Node cfg) : Prop :=
  ∃ inp o, Enabled c inp ∧ ¬ c.Displaced psa o inp ∧ perform psa o c inp = some c'

/-- Through any run in which no step ends a link around `lg_link_down`, a linked neighbour stays
linked under the same key, unless `lg_link_down` has been called for it. -/
theorem link_held {ident : Identity} (hc : Reachable psa ident c)
    (h : Relation.ReflTransGen (Undisturbed psa) c c') (hi : (c.neigh i).state = .linked) :
    LinkKept (c.neigh i) (c'.neigh i) ∨ c.downs i < c'.downs i := by
  have hrun : Stretch True c c' := by
    induction h with
    | refl => exact (Upkept.refl hc.hsUnlinked).toStretch
    | tail _ hs ih =>
      obtain ⟨inp, o, -, hu, hp⟩ := hs
      obtain ⟨howned, habout, hkept⟩ := perform_stretch ih.about hp
      exact ih.trans ⟨howned, habout, fun _ => hkept hu⟩
  exact hrun.kept trivial i hi

/-- A frame that is a first message is not next, and the node is not started. -/
def Node.Calm (c : Node cfg) : Input → Prop
  | .rxWork => ∀ rx ∈ c.rxRing.head?, lgFrameType rx.pdu ≠ some .joinReq ∧
      lgFrameType rx.pdu ≠ some .resumeReq
  | .start => False
  | _ => True

instance (c : Node cfg) (inp : Input) : Decidable (c.Calm inp) := by
  rcases inp <;> unfold Node.Calm <;> infer_instance

theorem StepWhen.undisturbed (h : StepWhen psa Node.Calm c c') : Undisturbed psa c c' := by
  obtain ⟨inp, o, he, hcalm, hp⟩ := h
  refine ⟨inp, o, he, fun hd => ?_, hp⟩
  cases inp with
  | rxWork =>
    obtain ⟨t, rx, rest, hring, hh, ht, -⟩ := hd
    obtain ⟨hreq, hresume⟩ := hcalm rx (by rw [hring]; rfl)
    rcases ht with rfl | rfl
    · exact hreq hh.frame
    · exact hresume hh.frame
  | start => exact hcalm
  | schedWork | finishWork | tick | granted | refused | txDone | rxDone | rxFailed | send
    | backhaulSet | tuningSet | stop => exact hd

/-- As `joiningRun`, with a message `t` in the clear and in the name of the new neighbour that
waits to be dispatched. -/
def forgedRun (t : FrameType) : List (Oracle × Input) :=
  joiningRun.take 10 ++ (calm 4, .rxDone (plainFrag t 1 2 replayedReq 0)) :: joiningRun.drop 10

/-- A `JOIN_CFM` that is not even sealed comes in the name of the neighbour just linked. -/
theorem link_held_forged :
    ∃ c c' : Node .default, Relation.ReflTransGen (Undisturbed Psa.plain) c c' ∧
      c'.rxRing.length < c.rxRing.length ∧ (c.neigh firstNeigh).state = .linked ∧
      (LinkKept (c.neigh firstNeigh) (c'.neigh firstNeigh) ∨
        c.downs firstNeigh < c'.downs firstNeigh) := by
  obtain ⟨c, hc, hp⟩ := exists_reachable Psa.plain (plainIdent 1 1) (forgedRun .joinCfm)
    (fun c : Node .default => decide ((c.neigh firstNeigh).state = .linked) &&
      (runWhen Psa.plain Node.Calm c [(calm 7, .rxWork)]).any fun c' =>
        decide (c'.rxRing.length < c.rxRing.length)) (by decide +kernel)
  simp only [Bool.and_eq_true, decide_eq_true_eq] at hp
  obtain ⟨hl, hrun⟩ := hp
  obtain ⟨c', hrun, hring⟩ := (Option.any_eq_true _ _).mp hrun
  have hsteps : Relation.ReflTransGen (Undisturbed Psa.plain) c c' :=
    (runWhen_steps hrun).lift id fun _ _ hs => hs.undisturbed
  exact ⟨c, c', hsteps, of_decide_eq_true hring, hl, link_held hc hsteps hl⟩

/-- The first fragment of a `JOIN_REQ` in the name of a linked neighbour ends its link, and
`lg_link_down` is not called. -/
theorem not_link_held_displaced :
    ¬ ∀ (psa : Psa) (ident : Identity) (c c' : Node .default) (i : Fin _), Reachable psa ident c →
      Step psa c c' → (c.neigh i).state = .linked →
      LinkKept (c.neigh i) (c'.neigh i) ∨ c.downs i < c'.downs i := by
  intro h
  obtain ⟨c, hc, hp⟩ := exists_reachable Psa.plain (plainIdent 1 1) (forgedRun .joinReq)
    (fun c : Node .default => decide ((c.neigh firstNeigh).state = .linked) &&
      (perform Psa.plain (calm 7) c .rxWork).any fun c' : Node .default =>
        decide ((c'.neigh firstNeigh).state = .joining ∧ c'.downs firstNeigh = 0))
    (by decide +kernel)
  simp only [Bool.and_eq_true, decide_eq_true_eq] at hp
  obtain ⟨hl, hstep⟩ := hp
  obtain ⟨c', hstep, hp⟩ := (Option.any_eq_true _ _).mp hstep
  obtain ⟨hstate, hdowns⟩ := of_decide_eq_true hp
  rcases h _ _ c c' firstNeigh hc ⟨.rxWork, calm 7, trivial, hstep⟩ hl with hkept | hdown
  · have hlinked := hkept.state
    rw [hstate] at hlinked
    cases hlinked
  · omega

end LockGrid
