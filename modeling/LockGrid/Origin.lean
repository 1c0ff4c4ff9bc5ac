import LockGrid.Air

/-!
# Where the two ends count their slots from

The joiner counts from the time it chose, the router from the frame that opened its context. The
two agree on where slots begin as long as that frame is the first of a transmission of the
handshake the joiner is in.
-/
namespace LockGrid

variable {cfg : Config} {psa : Psa}

/-! ## Messages -/

/-- What a message of a handshake leaves alone until it is answered. -/
def Hs.stem (hs : Hs cfg) : Option (Fin cfg.maxNeighbors) × Bool × ℕ × FrameType × Xfer :=
  (hs.n, hs.joiner, hs.t0Us, hs.rxType, hs.rx)

theorem Hs.origin_of_stem {hs hs' : Hs cfg} (h : hs'.stem = hs.stem) : hs'.origin = hs.origin := by
  simp only [Hs.stem, Prod.mk.injEq] at h
  obtain ⟨hn, hj, ht, -, -⟩ := h
  rw [Hs.origin, hn, hj, ht]
  rfl

/-- The context but for the key pair and the message that is to be sent. -/
def Hs.core (hs : Hs cfg) : Hs cfg :=
  { hs with
    ephPriv := []
    ephPub := []
    tx := []
    txType := .beacon
    txSecured := false
    fragIdx := 0
    fragTotal := 0
    oweTx := false
    histRspVerified := false
    histCfmDone := false
    histResumeDone := false }

theorem Hs.stem_of_core {hs hs' : Hs cfg} (h : hs'.core = hs.core) : hs'.stem = hs.stem :=
  (congrArg Hs.stem h :)

section

variable (psa : Psa) (o : Oracle) (c : Node cfg) (i : Fin cfg.maxNeighbors) (msg : Bytes)

theorem drawKeypair_core : (drawKeypair o c).hs.core = c.hs.core := rfl

theorem agreeJoinReq_core : (agreeJoinReq psa o c i msg).2.hs.core = c.hs.core := by
  unfold agreeJoinReq
  split
  · rfl
  · split
    · rfl
    · next info _ =>
      have hr := rememberPeer_hs c i msg info
      split
      · rfl
      · dsimp only
        split
        · exact congrArg Hs.core hr
        · have hd := (drawNonce_hs o (rememberPeer c i msg info) i).trans hr
          split
          · exact congrArg Hs.core hd
          · have hk := (drawKeypair_core o (drawNonce o (rememberPeer c i msg info) i)).trans
              (congrArg Hs.core hd)
            split
            · exact hk
            · split <;> exact hk

theorem handleJoinReq_core : (handleJoinReq psa o c i msg).2.hs.core = c.hs.core := by
  have ha := agreeJoinReq_core psa o c i msg
  unfold handleJoinReq
  split
  · next he =>
    rw [he] at ha
    exact ha
  · next transcript secret d he =>
    rw [he] at ha
    dsimp only
    generalize ({ d.hist with reqDerived := d.hist.reqDerived + 1 } : History cfg) = hist
    have hk := deriveKeys_hs psa o { d with hist := hist } i secret transcript
    split
    · next hd =>
      rw [hd] at hk
      exact (congrArg Hs.core hk).trans ha
    · next hd =>
      rw [hd] at hk
      split <;> exact (congrArg Hs.core hk).trans ha

theorem agreeJoinRsp_core : (agreeJoinRsp psa o c i msg).2.hs.core = c.hs.core := by
  unfold agreeJoinRsp
  split
  · rfl
  · split
    · rfl
    · next info _ =>
      have hr := congrArg Hs.core (rememberPeer_hs c i msg info)
      split
      · rfl
      · dsimp only
        split
        · exact hr
        · split
          · exact hr
          · split <;> exact hr

theorem handleJoinRsp_core : (handleJoinRsp psa o c i msg).2.hs.core = c.hs.core := by
  have ha := agreeJoinRsp_core psa o c i msg
  unfold handleJoinRsp
  split
  · next he =>
    rw [he] at ha
    exact ha
  · next transcript secret d he =>
    rw [he] at ha
    dsimp only
    generalize ({ d.hist with rspDerived := transcript :: d.hist.rspDerived } : History cfg) = hist
    have hk := deriveKeys_hs psa o { d with hist := hist } i secret transcript
    split
    · next hd =>
      rw [hd] at hk
      exact (congrArg Hs.core hk).trans ha
    · next hd =>
      rw [hd] at hk
      split <;> exact (congrArg Hs.core hk).trans ha

theorem handleJoinCfm_core : (handleJoinCfm psa o c i msg).2.hs.core = c.hs.core := by
  unfold handleJoinCfm
  split
  · rfl
  · dsimp only
    split <;> rfl

theorem deriveResumeKey_hs : (deriveResumeKey psa o c i msg).2.hs = c.hs := by
  rcases deriveResumeKey_cases psa o c i msg with h | ⟨k, ins, live, -, h⟩ <;> rw [h]
  rfl

theorem handleResumeReq_core : (handleResumeReq psa o c i msg).2.hs.core = c.hs.core := by
  unfold handleResumeReq
  split
  · rfl
  · dsimp only
    have hd := deriveResumeKey_hs psa o
      (c.setJoin i { (c.neigh i).join with noncePeer := msg }) i msg
    have hcore := congrArg Hs.core hd
    split <;> next he =>
      rw [he] at hcore
      exact hcore

end

/-! ## What a handshake keeps as long as it lasts -/

/-- The handshake goes on where it was, or there is none any more. -/
def Lasts (c c' : Node cfg) : Prop := c'.hs.origin = c.hs.origin ∨ c'.hs.n = none

namespace Lasts

variable {c c' c'' : Node cfg}

theorem refl (c : Node cfg) : Lasts c c := .inl rfl

theorem trans (h : Lasts c c') (h' : Lasts c' c'') : Lasts c c'' := by
  rcases h' with h' | h'
  · rcases h with h | h
    · exact .inl (h'.trans h)
    · have hn : c''.hs.n = c'.hs.n := congrArg Prod.fst h'
      exact .inr (hn.trans h)
  · exact .inr h'

theorem of_works (h : Works psa c c') : Lasts c c' := by
  have hn : c'.hs.n = c.hs.n := (congrArg Hs.n h.credit :)
  have hj : c'.hs.joiner = c.hs.joiner := (congrArg Hs.joiner h.credit :)
  have ht : c'.hs.t0Us = c.hs.t0Us := (congrArg Hs.t0Us h.credit :)
  left
  rw [Hs.origin, hn, hj, ht]
  rfl

end Lasts

theorem settleStep_lasts {c : Node cfg} {r : Except Err Unit × Node cfg}
    (h : r.2.hs.stem = c.hs.stem) (i : Fin cfg.maxNeighbors) : Lasts c (settleStep r i) := by
  obtain ⟨e | u, d⟩ := r
  · exact .inr rfl
  · have ho : d.hs.origin = c.hs.origin := Hs.origin_of_stem h
    exact .inl ho

theorem handleMessage_lasts {o : Oracle} {c c' : Node cfg} {i : Fin cfg.maxNeighbors}
    {t : FrameType} {sec : Bool} {airStartUs : ℕ}
    (h : handleMessage psa o c i t sec airStartUs = some c') : Lasts c c' := by
  unfold handleMessage at h
  dsimp only at h
  cases t with
  | joinReq =>
    cases h
    exact settleStep_lasts (Hs.stem_of_core (handleJoinReq_core psa o c i _)) i
  | joinRsp =>
    cases h
    exact settleStep_lasts (Hs.stem_of_core (handleJoinRsp_core psa o c i _)) i
  | joinCfm =>
    cases h
    exact settleStep_lasts (Hs.stem_of_core (handleJoinCfm_core psa o c i _)) i
  | joinAck => exact .inr (congrArg Hs.n (finishJoiner_over h))
  | resumeRsp => exact .inr (congrArg Hs.n (finishJoiner_over h))
  | resumeReq =>
    have hr := handleResumeReq_core psa o c i c.hs.rx.msg
    dsimp only at h
    split at h <;> next he =>
      rw [he] at hr
      cases h
      first
        | exact .inr rfl
        | exact settleStep_lasts (Hs.stem_of_core hr) i
  | beacon | linkReq | linkRsp | data | ack | ctrl =>
    cases h
    exact .refl c

theorem addFragment_origin (c : Node cfg) (t : FrameType) (sec : Bool) (key : Option Bytes)
    (pdu : Bytes) : (addFragment c t sec key pdu).2.hs.origin = c.hs.origin := by
  unfold addFragment
  dsimp only
  split_ifs <;> rfl

theorem reassemble_origin (psa : Psa) (o : Oracle) (c : Node cfg) (i : Fin cfg.maxNeighbors)
    (t : FrameType) (pdu : Bytes) :
    (reassemble psa o c i t pdu).2.hs.origin = c.hs.origin := by
  have hdec := congrArg Hs.origin (lgSecDecrypt_hs psa (o.ok .decrypt) c i pdu)
  unfold reassemble
  split
  · split <;> next he =>
      rw [he] at hdec
      first
        | exact hdec
        | exact (addFragment_origin _ t true _ _).trans hdec
  · exact addFragment_origin c t false none pdu

/-- The context a frame belongs to was there, or counts its slots from the frame. -/
theorem contextFor_origin (psa : Psa) (o : Oracle) (c : Node cfg) (t : FrameType) (src : Addr)
    (airStartUs : ℕ) :
    (contextFor o c t src airStartUs).2.hs.origin = c.hs.origin ∨
      c.hs.n = none ∧ (contextFor o c t src airStartUs).2.hs.t0Us = airStartUs := by
  unfold contextFor
  split
  · exact .inl rfl
  · next hnone =>
    split
    · have hrest := (admitJoiner_rest psa o c src).1
      split <;> next he =>
        rw [he] at hrest
        first
          | exact .inl (congrArg Hs.origin hrest)
          | split
            · exact .inl (congrArg Hs.origin hrest)
            · exact .inr ⟨hnone, rfl⟩
    · exact .inl rfl

theorem lgJoinRxPdu_origin {o : Oracle} {c c' : Node cfg} {t : FrameType} {rx : RxRec}
    (h : lgJoinRxPdu psa o c t rx = some c') (hn : c'.hs.n ≠ none) :
    c'.hs.origin = c.hs.origin ∨ c.hs.n = none ∧ c'.hs.t0Us = rx.airStartUs := by
  have hctx := contextFor_origin psa o c t (getLe16 rx.pdu offSrc) rx.airStartUs
  have hlast : Lasts (contextFor o c t (getLe16 rx.pdu offSrc) rx.airStartUs).2 c' := by
    unfold lgJoinRxPdu at h
    split at h
    · next he =>
      cases h
      rw [he]
      exact .refl _
    · next i d he =>
      rw [he]
      have hre : Lasts d (reassemble psa o (lgNeighRxRssi d i rx.rssi) i t rx.pdu).2 :=
        .inl (reassemble_origin psa o _ i t rx.pdu)
      split at h <;> next hr =>
        rw [hr] at hre
        first
          | cases h
            exact hre
          | exact hre.trans (handleMessage_lasts h)
  rcases hlast with hlast | hlast
  · rcases hctx with hctx | ⟨hnone, hair⟩
    · exact .inl (hlast.trans hctx)
    · have ht : c'.hs.t0Us = _ := congrArg (fun x => x.2.2) hlast
      exact .inr ⟨hnone, ht.trans hair⟩
  · exact absurd hlast hn

theorem lgJoinEventFinish_lasts {o : Oracle} {c c' : Node cfg}
    (h : lgJoinEventFinish o c = some c') : Lasts c c' := by
  unfold lgJoinEventFinish at h
  split at h
  · cases h
    exact .refl _
  · split at h
    · cases h
      exact .inr rfl
    · split at h
      · obtain ⟨d, -, rfl⟩ := Option.map_eq_some_iff.mp h
        exact .inr rfl
      · dsimp only at h
        split at h <;> cases h
        · exact .inr rfl
        · exact .inl rfl

/-- A handshake that `lg_join_start` begins is one as the joiner. -/
theorem lgJoinStart_origin (o : Oracle) (c : Node cfg) (i : Fin cfg.maxNeighbors) :
    Lasts c (lgJoinStart o c i).2 ∨ (lgJoinStart o c i).2.hs.joiner = true := by
  unfold lgJoinStart
  dsimp only
  split
  · exact .inl (.refl c)
  · split
    · exact .inl (.refl c)
    · split
      · exact .inl (.refl c)
      · split
        · exact .inl (.inl rfl)
        · split
          · exact .inl (.inl rfl)
          · split
            · exact .inl (.inr rfl)
            · next d he =>
              right
              change d.hs.joiner = true
              split at he
              · unfold buildResumeReq at he
                split at he <;> cases he
                rfl
              · unfold buildJoinReq at he
                dsimp only at he
                split at he
                · cases he
                · split at he <;> cases he
                  rfl

theorem Pieces.origin {c c' : Node cfg} (h : Pieces psa c c') :
    Lasts c c' ∨ c'.hs.joiner = true := by
  have hkeep : ∀ {d d' : Node cfg}, (Lasts c d ∨ d.hs.joiner = true) → Lasts d d' →
      Lasts c d' ∨ d'.hs.joiner = true := by
    rintro d d' (hd | hd) hlast
    · exact .inl (hd.trans hlast)
    · rcases hlast with hlast | hlast
      · have hj : d'.hs.joiner = d.hs.joiner := congrArg (fun x => x.2.1) hlast
        exact .inr (hj.trans hd)
      · exact .inl (.inr hlast)
  induction h with
  | refl => exact .inl (.refl c)
  | tail _ hpiece ih =>
    cases hpiece with
    | work h => exact hkeep ih (.of_works h)
    | begin o i _ =>
      rcases lgJoinStart_origin o _ i with hlast | hj
      · exact hkeep ih hlast
      · exact .inr hj
    | slot o h => exact hkeep ih (lgJoinEventFinish_lasts h)

/-- A step after which a node is in a handshake as the router leaves it as it was, or has opened
the context on the frame that was next. -/
theorem perform_origin {o : Oracle} {c c' : Node cfg} {inp : Input}
    (h : perform psa o c inp = some c') (hn : c'.hs.n ≠ none) (hj : c'.hs.joiner = false) :
    c'.hs.origin = c.hs.origin ∨
      c.hs.n = none ∧ ∃ rx, c.rxRing.head? = some rx ∧ c'.hs.t0Us = rx.airStartUs := by
  rcases perform_cases h with hpieces | ⟨-, t, rx, rest, hring, -, hrx⟩ | ⟨-, d, hd, hw⟩
  · rcases hpieces.origin with (hlast | hlast) | hjoiner
    · exact .inl hlast
    · exact absurd hlast hn
    · rw [hj] at hjoiner
      cases hjoiner
  · rcases lgJoinRxPdu_origin hrx hn with ho | ⟨hnone, ht⟩
    · exact .inl ho
    · exact .inr ⟨hnone, rx, by rw [hring]; rfl, ht⟩
  · rcases Lasts.of_works hw with hlast | hlast
    · have hnone : c'.hs.n = d.hs.n := congrArg Prod.fst hlast
      rw [hd.hs] at hnone
      exact absurd hnone hn
    · exact absurd hlast hn

/-! ## Slots are planned from the origin -/

/-- A time at which a slot of the handshake begins. -/
def Hs.Slotted (hs : Hs cfg) (t : ℕ) : Prop := ∃ k, t = slotTime hs k

theorem Hs.Slotted.congr {hs hs' : Hs cfg} {t : ℕ} (h : hs.Slotted t) (ht : hs'.t0Us = hs.t0Us) :
    hs'.Slotted t := by
  obtain ⟨k, hk⟩ := h
  refine ⟨k, ?_⟩
  rw [hk, slotTime, slotTime, ht]

theorem lgJoinNextUs_slotted {c : Node cfg} {i : Fin cfg.maxNeighbors} {t : ℕ}
    (h : lgJoinNextUs c i = some t) : c.hs.Slotted t := by
  unfold lgJoinNextUs at h
  split_ifs at h <;> cases h
  · exact ⟨0, rfl⟩
  · exact ⟨_, rfl⟩

/-- The transmissions among the candidates begin with a slot. -/
def TxSlotted (hs : Hs cfg) (l : List (Candidate cfg)) : Prop :=
  ∀ x ∈ l, x.kind = .joinTx → hs.Slotted x.anchorUs

theorem TxSlotted.add {hs : Hs cfg} {l : List (Candidate cfg)} (h : TxSlotted hs l)
    {kind : EvKind} {t : Option ℕ} (ht : kind = .joinTx → ∀ u, t = some u → hs.Slotted u)
    (n : Option (Fin cfg.maxNeighbors)) (prio : ℕ) :
    TxSlotted hs (addCandidate l kind t n prio) := by
  unfold addCandidate
  cases t with
  | none => exact h
  | some u =>
    intro x hx hk
    rcases List.mem_append.mp hx with hx | hx
    · exact h x hx hk
    · rw [List.mem_singleton.mp hx] at hk ⊢
      exact ht hk u rfl

theorem TxSlotted.addOther {hs : Hs cfg} {l : List (Candidate cfg)} (h : TxSlotted hs l)
    {kind : EvKind} (hk : kind ≠ .joinTx) (t : Option ℕ) (n : Option (Fin cfg.maxNeighbors))
    (prio : ℕ) : TxSlotted hs (addCandidate l kind t n prio) :=
  h.add (fun he => absurd he hk) n prio

theorem neighCandidate_slotted {c : Node cfg} {l : List (Candidate cfg)}
    {i : Fin cfg.maxNeighbors} {r : List (Candidate cfg) × Node cfg}
    (h : neighCandidate c l i = some r) (hl : TxSlotted c.hs l) :
    r.2.hs = c.hs ∧ TxSlotted c.hs r.1 := by
  unfold neighCandidate at h
  dsimp only at h
  split at h
  · obtain ⟨r', -, rfl⟩ := Option.map_eq_some_iff.mp h
    exact ⟨rfl, hl.addOther (by decide) _ _ _⟩
  · cases h
    exact ⟨rfl, hl.add (fun _ u hu => lgJoinNextUs_slotted hu) _ _⟩
  · cases h
    exact ⟨rfl, hl⟩

theorem candidates_slotted {c : Node cfg} {r : List (Candidate cfg) × Node cfg}
    (h : candidates c = some r) : TxSlotted c.hs r.1 := by
  have hfold : ∀ (l : List (Fin cfg.maxNeighbors)) (st r : List (Candidate cfg) × Node cfg),
      l.foldlM (fun st i => neighCandidate st.2 st.1 i) st = some r → TxSlotted st.2.hs st.1 →
      r.2.hs = st.2.hs ∧ TxSlotted st.2.hs r.1 := by
    intro l
    induction l with
    | nil =>
      intro st r h hst
      cases h
      exact ⟨rfl, hst⟩
    | cons i l ih =>
      intro st r h hst
      rw [List.foldlM_cons] at h
      obtain ⟨st', hst', h⟩ := Option.bind_eq_some_iff.mp h
      obtain ⟨hhs, hslot⟩ := neighCandidate_slotted hst' hst
      rw [← hhs] at hslot ⊢
      exact ih st' r h hslot
  obtain ⟨⟨l, d⟩, hd, rfl⟩ := Option.map_eq_some_iff.mp h
  obtain ⟨-, hslot⟩ := hfold _ ([], c) (l, d) hd nofun
  exact ((((hslot.addOther (by decide) _ _ _).addOther (by decide) _ _ _).addOther
    (by decide) _ _ _).addOther (by decide) _ _ _).addOther (by decide) _ _ _

theorem selectCandidate_mem {l : List (Candidate cfg)} {x : Candidate cfg}
    (h : selectCandidate l = some x) : x ∈ l := by
  unfold selectCandidate at h
  dsimp only at h
  split at h
  · cases h
  · next e he =>
    have hearliest : e ∈ l := by
      apply mem_of_pick _ he
      intro best c
      cases best with
      | none => exact .inr rfl
      | some b =>
        dsimp only
        split_ifs
        · exact .inr rfl
        · exact .inl rfl
    cases h
    apply List.foldlRecOn l _ hearliest
    intro b hb c hc
    split_ifs
    · exact hb
    · exact hc
    · exact hb

/-- A transmission that the scheduler asks for begins with a slot. -/
theorem requestEvent_slotted {o : Oracle} {c c' : Node cfg} {cand : Candidate cfg}
    (h : requestEvent psa o c cand = some c') (hk : c'.ev.kind = .joinTx)
    (hcand : cand.kind = .joinTx → c.hs.Slotted cand.anchorUs) :
    c'.ev = c.ev ∨ c'.hs.Slotted c'.ev.anchorUs := by
  obtain ⟨net, view, hplan⟩ := eventPlan_quiet c cand
  have hplanned : (eventPlan c cand).1.kind = .joinTx →
      cand.kind = .joinTx ∧ (eventPlan c cand).1.anchorUs = cand.anchorUs := by
    intro hjoin
    unfold eventPlan at hjoin ⊢
    cases hkind : cand.kind <;> simp only [hkind] at hjoin ⊢
    all_goals
      first
        | exact ⟨trivial, trivial⟩
        | cases hjoin
        | cases hn : cand.neigh <;> simp only [hn, linkPlan] at hjoin <;> cases hjoin
  unfold requestEvent at h
  dsimp only at h
  split at h
  · left
    have hev := congrArg Prod.fst (dropLate_aside h).slot
    rw [hplan] at hev
    exact hev
  · split at h
    · cases h
      rw [hplan]
      exact .inl rfl
    · cases h
      obtain ⟨hjoin, hanchor⟩ := hplanned hk
      right
      change (eventPlan c cand).2.hs.Slotted (eventPlan c cand).1.anchorUs
      rw [hanchor, hplan]
      exact hcand hjoin

theorem schedPick_slotted {o : Oracle} {c c' : Node cfg} (h : schedPick psa o c = some c')
    (hk : c'.ev.kind = .joinTx) : c'.ev = c.ev ∨ c'.hs.Slotted c'.ev.anchorUs := by
  unfold schedPick at h
  split at h
  · cases h
    exact .inl rfl
  · split at h
    · cases h
    · next l d hcands =>
      have hev : d.ev = c.ev := congrArg Prod.fst (candidates_aside hcands).slot
      have hslot := candidates_slotted hcands
      have htime : d.hs.t0Us = c.hs.t0Us :=
        (congrArg Hs.t0Us (candidates_works hcands : Works psa c d).credit :)
      split at h
      · cases h
        exact .inl hev
      · next cand hsel =>
        have hstage : (stageFor psa o d cand).2.ev = d.ev :=
          congrArg (fun r => r.2.1) (stageFor_radio psa o d cand)
        have htime' : (stageFor psa o d cand).2.hs.t0Us = d.hs.t0Us :=
          (congrArg Hs.t0Us (stageFor_works psa o d cand).credit :)
        dsimp only at h
        split at h
        · rcases requestEvent_slotted h hk fun hjoin =>
            (hslot cand (selectCandidate_mem hsel) hjoin).congr (htime'.trans htime) with he | he
          · exact .inl (he.trans (hstage.trans hev))
          · exact .inr he
        · cases h
          exact .inl (hstage.trans hev)

theorem lgStart_ev (psa : Psa) (o : Oracle) (c : Node cfg)
    (hk : (lgStart psa o c).ev.kind ≠ .none) : (lgStart psa o c).ev = c.ev := by
  unfold lgStart at hk ⊢
  split
  · rfl
  · next hgo =>
    rw [if_neg hgo] at hk
    split
    · rfl
    · next hok =>
      rw [hok] at hk
      obtain ⟨net, view, hq⟩ := (lgRoleEvaluate_quiet o _).trans (lgDiscBeaconFinish_quiet psa o _)
      dsimp only at hk
      rw [hq] at hk
      exact absurd rfl hk

/-- Whenever a transmission of a handshake is due, it was so before the step or begins with a
slot of the handshake as it is. -/
theorem perform_slotted {o : Oracle} {c c' : Node cfg} {inp : Input}
    (h : perform psa o c inp = some c') (hk : c'.ev.kind = .joinTx) :
    c'.ev = c.ev ∨ c'.hs.Slotted c'.ev.anchorUs := by
  have hrides : Rides c c' → c'.ev = c.ev := by
    intro hr
    cases hr with
    | on hev _ => exact hev
    | done _ => cases hk
  cases inp with
  | schedWork => exact schedPick_slotted h hk
  | finishWork o' =>
    simp only [perform, schedFinish] at h
    split at h
    · cases h
    · next d hd =>
      have hev : d.ev = c.ev := congrArg Prod.fst (settle_slot hd)
      exact (schedPick_slotted h hk).imp_left fun he => he.trans hev
  | rxWork => exact .inl (hrides (rxHandler_spares h).rides.1)
  | granted | refused | txDone | rxDone | rxFailed =>
    exact .inl (hrides (perform_interrupt_rides rfl h))
  | tick | send | backhaulSet | tuningSet =>
    exact .inl (congrArg Prod.fst (perform_call_slot rfl h))
  | start =>
    cases h
    exact .inl (lgStart_ev psa o c (by simp [hk]))
  | stop =>
    cases h
    left
    unfold lgStop at hk ⊢
    split at hk
    · next hidle => rw [if_pos hidle]
    · cases hk

/-! ## The two ends -/

/-- `t` is inside the receive window that a listening end opens for slot `k`. -/
def Hs.InWindow (hs : Hs cfg) (k t : ℕ) : Prop :=
  slotTime hs k ≤ t + joinRxMarginUs ∧ t ≤ slotTime hs k + joinSlotLenUs

/-- The origins of the two ends are a whole number of slots apart, and each listens when the other
starts a later slot. -/
structure SlotsAgree (j r : Hs cfg) : Prop where
  apart : ∃ d : ℤ, (r.t0Us : ℤ) - j.t0Us = d * joinSlotUs
  router : ∀ k, r.t0Us ≤ slotTime j k → ∃ m, r.InWindow m (slotTime j k)
  joiner : ∀ m, j.t0Us ≤ slotTime r m → ∃ k, j.InWindow k (slotTime r m)

theorem Hs.inWindow_slotTime (hs : Hs cfg) (k : ℕ) : hs.InWindow k (slotTime hs k) :=
  ⟨Nat.le_add_right _ _, Nat.le_add_right _ _⟩

theorem SlotsAgree.of_slotted {j r : Hs cfg} (h : j.Slotted r.t0Us) : SlotsAgree j r := by
  obtain ⟨d, hd⟩ := h
  simp only [slotTime] at hd
  refine ⟨⟨d, ?_⟩, fun k hk => ?_, fun m _ => ?_⟩
  · rw [hd]
    push_cast
    omega
  · have hslot : slotTime j k = slotTime r (k - d) := by
      simp only [slotTime, joinSlotUs] at hk hd ⊢
      omega
    rw [hslot]
    exact ⟨k - d, r.inWindow_slotTime _⟩
  · have hslot : slotTime r m = slotTime j (d + m) := by
      simp only [slotTime, joinSlotUs] at hd ⊢
      omega
    rw [hslot]
    exact ⟨d + m, j.inWindow_slotTime _⟩

namespace Encounter

/-- The listener is in a handshake that a frame in the speaker's name has opened. -/
def Engaged (s : Encounter cfg) : Prop :=
  ∃ rx ∈ s.opener, getLe16 rx.pdu offSrc = s.speaker.ident.addr

instance (s : Encounter cfg) : Decidable s.Engaged := by
  unfold Engaged
  infer_instance

/-- The speaker begins a handshake only when no transmission of an earlier one is still due and
the listener is in none with it, and the listener opens a context in its name only on the first
fragment of a message, sent in the handshake the speaker is in. -/
def HeardFirst (s s' : Encounter cfg) : Prop :=
  (Begins s.speaker s'.speaker → s.speaker.ev.kind ≠ .joinTx ∧ ¬ s.Engaged) ∧
    (Opens s.listener s'.listener → ∀ rx ∈ s.listener.rxRing.head?,
      getLe16 rx.pdu offSrc = s.speaker.ident.addr →
      ∃ f ∈ s.air, f.attempt = s.attempt ∧ f.idx = 0 ∧ f.pdu = rx.pdu ∧ f.startUs = rx.airStartUs)

instance (s s' : Encounter cfg) : Decidable (HeardFirst s s') := by
  unfold HeardFirst
  infer_instance

/-- The speaker is in a handshake as the joiner. -/
def Joins (s : Encounter cfg) : Prop := s.speaker.hs.n ≠ none ∧ s.speaker.hs.joiner = true

instance (s : Encounter cfg) : Decidable s.Joins := by
  unfold Joins
  infer_instance

/-- What every run in which first fragments are heard first keeps. -/
structure OnGrid (s : Encounter cfg) : Prop where
  planned : s.Joins → s.speaker.ev.kind = .joinTx → s.speaker.hs.Slotted s.speaker.ev.anchorUs
  aired : s.Joins → ∀ f ∈ s.air, f.attempt = s.attempt → f.idx = 0 →
    s.speaker.hs.Slotted f.startUs
  past : ∀ f ∈ s.air, f.attempt ≤ s.attempt
  opened : s.opener ≠ none → s.listener.hs.n ≠ none ∧ s.listener.hs.joiner = false
  agreed : s.Joins → s.Engaged → s.speaker.hs.Slotted s.listener.hs.t0Us

end Encounter

theorem shotOf_spec {o : Oracle} {attempt : ℕ} {c : Node cfg} {inp : Input} {f : Shot}
    (h : shotOf psa o attempt c inp = some f) :
    f.attempt = attempt ∧ (f.idx = 0 → c.ev.kind = .joinTx ∧ f.startUs = c.ev.anchorUs) := by
  unfold shotOf at h
  dsimp only at h
  split at h
  · cases h
  · next hk =>
    split at h
    · obtain ⟨pdu, -, rfl⟩ := Option.map_eq_some_iff.mp h
      exact ⟨rfl, fun _ => ⟨not_not.mp hk, rfl⟩⟩
    · split at h
      · obtain ⟨pdu, -, rfl⟩ := Option.map_eq_some_iff.mp h
        exact ⟨rfl, nofun⟩
      · cases h
    · cases h

namespace Encounter

theorem OnGrid.boot (idJ idR : Identity) : OnGrid (boot cfg idJ idR) where
  planned h := absurd rfl h.1
  aired h := absurd rfl h.1
  past := nofun
  opened h := absurd rfl h
  agreed h := absurd rfl h.1

/-- A step of the speaker. -/
theorem OnGrid.speaker {s : Encounter cfg} (h : s.OnGrid) {o : Oracle} {inp : Input} {c : Node cfg}
    (hen : Enabled s.speaker inp) (hc : LockGrid.perform psa o s.speaker inp = some c)
    (hb : Begins s.speaker c → s.speaker.ev.kind ≠ .joinTx ∧ ¬ s.Engaged) :
    OnGrid { s with
      speaker := c
      air := (shotOf psa o s.attempt s.speaker inp).toList ++ s.air
      attempt := if Begins s.speaker c then s.attempt + 1 else s.attempt
      took := none } := by
  have hstep : LockGrid.Step psa s.speaker c := ⟨inp, o, hen, hc⟩
  have hident : c.ident = s.speaker.ident := hstep.advances.ident
  -- A handshake that has not just begun is the one there was.
  have hsame : c.hs.n ≠ none ∧ c.hs.joiner = true → ¬ Begins s.speaker c →
      s.Joins ∧ c.hs.t0Us = s.speaker.hs.t0Us := by
    rintro ⟨hn, hj⟩ hbegins
    have ho : c.hs.origin = s.speaker.hs.origin := by
      by_contra hne
      exact hbegins ⟨hn, hj, hne⟩
    simp only [Hs.origin, Prod.mk.injEq] at ho
    exact ⟨⟨ho.1 ▸ hn, ho.2.1 ▸ hj⟩, ho.2.2⟩
  have hshot : ∀ f, f ∈ (shotOf psa o s.attempt s.speaker inp).toList ++ s.air →
      shotOf psa o s.attempt s.speaker inp = some f ∨ f ∈ s.air := by
    intro f hf
    rcases List.mem_append.mp hf with hf | hf
    · exact .inl (Option.mem_toList.mp hf)
    · exact .inr hf
  refine ⟨fun hjoins hk => ?_, fun hjoins f hf hattempt hidx => ?_, fun f hf => ?_, h.opened,
    fun hjoins he => ?_⟩
  · rcases perform_slotted hc hk with hev | hslot
    · dsimp only at hk ⊢
      rw [hev] at hk ⊢
      by_cases hbegins : Begins s.speaker c
      · exact absurd hk (hb hbegins).1
      · obtain ⟨hj, ht⟩ := hsame hjoins hbegins
        exact (h.planned hj hk).congr ht
    · exact hslot
  · dsimp only at hattempt
    by_cases hbegins : Begins s.speaker c
    · rw [if_pos hbegins] at hattempt
      have hle : f.attempt ≤ s.attempt := by
        rcases hshot f hf with hnew | hold
        · exact (shotOf_spec hnew).1.le
        · exact h.past f hold
      omega
    · rw [if_neg hbegins] at hattempt
      obtain ⟨hj, ht⟩ := hsame hjoins hbegins
      rcases hshot f hf with hnew | hold
      · obtain ⟨hk, hstart⟩ := (shotOf_spec hnew).2 hidx
        rw [hstart]
        exact (h.planned hj hk).congr ht
      · exact (h.aired hj f hold hattempt hidx).congr ht
  · have hle : f.attempt ≤ s.attempt := by
      rcases hshot f hf with hnew | hold
      · exact (shotOf_spec hnew).1.le
      · exact h.past f hold
    dsimp only
    split <;> omega
  · have he' : s.Engaged := by
      obtain ⟨rx, hrx, hsrc⟩ := he
      exact ⟨rx, hrx, by rw [← hident]; exact hsrc⟩
    by_cases hbegins : Begins s.speaker c
    · exact absurd he' (hb hbegins).2
    · obtain ⟨hj, ht⟩ := hsame hjoins hbegins
      exact (h.agreed hj he').congr ht

/-- A step of the listener. -/
theorem OnGrid.listener {s : Encounter cfg} (h : s.OnGrid) {o : Oracle} {inp : Input} {c : Node cfg}
    (hc : LockGrid.perform psa o s.listener inp = some c)
    (ho : Opens s.listener c → ∀ rx ∈ s.listener.rxRing.head?,
      getLe16 rx.pdu offSrc = s.speaker.ident.addr →
      ∃ f ∈ s.air, f.attempt = s.attempt ∧ f.idx = 0 ∧ f.pdu = rx.pdu ∧ f.startUs = rx.airStartUs)
    (took last : Option Shot) :
    OnGrid { s with listener := c, opener := s.openerAfter c, took := took, last := last } := by
  refine ⟨h.planned, h.aired, h.past, fun hopen => ?_, fun hjoins he => ?_⟩
  · dsimp only [openerAfter] at hopen ⊢
    split_ifs at hopen with hopens hgone
    · exact hopens.2
    · exact absurd rfl hopen
    · rw [not_or, Bool.not_eq_true] at hgone
      exact hgone
  · obtain ⟨rx, hrx, hsrc⟩ := he
    dsimp only [openerAfter] at hrx ⊢
    split_ifs at hrx with hopens hgone
    · obtain ⟨f, hf, hattempt, hidx, -, hstart⟩ := ho hopens rx hrx hsrc
      rcases perform_origin hc hopens.2.1 hopens.2.2 with hsame | ⟨-, rx', hrx', ht⟩
      · have hn : c.hs.n = s.listener.hs.n := congrArg Prod.fst hsame
        exact absurd (hn.trans hopens.1) hopens.2.1
      · have heq : rx' = rx := Option.some.inj (hrx'.symm.trans hrx)
        rw [ht, heq, ← hstart]
        exact h.aired hjoins f hf hattempt hidx
    · cases hrx
    · rw [not_or, Bool.not_eq_true] at hgone
      rcases perform_origin hc hgone.1 hgone.2 with hsame | ⟨hnone, -⟩
      · have ht : c.hs.t0Us = s.listener.hs.t0Us := congrArg (fun x => x.2.2) hsame
        rw [ht]
        exact h.agreed hjoins ⟨rx, hrx, hsrc⟩
      · exact absurd ⟨hnone, hgone.1, hgone.2⟩ hopens

theorem Step.onGrid {s s' : Encounter cfg} (hs : Step psa HeardFirst s s') (h : s.OnGrid) :
    s'.OnGrid := by
  obtain ⟨⟨⟨side, o, inp⟩, hm⟩, hbegins, hopens⟩ := hs
  cases side with
  | speaker =>
    simp only [Encounter.perform] at hm
    split at hm
    · next hen =>
      obtain ⟨c, hc, rfl⟩ := Option.map_eq_some_iff.mp hm
      exact h.speaker hen.1 hc hbegins
    · cases hm
  | listener =>
    simp only [Encounter.perform] at hm
    split at hm
    · obtain ⟨c, hc, rfl⟩ := Option.map_eq_some_iff.mp hm
      exact h.listener hc hopens _ _
    · cases hm

theorem onGrid {idJ idR : Identity} {s : Encounter cfg}
    (h : Relation.ReflTransGen (Step psa HeardFirst) (boot cfg idJ idR) s) : s.OnGrid := by
  induction h with
  | refl => exact .boot idJ idR
  | tail _ hs ih => exact hs.onGrid ih

end Encounter

/-- In every run in which the router opens its context on the first fragment of a message of the
handshake the joiner is in, whatever else is lost, the two ends agree on where slots begin. -/
theorem origins_agree {idJ idR : Identity} {s : Encounter cfg}
    (h : Relation.ReflTransGen (Encounter.Step psa Encounter.HeardFirst) (.boot cfg idJ idR) s)
    (hj : s.Joins) (he : s.Engaged) : SlotsAgree s.speaker.hs s.listener.hs :=
  .of_slotted ((Encounter.onGrid h).agreed hj he)

/-- The `JOIN_REQ` of node 1, which drew 5 throughout. -/
def reqMsg : Bytes :=
  List.replicate nonceLen 5 ++ List.replicate ecPubLen 5 ++ plainCert 1 (plainPub 1)

/-- A fragment of it as node 2 receives it. -/
def reqFrag (idx startUs : ℕ) : RxRec :=
  let rx := plainFrag .joinReq 2 1 reqMsg idx
  { rx with pdu := splice rx.pdu offSeq [UInt8.ofNat idx], airStartUs := startUs }

/-- Node 1 hears a beacon of node 2 and sends its `JOIN_REQ`, in two fragments; node 2 receives
the one it is given in a scan. -/
def requestRun (rx : RxRec) : List (Side × Oracle × Input) :=
  [(.speaker, calm 1, .start), (.speaker, calm 2, .schedWork), (.speaker, calm 3, .tick 16000),
    (.speaker, calm 3, .granted), (.speaker, calm 3, .tick 5000),
    (.speaker, calm 4, .rxDone (plainBeacon 2)), (.speaker, calm 5, .rxWork),
    (.speaker, calm 5, .finishWork (calm 5)), (.speaker, calm 5, .tick 18900),
    (.speaker, calm 5, .granted), (.speaker, calm 5, .txDone 44256),
    (.listener, calm 1, .start), (.listener, calm 2, .schedWork), (.listener, calm 3, .tick 16000),
    (.listener, calm 3, .granted), (.listener, calm 3, .tick 30000),
    (.listener, calm 6, .rxDone rx), (.listener, calm 6, .rxWork)]

theorem origins_agree_first :
    ∃ s : Encounter .default, s.Joins ∧ s.Engaged ∧ s.listener.hs.t0Us = 40000 ∧
      SlotsAgree s.speaker.hs s.listener.hs := by
  obtain ⟨s, hs, hp⟩ := Encounter.exists_run Psa.plain
    (.boot .default (plainIdent 1 1) (plainIdent 2 2)) (P := Encounter.HeardFirst)
    (requestRun (reqFrag 0 40000)) (fun s => decide (s.Joins ∧ s.Engaged ∧
      s.listener.hs.t0Us = 40000)) (by decide +kernel)
  obtain ⟨hj, he, ht⟩ := of_decide_eq_true hp
  exact ⟨s, hj, he, ht, origins_agree hs hj he⟩

/-- The first fragment is lost; the router counts its slots from the second. -/
theorem not_origins_agree_second :
    ¬ ∀ (psa : Psa) (idJ idR : Identity) (s : Encounter .default),
      Relation.ReflTransGen (Encounter.Step psa fun _ _ => True) (.boot .default idJ idR) s →
      s.Joins → s.Engaged → SlotsAgree s.speaker.hs s.listener.hs := by
  intro h
  obtain ⟨s, hs, hp⟩ := Encounter.exists_run Psa.plain
    (.boot .default (plainIdent 1 1) (plainIdent 2 2)) (P := fun _ _ => True)
    (requestRun (reqFrag 1 44756)) (fun s => decide (s.Joins ∧ s.Engaged ∧
      s.speaker.hs.t0Us = 40000 ∧ s.listener.hs.t0Us = 44756)) (by decide +kernel)
  obtain ⟨hj, he, htj, htr⟩ := of_decide_eq_true hp
  obtain ⟨d, hd⟩ := (h _ _ _ s hs hj he).apart
  rw [htj, htr] at hd
  simp only [joinSlotUs] at hd
  omega

end LockGrid
